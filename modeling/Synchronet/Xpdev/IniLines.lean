import Synchronet.Lib.Trim
import Synchronet.Xpdev.Ini

/-!
# The lines of an ini file

What `key_name` reads from a line, with its name and its value apart, and what the loop of
`get_value` makes of a list of such lines.  White space at the end of a line makes no
difference to the name, and a line end none to the value.
-/

namespace Synchronet.Xpdev

open Trim
open Smblib (isspace strlwr)

/-! ## One line -/

/-- The line starts a section, for `key_name`. -/
def opensSection (str : Str) : Bool := (skipWhitespace str).head? == some iniOpenSectionChar

/-- The name of the key that stands in a line. -/
def keyOf (str : Str) : Option Str :=
  let p := skipWhitespace str
  if p.head? = some iniCommentChar ∨ p.head? = some iniOpenSectionChar then none
  else (separator p).map fun s ↦ truncsp (p.take s.1)

/-- The value behind a separator, and where it starts in a string of the given length. -/
def valueAt (literalsSupported : Bool) (length : ℕ) (p : Str) (sep : ℕ × Bool) :
    Option (ℕ × Str) :=
  let v := skipWhitespace (p.drop (sep.1 + 1))
  let vp := length - v.length
  if literalsSupported && sep.2 then
    let (quoted, v) := unquote (truncnl v)
    (cUnescapeStr v).map fun v ↦ (if quoted then vp + 1 else vp, v)
  else some (vp, truncsp v)

/-- The value in a line that holds a key, and where it starts. -/
def valueOf (literalsSupported : Bool) (str : Str) : Option (ℕ × Str) :=
  (separator (skipWhitespace str)).elim (some (0, []))
    (valueAt literalsSupported str.length (skipWhitespace str))

theorem keyName_eq (str : Str) (lit : Bool) :
    keyName str lit =
      if opensSection str then some .newSection
      else
        match keyOf str with
        | none => some .null
        | some name => (valueOf lit str).map fun v ↦ .key name v.1 v.2 := by
  unfold keyName opensSection keyOf valueOf
  generalize skipWhitespace str = p
  by_cases hc : p.head? = some iniCommentChar
  · have : iniCommentChar ≠ iniOpenSectionChar := by decide
    simp [hc, this]
  · by_cases ho : p.head? = some iniOpenSectionChar
    · have : iniOpenSectionChar ≠ iniCommentChar := by decide
      simp [ho, this]
    · rcases hs : separator p with _ | ⟨i, colon⟩
      · simp [hc, ho, hs]
      · cases lit <;> cases colon <;>
          simp [hc, ho, hs, valueAt, Function.comp_def]

theorem keyName_false_isSome (str : Str) : (keyName str false).isSome := by
  rw [keyName_eq]
  split
  · rfl
  · split
    · rfl
    · cases h : separator (skipWhitespace str) <;> simp [valueOf, valueAt, h]

theorem separator_nil : separator [] = none := rfl

theorem separator_cons (c : UInt8) (p : Str) :
    separator (c :: p) =
      if c = 0x3d then some (0, false)
      else if c = 0x3a then some (0, true)
      else (separator p).map fun s ↦ (s.1 + 1, s.2) := by
  by_cases he : c = 0x3d
  · subst he
    rcases hc : List.idxOf? 0x3a p with _ | j <;>
      simp [separator, strchr, List.idxOf?_cons, hc]
  · by_cases hc : c = 0x3a
    · subst hc
      rcases he : List.idxOf? 0x3d p with _ | j <;>
        simp [separator, strchr, List.idxOf?_cons, he]
    · rcases h1 : List.idxOf? 0x3d p with _ | i <;> rcases h2 : List.idxOf? 0x3a p with _ | j <;>
        simp [separator, strchr, List.idxOf?_cons, he, hc, h1, h2]
      split <;> rfl

theorem separator_append {p : Str} (ws : Str) (h : ∀ c ∈ p, c ≠ 0x3d ∧ c ≠ 0x3a) :
    separator (p ++ ws) = (separator ws).map fun s ↦ (s.1 + p.length, s.2) := by
  induction p with
  | nil => simp
  | cons c p ih =>
      have hc := h c (by simp)
      have hp := ih fun d hd ↦ h d (by simp [hd])
      rw [List.cons_append, separator_cons, if_neg hc.1, if_neg hc.2, hp]
      simp [Function.comp_def, Nat.add_assoc]

theorem separator_eq_none {p : Str} (h : ∀ c ∈ p, c ≠ 0x3d ∧ c ≠ 0x3a) : separator p = none := by
  simpa [separator_nil] using separator_append [] h

theorem separator_lt {p : Str} {sep : ℕ × Bool} (h : separator p = some sep) :
    sep.1 < p.length := by
  induction p generalizing sep with
  | nil => cases h
  | cons c p ih =>
      rw [separator_cons] at h
      split at h
      · cases h
        simp
      · split at h
        · cases h
          simp
        · obtain ⟨t, ht, rfl⟩ := Option.map_eq_some_iff.mp h
          simpa using ih ht

/-! ## White space at the end of a line -/

theorem ne_separator_of_isspace {c : UInt8} (h : isspace c = true) : c ≠ 0x3d ∧ c ≠ 0x3a := by
  constructor <;> rintro rfl <;> cases h

theorem separator_append_blank (p : Str) {ws : Str} (h : ∀ c ∈ ws, isspace c = true) :
    separator (p ++ ws) = separator p := by
  induction p with
  | nil => exact separator_eq_none fun c hc ↦ ne_separator_of_isspace (h c hc)
  | cons c p ih => rw [List.cons_append, separator_cons, ih, separator_cons]

/-- What is skipped in front of a line and in front of the same line with blanks behind it. -/
theorem skipWhitespace_append_blank (str : Str) {ws : Str} (h : ∀ c ∈ ws, isspace c = true) :
    skipWhitespace (str ++ ws) =
      if skipWhitespace str = [] then [] else skipWhitespace str ++ ws := by
  split
  case isTrue hnil => exact dropWhile_append_eq_nil hnil h
  case isFalse hne => exact dropWhile_append_of_neg hne

theorem head_skipWhitespace_append_blank (str : Str) {ws : Str}
    (h : ∀ c ∈ ws, isspace c = true) :
    (skipWhitespace (str ++ ws)).head? = (skipWhitespace str).head? := by
  rw [skipWhitespace_append_blank str h]
  split
  case isTrue hnil => rw [hnil]
  case isFalse hne => exact List.head?_append_of_ne_nil _ hne

theorem opensSection_append_blank (str : Str) {ws : Str} (h : ∀ c ∈ ws, isspace c = true) :
    opensSection (str ++ ws) = opensSection str := by
  rw [opensSection, head_skipWhitespace_append_blank str h, opensSection]

theorem separator_skipWhitespace_append_blank (str : Str) {ws : Str}
    (h : ∀ c ∈ ws, isspace c = true) :
    separator (skipWhitespace (str ++ ws)) = separator (skipWhitespace str) := by
  rw [skipWhitespace_append_blank str h]
  split
  case isTrue hnil => rw [hnil]
  case isFalse hne => exact separator_append_blank _ h

theorem keyOf_append_blank (str : Str) {ws : Str} (h : ∀ c ∈ ws, isspace c = true) :
    keyOf (str ++ ws) = keyOf str := by
  simp only [keyOf]
  rw [head_skipWhitespace_append_blank str h, separator_skipWhitespace_append_blank str h]
  congr 1
  rcases hs : separator (skipWhitespace str) with _ | sep
  · rfl
  · have hlt := separator_lt hs
    have hne : skipWhitespace str ≠ [] := by
      intro hnil
      simp [hnil] at hlt
    rw [skipWhitespace_append_blank str h, if_neg hne, Option.map_some, Option.map_some,
      List.take_append_of_le_length hlt.le]

/-- The characters of a line end. -/
def IsLineEnd (nl : Str) : Prop := ∀ c ∈ nl, c = 13 ∨ c = 10

theorem IsLineEnd.isspace {nl : Str} (h : IsLineEnd nl) : ∀ c ∈ nl, isspace c = true := by
  intro c hc
  rcases h c hc with rfl | rfl <;> rfl

theorem exists_truncnl_append (str : Str) : ∃ nl, str = truncnl str ++ nl ∧ IsLineEnd nl := by
  obtain ⟨nl, hnl, h⟩ := exists_rdropWhile_append (fun c ↦ decide (c = 13 ∨ c = 10)) str
  exact ⟨nl, hnl, fun c hc ↦ by simpa using h c hc⟩

theorem truncnl_append (str : Str) {nl : Str} (h : IsLineEnd nl) :
    truncnl (str ++ nl) = truncnl str :=
  rdropWhile_append fun c hc ↦ by simpa using h c hc

theorem truncsp_append (str : Str) {ws : Str} (h : ∀ c ∈ ws, isspace c = true) :
    truncsp (str ++ ws) = truncsp str :=
  rdropWhile_append h

theorem exists_truncsp_append (str : Str) :
    ∃ ws, str = truncsp str ++ ws ∧ ∀ c ∈ ws, isspace c = true :=
  exists_rdropWhile_append isspace str

theorem valueAt_snd (lit : Bool) (length : ℕ) (p : Str) (sep : ℕ × Bool) :
    (valueAt lit length p sep).map Prod.snd =
      if lit && sep.2 then cUnescapeStr (unquote (truncnl (skipWhitespace (p.drop (sep.1 + 1))))).2
      else some (truncsp (skipWhitespace (p.drop (sep.1 + 1)))) := by
  unfold valueAt
  split
  · simp [Function.comp_def]
  · rfl

theorem truncnl_skipWhitespace_append (v : Str) {nl : Str} (h : IsLineEnd nl) :
    truncnl (skipWhitespace (v ++ nl)) = truncnl (skipWhitespace v) := by
  rw [skipWhitespace_append_blank v h.isspace]
  split
  case isTrue hnil => rw [hnil]
  case isFalse => exact truncnl_append _ h

theorem truncsp_skipWhitespace_append (v : Str) {ws : Str} (h : ∀ c ∈ ws, isspace c = true) :
    truncsp (skipWhitespace (v ++ ws)) = truncsp (skipWhitespace v) := by
  rw [skipWhitespace_append_blank v h]
  split
  case isTrue hnil => rw [hnil]
  case isFalse => exact truncsp_append _ h

/-- The line end makes no difference to a value. -/
theorem valueOf_append (lit : Bool) (str : Str) {nl : Str} (h : IsLineEnd nl) :
    (valueOf lit (str ++ nl)).map Prod.snd = (valueOf lit str).map Prod.snd := by
  unfold valueOf
  rw [separator_skipWhitespace_append_blank str h.isspace]
  rcases hs : separator (skipWhitespace str) with _ | sep
  · rfl
  · have hlt := separator_lt hs
    have hne : skipWhitespace str ≠ [] := by
      intro hnil
      simp [hnil] at hlt
    rw [skipWhitespace_append_blank str h.isspace, if_neg hne, Option.elim_some, Option.elim_some,
      valueAt_snd, valueAt_snd, List.drop_append_of_le_length hlt,
      truncnl_skipWhitespace_append _ h, truncsp_skipWhitespace_append _ h.isspace]

/-! ## The lines of a list -/

/-- The buffer that `get_value` hands to `key_name`. -/
def lineBuf (s : Str) : Str := afterIsEof (safecopy iniMaxLineLen s)

/-- The line ends a section. -/
def stops (s : Str) : Bool := isEof (safecopy iniMaxLineLen s) || opensSection (lineBuf s)

/-- The line holds the key, in any case. -/
def holds (key s : Str) : Bool := !stops s && (keyOf (lineBuf s)).any (stricmp · key)

/-- No literal in the line ends with a backslash. -/
def readable (lit : Bool) (s : Str) : Bool := (keyName (lineBuf s) lit).isSome

/-- The search for the key goes on behind the line. -/
def passes (key s : Str) : Bool := !stops s && !holds key s

theorem readable_false (s : Str) : readable false s = true := keyName_false_isSome _

@[simp] theorem getValueLoop_nil (key : Str) (lit : Bool) (i : ℕ) :
    getValueLoop key lit i [] = some { i } := rfl

theorem getValueLoop_stop {key s : Str} (lit : Bool) (i : ℕ) (list : List Str)
    (h : stops s = true) : getValueLoop key lit i (s :: list) = some { i } := by
  unfold stops at h
  by_cases he : isEof (safecopy iniMaxLineLen s) = true
  · simp [getValueLoop, he]
  · have ho : opensSection (lineBuf s) = true := by simpa [he] using h
    simp only [lineBuf] at ho
    simp [getValueLoop, he, keyName_eq, ho]

theorem getValueLoop_hold {key s : Str} (lit : Bool) (i : ℕ) (list : List Str)
    (h : holds key s = true) :
    getValueLoop key lit i (s :: list) = (valueOf lit (lineBuf s)).map fun v ↦
      { i, value := v.2.take (iniMaxValueLen - 1), vp := some v.1 } := by
  obtain ⟨hstop, name, hname, hkey⟩ : stops s = false ∧
      ∃ name, keyOf (lineBuf s) = some name ∧ stricmp name key = true := by
    simpa [holds, Option.any_eq_true] using h
  obtain ⟨he, ho⟩ : isEof (safecopy iniMaxLineLen s) = false ∧ opensSection (lineBuf s) = false := by
    simpa [stops] using hstop
  simp only [lineBuf] at ho hname ⊢
  rw [getValueLoop, if_neg (by simp [he]), keyName_eq, if_neg (by simp [ho]), hname]
  rcases valueOf lit (afterIsEof (safecopy iniMaxLineLen s)) with _ | v
  · rfl
  · simp [hkey]

theorem getValueLoop_pass {key s : Str} (lit : Bool) (i : ℕ) (list : List Str)
    (h : passes key s = true) :
    getValueLoop key lit i (s :: list) =
      if readable lit s then getValueLoop key lit (i + 1) list else none := by
  obtain ⟨hstop, hhold⟩ : stops s = false ∧ holds key s = false := by simpa [passes] using h
  have hname : (keyOf (lineBuf s)).any (stricmp · key) = false := by
    simpa [holds, hstop] using hhold
  obtain ⟨he, ho⟩ : isEof (safecopy iniMaxLineLen s) = false ∧ opensSection (lineBuf s) = false := by
    simpa [stops] using hstop
  simp only [lineBuf] at ho hname
  rw [getValueLoop, if_neg (by simp [he]), keyName_eq, if_neg (by simp [ho])]
  rcases hk : keyOf (afterIsEof (safecopy iniMaxLineLen s)) with _ | name
  · have : readable lit s = true := by simp [readable, lineBuf, keyName_eq, ho, hk]
    simp [this]
  · have hkey : stricmp name key = false := by simpa [hk] using hname
    rcases hv : valueOf lit (afterIsEof (safecopy iniMaxLineLen s)) with _ | v
    · have : readable lit s = false := by simp [readable, lineBuf, keyName_eq, ho, hk, hv]
      simp [this]
    · have : readable lit s = true := by simp [readable, lineBuf, keyName_eq, ho, hk, hv]
      simp [this, hkey]

/-- The search reads on behind lines without the key, unless one of them is not readable. -/
theorem getValueLoop_append {key : Str} (lit : Bool) (i : ℕ) (pre rest : List Str)
    (h : ∀ s ∈ pre, passes key s = true) :
    getValueLoop key lit i (pre ++ rest) =
      if pre.all (readable lit) then getValueLoop key lit (i + pre.length) rest else none := by
  induction pre generalizing i with
  | nil => simp
  | cons s pre ih =>
      rw [List.cons_append, getValueLoop_pass lit i _ (h s (by simp)),
        ih (i + 1) fun t ht ↦ h t (by simp [ht]), List.all_cons, List.length_cons]
      cases readable lit s
      · rfl
      · simp [Nat.add_comm, Nat.add_left_comm]

theorem not_passes {key s : Str} : passes key s = false ↔ stops s = true ∨ holds key s = true := by
  cases hs : stops s <;> cases hh : holds key s <;> simp [passes, hs, hh]

/-- The lines of a section that a search runs over, up to the first that holds the key or
ends the section. -/
theorem exists_passes_append (key : Str) (list : List Str) :
    ∃ pre rest, list = pre ++ rest ∧ (∀ s ∈ pre, passes key s = true) ∧
      (rest = [] ∨ ∃ s post, rest = s :: post ∧ (stops s = true ∨ holds key s = true)) := by
  obtain ⟨pre, rest, hlist, hpre, hrest⟩ := exists_first (fun s ↦ !passes key s) list
  refine ⟨pre, rest, hlist, fun s hs ↦ by simpa using hpre s hs, hrest.imp id ?_⟩
  rintro ⟨s, post, rfl, hs⟩
  exact ⟨s, post, rfl, not_passes.mp (by simpa using hs)⟩

/-! ## The string that a search finds -/

/-- The string for the key in the lines of a section, or the default where the search finds no
key or `blank` holds of the line, the place of the value in it and the value. -/
def stringAt (blank : Str → ℕ × Str → Bool) (key : Str) (deflt : Option Str) :
    List Str → Option (Option Str)
  | [] => some deflt
  | s :: list =>
      if stops s then some deflt
      else if holds key s then
        (valueOf true (lineBuf s)).map fun v ↦
          if blank s v then deflt else some (v.2.take (iniMaxValueLen - 1))
      else if readable true s then stringAt blank key deflt list
      else none

/-- The test of `iniGetString`: nothing stands in the string where the value starts. -/
def blankText (s : Str) (v : ℕ × Str) : Bool := s.drop v.1 = []

variable {blank : Str → ℕ × Str → Bool} {key s : Str} {deflt : Option Str}

theorem stringAt_stop (list : List Str) (h : stops s = true) :
    stringAt blank key deflt (s :: list) = some deflt := by
  simp [stringAt, h]

theorem not_stops_of_holds (h : holds key s = true) : stops s = false := by
  cases hs : stops s
  · rfl
  · simp [holds, hs] at h

theorem stringAt_hold (list : List Str) (h : holds key s = true) :
    stringAt blank key deflt (s :: list) = (valueOf true (lineBuf s)).map fun v ↦
      if blank s v then deflt else some (v.2.take (iniMaxValueLen - 1)) := by
  simp [stringAt, h, not_stops_of_holds h]

theorem stringAt_pass (list : List Str) (h : passes key s = true) :
    stringAt blank key deflt (s :: list) =
      if readable true s then stringAt blank key deflt list else none := by
  obtain ⟨hstop, hhold⟩ : stops s = false ∧ holds key s = false := by simpa [passes] using h
  simp [stringAt, hstop, hhold]

theorem stringAt_append (pre rest : List Str) (h : ∀ s ∈ pre, passes key s = true) :
    stringAt blank key deflt (pre ++ rest) =
      if pre.all (readable true) then stringAt blank key deflt rest else none := by
  induction pre with
  | nil => simp
  | cons s pre ih =>
      rw [List.cons_append, stringAt_pass _ (h s (by simp)), ih fun t ht ↦ h t (by simp [ht]),
        List.all_cons]
      cases readable true s <;> rfl

/-- `iniGetString` reads the lines of the section. -/
theorem iniGetString_eq (list : List Str) (section_ : Option Str) (key : Str)
    (deflt : Option Str) :
    iniGetString list section_ key deflt =
      stringAt blankText key deflt (list.drop (findSection list section_)) := by
  have hloop : ∀ pre rest : List Str, list = pre ++ rest →
      ((getValueLoop key true pre.length rest).map fun r ↦ r.vp.elim deflt fun vp ↦
        if (list.getD r.i []).drop vp = [] then deflt else some r.value) =
      stringAt blankText key deflt rest := by
    intro pre rest hlist
    induction rest generalizing pre with
    | nil => rfl
    | cons s rest ih =>
        have hrest := ih (pre ++ [s]) (by simp [hlist])
        have hget : list.getD pre.length [] = s := by simp [hlist]
        rw [List.length_append, List.length_singleton] at hrest
        cases hp : passes key s with
        | true =>
            rw [getValueLoop_pass _ _ _ hp, stringAt_pass _ hp, ← hrest]
            cases readable true s <;> rfl
        | false =>
            rcases not_passes.mp hp with hs | hs
            · rw [getValueLoop_stop _ _ _ hs, stringAt_stop _ hs]
              rfl
            · rw [getValueLoop_hold _ _ _ hs, stringAt_hold _ hs, Option.map_map]
              congr 1
              funext v
              simp only [Function.comp_apply, Option.elim_some, hget, blankText, decide_eq_true_eq]
  rcases Nat.lt_or_ge list.length (findSection list section_) with hlt | hle
  · rw [iniGetString, getValue]
    simp [List.drop_eq_nil_of_le hlt.le, stringAt]
  · have := hloop (list.take (findSection list section_)) (list.drop (findSection list section_))
      (List.take_append_drop _ _).symm
    rw [List.length_take, min_eq_left hle] at this
    rw [iniGetString, getValue, ← this]
    congr 1
    funext r
    cases r.vp <;> rfl

end Synchronet.Xpdev
