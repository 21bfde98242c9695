import Synchronet.Xpdev.IniLines

/-!
# Lookups in a file and in a list

The same settings are read from a file by `iniReadString` and from the list of its lines by
`iniGetString`.  The two searches for a section treat `!eof` differently, and the two
functions test different strings for being blank.
-/

namespace Synchronet.Xpdev

open Trim
open Smblib (isspace cstr)

/-! ## A line and its copy without the line end -/

theorem head_truncnl {c : UInt8} (hc : c ≠ 13 ∧ c ≠ 10) (str : Str) :
    (truncnl str).head? = some c ↔ str.head? = some c := by
  obtain ⟨nl, hnl, hend⟩ := exists_truncnl_append str
  generalize truncnl str = t at hnl
  subst hnl
  cases t with
  | nil =>
      cases nl with
      | nil => rfl
      | cons d nl =>
          have := hend d (by simp)
          simp only [List.head?_nil, List.nil_append, List.head?_cons, Option.some_inj]
          constructor
          · intro h
            cases h
          · rintro rfl
            rcases this with rfl | rfl
            · exact absurd rfl hc.1
            · exact absurd rfl hc.2
  | cons d t => simp

theorem truncsp_truncnl (str : Str) : truncsp (truncnl str) = truncsp str :=
  rdropWhile_rdropWhile fun c hc ↦ by
    rcases (by simpa using hc : c = 13 ∨ c = 10) with rfl | rfl <;> rfl

theorem isEof_truncnl (str : Str) : isEof (truncnl str) = isEof str := by
  have := head_truncnl (c := 0x21) (by decide) str
  simp only [isEof, truncsp_truncnl, this]

theorem exists_afterIsEof_truncnl (str : Str) :
    ∃ nl, afterIsEof str = afterIsEof (truncnl str) ++ nl ∧ IsLineEnd nl := by
  have hhead := head_truncnl (c := 0x21) (by decide) str
  by_cases h : str.head? = some 0x21
  · refine ⟨[], ?_, by simp [IsLineEnd]⟩
    rw [afterIsEof, if_pos h, afterIsEof, if_pos (hhead.mpr h), truncsp_truncnl, List.append_nil]
  · rw [afterIsEof, if_neg h, afterIsEof, if_neg (fun h' ↦ h (hhead.mp h'))]
    exact exists_truncnl_append str

theorem length_truncnl_le (str : Str) : (truncnl str).length ≤ str.length :=
  (List.rdropWhile_prefix _ str).length_le

theorem lineBuf_truncnl {str : Str} (h : str.length < iniMaxLineLen) :
    lineBuf (truncnl str) = afterIsEof (truncnl str) := by
  have := length_truncnl_le str
  rw [lineBuf, safecopy, List.take_of_length_le (by omega)]

/-! ## Reading a value -/

/-- The test of `iniReadString`. -/
def blankValue (_ : Str) (v : ℕ × Str) : Bool := v.2 = []

theorem readValueLoop_eq (key : Str) (deflt : Option Str) (fp : List Str)
    (h : ∀ str ∈ fp, str.length < iniMaxLineLen) :
    ((readValueLoop key true fp).map fun value ↦
      match value with
      | none => deflt
      | some value => if value = [] then deflt else some value) =
    stringAt blankValue key deflt (fp.map truncnl) := by
  induction fp with
  | nil => rfl
  | cons str fp ih =>
      have hfp := ih fun t ht ↦ h t (by simp [ht])
      have hstr := h str (by simp)
      have hbuf := lineBuf_truncnl hstr
      have heof : isEof (safecopy iniMaxLineLen (truncnl str)) = isEof str := by
        have := length_truncnl_le str
        rw [safecopy, List.take_of_length_le (by omega), isEof_truncnl]
      obtain ⟨nl, hnl, hend⟩ := exists_afterIsEof_truncnl str
      have hopen : opensSection (afterIsEof str) = opensSection (lineBuf (truncnl str)) := by
        rw [hnl, hbuf, opensSection_append_blank _ hend.isspace]
      have hkey : keyOf (afterIsEof str) = keyOf (lineBuf (truncnl str)) := by
        rw [hnl, hbuf, keyOf_append_blank _ hend.isspace]
      have hvalue : (valueOf true (afterIsEof str)).map Prod.snd =
          (valueOf true (lineBuf (truncnl str))).map Prod.snd := by
        rw [hnl, hbuf, valueOf_append _ _ hend]
      rw [List.map_cons, readValueLoop, ← heof]
      generalize truncnl str = s at *
      by_cases he : isEof (safecopy iniMaxLineLen s) = true
      · rw [if_pos he, stringAt_stop _ (by simp [stops, he])]
        rfl
      rw [if_neg he, keyName_eq, hopen, hkey]
      cases ho : opensSection (lineBuf s) with
      | true =>
          rw [stringAt_stop _ (by simp [stops, ho])]
          rfl
      | false =>
          have hstop : stops s = false := by simp [stops, he, ho]
          rcases hk : keyOf (lineBuf s) with _ | name
          · have hread : readable true s = true := by simp [readable, keyName_eq, ho, hk]
            rw [stringAt_pass _ (by simp [passes, holds, hstop, hk]), if_pos hread]
            exact hfp
          · rcases hv : valueOf true (lineBuf s) with _ | v
            · rw [hv] at hvalue
              have hnone : valueOf true (afterIsEof str) = none := by simpa using hvalue
              have hread : readable true s = false := by simp [readable, keyName_eq, ho, hk, hv]
              cases hm : stricmp name key with
              | true => simp [stringAt, hstop, holds, hk, hm, hv, hnone]
              | false => simp [stringAt, hstop, holds, hk, hm, hread, hnone]
            · rw [hv] at hvalue
              obtain ⟨w, hw, hwv⟩ : ∃ w, valueOf true (afterIsEof str) = some w ∧ w.2 = v.2 := by
                simpa using hvalue
              have hread : readable true s = true := by simp [readable, keyName_eq, ho, hk, hv]
              cases hm : stricmp name key with
              | true =>
                  simp [stringAt, hstop, holds, hk, hm, hv, hw, hwv, blankValue]
              | false =>
                  rw [stringAt_pass _ (by simp [passes, holds, hstop, hk, hm]), if_pos hread, ← hfp]
                  simp [hw, hm]

/-! ## Finding a section -/

theorem strrchr_append {p nl : Str} {c : UInt8} (h : c ∉ nl) :
    strrchr (p ++ nl) c = strrchr p c := by
  have hnone : List.idxOf? c nl.reverse = none := by simpa using h
  have hidx : ∀ xs : Str, c ∉ xs → ∀ ys : Str,
      List.idxOf? c (xs ++ ys) = (List.idxOf? c ys).map (· + xs.length) := by
    intro xs hxs ys
    induction xs with
    | nil => simp
    | cons x xs ih =>
        have hx : (x == c) = false := by simpa using fun h : x = c ↦ hxs (by simp [h])
        rw [List.cons_append, List.idxOf?_cons, hx, ih fun h ↦ hxs (by simp [h])]
        simp [Function.comp_def, Nat.add_assoc]
  rw [strrchr, strrchr, List.reverse_append, hidx _ (by simpa using h), Option.map_map]
  congr 1
  funext i
  simp only [Function.comp_apply, List.length_append, List.length_reverse]
  omega

theorem strrchr_lt {p : Str} {c : UInt8} {i : ℕ} (h : strrchr p c = some i) : i < p.length := by
  obtain ⟨j, hj, rfl⟩ := Option.map_eq_some_iff.mp h
  have : p ≠ [] := by
    rintro rfl
    cases hj
  have := List.length_pos_iff.mpr this
  omega

theorem sectionName_eq_none {str : Str} (h : opensSection str = false) :
    sectionName str = none := by
  unfold sectionName
  unfold opensSection at h
  rcases hs : skipWhitespace str with _ | ⟨c, p⟩
  · rfl
  · rw [hs] at h
    simp only [List.head?_cons, beq_eq_false_iff_ne, ne_eq, Option.some_inj] at h
    simp [h]

theorem sectionName_append (str : Str) {nl : Str} (h : IsLineEnd nl) :
    sectionName (str ++ nl) = sectionName str := by
  have hnot : iniCloseSectionChar ∉ nl := by
    intro hc
    rcases h _ hc with h | h <;> cases h
  unfold sectionName
  rw [skipWhitespace_append_blank str h.isspace]
  rcases hs : skipWhitespace str with _ | ⟨c, p⟩
  · rfl
  · simp only [reduceCtorEq, if_false, List.cons_append]
    split
    · rfl
    · rw [skipWhitespace_append_blank p h.isspace]
      split
      case isTrue hnil => rw [hnil]
      case isFalse hne =>
        rw [strrchr_append hnot]
        rcases hr : strrchr (skipWhitespace p) iniCloseSectionChar with _ | tp
        · rfl
        · rw [Option.map_some, Option.map_some,
            List.take_append_of_le_length (strrchr_lt hr).le]

/-- A copy that was cut off opens a section only if the line does. -/
theorem opensSection_of_take {str : Str} {n : ℕ} (h : opensSection (str.take n) = true) :
    opensSection str = true := by
  have hne : skipWhitespace (str.take n) ≠ [] := by
    intro hnil
    simp [opensSection, hnil] at h
  have := @dropWhile_append_of_neg _ isspace (str.take n) (str.drop n) hne
  rw [List.take_append_drop] at this
  unfold opensSection skipWhitespace at *
  rw [this, List.head?_append_of_ne_nil _ hne]
  exact h

theorem opensSection_eq_false_of_head {str : Str} (h : str.head? = some 0x21) :
    opensSection str = false := by
  obtain ⟨p, rfl⟩ : ∃ p, str = 0x21 :: p := by
    cases str with
    | nil => cases h
    | cons c p => exact ⟨p, by simpa using h⟩
  rfl

theorem afterIsEof_head (str : Str) (h : str.head? = some 0x21) :
    opensSection (afterIsEof str) = false := by
  obtain ⟨ws, hws, hblank⟩ := exists_truncsp_append str
  rw [afterIsEof, if_pos h, ← opensSection_append_blank _ hblank, ← hws,
    opensSection_eq_false_of_head h]

/-- A name between brackets, or a directive, that fits the buffer of `find_section_index`. -/
def ShortName (str : Str) : Prop :=
  str.head? = some 0x21 ∨ opensSection str = true → str.length < iniMaxValueLen

instance : DecidablePred ShortName := fun str ↦
  inferInstanceAs (Decidable (str.head? = some 0x21 ∨ opensSection str = true → _))

/-- `find_section_index` reads the same name from the copy of a line. -/
theorem sectionName_truncnl {str : Str} (h : ShortName str) :
    sectionName (afterIsEof (safecopy iniMaxValueLen (truncnl str))) =
      sectionName (afterIsEof str) := by
  have hlen := length_truncnl_le str
  by_cases hshort : str.length < iniMaxValueLen
  · obtain ⟨nl, hnl, hend⟩ := exists_afterIsEof_truncnl str
    rw [safecopy, List.take_of_length_le (by omega), hnl, sectionName_append _ hend]
  · have hhead : str.head? ≠ some 0x21 := fun h' ↦ hshort (h (.inl h'))
    have hopen : opensSection str = false := by
      by_contra h'
      exact hshort (h (.inr (by simpa using h')))
    obtain ⟨nl, hnl, hend⟩ := exists_truncnl_append str
    have hcopy : opensSection (afterIsEof (safecopy iniMaxValueLen (truncnl str))) = false := by
      by_cases hh : (safecopy iniMaxValueLen (truncnl str)).head? = some 0x21
      · exact afterIsEof_head _ hh
      · rw [afterIsEof, if_neg hh]
        by_contra ho
        have ho : opensSection (safecopy iniMaxValueLen (truncnl str)) = true := by simpa using ho
        have := opensSection_of_take ho
        rw [← opensSection_append_blank _ hend.isspace, ← hnl, hopen] at this
        cases this
    rw [sectionName_eq_none hcopy, afterIsEof, if_neg hhead, sectionName_eq_none hopen]

theorem isEof_safecopy_truncnl {str : Str} (h : ShortName str) :
    isEof (safecopy iniMaxValueLen (truncnl str)) = isEof str := by
  have hlen := length_truncnl_le str
  by_cases hshort : str.length < iniMaxValueLen
  · rw [safecopy, List.take_of_length_le (by omega), isEof_truncnl]
  · have hhead : str.head? ≠ some 0x21 := fun h' ↦ hshort (h (.inl h'))
    have hcopy : (safecopy iniMaxValueLen (truncnl str)).head? ≠ some 0x21 := by
      rw [safecopy, List.head?_take, if_neg (by decide)]
      exact fun h' ↦ hhead ((head_truncnl (by decide) str).mp h')
    simp [isEof, hhead, hcopy]

/-- A pass over the list finds what a pass over the file finds, except that `!eof` is not the
end of the search but its result. -/
theorem findPass_truncnl (count : ℕ) (sec : Str) (cs : Bool) (i : ℕ) (fp : List Str)
    (h : ∀ str ∈ fp, ShortName str) :
    (∃ rest pre hdr, seekPass sec cs fp = some rest ∧ fp = pre ++ hdr :: rest ∧
      findPass count sec cs i (fp.map truncnl) = some (i + pre.length)) ∨
    (seekPass sec cs fp = none ∧
      findPass count sec cs i (fp.map truncnl) = if fp.any isEof then some count else none) := by
  induction fp generalizing i with
  | nil => exact .inr ⟨rfl, rfl⟩
  | cons str fp ih =>
      have hstr := h str (by simp)
      rw [seekPass, List.map_cons, findPass, isEof_safecopy_truncnl hstr, sectionName_truncnl hstr]
      cases he : isEof str with
      | true => exact .inr ⟨by simp, by simp [he]⟩
      | false =>
          by_cases hm : (sectionName (afterIsEof str)).any (sectionMatch · sec cs) = true
          · exact .inl ⟨fp, [], str, by simp [hm], rfl, by simp [hm]⟩
          · rcases ih (i + 1) fun t ht ↦ h t (by simp [ht]) with
              ⟨rest, pre, hdr, hseek, hfp, hfind⟩ | ⟨hseek, hfind⟩
            · refine .inl ⟨rest, str :: pre, hdr, by simpa [hm] using hseek, by simp [hfp], ?_⟩
              rw [if_neg (by simp), if_neg hm, hfind, List.length_cons, Nat.add_right_comm,
                Nat.add_assoc i]
            · refine .inr ⟨by simpa [hm] using hseek, ?_⟩
              rw [if_neg (by simp), if_neg hm, hfind, List.any_cons, he, Bool.false_or]

/-- The list search gives up at `!eof` before it looks for the name in another case. -/
def HiddenFromList (fp : List Str) : Option Str → Prop
  | none => False
  | some sec => seekPass sec true fp = none ∧ fp.any isEof = true

instance (fp : List Str) : (section_ : Option Str) → Decidable (HiddenFromList fp section_)
  | none => inferInstanceAs (Decidable False)
  | some _ => inferInstanceAs (Decidable (_ ∧ _))

/-- The lines of the section in the list are those in the file, unless they are hidden. -/
theorem drop_findSection (fp : List Str) (section_ : Option Str)
    (h : ∀ str ∈ fp, ShortName str) :
    (fp.map truncnl).drop (findSection (fp.map truncnl) section_) =
      if HiddenFromList fp section_ then []
      else ((seekSection fp section_).getD []).map truncnl := by
  cases section_ with
  | none => simp [findSection, seekSection, HiddenFromList]
  | some sec =>
      have hdrop : ∀ {rest pre : List Str} {hdr : Str}, fp = pre ++ hdr :: rest →
          findSectionIndex (fp.map truncnl) sec = pre.length →
          (fp.map truncnl).drop (findSection (fp.map truncnl) (some sec)) = rest.map truncnl := by
        intro rest pre hdr hfp hidx
        have hlt : pre.length < (fp.map truncnl).length := by simp [hfp]
        rw [findSection, hidx, if_pos hlt, hfp, List.map_append, List.map_cons, List.append_cons]
        exact List.drop_left' (by simp)
      have hnone : findSectionIndex (fp.map truncnl) sec = (fp.map truncnl).length →
          (fp.map truncnl).drop (findSection (fp.map truncnl) (some sec)) = [] := by
        intro hidx
        rw [findSection, hidx, if_neg (lt_irrefl _), List.drop_length]
      rcases findPass_truncnl (fp.map truncnl).length sec true 0 fp h with
        ⟨rest, pre, hdr, hseek, hfp, hfind⟩ | ⟨hseek, hfind⟩
      · rw [if_neg (by simp [HiddenFromList, hseek]), seekSection, hseek, Option.some_or,
          Option.getD_some]
        exact hdrop hfp (by rw [findSectionIndex, hfind]; simp)
      · by_cases he : fp.any isEof = true
        · rw [if_pos (show HiddenFromList fp (some sec) from ⟨hseek, he⟩)]
          exact hnone (by rw [findSectionIndex, hfind, if_pos he]; rfl)
        · rw [if_neg he] at hfind
          rw [if_neg (fun h' ↦ he (show HiddenFromList fp (some sec) from h').2), seekSection,
            hseek, Option.none_or]
          rcases findPass_truncnl (fp.map truncnl).length sec false 0 fp h with
            ⟨rest, pre, hdr, hseek', hfp, hfind'⟩ | ⟨hseek', hfind'⟩
          · rw [hseek', Option.getD_some]
            exact hdrop hfp (by rw [findSectionIndex, hfind, hfind']; simp)
          · rw [hseek']
            exact hnone (by rw [findSectionIndex, hfind, hfind', if_neg he]; rfl)

/-! ## Reading a file -/

/-- What is read up to a line end, if the last element makes no difference to its length. -/
theorem take_idxOf_append {xs ys : List UInt8} {c : UInt8}
    (h : ((xs ++ ys).take ((xs ++ ys).idxOf c + 1)).length ≤ xs.length) :
    (xs ++ ys).take ((xs ++ ys).idxOf c + 1) = xs.take (xs.idxOf c + 1) := by
  by_cases hc : c ∈ xs
  · have := List.idxOf_lt_length_of_mem hc
    rw [List.idxOf_append_of_mem hc, List.take_append_of_le_length (by omega)]
  · rw [List.idxOf_append_of_notMem hc] at h ⊢
    have hys : ys = [] := by
      rw [List.length_take, List.length_append] at h
      by_contra hne
      have := List.length_pos_iff.mpr hne
      omega
    subst hys
    have := List.idxOf_eq_length hc
    simp [this]

/-- Where a line fits, the size of the buffer makes no difference. -/
theorem fgets_eq {n : ℕ} {fp line rest : List UInt8} (h : fgets (n + 1) fp = some (line, rest))
    (hline : line.length < n) : fgets n fp = some (line, rest) := by
  rcases fp with _ | ⟨c, fp⟩
  · cases h
  · simp only [fgets, Option.some_inj, Prod.mk.injEq, Nat.add_sub_cancel] at h ⊢
    obtain ⟨hl, hr⟩ := h
    generalize c :: fp = xs at *
    have hcut : xs.take n = xs.take (n - 1) ++ (xs.drop (n - 1)).take 1 := by
      rw [← List.take_add, Nat.sub_add_cancel (by omega)]
    have hline' : (xs.take (n - 1)).take ((xs.take (n - 1)).idxOf 10 + 1) = line := by
      rw [hcut] at hl
      rw [← hl]
      rcases Nat.lt_or_ge (n - 1) xs.length with hlt | hle
      · refine (take_idxOf_append ?_).symm
        rw [hl, List.length_take]
        omega
      · rw [List.drop_eq_nil_of_le hle, List.take_nil, List.append_nil]
    exact ⟨hline', by rw [hline', ← hr, hl]⟩

theorem fileLines_eq {fp : List UInt8}
    (h : ∀ line ∈ fileLines (iniMaxLineLen + 1) fp, line.length < iniMaxLineLen) :
    fileLines iniMaxLineLen fp = fileLines (iniMaxLineLen + 1) fp := by
  have hcalls : ∀ (n : ℕ) (fp : List UInt8),
      (∀ line ∈ fgetsCalls (iniMaxLineLen + 1) n fp, line.length < iniMaxLineLen) →
      fgetsCalls iniMaxLineLen n fp = fgetsCalls (iniMaxLineLen + 1) n fp := by
    intro n
    induction n with
    | zero => exact fun _ _ ↦ rfl
    | succ n ih =>
        intro fp h
        rcases hf : fgets (iniMaxLineLen + 1) fp with _ | ⟨line, rest⟩
        · rcases fp with _ | ⟨c, fp⟩
          · rfl
          · cases hf
        · simp only [fgetsCalls, hf, List.mem_cons, forall_eq_or_imp] at h ⊢
          rw [fgets_eq hf h.1]
          exact congrArg (line :: ·) (ih rest h.2)
  exact hcalls fp.length fp h

/-! ## The two lookups -/

/-- The lines of a file, as the strings that `fgets` leaves in the buffer. -/
def linesOf (fp : List UInt8) : List Str := (fileLines (iniMaxLineLen + 1) fp).map cstr

/-- Lines and names that are shorter than the buffers, and no `!include`. -/
structure PlainFile (fp : List UInt8) : Prop where
  line : ∀ line ∈ fileLines (iniMaxLineLen + 1) fp, line.length < iniMaxLineLen
  name : ∀ str ∈ linesOf fp, ShortName str
  noInclude : ∀ str ∈ linesOf fp, isInclude str = false

theorem length_of_mem_linesOf {fp : List UInt8} (h : PlainFile fp) :
    ∀ str ∈ linesOf fp, str.length < iniMaxLineLen := by
  intro str hstr
  obtain ⟨line, hline, rfl⟩ := List.mem_map.mp hstr
  exact ((List.takeWhile_prefix _).length_le).trans_lt (h.line line hline)

theorem iniReadFile_eq {fp : List UInt8} (fopen : Str → Except Str (List UInt8))
    (h : PlainFile fp) : iniReadFile fopen fp = (linesOf fp).map truncnl := by
  rw [iniReadFile, ← linesOf, expandIncludes_eq_self fopen 0 _ h.noInclude]

theorem mem_of_mem_seekPass {sec : Str} {cs : Bool} {fp rest : List Str}
    (h : seekPass sec cs fp = some rest) : ∀ str ∈ rest, str ∈ fp := by
  induction fp with
  | nil => cases h
  | cons s fp ih =>
      intro str hstr
      rw [seekPass] at h
      split at h
      · cases h
      · split at h
        · cases h
          exact List.mem_cons_of_mem _ hstr
        · exact List.mem_cons_of_mem _ (ih h str hstr)

theorem mem_of_mem_seekSection {section_ : Option Str} {fp rest : List Str}
    (h : seekSection fp section_ = some rest) : ∀ str ∈ rest, str ∈ fp := by
  cases section_ with
  | none =>
      cases h
      exact fun _ h ↦ h
  | some sec =>
      rcases Option.or_eq_some_iff.mp h with h | ⟨-, h⟩
      · exact mem_of_mem_seekPass h
      · exact mem_of_mem_seekPass h

theorem iniReadString_eq {fp : List UInt8} (section_ : Option Str) (key : Str)
    (deflt : Option Str) (h : PlainFile fp) :
    iniReadString fp section_ key deflt =
      (seekSection (linesOf fp) section_).elim (some deflt)
        fun rest ↦ stringAt blankValue key deflt (rest.map truncnl) := by
  rw [iniReadString, readValue, fileLines_eq h.line, ← linesOf]
  rcases hs : seekSection (linesOf fp) section_ with _ | rest
  · rfl
  · exact readValueLoop_eq key deflt rest fun str hstr ↦
      length_of_mem_linesOf h str (mem_of_mem_seekSection hs str hstr)

theorem iniGetString_iniReadFile {fp : List UInt8} (fopen : Str → Except Str (List UInt8))
    (section_ : Option Str) (key : Str) (deflt : Option Str) (h : PlainFile fp) :
    iniGetString (iniReadFile fopen fp) section_ key deflt =
      if HiddenFromList (linesOf fp) section_ then some deflt
      else (seekSection (linesOf fp) section_).elim (some deflt)
        fun rest ↦ stringAt blankText key deflt (rest.map truncnl) := by
  rw [iniGetString_eq, iniReadFile_eq fopen h, drop_findSection _ _ h.name]
  split
  · rfl
  · rcases seekSection (linesOf fp) section_ with _ | rest <;> rfl

/-- The lines that a search for the key reads. -/
def searched (key : Str) : List Str → List Str
  | [] => []
  | s :: list =>
      if stops s then [] else if holds key s then [s] else s :: searched key list

theorem searched_append {key : Str} (pre rest : List Str) (h : ∀ s ∈ pre, passes key s = true) :
    searched key (pre ++ rest) = pre ++ searched key rest := by
  induction pre with
  | nil => rfl
  | cons s pre ih =>
      obtain ⟨hstop, hhold⟩ : stops s = false ∧ holds key s = false := by
        simpa [passes] using h s (by simp)
      rw [List.cons_append, searched, if_neg (by simp [hstop]), if_neg (by simp [hhold]),
        ih fun t ht ↦ h t (by simp [ht]), List.cons_append]

/-- Where the two lookups agree: every line that is searched is readable, and if one holds the
key, then a value that is not empty stands in a section that the list search finds, and an
empty one behind which text stands in a section that it does not find. -/
def LookupsAgree (fp : List Str) (section_ : Option Str) (key : Str) : Prop :=
  ∀ rest, seekSection fp section_ = some rest → ∀ s ∈ searched key (rest.map truncnl),
    readable true s = true ∧ (holds key s = true → ∀ v, valueOf true (lineBuf s) = some v →
      (v.2 ≠ [] → ¬ HiddenFromList fp section_) ∧
      (v.2 = [] → s.drop v.1 ≠ [] → HiddenFromList fp section_))

theorem length_lineBuf_le (s : Str) : (lineBuf s).length ≤ s.length := by
  have htake : (safecopy iniMaxLineLen s).length ≤ s.length := List.length_take_le' _ _
  unfold lineBuf afterIsEof
  split
  · exact (List.rdropWhile_prefix _ _).length_le.trans htake
  · exact htake

theorem length_skipWhitespace_le (s : Str) : (skipWhitespace s).length ≤ s.length :=
  (List.dropWhile_suffix _).length_le

/-- Where no text stands there is no value. -/
theorem blankValue_of_blankText {s : Str} {v : ℕ × Str} (h : blankText s v = true)
    (hv : valueOf true (lineBuf s) = some v) : blankValue s v = true := by
  have hdrop : s.length ≤ v.1 := by simpa [blankText] using h
  have hlen := length_lineBuf_le s
  unfold blankValue
  rw [decide_eq_true_eq]
  unfold valueOf at hv
  rcases hs : separator (skipWhitespace (lineBuf s)) with _ | ⟨i, colon⟩
  · rw [hs] at hv
    cases hv
    rfl
  · rw [hs, Option.elim_some] at hv
    simp only [valueAt] at hv
    have hw : (skipWhitespace ((skipWhitespace (lineBuf s)).drop (i + 1))).length ≤
        (lineBuf s).length := by
      have := length_skipWhitespace_le ((skipWhitespace (lineBuf s)).drop (i + 1))
      have := length_skipWhitespace_le (lineBuf s)
      rw [List.length_drop] at *
      omega
    generalize skipWhitespace ((skipWhitespace (lineBuf s)).drop (i + 1)) = w at hv hw
    cases colon with
    | false =>
        simp only [Bool.and_false, Bool.false_eq_true, if_false, Option.some_inj] at hv
        subst hv
        have : w = [] := List.length_eq_zero_iff.mp (by simp only at hdrop; omega)
        simp [this, truncsp]
    | true =>
        simp only [Bool.and_true, if_true] at hv
        obtain ⟨u, hu, rfl⟩ := Option.map_eq_some_iff.mp hv
        have htrunc := length_truncnl_le w
        rcases ht : truncnl w with _ | ⟨c, t⟩
        · rw [ht] at hu
          cases hu
          rfl
        · rw [ht, List.length_cons] at htrunc
          by_cases hc : c = 0x22
          · subst hc
            have ht' : t = [] := List.length_eq_zero_iff.mp (by
              simp only [ht, unquote, if_true] at hdrop
              omega)
            subst ht'
            rw [ht] at hu
            cases hu
            rfl
          · have hq : unquote (c :: t) = (false, c :: t) := by simp [unquote, hc]
            simp only [ht, hq, Bool.false_eq_true, if_false] at hdrop
            omega

theorem readable_of_holds {key s : Str} (lit : Bool) (h : holds key s = true) :
    readable lit s = (valueOf lit (lineBuf s)).isSome := by
  have hstop := not_stops_of_holds h
  have ho : opensSection (lineBuf s) = false := by
    rw [stops, Bool.or_eq_false_iff] at hstop
    exact hstop.2
  have hk : (keyOf (lineBuf s)).any (stricmp · key) = true := by simpa [holds, hstop] using h
  rcases hname : keyOf (lineBuf s) with _ | name
  · rw [hname] at hk
    cases hk
  · simp [readable, keyName_eq, ho, hname]

/-- The two tests on one value. -/
theorem blank_agree {s : Str} {v : ℕ × Str} {hidden : Prop} [Decidable hidden]
    (hv : valueOf true (lineBuf s) = some v) :
    (∀ deflt : Option Str, (if blankValue s v then deflt else some (v.2.take (iniMaxValueLen - 1))) =
        if hidden then deflt
        else if blankText s v then deflt else some (v.2.take (iniMaxValueLen - 1))) ↔
      (v.2 ≠ [] → ¬ hidden) ∧ (v.2 = [] → s.drop v.1 ≠ [] → hidden) := by
  by_cases hval : v.2 = []
  · by_cases htext : s.drop v.1 = []
    · simp [blankValue, blankText, hval, htext]
    · constructor
      · intro h
        refine ⟨fun h' ↦ absurd hval h', fun _ _ ↦ ?_⟩
        by_contra hh
        have := h none
        simp [blankValue, blankText, hval, htext, hh] at this
      · intro h deflt
        simp [blankValue, hval, h.2 hval htext]
  · have htext : blankText s v = false := by
      by_contra hb
      have := blankValue_of_blankText (by simpa using hb) hv
      exact hval (by simpa [blankValue] using this)
    constructor
    · intro h
      refine ⟨fun _ hh ↦ ?_, fun h' ↦ absurd h' hval⟩
      have := h none
      simp [blankValue, hval, hh] at this
    · intro h deflt
      simp [blankValue, htext, hval, h.1 hval]

/-- The lookups on the lines up to the first that ends the search. -/
theorem stringAt_agree {key : Str} {rest : List Str} {hidden : Prop} [Decidable hidden] :
    (∀ deflt, ∃ v, stringAt blankValue key deflt rest = some v ∧
        (if hidden then some deflt else stringAt blankText key deflt rest) = some v) ↔
      ∀ s ∈ searched key rest,
        readable true s = true ∧ (holds key s = true → ∀ v, valueOf true (lineBuf s) = some v →
          (v.2 ≠ [] → ¬ hidden) ∧ (v.2 = [] → s.drop v.1 ≠ [] → hidden)) := by
  obtain ⟨pre, tail, rfl, hpre, htail⟩ := exists_passes_append key rest
  simp only [stringAt_append _ _ hpre, searched_append _ _ hpre, List.mem_append]
  have hhold : ∀ s ∈ pre, holds key s = false := fun s hs ↦ by
    have := hpre s hs
    simp only [passes, Bool.and_eq_true, Bool.not_eq_true'] at this
    exact this.2
  by_cases hread : pre.all (readable true) = true
  · have hall := List.all_eq_true.mp hread
    simp only [if_pos hread]
    have hpres : ∀ P : Str → Prop, (∀ s, s ∈ pre ∨ s ∈ searched key tail →
        readable true s = true ∧ (holds key s = true → P s)) ↔
        ∀ s ∈ searched key tail, readable true s = true ∧ (holds key s = true → P s) := by
      intro P
      constructor
      · exact fun h s hs ↦ h s (.inr hs)
      · rintro h s (hs | hs)
        · exact ⟨hall s hs, fun h' ↦ absurd h' (by simp [hhold s hs])⟩
        · exact h s hs
    rw [hpres]
    rcases htail with rfl | ⟨s, post, rfl, hs | hs⟩
    · simp [stringAt, searched]
    · simp [stringAt, searched, hs]
    · have hstop := not_stops_of_holds hs
      simp only [stringAt_hold _ hs]
      have hsearch : searched key (s :: post) = [s] := by simp [searched, hstop, hs]
      rw [hsearch]
      simp only [List.mem_singleton, forall_eq, hs, forall_const, readable_of_holds true hs]
      rcases hv : valueOf true (lineBuf s) with _ | v
      · simp
      · simp only [Option.map_some, Option.isSome_some, true_and, Option.some_inj, forall_eq']
        rw [← blank_agree hv]
        constructor
        · intro h deflt
          obtain ⟨w, hw, hw'⟩ := h deflt
          rw [← apply_ite some, Option.some_inj] at hw'
          rw [hw, hw']
        · intro h deflt
          refine ⟨_, rfl, ?_⟩
          rw [h deflt, ← apply_ite some]
  · have hun : ∃ s ∈ pre, readable true s = false := by
      simpa using hread
    obtain ⟨s, hs, hsr⟩ := hun
    constructor
    · intro h
      obtain ⟨v, hv, -⟩ := h none
      rw [if_neg hread] at hv
      cases hv
    · intro h
      have := (h s (.inl hs)).1
      rw [hsr] at this
      cases this

/-- `iniReadString` on a file and `iniGetString` on its list return the same string, whatever
the default is, exactly under `LookupsAgree`. -/
theorem iniReadString_agrees (fopen : Str → Except Str (List UInt8)) (fp : List UInt8)
    (section_ : Option Str) (key : Str) (h : PlainFile fp) :
    (∀ deflt, ∃ s, iniReadString fp section_ key deflt = some s ∧
        iniGetString (iniReadFile fopen fp) section_ key deflt = some s) ↔
      LookupsAgree (linesOf fp) section_ key := by
  simp only [iniReadString_eq section_ key _ h, iniGetString_iniReadFile fopen section_ key _ h,
    LookupsAgree]
  rcases hs : seekSection (linesOf fp) section_ with _ | rest
  · simp
  · simp only [Option.elim_some, Option.some_inj, forall_eq']
    exact stringAt_agree

/-- `[foo]`, `k:"a\tb"`, `K=2` -/
def literalFile : List UInt8 :=
  [0x5b, 0x66, 0x6f, 0x6f, 0x5d, 10] ++ [0x6b, 0x3a, 0x22, 0x61, 0x5c, 0x74, 0x62, 0x22, 10] ++
    [0x4b, 0x3d, 0x32, 10]

theorem plainFile_literalFile : PlainFile literalFile := by
  constructor <;> decide +kernel

theorem iniReadString_agrees_literal :
    ∃ s, iniReadString literalFile (some [0x46, 0x6f, 0x6f]) [0x4b] none = some s ∧
      iniGetString (iniReadFile (fun _ ↦ .error []) literalFile) (some [0x46, 0x6f, 0x6f]) [0x4b]
        none = some s := by
  refine (iniReadString_agrees _ literalFile (some [0x46, 0x6f, 0x6f]) [0x4b]
    plainFile_literalFile).mpr ?_ none
  have hseek : seekSection (linesOf literalFile) (some [0x46, 0x6f, 0x6f]) =
      some ((linesOf literalFile).drop 1) := by decide +kernel
  intro rest hrest
  rw [hseek] at hrest
  cases hrest
  decide +kernel

/-- `[foo]`, `k=1`, `!eof` -/
def eofFile : List UInt8 :=
  [0x5b, 0x66, 0x6f, 0x6f, 0x5d, 10] ++ [0x6b, 0x3d, 0x31, 10] ++ [0x21, 0x65, 0x6f, 0x66, 10]

theorem plainFile_eofFile : PlainFile eofFile := by
  constructor <;> decide +kernel

/-- `FOO` is found in the file and not in the list. -/
theorem iniReadString_eof :
    PlainFile eofFile ∧
      iniReadString eofFile (some [0x46, 0x4f, 0x4f]) [0x6b] none = some (some [0x31]) ∧
      iniGetString (iniReadFile (fun _ ↦ .error []) eofFile) (some [0x46, 0x4f, 0x4f]) [0x6b]
        none = some none := by
  refine ⟨plainFile_eofFile, by decide +kernel, ?_⟩
  rw [iniReadFile_eq _ plainFile_eofFile]
  decide +kernel

end Synchronet.Xpdev
