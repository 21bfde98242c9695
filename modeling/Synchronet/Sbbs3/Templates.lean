import Synchronet.Lib.Buffer
import Synchronet.Lib.CheckedLoop
import Synchronet.Sbbs3.Ars
import Synchronet.Xpdev.XpPrintf

/-!
# Values in templates (str_util.c)

`replace_named_values` and `replace_keyed_values` copy a template to a buffer and put values in
the place of names behind an escape sequence, or of names anywhere when there is no such
sequence.  The template is what is left of it up to its zero; a step over this zero has no
result.
-/

namespace Synchronet.Sbbs3

open Xpdev (Str safecopy strnicmp)
open Xpdev.XpPrintf (decimal)

/-- How a template is read: whether it starts with the escape sequence, how long this is, and the
length and the value of the name that it starts with. -/
structure Template where
  escaped : Str → Bool
  escLen : ℕ
  lookup : Str → Option (ℕ × Str)

namespace Template

/-- `*p++ = *src++` -/
def literal : Str → Option (Str × Str)
  | [] => none
  | c :: src => some ([c], src)

/-- What a round of the loop has for the buffer, and the template behind it. -/
def chunk (t : Template) (src : Str) : Option (Str × Str) :=
  if t.escLen ≠ 0 ∧ t.escaped src = false then literal src
  else
    let src := src.drop t.escLen
    match t.lookup src with
    | some (length, value) => some (value, src.drop length)
    | none => literal src

end Template

/-- The template that is left and the buffer up to `p`. -/
structure TemplateState where
  src : Str
  buf : Buffer UInt8

namespace Template

/-- Whether there is no room left or no template. -/
def done (s : TemplateState) : Bool :=
  !decide (s.src ≠ [] ∧ s.buf.items.length < s.buf.size - 1)

/-- A round of the loop: a value that does not fit is cut off. -/
def step (t : Template) (s : TemplateState) : Option TemplateState := do
  let (text, src) ← t.chunk s.src
  let buf ← s.buf.put (text.take (s.buf.size - 1 - s.buf.items.length))
  pure ⟨src, buf⟩

/-- The template at the start, and the empty buffer. -/
def start (src : Str) (buflen : ℕ) : TemplateState := ⟨src, ⟨[], buflen, Nat.zero_le _⟩⟩

/-- The loop with less than `n` rounds, and the zero behind the text. -/
def replace (t : Template) (n : ℕ) (src : Str) (buflen : ℕ) : Option (Buffer UInt8) := do
  let s ← CheckedLoop.run done t.step n (start src buflen)
  s.buf.put [0]

end Template

/-- `sizeof(val)` -/
def sizeofVal : ℕ := 32

/-- `strncmp` or `strnicmp` with the length of the name. -/
def startsWith (caseSensitive : Bool) (src name : Str) : Bool :=
  if caseSensitive then name.isPrefixOf src else strnicmp src name

/-- The first name in the lists that the template starts with. -/
def namedValue (stringList : List (Str × Str)) (intList : List (Str × Int32))
    (caseSensitive : Bool) (src : Str) : Option (ℕ × Str) :=
  match stringList.find? fun v ↦ startsWith caseSensitive src v.1 with
  | some (name, value) => some (name.length, value)
  | none =>
      match intList.find? fun v ↦ startsWith caseSensitive src v.1 with
      | some (name, value) => some (name.length, safecopy sizeofVal (decimal value))
      | none => none

def namedTemplate (escapeSeq : Str) (stringList : List (Str × Str))
    (intList : List (Str × Int32)) (caseSensitive : Bool) : Template where
  escaped src := startsWith caseSensitive src escapeSeq
  escLen := escapeSeq.length
  lookup := namedValue stringList intList caseSensitive

/-- `replace_named_values` in less than `n` rounds.  No list is one without entries, and no
escape sequence is an empty one. -/
def replaceNamedValues (n : ℕ) (src : Str) (buflen : ℕ) (escapeSeq : Str)
    (stringList : List (Str × Str)) (intList : List (Str × Int32)) (caseSensitive : Bool) :
    Option (Buffer UInt8) :=
  (namedTemplate escapeSeq stringList intList caseSensitive).replace n src buflen

/-- Whether the template is at a key, which is not zero. -/
def isKey (caseSensitive : Bool) (src : Str) (key : UInt8) : Bool :=
  match src with
  | [] => false
  | c :: _ => if caseSensitive then c = key else toupper c = toupper key

/-- The first key in the lists that the template is at. -/
def keyedValue (stringList : List (UInt8 × Str)) (intList : List (UInt8 × Int32))
    (caseSensitive : Bool) (src : Str) : Option (ℕ × Str) :=
  match stringList.find? fun v ↦ isKey caseSensitive src v.1 with
  | some (_, value) => some (1, value)
  | none =>
      match intList.find? fun v ↦ isKey caseSensitive src v.1 with
      | some (_, value) => some (1, safecopy sizeofVal (decimal value))
      | none => none

def keyedTemplate (escChar : UInt8) (stringList : List (UInt8 × Str))
    (intList : List (UInt8 × Int32)) (caseSensitive : Bool) : Template where
  escaped src := src.head? = some escChar
  escLen := if escChar = 0 then 0 else 1
  lookup := keyedValue stringList intList caseSensitive

/-- `replace_keyed_values` in less than `n` rounds, where no escape character is zero. -/
def replaceKeyedValues (n : ℕ) (src : Str) (buflen : ℕ) (escChar : UInt8)
    (stringList : List (UInt8 × Str)) (intList : List (UInt8 × Int32)) (caseSensitive : Bool) :
    Option (Buffer UInt8) :=
  (keyedTemplate escChar stringList intList caseSensitive).replace n src buflen

/-! ## Rounds -/

namespace Template

/-- An escape sequence ends the template, and no name (an empty one) is found behind it. -/
def Dangling (t : Template) (src : Str) : Prop :=
  t.escLen ≠ 0 ∧ t.escaped src = true ∧ src.drop t.escLen = [] ∧ t.lookup [] = none

/-- Without an escape sequence, the first name that is found is empty and has an empty value. -/
def Stuck (t : Template) (src : Str) : Prop := t.escLen = 0 ∧ t.lookup src = some (0, [])

/-- Names are found where they stand. -/
def Sound (t : Template) : Prop :=
  (∀ src, t.escaped src = true → t.escLen ≤ src.length) ∧
    ∀ src length value, t.lookup src = some (length, value) → length ≤ src.length

variable {t : Template} {src text rest : Str} {s s' : TemplateState} {n : ℕ}

theorem chunk_eq_none (hne : src ≠ []) : t.chunk src = none ↔ t.Dangling src := by
  obtain ⟨c, src', rfl⟩ := List.exists_cons_of_ne_nil hne
  rw [chunk, Dangling]
  split
  case isTrue h => simp [literal, h.2]
  case isFalse h =>
    have hescaped : t.escLen = 0 ∨ t.escaped (c :: src') = true := by
      simpa [or_iff_not_imp_left] using h
    dsimp only
    cases hsrc : (c :: src').drop t.escLen with
    | nil =>
        have hlen : t.escLen ≠ 0 := by
          intro hzero
          simp [hzero] at hsrc
        have hesc := hescaped.resolve_left hlen
        cases hlookup : t.lookup [] <;> simp [literal, hlen, hesc]
    | cons d rest => cases hlookup : t.lookup (d :: rest) <;> simp [literal]

/-- What is read is not empty, unless the loop stands still. -/
theorem chunk_progress (ht : t.Sound) (hne : src ≠ []) (hstuck : ¬t.Stuck src)
    (h : t.chunk src = some (text, rest)) :
    rest.length ≤ src.length ∧ (rest.length < src.length ∨ text ≠ []) := by
  have hliteral : ∀ {s : Str}, literal s = some (text, rest) →
      rest.length < s.length ∧ text ≠ [] := by
    intro s hs
    cases s with
    | nil => cases hs
    | cons c s =>
        obtain ⟨rfl, rfl⟩ := by simpa [literal] using hs
        simp
  rw [chunk] at h
  split at h
  · obtain ⟨hlt, htext⟩ := hliteral h
    exact ⟨hlt.le, Or.inl hlt⟩
  · next hesc =>
    dsimp only at h
    have hdrop : (src.drop t.escLen).length = src.length - t.escLen := List.length_drop
    split at h
    · next length value hlookup =>
      obtain ⟨rfl, rfl⟩ := by simpa using h
      have hle := ht.2 _ _ _ hlookup
      rw [hdrop] at hle
      rw [List.length_drop]
      refine ⟨by omega, ?_⟩
      by_cases hlen : t.escLen = 0
      · by_contra hnot
        rw [hlen, List.drop_zero] at hlookup
        have hzero : length = 0 ∧ value = [] := by
          push Not at hnot
          refine ⟨?_, hnot.2⟩
          omega
        exact hstuck ⟨hlen, by rw [hlookup, hzero.1, hzero.2]⟩
      · have hpos := List.length_pos_of_ne_nil hne
        exact Or.inl (by omega)
    · obtain ⟨hlt, htext⟩ := hliteral h
      exact ⟨by omega, Or.inl (by omega)⟩

theorem chunk_of_stuck (h : t.Stuck src) : t.chunk src = some ([], src) := by
  rw [chunk, if_neg (fun hesc ↦ hesc.1 h.1), h.1, List.drop_zero]
  simp only [h.2, List.drop_zero]

/-- The buffer has its size, and room for a zero. -/
def Roomy (size : ℕ) (s : TemplateState) : Prop :=
  s.buf.size = size ∧ s.buf.items.length < size

theorem done_eq_false :
    done s = false ↔ s.src ≠ [] ∧ s.buf.items.length < s.buf.size - 1 := by
  simp [done]

theorem step_eq (hs : Roomy n s) (h : t.chunk s.src = some (text, rest)) :
    ∃ buf, t.step s = some ⟨rest, buf⟩ ∧ Roomy n ⟨rest, buf⟩ ∧
      buf.items = s.buf.items ++ text.take (s.buf.size - 1 - s.buf.items.length) := by
  obtain ⟨hsize, hroom⟩ := hs
  have htake := List.length_take_le (s.buf.size - 1 - s.buf.items.length) text
  have hfits : s.buf.items.length + (text.take (s.buf.size - 1 - s.buf.items.length)).length ≤
      s.buf.size := by omega
  obtain ⟨buf, hput, hitems, hbuf⟩ := Buffer.exists_put hfits
  refine ⟨buf, by simp [step, h, hput], ⟨hbuf.trans hsize, ?_⟩, hitems⟩
  change buf.items.length < n
  rw [hitems, List.length_append]
  omega

theorem step_of_dangling (hne : s.src ≠ []) (h : t.Dangling s.src) : t.step s = none := by
  rw [step, (chunk_eq_none hne).mpr h]
  rfl

theorem step_of_stuck (h : t.Stuck s.src) : t.step s = some s := by
  have hput : s.buf.put [] = some s.buf := by
    apply Buffer.put_eq_some_iff.mpr
    simpa using s.buf.fits
  simp [step, chunk_of_stuck h, hput]

theorem roomy_step (hs : Roomy n s) (h : t.step s = some s') : Roomy n s' := by
  rw [step] at h
  obtain ⟨⟨text, rest⟩, hchunk, -⟩ := Option.bind_eq_some_iff.mp h
  obtain ⟨buf, hstep, hroomy, -⟩ := step_eq hs hchunk
  obtain rfl := Option.some.inj (h.symm.trans hstep)
  exact hroomy

/-- A round reads or writes something. -/
theorem step_progress (ht : t.Sound) (hs : Roomy n s) (hdone : done s = false)
    (hgood : ¬t.Dangling s.src ∧ ¬t.Stuck s.src) :
    ∃ s', t.step s = some s' ∧ Roomy n s' ∧
      s'.src.length + (n - s'.buf.items.length) < s.src.length + (n - s.buf.items.length) := by
  obtain ⟨hne, hlt⟩ := done_eq_false.mp hdone
  have hchunk : t.chunk s.src ≠ none := fun h ↦ hgood.1 ((chunk_eq_none hne).mp h)
  obtain ⟨⟨text, rest⟩, h⟩ := Option.ne_none_iff_exists'.mp hchunk
  obtain ⟨hle, hprogress⟩ := chunk_progress ht hne hgood.2 h
  obtain ⟨buf, hstep, hroomy, hitems⟩ := step_eq hs h
  refine ⟨_, hstep, hroomy, ?_⟩
  have hbuf : buf.items.length < n := hroomy.2
  have hlen := congrArg List.length hitems
  rw [List.length_append, List.length_take] at hlen
  dsimp only
  rcases hprogress with hshort | htext
  · omega
  · have hpos := List.length_pos_of_ne_nil htext
    omega

/-- The text is written, and a zero behind it, just when the loop never reads on from the end of
the template and never stands still. -/
theorem replace_iff (ht : t.Sound) (src : Str) {buflen : ℕ} (hlen : 1 ≤ buflen) :
    (∃ n b, t.replace n src buflen = some b ∧ b.size = buflen ∧
        ∃ text, b.items = text ++ [0]) ↔
      ∀ s, CheckedLoop.Reached done t.step (start src buflen) s → done s = false →
        ¬t.Dangling s.src ∧ ¬t.Stuck s.src := by
  have hstart : Roomy buflen (start src buflen) := ⟨rfl, hlen⟩
  have hstep : ∀ s, Roomy buflen s → done s = false → (¬t.Dangling s.src ∧ ¬t.Stuck s.src) →
      ∃ s', t.step s = some s' ∧ Roomy buflen s' ∧
        s'.src.length + (buflen - s'.buf.items.length) <
          s.src.length + (buflen - s.buf.items.length) :=
    fun s hs hdone hgood ↦ step_progress ht hs hdone hgood
  have hbad : ∀ s, Roomy buflen s → done s = false → ¬(¬t.Dangling s.src ∧ ¬t.Stuck s.src) →
      t.step s = none ∨ t.step s = some s := by
    intro s hs hdone hbad
    by_cases hdangling : t.Dangling s.src
    · exact Or.inl (step_of_dangling (done_eq_false.mp hdone).1 hdangling)
    · exact Or.inr (step_of_stuck (not_not.mp fun hstuck ↦ hbad ⟨hdangling, hstuck⟩))
  refine Iff.trans ?_ (CheckedLoop.exists_run_isSome_iff hstep hbad hstart)
  constructor
  · rintro ⟨n, b, h, -⟩
    obtain ⟨s, hs, -⟩ := Option.bind_eq_some_iff.mp h
    exact ⟨n, by rw [hs]; rfl⟩
  · rintro ⟨n, hn⟩
    obtain ⟨s, hs⟩ := Option.isSome_iff_exists.mp hn
    have hroomy := (CheckedLoop.inv_of_run_of_next (fun _ _ hs _ h ↦ roomy_step hs h) hstart hs).1
    have hfits : s.buf.items.length + [(0 : UInt8)].length ≤ s.buf.size := by
      rw [hroomy.1]
      exact hroomy.2
    obtain ⟨b, hput, hitems, hsize⟩ := Buffer.exists_put hfits
    exact ⟨n, b, by simp [replace, hs, hput], hsize.trans hroomy.1, _, hitems⟩

end Template

/-! ## Both functions -/

section Both

variable {stringList : List (Str × Str)} {intList : List (Str × Int32)}
  {stringKeys : List (UInt8 × Str)} {intKeys : List (UInt8 × Int32)} {caseSensitive : Bool}
  {src name escapeSeq value : Str} {escChar key : UInt8} {length : ℕ}

theorem length_le_of_startsWith (h : startsWith caseSensitive src name = true) :
    name.length ≤ src.length := by
  cases caseSensitive with
  | true => exact (List.isPrefixOf_iff_prefix.mp h).length_le
  | false =>
      have heq : Smblib.strlwr (src.take name.length) = Smblib.strlwr name := by
        simpa [startsWith, strnicmp] using h
      have hlen := congrArg List.length heq
      simp only [Smblib.strlwr, List.length_map, List.length_take] at hlen
      omega

theorem namedTemplate_sound (escapeSeq : Str) (stringList : List (Str × Str))
    (intList : List (Str × Int32)) (caseSensitive : Bool) :
    (namedTemplate escapeSeq stringList intList caseSensitive).Sound := by
  refine ⟨fun src h ↦ length_le_of_startsWith h, fun src length value h ↦ ?_⟩
  change namedValue stringList intList caseSensitive src = some (length, value) at h
  rw [namedValue] at h
  split at h
  · next hfind =>
    obtain ⟨rfl, -⟩ := by simpa using h
    have hname := List.find?_some hfind
    exact length_le_of_startsWith hname
  · split at h
    · next hfind =>
      obtain ⟨rfl, -⟩ := by simpa using h
      have hname := List.find?_some hfind
      exact length_le_of_startsWith hname
    · cases h

theorem ne_nil_of_isKey (h : isKey caseSensitive src key = true) : src ≠ [] := by
  rintro rfl
  cases h

/-- A key is one character. -/
theorem keyedValue_length
    (h : keyedValue stringKeys intKeys caseSensitive src = some (length, value)) :
    length = 1 ∧ src ≠ [] := by
  rw [keyedValue] at h
  split at h
  · next hfind =>
    obtain ⟨rfl, -⟩ := by simpa using h
    have hkey := List.find?_some hfind
    exact ⟨rfl, ne_nil_of_isKey hkey⟩
  · split at h
    · next hfind =>
      obtain ⟨rfl, -⟩ := by simpa using h
      have hkey := List.find?_some hfind
      exact ⟨rfl, ne_nil_of_isKey hkey⟩
    · cases h

theorem keyedTemplate_sound (escChar : UInt8) (stringKeys : List (UInt8 × Str))
    (intKeys : List (UInt8 × Int32)) (caseSensitive : Bool) :
    (keyedTemplate escChar stringKeys intKeys caseSensitive).Sound := by
  constructor
  · intro src h
    have hhead : src.head? = some escChar := by simpa [keyedTemplate] using h
    obtain ⟨rest, rfl⟩ := List.head?_eq_some_iff.mp hhead
    simp only [keyedTemplate, List.length_cons]
    split <;> omega
  · intro src length value h
    obtain ⟨rfl, hne⟩ := keyedValue_length h
    exact List.length_pos_of_ne_nil hne

theorem keyedTemplate_not_stuck (src : Str) :
    ¬(keyedTemplate escChar stringKeys intKeys caseSensitive).Stuck src := by
  rintro ⟨-, h⟩
  exact absurd (keyedValue_length h).1 (by decide)

/-- Both functions end, keep inside the template and the buffer and write a zero behind the text,
just when no escape sequence that is read as one ends the template, without an empty name behind
it, and no empty name with an empty value is found where there is no escape sequence. -/
theorem replaceValues_ends_iff (src : Str) (buflen : ℕ) (caseSensitive : Bool)
    (hlen : 1 ≤ buflen) :
    (∀ (escapeSeq : Str) (stringList : List (Str × Str)) (intList : List (Str × Int32)),
      let t := namedTemplate escapeSeq stringList intList caseSensitive
      (∃ n b, replaceNamedValues n src buflen escapeSeq stringList intList caseSensitive = some b ∧
          b.size = buflen ∧ ∃ text, b.items = text ++ [0]) ↔
        ∀ s, CheckedLoop.Reached Template.done t.step (Template.start src buflen) s →
          Template.done s = false → ¬t.Dangling s.src ∧ ¬t.Stuck s.src) ∧
    ∀ (escChar : UInt8) (stringList : List (UInt8 × Str)) (intList : List (UInt8 × Int32)),
      let t := keyedTemplate escChar stringList intList caseSensitive
      (∃ n b, replaceKeyedValues n src buflen escChar stringList intList caseSensitive = some b ∧
          b.size = buflen ∧ ∃ text, b.items = text ++ [0]) ↔
        ∀ s, CheckedLoop.Reached Template.done t.step (Template.start src buflen) s →
          Template.done s = false → ¬t.Dangling s.src := by
  constructor
  · intro escapeSeq stringList intList
    exact Template.replace_iff (namedTemplate_sound escapeSeq stringList intList caseSensitive) src
      hlen
  · intro escChar stringList intList
    dsimp only
    refine (Template.replace_iff (keyedTemplate_sound escChar stringList intList caseSensitive) src
      hlen).trans ?_
    simp only [keyedTemplate_not_stuck, not_false_eq_true, and_true]

/-- The zero is all that there is room for. -/
theorem replaceValues_ends_zero :
    (∃ n b, replaceNamedValues n [37, 97] 1 [37] [([97], [98])] [] true = some b ∧ b.size = 1 ∧
        ∃ text, b.items = text ++ [0]) ∧
      ∃ n b, replaceKeyedValues n [37, 97] 1 37 [(97, [98])] [] true = some b ∧ b.size = 1 ∧
        ∃ text, b.items = text ++ [0] := by
  have hdone : ∀ {step : TemplateState → Option TemplateState} {s : TemplateState},
      CheckedLoop.Reached Template.done step (Template.start [37, 97] 1) s →
        Template.done s = false → False := by
    intro step s hs hdone
    obtain rfl | ⟨_, hstart, -⟩ := hs.cases_head
    · exact absurd hdone (by decide)
    · exact absurd hstart (by decide)
  obtain ⟨hnamed, hkeyed⟩ := replaceValues_ends_iff [37, 97] 1 true (by decide)
  exact ⟨(hnamed [37] [([97], [98])] []).mpr fun s hs hd ↦ (hdone hs hd).elim,
    (hkeyed 37 [(97, [98])] []).mpr fun s hs hd ↦ (hdone hs hd).elim⟩

/-- A template that is an escape sequence and nothing else. -/
theorem replaceNamedValues_dangling (n : ℕ) :
    replaceNamedValues n [37] 8 [37] [] [] true = none := by
  cases n <;> rfl

/-- The same for a key. -/
theorem replaceKeyedValues_dangling (n : ℕ) : replaceKeyedValues n [37] 8 37 [] [] true = none := by
  cases n <;> rfl

theorem not_replaceValues_ends :
    (¬∃ n b, replaceNamedValues n [37] 8 [37] [] [] true = some b ∧ b.size = 8 ∧
        ∃ text, b.items = text ++ [0]) ∧
      ¬∃ n b, replaceKeyedValues n [37] 8 37 [] [] true = some b ∧ b.size = 8 ∧
        ∃ text, b.items = text ++ [0] := by
  constructor
  · rintro ⟨n, b, h, -⟩
    rw [replaceNamedValues_dangling] at h
    cases h
  · rintro ⟨n, b, h, -⟩
    rw [replaceKeyedValues_dangling] at h
    cases h

end Both

end Synchronet.Sbbs3
