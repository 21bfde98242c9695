import Synchronet.Lib.InPlace
import Synchronet.Lib.Words
import Synchronet.Smblib.Defs
import Synchronet.Xpdev.Genwrap

/-!
# Normalising UTF-8 in place (utf8.c)

`utf8_normalize_str` replaces some code points by ASCII characters in the buffer that it reads.
`utf8_getc` takes sequences of up to six bytes.
-/

namespace Synchronet.Encode.Utf8

open Smblib (cstr)
open Xpdev (Str)

/-! ## Code points -/

/-- A sequence of `n` bytes with the bits `lead` in the first one.  Values below `least` take fewer
bytes. -/
def multibyte (n : ℕ) (lead : UInt8) (least : ℕ) (str : Str) : ℤ × ℕ :=
  if str.length < n then (-1, 0)
  else if ((str.take n).drop 1).any fun c ↦ c &&& 0xc0 ≠ 0x80 then (-3, 0)
  else
    let value := ((str.take n).drop 1).foldl (fun v c ↦ v <<< 6 ||| (c &&& 0x3f).toNat) lead.toNat
    if value < least then (-4, 0) else (n, value)

/-- How many bytes a code point has, or a negative error code, and its value. -/
def utf8Getc : Str → ℤ × ℕ
  | [] => (0, 0)
  | p :: rest =>
      if p &&& 0x80 = 0 then (1, (p &&& 0x7f).toNat)
      else if p &&& 0xe0 = 0xc0 then multibyte 2 (p &&& 0x1f) 0x80 (p :: rest)
      else if p &&& 0xf0 = 0xe0 then multibyte 3 (p &&& 0xf) 0x800 (p :: rest)
      else if p &&& 0xf8 = 0xf0 then multibyte 4 (p &&& 0x7) 0x10000 (p :: rest)
      else if p &&& 0xfc = 0xf8 then multibyte 5 (p &&& 0x3) 0x200000 (p :: rest)
      else if p &&& 0xfe = 0xfc then multibyte 6 (p &&& 0x1) 0x4000000 (p :: rest)
      else (-2, 0)

def utf8StrIsValid (str : Str) : Bool :=
  if _h : str = [] then true
  else
    let len := (utf8Getc str).1
    if len < 1 then false else utf8StrIsValid (str.drop len.toNat)
  termination_by str.length
  decreasing_by
    have := List.length_pos_iff.mpr _h
    rw [List.length_drop]
    omega

/-! ## Normalising -/

/-- What becomes of a sequence: the number of bytes behind its first one, what is put into its last
one, and what is written. -/
structure Replacement where
  more : ℕ
  changed : Option UInt8
  out : Str

/-- The last byte behind E2 80 -/
def general (c : UInt8) : Option Str :=
  -- EN SPACE and EM SPACE
  if c = 0x82 ∨ c = 0x83 then some [32]
  -- ZERO WIDTH SPACE, NON-JOINER and JOINER
  else if c = 0x8B ∨ c = 0x8C ∨ c = 0x8D then some []
  -- HYPHEN, NON-BREAKING HYPHEN, FIGURE DASH and EN DASH
  else if c = 0x90 ∨ c = 0x91 ∨ c = 0x92 ∨ c = 0x93 then some [45]
  -- QUOTATION MARKS and PRIME
  else if c = 0x98 then some [96]
  else if c = 0x99 ∨ c = 0xB2 then some [39]
  else if c = 0x9C ∨ c = 0x9D then some [34]
  -- HORIZONTAL ELLIPSIS
  else if c = 0xA6 then some [46, 46, 46]
  else none

/-- The last byte behind E2 81 -/
def bullet (c : UInt8) : Option Str :=
  if c = 0x83 then some [45] else if c = 0x84 then some [47] else none

/-- The last byte behind E2 88 -/
def minus (c : UInt8) : Option Str := if c = 0x92 then some [45] else none

/-- The last byte behind EF BC or EF BD: the characters from `first` on. -/
def fullwidth (low high first c : UInt8) : Option Replacement :=
  if low ≤ c ∧ c ≤ high then some ⟨2, some (c - low), [first + (c - low)]⟩ else none

/-- What stands at the start of the text; none when it ends before it has been looked at. -/
def replacementAt : Str → Option (Option Replacement)
  | [] => none
  | c :: text =>
      if c = 0xC2 then do
        let b ← text[0]?
        -- NO-BREAK SPACE
        return if b = 0xA0 then some ⟨1, none, [32]⟩ else none
      else if c = 0xE2 then do
        let b ← text[0]?
        if b = 0x80 then return (general (← text[1]?)).map (⟨2, none, ·⟩)
        else if b = 0x81 then return (bullet (← text[1]?)).map (⟨2, none, ·⟩)
        else if b = 0x88 then return (minus (← text[1]?)).map (⟨2, none, ·⟩)
        else return none
      else if c = 0xEF then do
        let b ← text[0]?
        -- ZERO WIDTH NO-BREAK SPACE
        if b = 0xBB then return if (← text[1]?) = 0xBF then some ⟨2, none, []⟩ else none
        else if b = 0xBC then return fullwidth 0x81 0xBF 33 (← text[1]?)
        else if b = 0xBD then return fullwidth 0x80 0x9E 96 (← text[1]?)
        else return none
      else some none

/-- `*dest++` for every character -/
def write (mem : Str) (dest : ℕ) : Str → Str
  | [] => mem
  | c :: out => write (mem.set dest c) (dest + 1) out

@[simp] theorem length_write (mem : Str) (dest : ℕ) (out : Str) :
    (write mem dest out).length = mem.length := by
  induction out generalizing mem dest with
  | nil => rfl
  | cons c out ih => rw [write, ih, List.length_set]

/-- The operand of a full-width character is changed where it stands. -/
def change (mem : Str) (src : ℕ) (changed : Option UInt8) : Str :=
  changed.elim mem (mem.set src)

@[simp] theorem length_change (mem : Str) (src : ℕ) (changed : Option UInt8) :
    (change mem src changed).length = mem.length := by
  cases changed with
  | none => rfl
  | some d => exact List.length_set

/-- The loop of `utf8_normalize_str`; none when it reads behind the memory or writes where it has
not read. -/
def normalizeLoop (mem : Str) (src dest : ℕ) : Option Str :=
  if _h : src < mem.length then
    if mem[src] = 0 then if dest ≤ src then some (write mem dest [0]) else none
    else
      match replacementAt (mem.drop src) with
      | none => none
      | some none =>
          if dest ≤ src then normalizeLoop (write mem dest [mem[src]]) (src + 1) (dest + 1)
          else none
      | some (some r) =>
          if dest + r.out.length ≤ src + r.more + 1 then
            normalizeLoop (write (change mem (src + r.more) r.changed) dest r.out)
              (src + r.more + 1) (dest + r.out.length)
          else none
  else none
  termination_by mem.length - src
  decreasing_by all_goals simp only [length_write, length_change]; omega

/-- The string that is left in the memory of a string. -/
def utf8NormalizeStr (str : Str) : Option Str := (normalizeLoop (str ++ [0]) 0 0).map cstr

/-! ## What it is for -/

/-- The code points with their sequences, where all are valid. -/
def utf8Decode (str : Str) : Option (List (ℕ × Str)) :=
  if _h : str = [] then some []
  else
    let len := (utf8Getc str).1
    if len < 1 then none
    else (utf8Decode (str.drop len.toNat)).map (((utf8Getc str).2, str.take len.toNat) :: ·)
  termination_by str.length
  decreasing_by
    have := List.length_pos_iff.mpr _h
    rw [List.length_drop]
    omega

/-- The ASCII characters for a code point of the table, none of them for one without width. -/
def asciiEquivalent (cp : ℕ) : Option Str :=
  if cp = 0xA0 ∨ cp = 0x2002 ∨ cp = 0x2003 then some [32]
  else if 0x200B ≤ cp ∧ cp ≤ 0x200D ∨ cp = 0xFEFF then some []
  else if 0x2010 ≤ cp ∧ cp ≤ 0x2013 ∨ cp = 0x2043 ∨ cp = 0x2212 then some [45]
  else if cp = 0x2018 then some [96]
  else if cp = 0x2019 ∨ cp = 0x2032 then some [39]
  else if cp = 0x201C ∨ cp = 0x201D then some [34]
  else if cp = 0x2026 then some [46, 46, 46]
  else if cp = 0x2044 then some [47]
  else if 0xFF01 ≤ cp ∧ cp ≤ 0xFF3F then some [UInt8.ofNat (33 + (cp - 0xFF01))]
  else if 0xFF40 ≤ cp ∧ cp ≤ 0xFF5E then some [UInt8.ofNat (96 + (cp - 0xFF40))]
  else none

/-- Every code point of the table is replaced, and the others keep their bytes. -/
def replaced (chars : List (ℕ × Str)) : Str :=
  chars.flatMap fun c ↦ (asciiEquivalent c.1).getD c.2

/-! ## The loop in the memory -/

/-- What the loop writes for a text. -/
def normalized : Str → Str
  | [] => []
  | c :: rest =>
      match replacementAt (c :: rest ++ [0]) with
      | some (some r) => r.out ++ normalized (rest.drop r.more)
      | _ => c :: normalized rest
  termination_by text => text.length
  decreasing_by all_goals simp only [List.length_drop, List.length_cons]; omega

variable {text rest mem out : Str} {c : UInt8} {src dest : ℕ}

/-- The replacement for a sequence that starts with three bytes. -/
def entry (c b d : UInt8) : Option Replacement :=
  if c = 0xC2 then if b = 0xA0 then some ⟨1, none, [32]⟩ else none
  else if c = 0xE2 then
    if b = 0x80 then (general d).map (⟨2, none, ·⟩)
    else if b = 0x81 then (bullet d).map (⟨2, none, ·⟩)
    else if b = 0x88 then (minus d).map (⟨2, none, ·⟩)
    else none
  else if c = 0xEF then
    if b = 0xBB then if d = 0xBF then some ⟨2, none, []⟩ else none
    else if b = 0xBC then fullwidth 0x81 0xBF 33 d
    else if b = 0xBD then fullwidth 0x80 0x9E 96 d
    else none
  else none

/-- The text is looked at up to its NUL at most. -/
theorem replacementAt_eq (rest : Str) (c : UInt8) :
    replacementAt (c :: rest ++ [0]) = some (entry c (rest.getD 0 0) (rest.getD 1 0)) := by
  rw [List.cons_append, replacementAt, entry]
  cases rest with
  | nil => simp [fullwidth]
  | cons b rest =>
      cases rest with
      | nil => simp; split_ifs <;> rfl
      | cons d rest => simp; split_ifs <;> rfl

/-- A replacement takes characters of the text only, and does not have more of them. -/
structure Replacement.Fits (r : Replacement) (b d : UInt8) : Prop where
  more : r.more = 1 ∧ b ≠ 0 ∨ r.more = 2 ∧ b ≠ 0 ∧ d ≠ 0
  out : r.out.length ≤ r.more + 1
  nonzero : 0 ∉ r.out

/-- The characters for the last byte of a sequence. -/
def Fits₃ (d : UInt8) (out : Option Str) : Prop :=
  ∀ o ∈ out, d ≠ 0 ∧ o.length ≤ 3 ∧ 0 ∉ o

instance (d : UInt8) (out : Option Str) : Decidable (Fits₃ d out) :=
  inferInstanceAs (Decidable (∀ o ∈ out, d ≠ 0 ∧ o.length ≤ 3 ∧ 0 ∉ o))

theorem tables_fit : ∀ d : UInt8,
    Fits₃ d (general d) ∧ Fits₃ d (bullet d) ∧ Fits₃ d (minus d) ∧
      Fits₃ d ((fullwidth 0x81 0xBF 33 d).map Replacement.out) ∧
      Fits₃ d ((fullwidth 0x80 0x9E 96 d).map Replacement.out) :=
  Words.forall_uint8 (by decide +kernel)

theorem fits_of_map {b d : UInt8} {out : Option Str} {r : Replacement} (hb : b ≠ 0)
    (hout : Fits₃ d out) (h : r ∈ out.map (⟨2, none, ·⟩)) : r.Fits b d := by
  obtain ⟨o, ho, rfl⟩ := Option.mem_map.mp h
  obtain ⟨hd, hlength, hzero⟩ := hout o ho
  exact ⟨.inr ⟨rfl, hb, hd⟩, hlength, hzero⟩

theorem fits_of_fullwidth {b d low high first : UInt8} {r : Replacement} (hb : b ≠ 0)
    (hout : Fits₃ d ((fullwidth low high first d).map Replacement.out))
    (h : r ∈ fullwidth low high first d) : r.Fits b d := by
  obtain ⟨hd, hlength, hzero⟩ := hout r.out (Option.mem_map_of_mem _ h)
  have hmore : r.more = 2 := by
    rw [fullwidth] at h
    split at h
    · obtain rfl := Option.some.inj h
      rfl
    · cases h
  exact ⟨.inr ⟨hmore, hb, hd⟩, hmore ▸ hlength, hzero⟩

theorem entry_fits {b d : UInt8} : ∀ r ∈ entry c b d, r.Fits b d := by
  intro r hr
  obtain ⟨hgeneral, hbullet, hminus, hbc, hbd⟩ := tables_fit d
  rw [entry] at hr
  split_ifs at hr with hc hb hc hb hb hb hc hb hd hb hb
  · obtain rfl := Option.some.inj hr
    exact ⟨.inl ⟨rfl, hb ▸ by decide⟩, by decide, by decide⟩
  all_goals try cases hr
  · exact fits_of_map (hb ▸ by decide) hgeneral hr
  · exact fits_of_map (hb ▸ by decide) hbullet hr
  · exact fits_of_map (hb ▸ by decide) hminus hr
  · exact ⟨.inr ⟨rfl, hb ▸ by decide, hd ▸ by decide⟩, by decide, by decide⟩
  · exact fits_of_fullwidth (hb ▸ by decide) hbc hr
  · exact fits_of_fullwidth (hb ▸ by decide) hbd hr

/-! ### Writing -/

theorem drop_write {k : ℕ} (h : dest + out.length ≤ k) :
    (write mem dest out).drop k = mem.drop k := by
  induction out generalizing mem dest with
  | nil => rfl
  | cons c out ih =>
      rw [List.length_cons] at h
      rw [write, ih (by omega), List.drop_set_of_lt (by omega)]

theorem take_write (h : dest + out.length ≤ mem.length) :
    (write mem dest out).take (dest + out.length) = mem.take dest ++ out := by
  induction out generalizing mem dest with
  | nil => rw [write, List.append_nil]; rfl
  | cons c out ih =>
      rw [List.length_cons] at h
      have hset : (mem.set dest c).take (dest + 1) = mem.take dest ++ [c] := by
        rw [List.take_add_one, List.take_set_of_le (Nat.le_refl dest),
          List.getElem?_set_self (by omega)]
        rfl
      have hroom : dest + 1 + out.length ≤ (mem.set dest c).length := by
        rw [List.length_set]
        omega
      have hnext := ih hroom
      rw [write, List.length_cons, Nat.add_comm out.length, ← Nat.add_assoc, hnext, hset,
        List.append_assoc]
      rfl

/-! ### The whole loop -/

/-- What is found at the start of a text. -/
def entryAt (c : UInt8) (rest : Str) : Option Replacement := entry c (rest.getD 0 0) (rest.getD 1 0)

theorem normalized_cons_none (h : entryAt c rest = none) :
    normalized (c :: rest) = c :: normalized rest := by
  rw [entryAt] at h
  rw [normalized, replacementAt_eq, h]

theorem normalized_cons_some {r : Replacement} (h : entryAt c rest = some r) :
    normalized (c :: rest) = r.out ++ normalized (rest.drop r.more) := by
  rw [entryAt] at h
  rw [normalized, replacementAt_eq, h]

theorem length_of_getD_ne {k : ℕ} (h : rest.getD k 0 ≠ 0) : k + 1 ≤ rest.length := by
  by_contra hlt
  apply h
  rw [List.getD_eq_getElem?_getD, List.getElem?_eq_none (by omega)]
  rfl

theorem more_le {r : Replacement} (h : entryAt c rest = some r) : r.more ≤ rest.length := by
  rcases (entry_fits r h).more with ⟨hmore, hb⟩ | ⟨hmore, -, hd⟩
  · rw [hmore]
    exact length_of_getD_ne hb
  · rw [hmore]
    exact length_of_getD_ne hd

/-- One step of the loop after the other. -/
theorem normalized_induction {P : Str → Prop} (hnil : P [])
    (hkept : ∀ c rest, entryAt c rest = none → P rest → P (c :: rest))
    (hreplaced : ∀ c rest r, entryAt c rest = some r → P (rest.drop r.more) → P (c :: rest))
    (text : Str) : P text := by
  induction hn : text.length using Nat.strong_induction_on generalizing text with
  | _ n ih =>
  cases text with
  | nil => exact hnil
  | cons c rest =>
      rw [List.length_cons] at hn
      cases hentry : entryAt c rest with
      | none => exact hkept c rest hentry (ih _ (by omega) rest rfl)
      | some r =>
          apply hreplaced c rest r hentry
          exact ih _ (by rw [List.length_drop]; omega) _ rfl

theorem drop_change {k : ℕ} {changed : Option UInt8} (h : src < k) :
    (change mem src changed).drop k = mem.drop k := by
  cases changed with
  | none => rfl
  | some d => exact List.drop_set_of_lt h

theorem take_change {k : ℕ} {changed : Option UInt8} (h : k ≤ src) :
    (change mem src changed).take k = mem.take k := by
  cases changed with
  | none => rfl
  | some d => exact List.take_set_of_le h

/-- The loop reads up to the NUL, writes behind what it reads, and leaves the text normalised. -/
theorem normalizeLoop_eq (htext : 0 ∉ text) (hdrop : mem.drop src = text ++ [0])
    (hdest : dest ≤ src) : ∃ mem', normalizeLoop mem src dest = some mem' ∧
      mem'.take (dest + (normalized text).length + 1) =
        mem.take dest ++ normalized text ++ [0] := by
  induction text using normalized_induction generalizing mem src dest with
  | hnil =>
      have hlt := InPlace.lt_length_of_drop hdrop
      have hzero := InPlace.getElem_of_drop hdrop hlt
      have hroom : dest + [(0 : UInt8)].length ≤ mem.length := by
        rw [List.length_singleton]
        omega
      refine ⟨write mem dest [0], ?_, ?_⟩
      · rw [normalizeLoop, dif_pos hlt, if_pos hzero, if_pos hdest]
      · rw [normalized, List.append_nil]
        exact take_write hroom
  | hkept c rest hentry ih =>
      obtain ⟨hc, hrest⟩ := not_or.mp (mt List.mem_cons.mpr htext)
      have hlt := InPlace.lt_length_of_drop hdrop
      have hread := InPlace.getElem_of_drop hdrop hlt
      have hnext : mem.drop (src + 1) = rest ++ [0] := InPlace.drop_succ_of_drop hdrop
      have hroom : dest + [c].length ≤ mem.length := by
        rw [List.length_singleton]
        omega
      have htake : (write mem dest [c]).take (dest + 1) = mem.take dest ++ [c] := take_write hroom
      have hdrop' : (write mem dest [c]).drop (src + 1) = rest ++ [0] := by
        rw [drop_write (by rw [List.length_singleton]; omega), hnext]
      obtain ⟨mem', hloop, hmem'⟩ := ih hrest hdrop' (Nat.succ_le_succ hdest)
      refine ⟨mem', ?_, ?_⟩
      · rw [normalizeLoop, dif_pos hlt, hread, if_neg (Ne.symm hc), hdrop, replacementAt_eq]
        rw [entryAt] at hentry
        rw [hentry, ← hloop]
        exact if_pos hdest
      · rw [normalized_cons_none hentry, List.length_cons, Nat.add_comm (normalized rest).length,
          ← Nat.add_assoc, hmem', htake, List.append_assoc (mem.take dest)]
        rfl
  | hreplaced c rest r hentry ih =>
      obtain ⟨hc, hrest⟩ := not_or.mp (mt List.mem_cons.mpr htext)
      have hlt := InPlace.lt_length_of_drop hdrop
      have hread := InPlace.getElem_of_drop hdrop hlt
      have hnext : mem.drop (src + 1) = rest ++ [0] := InPlace.drop_succ_of_drop hdrop
      have hmore := more_le hentry
      have hout := (entry_fits r hentry).out
      have hlength : src + 1 + r.more < mem.length := by
        have := congrArg List.length hnext
        rw [List.length_drop, List.length_append, List.length_singleton] at this
        omega
      set mem₁ := write (change mem (src + r.more) r.changed) dest r.out with hmem₁
      have htake : mem₁.take (dest + r.out.length) = mem.take dest ++ r.out := by
        rw [hmem₁, take_write (by rw [length_change]; omega), take_change (by omega)]
      have hdrop' : mem₁.drop (src + r.more + 1) = rest.drop r.more ++ [0] := by
        rw [hmem₁, drop_write (by omega), drop_change (by omega),
          ← List.drop_append_of_le_length hmore, ← hnext, List.drop_drop]
        congr 1
        omega
      have hzero : 0 ∉ rest.drop r.more := fun h ↦ hrest (List.mem_of_mem_drop h)
      have hdest' : dest + r.out.length ≤ src + r.more + 1 := by omega
      obtain ⟨mem', hloop, hmem'⟩ := ih hzero hdrop' hdest'
      refine ⟨mem', ?_, ?_⟩
      · rw [normalizeLoop, dif_pos hlt, hread, if_neg (Ne.symm hc), hdrop, replacementAt_eq]
        rw [entryAt] at hentry
        rw [hentry, ← hloop]
        exact if_pos hdest'
      · rw [normalized_cons_some hentry, List.length_append, ← Nat.add_assoc, hmem', htake,
          List.append_assoc (mem.take dest)]

theorem zero_notMem_normalized (h : 0 ∉ text) : 0 ∉ normalized text := by
  induction text using normalized_induction with
  | hnil => rwa [normalized]
  | hkept c rest hentry ih =>
      obtain ⟨hc, hrest⟩ := not_or.mp (mt List.mem_cons.mpr h)
      rw [normalized_cons_none hentry]
      exact mt List.mem_cons.mp (not_or.mpr ⟨hc, ih hrest⟩)
  | hreplaced c rest r hentry ih =>
      have hrest : 0 ∉ rest.drop r.more := fun hmem ↦
        h (List.mem_cons_of_mem c (List.mem_of_mem_drop hmem))
      rw [normalized_cons_some hentry]
      exact mt List.mem_append.mp (not_or.mpr ⟨(entry_fits r hentry).nonzero, ih hrest⟩)

theorem length_normalized_le (text : Str) : (normalized text).length ≤ text.length := by
  induction text using normalized_induction with
  | hnil => rw [normalized]
  | hkept c rest hentry ih =>
      rw [normalized_cons_none hentry]
      exact Nat.succ_le_succ ih
  | hreplaced c rest r hentry ih =>
      have hout := (entry_fits r hentry).out
      have hmore := more_le hentry
      rw [List.length_drop] at ih
      rw [normalized_cons_some hentry, List.length_append, List.length_cons]
      omega

/-- The function reads no byte behind the NUL, whatever the text. -/
theorem utf8NormalizeStr_eq (h : 0 ∉ text) : utf8NormalizeStr text = some (normalized text) := by
  have hdrop : (text ++ [0]).drop 0 = text ++ [0] := List.drop_zero
  obtain ⟨mem', hloop, htake⟩ := normalizeLoop_eq h hdrop (Nat.le_refl 0)
  rw [List.take_zero, List.nil_append, Nat.zero_add] at htake
  rw [utf8NormalizeStr, hloop, Option.map_some]
  congr 1
  rw [← List.take_append_drop ((normalized text).length + 1) mem', htake, List.append_assoc]
  exact Smblib.cstr_append_zero (zero_notMem_normalized h) _

/-! ## Sequences -/

/-- A byte behind the first one of a sequence. -/
def Continues (c : UInt8) : Prop := c &&& 0xc0 = 0x80

/-- The value of the sequence of `n` bytes at the start of a text. -/
def sequenceValue (n : ℕ) (lead : UInt8) (text : Str) : ℕ :=
  ((text.take n).drop 1).foldl (fun v c ↦ v <<< 6 ||| (c &&& 0x3f).toNat) lead.toNat

/-- What `utf8_getc` finds are `n` bytes with the value `v`, whatever stands behind them. -/
structure Sequence (n v : ℕ) (text : Str) : Prop where
  pos : 1 ≤ n
  le : n ≤ text.length
  continues : ∀ c ∈ (text.take n).drop 1, Continues c
  getc : ∀ rest, utf8Getc (text.take n ++ rest) = (↑n, v)

theorem multibyte_spec {n least : ℕ} {lead : UInt8} (h : 1 ≤ (multibyte n lead least text).1) :
    n ≤ text.length ∧ (∀ c ∈ (text.take n).drop 1, Continues c) ∧
      least ≤ sequenceValue n lead text ∧
      ∀ rest, multibyte n lead least (text.take n ++ rest) = (↑n, sequenceValue n lead text) := by
  rw [multibyte] at h
  split at h
  · exact absurd h (by decide)
  · next hlength =>
    split at h
    · exact absurd h (by decide)
    · next hany =>
      dsimp only at h
      split at h
      · exact absurd h (by decide)
      · next hleast =>
        have hle : n ≤ text.length := not_lt.mp hlength
        refine ⟨hle, fun c hc ↦ ?_, not_lt.mp hleast, fun rest ↦ ?_⟩
        · by_contra hne
          exact hany (List.any_eq_true.mpr ⟨c, hc, decide_eq_true hne⟩)
        · have htake : (text.take n ++ rest).take n = text.take n :=
            List.take_left' (List.length_take_of_le hle)
          have hlength' : ¬(text.take n ++ rest).length < n := by
            rw [List.length_append, List.length_take_of_le hle]
            omega
          rw [multibyte, if_neg hlength', htake, if_neg hany]
          exact if_neg hleast

theorem sequence_of_multibyte {n least : ℕ} {lead : UInt8} (hn : 1 ≤ n)
    (hgetc : ∀ rest, utf8Getc (c :: rest) = multibyte n lead least (c :: rest))
    (h : 1 ≤ (multibyte n lead least (c :: rest)).1) :
    Sequence n (sequenceValue n lead (c :: rest)) (c :: rest) ∧
      least ≤ sequenceValue n lead (c :: rest) := by
  obtain ⟨hle, hcontinues, hleast, hvalue⟩ := multibyte_spec h
  refine ⟨⟨hn, hle, hcontinues, fun rest' ↦ ?_⟩, hleast⟩
  obtain ⟨k, rfl⟩ := Nat.exists_eq_add_of_le' hn
  rw [← hvalue rest', List.take_succ_cons, List.cons_append, hgetc]

/-- The four kinds of sequences, by the first byte. -/
inductive Kind (c : UInt8) (text : Str) : Prop
  | one : c &&& 0x80 = 0 → Sequence 1 (c &&& 0x7f).toNat text → Kind c text
  | two : c &&& 0xe0 = 0xc0 → Sequence 2 (sequenceValue 2 (c &&& 0x1f) text) text → Kind c text
  | three : c &&& 0xf0 = 0xe0 → 0x800 ≤ sequenceValue 3 (c &&& 0xf) text →
      Sequence 3 (sequenceValue 3 (c &&& 0xf) text) text → Kind c text
  | more (n v : ℕ) : c &&& 0xf0 = 0xf0 → 0x10000 ≤ v → Sequence n v text → Kind c text

theorem kind_of_getc (h : 1 ≤ (utf8Getc (c :: rest)).1) : Kind c (c :: rest) := by
  have hmore : ∀ d : UInt8, d &&& 0xf8 = 0xf0 ∨ d &&& 0xfc = 0xf8 ∨ d &&& 0xfe = 0xfc →
      d &&& 0xf0 = 0xf0 := Words.forall_uint8 (by decide +kernel)
  rw [utf8Getc] at h
  split_ifs at h with h1 h2 h3 h4 h5 h6
  · refine .one h1 ⟨le_rfl, Nat.succ_le_succ (Nat.zero_le _), fun d hd ↦ ?_, fun rest' ↦ ?_⟩
    · exact absurd hd List.not_mem_nil
    · change utf8Getc (c :: rest') = _
      rw [utf8Getc, if_pos h1]
      rfl
  · have hgetc (r : Str) : utf8Getc (c :: r) = multibyte 2 (c &&& 0x1f) 0x80 (c :: r) := by
      rw [utf8Getc, if_neg h1, if_pos h2]
    exact .two h2 (sequence_of_multibyte (by decide) hgetc h).1
  · have hgetc (r : Str) : utf8Getc (c :: r) = multibyte 3 (c &&& 0xf) 0x800 (c :: r) := by
      rw [utf8Getc, if_neg h1, if_neg h2, if_pos h3]
    obtain ⟨hseq, hleast⟩ := sequence_of_multibyte (by decide) hgetc h
    exact .three h3 hleast hseq
  · have hgetc (r : Str) : utf8Getc (c :: r) = multibyte 4 (c &&& 0x7) 0x10000 (c :: r) := by
      rw [utf8Getc, if_neg h1, if_neg h2, if_neg h3, if_pos h4]
    obtain ⟨hseq, hleast⟩ := sequence_of_multibyte (by decide) hgetc h
    exact .more _ _ (hmore c (.inl h4)) hleast hseq
  · have hgetc (r : Str) : utf8Getc (c :: r) = multibyte 5 (c &&& 0x3) 0x200000 (c :: r) := by
      rw [utf8Getc, if_neg h1, if_neg h2, if_neg h3, if_neg h4, if_pos h5]
    obtain ⟨hseq, hleast⟩ := sequence_of_multibyte (by decide) hgetc h
    exact .more _ _ (hmore c (.inr (.inl h5))) (le_trans (by decide) hleast) hseq
  · have hgetc (r : Str) : utf8Getc (c :: r) = multibyte 6 (c &&& 0x1) 0x4000000 (c :: r) := by
      rw [utf8Getc, if_neg h1, if_neg h2, if_neg h3, if_neg h4, if_neg h5, if_pos h6]
    obtain ⟨hseq, hleast⟩ := sequence_of_multibyte (by decide) hgetc h
    exact .more _ _ (hmore c (.inr (.inr h6))) (le_trans (by decide) hleast) hseq
  · exact absurd h (by decide)

/-! ### The table of code points -/

theorem asciiEquivalent_none {v : ℕ} (h : v < 0xA0 ∨ 0xA0 < v ∧ v < 0x2000 ∨
    0x2080 ≤ v ∧ v < 0x2200 ∨ 0x2240 ≤ v ∧ v < 0xFEC0 ∨ 0xFF80 ≤ v) : asciiEquivalent v = none := by
  rw [asciiEquivalent]
  repeat rw [if_neg (by omega)]

theorem asciiEquivalent_e2 : ∀ d : UInt8, Continues d →
    asciiEquivalent (0x2000 + (d &&& 0x3f).toNat) = general d ∧
      asciiEquivalent (0x2040 + (d &&& 0x3f).toNat) = bullet d ∧
      asciiEquivalent (0x2200 + (d &&& 0x3f).toNat) = minus d :=
  Words.forall_uint8 (by unfold Continues; decide +kernel)

theorem asciiEquivalent_ef : ∀ d : UInt8, Continues d →
    asciiEquivalent (0xFEC0 + (d &&& 0x3f).toNat) = (if d = 0xBF then some [] else none) ∧
      asciiEquivalent (0xFF00 + (d &&& 0x3f).toNat) =
        (fullwidth 0x81 0xBF 33 d).map Replacement.out ∧
      asciiEquivalent (0xFF40 + (d &&& 0x3f).toNat) =
        (fullwidth 0x80 0x9E 96 d).map Replacement.out :=
  Words.forall_uint8 (by unfold Continues; decide +kernel)

/-- The bytes behind the first one, with their bits. -/
theorem lead_bits : ∀ c : UInt8,
    (c &&& 0xe0 = 0xc0 → (c &&& 0x1f).toNat + 0xC0 = c.toNat) ∧
      (c &&& 0xf0 = 0xe0 → (c &&& 0xf).toNat + 0xE0 = c.toNat) ∧
      (Continues c → (c &&& 0x3f).toNat + 0x80 = c.toNat ∧ (c &&& 0x3f).toNat < 64) :=
  Words.forall_uint8 (by unfold Continues; decide +kernel)

theorem shift_or {v y : ℕ} (hy : y < 64) : v <<< 6 ||| y = v * 64 + y := by
  rw [← Nat.shiftLeft_add_eq_or_of_lt hy, Nat.shiftLeft_eq]

theorem Sequence.two_eq {v : ℕ} (h : Sequence 2 v text) (lead : UInt8) (c b : UInt8) (rest : Str)
    (htext : text = c :: b :: rest) :
    Continues b ∧ sequenceValue 2 lead text = lead.toNat * 64 + (b &&& 0x3f).toNat := by
  subst htext
  have hb : Continues b := h.continues b (List.mem_singleton_self b)
  exact ⟨hb, shift_or ((lead_bits b).2.2 hb).2⟩

theorem Sequence.three_eq {v : ℕ} (h : Sequence 3 v text) (lead : UInt8) (c b d : UInt8)
    (rest : Str) (htext : text = c :: b :: d :: rest) :
    Continues b ∧ Continues d ∧ sequenceValue 3 lead text =
      (lead.toNat * 64 + (b &&& 0x3f).toNat) * 64 + (d &&& 0x3f).toNat := by
  subst htext
  have hb : Continues b := h.continues b List.mem_cons_self
  have hd : Continues d := h.continues d (List.mem_cons_of_mem b (List.mem_singleton_self d))
  refine ⟨hb, hd, ?_⟩
  have hbits (x : UInt8) (hx : Continues x) : (x &&& 0x3f).toNat < 64 := ((lead_bits x).2.2 hx).2
  rw [← shift_or (hbits d hd), ← shift_or (hbits b hb)]
  rfl

/-- A byte of ASCII, one behind the first, or the start of a longer sequence stays. -/
theorem entry_none : ∀ c : UInt8, c &&& 0x80 = 0 ∨ Continues c ∨ c &&& 0xf0 = 0xf0 →
    c ≠ 0xC2 ∧ c ≠ 0xE2 ∧ c ≠ 0xEF :=
  Words.forall_uint8 (by unfold Continues; decide +kernel)

theorem entryAt_none (h : c ≠ 0xC2 ∧ c ≠ 0xE2 ∧ c ≠ 0xEF) (rest : Str) : entryAt c rest = none := by
  rw [entryAt, entry, if_neg h.1, if_neg h.2.1, if_neg h.2.2]

/-- What the loop finds at a sequence. -/
structure Found (n : ℕ) (o : Option Str) (e : Option Replacement) : Prop where
  kept : o = none → e = none
  replaced : ∀ out, o = some out → ∃ r, e = some r ∧ r.more + 1 = n ∧ r.out = out

theorem found_none {n : ℕ} : Found n none none := ⟨fun _ ↦ rfl, fun _ h ↦ by cases h⟩

theorem found_map {o : Option Str} : Found 3 o (o.map (⟨2, none, ·⟩)) := by
  cases o with
  | none => exact found_none
  | some out =>
      exact ⟨fun h ↦ (by cases h), fun out' h ↦ ⟨⟨2, none, out⟩, rfl, rfl, Option.some.inj h⟩⟩

theorem found_fullwidth {low high first d : UInt8} :
    Found 3 ((fullwidth low high first d).map Replacement.out) (fullwidth low high first d) := by
  rw [fullwidth]
  split
  · exact ⟨fun h ↦ (by cases h), fun out h ↦ ⟨_, rfl, rfl, Option.some.inj h⟩⟩
  · exact found_none

/-- A code point of two bytes. -/
theorem found_two {b d : UInt8} (hc : c &&& 0xe0 = 0xc0) (hb : Continues b) :
    Found 2 (asciiEquivalent ((c &&& 0x1f).toNat * 64 + (b &&& 0x3f).toNat)) (entry c b d) := by
  have hlead := (lead_bits c).1 hc
  obtain ⟨hbits, hlt⟩ := (lead_bits b).2.2 hb
  have hc256 : c.toNat < 256 := c.toNat_lt
  have hne : c ≠ 0xE2 ∧ c ≠ 0xEF := by
    constructor <;> (rintro rfl; exact absurd hc (by decide))
  rw [entry, if_neg hne.1, if_neg hne.2]
  by_cases hspace : c = 0xC2 ∧ b = 0xA0
  · obtain ⟨rfl, rfl⟩ := hspace
    exact ⟨fun h ↦ absurd h (by decide), fun out h ↦ ⟨_, rfl, rfl, Option.some.inj h⟩⟩
  · have hvalue : (c &&& 0x1f).toNat * 64 + (b &&& 0x3f).toNat ≠ 0xA0 := by
      intro hvalue
      apply hspace
      constructor <;> apply UInt8.toNat_inj.mp
      · change c.toNat = 194
        omega
      · change b.toNat = 160
        omega
    rw [asciiEquivalent_none (by omega)]
    split
    · next hc =>
      rw [if_neg fun hb ↦ hspace ⟨hc, hb⟩]
      exact found_none
    · exact found_none

/-- A code point of three bytes. -/
theorem found_three {b d : UInt8} (hc : c &&& 0xf0 = 0xe0) (hb : Continues b) (hd : Continues d)
    (hleast : 0x800 ≤ ((c &&& 0xf).toNat * 64 + (b &&& 0x3f).toNat) * 64 + (d &&& 0x3f).toNat) :
    Found 3 (asciiEquivalent
      (((c &&& 0xf).toNat * 64 + (b &&& 0x3f).toNat) * 64 + (d &&& 0x3f).toNat))
      (entry c b d) := by
  have hlead := (lead_bits c).2.1 hc
  obtain ⟨hbbits, hblt⟩ := (lead_bits b).2.2 hb
  obtain ⟨hdbits, hdlt⟩ := (lead_bits d).2.2 hd
  obtain ⟨hgeneral, hbullet, hminus⟩ := asciiEquivalent_e2 d hd
  obtain ⟨hbom, hlow, hhigh⟩ := asciiEquivalent_ef d hd
  have hc256 : c.toNat < 256 := c.toNat_lt
  have hb256 : b.toNat < 256 := b.toNat_lt
  have hbyte {x y : UInt8} (h : x ≠ y) : x.toNat ≠ y.toNat := fun heq ↦ h (UInt8.toNat_inj.mp heq)
  have hc2 : c ≠ 0xC2 := by
    rintro rfl
    exact absurd hc (by decide)
  rw [entry, if_neg hc2]
  by_cases he2 : c = 0xE2
  · subst he2
    have hfour : ((0xE2 : UInt8) &&& 0xf).toNat = 2 := by decide
    rw [if_pos rfl, hfour]
    by_cases h80 : b = 0x80
    · subst h80
      rw [if_pos rfl, ← hgeneral]
      exact found_map
    · rw [if_neg h80]
      by_cases h81 : b = 0x81
      · subst h81
        rw [if_pos rfl, ← hbullet]
        exact found_map
      · rw [if_neg h81]
        by_cases h88 : b = 0x88
        · subst h88
          rw [if_pos rfl, ← hminus]
          exact found_map
        · have hne80 : b.toNat ≠ 128 := hbyte h80
          have hne81 : b.toNat ≠ 129 := hbyte h81
          have hne88 : b.toNat ≠ 136 := hbyte h88
          rw [if_neg h88, asciiEquivalent_none (by omega)]
          exact found_none
  · rw [if_neg he2]
    by_cases hef : c = 0xEF
    · subst hef
      have hfifteen : ((0xEF : UInt8) &&& 0xf).toNat = 15 := by decide
      rw [if_pos rfl, hfifteen]
      by_cases hbb : b = 0xBB
      · subst hbb
        rw [if_pos rfl]
        change Found 3 (asciiEquivalent (0xFEC0 + (d &&& 0x3f).toNat)) _
        rw [hbom]
        split
        · exact ⟨fun h ↦ (by cases h), fun out h ↦ ⟨_, rfl, rfl, Option.some.inj h⟩⟩
        · exact found_none
      · rw [if_neg hbb]
        by_cases hbc : b = 0xBC
        · subst hbc
          rw [if_pos rfl]
          change Found 3 (asciiEquivalent (0xFF00 + (d &&& 0x3f).toNat)) _
          rw [hlow]
          exact found_fullwidth
        · rw [if_neg hbc]
          by_cases hbd : b = 0xBD
          · subst hbd
            rw [if_pos rfl]
            change Found 3 (asciiEquivalent (0xFF40 + (d &&& 0x3f).toNat)) _
            rw [hhigh]
            exact found_fullwidth
          · have hnebb : b.toNat ≠ 187 := hbyte hbb
            have hnebc : b.toNat ≠ 188 := hbyte hbc
            have hnebd : b.toNat ≠ 189 := hbyte hbd
            rw [if_neg hbd, asciiEquivalent_none (by omega)]
            exact found_none
    · have hnee2 : c.toNat ≠ 226 := hbyte he2
      have hneef : c.toNat ≠ 239 := hbyte hef
      rw [if_neg hef, asciiEquivalent_none (by omega)]
      exact found_none

/-- The loop finds what the table says for the code point. -/
theorem exists_found (h : 1 ≤ (utf8Getc (c :: rest)).1) :
    ∃ n v, Sequence n v (c :: rest) ∧ Found n (asciiEquivalent v) (entryAt c rest) := by
  cases kind_of_getc h with
  | one hc hseq =>
      have hlt : ∀ c : UInt8, (c &&& 0x7f).toNat < 128 := Words.forall_uint8 (by decide +kernel)
      refine ⟨_, _, hseq, ?_⟩
      rw [asciiEquivalent_none (.inl ((hlt c).trans (by decide))),
        entryAt_none (entry_none c (.inl hc))]
      exact found_none
  | two hc hseq =>
      obtain ⟨b, rest, rfl⟩ := List.exists_cons_of_length_pos
        (show 0 < rest.length by have := hseq.le; rw [List.length_cons] at this; omega)
      obtain ⟨hb, hvalue⟩ := hseq.two_eq (c &&& 0x1f) c b rest rfl
      refine ⟨_, _, hseq, ?_⟩
      rw [hvalue]
      exact found_two hc hb
  | three hc hleast hseq =>
      obtain ⟨b, rest, rfl⟩ := List.exists_cons_of_length_pos
        (show 0 < rest.length by have := hseq.le; rw [List.length_cons] at this; omega)
      obtain ⟨d, rest, rfl⟩ := List.exists_cons_of_length_pos
        (show 0 < rest.length by
          have := hseq.le; rw [List.length_cons, List.length_cons] at this; omega)
      obtain ⟨hb, hd, hvalue⟩ := hseq.three_eq (c &&& 0xf) c b d rest rfl
      refine ⟨_, _, hseq, ?_⟩
      rw [hvalue] at hleast ⊢
      exact found_three hc hb hd hleast
  | more n v hc hleast hseq =>
      refine ⟨n, v, hseq, ?_⟩
      rw [asciiEquivalent_none (by omega), entryAt_none (entry_none c (.inr (.inr hc)))]
      exact found_none

/-! ## Whole texts -/

/-- Bytes behind the first one of a sequence are written as they are. -/
theorem normalized_continues {more : Str} (h : ∀ c ∈ more, Continues c) (rest : Str) :
    normalized (more ++ rest) = more ++ normalized rest := by
  induction more with
  | nil => rfl
  | cons c more ih =>
      obtain ⟨hc, hmore⟩ := List.forall_mem_cons.mp h
      rw [List.cons_append, List.cons_append, ← ih hmore]
      exact normalized_cons_none (entryAt_none (entry_none c (.inr (.inl hc))) _)

/-- One sequence. -/
theorem normalized_sequence {n v : ℕ} (hseq : Sequence n v (c :: rest))
    (hfound : Found n (asciiEquivalent v) (entryAt c rest)) :
    normalized (c :: rest) = (asciiEquivalent v).getD ((c :: rest).take n) ++
      normalized ((c :: rest).drop n) := by
  obtain ⟨k, rfl⟩ := Nat.exists_eq_add_of_le' hseq.pos
  rw [List.take_succ_cons, List.drop_succ_cons]
  cases hv : asciiEquivalent v with
  | none =>
      have hcontinues : ∀ d ∈ rest.take k, Continues d := hseq.continues
      rw [normalized_cons_none (hfound.kept hv), Option.getD_none, List.cons_append,
        ← normalized_continues hcontinues, List.take_append_drop]
  | some out =>
      obtain ⟨r, hr, hmore, hout⟩ := hfound.replaced out hv
      rw [normalized_cons_some hr, hout, Option.getD_some, Nat.succ_injective hmore]

theorem utf8Decode_sequence {n v : ℕ} (hseq : Sequence n v text) (rest : Str) :
    utf8Decode (text.take n ++ rest) = (utf8Decode rest).map ((v, text.take n) :: ·) := by
  have hlength : (text.take n).length = n := List.length_take_of_le hseq.le
  have hne : text.take n ++ rest ≠ [] := by
    apply List.append_ne_nil_of_left_ne_nil
    exact List.ne_nil_of_length_pos (by rw [hlength]; exact hseq.pos)
  have hpos : ¬((n : ℤ) < 1) := by
    have := hseq.pos
    omega
  rw [utf8Decode, dif_neg hne]
  simp only [hseq.getc, hpos, if_false, Int.toNat_natCast]
  rw [List.take_left' hlength, List.drop_left' hlength]

/-- The sequences of a valid text, one after the other. -/
theorem utf8Decode_induction {P : Str → List (ℕ × Str) → Prop} (hnil : P [] [])
    (hcons : ∀ c rest n v chars, Sequence n v (c :: rest) →
      Found n (asciiEquivalent v) (entryAt c rest) → utf8Decode ((c :: rest).drop n) = some chars →
      P ((c :: rest).drop n) chars → P (c :: rest) ((v, (c :: rest).take n) :: chars))
    (text : Str) (chars : List (ℕ × Str)) (h : utf8Decode text = some chars) : P text chars := by
  induction hk : text.length using Nat.strong_induction_on generalizing text chars with
  | _ k ih =>
  cases text with
  | nil =>
      rw [utf8Decode, dif_pos rfl] at h
      obtain rfl := Option.some.inj h
      exact hnil
  | cons c rest =>
      have hpos : 1 ≤ (utf8Getc (c :: rest)).1 := by
        by_contra hlt
        rw [utf8Decode, dif_neg (List.cons_ne_nil _ _)] at h
        dsimp only at h
        rw [if_pos (by omega)] at h
        cases h
      obtain ⟨n, v, hseq, hfound⟩ := exists_found hpos
      have hdecode := utf8Decode_sequence hseq ((c :: rest).drop n)
      rw [List.take_append_drop, h] at hdecode
      obtain ⟨chars', hchars', rfl⟩ := Option.map_eq_some_iff.mp hdecode.symm
      refine hcons c rest n v chars' hseq hfound hchars' (ih _ ?_ _ chars' hchars' rfl)
      have := hseq.pos
      rw [List.length_drop, ← hk, List.length_cons]
      omega

/-- The loop replaces the code points of the table. -/
theorem normalized_eq_replaced {chars : List (ℕ × Str)} (h : utf8Decode text = some chars) :
    normalized text = replaced chars := by
  refine utf8Decode_induction (P := fun text chars ↦ normalized text = replaced chars) ?_ ?_ _ _ h
  · rw [normalized]
    rfl
  · intro c rest n v chars hseq hfound _ ih
    rw [normalized_sequence hseq hfound, ih]
    rfl

/-- The code points of the text that is left. -/
def replacedChars (chars : List (ℕ × Str)) : List (ℕ × Str) :=
  chars.flatMap fun c ↦ (asciiEquivalent c.1).elim [c] fun out ↦ out.map fun a ↦ (a.toNat, [a])

theorem ascii_of_asciiEquivalent {v : ℕ} {out : Str} (h : asciiEquivalent v = some out) :
    ∀ a ∈ out, a.toNat < 128 := by
  have hsmall {k : ℕ} (hk : k < 128) : ∀ a ∈ [UInt8.ofNat k], a.toNat < 128 := by
    intro a ha
    rw [List.mem_singleton.mp ha, UInt8.toNat_ofNat']
    omega
  rw [asciiEquivalent] at h
  split_ifs at h
  all_goals obtain rfl := Option.some.inj h
  case pos => exact hsmall (by decide)
  case pos => exact fun a ha ↦ absurd ha List.not_mem_nil
  case pos => exact hsmall (by decide)
  case pos => exact hsmall (by decide)
  case pos => exact hsmall (by decide)
  case pos => exact hsmall (by decide)
  case pos => decide
  case pos => exact hsmall (by decide)
  case pos => exact hsmall (by omega)
  case pos => exact hsmall (by omega)

theorem sequence_ascii {a : UInt8} (h : a.toNat < 128) (rest : Str) :
    Sequence 1 a.toNat (a :: rest) := by
  have hbits : ∀ a : UInt8, a.toNat < 128 → a &&& 0x80 = 0 ∧ (a &&& 0x7f).toNat = a.toNat :=
    Words.forall_uint8 (by decide +kernel)
  obtain ⟨hhigh, hlow⟩ := hbits a h
  refine ⟨le_rfl, Nat.succ_le_succ (Nat.zero_le _), fun d hd ↦ absurd hd List.not_mem_nil,
    fun rest' ↦ ?_⟩
  change utf8Getc (a :: rest') = _
  rw [utf8Getc, if_pos hhigh, hlow]
  rfl

theorem utf8Decode_ascii {out : Str} (h : ∀ a ∈ out, a.toNat < 128) (rest : Str) :
    utf8Decode (out ++ rest) =
      (utf8Decode rest).map ((out.map fun a ↦ (a.toNat, [a])) ++ ·) := by
  induction out with
  | nil =>
      rw [List.nil_append, List.map_nil]
      exact Option.map_id'.symm
  | cons a out ih =>
      obtain ⟨ha, hout⟩ := List.forall_mem_cons.mp h
      have hdecode := utf8Decode_sequence (sequence_ascii ha []) (out ++ rest)
      rw [List.cons_append, List.map_cons]
      change utf8Decode (a :: (out ++ rest)) = _ at hdecode
      rw [hdecode, ih hout, Option.map_map]
      rfl

/-- The text that is left is valid. -/
theorem utf8Decode_replaced {chars : List (ℕ × Str)} (h : utf8Decode text = some chars) :
    utf8Decode (replaced chars) = some (replacedChars chars) := by
  refine utf8Decode_induction
    (P := fun _ chars ↦ utf8Decode (replaced chars) = some (replacedChars chars)) ?_ ?_ _ _ h
  · change utf8Decode [] = some []
    rw [utf8Decode, dif_pos rfl]
  · intro c rest n v chars hseq hfound _ ih
    rw [replaced, replacedChars, List.flatMap_cons, List.flatMap_cons]
    change utf8Decode (_ ++ replaced chars) = some (_ ++ replacedChars chars)
    cases hv : asciiEquivalent v with
    | none =>
        rw [Option.getD_none, utf8Decode_sequence hseq, ih]
        rfl
    | some out =>
        rw [Option.getD_some, utf8Decode_ascii (ascii_of_asciiEquivalent hv), ih]
        rfl

/-- No code point of the table is left. -/
theorem replaced_replacedChars (chars : List (ℕ × Str)) :
    replaced (replacedChars chars) = replaced chars := by
  induction chars with
  | nil => rfl
  | cons c chars ih =>
      rw [replacedChars, List.flatMap_cons, replaced, List.flatMap_append, replaced,
        List.flatMap_cons]
      change _ ++ replaced (replacedChars chars) = _ ++ replaced chars
      rw [ih]
      congr 1
      cases hc : asciiEquivalent c.1 with
      | none =>
          change ([c] : List (ℕ × Str)).flatMap _ = _
          rw [List.flatMap_singleton, hc]
      | some out =>
          have hout := ascii_of_asciiEquivalent hc
          change (out.map fun a ↦ (a.toNat, [a])).flatMap _ = out
          clear hc
          induction out with
          | nil => rfl
          | cons a out ih =>
              obtain ⟨ha, hout⟩ := List.forall_mem_cons.mp hout
              rw [List.map_cons, List.flatMap_cons, ih hout,
                asciiEquivalent_none (.inl (ha.trans (by decide)))]
              rfl

theorem utf8Decode_of_ne (h : text ≠ []) : utf8Decode text =
    if (utf8Getc text).1 < 1 then none
    else (utf8Decode (text.drop (utf8Getc text).1.toNat)).map
      (((utf8Getc text).2, text.take (utf8Getc text).1.toNat) :: ·) := by
  rw [utf8Decode, dif_neg h]

theorem utf8StrIsValid_eq (text : Str) : utf8StrIsValid text = (utf8Decode text).isSome := by
  fun_induction utf8StrIsValid text with
  | case1 => rw [utf8Decode, dif_pos rfl]; rfl
  | case2 text hne len hlen =>
      rw [utf8Decode_of_ne hne, if_pos hlen]
      rfl
  | case3 text hne len hlen ih =>
      rw [ih, utf8Decode_of_ne hne, if_neg hlen, Option.isSome_map]

/-- `utf8_normalize_str` reads nothing behind the NUL of any text and writes nowhere it has not
read.  A valid text stays valid and gets no longer, with the code points of the table replaced and
all others kept, and it does not change again. -/
theorem utf8NormalizeStr_spec (text : Str) (h : 0 ∉ text) :
    ∃ result, utf8NormalizeStr text = some result ∧ (utf8StrIsValid text = true →
      utf8StrIsValid result = true ∧ result.length ≤ text.length ∧
        (∃ chars, utf8Decode text = some chars ∧ result = replaced chars) ∧
        utf8NormalizeStr result = some result) := by
  refine ⟨normalized text, utf8NormalizeStr_eq h, fun hvalid ↦ ?_⟩
  rw [utf8StrIsValid_eq, Option.isSome_iff_exists] at hvalid
  obtain ⟨chars, hchars⟩ := hvalid
  have hresult := normalized_eq_replaced hchars
  have hdecode := utf8Decode_replaced hchars
  refine ⟨?_, length_normalized_le text, ⟨chars, hchars, hresult⟩, ?_⟩
  · rw [utf8StrIsValid_eq, hresult, hdecode]
    rfl
  · rw [utf8NormalizeStr_eq (zero_notMem_normalized h), hresult, normalized_eq_replaced hdecode,
      replaced_replacedChars]

theorem utf8NormalizeStr_dash : ∃ result, utf8NormalizeStr [65, 0xE2, 0x80, 0x93, 66] =
    some result ∧ (utf8StrIsValid [65, 0xE2, 0x80, 0x93, 66] = true →
      utf8StrIsValid result = true ∧
        result.length ≤ ([65, 0xE2, 0x80, 0x93, 66] : Str).length ∧
        (∃ chars, utf8Decode [65, 0xE2, 0x80, 0x93, 66] = some chars ∧ result = replaced chars) ∧
        utf8NormalizeStr result = some result) :=
  utf8NormalizeStr_spec [65, 0xE2, 0x80, 0x93, 66] (by decide)

end Synchronet.Encode.Utf8
