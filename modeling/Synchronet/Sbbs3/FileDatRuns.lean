import Synchronet.Sbbs3.FileDat

/-!
# The index of a file directory over whole runs

The index is sorted by name, without two equal names, and its records and the occupied slots
belong to each other one to one.  `addfiledat` takes the byte behind the name in a record,
the low byte of an offset, for a part of the name, so that it misses the name of a file in
most of the slots; and the new slot is written by the time it finds one.
-/

namespace Synchronet.Sbbs3

open RecordFile Records LittleEndian
open Smblib (cstr cstr_of_notMem)
open Xpdev (stricmp)

/-! ## The invariant -/

/-- The name in a record, in capitals. -/
def recName (rec : List UInt8) : List UInt8 := (rec.take 11).map toupper

def FileName.index (name : FileName) : List UInt8 := (indexName name).take 11

/-- The name of a file as in the index, in capitals. -/
def FileName.upper (name : FileName) : List UInt8 := name.index.map toupper

/-- A name in front of another one. -/
def DirSort.Before : DirSort → List UInt8 → List UInt8 → Prop
  | .nameA, a, b => a < b
  | .nameD, a, b => b < a
  | .dateA, _, _ => True
  | .dateD, _, _ => True

def Occupied (dat : List UInt8) (l : ℕ) : Prop :=
  l % fLen = 0 ∧ ∃ c ∈ dat[l]?, c ≠ etx

structure Indexed (d : FileDir) : Prop where
  byName : d.sort = .nameA ∨ d.sort = .nameD
  ixbSize : d.ixb.length % fIxbsize = 0
  datSize : d.dat.length % fLen = 0
  names : ∀ r ∈ records fIxbsize d.ixb, (0 : UInt8) ∉ r.take 11
  sorted : (records fIxbsize d.ixb).Pairwise fun r s ↦ d.sort.Before (recName r) (recName s)
  offsets : ((records fIxbsize d.ixb).map recOffset).Nodup
  used : ∀ r ∈ records fIxbsize d.ixb, Occupied d.dat (recOffset r)
  indexed : ∀ l, Occupied d.dat l → ∃ r ∈ records fIxbsize d.ixb, recOffset r = l

/-- The directory has no files. -/
theorem indexed_empty {sort : DirSort} (h : sort = .nameA ∨ sort = .nameD) :
    Indexed { sort } where
  byName := h
  ixbSize := rfl
  datSize := rfl
  names := by simp
  sorted := by simp
  offsets := by simp
  used := by simp
  indexed := by simp [Occupied]

/-! ## Names -/

theorem FileName.chars_eq (name : FileName) :
    indexName name = name.chars.take 8 ++ name.chars.drop 9 ++ [0, 0] := by
  obtain ⟨chars, hlen, hnul⟩ := name
  match chars, hlen with
  | [_, _, _, _, _, _, _, _, _, _, _, _], _ => rfl

theorem FileName.index_eq (name : FileName) :
    name.index = name.chars.take 8 ++ name.chars.drop 9 := by
  rw [index, chars_eq]
  exact List.take_left' (by simp [name.length_chars])

theorem FileName.length_index (name : FileName) : name.index.length = 11 := by
  simp [index_eq, name.length_chars]

theorem FileName.indexName_eq (name : FileName) : indexName name = name.index ++ [0, 0] := by
  rw [chars_eq, index_eq]

theorem FileName.index_noNul (name : FileName) : (0 : UInt8) ∉ name.index := by
  rw [index_eq]
  intro h
  rcases List.mem_append.mp h with h | h
  · exact name.noNul (List.mem_of_mem_take h)
  · exact name.noNul (List.mem_of_mem_drop h)

theorem FileName.cstr_indexName (name : FileName) : cstr (indexName name) = name.index := by
  rw [indexName_eq, cstr, List.takeWhile_append_of_pos fun c hc ↦ by
    simpa using fun h0 : c = 0 ↦ name.index_noNul (h0 ▸ hc)]
  simp

/-- Names that differ only in case, in small letters and in capitals. -/
theorem stricmp_iff (a b : List UInt8) : stricmp a b = true ↔ a.map toupper = b.map toupper := by
  have hup : ∀ c : UInt8, toupper (if 65 ≤ c ∧ c ≤ 90 then c + 32 else c) = toupper c :=
    Words.forall_uint8 (by decide +kernel)
  have hlow : ∀ c : UInt8, (if 65 ≤ toupper c ∧ toupper c ≤ 90 then toupper c + 32 else toupper c) =
      if 65 ≤ c ∧ c ≤ 90 then c + 32 else c := Words.forall_uint8 (by decide +kernel)
  have hmapUp : ∀ s, (Smblib.strlwr s).map toupper = s.map toupper := fun s ↦ by
    rw [Smblib.strlwr, List.map_map]
    exact List.map_congr_left fun c _ ↦ hup c
  have hmapLow : ∀ s, Smblib.strlwr (s.map toupper) = Smblib.strlwr s := fun s ↦ by
    rw [Smblib.strlwr, Smblib.strlwr, List.map_map]
    exact List.map_congr_left fun c _ ↦ hlow c
  rw [stricmp, beq_iff_eq]
  constructor
  · intro h
    rw [← hmapUp a, h, hmapUp]
  · intro h
    rw [← hmapLow a, h, hmapLow]

theorem map_toupper_length {a b : List UInt8} (h : a.map toupper = b.map toupper) :
    a.length = b.length := by simpa using congrArg List.length h

/-- A record of the index has the name of the file. -/
theorem stricmp_recName {r : List UInt8} {name : FileName} (hr : (0 : UInt8) ∉ r.take 11) :
    stricmp (cstr (r.take 11)) (cstr (indexName name)) = true ↔ recName r = name.upper := by
  rw [stricmp_iff, cstr_of_notMem hr, name.cstr_indexName, recName, FileName.upper]

theorem printedName_eq {r : List UInt8} (hlen : r.length = fIxbsize)
    (hr : (0 : UInt8) ∉ r.take 11) : printedName r = r.take 11 := by
  have hten : (r.take 11).length = 11 := by rw [List.length_take, hlen]; rfl
  have hcstr : (cstr r).take 11 = r.take 11 := by
    conv_lhs => rw [← List.take_append_drop 11 r]
    rw [cstr, List.takeWhile_append_of_pos fun c hc ↦ by
      simpa using fun h0 : c = 0 ↦ hr (h0 ▸ hc)]
    exact List.take_left' hten
  rw [printedName, hcstr, hten]
  rfl

/-! ## Comparing a name with a record -/

theorem toupperChar_of_ne {c : UInt8} (h : c ≠ 0xff) : toupperChar c = (toupper c).toNat :=
  if_neg h

theorem toupperChar_eq_iff {c : UInt8} (h : c ≠ 0xff) (x : UInt8) :
    toupperChar c = (toupper x).toNat ↔ toupper c = toupper x := by
  rw [toupperChar_of_ne h, Int.natCast_inj, UInt8.toNat_inj]

/-- The first place at which two names differ decides their order. -/
theorem scan_spec {a b : List UInt8} (hlen : a.length = b.length) (heof : (0xff : UInt8) ∉ a)
    (hne : a.map toupper ≠ b.map toupper) (s t : List UInt8) :
    let i := (((a ++ s).zip (b ++ t)).takeWhile fun p ↦
      toupperChar p.1 = (toupper p.2).toNat).length
    i < a.length ∧
      (toupperChar ((a ++ s).getD i 0) < (toupper ((b ++ t).getD i 0)).toNat ↔
        a.map toupper < b.map toupper) ∧
      (toupperChar ((a ++ s).getD i 0) > (toupper ((b ++ t).getD i 0)).toNat ↔
        b.map toupper < a.map toupper) := by
  induction a generalizing b with
  | nil =>
      have hb : b = [] := List.length_eq_zero_iff.mp hlen.symm
      exact absurd (by rw [hb]) hne
  | cons c a ih =>
      obtain ⟨x, b, rfl⟩ := List.exists_cons_of_length_eq_add_one hlen.symm
      have hc : c ≠ 0xff := fun h ↦ heof (h ▸ List.mem_cons_self)
      have heof' : (0xff : UInt8) ∉ a := fun h ↦ heof (List.mem_cons_of_mem _ h)
      by_cases heq : toupper c = toupper x
      · have hne' : a.map toupper ≠ b.map toupper := fun h ↦ hne (by simp [heq, h])
        obtain ⟨hlt, hless, hmore⟩ := ih (by simpa using hlen) heof' hne'
        have hstep : (toupperChar c = (toupper x).toNat) := (toupperChar_eq_iff hc x).mpr heq
        simp only [List.cons_append, List.zip_cons_cons, List.takeWhile_cons, hstep, decide_true,
          if_true, List.length_cons, List.getD_cons_succ, List.map_cons, List.cons_lt_cons_iff,
          heq, UInt8.lt_irrefl, true_and, false_or]
        exact ⟨Nat.succ_lt_succ hlt, hless, hmore⟩
      · have hstep : ¬ toupperChar c = (toupper x).toNat :=
          fun h ↦ heq ((toupperChar_eq_iff hc x).mp h)
        have heq' : ¬ toupper x = toupper c := fun h ↦ heq h.symm
        have hscan : (((c :: (a ++ s)).zip (x :: (b ++ t))).takeWhile fun p ↦
            toupperChar p.1 = (toupper p.2).toNat) = [] :=
          List.takeWhile_cons_of_neg (by simpa using hstep)
        simp only [hscan, List.length_nil, List.length_cons, List.cons_append,
          List.getD_cons_zero, List.map_cons, List.cons_lt_cons_iff, heq, heq', false_and,
          or_false, toupperChar_of_ne hc, Int.ofNat_lt, gt_iff_lt]
        exact ⟨Nat.succ_pos _, UInt8.lt_iff_toNat_lt.symm, UInt8.lt_iff_toNat_lt.symm⟩

variable {name : FileName} {r : List UInt8}

theorem zip_take_twelve (name : FileName) (r : List UInt8) :
    ((indexName name).take 12).zip (r.take 12) =
      (name.index ++ [0]).zip (r.take 11 ++ (r.drop 11).take 1) := by
  have hfname : (indexName name).take 12 = name.index ++ [0] := by
    rw [name.indexName_eq, List.take_append, name.length_index,
      List.take_of_length_le (by simp [name.length_index])]
    rfl
  rw [hfname, ← List.take_add]

theorem nameScan_spec (hlen : r.length = fIxbsize) (heof : (0xff : UInt8) ∉ name.chars)
    (hne : recName r ≠ name.upper) :
    nameScan (indexName name) r < 11 ∧
      (goesBefore .nameA (indexName name) r (nameScan (indexName name) r) = true ↔
        name.upper < recName r) ∧
      (goesBefore .nameD (indexName name) r (nameScan (indexName name) r) = true ↔
        recName r < name.upper) := by
  have hr : (r.take 11).length = name.index.length := by
    rw [List.length_take, hlen, name.length_index]
    rfl
  have heof' : (0xff : UInt8) ∉ name.index := by
    rw [name.index_eq]
    intro h
    rcases List.mem_append.mp h with h | h
    · exact heof (List.mem_of_mem_take h)
    · exact heof (List.mem_of_mem_drop h)
  obtain ⟨hlt, hless, hmore⟩ :=
    scan_spec hr.symm heof' (fun h ↦ hne h.symm) [0] ((r.drop 11).take 1)
  rw [← zip_take_twelve] at hlt hless hmore
  rw [name.length_index] at hlt
  change nameScan (indexName name) r < 11 at hlt
  change toupperChar (List.getD _ (nameScan (indexName name) r) 0) <
    (toupper (List.getD _ (nameScan (indexName name) r) 0)).toNat ↔ _ at hless
  change toupperChar (List.getD _ (nameScan (indexName name) r) 0) >
    (toupper (List.getD _ (nameScan (indexName name) r) 0)).toNat ↔ _ at hmore
  generalize nameScan (indexName name) r = i at hlt hless hmore
  have hfirst : (name.index ++ [0]).getD i 0 = (indexName name).getD i 0 := by
    have hi : i < name.index.length := by rwa [name.length_index]
    simp only [name.indexName_eq, List.getD_eq_getElem?_getD, List.getElem?_append_left hi]
  have hsecond : (r.take 11 ++ (r.drop 11).take 1).getD i 0 = r.getD i 0 := by
    simp only [← List.take_add, List.getD_eq_getElem?_getD]
    rw [List.getElem?_take_of_lt (Nat.lt_succ_of_lt hlt)]
  rw [hfirst, hsecond] at hless hmore
  refine ⟨hlt, ?_, ?_⟩
  · simpa only [goesBefore, decide_true, Bool.true_and, reduceCtorEq, decide_false, Bool.false_and,
      Bool.or_false, decide_eq_true_eq, FileName.upper, recName] using hless
  · simpa only [goesBefore, decide_true, Bool.true_and, reduceCtorEq, decide_false, Bool.false_and,
      Bool.false_or, decide_eq_true_eq, FileName.upper, recName] using hmore

/-! ## The place of a new record -/

variable {sort : DirSort} {rs : List (List UInt8)}

theorem lt_or_gt_name {a b : List UInt8} (h : a ≠ b) : a < b ∨ b < a := by
  by_contra hn
  push Not at hn
  exact h (List.le_antisymm hn.2 hn.1)

theorem DirSort.Before.trans (hsort : sort = .nameA ∨ sort = .nameD) {a b c : List UInt8}
    (hab : sort.Before a b) (hbc : sort.Before b c) : sort.Before a c := by
  rcases hsort with rfl | rfl
  · exact List.lt_trans hab hbc
  · exact List.lt_trans hbc hab

theorem DirSort.Before.ne (hsort : sort = .nameA ∨ sort = .nameD) {a b : List UInt8}
    (hab : sort.Before a b) : a ≠ b := by
  rintro rfl
  rcases hsort with rfl | rfl
  · exact List.lt_irrefl a hab
  · exact List.lt_irrefl a hab

/-- A record with another name is on one side of the new one. -/
theorem goesBefore_cases (hsort : sort = .nameA ∨ sort = .nameD) (hlen : r.length = fIxbsize)
    (heof : (0xff : UInt8) ∉ name.chars) (hne : recName r ≠ name.upper) :
    if goesBefore sort (indexName name) r (nameScan (indexName name) r) then
      sort.Before name.upper (recName r)
    else sort.Before (recName r) name.upper := by
  obtain ⟨-, hless, hmore⟩ := nameScan_spec hlen heof hne
  have hcases := lt_or_gt_name hne
  rcases hsort with rfl | rfl
  · split
    case isTrue h => exact hless.mp h
    case isFalse h => exact hcases.resolve_right fun hlt ↦ h (hless.mpr hlt)
  · split
    case isTrue h => exact hmore.mp h
    case isFalse h => exact hcases.resolve_left fun hlt ↦ h (hmore.mpr hlt)

/-- A new name goes behind the names in front of it and in front of another name. -/
theorem nameLoop_spec (hsort : sort = .nameA ∨ sort = .nameD)
    (heof : (0xff : UInt8) ∉ name.chars) (hlen : ∀ r ∈ rs, r.length = fIxbsize)
    (hnew : ∀ r ∈ rs, recName r ≠ name.upper) :
    ∃ k, nameLoop sort (indexName name) rs = some k ∧ k ≤ rs.length ∧
      (∀ r ∈ rs.take k, sort.Before (recName r) name.upper) ∧
      ∀ r ∈ rs[k]?, sort.Before name.upper (recName r) := by
  induction rs with
  | nil => exact ⟨0, rfl, le_rfl, by simp, by simp⟩
  | cons r rs ih =>
      have hr : r.length = fIxbsize := hlen r List.mem_cons_self
      have hne : recName r ≠ name.upper := hnew r List.mem_cons_self
      have hscan : nameScan (indexName name) r ≠ 12 := by
        have := (nameScan_spec hr heof hne).1
        omega
      have hcases := goesBefore_cases hsort hr heof hne
      rw [nameLoop, if_neg hscan]
      split at hcases
      case isTrue hbefore =>
        rw [if_pos hbefore]
        exact ⟨0, rfl, Nat.zero_le _, by simp, by simpa using hcases⟩
      case isFalse hbefore =>
        obtain ⟨k, hk, hkle, hfront, hhead⟩ := ih (fun r hr ↦ hlen r (List.mem_cons_of_mem _ hr))
          fun r hr ↦ hnew r (List.mem_cons_of_mem _ hr)
        rw [if_neg hbefore, hk]
        refine ⟨k + 1, rfl, Nat.succ_le_succ hkle, ?_, by simpa using hhead⟩
        intro r' hr'
        rcases List.mem_cons.mp hr' with rfl | hr'
        · exact hcases
        · exact hfront r' hr'

/-! ## Slots -/

variable {dat : List UInt8}

theorem freeSlot_spec (hdat : dat.length % fLen = 0) :
    freeSlot dat % fLen = 0 ∧ freeSlot dat ≤ dat.length ∧ ¬ Occupied dat (freeSlot dat) := by
  have hlen : (records fLen dat).length * fLen = dat.length := by
    rw [length_records]
    exact Nat.div_mul_cancel (Nat.dvd_of_mod_eq_zero hdat)
  have hle : freeSlot dat ≤ dat.length := by
    rw [← hlen]
    exact Nat.mul_le_mul_right _ List.findIdx_le_length
  refine ⟨Nat.mul_mod_left _ _, hle, ?_⟩
  rintro ⟨-, c, hc, hne⟩
  have hlt : freeSlot dat < dat.length := (List.getElem?_eq_some_iff.mp hc).1
  rw [freeSlot, ← hlen] at hlt
  have hidx := Nat.lt_of_mul_lt_mul_right hlt
  have hfree := List.findIdx_getElem (w := hidx)
  rw [head?_getElem_records (by decide)] at hfree
  rw [Option.mem_def, freeSlot] at hc
  rw [hc] at hfree
  exact hne (by simpa using hfree)

theorem lt_of_lt_slot {l m : ℕ} (hl : l % fLen = 0) (hm : m % fLen = 0) (h : l < m) :
    l + fLen ≤ m := by
  obtain ⟨i, rfl⟩ := Nat.dvd_of_mod_eq_zero hl
  obtain ⟨j, rfl⟩ := Nat.dvd_of_mod_eq_zero hm
  have hij : i < j := Nat.lt_of_mul_lt_mul_left h
  calc fLen * i + fLen = fLen * (i + 1) := rfl
    _ ≤ fLen * j := Nat.mul_le_mul_left _ hij

/-- A slot is filled. -/
theorem occupied_write {l : ℕ} {xs : List UInt8} {c : UInt8} (hl : l % fLen = 0)
    (hle : l ≤ dat.length) (hxs : xs.length = fLen) (hc : xs[0]? = some c) (hne : c ≠ etx)
    (m : ℕ) : Occupied (writeAt 0 dat l xs) m ↔ m = l ∨ Occupied dat m := by
  by_cases hm : m = l
  · subst hm
    have hget : (writeAt 0 dat m xs)[m]? = some c := by
      rw [← hc]
      exact getElem?_writeAt_inside 0 dat m xs (i := 0) (by rw [hxs]; decide)
    exact ⟨fun _ ↦ .inl rfl, fun _ ↦ ⟨hl, c, hget, hne⟩⟩
  · rw [or_iff_right hm]
    refine and_congr_right fun hmod ↦ ?_
    have hget : (writeAt 0 dat l xs)[m]? = dat[m]? := by
      rcases Nat.lt_or_gt_of_ne hm with hlt | hgt
      · exact getElem?_writeAt_before 0 dat l xs hlt (Nat.lt_of_lt_of_le hlt hle)
      · exact getElem?_writeAt_after 0 dat l xs (hxs ▸ lt_of_lt_slot hl hmod hgt)
    rw [hget]

/-- A slot is freed. -/
theorem occupied_free {l : ℕ} (hl : l < dat.length) (m : ℕ) :
    Occupied (writeAt 0 dat l [etx]) m ↔ m ≠ l ∧ Occupied dat m := by
  rw [writeAt_singleton 0 etx hl]
  by_cases hm : m = l
  · subst hm
    simp [Occupied, hl]
  · simp [Occupied, List.getElem?_set_ne (Ne.symm hm), hm]

theorem length_fdat (f : File) : (fdat f).length = fLen := by
  rw [fdat]
  iterate 2 refine length_putrec ?_ (by decide)
  rw [List.length_set]
  iterate 9 refine length_putrec ?_ (by decide)
  exact List.length_replicate

/-- A slot starts with the digits of a number, and is not free. -/
theorem fdat_zero (f : File) : ∃ c, (fdat f)[0]? = some c ∧ c ≠ etx := by
  obtain ⟨c, s, hs⟩ := List.exists_cons_of_ne_nil (ultoa_ne_nil f.cdt.toNat 10)
  have hc : c ≠ etx := by
    rintro rfl
    have := (@mem_ultoa_ten f.cdt.toNat etx (by rw [hs]; exact List.mem_cons_self)).1
    exact absurd this (by decide)
  refine ⟨c, ?_, hc⟩
  rw [fdat, hs]
  iterate 2 refine getElem?_putrec_zero (by decide) ?_
  rw [List.getElem?_set_ne (by decide)]
  iterate 8 refine getElem?_putrec_zero (by decide) ?_
  exact getElem?_writeAt_inside 0 _ 0 (column lenFcdt (c :: s)) (i := 0)
    (by rw [length_column]; decide)

/-! ## Index records -/

theorem length_ixbRecord (f : File) : (ixbRecord f).length = fIxbsize := by
  have h : ((indexName f.name).take 11).length = 11 := f.name.length_index
  rw [ixbRecord, List.length_append, h]
  rfl

theorem take_ixbRecord (f : File) : (ixbRecord f).take 11 = f.name.index :=
  List.take_left' f.name.length_index

theorem recName_ixbRecord (f : File) : recName (ixbRecord f) = f.name.upper := by
  rw [recName, take_ixbRecord, FileName.upper]

theorem recOffset_ixbRecord {f : File} (h : f.datoffset < 2 ^ 24) :
    recOffset (ixbRecord f) = f.datoffset := by
  have hdrop : (ixbRecord f).drop 11 = le 3 f.datoffset ++
      (le 4 f.dateuled.toUInt32.toNat ++ le 4 f.datedled.toUInt32.toNat) :=
    List.drop_left' f.name.length_index
  have hfield := field_zero 3 f.datoffset
    (le 4 f.dateuled.toUInt32.toNat ++ le 4 f.datedled.toUInt32.toNat)
  rw [field, List.drop_zero, ← hdrop] at hfield
  rw [recOffset, field, hfield]
  exact Nat.mod_eq_of_lt h

/-! ## Adding a file -/

variable {f : File} {d : FileDir}

/-- There is no room for another file. -/
def Full (d : FileDir) : Prop := d.dat ≠ [] ∧ maxFiles ≤ freeSlot d.dat / fLen

/-- The name is in the index, in capitals or not. -/
def Present (f : File) (d : FileDir) : Prop :=
  ∃ r ∈ records fIxbsize d.ixb, recName r = f.name.upper

theorem addfiledat_full (hfull : Full d) : addfiledat f d = (false, f, d) := by
  rw [addfiledat]
  exact if_pos (.inr hfull)

theorem freeSlot_lt (hdat : d.dat.length % fLen = 0) (hroom : ¬ Full d) :
    freeSlot d.dat < 2 ^ 24 := by
  by_cases hnil : d.dat = []
  · rw [hnil]
    decide
  · have hslots : freeSlot d.dat / fLen < maxFiles := by
      by_contra hn
      exact hroom ⟨hnil, Nat.le_of_not_lt hn⟩
    have hmul := Nat.div_mul_cancel (Nat.dvd_of_mod_eq_zero (freeSlot_spec hdat).1)
    rw [← hmul]
    calc freeSlot d.dat / fLen * fLen ≤ maxFiles * fLen := Nat.mul_le_mul_right _ hslots.le
      _ < 2 ^ 24 := by decide

/-- The DAT file with a slot filled. -/
def withSlot (f : File) (d : FileDir) : List UInt8 :=
  writeAt 0 d.dat (freeSlot d.dat) (fdat { f with datoffset := freeSlot d.dat })

theorem length_withSlot (hdat : d.dat.length % fLen = 0) : (withSlot f d).length % fLen = 0 := by
  have hnil : fdat { f with datoffset := freeSlot d.dat } ≠ [] := by
    rw [← List.length_pos_iff, length_fdat]
    decide
  rw [withSlot, length_writeAt 0 _ _ hnil, length_fdat]
  rcases le_total d.dat.length (freeSlot d.dat + fLen) with h | h
  · rw [max_eq_right h, Nat.add_mod_right]
    exact (freeSlot_spec hdat).1
  · rw [max_eq_left h]
    exact hdat

/-- Where there is room, the slot is filled in every case. -/
theorem addfiledat_room (hdat : d.dat.length % fLen = 0) (hroom : ¬ Full d) :
    addfiledat f d =
      match addixb d.sort { f with datoffset := freeSlot d.dat } d.ixb with
      | none => (false, { f with datoffset := freeSlot d.dat }, { d with dat := withSlot f d })
      | some ixb =>
          (true, { f with datoffset := freeSlot d.dat }, { d with dat := withSlot f d, ixb }) := by
  have hfirst : ¬ (d.dat.length % fLen ≠ 0 ∨ d.dat ≠ [] ∧ maxFiles ≤ freeSlot d.dat / fLen) :=
    not_or.mpr ⟨not_not.mpr hdat, hroom⟩
  have hslot := @length_withSlot f d hdat
  rw [withSlot] at hslot
  simp only [addfiledat, if_neg hfirst, hslot, ne_eq, not_true_eq_false, if_false, withSlot] <;>
    rfl

theorem occupied_withSlot (hdat : d.dat.length % fLen = 0) (m : ℕ) :
    Occupied (withSlot f d) m ↔ m = freeSlot d.dat ∨ Occupied d.dat m := by
  obtain ⟨hl, hle, -⟩ := freeSlot_spec hdat
  obtain ⟨c, hc, hne⟩ := fdat_zero { f with datoffset := freeSlot d.dat }
  exact occupied_write hl hle (length_fdat _) hc hne m

theorem withSlot_ne (hdat : d.dat.length % fLen = 0) : withSlot f d ≠ d.dat := by
  intro heq
  have hocc := (@occupied_withSlot f d hdat (freeSlot d.dat)).mpr (.inl rfl)
  rw [heq] at hocc
  exact (freeSlot_spec hdat).2.2 hocc

/-- The records of an index with a new name. -/
theorem addixb_spec (hd : Indexed d) (heof : (0xff : UInt8) ∉ f.name.chars)
    (hnew : ¬ Present f d) :
    ∃ ixb k, addixb d.sort f d.ixb = some ixb ∧ ixb.length % fIxbsize = 0 ∧
      records fIxbsize ixb = (records fIxbsize d.ixb).take k ++
        ixbRecord f :: (records fIxbsize d.ixb).drop k ∧
      (∀ r ∈ (records fIxbsize d.ixb).take k, d.sort.Before (recName r) f.name.upper) ∧
      ∀ r ∈ (records fIxbsize d.ixb)[k]?, d.sort.Before f.name.upper (recName r) := by
  obtain ⟨k, hk, hkle, hfront, hhead⟩ := nameLoop_spec hd.byName heof
    (length_of_mem_records hd.ixbSize) fun r hr heq ↦ hnew ⟨r, hr, heq⟩
  have hkle' : k * fIxbsize ≤ d.ixb.length := by
    rw [length_records] at hkle
    calc k * fIxbsize ≤ d.ixb.length / fIxbsize * fIxbsize := Nat.mul_le_mul_right _ hkle
      _ ≤ d.ixb.length := Nat.div_mul_le_self _ _
  have hwrite : writeAt 0 d.ixb (k * fIxbsize) (ixbRecord f ++ d.ixb.drop (k * fIxbsize)) =
      d.ixb.take (k * fIxbsize) ++ (ixbRecord f ++ d.ixb.drop (k * fIxbsize)) := by
    have hnil : ixbRecord f ++ d.ixb.drop (k * fIxbsize) ≠ [] := by
      rw [← List.length_pos_iff, List.length_append, length_ixbRecord]
      exact Nat.lt_of_lt_of_le (by decide) (Nat.le_add_right _ _)
    have hpast : d.ixb.length ≤
        k * fIxbsize + (ixbRecord f ++ d.ixb.drop (k * fIxbsize)).length := by
      rw [List.length_append, List.length_drop]
      omega
    rw [writeAt, if_neg hnil, Nat.sub_eq_zero_of_le hkle', List.drop_eq_nil_of_le hpast]
    simp
  refine ⟨_, k, ?_, ?_, records_insert (by decide) hd.ixbSize (length_ixbRecord f) k, hfront, hhead⟩
  · rw [addixb, if_neg (not_not.mpr hd.ixbSize), ixbPlace, if_pos hd.byName, hk, Option.map_some,
      hwrite]
  · rw [List.length_append, List.length_append, length_ixbRecord, Nat.add_left_comm,
      ← List.length_append, List.take_append_drop, Nat.add_mod_left]
    exact hd.ixbSize

/-- The slot is filled, and its record stands in the index. -/
theorem indexed_insert (hd : Indexed d) {ixb rec : List UInt8} {k : ℕ}
    (hsize : ixb.length % fIxbsize = 0)
    (hrecs : records fIxbsize ixb =
      (records fIxbsize d.ixb).take k ++ rec :: (records fIxbsize d.ixb).drop k)
    (hnul : (0 : UInt8) ∉ rec.take 11)
    (hfront : ∀ r ∈ (records fIxbsize d.ixb).take k, d.sort.Before (recName r) (recName rec))
    (hhead : ∀ r ∈ (records fIxbsize d.ixb)[k]?, d.sort.Before (recName rec) (recName r))
    (hoff : recOffset rec = freeSlot d.dat) :
    Indexed { d with dat := withSlot f d, ixb } := by
  have hmem : ∀ r, r ∈ records fIxbsize ixb ↔ r = rec ∨ r ∈ records fIxbsize d.ixb := by
    intro r
    rw [hrecs, mem_insert]
  have hslot := @length_withSlot f d hd.datSize
  have hocc := @occupied_withSlot f d hd.datSize
  generalize withSlot f d = dat at hslot hocc ⊢
  refine ⟨hd.byName, hsize, hslot, ?_, ?_, ?_, ?_, ?_⟩
  case refine_1 =>
    intro r hr
    rcases (hmem r).mp hr with rfl | hr
    · exact hnul
    · exact hd.names r hr
  case refine_2 =>
    change (records fIxbsize ixb).Pairwise fun r s ↦ d.sort.Before (recName r) (recName s)
    rw [hrecs]
    exact pairwise_insert_of_head (fun h h' ↦ DirSort.Before.trans hd.byName h h') hd.sorted
      hfront hhead
  case refine_3 =>
    change ((records fIxbsize ixb).map recOffset).Nodup
    have hperm : (records fIxbsize ixb).Perm (rec :: records fIxbsize d.ixb) := by
      rw [hrecs]
      exact List.perm_middle.trans (by rw [List.take_append_drop])
    rw [(hperm.map recOffset).nodup_iff, List.map_cons, List.nodup_cons, hoff]
    refine ⟨fun hin ↦ ?_, hd.offsets⟩
    obtain ⟨r, hr, heq⟩ := List.mem_map.mp hin
    exact (freeSlot_spec hd.datSize).2.2 (heq ▸ hd.used r hr)
  case refine_4 =>
    intro r hr
    refine (hocc _).mpr ?_
    rcases (hmem r).mp hr with rfl | hr
    · exact .inl hoff
    · exact .inr (hd.used r hr)
  case refine_5 =>
    intro l hl
    rcases (hocc l).mp hl with rfl | hl
    · exact ⟨rec, (hmem rec).mpr (.inl rfl), hoff⟩
    · obtain ⟨r, hr, hrl⟩ := hd.indexed l hl
      exact ⟨r, (hmem r).mpr (.inr hr), hrl⟩

theorem addfiledat_new (hd : Indexed d) (heof : (0xff : UInt8) ∉ f.name.chars)
    (hnew : ¬ Present f d) (hroom : ¬ Full d) :
    (addfiledat f d).1 = true ∧ Indexed (addfiledat f d).2.2 := by
  have hlt := freeSlot_lt hd.datSize hroom
  obtain ⟨ixb, k, hixb, hsize, hrecs, hfront, hhead⟩ :=
    @addixb_spec { f with datoffset := freeSlot d.dat } d hd heof hnew
  rw [addfiledat_room hd.datSize hroom, hixb]
  have hname := recName_ixbRecord { f with datoffset := freeSlot d.dat }
  refine ⟨rfl, indexed_insert hd hsize hrecs ?_ ?_ ?_ ?_⟩
  · rw [take_ixbRecord]
    exact f.name.index_noNul
  · exact fun r hr ↦ hname ▸ hfront r hr
  · exact fun r hr ↦ hname ▸ hhead r hr
  · exact recOffset_ixbRecord hlt

/-- A name that is there, and room for another file: either the name is put in twice, or a
slot is filled that no record names. -/
theorem addfiledat_present (hdat : d.dat.length % fLen = 0) (hroom : ¬ Full d)
    (hfalse : (addfiledat f d).1 = false) : (addfiledat f d).2.2 ≠ d := by
  rw [addfiledat_room hdat hroom] at hfalse ⊢
  cases hixb : addixb d.sort { f with datoffset := freeSlot d.dat } d.ixb with
  | none => exact fun hsame ↦ withSlot_ne hdat (congrArg FileDir.dat hsame)
  | some ixb =>
      rw [hixb] at hfalse
      exact nomatch hfalse

/-! ## Removing a file -/

namespace Indexed

theorem nodup_recName (hd : Indexed d) : ((records fIxbsize d.ixb).map recName).Nodup :=
  List.pairwise_map.mpr (hd.sorted.imp fun hlt ↦ DirSort.Before.ne hd.byName hlt)

theorem eq_of_recName (hd : Indexed d) {r s : List UInt8} (hr : r ∈ records fIxbsize d.ixb)
    (hs : s ∈ records fIxbsize d.ixb) (h : recName r = recName s) : r = s :=
  List.inj_on_of_nodup_map hd.nodup_recName hr hs h

theorem eq_of_recOffset (hd : Indexed d) {r s : List UInt8} (hr : r ∈ records fIxbsize d.ixb)
    (hs : s ∈ records fIxbsize d.ixb) (h : recOffset r = recOffset s) : r = s :=
  List.inj_on_of_nodup_map hd.offsets hr hs h

theorem lt_length (hd : Indexed d) {r : List UInt8} (hr : r ∈ records fIxbsize d.ixb) :
    recOffset r < d.dat.length := by
  obtain ⟨-, c, hc, -⟩ := hd.used r hr
  exact (List.getElem?_eq_some_iff.mp hc).1

/-- A record is taken out, and its slot is freed. -/
theorem remove (hd : Indexed d) {r : List UInt8} (hr : r ∈ records fIxbsize d.ixb)
    {kept : List (List UInt8)} (hsub : kept.Sublist (records fIxbsize d.ixb))
    (hmem : ∀ s ∈ records fIxbsize d.ixb, s ∈ kept ↔ recName s ≠ recName r) :
    Indexed { d with ixb := kept.flatten, dat := writeAt 0 d.dat (recOffset r) [etx] } := by
  have hlen : ∀ s ∈ kept, s.length = fIxbsize := fun s hs ↦
    length_of_mem_records hd.ixbSize s (hsub.subset hs)
  have hrecs : records fIxbsize kept.flatten = kept := records_flatten (by decide) hlen
  have hocc := occupied_free (hd.lt_length hr)
  have hdat : (writeAt 0 d.dat (recOffset r) [etx]).length = d.dat.length := by
    rw [writeAt_singleton 0 etx (hd.lt_length hr), List.length_set]
  generalize writeAt 0 d.dat (recOffset r) [etx] = dat at hocc hdat ⊢
  refine ⟨hd.byName, ?_, hdat ▸ hd.datSize, ?_, ?_, ?_, ?_, ?_⟩
  case refine_1 =>
    change kept.flatten.length % fIxbsize = 0
    rw [length_flatten hlen]
    exact Nat.mul_mod_left _ _
  case refine_2 =>
    rw [hrecs]
    exact fun s hs ↦ hd.names s (hsub.subset hs)
  case refine_3 =>
    rw [hrecs]
    exact hd.sorted.sublist hsub
  case refine_4 =>
    rw [hrecs]
    exact hd.offsets.sublist (hsub.map recOffset)
  case refine_5 =>
    rw [hrecs]
    intro s hs
    have hs' := hsub.subset hs
    refine (hocc _).mpr ⟨fun h ↦ (hmem s hs').mp hs ?_, hd.used s hs'⟩
    rw [hd.eq_of_recOffset hs' hr h]
  case refine_6 =>
    rw [hrecs]
    intro l hl
    obtain ⟨hne, hl⟩ := (hocc l).mp hl
    obtain ⟨s, hs, hsl⟩ := hd.indexed l hl
    refine ⟨s, (hmem s hs).mpr fun h ↦ hne ?_, hsl⟩
    rw [← hsl, hd.eq_of_recName hs hr h]

/-- `getfileixb` finds the record with the name of the file. -/
theorem getfileixb_spec (hd : Indexed d) {f' : File} (h : getfileixb f d = some f') :
    f'.name = f.name ∧ ∃ r ∈ records fIxbsize d.ixb, recName r = f.name.upper ∧
      f'.datoffset = recOffset r := by
  rw [getfileixb, if_neg (not_not.mpr hd.ixbSize)] at h
  obtain ⟨r, hfind, rfl⟩ := Option.map_eq_some_iff.mp h
  have hr := List.mem_of_find?_eq_some hfind
  have hname := List.find?_some hfind
  rw [printedName_eq (length_of_mem_records hd.ixbSize r hr) (hd.names r hr),
    ← cstr_of_notMem (hd.names r hr)] at hname
  exact ⟨rfl, r, hr, (stricmp_recName (hd.names r hr)).mp hname, rfl⟩

theorem removefiledat (hd : Indexed d) {f' : File} (h : getfileixb f d = some f') :
    ∃ d', removefiledat f' d = some (true, d') ∧ Indexed d' := by
  obtain ⟨hname, r, hr, hrec, hoff⟩ := hd.getfileixb_spec h
  have hnil : d.ixb ≠ [] := by
    intro hnil
    rw [hnil, records_nil] at hr
    exact nomatch hr
  rw [Sbbs3.removefiledat, if_neg hnil, if_neg (not_not.mpr hd.ixbSize), hoff]
  refine ⟨_, rfl, hd.remove hr List.filter_sublist fun s hs ↦ ?_⟩
  rw [List.mem_filter, and_iff_right hs, Bool.not_eq_true', ← Bool.not_eq_true,
    stricmp_recName (hd.names s hs), hname, hrec]

end Indexed

/-! ## Whole runs -/

/-- A call on a directory: a file is removed with the offset that `getfileixb` found. -/
inductive DirCall
  | add (f : File)
  | remove (f : File)

def DirCall.step (d : FileDir) : DirCall → Option (Bool × FileDir)
  | .add f => some ((addfiledat f d).1, (addfiledat f d).2.2)
  | .remove f =>
      match getfileixb f d with
      | none => some (false, d)
      | some f' => removefiledat f' d

/-- A file is added where there is no room, or under a name that is new. -/
def DirCall.Clear (d : FileDir) : DirCall → Prop
  | .add f => Full d ∨ ((0xff : UInt8) ∉ f.name.chars ∧ ¬ Present f d)
  | .remove _ => True

/-- The directories after the runs of clear calls. -/
inductive Reached (d : FileDir) : FileDir → Prop
  | start : Reached d d
  | call {d' d'' : FileDir} {call : DirCall} {ok : Bool} (h : Reached d d')
      (hclear : call.Clear d') (hstep : call.step d' = some (ok, d'')) : Reached d d''

/-- What `addfiledat` promises: a name that is there is refused, and a refusal changes
nothing. -/
def Refuses (f : File) (d : FileDir) : Prop :=
  (Present f d → (addfiledat f d).1 = false) ∧
    ((addfiledat f d).1 = false → (addfiledat f d).2.2 = d)

theorem refuses_of_clear (hd : Indexed d) (hclear : (DirCall.add f).Clear d) : Refuses f d := by
  by_cases hfull : Full d
  · rw [Refuses, addfiledat_full hfull]
    exact ⟨fun _ ↦ rfl, fun _ ↦ rfl⟩
  · obtain ⟨heof, hnew⟩ := hclear.resolve_left hfull
    have htrue := (addfiledat_new hd heof hnew hfull).1
    exact ⟨fun h ↦ absurd h hnew, fun h ↦ nomatch htrue.symm.trans h⟩

theorem clear_of_refuses (hd : Indexed d) (heof : (0xff : UInt8) ∉ f.name.chars)
    (h : Refuses f d) : (DirCall.add f).Clear d := by
  by_contra hclear
  rw [DirCall.Clear, not_or, and_iff_right heof, not_not] at hclear
  have hfalse := h.1 hclear.2
  exact addfiledat_present hd.datSize hclear.1 hfalse (h.2 hfalse)

theorem DirCall.step_indexed (hd : Indexed d) {call : DirCall} (hclear : call.Clear d) :
    ∃ ok d', call.step d = some (ok, d') ∧ Indexed d' := by
  cases call with
  | add f =>
      refine ⟨_, _, rfl, ?_⟩
      by_cases hfull : Full d
      · rw [addfiledat_full hfull]
        exact hd
      · obtain ⟨heof, hnew⟩ := hclear.resolve_left hfull
        exact (addfiledat_new hd heof hnew hfull).2
  | remove f =>
      cases hget : getfileixb f d with
      | none => exact ⟨false, d, by rw [step, hget], hd⟩
      | some f' =>
          obtain ⟨d', hremove, hd'⟩ := hd.removefiledat hget
          exact ⟨true, d', by rw [step, hget]; exact hremove, hd'⟩

theorem Reached.indexed {d' : FileDir} (hd : Indexed d) (h : Reached d d') : Indexed d' := by
  induction h with
  | start => exact hd
  | call _ hclear hstep ih =>
      obtain ⟨ok, d', heq, hd'⟩ := DirCall.step_indexed ih hclear
      rw [hstep] at heq
      cases heq
      exact hd'

/-- In every run of clear calls the index and the slots belong to each other, no call reads
outside its buffer, and an add keeps its promise where it is clear, and only there. -/
theorem fileDir_indexed {d' : FileDir} (hd : Indexed d) (h : Reached d d') :
    Indexed d' ∧ (∀ call : DirCall, call.Clear d' → (call.step d').isSome) ∧
      (∀ f, (DirCall.add f).Clear d' → Refuses f d') ∧
      ∀ f : File, (0xff : UInt8) ∉ f.name.chars →
        (Refuses f d' ↔ (DirCall.add f).Clear d') := by
  have hd' := h.indexed hd
  refine ⟨hd', fun call hclear ↦ ?_, fun f hclear ↦ refuses_of_clear hd' hclear, fun f heof ↦
    ⟨clear_of_refuses hd' heof, refuses_of_clear hd'⟩⟩
  obtain ⟨ok, d'', hstep, -⟩ := DirCall.step_indexed hd' hclear
  exact Option.isSome_iff_exists.mpr ⟨(ok, d''), hstep⟩

/-- `A.TXT` -/
def nameA : FileName := ⟨[65, 32, 32, 32, 32, 32, 32, 32, 46, 84, 88, 84], rfl, by decide⟩

/-- `B.TXT` -/
def nameB : FileName := ⟨[66, 32, 32, 32, 32, 32, 32, 32, 46, 84, 88, 84], rfl, by decide⟩

theorem fileDir_indexed_one :
    Indexed (addfiledat { name := nameA } { sort := .nameA }).2.2 := by
  refine (fileDir_indexed (indexed_empty (.inl rfl))
    (@Reached.call _ _ _ (.add { name := nameA }) _ .start (.inr ⟨by decide +kernel, ?_⟩) rfl)).1
  rintro ⟨r, hr, -⟩
  simp at hr

/-- A directory with `A.TXT` and `B.TXT`. -/
def twoFiles : FileDir :=
  (addfiledat { name := nameB } (addfiledat { name := nameA } { sort := .nameA }).2.2).2.2

/-- `B.TXT` is put into the index twice, and for `A.TXT` a slot is filled in vain. -/
theorem addfiledat_twice :
    (addfiledat { name := nameB } twoFiles).1 = true ∧
      ¬ Indexed (addfiledat { name := nameB } twoFiles).2.2 ∧
      (addfiledat { name := nameA } twoFiles).1 = false ∧
      (addfiledat { name := nameA } twoFiles).2.2.dat ≠ twoFiles.dat := by
  refine ⟨by decide +kernel, fun hd ↦ ?_, by decide +kernel, by decide +kernel⟩
  exact absurd hd.nodup_recName (by decide +kernel)

end Synchronet.Sbbs3
