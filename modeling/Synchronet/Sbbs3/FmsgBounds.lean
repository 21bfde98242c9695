import Synchronet.Sbbs3.FmsgToSmsg

/-!
# What the import of a FidoNet message reads and writes (sbbsecho.c)

The loop of `fmsgtosmsg` ends inside its memory just when every `INTL` line it comes to has a
blank behind the name, every time zone has two characters, and every origin line has a
parenthesis in the text before its end.  `getzpt` does just when every kludge line it comes to
is complete in what the buffer holds.
-/

namespace Synchronet.Sbbs3.Echo.Fmsg

open Smblib (cstr isspace)
open Xpdev (Str isdigit)

/-! ## Pointers into a text -/

section Pointer

variable {fbuf : Str} {l m n : ℕ} {pred : UInt8 → Bool}

theorem pointer_eq (hl : l ≤ fbuf.length) : pointer fbuf l = fbuf.drop l ++ [0] :=
  List.drop_append_of_le_length hl

theorem pointer_drop (l n : ℕ) : (pointer fbuf l).drop n = pointer fbuf (l + n) := by
  rw [pointer, pointer, List.drop_drop]

theorem zero_mem_pointer (hl : l ≤ fbuf.length) : 0 ∈ pointer fbuf l := by
  simp [pointer_eq hl]

/-- A string that ends is compared inside its memory. -/
theorem strncmp_append {s : Str} (hs : 0 ∉ s) (t : Str) :
    strncmp (t ++ [0]) s = some (decide (s <+: t)) := by
  induction s generalizing t with
  | nil => simp [strncmp]
  | cons d s ih =>
      rw [List.mem_cons, not_or] at hs
      cases t with
      | nil => simp [strncmp, hs.1]
      | cons c t =>
          rw [List.cons_append, strncmp, ih hs.2]
          by_cases hc : c = d
          · simp [hc, List.cons_prefix_cons]
          · simp [hc, List.cons_prefix_cons, Ne.symm hc]

theorem strncmp_pointer {s : Str} (hs : 0 ∉ s) (hl : l ≤ fbuf.length) :
    strncmp (pointer fbuf l) s = some (decide (s <+: fbuf.drop l)) := by
  rw [pointer_eq hl, strncmp_append hs]

theorem dropWhile_append_zero (hpred : pred 0 = false) (t : Str) :
    (t ++ [0]).dropWhile pred = t.dropWhile pred ++ [0] := by
  induction t with
  | nil => simp [hpred]
  | cons c t ih =>
      rw [List.cons_append, List.dropWhile_cons, List.dropWhile_cons, ih]
      split <;> rfl

theorem exists_atoi (hl : l ≤ fbuf.length) : ∃ v, atoi (pointer fbuf l) = some v := by
  have hbehind : behindNumber (pointer fbuf l) ≠ [] := by
    rw [pointer_eq hl, behindNumber, dropWhile_append_zero (by decide)]
    cases hspace : (fbuf.drop l).dropWhile isspace with
    | nil => simp [show isdigit 0 = false by decide]
    | cons c t =>
        simp only [List.cons_append]
        split
        · simp [dropWhile_append_zero (show isdigit 0 = false by decide)]
        · rw [← List.cons_append, dropWhile_append_zero (by decide)]
          simp
  exact ⟨_, if_neg hbehind⟩

theorem atofaddr_isSome_of_mem {p : List UInt8} (h : 0 ∈ p) : (atofaddr p).isSome := by
  have hcopied : 0 ∈ p.take 50 ∨ 50 ≤ p.length := by
    by_cases hlen : 50 ≤ p.length
    · exact Or.inr hlen
    · exact Or.inl (by rwa [List.take_of_length_le (by omega)])
  rw [atofaddr, if_pos hcopied]
  rfl

theorem exists_atofaddr (hl : l ≤ fbuf.length) : ∃ a, atofaddr (pointer fbuf l) = some a :=
  Option.isSome_iff_exists.mp (atofaddr_isSome_of_mem (zero_mem_pointer hl))

theorem atofaddr_eq_none (hl : fbuf.length < l) : atofaddr (pointer fbuf l) = none := by
  have hpointer : pointer fbuf l = [] := by
    apply List.drop_eq_nil_of_le
    rw [List.length_append, List.length_singleton]
    exact hl
  rw [hpointer]
  rfl

theorem le_skip (l : ℕ) : l ≤ skip fbuf pred l := Nat.le_add_right _ _

theorem skip_le (pred : UInt8 → Bool) (hl : l ≤ fbuf.length) : skip fbuf pred l ≤ fbuf.length := by
  have hlen := ((fbuf.drop l).takeWhile_sublist pred).length_le
  rw [List.length_drop] at hlen
  rw [skip]
  omega

theorem drop_skip (fbuf : Str) (pred : UInt8 → Bool) (l : ℕ) : fbuf.drop (skip fbuf pred l) = (fbuf.drop l).dropWhile pred := by
  rw [skip, ← List.drop_drop]
  induction fbuf.drop l with
  | nil => rfl
  | cons c t ih =>
      cases hc : pred c
      · simp [hc]
      · simpa [hc] using ih

/-- The skip ends before the end of the text when there is something to stop at. -/
theorem skip_lt_iff :
    skip fbuf pred l < fbuf.length ↔ ∃ c ∈ fbuf.drop l, pred c = false := by
  have hdrop := drop_skip fbuf pred l
  rw [← List.drop_eq_nil_iff.not.trans Nat.not_le, hdrop, List.dropWhile_eq_nil_iff]
  simp

end Pointer

/-! ## Header fields -/

section Fields

variable {fbuf : Str} {l m : ℕ}

theorem exists_trimBack (hm : m ≤ fbuf.length) : ∃ n, trimBack fbuf m = some n ∧ n ≤ m := by
  induction m with
  | zero => exact ⟨0, rfl, Nat.le_refl 0⟩
  | succ m ih =>
      obtain ⟨n, hn, hle⟩ := ih (Nat.le_of_succ_le hm)
      have hlt : m < (fbuf ++ [0]).length := by
        rw [List.length_append]
        omega
      rw [trimBack, List.getElem?_eq_getElem hlt]
      by_cases hgarbage : isGarbage (fbuf ++ [0])[m] = true
      · exact ⟨n, by simpa [hgarbage] using hn, Nat.le_succ_of_le hle⟩
      · exact ⟨m + 1, by simp [hgarbage], Nat.le_refl _⟩

theorem exists_hfield (hlm : l < m) (hm : m ≤ fbuf.length) : ∃ data, hfield fbuf l m = some data := by
  have hroom : l + (m - l) % 65536 ≤ fbuf.length + 1 := by
    have := Nat.mod_le (m - l) 65536
    omega
  exact ⟨_, if_pos hroom⟩

theorem exists_valueEnd (trim : Bool) (hl : l ≤ fbuf.length) :
    ∃ m, valueEnd fbuf trim l = some m ∧ m ≤ fbuf.length := by
  have hskip : skip fbuf (fun c ↦ !isCr c) l ≤ fbuf.length := skip_le _ hl
  cases trim
  · exact ⟨_, rfl, hskip⟩
  · obtain ⟨m, hm, hle⟩ := exists_trimBack hskip
    exact ⟨m, hm, Nat.le_trans hle hskip⟩

/-- A header field is added inside the text, and nothing else changes. -/
theorem exists_addField (s : State) (type : HfieldType) (trim : Bool) (hl : l ≤ fbuf.length) :
    ∃ hfields, addField fbuf s type trim l = some { s with hfields } := by
  have hvalue : ∀ m ≤ fbuf.length, ∃ hfields, (if l < m then
      (hfield fbuf l m).bind fun data ↦ some { s with hfields := s.hfields ++ [(type, data)] }
      else some s) = some { s with hfields } := by
    intro m hm
    by_cases hlm : l < m
    · obtain ⟨data, hdata⟩ := exists_hfield hlm hm
      exact ⟨s.hfields ++ [(type, data)], by rw [if_pos hlm, hdata, Option.bind_some]⟩
    · exact ⟨s.hfields, if_neg hlm⟩
  obtain ⟨m, hm, hle⟩ := exists_valueEnd trim hl
  obtain ⟨hfields, hfield⟩ := hvalue m hle
  refine ⟨hfields, ?_⟩
  rw [addField, hm]
  exact hfield

end Fields

/-! ## Kludge lines -/

/-- What stands behind a minus sign. -/
def signless (t : Str) : Str := if t.head? = some 45 then t.tail else t

/-- What a kludge line needs behind its name, up to the end of the text. -/
def Kludge.Fits : Kludge → Str → Prop
  | .intl, t => 32 ∈ t
  | .zone, t => 2 ≤ (signless (t.dropWhile isGarbage)).length
  | _, _ => True

/-- The names of the kludge lines tell them apart. -/
theorem kludge_unique {k k' : Str × Kludge} {t : Str} (hk : k ∈ kludges) (hk' : k' ∈ kludges)
    (h : k.1 <+: t) (h' : k'.1 <+: t) : k = k' := by
  have htable : ∀ k ∈ kludges, ∀ k' ∈ kludges, k.1 <+: k'.1 ∨ k'.1 <+: k.1 → k = k' := by
    decide +kernel
  exact htable k hk k' hk' (List.prefix_or_prefix_of_prefix h h')

theorem zero_notMem_kludges : ∀ k ∈ kludges, (0 : UInt8) ∉ k.1 := by decide +kernel

section Kludges

variable {fbuf : Str} {l : ℕ}

theorem findKludge_pointer (hl : l ≤ fbuf.length) {ks : List (Str × Kludge)}
    (hks : ∀ k ∈ ks, (0 : UInt8) ∉ k.1) :
    findKludge (pointer fbuf l) ks = some (ks.find? fun k ↦ decide (k.1 <+: fbuf.drop l)) := by
  induction ks with
  | nil => rfl
  | cons k ks ih =>
      obtain ⟨hk, hks⟩ := List.forall_mem_cons.mp hks
      rw [findKludge, strncmp_pointer hk hl, ih hks, List.find?_cons]
      by_cases h : k.1 <+: fbuf.drop l <;> simp [h]

theorem twoDigits_isSome_iff (p : List UInt8) : (twoDigits p).isSome ↔ 0 ∈ p := by
  rw [twoDigits, strlen]
  by_cases h : 0 ∈ p <;> simp [h]

theorem mem_drop_two (t : Str) (h0 : 0 ∉ t) : 0 ∈ (t ++ [0]).drop 2 ↔ 2 ≤ t.length := by
  cases t with
  | nil => simp
  | cons a t =>
      cases t with
      | nil => simp
      | cons b t => simp

/-- A time zone is read inside the text when it has two characters. -/
theorem fmsgzone_isSome_iff {t : Str} (h0 : 0 ∉ t) :
    (fmsgzone (t ++ [0])).isSome ↔ 2 ≤ (signless t).length := by
  have hdigits : ∀ u : Str, 0 ∉ u → (((twoDigits (u ++ [0])).bind fun _ ↦
      twoDigits ((u ++ [0]).drop 2)).isSome ↔ 2 ≤ u.length) := by
    intro u hu
    obtain ⟨hr, hhr⟩ := Option.isSome_iff_exists.mp
      ((twoDigits_isSome_iff (u ++ [0])).mpr (by simp))
    rw [hhr, Option.bind_some, twoDigits_isSome_iff, mem_drop_two u hu]
  cases t with
  | nil => decide
  | cons c t =>
      rw [List.mem_cons, not_or] at h0
      by_cases hc : c = 45
      · subst hc
        have := hdigits t h0.2
        simpa [fmsgzone, signless, Option.isSome_bind] using this
      · have := hdigits (c :: t) (by simp [h0.1, h0.2])
        simpa [fmsgzone, signless, hc, Option.isSome_bind] using this

/-- What a kludge line leaves as it was. -/
structure Frame (s t : State) : Prop where
  l : s.l ≤ t.l
  col : t.col = s.col
  body : t.body = s.body
  tail : t.tail = s.tail

/-- A step that has a result under a condition, and what it leaves as it was. -/
structure Within (result : Option State) (s : State) (fits : Prop) : Prop where
  isSome_iff : result.isSome ↔ fits
  frame : ∀ t, result = some t → Frame s t

theorem Within.of_some {s t : State} {fits : Prop} (h : Frame s t) (hfits : fits) :
    Within (some t) s fits where
  isSome_iff := iff_of_true rfl hfits
  frame t' ht' := by
    obtain rfl := Option.some.inj ht'
    exact h

theorem within_addField {s : State} (type : HfieldType) (trim : Bool) (hl : l ≤ fbuf.length)
    (hle : s.l ≤ l) {fits : Prop} (hfits : fits) :
    Within (addField fbuf { s with l } type trim l) s fits := by
  obtain ⟨hfields, hfield⟩ := exists_addField { s with l } type trim hl
  rw [hfield]
  exact .of_some ⟨hle, rfl, rfl, rfl⟩ hfits

/-- The text behind a name that stands in it. -/
theorem length_le_of_prefix {name : Str} (hl : l < fbuf.length)
    (h : name <+: fbuf.drop (l + 1)) : l + 1 + name.length ≤ fbuf.length := by
  have hlen := h.length_le
  rw [List.length_drop] at hlen
  omega

theorem within_intl {s : State} (hl : s.l + 6 ≤ fbuf.length) :
    Within ((atofaddr (pointer fbuf (s.l + 6))).bind fun dest ↦
      (atofaddr (pointer fbuf (skip fbuf (fun c ↦ c ≠ 32) (s.l + 6) + 1))).bind fun orig ↦
        some { s with
          l := skip fbuf (fun c ↦ c ≠ 32) (s.l + 6)
          destaddr := { dest with point := s.destaddr.point }
          origaddr := { orig with point := s.origaddr.point } }) s
      (32 ∈ fbuf.drop (s.l + 6)) := by
  obtain ⟨dest, hdest⟩ := exists_atofaddr hl
  have hblank : skip fbuf (fun c ↦ c ≠ 32) (s.l + 6) < fbuf.length ↔ 32 ∈ fbuf.drop (s.l + 6) := by
    rw [skip_lt_iff]
    simp
  have hle : s.l + 6 ≤ skip fbuf (fun c ↦ c ≠ 32) (s.l + 6) := le_skip _
  rw [hdest, Option.bind_some]
  by_cases hlt : skip fbuf (fun c ↦ c ≠ 32) (s.l + 6) < fbuf.length
  · obtain ⟨orig, horig⟩ := exists_atofaddr (Nat.succ_le_of_lt hlt)
    rw [horig, Option.bind_some]
    exact .of_some ⟨by dsimp only; omega, rfl, rfl, rfl⟩ (hblank.mp hlt)
  · rw [atofaddr_eq_none (by omega), Option.bind_none]
    exact ⟨iff_of_false (by simp) fun h ↦ hlt (hblank.mpr h), fun t ht ↦ by cases ht⟩

theorem skipName_le {s : State} {n : ℕ} (hl : s.l + 1 + n ≤ fbuf.length) :
    skipName fbuf s.l n ≤ fbuf.length ∧ s.l ≤ skipName fbuf s.l n :=
  ⟨skip_le _ hl, Nat.le_trans (by omega) (le_skip (s.l + 1 + n))⟩

theorem within_zone {s : State} {n : ℕ} (h0 : 0 ∉ fbuf) (hl : s.l + 1 + n ≤ fbuf.length) :
    Within ((fmsgzone (pointer fbuf (skipName fbuf s.l n))).bind fun zone ↦
      some { s with l := skipName fbuf s.l n, zone }) s
      (Kludge.zone.Fits (fbuf.drop (s.l + 1 + n))) := by
  obtain ⟨hle, hge⟩ := skipName_le hl
  have hzone := fmsgzone_isSome_iff (t := fbuf.drop (skipName fbuf s.l n))
    fun h ↦ h0 (List.mem_of_mem_drop h)
  rw [← pointer_eq hle, skipName, drop_skip] at hzone
  rw [skipName]
  cases hvalue : fmsgzone (pointer fbuf (skip fbuf isGarbage (s.l + 1 + n))) with
  | none =>
      rw [hvalue] at hzone
      exact ⟨hzone, fun t ht ↦ by cases ht⟩
  | some zone =>
      rw [hvalue] at hzone
      exact .of_some ⟨hge, rfl, rfl, rfl⟩ (hzone.mp rfl)

theorem within_cols {s : State} {n : ℕ} (hl : s.l + 1 + n ≤ fbuf.length) :
    Within ((atoi (pointer fbuf (skipName fbuf s.l n))).bind fun v ↦
      if UInt8.ofInt v > 0 then
        some { s with
          l := skipName fbuf s.l n
          hfields := s.hfields ++ [(.smbColumns, [UInt8.ofInt v])] }
      else some { s with l := skipName fbuf s.l n }) s True := by
  obtain ⟨hle, hge⟩ := skipName_le hl
  obtain ⟨v, hv⟩ := exists_atoi hle
  rw [hv, Option.bind_some]
  split
  · exact .of_some ⟨hge, rfl, rfl, rfl⟩ trivial
  · exact .of_some ⟨hge, rfl, rfl, rfl⟩ trivial

/-- A kludge line stays in the text just when what stands behind its name fits. -/
theorem within_kludgeLine {s : State} (h0 : 0 ∉ fbuf) (hl : s.l < fbuf.length) :
    Within (kludgeLine fbuf s) s (∀ k ∈ kludges, k.1 <+: fbuf.drop (s.l + 1) →
      k.2.Fits (fbuf.drop (s.l + 1 + k.1.length))) := by
  have hpoints : ∀ k ∈ kludges, k.2 = .topt ∨ k.2 = .fmpt ∨ k.2 = .intl → k.1.length = 5 := by
    decide +kernel
  rw [kludgeLine]
  simp only [findKludge_pointer (Nat.succ_le_of_lt hl) zero_notMem_kludges, pointer_drop,
    Option.bind_eq_bind, Option.bind_some, Option.pure_def]
  cases hfind : kludges.find? fun k ↦ decide (k.1 <+: fbuf.drop (s.l + 1)) with
  | none =>
      refine within_addField .fidoCtrl true (skip_le _ (Nat.le_of_lt hl)) (le_skip s.l)
        fun k hk hname ↦ ?_
      have := List.find?_eq_none.mp hfind k hk
      exact absurd hname (by simpa using this)
  | some k =>
      have hk := List.mem_of_find?_eq_some hfind
      have hname : k.1 <+: fbuf.drop (s.l + 1) := by simpa using List.find?_some hfind
      have hlen := length_le_of_prefix hl hname
      have hfits : (∀ k ∈ kludges, k.1 <+: fbuf.drop (s.l + 1) →
          k.2.Fits (fbuf.drop (s.l + 1 + k.1.length))) ↔
          k.2.Fits (fbuf.drop (s.l + 1 + k.1.length)) := by
        refine ⟨fun h ↦ h k hk hname, fun h k' hk' hname' ↦ ?_⟩
        rwa [kludge_unique hk' hk hname' hname]
      rw [hfits]
      obtain ⟨name, kludge⟩ := k
      dsimp only at hlen hname ⊢
      cases kludge with
      | topt =>
          have h5 := hpoints _ hk (Or.inl rfl)
          obtain ⟨v, hv⟩ := exists_atoi hlen
          rw [h5] at hv
          rw [hv]
          exact .of_some ⟨Nat.le_refl _, rfl, rfl, rfl⟩ trivial
      | fmpt =>
          have h5 := hpoints _ hk (Or.inr (Or.inl rfl))
          obtain ⟨v, hv⟩ := exists_atoi hlen
          rw [h5] at hv
          rw [hv]
          exact .of_some ⟨Nat.le_refl _, rfl, rfl, rfl⟩ trivial
      | intl =>
          have h5 := hpoints _ hk (Or.inr (Or.inr rfl))
          rw [h5] at hlen ⊢
          exact within_intl hlen
      | field type trim =>
          obtain ⟨hle, hge⟩ := skipName_le hlen
          exact within_addField type trim hle hge trivial
      | zone => exact within_zone h0 hlen
      | cols => exact within_cols hlen

end Kludges

/-! ## Characters that are copied -/

section Characters

variable {fbuf : Str} {l : ℕ}

theorem findLineEnd_append {t : Str} (h0 : 0 ∉ t) :
    findLineEnd (t ++ [0]) = some (t.takeWhile fun c ↦ !isCr c).length := by
  induction t with
  | nil => rfl
  | cons c t ih =>
      rw [List.mem_cons, not_or] at h0
      rw [List.cons_append, findLineEnd, ih h0.2]
      by_cases hc : c = 13
      · simp [hc, isCr]
      · simp [hc, isCr, Ne.symm h0.1]

theorem rewind_isSome_iff {q : ℕ} (hq : q ≤ fbuf.length) :
    (rewind fbuf q).isSome ↔ 40 ∈ (fbuf ++ [0]).take (q + 1) := by
  induction q with
  | zero =>
      rw [rewind]
      cases fbuf with
      | nil => decide
      | cons c fbuf => by_cases hc : c = 40 <;> simp [hc, Ne.symm]
  | succ q ih =>
      have hlt : q + 1 < (fbuf ++ [0]).length := by
        rw [List.length_append, List.length_singleton]
        omega
      rw [rewind, List.getElem?_eq_getElem hlt, List.take_add_one, List.mem_append,
        List.getElem?_eq_getElem hlt]
      by_cases hc : (fbuf ++ [0])[q + 1] = 40
      · simp [hc]
      · simp [hc, Ne.symm hc, ih (Nat.le_of_succ_le hq)]

theorem getElem?_of_rewind {q p : ℕ} (h : rewind fbuf q = some p) :
    (fbuf ++ [0])[p]? = some 40 := by
  induction q with
  | zero =>
      rw [rewind] at h
      obtain ⟨c, hc, h⟩ := Option.bind_eq_some_iff.mp h
      split at h
      · obtain rfl := Option.some.inj h
        rw [hc, ‹c = 40›]
      · cases h
  | succ q ih =>
      rw [rewind] at h
      obtain ⟨c, hc, h⟩ := Option.bind_eq_some_iff.mp h
      split at h
      · obtain rfl := Option.some.inj h
        rw [hc, ‹c = 40›]
      · exact ih h

/-- The line ends with a carriage return or with the text. -/
theorem getElem?_lineEnd (hl : l ≤ fbuf.length) :
    (fbuf ++ [0])[skip fbuf (fun c ↦ !isCr c) l]? ≠ some 40 := by
  have hdrop := drop_skip fbuf (fun c ↦ !isCr c) l
  rw [List.getElem?_append]
  split
  · intro h
    have hhead : (fbuf.drop (skip fbuf (fun c ↦ !isCr c) l)).head? = some 40 := by
      rw [List.head?_drop, h]
    rw [hdrop] at hhead
    have hnot := List.head?_dropWhile_not (fun c ↦ !isCr c) (fbuf.drop l)
    rw [hhead] at hnot
    exact absurd hnot (by decide)
  · have hle := skip_le (fun c ↦ !isCr c) hl
    rw [Nat.le_antisymm hle (Nat.le_of_not_lt ‹_›), Nat.sub_self]
    decide

/-- The origin line needs a parenthesis in the text before its end. -/
theorem originLine_isSome_iff (h0 : 0 ∉ fbuf) (hl : l + 11 ≤ fbuf.length) :
    (originLine fbuf l).isSome ↔
      40 ∈ fbuf.take (skip fbuf (fun c ↦ !isCr c) (l + 11)) := by
  have hend : findLineEnd (pointer fbuf (l + 11)) =
      some ((fbuf.drop (l + 11)).takeWhile fun c ↦ !isCr c).length := by
    rw [pointer_eq hl, findLineEnd_append fun h ↦ h0 (List.mem_of_mem_drop h)]
  have hle : skip fbuf (fun c ↦ !isCr c) (l + 11) ≤ fbuf.length := skip_le _ hl
  have hmem : 40 ∈ (fbuf ++ [0]).take (skip fbuf (fun c ↦ !isCr c) (l + 11) + 1) ↔
      40 ∈ fbuf.take (skip fbuf (fun c ↦ !isCr c) (l + 11)) := by
    rw [List.take_add_one, List.mem_append, List.take_append_of_le_length hle,
      or_iff_left]
    intro h
    rw [Option.mem_toList] at h
    exact getElem?_lineEnd hl h
  rw [originLine, hend, Option.bind_eq_bind, Option.bind_some, ← hmem, ← rewind_isSome_iff hle]
  change ((rewind fbuf (skip fbuf (fun c ↦ !isCr c) (l + 11))).bind _).isSome ↔ _
  cases hp : rewind fbuf (skip fbuf (fun c ↦ !isCr c) (l + 11)) with
  | none => simp
  | some p =>
      have hparen := getElem?_of_rewind hp
      have hlt : p + 1 ≤ fbuf.length := by
        by_contra hge
        rw [List.getElem?_append_right (by omega)] at hparen
        have hzero : p - fbuf.length = 0 ∨ 0 < p - fbuf.length := Nat.eq_zero_or_pos _
        rcases hzero with h | h
        · rw [h] at hparen
          exact absurd hparen (by decide)
        · rw [List.getElem?_eq_none (Nat.succ_le_of_lt h)] at hparen
          cases hparen
      obtain ⟨a, ha⟩ := exists_atofaddr hlt
      simp [ha]

/-- The body has room for every character so far, counting those of the line twice. -/
structure Room (n : ℕ) (s : State) : Prop where
  body : s.body.length + s.col.toNat ≤ n
  tail : s.tail.length ≤ maxTaillen

theorem exists_put (fbuf : Str) (s : State) (c : UInt8) (hbody : s.body.length < (fbuf.length + 1) * 2)
    (htail : s.tail.length ≤ maxTaillen) :
    ∃ body tail, put fbuf s c = some { s with body, tail } ∧
      body.length ≤ s.body.length + 1 ∧ tail.length ≤ maxTaillen := by
  rw [put]
  by_cases hdone : s.done = true
  · rw [if_pos hdone]
    by_cases hroom : s.tail.length < maxTaillen
    · rw [if_pos hroom, store, if_pos (Nat.lt_succ_of_lt hroom)]
      refine ⟨s.body, s.tail ++ [c], rfl, Nat.le_succ _, ?_⟩
      rw [List.length_append]
      exact hroom
    · exact ⟨s.body, s.tail, if_neg hroom, Nat.le_succ _, htail⟩
  · rw [if_neg hdone, store, if_pos hbody]
    exact ⟨s.body ++ [c], s.tail, rfl, by rw [List.length_append, List.length_singleton], htail⟩

/-- A line break for a line of more than forty characters. -/
theorem exists_wordWrap (fbuf : Str) (s : State) (ch : UInt8)
    (hbody : s.body.length + 2 ≤ (fbuf.length + 1) * 2) :
    ∃ t, wordWrap fbuf s ch = some t ∧ t.l = s.l ∧ t.tail = s.tail ∧
      (t.body.length + t.col.toNat ≤ s.body.length + s.col.toNat ∨
        40 < s.col.toNat ∧ t.body.length + t.col.toNat ≤ s.body.length + 2) := by
  rw [wordWrap]
  by_cases hlong : ch = 32 ∧ s.col > 40 ∧ ¬s.esc
  · rw [if_pos hlong]
    by_cases hwrap : skip fbuf (fun c ↦ !isGarbage c) (s.l + 1) < fbuf.length ∧
        skip fbuf (fun c ↦ !isGarbage c) (s.l + 1) - s.l > (80 - s.col).toNat
    · simp only [if_pos hwrap, store]
      rw [if_pos (by omega), Option.bind_eq_bind, Option.bind_some,
        if_pos (by rw [List.length_append, List.length_singleton]; omega)]
      refine ⟨_, rfl, rfl, rfl, Or.inr ⟨UInt32.lt_iff_toNat_lt.mp hlong.2.1, ?_⟩⟩
      simp
    · exact ⟨s, if_neg hwrap, rfl, rfl, Or.inl (Nat.le_refl _)⟩
  · exact ⟨s, if_neg hlong, rfl, rfl, Or.inl (Nat.le_refl _)⟩

/-- The origin line needs its parenthesis. -/
def OriginFits (fbuf : Str) (s : State) : Prop :=
  s.col = 0 → originName <+: fbuf.drop s.l →
    40 ∈ fbuf.take (skip fbuf (fun c ↦ !isCr c) (s.l + 11))

/-- A character keeps the room, and has a result when an origin line that starts with it fits. -/
structure Keeps (fbuf : Str) (result : Option State) (s : State) (fits : Prop) : Prop where
  isSome_iff : result.isSome ↔ fits
  room : ∀ t, result = some t → t.l = s.l ∧ Room ((s.l + 1) * 2) t

theorem keeps_textChar {s : State} (ch : UInt8) (h0 : 0 ∉ fbuf) (hl : s.l < fbuf.length)
    (hroom : Room (s.l * 2) s)
    (hch : ch = 13 → ¬originName <+: fbuf.drop s.l) :
    Keeps fbuf (textChar fbuf s ch) s (OriginFits fbuf s) := by
  have hcol : (s.col + 1).toNat ≤ s.col.toNat + 1 := by
    rw [UInt32.toNat_add]
    exact Nat.mod_le _ _
  have hfirst : s.col + 1 = 1 ↔ s.col = 0 := by
    rw [← UInt32.toNat_inj, ← UInt32.toNat_inj, UInt32.toNat_add]
    have := s.col.toNat_lt
    change (s.col.toNat + 1) % 2 ^ 32 = 1 ↔ s.col.toNat = 0
    omega
  have hbody := hroom.body
  obtain ⟨body, tail, hput, hbody', htail⟩ :=
    exists_put fbuf s ch (by omega) hroom.tail
  rw [textChar, hput, Option.bind_eq_bind, Option.bind_some]
  by_cases hcr : ch = 13
  · rw [if_pos hcr]
    obtain ⟨body₂, tail₂, hput₂, hbody₂, htail₂⟩ :=
      exists_put fbuf { s with body, tail, cr := true, col := 0 } 10
        (by dsimp only; omega) htail
    rw [hput₂]
    refine ⟨iff_of_true rfl fun _ hname ↦ absurd hname (hch hcr), fun t ht ↦ ?_⟩
    obtain rfl := Option.some.inj ht
    dsimp only at hbody₂
    exact ⟨rfl, by change body₂.length + 0 ≤ _; omega, htail₂⟩
  · let s' : State := { s with body, tail, cr := false, col := s.col + 1 }
    have horigin : isOriginLine fbuf s' =
        some (decide (s.col = 0 ∧ originName <+: fbuf.drop s.l)) := by
      change (if s.col + 1 = 1 then strncmp (pointer fbuf s.l) originName else some false) = _
      rw [strncmp_pointer (by decide) (Nat.le_of_lt hl)]
      by_cases hzero : s.col = 0 <;> simp [hfirst, hzero]
    rw [if_neg hcr]
    change Keeps fbuf ((isOriginLine fbuf s').bind _) s _
    rw [horigin, Option.bind_some]
    by_cases hname : s.col = 0 ∧ originName <+: fbuf.drop s.l
    · have hline := originLine_isSome_iff h0 (by
        have hlen := hname.2.length_le
        rw [List.length_drop] at hlen
        change 11 ≤ _ at hlen
        omega : s.l + 11 ≤ fbuf.length)
      have hfits : OriginFits fbuf s ↔ (originLine fbuf s.l).isSome := by
        rw [hline]
        exact ⟨fun h ↦ h hname.1 hname.2, fun h _ _ ↦ h⟩
      rw [if_pos (by simpa using hname), hfits]
      cases hvalue : originLine fbuf s.l with
      | none => exact ⟨Iff.rfl, fun t ht ↦ by cases ht⟩
      | some a =>
          refine ⟨Iff.rfl, fun t ht ↦ ?_⟩
          obtain rfl := Option.some.inj ht
          exact ⟨rfl, by dsimp only; omega, htail⟩
    · have hfits : OriginFits fbuf s := fun hzero hpre ↦ absurd ⟨hzero, hpre⟩ hname
      rw [if_neg (by simpa using hname)]
      by_cases hdone : s.done = true
      · rw [if_pos hdone]
        refine ⟨iff_of_true rfl hfits, fun t ht ↦ ?_⟩
        obtain rfl := Option.some.inj ht
        exact ⟨rfl, by dsimp only; omega, htail⟩
      · rw [if_neg hdone]
        obtain ⟨t, ht, htl, httail, hwrap⟩ := exists_wordWrap fbuf
          { s with body, tail, cr := false, col := s.col + 1, esc := s.esc || ch = 27 } ch
          (by dsimp only; omega)
        rw [ht]
        refine ⟨iff_of_true rfl hfits, fun t' ht' ↦ ?_⟩
        obtain rfl := Option.some.inj ht'
        dsimp only at hwrap
        exact ⟨htl, by omega, by rw [httail]; exact htail⟩

end Characters

/-! ## A turn of the loop -/

/-- What a turn of the loop needs: a kludge line that fits, or an origin line that does. -/
structure Good (fbuf : Str) (s : State) : Prop where
  kludge : fbuf[s.l]? = some 1 → s.cr = true → ∀ k ∈ kludges, k.1 <+: fbuf.drop (s.l + 1) →
    k.2.Fits (fbuf.drop (s.l + 1 + k.1.length))
  origin : OriginFits fbuf s

/-- What a turn of the loop keeps and does. -/
structure Turn (fbuf : Str) (result : Option State) (s : State) : Prop where
  isSome_iff : result.isSome ↔ Good fbuf s
  next : ∀ t, result = some t → Room (min t.l fbuf.length * 2) t ∧ s.l < t.l

section Turns

variable {fbuf : Str} {s : State}

theorem getElem?_of_leading {c : UInt8} {name : Str} {l : ℕ} (h : (c :: name) <+: fbuf.drop l) :
    fbuf[l]? = some c := by
  obtain ⟨rest, hrest⟩ := h
  rw [← List.head?_drop, ← hrest]
  rfl

/-- At any other character than a blank no origin line starts. -/
theorem originFits_of_getElem? {c : UInt8} (h : fbuf[s.l]? = some c) (hc : c ≠ 32) :
    OriginFits fbuf s := by
  intro _ hname
  have := getElem?_of_leading hname
  exact absurd (Option.some.inj (h.symm.trans this)) hc

theorem Room.mono {n m : ℕ} (h : Room n s) (hnm : n ≤ m) : Room m s :=
  ⟨Nat.le_trans h.body hnm, h.tail⟩

/-- A skip to the next line keeps the room. -/
theorem room_nextLine {t : State} (hl : s.l < fbuf.length) (hroom : Room (s.l * 2) s)
    (h : Frame s t) :
    Room (min (nextLine fbuf t).l fbuf.length * 2) (nextLine fbuf t) ∧
      s.l < (nextLine fbuf t).l := by
  have hle : t.l ≤ skip fbuf (fun c ↦ !isCr c) t.l := le_skip t.l
  have hlt : s.l < (nextLine fbuf t).l := Nat.lt_succ_of_le (Nat.le_trans h.l hle)
  have hbody := hroom.body
  refine ⟨⟨?_, ?_⟩, hlt⟩
  · change t.body.length + t.col.toNat ≤ _
    rw [h.body, h.col]
    omega
  · change t.tail.length ≤ _
    rw [h.tail]
    exact hroom.tail

theorem exists_isTearLine (hl : s.l < fbuf.length) : ∃ tear, isTearLine fbuf s = some tear := by
  rw [isTearLine, strncmp_pointer (by decide) (Nat.le_of_lt hl),
    strncmp_pointer (by decide) (Nat.le_of_lt hl)]
  cases s.cr
  · exact ⟨false, rfl⟩
  · rw [if_pos rfl, Option.bind_eq_bind, Option.bind_some]
    split
    · exact ⟨true, rfl⟩
    · exact ⟨_, rfl⟩

theorem turn_textStep (h0 : 0 ∉ fbuf) (hl : s.l < fbuf.length) (hroom : Room (s.l * 2) s)
    {c ch : UInt8} (hc : fbuf[s.l]? = some c) (hch : ch = 13 ∨ ch = 10 → c = ch)
    (hkludge : c = 1 → s.cr = false) : Turn fbuf (textStep fbuf s ch) s := by
  have hgood : Good fbuf s ↔ OriginFits fbuf s := by
    refine ⟨Good.origin, fun h ↦ ⟨fun hone hcr ↦ ?_, h⟩⟩
    have hfalse := hkludge (Option.some.inj (hc.symm.trans hone))
    rw [hfalse] at hcr
    cases hcr
  have hbody := hroom.body
  rw [textStep]
  by_cases hlf : ch = 10
  · have horigin : OriginFits fbuf s :=
      originFits_of_getElem? hc (by rw [hch (Or.inr hlf), hlf]; decide)
    rw [if_pos hlf]
    refine ⟨iff_of_true rfl (hgood.mpr horigin), fun t ht ↦ ?_⟩
    obtain rfl := Option.some.inj ht
    exact ⟨⟨by dsimp only; omega, hroom.tail⟩, Nat.lt_succ_self _⟩
  · obtain ⟨tear, htear⟩ := exists_isTearLine hl
    rw [if_neg hlf, htear, Option.bind_eq_bind, Option.bind_some]
    let s' : State := { s with done := s.done || tear }
    change Turn fbuf ((isSeenBy fbuf s').bind _) s
    obtain ⟨seenBy, hseenBy, hname⟩ : ∃ seenBy, isSeenBy fbuf s' = some seenBy ∧
        (seenBy = true → seenByName <+: fbuf.drop s.l) := by
      rw [isSeenBy]
      split
      · exact ⟨_, strncmp_pointer (by decide) (Nat.le_of_lt hl), fun h ↦ by simpa using h⟩
      · exact ⟨false, rfl, fun h ↦ by cases h⟩
    rw [hseenBy, Option.bind_some]
    cases seenBy
    · have hkeeps := keeps_textChar (s := s') ch h0 hl ⟨hroom.body, hroom.tail⟩
        fun hcr hname ↦ by
          have hblank : fbuf[s.l]? = some 32 := getElem?_of_leading hname
          have := Option.some.inj (hc.symm.trans hblank)
          rw [hch (Or.inl hcr), hcr] at this
          exact absurd this (by decide)
      rw [if_neg (by decide)]
      refine ⟨?_, fun t ht ↦ ?_⟩
      · rw [hgood, Option.isSome_map]
        exact hkeeps.isSome_iff
      · obtain ⟨t', ht', rfl⟩ := Option.map_eq_some_iff.mp ht
        obtain ⟨htl, hroom'⟩ := hkeeps.room t' ht'
        have hmin : min (t'.l + 1) fbuf.length * 2 = (s'.l + 1) * 2 := by
          rw [htl, Nat.min_eq_left hl]
        refine ⟨⟨?_, hroom'.tail⟩, ?_⟩
        · change t'.body.length + t'.col.toNat ≤ min (t'.l + 1) fbuf.length * 2
          rw [hmin]
          exact hroom'.body
        · change s.l < t'.l + 1
          rw [htl]
          exact Nat.lt_succ_self _
    · have hlen := (hname rfl).length_le
      rw [List.length_drop] at hlen
      change 8 ≤ _ at hlen
      have horigin : OriginFits fbuf s :=
        originFits_of_getElem? (getElem?_of_leading (hname rfl)) (by decide)
      obtain ⟨hfields, hfield⟩ := exists_addField
        { s' with l := skip fbuf isGarbage (s.l + 8) } .fidoSeenby true
        (skip_le isGarbage (by omega : s.l + 8 ≤ fbuf.length))
      have hle : s.l + 8 ≤ skip fbuf isGarbage (s.l + 8) := le_skip _
      rw [if_pos rfl]
      change Turn fbuf ((addField fbuf { s' with l := skip fbuf isGarbage (s.l + 8) } .fidoSeenby
        true (skip fbuf isGarbage (s.l + 8))).bind fun t ↦ some (nextLine fbuf t)) s
      rw [hfield, Option.bind_some]
      refine ⟨iff_of_true rfl (hgood.mpr horigin), fun t ht ↦ ?_⟩
      obtain rfl := Option.some.inj ht
      exact room_nextLine hl hroom ⟨by dsimp only; omega, rfl, rfl, rfl⟩

theorem turn_lineStep (h0 : 0 ∉ fbuf) (hl : s.l < fbuf.length) (hroom : Room (s.l * 2) s) :
    Turn fbuf (lineStep fbuf s) s := by
  obtain ⟨c, hc⟩ : ∃ c, fbuf[s.l]? = some c := ⟨_, List.getElem?_eq_getElem hl⟩
  rw [lineStep, hc, Option.bind_eq_bind, Option.bind_some]
  by_cases hkludge : c = 1 ∧ s.cr = true
  · rw [if_pos hkludge]
    have hline := within_kludgeLine h0 hl
    have hgood : Good fbuf s ↔ ∀ k ∈ kludges, k.1 <+: fbuf.drop (s.l + 1) →
        k.2.Fits (fbuf.drop (s.l + 1 + k.1.length)) := by
      refine ⟨fun h ↦ h.kludge (by rw [hc, hkludge.1]) hkludge.2, fun h ↦ ⟨fun _ _ ↦ h, ?_⟩⟩
      exact originFits_of_getElem? hc (by rw [hkludge.1]; decide)
    refine ⟨by rw [hgood, Option.isSome_map]; exact hline.isSome_iff, fun t ht ↦ ?_⟩
    obtain ⟨t', ht', rfl⟩ := Option.map_eq_some_iff.mp ht
    exact room_nextLine hl hroom (hline.frame t' ht')
  · rw [if_neg hkludge]
    apply turn_textStep h0 hl hroom hc
    · intro hline
      by_cases hone : c = 1
      · rw [if_pos hone] at hline
        exact absurd hline (by decide)
      · rw [if_neg hone]
    · intro hone
      by_contra hcr
      exact hkludge ⟨hone, by simpa using hcr⟩

theorem turn_step (keep : Bool) (h0 : 0 ∉ fbuf) (hl : s.l < fbuf.length)
    (hroom : Room (s.l * 2) s) : Turn fbuf (step fbuf keep s) s := by
  obtain ⟨isArea, harea, hname⟩ : ∃ isArea, isAreaLine fbuf s = some isArea ∧
      (isArea = true → areaName <+: fbuf.drop s.l) := by
    rw [isAreaLine]
    split
    · exact ⟨_, strncmp_pointer (by decide) (Nat.le_of_lt hl), fun h ↦ by simpa using h⟩
    · exact ⟨false, rfl, fun h ↦ by cases h⟩
  rw [step, harea, Option.bind_eq_bind, Option.bind_some]
  cases isArea
  · rw [if_neg (by decide)]
    exact turn_lineStep h0 hl hroom
  · have hlen := (hname rfl).length_le
    rw [List.length_drop] at hlen
    change 5 ≤ _ at hlen
    have hletter : fbuf[s.l]? = some 65 := getElem?_of_leading (hname rfl)
    have hgood : Good fbuf s := by
      refine ⟨fun hone ↦ ?_, originFits_of_getElem? hletter (by decide)⟩
      exact absurd (Option.some.inj (hletter.symm.trans hone)) (by decide)
    obtain ⟨hfields, hfield⟩ := exists_addField s .fidoArea true
      (skip_le isGarbage (by omega : s.l + 5 ≤ fbuf.length))
    rw [if_pos rfl, areaLine, hfield, Option.bind_eq_bind, Option.bind_some]
    cases keep
    · have hle : s.l + 5 ≤ skip fbuf isGarbage (s.l + 5) := le_skip _
      refine ⟨iff_of_true rfl hgood, fun t ht ↦ ?_⟩
      obtain rfl := Option.some.inj ht
      exact room_nextLine hl hroom ⟨by dsimp only; omega, rfl, rfl, rfl⟩
    · have hturn := turn_lineStep (s := { s with hfields }) h0 hl ⟨hroom.body, hroom.tail⟩
      exact ⟨hturn.isSome_iff.trans ⟨fun h ↦ ⟨h.kludge, h.origin⟩, fun h ↦ ⟨h.kludge, h.origin⟩⟩,
        hturn.next⟩

/-! ## The conversion -/

variable (fbuf)

/-- The states in which the loop takes a turn, from the start on. -/
def Comes (keep : Bool) (s₀ s : State) : Prop :=
  CheckedLoop.Reached (isEnd fbuf) (step fbuf keep) s₀ s ∧ s.l < fbuf.length

variable {fbuf}

theorem spec_step (keep : Bool) (h0 : 0 ∉ fbuf) :
    CheckedLoop.Spec (isEnd fbuf) (step fbuf keep)
      (fun s ↦ Room (min s.l fbuf.length * 2) s) (Good fbuf) (fun s ↦ fbuf.length - s.l) := by
  have hturn : ∀ s : State, Room (min s.l fbuf.length * 2) s → isEnd fbuf s = false →
      s.l < fbuf.length ∧ Turn fbuf (step fbuf keep s) s := by
    intro s hroom hend
    have hl : s.l < fbuf.length := by simpa [isEnd] using hend
    rw [Nat.min_eq_left (Nat.le_of_lt hl)] at hroom
    exact ⟨hl, turn_step keep h0 hl hroom⟩
  constructor
  · intro s hroom hend
    exact (hturn s hroom hend).2.isSome_iff
  · intro s t hroom hend ht
    obtain ⟨hl, hs⟩ := hturn s hroom hend
    obtain ⟨hroom', hlt⟩ := hs.next t ht
    exact ⟨hroom', by omega⟩

/-- The terminators have room. -/
theorem terminate_isSome (hroom : Room (min s.l fbuf.length * 2) s) : (terminate fbuf s).isSome := by
  have hbody := hroom.body
  have htail : (s.tail.rdropWhile isGarbage).length < maxTaillen + 1 :=
    Nat.lt_succ_of_le (Nat.le_trans (List.rdropWhile_prefix isGarbage _).length_le hroom.tail)
  have hcut : (if [13, 10] <:+ s.body then s.body.take (s.body.length - 2)
      else s.body).length ≤ s.body.length := by
    split
    · exact List.length_take_le' _ _
    · exact Nat.le_refl _
  rw [terminate]
  simp only [store]
  rw [if_pos (by omega), if_pos htail]
  rfl

/-- The loop of `fmsgtosmsg` ends, and stays inside its memory, just when every turn of it has
what it needs. -/
theorem convert_isSome_iff (keep : Bool) (h0 : 0 ∉ fbuf) (orig dest : FidoAddr) (zone : Int16) :
    (convert fbuf keep (start orig dest zone)).isSome ↔
      ∀ s, Comes fbuf keep (start orig dest zone) s → Good fbuf s := by
  have hstart : Room (min (start orig dest zone).l fbuf.length * 2) (start orig dest zone) :=
    ⟨Nat.zero_le _, Nat.zero_le _⟩
  have hrun := CheckedLoop.run_isSome_iff (spec_step keep h0) hstart
    (Nat.lt_succ_of_le (Nat.sub_le fbuf.length _))
  have hcomes : (∀ s, Comes fbuf keep (start orig dest zone) s → Good fbuf s) ↔
      ∀ s, CheckedLoop.Reached (isEnd fbuf) (step fbuf keep) (start orig dest zone) s →
        isEnd fbuf s = false → Good fbuf s := by
    simp [Comes, isEnd]
  rw [hcomes, ← hrun, convert]
  cases hresult : CheckedLoop.run (isEnd fbuf) (step fbuf keep) (fbuf.length + 1)
      (start orig dest zone) with
  | none => rfl
  | some t =>
      have hroom := (CheckedLoop.inv_of_run (spec_step keep h0) hstart hresult).1
      exact iff_of_true (terminate_isSome hroom) rfl

end Turns

/-! ## Addresses of stored messages -/

/-- An address that ends, or fills what is copied of it, inside the buffer. -/
def AddressFits (p : List UInt8) : Prop := 0 ∈ p.take 50 ∨ 50 ≤ p.length

def isBlank (c : UInt8) : Bool := c = 0 || c = 32

/-- `"TOPT "`, `"FMPT "` and `"INTL "` -/
def toptName : Str := [84, 79, 80, 84, 32]
def fmptName : Str := [70, 77, 80, 84, 32]
def intlName : Str := [73, 78, 84, 76, 32]

/-- A kludge line is complete in what the buffer holds behind its mark: the buffer does not end
in a name, a number has something behind it, and both addresses of `INTL` fit. -/
structure ZptFits (p : List UInt8) : Prop where
  names : ∀ name ∈ [toptName, fmptName, intlName], p <+: name → p = name
  numbers : ∀ name ∈ [toptName, fmptName], name <+: p → behindNumber (p.drop 5) ≠ []
  addresses : intlName <+: p →
    AddressFits ((p.drop 5).dropWhile fun c ↦ !isBlank c).tail

def ZptGood (buf : List UInt8) (s : Zpt) : Prop :=
  buf[s.i]? = some 1 → s.i = 0 ∨ s.cr = true → ZptFits (buf.drop (s.i + 1))

section Zpts

theorem strncmp_eq (p : List UInt8) (s : Str) :
    strncmp p s = if p <+: s ∧ p ≠ s then none else some (decide (s <+: p)) := by
  induction s generalizing p with
  | nil =>
      have hnil : ¬(p <+: [] ∧ p ≠ []) := fun h ↦ h.2 (List.prefix_nil.mp h.1)
      simp [strncmp, hnil]
  | cons d s ih =>
      cases p with
      | nil => simp [strncmp]
      | cons c p =>
          rw [strncmp, ih]
          by_cases hc : c = d
          · simp [hc, List.cons_prefix_cons]
          · simp [hc, List.cons_prefix_cons, Ne.symm hc]

theorem findBlank_eq (p : List UInt8) :
    findBlank p = if (p.dropWhile fun c ↦ !isBlank c) = [] then none
      else some (p.takeWhile fun c ↦ !isBlank c).length := by
  induction p with
  | nil => rfl
  | cons c p ih =>
      rw [findBlank, ih]
      by_cases hc : c = 0 ∨ c = 32
      · have hblank : isBlank c = true := by simpa [isBlank] using hc
        simp [hc, hblank]
      · have hblank : isBlank c = false := by simpa [isBlank] using hc
        rw [if_neg hc, List.dropWhile_cons_of_pos (by simp [hblank]),
          List.takeWhile_cons_of_pos (by simp [hblank])]
        split <;> rfl

theorem atofaddr_isSome_iff (p : List UInt8) : (atofaddr p).isSome ↔ AddressFits p := by
  rw [atofaddr, AddressFits]
  split <;> simp_all

/-- The first address fits where the second one does. -/
theorem addressFits_of_tail {p : List UInt8} {pred : UInt8 → Bool}
    (h : AddressFits (p.dropWhile pred).tail) : AddressFits p := by
  have hsuffix : (p.dropWhile pred).tail <:+ p :=
    (List.tail_suffix _).trans (List.dropWhile_suffix pred)
  by_cases hlen : 50 ≤ p.length
  · exact Or.inr hlen
  · have hle := hsuffix.length_le
    rw [AddressFits, List.take_of_length_le (by omega)] at h ⊢
    exact Or.inl (hsuffix.subset (h.resolve_right (by omega)))

variable {buf : List UInt8} {len : ℕ} {s : Zpt}

/-- The names of the kludge lines with addresses. -/
def zptNames : List Str := [toptName, fmptName, intlName]

theorem zptNames_apart {name name' : Str} (h : name ∈ zptNames) (h' : name' ∈ zptNames)
    (hpre : name <+: name') : name = name' := by
  have htable : ∀ name ∈ zptNames, ∀ name' ∈ zptNames, name <+: name' → name = name' := by
    decide +kernel
  exact htable name h name' h' hpre

theorem zptName_unique {p : List UInt8} {name name' : Str} (h : name ∈ zptNames)
    (h' : name' ∈ zptNames) (hp : name <+: p) (hp' : name' <+: p) : name = name' := by
  rcases List.prefix_or_prefix_of_prefix hp hp' with hle | hle
  · exact zptNames_apart h h' hle
  · exact (zptNames_apart h' h hle).symm

/-- Behind a name that stands in the buffer no other name is broken off. -/
theorem names_of_leading {p : List UInt8} {name : Str} (h : name ∈ zptNames) (hp : name <+: p)
    (hwhole : ¬(p <+: name ∧ p ≠ name)) : ∀ name' ∈ zptNames, p <+: name' → p = name' := by
  intro name' h' hp'
  obtain rfl := zptNames_apart h h' (hp.trans hp')
  by_contra hne
  exact hwhole ⟨hp', hne⟩

theorem atoi_isSome_iff (p : List UInt8) : (atoi p).isSome ↔ behindNumber p ≠ [] := by
  rw [atoi]
  split <;> simp_all

/-- The number of a kludge line that stands in the buffer. -/
theorem zptFits_number {p : List UInt8} {name : Str} (h : name ∈ [toptName, fmptName])
    (hp : name <+: p) (hwhole : ¬(p <+: name ∧ p ≠ name)) :
    ZptFits p ↔ (atoi (p.drop 5)).isSome := by
  have hmem : ∀ name ∈ [toptName, fmptName], name ∈ zptNames ∧ name ≠ intlName := by decide +kernel
  rw [atoi_isSome_iff]
  refine ⟨fun hfits ↦ hfits.numbers name h hp, fun hnumber ↦ ⟨?_, fun _ _ _ ↦ hnumber, ?_⟩⟩
  · exact names_of_leading (hmem name h).1 hp hwhole
  · intro hintl
    exact absurd (zptName_unique (hmem name h).1 (by decide) hp hintl) (hmem name h).2

theorem drop_takeWhile_succ (p : List UInt8) (pred : UInt8 → Bool) :
    p.drop ((p.takeWhile pred).length + 1) = (p.dropWhile pred).tail := by
  have hdrop : p.drop (skip p pred 0) = p.dropWhile pred := drop_skip p pred 0
  rw [skip, Nat.zero_add, List.drop_zero] at hdrop
  rw [← List.drop_drop, hdrop, List.drop_one]

theorem zptIntl_isSome_iff :
    ((atofaddr ((buf.drop (s.i + 1)).drop 5)).bind fun dest ↦
      (findBlank ((buf.drop (s.i + 1)).drop 5)).bind fun n ↦
        (atofaddr (buf.drop (s.i + 6 + n + 1))).bind fun orig ↦ some { s with
          i := s.i + 6 + n
          dest := { dest with point := s.dest.point }
          orig := { orig with point := s.orig.point }
          intlFound := true }).isSome ↔
      AddressFits (((buf.drop (s.i + 1)).drop 5).dropWhile fun c ↦ !isBlank c).tail := by
  have hdrop : ∀ n, buf.drop (s.i + 6 + n + 1) = ((buf.drop (s.i + 1)).drop 5).drop (n + 1) := by
    intro n
    rw [List.drop_drop, List.drop_drop]
    congr 1
    omega
  simp only [hdrop]
  generalize (buf.drop (s.i + 1)).drop 5 = p
  rw [findBlank_eq]
  by_cases hend : (p.dropWhile fun c ↦ !isBlank c) = []
  · rw [if_pos hend, hend]
    refine iff_of_false ?_ (by simp [AddressFits])
    cases atofaddr p <;> simp
  · rw [if_neg hend]
    simp only [Option.bind_some, drop_takeWhile_succ]
    constructor
    · intro h
      rw [← atofaddr_isSome_iff]
      cases hsecond : atofaddr (p.dropWhile fun c ↦ !isBlank c).tail with
      | none =>
          rw [hsecond] at h
          cases hfirst : atofaddr p <;> simp [hfirst] at h
      | some orig => rfl
    · intro h
      obtain ⟨dest, hdest⟩ := Option.isSome_iff_exists.mp
        ((atofaddr_isSome_iff p).mpr (addressFits_of_tail h))
      obtain ⟨orig, horig⟩ := Option.isSome_iff_exists.mp ((atofaddr_isSome_iff _).mpr h)
      rw [hdest, horig]
      rfl

theorem zptKludge_isSome_iff : (zptKludge buf s).isSome ↔ ZptFits (buf.drop (s.i + 1)) := by
  change ((strncmp (buf.drop (s.i + 1)) toptName).bind fun topt ↦ _).isSome ↔ _
  have hbroken : ∀ name ∈ zptNames, buf.drop (s.i + 1) <+: name ∧ buf.drop (s.i + 1) ≠ name →
      ¬ZptFits (buf.drop (s.i + 1)) :=
    fun name h hbroken hfits ↦ hbroken.2 (hfits.names name h hbroken.1)
  rw [strncmp_eq]
  by_cases htopt : buf.drop (s.i + 1) <+: toptName ∧ buf.drop (s.i + 1) ≠ toptName
  · rw [if_pos htopt]
    exact iff_of_false (by simp) (hbroken toptName (by decide) htopt)
  rw [if_neg htopt, Option.bind_some]
  by_cases htopt' : toptName <+: buf.drop (s.i + 1)
  · rw [if_pos (by simpa using htopt'), zptFits_number (by simp) htopt' htopt]
    simp [Option.isSome_bind]
  rw [if_neg (by simpa using htopt')]
  change ((strncmp (buf.drop (s.i + 1)) fmptName).bind fun fmpt ↦ _).isSome ↔ _
  rw [strncmp_eq]
  by_cases hfmpt : buf.drop (s.i + 1) <+: fmptName ∧ buf.drop (s.i + 1) ≠ fmptName
  · rw [if_pos hfmpt]
    exact iff_of_false (by simp) (hbroken fmptName (by decide) hfmpt)
  rw [if_neg hfmpt, Option.bind_some]
  by_cases hfmpt' : fmptName <+: buf.drop (s.i + 1)
  · rw [if_pos (by simpa using hfmpt'), zptFits_number (by simp) hfmpt' hfmpt]
    simp [Option.isSome_bind]
  rw [if_neg (by simpa using hfmpt')]
  change ((strncmp (buf.drop (s.i + 1)) intlName).bind fun intl ↦ _).isSome ↔ _
  rw [strncmp_eq]
  by_cases hintl : buf.drop (s.i + 1) <+: intlName ∧ buf.drop (s.i + 1) ≠ intlName
  · rw [if_pos hintl]
    exact iff_of_false (by simp) (hbroken intlName (by decide) hintl)
  rw [if_neg hintl, Option.bind_some]
  have hnumbers : ∀ name ∈ [toptName, fmptName], name <+: buf.drop (s.i + 1) →
      behindNumber ((buf.drop (s.i + 1)).drop 5) ≠ [] := by
    intro name h hname
    simp only [List.mem_cons, List.not_mem_nil, or_false] at h
    rcases h with rfl | rfl
    · exact absurd hname htopt'
    · exact absurd hname hfmpt'
  by_cases hintl' : intlName <+: buf.drop (s.i + 1)
  · have hfits : ZptFits (buf.drop (s.i + 1)) ↔
        AddressFits (((buf.drop (s.i + 1)).drop 5).dropWhile fun c ↦ !isBlank c).tail :=
      ⟨fun h ↦ h.addresses hintl',
        fun h ↦ ⟨names_of_leading (by decide) hintl' hintl, hnumbers, fun _ ↦ h⟩⟩
    rw [if_pos (by simpa using hintl'), hfits]
    exact zptIntl_isSome_iff
  · rw [if_neg (by simpa using hintl')]
    refine iff_of_true rfl ⟨?_, hnumbers, fun h ↦ absurd h hintl'⟩
    intro name h hname
    simp only [List.mem_cons, List.not_mem_nil, or_false] at h
    by_contra hne
    rcases h with rfl | rfl | rfl
    · exact htopt ⟨hname, hne⟩
    · exact hfmpt ⟨hname, hne⟩
    · exact hintl ⟨hname, hne⟩

/-- A kludge line of `getzpt` goes forward. -/
theorem le_of_zptKludge {t : Zpt} (h : zptKludge buf s = some t) : s.i ≤ t.i := by
  simp only [zptKludge, Option.bind_eq_bind, Option.bind_eq_some_iff] at h
  obtain ⟨topt, -, h⟩ := h
  split at h
  · obtain ⟨v, -, hv⟩ := Option.bind_eq_some_iff.mp h
    obtain rfl := Option.some.inj hv
    exact Nat.le_refl _
  obtain ⟨fmpt, -, h⟩ := Option.bind_eq_some_iff.mp h
  split at h
  · obtain ⟨v, -, hv⟩ := Option.bind_eq_some_iff.mp h
    obtain rfl := Option.some.inj hv
    exact Nat.le_refl _
  obtain ⟨intl, -, h⟩ := Option.bind_eq_some_iff.mp h
  split at h
  · obtain ⟨dest, -, h⟩ := Option.bind_eq_some_iff.mp h
    obtain ⟨n, -, h⟩ := Option.bind_eq_some_iff.mp h
    obtain ⟨orig, -, h⟩ := Option.bind_eq_some_iff.mp h
    obtain rfl := Option.some.inj h
    change s.i ≤ s.i + 6 + n
    omega
  · obtain rfl := Option.some.inj h
    exact Nat.le_refl _

theorem spec_zptStep (hlen : len ≤ buf.length) :
    CheckedLoop.Spec (fun s ↦ decide (len ≤ s.i)) (zptStep buf len) (fun _ ↦ True) (ZptGood buf)
      (fun s ↦ len - s.i) := by
  have hread : ∀ s : Zpt, decide (len ≤ s.i) = false → ∃ c, buf[s.i]? = some c ∧ s.i < len := by
    intro s hs
    have hlt : s.i < len := by simpa using hs
    exact ⟨_, List.getElem?_eq_getElem (Nat.lt_of_lt_of_le hlt hlen), hlt⟩
  constructor
  · intro s _ hs
    obtain ⟨c, hc, -⟩ := hread s hs
    rw [zptStep, hc, Option.bind_eq_bind, Option.bind_some]
    by_cases hlf : c = 10
    · rw [if_pos hlf]
      refine iff_of_true rfl fun hone ↦ ?_
      rw [hc, hlf] at hone
      exact absurd hone (by decide)
    · rw [if_neg hlf]
      by_cases hkludge : (s.i = 0 ∨ s.cr = true) ∧ c = 1
      · rw [if_pos hkludge]
        have hgood : ZptGood buf s ↔ ZptFits (buf.drop (s.i + 1)) :=
          ⟨fun h ↦ h (by rw [hc, hkludge.2]) hkludge.1, fun h _ _ ↦ h⟩
        rw [hgood, ← zptKludge_isSome_iff]
        simp [Option.isSome_bind]
      · rw [if_neg hkludge]
        refine iff_of_true rfl fun hone hcr ↦ ?_
        exact absurd ⟨hcr, Option.some.inj (hc.symm.trans hone)⟩ hkludge
  · intro s t _ hs ht
    obtain ⟨c, hc, hlt⟩ := hread s hs
    refine ⟨trivial, ?_⟩
    rw [zptStep, hc, Option.bind_eq_bind, Option.bind_some] at ht
    split at ht
    · obtain rfl := Option.some.inj ht
      dsimp only
      omega
    split at ht
    · obtain ⟨s', hs', ht'⟩ := Option.bind_eq_some_iff.mp ht
      obtain rfl := Option.some.inj ht'
      have hle := le_of_zptKludge hs'
      have hskip : s'.i ≤ zptSkip buf len s'.i := Nat.le_add_right _ _
      dsimp only
      omega
    · obtain rfl := Option.some.inj ht
      dsimp only
      omega

/-- The states in which the loop of `getzpt` takes a turn. -/
def ZptComes (buf : List UInt8) (len : ℕ) (s₀ s : Zpt) : Prop :=
  CheckedLoop.Reached (fun s ↦ decide (len ≤ s.i)) (zptStep buf len) s₀ s ∧ s.i < len

theorem getzpt_isSome_iff (hlen : len ≤ buf.length) (orig dest : FidoAddr) :
    (getzpt buf len orig dest).isSome ↔
      ∀ s, ZptComes buf len ⟨0, false, orig, dest, false⟩ s → ZptGood buf s := by
  rw [getzpt, CheckedLoop.run_isSome_iff (spec_zptStep hlen) trivial
    (Nat.lt_succ_of_le (Nat.sub_le len _))]
  simp [ZptComes]

end Zpts

/-- The import of a message and the search for the addresses of a stored one end inside their
memory just when every turn of their loops has what it needs. -/
theorem import_isSome_iff (fbuf : Str) (h0 : 0 ∉ fbuf) (keep : Bool) (zone : Int16)
    (buf : List UInt8) (len : ℕ) (hlen : len ≤ buf.length) (orig dest : FidoAddr) :
    ((convert fbuf keep (start orig dest zone)).isSome ↔
      ∀ s, Comes fbuf keep (start orig dest zone) s → Good fbuf s) ∧
    ((getzpt buf len orig dest).isSome ↔
      ∀ s, ZptComes buf len ⟨0, false, orig, dest, false⟩ s → ZptGood buf s) :=
  ⟨convert_isSome_iff keep h0 orig dest zone, getzpt_isSome_iff hlen orig dest⟩

/-- `"\x01PID:x\r"` -/
theorem import_isSome_iff_pid :
    ((convert [1, 80, 73, 68, 58, 120, 13] false (start ⟨1, 2, 3, 0⟩ ⟨1, 2, 4, 0⟩ 0)).isSome ↔
      ∀ s, Comes [1, 80, 73, 68, 58, 120, 13] false (start ⟨1, 2, 3, 0⟩ ⟨1, 2, 4, 0⟩ 0) s →
        Good [1, 80, 73, 68, 58, 120, 13] s) ∧
    ((getzpt (List.replicate 4096 13) 4096 ⟨1, 2, 3, 0⟩ ⟨1, 2, 4, 0⟩).isSome ↔
      ∀ s, ZptComes (List.replicate 4096 13) 4096 ⟨0, false, ⟨1, 2, 3, 0⟩, ⟨1, 2, 4, 0⟩, false⟩ s →
        ZptGood (List.replicate 4096 13) s) :=
  import_isSome_iff _ (by decide) false 0 _ 4096 (List.length_replicate.ge) _ _

/-- An `INTL` line without a second address, an origin line without an address, a time zone
without digits; and a kludge mark that is the last byte of a full buffer. -/
theorem import_reads_outside :
    convert [1, 73, 78, 84, 76, 32, 49, 58, 49, 47, 49] false
        (start ⟨1, 2, 3, 0⟩ ⟨1, 2, 4, 0⟩ 0) = none ∧
      convert (originName ++ [120]) false (start ⟨1, 2, 3, 0⟩ ⟨1, 2, 4, 0⟩ 0) = none ∧
      convert [1, 84, 90, 85, 84, 67, 58] false (start ⟨1, 2, 3, 0⟩ ⟨1, 2, 4, 0⟩ 0) = none ∧
      getzpt (1 :: List.replicate 4093 65 ++ [13, 1]) 4096 ⟨1, 2, 3, 0⟩ ⟨1, 2, 4, 0⟩ = none := by
  refine ⟨?_, ?_, ?_, ?_⟩
  · rw [← Option.isNone_iff_eq_none]
    decide +kernel
  · rw [← Option.isNone_iff_eq_none]
    decide +kernel
  · rw [← Option.isNone_iff_eq_none]
    decide +kernel
  · rw [← Option.isNone_iff_eq_none]
    decide +kernel

end Synchronet.Sbbs3.Echo.Fmsg
