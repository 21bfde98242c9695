import Synchronet.Lib.FirstOccurrences
import Synchronet.Xpdev.Genwrap
import Mathlib.Data.List.Sort

/-!
# String lists (str_list.c)

A string list is an array of pointers that a null pointer ends.  Removing a string leaves room
for the other pointers and the null pointer only, so that a read behind it has no result.
Requests for memory are always met.
-/

namespace Synchronet.Xpdev

open FirstOccurrences
open Smblib (strlwr)

/-- A string of a list, with the address at which it stands. -/
structure StrPtr where
  addr : ℕ
  str : Str
  deriving DecidableEq

/-- `strListRemove`: the list and the string that was removed.  The index is `none` for
`STR_LIST_LAST_INDEX`. -/
def strListRemove (list : List StrPtr) (index : Option ℕ) : List StrPtr × Option StrPtr :=
  let index := index.getD (list.length - 1)
  if list.length ≤ index then (list, none) else (list.eraseIdx index, list[index]?)

/-- `strListDelete`: the list and the strings that have been freed. -/
def strListDelete (list : List StrPtr) (index : Option ℕ) (freed : List StrPtr) :
    List StrPtr × List StrPtr :=
  match strListRemove list index with
  | (list, none) => (list, freed)
  | (list, some str) => (list, freed ++ [str])

/-! ## Removing duplicates -/

/-- Whether `strListDedupe` takes the strings to be equal. -/
def sameString (caseSensitive : Bool) (a b : StrPtr) : Bool :=
  (caseSensitive && a.str == b.str) || (!caseSensitive && stricmp a.str b.str)

/-- The inner loop of `strListDedupe`, for a number of rounds. -/
def dedupeInner (caseSensitive : Bool) (i : ℕ) :
    ℕ → ℕ → List StrPtr → List StrPtr → Option (List StrPtr × List StrPtr)
  | 0, _, _, _ => none
  | n + 1, j, list, freed =>
      if list.length < j then none
      else
        match list[i]?, list[j]? with
        | some a, some b =>
            if sameString caseSensitive a b then
              let r := strListDelete list (some j) freed
              dedupeInner caseSensitive i n (j + 1) r.1 r.2
            else dedupeInner caseSensitive i n (j + 1) list freed
        | _, _ => some (list, freed)

/-- The outer loop of `strListDedupe`, for a number of rounds. -/
def dedupeOuter (caseSensitive : Bool) :
    ℕ → ℕ → List StrPtr → List StrPtr → Option (List StrPtr × List StrPtr × ℕ)
  | 0, _, _, _ => none
  | n + 1, i, list, freed =>
      match list[i]? with
      | none => some (list, freed, i)
      | some _ => do
          let (list, freed) ← dedupeInner caseSensitive i (list.length + 1) (i + 1) list freed
          dedupeOuter caseSensitive n (i + 1) list freed

/-- `strListDedupe`: the list, the strings that have been freed and the length that it returns. -/
def strListDedupe (list : List StrPtr) (caseSensitive : Bool) :
    Option (List StrPtr × List StrPtr × ℕ) :=
  dedupeOuter caseSensitive (list.length + 1) 0 list []

/-- What decides whether strings are equal. -/
def sameKey (caseSensitive : Bool) (a : StrPtr) : Str :=
  if caseSensitive then a.str else strlwr a.str

/-- The first occurrences are left, in their order and no two equal, and every other string has
been freed once. -/
def Deduped (caseSensitive : Bool) (list : List StrPtr)
    (r : Option (List StrPtr × List StrPtr × ℕ)) : Prop :=
  ∃ left freed, r = some (left, freed, left.length) ∧
    left.Pairwise (fun a b ↦ sameString caseSensitive a b = false) ∧
    left = firsts (sameKey caseSensitive) list ∧ (left ++ freed).Perm list

variable {caseSensitive : Bool} {list pre rest freed : List StrPtr} {a b : StrPtr} {i j n : ℕ}

theorem sameString_eq (caseSensitive : Bool) (a b : StrPtr) :
    sameString caseSensitive a b = decide (sameKey caseSensitive b = sameKey caseSensitive a) := by
  cases caseSensitive <;> simp [sameString, sameKey, stricmp, eq_comm, Bool.beq_eq_decide_eq]

theorem strListDelete_append (pre : List StrPtr) (b : StrPtr) (rest freed : List StrPtr) :
    strListDelete (pre ++ b :: rest) (some pre.length) freed = (pre ++ rest, freed ++ [b]) := by
  have herase : (pre ++ b :: rest).eraseIdx pre.length = pre ++ rest := by
    rw [List.eraseIdx_append_of_length_le le_rfl, Nat.sub_self, List.eraseIdx_cons_zero]
  simp [strListDelete, strListRemove, herase]

section Inner

variable (hi : pre[i]? = some a)

include hi

theorem getElem?_append_of_some (rest : List StrPtr) : (pre ++ rest)[i]? = some a := by
  rw [List.getElem?_append_left (List.getElem?_eq_some_iff.mp hi).1, hi]

/-- One round at a string that is equal. -/
theorem dedupeInner_same (hb : sameString caseSensitive a b = true) :
    dedupeInner caseSensitive i (n + 1) pre.length (pre ++ b :: rest) freed =
      dedupeInner caseSensitive i n (pre.length + 1) (pre ++ rest) (freed ++ [b]) := by
  rw [dedupeInner, if_neg (by simp), getElem?_append_of_some hi]
  simp [hb, strListDelete_append]

/-- One round at another string. -/
theorem dedupeInner_other (hb : sameString caseSensitive a b ≠ true) :
    dedupeInner caseSensitive i (n + 1) pre.length (pre ++ b :: rest) freed =
      dedupeInner caseSensitive i n (pre.length + 1) (pre ++ b :: rest) freed := by
  rw [dedupeInner, if_neg (by simp), getElem?_append_of_some hi]
  simp [hb]

/-- The inner loop removes the strings equal to the one at `i`, but steps over the one behind
each string that it removes. -/
theorem dedupeInner_eq (hn : rest.length < n) :
    dedupeInner caseSensitive i n pre.length (pre ++ rest) freed =
      (skim (sameString caseSensitive a) rest).map fun r ↦ (pre ++ r.1, freed ++ r.2) := by
  induction n generalizing pre rest freed with
  | zero => omega
  | succ n ih =>
      have hround : ∀ (c : StrPtr) (xs fs : List StrPtr), xs.length < n →
          dedupeInner caseSensitive i n (pre.length + 1) (pre ++ c :: xs) fs =
            (skim (sameString caseSensitive a) xs).map
              fun r ↦ (pre ++ c :: r.1, fs ++ r.2) := fun c xs fs hlen ↦ by
        have hnext : dedupeInner caseSensitive i n (pre ++ [c]).length (pre ++ [c] ++ xs) fs = _ :=
          ih (getElem?_append_of_some hi [c]) hlen
        simpa using hnext
      cases rest with
      | nil => simp [dedupeInner, skim]
      | cons b rest =>
          simp only [List.length_cons] at hn
          by_cases hb : sameString caseSensitive a b = true
          · rw [dedupeInner_same hi hb]
            cases rest with
            | nil =>
                rw [skim, if_pos hb]
                cases n with
                | zero => rfl
                | succ n => simp [dedupeInner]
            | cons c rest =>
                simp only [List.length_cons] at hn
                rw [hround c rest _ (by omega), skim, if_pos hb, Option.map_map]
                simp [Function.comp_def]
          · rw [dedupeInner_other hi hb, hround b rest _ (by omega), skim_cons_of_neg hb,
              Option.map_map]
            rfl

end Inner

theorem sameString_fun (a : StrPtr) : sameString caseSensitive a =
    fun b ↦ decide (sameKey caseSensitive b = sameKey caseSensitive a) :=
  funext fun b ↦ sameString_eq caseSensitive a b

theorem dedupeOuter_cons (n : ℕ) (pre : List StrPtr) (a : StrPtr) (rest freed : List StrPtr) :
    dedupeOuter caseSensitive (n + 1) pre.length (pre ++ a :: rest) freed =
      (skim (fun b ↦ decide (sameKey caseSensitive b = sameKey caseSensitive a)) rest).bind
        fun r ↦ dedupeOuter caseSensitive n (pre ++ [a]).length (pre ++ [a] ++ r.1)
          (freed ++ r.2) := by
  have hi : (pre ++ [a])[pre.length]? = some a := List.getElem?_concat_length
  have hlen : rest.length < (pre ++ a :: rest).length + 1 := by
    simp only [List.length_append, List.length_cons]
    omega
  have hget : (pre ++ a :: rest)[pre.length]? = some a := by simp
  have hinner : dedupeInner caseSensitive pre.length ((pre ++ a :: rest).length + 1)
      (pre.length + 1) (pre ++ a :: rest) freed =
        (skim (sameString caseSensitive a) rest).map
          fun r ↦ (pre ++ [a] ++ r.1, freed ++ r.2) := by
    simpa using dedupeInner_eq hi hlen
  rw [dedupeOuter, ← sameString_fun]
  simp only [hget, Option.bind_eq_bind]
  rw [hinner, Option.bind_map, List.length_append, List.length_singleton]
  rfl

theorem dedupeOuter_nil (n : ℕ) (pre freed : List StrPtr) :
    dedupeOuter caseSensitive (n + 1) pre.length (pre ++ []) freed =
      some (pre, freed, pre.length) := by
  simp [dedupeOuter]

/-- Where no equal string is stepped over the first occurrences are left. -/
theorem dedupeOuter_of_noneSkipped (h : NoneSkipped (sameKey caseSensitive) rest) (n : ℕ)
    (pre freed : List StrPtr) (hn : rest.length < n) :
    ∃ removed, dedupeOuter caseSensitive n pre.length (pre ++ rest) freed =
        some (pre ++ firsts (sameKey caseSensitive) rest, freed ++ removed,
          (pre ++ firsts (sameKey caseSensitive) rest).length) ∧
      (firsts (sameKey caseSensitive) rest ++ removed).Perm rest := by
  induction h generalizing n pre freed with
  | nil =>
      obtain ⟨n, rfl⟩ : ∃ m, n = m + 1 := ⟨n - 1, by omega⟩
      exact ⟨[], by rw [dedupeOuter_nil]; simp, List.Perm.refl _⟩
  | @cons a rest hunskipped _ ih =>
      obtain ⟨n, rfl⟩ : ∃ m, n = m + 1 := ⟨n - 1, by omega⟩
      have hskim := skim_eq_filter hunskipped
      have hkeep : (rest.filter fun b ↦ !decide (sameKey caseSensitive b = sameKey caseSensitive a)) =
          rest.filter fun b ↦ sameKey caseSensitive b ≠ sameKey caseSensitive a := by simp
      have hle := List.length_filter_le
        (fun b ↦ decide (sameKey caseSensitive b ≠ sameKey caseSensitive a)) rest
      obtain ⟨removed, hrun, hperm⟩ := ih n (pre ++ [a])
        (freed ++ rest.filter fun b ↦
          decide (sameKey caseSensitive b = sameKey caseSensitive a))
        (by simp only [List.length_cons] at hn; omega)
      rw [firsts_filter] at hrun hperm
      refine ⟨rest.filter (fun b ↦ decide (sameKey caseSensitive b = sameKey caseSensitive a)) ++
        removed, ?_, ?_⟩
      · rw [dedupeOuter_cons, hskim, hkeep, Option.bind_some, hrun, firsts_cons]
        simp
      · rw [firsts_cons, List.cons_append]
        refine List.Perm.cons a ((List.perm_append_comm_assoc _ _ _).trans ?_)
        refine (hperm.append_left _).trans ?_
        simpa using List.filter_append_perm
          (fun b ↦ decide (sameKey caseSensitive b = sameKey caseSensitive a)) rest

/-- Every string has an equal one among those that are left, and if no two of them are equal
then none has been stepped over. -/
theorem noneSkipped_of_dedupeOuter {left freed' : List StrPtr} {m : ℕ} (n : ℕ)
    (pre rest freed : List StrPtr)
    (h : dedupeOuter caseSensitive n pre.length (pre ++ rest) freed = some (left, freed', m)) :
    ∃ s, left = pre ++ s ∧
      (∀ a ∈ rest, ∃ b ∈ s, sameKey caseSensitive b = sameKey caseSensitive a) ∧
      (s.Pairwise (fun a b ↦ sameKey caseSensitive a ≠ sameKey caseSensitive b) →
        NoneSkipped (sameKey caseSensitive) rest) := by
  induction n generalizing pre rest freed with
  | zero => cases h
  | succ n ih =>
      cases rest with
      | nil =>
          rw [dedupeOuter_nil] at h
          obtain ⟨rfl, -⟩ := Prod.mk.inj (Option.some.inj h)
          exact ⟨[], (List.append_nil _).symm, by simp, fun _ ↦ .nil⟩
      | cons a rest =>
          rw [dedupeOuter_cons] at h
          obtain ⟨⟨kept, removed⟩, hskim, hrun⟩ := Option.bind_eq_some_iff.mp h
          obtain ⟨s, rfl, hcover, hnone⟩ := ih _ _ _ hrun
          refine ⟨a :: s, by simp, fun b hb ↦ ?_, fun hpairwise ↦ ?_⟩
          · rcases List.mem_cons.mp hb with rfl | hb
            · exact ⟨b, List.mem_cons_self .., rfl⟩
            · by_cases hba : sameKey caseSensitive b = sameKey caseSensitive a
              · exact ⟨a, List.mem_cons_self .., hba.symm⟩
              · obtain ⟨c, hc, hcb⟩ := hcover b (mem_kept_of_skim hskim hb (by simpa using hba))
                exact ⟨c, List.mem_cons_of_mem a hc, hcb⟩
          · obtain ⟨hfirst, hrest⟩ := List.pairwise_cons.mp hpairwise
            have hkept : ∀ b ∈ kept,
                decide (sameKey caseSensitive b = sameKey caseSensitive a) ≠ true := fun b hb ↦ by
              obtain ⟨c, hc, hcb⟩ := hcover b hb
              have hne := hfirst c hc
              simpa [← hcb, eq_comm] using hne
            have hunskipped := unskipped_of_skim hskim hkept
            refine .cons hunskipped ?_
            have hfilter := skim_eq_filter hunskipped
            rw [hskim] at hfilter
            obtain ⟨rfl, -⟩ := Prod.mk.inj (Option.some.inj hfilter)
            simpa using hnone hrest

/-- `strListDedupe` does what it should just where in no pass an equal string is stepped over or
the last one. -/
theorem strListDedupe_iff (list : List StrPtr) (caseSensitive : Bool) :
    Deduped caseSensitive list (strListDedupe list caseSensitive) ↔
      NoneSkipped (sameKey caseSensitive) list := by
  have hdiffer : ∀ a b : StrPtr, sameString caseSensitive a b = false ↔
      sameKey caseSensitive a ≠ sameKey caseSensitive b := fun a b ↦ by
    simp [sameString_eq, eq_comm]
  constructor
  · rintro ⟨left, freed, hrun, hdistinct, -, -⟩
    obtain ⟨s, rfl, -, hnone⟩ := noneSkipped_of_dedupeOuter _ [] list [] hrun
    exact hnone (hdistinct.imp fun h ↦ (hdiffer _ _).mp h)
  · intro h
    obtain ⟨removed, hrun, hperm⟩ :=
      dedupeOuter_of_noneSkipped h _ [] [] (Nat.lt_succ_self _)
    have hdistinct : (firsts (sameKey caseSensitive) list).Pairwise
        fun a b ↦ sameString caseSensitive a b = false :=
      (pairwise_firsts list).imp fun {a b} h ↦ (hdiffer a b).mpr h
    exact ⟨_, _, hrun, hdistinct, rfl, hperm⟩

/-! ## Comparing lists -/

/-- The bytes of a string as `strcmp` compares them. -/
def bytes (s : Str) : List ℕ := s.map UInt8.toNat

/-- `strcmp`, of which only the sign counts. -/
def strcmp (a b : Str) : ℤ :=
  if bytes a < bytes b then -1 else if bytes b < bytes a then 1 else 0

/-- `strListSortAlphaCase` -/
def strListSortAlphaCase (list : List Str) : List Str := list.mergeSort fun a b ↦ strcmp a b ≤ 0

/-- Reading `list[i]`, which is null behind the last string and nothing at all behind that. -/
def readEntry (list : List Str) (i : ℕ) : Option (Option Str) :=
  if list.length < i then none else some list[i]?

/-- The loop of `strListCmp` and what follows it, with `l2` at the index `i` of the second list. -/
def cmpLoop (list2 : List Str) : List Str → ℕ → Option ℤ
  | [], i => (readEntry list2 (i + 1)).map fun entry ↦ if entry.isNone then 0 else -1
  | s :: l1, i =>
      match readEntry list2 (i + 1) with
      | none => none
      | some none => some 1
      | some (some t) => if strcmp s t ≠ 0 then some (strcmp s t) else cmpLoop list2 l1 (i + 1)

def strListCmp (list1 list2 : List Str) : Option ℤ :=
  match list1, list2 with
  | [], [] => some 0
  | [], _ :: _ => some (-1)
  | _ :: _, [] => some 1
  | _ :: _, _ :: _ => cmpLoop (strListSortAlphaCase list2) (strListSortAlphaCase list1) 0

/-- The comparison of the lists is zero for the same strings and turns with its arguments. -/
def Compares (a b : List Str) : Prop :=
  ∃ r r', strListCmp a b = some r ∧ strListCmp b a = some r' ∧
    (r = 0 ↔ a.Perm b) ∧ (0 < r ↔ r' < 0)

/-- The texts of a list, which are ordered entry by entry. -/
def texts (list : List Str) : List (List ℕ) := list.map bytes

theorem bytes_injective : Function.Injective bytes :=
  List.map_injective_iff.mpr fun _ _ h ↦ UInt8.toNat_inj.mp h

theorem texts_injective : Function.Injective texts := List.map_injective_iff.mpr bytes_injective

theorem strcmp_le_iff (a b : Str) : strcmp a b ≤ 0 ↔ bytes a ≤ bytes b := by
  rw [strcmp]
  split
  case isTrue h => simp [h.le]
  case isFalse h =>
    split
    case isTrue h' => simp [h']
    case isFalse h' => simp [not_lt.mp h']

/-- What the loop computes from the rest of the second list. -/
def lexSign : List Str → List Str → ℤ
  | [], [] => 0
  | [], _ :: _ => -1
  | _ :: _, [] => 1
  | s :: a, t :: b => if strcmp s t ≠ 0 then strcmp s t else lexSign a b

theorem cmpLoop_eq {list2 : List Str} (l1 : List Str) {i : ℕ} (hi : i < list2.length) :
    cmpLoop list2 l1 i = some (lexSign l1 (list2.drop (i + 1))) := by
  have hread : readEntry list2 (i + 1) = some (list2.drop (i + 1)).head? := by
    rw [readEntry, if_neg (by omega), List.head?_drop]
  induction l1 generalizing i with
  | nil =>
      rw [cmpLoop, hread]
      cases list2.drop (i + 1) <;> rfl
  | cons s l1 ih =>
      rw [cmpLoop, hread]
      cases hrest : list2.drop (i + 1) with
      | nil => rfl
      | cons t rest =>
          have hlt : i + 1 < list2.length := by
            have hne : list2.drop (i + 1) ≠ [] := by simp [hrest]
            simpa using hne
          have htail : list2.drop (i + 1 + 1) = rest := by
            rw [← List.drop_drop, hrest]
            rfl
          have hnext := ih hlt (by rw [readEntry, if_neg (by omega), List.head?_drop])
          rw [htail] at hnext
          simp only [List.head?_cons, lexSign, hnext]
          split <;> rfl

/-- The sign is that of the order of the texts. -/
theorem lexSign_eq (a b : List Str) :
    lexSign a b = if texts a < texts b then -1 else if texts b < texts a then 1 else 0 := by
  induction a generalizing b with
  | nil =>
      cases b with
      | nil => simp [lexSign, texts]
      | cons t b => simp [lexSign, texts]
  | cons s a ih =>
      cases b with
      | nil => simp [lexSign, texts]
      | cons t b =>
          rw [lexSign, ih, strcmp]
          simp only [texts, List.map_cons, List.cons_lt_cons_iff]
          rcases lt_trichotomy (bytes s) (bytes t) with h | h | h
          · simp [h]
          · simp only [h, lt_irrefl, if_false, ne_eq, not_true_eq_false, false_or, true_and]
            congr
          · simp [h, h.asymm, h.ne']

theorem lexSign_eq_zero_iff (a b : List Str) : lexSign a b = 0 ↔ a = b := by
  rw [lexSign_eq, ← texts_injective.eq_iff]
  rcases lt_trichotomy (texts a) (texts b) with h | h | h
  · simp [h, h.ne]
  · simp [h]
  · simp [h, h.asymm, h.ne']

theorem lexSign_pos_iff (a b : List Str) : 0 < lexSign a b ↔ texts b < texts a := by
  rw [lexSign_eq]
  rcases lt_trichotomy (texts a) (texts b) with h | h | h
  · simp [h, h.asymm]
  · simp [h]
  · simp [h, h.asymm]

theorem lexSign_neg_iff (a b : List Str) : lexSign a b < 0 ↔ texts a < texts b := by
  rw [lexSign_eq]
  rcases lt_trichotomy (texts a) (texts b) with h | h | h
  · simp [h]
  · simp [h]
  · simp [h, h.asymm]

theorem strListSortAlphaCase_perm (list : List Str) : (strListSortAlphaCase list).Perm list :=
  List.mergeSort_perm _ _

theorem pairwise_strListSortAlphaCase (list : List Str) :
    (strListSortAlphaCase list).Pairwise fun a b ↦ bytes a ≤ bytes b := by
  have hsorted : (strListSortAlphaCase list).Pairwise
      fun a b ↦ decide (strcmp a b ≤ 0) = true := by
    apply List.pairwise_mergeSort
    · intro a b c hab hbc
      simp only [decide_eq_true_eq, strcmp_le_iff] at hab hbc ⊢
      exact hab.trans hbc
    · intro a b
      simp only [Bool.or_eq_true, decide_eq_true_eq, strcmp_le_iff]
      exact le_total _ _
  exact hsorted.imp fun h ↦ (strcmp_le_iff _ _).mp (of_decide_eq_true h)

/-- Lists of the same strings are sorted to the same list. -/
theorem strListSortAlphaCase_eq_iff (a b : List Str) :
    strListSortAlphaCase a = strListSortAlphaCase b ↔ a.Perm b := by
  constructor
  · intro h
    exact (strListSortAlphaCase_perm a).symm.trans (h ▸ strListSortAlphaCase_perm b)
  · intro h
    refine List.Perm.eq_of_pairwise (fun x y _ _ hxy hyx ↦ bytes_injective (le_antisymm hxy hyx))
      (pairwise_strListSortAlphaCase a) (pairwise_strListSortAlphaCase b) ?_
    exact (strListSortAlphaCase_perm a).trans (h.trans (strListSortAlphaCase_perm b).symm)

/-- `strListCmp` compares the first sorted list with the second without its first entry. -/
theorem strListCmp_of_ne_nil {a b : List Str} (ha : a ≠ []) (hb : b ≠ []) :
    strListCmp a b =
      some (lexSign (strListSortAlphaCase a) (strListSortAlphaCase b).tail) := by
  obtain ⟨s, a, rfl⟩ := List.exists_cons_of_ne_nil ha
  obtain ⟨t, b, rfl⟩ := List.exists_cons_of_ne_nil hb
  have hlen := (strListSortAlphaCase_perm (t :: b)).length_eq
  rw [strListCmp, cmpLoop_eq _ (by simp [hlen]), List.drop_one]

/-- The comparison is right for an empty list; and for two other lists just if they do not hold
the same strings and their order does not depend on which of them loses its first entry. -/
theorem compares_iff (a b : List Str) :
    Compares a b ↔ a = [] ∨ b = [] ∨
      (¬ a.Perm b ∧ strListSortAlphaCase a ≠ (strListSortAlphaCase b).tail ∧
        (texts (strListSortAlphaCase b).tail < texts (strListSortAlphaCase a) ↔
          texts (strListSortAlphaCase b) < texts (strListSortAlphaCase a).tail)) := by
  by_cases ha : a = []
  · refine iff_of_true ?_ (.inl ha)
    subst ha
    cases b with
    | nil => exact ⟨0, 0, rfl, rfl, by simp, by simp⟩
    | cons t b => exact ⟨-1, 1, rfl, rfl, by simp, by simp⟩
  · by_cases hb : b = []
    · refine iff_of_true ?_ (.inr (.inl hb))
      subst hb
      obtain ⟨s, a, rfl⟩ := List.exists_cons_of_ne_nil ha
      exact ⟨1, -1, rfl, rfl, by simp, by simp⟩
    · have hrun := strListCmp_of_ne_nil ha hb
      have hrun' := strListCmp_of_ne_nil hb ha
      have htail : strListSortAlphaCase a = strListSortAlphaCase b →
          strListSortAlphaCase a ≠ (strListSortAlphaCase b).tail := fun heq htail ↦ by
        have hpos := List.length_pos_iff.mpr hb
        have hlen := congrArg List.length htail
        rw [heq, List.length_tail, (strListSortAlphaCase_perm b).length_eq] at hlen
        omega
      rw [or_iff_right ha, or_iff_right hb]
      constructor
      · rintro ⟨r, r', hr, hr', hzero, hturn⟩
        obtain rfl := Option.some.inj (hrun.symm.trans hr)
        obtain rfl := Option.some.inj (hrun'.symm.trans hr')
        rw [lexSign_eq_zero_iff, ← strListSortAlphaCase_eq_iff] at hzero
        rw [lexSign_pos_iff, lexSign_neg_iff] at hturn
        rw [← strListSortAlphaCase_eq_iff]
        exact ⟨fun heq ↦ htail heq (hzero.mpr heq), fun heq ↦ htail (hzero.mp heq) heq, hturn⟩
      · rintro ⟨hdiffer, hne, hturn⟩
        refine ⟨_, _, hrun, hrun', iff_of_false ?_ hdiffer, ?_⟩
        · rwa [lexSign_eq_zero_iff]
        · rwa [lexSign_pos_iff, lexSign_neg_iff]

end Synchronet.Xpdev
