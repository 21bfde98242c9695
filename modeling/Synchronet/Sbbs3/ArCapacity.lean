import Synchronet.Sbbs3.ArStr

/-!
# The buffer of arstr (ars.c)

Nothing in `arstr` compares `j` with the size of `ar`.  What a round of its loop writes does not
depend on what is in the buffer already, so that the bytes of a requirement can be counted with an
empty buffer for every round.
-/

namespace Synchronet.Sbbs3

open Xpdev (Str isdigit)

/-! ## Rounds behind other bytes -/

/-- The same with other bytes in front. -/
def ArState.behind (pre : List UInt8) (st : ArState) : ArState := { st with ar := pre ++ st.ar }

/-- What an operation does behind other bytes is what it does without them, as long as there is
room, and nothing is taken away that was there. -/
structure Framed (pre : List UInt8) (f : ArState → Option ArState) : Prop where
  without : ∀ st st', f (st.behind pre) = some st' → ∃ r, f st = some r ∧ st' = r.behind pre
  behind : ∀ st r, f st = some r → pre.length + r.ar.length < sizeofAr →
    f (st.behind pre) = some (r.behind pre)
  grows : ∀ st r, f st = some r → st.ar.length ≤ r.ar.length

variable {pre bytes : List UInt8} {f g : ArState → Option ArState} {st r : ArState}
  {cfg : ArConfig} {artype c : UInt8} {s : Str}

theorem put_eq_some (h : st.put bytes = some r) :
    st.ar.length + bytes.length ≤ sizeofAr ∧ r = { st with ar := st.ar ++ bytes } := by
  rw [ArState.put] at h
  split at h
  · next hle => exact ⟨hle, (Option.some.inj h).symm⟩
  · cases h

theorem put_of_le (h : st.ar.length + bytes.length ≤ sizeofAr) :
    st.put bytes = some { st with ar := st.ar ++ bytes } := if_pos h

theorem framed_put (pre bytes : List UInt8) : Framed pre fun st ↦ st.put bytes := by
  constructor
  · intro st st' h
    obtain ⟨hle, rfl⟩ := put_eq_some h
    simp only [ArState.behind, List.length_append] at hle
    exact ⟨_, put_of_le (by omega), by simp [ArState.behind]⟩
  · intro st r h hroom
    obtain ⟨-, rfl⟩ := put_eq_some h
    simp only [List.length_append] at hroom
    rw [put_of_le (by simp only [ArState.behind, List.length_append]; omega)]
    simp [ArState.behind]
  · intro st r h
    obtain ⟨-, rfl⟩ := put_eq_some h
    simp

theorem framed_bind (hf : Framed pre f) (hg : Framed pre g) :
    Framed pre fun st ↦ (f st).bind g := by
  constructor
  · intro st st' h
    obtain ⟨st₁, h₁, h₂⟩ := Option.bind_eq_some_iff.mp h
    obtain ⟨r₁, hr₁, rfl⟩ := hf.without st st₁ h₁
    obtain ⟨r₂, hr₂, rfl⟩ := hg.without r₁ st' h₂
    exact ⟨r₂, by rw [hr₁]; exact hr₂, rfl⟩
  · intro st r h hroom
    obtain ⟨r₁, h₁, h₂⟩ := Option.bind_eq_some_iff.mp h
    have hle := hg.grows r₁ r h₂
    rw [hf.behind st r₁ h₁ (by omega)]
    exact hg.behind r₁ r h₂ hroom
  · intro st r h
    obtain ⟨r₁, h₁, h₂⟩ := Option.bind_eq_some_iff.mp h
    exact (hf.grows st r₁ h₁).trans (hg.grows r₁ r h₂)

/-- A change of what the loop remembers. -/
theorem framed_some {u : ArState → ArState} (hbehind : ∀ st, u (st.behind pre) = (u st).behind pre)
    (har : ∀ st, (u st).ar = st.ar) : Framed pre fun st ↦ some (u st) := by
  constructor
  · intro st st' h
    exact ⟨u st, rfl, by rw [← Option.some.inj h, hbehind]⟩
  · intro st r h _
    rw [← Option.some.inj h, hbehind]
  · intro st r h
    rw [← Option.some.inj h, har]

/-- A choice by what the loop remembers. -/
theorem framed_ite {p : ArState → Bool} (hp : ∀ st, p (st.behind pre) = p st) (hf : Framed pre f)
    (hg : Framed pre g) : Framed pre fun st ↦ if p st then f st else g st := by
  constructor
  · intro st st' h
    rw [hp] at h
    split at h
    · next hyes =>
      rw [if_pos hyes]
      exact hf.without st st' h
    · next hno =>
      rw [if_neg hno]
      exact hg.without st st' h
  · intro st r h hroom
    rw [hp]
    split at h
    · next hyes =>
      rw [if_pos hyes]
      exact hf.behind st r h hroom
    · next hno =>
      rw [if_neg hno]
      exact hg.behind st r h hroom
  · intro st r h
    split at h
    · exact hf.grows st r h
    · exact hg.grows st r h

theorem framed_id (pre : List UInt8) : Framed pre fun st ↦ some st :=
  framed_some (fun _ ↦ rfl) fun _ ↦ rfl

theorem framed_putNot (pre : List UInt8) : Framed pre ArState.putNot :=
  framed_ite (fun _ ↦ rfl)
    (framed_bind (f := fun st ↦ some { st with not := false })
      (framed_some (fun _ ↦ rfl) fun _ ↦ rfl) (framed_put pre [arNot])) (framed_id pre)

theorem framed_putEqual (pre : List UInt8) : Framed pre ArState.putEqual :=
  framed_ite (fun _ ↦ rfl)
    (framed_bind (f := fun st ↦ some { st with equal := false })
      (framed_some (fun _ ↦ rfl) fun _ ↦ rfl) (framed_put pre [arEqual]))
    (framed_some (fun _ ↦ rfl) fun _ ↦ rfl)

theorem framed_putAtom (pre : List UInt8) (artype : UInt8) :
    Framed pre fun st ↦ st.putAtom artype :=
  framed_bind (framed_putNot pre) (framed_bind (framed_put pre [artype])
    (framed_some (u := fun st ↦ { st with artype := none, argExpected := false }) (fun _ ↦ rfl)
      fun _ ↦ rfl))

theorem framed_keyword (pre : List UInt8) (artype : UInt8) :
    Framed pre fun st ↦ st.keyword artype := by
  have hbool := framed_putAtom pre artype
  have hother : Framed pre fun st ↦ some { st with artype := some artype, argExpected := true } :=
    framed_some (fun _ ↦ rfl) fun _ ↦ rfl
  exact framed_ite (p := fun _ ↦ arBoolean artype) (fun _ ↦ rfl) hbool hother

/-- A code with its argument: without an argument it is taken back. -/
theorem framed_code (pre : List UInt8) (artype : UInt8) (arg : Option (List UInt8)) :
    Framed pre fun st ↦ (st.put [artype]).bind fun st ↦ st.putArg arg := by
  cases arg with
  | some bytes => exact framed_bind (framed_put pre [artype]) (framed_put pre bytes)
  | none =>
      have hpop : ∀ st : ArState, st.ar.length + 1 ≤ sizeofAr →
          ((st.put [artype]).bind fun st ↦ st.putArg none) = some st := by
        intro st h
        rw [put_of_le h, Option.bind_some, ArState.putArg, List.dropLast_concat]
      have hroom : ∀ st r : ArState, ((st.put [artype]).bind fun st ↦ st.putArg none) = some r →
          st.ar.length + 1 ≤ sizeofAr ∧ r = st := by
        intro st r h
        obtain ⟨st₁, h₁, -⟩ := Option.bind_eq_some_iff.mp h
        have hle := (put_eq_some h₁).1
        exact ⟨hle, (Option.some.inj ((hpop st hle).symm.trans h)).symm⟩
      constructor
      · intro st st' h
        obtain ⟨hle, rfl⟩ := hroom _ _ h
        rw [ArState.behind, List.length_append] at hle
        exact ⟨st, hpop st (by omega), rfl⟩
      · intro st r h hlt
        obtain ⟨-, rfl⟩ := hroom st r h
        apply hpop
        rw [ArState.behind, List.length_append]
        omega
      · intro st r h
        obtain ⟨-, rfl⟩ := hroom st r h
        exact le_refl _

/-! ## Rounds -/

/-- The same for a round, which also says what is left of the source. -/
structure FramedRound (pre : List UInt8) (f : ArState → Option (Str × ArState)) : Prop where
  without : ∀ st rest st', f (st.behind pre) = some (rest, st') →
    ∃ r, f st = some (rest, r) ∧ st' = r.behind pre
  behind : ∀ st rest r, f st = some (rest, r) → pre.length + r.ar.length < sizeofAr →
    f (st.behind pre) = some (rest, r.behind pre)
  grows : ∀ st rest r, f st = some (rest, r) → st.ar.length ≤ r.ar.length

variable {α : Type} {rest : Str} {F : ArState → Option (Str × ArState)}

theorem framedRound_map (hf : Framed pre f) (rest : Str) :
    FramedRound pre fun st ↦ (f st).map fun st ↦ (rest, st) := by
  constructor
  · intro st rest' st' h
    obtain ⟨st₁, h₁, heq⟩ := Option.map_eq_some_iff.mp h
    obtain ⟨rfl, rfl⟩ := Prod.mk.inj heq
    obtain ⟨r, hr, rfl⟩ := hf.without st st₁ h₁
    exact ⟨r, by rw [hr]; rfl, rfl⟩
  · intro st rest' r h hroom
    obtain ⟨r₁, h₁, heq⟩ := Option.map_eq_some_iff.mp h
    obtain ⟨rfl, rfl⟩ := Prod.mk.inj heq
    rw [hf.behind st r₁ h₁ hroom]
    rfl
  · intro st rest' r h
    obtain ⟨r₁, h₁, heq⟩ := Option.map_eq_some_iff.mp h
    obtain ⟨rfl, rfl⟩ := Prod.mk.inj heq
    exact hf.grows st r₁ h₁

theorem framedRound_bind (hf : Framed pre f) (hF : FramedRound pre F) :
    FramedRound pre fun st ↦ (f st).bind F := by
  constructor
  · intro st rest st' h
    obtain ⟨st₁, h₁, h₂⟩ := Option.bind_eq_some_iff.mp h
    obtain ⟨r₁, hr₁, rfl⟩ := hf.without st st₁ h₁
    obtain ⟨r₂, hr₂, rfl⟩ := hF.without r₁ rest st' h₂
    exact ⟨r₂, by rw [hr₁]; exact hr₂, rfl⟩
  · intro st rest r h hroom
    obtain ⟨r₁, h₁, h₂⟩ := Option.bind_eq_some_iff.mp h
    have hle := hF.grows r₁ rest r h₂
    rw [hf.behind st r₁ h₁ (by omega)]
    exact hF.behind r₁ rest r h₂ hroom
  · intro st rest r h
    obtain ⟨r₁, h₁, h₂⟩ := Option.bind_eq_some_iff.mp h
    exact (hf.grows st r₁ h₁).trans (hF.grows r₁ rest r h₂)

/-- A round that depends on what the loop remembers. -/
theorem framedRound_of_key (key : ArState → α) {F : α → ArState → Option (Str × ArState)}
    (hkey : ∀ st, key (st.behind pre) = key st) (hF : ∀ a, FramedRound pre (F a)) :
    FramedRound pre fun st ↦ F (key st) st := by
  constructor
  · intro st rest st' h
    rw [hkey] at h
    exact (hF (key st)).without st rest st' h
  · intro st rest r h hroom
    rw [hkey]
    exact (hF (key st)).behind st rest r h hroom
  · intro st rest r h
    exact (hF (key st)).grows st rest r h

theorem framedRound_none (pre : List UInt8) : FramedRound pre fun _ ↦ none :=
  ⟨fun _ _ _ h ↦ (nomatch h), fun _ _ _ h ↦ (nomatch h), fun _ _ _ h ↦ (nomatch h)⟩

/-- The loop remembers something else, and goes on. -/
theorem framedRound_some {u : ArState → ArState}
    (hbehind : ∀ st, u (st.behind pre) = (u st).behind pre) (har : ∀ st, (u st).ar = st.ar)
    (rest : Str) : FramedRound pre fun st ↦ some (rest, u st) :=
  framedRound_map (framed_some hbehind har) rest

/-- The longest argument is a string of 128 characters with its zero. -/
def maxArgument : ℕ := 129

theorem length_numberBytes {n : UInt32} (h : bytes ∈ numberBytes artype n) :
    bytes.length ≤ maxArgument := by
  have hshort : ∀ k : UInt32, (shortBytes k).length ≤ maxArgument := fun k ↦ by
    rw [shortBytes, LittleEndian.length_le]
    decide
  rw [numberBytes.eq_def] at h
  have hbyte : ∀ b : UInt8, [b].length ≤ maxArgument := fun _ ↦ by simp [maxArgument]
  split at h
  case h_29 => cases h
  all_goals
    obtain rfl := Option.some.inj h
    first
      | exact hbyte _
      | exact hshort _

theorem length_areaBytes {codes : List Str} (h : bytes ∈ areaBytes codes s) :
    bytes.length ≤ maxArgument := by
  obtain ⟨n, -, rfl⟩ := Option.map_eq_some_iff.mp h
  rw [shortBytes, LittleEndian.length_le]
  decide

theorem length_stringAt (artype : UInt8) (s : Str) :
    (stringAt (maxlenOf artype) s).length ≤ 128 := by
  have hle : (stringAt (maxlenOf artype) s).length ≤ maxlenOf artype :=
    (List.takeWhile_prefix _).length_le.trans (List.length_take_le _ _)
  rw [maxlenOf] at hle ⊢
  split at hle
  · next h =>
    rw [if_pos h]
    omega
  · next h =>
    rw [if_neg h]
    exact hle

/-- An argument, or none, and what is left does not depend on the state. -/
theorem exists_arArgument (cfg : ArConfig) (artype c : UInt8) (s : Str) :
    ∃ arg rest, (∀ bytes ∈ arg, bytes.length ≤ maxArgument) ∧ ∀ st : ArState,
      arArgument cfg st artype c s = (st.putArg arg).map fun st ↦ (rest, st) := by
  have hsome : ∀ bytes : List UInt8, bytes.length ≤ maxArgument →
      ∀ b ∈ some bytes, b.length ≤ maxArgument := by
    intro bytes hle b hb
    obtain rfl := Option.mem_some_iff.mp hb
    exact hle
  simp only [arArgument]
  split
  · split
    · exact ⟨some _, _, hsome _ (by rw [shortBytes, LittleEndian.length_le]; decide),
        fun st ↦ rfl⟩
    · exact ⟨_, _, fun b hb ↦ length_numberBytes hb, fun st ↦ rfl⟩
  · split
    · have hstr := length_stringAt artype (c :: s)
      refine ⟨some _, _, hsome _ ?_, fun st ↦ rfl⟩
      rw [List.length_append, List.length_map, maxArgument]
      exact Nat.succ_le_succ hstr
    · split
      · exact ⟨some _, _, hsome _ (by simp [maxArgument]), fun st ↦ rfl⟩
      · split
        · exact ⟨_, _, fun b hb ↦ length_areaBytes hb, fun st ↦ rfl⟩
        · split
          · exact ⟨_, _, fun b hb ↦ length_areaBytes hb, fun st ↦ rfl⟩
          · split
            · exact ⟨some _, _, hsome _ (by simp [maxArgument]), fun st ↦ rfl⟩
            · exact ⟨none, _, by simp, fun st ↦ rfl⟩

theorem framedRound_argument (pre : List UInt8) (cfg : ArConfig) (artype c : UInt8) (s : Str) :
    FramedRound pre fun st ↦
      (({ st with artype := some artype, argExpected := false } : ArState).put [artype]).bind
        fun st ↦ arArgument cfg st artype c s := by
  obtain ⟨arg, rest, -, harg⟩ := exists_arArgument cfg artype c s
  have hcode := framedRound_map (framed_bind
    (f := fun st ↦ some { st with artype := some artype, argExpected := false })
    (framed_some (fun _ ↦ rfl) fun _ ↦ rfl) (framed_code pre artype arg)) rest
  refine cast ?_ hcode
  congr 1
  funext st
  simp only [harg, Option.bind_some, Option.map_bind]
  rfl

theorem framedRound_operator (pre : List UInt8) (cfg : ArConfig) (c : UInt8) (s : Str) :
    FramedRound pre fun st ↦ arOperator cfg st c s := by
  have hkey : FramedRound pre fun st ↦
      if (st.artype = some arFlag1 && isdigit c) = true then
        some (s, { st with artype := some (flagType c) })
      else (({ st with artype := some (argType st.artype c), argExpected := false } : ArState).put
        [argType st.artype c]).bind fun st' ↦ arArgument cfg st' (argType st.artype c) c s := by
    refine framedRound_of_key ArState.artype (F := fun a st ↦
      if (a = some arFlag1 && isdigit c) = true then
        some (s, { st with artype := some (flagType c) })
      else (({ st with artype := some (argType a c), argExpected := false } : ArState).put
        [argType a c]).bind fun st' ↦ arArgument cfg st' (argType a c) c s) (fun _ ↦ rfl) fun a ↦ ?_
    by_cases hflag : (a = some arFlag1 && isdigit c) = true
    · simp only [hflag, if_true]
      exact framedRound_some (by intro; rfl) (by intro; rfl) s
    · simp only [hflag]
      exact framedRound_argument pre cfg (argType a c) c s
  exact framedRound_bind (framed_putNot pre) (framedRound_bind (framed_putEqual pre) hkey)

theorem framedRound_dollar (pre : List UInt8) (s : Str) :
    FramedRound pre fun st ↦ arDollar st s := by
  cases s with
  | nil => exact framedRound_none pre
  | cons ch s =>
      simp only [arDollar]
      split
      · exact framedRound_some (by intro; rfl) (by intro; rfl) s
      · split
        · exact framedRound_map (framed_putAtom pre _) s
        · exact framedRound_some (by intro; rfl) (by intro; rfl) s

theorem framedRound_keyword (pre : List UInt8) (cfg : ArConfig) (c : UInt8) (s : Str) :
    FramedRound pre fun st ↦ arKeywordRound cfg st c s := by
  by_cases hc : c = 36
  · simp only [arKeywordRound, hc, if_true]
    exact framedRound_dollar pre s
  · have hkey : FramedRound pre _ := framedRound_of_key ArState.argExpected (F := fun a st ↦
      (if !a && isalpha c then arKeyword (c :: s) else none).elim (arOperator cfg st c s)
        fun found ↦ (st.keyword found.2).map fun st ↦ (s.drop (found.1 - 1), st))
      (fun _ ↦ rfl) fun a ↦ by
        cases if !a && isalpha c then arKeyword (c :: s) else none with
        | none => exact framedRound_operator pre cfg c s
        | some found => exact framedRound_map (framed_keyword pre found.2) _
    refine cast (congrArg (FramedRound pre) (funext fun st ↦ ?_)) hkey
    rw [arKeywordRound, if_neg hc]
    cases if !st.argExpected && isalpha c then arKeyword (c :: s) else none <;> rfl

theorem framedRound_word (pre : List UInt8) (cfg : ArConfig) (c : UInt8) (s : Str) :
    FramedRound pre fun st ↦ arWordRound cfg st c s := by
  simp only [arWordRound]
  split
  · exact framedRound_map (framed_put pre [arOr]) _
  · split
    · exact framedRound_some (by intro; rfl) (by intro; rfl) _
    · split
      · exact framedRound_some (by intro; rfl) (by intro; rfl) _
      · refine framedRound_of_key ArState.equal (F := fun a st ↦
          if (a && isWord (c :: s) [84, 79]) = true then some (s.drop 1, st)
          else if isWord (c :: s) [69, 81, 85, 65, 76] = true then
            some (s.drop 4, { st with equal := true })
          else if isWord (c :: s) [69, 81, 85, 65, 76, 83] = true then
            some (s.drop 5, { st with equal := true })
          else arKeywordRound cfg st c s) (fun _ ↦ rfl) fun a ↦ ?_
        split
        · exact framedRound_some (by intro; rfl) (by intro; rfl) _
        · split
          · exact framedRound_some (by intro; rfl) (by intro; rfl) _
          · split
            · exact framedRound_some (by intro; rfl) (by intro; rfl) _
            · exact framedRound_keyword pre cfg c s

/-- A round writes behind other bytes what it writes without them. -/
theorem framedRound (pre : List UInt8) (cfg : ArConfig) (c : UInt8) (s : Str) :
    FramedRound pre fun st ↦ arRound cfg st c s := by
  simp only [arRound]
  split
  · exact framedRound_some (by intro; rfl) (by intro; rfl) s
  split
  · have hnest := framedRound_map (framed_bind
      (f := fun st ↦ some { st with equal := false }) (framed_some (fun _ ↦ rfl) fun _ ↦ rfl)
      (framed_put pre [arBegnest])) s
    simp only [Option.map_eq_bind] at hnest
    exact framedRound_bind (framed_putNot pre) hnest
  split
  · exact framedRound_map (framed_put pre [arEndnest]) s
  split
  · exact framedRound_map (framed_put pre [arOr]) s
  split
  · exact framedRound_some (by intro; rfl) (by intro; rfl) s
  split
  · exact framedRound_some (by intro; rfl) (by intro; rfl) s
  split
  · exact framedRound_some (by intro; rfl) (by intro; rfl) s
  · exact framedRound_word pre cfg c s

/-! ## A round on its own -/

/-- An operation that adds at most `k` bytes to a buffer with room for them. -/
def Fits (k : ℕ) (f : ArState → Option ArState) : Prop :=
  ∀ st, st.ar.length + k ≤ sizeofAr → ∃ r, f st = some r ∧ r.ar.length ≤ st.ar.length + k

variable {k l : ℕ}

theorem fits_put (bytes : List UInt8) : Fits bytes.length fun st ↦ st.put bytes :=
  fun st h ↦ ⟨_, put_of_le h, by simp⟩

theorem fits_some {u : ArState → ArState} (har : ∀ st, (u st).ar = st.ar) :
    Fits 0 fun st ↦ some (u st) :=
  fun st _ ↦ ⟨u st, rfl, by rw [har]; exact Nat.le_refl _⟩

theorem fits_bind (hf : Fits k f) (hg : Fits l g) : Fits (k + l) fun st ↦ (f st).bind g := by
  intro st h
  obtain ⟨r₁, h₁, hle₁⟩ := hf st (by omega)
  obtain ⟨r₂, h₂, hle₂⟩ := hg r₁ (by omega)
  exact ⟨r₂, by simp only [h₁, Option.bind_some, h₂], by omega⟩

theorem fits_mono (hf : Fits k f) (h : k ≤ l) : Fits l f := by
  intro st hroom
  obtain ⟨r, hr, hle⟩ := hf st (by omega)
  exact ⟨r, hr, by omega⟩

theorem fits_ite {p : ArState → Bool} (hf : Fits k f) (hg : Fits k g) :
    Fits k fun st ↦ if p st then f st else g st := by
  intro st h
  by_cases hp : p st = true
  · simpa [hp] using hf st h
  · simpa [hp] using hg st h

theorem fits_putNot : Fits 1 ArState.putNot :=
  fits_ite (fits_bind (f := fun st ↦ some { st with not := false }) (fits_some fun _ ↦ rfl)
    (fits_put [arNot])) (fits_mono (fits_some fun _ ↦ rfl) (Nat.zero_le 1))

theorem fits_putEqual : Fits 1 ArState.putEqual :=
  fits_ite (fits_bind (f := fun st ↦ some { st with equal := false }) (fits_some fun _ ↦ rfl)
    (fits_put [arEqual])) (fits_mono (fits_some fun _ ↦ rfl) (Nat.zero_le 1))

theorem fits_putAtom (artype : UInt8) : Fits 2 fun st ↦ st.putAtom artype :=
  fits_bind fits_putNot (fits_bind (fits_put [artype])
    (fits_some (u := fun st ↦ { st with artype := none, argExpected := false }) fun _ ↦ rfl))

theorem fits_keyword (artype : UInt8) : Fits 2 fun st ↦ st.keyword artype := by
  have hother : Fits 2 fun st ↦ some { st with artype := some artype, argExpected := true } :=
    fits_mono (fits_some fun _ ↦ rfl) (Nat.zero_le 2)
  exact fits_ite (p := fun _ ↦ arBoolean artype) (fits_putAtom artype) hother

theorem fits_putArg {arg : Option (List UInt8)} (harg : ∀ bytes ∈ arg, bytes.length ≤ k) :
    Fits k fun st ↦ st.putArg arg := by
  cases arg with
  | some bytes => exact fits_mono (fits_put bytes) (harg bytes rfl)
  | none =>
      intro st _
      refine ⟨_, rfl, ?_⟩
      simp only [List.length_dropLast]
      omega

/-- The bytes that a round writes at most: NOT, EQUAL, a code and its argument. -/
def maxRound : ℕ := 3 + maxArgument

theorem isSome_operator (cfg : ArConfig) (c : UInt8) (s : Str)
    (hroom : st.ar.length + maxRound ≤ sizeofAr) : (arOperator cfg st c s).isSome := by
  obtain ⟨st₁, h₁, hle₁⟩ := fits_putNot st (by rw [maxRound] at hroom; omega)
  obtain ⟨st₂, h₂, hle₂⟩ := fits_putEqual st₁ (by rw [maxRound] at hroom; omega)
  simp only [arOperator, Option.bind_eq_bind, h₁, h₂, Option.bind_some]
  split
  · rfl
  · obtain ⟨arg, rest, hlen, harg⟩ := exists_arArgument cfg (argType st₂.artype c) c s
    have hput : ({ st₂ with
        artype := some (argType st₂.artype c), argExpected := false } : ArState).put
          [argType st₂.artype c] = some _ := put_of_le
      (by simp only [List.length_singleton]; rw [maxRound] at hroom; omega)
    obtain ⟨r, hr, -⟩ := fits_putArg hlen
      { st₂ with
        ar := st₂.ar ++ [argType st₂.artype c], artype := some (argType st₂.artype c),
        argExpected := false }
      (by simp only [List.length_append, List.length_singleton]; rw [maxRound] at hroom; omega)
    dsimp only at hr
    rw [hput, Option.bind_some, harg, hr]
    rfl

theorem isSome_dollar (hroom : st.ar.length + maxRound ≤ sizeofAr) :
    (arDollar st s).isSome ↔ s ≠ [] := by
  cases s with
  | nil => simp [arDollar]
  | cons ch s =>
      rw [arDollar]
      split
      · simp
      · split
        · next artype _ =>
          obtain ⟨r, hr, -⟩ := fits_putAtom artype st (by rw [maxRound] at hroom; omega)
          dsimp only at hr
          rw [hr]
          simp
        · simp

/-- A round that has room has a result, unless it reads on from a dollar sign at the end. -/
theorem arRound_isSome_iff (cfg : ArConfig) (c : UInt8) (s : Str)
    (hroom : st.ar.length + maxRound ≤ sizeofAr) :
    (arRound cfg st c s).isSome ↔ ¬(c = 36 ∧ s = []) := by
  have hput : ∀ (st : ArState) (b : UInt8), st.ar.length + 1 ≤ sizeofAr →
      ∃ r, st.put [b] = some r := fun st b h ↦ ⟨_, put_of_le h⟩
  have hone : st.ar.length + 1 ≤ sizeofAr := by
    rw [maxRound] at hroom
    omega
  rw [arRound]
  split
  · next h => simp [h]
  split
  · next h =>
    obtain ⟨st₁, h₁, hle⟩ := fits_putNot st hone
    obtain ⟨r, hr⟩ := hput { st₁ with equal := false } arBegnest (by
      rw [maxRound] at hroom
      dsimp only
      omega)
    simp [h, h₁, hr]
  split
  · next h =>
    obtain ⟨r, hr⟩ := hput st arEndnest hone
    simp [h, hr]
  split
  · next h =>
    obtain ⟨r, hr⟩ := hput st arOr hone
    simp [h, hr]
  iterate 3
    split
    · next h => simp [h]
  have hword : (arWordRound cfg st c s).isSome ↔ ¬(c = 36 ∧ s = []) := by
    have halpha : ∀ word : Str, word ≠ [] → isWord (c :: s) word = true → c ≠ 36 := by
      rintro word hne h rfl
      have hlen : (List.takeWhile isalpha (36 :: s)).length = word.length := by
        simp only [isWord, Bool.and_eq_true, decide_eq_true_eq] at h
        exact h.1
      rw [List.takeWhile_cons_of_neg (by decide)] at hlen
      exact hne (List.length_eq_zero_iff.mp hlen.symm)
    rw [arWordRound]
    split
    · next h =>
      obtain ⟨r, hr⟩ := hput st arOr hone
      simp [hr, halpha _ (by decide) h]
    iterate 2
      split
      · next h => simp [halpha _ (by decide) h]
    split
    · next h => simp [halpha _ (by decide) (Bool.and_eq_true_iff.mp h).2]
    iterate 2
      split
      · next h => simp [halpha _ (by decide) h]
    rw [arKeywordRound]
    split
    · next h => rw [isSome_dollar hroom]; simp [h]
    · next h =>
      refine iff_of_true ?_ fun hbad ↦ h hbad.1
      split
      · next length artype _ =>
        obtain ⟨r, hr, -⟩ := fits_keyword artype st (by rw [maxRound] at hroom; omega)
        dsimp only at hr
        rw [hr]
        rfl
      · exact isSome_operator cfg c s hroom
  exact hword


/-! ## The whole requirement -/

/-- The number of bytes of a requirement, each item with a buffer of its own. -/
def arBytes (cfg : ArConfig) (st : ArState) : Str → Option ℕ
  | [] => some 0
  | c :: s =>
      match _h : arRound cfg { st with ar := [] } c s with
      | none => none
      | some (rest, r) => (arBytes cfg r rest).map (r.ar.length + ·)
termination_by s => s.length
decreasing_by
  have hle := (arRound_suffix _h).length_le
  simp only [List.length_cons]
  omega

theorem arstrLoop_cons_eq_some_iff {st' : ArState} : arstrLoop cfg st (c :: s) = some st' ↔
    ∃ rest st₁, arRound cfg st c s = some (rest, st₁) ∧ arstrLoop cfg st₁ rest = some st' := by
  rw [arstrLoop]
  split
  · next h => simp [h]
  · next rest st₁ h => simp [h]

theorem arBytes_cons_eq_some_iff {n : ℕ} : arBytes cfg st (c :: s) = some n ↔
    ∃ rest r m, arRound cfg { st with ar := [] } c s = some (rest, r) ∧
      arBytes cfg r rest = some m ∧ r.ar.length + m = n := by
  rw [arBytes]
  split
  · next h => simp [h]
  · next rest r h => simp [h]

/-- Only a dollar sign at the end is read beyond. -/
theorem isSome_arBytes (cfg : ArConfig) (str : Str) (st : ArState) (h : str.getLast? ≠ some 36) :
    (arBytes cfg st str).isSome := by
  -- on the length of what is left
  induction hlen : str.length using Nat.strong_induction_on generalizing str st with
  | _ len ih =>
    cases str with
    | nil => rw [arBytes, Option.isSome_some]
    | cons c s =>
        have hround : (arRound cfg { st with ar := [] } c s).isSome := by
          have hroom : ([] : List UInt8).length + maxRound ≤ sizeofAr := by decide
          apply (arRound_isSome_iff cfg c s hroom).mpr
          rintro ⟨rfl, rfl⟩
          exact h rfl
        obtain ⟨⟨rest, r⟩, hr⟩ := Option.isSome_iff_exists.mp hround
        obtain ⟨front, rfl⟩ := arRound_suffix hr
        have hrest : rest.getLast? ≠ some 36 := by
          intro hlast
          apply h
          rw [← List.cons_append, List.getLast?_append, hlast, Option.some_or]
        simp only [List.length_cons, List.length_append] at hlen
        obtain ⟨m, hm⟩ := Option.isSome_iff_exists.mp
          (ih rest.length (by omega) rest r hrest rfl)
        exact Option.isSome_iff_exists.mpr
          ⟨_, arBytes_cons_eq_some_iff.mpr ⟨rest, r, m, hr, hm, rfl⟩⟩

/-- What has been written does not change what an item takes. -/
theorem arBytes_behind (cfg : ArConfig) (pre : List UInt8) (r : ArState) (s : Str) :
    arBytes cfg (r.behind pre) s = arBytes cfg r s := by
  cases s with
  | nil => rw [arBytes, arBytes]
  | cons c s =>
      apply Option.ext
      intro n
      rw [arBytes_cons_eq_some_iff, arBytes_cons_eq_some_iff]
      rfl

/-- The loop stays inside the buffer, with a byte to spare, exactly when its items fit. -/
theorem arstrLoop_inBounds_iff (cfg : ArConfig) (str : Str) (st : ArState) :
    (∃ st', arstrLoop cfg st str = some st' ∧ st'.ar.length < sizeofAr) ↔
      ∃ n, arBytes cfg st str = some n ∧ st.ar.length + n < sizeofAr := by
  -- on the length of what is left
  induction hlen : str.length using Nat.strong_induction_on generalizing str st with
  | _ len ih =>
    cases str with
    | nil => simp [arstrLoop, arBytes]
    | cons c s =>
        have hst : ({ st with ar := [] } : ArState).behind st.ar = st := by simp [ArState.behind]
        have hframed := framedRound st.ar cfg c s
        have hnext : ∀ {rest : Str} {r : ArState} (st₁ : ArState),
            arRound cfg { st with ar := [] } c s = some (rest, r) →
            ((∃ st', arstrLoop cfg st₁ rest = some st' ∧ st'.ar.length < sizeofAr) ↔
              ∃ n, arBytes cfg st₁ rest = some n ∧ st₁.ar.length + n < sizeofAr) := by
          intro rest r st₁ h
          have hle := (arRound_suffix h).length_le
          rw [List.length_cons] at hlen
          exact ih rest.length (by omega) rest st₁ rfl
        constructor
        · rintro ⟨st', h, hroom⟩
          obtain ⟨rest, st₁, h₁, h⟩ := arstrLoop_cons_eq_some_iff.mp h
          rw [← hst] at h₁
          obtain ⟨r, hr, rfl⟩ := hframed.without _ rest st₁ h₁
          obtain ⟨m, hm, hle⟩ := (hnext _ hr).mp ⟨st', h, hroom⟩
          rw [arBytes_behind] at hm
          refine ⟨r.ar.length + m, arBytes_cons_eq_some_iff.mpr ⟨rest, r, m, hr, hm, rfl⟩, ?_⟩
          rw [ArState.behind, List.length_append] at hle
          omega
        · rintro ⟨n, h, hroom⟩
          obtain ⟨rest, r, m, hr, hm, rfl⟩ := arBytes_cons_eq_some_iff.mp h
          have hround := hframed.behind _ rest r hr (by omega)
          rw [hst] at hround
          rw [← arBytes_behind cfg st.ar] at hm
          obtain ⟨st', h, hlt⟩ := (hnext (r.behind st.ar) hr).mpr ⟨m, hm, by
            rw [ArState.behind, List.length_append]
            omega⟩
          exact ⟨st', arstrLoop_cons_eq_some_iff.mpr ⟨rest, _, hround, h⟩, hlt⟩

theorem isSome_arstr_iff (cfg : ArConfig) (str : Str) : (arstr cfg str).isSome ↔
    ∃ st', arstrLoop cfg {} str = some st' ∧ st'.ar.length < sizeofAr := by
  rw [arstr]
  cases arstrLoop cfg {} str with
  | none => simp
  | some st =>
      by_cases hnil : st.ar = []
      · simp [hnil, sizeofAr]
      · by_cases hroom : st.ar.length < sizeofAr
        · have hput : st.put [arNull] = some _ := put_of_le hroom
          simp [hnil, hroom, hput]
        · have hput : st.put [arNull] = none := if_neg hroom
          simp [hnil, hroom, hput]

theorem arBytes_parentheses (cfg : ArConfig) (n : ℕ) :
    arBytes cfg {} (List.replicate n 40) = some n := by
  induction n with
  | zero => rw [List.replicate_zero, arBytes]
  | succ n ih =>
      rw [List.replicate_succ, arBytes_cons_eq_some_iff]
      refine ⟨List.replicate n 40, { ar := [arBegnest] }, n, rfl, ?_, Nat.add_comm 1 n⟩
      rw [← ih]
      exact arBytes_behind cfg [arBegnest] {} _

end Synchronet.Sbbs3
