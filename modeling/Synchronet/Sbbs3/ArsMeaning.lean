import Synchronet.Lib.Words
import Synchronet.Sbbs3.Ars
import Mathlib.Tactic.IntervalCases

/-!
# The meaning of access requirements

A requirement is a sequence of terms, each an atom or a sequence in parentheses, joined
by AND and OR; the sequence from each term on is `term op (rest)`.  `ar_exp` computes this
value as long as no nested part is left early with a zero or an `AR_ENDNEST` among the
bytes that are skipped.
-/

namespace Synchronet.Sbbs3

/-! ## Requirements -/

/-- The operand is of the kind that the code asks for. -/
def ArOperand.Fits (operand : List UInt8) : ArOperand → Prop
  | none => operand = []
  | byte => operand.length = 1
  | short => operand.length = 2
  | string => ∃ str : List UInt8, 0 ∉ str ∧ operand = str ++ [0]

/-- An atom and its operand. -/
structure ArAtom where
  artype : UInt8
  operand : List UInt8
  known : 5 < artype ∧ artype ≤ 64
  fits : (arOperand artype).Fits operand

inductive ArOp
  | and
  | or
  deriving DecidableEq

/-- A sequence of terms with the operator before each; the one before the first term is
not there. -/
inductive ArSeq
  | nil
  | atom (op : ArOp) (neg equal : Bool) (a : ArAtom) (rest : ArSeq)
  | group (op : ArOp) (neg : Bool) (inner rest : ArSeq)

/-- The code of a flag that is set. -/
def flagCode (code : UInt8) (set : Bool) : List UInt8 := if set then [code] else []

/-- The codes before a term. -/
def termFlags (first : Bool) (op : ArOp) (neg equal : Bool) : List UInt8 :=
  flagCode arOr (!first && op = .or) ++ flagCode arNot neg ++ flagCode arEqual equal

namespace ArSeq

/-- The bytes of a sequence. -/
def encode : ArSeq → Bool → List UInt8
  | nil, _ => []
  | atom op neg equal a rest, first =>
      termFlags first op neg equal ++ a.artype :: (a.operand ++ rest.encode false)
  | group op neg inner rest, first =>
      termFlags first op neg false ++
        arBegnest :: (inner.encode true ++ arEndnest :: rest.encode false)

/-- The bytes of a sequence behind the flags of its first term. -/
def body : ArSeq → List UInt8
  | nil => []
  | atom _ _ _ a rest => a.artype :: (a.operand ++ rest.encode false)
  | group _ _ inner rest => arBegnest :: (inner.encode true ++ arEndnest :: rest.encode false)

/-- The operator before the first term. -/
def op? : ArSeq → Option ArOp
  | nil => none
  | atom op _ _ _ _ => some op
  | group op _ _ _ => some op

end ArSeq

/-! ## The value -/

/-- Whether the terms behind one of value `v` count. -/
def ArOp.goesOn (v : Bool) : Option ArOp → Bool
  | none => false
  | some .and => v
  | some .or => !v

/-- `v op (rest)`: the rest is only evaluated when it decides. -/
def ArOp.join (op : Option ArOp) (v : Bool) (rest : ℕ → Bool × ℕ) (tick : ℕ) : Bool × ℕ :=
  if goesOn v op then rest tick else (v, tick)

/-- The value of an atom at the `tick`-th moment. -/
def ArAtom.holds (a : ArAtom) (s : Session) (equal : Bool) (tick : ℕ) : Bool :=
  s.arTest tick a.artype equal a.operand == some true

namespace ArSeq

variable (s : Session)

/-- The value of a sequence, and the moment after it. -/
def value : ArSeq → ℕ → Bool × ℕ
  | nil, tick => (true, tick)
  | atom _ neg equal a rest, tick =>
      ArOp.join rest.op? (neg ^^ a.holds s equal tick) rest.value (tick + 1)
  | group _ neg inner rest, tick =>
      ArOp.join rest.op? (neg ^^ (inner.value tick).1) rest.value (inner.value tick).2

/-- The bytes of a sequence that its value does not depend on: those from the first term
on that does not count, behind its flags. -/
def left : ArSeq → ℕ → List UInt8
  | nil, _ => []
  | atom _ neg equal a rest, tick =>
      if ArOp.goesOn (neg ^^ a.holds s equal tick) rest.op? then rest.left (tick + 1)
      else rest.body
  | group _ neg inner rest, tick =>
      if ArOp.goesOn (neg ^^ (inner.value s tick).1) rest.op? then rest.left (inner.value s tick).2
      else rest.body

/-- No nested part that is evaluated leaves a zero or an `AR_ENDNEST` among the bytes that
its value does not depend on. -/
def Contained : ArSeq → ℕ → Prop
  | nil, _ => True
  | atom _ neg equal a rest, tick =>
      ArOp.goesOn (neg ^^ a.holds s equal tick) rest.op? = true → rest.Contained (tick + 1)
  | group _ neg inner rest, tick =>
      inner.Contained tick ∧ (∀ b ∈ inner.left s tick, b ≠ 0 ∧ b ≠ arEndnest) ∧
        (ArOp.goesOn (neg ^^ (inner.value s tick).1) rest.op? = true →
          rest.Contained (inner.value s tick).2)

instance decidableContained (s : Session) :
    (ars : ArSeq) → (tick : ℕ) → Decidable (ars.Contained s tick)
  | nil, _ => inferInstanceAs (Decidable True)
  | atom _ neg equal a rest, tick =>
      haveI := decidableContained s rest (tick + 1)
      inferInstanceAs (Decidable
        (ArOp.goesOn (neg ^^ a.holds s equal tick) rest.op? = true → rest.Contained s (tick + 1)))
  | group _ neg inner rest, tick =>
      haveI := decidableContained s inner tick
      haveI := decidableContained s rest (inner.value s tick).2
      inferInstanceAs (Decidable (inner.Contained s tick ∧
        (∀ b ∈ inner.left s tick, b ≠ 0 ∧ b ≠ arEndnest) ∧
          (ArOp.goesOn (neg ^^ (inner.value s tick).1) rest.op? = true →
            rest.Contained s (inner.value s tick).2)))

end ArSeq

/-! ## One round -/

theorem arFlag_flagCode {code : UInt8} (set : Bool) {c : UInt8} (p : List UInt8) (hc : c ≠ code) :
    arFlag code (flagCode code set ++ c :: p) = (set, c :: p) := by
  cases set with
  | false => exact if_neg hc
  | true => exact if_pos rfl

theorem flagCode_append (code : UInt8) (set : Bool) (c : UInt8) (q : List UInt8) :
    ∃ b p, flagCode code set ++ c :: q = b :: p ∧ (b = code ∨ b = c) := by
  cases set with
  | false => exact ⟨c, q, rfl, Or.inr rfl⟩
  | true => exact ⟨code, c :: q, rfl, Or.inl rfl⟩

/-- A round at a term: its flags are read, and it counts or the loop ends behind them. -/
theorem arExpLoop_term (s : Session) (n : ℕ) (result : Bool) (tick : ℕ) (first : Bool) (op : ArOp)
    (neg equal : Bool) {c : UInt8} (q : List UInt8) (hc : 4 ≤ c ∧ c ≠ arEndnest) :
    arExpLoop s (n + 1) result tick (termFlags first op neg equal ++ c :: q) =
      if result && (!first && op = .or) || !result && !(!first && op = .or) then
        some (result, tick, c :: q)
      else if c = arBegnest then do
        let (nested, tick, p) ← arExpLoop s n true tick q
        let result := if nested then !neg else neg
        let p := arSkipNest p
        if p.headD 0 = 0 then some (result, tick, p)
        else arExpLoop s n result tick p.tail
      else
        let result :=
          match s.arTest tick c equal q with
          | some holds => if holds then !neg else neg
          | none => result
        arExpLoop s n result (tick + 1) (arSkip c (c :: q)) := by
  obtain ⟨hlow, hend⟩ := hc
  have hhigh : ∀ code : UInt8, code < 4 → c ≠ code :=
    fun code hcode h ↦ absurd (h ▸ hlow) (UInt8.not_le.mpr hcode)
  rw [termFlags, List.append_assoc, List.append_assoc]
  generalize (!first && decide (op = .or)) = or
  obtain ⟨b₁, p₁, hp₁, hb₁⟩ := flagCode_append arEqual equal c q
  obtain ⟨b₂, p₂, hp₂, hb₂⟩ := flagCode_append arNot neg b₁ p₁
  obtain ⟨b₃, p₃, hp₃, hb₃⟩ := flagCode_append arOr or b₂ p₂
  have hne₁ : ∀ code : UInt8, code < 3 → b₁ ≠ code := by
    intro code hcode h
    rcases hb₁ with rfl | rfl
    · exact absurd hcode (h ▸ by decide)
    · exact hhigh code (UInt8.lt_trans hcode (by decide)) h
  have hne₂ : b₂ ≠ arOr ∧ b₂ ≠ 0 ∧ b₂ ≠ arEndnest := by
    rcases hb₂ with rfl | rfl
    · decide
    · refine ⟨hne₁ _ (by decide), hne₁ _ (by decide), ?_⟩
      rcases hb₁ with rfl | rfl
      · decide
      · exact hend
  have hne₃ : ¬ (b₃ = 0 ∨ b₃ = arEndnest) := by
    rcases hb₃ with rfl | rfl
    · decide
    · exact not_or.mpr hne₂.2
  have hequal := arFlag_flagCode equal q (hhigh arEqual (by decide))
  have hnot := arFlag_flagCode neg p₁ (hne₁ arNot (by decide))
  have hor := arFlag_flagCode or p₂ hne₂.1
  rw [hp₁] at hequal
  rw [hp₂] at hnot
  rw [hp₃] at hor
  rw [hp₁, hp₂, hp₃, arExpLoop, if_neg hne₃, hor]
  dsimp only
  rw [hnot]
  dsimp only
  rw [hequal]
  rfl

theorem arSkip_operand (a : ArAtom) (q : List UInt8) :
    arSkip a.artype (a.artype :: (a.operand ++ q)) = q := by
  have hfits := a.fits
  rw [arSkip]
  cases hkind : arOperand a.artype with
  | none =>
      rw [hkind] at hfits
      have hfits : a.operand = [] := hfits
      simp [hfits]
  | byte =>
      rw [hkind] at hfits
      obtain ⟨b, hb⟩ := List.length_eq_one_iff.mp hfits
      simp [hb]
  | short =>
      rw [hkind] at hfits
      obtain ⟨b, b', hb⟩ := List.length_eq_two.mp hfits
      simp [hb]
  | string =>
      rw [hkind] at hfits
      obtain ⟨str, hstr, hb⟩ := hfits
      have hdrop : (str ++ 0 :: q).dropWhile (fun c ↦ decide (c ≠ 0)) = 0 :: q := by
        rw [List.dropWhile_append_of_pos]
        · rfl
        · intro c hc
          exact decide_eq_true (ne_of_mem_of_not_mem hc hstr)
      rw [hb, List.append_assoc, List.singleton_append]
      dsimp only [List.tail_cons]
      rw [hdrop, List.tail_cons]

theorem arTest_operand (s : Session) (a : ArAtom) (tick : ℕ) (equal : Bool) (q : List UInt8) :
    s.arTest tick a.artype equal (a.operand ++ q) = s.arTest tick a.artype equal a.operand := by
  have hfits := a.fits
  rw [Session.arTest, Session.arTest]
  cases hkind : arOperand a.artype with
  | none => rfl
  | byte =>
      rw [hkind] at hfits
      obtain ⟨b, hb⟩ := List.length_eq_one_iff.mp hfits
      rw [hb]
      rfl
  | short =>
      rw [hkind] at hfits
      obtain ⟨b, b', hb⟩ := List.length_eq_two.mp hfits
      rw [hb]
      rfl
  | string =>
      rw [hkind] at hfits
      obtain ⟨str, hstr, hb⟩ := hfits
      have htake : ∀ r : List UInt8, cString (str ++ 0 :: r) = str := by
        intro r
        rw [cString, List.takeWhile_append_of_pos]
        · simp
        · intro c hc
          exact decide_eq_true (ne_of_mem_of_not_mem hc hstr)
      rw [hb, List.append_assoc]
      dsimp only
      rw [List.singleton_append, htake, htake]

/-- `ar_exp` has a case for every atom. -/
theorem exists_arTest (s : Session) (tick : ℕ) (artype : UInt8) (hknown : 5 < artype ∧ artype ≤ 64)
    (equal : Bool) (p : List UInt8) : ∃ holds, s.arTest tick artype equal p = some holds := by
  revert hknown artype
  refine Words.forall_uint8 ?_
  rintro n hn ⟨hlow, hhigh⟩
  have hlow : 5 < n % 2 ^ 8 := hlow
  have hhigh : n % 2 ^ 8 ≤ 64 := hhigh
  have hmod : n % 2 ^ 8 = n := Nat.mod_eq_of_lt hn
  rw [hmod] at hlow hhigh
  interval_cases n <;> exact ⟨_, rfl⟩

/-! ## All rounds -/

theorem arSkipNest_append {left : List UInt8} (hleft : ∀ b ∈ left, b ≠ 0 ∧ b ≠ arEndnest)
    (p : List UInt8) : arSkipNest (left ++ arEndnest :: p) = arEndnest :: p := by
  rw [arSkipNest, List.dropWhile_append_of_pos]
  · rfl
  · intro b hb
    exact decide_eq_true (hleft b hb).symm

namespace ArSeq

variable (s : Session)

/-- The first term of a sequence counts. -/
def Counts (first result : Bool) (ars : ArSeq) : Prop :=
  if first then result = true else ArOp.goesOn result ars.op? = true

/-- The loop runs over a sequence whose first term counts. -/
def Evaluates (ars : ArSeq) : Prop :=
  ∀ {n tick : ℕ} {first result : Bool} {t : UInt8} (p : List UInt8), ars.Counts first result →
    ars.Contained s tick → (t = 0 ∨ t = arEndnest) → (ars.encode first).length < n →
      arExpLoop s n result tick (ars.encode first ++ t :: p) =
        some ((ars.value s tick).1, (ars.value s tick).2, ars.left s tick ++ t :: p)

variable {s}

theorem termCode (a : ArAtom) : 4 ≤ a.artype ∧ a.artype ≠ arEndnest :=
  ⟨UInt8.le_trans (by decide) (UInt8.le_of_lt a.known.1), fun h ↦ absurd (h ▸ a.known.1) (by decide)⟩

/-- A sequence with a term is the flags of the term and its body. -/
theorem encode_eq {ars : ArSeq} {op : ArOp} (hop : ars.op? = some op) (first : Bool) :
    ∃ neg equal c q, ars.encode first = termFlags first op neg equal ++ c :: q ∧
      ars.body = c :: q ∧ 4 ≤ c ∧ c ≠ arEndnest := by
  cases ars with
  | nil => cases hop
  | atom op' neg equal a rest =>
      obtain rfl := Option.some.inj hop
      exact ⟨neg, equal, a.artype, a.operand ++ rest.encode false, rfl, rfl, termCode a⟩
  | group op' neg inner rest =>
      obtain rfl := Option.some.inj hop
      exact ⟨neg, false, arBegnest, inner.encode true ++ arEndnest :: rest.encode false, rfl, rfl,
        by decide⟩

/-- The operator of a term that counts does not end the loop. -/
theorem counts_round {first result : Bool} {op : ArOp} {ars : ArSeq} (hop : ars.op? = some op)
    (h : ars.Counts first result) :
    ¬ (result && (!first && op = .or) || !result && !(!first && op = .or)) = true := by
  rw [Counts, hop] at h
  cases first <;> cases op <;> cases result <;> simp_all [ArOp.goesOn]

/-- The loop behind a term of value `v`. -/
theorem Evaluates.after {rest : ArSeq} (hrest : rest.Evaluates s) {n tick : ℕ} {v : Bool}
    {t : UInt8} (p : List UInt8) (hcontained : ArOp.goesOn v rest.op? = true → rest.Contained s tick)
    (ht : t = 0 ∨ t = arEndnest) (hn : (rest.encode false).length < n) :
    arExpLoop s n v tick (rest.encode false ++ t :: p) =
      some ((ArOp.join rest.op? v (rest.value s) tick).1,
        (ArOp.join rest.op? v (rest.value s) tick).2,
        (if ArOp.goesOn v rest.op? then rest.left s tick else rest.body) ++ t :: p) := by
  obtain ⟨n, rfl⟩ : ∃ m, n = m + 1 := ⟨n - 1, by omega⟩
  rw [ArOp.join]
  by_cases hgo : ArOp.goesOn v rest.op? = true
  · rw [if_pos hgo, if_pos hgo]
    exact hrest p hgo (hcontained hgo) ht hn
  · rw [if_neg hgo, if_neg hgo]
    cases hop : rest.op? with
    | none =>
        obtain rfl : rest = nil := by
          cases rest with
          | nil => rfl
          | atom => cases hop
          | group => cases hop
        rw [encode, List.nil_append, arExpLoop, if_pos ht]
        rfl
    | some op =>
        obtain ⟨neg, equal, c, q, hencode, hbody, hc⟩ := encode_eq hop false
        have hstop : (v && (!false && op = .or) || !v && !(!false && op = .or)) = true := by
          rw [hop] at hgo
          cases op <;> cases v <;> simp_all [ArOp.goesOn]
        rw [hencode, hbody, List.append_assoc, List.cons_append, arExpLoop_term s n v tick false op
          neg equal _ hc, if_pos hstop]

theorem evaluates (ars : ArSeq) : ars.Evaluates s := by
  induction ars with
  | nil =>
      rintro n tick first result t p hcounts - ht hn
      obtain ⟨n, rfl⟩ : ∃ m, n = m + 1 := ⟨n - 1, by omega⟩
      have hresult : result = true := by
        cases first with
        | false => exact absurd hcounts Bool.false_ne_true
        | true => exact hcounts
      rw [hresult, encode, List.nil_append, arExpLoop, if_pos ht]
      rfl
  | atom op neg equal a rest ih =>
      intro n tick first result t p hcounts hcontained ht hn
      obtain ⟨n, rfl⟩ : ∃ m, n = m + 1 := ⟨n - 1, by omega⟩
      obtain ⟨holds, hholds⟩ := exists_arTest s tick a.artype a.known equal a.operand
      have hlen : (rest.encode false).length < n := by
        simp only [encode, List.length_append, List.length_cons] at hn
        omega
      have hvalue : (if holds then !neg else neg) = (neg ^^ a.holds s equal tick) := by
        rw [ArAtom.holds, hholds]
        cases holds <;> cases neg <;> rfl
      have hne : a.artype ≠ arBegnest := fun h ↦ absurd (h ▸ a.known.1) (by decide)
      rw [encode, List.append_assoc, List.cons_append, List.append_assoc,
        arExpLoop_term s n result tick first op neg equal _ (termCode a),
        if_neg (counts_round rfl hcounts), if_neg hne, arSkip_operand, arTest_operand, hholds]
      dsimp only
      rw [hvalue]
      exact ih.after p hcontained ht hlen
  | group op neg inner rest ihinner ih =>
      intro n tick first result t p hcounts hcontained ht hn
      obtain ⟨n, rfl⟩ : ∃ m, n = m + 1 := ⟨n - 1, by omega⟩
      obtain ⟨hinner, hleft, hrest⟩ := hcontained
      have hlen : (inner.encode true).length < n ∧ (rest.encode false).length < n := by
        simp only [encode, List.length_append, List.length_cons] at hn
        omega
      have hvalue : (if (inner.value s tick).1 then !neg else neg) =
          (neg ^^ (inner.value s tick).1) := by
        cases (inner.value s tick).1 <;> cases neg <;> rfl
      rw [encode, List.append_assoc, List.cons_append, List.append_assoc, List.cons_append,
        arExpLoop_term s n result tick first op neg false _ (by decide),
        if_neg (counts_round rfl hcounts), if_pos rfl,
        @ihinner n tick true true arEndnest (rest.encode false ++ t :: p) rfl hinner (Or.inr rfl)
          hlen.1]
      simp only [Option.bind_eq_bind, Option.bind_some]
      rw [arSkipNest_append hleft, hvalue, List.headD_cons, if_neg (by decide), List.tail_cons]
      exact ih.after p hrest ht hlen.2

end ArSeq

/-- `chk_ar` gives the value of a requirement in every state in which no nested part that
is evaluated leaves a zero or an `AR_ENDNEST` among the bytes that its value does not
depend on. -/
theorem chkAr_eq_value (s : Session) (ars : ArSeq) (pad : List UInt8)
    (hcontained : ars.Contained s 0) :
    chkAr s (some (ars.encode true ++ arNull :: pad)) = some (ars.value s 0).1 := by
  rw [chkAr, @ArSeq.evaluates s ars _ 0 true true arNull pad rfl hcontained (Or.inl rfl)
    (by rw [List.length_append]; omega)]
  rfl

/-- An atom without an operand. -/
def boolAtom (artype : UInt8) (known : 5 < artype ∧ artype ≤ 64)
    (bool : arOperand artype = .none) : ArAtom where
  artype := artype
  operand := []
  known := known
  fits := by
    rw [bool]
    rfl

/-- The requirement `(SYSOP OR (GUEST)) AND EXPERT`. -/
def nestedSysop : ArSeq :=
  .group .and false
    (.atom .and false false (boolAtom arSysop (by decide) rfl)
      (.group .or false (.atom .and false false (boolAtom arGuest (by decide) rfl) .nil) .nil))
    (.atom .and false false (boolAtom arExpert (by decide) rfl) .nil)

/-- A sysop who is not an expert gets access, since the skip ends at the inner
parenthesis and the loop at the outer one. -/
theorem chkAr_nestedSysop :
    nestedSysop.encode true = [arBegnest, arSysop, arOr, arBegnest, arGuest, arEndnest, arEndnest,
      arExpert] ∧
    chkAr { sysop := true } (some (nestedSysop.encode true ++ [arNull])) = some true ∧
    (nestedSysop.value { sysop := true } 0).1 = false := by
  refine ⟨by decide, by decide, by decide⟩

/-- For a guest who is no sysop but an expert the nested part is evaluated to its end. -/
theorem chkAr_eq_value_guest :
    chkAr { user := { rest := flag 71, misc := expert } }
      (some (nestedSysop.encode true ++ [arNull])) =
        some (nestedSysop.value { user := { rest := flag 71, misc := expert } } 0).1 :=
  chkAr_eq_value _ _ _ (by decide +kernel)

end Synchronet.Sbbs3
