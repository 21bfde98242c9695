import Synchronet.Sbbs3.ArStr
import Synchronet.Sbbs3.UserArs

/-!
# What is read of a compiled requirement (ars.c, chk_ar.cpp, userdat.c)

Neither `ar_exp` knows where its buffer ends.  Here each read is checked: the pointer is what is
left of the buffer, and there is no result where a byte is read behind it.  Four zeros behind the
one that ends the codes are enough for every operand that a code may miss.
-/

namespace Synchronet.Sbbs3

open Xpdev (Str)

/-! ## The evaluation with its reads -/

/-- What an `ar_exp` tests, and how it steps over operands. -/
structure ArEvaluator where
  operand : UInt8 → ArOperand
  test : ℕ → UInt8 → Bool → List UInt8 → Option Bool

def Session.evaluator (s : Session) : ArEvaluator := ⟨arOperand, s.arTest⟩

def Userdat.Server.evaluator (s : Userdat.Server) : ArEvaluator := ⟨arOperand, s.arTest⟩

/-- A flag before a term. -/
def readFlag (code : UInt8) : List UInt8 → Option (Bool × List UInt8)
  | [] => none
  | b :: p => some (if b = code then (true, p) else (false, b :: p))

/-- The flags before a term: OR, NOT and EQUAL. -/
def readFlags (p : List UInt8) : Option ((Bool × Bool × Bool) × List UInt8) := do
  let (or, p) ← readFlag arOr p
  let (not, p) ← readFlag arNot p
  let (equal, p) ← readFlag arEqual p
  pure ((or, not, equal), p)

/-- The bytes for `n` and `i` at the pointer, which is at the code of an atom without an operand,
and a string up to its zero. -/
def operandReads (kind : ArOperand) (p : List UInt8) : Bool :=
  let p := if kind = .none then p else p.tail
  decide (2 ≤ p.length) && (decide (kind ≠ .string) || decide (0 ∈ p))

/-- The pointer after an atom. -/
def skipOperand (kind : ArOperand) (p : List UInt8) : List UInt8 :=
  match kind with
  | .none => p.tail
  | .byte => p.tail.tail
  | .short => p.tail.tail.tail
  | .string => (p.tail.dropWhile (· ≠ 0)).tail

/-- The loop of an `ar_exp` in at most `n` rounds. -/
def arExpReads (e : ArEvaluator) : ℕ → Bool → ℕ → List UInt8 → Option (Bool × ℕ × List UInt8)
  | 0, _, _, _ => none
  | n + 1, result, tick, p =>
      match p with
      | [] => none
      | b :: _ =>
          if b = 0 ∨ b = arEndnest then some (result, tick, p)
          else
            match readFlags p with
            | none => none
            | some ((or, not, equal), p) =>
                if result && or || !result && !or then some (result, tick, p)
                else
                  match p with
                  | [] => none
                  | artype :: rest =>
                      if artype = arBegnest then
                        match arExpReads e n true tick rest with
                        | none => none
                        | some (nested, tick, p) =>
                            let result := if nested then !not else not
                            match arSkipNest p with
                            | [] => none
                            | stop :: rest =>
                                if stop = 0 then some (result, tick, stop :: rest)
                                else arExpReads e n result tick rest
                      else if operandReads (e.operand artype) p then
                        let result :=
                          match e.test tick artype equal rest with
                          | some holds => if holds then !not else not
                          | none => result
                        arExpReads e n result (tick + 1) (skipOperand (e.operand artype) p)
                      else none

/-- `chk_ar` on a buffer. -/
def chkArReads (e : ArEvaluator) (buf : List UInt8) : Option Bool :=
  (arExpReads e (buf.length + 1) true 0 buf).map fun r ↦ r.1

/-! ## Buffers with padding -/

/-- What is left of a buffer that ends with five zeros. -/
def Padded (p : List UInt8) : Prop := p ≠ [] ∧ ∃ body, p <:+ body ++ List.replicate 5 0

theorem Padded.suffix {p q : List UInt8} (h : Padded p) (hq : q <:+ p) (hne : q ≠ []) : Padded q :=
  ⟨hne, h.2.imp fun _ hbody ↦ hq.trans hbody⟩

theorem Padded.zero_mem {p : List UInt8} (h : Padded p) : 0 ∈ p := by
  obtain ⟨hne, body, hsuffix⟩ := h
  have hlast : p.getLast hne = 0 := by
    rw [hsuffix.getLast hne]
    simp
  exact hlast ▸ List.getLast_mem hne

/-- Five bytes are left behind a byte that is not zero. -/
theorem Padded.le_length {c : UInt8} {p : List UInt8} (h : Padded (c :: p)) (hc : c ≠ 0) :
    5 ≤ p.length := by
  obtain ⟨-, body, hsuffix⟩ := h
  by_contra hlt
  have hpad : List.replicate 5 (0 : UInt8) <:+ body ++ List.replicate 5 0 :=
    List.suffix_append body _
  have hzero := List.suffix_of_suffix_length_le hsuffix hpad (by simp; omega)
  exact hc (List.eq_of_mem_replicate (hzero.subset List.mem_cons_self))

theorem readFlag_padded (code : UInt8) (hcode : code ≠ 0) {p : List UInt8} (h : Padded p)
    (hlen : 5 ≤ p.length) :
    ∃ r, readFlag code p = some r ∧ r.2 <:+ p ∧ 5 ≤ r.2.length := by
  cases p with
  | nil => exact absurd rfl h.1
  | cons b p =>
      refine ⟨_, rfl, ?_⟩
      split
      · next hb => exact ⟨List.suffix_cons b p, h.le_length (hb ▸ hcode)⟩
      · exact ⟨List.suffix_refl _, hlen⟩

theorem ne_nil_of_le_length {p : List UInt8} (h : 5 ≤ p.length) : p ≠ [] :=
  List.ne_nil_of_length_pos (by omega)

theorem readFlags_padded {p : List UInt8} (h : Padded p) (hlen : 5 ≤ p.length) :
    ∃ flags q, readFlags p = some (flags, q) ∧ q <:+ p ∧ 5 ≤ q.length := by
  obtain ⟨⟨or, p₁⟩, hor, hsuf₁, hlen₁⟩ := readFlag_padded arOr (by decide) h hlen
  have h₁ := h.suffix hsuf₁ (ne_nil_of_le_length hlen₁)
  obtain ⟨⟨not, p₂⟩, hnot, hsuf₂, hlen₂⟩ := readFlag_padded arNot (by decide) h₁ hlen₁
  have h₂ := h₁.suffix hsuf₂ (ne_nil_of_le_length hlen₂)
  obtain ⟨⟨equal, p₃⟩, hequal, hsuf₃, hlen₃⟩ :=
    readFlag_padded arEqual (by decide) h₂ hlen₂
  refine ⟨(or, not, equal), p₃, ?_, hsuf₃.trans (hsuf₂.trans hsuf₁), hlen₃⟩
  simp [readFlags, hor, hnot, hequal]

/-- The next end of a nested part, or the end of the buffer. -/
theorem arSkipNest_padded {p : List UInt8} (h : Padded p) :
    ∃ stop rest, arSkipNest p = stop :: rest ∧ stop :: rest <:+ p := by
  have hne : arSkipNest p ≠ [] := by
    intro hnil
    have hall := List.dropWhile_eq_nil_iff.mp hnil 0 h.zero_mem
    simp at hall
  obtain ⟨stop, rest, heq⟩ := List.exists_cons_of_ne_nil hne
  exact ⟨stop, rest, heq, heq ▸ List.dropWhile_suffix _⟩

theorem operandReads_padded (kind : ArOperand) {p : List UInt8} (h : Padded p)
    (hlen : 5 ≤ p.length) : operandReads kind p = true := by
  have htail : Padded p.tail :=
    h.suffix (List.tail_suffix p) (List.ne_nil_of_length_pos (by rw [List.length_tail]; omega))
  rw [operandReads]
  split
  · simp only [h.zero_mem, decide_true, Bool.or_true, Bool.and_true, decide_eq_true_eq]
    omega
  · simp only [htail.zero_mem, decide_true, Bool.or_true, Bool.and_true, decide_eq_true_eq,
      List.length_tail]
    omega

/-- Behind a string there is padding left. -/
theorem tail_dropWhile_ne_nil {p : List UInt8} (h : Padded p) (hlen : 2 ≤ p.length) :
    (p.dropWhile (· ≠ 0)).tail ≠ [] := by
  induction p with
  | nil => exact absurd rfl h.1
  | cons c p ih =>
      by_cases hc : c = 0
      · rw [List.dropWhile_cons_of_neg (by simp [hc]), List.tail_cons]
        exact List.ne_nil_of_length_pos (by rw [List.length_cons] at hlen; omega)
      · have hle := h.le_length hc
        rw [List.dropWhile_cons_of_pos (by simp [hc])]
        exact ih (h.suffix (List.suffix_cons c p) (ne_nil_of_le_length hle)) (by omega)

theorem skipOperand_padded (kind : ArOperand) {p : List UInt8} (h : Padded p)
    (hlen : 5 ≤ p.length) : skipOperand kind p ≠ [] ∧ skipOperand kind p <:+ p.tail := by
  have hpos {q : List UInt8} (hq : 0 < q.length) : q ≠ [] := List.ne_nil_of_length_pos hq
  cases kind with
  | none => exact ⟨hpos (by simp only [skipOperand, List.length_tail]; omega), List.suffix_refl _⟩
  | byte =>
      exact ⟨hpos (by simp only [skipOperand, List.length_tail]; omega), List.tail_suffix _⟩
  | short =>
      exact ⟨hpos (by simp only [skipOperand, List.length_tail]; omega),
        (List.tail_suffix _).trans (List.tail_suffix _)⟩
  | string =>
      have htail : Padded p.tail :=
        h.suffix (List.tail_suffix p) (hpos (by rw [List.length_tail]; omega))
      exact ⟨tail_dropWhile_ne_nil htail (by rw [List.length_tail]; omega),
        (List.tail_suffix _).trans (List.dropWhile_suffix _)⟩

/-! ## The evaluation of a padded buffer -/

/-- Every round reads within the buffer and goes on, so that the evaluation comes to an end. -/
theorem arExpReads_padded (e : ArEvaluator) (n : ℕ) (result : Bool) (tick : ℕ) {p : List UInt8}
    (h : Padded p) (hn : p.length < n) :
    ∃ r, arExpReads e n result tick p = some r ∧ r.2.2 ≠ [] ∧ r.2.2 <:+ p := by
  induction n generalizing result tick p with
  | zero => exact absurd hn (Nat.not_lt_zero _)
  | succ n ih =>
      cases p with
      | nil => exact absurd rfl h.1
      | cons b p =>
          rw [arExpReads]
          dsimp only
          split
          · exact ⟨_, rfl, h.1, List.suffix_refl _⟩
          · next hb =>
            have hlen := h.le_length fun h0 ↦ hb (.inl h0)
            obtain ⟨⟨or, not, equal⟩, q, hflags, hsuffix, hle⟩ :=
              readFlags_padded h (Nat.le_succ_of_le hlen)
            have hq := h.suffix hsuffix (ne_nil_of_le_length hle)
            have hqn : q.length ≤ n := Nat.le_of_lt_succ (hsuffix.length_le.trans_lt hn)
            rw [hflags]
            dsimp only
            split
            · exact ⟨_, rfl, hq.1, hsuffix⟩
            · cases q with
              | nil => exact absurd rfl hq.1
              | cons artype rest =>
                  have hrest : rest <:+ b :: p := (List.suffix_cons artype rest).trans hsuffix
                  rw [List.length_cons] at hqn
                  dsimp only
                  split
                  · next hnest =>
                    -- a nested part
                    have hrest5 := hq.le_length (c := artype) (by rw [hnest]; decide)
                    have hprest := h.suffix hrest (ne_nil_of_le_length hrest5)
                    obtain ⟨⟨nested, tick', q'⟩, heq, hne', hsuf'⟩ := ih true tick hprest hqn
                    have hq' := hprest.suffix hsuf' hne'
                    obtain ⟨stop, rest', hskip, hstop⟩ := arSkipNest_padded hq'
                    have hlast := hstop.trans (hsuf'.trans hrest)
                    have hpstop := h.suffix hlast (List.cons_ne_nil _ _)
                    rw [heq]
                    dsimp only
                    rw [hskip]
                    dsimp only
                    split
                    · exact ⟨_, rfl, List.cons_ne_nil _ _, hlast⟩
                    · next hne =>
                      have hrest' := h.suffix ((List.suffix_cons stop rest').trans hlast)
                        (ne_nil_of_le_length (hpstop.le_length hne))
                      have hlen' := (hstop.trans hsuf').length_le
                      rw [List.length_cons] at hlen'
                      obtain ⟨r, hr, hrne, hrsuf⟩ :=
                        ih (if nested then !not else not) tick' hrest' (by omega)
                      exact ⟨r, hr, hrne,
                        hrsuf.trans ((List.suffix_cons stop rest').trans hlast)⟩
                  · -- an atom
                    obtain ⟨hne, hskip⟩ := skipOperand_padded (e.operand artype) hq hle
                    rw [List.tail_cons] at hskip
                    rw [if_pos (operandReads_padded (e.operand artype) hq hle)]
                    have hlen' := hskip.length_le
                    obtain ⟨r, hr, hrne, hrsuf⟩ := ih _ (tick + 1)
                      (h.suffix (hskip.trans hrest) hne) (by omega)
                    exact ⟨r, hr, hrne, hrsuf.trans (hskip.trans hrest)⟩

/-! ## The reads of both evaluators -/

/-- A round of an `ar_exp` whose reads are not checked. -/
def arExpRound (test : ℕ → UInt8 → Bool → List UInt8 → Option Bool)
    (loop : Bool → ℕ → List UInt8 → Option (Bool × ℕ × List UInt8)) (result : Bool) (tick : ℕ)
    (b : UInt8) (p : List UInt8) : Option (Bool × ℕ × List UInt8) :=
  if b = 0 ∨ b = arEndnest then some (result, tick, b :: p)
  else
    let (or, p) := arFlag arOr (b :: p)
    let (not, p) := arFlag arNot p
    let (equal, p) := arFlag arEqual p
    if result && or || !result && !or then some (result, tick, p)
    else if p.headD 0 = arBegnest then do
      let (nested, tick, p) ← loop true tick p.tail
      let result := if nested then !not else not
      let p := arSkipNest p
      if p.headD 0 = 0 then some (result, tick, p) else loop result tick p.tail
    else
      let artype := p.headD 0
      let result :=
        match test tick artype equal p.tail with
        | some holds => if holds then !not else not
        | none => result
      loop result (tick + 1) (arSkip artype p)

theorem readFlag_eq {code : UInt8} {p q : List UInt8} {f : Bool}
    (h : readFlag code p = some (f, q)) : arFlag code p = (f, q) := by
  cases p with
  | nil => exact nomatch h
  | cons b p => exact Option.some.inj h

theorem readFlags_eq {p q : List UInt8} {or not equal : Bool}
    (h : readFlags p = some ((or, not, equal), q)) :
    ∃ p₁ p₂, arFlag arOr p = (or, p₁) ∧ arFlag arNot p₁ = (not, p₂) ∧
      arFlag arEqual p₂ = (equal, q) := by
  simp only [readFlags, Option.bind_eq_bind, Option.bind_eq_some_iff, Prod.exists] at h
  obtain ⟨or', p₁, hor, not', p₂, hnot, equal', q', hequal, heq⟩ := h
  obtain ⟨⟨rfl, rfl, rfl⟩, rfl⟩ := by simpa using heq
  exact ⟨p₁, p₂, readFlag_eq hor, readFlag_eq hnot, readFlag_eq hequal⟩

/-- What is evaluated with checked reads is evaluated so without. -/
theorem arExpReads_eq {test : ℕ → UInt8 → Bool → List UInt8 → Option Bool}
    {loop : ℕ → Bool → ℕ → List UInt8 → Option (Bool × ℕ × List UInt8)}
    (hloop : ∀ n result tick b p,
      loop (n + 1) result tick (b :: p) = arExpRound test (loop n) result tick b p)
    {n : ℕ} {result : Bool} {tick : ℕ} {p : List UInt8} {r : Bool × ℕ × List UInt8}
    (h : arExpReads ⟨arOperand, test⟩ n result tick p = some r) :
    loop n result tick p = some r := by
  induction n generalizing result tick p r with
  | zero => exact nomatch h
  | succ n ih =>
      cases p with
      | nil => exact nomatch h
      | cons b p =>
          rw [hloop, arExpRound]
          rw [arExpReads] at h
          dsimp only at h
          split at h
          · next hb => rw [if_pos hb, h]
          · next hb =>
            rw [if_neg hb]
            split at h
            · exact nomatch h
            · next or not equal q hflags =>
              obtain ⟨p₁, p₂, hor, hnot, hequal⟩ := readFlags_eq hflags
              simp only [hor, hnot, hequal]
              split at h
              · next hstop => rw [if_pos hstop, h]
              · next hstop =>
                rw [if_neg hstop]
                cases q with
                | nil => exact nomatch h
                | cons artype rest =>
                    simp only [List.headD_cons, List.tail_cons]
                    dsimp only at h
                    split at h
                    · next hnest =>
                      refine (if_pos hnest).trans ?_
                      split at h
                      · exact nomatch h
                      · next nested tick' q' heq =>
                        rw [ih heq]
                        simp only [Option.bind_eq_bind, Option.bind_some]
                        split at h
                        · exact nomatch h
                        · next stop rest' hskip =>
                          rw [hskip, List.headD_cons, List.tail_cons]
                          split at h
                          · next hzero => rw [if_pos hzero, h]
                          · next hzero => rw [if_neg hzero, ih h]
                    · next hnest =>
                      refine (if_neg hnest).trans ?_
                      split at h
                      · exact ih h
                      · exact nomatch h

/-- `chk_ar` on the buffer of `arstr`: the terminal server's, the other servers', and one with any
other keywords, as userdat.c has some that are not declared in ars_defs.h. -/
structure ReadsWithin (buf : List UInt8) : Prop where
  session : ∀ s : Session, ∃ result, chkArReads s.evaluator buf = some result ∧
    chkAr s (some buf) = some result
  server : ∀ s : Userdat.Server, ∃ result, chkArReads s.evaluator buf = some result ∧
    Userdat.chkAr s (some buf) = some result
  keywords : ∀ e : ArEvaluator, ∃ result, chkArReads e buf = some result

theorem readsWithin_of_total {buf : List UInt8}
    (h : ∀ e : ArEvaluator, ∃ r, arExpReads e (buf.length + 1) true 0 buf = some r) :
    ReadsWithin buf := by
  constructor
  · intro s
    obtain ⟨r, hr⟩ := h s.evaluator
    have hloop : arExpLoop s (buf.length + 1) true 0 buf = some r :=
      arExpReads_eq (fun _ _ _ _ _ ↦ rfl) hr
    exact ⟨r.1, by rw [chkArReads, hr]; rfl, by rw [chkAr, hloop]; rfl⟩
  · intro s
    obtain ⟨r, hr⟩ := h s.evaluator
    have hloop : Userdat.arExpLoop s (buf.length + 1) true 0 buf = some r :=
      arExpReads_eq (fun _ _ _ _ _ ↦ rfl) hr
    exact ⟨r.1, by rw [chkArReads, hr]; rfl, by rw [Userdat.chkAr, hloop]; rfl⟩
  · intro e
    obtain ⟨r, hr⟩ := h e
    exact ⟨r.1, by rw [chkArReads, hr]; rfl⟩

/-- `arstr` gives its `nular`, or codes up to a zero with four more behind. -/
theorem arstr_cases {cfg : ArConfig} {str : Str} {count : ℕ} {buf : List UInt8}
    (h : arstr cfg str = some (count, buf)) :
    count = 0 ∧ buf = nular ∨
      ∃ codes, count = codes.length + 1 ∧ buf = codes ++ List.replicate 5 0 := by
  simp only [arstr, Option.bind_eq_bind, Option.bind_eq_some_iff] at h
  obtain ⟨st, -, h⟩ := h
  split at h
  · obtain ⟨rfl, rfl⟩ := by simpa using h
    exact .inl ⟨rfl, rfl⟩
  · obtain ⟨st', hput, h⟩ := Option.bind_eq_some_iff.mp h
    obtain ⟨rfl, rfl⟩ := by simpa using h
    rw [ArState.put] at hput
    split at hput
    · obtain rfl := Option.some.inj hput
      exact .inr ⟨st.ar, by simp, by rw [List.append_assoc]; rfl⟩
    · exact nomatch hput

/-- Both evaluators come to an end on every requirement that has been compiled, and read nothing
behind its buffer, which is padded with four zeros. -/
theorem arstr_readsWithin (cfg : ArConfig) (str : Str) (count : ℕ) (buf : List UInt8)
    (h : arstr cfg str = some (count, buf)) :
    (count = 0 ∧ buf = nular ∨ buf.length = count + 4) ∧ ReadsWithin buf := by
  rcases arstr_cases h with ⟨hcount, rfl⟩ | ⟨codes, rfl, rfl⟩
  · exact ⟨.inl ⟨hcount, rfl⟩, readsWithin_of_total fun e ↦ ⟨(true, 0, nular), rfl⟩⟩
  · refine ⟨.inr (by simp), readsWithin_of_total fun e ↦ ?_⟩
    have hpadded : Padded (codes ++ List.replicate 5 0) :=
      ⟨by simp, codes, List.suffix_refl _⟩
    obtain ⟨r, hr, -⟩ := arExpReads_padded e _ true 0 hpadded (Nat.lt_succ_self _)
    exact ⟨r, hr⟩

/-- `$Z` has no flag, and the zero is read in its place. -/
theorem arstr_readsWithin_rest : ReadsWithin [arRest, 0, 0, 0, 0, 0] :=
  (arstr_readsWithin {} [36, 90] 2 _ (by decide +kernel)).2

end Synchronet.Sbbs3
