import Mathlib.Logic.Relation
import Synchronet.Sbbs3.BajaSkip

/-!
# The stacks of the interpreter

Whatever the image holds, no run of `exec` writes behind the end of one of its three stacks, and
every address on them lies in the image.
-/

namespace Synchronet.Sbbs3.Baja

variable {ε : Type*} {cs : List UInt8}

/-- A stack of addresses in its array. -/
structure Homes (cs : List UInt8) (stack : List (List UInt8)) : Prop where
  length_le : stack.length ≤ 50
  suffix : ∀ a ∈ stack, a <:+ cs

structure Sound (m : Csi ε) : Prop where
  ip : m.ip <:+ m.cs
  ret : Homes m.cs m.ret
  cmdret : Homes m.cs m.cmdret
  loopHome : Homes m.cs m.loopHome

theorem Homes.tail {stack : List (List UInt8)} (h : Homes cs stack) : Homes cs stack.tail := by
  refine ⟨?_, fun a ha ↦ h.suffix a (List.mem_of_mem_tail ha)⟩
  rw [List.length_tail]
  exact (Nat.sub_le _ _).trans h.length_le

theorem Homes.push {stack : List (List UInt8)} (h : Homes cs stack) {a : List UInt8}
    (ha : a <:+ cs) (hlen : stack.length < 50) : Homes cs (a :: stack) := by
  refine ⟨hlen, fun b hb ↦ ?_⟩
  rcases List.mem_cons.mp hb with rfl | hb
  · exact ha
  · exact h.suffix b hb

/-- A full stack is left as it is. -/
theorem Homes.pushIf {stack : List (List UInt8)} (h : Homes cs stack) {a : List UInt8}
    (ha : a <:+ cs) : Homes cs (if stack.length < 50 then a :: stack else stack) := by
  split
  · exact h.push ha ‹_›
  · exact h

theorem Homes.home {stack : List (List UInt8)} (h : Homes cs stack) {a : List UInt8}
    (ha : a <:+ cs) : stack.head?.getD a <:+ cs := by
  cases stack with
  | nil => exact ha
  | cons b stack => exact h.suffix b (List.mem_cons_self ..)

theorem readBytes_suffix {n : ℕ} {code rest : List UInt8} (h : readBytes n code = some rest) :
    rest <:+ code := by
  rw [← drop_of_readBytes h]
  exact List.drop_suffix n code

theorem skip_suffix {inst : UInt8} {code rest : List UInt8} (h : skip inst code = some rest) :
    rest <:+ code := skipto_suffix h

theorem Operands.read_suffix {o : Operands} {code rest : List UInt8}
    (h : o.read code = some rest) : rest <:+ code := Operands.skip_suffix (Operands.skip_of_read h)

theorem instrRest_suffix {code rest : List UInt8} (h : instrRest code = some rest) :
    rest <:+ code := by
  cases code with
  | nil => simp [instrRest] at h
  | cons op code =>
      have hcons : code <:+ op :: code := List.suffix_cons op code
      rw [instrRest] at h
      split_ifs at h
      · obtain ⟨sub, -, h⟩ := Option.bind_eq_some_iff.mp h
        obtain ⟨o, -, h⟩ := Option.bind_eq_some_iff.mp h
        exact (Operands.read_suffix h).trans ((List.drop_suffix 1 code).trans hcons)
      · obtain ⟨n, -, h⟩ := Option.bind_eq_some_iff.mp h
        exact (readBytes_suffix h).trans hcons
      · obtain ⟨sub, -, h⟩ := Option.bind_eq_some_iff.mp h
        split_ifs at h
        exact (readBytes_suffix h).trans hcons
      · obtain ⟨sub, -, h⟩ := Option.bind_eq_some_iff.mp h
        split_ifs at h
        exact (readBytes_suffix h).trans hcons
      · obtain ⟨o, -, h⟩ := Option.bind_eq_some_iff.mp h
        exact (Operands.read_suffix h).trans hcons

/-- What a call of `exec` may lead to. -/
def Next (m : Csi ε) (r : Option (Csi ε × Bool)) : Prop :=
  ∀ m' b, r = some (m', b) → Sound m' ∧ m'.cs = m.cs

variable {m : Csi ε}

theorem Next.ite {p : Prop} [Decidable p] {x y : Option (Csi ε × Bool)} (hx : p → Next m x)
    (hy : ¬ p → Next m y) : Next m (if p then x else y) := by
  split
  · exact hx ‹_›
  · exact hy ‹_›

theorem Next.none : Next m none := by
  intro m' b hm
  simp at hm

theorem Next.bind {α : Type*} {o : Option α} {f : α → Option (Csi ε × Bool)}
    (h : ∀ a, o = some a → Next m (f a)) : Next m (o.bind f) := by
  intro m' b hm
  obtain ⟨a, ha, hm⟩ := Option.bind_eq_some_iff.mp hm
  exact h a ha m' b hm

theorem Next.map {α : Type*} {o : Option α} {f : α → Csi ε × Bool}
    (h : ∀ a, o = some a → Next m (some (f a))) : Next m (o.map f) := by
  intro m' b hm
  obtain ⟨a, ha, hm⟩ := Option.map_eq_some_iff.mp hm
  exact h a ha m' b (by rw [hm])

theorem Sound.next {m' : Csi ε} {b : Bool} (h : Sound m) (hcs : m'.cs = m.cs)
    (hip : m'.ip <:+ m.cs) (hret : m'.ret = m.ret ∨ Homes m.cs m'.ret)
    (hcmdret : m'.cmdret = m.cmdret ∨ Homes m.cs m'.cmdret)
    (hloop : m'.loopHome = m.loopHome ∨ Homes m.cs m'.loopHome) : Next m (some (m', b)) := by
  intro m'' b' hm
  obtain ⟨rfl, -⟩ := Prod.mk.inj (Option.some.inj hm)
  refine ⟨⟨hcs ▸ hip, hcs ▸ ?_, hcs ▸ ?_, hcs ▸ ?_⟩, hcs⟩
  · rcases hret with he | hret
    · exact he ▸ h.ret
    · exact hret
  · rcases hcmdret with he | hcmdret
    · exact he ▸ h.cmdret
    · exact hcmdret
  · rcases hloop with he | hloop
    · exact he ▸ h.loopHome
    · exact hloop

/-- The stacks stay as they are. -/
theorem Sound.jump {m' : Csi ε} {b : Bool} (h : Sound m) (hip : m'.ip <:+ m.cs)
    (hm' : m'.cs = m.cs ∧ m'.ret = m.ret ∧ m'.cmdret = m.cmdret ∧ m'.loopHome = m.loopHome) :
    Next m (some (m', b)) :=
  h.next hm'.1 hip (.inl hm'.2.1) (.inl hm'.2.2.1) (.inl hm'.2.2.2)

/-- Where a branch goes on after `skipto`. -/
theorem Sound.skip {inst : UInt8} {code : List UInt8} {n : ℕ} {f : List UInt8 → Csi ε × Bool}
    (hcode : code <:+ m.cs) (hf : ∀ c, c <:+ m.cs → Next m (some (f c))) :
    Next m ((skip inst code).map fun c ↦ f (c.drop n)) :=
  Next.map fun _ hc ↦ hf _ ((List.drop_suffix _ _).trans ((skip_suffix hc).trans hcode))

theorem execLoop_next (h : Sound m) {sub : UInt8} {code : List UInt8}
    (hcode : sub :: code <:+ m.cs) : Next m (execLoop m sub code) := by
  have htail : code <:+ m.cs := (List.suffix_cons sub code).trans hcode
  rw [execLoop]
  refine Next.ite (fun _ ↦ h.jump htail ⟨rfl, rfl, rfl, rfl⟩) fun _ ↦ ?_
  refine Next.ite (fun _ ↦ h.next rfl htail (.inl rfl) (.inl rfl)
    (.inr (h.loopHome.pushIf hcode))) fun _ ↦ ?_
  refine Next.ite (fun _ ↦ Next.ite (fun _ ↦ h.jump htail ⟨rfl, rfl, rfl, rfl⟩) fun _ ↦ ?_)
    fun _ ↦ ?_
  · refine Sound.skip (f := fun c ↦ ({ m with ip := c, loopHome := m.loopHome.tail }, false))
      htail fun c hc ↦ ?_
    exact h.next rfl hc (.inl rfl) (.inl rfl) (.inr h.loopHome.tail)
  · exact h.jump (h.loopHome.home htail) ⟨rfl, rfl, rfl, rfl⟩

theorem execCmd_next (h : Sound m) (sh : Shell ε) {op : UInt8} {code : List UInt8}
    (hcode : code <:+ m.cs) : Next m (execCmd sh m op code) := by
  have hskip : ∀ {c : List UInt8}, c <:+ m.cs →
      Next m ((skip CS_END_CMD c).map fun c ↦ ({ m with ip := c.drop 1 }, false)) :=
    fun hc ↦ Sound.skip (f := fun c ↦ ({ m with ip := c }, false)) hc
      fun _ hd ↦ h.jump hd ⟨rfl, rfl, rfl, rfl⟩
  have hdrop : code.drop 1 <:+ m.cs := (List.drop_suffix 1 code).trans hcode
  rw [execCmd]
  refine Next.ite (fun _ ↦ Next.bind fun key _ ↦ ?_) fun _ ↦ Next.bind fun rest hrest ↦ ?_
  · exact Next.ite (fun _ ↦ h.jump hdrop ⟨rfl, rfl, rfl, rfl⟩) fun _ ↦ hskip hdrop
  · have hsuffix : rest <:+ m.cs := (skipString_suffix hrest).trans hcode
    exact Next.ite (fun _ ↦ h.jump hsuffix ⟨rfl, rfl, rfl, rfl⟩) fun _ ↦ hskip hsuffix

/-- What a call of `exec` keeps. -/
theorem exec_next (sh : Shell ε) (h : Sound m) : Next m (exec sh m) := by
  have hskip : ∀ {inst : UInt8} {c : List UInt8}, c <:+ m.cs →
      Next m ((Baja.skip inst c).map fun c ↦ ({ m with ip := c.drop 1 }, false)) :=
    fun hc ↦ Sound.skip (f := fun c ↦ ({ m with ip := c }, false)) hc
      fun _ hd ↦ h.jump hd ⟨rfl, rfl, rfl, rfl⟩
  cases hip : m.ip with
  | nil =>
      rw [exec, hip]
      exact h.jump h.ip ⟨rfl, rfl, rfl, rfl⟩
  | cons op code =>
      have hop : op :: code <:+ m.cs := hip ▸ h.ip
      have hcode : code <:+ m.cs := (List.suffix_cons op code).trans hop
      have hgo : ∀ {m' : Csi ε}, m'.ip <:+ m.cs → m'.cs = m.cs ∧ m'.ret = m.ret ∧
          m'.cmdret = m.cmdret ∧ m'.loopHome = m.loopHome → Next m (some (m', false)) := h.jump
      have hread : ∀ {n : ℕ} {c : List UInt8}, readBytes n code = some c → c <:+ m.cs :=
        fun hc ↦ (readBytes_suffix hc).trans hcode
      rw [exec, hip]
      dsimp only
      refine Next.ite (fun _ ↦ Next.ite (fun _ ↦ hgo hcode ⟨rfl, rfl, rfl, rfl⟩)
        fun _ ↦ hskip hcode) fun _ ↦ ?_
      refine Next.ite (fun _ ↦ hskip hcode) fun _ ↦ ?_
      refine Next.ite (fun _ ↦ hgo hcode ⟨rfl, rfl, rfl, rfl⟩) fun _ ↦ ?_
      refine Next.ite (fun _ ↦ Sound.skip
        (f := fun c ↦ ({ m with ip := c, inSwitch := false }, false)) hcode
        fun _ hd ↦ h.jump hd ⟨rfl, rfl, rfl, rfl⟩) fun _ ↦ ?_
      refine Next.ite (fun _ ↦ hgo hcode ⟨rfl, rfl, rfl, rfl⟩) fun _ ↦ ?_
      refine Next.ite (fun _ ↦ Next.bind fun rest hrest ↦ ?_) fun _ ↦ ?_
      · cases sh.getintvar (word code) m.env with
        | none => exact hskip (hread hrest)
        | some v => exact hgo (hread hrest) ⟨rfl, rfl, rfl, rfl⟩
      refine Next.ite (fun _ ↦ Next.bind fun rest hrest ↦ ?_) fun _ ↦ ?_
      · refine Next.ite (fun _ ↦ Sound.skip (n := 0) (f := fun c ↦ ({ m with ip := c }, false))
          (hread hrest) fun _ hd ↦ h.jump hd ⟨rfl, rfl, rfl, rfl⟩) fun _ ↦ ?_
        exact hgo (hread hrest) ⟨rfl, rfl, rfl, rfl⟩
      refine Next.ite (fun _ ↦ h.next rfl hcode (.inl rfl) (.inr (h.cmdret.pushIf hop)) (.inl rfl))
        fun _ ↦ ?_
      refine Next.ite (fun _ ↦ h.next rfl hcode (.inl rfl) (.inr h.cmdret.tail) (.inl rfl))
        fun _ ↦ ?_
      refine Next.ite (fun _ ↦ h.next rfl (h.cmdret.home hcode) (.inl rfl) (.inr h.cmdret.tail)
        (.inl rfl)) fun _ ↦ ?_
      refine Next.ite (fun _ ↦ ?_) fun _ ↦ ?_
      · cases hret : m.ret with
        | nil => exact h.jump hcode ⟨rfl, hret.symm, rfl, rfl⟩
        | cons home ret =>
            have hhomes : Homes m.cs (home :: ret) := hret ▸ h.ret
            exact h.next rfl (hhomes.suffix home (List.mem_cons_self ..)) (.inr hhomes.tail)
              (.inl rfl) (.inl rfl)
      refine Next.ite (fun _ ↦ Next.map fun a _ ↦ hgo (List.drop_suffix a m.cs)
        ⟨rfl, rfl, rfl, rfl⟩) fun _ ↦ ?_
      refine Next.ite (fun _ ↦ Next.ite (fun hlen ↦ Next.map fun a _ ↦ ?_)
        fun _ ↦ hgo hcode ⟨rfl, rfl, rfl, rfl⟩) fun _ ↦ ?_
      · exact h.next rfl (List.drop_suffix a m.cs)
          (.inr (h.ret.push ((List.drop_suffix 2 code).trans hcode) hlen)) (.inl rfl) (.inl rfl)
      refine Next.ite (fun _ ↦ execCmd_next h sh hcode) fun _ ↦ ?_
      cases hrest : instrRest (op :: code) with
      | some rest => exact hgo ((instrRest_suffix hrest).trans hop) ⟨rfl, rfl, rfl, rfl⟩
      | none =>
          refine Next.ite (fun _ ↦ Next.bind fun sub hsub ↦ execLoop_next h ?_) fun _ ↦ Next.none
          have hcons : sub :: code.drop 1 = code := by
            cases code with
            | nil => simp at hsub
            | cons b code => rw [Option.some.inj hsub, List.drop_one, List.tail_cons]
          rw [hcons]
          exact hcode

/-- A shell starts at the beginning of its image. -/
theorem Sound.start (cs : List UInt8) (env : ε) : Sound ⟨cs, cs, [], [], [], false, 0, env⟩ :=
  have hnil : Homes cs [] := ⟨by simp, by simp⟩
  ⟨List.suffix_rfl, hnil, hnil, hnil⟩

end Synchronet.Sbbs3.Baja
