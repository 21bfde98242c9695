import Mathlib.Data.List.Basic
import Mathlib.Data.Nat.Notation
import Mathlib.Logic.Function.Basic
import Mathlib.Logic.Relation

/-!
# A box with bells

Any number of processes put things into a box and empty it.  Who puts something in rings the
bells of the addressee behind it, and who empties the box stops the bells before it; a bell is a
flag in a record that others change, too.  The box is used under one lock and each record under
its own.  Nothing is lost or taken twice, and no bell stays silent while something waits.
-/

namespace Doorbell

variable {ι ν ρ κ ε β : Type*}

/-- The records with a bell, in the order in which they are visited, and what the calls do with
them.  There are kinds of calls that empty the box, which differ in the records they lock after a
look at them; the edits are what others do. -/
structure System (ν ρ κ ε : Type*) where
  bells : List ν
  there : ρ → Bool
  rung : ρ → Bool
  ring : ρ → ρ
  looks : κ → ρ → Bool
  stop : κ → ρ → ρ
  apply : ε → ρ → ρ
  rung_ring : ∀ r, rung (ring r) = true
  there_ring : ∀ r, there (ring r) = there r
  there_stop : ∀ k r, there (stop k r) = there r
  rung_apply : ∀ e r, rung (apply e r) = rung r
  there_apply : ∀ e r, there (apply e r) = there r

/-- Where a process is. -/
inductive Phase (ν ρ κ ε β : Type*)
  | idle
  | put (msg : List β)
  | writing (msg : List β)
  | written
  | look (rest : List ν)
  | ring (i : ν) (rest : List ν)
  | ringing (i : ν) (r : ρ) (rest : List ν)
  | sweep (k : κ) (rest : List ν)
  | stop (k : κ) (i : ν) (rest : List ν)
  | stopping (k : κ) (i : ν) (r : ρ) (rest : List ν)
  | opening
  | reading
  | taken (buf : List β)
  | emptied
  | edit (i : ν) (e : ε)
  | editing (i : ν) (r : ρ) (e : ε)

/-- The process has the lock of the box. -/
def Phase.HasFile : Phase ν ρ κ ε β → Prop
  | .writing _ => True
  | .written => True
  | .reading => True
  | .taken _ => True
  | .emptied => True
  | _ => False

/-- The record that the process has locked and read. -/
def Phase.fetched : Phase ν ρ κ ε β → Option (ν × ρ)
  | .ringing i r _ => some (i, r)
  | .stopping _ i r _ => some (i, r)
  | .editing i r _ => some (i, r)
  | _ => none

/-- The process will ring the bell of the record, or empty the box. -/
def Phase.Owes (i : ν) : Phase ν ρ κ ε β → Prop
  | .written => True
  | .look rest => i ∈ rest
  | .ring j rest => i ∈ j :: rest
  | .ringing j _ rest => i ∈ j :: rest
  | .sweep _ _ => True
  | .stop _ _ _ => True
  | .stopping _ _ _ _ => True
  | .opening => True
  | .reading => True
  | .taken _ => True
  | _ => False

/-- `sent` and `got` are what has been put in and taken out; `failed` says that a call has not got
a lock it needed. -/
structure State (ι ν ρ κ ε β : Type*) where
  content : List β
  record : ν → ρ
  file : Option ι
  lock : ν → Option ι
  phase : ι → Phase ν ρ κ ε β
  sent : List (List β)
  got : List (List β)
  failed : Bool

/-- An empty box, and nobody is doing anything. -/
def State.start (record : ν → ρ) : State ι ν ρ κ ε β where
  content := []
  record := record
  file := none
  lock _ := none
  phase _ := .idle
  sent := []
  got := []
  failed := false

namespace System

variable (D : System ν ρ κ ε)

/-- A move that changes nothing shared; the last argument says that a lock was not to be had. -/
inductive Quiet (content : List β) (record : ν → ρ) : Phase ν ρ κ ε β → Phase ν ρ κ ε β → Bool → Prop
  | put {msg : List β} : Quiet content record .idle (.put msg) false
  | refused {msg : List β} : Quiet content record (.put msg) .idle false
  | see {i : ν} {rest : List ν} (hthere : D.there (record i) = true)
      (hrung : D.rung (record i) = false) :
      Quiet content record (.look (i :: rest)) (.ring i rest) false
  | pass {i : ν} {rest : List ν} (h : D.there (record i) = true → D.rung (record i) = true) :
      Quiet content record (.look (i :: rest)) (.look rest) false
  | rang : Quiet content record (.look []) .idle false
  | mute {i : ν} {rest : List ν} : Quiet content record (.ring i rest) (.look rest) true
  | get {k : κ} : Quiet content record .idle (.sweep k D.bells) false
  | found {k : κ} {i : ν} {rest : List ν} (h : D.looks k (record i) = true) :
      Quiet content record (.sweep k (i :: rest)) (.stop k i rest) false
  | skip {k : κ} {i : ν} {rest : List ν} (h : D.looks k (record i) = false) :
      Quiet content record (.sweep k (i :: rest)) (.sweep k rest) false
  | leave {k : κ} {i : ν} {rest : List ν} :
      Quiet content record (.stop k i rest) (.sweep k rest) false
  | empty {k : κ} (h : content = []) : Quiet content record (.sweep k []) .idle false
  | check {k : κ} (h : content ≠ []) : Quiet content record (.sweep k []) .opening false
  | busy : Quiet content record .opening .idle true
  | read : Quiet content record .reading (.taken content) false
  | edit {i : ν} {e : ε} : Quiet content record .idle (.edit i e) false
  | giveUp {i : ν} {e : ε} : Quiet content record (.edit i e) .idle false

/-- The lock of the box is taken. -/
inductive Opens : Phase ν ρ κ ε β → Phase ν ρ κ ε β → Prop
  | put {msg : List β} : Opens (.put msg) (.writing msg)
  | get : Opens .opening .reading

/-- The lock of the box is let go. -/
inductive Closes : Phase ν ρ κ ε β → Phase ν ρ κ ε β → Prop
  | put : Closes .written (.look D.bells)
  | get : Closes .emptied .idle

/-- A record is locked and read. -/
inductive Locks (i : ν) (r : ρ) : Phase ν ρ κ ε β → Phase ν ρ κ ε β → Prop
  | ring {rest : List ν} : Locks i r (.ring i rest) (.ringing i r rest)
  | stop {k : κ} {rest : List ν} : Locks i r (.stop k i rest) (.stopping k i r rest)
  | edit {e : ε} : Locks i r (.edit i e) (.editing i r e)

/-- A record is written and its lock let go. -/
inductive Stores (i : ν) : Phase ν ρ κ ε β → ρ → Phase ν ρ κ ε β → Prop
  | ring {r : ρ} {rest : List ν} : Stores i (.ringing i r rest) (D.ring r) (.look rest)
  | stop {k : κ} {r : ρ} {rest : List ν} :
      Stores i (.stopping k i r rest) (D.stop k r) (.sweep k rest)
  | edit {r : ρ} {e : ε} : Stores i (.editing i r e) (D.apply e r) .idle

/-- A process moves on. -/
inductive Step [DecidableEq ι] [DecidableEq ν] : State ι ν ρ κ ε β → State ι ν ρ κ ε β → Prop
  | quiet {s : State ι ν ρ κ ε β} {p : ι} {φ : Phase ν ρ κ ε β} {failed : Bool}
      (h : D.Quiet s.content s.record (s.phase p) φ failed) :
      Step s { s with phase := Function.update s.phase p φ, failed := s.failed || failed }
  | openFile {s : State ι ν ρ κ ε β} {p : ι} {φ : Phase ν ρ κ ε β} (hfree : s.file = none)
      (h : Opens (s.phase p) φ) :
      Step s { s with file := some p, phase := Function.update s.phase p φ }
  | closeFile {s : State ι ν ρ κ ε β} {p : ι} {φ : Phase ν ρ κ ε β} (h : D.Closes (s.phase p) φ) :
      Step s { s with file := none, phase := Function.update s.phase p φ }
  | lock {s : State ι ν ρ κ ε β} {p : ι} {i : ν} {φ : Phase ν ρ κ ε β} (hfree : s.lock i = none)
      (h : Locks i (s.record i) (s.phase p) φ) :
      Step s { s with
        lock := Function.update s.lock i (some p)
        phase := Function.update s.phase p φ }
  | store {s : State ι ν ρ κ ε β} {p : ι} {i : ν} {r : ρ} {φ : Phase ν ρ κ ε β}
      (h : D.Stores i (s.phase p) r φ) :
      Step s { s with
        record := Function.update s.record i r
        lock := Function.update s.lock i none
        phase := Function.update s.phase p φ }
  | append {s : State ι ν ρ κ ε β} {p : ι} {msg : List β} (h : s.phase p = .writing msg) :
      Step s { s with
        content := s.content ++ msg
        sent := s.sent ++ [msg]
        phase := Function.update s.phase p .written }
  | take {s : State ι ν ρ κ ε β} {p : ι} {buf : List β} (h : s.phase p = .taken buf) :
      Step s { s with
        content := []
        got := s.got ++ [buf]
        phase := Function.update s.phase p .emptied }

/-! ## What holds in every run -/

/-- What a process knows. -/
structure Local (s : State ι ν ρ κ ε β) (p : ι) (φ : Phase ν ρ κ ε β) : Prop where
  file_iff : φ.HasFile ↔ s.file = some p
  lock_iff : ∀ i, (∃ r, φ.fetched = some (i, r)) ↔ s.lock i = some p
  fetched : ∀ i r, φ.fetched = some (i, r) → r = s.record i
  taken : ∀ buf, φ = .taken buf → buf = s.content
  emptied : φ = .emptied → s.content = []

/-- What has been put in has been taken out in whole pieces, in order, or is still there; and a box
that holds something has its bells rung, unless somebody still has to do it or has not got a
lock. -/
structure Inv (s : State ι ν ρ κ ε β) : Prop where
  locals : ∀ p, Local s p (s.phase p)
  content : ∃ (groups : List (List (List β))) (rest : List (List β)),
    groups.flatten ++ rest = s.sent ∧ groups.map List.flatten = s.got ∧
    rest.flatten = s.content
  bell : s.content ≠ [] → ∀ i ∈ D.bells, D.there (s.record i) = true →
    D.rung (s.record i) = true ∨ s.failed = true ∨ ∃ p, (s.phase p).Owes i

theorem inv_start (record : ν → ρ) : D.Inv (State.start record : State ι ν ρ κ ε β) where
  locals p := by
    constructor <;> simp [State.start, Phase.HasFile, Phase.fetched]
  content := ⟨[], [], rfl, rfl, rfl⟩
  bell h := absurd rfl h

variable {D} {s s' : State ι ν ρ κ ε β} {p : ι} {φ : Phase ν ρ κ ε β}

/-- Who has the lock of the box is the only one. -/
theorem Inv.eq_of_hasFile (h : D.Inv s) {q : ι} (hp : (s.phase p).HasFile)
    (hq : (s.phase q).HasFile) : p = q :=
  Option.some.inj ((((h.locals p).file_iff).mp hp).symm.trans (((h.locals q).file_iff).mp hq))

variable [DecidableEq ι]

theorem locals_update (h : D.Inv s) (hphase : s'.phase = Function.update s.phase p φ)
    (hp : Local s' p φ) (hq : ∀ q, q ≠ p → Local s q (s.phase q) → Local s' q (s.phase q)) :
    ∀ q, Local s' q (s'.phase q) := by
  intro q
  rw [hphase]
  rcases eq_or_ne q p with rfl | hne
  · simpa using hp
  · simpa [hne] using hq q hne (h.locals q)

/-- What others owe is not changed by a move. -/
theorem owes_update {i : ν} (howes : ∃ q, (s.phase q).Owes i)
    (hp : (s.phase p).Owes i → φ.Owes i) : ∃ q, (Function.update s.phase p φ q).Owes i := by
  obtain ⟨q, hq⟩ := howes
  rcases eq_or_ne q p with rfl | hne
  · exact ⟨q, by simpa using hp hq⟩
  · exact ⟨q, by simpa [hne] using hq⟩

/-- A bell that was rung or owed is, when one process has moved. -/
theorem Inv.bell_update (h : D.Inv s) {failed : Bool} (hfailed : s.failed = true → failed = true)
    (howes : ∀ i, D.there (s.record i) = true → (s.phase p).Owes i →
      φ.Owes i ∨ D.rung (s.record i) = true ∨ failed = true) (hcontent : s.content ≠ []) :
    ∀ i ∈ D.bells, D.there (s.record i) = true → D.rung (s.record i) = true ∨
      failed = true ∨ ∃ q, (Function.update s.phase p φ q).Owes i := by
  intro i hi hthere
  rcases h.bell hcontent i hi hthere with hrung | hold | ⟨q, hq⟩
  · exact Or.inl hrung
  · exact Or.inr (Or.inl (hfailed hold))
  · by_cases hp : (s.phase p).Owes i
    · rcases howes i hthere hp with howe | hrung | hnew
      · exact Or.inr (Or.inr (owes_update ⟨q, hq⟩ fun _ ↦ howe))
      · exact Or.inl hrung
      · exact Or.inr (Or.inl hnew)
    · exact Or.inr (Or.inr (owes_update ⟨q, hq⟩ fun h ↦ absurd h hp))

theorem Inv.quiet (h : D.Inv s) {failed : Bool}
    (hquiet : D.Quiet s.content s.record (s.phase p) φ failed) :
    D.Inv { s with phase := Function.update s.phase p φ, failed := s.failed || failed } := by
  have hp := h.locals p
  have hφ : Local s p φ ∧ (s.content ≠ [] → ∀ i, D.there (s.record i) = true →
      (s.phase p).Owes i → φ.Owes i ∨ D.rung (s.record i) = true ∨ failed = true) := by
    generalize s.phase p = φ₀ at hquiet hp
    obtain ⟨hfile, hlock, hfetched, htaken, hemptied⟩ := hp
    cases hquiet with
    | pass hpass =>
        refine ⟨⟨hfile, hlock, hfetched, by simp, by simp⟩, fun _ i hthere howes ↦ ?_⟩
        rcases List.mem_cons.mp howes with rfl | hi
        · exact Or.inr (Or.inl (hpass hthere))
        · exact Or.inl hi
    | empty hempty =>
        exact ⟨⟨hfile, hlock, hfetched, by simp, by simp⟩, fun hcontent ↦ absurd hempty hcontent⟩
    | read =>
        refine ⟨⟨hfile, hlock, hfetched, fun buf hbuf ↦ ?_, by simp⟩, fun _ _ _ _ ↦ Or.inl trivial⟩
        cases hbuf
        rfl
    | _ =>
        exact ⟨⟨hfile, hlock, hfetched, by simp, by simp⟩, by simp_all [Phase.Owes]⟩
  obtain ⟨hlocal, howes⟩ := hφ
  refine ⟨locals_update h rfl ?_ fun q _ hq ↦ ?_, h.content, fun hcontent ↦
    h.bell_update (by simp_all) (fun i hthere hp ↦ ?_) hcontent⟩
  · exact ⟨hlocal.file_iff, hlocal.lock_iff, hlocal.fetched, hlocal.taken, hlocal.emptied⟩
  · exact ⟨hq.file_iff, hq.lock_iff, hq.fetched, hq.taken, hq.emptied⟩
  · exact (howes hcontent i hthere hp).imp_right fun hrest ↦ hrest.imp_right fun hnew ↦ by simp [hnew]

theorem Inv.openFile (h : D.Inv s) (hfree : s.file = none) (hopens : Opens (s.phase p) φ) :
    D.Inv { s with file := some p, phase := Function.update s.phase p φ } := by
  have hp := h.locals p
  have hφ : φ.HasFile ∧ φ.fetched = (s.phase p).fetched ∧ (∀ buf, φ ≠ .taken buf) ∧
      φ ≠ .emptied ∧ ∀ i, (s.phase p).Owes i → φ.Owes i := by
    generalize s.phase p = φ₀ at hopens
    cases hopens <;> simp [Phase.HasFile, Phase.fetched, Phase.Owes]
  obtain ⟨hfile, hfetched, htaken, hemptied, howes⟩ := hφ
  refine ⟨locals_update h rfl ?_ fun q hne hq ↦ ?_, h.content,
    h.bell_update id fun i _ hi ↦ Or.inl (howes i hi)⟩
  · exact ⟨by simpa using hfile, hfetched ▸ hp.lock_iff, hfetched ▸ hp.fetched,
      fun buf hbuf ↦ absurd hbuf (htaken buf), fun he ↦ absurd he hemptied⟩
  · have hnot : ¬ (s.phase q).HasFile := fun hhas ↦ by simp [hq.file_iff.mp hhas] at hfree
    exact ⟨by simpa [hne.symm] using hnot, hq.lock_iff, hq.fetched, hq.taken, hq.emptied⟩

theorem Inv.closeFile (h : D.Inv s) (hcloses : D.Closes (s.phase p) φ) :
    D.Inv { s with file := none, phase := Function.update s.phase p φ } := by
  have hp := h.locals p
  have hφ : (s.phase p).HasFile ∧ ¬ φ.HasFile ∧ φ.fetched = (s.phase p).fetched ∧
      (∀ buf, φ ≠ .taken buf) ∧ φ ≠ .emptied ∧
      ∀ i ∈ D.bells, s.content ≠ [] → (s.phase p).Owes i → φ.Owes i := by
    have hempty := hp.emptied
    generalize s.phase p = φ₀ at hcloses hempty
    cases hcloses <;> simp_all [Phase.HasFile, Phase.fetched, Phase.Owes]
  obtain ⟨hhad, hfile, hfetched, htaken, hemptied, howes⟩ := hφ
  refine ⟨locals_update h rfl ?_ fun q hne hq ↦ ?_, h.content, ?_⟩
  · exact ⟨by simpa using hfile, hfetched ▸ hp.lock_iff, hfetched ▸ hp.fetched,
      fun buf hbuf ↦ absurd hbuf (htaken buf), fun he ↦ absurd he hemptied⟩
  · have hnot : ¬ (s.phase q).HasFile := fun hhas ↦ hne (h.eq_of_hasFile hhas hhad)
    exact ⟨by simpa using hnot, hq.lock_iff, hq.fetched, hq.taken, hq.emptied⟩
  · intro hcontent i hi hthere
    exact (h.bell hcontent i hi hthere).imp_right fun hrest ↦ hrest.imp_right fun hsome ↦
      owes_update hsome (howes i hi hcontent)

theorem Inv.append (h : D.Inv s) {msg : List β} (hphase : s.phase p = .writing msg) :
    D.Inv { s with
      content := s.content ++ msg
      sent := s.sent ++ [msg]
      phase := Function.update s.phase p .written } := by
  have hp := h.locals p
  rw [hphase] at hp
  have hhas : (s.phase p).HasFile := by rw [hphase]; trivial
  obtain ⟨groups, rest, hsent, hgot, hrest⟩ := h.content
  refine ⟨locals_update h rfl ?_ fun q hne hq ↦ ?_, ⟨groups, rest ++ [msg], ?_, hgot, ?_⟩, ?_⟩
  · exact ⟨by simpa [Phase.HasFile] using hp.file_iff, hp.lock_iff, hp.fetched, by simp, by simp⟩
  · have hnot : ¬ (s.phase q).HasFile := fun hq' ↦ hne (h.eq_of_hasFile hq' hhas)
    exact ⟨hq.file_iff, hq.lock_iff, hq.fetched, fun buf hbuf ↦ absurd (by simp [hbuf, Phase.HasFile])
      hnot, fun he ↦ absurd (by simp [he, Phase.HasFile]) hnot⟩
  · simp [← hsent]
  · simp [hrest]
  · exact fun _ i _ _ ↦ Or.inr (Or.inr ⟨p, by simp [Phase.Owes]⟩)

theorem Inv.take (h : D.Inv s) {buf : List β} (hphase : s.phase p = .taken buf) :
    D.Inv { s with
      content := []
      got := s.got ++ [buf]
      phase := Function.update s.phase p .emptied } := by
  have hp := h.locals p
  rw [hphase] at hp
  have hhas : (s.phase p).HasFile := by rw [hphase]; trivial
  obtain ⟨groups, rest, hsent, hgot, hrest⟩ := h.content
  refine ⟨locals_update h rfl ?_ fun q hne hq ↦ ?_, ⟨groups ++ [rest], [], ?_, ?_, rfl⟩,
    fun hcontent ↦ absurd rfl hcontent⟩
  · exact ⟨by simpa [Phase.HasFile] using hp.file_iff, hp.lock_iff, hp.fetched, by simp,
      fun _ ↦ rfl⟩
  · have hnot : ¬ (s.phase q).HasFile := fun hq' ↦ hne (h.eq_of_hasFile hq' hhas)
    exact ⟨hq.file_iff, hq.lock_iff, hq.fetched, fun buf hbuf ↦ absurd (by simp [hbuf, Phase.HasFile])
      hnot, fun _ ↦ rfl⟩
  · simp [← hsent]
  · simp [hgot, hrest, hp.taken buf rfl]

variable [DecidableEq ν]

theorem Inv.lock (h : D.Inv s) {i : ν} (hfree : s.lock i = none)
    (hlocks : Locks i (s.record i) (s.phase p) φ) :
    D.Inv { s with
      lock := Function.update s.lock i (some p)
      phase := Function.update s.phase p φ } := by
  have hp := h.locals p
  have hφ : (φ.HasFile ↔ (s.phase p).HasFile) ∧ (s.phase p).fetched = none ∧
      φ.fetched = some (i, s.record i) ∧ (∀ buf, φ ≠ .taken buf) ∧ φ ≠ .emptied ∧
      ∀ j, (s.phase p).Owes j → φ.Owes j := by
    generalize s.phase p = φ₀ at hlocks
    cases hlocks <;> simp [Phase.HasFile, Phase.fetched, Phase.Owes]
  obtain ⟨hfile, hbefore, hfetched, htaken, hemptied, howes⟩ := hφ
  have hnone : ∀ j, s.lock j ≠ some p := by
    intro j hj
    simpa [hbefore] using (hp.lock_iff j).mpr hj
  refine ⟨locals_update h rfl ?_ fun q hne hq ↦ ?_, h.content,
    h.bell_update id fun j _ hj ↦ Or.inl (howes j hj)⟩
  · refine ⟨hfile.trans hp.file_iff, fun j ↦ ?_, fun j r hr ↦ ?_,
      fun buf hbuf ↦ absurd hbuf (htaken buf), fun he ↦ absurd he hemptied⟩
    · rcases eq_or_ne j i with rfl | hj
      · simp [hfetched]
      · simp [hfetched, hj, hj.symm, hnone j]
    · simp only [hfetched, Option.some.injEq, Prod.mk.injEq] at hr
      obtain ⟨rfl, rfl⟩ := hr
      rfl
  · refine ⟨hq.file_iff, fun j ↦ ?_, hq.fetched, hq.taken, hq.emptied⟩
    rcases eq_or_ne j i with rfl | hj
    · have hnot : ¬ ∃ r, (s.phase q).fetched = some (j, r) := by
        rw [hq.lock_iff j, hfree]
        simp
      simpa [hne.symm] using hnot
    · simpa [hj] using hq.lock_iff j

theorem Inv.store (h : D.Inv s) {i : ν} {r : ρ} (hstores : D.Stores i (s.phase p) r φ) :
    D.Inv { s with
      record := Function.update s.record i r
      lock := Function.update s.lock i none
      phase := Function.update s.phase p φ } := by
  have hp := h.locals p
  have hφ : (φ.HasFile ↔ (s.phase p).HasFile) ∧ (∃ r₀, (s.phase p).fetched = some (i, r₀)) ∧
      φ.fetched = none ∧ (∀ buf, φ ≠ .taken buf) ∧ φ ≠ .emptied ∧
      D.there r = D.there (s.record i) ∧
      (∀ j, (s.phase p).Owes j → φ.Owes j ∨ j = i ∧ D.rung r = true) ∧
      (D.rung (s.record i) = true → D.rung r = true ∨ ∀ j, φ.Owes j) := by
    have hread := hp.fetched
    generalize s.phase p = φ₀ at hstores hread
    cases hstores with
    | ring =>
        obtain rfl := hread i _ rfl
        refine ⟨by simp [Phase.HasFile], ⟨_, rfl⟩, rfl, by simp, by simp, D.there_ring _,
          fun j hj ↦ ?_, fun _ ↦ Or.inl (D.rung_ring _)⟩
        rcases List.mem_cons.mp hj with rfl | hj
        · exact Or.inr ⟨rfl, D.rung_ring _⟩
        · exact Or.inl hj
    | stop =>
        obtain rfl := hread i _ rfl
        exact ⟨by simp [Phase.HasFile], ⟨_, rfl⟩, rfl, by simp, by simp, D.there_stop _ _,
          fun _ _ ↦ Or.inl trivial, fun _ ↦ Or.inr fun _ ↦ trivial⟩
    | edit =>
        obtain rfl := hread i _ rfl
        exact ⟨by simp [Phase.HasFile], ⟨_, rfl⟩, rfl, by simp, by simp, D.there_apply _ _,
          fun j hj ↦ hj.elim, fun hr ↦ Or.inl ((D.rung_apply _ _).trans hr)⟩
  obtain ⟨hfile, hheld, hfetched, htaken, hemptied, hthere, howes, hrung⟩ := hφ
  have hlock : s.lock i = some p := (hp.lock_iff i).mp hheld
  refine ⟨locals_update h rfl ?_ fun q hne hq ↦ ?_, h.content, fun hcontent j hj hthere' ↦ ?_⟩
  · refine ⟨hfile.trans hp.file_iff, fun j ↦ ?_, by simp [hfetched],
      fun buf hbuf ↦ absurd hbuf (htaken buf), fun he ↦ absurd he hemptied⟩
    rcases eq_or_ne j i with rfl | hj
    · simp [hfetched]
    · have hnot : s.lock j ≠ some p := by
        intro hlj
        obtain ⟨r₁, hr₁⟩ := (hp.lock_iff j).mpr hlj
        obtain ⟨r₀, hr₀⟩ := hheld
        rw [hr₀] at hr₁
        cases hr₁
        exact hj rfl
      simp [hfetched, hj, hnot]
  · have hnot : ¬ ∃ r, (s.phase q).fetched = some (i, r) := by
      rw [hq.lock_iff i, hlock]
      simpa using hne.symm
    refine ⟨hq.file_iff, fun j ↦ ?_, fun j r' hr ↦ ?_, hq.taken, hq.emptied⟩
    · rcases eq_or_ne j i with rfl | hj
      · simpa using hnot
      · simpa [hj] using hq.lock_iff j
    · rcases eq_or_ne j i with rfl | hj
      · exact absurd ⟨r', hr⟩ hnot
      · simpa [hj] using hq.fetched j r' hr
  · rcases eq_or_ne j i with rfl | hji
    · simp only [Function.update_self] at hthere' ⊢
      rcases h.bell hcontent j hj (hthere.symm.trans hthere') with hold | hfailed | ⟨q, hq⟩
      · rcases hrung hold with hnew | hall
        · exact Or.inl hnew
        · exact Or.inr (Or.inr ⟨p, by simpa using hall j⟩)
      · exact Or.inr (Or.inl hfailed)
      · by_cases hrings : D.rung r = true
        · exact Or.inl hrings
        · exact Or.inr (Or.inr (owes_update ⟨q, hq⟩ fun howe ↦
            (howes j howe).resolve_right fun hr ↦ hrings hr.2))
    · simp only [Function.update_of_ne hji] at hthere' ⊢
      exact (h.bell hcontent j hj hthere').imp_right fun hrest ↦ hrest.imp_right fun hsome ↦
        owes_update hsome fun howe ↦ (howes j howe).resolve_right fun hr ↦ hji hr.1

theorem Inv.step (h : D.Inv s) (hstep : D.Step s s') : D.Inv s' := by
  cases hstep with
  | quiet hquiet => exact h.quiet hquiet
  | openFile hfree hopens => exact h.openFile hfree hopens
  | closeFile hcloses => exact h.closeFile hcloses
  | lock hfree hlocks => exact h.lock hfree hlocks
  | store hstores => exact h.store hstores
  | append hphase => exact h.append hphase
  | take hphase => exact h.take hphase

theorem Inv.run (h : D.Inv s) (hrun : Relation.ReflTransGen D.Step s s') : D.Inv s' := by
  induction hrun with
  | refl => exact h
  | tail _ hstep ih => exact ih.step hstep

end System

end Doorbell
