import Synchronet.Sbbs3.DatRec
import Synchronet.Xpdev.Genwrap
import Synchronet.Xpdev.LinkListSeq
import Mathlib.Data.Fintype.EquivFin

/-!
# Failed logins (userdat.c)

A list keeps one attempt for each host with failed logins since its last success.  A failure
with the same user and password as the one before is a duplicate.  The stored user and
password are cut to the size of their arrays, so that duplicates of longer ones are missed.
-/

namespace Synchronet.Sbbs3

open DoublyLinked
open Xpdev (Str safecopy LinkList NodeInfo NodeSeq Place listNodeTagDefault)
open Xpdev.LinkList (findLoop)

/-! ## Addresses -/

inductive Host
  | inet (sinAddr : UInt32)
  | inet6 (sin6Addr : List UInt8)
  deriving DecidableEq

/-- `union xp_sockaddr` -/
inductive SockAddr
  | inet (sinAddr : UInt32) (port : UInt16)
  | inet6 (sin6Addr : List UInt8) (port : UInt16)
  | other (family : UInt16)
  deriving DecidableEq

/-- The host of an `AF_INET` or `AF_INET6` address. -/
def SockAddr.host : SockAddr → Option Host
  | .inet addr _ => some (.inet addr)
  | .inet6 addr _ => some (.inet6 addr)
  | .other _ => none

/-- `login_attempt_t` -/
structure LoginAttempt where
  addr : SockAddr
  count : ℕ := 0
  dupes : ℕ := 0
  time : ℤ := 0
  prot : Str := []
  user : Str := []
  pass : Str := []

def lenProt : ℕ := 32
def lenLogin : ℕ := 128

/-- The comparison of an attempt with an address in `login_attempted`. -/
def sameHost (attempt : LoginAttempt) (addr : SockAddr) : Bool :=
  match attempt.addr, addr with
  | .inet a _, .inet b _ => a = b
  | .inet6 a _, .inet6 b _ => a = b
  | _, _ => false

def loginAttempted (list : LinkList LoginAttempt) (addr : SockAddr) : Option (Option ℕ) :=
  findLoop list.heap (fun node ↦ node.data.any (sameHost · addr)) list.count list.first

def loginAttempts (list : LinkList LoginAttempt) (addr : SockAddr) : Option ℕ :=
  if addr.host.isNone then some 0
  else do
    match ← loginAttempted list addr with
    | none => some 0
    | some a => do
        let node ← list.heap a
        let attempt ← node.payload.data
        some (attempt.count - attempt.dupes)

def loginSuccess (list : LinkList LoginAttempt) (addr : SockAddr) :
    Option (LinkList LoginAttempt) :=
  if addr.host.isNone then some list
  else do
    match ← loginAttempted list addr with
    | none => some list
    | some a => do
        let (list, _) ← list.listRemoveNode (.node a) true
        some list

/-- Whether a failure repeats the stored one. -/
def LoginAttempt.repeated (attempt : LoginAttempt) (user pass : Option Str) : Bool :=
  user.any (attempt.user = ·) && pass.all (attempt.pass = ·)

/-- The attempt with one more failure. -/
def LoginAttempt.record (attempt : LoginAttempt) (addr : SockAddr) (prot : Str)
    (user pass : Option Str) (now : ℤ) : LoginAttempt :=
  { attempt with
    prot := safecopy lenProt prot
    time := now
    addr
    user := user.elim attempt.user (safecopy lenLogin)
    pass := pass.elim [] (safecopy lenLogin)
    count := attempt.count + 1 }

/-- `listPushNodeData`, where the node gets the address `malloc` and the copy succeeds. -/
def listPushNodeData (list : LinkList LoginAttempt) (data : LoginAttempt) (malloc : ℕ) :
    Option (LinkList LoginAttempt × Option ℕ) :=
  list.listAddNodeString (some data) listNodeTagDefault .last (some malloc)

/-- `loginFailure`: the list and the number of unique attempts. -/
def loginFailure (list : LinkList LoginAttempt) (addr : SockAddr) (prot : Str)
    (user pass : Option Str) (now : ℤ) (malloc : ℕ) : Option (LinkList LoginAttempt × ℕ) :=
  if addr.host.isNone then some (list, 0)
  else do
    match ← loginAttempted list addr with
    | some a => do
        let node ← list.heap a
        let attempt ← node.payload.data
        let dupes := if attempt.repeated user pass then attempt.dupes + 1 else attempt.dupes
        let attempt := { attempt with dupes }.record addr prot user pass now
        let heap ← modifyCell list.heap a fun c ↦ { c with payload.data := some attempt }
        some ({ list with heap }, attempt.count - attempt.dupes)
    | none => do
        let attempt := { addr : LoginAttempt }.record addr prot user pass now
        let (list, _) ← listPushNodeData list attempt malloc
        some (list, attempt.count - attempt.dupes)

/-! ## Calls and their history -/

/-- The calls on the list, with what the clock and `malloc` give. -/
inductive LoginCall
  | failure (addr : SockAddr) (prot user pass : Str) (now : ℤ) (malloc : ℕ)
  | success (addr : SockAddr)

def LoginCall.step (list : LinkList LoginAttempt) : LoginCall → Option (LinkList LoginAttempt)
  | .failure addr prot user pass now malloc =>
      (loginFailure list addr prot (some user) (some pass) now malloc).map Prod.fst
  | .success addr => loginSuccess list addr

/-- `malloc` gives the address of no node. -/
def LoginCall.Fresh (list : LinkList LoginAttempt) : LoginCall → Prop
  | .failure _ _ _ _ _ malloc => list.heap malloc = none
  | .success _ => True

/-- The lists after the calls, starting from an empty one. -/
inductive LoginRun : List LoginCall → LinkList LoginAttempt → Prop
  | init : LoginRun [] LinkList.listInit
  | call {calls : List LoginCall} {list list' : LinkList LoginAttempt} {call : LoginCall}
      (h : LoginRun calls list) (hfresh : call.Fresh list) (hstep : call.step list = some list') :
      LoginRun (calls ++ [call]) list'

/-- What is known of a host: its failures since the last success that do not repeat the one
before, and the user and password of the last one. -/
abbrev Tally := Option (ℕ × Str × Str)

/-- A call in the tally of a host, where `same` tells which failures repeat the one before. -/
def tallyStep (same : Str × Str → Str × Str → Prop) [DecidableRel same] (h : Host) (t : Tally) :
    LoginCall → Tally
  | .failure addr _ user pass _ _ =>
      if addr.host = some h then
        match t with
        | none => some (1, user, pass)
        | some (n, last) => some (if same last (user, pass) then n else n + 1, user, pass)
      else t
  | .success addr => if addr.host = some h then none else t

def tally (same : Str × Str → Str × Str → Prop) [DecidableRel same] (h : Host)
    (calls : List LoginCall) : Tally :=
  calls.foldl (tallyStep same h) none

/-- The failures of a host since its last success that are not an immediate repetition. -/
def failures (h : Host) (calls : List LoginCall) : ℕ := (tally (· = ·) h calls).elim 0 Prod.fst

/-- The user and password of a failure as they are stored. -/
def stored128 (last : Str × Str) : Str × Str :=
  (safecopy lenLogin last.1, safecopy lenLogin last.2)

/-- The repetitions that `loginFailure` sees. -/
def Repeats (last next : Str × Str) : Prop := stored128 last = next

instance : DecidableRel Repeats := fun _ next ↦ inferInstanceAs (Decidable (_ = next))

/-- A failure is clear if the one before it was stored completely, or else is neither the same
nor its stored part. -/
def LoginCall.Clear (calls : List LoginCall) : LoginCall → Prop
  | .failure addr _ user pass _ _ =>
      ∀ h ∈ addr.host, ∀ t ∈ tally (· = ·) h calls,
        stored128 t.2 = t.2 ∨ ((user, pass) ≠ t.2 ∧ (user, pass) ≠ stored128 t.2)
  | .success _ => True

/-- The host of a call. -/
def LoginCall.host : LoginCall → Option Host
  | .failure addr _ _ _ _ _ => addr.host
  | .success addr => addr.host

/-- Every call is clear after the calls before it. -/
def ClearRun (calls : List LoginCall) : Prop :=
  ∀ before call after, calls = before ++ call :: after → call.Clear before

/-! ## Hosts in a sequence of nodes -/

theorem sameHost_iff {attempt : LoginAttempt} {addr : SockAddr} {h : Host}
    (haddr : addr.host = some h) : sameHost attempt addr = true ↔ attempt.addr.host = some h := by
  obtain ⟨at_, -, -, -, -, -, -⟩ := attempt
  cases at_ <;> cases addr <;> simp_all [sameHost, SockAddr.host] <;> simp [← haddr]

variable {list : LinkList LoginAttempt} {seq xs ys : NodeSeq LoginAttempt}
  {y : ℕ × NodeInfo LoginAttempt} {h k : Host}

/-- The host of a node. -/
def hostOf (x : ℕ × NodeInfo LoginAttempt) : Option Host := x.2.data.bind (·.addr.host)

/-- The attempt that is kept for a host. -/
def attemptOf (seq : NodeSeq LoginAttempt) (h : Host) : Option LoginAttempt :=
  (seq.find? fun x ↦ hostOf x = some h).bind (·.2.data)

theorem attemptOf_append_ne (hy : hostOf y ≠ some h) :
    attemptOf (xs ++ y :: ys) h = attemptOf (xs ++ ys) h := by
  simp [attemptOf, List.find?_append, hy]

theorem attemptOf_middle (hxs : ∀ x ∈ xs, hostOf x ≠ some h) (hy : hostOf y = some h) :
    attemptOf (xs ++ y :: ys) h = y.2.data := by
  have hnone : xs.find? (fun x ↦ hostOf x = some h) = none :=
    List.find?_eq_none.mpr fun x hx ↦ by simpa using hxs x hx
  simp [attemptOf, List.find?_append, hnone, hy]

theorem attemptOf_none (hseq : ∀ x ∈ seq, hostOf x ≠ some h) : attemptOf seq h = none := by
  have hnone : seq.find? (fun x ↦ hostOf x = some h) = none :=
    List.find?_eq_none.mpr fun x hx ↦ by simpa using hseq x hx
  rw [attemptOf, hnone]
  rfl

theorem loginAttempted_eq (hlist : list.Is seq) {addr : SockAddr} (haddr : addr.host = some h) :
    loginAttempted list addr = some ((seq.find? fun x ↦ hostOf x = some h).map Prod.fst) := by
  rw [loginAttempted, hlist.first, LinkList.findLoop_eq _ hlist.linked hlist.count.ge]
  congr 3
  funext x
  rw [Bool.eq_iff_iff, decide_eq_true_eq, hostOf]
  cases x.2.data with
  | none => simp
  | some attempt => simpa using sameHost_iff haddr

/-- The node of a host, if there is one. -/
theorem loginAttempted_cases (hlist : list.Is seq) {addr : SockAddr}
    (haddr : addr.host = some h) :
    (loginAttempted list addr = some none ∧ ∀ x ∈ seq, hostOf x ≠ some h) ∨
      ∃ xs y ys, seq = xs ++ y :: ys ∧ loginAttempted list addr = some (some y.1) ∧
        hostOf y = some h ∧ ∀ x ∈ xs, hostOf x ≠ some h := by
  rw [loginAttempted_eq hlist haddr]
  cases hfind : seq.find? (fun x ↦ hostOf x = some h) with
  | none =>
      refine .inl ⟨rfl, fun x hx ↦ ?_⟩
      simpa using List.find?_eq_none.mp hfind x hx
  | some y =>
      obtain ⟨hy, xs, ys, hseq, hxs⟩ := List.find?_eq_some_iff_append.mp hfind
      exact .inr ⟨xs, y, ys, hseq, rfl, by simpa using hy, fun x hx ↦ by simpa using hxs x hx⟩

/-! ## The list follows its history -/

/-- What is kept of a host agrees with its tally. -/
def Agrees : Option LoginAttempt → Tally → Prop
  | none, none => True
  | some attempt, some (n, last) =>
      attempt.count = n + attempt.dupes ∧ (attempt.user, attempt.pass) = stored128 last
  | _, _ => False

/-- The sequence has one node for each host with failures, which agrees with its tally. -/
structure Tracks (seq : NodeSeq LoginAttempt) (calls : List LoginCall) : Prop where
  unlocked : ∀ x ∈ seq, x.2.locked = false
  known : ∀ x ∈ seq, (hostOf x).isSome
  hosts : (seq.map hostOf).Nodup
  agrees : ∀ h, Agrees (attemptOf seq h) (tally Repeats h calls)

theorem tally_append (same : Str × Str → Str × Str → Prop) [DecidableRel same] (h : Host)
    (calls : List LoginCall) (call : LoginCall) :
    tally same h (calls ++ [call]) = tallyStep same h (tally same h calls) call := by
  simp [tally, List.foldl_append]

theorem tracks_nil : Tracks [] [] where
  unlocked := by simp
  known := by simp
  hosts := by simp
  agrees := fun _ ↦ trivial

theorem Tracks.ne_of_front {calls : List LoginCall} (ht : Tracks (xs ++ y :: ys) calls)
    (hy : hostOf y = some h) : (∀ x ∈ xs, hostOf x ≠ some h) ∧ ∀ x ∈ ys, hostOf x ≠ some h := by
  have hnodup := ht.hosts
  rw [List.map_append, List.map_cons, hy] at hnodup
  obtain ⟨-, hys, hdisjoint⟩ := List.nodup_append.mp hnodup
  refine ⟨fun x hx heq ↦ ?_, fun x hx heq ↦ ?_⟩
  · exact hdisjoint _ (List.mem_map_of_mem hx) _ List.mem_cons_self heq
  · exact (List.nodup_cons.mp hys).1 (heq ▸ List.mem_map_of_mem hx)

theorem loginAttempts_eq {calls : List LoginCall} (hlist : list.Is seq) (ht : Tracks seq calls)
    {addr : SockAddr} (haddr : addr.host = some h) :
    loginAttempts list addr = some ((tally Repeats h calls).elim 0 Prod.fst) := by
  have hagrees := ht.agrees h
  rw [loginAttempts, haddr]
  obtain ⟨hnone, hseq⟩ | ⟨xs, y, ys, rfl, hsome, hy, hxs⟩ := loginAttempted_cases hlist haddr
  · rw [attemptOf_none hseq] at hagrees
    rw [hnone]
    cases htally : tally Repeats h calls with
    | none => rfl
    | some t =>
        rw [htally] at hagrees
        exact hagrees.elim
  · obtain ⟨a, y⟩ := y
    rw [attemptOf_middle hxs hy] at hagrees
    cases hdata : y.data with
    | none => simp [hostOf, hdata] at hy
    | some attempt =>
        simp only [hdata] at hagrees
        cases htally : tally Repeats h calls with
        | none =>
            rw [htally] at hagrees
            exact hagrees.elim
        | some t =>
            rw [htally] at hagrees
            have hcount : attempt.count - attempt.dupes = t.1 := by
              rw [hagrees.1, Nat.add_sub_cancel]
            simp only [hsome, hlist.get, hdata, Option.isNone_some, Bool.false_eq_true, if_false,
              Option.bind_eq_bind, Option.bind_some, hcount, Option.elim_some]

/-! ## What a call does to the sequence -/

theorem tallyStep_of_ne {same : Str × Str → Str × Str → Prop} [DecidableRel same]
    {call : LoginCall} (hne : call.host ≠ some k) (t : Tally) : tallyStep same k t call = t := by
  cases call with
  | failure addr prot user pass now malloc => exact if_neg hne
  | success addr => exact if_neg hne

variable {calls : List LoginCall} {call : LoginCall}

/-- The tallies of the other hosts stay. -/
theorem Tracks.agrees_of_ne (ht : Tracks seq calls) (hne : call.host ≠ some k) :
    Agrees (attemptOf seq k) (tally Repeats k (calls ++ [call])) := by
  rw [tally_append, tallyStep_of_ne hne]
  exact ht.agrees k

theorem Tracks.same (ht : Tracks seq calls)
    (hstep : ∀ k, tally Repeats k (calls ++ [call]) = tally Repeats k calls) :
    Tracks seq (calls ++ [call]) where
  unlocked := ht.unlocked
  known := ht.known
  hosts := ht.hosts
  agrees := fun k ↦ hstep k ▸ ht.agrees k

theorem Tracks.remove (ht : Tracks (xs ++ y :: ys) calls) (hy : hostOf y = some h)
    (hhost : call.host = some h) (hstep : tally Repeats h (calls ++ [call]) = none) :
    Tracks (xs ++ ys) (calls ++ [call]) := by
  obtain ⟨hxs, hys⟩ := ht.ne_of_front hy
  have hsub : (xs ++ ys).Sublist (xs ++ y :: ys) :=
    (List.Sublist.refl xs).append (List.sublist_cons_self y ys)
  constructor
  case unlocked => exact fun x hx ↦ ht.unlocked x (hsub.subset hx)
  case known => exact fun x hx ↦ ht.known x (hsub.subset hx)
  case hosts => exact ht.hosts.sublist (hsub.map hostOf)
  case agrees =>
    intro k
    by_cases hk : k = h
    · rw [hk, hstep, attemptOf_none]
      · trivial
      · intro x hx
        exact (List.mem_append.mp hx).elim (hxs x) (hys x)
    · have hne : some h ≠ some k := fun heq ↦ hk (Option.some.inj heq).symm
      have hagrees := ht.agrees_of_ne (hhost ▸ hne)
      rwa [attemptOf_append_ne (hy ▸ hne)] at hagrees

theorem Tracks.replace (ht : Tracks (xs ++ y :: ys) calls) (hy : hostOf y = some h)
    {z : ℕ × NodeInfo LoginAttempt} (hz : hostOf z = some h) (hunlocked : z.2.locked = false)
    (hhost : call.host = some h)
    (hstep : Agrees z.2.data (tally Repeats h (calls ++ [call]))) :
    Tracks (xs ++ z :: ys) (calls ++ [call]) := by
  have hmem : ∀ x ∈ xs ++ z :: ys, x = z ∨ x ∈ xs ++ y :: ys := by
    intro x hx
    simp only [List.mem_append, List.mem_cons] at hx ⊢
    tauto
  constructor
  case unlocked =>
    intro x hx
    obtain rfl | hx := hmem x hx
    · exact hunlocked
    · exact ht.unlocked x hx
  case known =>
    intro x hx
    obtain rfl | hx := hmem x hx
    · rw [hz]
      rfl
    · exact ht.known x hx
  case hosts =>
    have hhosts := ht.hosts
    rwa [List.map_append, List.map_cons, hy, ← hz, ← List.map_cons, ← List.map_append] at hhosts
  case agrees =>
    intro k
    by_cases hk : k = h
    · rwa [hk, attemptOf_middle (ht.ne_of_front hy).1 hz]
    · have hne : some h ≠ some k := fun heq ↦ hk (Option.some.inj heq).symm
      have hagrees := ht.agrees_of_ne (hhost ▸ hne)
      rw [attemptOf_append_ne (hy ▸ hne)] at hagrees
      rwa [attemptOf_append_ne (hz ▸ hne)]

theorem Tracks.append (ht : Tracks seq calls) (hseq : ∀ x ∈ seq, hostOf x ≠ some h)
    (hy : hostOf y = some h) (hunlocked : y.2.locked = false) (hhost : call.host = some h)
    (hstep : Agrees y.2.data (tally Repeats h (calls ++ [call]))) :
    Tracks (seq ++ [y]) (calls ++ [call]) := by
  constructor
  case unlocked =>
    intro x hx
    obtain hx | hx := List.mem_append.mp hx
    · exact ht.unlocked x hx
    · exact List.mem_singleton.mp hx ▸ hunlocked
  case known =>
    intro x hx
    obtain hx | hx := List.mem_append.mp hx
    · exact ht.known x hx
    · rw [List.mem_singleton.mp hx, hy]
      rfl
  case hosts =>
    rw [List.map_append, List.map_singleton, hy]
    apply List.Nodup.append ht.hosts (List.nodup_singleton _)
    intro b hb hmem
    obtain ⟨x, hx, rfl⟩ := List.mem_map.mp hb
    exact hseq x hx (List.mem_singleton.mp hmem)
  case agrees =>
    intro k
    by_cases hk : k = h
    · rwa [hk, attemptOf_middle hseq hy]
    · have hne : some h ≠ some k := fun heq ↦ hk (Option.some.inj heq).symm
      rw [attemptOf_append_ne (hy ▸ hne), List.append_nil]
      exact ht.agrees_of_ne (hhost ▸ hne)

/-! ## What a call does to the list -/

theorem agrees_none {t : Tally} (h : Agrees none t) : t = none := by
  cases t with
  | none => rfl
  | some t => exact h.elim

theorem agrees_some {attempt : LoginAttempt} {t : Tally} (h : Agrees (some attempt) t) :
    ∃ n last, t = some (n, last) ∧ attempt.count = n + attempt.dupes ∧
      (attempt.user, attempt.pass) = stored128 last := by
  cases t with
  | none => exact h.elim
  | some t => exact ⟨t.1, t.2, rfl, h⟩

theorem tracks_of_host_none (ht : Tracks seq calls) (hhost : call.host = none) :
    Tracks seq (calls ++ [call]) := by
  apply ht.same
  intro k
  rw [tally_append, tallyStep_of_ne (by simp [hhost])]

theorem loginSuccess_tracks (hlist : list.Is seq) (ht : Tracks seq calls) (addr : SockAddr) :
    ∃ list' seq', loginSuccess list addr = some list' ∧ list'.Is seq' ∧
      Tracks seq' (calls ++ [.success addr]) := by
  cases haddr : addr.host with
  | none =>
      refine ⟨list, seq, ?_, hlist, tracks_of_host_none ht haddr⟩
      simp [loginSuccess, haddr]
  | some h =>
      have htally : tally Repeats h (calls ++ [.success addr]) = none := by
        simp [tally_append, tallyStep, haddr]
      obtain ⟨hnone, hseq⟩ | ⟨xs, y, ys, rfl, hsome, hy, -⟩ := loginAttempted_cases hlist haddr
      · refine ⟨list, seq, by simp [loginSuccess, haddr, hnone], hlist, ht.same fun k ↦ ?_⟩
        by_cases hk : k = h
        · have hagrees := ht.agrees h
          rw [attemptOf_none hseq] at hagrees
          rw [hk, htally, agrees_none hagrees]
        · rw [tally_append, tallyStep_of_ne]
          exact fun heq ↦ hk (Option.some.inj (haddr.symm.trans heq)).symm
      · have hplace : list.nodeAt (.node y.1) = some y.1 := rfl
        obtain ⟨list', hremove, hlist'⟩ :=
          hlist.listRemoveNode_of_unlocked hplace (ht.unlocked y (by simp)) true
        refine ⟨list', xs ++ ys, ?_, hlist', ht.remove hy haddr htally⟩
        simp [loginSuccess, haddr, hsome, hremove]

theorem not_mem_places_of_free {a : ℕ} (hlist : list.Is seq) (ha : list.heap a = none) :
    a ∉ places seq := by
  intro hmem
  obtain ⟨xs, x, ys, rfl, -, -⟩ := hlist.split hmem
  simp [hlist.get] at ha

/-- The attempt that `loginFailure` stores agrees with the tally after it. -/
theorem agrees_record {attempt : LoginAttempt} {addr : SockAddr} {user pass : Str} {t : Tally}
    (hagrees : Agrees (some attempt) t) (haddr : addr.host = some h) (prot : Str) (now : ℤ)
    (malloc : ℕ) :
    Agrees (some (LoginAttempt.record
        { attempt with
          dupes := if attempt.repeated (some user) (some pass) then attempt.dupes + 1
            else attempt.dupes } addr prot (some user) (some pass) now))
      (tallyStep Repeats h t (.failure addr prot user pass now malloc)) := by
  obtain ⟨n, last, rfl, hcount, hstored⟩ := agrees_some hagrees
  have hrepeated : attempt.repeated (some user) (some pass) = true ↔ Repeats last (user, pass) := by
    rw [Repeats, ← hstored, Prod.mk.injEq]
    simp [LoginAttempt.repeated]
  rw [tallyStep, if_pos haddr]
  refine ⟨?_, rfl⟩
  by_cases h : Repeats last (user, pass)
  · simp only [LoginAttempt.record, if_pos (hrepeated.mpr h), if_pos h, hcount]
    rfl
  · simp only [LoginAttempt.record, if_neg (mt hrepeated.mp h), if_neg h, hcount]
    omega

theorem listPushNodeData_is (hlist : list.Is seq) (data : LoginAttempt) {malloc : ℕ}
    (hmalloc : list.heap malloc = none) :
    ∃ list', listPushNodeData list data malloc = some (list', some malloc) ∧
      list'.Is (seq ++ [(malloc, ⟨some data, listNodeTagDefault, false, true⟩)]) := by
  have hlist₀ : list.Is (seq ++ []) := by rwa [List.append_nil]
  have hplaces : malloc ∉ places (seq ++ []) := not_mem_places_of_free hlist₀ hmalloc
  exact hlist₀.listAddNodeString hplaces hlist.last

theorem loginFailure_new {addr : SockAddr} (hlist : list.Is seq)
    (hseq : loginAttempted list addr = some none) (haddr : addr.host = some h)
    (prot user pass : Str) (now : ℤ) {malloc : ℕ} (hmalloc : list.heap malloc = none) :
    ∃ list', (loginFailure list addr prot (some user) (some pass) now malloc).map Prod.fst =
        some list' ∧
      list'.Is (seq ++ [(malloc, ⟨some (LoginAttempt.record { addr } addr prot (some user)
        (some pass) now), listNodeTagDefault, false, true⟩)]) := by
  obtain ⟨list', hpush, hlist'⟩ := listPushNodeData_is hlist
    (LoginAttempt.record { addr } addr prot (some user) (some pass) now) hmalloc
  refine ⟨list', ?_, hlist'⟩
  rw [loginFailure, haddr]
  simp only [Option.isNone_some, Bool.false_eq_true, if_false, hseq, Option.bind_eq_bind,
    Option.bind_some, hpush, Option.map_some]

theorem loginFailure_known {addr : SockAddr} {a : ℕ} {x : NodeInfo LoginAttempt}
    {attempt : LoginAttempt} (hlist : list.Is (xs ++ (a, x) :: ys))
    (hfound : loginAttempted list addr = some (some a)) (hx : x.data = some attempt)
    (haddr : addr.host = some h) (prot user pass : Str) (now : ℤ) (malloc : ℕ) :
    ∃ list', (loginFailure list addr prot (some user) (some pass) now malloc).map Prod.fst =
        some list' ∧
      list'.Is (xs ++ (a, { x with
        data := some (LoginAttempt.record
          { attempt with
            dupes := if attempt.repeated (some user) (some pass) then attempt.dupes + 1
              else attempt.dupes } addr prot (some user) (some pass) now) }) :: ys) := by
  have hnodup := hlist.nodup
  rw [places_append, places_cons, List.perm_middle.nodup_iff, List.nodup_cons, List.mem_append,
    not_or] at hnodup
  have hmem : a ∈ places (xs ++ (a, x) :: ys) := by simp
  obtain ⟨heap, hmodify, hlist'⟩ := hlist.modify hmem fun x ↦ { x with
    data := some (LoginAttempt.record
      { attempt with
        dupes := if attempt.repeated (some user) (some pass) then attempt.dupes + 1
          else attempt.dupes } addr prot (some user) (some pass) now) }
  rw [NodeSeq.modify_append hnodup.1.1 hnodup.1.2] at hlist'
  refine ⟨_, ?_, hlist'⟩
  rw [loginFailure, haddr]
  simp only [Option.isNone_some, Bool.false_eq_true, if_false, hfound, Option.bind_eq_bind,
    Option.bind_some, hlist.get, hx, hmodify, Option.map_some]

theorem loginFailure_tracks (hlist : list.Is seq) (ht : Tracks seq calls) (addr : SockAddr)
    (prot user pass : Str) (now : ℤ) {malloc : ℕ} (hmalloc : list.heap malloc = none) :
    ∃ list' seq', (loginFailure list addr prot (some user) (some pass) now malloc).map Prod.fst =
        some list' ∧ list'.Is seq' ∧
      Tracks seq' (calls ++ [.failure addr prot user pass now malloc]) := by
  cases haddr : addr.host with
  | none =>
      refine ⟨list, seq, ?_, hlist, tracks_of_host_none ht haddr⟩
      simp [loginFailure, haddr]
  | some h =>
      have hagrees := ht.agrees h
      obtain ⟨hnone, hseq⟩ | ⟨xs, ⟨a, x⟩, ys, rfl, hsome, hy, hxs⟩ :=
        loginAttempted_cases hlist haddr
      · rw [attemptOf_none hseq] at hagrees
        obtain ⟨list', hstep, hlist'⟩ :=
          loginFailure_new hlist hnone haddr prot user pass now hmalloc
        refine ⟨list', _, hstep, hlist', ht.append hseq haddr rfl haddr ?_⟩
        rw [tally_append, agrees_none hagrees, tallyStep, if_pos haddr]
        exact ⟨rfl, rfl⟩
      · rw [attemptOf_middle hxs hy] at hagrees
        obtain ⟨attempt, hx, -⟩ := Option.bind_eq_some_iff.mp hy
        dsimp only at hx
        obtain ⟨list', hstep, hlist'⟩ :=
          loginFailure_known hlist hsome hx haddr prot user pass now malloc
        have hunlocked : x.locked = false := ht.unlocked (a, x) (by simp)
        refine ⟨list', _, hstep, hlist', ht.replace hy haddr hunlocked haddr ?_⟩
        rw [tally_append]
        rw [hx] at hagrees
        exact agrees_record hagrees haddr prot now malloc

/-- A call whose node gets a free address does not fail, and the list keeps following its
history. -/
theorem step_tracks (hlist : list.Is seq) (ht : Tracks seq calls) (hfresh : call.Fresh list) :
    ∃ list' seq', call.step list = some list' ∧ list'.Is seq' ∧ Tracks seq' (calls ++ [call]) := by
  cases call with
  | failure addr prot user pass now malloc =>
      exact loginFailure_tracks hlist ht addr prot user pass now hfresh
  | success addr => exact loginSuccess_tracks hlist ht addr

theorem LoginRun.tracks (hrun : LoginRun calls list) :
    ∃ seq, list.Is seq ∧ Tracks seq calls := by
  induction hrun with
  | init => exact ⟨[], Xpdev.LinkList.listInit_is, tracks_nil⟩
  | call _ hfresh hstep ih =>
      obtain ⟨seq, hlist, ht⟩ := ih
      obtain ⟨list', seq', hstep', hlist', ht'⟩ := step_tracks hlist ht hfresh
      obtain rfl := Option.some.inj (hstep'.symm.trans hstep)
      exact ⟨seq', hlist', ht'⟩

/-! ## Repetitions that are seen -/

theorem LoginRun.loginAttempts (hrun : LoginRun calls list) {addr : SockAddr}
    (haddr : addr.host = some h) :
    Sbbs3.loginAttempts list addr = some ((tally Repeats h calls).elim 0 Prod.fst) := by
  obtain ⟨seq, hlist, ht⟩ := hrun.tracks
  exact loginAttempts_eq hlist ht haddr

theorem clearRun_append : ClearRun (calls ++ [call]) ↔ ClearRun calls ∧ call.Clear calls := by
  constructor
  · intro hclear
    refine ⟨fun before c after heq ↦ ?_, hclear calls call [] rfl⟩
    exact hclear before c (after ++ [call]) (by simp [heq])
  · rintro ⟨hcalls, hcall⟩ before c after heq
    cases after using List.reverseRecOn with
    | nil =>
        obtain ⟨rfl, hc⟩ := List.append_inj' heq rfl
        exact List.singleton_inj.mp hc ▸ hcall
    | append_singleton after d _ =>
        rw [← List.cons_append, ← List.append_assoc] at heq
        exact hcalls before c after (List.append_inj' heq rfl).1

theorem repeats_iff_eq {last next : Str × Str}
    (h : stored128 last = last ∨ (next ≠ last ∧ next ≠ stored128 last)) :
    Repeats last next ↔ last = next := by
  obtain hwhole | ⟨hne, hne'⟩ := h
  · rw [Repeats, hwhole]
  · exact iff_of_false hne'.symm hne.symm

/-- A call that is not clear is counted although it repeats the one before, or is not counted
although it does not. -/
theorem not_repeats_iff_eq {last next : Str × Str}
    (h : ¬ (stored128 last = last ∨ (next ≠ last ∧ next ≠ stored128 last))) :
    ¬ (Repeats last next ↔ last = next) := by
  rw [Repeats]
  obtain ⟨hcut, h⟩ := not_or.mp h
  by_cases hnext : next = last
  · simp [hnext, hcut]
  · have hstored : next = stored128 last := by
      by_contra hne
      exact h ⟨hnext, hne⟩
    rw [hstored]
    simp [Ne.symm hcut]

theorem tally_eq_of_clear (hclear : ClearRun calls) (h : Host) :
    tally Repeats h calls = tally (· = ·) h calls := by
  induction calls using List.reverseRecOn with
  | nil => rfl
  | append_singleton calls call ih =>
      obtain ⟨hcalls, hcall⟩ := clearRun_append.mp hclear
      rw [tally_append, tally_append, ih hcalls]
      cases call with
      | success addr => rfl
      | failure addr prot user pass now malloc =>
          by_cases haddr : addr.host = some h
          · cases ht : tally (· = ·) h calls with
            | none => rfl
            | some t =>
                have heq := repeats_iff_eq (hcall h haddr t ht)
                simp only [tallyStep, if_pos haddr, heq]
          · simp only [tallyStep, if_neg haddr]

theorem tallyStep_isSome (same : Str × Str → Str × Str → Prop) [DecidableRel same]
    {addr : SockAddr} (haddr : addr.host = some h) (t : Tally) (prot user pass : Str) (now : ℤ)
    (malloc : ℕ) :
    tallyStep same h t (.failure addr prot user pass now malloc) =
      some (t.elim 1 fun t ↦ if same t.2 (user, pass) then t.1 else t.1 + 1, user, pass) := by
  cases t with
  | none => exact if_pos haddr
  | some t => exact if_pos haddr

/-- After clear calls the count of each host stays right by one more call if and only if that
call is clear as well. -/
theorem counts_iff_clear (hclear : ClearRun calls) (call : LoginCall) :
    (∀ h, (tally Repeats h (calls ++ [call])).elim 0 Prod.fst = failures h (calls ++ [call])) ↔
      call.Clear calls := by
  constructor
  · intro hcount
    cases call with
    | success addr => trivial
    | failure addr prot user pass now malloc =>
        intro h haddr t ht
        have hcount := hcount h
        by_contra hunclear
        have hne := not_repeats_iff_eq hunclear
        simp only [failures, tally_append, tally_eq_of_clear hclear, tallyStep_isSome _ haddr,
          Option.mem_def.mp ht, Option.elim_some] at hcount
        split at hcount <;> split at hcount <;> simp_all
  · intro hcall h
    rw [failures, tally_eq_of_clear (clearRun_append.mpr ⟨hclear, hcall⟩)]

/-- While every call is clear, an address has the failures since its last success that do not
repeat the one before; that remains so by one more call if and only if that call is clear.
Calls from other hosts never change the count. -/
theorem loginAttempts_run (hrun : LoginRun calls list) :
    (ClearRun calls → ∀ addr h, addr.host = some h →
      loginAttempts list addr = some (failures h calls)) ∧
    ∀ call : LoginCall, call.Fresh list → ∃ list', call.step list = some list' ∧
      (∀ addr h, addr.host = some h → call.host ≠ some h →
        loginAttempts list' addr = loginAttempts list addr) ∧
      (ClearRun calls →
        ((∀ addr h, addr.host = some h →
          loginAttempts list' addr = some (failures h (calls ++ [call]))) ↔
            call.Clear calls)) := by
  constructor
  · intro hclear addr h haddr
    rw [hrun.loginAttempts haddr, tally_eq_of_clear hclear, failures]
  · intro call hfresh
    obtain ⟨seq, hlist, ht⟩ := hrun.tracks
    obtain ⟨list', -, hstep, -, -⟩ := step_tracks hlist ht hfresh
    have hrun' : LoginRun (calls ++ [call]) list' := hrun.call hfresh hstep
    refine ⟨list', hstep, fun addr h haddr hne ↦ ?_, fun hclear ↦ ?_⟩
    · rw [hrun.loginAttempts haddr, hrun'.loginAttempts haddr, tally_append,
        tallyStep_of_ne hne]
    · rw [← counts_iff_clear hclear]
      constructor
      · intro hall h
        have haddr : ∃ addr : SockAddr, addr.host = some h := by
          cases h with
          | inet a => exact ⟨.inet a 0, rfl⟩
          | inet6 a => exact ⟨.inet6 a 0, rfl⟩
        obtain ⟨addr, haddr⟩ := haddr
        apply Option.some.inj
        rw [← hrun'.loginAttempts haddr, hall addr h haddr]
      · intro hcounts addr h haddr
        rw [hrun'.loginAttempts haddr, hcounts h]

/-- One failure from an address. -/
def bruteForce (n : ℕ) (malloc : ℕ) : LoginCall :=
  .failure (.inet 0x0100007f 22) [] (List.replicate n 97) [98] 0 malloc

theorem loginAttempts_run_one : ∃ list, LoginRun [bruteForce 3 0] list ∧
    loginAttempts list (.inet 0x0100007f 23) = some 1 := by
  obtain ⟨list, hstep, -⟩ := (loginAttempts_run LoginRun.init).2 (bruteForce 3 0) rfl
  have hrun : LoginRun [bruteForce 3 0] list := LoginRun.init.call rfl hstep
  have hclear : ClearRun ([] ++ [bruteForce 3 0]) := by
    apply clearRun_append.mpr ⟨?_, ?_⟩
    · intro before call after heq
      simp at heq
    · intro h _ t ht
      cases ht
  exact ⟨list, hrun, (loginAttempts_run hrun).1 hclear _ (.inet 0x0100007f) rfl⟩

/-- A user name of 128 characters is tried twice with one password. -/
theorem loginAttempts_long : ∃ calls list, LoginRun calls list ∧
    failures (.inet 0x0100007f) calls = 1 ∧
    loginAttempts list (.inet 0x0100007f 22) = some 2 := by
  have hfresh₁ : (bruteForce 128 0).Fresh LinkList.listInit := rfl
  obtain ⟨list₁, seq₁, hstep₁, hlist₁, ht₁⟩ :=
    step_tracks Xpdev.LinkList.listInit_is tracks_nil hfresh₁
  have hrun₁ : LoginRun _ list₁ := LoginRun.init.call hfresh₁ hstep₁
  obtain ⟨a, ha⟩ := Infinite.exists_notMem_finset (places seq₁).toFinset
  have hfresh₂ : (bruteForce 128 a).Fresh list₁ := hlist₁.freed a (by simpa using ha)
  obtain ⟨list₂, seq₂, hstep₂, hlist₂, ht₂⟩ := step_tracks hlist₁ ht₁ hfresh₂
  refine ⟨_, list₂, hrun₁.call hfresh₂ hstep₂, ?_, ?_⟩
  · simp [failures, tally, tallyStep, bruteForce, SockAddr.host]
  · rw [loginAttempts_eq hlist₂ ht₂ (h := .inet 0x0100007f) rfl]
    simp [tally, tallyStep, bruteForce, SockAddr.host, Repeats, stored128, safecopy, lenLogin]

end Synchronet.Sbbs3
