import Synchronet.Smblib.AddHeader

/-!
# Runs of additions and updates

A base that starts empty and is only changed by `smb_addmsghdr` and
`smb_updatemsg` keeps a sound index: one record for each message, in the order of
the message numbers, each with header blocks of its own, so that a lookup finds
what is there.  The header position is a 32-bit number, though, and it wraps once
4 GiB of header blocks have been allocated.
-/

namespace Synchronet.Smblib

open RecordFile

/-- A sound index. -/
structure IndexOk (smb : Smb) : Prop where
  count : smb.sid.length = smb.status.totalMsgs.toNat
  increasing : (numbers smb.sid).Pairwise (· < ·)
  bounded : ∀ n ∈ numbers smb.sid, n ≤ smb.status.lastMsg.toNat
  distinct : (smb.sid.map IdxRec.offset).Nodup
  ends : smb.sid ≠ [] → ∀ number, ∃ r,
    getmsgidxSearch smb.sid number (smb.sid.length + 1) = some r
  found : ∀ (msg : SmbMsg) (i : ℕ) (idx : IdxRec), msg.hdr.number ≠ 0 → smb.sid[i]? = some idx →
    idx.number = msg.hdr.number →
      smbGetmsgidx smb.sid msg = .ok { msg with idx := idx, offset := i }
  missing : ∀ msg : SmbMsg, msg.hdr.number ≠ 0 → (∀ idx ∈ smb.sid, idx.number ≠ msg.hdr.number) →
    ∃ code, code ≠ .success ∧ smbGetmsgidx smb.sid msg = .error code

/-- The bases reached from `smb_create` by `n` additions, successful or refused, and
any number of updates.  An addition happens only where `room` allows it. -/
inductive IndexRun (env : Env) (storage : Storage) (room : Smb → SmbMsg → Prop) (smb : Smb) :
    ℕ → Smb → Prop
  | create : IndexRun env storage room smb 0 (smbCreate smb)
  | add {n : ℕ} {s : Smb} (msg : SmbMsg) : IndexRun env storage room smb n s → room s msg →
      IndexRun env storage room smb (n + 1) (smbAddmsghdr env s msg storage).2.1
  | update {n : ℕ} {s : Smb} (msg : SmbMsg) : IndexRun env storage room smb n s →
      msg.hdr.number ≠ 0 → IndexRun env storage room smb n (smbUpdatemsg env s msg).2.1

/-- The next header starts below 4 GiB. -/
def HdrRoom (storage : Storage) (smb : Smb) (msg : SmbMsg) : Prop :=
  smbGetmsghdrlen msg ≤ smbMaxHdrLen →
    if storage = .hyperalloc then smb.shd.length ≤ 2 ^ 32 - 256
    else hdrStart storage smb.sha (smbHdrblocks (smbGetmsghdrlen msg)) < 2 ^ 24

/-! ## Where headers start -/

/-- No further header can start at this position: the file, or a used block, covers
it. -/
def Occupied (storage : Storage) (shd sha : List UInt8) (offset : ℕ) : Prop :=
  match storage with
  | .hyperalloc => offset < smbHdrSize + shd.length
  | _ => ∃ k, offset = smbHdrSize + shdBlockLen * k ∧ hdrMark sha k ≠ 0

/-- The position that `smb_addmsghdr` gives to a header. -/
def hdrPos (storage : Storage) (smb : Smb) (length : ℕ) : ℕ :=
  smbHdrSize + (hdrAlloc storage smb length).1

theorem hdrAlloc_selfpack (smb : Smb) (length : ℕ) :
    hdrAlloc .selfpack smb length = smbAllochdr smb.sha length := rfl

theorem hdrAlloc_fastalloc (smb : Smb) (length : ℕ) :
    hdrAlloc .fastalloc smb length = smbFallochdr smb.sha length := rfl

/-- The table allocation of the storage modes that have one. -/
theorem hdrAlloc_eq {storage : Storage} (hs : storage ≠ .hyperalloc) (smb : Smb) (length : ℕ) :
    hdrAlloc storage smb length =
      (shdBlockLen * hdrStart storage smb.sha (smbHdrblocks length),
        writeAt 0 smb.sha (hdrStart storage smb.sha (smbHdrblocks length))
          (List.replicate (smbHdrblocks length) 1)) := by
  cases storage with
  | hyperalloc => exact absurd rfl hs
  | fastalloc => rw [hdrAlloc_fastalloc, smbFallochdr_eq]
  | selfpack => rw [hdrAlloc_selfpack, smbAllochdr_eq]

theorem smbHallochdr_eq {smb : Smb} (hoff : smb.status.headerOffset = 32) :
    smbHallochdr smb.status smb.shd =
      smb.shd.length + padLengthForAlignment smb.shd.length shdBlockLen := by
  have h32 : (32 : UInt32).toNat = 32 := rfl
  simp only [smbHallochdr, hoff, h32, smbHdrSize]
  rw [if_neg (by omega), Nat.add_sub_cancel_left]

theorem occupied_iff {storage : Storage} (hs : storage ≠ .hyperalloc) (shd sha : List UInt8)
    (offset : ℕ) :
    Occupied storage shd sha offset ↔
      ∃ k, offset = smbHdrSize + shdBlockLen * k ∧ hdrMark sha k ≠ 0 := by
  cases storage with
  | hyperalloc => exact absurd rfl hs
  | fastalloc => exact Iff.rfl
  | selfpack => exact Iff.rfl

/-- With room left the position is not truncated. -/
theorem hdrPos_lt {storage : Storage} {smb : Smb} (hoff : smb.status.headerOffset = 32)
    {msg : SmbMsg} (hlen : smbGetmsghdrlen msg ≤ smbMaxHdrLen) (hroom : HdrRoom storage smb msg) :
    hdrPos storage smb (smbGetmsghdrlen msg) < 2 ^ 32 := by
  have hroom := hroom hlen
  split at hroom
  · rename_i hs
    subst hs
    simp only [hdrPos, hdrAlloc, smbHallochdr_eq hoff, padLengthForAlignment, smbHdrSize,
      shdBlockLen] at hroom ⊢
    split <;> omega
  · rename_i hs
    rw [hdrPos, hdrAlloc_eq hs]
    simp only [smbHdrSize, shdBlockLen]
    omega

section Allocation

variable {storage : Storage} {smb : Smb} {length : ℕ} (hpos : 0 < length)

include hpos

/-- No position is handed out twice. -/
theorem not_occupied_hdrPos (hoff : smb.status.headerOffset = 32) :
    ¬ Occupied storage smb.shd smb.sha (hdrPos storage smb length) := by
  by_cases hs : storage = .hyperalloc
  · subst hs
    simp only [Occupied, hdrPos, hdrAlloc, smbHallochdr_eq hoff]
    omega
  · have hblocks := smbHdrblocks_pos hpos
    rw [occupied_iff hs, hdrPos, hdrAlloc_eq hs]
    rintro ⟨k, hk, hmark⟩
    have hk' : k = hdrStart storage smb.sha (smbHdrblocks length) := by
      simp only [smbHdrSize, shdBlockLen] at hk
      omega
    exact hmark (hk' ▸ hdrMark_hdrStart storage smb.sha hblocks (le_refl _) (by omega))

/-- What was occupied stays occupied by an allocation. -/
theorem Occupied.alloc {shd : List UInt8} (hshd : smb.shd.length ≤ shd.length) {offset : ℕ}
    (h : Occupied storage smb.shd smb.sha offset) :
    Occupied storage shd (hdrAlloc storage smb length).2 offset := by
  by_cases hs : storage = .hyperalloc
  · subst hs
    exact Nat.lt_of_lt_of_le h (Nat.add_le_add_left hshd _)
  · rw [occupied_iff hs] at h ⊢
    obtain ⟨k, hk, hmark⟩ := h
    refine ⟨k, hk, ?_⟩
    rw [hdrAlloc_eq hs, hdrMark_alloc _ _ (smbHdrblocks_pos hpos)]
    split
    · decide
    · exact hmark

/-- The new header occupies its position. -/
theorem occupied_hdrPos {shd : List UInt8}
    (hshd : hdrPos storage smb length < smbHdrSize + shd.length) :
    Occupied storage shd (hdrAlloc storage smb length).2 (hdrPos storage smb length) := by
  by_cases hs : storage = .hyperalloc
  · subst hs
    exact hshd
  · have hblocks := smbHdrblocks_pos hpos
    rw [occupied_iff hs]
    refine ⟨hdrStart storage smb.sha (smbHdrblocks length), ?_, ?_⟩
    · rw [hdrPos, hdrAlloc_eq hs]
    · rw [hdrAlloc_eq hs, hdrMark_alloc _ _ hblocks, if_pos ⟨le_refl _, by omega⟩]
      decide

end Allocation

theorem Occupied.update {storage : Storage} {shd shd' sha : List UInt8}
    (hshd : shd.length ≤ shd'.length) {offset : ℕ} (h : Occupied storage shd sha offset) :
    Occupied storage shd' sha offset := by
  by_cases hs : storage = .hyperalloc
  · subst hs
    exact Nat.lt_of_lt_of_le h (Nat.add_le_add_left hshd _)
  · rw [occupied_iff hs] at h ⊢
    exact h

/-! ## The index records of a run -/

/-- The part of the invariant that is about the index file and the counters. -/
structure IndexCore (status : SmbStatus) (sid : List IdxRec) : Prop where
  headerOffset : status.headerOffset = 32
  count : sid.length = status.totalMsgs.toNat
  last : status.lastMsg.toNat = sid.length
  small : sid.length ≤ 2 ^ 31
  increasing : (numbers sid).Pairwise (· < ·)
  bounded : ∀ n ∈ numbers sid, n ≤ status.lastMsg.toNat

theorem indexCore_smbCreate (smb : Smb) : IndexCore (smbCreate smb).status (smbCreate smb).sid where
  headerOffset := rfl
  count := rfl
  last := rfl
  small := by simp [smbCreate]
  increasing := List.Pairwise.nil
  bounded := by simp [smbCreate, numbers]

/-- The number of a message that is added. -/
theorem IndexCore.next {status : SmbStatus} {sid : List IdxRec} (h : IndexCore status sid) :
    (status.lastMsg + 1).toNat = sid.length + 1 := by
  have h1 : (1 : UInt32).toNat = 1 := rfl
  have hlast := h.last
  have hsmall := h.small
  rw [UInt32.toNat_add, h1, Nat.mod_eq_of_lt (by omega), hlast]

theorem IndexCore.append {status : SmbStatus} {sid : List IdxRec} (h : IndexCore status sid)
    (hsmall : sid.length < 2 ^ 31) {idx : IdxRec} (hnumber : idx.number = status.lastMsg + 1) :
    IndexCore
      { status with lastMsg := status.lastMsg + 1, totalMsgs := status.totalMsgs + 1 }
      (sid ++ [idx]) := by
  have h1 : (1 : UInt32).toNat = 1 := rfl
  have hnext := h.next
  have hlast := h.last
  refine ⟨h.headerOffset, ?_, ?_, ?_, ?_, ?_⟩
  · have hcount := h.count
    rw [UInt32.toNat_add, h1, Nat.mod_eq_of_lt (by omega), ← hcount]
    simp
  · simp [hnext]
  · simp only [List.length_append, List.length_singleton]
    omega
  · rw [numbers, List.map_append, List.pairwise_append]
    refine ⟨h.increasing, by simp, ?_⟩
    intro a ha b hb
    have hbound := h.bounded a ha
    simp only [List.map_cons, List.map_nil, List.mem_singleton, hnumber, hnext] at hb
    omega
  · intro n hn
    simp only [numbers, List.map_append, List.map_cons, List.map_nil, List.mem_append,
      List.mem_singleton, hnumber, hnext] at hn ⊢
    rcases hn with hn | hn
    · have := h.bounded n hn
      omega
    · omega

/-- Replacing an element by one with the same image. -/
theorem map_set_of_eq {α β : Type*} (f : α → β) {l : List α} {i : ℕ} {a b : α}
    (ha : l[i]? = some a) (hab : f b = f a) : (l.set i b).map f = l.map f := by
  obtain ⟨hi, rfl⟩ := List.getElem?_eq_some_iff.mp ha
  rw [List.map_set, hab, ← List.getElem_map f (h := by simpa using hi), List.set_getElem_self]

theorem IndexCore.set {status : SmbStatus} {sid : List IdxRec} (h : IndexCore status sid) {i : ℕ}
    {old idx : IdxRec} (hi : sid[i]? = some old) (hnumber : idx.number = old.number) :
    IndexCore status (sid.set i idx) := by
  have hnumbers : numbers (sid.set i idx) = numbers sid :=
    map_set_of_eq (fun idx : IdxRec ↦ idx.number.toNat) hi (congrArg UInt32.toNat hnumber)
  refine ⟨h.headerOffset, ?_, ?_, ?_, ?_, ?_⟩
  · simpa using h.count
  · simpa using h.last
  · simpa using h.small
  · simpa only [hnumbers] using h.increasing
  · simpa only [hnumbers] using h.bounded

/-- Two records of one number are one record. -/
theorem IndexCore.eq_of_number {status : SmbStatus} {sid : List IdxRec} (h : IndexCore status sid)
    {a b : IdxRec} (ha : a ∈ sid) (hb : b ∈ sid) (hab : a.number = b.number) : a = b := by
  have hnodup : (sid.map fun idx ↦ idx.number.toNat).Nodup := h.increasing.imp ne_of_lt
  exact List.inj_on_of_nodup_map hnodup ha hb (congrArg UInt32.toNat hab)

/-- What holds of the base after each step of a run. -/
structure IndexInv (storage : Storage) (smb : Smb) : Prop where
  core : IndexCore smb.status smb.sid
  distinct : (smb.sid.map IdxRec.offset).Nodup
  occupied : ∀ idx ∈ smb.sid, Occupied storage smb.shd smb.sha idx.offset.toNat

theorem indexInv_smbCreate (storage : Storage) (smb : Smb) : IndexInv storage (smbCreate smb) where
  core := indexCore_smbCreate smb
  distinct := List.nodup_nil
  occupied := by simp [smbCreate]

theorem smbGetmsghdrlen_pos (msg : SmbMsg) : 0 < smbGetmsghdrlen msg := by
  simp only [smbGetmsghdrlen, msghdrSize]
  omega

/-- A failed write of the header or the index changes nothing the index is about. -/
theorem IndexInv.of_sid_eq {storage : Storage} {smb smb' : Smb} (h : IndexInv storage smb)
    (hstatus : smb'.status = smb.status) (hsid : smb'.sid = smb.sid)
    (hocc : ∀ offset, Occupied storage smb.shd smb.sha offset →
      Occupied storage smb'.shd smb'.sha offset) :
    IndexInv storage smb' where
  core := by rw [hstatus, hsid]; exact h.core
  distinct := hsid ▸ h.distinct
  occupied := by rw [hsid]; exact fun idx hidx ↦ hocc _ (h.occupied idx hidx)

/-- The position that an addition records, when it is not truncated. -/
theorem toNat_offset_of_lt {storage : Storage} {smb : Smb} {msg : SmbMsg} {offset : UInt32}
    (hoff : smb.status.headerOffset = 32)
    (h : offset = UInt32.ofNat (smb.status.headerOffset.toNat +
      (hdrAlloc storage smb (smbGetmsghdrlen msg)).1))
    (hlt : hdrPos storage smb (smbGetmsghdrlen msg) < 2 ^ 32) :
    offset.toNat = hdrPos storage smb (smbGetmsghdrlen msg) := by
  rw [h, hoff, UInt32.toNat_ofNat']
  exact Nat.mod_eq_of_lt hlt

theorem IndexInv.add {storage : Storage} {smb : Smb} (h : IndexInv storage smb) (env : Env)
    (msg : SmbMsg) (hroom : HdrRoom storage smb msg) :
    IndexInv storage (smbAddmsghdr env smb msg storage).2.1 := by
  have hpos := smbGetmsghdrlen_pos msg
  have hoff := h.core.headerOffset
  rcases smbAddmsghdr_cases env smb msg storage with ⟨-, hsame, -⟩ |
    ⟨-, -, -, shd, hash, hshd, hafter⟩ |
    ⟨hlen, -, hsmall, hash, msg', hnumber, hoffset, -, -, -, hafter⟩
  · rwa [hsame]
  · rw [hafter]
    exact h.of_sid_eq rfl rfl fun offset ↦ Occupied.alloc hpos hshd
  · have hplace := toNat_offset_of_lt hoff hoffset (hdrPos_lt hoff hlen hroom)
    have hend : hdrPos storage smb (smbGetmsghdrlen msg) < smbHdrSize +
        (writeAt 0 smb.shd (msg'.idx.offset.toNat - smbHdrSize) (paddedRecord msg')).length := by
      have hrec := msghdrSize_le_length_paddedRecord msg'
      have hne : paddedRecord msg' ≠ [] := by
        intro hnil
        rw [hnil] at hrec
        exact absurd hrec (by decide)
      rw [hplace, length_writeAt _ _ _ hne]
      simp only [msghdrSize, hdrPos, smbHdrSize] at hrec ⊢
      omega
    rw [hafter]
    refine ⟨h.core.append hsmall hnumber, ?_, ?_⟩
    · rw [List.map_append, List.nodup_append]
      refine ⟨h.distinct, by simp, ?_⟩
      intro a ha b hb hab
      obtain ⟨idx, hidx, rfl⟩ := List.mem_map.mp ha
      simp only [List.map_cons, List.map_nil, List.mem_singleton] at hb
      apply @not_occupied_hdrPos storage _ _ hpos hoff
      rw [← hplace, ← hb, ← hab]
      exact h.occupied idx hidx
    · intro idx hidx
      rcases List.mem_append.mp hidx with hidx | hidx
      · exact Occupied.alloc hpos (length_le_writeAt _ _ _ _) (h.occupied idx hidx)
      · have hocc := occupied_hdrPos hpos hend
        rw [List.mem_singleton.mp hidx]
        rwa [← hplace] at hocc

/-- An update keeps the number and the place of the message. -/
theorem IndexInv.update {storage : Storage} {smb : Smb} (h : IndexInv storage smb) (env : Env)
    {msg : SmbMsg} (hnum : msg.hdr.number ≠ 0) :
    IndexInv storage (smbUpdatemsg env smb msg).2.1 := by
  rcases smbUpdatemsg_cases env smb hnum h.core.small with ⟨shd, hshd, -, hafter⟩ |
    ⟨i, old, msg', hi, hold, hmsg', -, -, -, hafter⟩
  · rw [hafter]
    exact h.of_sid_eq rfl rfl fun offset ↦ Occupied.update hshd
  · have hnumber : msg'.idx.number = old.number := by rw [hmsg', hold]; rfl
    have hoffset : msg'.idx.offset = old.offset := by rw [hmsg']; rfl
    rw [hafter]
    refine ⟨h.core.set hi hnumber, ?_, ?_⟩
    · rw [map_set_of_eq IdxRec.offset hi hoffset]
      exact h.distinct
    · intro idx hidx
      refine Occupied.update (length_le_writeAt _ _ _ _) ?_
      rcases List.mem_or_eq_of_mem_set hidx with hidx | rfl
      · exact h.occupied idx hidx
      · rw [hoffset]
        exact h.occupied old (List.mem_of_getElem? hi)

theorem IndexInv.indexOk {storage : Storage} {smb : Smb} (h : IndexInv storage smb) :
    IndexOk smb where
  count := h.core.count
  increasing := h.core.increasing
  bounded := h.core.bounded
  distinct := h.distinct
  ends := fun hsid number ↦ getmsgidxSearch_ends smb.sid number hsid
  found := by
    intro msg i idx hnum hi hidx
    obtain ⟨hlt, -⟩ := List.getElem?_eq_some_iff.mp hi
    have hsmall := h.core.small
    rw [smbGetmsgidx_of_getElem? h.core.increasing hnum hi hidx, toInt32_of_lt (by omega)]
  missing := by
    intro msg hnum hnone
    obtain ⟨code, hcode⟩ := smbGetmsgidx_error hnum hnone
    exact ⟨code, smbGetmsgidx_error_ne hcode, hcode⟩

theorem IndexRun.indexInv {env : Env} {storage : Storage} {smb s : Smb} {n : ℕ}
    (h : IndexRun env storage (HdrRoom storage) smb n s) : IndexInv storage s := by
  induction h with
  | create => exact indexInv_smbCreate storage smb
  | add msg _ hroom ih => exact ih.add env msg hroom
  | update msg _ hnum ih => exact ih.update env hnum

/-- Every run that leaves room for the next header keeps a sound index. -/
theorem indexRun_indexOk {env : Env} {storage : Storage} {smb s : Smb} {n : ℕ}
    (h : IndexRun env storage (HdrRoom storage) smb n s) : IndexOk s := h.indexInv.indexOk

/-- A base with one message. -/
theorem indexRun_indexOk_one :
    IndexOk (smbAddmsghdr plainEnv (smbCreate {}) {} .selfpack).2.1 :=
  @indexRun_indexOk plainEnv .selfpack {} _ 1 (.add {} .create fun _ ↦ by decide)

/-! ## A run that comes back to the first header -/

/-- One more header of a single block, added fast. -/
theorem fastalloc_step {smb : Smb} (h : IndexInv .fastalloc smb) (env : Env) {msg : SmbMsg}
    (hone : smbHdrblocks (smbGetmsghdrlen msg) = 1) (hlen : smbGetmsghdrlen msg ≤ smbMaxHdrLen)
    (hsmall : smb.sid.length < 2 ^ 31) :
    (smbAddmsghdr env smb msg .fastalloc).2.1.sha = smb.sha ++ [1] ∧
      ∃ idx, (smbAddmsghdr env smb msg .fastalloc).2.1.sid = smb.sid ++ [idx] ∧
        idx.offset = UInt32.ofNat (32 + smb.sha.length * 256) := by
  have hcode := @smbAddmsghdr_fst env _ _ .fastalloc hlen h.core.count hsmall h.core.headerOffset
  rcases smbAddmsghdr_cases env smb msg .fastalloc with ⟨hne, -, -⟩ | ⟨-, -, hne, -⟩ |
    ⟨-, -, -, hash, msg', -, hoffset, -, -, -, hafter⟩
  · exact absurd hcode hne
  · exact absurd hcode hne
  · rw [hafter]
    refine ⟨?_, msg'.idx, rfl, ?_⟩
    · rw [hdrAlloc_fastalloc, smbFallochdr, hone]
      rfl
    · rw [hoffset, h.core.headerOffset]
      rfl

/-- After `n` additions of an empty message the table holds `n` used blocks, and
the first record is still the first. -/
theorem exists_indexRun_fastalloc (n : ℕ) (hn : n ≤ 2 ^ 24) :
    ∃ s, IndexRun plainEnv .fastalloc (fun _ _ ↦ True) {} n s ∧ IndexInv .fastalloc s ∧
      s.sha.length = n ∧ s.sid.length = n ∧ (0 < n → (s.sid.map IdxRec.offset)[0]? = some 32) := by
  induction n with
  | zero => exact ⟨_, .create, indexInv_smbCreate _ _, rfl, rfl, by simp⟩
  | succ n ih =>
      obtain ⟨s, hrun, hinv, hsha, hsid, hfirst⟩ := ih (by omega)
      obtain ⟨hsha', idx, hsid', hoffset⟩ := @fastalloc_step _ hinv plainEnv {} (by decide)
          (by decide) (by omega)
      refine ⟨_, hrun.add {} trivial, hinv.add plainEnv {} fun _ ↦ ?_, ?_, ?_, fun _ ↦ ?_⟩
      · rw [if_neg (by decide), hdrStart, if_pos rfl]
        omega
      · rw [hsha', List.length_append, hsha]
        rfl
      · rw [hsid', List.length_append, hsid]
        rfl
      · rw [hsid', List.map_append]
        rcases Nat.eq_zero_or_pos n with hz | hpos
        · subst hz
          have hnil : s.sid = [] := List.eq_nil_of_length_eq_zero hsid
          rw [hsha] at hoffset
          simp [hnil, hoffset]
        · rw [List.getElem?_append_left (by simp [hsid, hpos])]
          exact hfirst hpos

/-- The 2^24 + 1st header gets the position of the first. -/
theorem not_indexOk_wrapped :
    ¬ ∀ (env : Env) (storage : Storage) (smb s : Smb) (n : ℕ), n < 2 ^ 32 - 1 →
      IndexRun env storage (fun _ _ ↦ True) smb n s → IndexOk s := by
  intro hall
  obtain ⟨s, hrun, hinv, hsha, hsid, hfirst⟩ := exists_indexRun_fastalloc (2 ^ 24) (le_refl _)
  obtain ⟨-, idx, hsid', hoffset⟩ := @fastalloc_step _ hinv plainEnv {} (by decide) (by decide)
      (by omega)
  have hok := hall _ _ _ _ _ (by decide) (hrun.add {} trivial)
  have hdistinct := hok.distinct
  rw [hsid', List.map_append, List.nodup_append] at hdistinct
  have hwrap : UInt32.ofNat (32 + 2 ^ 24 * 256) = 32 := by decide
  rw [hsha, hwrap] at hoffset
  exact hdistinct.2.2 32 (List.mem_of_getElem? (hfirst (by decide))) 32 (by simp [hoffset]) rfl

end Synchronet.Smblib
