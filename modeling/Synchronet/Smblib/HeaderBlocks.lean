import Synchronet.Lib.Extents
import Synchronet.Smblib.IndexRuns

/-!
# Header blocks over a run

The length in a message header is all that says how many blocks the header has.
The live headers of a run keep the accounts of the `.sha` table in order as long
as no update needs fewer blocks than the header has, and the positions and
numbers of the headers stay in range: an update that gives up a block leaves the
block marked for good.
-/

namespace Synchronet.Smblib

open RecordFile Extents

/-- The header blocks of a message. -/
def hdrExtent (msg : SmbMsg) : Extent :=
  ⟨(msg.idx.offset.toNat - smbHdrSize) / shdBlockLen, smbHdrblocks msg.hdr.length.toNat⟩

/-- The bases reached from `smb_create` with the messages that are live.  A message
is updated with any changes to its fields that keep its number, its place and the
length of the header that was read. -/
inductive HdrRun (env : Env) (addOk : Storage → Smb → SmbMsg → Prop)
    (updateOk : SmbMsg → SmbMsg → Prop) : Smb → List SmbMsg → Prop
  | create (smb : Smb) : smb.status.attr &&& smbHyperalloc = 0 →
      HdrRun env addOk updateOk (smbCreate smb) []
  | add {s : Smb} {live : List SmbMsg} (msg : SmbMsg) (storage : Storage) :
      HdrRun env addOk updateOk s live → storage ≠ .hyperalloc → addOk storage s msg →
      HdrRun env addOk updateOk (smbAddmsghdr env s msg storage).2.1
        (if (smbAddmsghdr env s msg storage).1 = .success then
          live ++ [(smbAddmsghdr env s msg storage).2.2] else live)
  | update {s : Smb} {l₁ l₂ : List SmbMsg} {m : SmbMsg} (msg : SmbMsg) :
      HdrRun env addOk updateOk s (l₁ ++ m :: l₂) → msg.hdr.number = m.hdr.number →
      msg.hdr.length = m.hdr.length → updateOk m msg →
      HdrRun env addOk updateOk (smbUpdatemsg env s msg).2.1
        (if (smbUpdatemsg env s msg).1 = .success then
          l₁ ++ (smbUpdatemsg env s msg).2.2 :: l₂ else l₁ ++ m :: l₂)
  | free {s : Smb} {l₁ l₂ : List SmbMsg} {m : SmbMsg} :
      HdrRun env addOk updateOk s (l₁ ++ m :: l₂) →
      HdrRun env addOk updateOk (smbFreemsg s m).2
        (if (smbFreemsg s m).1 = .success then l₁ ++ l₂ else l₁ ++ m :: l₂)

/-- Header blocks are accounted for. -/
structure HdrBlocksOk (smb : Smb) (live : List SmbMsg) : Prop where
  disjoint : live.Pairwise fun a b ↦ (hdrExtent a).Disjoint (hdrExtent b)
  marked : ∀ m ∈ live, ∀ k ∈ hdrExtent m, hdrMark smb.sha k ≠ 0
  clean : live = [] → ∀ k, hdrMark smb.sha k = 0

/-- The header goes below 4 GiB, and the index can take its record. -/
def HdrFits (storage : Storage) (smb : Smb) (msg : SmbMsg) : Prop :=
  smbGetmsghdrlen msg ≤ smbMaxHdrLen →
    hdrStart storage smb.sha (smbHdrblocks (smbGetmsghdrlen msg)) < 2 ^ 24 ∧
      smb.sid.length < 2 ^ 31

/-- The update leaves the header all its blocks. -/
def KeepsBlocks (m msg : SmbMsg) : Prop :=
  smbHdrblocks m.hdr.length.toNat ≤ smbHdrblocks (smbGetmsghdrlen msg)

/-! ## Freeing -/

theorem hdrMark_ne_zero_lt_length {sha : List UInt8} {k : ℕ} (h : hdrMark sha k ≠ 0) :
    k < sha.length := by
  by_contra hlen
  apply h
  rw [hdrMark, List.getD_eq_getElem?_getD, List.getElem?_eq_none (by omega)]
  rfl

/-- `smb_freemsg` frees the header of a message, or fails on its data. -/
theorem smbFreemsg_cases {smb : Smb} {msg : SmbMsg}
    (hattr : smb.status.attr &&& smbHyperalloc = 0) (hoff : smb.status.headerOffset = 32)
    (h32 : smbHdrSize ≤ msg.idx.offset.toNat) :
    (∃ sda, (smbFreemsg smb msg).1 ≠ .success ∧ (smbFreemsg smb msg).2 = { smb with sda := sda }) ∨
      ∃ sda, smbFreemsg smb msg = (.success,
        { smb with
          sda := sda
          sha := writeAt 0 smb.sha (hdrExtent msg).start
            (List.replicate (hdrExtent msg).size 0) }) := by
  have hvalid : smbValidHdrOffset smb.status msg.idx.offset.toNat = true := by
    rw [smbValidHdrOffset, hoff]
    exact decide_eq_true ⟨h32, h32⟩
  rw [smbFreemsg, if_neg (not_not.mpr hattr), hvalid]
  simp only [Bool.not_true, Bool.false_eq_true, if_false]
  generalize smbFreemsgDfields smb.status.attr smb.sda msg 1 = r
  obtain ⟨code, sda⟩ := r
  by_cases hcode : code = .success
  · subst hcode
    exact Or.inr ⟨sda, by rw [hoff]; rfl⟩
  · refine Or.inl ⟨sda, ?_⟩
    cases code <;> first | exact absurd rfl hcode | exact ⟨by simp, rfl⟩

/-! ## The invariant -/

/-- What holds of the base and the live messages after each step. -/
structure HdrInv (smb : Smb) (live : List SmbMsg) : Prop where
  core : IndexCore smb.status smb.sid
  attr : smb.status.attr &&& smbHyperalloc = 0
  placed : ∀ m ∈ live, ∃ start, m.idx.offset.toNat = smbHdrSize + shdBlockLen * start
  length_pos : ∀ m ∈ live, 0 < m.hdr.length.toNat
  indexed : ∀ m ∈ live, m.hdr.number ≠ 0 ∧
    ∃ idx ∈ smb.sid, idx.number = m.hdr.number ∧ idx.offset = m.idx.offset
  accounts : Accounts (fun k ↦ hdrMark smb.sha k ≠ 0) (live.map hdrExtent)

theorem HdrInv.hdrBlocksOk {smb : Smb} {live : List SmbMsg} (h : HdrInv smb live) :
    HdrBlocksOk smb live where
  disjoint := List.pairwise_map.mp h.accounts.disjoint
  marked := fun m hm k hk ↦
    (h.accounts.used_iff k).mpr ⟨hdrExtent m, List.mem_map_of_mem hm, hk⟩
  clean := by
    rintro rfl k
    exact not_not.mp (h.accounts.not_used k)

theorem hdrInv_smbCreate {smb : Smb} (hattr : smb.status.attr &&& smbHyperalloc = 0) :
    HdrInv (smbCreate smb) [] where
  core := indexCore_smbCreate smb
  attr := hattr
  placed := by simp
  length_pos := by simp
  indexed := by simp
  accounts := Accounts.of_nil fun k ↦ by simp [smbCreate, hdrMark]

/-- Steps that change neither the index nor the table keep the invariant. -/
theorem HdrInv.of_eq {smb smb' : Smb} {live : List SmbMsg} (h : HdrInv smb live)
    (hstatus : smb'.status = smb.status) (hsid : smb'.sid = smb.sid) (hsha : smb'.sha = smb.sha) :
    HdrInv smb' live where
  core := by rw [hstatus, hsid]; exact h.core
  attr := by rw [hstatus]; exact h.attr
  placed := h.placed
  length_pos := h.length_pos
  indexed := by rw [hsid]; exact h.indexed
  accounts := by rw [hsha]; exact h.accounts

theorem HdrInv.add {smb : Smb} {live : List SmbMsg} (h : HdrInv smb live) (env : Env)
    {msg : SmbMsg} {storage : Storage} (hs : storage ≠ .hyperalloc)
    (hfits : HdrFits storage smb msg) :
    HdrInv (smbAddmsghdr env smb msg storage).2.1
      (if (smbAddmsghdr env smb msg storage).1 = .success then
        live ++ [(smbAddmsghdr env smb msg storage).2.2] else live) := by
  rcases smbAddmsghdr_cases env smb msg storage with ⟨hcode, hsame, -⟩ |
    ⟨hlen, -, hcode, -⟩ | ⟨hlen, -, hsmall, hash, msg', hnumber, hoffset, -, hnum, hlen', hafter⟩
  · rw [if_neg hcode, hsame]
    exact h
  · -- a record that fits into the index is not refused
    obtain ⟨-, hsmall⟩ := hfits hlen
    exact absurd (smbAddmsghdr_fst hlen h.core.count hsmall h.core.headerOffset) hcode
  · obtain ⟨hstart, -⟩ := hfits hlen
    have hblocks := smbHdrblocks_pos (smbGetmsghdrlen_pos msg)
    have hpos : hdrPos storage smb (smbGetmsghdrlen msg) =
        smbHdrSize + shdBlockLen * hdrStart storage smb.sha (smbHdrblocks (smbGetmsghdrlen msg)) := by
      rw [hdrPos, hdrAlloc_eq hs]
    have hplace := toNat_offset_of_lt h.core.headerOffset hoffset
      (by rw [hpos]; simp only [smbHdrSize, shdBlockLen]; omega)
    rw [hpos] at hplace
    have hext : hdrExtent msg'.normalised =
        ⟨hdrStart storage smb.sha (smbHdrblocks (smbGetmsghdrlen msg)),
          smbHdrblocks (smbGetmsghdrlen msg)⟩ := by
      rw [hdrExtent, SmbMsg.normalised]
      simp only [hplace, hlen', toNat_ofNat_uint16 hlen, Nat.add_sub_cancel_left]
      rw [Nat.mul_div_cancel_left _ (by decide)]
    rw [hafter, if_pos rfl, hdrAlloc_eq hs]
    refine ⟨h.core.append hsmall hnumber, h.attr, ?_, ?_, ?_, ?_⟩
    · intro m hm
      rcases List.mem_append.mp hm with hm | hm
      · exact h.placed m hm
      · rw [List.mem_singleton.mp hm]
        exact ⟨_, hplace⟩
    · intro m hm
      rcases List.mem_append.mp hm with hm | hm
      · exact h.length_pos m hm
      · rw [List.mem_singleton.mp hm, SmbMsg.normalised]
        simp only [hlen', toNat_ofNat_uint16 hlen]
        exact smbGetmsghdrlen_pos msg
    · intro m hm
      rcases List.mem_append.mp hm with hm | hm
      · obtain ⟨hne, idx, hidx, heq⟩ := h.indexed m hm
        exact ⟨hne, idx, List.mem_append_left _ hidx, heq⟩
      · rw [List.mem_singleton.mp hm]
        refine ⟨?_, msg'.idx, by simp, hnumber.trans hnum.symm, rfl⟩
        intro hzero
        have hnext := h.core.next
        rw [← hnum, show msg'.hdr.number = 0 from hzero] at hnext
        simp at hnext
    · rw [List.map_append, List.map_singleton, hext]
      refine h.accounts.alloc ?_ ?_
      · intro k hk
        exact not_not.mpr (hdrMark_hdrStart storage smb.sha hblocks hk.1 hk.2)
      · intro k
        rw [hdrMark_alloc storage smb.sha hblocks k, mem_iff]
        split
        · rename_i hk
          simp [hk]
        · rename_i hk
          simp [hk]

/-- An update rewrites the header in place. -/
theorem HdrInv.update {smb : Smb} {l₁ l₂ : List SmbMsg} {m : SmbMsg}
    (h : HdrInv smb (l₁ ++ m :: l₂)) (env : Env) {msg : SmbMsg}
    (hnumber : msg.hdr.number = m.hdr.number) (hlength : msg.hdr.length = m.hdr.length)
    (hkeeps : KeepsBlocks m msg) :
    HdrInv (smbUpdatemsg env smb msg).2.1
      (if (smbUpdatemsg env smb msg).1 = .success then
        l₁ ++ (smbUpdatemsg env smb msg).2.2 :: l₂ else l₁ ++ m :: l₂) := by
  have hm : m ∈ l₁ ++ m :: l₂ := by simp
  obtain ⟨hne, idx, hidx, hidxnum, hidxoff⟩ := h.indexed m hm
  rcases smbUpdatemsg_cases env smb (hnumber ▸ hne) h.core.small with ⟨shd, -, hcode, hafter⟩ |
    ⟨i, old, msg', hi, hold, hmsg', -, hlen, hfits, hafter⟩
  · rw [if_neg hcode, hafter]
    exact h.of_eq rfl rfl rfl
  · have holdidx : old = idx := h.core.eq_of_number (List.mem_of_getElem? hi) hidx
      (hold.trans (hnumber.trans hidxnum.symm))
    have hoff : msg'.idx.offset = m.idx.offset := by
      rw [hmsg', holdidx, ← hidxoff]
      rfl
    have hnum : msg'.hdr.number = m.hdr.number := by
      rw [hmsg', ← hnumber]
      rfl
    have hidxnum' : msg'.idx.number = m.hdr.number := by
      rw [hmsg', ← hnumber]
      rfl
    have hlen' : smbGetmsghdrlen msg' = smbGetmsghdrlen msg := by
      rw [hmsg']
      rfl
    rw [hlength] at hfits
    have hext : hdrExtent msg'.normalised = hdrExtent m := by
      simp only [hdrExtent, SmbMsg.normalised, hoff, hlen', toNat_ofNat_uint16 hlen,
        le_antisymm hfits hkeeps]
    rw [hafter, if_pos rfl]
    refine ⟨h.core.set hi (hidxnum'.trans (hnumber.symm.trans hold.symm)), h.attr, ?_, ?_, ?_, ?_⟩
    · intro n hn
      rcases List.mem_append.mp hn with hn | hn
      · exact h.placed n (List.mem_append_left _ hn)
      · rcases List.mem_cons.mp hn with rfl | hn
        · exact hoff ▸ h.placed m hm
        · exact h.placed n (by simp [hn])
    · intro n hn
      rcases List.mem_append.mp hn with hn | hn
      · exact h.length_pos n (List.mem_append_left _ hn)
      · rcases List.mem_cons.mp hn with rfl | hn
        · simp only [SmbMsg.normalised, hlen', toNat_ofNat_uint16 hlen]
          exact smbGetmsghdrlen_pos msg
        · exact h.length_pos n (by simp [hn])
    · have hkept : ∀ n ∈ l₁ ++ m :: l₂, n.hdr.number ≠ 0 ∧
          ∃ idx ∈ smb.sid.set i msg'.idx, idx.number = n.hdr.number ∧
            idx.offset = n.idx.offset := by
        intro n hn
        obtain ⟨hnne, nidx, hnidx, hnnum, hnoff⟩ := h.indexed n hn
        refine ⟨hnne, ?_⟩
        by_cases hsame : nidx = old
        · refine ⟨msg'.idx, List.mem_set (List.getElem?_eq_some_iff.mp hi).1 _, ?_, ?_⟩
          · rw [hidxnum', ← hnnum, hsame, hold, hnumber]
          · rw [hoff, ← hnoff, hsame, holdidx, hidxoff]
        · refine ⟨nidx, ?_, hnnum, hnoff⟩
          obtain ⟨j, hj, hjget⟩ := List.mem_iff_getElem.mp hnidx
          refine List.mem_of_getElem? (i := j) ?_
          rw [List.getElem?_set_ne, List.getElem?_eq_getElem hj, hjget]
          rintro rfl
          rw [List.getElem?_eq_getElem hj, hjget] at hi
          exact hsame (Option.some.inj hi)
      intro n hn
      rcases List.mem_append.mp hn with hn | hn
      · exact hkept n (List.mem_append_left _ hn)
      · rcases List.mem_cons.mp hn with rfl | hn
        · have := hkept m hm
          rwa [← hnum, ← hoff] at this
        · exact hkept n (by simp [hn])
    · have hmap : (l₁ ++ msg'.normalised :: l₂).map hdrExtent =
          (l₁ ++ m :: l₂).map hdrExtent := by
        simp only [List.map_append, List.map_cons, hext]
      rw [hmap]
      exact h.accounts

theorem HdrInv.free {smb : Smb} {l₁ l₂ : List SmbMsg} {m : SmbMsg}
    (h : HdrInv smb (l₁ ++ m :: l₂)) :
    HdrInv (smbFreemsg smb m).2
      (if (smbFreemsg smb m).1 = .success then l₁ ++ l₂ else l₁ ++ m :: l₂) := by
  have hm : m ∈ l₁ ++ m :: l₂ := by simp
  obtain ⟨start, hstart⟩ := h.placed m hm
  rcases smbFreemsg_cases h.attr h.core.headerOffset (by rw [hstart]; exact Nat.le_add_right _ _)
    with ⟨sda, hcode, hafter⟩ | ⟨sda, hafter⟩
  · rw [if_neg hcode, hafter]
    exact h.of_eq rfl rfl rfl
  · rw [hafter, if_pos rfl]
    have hsub : ∀ n ∈ l₁ ++ l₂, n ∈ l₁ ++ m :: l₂ := by
      intro n hn
      rcases List.mem_append.mp hn with hn | hn
      · exact List.mem_append_left _ hn
      · exact List.mem_append_right _ (List.mem_cons_of_mem _ hn)
    refine ⟨h.core, h.attr, fun n hn ↦ h.placed n (hsub n hn),
      fun n hn ↦ h.length_pos n (hsub n hn), fun n hn ↦ h.indexed n (hsub n hn), ?_⟩
    have hacc := h.accounts
    rw [List.map_append, List.map_cons] at hacc
    rw [List.map_append]
    refine hacc.free ?_
    have hfirst : (hdrExtent m).start ∈ hdrExtent m :=
      ⟨le_refl _, Nat.lt_add_of_pos_right (smbHdrblocks_pos (h.length_pos m hm))⟩
    have hused := (hacc.used_iff (hdrExtent m).start).mpr ⟨hdrExtent m, by simp, hfirst⟩
    intro k
    rw [hdrMark, getD_writeAt_replicate 0 0 smb.sha (hdrMark_ne_zero_lt_length hused).le, mem_iff,
      ← hdrMark]
    split
    · rename_i hk
      simp [hk]
    · rename_i hk
      simp [hk]

theorem HdrRun.hdrInv {env : Env} {smb : Smb} {live : List SmbMsg}
    (h : HdrRun env HdrFits KeepsBlocks smb live) : HdrInv smb live := by
  induction h with
  | create smb hattr => exact hdrInv_smbCreate hattr
  | add msg storage _ hs hfits ih => exact ih.add env hs hfits
  | update msg _ hnumber hlength hkeeps ih => exact ih.update env hnumber hlength hkeeps
  | free _ ih => exact ih.free

/-- The header blocks are accounted for after every run whose headers fit and whose
updates keep their blocks. -/
theorem hdrRun_hdrBlocksOk {env : Env} {smb : Smb} {live : List SmbMsg}
    (h : HdrRun env HdrFits KeepsBlocks smb live) : HdrBlocksOk smb live := h.hdrInv.hdrBlocksOk

/-- A base with one message. -/
theorem hdrRun_hdrBlocksOk_one :
    HdrBlocksOk (smbAddmsghdr plainEnv (smbCreate {}) {} .selfpack).2.1
      [(smbAddmsghdr plainEnv (smbCreate {}) {} .selfpack).2.2] :=
  @hdrRun_hdrBlocksOk plainEnv _ _ (.add {} .selfpack (.create {} rfl) (by decide)
    fun _ ↦ by decide)

/-- A message whose header needs two blocks. -/
def twoBlockMsg : SmbMsg := { hfield := [⟨subject, 230, some (List.replicate 230 97)⟩] }

/-- Once its long subject is removed, the message gives back one block only. -/
theorem not_hdrBlocksOk_shrunk :
    ¬ ∀ (env : Env) (smb : Smb) (live : List SmbMsg),
      HdrRun env (fun _ _ _ ↦ True) (fun _ _ ↦ True) smb live → HdrBlocksOk smb live := by
  intro hall
  set added := smbAddmsghdr plainEnv (smbCreate {}) twoBlockMsg .selfpack with hadded
  set short : SmbMsg := { added.2.2 with hfield := [] } with hshort
  set updated := smbUpdatemsg plainEnv added.2.1 short with hupdated
  set freed := smbFreemsg updated.2.1 updated.2.2 with hfreed
  have hcode : added.1 = .success ∧ updated.1 = .success ∧ freed.1 = .success ∧
      hdrMark freed.2.sha 1 = 1 := by decide +kernel
  obtain ⟨hadd, hupdate, hfree, hmark⟩ := hcode
  have hrun : HdrRun plainEnv (fun _ _ _ ↦ True) (fun _ _ ↦ True) (smbCreate {}) [] :=
    .create {} rfl
  have hrun := hrun.add twoBlockMsg .selfpack (by decide) trivial
  rw [← hadded, if_pos hadd, List.nil_append] at hrun
  have hrun := @HdrRun.update _ _ _ _ [] [] _ short hrun rfl rfl trivial
  rw [← hupdated, if_pos hupdate, List.nil_append] at hrun
  have hrun := @HdrRun.free _ _ _ _ [] [] _ hrun
  rw [← hfreed, if_pos hfree, List.nil_append] at hrun
  have hclean := (hall _ _ _ hrun).clean rfl 1
  rw [hmark] at hclean
  exact absurd hclean (by decide)

end Synchronet.Smblib
