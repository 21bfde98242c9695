import Synchronet.Smblib.FreeMessage

/-!
# What a refused message leaves behind

`smb_addmsg` records a message in five places one after the other: the CRC history,
the data blocks, the header of the message it replies to, the hash file, and its own
header and index record.  When a later step fails only the data blocks are given
back.  A refusal leaves no trace when none of the other places had been written.
-/

namespace Synchronet.Smblib

open RecordFile

/-- The checksum of the body goes into the history. -/
def RecordsCrc (smb : Smb) (dupechkHashes : ℕ) (body : Option (List UInt8)) : Prop :=
  smb.status.maxCrcs ≠ 0 ∧ dupechkHashes.testBit hashSourceBody.toNat = true ∧
    body ≠ none ∧ body ≠ some []

/-- The message is a reply to a message of the base, its reply fields fit into its
header, and a header of the base is changed to link to it. -/
def Linked (env : Env) (smb : Smb) (msg : SmbMsg) : Prop :=
  let msg := { msg with hdr := { msg.hdr with threadBack := threadBackOf env smb msg } }
  ∃ remsg smb', readOriginal smb msg.hdr.threadBack = some (some remsg) ∧
    (inheritIds (joinThread msg remsg) remsg).1 = true ∧
    smbUpdatethread env smb remsg (inheritIds (joinThread msg remsg) remsg).2.hdr.number =
      some (.success, smb')

/-- The links of a message of the base. -/
def threadLinks (smb : Smb) (idx : IdxRec) : Option (Except Code (UInt32 × UInt32)) :=
  (smbGetmsghdr smb.status smb.shd { idx := idx }).map
    (Except.map fun msg ↦ (msg.hdr.threadFirst, msg.hdr.threadNext))

/-- The state that later calls consult is the same. -/
structure SameState (smb smb' : Smb) : Prop where
  counts : ∀ i, datCount smb'.sda i = datCount smb.sda i
  sch : smb'.sch = smb.sch
  hash : smb'.hash = smb.hash
  links : ∀ idx ∈ smb.sid, threadLinks smb' idx = threadLinks smb idx
  sid : smb'.sid = smb.sid
  status : smb'.status = smb.status

/-! ## Steps that fail -/

/-- A record that has a place in the index is not refused by the index. -/
theorem smbPutmsg_snd_of_ne {env : Env} {smb : Smb} {msg : SmbMsg} (hlo : 0 ≤ msg.offset)
    (hhi : msg.offset ≤ smb.sid.length) (h : (smbPutmsg env smb msg).1 ≠ .success) :
    (smbPutmsg env smb msg).2.1 = smb := by
  rcases smbPutmsghdr_cases smb.status smb.shd (smbInitIdx env smb.status.attr msg) with
    ⟨code, hcode, hput⟩ | ⟨-, -, -, hput⟩
  · simp only [smbPutmsg, hput, ne_eq, hcode, not_false_eq_true, if_true]
  · obtain ⟨n, hn⟩ := Int.eq_ofNat_of_zero_le hlo
    have hidx := @smbPutmsgidx_eq smb.sid ((smbInitIdx env smb.status.attr msg).normalised) n hn
        (by omega)
    simp only [smbPutmsg, hput, ne_eq, not_true_eq_false, if_false, hidx] at h

theorem offset_of_smbGetmsgidx {sid : List IdxRec} {msg msg' : SmbMsg}
    (hsmall : sid.length < 2 ^ 31) (h : smbGetmsgidx sid msg = .ok msg') :
    0 ≤ msg'.offset ∧ msg'.offset ≤ sid.length := by
  by_cases hnum : msg.hdr.number = 0
  · rw [smbGetmsgidx] at h
    split at h
    · cases h
    · dsimp only at h
      generalize (if msg.offset < 0 then (sid.length : ℤ) + msg.offset else msg.offset) = pos at h
      split at h
      · cases h
      · split at h
        · cases h
        · cases h
          dsimp only
          rw [toInt32_of_lt (by omega)]
          omega
  · obtain ⟨i, idx, hi, -, rfl⟩ := smbGetmsgidx_ok hnum h
    obtain ⟨hlt, -⟩ := List.getElem?_eq_some_iff.mp hi
    dsimp only
    rw [toInt32_of_lt (by omega)]
    omega

theorem offset_of_smbGetmsghdr {status : SmbStatus} {shd : List UInt8} {msg msg' : SmbMsg}
    (h : smbGetmsghdr status shd msg = some (.ok msg')) : msg'.offset = msg.offset := by
  rw [smbGetmsghdr] at h
  dsimp only at h
  repeat' split at h
  all_goals cases h
  rfl

theorem updatethreadLoop_snd_of_ne {smb : Smb} {newmsgnum : UInt32} {n : ℕ}
    {next number : UInt32} {r : Code × Smb}
    (h : updatethreadLoop smb newmsgnum n next number = some r) (hcode : r.1 ≠ .success) :
    r.2 = smb := by
  induction n generalizing next number with
  | zero => cases h
  | succ n ih =>
      rw [updatethreadLoop] at h
      split at h
      · cases h
        rfl
      · split at h
        · cases h
          rfl
        · split at h
          · cases h
          · cases h
            rfl
          · split at h
            · exact ih h
            · rename_i nextmsg _ _
              cases h
              rcases smbPutmsghdr_cases smb.status smb.shd { nextmsg with
                hdr := { nextmsg.hdr with threadNext := newmsgnum } } with
                ⟨code, -, hput⟩ | ⟨-, -, -, hput⟩
              · rw [hput]
              · rw [hput] at hcode
                exact absurd rfl hcode

theorem smbUpdatethread_snd_of_ne {env : Env} {smb : Smb} {remsg : SmbMsg} {newmsgnum : UInt32}
    {r : Code × Smb} (hsmall : smb.sid.length < 2 ^ 31)
    (hoffset : 0 ≤ remsg.offset ∧ remsg.offset ≤ smb.sid.length)
    (h : smbUpdatethread env smb remsg newmsgnum = some r) (hcode : r.1 ≠ .success) :
    r.2 = smb := by
  rw [smbUpdatethread] at h
  split at h
  · dsimp only at h
    split at h
    · cases h
      rfl
    · rename_i remsg₁ hfound
      have hoffset₁ : 0 ≤ remsg₁.offset ∧ remsg₁.offset ≤ smb.sid.length := by
        split at hfound
        · exact offset_of_smbGetmsgidx hsmall hfound
        · cases hfound
          exact hoffset
      split at h
      · cases h
      · cases h
        rfl
      · rename_i remsg₂ hread
        have hoffset₂ : remsg₂.offset = remsg₁.offset := by
          split at hread
          · exact offset_of_smbGetmsghdr hread
          · cases hread
            rfl
        cases h
        exact smbPutmsg_snd_of_ne (by rw [← hoffset₂] at hoffset₁; exact hoffset₁.1)
          (by rw [← hoffset₂] at hoffset₁; exact hoffset₁.2) hcode
  · exact updatethreadLoop_snd_of_ne h hcode

theorem offset_of_readOriginal {smb : Smb} (hsmall : smb.sid.length < 2 ^ 31) {number : UInt32}
    {remsg : SmbMsg} (h : readOriginal smb number = some (some remsg)) :
    0 ≤ remsg.offset ∧ remsg.offset ≤ smb.sid.length := by
  rw [readOriginal] at h
  split at h
  · cases h
  · split at h
    · cases h
    · rename_i found hfound
      split at h
      · cases h
      · cases h
      · rename_i hread
        cases h
        rw [offset_of_smbGetmsghdr hread]
        exact offset_of_smbGetmsgidx hsmall hfound

/-- Without a link the base is as it was. -/
theorem linkThread_fst_of_not_linked {env : Env} {smb smb' : Smb} {msg msg' : SmbMsg}
    (hsmall : smb.sid.length < 2 ^ 31) (hlink : ¬ Linked env smb msg)
    (h : linkThread env smb msg = some (smb', msg')) : smb' = smb := by
  rw [linkThread] at h
  rw [Linked] at hlink
  dsimp only at h hlink
  split at h
  · cases h
  · cases h
    rfl
  · rename_i remsg horiginal
    rw [linkReply] at h
    split at h
    · rename_i hfits
      obtain ⟨⟨code, smb₁⟩, ht, heq⟩ := Option.map_eq_some_iff.mp h
      cases heq
      have hcode : code ≠ .success := by
        rintro rfl
        exact hlink ⟨remsg, smb₁, horiginal, hfits, ht⟩
      have hoffset : 0 ≤ remsg.offset ∧ remsg.offset ≤ smb.sid.length := by
        exact offset_of_readOriginal hsmall horiginal
      exact smbUpdatethread_snd_of_ne hsmall hoffset ht hcode
    · cases h
      rfl

/-- A header that is refused leaves no more than marks in the table of header blocks. -/
theorem smbAddmsghdr_of_ne {env : Env} {smb : Smb} {msg : SmbMsg} {storage : Storage}
    (hsmall : smb.sid.length < 2 ^ 31)
    (hhashed : msg.hashed = true ∨ hashing smb.status.attr = false)
    (hcode : (smbAddmsghdr env smb msg storage).1 ≠ .success) :
    ∃ sha, (smbAddmsghdr env smb msg storage).2.1 = { smb with sha := sha } := by
  rw [smbAddmsghdr] at hcode ⊢
  split at hcode
  · rename_i hlong
    rw [if_pos hlong]
    exact ⟨smb.sha, rfl⟩
  · rename_i hlong
    rw [if_neg hlong]
    split at hcode
    · rename_i hcount
      rw [if_pos hcount]
      exact ⟨smb.sha, rfl⟩
    · rename_i hcount
      rw [if_neg hcount]
      have hfst : ∃ sha, (prepareMsghdr env smb msg storage).1 = { smb with sha := sha } := by
        refine ⟨(hdrAlloc storage smb (UInt16.ofNat (smbGetmsghdrlen msg)).toNat).2, ?_⟩
        rcases hhashed with hhashed | hhashed
        · simp only [prepareMsghdr, hhashed, if_true]
        · simp only [prepareMsghdr, smbHashmsg, hhashed, Bool.not_false, if_true, ite_self]
      obtain ⟨sha, hfst⟩ := hfst
      have hoffset : (prepareMsghdr env smb msg storage).2.offset = smb.sid.length := by
        rw [offset_prepareMsghdr, ← not_not.mp hcount, toInt32_of_lt hsmall]
      dsimp only at hcode ⊢
      split at hcode
      · rename_i hput
        exact absurd hput hcode
      · rename_i hput
        rw [if_neg hput, smbPutmsg_snd_of_ne (by rw [hoffset]; exact Int.natCast_nonneg _)
          (by rw [hoffset, hfst]) hput]
        exact ⟨sha, hfst⟩

theorem recordHashes_nil (smb : Smb) (msg : SmbMsg) :
    (recordHashes smb msg []).1 = smb ∧
      ((recordHashes smb msg []).2.hashed = true ∨ hashing smb.status.attr = false) := by
  rw [recordHashes]
  split
  · exact ⟨by simp [smbAddhashes], Or.inl rfl⟩
  · rename_i hhash
    exact ⟨rfl, Or.inr (by simpa using hhash)⟩

/-- The steps after the text leave nothing behind when no message is linked and there
are no hashes. -/
theorem finishMsg_of_ne {env : Env} {smb smb' : Smb} {msg msg' : SmbMsg} {storage : Storage}
    {hashes : List Hash} {code : Code} (hsmall : smb.sid.length < 2 ^ 31)
    (hlink : ¬ Linked env smb (stampTimes env msg)) (hhashes : hashes = []) (hcode : code ≠ .success)
    (h : finishMsg env smb msg storage hashes = some (code, smb', msg')) :
    ∃ sda sha, smb' = { smb with sda := sda, sha := sha } := by
  rw [finishMsg] at h
  split at h
  · cases h
  · rename_i smb₂ msg₂ hthread
    have hsame := linkThread_fst_of_not_linked hsmall hlink hthread
    obtain ⟨hrec, hhashed⟩ := recordHashes_nil smb₂ msg₂
    rw [hhashes] at h
    dsimp only at h
    generalize recordHashes smb₂ msg₂ [] = r at h hrec hhashed
    obtain ⟨smb₃, msg₃⟩ := r
    dsimp only at h hrec hhashed
    rw [hrec, hsame] at h
    rw [hsame] at hhashed
    split at h
    · simp only [Option.some.injEq, Prod.mk.injEq] at h
      exact absurd h.1.symm hcode
    · simp only [giveBack, Option.some.injEq] at h
      split at h
      · rename_i hok
        rw [h] at hok
        exact absurd hok hcode
      · rename_i hne
        obtain ⟨sha, hafter⟩ := smbAddmsghdr_of_ne hsmall hhashed hne
        simp only [Prod.mk.injEq] at h
        rw [← h.2.1, hafter]
        exact ⟨_, sha, rfl⟩

/-! ## Refused messages -/

/-- When a refusal of the message leaves nothing behind: it is refused as a
duplicate; or its checksum is not recorded, and its text is refused or there is
nothing else to record and the data can be given back. -/
def LeavesNoTrace (env : Env) (smb : Smb) (msg : SmbMsg) (storage : Storage) (dupechkHashes : ℕ)
    (xlat : UInt16) (body tail : Option (List UInt8)) : Prop :=
  let b := (storedLengths env xlat body tail).1
  let t := (storedLengths env xlat body tail).2
  IsDupe env smb msg dupechkHashes body ∨
    ¬ RecordsCrc smb dupechkHashes body ∧
      (TextRefused smb storage (b + t) ∨
        dupeHashes env smb (numbered smb msg) body = [] ∧
        (∀ storage₁ smb₁ msg₁, storeText smb (numbered smb msg) storage
            (storedBody env xlat body (storedTail tail).length) (storedTail tail) =
              .ok (storage₁, smb₁, msg₁) → ¬ Linked env smb₁ (stampTimes env msg₁)) ∧
        smb.sid.length < 2 ^ 31 ∧
        (smb.status.attr &&& smbHyperalloc ≠ 0 ∨
          FreeUndoes smb.sda (dataStart (dataMode storage) smb.sda (smbDatblocks (b + t))) b t))

theorem addBodyCrc_of_not_recordsCrc {env : Env} {smb : Smb} {dupechkHashes : ℕ}
    {body : Option (List UInt8)} (h : ¬ RecordsCrc smb dupechkHashes body) :
    addBodyCrc env smb dupechkHashes body = (.success, smb.sch) := by
  rcases body with _ | _ | ⟨c, cs⟩
  · rfl
  · rfl
  · rw [addBodyCrc]
    · rw [if_neg fun hcrc ↦ h ⟨hcrc.1, hcrc.2, by simp, by simp⟩]
    · simp

/-- Nothing is given back in a hyper-allocated base. -/
theorem smbFreemsgDfields_hyper {attr : UInt16} (hattr : attr &&& smbHyperalloc ≠ 0)
    (sda : List UInt16) (msg : SmbMsg) (refs : UInt16) :
    (smbFreemsgDfields attr sda msg refs).2 = sda := by
  rw [smbFreemsgDfields]
  induction msg.dfields with
  | nil => rfl
  | cons d ds ih =>
      rw [dfieldLoop_cons ds (by simp [smbFreemsgdat, hattr])]
      simpa only [smbFreemsgdat, hattr, ne_eq, not_false_eq_true, if_true] using ih

theorem sda_storeText_hyper {smb smb' : Smb} {msg msg' : SmbMsg} {storage storage' : Storage}
    {body tail : List UInt8} (hattr : smb.status.attr &&& smbHyperalloc ≠ 0)
    (h : storeText smb msg storage body tail = .ok (storage', smb', msg')) : smb'.sda = smb.sda := by
  rw [storeText, dataAlloc, if_pos hattr] at h
  dsimp only at h
  split at h
  · cases h
    rfl
  · split at h
    · cases h
    · cases h
      rfl

theorem SameState.of_eq {smb smb' : Smb} (hcounts : ∀ i, datCount smb'.sda i = datCount smb.sda i)
    (hsch : smb'.sch = smb.sch) (hhash : smb'.hash = smb.hash) (hshd : smb'.shd = smb.shd)
    (hsid : smb'.sid = smb.sid) (hstatus : smb'.status = smb.status) : SameState smb smb' :=
  ⟨hcounts, hsch, hhash, fun idx _ ↦ by rw [threadLinks, threadLinks, hshd, hstatus], hsid, hstatus⟩

/-- The search for duplicates consults the history, the hash file and the status. -/
theorem SameState.isDupe_iff {smb smb' : Smb} (h : SameState smb smb') (env : Env) (msg : SmbMsg)
    (dupechkHashes : ℕ) (body : Option (List UInt8)) :
    IsDupe env smb' msg dupechkHashes body ↔ IsDupe env smb msg dupechkHashes body := by
  unfold IsDupe addBodyCrc dupeHashes numbered
  rw [h.hash, h.sch, h.status]

/-- A refused message leaves the state that later calls consult as it was, and is
not a duplicate of itself, when nothing but its data had been recorded. -/
theorem addmsg_sameState_of_leavesNoTrace {env : Env} {smb smb' : Smb} {msg msg' : SmbMsg}
    {storage : Storage} {dupechkHashes : ℕ} {xlat : UInt16} {body tail : Option (List UInt8)}
    {code : Code}
    (hadd : smbAddmsg env smb msg storage dupechkHashes xlat body tail = some (code, smb', msg'))
    (hcode : code ≠ .success)
    (h : LeavesNoTrace env smb msg storage dupechkHashes xlat body tail) :
    SameState smb smb' ∧ (¬ IsDupe env smb msg dupechkHashes body →
      ¬ IsDupe env smb' msg dupechkHashes body) := by
  suffices hsame : SameState smb smb' from
    ⟨hsame, mt (hsame.isDupe_iff env msg dupechkHashes body).mp⟩
  rcases smbAddmsg_steps rfl hadd with ⟨-, -, rfl, -⟩ | ⟨hdupe, hrefused, -, rfl, -⟩ |
    ⟨hdupe, hrefused, storage₁, smb₁, msg₁, hstore, hfinish⟩
  · exact .of_eq (fun _ ↦ rfl) rfl rfl rfl rfl rfl
  · have hcrc := @addBodyCrc_of_not_recordsCrc env _ _ _ (h.resolve_left hdupe).1
    exact .of_eq (fun _ ↦ rfl) (by rw [hcrc]) rfl rfl rfl rfl
  · obtain ⟨hcrc, hrest⟩ := h.resolve_left hdupe
    obtain ⟨hhashes, hlink, hsmall, hdata⟩ := hrest.resolve_left hrefused
    rw [addBodyCrc_of_not_recordsCrc hcrc] at hstore
    obtain ⟨⟨sda₁, sdt₁, hsmb₁⟩, -⟩ := storeText_frame hstore
    obtain ⟨sda', sha', hsmb'⟩ := finishMsg_of_ne (by rw [hsmb₁]; exact hsmall)
      (hlink _ _ _ hstore) hhashes hcode hfinish
    have hcounts : ∀ i, datCount smb'.sda i = datCount smb.sda i := by
      by_cases hattr : smb.status.attr &&& smbHyperalloc = 0
      · have hundo := hdata.resolve_left (not_not.mpr hattr)
        obtain ⟨-, ⟨-, hsda, -⟩ | ⟨-, -, hshort, hfields, hoffset, ⟨hok, -⟩ | ⟨-, hsda⟩⟩⟩ :=
          smbAddmsg_cases rfl hadd hattr
        · rw [hsda]
          exact fun i ↦ rfl
        · exact absurd hok hcode
        · rw [hsda]
          exact (freeUndoes_iff hattr hshort hfields hoffset).mpr hundo
      · have hsda₁ := sda_storeText_hyper hattr hstore
        obtain ⟨-, -, ⟨hok, -⟩ | ⟨-, hsda⟩⟩ := finishMsg_cases hfinish
        · exact absurd hok hcode
        · rw [hsda, smbFreemsgDfields_hyper (by rw [hsmb₁]; exact hattr), hsda₁]
          exact fun i ↦ rfl
    rw [hsmb₁] at hsmb'
    exact .of_eq hcounts (by rw [hsmb']) (by rw [hsmb']) (by rw [hsmb']) (by rw [hsmb'])
      (by rw [hsmb'])

/-! ## What has to hold -/

theorem addBodyCrc_of_recordsCrc {env : Env} {smb : Smb} {dupechkHashes : ℕ}
    {body : Option (List UInt8)} (h : RecordsCrc smb dupechkHashes body)
    (hcode : (addBodyCrc env smb dupechkHashes body).1 = .success) :
    (addBodyCrc env smb dupechkHashes body).2 ≠ smb.sch := by
  obtain ⟨hmax, hsource, hnone, hempty⟩ := h
  rcases body with _ | _ | ⟨c, cs⟩
  · exact absurd rfl hnone
  · exact absurd rfl hempty
  · rw [addBodyCrc] at hcode ⊢
    · rw [if_pos ⟨hmax, hsource⟩] at hcode ⊢
      exact smbAddcrc_snd_ne hmax hcode
    · simp
    · simp

/-- Adding a header takes nothing out of the hash file. -/
theorem prefix_hash_smbAddmsghdr (env : Env) (smb : Smb) (msg : SmbMsg) (storage : Storage) :
    smb.hash <+: (smbAddmsghdr env smb msg storage).2.1.hash := by
  have hprepare : smb.hash <+: (prepareMsghdr env smb msg storage).1.hash := by
    simp only [prepareMsghdr]
    split
    · exact List.prefix_refl _
    · rw [smbHashmsg]
      split
      · exact List.prefix_refl _
      · exact prefix_smbAddhashes _ _ _
  obtain ⟨shd, sid, hput⟩ := smbPutmsg_frame env (prepareMsghdr env smb msg storage).1
    (prepareMsghdr env smb msg storage).2
  rw [smbAddmsghdr]
  split
  · exact List.prefix_refl _
  · split
    · exact List.prefix_refl _
    · dsimp only
      split
      · rw [hput]
        exact hprepare
      · rw [hput]
        exact hprepare

/-- The steps after the text keep the history and the hashes that were recorded. -/
theorem finishMsg_records {env : Env} {smb : Smb} {msg : SmbMsg} {storage : Storage}
    {hashes : List Hash} {r : Code × Smb × SmbMsg}
    (h : finishMsg env smb msg storage hashes = some r) :
    r.2.1.sch = smb.sch ∧ (hashing smb.status.attr = true → smb.hash ++ hashes <+: r.2.1.hash) := by
  rw [finishMsg] at h
  split at h
  · cases h
  · rename_i smb₂ msg₂ hlink
    obtain ⟨⟨shd, sid, hsmb₂⟩, -⟩ := linkThread_frame hlink
    have hrec : (recordHashes smb₂ msg₂ hashes).1.sch = smb.sch ∧
        (hashing smb.status.attr = true →
          (recordHashes smb₂ msg₂ hashes).1.hash = smb.hash ++ hashes) := by
      rw [recordHashes, hsmb₂]
      split
      · exact ⟨rfl, fun _ ↦ by simp [smbAddhashes]⟩
      · rename_i hhash
        exact ⟨rfl, fun hhash' ↦ absurd hhash' hhash⟩
    dsimp only at h
    generalize recordHashes smb₂ msg₂ hashes = r₃ at h hrec
    split at h
    · cases h
      exact ⟨hrec.1, fun hhash ↦ by rw [← hrec.2 hhash]⟩
    · have hpre := prefix_hash_smbAddmsghdr env r₃.1 r₃.2 storage
      obtain ⟨-, -, hsch, -⟩ := smbAddmsghdr_frame env r₃.1 r₃.2 storage
      generalize smbAddmsghdr env r₃.1 r₃.2 storage = added at h hpre hsch
      have hgive : r.2.1.sch = added.2.1.sch ∧ r.2.1.hash = added.2.1.hash := by
        rw [giveBack] at h
        split at h
        · cases h
          exact ⟨rfl, rfl⟩
        · cases h
          exact ⟨rfl, rfl⟩
      rw [hgive.1, hgive.2]
      exact ⟨hsch.trans hrec.1, fun hhash ↦ by rw [← hrec.2 hhash]; exact hpre⟩

/-- Whatever is linked: a refusal that leaves no trace is one of a duplicate, or has
recorded no checksum, and no hashes and no data that it could not give back. -/
theorem records_of_sameState {env : Env} {smb smb' : Smb} {msg msg' : SmbMsg}
    {storage : Storage} {dupechkHashes : ℕ} {xlat : UInt16} {body tail : Option (List UInt8)}
    {code : Code} {b t : ℕ} (hlengths : storedLengths env xlat body tail = (b, t))
    (hadd : smbAddmsg env smb msg storage dupechkHashes xlat body tail = some (code, smb', msg'))
    (hcode : code ≠ .success) (hsame : SameState smb smb') :
    IsDupe env smb msg dupechkHashes body ∨
      ¬ RecordsCrc smb dupechkHashes body ∧
        (TextRefused smb storage (b + t) ∨
          dupeHashes env smb (numbered smb msg) body = [] ∧
          (smb.status.attr &&& smbHyperalloc ≠ 0 ∨
            FreeUndoes smb.sda (dataStart (dataMode storage) smb.sda (smbDatblocks (b + t))) b t)) := by
  by_cases hdupe : IsDupe env smb msg dupechkHashes body
  · exact Or.inl hdupe
  have hcrc : (addBodyCrc env smb dupechkHashes body).1 = .success :=
    not_not.mp (not_or.mp hdupe).2
  rcases smbAddmsg_steps hlengths hadd with ⟨hd, -⟩ | ⟨-, hrefused, -, hsmb', -⟩ |
    ⟨-, hplace, storage₁, smb₁, msg₁, hstore, hfinish⟩
  · exact absurd hd hdupe
  · refine Or.inr ⟨fun hrec ↦ @addBodyCrc_of_recordsCrc env _ _ _ hrec hcrc ?_, Or.inl hrefused⟩
    rw [← hsame.sch, hsmb']
  · obtain ⟨⟨sda₁, sdt₁, hsmb₁⟩, -⟩ := storeText_frame hstore
    obtain ⟨hsch, hhash⟩ := finishMsg_records hfinish
    rw [hsmb₁] at hsch hhash
    refine Or.inr ⟨fun hrec ↦ @addBodyCrc_of_recordsCrc env _ _ _ hrec hcrc ?_, Or.inr ⟨?_, ?_⟩⟩
    · rw [← hsame.sch]
      exact hsch.symm
    · by_cases hhashing : hashing smb.status.attr = true
      · have hpre : smb.hash ++ dupeHashes env smb (numbered smb msg) body <+: smb'.hash :=
          hhash hhashing
        have hlen := hpre.length_le
        rw [hsame.hash, List.length_append] at hlen
        exact List.eq_nil_of_length_eq_zero (by omega)
      · rw [dupeHashes, if_neg hhashing]
    · by_cases hattr : smb.status.attr &&& smbHyperalloc = 0
      · obtain ⟨-, ⟨-, -, hrefused⟩ | ⟨-, -, hshort, hfields, hoffset, ⟨hok, -⟩ | ⟨-, hsda⟩⟩⟩ :=
          smbAddmsg_cases hlengths hadd hattr
        · exact absurd hrefused (not_or.mpr ⟨hdupe, hplace⟩)
        · exact absurd hok hcode
        · refine Or.inr ((freeUndoes_iff hattr hshort hfields hoffset).mp fun i ↦ ?_)
          rw [← hsda]
          exact hsame.counts i
      · exact Or.inl hattr

/-! ## A refused message that cannot be sent again -/

/-- A base that keeps the checksums of ten messages and has lost its index. -/
def lostIndex : Smb := { status := { attr := smbNohash, maxCrcs := 10, totalMsgs := 1 } }

/-- Without text nothing is recorded that could stay behind. -/
theorem addmsg_sameState_of_leavesNoTrace_lostIndex :
    ∃ smb msg, smbAddmsg plainEnv lostIndex addressedMsg .selfpack 1 xlatNone none none =
        some (.errFileLen, smb, msg) ∧ SameState lostIndex smb := by
  have hadd : (smbAddmsg plainEnv lostIndex addressedMsg .selfpack 1 xlatNone none none).map
      Prod.fst = some .errFileLen := by decide +kernel
  obtain ⟨⟨code, smb, msg⟩, hadd, rfl⟩ := Option.map_eq_some_iff.mp hadd
  refine ⟨smb, msg, hadd, (addmsg_sameState_of_leavesNoTrace hadd (by decide) ?_).1⟩
  refine Or.inr ⟨fun h ↦ h.2.2.1 rfl, Or.inr ⟨by decide, ?_, by decide, Or.inr (Or.inl rfl)⟩⟩
  rintro storage₁ smb₁ msg₁ hstore ⟨remsg, smb', horiginal, -⟩
  cases hstore
  cases horiginal

/-- The refused message is in the history, and is a duplicate when it is sent again. -/
theorem not_sameState_lostIndex :
    ¬ ∀ (env : Env) (smb smb' : Smb) (msg msg' : SmbMsg) (storage : Storage) (dupechkHashes : ℕ)
      (xlat : UInt16) (body tail : Option (List UInt8)) (code : Code),
      smbAddmsg env smb msg storage dupechkHashes xlat body tail = some (code, smb', msg') →
        code ≠ .success → SameState smb smb' ∧ (¬ IsDupe env smb msg dupechkHashes body →
          ¬ IsDupe env smb' msg dupechkHashes body) := by
  intro hall
  have hadd : (smbAddmsg plainEnv lostIndex addressedMsg .selfpack 1 xlatNone
      (some [104, 105]) none).map (fun r ↦ (r.1, r.2.1.sch)) =
        some (.errFileLen, [0, 0, 0, 0]) := by decide +kernel
  obtain ⟨⟨code, smb, msg⟩, hadd, heq⟩ := Option.map_eq_some_iff.mp hadd
  simp only [Prod.mk.injEq] at heq
  obtain ⟨rfl, hsch⟩ := heq
  have hsame := (hall _ _ _ _ _ _ _ _ _ _ _ hadd (by decide)).1.sch
  rw [hsch] at hsame
  exact absurd hsame (by decide)

end Synchronet.Smblib
