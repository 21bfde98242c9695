import Synchronet.Smblib.DataRuns

/-!
# Mail for many recipients (mailsrvr.c)

`smtp_thread` stores the text of a message with one reference and adds a header for each
recipient; the references of the further copies are counted when the last header is there.
Other processes may free a copy as soon as its header is in the index.
-/

namespace Synchronet.Sbbs3.MailSrvr

open Smblib RecordFile

/-- `SMB_ALL_REFS` -/
def smbAllRefs : UInt16 := 0

/-- `NET_NONE` -/
def netNone : UInt16 := 0

/-- `smb_storage_mode` for mail. -/
def mailStorageMode (fastmail : Bool) : Storage := if fastmail then .fastalloc else .selfpack

/-- What a section of the recipient list tells about where a copy goes. -/
structure Recipient where
  nettype : UInt16
  usernum : ℕ

/-- The delivery of a message whose text is stored: the recipients left while the loop runs, and
the copies that nobody has freed. -/
structure Delivery where
  smb : Smb
  msg : SmbMsg
  pending : Option (List Recipient)
  rcptCount : ℕ
  copies : List SmbMsg

/-- The references after the loop. -/
def countRefs (attr : UInt16) (sda : List UInt16) (msg : SmbMsg) (rcptCount : ℕ) : List UInt16 :=
  if rcptCount < 1 then (smbFreemsgDfields attr sda msg smbAllRefs).2
  else if 1 < rcptCount then
    (smbIncmsgDfields attr sda msg (UInt16.ofNat (rcptCount - 1))).2
  else sda

/-- The steps of the delivery, and `free` of another process. -/
inductive Action
  | deliver
  | stop
  | finish
  | free

/-- The loop goes on to a further recipient. -/
def Continues (maxRecipients rcptCount : ℕ) : Prop :=
  maxRecipients = 0 ∨ rcptCount < maxRecipients

/-- A copy shares the text of the message, whatever header fields its recipient gets. -/
inductive DeliveryStep (env : Env) (storage : Storage) (maxRecipients : ℕ) :
    Delivery → Action → Delivery → Prop
  | deliver {smb smb' : Smb} {msg newmsg copy : SmbMsg} {r : Recipient} {rest : List Recipient}
      {rcptCount : ℕ} {copies : List SmbMsg} :
      Continues maxRecipients rcptCount → ¬(r.nettype = netNone ∧ r.usernum = 0) →
      newmsg.text = msg.text →
      smbAddmsghdr env smb newmsg storage = (.success, smb', copy) →
      DeliveryStep env storage maxRecipients ⟨smb, msg, some (r :: rest), rcptCount, copies⟩
        .deliver ⟨smb', msg, some rest, rcptCount + 1, copies ++ [copy]⟩
  /-- User #0, or no memory for the copy. -/
  | stop {smb : Smb} {msg : SmbMsg} {r : Recipient} {rest : List Recipient}
      {rcptCount : ℕ} {copies : List SmbMsg} :
      Continues maxRecipients rcptCount →
      DeliveryStep env storage maxRecipients ⟨smb, msg, some (r :: rest), rcptCount, copies⟩
        .stop ⟨smb, msg, some [], rcptCount, copies⟩
  /-- The header cannot be added. -/
  | refuse {smb smb' : Smb} {msg newmsg copy : SmbMsg} {r : Recipient} {rest : List Recipient}
      {rcptCount : ℕ} {copies : List SmbMsg} {code : Code} :
      Continues maxRecipients rcptCount → ¬(r.nettype = netNone ∧ r.usernum = 0) →
      smbAddmsghdr env smb newmsg storage = (code, smb', copy) → code ≠ .success →
      DeliveryStep env storage maxRecipients ⟨smb, msg, some (r :: rest), rcptCount, copies⟩
        .stop ⟨smb', msg, some [], rcptCount, copies⟩
  | finish {smb : Smb} {msg : SmbMsg} {pending : List Recipient} {rcptCount : ℕ}
      {copies : List SmbMsg} :
      pending = [] ∨ ¬Continues maxRecipients rcptCount →
      DeliveryStep env storage maxRecipients ⟨smb, msg, some pending, rcptCount, copies⟩ .finish
        ⟨{ smb with sda := countRefs smb.status.attr smb.sda msg rcptCount }, msg, none,
          rcptCount, copies⟩
  | free {smb : Smb} {msg copy copy' : SmbMsg} {pending : Option (List Recipient)}
      {rcptCount : ℕ} {l₁ l₂ : List SmbMsg} :
      copy'.text = copy.text →
      DeliveryStep env storage maxRecipients ⟨smb, msg, pending, rcptCount, l₁ ++ copy :: l₂⟩
        .free ⟨(smbFreemsg smb copy').2, msg, pending, rcptCount,
          if (smbFreemsg smb copy').1 = .success then l₁ ++ l₂ else l₁ ++ copy :: l₂⟩

/-- The deliveries of messages whose text could be stored in the mail base, with the deletions
between their steps.  `savemsg` adds no header for a message without a recipient. -/
inductive DeliveryRun (env : Env) (storage : Storage) (maxRecipients : ℕ)
    (startOk : Smb → ℕ → Prop) (ok : Delivery → Action → Prop) : Delivery → Prop
  | start {smb smb' : Smb} {msg msg' : SmbMsg} {dupechkHashes : ℕ} {msgbuf : List UInt8}
      {recipients : List Recipient} :
      smb.status.attr = smbEmail → msg.conv.to_ = none →
      startOk smb (storedLengths env xlatNone (some msgbuf) none).1 →
      smbAddmsg env smb msg storage dupechkHashes xlatNone (some msgbuf) none =
        some (.success, smb', msg') →
      DeliveryRun env storage maxRecipients startOk ok ⟨smb', msg', some recipients, 0, []⟩
  | step {d d' : Delivery} {a : Action} :
      DeliveryRun env storage maxRecipients startOk ok d → ok d a →
      DeliveryStep env storage maxRecipients d a d' →
      DeliveryRun env storage maxRecipients startOk ok d'

/-- The copies that still exist hold their blocks, and after the delivery of copies that have
all been freed no block is in use. -/
structure Delivery.Kept (d : Delivery) : Prop where
  used : ∀ copy ∈ d.copies, ∀ i ∈ copy.dataBlocks, datCount d.smb.sda i ≠ 0
  freed : d.pending = none → d.copies = [] → ∀ i ∈ d.msg.dataBlocks, datCount d.smb.sda i = 0

/-- A copy is freed only after the references have been counted, unless it is the only one, and
there are no more copies than a count can hold. -/
def Timely (d : Delivery) (a : Action) : Prop :=
  d.msg.dfields = [] ∨
    match a with
    | .deliver => d.copies.length = d.rcptCount ∧ d.rcptCount < 65535
    | .free => d.pending = none ∨ d.rcptCount = 1
    | .stop | .finish => True

/-! ## The invariant -/

/-- The references of the text, by the state of the delivery. -/
def Delivery.HasRefs (d : Delivery) (n : ℕ) : Prop :=
  match d.pending with
  | none => n = d.copies.length
  | some _ =>
      n = 1 ∧ d.copies.length = d.rcptCount ∨ n = 0 ∧ d.copies = [] ∧ d.rcptCount = 1

/-- The fields of the text touch each of its blocks once, and no others. -/
structure OneField (msg : SmbMsg) (sda : List UInt16) : Prop where
  inTable : msg.InTable sda
  weight : ∀ i, msg.weight i = 1 ↔ i ∈ msg.dataBlocks
  weight_le : ∀ i, msg.weight i ≤ 1

structure DeliveryInv (d : Delivery) : Prop where
  attr : d.smb.status.attr &&& smbHyperalloc = 0
  text : ∀ copy ∈ d.copies, copy.text = d.msg.text
  field : OneField d.msg d.smb.sda
  refs : d.msg.dfields = [] ∨ d.rcptCount ≤ 65535 ∧
    ∃ n ≤ 65535, d.HasRefs n ∧ ∀ i ∈ d.msg.dataBlocks, (datCount d.smb.sda i).toNat = n

variable {env : Env} {storage : Storage} {maxRecipients : ℕ} {d d' : Delivery} {a : Action}

theorem dataBlocks_of_nil {msg : SmbMsg} (h : msg.dfields = []) (i : ℕ) : i ∉ msg.dataBlocks := by
  rintro ⟨byte, hlo, hhi, -⟩
  simp only [smbGetmsgdatlen, h, List.map_nil, List.sum_nil] at hhi
  omega

theorem DeliveryInv.kept (h : DeliveryInv d) : d.Kept := by
  rcases h.refs with hnil | ⟨-, n, -, hrefs, hcount⟩
  · refine ⟨fun copy hcopy i hi ↦ ?_, fun _ _ i hi ↦ absurd hi (dataBlocks_of_nil hnil i)⟩
    rw [dataBlocks_eq_of_text (h.text copy hcopy)] at hi
    exact absurd hi (dataBlocks_of_nil hnil i)
  · constructor
    · intro copy hcopy i hi hzero
      rw [dataBlocks_eq_of_text (h.text copy hcopy)] at hi
      have hn : n = 0 := by rw [← hcount i hi, hzero]; rfl
      have hpos := List.length_pos_of_mem hcopy
      rw [Delivery.HasRefs] at hrefs
      split at hrefs
      · omega
      · rcases hrefs with ⟨hone, -⟩ | ⟨-, hnone, -⟩
        · omega
        · simp [hnone] at hpos
    · intro hdone hnone i hi
      rw [Delivery.HasRefs, hdone, hnone] at hrefs
      apply UInt16.toNat_inj.mp
      rw [hcount i hi, hrefs]
      rfl

theorem OneField.of_length {msg : SmbMsg} {sda sda' : List UInt16} (h : OneField msg sda)
    (hlen : sda'.length = sda.length) : OneField msg sda' :=
  ⟨fun d hd i hi ↦ hlen ▸ h.inTable d hd i hi, h.weight, h.weight_le⟩

/-- All references of the fields are given up. -/
theorem freeAllLoop {attr : UInt16} (hattr : attr &&& smbHyperalloc = 0) (pos : DField → ℕ)
    {ds : List DField} {sda : List UInt16}
    (hin : ∀ d ∈ ds, ∀ i, touches (pos d) d.length.toNat i → i < sda.length) :
    (dfieldLoop (fun sda d ↦ smbFreemsgdat attr sda (pos d) d.length.toNat smbAllRefs)
        ds sda).2.length = sda.length ∧
      ∀ i, (ds.countP fun d ↦ decide (touches (pos d) d.length.toNat i)) ≠ 0 ∨ datCount sda i = 0 →
        datCount (dfieldLoop (fun sda d ↦
          smbFreemsgdat attr sda (pos d) d.length.toNat smbAllRefs) ds sda).2 i = 0 := by
  induction ds generalizing sda with
  | nil => exact ⟨rfl, fun i h ↦ h.resolve_left (by simp)⟩
  | cons d ds ih =>
      have hd := hin d List.mem_cons_self
      have hstep := @datCount_freemsgdat attr hattr sda (pos d) d.length.toNat smbAllRefs
      obtain ⟨hlen, hzero⟩ := @ih (smbFreemsgdat attr sda (pos d) d.length.toNat smbAllRefs).2
        fun d' hd' i hi ↦ by
          rw [length_freemsgdat]
          exact hin d' (List.mem_cons_of_mem _ hd') i hi
      have hall (i : UInt16) : freeRefs smbAllRefs i = 0 := if_pos (.inl rfl)
      rw [dfieldLoop_cons ds (smbFreemsgdat_fst hd)]
      refine ⟨by rw [hlen, length_freemsgdat], fun i hi ↦ hzero i ?_⟩
      rw [hstep i, List.countP_cons] at *
      by_cases ht : touches (pos d) d.length.toNat i
      · exact .inr (by rw [if_pos ht, hall])
      · simpa [ht] using hi

theorem smbFreemsgDfields_all {attr : UInt16} (hattr : attr &&& smbHyperalloc = 0) {msg : SmbMsg}
    {sda : List UInt16} (h : OneField msg sda) :
    (smbFreemsgDfields attr sda msg smbAllRefs).2.length = sda.length ∧
      ∀ i ∈ msg.dataBlocks, datCount (smbFreemsgDfields attr sda msg smbAllRefs).2 i = 0 := by
  obtain ⟨hlen, hzero⟩ := freeAllLoop hattr (dfieldPos msg) h.inTable
  refine ⟨hlen, fun i hi ↦ hzero i (.inl ?_)⟩
  have hone := (h.weight i).mpr hi
  rw [SmbMsg.weight] at hone
  omega

/-- `smb_freemsg` gives up one reference of the text, or does nothing. -/
theorem smbFreemsg_text {smb : Smb} {msg copy : SmbMsg}
    (hattr : smb.status.attr &&& smbHyperalloc = 0) (h : OneField msg smb.sda)
    (htext : copy.text = msg.text) :
    (smbFreemsg smb copy).2.status = smb.status ∧
      (smbFreemsg smb copy).2.sda.length = smb.sda.length ∧
      ∀ i ∈ msg.dataBlocks, (datCount (smbFreemsg smb copy).2.sda i).toNat =
        (datCount smb.sda i).toNat - if (smbFreemsg smb copy).1 = .success then 1 else 0 := by
  obtain ⟨sda', hfree, hlen, hcount⟩ := smbFreemsgDfields_one hattr h.inTable
  rw [smbFreemsg, if_neg (not_not.mpr hattr), smbFreemsgDfields_eq_of_text htext, hfree]
  split
  · exact ⟨rfl, rfl, fun i _ ↦ rfl⟩
  · refine ⟨rfl, hlen, fun i hi ↦ ?_⟩
    dsimp only
    rw [hcount i, (h.weight i).mpr hi]
    rfl

/-- The references are counted once for the text. -/
theorem smbIncmsgDfields_text {attr : UInt16} (hattr : attr &&& smbHyperalloc = 0) {msg : SmbMsg}
    {sda : List UInt16} (h : OneField msg sda) {refs : UInt16}
    (hmax : ∀ i ∈ msg.dataBlocks, (datCount sda i).toNat + refs.toNat ≤ 65535) :
    (smbIncmsgDfields attr sda msg refs).2.length = sda.length ∧
      ∀ i ∈ msg.dataBlocks, (datCount (smbIncmsgDfields attr sda msg refs).2 i).toNat =
        (datCount sda i).toNat + refs.toNat := by
  obtain ⟨sda', hinc, hlen, hcount⟩ := @smbIncmsgDfields_ok attr hattr msg sda refs h.inTable
    fun i ↦ by
      by_cases hi : i ∈ msg.dataBlocks
      · rw [(h.weight i).mpr hi, Nat.one_mul]
        exact hmax i hi
      · have hle := h.weight_le i
        have hne := mt (h.weight i).mp hi
        obtain hzero : msg.weight i = 0 := by omega
        rw [hzero, Nat.zero_mul]
        exact Nat.lt_succ_iff.mp (datCount sda i).toNat_lt
  rw [hinc]
  refine ⟨hlen, fun i hi ↦ ?_⟩
  rw [hcount i, (h.weight i).mpr hi, Nat.one_mul]

/-! ## The steps -/

theorem DeliveryInv.deliver {smb smb' : Smb} {msg newmsg copy : SmbMsg} {r : Recipient}
    {rest : List Recipient} {rcptCount : ℕ} {copies : List SmbMsg}
    (h : DeliveryInv ⟨smb, msg, some (r :: rest), rcptCount, copies⟩)
    (hok : Timely ⟨smb, msg, some (r :: rest), rcptCount, copies⟩ .deliver)
    (htext : newmsg.text = msg.text)
    (hadd : smbAddmsghdr env smb newmsg storage = (.success, smb', copy)) :
    DeliveryInv ⟨smb', msg, some rest, rcptCount + 1, copies ++ [copy]⟩ := by
  obtain ⟨hsda, -, -, hattr⟩ := smbAddmsghdr_frame env smb newmsg storage
  have hcopy := text_smbAddmsghdr env smb newmsg storage
  simp only [hadd] at hsda hattr hcopy
  refine ⟨hattr ▸ h.attr, ?_, h.field.of_length (congrArg List.length hsda), ?_⟩
  · intro c hc
    rcases List.mem_append.mp hc with hc | hc
    · exact h.text c hc
    · rw [List.mem_singleton.mp hc, hcopy, htext]
  · rcases hok with hnil | ⟨hall, hlt⟩
    · exact .inl hnil
    rcases h.refs with hnil | ⟨-, n, hn, hrefs, hcount⟩
    · exact .inl hnil
    change copies.length = rcptCount at hall
    rcases hrefs with ⟨hone, -⟩ | ⟨-, rfl, rfl⟩
    · refine .inr ⟨hlt, n, hn, .inl ⟨hone, ?_⟩, fun i hi ↦ by rw [hsda]; exact hcount i hi⟩
      rw [List.length_append, hall]
      rfl
    · -- the only copy has been freed
      exact nomatch hall

theorem DeliveryInv.stop {smb smb' : Smb} {msg : SmbMsg} {pending : List Recipient}
    {rcptCount : ℕ} {copies : List SmbMsg}
    (h : DeliveryInv ⟨smb, msg, some pending, rcptCount, copies⟩) (hsda : smb'.sda = smb.sda)
    (hattr : smb'.status.attr = smb.status.attr) :
    DeliveryInv ⟨smb', msg, some [], rcptCount, copies⟩ := by
  refine ⟨hattr ▸ h.attr, h.text, h.field.of_length (congrArg List.length hsda), ?_⟩
  rcases h.refs with hnil | ⟨hle, n, hn, hrefs, hcount⟩
  · exact .inl hnil
  · exact .inr ⟨hle, n, hn, hrefs, fun i hi ↦ by rw [hsda]; exact hcount i hi⟩

theorem countRefs_nil {msg : SmbMsg} (h : msg.dfields = []) (attr : UInt16) (sda : List UInt16)
    (rcptCount : ℕ) : countRefs attr sda msg rcptCount = sda := by
  simp [countRefs, smbFreemsgDfields, smbIncmsgDfields, h, dfieldLoop]

/-- After the loop there are as many references as copies. -/
theorem countRefs_text {attr : UInt16} (hattr : attr &&& smbHyperalloc = 0) {msg : SmbMsg}
    {sda : List UInt16} (h : OneField msg sda) {rcptCount n k : ℕ} (hle : rcptCount ≤ 65535)
    (hcount : ∀ i ∈ msg.dataBlocks, (datCount sda i).toNat = n)
    (hrefs : n = 1 ∧ k = rcptCount ∨ n = 0 ∧ k = 0 ∧ rcptCount = 1) :
    (countRefs attr sda msg rcptCount).length = sda.length ∧
      ∀ i ∈ msg.dataBlocks, (datCount (countRefs attr sda msg rcptCount) i).toNat = k := by
  rw [countRefs]
  split
  · obtain ⟨hlen, hzero⟩ := smbFreemsgDfields_all hattr h
    refine ⟨hlen, fun i hi ↦ ?_⟩
    rw [hzero i hi]
    change 0 = k
    omega
  · split
    · have hrefs' : (UInt16.ofNat (rcptCount - 1)).toNat = rcptCount - 1 :=
        UInt16.toNat_ofNat_of_lt' (by change rcptCount - 1 < 65536; omega)
      obtain ⟨hlen, hinc⟩ := @smbIncmsgDfields_text attr hattr msg sda h
        (UInt16.ofNat (rcptCount - 1)) fun i hi ↦ by
          rw [hcount i hi, hrefs']
          omega
      refine ⟨hlen, fun i hi ↦ ?_⟩
      rw [hinc i hi, hcount i hi, hrefs']
      omega
    · refine ⟨rfl, fun i hi ↦ ?_⟩
      rw [hcount i hi]
      omega

theorem DeliveryInv.finish {smb : Smb} {msg : SmbMsg} {pending : List Recipient} {rcptCount : ℕ}
    {copies : List SmbMsg} (h : DeliveryInv ⟨smb, msg, some pending, rcptCount, copies⟩) :
    DeliveryInv ⟨{ smb with sda := countRefs smb.status.attr smb.sda msg rcptCount }, msg, none,
      rcptCount, copies⟩ := by
  rcases h.refs with hnil | ⟨hle, n, hn, hrefs, hcount⟩
  · rw [countRefs_nil hnil]
    exact ⟨h.attr, h.text, h.field, .inl hnil⟩
  · change rcptCount ≤ 65535 at hle
    have hcopies : n = 1 ∧ copies.length = rcptCount ∨
        n = 0 ∧ copies.length = 0 ∧ rcptCount = 1 := by
      rcases hrefs with hall | ⟨hzero, hnone, hone⟩
      · exact .inl hall
      · exact .inr ⟨hzero, congrArg List.length hnone, hone⟩
    obtain ⟨hlen, hafter⟩ := countRefs_text h.attr h.field hle hcount hcopies
    exact ⟨h.attr, h.text, h.field.of_length hlen,
      .inr ⟨hle, copies.length, by omega, rfl, hafter⟩⟩

theorem DeliveryInv.free {smb : Smb} {msg copy copy' : SmbMsg}
    {pending : Option (List Recipient)} {rcptCount : ℕ} {l₁ l₂ : List SmbMsg}
    (h : DeliveryInv ⟨smb, msg, pending, rcptCount, l₁ ++ copy :: l₂⟩)
    (hok : Timely ⟨smb, msg, pending, rcptCount, l₁ ++ copy :: l₂⟩ .free)
    (htext : copy'.text = copy.text) :
    DeliveryInv ⟨(smbFreemsg smb copy').2, msg, pending, rcptCount,
      if (smbFreemsg smb copy').1 = .success then l₁ ++ l₂ else l₁ ++ copy :: l₂⟩ := by
  obtain ⟨hstatus, hlen, hfree⟩ := smbFreemsg_text h.attr h.field
    (htext.trans (h.text copy (by simp)))
  have hmem (c : SmbMsg) (hc : c ∈ if (smbFreemsg smb copy').1 = .success then l₁ ++ l₂
      else l₁ ++ copy :: l₂) : c ∈ l₁ ++ copy :: l₂ := by
    split at hc
    · rcases List.mem_append.mp hc with hc | hc <;> simp [hc]
    · exact hc
  refine ⟨by rw [hstatus]; exact h.attr, fun c hc ↦ h.text c (hmem c hc),
    h.field.of_length hlen, ?_⟩
  rcases hok with hnil | hok
  · exact .inl hnil
  rcases h.refs with hnil | ⟨hle, n, hn, hrefs, hcount⟩
  · exact .inl hnil
  refine .inr ⟨hle, n - if (smbFreemsg smb copy').1 = .success then 1 else 0, by omega, ?_,
    fun i hi ↦ by rw [hfree i hi, hcount i hi]⟩
  cases pending with
  | none =>
      change n = (l₁ ++ copy :: l₂).length at hrefs
      change _ = List.length _
      rw [hrefs]
      split <;> simp
  | some pending =>
      rcases hok with hok | hone
      · exact nomatch hok
      change rcptCount = 1 at hone
      rcases hrefs with ⟨rfl, hlength⟩ | ⟨-, hnone, -⟩
      · change (l₁ ++ copy :: l₂).length = rcptCount at hlength
        obtain ⟨rfl, rfl⟩ : l₁ = [] ∧ l₂ = [] := by
          rw [hone, List.length_append, List.length_cons] at hlength
          exact ⟨List.length_eq_zero_iff.mp (by omega), List.length_eq_zero_iff.mp (by omega)⟩
        split
        · exact .inr ⟨rfl, rfl, hone⟩
        · exact .inl ⟨rfl, hlength⟩
      · simp at hnone

/-! ## The start -/

theorem touches_start (start b i : ℕ) :
    touches (sdtBlockLen * start) b i ↔ start ≤ i ∧ i < start + smbDatblocks b := by
  rw [touches, Nat.mul_div_cancel_left _ (by decide)]

/-- A text without a tail has one field. -/
theorem oneField_text {msg : SmbMsg} {sda : List UInt16} {b start : ℕ}
    (hfields : msg.dfields = textFields b 0) (hshort : b < 2 ^ 31)
    (hstart : msg.hdr.offset.toNat = sdtBlockLen * start)
    (hin : ∀ i, i < start + smbDatblocks b → i < sda.length) : OneField msg sda := by
  have hblocks := mem_dataBlocks_text hfields hshort hstart
  have hweight (i : ℕ) :
      msg.weight i = if start ≤ i ∧ i < start + smbDatblocks b then 1 else 0 := by
    rw [weight_text hfields hshort, hstart, if_neg (not_touches_zero _ i), Nat.add_zero]
    simp only [touches_start]
  refine ⟨?_, fun i ↦ ?_, fun i ↦ ?_⟩
  · refine (forall_dfields_text hfields).mpr ⟨fun _ i hi ↦ ?_, fun h ↦ absurd rfl h⟩
    rw [dfieldPos_body, hstart, Words.toNat_ofNat_uint32 (by omega), touches_start] at hi
    exact hin i hi.2
  · rw [hweight i, hblocks i]
    simp
  · rw [hweight i]
    split <;> omega

theorem oneField_nil {msg : SmbMsg} (h : msg.dfields = []) (sda : List UInt16) :
    OneField msg sda := by
  have hweight (i : ℕ) : msg.weight i = 0 := by rw [SmbMsg.weight, h]; rfl
  refine ⟨fun d hd ↦ ?_, fun i ↦ ?_, fun i ↦ by rw [hweight i]; exact Nat.zero_le 1⟩
  · rw [h] at hd
    exact absurd hd List.not_mem_nil
  · rw [hweight i]
    exact iff_of_false (by decide) (dataBlocks_of_nil h i)

theorem deliveryInv_start {smb smb' : Smb} {msg msg' : SmbMsg} {dupechkHashes : ℕ}
    {msgbuf : List UInt8} {recipients : List Recipient} (hemail : smb.status.attr = smbEmail)
    (hfits : DataFits storage smb (storedLengths env xlatNone (some msgbuf) none).1 0)
    (hadd : smbAddmsg env smb msg storage dupechkHashes xlatNone (some msgbuf) none =
      some (.success, smb', msg')) :
    DeliveryInv ⟨smb', msg', some recipients, 0, []⟩ := by
  have hattr : smb.status.attr &&& smbHyperalloc = 0 := by
    rw [hemail]
    decide
  set b := (storedLengths env xlatNone (some msgbuf) none).1 with hb
  have hlengths : storedLengths env xlatNone (some msgbuf) none = (b, 0) := rfl
  obtain ⟨hattr', ⟨hcode, -⟩ | ⟨-, -, hshort, hfields, hoffset, ⟨-, hsda⟩ | ⟨hcode, -⟩⟩⟩ :=
    smbAddmsg_cases hlengths hadd hattr
  · exact absurd rfl hcode
  · rw [Nat.add_zero] at hshort hoffset hsda
    have hemail' : smb'.status.attr &&& smbHyperalloc = 0 := hattr' ▸ hattr
    by_cases hzero : b = 0
    · have hnil : msg'.dfields = [] := by
        rw [hfields, hzero]
        rfl
      exact ⟨hemail', fun _ h ↦ (nomatch h), oneField_nil hnil _, .inl hnil⟩
    · have hplace : msg'.hdr.offset.toNat =
          sdtBlockLen * dataStart (dataMode storage) smb.sda (smbDatblocks b) := by
        have hlt := hfits hzero
        rw [Nat.add_zero, if_pos rfl, Nat.add_zero] at hlt
        rw [hoffset hzero, Words.toNat_ofNat_uint32 hlt]
      have hcount := datCount_storeBlocks storage smb.sda b
      refine ⟨hemail', fun _ h ↦ (nomatch h), oneField_text hfields hshort hplace fun i hi ↦ ?_, ?_⟩
      · rw [hsda]
        exact lt_length_storeBlocks hi (Nat.pos_of_ne_zero hzero)
      · refine .inr ⟨Nat.zero_le _, 1, by decide, .inl ⟨rfl, rfl⟩, fun i hi ↦ ?_⟩
        have hmem := (mem_dataBlocks_text hfields hshort hplace i).mp hi
        rw [Nat.add_zero] at hmem
        rw [hsda, hcount i, if_pos hmem]
        rfl
  · exact absurd rfl hcode

/-! ## Runs -/

theorem DeliveryInv.step (h : DeliveryInv d) (hok : Timely d a)
    (hstep : DeliveryStep env storage maxRecipients d a d') : DeliveryInv d' := by
  cases hstep with
  | deliver _ _ htext hadd => exact h.deliver hok htext hadd
  | stop _ => exact h.stop rfl rfl
  | refuse _ _ hadd _ =>
      obtain ⟨hsda, -, -, hattr⟩ := smbAddmsghdr_frame env _ _ storage
      rw [hadd] at hsda hattr
      exact h.stop hsda hattr
  | finish _ => exact h.finish
  | free htext => exact h.free hok htext

theorem DeliveryRun.inv (h : DeliveryRun env storage maxRecipients
    (fun smb b ↦ DataFits storage smb b 0) Timely d) : DeliveryInv d := by
  induction h with
  | start hemail _ hfits hadd => exact deliveryInv_start hemail hfits hadd
  | step _ hok hstep ih => exact ih.step hok hstep

/-- Mail for many recipients survives deletions as long as no copy is freed before the references
are counted. -/
theorem deliveryRun_kept (env : Env) (fastmail : Bool) (maxRecipients : ℕ) (d : Delivery)
    (h : DeliveryRun env (mailStorageMode fastmail) maxRecipients
      (fun smb b ↦ DataFits (mailStorageMode fastmail) smb b 0) Timely d) : d.Kept :=
  h.inv.kept

/-! ## Two recipients -/

/-- Two copies of a message of one letter, and what is left when the first of them is freed before
the references are counted. -/
theorem exists_two_copies : ∃ (smb smb₁ smb₂ : Smb) (msg newmsg copy₁ copy₂ : SmbMsg),
    smbAddmsg plainEnv (smbCreate { status := { attr := smbEmail } }) {} .selfpack 0 xlatNone
        (some [98]) none = some (.success, smb, msg) ∧
      newmsg.text = msg.text ∧
      smbAddmsghdr plainEnv smb newmsg .selfpack = (.success, smb₁, copy₁) ∧
      smbAddmsghdr plainEnv smb₁ newmsg .selfpack = (.success, smb₂, copy₂) ∧
      (smbFreemsg smb₂ copy₁).1 = .success ∧ datCount (smbFreemsg smb₂ copy₁).2.sda 0 = 0 ∧
      copy₂.hdr.offset = 0 ∧ smbGetmsgdatlen copy₂ = 3 := by
  have hrun : ((smbAddmsg plainEnv (smbCreate { status := { attr := smbEmail } }) {} .selfpack 0
      xlatNone (some [98]) none).map fun r ↦
        let newmsg := (smbHfieldAdd (fun _ ↦ true) r.2.2 recipient [97] false).2
        let first := smbAddmsghdr plainEnv r.2.1 newmsg .selfpack
        let second := smbAddmsghdr plainEnv first.2.1 newmsg .selfpack
        let freed := smbFreemsg second.2.1 first.2.2
        decide (r.1 = .success ∧ first.1 = .success ∧ second.1 = .success ∧ freed.1 = .success ∧
          datCount freed.2.sda 0 = 0 ∧ second.2.2.hdr.offset = 0 ∧
          smbGetmsgdatlen second.2.2 = 3)) = some true := by decide +kernel
  obtain ⟨⟨code, smb, msg⟩, hadd, heq⟩ := Option.map_eq_some_iff.mp hrun
  dsimp only at heq
  rw [decide_eq_true_eq] at heq
  have htext : (smbHfieldAdd (fun _ ↦ true) msg recipient [97] false).2.text = msg.text := by
    rw [smbHfieldAdd]
    repeat' split
    all_goals rfl
  generalize (smbHfieldAdd (fun _ ↦ true) msg recipient [97] false).2 = newmsg at heq htext
  cases hfirst : smbAddmsghdr plainEnv smb newmsg .selfpack with
  | mk code₁ r₁ =>
  obtain ⟨smb₁, copy₁⟩ := r₁
  rw [hfirst] at heq
  cases hsecond : smbAddmsghdr plainEnv smb₁ newmsg .selfpack with
  | mk code₂ r₂ =>
  obtain ⟨smb₂, copy₂⟩ := r₂
  rw [hsecond] at heq
  obtain ⟨rfl, rfl, rfl, hfreed⟩ := heq
  exact ⟨smb, smb₁, smb₂, msg, newmsg, copy₁, copy₂, hadd, htext, hfirst, hsecond, hfreed⟩

theorem deliveryRun_kept_two :
    ∃ d : Delivery, d.pending = none ∧ d.copies.length = 2 ∧ d.Kept := by
  obtain ⟨smb, smb₁, smb₂, msg, newmsg, copy₁, copy₂, hadd, htext, hfirst, hsecond, -⟩ :=
    exists_two_copies
  have h₀ : DeliveryRun plainEnv (mailStorageMode false) 0
      (fun smb b ↦ DataFits (mailStorageMode false) smb b 0) Timely
      ⟨smb, msg, some [⟨netNone, 1⟩, ⟨netNone, 2⟩], 0, []⟩ :=
    .start rfl rfl (fun _ ↦ by decide) hadd
  have h₁ := h₀.step (a := .deliver) (.inr ⟨rfl, (by decide : 0 < 65535)⟩)
    (.deliver (.inl rfl) (by decide) htext hfirst)
  have h₂ := h₁.step (a := .deliver) (.inr ⟨rfl, (by decide : 1 < 65535)⟩)
    (.deliver (.inl rfl) (by decide) htext hsecond)
  have h₃ := h₂.step (a := .finish) (.inr trivial) (.finish (.inl rfl))
  exact ⟨_, rfl, rfl, deliveryRun_kept _ _ _ _ h₃⟩

/-- The second recipient has mail whose block is free. -/
theorem not_deliveryRun_kept :
    ¬∀ (env : Env) (fastmail : Bool) (maxRecipients : ℕ) (d : Delivery),
      DeliveryRun env (mailStorageMode fastmail) maxRecipients (fun _ _ ↦ True) (fun _ _ ↦ True) d →
        d.Kept := by
  intro hall
  obtain ⟨smb, smb₁, smb₂, msg, newmsg, copy₁, copy₂, hadd, htext, hfirst, hsecond, hfreed, hzero,
    hoffset, hlength⟩ := exists_two_copies
  have h₀ : DeliveryRun plainEnv (mailStorageMode false) 0 (fun _ _ ↦ True) (fun _ _ ↦ True)
      ⟨smb, msg, some [⟨netNone, 1⟩, ⟨netNone, 2⟩], 0, []⟩ := .start rfl rfl trivial hadd
  have h₁ := h₀.step trivial (.deliver (.inl rfl) (by decide) htext hfirst)
  have h₂ := h₁.step trivial (.deliver (.inl rfl) (by decide) htext hsecond)
  have h₃ := h₂.step trivial (@DeliveryStep.free _ _ _ _ _ _ copy₁ _ _ [] [copy₂] rfl)
  rw [hfreed, if_pos rfl] at h₃
  refine (hall _ _ _ _ h₃).used copy₂ (by simp) 0 ⟨0, ?_, ?_, rfl⟩ hzero
  · rw [hoffset]
    exact Nat.le_refl 0
  · rw [hoffset, hlength]
    decide

end Synchronet.Sbbs3.MailSrvr
