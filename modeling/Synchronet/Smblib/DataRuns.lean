import Synchronet.Smblib.DataRefs
import Synchronet.Smblib.IndexRuns

/-!
# Data blocks over a run

A live message holds the blocks of its data: its references to a block are counted
by the weight of the message there.  The counts of the `.sda` table back the live
messages of a run as long as the data goes below 4 GiB, where the 32-bit positions
of the message header reach it.
-/

namespace Synchronet.Smblib

open Words RecordFile LittleEndian RefCount

/-- A live message with its references. -/
structure DataRef where
  msg : SmbMsg
  refs : ℕ

/-- What is left of a message when a reference is given up. -/
def DataRef.giveUp (r : DataRef) : List DataRef :=
  if r.refs ≤ 1 then [] else [{ r with refs := r.refs - 1 }]

/-- The bases reached from any base with the messages that have references since.
A message can be read again before it is used, so that only its text counts. -/
inductive DataRun (env : Env) (addOk : Storage → Smb → ℕ → ℕ → Prop) : Smb → List DataRef → Prop
  | start (smb : Smb) : smb.status.attr &&& smbHyperalloc = 0 → DataRun env addOk smb []
  | add {s s' : Smb} {live : List DataRef} {msg msg' : SmbMsg} {storage : Storage}
      {dupechkHashes : ℕ} {xlat : UInt16} {body tail : Option (List UInt8)} {code : Code}
      {b t : ℕ} :
      DataRun env addOk s live → storage ≠ .hyperalloc →
      storedLengths env xlat body tail = (b, t) →
      IsDupe env s msg dupechkHashes body ∨ TextRefused s storage (b + t) ∨ addOk storage s b t →
      smbAddmsg env s msg storage dupechkHashes xlat body tail = some (code, s', msg') →
      DataRun env addOk s' (if code = .success then live ++ [⟨msg', 1⟩] else live)
  | inc {s : Smb} {l₁ l₂ : List DataRef} {r : DataRef} {msg : SmbMsg} {refs : UInt16} :
      DataRun env addOk s (l₁ ++ r :: l₂) → msg.text = r.msg.text →
      (∀ i, (datCount s.sda i).toNat + msg.weight i * refs.toNat ≤ 0xffff) →
      DataRun env addOk { s with sda := (smbIncmsgDfields s.status.attr s.sda msg refs).2 }
        (if (smbIncmsgDfields s.status.attr s.sda msg refs).1 = .success then
          l₁ ++ { r with refs := r.refs + refs.toNat } :: l₂ else l₁ ++ r :: l₂)
  | freeDfields {s : Smb} {l₁ l₂ : List DataRef} {r : DataRef} {msg : SmbMsg} :
      DataRun env addOk s (l₁ ++ r :: l₂) → msg.text = r.msg.text →
      DataRun env addOk { s with sda := (smbFreemsgDfields s.status.attr s.sda msg 1).2 }
        (if (smbFreemsgDfields s.status.attr s.sda msg 1).1 = .success then
          l₁ ++ r.giveUp ++ l₂ else l₁ ++ r :: l₂)
  | free {s : Smb} {l₁ l₂ : List DataRef} {r : DataRef} {msg : SmbMsg} :
      DataRun env addOk s (l₁ ++ r :: l₂) → msg.text = r.msg.text →
      DataRun env addOk (smbFreemsg s msg).2
        (if (smbFreemsg s msg).1 = .success then l₁ ++ r.giveUp ++ l₂ else l₁ ++ r :: l₂)

/-- The blocks of live messages are in use, and never handed out. -/
structure DataBlocksOk (smb : Smb) (live : List DataRef) : Prop where
  used : ∀ r ∈ live, ∀ i ∈ r.msg.dataBlocks, datCount smb.sda i ≠ 0
  allocdat : ∀ r ∈ live, ∀ i ∈ r.msg.dataBlocks, ∀ length refs offset sda,
    smbAllocdat smb.sda length refs = (.ok offset, sda) → ¬ touches offset length i
  fallocdat : ∀ r ∈ live, ∀ i ∈ r.msg.dataBlocks, ∀ length refs offset sda,
    smbFallocdat smb.sda length refs = (.ok offset, sda) → ¬ touches offset length i

/-- The data goes where its fields start below 4 GiB. -/
def DataFits (storage : Storage) (smb : Smb) (b t : ℕ) : Prop :=
  b + t ≠ 0 →
    sdtBlockLen * dataStart (dataMode storage) smb.sda (smbDatblocks (b + t)) +
      (if t = 0 then 0 else b) < 2 ^ 32

/-! ## The invariant -/

def DataRef.holder (r : DataRef) : Holder ℕ := ⟨r.msg.dataBlocks, r.msg.weight, r.refs⟩

/-- The counts of the table back the live messages. -/
structure DataInv (attr : UInt16) (sda : List UInt16) (live : List DataRef) : Prop where
  attr : attr &&& smbHyperalloc = 0
  backed : Backed (fun i ↦ (datCount sda i).toNat) (live.map DataRef.holder)

variable {attr : UInt16} {sda : List UInt16} {live l₁ l₂ : List DataRef} {r : DataRef}
  {msg : SmbMsg} {storage : Storage} {b t : ℕ}

/-- Used blocks are not handed out. -/
theorem not_touches_dataStart {i : ℕ} (hi : datCount sda i ≠ 0) (storage : Storage) (length : ℕ) :
    ¬ touches (sdtBlockLen * dataStart storage sda (smbDatblocks length)) length i := by
  intro ht
  rw [touches, Nat.mul_div_cancel_left _ (by decide)] at ht
  exact hi (datCount_dataStart storage sda (by omega) ht.1 ht.2)

theorem DataInv.dataBlocksOk {smb : Smb} (h : DataInv smb.status.attr smb.sda live) :
    DataBlocksOk smb live := by
  have hused : ∀ r ∈ live, ∀ i ∈ r.msg.dataBlocks, datCount smb.sda i ≠ 0 := by
    intro r hr i hi hzero
    have hpos := h.backed.count_pos (List.mem_map_of_mem hr) hi
    simp [hzero] at hpos
  refine ⟨hused, ?_, ?_⟩
  · intro r hr i hi length refs offset sda halloc
    rw [(smbAllocdat_ok halloc).1]
    exact not_touches_dataStart (hused r hr i hi) _ _
  · intro r hr i hi length refs offset sda halloc
    rw [(smbFallocdat_ok halloc).1]
    exact not_touches_dataStart (hused r hr i hi) _ _

/-- The fields of a live message touch its own blocks only. -/
theorem DataInv.inTable (h : DataInv attr sda live) (hr : r ∈ live) : r.msg.InTable sda := by
  intro d hd i hi
  have hheld := h.backed.held _ (List.mem_map_of_mem (f := DataRef.holder) hr)
  have hspan : i ∈ r.holder.span := by
    by_contra hout
    exact weight_ne_zero hd hi (hheld.weight_span i hout)
  have hpos := h.backed.count_pos (List.mem_map_of_mem hr) hspan
  refine datCount_ne_zero_lt_length fun hzero ↦ ?_
  simp [hzero] at hpos

/-! ## The steps -/

/-- Fresh data is held by its message. -/
theorem DataInv.store (h : DataInv attr sda live) (hshort : b + t < 2 ^ 31)
    (hfields : msg.dfields = textFields b t)
    (hoffset : b + t ≠ 0 → msg.hdr.offset = UInt32.ofNat (sdtBlockLen *
      dataStart (dataMode storage) sda (smbDatblocks (b + t))))
    (hfits : b + t ≠ 0 → sdtBlockLen * dataStart (dataMode storage) sda (smbDatblocks (b + t)) +
      (if t = 0 then 0 else b) < 2 ^ 32) :
    DataInv attr (storeBlocks storage sda (b + t)) (live ++ [⟨msg, 1⟩]) := by
  set start := dataStart (dataMode storage) sda (smbDatblocks (b + t)) with hstart
  obtain ⟨hspan, hweight⟩ :
      (∀ i, i ∈ msg.dataBlocks ↔ start ≤ i ∧ i < start + smbDatblocks (b + t)) ∧
        ∀ i, ¬ (start ≤ i ∧ i < start + smbDatblocks (b + t)) → msg.weight i = 0 := by
    by_cases hzero : b + t = 0
    · obtain ⟨rfl, rfl⟩ : b = 0 ∧ t = 0 := by omega
      refine ⟨fun i ↦ ?_, fun i _ ↦ ?_⟩
      · rw [SmbMsg.dataBlocks, smbGetmsgdatlen_text hfields hshort, smbDatblocks_zero]
        simp only [Set.mem_ofPred_eq]
        omega
      · rw [weight_text hfields hshort, if_neg (not_touches_zero _ _), if_neg (not_touches_zero _ _)]
    · have hplace : msg.hdr.offset.toNat = sdtBlockLen * start := by
        have := hfits hzero
        rw [hoffset hzero, toNat_ofNat_uint32 (by omega)]
      exact ⟨mem_dataBlocks_text hfields hshort hplace,
        fun i ↦ weight_text_eq_zero hfields hshort hplace (hfits hzero)⟩
  have hcount := datCount_storeBlocks storage sda (b + t)
  refine ⟨h.attr, ?_⟩
  rw [List.map_append]
  refine h.backed.alloc rfl ?_ ?_ ?_ ?_
  · intro i hi
    exact hweight i (mt (hspan i).mpr hi)
  · intro i hi
    obtain ⟨hlo, hhi⟩ := (hspan i).mp hi
    rw [datCount_dataStart (dataMode storage) sda (by omega) hlo hhi]
    rfl
  · intro i hi
    rw [hcount i, if_pos ((hspan i).mp hi)]
    rfl
  · intro i hi
    rw [hcount i, if_neg (mt (hspan i).mpr hi)]

/-- Giving a reference up succeeds, and keeps the other messages backed. -/
theorem DataInv.freeDfields (h : DataInv attr sda (l₁ ++ r :: l₂)) (htext : msg.text = r.msg.text) :
    (smbFreemsgDfields attr sda msg 1).1 = .success ∧
      DataInv attr (smbFreemsgDfields attr sda msg 1).2 (l₁ ++ r.giveUp ++ l₂) := by
  have hr : r ∈ l₁ ++ r :: l₂ := by simp
  rw [smbFreemsgDfields_eq_of_text htext]
  obtain ⟨sda', hfree, -, hcount⟩ := smbFreemsgDfields_one h.attr (h.inTable hr)
  have hb := h.backed
  rw [List.map_append, List.map_cons] at hb
  rw [hfree, DataRef.giveUp]
  refine ⟨rfl, h.attr, ?_⟩
  split
  · rw [List.append_nil, List.map_append]
    exact hb.drop hcount
  · rename_i hrefs
    rw [List.append_assoc, List.singleton_append, List.map_append, List.map_cons]
    exact hb.release (Nat.lt_of_not_le hrefs) hcount

theorem DataInv.inc (h : DataInv attr sda (l₁ ++ r :: l₂)) (htext : msg.text = r.msg.text)
    {refs : UInt16} (hmax : ∀ i, (datCount sda i).toNat + msg.weight i * refs.toNat ≤ 0xffff) :
    (smbIncmsgDfields attr sda msg refs).1 = .success ∧
      DataInv attr (smbIncmsgDfields attr sda msg refs).2
        (l₁ ++ { r with refs := r.refs + refs.toNat } :: l₂) := by
  have hr : r ∈ l₁ ++ r :: l₂ := by simp
  obtain ⟨sda', hinc, -, hcount⟩ := smbIncmsgDfields_ok h.attr
    ((inTable_iff_of_text htext sda).mpr (h.inTable hr)) hmax
  rw [weight_eq_of_text htext] at hcount
  have hb := h.backed
  rw [List.map_append, List.map_cons] at hb
  rw [hinc]
  refine ⟨rfl, h.attr, ?_⟩
  rw [List.map_append, List.map_cons]
  exact hb.retain hcount

theorem DataInv.add {smb smb' : Smb} (h : DataInv smb.status.attr smb.sda live) {env : Env}
    {msg' : SmbMsg} {dupechkHashes : ℕ} {xlat : UInt16} {body tail : Option (List UInt8)}
    {code : Code} (hlengths : storedLengths env xlat body tail = (b, t))
    (hfits : IsDupe env smb msg dupechkHashes body ∨ TextRefused smb storage (b + t) ∨
      DataFits storage smb b t)
    (hadd : smbAddmsg env smb msg storage dupechkHashes xlat body tail = some (code, smb', msg')) :
    DataInv smb'.status.attr smb'.sda
      (if code = .success then live ++ [⟨msg', 1⟩] else live) := by
  obtain ⟨hattr, ⟨hcode, hsda, -⟩ |
    ⟨hdupe, hrefused, hshort, hfields, hoffset, hafter⟩⟩ := smbAddmsg_cases hlengths hadd h.attr
  · rw [if_neg hcode, hattr, hsda]
    exact h
  · have hstore := h.store hshort hfields hoffset
      ((hfits.resolve_left hdupe).resolve_left hrefused)
    rw [hattr]
    rcases hafter with ⟨hcode, hsda⟩ | ⟨hcode, hsda⟩
    · rw [if_pos hcode, hsda]
      exact hstore
    · -- the header was refused, and the data given back
      rw [if_neg hcode, hsda]
      have htext : msg'.text = (DataRef.mk msg' 1).msg.text := rfl
      simpa [DataRef.giveUp] using (hstore.freeDfields htext).2

/-- `smb_freemsg` gives up a reference, or refuses before it has changed anything. -/
theorem DataInv.free {smb : Smb} (h : DataInv smb.status.attr smb.sda (l₁ ++ r :: l₂))
    (htext : msg.text = r.msg.text) :
    DataInv (smbFreemsg smb msg).2.status.attr (smbFreemsg smb msg).2.sda
      (if (smbFreemsg smb msg).1 = .success then l₁ ++ r.giveUp ++ l₂ else l₁ ++ r :: l₂) := by
  obtain ⟨hfst, hinv⟩ := h.freeDfields htext
  rw [smbFreemsg, if_neg (not_not.mpr h.attr)]
  split
  · exact h
  · generalize smbFreemsgDfields smb.status.attr smb.sda msg 1 = run at hfst hinv
    obtain ⟨code, sda⟩ := run
    dsimp only at hfst hinv
    rw [hfst]
    exact hinv

theorem DataRun.dataInv {env : Env} {smb : Smb} (h : DataRun env DataFits smb live) :
    DataInv smb.status.attr smb.sda live := by
  induction h with
  | start smb hattr => exact ⟨hattr, Backed.nil _⟩
  | add _ _ hlengths hfits hadd ih => exact ih.add hlengths hfits hadd
  | inc _ htext hmax ih =>
      obtain ⟨hfst, hinv⟩ := ih.inc htext hmax
      rw [if_pos hfst]
      exact hinv
  | freeDfields _ htext ih =>
      obtain ⟨hfst, hinv⟩ := ih.freeDfields htext
      rw [if_pos hfst]
      exact hinv
  | free _ htext ih => exact ih.free htext

/-- The blocks of live messages stay in use over every run whose data goes below
4 GiB. -/
theorem dataRun_dataBlocksOk {env : Env} {smb : Smb} {live : List DataRef}
    (h : DataRun env DataFits smb live) : DataBlocksOk smb live := h.dataInv.dataBlocksOk

/-- A base with one message of one letter. -/
theorem dataRun_dataBlocksOk_one :
    ∃ smb msg, smbAddmsg plainEnv (smbCreate {}) addressedMsg .selfpack 0 xlatNone (some [98]) none =
      some (.success, smb, msg) ∧ DataBlocksOk smb [⟨msg, 1⟩] := by
  have hadd : (smbAddmsg plainEnv (smbCreate {}) addressedMsg .selfpack 0 xlatNone
      (some [98]) none).map Prod.fst = some .success := by decide +kernel
  obtain ⟨⟨code, smb, msg⟩, hadd, rfl⟩ := Option.map_eq_some_iff.mp hadd
  exact ⟨smb, msg, hadd, @dataRun_dataBlocksOk plainEnv _ _
      (.add (.start _ rfl) (by decide) rfl (Or.inr (Or.inr fun _ ↦ by decide)) hadd)⟩

/-! ## Data above 4 GiB -/

/-- Additions at the end of the table of a base without hashes. -/
theorem exists_add_fastalloc {smb : Smb} {last total : UInt32}
    (hstatus : smb.status = ⟨last, total, 32, 0, smbNohash⟩) (hsid : smb.sid.length = total.toNat)
    (hsmall : total.toNat < 2 ^ 31) (hsda : smb.sda.length ≤ 2 ^ 32) {body : List UInt8}
    (hbody : body ≠ []) (hshort : body.length + 2 < 2 ^ 31) :
    ∃ smb' msg', smbAddmsg plainEnv smb addressedMsg .fastalloc 0 xlatNone (some body) none =
        some (.success, smb', msg') ∧
      smb'.status = ⟨last + 1, total + 1, 32, 0, smbNohash⟩ ∧
      smb'.sid.length = total.toNat + 1 ∧
      smb'.sda.length = smb.sda.length + smbDatblocks (body.length + 2) ∧
      (∀ i, datCount smb'.sda i = if smb.sda.length ≤ i ∧
        i < smb.sda.length + smbDatblocks (body.length + 2) then 1 else datCount smb.sda i) ∧
      msg'.dfields = textFields (body.length + 2) 0 ∧
      msg'.hdr.offset = UInt32.ofNat (sdtBlockLen * smb.sda.length) := by
  obtain ⟨c, cs, rfl⟩ := List.exists_cons_of_ne_nil hbody
  have hlengths : storedLengths plainEnv xlatNone (some (c :: cs)) none =
      ((c :: cs).length + 2, 0) := by
    have hxlat : xlatNone ≠ xlatLzh := by decide
    simp only [storedLengths, storedTail, storedBody, hxlat, false_and, if_false,
      List.length_append, length_le, List.length_nil, Nat.add_comm]
  have hdupe : ¬ IsDupe plainEnv smb addressedMsg 0 (some (c :: cs)) := by
    have hhash : hashing smbNohash = false := by decide
    rw [IsDupe, dupeHashes, addBodyCrc, hstatus, hhash]
    · simp [smbFindhash]
    · exact hbody
  have hplace : ¬ TextRefused smb .fastalloc ((c :: cs).length + 2 + 0) := by
    have hattr : smbNohash &&& smbHyperalloc = 0 := by decide
    rw [TextRefused, dataAlloc, hstatus, hattr]
    simp only [ne_eq, not_true_eq_false, if_false, if_true, smbFallocdat]
    rw [if_neg (by simp only [longMax, sdtBlockLen]; omega)]
    rintro (hlong | ⟨-, code, hcode⟩)
    · omega
    · cases hcode
  obtain ⟨smb', msg', hadd, hstatus', hsid'⟩ := smbAddmsg_success hlengths hdupe hplace
    (by decide) rfl rfl rfl (by decide) (by rw [hsid, hstatus]) (by rw [hsid]; exact hsmall)
    (by rw [hstatus])
  have hattr : smb.status.attr &&& smbHyperalloc = 0 := by
    rw [hstatus]
    exact (by decide : smbNohash &&& smbHyperalloc = 0)
  obtain ⟨-, ⟨hcode, -⟩ | ⟨-, -, -, hfields, hoffset, ⟨-, hafter⟩ | ⟨hcode, -⟩⟩⟩ :=
    smbAddmsg_cases hlengths hadd hattr
  · exact absurd rfl hcode
  · have hstart : dataStart (dataMode .fastalloc) smb.sda
        (smbDatblocks ((c :: cs).length + 2 + 0)) = smb.sda.length := rfl
    have hcount := datCount_storeBlocks .fastalloc smb.sda ((c :: cs).length + 2 + 0)
    rw [hstart] at hoffset hcount
    refine ⟨smb', msg', hadd, ?_, hsid'.trans (by rw [hsid]), ?_, ?_, hfields, hoffset (by omega)⟩
    · rw [hstatus', hstatus]
    · rw [hafter, storeBlocks, if_neg (by omega), hstart, writeAt_length, List.length_append,
        List.length_replicate]
    · rw [hafter]
      exact hcount
  · exact absurd rfl hcode

/-- Two messages of 2 GiB, a third whose position does not fit into its header, and
the first block of the first message is free once the third is freed. -/
theorem not_dataBlocksOk_above_4GiB :
    ¬ ∀ (env : Env) (smb : Smb) (live : List DataRef),
      DataRun env (fun _ _ _ _ ↦ True) smb live → DataBlocksOk smb live := by
  intro hall
  obtain ⟨body, hbody⟩ : ∃ body : List UInt8, body.length = 2 ^ 31 - 3 :=
    ⟨List.replicate _ 97, List.length_replicate⟩
  have hne : body ≠ [] := by
    rintro rfl
    simp at hbody
  have hblocks : smbDatblocks (body.length + 2) = 2 ^ 23 := by
    rw [hbody, smbDatblocks_eq]
    decide
  have hrun := @DataRun.start plainEnv (fun _ _ _ _ ↦ True)
      (smbCreate { status := { attr := smbNohash } }) (by decide)
  obtain ⟨smb₁, msg₁, hadd₁, hstatus₁, hsid₁, hlen₁, hcount₁, hfields₁, hoffset₁⟩ :=
    @exists_add_fastalloc (smbCreate { status := { attr := smbNohash } }) 0 0 rfl rfl (by decide)
        (by decide) _ hne (by rw [hbody]; decide)
  have hrun := hrun.add (by decide) rfl (Or.inr (Or.inr trivial)) hadd₁
  replace hlen₁ : smb₁.sda.length = 2 ^ 23 := by
    rw [hlen₁, hblocks]
    exact Nat.zero_add _
  obtain ⟨smb₂, msg₂, hadd₂, hstatus₂, hsid₂, hlen₂, hcount₂, hfields₂, hoffset₂⟩ :=
    exists_add_fastalloc hstatus₁ hsid₁ (by decide) (by rw [hlen₁]; decide) hne
      (by rw [hbody]; decide)
  have hrun := hrun.add (by decide) rfl (Or.inr (Or.inr trivial)) hadd₂
  replace hlen₂ : smb₂.sda.length = 2 ^ 24 := by
    rw [hlen₂, hlen₁, hblocks]
    decide
  obtain ⟨smb₃, msg₃, hadd₃, hstatus₃, -, hlen₃, hcount₃, hfields₃, hoffset₃⟩ :=
    @exists_add_fastalloc _ _ _ hstatus₂ hsid₂ (by decide) (by rw [hlen₂]; decide) [97] (by decide)
        (by decide)
  have hrun := hrun.add (by decide) rfl (Or.inr (Or.inr trivial)) hadd₃
  simp only [if_true, List.nil_append, List.singleton_append] at hrun
  have hzero : msg₃.hdr.offset = 0 := by
    rw [hoffset₃, hlen₂]
    decide
  have htable : msg₃.InTable smb₃.sda := by
    refine (forall_dfields_text hfields₃).mpr ⟨fun _ i hi ↦ ?_, fun h ↦ absurd rfl h⟩
    have hsmall : i < 1 := by
      rw [dfieldPos_body, hzero] at hi
      exact hi.2
    rw [hlen₃, hlen₂]
    exact Nat.lt_add_right _ (hsmall.trans (by decide))
  have hone : datCount smb₃.sda 0 = 1 := by
    rw [hcount₃ 0, if_neg (by rw [hlen₂]; omega), hcount₂ 0, if_neg (by rw [hlen₁]; omega),
      hcount₁ 0, hblocks]
    exact if_pos ⟨le_refl 0, by decide⟩
  have hattr : smb₃.status.attr &&& smbHyperalloc = 0 := by
    rw [hstatus₃]
    exact (by decide : smbNohash &&& smbHyperalloc = 0)
  obtain ⟨sda, hfree, -, hcount⟩ := smbFreemsgDfields_one hattr htable
  have hrun := @DataRun.freeDfields _ _ _ [⟨msg₁, 1⟩, ⟨msg₂, 1⟩] [] _ msg₃ hrun rfl
  rw [hfree, if_pos rfl] at hrun
  refine (hall _ _ _ hrun).used ⟨msg₁, 1⟩ (by simp [DataRef.giveUp]) 0 ?_ ?_
  · refine (@mem_dataBlocks_text _ _ _ hfields₁ (by rw [hbody]; decide) 0 (by rw [hoffset₁]; rfl) 0).mpr ⟨le_refl 0, ?_⟩
    rw [Nat.zero_add, Nat.add_zero, hblocks]
    decide
  · have hweight : msg₃.weight 0 = 1 := by
      rw [weight_text hfields₃ (by decide), hzero]
      rfl
    have hleft := hcount 0
    rw [hone, hweight] at hleft
    exact UInt16.toNat_inj.mp hleft

end Synchronet.Smblib
