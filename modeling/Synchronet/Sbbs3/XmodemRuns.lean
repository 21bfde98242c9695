import Synchronet.Lib.StopAndWait
import Synchronet.Sbbs3.Xmodem

/-!
# XMODEM over a line that loses and garbles

The two machines of a transfer with the line between them.  What was sent arrives in its order or
not at all, other bytes may come in its place, and every `getcom` may time out.  Every such
transfer is a run of stop and wait.
-/

namespace Synchronet.Sbbs3.Xmodem

open StopAndWait

/-! ## The blocks of a file -/

section

variable (tx : Settings) (file : List UInt8)

/-- `sent_bytes` and `block_size` once so many blocks have been acknowledged. -/
def position : ℕ → ℕ × ℕ
  | 0 => (0, tx.blockSize)
  | k + 1 =>
      let p := position k
      let blockSize := endBlockSize file.length p.1 p.2
      (p.1 + (readBlock file p.1 blockSize).length, blockSize)

def payload (k : ℕ) : List UInt8 :=
  paddedBlock file (position tx file k).1 (position tx file (k + 1)).2

/-- What the first `k` blocks hold. -/
def sentData : ℕ → List UInt8
  | 0 => []
  | k + 1 => sentData k ++ payload tx file k

/-- The file has more than `k` blocks. -/
def HasBlock (k : ℕ) : Prop := (position tx file k).1 < file.length

instance (k : ℕ) : Decidable (HasBlock tx file k) := inferInstanceAs (Decidable (_ < _))

/-- Message `k` is block `k + 1`, or `EOT` after the last block. -/
def message (crc : Bool) (k : ℕ) : List UInt8 :=
  if HasBlock tx file k then xmodemPutBlock crc (payload tx file k) (k + 1) else [EOT]

end

variable {tx rx : Settings} {file : List UInt8}

@[simp] theorem position_zero : position tx file 0 = (0, tx.blockSize) := rfl

@[simp] theorem sentData_zero : sentData tx file 0 = [] := rfl

@[simp] theorem sentData_succ (k : ℕ) :
    sentData tx file (k + 1) = sentData tx file k ++ payload tx file k := rfl

theorem position_succ_snd (k : ℕ) : (position tx file (k + 1)).2 =
    endBlockSize file.length (position tx file k).1 (position tx file k).2 := rfl

theorem position_succ_fst (k : ℕ) : (position tx file (k + 1)).1 = (position tx file k).1 +
    (readBlock file (position tx file k).1 (position tx file (k + 1)).2).length := rfl

theorem endBlockSize_idem (size sentBytes blockSize : ℕ) :
    endBlockSize size sentBytes (endBlockSize size sentBytes blockSize) =
      endBlockSize size sentBytes blockSize := by
  by_cases h : blockSize > xmodemMinBlockSize ∧ sentBytes + blockSize > size ∧
      sentBytes + blockSize - xmodemMinBlockSize ≥ size
  · simp [endBlockSize, h]
  · simp [endBlockSize, h]

theorem isBlockSize_endBlockSize (size sentBytes : ℕ) {blockSize : ℕ}
    (h : IsBlockSize blockSize) : IsBlockSize (endBlockSize size sentBytes blockSize) := by
  rw [endBlockSize]
  split_ifs
  · exact Or.inl rfl
  · exact h

theorem isBlockSize_position (htx : IsBlockSize tx.blockSize) (k : ℕ) :
    IsBlockSize (position tx file k).2 := by
  induction k with
  | zero => exact htx
  | succ k ih => exact isBlockSize_endBlockSize _ _ ih

theorem IsBlockSize.min_le {n : ℕ} (h : IsBlockSize n) : xmodemMinBlockSize ≤ n := by
  rcases h with rfl | rfl
  · exact le_rfl
  · decide

theorem length_readBlock (file : List UInt8) (sentBytes blockSize : ℕ) :
    (readBlock file sentBytes blockSize).length = min blockSize (file.length - sentBytes) := by
  simp [readBlock]

theorem length_paddedBlock (sentBytes blockSize : ℕ) :
    (paddedBlock file sentBytes blockSize).length = blockSize := by
  have := length_readBlock file sentBytes blockSize
  simp only [paddedBlock, List.length_append, List.length_replicate]
  omega

theorem isBlockSize_payload (htx : IsBlockSize tx.blockSize) (k : ℕ) :
    IsBlockSize (payload tx file k).length := by
  rw [payload, length_paddedBlock]
  exact isBlockSize_position htx (k + 1)

/-- Less than `XMODEM_MIN_BLOCK_SIZE` bytes are missing from the last block. -/
theorem endBlockSize_pad {size sentBytes blockSize : ℕ} (hsent : sentBytes < size)
    (hblock : IsBlockSize blockSize) :
    sentBytes + endBlockSize size sentBytes blockSize < size + xmodemMinBlockSize := by
  have hmin := hblock.min_le
  rw [endBlockSize]
  split_ifs with h
  · omega
  · rcases hblock with rfl | rfl
    · omega
    · simp only [xmodemMaxBlockSize, xmodemMinBlockSize] at h ⊢
      omega

theorem position_le (k : ℕ) : (position tx file k).1 ≤ file.length := by
  induction k with
  | zero => exact Nat.zero_le _
  | succ k ih =>
      rw [position_succ_fst, length_readBlock]
      omega

/-- The blocks hold the file, and what they hold besides is the padding of the last one. -/
theorem sentData_spec (htx : IsBlockSize tx.blockSize) (k : ℕ)
    (hbefore : ∀ j < k, HasBlock tx file j) :
    ∃ pad < xmodemMinBlockSize, sentData tx file k =
      file.take (position tx file k).1 ++ List.replicate pad CPMEOF ∧
      (HasBlock tx file k → pad = 0) := by
  induction k with
  | zero => exact ⟨0, by decide, by simp, by simp⟩
  | succ k ih =>
      obtain ⟨pad, -, hdata, hpad⟩ := ih fun j hj ↦ hbefore j (by omega)
      have hhas := hbefore k (Nat.lt_succ_self k)
      obtain rfl := hpad hhas
      have hlen := length_readBlock file (position tx file k).1
        (position tx file (k + 1)).2
      have hsize : IsBlockSize (position tx file k).2 := isBlockSize_position htx k
      have hbound := endBlockSize_pad hhas hsize
      rw [← position_succ_snd] at hbound
      rw [HasBlock] at hhas
      have hmin : 0 < xmodemMinBlockSize := by decide
      refine ⟨(position tx file (k + 1)).2 - (readBlock file (position tx file k).1
        (position tx file (k + 1)).2).length, by omega, ?_, ?_⟩
      · rw [sentData_succ, hdata, payload, paddedBlock, position_succ_fst, readBlock,
          List.replicate_zero, List.append_nil, ← List.append_assoc, List.take_add]
        simp
      · intro hnext
        rw [HasBlock, position_succ_fst] at hnext
        omega

/-! ## The transfer -/

/-- `line` holds what each `putcom` or block of the sender has sent, `replies` the bytes of the
receiver. -/
structure World where
  sender : Sender
  receiver : Receiver
  line : List (List UInt8)
  replies : List UInt8

/-- The receiver has asked for CRC-16 or for checksums. -/
def World.start (tx : Settings) (crc : Bool) : World where
  sender := Sender.start tx
  receiver := Receiver.start crc
  line := []
  replies := [xmodemPutNak crc 1]

/-- The input is not taken for a block or for `EOT`. -/
def Detected (rx : Settings) (r : Receiver) (input : List Getcom) : Prop :=
  (getcom input).1 ≠ some EOT ∧ ∀ block,
    xmodemGetBlockTurn rx r.crc r.blockNum r.eot r.can input ≠ .ret (.success block)

def World.send (tx : Settings) (file : List UInt8) (w : World) (i : Getcom) : World :=
  { w with
    sender := (w.sender.step tx file i).1
    line := w.line ++ (w.sender.step tx file i).2 }

def World.receive (rx : Settings) (w : World) (input : List Getcom) : World :=
  { w with
    receiver := (w.receiver.step rx input).1
    replies := w.replies ++ (w.receiver.step rx input).2 }

inductive WorldStep (tx rx : Settings) (file : List UInt8) : World → World → Prop
  | reply (w : World) (b : UInt8) (rest : List UInt8) (hreplies : w.replies = b :: rest) :
      WorldStep tx rx file w ({ w with replies := rest }.send tx file (some b))
  /-- The sender waits in vain, or reads a byte that the receiver has not sent. -/
  | sendNoise (w : World) (i : Getcom) (hi : i ≠ some ACK) :
      WorldStep tx rx file w (w.send tx file i)
  | loseReplies (w : World) (replies : List UInt8) (hreplies : replies.Sublist w.replies) :
      WorldStep tx rx file w { w with replies := replies }
  /-- The user cancels. -/
  | interrupt (w : World) :
      WorldStep tx rx file w { w with sender := { w.sender with cancelled := true } }
  /-- What was sent comes in, with whatever the receiver reads after it. -/
  | arrive (w : World) (item : List UInt8) (rest : List (List UInt8)) (input : List Getcom)
      (hline : w.line = item :: rest) :
      WorldStep tx rx file w ({ w with line := rest }.receive rx (item.map some ++ input))
  /-- Nothing comes in, or something that has not been sent so. -/
  | noise (w : World) (input : List Getcom) (hinput : Detected rx w.receiver input) :
      WorldStep tx rx file w (w.receive rx input)
  /-- Also what `xmodem_put_nak` and `xmodem_put_eot` throw away. -/
  | loseLine (w : World) (line : List (List UInt8)) (hline : line.Sublist w.line) :
      WorldStep tx rx file w { w with line := line }

/-- The sender has not fallen back to shorter blocks because of errors in block 1. -/
def World.KeepsSize (tx : Settings) (file : List UInt8) (w : World) : Prop :=
  w.sender.blockNum = 1 → (position tx file 1).2 = xmodemMinBlockSize ∨ w.sender.errors < 3

/-- The transfers without that fall back. -/
abbrev Runs (tx rx : Settings) (file : List UInt8) : World → World → Prop :=
  Relation.ReflTransGen fun w w' ↦ WorldStep tx rx file w w' ∧ w'.KeepsSize tx file

/-! ## The receiver -/

/-- The receiver is running and has taken `a` messages; it has `heard` `EOT` once. -/
structure Receiving (tx : Settings) (file : List UInt8) (r : Receiver) (a : ℕ) (heard : Bool) :
    Prop where
  status : r.status = .receiving
  blockNum : r.blockNum = a + 1
  written : r.written = (sentData tx file a).take 0x7fffffff
  left : r.fileBytesLeft = 0x7fffffff - (sentData tx file a).length
  before : ∀ j < a, HasBlock tx file j
  eot : r.eot = heard
  atEnd : heard = true → ¬ HasBlock tx file a

inductive ReceiverAt (tx : Settings) (file : List UInt8) : Receiver → ℕ → Bool → Prop
  | receiving {r : Receiver} {a : ℕ} {heard : Bool} (h : Receiving tx file r a heard) :
      ReceiverAt tx file r a heard
  | success {r : Receiver} (n : ℕ) (hstatus : r.status = .success)
      (hbefore : ∀ j < n, HasBlock tx file j) (hend : ¬ HasBlock tx file n)
      (hwritten : r.written = (sentData tx file n).take 0x7fffffff) :
      ReceiverAt tx file r (n + 1) false
  | failed {r : Receiver} (a n : ℕ) (hstatus : r.status = .failed) (hn : n ≤ a)
      (hbefore : ∀ j < a, HasBlock tx file j)
      (hwritten : r.written = (sentData tx file n).take 0x7fffffff) :
      ReceiverAt tx file r a false

theorem Receiver.step_of_ne (rx : Settings) {r : Receiver} (h : r.status ≠ .receiving) (input : List Getcom) :
    r.step rx input = (r, []) := by
  rw [Receiver.step, if_pos h]

theorem ReceiverAt.of_receiving {r : Receiver} {a : ℕ} {heard : Bool}
    (h : ReceiverAt tx file r a heard) (hstatus : r.status = .receiving) :
    Receiving tx file r a heard := by
  cases h with
  | receiving h => exact h
  | success n hsuccess => exact absurd (hstatus.symm.trans hsuccess) (by decide)
  | failed a n hfailed => exact absurd (hstatus.symm.trans hfailed) (by decide)

theorem ReceiverAt.not_heard {r : Receiver} {a : ℕ} {heard : Bool}
    (h : ReceiverAt tx file r a heard) (hstatus : r.status ≠ .receiving) : heard = false := by
  cases h with
  | receiving h => exact absurd h.status hstatus
  | success => rfl
  | failed => rfl

theorem ReceiverAt.start (crc : Bool) : ReceiverAt tx file (Receiver.start crc) 0 false := by
  refine ReceiverAt.receiving ⟨rfl, rfl, rfl, rfl, by simp, rfl, by simp⟩

theorem xmodemPutNak_ne_ack (crc : Bool) (blockNum : ℕ) : xmodemPutNak crc blockNum ≠ ACK := by
  rw [xmodemPutNak]
  split_ifs <;> decide

theorem count_xmodemPutNak (crc : Bool) (blockNum : ℕ) :
    [xmodemPutNak crc blockNum].count ACK = 0 :=
  List.count_eq_zero.mpr (by simpa using (xmodemPutNak_ne_ack crc blockNum).symm)

theorem count_cancelBytes : cancelBytes.count ACK = 0 := by decide

/-- The head of the loop may find the file too long, and changes nothing else. -/
theorem ReceiverAt.getBlock {r : Receiver} {a : ℕ} (h : Receiving tx file r a r.eot) :
    ReceiverAt tx file (r.getBlock rx) a false := by
  by_cases hmax : rx.maxFileSize ≠ 0 ∧ rx.maxFileSize ≤ r.written.length
  · exact ReceiverAt.failed a a (by simp [Receiver.getBlock, hmax]) le_rfl h.before h.written
  · refine ReceiverAt.receiving ⟨?_, h.blockNum, h.written, h.left, h.before, rfl, by simp⟩
    simp only [Receiver.getBlock, if_neg hmax]
    exact h.status

theorem Receiving.of_errors {r : Receiver} {a : ℕ} {heard : Bool}
    (h : Receiving tx file r a heard) (errors : ℕ) (crc : Bool) :
    Receiving tx file { r with errors := errors, crc := crc } a heard :=
  ⟨h.status, h.blockNum, h.written, h.left, h.before, h.eot, h.atEnd⟩

/-- What is neither a block nor the end is answered with something else than `ACK`. -/
theorem Receiving.afterBlock_error (rx : Settings) {r : Receiver} {a : ℕ} {heard : Bool}
    (h : Receiving tx file r a heard) {result : BlockResult}
    (hsuccess : ∀ block, result ≠ .success block) (heot : result ≠ .eot) :
    ReceiverAt tx file (r.afterBlock rx result).1 a false ∧
      (r.afterBlock rx result).2.count ACK = 0 := by
  have hfailed : ∀ r' : Receiver, r'.status = .failed → r'.written = r.written →
      ReceiverAt tx file r' a false := fun r' hstatus hwritten ↦
    ReceiverAt.failed a a hstatus le_rfl h.before (hwritten.trans h.written)
  have herror : ∀ crc : Bool, ReceiverAt tx file
      ({ r with errors := r.errors + 1, crc := crc }.getBlock rx) a false := fun crc ↦ by
    obtain rfl := h.eot
    exact ReceiverAt.getBlock (h.of_errors _ _)
  cases result with
  | success block => exact absurd rfl (hsuccess block)
  | eot => exact absurd rfl heot
  | can => exact ⟨hfailed _ rfl rfl, rfl⟩
  | noinp | failure | notXmodem | notYmodem =>
      simp only [Receiver.afterBlock]
      split_ifs
      · exact ⟨hfailed _ rfl rfl, count_cancelBytes⟩
      · exact ⟨herror _, count_xmodemPutNak _ _⟩

/-- The block that the receiver waits for. -/
theorem Receiving.afterBlock_success (rx : Settings) {r : Receiver} {a : ℕ} {heard : Bool}
    (h : Receiving tx file r a heard) (hhas : HasBlock tx file a) :
    ReceiverAt tx file (r.afterBlock rx (.success (payload tx file a))).1 (a + 1) false ∧
      (r.afterBlock rx (.success (payload tx file a))).2 = [ACK] := by
  have hbefore : ∀ j < a + 1, HasBlock tx file j := by
    intro j hj
    rcases Nat.lt_succ_iff_lt_or_eq.mp hj with hj | rfl
    · exact h.before j hj
    · exact hhas
  rw [Receiver.afterBlock]
  split_ifs with hleft
  · exact ⟨ReceiverAt.failed (a + 1) a rfl (Nat.le_succ a) hbefore h.written, rfl⟩
  · refine ⟨?_, rfl⟩
    apply ReceiverAt.getBlock
    have hleft' := h.left
    refine ⟨h.status, by simp [h.blockNum], ?_, ?_, hbefore, rfl, ?_⟩
    · rw [h.written, h.left, sentData_succ, List.take_append]
    · simp only [sentData_succ, List.length_append, List.length_take]
      omega
    · intro heot
      rw [h.eot] at heot
      exact absurd hhas (h.atEnd heot)

theorem Receiving.afterBlock_eot (rx : Settings) {r : Receiver} {a : ℕ} {heard : Bool}
    (h : Receiving tx file r a heard) (hend : ¬ HasBlock tx file a) :
    ReceiverAt tx file (r.afterBlock rx .eot).1 (a + 1) false ∧
      (r.afterBlock rx .eot).2 = [ACK] :=
  ⟨ReceiverAt.success a rfl h.before hend h.written, rfl⟩

/-- The loop in `xmodem_get_block` goes on, unless it has had too many turns. -/
theorem Receiving.again {r : Receiver} {a : ℕ} {heard eot can : Bool} {sent : List UInt8}
    {input : List Getcom} (h : Receiving tx file r a heard)
    (hturn : xmodemGetBlockTurn rx r.crc r.blockNum r.eot r.can input = .again eot can sent)
    (hsent : sent.count ACK = 0) (hend : eot = true → ¬ HasBlock tx file a) :
    (ReceiverAt tx file (r.step rx input).1 a eot ∨
      ReceiverAt tx file (r.step rx input).1 a false) ∧
      (r.step rx input).2.count ACK = 0 := by
  rw [Receiver.step, if_neg (by simp [h.status]), hturn]
  dsimp only
  split_ifs with hturns
  · refine ⟨Or.inl (ReceiverAt.receiving ?_), hsent⟩
    exact ⟨h.status, h.blockNum, h.written, h.left, h.before, rfl, hend⟩
  · have hfailure : ReceiverAt tx file (r.afterBlock rx .failure).1 a false ∧
        (r.afterBlock rx .failure).2.count ACK = 0 := h.afterBlock_error rx (by simp) (by simp)
    exact ⟨Or.inr hfailure.1, by simp [hsent, hfailure.2]⟩

/-! ## The sender -/

/-- Items on the line with the numbers of their messages; a cancelling sender sends other bytes
as well. -/
inductive Carries (tx : Settings) (file : List UInt8) : List (List UInt8) → List ℕ → Prop
  | nil : Carries tx file [] []
  | message (crc : Bool) (k : ℕ) {line : List (List UInt8)} {ks : List ℕ}
      (h : Carries tx file line ks) : Carries tx file (message tx file crc k :: line) (k :: ks)
  | junk {b : UInt8} (hb : b ∈ cancelBytes) {line : List (List UInt8)} {ks : List ℕ}
      (h : Carries tx file line ks) : Carries tx file ([b] :: line) ks

namespace Carries

variable {line line' : List (List UInt8)} {ks ks' : List ℕ}

theorem append (h : Carries tx file line ks) (h' : Carries tx file line' ks') :
    Carries tx file (line ++ line') (ks ++ ks') := by
  induction h with
  | nil => exact h'
  | message crc k _ ih => exact ih.message crc k
  | junk hb _ ih => exact ih.junk hb

theorem junkBytes {bs : List UInt8} (h : ∀ b ∈ bs, b ∈ cancelBytes) :
    Carries tx file (bs.map fun b ↦ [b]) [] := by
  induction bs with
  | nil => exact nil
  | cons b bs ih =>
      rw [List.map_cons]
      exact (ih fun c hc ↦ h c (by simp [hc])).junk (h b (by simp))

theorem of_sublist (h : Carries tx file line ks) (hline : line'.Sublist line) :
    ∃ ks', ks'.Sublist ks ∧ Carries tx file line' ks' := by
  induction h generalizing line' with
  | nil => exact ⟨[], List.Sublist.refl _, by rw [List.sublist_nil.mp hline]; exact nil⟩
  | message crc k _ ih =>
      cases hline with
      | cons _ hline =>
          obtain ⟨ks', hsub, hcarries⟩ := ih hline
          exact ⟨ks', hsub.cons k, hcarries⟩
      | cons_cons _ hline =>
          obtain ⟨ks', hsub, hcarries⟩ := ih hline
          exact ⟨k :: ks', hsub.cons_cons k, hcarries.message crc k⟩
  | junk hb _ ih =>
      cases hline with
      | cons _ hline => exact ih hline
      | cons_cons _ hline =>
          obtain ⟨ks', hsub, hcarries⟩ := ih hline
          exact ⟨ks', hsub, hcarries.junk hb⟩

end Carries

inductive SenderAt (tx : Settings) (file : List UInt8) (s : Sender) : ℕ → Prop
  | getMode {errors : ℕ} {can : Bool} (hphase : s.phase = .getMode errors can)
      (hsent : s.sentBytes = 0) (hsize : s.blockSize = tx.blockSize) : SenderAt tx file s 0
  | getAck {errors : ℕ} {can : Bool} {c : ℕ} (hphase : s.phase = .getAck errors can)
      (hnum : s.blockNum = c + 1) (hsent : s.sentBytes = (position tx file c).1)
      (hsize : s.blockSize = (position tx file (c + 1)).2)
      (hbefore : ∀ j < c + 1, HasBlock tx file j) : SenderAt tx file s c
  | putEot {errors cans c : ℕ} (hphase : s.phase = .putEot errors cans)
      (hbefore : ∀ j < c, HasBlock tx file j) (hend : ¬ HasBlock tx file c) :
      SenderAt tx file s c
  | sent {c : ℕ} (hphase : s.phase = .done true)
      (hbefore : ∀ j < c, HasBlock tx file j) (hend : ¬ HasBlock tx file c) :
      SenderAt tx file s (c + 1)
  | failed {c : ℕ} (hphase : s.phase = .done false) : SenderAt tx file s c

/-- What the sender does next is sound: it is at message `c` and may have sent it. -/
def SendsAt (tx : Settings) (file : List UInt8) (r : Sender × List (List UInt8)) (c : ℕ) : Prop :=
  SenderAt tx file r.1 c ∧
    ∃ ks, (ks = [] ∨ ks = [c]) ∧ Carries tx file r.2 ks

theorem SenderAt.cancel {s : Sender} {c : ℕ} (h : SenderAt tx file s c) :
    SenderAt tx file { s with cancelled := true } c := by
  cases h with
  | getMode hphase hsent hsize => exact SenderAt.getMode hphase hsent hsize
  | getAck hphase hnum hsent hsize hbefore =>
      exact SenderAt.getAck hphase hnum hsent hsize hbefore
  | putEot hphase hbefore hend => exact SenderAt.putEot hphase hbefore hend
  | sent hphase hbefore hend => exact SenderAt.sent hphase hbefore hend
  | failed hphase => exact SenderAt.failed hphase

theorem carries_fail (s : Sender) : Carries tx file s.fail.2 [] := by
  rw [Sender.fail]
  split_ifs
  · exact Carries.nil
  · exact Carries.junkBytes fun b hb ↦ hb

theorem sendsAt_fail (s : Sender) (c : ℕ) : SendsAt tx file s.fail c :=
  ⟨SenderAt.failed rfl, [], Or.inl rfl, carries_fail s⟩

/-- Nothing is sent. -/
theorem SenderAt.sendsAt {s : Sender} {c : ℕ} (h : SenderAt tx file s c) :
    SendsAt tx file (s, []) c := ⟨h, [], Or.inl rfl, Carries.nil⟩

theorem sendsAt_eot {s : Sender} {c : ℕ} (h : SenderAt tx file s c)
    (hend : ¬ HasBlock tx file c) : SendsAt tx file (s, [[EOT]]) c := by
  refine ⟨h, [c], Or.inr rfl, ?_⟩
  have hmessage : message tx file false c = [EOT] := if_neg hend
  rw [← hmessage]
  exact Carries.nil.message false c

/-- At the head of the loop in `xmodem_send_file` with `c` blocks acknowledged. -/
theorem sendsAt_sendLoop {s : Sender} {c : ℕ} (hnum : s.blockNum = c + 1)
    (hsent : s.sentBytes = (position tx file c).1)
    (hsize : endBlockSize file.length s.sentBytes s.blockSize = (position tx file (c + 1)).2)
    (hbefore : ∀ j < c, HasBlock tx file j) : SendsAt tx file (s.sendLoop tx file) c := by
  rw [Sender.sendLoop]
  split_ifs with hblock hend
  · have hhas : HasBlock tx file c := by
      rw [HasBlock, ← hsent]
      exact hblock.1
    refine ⟨SenderAt.getAck rfl hnum hsent hsize ?_, [c], Or.inr rfl, ?_⟩
    · intro j hj
      rcases Nat.lt_succ_iff_lt_or_eq.mp hj with hj | rfl
      · exact hbefore j hj
      · exact hhas
    · have hmessage : message tx file s.crc c = xmodemPutBlock s.crc
          (paddedBlock file s.sentBytes (endBlockSize file.length s.sentBytes s.blockSize))
          s.blockNum := by
        rw [message, if_pos hhas, payload, hsize, hsent, hnum]
      dsimp only
      rw [← hmessage]
      exact Carries.nil.message s.crc c
  · have hhas : ¬ HasBlock tx file c := by
      rw [HasBlock, ← hsent]
      omega
    exact sendsAt_eot (SenderAt.putEot rfl hbefore hhas) hhas
  · exact sendsAt_fail s c

theorem sendLoop_blockNum (s : Sender) : (s.sendLoop tx file).1.blockNum = s.blockNum := by
  rw [Sender.sendLoop]
  split_ifs <;> rfl

theorem sendLoop_errors (s : Sender) : (s.sendLoop tx file).1.errors = s.errors := by
  rw [Sender.sendLoop]
  split_ifs <;> rfl

/-- Without the fall back the block is sent again. -/
theorem sendsAt_ackFailed {s : Sender} {c : ℕ} (hnum : s.blockNum = c + 1)
    (hsent : s.sentBytes = (position tx file c).1)
    (hsize : s.blockSize = (position tx file (c + 1)).2)
    (hbefore : ∀ j < c, HasBlock tx file j)
    (hkeeps : (s.ackFailed tx file).1.blockNum = 1 →
      (position tx file 1).2 = xmodemMinBlockSize ∨ (s.ackFailed tx file).1.errors < 3) :
    SendsAt tx file (s.ackFailed tx file) c := by
  simp only [Sender.ackFailed, sendLoop_blockNum, sendLoop_errors] at hkeeps
  have hno : ¬ (s.errors + 1 = 3 ∧ s.blockNum = 1 ∧ s.blockSize > xmodemMinBlockSize) := by
    rintro ⟨herrors, hone, hlarge⟩
    obtain rfl : c = 0 := by omega
    rw [hsize] at hlarge
    rcases hkeeps hone with heq | hlt
    · exact absurd heq hlarge.ne'
    · omega
  rw [Sender.ackFailed, if_neg hno]
  refine sendsAt_sendLoop hnum hsent ?_ hbefore
  dsimp only
  rw [hsize, hsent, position_succ_snd, endBlockSize_idem]

/-- A reply other than `ACK`, or none. -/
theorem SenderAt.step {s : Sender} {c : ℕ} {i : Getcom} (h : SenderAt tx file s c)
    (hi : i ≠ some ACK)
    (hkeeps : (s.step tx file i).1.blockNum = 1 →
      (position tx file 1).2 = xmodemMinBlockSize ∨ (s.step tx file i).1.errors < 3) :
    SendsAt tx file (s.step tx file i) c := by
  cases h with
  | getMode hphase hsent hsize =>
      simp only [Sender.step, hphase]
      split_ifs
      · exact sendsAt_sendLoop rfl hsent (by rw [hsent, hsize]; rfl) (by simp)
      · exact sendsAt_sendLoop rfl hsent (by rw [hsent, hsize]; rfl) (by simp)
      · exact sendsAt_fail s 0
      · exact SenderAt.sendsAt (SenderAt.getMode rfl hsent hsize)
      · exact sendsAt_fail s 0
  | getAck hphase hnum hsent hsize hbefore =>
      simp only [Sender.step, hphase, if_neg hi] at hkeeps ⊢
      have hbefore' : ∀ j < c, HasBlock tx file j := fun j hj ↦ hbefore j (by omega)
      split_ifs at hkeeps ⊢
      · obtain ⟨hat, ks, hks, hcarries⟩ :=
          sendsAt_ackFailed (s := { s with cancelled := true }) hnum hsent hsize hbefore' hkeeps
        exact ⟨hat, ks, hks, (carries_fail s).append hcarries⟩
      · exact SenderAt.sendsAt (SenderAt.getAck rfl hnum hsent hsize hbefore)
      · exact SenderAt.sendsAt (SenderAt.getAck rfl hnum hsent hsize hbefore)
      · exact sendsAt_ackFailed hnum hsent hsize hbefore' hkeeps
  | putEot hphase hbefore hend =>
      simp only [Sender.step, hphase, if_neg hi]
      split_ifs
      · exact sendsAt_fail s c
      · exact sendsAt_eot (SenderAt.putEot rfl hbefore hend) hend
      · exact sendsAt_eot (SenderAt.putEot rfl hbefore hend) hend
      · exact sendsAt_fail s c
  | sent hphase hbefore hend =>
      simp only [Sender.step, hphase]
      exact SenderAt.sendsAt (SenderAt.sent hphase hbefore hend)
  | failed hphase =>
      simp only [Sender.step, hphase]
      exact SenderAt.sendsAt (SenderAt.failed hphase)

/-- An `ACK` counts where the sender waits for it. -/
theorem SenderAt.step_ack {s : Sender} {c : ℕ} (h : SenderAt tx file s c) :
    SendsAt tx file (s.step tx file (some ACK)) (c + 1) ∨
      SendsAt tx file (s.step tx file (some ACK)) c := by
  cases h with
  | getMode hphase hsent hsize =>
      refine Or.inr ?_
      simp only [Sender.step, hphase]
      split_ifs
      · exact sendsAt_sendLoop rfl hsent (by rw [hsent, hsize]; rfl) (by simp)
      · exact sendsAt_sendLoop rfl hsent (by rw [hsent, hsize]; rfl) (by simp)
      · exact sendsAt_fail s 0
      · exact SenderAt.sendsAt (SenderAt.getMode rfl hsent hsize)
      · exact sendsAt_fail s 0
  | getAck hphase hnum hsent hsize hbefore =>
      refine Or.inl ?_
      simp only [Sender.step, hphase, if_pos]
      refine sendsAt_sendLoop (by simp [hnum]) ?_ ?_ hbefore
      · simp only [hsent, hsize, position_succ_fst]
      · simp only [hsent, hsize]
        rw [position_succ_snd (c + 1), position_succ_fst]
  | putEot hphase hbefore hend =>
      refine Or.inl ?_
      simp only [Sender.step, hphase, if_pos]
      exact SenderAt.sendsAt (SenderAt.sent rfl hbefore hend)
  | sent hphase hbefore hend =>
      refine Or.inr ?_
      simp only [Sender.step, hphase]
      exact SenderAt.sendsAt (SenderAt.sent hphase hbefore hend)
  | failed hphase =>
      refine Or.inr ?_
      simp only [Sender.step, hphase]
      exact SenderAt.sendsAt (SenderAt.failed hphase)

/-! ## The transfer as stop and wait -/

/-- A number in a block is taken modulo 256. -/
abbrev numbers : ℕ := 256

structure Refines (tx : Settings) (file : List UInt8) (w : World) (a : State) : Prop where
  inv : a.Inv
  sender : SenderAt tx file w.sender a.current
  receiver : ReceiverAt tx file w.receiver a.accepted a.heard
  line : Carries tx file w.line a.line
  replies : w.replies.count ACK = a.acks

theorem Refines.start (crc : Bool) : Refines tx file (World.start tx crc) State.start where
  inv := State.Inv.start
  sender := SenderAt.getMode rfl rfl rfl
  receiver := ReceiverAt.start crc
  line := Carries.nil
  replies := count_xmodemPutNak crc 1

theorem carries_cons {item : List UInt8} {rest : List (List UInt8)} {ks : List ℕ}
    (h : Carries tx file (item :: rest) ks) :
    (∃ crc k ks', item = message tx file crc k ∧ ks = k :: ks' ∧ Carries tx file rest ks') ∨
      ∃ b ∈ cancelBytes, item = [b] ∧ Carries tx file rest ks := by
  cases h with
  | message crc k h => exact Or.inl ⟨crc, k, _, rfl, rfl, h⟩
  | junk hb h => exact Or.inr ⟨_, hb, rfl, h⟩

/-- What the sender does, as a step of stop and wait. -/
theorem refines_send {w : World} {a : State} {r : Sender × List (List UInt8)} (hinv : a.Inv)
    (hsends : SendsAt tx file r a.current)
    (hreceiver : ReceiverAt tx file w.receiver a.accepted a.heard)
    (hline : Carries tx file w.line a.line) (hreplies : w.replies.count ACK = a.acks) :
    ∃ a', Steps numbers a a' ∧
      Refines tx file { w with sender := r.1, line := w.line ++ r.2 } a' := by
  obtain ⟨hsender, ks, rfl | rfl, hcarries⟩ := hsends
  · refine ⟨a, Relation.ReflTransGen.refl, hinv, hsender, hreceiver, ?_, hreplies⟩
    have := hline.append hcarries
    rwa [List.append_nil] at this
  · exact ⟨_, Relation.ReflTransGen.single (Step.send a), hinv.send, hsender, hreceiver,
      hline.append hcarries, hreplies⟩

theorem refines_sendNoise {w : World} {a : State} {i : Getcom} (h : Refines tx file w a)
    (hi : i ≠ some ACK) (hkeeps : (w.send tx file i).KeepsSize tx file) :
    ∃ a', Steps numbers a a' ∧ Refines tx file (w.send tx file i) a' :=
  refines_send h.inv (h.sender.step hi hkeeps) h.receiver h.line h.replies

theorem refines_reply {w : World} {a : State} {b : UInt8} {rest : List UInt8}
    (h : Refines tx file w a) (hreplies : w.replies = b :: rest)
    (hkeeps : ({ w with replies := rest }.send tx file (some b)).KeepsSize tx file) :
    ∃ a', Steps numbers a a' ∧
      Refines tx file ({ w with replies := rest }.send tx file (some b)) a' := by
  have hcount := h.replies
  rw [hreplies] at hcount
  by_cases hb : b = ACK
  · subst hb
    rw [List.count_cons_self] at hcount
    rcases h.sender.step_ack with hsends | hsends
    · obtain ⟨a', hsteps, hrefines⟩ := refines_send (w := { w with replies := rest })
        (h.inv.acknowledged hcount.symm) hsends h.receiver h.line rfl
      exact ⟨a', Relation.ReflTransGen.head (Step.acknowledged a _ hcount.symm) hsteps, hrefines⟩
    · have hle : rest.count ACK ≤ a.acks := by omega
      obtain ⟨a', hsteps, hrefines⟩ := refines_send (w := { w with replies := rest })
        (h.inv.loseAck hle) hsends h.receiver h.line rfl
      exact ⟨a', Relation.ReflTransGen.head (Step.loseAck a _ hle) hsteps, hrefines⟩
  · rw [List.count_cons_of_ne hb] at hcount
    have hrest : Refines tx file { w with replies := rest } a :=
      ⟨h.inv, h.sender, h.receiver, h.line, hcount⟩
    exact refines_sendNoise hrest (by simpa using hb) hkeeps

/-- What comes in is neither a block that was sent nor `EOT`. -/
theorem refines_noise {w : World} {a : State} {input : List Getcom} (h : Refines tx file w a)
    (hinput : Detected rx w.receiver input) :
    ∃ a', Steps numbers a a' ∧ Refines tx file (w.receive rx input) a' := by
  have hforget : ∀ r : Receiver × List UInt8, ReceiverAt tx file r.1 a.accepted false →
      r.2.count ACK = 0 → ∃ a', Steps numbers a a' ∧
        Refines tx file { w with receiver := r.1, replies := w.replies ++ r.2 } a' := by
    intro r hat hcount
    refine ⟨_, Relation.ReflTransGen.single (Step.forget a),
      h.inv.of_sublist (List.Sublist.refl _) (by simp), h.sender, hat, h.line, ?_⟩
    rw [List.count_append, hcount, h.replies, Nat.add_zero]
  by_cases hstatus : w.receiver.status = .receiving
  · have hr := h.receiver.of_receiving hstatus
    cases hturn : xmodemGetBlockTurn rx w.receiver.crc w.receiver.blockNum w.receiver.eot
        w.receiver.can input with
    | again eot can sent =>
        obtain ⟨rfl, rfl⟩ := turn_again hturn hinput.1
        obtain ⟨hat, hcount⟩ := hr.again hturn rfl (by simp)
        exact hforget _ (hat.elim id id) hcount
    | ret result =>
        have hstep : w.receiver.step rx input = w.receiver.afterBlock rx result := by
          rw [Receiver.step, if_neg (by simp [hstatus]), hturn]
        rw [World.receive, hstep]
        by_cases heot : result = .eot
        · subst heot
          have hheard : a.heard = true := by
            rw [← hr.eot]
            exact (turn_eot hturn).1
          obtain ⟨hat, hreply⟩ := hr.afterBlock_eot rx (hr.atEnd hheard)
          refine ⟨_, Relation.ReflTransGen.single (Step.accept a hheard),
            h.inv.accept hheard, h.sender, hat, h.line, ?_⟩
          rw [hreply, List.count_append, h.replies, List.count_singleton_self]
        · have hsuccess : ∀ block, result ≠ .success block := by
            rintro block rfl
            exact hinput.2 block hturn
          obtain ⟨hat, hcount⟩ := hr.afterBlock_error rx hsuccess heot
          exact hforget _ hat hcount
  · rw [World.receive, Receiver.step_of_ne rx hstatus input, List.append_nil]
    exact ⟨a, Relation.ReflTransGen.refl, h⟩

theorem mod_of_ofNat_eq {k l : ℕ} (h : UInt8.ofNat (k + 1) = UInt8.ofNat (l + 1)) :
    k % numbers = l % numbers := by
  have hmod := congrArg UInt8.toNat h
  simp only [UInt8.toNat_ofNat'] at hmod
  simp only [numbers]
  omega

/-- Message `k` comes in as it was sent. -/
theorem refines_arrive {w : World} {a : State} {crc : Bool} {k : ℕ} {ks : List ℕ}
    {rest : List (List UInt8)} {input : List Getcom} (h : Refines tx file w a)
    (htx : IsBlockSize tx.blockSize) (hks : a.line = k :: ks) (hrest : Carries tx file rest ks) :
    ∃ a', Steps numbers a a' ∧ Refines tx file ({ w with line := rest }.receive rx
      ((message tx file crc k).map some ++ input)) a' := by
  set items := (message tx file crc k).map some ++ input
  have hdiscard : ∀ r : Receiver × List UInt8, ReceiverAt tx file r.1 a.accepted false →
      r.2.count ACK = 0 → ∃ a', Steps numbers a a' ∧ Refines tx file
        { w with receiver := r.1, replies := w.replies ++ r.2, line := rest } a' := by
    intro r hat hcount
    refine ⟨_, Relation.ReflTransGen.single (Step.discard a k ks hks),
      h.inv.of_sublist (by simp [hks]) (by simp), h.sender, hat, hrest, ?_⟩
    rw [List.count_append, hcount, h.replies, Nat.add_zero]
  have haccept : ∀ r : Receiver × List UInt8, k % numbers = a.accepted % numbers →
      ReceiverAt tx file r.1 (a.accepted + 1) false → r.2 = [ACK] →
      ∃ a', Steps numbers a a' ∧ Refines tx file
        { w with receiver := r.1, replies := w.replies ++ r.2, line := rest } a' := by
    intro r hk hat hreply
    have hhear := h.inv.hear (m := numbers) (by decide) hks hk
    refine ⟨_, Relation.ReflTransGen.tail
      (Relation.ReflTransGen.single (Step.hear a k ks hks hk)) (Step.accept _ rfl),
      hhear.accept rfl, h.sender, hat, hrest, ?_⟩
    rw [hreply, List.count_append, h.replies, List.count_singleton_self]
  by_cases hstatus : w.receiver.status = .receiving
  · have hr := h.receiver.of_receiving hstatus
    by_cases hhas : HasBlock tx file k
    · have hmessage : message tx file crc k = xmodemPutBlock crc (payload tx file k) (k + 1) :=
        if_pos hhas
      have hsize : IsBlockSize (payload tx file k).length := isBlockSize_payload htx k
      have hhead : (getcom items).1 = some SOH ∨ (getcom items).1 = some STX := by
        simp only [items, hmessage, xmodemPutBlock, List.map_cons, List.cons_append, getcom]
        split_ifs <;> simp
      have hne : (getcom items).1 ≠ some EOT := by
        rcases hhead with hhead | hhead <;> rw [hhead] <;> decide
      cases hturn : xmodemGetBlockTurn rx w.receiver.crc w.receiver.blockNum w.receiver.eot
          w.receiver.can items with
      | again eot can sent =>
          obtain ⟨rfl, rfl⟩ := turn_again hturn hne
          obtain ⟨hat, hcount⟩ := hr.again hturn rfl (by simp)
          exact hdiscard _ (hat.elim id id) hcount
      | ret result =>
          have hstep : w.receiver.step rx items = w.receiver.afterBlock rx result := by
            rw [Receiver.step, if_neg (by simp [hstatus]), hturn]
          rw [World.receive, hstep]
          by_cases hsuccess : ∃ block, result = .success block
          · obtain ⟨block, rfl⟩ := hsuccess
            simp only [items, hmessage] at hturn
            obtain ⟨rfl, hnum⟩ := turn_putBlock_success _ _ _ _ _ _ _ _ hsize hturn
            rw [hr.blockNum] at hnum
            have hk := mod_of_ofNat_eq hnum
            obtain rfl := h.inv.head_eq_of_mod (by decide) hks hk
            obtain ⟨hat, hreply⟩ := hr.afterBlock_success rx hhas
            exact haccept _ hk hat hreply
          · have heot : result ≠ .eot := by
              rintro rfl
              have := (turn_eot hturn).2
              rcases hhead with hhead | hhead <;> rw [hhead] at this <;> revert this <;> decide
            obtain ⟨hat, hcount⟩ := hr.afterBlock_error rx (fun block hb ↦ hsuccess ⟨block, hb⟩)
              heot
            exact hdiscard _ hat hcount
    · have hk : k = a.accepted := by
        rcases h.inv.head_eq hks with hk | hk
        · exact hk
        · exact absurd (hr.before k (by omega)) hhas
      have hitems : items = some EOT :: input := by simp [items, message, hhas]
      cases heot : w.receiver.eot with
      | false =>
          have hturn : xmodemGetBlockTurn rx w.receiver.crc w.receiver.blockNum w.receiver.eot
              w.receiver.can items =
              .again true false [xmodemPutNak w.receiver.crc w.receiver.blockNum] := by
            rw [hitems, heot]
            simp [xmodemGetBlockTurn, getcom, EOT, SOH, STX, CAN]
          obtain ⟨hat, hcount⟩ := hr.again hturn (count_xmodemPutNak _ _)
            (fun _ ↦ hk ▸ hhas)
          rcases hat with hat | hat
          · have hmod : k % numbers = a.accepted % numbers := by rw [hk]
            refine ⟨_, Relation.ReflTransGen.single (Step.hear a k ks hks hmod),
              h.inv.hear (by decide) hks hmod, h.sender, hat, hrest, ?_⟩
            rw [World.receive, List.count_append, hcount, h.replies, Nat.add_zero]
          · exact hdiscard _ hat hcount
      | true =>
          have hturn : xmodemGetBlockTurn rx w.receiver.crc w.receiver.blockNum w.receiver.eot
              w.receiver.can items = .ret .eot := by
            rw [hitems, heot]
            simp [xmodemGetBlockTurn, getcom, EOT, SOH, STX]
          have hstep : w.receiver.step rx items = w.receiver.afterBlock rx .eot := by
            rw [Receiver.step, if_neg (by simp [hstatus]), hturn]
          rw [World.receive, hstep]
          obtain ⟨hat, hreply⟩ := hr.afterBlock_eot rx (hk ▸ hhas)
          exact haccept _ (by rw [hk]) hat hreply
  · rw [World.receive, Receiver.step_of_ne rx hstatus items]
    have hat := h.receiver
    rw [hat.not_heard hstatus] at hat
    exact hdiscard (w.receiver, []) hat rfl

/-- A byte of `xmodem_cancel` is no `EOT` and begins no block. -/
theorem detected_cancelBytes {r : Receiver} {b : UInt8} {input : List Getcom}
    (hb : b ∈ cancelBytes) : Detected rx r ([b].map some ++ input) := by
  have hcases : b = CAN ∨ b = 0x08 := by
    revert hb
    simp only [cancelBytes, List.mem_append, List.mem_replicate]
    tauto
  constructor
  · rcases hcases with rfl | rfl <;> simp [getcom] <;> decide
  · intro block
    rcases hcases with rfl | rfl
    · simp only [xmodemGetBlockTurn, getcom, List.map_cons, List.cons_append]
      split_ifs <;> simp_all +decide
    · simp only [xmodemGetBlockTurn, getcom, List.map_cons, List.cons_append]
      split_ifs <;> simp_all +decide

theorem Refines.step {w w' : World} {a : State} (h : Refines tx file w a)
    (htx : IsBlockSize tx.blockSize) (hstep : WorldStep tx rx file w w')
    (hkeeps : w'.KeepsSize tx file) : ∃ a', Steps numbers a a' ∧ Refines tx file w' a' := by
  cases hstep with
  | reply b rest hreplies => exact refines_reply h hreplies hkeeps
  | sendNoise i hi => exact refines_sendNoise h hi hkeeps
  | loseReplies replies hreplies =>
      have hle : replies.count ACK ≤ a.acks := by
        rw [← h.replies]
        exact hreplies.count_le ACK
      exact ⟨_, Relation.ReflTransGen.single (Step.loseAck a _ hle), h.inv.loseAck hle, h.sender,
        h.receiver, h.line, rfl⟩
  | interrupt =>
      exact ⟨a, Relation.ReflTransGen.refl, h.inv, h.sender.cancel, h.receiver, h.line, h.replies⟩
  | arrive item rest input hline =>
      have hcarries := h.line
      rw [hline] at hcarries
      rcases carries_cons hcarries with ⟨crc, k, ks, rfl, hks, hrest⟩ | ⟨b, hb, rfl, hrest⟩
      · exact refines_arrive h htx hks hrest
      · have hrefines : Refines tx file { w with line := rest } a :=
          ⟨h.inv, h.sender, h.receiver, hrest, h.replies⟩
        exact refines_noise hrefines (detected_cancelBytes hb)
  | noise input hinput => exact refines_noise h hinput
  | loseLine line hline =>
      obtain ⟨ks, hks, hcarries⟩ := h.line.of_sublist hline
      exact ⟨_, Relation.ReflTransGen.single (Step.lose a ks hks), h.inv.of_sublist hks id,
        h.sender, h.receiver, hcarries, h.replies⟩

theorem Refines.runs {w w' : World} {a : State} (h : Refines tx file w a)
    (htx : IsBlockSize tx.blockSize) (hruns : Runs tx rx file w w') :
    ∃ a', Steps numbers a a' ∧ Refines tx file w' a' := by
  induction hruns with
  | refl => exact ⟨a, Relation.ReflTransGen.refl, h⟩
  | tail _ hstep ih =>
      obtain ⟨a', hsteps, hrefines⟩ := ih
      obtain ⟨a'', hsteps', hrefines'⟩ := hrefines.step htx hstep.1 hstep.2
      exact ⟨a'', hsteps.trans hsteps', hrefines'⟩

/-! ## What a transfer does -/

/-- The file with less than a block of `CPMEOF` after it, up to the length that sexyz.c takes. -/
def Whole (file received : List UInt8) : Prop :=
  ∃ pad < xmodemMinBlockSize,
    received = (file ++ List.replicate pad CPMEOF).take 0x7fffffff

theorem sentData_isPrefix (htx : IsBlockSize tx.blockSize) {n : ℕ}
    (hbefore : ∀ j < n, HasBlock tx file j) :
    ∃ pad < xmodemMinBlockSize, sentData tx file n <+: file ++ List.replicate pad CPMEOF := by
  obtain ⟨pad, hpad, hdata, hmore⟩ := sentData_spec htx n hbefore
  refine ⟨pad, hpad, ?_⟩
  by_cases hhas : HasBlock tx file n
  · rw [hdata, hmore hhas]
    simpa using List.take_prefix _ _
  · rw [HasBlock, not_lt] at hhas
    rw [hdata, List.take_of_length_le hhas]

theorem sentData_whole (htx : IsBlockSize tx.blockSize) {n : ℕ}
    (hbefore : ∀ j < n, HasBlock tx file j) (hend : ¬ HasBlock tx file n) :
    Whole file ((sentData tx file n).take 0x7fffffff) := by
  obtain ⟨pad, hpad, hdata, -⟩ := sentData_spec htx n hbefore
  rw [HasBlock, not_lt] at hend
  exact ⟨pad, hpad, by rw [hdata, List.take_of_length_le hend]⟩

theorem ReceiverAt.isPrefix {r : Receiver} {a : ℕ} {heard : Bool} (htx : IsBlockSize tx.blockSize)
    (h : ReceiverAt tx file r a heard) :
    ∃ pad < xmodemMinBlockSize, r.written <+: file ++ List.replicate pad CPMEOF := by
  have hwritten : ∃ n, (∀ j < n, HasBlock tx file j) ∧
      r.written = (sentData tx file n).take 0x7fffffff := by
    cases h with
    | receiving h => exact ⟨a, h.before, h.written⟩
    | success n _ hbefore _ hwritten => exact ⟨n, hbefore, hwritten⟩
    | failed a n _ hn hbefore hwritten =>
        exact ⟨n, fun j hj ↦ hbefore j (hj.trans_le hn), hwritten⟩
  obtain ⟨n, hbefore, hwritten⟩ := hwritten
  obtain ⟨pad, hpad, hprefix⟩ := sentData_isPrefix htx hbefore
  exact ⟨pad, hpad, hwritten ▸ (List.take_prefix _ _).trans hprefix⟩

theorem ReceiverAt.whole {r : Receiver} {a : ℕ} {heard : Bool} (htx : IsBlockSize tx.blockSize)
    (h : ReceiverAt tx file r a heard) (hstatus : r.status = .success) : Whole file r.written := by
  cases h with
  | receiving h => exact absurd (h.status.symm.trans hstatus) (by decide)
  | failed a n hfailed => exact absurd (hfailed.symm.trans hstatus) (by decide)
  | success n _ hbefore hend hwritten =>
      rw [hwritten]
      exact sentData_whole htx hbefore hend

theorem SenderAt.of_sent {s : Sender} {c : ℕ} (h : SenderAt tx file s c)
    (hphase : s.phase = .done true) :
    ∃ n, c = n + 1 ∧ ¬ HasBlock tx file n := by
  cases h with
  | getMode hphase' => exact absurd (hphase'.symm.trans hphase) (by simp)
  | getAck hphase' => exact absurd (hphase'.symm.trans hphase) (by simp)
  | putEot hphase' => exact absurd (hphase'.symm.trans hphase) (by simp)
  | failed hphase' => exact absurd (hphase'.symm.trans hphase) (by simp)
  | sent _ _ hend => exact ⟨_, rfl, hend⟩

theorem SenderAt.of_getAck {s : Sender} {c errors : ℕ} {can : Bool} (h : SenderAt tx file s c)
    (hphase : s.phase = .getAck errors can) :
    s.blockNum = c + 1 ∧ ∀ j < c + 1, HasBlock tx file j := by
  cases h with
  | getMode hphase' => exact absurd (hphase'.symm.trans hphase) (by simp)
  | getAck _ hnum _ _ hbefore => exact ⟨hnum, hbefore⟩
  | putEot hphase' => exact absurd (hphase'.symm.trans hphase) (by simp)
  | failed hphase' => exact absurd (hphase'.symm.trans hphase) (by simp)
  | sent hphase' => exact absurd (hphase'.symm.trans hphase) (by simp)

theorem ReceiverAt.success_of {r : Receiver} {a c : ℕ} {heard : Bool}
    (h : ReceiverAt tx file r a heard) (hc : c < a) (hend : ¬ HasBlock tx file c) :
    r.status = .success := by
  cases h with
  | receiving hr => exact absurd (hr.before c hc) hend
  | success _ hsuccess => exact hsuccess
  | failed _ _ _ _ hbefore => exact absurd (hbefore c hc) hend

/-- The sender has had the `ACK` that answers `EOT`. -/
theorem Refines.sent {w : World} {a : State} (h : Refines tx file w a)
    (hphase : w.sender.phase = .done true) : w.receiver.status = .success := by
  obtain ⟨c, hcurrent, hend⟩ := h.sender.of_sent hphase
  have hacks := h.inv.acks
  exact h.receiver.success_of (by omega) hend

end Synchronet.Sbbs3.Xmodem
