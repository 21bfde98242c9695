import Synchronet.Sbbs3.XmodemRuns

/-!
# What XMODEM transfers do

Under the usual settings a transfer without errors ends: the request is answered with the first
block, each block with `ACK`, and `EOT` is refused once before it is taken.  In every state of
every transfer the file received is a beginning of the file sent and its padding, and a sender
that reports success has transferred it whole.
-/

namespace Synchronet.Sbbs3.Xmodem

variable {tx rx : Settings} {file : List UInt8}

/-! ## A line that loses nothing -/

theorem worldStep_reply {s s' : Sender} {r : Receiver} {line sent : List (List UInt8)} {b : UInt8}
    {rest : List UInt8} (h : s.step tx file (some b) = (s', sent)) :
    WorldStep tx rx file ⟨s, r, line, b :: rest⟩ ⟨s', r, line ++ sent, rest⟩ := by
  have hstep : WorldStep tx rx file ⟨s, r, line, b :: rest⟩ _ := WorldStep.reply _ b rest rfl
  simpa only [World.send, h] using hstep

theorem worldStep_arrive {s : Sender} {r r' : Receiver} {item : List UInt8}
    {rest : List (List UInt8)} {replies sent : List UInt8}
    (h : r.step rx (item.map some ++ []) = (r', sent)) :
    WorldStep tx rx file ⟨s, r, item :: rest, replies⟩ ⟨s, r', rest, replies ++ sent⟩ := by
  have hstep : WorldStep tx rx file ⟨s, r, item :: rest, replies⟩ _ :=
    WorldStep.arrive _ item rest [] rfl
  simpa only [World.receive, h] using hstep

theorem sendLoop_phase (s : Sender) (phase : Phase) :
    { s with phase := phase }.sendLoop tx file = s.sendLoop tx file := by
  simp only [Sender.sendLoop, Sender.fail]

section

variable (tx : Settings) (file : List UInt8) (crc : Bool)

/-- The sender at the head of its loop once `k` blocks have been acknowledged. -/
def headAt (k : ℕ) : Sender where
  phase := .getMode 0 false
  crc := crc
  blockNum := k + 1
  sentBytes := (position tx file k).1
  errors := 0
  blockSize := (position tx file k).2
  cancelled := false

def idleAt (k : ℕ) : Receiver where
  crc := crc
  blockNum := k + 1
  errors := 0
  fileBytesLeft := 0x7fffffff - (sentData tx file k).length
  written := sentData tx file k
  turns := 0
  eot := false
  can := false
  status := .receiving

/-- The sender waits for the `ACK` of block `k + 1`. -/
def waitingAt (k : ℕ) : Sender :=
  { headAt tx file crc k with phase := .getAck 0 false, blockSize := (position tx file (k + 1)).2 }

/-- The sender has sent `EOT` after `n` blocks, and `errors` times before. -/
def endingAt (n errors : ℕ) : Sender := { headAt tx file crc n with phase := .putEot errors 0 }

/-- The receiver has refused `EOT` after `n` blocks. -/
def refusedAt (n : ℕ) : Receiver := { idleAt tx file crc n with turns := 1, eot := true }

/-- Message `k` has been sent, everything before it has been taken and acknowledged. -/
def sentAt (k : ℕ) : World where
  sender := ((headAt tx file crc k).sendLoop tx file).1
  receiver := idleAt tx file crc k
  line := ((headAt tx file crc k).sendLoop tx file).2
  replies := []

end

/-- The settings under which a transfer completes. -/
structure Suits (tx rx : Settings) (crc : Bool) : Prop where
  blockSize : IsBlockSize tx.blockSize
  sendErrors : 1 ≤ tx.maxErrors
  crcMode : crc = true → tx.crcModeSupported = true
  receiveErrors : 1 ≤ rx.maxErrors
  maxBlockSize : xmodemMaxBlockSize ≤ rx.maxBlockSize
  maxFileSize : rx.maxFileSize = 0

theorem keepsSize_of_errors {w : World} (h : w.sender.errors = 0) : w.KeepsSize tx file :=
  fun _ ↦ Or.inr (by omega)

theorem keepsSize_sentAt (crc : Bool) (k : ℕ) : (sentAt tx file crc k).KeepsSize tx file :=
  keepsSize_of_errors (sendLoop_errors _)

/-- The request is answered with the first message. -/
theorem runs_sentAt_zero {crc : Bool} (h : Suits tx rx crc) :
    Runs tx rx file (World.start tx crc) (sentAt tx file crc 0) := by
  have hstep : { World.start tx crc with replies := [] }.send tx file
      (some (xmodemPutNak crc 1)) = sentAt tx file crc 0 := by
    have hmode : (Sender.start tx).step tx file (some (xmodemPutNak crc 1)) =
        (headAt tx file crc 0).sendLoop tx file := by
      cases crc with
      | false => simp [Sender.step, Sender.start, xmodemPutNak, headAt]
      | true => simp [Sender.step, Sender.start, xmodemPutNak, headAt, h.crcMode rfl, NAK]
    simp only [World.send, World.start, hmode, List.nil_append]
    rfl
  refine Relation.ReflTransGen.single ⟨?_, keepsSize_sentAt crc 0⟩
  rw [← hstep]
  exact WorldStep.reply _ _ [] rfl

theorem sentAt_of_hasBlock (crc : Bool) {k : ℕ} (hhas : HasBlock tx file k) :
    sentAt tx file crc k =
      ⟨waitingAt tx file crc k, idleAt tx file crc k, [message tx file crc k], []⟩ := by
  rw [sentAt, Sender.sendLoop, if_pos ⟨hhas, Nat.zero_le _, rfl⟩, message, if_pos hhas]
  rfl

theorem sentAt_of_not (crc : Bool) {k : ℕ} (hend : ¬ HasBlock tx file k) :
    sentAt tx file crc k = ⟨endingAt tx file crc k 0, idleAt tx file crc k, [[EOT]], []⟩ := by
  have hle : file.length ≤ (headAt tx file crc k).sentBytes := not_lt.mp hend
  rw [sentAt, Sender.sendLoop, if_neg (fun h ↦ hend h.1), if_pos ⟨hle, rfl⟩]
  rfl

theorem length_sentData_le (htx : IsBlockSize tx.blockSize)
    (hfile : file.length + xmodemMinBlockSize ≤ 0x7fffffff) {k : ℕ}
    (hbefore : ∀ j < k, HasBlock tx file j) :
    (sentData tx file k).length ≤ 0x7fffffff := by
  obtain ⟨pad, hpad, hdata, -⟩ := sentData_spec htx k hbefore
  have hle : (position tx file k).1 ≤ file.length := position_le k
  simp only [hdata, List.length_append, List.length_take, List.length_replicate]
  omega

/-- The receiver takes the block that it waits for. -/
theorem step_idleAt {crc : Bool} (h : Suits tx rx crc)
    (hfile : file.length + xmodemMinBlockSize ≤ 0x7fffffff) {k : ℕ}
    (hbefore : ∀ j < k + 1, HasBlock tx file j) :
    (idleAt tx file crc k).step rx ((message tx file crc k).map some ++ []) =
      (idleAt tx file crc (k + 1), [ACK]) := by
  have hlen := length_sentData_le h.blockSize hfile hbefore
  rw [sentData_succ, List.length_append] at hlen
  have hsize : IsBlockSize (payload tx file k).length := isBlockSize_payload h.blockSize k
  have hpos : 0 < (payload tx file k).length := lt_of_lt_of_le (by decide) hsize.min_le
  have hturn : xmodemGetBlockTurn rx crc (k + 1) false false
      ((message tx file crc k).map some ++ []) = .ret (.success (payload tx file k)) := by
    rw [message, if_pos (hbefore k (Nat.lt_succ_self k))]
    exact turn_putBlock_self rx crc (k + 1) false false [] hsize h.maxBlockSize
  have hleft : ¬ (idleAt tx file crc k).fileBytesLeft = 0 := by
    simp only [idleAt]
    omega
  have htake : (payload tx file k).take (0x7fffffff - (sentData tx file k).length) =
      payload tx file k := List.take_of_length_le (by omega)
  rw [Receiver.step, if_neg (by simp [idleAt])]
  simp only [idleAt] at hturn hleft ⊢
  rw [hturn]
  simp only [Receiver.afterBlock, if_neg hleft, Receiver.getBlock, h.maxFileSize, htake]
  simp [Nat.sub_sub]

/-- The acknowledged sender goes on with the next message. -/
theorem step_waitingAt (crc : Bool) (k : ℕ) :
    (waitingAt tx file crc k).step tx file (some ACK) =
      (headAt tx file crc (k + 1)).sendLoop tx file := by
  rw [← sendLoop_phase (headAt tx file crc (k + 1)) (.getAck 0 false)]
  simp only [waitingAt, Sender.step, if_pos]
  rfl

/-- A block comes in and is acknowledged. -/
theorem runs_sentAt_succ {crc : Bool} (h : Suits tx rx crc)
    (hfile : file.length + xmodemMinBlockSize ≤ 0x7fffffff) {k : ℕ}
    (hbefore : ∀ j < k + 1, HasBlock tx file j) :
    Runs tx rx file (sentAt tx file crc k) (sentAt tx file crc (k + 1)) := by
  have harrive : WorldStep tx rx file (sentAt tx file crc k)
      ⟨waitingAt tx file crc k, idleAt tx file crc (k + 1), [], [ACK]⟩ := by
    rw [sentAt_of_hasBlock crc (hbefore k (Nat.lt_succ_self k))]
    exact worldStep_arrive (step_idleAt h hfile hbefore)
  have hreply : WorldStep tx rx file
      ⟨waitingAt tx file crc k, idleAt tx file crc (k + 1), [], [ACK]⟩
      (sentAt tx file crc (k + 1)) := worldStep_reply (step_waitingAt crc k)
  exact (Relation.ReflTransGen.single ⟨harrive, keepsSize_of_errors rfl⟩).tail
    ⟨hreply, keepsSize_sentAt crc (k + 1)⟩

theorem runs_sentAt {crc : Bool} (h : Suits tx rx crc)
    (hfile : file.length + xmodemMinBlockSize ≤ 0x7fffffff) (k : ℕ)
    (hbefore : ∀ j < k, HasBlock tx file j) :
    Runs tx rx file (World.start tx crc) (sentAt tx file crc k) := by
  induction k with
  | zero => exact runs_sentAt_zero h
  | succ k ih =>
      exact (ih fun j hj ↦ hbefore j (by omega)).trans (runs_sentAt_succ h hfile hbefore)

theorem step_idleAt_eot {crc : Bool} (h : Suits tx rx crc) (n : ℕ) :
    (idleAt tx file crc n).step rx ([EOT].map some ++ []) =
      (refusedAt tx file crc n, [xmodemPutNak crc (n + 1)]) := by
  have hturn : xmodemGetBlockTurn rx crc (n + 1) false false ([EOT].map some ++ []) =
      .again true false [xmodemPutNak crc (n + 1)] := by
    simp [xmodemGetBlockTurn, getcom, EOT, SOH, STX]
  rw [Receiver.step, if_neg (by simp [idleAt])]
  simp only [idleAt, refusedAt, hturn, if_pos h.receiveErrors, Nat.zero_add]

theorem step_refusedAt_eot (crc : Bool) (n : ℕ) :
    (refusedAt tx file crc n).step rx ([EOT].map some ++ []) =
      ({ refusedAt tx file crc n with status := .success }, [ACK]) := by
  have hturn : xmodemGetBlockTurn rx crc (n + 1) true false ([EOT].map some ++ []) =
      .ret .eot := by
    simp [xmodemGetBlockTurn, getcom, EOT, SOH, STX]
  rw [Receiver.step, if_neg (by simp [refusedAt, idleAt])]
  simp only [idleAt, refusedAt, hturn, Receiver.afterBlock]

theorem step_endingAt_nak (herrors : 1 ≤ tx.maxErrors) (crc : Bool) (n : ℕ) :
    (endingAt tx file crc n 0).step tx file (some (xmodemPutNak crc (n + 1))) =
      (endingAt tx file crc n 1, [[EOT]]) := by
  have hack : ¬ xmodemPutNak crc (n + 1) = ACK := xmodemPutNak_ne_ack crc (n + 1)
  have hcan : ¬ xmodemPutNak crc (n + 1) = CAN := by
    rw [xmodemPutNak]
    split_ifs <;> decide
  simp [endingAt, Sender.step, hack, hcan, herrors]

/-- `EOT` is refused once and then taken. -/
theorem runs_eot {crc : Bool} (h : Suits tx rx crc) {n : ℕ} (hend : ¬ HasBlock tx file n) :
    ∃ w, Runs tx rx file (sentAt tx file crc n) w ∧ w.sender.phase = .done true ∧
      w.receiver.status = .success ∧ w.receiver.written = sentData tx file n := by
  have hrefused : WorldStep tx rx file (sentAt tx file crc n)
      ⟨endingAt tx file crc n 0, refusedAt tx file crc n, [], [xmodemPutNak crc (n + 1)]⟩ := by
    rw [sentAt_of_not crc hend]
    exact worldStep_arrive (step_idleAt_eot h n)
  have hagain : WorldStep tx rx file
      ⟨endingAt tx file crc n 0, refusedAt tx file crc n, [], [xmodemPutNak crc (n + 1)]⟩
      ⟨endingAt tx file crc n 1, refusedAt tx file crc n, [[EOT]], []⟩ :=
    worldStep_reply (step_endingAt_nak h.sendErrors crc n)
  have htaken : WorldStep tx rx file
      ⟨endingAt tx file crc n 1, refusedAt tx file crc n, [[EOT]], []⟩
      ⟨endingAt tx file crc n 1, { refusedAt tx file crc n with status := .success }, [],
        [ACK]⟩ := worldStep_arrive (step_refusedAt_eot crc n)
  have hdone : (endingAt tx file crc n 1).step tx file (some ACK) =
      ({ endingAt tx file crc n 1 with phase := .done true }, []) := by
    simp [endingAt, Sender.step]
  have hruns : Runs tx rx file (sentAt tx file crc n)
      ⟨{ endingAt tx file crc n 1 with phase := .done true },
        { refusedAt tx file crc n with status := .success }, [], []⟩ :=
    (((Relation.ReflTransGen.single ⟨hrefused, keepsSize_of_errors rfl⟩).tail
      ⟨hagain, keepsSize_of_errors rfl⟩).tail ⟨htaken, keepsSize_of_errors rfl⟩).tail
      ⟨worldStep_reply hdone, keepsSize_of_errors rfl⟩
  exact ⟨_, hruns, rfl, rfl, rfl⟩

theorem min_le_position (htx : IsBlockSize tx.blockSize) (k : ℕ) :
    min k file.length ≤ (position tx file k).1 := by
  induction k with
  | zero => simp
  | succ k ih =>
      have hsize : IsBlockSize (position tx file (k + 1)).2 := isBlockSize_position htx (k + 1)
      have hmin := hsize.min_le
      simp only [xmodemMinBlockSize] at hmin
      rw [position_succ_fst, length_readBlock]
      omega

/-- The file has an end. -/
theorem exists_not_hasBlock (htx : IsBlockSize tx.blockSize) :
    ∃ n, ¬ HasBlock tx file n ∧ ∀ j < n, HasBlock tx file j := by
  have hend : ∃ n, ¬ HasBlock tx file n := by
    have hle : min file.length file.length ≤ (position tx file file.length).1 :=
      min_le_position htx file.length
    exact ⟨file.length, not_lt.mpr (by omega)⟩
  refine ⟨Nat.find hend, Nat.find_spec hend, fun j hj ↦ ?_⟩
  exact not_not.mp (Nat.find_min hend hj)

/-- The settings of `xmodem_init`. -/
def xmodemInit : Settings where
  maxErrors := 9
  blockSize := xmodemMaxBlockSize
  maxBlockSize := xmodemMaxBlockSize
  crcModeSupported := true
  maxFileSize := 0

theorem suits_xmodemInit (crc : Bool) : Suits xmodemInit xmodemInit crc where
  blockSize := Or.inr rfl
  sendErrors := by decide
  crcMode := fun _ ↦ rfl
  receiveErrors := by decide
  maxBlockSize := le_rfl
  maxFileSize := rfl

/-- Whatever is lost or garbled and whoever gives up, the receiver has written a beginning of the
file and its padding; if it reports success, or the sender does, it has the whole file. -/
theorem xmodem_safe {crc : Bool} {w : World} (htx : IsBlockSize tx.blockSize)
    (h : Runs tx rx file (World.start tx crc) w) :
    (∃ pad < xmodemMinBlockSize, w.receiver.written <+: file ++ List.replicate pad CPMEOF) ∧
      (w.sender.phase = .done true → w.receiver.status = .success) ∧
      (w.receiver.status = .success → Whole file w.receiver.written) := by
  obtain ⟨a, -, hrefines⟩ := (Refines.start crc).runs htx h
  exact ⟨hrefines.receiver.isPrefix htx, hrefines.sent, hrefines.receiver.whole htx⟩

theorem xmodem_safe_three :
    (∃ pad < xmodemMinBlockSize, (sentAt xmodemInit [1, 2, 3] true 1).receiver.written <+:
      [1, 2, 3] ++ List.replicate pad CPMEOF) ∧
    ((sentAt xmodemInit [1, 2, 3] true 1).sender.phase = .done true →
      (sentAt xmodemInit [1, 2, 3] true 1).receiver.status = .success) ∧
    ((sentAt xmodemInit [1, 2, 3] true 1).receiver.status = .success →
      Whole [1, 2, 3] (sentAt xmodemInit [1, 2, 3] true 1).receiver.written) :=
  xmodem_safe (suits_xmodemInit true).blockSize
    (runs_sentAt (suits_xmodemInit true) (by decide) 1 (by decide))

/-- The receiver has taken the first block, and its `ACK` is lost. -/
def lostFirst : World :=
  ⟨waitingAt xmodemInit [1, 2, 3] true 0, idleAt xmodemInit [1, 2, 3] true 1, [], []⟩

theorem runs_lostFirst :
    Runs xmodemInit xmodemInit [1, 2, 3] (World.start xmodemInit true) lostFirst := by
  have hsuits := suits_xmodemInit true
  have hfile : ([1, 2, 3] : List UInt8).length + xmodemMinBlockSize ≤ 0x7fffffff := by decide
  have hhas : ∀ j < 1, HasBlock xmodemInit [1, 2, 3] j := by decide
  have hidle : (idleAt xmodemInit [1, 2, 3] true 0).step xmodemInit
      ((message xmodemInit [1, 2, 3] true 0).map some ++ []) =
      (idleAt xmodemInit [1, 2, 3] true 1, [ACK]) := step_idleAt hsuits hfile hhas
  have harrive : WorldStep xmodemInit xmodemInit [1, 2, 3]
      (sentAt xmodemInit [1, 2, 3] true 0) ⟨waitingAt xmodemInit [1, 2, 3] true 0,
        idleAt xmodemInit [1, 2, 3] true 1, [], [ACK]⟩ := by
    rw [sentAt_of_hasBlock true (hhas 0 Nat.one_pos)]
    exact worldStep_arrive hidle
  have hlose : WorldStep xmodemInit xmodemInit [1, 2, 3]
      ⟨waitingAt xmodemInit [1, 2, 3] true 0, idleAt xmodemInit [1, 2, 3] true 1, [], [ACK]⟩
      lostFirst := WorldStep.loseReplies _ [] (List.nil_sublist _)
  exact ((runs_sentAt_zero hsuits).tail ⟨harrive, keepsSize_of_errors rfl⟩).tail
    ⟨hlose, keepsSize_of_errors rfl⟩

end Synchronet.Sbbs3.Xmodem
