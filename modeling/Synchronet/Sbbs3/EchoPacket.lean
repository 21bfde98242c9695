import Mathlib.Data.List.DropRight
import Synchronet.Lib.RecordFile
import Synchronet.Lib.Trim
import Synchronet.Sbbs3.SeenByLines

/-!
# Packets (sbbsecho.c)

A packet is a header, the messages that `putfmsg` writes and a terminator of two zero bytes.
`find_packet_terminator` finds the place to go on at, and the loop of `import_packets` reads the
messages again.
-/

namespace Synchronet.Sbbs3.Echo

open Xpdev (Str)
open Search (idxOf_append_cons drop_append_cons)

/-! ## Writing a packet -/

/-- A packet that is open for writing: its bytes, and the position. -/
structure Packet where
  bytes : Str
  pos : ℕ

def Packet.fwrite (p : Packet) (data : Str) : Packet where
  bytes := RecordFile.writeAt 0 p.bytes p.pos data
  pos := p.pos + data.length

/-- The length of a `fpkthdr_t`. -/
def pkthdrLen : ℕ := 58

/-- The length of a `fpkdmsg_t`. -/
def pkdmsgLen : ℕ := 34

def terminator : Str := [0, 0]

/-- `terminate_packet` -/
def terminatePacket (p : Packet) : Packet := p.fwrite terminator

/-- `find_packet_terminator` -/
def findPacketTerminator (bytes : Str) : ℕ :=
  if pkthdrLen + 2 ≤ bytes.length ∧ bytes.drop (bytes.length - 2) = terminator then
    bytes.length - 2
  else bytes.length

/-- What `putfmsg` is called with. -/
structure Posting where
  stamp : Str
  fbuf : Str
  hdr : FmsgHdr
  area : Area
  seenbys : List FidoAddr
  paths : List FidoAddr

variable (cfg : Config)

def Posting.text (m : Posting) : Str :=
  messageText cfg m.stamp m.hdr m.area m.fbuf m.seenbys m.paths

def Posting.bytes (m : Posting) : Str :=
  putfmsg cfg m.stamp m.fbuf m.hdr m.area m.seenbys m.paths

/-- A message is written, or the packet is closed and opened again to go on. -/
inductive PacketOp
  | put (m : Posting)
  | reopen

def PacketOp.apply (p : Packet) : PacketOp → Packet
  | .put m => p.fwrite (m.bytes cfg)
  | .reopen =>
      let bytes := (terminatePacket p).bytes
      ⟨bytes, findPacketTerminator bytes⟩

/-- The packet with a header that the operations make, closed. -/
def packetFile (header : Str) (ops : List PacketOp) : Str :=
  (terminatePacket (ops.foldl (PacketOp.apply cfg) ⟨header, header.length⟩)).bytes

def PacketOp.posting : PacketOp → Option Posting
  | .put m => some m
  | .reopen => none

/-! ## Reading a packet -/

/-- `freadstr`: a string, and the bytes behind it. -/
def freadstr (maxlen : ℕ) (s : Str) : Option (Str × Str) :=
  ((s.take maxlen).idxOf? 0).map fun i ↦ ((s.take i).filter (32 ≤ ·), s.drop (i + 1))

/-- The text of a message, with what is no character at its end left out. -/
def fmsgText (s : Str) : Str := (s.takeWhile (· ≠ 0)).rdropWhile (· ≤ 32)

/-- What stands behind the text of a message. -/
def afterFmsg (s : Str) : Str := (s.dropWhile (· ≠ 0)).drop 1

/-- The lengths of the fields for a name and for the subject. -/
def nameLen : ℕ := 36

def subjLen : ℕ := 72

def fidoLocal : UInt16 := 0x100

inductive ReadMsg
  | eof
  | grunged
  | msg (hdr : FmsgHdr) (text : Str) (rest : Str)

def field16 (s : Str) (o : ℕ) : UInt16 := UInt16.ofNat (LittleEndian.field s o 2)

/-- The names and the subject, and the bytes behind them. -/
def readNames (s : Str) : Option (Str × Str × Str × Str) := do
  let (toName, s) ← freadstr nameLen s
  let (fromName, s) ← freadstr nameLen s
  let (subj, s) ← freadstr subjLen s
  return (toName, fromName, subj, s)

def msgTime (s : Str) : Str := (s.drop 14).take timeLen

/-- The fields of fixed length are those of a message. -/
def Recognized (s : Str) : Prop :=
  LittleEndian.field s 0 2 = 2 ∧ (msgTime s).head? ≠ some 0 ∧ (msgTime s).getLast? = some 0

instance (s : Str) : Decidable (Recognized s) := inferInstanceAs (Decidable (_ ∧ _ ∧ _))

/-- The header of a message in a packet from the zone `origzone`, of which the local bit is not
kept. -/
def readHdr (origzone : UInt16) (s toName fromName subj : Str) : FmsgHdr where
  toName := toName
  fromName := fromName
  subj := subj
  time := Smblib.cstr (msgTime s)
  orignode := field16 s 2
  destnode := field16 s 4
  orignet := field16 s 6
  destnet := field16 s 8
  attr := field16 s 10 &&& ~~~fidoLocal
  cost := field16 s 12
  origzone := origzone
  destzone := 0
  destpoint := 0
  origpoint := 0

/-- One round of the loop of `import_packets`. -/
def readMsg (origzone : UInt16) (s : Str) : ReadMsg :=
  if s.length < pkdmsgLen then .eof
  else if Recognized s then
    match readNames (s.drop pkdmsgLen) with
    | none => .grunged
    | some (toName, fromName, subj, rest) =>
        .msg (readHdr origzone s toName fromName subj) (fmsgText rest) (afterFmsg rest)
  else .grunged

theorem length_freadstr_le {maxlen : ℕ} {s str rest : Str}
    (h : freadstr maxlen s = some (str, rest)) : rest.length ≤ s.length := by
  obtain ⟨i, -, heq⟩ := Option.map_eq_some_iff.mp h
  obtain rfl := (Prod.mk.inj heq).2
  rw [List.length_drop]
  omega

theorem length_readNames_le {s toName fromName subj rest : Str}
    (h : readNames s = some (toName, fromName, subj, rest)) : rest.length ≤ s.length := by
  simp only [readNames, Option.bind_eq_bind, Option.bind_eq_some_iff, Option.pure_def,
    Option.some.injEq, Prod.mk.injEq] at h
  obtain ⟨⟨_, s₁⟩, hto, ⟨_, s₂⟩, hfrom, ⟨_, s₃⟩, hsubj, -, -, -, rfl⟩ := h
  exact (length_freadstr_le hsubj).trans ((length_freadstr_le hfrom).trans (length_freadstr_le hto))

theorem length_afterFmsg_le (s : Str) : (afterFmsg s).length ≤ s.length := by
  rw [afterFmsg, List.length_drop]
  have hlen := (List.dropWhile_suffix (fun c : UInt8 ↦ decide (c ≠ 0)) (l := s)).length_le
  omega

theorem length_readMsg_lt {origzone : UInt16} {s text rest : Str} {hdr : FmsgHdr}
    (h : readMsg origzone s = .msg hdr text rest) : rest.length < s.length := by
  rw [readMsg] at h
  split at h
  · cases h
  · case isFalse hlen =>
      split at h
      · split at h
        · cases h
        · case h_2 toName fromName subj names hnames =>
            obtain rfl := (ReadMsg.msg.inj h).2.2
            have hle := length_readNames_le hnames
            have hafter := length_afterFmsg_le names
            rw [List.length_drop] at hle
            rw [pkdmsgLen] at *
            omega
      · cases h

/-- The loop of `import_packets` over the messages of a packet, and whether it ends at one that
is grunged. -/
def readMsgs (origzone : UInt16) (s : Str) : List (FmsgHdr × Str) × Bool :=
  match _h : readMsg origzone s with
  | .eof => ([], false)
  | .grunged => ([], true)
  | .msg hdr text rest =>
      let r := readMsgs origzone rest
      ((hdr, text) :: r.1, r.2)
  termination_by s.length
  decreasing_by exact length_readMsg_lt _h

/-- `import_packets`, for a file that is long enough and ends with a terminator. -/
def importPacket (origzone : UInt16) (file : Str) : Option (List (FmsgHdr × Str) × Bool) :=
  if pkthdrLen + 2 ≤ file.length ∧ file.drop (file.length - 2) = terminator then
    some (readMsgs origzone (file.drop pkthdrLen))
  else none

theorem readMsgs_of_msg {origzone : UInt16} {s text rest : Str} {hdr : FmsgHdr}
    (h : readMsg origzone s = .msg hdr text rest) :
    readMsgs origzone s =
      ((hdr, text) :: (readMsgs origzone rest).1, (readMsgs origzone rest).2) := by
  rw [readMsgs]
  split <;> simp_all

theorem readMsgs_of_eof {origzone : UInt16} {s : Str} (h : readMsg origzone s = .eof) :
    readMsgs origzone s = ([], false) := by
  rw [readMsgs]
  split <;> simp_all

/-! ## A message that is read -/

/-- The fields have room for the names and the subject, which have no control characters; the
time has 19 characters, and no text has a zero byte in it. -/
structure Posting.Fits (m : Posting) : Prop where
  toName : ∀ c ∈ m.hdr.toName, 32 ≤ c
  fromName : ∀ c ∈ m.hdr.fromName, 32 ≤ c
  subj : ∀ c ∈ m.hdr.subj, 32 ≤ c
  length_toName : m.hdr.toName.length < nameLen
  length_fromName : m.hdr.fromName.length < nameLen
  length_subj : m.hdr.subj.length < subjLen
  length_time : m.hdr.time.length = 19
  time : 0 ∉ m.hdr.time
  fbuf : 0 ∉ m.fbuf
  stamp : 0 ∉ m.stamp
  tag : ∀ tag ∈ m.area.tag, 0 ∉ tag

/-- The header that arrives, in a packet from the zone `origzone`. -/
def Posting.arrived (m : Posting) (origzone : UInt16) : FmsgHdr where
  toName := m.hdr.toName
  fromName := m.hdr.fromName
  subj := m.hdr.subj
  time := m.hdr.time
  orignode := (getsysfaddr cfg m.hdr.dest).node
  destnode := m.hdr.destnode
  orignet := (getsysfaddr cfg m.hdr.dest).net
  destnet := m.hdr.destnet
  attr := m.hdr.attr &&& ~~~fidoLocal
  cost := m.hdr.cost
  origzone := origzone
  destzone := 0
  destpoint := 0
  origpoint := 0

/-- The text that arrives. -/
def Posting.arrivedText (m : Posting) : Str := (m.text cfg).rdropWhile (· ≤ 32)

/-- A name is read as it was written. -/
theorem freadstr_append {maxlen : ℕ} {name rest : Str} (hctrl : ∀ c ∈ name, 32 ≤ c)
    (hlen : name.length < maxlen) : freadstr maxlen (name ++ 0 :: rest) = some (name, rest) := by
  have hzero : 0 ∉ name := fun h ↦ absurd (hctrl 0 h) (by decide)
  obtain ⟨k, rfl⟩ : ∃ k, maxlen = name.length + (k + 1) :=
    ⟨maxlen - name.length - 1, by omega⟩
  rw [freadstr, List.take_length_add_append, List.take_succ_cons, idxOf_append_cons hzero,
    Option.map_some, List.take_left, drop_append_cons,
    List.filter_eq_self.mpr fun c hc ↦ by simpa using hctrl c hc]

theorem readNames_append {hdr : FmsgHdr} {rest : Str} (hto : ∀ c ∈ hdr.toName, 32 ≤ c)
    (hfrom : ∀ c ∈ hdr.fromName, 32 ≤ c) (hsubj : ∀ c ∈ hdr.subj, 32 ≤ c)
    (hlto : hdr.toName.length < nameLen) (hlfrom : hdr.fromName.length < nameLen)
    (hlsubj : hdr.subj.length < subjLen) :
    readNames (hdr.toName ++ 0 :: (hdr.fromName ++ 0 :: (hdr.subj ++ 0 :: rest))) =
      some (hdr.toName, hdr.fromName, hdr.subj, rest) := by
  simp [readNames, freadstr_append hto hlto, freadstr_append hfrom hlfrom,
    freadstr_append hsubj hlsubj]

/-- The fields of fixed length, when the time has 19 characters. -/
theorem pkdmsg_append (addr : FidoAddr) {hdr : FmsgHdr} (htime : hdr.time.length = 19)
    (rest : Str) :
    pkdmsg addr hdr ++ rest =
      LittleEndian.le 2 2 ++ (LittleEndian.le 2 addr.node.toNat ++
        (LittleEndian.le 2 hdr.destnode.toNat ++ (LittleEndian.le 2 addr.net.toNat ++
          (LittleEndian.le 2 hdr.destnet.toNat ++ (LittleEndian.le 2 hdr.attr.toNat ++
            (LittleEndian.le 2 hdr.cost.toNat ++ (hdr.time ++ 0 :: rest))))))) := by
  have htake : hdr.time.take (timeLen - 1) = hdr.time :=
    List.take_of_length_le (by simp [htime, timeLen])
  simp [pkdmsg, htake, htime, timeLen]

section ReadMsg

variable (addr : FidoAddr) {hdr : FmsgHdr} (htime : hdr.time.length = 19) (rest : Str)

include htime

theorem length_pkdmsg : (pkdmsg addr hdr).length = pkdmsgLen := by
  have h := congrArg List.length (pkdmsg_append addr htime [])
  simpa [htime, pkdmsgLen] using h

theorem msgTime_pkdmsg : msgTime (pkdmsg addr hdr ++ rest) = hdr.time ++ [0] := by
  rw [pkdmsg_append addr htime, msgTime]
  simp only [← List.append_assoc]
  rw [List.append_assoc _ hdr.time, List.drop_left' (by simp)]
  simp [timeLen, htime, List.take_append]

theorem recognized_pkdmsg (hzero : 0 ∉ hdr.time) : Recognized (pkdmsg addr hdr ++ rest) := by
  refine ⟨?_, ?_, ?_⟩
  · rw [pkdmsg_append addr htime, LittleEndian.field_zero]
    rfl
  · rw [msgTime_pkdmsg addr htime]
    cases htimes : hdr.time with
    | nil => simp [htimes] at htime
    | cons c time =>
        rw [htimes, List.mem_cons, not_or] at hzero
        simpa using Ne.symm hzero.1
  · rw [msgTime_pkdmsg addr htime, List.getLast?_concat]

theorem readHdr_pkdmsg (hzero : 0 ∉ hdr.time) (origzone : UInt16) (toName fromName subj : Str) :
    readHdr origzone (pkdmsg addr hdr ++ rest) toName fromName subj =
      { toName := toName
        fromName := fromName
        subj := subj
        time := hdr.time
        orignode := addr.node
        destnode := hdr.destnode
        orignet := addr.net
        destnet := hdr.destnet
        attr := hdr.attr &&& ~~~fidoLocal
        cost := hdr.cost
        origzone := origzone
        destzone := 0
        destpoint := 0
        origpoint := 0 } := by
  have htimes : Smblib.cstr (hdr.time ++ [0]) = hdr.time := by
    rw [Smblib.cstr, List.takeWhile_append_of_pos, List.takeWhile_cons_of_neg (by simp),
      List.append_nil]
    intro c hc
    simpa using ne_of_mem_of_not_mem hc hzero
  rw [readHdr, msgTime_pkdmsg addr htime, htimes, pkdmsg_append addr htime]
  simp [field16, LittleEndian.field_skip, LittleEndian.field_zero]

end ReadMsg

/-! ## The text of a message -/

theorem zero_notMem_decimal (n : UInt16) : 0 ∉ decimal n :=
  fun h ↦ forall_mem_decimal (P := (· ≠ 0)) (by decide +kernel) n 0 h rfl

theorem zero_notMem_ultoa (n : ℕ) : 0 ∉ ultoa n 10 :=
  fun h ↦ forall_mem_ultoa (P := (· ≠ 0)) (by decide) (by decide +kernel) n 0 h rfl

theorem zero_notMem_text (l : AddrLine) (addr : FidoAddr) : 0 ∉ l.text addr := by
  rw [AddrLine.text]
  split <;> simp [zero_notMem_decimal]

theorem zero_notMem_foldl {tag : Str} (htag : 0 ∉ tag) (start : ℕ) (addrs : List FidoAddr)
    {l : AddrLine} (hl : 0 ∉ l.out) : 0 ∉ (addrs.foldl (AddrLine.next tag start) l).out := by
  induction addrs generalizing l with
  | nil => exact hl
  | cons a addrs ih =>
      refine ih ?_
      rw [AddrLine.next]
      split
      · simp [hl, zero_notMem_text]
      · simp [hl, htag, zero_notMem_text]

theorem zero_notMem_putSeenBys (addr : FidoAddr) (links seenbys : List FidoAddr) :
    0 ∉ putSeenBys cfg addr links seenbys := by
  have htag : 0 ∉ seenByTag := by decide
  exact zero_notMem_foldl htag 9 _ (zero_notMem_foldl htag 9 _ (zero_notMem_foldl htag 9 _ htag))

theorem zero_notMem_putPaths (sysaddr : FidoAddr) (paths : List FidoAddr) :
    0 ∉ putPaths cfg sysaddr paths := by
  have htag : 0 ∉ pathTag := by decide
  have hstart : 0 ∉ 13 :: pathTag := by decide
  rw [putPaths]
  generalize hline : (pathFrom cfg sysaddr paths).foldl (AddrLine.next pathTag 7)
    ⟨13 :: pathTag, 7, false, sysaddr.net⟩ = l
  have hl : 0 ∉ l.out := by
    rw [← hline]
    exact zero_notMem_foldl htag 7 _ hstart
  split
  · split
    · simp [hl, zero_notMem_text]
    · simp [hl, htag, zero_notMem_text]
  · exact hl

theorem zero_notMem_faddrtoa (addr : FidoAddr) : 0 ∉ faddrtoa addr := by
  rw [faddrtoa]
  split <;> simp [zero_notMem_decimal]

theorem zero_notMem_signedDecimal (n : UInt16) : 0 ∉ signedDecimal n := by
  rw [signedDecimal]
  split <;> simp [zero_notMem_decimal, zero_notMem_ultoa]

theorem zero_notMem_closeLine {fbuf : Str} (h : 0 ∉ fbuf) : 0 ∉ closeLine fbuf := by
  rw [closeLine]
  split <;> simp [h]

theorem zero_notMem_bodyText (hdr : FmsgHdr) {area : Area} {fbuf : Str} (hfbuf : 0 ∉ fbuf)
    (htag : ∀ tag ∈ area.tag, 0 ∉ tag) : 0 ∉ bodyText hdr area fbuf := by
  have hclose := zero_notMem_closeLine hfbuf
  rw [bodyText]
  cases harea : area.tag with
  | none =>
      dsimp only
      split <;> simp [hclose, intlControlLine, zero_notMem_decimal]
  | some tag =>
      have ht := htag tag harea
      dsimp only
      split <;> simp [hclose, ht, areaWord]

/-- No message has a zero byte in its text. -/
theorem Posting.zero_notMem_text {m : Posting} (h : m.Fits) : 0 ∉ m.text cfg := by
  have hbody := zero_notMem_bodyText m.hdr h.fbuf h.tag
  rw [text, messageText]
  cases m.area.tag with
  | none => simp [hbody, viaControlLine, zero_notMem_faddrtoa, h.stamp]
  | some tag =>
      dsimp only
      split
      · simp [hbody, zero_notMem_signedDecimal, seenByTag]
      · simp [hbody, zero_notMem_putSeenBys, zero_notMem_putPaths]

/-- What `putfmsg` writes is read as one message. -/
theorem readMsg_bytes {m : Posting} (h : m.Fits) (origzone : UInt16) (rest : Str) :
    readMsg origzone (m.bytes cfg ++ rest) =
      .msg (m.arrived cfg origzone) (m.arrivedText cfg) rest := by
  have hbytes : m.bytes cfg ++ rest = pkdmsg (getsysfaddr cfg m.hdr.dest) m.hdr ++
      (m.hdr.toName ++ 0 :: (m.hdr.fromName ++ 0 :: (m.hdr.subj ++
        0 :: (m.text cfg ++ 0 :: rest)))) := by
    simp [Posting.bytes, putfmsg, Posting.text]
  have hlen := length_pkdmsg (getsysfaddr cfg m.hdr.dest) h.length_time
  have hnames := @readNames_append _ (m.text cfg ++ 0 :: rest) h.toName h.fromName h.subj
    h.length_toName h.length_fromName h.length_subj
  have hzero := m.zero_notMem_text cfg h
  have htake : (m.text cfg ++ 0 :: rest).takeWhile (· ≠ 0) = m.text cfg := by
    rw [List.takeWhile_append_of_pos, List.takeWhile_cons_of_neg (by simp), List.append_nil]
    intro c hc
    simpa using ne_of_mem_of_not_mem hc hzero
  have hdrop : (m.text cfg ++ 0 :: rest).dropWhile (· ≠ 0) = 0 :: rest := by
    rw [List.dropWhile_append_of_pos, List.dropWhile_cons_of_neg (by simp)]
    intro c hc
    simpa using ne_of_mem_of_not_mem hc hzero
  rw [hbytes, readMsg, if_neg (by rw [List.length_append]; omega),
    if_pos (recognized_pkdmsg _ h.length_time _ h.time), List.drop_left' hlen, hnames]
  dsimp only
  rw [readHdr_pkdmsg _ h.length_time _ h.time]
  simp only [fmsgText, afterFmsg, htake, hdrop]
  rfl

/-- The messages of a packet are read up to its terminator. -/
theorem readMsgs_flatMap {ms : List Posting} (h : ∀ m ∈ ms, m.Fits) (origzone : UInt16) :
    readMsgs origzone (ms.flatMap (Posting.bytes cfg) ++ terminator) =
      (ms.map fun m ↦ (m.arrived cfg origzone, m.arrivedText cfg), false) := by
  induction ms with
  | nil => exact readMsgs_of_eof rfl
  | cons m ms ih =>
      rw [List.flatMap_cons, List.append_assoc,
        readMsgs_of_msg (readMsg_bytes cfg (h m List.mem_cons_self) origzone _),
        ih fun m' hm' ↦ h m' (List.mem_cons_of_mem _ hm')]
      rfl

/-! ## Packets that are written -/

/-- The bytes of a packet are its messages, with or without a terminator behind the position. -/
structure Packet.Holds (p : Packet) (header : Str) (ms : List Posting) : Prop where
  bytes : p.bytes = header ++ ms.flatMap (Posting.bytes cfg) ∨
    p.bytes = header ++ ms.flatMap (Posting.bytes cfg) ++ terminator
  pos : p.pos = (header ++ ms.flatMap (Posting.bytes cfg)).length

section Holds

variable {cfg} {p : Packet} {header : Str} {ms : List Posting}

/-- Writing goes on behind the messages, over the terminator. -/
theorem Packet.Holds.fwrite (h : p.Holds cfg header ms) {data : Str} (hdata : 2 ≤ data.length) :
    (p.fwrite data).bytes = header ++ ms.flatMap (Posting.bytes cfg) ++ data := by
  have hne : data ≠ [] := by
    rintro rfl
    simp at hdata
  rw [Packet.fwrite, h.pos]
  dsimp only
  rcases h.bytes with hbytes | hbytes
  · rw [hbytes, RecordFile.writeAt_length]
  · rw [hbytes, RecordFile.writeAt, if_neg hne, List.take_left, List.drop_eq_nil_of_le,
      List.append_nil, Nat.sub_eq_zero_of_le, List.replicate_zero, List.append_nil]
    · simp
    · rw [List.length_append]
      exact Nat.add_le_add_left hdata _

theorem Packet.Holds.put (h : p.Holds cfg header ms) {m : Posting} (hm : m.Fits) :
    (p.fwrite (m.bytes cfg)).Holds cfg header (ms ++ [m]) := by
  have hlen : 2 ≤ (m.bytes cfg).length := by
    have hpkdmsg := length_pkdmsg (getsysfaddr cfg m.hdr.dest) hm.length_time
    rw [Posting.bytes, putfmsg]
    simp only [List.length_append, hpkdmsg, pkdmsgLen]
    omega
  constructor
  case bytes =>
    left
    rw [h.fwrite hlen]
    simp
  case pos =>
    rw [Packet.fwrite, h.pos]
    simp only [List.length_append, List.flatMap_append, List.flatMap_singleton]
    omega

/-- The terminator is found. -/
theorem findPacketTerminator_append {s : Str} (hlen : pkthdrLen ≤ s.length) :
    findPacketTerminator (s ++ terminator) = s.length := by
  have hlen' : (s ++ terminator).length = s.length + 2 := List.length_append
  rw [findPacketTerminator, if_pos, hlen', Nat.add_sub_cancel]
  rw [hlen', Nat.add_sub_cancel, List.drop_left]
  exact ⟨by omega, rfl⟩

theorem Packet.Holds.reopen (h : p.Holds cfg header ms) (hheader : header.length = pkthdrLen) :
    (PacketOp.apply cfg p .reopen).Holds cfg header ms := by
  have hbytes : (terminatePacket p).bytes =
      header ++ ms.flatMap (Posting.bytes cfg) ++ terminator := h.fwrite (by decide)
  constructor
  case bytes => exact Or.inr hbytes
  case pos =>
    rw [PacketOp.apply, hbytes, findPacketTerminator_append]
    rw [List.length_append, hheader]
    omega

/-- Every run of the operations keeps the messages that were put. -/
theorem Packet.Holds.foldl (h : p.Holds cfg header ms) (hheader : header.length = pkthdrLen)
    {ops : List PacketOp} (hops : ∀ m, .put m ∈ ops → m.Fits) :
    (ops.foldl (PacketOp.apply cfg) p).Holds cfg header (ms ++ ops.filterMap PacketOp.posting) := by
  induction ops generalizing p ms with
  | nil => simpa using h
  | cons op ops ih =>
      have hops' : ∀ m, .put m ∈ ops → m.Fits := fun m hm ↦ hops m (List.mem_cons_of_mem _ hm)
      cases op with
      | put m =>
          have hrest := ih (h.put (hops m List.mem_cons_self)) hops'
          rw [List.append_assoc] at hrest
          exact hrest
      | reopen => exact ih (h.reopen hheader) hops'

end Holds

/-- Every message of a packet arrives, and none is grunged: with the address of the system for
its destination as the origin, without the local bit, and its text without what is no character
at its end. -/
theorem importPacket_packetFile (header : Str) (hheader : header.length = pkthdrLen)
    (ops : List PacketOp) (hops : ∀ m, .put m ∈ ops → m.Fits) (origzone : UInt16) :
    importPacket origzone (packetFile cfg header ops) =
      some ((ops.filterMap PacketOp.posting).map fun m ↦
        (m.arrived cfg origzone, m.arrivedText cfg), false) := by
  have hstart : (Packet.mk header header.length).Holds cfg header [] :=
    ⟨Or.inl (by simp), by simp⟩
  have hholds := hstart.foldl hheader hops
  rw [List.nil_append] at hholds
  have hfile : packetFile cfg header ops = header ++
      (ops.filterMap PacketOp.posting).flatMap (Posting.bytes cfg) ++ terminator :=
    hholds.fwrite (by decide)
  have hfits : ∀ m ∈ ops.filterMap PacketOp.posting, m.Fits := by
    intro m hm
    obtain ⟨op, hop, hposting⟩ := List.mem_filterMap.mp hm
    cases op with
    | put m' =>
        cases hposting
        exact hops _ hop
    | reopen => cases hposting
  rw [hfile, importPacket, if_pos, List.append_assoc, List.drop_left' hheader,
    readMsgs_flatMap cfg hfits]
  have hlen (s : Str) : (s ++ terminator).length = s.length + 2 := List.length_append
  rw [hlen]
  refine ⟨?_, List.drop_left⟩
  rw [List.length_append, hheader]
  omega

/-- A netmail message that was created on the system. -/
def localPosting : Posting where
  stamp := [83]
  fbuf := [72, 105]
  hdr :=
    { toName := [65]
      fromName := [66]
      subj := [67]
      time := [48, 49, 32, 74, 97, 110, 32, 49, 56, 32, 32, 48, 48, 58, 48, 48, 58, 48, 48]
      destzone := 1
      destnet := 103
      destnode := 706
      destpoint := 0
      origzone := 1
      orignet := 103
      orignode := 705
      origpoint := 0
      attr := 0x101
      cost := 0 }
  area := ⟨none, []⟩
  seenbys := []
  paths := []

theorem localPosting_fits : localPosting.Fits := by
  constructor <;> decide +kernel

theorem importPacket_packetFile_local :
    importPacket 1 (packetFile loneConfig (List.replicate 58 0)
        [.put localPosting, .reopen, .put localPosting]) =
      some ([(localPosting.arrived loneConfig 1, localPosting.arrivedText loneConfig),
        (localPosting.arrived loneConfig 1, localPosting.arrivedText loneConfig)], false) := by
  refine importPacket_packetFile loneConfig (List.replicate 58 0) rfl _ ?_ 1
  intro m hm
  obtain rfl : m = localPosting := by simpa using hm
  exact localPosting_fits

/-- The local bit of a message does not arrive. -/
theorem importPacket_local_attr :
    importPacket 1 (packetFile loneConfig (List.replicate 58 0) [.put localPosting]) =
        some ([(localPosting.arrived loneConfig 1, localPosting.arrivedText loneConfig)], false) ∧
      localPosting.hdr.attr = 0x101 ∧ (localPosting.arrived loneConfig 1).attr = 1 := by
  refine ⟨?_, rfl, rfl⟩
  have hfile : packetFile loneConfig (List.replicate 58 0) [.put localPosting] =
      List.replicate 58 0 ++
        ([localPosting].flatMap (Posting.bytes loneConfig) ++ terminator) := by
    decide +kernel
  have hheader : (List.replicate 58 (0 : UInt8)).length = pkthdrLen := rfl
  rw [hfile, importPacket, if_pos (by decide +kernel), List.drop_left' hheader,
    readMsgs_flatMap loneConfig (by simpa using localPosting_fits)]
  rfl

end Synchronet.Sbbs3.Echo
