import Synchronet.Sbbs3.ZmodemHeaderCheck

/-!
# ZMODEM headers on the line

A header in hexadecimal digits is received as it was sent.  A binary one is, unless one
of its carriage returns is sent bare.
-/

namespace Synchronet.Sbbs3

open Words Smblib

inductive HeaderStyle
  | hex
  | bin16
  | bin32
  deriving DecidableEq, Repr

def sendHeader : HeaderStyle → Zmodem → List UInt8 → Zmodem
  | .hex => zmodemSendHexHeader
  | .bin16 => zmodemSendBin16Header
  | .bin32 => zmodemSendBin32Header

/-- The byte that announces the style. -/
def HeaderStyle.byte : HeaderStyle → UInt8
  | .hex => zhex
  | .bin16 => zbin
  | .bin32 => zbin32

/-- The receiver of what was sent between `tx` and `tx'`, at the other end of the
connection. -/
def Zmodem.delivered (rx tx tx' : Zmodem) : Zmodem :=
  { rx with
    input := tx'.output.drop tx.output.length
    escapeCtrlChars := tx.escapeCtrlChars
    cancelled := false }

/-- The types whose header comes with a subpacket. -/
def withSubpkt (type : UInt8) : Prop := type = zfile ∨ type = zsinit ∨ type = zcommand

instance (type : UInt8) : Decidable (withSubpkt type) := by
  unfold withSubpkt
  infer_instance

/-- A result of `zmodem_recv_header_raw` that is the header `p`, with a flag when the
subpacket behind it was not received. -/
def HeaderReceived (r : ℤ × Zmodem) (p : List UInt8) : Prop :=
  r.2.header = p ∧
    (r.1 = (p.headD 0).toNat ∨
      (withSubpkt (p.headD 0) ∧ r.1 = (p.headD 0 ||| badsubpkt).toNat))

/-! ## What is left alone -/

@[simp] theorem rxdHeader_zmodemSendRaw (zm : Zmodem) (c : UInt8) :
    (zmodemSendRaw zm c).rxdHeader = zm.rxdHeader := rfl

theorem rxdHeader_zmodemTx (zm : Zmodem) (c : UInt8) :
    (zmodemTx zm c).rxdHeader = zm.rxdHeader := by
  rw [zmodemTx_eq]

theorem rxdHeader_foldl {f : Zmodem → UInt8 → Zmodem}
    (h : ∀ zm c, (f zm c).rxdHeader = zm.rxdHeader) (zm : Zmodem) (p : List UInt8) :
    (p.foldl f zm).rxdHeader = zm.rxdHeader := by
  induction p generalizing zm with
  | nil => rfl
  | cons c p ih => rw [List.foldl_cons, ih, h]

theorem rxdHeader_zmodemSendHex (zm : Zmodem) (c : UInt8) :
    (zmodemSendHex zm c).rxdHeader = zm.rxdHeader := rfl

theorem rxdHeader_zmodemSendHexHeader (zm : Zmodem) (p : List UInt8) :
    (zmodemSendHexHeader zm p).rxdHeader = zm.rxdHeader := by
  have hex := rxdHeader_foldl rxdHeader_zmodemSendHex
  rw [zmodemSendHexHeader]
  split
  · rw [rxdHeader_zmodemSendRaw, rxdHeader_zmodemSendRaw, rxdHeader_zmodemSendRaw, hex, hex]
    rfl
  · rw [rxdHeader_zmodemSendRaw, rxdHeader_zmodemSendRaw, hex, hex]
    rfl

theorem rxdHeader_zmodemSendPosHeader_hex (zm : Zmodem) (type : UInt8) (pos : UInt32) :
    (zmodemSendPosHeader zm type pos true).rxdHeader = zm.rxdHeader := by
  rw [zmodemSendPosHeader, if_pos rfl, rxdHeader_zmodemSendHexHeader]

theorem rxdHeader_zmodemSendAck (zm : Zmodem) (pos : UInt32) :
    (zmodemSendAck zm pos).rxdHeader = zm.rxdHeader := by
  rw [zmodemSendAck, rxdHeader_zmodemSendPosHeader_hex]

theorem rxdHeader_zmodemSendZnak (zm : Zmodem) :
    (zmodemSendZnak zm).rxdHeader = zm.rxdHeader := by
  rw [zmodemSendZnak, rxdHeader_zmodemSendPosHeader_hex]

theorem rxdHeader_recvBytes (room : ℕ) (zm : Zmodem) (p : List UInt8) :
    (recvBytes room zm p).2.2.rxdHeader = zm.rxdHeader := by
  have hrx := blind_zmodemRx.rxdHeader zm
  induction room generalizing zm p with
  | zero =>
      rw [recvBytes.eq_def]
      dsimp only
      repeat' split
      all_goals exact hrx
  | succ room ih =>
      rw [recvBytes.eq_def]
      dsimp only
      split
      · exact hrx
      split
      · exact hrx
      · rw [ih _ _ (blind_zmodemRx.rxdHeader _), hrx]

theorem rxdHeader_checkDataCrc (w : Fcs) (zm : Zmodem) (t : UInt8) (p : List UInt8) :
    (checkDataCrc w zm t p).2.rxdHeader = zm.rxdHeader := by
  cases w with
  | fcs16 => exact blind_rxdCrc16.rxdHeader zm
  | fcs32 => exact blind_rxdCrc32.rxdHeader zm

theorem rxdHeader_recvData (w : Fcs) (zm : Zmodem) (maxlen : ℕ) :
    (recvData w zm maxlen).2.2.rxdHeader = zm.rxdHeader := by
  have hbytes := rxdHeader_recvBytes maxlen zm []
  rw [recvData]
  generalize recvBytes maxlen zm [] = r at hbytes
  obtain ⟨e | t, p, zm'⟩ := r
  · exact hbytes
  · have hcheck := rxdHeader_checkDataCrc w zm' t p
    dsimp only
    split
    · exact hcheck.trans hbytes
    · exact hcheck.trans hbytes

theorem rxdHeader_zmodemRecvData (zm : Zmodem) (maxlen : ℕ) (ack : Bool) :
    (zmodemRecvData zm maxlen ack).2.2.rxdHeader = zm.rxdHeader := by
  have hdata : (if zm.receive32bitData then zmodemRecvData32 zm maxlen
      else zmodemRecvData16 zm maxlen).2.2.rxdHeader = zm.rxdHeader := by
    split
    · exact rxdHeader_recvData .fcs32 zm maxlen
    · exact rxdHeader_recvData .fcs16 zm maxlen
  rw [zmodemRecvData]
  generalize (if zm.receive32bitData then zmodemRecvData32 zm maxlen
      else zmodemRecvData16 zm maxlen) = r at hdata
  have hack : (if ack then zmodemSendAck r.2.2 r.2.2.ackFilePos else r.2.2).rxdHeader =
      zm.rxdHeader := by
    split
    · rw [rxdHeader_zmodemSendAck, hdata]
    · exact hdata
  split
  · exact hdata
  split
  · exact hdata
  split
  · exact hdata
  split
  · exact hack
  split
  · exact hack
  · exact hdata

theorem rxdHeader_zmodemRecvSubpacket (zm : Zmodem) (ack : Bool) :
    (zmodemRecvSubpacket zm ack).2.rxdHeader = zm.rxdHeader := by
  have hdata := rxdHeader_zmodemRecvData zm 8192 ack
  rw [zmodemRecvSubpacket]
  split
  · rw [rxdHeader_zmodemSendZnak, hdata]
  · exact hdata

theorem headD_header (zm : Zmodem) :
    zm.header.headD 0 = getElem zm.rxdHeader 0 (Nat.zero_lt_succ 15) := by
  simp [Zmodem.header, hdrlen, List.headD_eq_head?_getD, Vector.toList,
    List.head?_eq_getElem?]

theorem header_of_rxdHeader {zm zm' : Zmodem} (h : zm'.rxdHeader = zm.rxdHeader) :
    zm'.header = zm.header := by
  rw [Zmodem.header, Zmodem.header, h]

theorem subpktResult_type {type : UInt8} (h : withSubpkt type) (r : Bool × Zmodem) :
    (subpktResult type r).1 = type.toNat ∨
      (withSubpkt type ∧ (subpktResult type r).1 = (type ||| badsubpkt).toNat) := by
  obtain ⟨ok, zm⟩ := r
  cases ok with
  | true => exact Or.inl rfl
  | false => exact Or.inr ⟨h, rfl⟩

/-- A header that was accepted stays, and its type is returned. -/
theorem headerDone_received (freeSpace : UInt32) (zm : Zmodem) :
    HeaderReceived (headerDone freeSpace zm) zm.header := by
  rw [HeaderReceived, headD_header, headerDone]
  split
  · exact ⟨header_of_rxdHeader rfl, Or.inl rfl⟩
  split
  · exact ⟨header_of_rxdHeader rfl, Or.inl rfl⟩
  split
  next hfile =>
    refine ⟨header_of_rxdHeader ?_, subpktResult_type (Or.inl hfile) _⟩
    exact (rxdHeader_zmodemRecvSubpacket _ _).trans rfl
  split
  next hsinit =>
    refine ⟨header_of_rxdHeader ?_, subpktResult_type (Or.inr hsinit) _⟩
    exact (rxdHeader_zmodemRecvSubpacket _ _).trans rfl
  split
  · refine ⟨header_of_rxdHeader ?_, Or.inl rfl⟩
    rw [rxdHeader_zmodemSendPosHeader_hex]
  · exact ⟨header_of_rxdHeader rfl, Or.inl rfl⟩

/-! ## The rounds of the search -/

theorem skipToZpad_zpad {zm : Zmodem} (h : zm.cancelled = false) (rest : List UInt8) :
    skipToZpad (zpad :: rest) zm = (none, zm.heard rest) := by
  have hpad : zpad ≠ can := by decide
  simp [skipToZpad, Zmodem.took, hpad, h, Zmodem.heard]

/-- The receiver for a style of header. -/
def recvStyle (errors : Bool) (zm : Zmodem) : HeaderStyle → Option ℤ × Zmodem
  | .hex => endHeader errors false (zmodemRecvHexHeader zm)
  | .bin16 => endHeader errors false (zmodemRecvBin16Header zm)
  | .bin32 => endHeader errors true (zmodemRecvBin32Header zm)

/-- What a round does with the preamble of a header. -/
theorem headerRound_preamble (errors : Bool) (style : HeaderStyle) {zm : Zmodem}
    {rest : List UInt8} (h : zm.cancelled = false)
    (hin : zm.input = zpad :: zpad :: zdle :: style.byte :: rest) :
    headerRound errors zm = recvStyle errors (zm.heard rest) style := by
  have hpad : zpad ≠ can := by decide
  have hdle : zdle = can := rfl
  have hraw₁ : zmodemRecvRaw (zm.heard (zpad :: zdle :: style.byte :: rest)) =
      ((zpad.toNat : ℤ), zm.heard (zdle :: style.byte :: rest)) := by
    simp [zmodemRecvRaw, Zmodem.heard, Zmodem.took, hpad, h]
  have hraw₂ : zmodemRecvRaw (zm.heard (zdle :: style.byte :: rest)) =
      ((zdle.toNat : ℤ), { zm.heard (style.byte :: rest) with nCans := 1 }) := by
    simp [zmodemRecvRaw, Zmodem.heard, Zmodem.took, hdle, h]
  have hplain : style.byte ≠ zdle ∧ isFlowCtrl style.byte = false ∧
      ∀ esc, isSpurious esc style.byte = false := by
    cases style <;> decide
  have hready : Zmodem.Ready { zm.heard (style.byte :: rest) with nCans := 1 } :=
    ⟨h, Nat.one_lt_succ_succ 2⟩
  have hrx := rx_plain hready rfl hplain.1 hplain.2.1 (hplain.2.2 _)
  rw [headerRound, hin, skipToZpad_zpad h]
  dsimp only
  rw [hraw₁]
  dsimp only
  rw [if_neg (by omega), if_pos rfl, hraw₂]
  dsimp only
  rw [if_neg (by omega), if_neg (by simp), hrx]
  cases style <;> rfl

/-- A round that found a header ends the search. -/
theorem headerSearch_some {errors : Bool} {fuel : ℕ} {zm zm' : Zmodem} {c : ℤ}
    (h : headerRound errors zm = (some c, zm')) :
    headerSearch errors (fuel + 1) zm = (some c, zm') := by
  rw [headerSearch, h]

theorem headerSearch_none {errors : Bool} {fuel : ℕ} {zm zm' : Zmodem}
    (h : headerRound errors zm = (none, zm')) (hcan : zm'.cancelled = false)
    (hlen : zm'.rxdHeaderLen ≠ 0) : headerSearch errors (fuel + 1) zm = (none, zm') := by
  rw [headerSearch, h]
  simp [hcan, hlen]

/-! ## Reading a run of bytes -/

theorem noneBare_append (zm : Zmodem) (p q : List UInt8) :
    NoneBare zm (p ++ q) ↔ NoneBare zm p ∧ NoneBare (p.foldl zmodemTx zm) q := by
  induction p generalizing zm with
  | nil => simp [NoneBare]
  | cons c p ih => simp [NoneBare, ih, and_assoc]

theorem lineBytes_append (zm : Zmodem) (p q : List UInt8) :
    lineBytes zm (p ++ q) = lineBytes zm p ++ lineBytes (p.foldl zmodemTx zm) q := by
  induction p generalizing zm with
  | nil => rfl
  | cons c p ih => simp [lineBytes, ih]

theorem Zmodem.Hears.heard {zm tx : Zmodem} (h : zm.Hears tx) (rest : List UInt8) :
    (zm.heard rest).Hears tx :=
  ⟨⟨h.ready.notCancelled, Nat.zero_lt_succ 3⟩, h.ctrl⟩

theorem Zmodem.Hears.foldl {zm tx : Zmodem} (h : zm.Hears tx) (p rest : List UInt8) :
    (zm.heard rest).Hears (p.foldl zmodemTx tx) where
  ready := ⟨h.ready.notCancelled, Nat.zero_lt_succ 3⟩
  ctrl := h.ctrl.trans (escapeCtrlChars_foldl tx p).symm

/-- A run of which nothing is lost is read byte by byte. -/
theorem reads_lineBytes (p : List UInt8) {zm tx : Zmodem} (h : zm.Hears tx)
    (hnone : NoneBare tx p) (rest : List UInt8) :
    reads zmodemRx p.length (zm.heard (lineBytes tx p ++ rest)) =
      (p.map fun c ↦ (c.toNat : ℤ), zm.heard rest) := by
  induction p generalizing zm tx with
  | nil => rfl
  | cons c p ih =>
      have hears := h.heard (lineBytes tx (c :: p) ++ rest)
      have hrec := ih (h.next c []) hnone.2
      rw [Zmodem.heard_heard, Zmodem.heard_heard] at hrec
      rw [List.length_cons, reads, rx_lineBytes_cons hears rfl hnone.1]
      dsimp only
      rw [Zmodem.heard_heard, hrec, List.map_cons]

/-- A run that is read as it was sent has lost nothing. -/
theorem noneBare_of_reads (p cs : List UInt8) {zm tx : Zmodem} (h : zm.Hears tx)
    (heq : (reads zmodemRx p.length (zm.heard (lineBytes tx (p ++ cs)))).1.map UInt8.ofInt = p) :
    NoneBare tx p := by
  induction p generalizing zm tx with
  | nil => trivial
  | cons c p ih =>
      rw [List.length_cons, reads, List.map_cons, List.cons.injEq, List.cons_append] at heq
      obtain ⟨hbare, hrx⟩ := rx_step_heard h.ready h.ctrl heq.1
      rw [hrx] at heq
      exact ⟨hbare, ih (h.next c []) heq.2⟩

/-- What a read of a run can do: it gets a byte and leaves a run, or the line is silent. -/
theorem rx_run (cs : List UInt8) {zm tx : Zmodem} (h : zm.Hears tx)
    (hin : zm.input = lineBytes tx cs) :
    (∃ zm', zmodemRx zm = (timeout, zm') ∧ zm'.input = [] ∧ zm'.cancelled = false ∧
      zm'.rxdHeaderLen = zm.rxdHeaderLen) ∨
    ∃ (c : UInt8) (tx' : Zmodem) (cs' : List UInt8),
      zmodemRx zm = ((c.toNat : ℤ), zm.heard (lineBytes tx' cs')) ∧
        (zm.heard (lineBytes tx' cs')).Hears tx' := by
  induction cs generalizing zm tx with
  | nil =>
      exact Or.inl ⟨zm, rx_empty h.ready hin, hin, h.ready.notCancelled, rfl⟩
  | cons c cs ih =>
      rw [lineBytes] at hin
      by_cases hbare : sentBare tx c
      · rw [rx_bare h hin hbare]
        exact ih (h.next c _) rfl
      · exact Or.inr ⟨c, _, cs, rx_txBytes h hin hbare, h.next c _⟩

/-- A header whose bytes are missing leaves a silent line. -/
theorem recvHeaderBytes_silent (n : ℕ) {cs : List UInt8} {zm tx : Zmodem} (h : zm.Hears tx)
    (hin : zm.input = lineBytes tx cs) (q : List UInt8)
    (hfalse : (recvHeaderBytes zmodemRx n zm q).1 = false) :
    (recvHeaderBytes zmodemRx n zm q).2.2.input = [] ∧
      (recvHeaderBytes zmodemRx n zm q).2.2.cancelled = false ∧
      (recvHeaderBytes zmodemRx n zm q).2.2.rxdHeaderLen = zm.rxdHeaderLen := by
  induction n generalizing cs zm tx q with
  | zero => exact absurd hfalse.symm Bool.false_ne_true
  | succ n ih =>
      rw [recvHeaderBytes] at hfalse ⊢
      rcases rx_run cs h hin with ⟨zm', hrx, hempty⟩ | ⟨c, tx', cs', hrx, hears⟩
      · rw [hrx]
        exact hempty
      · rw [hrx] at hfalse ⊢
        rw [if_neg (by omega)] at hfalse ⊢
        have hstored : ((zm.heard (lineBytes tx' cs')).withHeader
            (zm.rxdHeader.setIfInBounds q.length (UInt8.ofInt (c.toNat : ℤ)))).Hears tx' :=
          ⟨⟨hears.ready.notCancelled, hears.ready.fewCans⟩, hears.ctrl⟩
        exact ih hstored rfl _ hfalse

/-! ## Binary headers -/

/-- The bytes of a header as they are read. -/
theorem map_toNat_ofInt (p : List UInt8) :
    (p.map fun c : UInt8 ↦ (c.toNat : ℤ)).map UInt8.ofInt = p := by
  simp [Function.comp_def]

/-- The connection when a header was read and accepted. -/
structure Accepted (zm : Zmodem) (p : List UInt8) : Prop where
  header : zm.header = p
  len : zm.rxdHeaderLen = 5
  notCancelled : zm.cancelled = false

section Binary

variable {zm tx : Zmodem} (h : zm.Hears tx) {p cs : List UInt8} (hlen : p.length = hdrlen)

include h hlen

/-- The header itself is read and stored when nothing of it is lost. -/
theorem storedHeader_of_noneBare (hnone : NoneBare tx p) :
    ∃ v, recvHeaderBytes zmodemRx hdrlen (zm.heard (lineBytes tx (p ++ cs))) [] =
        (true, p, (zm.heard (lineBytes (p.foldl zmodemTx tx) cs)).withHeader v) ∧
      v.toList.take hdrlen = p := by
  have hreads := reads_lineBytes p h hnone (lineBytes (p.foldl zmodemTx tx) cs)
  rw [← lineBytes_append, hlen] at hreads
  have hall : ∀ c ∈ (reads zmodemRx hdrlen (zm.heard (lineBytes tx (p ++ cs)))).1, 0 ≤ c := by
    rw [hreads]
    simp
  have hread := recvHeaderBytes_of_read blind_zmodemRx hall
  have hheader := @header_stored zmodemRx (zm.heard (lineBytes tx (p ++ cs)))
      (storedHeader zmodemRx (zm.heard (lineBytes tx (p ++ cs)))) rfl
  rw [storedHeader] at hread hheader
  rw [hreads, map_toNat_ofInt] at hread hheader
  exact ⟨_, hread, hheader⟩

theorem recvBin16_of_noneBare (hnone : NoneBare tx (p ++ crc16Bytes (headerCrc16 p))) :
    ∃ z, zmodemRecvBin16Header
        (zm.heard (lineBytes tx (p ++ crc16Bytes (headerCrc16 p)))) = (true, z) ∧
      Accepted z p := by
  rw [noneBare_append] at hnone
  obtain ⟨v, hread, hheader⟩ :=
    @storedHeader_of_noneBare _ _ h _ (crc16Bytes (headerCrc16 p)) hlen hnone.1
  have hcrc := @rxdCrc16_eq _ _ (h.foldl p
    (lineBytes (p.foldl zmodemTx tx) (crc16Bytes (headerCrc16 p)))) _ []
      (by rw [List.append_nil]; rfl) hnone.2
  rw [zmodemRecvBin16Header, hread]
  dsimp only
  rw [recvBin16Crc, blind_rxdCrc16, hcrc]
  dsimp only
  rw [if_neg (not_not.mpr rfl)]
  exact ⟨_, rfl, hheader, rfl, h.ready.notCancelled⟩

theorem recvBin32_of_noneBare (hnone : NoneBare tx (p ++ crc32Bytes (headerCrc32 p))) :
    ∃ z, zmodemRecvBin32Header
        (zm.heard (lineBytes tx (p ++ crc32Bytes (headerCrc32 p)))) = (true, z) ∧
      Accepted z p := by
  rw [noneBare_append] at hnone
  obtain ⟨v, hread, hheader⟩ :=
    @storedHeader_of_noneBare _ _ h _ (crc32Bytes (headerCrc32 p)) hlen hnone.1
  have hcrc := @rxdCrc32_eq _ _ (h.foldl p
    (lineBytes (p.foldl zmodemTx tx) (crc32Bytes (headerCrc32 p)))) _ []
      (by rw [List.append_nil]; rfl) hnone.2
  rw [zmodemRecvBin32Header, hread]
  dsimp only
  rw [recvBin32Crc, blind_rxdCrc32, hcrc]
  dsimp only
  rw [if_neg (not_not.mpr rfl)]
  exact ⟨_, rfl, hheader, rfl, h.ready.notCancelled⟩

/-- A header that was read as it was sent has lost nothing, and the rest of the line
follows. -/
theorem noneBare_of_stored
    (hread : (reads zmodemRx hdrlen (zm.heard (lineBytes tx (p ++ cs)))).1.map UInt8.ofInt = p) :
    NoneBare tx p ∧ (reads zmodemRx hdrlen (zm.heard (lineBytes tx (p ++ cs)))).2 =
      zm.heard (lineBytes (p.foldl zmodemTx tx) cs) := by
  rw [← hlen] at hread ⊢
  have hnone := noneBare_of_reads p cs h hread
  have hreads := reads_lineBytes p h hnone (lineBytes (p.foldl zmodemTx tx) cs)
  rw [← lineBytes_append] at hreads
  exact ⟨hnone, by rw [hreads]⟩

/-- A binary header that was accepted is another one, or nothing of it was lost. -/
theorem noneBare_of_recvBin16
    (htrue : (zmodemRecvBin16Header
      (zm.heard (lineBytes tx (p ++ crc16Bytes (headerCrc16 p))))).1 = true)
    (hheader : (zmodemRecvBin16Header
      (zm.heard (lineBytes tx (p ++ crc16Bytes (headerCrc16 p))))).2.header = p) :
    NoneBare tx (p ++ crc16Bytes (headerCrc16 p)) := by
  by_cases hall : ∀ c ∈ (reads zmodemRx hdrlen
      (zm.heard (lineBytes tx (p ++ crc16Bytes (headerCrc16 p))))).1, 0 ≤ c
  · obtain ⟨hiff, hstored⟩ := recvBin16_of_read hall
    rw [hstored] at hheader
    obtain ⟨hnone, hrest⟩ := noneBare_of_stored h hlen hheader
    rw [hiff, hheader, hrest] at htrue
    rw [noneBare_append]
    exact ⟨hnone, noneBare_of_rxdCrc16 (h.foldl p _) rfl htrue⟩
  · rw [recvBin16_of_missing hall] at htrue
    exact absurd htrue Bool.false_ne_true

theorem noneBare_of_recvBin32
    (hall : ∀ c ∈ (reads zmodemRx hdrlen
      (zm.heard (lineBytes tx (p ++ crc32Bytes (headerCrc32 p))))).1, 0 ≤ c)
    (htrue : (zmodemRecvBin32Header
      (zm.heard (lineBytes tx (p ++ crc32Bytes (headerCrc32 p))))).1 = true)
    (hheader : (zmodemRecvBin32Header
      (zm.heard (lineBytes tx (p ++ crc32Bytes (headerCrc32 p))))).2.header = p) :
    NoneBare tx (p ++ crc32Bytes (headerCrc32 p)) := by
  obtain ⟨hiff, hstored⟩ := recvBin32_of_read hall
  rw [hstored] at hheader
  obtain ⟨hnone, hrest⟩ := noneBare_of_stored h hlen hheader
  rw [hiff, hheader, hrest] at htrue
  rw [noneBare_append]
  exact ⟨hnone, noneBare_of_rxdCrc32 (h.foldl p _) rfl htrue⟩

end Binary

/-! ## Headers in digits -/

/-- The digits of some bytes. -/
def hexBytes (p : List UInt8) : List UInt8 :=
  p.flatMap fun c : UInt8 ↦ [xdigit (c >>> 4), xdigit (c &&& 0xf)]

theorem output_foldl_hex (zm : Zmodem) (p : List UInt8) :
    (p.foldl zmodemSendHex zm).output = zm.output ++ hexBytes p := by
  induction p generalizing zm with
  | nil => simp [hexBytes]
  | cons c p ih =>
      rw [List.foldl_cons, ih]
      simp [hexBytes, zmodemSendHex, zmodemSendRaw]

theorem hexBytes_append (p q : List UInt8) : hexBytes (p ++ q) = hexBytes p ++ hexBytes q :=
  List.flatMap_append

/-- A digit means itself on the line. -/
theorem xdigit_plain (n : UInt8) (hn : n < 16) :
    xdigit n ≠ zdle ∧ isFlowCtrl (xdigit n) = false ∧
    (∀ esc, isSpurious esc (xdigit n) = false) ∧
      (if (0x39 : ℤ) < (xdigit n).toNat then
          if (xdigit n).toNat < (0x61 : ℤ) ∨ (0x66 : ℤ) < (xdigit n).toNat then -1
          else (xdigit n).toNat - (0x61 - 10 : ℤ)
        else if (xdigit n).toNat < (0x30 : ℤ) then -1 else (xdigit n).toNat - (0x30 : ℤ)) =
        (n.toNat : ℤ) := by
  revert hn
  revert n
  refine forall_uint8 ?_
  decide +kernel

theorem recvNibble_digit {zm : Zmodem} (h : zm.Ready) {n : UInt8} (hn : n < 16)
    {rest : List UInt8} (hin : zm.input = xdigit n :: rest) :
    zmodemRecvNibble zm = ((n.toNat : ℤ), zm.heard rest) := by
  obtain ⟨hdle, hflow, hspur, hvalue⟩ := xdigit_plain n hn
  rw [zmodemRecvNibble, rx_plain h hin hdle hflow (hspur _), ← hvalue]
  dsimp only
  rw [if_neg (by omega)]
  repeat' split
  all_goals rfl

theorem nibbles (c : UInt8) : c >>> 4 < 16 ∧ c &&& 0xf < 16 ∧
    ((c >>> 4).toNat : ℤ) * 16 + (c &&& 0xf).toNat = c.toNat := by
  revert c
  refine forall_uint8 ?_
  decide +kernel

theorem recvHex_digits {zm : Zmodem} (h : zm.cancelled = false) (c : UInt8) (rest : List UInt8) :
    zmodemRecvHex (zm.heard (xdigit (c >>> 4) :: xdigit (c &&& 0xf) :: rest)) =
      ((c.toNat : ℤ), zm.heard rest) := by
  obtain ⟨hhigh, hlow, hvalue⟩ := nibbles c
  have h₁ := @recvNibble_digit (zm.heard (xdigit (c >>> 4) :: xdigit (c &&& 0xf) :: rest))
      ⟨h, Nat.zero_lt_succ 3⟩ _ hhigh _ rfl
  have h₀ := @recvNibble_digit (zm.heard (xdigit (c &&& 0xf) :: rest)) ⟨h, Nat.zero_lt_succ 3⟩ _
      hlow _ rfl
  rw [zmodemRecvHex, h₁, Zmodem.heard_heard]
  dsimp only
  rw [if_neg (by omega), h₀, Zmodem.heard_heard]
  dsimp only
  rw [if_neg (by omega), hvalue]

theorem reads_hexBytes (p : List UInt8) {zm : Zmodem} (h : zm.cancelled = false)
    (rest : List UInt8) :
    reads zmodemRecvHex p.length (zm.heard (hexBytes p ++ rest)) =
      (p.map fun c ↦ (c.toNat : ℤ), zm.heard rest) := by
  induction p with
  | nil => rfl
  | cons c p ih =>
      have hdigits := recvHex_digits h c (hexBytes p ++ rest)
      rw [List.length_cons, reads]
      rw [show hexBytes (c :: p) ++ rest =
        xdigit (c >>> 4) :: xdigit (c &&& 0xf) :: (hexBytes p ++ rest) from rfl, hdigits]
      dsimp only
      rw [ih, List.map_cons]

/-- The end of the line behind a header. -/
def eolBytes (withXon : Bool) : List UInt8 := if withXon then [cr, lf, xon] else [cr, lf]

theorem rx_eol {zm : Zmodem} (h : zm.cancelled = false) (withXon : Bool)
    (hin : zm.input = eolBytes withXon) :
    let r := zmodemRx zm
    let z := if r.1 = cr.toNat then (zmodemRx r.2).2 else r.2
    z.cancelled = false ∧ z.rxdHeaderLen = zm.rxdHeaderLen := by
  have hcodes : cr ≠ zdle ∧ lf ≠ zdle ∧ xon ≠ zdle ∧ cr ≠ can ∧ lf ≠ can ∧ xon ≠ can := by decide
  obtain ⟨h1, h2, h3, h4, h5, h6⟩ := hcodes
  have hflow : isFlowCtrl cr = false ∧ isFlowCtrl lf = false ∧ isFlowCtrl xon = true := by decide
  have hspur : ∀ esc, isSpurious esc cr = esc ∧ isSpurious esc lf = esc := by decide
  have htimeout : ¬ timeout = (cr.toNat : ℤ) := by decide
  cases withXon <;> cases hesc : zm.escapeCtrlChars <;>
    simp [zmodemRx, hin, eolBytes, zmodemRxLoop, Zmodem.took, h, h1, h2, h3, h4, h5, h6, hflow,
      hspur, hesc, htimeout]

theorem storedHeader_of_digits {zm : Zmodem} (h : zm.cancelled = false) {p : List UInt8}
    (hlen : p.length = hdrlen) (rest : List UInt8) :
    ∃ v, recvHeaderBytes zmodemRecvHex hdrlen (zm.heard (hexBytes p ++ rest)) [] =
        (true, p, (zm.heard rest).withHeader v) ∧ v.toList.take hdrlen = p := by
  have hreads := reads_hexBytes p h rest
  rw [hlen] at hreads
  have hall : ∀ c ∈ (reads zmodemRecvHex hdrlen (zm.heard (hexBytes p ++ rest))).1, 0 ≤ c := by
    rw [hreads]
    simp
  have hread := recvHeaderBytes_of_read blind_zmodemRecvHex hall
  have hheader := @header_stored zmodemRecvHex (zm.heard (hexBytes p ++ rest))
      (storedHeader zmodemRecvHex (zm.heard (hexBytes p ++ rest))) rfl
  rw [storedHeader] at hread hheader
  rw [hreads, map_toNat_ofInt] at hread hheader
  exact ⟨_, hread, hheader⟩

theorem recvHex_accepted {zm : Zmodem} (h : zm.cancelled = false) {p : List UInt8}
    (hlen : p.length = hdrlen) (withXon : Bool) :
    ∃ z, zmodemRecvHexHeader
        (zm.heard (hexBytes (p ++ crc16Bytes (headerCrc16 p)) ++ eolBytes withXon)) = (true, z) ∧
      Accepted z p := by
  set crc := headerCrc16 p with hcrc
  obtain ⟨v, hread, hheader⟩ := storedHeader_of_digits h hlen
    (hexBytes (crc16Bytes crc) ++ eolBytes withXon)
  rw [← List.append_assoc, ← hexBytes_append] at hread
  have hhigh := recvHex_digits h (crc >>> 8).toUInt8
    (hexBytes [crc.toUInt8] ++ eolBytes withXon)
  have hlow := recvHex_digits h crc.toUInt8 (eolBytes withXon)
  have hend := @rx_eol { (zm.heard (eolBytes withXon)).withHeader v with rxdHeaderLen := 5 } h
      withXon rfl
  have hkept := fun z ↦ header_of_rxdHeader (blind_zmodemRx.rxdHeader z)
  have hfirst : zmodemRecvHex ((zm.heard (hexBytes (crc16Bytes crc) ++
      eolBytes withXon)).withHeader v) = (((crc >>> 8).toUInt8.toNat : ℤ),
        (zm.heard (hexBytes [crc.toUInt8] ++ eolBytes withXon)).withHeader v) := by
    rw [blind_zmodemRecvHex]
    exact congrArg (fun r : ℤ × Zmodem ↦ (r.1, r.2.withHeader v)) hhigh
  have hsecond : zmodemRecvHex ((zm.heard (hexBytes [crc.toUInt8] ++
      eolBytes withXon)).withHeader v) = ((crc.toUInt8.toNat : ℤ),
        (zm.heard (eolBytes withXon)).withHeader v) := by
    rw [blind_zmodemRecvHex]
    exact congrArg (fun r : ℤ × Zmodem ↦ (r.1, r.2.withHeader v)) hlow
  rw [zmodemRecvHexHeader, hread]
  dsimp only
  rw [recvHexCrc]
  rw [hfirst]
  dsimp only
  rw [if_neg (by omega), hsecond]
  dsimp only
  rw [if_neg (by omega), uint16_ofInt_toNat, uint16_ofInt_toNat, join16_bytes,
    if_neg (not_not.mpr hcrc)]
  dsimp only at hend
  split
  next hcr =>
    rw [if_pos hcr] at hend
    exact ⟨_, rfl, (hkept _).trans ((hkept _).trans hheader), hend.2, hend.1⟩
  next hcr =>
    rw [if_neg hcr] at hend
    exact ⟨_, rfl, (hkept _).trans hheader, hend.2, hend.1⟩

/-! ## What is sent -/

theorem output_zmodemSendHexHeader (zm : Zmodem) (p : List UInt8) :
    ∃ withXon, (zmodemSendHexHeader zm p).output = zm.output ++ (zpad :: zpad :: zdle :: zhex ::
      (hexBytes (p ++ crc16Bytes (headerCrc16 p)) ++ eolBytes withXon)) := by
  rw [zmodemSendHexHeader]
  split
  · refine ⟨true, ?_⟩
    simp only [zmodemSendRaw, output_foldl_hex, zmodemSendPaddedZdle, hexBytes_append, eolBytes]
    simp
  · refine ⟨false, ?_⟩
    simp only [zmodemSendRaw, output_foldl_hex, zmodemSendPaddedZdle, hexBytes_append, eolBytes]
    simp

/-- The state in which the bytes of a header are sent. -/
def afterPreamble (zm : Zmodem) (style : HeaderStyle) : Zmodem :=
  zmodemSendRaw (zmodemSendPaddedZdle zm) style.byte

theorem output_afterPreamble (zm : Zmodem) (style : HeaderStyle) :
    (afterPreamble zm style).output = zm.output ++ [zpad, zpad, zdle, style.byte] := by
  simp [afterPreamble, zmodemSendPaddedZdle, zmodemSendRaw]

theorem output_zmodemSendBin32Header (zm : Zmodem) (p : List UInt8) :
    (zmodemSendBin32Header zm p).output = zm.output ++ (zpad :: zpad :: zdle :: zbin32 ::
      lineBytes (afterPreamble zm .bin32) (p ++ crc32Bytes (headerCrc32 p))) := by
  rw [zmodemSendBin32Header, ← List.foldl_append, output_foldl]
  rw [show zmodemSendRaw (zmodemSendPaddedZdle zm) zbin32 = afterPreamble zm .bin32 from rfl,
    output_afterPreamble, List.append_assoc]
  rfl

/-- The wide checksum has the narrow one as its lower half. -/
theorem toUInt16_ucrc16Wide (c : UInt8) (crc : UInt32) :
    (ucrc16Wide c crc).toUInt16 = ucrc16 c crc.toUInt16 := by
  have hbyte : ((crc >>> 8) &&& 0xff : UInt32) = ((crc.toUInt16 >>> 8) &&& 0xff).toUInt32 := by
    have hmask : ∀ n : ℕ, n &&& 255 = n % 256 := fun n ↦ Nat.and_two_pow_sub_one_eq_mod n 8
    apply UInt32.toNat_inj.mp
    simp [hmask, Nat.shiftRight_eq_div_pow]
    omega
  have hindex : (((crc >>> 8) &&& 0xff) ^^^ c.toUInt32).toNat =
      (((crc.toUInt16 >>> 8) &&& 0xff) ^^^ c.toUInt16).toNat := by
    rw [hbyte, ← UInt8.toUInt32_toUInt16, ← UInt16.toUInt32_xor, UInt16.toNat_toUInt32]
  rw [ucrc16Wide, ucrc16, hindex, UInt32.toUInt16_xor, UInt16.toUInt16_toUInt32]
  congr 1
  apply UInt16.toBitVec_inj.mp
  apply BitVec.eq_of_getLsbD_eq
  intro i hi
  simp

theorem toUInt16_foldl_ucrc16Wide (p : List UInt8) (crc : UInt32) :
    (p.foldl (fun crc c ↦ ucrc16Wide c crc) crc).toUInt16 =
      p.foldl (fun crc c ↦ ucrc16 c crc) crc.toUInt16 := by
  induction p generalizing crc with
  | nil => rfl
  | cons c p ih => rw [List.foldl_cons, List.foldl_cons, ih, toUInt16_ucrc16Wide]

theorem crc16Bytes_toUInt16 (crc : UInt32) :
    crc16Bytes crc.toUInt16 = [(crc >>> 8).toUInt8, crc.toUInt8] := by
  rw [crc16Bytes, List.cons.injEq]
  refine ⟨?_, by rw [UInt32.toUInt8_toUInt16]⟩
  apply UInt8.toBitVec_inj.mp
  apply BitVec.eq_of_getLsbD_eq
  intro i hi
  simp [show 8 + i < 16 by omega]

theorem output_zmodemSendBin16Header (zm : Zmodem) (p : List UInt8) :
    (zmodemSendBin16Header zm p).output = zm.output ++ (zpad :: zpad :: zdle :: zbin ::
      lineBytes (afterPreamble zm .bin16) (p ++ crc16Bytes (headerCrc16 p))) := by
  rw [zmodemSendBin16Header, ← crc16Bytes_toUInt16, toUInt16_foldl_ucrc16Wide, ← List.foldl_append, output_foldl]
  rw [show zmodemSendRaw (zmodemSendPaddedZdle zm) zbin = afterPreamble zm .bin16 from rfl,
    output_afterPreamble, List.append_assoc]
  rfl

/-! ## Sent and received -/

/-- The checksum in the form in which it is sent. -/
def HeaderStyle.crcBytes (p : List UInt8) : HeaderStyle → List UInt8
  | .bin32 => crc32Bytes (headerCrc32 p)
  | _ => crc16Bytes (headerCrc16 p)

theorem recvHeaderRaw_accepted {errors : Bool} {zm z : Zmodem} {p : List UInt8}
    (freeSpace : UInt32) (hround : headerRound errors { zm with rxdHeaderLen := 0 } = (none, z))
    (hz : Accepted z p) : HeaderReceived (zmodemRecvHeaderRaw freeSpace zm errors) p := by
  have hlen : z.rxdHeaderLen ≠ 0 := by
    rw [hz.len]
    decide
  rw [zmodemRecvHeaderRaw, headerSearch_none hround hz.notCancelled hlen, ← hz.header]
  exact headerDone_received freeSpace z

theorem not_received_of_neg {r : ℤ × Zmodem} {p : List UInt8} (h : r.1 < 0) :
    ¬ HeaderReceived r p := by
  rintro ⟨-, htype | ⟨-, htype⟩⟩
  · omega
  · omega

theorem recvHeaderRaw_some {errors : Bool} {zm z : Zmodem} {c : ℤ} (freeSpace : UInt32)
    (hround : headerRound errors { zm with rxdHeaderLen := 0 } = (some c, z)) :
    zmodemRecvHeaderRaw freeSpace zm errors = (c, z) := by
  rw [zmodemRecvHeaderRaw, headerSearch_some hround]

/-- After a round that stored a header this header stays. -/
theorem recvHeaderRaw_header {errors : Bool} {zm z : Zmodem} (freeSpace : UInt32)
    (hround : headerRound errors { zm with rxdHeaderLen := 0 } = (none, z))
    (hlen : z.rxdHeaderLen = 5) : (zmodemRecvHeaderRaw freeSpace zm errors).2.header = z.header := by
  rw [zmodemRecvHeaderRaw, headerSearch, hround]
  dsimp only
  by_cases hcan : z.cancelled = true
  · rw [if_pos hcan]
  · rw [if_neg hcan, if_neg (by omega)]
    exact (headerDone_received freeSpace z).1

/-- A round that found nothing on a line that is silent now. -/
theorem recvHeaderRaw_silent {errors : Bool} {zm z : Zmodem} (freeSpace : UInt32)
    (hround : headerRound errors { zm with rxdHeaderLen := 0 } = (none, z))
    (hin : zm.input ≠ []) (hempty : z.input = []) (hcan : z.cancelled = false)
    (hlen : z.rxdHeaderLen = 0) : (zmodemRecvHeaderRaw freeSpace zm errors).1 = timeout := by
  obtain ⟨n, hn⟩ := Nat.exists_eq_succ_of_ne_zero (mt List.eq_nil_of_length_eq_zero hin)
  have hnext : headerRound errors z = (some timeout, z) := by
    rw [headerRound, hempty, skipToZpad]
    simp [hcan]
  rw [zmodemRecvHeaderRaw, headerSearch, hround]
  dsimp only
  rw [if_neg (by simp [hcan]), if_pos hlen, hn, headerSearch_some hnext]

theorem endHeader_false (errors fcs32 : Bool) {r : Bool × Zmodem} (h : r.1 = false) :
    endHeader errors fcs32 r = (some invhdr, r.2) := by
  rw [endHeader, h]
  rfl

theorem endHeader_true (errors fcs32 : Bool) {r : Bool × Zmodem} (h : r.1 = true)
    (hlen : r.2.rxdHeaderLen ≠ 0) :
    endHeader errors fcs32 r = (none, { r.2 with receive32bitData := fcs32 }) := by
  rw [endHeader, h, if_neg (by simp)]
  dsimp only
  rw [if_neg (by simp [hlen])]

theorem endHeader_empty (fcs32 : Bool) {r : Bool × Zmodem} (h : r.1 = true)
    (hlen : r.2.rxdHeaderLen = 0) :
    endHeader true fcs32 r = (some invhdr, { r.2 with receive32bitData := fcs32 }) := by
  rw [endHeader, h, if_neg (by simp)]
  dsimp only
  rw [if_pos ⟨rfl, hlen⟩]

theorem endHeader_again (fcs32 : Bool) {r : Bool × Zmodem} (h : r.1 = true) :
    endHeader false fcs32 r = (none, { r.2 with receive32bitData := fcs32 }) := by
  rw [endHeader, h, if_neg (by simp)]
  simp

/-- A 32-bit header whose bytes are missing. -/
theorem recvBin32_silent {zm tx : Zmodem} (h : zm.Hears tx) {cs : List UInt8}
    (hin : zm.input = lineBytes tx cs)
    (hmiss : ¬ ∀ c ∈ (reads zmodemRx hdrlen zm).1, 0 ≤ c) :
    (zmodemRecvBin32Header zm).2.input = [] ∧ (zmodemRecvBin32Header zm).2.cancelled = false ∧
      (zmodemRecvBin32Header zm).2.rxdHeaderLen = zm.rxdHeaderLen := by
  rcases recvHeaderBytes_cases blind_zmodemRx hdrlen zm [] with ⟨hall, -⟩ | ⟨-, hfalse⟩
  · exact absurd hall hmiss
  · have hsilent := recvHeaderBytes_silent hdrlen h hin [] hfalse
    rw [zmodemRecvBin32Header]
    generalize recvHeaderBytes zmodemRx hdrlen zm [] = r at hfalse hsilent
    obtain ⟨b, p, zm'⟩ := r
    obtain rfl : b = false := hfalse
    exact hsilent

section Delivered

variable (errors : Bool) (freeSpace : UInt32) (tx rx : Zmodem) {p : List UInt8}
  (hlen : p.length = hdrlen)

/-- The receiver when the preamble has been read. -/
theorem delivered_hears (tx' : Zmodem) (style : HeaderStyle) :
    ({ rx.delivered tx tx' with rxdHeaderLen := 0, nCans := 0 } : Zmodem).Hears
      (afterPreamble tx style) :=
  ⟨⟨rfl, Nat.zero_lt_succ 3⟩, rfl⟩

theorem headerRound_delivered {tx' : Zmodem} {style : HeaderStyle} {rest : List UInt8}
    (hout : tx'.output = tx.output ++ (zpad :: zpad :: zdle :: style.byte :: rest)) :
    headerRound errors { rx.delivered tx tx' with rxdHeaderLen := 0 } =
      recvStyle errors
        (({ rx.delivered tx tx' with rxdHeaderLen := 0, nCans := 0 } : Zmodem).heard rest) style :=
  headerRound_preamble errors style rfl (by simp [Zmodem.delivered, hout])

include hlen

theorem received_hex :
    HeaderReceived
      (zmodemRecvHeaderRaw freeSpace (rx.delivered tx (zmodemSendHexHeader tx p)) errors) p := by
  obtain ⟨withXon, hout⟩ := output_zmodemSendHexHeader tx p
  have hround := @headerRound_delivered errors tx rx _ .hex _ hout
  obtain ⟨z, hrecv, hz⟩ := @recvHex_accepted
      { rx.delivered tx (zmodemSendHexHeader tx p) with rxdHeaderLen := 0, nCans := 0 } rfl _ hlen
      withXon
  rw [recvStyle, hrecv, endHeader_true _ _ rfl (by rw [hz.len]; decide)] at hround
  exact recvHeaderRaw_accepted freeSpace hround ⟨hz.header, hz.len, hz.notCancelled⟩

theorem received_bin16_iff :
    HeaderReceived
        (zmodemRecvHeaderRaw freeSpace (rx.delivered tx (zmodemSendBin16Header tx p)) errors) p ↔
      NoneBare (afterPreamble tx .bin16) (p ++ crc16Bytes (headerCrc16 p)) := by
  have hears := delivered_hears tx rx (zmodemSendBin16Header tx p) .bin16
  have hround := @headerRound_delivered errors tx rx _ .bin16 _ (output_zmodemSendBin16Header tx p)
  rw [recvStyle] at hround
  constructor
  · intro hrecv
    cases htrue : (zmodemRecvBin16Header _).1 with
    | false =>
        rw [endHeader_false _ _ htrue] at hround
        rw [recvHeaderRaw_some freeSpace hround] at hrecv
        exact absurd hrecv (not_received_of_neg (by change invhdr < 0; decide))
    | true =>
        refine noneBare_of_recvBin16 hears hlen htrue ?_
        have hfive := recvBin16_len htrue
        rw [endHeader_true _ _ htrue (by rw [hfive]; decide)] at hround
        exact (recvHeaderRaw_header freeSpace hround hfive).symm.trans hrecv.1
  · intro hnone
    obtain ⟨z, hrecv, hz⟩ := recvBin16_of_noneBare hears hlen hnone
    rw [hrecv, endHeader_true _ _ rfl (by rw [hz.len]; decide)] at hround
    exact recvHeaderRaw_accepted freeSpace hround ⟨hz.header, hz.len, hz.notCancelled⟩

theorem received_bin32_iff :
    HeaderReceived
        (zmodemRecvHeaderRaw freeSpace (rx.delivered tx (zmodemSendBin32Header tx p)) errors) p ↔
      NoneBare (afterPreamble tx .bin32) (p ++ crc32Bytes (headerCrc32 p)) := by
  have hears := delivered_hears tx rx (zmodemSendBin32Header tx p) .bin32
  have hround := @headerRound_delivered errors tx rx _ .bin32 _ (output_zmodemSendBin32Header tx p)
  rw [recvStyle] at hround
  constructor
  · intro hrecv
    by_cases hall : ∀ c ∈ (reads zmodemRx hdrlen
        (({ rx.delivered tx (zmodemSendBin32Header tx p) with
            rxdHeaderLen := 0, nCans := 0 } : Zmodem).heard
          (lineBytes (afterPreamble tx .bin32) (p ++ crc32Bytes (headerCrc32 p))))).1, 0 ≤ c
    · cases htrue : (zmodemRecvBin32Header _).1 with
      | false =>
          rw [endHeader_false _ _ htrue] at hround
          rw [recvHeaderRaw_some freeSpace hround] at hrecv
          exact absurd hrecv (not_received_of_neg (by change invhdr < 0; decide))
      | true =>
          refine noneBare_of_recvBin32 hears hlen hall htrue ?_
          have hfive := recvBin32_len hall htrue
          rw [endHeader_true _ _ htrue (by rw [hfive]; decide)] at hround
          exact (recvHeaderRaw_header freeSpace hround hfive).symm.trans hrecv.1
    · refine absurd hrecv (not_received_of_neg ?_)
      obtain ⟨hempty, hcan, hzero⟩ := recvBin32_silent (hears.heard _) rfl hall
      cases errors with
      | true =>
          rw [endHeader_empty _ (recvBin32_of_missing hall) hzero] at hround
          rw [recvHeaderRaw_some freeSpace hround]
          change invhdr < 0
          decide
      | false =>
          rw [endHeader_again _ (recvBin32_of_missing hall)] at hround
          rw [recvHeaderRaw_silent freeSpace hround ?_ hempty hcan hzero]
          · decide
          · simp [Zmodem.delivered, output_zmodemSendBin32Header]
  · intro hnone
    obtain ⟨z, hrecv, hz⟩ := recvBin32_of_noneBare hears hlen hnone
    rw [hrecv, endHeader_true _ _ rfl (by rw [hz.len]; decide)] at hround
    exact recvHeaderRaw_accepted freeSpace hround ⟨hz.header, hz.len, hz.notCancelled⟩

omit hlen in
/-- A header of a binary style is sent behind a byte that is no `@`. -/
theorem noneBare_afterPreamble_iff (style : HeaderStyle) (bs : List UInt8) :
    NoneBare (afterPreamble tx style) bs ↔
      tx.escapeCtrlChars = false ∨ CrsBehindAt false bs := by
  have hlast : decide ((afterPreamble tx style).lastSent &&& 0x7f = 0x40) = false := by
    change decide (style.byte &&& 0x7f = 0x40) = false
    cases style <;> decide
  rw [noneBare_iff, hlast]
  rfl

/-- Which headers are received as they were sent. -/
theorem received_iff (style : HeaderStyle) :
    HeaderReceived
        (zmodemRecvHeaderRaw freeSpace (rx.delivered tx (sendHeader style tx p)) errors) p ↔
      style = .hex ∨ tx.escapeCtrlChars = false ∨ CrsBehindAt false (p ++ style.crcBytes p) := by
  cases style with
  | hex => exact iff_of_true (received_hex errors freeSpace tx rx hlen) (Or.inl rfl)
  | bin16 =>
      rw [sendHeader, received_bin16_iff errors freeSpace tx rx hlen, noneBare_afterPreamble_iff]
      simp [HeaderStyle.crcBytes]
  | bin32 =>
      rw [sendHeader, received_bin32_iff errors freeSpace tx rx hlen, noneBare_afterPreamble_iff]
      simp [HeaderStyle.crcBytes]

end Delivered

/-- Headers are received as they were sent when they are sent in digits, when control
characters are not to be escaped, or when every carriage return in them follows a byte that
goes out as an `@`.  What the receivers check is the whole header and its checksum, but for
a binary one whose checksum was cut off and looks right with ones in the place of its
missing bytes, and a 32-bit one that was cut off before its checksum. -/
theorem headers_iff (style : HeaderStyle) (tx rx zm : Zmodem) (type b₀ b₁ b₂ b₃ : UInt8)
    (errors : Bool) (freeSpace : UInt32) :
    (HeaderReceived
          (zmodemRecvHeaderRaw freeSpace
            (rx.delivered tx (sendHeader style tx [type, b₀, b₁, b₂, b₃])) errors)
          [type, b₀, b₁, b₂, b₃] ↔
        style = .hex ∨ tx.escapeCtrlChars = false ∨
          CrsBehindAt false
            ([type, b₀, b₁, b₂, b₃] ++ style.crcBytes [type, b₀, b₁, b₂, b₃])) ∧
      HexSound zm ∧
      (Bin16Sound zm ↔ ¬ CutInCrc16 (reads zmodemRx (hdrlen + 2) zm).1) ∧
      (Bin32Sound zm ↔
        (∀ c ∈ (reads zmodemRx hdrlen zm).1, 0 ≤ c) ∧
          ¬ CutInCrc32 (reads zmodemRx (hdrlen + 4) zm).1) :=
  ⟨received_iff errors freeSpace tx rx rfl style, hexSound zm, bin16Sound_iff zm,
    bin32Sound_iff zm⟩

/-- A 32-bit header of which not a byte comes is taken for a header. -/
theorem not_headers_sound :
    ¬ ∀ (style : HeaderStyle) (tx rx zm : Zmodem) (type b₀ b₁ b₂ b₃ : UInt8) (errors : Bool)
        (freeSpace : UInt32),
      HeaderReceived
          (zmodemRecvHeaderRaw freeSpace
            (rx.delivered tx (sendHeader style tx [type, b₀, b₁, b₂, b₃])) errors)
          [type, b₀, b₁, b₂, b₃] ∧
        HexSound zm ∧ Bin16Sound zm ∧ Bin32Sound zm := by
  intro hall
  have hgenuine := (hall .hex {} {} {} 0 0 0 0 0 false 0).2.2.2 (by decide)
  exact absurd (hgenuine.1 timeout (by decide)) (by decide)

end Synchronet.Sbbs3
