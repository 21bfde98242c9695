import Synchronet.Smblib.Crc
import Synchronet.Sbbs3.ZmodemLine

/-!
# ZMODEM data subpackets (zmodem.c)

A subpacket is a run of bytes, its end with the type of the subpacket, and a checksum
over both.  What is sent is received again, except for carriage returns when control
characters should be escaped: the sender leaves most of them as they are, and the
receiver drops them.
-/

namespace Synchronet.Sbbs3

open Words Smblib

/-! ## The code -/

/-- The width of the checksum. -/
inductive Fcs
  | fcs16
  | fcs32
  deriving DecidableEq, Repr

def dataCrc16 (subpktType : UInt8) (p : List UInt8) : UInt16 :=
  ucrc16 subpktType (p.foldl (fun crc c ↦ ucrc16 c crc) 0)

def dataCrc32 (subpktType : UInt8) (p : List UInt8) : UInt32 :=
  ~~~ ucrc32 subpktType (p.foldl (fun crc c ↦ ucrc32 c crc) 0xffffffff)

/-- The bytes of a checksum in the order in which they are sent. -/
def crc16Bytes (crc : UInt16) : List UInt8 := [(crc >>> 8).toUInt8, crc.toUInt8]

def crc32Bytes (crc : UInt32) : List UInt8 :=
  [crc.toUInt8, (crc >>> 8).toUInt8, (crc >>> 16).toUInt8, (crc >>> 24).toUInt8]

def dataCrcBytes (w : Fcs) (subpktType : UInt8) (p : List UInt8) : List UInt8 :=
  match w with
  | .fcs16 => crc16Bytes (dataCrc16 subpktType p)
  | .fcs32 => crc32Bytes (dataCrc32 subpktType p)

/-- The end of the data: the type of the subpacket is not escaped. -/
def sendSubpktEnd (zm : Zmodem) (subpktType : UInt8) : Zmodem :=
  zmodemSendRaw (zmodemSendRaw zm zdle) subpktType

def sendData (w : Fcs) (zm : Zmodem) (subpktType : UInt8) (p : List UInt8) : Zmodem :=
  (dataCrcBytes w subpktType p).foldl zmodemTx (sendSubpktEnd (p.foldl zmodemTx zm) subpktType)

def zmodemSendData16 : Zmodem → UInt8 → List UInt8 → Zmodem := sendData .fcs16

def zmodemSendData32 : Zmodem → UInt8 → List UInt8 → Zmodem := sendData .fcs32

/-- The loop over the data, with room for some more bytes behind `p`: the type that
ended it, or the result that the receiver gives up with. -/
def recvBytes (room : ℕ) (zm : Zmodem) (p : List UInt8) : Except ℤ UInt8 × List UInt8 × Zmodem :=
  let r := zmodemRx zm
  if r.1 < 0 then (.error r.1, p, r.2)
  else if 0xff < r.1 then (.ok (UInt8.ofInt r.1), p, r.2)
  else
    match room with
    | 0 => (.error subpktoverflow, p, r.2)
    | room + 1 => recvBytes room r.2 (p ++ [UInt8.ofInt r.1])

/-- The checksum as it is read; its bytes are not looked at one by one. -/
def rxdCrc16 (zm : Zmodem) : UInt16 × Zmodem :=
  let r₀ := zmodemRx zm
  let r₁ := zmodemRx r₀.2
  (join16 (UInt16.ofInt r₀.1) (UInt16.ofInt r₁.1), r₁.2)

def rxdCrc32 (zm : Zmodem) : UInt32 × Zmodem :=
  let r₀ := zmodemRx zm
  let r₁ := zmodemRx r₀.2
  let r₂ := zmodemRx r₁.2
  let r₃ := zmodemRx r₂.2
  (join32 (UInt32.ofInt r₀.1) (UInt32.ofInt r₁.1) (UInt32.ofInt r₂.1) (UInt32.ofInt r₃.1), r₃.2)

/-- Whether the checksum that follows is that of the data. -/
def checkDataCrc (w : Fcs) (zm : Zmodem) (subpktType : UInt8) (p : List UInt8) : Bool × Zmodem :=
  match w with
  | .fcs16 => let r := rxdCrc16 zm; (r.1 = dataCrc16 subpktType p, r.2)
  | .fcs32 => let r := rxdCrc32 zm; (r.1 = dataCrc32 subpktType p, r.2)

/-- The type of the subpacket or an error, and the data that was stored. -/
def recvData (w : Fcs) (zm : Zmodem) (maxlen : ℕ) : ℤ × List UInt8 × Zmodem :=
  match recvBytes maxlen zm [] with
  | (.error c, p, zm) => (c, p, zm)
  | (.ok subpktType, p, zm) =>
      let r := checkDataCrc w zm subpktType p
      if r.1 then
        (subpktType.toNat, p,
          { r.2 with ackFilePos := r.2.ackFilePos + UInt32.ofNat p.length })
      else (crcfailed, p, r.2)

def zmodemRecvData16 : Zmodem → ℕ → ℤ × List UInt8 × Zmodem := recvData .fcs16

def zmodemRecvData32 : Zmodem → ℕ → ℤ × List UInt8 × Zmodem := recvData .fcs32

/-! ## Runs of bytes on the line -/

/-- What `zmodem_tx` puts on the line for a run of bytes. -/
def lineBytes : Zmodem → List UInt8 → List UInt8
  | _, [] => []
  | zm, c :: cs => txBytes zm c ++ lineBytes (zmodemTx zm c) cs

/-- No carriage return of the run is sent bare. -/
def NoneBare : Zmodem → List UInt8 → Prop
  | _, [] => True
  | zm, c :: cs => ¬ sentBare zm c ∧ NoneBare (zmodemTx zm c) cs

/-- The bytes of a run that the receiver hears. -/
def heardBytes : Zmodem → List UInt8 → List UInt8
  | _, [] => []
  | zm, c :: cs =>
      if sentBare zm c then heardBytes (zmodemTx zm c) cs
      else c :: heardBytes (zmodemTx zm c) cs

@[simp] theorem escapeCtrlChars_zmodemTx (zm : Zmodem) (c : UInt8) :
    (zmodemTx zm c).escapeCtrlChars = zm.escapeCtrlChars := by
  rw [zmodemTx_eq]

theorem escapeCtrlChars_foldl (zm : Zmodem) (p : List UInt8) :
    (p.foldl zmodemTx zm).escapeCtrlChars = zm.escapeCtrlChars := by
  induction p generalizing zm with
  | nil => rfl
  | cons c p ih => rw [List.foldl_cons, ih, escapeCtrlChars_zmodemTx]

theorem output_foldl (zm : Zmodem) (p : List UInt8) :
    (p.foldl zmodemTx zm).output = zm.output ++ lineBytes zm p := by
  induction p generalizing zm with
  | nil => simp [lineBytes]
  | cons c p ih =>
      rw [List.foldl_cons, ih, lineBytes, zmodemTx_eq]
      simp

theorem length_heardBytes_le (zm : Zmodem) (p : List UInt8) :
    (heardBytes zm p).length ≤ p.length := by
  induction p generalizing zm with
  | nil => exact le_refl _
  | cons c p ih =>
      have := ih (zmodemTx zm c)
      rw [heardBytes]
      split
      · rw [List.length_cons]
        omega
      · rw [List.length_cons, List.length_cons]
        omega

/-- Every carriage return follows a byte that is sent as an `@`, or with one behind the
`ZDLE`; `behindAt` says whether the byte before the run was one. -/
def CrsBehindAt : Bool → List UInt8 → Prop
  | _, [] => True
  | behindAt, c :: cs =>
      ((c = cr ∨ c = cr ||| 0x80) → behindAt = true) ∧ CrsBehindAt (c &&& 0x3f = 0) cs

instance : ∀ (behindAt : Bool) (p : List UInt8), Decidable (CrsBehindAt behindAt p)
  | _, [] => isTrue trivial
  | behindAt, c :: cs => by
      have := instDecidableCrsBehindAt (c &&& 0x3f = 0) cs
      unfold CrsBehindAt
      infer_instance

theorem escaped_at (c : UInt8) (h : alwaysEscaped c = true ∨ c &&& 0x60 = 0) :
    (c ^^^ 0x40) &&& 0x7f = 0x40 ↔ c &&& 0x3f = 0 := by
  revert h
  revert c
  refine forall_uint8 ?_
  decide +kernel

theorem plain_at (c : UInt8) (h : c &&& 0x60 ≠ 0 ∨ c = cr ∨ c = cr ||| 0x80) :
    c &&& 0x7f = 0x40 ↔ c &&& 0x3f = 0 := by
  revert h
  revert c
  refine forall_uint8 ?_
  decide +kernel

/-- The byte before a carriage return decides whether it is escaped. -/
theorem lastSent_zmodemTx_at {zm : Zmodem} (hesc : zm.escapeCtrlChars = true) (c : UInt8) :
    (zmodemTx zm c).lastSent &&& 0x7f = 0x40 ↔ c &&& 0x3f = 0 := by
  rw [zmodemTx_eq]
  dsimp only
  rcases txBytes_cases zm c with ⟨hc, -, hbytes⟩ | ⟨rfl, -, hbytes⟩ | ⟨hbytes, -, -, hspur⟩
  · rw [hbytes]
    exact escaped_at c hc
  · rw [hbytes]
    decide
  · rw [hbytes]
    refine plain_at c ?_
    by_cases hctrl : c &&& 0x60 = 0
    · exact Or.inr (hspur.mp (by simp [isSpurious, hesc, hctrl])).1
    · exact Or.inl hctrl

theorem noneBare_iff (zm : Zmodem) (p : List UInt8) :
    NoneBare zm p ↔
      zm.escapeCtrlChars = false ∨ CrsBehindAt (zm.lastSent &&& 0x7f = 0x40) p := by
  induction p generalizing zm with
  | nil => simp [NoneBare, CrsBehindAt]
  | cons c p ih =>
      rw [NoneBare, ih, escapeCtrlChars_zmodemTx, CrsBehindAt]
      cases hesc : zm.escapeCtrlChars with
      | false => simp [sentBare, hesc]
      | true => simp [sentBare, hesc, lastSent_zmodemTx_at hesc]

/-- Everything is heard exactly when nothing is sent bare. -/
theorem heardBytes_eq_iff (zm : Zmodem) (p : List UInt8) : heardBytes zm p = p ↔ NoneBare zm p := by
  induction p generalizing zm with
  | nil => exact iff_of_true rfl trivial
  | cons c p ih =>
      rw [heardBytes, NoneBare]
      by_cases hbare : sentBare zm c
      · rw [if_pos hbare]
        refine iff_of_false (fun heq ↦ ?_) (fun hn ↦ hn.1 hbare)
        have hle := length_heardBytes_le (zmodemTx zm c) p
        rw [heq, List.length_cons] at hle
        omega
      · rw [if_neg hbare, List.cons.injEq, ih]
        simp [hbare]

/-! ## Receiving a run -/

theorem recvBytes_eq_of_rx {zm zm' : Zmodem} (h : zmodemRx zm = zmodemRx zm') (room : ℕ)
    (p : List UInt8) : recvBytes room zm p = recvBytes room zm' p := by
  rw [recvBytes.eq_def, recvBytes.eq_def, h]

/-- The data is read up to its end; what was heard of it is stored. -/
theorem recvBytes_lineBytes {t : UInt8} (ht : t = zcrce ∨ t = zcrcg ∨ t = zcrcq ∨ t = zcrcw)
    {rest : List UInt8} (p : List UInt8) {tx zm : Zmodem} (h : zm.Hears tx) {room : ℕ}
    (hroom : (heardBytes tx p).length ≤ room) (acc : List UInt8)
    (hin : zm.input = lineBytes tx p ++ zdle :: t :: rest) :
    recvBytes room zm acc = (.ok t, acc ++ heardBytes tx p, zm.heard rest) := by
  induction p generalizing tx zm room acc with
  | nil =>
      have hlow : UInt8.ofInt ((t.toNat : ℤ) + zdleesc) = t := by
        rcases ht with rfl | rfl | rfl | rfl <;> decide
      rw [recvBytes.eq_def, rx_subpktEnd h.ready hin ht]
      dsimp only
      rw [if_neg (by simp only [zdleesc]; omega), if_pos (by simp only [zdleesc]; omega), hlow,
        heardBytes, List.append_nil]
  | cons c p ih =>
      rw [lineBytes, List.append_assoc] at hin
      rw [heardBytes] at hroom ⊢
      by_cases hbare : sentBare tx c
      · rw [if_pos hbare] at hroom ⊢
        rw [recvBytes_eq_of_rx (rx_bare h hin hbare)]
        exact ih (h.next c _) hroom acc rfl
      · rw [if_neg hbare] at hroom ⊢
        rw [List.length_cons] at hroom
        obtain ⟨room, rfl⟩ : ∃ r, room = r + 1 := ⟨room - 1, by omega⟩
        have hlt : c.toNat < 256 := UInt8.toNat_lt c
        have hrec := ih (h.next c _) (by omega : _ ≤ room) (acc ++ [c]) rfl
        rw [recvBytes.eq_def, rx_txBytes h hin hbare]
        dsimp only
        rw [if_neg (by omega), if_neg (by omega), uint8_ofInt_toNat, hrec, List.append_assoc,
          Zmodem.heard_heard]
        rfl

section Hear

variable {zm tx : Zmodem} (h : zm.Hears tx)

include h

/-- Bytes that are all heard are received one after the other. -/
theorem rx_lineBytes_cons {c : UInt8} {cs rest : List UInt8}
    (hin : zm.input = lineBytes tx (c :: cs) ++ rest) (hbare : ¬ sentBare tx c) :
    zmodemRx zm = ((c.toNat : ℤ), zm.heard (lineBytes (zmodemTx tx c) cs ++ rest)) := by
  rw [lineBytes, List.append_assoc] at hin
  exact rx_txBytes h hin hbare

omit h in
theorem lastSent_of_bare {c : UInt8} (hbare : sentBare tx c) : (zmodemTx tx c).lastSent = c := by
  rcases txBytes_cases tx c with ⟨-, hnot, -⟩ | ⟨-, hnot, -⟩ | ⟨hbytes, -⟩
  · exact absurd hbare hnot
  · exact absurd hbare hnot
  · rw [zmodemTx_eq, hbytes]
    rfl

/-- Behind a bare carriage return no carriage return is heard: what comes next is another
byte, or the end of the line. -/
theorem rx_after_bare {cs : List UInt8} (hin : zm.input = lineBytes tx cs)
    (hesc : tx.escapeCtrlChars = true) (hlast : tx.lastSent &&& 0x7f ≠ 0x40) {b : UInt8}
    (hb : b = cr ∨ b = cr ||| 0x80) : UInt8.ofInt (zmodemRx zm).1 ≠ b := by
  induction cs generalizing tx zm with
  | nil =>
      rw [rx_empty h.ready (by simpa [lineBytes] using hin)]
      change UInt8.ofInt timeout ≠ b
      rcases hb with rfl | rfl <;> decide
  | cons c cs ih =>
      rw [lineBytes] at hin
      by_cases hbare : sentBare tx c
      · rw [rx_bare h hin hbare]
        refine ih (h.next c _) rfl (by rw [escapeCtrlChars_zmodemTx]; exact hesc) ?_
        rw [lastSent_of_bare hbare]
        rcases hbare.1 with rfl | rfl <;> decide
      · rw [rx_txBytes h hin hbare]
        dsimp only
        rw [uint8_ofInt_toNat]
        rintro rfl
        exact hbare ⟨hb, hesc, hlast⟩

/-- A byte that comes through was not sent bare, and the next one follows. -/
theorem rx_step {c : UInt8} {cs : List UInt8} (hin : zm.input = lineBytes tx (c :: cs))
    (hrx : UInt8.ofInt (zmodemRx zm).1 = c) :
    ¬ sentBare tx c ∧
      zmodemRx zm = ((c.toNat : ℤ), zm.heard (lineBytes (zmodemTx tx c) cs)) := by
  by_cases hbare : sentBare tx c
  · rw [lineBytes] at hin
    rw [rx_bare h hin hbare] at hrx
    refine absurd hrx (rx_after_bare (h.next c _) rfl ?_ ?_ hbare.1)
    · rw [escapeCtrlChars_zmodemTx]
      exact hbare.2.1
    · rw [lastSent_of_bare hbare]
      rcases hbare.1 with rfl | rfl <;> decide
  · have hrx := @rx_lineBytes_cons _ _ h _ _ [] (by rw [List.append_nil]; exact hin) hbare
    rw [List.append_nil] at hrx
    exact ⟨hbare, hrx⟩

/-! ## Checksums -/

theorem rxdCrc16_eq {crc : UInt16} {rest : List UInt8}
    (hin : zm.input = lineBytes tx (crc16Bytes crc) ++ rest)
    (hnone : NoneBare tx (crc16Bytes crc)) : rxdCrc16 zm = (crc, zm.heard rest) := by
  obtain ⟨h₀, h₁, -⟩ := hnone
  have r₀ := rx_lineBytes_cons h hin h₀
  have r₁ := @rx_lineBytes_cons _ _ (h.next (crc >>> 8).toUInt8 _) _ [] rest rfl h₁
  rw [rxdCrc16]
  simp only [r₀, r₁, uint16_ofInt_toNat, join16_bytes, Zmodem.heard_heard]
  rfl

theorem rxdCrc32_eq {crc : UInt32} {rest : List UInt8}
    (hin : zm.input = lineBytes tx (crc32Bytes crc) ++ rest)
    (hnone : NoneBare tx (crc32Bytes crc)) : rxdCrc32 zm = (crc, zm.heard rest) := by
  obtain ⟨h₀, h₁, h₂, h₃, -⟩ := hnone
  have r₀ := rx_lineBytes_cons h hin h₀
  have hn₁ := h.next crc.toUInt8
  have r₁ := @rx_lineBytes_cons _ _ (hn₁ _) _ [(crc >>> 16).toUInt8, (crc >>> 24).toUInt8] rest rfl
      h₁
  have hn₂ := (hn₁ []).next (crc >>> 8).toUInt8
  have r₂ := @rx_lineBytes_cons _ _ (hn₂ _) _ [(crc >>> 24).toUInt8] rest rfl h₂
  have hn₃ := (hn₂ []).next (crc >>> 16).toUInt8
  have r₃ := @rx_lineBytes_cons _ _ (hn₃ _) _ [] rest rfl h₃
  rw [rxdCrc32]
  simp only [Zmodem.heard_heard] at r₁ r₂ r₃
  simp only [r₀, r₁, r₂, r₃, uint32_ofInt_toNat, join32_bytes]
  rfl

/-- The end of a run that has been received: nothing is left but a timeout. -/
theorem rx_last {c : UInt8} (hin : zm.input = lineBytes tx [c]) :
    (zmodemRx (zmodemRx zm).2).1 = timeout ∧
      (sentBare tx c → (zmodemRx zm).1 = timeout) := by
  have hnext := h.next c []
  have hend := rx_empty hnext.ready rfl
  rw [lineBytes, lineBytes] at hin
  by_cases hbare : sentBare tx c
  · rw [rx_bare h hin hbare, hend, hend]
    exact ⟨rfl, fun _ ↦ rfl⟩
  · rw [rx_txBytes h hin hbare]
    dsimp only
    rw [hend]
    exact ⟨rfl, fun hb ↦ absurd hb hbare⟩

/-- Two bytes of which one is lost: the second read times out, and the checksum that is
put together ends with all ones. -/
theorem noneBare_of_rxdCrc16 {crc : UInt16} (hin : zm.input = lineBytes tx (crc16Bytes crc))
    (hcrc : (rxdCrc16 zm).1 = crc) : NoneBare tx (crc16Bytes crc) := by
  by_contra hnot
  have hlate : (zmodemRx (zmodemRx zm).2).1 = timeout := by
    by_cases hbare : sentBare tx (crc >>> 8).toUInt8
    · rw [crc16Bytes, lineBytes] at hin
      rw [rx_bare h hin hbare]
      exact (rx_last (h.next _ _) rfl).1
    · have hlow : sentBare (zmodemTx tx (crc >>> 8).toUInt8) crc.toUInt8 := by
        by_contra hlow
        exact hnot ⟨hbare, hlow, trivial⟩
      rw [crc16Bytes, lineBytes] at hin
      rw [rx_txBytes h hin hbare]
      exact (rx_last (h.next _ _) rfl).2 hlow
  rw [rxdCrc16] at hcrc
  dsimp only at hcrc
  rw [hlate, timeout, join16_ones] at hcrc
  subst hcrc
  refine hnot ⟨fun hbare ↦ ?_, fun hbare ↦ ?_, trivial⟩
  · exact absurd hbare.1 (by decide)
  · exact absurd hbare.1 (by decide)

omit h in
/-- `rx_step` for what is left of a run. -/
theorem rx_step_heard (hready : zm.Ready) (hctrl : zm.escapeCtrlChars = tx.escapeCtrlChars)
    {c : UInt8} {cs : List UInt8}
    (hrx : UInt8.ofInt (zmodemRx (zm.heard (lineBytes tx (c :: cs)))).1 = c) :
    ¬ sentBare tx c ∧ zmodemRx (zm.heard (lineBytes tx (c :: cs))) =
      ((c.toNat : ℤ), zm.heard (lineBytes (zmodemTx tx c) cs)) :=
  @rx_step (zm.heard _) _ ⟨⟨hready.notCancelled, Nat.zero_lt_succ 3⟩, hctrl⟩ _ _ rfl hrx

theorem noneBare_of_rxdCrc32 {crc : UInt32} (hin : zm.input = lineBytes tx (crc32Bytes crc))
    (hcrc : (rxdCrc32 zm).1 = crc) : NoneBare tx (crc32Bytes crc) := by
  rw [rxdCrc32] at hcrc
  dsimp only at hcrc
  have hb₀ := congrArg UInt32.toUInt8 hcrc
  rw [join32_byte0, toUInt8_uint32_ofInt] at hb₀
  obtain ⟨h₀, r₀⟩ := rx_step h hin hb₀
  simp only [r₀, uint32_ofInt_toNat] at hcrc
  have hb₁ := congrArg (fun x : UInt32 ↦ (x >>> 8).toUInt8) hcrc
  rw [join32_byte1, toUInt8_uint32_ofInt] at hb₁
  obtain ⟨h₁, r₁⟩ := rx_step_heard h.ready (by simp [h.ctrl]) hb₁
  simp only [r₁, uint32_ofInt_toNat] at hcrc
  have hb₂ := congrArg (fun x : UInt32 ↦ (x >>> 16).toUInt8) hcrc
  rw [join32_byte2, toUInt8_uint32_ofInt] at hb₂
  obtain ⟨h₂, r₂⟩ := rx_step_heard h.ready (by simp [h.ctrl]) hb₂
  simp only [r₂, uint32_ofInt_toNat] at hcrc
  have hb₃ := congrArg (fun x : UInt32 ↦ (x >>> 24).toUInt8) hcrc
  rw [join32_byte3, toUInt8_uint32_ofInt] at hb₃
  obtain ⟨h₃, -⟩ := rx_step_heard h.ready (by simp [h.ctrl]) hb₃
  exact ⟨h₀, h₁, h₂, h₃, trivial⟩

end Hear

theorem checkDataCrc_eq {zm tx : Zmodem} (h : zm.Hears tx) (w : Fcs) (t : UInt8)
    (p : List UInt8) (hin : zm.input = lineBytes tx (dataCrcBytes w t p))
    (hnone : NoneBare tx (dataCrcBytes w t p)) : checkDataCrc w zm t p = (true, zm.heard []) := by
  cases w with
  | fcs16 =>
      have hcrc := @rxdCrc16_eq _ _ h _ [] (by rw [List.append_nil]; exact hin) hnone
      simp [checkDataCrc, hcrc]
  | fcs32 =>
      have hcrc := @rxdCrc32_eq _ _ h _ [] (by rw [List.append_nil]; exact hin) hnone
      simp [checkDataCrc, hcrc]

theorem noneBare_of_checkDataCrc {zm tx : Zmodem} (h : zm.Hears tx) (w : Fcs) (t : UInt8)
    (p : List UInt8) (hin : zm.input = lineBytes tx (dataCrcBytes w t p))
    (hcheck : (checkDataCrc w zm t p).1 = true) : NoneBare tx (dataCrcBytes w t p) := by
  cases w with
  | fcs16 => exact noneBare_of_rxdCrc16 h hin (by simpa [checkDataCrc] using hcheck)
  | fcs32 => exact noneBare_of_rxdCrc32 h hin (by simpa [checkDataCrc] using hcheck)

/-! ## Subpackets -/

/-- The bytes of a subpacket on the line. -/
theorem output_sendData (w : Fcs) (zm : Zmodem) (t : UInt8) (p : List UInt8) :
    (sendData w zm t p).output = zm.output ++ (lineBytes zm p ++ zdle :: t ::
      lineBytes (sendSubpktEnd (p.foldl zmodemTx zm) t) (dataCrcBytes w t p)) := by
  rw [sendData, output_foldl]
  simp [sendSubpktEnd, zmodemSendRaw, output_foldl]

/-- The subpacket is received as it was sent, and nothing is left on the line. -/
def Receives (w : Fcs) (zm : Zmodem) (maxlen : ℕ) (t : UInt8) (p : List UInt8) : Prop :=
  (recvData w zm maxlen).1 = t.toNat ∧ (recvData w zm maxlen).2.1 = p ∧
    (recvData w zm maxlen).2.2.input = []

instance (w : Fcs) (zm : Zmodem) (maxlen : ℕ) (t : UInt8) (p : List UInt8) :
    Decidable (Receives w zm maxlen t p) := by
  unfold Receives
  infer_instance

section Subpacket

variable {w : Fcs} {tx rx : Zmodem} {t : UInt8} {p : List UInt8} {maxlen : ℕ}
  (ht : t = zcrce ∨ t = zcrcg ∨ t = zcrcq ∨ t = zcrcw) (hlen : p.length ≤ maxlen)
  (h : rx.Hears tx) (hline : (sendData w tx t p).output = tx.output ++ rx.input)

include ht hlen h hline

/-- The data as it is stored, and the check of what follows. -/
theorem recvData_eq :
    recvData w rx maxlen =
      let zm := rx.heard
        (lineBytes (sendSubpktEnd (p.foldl zmodemTx tx) t) (dataCrcBytes w t p))
      let r := checkDataCrc w zm t (heardBytes tx p)
      if r.1 then
        ((t.toNat : ℤ), heardBytes tx p,
          { r.2 with ackFilePos := r.2.ackFilePos + UInt32.ofNat (heardBytes tx p).length })
      else (crcfailed, heardBytes tx p, r.2) := by
  rw [output_sendData, List.append_cancel_left_eq] at hline
  have hroom := (length_heardBytes_le tx p).trans hlen
  have hrecv := recvBytes_lineBytes ht p h hroom [] hline.symm
  rw [List.nil_append] at hrecv
  rw [recvData, hrecv]

omit ht hlen hline in
theorem hears_subpktEnd (rest : List UInt8) :
    (rx.heard rest).Hears (sendSubpktEnd (p.foldl zmodemTx tx) t) where
  ready := ⟨h.ready.notCancelled, Nat.zero_lt_succ 3⟩
  ctrl := h.ctrl.trans (escapeCtrlChars_foldl tx p).symm

omit ht hlen h hline in
theorem noneBare_dataCrc_iff (ht : t = zcrce ∨ t = zcrcg ∨ t = zcrcq ∨ t = zcrcw)
    (bs : List UInt8) : NoneBare (sendSubpktEnd (p.foldl zmodemTx tx) t) bs ↔
      tx.escapeCtrlChars = false ∨ CrsBehindAt false bs := by
  have hlast : ¬ t &&& 0x7f = 0x40 := by
    rcases ht with rfl | rfl | rfl | rfl <;> decide
  rw [noneBare_iff]
  simp [sendSubpktEnd, zmodemSendRaw, escapeCtrlChars_foldl, hlast]

/-- A subpacket is received as it was sent exactly when control characters are not to be
escaped, or every carriage return in the data and in the checksum follows a byte that goes
out as an `@`.  Other carriage returns are sent bare, and dropped. -/
theorem receives_iff :
    Receives w rx maxlen t p ↔
      tx.escapeCtrlChars = false ∨
        (CrsBehindAt (tx.lastSent &&& 0x7f = 0x40) p ∧
          CrsBehindAt false (dataCrcBytes w t p)) := by
  have hend := hears_subpktEnd (t := t) (p := p) h
  rw [or_and_left, ← noneBare_iff, ← noneBare_dataCrc_iff (p := p) ht, Receives,
    recvData_eq ht hlen h hline]
  dsimp only
  constructor
  · rintro ⟨htype, hdata, -⟩
    have hp : heardBytes tx p = p := by
      revert hdata
      split
      · exact id
      · exact id
    rw [hp] at htype
    refine ⟨(heardBytes_eq_iff tx p).mp hp, ?_⟩
    by_contra hnot
    have hfail := mt (noneBare_of_checkDataCrc (hend _) w t p rfl) hnot
    rw [if_neg hfail] at htype
    simp only [crcfailed] at htype
    omega
  · rintro ⟨hnone, hcrc⟩
    rw [(heardBytes_eq_iff tx p).mpr hnone, checkDataCrc_eq (hend _) w t p rfl hcrc]
    exact ⟨rfl, rfl, rfl⟩

end Subpacket

/-- A receiver of the letter `A`, which is followed by a checksum without carriage
returns. -/
theorem receives_iff_letter :
    Receives .fcs32
      { escapeCtrlChars := true
        input := (sendData .fcs32 { escapeCtrlChars := true } zcrcw [0x41]).output }
      1024 zcrcw [0x41] := by
  have hiff := @receives_iff .fcs32 { escapeCtrlChars := true }
    { escapeCtrlChars := true
      input := (sendData .fcs32 { escapeCtrlChars := true } zcrcw [0x41]).output }
    zcrcw [0x41] 1024 (by decide) (by decide) ⟨⟨rfl, by decide⟩, rfl⟩ rfl
  exact hiff.mpr (by decide +kernel)

/-- A single carriage return does not come through. -/
theorem not_receives_cr :
    ¬ ∀ (w : Fcs) (tx rx : Zmodem) (t : UInt8) (p : List UInt8) (maxlen : ℕ),
      t = zcrce ∨ t = zcrcg ∨ t = zcrcq ∨ t = zcrcw → p.length ≤ maxlen → rx.Hears tx →
        (sendData w tx t p).output = tx.output ++ rx.input → Receives w rx maxlen t p := by
  intro hall
  refine absurd (hall .fcs16 { escapeCtrlChars := true }
    { escapeCtrlChars := true
      input := (sendData .fcs16 { escapeCtrlChars := true } zcrcw [cr]).output }
    zcrcw [cr] 1024 (by decide) (by decide) ⟨⟨rfl, by decide⟩, rfl⟩ rfl) ?_
  decide +kernel

end Synchronet.Sbbs3
