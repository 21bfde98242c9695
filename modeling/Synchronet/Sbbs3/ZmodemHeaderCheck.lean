import Mathlib.Data.List.GetD
import Synchronet.Sbbs3.ZmodemHeader

/-!
# What the receivers of ZMODEM headers check

A receiver that returns `TRUE` should have read a header and its checksum.  The
hexadecimal one has; the binary ones do not look whether the bytes of the checksum came,
and the one with 32 bits does not give up when a byte of the header is missing.
-/

namespace Synchronet.Sbbs3

open Words Smblib

/-! ## Reads one after the other -/

def Zmodem.withHeader (zm : Zmodem) (v : Vector UInt8 16) : Zmodem := { zm with rxdHeader := v }

@[simp] theorem Zmodem.rxdHeader_withHeader (zm : Zmodem) (v : Vector UInt8 16) :
    (zm.withHeader v).rxdHeader = v := rfl

@[simp] theorem Zmodem.withHeader_self (zm : Zmodem) : zm.withHeader zm.rxdHeader = zm := rfl

@[simp] theorem Zmodem.withHeader_withHeader (zm : Zmodem) (v w : Vector UInt8 16) :
    (zm.withHeader v).withHeader w = zm.withHeader w := rfl

/-- A read that does not touch the header. -/
def Blind {α : Type} (recv : Zmodem → α × Zmodem) : Prop :=
  ∀ zm v, recv (zm.withHeader v) = ((recv zm).1, (recv zm).2.withHeader v)

theorem zmodemRxLoop_withHeader (l : List UInt8) (escaped : Bool) (zm : Zmodem)
    (v : Vector UInt8 16) :
    zmodemRxLoop l escaped (zm.withHeader v) =
      ((zmodemRxLoop l escaped zm).1, (zmodemRxLoop l escaped zm).2.withHeader v) := by
  induction l generalizing escaped zm with
  | nil => rfl
  | cons c rest ih =>
      have htook : (zm.withHeader v).took c rest = (zm.took c rest).withHeader v := rfl
      have hesc : ((zm.took c rest).withHeader v).escapeCtrlChars =
          (zm.took c rest).escapeCtrlChars := rfl
      have hcan : (zm.withHeader v).cancelled = zm.cancelled := rfl
      rw [zmodemRxLoop, zmodemRxLoop]
      simp only [htook, hesc, hcan, ih]
      repeat' split
      all_goals rfl

theorem blind_zmodemRx : Blind zmodemRx := fun zm v ↦
  zmodemRxLoop_withHeader zm.input false zm v

theorem Blind.rxdHeader {α : Type} {recv : Zmodem → α × Zmodem} (h : Blind recv) (zm : Zmodem) :
    (recv zm).2.rxdHeader = zm.rxdHeader := by
  have := congrArg (fun r ↦ r.2.rxdHeader) (h zm zm.rxdHeader)
  simpa using this

theorem blind_zmodemRecvNibble : Blind zmodemRecvNibble := fun zm v ↦ by
  rw [zmodemRecvNibble, zmodemRecvNibble, blind_zmodemRx zm v]
  dsimp only
  repeat' split
  all_goals rfl

theorem blind_zmodemRecvHex : Blind zmodemRecvHex := fun zm v ↦ by
  rw [zmodemRecvHex, zmodemRecvHex, blind_zmodemRecvNibble zm v]
  dsimp only
  rw [blind_zmodemRecvNibble _ v]
  repeat' split
  all_goals rfl

/-- The results of some reads in a row. -/
def reads (recv : Zmodem → ℤ × Zmodem) : ℕ → Zmodem → List ℤ × Zmodem
  | 0, zm => ([], zm)
  | n + 1, zm =>
      let r := recv zm
      let rs := reads recv n r.2
      (r.1 :: rs.1, rs.2)

theorem length_reads (recv : Zmodem → ℤ × Zmodem) (n : ℕ) (zm : Zmodem) :
    (reads recv n zm).1.length = n := by
  induction n generalizing zm with
  | zero => rfl
  | succ n ih => simp [reads, ih]

theorem reads_add (recv : Zmodem → ℤ × Zmodem) (m n : ℕ) (zm : Zmodem) :
    reads recv (m + n) zm =
      ((reads recv m zm).1 ++ (reads recv n (reads recv m zm).2).1,
        (reads recv n (reads recv m zm).2).2) := by
  induction m generalizing zm with
  | zero => rw [Nat.zero_add]; rfl
  | succ m ih => rw [Nat.succ_add, reads, reads, ih]; rfl

theorem reads_withHeader {recv : Zmodem → ℤ × Zmodem} (hblind : Blind recv) (n : ℕ)
    (zm : Zmodem) (v : Vector UInt8 16) :
    reads recv n (zm.withHeader v) = ((reads recv n zm).1, (reads recv n zm).2.withHeader v) := by
  induction n generalizing zm with
  | zero => rfl
  | succ n ih => simp only [reads, hblind zm v, ih]

/-- The header with some bytes stored from a position on. -/
def storeBytes (v : Vector UInt8 16) : ℕ → List UInt8 → Vector UInt8 16
  | _, [] => v
  | i, c :: cs => storeBytes (v.setIfInBounds i c) (i + 1) cs

theorem take_storeBytes (v : Vector UInt8 16) (i : ℕ) (cs : List UInt8)
    (h : i + cs.length ≤ 16) :
    (storeBytes v i cs).toList.take (i + cs.length) = v.toList.take i ++ cs := by
  induction cs generalizing v i with
  | nil => simp [storeBytes]
  | cons c cs ih =>
      rw [List.length_cons] at h
      have hrec := ih (v.setIfInBounds i c) (i + 1) (by omega)
      rw [storeBytes, List.length_cons, show i + (cs.length + 1) = i + 1 + cs.length by omega, hrec]
      have hset : (v.setIfInBounds i c).toList = v.toList.set i c := by
        simp [Vector.setIfInBounds, Vector.toList]
      have hi : i < 16 := by omega
      rw [hset, List.take_add_one, List.take_set_of_le (le_refl i)]
      simp [hi]

/-- The loop over the header reads its bytes and stores them, or one of the reads
fails. -/
theorem recvHeaderBytes_cases {recv : Zmodem → ℤ × Zmodem} (hblind : Blind recv) (n : ℕ)
    (zm : Zmodem) (p : List UInt8) :
    ((∀ c ∈ (reads recv n zm).1, 0 ≤ c) ∧
      recvHeaderBytes recv n zm p =
        (true, p ++ (reads recv n zm).1.map UInt8.ofInt,
          (reads recv n zm).2.withHeader
            (storeBytes zm.rxdHeader p.length ((reads recv n zm).1.map UInt8.ofInt)))) ∨
    ((∃ c ∈ (reads recv n zm).1, c < 0) ∧ (recvHeaderBytes recv n zm p).1 = false) := by
  induction n generalizing zm p with
  | zero => exact Or.inl ⟨by simp [reads], by simp [reads, recvHeaderBytes, storeBytes]⟩
  | succ n ih =>
      have hself := hblind.rxdHeader zm
      rw [recvHeaderBytes, reads]
      by_cases hneg : (recv zm).1 < 0
      · rw [if_pos hneg]
        exact Or.inr ⟨⟨_, List.mem_cons_self, hneg⟩, rfl⟩
      rw [if_neg hneg]
      have hrec := ih
        ((recv zm).2.withHeader
          ((recv zm).2.rxdHeader.setIfInBounds p.length (UInt8.ofInt (recv zm).1)))
        (p ++ [UInt8.ofInt (recv zm).1])
      rw [reads_withHeader hblind] at hrec
      rcases hrec with ⟨hall, heq⟩ | ⟨hsome, heq⟩
      · refine Or.inl ⟨?_, heq.trans ?_⟩
        · rw [List.forall_mem_cons]
          exact ⟨Int.not_lt.mp hneg, hall⟩
        · simp [storeBytes, hself]
      · obtain ⟨c, hc, hlt⟩ := hsome
        exact Or.inr ⟨⟨c, List.mem_cons_of_mem _ hc, hlt⟩, heq⟩

/-! ## Reads that fail -/

/-- A failed read leaves a connection on which every read fails in the same way. -/
theorem zmodemRxLoop_neg {l : List UInt8} {escaped : Bool} {zm : Zmodem} (hin : zm.input = l)
    (h : (zmodemRxLoop l escaped zm).1 < 0) :
    ((zmodemRxLoop l escaped zm).1 = timeout ∨ (zmodemRxLoop l escaped zm).1 = aborted) ∧
      zmodemRx (zmodemRxLoop l escaped zm).2 = zmodemRxLoop l escaped zm := by
  induction l generalizing escaped zm with
  | nil =>
      rw [zmodemRxLoop, zmodemRx, hin, zmodemRxLoop]
      refine ⟨?_, rfl⟩
      dsimp only
      split
      · exact Or.inr rfl
      · exact Or.inl rfl
  | cons c rest ih =>
      have hbyte : ∀ b : UInt8, ¬ (b.toNat : ℤ) < 0 := fun b ↦ by omega
      have hend : ¬ ((c.toNat : ℤ) + zdleesc < 0) := by
        rw [zdleesc]
        omega
      have hrec := fun e ↦ @ih e (zm.took c rest) rfl
      rw [zmodemRxLoop] at h ⊢
      by_cases hcan : zm.cancelled = true
      · rw [if_pos hcan, zmodemRx, hin, zmodemRxLoop, if_pos hcan]
        exact ⟨Or.inr rfl, rfl⟩
      · rw [if_neg hcan] at h ⊢
        dsimp only at h ⊢
        revert h
        repeat' split
        all_goals first
          | exact fun h ↦ hrec _ h
          | exact fun h ↦ absurd h (hbyte _)
          | exact fun h ↦ absurd h hend
          | exact fun h ↦ absurd h (hbyte 0x7f)
          | exact fun h ↦ absurd h (hbyte 0xff)

theorem zmodemRx_neg {zm : Zmodem} (h : (zmodemRx zm).1 < 0) :
    ((zmodemRx zm).1 = timeout ∨ (zmodemRx zm).1 = aborted) ∧
      zmodemRx (zmodemRx zm).2 = zmodemRx zm :=
  zmodemRxLoop_neg rfl h

/-- A read that fails keeps failing. -/
theorem zmodemRx_neg_next {zm : Zmodem} (h : (zmodemRx zm).1 < 0) :
    (zmodemRx (zmodemRx zm).2).1 < 0 := by
  rw [(zmodemRx_neg h).2]
  exact h

/-! ## Checked headers -/

/-- The last header that was received. -/
def Zmodem.header (zm : Zmodem) : List UInt8 := zm.rxdHeader.toList.take hdrlen

/-- All the reads of a header and its checksum succeeded, the header consists of the bytes
that were read, and the checksum is its own. -/
def Genuine16 (cs : List ℤ) (header : List UInt8) : Prop :=
  (∀ c ∈ cs, 0 ≤ c) ∧ header = (cs.take hdrlen).map UInt8.ofInt ∧
    join16 (UInt16.ofInt (cs.getD 5 0)) (UInt16.ofInt (cs.getD 6 0)) = headerCrc16 header

def Genuine32 (cs : List ℤ) (header : List UInt8) : Prop :=
  (∀ c ∈ cs, 0 ≤ c) ∧ header = (cs.take hdrlen).map UInt8.ofInt ∧
    join32 (UInt32.ofInt (cs.getD 5 0)) (UInt32.ofInt (cs.getD 6 0)) (UInt32.ofInt (cs.getD 7 0))
      (UInt32.ofInt (cs.getD 8 0)) = headerCrc32 header

/-- What `TRUE` should mean, for each receiver. -/
def HexSound (zm : Zmodem) : Prop :=
  (zmodemRecvHexHeader zm).1 = true →
    Genuine16 (reads zmodemRecvHex (hdrlen + 2) zm).1 (zmodemRecvHexHeader zm).2.header

def Bin16Sound (zm : Zmodem) : Prop :=
  (zmodemRecvBin16Header zm).1 = true →
    Genuine16 (reads zmodemRx (hdrlen + 2) zm).1 (zmodemRecvBin16Header zm).2.header

def Bin32Sound (zm : Zmodem) : Prop :=
  (zmodemRecvBin32Header zm).1 = true →
    Genuine32 (reads zmodemRx (hdrlen + 4) zm).1 (zmodemRecvBin32Header zm).2.header

/-- All of the header came, and not all of its checksum, of which the missing bytes are
taken for ones. -/
def CutInCrc16 (cs : List ℤ) : Prop :=
  (∀ c ∈ cs.take hdrlen, 0 ≤ c) ∧ cs.getD 6 0 < 0 ∧
    headerCrc16 ((cs.take hdrlen).map UInt8.ofInt) = UInt16.ofInt (cs.getD 6 0)

def CutInCrc32 (cs : List ℤ) : Prop :=
  cs.getD 8 0 < 0 ∧
    headerCrc32 ((cs.take hdrlen).map UInt8.ofInt) =
      join32 (UInt32.ofInt (cs.getD 5 0)) (UInt32.ofInt (cs.getD 6 0))
        (UInt32.ofInt (cs.getD 7 0)) (UInt32.ofInt (cs.getD 8 0))

section Header

variable {recv : Zmodem → ℤ × Zmodem} (zm : Zmodem)

/-- A header that was read is the one that is stored. -/
theorem header_stored (zm' : Zmodem)
    (h : zm'.rxdHeader = storeBytes zm.rxdHeader 0 ((reads recv hdrlen zm).1.map UInt8.ofInt)) :
    zm'.header = (reads recv hdrlen zm).1.map UInt8.ofInt := by
  have htake := take_storeBytes zm.rxdHeader 0 ((reads recv hdrlen zm).1.map UInt8.ofInt)
    (by simp [length_reads, hdrlen])
  rw [Nat.zero_add, List.length_map, length_reads] at htake
  rw [Zmodem.header, h, htake]
  rfl

theorem take_reads_add (n : ℕ) :
    (reads recv (hdrlen + n) zm).1.take hdrlen = (reads recv hdrlen zm).1 := by
  rw [reads_add, List.take_append_of_le_length (by rw [length_reads]),
    List.take_of_length_le (by rw [length_reads])]

theorem getD_reads_add (n i : ℕ) :
    (reads recv (hdrlen + n) zm).1.getD (5 + i) 0 =
      (reads recv n (reads recv hdrlen zm).2).1.getD i 0 := by
  rw [reads_add, List.getD_append_right _ _ _ _ (by rw [length_reads, hdrlen]; omega), length_reads,
    hdrlen, Nat.add_sub_cancel_left]

end Header

theorem reads_two (recv : Zmodem → ℤ × Zmodem) (zm : Zmodem) :
    (reads recv 2 zm).1 = [(recv zm).1, (recv (recv zm).2).1] := rfl

theorem reads_four (recv : Zmodem → ℤ × Zmodem) (zm : Zmodem) :
    (reads recv 4 zm).1 = [(recv zm).1, (recv (recv zm).2).1, (recv (recv (recv zm).2).2).1,
      (recv (recv (recv (recv zm).2).2).2).1] := rfl

theorem genuine16_iff (recv : Zmodem → ℤ × Zmodem) (zm : Zmodem) (header : List UInt8) :
    Genuine16 (reads recv (hdrlen + 2) zm).1 header ↔
      (∀ c ∈ (reads recv hdrlen zm).1, 0 ≤ c) ∧
        (∀ c ∈ (reads recv 2 (reads recv hdrlen zm).2).1, 0 ≤ c) ∧
        header = (reads recv hdrlen zm).1.map UInt8.ofInt ∧
        join16 (UInt16.ofInt ((reads recv 2 (reads recv hdrlen zm).2).1.getD 0 0))
          (UInt16.ofInt ((reads recv 2 (reads recv hdrlen zm).2).1.getD 1 0)) =
            headerCrc16 header := by
  have h5 := @getD_reads_add recv zm 2 0
  have h6 := @getD_reads_add recv zm 2 1
  rw [Genuine16, take_reads_add, h5, h6, reads_add, List.forall_mem_append, and_assoc]

theorem genuine32_iff (recv : Zmodem → ℤ × Zmodem) (zm : Zmodem) (header : List UInt8) :
    Genuine32 (reads recv (hdrlen + 4) zm).1 header ↔
      (∀ c ∈ (reads recv hdrlen zm).1, 0 ≤ c) ∧
        (∀ c ∈ (reads recv 4 (reads recv hdrlen zm).2).1, 0 ≤ c) ∧
        header = (reads recv hdrlen zm).1.map UInt8.ofInt ∧
        join32 (UInt32.ofInt ((reads recv 4 (reads recv hdrlen zm).2).1.getD 0 0))
          (UInt32.ofInt ((reads recv 4 (reads recv hdrlen zm).2).1.getD 1 0))
          (UInt32.ofInt ((reads recv 4 (reads recv hdrlen zm).2).1.getD 2 0))
          (UInt32.ofInt ((reads recv 4 (reads recv hdrlen zm).2).1.getD 3 0)) =
            headerCrc32 header := by
  have h5 := @getD_reads_add recv zm 4 0
  have h6 := @getD_reads_add recv zm 4 1
  have h7 := @getD_reads_add recv zm 4 2
  have h8 := @getD_reads_add recv zm 4 3
  rw [Genuine32, take_reads_add, h5, h6, h7, h8, reads_add, List.forall_mem_append, and_assoc]

theorem recvHexCrc_true {p : List UInt8} {zm : Zmodem} (h : (recvHexCrc p zm).1 = true) :
    (∀ c ∈ (reads zmodemRecvHex 2 zm).1, 0 ≤ c) ∧
      join16 (UInt16.ofInt ((reads zmodemRecvHex 2 zm).1.getD 0 0))
        (UInt16.ofInt ((reads zmodemRecvHex 2 zm).1.getD 1 0)) = headerCrc16 p ∧
      (recvHexCrc p zm).2.rxdHeader = zm.rxdHeader := by
  have hblind := blind_zmodemRecvHex.rxdHeader
  have hrx := blind_zmodemRx.rxdHeader
  rw [recvHexCrc] at h ⊢
  rw [reads_two]
  dsimp only at h ⊢
  by_cases h₁ : (zmodemRecvHex zm).1 < 0
  · rw [if_pos h₁] at h
    exact absurd h Bool.false_ne_true
  rw [if_neg h₁] at h ⊢
  by_cases h₀ : (zmodemRecvHex (zmodemRecvHex zm).2).1 < 0
  · rw [if_pos h₀] at h
    exact absurd h Bool.false_ne_true
  rw [if_neg h₀] at h ⊢
  by_cases hcrc : join16 (UInt16.ofInt (zmodemRecvHex zm).1)
      (UInt16.ofInt (zmodemRecvHex (zmodemRecvHex zm).2).1) = headerCrc16 p
  · rw [if_neg (not_not.mpr hcrc)]
    refine ⟨?_, hcrc, ?_⟩
    · rw [List.forall_mem_cons, List.forall_mem_singleton]
      exact ⟨Int.not_lt.mp h₁, Int.not_lt.mp h₀⟩
    · split
      · rw [hrx, hrx]
        exact (hblind _).trans (hblind _)
      · rw [hrx]
        exact (hblind _).trans (hblind _)
  · rw [if_pos hcrc] at h
    exact absurd h Bool.false_ne_true

/-- The hexadecimal receiver checks all that it reads. -/
theorem hexSound (zm : Zmodem) : HexSound zm := by
  intro h
  rw [zmodemRecvHexHeader] at h ⊢
  rcases recvHeaderBytes_cases blind_zmodemRecvHex hdrlen zm [] with ⟨hall, heq⟩ | ⟨-, hfalse⟩
  · rw [heq] at h ⊢
    obtain ⟨hread, hcrc, hheader⟩ := recvHexCrc_true h
    rw [reads_withHeader blind_zmodemRecvHex] at hread hcrc
    have hstored := @header_stored zmodemRecvHex zm _ hheader
    rw [genuine16_iff, hstored]
    exact ⟨hall, hread, rfl, hcrc⟩
  · revert h
    generalize recvHeaderBytes zmodemRecvHex hdrlen zm [] = r at hfalse
    obtain ⟨b, p, zm'⟩ := r
    obtain rfl : b = false := hfalse
    intro h
    exact absurd h Bool.false_ne_true

/-! ## Checksums that were cut off -/

/-- A number whose bits above the eighth are all ones. -/
theorem join16_failed (r : UInt16) {c : ℤ} (hc : c = timeout ∨ c = aborted) :
    join16 r (UInt16.ofInt c) = UInt16.ofInt c := by
  have hones : ∀ i < 16, 8 ≤ i → (UInt16.ofInt c).toBitVec.getLsbD i = true := by
    rcases hc with rfl | rfl
    · decide
    · decide
  apply UInt16.toBitVec_inj.mp
  apply BitVec.eq_of_getLsbD_eq
  intro i hi
  by_cases h8 : i < 8
  · simp [join16, h8]
  · have := hones i hi (by omega)
    simp only [join16, UInt16.toBitVec_or, BitVec.getLsbD_or, this, Bool.or_true]

theorem blind_rxdCrc16 : Blind rxdCrc16 := fun zm v ↦ by
  simp only [rxdCrc16, blind_zmodemRx _ v]

theorem blind_rxdCrc32 : Blind rxdCrc32 := fun zm v ↦ by
  simp only [rxdCrc32, blind_zmodemRx _ v]

/-- When a read of the checksum fails, then so does the last one. -/
theorem reads_two_last {zm : Zmodem} (h : ¬ ∀ c ∈ (reads zmodemRx 2 zm).1, 0 ≤ c) :
    (reads zmodemRx 2 zm).1.getD 1 0 < 0 := by
  rw [reads_two] at h ⊢
  rw [List.forall_mem_cons, List.forall_mem_singleton, not_and_or, Int.not_le, Int.not_le] at h
  rcases h with h | h
  · exact zmodemRx_neg_next h
  · exact h

theorem reads_four_last {zm : Zmodem} (h : ¬ ∀ c ∈ (reads zmodemRx 4 zm).1, 0 ≤ c) :
    (reads zmodemRx 4 zm).1.getD 3 0 < 0 := by
  rw [reads_four] at h ⊢
  rw [List.forall_mem_cons, List.forall_mem_cons, List.forall_mem_cons,
    List.forall_mem_singleton] at h
  simp only [not_and_or, Int.not_le] at h
  rcases h with h | h | h | h
  · exact zmodemRx_neg_next (zmodemRx_neg_next (zmodemRx_neg_next h))
  · exact zmodemRx_neg_next (zmodemRx_neg_next h)
  · exact zmodemRx_neg_next h
  · exact h

/-- Of a checksum that was cut off nothing is left. -/
theorem rxdCrc16_of_cut {zm : Zmodem} (h : (reads zmodemRx 2 zm).1.getD 1 0 < 0) :
    (rxdCrc16 zm).1 = UInt16.ofInt ((reads zmodemRx 2 zm).1.getD 1 0) :=
  join16_failed _ (zmodemRx_neg h).1

theorem recvBin16Crc_true_iff (p : List UInt8) (zm : Zmodem) :
    (recvBin16Crc p zm).1 = true ↔ (rxdCrc16 zm).1 = headerCrc16 p := by
  rw [recvBin16Crc]
  dsimp only
  split <;> simp_all

theorem recvBin16Crc_rxdHeader (p : List UInt8) (zm : Zmodem) :
    (recvBin16Crc p zm).2.rxdHeader = zm.rxdHeader := by
  rw [recvBin16Crc]
  dsimp only
  split
  · exact blind_rxdCrc16.rxdHeader zm
  · exact blind_rxdCrc16.rxdHeader zm

theorem recvBin32Crc_true_iff (p : List UInt8) (zm : Zmodem) :
    (recvBin32Crc p zm).1 = true ↔ (rxdCrc32 zm).1 = headerCrc32 p := by
  rw [recvBin32Crc]
  dsimp only
  split <;> simp_all

theorem recvBin32Crc_rxdHeader (p : List UInt8) (zm : Zmodem) :
    (recvBin32Crc p zm).2.rxdHeader = zm.rxdHeader := by
  rw [recvBin32Crc]
  dsimp only
  split
  · exact blind_rxdCrc32.rxdHeader zm
  · exact blind_rxdCrc32.rxdHeader zm

/-- The connection when the bytes of a header were read and stored. -/
def storedHeader (recv : Zmodem → ℤ × Zmodem) (zm : Zmodem) : Zmodem :=
  (reads recv hdrlen zm).2.withHeader
    (storeBytes zm.rxdHeader 0 ((reads recv hdrlen zm).1.map UInt8.ofInt))

theorem recvHeaderBytes_of_read {recv : Zmodem → ℤ × Zmodem} (hblind : Blind recv) {zm : Zmodem}
    (hall : ∀ c ∈ (reads recv hdrlen zm).1, 0 ≤ c) :
    recvHeaderBytes recv hdrlen zm [] =
      (true, (reads recv hdrlen zm).1.map UInt8.ofInt, storedHeader recv zm) := by
  rcases recvHeaderBytes_cases hblind hdrlen zm [] with ⟨-, heq⟩ | ⟨⟨c, hc, hneg⟩, -⟩
  · exact heq
  · exact absurd (hall c hc) (Int.not_le.mpr hneg)

/-- The results of the binary receivers, by whether the header came. -/
theorem recvBin16_of_read {zm : Zmodem} (hall : ∀ c ∈ (reads zmodemRx hdrlen zm).1, 0 ≤ c) :
    ((zmodemRecvBin16Header zm).1 = true ↔
        (rxdCrc16 (reads zmodemRx hdrlen zm).2).1 =
          headerCrc16 ((reads zmodemRx hdrlen zm).1.map UInt8.ofInt)) ∧
      (zmodemRecvBin16Header zm).2.header = (reads zmodemRx hdrlen zm).1.map UInt8.ofInt := by
  rw [zmodemRecvBin16Header, recvHeaderBytes_of_read blind_zmodemRx hall]
  dsimp only
  rw [recvBin16Crc_true_iff, storedHeader, blind_rxdCrc16]
  exact ⟨Iff.rfl, header_stored zm _ (recvBin16Crc_rxdHeader _ _)⟩

theorem recvBin16_of_missing {zm : Zmodem}
    (hmiss : ¬ ∀ c ∈ (reads zmodemRx hdrlen zm).1, 0 ≤ c) :
    (zmodemRecvBin16Header zm).1 = false := by
  rcases recvHeaderBytes_cases blind_zmodemRx hdrlen zm [] with ⟨hall, -⟩ | ⟨-, hfalse⟩
  · exact absurd hall hmiss
  · rw [zmodemRecvBin16Header]
    generalize recvHeaderBytes zmodemRx hdrlen zm [] = r at hfalse
    obtain ⟨b, p, zm'⟩ := r
    obtain rfl : b = false := hfalse
    rfl

theorem recvBin32_of_read {zm : Zmodem} (hall : ∀ c ∈ (reads zmodemRx hdrlen zm).1, 0 ≤ c) :
    ((zmodemRecvBin32Header zm).1 = true ↔
        (rxdCrc32 (reads zmodemRx hdrlen zm).2).1 =
          headerCrc32 ((reads zmodemRx hdrlen zm).1.map UInt8.ofInt)) ∧
      (zmodemRecvBin32Header zm).2.header = (reads zmodemRx hdrlen zm).1.map UInt8.ofInt := by
  rw [zmodemRecvBin32Header, recvHeaderBytes_of_read blind_zmodemRx hall]
  dsimp only
  rw [recvBin32Crc_true_iff, storedHeader, blind_rxdCrc32]
  exact ⟨Iff.rfl, header_stored zm _ (recvBin32Crc_rxdHeader _ _)⟩

theorem recvBin32_of_missing {zm : Zmodem}
    (hmiss : ¬ ∀ c ∈ (reads zmodemRx hdrlen zm).1, 0 ≤ c) :
    (zmodemRecvBin32Header zm).1 = true := by
  rcases recvHeaderBytes_cases blind_zmodemRx hdrlen zm [] with ⟨hall, -⟩ | ⟨-, hfalse⟩
  · exact absurd hall hmiss
  · rw [zmodemRecvBin32Header]
    generalize recvHeaderBytes zmodemRx hdrlen zm [] = r at hfalse
    obtain ⟨b, p, zm'⟩ := r
    obtain rfl : b = false := hfalse
    rfl

theorem recvBin16Crc_len {p : List UInt8} {zm : Zmodem} (h : (recvBin16Crc p zm).1 = true) :
    (recvBin16Crc p zm).2.rxdHeaderLen = 5 := by
  rw [recvBin16Crc_true_iff] at h
  rw [recvBin16Crc]
  dsimp only
  rw [if_neg (not_not.mpr h)]

theorem recvBin32Crc_len {p : List UInt8} {zm : Zmodem} (h : (recvBin32Crc p zm).1 = true) :
    (recvBin32Crc p zm).2.rxdHeaderLen = 5 := by
  rw [recvBin32Crc_true_iff] at h
  rw [recvBin32Crc]
  dsimp only
  rw [if_neg (not_not.mpr h)]

theorem recvBin16_len {zm : Zmodem} (h : (zmodemRecvBin16Header zm).1 = true) :
    (zmodemRecvBin16Header zm).2.rxdHeaderLen = 5 := by
  by_cases hall : ∀ c ∈ (reads zmodemRx hdrlen zm).1, 0 ≤ c
  · rw [zmodemRecvBin16Header, recvHeaderBytes_of_read blind_zmodemRx hall] at h ⊢
    exact recvBin16Crc_len h
  · rw [recvBin16_of_missing hall] at h
    exact absurd h Bool.false_ne_true

theorem recvBin32_len {zm : Zmodem} (hall : ∀ c ∈ (reads zmodemRx hdrlen zm).1, 0 ≤ c)
    (h : (zmodemRecvBin32Header zm).1 = true) :
    (zmodemRecvBin32Header zm).2.rxdHeaderLen = 5 := by
  rw [zmodemRecvBin32Header, recvHeaderBytes_of_read blind_zmodemRx hall] at h ⊢
  exact recvBin32Crc_len h

theorem bin16Sound_iff (zm : Zmodem) :
    Bin16Sound zm ↔ ¬ CutInCrc16 (reads zmodemRx (hdrlen + 2) zm).1 := by
  have h6 := @getD_reads_add zmodemRx zm 2 1
  rw [Bin16Sound, genuine16_iff, CutInCrc16, take_reads_add, h6]
  by_cases hall : ∀ c ∈ (reads zmodemRx hdrlen zm).1, 0 ≤ c
  · obtain ⟨htrue, hheader⟩ := recvBin16_of_read hall
    rw [htrue, hheader]
    constructor
    · rintro hsound ⟨-, hneg, hcrc⟩
      have := (hsound ((rxdCrc16_of_cut hneg).trans hcrc.symm)).2.1 _
        (List.mem_of_getElem? (i := 1) rfl)
      exact absurd this (Int.not_le.mpr hneg)
    · intro hcut hcrc
      refine ⟨hall, ?_, rfl, hcrc⟩
      by_contra hnot
      have hneg := reads_two_last hnot
      exact hcut ⟨hall, hneg, hcrc.symm.trans (rxdCrc16_of_cut hneg)⟩
  · rw [recvBin16_of_missing hall]
    exact iff_of_true (fun h ↦ absurd h Bool.false_ne_true) (fun h ↦ hall h.1)

theorem bin32Sound_iff (zm : Zmodem) :
    Bin32Sound zm ↔
      (∀ c ∈ (reads zmodemRx hdrlen zm).1, 0 ≤ c) ∧
        ¬ CutInCrc32 (reads zmodemRx (hdrlen + 4) zm).1 := by
  have h5 := @getD_reads_add zmodemRx zm 4 0
  have h6 := @getD_reads_add zmodemRx zm 4 1
  have h7 := @getD_reads_add zmodemRx zm 4 2
  have h8 := @getD_reads_add zmodemRx zm 4 3
  rw [Bin32Sound, genuine32_iff, CutInCrc32, take_reads_add, h5, h6, h7, h8]
  by_cases hall : ∀ c ∈ (reads zmodemRx hdrlen zm).1, 0 ≤ c
  · obtain ⟨htrue, hheader⟩ := recvBin32_of_read hall
    rw [htrue, hheader]
    constructor
    · refine fun hsound ↦ ⟨hall, ?_⟩
      rintro ⟨hneg, hcrc⟩
      have := (hsound hcrc.symm).2.1 _ (List.mem_of_getElem? (i := 3) rfl)
      exact absurd this (Int.not_le.mpr hneg)
    · rintro ⟨-, hcut⟩ hcrc
      refine ⟨hall, ?_, rfl, hcrc⟩
      by_contra hnot
      exact hcut ⟨reads_four_last hnot, hcrc.symm⟩
  · refine iff_of_false (fun hsound ↦ ?_) (fun h ↦ hall h.1)
    exact hall (hsound (recvBin32_of_missing hall)).1

/-! ## The search ends -/

/-- A read that takes bytes from the line, if it changes it at all. -/
def Takes {α : Type} (recv : Zmodem → α × Zmodem) : Prop :=
  ∀ zm, (recv zm).2.input.length ≤ zm.input.length

theorem length_zmodemRxLoop_le {l : List UInt8} (escaped : Bool) {zm : Zmodem}
    (hin : zm.input = l) : (zmodemRxLoop l escaped zm).2.input.length ≤ l.length := by
  induction l generalizing escaped zm with
  | nil => rw [zmodemRxLoop, hin]
  | cons c rest ih =>
      have hrec := fun e ↦ (@ih e (zm.took c rest) rfl).trans (Nat.le_succ rest.length)
      have htook : (zm.took c rest).input.length ≤ (c :: rest).length := Nat.le_succ rest.length
      rw [zmodemRxLoop]
      by_cases hcan : zm.cancelled = true
      · rw [if_pos hcan, hin]
      · rw [if_neg hcan]
        dsimp only
        repeat' split
        all_goals first
          | exact hrec _
          | exact htook

theorem takes_zmodemRx : Takes zmodemRx := fun _ ↦ length_zmodemRxLoop_le false rfl

theorem takes_zmodemRecvNibble : Takes zmodemRecvNibble := fun zm ↦ by
  have hrx := takes_zmodemRx zm
  rw [zmodemRecvNibble]
  repeat' split
  all_goals exact hrx

theorem takes_zmodemRecvHex : Takes zmodemRecvHex := fun zm ↦ by
  have h₁ := takes_zmodemRecvNibble zm
  have h₀ := (takes_zmodemRecvNibble (zmodemRecvNibble zm).2).trans h₁
  rw [zmodemRecvHex]
  split
  · exact h₁
  dsimp only
  split
  · exact h₀
  · exact h₀

theorem takes_recvHeaderBytes {recv : Zmodem → ℤ × Zmodem} (h : Takes recv) (n : ℕ)
    (zm : Zmodem) (p : List UInt8) :
    (recvHeaderBytes recv n zm p).2.2.input.length ≤ zm.input.length := by
  induction n generalizing zm p with
  | zero => exact le_refl _
  | succ n ih =>
      rw [recvHeaderBytes]
      split
      · exact h zm
      · exact (ih _ _).trans (h zm)

theorem takes_rxdCrc16 : Takes rxdCrc16 := fun zm ↦
  (takes_zmodemRx _).trans (takes_zmodemRx zm)

theorem takes_rxdCrc32 : Takes rxdCrc32 := fun zm ↦
  (takes_zmodemRx _).trans ((takes_zmodemRx _).trans ((takes_zmodemRx _).trans (takes_zmodemRx zm)))

theorem takes_recvBin16Crc (p : List UInt8) : Takes (recvBin16Crc p) := fun zm ↦ by
  have hcrc := takes_rxdCrc16 zm
  rw [recvBin16Crc]
  dsimp only
  split
  · exact hcrc
  · exact hcrc

theorem takes_recvBin32Crc (p : List UInt8) : Takes (recvBin32Crc p) := fun zm ↦ by
  have hcrc := takes_rxdCrc32 zm
  rw [recvBin32Crc]
  dsimp only
  split
  · exact hcrc
  · exact hcrc

theorem takes_recvHexCrc (p : List UInt8) : Takes (recvHexCrc p) := fun zm ↦ by
  have h₁ := takes_zmodemRecvHex zm
  have h₀ := (takes_zmodemRecvHex (zmodemRecvHex zm).2).trans h₁
  have hcr := (takes_zmodemRx
    { (zmodemRecvHex (zmodemRecvHex zm).2).2 with rxdHeaderLen := 5 }).trans h₀
  have hlf := (takes_zmodemRx _).trans hcr
  rw [recvHexCrc]
  split
  · exact h₁
  dsimp only
  split
  · exact h₀
  split
  · exact h₀
  split
  · exact hlf
  · exact hcr

theorem takes_recvHeader {recv : Zmodem → ℤ × Zmodem} (h : Takes recv)
    {rest : List UInt8 → Zmodem → Bool × Zmodem} (hrest : ∀ p, Takes (rest p)) (b : Bool)
    (zm : Zmodem) :
    (match recvHeaderBytes recv hdrlen zm [] with
      | (false, _, zm) => (b, zm)
      | (true, p, zm) => rest p zm).2.input.length ≤ zm.input.length := by
  have hbytes := takes_recvHeaderBytes h hdrlen zm []
  generalize recvHeaderBytes recv hdrlen zm [] = r at hbytes
  obtain ⟨ok, p, zm'⟩ := r
  cases ok with
  | false => exact hbytes
  | true => exact (hrest p zm').trans hbytes

theorem takes_zmodemRecvBin16Header : Takes zmodemRecvBin16Header := fun zm ↦
  takes_recvHeader takes_zmodemRx takes_recvBin16Crc false zm

theorem takes_zmodemRecvBin32Header : Takes zmodemRecvBin32Header := fun zm ↦
  takes_recvHeader takes_zmodemRx takes_recvBin32Crc true zm

theorem takes_zmodemRecvHexHeader : Takes zmodemRecvHexHeader := fun zm ↦
  takes_recvHeader takes_zmodemRecvHex takes_recvHexCrc false zm

theorem input_endHeader (errors fcs32 : Bool) (r : Bool × Zmodem) :
    (endHeader errors fcs32 r).2.input = r.2.input := by
  rw [endHeader]
  split
  · rfl
  dsimp only
  split
  · rfl
  · rfl

theorem length_skipToZpad {l : List UInt8} {zm zm' : Zmodem}
    (h : skipToZpad l zm = (none, zm')) : zm'.input.length < l.length := by
  induction l generalizing zm with
  | nil => simp [skipToZpad] at h
  | cons c rest ih =>
      rw [skipToZpad] at h
      split at h
      · simp at h
      split at h
      · obtain rfl : zm.took c rest = zm' := congrArg Prod.snd h
        exact Nat.lt_succ_self rest.length
      · exact (ih h).trans (Nat.lt_succ_self rest.length)

theorem takes_zmodemRecvRaw : Takes zmodemRecvRaw := fun zm ↦ by
  rw [zmodemRecvRaw]
  split
  · exact le_refl _
  next c rest hin =>
    rw [hin]
    exact Nat.le_succ rest.length

theorem takes_readStyle (errors : Bool) (r : ℤ × Zmodem) :
    (readStyle errors r).2.input.length ≤ r.2.input.length := by
  rw [readStyle]
  split
  · rw [input_endHeader]
    exact takes_zmodemRecvBin16Header r.2
  split
  · rw [input_endHeader]
    exact takes_zmodemRecvHexHeader r.2
  split
  · rw [input_endHeader]
    exact takes_zmodemRecvBin32Header r.2
  split
  · exact le_refl _
  split
  · exact le_refl _
  · exact le_refl _

/-- A round that does not return has taken a byte. -/
theorem length_headerRound {errors : Bool} {zm zm' : Zmodem}
    (h : headerRound errors zm = (none, zm')) : zm'.input.length < zm.input.length := by
  rw [headerRound] at h
  generalize hskip : skipToZpad zm.input zm = s at h
  obtain ⟨c | c, z⟩ := s
  · refine lt_of_le_of_lt ?_ (length_skipToZpad hskip)
    have h₁ := takes_zmodemRecvRaw z
    have h₂ := (takes_zmodemRecvRaw (zmodemRecvRaw z).2).trans h₁
    obtain rfl : _ = zm' := congrArg Prod.snd h
    clear h
    dsimp only
    split
    · exact h₁
    have hraw : (if (zmodemRecvRaw z).1 = zpad.toNat then zmodemRecvRaw (zmodemRecvRaw z).2
        else zmodemRecvRaw z).2.input.length ≤ z.input.length := by
      split
      · exact h₂
      · exact h₁
    generalize (if (zmodemRecvRaw z).1 = zpad.toNat then zmodemRecvRaw (zmodemRecvRaw z).2
        else zmodemRecvRaw z) = r at hraw
    split
    · exact hraw
    split
    · exact hraw
    · exact (takes_readStyle errors _).trans ((takes_zmodemRx _).trans hraw)
  · simp at h

/-- A round for each byte of the line, and one more, is enough. -/
theorem headerSearch_add (errors : Bool) {fuel : ℕ} (k : ℕ) {zm : Zmodem}
    (h : zm.input.length < fuel) :
    headerSearch errors (fuel + k) zm = headerSearch errors fuel zm := by
  induction fuel generalizing zm with
  | zero => exact absurd h (Nat.not_lt_zero _)
  | succ fuel ih =>
      rw [Nat.succ_add, headerSearch, headerSearch]
      generalize hround : headerRound errors zm = r
      obtain ⟨c | c, zm'⟩ := r
      · have hlt := length_headerRound hround
        dsimp only
        rw [ih (by omega)]
      · rfl

end Synchronet.Sbbs3
