import Synchronet.Lib.Cyclic
import Synchronet.Lib.Words

/-!
# Ring buffers (ringbuf.c)

The buffer is a block of `size + 1` bytes, all of which are used in turn; one of
them is always free.  Pointers into the block are positions here.  A copy that
leaves the block is undefined, which is `none`.
-/

namespace Synchronet.Sbbs3

open RecordFile Cyclic Words

/-! ## The code -/

/-- `RingBuf`: `mem` is the block at `pStart`, and `pEnd` is position `size`. -/
structure RingBuf where
  mem : List UInt8
  head : ℕ
  tail : ℕ
  size : UInt32

/-- `memcpy` into the block. -/
def copyIn (mem : List UInt8) (pos : ℕ) (src : List UInt8) : Option (List UInt8) :=
  if pos + src.length ≤ mem.length then some (writeAt 0 mem pos src) else none

/-- `memcpy` out of the block. -/
def copyOut (mem : List UInt8) (pos : ℕ) (n : UInt32) : Option (List UInt8) :=
  if pos + n.toNat ≤ mem.length then some (readAt mem pos n.toNat) else none

/-- `RingBufInit`, for a request for memory that is met: the block has `size + 1`
bytes in 32-bit arithmetic, with whatever `heap` holds. -/
def ringBufInit (heap : ℕ → UInt8) (size : UInt32) : RingBuf where
  mem := (List.range (size + 1).toNat).map heap
  head := 0
  tail := 0
  size := size

/-- `RINGBUF_FILL_LEVEL`. -/
def fillLevel (rb : RingBuf) : UInt32 :=
  UInt32.ofNat (if rb.tail ≤ rb.head then rb.head - rb.tail
    else rb.size.toNat - (rb.tail - (rb.head + 1)))

def ringBufFull (rb : RingBuf) : UInt32 := fillLevel rb

def ringBufFree (rb : RingBuf) : UInt32 := rb.size - ringBufFull rb

/-- How many bytes of `cnt` go before the end of the block: `first`, out of `max`. -/
def firstPart (rb : RingBuf) (pos : ℕ) (cnt : UInt32) : UInt32 :=
  let max := UInt32.ofNat (rb.size.toNat - pos + 1)
  if cnt ≤ max then cnt else max

/-- A pointer behind `pEnd` goes back to `pStart`. -/
def RingBuf.wrap (rb : RingBuf) (pos : ℕ) : ℕ := if rb.size.toNat < pos then 0 else pos

/-- `RingBufWrite` of the first `cnt` bytes of `src`. -/
def ringBufWrite (rb : RingBuf) (src : List UInt8) (cnt : UInt32) : Option (UInt32 × RingBuf) :=
  if cnt = 0 then some (cnt, rb)
  else
    let first := firstPart rb rb.head cnt
    let remain := cnt - first
    match copyIn rb.mem rb.head (src.take first.toNat) with
    | none => none
    | some mem =>
        if remain = 0 then
          some (cnt, { rb with mem := mem, head := rb.wrap (rb.head + first.toNat) })
        else
          match copyIn mem 0 ((src.drop first.toNat).take remain.toNat) with
          | none => none
          | some mem => some (cnt, { rb with mem := mem, head := rb.wrap remain.toNat })

/-- The two pieces of `cnt` bytes from the tail on. -/
def copyFromTail (rb : RingBuf) (first remain : UInt32) : Option (List UInt8) :=
  match copyOut rb.mem rb.tail first, copyOut rb.mem 0 remain with
  | some xs, some ys => some (xs ++ ys)
  | _, _ => none

/-- `RingBufRead`; without a destination nothing is copied. -/
def ringBufRead (rb : RingBuf) (dst : Bool) (cnt : UInt32) :
    Option (UInt32 × List UInt8 × RingBuf) :=
  let len := fillLevel rb
  let cnt := if len < cnt then len else cnt
  let first := firstPart rb rb.tail cnt
  let remain := cnt - first
  let tail := if remain = 0 then rb.tail + first.toNat else remain.toNat
  let rb' := { rb with tail := rb.wrap tail }
  if dst then (copyFromTail rb first remain).map fun bytes ↦ (cnt, bytes, rb')
  else some (cnt, [], rb')

def ringBufPeek (rb : RingBuf) (cnt : UInt32) : Option (UInt32 × List UInt8) :=
  let len := ringBufFull rb
  if len = 0 then some (0, [])
  else
    let cnt := if len < cnt then len else cnt
    let first := firstPart rb rb.tail cnt
    (copyFromTail rb first (cnt - first)).map fun bytes ↦ (cnt, bytes)

def ringBufReInit (rb : RingBuf) : RingBuf := { rb with head := 0, tail := 0 }

/-! ## A bounded queue -/

/-- The buffers reached from `RingBufInit` by operations whose writes fit, and the
bytes that a queue holds after the same operations. -/
inductive RingBufRun (heap : ℕ → UInt8) (size : UInt32) : RingBuf → List UInt8 → Prop
  | init : RingBufRun heap size (ringBufInit heap size) []
  | write {rb rb' : RingBuf} {q : List UInt8} {r : UInt32} (src : List UInt8) :
      RingBufRun heap size rb q → src.length ≤ (ringBufFree rb).toNat →
      ringBufWrite rb src (UInt32.ofNat src.length) = some (r, rb') →
      RingBufRun heap size rb' (q ++ src)
  | read {rb rb' : RingBuf} {q bytes : List UInt8} {r : UInt32} (dst : Bool) (cnt : UInt32) :
      RingBufRun heap size rb q → ringBufRead rb dst cnt = some (r, bytes, rb') →
      RingBufRun heap size rb' (q.drop cnt.toNat)
  | peek {rb : RingBuf} {q bytes : List UInt8} {r : UInt32} (cnt : UInt32) :
      RingBufRun heap size rb q → ringBufPeek rb cnt = some (r, bytes) →
      RingBufRun heap size rb q
  | reInit {rb : RingBuf} {q : List UInt8} :
      RingBufRun heap size rb q → RingBufRun heap size (ringBufReInit rb) []

/-- The buffer answers like a queue of `size` bytes that holds `q`. -/
structure BehavesAsQueue (size : UInt32) (rb : RingBuf) (q : List UInt8) : Prop where
  full : (ringBufFull rb).toNat = q.length
  free : (ringBufFree rb).toNat + q.length = size.toNat
  head : rb.head ≤ size.toNat
  tail : rb.tail ≤ size.toNat
  write : ∀ src : List UInt8, src.length ≤ (ringBufFree rb).toNat →
    ∃ rb', ringBufWrite rb src (UInt32.ofNat src.length) = some (UInt32.ofNat src.length, rb')
  read : ∀ (dst : Bool) (cnt : UInt32), ∃ rb', ringBufRead rb dst cnt =
    some (UInt32.ofNat (min cnt.toNat q.length), if dst then q.take cnt.toNat else [], rb')
  peek : ∀ cnt : UInt32, ringBufPeek rb cnt =
    some (UInt32.ofNat (min cnt.toNat q.length), q.take cnt.toNat)

/-! ## The invariant -/

/-- The bytes of the queue lie in the block from the tail on, round its end. -/
structure RingBufInv (size : UInt32) (rb : RingBuf) (q : List UInt8) : Prop where
  size_eq : rb.size = size
  block : rb.mem.length = size.toNat + 1
  tail_le : rb.tail ≤ size.toNat
  fits : q.length ≤ size.toNat
  head_eq : rb.head = if rb.tail + q.length < rb.mem.length then rb.tail + q.length
    else rb.tail + q.length - rb.mem.length
  contents : window rb.mem rb.tail q.length = q

theorem ringBufInv_init (heap : ℕ → UInt8) {size : UInt32} (hsize : size.toNat + 1 < 2 ^ 32) :
    RingBufInv size (ringBufInit heap size) [] where
  size_eq := rfl
  block := by
    have h1 : (1 : UInt32).toNat = 1 := rfl
    simp only [ringBufInit, List.length_map, List.length_range]
    rw [UInt32.toNat_add, h1, Nat.mod_eq_of_lt hsize]
  tail_le := Nat.zero_le _
  fits := Nat.zero_le _
  head_eq := by simp [ringBufInit]
  contents := window_zero _ _

section Inv

variable {size : UInt32} {rb : RingBuf} {q : List UInt8} (h : RingBufInv size rb q)

include h

theorem RingBufInv.head_le : rb.head ≤ size.toNat := by
  have hblock := h.block
  have hhead := h.head_eq
  have htail := h.tail_le
  have hfits := h.fits
  split at hhead <;> omega

theorem RingBufInv.fillLevel : (fillLevel rb).toNat = q.length := by
  have hlt := UInt32.toNat_lt size
  have hblock := h.block
  have hhead := h.head_eq
  have htail := h.tail_le
  have hfits := h.fits
  rw [Sbbs3.fillLevel, h.size_eq]
  split at hhead
  · rw [if_pos (by omega), toNat_ofNat_uint32 (by omega)]
    omega
  · rw [if_neg (by omega), toNat_ofNat_uint32 (by omega)]
    omega

theorem RingBufInv.free : (ringBufFree rb).toNat = size.toNat - q.length := by
  have hfull := h.fillLevel
  rw [ringBufFree, ringBufFull, h.size_eq, UInt32.toNat_sub_of_le, hfull]
  rw [UInt32.le_iff_toNat_le, hfull]
  exact h.fits

/-- The two pieces of a copy that starts inside the block. -/
theorem RingBufInv.pieces {pos : ℕ} (hpos : pos ≤ size.toNat) (hsize : size.toNat + 1 < 2 ^ 32)
    (cnt : UInt32) :
    (firstPart rb pos cnt).toNat = min cnt.toNat (rb.mem.length - pos) ∧
      (cnt - firstPart rb pos cnt).toNat = cnt.toNat - (rb.mem.length - pos) ∧
      (cnt - firstPart rb pos cnt = 0 ↔ cnt.toNat ≤ rb.mem.length - pos) := by
  have hblock := h.block
  have hmax : (UInt32.ofNat (size.toNat - pos + 1)).toNat = rb.mem.length - pos := by
    rw [toNat_ofNat_uint32 (by omega)]
    omega
  have hzero : ∀ x : UInt32, x = 0 ↔ x.toNat = 0 := fun x ↦ by
    rw [← UInt32.toNat_inj]
    rfl
  rw [firstPart, h.size_eq, hzero]
  split
  · rename_i hle
    rw [UInt32.le_iff_toNat_le, hmax] at hle
    have hself : (cnt - cnt).toNat = 0 := by simp
    rw [hself, min_eq_left hle]
    exact ⟨rfl, by omega, by omega⟩
  · rename_i hle
    rw [UInt32.le_iff_toNat_le, hmax] at hle
    rw [UInt32.toNat_sub_of_le _ _ (by rw [UInt32.le_iff_toNat_le, hmax]; omega), hmax]
    exact ⟨(min_eq_right (by omega)).symm, rfl, by omega⟩

/-- A position behind the block goes back to its start. -/
theorem RingBufInv.wrap (pos : ℕ) :
    rb.wrap pos = if pos < rb.mem.length then pos else 0 := by
  rw [RingBuf.wrap, h.size_eq, h.block]
  split <;> split <;> omega

/-- Where a pointer goes when it moves over `cnt` bytes. -/
theorem RingBufInv.advance {pos : ℕ} (hpos : pos ≤ size.toNat) (hsize : size.toNat + 1 < 2 ^ 32)
    {cnt : UInt32} (hcnt : cnt.toNat ≤ size.toNat) :
    rb.wrap (if cnt - firstPart rb pos cnt = 0 then pos + (firstPart rb pos cnt).toNat
        else (cnt - firstPart rb pos cnt).toNat) =
      if pos + cnt.toNat < rb.mem.length then pos + cnt.toNat
      else pos + cnt.toNat - rb.mem.length := by
  obtain ⟨hfirst, hremain, hone⟩ := h.pieces hpos hsize cnt
  have hblock := h.block
  rw [h.wrap]
  by_cases hfit : cnt.toNat ≤ rb.mem.length - pos
  · rw [if_pos (hone.mpr hfit), hfirst, min_eq_left hfit]
    split <;> omega
  · rw [if_neg (mt hone.mp hfit), hremain]
    split <;> split <;> omega

theorem RingBufInv.copyFromTail (hsize : size.toNat + 1 < 2 ^ 32) {cnt : UInt32}
    (hcnt : cnt.toNat ≤ q.length) :
    Sbbs3.copyFromTail rb (firstPart rb rb.tail cnt) (cnt - firstPart rb rb.tail cnt) =
      some (q.take cnt.toNat) := by
  obtain ⟨hfirst, hremain, hone⟩ := h.pieces h.tail_le hsize cnt
  have hblock := h.block
  have htail := h.tail_le
  have hfits := h.fits
  have htake := take_window rb.mem rb.tail cnt.toNat q.length
  rw [h.contents, min_eq_left hcnt] at htake
  rw [Sbbs3.copyFromTail, copyOut, copyOut, hfirst, hremain, if_pos (by omega), if_pos (by omega),
    htake, window_eq_append _ (by omega)]

/-- No more bytes are read than there are. -/
theorem RingBufInv.clamp (cnt : UInt32) :
    (if Sbbs3.fillLevel rb < cnt then Sbbs3.fillLevel rb else cnt) =
      UInt32.ofNat (min cnt.toNat q.length) := by
  rw [← h.fillLevel]
  split
  · rename_i hlt
    rw [min_eq_right (UInt32.lt_iff_toNat_lt.mp hlt).le, UInt32.ofNat_toNat]
  · rename_i hlt
    rw [min_eq_left (UInt32.le_iff_toNat_le.mp (UInt32.not_lt.mp hlt)), UInt32.ofNat_toNat]

omit h in
theorem toNat_clamp (cnt : UInt32) (q : List UInt8) :
    (UInt32.ofNat (min cnt.toNat q.length)).toNat = min cnt.toNat q.length :=
  toNat_ofNat_uint32 (lt_of_le_of_lt (min_le_left _ _) (UInt32.toNat_lt cnt))

theorem RingBufInv.peek (hsize : size.toNat + 1 < 2 ^ 32) (cnt : UInt32) :
    ringBufPeek rb cnt = some (UInt32.ofNat (min cnt.toNat q.length), q.take cnt.toNat) := by
  have hfull := h.fillLevel
  rw [ringBufPeek, ringBufFull]
  split
  · rename_i hzero
    rw [hzero] at hfull
    have hnil : q = [] := List.eq_nil_of_length_eq_zero hfull.symm
    simp [hnil]
  · rw [h.clamp]
    dsimp only
    rw [h.copyFromTail hsize (by rw [toNat_clamp]; exact min_le_right _ _), toNat_clamp]
    simp

theorem RingBufInv.read (hsize : size.toNat + 1 < 2 ^ 32) (dst : Bool) (cnt : UInt32) :
    ∃ rb', ringBufRead rb dst cnt = some (UInt32.ofNat (min cnt.toNat q.length),
        if dst then q.take cnt.toNat else [], rb') ∧ RingBufInv size rb' (q.drop cnt.toNat) := by
  have hn := toNat_clamp cnt q
  have hle : min cnt.toNat q.length ≤ q.length := min_le_right _ _
  have hdrop : q.drop cnt.toNat = q.drop (min cnt.toNat q.length) := by simp
  have htake : q.take cnt.toNat = q.take (min cnt.toNat q.length) := by simp
  rw [hdrop, htake, ringBufRead, h.clamp]
  generalize UInt32.ofNat (min cnt.toNat q.length) = c at hn ⊢
  rw [← hn] at hle ⊢
  have hcopy := h.copyFromTail hsize hle
  have hblock := h.block
  have htail := h.tail_le
  have hfits := h.fits
  have hhead := h.head_eq
  have hnext := h.advance htail hsize (by omega : c.toNat ≤ size.toNat)
  set next := rb.wrap (if c - firstPart rb rb.tail c = 0 then
    rb.tail + (firstPart rb rb.tail c).toNat
    else (c - firstPart rb rb.tail c).toNat)
  have hinv : RingBufInv size { rb with tail := next } (q.drop c.toNat) := by
    refine ⟨h.size_eq, hblock, ?_, ?_, ?_, ?_⟩
    · dsimp only
      split at hnext <;> omega
    · rw [List.length_drop]
      omega
    · rw [List.length_drop]
      dsimp only
      split at hnext <;> split at hhead <;> split <;> omega
    · have hrest := drop_window rb.mem rb.tail c.toNat q.length
      rw [h.contents] at hrest
      change window rb.mem next _ = _
      rw [List.length_drop, hrest, hnext]
      split
      · rfl
      · rw [← window_wrap (by omega) (by omega)]
  refine ⟨{ rb with tail := next }, ?_, hinv⟩
  cases dst with
  | false => rfl
  | true =>
      simp only [if_true, hcopy]
      rfl

theorem RingBufInv.write (hsize : size.toNat + 1 < 2 ^ 32) {src : List UInt8}
    (hroom : src.length ≤ (ringBufFree rb).toNat) :
    ∃ rb', ringBufWrite rb src (UInt32.ofNat src.length) = some (UInt32.ofNat src.length, rb') ∧
      RingBufInv size rb' (q ++ src) := by
  rw [h.free] at hroom
  have hblock := h.block
  have htail := h.tail_le
  have hfits := h.fits
  have hhead := h.head_eq
  have hheadle := h.head_le
  have hcnt : (UInt32.ofNat src.length).toNat = src.length := toNat_ofNat_uint32 (by omega)
  generalize UInt32.ofNat src.length = cnt at hcnt ⊢
  rw [ringBufWrite]
  by_cases hzero : cnt = 0
  · have hnil : src = [] := List.eq_nil_of_length_eq_zero (by rw [← hcnt, hzero]; rfl)
    rw [if_pos hzero, hnil, List.append_nil]
    exact ⟨rb, rfl, h⟩
  obtain ⟨hfirst, hremain, hone⟩ := h.pieces hheadle hsize cnt
  rw [hcnt] at hfirst hremain
  have hmem : ∀ next, (next = if rb.head + src.length < rb.mem.length then rb.head + src.length
        else rb.head + src.length - rb.mem.length) →
      RingBufInv size { rb with mem := put 0 rb.mem rb.head src, head := next } (q ++ src) := by
    intro next hnext
    have hlen := @length_put _ 0 rb.mem rb.head src (by omega) (by omega)
    refine ⟨h.size_eq, hlen.trans hblock, htail, ?_, ?_, ?_⟩
    · rw [List.length_append]
      omega
    · rw [List.length_append]
      dsimp only
      rw [hlen, hnext]
      split at hhead <;> split <;> split <;> omega
    · rw [List.length_append]
      dsimp only
      rw [window_put 0 (by omega) (by omega) hhead, h.contents]
  have hhead' := h.advance hheadle hsize (by omega : cnt.toNat ≤ size.toNat)
  rw [hcnt] at hhead'
  rw [if_neg hzero]
  dsimp only
  have hin : rb.head + (src.take (firstPart rb rb.head cnt).toNat).length ≤ rb.mem.length := by
    rw [List.length_take, hfirst]
    omega
  have hfst : writeAt 0 rb.mem rb.head (src.take (firstPart rb rb.head cnt).toNat) =
      writeAt 0 rb.mem rb.head (src.take (rb.mem.length - rb.head)) := by
    rw [hfirst]
    congr 1
    exact List.take_eq_take_iff.mpr (by omega)
  rw [copyIn, if_pos hin, hfst]
  rw [hcnt] at hone
  by_cases hfit : src.length ≤ rb.mem.length - rb.head
  · have hz := hone.mpr hfit
    rw [if_pos hz] at hhead'
    dsimp only
    rw [if_pos hz]
    refine ⟨_, rfl, ?_⟩
    have := hmem _ hhead'
    rwa [put, List.drop_eq_nil_of_le hfit, writeAt_nil] at this
  · have hz := mt hone.mp hfit
    have hrest : (src.drop (firstPart rb rb.head cnt).toNat).take
        (cnt - firstPart rb rb.head cnt).toNat = src.drop (rb.mem.length - rb.head) := by
      rw [hfirst, hremain, min_eq_right (by omega), List.take_of_length_le]
      rw [List.length_drop]
    have hlen := length_le_writeAt 0 rb.mem rb.head (src.take (rb.mem.length - rb.head))
    rw [if_neg hz] at hhead'
    dsimp only
    rw [if_neg hz, hrest, copyIn, if_pos (by rw [List.length_drop]; omega)]
    exact ⟨_, rfl, hmem _ hhead'⟩

theorem RingBufInv.reInit : RingBufInv size (ringBufReInit rb) [] where
  size_eq := h.size_eq
  block := h.block
  tail_le := Nat.zero_le _
  fits := Nat.zero_le _
  head_eq := by simp [ringBufReInit, h.block]
  contents := window_zero _ _

theorem RingBufInv.behavesAsQueue (hsize : size.toNat + 1 < 2 ^ 32) : BehavesAsQueue size rb q where
  full := h.fillLevel
  free := by
    rw [h.free]
    exact Nat.sub_add_cancel h.fits
  head := h.head_le
  tail := h.tail_le
  write := fun _ hroom ↦ (h.write hsize hroom).imp fun _ hw ↦ hw.1
  read := fun dst cnt ↦ (h.read hsize dst cnt).imp fun _ hr ↦ hr.1
  peek := h.peek hsize

end Inv

theorem RingBufRun.inv {heap : ℕ → UInt8} {size : UInt32} (hsize : size.toNat + 1 < 2 ^ 32)
    {rb : RingBuf} {q : List UInt8} (h : RingBufRun heap size rb q) : RingBufInv size rb q := by
  induction h with
  | init => exact ringBufInv_init heap hsize
  | write src _ hroom hw ih =>
      obtain ⟨rb', hw', hinv⟩ := ih.write hsize hroom
      rw [hw'] at hw
      simp only [Option.some.injEq, Prod.mk.injEq] at hw
      exact hw.2 ▸ hinv
  | read dst cnt _ hr ih =>
      obtain ⟨rb', hr', hinv⟩ := ih.read hsize dst cnt
      rw [hr'] at hr
      simp only [Option.some.injEq, Prod.mk.injEq] at hr
      exact hr.2.2 ▸ hinv
  | peek _ _ _ ih => exact ih
  | reInit _ ih => exact ih.reInit

/-- A block of `2 ^ 32` bytes cannot be asked for: `size + 1` wraps to 0, and the first
write leaves the block. -/
theorem not_write_init (heap : ℕ → UInt8) :
    ringBufWrite (ringBufInit heap 0xffffffff) [0] 1 = none := by
  have hfirst : firstPart (ringBufInit heap 0xffffffff) 0 1 = 0 := by
    have hempty : firstPart ⟨[], 0, 0, 0xffffffff⟩ 0 1 = 0 := by decide
    exact hempty
  have hmem : (ringBufInit heap 0xffffffff).mem = [] := rfl
  have hhead : (ringBufInit heap 0xffffffff).head = 0 := rfl
  simp [ringBufWrite, hhead, hfirst, hmem, copyIn]

/-- A ring buffer is a bounded queue, for every size but the one whose block size does
not fit into 32 bits. -/
theorem ringBuf_behavesAsQueue_iff (size : UInt32) (hsize : 1 ≤ size) :
    (∀ (heap : ℕ → UInt8) (rb : RingBuf) (q : List UInt8), RingBufRun heap size rb q →
      BehavesAsQueue size rb q) ↔ size.toNat + 1 < 2 ^ 32 := by
  constructor
  · intro hall
    by_contra hbig
    have hlt := UInt32.toNat_lt size
    have hmax : size = 0xffffffff := by
      rw [← UInt32.toNat_inj]
      change size.toNat = 4294967295
      omega
    subst hmax
    obtain ⟨rb', hw⟩ := (hall (fun _ ↦ 0) _ _ .init).write [0] (by decide)
    exact absurd ((not_write_init fun _ ↦ 0).symm.trans hw) (by simp)
  · intro hfits heap rb q hrun
    exact (hrun.inv hfits).behavesAsQueue hfits

/-- The smallest buffer that can hold two bytes. -/
theorem ringBuf_behavesAsQueue_iff_two :
    (∀ (heap : ℕ → UInt8) (rb : RingBuf) (q : List UInt8), RingBufRun heap 2 rb q →
      BehavesAsQueue 2 rb q) ↔ (2 : UInt32).toNat + 1 < 2 ^ 32 :=
  ringBuf_behavesAsQueue_iff 2 (by decide)

theorem not_behavesAsQueue_max_size :
    ¬ ∀ size : UInt32, 1 ≤ size → ∀ (heap : ℕ → UInt8) (rb : RingBuf) (q : List UInt8),
      RingBufRun heap size rb q → BehavesAsQueue size rb q := by
  intro hall
  obtain ⟨rb', hw⟩ := (hall 0xffffffff (by decide) (fun _ ↦ 0) _ _ .init).write [0] (by decide)
  exact absurd ((not_write_init fun _ ↦ 0).symm.trans hw) (by simp)

end Synchronet.Sbbs3
