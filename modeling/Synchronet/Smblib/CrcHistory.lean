import Synchronet.Lib.BoundedHistory
import Synchronet.Smblib.Defs

/-!
# The CRC history (smblib.c)

`smb_addcrc` keeps the checksums of the latest messages in the `.sch` file.  The
file is meant to be a bounded history of the accepted checksums.  It is one as
long as nothing has to be dropped: the offset of the entries to keep is counted
in bytes but added to a pointer to 32-bit words, so a shift keeps the wrong
entries and bytes from behind the buffer.
-/

namespace Synchronet.Smblib

open LittleEndian BoundedHistory

/-- `smb_addcrc` on the bytes of the `.sch` file.  `heap` are the bytes in memory
behind the buffer the file was read to. -/
def smbAddcrc (maxCrcs : UInt32) (heap : ℕ → UInt8) (sch : List UInt8) (crc : UInt32) :
    Code × List UInt8 :=
  if maxCrcs = 0 then (.success, sch)
  else
    let length := sch.length
    if length % 4 ≠ 0 then (.errFileLen, sch)
    else if length ≠ 0 ∧ crc ∈ unpackWords sch then (.dupeMsg, sch)
    else
      let kept :=
        if length ≠ 0 ∧ maxCrcs.toNat * 4 ≤ length then
          let newlen := (maxCrcs.toNat - 1) * 4
          -- `buf+(length-newlen)` advances by words, not by bytes
          (List.range newlen).map fun k ↦
            let i := 4 * (length - newlen) + k
            sch.getD i (heap (i - length))
        else sch
      (.success, kept ++ le 4 crc.toNat)

/-- A refused checksum leaves the file alone. -/
theorem smbAddcrc_snd_of_ne {maxCrcs : UInt32} {heap : ℕ → UInt8} {sch : List UInt8} {crc : UInt32}
    (h : (smbAddcrc maxCrcs heap sch crc).1 ≠ .success) :
    (smbAddcrc maxCrcs heap sch crc).2 = sch := by
  rw [smbAddcrc] at h ⊢
  split
  · rfl
  · rename_i hmax
    rw [if_neg hmax] at h
    dsimp only at h ⊢
    split
    · rfl
    · rename_i hlen
      rw [if_neg hlen] at h
      split
      · rfl
      · rename_i hmem
        rw [if_neg hmem] at h
        exact absurd rfl h

/-- An accepted checksum changes the file. -/
theorem smbAddcrc_snd_ne {maxCrcs : UInt32} {heap : ℕ → UInt8} {sch : List UInt8} {crc : UInt32}
    (hmax : maxCrcs ≠ 0) (h : (smbAddcrc maxCrcs heap sch crc).1 = .success) :
    (smbAddcrc maxCrcs heap sch crc).2 ≠ sch := by
  rw [smbAddcrc, if_neg hmax] at h ⊢
  dsimp only at h ⊢
  by_cases hlen : sch.length % 4 = 0
  · rw [if_neg (not_not.mpr hlen)] at h ⊢
    by_cases hmem : sch.length ≠ 0 ∧ crc ∈ unpackWords sch
    · rw [if_pos hmem] at h
      cases h
    · rw [if_neg hmem]
      intro heq
      refine hmem ⟨?_, ?_⟩
      · rintro hzero
        have := congrArg List.length heq
        simp [hzero] at this
      · rw [← heq]
        refine mem_unpackWords_append ?_ crc
        split
        · simp
        · exact hlen
  · rw [if_pos hlen] at h
    cases h

/-- What the calls of `smb_addcrc` do when the file is the bounded history of the
log of accepted checksums.  Each call finds its own heap. -/
def BehavesAsFifo (maxCrcs : UInt32) :
    (ℕ → ℕ → UInt8) → List UInt32 → List UInt8 → List UInt32 → Prop
  | _, _, _, [] => True
  | heap, log, sch, crc :: crcs =>
      let r := smbAddcrc maxCrcs (heap 0) sch crc
      if crc ∈ recent maxCrcs.toNat log then
        r = (.dupeMsg, sch) ∧ BehavesAsFifo maxCrcs (fun k ↦ heap (k + 1)) log r.2 crcs
      else
        r = (.success, packWords (recent maxCrcs.toNat (log ++ [crc]))) ∧
          BehavesAsFifo maxCrcs (fun k ↦ heap (k + 1)) (log ++ [crc]) r.2 crcs

/-! ## One call -/

section Step

variable {maxCrcs : UInt32} (hmax : 1 ≤ maxCrcs.toNat) (heap : ℕ → UInt8) {ws : List UInt32}
  {crc : UInt32}

include hmax

theorem maxCrcs_ne_zero : maxCrcs ≠ 0 := by
  rintro rfl
  simp at hmax

theorem smbAddcrc_of_mem (h : crc ∈ ws) :
    smbAddcrc maxCrcs heap (packWords ws) crc = (.dupeMsg, packWords ws) := by
  have hlen : ws.length ≠ 0 := List.length_pos_iff_exists_mem.mpr ⟨crc, h⟩ |>.ne'
  simp [smbAddcrc, maxCrcs_ne_zero hmax, h, hlen]

/-- With room left the checksum is appended. -/
theorem smbAddcrc_of_lt (h : crc ∉ ws) (hroom : ws.length < maxCrcs.toNat) :
    smbAddcrc maxCrcs heap (packWords ws) crc = (.success, packWords (ws ++ [crc])) := by
  have hkeep : ¬ maxCrcs.toNat * 4 ≤ 4 * ws.length := by omega
  simp [smbAddcrc, maxCrcs_ne_zero hmax, h, hkeep, packWords]

/-- A history of one entry keeps nothing. -/
theorem smbAddcrc_of_one (h : crc ∉ ws) (hone : maxCrcs.toNat = 1) (hfull : ws.length = 1) :
    smbAddcrc maxCrcs heap (packWords ws) crc = (.success, packWords [crc]) := by
  simp [smbAddcrc, maxCrcs_ne_zero hmax, h, hone, hfull, packWords]

end Step

/-- A longer full history does not keep what it should: the last byte it keeps is
byte 11 of the heap behind the buffer. -/
theorem exists_smbAddcrc_ne {maxCrcs : UInt32} {ws : List UInt32} {crc : UInt32}
    (htwo : 2 ≤ maxCrcs.toNat) (h : crc ∉ ws) (hfull : ws.length = maxCrcs.toNat)
    (bs : List UInt8) :
    ∃ heap, smbAddcrc maxCrcs heap (packWords ws) crc ≠ (.success, bs) := by
  set last := (maxCrcs.toNat - 1) * 4 - 1 with hlast
  refine ⟨fun _ ↦ bs.getD last 0 + 1, ?_⟩
  intro heq
  have hne := @maxCrcs_ne_zero maxCrcs (by omega)
  have hlen : ws.length ≠ 0 := by omega
  have hfull' : maxCrcs.toNat * 4 ≤ 4 * ws.length := by omega
  simp only [smbAddcrc, hne, if_false, length_packWords, unpackWords_packWords, h, and_false,
    ne_eq, Nat.mul_mod_right, not_true_eq_false, Nat.mul_eq_zero, hlen, or_false,
    OfNat.ofNat_ne_zero, not_false_eq_true, true_and, hfull', if_true, Prod.mk.injEq] at heq
  have hbyte := congrArg (fun l : List UInt8 ↦ l.getD last 0) heq
  have hin : last < (maxCrcs.toNat - 1) * 4 := by omega
  simp only [List.getD_eq_getElem?_getD] at hbyte
  rw [List.getElem?_append_left (by simpa using hin), List.getElem?_map, List.getElem?_range hin,
    Option.map_some, Option.getD_some,
    List.getElem?_eq_none (by rw [length_packWords]; omega), Option.getD_none] at hbyte
  -- the heap byte was chosen to differ
  simp at hbyte

/-! ## Runs of calls -/

/-- A property of runs with any heaps is a property of the rest of the run with
any heaps. -/
theorem forall_heap_tail {β : Type*} (P : (ℕ → β) → Prop) :
    (∀ heap : ℕ → β, P fun k ↦ heap (k + 1)) ↔ ∀ heap, P heap := by
  constructor
  · intro h heap
    simpa using h fun k ↦ heap (k - 1)
  · intro h heap
    exact h _

/-- A history of one entry is kept correctly. -/
theorem behavesAsFifo_of_one {maxCrcs : UInt32} (hone : maxCrcs.toNat = 1)
    (heap : ℕ → ℕ → UInt8) (log crcs : List UInt32) :
    BehavesAsFifo maxCrcs heap log (packWords (recent 1 log)) crcs := by
  induction crcs generalizing heap log with
  | nil => trivial
  | cons crc crcs ih =>
      rw [BehavesAsFifo, hone]
      split
      · rename_i hmem
        rw [smbAddcrc_of_mem (by omega) _ hmem]
        exact ⟨rfl, ih _ _⟩
      · rename_i hmem
        have hnew : recent 1 (log ++ [crc]) = [crc] := by
          rw [recent_append_singleton, recent, Nat.sub_zero, List.drop_length, List.nil_append]
        have hstep : smbAddcrc maxCrcs (heap 0) (packWords (recent 1 log)) crc =
            (.success, packWords (recent 1 (log ++ [crc]))) := by
          rw [hnew]
          rcases Nat.eq_zero_or_pos log.length with hz | hpos
          · have hnil : log = [] := List.eq_nil_of_length_eq_zero hz
            subst hnil
            exact smbAddcrc_of_lt (by omega) _ hmem (by simp [recent, hone])
          · exact smbAddcrc_of_one (by omega) _ hmem hone (by rw [length_recent]; omega)
        rw [hstep]
        exact ⟨rfl, ih _ _⟩

/-- A longer history is kept correctly exactly as long as nothing is dropped. -/
theorem behavesAsFifo_iff_of_two_le {maxCrcs : UInt32} (htwo : 2 ≤ maxCrcs.toNat)
    (log crcs : List UInt32) (hlog : log.length ≤ maxCrcs.toNat) :
    (∀ heap, BehavesAsFifo maxCrcs heap log (packWords log) crcs) ↔
      log.length + fresh log crcs ≤ maxCrcs.toNat := by
  induction crcs generalizing log with
  | nil => simpa [BehavesAsFifo] using hlog
  | cons crc crcs ih =>
      simp only [BehavesAsFifo, recent_of_length_le hlog]
      have hone : 1 ≤ maxCrcs.toNat := by omega
      by_cases hmem : crc ∈ log
      · simp only [hmem, if_true, smbAddcrc_of_mem hone _ hmem, true_and]
        rw [forall_heap_tail fun heap ↦ BehavesAsFifo maxCrcs heap log (packWords log) crcs,
          ih log hlog, fresh_cons_of_mem crcs hmem]
      · simp only [hmem, if_false]
        rw [fresh_cons_of_notMem crcs hmem]
        rcases Nat.lt_or_eq_of_le hlog with hroom | hfull
        · have hlog' : (log ++ [crc]).length ≤ maxCrcs.toNat := by
            simpa [Nat.succ_le_iff] using hroom
          simp only [smbAddcrc_of_lt hone _ hmem hroom,
            recent_of_length_le hlog', true_and]
          rw [forall_heap_tail fun heap ↦
            BehavesAsFifo maxCrcs heap (log ++ [crc]) (packWords (log ++ [crc])) crcs,
            ih _ hlog', List.length_append, List.length_singleton]
          omega
        · refine iff_of_false ?_ (by omega)
          intro hall
          obtain ⟨heap, hheap⟩ := exists_smbAddcrc_ne htwo hmem hfull
            (packWords (recent maxCrcs.toNat (log ++ [crc])))
          exact hheap (hall fun _ ↦ heap).1

/-- Calls of `smb_addcrc` keep a bounded history exactly when its capacity is one
or it never has to drop an entry. -/
theorem addcrc_behavesAsFifo_iff (maxCrcs : UInt32) (init crcs : List UInt32)
    (hmax : 1 ≤ maxCrcs.toNat) (hinit : init.length ≤ maxCrcs.toNat) :
    (∀ heap, BehavesAsFifo maxCrcs heap init (packWords init) crcs) ↔
      maxCrcs.toNat = 1 ∨ init.length + fresh init crcs ≤ maxCrcs.toNat := by
  rcases Nat.lt_or_eq_of_le hmax with htwo | hone
  · rw [behavesAsFifo_iff_of_two_le htwo init crcs hinit]
    exact (or_iff_right htwo.ne').symm
  · refine iff_of_true ?_ (Or.inl hone.symm)
    intro heap
    have := behavesAsFifo_of_one hone.symm heap init crcs
    rwa [recent_of_length_le (by omega)] at this

theorem addcrc_behavesAsFifo_iff_three :
    (∀ heap, BehavesAsFifo 3 heap [7] (packWords [7]) [8, 7, 9]) ↔
      (3 : UInt32).toNat = 1 ∨ [7].length + fresh [7] [8, 7, 9] ≤ (3 : UInt32).toNat :=
  addcrc_behavesAsFifo_iff 3 [7] [8, 7, 9] (by decide) (by decide)

/-- A history of two entries that accepts 1, 2 and 3 holds 3 and a word of the heap. -/
theorem not_behavesAsFifo_three_crcs :
    ¬ ∀ (maxCrcs : UInt32) (heap : ℕ → ℕ → UInt8) (init crcs : List UInt32),
      1 ≤ maxCrcs.toNat → init.length ≤ maxCrcs.toNat →
        BehavesAsFifo maxCrcs heap init (packWords init) crcs := by
  intro hall
  have hrun := hall 2 (fun _ _ ↦ 0) [] [1, 2, 3] (by decide) (by decide)
  have hthird : smbAddcrc 2 (fun _ ↦ 0) (packWords [1, 2]) 3 = (.success, packWords [2, 3]) :=
    hrun.2.2.1
  exact absurd hthird (by decide)

end Synchronet.Smblib
