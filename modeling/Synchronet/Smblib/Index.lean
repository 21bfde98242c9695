import Synchronet.Lib.Bisect
import Synchronet.Smblib.Defs

/-!
# The index (smblib.c)

Looking up a message by its number, writing its index record, and the checksums
that the record holds.
-/

namespace Synchronet.Smblib

open RecordFile Bisect

/-- The value of an `int32_t` assigned from a non-negative number. -/
def toInt32 (n : ℕ) : ℤ :=
  let r : ℕ := n % 2 ^ 32
  if r < 2 ^ 31 then r else (r : ℤ) - 2 ^ 32

theorem toInt32_of_lt {n : ℕ} (h : n < 2 ^ 31) : toInt32 n = n := by
  simp only [toInt32]
  rw [Nat.mod_eq_of_lt (by omega), if_pos h]

theorem toInt32_neg {n : ℕ} (hlo : 2 ^ 31 ≤ n) (hhi : n < 2 ^ 32) : toInt32 n < 0 := by
  simp only [toInt32]
  rw [Nat.mod_eq_of_lt hhi, if_neg (by omega)]
  omega

/-! ## Reading -/

/-- The search loop of `smb_getmsgidx`, for a number of rounds; `none` when it has
not ended. -/
def getmsgidxLoop (sid : List IdxRec) (number : UInt32) :
    ℕ → ℕ → ℕ → ℕ → Option (Except Code (IdxRec × ℕ))
  | 0, _, _, _ => none
  | n + 1, bot, top, l =>
      match sid[l]? with
      | none => some (.error .errNotFound)
      | some idx =>
          if bot + 1 = top ∧ idx.number ≠ number then some (.error .errNotFound)
          else if number < idx.number then
            getmsgidxLoop sid number n bot l (bot + (l - bot) / 2)
          else if idx.number < number then
            getmsgidxLoop sid number n l top (top - (top - l) / 2)
          else some (.ok (idx, l))

/-- The rounds of the search from its start.  `sid.length + 1` of them are enough
(`getmsgidxSearch_ends`). -/
def getmsgidxSearch (sid : List IdxRec) (number : UInt32) (n : ℕ) :
    Option (Except Code (IdxRec × ℕ)) :=
  getmsgidxLoop sid number n 0 sid.length (sid.length / 2)

def smbGetmsgidx (sid : List IdxRec) (msg : SmbMsg) : Except Code SmbMsg :=
  if sid.length = 0 then .error .errFileLen
  else if msg.hdr.number = 0 then
    let pos : ℤ := if msg.offset < 0 then sid.length + msg.offset else msg.offset
    if sid.length ≤ pos then .error .errHdrOffset
    else if pos < 0 then .error .errSeek
    else .ok { msg with idx := sid.getD pos.toNat {}, offset := toInt32 pos.toNat }
  else
    match (getmsgidxSearch sid msg.hdr.number (sid.length + 1)).getD (.error .errNotFound) with
    | .error code => .error code
    | .ok (idx, l) => .ok { msg with idx := idx, offset := toInt32 l }

/-! ## Writing -/

def smbPutmsgidx (sid : List IdxRec) (msg : SmbMsg) : Code × List IdxRec :=
  if (sid.length : ℤ) < msg.offset then (.errHdrOffset, sid)
  else if msg.offset < 0 then (.errSeek, sid)
  else (.success, writeAt {} sid msg.offset.toNat [msg.idx])

/-- `tolower` in the C locale, on each byte. -/
def strlwr (s : List UInt8) : List UInt8 := s.map fun c ↦ if 65 ≤ c ∧ c ≤ 90 then c + 32 else c

/-- Leading `RE:` prefixes, and the spaces behind each, are dropped.  The string
gets shorter with each of the rounds. -/
def stripRe : ℕ → List UInt8 → List UInt8
  | 0, s => s
  | n + 1, s =>
      if strlwr (s.take 3) = [114, 101, 58] then stripRe n ((s.drop 3).dropWhile (· = 32)) else s

def smbSubjectCrc (env : Env) : Option (List UInt8) → UInt16
  | none => 0
  | some subj => env.crc16 (strlwr (stripRe subj.length subj))

def smbNameCrc (env : Env) : Option (List UInt8) → UInt16
  | none => 0
  | some name => env.crc16 (strlwr name)

/-- `isspace` in the C locale. -/
def isspace (c : UInt8) : Bool := c = 32 ∨ (9 ≤ c ∧ c ≤ 13)

/-- The digits at the start of a string. -/
def digitsValue (s : List UInt8) : ℕ :=
  (s.takeWhile fun c ↦ decide (48 ≤ c ∧ c ≤ 57)).foldl (fun n c ↦ 10 * n + (c.toNat - 48)) 0

def atoi (s : List UInt8) : ℤ :=
  match s.dropWhile isspace with
  | 45 :: rest => -digitsValue rest
  | 43 :: rest => digitsValue rest
  | rest => digitsValue rest

/-- The extension of a name as a 16-bit user number. -/
def extNumber (ext : Option (List UInt8)) : UInt16 :=
  match ext with
  | none => 0
  | some s => UInt16.ofNat (atoi s % 65536).toNat

/-- `smb_init_idx`.  Its branch for ballots is left out: `smbdefs.h` has neither the
message type nor the index fields it uses. -/
def smbInitIdx (env : Env) (attr : UInt16) (msg : SmbMsg) : SmbMsg :=
  let email := attr &&& smbEmail ≠ 0
  { msg with
    idx := { msg.idx with
      subj := smbSubjectCrc env msg.conv.subj
      to_ := if email then extNumber msg.conv.toExt else smbNameCrc env msg.conv.to_
      from_ := if email then extNumber msg.conv.fromExt else smbNameCrc env msg.conv.from_
      number := msg.hdr.number
      attr := msg.hdr.attr
      time := msg.hdr.whenImported.time } }

/-! ## What a lookup finds -/

/-- The message numbers in the order of the index. -/
def numbers (sid : List IdxRec) : List ℕ := sid.map fun idx ↦ idx.number.toNat

theorem getElem?_numbers (sid : List IdxRec) (i : ℕ) :
    (numbers sid)[i]? = sid[i]?.map fun idx ↦ idx.number.toNat := List.getElem?_map

@[simp] theorem length_numbers (sid : List IdxRec) : (numbers sid).length = sid.length :=
  List.length_map _

/-- The search is the bisection of the message numbers. -/
theorem getmsgidxLoop_eq (sid : List IdxRec) (number : UInt32) (n bot top l : ℕ) :
    getmsgidxLoop sid number n bot top l =
      (bisect (numbers sid) number.toNat n bot top l).map fun r ↦
        match r with
        | none => .error .errNotFound
        | some i => .ok (sid.getD i {}, i) := by
  induction n generalizing bot top l with
  | zero => rfl
  | succ n ih =>
      rw [getmsgidxLoop, bisect, getElem?_numbers]
      cases hget : sid[l]? with
      | none => rfl
      | some idx =>
          simp only [Option.map_some, UInt32.lt_iff_toNat_lt, ne_eq, UInt32.toNat_inj]
          split
          · rfl
          · split
            · exact ih _ _ _
            · split
              · exact ih _ _ _
              · simp [List.getD_eq_getElem?_getD, hget]

/-- The search ends on every index file. -/
theorem getmsgidxSearch_ends (sid : List IdxRec) (number : UInt32) (hsid : sid ≠ []) :
    ∃ r, getmsgidxSearch sid number (sid.length + 1) = some r := by
  have hpos : 0 < sid.length := List.length_pos_iff.mpr hsid
  obtain ⟨r, hr⟩ := bisect_ends (numbers sid) number.toNat (n := sid.length + 1)
    (Window.start hpos) (by omega)
  rw [getmsgidxSearch, getmsgidxLoop_eq, hr]
  exact ⟨_, rfl⟩

/-- A message number of the index is found, with its record and position. -/
theorem smbGetmsgidx_of_getElem? {sid : List IdxRec} (hs : (numbers sid).Pairwise (· < ·))
    {msg : SmbMsg} (hnum : msg.hdr.number ≠ 0) {i : ℕ} {idx : IdxRec} (hi : sid[i]? = some idx)
    (hidx : idx.number = msg.hdr.number) :
    smbGetmsgidx sid msg = .ok { msg with idx := idx, offset := toInt32 i } := by
  obtain ⟨hlt, -⟩ := List.getElem?_eq_some_iff.mp hi
  have hkey : (numbers sid)[i]? = some msg.hdr.number.toNat := by
    rw [getElem?_numbers, hi, Option.map_some, hidx]
  have hfind := bisect_of_getElem? hs hkey (n := sid.length + 1)
    (Window.start (by omega : 0 < sid.length)) (Nat.zero_le _) hlt (by omega) (by simp) (by omega)
  rw [smbGetmsgidx, if_neg (by omega), if_neg hnum, getmsgidxSearch, getmsgidxLoop_eq, hfind]
  simp [List.getD_eq_getElem?_getD, hi]

/-- Whatever a lookup by number returns is a record of the index. -/
theorem smbGetmsgidx_ok {sid : List IdxRec} {msg msg' : SmbMsg} (hnum : msg.hdr.number ≠ 0)
    (h : smbGetmsgidx sid msg = .ok msg') :
    ∃ i idx, sid[i]? = some idx ∧ idx.number = msg.hdr.number ∧
      msg' = { msg with idx := idx, offset := toInt32 i } := by
  rw [smbGetmsgidx] at h
  split at h
  · cases h
  · rw [getmsgidxSearch, getmsgidxLoop_eq] at h
    cases hb : bisect (numbers sid) msg.hdr.number.toNat (sid.length + 1) 0 sid.length
        (sid.length / 2) with
    | none =>
        rw [hb] at h
        cases h
    | some r =>
        rw [hb] at h
        cases r with
        | none => cases h
        | some i =>
            have hkey := getElem?_of_bisect _ _ hb
            rw [getElem?_numbers] at hkey
            obtain ⟨idx, hidx, hnumber⟩ := Option.map_eq_some_iff.mp hkey
            refine ⟨i, idx, hidx, UInt32.toNat_inj.mp hnumber, ?_⟩
            simp only [Option.map_some, Option.getD_some, List.getD_eq_getElem?_getD, hidx,
              Except.ok.injEq] at h
            exact h.symm

theorem smbGetmsgidx_error_ne {sid : List IdxRec} {msg : SmbMsg} {code : Code}
    (h : smbGetmsgidx sid msg = .error code) : code ≠ .success := by
  rintro rfl
  rw [smbGetmsgidx] at h
  split at h
  · cases h
  · split at h
    · dsimp only at h
      generalize (if msg.offset < 0 then (sid.length : ℤ) + msg.offset else msg.offset) = pos at h
      split at h
      · cases h
      · split at h <;> cases h
    · rw [getmsgidxSearch, getmsgidxLoop_eq] at h
      generalize bisect (numbers sid) msg.hdr.number.toNat (sid.length + 1) 0 sid.length
        (sid.length / 2) = r at h
      cases r with
      | none => cases h
      | some r => cases r <;> cases h

/-- A number that the index does not hold is not found. -/
theorem smbGetmsgidx_error {sid : List IdxRec} {msg : SmbMsg} (hnum : msg.hdr.number ≠ 0)
    (hnone : ∀ idx ∈ sid, idx.number ≠ msg.hdr.number) :
    ∃ code, smbGetmsgidx sid msg = .error code := by
  cases h : smbGetmsgidx sid msg with
  | error code => exact ⟨code, rfl⟩
  | ok msg' =>
      obtain ⟨i, idx, hi, hidx, -⟩ := smbGetmsgidx_ok hnum h
      exact absurd hidx (hnone idx (List.mem_of_getElem? hi))

end Synchronet.Smblib
