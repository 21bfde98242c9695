import Synchronet.Smblib.Defs
import Mathlib.Algebra.Order.BigOperators.Group.List
import Mathlib.Data.Nat.Cast.Order.Basic
import Mathlib.Data.UInt

/-!
# Messages in memory (smblib.c)

The functions that add, extend and replace header and data fields of a message
in memory, and what they keep: a message that was storable, its header within
64K and every recorded length true, should be storable afterwards.

`mem n` says whether the `n`-th allocation request of a call is met.
-/

namespace Synchronet.Smblib

open LittleEndian

/-! ## The functions -/

/-- `smb_getmsghdrlen`. -/
def smbGetmsghdrlen (msg : SmbMsg) : ℕ :=
  msghdrSize + msg.hdr.totalDfields.toNat * dfieldSize +
    (msg.hfield.map fun h ↦ hfieldSize + h.length.toNat).sum

def smbGetmsgdatlen (msg : SmbMsg) : ℕ := (msg.dfields.map fun d ↦ d.length.toNat).sum

/-- `set_convenience_ptr`, for the variables that are modelled. -/
def setConveniencePtr (c : Convenience) (type : UInt16) (dat : List UInt8) : Convenience :=
  if type = sender then
    -- a second sender field falls through to the case of FORWARDED
    if c.from_ = none ∨ c.from_ = some [] then { c with from_ := some (cstr dat) }
    else { c with forwarded := true }
  else if type = forwarded then { c with forwarded := true }
  else if type = senderext then
    if c.forwarded then c else { c with fromExt := some (cstr dat) }
  else if type = recipient then { c with to_ := some (cstr dat) }
  else if type = recipientext then { c with toExt := some (cstr dat) }
  else if type = subject then { c with subj := some (cstr dat) }
  else if type = smbExpiration then { c with expiration := UInt32.ofNat (ofLe (dat.take 4)) }
  else if type = rfc822msgid then { c with id := some (cstr dat) }
  else if type = rfc822replyid then { c with replyId := some (cstr dat) }
  else if type = fidomsgid then { c with ftnMsgid := some (cstr dat) }
  else if type = fidoreplyid then { c with ftnReply := some (cstr dat) }
  else c

def smbHfieldAdd (mem : ℕ → Bool) (msg : SmbMsg) (type : UInt16) (data : List UInt8)
    (insert : Bool) : Code × SmbMsg :=
  if smbMaxHdrLen < smbGetmsghdrlen msg + hfieldSize + data.length then (.errHdrLen, msg)
  else if !mem 0 then (.errMem, msg)
  else if !mem 1 then (.errMem, msg)
  else
    let place (h : HField) : List HField :=
      if insert then h :: msg.hfield else msg.hfield ++ [h]
    -- the field is counted before its data is allocated
    if !mem 2 then
      (.errMem, { msg with hfield := place ⟨type, UInt16.ofNat data.length, none⟩ })
    else
      (.success, { msg with
        hfield := place ⟨type, UInt16.ofNat data.length, some data⟩
        conv := setConveniencePtr msg.conv type data })

/-- The position of the last header field of a type. -/
def lastOfType (type : UInt16) : List HField → Option ℕ
  | [] => none
  | h :: hs =>
      match lastOfType type hs with
      | some i => some (i + 1)
      | none => if h.type = type then some 0 else none

def smbHfieldAppend (mem : ℕ → Bool) (msg : SmbMsg) (type : UInt16) (data : List UInt8) :
    Code × SmbMsg :=
  if data = [] then (.success, msg)
  else
    match lastOfType type msg.hfield with
    | none => (.errNotFound, msg)
    | some i =>
        if smbMaxHdrLen < smbGetmsghdrlen msg + data.length then (.errHdrLen, msg)
        else if !mem 0 then (.errMem, msg)
        else
          let h := msg.hfield.getD i ⟨0, 0, none⟩
          let dat := h.bytes ++ data
          (.success, { msg with
            hfield := msg.hfield.set i ⟨h.type, h.length + UInt16.ofNat data.length, some dat⟩
            conv := setConveniencePtr msg.conv type dat })

def smbHfieldReplace (mem : ℕ → Bool) (msg : SmbMsg) (type : UInt16) (data : List UInt8) :
    Code × SmbMsg :=
  match lastOfType type msg.hfield with
  | none => (.errNotFound, msg)
  | some i =>
      if !mem 0 then (.errMem, msg)
      else
        let h := msg.hfield.getD i ⟨0, 0, none⟩
        (.success, { msg with
          hfield := msg.hfield.set i ⟨h.type, UInt16.ofNat data.length, some data⟩
          conv := setConveniencePtr msg.conv type data })

def smbDfield (mem : ℕ → Bool) (msg : SmbMsg) (type : UInt16) (length : ℕ) : Code × SmbMsg :=
  if !mem 0 then (.errMem, msg)
  else
    let d : DField :=
      { type := type
        offset := (msg.dfields.map DField.length).sum
        length := UInt32.ofNat length }
    (.success, { msg with
      hdr := { msg.hdr with totalDfields := msg.hdr.totalDfields + 1 }
      dfield := msg.dfields ++ [d] })

/-! ## Small facts -/

theorem lastOfType_eq_some {type : UInt16} {hs : List HField} {i : ℕ}
    (h : lastOfType type hs = some i) : ∃ f, hs[i]? = some f ∧ f.type = type := by
  induction hs generalizing i with
  | nil => simp [lastOfType] at h
  | cons f hs ih =>
      rw [lastOfType] at h
      split at h
      · rename_i j hj
        cases h
        simpa using ih hj
      · split at h
        · rename_i hf
          cases h
          exact ⟨f, rfl, hf⟩
        · cases h

/-- Replacing one element changes a sum by the difference of two terms. -/
theorem sum_map_set {α : Type*} (f : α → ℕ) {l : List α} {i : ℕ} {a : α} (b : α)
    (ha : l[i]? = some a) : ((l.set i b).map f).sum + f a = (l.map f).sum + f b := by
  induction l generalizing i with
  | nil => simp at ha
  | cons c l ih =>
      cases i with
      | zero =>
          cases ha
          simp only [List.set_cons_zero, List.map_cons, List.sum_cons]
          omega
      | succ i =>
          have := ih (i := i) (by simpa using ha)
          simp only [List.set_cons_succ, List.map_cons, List.sum_cons]
          omega

/-- A field is no longer than the header it is part of. -/
theorem length_le_getmsghdrlen {msg : SmbMsg} {i : ℕ} {h : HField}
    (hi : msg.hfield[i]? = some h) : 74 + h.length.toNat ≤ smbGetmsghdrlen msg := by
  have hmem : hfieldSize + h.length.toNat ∈
      msg.hfield.map fun h ↦ hfieldSize + h.length.toNat :=
    List.mem_map.mpr ⟨h, List.mem_of_getElem? hi, rfl⟩
  have := List.le_sum_of_mem hmem
  simp only [smbGetmsghdrlen, msghdrSize, dfieldSize, hfieldSize] at this ⊢
  omega

theorem getmsghdrlen_set {msg msg' : SmbMsg} {i : ℕ} {h : HField} (b : HField)
    (hi : msg.hfield[i]? = some h) (hset : msg'.hfield = msg.hfield.set i b)
    (hhdr : msg'.hdr = msg.hdr) :
    smbGetmsghdrlen msg' + h.length.toNat = smbGetmsghdrlen msg + b.length.toNat := by
  have := sum_map_set (fun h : HField ↦ hfieldSize + h.length.toNat) b hi
  rw [smbGetmsghdrlen, smbGetmsghdrlen, hset, hhdr]
  omega

/-! ## What the mutators keep -/

/-- A header field whose recorded length is the length of its data. -/
def HField.Exact (h : HField) : Prop := ∃ d, h.dat = some d ∧ d.length = h.length.toNat

/-- A message that can be written and read back. -/
def Storable (msg : SmbMsg) : Prop :=
  smbGetmsghdrlen msg ≤ smbMaxHdrLen ∧ ∀ h ∈ msg.hfield, h.Exact

/-- The outcome of a mutator: an error and the old message, or a storable one. -/
def Keeps (msg : SmbMsg) (r : Code × SmbMsg) : Prop :=
  (r.1 ≠ .success ∧ r.2 = msg) ∨ Storable r.2

/-- A call of one of the four mutators. -/
inductive Mutation
  | hfieldAdd (type : UInt16) (data : List UInt8) (insert : Bool)
  | hfieldAppend (type : UInt16) (data : List UInt8)
  | hfieldReplace (type : UInt16) (data : List UInt8)
  | dfield (type : UInt16) (length : ℕ)

def Mutation.run (mem : ℕ → Bool) (msg : SmbMsg) : Mutation → Code × SmbMsg
  | hfieldAdd type data insert => smbHfieldAdd mem msg type data insert
  | hfieldAppend type data => smbHfieldAppend mem msg type data
  | hfieldReplace type data => smbHfieldReplace mem msg type data
  | dfield type length => smbDfield mem msg type length

/-- The calls that keep a storable message storable.  `smb_hfield_add` spoils it
when only the last of its three allocations fails, `smb_hfield_replace` and
`smb_dfield` when the new length does not fit. -/
def Mutation.Safe (mem : ℕ → Bool) (msg : SmbMsg) : Mutation → Prop
  | hfieldAdd _ data _ =>
      ¬ (smbGetmsghdrlen msg + hfieldSize + data.length ≤ smbMaxHdrLen ∧
        mem 0 = true ∧ mem 1 = true ∧ mem 2 = false)
  | hfieldAppend _ _ => True
  | hfieldReplace type data =>
      ∀ i h, lastOfType type msg.hfield = some i → msg.hfield[i]? = some h → mem 0 = true →
        smbGetmsghdrlen msg + data.length ≤ smbMaxHdrLen + h.length.toNat
  | dfield _ _ => mem 0 = true → smbGetmsghdrlen msg + dfieldSize ≤ smbMaxHdrLen

theorem toNat_ofNat_uint16 {n : ℕ} (h : n ≤ smbMaxHdrLen) : (UInt16.ofNat n).toNat = n := by
  simp only [smbMaxHdrLen] at h
  rw [UInt16.toNat_ofNat', Nat.mod_eq_of_lt (by omega)]

theorem exact_ofNat_iff (type : UInt16) (data : List UInt8) :
    (HField.mk type (UInt16.ofNat data.length) (some data)).Exact ↔
      data.length ≤ smbMaxHdrLen := by
  constructor
  · rintro ⟨d, hd, hlen⟩
    cases hd
    rw [hlen]
    have := UInt16.toNat_lt (UInt16.ofNat data.length)
    simp only [smbMaxHdrLen]
    omega
  · intro h
    exact ⟨data, rfl, (toNat_ofNat_uint16 h).symm⟩

theorem keeps_hfieldAdd (mem : ℕ → Bool) {msg : SmbMsg} (hs : Storable msg) (type : UInt16)
    (data : List UInt8) (insert : Bool) :
    Keeps msg (smbHfieldAdd mem msg type data insert) ↔
      (Mutation.hfieldAdd type data insert).Safe mem msg := by
  simp only [Mutation.Safe]
  rw [smbHfieldAdd]
  by_cases hfit : smbMaxHdrLen < smbGetmsghdrlen msg + hfieldSize + data.length
  · rw [if_pos hfit]
    exact iff_of_true (Or.inl ⟨by simp, rfl⟩) (fun h ↦ by omega)
  rw [if_neg hfit]
  cases h0 : mem 0
  · exact iff_of_true (Or.inl ⟨by simp, by simp⟩) (by simp)
  cases h1 : mem 1
  · exact iff_of_true (Or.inl ⟨by simp, by simp⟩) (by simp)
  cases h2 : mem 2
  · -- the field has been added without data
    refine iff_of_false ?_ (fun h ↦ h ⟨by omega, rfl, rfl, rfl⟩)
    rintro (⟨-, hsame⟩ | hstor)
    · have hlen := congrArg (fun m : SmbMsg ↦ m.hfield.length) hsame
      cases insert <;> simp at hlen
    · obtain ⟨d, hd, -⟩ := hstor.2 ⟨type, UInt16.ofNat data.length, none⟩ (by cases insert <;> simp)
      cases hd
  · refine iff_of_true (Or.inr ⟨?_, ?_⟩) (by simp)
    · have hlen : (UInt16.ofNat data.length).toNat = data.length :=
        toNat_ofNat_uint16 (by omega)
      simp only [smbGetmsghdrlen] at hfit ⊢
      cases insert <;> simp [hlen] at hfit ⊢ <;> omega
    · intro h hh
      have hnew : (HField.mk type (UInt16.ofNat data.length) (some data)).Exact :=
        (exact_ofNat_iff type data).mpr (by omega)
      cases insert <;> simp at hh <;> rcases hh with hh | hh
      · exact hs.2 h hh
      · exact hh ▸ hnew
      · exact hh ▸ hnew
      · exact hs.2 h hh

theorem keeps_hfieldAppend (mem : ℕ → Bool) {msg : SmbMsg} (hs : Storable msg) (type : UInt16)
    (data : List UInt8) : Keeps msg (smbHfieldAppend mem msg type data) := by
  rw [smbHfieldAppend]
  by_cases hd : data = []
  · rw [if_pos hd]
    exact Or.inr hs
  rw [if_neg hd]
  cases hlast : lastOfType type msg.hfield with
  | none => exact Or.inl ⟨by simp, rfl⟩
  | some i =>
      obtain ⟨f, hf, -⟩ := lastOfType_eq_some hlast
      obtain ⟨old, hold, holdlen⟩ := hs.2 f (List.mem_of_getElem? hf)
      dsimp only
      by_cases hfit : smbMaxHdrLen < smbGetmsghdrlen msg + data.length
      · rw [if_pos hfit]
        exact Or.inl ⟨by simp, rfl⟩
      rw [if_neg hfit]
      cases h0 : mem 0
      · exact Or.inl ⟨by simp, by simp⟩
      have hle := length_le_getmsghdrlen hf
      have hsum : (f.length + UInt16.ofNat data.length).toNat = f.length.toNat + data.length := by
        rw [UInt16.toNat_add, UInt16.toNat_ofNat']
        simp only [smbMaxHdrLen] at hfit
        omega
      have hbytes : f.bytes = old := by
        rw [HField.bytes, hold, Option.getD_some, ← holdlen, List.take_length]
      have hget : msg.hfield.getD i ⟨0, 0, none⟩ = f := by
        rw [List.getD_eq_getElem?_getD, hf, Option.getD_some]
      rw [hget, hbytes]
      refine Or.inr ⟨?_, ?_⟩
      · have := @getmsghdrlen_set _ { msg with
            hfield := msg.hfield.set i
              ⟨f.type, f.length + UInt16.ofNat data.length, some (old ++ data)⟩
            conv := setConveniencePtr msg.conv type (old ++ data) } _ _ _ hf rfl rfl
        rw [hsum] at this
        simp only [Bool.not_true, Bool.false_eq_true, if_false]
        omega
      · intro h hh
        simp only [Bool.not_true, Bool.false_eq_true, if_false] at hh
        rcases List.mem_or_eq_of_mem_set hh with hh | rfl
        · exact hs.2 h hh
        · exact ⟨old ++ data, rfl, by rw [hsum, List.length_append, holdlen]⟩

theorem keeps_hfieldReplace (mem : ℕ → Bool) {msg : SmbMsg} (hs : Storable msg) (type : UInt16)
    (data : List UInt8) :
    Keeps msg (smbHfieldReplace mem msg type data) ↔
      (Mutation.hfieldReplace type data).Safe mem msg := by
  simp only [Mutation.Safe]
  rw [smbHfieldReplace]
  cases hlast : lastOfType type msg.hfield with
  | none => exact iff_of_true (Or.inl ⟨by simp, rfl⟩) (by simp)
  | some i =>
      obtain ⟨f, hf, -⟩ := lastOfType_eq_some hlast
      cases h0 : mem 0
      · exact iff_of_true (Or.inl ⟨by simp, by simp⟩) (by simp)
      have hle := length_le_getmsghdrlen hf
      have hget : msg.hfield.getD i ⟨0, 0, none⟩ = f := by
        rw [List.getD_eq_getElem?_getD, hf, Option.getD_some]
      set b : HField := ⟨f.type, UInt16.ofNat data.length, some data⟩ with hb
      set msg' : SmbMsg := { msg with
        hfield := msg.hfield.set i b
        conv := setConveniencePtr msg.conv type data } with hmsg'
      have hlen := @getmsghdrlen_set _ msg' _ _ b hf rfl rfl
      have hbmem : b ∈ msg'.hfield := by
        obtain ⟨hi, -⟩ := List.getElem?_eq_some_iff.mp hf
        exact List.mem_set hi b
      have hkeeps : Keeps msg (.success, msg') ↔ Storable msg' := by simp [Keeps]
      simp only [hget, Bool.not_true, Bool.false_eq_true, if_false, ← hb, ← hmsg', hkeeps]
      constructor
      · rintro ⟨hshort, hexact⟩ j g hj hg -
        cases hj
        rw [hf] at hg
        cases hg
        have hdata := (exact_ofNat_iff f.type data).mp (hexact b hbmem)
        rw [show b.length.toNat = data.length from toNat_ofNat_uint16 hdata] at hlen
        omega
      · intro hsafe
        have hfits := hsafe i f rfl hf trivial
        have hdata : data.length ≤ smbMaxHdrLen := by omega
        rw [show b.length.toNat = data.length from toNat_ofNat_uint16 hdata] at hlen
        refine ⟨by omega, ?_⟩
        intro h hh
        rcases List.mem_or_eq_of_mem_set hh with hh | rfl
        · exact hs.2 h hh
        · exact (exact_ofNat_iff f.type data).mpr hdata

theorem keeps_dfield (mem : ℕ → Bool) {msg : SmbMsg} (hs : Storable msg) (type : UInt16)
    (length : ℕ) :
    Keeps msg (smbDfield mem msg type length) ↔ (Mutation.dfield type length).Safe mem msg := by
  simp only [Mutation.Safe]
  rw [smbDfield]
  cases h0 : mem 0
  · exact iff_of_true (Or.inl ⟨by simp, by simp⟩) (by simp)
  have hle := hs.1
  have hcount : (msg.hdr.totalDfields + 1).toNat = msg.hdr.totalDfields.toNat + 1 := by
    simp only [smbGetmsghdrlen, smbMaxHdrLen, msghdrSize, dfieldSize] at hle
    rw [UInt16.toNat_add, Nat.mod_eq_of_lt]
    · rfl
    · simp
      omega
  simp only [Keeps, Storable, Bool.not_true, Bool.false_eq_true, if_false, ne_eq, not_true_eq_false,
    false_and, false_or, forall_const]
  simp only [smbGetmsghdrlen, hcount, dfieldSize, msghdrSize]
  constructor
  · rintro ⟨hfit, -⟩
    omega
  · intro hfit
    exact ⟨by omega, hs.2⟩

/-- The mutators keep a storable message storable exactly in the safe calls. -/
theorem mutation_keeps_iff (mem : ℕ → Bool) (msg : SmbMsg) (m : Mutation) (hs : Storable msg) :
    Keeps msg (m.run mem msg) ↔ m.Safe mem msg := by
  cases m with
  | hfieldAdd type data insert => exact keeps_hfieldAdd mem hs type data insert
  | hfieldAppend type data => exact iff_of_true (keeps_hfieldAppend mem hs type data) trivial
  | hfieldReplace type data => exact keeps_hfieldReplace mem hs type data
  | dfield type length => exact keeps_dfield mem hs type length

/-- A message whose only header field is a two-byte subject. -/
def subjectMsg : SmbMsg := { hfield := [⟨subject, 2, some [104, 105]⟩] }

theorem storable_subjectMsg : Storable subjectMsg := by
  refine ⟨by decide, ?_⟩
  intro h hh
  rw [subjectMsg, List.mem_singleton] at hh
  exact hh ▸ ⟨[104, 105], rfl, rfl⟩

theorem mutation_keeps_iff_subjectMsg :
    Keeps subjectMsg ((Mutation.hfieldReplace subject [111, 107, 33]).run (fun _ ↦ true) subjectMsg) ↔
      (Mutation.hfieldReplace subject [111, 107, 33]).Safe (fun _ ↦ true) subjectMsg :=
  mutation_keeps_iff (fun _ ↦ true) subjectMsg _ storable_subjectMsg

/-- Replacing the subject by 65536 bytes succeeds and records the length 0. -/
theorem not_keeps_long_subject :
    ¬ ∀ (mem : ℕ → Bool) (msg : SmbMsg) (m : Mutation), Storable msg → Keeps msg (m.run mem msg) := by
  intro hall
  have hkeeps := hall (fun _ ↦ true) subjectMsg
    (.hfieldReplace subject (List.replicate 65536 97)) storable_subjectMsg
  have hfits := (keeps_hfieldReplace _ storable_subjectMsg _ _).mp hkeeps 0 _ rfl rfl rfl
  rw [List.length_replicate] at hfits
  exact absurd hfits (by decide)

end Synchronet.Smblib
