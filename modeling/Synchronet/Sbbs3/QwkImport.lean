import Synchronet.Sbbs3.QwkText
import Mathlib.Tactic.Linarith

/-!
# The buffers of a QWK import (qwktomsg.cpp)

`qwk_import_msg` with the sizes of its buffers.  When the file is too short for the blocks of the
message, the buffer that was to hold them is freed and read all the same.
-/

namespace Synchronet.Sbbs3.Qwk

open Xpdev (Str)

/-! ## The loop with its buffers -/

/-- `buffer[len++]=c` in a buffer of `cap` bytes -/
def store (cap : ℕ) (buffer : Str) (c : UInt8) : Option Str :=
  if buffer.length < cap then some (buffer ++ [c]) else none

/-- `len--` -/
def unstore (buffer : Str) : Option Str := if buffer = [] then none else some buffer.dropLast

/-- `strcpy`, with the NUL -/
def copyIn (cap : ℕ) (text : Str) : Option Str := if text.length < cap then some text else none

/-- The three dashes at the end of the body go, and the tail begins. -/
def splitTearIn (cap : ℕ) (s : Import) (text : Str) : Option Import := do
  let tail ← copyIn cap text
  return { s with
    body := s.body.take (s.body.length - 3)
    tail }

/-- CR and LF -/
def endLineIn (cap : ℕ) (s : Import) : Option Import := do
  if s.tail ≠ [] then
    let tail ← store cap s.tail 13
    return { s with tail := ← store cap tail 10, col := 0 }
  else
    let body ← store cap s.body 13
    return { s with body := ← store cap body 10, col := 0 }

def newlineIn (cap : ℕ) (s : Import) : Option Import :=
  if s.body = [] ∧ s.tail = [] then some s
  else if atTear s then do endLineIn cap (← splitTearIn cap s tear)
  else endLineIn cap s

def keepCharIn (cap : ℕ) (s : Import) (c : UInt8) : Option Import := do
  let col := if c ≠ 1 ∧ s.lastch ≠ 1 then s.col + 1 else s.col
  if s.lastch = 1 ∧ ¬validCtrlACode c then
    if s.tail ≠ [] then return { s with tail := ← unstore s.tail, col, lastch := 0 }
    else return { s with body := ← unstore s.body, col, lastch := 0 }
  else if s.tail ≠ [] then return { s with tail := ← store cap s.tail c, col, lastch := c }
  else return { s with body := ← store cap s.body c, col, lastch := c }

def importCharIn (cap : ℕ) (o : Importer) (s : Import) (c : UInt8) : Option Import :=
  if c = 32 ∧ atTear s then do
    let s ← splitTearIn cap s (tear ++ [32])
    return { s with col := s.col + 1 }
  else if c = qwkNewline then newlineIn cap s
  else if ¬o.fromHub ∧ c = 7 ∧ o.restB then some s
  else if ¬o.fromHub ∧ (c = 1 ∨ c = 27) ∧ o.restA then some s
  else keepCharIn cap s c

/-- The loop of `qwk_import_msg`; `none` when it reads behind the blocks or writes outside the
body or the tail, which have `cap` bytes each. -/
def importLoopIn (cap : ℕ) (o : Importer) (s : Import) : Str → Option Import
  | [] => some s
  | c :: rest =>
      if c = 0 then importLoopIn cap o s rest
      else
        match look o s (c :: rest) with
        | none => none
        | some .text => do importLoopIn cap o (← importCharIn cap o s c) rest
        | some .char => do importLoopIn cap o { s with body := ← store cap s.body c } rest
        | some (.line length) =>
            importLoopIn cap o { s with kludges := s.kludges ++ [(c :: rest).take length] }
              (rest.drop length)
  termination_by text => text.length
  decreasing_by all_goals simp only [List.length_drop, List.length_cons]; omega

/-- The bytes of the blocks behind the header. -/
def blocksSize (blocks : UInt32) : ℕ := (blocks.toNat - 1) * qwkBlockLen

/-- The body and the tail of the message whose header gives the number of blocks, with what is
left of the file. -/
def qwkImportBuffers (o : Importer) (blocks : UInt32) (file : Str) : Option (Str × Str) :=
  let size := blocksSize blocks
  -- the buffer has been freed
  if file.length < size then none
  -- `k` has 32 bits and never gets there
  else if 2 ^ 32 ≤ size then none
  else do
    let s ← importLoopIn (2 * size) o start (file.take size)
    let body := trimBody s.body
    let tail := trimTail s.tail
    -- the NUL at the end
    if body.length < 2 * size ∧ tail.length < 2 * size then some (body, tail) else none

/-! ## Where the body is start -/

/-- What a text has put into the body: up to three dashes, with a Ctrl-A behind them that has no
code yet; nothing, as it begins with a tear line; or something that stays. -/
inductive Phase
  | head (dashes : ℕ) (code : Bool)
  | tail
  | body

def Phase.isEmpty : Phase → Bool
  | .head 0 false => true
  | .tail => true
  | _ => false

/-- Whether an importer is kept from sending the character. -/
def restricted (o : Importer) (c : UInt8) : Bool :=
  ¬o.fromHub ∧ (c = 7 ∧ o.restB ∨ (c = 1 ∨ c = 27) ∧ o.restA)

def Phase.next (o : Importer) (c : UInt8) : Phase → Phase
  | .head dashes code =>
      if c = 32 ∧ dashes = 3 ∧ code = false then .tail
      else if c = qwkNewline then
        if code = false ∧ dashes = 0 then .head 0 false
        else if code = false ∧ dashes = 3 then .tail
        else .body
      else if restricted o c then .head dashes code
      else if code then if validCtrlACode c then .body else .head dashes false
      else if c = 1 then .head dashes true
      else if c = 45 ∧ dashes < 3 then .head (dashes + 1) false
      else .body
  | p => p

/-- Whether each kludge line that is looked for has an end. -/
def readsInside (o : Importer) (p : Phase) : Str → Bool
  | [] => true
  | c :: rest =>
      if c = 0 then readsInside o p rest
      else
        match if p.isEmpty then look o start (c :: rest) else some .text with
        | none => false
        | some .text => readsInside o (p.next o c) rest
        | some .char => true
        | some (.line length) => readsInside o p (rest.drop length)
  termination_by text => text.length
  decreasing_by all_goals simp only [List.length_drop, List.length_cons]; omega

/-! ## The buffers are large enough -/

variable {o : Importer} {s : Import} {c : UInt8} {cap n : ℕ} {text : Str} {p : Phase}

/-- At most two bytes have been stored for every byte read, and for the first one only one. -/
def Room (n : ℕ) (s : Import) : Prop :=
  s.body.length + s.tail.length = 0 ∨ s.body.length + s.tail.length < 2 * n

/-- A Ctrl-A that waits for its code has been stored. -/
def Stored (s : Import) : Prop := s.lastch = 1 → s.body ≠ [] ∨ s.tail ≠ []

theorem Room.lt (h : Room n s) (hpos : 0 < n) : s.body.length + s.tail.length < 2 * n := by
  rcases h with h | h <;> omega

theorem Room.mono {m : ℕ} (h : Room n s) (hle : n ≤ m) : Room m s := by
  rcases h with h | h
  · exact .inl h
  · exact .inr (by omega)

theorem store_eq (h : text.length < cap) : store cap text c = some (text ++ [c]) := if_pos h

theorem atTear_length (h : atTear s) : s.tail = [] ∧ 3 ≤ s.body.length :=
  ⟨h.1, h.2.2.length_le⟩

/-- Two bytes at the end of the body or of the tail. -/
theorem store_store {a b : UInt8} (h : text.length + 2 ≤ cap) :
    (store cap text a).bind (store cap · b) = some (text ++ [a, b]) := by
  have hlength : (text ++ [a]).length < cap := by
    rw [List.length_append, List.length_singleton]
    omega
  rw [store_eq (by omega), Option.bind_some, store_eq hlength, List.append_assoc]
  rfl

/-- What `newline` does to the end of the line. -/
def endLine (s : Import) : Import :=
  if s.tail ≠ [] then { s with tail := s.tail ++ [13, 10], col := 0 }
  else { s with body := s.body ++ [13, 10], col := 0 }

theorem newline_eq (s : Import) : newline s =
    if s.body = [] ∧ s.tail = [] then s
    else endLine (if atTear s then splitTear s else s) := rfl

theorem endLineIn_eq (h : s.body.length + s.tail.length + 2 ≤ cap) :
    endLineIn cap s = some (endLine s) := by
  rw [endLineIn, endLine]
  split
  · have hends : (store cap s.tail 13).bind (store cap · 10) = some (s.tail ++ [13, 10]) :=
      store_store (by omega)
    obtain ⟨t, ht, hends⟩ := Option.bind_eq_some_iff.mp hends
    simp only [ht, hends, Option.bind_eq_bind, Option.bind_some, Option.pure_def]
  · have hends : (store cap s.body 13).bind (store cap · 10) = some (s.body ++ [13, 10]) :=
      store_store (by omega)
    obtain ⟨t, ht, hends⟩ := Option.bind_eq_some_iff.mp hends
    simp only [ht, hends, Option.bind_eq_bind, Option.bind_some, Option.pure_def]

theorem splitTearIn_eq (h : text.length < cap) :
    splitTearIn cap s text = some { splitTear s with tail := text } := by
  rw [splitTearIn, copyIn, if_pos h]
  rfl

theorem newlineIn_eq (h : s.body.length + s.tail.length + 2 ≤ cap) (hcap : 6 ≤ cap) :
    newlineIn cap s = some (newline s) := by
  rw [newlineIn, newline_eq]
  split
  · rfl
  · split
    · next htear =>
      have hlength : tear.length < cap := by
        change 3 < cap
        omega
      have hsplit : (splitTear s).body.length + (splitTear s).tail.length + 2 ≤ cap := by
        have := (atTear_length htear).2
        change (s.body.take (s.body.length - 3)).length + 3 + 2 ≤ cap
        rw [List.length_take]
        omega
      rw [splitTearIn_eq hlength, Option.bind_eq_bind, Option.bind_some]
      exact endLineIn_eq hsplit
    · exact endLineIn_eq h

theorem keepCharIn_eq (h : s.body.length + s.tail.length + 2 ≤ cap) (hs : Stored s) (c : UInt8) :
    keepCharIn cap s c = some (keepChar s c) := by
  have hbody : store cap s.body c = some (s.body ++ [c]) := store_eq (by omega)
  have htail : store cap s.tail c = some (s.tail ++ [c]) := store_eq (by omega)
  rw [keepCharIn, keepChar]
  split
  · next hdrop =>
    split
    · next htail => rw [unstore, if_neg htail]; rfl
    · next htail =>
      have hne := (hs hdrop.1).resolve_right htail
      rw [unstore, if_neg hne]
      rfl
  · split
    · rw [htail]
      rfl
    · rw [hbody]
      rfl

theorem importCharIn_eq (h : s.body.length + s.tail.length + 2 ≤ cap) (hcap : 6 ≤ cap)
    (hs : Stored s) (o : Importer) (c : UInt8) :
    importCharIn cap o s c = some (importChar o s c) := by
  rw [importCharIn, importChar]
  split
  · have hlength : (tear ++ [32]).length < cap := by
      change 4 < cap
      omega
    rw [splitTearIn_eq hlength]
    rfl
  · split
    · exact newlineIn_eq h hcap
    · split
      · rfl
      · split
        · rfl
        · exact keepCharIn_eq h hs c

/-! ### A run of the loop -/

theorem length_splitTear (h : atTear s) :
    (splitTear s).body.length + 3 = s.body.length ∧ s.tail.length = 0 := by
  have := (atTear_length h).2
  change (s.body.take (s.body.length - 3)).length + 3 = _ ∧ _
  rw [List.length_take, (atTear_length h).1, List.length_nil]
  omega

theorem length_endLine (s : Import) :
    (endLine s).body.length + (endLine s).tail.length = s.body.length + s.tail.length + 2 := by
  rw [endLine]
  split <;> simp only [List.length_append, List.length_cons, List.length_nil] <;> omega

theorem endLine_ne_nil (s : Import) : (endLine s).body ≠ [] ∨ (endLine s).tail ≠ [] := by
  rw [endLine]
  split
  · exact .inr (List.append_ne_nil_of_right_ne_nil _ (List.cons_ne_nil _ _))
  · exact .inl (List.append_ne_nil_of_right_ne_nil _ (List.cons_ne_nil _ _))

theorem length_keepChar_le (s : Import) (c : UInt8) :
    (keepChar s c).body.length + (keepChar s c).tail.length ≤
      s.body.length + s.tail.length + 1 := by
  rw [keepChar]
  split
  · split <;> simp only [List.length_dropLast] <;> omega
  · split <;> simp only [List.length_append, List.length_singleton] <;> omega

theorem Room.newline (h : Room n s) : Room (n + 1) (newline s) := by
  rw [newline_eq]
  split
  · exact h.mono (Nat.le_succ n)
  · next hne =>
    have hpos : 0 < s.body.length + s.tail.length := by
      by_contra hzero
      exact hne ⟨List.length_eq_zero_iff.mp (by omega), List.length_eq_zero_iff.mp (by omega)⟩
    have hlt := h.resolve_left (by omega)
    right
    rw [length_endLine]
    split
    · next htear =>
      obtain ⟨hbody, htail⟩ := length_splitTear htear
      change (splitTear s).body.length + 3 + 2 < _
      omega
    · omega

theorem Room.importChar (h : Room n s) (o : Importer) (c : UInt8) :
    Room (n + 1) (importChar o s c) := by
  rw [Qwk.importChar]
  split
  · next htear =>
    obtain ⟨hbody, htail⟩ := length_splitTear htear.2
    have hlt := h.resolve_left (by omega)
    right
    change (splitTear s).body.length + 4 < _
    omega
  · split
    · exact h.newline
    · split
      · exact h.mono (Nat.le_succ n)
      · split
        · exact h.mono (Nat.le_succ n)
        · have hle := length_keepChar_le s c
          right
          rcases h with h | h <;> omega

theorem Stored.importChar (h : Stored s) (o : Importer) (c : UInt8) :
    Stored (importChar o s c) := by
  rw [Qwk.importChar]
  split
  · exact fun _ ↦ .inr (List.cons_ne_nil _ _)
  · split
    · rw [newline_eq]
      split
      · exact h
      · exact fun _ ↦ endLine_ne_nil _
    · split
      · exact h
      · split
        · exact h
        · rw [keepChar]
          split
          · split
            · exact fun h ↦ absurd h (by decide : (0 : UInt8) ≠ 1)
            · exact fun h ↦ absurd h (by decide : (0 : UInt8) ≠ 1)
          · split
            · exact fun _ ↦ .inr (List.append_ne_nil_of_right_ne_nil _ (List.cons_ne_nil _ _))
            · exact fun _ ↦ .inl (List.append_ne_nil_of_right_ne_nil _ (List.cons_ne_nil _ _))

theorem Room.storeBody (h : Room n s) (c : UInt8) :
    Room (n + 1) { s with body := s.body ++ [c] } := by
  right
  change (s.body ++ [c]).length + s.tail.length < _
  rw [List.length_append, List.length_singleton]
  rcases h with h | h <;> omega

/-- The loop stays in its buffers. -/
theorem importLoopIn_eq (hroom : Room n s) (hs : Stored s) (hcap : 6 ≤ cap)
    (hn : 2 * (n + text.length) ≤ cap) : importLoopIn cap o s text = importLoop o s text := by
  fun_induction importLoop o s text generalizing n with
  | case1 s => rw [importLoopIn]
  | case2 s rest ih =>
      rw [List.length_cons] at hn
      rw [importLoopIn, if_pos rfl]
      exact ih hroom hs (by omega)
  | case3 s c rest hc hlook =>
      rw [importLoopIn, if_neg hc, hlook]
  | case4 s c rest hc hlook ih =>
      rw [List.length_cons] at hn
      have hlt : s.body.length + s.tail.length + 2 ≤ cap := by rcases hroom with h | h <;> omega
      rw [importLoopIn, if_neg hc, hlook]
      change (importCharIn cap o s c).bind _ = _
      rw [importCharIn_eq hlt hcap hs, Option.bind_some]
      exact ih (hroom.importChar o c) (hs.importChar o c) (by omega)
  | case5 s c rest hc hlook ih =>
      rw [List.length_cons] at hn
      have hlt : s.body.length < cap := by rcases hroom with h | h <;> omega
      rw [importLoopIn, if_neg hc, hlook]
      change (store cap s.body c).bind _ = _
      rw [store_eq hlt, Option.bind_some]
      exact ih (hroom.storeBody c)
        (fun _ ↦ .inl (List.append_ne_nil_of_right_ne_nil _ (List.cons_ne_nil _ _))) (by omega)
  | case6 s c rest hc length hlook ih =>
      rw [List.length_cons] at hn
      rw [importLoopIn, if_neg hc, hlook]
      exact ih hroom hs (by rw [List.length_drop]; omega)

/-- What the loop has stored at its end. -/
theorem Room.importLoop {s' : Import} (hroom : Room n s) (h : importLoop o s text = some s') :
    Room (n + text.length) s' := by
  fun_induction Qwk.importLoop o s text generalizing n with
  | case1 s =>
      obtain rfl := Option.some.inj h
      exact hroom
  | case2 s rest ih => exact (ih hroom h).mono (by rw [List.length_cons]; omega)
  | case3 s c rest hc hlook => cases h
  | case4 s c rest hc hlook ih =>
      exact (ih (hroom.importChar o c) h).mono (by rw [List.length_cons]; omega)
  | case5 s c rest hc hlook ih =>
      exact (ih (hroom.storeBody c) h).mono (by rw [List.length_cons]; omega)
  | case6 s c rest hc length hlook ih =>
      exact (ih hroom h).mono (by rw [List.length_cons, List.length_drop]; omega)

theorem length_trimBody_le (body : Str) : (trimBody body).length ≤ body.length := by
  have hle : (body.rdropWhile (· = 32)).length ≤ body.length :=
    (List.rdropWhile_prefix _ _).length_le
  rw [trimBody]
  split
  · exact (List.length_take_le' _ _).trans hle
  · exact hle

theorem length_trimTail_le (tail : Str) : (trimTail tail).length ≤ tail.length :=
  (List.rdropWhile_prefix _ _).length_le

/-- The import has a result just when the loop has one on blocks that the file holds. -/
theorem qwkImportBuffers_isSome {blocks : UInt32} (hblocks : 2 ≤ blocks) (o : Importer)
    (file : Str) : (qwkImportBuffers o blocks file).isSome ↔
      blocksSize blocks ≤ file.length ∧ blocksSize blocks < 2 ^ 32 ∧
        (importLoop o start (file.take (blocksSize blocks))).isSome := by
  have hsize : 128 ≤ blocksSize blocks := by
    have h : 2 ≤ blocks.toNat := UInt32.le_iff_toNat_le.mp hblocks
    change 128 ≤ (blocks.toNat - 1) * 128
    omega
  rw [qwkImportBuffers]
  generalize blocksSize blocks = size at hsize ⊢
  by_cases hshort : file.length < size
  · rw [if_pos hshort]
    exact iff_of_false Bool.false_ne_true fun h ↦ h.1.not_gt hshort
  · by_cases hlarge : 2 ^ 32 ≤ size
    · rw [if_neg hshort, if_pos hlarge]
      exact iff_of_false Bool.false_ne_true fun h ↦ h.2.1.not_ge hlarge
    · have hstart : Room 0 start := .inl rfl
      have htake : (file.take size).length ≤ size := List.length_take_le _ _
      have hloop : importLoopIn (2 * size) o start (file.take size) =
          importLoop o start (file.take size) :=
        importLoopIn_eq hstart (fun h ↦ absurd h (by decide)) (by omega) (by omega)
      rw [if_neg hshort, if_neg hlarge, hloop]
      cases hs : importLoop o start (file.take size) with
      | none => exact iff_of_false Bool.false_ne_true fun h ↦ Bool.false_ne_true h.2.2
      | some s =>
          have hroom := hstart.importLoop hs
          have hlt : s.body.length + s.tail.length < 2 * size := by
            rcases hroom with h | h <;> omega
          have hbody : (trimBody s.body).length < 2 * size :=
            (length_trimBody_le s.body).trans_lt (by omega)
          have htail : (trimTail s.tail).length < 2 * size :=
            (length_trimTail_le s.tail).trans_lt (by omega)
          rw [Option.bind_eq_bind, Option.bind_some, if_pos ⟨hbody, htail⟩]
          exact iff_of_true rfl ⟨not_lt.mp hshort, not_le.mp hlarge, rfl⟩

/-! ## The phases of an import -/

/-- The tail does not become empty again. -/
def HasTail (s : Import) : Prop := 2 ≤ s.tail.length ∧ (s.lastch = 1 → 3 ≤ s.tail.length)

/-- A part of the body stays: it is not just three dashes, and there is more behind it when the
last character may go. -/
structure Settled (s : Import) (kept rest : Str) : Prop where
  body : s.body = kept ++ rest
  kept : (∃ c ∈ kept, c ≠ 45) ∨ 4 ≤ kept.length
  last : s.lastch = 1 → rest ≠ []

/-- The body does not become empty again. -/
def Solid (s : Import) : Prop :=
  s.body ≠ [] ∧ HasTail s ∨ s.tail = [] ∧ ∃ kept rest, Settled s kept rest

/-- What is in the body and in the tail in a phase. -/
def Rel : Phase → Import → Prop
  | .head dashes code, s => dashes ≤ 3 ∧ s.tail = [] ∧ s.col.toNat = dashes ∧
      s.body = List.replicate dashes 45 ++ (if code then [1] else []) ∧ (s.lastch = 1 ↔ code = true)
  | .tail, s => s.body = [] ∧ HasTail s
  | .body, s => Solid s

theorem HasTail.ne_nil (h : HasTail s) : s.tail ≠ [] :=
  List.ne_nil_of_length_pos (by have := h.1; omega)

theorem not_atTear (h : s.tail ≠ []) : ¬atTear s := fun htear ↦ h htear.1

/-- A tail that is there only grows, but for a Ctrl-A without a code; the body stays as it is. -/
theorem HasTail.importChar (h : HasTail s) (o : Importer) (c : UInt8) :
    HasTail (importChar o s c) ∧ (importChar o s c).body = s.body := by
  have hne := h.ne_nil
  rw [Qwk.importChar, if_neg fun hspace ↦ not_atTear hne hspace.2]
  split
  · rw [newline_eq, if_neg fun hnil ↦ hne hnil.2, if_neg (not_atTear hne), endLine, if_pos hne]
    refine ⟨⟨?_, fun _ ↦ ?_⟩, rfl⟩
    all_goals
      change _ ≤ (s.tail ++ [13, 10]).length
      have := h.1
      simp only [List.length_append, List.length_cons, List.length_nil]
      omega
  · split
    · exact ⟨h, rfl⟩
    · split
      · exact ⟨h, rfl⟩
      · rw [keepChar]
        split
        · next hdrop =>
          have := h.2 hdrop.1
          refine ⟨⟨?_, fun h ↦ absurd h (by decide : (0 : UInt8) ≠ 1)⟩, rfl⟩
          change 2 ≤ s.tail.dropLast.length
          rw [List.length_dropLast]
          omega
        · have := h.1
          refine ⟨⟨?_, fun _ ↦ ?_⟩, rfl⟩
          all_goals
            change _ ≤ (s.tail ++ [c]).length
            rw [List.length_append, List.length_singleton]
            omega

theorem hasTail_of_tear {body : Str} {col lastch : UInt8} {kludges : List Str} (rest : Str) :
    HasTail ⟨body, tear ++ rest, col, lastch, kludges⟩ := by
  have hlength : (tear ++ rest).length = 3 + rest.length := by
    rw [List.length_append]
    rfl
  exact ⟨hlength ▸ by omega, fun _ ↦ hlength ▸ by omega⟩

namespace Settled

variable {kept rest : Str}

theorem body_ne (h : Settled s kept rest) : s.body ≠ [] := by
  rw [h.body]
  apply List.append_ne_nil_of_left_ne_nil
  rcases h.kept with ⟨c, hc, -⟩ | hlength
  · exact List.ne_nil_of_mem hc
  · exact List.ne_nil_of_length_pos (by omega)

/-- Not all of the body goes with a tear line. -/
theorem take_ne (h : Settled s kept rest) (htear : atTear s) :
    s.body.take (s.body.length - 3) ≠ [] := by
  obtain ⟨front, hfront⟩ := htear.2.2
  rw [← hfront, List.length_append]
  change (front ++ tear).take (front.length + 3 - 3) ≠ []
  rw [Nat.add_sub_cancel, List.take_left]
  rintro rfl
  rw [List.nil_append] at hfront
  rcases h.kept with ⟨c, hc, hne⟩ | hlength
  · have hmem : c ∈ tear := by
      rw [hfront, h.body]
      exact List.mem_append_left _ hc
    have hall : ∀ c ∈ tear, c = 45 := by decide
    exact hne (hall c hmem)
  · have hthree : s.body.length = 3 := by rw [← hfront]; rfl
    rw [h.body, List.length_append] at hthree
    omega

end Settled

theorem Solid.body_ne (h : Solid s) : s.body ≠ [] := by
  rcases h with ⟨h, -⟩ | ⟨-, kept, rest, h⟩
  · exact h
  · exact h.body_ne

theorem Solid.importChar (h : Solid s) (o : Importer) (c : UInt8) : Solid (importChar o s c) := by
  rcases h with ⟨hbody, htail⟩ | ⟨hnil, kept, rest, h⟩
  · obtain ⟨hnext, heq⟩ := htail.importChar o c
    exact .inl ⟨heq ▸ hbody, hnext⟩
  · rw [Qwk.importChar]
    split
    · next hspace => exact .inl ⟨h.take_ne hspace.2, hasTail_of_tear [32]⟩
    · split
      · rw [newline_eq, if_neg fun hempty ↦ h.body_ne hempty.1]
        split
        · next htear => exact .inl ⟨h.take_ne htear, hasTail_of_tear [13, 10]⟩
        · rw [endLine, if_neg (not_not.mpr hnil)]
          refine .inr ⟨hnil, kept, rest ++ [13, 10], ?_, h.kept, fun _ ↦ ?_⟩
          · change s.body ++ _ = _
            rw [h.body, List.append_assoc]
          · exact List.append_ne_nil_of_right_ne_nil _ (List.cons_ne_nil _ _)
      · split
        · exact .inr ⟨hnil, kept, rest, h⟩
        · split
          · exact .inr ⟨hnil, kept, rest, h⟩
          · rw [keepChar]
            split
            · next hdrop =>
              rw [if_neg (not_not.mpr hnil)]
              refine .inr ⟨hnil, kept, rest.dropLast, ?_, h.kept,
                fun hlast ↦ absurd hlast (by decide : (0 : UInt8) ≠ 1)⟩
              change s.body.dropLast = _
              rw [h.body, List.dropLast_append_of_ne_nil (h.last hdrop.1)]
            · rw [if_neg (not_not.mpr hnil)]
              refine .inr ⟨hnil, kept, rest ++ [c], ?_, h.kept, fun _ ↦ ?_⟩
              · change s.body ++ _ = _
                rw [h.body, List.append_assoc]
              · exact List.append_ne_nil_of_right_ne_nil _ (List.cons_ne_nil _ _)

section Head

variable {dashes : ℕ} {code : Bool}

/-- Three dashes and nothing else are a tear line. -/
theorem Rel.atTear_iff (h : Rel (.head dashes code) s) : atTear s ↔ dashes = 3 ∧ code = false := by
  obtain ⟨hle, htail, hcol, hbody, -⟩ := h
  constructor
  · rintro ⟨-, hthree, hsuffix⟩
    refine ⟨by rw [← hcol, hthree]; rfl, ?_⟩
    cases code with
    | false => rfl
    | true =>
        rw [hbody, if_pos rfl] at hsuffix
        obtain ⟨front, hfront⟩ := hsuffix
        have hlast := congrArg List.getLast? hfront
        rw [List.getLast?_append_of_ne_nil _ (by decide), List.getLast?_concat] at hlast
        exact absurd hlast (by decide)
  · rintro ⟨rfl, rfl⟩
    refine ⟨htail, UInt8.toNat_inj.mp hcol, ?_⟩
    rw [hbody]
    exact ⟨[], rfl⟩

theorem solid_of_mem (htail : s.tail = []) (hmem : ∃ c ∈ s.body, c ≠ 45) (hlast : s.lastch ≠ 1) :
    Solid s :=
  .inr ⟨htail, s.body, [], (List.append_nil _).symm, .inl hmem, fun h ↦ absurd h hlast⟩

theorem ne_one_of_valid (h : validCtrlACode c = true) : c ≠ 1 := by
  rintro rfl
  exact absurd h (by decide)

/-- A Ctrl-A at the end of the body goes again. -/
theorem keepChar_drop (htail : s.tail = []) (hlast : s.lastch = 1) (hc : ¬validCtrlACode c = true) :
    keepChar s c = { s with body := s.body.dropLast, lastch := 0 } := by
  rw [keepChar, if_pos ⟨hlast, hc⟩, if_neg (not_not.mpr htail)]
  simp only [hlast, ne_eq, not_true_eq_false, and_false, if_false]

theorem keepChar_push (htail : s.tail = []) (h : s.lastch = 1 → validCtrlACode c = true) :
    keepChar s c = { s with
      body := s.body ++ [c]
      col := if c ≠ 1 ∧ s.lastch ≠ 1 then s.col + 1 else s.col
      lastch := c } := by
  rw [keepChar, if_neg fun hdrop ↦ hdrop.2 (h hdrop.1), if_neg (not_not.mpr htail)]

theorem Rel.keepChar (h : Rel (.head dashes code) s) (c : UInt8) :
    Rel (if code then if validCtrlACode c then .body else .head dashes false
      else if c = 1 then .head dashes true
      else if c = 45 ∧ dashes < 3 then .head (dashes + 1) false
      else .body) (keepChar s c) := by
  obtain ⟨hle, htail, hcol, hbody, hlast⟩ := h
  have hmem : c ∈ s.body ++ [c] := List.mem_append_right _ (List.mem_singleton_self c)
  cases code with
  | true =>
      have hone : s.lastch = 1 := hlast.mpr rfl
      rw [if_pos rfl]
      by_cases hvalid : validCtrlACode c = true
      · rw [if_pos hvalid, keepChar_push htail fun _ ↦ hvalid]
        refine solid_of_mem htail ⟨1, ?_, by decide⟩ (ne_one_of_valid hvalid)
        apply List.mem_append_left
        rw [hbody]
        exact List.mem_append_right _ (List.mem_singleton_self 1)
      · rw [if_neg hvalid, keepChar_drop htail hone hvalid]
        refine ⟨hle, htail, hcol, ?_, iff_of_false (by decide : (0 : UInt8) ≠ 1) Bool.false_ne_true⟩
        change s.body.dropLast = _
        rw [hbody, if_pos rfl, List.dropLast_concat]
        exact (List.append_nil _).symm
  | false =>
      have hone : s.lastch ≠ 1 := fun h ↦ Bool.false_ne_true (hlast.mp h)
      have hdashes : s.body = List.replicate dashes 45 := by rw [hbody]; exact List.append_nil _
      rw [if_neg Bool.false_ne_true, keepChar_push htail fun h ↦ absurd h hone]
      by_cases hc : c = 1
      · subst hc
        rw [if_pos rfl, if_neg fun hcol ↦ hcol.1 rfl]
        refine ⟨hle, htail, hcol, ?_, iff_of_true rfl rfl⟩
        change s.body ++ [1] = _
        rw [hdashes]
        rfl
      · rw [if_neg hc]
        by_cases hdash : c = 45 ∧ dashes < 3
        · rw [if_pos hdash, if_pos ⟨hc, hone⟩]
          obtain ⟨rfl, hlt⟩ := hdash
          refine ⟨hlt, htail, ?_, ?_, iff_of_false hc Bool.false_ne_true⟩
          · change (s.col + 1).toNat = dashes + 1
            rw [UInt8.toNat_add, hcol]
            change (dashes + 1) % 256 = dashes + 1
            omega
          · change s.body ++ [45] = _
            rw [hdashes, ← List.replicate_succ']
            exact (List.append_nil _).symm
        · rw [if_neg hdash]
          by_cases h45 : c = 45
          · have hfour : dashes = 3 := by
              have := not_and.mp hdash h45
              omega
            refine .inr ⟨htail, s.body ++ [c], [], (List.append_nil _).symm, .inr ?_,
              fun h ↦ absurd h hc⟩
            rw [hdashes, List.length_append, List.length_replicate, List.length_singleton, hfour]
          · exact solid_of_mem htail ⟨c, hmem, h45⟩ hc

/-- Up to three dashes, possibly with a Ctrl-A. -/
theorem Rel.head_next (h : Rel (.head dashes code) s) (o : Importer) (c : UInt8) :
    Rel (Phase.next o c (.head dashes code)) (importChar o s c) := by
  have htear := h.atTear_iff
  have hkeep := h.keepChar c
  obtain ⟨hle, htail, hcol, hbody, hlast⟩ := h
  rw [Phase.next, Qwk.importChar, if_congr (and_congr_right fun _ ↦ htear) rfl rfl]
  split
  · next hspace =>
    obtain ⟨-, rfl, rfl⟩ := hspace
    refine ⟨?_, hasTail_of_tear [32]⟩
    change s.body.take (s.body.length - 3) = []
    rw [hbody]
    rfl
  · split
    · rw [newline_eq, if_congr htear rfl rfl]
      by_cases hempty : code = false ∧ dashes = 0
      · have hnil : s.body = [] := by
          rw [hbody, hempty.1, hempty.2]
          rfl
        rw [if_pos hempty, if_pos ⟨hnil, htail⟩]
        rw [hempty.2] at hcol
        rw [hempty.1] at hlast
        exact ⟨Nat.zero_le 3, htail, hcol, hnil, hlast⟩
      · have hne : ¬(s.body = [] ∧ s.tail = []) := by
          rintro ⟨hnil, -⟩
          rw [hbody, List.append_eq_nil_iff, List.replicate_eq_nil_iff] at hnil
          cases code with
          | false => exact hempty ⟨rfl, hnil.1⟩
          | true => exact List.cons_ne_nil _ _ hnil.2
        rw [if_neg hempty, if_neg hne, if_congr and_comm rfl rfl]
        split
        · next hthree =>
          refine ⟨?_, hasTail_of_tear [13, 10]⟩
          change s.body.take (s.body.length - 3) = []
          rw [hbody, hthree.1, hthree.2]
          rfl
        · rw [endLine, if_neg (not_not.mpr htail)]
          refine .inr ⟨htail, s.body ++ [13], [10], ?_, .inl ⟨13, ?_, by decide⟩, fun _ ↦ ?_⟩
          · exact (List.append_assoc s.body [13] [10]).symm
          · exact List.mem_append_right _ (List.mem_singleton_self 13)
          · exact List.cons_ne_nil _ _
    · have hsame : Rel (.head dashes code) s := ⟨hle, htail, hcol, hbody, hlast⟩
      by_cases hrestricted : restricted o c = true
      · rw [if_pos hrestricted]
        rcases of_decide_eq_true hrestricted with ⟨hhub, hbeep | hansi⟩
        · rw [if_pos ⟨hhub, hbeep⟩]
          exact hsame
        · split
          · exact hsame
          · rw [if_pos ⟨hhub, hansi⟩]
            exact hsame
      · have hnone := of_decide_eq_false (eq_false_of_ne_true hrestricted)
        have hbeep : ¬(¬o.fromHub = true ∧ c = 7 ∧ o.restB = true) :=
          fun h ↦ hnone ⟨h.1, .inl h.2⟩
        have hansi : ¬(¬o.fromHub = true ∧ (c = 1 ∨ c = 27) ∧ o.restA = true) :=
          fun h ↦ hnone ⟨h.1, .inr h.2⟩
        rw [if_neg hrestricted, if_neg hbeep, if_neg hansi]
        exact hkeep

end Head

theorem Rel.next (h : Rel p s) (o : Importer) (c : UInt8) :
    Rel (p.next o c) (importChar o s c) := by
  cases p with
  | head dashes code => exact h.head_next o c
  | tail =>
      obtain ⟨hbody, htail⟩ := h
      obtain ⟨hnext, heq⟩ := htail.importChar o c
      exact ⟨heq.trans hbody, hnext⟩
  | body => exact Solid.importChar h o c

theorem Rel.isEmpty_iff (h : Rel p s) : p.isEmpty = true ↔ s.body = [] := by
  cases p with
  | head dashes code =>
      obtain ⟨-, -, -, hbody, -⟩ := h
      rw [hbody]
      cases dashes with
      | zero =>
          cases code with
          | false => exact iff_of_true rfl rfl
          | true => exact iff_of_false Bool.false_ne_true (List.cons_ne_nil _ _)
      | succ dashes => exact iff_of_false Bool.false_ne_true (List.cons_ne_nil _ _)
  | tail => exact iff_of_true rfl h.1
  | body => exact iff_of_false Bool.false_ne_true (Solid.body_ne h)

/-- What is looked for depends on the text alone, where the body is empty. -/
theorem Rel.look_eq (h : Rel p s) (o : Importer) (text : Str) :
    look o s text = if p.isEmpty then look o start text else some .text := by
  by_cases hempty : s.body = []
  · rw [if_pos (h.isEmpty_iff.mpr hempty), look, look, if_neg (not_not.mpr hempty)]
    rfl
  · rw [if_neg (mt h.isEmpty_iff.mp hempty), look, if_pos hempty]

theorem readsInside_body (o : Importer) (text : Str) : readsInside o .body text = true := by
  induction text with
  | nil => rw [readsInside]
  | cons c text ih =>
      rw [readsInside]
      split
      · exact ih
      · exact ih

theorem Rel.kludges (h : Rel p s) (kludges : List Str) : Rel p { s with kludges } := by
  cases p with
  | head dashes code => exact h
  | tail => exact h
  | body =>
      rcases h with h | ⟨htail, kept, rest, h⟩
      · exact .inl h
      · exact .inr ⟨htail, kept, rest, h.body, h.kept, h.last⟩

/-- No kludge line starts with a dash. -/
theorem isKludge_dash (o : Importer) (text : Str) : isKludge o (45 :: text) = some false := by
  have hnames : hasNameOf (45 :: text) headerNames = some false := rfl
  rw [isKludge, if_neg (by simp), hnames, ite_self]

theorem body_eq_nil_of_look (h : look o s text ≠ some .text) : s.body = [] := by
  by_contra hne
  exact h (if_pos hne)

/-- A kludge line without an end is a character of the body. -/
theorem Rel.storeBody (h : Rel p s) (hlook : look o s (c :: text) = some .char) :
    Solid { s with body := s.body ++ [c] } := by
  have hnil : s.body = [] := body_eq_nil_of_look fun htext ↦ by
    rw [htext] at hlook
    cases hlook
  have hc : c ≠ 45 := by
    rintro rfl
    rw [look, if_neg (not_not.mpr hnil), isKludge_dash] at hlook
    cases hlook
  cases p with
  | head dashes code =>
      have hempty := h.isEmpty_iff.mpr hnil
      obtain ⟨-, htail, -, -, hlast⟩ := h
      refine solid_of_mem htail ⟨c, List.mem_append_right _ (List.mem_singleton_self c), hc⟩ ?_
      rintro hone
      obtain rfl := hlast.mp hone
      cases dashes <;> cases hempty
  | tail => exact .inl ⟨List.append_ne_nil_of_right_ne_nil _ (List.cons_ne_nil _ _), h.2⟩
  | body => exact absurd hnil (Solid.body_ne h)

/-- The loop keeps inside the blocks just when the text says so. -/
theorem Rel.importLoop_isSome (h : Rel p s) (o : Importer) (text : Str) :
    (importLoop o s text).isSome = readsInside o p text := by
  fun_induction importLoop o s text generalizing p with
  | case1 s => rw [readsInside]; rfl
  | case2 s rest ih =>
      rw [readsInside, if_pos rfl]
      exact ih h
  | case3 s c rest hc hlook =>
      rw [readsInside, if_neg hc, ← h.look_eq, hlook]
      rfl
  | case4 s c rest hc hlook ih =>
      rw [readsInside, if_neg hc, ← h.look_eq, hlook]
      exact ih (h.next o c)
  | case5 s c rest hc hlook ih =>
      rw [readsInside, if_neg hc, ← h.look_eq, hlook, ih (p := .body) (h.storeBody hlook)]
      exact readsInside_body o rest
  | case6 s c rest hc length hlook ih =>
      rw [readsInside, if_neg hc, ← h.look_eq, hlook]
      exact ih (h.kludges _)

theorem start_rel : Rel (.head 0 false) start :=
  ⟨Nat.zero_le 3, rfl, rfl, rfl, iff_of_false (by decide) Bool.false_ne_true⟩

/-- The import keeps inside its buffers just when the file holds the blocks, `k` can count their
bytes, and every kludge line that it looks at has an end. -/
theorem qwkImportBuffers_iff (o : Importer) (blocks : UInt32) (hblocks : 2 ≤ blocks) (file : Str) :
    (qwkImportBuffers o blocks file).isSome ↔
      blocksSize blocks ≤ file.length ∧ blocksSize blocks < 2 ^ 32 ∧
        readsInside o (.head 0 false) (file.take (blocksSize blocks)) = true := by
  rw [qwkImportBuffers_isSome hblocks, start_rel.importLoop_isSome]

theorem qwkImportBuffers_block :
    (qwkImportBuffers ⟨true, false, false, false⟩ 2 (72 :: List.replicate 127 32)).isSome ↔
      blocksSize 2 ≤ (72 :: List.replicate 127 (32 : UInt8)).length ∧ blocksSize 2 < 2 ^ 32 ∧
        readsInside ⟨true, false, false, false⟩ (.head 0 false)
          ((72 :: List.replicate 127 32).take (blocksSize 2)) = true :=
  qwkImportBuffers_iff ⟨true, false, false, false⟩ 2 (by decide) (72 :: List.replicate 127 32)

/-- A file that ends behind the header of a message with two blocks, and a block with the start of
a kludge line and no end of one. -/
theorem not_qwkImportBuffers :
    qwkImportBuffers ⟨true, false, false, false⟩ 2 [] = none ∧
      qwkImportBuffers ⟨true, false, false, false⟩ 2 (64 :: List.replicate 127 32) = none := by
  decide +kernel

end Synchronet.Sbbs3.Qwk
