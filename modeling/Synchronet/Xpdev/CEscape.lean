import Synchronet.Xpdev.Genwrap

/-!
# Escaping into a buffer (genwrap.c)

`c_escape_str` with the memory that it writes into.  `strncpy` does not end an escape that fills
the room before `maxlen`, and `strlen` then reads what has not been written yet.
-/

namespace Synchronet.Xpdev

/-! ## Memory -/

/-- Bytes of memory, and none where nothing has been written. -/
abbrev Cells := List (Option UInt8)

/-- Bytes are written from `d` on, inside the memory. -/
def putCells (cells : Cells) (d : ℕ) (bytes : List UInt8) : Option Cells :=
  if d + bytes.length ≤ cells.length then
    some (cells.take d ++ bytes.map some ++ cells.drop (d + bytes.length))
  else none

/-- `strlen`, which reads bytes that have been written. -/
def strlenCells : Cells → Option ℕ
  | [] => none
  | none :: _ => none
  | some c :: cells => if c = 0 then some 0 else (strlenCells cells).map (· + 1)

/-- The bytes that `strncpy` writes. -/
def strncpyBytes (e : Str) (n : ℕ) : List UInt8 := e.take n ++ List.replicate (n - e.length) 0

/-! ## The function -/

/-- An escape of the table. -/
def tableEscape (ctrlOnly : Bool) (c : UInt8) : Option Str :=
  if !ctrlOnly ∨ c < 32 then cEscapeChar c else none

/-- `\x%02X` -/
def hexEscape (c : UInt8) : Str := [92, 120, hexDigit (c >>> 4), hexDigit (c &&& 0xf)]

/-- The loop of `c_escape_str`. -/
def cEscapeLoop (ctrlOnly : Bool) (maxlen : ℕ) : Str → Cells → ℕ → Option (Cells × ℕ)
  | [], cells, d => some (cells, d)
  | c :: src, cells, d =>
      if d < maxlen then
        match tableEscape ctrlOnly c with
        | some e => do
            let cells ← putCells cells d (strncpyBytes e (maxlen - d))
            let n ← strlenCells (cells.drop d)
            cEscapeLoop ctrlOnly maxlen src cells (d + n)
        | none =>
            if c < 32 then do
              -- safe_snprintf
              let e := (hexEscape c).take (maxlen - d - 1)
              let cells ← putCells cells d (e ++ [0])
              let cells ← putCells cells (maxlen - 1) [0]
              cEscapeLoop ctrlOnly maxlen src cells (d + e.length)
            else do
              let cells ← putCells cells d [c]
              cEscapeLoop ctrlOnly maxlen src cells (d + 1)
      else some (cells, d)

/-- `c_escape_str` into new memory of `maxlen + 1` bytes. -/
def cEscapeInto (ctrlOnly : Bool) (maxlen : ℕ) (src : Str) : Option Cells := do
  let (cells, d) ← cEscapeLoop ctrlOnly maxlen src (List.replicate (maxlen + 1) none) 0
  putCells cells d [0]

/-! ## Where it stays inside -/

variable {ctrlOnly : Bool} {front old back cells : Cells} {bytes : List UInt8} {e s : Str}
  {c : UInt8} {n room : ℕ}

theorem putCells_append (h : old.length = bytes.length) :
    putCells (front ++ (old ++ back)) front.length bytes =
      some (front ++ (bytes.map some ++ back)) := by
  have hroom : front.length + bytes.length ≤ (front ++ (old ++ back)).length := by
    simp only [List.length_append]
    omega
  rw [putCells, if_pos hroom, List.take_left' rfl, ← List.append_assoc front old,
    List.drop_left' (by rw [List.length_append, h]), List.append_assoc]

/-- A string that is written with its zero has its length. -/
theorem strlenCells_zero (h : 0 ∉ e) (back : Cells) :
    strlenCells (e.map some ++ some 0 :: back) = some e.length := by
  induction e with
  | nil => rfl
  | cons c e ih =>
      obtain ⟨hc, he⟩ := not_or.mp (mt List.mem_cons.mpr h)
      rw [List.map_cons, List.cons_append, strlenCells, if_neg fun heq ↦ hc heq.symm, ih he]
      rfl

/-- A string without its zero has none. -/
theorem strlenCells_none (h : 0 ∉ e) (back : Cells) :
    strlenCells (e.map some ++ none :: back) = none := by
  induction e with
  | nil => rfl
  | cons c e ih =>
      obtain ⟨hc, he⟩ := not_or.mp (mt List.mem_cons.mpr h)
      rw [List.map_cons, List.cons_append, strlenCells, if_neg fun heq ↦ hc heq.symm, ih he]
      rfl

theorem zero_notMem_tableEscape (h : tableEscape ctrlOnly c = some e) : 0 ∉ e ∧ e ≠ [] := by
  rw [tableEscape] at h
  split at h
  · have hall : ∀ c : UInt8, ∀ e ∈ cEscapeChar c, 0 ∉ e ∧ e ≠ [] :=
      Words.forall_uint8 (p := fun c ↦ ∀ e ∈ cEscapeChar c, 0 ∉ e ∧ e ≠ []) (by decide +kernel)
    exact hall c e h
  · cases h

/-- What the loop makes of the memory before `maxlen`: the string that `cEscapeStr` says, where it
says one, and otherwise a read of the byte at `maxlen`. -/
def Escapes (ctrlOnly : Bool) (maxlen : ℕ) (s : Str) (front mid : Cells) : Prop :=
  match cEscapeStr ctrlOnly mid.length s with
  | none => cEscapeLoop ctrlOnly maxlen s (front ++ (mid ++ [none])) front.length = none
  | some t => ∃ mid' : Cells, t.length + mid'.length = mid.length ∧
      cEscapeLoop ctrlOnly maxlen s (front ++ (mid ++ [none])) front.length =
        some (front ++ (t.map some ++ (mid' ++ [none])), front.length + t.length)

/-- A step of the loop that writes `e`. -/
theorem Escapes.step {maxlen : ℕ} {mid : Cells} (mid' : Cells)
    (hmid : e.length + mid'.length = mid.length)
    (htext : cEscapeStr ctrlOnly mid.length (c :: s) =
      (cEscapeStr ctrlOnly mid'.length s).map (e ++ ·))
    (hloop : cEscapeLoop ctrlOnly maxlen (c :: s) (front ++ (mid ++ [none])) front.length =
      cEscapeLoop ctrlOnly maxlen s (front ++ e.map some ++ (mid' ++ [none]))
        (front ++ e.map some).length)
    (h : Escapes ctrlOnly maxlen s (front ++ e.map some) mid') :
    Escapes ctrlOnly maxlen (c :: s) front mid := by
  rw [Escapes] at h ⊢
  rw [htext, hloop]
  cases hs : cEscapeStr ctrlOnly mid'.length s with
  | none =>
      rw [hs] at h
      exact h
  | some t =>
      rw [hs] at h
      obtain ⟨mid'', hlen, hrest⟩ := h
      refine ⟨mid'', by rw [List.length_append]; omega, ?_⟩
      rw [hrest]
      simp [Nat.add_assoc]

section Step

variable {maxlen : ℕ} {mid : Cells}

/-- An escape of the table that leaves room for its zero, or does not. -/
theorem Escapes.table (hlen : front.length + mid.length = maxlen) (hmid : mid ≠ [])
    (he : tableEscape ctrlOnly c = some e)
    (h : ∀ mid' : Cells, e.length + mid'.length = mid.length →
      Escapes ctrlOnly maxlen s (front ++ e.map some) mid') :
    Escapes ctrlOnly maxlen (c :: s) front mid := by
  have hpos := List.length_pos_iff.mpr hmid
  obtain ⟨hzero, hne⟩ := zero_notMem_tableEscape he
  have hroom : maxlen - front.length = mid.length := by omega
  have hcopy : (strncpyBytes e mid.length).length = mid.length := by
    simp only [strncpyBytes, List.length_append, List.length_take, List.length_replicate]
    omega
  obtain ⟨room, hsucc⟩ : ∃ room, mid.length = room + 1 := ⟨mid.length - 1, by omega⟩
  have hput : putCells (front ++ (mid ++ [none])) front.length (strncpyBytes e mid.length) =
      some (front ++ ((strncpyBytes e mid.length).map some ++ [none])) :=
    putCells_append hcopy.symm
  have htext : cEscapeStr ctrlOnly mid.length (c :: s) = if e.length < mid.length then
      (cEscapeStr ctrlOnly (mid.length - e.length) s).map (e ++ ·) else none := by
    rw [hsucc, cEscapeStr]
    rw [tableEscape] at he
    rw [he]
  have hloop : cEscapeLoop ctrlOnly maxlen (c :: s) (front ++ (mid ++ [none])) front.length =
      (strlenCells ((strncpyBytes e mid.length).map some ++ [none])).bind fun n ↦
        cEscapeLoop ctrlOnly maxlen s
          (front ++ ((strncpyBytes e mid.length).map some ++ [none])) (front.length + n) := by
    rw [cEscapeLoop, if_pos (by omega), he]
    simp only [hroom, hput, Option.bind_eq_bind, Option.bind_some, List.drop_left]
  by_cases hfits : e.length < mid.length
  · have hbytes : strncpyBytes e mid.length =
        e ++ 0 :: List.replicate (mid.length - e.length - 1) 0 := by
      have hcons : mid.length - e.length = mid.length - e.length - 1 + 1 := by omega
      rw [strncpyBytes, List.take_of_length_le hfits.le, hcons, List.replicate_succ]
      rfl
    have hzeros : (some (0 : UInt8) ::
        List.replicate (mid.length - e.length - 1) (some (0 : UInt8))).length =
          mid.length - e.length := by
      rw [List.length_cons, List.length_replicate]
      omega
    refine .step (some 0 :: List.replicate (mid.length - e.length - 1) (some 0)) ?_ ?_ ?_
      (h _ ?_)
    · rw [hzeros]
      omega
    · rw [htext, if_pos hfits, hzeros]
    · rw [hloop, hbytes, List.map_append, List.map_cons, List.append_assoc, List.cons_append,
        strlenCells_zero hzero]
      simp
    · rw [hzeros]
      omega
  · have hbytes : strncpyBytes e mid.length = e.take mid.length := by
      rw [strncpyBytes, Nat.sub_eq_zero_of_le (Nat.le_of_not_lt hfits), List.replicate_zero,
        List.append_nil]
    have hnone : strlenCells ((e.take mid.length).map some ++ [none]) = none :=
      strlenCells_none (fun hmem ↦ hzero (List.mem_of_mem_take hmem)) []
    rw [Escapes, htext, if_neg hfits]
    rw [hloop, hbytes, hnone]
    rfl

/-- A control character, which is cut off where there is no room for it. -/
theorem Escapes.hex (hlen : front.length + mid.length = maxlen) (hmid : mid ≠ [])
    (he : tableEscape ctrlOnly c = none) (hc : c < 32)
    (h : ∀ mid' : Cells, ((hexEscape c).take (mid.length - 1)).length + mid'.length = mid.length →
      Escapes ctrlOnly maxlen s (front ++ ((hexEscape c).take (mid.length - 1)).map some) mid') :
    Escapes ctrlOnly maxlen (c :: s) front mid := by
  have hpos := List.length_pos_iff.mpr hmid
  have hroom : maxlen - front.length - 1 = mid.length - 1 := by omega
  set e := (hexEscape c).take (mid.length - 1) with hedef
  have hshort : e.length ≤ mid.length - 1 := List.length_take_le _ _
  -- the zero behind the escape, and what is left up to the last byte
  set rest := mid.drop (e.length + 1) with hrest
  have hput : putCells (front ++ (mid ++ [none])) front.length (e ++ [0]) =
      some (front ++ (e.map some ++ (some 0 :: rest) ++ [none])) := by
    have hsplit : mid ++ [none] = mid.take (e.length + 1) ++ (rest ++ [none]) := by
      rw [← List.append_assoc, List.take_append_drop]
    rw [hsplit, putCells_append (by
      rw [List.length_take, List.length_append, List.length_singleton]
      omega)]
    simp
  have hlast : (some (0 : UInt8) :: rest).length = mid.length - e.length := by
    rw [List.length_cons, hrest, List.length_drop]
    omega
  have hput' : putCells (front ++ (e.map some ++ (some 0 :: rest) ++ [none])) (maxlen - 1) [0] =
      some (front ++ (e.map some ++ ((some 0 :: rest).dropLast ++ [some 0]) ++ [none])) := by
    obtain ⟨init, last, hinit⟩ := (List.eq_nil_or_concat' (some 0 :: rest)).resolve_left
      (List.cons_ne_nil _ _)
    have hplace : maxlen - 1 = (front ++ (e.map some ++ init)).length := by
      have hlen' : init.length + 1 = mid.length - e.length := by
        rw [← hlast, hinit, List.length_append, List.length_singleton]
      simp only [List.length_append, List.length_map]
      omega
    have hshape : front ++ (e.map some ++ (some 0 :: rest) ++ [none]) =
        front ++ (e.map some ++ init) ++ ([last] ++ [none]) := by
      rw [hinit]
      simp
    rw [hshape, hplace, putCells_append rfl, hinit, List.dropLast_concat]
    simp
  refine .step ((some 0 :: rest).dropLast ++ [some 0]) ?_ ?_ ?_ (h _ ?_)
  · rw [List.length_append, List.length_dropLast, hlast, List.length_singleton]
    omega
  · obtain ⟨room, hsucc⟩ : ∃ room, mid.length = room + 1 := ⟨mid.length - 1, by omega⟩
    have hleft : ((some (0 : UInt8) :: rest).dropLast ++ [some 0]).length =
        room + 1 - e.length := by
      rw [List.length_append, List.length_dropLast, hlast, List.length_singleton]
      omega
    have hcopy : safecopy (room + 1) [92, 120, hexDigit (c >>> 4), hexDigit (c &&& 0xf)] = e := by
      rw [safecopy, hedef, hsucc, hexEscape]
    rw [tableEscape] at he
    rw [hleft, hsucc, cEscapeStr, he]
    simp only [hc, if_true, hcopy]
  · rw [cEscapeLoop, if_pos (by omega), he]
    simp only [hc, if_true, hroom, ← hedef, hput, hput', Option.bind_eq_bind, Option.bind_some]
    simp
  · rw [List.length_append, List.length_dropLast, hlast, List.length_singleton]
    omega

/-- A character that is copied. -/
theorem Escapes.plain (hlen : front.length + mid.length = maxlen) (hmid : mid ≠ [])
    (he : tableEscape ctrlOnly c = none) (hc : ¬c < 32)
    (h : ∀ mid' : Cells, [c].length + mid'.length = mid.length →
      Escapes ctrlOnly maxlen s (front ++ [c].map some) mid') :
    Escapes ctrlOnly maxlen (c :: s) front mid := by
  obtain ⟨m, rest, rfl⟩ := List.exists_cons_of_ne_nil hmid
  rw [List.length_cons] at hlen
  have hput : putCells (front ++ (m :: rest ++ [none])) front.length [c] =
      some (front ++ ([c].map some ++ (rest ++ [none]))) :=
    putCells_append (show [m].length = [c].length from rfl)
  refine .step rest ?_ ?_ ?_ (h _ ?_)
  · simp [Nat.add_comm]
  · rw [List.length_cons, cEscapeStr]
    rw [tableEscape] at he
    rw [he]
    simp [hc]
  · rw [cEscapeLoop, if_pos (by omega), he]
    simp only [hc, if_false, hput, Option.bind_eq_bind, Option.bind_some]
    simp
  · simp [Nat.add_comm]

end Step

theorem cEscapeLoop_escapes (ctrlOnly : Bool) (maxlen : ℕ) (s : Str) (front mid : Cells)
    (hlen : front.length + mid.length = maxlen) : Escapes ctrlOnly maxlen s front mid := by
  induction s generalizing front mid with
  | nil =>
      rw [Escapes, cEscapeStr]
      exact ⟨mid, Nat.zero_add _, rfl⟩
  | cons c s ih =>
      by_cases hmid : mid = []
      · subst hmid
        rw [Escapes, List.length_nil, cEscapeStr]
        refine ⟨[], rfl, ?_⟩
        rw [List.length_nil] at hlen
        rw [cEscapeLoop, if_neg (by omega)]
        rfl
      · have hrest : ∀ (e : Str) (mid' : Cells), e.length + mid'.length = mid.length →
            Escapes ctrlOnly maxlen s (front ++ e.map some) mid' := by
          intro e mid' h
          apply ih
          rw [List.length_append, List.length_map]
          omega
        cases he : tableEscape ctrlOnly c with
        | some e => exact .table hlen hmid he (hrest e)
        | none =>
            by_cases hc : c < 32
            · exact .hex hlen hmid he hc (hrest _)
            · exact .plain hlen hmid he hc (hrest _)

theorem replicate_none (maxlen : ℕ) : List.replicate (maxlen + 1) (none : Option UInt8) =
    [] ++ (List.replicate maxlen none ++ [none]) := List.replicate_succ'

/-- The string is written with its zero, inside the memory. -/
theorem cEscapeInto_of_some {maxlen : ℕ} {text : Str}
    (h : cEscapeStr ctrlOnly maxlen s = some text) :
    ∃ rest, cEscapeInto ctrlOnly maxlen s = some (text.map some ++ some 0 :: rest) ∧
      (text.map some ++ some 0 :: rest).length = maxlen + 1 := by
  have hescapes := cEscapeLoop_escapes ctrlOnly maxlen s [] (List.replicate maxlen none)
    (by rw [List.length_nil, List.length_replicate, Nat.zero_add])
  rw [Escapes, List.length_replicate, h, ← replicate_none] at hescapes
  obtain ⟨mid, hlen, hloop⟩ := hescapes
  rw [List.length_nil, Nat.zero_add, List.nil_append] at hloop
  obtain ⟨x, rest, hx⟩ := List.exists_cons_of_ne_nil
    (List.append_ne_nil_of_right_ne_nil mid (List.cons_ne_nil (none : Option UInt8) []))
  have hput : putCells (text.map some ++ (mid ++ [none])) text.length [0] =
      some (text.map some ++ some 0 :: rest) := by
    have happend : putCells (text.map some ++ ([x] ++ rest)) (text.map some).length [0] =
        some (text.map some ++ ([(0 : UInt8)].map some ++ rest)) :=
      putCells_append rfl
    rw [List.length_map] at happend
    rw [hx]
    exact happend
  refine ⟨rest, ?_, ?_⟩
  · rw [cEscapeInto, hloop]
    exact hput
  · have hlength := congrArg List.length hx
    simp only [List.length_append, List.length_map, List.length_cons, List.length_nil] at hlength ⊢
    omega

/-- Otherwise something is read that has not been written. -/
theorem cEscapeInto_of_none {maxlen : ℕ} (h : cEscapeStr ctrlOnly maxlen s = none) :
    cEscapeInto ctrlOnly maxlen s = none := by
  have hescapes := cEscapeLoop_escapes ctrlOnly maxlen s [] (List.replicate maxlen none)
    (by rw [List.length_nil, List.length_replicate, Nat.zero_add])
  rw [Escapes, List.length_replicate, h, ← replicate_none] at hescapes
  rw [cEscapeInto, ← List.length_nil, hescapes]
  rfl

/-! ## When the escapes fit -/

/-- The room that is left behind a character. -/
def roomAfter (ctrlOnly : Bool) (room : ℕ) (c : UInt8) : ℕ :=
  match tableEscape ctrlOnly c with
  | some e => room - e.length
  | none => if c < 32 then room - min 4 (room - 1) else room - 1

/-- Every escape of the table either begins at `maxlen` or ends before it. -/
def EscapesFit (ctrlOnly : Bool) (room : ℕ) (s : Str) : Prop :=
  ∀ pre c post e, s = pre ++ c :: post → tableEscape ctrlOnly c = some e →
    pre.foldl (roomAfter ctrlOnly) room = 0 ∨ e.length < pre.foldl (roomAfter ctrlOnly) room

theorem escapesFit_cons : EscapesFit ctrlOnly room (c :: s) ↔
    (∀ e, tableEscape ctrlOnly c = some e → room = 0 ∨ e.length < room) ∧
      EscapesFit ctrlOnly (roomAfter ctrlOnly room c) s := by
  constructor
  · intro h
    exact ⟨fun e ↦ h [] c s e rfl, fun pre d post e hs ↦ h (c :: pre) d post e (by rw [hs]; rfl)⟩
  · rintro ⟨hfirst, hrest⟩ pre d post e hs
    cases pre with
    | nil =>
        obtain ⟨rfl, -⟩ := List.cons.inj hs
        exact hfirst e
    | cons b pre =>
        obtain ⟨rfl, rfl⟩ := List.cons.inj hs
        exact hrest pre d post e rfl

theorem roomAfter_zero (ctrlOnly : Bool) (c : UInt8) : roomAfter ctrlOnly 0 c = 0 := by
  rw [roomAfter]
  split
  · exact Nat.zero_sub _
  · split <;> rfl

theorem escapesFit_zero (ctrlOnly : Bool) (s : Str) : EscapesFit ctrlOnly 0 s := by
  induction s with
  | nil =>
      intro pre c post e hs
      simp at hs
  | cons c s ih =>
      rw [escapesFit_cons, roomAfter_zero]
      exact ⟨fun _ _ ↦ .inl rfl, ih⟩

theorem cEscapeStr_isSome_iff (ctrlOnly : Bool) (room : ℕ) (s : Str) :
    (cEscapeStr ctrlOnly room s).isSome ↔ EscapesFit ctrlOnly room s := by
  induction s generalizing room with
  | nil =>
      rw [cEscapeStr]
      refine iff_of_true rfl ?_
      intro pre c post e hs
      simp at hs
  | cons c s ih =>
      cases room with
      | zero => exact iff_of_true rfl (escapesFit_zero ctrlOnly _)
      | succ room =>
          rw [escapesFit_cons, ← ih, roomAfter, cEscapeStr, ← tableEscape]
          cases he : tableEscape ctrlOnly c with
          | some e =>
              by_cases hfits : e.length < room + 1
              · simp [hfits, Nat.le_of_lt_succ hfits]
              · simp [hfits, Nat.lt_succ_iff.not.mp hfits]
          | none =>
              by_cases hc : c < 32
              · simp [hc, safecopy, Nat.min_comm]
              · simp [hc]

/-! ## The text that is written -/

theorem zero_notMem_hexEscape (hc : c < 32) : 0 ∉ hexEscape c := by
  have hall : ∀ c : UInt8, c < 32 → 0 ∉ hexEscape c :=
    Words.forall_uint8 (p := fun c ↦ c < 32 → 0 ∉ hexEscape c) (by decide +kernel)
  exact hall c hc

/-- The string that is written ends where its zero is. -/
theorem zero_notMem_cEscapeStr {text : Str} (hs : 0 ∉ s)
    (h : cEscapeStr ctrlOnly room s = some text) : 0 ∉ text := by
  induction s generalizing room text with
  | nil =>
      rw [cEscapeStr] at h
      rw [← Option.some.inj h]
      exact List.not_mem_nil
  | cons c s ih =>
      obtain ⟨hc, hs⟩ := not_or.mp (mt List.mem_cons.mpr hs)
      cases room with
      | zero =>
          rw [cEscapeStr] at h
          rw [← Option.some.inj h]
          exact List.not_mem_nil
      | succ room =>
          rw [cEscapeStr, ← tableEscape] at h
          cases he : tableEscape ctrlOnly c with
          | some e =>
              rw [he] at h
              dsimp only at h
              split at h
              · obtain ⟨t, ht, rfl⟩ := Option.map_eq_some_iff.mp h
                simp [(zero_notMem_tableEscape he).1, ih hs ht]
              · cases h
          | none =>
              rw [he] at h
              dsimp only at h
              split at h
              · next hlt =>
                obtain ⟨t, ht, rfl⟩ := Option.map_eq_some_iff.mp h
                have hhex := zero_notMem_hexEscape hlt
                have htake : 0 ∉ safecopy (room + 1) (hexEscape c) :=
                  fun hmem ↦ hhex (List.mem_of_mem_take hmem)
                rw [hexEscape] at htake
                simp [htake, ih hs ht]
              · obtain ⟨t, ht, rfl⟩ := Option.map_eq_some_iff.mp h
                simp [hc, ih hs ht]

theorem length_escaped_le (s : Str) : (escaped s).length ≤ 4 * s.length := by
  have hall : ∀ c, (escapeOf c).length ≤ 4 :=
    Words.forall_uint8 (p := fun c ↦ (escapeOf c).length ≤ 4) (by decide +kernel)
  induction s with
  | nil => exact le_rfl
  | cons c s ih =>
      have hcons : escaped (c :: s) = escapeOf c ++ escaped s := List.flatMap_cons
      have hc := hall c
      rw [hcons, List.length_append, List.length_cons]
      omega

end Synchronet.Xpdev
