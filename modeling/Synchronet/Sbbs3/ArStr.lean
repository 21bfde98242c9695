import Synchronet.Sbbs3.Ars
import Synchronet.Smblib.Index
import Synchronet.Xpdev.Genwrap

/-!
# Compiling access requirements (ars.c)

`arstr` reads a requirement character by character and writes the codes of its keywords and
their operands to a buffer of 1024 bytes.  It has no result when it writes behind the buffer, or
reads behind the end of the source, as it does for a dollar sign at its end.
-/

namespace Synchronet.Sbbs3

open LittleEndian
open Xpdev (Str strnicmp isdigit)

/-- `sizeof(ar)` -/
def sizeofAr : ℕ := 1024

def isalpha (c : UInt8) : Bool := decide (65 ≤ c ∧ c ≤ 90 ∨ 97 ≤ c ∧ c ≤ 122)

/-- The codes of the sub-boards and of the directories. -/
structure ArConfig where
  subs : List Str := []
  dirs : List Str := []

/-- The buffer up to `j`, and what the loop of `arstr` remembers; no keyword is `AR_INVALID`. -/
structure ArState where
  ar : List UInt8 := []
  artype : Option UInt8 := none
  not : Bool := false
  equal : Bool := false
  argExpected : Bool := false

namespace ArState

/-- Bytes at the end of the buffer. -/
def put (st : ArState) (bytes : List UInt8) : Option ArState :=
  if st.ar.length + bytes.length ≤ sizeofAr then some { st with ar := st.ar ++ bytes } else none

/-- An `AR_NOT` that has been asked for. -/
def putNot (st : ArState) : Option ArState :=
  if st.not then ({ st with not := false } : ArState).put [arNot] else some st

/-- A keyword without an argument. -/
def putAtom (st : ArState) (artype : UInt8) : Option ArState := do
  let st ← st.putNot
  let st ← st.put [artype]
  pure { st with artype := none, argExpected := false }

end ArState

/-! ## Keywords -/

/-- The word at the start of the source. -/
def isWord (s word : Str) : Bool :=
  decide ((s.takeWhile isalpha).length = word.length) && strnicmp s word

/-- The keywords that expect a string. -/
def arStringArg (artype : UInt8) : Bool :=
  artype ∈ [arSubcode, arDircode, arShell, arProt, arHost, arIp]

/-- The symbols behind a dollar sign that have an argument. -/
def arSymbol (ch : UInt8) : Option UInt8 :=
  -- 'A' to 'F'
  if ch = 65 then some arAge
  else if ch = 66 then some arBps
  else if ch = 67 then some arCredit
  else if ch = 68 then some arUdfr
  else if ch = 69 then some arExpire
  else if ch = 70 then some arFlag1
  -- 'H' to 'Y'
  else if ch = 72 then some arSub
  else if ch = 73 then some arLib
  else if ch = 74 then some arDir
  else if ch = 75 then some arUdr
  else if ch = 76 then some arLevel
  else if ch = 77 then some arGroup
  else if ch = 78 then some arNode
  else if ch = 79 then some arTused
  else if ch = 80 then some arPcr
  else if ch = 81 then some arRandom
  else if ch = 82 then some arTleft
  else if ch = 83 then some arSex
  else if ch = 84 then some arTime
  else if ch = 85 then some arUser
  else if ch = 86 then some arLogons
  else if ch = 87 then some arDay
  else if ch = 88 then some arExempt
  else if ch = 89 then some arLaston
  else none

/-- The symbols that are written at once; `$Z` runs into them. -/
def arBoolSymbol (ch : UInt8) : Option UInt8 :=
  if ch = 90 then some arRest
  else if ch = 48 then some arNull
  else if ch = 71 then some arLocal
  else if ch = 42 then some arRip
  else if ch = 91 then some arAnsi
  else none

/-- The keywords from `AGE` to `SHELL`. -/
def arKeywords : List (Str × UInt8) :=
  [([65, 71, 69], arAge), ([66, 80, 83], arBps), ([80, 67, 82], arPcr), ([83, 69, 88], arSex),
    ([85, 68, 82], arUdr), ([85, 76, 83], arUls), ([85, 76, 75], arUlk), ([85, 76, 77], arUlm),
    ([68, 76, 83], arDls), ([68, 76, 75], arDlk), ([68, 76, 77], arDlm), ([68, 65, 89], arDay),
    ([82, 73, 80], arRip), ([87, 73, 80], arWip), ([79, 83, 50], arOs2), ([68, 79, 83], arDos),
    ([87, 73, 78, 51, 50], arWin32), ([85, 78, 73, 88], arUnix), ([76, 73, 78, 85, 88], arLinux),
    ([80, 82, 79, 84], arProt), ([72, 79, 83, 84], arHost), ([73, 80], arIp),
    ([83, 85, 66, 67, 79, 68, 69], arSubcode), ([83, 85, 66], arSub), ([76, 73, 66], arLib),
    ([68, 73, 82, 67, 79, 68, 69], arDircode), ([68, 73, 82], arDir), ([65, 78, 83, 73], arAnsi),
    ([85, 68, 70, 82], arUdfr), ([70, 76, 65, 71], arFlag1), ([78, 79, 68, 69], arNode),
    ([78, 85, 76, 76], arNull), ([85, 83, 69, 82], arUser), ([84, 73, 77, 69], arTime),
    ([82, 69, 83, 84], arRest), ([76, 69, 86, 69, 76], arLevel), ([84, 76, 69, 70, 84], arTleft),
    ([84, 85, 83, 69, 68], arTused), ([76, 79, 67, 65, 76], arLocal),
    ([71, 82, 79, 85, 80], arGroup), ([69, 88, 80, 73, 82, 69], arExpire),
    ([65, 67, 84, 73, 86, 69], arActive), ([73, 78, 65, 67, 84, 73, 86, 69], arInactive),
    ([68, 69, 76, 69, 84, 69, 68], arDeleted), ([69, 88, 80, 69, 82, 84], arExpert),
    ([83, 89, 83, 79, 80], arSysop), ([71, 85, 69, 83, 84], arGuest),
    ([81, 78, 79, 68, 69], arQnode), ([81, 85, 73, 69, 84], arQuiet),
    ([69, 88, 69, 77, 80, 84], arExempt), ([82, 65, 78, 68, 79, 77], arRandom),
    ([76, 65, 83, 84, 79, 78], arLaston), ([76, 79, 71, 79, 78, 83], arLogons),
    ([67, 82, 69, 68, 73, 84], arCredit), ([77, 65, 73, 78, 95, 67, 77, 68, 83], arMainCmds),
    ([70, 73, 76, 69, 95, 67, 77, 68, 83], arFileCmds), ([83, 72, 69, 76, 76], arShell)]

/-- The first keyword that the source starts with, and its length. -/
def arKeyword (s : Str) : Option (ℕ × UInt8) :=
  (arKeywords.find? fun k ↦ strnicmp s k.1).map fun k ↦ (k.1.length, k.2)

/-- The keywords without an argument. -/
def arBoolean (artype : UInt8) : Bool :=
  artype ∈ [arRip, arWip, arAnsi, arDos, arOs2, arUnix, arLinux, arWin32, arLocal, arActive,
    arInactive, arDeleted, arExpert, arSysop, arGuest, arQnode, arQuiet]

/-! ## Arguments -/

/-- A number as a `short`. -/
def shortBytes (n : UInt32) : List UInt8 := le 2 n.toNat

def atou (s : Str) : UInt32 := UInt32.ofInt (Smblib.atoi s)

/-- The number of a keyword. -/
def numberBytes (artype : UInt8) (n : UInt32) : Option (List UInt8) :=
  match artype with
  | arDay => some [(if 6 < n then 6 else n).toUInt8]
  | arAge | arPcr | arUdr | arUdfr | arNode | arLevel | arTleft | arTused => some [n.toUInt8]
  | arBps => some (shortBytes (if n < 300 then n * 100 else n))
  | arMainCmds | arFileCmds | arExpire | arCredit | arUser | arRandom | arLaston | arLogons
  | arUls | arUlk | arUlm | arDls | arDlk | arDlm => some (shortBytes n)
  | arGroup | arLib | arDir | arSub => some (shortBytes (if n ≠ 0 then n - 1 else n))
  | _ => none

/-- The time of day at the start of the source, in minutes. -/
def timeNumber (s : Str) : UInt32 :=
  let minutes :=
    match s.dropWhile (· ≠ 58) with
    | [] => 0
    | _ :: s => atou s
  atou s * 60 + minutes

/-- The day at the start of the source. -/
def dayNumber (c : UInt8) (s : Str) : UInt8 :=
  let c := toupper c
  let d := toupper (s.headD 0)
  if c = 83 ∧ d = 85 then 0
  else if c = 77 then 1
  else if c = 84 ∧ d = 85 then 2
  else if c = 87 then 3
  else if c = 84 ∧ d = 72 then 4
  else if c = 70 then 5
  else 6

/-- The number of the area whose code the source starts with. -/
def areaBytes (codes : List Str) (s : Str) : Option (List UInt8) :=
  (codes.findIdx? (strnicmp s)).map fun n ↦ shortBytes (UInt32.ofNat n)

/-- The characters that end a string. -/
def endsString (c : UInt8) : Bool := c ∈ [32, 40, 41, 61, 124, 38]

/-- The string at the start of the source. -/
def stringAt (maxlen : ℕ) (s : Str) : Str := (s.take maxlen).takeWhile fun c ↦ !endsString c

/-- The longest string of a keyword: a code has 16 characters, `LEN_EXTCODE`. -/
def maxlenOf (artype : UInt8) : ℕ :=
  if artype ∈ [arSubcode, arDircode, arShell] then 16 else 128

/-- An argument, or no keyword after all. -/
def ArState.putArg (st : ArState) (arg : Option (List UInt8)) : Option ArState :=
  match arg with
  | some bytes => st.put bytes
  | none => some { st with ar := st.ar.dropLast }

/-- The argument of a keyword that has been written, from the character `c` on. -/
def arArgument (cfg : ArConfig) (st : ArState) (artype c : UInt8) (s : Str) :
    Option (Str × ArState) :=
  if isdigit c && !arStringArg artype then
    if artype = arTime then
      (st.put (shortBytes (timeNumber (c :: s)))).map fun st ↦
        (s.dropWhile fun d ↦ isdigit d || d = 58, st)
    else (st.putArg (numberBytes artype (atou (c :: s)))).map fun st ↦ (s.dropWhile isdigit, st)
  else if arStringArg artype then
    let str := stringAt (maxlenOf artype) (c :: s)
    (st.put (str.map toupper ++ [0])).map fun st ↦ (s.drop (str.length - 1), st)
  else if artype ∈ [arFlag1, arFlag2, arFlag3, arFlag4, arExempt, arSex, arRest] then
    (st.put [toupper c]).map fun st ↦ (s, st)
  else if artype = arSub then
    (st.putArg (areaBytes cfg.subs (c :: s))).map fun st ↦ (s.dropWhile isalpha, st)
  else if artype = arDir then
    (st.putArg (areaBytes cfg.dirs (c :: s))).map fun st ↦ (s.dropWhile isalpha, st)
  else if artype = arDay then
    (st.put [dayNumber c s]).map fun st ↦ (s.dropWhile isalpha, st)
  else (st.putArg none).map fun st ↦ (s, st)

/-- The keyword that an argument is for. -/
def argType (artype : Option UInt8) (c : UInt8) : UInt8 :=
  match artype with
  | none => arLevel
  | some artype =>
      if artype = arSub ∧ !isdigit c then arSubcode
      else if artype = arDir ∧ !isdigit c then arDircode
      else artype

/-- The flag set of a digit. -/
def flagType (c : UInt8) : UInt8 :=
  if c = 50 then arFlag2 else if c = 51 then arFlag3 else if c = 52 then arFlag4 else arFlag1

/-- An `AR_EQUAL` that has been asked for, unless the argument is a string. -/
def ArState.putEqual (st : ArState) : Option ArState :=
  if st.equal && !st.artype.any arStringArg then
    ({ st with equal := false } : ArState).put [arEqual]
  else some { st with equal := false }

/-- The end of a round of the loop, at a character that is no keyword. -/
def arOperator (cfg : ArConfig) (st : ArState) (c : UInt8) (s : Str) : Option (Str × ArState) := do
  let st ← st.putNot
  let st ← st.putEqual
  if st.artype = some arFlag1 && isdigit c then
    pure (s, { st with artype := some (flagType c) })
  else
    let artype := argType st.artype c
    let st ← ({ st with artype := some artype, argExpected := false } : ArState).put [artype]
    arArgument cfg st artype c s

/-! ## The loop -/

/-- A keyword that has been read. -/
def ArState.keyword (st : ArState) (artype : UInt8) : Option ArState :=
  if arBoolean artype then st.putAtom artype
  else some { st with artype := some artype, argExpected := true }

/-- The symbol behind a dollar sign. -/
def arDollar (st : ArState) : Str → Option (Str × ArState)
  -- the end of the source is stepped over
  | [] => none
  | ch :: s =>
      match arSymbol (toupper ch) with
      | some artype => some (s, { st with artype := some artype, argExpected := true })
      | none =>
          match arBoolSymbol (toupper ch) with
          | some artype => (st.putAtom artype).map fun st ↦ (s, st)
          | none => some (s, { st with argExpected := true })

/-- A round of the loop at a character that is neither a symbol nor the start of OR and its
like. -/
def arKeywordRound (cfg : ArConfig) (st : ArState) (c : UInt8) (s : Str) :
    Option (Str × ArState) :=
  if c = 36 then arDollar st s
  else
    match if !st.argExpected && isalpha c then arKeyword (c :: s) else none with
    | some (length, artype) => (st.keyword artype).map fun st ↦ (s.drop (length - 1), st)
    | none => arOperator cfg st c s

/-- A round of the loop at a character that is no symbol. -/
def arWordRound (cfg : ArConfig) (st : ArState) (c : UInt8) (s : Str) : Option (Str × ArState) :=
  -- OR, AND, NOT
  if isWord (c :: s) [79, 82] then (st.put [arOr]).map fun st ↦ (s.drop 1, st)
  else if isWord (c :: s) [65, 78, 68] then some (s.drop 2, st)
  else if isWord (c :: s) [78, 79, 84] then some (s.drop 2, { st with not := true })
  -- TO, EQUAL, EQUALS
  else if st.equal && isWord (c :: s) [84, 79] then some (s.drop 1, st)
  else if isWord (c :: s) [69, 81, 85, 65, 76] then some (s.drop 4, { st with equal := true })
  else if isWord (c :: s) [69, 81, 85, 65, 76, 83] then some (s.drop 5, { st with equal := true })
  else arKeywordRound cfg st c s

/-- A round of the loop at the character `c`: what is left of the source. -/
def arRound (cfg : ArConfig) (st : ArState) (c : UInt8) (s : Str) : Option (Str × ArState) :=
  if c = 32 then some (s, st)
  else if c = 40 then do
    let st ← st.putNot
    let st ← ({ st with equal := false } : ArState).put [arBegnest]
    pure (s, st)
  else if c = 41 then (st.put [arEndnest]).map fun st ↦ (s, st)
  else if c = 124 then (st.put [arOr]).map fun st ↦ (s, st)
  else if c = 33 then some (s, { st with not := true })
  else if c = 61 then some (s, { st with equal := true })
  else if c = 38 then some (s, st)
  else arWordRound cfg st c s

/-! ## What is left of the source -/

theorem rest_of_map {x : Option ArState} {r rest : Str} {st : ArState}
    (h : x.map (fun st ↦ (r, st)) = some (rest, st)) : rest = r := by
  obtain ⟨_, -, heq⟩ := Option.map_eq_some_iff.mp h
  exact (Prod.mk.inj heq).1.symm

theorem rest_of_some {r rest : Str} {st st' : ArState} (h : some (r, st) = some (rest, st')) :
    rest = r :=
  (Prod.mk.inj (Option.some.inj h)).1.symm

variable {cfg : ArConfig} {st st' : ArState} {c artype : UInt8} {s rest : Str}

theorem arArgument_suffix (h : arArgument cfg st artype c s = some (rest, st')) : rest <:+ s := by
  rw [arArgument] at h
  split at h
  · split at h
    · rw [rest_of_map h]
      exact List.dropWhile_suffix _
    · rw [rest_of_map h]
      exact List.dropWhile_suffix _
  · split at h
    · rw [rest_of_map h]
      exact List.drop_suffix _ s
    · split at h
      · rw [rest_of_map h]
      · split at h
        · rw [rest_of_map h]
          exact List.dropWhile_suffix _
        · split at h
          · rw [rest_of_map h]
            exact List.dropWhile_suffix _
          · split at h
            · rw [rest_of_map h]
              exact List.dropWhile_suffix _
            · rw [rest_of_map h]

theorem arOperator_suffix (h : arOperator cfg st c s = some (rest, st')) : rest <:+ s := by
  simp only [arOperator, Option.bind_eq_bind, Option.bind_eq_some_iff] at h
  obtain ⟨st₁, -, st₂, -, h⟩ := h
  split at h
  · rw [rest_of_some h]
  · obtain ⟨st₃, -, h⟩ := Option.bind_eq_some_iff.mp h
    exact arArgument_suffix h

theorem arDollar_suffix (h : arDollar st s = some (rest, st')) : rest <:+ s := by
  cases s with
  | nil => exact nomatch h
  | cons ch s =>
      rw [arDollar] at h
      split at h
      · rw [rest_of_some h]
        exact List.suffix_cons ch s
      · split at h
        · rw [rest_of_map h]
          exact List.suffix_cons ch s
        · rw [rest_of_some h]
          exact List.suffix_cons ch s

theorem arKeywordRound_suffix (h : arKeywordRound cfg st c s = some (rest, st')) : rest <:+ s := by
  rw [arKeywordRound] at h
  split at h
  · exact arDollar_suffix h
  · split at h
    · rw [rest_of_map h]
      exact List.drop_suffix _ s
    · exact arOperator_suffix h

theorem arWordRound_suffix (h : arWordRound cfg st c s = some (rest, st')) : rest <:+ s := by
  rw [arWordRound] at h
  split at h
  · rw [rest_of_map h]
    exact List.drop_suffix 1 s
  iterate 5
    split at h
    · rw [rest_of_some h]
      exact List.drop_suffix _ s
  exact arKeywordRound_suffix h

/-- A round never goes back. -/
theorem arRound_suffix (h : arRound cfg st c s = some (rest, st')) : rest <:+ s := by
  rw [arRound] at h
  split at h
  · rw [rest_of_some h]
  split at h
  · simp only [Option.bind_eq_bind, Option.bind_eq_some_iff] at h
    obtain ⟨_, -, _, -, h⟩ := h
    rw [rest_of_some h]
  iterate 2
    split at h
    · rw [rest_of_map h]
  iterate 3
    split at h
    · rw [rest_of_some h]
  exact arWordRound_suffix h

/-- The loop of `arstr`. -/
def arstrLoop (cfg : ArConfig) (st : ArState) : Str → Option ArState
  | [] => some st
  | c :: s =>
      match _h : arRound cfg st c s with
      | none => none
      | some (rest, st) => arstrLoop cfg st rest
termination_by s => s.length
decreasing_by
  have hle := (arRound_suffix _h).length_le
  simp only [List.length_cons]
  omega

/-- `nular` -/
def nular : List UInt8 := [arNull]

/-- `arstr`, and the number of bytes before the padding. -/
def arstr (cfg : ArConfig) (str : Str) : Option (ℕ × List UInt8) := do
  let st ← arstrLoop cfg {} str
  if st.ar = [] then pure (0, nular)
  else
    let st ← st.put [arNull]
    -- padded for the reads of two bytes
    pure (st.ar.length, st.ar ++ List.replicate 4 0)

end Synchronet.Sbbs3
