import Synchronet.Lib.Words
import Synchronet.Xpdev.Genwrap
import Synchronet.Smblib.Index
import Mathlib.Algebra.Order.Group.Unbundled.Int
import Mathlib.Data.List.TakeWhile
import Mathlib.Tactic.Linarith
import Mathlib.Tactic.Ring

/-!
# The chunked body of a request (websrvr.c)

`read_post_data` gathers the chunks of a request's body, in memory up to 4 MiB and else in a
temporary file.  The buffer has the size of the body, so that there is no room for the final NUL
unless a `Content-Length` header cuts the body short.  A body in a file is refused, since the
line ends behind its chunks are not read.
-/

namespace Synchronet.Sbbs3

open Xpdev (Str isxdigit)

/-! ## Numbers and lines -/

def hexDigitValue (c : UInt8) : ℕ :=
  if c ≤ 57 then c.toNat - 48 else if c ≤ 70 then c.toNat - 55 else c.toNat - 87

def hexValue (digits : Str) : ℕ := digits.foldl (fun n c ↦ 16 * n + hexDigitValue c) 0

/-- Behind `0x` when digits follow. -/
def skipHexMark : Str → Str
  | 48 :: x :: d :: rest =>
      if (x = 120 ∨ x = 88) ∧ isxdigit d then d :: rest else 48 :: x :: d :: rest
  | s => s

/-- `strtol` with base 16 -/
def strtolHex (s : Str) : ℤ :=
  match s.dropWhile Smblib.isspace with
  | 45 :: rest => max (-hexValue ((skipHexMark rest).takeWhile isxdigit)) (-2 ^ 63)
  | 43 :: rest => min (hexValue ((skipHexMark rest).takeWhile isxdigit)) (2 ^ 63 - 1)
  | rest => min (hexValue ((skipHexMark rest).takeWhile isxdigit)) (2 ^ 63 - 1)

/-- What `sockreadline` stores of a line in a buffer for `length` characters. -/
def storedLine (length : ℕ) (line : List UInt8) : List UInt8 :=
  (line.take length).rdropWhile (· = 13)

/-- `sockreadline`: the line and what is left on the connection, which ends when it has no line
any more. -/
def sockreadline (length : ℕ) (stream : List UInt8) : Option (List UInt8 × List UInt8) :=
  match stream.dropWhile (· ≠ 10) with
  | [] => none
  | _ :: rest => some (storedLine length (stream.takeWhile (· ≠ 10)), rest)

/-! ## Reading a body -/

def maxPostLen : ℕ := 4 * 1048576

/-- What `read_post_data` depends on besides the connection. -/
structure PostEnv where
  /-- Whether there is memory for so many bytes. -/
  realloc : ℕ → Bool
  /-- The size that the temporary file can reach. -/
  disk : ℕ
  disk_lt : disk < 2 ^ 63
  /-- The `Content-Length` that `parse_headers` finds in the headers of the request and in what
  follows the body, 0 without one. -/
  contentLen : List UInt8 → ℕ

/-- The body so far.  The memory at `post_data` is all that was allocated. -/
structure PostData where
  stream : List UInt8
  s : ℕ := 0
  file : Option (List UInt8) := none
  postData : Option (List UInt8) := none
  postLen : ℕ := 0

/-- How reading ends; an error reply may be followed by closing the file again. -/
inductive PostOutcome
  | refused (closedTwice : Bool)
  | outside
  | accepted (postData : List UInt8) (postLen : ℕ)

/-- One round of the loop over the chunks. -/
inductive PostStep
  | refused (closedTwice : Bool)
  | outside
  | last (p : PostData)
  | next (p : PostData)

/-- The rounds of `post_to_file`, with the bytes that are left of the chunk. -/
def postToFile (disk : ℕ) (stream file : List UInt8) (left : ℕ) :
    Option (List UInt8 × List UInt8) :=
  if left = 0 then some (stream, file)
  else
    let count := min left (20 * 1024)
    if stream.length < count ∨ disk < file.length + count then none
    else postToFile disk (stream.drop count) (file ++ stream.take count) (left - count)
termination_by left
decreasing_by omega

namespace PostData

/-- A chunk behind which the body is larger than the memory for it may be. -/
def toFile (env : PostEnv) (p : PostData) (s chLen : ℕ) : PostStep :=
  -- `open_post_file` moves what is in memory to the file.
  let file := p.file.getD ((p.postData.getD []).take p.postLen)
  let postData := if p.file.isSome then p.postData else none
  if env.disk < file.length then .refused false
  else
    match postToFile env.disk p.stream file chLen with
    | none => .refused true
    | some (stream, file) =>
        .next ⟨stream, s, some file, postData, (p.postLen + chLen) % 2 ^ 64⟩

/-- What is at `post_data` after its size has changed. -/
def reallocated (p : PostData) (s : ℕ) : List UInt8 :=
  (p.postData.getD []).take s ++ List.replicate (s - (p.postData.getD []).length) 0

/-- The line behind a chunk; a line that is not empty is answered with an error. -/
def skipTerminator (stream : List UInt8) : List UInt8 :=
  (sockreadline 11 stream).elim [] Prod.snd

/-- A chunk that is kept in memory.  `recvbufsocket` takes the length as a signed number, and
stores what it gets of the chunk, or a NUL. -/
def toMemory (env : PostEnv) (p : PostData) (s chLen : ℕ) : PostStep :=
  if s = 0 ∨ env.realloc s = false then .refused false
  else if chLen = 0 ∨ 2 ^ 63 ≤ chLen then .refused false
  else
    let bytes := p.stream.take chLen
    if s < p.postLen + max 1 bytes.length then .outside
    else if bytes.length < chLen then .refused false
    else
      let block := p.reallocated s
      .next ⟨skipTerminator (p.stream.drop chLen), s, p.file,
        some (block.take p.postLen ++ bytes ++ block.drop (p.postLen + chLen)),
        p.postLen + chLen⟩

/-- A round of the loop; sizes are of type `size_t`. -/
def readChunk (env : PostEnv) (p : PostData) : PostStep :=
  match sockreadline 11 p.stream with
  | none => .refused false
  | some ([], _) => .refused false
  | some (chLstr, stream) =>
      let chLen := (strtolHex chLstr % 2 ^ 64).toNat
      if chLen = 0 then .last { p with stream }
      else
        let s := (p.s + chLen) % 2 ^ 64
        if maxPostLen < s then toFile env { p with stream } s chLen
        else toMemory env { p with stream } s chLen

/-- What follows the chunks: the file is mapped to memory, the trailers are read, and a NUL is
stored behind the body.  The host of the request has been checked before. -/
def finish (env : PostEnv) (p : PostData) : PostOutcome :=
  let postLen := if env.contentLen p.stream = 0 then p.postLen else env.contentLen p.stream
  let postLen := min postLen p.s
  match if p.file.isSome then p.file else p.postData with
  | none => .outside
  | some block =>
      if postLen < block.length then .accepted (block.set postLen 0) postLen else .outside

/-! ## A round takes bytes from the connection -/

variable {env : PostEnv} {p q : PostData}

theorem sockreadline_eq_some {length : ℕ} {stream l rest : List UInt8}
    (h : sockreadline length stream = some (l, rest)) :
    ∃ line, stream = line ++ 10 :: rest ∧ 10 ∉ line ∧ l = storedLine length line := by
  rw [sockreadline] at h
  cases hdrop : stream.dropWhile (· ≠ 10) with
  | nil =>
      rw [hdrop] at h
      cases h
  | cons b tail =>
      simp only [hdrop, Option.some.injEq, Prod.mk.injEq] at h
      obtain ⟨rfl, rfl⟩ := h
      have hsplit := List.takeWhile_append_dropWhile (p := (· ≠ 10)) (l := stream)
      have hb : b = 10 := by
        have hnot := List.head?_dropWhile_not (fun c : UInt8 ↦ decide (c ≠ 10)) stream
        rw [hdrop] at hnot
        simpa using hnot
      refine ⟨stream.takeWhile (· ≠ 10), ?_, ?_, rfl⟩
      · rw [hdrop, hb] at hsplit
        exact hsplit.symm
      · intro hmem
        simpa using List.mem_takeWhile_imp hmem

theorem sockreadline_append (length : ℕ) {line : List UInt8} (hline : 10 ∉ line)
    (rest : List UInt8) :
    sockreadline length (line ++ 10 :: rest) = some (storedLine length line, rest) := by
  have hall : ∀ c ∈ line, decide (c ≠ 10) = true := by
    intro c hc
    exact decide_eq_true fun h ↦ hline (h ▸ hc)
  rw [sockreadline, List.dropWhile_append_of_pos hall, List.takeWhile_append_of_pos hall]
  simp

theorem skipTerminator_le (stream : List UInt8) :
    (skipTerminator stream).length ≤ stream.length := by
  rw [skipTerminator]
  cases h : sockreadline 11 stream with
  | none => simp
  | some r =>
      obtain ⟨l, rest⟩ := r
      obtain ⟨line, hstream, -, -⟩ := sockreadline_eq_some h
      rw [hstream]
      simp
      omega

theorem postToFile_eq (disk : ℕ) (stream file : List UInt8) (left : ℕ) :
    postToFile disk stream file left =
      if left ≤ stream.length ∧ (left = 0 ∨ file.length + left ≤ disk) then
        some (stream.drop left, file ++ stream.take left)
      else none := by
  induction left using Nat.strongRecOn generalizing stream file with
  | ind left ih =>
      rw [postToFile]
      by_cases hleft : left = 0
      · simp [hleft]
      · have hcount : 0 < min left (20 * 1024) ∧ min left (20 * 1024) ≤ left := by omega
        generalize min left (20 * 1024) = count at hcount
        rw [if_neg hleft]
        by_cases hfull : stream.length < count ∨ disk < file.length + count
        · rw [if_pos hfull, if_neg]
          omega
        · obtain ⟨hlen, hdisk⟩ := not_or.mp hfull
          have hlength : (file ++ stream.take count).length = file.length + count := by
            rw [List.length_append, List.length_take]
            omega
          have hiff : (left - count ≤ stream.length - count ∧
              (left - count = 0 ∨ file.length + count + (left - count) ≤ disk)) ↔
                left ≤ stream.length ∧ (left = 0 ∨ file.length + left ≤ disk) := by
            omega
          rw [if_neg hfull, ih (left - count) (by omega), List.length_drop, hlength]
          simp only [hiff]
          split
          · have hsum : count + (left - count) = left := by omega
            rw [List.drop_drop, List.append_assoc, ← List.take_add, hsum]
          · rfl

theorem toFile_lt {s chLen : ℕ} (h : toFile env p s chLen = .next q) :
    q.stream.length ≤ p.stream.length := by
  rw [toFile, postToFile_eq] at h
  split_ifs at h
  all_goals
    simp only [PostStep.next.injEq] at h
    subst h
    simp

theorem toMemory_lt {s chLen : ℕ} (h : toMemory env p s chLen = .next q) :
    q.stream.length ≤ p.stream.length := by
  rw [toMemory] at h
  dsimp only at h
  split_ifs at h
  simp only [PostStep.next.injEq] at h
  subst h
  exact (skipTerminator_le _).trans (by simp)

theorem readChunk_lt (h : p.readChunk env = .next q) : q.stream.length < p.stream.length := by
  rw [readChunk] at h
  cases hline : sockreadline 11 p.stream with
  | none => simp [hline] at h
  | some r =>
      obtain ⟨l, stream⟩ := r
      obtain ⟨line, hstream, -, -⟩ := sockreadline_eq_some hline
      have hlt : stream.length < p.stream.length := by
        rw [hstream]
        simp
        omega
      refine lt_of_le_of_lt ?_ hlt
      rw [hline] at h
      cases l with
      | nil => simp at h
      | cons c l =>
          dsimp only at h
          split_ifs at h
          · exact toFile_lt h
          · exact toMemory_lt h

/-- The loop over the chunks and what follows it. -/
def read (env : PostEnv) (p : PostData) : PostOutcome :=
  match h : p.readChunk env with
  | .refused closedTwice => .refused closedTwice
  | .outside => .outside
  | .last q => q.finish env
  | .next q =>
      have := readChunk_lt h
      read env q
termination_by p.stream.length

end PostData

/-- `read_post_data` for a chunked body, which starts without memory. -/
def readPostData (env : PostEnv) (stream : List UInt8) : PostOutcome :=
  PostData.read env { stream }

namespace PostData

variable {env : PostEnv} {p q : PostData}

theorem read_refused {b : Bool} (h : p.readChunk env = .refused b) : p.read env = .refused b := by
  rw [read]
  split <;> simp_all

theorem read_last (h : p.readChunk env = .last q) : p.read env = q.finish env := by
  rw [read]
  split <;> simp_all

theorem read_next (h : p.readChunk env = .next q) : p.read env = q.read env := by
  rw [read]
  split <;> simp_all

/-! ## The number in a length line -/

/-- The number of a length line, of which the first 11 characters are read. -/
def lineNumber (line : List UInt8) : ℤ := strtolHex (storedLine 11 line)

theorem hexDigitValue_lt {c : UInt8} (h : isxdigit c = true) : hexDigitValue c < 16 := by
  revert h
  exact Words.forall_uint8 (p := fun c ↦ isxdigit c = true → hexDigitValue c < 16)
    (by decide +kernel) c

theorem foldl_hexDigit (n : ℕ) (digits : Str) :
    digits.foldl (fun n c ↦ 16 * n + hexDigitValue c) n =
      n * 16 ^ digits.length + hexValue digits := by
  induction digits generalizing n with
  | nil => simp [hexValue]
  | cons c digits ih =>
      rw [hexValue, List.foldl_cons, List.foldl_cons, ih, ih (16 * 0 + hexDigitValue c),
        List.length_cons, Nat.pow_succ]
      ring

theorem hexValue_cons (c : UInt8) (digits : Str) :
    hexValue (c :: digits) = hexDigitValue c * 16 ^ digits.length + hexValue digits := by
  rw [hexValue, List.foldl_cons, foldl_hexDigit]
  simp

theorem hexValue_lt {digits : Str} (h : ∀ c ∈ digits, isxdigit c = true) :
    hexValue digits < 16 ^ digits.length := by
  induction digits with
  | nil => simp [hexValue]
  | cons c digits ih =>
      have hc := hexDigitValue_lt (h c List.mem_cons_self)
      have hrest := ih fun d hd ↦ h d (List.mem_cons_of_mem c hd)
      rw [hexValue_cons, List.length_cons, Nat.pow_succ]
      nlinarith

theorem length_skipHexMark_le (s : Str) : (skipHexMark s).length ≤ s.length := by
  unfold skipHexMark
  split
  · split <;> simp
  · exact Nat.le_refl _

/-- The digits of a short string are a small number. -/
theorem hexValue_digits_lt {s : Str} {k : ℕ} (h : s.length ≤ k) :
    hexValue ((skipHexMark s).takeWhile isxdigit) < 16 ^ k := by
  have hlen : ((skipHexMark s).takeWhile isxdigit).length ≤ k :=
    ((List.takeWhile_sublist _).length_le.trans (length_skipHexMark_le s)).trans h
  exact (hexValue_lt fun c hc ↦ List.mem_takeWhile_imp hc).trans_le
    (Nat.pow_le_pow_right (by omega) hlen)

theorem strtolHex_bound {s : Str} (h : s.length ≤ 11) :
    -16 ^ 11 < strtolHex s ∧ strtolHex s < 16 ^ 11 := by
  have hdrop : (s.dropWhile Smblib.isspace).length ≤ 11 :=
    (List.dropWhile_sublist _).length_le.trans h
  have hpos : ∀ t : Str, t.length ≤ 11 →
      (hexValue ((skipHexMark t).takeWhile isxdigit) : ℤ) < 16 ^ 11 := by
    intro t ht
    exact_mod_cast hexValue_digits_lt ht
  rw [strtolHex]
  split
  case h_1 rest heq =>
    have := hpos rest (by rw [heq, List.length_cons] at hdrop; omega)
    omega
  case h_2 rest heq =>
    have := hpos rest (by rw [heq, List.length_cons] at hdrop; omega)
    omega
  case h_3 =>
    have := hpos _ hdrop
    omega

theorem length_storedLine_le (length : ℕ) (line : List UInt8) :
    (storedLine length line).length ≤ length :=
  (List.rdropWhile_prefix _ _).length_le.trans (List.length_take_le _ _)

theorem lineNumber_bound (line : List UInt8) :
    -16 ^ 11 < lineNumber line ∧ lineNumber line < 16 ^ 11 :=
  strtolHex_bound (length_storedLine_le 11 line)

theorem isxdigit_ne {c : UInt8} (h : isxdigit c = true) :
    Smblib.isspace c = false ∧ c ≠ 45 ∧ c ≠ 43 ∧ c ≠ 120 ∧ c ≠ 88 ∧ c ≠ 13 ∧ c ≠ 10 := by
  revert h
  exact Words.forall_uint8 (p := fun c ↦ isxdigit c = true →
    Smblib.isspace c = false ∧ c ≠ 45 ∧ c ≠ 43 ∧ c ≠ 120 ∧ c ≠ 88 ∧ c ≠ 13 ∧ c ≠ 10)
    (by decide +kernel) c

/-- A line of at most 11 digits is read completely. -/
theorem storedLine_digits {line : Str} (h : line.length ≤ 11)
    (hdigits : ∀ c ∈ line, isxdigit c = true) : storedLine 11 (line ++ [13]) = line := by
  have hline : line.rdropWhile (· = 13) = line := by
    apply List.rdropWhile_eq_self_iff.mpr
    intro hne heq
    exact (isxdigit_ne (hdigits _ (List.getLast_mem hne))).2.2.2.2.2.1 (of_decide_eq_true heq)
  rw [storedLine]
  by_cases hlen : line.length = 11
  · rw [List.take_left' hlen, hline]
  · rw [List.take_of_length_le (by simp; omega), List.rdropWhile_concat_pos _ _ _ rfl, hline]

theorem skipHexMark_digits {line : Str} (hdigits : ∀ c ∈ line, isxdigit c = true) :
    skipHexMark line = line := by
  unfold skipHexMark
  split
  case h_1 x d rest =>
    have hx := isxdigit_ne (hdigits x (by simp))
    rw [if_neg fun h ↦ h.1.elim hx.2.2.2.1 hx.2.2.2.2.1]
  case h_2 => rfl

theorem strtolHex_digits {line : Str} (h : line.length ≤ 11)
    (hdigits : ∀ c ∈ line, isxdigit c = true) : strtolHex line = hexValue line := by
  have hdrop : line.dropWhile Smblib.isspace = line := by
    cases line with
    | nil => rfl
    | cons c line =>
        exact List.dropWhile_cons_of_neg (by simp [(isxdigit_ne (hdigits c (by simp))).1])
  have htake : line.takeWhile isxdigit = line := List.takeWhile_eq_self_iff.mpr hdigits
  have hlt : hexValue line < 16 ^ 11 :=
    (hexValue_lt hdigits).trans_le (Nat.pow_le_pow_right (by omega) h)
  rw [strtolHex, hdrop]
  split
  case h_1 rest => exact absurd rfl (isxdigit_ne (hdigits 45 (by simp))).2.1
  case h_2 rest => exact absurd rfl (isxdigit_ne (hdigits 43 (by simp))).2.2.1
  case h_3 =>
    rw [skipHexMark_digits hdigits, htake]
    omega

theorem lineNumber_digits {line : Str} (h : line.length ≤ 11)
    (hdigits : ∀ c ∈ line, isxdigit c = true) : lineNumber (line ++ [13]) = hexValue line := by
  rw [lineNumber, storedLine_digits h hdigits, strtolHex_digits h hdigits]

/-! ## One round -/

/-- All bytes of the body so far are in the file, or else in memory without room for more. -/
structure Sound (env : PostEnv) (p : PostData) : Prop where
  s : p.s = p.postLen
  lt : p.postLen ≤ max maxPostLen env.disk
  memory : p.file = none → (p.postData.getD []).length = p.postLen
  file : ∀ f ∈ p.file, f.length = p.postLen
  large : p.file.isSome → maxPostLen < p.postLen

theorem sound_start (env : PostEnv) (stream : List UInt8) : Sound env { stream } where
  s := rfl
  lt := Nat.zero_le _
  memory := fun _ ↦ rfl
  file := by simp
  large := by simp

/-- Whether a chunk is taken: in memory there must be room for it, in the file as well. -/
def Fits (env : PostEnv) (postLen chLen : ℕ) (stream : List UInt8) : Prop :=
  chLen ≤ stream.length ∧
    if maxPostLen < postLen + chLen then postLen + chLen ≤ env.disk
    else env.realloc (postLen + chLen) = true

/-- What is left of the connection behind a chunk. -/
def afterChunk (postLen chLen : ℕ) (stream : List UInt8) : List UInt8 :=
  if maxPostLen < postLen + chLen then stream.drop chLen else skipTerminator (stream.drop chLen)

/-- The state behind a chunk that is taken. -/
structure Took (env : PostEnv) (p q : PostData) (chLen : ℕ) : Prop where
  sound : Sound env q
  postLen : q.postLen = p.postLen + chLen
  stream : q.stream = afterChunk p.postLen chLen p.stream
  kept : p.file = none → p.postLen + chLen ≤ maxPostLen →
    q.file = none ∧ q.postData = some (p.postData.getD [] ++ p.stream.take chLen)

/-- A chunk is refused or taken as a whole. -/
def Round (env : PostEnv) (p : PostData) (chLen : ℕ) (r : PostStep) : Prop :=
  (∃ b, r = .refused b ∧ ¬ Fits env p.postLen chLen p.stream) ∨
    ∃ q, r = .next q ∧ Fits env p.postLen chLen p.stream ∧ Took env p q chLen

theorem toFile_round (hp : Sound env p) {chLen : ℕ} (hpos : 0 < chLen)
    (hmax : maxPostLen < p.postLen + chLen) :
    Round env p chLen (toFile env p (p.postLen + chLen) chLen) := by
  have hfile : (p.file.getD ((p.postData.getD []).take p.postLen)).length = p.postLen := by
    cases hf : p.file with
    | none => simp [hp.memory hf]
    | some f => exact hp.file f hf
  have hfits : Fits env p.postLen chLen p.stream ↔
      chLen ≤ p.stream.length ∧ p.postLen + chLen ≤ env.disk := by
    rw [Fits, if_pos hmax]
  rw [toFile, postToFile_eq]
  generalize p.file.getD ((p.postData.getD []).take p.postLen) = file at hfile
  by_cases hdisk : env.disk < file.length
  · rw [if_pos hdisk]
    refine .inl ⟨false, rfl, ?_⟩
    rw [hfits]
    omega
  · rw [if_neg hdisk]
    by_cases hroom : chLen ≤ p.stream.length ∧ (chLen = 0 ∨ file.length + chLen ≤ env.disk)
    · rw [if_pos hroom]
      have hlt := env.disk_lt
      have hmod : (p.postLen + chLen) % 2 ^ 64 = p.postLen + chLen := by
        apply Nat.mod_eq_of_lt
        omega
      have hlen : (file ++ p.stream.take chLen).length = p.postLen + chLen := by
        rw [List.length_append, List.length_take, hfile, min_eq_left hroom.1]
      refine .inr ⟨_, rfl, hfits.mpr (by omega), ?_⟩
      constructor
      case sound =>
        constructor
        case s => exact hmod.symm
        case lt =>
          dsimp only
          rw [hmod]
          omega
        case memory => exact fun h ↦ absurd h (Option.some_ne_none _)
        case file =>
          intro f hf
          obtain rfl := Option.some.inj hf
          exact hlen.trans hmod.symm
        case large =>
          intro _
          dsimp only
          rwa [hmod]
      case postLen => exact hmod
      case stream => rw [afterChunk, if_pos hmax]
      case kept => exact fun _ hle ↦ absurd hmax (by omega)
    · rw [if_neg hroom]
      refine .inl ⟨true, rfl, ?_⟩
      rw [hfits]
      omega

theorem toMemory_round (hp : Sound env p) {chLen : ℕ} (hpos : 0 < chLen)
    (hmax : p.postLen + chLen ≤ maxPostLen) :
    Round env p chLen (toMemory env p (p.postLen + chLen) chLen) := by
  have hfits : Fits env p.postLen chLen p.stream ↔
      chLen ≤ p.stream.length ∧ env.realloc (p.postLen + chLen) = true := by
    rw [Fits, if_neg (by omega)]
  rw [toMemory]
  by_cases hrealloc : env.realloc (p.postLen + chLen) = true
  · have hsmall : ¬ (chLen = 0 ∨ 2 ^ 63 ≤ chLen) := by
      rw [maxPostLen] at hmax
      omega
    have hinside : ¬ p.postLen + chLen < p.postLen + max 1 (p.stream.take chLen).length := by
      rw [List.length_take]
      omega
    rw [if_neg (by simp [hrealloc]; omega), if_neg hsmall]
    dsimp only
    rw [if_neg hinside, List.length_take]
    by_cases hlen : chLen ≤ p.stream.length
    · rw [if_neg (by omega)]
      refine .inr ⟨_, rfl, hfits.mpr ⟨hlen, hrealloc⟩, ?_⟩
      have hnone : p.file = none := by
        cases hf : p.file with
        | none => rfl
        | some f =>
            have hlarge := hp.large (by simp [hf])
            omega
      have hmemory := hp.memory hnone
      have hblock : (p.reallocated (p.postLen + chLen)).length = p.postLen + chLen := by
        rw [reallocated, List.length_append, List.length_take, List.length_replicate]
        omega
      have hfront : (p.reallocated (p.postLen + chLen)).take p.postLen = p.postData.getD [] := by
        rw [reallocated, List.take_of_length_le (by omega : (p.postData.getD []).length ≤ _)]
        exact List.take_left' hmemory
      have hkept : (p.reallocated (p.postLen + chLen)).take p.postLen ++ p.stream.take chLen ++
            (p.reallocated (p.postLen + chLen)).drop (p.postLen + chLen) =
          p.postData.getD [] ++ p.stream.take chLen := by
        rw [hfront, List.drop_of_length_le hblock.le, List.append_nil]
      constructor
      case sound =>
        constructor
        case s => rfl
        case lt => exact hmax.trans (le_max_left _ _)
        case memory =>
          intro _
          dsimp only
          rw [Option.getD_some, hkept, List.length_append, List.length_take, hmemory,
            min_eq_left hlen]
        case file => simp [hnone]
        case large => simp [hnone]
      case postLen => rfl
      case stream => rw [afterChunk, if_neg (by omega)]
      case kept => exact fun h _ ↦ ⟨h, congrArg some hkept⟩
    · rw [if_pos (by omega)]
      refine .inl ⟨false, rfl, ?_⟩
      rw [hfits]
      exact fun h ↦ hlen h.1
  · rw [if_pos (by simp [hrealloc])]
    refine .inl ⟨false, rfl, ?_⟩
    rw [hfits]
    exact fun h ↦ hrealloc h.2

theorem readChunk_none (h : sockreadline 11 p.stream = none) :
    p.readChunk env = .refused false := by
  rw [readChunk, h]

theorem readChunk_empty {line rest : List UInt8} (hstream : p.stream = line ++ 10 :: rest)
    (hline : 10 ∉ line) (hempty : storedLine 11 line = []) :
    p.readChunk env = .refused false := by
  rw [readChunk, hstream, sockreadline_append 11 hline, hempty]

theorem readChunk_line {line rest : List UInt8} (hstream : p.stream = line ++ 10 :: rest)
    (hline : 10 ∉ line) (hne : storedLine 11 line ≠ []) :
    p.readChunk env =
      if (lineNumber line % 2 ^ 64).toNat = 0 then .last { p with stream := rest }
      else if maxPostLen < (p.s + (lineNumber line % 2 ^ 64).toNat) % 2 ^ 64 then
        toFile env { p with stream := rest } ((p.s + (lineNumber line % 2 ^ 64).toNat) % 2 ^ 64)
          (lineNumber line % 2 ^ 64).toNat
      else
        toMemory env { p with stream := rest } ((p.s + (lineNumber line % 2 ^ 64).toNat) % 2 ^ 64)
          (lineNumber line % 2 ^ 64).toNat := by
  rw [readChunk, hstream, sockreadline_append 11 hline, lineNumber]
  cases hstored : storedLine 11 line with
  | nil => exact absurd hstored hne
  | cons c l => rfl

theorem readChunk_zero {line rest : List UInt8} (hstream : p.stream = line ++ 10 :: rest)
    (hline : 10 ∉ line) (hne : storedLine 11 line ≠ []) (hzero : lineNumber line = 0) :
    p.readChunk env = .last { p with stream := rest } := by
  rw [readChunk_line hstream hline hne, hzero]
  rfl

/-- A negative length is a huge one, which is never read. -/
theorem readChunk_neg {line rest : List UInt8}
    (hstream : p.stream = line ++ 10 :: rest) (hline : 10 ∉ line)
    (hne : storedLine 11 line ≠ []) (hneg : lineNumber line < 0) :
    ∃ b, p.readChunk env = .refused b := by
  obtain ⟨hlow, -⟩ := lineNumber_bound line
  obtain ⟨chLen, hlen, hlarge⟩ : ∃ chLen, (lineNumber line % 2 ^ 64).toNat = chLen ∧
      2 ^ 63 ≤ chLen ∧ chLen < 2 ^ 64 := by
    refine ⟨_, rfl, ?_, ?_⟩ <;> omega
  rw [readChunk_line hstream hline hne, hlen, if_neg (by omega)]
  have hlt := env.disk_lt
  split
  · rw [toFile, postToFile_eq]
    split
    · exact ⟨false, rfl⟩
    · rw [if_neg (by omega)]
      exact ⟨true, rfl⟩
  · rw [toMemory]
    split
    · exact ⟨false, rfl⟩
    · rw [if_pos (.inr hlarge.1)]
      exact ⟨false, rfl⟩

theorem readChunk_pos {line rest : List UInt8} {chLen : ℕ} (hp : Sound env p)
    (hstream : p.stream = line ++ 10 :: rest) (hline : 10 ∉ line)
    (hnumber : lineNumber line = chLen) (hpos : 0 < chLen) :
    Round env { p with stream := rest } chLen (p.readChunk env) := by
  have hne : storedLine 11 line ≠ [] := by
    intro h
    have hzero : lineNumber line = 0 := by
      rw [lineNumber, h]
      rfl
    omega
  obtain ⟨-, hhigh⟩ := lineNumber_bound line
  have hlt := env.disk_lt
  have hlen : (lineNumber line % 2 ^ 64).toNat = chLen := by omega
  have hs : (p.s + chLen) % 2 ^ 64 = p.postLen + chLen := by
    have hle := hp.lt
    rw [hp.s]
    apply Nat.mod_eq_of_lt
    rw [maxPostLen] at hle
    omega
  rw [readChunk_line hstream hline hne, hlen, if_neg hpos.ne', hs]
  have hp' : Sound env { p with stream := rest } := ⟨hp.s, hp.lt, hp.memory, hp.file, hp.large⟩
  split
  case isTrue hmax => exact toFile_round hp' hpos hmax
  case isFalse hmax => exact toMemory_round hp' hpos (by simpa using hmax)

/-! ## The bodies that are taken -/

/-- The bytes of a connection that the loop takes for a body: `n` bytes before them make it
`total` long, and `rest` comes behind it. -/
inductive Taken (env : PostEnv) : ℕ → List UInt8 → ℕ → List UInt8 → Prop
  | last {n : ℕ} {line rest : List UInt8} (hline : 10 ∉ line) (hne : storedLine 11 line ≠ [])
      (hzero : lineNumber line = 0) : Taken env n (line ++ 10 :: rest) n rest
  | memory {n total : ℕ} {line data term stream rest : List UInt8} (hline : 10 ∉ line)
      (hnumber : lineNumber line = data.length) (hdata : data ≠ [])
      (hmax : n + data.length ≤ maxPostLen) (hrealloc : env.realloc (n + data.length) = true)
      (hterm : 10 ∉ term) (h : Taken env (n + data.length) stream total rest) :
      Taken env n (line ++ 10 :: (data ++ (term ++ 10 :: stream))) total rest
  | file {n total : ℕ} {line data stream rest : List UInt8} (hline : 10 ∉ line)
      (hnumber : lineNumber line = data.length) (hdata : data ≠ [])
      (hmax : maxPostLen < n + data.length) (hdisk : n + data.length ≤ env.disk)
      (h : Taken env (n + data.length) stream total rest) :
      Taken env n (line ++ 10 :: (data ++ stream)) total rest

theorem Taken.ne_nil {n total : ℕ} {stream rest : List UInt8} (h : Taken env n stream total rest) :
    stream ≠ [] := by
  cases h <;> simp

theorem taken_of_fits {n chLen total : ℕ} {line stream rest : List UInt8} (hline : 10 ∉ line)
    (hnumber : lineNumber line = chLen) (hpos : 0 < chLen) (hfits : Fits env n chLen stream)
    (h : Taken env (n + chLen) (afterChunk n chLen stream) total rest) :
    Taken env n (line ++ 10 :: stream) total rest := by
  obtain ⟨hlen, hroom⟩ := hfits
  have htake : (stream.take chLen).length = chLen := by rw [List.length_take, min_eq_left hlen]
  have hne : stream.take chLen ≠ [] := by
    intro hnil
    rw [hnil] at htake
    exact hpos.ne htake
  rw [← List.take_append_drop chLen stream]
  rw [afterChunk] at h
  by_cases hmax : maxPostLen < n + chLen
  · rw [if_pos hmax] at h hroom
    exact .file hline (by rw [htake, hnumber]) hne (by rwa [htake]) (by rwa [htake])
      (by rwa [htake])
  · rw [if_neg hmax] at h hroom
    rw [skipTerminator] at h
    cases hread : sockreadline 11 (stream.drop chLen) with
    | none =>
        rw [hread] at h
        exact absurd rfl h.ne_nil
    | some r =>
        obtain ⟨l, left⟩ := r
        rw [hread] at h
        obtain ⟨term, hdrop, hterm, -⟩ := sockreadline_eq_some hread
        rw [hdrop]
        exact .memory hline (by rw [htake, hnumber]) hne (by rw [htake]; omega) (by rwa [htake])
          hterm (by rwa [htake])

/-- A body that is not refused is one that is taken. -/
theorem read_taken (hp : Sound env p) : (∃ b, p.read env = .refused b) ∨
    ∃ q, p.read env = q.finish env ∧ Sound env q ∧
      Taken env p.postLen p.stream q.postLen q.stream := by
  induction hlen : p.stream.length using Nat.strongRecOn generalizing p with
  | ind len ih =>
      cases hread : sockreadline 11 p.stream with
      | none => exact .inl ⟨false, read_refused (readChunk_none hread)⟩
      | some r =>
          obtain ⟨l, rest⟩ := r
          obtain ⟨line, hstream, hline, -⟩ := sockreadline_eq_some hread
          by_cases hne : storedLine 11 line = []
          · exact .inl ⟨false, read_refused (readChunk_empty hstream hline hne)⟩
          · obtain hneg | hzero | hpos := lt_trichotomy (lineNumber line) 0
            · obtain ⟨b, hb⟩ := readChunk_neg hstream hline hne hneg
              exact .inl ⟨b, read_refused hb⟩
            · refine .inr ⟨_, read_last (readChunk_zero hstream hline hne hzero),
                ⟨hp.s, hp.lt, hp.memory, hp.file, hp.large⟩, ?_⟩
              rw [hstream]
              exact .last hline hne hzero
            · obtain ⟨chLen, hchLen⟩ := Int.eq_ofNat_of_zero_le hpos.le
              have hround := readChunk_pos hp hstream hline hchLen (by omega)
              obtain ⟨b, hb, -⟩ | ⟨q, hq, hfits, htook⟩ := hround
              · exact .inl ⟨b, read_refused hb⟩
              · rw [read_next hq]
                have hlt := readChunk_lt hq
                obtain hrefused | ⟨q', hread', hsound, htaken⟩ :=
                  ih q.stream.length (hlen ▸ hlt) htook.sound rfl
                · exact .inl hrefused
                · rw [htook.postLen, htook.stream] at htaken
                  rw [hstream]
                  exact .inr ⟨q', hread', hsound,
                    taken_of_fits hline hchLen (by omega) hfits htaken⟩

/-- A body that is taken is read to its end. -/
theorem Taken.read {n total : ℕ} {stream rest : List UInt8} (h : Taken env n stream total rest)
    (hp : Sound env p) (hn : p.postLen = n) (hstream : p.stream = stream) :
    ∃ q, p.read env = q.finish env ∧ Sound env q ∧ q.postLen = total ∧ q.stream = rest := by
  induction h generalizing p with
  | last hline hne hzero =>
      exact ⟨_, read_last (readChunk_zero hstream hline hne hzero),
        ⟨hp.s, hp.lt, hp.memory, hp.file, hp.large⟩, hn, rfl⟩
  | @memory n total line data term stream rest hline hnumber hdata hmax hrealloc hterm _ ih =>
      have hpos : 0 < data.length := List.length_pos_of_ne_nil hdata
      have hfits : Fits env n data.length (data ++ (term ++ 10 :: stream)) := by
        refine ⟨by simp, ?_⟩
        rwa [if_neg (by omega)]
      obtain ⟨b, -, hno⟩ | ⟨q, hq, -, htook⟩ := readChunk_pos hp hstream hline hnumber hpos
      · exact absurd (hn ▸ hfits) hno
      · rw [read_next hq]
        apply ih htook.sound (by rw [htook.postLen, hn])
        rw [htook.stream, hn, afterChunk, if_neg (by omega), List.drop_left, skipTerminator,
          sockreadline_append 11 hterm]
        rfl
  | @file n total line data stream rest hline hnumber hdata hmax hdisk _ ih =>
      have hpos : 0 < data.length := List.length_pos_of_ne_nil hdata
      have hfits : Fits env n data.length (data ++ stream) := by
        refine ⟨by simp, ?_⟩
        rwa [if_pos hmax]
      obtain ⟨b, -, hno⟩ | ⟨q, hq, -, htook⟩ := readChunk_pos hp hstream hline hnumber hpos
      · exact absurd (hn ▸ hfits) hno
      · rw [read_next hq]
        apply ih htook.sound (by rw [htook.postLen, hn])
        rw [htook.stream, hn, afterChunk, if_pos hmax, List.drop_left]

/-- The NUL behind a body is in its memory if a `Content-Length` cuts the body short, and else
not. -/
theorem finish_eq (hp : Sound env p) :
    (0 < env.contentLen p.stream ∧ env.contentLen p.stream < p.postLen ∧
      ∃ block, p.finish env = .accepted block (env.contentLen p.stream)) ∨
    (¬ (0 < env.contentLen p.stream ∧ env.contentLen p.stream < p.postLen) ∧
      p.finish env = .outside) := by
  have hblock : ∀ block ∈ (if p.file.isSome then p.file else p.postData),
      block.length = p.postLen := by
    intro block hblock
    split at hblock
    case isTrue => exact hp.file block hblock
    case isFalse h =>
      have hmemory := hp.memory (by simpa using h)
      rwa [Option.mem_def.mp hblock] at hmemory
  have hnone : (if p.file.isSome then p.file else p.postData) = none → p.postLen = 0 := by
    intro h
    split at h
    case isTrue hfile => simp [h] at hfile
    case isFalse hfile =>
      have hmemory := hp.memory (by simpa using hfile)
      rw [h] at hmemory
      exact hmemory.symm
  rw [finish, hp.s]
  generalize (if p.file.isSome then p.file else p.postData) = memory at hblock hnone
  generalize env.contentLen p.stream = c
  cases memory with
  | none =>
      have hzero := hnone rfl
      exact .inr ⟨by omega, rfl⟩
  | some block =>
      have hlen := hblock block rfl
      dsimp only
      by_cases hc : 0 < c ∧ c < p.postLen
      · have hmin : min (if c = 0 then p.postLen else c) p.postLen = c := by
          rw [if_neg (by omega)]
          omega
        rw [hmin, if_pos (by omega)]
        exact .inl ⟨hc.1, hc.2, _, rfl⟩
      · have hmin : min (if c = 0 then p.postLen else c) p.postLen = p.postLen := by
          split <;> omega
        rw [hmin, if_neg (by omega)]
        exact .inr ⟨hc, rfl⟩

/-! ## Bodies as they are sent -/

/-- A chunk as it is sent, where the line has the number of bytes in hexadecimal. -/
structure Chunk where
  line : Str
  data : List UInt8
  digits : ∀ c ∈ line, isxdigit c = true
  value : hexValue line = data.length
  nonempty : data ≠ []

def Chunk.bytes (c : Chunk) : List UInt8 := c.line ++ [13, 10] ++ c.data ++ [13, 10]

/-- A chunked body with what follows it; the last chunk has some zeros as its length. -/
def bodyBytes (chunks : List Chunk) (zeros : ℕ) (trailers : List UInt8) : List UInt8 :=
  chunks.flatMap Chunk.bytes ++ (List.replicate (zeros + 1) 48 ++ [13, 10] ++ trailers)

/-- What the chunks are cut from. -/
def content (chunks : List Chunk) : List UInt8 := chunks.flatMap Chunk.data

/-- Whether the bytes are a chunked body. -/
def IsBody (stream : List UInt8) : Prop :=
  ∃ chunks zeros trailers, stream = bodyBytes chunks zeros trailers

/-- The reader keeps to its memory, and refuses the body or leaves just its content. -/
def Contract (env : PostEnv) (stream : List UInt8) : Prop :=
  readPostData env stream ≠ .outside ∧
    ∀ chunks zeros trailers, stream = bodyBytes chunks zeros trailers →
      (∃ closedTwice, readPostData env stream = .refused closedTwice) ∨
        ∃ block, readPostData env stream = .accepted block (content chunks).length ∧
          block.take (content chunks).length = content chunks

theorem hexValue_zeros (n : ℕ) : hexValue (List.replicate n 48) = 0 := by
  induction n with
  | zero => rfl
  | succ n ih =>
      rw [List.replicate_succ, hexValue_cons, ih]
      simp [hexDigitValue]

theorem zeros_digits (n : ℕ) : ∀ c ∈ List.replicate n (48 : UInt8), isxdigit c = true := by
  intro c hc
  rw [List.eq_of_mem_replicate hc]
  rfl

theorem storedLine_zeros (zeros : ℕ) :
    storedLine 11 (List.replicate (zeros + 1) 48 ++ [13]) =
      List.replicate (min (zeros + 1) 11) 48 := by
  by_cases hlen : zeros + 1 ≤ 11
  · rw [storedLine_digits (by simpa using hlen) (zeros_digits _), min_eq_left hlen]
  · have htake : (List.replicate (zeros + 1) (48 : UInt8) ++ [13]).take 11 =
        List.replicate 11 48 := by
      rw [List.take_append_of_le_length (by simp; omega), List.take_replicate]
      congr 1
      omega
    rw [storedLine, htake, min_eq_right (by omega)]
    rfl

theorem lineNumber_zeros (zeros : ℕ) :
    lineNumber (List.replicate (zeros + 1) 48 ++ [13]) = 0 := by
  rw [lineNumber, storedLine_zeros, strtolHex_digits (by simp) (zeros_digits _), hexValue_zeros]
  rfl

theorem not_mem_line {line : Str} (h : ∀ c ∈ line, isxdigit c = true) : 10 ∉ line ++ [13] := by
  intro hmem
  obtain hmem | hmem := List.mem_append.mp hmem
  · exact (isxdigit_ne (h 10 hmem)).2.2.2.2.2.2 rfl
  · simp at hmem

theorem bodyBytes_cons (c : Chunk) (chunks : List Chunk) (zeros : ℕ) (trailers : List UInt8) :
    bodyBytes (c :: chunks) zeros trailers =
      (c.line ++ [13]) ++ 10 :: (c.data ++ ([13] ++ 10 :: bodyBytes chunks zeros trailers)) := by
  simp [bodyBytes, Chunk.bytes]

theorem bodyBytes_nil (zeros : ℕ) (trailers : List UInt8) :
    bodyBytes [] zeros trailers = (List.replicate (zeros + 1) 48 ++ [13]) ++ 10 :: trailers := by
  simp [bodyBytes]

/-- A body whose length lines are not cut is refused or gathered in memory, which has no room
for more.  Behind a chunk in the file its line end is taken for an empty length line. -/
theorem read_body {chunks : List Chunk} {zeros : ℕ} {trailers : List UInt8} (hp : Sound env p)
    (hshort : ∀ c ∈ chunks, c.line.length ≤ 11) (hfile : p.file = none)
    (hstream : p.stream = bodyBytes chunks zeros trailers) :
    (∃ b, p.read env = .refused b) ∨ ∃ q, p.read env = q.finish env ∧ Sound env q ∧
      q.postLen = p.postLen + (content chunks).length ∧
      q.postData.getD [] = p.postData.getD [] ++ content chunks ∧ q.stream = trailers := by
  induction chunks generalizing p with
  | nil =>
      rw [bodyBytes_nil] at hstream
      have hne : storedLine 11 (List.replicate (zeros + 1) 48 ++ [13]) ≠ [] := by
        rw [storedLine_zeros]
        simp
      refine .inr ⟨_, read_last (readChunk_zero hstream (not_mem_line (zeros_digits _)) hne
        (lineNumber_zeros zeros)), ⟨hp.s, hp.lt, hp.memory, hp.file, hp.large⟩, rfl, ?_, rfl⟩
      exact (List.append_nil _).symm
  | cons c chunks ih =>
      rw [bodyBytes_cons] at hstream
      have hnumber : lineNumber (c.line ++ [13]) = c.data.length := by
        rw [lineNumber_digits (hshort c List.mem_cons_self) c.digits, c.value]
      have hpos : 0 < c.data.length := List.length_pos_of_ne_nil c.nonempty
      obtain ⟨b, hb, -⟩ | ⟨q, hq, -, htook⟩ :=
        readChunk_pos hp hstream (not_mem_line c.digits) hnumber hpos
      · exact .inl ⟨b, read_refused hb⟩
      · have hrest := htook.stream
        rw [afterChunk, List.drop_left] at hrest
        rw [read_next hq]
        by_cases hmax : maxPostLen < p.postLen + c.data.length
        · rw [if_pos hmax] at hrest
          exact .inl ⟨false, read_refused (readChunk_empty hrest (by simp) rfl)⟩
        · rw [if_neg hmax, skipTerminator, sockreadline_append 11 (by simp)] at hrest
          obtain ⟨hnone, hdata⟩ := htook.kept hfile (by simpa using hmax)
          dsimp only at hdata
          rw [List.take_left] at hdata
          obtain hrefused | ⟨q', hread, hsound, hlen, hcontent, htrailers⟩ :=
            ih htook.sound (fun d hd ↦ hshort d (List.mem_cons_of_mem c hd)) hnone hrest
          · exact .inl hrefused
          · refine .inr ⟨q', hread, hsound, ?_, ?_, htrailers⟩
            · rw [hlen, htook.postLen, content, content, List.flatMap_cons, List.length_append,
                Nat.add_assoc]
            · rw [hcontent, hdata, Option.getD_some, List.append_assoc]
              rfl

/-! ## When the contract holds -/

/-- The contract holds for a body that the loop does not take to its end, and for bytes that are
not a body and are cut short by a `Content-Length`; for no other one whose length lines have at
most 11 digits. -/
theorem readPostData_contract (env : PostEnv) (stream : List UInt8) :
    ((∀ total rest, Taken env 0 stream total rest → 0 < env.contentLen rest ∧
        env.contentLen rest < total ∧ ¬ IsBody stream) → Contract env stream) ∧
    ((∀ chunks zeros trailers, stream = bodyBytes chunks zeros trailers →
        ∀ c ∈ chunks, c.line.length ≤ 11) → Contract env stream →
      ∀ total rest, Taken env 0 stream total rest → 0 < env.contentLen rest ∧
        env.contentLen rest < total ∧ ¬ IsBody stream) := by
  constructor
  · intro hcondition
    obtain ⟨b, hb⟩ | ⟨q, hq, hsound, htaken⟩ := read_taken (sound_start env stream)
    · refine ⟨?_, fun _ _ _ _ ↦ .inl ⟨b, hb⟩⟩
      rw [readPostData, hb]
      exact PostOutcome.noConfusion
    · obtain ⟨hpos, hlt, hbody⟩ := hcondition _ _ htaken
      obtain ⟨-, -, block, hfinish⟩ | ⟨hno, -⟩ := finish_eq hsound
      · refine ⟨?_, fun chunks zeros trailers heq ↦ absurd ⟨chunks, zeros, trailers, heq⟩ hbody⟩
        rw [readPostData, hq, hfinish]
        exact PostOutcome.noConfusion
      · exact absurd ⟨hpos, hlt⟩ hno
  · rintro hshort ⟨hinside, hexact⟩ total rest htaken
    obtain ⟨q, hq, hsound, rfl, rfl⟩ := htaken.read (sound_start env stream) rfl rfl
    obtain ⟨hpos, hlt, block, hfinish⟩ | ⟨-, hfinish⟩ := finish_eq hsound
    · refine ⟨hpos, hlt, ?_⟩
      rintro ⟨chunks, zeros, trailers, heq⟩
      have haccepted : readPostData env stream = .accepted block (env.contentLen q.stream) :=
        hq.trans hfinish
      obtain ⟨b, hb⟩ | ⟨q', hq', hsound', hlen, -, -⟩ :=
        read_body (sound_start env stream) (hshort chunks zeros trailers heq) rfl heq
      · exact PostOutcome.noConfusion (haccepted.symm.trans hb)
      · -- The whole content has been read, but only a part of it is left.
        have hread : readPostData env stream = q'.finish env := hq'
        obtain ⟨b, hb⟩ | ⟨block', hblock', -⟩ := hexact chunks zeros trailers heq
        · exact PostOutcome.noConfusion (haccepted.symm.trans hb)
        · obtain ⟨-, hlt', block'', hfinish'⟩ | ⟨-, houtside⟩ := finish_eq hsound'
          · have hsame := hblock'.symm.trans (hread.trans hfinish')
            simp only [PostOutcome.accepted.injEq] at hsame
            rw [hlen, ← hsame.2] at hlt'
            simp at hlt'
          · exact hinside (hread.trans houtside)
    · exact absurd (hq.trans hfinish) hinside

/-- Three bytes in one chunk: there is no room for the NUL. -/
theorem readPostData_three : ∃ (env : PostEnv) (stream : List UInt8),
    IsBody stream ∧ ¬ Contract env stream := by
  let env : PostEnv := ⟨fun _ ↦ true, 0, by decide, fun _ ↦ 0⟩
  let chunk : Chunk := ⟨[51], [97, 98, 99], by simp [isxdigit, Xpdev.isdigit], rfl, by simp⟩
  have hlast : Taken env 3 ([48, 13] ++ 10 :: []) 3 [] :=
    .last (by decide) (by decide) (by decide +kernel)
  have htaken : Taken env 0
      ([51, 13] ++ 10 :: ([97, 98, 99] ++ ([13] ++ 10 :: ([48, 13] ++ 10 :: [])))) 3 [] :=
    .memory (by decide) (by decide +kernel) (by simp) (by simp [maxPostLen]) rfl (by decide) hlast
  refine ⟨env, bodyBytes [chunk] 0 [], ⟨_, _, _, rfl⟩, fun hcontract ↦ ?_⟩
  obtain ⟨q, hq, hsound, -, -⟩ := htaken.read (sound_start env (bodyBytes [chunk] 0 [])) rfl rfl
  obtain ⟨hpos, -⟩ | ⟨-, houtside⟩ := finish_eq hsound
  · exact absurd hpos (Nat.lt_irrefl 0)
  · exact hcontract.1 (hq.trans houtside)

end PostData

end Synchronet.Sbbs3
