import Synchronet.Lib.InPlace
import Synchronet.Lib.Words
import Synchronet.Sbbs3.PostData

/-!
# Digest credentials (websrvr.c)

The parameters of an `Authorization: Digest` header are taken from it one after the other.
`get_token_value` decodes a value in place: it writes what it has decoded over the text that it
has read, ends it with a NUL and leaves the cursor behind the commas and blanks that follow.
-/

namespace Synchronet.Sbbs3.WebSrvr

open Smblib (strlwr cstr cstr_append_zero)
open Xpdev (Str stricmp strnicmp safecopy isxdigit)

/-! ## Taking a value -/

/-- `iscntrl` in the C locale. -/
def iscntrl (c : UInt8) : Bool := c < 32 || c = 127

/-- The characters `( ) < > @ , ; : \ " / [ ] ? = { }`, a blank and a tab. -/
def specials : List UInt8 :=
  [40, 41, 60, 62, 64, 44, 59, 58, 92, 34, 47, 91, 93, 63, 61, 123, 125, 32, 9]

/-- The loop of `get_token_value` for a string in quotes: the buffer, `pos` and `out`. -/
def quotedLoop (buf : List UInt8) (pos out : ℕ) (escaped : Bool) : List UInt8 × ℕ × ℕ :=
  match h : buf[pos]? with
  | none => (buf, pos, out)
  | some c =>
      if c = 0 then (buf, pos, out)
      else if escaped then quotedLoop (buf.set out c) (pos + 1) (out + 1) escaped
      else if c = 34 then (buf, pos + 1, out)
      else if c = 92 then quotedLoop buf (pos + 1) out true
      else quotedLoop (buf.set out c) (pos + 1) (out + 1) escaped
termination_by buf.length - pos
decreasing_by
  all_goals
    have hlt := (List.getElem?_eq_some_iff.mp h).1
    have hset : (buf.set out c).length = buf.length := List.length_set
    omega

/-- The loop of `get_token_value` for a token. -/
def tokenLoop (buf : List UInt8) (pos out : ℕ) : List UInt8 × ℕ × ℕ :=
  match h : buf[pos]? with
  | none => (buf, pos, out)
  | some c =>
      if c = 0 ∨ iscntrl c ∨ c ∈ specials then (buf, pos, out)
      else tokenLoop (buf.set out c) (pos + 1) (out + 1)
termination_by buf.length - pos
decreasing_by
  have hlt := (List.getElem?_eq_some_iff.mp h).1
  simp only [List.length_set]
  omega

/-- A comma or a blank. -/
def isSeparator (c : UInt8) : Bool := c = 44 || Smblib.isspace c

/-- `get_token_value` for the cursor `p`: the buffer and the new cursor.  The value is the string
at `p`. -/
def getTokenValue (buf : List UInt8) (p : ℕ) : List UInt8 × ℕ :=
  let (buf, pos, out) :=
    if buf[p]? = some 34 then quotedLoop buf (p + 1) p false else tokenLoop buf p p
  (buf.set out 0, pos + ((buf.drop pos).takeWhile isSeparator).length)

/-- `hexval`. -/
def hexval (ch : UInt8) : UInt8 :=
  let ch := ch - 48
  if ch < 10 then ch
  else
    let ch := ch - 7
    if ch < 16 ∧ 9 < ch then ch
    else if 41 < ch then
      let ch := ch - 32
      if ch < 16 ∧ 9 < ch then ch else 0
    else 0

/-! ## The parameters -/

/-- The parameters that the server knows. -/
inductive Known
  | username
  | realm
  | nonce
  | uri
  | response
  | algorithm
  | cnonce
  | qop
  | nc
  deriving DecidableEq

def Known.name : Known → Str
  | .username => [117, 115, 101, 114, 110, 97, 109, 101]
  | .realm => [114, 101, 97, 108, 109]
  | .nonce => [110, 111, 110, 99, 101]
  | .uri => [117, 114, 105]
  | .response => [114, 101, 115, 112, 111, 110, 115, 101]
  | .algorithm => [97, 108, 103, 111, 114, 105, 116, 104, 109]
  | .cnonce => [99, 110, 111, 110, 99, 101]
  | .qop => [113, 111, 112]
  | .nc => [110, 99]

/-- In the order in which the header is compared with them. -/
def knownParams : List Known :=
  [.username, .realm, .nonce, .uri, .response, .algorithm, .cnonce, .qop, .nc]

inductive Algorithm
  | unknown
  | md5
  deriving DecidableEq

inductive QopOption
  | none
  | auth
  | authInt
  | unknown
  deriving DecidableEq

/-- The fields of `auth_request` that the parameters go to. -/
@[ext] structure AuthRequest where
  username : Str
  realm : Option Str
  nonce : Option Str
  digestUri : Option Str
  digest : List UInt8
  algorithm : Algorithm
  cnonce : Option Str
  qopValue : QopOption
  nonceCount : Option Str
  deriving DecidableEq

/-- The size of `username`. -/
def sizeofUsername : ℕ := 26

/-- The bytes of hexadecimal digits. -/
def digestBytes : Str → List UInt8
  | a :: b :: rest => (hexval a <<< 4 ||| hexval b) :: digestBytes rest
  | _ => []

/-- What is done with the value of a parameter. -/
def AuthRequest.store (auth : AuthRequest) (k : Known) (tvalue : Str) : AuthRequest :=
  match k with
  | .username => { auth with username := safecopy sizeofUsername tvalue }
  | .realm => { auth with realm := some tvalue }
  | .nonce => { auth with nonce := some tvalue }
  | .uri => { auth with digestUri := some tvalue }
  | .response =>
      if tvalue.length = 32 then { auth with digest := digestBytes tvalue } else auth
  | .algorithm =>
      { auth with algorithm := if stricmp tvalue [77, 68, 53] then .md5 else .unknown }
  | .cnonce => { auth with cnonce := some tvalue }
  | .qop =>
      { auth with
        qopValue :=
          if stricmp tvalue [97, 117, 116, 104] then .auth
          else if stricmp tvalue [97, 117, 116, 104, 45, 105, 110, 116] then .authInt
          else .unknown }
  | .nc => { auth with nonceCount := some tvalue }

/-- The loop over the parameters: the values that are stored, in their order.  A turn without
`fuel` is not made. -/
def storesFrom : ℕ → List UInt8 → ℕ → Option (List (Known × Str))
  | 0, _, _ => none
  | fuel + 1, buf, p =>
      if (buf[p]?.getD 0) = 0 then some []
      else
        let p := p + ((buf.drop p).takeWhile Smblib.isspace).length
        let text := cstr (buf.drop p)
        match knownParams.find? fun k ↦ strnicmp text (k.name ++ [61]) with
        | some k =>
            let p := p + k.name.length + 1
            let (buf, next) := getTokenValue buf p
            let tvalue := cstr (buf.drop p)
            -- a name that does not fit ends the loop
            if k = .username ∧ sizeofUsername ≤ tvalue.length then some []
            else (storesFrom fuel buf next).map ((k, tvalue) :: ·)
        | none =>
            let p := p + (text.takeWhile (· ≠ 61)).length
            if buf[p]? = some 61 then
              let (buf, next) := getTokenValue buf p
              storesFrom fuel buf next
            else storesFrom fuel buf p

/-- The stores for what follows the scheme, which is not empty. -/
def digestStores (credentials : Str) : Option (List (Known × Str)) :=
  storesFrom (credentials.length + 1) (credentials ++ [0]) 0

/-- `parse_headers` for digest credentials, up to the checks of the fields. -/
def parseDigest (auth : AuthRequest) (credentials : Str) : Option AuthRequest :=
  (digestStores credentials).map fun stores ↦
    stores.foldl (fun auth s ↦ auth.store s.1 s.2) { auth with algorithm := .md5 }

/-! ## Headers -/

/-- A character of a quoted string, as itself or behind a backslash. -/
inductive QuotedItem
  | plain (c : UInt8)
  | escaped (c : UInt8)

namespace QuotedItem

def raw : QuotedItem → Str
  | plain c => [c]
  | escaped c => [92, c]

def char : QuotedItem → UInt8
  | plain c => c
  | escaped c => c

def WellFormed : QuotedItem → Prop
  | plain c => c ≠ 0 ∧ c ≠ 34 ∧ c ≠ 92
  | escaped c => c ≠ 0

def isEscape : QuotedItem → Bool
  | plain _ => false
  | escaped _ => true

end QuotedItem

/-- A value: a token or a string in quotes. -/
inductive TokenValue
  | token (s : Str)
  | quoted (items : List QuotedItem)

/-- A character of a token. -/
def tokenChar (c : UInt8) : Bool := c ≠ 0 && !iscntrl c && !(c ∈ specials)

namespace TokenValue

def text : TokenValue → Str
  | token s => s
  | quoted items => 34 :: (items.flatMap QuotedItem.raw ++ [34])

def decoded : TokenValue → Str
  | token s => s
  | quoted items => items.map QuotedItem.char

def WellFormed : TokenValue → Prop
  | token s => s ≠ [] ∧ ∀ c ∈ s, tokenChar c
  | quoted items => ∀ i ∈ items, i.WellFormed

/-- The value has a character behind a backslash. -/
def escapes : TokenValue → Bool
  | token _ => false
  | quoted items => items.any QuotedItem.isEscape

end TokenValue

/-- A parameter, with what separates it from the next one. -/
structure DigestParam where
  name : Str
  value : TokenValue
  sep : Str

namespace DigestParam

def text (p : DigestParam) : Str := p.name ++ 61 :: (p.value.text ++ p.sep)

/-- The parameter that the server knows by this name. -/
def known (p : DigestParam) : Option Known := knownParams.find? fun k ↦ stricmp p.name k.name

structure WellFormed (p : DigestParam) : Prop where
  name_ne_nil : p.name ≠ []
  name : ∀ c ∈ p.name, tokenChar c
  value : p.value.WellFormed
  sep : ∀ c ∈ p.sep, isSeparator c

end DigestParam

/-- The text of the parameters. -/
def paramsText (params : List DigestParam) : Str := params.flatMap DigestParam.text

/-- There is a comma behind every parameter but the last. -/
def Separated : List DigestParam → Prop
  | [] => True
  | [_] => True
  | p :: q :: params => 44 ∈ p.sep ∧ Separated (q :: params)

/-- The known parameters with their values. -/
def expected (params : List DigestParam) : List (Known × Str) :=
  params.filterMap fun p ↦ p.known.map fun k ↦ (k, p.value.decoded)

/-- The parameters that come through: the known ones are before the others, none of them has a
backslash in its value, and the name of the user fits. -/
structure Plain (params : List DigestParam) : Prop where
  known_first : params.Pairwise fun p q ↦ p.known = none → q.known = none
  not_escapes : ∀ p ∈ params, p.known ≠ none → p.value.escapes = false
  username_lt : ∀ p ∈ params, p.known = some .username →
    p.value.decoded.length < sizeofUsername

/-! ## Decoding in place -/

section

variable {A G : List UInt8}

/-- A character is written over the first of those that have been read and not been written. -/
theorem set_out (A : List UInt8) (g : UInt8) (G : List UInt8) (c : UInt8) (R : List UInt8) :
    (A ++ (g :: G) ++ c :: R).set A.length c = (A ++ [c]) ++ (G ++ [c]) ++ R := by
  rw [InPlace.set_stale, InPlace.read_one]

theorem quotedLoop_eq {buf : List UInt8} {pos out : ℕ} {escaped : Bool} {c : UInt8}
    (h : buf[pos]? = some c) :
    quotedLoop buf pos out escaped =
      if c = 0 then (buf, pos, out)
      else if escaped then quotedLoop (buf.set out c) (pos + 1) (out + 1) escaped
      else if c = 34 then (buf, pos + 1, out)
      else if c = 92 then quotedLoop buf (pos + 1) out true
      else quotedLoop (buf.set out c) (pos + 1) (out + 1) escaped := by
  rw [quotedLoop]
  split
  case h_1 h' => exact nomatch h.symm.trans h'
  case h_2 c' h' => rw [Option.some.inj (h.symm.trans h')]

/-- Behind a backslash the rest of the buffer is the value. -/
theorem quotedLoop_escaped {R : Str} (hR : 0 ∉ R) (A : List UInt8) (hG : G ≠ []) {pos out : ℕ}
    (hpos : pos = A.length + G.length) (hout : out = A.length) :
    ∃ G', G'.length = G.length ∧
      quotedLoop (A ++ G ++ (R ++ [0])) pos out true =
        (A ++ R ++ G' ++ [0], (A ++ R ++ G').length, (A ++ R).length) := by
  induction R generalizing A G pos out with
  | nil =>
      refine ⟨G, rfl, ?_⟩
      rw [List.nil_append, hpos, quotedLoop_eq (InPlace.getElem?_unread A G 0 []), if_pos rfl, hout,
        List.append_nil, List.length_append]
  | cons c R ih =>
      obtain ⟨g, G, rfl⟩ := List.exists_cons_of_ne_nil hG
      rw [List.mem_cons, not_or] at hR
      obtain ⟨G', hlen, hloop⟩ := ih hR.2 (A ++ [c]) (List.concat_ne_nil c G)
        (by rw [hpos]; simp; omega : pos + 1 = _) (by rw [hout]; simp : out + 1 = _)
      refine ⟨G', hlen.trans (by simp), ?_⟩
      rw [List.cons_append, quotedLoop_eq (hpos ▸ InPlace.getElem?_unread A (g :: G) c (R ++ [0])),
        if_neg (Ne.symm hR.1), if_pos rfl, hout, set_out, ← hout, hloop]
      simp

/-- What a string in quotes is read as: with a backslash in it, all the rest of the header. -/
def readItems : List QuotedItem → Str → Str
  | [], _ => []
  | .plain c :: items, rest => c :: readItems items rest
  | .escaped c :: items, rest => c :: (items.flatMap QuotedItem.raw ++ 34 :: rest)

/-- What is left of the header behind a string in quotes. -/
def leftOf (items : List QuotedItem) (rest : Str) : Str :=
  if items.any QuotedItem.isEscape then [] else rest

theorem zero_notMem_raw {items : List QuotedItem} (h : ∀ i ∈ items, i.WellFormed) :
    0 ∉ items.flatMap QuotedItem.raw := by
  rw [List.mem_flatMap]
  rintro ⟨i, hi, hmem⟩
  cases i with
  | plain c => exact (h _ hi).1 (List.mem_singleton.mp hmem).symm
  | escaped c =>
      rcases List.mem_cons.mp hmem with hc | hc
      · exact absurd hc (by decide)
      · exact h _ hi (List.mem_singleton.mp hc).symm

theorem quotedLoop_items {items : List QuotedItem} (h : ∀ i ∈ items, i.WellFormed) {rest : Str}
    (hrest : 0 ∉ rest) (A : List UInt8) (hG : G ≠ []) {pos out : ℕ}
    (hpos : pos = A.length + G.length) (hout : out = A.length) :
    ∃ G', G' ≠ [] ∧
      quotedLoop (A ++ G ++ (items.flatMap QuotedItem.raw ++ 34 :: (rest ++ [0]))) pos out false =
        (A ++ readItems items rest ++ G' ++ (leftOf items rest ++ [0]),
          (A ++ readItems items rest ++ G').length, (A ++ readItems items rest).length) := by
  induction items generalizing A G pos out with
  | nil =>
      refine ⟨G ++ [34], List.concat_ne_nil _ _, ?_⟩
      rw [List.flatMap_nil, List.nil_append, hpos,
        quotedLoop_eq (InPlace.getElem?_unread A G 34 (rest ++ [0])), if_neg (by decide),
        if_neg (by decide), if_pos rfl, hout]
      simp [readItems, leftOf]
      omega
  | cons i items ih =>
      obtain ⟨g, G, rfl⟩ := List.exists_cons_of_ne_nil hG
      have hitems : ∀ i ∈ items, i.WellFormed := fun j hj ↦ h j (List.mem_cons_of_mem _ hj)
      cases i with
      | plain c =>
          obtain ⟨hzero, hquote, hback⟩ : c ≠ 0 ∧ c ≠ 34 ∧ c ≠ 92 := h _ List.mem_cons_self
          obtain ⟨G', hne, hloop⟩ := ih hitems (A ++ [c]) (List.concat_ne_nil c G)
            (by rw [hpos]; simp; omega : pos + 1 = _) (by rw [hout]; simp : out + 1 = _)
          refine ⟨G', hne, ?_⟩
          rw [List.flatMap_cons, QuotedItem.raw, List.singleton_append, List.cons_append,
            quotedLoop_eq (hpos ▸ InPlace.getElem?_unread A (g :: G) c _), if_neg hzero,
            if_neg (by decide), if_neg hquote, if_neg hback, hout, set_out, ← hout, hloop]
          simp [readItems, leftOf, QuotedItem.isEscape]
      | escaped c =>
          have hc : c ≠ 0 := h _ List.mem_cons_self
          have hR : 0 ∉ c :: (items.flatMap QuotedItem.raw ++ 34 :: rest) := by
            simp [hrest, zero_notMem_raw hitems, hc.symm]
          obtain ⟨G', hlen, hloop⟩ := quotedLoop_escaped hR A
            (List.concat_ne_nil (92 : UInt8) (g :: G)) (by rw [hpos]; simp; omega : pos + 1 = _)
            hout
          refine ⟨G', List.length_pos_iff.mp (by rw [hlen]; simp), ?_⟩
          have hbuf : A ++ (g :: G) ++ ((QuotedItem.escaped c :: items).flatMap QuotedItem.raw ++
              34 :: (rest ++ [0])) = A ++ (g :: G) ++ 92 :: (c ::
                (items.flatMap QuotedItem.raw ++ 34 :: rest) ++ [0]) := by
            simp [QuotedItem.raw]
          rw [hbuf, quotedLoop_eq (hpos ▸ InPlace.getElem?_unread A (g :: G) 92 _),
            if_neg (by decide), if_neg (by decide), if_neg (by decide), if_pos rfl]
          rw [show A ++ (g :: G) ++ 92 :: (c :: (items.flatMap QuotedItem.raw ++ 34 :: rest) ++ [0])
            = A ++ ((g :: G) ++ [92]) ++ (c :: (items.flatMap QuotedItem.raw ++ 34 :: rest) ++ [0])
            by simp, hloop]
          simp [readItems, leftOf, QuotedItem.isEscape]

end

section

variable {A : List UInt8}

theorem tokenLoop_eq {buf : List UInt8} {pos out : ℕ} {c : UInt8} (h : buf[pos]? = some c) :
    tokenLoop buf pos out =
      if c = 0 ∨ iscntrl c ∨ c ∈ specials then (buf, pos, out)
      else tokenLoop (buf.set out c) (pos + 1) (out + 1) := by
  rw [tokenLoop]
  split
  case h_1 h' => exact nomatch h.symm.trans h'
  case h_2 c' h' => rw [Option.some.inj (h.symm.trans h')]

/-- A token is written over itself. -/
theorem tokenLoop_token {s : Str} (hs : ∀ c ∈ s, tokenChar c) {stop : UInt8}
    (hstop : stop = 0 ∨ iscntrl stop ∨ stop ∈ specials) (R : List UInt8) (A : List UInt8) :
    tokenLoop (A ++ (s ++ stop :: R)) A.length A.length =
      (A ++ (s ++ stop :: R), (A ++ s).length, (A ++ s).length) := by
  induction s generalizing A with
  | nil =>
      have hget : (A ++ stop :: R)[A.length]? = some stop := by simp
      rw [List.nil_append, tokenLoop_eq hget, if_pos hstop, List.append_nil]
  | cons c s ih =>
      have hget : (A ++ (c :: s ++ stop :: R))[A.length]? = some c := by simp
      have hchar := hs c List.mem_cons_self
      have hnot : ¬(c = 0 ∨ iscntrl c = true ∨ c ∈ specials) := by
        simpa [tokenChar, and_assoc] using hchar
      have hset : (A ++ (c :: s ++ stop :: R)).set A.length c = (A ++ [c]) ++ (s ++ stop :: R) := by
        simp
      have hloop := ih (fun c' hc' ↦ hs c' (List.mem_cons_of_mem _ hc')) (A ++ [c])
      rw [List.length_append, List.length_singleton] at hloop
      rw [tokenLoop_eq hget, if_neg hnot, hset, hloop]
      simp

/-- What a value is read as. -/
def TokenValue.read : TokenValue → Str → Str
  | .token s, _ => s
  | .quoted items, rest => readItems items rest

/-- What `get_token_value` leaves of the text behind the separators. -/
def TokenValue.left (v : TokenValue) (rest : Str) : Str := if v.escapes then [] else rest

/-- What the tests of characters say of each other. -/
theorem char_tests (c : UInt8) :
    (isSeparator c → c = 0 ∨ iscntrl c ∨ c ∈ specials) ∧
      (tokenChar c → c ≠ 0 ∧ c ≠ 34 ∧ c ≠ 61 ∧ isSeparator c = false ∧ Smblib.isspace c = false) ∧
      ((if 65 ≤ c ∧ c ≤ 90 then c + 32 else c) = 61 ↔ c = 61) :=
  Words.forall_uint8 (p := fun c ↦ (isSeparator c → c = 0 ∨ iscntrl c ∨ c ∈ specials) ∧
    (tokenChar c → c ≠ 0 ∧ c ≠ 34 ∧ c ≠ 61 ∧ isSeparator c = false ∧ Smblib.isspace c = false) ∧
    ((if 65 ≤ c ∧ c ≤ 90 then c + 32 else c) = 61 ↔ c = 61)) (by decide +kernel) c

theorem separator_stops {c : UInt8} (h : isSeparator c) : c = 0 ∨ iscntrl c ∨ c ∈ specials :=
  (char_tests c).1 h

theorem takeWhile_separators {sep rest : Str} (hsep : ∀ c ∈ sep, isSeparator c)
    (hrest : ∀ c ∈ rest.head?, isSeparator c = false) :
    (sep ++ (rest ++ [0])).takeWhile isSeparator = sep := by
  rw [List.takeWhile_append_of_pos hsep]
  have hnil : (rest ++ [0]).takeWhile isSeparator = [] := by
    cases rest with
    | nil => rfl
    | cons c rest =>
        rw [List.cons_append, List.takeWhile_cons_of_neg (by simp [hrest c rfl])]
  rw [hnil, List.append_nil]

theorem tokenChar_ne {c : UInt8} (h : tokenChar c) :
    c ≠ 0 ∧ c ≠ 34 ∧ c ≠ 61 ∧ isSeparator c = false ∧ Smblib.isspace c = false :=
  (char_tests c).2.1 h

theorem zero_notMem_readItems {items : List QuotedItem} (h : ∀ i ∈ items, i.WellFormed)
    {rest : Str} (hrest : 0 ∉ rest) : 0 ∉ readItems items rest := by
  induction items with
  | nil => simp [readItems]
  | cons i items ih =>
      have hitems : ∀ i ∈ items, i.WellFormed := fun j hj ↦ h j (List.mem_cons_of_mem _ hj)
      cases i with
      | plain c =>
          have hc : c ≠ 0 := (h _ List.mem_cons_self).1
          simp [readItems, hc.symm, ih hitems]
      | escaped c =>
          have hc : c ≠ 0 := h _ List.mem_cons_self
          simp [readItems, hc.symm, zero_notMem_raw hitems, hrest]

/-- A value is decoded, and the cursor is behind its separators. -/
theorem getTokenValue_value {v : TokenValue} (hv : v.WellFormed) {sep rest : Str}
    (hsep : ∀ c ∈ sep, isSeparator c) (hzero : 0 ∉ rest)
    (hrest : ∀ c ∈ rest.head?, isSeparator c = false) (hlast : sep = [] → rest = [])
    (A : List UInt8) :
    ∃ buf next, getTokenValue (A ++ (v.text ++ (sep ++ (rest ++ [0])))) A.length = (buf, next) ∧
      cstr (buf.drop A.length) = v.read (sep ++ rest) ∧
      buf.drop next = v.left rest ++ [0] := by
  have hskip := takeWhile_separators hsep hrest
  cases v with
  | token s =>
      obtain ⟨c, s', hs⟩ := List.exists_cons_of_ne_nil hv.1
      have hchar := hv.2 c (by simp [hs])
      have hget : (A ++ ((TokenValue.token s).text ++ (sep ++ (rest ++ [0]))))[A.length]? ≠
          some 34 := by
        simpa [TokenValue.text, hs] using (tokenChar_ne hchar).2.1
      obtain ⟨stop, R, hR, hstop⟩ : ∃ stop R, sep ++ (rest ++ [0]) = stop :: R ∧
          (stop = 0 ∨ iscntrl stop ∨ stop ∈ specials) := by
        cases sep with
        | nil =>
            rw [hlast rfl]
            exact ⟨0, [], rfl, Or.inl rfl⟩
        | cons c sep => exact ⟨c, _, rfl, separator_stops (hsep c List.mem_cons_self)⟩
      have hloop := tokenLoop_token hv.2 hstop R A
      rw [← hR] at hloop
      have hdrop : (A ++ (s ++ (sep ++ (rest ++ [0])))).drop (A ++ s).length =
          sep ++ (rest ++ [0]) := by
        rw [← List.append_assoc, List.drop_left]
      refine ⟨(A ++ (s ++ stop :: R)).set (A ++ s).length 0, (A ++ s).length + sep.length, ?_, ?_,
        ?_⟩
      · rw [getTokenValue, if_neg hget]
        simp only [TokenValue.text, hloop, hdrop, hskip]
        rw [hR]
      · have hset : (A ++ (s ++ stop :: R)).set (A ++ s).length 0 = A ++ (s ++ 0 :: R) := by
          rw [← List.append_assoc, List.set_append_right _ _ le_rfl, Nat.sub_self,
            List.set_cons_zero, List.append_assoc]
        have hs0 : 0 ∉ s := fun h0 ↦ (tokenChar_ne (hv.2 0 h0)).1 rfl
        rw [hset, List.drop_left, cstr_append_zero hs0, TokenValue.read]
      · have hset : (A ++ (s ++ stop :: R)).set (A ++ s).length 0 = A ++ s ++ 0 :: R := by
          rw [← List.append_assoc, List.set_append_right _ _ le_rfl, Nat.sub_self,
            List.set_cons_zero]
        rw [hset, ← List.drop_drop, List.drop_left]
        cases sep with
        | nil =>
            rw [hlast rfl] at hR ⊢
            obtain ⟨-, rfl⟩ := List.cons.inj hR
            rfl
        | cons c sep =>
            obtain ⟨-, rfl⟩ := List.cons.inj hR
            rw [List.length_cons, List.drop_succ_cons]
            exact List.drop_left
  | quoted items =>
      have hzero' : 0 ∉ sep ++ rest := by
        have hsep0 : 0 ∉ sep := fun h0 ↦ absurd (hsep 0 h0) (by decide)
        simp [hsep0, hzero]
      obtain ⟨G, hne, hloop⟩ := quotedLoop_items hv hzero' A (List.cons_ne_nil (34 : UInt8) [])
        (rfl : A.length + 1 = _) rfl
      obtain ⟨g, G, rfl⟩ := List.exists_cons_of_ne_nil hne
      have hbuf : A ++ ((TokenValue.quoted items).text ++ (sep ++ (rest ++ [0]))) =
          A ++ [34] ++ (items.flatMap QuotedItem.raw ++ 34 :: (sep ++ rest ++ [0])) := by
        simp [TokenValue.text]
      have hget : (A ++ [34] ++ (items.flatMap QuotedItem.raw ++
          34 :: (sep ++ rest ++ [0])))[A.length]? = some 34 := by simp
      have hset : (A ++ readItems items (sep ++ rest) ++ g :: G ++
          (leftOf items (sep ++ rest) ++ [0])).set (A ++ readItems items (sep ++ rest)).length 0 =
          A ++ readItems items (sep ++ rest) ++ 0 :: G ++ (leftOf items (sep ++ rest) ++ [0]) := by
        rw [List.append_assoc, List.set_append_right _ _ le_rfl, Nat.sub_self, List.cons_append,
          List.set_cons_zero]
        simp
      have hdrop : ∀ x : UInt8, (A ++ readItems items (sep ++ rest) ++ x :: G ++
          (leftOf items (sep ++ rest) ++ [0])).drop
            (A ++ readItems items (sep ++ rest) ++ g :: G).length =
          leftOf items (sep ++ rest) ++ [0] := by
        intro x
        exact List.drop_left' (by simp)
      refine ⟨A ++ readItems items (sep ++ rest) ++ 0 :: G ++ (leftOf items (sep ++ rest) ++ [0]),
        (A ++ readItems items (sep ++ rest) ++ g :: G).length +
          ((leftOf items (sep ++ rest) ++ [0]).takeWhile isSeparator).length, ?_, ?_, ?_⟩
      · rw [hbuf, getTokenValue, if_pos hget, hloop]
        simp only [hset, hdrop]
      · have hread := zero_notMem_readItems hv hzero'
        rw [List.append_assoc, List.append_assoc, List.drop_left, List.cons_append,
          cstr_append_zero hread, TokenValue.read]
      · rw [← List.drop_drop, hdrop, leftOf, TokenValue.left, TokenValue.escapes]
        split
        · rfl
        · rw [List.append_assoc, hskip, List.drop_left]

end

/-! ## The loop over the parameters -/

/-- What is stored of a header: the parameters behind one that is not known, or behind a
backslash, are lost. -/
def stored : List DigestParam → List (Known × Str)
  | [] => []
  | p :: params =>
      match p.known with
      | none => []
      | some k =>
          let tvalue := p.value.read (p.sep ++ paramsText params)
          if k = .username ∧ sizeofUsername ≤ tvalue.length then []
          else (k, tvalue) :: if p.value.escapes then [] else stored params

theorem strlwr_append (s t : Str) : strlwr (s ++ t) = strlwr s ++ strlwr t := List.map_append

theorem equals_mem_strlwr {s : Str} : 61 ∈ strlwr s ↔ 61 ∈ s := by
  have hiff : ∀ c : UInt8, (if 65 ≤ c ∧ c ≤ 90 then c + 32 else c) = 61 ↔ c = 61 :=
    fun c ↦ (char_tests c).2.2
  simp [strlwr, hiff]

theorem Known.equals_notMem_name (k : Known) : 61 ∉ k.name := by
  cases k <;> decide

theorem takeWhile_equals {s : Str} (h : 61 ∉ s) (rest : Str) :
    (s ++ 61 :: rest).takeWhile (· ≠ 61) = s := by
  rw [List.takeWhile_append_of_pos fun c hc ↦ by simpa using ne_of_mem_of_not_mem hc h]
  simp

/-- The comparison with a name and an equals sign is that with the name. -/
theorem strnicmp_name {name : Str} (hname : 61 ∉ name) (rest : Str) (k : Known) :
    strnicmp (name ++ 61 :: rest) (k.name ++ [61]) = stricmp name k.name := by
  have hk := k.equals_notMem_name
  rw [Bool.eq_iff_iff, strnicmp, stricmp, beq_iff_eq, beq_iff_eq, strlwr_append]
  constructor
  · intro h
    have htake : strlwr ((name ++ 61 :: rest).take (k.name ++ [61]).length) =
        (strlwr (name ++ 61 :: rest)).take (k.name ++ [61]).length := List.map_take
    have hsplit := List.take_append_drop (k.name ++ [61]).length (strlwr (name ++ 61 :: rest))
    rw [← htake, h, strlwr_append, List.append_assoc] at hsplit
    change strlwr k.name ++ 61 :: List.drop _ _ = strlwr name ++ 61 :: strlwr rest at hsplit
    have hbefore := congrArg (List.takeWhile (· ≠ 61)) hsplit
    rwa [takeWhile_equals (mt equals_mem_strlwr.mp hk),
      takeWhile_equals (mt equals_mem_strlwr.mp hname), eq_comm] at hbefore
  · intro h
    have hlen : name.length = k.name.length := by
      simpa [strlwr] using congrArg List.length h
    have htake : (name ++ 61 :: rest).take (k.name ++ [61]).length = name ++ [61] := by
      rw [List.length_append, ← hlen, List.take_length_add_append]
      rfl
    rw [htake, strlwr_append, h]

theorem DigestParam.find?_eq {p : DigestParam} (hp : p.WellFormed) (rest : Str) :
    (knownParams.find? fun k ↦ strnicmp (p.name ++ 61 :: rest) (k.name ++ [61])) = p.known := by
  have hname : 61 ∉ p.name := fun h ↦ (tokenChar_ne (hp.name 61 h)).2.2.1 rfl
  rw [DigestParam.known]
  simp only [strnicmp_name hname]

theorem DigestParam.stricmp_of_known {p : DigestParam} {k : Known} (h : p.known = some k) :
    stricmp p.name k.name := by
  simpa using List.find?_some h

theorem DigestParam.length_name_of_known {p : DigestParam} {k : Known} (h : p.known = some k) :
    p.name.length = k.name.length := by
  have heq : strlwr p.name = strlwr k.name := by
    simpa [stricmp] using DigestParam.stricmp_of_known h
  simpa [strlwr] using congrArg List.length heq

theorem TokenValue.zero_notMem_text {v : TokenValue} (h : v.WellFormed) : 0 ∉ v.text := by
  cases v with
  | token s => exact fun h0 ↦ (tokenChar_ne (h.2 0 h0)).1 rfl
  | quoted items => simp [TokenValue.text, zero_notMem_raw h]

theorem DigestParam.zero_notMem_text {p : DigestParam} (hp : p.WellFormed) : 0 ∉ p.text := by
  have hname : 0 ∉ p.name := fun h0 ↦ (tokenChar_ne (hp.name 0 h0)).1 rfl
  have hsep : 0 ∉ p.sep := fun h0 ↦ absurd (hp.sep 0 h0) (by decide)
  simp [DigestParam.text, hname, hsep, TokenValue.zero_notMem_text hp.value]

theorem zero_notMem_paramsText {params : List DigestParam} (h : ∀ p ∈ params, p.WellFormed) :
    0 ∉ paramsText params := by
  rw [paramsText, List.mem_flatMap]
  rintro ⟨p, hp, h0⟩
  exact DigestParam.zero_notMem_text (h p hp) h0

/-- A header begins with a character of a name. -/
theorem head?_paramsText {params : List DigestParam} (h : ∀ p ∈ params, p.WellFormed) :
    ∀ c ∈ (paramsText params).head?, tokenChar c := by
  cases params with
  | nil => simp [paramsText]
  | cons p params =>
      have hp := h p List.mem_cons_self
      obtain ⟨c, name, hname⟩ := List.exists_cons_of_ne_nil hp.name_ne_nil
      have hc := hp.name c (by simp [hname])
      simpa [paramsText, DigestParam.text, hname] using hc

theorem Separated.tail {p : DigestParam} {params : List DigestParam} (h : Separated (p :: params)) :
    Separated params ∧ (p.sep = [] → paramsText params = []) := by
  cases params with
  | nil => exact ⟨trivial, fun _ ↦ rfl⟩
  | cons q params => exact ⟨h.2, fun hnil ↦ absurd (hnil ▸ h.1) List.not_mem_nil⟩

theorem storesFrom_zero (fuel : ℕ) {buf : List UInt8} {p : ℕ} (h : buf[p]? = some 0) :
    storesFrom (fuel + 1) buf p = some [] := by
  rw [storesFrom, h, if_pos (Option.getD_some)]

/-- The text from the cursor on. -/
theorem exists_append_of_drop {buf R : List UInt8} {p : ℕ} (h : buf.drop p = R) (hR : R ≠ []) :
    ∃ A : List UInt8, A.length = p ∧ buf = A ++ R := by
  refine ⟨buf.take p, ?_, ?_⟩
  · have hlt : p < buf.length := by
      by_contra hge
      exact hR (h ▸ List.drop_eq_nil_of_le (by omega))
    rw [List.length_take]
    omega
  · rw [← h, List.take_append_drop]

/-- The cursor before a parameter: blanks are skipped. -/
theorem cursor_param {p : DigestParam} (hp : p.WellFormed) {rest : Str} (hzero : 0 ∉ rest)
    {lead : Str} (hlead : ∀ c ∈ lead, Smblib.isspace c) (A : List UInt8) :
    ((A ++ (lead ++ (p.text ++ rest ++ [0])))[A.length]?.getD 0) ≠ 0 ∧
      (lead ++ (p.text ++ rest ++ [0])).takeWhile Smblib.isspace = lead ∧
      cstr ((A ++ (lead ++ (p.text ++ rest ++ [0]))).drop (A.length + lead.length)) =
        p.name ++ 61 :: (p.value.text ++ p.sep ++ rest) := by
  obtain ⟨c, name, hname⟩ := List.exists_cons_of_ne_nil hp.name_ne_nil
  have hc := tokenChar_ne (hp.name c (by simp [hname]))
  refine ⟨?_, ?_, ?_⟩
  · cases lead with
    | nil => simpa [DigestParam.text, hname] using hc.1
    | cons b lead =>
        have hb : b ≠ 0 := by
          rintro rfl
          exact absurd (hlead 0 List.mem_cons_self) (by decide)
        simpa using hb
  · rw [List.takeWhile_append_of_pos hlead]
    simp [DigestParam.text, hname, hc.2.2.2.2]
  · rw [← List.append_assoc, ← List.length_append, List.drop_left,
      cstr_append_zero (by simp [DigestParam.zero_notMem_text hp, hzero])]
    simp [DigestParam.text]

/-- One parameter is stored, and the loop goes on with what is left. -/
theorem storesFrom_known {p : DigestParam} (hp : p.WellFormed) {k : Known} (hk : p.known = some k)
    {rest : Str} (hzero : 0 ∉ rest) (hrest : ∀ c ∈ rest.head?, isSeparator c = false)
    (hlast : p.sep = [] → rest = []) {lead : Str} (hlead : ∀ c ∈ lead, Smblib.isspace c)
    (fuel : ℕ) (A : List UInt8) :
    ∃ buf next, buf.drop next = p.value.left rest ++ [0] ∧
      storesFrom (fuel + 1) (A ++ (lead ++ (p.text ++ rest ++ [0]))) A.length =
        if k = .username ∧ sizeofUsername ≤ (p.value.read (p.sep ++ rest)).length then some []
        else (storesFrom fuel buf next).map ((k, p.value.read (p.sep ++ rest)) :: ·) := by
  obtain ⟨hpos, hskip, htext⟩ := cursor_param hp hzero hlead A
  obtain ⟨buf, next, hget, hread, hleft⟩ := getTokenValue_value hp.value hp.sep hzero hrest hlast
    (A ++ lead ++ (p.name ++ [61]))
  have hbuf : A ++ (lead ++ (p.text ++ rest ++ [0])) = A ++ lead ++ (p.name ++ [61]) ++
      (p.value.text ++ (p.sep ++ (rest ++ [0]))) := by
    simp [DigestParam.text]
  have hat : A.length + lead.length + k.name.length + 1 =
      (A ++ lead ++ (p.name ++ [61])).length := by
    simp [DigestParam.length_name_of_known hk]
    omega
  refine ⟨buf, next, hleft, ?_⟩
  rw [storesFrom, if_neg hpos]
  simp only [List.drop_left, hskip]
  rw [htext, DigestParam.find?_eq hp, hk]
  simp only [hat, hbuf, hget, hread]

/-- At a parameter that it does not know the loop ends the header. -/
theorem storesFrom_unknown {p : DigestParam} (hp : p.WellFormed) (hk : p.known = none)
    {rest : Str} (hzero : 0 ∉ rest) {lead : Str} (hlead : ∀ c ∈ lead, Smblib.isspace c)
    (fuel : ℕ) (A : List UInt8) :
    storesFrom (fuel + 2) (A ++ (lead ++ (p.text ++ rest ++ [0]))) A.length = some [] := by
  obtain ⟨hpos, hskip, htext⟩ := cursor_param hp hzero hlead A
  have hname : 61 ∉ p.name := fun h ↦ (tokenChar_ne (hp.name 61 h)).2.2.1 rfl
  obtain ⟨R, hR⟩ : ∃ R, p.value.text ++ (p.sep ++ (rest ++ [0])) = R := ⟨_, rfl⟩
  have hbuf : A ++ (lead ++ (p.text ++ rest ++ [0])) = A ++ lead ++ p.name ++ 61 :: R := by
    simp [DigestParam.text, ← hR]
  have hat : A.length + lead.length + p.name.length = (A ++ lead ++ p.name).length := by
    simp [Nat.add_assoc]
  have hget : (A ++ lead ++ p.name ++ 61 :: R)[(A ++ lead ++ p.name).length]? = some 61 := by
    simp
  have htoken : getTokenValue (A ++ lead ++ p.name ++ 61 :: R) (A ++ lead ++ p.name).length =
      (A ++ lead ++ p.name ++ 0 :: R, (A ++ lead ++ p.name).length) := by
    have hsep : isSeparator 61 = false := by decide
    rw [getTokenValue, if_neg (by rw [hget]; decide), tokenLoop_eq hget, if_pos (by decide)]
    simp only [List.drop_left, List.takeWhile_cons_of_neg (p := isSeparator) (a := 61) (l := R)
      (by simp [hsep])]
    rw [List.set_append_right _ _ le_rfl, Nat.sub_self, List.set_cons_zero]
    rfl
  rw [storesFrom, if_neg hpos]
  simp only [List.drop_left, hskip]
  rw [htext, DigestParam.find?_eq hp, hk]
  simp only [takeWhile_equals hname, hat, hbuf, hget, if_pos, htoken]
  exact storesFrom_zero fuel (by simp)

/-- Nothing is stored of blanks. -/
theorem storesFrom_blank {lead : Str} (hlead : ∀ c ∈ lead, Smblib.isspace c) {fuel : ℕ}
    (hfuel : lead.length < fuel + 1) {buf : List UInt8} {pos : ℕ}
    (hbuf : buf.drop pos = lead ++ [0]) : storesFrom (fuel + 1) buf pos = some [] := by
  obtain ⟨A, rfl, rfl⟩ := exists_append_of_drop hbuf (by simp)
  cases lead with
  | nil => exact storesFrom_zero fuel (by simp)
  | cons c lead =>
      obtain ⟨fuel, rfl⟩ : ∃ n, fuel = n + 1 := ⟨fuel - 1, by rw [List.length_cons] at hfuel; omega⟩
      have hc : c ≠ 0 := by
        rintro rfl
        exact absurd (hlead 0 List.mem_cons_self) (by decide)
      have hskip : (c :: lead ++ [0]).takeWhile Smblib.isspace = c :: lead := by
        rw [List.takeWhile_append_of_pos hlead, List.takeWhile_cons_of_neg (by decide),
          List.append_nil]
      have hdrop : (A ++ (c :: lead ++ [0])).drop (A.length + (c :: lead).length) = [0] := by
        rw [← List.append_assoc, ← List.length_append, List.drop_left]
      have hget : (A ++ (c :: lead ++ [0]))[A.length + (c :: lead).length]? = some 0 := by
        rw [← List.head?_drop, hdrop]
        rfl
      have hnone : (knownParams.find? fun k ↦ strnicmp (cstr [0]) (k.name ++ [61])) = none := by
        decide +kernel
      rw [storesFrom, if_neg (by simpa using hc)]
      simp only [List.drop_left, hskip, hdrop, hnone]
      rw [show A.length + (c :: lead).length + ((cstr [0]).takeWhile (· ≠ 61)).length =
        A.length + (c :: lead).length from rfl, hget, if_neg (by decide)]
      exact storesFrom_zero fuel hget

/-- The loop stores what comes through. -/
theorem storesFrom_paramsText {params : List DigestParam} (hwf : ∀ p ∈ params, p.WellFormed)
    (hsep : Separated params) {lead : Str} (hlead : ∀ c ∈ lead, Smblib.isspace c) {fuel : ℕ}
    (hfuel : lead.length + params.length < fuel) {buf : List UInt8} {pos : ℕ}
    (hbuf : buf.drop pos = lead ++ paramsText params ++ [0]) :
    storesFrom fuel buf pos = some (stored params) := by
  induction params generalizing lead fuel buf pos with
  | nil =>
      obtain ⟨fuel, rfl⟩ : ∃ n, fuel = n + 1 := ⟨fuel - 1, by omega⟩
      exact storesFrom_blank hlead (by simpa using hfuel) (by simpa [paramsText] using hbuf)
  | cons p params ih =>
      obtain ⟨fuel, rfl⟩ : ∃ n, fuel = n + 1 := ⟨fuel - 1, by omega⟩
      have hp := hwf p List.mem_cons_self
      have hrest : ∀ q ∈ params, q.WellFormed := fun q hq ↦ hwf q (List.mem_cons_of_mem _ hq)
      obtain ⟨hsep, hlast⟩ := hsep.tail
      have hzero := zero_notMem_paramsText hrest
      obtain ⟨A, rfl, rfl⟩ := exists_append_of_drop hbuf (by simp)
      have htext : lead ++ paramsText (p :: params) ++ [0] =
          lead ++ (p.text ++ paramsText params ++ [0]) := by
        simp [paramsText]
      rw [htext, stored]
      rw [List.length_cons] at hfuel
      cases hk : p.known with
      | none =>
          obtain ⟨fuel, rfl⟩ : ∃ n, fuel = n + 1 := ⟨fuel - 1, by omega⟩
          exact storesFrom_unknown hp hk hzero hlead fuel A
      | some k =>
          obtain ⟨buf', next, hnext, hloop⟩ := storesFrom_known hp hk hzero
            (fun c hc ↦ (tokenChar_ne (head?_paramsText hrest c hc)).2.2.2.1) hlast hlead fuel A
          rw [hloop]
          simp only
          split
          · rfl
          · have hgo : storesFrom fuel buf' next =
                some (if p.value.escapes then [] else stored params) := by
              rw [TokenValue.left] at hnext
              split at hnext
              case isTrue hesc =>
                obtain ⟨fuel, rfl⟩ : ∃ n, fuel = n + 1 := ⟨fuel - 1, by omega⟩
                rw [if_pos hesc]
                exact storesFrom_zero fuel (by rw [← List.head?_drop, hnext]; rfl)
              case isFalse hesc =>
                rw [if_neg hesc]
                have hnil : ∀ c ∈ ([] : Str), Smblib.isspace c := by simp
                exact ih hrest hsep hnil (by simp; omega) (by simpa using hnext)
            rw [hgo, Option.map_some]

theorem length_le_flatMap {α : Type*} {l : List α} {f : α → Str} (h : ∀ a ∈ l, f a ≠ []) :
    l.length ≤ (l.flatMap f).length := by
  induction l with
  | nil => exact le_rfl
  | cons a l ih =>
      have hpos := List.length_pos_iff.mpr (h a List.mem_cons_self)
      have hle := ih fun b hb ↦ h b (List.mem_cons_of_mem _ hb)
      rw [List.flatMap_cons, List.length_append, List.length_cons]
      omega

theorem digestStores_eq {params : List DigestParam} (hwf : ∀ p ∈ params, p.WellFormed)
    (hsep : Separated params) {lead : Str} (hlead : ∀ c ∈ lead, Smblib.isspace c) :
    digestStores (lead ++ paramsText params) = some (stored params) := by
  refine storesFrom_paramsText hwf hsep hlead ?_ rfl
  have hlen : params.length ≤ (paramsText params).length := by
    exact length_le_flatMap fun p _ ↦ by simp [DigestParam.text]
  rw [List.length_append]
  omega

/-! ## What is stored -/

theorem readItems_of_plain {items : List QuotedItem} (h : items.any QuotedItem.isEscape = false)
    (rest : Str) : readItems items rest = items.map QuotedItem.char := by
  induction items with
  | nil => rfl
  | cons i items ih =>
      rw [List.any_cons, Bool.or_eq_false_iff] at h
      cases i with
      | plain c => rw [readItems, ih h.2, List.map_cons, QuotedItem.char]
      | escaped c => exact absurd h.1 (by simp [QuotedItem.isEscape])

/-- With a backslash more is read than there is. -/
theorem length_lt_readItems {items : List QuotedItem} (h : items.any QuotedItem.isEscape = true)
    (rest : Str) : items.length < (readItems items rest).length := by
  induction items with
  | nil => exact absurd h (by simp)
  | cons i items ih =>
      cases i with
      | plain c =>
          rw [List.any_cons, QuotedItem.isEscape, Bool.false_or] at h
          simpa [readItems] using ih h
      | escaped c =>
          have hlen : items.length ≤ (items.flatMap QuotedItem.raw).length := by
            exact length_le_flatMap fun i _ ↦ by cases i <;> simp [QuotedItem.raw]
          simp only [readItems, List.length_cons, List.length_append]
          omega

theorem TokenValue.read_of_plain {v : TokenValue} (h : v.escapes = false) (rest : Str) :
    v.read rest = v.decoded := by
  cases v with
  | token s => rfl
  | quoted items => exact readItems_of_plain h rest

theorem TokenValue.read_ne_decoded {v : TokenValue} (h : v.escapes = true) (rest : Str) :
    v.read rest ≠ v.decoded := by
  cases v with
  | token s => exact absurd h (by simp [TokenValue.escapes])
  | quoted items =>
      intro heq
      have hlt := length_lt_readItems h rest
      have hlen := congrArg List.length heq
      simp only [TokenValue.read, TokenValue.decoded, List.length_map] at hlen
      omega

theorem expected_cons (p : DigestParam) (params : List DigestParam) :
    expected (p :: params) = (p.known.map fun k ↦ (k, p.value.decoded)).toList ++
      expected params := by
  rw [expected, List.filterMap_cons]
  cases p.known <;> rfl

theorem expected_eq_nil_iff {params : List DigestParam} :
    expected params = [] ↔ ∀ p ∈ params, p.known = none := by
  simp [expected, List.filterMap_eq_nil_iff]

theorem plain_cons_iff {p : DigestParam} {params : List DigestParam} :
    Plain (p :: params) ↔
      match p.known with
      | none => ∀ q ∈ params, q.known = none
      | some k => p.value.escapes = false ∧
          (k = .username → p.value.decoded.length < sizeofUsername) ∧ Plain params := by
  cases hk : p.known with
  | none =>
      constructor
      · intro h q hq
        exact List.rel_of_pairwise_cons h.known_first hq hk
      · intro h
        have hall : ∀ q ∈ p :: params, q.known = none := by
          simpa [hk] using h
        refine ⟨?_, fun q hq hne ↦ absurd (hall q hq) hne, fun q hq hu ↦ ?_⟩
        · exact List.pairwise_cons.mpr ⟨fun q hq _ ↦ h q hq,
            List.pairwise_of_forall_mem_list fun q _ r hr _ ↦ h r hr⟩
        · exact nomatch (hall q hq).symm.trans hu
  | some k =>
      constructor
      · intro h
        refine ⟨h.not_escapes p List.mem_cons_self (by simp [hk]), ?_, ?_, ?_, ?_⟩
        · rintro rfl
          exact h.username_lt p List.mem_cons_self hk
        · exact (List.pairwise_cons.mp h.known_first).2
        · exact fun q hq ↦ h.not_escapes q (List.mem_cons_of_mem _ hq)
        · exact fun q hq ↦ h.username_lt q (List.mem_cons_of_mem _ hq)
      · rintro ⟨hesc, huser, h⟩
        refine ⟨List.pairwise_cons.mpr ⟨fun q _ hnone ↦ ?_, h.known_first⟩, ?_, ?_⟩
        · exact nomatch hk.symm.trans hnone
        · rintro q hq hne
          rcases List.mem_cons.mp hq with rfl | hq
          · exact hesc
          · exact h.not_escapes q hq hne
        · rintro q hq hu
          rcases List.mem_cons.mp hq with rfl | hq
          · exact huser (Option.some.inj (hk.symm.trans hu))
          · exact h.username_lt q hq hu

/-- All known parameters are stored with their values just when nothing stops the loop. -/
theorem stored_eq_expected_iff {params : List DigestParam} :
    stored params = expected params ↔ Plain params := by
  induction params with
  | nil => exact iff_of_true rfl ⟨List.Pairwise.nil, by simp, by simp⟩
  | cons p params ih =>
      rw [plain_cons_iff, expected_cons, stored]
      cases hk : p.known with
      | none =>
          rw [← expected_eq_nil_iff]
          exact eq_comm
      | some k =>
          simp only [Option.map_some, Option.toList_some, List.singleton_append]
          cases hesc : p.value.escapes with
          | true =>
              have hread := TokenValue.read_ne_decoded hesc (p.sep ++ paramsText params)
              refine iff_of_false (fun h ↦ ?_) (by simp)
              split at h
              · exact nomatch h
              · exact hread (Prod.mk.inj (List.cons.inj h).1).2
          | false =>
              rw [TokenValue.read_of_plain hesc]
              split
              case isTrue hlong =>
                refine iff_of_false (fun h ↦ nomatch h) fun h ↦ ?_
                exact absurd (h.2.1 hlong.1) (not_lt.mpr hlong.2)
              case isFalse hshort =>
                simp only [Bool.false_eq_true, if_false, List.cons.injEq, true_and, ih]
                refine ⟨fun h ↦ ⟨fun hk ↦ ?_, h⟩, fun h ↦ h.2⟩
                exact not_le.mp fun hle ↦ hshort ⟨hk, hle⟩

/-! ## The fields -/

/-- The bytes that hexadecimal digits stand for. -/
def hexBytes : Str → List UInt8
  | a :: b :: rest => UInt8.ofNat (hexValue [a, b]) :: hexBytes rest
  | _ => []

theorem hexval_eq {c : UInt8} (h : isxdigit c) :
    hexval c = UInt8.ofNat (hexDigitValue c) ∧ hexDigitValue c < 16 := by
  revert h
  exact Words.forall_uint8 (p := fun c ↦ isxdigit c →
    hexval c = UInt8.ofNat (hexDigitValue c) ∧ hexDigitValue c < 16) (by decide +kernel) c

theorem digestBytes_eq {v : Str} (h : ∀ c ∈ v, isxdigit c) : digestBytes v = hexBytes v := by
  induction v using digestBytes.induct with
  | case1 a b rest ih =>
      have hnibbles : ∀ x < 16, ∀ y < 16,
          UInt8.ofNat x <<< 4 ||| UInt8.ofNat y = UInt8.ofNat (16 * x + y) := by decide +kernel
      obtain ⟨ha, hlta⟩ := hexval_eq (h a (by simp))
      obtain ⟨hb, hltb⟩ := hexval_eq (h b (by simp))
      rw [digestBytes, hexBytes, ih fun c hc ↦ h c (by simp [hc]), ha, hb,
        hnibbles _ hlta _ hltb]
      simp [hexValue]
  | case2 v hne =>
      rw [digestBytes.eq_2 v hne, hexBytes.eq_2 v hne]

/-- Different parameters go to different fields. -/
theorem AuthRequest.store_comm (auth : AuthRequest) {k k' : Known} (hne : k ≠ k') (v v' : Str) :
    (auth.store k v).store k' v' = (auth.store k' v').store k v := by
  have hresponse : ∀ (auth : AuthRequest) (v : Str), auth.store .response v =
      { auth with digest := if v.length = 32 then digestBytes v else auth.digest } := by
    intro auth v
    rw [AuthRequest.store]
    split <;> rfl
  cases k <;> cases k' <;> first | exact absurd rfl hne | (simp only [hresponse]; rfl) | rfl

theorem eq_of_mem_expected {params : List DigestParam}
    (hdistinct : (params.map fun p ↦ strlwr p.name).Nodup) {x y : Known × Str}
    (hx : x ∈ expected params) (hy : y ∈ expected params) (h : x.1 = y.1) : x = y := by
  have hfrom : ∀ z ∈ expected params, ∃ p ∈ params, strlwr p.name = strlwr z.1.name ∧
      z.2 = p.value.decoded := by
    intro z hz
    obtain ⟨p, hp, hmap⟩ := List.mem_filterMap.mp hz
    obtain ⟨k, hk, rfl⟩ := Option.map_eq_some_iff.mp hmap
    exact ⟨p, hp, by simpa [stricmp] using DigestParam.stricmp_of_known hk, rfl⟩
  obtain ⟨p, hp, hpname, hpval⟩ := hfrom x hx
  obtain ⟨q, hq, hqname, hqval⟩ := hfrom y hy
  obtain rfl : p = q := List.inj_on_of_nodup_map hdistinct hp hq
    (hpname.trans ((congrArg (fun k ↦ strlwr k.name) h).trans hqname.symm))
  exact Prod.ext h (hpval.trans hqval.symm)

/-- Every known parameter is stored with its value just when the known ones are in front, without
a backslash and with a name of the user that fits; the fields are then the same for any order of
these parameters, and the digest is made of the bytes that its digits stand for. -/
theorem digestStores_expected_iff {params : List DigestParam}
    (hwf : ∀ p ∈ params, p.WellFormed) (hsep : Separated params)
    (hdistinct : (params.map fun p ↦ strlwr p.name).Nodup) {lead : Str}
    (hlead : ∀ c ∈ lead, Smblib.isspace c) :
    (digestStores (lead ++ paramsText params) = some (expected params) ↔ Plain params) ∧
      (Plain params → ∀ (auth : AuthRequest) (stores : List (Known × Str)),
        stores.Perm (expected params) →
        parseDigest auth (lead ++ paramsText params) =
          some (stores.foldl (fun auth s ↦ auth.store s.1 s.2) { auth with algorithm := .md5 })) ∧
      ∀ (auth : AuthRequest) (v : Str), v.length = 32 → (∀ c ∈ v, isxdigit c) →
        (auth.store .response v).digest = hexBytes v := by
  have hstores := digestStores_eq hwf hsep hlead
  refine ⟨?_, fun hplain auth stores hperm ↦ ?_, fun auth v hlen hv ↦ ?_⟩
  · rw [hstores, Option.some.injEq, stored_eq_expected_iff]
  · rw [parseDigest, hstores, stored_eq_expected_iff.mpr hplain, Option.map_some]
    refine congrArg some (List.Perm.foldl_eq' hperm.symm (fun x hx y hy auth ↦ ?_) _)
    by_cases h : x.1 = y.1
    · rw [eq_of_mem_expected hdistinct hx hy h]
    · exact auth.store_comm h x.2 y.2
  · rw [AuthRequest.store, if_pos hlen]
    exact digestBytes_eq hv

/-- `nc=1, x=y` -/
def plainParams : List DigestParam :=
  [⟨[110, 99], .token [49], [44, 32]⟩, ⟨[120], .token [121], []⟩]

theorem digestStores_plainParams :
    digestStores (paramsText plainParams) = some [(.nc, [49])] := by
  have hwf : ∀ p ∈ plainParams, p.WellFormed := by
    intro p hp
    simp only [plainParams, List.mem_cons, List.not_mem_nil, or_false] at hp
    rcases hp with rfl | rfl
    · exact ⟨by decide, by decide, ⟨by decide, by decide⟩, by decide⟩
    · exact ⟨by decide, by decide, ⟨by decide, by decide⟩, by decide⟩
  have hplain : Plain plainParams := by
    refine ⟨by decide, by decide, by decide⟩
  have hlead : ∀ c ∈ ([] : Str), Smblib.isspace c := by simp
  exact (digestStores_expected_iff hwf ⟨by decide, trivial⟩ (by decide) hlead).1.mpr hplain

/-- `username="a\"b",nc=1` -/
def escapedParams : List DigestParam :=
  [⟨[117, 115, 101, 114, 110, 97, 109, 101], .quoted [.plain 97, .escaped 34, .plain 98], [44]⟩,
    ⟨[110, 99], .token [49], []⟩]

/-- The name is taken for `a"b",nc=1`, and `nc` is not stored. -/
theorem digestStores_escapedParams :
    (∀ p ∈ escapedParams, p.WellFormed) ∧
      digestStores (paramsText escapedParams) ≠ some (expected escapedParams) := by
  have hwf : ∀ p ∈ escapedParams, p.WellFormed := by
    intro p hp
    simp only [escapedParams, List.mem_cons, List.not_mem_nil, or_false] at hp
    rcases hp with rfl | rfl
    · refine ⟨by decide, by decide, ?_, by decide⟩
      intro i hi
      simp only [List.mem_cons, List.not_mem_nil, or_false] at hi
      rcases hi with rfl | rfl | rfl <;> simp [QuotedItem.WellFormed]
    · exact ⟨by decide, by decide, ⟨by decide, by decide⟩, by decide⟩
  have hlead : ∀ c ∈ ([] : Str), Smblib.isspace c := by simp
  refine ⟨hwf, fun h ↦ ?_⟩
  have hstored := (digestStores_eq hwf ⟨by decide, trivial⟩ hlead).symm.trans h
  revert hstored
  decide +kernel

end Synchronet.Sbbs3.WebSrvr
