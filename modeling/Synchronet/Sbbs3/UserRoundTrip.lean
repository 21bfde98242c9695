import Synchronet.Lib.Columns
import Synchronet.Sbbs3.UserNumbers

/-!
# Reading back a user record

Every field of a user is read back from the record that was made of it, except for the phone
number: the line end behind the password goes to the columns of the phone number, after they
were filled.
-/

namespace Synchronet.Sbbs3

open RecordFile Columns
open Smblib (cstr atoi)
open Xpdev (Str stricmp)

/-! ## The columns of the writes -/

def Write.shape (w : Write) : Column × ℕ := (w.column, w.spill)

/-- The columns of `putuserdat`, and what each write fills behind them. -/
def shape : List (Column × ℕ) := (userWrites { number := 0 } [] []).map Write.shape

theorem map_shape (u : UserRecord) (xedit shell : Str) :
    (userWrites u xedit shell).map Write.shape = shape := rfl

/-- The pieces of the record that sbbsdefs.h places. -/
def placed : List (ℕ × ℕ) :=
  shape.filterMap fun c ↦
    match c.1 with
    | .at start len => some (start, len + c.2)
    | _ => none

instance (p n q m : ℕ) : Decidable (Apart p n q m) := inferInstanceAs (Decidable (_ ∨ _))

/-- The columns of the old password and of the IP address are inside the record, where no
other column is. -/
structure Layout.Valid (L : Layout) : Prop where
  oldpass_le : L.uOldpass + L.lenOldpass ≤ uLen
  ipaddr_le : L.uIpaddr + L.lenIpaddr + 2 ≤ uLen
  apart : Apart L.uOldpass L.lenOldpass L.uIpaddr (L.lenIpaddr + 2)
  oldpass : ∀ c ∈ placed, Apart L.uOldpass L.lenOldpass c.1 c.2
  ipaddr : ∀ c ∈ placed, Apart L.uIpaddr (L.lenIpaddr + 2) c.1 c.2

theorem mem_placed {start len spill : ℕ} (h : (Column.at start len, spill) ∈ shape) :
    (start, len + spill) ∈ placed :=
  List.mem_filterMap.mpr ⟨_, h, rfl⟩

/-- The column `c` has nothing in common with what the write at `d` fills, as far as it can be
said without a layout. -/
def clearOf (c d : Column × ℕ) : Bool :=
  match c.1, d.1 with
  | .at p n, .at q m => p + n ≤ q || q + (m + d.2) ≤ p
  | .at _ _, _ => d.2 = 0
  | _, .at _ _ => true
  | .oldpass, .ipaddr => d.2 = 0
  | .oldpass, .ipaddrEnd => d.2 = 0
  | .ipaddr, .ipaddrEnd => d.2 = 0
  | _, _ => false

variable {L : Layout}

theorem Apart.tail {p n q m : ℕ} (h : Apart p (n + m) q k) : Apart (p + n) m q k := by
  rcases h with h | h
  · exact .inl (by omega)
  · exact .inr (by omega)

theorem apart_of_clearOf (hL : L.Valid) {c d : Column × ℕ} (hc : c ∈ shape) (hd : d ∈ shape)
    (h : clearOf c d = true) :
    Apart (c.1.start L) (c.1.len L) (d.1.start L) (d.1.len L + d.2) := by
  obtain ⟨c, k⟩ := c
  obtain ⟨d, l⟩ := d
  cases c with
  | «at» p n =>
      have hin := mem_placed hc
      cases d with
      | «at» q m => simpa [clearOf, Apart, Column.start, Column.len] using h
      | oldpass =>
          obtain rfl : l = 0 := by simpa [clearOf] using h
          exact ((hL.oldpass _ hin).symm).shorten (Nat.le_add_right n k)
      | ipaddr =>
          obtain rfl : l = 0 := by simpa [clearOf] using h
          exact ((hL.ipaddr _ hin).shorten (Nat.le_add_right _ 2)).symm.shorten
            (Nat.le_add_right n k)
      | ipaddrEnd =>
          obtain rfl : l = 0 := by simpa [clearOf] using h
          exact (Apart.tail (hL.ipaddr _ hin)).symm.shorten (Nat.le_add_right n k)
  | oldpass =>
      cases d with
      | «at» q m => exact hL.oldpass _ (mem_placed hd)
      | oldpass => simp [clearOf] at h
      | ipaddr =>
          obtain rfl : l = 0 := by simpa [clearOf] using h
          exact (hL.apart.symm.shorten (Nat.le_add_right _ 2)).symm
      | ipaddrEnd =>
          obtain rfl : l = 0 := by simpa [clearOf] using h
          exact (Apart.tail hL.apart.symm).symm
  | ipaddr =>
      cases d with
      | «at» q m => exact (hL.ipaddr _ (mem_placed hd)).shorten (Nat.le_add_right _ 2)
      | oldpass => simp [clearOf] at h
      | ipaddr => simp [clearOf] at h
      | ipaddrEnd => exact .inl le_rfl
  | ipaddrEnd =>
      cases d with
      | «at» q m => exact Apart.tail (hL.ipaddr _ (mem_placed hd))
      | oldpass => simp [clearOf] at h
      | ipaddr => simp [clearOf] at h
      | ipaddrEnd => simp [clearOf] at h

/-- The place of the phone number in the order of the writes. -/
def phoneWrite : ℕ := 17

/-- After the phone number alone, a later write goes to the same column. -/
theorem clearOf_later :
    ∀ j < shape.length, ∀ i < j, i ≠ phoneWrite →
      ∀ c ∈ shape[i]?, ∀ d ∈ shape[j]?, clearOf c d = true := by
  decide +kernel

theorem placed_le : ∀ c ∈ placed, c.1 + c.2 ≤ uLen := by decide +kernel

/-! ## What a column holds -/

/-- What a write does to the record. -/
def Write.bytes (L : Layout) (w : Write) : ℕ × List UInt8 :=
  (w.column.start L, Sbbs3.column (w.column.len L + w.spill) w.text)

theorem userRecord_eq (L : Layout) (u : UserRecord) (xedit shell : Str) :
    userRecord L u xedit shell =
      writeAll 0 (List.replicate uLen etx) ((userWrites u xedit shell).map (Write.bytes L)) := by
  rw [writeAll, List.foldl_map]
  rfl

theorem shape_inside (hL : L.Valid) {c : Column × ℕ} (hc : c ∈ shape) :
    c.1.start L + (c.1.len L + c.2) ≤ uLen := by
  have hzero : ∀ c ∈ shape, (match c.1 with | .at _ _ => true | _ => decide (c.2 = 0)) = true := by
    decide +kernel
  have hspill := hzero c hc
  obtain ⟨c, k⟩ := c
  cases c with
  | «at» p n => exact placed_le _ (mem_placed hc)
  | oldpass =>
      obtain rfl : k = 0 := of_decide_eq_true hspill
      exact hL.oldpass_le
  | ipaddr =>
      obtain rfl : k = 0 := of_decide_eq_true hspill
      exact le_trans (Nat.le_add_right _ 2) hL.ipaddr_le
  | ipaddrEnd =>
      obtain rfl : k = 0 := of_decide_eq_true hspill
      exact hL.ipaddr_le

variable {u : UserRecord} {x s : Str} {i : ℕ} {w : Write}

theorem shape_of_write (hw : (userWrites u x s)[i]? = some w) : shape[i]? = some w.shape := by
  rw [← map_shape u x s, List.getElem?_map, hw]
  rfl

theorem mem_shape (hw : w ∈ userWrites u x s) : w.shape ∈ shape := by
  rw [← map_shape u x s]
  exact List.mem_map_of_mem hw

/-- The column of a write holds what it put there. -/
theorem readAt_userRecord (hL : L.Valid) (hw : (userWrites u x s)[i]? = some w)
    (hi : i ≠ phoneWrite) :
    readAt (userRecord L u x s) (w.column.start L) (w.column.len L) =
      column (w.column.len L) w.text := by
  have hinside : ∀ v ∈ (userWrites u x s).map (Write.bytes L), v.1 + v.2.length ≤ uLen := by
    intro v hv
    obtain ⟨w', hw', rfl⟩ := List.mem_map.mp hv
    rw [Write.bytes, length_column]
    exact shape_inside hL (mem_shape hw')
  have hbytes : ((userWrites u x s).map (Write.bytes L))[i]? = some (w.bytes L) := by
    rw [List.getElem?_map, hw]
    rfl
  have hn : w.column.len L ≤ (w.bytes L).2.length := by
    rw [Write.bytes, length_column]
    exact Nat.le_add_right _ _
  have hlater : ∀ v ∈ ((userWrites u x s).map (Write.bytes L)).drop (i + 1),
      Apart (w.bytes L).1 (w.column.len L) v.1 v.2.length := by
    intro v hv
    rw [← List.map_drop] at hv
    obtain ⟨w', hw', rfl⟩ := List.mem_map.mp hv
    obtain ⟨k, hk⟩ := List.mem_iff_getElem?.mp hw'
    rw [List.getElem?_drop] at hk
    have hshape := shape_of_write hk
    have hj : i + 1 + k < shape.length := (List.getElem?_eq_some_iff.mp hshape).1
    have hclear := clearOf_later _ hj i (by omega) hi _ (shape_of_write hw) _ hshape
    rw [Write.bytes, Write.bytes, length_column]
    exact apart_of_clearOf hL (mem_shape (List.mem_of_getElem? hw))
      (mem_shape (List.mem_of_getElem? hk)) hclear
  rw [userRecord_eq]
  exact (readAt_writeAll List.length_replicate hinside hbytes hn hlater).trans
    (take_column (Nat.le_add_right _ _) w.text)

/-- A clean text is read back, as far as its column goes. -/
theorem getText_userRecord (hL : L.Valid) (hw : (userWrites u x s)[i]? = some w)
    (hi : i ≠ phoneWrite) (hclean : Clean w.text) :
    getText L (userRecord L u x s) w.column = w.text.take (w.column.len L) := by
  have hread := readAt_userRecord hL hw hi
  rw [← column_take] at hread
  have hmem : ∀ c ∈ w.text.take (w.column.len L), endsField c = false ∧ c ≠ 0 :=
    fun c hc ↦ hclean c (List.mem_of_mem_take hc)
  exact getrec_of_readAt (List.length_take_le _ _) (fun c hc ↦ (hmem c hc).1)
    (fun h0 ↦ (hmem 0 h0).2 rfl) hread

/-! ## The kinds of fields -/

/-- A string that fits its column. -/
structure FitsIn (len : ℕ) (s : Str) : Prop where
  length_le : s.length ≤ len
  clean : Clean s

theorem getText_field (hL : L.Valid) {c : Column} {text : Str} {f : Bool} {k : ℕ}
    (hw : (userWrites u x s)[i]? = some ⟨c, text, f, k⟩) (hi : i ≠ phoneWrite)
    (h : FitsIn (c.len L) text) : getText L (userRecord L u x s) c = text := by
  rw [getText_userRecord hL hw hi h.clean]
  exact List.take_of_length_le h.length_le

theorem getrec_decField (hL : L.Valid) {start len n : ℕ}
    (hw : (userWrites u x s)[i]? = some (decField start len n)) (hi : i ≠ phoneWrite)
    (hlen : 0 < len) (h : n < 10 ^ len) :
    getrec (userRecord L u x s) start len = ultoa n 10 :=
  getText_field hL hw hi ⟨length_ultoa_le (by decide) hlen h, clean_ultoa_ten n⟩

theorem getrec_hexField (hL : L.Valid) {start len n : ℕ}
    (hw : (userWrites u x s)[i]? = some (hexField start len n)) (hi : i ≠ phoneWrite)
    (hlen : 0 < len) (h : n < 16 ^ len) :
    getrec (userRecord L u x s) start len = ultoa n 16 :=
  getText_field hL hw hi ⟨length_ultoa_le (by decide) hlen h, clean_ultoa_sixteen n⟩

theorem ofInt_toNat_uint16 (n : UInt16) : UInt16.ofInt (n.toNat : ℤ) = n := by
  have hn := n.toNat_lt
  apply UInt16.toNat_inj.mp
  simp only [UInt16.ofInt, UInt16.toNat_ofNat']
  omega

theorem getDec16_field (hL : L.Valid) {start : ℕ} {n : UInt16}
    (hw : (userWrites u x s)[i]? = some (decField start 5 n.toNat)) (hi : i ≠ phoneWrite) :
    getDec16 (userRecord L u x s) start 5 = n := by
  have hn := n.toNat_lt
  rw [getDec16, getrec_decField hL hw hi (by decide) (by omega), atoi_ultoa, ofInt_toNat_uint16]

theorem getDec64_field (hL : L.Valid) {start : ℕ} {n : UInt64} (hn : n.toNat < 2 ^ 32)
    (hw : (userWrites u x s)[i]? = some (decField start 10 n.toNat)) (hi : i ≠ phoneWrite) :
    getDec64 (userRecord L u x s) start = n := by
  rw [getDec64, getrec_decField hL hw hi (by decide) (by omega), strtoul_ultoa (by omega)]
  exact UInt64.ofNat_toNat

theorem getHex64_field (hL : L.Valid) {start : ℕ} {n : UInt64} (hn : n.toNat < 2 ^ 32)
    (hw : (userWrites u x s)[i]? = some (hexField start 8 n.toNat)) (hi : i ≠ phoneWrite) :
    getHex64 (userRecord L u x s) start = n := by
  rw [getHex64, getrec_hexField hL hw hi (by decide) (by omega), ahtoul_ultoa,
    Nat.mod_eq_of_lt (by omega)]
  exact UInt64.ofNat_toNat

/-- What is read back of a time. -/
def keptTime (t : Int32) : Int32 := if 0 ≤ t.toInt then t else -1

theorem getTime_field (hL : L.Valid) {start : ℕ} {t : Int32}
    (hw : (userWrites u x s)[i]? = some (timeField start t)) (hi : i ≠ phoneWrite) :
    getTime (userRecord L u x s) start = keptTime t := by
  have hread : getrec (userRecord L u x s) start 8 = _ :=
    getText_userRecord hL hw hi (clean_ultoa_sixteen _)
  rw [getTime, hread]
  exact time_ultoa t

theorem getChar_field (hL : L.Valid) {start : ℕ} {c : UInt8}
    (hw : (userWrites u x s)[i]? = some (charField start c)) (hi : i ≠ phoneWrite) :
    (userRecord L u x s).getD start 0 = c := by
  have hread : readAt (userRecord L u x s) start 1 = [c] := readAt_userRecord hL hw hi
  have hget := getElem?_readAt (userRecord L u x s) start 1 0
  rw [hread] at hget
  rw [List.getD_eq_getElem?_getD]
  exact congrArg (Option.getD · 0) hget.symm

/-! ## All fields -/

/-- The user fits the columns of the record and the configuration. -/
structure UserRecord.Fits (L : Layout) (cfg : Config) (u : UserRecord) : Prop where
  number : 1 ≤ u.number
  alias_ : FitsIn lenAlias u.alias_
  name : FitsIn lenName u.name
  handle : FitsIn lenHandle u.handle
  comp : FitsIn lenComp u.comp
  note : FitsIn lenNote u.note
  address : FitsIn lenAddress u.address
  location : FitsIn lenLocation u.location
  zipcode : FitsIn lenZipcode u.zipcode
  pass : FitsIn lenPass u.pass
  birth : FitsIn lenBirth u.birth
  phone : FitsIn lenPhone u.phone
  modem : FitsIn lenModem u.modem
  ipaddr : FitsIn L.lenIpaddr u.ipaddr
  netmail : FitsIn lenNetmail u.netmail
  tmpext : FitsIn 3 u.tmpext
  comment : FitsIn lenComment u.comment
  cursub : FitsIn lenExtcode u.cursub
  curdir : FitsIn lenExtcode u.curdir
  curxtrn : FitsIn 8 u.curxtrn
  tmpext_ne : u.tmpext ≠ [] ∧ u.tmpext ≠ [48]
  level : u.level ≤ 99
  rows : u.rows = 0 ∨ (10 ≤ u.rows ∧ u.rows ≤ 99)
  sex : 32 ≤ u.sex ∧ u.sex ≤ 126
  prot : 32 ≤ u.prot ∧ u.prot ≤ 126
  words : ∀ n ∈ [u.misc, u.qwk, u.chat, u.flags1, u.flags2, u.flags3, u.flags4, u.exempt, u.rest,
    u.ulb, u.dlb, u.cdt, u.min, u.freecdt], n.toNat < 2 ^ 32
  nsTime : 0x20000000 ≤ u.nsTime.toInt
  xedit : u.xedit.toNat ≤ cfg.xedits.length
  shell : u.shell.toNat < cfg.shells.length

/-- The user that is read back. -/
def stored (cfg : Config) (u : UserRecord) (x s : Str) : UserRecord :=
  { u with
    phone := []
    laston := keptTime u.laston
    firston := keptTime u.firston
    expire := keptTime u.expire
    pwmod := keptTime u.pwmod
    logontime := keptTime u.logontime
    misc := if hasBit u.rest (flag 81) then u.misc &&& ~~~spin else u.misc
    xedit := findXedit cfg x
    shell := findShell cfg s }

/-- The line end behind the password is the start of the phone number. -/
theorem getText_phone (hL : L.Valid) :
    getText L (userRecord L u x s) (.at uPhone lenPhone) = [] := by
  have hend : readAt (userRecord L u x s) uPhone 2 = crlf :=
    @readAt_userRecord L u x s 61 (lineEnd (uPass + lenPass)) hL rfl (by decide)
  have hsplit := readAt_append_readAt (userRecord L u x s) uPhone 2 10
  rw [hend] at hsplit
  change getrec (userRecord L u x s) uPhone 12 = []
  rw [getrec, ← hsplit]
  rfl

variable {cfg : Config}

theorem readRows_ultoa {n : UInt8} (h : n = 0 ∨ (10 ≤ n ∧ n ≤ 99)) :
    readRows (ultoa n.toNat 10) = n := by
  have hn : UInt8.ofInt (atoi (ultoa n.toNat 10)) = n := by
    rw [atoi_ultoa]
    simp
  rw [readRows, hn]
  refine if_neg fun ⟨hne, hlt⟩ ↦ ?_
  rcases h with h | h
  · exact hne h
  · exact absurd hlt (UInt8.not_lt.mpr h.1)

theorem readQwk_ultoa {n : UInt64} (hn : n.toNat < 2 ^ 32) (rest : UInt64) :
    readQwk (ultoa n.toNat 16) rest = n := by
  obtain ⟨c, s, hs⟩ := List.exists_cons_of_ne_nil (ultoa_ne_nil n.toNat 16)
  have hall : ∀ c ∈ ultoa n.toNat 16, ¬ (c < 32 ∨ 128 ≤ c) :=
    forall_mem_ultoa (by decide) (by decide +kernel) n.toNat
  have hc : ¬ ((ultoa n.toNat 16).getD 0 0 < 32 ∨ 128 ≤ (ultoa n.toNat 16).getD 0 0) := by
    have := hall c (by rw [hs]; exact List.mem_cons_self)
    rwa [hs]
  rw [readQwk, if_neg hc, ahtoul_ultoa, Nat.mod_eq_of_lt (by omega)]
  exact UInt64.ofNat_toNat

theorem readTmpext_of_ne {str : Str} (h : str ≠ [] ∧ str ≠ [48]) : readTmpext cfg str = str := by
  rw [readTmpext]
  split
  case h_1 => exact if_neg (not_or.mpr h)
  case h_2 => rfl

theorem readNsTime_field (hL : L.Valid) (hu : 0x20000000 ≤ u.nsTime.toInt) (laston : Int32) :
    readNsTime (getrec (userRecord L u x s) uNsTime 8) laston = u.nsTime := by
  have htime : Int32.ofNat (ahtoul (getrec (userRecord L u x s) uNsTime 8)) = u.nsTime := by
    have hfield : getTime (userRecord L u x s) uNsTime = keptTime u.nsTime :=
      @getTime_field L u x s 71 hL _ _ rfl (by decide)
    rw [keptTime, if_pos (le_trans (by decide) hu)] at hfield
    exact hfield
  rw [readNsTime, htime]
  refine if_neg fun hlt ↦ ?_
  have hbound : (0x20000000 : Int32).toInt = 0x20000000 := rfl
  exact absurd (hbound ▸ Int32.lt_iff_toInt_lt.mp hlt) (not_lt.mpr hu)

theorem getPass_field (hL : L.Valid) (hu : FitsIn lenPass u.pass) :
    (if getText L (userRecord L u x s) (.at uPass lenPass) = [] then
      getText L (userRecord L u x s) .oldpass
    else getText L (userRecord L u x s) (.at uPass lenPass)) = u.pass := by
  have hpass : getText L (userRecord L u x s) (.at uPass lenPass) = u.pass :=
    getText_field (i := 15) hL rfl (by decide) hu
  rw [hpass]
  split
  case isTrue h =>
    have hold := @getText_userRecord L u x s 16 ⟨.oldpass, u.pass, false, 0⟩ hL rfl (by decide) hu.clean
    rw [h, List.take_nil] at hold
    rw [h]
    exact hold
  case isFalse => rfl

theorem findXedit_field (hL : L.Valid) (hx : FitsIn 8 x) :
    findXedit cfg (getrec (userRecord L u x s) uXedit 8) = findXedit cfg x :=
  congrArg (findXedit cfg)
    (@getText_field L u x s 66 hL (.at uXedit 8) x true 0 rfl (by decide) hx)

theorem findShell_field (hL : L.Valid) (hs : FitsIn 8 s) :
    findShell cfg (getrec (userRecord L u x s) uShell 8) = findShell cfg s :=
  congrArg (findShell cfg)
    (@getText_field L u x s 67 hL (.at uShell 8) s true 0 rfl (by decide) hs)

theorem getTmpext_field (hL : L.Valid) (hu : FitsIn 3 u.tmpext)
    (hne : u.tmpext ≠ [] ∧ u.tmpext ≠ [48]) :
    readTmpext cfg (getrec (userRecord L u x s) uTmpext 3) = u.tmpext := by
  have hread := @getText_field L u x s 69 hL (.at uTmpext 3) u.tmpext true 0 rfl (by decide) hu
  exact (congrArg (readTmpext cfg) hread).trans (readTmpext_of_ne hne)

theorem getLevel_field (hL : L.Valid) (hu : u.level ≤ 99) :
    UInt8.ofInt (atoi (getrec (userRecord L u x s) uLevel 2)) = u.level := by
  have hle := UInt8.le_iff_toNat_le.mp hu
  rw [@getrec_decField L u x s 45 hL _ _ u.level.toNat rfl (by decide) (by decide)
    (Nat.lt_succ_of_le hle), atoi_ultoa]
  simp

theorem getRows_field (hL : L.Valid) (hu : u.rows = 0 ∨ (10 ≤ u.rows ∧ u.rows ≤ 99)) :
    readRows (getrec (userRecord L u x s) uRows 2) = u.rows := by
  have hle : u.rows.toNat ≤ 99 := by
    rcases hu with h | h
    · rw [h]
      decide
    · exact UInt8.le_iff_toNat_le.mp h.2
  rw [@getrec_decField L u x s 52 hL _ _ u.rows.toNat rfl (by decide) (by decide)
    (Nat.lt_succ_of_le hle)]
  exact readRows_ultoa hu

theorem getSex_field (hL : L.Valid) (hu : 32 ≤ u.sex) :
    (if (userRecord L u x s).getD uSex 0 = 0 then 32
      else (userRecord L u x s).getD uSex 0) = u.sex := by
  rw [@getChar_field L u x s 53 hL uSex u.sex rfl (by decide)]
  refine if_neg fun h ↦ ?_
  rw [h] at hu
  exact absurd hu (by decide)

theorem getProt_field (hL : L.Valid) (hu : 32 ≤ u.prot) :
    (if (userRecord L u x s).getD uProt 0 < 32 then 32
      else (userRecord L u x s).getD uProt 0) = u.prot := by
  rw [@getChar_field L u x s 54 hL uProt u.prot rfl (by decide)]
  exact if_neg (UInt8.not_lt.mpr hu)

theorem getLeech_field (hL : L.Valid) :
    UInt8.ofNat (ahtoul (getrec (userRecord L u x s) uLeech 2)) = u.leech := by
  have hlt := u.leech.toNat_lt
  rw [@getrec_hexField L u x s 56 hL _ _ u.leech.toNat rfl (by decide) (by decide) (by omega),
    ahtoul_ultoa, Nat.mod_eq_of_lt (by omega)]
  exact UInt8.ofNat_toNat

theorem getMisc_field (hL : L.Valid) (hmisc : u.misc.toNat < 2 ^ 32)
    (hrest : u.rest.toNat < 2 ^ 32) :
    readMisc (getrec (userRecord L u x s) uMisc 8) (getHex64 (userRecord L u x s) uRest) =
      if hasBit u.rest (flag 81) then u.misc &&& ~~~spin else u.misc := by
  have hread : UInt64.ofNat (ahtoul (getrec (userRecord L u x s) uMisc 8)) = u.misc :=
    getHex64_field (i := 55) hL hmisc rfl (by decide)
  rw [readMisc, hread, getHex64_field (i := 50) hL hrest rfl (by decide)]

theorem getQwk_field (hL : L.Valid) (hu : u.qwk.toNat < 2 ^ 32) (rest : UInt64) :
    readQwk (getrec (userRecord L u x s) uQwk 8) rest = u.qwk := by
  rw [@getrec_hexField L u x s 68 hL _ _ u.qwk.toNat rfl (by decide) (by decide) (by omega)]
  exact readQwk_ultoa hu _

/-- The whole record is read back, except for the phone number and times before 1970. -/
theorem readuser_userRecord (hL : L.Valid) (hu : u.Fits L cfg) (hx : FitsIn 8 x)
    (hs : FitsIn 8 s) :
    readuser L cfg (userRecord L u x s) u.number = stored cfg u x s := by
  obtain ⟨hmisc, hqwk, hchat, hflags1, hflags2, hflags3, hflags4, hexempt, hrest, hulb, hdlb, hcdt,
    hmin, hfreecdt, -⟩ := by simpa only [List.forall_mem_cons] using hu.words
  rw [readuser, stored, UserRecord.mk.injEq]
  exact ⟨
    rfl,
    getDec16_field (i := 39) hL rfl (by decide),
    getDec16_field (i := 41) hL rfl (by decide),
    getDec16_field (i := 32) hL rfl (by decide),
    getDec16_field (i := 33) hL rfl (by decide),
    getDec16_field (i := 34) hL rfl (by decide),
    getDec16_field (i := 35) hL rfl (by decide),
    getDec16_field (i := 36) hL rfl (by decide),
    getDec16_field (i := 28) hL rfl (by decide),
    getDec16_field (i := 29) hL rfl (by decide),
    getDec16_field (i := 26) hL rfl (by decide),
    getDec16_field (i := 30) hL rfl (by decide),
    getDec16_field (i := 31) hL rfl (by decide),
    getDec16_field (i := 27) hL rfl (by decide),
    findXedit_field hL hx,
    findShell_field hL hs,
    getText_field (i := 0) hL rfl (by decide) hu.alias_,
    getText_field (i := 1) hL rfl (by decide) hu.name,
    getText_field (i := 2) hL rfl (by decide) hu.handle,
    getText_field (i := 5) hL rfl (by decide) hu.comp,
    getText_field (i := 4) hL rfl (by decide) hu.note,
    getText_field (i := 11) hL rfl (by decide) hu.address,
    getText_field (i := 12) hL rfl (by decide) hu.location,
    getText_field (i := 13) hL rfl (by decide) hu.zipcode,
    getPass_field hL hu.pass,
    getText_field (i := 18) hL rfl (by decide) hu.birth,
    getText_phone hL,
    getText_field (i := 19) hL rfl (by decide) hu.modem,
    getText_field (i := 20) hL rfl (by decide) hu.ipaddr,
    getText_field (i := 9) hL rfl (by decide) hu.netmail,
    getTmpext_field hL hu.tmpext hu.tmpext_ne,
    getText_field (i := 7) hL rfl (by decide) hu.comment,
    getText_field (i := 57) hL rfl (by decide) hu.cursub,
    getText_field (i := 58) hL rfl (by decide) hu.curdir,
    getText_field (i := 59) hL rfl (by decide) hu.curxtrn,
    getLevel_field hL hu.level,
    getSex_field hL hu.sex.1,
    getRows_field hL hu.rows,
    getProt_field hL hu.prot.1,
    getLeech_field hL,
    getMisc_field hL hmisc hrest,
    getQwk_field hL hqwk _,
    getHex64_field (i := 70) hL hchat rfl (by decide),
    getHex64_field (i := 46) hL hflags1 rfl (by decide),
    getHex64_field (i := 48) hL hflags2 rfl (by decide),
    getHex64_field (i := 64) hL hflags3 rfl (by decide),
    getHex64_field (i := 65) hL hflags4 rfl (by decide),
    getHex64_field (i := 49) hL hexempt rfl (by decide),
    getHex64_field (i := 50) hL hrest rfl (by decide),
    getDec64_field (i := 38) hL hulb rfl (by decide),
    getDec64_field (i := 40) hL hdlb rfl (by decide),
    getDec64_field (i := 42) hL hcdt rfl (by decide),
    getDec64_field (i := 43) hL hmin rfl (by decide),
    getDec64_field (i := 63) hL hfreecdt rfl (by decide),
    getTime_field (i := 22) hL rfl (by decide),
    getTime_field (i := 21) hL rfl (by decide),
    getTime_field (i := 23) hL rfl (by decide),
    getTime_field (i := 24) hL rfl (by decide),
    readNsTime_field hL hu.nsTime _,
    getTime_field (i := 72) hL rfl (by decide)⟩

/-! ## Codes -/

/-- No code in front of the code `i` is equal to it, when case is ignored. -/
def FirstCode (codes : List Code) (i : ℕ) : Prop :=
  ∀ j < i, ∀ a ∈ codes[j]?, ∀ b ∈ codes[i]?, stricmp b.text a.text = false

theorem stricmp_self (a : Str) : stricmp a a = true := beq_self_eq_true _

theorem Code.fitsIn (code : Code) : FitsIn 8 code.text := ⟨code.length_le, code.clean⟩

theorem findIdx_code {codes : List Code} {i : ℕ} (hi : i < codes.length) :
    codes.findIdx (fun code ↦ stricmp codes[i].text code.text) = i ↔ FirstCode codes i := by
  rw [List.findIdx_eq hi, and_iff_right (stricmp_self _)]
  constructor
  · intro h j hj a ha b hb
    obtain ⟨-, rfl⟩ := List.getElem?_eq_some_iff.mp ha
    obtain ⟨-, rfl⟩ := List.getElem?_eq_some_iff.mp hb
    exact h j hj
  · intro h j hj
    exact h j hj _ (List.getElem?_eq_getElem (hj.trans hi)) _ (List.getElem?_eq_getElem hi)

theorem findIdx_code_lt {codes : List Code} {i : ℕ} (hi : i < codes.length) :
    codes.findIdx (fun code ↦ stricmp codes[i].text code.text) < codes.length :=
  List.findIdx_lt_length_of_exists ⟨_, List.getElem_mem hi, stricmp_self _⟩

/-- The shell of a user is found again if it is the first with its code. -/
theorem findShell_eq_iff (hshell : shellCode cfg u.shell = some s) :
    findShell cfg s = u.shell ↔ FirstCode cfg.shells u.shell.toNat := by
  obtain ⟨code, hcode, rfl⟩ := Option.map_eq_some_iff.mp hshell
  obtain ⟨hi, rfl⟩ := List.getElem?_eq_some_iff.mp hcode
  have hlt := findIdx_code_lt hi
  have hbound := cfg.shells_lt
  rw [← findIdx_code hi, findShell, if_neg hlt.ne, ← UInt16.toNat_inj, UInt16.toNat_ofNat',
    Nat.mod_eq_of_lt (hlt.trans hbound)]

theorem findXedit_none : findXedit cfg [] = 0 := by
  have hnone : ∀ code ∈ cfg.xedits, ¬ stricmp [] code.text = true := by
    intro code _ h
    have hlen := congrArg List.length (beq_iff_eq.mp h)
    rw [Smblib.strlwr, Smblib.strlwr, List.length_map, List.length_map] at hlen
    exact code.ne_nil (List.length_eq_zero_iff.mp hlen.symm)
  have hidx : cfg.xedits.findIdx (fun code ↦ stricmp [] code.text) = cfg.xedits.length :=
    List.findIdx_eq_length.mpr fun code hcode ↦ Bool.eq_false_iff.mpr (hnone code hcode)
  rw [findXedit, hidx]
  have hbound := cfg.xedits_lt
  rcases Nat.lt_or_eq_of_le (Nat.succ_le_of_lt hbound) with h | h
  · refine if_pos ?_
    rw [UInt16.toNat_ofNat', Nat.mod_eq_of_lt h]
    exact Nat.lt_succ_self _
  · have hlen : cfg.xedits.length + 1 = 2 ^ 16 := h
    rw [hlen]
    rfl

theorem findXedit_eq_iff (hxedit : xeditCode cfg u.xedit = some x) :
    findXedit cfg x = u.xedit ↔
      (u.xedit ≠ 0 → FirstCode cfg.xedits (u.xedit.toNat - 1)) := by
  by_cases hzero : u.xedit = 0
  · rw [xeditCode, if_neg (not_not.mpr hzero)] at hxedit
    cases hxedit
    rw [findXedit_none, hzero]
    simp
  · rw [xeditCode, if_pos hzero] at hxedit
    obtain ⟨code, hcode, rfl⟩ := Option.map_eq_some_iff.mp hxedit
    obtain ⟨hi, rfl⟩ := List.getElem?_eq_some_iff.mp hcode
    have hlt := findIdx_code_lt hi
    have hbound := cfg.xedits_lt
    have hpos : u.xedit.toNat ≠ 0 := fun h ↦ hzero (UInt16.toNat_inj.mp h)
    rw [imp_iff_right hzero, ← findIdx_code hi, findXedit]
    generalize cfg.xedits.findIdx _ = idx at hlt ⊢
    have hnat : (UInt16.ofNat (idx + 1)).toNat = idx + 1 := by
      rw [UInt16.toNat_ofNat', Nat.mod_eq_of_lt (by omega)]
    rw [hnat, if_neg (by omega), ← UInt16.toNat_inj, hnat]
    omega

/-! ## The round trip -/

/-- The user as the round trip is meant to keep him: users with the Q restriction have no
spinning cursor. -/
def kept (u : UserRecord) : UserRecord :=
  { u with misc := if hasBit u.rest (flag 81) then u.misc &&& ~~~spin else u.misc }

/-- Every column of a field still holds what was put there. -/
def Undamaged (L : Layout) (b : List UInt8) (ws : List Write) : Prop :=
  ∀ w ∈ ws, w.field = true → getText L b w.column = w.text.take (w.column.len L)

def UserRecord.times (u : UserRecord) : List Int32 :=
  [u.laston, u.firston, u.expire, u.pwmod, u.logontime]

theorem keptTime_eq_iff (t : Int32) : keptTime t = t ↔ 0 ≤ t.toInt ∨ t = -1 := by
  rw [keptTime]
  split
  case isTrue h => exact ⟨fun _ ↦ .inl h, fun _ ↦ rfl⟩
  case isFalse h => exact ⟨fun heq ↦ .inr heq.symm, fun hor ↦ (hor.resolve_left h).symm⟩

theorem stored_eq_kept_iff (hxedit : xeditCode cfg u.xedit = some x)
    (hshell : shellCode cfg u.shell = some s) :
    stored cfg u x s = kept u ↔ u.phone = [] ∧ (∀ t ∈ u.times, 0 ≤ t.toInt ∨ t = -1) ∧
      (u.xedit ≠ 0 → FirstCode cfg.xedits (u.xedit.toNat - 1)) ∧
      FirstCode cfg.shells u.shell.toNat := by
  rw [← findXedit_eq_iff hxedit, ← findShell_eq_iff hshell, stored, kept, UserRecord.mk.injEq]
  simp only [UserRecord.times, List.forall_mem_cons, List.not_mem_nil, false_imp_iff, implies_true,
    and_true, true_and, keptTime_eq_iff]
  constructor
  · rintro ⟨hx, hs, hphone, hfirston, hlaston, hexpire, hpwmod, hlogontime⟩
    exact ⟨hphone.symm, ⟨hlaston, hfirston, hexpire, hpwmod, hlogontime⟩, hx, hs⟩
  · rintro ⟨hphone, ⟨hlaston, hfirston, hexpire, hpwmod, hlogontime⟩, hx, hs⟩
    exact ⟨hx, hs, hphone.symm, hfirston, hlaston, hexpire, hpwmod, hlogontime⟩

/-- What a parsed record has in common with its columns. -/
theorem parseuserdat_eq {b : List UInt8} {clock : Clock} {n : UInt16} {v : UserRecord}
    (h : parseuserdat L cfg b clock n = some v) :
    v = readuser L cfg b n ∨ resetdailyuserdat cfg (readuser L cfg b n) = some v := by
  rw [parseuserdat] at h
  split at h
  · exact nomatch h
  · dsimp only at h
    split at h
    · exact .inr h
    · exact .inl (Option.some_injective _ h).symm

/-- A reset leaves what the round trip may lose alone. -/
theorem stored_of_reset {v : UserRecord}
    (h : resetdailyuserdat cfg (stored cfg u x s) = some v) :
    v.phone = [] ∧ v.times = (stored cfg u x s).times ∧ v.xedit = findXedit cfg x ∧
      v.shell = findShell cfg s := by
  obtain ⟨freecdt, -, rfl⟩ := Option.map_eq_some_iff.mp h
  exact ⟨rfl, rfl, rfl, rfl⟩

theorem clean_of_field (hu : u.Fits L cfg) (hx : FitsIn 8 x) (hs : FitsIn 8 s) :
    ∀ w ∈ userWrites u x s, w.field = true → Clean w.text := by
  have hchar : ∀ c : UInt8, 32 ≤ c → Clean [c] := by
    intro c hc a ha
    rw [List.mem_singleton.mp ha]
    have hall : ∀ c : UInt8, 32 ≤ c → endsField c = false ∧ c ≠ 0 :=
      Words.forall_uint8 (by decide +kernel)
    exact hall c hc
  simp only [userWrites, textField, decField, hexField, timeField, charField, lineEnd,
    List.forall_mem_cons, List.not_mem_nil, false_imp_iff, implies_true, Bool.false_eq_true,
    forall_true_left, clean_ultoa_ten, clean_ultoa_sixteen, true_and, and_true]
  exact ⟨hu.alias_.clean, hu.name.clean, hu.handle.clean, hu.note.clean, hu.comp.clean,
    hu.comment.clean, hu.netmail.clean, hu.address.clean, hu.location.clean, hu.zipcode.clean,
    hu.pass.clean, hu.phone.clean, hu.birth.clean, hu.modem.clean, hu.ipaddr.clean,
    hchar _ hu.sex.1, hchar _ hu.prot.1, hu.cursub.clean, hu.curdir.clean, hu.curxtrn.clean,
    hx.clean, hs.clean, hu.tmpext.clean⟩

theorem undamaged (hL : L.Valid) (hu : u.Fits L cfg) (hx : FitsIn 8 x) (hs : FitsIn 8 s)
    (hphone : u.phone = []) : Undamaged L (userRecord L u x s) (userWrites u x s) := by
  intro w hw hfield
  obtain ⟨i, hi⟩ := List.mem_iff_getElem?.mp hw
  by_cases hne : i = phoneWrite
  · subst hne
    obtain rfl : textField uPhone lenPhone u.phone = w := Option.some_injective _ hi
    rw [textField, hphone]
    exact getText_phone hL
  · exact getText_userRecord hL hi hne (clean_of_field hu hx hs w hw hfield)

theorem xeditCode_fitsIn (hxedit : xeditCode cfg u.xedit = some x) : FitsIn 8 x := by
  rw [xeditCode] at hxedit
  split at hxedit
  · obtain ⟨code, -, rfl⟩ := Option.map_eq_some_iff.mp hxedit
    exact code.fitsIn
  · cases hxedit
    exact ⟨Nat.zero_le _, fun c hc ↦ nomatch hc⟩

theorem exists_xeditCode (hu : u.xedit.toNat ≤ cfg.xedits.length) :
    ∃ x, xeditCode cfg u.xedit = some x := by
  rw [xeditCode]
  split
  case isTrue h =>
    have hpos : u.xedit.toNat ≠ 0 := fun h0 ↦ h (UInt16.toNat_inj.mp h0)
    rw [List.getElem?_eq_getElem (by omega)]
    exact ⟨_, rfl⟩
  case isFalse => exact ⟨_, rfl⟩

/-- A user is read back as he was written, with no column damaged, exactly when he has no phone
number and no time before 1970 but the last second, and his editor and his shell are the first
ones with their codes. -/
theorem userdat_roundTrip {clock : Clock} (hL : L.Valid) (hu : u.Fits L cfg)
    (hday : sameDay clock u.logontime = true) :
    (∃ x s, xeditCode cfg u.xedit = some x ∧ shellCode cfg u.shell = some s ∧
      putuserdat L cfg u = some (userRecord L u x s) ∧
      parseuserdat L cfg (userRecord L u x s) clock u.number = some (kept u) ∧
      Undamaged L (userRecord L u x s) (userWrites u x s)) ↔
    u.phone = [] ∧ (∀ t ∈ u.times, 0 ≤ t.toInt ∨ t = -1) ∧
      (u.xedit ≠ 0 → FirstCode cfg.xedits (u.xedit.toNat - 1)) ∧
      FirstCode cfg.shells u.shell.toNat := by
  have hnumber : ¬ u.number < 1 := UInt16.not_lt.mpr hu.number
  constructor
  · rintro ⟨x, s, hxedit, hshell, -, hparse, -⟩
    obtain ⟨code, -, rfl⟩ := Option.map_eq_some_iff.mp hshell
    have hread := readuser_userRecord hL hu (xeditCode_fitsIn hxedit) code.fitsIn
    refine (stored_eq_kept_iff hxedit hshell).mp ?_
    rcases parseuserdat_eq hparse with heq | hreset
    · rw [← hread, heq]
    · rw [hread] at hreset
      obtain ⟨hphone, htimes, hx, hs⟩ := stored_of_reset hreset
      simp only [UserRecord.times, stored, kept, List.cons.injEq, and_true] at htimes
      obtain ⟨hlaston, hfirston, hexpire, hpwmod, hlogontime⟩ := htimes
      rw [stored, kept, ← hlaston, ← hfirston, ← hexpire, ← hpwmod, ← hlogontime, ← hx, ← hs]
      rw [kept] at hphone
      rw [← hphone]
      rfl
  · intro hcond
    obtain ⟨x, hxedit⟩ := exists_xeditCode hu.xedit
    obtain ⟨code, hcode⟩ : ∃ code, cfg.shells[u.shell.toNat]? = some code :=
      ⟨_, List.getElem?_eq_getElem hu.shell⟩
    have hshell : shellCode cfg u.shell = some code.text := by
      rw [shellCode, hcode]
      rfl
    have hx := xeditCode_fitsIn hxedit
    have hs := code.fitsIn
    have hstored := (stored_eq_kept_iff hxedit hshell).mpr hcond
    have hread := readuser_userRecord hL hu hx hs
    refine ⟨x, _, hxedit, hshell, ?_, ?_, undamaged hL hu hx hs hcond.1⟩
    · rw [putuserdat, if_neg hnumber, hxedit, hshell]
      rfl
    · rw [parseuserdat, if_neg hnumber]
      dsimp only
      rw [hread, hstored]
      exact if_neg fun h ↦ by simp [kept, hday] at h

/-! A configuration with one editor and one shell, and columns for the two fields where
sbbsdefs.h has columns that are not used. -/

def spareLayout : Layout := ⟨uMainCmd, 8, uMailCmd, 38⟩

def plainCode : Code := ⟨[65], by decide, by decide, by decide⟩

def plainConfig : Config := { xedits := [plainCode], shells := [plainCode] }

/-- A user with a phone number. -/
def caller (phone : Str) : UserRecord :=
  { number := 1, phone, level := 50, rows := 24, sex := 77, prot := 90, tmpext := [90, 73, 80]
    nsTime := 0x20000000, xedit := 1 }

theorem spareLayout_valid : spareLayout.Valid where
  oldpass_le := by decide
  ipaddr_le := by decide
  apart := by decide
  oldpass := by decide +kernel
  ipaddr := by decide +kernel

theorem fitsIn_nil (n : ℕ) : FitsIn n [] := ⟨Nat.zero_le n, fun _ hc ↦ nomatch hc⟩

theorem firstCode_zero (codes : List Code) : FirstCode codes 0 :=
  fun j hj ↦ absurd hj (Nat.not_lt_zero j)

theorem caller_fits {phone : Str} (h : FitsIn lenPhone phone) :
    (caller phone).Fits spareLayout plainConfig where
  number := (by decide : (1 : UInt16) ≤ 1)
  alias_ := fitsIn_nil _
  name := fitsIn_nil _
  handle := fitsIn_nil _
  comp := fitsIn_nil _
  note := fitsIn_nil _
  address := fitsIn_nil _
  location := fitsIn_nil _
  zipcode := fitsIn_nil _
  pass := fitsIn_nil _
  birth := fitsIn_nil _
  phone := h
  modem := fitsIn_nil _
  ipaddr := fitsIn_nil _
  netmail := fitsIn_nil _
  tmpext := ⟨(by decide : 3 ≤ 3),
    (by decide : ∀ c ∈ ([90, 73, 80] : Str), endsField c = false ∧ c ≠ 0)⟩
  comment := fitsIn_nil _
  cursub := fitsIn_nil _
  curdir := fitsIn_nil _
  curxtrn := fitsIn_nil _
  tmpext_ne := (by decide : ([90, 73, 80] : Str) ≠ [] ∧ ([90, 73, 80] : Str) ≠ [48])
  level := (by decide : (50 : UInt8) ≤ 99)
  rows := (by decide : (24 : UInt8) = 0 ∨ (10 ≤ (24 : UInt8) ∧ (24 : UInt8) ≤ 99))
  sex := (by decide : 32 ≤ (77 : UInt8) ∧ (77 : UInt8) ≤ 126)
  prot := (by decide : 32 ≤ (90 : UInt8) ∧ (90 : UInt8) ≤ 126)
  words := fun n (hn : n ∈ List.replicate 14 0) ↦ by
    rw [List.eq_of_mem_replicate hn]
    decide
  nsTime := (by decide : 0x20000000 ≤ (0x20000000 : Int32).toInt)
  xedit := (by decide : (1 : UInt16).toNat ≤ 1)
  shell := (by decide : (0 : UInt16).toNat < 1)

theorem caller_times : ∀ t ∈ (caller []).times, 0 ≤ t.toInt ∨ t = -1 := by
  simp only [UserRecord.times, caller, List.forall_mem_cons, List.not_mem_nil, false_implies,
    implies_true, and_true]
  decide

theorem userdat_roundTrip_caller :
    ∃ x s, xeditCode plainConfig 1 = some x ∧ shellCode plainConfig 0 = some s ∧
      putuserdat spareLayout plainConfig (caller []) =
        some (userRecord spareLayout (caller []) x s) ∧
      parseuserdat spareLayout plainConfig (userRecord spareLayout (caller []) x s)
        ⟨0, fun _ ↦ none⟩ 1 = some (kept (caller [])) ∧
      Undamaged spareLayout (userRecord spareLayout (caller []) x s)
        (userWrites (caller []) x s) :=
  (userdat_roundTrip spareLayout_valid (caller_fits (fitsIn_nil _)) rfl).mpr
    ⟨rfl, caller_times, fun _ ↦ firstCode_zero _, firstCode_zero _⟩

/-- The phone number `5` is lost. -/
theorem parseuserdat_phone :
    (caller [53]).Fits spareLayout plainConfig ∧
      (putuserdat spareLayout plainConfig (caller [53])).isSome ∧
      ((putuserdat spareLayout plainConfig (caller [53])).bind fun b ↦
        parseuserdat spareLayout plainConfig b ⟨0, fun _ ↦ none⟩ 1) ≠ some (kept (caller [53])) := by
  have hfits := @caller_fits [53] ⟨by decide, by simp [Clean, endsField, etx]⟩
  have hput : putuserdat spareLayout plainConfig (caller [53]) =
      some (userRecord spareLayout (caller [53]) [65] [65]) := rfl
  refine ⟨hfits, by rw [hput]; rfl, fun hparse ↦ ?_⟩
  rw [hput, Option.bind_some] at hparse
  have hread := readuser_userRecord spareLayout_valid hfits plainCode.fitsIn plainCode.fitsIn
  have hphone : (kept (caller [53])).phone = [] := by
    rcases parseuserdat_eq hparse with heq | hreset
    · exact (congrArg UserRecord.phone (heq.trans hread))
    · exact (stored_of_reset (hread ▸ hreset)).1
  exact absurd hphone (by decide)

end Synchronet.Sbbs3
