import Synchronet.Lib.Records
import Synchronet.Lib.LittleEndian
import Synchronet.Sbbs3.DatRec
import Synchronet.Sbbs3.Ars
import Synchronet.Xpdev.Genwrap

/-!
# File directories (filedat.c)

A directory has two files: the DAT file, with a slot of text for each file, and the IXB
file, with a short record for each file that names its slot.  A slot whose first byte is ETX
is free.  The access itself (opening the files, the time stamp in the DAB file, the list of
files that wait for a user) is left out.
-/

namespace Synchronet.Sbbs3

open RecordFile Records LittleEndian
open Smblib (cstr)
open Xpdev (stricmp)

def lenFcdt : ℕ := 9
def lenFdesc : ℕ := 58
def maxFiles : ℕ := 10000

/-! The columns of a slot. -/

def fCdt : ℕ := 0
def fDesc : ℕ := fCdt + lenFcdt
def fUler : ℕ := fDesc + lenFdesc + 2
def fTimesdled : ℕ := fUler + 30 + 2
def fOpencount : ℕ := fTimesdled + 5 + 2
def fMisc : ℕ := fOpencount + 3 + 2
def fAltpath : ℕ := fMisc + 1
def fLen : ℕ := fAltpath + 2 + 2

def fIxbsize : ℕ := 22

/-- The order of a directory. -/
inductive DirSort
  | nameA
  | nameD
  | dateA
  | dateD
  deriving DecidableEq

/-- A file name that `padfname` has padded to `FILENAME.EXT`. -/
structure FileName where
  chars : List UInt8
  length_chars : chars.length = 12
  noNul : (0 : UInt8) ∉ chars

/-- The part of a `file_t` that is kept in a directory. -/
structure File where
  name : FileName
  desc : List UInt8 := []
  uler : List UInt8 := []
  opencount : UInt8 := 0
  dateuled : Int32 := 0
  datedled : Int32 := 0
  altpath : UInt16 := 0
  timesdled : UInt16 := 0
  datoffset : ℕ := 0
  misc : UInt32 := 0
  cdt : UInt32 := 0

structure FileDir where
  sort : DirSort
  dat : List UInt8 := []
  ixb : List UInt8 := []

/-! ## The DAT file -/

/-- Two digits for a number up to 575. -/
def hexplus (num : ℕ) : List UInt8 :=
  let digits := ultoa num 16
  let str := List.replicate (3 - digits.length) 48 ++ digits
  let first := if num / 0x100 ≠ 0 then UInt8.ofNat (102 + num / 0x10 - 0xf) else str.getD 1 0
  cstr [first, str.getD 2 0]

/-- The text of a slot. -/
def fdat (f : File) : List UInt8 :=
  let b := List.replicate fLen 0
  let b := putrec b fCdt lenFcdt (ultoa f.cdt.toNat 10)
  let b := putrec b fDesc lenFdesc f.desc
  let b := putrec b (fDesc + lenFdesc) 2 crlf
  let b := putrec b fUler (lenAlias + 5) f.uler
  let b := putrec b (fUler + lenAlias + 5) 2 crlf
  let b := putrec b fTimesdled 5 (ultoa f.timesdled.toNat 10)
  let b := putrec b (fTimesdled + 5) 2 crlf
  let b := putrec b fOpencount 3 (ultoa f.opencount.toNat 10)
  let b := putrec b (fOpencount + 3) 2 crlf
  let b := b.set fMisc (f.misc.toUInt8 + 32)
  let b := putrec b fAltpath 2 (hexplus f.altpath.toNat)
  putrec b (fAltpath + 2) 2 crlf

/-- The place of the first free slot. -/
def freeSlot (dat : List UInt8) : ℕ :=
  (records fLen dat).findIdx (fun r ↦ r.head? = some etx) * fLen

/-! ## The IXB file -/

/-- `fname`: the dot of `FILENAME.EXT` is taken out, so that the array ends in two zeros. -/
def indexName (name : FileName) : List UInt8 :=
  let fname := (name.chars ++ List.replicate 13 0).take 12 ++ [0]
  fname.take 8 ++ (fname.drop 9).take 4 ++ fname.drop 12

/-- `toupper` of a `char`: its table has the values of the unsigned characters also in front
of zero, up to `EOF`. -/
def toupperChar (c : UInt8) : ℤ := if c = 0xff then -1 else (toupper c).toNat

/-- Where the loop over twelve characters of a name and a record stops. -/
def nameScan (fname rec : List UInt8) : ℕ :=
  (((fname.take 12).zip (rec.take 12)).takeWhile fun p ↦
    toupperChar p.1 = (toupper p.2).toNat).length

/-- The new record goes in front of `rec`, which differs from it in the character `i`. -/
def goesBefore (sort : DirSort) (fname rec : List UInt8) (i : ℕ) : Bool :=
  (sort = .nameA && toupperChar (fname.getD i 0) < (toupper (rec.getD i 0)).toNat) ||
    (sort = .nameD && toupperChar (fname.getD i 0) > (toupper (rec.getD i 0)).toNat)

/-- The place of a new record in an index sorted by name, `none` for a name that is there. -/
def nameLoop (sort : DirSort) (fname : List UInt8) : List (List UInt8) → Option ℕ
  | [] => some 0
  | r :: rs =>
      let i := nameScan fname r
      if i = 12 then none
      else if goesBefore sort fname r i then some 0
      else (nameLoop sort fname rs).map (· + 1)

/-- The place of a new record in an index sorted by date. -/
def dateLoop (sort : DirSort) (dateuled : Int32) (rs : List (List UInt8)) : ℕ :=
  rs.findIdx fun r ↦
    (sort = .dateA && dateuled.toInt < field r 14 4) ||
      (sort = .dateD && dateuled.toInt > field r 14 4)

def ixbPlace (sort : DirSort) (f : File) (rs : List (List UInt8)) : Option ℕ :=
  if sort = .nameA ∨ sort = .nameD then nameLoop sort (indexName f.name) rs
  else some (dateLoop sort f.dateuled rs)

/-- The index record of a file. -/
def ixbRecord (f : File) : List UInt8 :=
  (indexName f.name).take 11 ++ (le 3 f.datoffset ++
    (le 4 f.dateuled.toUInt32.toNat ++ le 4 f.datedled.toUInt32.toNat))

/-- The IXB file with a new record, `none` where `addfiledat` gives up. -/
def addixb (sort : DirSort) (f : File) (ixb : List UInt8) : Option (List UInt8) :=
  if ixb.length % fIxbsize ≠ 0 then none
  else
    (ixbPlace sort f (records fIxbsize ixb)).map fun k ↦
      writeAt 0 ixb (k * fIxbsize) (ixbRecord f ++ ixb.drop (k * fIxbsize))

def addfiledat (f : File) (d : FileDir) : Bool × File × FileDir :=
  let l := freeSlot d.dat
  if d.dat.length % fLen ≠ 0 ∨ (d.dat ≠ [] ∧ maxFiles ≤ l / fLen) then (false, f, d)
  else
    let f := { f with datoffset := l }
    let d := { d with dat := writeAt 0 d.dat l (fdat f) }
    if d.dat.length % fLen ≠ 0 then (false, f, d)
    else
      match addixb d.sort f d.ixb with
      | none => (false, f, d)
      | some ixb => (true, f, { d with ixb })

/-- What `%11.11s` prints of a record. -/
def printedName (rec : List UInt8) : List UInt8 :=
  let s := (cstr rec).take 11
  List.replicate (11 - s.length) 32 ++ s

/-- The offset of its slot in a record. -/
def recOffset (rec : List UInt8) : ℕ := field rec 11 3

def getfileixb (f : File) (d : FileDir) : Option File :=
  if d.ixb.length % fIxbsize ≠ 0 then none
  else
    let found := (records fIxbsize d.ixb).find? fun r ↦
      stricmp (printedName r) (cstr (indexName f.name))
    found.map fun r ↦
      { f with
        datoffset := recOffset r
        dateuled := Int32.ofNat (field r 14 4)
        datedled := Int32.ofNat (field r 18 4) }

/-- `removefiledat`: an index that ends inside a record is read behind its end. -/
def removefiledat (f : File) (d : FileDir) : Option (Bool × FileDir) :=
  if d.ixb = [] then some (false, d)
  else if d.ixb.length % fIxbsize ≠ 0 then none
  else
    let kept := (records fIxbsize d.ixb).filter fun r ↦
      !stricmp (cstr (r.take 11)) (cstr (indexName f.name))
    some (true, { d with ixb := kept.flatten, dat := writeAt 0 d.dat f.datoffset [etx] })

end Synchronet.Sbbs3
