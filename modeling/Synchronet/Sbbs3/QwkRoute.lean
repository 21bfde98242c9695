import Synchronet.Lib.Paths
import Synchronet.Lib.Search
import Synchronet.Lib.Trim
import Synchronet.Xpdev.Ini
import Synchronet.Sbbs3.MsgToQwk

/-!
# The routes to QWKnet nodes (qwk.cpp)

`update_qwkroute` enters each node of a via path with the path that leads to it.  The table is
written to route.dat and read from there again at the next update.
-/

namespace Synchronet.Sbbs3.QwkRoute

open Xpdev (Str stricmp strchr truncsp isdigit fileLines)
open Smblib (cstr atoi)
open MsgToQwk (unsigned2)

/-! ## The functions -/

structure QwkNode where
  id : Str
  path : Str
  time : ℤ
  deriving DecidableEq

def lenQwkid : ℕ := 8

def maxPath : ℕ := 4096

/-- `sprintf` to a field of `size` bytes; none where it writes behind it. -/
def field (size : ℕ) (text : Str) : Option Str := if text.length < size then some text else none

structure Calendar where
  localtime : Int32 → Option Tm
  mktime : Tm → Int32
  euro : Bool

/-- `00/00/00` -/
def zeroDate : Str := [48, 48, 47, 48, 48, 47, 48, 48]

def date (first second third : ℤ) : Str :=
  unsigned2 first ++ 47 :: unsigned2 second ++ 47 :: unsigned2 third

def unixtodstr (cal : Calendar) (t : Int32) : Str :=
  if t = 0 then zeroDate
  else
    match cal.localtime t with
    | none => zeroDate
    | some tm =>
        -- DOS leap year bug
        let year := if 11 < tm.mon then tm.year + 1 else tm.year
        let mon := if 11 < tm.mon then 0 else tm.mon
        let mday := if 31 < tm.mday then 1 else tm.mday
        if cal.euro then date mday (mon + 1) (year.tmod 100)
        else date (mon + 1) mday (year.tmod 100)

/-- Two characters as a number. -/
def twoDigits (p : Str) (i : ℕ) : ℤ :=
  (p.getD i 0 &&& 0xf).toNat * 10 + (p.getD (i + 1) 0 &&& 0xf).toNat

def dateTm (cal : Calendar) (p : Str) : Tm :=
  let year := twoDigits p 6
  let mon := if cal.euro then twoDigits p 3 else twoDigits p 0
  { year := if year < y2k2digitWindow then year + 100 else year
    mon := if mon ≠ 0 then mon - 1 else mon
    mday := if cal.euro then twoDigits p 0 else twoDigits p 3
    isdst := -1 }

def dstrtounix (cal : Calendar) (instr : Str) : Int32 :=
  if instr = [] ∨ instr.take 8 = zeroDate then 0
  else if [0, 1, 3, 4, 6, 7].all fun i ↦ isdigit (instr.getD i 0) then
    cal.mktime (dateTm cal instr)
  else
    -- incorrectly formatted
    let p := instr.dropWhile isdigit
    if p = [] then 0
    else
      let day := p.drop 1
      let p := day.dropWhile isdigit
      if p = [] then 0
      else
        cal.mktime (dateTm cal (date ((atoi instr).tmod 100) ((atoi day).tmod 100)
          ((atoi (p.drop 1)).tmod 100)))

/-- The entry of the node is set, or a new one behind the others. -/
def put (node : QwkNode) : List QwkNode → List QwkNode
  | [] => [node]
  | e :: nodes => if stricmp e.id node.id then node :: nodes else e :: put node nodes

/-- A line of route.dat; none where it ends before the name of the node. -/
def loadLine (cal : Calendar) (nodes : List QwkNode) (line : Str) : Option (List QwkNode) :=
  let str := truncsp (cstr line)
  let t := (dstrtounix cal str).toInt
  match strchr str 58 with
  | none => some nodes
  | some colon => do
      let name ← advance 9 (str.take colon)
      let node := (name.take 8).takeWhile (· ≠ 32)
      if (nodes.find? fun e ↦ stricmp e.id node).any fun e ↦ decide (t < e.time) then return nodes
      let id ← field (lenQwkid + 1) node
      let path ← field (maxPath + 1) ((skipBlanks (str.drop (colon + 1))).take 127)
      return put ⟨id, path, t⟩ nodes

/-- The table as it is read from route.dat. -/
def load (cal : Calendar) (file : Str) : Option (List QwkNode) :=
  (fileLines 256 file).foldlM (loadLine cal) []

/-- Whether an entry is written. -/
def fresh (now : ℤ) (e : QwkNode) : Bool := decide (now - 90 * 24 * 60 * 60 < e.time)

def saveLine (cal : Calendar) (e : QwkNode) : Str :=
  unixtodstr cal (Int32.ofInt e.time) ++ 32 :: e.id ++ 58 :: e.path ++ [13, 10]

/-- The name of the node at `p`. -/
def nodeName (p : Str) : Str :=
  truncsp (((p.take 8).takeWhile (· ≠ 47)).takeWhile (· ≠ 32))

/-- The loop over the nodes of a via path, at `p` behind a slash, with what stands before it. -/
def walk (now : ℤ) (nodes : List QwkNode) (front p : Str) : Option (List QwkNode) := do
  let id ← field (lenQwkid + 1) (nodeName p)
  let path ← field (maxPath + 1) front
  let nodes := put ⟨id, path, now⟩ nodes
  match hslash : strchr p 47 with
  | none => return nodes
  | some i => walk now nodes (front ++ 47 :: p.take i) (p.drop (i + 1))
  termination_by p.length
  decreasing_by
    have hne : p ≠ [] := by
      rintro rfl
      cases hslash
    have hpos := List.length_pos_iff.mpr hne
    rw [List.length_drop]
    omega

def strupr (s : Str) : Str := s.map toupper

/-- The table and route.dat. -/
structure State where
  nodes : List QwkNode
  file : Option Str

/-- The table that an update begins with. -/
def tableOf (cal : Calendar) (s : State) : Option (List QwkNode) :=
  if s.nodes = [] then
    match s.file with
    | none => some []
    | some file => load cal file
  else some s.nodes

def updateQwkroute (cal : Calendar) (now : ℤ) (via : Option Str) (s : State) : Option State :=
  match via with
  | none =>
      if s.nodes = [] then some s
      else some ⟨[], some ((s.nodes.filter (fresh now)).flatMap (saveLine cal))⟩
  | some via => do
      let nodes ← tableOf cal s
      let via := strupr via
      match strchr via 47 with
      | none => return { s with nodes }
      | some uplink =>
          return { s with nodes := ← walk now nodes (via.take uplink) (via.drop (uplink + 1)) }

/-! ## Via paths -/

/-- A via path: the hub, and the nodes behind it. -/
structure Via where
  hub : Str
  hops : List Str

/-- The path to the node behind some hops. -/
def Via.pathTo (v : Via) (front : List Str) : Str := v.hub ++ Paths.render 47 front

def Via.text (v : Via) : Str := v.pathTo v.hops

/-- The name of a node in a via path. -/
structure NodeId (id : Str) : Prop where
  ne_nil : id ≠ []
  length_le : id.length ≤ lenQwkid
  upper : strupr id = id
  plain : ∀ c ∈ id, Smblib.isspace c = false ∧ c ≠ 0 ∧ c ≠ 47

structure Via.Valid (v : Via) : Prop where
  hub : NodeId v.hub
  hops : ∀ id ∈ v.hops, NodeId id
  short : v.text.length < 256

/-- A name and a path that are read from a line of route.dat as they have been written. -/
structure Stored (id path : Str) : Prop where
  colon : 58 ∉ id
  short : path.length ≤ 127
  head : ∀ c ∈ path.head?, belowBlank c = false

/-- All that a via path enters can be stored. -/
def Via.Stored (v : Via) : Prop :=
  ∀ front id back, v.hops = front ++ id :: back → QwkRoute.Stored id (v.pathTo front)

/-- The path to a node in the latest via path in which it is a hop, to where it stands last.
The latest via path comes first. -/
def Latest : List Via → Str → Str → Prop
  | [], _, _ => False
  | v :: older, id, path =>
      (∃ front back, v.hops = front ++ id :: back ∧ id ∉ back ∧ path = v.pathTo front) ∨
        id ∉ v.hops ∧ Latest older id path

/-- The table names each node once, with the path that came last. -/
structure Routes (history : List Via) (nodes : List QwkNode) : Prop where
  unique : nodes.Pairwise fun e f ↦ stricmp e.id f.id = false
  latest : ∀ e ∈ nodes, Latest history e.id e.path

/-! ## A line of route.dat -/

/-- An entry that can be stored. -/
structure Entry (e : QwkNode) : Prop where
  id : NodeId e.id
  stored : Stored e.id e.path
  path_ne : e.path ≠ []
  path : ∀ c ∈ e.path, Smblib.isspace c = false ∧ c ≠ 0

/-- `localtime_r` gives months, days and years that a calendar has. -/
def Calendar.Sound (cal : Calendar) : Prop :=
  ∀ t tm, cal.localtime t = some tm →
    0 ≤ tm.mon ∧ tm.mon ≤ 11 ∧ 1 ≤ tm.mday ∧ tm.mday ≤ 31 ∧ 0 ≤ tm.year

variable {cal : Calendar} {history : List Via} {nodes : List QwkNode} {e : QwkNode} {v : Via}
  {id path front : Str} {now : ℤ}

/-- The characters of a date. -/
def DateChars (text : Str) : Prop := ∀ c ∈ text, 47 ≤ c ∧ c ≤ 57

theorem unsigned2_spec {n : ℤ} (hlow : 0 ≤ n) (hhigh : n < 100) :
    (unsigned2 n).length = 2 ∧ DateChars (unsigned2 n) := by
  have hsmall : (n % 2 ^ 32).toNat < 10 ^ 2 := by omega
  have hle := length_ultoa_le (by decide) (by decide) hsmall
  have hchars : DateChars (ultoa (n % 2 ^ 32).toNat 10) := by
    intro c hc
    obtain ⟨h, h'⟩ := digits_ultoa _ c hc
    exact ⟨UInt8.le_trans (by decide) h, h'⟩
  have hpos : 0 < (ultoa (n % 2 ^ 32).toNat 10).length :=
    List.length_pos_iff.mpr (ultoa_ne_nil _ _)
  rw [unsigned2]
  split
  · refine ⟨by rw [List.length_cons]; omega, ?_⟩
    intro c hc
    rcases List.mem_cons.mp hc with rfl | hc
    · decide
    · exact hchars c hc
  · exact ⟨by omega, hchars⟩

theorem date_spec {a b c : ℤ} (ha : 0 ≤ a ∧ a < 100) (hb : 0 ≤ b ∧ b < 100)
    (hc : 0 ≤ c ∧ c < 100) : (date a b c).length = 8 ∧ DateChars (date a b c) := by
  obtain ⟨hlena, ha⟩ := unsigned2_spec ha.1 ha.2
  obtain ⟨hlenb, hb⟩ := unsigned2_spec hb.1 hb.2
  obtain ⟨hlenc, hc⟩ := unsigned2_spec hc.1 hc.2
  constructor
  · simp only [date, List.length_append, List.length_cons, hlena, hlenb, hlenc]
  · intro d hd
    simp only [date, List.mem_append, List.mem_cons] at hd
    rcases hd with (hd | rfl | hd) | rfl | hd
    · exact ha d hd
    · decide
    · exact hb d hd
    · decide
    · exact hc d hd

theorem unixtodstr_spec (h : cal.Sound) (t : Int32) :
    (unixtodstr cal t).length = 8 ∧ DateChars (unixtodstr cal t) := by
  have hzero : zeroDate.length = 8 ∧ DateChars zeroDate := ⟨rfl, by unfold DateChars; decide⟩
  rw [unixtodstr]
  split
  · exact hzero
  · split
    · exact hzero
    · next tm hlocal =>
      obtain ⟨hmon, hmon', hmday, hmday', hyear⟩ := h t tm hlocal
      have hmod : 0 ≤ tm.year.tmod 100 ∧ tm.year.tmod 100 < 100 := by
        rw [Int.tmod_eq_emod_of_nonneg hyear]
        omega
      simp only [if_neg (not_lt.mpr hmon'), if_neg (not_lt.mpr hmday')]
      split
      · exact date_spec (by omega) (by omega) hmod
      · exact date_spec (by omega) (by omega) hmod

/-- No character of a date ends a line, a date or a name. -/
theorem DateChars.ne {text : Str} (h : DateChars text) {c : UInt8} (hc : c < 47 ∨ 57 < c) :
    c ∉ text := by
  intro hmem
  obtain ⟨hlow, hhigh⟩ := h c hmem
  simp only [UInt8.le_iff_toNat_le, UInt8.lt_iff_toNat_lt] at hlow hhigh hc
  omega

/-- A line without its end. -/
def record (cal : Calendar) (e : QwkNode) : Str :=
  unixtodstr cal (Int32.ofInt e.time) ++ 32 :: e.id ++ 58 :: e.path

theorem saveLine_eq (cal : Calendar) (e : QwkNode) : saveLine cal e = record cal e ++ [13, 10] :=
  rfl

theorem notMem_record (hcal : cal.Sound) (h : Entry e) {c : UInt8} (hc : c = 0 ∨ c = 10) :
    c ∉ record cal e := by
  have hdate := (unixtodstr_spec hcal (Int32.ofInt e.time)).2
  have hspace : Smblib.isspace c = true ∨ c = 0 := by
    rcases hc with rfl | rfl
    · exact .inr rfl
    · exact .inl (by decide)
  have hplain : ∀ s : Str, (∀ d ∈ s, Smblib.isspace d = false ∧ d ≠ 0) → c ∉ s := by
    intro s hs hmem
    obtain ⟨hnot, hne⟩ := hs c hmem
    rcases hspace with hspace | hzero
    · rw [hspace] at hnot
      cases hnot
    · exact hne hzero
  have hid := hplain e.id fun d hd ↦ ⟨(h.id.plain d hd).1, (h.id.plain d hd).2.1⟩
  have hpath := hplain e.path h.path
  have hdate' : c ∉ unixtodstr cal (Int32.ofInt e.time) := by
    apply hdate.ne
    rcases hc with rfl | rfl <;> decide
  have hne : c ≠ 32 ∧ c ≠ 58 := by
    rcases hc with rfl | rfl <;> decide
  simp only [record, List.mem_append, List.mem_cons, not_or]
  exact ⟨⟨hdate', hne.1, hid⟩, hne.2, hpath⟩

theorem length_record (hcal : cal.Sound) (h : Entry e) : (record cal e).length ≤ 145 := by
  have hdate := (unixtodstr_spec hcal (Int32.ofInt e.time)).1
  have hid := h.id.length_le
  have hpath := h.stored.short
  simp only [record, List.length_append, List.length_cons, hdate]
  rw [lenQwkid] at hid
  omega

/-- A line that fits into the buffer is read as a whole. -/
theorem fgets_line {line rest : Str} (hnl : 10 ∉ line) (hlen : line.length < 255) :
    Xpdev.fgets 256 (line ++ 10 :: rest) = some (line ++ [10], rest) := by
  have htake : (line ++ 10 :: rest).take 255 = line ++ 10 :: rest.take (254 - line.length) := by
    obtain ⟨k, hk⟩ : ∃ k, 255 - line.length = k + 1 := ⟨254 - line.length, by omega⟩
    have hk' : 254 - line.length = k := by omega
    rw [List.take_append, List.take_of_length_le hlen.le, hk, List.take_succ_cons, hk']
  have hindex : (line ++ 10 :: rest.take (254 - line.length)).idxOf 10 = line.length := by
    rw [List.idxOf_append_of_notMem hnl, List.idxOf_cons_self, Nat.add_zero]
  have hline : (line ++ 10 :: rest.take (254 - line.length)).take (line.length + 1) =
      line ++ [10] := by
    rw [List.take_append, List.take_of_length_le (Nat.le_succ _), Nat.add_sub_cancel_left]
    rfl
  obtain ⟨c, tail, htext⟩ := List.exists_cons_of_ne_nil
    (List.append_ne_nil_of_right_ne_nil line (List.cons_ne_nil 10 rest))
  rw [htext, Xpdev.fgets, ← htext, htake, hindex, hline]
  · rw [List.length_append, List.length_singleton, ← List.drop_drop, List.drop_left]
    rfl
  · rintro ⟨⟩

theorem fgetsCalls_saved (hcal : cal.Sound) (h : ∀ e ∈ nodes, Entry e) {n : ℕ}
    (hn : nodes.length ≤ n) :
    Xpdev.fgetsCalls 256 n (nodes.flatMap (saveLine cal)) = nodes.map (saveLine cal) := by
  induction nodes generalizing n with
  | nil => cases n <;> rfl
  | cons e nodes ih =>
      obtain ⟨he, hnodes⟩ := List.forall_mem_cons.mp h
      obtain ⟨n, rfl⟩ : ∃ m, n = m + 1 := ⟨n - 1, by rw [List.length_cons] at hn; omega⟩
      have hnl : 10 ∉ record cal e ++ [13] := by
        simpa using notMem_record hcal he (.inr rfl)
      have hlen : (record cal e ++ [13]).length < 255 := by
        have hle := length_record hcal he
        rw [List.length_append, List.length_singleton]
        omega
      have hsplit : (e :: nodes).flatMap (saveLine cal) =
          record cal e ++ [13] ++ 10 :: nodes.flatMap (saveLine cal) := by
        rw [List.flatMap_cons, saveLine_eq]
        simp
      have hline : record cal e ++ [13] ++ [10] = saveLine cal e := by
        rw [saveLine_eq, List.append_assoc]
        rfl
      rw [hsplit, Xpdev.fgetsCalls, fgets_line hnl hlen, hline, List.map_cons]
      exact congrArg _ (ih hnodes (Nat.le_of_succ_le_succ hn))

theorem length_le_saved (cal : Calendar) (nodes : List QwkNode) :
    nodes.length ≤ (nodes.flatMap (saveLine cal)).length := by
  induction nodes with
  | nil => exact Nat.zero_le _
  | cons e nodes ih =>
      rw [List.flatMap_cons, List.length_append, List.length_cons, saveLine_eq,
        List.length_append, List.length_cons]
      omega

theorem fileLines_saved (hcal : cal.Sound) (h : ∀ e ∈ nodes, Entry e) :
    fileLines 256 (nodes.flatMap (saveLine cal)) = nodes.map (saveLine cal) :=
  fgetsCalls_saved hcal h (length_le_saved cal nodes)

/-! ## Entering a node -/

theorem stricmp_iff {a b : Str} : stricmp a b = true ↔ Smblib.strlwr a = Smblib.strlwr b :=
  beq_iff_eq

theorem stricmp_eq_false_iff {a b : Str} :
    stricmp a b = false ↔ Smblib.strlwr a ≠ Smblib.strlwr b := by
  rw [← Bool.not_eq_true, stricmp_iff]

/-- Names in upper case are the same only where they are equal. -/
theorem stricmp_upper {a b : Str} (ha : strupr a = a) (hb : strupr b = b) :
    stricmp a b = true ↔ a = b := by
  have hlwr : ∀ s : Str, strupr (Smblib.strlwr s) = strupr s := by
    intro s
    have hall : ∀ c : UInt8, toupper (if 65 ≤ c ∧ c ≤ 90 then c + 32 else c) = toupper c :=
      Words.forall_uint8 (p := fun c ↦ toupper (if 65 ≤ c ∧ c ≤ 90 then c + 32 else c) = toupper c)
        (by decide +kernel)
    rw [strupr, strupr, Smblib.strlwr, List.map_map]
    exact List.map_congr_left fun c _ ↦ hall c
  rw [stricmp_iff]
  constructor
  · intro h
    rw [← ha, ← hb, ← hlwr a, ← hlwr b, h]
  · rintro rfl
    rfl

theorem put_ne_nil (node : QwkNode) (nodes : List QwkNode) : put node nodes ≠ [] := by
  cases nodes with
  | nil => exact List.cons_ne_nil _ _
  | cons e nodes =>
      rw [put]
      split <;> exact List.cons_ne_nil _ _

/-- A node that is not in the table is added behind the others. -/
theorem put_new {node : QwkNode} (h : ∀ e ∈ nodes, stricmp e.id node.id = false) :
    put node nodes = nodes ++ [node] := by
  induction nodes with
  | nil => rfl
  | cons e nodes ih =>
      obtain ⟨he, hnodes⟩ := List.forall_mem_cons.mp h
      rw [put, he, ih hnodes]
      rfl

/-- An entry is the new one, or an old one for another node. -/
theorem mem_put {node : QwkNode} (h : nodes.Pairwise fun e f ↦ stricmp e.id f.id = false)
    (he : e ∈ put node nodes) : e = node ∨ e ∈ nodes ∧ stricmp e.id node.id = false := by
  induction nodes with
  | nil => exact .inl (List.mem_singleton.mp he)
  | cons f nodes ih =>
      obtain ⟨hf, hnodes⟩ := List.pairwise_cons.mp h
      rw [put] at he
      split at he
      · next hsame =>
        rcases List.mem_cons.mp he with he | he
        · exact .inl he
        · refine .inr ⟨List.mem_cons_of_mem _ he, ?_⟩
          have hne := stricmp_eq_false_iff.mp (hf e he)
          rw [stricmp_iff.mp hsame] at hne
          exact stricmp_eq_false_iff.mpr hne.symm
      · next hother =>
        rcases List.mem_cons.mp he with rfl | he
        · exact .inr ⟨List.mem_cons_self, eq_false_of_ne_true hother⟩
        · exact (ih hnodes he).imp_right fun h ↦ ⟨List.mem_cons_of_mem _ h.1, h.2⟩

theorem unique_put {node : QwkNode}
    (h : nodes.Pairwise fun e f ↦ stricmp e.id f.id = false) :
    (put node nodes).Pairwise fun e f ↦ stricmp e.id f.id = false := by
  induction nodes with
  | nil => exact List.pairwise_singleton _ _
  | cons f nodes ih =>
      obtain ⟨hf, hnodes⟩ := List.pairwise_cons.mp h
      rw [put]
      split
      · next hsame =>
        refine List.pairwise_cons.mpr ⟨fun g hg ↦ ?_, hnodes⟩
        rw [stricmp_eq_false_iff, ← stricmp_iff.mp hsame]
        exact stricmp_eq_false_iff.mp (hf g hg)
      · next hother =>
        refine List.pairwise_cons.mpr ⟨fun g hg ↦ ?_, ih hnodes⟩
        rcases mem_put hnodes hg with rfl | ⟨hg, -⟩
        · exact eq_false_of_ne_true hother
        · exact hf g hg

/-! ## The table is read as it was written -/

theorem loadLine_saveLine (hcal : cal.Sound) (he : Entry e)
    (hnew : ∀ f ∈ nodes, stricmp f.id e.id = false) : ∃ t : ℤ,
    loadLine cal nodes (saveLine cal e) = some (nodes ++ [{ e with time := t }]) := by
  have hdate := unixtodstr_spec hcal (Int32.ofInt e.time)
  set d := unixtodstr cal (Int32.ofInt e.time) with hd
  have hcstr : cstr (saveLine cal e) = saveLine cal e := by
    apply Smblib.cstr_of_notMem
    rw [saveLine_eq, List.mem_append, not_or]
    exact ⟨notMem_record hcal he (.inl rfl), by decide⟩
  have hlast : ∀ c ∈ (record cal e).getLast?, Smblib.isspace c = false := by
    intro c hc
    rw [record, List.append_cons, List.getLast?_append_of_ne_nil _ he.path_ne] at hc
    exact (he.path c (List.mem_of_getLast? hc)).1
  have htrunc : truncsp (saveLine cal e) = record cal e := by
    rw [saveLine_eq, truncsp, Trim.rdropWhile_append (by decide)]
    exact Trim.rdropWhile_eq_self_of_getLast hlast
  have hcolon : 58 ∉ d ++ 32 :: e.id := by
    have hnot : 58 ∉ d := hdate.2.ne (by decide)
    simp [hnot, he.stored.colon]
  have hlen : (d ++ 32 :: e.id).length = 9 + e.id.length := by
    rw [List.length_append, List.length_cons, hdate.1]
    omega
  have hindex : strchr (record cal e) 58 = some (d ++ 32 :: e.id).length := by
    rw [record, ← hd, strchr, Search.idxOf_append_cons hcolon]
  have htake : (record cal e).take (d ++ 32 :: e.id).length = d ++ 32 :: e.id :=
    List.take_left' rfl
  have hdrop : (record cal e).drop ((d ++ 32 :: e.id).length + 1) = e.path :=
    Search.drop_append_cons _ _ _
  have hadvance : advance 9 (d ++ 32 :: e.id) = some e.id := by
    have hdrop9 : (d ++ 32 :: e.id).drop 9 = e.id := by
      have hbehind := Search.drop_append_cons d e.id 32
      rwa [hdate.1] at hbehind
    rw [advance, if_pos (by omega), hdrop9]
  have hname : (e.id.take 8).takeWhile (· ≠ 32) = e.id := by
    have hle : e.id.length ≤ 8 := he.id.length_le
    rw [List.take_of_length_le hle, List.takeWhile_eq_self_iff]
    intro c hc
    have hspace := (he.id.plain c hc).1
    apply decide_eq_true
    rintro rfl
    exact absurd hspace (by decide)
  have hfind : nodes.find? (fun f ↦ stricmp f.id e.id) = none := by
    rw [List.find?_eq_none]
    intro f hf
    rw [hnew f hf]
    exact Bool.false_ne_true
  have hid : field (lenQwkid + 1) e.id = some e.id :=
    if_pos (Nat.lt_succ_of_le he.id.length_le)
  have hpath : field (maxPath + 1) ((skipBlanks e.path).take 127) = some e.path := by
    have hskip : skipBlanks e.path = e.path := Trim.dropWhile_eq_self_of_head he.stored.head
    rw [hskip, List.take_of_length_le he.stored.short, field, if_pos]
    have hshort := he.stored.short
    rw [maxPath]
    omega
  refine ⟨(dstrtounix cal (record cal e)).toInt, ?_⟩
  rw [loadLine, hcstr, htrunc, hindex]
  simp only [htake, hdrop, hadvance, hname, hfind, hid, hpath, Option.bind_eq_bind,
    Option.bind_some, Option.any_none, Bool.false_eq_true, if_false]
  exact congrArg some (put_new hnew)

/-- A name with its path. -/
def QwkNode.route (e : QwkNode) : Str × Str := (e.id, e.path)

theorem foldlM_loadLine (hcal : cal.Sound) (h : ∀ e ∈ nodes, Entry e)
    (hunique : nodes.Pairwise fun e f ↦ stricmp e.id f.id = false) (before : List QwkNode)
    (hbefore : ∀ f ∈ before, ∀ e ∈ nodes, stricmp f.id e.id = false) : ∃ loaded,
    (nodes.map (saveLine cal)).foldlM (loadLine cal) before = some (before ++ loaded) ∧
      loaded.map QwkNode.route = nodes.map QwkNode.route := by
  induction nodes generalizing before with
  | nil => exact ⟨[], by rw [List.append_nil]; rfl, rfl⟩
  | cons e nodes ih =>
      obtain ⟨he, hnodes⟩ := List.forall_mem_cons.mp h
      obtain ⟨hother, hunique⟩ := List.pairwise_cons.mp hunique
      obtain ⟨t, ht⟩ := loadLine_saveLine hcal he fun f hf ↦ hbefore f hf e List.mem_cons_self
      obtain ⟨loaded, hload, hroutes⟩ := ih hnodes hunique (before ++ [{ e with time := t }]) (by
        intro f hf g hg
        rcases List.mem_append.mp hf with hf | hf
        · exact hbefore f hf g (List.mem_cons_of_mem _ hg)
        · rw [List.mem_singleton.mp hf]
          exact hother g hg)
      refine ⟨{ e with time := t } :: loaded, ?_, ?_⟩
      · rw [List.map_cons, List.foldlM_cons, ht]
        simpa using hload
      · rw [List.map_cons, List.map_cons, hroutes]
        rfl

/-- The names and the paths are those that have been written. -/
theorem load_saved (hcal : cal.Sound) (h : ∀ e ∈ nodes, Entry e)
    (hunique : nodes.Pairwise fun e f ↦ stricmp e.id f.id = false) : ∃ loaded,
    load cal (nodes.flatMap (saveLine cal)) = some loaded ∧
      loaded.map QwkNode.route = nodes.map QwkNode.route := by
  rw [load, fileLines_saved hcal h]
  exact foldlM_loadLine hcal h hunique [] fun f hf ↦ absurd hf List.not_mem_nil

/-! ## A via path is entered -/

/-- What the table holds after the via paths of a history. -/
structure Holds (history : List Via) (nodes : List QwkNode) : Prop extends
    Routes history nodes where
  entry : ∀ e ∈ nodes, Entry e

theorem latest_nil_hops {hub : Str} {id path : Str} (history : List Via) :
    Latest (⟨hub, []⟩ :: history) id path ↔ Latest history id path := by
  simp [Latest]

/-- One more hop of a via path. -/
theorem latest_hop {hub : Str} {hops : List Str} {hop : Str} (hne : id ≠ hop)
    (h : Latest (⟨hub, hops⟩ :: history) id path) :
    Latest (⟨hub, hops ++ [hop]⟩ :: history) id path := by
  rcases h with ⟨front, back, rfl, hback, hpath⟩ | ⟨hnot, h⟩
  · refine .inl ⟨front, back ++ [hop], ?_, ?_, hpath⟩
    · rw [List.append_assoc]
      rfl
    · simp [hback, hne]
  · exact .inr ⟨by simp [hnot, hne], h⟩

theorem Holds.put {hub : Str} {hops : List Str} {hop : Str} (now : ℤ)
    (h : Holds (⟨hub, hops⟩ :: history) nodes)
    (hentry : Entry ⟨hop, (⟨hub, hops⟩ : Via).pathTo hops, now⟩) :
    Holds (⟨hub, hops ++ [hop]⟩ :: history)
      (put ⟨hop, (⟨hub, hops⟩ : Via).pathTo hops, now⟩ nodes) where
  unique := unique_put h.unique
  latest := by
    intro e he
    rcases mem_put h.unique he with rfl | ⟨he, hother⟩
    · exact .inl ⟨hops, [], rfl, List.not_mem_nil, rfl⟩
    · apply latest_hop _ (h.latest e he)
      rintro heq
      rw [heq, stricmp_eq_false_iff] at hother
      exact hother rfl
  entry := by
    intro e he
    rcases mem_put h.unique he with rfl | ⟨he, -⟩
    · exact hentry
    · exact h.entry e he

theorem pathTo_concat (v : Via) (hops : List Str) (hop : Str) :
    v.pathTo (hops ++ [hop]) = v.pathTo hops ++ 47 :: hop := by
  rw [Via.pathTo, Paths.render_append, Via.pathTo, List.append_assoc]
  simp

theorem length_pathTo_le (v : Via) (front back : List Str) :
    (v.pathTo front).length ≤ (v.pathTo (front ++ back)).length := by
  rw [Via.pathTo, Via.pathTo, Paths.render_append, List.length_append, List.length_append,
    List.length_append]
  omega

theorem nodeName_hop {hop : Str} (h : NodeId hop) (back : List Str) :
    nodeName (hop ++ Paths.render 47 back) = hop := by
  have hle : hop.length ≤ 8 := h.length_le
  have hslash : ∀ c ∈ hop, decide (c ≠ 47) = true := fun c hc ↦ decide_eq_true (h.plain c hc).2.2
  have hblank : ∀ c ∈ hop, decide (c ≠ 32) = true := by
    intro c hc
    apply decide_eq_true
    rintro rfl
    exact absurd (h.plain 32 hc).1 (by decide)
  have hcut : ((hop ++ Paths.render 47 back).take 8).takeWhile (· ≠ 47) = hop := by
    rw [List.take_append, List.take_of_length_le hle, List.takeWhile_append_of_pos hslash]
    cases back with
    | nil => simp
    | cons next back =>
        rw [Paths.render_cons]
        cases 8 - hop.length with
        | zero => simp
        | succ k => simp
  have hlast : ∀ c ∈ hop.getLast?, Smblib.isspace c = false :=
    fun c hc ↦ (h.plain c (List.mem_of_getLast? hc)).1
  rw [nodeName, hcut, List.takeWhile_eq_self_iff.mpr hblank]
  exact Trim.rdropWhile_eq_self_of_getLast hlast

theorem strchr_hop {hop : Str} (h : NodeId hop) :
    strchr hop 47 = none ∧ ∀ next back,
      strchr (hop ++ Paths.render 47 (next :: back)) 47 = some hop.length := by
  have hnot : 47 ∉ hop := fun hmem ↦ (h.plain 47 hmem).2.2 rfl
  refine ⟨List.idxOf?_eq_none_iff.mpr hnot, fun next back ↦ ?_⟩
  rw [Paths.render_cons, List.cons_append]
  exact Search.idxOf_append_cons hnot

theorem Via.Valid.entry (hv : v.Valid) (hstored : v.Stored) (now : ℤ) {hops back : List Str}
    {hop : Str} (hsplit : v.hops = hops ++ hop :: back) : Entry ⟨hop, v.pathTo hops, now⟩ where
  id := hv.hops hop (by simp [hsplit])
  stored := hstored hops hop back hsplit
  path_ne := List.append_ne_nil_of_left_ne_nil hv.hub.ne_nil _
  path := by
    intro c hc
    rcases List.mem_append.mp hc with hc | hc
    · exact ⟨(hv.hub.plain c hc).1, (hv.hub.plain c hc).2.1⟩
    · obtain ⟨id, hid, hc⟩ := List.mem_flatMap.mp hc
      rcases List.mem_cons.mp hc with rfl | hc
      · decide
      · have hplain := (hv.hops id (by simp [hsplit, hid])).plain c hc
        exact ⟨hplain.1, hplain.2.1⟩

/-- The fields have room for what is written to them. -/
theorem Via.Valid.fields (hv : v.Valid) {hops back : List Str} {hop : Str}
    (hsplit : v.hops = hops ++ hop :: back) :
    field (lenQwkid + 1) (nodeName (hop ++ Paths.render 47 back)) = some hop ∧
      field (maxPath + 1) (v.pathTo hops) = some (v.pathTo hops) := by
  have hid : NodeId hop := hv.hops hop (by simp [hsplit])
  have hlen := hid.length_le
  have hle := length_pathTo_le v hops (hop :: back)
  have hshort := hv.short
  rw [Via.text, hsplit] at hshort
  rw [nodeName_hop hid, field, field, maxPath, if_pos (Nat.lt_succ_of_le hlen), if_pos (by omega)]
  exact ⟨rfl, rfl⟩

theorem walk_last (hv : v.Valid) (now : ℤ) (nodes : List QwkNode) {hops : List Str} {hop : Str}
    (hsplit : v.hops = hops ++ [hop]) :
    walk now nodes (v.pathTo hops) hop = some (put ⟨hop, v.pathTo hops, now⟩ nodes) := by
  obtain ⟨hid, hpath⟩ := hv.fields hsplit
  rw [Paths.render_nil, List.append_nil] at hid
  have hslash := (strchr_hop (hv.hops hop (by simp [hsplit]))).1
  rw [walk, hid, hpath]
  simp only [Option.bind_eq_bind, Option.bind_some]
  split
  · rfl
  · next i hi =>
    rw [hslash] at hi
    cases hi

theorem walk_next (hv : v.Valid) (now : ℤ) (nodes : List QwkNode) {hops back : List Str}
    {hop next : Str} (hsplit : v.hops = hops ++ hop :: next :: back) :
    walk now nodes (v.pathTo hops) (hop ++ Paths.render 47 (next :: back)) =
      walk now (put ⟨hop, v.pathTo hops, now⟩ nodes) (v.pathTo (hops ++ [hop]))
        (next ++ Paths.render 47 back) := by
  obtain ⟨hid, hpath⟩ := hv.fields hsplit
  have hslash := (strchr_hop (hv.hops hop (by simp [hsplit]))).2 next back
  rw [walk, hid, hpath]
  simp only [Option.bind_eq_bind, Option.bind_some]
  split
  · next hi =>
    rw [hslash] at hi
    cases hi
  · next i hi =>
    rw [hslash] at hi
    obtain rfl := Option.some.inj hi
    rw [List.take_left, pathTo_concat, Paths.render_cons, List.cons_append,
      Search.drop_append_cons]

/-- The entries that a via path makes, from behind some of its hops on. -/
def enter (v : Via) (now : ℤ) (hops : List Str) : List Str → List QwkNode → List QwkNode
  | [], nodes => nodes
  | hop :: back, nodes =>
      enter v now (hops ++ [hop]) back (put ⟨hop, v.pathTo hops, now⟩ nodes)

theorem walk_eq_enter (hv : v.Valid) (nodes : List QwkNode) (now : ℤ) {hops back : List Str}
    {hop : Str}
    (hsplit : v.hops = hops ++ hop :: back) :
    walk now nodes (v.pathTo hops) (hop ++ Paths.render 47 back) =
      some (enter v now hops (hop :: back) nodes) := by
  induction back generalizing hops hop nodes with
  | nil =>
      rw [Paths.render_nil, List.append_nil, walk_last hv now nodes hsplit]
      rfl
  | cons next back ih =>
      have hsplit' : v.hops = hops ++ [hop] ++ next :: back := by
        rw [hsplit, List.append_assoc]
        rfl
      rw [walk_next hv now nodes hsplit, ih _ hsplit']
      rfl

theorem Holds.enter (hv : v.Valid) (hstored : v.Stored) (now : ℤ) {hops back : List Str}
    (hsplit : v.hops = hops ++ back) (h : Holds (⟨v.hub, hops⟩ :: history) nodes) :
    Holds (v :: history) (enter v now hops back nodes) := by
  induction back generalizing hops nodes with
  | nil =>
      rw [List.append_nil] at hsplit
      rw [← hsplit] at h
      exact h
  | cons hop back ih =>
      apply ih
      · rw [hsplit, List.append_assoc]
        rfl
      · exact h.put now (hv.entry hstored now hsplit)

theorem enter_ne_nil (v : Via) (now : ℤ) (hops back : List Str) (h : nodes ≠ []) :
    enter v now hops back nodes ≠ [] := by
  induction back generalizing hops nodes with
  | nil => exact h
  | cons hop back ih => exact ih _ (put_ne_nil _ _)

/-! ## The calls -/

/-- An update with its time. -/
inductive Call
  | via (v : Via) (now : ℤ)
  | save (now : ℤ)

def Call.run (cal : Calendar) (s : State) : Call → Option State
  | .via v now => updateQwkroute cal now (some v.text) s
  | .save now => updateQwkroute cal now none s

def Call.via? : Call → Option Via
  | .via v _ => some v
  | .save _ => none

/-- The via paths of some calls, the latest first. -/
def viaPaths (calls : List Call) : List Via := (calls.filterMap Call.via?).reverse

/-- All entries that are less than 90 days old are read again as they are saved. -/
def Reloads (cal : Calendar) (s : State) : Prop :=
  s.nodes ≠ [] → ∀ now, ∃ saved loaded, updateQwkroute cal now none s = some saved ∧
    tableOf cal saved = some loaded ∧
      loaded.map QwkNode.route = (s.nodes.filter (fresh now)).map QwkNode.route

/-- While there is no table, route.dat has been written from one. -/
structure Inv (cal : Calendar) (history : List Via) (s : State) : Prop where
  nodes : Holds history s.nodes
  file : s.nodes = [] → ∀ file, s.file = some file →
    ∃ entries, Holds history entries ∧ file = entries.flatMap (saveLine cal)

variable {s : State}

theorem Holds.of_route {loaded : List QwkNode} (h : Holds history nodes)
    (hroutes : loaded.map QwkNode.route = nodes.map QwkNode.route) : Holds history loaded := by
  have hmem : ∀ e ∈ loaded, ∃ f ∈ nodes, f.id = e.id ∧ f.path = e.path := by
    intro e he
    have hroute : e.route ∈ nodes.map QwkNode.route := hroutes ▸ List.mem_map_of_mem he
    obtain ⟨f, hf, heq⟩ := List.mem_map.mp hroute
    exact ⟨f, hf, Prod.mk.inj heq⟩
  refine ⟨⟨?_, ?_⟩, ?_⟩
  · have hpairs : (nodes.map QwkNode.route).Pairwise fun a b ↦ stricmp a.1 b.1 = false :=
      List.pairwise_map.mpr h.unique
    rw [← hroutes] at hpairs
    exact List.pairwise_map.mp hpairs
  · intro e he
    obtain ⟨f, hf, hid, hpath⟩ := hmem e he
    rw [← hid, ← hpath]
    exact h.latest f hf
  · intro e he
    obtain ⟨f, hf, hid, hpath⟩ := hmem e he
    obtain ⟨hfid, hfstored, hfne, hfpath⟩ := h.entry f hf
    rw [hid] at hfid hfstored
    rw [hpath] at hfstored hfne hfpath
    exact ⟨hfid, hfstored, hfne, hfpath⟩

theorem Holds.filter (h : Holds history nodes) (p : QwkNode → Bool) :
    Holds history (nodes.filter p) where
  unique := h.unique.filter p
  latest e he := h.latest e (List.mem_of_mem_filter he)
  entry e he := h.entry e (List.mem_of_mem_filter he)

theorem Inv.tableOf (hcal : cal.Sound) (h : Inv cal history s) :
    ∃ nodes, tableOf cal s = some nodes ∧ Holds history nodes ∧
      (s.nodes ≠ [] → nodes = s.nodes) := by
  rw [QwkRoute.tableOf]
  by_cases hnodes : s.nodes = []
  · rw [if_pos hnodes]
    cases hfile : s.file with
    | none =>
        refine ⟨[], rfl, ?_, fun hne ↦ absurd hnodes hne⟩
        rw [← hnodes]
        exact h.nodes
    | some file =>
        obtain ⟨entries, hentries, rfl⟩ := h.file hnodes file hfile
        obtain ⟨loaded, hload, hroutes⟩ := load_saved hcal hentries.entry hentries.unique
        exact ⟨loaded, hload, hentries.of_route hroutes, fun hne ↦ absurd hnodes hne⟩
  · rw [if_neg hnodes]
    exact ⟨s.nodes, rfl, h.nodes, fun _ ↦ rfl⟩

theorem Inv.reloads (hcal : cal.Sound) (h : Inv cal history s) : Reloads cal s := by
  intro hne now
  have hfilter := h.nodes.filter (fresh now)
  obtain ⟨loaded, hload, hroutes⟩ := load_saved hcal hfilter.entry hfilter.unique
  refine ⟨_, loaded, by rw [updateQwkroute]; exact if_neg hne, ?_, hroutes⟩
  rw [QwkRoute.tableOf, if_pos rfl]
  exact hload

theorem strupr_render {ids : List Str} (h : ∀ id ∈ ids, NodeId id) :
    strupr (Paths.render 47 ids) = Paths.render 47 ids := by
  induction ids with
  | nil => rfl
  | cons id ids ih =>
      obtain ⟨hid, hids⟩ := List.forall_mem_cons.mp h
      have hupper := hid.upper
      have hrest := ih hids
      rw [strupr] at hupper hrest ⊢
      rw [Paths.render_cons, List.map_append, List.map_cons, hupper, hrest]
      rfl

theorem Via.Valid.strupr_text (hv : v.Valid) : strupr v.text = v.text := by
  have hhub := hv.hub.upper
  have hhops := strupr_render hv.hops
  rw [strupr] at hhub hhops ⊢
  rw [Via.text, Via.pathTo, List.map_append, hhub, hhops]

theorem update_via (hv : v.Valid) {hop : Str} {back : List Str} (hhops : v.hops = hop :: back)
    (htable : tableOf cal s = some nodes) (now : ℤ) :
    updateQwkroute cal now (some v.text) s =
      some ⟨enter v now [] (hop :: back) nodes, s.file⟩ := by
  have hsplit : v.hops = [] ++ hop :: back := hhops
  have htext : v.text = v.hub ++ Paths.render 47 (hop :: back) := by
    rw [Via.text, hhops, Via.pathTo]
  have hslash : strchr v.text 47 = some v.hub.length := by
    rw [htext]
    exact (strchr_hop hv.hub).2 hop back
  have hpathTo : v.pathTo [] = v.hub := by
    rw [Via.pathTo, Paths.render_nil, List.append_nil]
  have hwalk := walk_eq_enter hv nodes now hsplit
  rw [hpathTo] at hwalk
  have htake : v.text.take v.hub.length = v.hub := by rw [htext, List.take_left]
  have hrest : v.text.drop (v.hub.length + 1) = hop ++ Paths.render 47 back := by
    rw [htext, Paths.render_cons, List.cons_append, Search.drop_append_cons]
  rw [updateQwkroute, htable]
  simp only [hv.strupr_text, hslash, htake, hrest, hwalk, Option.bind_eq_bind, Option.bind_some]
  rfl

/-- A via path that can be stored is entered. -/
theorem Inv.via (hcal : cal.Sound) (h : Inv cal history s) (hv : v.Valid) (hstored : v.Stored)
    (now : ℤ) : ∃ s', updateQwkroute cal now (some v.text) s = some s' ∧
      Inv cal (v :: history) s' := by
  obtain ⟨nodes, htable, hnodes, hkept⟩ := h.tableOf hcal
  have hlatest : ∀ nodes, Holds history nodes → Holds (⟨v.hub, []⟩ :: history) nodes :=
    fun nodes h ↦ ⟨⟨h.unique, fun e he ↦ (latest_nil_hops history).mpr (h.latest e he)⟩, h.entry⟩
  cases hhops : v.hops with
  | nil =>
      have htext : v.text = v.hub := by
        rw [Via.text, hhops, Via.pathTo, Paths.render_nil, List.append_nil]
      have hv' : v = ⟨v.hub, []⟩ := by rw [← hhops]
      have hslash : strchr (strupr v.text) 47 = none := by
        rw [hv.strupr_text, htext]
        exact (strchr_hop hv.hub).1
      refine ⟨⟨nodes, s.file⟩, ?_, hv' ▸ hlatest nodes hnodes, ?_⟩
      · rw [updateQwkroute, htable]
        simp only [hslash, Option.bind_eq_bind, Option.bind_some]
        rfl
      · rintro rfl file hfile
        have hnil : s.nodes = [] := by
          by_contra hne
          exact hne (hkept hne).symm
        obtain ⟨entries, hentries, rfl⟩ := h.file hnil file hfile
        exact ⟨entries, hv' ▸ hlatest entries hentries, rfl⟩
  | cons hop back =>
      have hne : enter v now [] (hop :: back) nodes ≠ [] :=
        enter_ne_nil v now _ back (put_ne_nil _ _)
      refine ⟨_, update_via hv hhops htable now, ?_, fun hnil ↦ absurd hnil hne⟩
      exact (hlatest nodes hnodes).enter hv hstored now hhops

theorem Inv.save (h : Inv cal history s) (now : ℤ) : ∃ s',
    updateQwkroute cal now none s = some s' ∧ Inv cal history s' := by
  by_cases hne : s.nodes = []
  · exact ⟨s, if_pos hne, h⟩
  · refine ⟨_, if_neg hne, ⟨⟨List.Pairwise.nil, by simp⟩, by simp⟩, ?_⟩
    rintro - file hfile
    exact ⟨_, h.nodes.filter (fresh now), (Option.some.inj hfile).symm⟩

/-- The calls that the condition is about. -/
def Call.Valid (c : Call) : Prop := ∀ v, c.via? = some v → v.Valid

def Call.Stored (c : Call) : Prop := ∀ v, c.via? = some v → v.Stored

theorem inv_run (hcal : cal.Sound) {calls : List Call} (hvalid : ∀ c ∈ calls, c.Valid)
    (hstored : ∀ c ∈ calls, c.Stored) : ∃ s,
    calls.foldlM (Call.run cal) ⟨[], none⟩ = some s ∧ Inv cal (viaPaths calls) s := by
  induction calls using List.reverseRecOn with
  | nil =>
      refine ⟨_, rfl, ⟨⟨List.Pairwise.nil, by simp⟩, by simp⟩, ?_⟩
      rintro - file hfile
      cases hfile
  | append_singleton calls c ih =>
      obtain ⟨s, hrun, hinv⟩ := ih (fun d hd ↦ hvalid d (List.mem_append_left _ hd))
        fun d hd ↦ hstored d (List.mem_append_left _ hd)
      have hc : c ∈ calls ++ [c] := by simp
      have hlast : (calls ++ [c]).foldlM (Call.run cal) ⟨[], none⟩ = Call.run cal s c := by
        rw [List.foldlM_append, hrun]
        simp
      rw [hlast]
      cases c with
      | via v now =>
          have hpaths : viaPaths (calls ++ [.via v now]) = v :: viaPaths calls := by
            simp [viaPaths, Call.via?]
          rw [hpaths]
          exact hinv.via hcal (hvalid _ hc v rfl) (hstored _ hc v rfl) now
      | save now =>
          have hpaths : viaPaths (calls ++ [.save now]) = viaPaths calls := by
            simp [viaPaths, Call.via?]
          rw [hpaths]
          exact hinv.save now

/-- The first of January 1970. -/
def firstDay : Calendar where
  localtime _ := some { mday := 1, year := 70 }
  mktime _ := 0
  euro := false

theorem firstDay_sound : firstDay.Sound := by
  intro t tm h
  obtain rfl := Option.some.inj h
  decide

/-- `HUB/A` -/
def shortVia : Via := ⟨[72, 85, 66], [[65]]⟩

theorem nodeId_of {id : Str} (h : id ≠ [] ∧ id.length ≤ 8 ∧ strupr id = id ∧
    ∀ c ∈ id, Smblib.isspace c = false ∧ c ≠ 0 ∧ c ≠ 47) : NodeId id :=
  ⟨h.1, h.2.1, h.2.2.1, h.2.2.2⟩

/-- Fifteen hops of eight characters. -/
def longVia : Via := ⟨List.replicate 8 65, List.replicate 15 (List.replicate 8 65)⟩

theorem longVia_valid : longVia.Valid where
  hub := nodeId_of (by decide +kernel)
  hops id h := by
    rw [List.eq_of_mem_replicate h]
    exact nodeId_of (by decide +kernel)
  short := by decide +kernel

/-- The path to the last of the hops, of 134 characters. -/
def longNode : QwkNode :=
  ⟨List.replicate 8 65, longVia.pathTo (List.replicate 14 (List.replicate 8 65)), 0⟩

end Synchronet.Sbbs3.QwkRoute
