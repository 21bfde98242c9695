import Mathlib.Data.List.Chain
import Synchronet.Sbbs3.SbbsEcho

/-!
# Addresses on a line

The addresses of a line as it is written, the net and the point of which may be left out, and
what the loop over the words of a line makes of them.
-/

namespace Synchronet.Sbbs3.Echo

open Xpdev (Str)
open Smblib (atoi)
open Search (idxOf_append_cons drop_append_cons)

/-! ## Addresses on a line -/

/-- An address as it stands on a line; the net may be left out, and the point. -/
structure Token where
  net : Option UInt16
  node : UInt16
  point : Option UInt16

def Token.netText (t : Token) : Str :=
  match t.net with
  | some net => decimal net ++ [47]
  | none => []

def Token.pointText (t : Token) : Str :=
  match t.point with
  | some point => 46 :: decimal point
  | none => []

def Token.text (t : Token) : Str := t.netText ++ (decimal t.node ++ t.pointText)

/-- The address that it stands for behind one of the net `net`. -/
def Token.addr (zone net : UInt16) (t : Token) : FidoAddr :=
  ⟨zone, t.net.getD net, t.node, t.point.getD 0⟩

/-- The addresses of a list of them. -/
def denote (zone net : UInt16) : List Token → List FidoAddr
  | [] => []
  | t :: ts => t.addr zone net :: denote zone (t.net.getD net) ts

@[simp] theorem length_denote (zone net : UInt16) (ts : List Token) :
    (denote zone net ts).length = ts.length := by
  induction ts generalizing net with
  | nil => rfl
  | cons t ts ih => simp [denote, ih]

/-- The net of the last address. -/
def lastNet (net : UInt16) (ts : List Token) : UInt16 :=
  ts.foldl (fun net t ↦ t.net.getD net) net

theorem denote_append (zone net : UInt16) (ts ts' : List Token) :
    denote zone net (ts ++ ts') = denote zone net ts ++ denote zone (lastNet net ts) ts' := by
  induction ts generalizing net with
  | nil => rfl
  | cons t ts ih => simp [denote, lastNet, ih]

theorem lastNet_append (net : UInt16) (ts ts' : List Token) :
    lastNet net (ts ++ ts') = lastNet (lastNet net ts) ts' := List.foldl_append

/-! ## Numbers -/

theorem forall_mem_decimal {P : UInt8 → Prop} (h : ∀ d < 10, P (digit d)) (n : UInt16) :
    ∀ c ∈ decimal n, P c := forall_mem_ultoa (by decide) h _

theorem decimal_ne_nil (n : UInt16) : decimal n ≠ [] := ultoa_ne_nil _ _

theorem toUInt16_atoi_decimal (n : UInt16) {s : Str}
    (hs : ∀ c ∈ s.head?, ¬(48 ≤ c ∧ c ≤ 57)) : toUInt16 (atoi (decimal n ++ s)) = n := by
  rw [decimal, atoi_ultoa_append _ hs, toUInt16, ← UInt16.toNat_inj]
  have hlt := n.toNat_lt
  simp only [UInt16.toNat_ofNat']
  omega

/-- The bytes of an address: digits, points and slashes. -/
theorem Token.mem_text (t : Token) : ∀ c ∈ t.text, 46 ≤ c ∧ c ≤ 57 := by
  have hnum (n : UInt16) : ∀ c ∈ decimal n, 46 ≤ c ∧ c ≤ 57 :=
    forall_mem_decimal (by decide +kernel) n
  intro c hc
  rw [text, netText, pointText, List.mem_append, List.mem_append] at hc
  rcases hc with hc | hc | hc
  · split at hc
    · case h_1 net _ =>
        rcases List.mem_append.mp hc with hc | hc
        · exact hnum _ c hc
        · rw [List.mem_singleton.mp hc]
          decide
    · case h_2 => simp at hc
  · exact hnum _ c hc
  · split at hc
    · case h_1 point _ =>
        rcases List.mem_cons.mp hc with rfl | hc
        · decide
        · exact hnum _ c hc
    · case h_2 => simp at hc

theorem Token.text_ne_nil (t : Token) : t.text ≠ [] := by
  simp [text, decimal_ne_nil]

theorem Token.notMem_text (t : Token) {c : UInt8} (hc : ¬(46 ≤ c ∧ c ≤ 57)) : c ∉ t.text :=
  fun hmem ↦ hc (t.mem_text c hmem)

theorem Token.head_pointText (t : Token) : ∀ c ∈ t.pointText.head?, ¬(48 ≤ c ∧ c ≤ 57) := by
  rw [pointText]
  cases t.point with
  | none => simp
  | some point => simp

/-! ## Reading an address -/

theorem slash_notMem_decimal (n : UInt16) : 47 ∉ decimal n :=
  fun h ↦ forall_mem_decimal (P := (· ≠ 47)) (by decide +kernel) n 47 h rfl

theorem point_notMem_decimal (n : UInt16) : 46 ∉ decimal n :=
  fun h ↦ forall_mem_decimal (P := (· ≠ 46)) (by decide +kernel) n 46 h rfl

/-- The slash stands behind the net. -/
theorem Token.idxOf_slash (t : Token) :
    t.text.idxOf? 47 = t.net.map fun net ↦ (decimal net).length := by
  rcases t with ⟨net, node, point⟩
  cases net with
  | some net =>
      simp only [text, netText, List.append_assoc, List.singleton_append, Option.map_some]
      exact idxOf_append_cons (slash_notMem_decimal net)
  | none =>
      have hpoint : 47 ∉ pointText ⟨none, node, point⟩ := by
        cases point with
        | none => simp [pointText]
        | some point => simp [pointText, slash_notMem_decimal]
      simpa [text, netText, slash_notMem_decimal] using hpoint

theorem Token.point_notMem_netText (t : Token) : 46 ∉ t.netText ++ decimal t.node := by
  rw [netText]
  cases t.net with
  | none => simpa using point_notMem_decimal t.node
  | some net => simp [point_notMem_decimal]

theorem Token.idxOf_point (t : Token) :
    t.text.idxOf? 46 = t.point.map fun _ ↦ (t.netText ++ decimal t.node).length := by
  have hpre := t.point_notMem_netText
  rw [text, ← List.append_assoc, pointText]
  cases t.point with
  | some point => exact idxOf_append_cons hpre
  | none =>
      rw [List.append_nil]
      exact List.idxOf?_eq_none_iff.mpr hpre

/-- The number in front. -/
theorem Token.atoi_text (t : Token) : toUInt16 (atoi t.text) = t.net.getD t.node := by
  rcases t with ⟨net, node, point⟩
  cases net with
  | some net =>
      rw [text, netText, List.append_assoc]
      exact toUInt16_atoi_decimal net (by simp)
  | none => exact toUInt16_atoi_decimal node (head_pointText _)

/-- The number behind the slash. -/
theorem Token.atoi_drop_slash (t : Token) {net : UInt16} (h : t.net = some net) :
    toUInt16 (atoi (t.text.drop ((decimal net).length + 1))) = t.node := by
  have htext : t.text = decimal net ++ 47 :: (decimal t.node ++ t.pointText) := by
    simp [text, netText, h]
  rw [htext, drop_append_cons]
  exact toUInt16_atoi_decimal _ t.head_pointText

/-- The number behind the point. -/
theorem Token.atoi_drop_point (t : Token) {point : UInt16} (h : t.point = some point) :
    toUInt16 (atoi (t.text.drop ((t.netText ++ decimal t.node).length + 1))) = point := by
  have htext : t.text = (t.netText ++ decimal t.node) ++ 46 :: decimal point := by
    simp [text, pointText, h]
  rw [htext, drop_append_cons, ← List.append_nil (decimal point)]
  exact toUInt16_atoi_decimal _ (by simp)

/-- The address behind a tag, after an address that is kept where the text says nothing. -/
theorem readAddr_text (zone : UInt16) (addr : FidoAddr) (t : Token) :
    readAddr zone addr t.text =
      ⟨if addr.zone = 0 then zone else addr.zone, t.net.getD addr.net, t.node,
        t.point.getD addr.point⟩ := by
  have hcolon : t.text.idxOf? 58 = none :=
    List.idxOf?_eq_none_iff.mpr (t.notMem_text (by decide))
  have hmem : 47 ∈ t.text ↔ t.net.isSome := by
    rw [← Option.isSome_map (f := fun net ↦ (decimal net).length), ← t.idxOf_slash]
    simp
  have hif (a : FidoAddr) : (if a.zone = 0 then { a with zone := zone } else a) =
      ⟨if a.zone = 0 then zone else a.zone, a.net, a.node, a.point⟩ := by
    split <;> rfl
  rw [readAddr, hcolon, t.idxOf_slash, t.idxOf_point]
  simp only [hmem, t.atoi_text, hif]
  cases hnet : t.net with
  | none =>
      cases hpoint : t.point with
      | none => simp
      | some point => simp [← t.atoi_drop_point hpoint]
  | some net =>
      simp only [Option.map_some, t.atoi_drop_slash hnet]
      cases hpoint : t.point with
      | none => simp
      | some point => simp [← t.atoi_drop_point hpoint]

/-- The zone of an address is the one of the packet. -/
theorem readAddr_text_of_zone {zone : UInt16} {addr : FidoAddr}
    (h : addr.zone = 0 ∨ addr.zone = zone) (t : Token) :
    readAddr zone addr t.text =
      ⟨zone, t.net.getD addr.net, t.node, t.point.getD addr.point⟩ := by
  rw [readAddr_text]
  rcases h with h | h
  · rw [if_pos h]
  · simp [h]

theorem readAddrs_append (zone : UInt16) (addr : FidoAddr) (ws ws' : List Str) :
    (readAddrs zone addr (ws ++ ws')).1 =
      (readAddrs zone addr ws).1 ++ (readAddrs zone (readAddrs zone addr ws).2 ws').1 := by
  induction ws generalizing addr with
  | nil => rfl
  | cons w ws ih => simp [readAddrs, ih]

@[simp] theorem length_readAddrs (zone : UInt16) (addr : FidoAddr) (ws : List Str) :
    (readAddrs zone addr ws).1.length = ws.length := by
  induction ws generalizing addr with
  | nil => rfl
  | cons w ws ih => simp [readAddrs, ih]

/-- What the reader makes of an address behind another one. -/
def PointKept (a b : Token) : Prop := a.point.getD 0 = 0 ∨ b.point.isSome

instance (a b : Token) : Decidable (PointKept a b) := inferInstanceAs (Decidable (_ ∨ _))

/-- Addresses are read as they are meant when none without a point follows one with a point. -/
theorem readAddrs_text_eq_denote_iff {zone : UInt16} {addr : FidoAddr} (ts : List Token)
    (h : addr.zone = 0 ∨ addr.zone = zone) :
    (readAddrs zone addr (ts.map Token.text)).1 = denote zone addr.net ts ↔
      (∀ t ∈ ts.head?, addr.point = 0 ∨ t.point.isSome) ∧ ts.IsChain PointKept := by
  induction ts generalizing addr with
  | nil => simp [readAddrs, denote]
  | cons t ts ih =>
      have hhead : t.point.getD addr.point = t.point.getD 0 ↔ addr.point = 0 ∨ t.point.isSome := by
        cases t.point <;> simp
      rw [List.map_cons, readAddrs, readAddr_text_of_zone h, denote, List.cons.injEq,
        List.isChain_cons]
      simp only [List.head?_cons, Option.mem_some_iff, forall_eq', Token.addr,
        FidoAddr.mk.injEq, true_and, hhead]
      refine and_congr_right fun hkept ↦ ?_
      rw [ih (Or.inr rfl)]
      simp only [hhead.mpr hkept, PointKept]

/-! ## Words -/

/-- The addresses of a line, each behind a space. -/
def wordsText (ts : List Token) : Str := ts.flatMap fun t ↦ 32 :: t.text

@[simp] theorem wordsText_nil : wordsText [] = [] := rfl

@[simp] theorem wordsText_cons (t : Token) (ts : List Token) :
    wordsText (t :: ts) = 32 :: (t.text ++ wordsText ts) := rfl

theorem wordsText_append (ts ts' : List Token) :
    wordsText (ts ++ ts') = wordsText ts ++ wordsText ts' := List.flatMap_append

theorem mem_wordsText {ts : List Token} {c : UInt8} (h : c ∈ wordsText ts) :
    c = 32 ∨ 46 ≤ c ∧ c ≤ 57 := by
  obtain ⟨t, -, hc⟩ := List.mem_flatMap.mp h
  rcases List.mem_cons.mp hc with rfl | hc
  · exact Or.inl rfl
  · exact Or.inr (t.mem_text c hc)

theorem notMem_wordsText {c : UInt8} (hc : ¬(c = 32 ∨ 46 ≤ c ∧ c ≤ 57)) (ts : List Token) :
    c ∉ wordsText ts := fun h ↦ hc (mem_wordsText h)

theorem words_append {w rest : Str} (hne : w ≠ []) (h : 32 ∉ w) :
    words (w ++ 32 :: rest) = w :: words rest := by
  cases w with
  | nil => exact absurd rfl hne
  | cons c w =>
      have htake : (c :: (w ++ 32 :: rest)).takeWhile (· ≠ 32) = c :: w := by
        rw [← List.cons_append, List.takeWhile_append_of_pos, List.takeWhile_cons_of_neg (by simp),
          List.append_nil]
        intro b hb
        simpa using ne_of_mem_of_not_mem hb h
      rw [List.cons_append, words, htake, List.length_cons, drop_append_cons]

theorem words_of_notMem {w : Str} (hne : w ≠ []) (h : 32 ∉ w) : words w = [w] := by
  cases w with
  | nil => exact absurd rfl hne
  | cons c w =>
      have htake : (c :: w).takeWhile (· ≠ 32) = c :: w := by
        rw [List.takeWhile_eq_self_iff]
        intro b hb
        simpa using ne_of_mem_of_not_mem hb h
      rw [words, htake, List.drop_eq_nil_of_le (by simp), words]

/-- The words of a line of addresses behind a word. -/
theorem words_append_wordsText {w : Str} (hne : w ≠ []) (h : 32 ∉ w) (ts : List Token) :
    words (w ++ wordsText ts) = w :: ts.map Token.text := by
  induction ts generalizing w with
  | nil => simpa using words_of_notMem hne h
  | cons t ts ih =>
      rw [wordsText_cons, words_append hne h, ih t.text_ne_nil (t.notMem_text (by decide))]
      rfl

theorem words_ne_nil {c : UInt8} {s : Str} : words (c :: s) ≠ [] := by
  simp [words]

/-! ## The rest of a line -/

theorem lineOf_append {s rest : Str} (hs : 13 ∉ s) (hlen : s.length ≤ 100)
    (hrest : rest = [] ∨ ∃ r, rest = 13 :: r) : lineOf (s ++ rest) = s := by
  have htail : (rest.take (100 - s.length)).takeWhile (· ≠ 13) = [] := by
    rcases hrest with rfl | ⟨r, rfl⟩
    · simp
    · cases 100 - s.length with
      | zero => rfl
      | succ k => simp
  rw [lineOf, List.take_append, List.take_of_length_le hlen, List.takeWhile_append_of_pos, htail,
    List.append_nil]
  intro b hb
  simpa using ne_of_mem_of_not_mem hb hs

theorem lineOf_cons {c : UInt8} {s : Str} (hc : c ≠ 13) : ∃ t, lineOf (c :: s) = c :: t := by
  rw [lineOf, List.take_succ_cons, List.takeWhile_cons_of_pos (by simpa using hc)]
  exact ⟨_, rfl⟩

end Synchronet.Sbbs3.Echo
