import Synchronet.Sbbs3.SeenByRoundTrip

/-!
# Seen-bys and path through a packet

`gen_psb` against `putfmsg`: the addresses of a message that is read, and those of a message that
is written and read again.
-/

namespace Synchronet.Sbbs3.Echo

open Xpdev (Str)

variable (cfg : Config)

theorem genPsb_eq_some_iff {inbuf : Str} {zone : UInt16} {seenbys paths : List FidoAddr} :
    genPsb cfg inbuf zone = some (seenbys, paths) ↔
      genList .seenBy zone (fromOrigin cfg inbuf) = some seenbys ∧
        genList .path zone (fromOrigin cfg inbuf) = some paths := by
  simp [genPsb, Option.bind_eq_some_iff]

/-! ## The text in front of the addresses -/

/-- An origin line does not end in text without an asterisk. -/
theorem find_origin_append (o : OriginPrefix) (b : Str) {rest : Str} (h : 42 ∉ rest) :
    Search.find o.word (b ++ 13 :: rest) = (Search.find o.word b).map (· ++ 13 :: rest) := by
  cases hb : Search.find o.word b with
  | some p => exact Search.find_append hb
  | none =>
      rw [Option.map_none, Search.find_append_sep_cons o.notMem_cr (by simp [OriginPrefix.word])
        (Search.find_eq_none_iff.mp hb), Search.find_eq_none_iff]
      refine not_infix_of_notMem (c := 42) (List.mem_cons_of_mem _ o.mem_asterisk) ?_
      rw [List.mem_cons, not_or]
      exact ⟨by decide, h⟩

theorem fromOrigin_append (b : Str) {rest : Str} (h : 42 ∉ rest) :
    fromOrigin cfg (b ++ 13 :: rest) = fromOrigin cfg b ++ 13 :: rest := by
  rw [fromOrigin, find_origin_append _ b h, find_origin_append _ b h, fromOrigin]
  cases Search.find cfg.originPrefixForm1.word b with
  | some p => rfl
  | none => cases Search.find cfg.originPrefixForm2.word b <;> rfl

theorem notMem_block {tag : Tag} {zone : UInt16} {addrs : List FidoAddr} {out : Str}
    {ls : List (List Token)} (h : Block tag zone addrs out ls) : 42 ∉ out := by
  rw [h.out, body, List.mem_flatMap]
  rintro ⟨l, hl, hmem⟩
  obtain ⟨ts, -, rfl⟩ := List.mem_map.mp hl
  rw [List.mem_append] at hmem
  rcases hmem with hmem | hmem
  · simp [LineEnd.str] at hmem
  · refine Line.notMem_addrs ?_ (by decide) ts hmem
    cases tag <;> decide

theorem closeLine_cases (fbuf : Str) : closeLine fbuf = [] ∨ ∃ b, closeLine fbuf = b ++ [13] := by
  rw [closeLine]
  split
  · exact Or.inr ⟨fbuf, rfl⟩
  · case isFalse h =>
      rw [not_and_or, not_not, not_not] at h
      rcases h with rfl | hlast
      · exact Or.inl rfl
      · exact Or.inr ⟨_, (List.dropLast_append_getLast? 13 hlast).symm⟩

/-- The text of an echomail message ends with a line end. -/
theorem bodyText_eq_append (hdr : FmsgHdr) {area : Area} {tag : Str} (htag : area.tag = some tag)
    (fbuf : Str) : ∃ b, bodyText hdr area fbuf = b ++ [13] := by
  rw [bodyText, htag]
  change ∃ b, (if areaWord <+: fbuf then [] else areaWord ++ tag ++ [13]) ++ closeLine fbuf = _
  rcases closeLine_cases fbuf with hnil | ⟨b, hb⟩
  · have hfbuf : ¬areaWord <+: fbuf := by
      rw [closeLine] at hnil
      split at hnil
      · simp at hnil
      · simp [hnil, areaWord]
    rw [if_neg hfbuf, hnil, List.append_nil]
    exact ⟨_, rfl⟩
  · rw [hb, ← List.append_assoc]
    exact ⟨_, rfl⟩

/-! ## Messages that are written -/

/-- A node of a zone, and no point. -/
def FidoAddr.InZone (zone : UInt16) (a : FidoAddr) : Prop := a.zone = zone ∧ a.point = 0

instance (zone : UInt16) (a : FidoAddr) : Decidable (a.InZone zone) :=
  inferInstanceAs (Decidable (_ ∧ _))

@[simp] theorem foreignZone_self (zone : UInt16) : foreignZone cfg zone zone = false := by
  rw [foreignZone]
  split <;> simp

variable {cfg} {zone : UInt16} {addr : FidoAddr} {links seenbys paths : List FidoAddr}

theorem seenFrom_eq (haddr : addr.zone = zone) (hS : ∀ a ∈ seenbys, a.InZone zone) :
    seenFrom cfg addr seenbys = seenbys := by
  refine List.filter_eq_self.mpr fun a ha ↦ ?_
  rw [haddr, (hS a ha).1, foreignZone_self]
  rfl

theorem seenLinks_eq (haddr : addr.zone = zone) (hL : ∀ a ∈ links, a.InZone zone) :
    seenLinks cfg addr links seenbys =
      links.filter fun a ↦ !(cfg.findnodecfg a).any NodeCfg.passive && !decide (a ∈ seenbys) := by
  refine List.filter_congr fun a ha ↦ ?_
  simp [haddr, (hL a ha).1, (hL a ha).2]

theorem seenAkas_eq (haddr : addr.zone = zone) (hA : ∀ a ∈ cfg.faddr, a.InZone zone) :
    seenAkas cfg addr seenbys = cfg.faddr.filter fun a ↦ !decide (a ∈ seenbys) := by
  refine List.filter_congr fun a ha ↦ ?_
  simp [haddr, (hA a ha).1, (hA a ha).2]

theorem pathFrom_eq (haddr : addr.zone = zone) (hP : ∀ a ∈ paths, a.InZone zone) :
    pathFrom cfg addr paths = paths.filter fun a ↦ a.net != 0 := by
  refine List.filter_congr fun a ha ↦ ?_
  simp [haddr, (hP a ha).1, (hP a ha).2]

/-- Nodes of a zone differ in the net or the node. -/
theorem FidoAddr.InZone.ne_iff {a b : FidoAddr} (ha : a.InZone zone) (hb : b.InZone zone) :
    a ≠ b ↔ a.net ≠ b.net ∨ a.node ≠ b.node := by
  obtain ⟨azone, anet, anode, apoint⟩ := a
  obtain ⟨bzone, bnet, bnode, bpoint⟩ := b
  obtain ⟨rfl, rfl⟩ : azone = zone ∧ apoint = 0 := ha
  obtain ⟨rfl, rfl⟩ : bzone = azone ∧ bpoint = 0 := hb
  simp only [ne_eq, FidoAddr.mk.injEq, true_and, and_true]
  rw [not_and_or]

/-- Addresses with the net 0 are not put into the path. -/
theorem net_ne_zero_of_mem_writtenPath (haddr : addr.zone = zone)
    (hP : ∀ a ∈ paths, a.InZone zone) {a : FidoAddr} (ha : a ∈ writtenPath cfg addr paths) :
    a.net ≠ 0 := by
  rw [writtenPath, pathFrom_eq haddr hP, List.mem_append] at ha
  rcases ha with ha | ha
  · simpa using (List.mem_filter.mp ha).2
  · split at ha
    · case isTrue hadds =>
        rw [List.mem_singleton.mp ha]
        exact hadds.1
    · case isFalse => simp at ha

/-- The own address goes behind a path that does not end with it. -/
theorem addsPath_iff (haddr : addr.InZone zone) (hP : ∀ a ∈ paths, a.InZone zone)
    (hnet : ∀ a ∈ addr :: paths, a.net ≠ 0) :
    addsPath cfg addr paths ↔ paths.getLast? ≠ some addr := by
  have hpath : pathFrom cfg addr paths = paths := by
    rw [pathFrom_eq haddr.1 hP, List.filter_eq_self]
    exact fun a ha ↦ by simpa using hnet a (List.mem_cons_of_mem _ ha)
  have haddrnet := hnet addr List.mem_cons_self
  rw [addsPath, hpath]
  cases hlast : paths.getLast? with
  | none =>
      have hnil : paths = [] := List.getLast?_eq_none_iff.mp hlast
      simp [hnil, haddrnet, haddr.2]
  | some a =>
      have hmem : a ∈ paths := List.mem_of_getLast? hlast
      have hne : paths ≠ [] := List.ne_nil_of_mem hmem
      simp only [Option.getD_some, hne, false_or, haddrnet, haddr.2, ne_eq, not_false_eq_true,
        true_and, Option.some.injEq]
      exact ((hP a hmem).ne_iff haddr).symm

/-- The path that is written is the path and the own address, unless it ends with it, if and only
if none of these has the net 0. -/
theorem writtenPath_eq_iff (haddr : addr.InZone zone) (hP : ∀ a ∈ paths, a.InZone zone) :
    writtenPath cfg addr paths =
        (if paths.getLast? = some addr then paths else paths ++ [addr]) ↔
      ∀ a ∈ addr :: paths, a.net ≠ 0 := by
  constructor
  · intro h a ha
    refine @net_ne_zero_of_mem_writtenPath cfg _ _ _ haddr.1 hP _ ?_
    rw [h]
    split
    · case isTrue hlast =>
        rcases List.mem_cons.mp ha with rfl | ha
        · exact List.mem_of_getLast? hlast
        · exact ha
    · case isFalse =>
        rw [List.mem_append, List.mem_singleton, or_comm]
        exact List.mem_cons.mp ha
  · intro hnet
    have hpath : pathFrom cfg addr paths = paths := by
      rw [pathFrom_eq haddr.1 hP, List.filter_eq_self]
      exact fun a ha ↦ by simpa using hnet a (List.mem_cons_of_mem _ ha)
    rw [writtenPath, hpath]
    by_cases hlast : paths.getLast? = some addr
    · rw [if_pos hlast, if_neg, List.append_nil]
      rw [addsPath_iff haddr hP hnet]
      exact not_not.mpr hlast
    · rw [if_neg hlast, if_pos]
      exact (addsPath_iff haddr hP hnet).mpr hlast

/-- All the nodes of a message that is written are in one zone. -/
structure SameZone (cfg : Config) (zone : UInt16) (hdr : FmsgHdr) (area : Area)
    (seenbys paths : List FidoAddr) : Prop where
  sysaddr : (getsysfaddr cfg hdr.dest).InZone zone
  destzone : hdr.destzone = zone
  faddr : ∀ a ∈ cfg.faddr, a.InZone zone
  link : ∀ a ∈ area.link, a.InZone zone
  seenbys : ∀ a ∈ seenbys, a.InZone zone
  paths : ∀ a ∈ paths, a.InZone zone

/-- The seen-bys of a message that is written: those it had, the links that are not passive, and
the addresses of the system. -/
def allSeenBys (cfg : Config) (area : Area) (seenbys : List FidoAddr) : List FidoAddr :=
  seenbys ++
    (area.link.filter fun a ↦
      !(cfg.findnodecfg a).any NodeCfg.passive && !decide (a ∈ seenbys)) ++
    cfg.faddr.filter fun a ↦ !decide (a ∈ seenbys)

section Messages

variable {hdr : FmsgHdr} {area : Area} {tag : Str}

theorem SameZone.writtenSeenBys_eq (h : SameZone cfg zone hdr area seenbys paths) :
    writtenSeenBys cfg (getsysfaddr cfg hdr.dest) area.link seenbys =
      allSeenBys cfg area seenbys := by
  rw [writtenSeenBys, seenFrom_eq h.sysaddr.1 h.seenbys, seenLinks_eq h.sysaddr.1 h.link,
    seenAkas_eq h.sysaddr.1 h.faddr]
  rfl

theorem SameZone.allSeenBys_inZone (h : SameZone cfg zone hdr area seenbys paths) :
    ∀ a ∈ allSeenBys cfg area seenbys, a.InZone zone := by
  intro a ha
  rw [allSeenBys, List.mem_append, List.mem_append] at ha
  rcases ha with (ha | ha) | ha
  · exact h.seenbys a ha
  · exact h.link a (List.mem_of_mem_filter ha)
  · exact h.faddr a (List.mem_of_mem_filter ha)

theorem messageText_eq (stamp fbuf : Str) (htag : area.tag = some tag)
    (hzone : foreignZone cfg (getsysfaddr cfg hdr.dest).zone hdr.destzone = false) :
    messageText cfg stamp hdr area fbuf seenbys paths =
      bodyText hdr area fbuf ++
        (putSeenBys cfg (getsysfaddr cfg hdr.dest) area.link seenbys ++
          putPaths cfg (getsysfaddr cfg hdr.dest) paths ++ [13]) := by
  rw [messageText, htag]
  simp only [hzone, Bool.false_eq_true, if_false]

/-- The lists of a message that was written are read, but for an empty one of the seen-bys. -/
theorem SameZone.genList_messageText (h : SameZone cfg zone hdr area seenbys paths)
    (htag : area.tag = some tag) (stamp : Str) {fbuf : Str}
    (hfree : ∀ t : Tag, t.Free (fromOrigin cfg (bodyText hdr area fbuf))) :
    (genList .seenBy zone (fromOrigin cfg (messageText cfg stamp hdr area fbuf seenbys paths)) =
        some (allSeenBys cfg area seenbys) ↔ allSeenBys cfg area seenbys ≠ []) ∧
      genList .path zone (fromOrigin cfg (messageText cfg stamp hdr area fbuf seenbys paths)) =
        some (writtenPath cfg (getsysfaddr cfg hdr.dest) paths) := by
  obtain ⟨seenLs, hseen⟩ := @putSeenBys_block cfg zone _ _ _
    (h.writtenSeenBys_eq ▸ h.allSeenBys_inZone)
  obtain ⟨pathLs, hpath⟩ := @putPaths_block cfg zone _ paths
    (fun a ha ↦ h.paths a (List.mem_of_mem_filter ha)) h.sysaddr
  rw [h.writtenSeenBys_eq] at hseen
  obtain ⟨b, hb⟩ := bodyText_eq_append hdr htag fbuf
  have htext : fromOrigin cfg (messageText cfg stamp hdr area fbuf seenbys paths) =
      fromOrigin cfg b ++ (13 :: putSeenBys cfg (getsysfaddr cfg hdr.dest) area.link seenbys ++
        (putPaths cfg (getsysfaddr cfg hdr.dest) paths ++ [13])) := by
    rw [messageText_eq stamp fbuf htag (by rw [h.sysaddr.1, h.destzone, foreignZone_self]), hb]
    have hnot : 42 ∉ putSeenBys cfg (getsysfaddr cfg hdr.dest) area.link seenbys ++
        (putPaths cfg (getsysfaddr cfg hdr.dest) paths ++ [13]) := by
      have hseenbys := notMem_block hseen
      rw [List.mem_cons, not_or] at hseenbys
      simp [hseenbys.2, notMem_block hpath]
    rw [List.cons_append, ← fromOrigin_append cfg b hnot]
    simp
  have hfreeb : ∀ t : Tag, t.Free (fromOrigin cfg b) := by
    intro t
    have ht := hfree t
    rw [hb, fromOrigin_append cfg b (by simp)] at ht
    exact ht.append_left
  rw [htext]
  exact ⟨genList_seenBy_block_iff hfreeb hseen hpath, genList_path_block hfreeb hseen hpath⟩

/-- There is a seen-by, unless the system has no address and all links are passive. -/
theorem allSeenBys_ne_nil_iff :
    allSeenBys cfg area seenbys ≠ [] ↔
      seenbys ≠ [] ∨ cfg.faddr ≠ [] ∨
        ∃ a ∈ area.link, (cfg.findnodecfg a).any NodeCfg.passive = false := by
  by_cases hS : seenbys = []
  · subst hS
    simp only [allSeenBys, List.not_mem_nil, decide_false, Bool.not_false, Bool.and_true,
      List.filter_true, List.nil_append, ne_eq, not_true_eq_false, false_or, List.append_eq_nil_iff,
      List.filter_eq_nil_iff, Bool.not_eq_true, Bool.not_eq_false', not_and_or, not_forall]
    rw [or_comm]
    simp
  · simp [allSeenBys, hS]

/-- The addresses of a message are read as they are meant if and only if every line with a tag
has an address or an empty line behind it, and no address without a point follows one with a
point.  What is written is read again if and only if there is a seen-by and no net 0 in the
path. -/
theorem genPsb_iff (cfg : Config) :
    (∀ (m : Message) (zone : UInt16) (inbuf : Str), fromOrigin cfg inbuf = m.text →
      (genPsb cfg inbuf zone = some (m.addrs .seenBy zone, m.addrs .path zone) ↔
        ∀ tag, TagsFollowed tag m.lineEnd m.lines ∧
          (tokensOf tag m.lines).IsChain PointKept)) ∧
    ∀ (stamp fbuf : Str) (hdr : FmsgHdr) (area : Area) (seenbys paths : List FidoAddr)
      (zone : UInt16), area.tag.isSome → SameZone cfg zone hdr area seenbys paths →
      (∀ tag : Tag, tag.Free (fromOrigin cfg (bodyText hdr area fbuf))) →
      (genPsb cfg (messageText cfg stamp hdr area fbuf seenbys paths) zone =
          some (allSeenBys cfg area seenbys,
            if paths.getLast? = some (getsysfaddr cfg hdr.dest) then paths
            else paths ++ [getsysfaddr cfg hdr.dest]) ↔
        (seenbys ≠ [] ∨ cfg.faddr ≠ [] ∨
          ∃ a ∈ area.link, (cfg.findnodecfg a).any NodeCfg.passive = false) ∧
        ∀ a ∈ getsysfaddr cfg hdr.dest :: paths, a.net ≠ 0) := by
  constructor
  · intro m zone inbuf hm
    rw [genPsb_eq_some_iff, hm, m.genList_eq_addrs_iff, m.genList_eq_addrs_iff]
    constructor
    · rintro ⟨hseenBy, hpath⟩ (_ | _)
      · exact hseenBy
      · exact hpath
    · exact fun h ↦ ⟨h .seenBy, h .path⟩
  · intro stamp fbuf hdr area seenbys paths zone htag hsame hfree
    obtain ⟨tag, htag⟩ := Option.isSome_iff_exists.mp htag
    obtain ⟨hseenBy, hpath⟩ := hsame.genList_messageText htag stamp hfree
    rw [genPsb_eq_some_iff, hseenBy, hpath, allSeenBys_ne_nil_iff, Option.some.injEq,
      writtenPath_eq_iff hsame.sysaddr hsame.paths]

/-- A message with the line `SEEN-BY: 103/705 706`. -/
def nodeMessage : Message where
  lineEnd := .cr
  head := []
  lines := [.addrs .seenBy [⟨some 103, 705, none⟩, ⟨none, 706, none⟩]]
  head_cr := by decide
  head_lf := by decide
  head_path := by decide
  lines_wellFormed :=
    List.forall_mem_singleton.mpr (show (Line.str _).length ≤ 79 by decide +kernel)

/-- A message with the line `SEEN-BY: 1/2.3 4/5`. -/
def pointMessage : Message where
  lineEnd := .cr
  head := []
  lines := [.addrs .seenBy [⟨some 1, 2, some 3⟩, ⟨some 4, 5, none⟩]]
  head_cr := by decide
  head_lf := by decide
  head_path := by decide
  lines_wellFormed :=
    List.forall_mem_singleton.mpr (show (Line.str _).length ≤ 79 by decide +kernel)

/-- An echomail message to 1:103/706 in the area `X`. -/
def nodeHdr : FmsgHdr where
  toName := []
  fromName := []
  subj := []
  time := []
  destzone := 1
  destnet := 103
  destnode := 706
  destpoint := 0
  origzone := 1
  orignet := 103
  orignode := 705
  origpoint := 0
  attr := 0
  cost := 0

theorem genPsb_iff_node :
    genPsb loneConfig nodeMessage.text 1 =
        some (nodeMessage.addrs .seenBy 1, nodeMessage.addrs .path 1) ∧
      genPsb loneConfig (messageText loneConfig [] nodeHdr ⟨some [88], [⟨1, 103, 706, 0⟩]⟩ [65]
          [⟨1, 103, 1, 0⟩] []) 1 =
        some (allSeenBys loneConfig ⟨some [88], [⟨1, 103, 706, 0⟩]⟩ [⟨1, 103, 1, 0⟩],
          [⟨1, 103, 705, 0⟩]) := by
  constructor
  · refine ((genPsb_iff loneConfig).1 nodeMessage 1 nodeMessage.text (by decide +kernel)).mpr ?_
    rintro (_ | _)
    · exact ⟨⟨fun _ ↦ Or.inl (by simp), trivial⟩, by decide⟩
    · exact ⟨⟨fun h ↦ by simp at h, trivial⟩, by decide⟩
  · refine ((genPsb_iff loneConfig).2 [] [65] nodeHdr ⟨some [88], [⟨1, 103, 706, 0⟩]⟩
      [⟨1, 103, 1, 0⟩] [] 1 rfl ?_ ?_).mpr ⟨Or.inl (by decide), by decide +kernel⟩
    · constructor <;> decide
    · rintro (_ | _) <;> decide +kernel

/-- A point is kept for the address behind it. -/
theorem genPsb_pointMessage :
    fromOrigin loneConfig pointMessage.text = pointMessage.text ∧
      genPsb loneConfig pointMessage.text 1 = some ([⟨1, 1, 2, 3⟩, ⟨1, 4, 5, 3⟩], []) ∧
      pointMessage.addrs .seenBy 1 = [⟨1, 1, 2, 3⟩, ⟨1, 4, 5, 0⟩] := by
  have horigin : fromOrigin loneConfig pointMessage.text = pointMessage.text := by decide +kernel
  refine ⟨horigin, ?_, by decide⟩
  rw [genPsb_eq_some_iff, horigin, pointMessage.genList_eq 1 ⟨fun _ ↦ Or.inl (by simp), trivial⟩,
    pointMessage.genList_eq 1 ⟨fun h ↦ by simp at h, trivial⟩]
  decide +kernel

end Messages

end Synchronet.Sbbs3.Echo
