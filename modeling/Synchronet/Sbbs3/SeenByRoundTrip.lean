import Synchronet.Sbbs3.SeenByMessages

/-!
# SEEN-BY and PATH lines that are written and read

The loops of `putfmsg` write lines of at most 79 characters, and all but an empty list has an
address on each of them.  `gen_psb` reads them back.
-/

namespace Synchronet.Sbbs3.Echo

open Xpdev (Str)

/-! ## Lines that are written -/

/-- What an address is on the line that is written. -/
def AddrLine.token (l : AddrLine) (addr : FidoAddr) : Token :=
  ⟨if addr.net ≠ l.net ∨ l.netExists = false then some addr.net else none, addr.node, none⟩

theorem AddrLine.text_eq (l : AddrLine) (addr : FidoAddr) :
    l.text addr = 32 :: (l.token addr).text := by
  rw [text, token]
  split <;> simp [Token.text, Token.netText, Token.pointText]

theorem length_decimal_le (n : UInt16) : (decimal n).length ≤ 5 := by
  refine length_ultoa_le (by decide) (by decide) ?_
  have hlt := n.toNat_lt
  omega

theorem AddrLine.length_text_le (l : AddrLine) (addr : FidoAddr) : (l.text addr).length ≤ 12 := by
  have hnet := length_decimal_le addr.net
  have hnode := length_decimal_le addr.node
  rw [text]
  split
  · simp only [List.length_cons, List.length_append, List.cons_append]
    omega
  · simp only [List.length_cons]
    omega

/-- The lines `full` and the last one `cur` are written, for the addresses `done`. -/
structure Written (tag : Tag) (lead : Str) (zone : UInt16) (done : List FidoAddr) (l : AddrLine)
    (full : List (List Token)) (cur : List Token) : Prop where
  out : lead ++ l.out = body .cr ((full ++ [cur]).map (Line.addrs tag))
  lastlen : l.lastlen = (Line.addrs tag cur).str.length + 1
  fits : l.lastlen ≤ 80
  full_fits : ∀ ts ∈ full, (Line.addrs tag ts).str.length ≤ 79 ∧ ts ≠ []
  points : ∀ t ∈ (full ++ [cur]).flatten, t.point = none
  addrs : denote zone 0 (full ++ [cur]).flatten = done
  net : l.netExists = true → l.net = lastNet 0 (full ++ [cur]).flatten

section Written

variable {tag : Tag} {lead : Str} {zone : UInt16} {done : List FidoAddr} {l : AddrLine}
  {full : List (List Token)} {cur : List Token} {addr : FidoAddr}

/-- The address that a token stands for. -/
theorem Written.denote_token (h : Written tag lead zone done l full cur) (hzone : addr.zone = zone)
    (hpoint : addr.point = 0) :
    denote zone 0 ((full ++ [cur]).flatten ++ [l.token addr]) = done ++ [addr] := by
  have hnet : (l.token addr).net.getD (lastNet 0 (full ++ [cur]).flatten) = addr.net := by
    rw [AddrLine.token]
    split
    · rfl
    · case isFalse hsame =>
        push Not at hsame
        rw [← h.net (by simpa using hsame.2), Option.getD_none, hsame.1]
  rw [denote_append, h.addrs, denote, denote, Token.addr, hnet]
  obtain ⟨azone, anet, anode, apoint⟩ := addr
  obtain rfl : azone = zone := hzone
  obtain rfl : apoint = 0 := hpoint
  rfl

theorem Written.put (h : Written tag lead zone done l full cur) (hzone : addr.zone = zone)
    (hpoint : addr.point = 0) (hfits : l.lastlen + (l.text addr).length < 80) :
    Written tag lead zone (done ++ [addr]) (l.put addr) full (cur ++ [l.token addr]) := by
  have hflat : (full ++ [cur ++ [l.token addr]]).flatten =
      (full ++ [cur]).flatten ++ [l.token addr] := by simp
  have hdenote := h.denote_token hzone hpoint
  have hstr : (Line.addrs tag (cur ++ [l.token addr])).str =
      (Line.addrs tag cur).str ++ l.text addr := by
    rw [Line.str, wordsText_append, l.text_eq, Line.str, List.append_assoc]
    simp
  constructor
  case out =>
    have hout := h.out
    rw [List.map_append, body_append] at hout ⊢
    rw [AddrLine.put_out, ← List.append_assoc, hout]
    simp [hstr]
  case lastlen =>
    rw [AddrLine.put_lastlen, hstr, List.length_append, h.lastlen]
    omega
  case fits => exact hfits.le
  case full_fits => exact h.full_fits
  case points =>
    intro t ht
    rw [hflat, List.mem_append, List.mem_singleton] at ht
    rcases ht with ht | rfl
    · exact h.points t ht
    · rfl
  case addrs => rw [hflat, hdenote]
  case net =>
    intro _
    rw [hflat, lastNet_append, AddrLine.put_net]
    by_cases hsame : addr.net ≠ l.net ∨ l.netExists = false
    · simp [lastNet, AddrLine.token, hsame]
    · have htoken : l.token addr = ⟨none, addr.node, none⟩ := by rw [AddrLine.token, if_neg hsame]
      push Not at hsame
      rw [htoken, ← h.net (by simpa using hsame.2)]
      exact hsame.1

/-- A new line, before anything is on it. -/
theorem Written.wrap (h : Written tag lead zone done l full cur) (hcur : cur ≠ [])
    (hstart : tag.word.length + 1 ≤ 80) :
    Written tag lead zone done (l.wrap tag.word (tag.word.length + 1)) (full ++ [cur]) [] := by
  have hflat : (full ++ [cur] ++ [[]]).flatten = (full ++ [cur]).flatten := by simp
  constructor
  case out =>
    have hout := h.out
    rw [List.map_append, body_append, AddrLine.wrap_out, ← List.append_assoc, hout]
    simp [Line.str, LineEnd.str]
  case lastlen => simp [Line.str]
  case fits => exact hstart
  case full_fits =>
    intro ts hts
    rcases List.mem_append.mp hts with hts | hts
    · exact h.full_fits ts hts
    · rw [List.mem_singleton.mp hts]
      have hlast := h.lastlen
      have hfits := h.fits
      exact ⟨by omega, hcur⟩
  case points => rw [hflat]; exact h.points
  case addrs => rw [hflat, h.addrs]
  case net => simp

/-- An address fits on a new line. -/
theorem Written.cur_ne_nil (h : Written tag lead zone done l full cur)
    (hfits : ¬l.lastlen + (l.text addr).length < 80) : cur ≠ [] := by
  rintro rfl
  have hword : tag.word.length ≤ 8 := by cases tag <;> decide
  have hlast := h.lastlen
  have hlen := l.length_text_le addr
  rw [Line.str, wordsText_nil, List.append_nil] at hlast
  omega

/-- A round of the loops writes an address. -/
theorem Written.next (h : Written tag lead zone done l full cur) (hzone : addr.zone = zone)
    (hpoint : addr.point = 0) :
    ∃ full' cur', cur' ≠ [] ∧ Written tag lead zone (done ++ [addr])
      (l.next tag.word (tag.word.length + 1) addr) full' cur' := by
  have hword : tag.word.length ≤ 8 := by cases tag <;> decide
  rw [AddrLine.next]
  split
  · case isTrue hfits => exact ⟨full, _, by simp, h.put hzone hpoint hfits⟩
  · case isFalse hfits =>
      have hcur : cur ≠ [] := h.cur_ne_nil hfits
      refine ⟨full ++ [cur], _, by simp, (h.wrap hcur (by omega)).put hzone hpoint ?_⟩
      have hlen := (l.wrap tag.word (tag.word.length + 1)).length_text_le addr
      rw [AddrLine.wrap_lastlen]
      omega

/-- The loops write a list of addresses. -/
theorem Written.foldl (h : Written tag lead zone done l full cur) (hcur : cur = [] → full = [])
    {addrs : List FidoAddr} (hall : ∀ a ∈ addrs, a.zone = zone ∧ a.point = 0) :
    ∃ full' cur', (cur' = [] → full' = []) ∧ Written tag lead zone (done ++ addrs)
      (addrs.foldl (AddrLine.next tag.word (tag.word.length + 1)) l) full' cur' := by
  induction addrs generalizing done l full cur with
  | nil =>
      rw [List.append_nil]
      exact ⟨full, cur, hcur, h⟩
  | cons a addrs ih =>
      obtain ⟨hzone, hpoint⟩ := hall a List.mem_cons_self
      obtain ⟨full', cur', hne, hnext⟩ := h.next hzone hpoint
      obtain ⟨full'', cur'', hcur'', hrest⟩ := ih hnext (fun hnil ↦ absurd hnil hne)
        fun a' ha' ↦ hall a' (List.mem_cons_of_mem _ ha')
      rw [List.append_assoc] at hrest
      exact ⟨full'', cur'', hcur'', hrest⟩

end Written

/-! ## Lists that are written -/

/-- Lines of a tag for a list of addresses: an address on each, or one line without any. -/
structure Block (tag : Tag) (zone : UInt16) (addrs : List FidoAddr) (out : Str)
    (ls : List (List Token)) : Prop where
  out : out = body .cr (ls.map (Line.addrs tag))
  fits : ∀ ts ∈ ls, (Line.addrs tag ts).str.length ≤ 79
  points : ∀ t ∈ ls.flatten, t.point = none
  addrs : denote zone 0 ls.flatten = addrs
  filled : ls = [[]] ∨ ls ≠ [] ∧ ∀ ts ∈ ls, ts ≠ []

theorem Block.ne_nil_iff {tag : Tag} {zone : UInt16} {addrs : List FidoAddr} {out : Str}
    {ls : List (List Token)} (h : Block tag zone addrs out ls) : addrs ≠ [] ↔ ls.flatten ≠ [] := by
  rw [← h.addrs, ← List.length_pos_iff, ← List.length_pos_iff, length_denote]

theorem Written.block {tag : Tag} {lead : Str} {zone : UInt16} {done : List FidoAddr}
    {l : AddrLine} {full : List (List Token)} {cur : List Token}
    (h : Written tag lead zone done l full cur) (hcur : cur = [] → full = []) :
    Block tag zone done (lead ++ l.out) (full ++ [cur]) := by
  constructor
  case out => exact h.out
  case points => exact h.points
  case addrs => exact h.addrs
  case fits =>
    intro ts hts
    rcases List.mem_append.mp hts with hts | hts
    · exact (h.full_fits ts hts).1
    · rw [List.mem_singleton.mp hts]
      have hlast := h.lastlen
      have hfits := h.fits
      omega
  case filled =>
    by_cases hnil : cur = []
    · rw [hnil, hcur hnil]
      exact Or.inl rfl
    · refine Or.inr ⟨by simp, fun ts hts ↦ ?_⟩
      rcases List.mem_append.mp hts with hts | hts
      · exact (h.full_fits ts hts).2
      · rwa [List.mem_singleton.mp hts]

/-- The own address on a new line, as it was to stand on the line before. -/
theorem Written.behind {tag : Tag} {lead : Str} {zone : UInt16} {done : List FidoAddr}
    {l : AddrLine} {full : List (List Token)} {cur : List Token} {addr : FidoAddr}
    (h : Written tag lead zone done l full cur) (hcur : cur ≠ []) (hzone : addr.zone = zone)
    (hpoint : addr.point = 0) :
    Block tag zone (done ++ [addr]) (lead ++ (l.out ++ 13 :: tag.word ++ l.text addr))
      (full ++ [cur] ++ [[l.token addr]]) := by
  have hword : tag.word.length ≤ 8 := by cases tag <;> decide
  have hflat : (full ++ [cur] ++ [[l.token addr]]).flatten =
      (full ++ [cur]).flatten ++ [l.token addr] := by simp
  have hwrap := h.wrap hcur (by omega)
  constructor
  case out =>
    rw [List.map_append, body_append, ← h.out, l.text_eq]
    simp [Line.str, LineEnd.str]
  case fits =>
    intro ts hts
    rcases List.mem_append.mp hts with hts | hts
    · exact (hwrap.full_fits ts hts).1
    · have hlen := l.length_text_le addr
      rw [l.text_eq, List.length_cons] at hlen
      rw [List.mem_singleton.mp hts, Line.str, wordsText_cons, wordsText_nil, List.append_nil,
        List.length_append, List.length_cons]
      omega
  case points =>
    intro t ht
    rw [hflat, List.mem_append, List.mem_singleton] at ht
    rcases ht with ht | rfl
    · exact h.points t ht
    · rfl
  case addrs => rw [hflat, h.denote_token hzone hpoint]
  case filled =>
    refine Or.inr ⟨by simp, fun ts hts ↦ ?_⟩
    rcases List.mem_append.mp hts with hts | hts
    · exact (hwrap.full_fits ts hts).2
    · rw [List.mem_singleton.mp hts]
      simp

/-- Before anything is on the first line. -/
theorem Written.start (tag : Tag) (lead : Str) (zone net : UInt16) {out : Str}
    (hout : lead ++ out = 13 :: tag.word) :
    Written tag lead zone [] ⟨out, tag.word.length + 1, false, net⟩ [] [] := by
  constructor
  case out => simpa [Line.str, LineEnd.str] using hout
  case lastlen => simp [Line.str]
  case fits => cases tag <;> simp [Tag.word, seenByTag, pathTag]
  case full_fits => simp
  case points => simp
  case addrs => rfl
  case net => simp

variable (cfg : Config)

/-- The seen-bys that are written. -/
def writtenSeenBys (addr : FidoAddr) (links seenbys : List FidoAddr) : List FidoAddr :=
  seenFrom cfg addr seenbys ++ seenLinks cfg addr links seenbys ++ seenAkas cfg addr seenbys

/-- The path that is written. -/
def writtenPath (sysaddr : FidoAddr) (paths : List FidoAddr) : List FidoAddr :=
  pathFrom cfg sysaddr paths ++ if addsPath cfg sysaddr paths then [sysaddr] else []

theorem putSeenBys_block {zone : UInt16} {addr : FidoAddr} {links seenbys : List FidoAddr}
    (hall : ∀ a ∈ writtenSeenBys cfg addr links seenbys, a.zone = zone ∧ a.point = 0) :
    ∃ ls, Block .seenBy zone (writtenSeenBys cfg addr links seenbys)
      (13 :: putSeenBys cfg addr links seenbys) ls := by
  obtain ⟨full, cur, hcur, hwritten⟩ :=
    (Written.start .seenBy [13] zone addr.net (by rfl)).foldl (fun _ ↦ rfl) hall
  rw [writtenSeenBys, List.foldl_append, List.foldl_append] at hwritten
  exact ⟨_, hwritten.block hcur⟩

theorem putPaths_block {zone : UInt16} {sysaddr : FidoAddr} {paths : List FidoAddr}
    (hall : ∀ a ∈ pathFrom cfg sysaddr paths, a.zone = zone ∧ a.point = 0)
    (hsys : sysaddr.zone = zone ∧ sysaddr.point = 0) :
    ∃ ls, Block .path zone (writtenPath cfg sysaddr paths) (putPaths cfg sysaddr paths) ls := by
  obtain ⟨full, cur, hcur, hwritten⟩ : ∃ full cur, (cur = [] → full = []) ∧
      Written .path [] zone (pathFrom cfg sysaddr paths)
        ((pathFrom cfg sysaddr paths).foldl (AddrLine.next pathTag 7)
          ⟨13 :: pathTag, 7, false, sysaddr.net⟩) full cur :=
    (Written.start .path [] zone sysaddr.net (by rfl)).foldl (fun _ ↦ rfl) hall
  rw [putPaths, writtenPath]
  generalize (pathFrom cfg sysaddr paths).foldl (AddrLine.next pathTag 7)
    ⟨13 :: pathTag, 7, false, sysaddr.net⟩ = l at hwritten ⊢
  split
  · case isTrue hadds =>
      by_cases hfits : l.lastlen + (l.text sysaddr).length < 80
      · rw [if_pos hfits]
        exact ⟨_, (hwritten.put hsys.1 hsys.2 hfits).block (by simp)⟩
      · rw [if_neg hfits]
        have hcur : cur ≠ [] := hwritten.cur_ne_nil hfits
        have hbehind := hwritten.behind hcur hsys.1 hsys.2
        rw [List.nil_append] at hbehind
        exact ⟨_, hbehind⟩
  · case isFalse hadds =>
      rw [List.append_nil]
      exact ⟨_, hwritten.block hcur⟩

/-! ## Lists that are read -/

theorem tokensOf_append (tag : Tag) (lines lines' : List Line) :
    tokensOf tag (lines ++ lines') = tokensOf tag lines ++ tokensOf tag lines' :=
  List.flatMap_append

theorem tokensOf_map_self (tag : Tag) (ls : List (List Token)) :
    tokensOf tag (ls.map (Line.addrs tag)) = ls.flatten := by
  induction ls with
  | nil => rfl
  | cons ts ls ih => rw [List.map_cons, tokensOf_addrs_self, ih, List.flatten_cons]

theorem tokensOf_map_of_ne {tag tag' : Tag} (h : tag' ≠ tag) (ls : List (List Token)) :
    tokensOf tag (ls.map (Line.addrs tag')) = [] := by
  induction ls with
  | nil => rfl
  | cons ts ls ih => rw [List.map_cons, tokensOf_addrs_of_ne h, ih]

theorem tagsFollowed_map_of_ne {tag tag' : Tag} (h : tag' ≠ tag) (e : LineEnd)
    (ls : List (List Token)) (rest : List Line) :
    TagsFollowed tag e (ls.map (Line.addrs tag') ++ rest) ↔ TagsFollowed tag e rest := by
  induction ls with
  | nil => rfl
  | cons ts ls ih => simp [TagsFollowed, h, ih]

theorem tagsFollowed_map_of_filled {tag : Tag} (e : LineEnd) {ls : List (List Token)}
    (h : ∀ ts ∈ ls, ts ≠ []) (rest : List Line) :
    TagsFollowed tag e (ls.map (Line.addrs tag) ++ rest) ↔ TagsFollowed tag e rest := by
  induction ls with
  | nil => rfl
  | cons ts ls ih =>
      have hts : ts ≠ [] := h ts List.mem_cons_self
      simpa [TagsFollowed, hts] using ih fun ts' hts' ↦ h ts' (List.mem_cons_of_mem _ hts')

theorem isChain_pointKept {ts : List Token} (h : ∀ t ∈ ts, t.point = none) :
    ts.IsChain PointKept := by
  induction ts with
  | nil => exact List.IsChain.nil
  | cons t ts ih =>
      rw [List.isChain_cons]
      refine ⟨fun t' _ ↦ Or.inl ?_, ih fun t' ht' ↦ h t' (List.mem_cons_of_mem _ ht')⟩
      rw [h t List.mem_cons_self, Option.getD_none]

section Blocks

variable {zone : UInt16} {seenbys paths : List FidoAddr} {seenOut pathOut head : Str}
  {seenLs pathLs : List (List Token)}

/-- The message that is written, line by line. -/
def blockMessage (hfree : ∀ tag : Tag, tag.Free head)
    (hseen : Block .seenBy zone seenbys seenOut seenLs)
    (hpath : Block .path zone paths pathOut pathLs) : Message where
  lineEnd := .cr
  head := head
  lines := seenLs.map (Line.addrs .seenBy) ++ (pathLs.map (Line.addrs .path) ++ [.text []])
  head_cr := (hfree .seenBy).1
  head_lf := (hfree .seenBy).2
  head_path := hfree .path
  lines_wellFormed := by
    intro l hl
    rw [List.mem_append, List.mem_append, List.mem_map, List.mem_map, List.mem_singleton] at hl
    rcases hl with ⟨ts, hts, rfl⟩ | ⟨ts, hts, rfl⟩ | rfl
    · exact hseen.fits ts hts
    · exact hpath.fits ts hts
    · simp [Line.WellFormed, seenByTag, pathTag]

variable (hfree : ∀ tag : Tag, tag.Free head) (hseen : Block .seenBy zone seenbys seenOut seenLs)
  (hpath : Block .path zone paths pathOut pathLs)

theorem blockMessage_text :
    (blockMessage hfree hseen hpath).text = head ++ (seenOut ++ (pathOut ++ [13])) := by
  have hseenOut := hseen.out
  have hpathOut := hpath.out
  subst hseenOut hpathOut
  simp [Message.text, blockMessage, body_append, Line.str, LineEnd.str]

theorem blockMessage_tokensOf_seenBy :
    tokensOf .seenBy (blockMessage hfree hseen hpath).lines = seenLs.flatten := by
  change tokensOf .seenBy (seenLs.map (Line.addrs .seenBy) ++
    (pathLs.map (Line.addrs .path) ++ [.text []])) = _
  rw [tokensOf_append, tokensOf_append, tokensOf_map_self, tokensOf_map_of_ne (by decide)]
  simp [tokensOf, Line.tokensOf]

theorem blockMessage_tokensOf_path :
    tokensOf .path (blockMessage hfree hseen hpath).lines = pathLs.flatten := by
  change tokensOf .path (seenLs.map (Line.addrs .seenBy) ++
    (pathLs.map (Line.addrs .path) ++ [.text []])) = _
  rw [tokensOf_append, tokensOf_append, tokensOf_map_self, tokensOf_map_of_ne (by decide)]
  simp [tokensOf, Line.tokensOf]

include hfree hseen hpath

/-- The path is read as it is written. -/
theorem genList_path_block :
    genList .path zone (head ++ (seenOut ++ (pathOut ++ [13]))) = some paths := by
  have hfollowed : TagsFollowed .path .cr (blockMessage hfree hseen hpath).lines := by
    refine (tagsFollowed_map_of_ne (by decide) .cr seenLs _).mpr ?_
    rcases hpath.filled with rfl | ⟨-, hfilled⟩
    · exact ⟨fun _ ↦ Or.inr ⟨rfl, rfl⟩, trivial⟩
    · exact (tagsFollowed_map_of_filled .cr hfilled _).mpr trivial
  have haddrs : (blockMessage hfree hseen hpath).addrs .path zone = paths := by
    rw [Message.addrs, blockMessage_tokensOf_path, hpath.addrs]
  have hchain : (tokensOf .path (blockMessage hfree hseen hpath).lines).IsChain PointKept := by
    rw [blockMessage_tokensOf_path]
    exact isChain_pointKept hpath.points
  have hiff := (blockMessage hfree hseen hpath).genList_eq_addrs_iff .path zone
  rw [haddrs, blockMessage_text] at hiff
  exact hiff.mpr ⟨hfollowed, hchain⟩

/-- The seen-bys are read as they are written, unless there is none. -/
theorem genList_seenBy_block_iff :
    genList .seenBy zone (head ++ (seenOut ++ (pathOut ++ [13]))) = some seenbys ↔
      seenbys ≠ [] := by
  have hfollowed : TagsFollowed .seenBy .cr (blockMessage hfree hseen hpath).lines ↔
      seenbys ≠ [] := by
    rw [hseen.ne_nil_iff]
    have hrest : TagsFollowed .seenBy .cr (pathLs.map (Line.addrs .path) ++ [.text []]) :=
      (tagsFollowed_map_of_ne (by decide) .cr pathLs _).mpr trivial
    rcases hseen.filled with rfl | ⟨hne, hfilled⟩
    · have hpathLs : pathLs ≠ [] := by
        rcases hpath.filled with rfl | ⟨hne, -⟩
        · simp
        · exact hne
      obtain ⟨ts, ls, rfl⟩ := List.exists_cons_of_ne_nil hpathLs
      simp [blockMessage, TagsFollowed]
    · refine iff_of_true ((tagsFollowed_map_of_filled .cr hfilled _).mpr hrest) ?_
      obtain ⟨ts, ls, rfl⟩ := List.exists_cons_of_ne_nil hne
      obtain ⟨t, ts, rfl⟩ := List.exists_cons_of_ne_nil (hfilled ts List.mem_cons_self)
      simp
  have haddrs : (blockMessage hfree hseen hpath).addrs .seenBy zone = seenbys := by
    rw [Message.addrs, blockMessage_tokensOf_seenBy, hseen.addrs]
  have hchain : (tokensOf .seenBy (blockMessage hfree hseen hpath).lines).IsChain PointKept := by
    rw [blockMessage_tokensOf_seenBy]
    exact isChain_pointKept hseen.points
  have hiff := (blockMessage hfree hseen hpath).genList_eq_addrs_iff .seenBy zone
  rw [haddrs, blockMessage_text] at hiff
  exact hiff.trans ((and_iff_left hchain).trans hfollowed)

end Blocks

end Synchronet.Sbbs3.Echo
