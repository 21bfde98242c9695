import Synchronet.Xpdev.IniSet

/-!
# Edits are local

What `iniSetString`, `iniRemoveKey` and `iniRemoveSection` change in a list, and that the
other keys keep their strings.  A search ends at a header behind white space and at `!eof`,
whereas the edits test the first character of a line.
-/

namespace Synchronet.Xpdev

open Trim
open Smblib (isspace strlwr)

/-! ## Lines that another search does not see -/

section

variable {blank : Str → ℕ × Str → Bool} {key : Str} {deflt v : Option Str}

/-- The lines behind the same lines are compared. -/
theorem stringAt_append_mono (xs : List Str) {ys zs : List Str}
    (h : stringAt blank key deflt ys = some v → stringAt blank key deflt zs = some v) :
    stringAt blank key deflt (xs ++ ys) = some v → stringAt blank key deflt (xs ++ zs) = some v := by
  induction xs with
  | nil => exact h
  | cons s xs ih =>
      rw [List.cons_append, List.cons_append, stringAt, stringAt]
      split
      · exact id
      · split
        · exact id
        · split
          · exact ih
          · exact id

/-- A line without the key can be put between others or taken away. -/
theorem stringAt_insert {s : Str} (xs ys : List Str) (hs : passes key s = true)
    (hread : readable true s = true) (h : stringAt blank key deflt (xs ++ ys) = some v) :
    stringAt blank key deflt (xs ++ s :: ys) = some v := by
  refine stringAt_append_mono xs (fun h ↦ ?_) h
  rw [stringAt_pass _ hs, if_pos hread]
  exact h

theorem stringAt_remove {s : Str} (xs ys : List Str) (hs : passes key s = true)
    (h : stringAt blank key deflt (xs ++ s :: ys) = some v) :
    stringAt blank key deflt (xs ++ ys) = some v := by
  refine stringAt_append_mono xs (fun h ↦ ?_) h
  rw [stringAt_pass _ hs] at h
  split at h
  · exact h
  · cases h

/-- The section ends where the lines start. -/
def Ends (ys : List Str) : Prop := ∀ s ∈ ys.head?, stops s = true

theorem stringAt_ends {ys : List Str} (h : Ends ys) : stringAt blank key deflt ys = some deflt := by
  cases ys with
  | nil => rfl
  | cons s ys => exact stringAt_stop ys (h s rfl)

theorem stringAt_append_ends (xs : List Str) {ys zs : List Str} (hy : Ends ys) (hz : Ends zs)
    (h : stringAt blank key deflt (xs ++ ys) = some v) :
    stringAt blank key deflt (xs ++ zs) = some v := by
  refine stringAt_append_mono xs (fun h ↦ ?_) h
  rwa [stringAt_ends hz, ← stringAt_ends hy]

/-- Behind the end of the section nothing is read. -/
theorem stringAt_append_stops {xs : List Str} (hxs : ∃ s ∈ xs, stops s = true) (ys zs : List Str) :
    stringAt blank key deflt (xs ++ ys) = stringAt blank key deflt (xs ++ zs) := by
  induction xs with
  | nil => simp at hxs
  | cons s xs ih =>
      rw [List.cons_append, List.cons_append, stringAt, stringAt]
      split
      · rfl
      case isFalse hs =>
        have : ∃ t ∈ xs, stops t = true := by
          obtain ⟨t, ht, hstop⟩ := hxs
          rcases List.mem_cons.mp ht with rfl | ht
          · exact absurd hstop hs
          · exact ⟨t, ht, hstop⟩
        rw [ih this]

end

/-! ## Headers end sections -/

theorem stops_of_nameIn {s : Str} (h : nameIn s ≠ none) : stops s = true := by
  have hopen : opensSection (afterIsEof (safecopy iniMaxValueLen s)) = true := by
    by_contra ho
    exact h (sectionName_eq_none (by simpa using ho))
  by_cases hhead : (safecopy iniMaxValueLen s).head? = some 0x21
  · rw [afterIsEof_head _ hhead] at hopen
    cases hopen
  · rw [afterIsEof, if_neg hhead] at hopen
    have htake : safecopy iniMaxValueLen s =
        (safecopy iniMaxLineLen s).take (iniMaxValueLen - 1) := by
      rw [safecopy, safecopy, List.take_take]
      rfl
    have hhead' : (safecopy iniMaxLineLen s).head? ≠ some 0x21 := by
      rwa [htake, List.head?_take, if_neg (by decide)] at hhead
    rw [htake] at hopen
    rw [stops, lineBuf, afterIsEof, if_neg hhead', opensSection_of_take hopen, Bool.or_true]

theorem stops_of_heads {sec s : Str} {cs : Bool} (h : heads sec cs s = true) : stops s = true := by
  refine stops_of_nameIn fun hn ↦ ?_
  simp [heads, hn] at h

theorem HeaderAt.stops {sec : Str} {pre post : List Str} {hdr : Str}
    (h : HeaderAt sec pre hdr post) : stops hdr = true := by
  cases h with
  | exact _ _ hh => exact stops_of_heads hh
  | anyCase _ _ hh => exact stops_of_heads hh

theorem HeaderAt.not_eofLine {sec : Str} {pre post : List Str} {hdr : Str}
    (h : HeaderAt sec pre hdr post) : eofLine hdr = false := by
  cases h with
  | exact _ he _ => exact he
  | anyCase hall _ _ => exact (hall hdr (by simp)).1

/-- Both searches see the same `!eof` lines. -/
def EofAgrees (list : List Str) : Prop := ∀ s ∈ list, eofLine s = true → stops s = true

theorem neutral_of_not_stops {list : List Str} (h : EofAgrees list) {s : Str} (hs : s ∈ list)
    (hstop : stops s = false) : Neutral s := by
  constructor
  · by_contra he
    rw [h s hs (by simpa using he)] at hstop
    cases hstop
  · by_contra hn
    rw [stops_of_nameIn hn] at hstop
    cases hstop

/-! ## Other sections -/

/-- The other name finds the section that is edited.  A section that is not in the list is
edited where its header is added. -/
def SameSection (list : List Str) : Option Str → Option Str → Prop
  | none, none => True
  | some sec, some other =>
      if findSectionIndex list sec < list.length then
        findSectionIndex list other = findSectionIndex list sec
      else heads other false (sectionHeader sec) = true
  | _, _ => False

theorem exists_header_at {list pre post : List Str} (sec : Str) (hlist : list = pre ++ post)
    (h : findSectionIndex list sec < pre.length) :
    ∃ s, pre[findSectionIndex list sec]? = some s ∧ stops s = true := by
  rcases header_or_noHeader list sec with ⟨before, hdr, behind, heq, hdrAt⟩ | hno
  · have hidx : findSectionIndex list sec = before.length := by
      rw [heq]
      exact hdrAt.findSectionIndex
    refine ⟨hdr, ?_, hdrAt.stops⟩
    rw [← @List.getElem?_append_left _ pre post _ h, ← hlist, hidx, heq]
    simp
  · rw [hno.findSectionIndex, hlist, List.length_append] at h
    omega

theorem mem_drop_of_getElem? {α : Type*} {xs : List α} {x : α} {i k : ℕ} (h : xs[i]? = some x)
    (hk : k ≤ i) : x ∈ xs.drop k := by
  refine List.mem_of_getElem? (i := i - k) ?_
  rw [List.getElem?_drop, Nat.add_sub_cancel' hk, h]

/-- Another section that starts in front of the edited line ends there, too. -/
theorem exists_stops_of_not_same {list pre post : List Str} {section_ other : Option Str}
    (hlist : list = pre ++ post) (hstart : sectionStart list section_ ≤ pre.length)
    (hpre : ∀ s ∈ pre.drop (sectionStart list section_), stops s = false)
    (hother : sectionStart list other ≤ pre.length) (hne : ¬ SameSection list section_ other) :
    ∃ s ∈ pre.drop (sectionStart list other), stops s = true := by
  have hlen : list.length = pre.length + post.length := by simp [hlist]
  cases section_ with
  | none =>
      cases other with
      | none => exact absurd trivial hne
      | some sec' =>
          obtain ⟨s, hs, hstop⟩ := exists_header_at sec' hlist hother
          rw [hpre s (mem_drop_of_getElem? hs (Nat.zero_le _))] at hstop
          cases hstop
  | some sec =>
      obtain ⟨s, hs, hstop⟩ := exists_header_at sec hlist hstart
      cases other with
      | none => exact ⟨s, mem_drop_of_getElem? hs (Nat.zero_le _), hstop⟩
      | some sec' =>
          simp only [sectionStart, Option.elim_some] at hstart hpre hother ⊢
          have hidx : findSectionIndex list sec' ≠ findSectionIndex list sec := by
            simpa [SameSection, show findSectionIndex list sec < list.length by omega] using hne
          rcases Nat.lt_or_gt_of_ne hidx with hlt | hgt
          · exact ⟨s, mem_drop_of_getElem? hs hlt, hstop⟩
          · obtain ⟨t, ht, htstop⟩ := exists_header_at sec' hlist hother
            rw [hpre t (mem_drop_of_getElem? ht hgt)] at htstop
            cases htstop

/-! ## Edits of one line -/

/-- Neutral lines take the place of neutral lines in one section.  Other sections keep their
strings, and so does a key that is read in the same way in this one. -/
theorem iniGetString_replace (pre mid mid' post : List Str) (section_ : Option Str)
    {other : Option Str} {key : Str} {deflt v : Option Str}
    (hmid : ∀ s ∈ mid, Neutral s) (hmid' : ∀ s ∈ mid', Neutral s)
    (hstart : sectionStart (pre ++ mid ++ post) section_ ≤ pre.length)
    (hpre : ∀ s ∈ pre.drop (sectionStart (pre ++ mid ++ post) section_), stops s = false)
    (hother : ¬ SameSection (pre ++ mid ++ post) section_ other ∨
      ∀ xs, stringAt blankText key deflt (xs ++ (mid ++ post)) = some v →
        stringAt blankText key deflt (xs ++ (mid' ++ post)) = some v)
    (h : iniGetString (pre ++ mid ++ post) other key deflt = some v) :
    iniGetString (pre ++ mid' ++ post) other key deflt = some v := by
  rw [iniGetString_eq_stringAt] at h ⊢
  rcases sectionLines_insert other pre mid post hmid with
    ⟨k, hk, hbase, hlist, -, hlines⟩ | ⟨hlt, hlines⟩
  · rcases sectionLines_insert other pre mid' post hmid' with
      ⟨k', -, hbase', -, -, hlines'⟩ | ⟨hlt', -⟩
    · have hkk : k' = k := hbase'.symm.trans hbase
      subst hkk
      rw [hlines, List.append_assoc] at h
      rw [hlines', List.append_assoc]
      rcases hother with hne | hkey
      · have hstops := exists_stops_of_not_same (List.append_assoc pre mid post) hstart hpre
          (by rw [hlist]; exact hk) hne
        rw [hlist] at hstops
        rwa [← stringAt_append_stops hstops (mid ++ post)]
      · exact hkey _ h
    · omega
  · rcases sectionLines_insert other pre mid' post hmid' with
      ⟨k', hk', hbase', -, -, -⟩ | ⟨-, hlines'⟩
    · omega
    · rwa [hlines', ← hlines]

/-! ## The edits -/

inductive IniEdit
  | setString (value : Option Str)
  | removeKey
  | removeSection

/-- The list after an edit; where a function returns `FALSE` it is the list from before. -/
def IniEdit.run (list : List Str) (section_ : Option Str) (key : Str) :
    IniEdit → Option (List Str)
  | .setString value => iniSetString list section_ key value {}
  | .removeKey => (iniRemoveKey list section_ key).map (·.getD list)
  | .removeSection => (iniRemoveSection list section_).map (·.getD list)

/-- What an edit may change: the line that holds the key in the section, one more line in
the section, with its header where there is none; for a removal, the line or the section. -/
inductive Changes (list : List Str) (section_ : Option Str) (key : Str) :
    IniEdit → List Str → Prop
  | same (e : IniEdit) : Changes list section_ key e list
  | line {value : Option Str} {pre post : List Str} {s : Str} (line : Str)
      (hlines : sectionLines list section_ = pre ++ s :: post)
      (hpre : ∀ t ∈ pre, stops t = false) (hs : holds key s = true) :
      Changes list section_ key (.setString value)
        (list.take (findSection list section_) ++ (pre ++ line :: post))
  | insert {value : Option Str} {pre post : List Str} (line : Str)
      (hlines : sectionLines list section_ = pre ++ post) (hpre : ∀ t ∈ pre, stops t = false) :
      Changes list section_ key (.setString value)
        (list.take (findSection list section_) ++ (pre ++ line :: post))
  | append {value : Option Str} {sec : Str} (line : Str) (hsec : section_ = some sec) :
      Changes list section_ key (.setString value) (list ++ [sectionHeader sec, line])
  | key {pre post : List Str} {s : Str} (hlines : sectionLines list section_ = pre ++ s :: post)
      (hpre : ∀ t ∈ pre, stops t = false) (hs : holds key s = true) :
      Changes list section_ key .removeKey
        (list.take (findSection list section_) ++ (pre ++ post))
  | section_ {pre body rest : List Str} {hdr sec : Str} (hsec : section_ = some sec)
      (hlist : list = pre ++ hdr :: (body ++ rest))
      (hidx : findSectionIndex list sec = pre.length) (hbody : ∀ t ∈ body, stops t = false) :
      Changes list section_ key .removeSection (pre ++ rest)

/-- The set adds the header of the section. -/
def AddsHeader (list : List Str) (section_ : Option Str) : Prop :=
  ∃ sec, section_ = some sec ∧ list.length ≤ findSectionIndex list sec

/-- Another place than the edited one.  Where a header is added, the other section is asked
for by a single name. -/
def IniEdit.Other (list : List Str) (section_ : Option Str) (key : Str) (other : Option Str)
    (key' : Str) : IniEdit → Prop
  | .setString _ => (¬ SameSection list section_ other ∨ stricmp key' key = false) ∧
      (AddsHeader list section_ → ∀ name, other = some name → iniSectionNameSep ∉ name)
  | .removeKey => ¬ SameSection list section_ other ∨ stricmp key' key = false
  | .removeSection => ¬ SameSection list section_ other

/-- The edit returns, changes what it may change, and all other strings stay. -/
def IniEdit.Local (list : List Str) (section_ : Option Str) (key : Str) (e : IniEdit) : Prop :=
  ∃ list', e.run list section_ key = some list' ∧ Changes list section_ key e list' ∧
    ∀ other key', e.Other list section_ key other key' → ∀ deflt v,
      iniGetString list other key' deflt = some v → iniGetString list' other key' deflt = some v

/-- A line that is read as the key, or as no key, by every search. -/
structure ReadsAs (key line : Str) : Prop where
  neutral : Neutral line
  stops : stops line = false
  readable : readable true line = true
  name : ∀ name, keyOf (lineBuf line) = some name → stricmp name key = true

/-- The names and the value fit, and `!eof` is read in the same lines by both searches. -/
def IniEdit.Fits (list : List Str) (section_ : Option Str) (key : Str) (e : IniEdit) : Prop :=
  EofAgrees list ∧
    match e with
    | .setString value =>
        (∃ text, valueText (value.getD []) (writesLiteral value) {} = some text ∧
          ReadsAs key (keyLine key text {})) ∧
        ∀ sec, section_ = some sec → findSectionIndex list sec < list.length ∨
          sec.length + 2 < iniMaxValueLen
    | _ => True

/-- The line where the search for the key ends, and the lines that a removal takes, are not
headers behind white space and not `!eof`; and what is searched can be read. -/
def IniEdit.Clean (list : List Str) (section_ : Option Str) (key : Str) : IniEdit → Prop
  | .setString value =>
      (∀ s ∈ searched key (sectionLines list section_),
        readable (writesLiteral value) s = true) ∧
      ∀ s ∈ ((sectionLines list section_).dropWhile (passes key)).head?, stops s = true →
        s.head? = some iniOpenSectionChar ∨
          (valueText (value.getD []) (writesLiteral value) {}).map Prod.snd = some []
  | .removeKey => True
  | .removeSection =>
      section_.elim ((findRootIndex list).isSome = true) fun sec ↦
        ∀ s ∈ (list.drop (findSectionIndex list sec + 1)).takeWhile
          fun s ↦ s.head? ≠ some iniOpenSectionChar, stops s = false

/-! ## Removing a key -/

variable {list : List Str} {section_ : Option Str} {key : Str}

theorem getValue_eq {pre tail : List Str} (lit : Bool)
    (hlines : sectionLines list section_ = pre ++ tail)
    (hpass : ∀ s ∈ pre, passes key s = true) :
    getValue list section_ key lit =
      if pre.all (readable lit) then
        getValueLoop key lit (findSection list section_ + pre.length) tail
      else none := by
  rw [← getValueLoop_append lit _ _ _ hpass, ← hlines]
  rfl

theorem not_stops_of_passes {s : Str} (h : passes key s = true) : stops s = false := by
  simp only [passes, Bool.and_eq_true, Bool.not_eq_true'] at h
  exact h.1

theorem stricmp_symm (a b : Str) : stricmp a b = stricmp b a := by
  unfold stricmp
  exact Bool.beq_comm

/-- A line that holds one key does not hold another. -/
theorem passes_of_holds {s key' : Str} (h : holds key s = true) (hne : stricmp key' key = false) :
    passes key' s = true := by
  have hstop := not_stops_of_holds h
  obtain ⟨name, hname, hkey⟩ : ∃ name, keyOf (lineBuf s) = some name ∧ stricmp name key = true := by
    simpa [holds, hstop, Option.any_eq_true] using h
  have : stricmp name key' = false := by
    by_contra hn
    have h1 : strlwr name = strlwr key := by simpa [stricmp] using hkey
    have h2 : strlwr name = strlwr key' := by simpa [stricmp] using hn
    have : stricmp key' key = true := by simp [stricmp, ← h1, ← h2]
    rw [hne] at this
    cases this
  simp [passes, holds, hstop, hname, this]

/-- The lines of a section that is in the list start behind its header. -/
theorem sectionStart_eq (h : sectionLines list section_ ≠ []) :
    sectionStart list section_ = findSection list section_ := by
  cases section_ with
  | none => rfl
  | some sec =>
      rcases header_or_noHeader list sec with ⟨pre, hdr, post, rfl, hdrAt⟩ | hno
      · rw [hdrAt.findSection, sectionStart, Option.elim_some, hdrAt.findSectionIndex]
      · exact absurd hno.sectionLines h

/-- One line of the section is exchanged for other lines, or none. -/
theorem iniGetString_replace_line {pre post : List Str} (mid : List Str) {s : Str} {other : Option Str}
    {key' : Str} {deflt v : Option Str} (heof : EofAgrees list)
    (hlines : sectionLines list section_ = pre ++ s :: post)
    (hpre : ∀ t ∈ pre, stops t = false) (hs : stops s = false) (hmid : ∀ t ∈ mid, Neutral t)
    (hother : ¬ SameSection list section_ other ∨
      ∀ xs, stringAt blankText key' deflt (xs ++ s :: post) = some v →
        stringAt blankText key' deflt (xs ++ (mid ++ post)) = some v)
    (h : iniGetString list other key' deflt = some v) :
    iniGetString (list.take (findSection list section_) ++ (pre ++ (mid ++ post))) other key' deflt =
      some v := by
  have hlist : list = list.take (findSection list section_) ++ pre ++ [s] ++ post := by
    conv_lhs => rw [← take_append_sectionLines list section_, hlines]
    simp
  have hstart : sectionStart list section_ = findSection list section_ :=
    sectionStart_eq (by rw [hlines]; simp)
  have hlen : (list.take (findSection list section_)).length = findSection list section_ :=
    List.length_take_of_le (findSection_le list section_)
  have hneutral : Neutral s := neutral_of_not_stops heof (by rw [hlist]; simp) hs
  rw [← List.append_assoc, ← List.append_assoc]
  generalize hfront : list.take (findSection list section_) = front at hlist hlen ⊢
  refine iniGetString_replace (front ++ pre) [s] mid post section_ ?_ hmid ?_ ?_ ?_ ?_
  · simpa using hneutral
  · rw [← hlist, hstart, ← hlen, List.length_append]
    omega
  · rw [← hlist, hstart, ← hlen, List.drop_left]
    exact hpre
  · rw [← hlist]
    exact hother
  · rwa [← hlist]

theorem removeKey_local (heof : EofAgrees list) : IniEdit.Local list section_ key .removeKey := by
  obtain ⟨pre, tail, hlines, hpass, htail⟩ :=
    exists_passes_append key (sectionLines list section_)
  have hread : pre.all (readable false) = true := List.all_eq_true.mpr fun s _ ↦ readable_false s
  have hget := getValue_eq false hlines hpass
  rw [if_pos hread] at hget
  have hsame : IniEdit.run list section_ key .removeKey = some list →
      IniEdit.Local list section_ key .removeKey := fun hrun ↦
    ⟨list, hrun, .same _, fun _ _ _ _ _ h ↦ h⟩
  rcases htail with rfl | ⟨s, post, rfl, hs | hs⟩
  · refine hsame ?_
    rw [getValueLoop_nil] at hget
    simp [IniEdit.run, iniRemoveKey, hget]
  · refine hsame ?_
    rw [getValueLoop_stop false _ _ hs] at hget
    simp [IniEdit.run, iniRemoveKey, hget]
  · have hpre : ∀ t ∈ pre, stops t = false := fun t ht ↦ not_stops_of_passes (hpass t ht)
    rw [getValueLoop_hold false _ _ hs] at hget
    obtain ⟨v, hv⟩ : ∃ v, valueOf false (lineBuf s) = some v := by
      have := readable_false s
      rw [readable_of_holds false hs] at this
      exact Option.isSome_iff_exists.mp this
    have hlen : (list.take (findSection list section_)).length = findSection list section_ :=
      List.length_take_of_le (findSection_le list section_)
    have herase : list.eraseIdx (findSection list section_ + pre.length) =
        list.take (findSection list section_) ++ (pre ++ post) := by
      have hlist := take_append_sectionLines list section_
      rw [hlines] at hlist
      generalize list.take (findSection list section_) = front at hlist hlen ⊢
      rw [← hlen, ← hlist, List.eraseIdx_append_of_length_le (by omega), Nat.add_sub_cancel_left,
        List.eraseIdx_append_of_length_le le_rfl, Nat.sub_self, List.eraseIdx_cons_zero]
    refine ⟨_, ?_, .key hlines hpre hs, fun other key' hother deflt w h ↦ ?_⟩
    · simp [IniEdit.run, iniRemoveKey, hget, hv, herase]
    · refine iniGetString_replace_line [] heof hlines hpre (not_stops_of_holds hs)
        (by simp) (hother.imp id fun hne xs hx ↦ ?_) h
      exact stringAt_remove xs post (passes_of_holds hs hne) hx

/-! ## Removing a section -/

theorem HeaderAt.of_subset {sec : Str} {pre post pre' post' : List Str} {hdr : Str}
    (h : HeaderAt sec pre hdr post) (hpre : ∀ s ∈ pre', s ∈ pre)
    (hpost : ∀ s ∈ post', s ∈ pre ++ hdr :: post) : HeaderAt sec pre' hdr post' := by
  cases h with
  | exact hclean he hh => exact .exact (fun s hs ↦ hclean s (hpre s hs)) he hh
  | anyCase hall hclean hh =>
      refine .anyCase (fun s hs ↦ ?_) (fun s hs ↦ hclean s (hpre s hs)) hh
      rcases List.mem_append.mp hs with hs | hs
      · exact hall s (by simp [hpre s hs])
      · rcases List.mem_cons.mp hs with rfl | hs
        · exact hall s (by simp)
        · exact hall s (hpost s hs)

/-- The header and the lines up to the next one are taken out. -/
theorem iniGetString_removeSection {pre body rest : List Str} {hdr sec : Str}
    {other : Option Str} {key' : Str} {deflt v : Option Str}
    (heof : EofAgrees (pre ++ hdr :: (body ++ rest)))
    (hdrAt : HeaderAt sec pre hdr (body ++ rest)) (hbody : ∀ s ∈ body, stops s = false)
    (hrest : Ends rest) (hother : ¬ SameSection (pre ++ hdr :: (body ++ rest)) (some sec) other)
    (h : iniGetString (pre ++ hdr :: (body ++ rest)) other key' deflt = some v) :
    iniGetString (pre ++ rest) other key' deflt = some v := by
  have hhdr : Ends (hdr :: (body ++ rest)) := fun s hs ↦ by
    cases hs
    exact hdrAt.stops
  rw [iniGetString_eq_stringAt] at h ⊢
  cases other with
  | none => exact stringAt_append_ends pre hhdr hrest h
  | some sec' =>
      rcases header_or_noHeader (pre ++ hdr :: (body ++ rest)) sec' with
        ⟨pre', hdr', post', heq, hdrAt'⟩ | hno
      · have hne : pre'.length ≠ pre.length := by
          simp only [SameSection, hdrAt.findSectionIndex] at hother
          rw [if_pos (by simp), heq, hdrAt'.findSectionIndex] at hother
          exact hother
        rw [heq, hdrAt'.sectionLines] at h
        rcases append_eq_append_cons heq with ⟨mid, hpre, hpost⟩ | ⟨c, hc, hpre'⟩
        · -- the section in front loses only what stands behind its end
          have hdrAt2 : HeaderAt sec' pre' hdr' (mid ++ rest) := hdrAt'.of_subset (fun s hs ↦ hs)
            fun s hs ↦ by
              rw [hpost]
              rcases List.mem_append.mp hs with hs | hs <;> simp [hs]
          rw [hpre, List.append_assoc, List.cons_append, hdrAt2.sectionLines]
          rw [hpost] at h
          exact stringAt_append_ends mid hhdr hrest h
        · cases c with
          | nil => simp [hpre'] at hne
          | cons x c =>
              simp only [List.cons_append, List.cons.injEq] at hc
              obtain ⟨rfl, hc⟩ := hc
              rcases append_eq_append_cons hc with ⟨d, hd, -⟩ | ⟨mid, hrest', rfl⟩
              · -- a header in the section would end it
                have := hbody hdr' (by simp [hd])
                rw [hdrAt'.stops] at this
                cases this
              · have hdrAt2 : HeaderAt sec' (pre ++ mid) hdr' post' := hdrAt'.of_subset
                  (fun s hs ↦ by
                    rw [hpre']
                    rcases List.mem_append.mp hs with hs | hs <;> simp [hs])
                  fun s hs ↦ by simp [hs]
                rwa [hrest', ← List.append_assoc, hdrAt2.sectionLines]
      · rw [hno.sectionLines] at h
        have hno' : NoHeader sec' (pre ++ rest) := by
          generalize hlist : pre ++ hdr :: (body ++ rest) = list at hno
          cases hno with
          | none hall =>
              exact .none fun s hs ↦ hall s (by
                rw [← hlist]
                rcases List.mem_append.mp hs with hs | hs <;> simp [hs])
          | @eof p e q hp he =>
              rcases append_eq_append_cons hlist with ⟨c, hpre, -⟩ | ⟨c, hc, hp'⟩
              · rw [hpre, List.append_assoc]
                exact .eof (c ++ rest) hp he
              · cases c with
                | nil =>
                    simp only [List.nil_append, List.cons.injEq] at hc
                    rw [← hc.1, hdrAt.not_eofLine] at he
                    cases he
                | cons x c =>
                    simp only [List.cons_append, List.cons.injEq] at hc
                    obtain ⟨rfl, hc⟩ := hc
                    rcases append_eq_append_cons hc with ⟨d, hd, -⟩ | ⟨mid, hrest', rfl⟩
                    · have := hbody e (by simp [hd])
                      rw [heof e (by simp [hd]) he] at this
                      cases this
                    · rw [hrest', ← List.append_assoc]
                      refine .eof q (fun s hs ↦ hp s ?_) he
                      rw [hp']
                      rcases List.mem_append.mp hs with hs | hs <;> simp [hs]
        rwa [hno'.sectionLines]

theorem findRootIndex_eq {i : ℕ} (h : findRootIndex list = some i) : i = list.length := by
  induction list generalizing i with
  | nil =>
      cases h
      rfl
  | cons s list ih =>
      rw [findRootIndex] at h
      split at h
      · cases h
        rfl
      · split at h
        · cases h
        · obtain ⟨j, hj, rfl⟩ := Option.map_eq_some_iff.mp h
          rw [ih hj, List.length_cons]

theorem removeSection_local (heof : EofAgrees list) :
    IniEdit.Local list section_ key .removeSection ↔
      IniEdit.Clean list section_ key .removeSection := by
  have hsame : IniEdit.run list section_ key .removeSection = some list →
      IniEdit.Local list section_ key .removeSection := fun hrun ↦
    ⟨list, hrun, .same _, fun _ _ _ _ _ h ↦ h⟩
  cases section_ with
  | none =>
      simp only [IniEdit.Clean, Option.elim_none]
      constructor
      · rintro ⟨list', hrun, -⟩
        simp only [IniEdit.run, iniRemoveSection, Option.elim_none, Option.map_map] at hrun
        obtain ⟨i, hi, -⟩ := Option.map_eq_some_iff.mp hrun
        rw [hi]
        rfl
      · intro hroot
        obtain ⟨i, hi⟩ := Option.isSome_iff_exists.mp hroot
        refine hsame ?_
        simp [IniEdit.run, iniRemoveSection, hi, findRootIndex_eq hi]
  | some sec =>
      rcases header_or_noHeader list sec with ⟨pre, hdr, post, rfl, hdrAt⟩ | hno
      case inr =>
        have hclean : IniEdit.Clean list (some sec) key .removeSection := by
          simp only [IniEdit.Clean, Option.elim_some, hno.findSectionIndex]
          rw [List.drop_eq_nil_of_le (Nat.le_succ _)]
          exact fun s hs ↦ nomatch hs
        refine ⟨fun _ ↦ hclean, fun _ ↦ hsame ?_⟩
        simp [IniEdit.run, iniRemoveSection, hno.findSectionIndex]
      set p : Str → Bool := fun s ↦ s.head? ≠ some iniOpenSectionChar with hp
      have hdrop : (pre ++ hdr :: post).drop (pre.length + 1) = post := by
        rw [List.append_cons]
        exact List.drop_left' (by simp)
      have hrun : IniEdit.run (pre ++ hdr :: post) (some sec) key .removeSection =
          some (pre ++ post.dropWhile p) := by
        simp [IniEdit.run, iniRemoveSection, hdrAt.findSectionIndex, hdrop, hp]
      have hpost : post.takeWhile p ++ post.dropWhile p = post := List.takeWhile_append_dropWhile
      simp only [IniEdit.Clean, Option.elim_some, hdrAt.findSectionIndex, hdrop]
      constructor
      · rintro ⟨list', hrun', hchange, -⟩
        rw [hrun] at hrun'
        have hle := (List.dropWhile_suffix p (l := post)).length_le
        generalize hl : pre ++ post.dropWhile p = l at hrun' hchange
        have hll : l = list' := by simpa using hrun'
        subst hll
        generalize hlist : pre ++ hdr :: post = list at hchange
        cases hchange with
        | same =>
            -- the header at least is gone
            have := congrArg List.length (hl.trans hlist.symm)
            simp only [List.length_append, List.length_cons] at this
            omega
        | @section_ pre' body rest hdr' sec' hsec hlist' hidx hbody =>
            cases hsec
            rw [← hlist, hdrAt.findSectionIndex] at hidx
            rw [hlist'] at hlist
            obtain ⟨rfl, hcons⟩ := List.append_inj hlist hidx
            simp only [List.cons.injEq] at hcons
            obtain ⟨-, hpost'⟩ := hcons
            have hrest := List.append_cancel_left hl
            rw [← hpost, hrest] at hpost'
            rw [List.append_cancel_right hpost']
            exact hbody
      · intro hbody
        have hends : Ends (post.dropWhile p) := fun s hs ↦ by
          have := head_dropWhile p post s hs
          exact stops_of_head (by simpa [hp] using this)
        have hlist : pre ++ hdr :: post =
            pre ++ hdr :: (post.takeWhile p ++ post.dropWhile p) := by rw [hpost]
        refine ⟨_, hrun, .section_ rfl hlist hdrAt.findSectionIndex hbody, ?_⟩
        intro other key' hother deflt v h
        rw [← hpost] at hdrAt heof
        refine iniGetString_removeSection heof hdrAt hbody hends ?_ (by rwa [← hlist])
        rwa [← hlist]

/-! ## The names in a header -/

/-- The names that `section_match` compares. -/
def sectionNames (s : Str) : List Str :=
  (strListSplit s iniSectionNameSep).map fun n ↦ skipWhitespace (truncsp n)

theorem mem_sectionNames {s name : Str} :
    name ∈ sectionNames s ↔ ∃ x ∈ s.splitOn iniSectionNameSep, x ≠ [] ∧ trim x = name := by
  simp [sectionNames, strListSplit, skipWhitespace_truncsp, and_assoc]

theorem sectionMatch_iff {name sec : Str} {cs : Bool} :
    sectionMatch name sec cs = true ↔
      ∃ x ∈ sectionNames name, ∃ y ∈ sectionNames sec,
        (if cs then x == y else stricmp x y) = true := by
  simp only [sectionMatch, sectionNames, List.any_eq_true]

theorem trim_append_blank (x : Str) {ws : Str} (h : ∀ c ∈ ws, isspace c = true) :
    trim (x ++ ws) = trim x :=
  truncsp_skipWhitespace_append x h

theorem ne_sep_of_isspace {c : UInt8} (h : isspace c = true) : c ≠ iniSectionNameSep := by
  rintro rfl
  cases h

theorem sectionNames_cons {c : UInt8} (h : isspace c = true) (s : Str) {name : Str}
    (hs : name ∈ sectionNames s) : name ∈ sectionNames (c :: s) := by
  rw [mem_sectionNames] at hs ⊢
  obtain ⟨x, hx, hne, rfl⟩ := hs
  rcases hsplit : s.splitOn iniSectionNameSep with _ | ⟨hd, tl⟩
  · rw [hsplit] at hx
    cases hx
  · rw [splitOn_cons_ne (ne_sep_of_isspace h) hsplit]
    rw [hsplit] at hx
    rcases List.mem_cons.mp hx with rfl | hx
    · refine ⟨c :: x, by simp, by simp, ?_⟩
      rw [trim, skipWhitespace, List.dropWhile_cons_of_pos h]
      rfl
    · exact ⟨x, by simp [hx], hne, rfl⟩

theorem sectionNames_concat {c : UInt8} (h : isspace c = true) (s : Str) {name : Str}
    (hs : name ∈ sectionNames s) : name ∈ sectionNames (s ++ [c]) := by
  rw [mem_sectionNames] at hs ⊢
  obtain ⟨x, hx, hne, rfl⟩ := hs
  obtain ⟨init, last, h1, h2⟩ := splitOn_concat (ne_sep_of_isspace h) s
  rw [h1] at hx
  rw [h2]
  rcases List.mem_append.mp hx with hx | hx
  · exact ⟨x, by simp [hx], hne, rfl⟩
  · obtain rfl := List.mem_singleton.mp hx
    exact ⟨x ++ [c], by simp, by simp, trim_append_blank x (by simpa using h)⟩

theorem sectionNames_append {s ws : Str} (h : ∀ c ∈ ws, isspace c = true) {name : Str}
    (hs : name ∈ sectionNames s) : name ∈ sectionNames (s ++ ws) := by
  induction ws using List.reverseRecOn with
  | nil => simpa using hs
  | append_singleton ws c ih =>
      rw [← List.append_assoc]
      exact sectionNames_concat (h c (by simp)) _ (ih fun d hd ↦ h d (by simp [hd]))

theorem sectionNames_skipWhitespace (s : Str) {name : Str}
    (hs : name ∈ sectionNames (skipWhitespace s)) : name ∈ sectionNames s := by
  induction s with
  | nil => exact hs
  | cons c s ih =>
      by_cases hc : isspace c = true
      · rw [skipWhitespace, List.dropWhile_cons_of_pos hc] at hs
        exact sectionNames_cons hc s (ih hs)
      · rwa [skipWhitespace, List.dropWhile_cons_of_neg hc] at hs

/-- The names of a trimmed string are names of the string. -/
theorem sectionNames_trim (s : Str) {name : Str} (hs : name ∈ sectionNames (trim s)) :
    name ∈ sectionNames s := by
  obtain ⟨ws, hws, hblank⟩ := exists_truncsp_append (skipWhitespace s)
  refine sectionNames_skipWhitespace s ?_
  rw [hws]
  exact sectionNames_append hblank hs

theorem sectionNames_single {s : Str} (h : iniSectionNameSep ∉ s) {name : Str}
    (hs : name ∈ sectionNames s) : name = trim s := by
  rw [sectionNames, strListSplit_singleton h] at hs
  split at hs
  · cases hs
  · simpa [skipWhitespace_truncsp] using hs

theorem heads_iff {sec s : Str} {cs : Bool} :
    heads sec cs s = true ↔ ∃ name, nameIn s = some name ∧ sectionMatch name sec cs = true := by
  rw [heads]
  cases nameIn s <;> simp

theorem heads_of_exact {sec s : Str} (h : heads sec true s = true) : heads sec false s = true := by
  obtain ⟨name, hname, hm⟩ := heads_iff.mp h
  refine heads_iff.mpr ⟨name, hname, ?_⟩
  rw [sectionMatch_iff] at hm ⊢
  obtain ⟨x, hx, y, hy, hxy⟩ := hm
  refine ⟨x, hx, y, hy, ?_⟩
  have : x = y := by simpa using hxy
  simp [this, stricmp]

/-- A single name that the new header has as well is a name of the section. -/
theorem heads_of_heads_sectionHeader {sec other s : Str} (hlen : sec.length + 2 < iniMaxValueLen)
    (hsingle : iniSectionNameSep ∉ other) (hadd : heads other true (sectionHeader sec) = true)
    (hs : heads other false s = true) : heads sec false s = true := by
  obtain ⟨name, hname, hm⟩ := heads_iff.mp hs
  obtain ⟨u, hu, y, hy, huy⟩ := sectionMatch_iff.mp hm
  rw [heads, nameIn_sectionHeader hlen, Option.any_some, sectionMatch_iff] at hadd
  obtain ⟨x, hx, z, hz, hxz⟩ := hadd
  have hxz : x = z := by simpa using hxz
  have hzy : z = y := (sectionNames_single hsingle hz).trans (sectionNames_single hsingle hy).symm
  refine heads_iff.mpr ⟨name, hname, sectionMatch_iff.mpr ⟨u, hu, x, ?_, ?_⟩⟩
  · exact sectionNames_trim sec hx
  · rw [hxz, hzy]
    exact huy

/-! ## Setting a string -/

/-- `ini_set_string` returns where the search can read the lines. -/
theorem setLine_isSome {line text : Str} {lit : Bool}
    (h : ∀ s ∈ searched key (sectionLines list section_), readable lit s = true) :
    ∃ list', setLine list section_ key line text lit = some list' := by
  obtain ⟨pre, tail, hlines, hpass, htail⟩ :=
    exists_passes_append key (sectionLines list section_)
  rw [hlines, searched_append _ _ hpass] at h
  have hget := getValue_eq lit hlines hpass
  rw [if_pos (List.all_eq_true.mpr fun s hs ↦ h s (by simp [hs]))] at hget
  have hsome : ∃ r, getValue list section_ key lit = some r := by
    rcases htail with rfl | ⟨s, post, rfl, hs | hs⟩
    · exact ⟨_, hget⟩
    · exact ⟨_, hget.trans (getValueLoop_stop lit _ _ hs)⟩
    · have hread := h s (by simp [searched_hold post hs])
      rw [readable_of_holds lit hs] at hread
      obtain ⟨v, hv⟩ := Option.isSome_iff_exists.mp hread
      rw [getValueLoop_hold lit _ _ hs, hv] at hget
      exact ⟨_, hget⟩
  obtain ⟨r, hr⟩ := hsome
  exact ⟨_, by rw [setLine, hr]; rfl⟩

theorem SetLine.readable {line text : Str} {lit : Bool} {lines lines' : List Str}
    (h : SetLine key line text lit lines lines') :
    ∀ s ∈ searched key lines, readable lit s = true := by
  cases h with
  | @insert kept blank tail hpass hread hblank htail =>
      rw [searched_append _ _ hpass]
      cases tail with
      | nil => simpa [searched] using hread
      | cons s tail => simpa [searched_stop tail (htail s rfl).1] using hread
  | @overwrite pre post s hpass hread hstop hs =>
      rw [searched_append _ _ hpass, searched_stop post hstop, List.append_nil]
      exact hread
  | @replace pre post s v hpass hread hhold hv =>
      rw [searched_append _ _ hpass, searched_hold post hhold]
      intro t ht
      rcases List.mem_append.mp ht with ht | ht
      · exact hread t ht
      · rw [List.mem_singleton.mp ht, readable_of_holds lit hhold, hv]
        rfl

theorem dropWhile_passes {pre : List Str} (hpass : ∀ s ∈ pre, passes key s = true) {s : Str}
    (post : List Str) (hs : passes key s = false) :
    (pre ++ s :: post).dropWhile (passes key) = s :: post := by
  rw [List.dropWhile_append_of_pos hpass, List.dropWhile_cons_of_neg (by simp [hs])]

theorem not_passes_of_stops {s : Str} (h : stops s = true) : passes key s = false :=
  not_passes.mpr (.inl h)

theorem ReadsAs.passes {line key' : Str} (h : ReadsAs key line)
    (hne : stricmp key' key = false) : passes key' line = true := by
  have hstop := h.stops
  cases hk : keyOf (lineBuf line) with
  | none => simp [Xpdev.passes, holds, hstop, hk]
  | some name =>
      refine @passes_of_holds key line key' ?_ hne
      simp [holds, hstop, hk, h.name name hk]

/-- What the set may change, where it does not overwrite the end of the section. -/
theorem changes_of_setLine {value : Option Str} {line text : Str} {lit : Bool}
    {lines' : List Str} (h : SetLine key line text lit (sectionLines list section_) lines')
    (hclean : ∀ s ∈ ((sectionLines list section_).dropWhile (passes key)).head?,
      stops s = true → s.head? = some iniOpenSectionChar ∨ text = []) :
    Changes list section_ key (.setString value)
      (list.take (findSection list section_) ++ lines') := by
  have hlist := take_append_sectionLines list section_
  generalize hl : sectionLines list section_ = lines at h hclean hlist
  cases h with
  | @insert kept blank tail hpass hread hblank htail =>
      refine .insert line (by rw [hl, List.append_assoc]) fun t ht ↦ ?_
      exact not_stops_of_passes (hpass t (by simp [ht]))
  | @overwrite pre post s hpass hread hstop hs =>
      rw [dropWhile_passes hpass post (not_passes_of_stops hstop)] at hclean
      rcases hclean s rfl hstop with hh | ht
      · exact absurd hh hs
      · rw [if_pos ht, hlist]
        exact .same _
  | @replace pre post s v hpass hread hhold hv =>
      split
      · rw [hlist]
        exact .same _
      · exact .line line hl (fun t ht ↦ not_stops_of_passes (hpass t ht)) hhold

/-- A line that ends the section and is overwritten is none of the permitted changes. -/
theorem not_changes_of_overwrite {value : Option Str} {line s : Str} {pre post : List Str}
    (hlines : sectionLines list section_ = pre ++ s :: post)
    (hpass : ∀ t ∈ pre, passes key t = true) (hstop : stops s = true)
    (hline : stops line = false) :
    ¬ Changes list section_ key (.setString value)
      (list.take (findSection list section_) ++ (pre ++ line :: post)) := by
  have hlist := take_append_sectionLines list section_
  rw [hlines] at hlist
  generalize hfront : list.take (findSection list section_) = front at hlist
  generalize hl : front ++ (pre ++ line :: post) = list'
  have hlen : list'.length = list.length := by
    rw [← hl, ← hlist]
    simp
  intro h
  cases h with
  | same =>
      rw [← hlist] at hl
      have := List.append_cancel_left (List.append_cancel_left hl)
      simp only [List.cons.injEq, and_true] at this
      rw [this, hstop] at hline
      cases hline
  | @line _ pre' post' s' line' hlines' hpre' hs' =>
      rw [hlines] at hlines'
      rcases append_eq_append_cons hlines' with ⟨c, hc, -⟩ | ⟨c, hc, hp⟩
      · have := holds_of_passes (hpass s' (by simp [hc]))
        rw [hs'] at this
        cases this
      · cases c with
        | nil =>
            simp only [List.nil_append, List.cons.injEq] at hc
            rw [hc.1, not_stops_of_holds hs'] at hstop
            cases hstop
        | cons x c =>
            simp only [List.cons_append, List.cons.injEq] at hc
            rw [hpre' s (by simp [hp, hc.1])] at hstop
            cases hstop
  | @insert _ pre' post' line' hlines' hpre' =>
      have := congrArg List.length (take_append_sectionLines list section_)
      rw [hlines'] at this
      simp only [List.length_append, List.length_cons] at this hlen
      omega
  | append =>
      simp only [List.length_append, List.length_cons] at hlen
      omega

/-- The other strings stay where the section is in the list. -/
theorem iniGetString_setLine {line text : Str} {lit : Bool} {lines' : List Str}
    {other : Option Str} {key' : Str} {deflt v : Option Str} (heof : EofAgrees list)
    (hline : ReadsAs key line)
    (hfound : ∀ sec, section_ = some sec → findSectionIndex list sec < list.length)
    (h : SetLine key line text lit (sectionLines list section_) lines')
    (hclean : ∀ s ∈ ((sectionLines list section_).dropWhile (passes key)).head?,
      stops s = true → s.head? = some iniOpenSectionChar ∨ text = [])
    (hother : ¬ SameSection list section_ other ∨ stricmp key' key = false)
    (hget : iniGetString list other key' deflt = some v) :
    iniGetString (list.take (findSection list section_) ++ lines') other key' deflt = some v := by
  have hlist := take_append_sectionLines list section_
  have hneutral : ∀ t ∈ [line], Neutral t := by simpa using hline.neutral
  generalize hl : sectionLines list section_ = lines at h hclean hlist
  cases h with
  | @insert kept blank tail hpass hread hblank htail =>
      have hstart : sectionStart list section_ = findSection list section_ := by
        cases section_ with
        | none => rfl
        | some sec => simp [sectionStart, findSection, hfound sec rfl]
      have hlen : (list.take (findSection list section_)).length = findSection list section_ :=
        List.length_take_of_le (findSection_le list section_)
      generalize list.take (findSection list section_) = front at hlist hlen ⊢
      have hlist' : front ++ kept ++ [] ++ (blank ++ tail) = list := by
        rw [← hlist]
        simp
      have := @iniGetString_replace (front ++ kept) [] [line] (blank ++ tail) section_ other key'
        deflt v (by simp) hneutral
        (by rw [hlist', hstart, ← hlen, List.length_append]; omega)
        (by
          rw [hlist', hstart, ← hlen, List.drop_left]
          exact fun t ht ↦ not_stops_of_passes (hpass t (by simp [ht])))
        (by
          rw [hlist']
          refine hother.imp id fun hne xs hx ↦ ?_
          exact stringAt_insert xs _ (hline.passes hne) hline.readable hx)
        (by rwa [hlist'])
      simpa using this
  | @overwrite pre post s hpass hread hstop hs =>
      rw [dropWhile_passes hpass post (not_passes_of_stops hstop)] at hclean
      rcases hclean s rfl hstop with hh | ht
      · exact absurd hh hs
      · rwa [if_pos ht, hlist]
  | @replace pre post s w hpass hread hhold hw =>
      split
      · rwa [hlist]
      · refine iniGetString_replace_line [line] heof hl
          (fun t ht ↦ not_stops_of_passes (hpass t ht)) (not_stops_of_holds hhold) hneutral
          (hother.imp id fun hne xs hx ↦ ?_) hget
        exact stringAt_insert xs _ (hline.passes hne) hline.readable
          (stringAt_remove xs post (passes_of_holds hhold hne) hx)

theorem stops_sectionHeader (sec : Str) : stops (sectionHeader sec) = true := by
  apply stops_of_head
  rw [sectionHeader, safecopy, List.cons_append]
  rfl

/-- The other strings stay where the header is added. -/
theorem iniGetString_append {line : Str} {sec : Str} {other : Option Str} {key' : Str}
    {deflt v : Option Str} (hline : ReadsAs key line) (hno : NoHeader sec list)
    (hlen : sec.length + 2 < iniMaxValueLen)
    (hsingle : ∀ name, other = some name → iniSectionNameSep ∉ name)
    (hother : ¬ SameSection list (some sec) other ∨ stricmp key' key = false)
    (h : iniGetString list other key' deflt = some v) :
    iniGetString (list ++ [sectionHeader sec, line]) other key' deflt = some v := by
  have hends : Ends [sectionHeader sec, line] := fun s hs ↦ by
    cases hs
    exact stops_sectionHeader sec
  have hnil : Ends [] := fun s hs ↦ nomatch hs
  have hhdr := eofLine_sectionHeader sec
  rw [iniGetString_eq_stringAt] at h ⊢
  cases other with
  | none =>
      have := stringAt_append_ends list hnil hends (by rwa [List.append_nil])
      exact this
  | some name =>
      rcases header_or_noHeader list name with ⟨pre, hdr, post, rfl, hdrAt⟩ | hno'
      · have hdrAt' : HeaderAt name pre hdr (post ++ [sectionHeader sec, line]) := by
          cases hdrAt with
          | exact hpre he hh => exact .exact hpre he hh
          | anyCase hall hpre hh =>
              refine .anyCase (fun s hs ↦ ?_) hpre hh
              rw [← List.cons_append, ← List.append_assoc] at hs
              rcases List.mem_append.mp hs with hs | hs
              · exact hall s hs
              · simp only [List.mem_cons, List.not_mem_nil, or_false] at hs
                rcases hs with rfl | rfl
                · refine ⟨hhdr, ?_⟩
                  by_contra hadd
                  have hsec := heads_of_heads_sectionHeader hlen (hsingle name rfl)
                    (by simpa using hadd) hh
                  generalize hlist : pre ++ hdr :: post = list at hno hall
                  cases hno with
                  | @eof p e q _ he =>
                      rw [(hall e (by simp)).1] at he
                      cases he
                  | none hnone =>
                      rw [(hnone hdr (by rw [← hlist]; simp)).2.2] at hsec
                      cases hsec
                · exact ⟨hline.neutral.eof, hline.neutral.heads name true⟩
        rw [hdrAt.sectionLines] at h
        rw [List.append_assoc, List.cons_append, hdrAt'.sectionLines]
        have := stringAt_append_ends post hnil hends (by rwa [List.append_nil])
        exact this
      · rw [hno'.sectionLines] at h
        have hdeflt : v = deflt := by simpa [stringAt] using h.symm
        subst hdeflt
        rcases header_or_noHeader (list ++ [sectionHeader sec, line]) name with
          ⟨pre, hdr, post, heq, hdrAt⟩ | hno2
        case inr => rw [hno2.sectionLines, stringAt]
        -- only the new header can be found, and only the new line stands behind it
        rcases append_eq_append_cons heq with ⟨c, rfl, rfl⟩ | ⟨c, hc, rfl⟩
        · have := (show HeaderAt name pre hdr c from hdrAt.of_subset (fun s hs ↦ hs)
            fun s hs ↦ by simp [hs]).findSectionIndex
          rw [hno'.findSectionIndex] at this
          simp at this
        · rcases c with _ | ⟨x, c⟩
          · simp only [List.nil_append, List.cons.injEq] at hc
            obtain ⟨rfl, rfl⟩ := hc
            have hheads : heads name false (sectionHeader sec) = true := by
              cases hdrAt with
              | exact _ _ hh => exact heads_of_exact hh
              | anyCase _ _ hh => exact hh
            have hne : stricmp key' key = false := by
              refine hother.resolve_left fun hsame ↦ hsame ?_
              simp only [SameSection, hno.findSectionIndex, lt_irrefl, if_false]
              exact hheads
            rw [heq, hdrAt.sectionLines, stringAt_pass _ (hline.passes hne), if_pos hline.readable]
            rfl
          · simp only [List.cons_append, List.cons.injEq] at hc
            have hdrline : hdr = line := by
              rcases c with _ | ⟨y, c⟩
              · exact (List.cons.inj hc.2).1.symm
              · simp at hc
            have := hdrAt.stops
            rw [hdrline, hline.stops] at this
            cases this

theorem findSectionIndex_le (list : List Str) (sec : Str) :
    findSectionIndex list sec ≤ list.length := by
  rcases header_or_noHeader list sec with ⟨pre, hdr, post, rfl, h⟩ | h
  · rw [h.findSectionIndex]
    simp
  · rw [h.findSectionIndex]

/-- A header that is added has no lines behind it. -/
theorem sectionLines_iniAddSection (list : List Str) (section_ : Option Str) :
    sectionLines (iniAddSection list section_ {}) section_ = sectionLines list section_ := by
  cases section_ with
  | none => rfl
  | some sec =>
      rcases header_or_noHeader list sec with ⟨pre, hdr, post, rfl, h⟩ | h
      · rw [iniAddSection_header h]
      · rw [iniAddSection_noHeader h, h.sectionLines]
        rcases header_or_noHeader (list ++ [sectionHeader sec]) sec with
          ⟨pre, hdr, post, heq, hdrAt⟩ | hno
        · rw [heq, hdrAt.sectionLines]
          rcases append_eq_append_cons heq with ⟨c, rfl, rfl⟩ | ⟨c, hc, -⟩
          · have := (show HeaderAt sec pre hdr c from hdrAt.of_subset (fun s hs ↦ hs)
              fun s hs ↦ by simp [hs]).findSectionIndex
            rw [h.findSectionIndex] at this
            simp at this
          · rcases c with _ | ⟨x, c⟩
            · exact (List.cons.inj hc).2.symm
            · simp at hc
        · exact hno.sectionLines

/-- In the list with the added header the only line is set behind it. -/
theorem setLine_added {line text : Str} {lit : Bool} {sec : Str} {lines' : List Str}
    (h : NoHeader sec list) (hset : SetLine key line text lit [] lines') :
    (list ++ [sectionHeader sec]).take (findSection (list ++ [sectionHeader sec]) (some sec)) ++
      lines' = list ++ [sectionHeader sec, line] := by
  have hnil := sectionLines_iniAddSection list (some sec)
  rw [iniAddSection_noHeader h, h.sectionLines] at hnil
  have hfront := take_append_sectionLines (list ++ [sectionHeader sec]) (some sec)
  rw [hnil, List.append_nil] at hfront
  have hline : lines' = [line] := by
    generalize hl : ([] : List Str) = lines at hset
    cases hset with
    | @insert kept blank tail =>
        obtain ⟨hkb, rfl⟩ := List.append_eq_nil_iff.mp hl.symm
        obtain ⟨rfl, rfl⟩ := List.append_eq_nil_iff.mp hkb
        rfl
    | overwrite => simp at hl
    | replace => simp at hl
  rw [hfront, hline]
  simp

theorem setString_local {value : Option Str}
    (hfits : IniEdit.Fits list section_ key (.setString value)) :
    IniEdit.Local list section_ key (.setString value) ↔
      IniEdit.Clean list section_ key (.setString value) := by
  obtain ⟨heof, ⟨text, htext, hline⟩, hheader⟩ := hfits
  have hrun : IniEdit.run list section_ key (.setString value) =
      setLine (iniAddSection list section_ {}) section_ key (keyLine key text {}) text.2
        (writesLiteral value) := by
    simp [IniEdit.run, iniSetString, iniSetStringWith, htext]
  have hlines := sectionLines_iniAddSection list section_
  have hcleaneq : IniEdit.Clean list section_ key (.setString value) ↔
      (∀ s ∈ searched key (sectionLines list section_),
        readable (writesLiteral value) s = true) ∧
      ∀ s ∈ ((sectionLines list section_).dropWhile (passes key)).head?, stops s = true →
        s.head? = some iniOpenSectionChar ∨ text.2 = [] := by
    simp [IniEdit.Clean, htext]
  have hcases : (∀ sec, section_ = some sec → findSectionIndex list sec < list.length) ∧
        iniAddSection list section_ {} = list ∨
      ∃ sec, section_ = some sec ∧ NoHeader sec list ∧ sec.length + 2 < iniMaxValueLen ∧
        iniAddSection list section_ {} = list ++ [sectionHeader sec] := by
    cases section_ with
    | none => exact .inl ⟨by simp, rfl⟩
    | some sec =>
        rcases header_or_noHeader list sec with ⟨pre, hdr, post, rfl, h⟩ | h
        · refine .inl ⟨fun sec' hs ↦ ?_, iniAddSection_header h {}⟩
          cases hs
          rw [h.findSectionIndex]
          simp
        · refine .inr ⟨sec, rfl, h, ?_, iniAddSection_noHeader h⟩
          refine (hheader sec rfl).resolve_left fun hlt ↦ ?_
          rw [h.findSectionIndex] at hlt
          exact lt_irrefl _ hlt
  rw [hcleaneq]
  constructor
  · rintro ⟨list', hrun', hchange, -⟩
    rw [hrun] at hrun'
    obtain ⟨lines', hset, rfl⟩ := setLine_eq_some hrun' (getLast_iniAddSection list section_)
    rw [hlines] at hset
    refine ⟨hset.readable, ?_⟩
    generalize hl : sectionLines list section_ = lines at hset
    cases hset with
    | @insert kept blank tail hpass hread hblank htail =>
        rw [List.dropWhile_append_of_pos hpass]
        cases tail with
        | nil => simp
        | cons t tail =>
            have ht := htail t rfl
            rw [List.dropWhile_cons_of_neg (by simp [not_passes_of_stops ht.1])]
            intro s hs _
            cases hs
            exact .inl ht.2
    | @overwrite pre post s hpass hread hstop hs =>
        by_cases hnil : text.2 = []
        · exact fun _ _ _ ↦ .inr hnil
        · rw [if_neg hnil] at hchange
          rcases hcases with ⟨-, hadd⟩ | ⟨sec, rfl, hno, -⟩
          · rw [hadd] at hchange
            exact absurd hchange (not_changes_of_overwrite hl hpass hstop hline.stops)
          · rw [hno.sectionLines] at hl
            simp at hl
    | @replace pre post s v hpass hread hhold hv =>
        rw [dropWhile_passes hpass post (not_passes.mpr (.inr hhold))]
        intro t ht hstop
        cases ht
        rw [not_stops_of_holds hhold] at hstop
        cases hstop
  · rintro ⟨hread, hstop⟩
    obtain ⟨list', hrun'⟩ := @setLine_isSome (iniAddSection list section_ {}) section_ key
      (keyLine key text {}) text.2 (writesLiteral value) (by rwa [hlines])
    obtain ⟨lines', hset, rfl⟩ := setLine_eq_some hrun' (getLast_iniAddSection list section_)
    rw [hlines] at hset
    refine ⟨_, hrun.trans hrun', ?_⟩
    rcases hcases with ⟨hfound, hadd⟩ | ⟨sec, rfl, hno, hlen, hadd⟩
    · rw [hadd]
      refine ⟨changes_of_setLine hset hstop, fun other key' hother deflt v h ↦ ?_⟩
      exact iniGetString_setLine heof hline hfound hset hstop hother.1 h
    · rw [hno.sectionLines] at hset
      rw [hadd, setLine_added hno hset]
      refine ⟨.append _ rfl, fun other key' hother deflt v h ↦ ?_⟩
      exact iniGetString_append hline hno hlen
        (hother.2 ⟨sec, rfl, hno.findSectionIndex.ge⟩) hother.1 h

/-- Names and a value that fit: an edit is local exactly where it meets no header behind white
space and no `!eof`. -/
theorem IniEdit.local_iff {e : IniEdit} (hfits : e.Fits list section_ key) :
    e.Local list section_ key ↔ e.Clean list section_ key := by
  cases e with
  | setString value => exact setString_local hfits
  | removeKey => exact ⟨fun _ ↦ trivial, fun _ ↦ removeKey_local hfits.1⟩
  | removeSection => exact removeSection_local hfits.1

/-- `k=v` in `[a]`, `x=1`, `[b]`, `y=2` -/
theorem IniEdit.local_iff_insert :
    IniEdit.Local [[0x5b, 0x61, 0x5d], [0x78, 0x3d, 0x31], [0x5b, 0x62, 0x5d], [0x79, 0x3d, 0x32]]
      (some [0x61]) [0x6b] (.setString (some [0x76])) := by
  refine (@IniEdit.local_iff _ _ _ (.setString (some [0x76])) ?_).mpr ⟨by decide +kernel, ?_⟩
  · refine ⟨?_, ⟨([0x3d], [0x76]), by decide +kernel, ⟨?_, ?_⟩, by decide +kernel,
      by decide +kernel, ?_⟩, ?_⟩
    · unfold EofAgrees
      decide +kernel
    · decide +kernel
    · decide +kernel
    · have hkey : keyOf (lineBuf (keyLine [0x6b] ([0x3d], [0x76]) {})) = some [0x6b] := by
        decide +kernel
      intro name hname
      rw [hkey] at hname
      cases hname
      decide
    · intro sec hsec
      cases hsec
      exact .inl (by decide +kernel)
  · have hhead : ((sectionLines [[0x5b, 0x61, 0x5d], [0x78, 0x3d, 0x31], [0x5b, 0x62, 0x5d],
        [0x79, 0x3d, 0x32]] (some [0x61])).dropWhile (passes [0x6b])).head? =
        some [0x5b, 0x62, 0x5d] := by decide +kernel
    intro s hs _
    rw [hhead] at hs
    cases hs
    exact .inl rfl

/-- `k=v` in `[a]`, `x=1`, `  [b]`, `y=2` takes the place of the second header. -/
theorem iniSetString_header :
    iniSetString [[0x5b, 0x61, 0x5d], [0x78, 0x3d, 0x31], [0x20, 0x20, 0x5b, 0x62, 0x5d],
        [0x79, 0x3d, 0x32]] (some [0x61]) [0x6b] (some [0x76]) {} =
        some [[0x5b, 0x61, 0x5d], [0x78, 0x3d, 0x31], [0x6b, 0x3d, 0x76], [0x79, 0x3d, 0x32]] ∧
      IniEdit.Other [[0x5b, 0x61, 0x5d], [0x78, 0x3d, 0x31], [0x20, 0x20, 0x5b, 0x62, 0x5d],
        [0x79, 0x3d, 0x32]] (some [0x61]) [0x6b] (some [0x62]) [0x79]
        (.setString (some [0x76])) ∧
      iniGetString [[0x5b, 0x61, 0x5d], [0x78, 0x3d, 0x31], [0x20, 0x20, 0x5b, 0x62, 0x5d],
        [0x79, 0x3d, 0x32]] (some [0x62]) [0x79] none = some (some [0x32]) ∧
      iniGetString [[0x5b, 0x61, 0x5d], [0x78, 0x3d, 0x31], [0x6b, 0x3d, 0x76],
        [0x79, 0x3d, 0x32]] (some [0x62]) [0x79] none = some none := by
  refine ⟨by decide +kernel, ⟨.inr (by decide), ?_⟩, by decide +kernel, by decide +kernel⟩
  intro _ name hname
  cases hname
  decide +kernel

end Synchronet.Xpdev
