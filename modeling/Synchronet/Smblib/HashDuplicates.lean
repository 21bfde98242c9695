import Synchronet.Lib.Words
import Synchronet.Smblib.Hash

/-!
# Duplicate messages

A hash file that is filled with the hashes of messages finds a later message exactly when
one of its texts has the length and the checksums of an earlier one.  The record of a hash
keeps 32 bits of the length.
-/

namespace Synchronet.Smblib

/-! ## Texts -/

/-- The text of a body that counts. -/
def bodyText (body : List UInt8) : List UInt8 := stripChars [32, 9, 13, 10] (stripCtrla body)

/-- The text of a message that is hashed for a source. -/
def hashText (msg : SmbMsg) (body : Option (List UInt8)) (source : UInt8) : Option (List UInt8) :=
  if source = hashSourceMsgId then msg.conv.id
  else if source = hashSourceFtnId then msg.conv.ftnMsgid
  else if source = hashSourceBody then body.map bodyText
  else if source = hashSourceSubject then msg.conv.subj.map fun s ↦ subjectText s.length s
  else none

/-- A message with its body, hashed for the sources of a mask at a time. -/
structure HashedMsg where
  msg : SmbMsg
  body : Option (List UInt8)
  mask : ℕ
  now : UInt32

/-- The text of a message for which it has a hash. -/
def HashedMsg.text (e : HashedMsg) (source : UInt8) : Option (List UInt8) :=
  if e.mask.testBit source.toNat then (hashText e.msg e.body source).filter (· ≠ []) else none

/-- The hashes of a message. -/
def HashedMsg.hashes (env : Env) (e : HashedMsg) : List Hash :=
  smbMsghashes { env with now := e.now } e.msg e.body e.mask

/-- What is compared of a hash. -/
structure HashKey where
  source : UInt8
  length : UInt32
  crc16 : UInt16
  crc32 : UInt32
  md5 : List UInt8
  deriving DecidableEq

def Hash.key (h : Hash) : HashKey := ⟨h.source, h.length, h.crc16, h.crc32, h.md5⟩

def textKey (env : Env) (source : UInt8) (text : List UInt8) : HashKey :=
  ⟨source, UInt32.ofNat text.length, env.crc16 text, env.crc32 text, env.md5 text⟩

/-- The flags of the hash for a source. -/
def sourceFlags (source : UInt8) : UInt8 :=
  if source = hashSourceBody then smbHashMask ||| smbHashStripWsp ||| smbHashStripCtrlA
  else smbHashMask

/-- The record for a text. -/
def textHash (env : Env) (e : HashedMsg) (source : UInt8) (text : List UInt8) : Hash where
  number := e.msg.hdr.number
  time := e.now
  length := UInt32.ofNat text.length
  source := source
  flags := sourceFlags source
  crc16 := env.crc16 text
  crc32 := env.crc32 text
  md5 := env.md5 text

/-- The order in which `smb_msghashes` takes the sources. -/
def hashSources : List UInt8 := [hashSourceMsgId, hashSourceFtnId, hashSourceBody, hashSourceSubject]

/-- The flags ask for all three checksums. -/
def AllChecksums (flags : UInt8) : Prop :=
  flags &&& smbHashCrc16 ≠ 0 ∧ flags &&& smbHashCrc32 ≠ 0 ∧ flags &&& smbHashMd5 ≠ 0

theorem smbHash_eq (env : Env) (e : HashedMsg) (source : UInt8)
    (hflags : AllChecksums (sourceFlags source)) (data : Option (List UInt8)) :
    (data.bind fun data ↦ smbHash { env with now := e.now } e.msg.hdr.number e.now source
      (sourceFlags source) data) = (data.filter (· ≠ [])).map (textHash env e source) := by
  obtain ⟨hcrc16, hcrc32, hmd5⟩ := hflags
  cases data with
  | none => rfl
  | some data =>
      rw [Option.bind_some, smbHash, if_pos hcrc16, if_pos hcrc32, if_pos hmd5, Option.filter]
      by_cases hdata : data = []
      · simp [hdata]
      · simp [hdata, textHash]

/-- The hash of a source that is not pre-processed. -/
theorem smbHashstr_plain (env : Env) (number time : UInt32) (source : UInt8) (str : List UInt8) :
    smbHashstr env number time source smbHashMask str =
      smbHash env number time source smbHashMask str := rfl

theorem smbHashstr_body (env : Env) (number time : UInt32) (body : List UInt8) :
    smbHashstr env number time hashSourceBody
        (smbHashMask ||| smbHashStripWsp ||| smbHashStripCtrlA) body =
      smbHash env number time hashSourceBody (sourceFlags hashSourceBody) (bodyText body) := rfl

theorem hashes_eq (env : Env) (e : HashedMsg) :
    e.hashes env =
      hashSources.filterMap fun source ↦ (e.text source).map (textHash env e source) := by
  have hplain : ∀ source : UInt8, sourceFlags source = smbHashMask → ∀ str : Option (List UInt8),
      (if e.mask.testBit source.toNat then str.bind (smbHashstr { env with now := e.now }
        e.msg.hdr.number e.now source smbHashMask) else none) =
      (if e.mask.testBit source.toNat then str.filter (· ≠ []) else none).map
        (textHash env e source) := by
    intro source hsource str
    have hhash := smbHash_eq env e source (hsource ▸ by unfold AllChecksums; decide) str
    rw [hsource] at hhash
    split
    · exact hhash
    · rfl
  have hbody : (if e.mask.testBit hashSourceBody.toNat then e.body.bind (smbHashstr
        { env with now := e.now } e.msg.hdr.number e.now hashSourceBody
        (smbHashMask ||| smbHashStripWsp ||| smbHashStripCtrlA)) else none) =
      (if e.mask.testBit hashSourceBody.toNat then (e.body.map bodyText).filter (· ≠ [])
        else none).map (textHash env e hashSourceBody) := by
    have hhash := smbHash_eq env e hashSourceBody (by unfold AllChecksums; decide)
      (e.body.map bodyText)
    split
    · rw [← hhash]
      cases e.body <;> rfl
    · rfl
  have hlist : e.hashes env =
      (hashSources.map fun source ↦ (e.text source).map (textHash env e source)).filterMap id := by
    rw [HashedMsg.hashes, smbMsghashes]
    dsimp only
    rw [hplain hashSourceMsgId rfl, hplain hashSourceFtnId rfl, hbody,
      hplain hashSourceSubject rfl]
    rfl
  rw [hlist, List.filterMap_map]
  rfl

theorem mem_hashes {env : Env} {e : HashedMsg} {c : Hash} :
    c ∈ e.hashes env ↔
      ∃ source ∈ hashSources, ∃ text, e.text source = some text ∧ c = textHash env e source text := by
  simp [hashes_eq, eq_comm]

/-- A message has one hash at most for each source. -/
theorem hashes_source_nodup (env : Env) (e : HashedMsg) :
    ((e.hashes env).map Hash.source).Nodup := by
  rw [hashes_eq, List.nodup_iff_pairwise_ne, List.pairwise_map, List.pairwise_filterMap]
  refine List.Pairwise.imp ?_ (show hashSources.Pairwise (· ≠ ·) by decide)
  intro source source' hne c hc c' hc'
  obtain ⟨_, -, rfl⟩ := Option.map_eq_some_iff.mp hc
  obtain ⟨_, -, rfl⟩ := Option.map_eq_some_iff.mp hc'
  exact hne

/-! ## Comparing -/

/-- A hash as `smb_msghashes` makes it. -/
def Hash.Fresh (h : Hash) : Prop := h.flags = sourceFlags h.source

/-- A hash with the mark of `smb_findhash`. -/
def Hash.mark (h : Hash) : Hash := { h with flags := h.flags ||| smbHashMarked }

/-- A hash that `smb_findhash` has marked or not. -/
def Hash.Plain (h : Hash) : Prop :=
  h.flags = sourceFlags h.source ∨ h.flags = sourceFlags h.source ||| smbHashMarked

@[simp] theorem Hash.key_mark (h : Hash) : h.mark.key = h.key := rfl

theorem sourceFlags_cases (source : UInt8) : sourceFlags source = 0x07 ∨ sourceFlags source = 0x67 := by
  rw [sourceFlags]
  split
  · exact Or.inr (by decide)
  · exact Or.inl (by decide)

theorem Hash.Plain.flags_ne_zero {h : Hash} (hplain : h.Plain) : h.flags ≠ 0 := by
  rcases hplain with hflags | hflags <;> rcases sourceFlags_cases h.source with hs | hs <;>
    rw [hflags, hs] <;> decide

theorem not_hashMatches_mark (c h : Hash) : hashMatches c.mark h = false := by
  have hmark : (c.flags ||| smbHashMarked) &&& smbHashMarked ≠ 0 := by
    refine Words.forall_uint8 (p := fun f ↦ (f ||| smbHashMarked) &&& smbHashMarked ≠ 0) ?_ c.flags
    decide +kernel
  simp [hashMatches, Hash.mark, hmark]

theorem hashMatches_iff {c h : Hash} (hc : c.Fresh) (hh : h.Plain) :
    hashMatches c h = true ↔ c.key = h.key := by
  by_cases hsource : c.source = h.source
  · have hflags : c.flags &&& smbHashMarked = 0 ∧
        c.flags &&& smbHashProcCompMask = h.flags &&& smbHashProcCompMask ∧
        c.flags &&& h.flags &&& smbHashMask ≠ 0 ∧ c.flags &&& h.flags &&& smbHashCrc16 ≠ 0 ∧
        c.flags &&& h.flags &&& smbHashCrc32 ≠ 0 ∧ c.flags &&& h.flags &&& smbHashMd5 ≠ 0 := by
      rw [Hash.Fresh, hsource] at hc
      rcases hh with hflags | hflags <;> rcases sourceFlags_cases h.source with hs | hs <;>
        rw [hc, hflags, hs] <;> decide
    obtain ⟨hmarked, hcomp, hmask, hcrc16, hcrc32, hmd5⟩ := hflags
    simp [hashMatches, Hash.key, hsource, hmarked, hcomp, hmask, hcrc16, hcrc32, hmd5, and_assoc]
  · simp [hashMatches, Hash.key, hsource]

/-! ## Searching -/

/-- A record of the table, among the sources that are searched, is for the same text. -/
def present (table : List Hash) (sourceMask : ℕ) (c : Hash) : Bool :=
  table.any fun h ↦ sourceMask.testBit h.source.toNat && decide (c.key = h.key)

theorem findhashLoop_found {sourceMask : ℕ} {table cs : List Hash} (hcs : ∀ c ∈ cs, c.Fresh)
    (htable : ∀ h ∈ table, h.Plain) :
    (findhashLoop sourceMask false table cs none).1 ≠ none ↔
      ∃ c ∈ cs, present table sourceMask c = true := by
  induction table with
  | nil => simp [findhashLoop, present]
  | cons h table ih =>
      have ih := ih fun h' hh' ↦ htable h' (List.mem_cons_of_mem h hh')
      have hplain := htable h List.mem_cons_self
      rw [findhashLoop]
      split
      case isTrue hskip =>
        have hmask := hskip.resolve_left hplain.flags_ne_zero
        rw [ih]
        simp_all [present]
      case isFalse hskip =>
        have hmask : sourceMask.testBit h.source.toNat = true := by simpa using (not_or.mp hskip).2
        cases hidx : cs.findIdx? (hashMatches · h) with
        | none =>
            rw [List.findIdx?_eq_none_iff] at hidx
            dsimp only
            rw [ih]
            refine exists_congr fun c ↦ and_congr_right fun hc ↦ ?_
            have hne : c.key ≠ h.key := by
              rw [Ne, ← hashMatches_iff (hcs c hc) hplain, hidx c hc]
              exact Bool.false_ne_true
            simp [present, hne]
        | some i =>
            obtain ⟨hi, hmatch, -⟩ := List.findIdx?_eq_some_iff_getElem.mp hidx
            have hkey := (hashMatches_iff (hcs _ (List.getElem_mem hi)) hplain).mp hmatch
            refine ⟨fun _ ↦ ⟨cs[i], List.getElem_mem hi, ?_⟩, fun _ ↦ Option.some_ne_none h⟩
            simp [present, hmask, hkey]

/-- The hashes with a property are marked. -/
def markIf (p : Hash → Bool) (c : Hash) : Hash := if p c then c.mark else c

theorem hashMatches_markIf {p : Hash → Bool} {c h : Hash} (hc : c.Fresh) (hh : h.Plain) :
    hashMatches (markIf p c) h = true ↔ p c = false ∧ c.key = h.key := by
  rw [markIf]
  cases hp : p c with
  | true => simp [not_hashMatches_mark]
  | false => simpa using hashMatches_iff hc hh

/-- Marking the one hash that matches is marking all of its key. -/
theorem modify_markIf {cs : List Hash} (hcs : ∀ c ∈ cs, c.Fresh)
    (hnodup : (cs.map Hash.source).Nodup) {h : Hash} (hh : h.Plain) {p : Hash → Bool} {i : ℕ}
    (hi : (cs.map (markIf p)).findIdx? (hashMatches · h) = some i) :
    (cs.map (markIf p)).modify i Hash.mark = cs.map (markIf fun c ↦ p c || decide (c.key = h.key)) := by
  obtain ⟨hlt, hmatch, -⟩ := List.findIdx?_eq_some_iff_getElem.mp hi
  rw [List.length_map] at hlt
  rw [List.getElem_map, hashMatches_markIf (hcs _ (List.getElem_mem hlt)) hh] at hmatch
  apply List.ext_getElem
  · simp
  intro j hj hj'
  rw [List.getElem_modify, List.getElem_map, List.getElem_map]
  rw [List.length_map] at hj'
  by_cases hij : i = j
  · subst hij
    simp [markIf, hmatch]
  · have hkey : cs[j].key ≠ h.key := by
      intro hkey
      have hsource : cs[j].source = cs[i].source :=
        congrArg HashKey.source (hkey.trans hmatch.2.symm)
      have hget : (cs.map Hash.source).get ⟨j, by simpa using hj'⟩ =
          (cs.map Hash.source).get ⟨i, by simpa using hlt⟩ := by simpa using hsource
      exact hij ((List.Nodup.getElem_inj_iff hnodup).mp hget).symm
    simp [markIf, hij, hkey]

theorem findhashLoop_marked {sourceMask : ℕ} {table cs : List Hash} {found : Option Hash}
    (hcs : ∀ c ∈ cs, c.Fresh) (hnodup : (cs.map Hash.source).Nodup)
    (htable : ∀ h ∈ table, h.Plain) (p : Hash → Bool) :
    (findhashLoop sourceMask true table (cs.map (markIf p)) found).2 =
      cs.map (markIf fun c ↦ p c || present table sourceMask c) := by
  induction table generalizing p found with
  | nil => simp [findhashLoop, present]
  | cons h table ih =>
      have htable' : ∀ h' ∈ table, h'.Plain := fun h' hh' ↦ htable h' (List.mem_cons_of_mem h hh')
      have hplain := htable h List.mem_cons_self
      rw [findhashLoop]
      split
      case isTrue hskip =>
        have hmask := hskip.resolve_left hplain.flags_ne_zero
        rw [ih htable']
        simp_all [present]
      case isFalse hskip =>
        have hmask : sourceMask.testBit h.source.toNat = true := by simpa using (not_or.mp hskip).2
        cases hidx : (cs.map (markIf p)).findIdx? (hashMatches · h) with
        | none =>
            rw [List.findIdx?_eq_none_iff] at hidx
            dsimp only
            rw [ih htable']
            refine List.map_congr_left fun c hc ↦ ?_
            have hnot := hidx _ (List.mem_map_of_mem hc)
            rw [← Bool.not_eq_true, hashMatches_markIf (hcs c hc) hplain] at hnot
            cases hp : p c with
            | true => simp [markIf, hp]
            | false =>
                have hkey : c.key ≠ h.key := fun hkey ↦ hnot ⟨hp, hkey⟩
                simp [markIf, hp, present, hkey]
        | some i =>
            dsimp only
            rw [if_neg (by simp)]
            change (findhashLoop sourceMask true table ((cs.map (markIf p)).modify i Hash.mark)
              (some h)).2 = _
            rw [modify_markIf hcs hnodup hplain hidx, ih htable']
            simp [present, hmask, Bool.or_assoc]

theorem hashes_fresh {env : Env} {e : HashedMsg} : ∀ c ∈ e.hashes env, c.Fresh := by
  intro c hc
  obtain ⟨source, -, text, -, rfl⟩ := mem_hashes.mp hc
  rfl

theorem map_markIf_false (cs : List Hash) : cs.map (markIf fun _ ↦ false) = cs :=
  (List.map_congr_left fun _ _ ↦ if_neg Bool.false_ne_true).trans (List.map_id cs)

/-- What `smb_findhash` finds, and what it marks, for the hashes of a message. -/
theorem smbFindhash_hashes {env : Env} (e : HashedMsg) {table : List Hash} (sourceMask : ℕ)
    (htable : ∀ h ∈ table, h.Plain) :
    ((smbFindhash table (e.hashes env) sourceMask false).1 ≠ none ↔
      ∃ c ∈ e.hashes env, present table sourceMask c = true) ∧
    (smbFindhash table (e.hashes env) sourceMask true).2 =
      (e.hashes env).map (markIf (present table sourceMask)) := by
  rw [smbFindhash, smbFindhash]
  by_cases hempty : e.hashes env = [] ∨ sourceMask = 0
  · rw [if_pos hempty, if_pos hempty]
    rcases hempty with hempty | rfl
    · simp [hempty]
    · have hnone : present table 0 = fun _ ↦ false := by
        funext c
        simp [present]
      simp [hnone, map_markIf_false]
  · rw [if_neg hempty, if_neg hempty]
    refine ⟨findhashLoop_found hashes_fresh htable, ?_⟩
    have hmarked := @findhashLoop_marked sourceMask table (e.hashes env) none hashes_fresh
      (hashes_source_nodup env e) htable fun _ ↦ false
    rw [map_markIf_false] at hmarked
    simpa using hmarked

/-- `smb_addhashes` leaves out what is marked. -/
theorem filter_markIf {cs : List Hash} (hcs : ∀ c ∈ cs, c.Fresh) (p : Hash → Bool) :
    ((cs.map (markIf p)).filter fun h ↦ !(true && h.flags &&& smbHashMarked ≠ 0)) =
      cs.filter fun c ↦ !p c := by
  induction cs with
  | nil => rfl
  | cons c cs ih =>
      rw [List.map_cons, List.filter_cons, List.filter_cons,
        ih fun c' hc' ↦ hcs c' (List.mem_cons_of_mem c hc')]
      cases hp : p c with
      | true =>
          have hmark : (c.flags ||| smbHashMarked) &&& smbHashMarked ≠ 0 :=
            Words.forall_uint8 (p := fun f ↦ (f ||| smbHashMarked) &&& smbHashMarked ≠ 0)
              (by decide +kernel) c.flags
          simp [markIf, hp, Hash.mark, hmark]
      | false =>
          have hfresh : c.flags &&& smbHashMarked = 0 := by
            rw [hcs c List.mem_cons_self]
            rcases sourceFlags_cases c.source with hs | hs <;> rw [hs] <;> decide
          simp [markIf, hp, hfresh]

/-! ## Hash files -/

/-- A hash file that is filled from messages: the hashes of each are added, after a search that
marks those found or without one, and all or those that are not marked. -/
inductive HashFile (env : Env) : List HashedMsg → List Hash → Prop
  | nil : HashFile env [] []
  | add {history table} (e : HashedMsg) (skipMarked : Bool) :
      HashFile env history table →
        HashFile env (history ++ [e]) (smbAddhashes table (e.hashes env) skipMarked)
  | mark {history table} (e : HashedMsg) (sourceMask : ℕ) (skipMarked : Bool) :
      HashFile env history table →
        HashFile env (history ++ [e]) (smbAddhashes table
          (smbFindhash table (e.hashes env) sourceMask true).2 skipMarked)

/-- An earlier message has a text of that key. -/
def Known (env : Env) (history : List HashedMsg) (key : HashKey) : Prop :=
  ∃ e ∈ history, ∃ source text, e.text source = some text ∧ textKey env source text = key

/-- The records of a file are plain and have the keys of the earlier texts. -/
structure HashFile.Holds (env : Env) (history : List HashedMsg) (table : List Hash) : Prop where
  plain : ∀ h ∈ table, h.Plain
  keys : ∀ key, (∃ h ∈ table, h.key = key) ↔ Known env history key

theorem mem_hashSources {e : HashedMsg} {source : UInt8} {text : List UInt8}
    (h : e.text source = some text) : source ∈ hashSources := by
  by_contra hmem
  simp only [hashSources, List.mem_cons, List.not_mem_nil, or_false, not_or] at hmem
  obtain ⟨hid, hftn, hbody, hsubject⟩ := hmem
  simp [HashedMsg.text, hashText, hid, hftn, hbody, hsubject] at h

theorem exists_hash_key {env : Env} {e : HashedMsg} {key : HashKey} :
    (∃ c ∈ e.hashes env, c.key = key) ↔
      ∃ source text, e.text source = some text ∧ textKey env source text = key := by
  constructor
  · rintro ⟨c, hc, rfl⟩
    obtain ⟨source, -, text, htext, rfl⟩ := mem_hashes.mp hc
    exact ⟨source, text, htext, rfl⟩
  · rintro ⟨source, text, htext, rfl⟩
    exact ⟨textHash env e source text,
      mem_hashes.mpr ⟨source, mem_hashSources htext, text, htext, rfl⟩, rfl⟩

theorem known_append {env : Env} {history : List HashedMsg} {e : HashedMsg} {key : HashKey} :
    Known env (history ++ [e]) key ↔ Known env history key ∨ ∃ c ∈ e.hashes env, c.key = key := by
  rw [exists_hash_key]
  simp only [Known, List.mem_append, List.mem_singleton]
  constructor
  · rintro ⟨e', he' | rfl, h⟩
    · exact Or.inl ⟨e', he', h⟩
    · exact Or.inr h
  · rintro (⟨e', he', h⟩ | h)
    · exact ⟨e', Or.inl he', h⟩
    · exact ⟨e, Or.inr rfl, h⟩

/-- Hashes are added of which some are marked, those only when their key is there. -/
theorem HashFile.Holds.add {env : Env} {history : List HashedMsg} {table : List Hash}
    (h : Holds env history table) (e : HashedMsg) {p : Hash → Bool}
    (hp : ∀ c, p c = true → ∃ h ∈ table, h.key = c.key) (skipMarked : Bool) :
    Holds env (history ++ [e])
      (smbAddhashes table ((e.hashes env).map (markIf p)) skipMarked) := by
  have hmarkIf : ∀ c, (markIf p c).key = c.key := by
    intro c
    rw [markIf]
    split <;> rfl
  constructor
  · intro h' hh'
    rcases List.mem_append.mp hh' with hh' | hh'
    · exact h.plain h' hh'
    · obtain ⟨c, hc, rfl⟩ := List.mem_map.mp (List.mem_of_mem_filter hh')
      have hfresh : c.flags = sourceFlags c.source := hashes_fresh c hc
      rw [markIf]
      split
      · exact Or.inr (congrArg (· ||| smbHashMarked) hfresh)
      · exact Or.inl hfresh
  · intro key
    rw [known_append, ← h.keys]
    constructor
    · rintro ⟨h', hh', rfl⟩
      rcases List.mem_append.mp hh' with hh' | hh'
      · exact Or.inl ⟨h', hh', rfl⟩
      · obtain ⟨c, hc, rfl⟩ := List.mem_map.mp (List.mem_of_mem_filter hh')
        exact Or.inr ⟨c, hc, (hmarkIf c).symm⟩
    · rintro (⟨h', hh', rfl⟩ | ⟨c, hc, rfl⟩)
      · exact ⟨h', List.mem_append_left _ hh', rfl⟩
      · cases hpc : p c with
        | true =>
            obtain ⟨h', hh', hkey⟩ := hp c hpc
            exact ⟨h', List.mem_append_left _ hh', hkey⟩
        | false =>
            have hfresh : c.flags &&& smbHashMarked = 0 := by
              rw [hashes_fresh c hc]
              rcases sourceFlags_cases c.source with hs | hs <;> rw [hs] <;> decide
            have hsame : markIf p c = c := by simp [markIf, hpc]
            refine ⟨c, List.mem_append_right _ (List.mem_filter.mpr ⟨?_, ?_⟩), rfl⟩
            · exact List.mem_map.mpr ⟨c, hc, hsame⟩
            · simp [hfresh]

theorem HashFile.holds {env : Env} {history : List HashedMsg} {table : List Hash}
    (h : HashFile env history table) : Holds env history table := by
  induction h with
  | nil => exact ⟨by simp, by simp [Known]⟩
  | add e skipMarked _ ih =>
      have hadd := ih.add e (p := fun _ ↦ false) (by simp) skipMarked
      rwa [map_markIf_false] at hadd
  | @mark history table e sourceMask skipMarked _ ih =>
      rw [(smbFindhash_hashes e sourceMask ih.plain).2]
      refine ih.add e (fun c hc ↦ ?_) skipMarked
      obtain ⟨h', hh', hkey⟩ := List.any_eq_true.mp hc
      simp only [Bool.and_eq_true, decide_eq_true_eq] at hkey
      exact ⟨h', hh', hkey.2.symm⟩

theorem HashFile.Holds.present_iff {env : Env} {history : List HashedMsg} {table : List Hash}
    (h : Holds env history table) (sourceMask : ℕ) (c : Hash) :
    present table sourceMask c = true ↔
      sourceMask.testBit c.source.toNat = true ∧ Known env history c.key := by
  rw [← h.keys, present, List.any_eq_true]
  constructor
  · rintro ⟨h', hh', hc⟩
    simp only [Bool.and_eq_true, decide_eq_true_eq] at hc
    have hsource : c.source = h'.source := congrArg HashKey.source hc.2
    exact ⟨hsource ▸ hc.1, h', hh', hc.2.symm⟩
  · rintro ⟨hmask, h', hh', hkey⟩
    have hsource : h'.source = c.source := congrArg HashKey.source hkey
    refine ⟨h', hh', ?_⟩
    simp [hsource, hmask, hkey]

/-! ## Bodies that differ in spacing -/

/-- No Ctrl-A code is cut off at the end. -/
def whole : List UInt8 → Bool
  | [] => true
  | [c] => c ≠ 1
  | c :: d :: rest => if c = 1 then whole rest else whole (d :: rest)

/-- Two bodies that differ only in white space or Ctrl-A codes. -/
inductive OnlySpacing : List UInt8 → List UInt8 → Prop
  | refl (body) : OnlySpacing body body
  | symm {body body'} : OnlySpacing body body' → OnlySpacing body' body
  | trans {body body' body''} :
      OnlySpacing body body' → OnlySpacing body' body'' → OnlySpacing body body''
  | space {front rest} (c : UInt8) (hfront : whole front = true) (hc : c ∈ [32, 9, 13, 10]) :
      OnlySpacing (front ++ rest) (front ++ c :: rest)
  | ctrlA {front rest} (c : UInt8) (hfront : whole front = true) :
      OnlySpacing (front ++ rest) (front ++ 1 :: c :: rest)

theorem stripCtrla_append {front : List UInt8} (hfront : whole front = true) (rest : List UInt8) :
    stripCtrla (front ++ rest) = stripCtrla front ++ stripCtrla rest := by
  induction front using stripCtrla.induct with
  | case1 => rfl
  | case2 => cases hfront
  | case3 c hc =>
      cases rest with
      | nil => simp [stripCtrla]
      | cons d rest => simp [stripCtrla, hc]
  | case4 d rest' ih =>
      exact ih hfront
  | case5 c d rest' hc ih =>
      rw [whole, if_neg hc] at hfront
      simpa [stripCtrla, hc] using ih hfront

theorem bodyText_append {front : List UInt8} (hfront : whole front = true) (rest : List UInt8) :
    bodyText (front ++ rest) = bodyText front ++ bodyText rest := by
  rw [bodyText, stripCtrla_append hfront, stripChars, List.filter_append]
  rfl

theorem OnlySpacing.bodyText_eq {body body' : List UInt8} (h : OnlySpacing body body') :
    bodyText body = bodyText body' := by
  induction h with
  | refl => rfl
  | symm _ ih => exact ih.symm
  | trans _ _ ih ih' => exact ih.trans ih'
  | @space front rest c hfront hc =>
      rw [bodyText_append hfront, bodyText_append hfront]
      congr 1
      have hne : c ≠ 1 := by
        rintro rfl
        revert hc
        decide
      have hwhole : whole [c] = true := decide_eq_true hne
      have hstrip : bodyText [c] = [] := by
        rw [bodyText, stripCtrla, if_neg hne, stripChars, List.filter_cons,
          List.contains_iff_mem.mpr hc]
        rfl
      change _ = bodyText ([c] ++ rest)
      rw [bodyText_append hwhole, hstrip, List.nil_append]
  | ctrlA c hfront =>
      rw [bodyText_append hfront, bodyText_append hfront]
      rfl

/-! ## Duplicates -/

theorem text_body {e : HashedMsg} (hmask : e.mask.testBit hashSourceBody.toNat = true)
    {body : List UInt8} (hbody : e.body = some body) (hne : bodyText body ≠ []) :
    e.text hashSourceBody = some (bodyText body) := by
  rw [HashedMsg.text, if_pos hmask]
  simp [hashText, hashSourceMsgId, hashSourceFtnId, hashSourceBody, hbody, Option.filter, hne]

/-- A text of the message has the checksums of an earlier one and its length in 32 bits. -/
def HasDuplicate (env : Env) (history : List HashedMsg) (e : HashedMsg) (sourceMask : ℕ) : Prop :=
  ∃ source, sourceMask.testBit source.toNat = true ∧ ∃ text, e.text source = some text ∧
    ∃ e' ∈ history, ∃ text', e'.text source = some text' ∧
      UInt32.ofNat text.length = UInt32.ofNat text'.length ∧ env.crc16 text = env.crc16 text' ∧
      env.crc32 text = env.crc32 text' ∧ env.md5 text = env.md5 text'

theorem HashFile.Holds.found_iff {env : Env} {history : List HashedMsg} {table : List Hash}
    (h : Holds env history table) (e : HashedMsg) (sourceMask : ℕ) :
    (smbFindhash table (e.hashes env) sourceMask false).1 ≠ none ↔
      HasDuplicate env history e sourceMask := by
  rw [(smbFindhash_hashes e sourceMask h.plain).1]
  constructor
  · rintro ⟨c, hc, hpresent⟩
    obtain ⟨source, -, text, htext, rfl⟩ := mem_hashes.mp hc
    obtain ⟨hmask, e', he', source', text', htext', hkey⟩ :=
      (h.present_iff sourceMask _).mp hpresent
    simp only [textKey, Hash.key, textHash, HashKey.mk.injEq] at hkey
    obtain ⟨rfl, hlength, hcrc16, hcrc32, hmd5⟩ := hkey
    exact ⟨source', hmask, text, htext, e', he', text', htext', hlength.symm, hcrc16.symm,
      hcrc32.symm, hmd5.symm⟩
  · rintro ⟨source, hmask, text, htext, e', he', text', htext', hlength, hcrc16, hcrc32, hmd5⟩
    refine ⟨textHash env e source text,
      mem_hashes.mpr ⟨source, mem_hashSources htext, text, htext, rfl⟩,
      (h.present_iff sourceMask _).mpr ⟨hmask, e', he', source, text', htext', ?_⟩⟩
    simp [textKey, Hash.key, textHash, hlength, hcrc16, hcrc32, hmd5]

/-- The search for the hashes of a message in the file of the earlier ones finds one exactly when
it has a duplicate, as it has when its body differs in nothing but spacing; and the hashes that are
added after a search that marks are those that are not there. -/
theorem smbFindhash_duplicate {env : Env} {history : List HashedMsg} {table : List Hash}
    (h : HashFile env history table) (e : HashedMsg) (sourceMask : ℕ) :
    ((smbFindhash table (e.hashes env) sourceMask false).1 ≠ none ↔
      HasDuplicate env history e sourceMask) ∧
    (∀ e' ∈ history, ∀ body body', e.body = some body → e'.body = some body' →
      OnlySpacing body body' → bodyText body ≠ [] →
      e.mask.testBit hashSourceBody.toNat = true → e'.mask.testBit hashSourceBody.toNat = true →
      sourceMask.testBit hashSourceBody.toNat = true →
        (smbFindhash table (e.hashes env) sourceMask false).1 ≠ none) ∧
    ∃ added, smbAddhashes table (smbFindhash table (e.hashes env) sourceMask true).2 true =
        table ++ added ∧ added.Sublist (e.hashes env) ∧
      ∀ c ∈ e.hashes env, c ∈ added ↔
        ¬ (sourceMask.testBit c.source.toNat = true ∧ Known env history c.key) := by
  have hholds := h.holds
  refine ⟨hholds.found_iff e sourceMask, ?_, ?_⟩
  · intro e' he' body body' hbody hbody' hspacing hne hmask hmask' hsource
    rw [hholds.found_iff]
    have hne' : bodyText body' ≠ [] := hspacing.bodyText_eq ▸ hne
    refine ⟨hashSourceBody, hsource, bodyText body, text_body hmask hbody hne, e', he',
      bodyText body', text_body hmask' hbody' hne', ?_⟩
    rw [hspacing.bodyText_eq]
    exact ⟨rfl, rfl, rfl, rfl⟩
  · refine ⟨(e.hashes env).filter fun c ↦ !present table sourceMask c, ?_, List.filter_sublist, ?_⟩
    · rw [(smbFindhash_hashes e sourceMask hholds.plain).2, smbAddhashes,
        filter_markIf hashes_fresh]
    · intro c hc
      rw [← hholds.present_iff, List.mem_filter]
      simp [hc]

/-- A message with nothing but an identifier of a number of letters. -/
def idMsg (n : ℕ) : HashedMsg := ⟨{ conv := { id := some (List.replicate n 65) } }, none, 2, 0⟩

@[simp] theorem idMsg_mask (n : ℕ) : (idMsg n).mask = 2 := rfl

theorem idMsg_text {n : ℕ} (hn : n ≠ 0) :
    (idMsg n).text hashSourceMsgId = some (List.replicate n 65) := by
  have hne : List.replicate n (65 : UInt8) ≠ [] := by
    rw [Ne, List.replicate_eq_nil_iff]
    exact hn
  rw [HashedMsg.text, idMsg_mask, if_pos (by decide)]
  simp [hashText, idMsg, Option.filter, hn]

theorem idMsg_length {n : ℕ} {source : UInt8} {text : List UInt8}
    (h : (idMsg n).text source = some text) : text.length = n := by
  have hmem := mem_hashSources h
  simp only [hashSources, List.mem_cons, List.not_mem_nil, or_false] at hmem
  rcases hmem with rfl | rfl | rfl | rfl
  · rw [HashedMsg.text, idMsg_mask, if_pos (by decide)] at h
    have htext := (Option.filter_eq_some_iff.mp h).1
    have htext : some (List.replicate n (65 : UInt8)) = some text := htext
    rw [← Option.some.inj htext, List.length_replicate]
  all_goals
    rw [HashedMsg.text, idMsg_mask, if_neg (by decide)] at h
    cases h

theorem smbFindhash_duplicate_id :
    (smbFindhash (smbAddhashes [] ((idMsg 3).hashes plainEnv) false) ((idMsg 3).hashes plainEnv) 2
      false).1 ≠ none :=
  (smbFindhash_duplicate (HashFile.add (idMsg 3) false HashFile.nil) (idMsg 3) 2).1.mpr
    ⟨hashSourceMsgId, by decide, _, idMsg_text (by decide), idMsg 3, by simp, _,
      idMsg_text (by decide), rfl, rfl, rfl, rfl⟩

/-- With checksums that agree, an identifier of one letter is found for one of 2^32 + 1. -/
theorem smbFindhash_duplicate_wrapped :
    (smbFindhash (smbAddhashes [] ((idMsg (2 ^ 32 + 1)).hashes plainEnv) false)
      ((idMsg 1).hashes plainEnv) 2 false).1 ≠ none ∧
    ∀ source text text', (idMsg 1).text source = some text →
      (idMsg (2 ^ 32 + 1)).text source = some text' → text.length ≠ text'.length := by
  constructor
  · rw [(HashFile.add (idMsg (2 ^ 32 + 1)) false HashFile.nil).holds.found_iff]
    refine ⟨hashSourceMsgId, by decide, _, idMsg_text (by decide), idMsg (2 ^ 32 + 1), by simp, _,
      idMsg_text (by decide), ?_, rfl, rfl, rfl⟩
    rw [List.length_replicate, List.length_replicate]
    decide
  · intro source text text' htext htext'
    rw [idMsg_length htext, idMsg_length htext']
    decide

end Synchronet.Smblib
