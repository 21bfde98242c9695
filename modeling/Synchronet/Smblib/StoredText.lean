import Synchronet.Smblib.DataRuns
import Synchronet.Smblib.Text

/-!
# Stored text is retrieved

`smb_addmsg` stores the text of a message plainly or compressed, and
`smb_getmsgtxt` finds it again where the message header says it is.  The header has
32 bits for that place: text that begins above 4 GiB is looked for elsewhere.
-/

namespace Synchronet.Smblib

open RecordFile LittleEndian Words

/-! ## Reading a field -/

/-- A decoder makes a text of compressed data, whose first four bytes are the length of
the text. -/
def DecodesTo (decode : (ℕ → UInt8) → ℤ → ℕ → Option (List UInt8)) (lzh text : List UInt8) : Prop :=
  ∀ lzhbuf : ℕ → UInt8, (∀ j c, lzh[j]? = some c → lzhbuf j = c) →
    int32At lzhbuf = text.length ∧
      ∀ room, text.length ≤ room →
        decode lzhbuf (Int32.ofNat lzh.length).toInt room = some text

/-- The stored forms of a text. -/
inductive Stores (decode : (ℕ → UInt8) → ℤ → ℕ → Option (List UInt8)) :
    List UInt8 → List UInt8 → Prop
  | plain (text : List UInt8) : Stores decode (le 2 xlatNone.toNat ++ text) text
  | lzh (text lzh : List UInt8) : lzh ≠ [] → DecodesTo decode lzh text →
      Stores decode (le 2 xlatLzh.toNat ++ le 2 xlatNone.toNat ++ lzh) text

/-- The text without the zeros at its end, except for its first byte. -/
def stripped : List UInt8 → List UInt8
  | [] => []
  | c :: cs => c :: cs.rdropWhile (· = 0)

theorem stripped_append {xs ys : List UInt8} (hys : ys ≠ []) (hlast : ∀ c ∈ ys, c ≠ 0) :
    stripped (xs ++ ys) = xs ++ ys := by
  have hne : ∀ zs : List UInt8, (zs ++ ys).rdropWhile (· = 0) = zs ++ ys := by
    intro zs
    rw [List.rdropWhile_eq_self_iff]
    intro hcat
    rw [List.getLast_append_of_ne_nil _ hys]
    simpa using hlast _ (List.getLast_mem hys)
  cases xs with
  | nil =>
      cases ys with
      | nil => exact absurd rfl hys
      | cons c cs =>
          rw [List.nil_append, stripped]
          cases cs with
          | nil => rfl
          | cons d ds =>
              rw [List.rdropWhile_eq_self_iff.mpr]
              intro hcat
              simpa using hlast _ (List.mem_cons_of_mem c (List.getLast_mem hcat))
  | cons x xs => rw [List.cons_append, stripped, hne]

theorem length_stripped_le (xs : List UInt8) : (stripped xs).length ≤ xs.length := by
  cases xs with
  | nil => exact le_refl 0
  | cons c cs => exact Nat.succ_le_succ (List.IsPrefix.length_le (List.rdropWhile_prefix _ cs))

theorem putLine_eq {buf : Buffer UInt8} {str : List UInt8}
    (hroom : buf.items.length + str.length + 3 ≤ buf.size) :
    ∃ buf', putLine buf str = some buf' ∧ buf'.items = buf.items ++ str ++ [13, 10] := by
  obtain ⟨buf', hput, hitems, -⟩ := @Buffer.exists_put _ buf (str ++ [13, 10, 0])
      (by simpa [Nat.add_assoc] using hroom)
  refine ⟨_, by rw [putLine, hput, Option.map_some], ?_⟩
  have hcat : buf.items ++ (str ++ [13, 10, 0]) = (buf.items ++ str ++ [13, 10]) ++ [0] := by simp
  rw [Buffer.items_truncate, hitems, hcat, List.take_left' (by simp [Nat.add_assoc])]

/-- A text that is not empty loses the zeros at its end and gets a line end. -/
theorem endText_eq {buf : Buffer UInt8} (hne : buf.items ≠ [])
    (hroom : buf.items.length + 3 ≤ buf.size) :
    ∃ buf', endText buf = some buf' ∧ buf'.items = stripped buf.items ++ [13, 10] := by
  obtain ⟨items, size, fits⟩ := buf
  cases items with
  | nil => exact absurd rfl hne
  | cons c cs =>
      have htake : (c :: cs).take (1 + (cs.rdropWhile (· = 0)).length) = stripped (c :: cs) := by
        rw [Nat.add_comm, List.take_succ_cons, stripped,
          List.prefix_iff_eq_take.mp (List.rdropWhile_prefix _ cs)]
        simp
      obtain ⟨buf', hput, hitems⟩ := @putLine_eq
          (Buffer.truncate ⟨c :: cs, size, fits⟩ (1 + (cs.rdropWhile (· = 0)).length)) [] (by
            rw [Buffer.items_truncate, htake]
            exact (Nat.add_le_add_right (length_stripped_le _) 3).trans hroom)
      refine ⟨buf', hput, ?_⟩
      rw [hitems, Buffer.items_truncate, htake, List.append_nil]

theorem readWord_eq {sdt : List UInt8} {pos : ℕ} {x : UInt16}
    (h : readAt sdt pos 2 = le 2 x.toNat) (old : UInt16) : readWord sdt pos old = x := by
  have hx : x.toNat < 256 ^ 2 := UInt16.toNat_lt x
  rw [readWord, h, length_le, List.drop_eq_nil_of_le (by simp), List.append_nil, ofLe_le,
    Nat.mod_eq_of_lt hx, UInt16.ofNat_toNat]

/-- A part of what is stored at a position. -/
theorem readAt_append {sdt : List UInt8} {pos : ℕ} (xs ys zs : List UInt8)
    (h : readAt sdt pos (xs ++ ys ++ zs).length = xs ++ ys ++ zs) :
    readAt sdt (pos + xs.length) ys.length = ys := by
  rw [← readAt_readAt sdt pos (xs ++ ys ++ zs).length _ _ (by simp), h, readAt,
    List.append_assoc, List.drop_left, List.take_left]

section Field

variable {t : TextEnv} (hmem : ∀ n, t.mem n = true) {sdt : List UInt8} {i pos : ℕ}

include hmem

theorem getPlain_eq (buf : Buffer UInt8) {text : List UInt8}
    (hread : readAt sdt pos text.length = text) :
    ∃ buf', getPlain t.mem sdt pos text.length buf = .next buf' ∧
      buf'.items = buf.items ++ text ∧ buf'.size = buf.items.length + text.length + 3 := by
  have hitems := Buffer.items_resize (b := buf) (n := buf.items.length + text.length + 3) (by omega)
  obtain ⟨buf', hput, hbuf', hsize⟩ := @Buffer.exists_put _
      (buf.resize (buf.items.length + text.length + 3)) text (by rw [hitems, Buffer.size_resize]; omega)
  refine ⟨buf', ?_, by rw [hbuf', hitems], hsize⟩
  rw [getPlain, hread]
  simp only [hmem, not_true_eq_false, if_false]
  rw [hput, TextStep.ofOption]

theorem getLzh_eq (buf : Buffer UInt8) {lzh text : List UInt8}
    (hread : readAt sdt pos lzh.length = lzh) (hdecode : DecodesTo t.decode lzh text) :
    ∃ buf', getLzh t sdt i pos lzh.length buf = .next buf' ∧
      buf'.items = buf.items ++ text ∧ buf'.size = buf.items.length + text.length + 3 := by
  obtain ⟨hlen, htext⟩ := hdecode (loaded lzh (t.heap i)) (fun j c hj ↦ by
    rw [loaded, List.getD_eq_getElem?_getD, hj, Option.getD_some])
  have hitems := Buffer.items_resize (b := buf) (n := buf.items.length + text.length + 3) (by omega)
  obtain ⟨buf', hput, hbuf', hsize⟩ := @Buffer.exists_put _
      (buf.resize (buf.items.length + text.length + 3)) text (by rw [hitems, Buffer.size_resize]; omega)
  refine ⟨buf', ?_, by rw [hbuf', hitems], hsize⟩
  have hfull : (List.range text.length).map (loaded text (t.fresh i)) = text := by
    apply List.ext_getElem?
    intro j
    rw [List.getElem?_map]
    by_cases hj : j < text.length
    · rw [List.getElem?_range hj, Option.map_some, loaded, List.getD_eq_getElem?_getD,
        List.getElem?_eq_getElem hj, Option.getD_some]
    · rw [List.getElem?_eq_none (by simpa using hj), List.getElem?_eq_none (by simpa using hj)]
      rfl
  have hsize : (buf.items.length : ℤ) + text.length + 3 =
      ((buf.items.length + text.length + 3 : ℕ) : ℤ) := by simp
  have hroom : ((text.length : ℤ) + 3).toNat = text.length + 3 := by omega
  have hpos : ((buf.items.length + text.length + 3 : ℕ) : ℤ) ≠ 0 := by omega
  rw [getLzh, hread]
  simp only [hmem, not_true_eq_false, if_false, hlen, hsize, hroom, granted, Int.natCast_nonneg,
    decide_true, Bool.and_true, Int.toNat_natCast, htext (text.length + 3) (Nat.le_add_right _ 3),
    hfull, hpos]
  rw [hput, TextStep.ofOption]

/-- A stored text is read behind the text so far. -/
theorem getField_stores {msg : SmbMsg} {mode : ℕ} {d : DField} {stored text : List UInt8}
    (hwanted : wanted mode d = true) (hlen : d.length.toNat = stored.length) (htext : text ≠ [])
    (hstores : Stores t.decode stored text)
    (hread : readAt sdt (dfieldPos msg d) stored.length = stored) (s : TextState) :
    ∃ s', getField t sdt msg mode i d s = .next s' ∧
      s'.buf.items = stripped (s.buf.items ++ text) ++ [13, 10] := by
  have hend : ∀ buf' : Buffer UInt8, buf'.items = s.buf.items ++ text →
      buf'.size = s.buf.items.length + text.length + 3 →
      ∃ buf'', endText buf' = some buf'' ∧
        buf''.items = stripped (s.buf.items ++ text) ++ [13, 10] := by
    intro buf' hitems hsize
    obtain ⟨buf'', hend, hbuf''⟩ := @endText_eq buf' (by simp [hitems, htext])
        (by rw [hsize, hitems, List.length_append])
    exact ⟨buf'', hend, by rw [hbuf'', hitems]⟩
  rw [getField, if_neg (not_not.mpr hwanted)]
  cases hstores with
  | plain =>
      have hword : readAt sdt (dfieldPos msg d) 2 = le 2 xlatNone.toNat :=
        readAt_append [] (le 2 xlatNone.toNat) text hread
      have hxlat : fieldXlat sdt (dfieldPos msg d) s.xlat = (false, xlatNone) := by
        rw [fieldXlat, readWord_eq hword]
        rfl
      have hrest : readAt sdt (dfieldPos msg d + 2) text.length = text :=
        readAt_append (le 2 xlatNone.toNat) text [] (by rwa [List.append_nil])
      have hcount : d.length.toNat - 2 = text.length := by
        rw [hlen, List.length_append, length_le, Nat.add_sub_cancel_left]
      obtain ⟨buf', hplain, hitems, hsize⟩ := getPlain_eq hmem s.buf hrest
      obtain ⟨buf'', hbuf'', hitems''⟩ := hend buf' hitems hsize
      refine ⟨⟨buf'', xlatNone⟩, ?_, hitems''⟩
      simp only [hxlat, hcount, hplain, ne_eq, not_true_eq_false, Bool.false_eq_true, false_and,
        or_self, if_false, TextStep.bind, hbuf'', TextStep.ofOption]
  | lzh _ lzh hne hdecode =>
      have hword : readAt sdt (dfieldPos msg d) 2 = le 2 xlatLzh.toNat :=
        readAt_append [] (le 2 xlatLzh.toNat) (le 2 xlatNone.toNat ++ lzh) hread
      have hword' : readAt sdt (dfieldPos msg d + 2) 2 = le 2 xlatNone.toNat :=
        readAt_append (le 2 xlatLzh.toNat) (le 2 xlatNone.toNat) lzh hread
      have hxlat : fieldXlat sdt (dfieldPos msg d) s.xlat = (true, xlatNone) := by
        rw [fieldXlat, readWord_eq hword, readWord_eq hword']
        rfl
      have hrest : readAt sdt (dfieldPos msg d + 4) lzh.length = lzh :=
        readAt_append (le 2 xlatLzh.toNat ++ le 2 xlatNone.toNat) lzh []
          (by rwa [List.append_nil])
      have hcount : d.length.toNat - 4 = lzh.length := by
        rw [hlen, List.length_append, List.length_append, length_le, length_le]
        exact Nat.add_sub_cancel_left _ _
      have hpos : ¬ lzh.length < 1 := by
        simpa using hne
      obtain ⟨buf', hlzh, hitems, hsize⟩ := getLzh_eq hmem (i := i) s.buf hrest hdecode
      obtain ⟨buf'', hbuf'', hitems''⟩ := hend buf' hitems hsize
      refine ⟨⟨buf'', xlatNone⟩, ?_, hitems''⟩
      simp only [hxlat, hcount, hlzh, ne_eq, not_true_eq_false, hpos, and_false, or_self, if_false,
        if_true, TextStep.bind, hbuf'', TextStep.ofOption]

end Field

/-! ## Reading both parts -/

/-- The text after another part of it has been read. -/
def addPart (xs text : List UInt8) : List UInt8 :=
  if text = [] then xs else stripped (xs ++ text) ++ [13, 10]

theorem getFields_append (t : TextEnv) (sdt : List UInt8) (msg : SmbMsg) (mode i : ℕ)
    (xs ys : List DField) (s : TextState) :
    getFields t sdt msg mode i (xs ++ ys) s =
      (getFields t sdt msg mode i xs s).bind (getFields t sdt msg mode (i + xs.length) ys) := by
  induction xs generalizing i s with
  | nil => rfl
  | cons d ds ih =>
      rw [List.cons_append, getFields, getFields, List.length_cons]
      cases getField t sdt msg mode i d s with
      | fault => rfl
      | done buf => rfl
      | next s' =>
          simp only [TextStep.bind]
          rw [ih, Nat.add_right_comm, Nat.add_assoc]
          rfl

/-- `d` is the field of a part that is stored as `stored`. -/
structure ReadsPart (t : TextEnv) (sdt : List UInt8) (msg : SmbMsg) (mode : ℕ) (d : DField)
    (stored text : List UInt8) : Prop where
  wanted : wanted mode d = true
  length : d.length.toNat = stored.length
  stores : Stores t.decode stored text
  read : readAt sdt (dfieldPos msg d) stored.length = stored

theorem getFields_part {t : TextEnv} (hmem : ∀ n, t.mem n = true) {sdt : List UInt8} {msg : SmbMsg}
    {mode : ℕ} {d : DField} {n : ℕ} {stored text : List UInt8} (hn : n = 0 ↔ text = [])
    (hpart : text ≠ [] → ReadsPart t sdt msg mode d stored text) (i : ℕ) (s : TextState) :
    ∃ s', getFields t sdt msg mode i (if n = 0 then [] else [d]) s = .next s' ∧
      s'.buf.items = addPart s.buf.items text := by
  by_cases htext : text = []
  · rw [if_pos (hn.mpr htext), addPart, if_pos htext]
    exact ⟨s, rfl, rfl⟩
  · obtain ⟨hwanted, hlen, hstores, hread⟩ := hpart htext
    obtain ⟨s', hs', hitems⟩ := getField_stores hmem hwanted hlen htext hstores hread s (i := i)
    rw [if_neg (mt hn.mp htext), addPart, if_neg htext]
    refine ⟨s', ?_, hitems⟩
    rw [getFields, hs']
    rfl

/-- The text of a message with the fields of `smb_addmsg`, when body and tail are read as
given. -/
theorem smbGetmsgtxt_textFields {t : TextEnv} (hmem : ∀ n, t.mem n = true) {sdt : List UInt8}
    {msg : SmbMsg} {b n : ℕ} {body tail : List UInt8} (bodyStored tailStored : List UInt8)
    (hfields : msg.dfields = textFields b n) (hb : b = 0 ↔ body = []) (hn : n = 0 ↔ tail = [])
    (hbody : body ≠ [] →
      ReadsPart t sdt msg 5 ⟨textBody, 0, UInt32.ofNat b⟩ bodyStored body)
    (htail : tail ≠ [] →
      ReadsPart t sdt msg 5 ⟨textTail, UInt32.ofNat b, UInt32.ofNat n⟩ tailStored tail) :
    smbGetmsgtxt t sdt msg 5 = some (some (cstr (addPart (addPart [] body) tail))) := by
  obtain ⟨s₁, hs₁, hitems₁⟩ := getFields_part hmem hb hbody 0 ⟨startBuffer, t.xlat⟩
  obtain ⟨s₂, hs₂, hitems₂⟩ := getFields_part hmem hn htail
    (0 + (if b = 0 then [] else [⟨textBody, 0, UInt32.ofNat b⟩] : List DField).length) s₁
  have hmode : (5 : ℕ).testBit 2 = true := rfl
  have hsteps : msgtxtSteps t sdt msg 5 = .next s₂ := by
    rw [msgtxtSteps, hfields, textFields]
    simp only [hmode, if_true, TextStep.bind]
    rw [getFields_append, hs₁]
    exact hs₂
  rw [smbGetmsgtxt, hsteps, hmem 1]
  simp only [not_true_eq_false, if_false]
  rw [hitems₂, hitems₁]
  rfl

/-! ## Where the text goes -/

/-- Storing a text writes it to the place that is allocated for it. -/
theorem storeText_place {smb smb' : Smb} {msg msg' : SmbMsg} {storage storage' : Storage}
    {body tail : List UInt8} (htotal : msg.hdr.totalDfields = 0)
    (h : storeText smb msg storage body tail = .ok (storage', smb', msg')) :
    msg'.dfields = textFields body.length tail.length ∧
      (body.length + tail.length ≠ 0 → body.length + tail.length < 2 ^ 31 ∧
        ∃ offset rest, (dataAlloc storage smb (body.length + tail.length)).2.1 = .ok offset ∧
          msg'.hdr.offset = UInt32.ofNat offset ∧
          smb'.sdt = writeAt 0 smb.sdt offset (body ++ tail ++ rest)) := by
  rw [storeText] at h
  dsimp only at h
  split at h
  · rename_i hzero
    cases h
    have hbody : body.length = 0 := by omega
    have htail : tail.length = 0 := by omega
    refine ⟨?_, fun hne ↦ absurd hzero hne⟩
    rw [hbody, htail, SmbMsg.dfields, htotal]
    rfl
  · split at h
    · cases h
    · split at h
      · cases h
      · rename_i hshort mode offset sda halloc
        cases h
        refine ⟨@dfields_addDfield_addDfield (msg.placed (UInt32.ofNat offset)) htotal body tail,
          fun _ ↦ ⟨by omega, offset, _, by rw [halloc], ?_, rfl⟩⟩
        rw [offset_addDfield, offset_addDfield, SmbMsg.placed]

theorem recordHashes_sdt (smb : Smb) (msg : SmbMsg) (hashes : List Hash) :
    (recordHashes smb msg hashes).1.sdt = smb.sdt := by
  rw [recordHashes]
  split <;> rfl

/-- The steps after the text leave the data file alone. -/
theorem finishMsg_sdt {env : Env} {smb smb' : Smb} {msg msg' : SmbMsg} {storage : Storage}
    {hashes : List Hash} {code : Code}
    (h : finishMsg env smb msg storage hashes = some (code, smb', msg')) :
    smb'.sdt = smb.sdt := by
  rw [finishMsg] at h
  split at h
  · cases h
  · rename_i smb₂ msg₂ hlink
    obtain ⟨⟨shd, sid, rfl⟩, -⟩ := linkThread_frame hlink
    have hsdt := recordHashes_sdt { smb with shd := shd, sid := sid } msg₂ hashes
    dsimp only at h
    generalize recordHashes { smb with shd := shd, sid := sid } msg₂ hashes = r at h hsdt
    split at h
    · simp only [Option.some.injEq, Prod.mk.injEq] at h
      rw [← h.2.1]
      exact hsdt
    · have hadd := (smbAddmsghdr_frame env r.1 r.2 storage).2.1
      generalize smbAddmsghdr env r.1 r.2 storage = r' at h hadd
      rw [giveBack] at h
      split at h
      · simp only [Option.some.injEq] at h
        rw [h] at hadd
        exact hadd.trans hsdt
      · simp only [Option.some.injEq, Prod.mk.injEq] at h
        rw [← h.2.1]
        exact hadd.trans hsdt

/-- A message that was added has its text where it was allocated. -/
theorem smbAddmsg_place {env : Env} {smb smb' : Smb} {msg msg' : SmbMsg} {storage : Storage}
    {dupechkHashes : ℕ} {xlat : UInt16} {body tail : Option (List UInt8)} {b n : ℕ}
    (hlengths : storedLengths env xlat body tail = (b, n))
    (h : smbAddmsg env smb msg storage dupechkHashes xlat body tail = some (.success, smb', msg')) :
    msg'.dfields = textFields b n ∧
      (b + n ≠ 0 → b + n < 2 ^ 31 ∧ ∃ offset rest,
        (dataAlloc storage smb (b + n)).2.1 = .ok offset ∧
          msg'.hdr.offset = UInt32.ofNat offset ∧
          smb'.sdt = writeAt 0 smb.sdt offset
            (storedBody env xlat body (storedTail tail).length ++ storedTail tail ++ rest)) := by
  rcases smbAddmsg_steps hlengths h with ⟨-, hcode, -⟩ | ⟨-, -, hcode, -⟩ |
    ⟨-, -, storage₁, smb₁, msg₁, hstore, hfinish⟩
  · exact absurd rfl hcode
  · exact absurd rfl hcode
  · simp only [storedLengths, Prod.mk.injEq] at hlengths
    obtain ⟨hb, hn⟩ := hlengths
    obtain ⟨hfields, hplace⟩ := storeText_place (by rfl) hstore
    obtain ⟨htext, -⟩ := finishMsg_cases hfinish
    simp only [SmbMsg.text, Prod.mk.injEq] at htext
    rw [hb, hn] at hfields hplace
    rw [htext.1, finishMsg_sdt hfinish, hn]
    exact ⟨htext.2.trans hfields, hplace⟩

/-! ## The same addition over other data -/

/-- The base with another data file. -/
def Smb.withSdt (smb : Smb) (sdt : List UInt8) : Smb := { smb with sdt := sdt }

@[simp] theorem withSdt_status (smb : Smb) (sdt : List UInt8) :
    (smb.withSdt sdt).status = smb.status := rfl

@[simp] theorem withSdt_sdt (smb : Smb) (sdt : List UInt8) : (smb.withSdt sdt).sdt = sdt := rfl

section Sdt

variable (env : Env) (smb : Smb) (sdt : List UInt8)

theorem smbPutmsg_withSdt (msg : SmbMsg) :
    smbPutmsg env (smb.withSdt sdt) msg =
      ((smbPutmsg env smb msg).1, (smbPutmsg env smb msg).2.1.withSdt sdt,
        (smbPutmsg env smb msg).2.2) := by
  set r := smbPutmsghdr smb.status smb.shd (smbInitIdx env smb.status.attr msg) with hr
  by_cases hcode : r.1 ≠ .success
  · have hput : ∀ smb' : Smb, smb'.status = smb.status → smb'.shd = smb.shd →
        smbPutmsg env smb' msg = (r.1, { smb' with shd := r.2.1 }, r.2.2) := by
      intro smb' hstatus hshd
      rw [smbPutmsg, hstatus, hshd]
      exact if_pos hcode
    rw [hput smb rfl rfl, hput (smb.withSdt sdt) rfl rfl]
    rfl
  · have hput : ∀ smb' : Smb, smb'.status = smb.status → smb'.shd = smb.shd →
        smbPutmsg env smb' msg = ((smbPutmsgidx smb'.sid r.2.2).1,
          { smb' with shd := r.2.1, sid := (smbPutmsgidx smb'.sid r.2.2).2 }, r.2.2) := by
      intro smb' hstatus hshd
      rw [smbPutmsg, hstatus, hshd]
      exact if_neg hcode
    rw [hput smb rfl rfl, hput (smb.withSdt sdt) rfl rfl]
    rfl

theorem updatethreadLoop_withSdt (newmsgnum : UInt32) (n : ℕ) (next number : UInt32) :
    updatethreadLoop (smb.withSdt sdt) newmsgnum n next number =
      (updatethreadLoop smb newmsgnum n next number).map fun r ↦ (r.1, r.2.withSdt sdt) := by
  induction n generalizing next number with
  | zero => rfl
  | succ n ih =>
      rw [updatethreadLoop, updatethreadLoop]
      split
      · rfl
      · simp only [Smb.withSdt] at ih ⊢
        split
        · rfl
        · split
          · rfl
          · rfl
          · split
            · exact ih _ _
            · rfl

theorem smbUpdatethread_withSdt (remsg : SmbMsg) (newmsgnum : UInt32) :
    smbUpdatethread env (smb.withSdt sdt) remsg newmsgnum =
      (smbUpdatethread env smb remsg newmsgnum).map fun r ↦ (r.1, r.2.withSdt sdt) := by
  rw [smbUpdatethread, smbUpdatethread]
  split
  · have hput := smbPutmsg_withSdt env smb sdt
    simp only [Smb.withSdt] at hput ⊢
    split
    · rfl
    · split
      · rfl
      · rfl
      · simp only [hput, Option.map_some]
  · exact updatethreadLoop_withSdt smb sdt _ _ _ _

theorem linkReply_withSdt (msg remsg : SmbMsg) :
    linkReply env (smb.withSdt sdt) msg remsg =
      (linkReply env smb msg remsg).map fun r ↦ (r.1.withSdt sdt, r.2) := by
  rw [linkReply, linkReply]
  split
  · rw [smbUpdatethread_withSdt, Option.map_map, Option.map_map]
    rfl
  · rfl

theorem linkThread_withSdt (msg : SmbMsg) :
    linkThread env (smb.withSdt sdt) msg =
      (linkThread env smb msg).map fun r ↦ (r.1.withSdt sdt, r.2) := by
  have hback : threadBackOf env (smb.withSdt sdt) msg = threadBackOf env smb msg := rfl
  have hread : ∀ number, readOriginal (smb.withSdt sdt) number = readOriginal smb number :=
    fun _ ↦ rfl
  rw [linkThread, linkThread, hback]
  dsimp only
  rw [hread]
  split
  · rfl
  · rfl
  · exact linkReply_withSdt env smb sdt _ _

theorem recordHashes_withSdt (msg : SmbMsg) (hashes : List Hash) :
    recordHashes (smb.withSdt sdt) msg hashes =
      ((recordHashes smb msg hashes).1.withSdt sdt, (recordHashes smb msg hashes).2) := by
  rw [recordHashes, recordHashes, withSdt_status]
  split <;> rfl

theorem smbAddmsghdr_withSdt (msg : SmbMsg) (storage : Storage) :
    (smbAddmsghdr env (smb.withSdt sdt) msg storage).1 = (smbAddmsghdr env smb msg storage).1 := by
  have hprep : prepareMsghdr env (smb.withSdt sdt) msg storage =
      ((prepareMsghdr env smb msg storage).1.withSdt sdt, (prepareMsghdr env smb msg storage).2) := by
    cases storage <;> rfl
  have hsid : (smb.withSdt sdt).sid = smb.sid := rfl
  rw [smbAddmsghdr, smbAddmsghdr, withSdt_status, hsid, hprep]
  split
  · rfl
  · split
    · rfl
    · dsimp only
      rw [smbPutmsg_withSdt]
      dsimp only
      split <;> rfl

theorem finishMsg_withSdt (msg : SmbMsg) (storage : Storage) (hashes : List Hash) :
    (finishMsg env (smb.withSdt sdt) msg storage hashes).map Prod.fst =
      (finishMsg env smb msg storage hashes).map Prod.fst := by
  have hgive : ∀ r : Code × Smb × SmbMsg, (giveBack r).1 = r.1 := by
    intro r
    rw [giveBack]
    split <;> rfl
  rw [finishMsg, finishMsg, linkThread_withSdt]
  cases linkThread env smb (stampTimes env msg) with
  | none => rfl
  | some r =>
      obtain ⟨smb₁, msg₁⟩ := r
      simp only [Option.map_some]
      rw [recordHashes_withSdt]
      dsimp only
      split
      · rfl
      · simp only [Option.map_some, hgive, smbAddmsghdr_withSdt]

theorem giveBack_fst (r : Code × Smb × SmbMsg) : (giveBack r).1 = r.1 := by
  rw [giveBack]
  split <;> rfl

variable {sdt} (hsdt : sdt.length = smb.sdt.length)

include hsdt

theorem dataAlloc_withSdt (storage : Storage) (length : ℕ) :
    dataAlloc storage (smb.withSdt sdt) length = dataAlloc storage smb length := by
  simp only [dataAlloc, smbHallocdat, Smb.withSdt, hsdt]

theorem storeText_withSdt (msg : SmbMsg) (storage : Storage) (body tail : List UInt8) :
    ∃ sdt', storeText (smb.withSdt sdt) msg storage body tail =
      (storeText smb msg storage body tail).map fun r ↦ (r.1, r.2.1.withSdt sdt', r.2.2) := by
  rw [storeText, storeText]
  dsimp only
  rw [dataAlloc_withSdt smb hsdt]
  split
  · exact ⟨sdt, rfl⟩
  · split
    · exact ⟨sdt, rfl⟩
    · split
      · exact ⟨sdt, rfl⟩
      · exact ⟨_, rfl⟩

/-- Whether an addition succeeds does not depend on what the data file holds. -/
theorem smbAddmsg_withSdt (msg : SmbMsg) (storage : Storage) (dupechkHashes : ℕ) (xlat : UInt16)
    (body tail : Option (List UInt8)) :
    (smbAddmsg env (smb.withSdt sdt) msg storage dupechkHashes xlat body tail).map Prod.fst =
      (smbAddmsg env smb msg storage dupechkHashes xlat body tail).map Prod.fst := by
  have hnumbered : numbered (smb.withSdt sdt) msg = numbered smb msg := rfl
  have hdupe : dupeHashes env (smb.withSdt sdt) (numbered smb msg) body =
      dupeHashes env smb (numbered smb msg) body := rfl
  have hhash : (smb.withSdt sdt).hash = smb.hash := rfl
  have hcrc : addBodyCrc env (smb.withSdt sdt) dupechkHashes body =
      addBodyCrc env smb dupechkHashes body := rfl
  rw [smbAddmsg, smbAddmsg, hnumbered]
  dsimp only
  rw [hdupe, hhash, hcrc]
  split
  · rw [Option.map_some, Option.map_some, giveBack_fst, giveBack_fst]
  · split
    · rw [Option.map_some, Option.map_some, giveBack_fst, giveBack_fst]
    · obtain ⟨sdt', hstore⟩ := storeText_withSdt
        { smb with sch := (addBodyCrc env smb dupechkHashes body).2 } hsdt (numbered smb msg) storage
        (storedBody env xlat body (storedTail tail).length) (storedTail tail)
      simp only [Smb.withSdt] at hstore ⊢
      rw [hstore]
      cases storeText { smb with sch := (addBodyCrc env smb dupechkHashes body).2 }
        (numbered smb msg) storage (storedBody env xlat body (storedTail tail).length)
        (storedTail tail) with
      | error code =>
          simp only [Except.map, Option.map_some, giveBack_fst]
      | ok r => exact finishMsg_withSdt env r.2.1 sdt' _ _ _

end Sdt

/-! ## The text that is returned -/

/-- A part of the text with its line end, unless it is empty. -/
def withCrlf (text : List UInt8) : List UInt8 := if text = [] then [] else text ++ [13, 10]

/-- After a successful addition both parts of the text are returned, each with its line
end.  Mode 5 is `GETMSGTXT_TAILS|GETMSGTXT_NO_HFIELDS`. -/
def TextRetrieved (env : Env) (decode : (ℕ → UInt8) → ℤ → ℕ → Option (List UInt8)) (smb : Smb)
    (msg : SmbMsg) (storage : Storage) (dupechkHashes : ℕ) (xlat : UInt16)
    (body tail : Option (List UInt8)) : Prop :=
  ∀ smb' msg', smbAddmsg env smb msg storage dupechkHashes xlat body tail =
      some (.success, smb', msg') →
    ∀ t : TextEnv, t.decode = decode → (∀ n, t.mem n = true) →
      smbGetmsgtxt t smb'.sdt msg' 5 =
        some (some (withCrlf (body.getD []) ++ withCrlf (tail.getD [])))

/-- The stored parts begin below 4 GiB. -/
def TextFits (storage : Storage) (smb : Smb) (b n : ℕ) : Prop :=
  b + n ≠ 0 → ∀ offset, (dataAlloc storage smb (b + n)).2.1 = .ok offset →
    offset + (if n = 0 then 0 else b) < 2 ^ 32

theorem Stores.two_lt {decode : (ℕ → UInt8) → ℤ → ℕ → Option (List UInt8)}
    {stored text : List UInt8} (h : Stores decode stored text) (htext : text ≠ []) :
    2 < stored.length := by
  cases h with
  | plain =>
      rw [List.length_append, length_le]
      exact Nat.lt_add_of_pos_right (List.length_pos_of_ne_nil htext)
  | lzh _ lzh =>
      rw [List.length_append, List.length_append, length_le, length_le]
      omega

theorem storedTail_eq (decode : (ℕ → UInt8) → ℤ → ℕ → Option (List UInt8))
    (tail : Option (List UInt8)) :
    ((storedTail tail).length = 0 ↔ tail.getD [] = []) ∧
      (tail.getD [] ≠ [] → Stores decode (storedTail tail) (tail.getD [])) := by
  rcases tail with _ | _ | ⟨c, cs⟩
  · exact ⟨⟨fun _ ↦ rfl, fun _ ↦ rfl⟩, fun h ↦ absurd rfl h⟩
  · exact ⟨⟨fun _ ↦ rfl, fun _ ↦ rfl⟩, fun h ↦ absurd rfl h⟩
  · exact ⟨by simp [storedTail], fun _ ↦ .plain (c :: cs)⟩

theorem storedBody_eq (env : Env) {decode : (ℕ → UInt8) → ℤ → ℕ → Option (List UInt8)}
    (xlat : UInt16) {body : Option (List UInt8)} (taillen : ℕ)
    (hdecode : xlat = xlatLzh → ∀ text, body = some text → text ≠ [] →
      DecodesTo decode (env.lzhEncode text) text) :
    ((storedBody env xlat body taillen).length = 0 ↔ body.getD [] = []) ∧
      (body.getD [] ≠ [] → Stores decode (storedBody env xlat body taillen) (body.getD [])) := by
  rcases body with _ | _ | ⟨c, cs⟩
  · exact ⟨⟨fun _ ↦ rfl, fun _ ↦ rfl⟩, fun h ↦ absurd rfl h⟩
  · exact ⟨⟨fun _ ↦ rfl, fun _ ↦ rfl⟩, fun h ↦ absurd rfl h⟩
  · simp only [storedBody, Option.getD_some]
    split
    · rename_i hlzh
      refine ⟨by simp, fun _ ↦ ?_⟩
      rw [hlzh.1]
      exact .lzh _ _ (List.ne_nil_of_length_pos (by omega))
        (hdecode hlzh.1 (c :: cs) rfl (List.cons_ne_nil c cs))
    · exact ⟨by simp, fun _ ↦ .plain (c :: cs)⟩

theorem cstr_eq_self {text : List UInt8} (h : ∀ c ∈ text, c ≠ 0) : cstr text = text := by
  rw [cstr, List.takeWhile_eq_self_iff]
  simpa using h

/-- A part without zeros gets its line end. -/
theorem addPart_eq (xs : List UInt8) {text : List UInt8} (h : ∀ c ∈ text, c ≠ 0) :
    addPart xs text = xs ++ withCrlf text := by
  rw [addPart, withCrlf]
  split
  · rw [List.append_nil]
  · rename_i hne
    rw [stripped_append hne h, List.append_assoc]

theorem withCrlf_ne_zero {text : List UInt8} (h : ∀ c ∈ text, c ≠ 0) :
    ∀ c ∈ withCrlf text, c ≠ 0 := by
  intro c hc
  rw [withCrlf] at hc
  split at hc
  · cases hc
  · rcases List.mem_append.mp hc with hc | hc
    · exact h c hc
    · simp only [List.mem_cons, List.not_mem_nil, or_false] at hc
      rcases hc with rfl | rfl <;> decide

theorem wanted_textBody {b : ℕ} (hb : 2 < b) (hshort : b < 2 ^ 32) (offset : UInt32) :
    wanted 5 ⟨textBody, offset, UInt32.ofNat b⟩ = true := by
  rw [wanted, toNat_ofNat_uint32 hshort, decide_eq_true hb]
  rfl

theorem wanted_textTail {n : ℕ} (hn : 2 < n) (hshort : n < 2 ^ 32) (offset : UInt32) :
    wanted 5 ⟨textTail, offset, UInt32.ofNat n⟩ = true := by
  rw [wanted, toNat_ofNat_uint32 hshort, decide_eq_true hn]
  rfl

theorem readAt_written (f xs ys zs : List UInt8) (pos : ℕ) :
    readAt (writeAt 0 f pos (xs ++ ys ++ zs)) (pos + xs.length) ys.length = ys :=
  readAt_append xs ys zs (readAt_writeAt_self 0 f pos _)

/-! ## Reading what was never written -/

/-- Zeros read as a field that is not compressed. -/
theorem stores_replicate (decode : (ℕ → UInt8) → ℤ → ℕ → Option (List UInt8)) {k : ℕ} (hk : 2 < k) :
    Stores decode (List.replicate k 0) (List.replicate (k - 2) 0) := by
  obtain ⟨j, rfl⟩ := Nat.exists_eq_add_of_le' hk.le
  exact .plain (List.replicate j 0)

/-- In front of a write behind the end of a file of zeros there are zeros. -/
theorem readAt_zeros {k pos q m : ℕ} {xs : List UInt8} (hxs : xs ≠ []) (h : q + m ≤ pos) :
    readAt (writeAt 0 (List.replicate k 0) pos xs) q m = List.replicate m 0 := by
  have hgap : (List.replicate k (0 : UInt8)).take pos ++
      List.replicate (pos - (List.replicate k (0 : UInt8)).length) 0 = List.replicate pos 0 := by
    rw [List.take_replicate, List.length_replicate, List.replicate_append_replicate]
    congr 1
    omega
  rw [writeAt, if_neg hxs, hgap, readAt, List.append_assoc,
    List.drop_append_of_le_length (by rw [List.length_replicate]; omega), List.drop_replicate,
    List.take_append_of_le_length (by rw [List.length_replicate]; omega), List.take_replicate,
    Nat.min_eq_left (by omega)]

theorem addPart_zero {xs text zs : List UInt8} (h : xs ++ text = 0 :: zs) :
    ∃ ys, addPart xs text = 0 :: ys := by
  rw [addPart]
  split
  · rename_i hnil
    rw [hnil, List.append_nil] at h
    exact ⟨zs, h⟩
  · rw [h, stripped]
    exact ⟨_, rfl⟩

/-- A text that begins with a zero is empty for its readers. -/
theorem cstr_addPart_zeros (j k : ℕ) :
    cstr (addPart (addPart [] (List.replicate j 0)) (List.replicate k 0)) = [] := by
  cases j with
  | zero =>
      cases k with
      | zero => rfl
      | succ k =>
          obtain ⟨ys, hys⟩ := @addPart_zero [] (List.replicate (k + 1) 0) _ rfl
          exact congrArg cstr hys
  | succ j =>
      obtain ⟨ys, hys⟩ := @addPart_zero [] (List.replicate (j + 1) 0) _ rfl
      obtain ⟨zs, hzs⟩ := @addPart_zero (0 :: ys) (List.replicate k 0) _ rfl
      rw [hys, hzs]
      rfl

theorem stripped_append_zeros {xs : List UInt8} (hxs : xs ≠ []) (k : ℕ) :
    stripped (xs ++ List.replicate k 0) = stripped xs := by
  obtain ⟨c, cs, rfl⟩ := List.exists_cons_of_ne_nil hxs
  rw [List.cons_append, stripped, stripped]
  congr 1
  induction k with
  | zero => rw [List.replicate_zero, List.append_nil]
  | succ k ih =>
      rw [List.replicate_succ', ← List.append_assoc, List.rdropWhile_concat_pos _ _ _ (by simp), ih]

theorem withCrlf_eq_nil_iff {text : List UInt8} : withCrlf text = [] ↔ text = [] := by
  rw [withCrlf]
  split
  · rename_i h
    exact ⟨fun _ ↦ h, fun _ ↦ rfl⟩
  · rename_i h
    exact ⟨fun hnil ↦ absurd hnil (by simp), fun hnil ↦ absurd hnil h⟩

section Retrieve

variable {env : Env} {decode : (ℕ → UInt8) → ℤ → ℕ → Option (List UInt8)} {smb : Smb}
  {msg : SmbMsg} {storage : Storage} {dupechkHashes : ℕ} {xlat : UInt16}
  {body tail : Option (List UInt8)} {b n : ℕ}
  (hlengths : storedLengths env xlat body tail = (b, n))
  (hbody : ∀ c ∈ body.getD [], c ≠ 0) (htail : ∀ c ∈ tail.getD [], c ≠ 0)
  (hdecode : xlat = xlatLzh → ∀ text, body = some text → text ≠ [] →
    DecodesTo decode (env.lzhEncode text) text)

include hlengths hbody htail hdecode

/-- Text that begins below 4 GiB is found where it was stored. -/
theorem textRetrieved_of_fits (hfits : TextFits storage smb b n) :
    TextRetrieved env decode smb msg storage dupechkHashes xlat body tail := by
  intro smb' msg' hadd t ht hmem
  subst ht
  obtain ⟨hfields, hplace⟩ := smbAddmsg_place hlengths hadd
  obtain ⟨hbzero, hbstores⟩ :=
    storedBody_eq env xlat (storedTail tail).length hdecode
  obtain ⟨hnzero, hnstores⟩ := storedTail_eq t.decode tail
  simp only [storedLengths, Prod.mk.injEq] at hlengths
  obtain ⟨hb, hn⟩ := hlengths
  have hread : b + n ≠ 0 → b + n < 2 ^ 31 ∧ ∃ offset,
      msg'.hdr.offset.toNat = offset ∧ (n ≠ 0 → offset + b < 2 ^ 32) ∧
      readAt smb'.sdt offset b = storedBody env xlat body (storedTail tail).length ∧
      readAt smb'.sdt (offset + b) n = storedTail tail := by
    intro hne
    obtain ⟨hshort, offset, rest, halloc, hoffset, hsdt⟩ := hplace hne
    have hlt := hfits hne offset halloc
    have hbodyAt := readAt_written smb.sdt [] (storedBody env xlat body (storedTail tail).length)
      (storedTail tail ++ rest) offset
    have htailAt := readAt_written smb.sdt (storedBody env xlat body (storedTail tail).length)
      (storedTail tail) rest offset
    rw [List.nil_append, ← List.append_assoc, ← hsdt, hb] at hbodyAt
    rw [← hsdt, hb, hn] at htailAt
    refine ⟨hshort, offset, ?_, fun hnz ↦ ?_, hbodyAt, htailAt⟩
    · rw [hoffset, toNat_ofNat_uint32 (by omega)]
    · rwa [if_neg hnz] at hlt
  rw [hb] at hbzero
  rw [hn] at hnzero
  rw [smbGetmsgtxt_textFields hmem (storedBody env xlat body (storedTail tail).length)
      (storedTail tail) hfields hbzero hnzero (fun hne ↦ ?_) (fun hne ↦ ?_),
    addPart_eq [] hbody, addPart_eq _ htail, List.nil_append, cstr_eq_self]
  · intro c hc
    rcases List.mem_append.mp hc with hc | hc
    · exact withCrlf_ne_zero hbody c hc
    · exact withCrlf_ne_zero htail c hc
  · have hnz := mt hbzero.mp hne
    obtain ⟨hshort, offset, hoffset, -, hat, -⟩ := hread (by omega)
    have htwo := (hbstores hne).two_lt hne
    rw [hb] at htwo
    refine ⟨wanted_textBody htwo (by omega) 0, ?_, hbstores hne, ?_⟩
    · rw [hb, toNat_ofNat_uint32 (by omega)]
    · rwa [dfieldPos_body, hoffset, hb]
  · have hnz := mt hnzero.mp hne
    obtain ⟨hshort, offset, hoffset, hlt, -, hat⟩ := hread (by omega)
    have htwo := (hnstores hne).two_lt hne
    rw [hn] at htwo
    refine ⟨wanted_textTail htwo (by omega) _, ?_, hnstores hne, ?_⟩
    · rw [hn, toNat_ofNat_uint32 (by omega)]
    · rwa [dfieldPos_tail _ (by omega), hoffset, Nat.mod_eq_of_lt (hlt hnz), hn]

omit htail in
/-- Text that begins above 4 GiB is looked for where a new data file holds zeros. -/
theorem not_textRetrieved_of_not_fits {smb' : Smb} {msg' : SmbMsg}
    (hadd : smbAddmsg env smb msg storage dupechkHashes xlat body tail = some (.success, smb', msg'))
    (hfits : ¬ TextFits storage smb b n) :
    ¬ TextRetrieved env decode (smb.withSdt (List.replicate smb.sdt.length 0)) msg storage
      dupechkHashes xlat body tail := by
  have hsdt : (List.replicate smb.sdt.length (0 : UInt8)).length = smb.sdt.length :=
    List.length_replicate
  have hsame := smbAddmsg_withSdt env smb hsdt msg storage dupechkHashes xlat body tail
  rw [hadd, Option.map_some] at hsame
  obtain ⟨⟨code, smb₁, msg₁⟩, hadd₁, rfl⟩ := Option.map_eq_some_iff.mp hsame
  intro hall
  have hget := hall smb₁ msg₁ hadd₁ ⟨fun _ ↦ true, fun _ _ ↦ 0, fun _ _ ↦ 0, 0, decode⟩ rfl
    (fun _ ↦ rfl)
  obtain ⟨hfields, hplace⟩ := smbAddmsg_place hlengths hadd₁
  obtain ⟨hbzero, hbstores⟩ := storedBody_eq env xlat (storedTail tail).length hdecode
  obtain ⟨hnzero, hnstores⟩ := storedTail_eq decode tail
  simp only [storedLengths, Prod.mk.injEq] at hlengths
  obtain ⟨hb, hn⟩ := hlengths
  simp only [TextFits, not_forall, not_lt] at hfits
  obtain ⟨hne, offset, halloc, hlarge⟩ := hfits
  obtain ⟨hshort, offset', rest, halloc', hoffset, hsdt₁⟩ := hplace hne
  rw [dataAlloc_withSdt smb hsdt, halloc] at halloc'
  obtain rfl : offset = offset' := by simpa using halloc'
  have hbtwo : b ≠ 0 → 2 < b := by
    intro hbne
    rw [← hb] at hbne ⊢
    exact (hbstores (mt hbzero.mpr hbne)).two_lt (mt hbzero.mpr hbne)
  have hntwo : n ≠ 0 → 2 < n := by
    intro hnne
    rw [← hn] at hnne ⊢
    exact (hnstores (mt hnzero.mpr hnne)).two_lt (mt hnzero.mpr hnne)
  have hwritten : storedBody env xlat body (storedTail tail).length ++ storedTail tail ++ rest ≠ [] := by
    intro hnil
    have := congrArg List.length hnil
    rw [List.length_append, List.length_append, hb, hn, List.length_nil] at this
    omega
  have hzeros : ∀ q m, q + m ≤ offset → readAt smb₁.sdt q m = List.replicate m 0 := by
    intro q m hqm
    rw [hsdt₁, withSdt_sdt]
    exact readAt_zeros hwritten hqm
  have hpos : msg₁.hdr.offset.toNat = offset % 2 ^ 32 := by
    rw [hoffset]
    exact UInt32.toNat_ofNat'
  have htailPart : n ≠ 0 → (offset % 2 ^ 32 + b) % 2 ^ 32 + n ≤ offset →
      ReadsPart ⟨fun _ ↦ true, fun _ _ ↦ 0, fun _ _ ↦ 0, 0, decode⟩ smb₁.sdt msg₁ 5
        ⟨textTail, UInt32.ofNat b, UInt32.ofNat n⟩ (List.replicate n 0)
        (List.replicate (n - 2) 0) := by
    intro hnne hin
    refine ⟨wanted_textTail (hntwo hnne) (by omega) _, ?_, stores_replicate decode (hntwo hnne), ?_⟩
    · rw [List.length_replicate, toNat_ofNat_uint32 (by omega)]
    · rw [dfieldPos_tail _ (by omega), hpos, List.length_replicate, hzeros _ _ hin]
  have hnil : ∀ k : ℕ, (k ≠ 0 → 2 < k) → (k = 0 ↔ List.replicate (k - 2) (0 : UInt8) = []) := by
    intro k hk
    rw [List.replicate_eq_nil_iff]
    omega
  by_cases hwrap : 2 ^ 32 ≤ offset
  · -- both parts are looked for in the zeros
    rw [smbGetmsgtxt_textFields (fun _ ↦ rfl) (List.replicate b 0) (List.replicate n 0) hfields
        (hnil b hbtwo) (hnil n hntwo) (fun hX ↦ ?_)
        (fun hY ↦ htailPart (mt (hnil n hntwo).mp hY) (by omega)),
      cstr_addPart_zeros] at hget
    · simp only [Option.some.injEq] at hget
      obtain ⟨hB, hT⟩ := List.append_eq_nil_iff.mp hget.symm
      have := hbzero.mpr (withCrlf_eq_nil_iff.mp hB)
      have := hnzero.mpr (withCrlf_eq_nil_iff.mp hT)
      omega
    · have hbne := mt (hnil b hbtwo).mp hX
      refine ⟨wanted_textBody (hbtwo hbne) (by omega) 0, ?_, stores_replicate decode (hbtwo hbne), ?_⟩
      · rw [List.length_replicate, toNat_ofNat_uint32 (by omega)]
      · rw [dfieldPos_body, hpos, List.length_replicate, hzeros _ _ (by omega)]
  · -- only the tail is
    obtain ⟨hnne, hlarge⟩ : n ≠ 0 ∧ 2 ^ 32 ≤ offset + b := by
      split at hlarge
      · omega
      · exact ⟨‹_›, hlarge⟩
    have hB : body.getD [] ≠ [] := fun hnil ↦ by
      have := hbzero.mpr hnil
      omega
    have hT : tail.getD [] ≠ [] := fun hnil ↦ by
      have := hnzero.mpr hnil
      omega
    have hbodyAt := readAt_written (smb.withSdt (List.replicate smb.sdt.length 0)).sdt []
      (storedBody env xlat body (storedTail tail).length) (storedTail tail ++ rest) offset
    rw [List.nil_append, ← List.append_assoc, ← hsdt₁] at hbodyAt
    rw [hb] at hbzero
    rw [smbGetmsgtxt_textFields (fun _ ↦ rfl)
        (storedBody env xlat body (storedTail tail).length) (List.replicate n 0) hfields hbzero
        (hnil n hntwo) (fun _ ↦ ?_)
        (fun _ ↦ htailPart hnne (by omega)),
      addPart_eq [] hbody, List.nil_append, addPart,
      if_neg (mt (hnil n hntwo).mpr hnne)] at hget
    · rw [withCrlf, if_neg hB, stripped_append_zeros (by simp),
        stripped_append (by simp) (by decide +kernel), cstr_eq_self, withCrlf, if_neg hT] at hget
      · simp at hget
        exact hT hget
      · intro c hc
        simp only [List.mem_append, List.mem_cons, List.not_mem_nil, or_false] at hc
        rcases hc with (hc | rfl | rfl) | rfl | rfl
        · exact hbody c hc
        all_goals decide
    · refine ⟨wanted_textBody (hbtwo (by omega)) (by omega) 0, ?_, hbstores hB, ?_⟩
      · rw [hb, toNat_ofNat_uint32 (by omega)]
      · rw [dfieldPos_body, hpos, Nat.mod_eq_of_lt (by omega)]
        exact hbodyAt

/-- Whatever the data file holds, the text of a message that was added is retrieved,
exactly if it begins below 4 GiB. -/
theorem textRetrieved_iff :
    (∀ sdt, sdt.length = smb.sdt.length →
        TextRetrieved env decode (smb.withSdt sdt) msg storage dupechkHashes xlat body tail) ↔
      (∀ smb' msg', smbAddmsg env smb msg storage dupechkHashes xlat body tail ≠
        some (.success, smb', msg')) ∨ TextFits storage smb b n := by
  constructor
  · intro hall
    by_contra hnot
    rw [not_or] at hnot
    obtain ⟨hadd, hfits⟩ := hnot
    simp only [not_forall, not_not] at hadd
    obtain ⟨smb', msg', hadd⟩ := hadd
    exact not_textRetrieved_of_not_fits hlengths hbody hdecode hadd hfits
      (hall _ List.length_replicate)
  · rintro (hrefused | hfits) sdt hsdt
    · intro smb' msg' hadd
      have hsame := smbAddmsg_withSdt env smb hsdt msg storage dupechkHashes xlat body tail
      rw [hadd, Option.map_some] at hsame
      obtain ⟨⟨code, smb₁, msg₁⟩, hadd₁, rfl⟩ := Option.map_eq_some_iff.mp hsame.symm
      exact absurd hadd₁ (hrefused smb₁ msg₁)
    · refine textRetrieved_of_fits hlengths hbody htail hdecode ?_
      intro hne offset halloc
      rw [dataAlloc_withSdt smb hsdt] at halloc
      exact hfits hne offset halloc

end Retrieve

/-- Bytes behind their number, as a coder that does not compress leaves them. -/
def storingEnv : Env := { plainEnv with lzhEncode := fun text ↦ le 4 text.length ++ text }

def storedDecode (lzhbuf : ℕ → UInt8) (inlen : ℤ) (_room : ℕ) : Option (List UInt8) :=
  some ((List.range (inlen - 4).toNat).map fun j ↦ lzhbuf (4 + j))

theorem decodesTo_letter : DecodesTo storedDecode (storingEnv.lzhEncode [98]) [98] := by
  intro lzhbuf hbuf
  have h₀ := hbuf 0 1 rfl
  have h₁ := hbuf 1 0 rfl
  have h₂ := hbuf 2 0 rfl
  have h₃ := hbuf 3 0 rfl
  have h₄ := hbuf 4 98 rfl
  refine ⟨?_, fun room _ ↦ ?_⟩
  · rw [int32At, h₀, h₁, h₂, h₃]
    rfl
  · change some [lzhbuf 4] = some [98]
    rw [h₄]

/-- A letter in a new base. -/
theorem textRetrieved_iff_letter :
    (∀ sdt, sdt.length = (smbCreate {}).sdt.length →
        TextRetrieved storingEnv storedDecode ((smbCreate {}).withSdt sdt) addressedMsg .selfpack 0
          xlatLzh (some [98]) none) ↔
      (∀ smb' msg', smbAddmsg storingEnv (smbCreate {}) addressedMsg .selfpack 0 xlatLzh (some [98])
        none ≠ some (.success, smb', msg')) ∨ TextFits .selfpack (smbCreate {}) 3 0 :=
  textRetrieved_iff rfl (by decide +kernel) (by decide +kernel) fun _ text htext _ ↦ by
    cases htext
    exact decodesTo_letter

/-- A letter that is added to a base with 4 GiB of text. -/
theorem not_textRetrieved_above_4GiB :
    ¬ ∀ (env : Env) (decode : (ℕ → UInt8) → ℤ → ℕ → Option (List UInt8)) (smb : Smb) (msg : SmbMsg)
      (storage : Storage) (dupechkHashes : ℕ) (xlat : UInt16) (body tail : Option (List UInt8)),
      (∀ c ∈ body.getD [], c ≠ 0) → (∀ c ∈ tail.getD [], c ≠ 0) →
      (xlat = xlatLzh → ∀ text, body = some text → text ≠ [] →
        DecodesTo decode (env.lzhEncode text) text) →
      TextRetrieved env decode smb msg storage dupechkHashes xlat body tail := by
  intro hall
  obtain ⟨sda, hsda⟩ : ∃ sda : List UInt16, sda.length = 2 ^ 24 :=
    ⟨List.replicate _ 1, List.length_replicate⟩
  obtain ⟨sdt, hsdt⟩ : ∃ sdt : List UInt8, sdt.length = 2 ^ 32 :=
    ⟨List.replicate _ 97, List.length_replicate⟩
  obtain ⟨smb', msg', hadd, -⟩ := @exists_add_fastalloc
    { status := { attr := smbNohash }, sda := sda, sdt := sdt } 0 0 rfl rfl (by decide)
    (by rw [hsda]; decide) [97] (by decide) (by decide)
  have hplain : xlatNone = xlatLzh → ∀ text, some [97] = some text → text ≠ [] →
      DecodesTo storedDecode (plainEnv.lzhEncode text) text := fun h ↦ absurd h (by decide)
  refine @not_textRetrieved_of_not_fits _ _ _ _ _ _ _ _ _ 3 0 rfl (by decide +kernel) hplain _ _
    hadd ?_
    (hall _ _ _ _ _ _ _ _ _ (by decide +kernel) (by decide +kernel) hplain)
  have halloc : (dataAlloc .fastalloc { status := { attr := smbNohash }, sda := sda, sdt := sdt }
      (3 + 0)).2.1 = .ok (sda.length * sdtBlockLen) := by
    have hattr : ¬ smbNohash &&& smbHyperalloc ≠ 0 := by decide
    rw [dataAlloc, if_neg hattr, if_pos rfl, smbFallocdat, hsda, if_neg (by decide)]
  intro hfits
  have hlt := hfits (by decide) _ halloc
  rw [hsda] at hlt
  exact absurd hlt (by decide)

end Synchronet.Smblib
