import Synchronet.Sbbs3.ArsMeaning

/-!
# Access requirements of the servers (userdat.c)

The servers check a requirement with an `ar_exp` of their own, for a user and a client that
may both be missing.  It agrees with the one of the terminal server (chk_ar.cpp) on the
atoms about the user and the clock, except that `AR_SUBCODE` and `AR_DIRCODE` are inverted,
and that `AR_IP` without a client looks at another field of the user.
-/

namespace Synchronet.Sbbs3

namespace Userdat

/-- What `ar_exp` is given: a user, a client and the configuration, with the clock. -/
structure Server where
  user : Option User := none
  client : Option Client := none
  nodeNum : UInt16 := 0
  subs : List Area := []
  dirs : List Area := []
  shells : List (List UInt8) := []
  os2 : Bool := false
  win32 : Bool := false
  unix : Bool := true
  linux : Bool := true
  moment : ℕ → Moment := fun _ ↦ {}
  percentBelow : ℕ → ℕ → UInt8 → Bool := fun a b n ↦ decide (100 * b < n.toNat * a)

/-- `SYSOP_LEVEL` -/
def sysopLevel : UInt8 := 90

def stricmp (a b : List UInt8) : Bool := a.map toupper = b.map toupper

/-- `getsubnum` and `getdirnum`, where -1 becomes an `ulong`. -/
def getareanum (areas : List Area) (code : List UInt8) : ℕ :=
  match areas.findIdx? fun area ↦ stricmp area.code code with
  | some i => i
  | none => 2 ^ 64 - 1

/-- `getgrpnum` and `getlibnum`. -/
def getgroupnum (areas : List Area) (code : List UInt8) : ℕ :=
  match areas.find? fun area ↦ stricmp area.code code with
  | some area => area.group.toNat
  | none => 2 ^ 64 - 1

namespace Server

variable (s : Server)

/-- A test that fails without a user. -/
def ofUser (test : User → Bool) : Bool := s.user.elim false test

/-- The atoms without an operand. -/
def noneTest (artype : UInt8) : Bool :=
  match artype with
  | arAnsi => s.ofUser fun user ↦ hasBit user.misc ansi
  | arRip => s.ofUser fun user ↦ hasBit user.misc rip
  | arWip => s.ofUser fun user ↦ hasBit user.misc wip
  | arOs2 => s.os2
  | arWin32 => s.win32
  | arUnix => s.unix
  | arLinux => s.linux
  | arActive => s.ofUser fun user ↦ !hasBit user.misc (deleted ||| inactive)
  | arInactive => s.ofUser fun user ↦ hasBit user.misc inactive
  | arDeleted => s.ofUser fun user ↦ hasBit user.misc deleted
  | arExpert => s.ofUser fun user ↦ hasBit user.misc expert
  | arSysop => s.ofUser fun user ↦ decide (sysopLevel ≤ user.level)
  | arGuest => s.ofUser fun user ↦ hasBit user.rest (flag 71)
  | arQnode => s.ofUser fun user ↦ hasBit user.rest (flag 81)
  -- AR_DOS, AR_QUIET, AR_LOCAL
  | _ => false

/-- The atoms with a byte; `none` where `ar_exp` has no case. -/
def byteTest (m : Moment) (artype : UInt8) (equal : Bool) (n : UInt8) : Option Bool :=
  match artype with
  | arLevel => some (s.ofUser fun user ↦ meets equal user.level.toNat n.toNat)
  | arAge => some (s.ofUser fun _ ↦ meets equal m.age.toNat n.toNat)
  | arDay => some (if equal then decide (m.wday = n.toNat) else decide ((n.toNat : ℤ) ≤ m.wday))
  | arNode => some (meets equal s.nodeNum.toNat n.toNat)
  | arTleft => some false
  | arTused => some false
  | arPcr => some (s.ofUser fun user ↦ !(decide (user.posts < user.logons) &&
      (decide (user.posts = 0) || s.percentBelow user.logons.toNat user.posts.toNat n)))
  | arUdr => some (s.ofUser fun user ↦
      let l := if user.dlb = 0 then 1 else user.dlb
      !(decide (user.ulb < user.dlb) && (decide (user.ulb = 0) ||
        s.percentBelow l.toNat user.ulb.toNat n)))
  | arUdfr => some (s.ofUser fun user ↦
      let i := if user.dls = 0 then 1 else user.dls
      !(decide (user.uls < user.dls) && (decide (user.uls = 0) ||
        s.percentBelow i.toNat user.uls.toNat n)))
  | arFlag1 => some (s.ofUser fun user ↦ meetsFlag equal user.flags1 n)
  | arFlag2 => some (s.ofUser fun user ↦ meetsFlag equal user.flags2 n)
  | arFlag3 => some (s.ofUser fun user ↦ meetsFlag equal user.flags3 n)
  | arFlag4 => some (s.ofUser fun user ↦ meetsFlag equal user.flags4 n)
  | arRest => some (s.ofUser fun user ↦ meetsFlag equal user.rest n)
  | arExempt => some (s.ofUser fun user ↦ meetsFlag equal user.exempt n)
  | arSex => some (s.ofUser fun user ↦ decide (user.sex = n))
  | _ => none

/-- The atoms with a word. -/
def shortTest (m : Moment) (artype : UInt8) (equal : Bool) (i : UInt32) : Option Bool :=
  match artype with
  | arBps => some true
  | arCredit => some (s.ofUser fun user ↦
      meets equal (user.cdt + user.freecdt).toNat (i.toUInt64 * 1024).toNat)
  | arUser => some (s.ofUser fun user ↦ meets equal user.number.toNat i.toNat)
  | arGroup => some (s.ofUser fun user ↦ meets equal (getgroupnum s.subs user.cursub) i.toNat)
  | arSub => some (s.ofUser fun user ↦ meets equal (getareanum s.subs user.cursub) i.toNat)
  | arLib => some (s.ofUser fun user ↦ meets equal (getgroupnum s.dirs user.curdir) i.toNat)
  | arDir => some (s.ofUser fun user ↦ meets equal (getareanum s.dirs user.curdir) i.toNat)
  | arExpire => some (s.ofUser fun user ↦ decide (user.expire ≠ 0) &&
      decide (m.time + i.toNat * (24 * 60 * 60) ≤ user.expire))
  | arRandom => some (meets equal (m.random (i + 1)).toNat i.toNat)
  | arLaston => some (s.ofUser fun user ↦
      decide ((i.toNat : ℤ) ≤ (m.time - user.laston).tdiv (24 * 60 * 60)))
  | arLogons => some (s.ofUser fun user ↦ meets equal user.logons.toNat i.toNat)
  | arMainCmds => some false
  | arFileCmds => some false
  | arTime => some (decide (i.toInt32.toInt ≤ m.hour * 60 + m.min))
  | arUls => some (s.ofUser fun user ↦ meets equal user.uls.toNat i.toNat)
  | arUlk => some (s.ofUser fun user ↦ meets equal (user.ulb.toNat / 1024) i.toNat)
  | arUlm => some (s.ofUser fun user ↦ meets equal (user.ulb.toNat / (1024 * 1024)) i.toNat)
  | arDls => some (s.ofUser fun user ↦ meets equal user.dls.toNat i.toNat)
  | arDlk => some (s.ofUser fun user ↦ meets equal (user.dlb.toNat / 1024) i.toNat)
  | arDlm => some (s.ofUser fun user ↦ meets equal (user.dlb.toNat / (1024 * 1024)) i.toNat)
  | _ => none

/-- A string of the client is searched for, or one of the user. -/
def meetsString (ofClient : Client → List UInt8) (ofUser : User → List UInt8)
    (str : List UInt8) : Bool :=
  match s.client, s.user with
  | some client, _ => findstrInString (ofClient client) str
  | none, some user => findstrInString (ofUser user) str
  | none, none => false

/-- The atoms with a string. -/
def stringTest (artype : UInt8) (str : List UInt8) : Option Bool :=
  match artype with
  -- the result of `findstr_in_string` is compared with 0, as that of `stricmp` would be
  | arSubcode => some (s.ofUser fun user ↦ !findstrInString user.cursub str)
  | arDircode => some (s.ofUser fun user ↦ !findstrInString user.curdir str)
  | arShell => some (s.ofUser fun user ↦ meetsCode s.shells user.shell.toNat str)
  | arProt => some (s.meetsString Client.protocol User.modem str)
  | arHost => some (s.meetsString Client.host User.comp str)
  | arIp => some (s.meetsString Client.addr User.ipaddr str)
  | _ => none

/-- The `switch` of `ar_exp`. -/
def arTest (tick : ℕ) (artype : UInt8) (equal : Bool) (p : List UInt8) : Option Bool :=
  match arOperand artype with
  | .none => some (s.noneTest artype)
  | .byte => s.byteTest (s.moment tick) artype equal (p.headD 0)
  | .short => s.shortTest (s.moment tick) artype equal (Session.arShort p)
  | .string => s.stringTest artype (cString p)

end Server

/-- The loop of `ar_exp` from `result` on, in at most `n` rounds. -/
def arExpLoop (s : Server) : ℕ → Bool → ℕ → List UInt8 → Option (Bool × ℕ × List UInt8)
  | 0, _, _, _ => none
  | n + 1, result, tick, p =>
      match p with
      | [] => none
      | b :: _ =>
          if b = 0 ∨ b = arEndnest then some (result, tick, p)
          else
            let (or, p) := arFlag arOr p
            let (not, p) := arFlag arNot p
            let (equal, p) := arFlag arEqual p
            if result && or || !result && !or then some (result, tick, p)
            else if p.headD 0 = arBegnest then do
              let (nested, tick, p) ← arExpLoop s n true tick p.tail
              let result := if nested then !not else not
              let p := arSkipNest p
              if p.headD 0 = 0 then some (result, tick, p)
              else arExpLoop s n result tick p.tail
            else
              let artype := p.headD 0
              let result :=
                match s.arTest tick artype equal p.tail with
                | some holds => if holds then !not else not
                | none => result
              arExpLoop s n result (tick + 1) (arSkip artype p)

/-- `chk_ar`, with a configuration that is valid. -/
def chkAr (s : Server) : Option (List UInt8) → Option Bool
  | none => some true
  | some ar => (arExpLoop s (ar.length + 1) true 0 ar).map fun r ↦ r.1

end Userdat

/-! ## The same user and clock -/

/-- A server that checks the user of a session, with the same client, configuration and
clock. -/
def Session.server (s : Session) : Userdat.Server where
  user := some s.user
  client := s.client
  nodeNum := s.nodeNum
  subs := s.subs
  dirs := s.dirs
  shells := s.shells
  os2 := s.os2
  win32 := s.win32
  unix := s.unix
  linux := s.linux
  moment := s.moment
  percentBelow := s.percentBelow

/-- The atoms about the user and the clock. -/
def userKeywords : List UInt8 :=
  [arLevel, arAge, arFlag1, arFlag2, arFlag3, arFlag4, arRest, arExempt, arSex, arExpire, arCredit,
    arUser, arLogons, arLaston, arUls, arUlk, arUlm, arDls, arDlk, arDlm, arAnsi, arRip, arWip,
    arExpert, arActive, arInactive, arDeleted, arGuest, arQnode, arShell, arTime, arDay,
    arSubcode, arDircode, arIp]

/-- The codes of the atoms that the loop of `ar_exp` evaluates, in at most `n` rounds. -/
def arEvaluated (s : Session) : ℕ → Bool → ℕ → List UInt8 → List UInt8
  | 0, _, _, _ => []
  | n + 1, result, tick, p =>
      match p with
      | [] => []
      | b :: _ =>
          if b = 0 ∨ b = arEndnest then []
          else
            let (or, p) := arFlag arOr p
            let (not, p) := arFlag arNot p
            let (equal, p) := arFlag arEqual p
            if result && or || !result && !or then []
            else if p.headD 0 = arBegnest then
              arEvaluated s n true tick p.tail ++
                match arExpLoop s n true tick p.tail with
                | none => []
                | some (nested, tick, p) =>
                    let result := if nested then !not else not
                    let p := arSkipNest p
                    if p.headD 0 = 0 then [] else arEvaluated s n result tick p.tail
            else
              let artype := p.headD 0
              let result :=
                match s.arTest tick artype equal p.tail with
                | some holds => if holds then !not else not
                | none => result
              artype :: arEvaluated s n result (tick + 1) (arSkip artype p)

/-- The codes of the atoms that `chk_ar` evaluates. -/
def evaluatedAtoms (s : Session) : Option (List UInt8) → List UInt8
  | none => []
  | some ar => arEvaluated s (ar.length + 1) true 0 ar

/-- The servers test an atom about the user or the clock as the terminal server does. -/
def SameTest (s : Session) (artype : UInt8) : Prop :=
  artype ≠ arSubcode ∧ artype ≠ arDircode ∧
    (artype = arIp → s.client ≠ none ∨ s.user.note = s.user.ipaddr)

theorem arTest_server {s : Session} {artype : UInt8} (hkeyword : artype ∈ userKeywords)
    (hsame : SameTest s artype) (tick : ℕ) (equal : Bool) (p : List UInt8) :
    s.server.arTest tick artype equal p = s.arTest tick artype equal p := by
  obtain ⟨hsub, hdir, hip⟩ := hsame
  by_cases hartype : artype = arIp
  · obtain rfl := hartype
    have hip := hip rfl
    change some (s.server.meetsString _ _ _) = some (findstrInString _ _)
    cases hclient : s.client with
    | none =>
        rw [hclient] at hip
        simp [Userdat.Server.meetsString, Session.server, hclient, hip.resolve_left (by simp)]
    | some client => simp [Userdat.Server.meetsString, Session.server, hclient]
  · simp only [userKeywords, List.mem_cons, List.not_mem_nil, or_false, hsub, hdir, hartype]
      at hkeyword
    rcases hkeyword with rfl | rfl | rfl | rfl | rfl | rfl | rfl | rfl | rfl | rfl | rfl | rfl | rfl |
      rfl | rfl | rfl | rfl | rfl | rfl | rfl | rfl | rfl | rfl | rfl | rfl | rfl | rfl | rfl | rfl |
      rfl | rfl | rfl <;> rfl

theorem arExpLoop_server {s : Session} {n : ℕ} {result : Bool} {tick : ℕ} {p : List UInt8}
    (h : ∀ artype ∈ arEvaluated s n result tick p, artype ∈ userKeywords ∧ SameTest s artype) :
    Userdat.arExpLoop s.server n result tick p = arExpLoop s n result tick p := by
  induction n generalizing result tick p with
  | zero => rfl
  | succ n ih =>
      cases p with
      | nil => rfl
      | cons b p =>
          rw [arEvaluated] at h
          rw [Userdat.arExpLoop, arExpLoop]
          by_cases hend : b = 0 ∨ b = arEndnest
          · rw [if_pos hend, if_pos hend]
          rw [if_neg hend] at h ⊢
          rw [if_neg hend]
          generalize arFlag arOr (b :: p) = or at h ⊢
          obtain ⟨or, p₁⟩ := or
          dsimp only at h ⊢
          generalize arFlag arNot p₁ = not at h ⊢
          obtain ⟨not, p₂⟩ := not
          dsimp only at h ⊢
          generalize arFlag arEqual p₂ = equal at h ⊢
          obtain ⟨equal, q⟩ := equal
          dsimp only at h ⊢
          by_cases hstop : (result && or || !result && !or) = true
          · rw [if_pos hstop, if_pos hstop]
          rw [if_neg hstop] at h ⊢
          rw [if_neg hstop]
          by_cases hnest : q.headD 0 = arBegnest
          · rw [if_pos hnest] at h ⊢
            rw [if_pos hnest, ih fun artype hmem ↦ h artype (List.mem_append_left _ hmem)]
            cases hinner : arExpLoop s n true tick q.tail with
            | none => rfl
            | some inner =>
                obtain ⟨nested, tick₁, q₁⟩ := inner
                rw [hinner] at h
                simp only [Option.bind_eq_bind, Option.bind_some]
                split
                · rfl
                case isFalse hzero =>
                  apply ih
                  intro artype hmem
                  refine h artype (List.mem_append_right _ ?_)
                  dsimp only
                  rwa [if_neg hzero]
          · rw [if_neg hnest] at h ⊢
            rw [if_neg hnest]
            obtain ⟨hkeyword, hsame⟩ := h _ List.mem_cons_self
            rw [arTest_server hkeyword hsame]
            exact ih fun artype hmem ↦ h artype (List.mem_cons_of_mem _ hmem)

theorem arFlag_subcode {code : UInt8} (hcode : arSubcode ≠ code) {q : List UInt8} :
    arFlag code (arSubcode :: q) = (false, arSubcode :: q) := if_neg hcode

theorem arExpLoop_subcode (s : Session) (n tick : ℕ) (q : List UInt8) :
    arExpLoop s (n + 1) true tick (arSubcode :: q) =
      arExpLoop s n
        (match s.arTest tick arSubcode false q with
          | some holds => if holds then !false else false
          | none => true) (tick + 1) (arSkip arSubcode (arSubcode :: q)) := by
  rw [arExpLoop, if_neg (by decide), arFlag_subcode (by decide)]
  dsimp only
  rw [arFlag_subcode (by decide)]
  dsimp only
  rw [arFlag_subcode (by decide)]
  rfl

theorem Userdat.arExpLoop_subcode (s : Userdat.Server) (n tick : ℕ) (q : List UInt8) :
    Userdat.arExpLoop s (n + 1) true tick (arSubcode :: q) =
      Userdat.arExpLoop s n
        (match s.arTest tick arSubcode false q with
          | some holds => if holds then !false else false
          | none => true) (tick + 1) (arSkip arSubcode (arSubcode :: q)) := by
  rw [Userdat.arExpLoop, if_neg (by decide), arFlag_subcode (by decide)]
  dsimp only
  rw [arFlag_subcode (by decide)]
  dsimp only
  rw [arFlag_subcode (by decide)]
  rfl

/-- A requirement with nothing but a `SUBCODE` gets the other verdict from the servers, wherever the
session is in the sub-board of the user record. -/
theorem chkAr_server_subcode_ne (s : Session) {str : List UInt8} (hstr : 0 ∉ str)
    (hsub : (s.subs[s.cursubnum.toNat]?.map Area.code) = some s.user.cursub) :
    ∃ verdict, chkAr s (some (arSubcode :: (str ++ [0, arNull]))) = some verdict ∧
      Userdat.chkAr s.server (some (arSubcode :: (str ++ [0, arNull]))) = some !verdict := by
  have hdrop : (str ++ [0, arNull]).dropWhile (fun c ↦ decide (c ≠ 0)) = [0, arNull] := by
    rw [List.dropWhile_append_of_pos]
    · rfl
    · intro c hc
      exact decide_eq_true (ne_of_mem_of_not_mem hc hstr)
  have hstring : cString (str ++ [0, arNull]) = str := by
    rw [cString, List.takeWhile_append_of_pos]
    · simp
    · intro c hc
      exact decide_eq_true (ne_of_mem_of_not_mem hc hstr)
  have hskip : arSkip arSubcode (arSubcode :: (str ++ [0, arNull])) = [arNull] := by
    change ((str ++ [0, arNull]).dropWhile fun c ↦ decide (c ≠ 0)).tail = [arNull]
    rw [hdrop]
    rfl
  have htest : s.arTest 0 arSubcode false (str ++ [0, arNull]) =
      some (findstrInString s.user.cursub str) := by
    change some (meetsCode _ _ (cString (str ++ [0, arNull]))) = _
    rw [hstring, meetsCode, List.getElem?_map, hsub]
  have hserver : s.server.arTest 0 arSubcode false (str ++ [0, arNull]) =
      some !findstrInString s.user.cursub str := by
    change some (!findstrInString s.user.cursub (cString (str ++ [0, arNull]))) = _
    rw [hstring]
  have hlength : (arSubcode :: (str ++ [0, arNull])).length = str.length + 1 + 1 + 1 := by simp
  refine ⟨findstrInString s.user.cursub str, ?_, ?_⟩
  · rw [chkAr, hlength, arExpLoop_subcode, htest, hskip]
    cases findstrInString s.user.cursub str <;> rfl
  · rw [Userdat.chkAr, hlength, Userdat.arExpLoop_subcode, hserver, hskip]
    cases findstrInString s.user.cursub str <;> rfl

/-- The servers and the terminal server give the same verdict when the atoms that are evaluated
are about the user and the clock, and none is a `SUBCODE` or `DIRCODE`, or an `IP` for a user
without a client whose note is not the address. -/
theorem chkAr_server (s : Session) (ar : Option (List UInt8))
    (hkeywords : ∀ artype ∈ evaluatedAtoms s ar, artype ∈ userKeywords)
    (hsame : ∀ artype ∈ evaluatedAtoms s ar, SameTest s artype) :
    Userdat.chkAr s.server ar = chkAr s ar := by
  cases ar with
  | none => rfl
  | some ar =>
      rw [Userdat.chkAr, chkAr, arExpLoop_server]
      exact fun artype hmem ↦ ⟨hkeywords artype hmem, hsame artype hmem⟩

/-- `LEVEL 50 AND NOT GUEST` for a user of level 60. -/
theorem chkAr_server_level :
    Userdat.chkAr { user := { level := 60 } : Session }.server
        (some [arLevel, 50, arNot, arGuest, arNull]) =
      chkAr { user := { level := 60 } } (some [arLevel, 50, arNot, arGuest, arNull]) :=
  chkAr_server _ _ (by decide +kernel) (by unfold SameTest; decide +kernel)

/-- `SUBCODE A` for a user whose current sub-board has the code `A`: in the session and in the
user record. -/
theorem chkAr_server_subcode :
    ∃ s : Session, (s.subs[s.cursubnum.toNat]?.map Area.code) = some s.user.cursub ∧
      chkAr s (some [arSubcode, 65, 0, arNull]) = some true ∧
      Userdat.chkAr s.server (some [arSubcode, 65, 0, arNull]) = some false :=
  ⟨{ user := { cursub := [65] }, subs := [⟨0, [65]⟩] }, by decide, by decide +kernel,
    by decide +kernel⟩

end Synchronet.Sbbs3
