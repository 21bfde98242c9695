import Synchronet.Xpdev.DirWrap
import Synchronet.Sbbs3.PostData
import Mathlib.Tactic.Cases

/-!
# From the request line to a file below the root (websrvr.c)

`get_req` makes a path of what it was asked for and lets `_fullpath` resolve it, and
`check_request` compares the path with the root directory before it serves the file.  The
comparison ignores case.  What is left out is what the files `access.ars` and `webctrl.ini`
below the root do to a request that has passed.
-/

namespace Synchronet.Sbbs3.WebSrvr

open Smblib (strlwr cstr)
open Xpdev
open Paths (ups Below)

/-! ## The state -/

/-- A call that does not go through: it returns `FALSE`, or it leaves the memory of its buffers. -/
inductive Stop
  | refused
  | fault
  deriving DecidableEq

/-- Configuration of the server.  `web_server` makes the root directory absolute; here it is
kept with a slash at its end. -/
structure Server where
  rootDir : Str
  hostName : Str
  indexFileName : List Str
  virtualHosts : Bool
  maxPath : ℕ
  env : Environment
  rootDir_absolute : rootDir.head? = some slash
  rootDir_closed : rootDir.getLast? = some slash
  rootDir_fits : rootDir.length ≤ maxPath

inductive SendLocation
  | noLocation
  | movedPerm
  | movedTemp
  | movedStat
  deriving DecidableEq

structure Req where
  virtualPath : Str
  physicalPath : Str
  host : Str
  vhost : Str
  extraPathInfo : Str
  gotExtraPath : Bool
  pathInfoIndex : Bool
  finished : Bool
  upgrading : Bool
  sendLocation : SendLocation
  deriving DecidableEq

variable (server : Server) (stat : Str → Option Bool)

def maxRequestLine : ℕ := 1024

/-- `strcat` to a buffer of `size` bytes -/
def strcat (size : ℕ) (dst src : Str) : Except Stop Str :=
  if dst.length + src.length < size then .ok (dst ++ src) else .error .fault

/-! ## The request line -/

/-- What the first call of `strtok_r` leaves in its string. -/
def strtok (delims s : Str) : Str :=
  s.takeWhile (· ∈ delims) ++ (s.dropWhile (· ∈ delims)).takeWhile (· ∉ delims)

/-- `unescape`, with the NUL bytes that escapes stand for -/
def unescape : Str → List UInt8
  | 37 :: a :: b :: rest =>
      if isxdigit a ∧ isxdigit b then UInt8.ofNat (hexValue [a, b]) :: unescape rest
      else 37 :: unescape (a :: b :: rest)
  | c :: rest => (if c = 43 then 32 else c) :: unescape rest
  | [] => []

/-- `split_port_part`: digits behind a single colon, then the brackets. -/
def removePortPart (host : Str) : Str :=
  let bare := host.rdropWhile isdigit
  if bare ≠ host ∧ host.head? ≠ some 91 ∧ strchr host 58 ≠ strrchr host 58 then host
  else
    let name := if bare ≠ host ∧ bare.getLast? = some 58 then bare.dropLast else host
    if name.head? = some 91 then name.tail.takeWhile (· ≠ 93) else name

def setHost (req : Req) (value : Str) : Req :=
  { req with
    host := safecopy 128 value
    vhost := removePortPart (safecopy 128 value) }

/-- Behind `http://` or `https://` -/
def afterScheme (path : Str) : Option Str :=
  if strnicmp path [104, 116, 116, 112, 58, 47, 47] then some (path.drop 7)
  else if strnicmp path [104, 116, 116, 112, 115, 58, 47, 47] then some (path.drop 8)
  else none

/-- `get_request`: the path that is asked for, and the host if the line names one. -/
def getRequest (reqLine : Str) (req : Req) : Req :=
  let word := strtok [32, 9] (safecopy (server.maxPath + 1) (skipWhitespace reqLine))
  let virtualPath := strtok [63] word
  let physicalPath := cstr (unescape virtualPath)
  match afterScheme physicalPath with
  | none => { req with virtualPath, physicalPath }
  | some rest =>
      let path := rest.dropWhile (· ≠ slash)
      setHost
        { req with virtualPath, physicalPath := if path = [] then [slash] else path }
        (strlwr (strtok [slash] (safecopy 128 rest)))

/-- The part of `get_request_headers` that deals with the host.  `hosts` are the values of the
`Host` headers. -/
def getRequestHeaders (hosts : List Str) (req : Req) : Req :=
  let req := hosts.foldl
    (fun req value ↦ if req.host = [] then setHost req (strlwr value) else req) req
  { req with
    vhost := if req.vhost = [] then strlwr (safecopy 128 server.hostName) else req.vhost
    host := if req.host = [] then strlwr (safecopy 128 server.hostName) else req.host }

def isLegalHostname (host : Str) (stripPort : Bool) : Bool :=
  let host := if stripPort then removePortPart host else host
  host ≠ [] ∧ host.head? ≠ some 45 ∧ host.head? ≠ some 46 ∧
    ∀ c ∈ host, (97 ≤ c ∧ c ≤ 122) ∨ isdigit c ∨ c = 45 ∨ c = 46

/-- `get_fullpath` -/
def getFullpath (req : Req) : Except Stop Req :=
  let size := server.maxPath + 1
  let vdir := server.rootDir ++ slash :: req.vhost
  let str :=
    if req.vhost ≠ [] ∧ server.virtualHosts ∧ isdir stat server.maxPath (safecopy size vdir)
    then safecopy size (vdir ++ req.physicalPath)
    else safecopy size (server.rootDir ++ req.physicalPath)
  match fullpath server.env size str with
  | none => .error .refused
  | some path =>
      match isabspath server.env server.maxPath path with
      | some true => .ok { req with physicalPath := path }
      | some false => .error .refused
      | none => .error .fault

/-! ## Extra path information -/

/-- The file found, with the path behind it as extra information. -/
def withExtraPath (req : Req) (vpath rpath epath : Str) : Req :=
  { req with
    virtualPath := vpath
    physicalPath := rpath
    extraPathInfo := safecopy (maxRequestLine + 1) epath
    gotExtraPath := true }

/-- The loop over the index file names in `check_extra_path`, for the directory `rpath`. -/
def extraIndex (req : Req) (vpath rpath epath : Str) : List Str → Except Stop Req
  | [] => .ok req
  | name :: names => do
      let file ← strcat (server.maxPath + 1) rpath name
      if (stat file).isSome then
        let vfile ← strcat (server.maxPath + 1) (vpath ++ [slash]) name
        return withExtraPath req vfile file epath
      else extraIndex req vpath rpath epath names

theorem strrchr_lt {s : Str} {c : UInt8} {i : ℕ} (h : strrchr s c = some i) : i < s.length := by
  obtain ⟨j, hj, rfl⟩ := Option.map_eq_some_iff.mp h
  have hlt : j < s.reverse.length := by
    rw [List.idxOf?_eq_some_iff] at hj
    exact hj.1
  rw [List.length_reverse] at hlt
  omega

/-- The loop of `check_extra_path`, which cuts both paths at their last slashes. -/
def extraPathLoop (req : Req) (vpath rpath epath : Str) : Except Stop Req :=
  match hv : strrchr vpath slash, strrchr rpath slash with
  | some v, some r =>
      let extra := rpath.drop r ++ epath
      let dir := rpath.take (r + 1)
      if req.pathInfoIndex ∧ isdir stat server.maxPath dir ∧
          ¬isdir stat server.maxPath req.physicalPath then
        extraIndex server stat req (vpath.take v) dir extra server.indexFileName
      else if ¬req.pathInfoIndex ∧ isdir stat server.maxPath dir then .ok req
      else if v = 0 then .ok req
      else if stat (rpath.take r) = some false then
        .ok (withExtraPath req (vpath.take v) (rpath.take r) extra)
      else extraPathLoop req (vpath.take v) (rpath.take r) extra
  | _, _ => .ok req
  termination_by vpath.length
  decreasing_by
    have := strrchr_lt hv
    rw [List.length_take]
    omega

/-- `check_extra_path` -/
def checkExtraPath (req : Req) : Except Stop Req :=
  if req.gotExtraPath then .ok req
  else if req.physicalPath.getLast? = some slash ∨ stat req.physicalPath = none then
    extraPathLoop server stat req req.virtualPath req.physicalPath []
  else .ok req

/-- The request line and the headers in `get_req`; `isRedir` for an internal redirect. -/
def readRequest (reqLine : Str) (hosts : List Str) (isRedir : Bool) (req : Req) : Req :=
  if isRedir then getRequest server reqLine { req with extraPathInfo := [] }
  else getRequestHeaders server hosts (getRequest server reqLine req)

/-- `get_req` behind the method of the request line -/
def getReq (reqLine : Str) (hosts : List Str) (isRedir : Bool) (req : Req) :
    Except Stop Req :=
  let req := readRequest server reqLine hosts isRedir req
  if isLegalHostname req.host true ∧ isLegalHostname req.vhost false then do
    let req ← getFullpath server stat req
    checkExtraPath server stat req
  else .error .refused

/-! ## The test -/

/-- What `check_request` serves. -/
structure Served where
  path : Str
  send404 : Bool
  req : Req
  deriving DecidableEq

def withSlash (path : Str) : Str :=
  if path.getLast? = some slash then path else path ++ [slash]

/-- The loop over the index file names in `check_request`, and the name it stops at. -/
def indexLoop (dir physicalPath : Str) : List Str → Str → Except Stop (Str × Option Str)
  | [], path => .ok (path, none)
  | name :: names, _ => do
      let path ← strcat (server.maxPath + 1) dir name
      if (stat path).isSome then return (path, some name)
      else indexLoop dir physicalPath names (safecopy (server.maxPath + 1) physicalPath)

/-- `strcat(path, "/")` if `last_ch` is no slash -/
def addSlash (lastCh : Option UInt8) (path : Str) : Except Stop Str :=
  if lastCh = some slash then .ok path else strcat (server.maxPath + 1) path [slash]

/-- `check_request` for a directory, up to the test of the path. -/
def openDirectory (req : Req) (path : Str) : Except Stop Served := do
  let dir ← addSlash server path.getLast? path
  let physicalPath ← addSlash server path.getLast? req.physicalPath
  let virtualPath ← addSlash server req.virtualPath.getLast? req.virtualPath
  let moved :=
    path.getLast? ≠ some slash ∨ req.virtualPath.getLast? ≠ some slash ∨
      req.sendLocation = .movedPerm
  match strrchr dir slash with
  | none => .error .refused
  | some last => do
      let (path, found) ←
        indexLoop server stat (dir.take (last + 1)) physicalPath server.indexFileName dir
      match found with
      | none =>
          let sendLocation := if moved then .movedPerm else req.sendLocation
          return ⟨path, true, { req with virtualPath, physicalPath, sendLocation }⟩
      | some name => do
          let virtualPath ← strcat (server.maxPath + 1) virtualPath name
          let sendLocation := if moved then .movedPerm else .movedStat
          return ⟨path, false, { req with virtualPath, physicalPath, sendLocation }⟩

/-- `check_request` up to its test of the path; `none` for a connection that is upgraded. -/
def checkRequest (req : Req) : Except Stop (Option Served) :=
  if req.finished then .error .refused
  else if req.upgrading then .ok none
  else do
    let path := safecopy (server.maxPath + 1) req.physicalPath
    let served ←
      if isdir stat server.maxPath path then openDirectory server stat req path
      else .ok ⟨path, false, req⟩
    if strnicmp served.path server.rootDir then return some served else .error .refused

/-! ## What `get_req` leaves -/

/-- A resolved path in its buffer. -/
structure Clean (path : Str) : Prop where
  ups_eq : ups slash dotdot path = 0
  length_le : path.length ≤ server.maxPath

theorem strcat_eq_ok {size : ℕ} {dst src s : Str} (h : strcat size dst src = .ok s) :
    s = dst ++ src ∧ s.length < size := by
  rw [strcat] at h
  split at h
  · case isTrue hlt =>
      cases h
      exact ⟨rfl, by simpa using hlt⟩
  · cases h

theorem eq_append_of_strrchr {s : Str} {c : UInt8} {i : ℕ} (h : strrchr s c = some i) :
    s = s.take i ++ c :: s.drop (i + 1) := by
  have hlt := strrchr_lt h
  obtain ⟨j, hj, hi⟩ := Option.map_eq_some_iff.mp h
  obtain ⟨hjlt, hc, -⟩ := List.idxOf?_eq_some_iff.mp hj
  rw [List.getElem_reverse] at hc
  have hget : s[i] = c := by
    simpa [hi] using hc
  rw [← hget, ← List.drop_eq_getElem_cons hlt, List.take_append_drop]

variable {server stat}

theorem Clean.take {path : Str} {i : ℕ} (h : Clean server path)
    (hi : strrchr path slash = some i) : Clean server (path.take i) := by
  constructor
  case ups_eq =>
      have hle : ups slash dotdot (path.take i) ≤
          ups slash dotdot (path.take i ++ slash :: path.drop (i + 1)) :=
        Paths.ups_le_of_append_sep _ _
      rw [← eq_append_of_strrchr hi, h.ups_eq] at hle
      exact Nat.le_zero.mp hle
  case length_le => exact (List.length_take_le' i path).trans h.length_le

theorem Clean.take_succ {path : Str} {i : ℕ} (h : Clean server path)
    (hi : strrchr path slash = some i) :
    Clean server (path.take (i + 1)) ∧ (path.take (i + 1)).getLast? = some slash := by
  have htake : path.take (i + 1) = path.take i ++ [slash] := by
    conv_lhs => rw [eq_append_of_strrchr hi]
    have hlen : (path.take i).length = i := by
      rw [List.length_take, Nat.min_eq_left (strrchr_lt hi).le]
    rw [List.take_append, hlen]
    simp
  refine ⟨⟨?_, (List.length_take_le' _ path).trans h.length_le⟩, ?_⟩
  · rw [htake, Paths.ups_concat_sep dotdot_ne_nil]
    exact (h.take hi).ups_eq
  · rw [htake]
    simp

theorem head?_safecopy_rootDir (rest : Str) :
    (safecopy (server.maxPath + 1) (server.rootDir ++ rest)).head? = some slash := by
  have hroot := server.rootDir_absolute
  have hfits := server.rootDir_fits
  cases hdir : server.rootDir with
  | nil => simp [hdir] at hroot
  | cons c dir =>
      rw [hdir] at hroot hfits
      obtain ⟨n, hn⟩ : ∃ n, server.maxPath = n + 1 := by
        exact ⟨server.maxPath - 1, by simp at hfits; omega⟩
      simpa [safecopy, hn] using hroot

theorem clean_of_fullpath {str path : Str} (hhead : str.head? = some slash)
    (h : fullpath server.env (server.maxPath + 1) str = some path) : Clean server path := by
  rw [fullpath_absolute hhead, Option.some_inj] at h
  subst h
  constructor
  case ups_eq => exact ups_resolve_absolute hhead _
  case length_le =>
      have hlen := length_resolve_le [] (str.take (server.maxPath + 1 - 1))
      rw [List.length_nil, List.length_take] at hlen
      omega

theorem getFullpath_clean {req req' : Req} (h : getFullpath server stat req = .ok req') :
    Clean server req'.physicalPath := by
  obtain ⟨rest, hstr⟩ : ∃ rest,
      (if req.vhost ≠ [] ∧ server.virtualHosts ∧ isdir stat server.maxPath
          (safecopy (server.maxPath + 1) (server.rootDir ++ slash :: req.vhost))
        then safecopy (server.maxPath + 1)
          ((server.rootDir ++ slash :: req.vhost) ++ req.physicalPath)
        else safecopy (server.maxPath + 1) (server.rootDir ++ req.physicalPath)) =
      safecopy (server.maxPath + 1) (server.rootDir ++ rest) := by
    split
    · exact ⟨slash :: req.vhost ++ req.physicalPath, by rw [List.append_assoc]⟩
    · exact ⟨req.physicalPath, rfl⟩
  simp only [getFullpath, hstr] at h
  split at h
  · cases h
  · case h_2 path hpath =>
      have hclean := clean_of_fullpath (head?_safecopy_rootDir rest) hpath
      split at h
      · cases h
        exact hclean
      · cases h
      · cases h

/-- The names of the index files lead nowhere else. -/
def NamesClean (names : List Str) : Prop := ∀ name ∈ names, ups slash dotdot name = 0

theorem Clean.append {dir name : Str} (hdir : Clean server dir)
    (hlast : dir.getLast? = some slash) (hname : ups slash dotdot name = 0)
    (hlen : (dir ++ name).length ≤ server.maxPath) : Clean server (dir ++ name) := by
  refine ⟨?_, hlen⟩
  rw [Paths.ups_append_of_closed dotdot_ne_nil hlast, hdir.ups_eq, hname]

theorem extraIndex_clean {req req' : Req} {vpath dir epath : Str} {names : List Str}
    (hnames : NamesClean names) (hreq : Clean server req.physicalPath)
    (hdir : Clean server dir) (hlast : dir.getLast? = some slash)
    (h : extraIndex server stat req vpath dir epath names = .ok req') :
    Clean server req'.physicalPath := by
  induction names with
  | nil =>
      cases h
      exact hreq
  | cons name names ih =>
      rw [extraIndex] at h
      cases hfile : strcat (server.maxPath + 1) dir name with
      | error e =>
          rw [hfile] at h
          cases h
      | ok file =>
          obtain ⟨rfl, hlen⟩ := strcat_eq_ok hfile
          rw [hfile] at h
          change (if (stat (dir ++ name)).isSome then _ else _) = _ at h
          split at h
          · cases hvfile : strcat (server.maxPath + 1) (vpath ++ [slash]) name with
            | error e =>
                rw [hvfile] at h
                cases h
            | ok vfile =>
                rw [hvfile] at h
                cases h
                exact hdir.append hlast (hnames name List.mem_cons_self) (by omega)
          · exact ih (fun n hn ↦ hnames n (List.mem_cons_of_mem _ hn)) h

theorem extraPathLoop_clean {req req' : Req} {vpath rpath epath : Str}
    (hnames : NamesClean server.indexFileName) (hreq : Clean server req.physicalPath)
    (hrpath : Clean server rpath)
    (h : extraPathLoop server stat req vpath rpath epath = .ok req') :
    Clean server req'.physicalPath := by
  fun_induction extraPathLoop server stat req vpath rpath epath with
  | case1 vpath rpath epath v hv r hr extra dir hindex =>
      have hdir := hrpath.take_succ hr
      exact extraIndex_clean hnames hreq hdir.1 hdir.2 h
  | case2 =>
      cases h
      exact hreq
  | case3 =>
      cases h
      exact hreq
  | case4 vpath rpath epath v hv r hr extra dir hindex hdir hv0 hfile =>
      cases h
      exact hrpath.take hr
  | case5 vpath rpath epath v hv r hr extra dir hindex hdir hv0 hfile ih =>
      exact ih (hrpath.take hr) h
  | case6 =>
      cases h
      exact hreq

theorem getReq_clean {reqLine : Str} {hosts : List Str} {isRedir : Bool} {req req' : Req}
    (hnames : NamesClean server.indexFileName)
    (h : getReq server stat reqLine hosts isRedir req = .ok req') :
    Clean server req'.physicalPath := by
  simp only [getReq] at h
  generalize readRequest server reqLine hosts isRedir req = read at h
  split at h
  · cases hfull : getFullpath server stat read with
    | error e =>
        rw [hfull] at h
        cases h
    | ok full =>
        have hclean := getFullpath_clean hfull
        rw [hfull] at h
        change checkExtraPath server stat full = .ok req' at h
        rw [checkExtraPath] at h
        split at h
        · cases h
          exact hclean
        · split at h
          · exact extraPathLoop_clean hnames hclean hclean h
          · cases h
            exact hclean
  · cases h

/-! ## The path that is tested -/

variable (server stat)

/-- The index file of a directory, the first name for which there is a file. -/
def firstIndex (dir : Str) (names : List Str) : Option Str :=
  names.find? fun name ↦ (stat (dir ++ name)).isSome

/-- The path that a request stands for, with a slash and an index file behind a directory. -/
def target (req : Req) : Str :=
  if isdir stat server.maxPath req.physicalPath then
    let dir := withSlash req.physicalPath
    dir ++ (firstIndex stat dir server.indexFileName).getD []
  else req.physicalPath

/-- There is room for each of the names up to the first one that exists. -/
def NamesFit (dir : Str) : List Str → Prop
  | [] => True
  | name :: names =>
      dir.length + name.length ≤ server.maxPath ∧
        (stat (dir ++ name) = none → NamesFit dir names)

/-- The paths have room for the slash and the index file of a directory. -/
structure DirectoryFits (req : Req) : Prop where
  path : req.physicalPath.getLast? = some slash ∨ req.physicalPath.length < server.maxPath
  virtualPath : req.virtualPath.getLast? = some slash ∨ req.virtualPath.length < server.maxPath
  names : NamesFit server stat (withSlash req.physicalPath) server.indexFileName
  found : ∀ name ∈ firstIndex stat (withSlash req.physicalPath) server.indexFileName,
    (withSlash req.virtualPath).length + name.length ≤ server.maxPath

def Fits (req : Req) : Prop :=
  isdir stat server.maxPath req.physicalPath → DirectoryFits server stat req

/-- The path starts with the root directory itself when it does so but for case. -/
def SameCase (req : Req) : Prop :=
  strnicmp (target server stat req) server.rootDir → server.rootDir <+: target server stat req

/-- The call stays within its buffers, and what it serves lies below the root. -/
def Confined (result : Except Stop (Option Served)) : Prop :=
  result ≠ .error .fault ∧
    ∀ served, result = .ok (some served) → Below slash dotdot server.rootDir served.path

variable {server stat}

theorem addSlash_eq_ok {path : Str}
    (h : path.getLast? = some slash ∨ path.length < server.maxPath) :
    addSlash server path.getLast? path = .ok (withSlash path) := by
  by_cases hlast : path.getLast? = some slash
  · rw [addSlash, withSlash, if_pos hlast, if_pos hlast]
  · have hlt := h.resolve_left hlast
    rw [addSlash, withSlash, if_neg hlast, if_neg hlast, strcat, if_pos (by simpa using hlt)]

theorem addSlash_eq_fault {path : Str}
    (h : ¬(path.getLast? = some slash ∨ path.length < server.maxPath)) :
    addSlash server path.getLast? path = .error .fault := by
  push Not at h
  rw [addSlash, if_neg h.1, strcat, if_neg (by simpa using h.2)]

theorem getLast?_withSlash (path : Str) : (withSlash path).getLast? = some slash := by
  rw [withSlash]
  split
  · case isTrue h => exact h
  · simp

theorem strrchr_of_getLast? {s : Str} {c : UInt8} (h : s.getLast? = some c) :
    strrchr s c = some (s.length - 1) := by
  obtain ⟨r, rfl⟩ := List.getLast?_eq_some_iff.mp h
  simp [strrchr, List.idxOf?_cons]

theorem indexLoop_eq_ok {dir physicalPath : Str} {names : List Str}
    (hphys : safecopy (server.maxPath + 1) physicalPath = dir)
    (h : NamesFit server stat dir names) :
    indexLoop server stat dir physicalPath names dir =
      .ok (dir ++ (firstIndex stat dir names).getD [], firstIndex stat dir names) := by
  induction names with
  | nil => simp [indexLoop, firstIndex]
  | cons name names ih =>
      have hcat : strcat (server.maxPath + 1) dir name = .ok (dir ++ name) := by
        rw [strcat, if_pos (by have := h.1; omega)]
      rw [indexLoop, hcat]
      change (if (stat (dir ++ name)).isSome then _ else _) = _
      by_cases hstat : (stat (dir ++ name)).isSome
      · rw [if_pos hstat]
        simp [firstIndex, hstat]
        rfl
      · rw [if_neg hstat, hphys, ih (h.2 (by simpa using hstat))]
        simp [firstIndex, hstat]

theorem indexLoop_eq_fault {dir physicalPath : Str} {names : List Str}
    (hphys : safecopy (server.maxPath + 1) physicalPath = dir)
    (h : ¬NamesFit server stat dir names) :
    indexLoop server stat dir physicalPath names dir = .error .fault := by
  induction names with
  | nil => exact absurd trivial h
  | cons name names ih =>
      rw [indexLoop, strcat]
      split
      · case isTrue hlt =>
          change (if (stat (dir ++ name)).isSome then _ else _) = _
          have hrest : stat (dir ++ name) = none ∧ ¬NamesFit server stat dir names := by
            rw [NamesFit, not_and, Classical.not_imp] at h
            exact h (by omega)
          rw [if_neg (by simp [hrest.1]), hphys]
          exact ih hrest.2
      · rfl

theorem length_withSlash {path : Str} (hlen : path.length ≤ server.maxPath)
    (h : path.getLast? = some slash ∨ path.length < server.maxPath) :
    (withSlash path).length ≤ server.maxPath := by
  rw [withSlash]
  split
  · exact hlen
  · case isFalse hlast =>
      have := h.resolve_left hlast
      simp
      omega

theorem safecopy_of_length_le {path : Str} (h : path.length ≤ server.maxPath) :
    safecopy (server.maxPath + 1) path = path := List.take_of_length_le (by simpa using h)

/-- Behind the slash of a directory. -/
theorem take_strrchr_withSlash (path : Str) :
    strrchr (withSlash path) slash = some ((withSlash path).length - 1) ∧
      (withSlash path).take ((withSlash path).length - 1 + 1) = withSlash path := by
  refine ⟨strrchr_of_getLast? (getLast?_withSlash path), List.take_of_length_le ?_⟩
  omega

theorem openDirectory_path {req : Req} (hlen : req.physicalPath.length ≤ server.maxPath)
    (h : DirectoryFits server stat req) :
    ∃ served, openDirectory server stat req req.physicalPath = .ok served ∧
      served.path = withSlash req.physicalPath ++
        (firstIndex stat (withSlash req.physicalPath) server.indexFileName).getD [] := by
  have hadd := addSlash_eq_ok h.path
  have hphys := safecopy_of_length_le (length_withSlash hlen h.path)
  obtain ⟨hlast, htake⟩ := take_strrchr_withSlash req.physicalPath
  have hloop := indexLoop_eq_ok hphys h.names
  have hcat : ∀ name ∈ firstIndex stat (withSlash req.physicalPath) server.indexFileName,
      strcat (server.maxPath + 1) (withSlash req.virtualPath) name =
        .ok (withSlash req.virtualPath ++ name) := by
    intro name hname
    have := h.found name hname
    rw [strcat, if_pos (by omega)]
  rw [openDirectory, hadd, addSlash_eq_ok h.virtualPath]
  simp only [bind, Except.bind, hlast, htake, hloop]
  cases hfirst : firstIndex stat (withSlash req.physicalPath) server.indexFileName with
  | none => exact ⟨_, rfl, rfl⟩
  | some name =>
      simp only [hcat name hfirst]
      exact ⟨_, rfl, rfl⟩

theorem openDirectory_fault {req : Req} (hlen : req.physicalPath.length ≤ server.maxPath)
    (h : ¬DirectoryFits server stat req) :
    openDirectory server stat req req.physicalPath = .error .fault := by
  by_cases hpath : req.physicalPath.getLast? = some slash ∨
      req.physicalPath.length < server.maxPath
  swap
  · rw [openDirectory, addSlash_eq_fault hpath]
    rfl
  have hadd := addSlash_eq_ok hpath
  rw [openDirectory, hadd]
  by_cases hvirtual : req.virtualPath.getLast? = some slash ∨
      req.virtualPath.length < server.maxPath
  swap
  · rw [addSlash_eq_fault hvirtual]
    rfl
  have hphys := safecopy_of_length_le (length_withSlash hlen hpath)
  obtain ⟨hlast, htake⟩ := take_strrchr_withSlash req.physicalPath
  rw [addSlash_eq_ok hvirtual]
  by_cases hnames : NamesFit server stat (withSlash req.physicalPath) server.indexFileName
  swap
  · simp only [bind, Except.bind, hlast, htake, indexLoop_eq_fault hphys hnames]
  simp only [bind, Except.bind, hlast, htake, indexLoop_eq_ok hphys hnames]
  cases hfirst : firstIndex stat (withSlash req.physicalPath) server.indexFileName with
  | none => exact absurd ⟨hpath, hvirtual, hnames, by simp [hfirst]⟩ h
  | some name =>
      have hlong : ¬(withSlash req.virtualPath).length + name.length ≤ server.maxPath := by
        intro hle
        apply h
        refine ⟨hpath, hvirtual, hnames, ?_⟩
        simpa [hfirst] using hle
      simp only [strcat]
      rw [if_neg (by omega)]

/-- What `check_request` tests, when it comes so far. -/
theorem checkRequest_eq {req : Req} (hlen : req.physicalPath.length ≤ server.maxPath)
    (hfinished : req.finished = false) (hupgrading : req.upgrading = false)
    (h : Fits server stat req) :
    ∃ served, served.path = target server stat req ∧
      checkRequest server stat req =
        if strnicmp (target server stat req) server.rootDir then .ok (some served)
        else .error .refused := by
  simp only [checkRequest, hfinished, hupgrading, safecopy_of_length_le hlen, target,
    Bool.false_eq_true, if_false]
  by_cases hdir : isdir stat server.maxPath req.physicalPath
  · obtain ⟨served, hserved, hpath⟩ := openDirectory_path hlen (h hdir)
    refine ⟨served, ?_, ?_⟩
    · rw [if_pos hdir, hpath]
    · rw [if_pos hdir, if_pos hdir, hserved, ← hpath]
      rfl
  · refine ⟨⟨req.physicalPath, false, req⟩, ?_, ?_⟩
    · rw [if_neg hdir]
    · rw [if_neg hdir, if_neg hdir]
      rfl

theorem checkRequest_fault {req : Req} (hlen : req.physicalPath.length ≤ server.maxPath)
    (hfinished : req.finished = false) (hupgrading : req.upgrading = false)
    (h : ¬Fits server stat req) : checkRequest server stat req = .error .fault := by
  rw [Fits, Classical.not_imp] at h
  simp only [checkRequest, hfinished, hupgrading, safecopy_of_length_le hlen,
    Bool.false_eq_true, if_false]
  rw [if_pos h.1, openDirectory_fault hlen h.2]
  rfl

/-- Neither the slash nor an index file behind a resolved path leads up. -/
theorem ups_target {req : Req} (hnames : NamesClean server.indexFileName)
    (hclean : Clean server req.physicalPath) :
    ups slash dotdot (target server stat req) = 0 := by
  rw [target]
  split
  · have hdir : ups slash dotdot (withSlash req.physicalPath) = 0 := by
      rw [withSlash]
      split
      · exact hclean.ups_eq
      · rw [Paths.ups_concat_sep dotdot_ne_nil, hclean.ups_eq]
    rw [Paths.ups_append_of_closed dotdot_ne_nil (getLast?_withSlash _), hdir,
      Nat.zero_add]
    cases hfirst : firstIndex stat (withSlash req.physicalPath) server.indexFileName with
    | none => exact ups_dotdot_nil
    | some name => exact hnames name (List.mem_of_find?_eq_some hfirst)
  · exact hclean.ups_eq

/-- A request that `get_req` accepts is served from below the root, or not at all, exactly when
the comparison with the root would not need to look at the case of a letter. -/
theorem checkRequest_confined {reqLine : Str} {hosts : List Str} {isRedir : Bool}
    {start req : Req} (hnames : NamesClean server.indexFileName)
    (hreq : getReq server stat reqLine hosts isRedir start = .ok req) :
    Confined server (checkRequest server stat req) ↔
      req.finished ∨ req.upgrading ∨ (Fits server stat req ∧ SameCase server stat req) := by
  have hclean := getReq_clean hnames hreq
  cases hfinished : req.finished with
  | true => simp [Confined, checkRequest, hfinished]
  | false =>
      cases hupgrading : req.upgrading with
      | true => simp [Confined, checkRequest, hfinished, hupgrading]
      | false =>
          by_cases hfits : Fits server stat req
          · obtain ⟨served, hpath, hcheck⟩ :=
              checkRequest_eq hclean.length_le hfinished hupgrading hfits
            have hbelow : Below slash dotdot server.rootDir (target server stat req) ↔
                server.rootDir <+: target server stat req :=
              Paths.below_iff dotdot_ne_nil server.rootDir_closed (ups_target hnames hclean)
            simp only [Bool.false_eq_true, false_or, hfits, true_and, SameCase, hcheck]
            constructor
            · rintro ⟨-, hserved⟩ htest
              rw [if_pos htest] at hserved
              rw [← hbelow, ← hpath]
              exact hserved served rfl
            · intro hcase
              split
              · case isTrue htest =>
                  refine ⟨by simp, fun served' heq ↦ ?_⟩
                  cases heq
                  rw [hpath, hbelow]
                  exact hcase htest
              · exact ⟨by simp, by simp⟩
          · simp [Confined, hfits,
              checkRequest_fault hclean.length_le hfinished hupgrading hfits]

/-! ## A request that leaves the root -/

/-- The root is `/r/`. -/
def smallServer : Server where
  rootDir := [47, 114, 47]
  hostName := [104]
  indexFileName := []
  virtualHosts := false
  maxPath := 4096
  env := ⟨some [47], none⟩
  rootDir_absolute := rfl
  rootDir_closed := rfl
  rootDir_fits := by decide

def noRequest : Req := ⟨[], [], [], [], [], false, false, false, false, .noLocation⟩

/-- There is a directory `/r` with a file `x`, and another `/R` with a file `x`. -/
def twoRoots (name : Str) : Option Bool :=
  if name = [47, 114, 47, 120] ∨ name = [47, 82, 47, 120] then some false
  else if name = [47, 114] ∨ name = [47, 82] then some true
  else none

/-- What `/../R/x` asks for. -/
def upRequest : Req :=
  { noRequest with
    virtualPath := [47, 46, 46, 47, 82, 47, 120]
    physicalPath := [47, 82, 47, 120]
    host := [104]
    vhost := [104] }

theorem getReq_upRequest :
    getReq smallServer twoRoots [47, 46, 46, 47, 82, 47, 120, 32] [] false noRequest =
      .ok upRequest := by
  decide +kernel

/-- The file served for `/../R/x` lies beside the root `/r/`. -/
theorem checkRequest_beside_root :
    getReq smallServer twoRoots [47, 46, 46, 47, 82, 47, 120, 32] [] false noRequest =
        .ok upRequest ∧
      ¬Confined smallServer (checkRequest smallServer twoRoots upRequest) := by
  refine ⟨getReq_upRequest, fun h ↦ ?_⟩
  have hserved : checkRequest smallServer twoRoots upRequest =
      .ok (some ⟨[47, 82, 47, 120], false, upRequest⟩) := by decide +kernel
  obtain ⟨q, hq, -⟩ := h.2 _ hserved
  have hpre : ([47, 114, 47] : Str) <+: [47, 82, 47, 120] := ⟨q, hq.symm⟩
  exact absurd hpre (by decide)

theorem checkRequest_confined_up :
    Confined smallServer (checkRequest smallServer twoRoots upRequest) ↔
      upRequest.finished ∨ upRequest.upgrading ∨
        (Fits smallServer twoRoots upRequest ∧ SameCase smallServer twoRoots upRequest) :=
  checkRequest_confined (fun _ hname ↦ absurd hname List.not_mem_nil) getReq_upRequest

end Synchronet.Sbbs3.WebSrvr
