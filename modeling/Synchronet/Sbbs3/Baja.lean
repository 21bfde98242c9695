import Synchronet.Lib.LittleEndian
import Synchronet.Xpdev.Genwrap

/-!
# The Baja interpreter (exec.cpp, execmisc.cpp, cmdshell.h)

`exec` executes one instruction of a compiled command shell, and `skipto` passes over
instructions to the end of a block.  A pointer into the image is what is left of the image from
there on.  What the instructions without a part in the flow of control do to the rest of the
system is a parameter; how far they move `ip` is not.
-/

namespace Synchronet.Sbbs3.Baja

open LittleEndian Xpdev

/-! ## Instructions -/

abbrev CS_IF_TRUE : UInt8 := 0x00
abbrev CS_IF_FALSE : UInt8 := 0x01
abbrev CS_ELSE : UInt8 := 0x02
abbrev CS_ENDIF : UInt8 := 0x03
abbrev CS_CMD_HOME : UInt8 := 0x04
abbrev CS_CMD_POP : UInt8 := 0x05
abbrev CS_END_CMD : UInt8 := 0x06
abbrev CS_RETURN : UInt8 := 0x07
abbrev CS_GETKEYE : UInt8 := 0x09
abbrev CS_IF_GREATER : UInt8 := 0x26
abbrev CS_IF_GREATER_OR_EQUAL : UInt8 := 0x27
abbrev CS_IF_LESS : UInt8 := 0x28
abbrev CS_IF_LESS_OR_EQUAL : UInt8 := 0x29
abbrev CS_DEFAULT : UInt8 := 0x2a
abbrev CS_END_SWITCH : UInt8 := 0x2b
abbrev CS_END_CASE : UInt8 := 0x2c
abbrev CS_ONE_MORE_BYTE : UInt8 := 0x2f

abbrev CS_TWO_BYTE : UInt8 := 0x30
abbrev CS_CMDKEY : UInt8 := 0x30
abbrev CS_CMDCHAR : UInt8 := 0x3c
abbrev CS_TWO_MORE_BYTES : UInt8 := 0x3f

abbrev CS_THREE_BYTE : UInt8 := 0x40
abbrev CS_GOTO : UInt8 := 0x40
abbrev CS_CALL : UInt8 := 0x41
abbrev CS_REVERT_TEXT : UInt8 := 0x49
abbrev CS_THREE_MORE_BYTES : UInt8 := 0x4f

abbrev CS_ASCIIZ : UInt8 := 0x50
abbrev CS_CMDSTR : UInt8 := 0x65
abbrev CS_CMDKEYS : UInt8 := 0x6b
abbrev CS_STR_FUNCTION : UInt8 := 0x6f

abbrev CS_MISC : UInt8 := 0x70
abbrev CS_COMPARE_ARS : UInt8 := 0x70
abbrev CS_REPLACE_TEXT : UInt8 := 0x73
abbrev CS_SWITCH : UInt8 := 0x78
abbrev CS_CASE : UInt8 := 0x79
abbrev CS_USE_INT_VAR : UInt8 := 0x7a
abbrev CS_NET_FUNCTION : UInt8 := 0x7d
abbrev CS_FIO_FUNCTION : UInt8 := 0x7e
abbrev CS_VAR_INSTRUCTION : UInt8 := 0x7f
abbrev CS_FUNCTIONS : UInt8 := 0x80

/-- What `skipto` also looks for. -/
abbrev CS_NEXTCASE : UInt8 := 0xfe
abbrev CS_ELSEORENDIF : UInt8 := 0xff

/-! After `CS_ONE_MORE_BYTE`. -/

abbrev CS_EXIT : UInt8 := 5
abbrev CS_LOOP_BEGIN : UInt8 := 6
abbrev CS_CONTINUE_LOOP : UInt8 := 7
abbrev CS_BREAK_LOOP : UInt8 := 8
abbrev CS_END_LOOP : UInt8 := 9

/-- The keys of `CS_CMDKEY` that stand for digits. -/
abbrev CS_EDIGIT : UInt8 := 0xfe
abbrev CS_DIGIT : UInt8 := 0xff

def isIf (op : UInt8) : Bool :=
  op = CS_IF_TRUE ∨ op = CS_IF_FALSE ∨ (CS_IF_GREATER ≤ op ∧ op ≤ CS_IF_LESS_OR_EQUAL)

/-- `CS_TOGGLE_USER_MISC` to `CS_COMPARE_USER_QWK`. -/
def isUserMisc (op : UInt8) : Bool := op ∈ ([0x71, 0x72, 0x74, 0x75, 0x76, 0x77] : List UInt8)

/-! ## Operands -/

/-- Some bytes, a string, a count with so many names of variables, and more bytes. -/
structure Operands where
  before : ℕ := 0
  string : Bool := false
  args : Bool := false
  after : ℕ := 0
  deriving DecidableEq

/-- `while(*(csi->ip++));`, which must not leave the image. -/
def skipString : List UInt8 → Option (List UInt8)
  | [] => none
  | c :: code => if c = 0 then some code else skipString code

/-- `csi->ip+=n`, which may leave the image. -/
def Operands.skip (o : Operands) (code : List UInt8) : Option (List UInt8) :=
  (if o.string then skipString (code.drop o.before) else some (code.drop o.before)).bind fun c ↦
    (if o.args then c.head?.map fun n ↦ c.drop (1 + 4 * n.toNat) else some c).map fun c ↦
      c.drop o.after

/-- What is read must be in the image. -/
def readBytes (n : ℕ) (code : List UInt8) : Option (List UInt8) :=
  if n ≤ code.length then some (code.drop n) else none

def Operands.read (o : Operands) (code : List UInt8) : Option (List UInt8) :=
  (readBytes o.before code).bind fun c ↦
    (if o.string then skipString c else some c).bind fun c ↦
      (if o.args then c.head?.bind fun n ↦ readBytes (1 + 4 * n.toNat) c else some c).bind fun c ↦
        readBytes o.after c

/-- After `CS_VAR_INSTRUCTION` in `skipto`. -/
def varSkip (sub : UInt8) : Operands :=
  -- SHOW_VARS
  if sub = 0x00 then {}
  -- PRINT_VAR, DEFINE_*, TIME_INT_VAR, STRUPR_VAR, STRLWR_VAR, TRUNCSP_STR_VAR, CHKFILE_VAR,
  -- COPY_CHAR, STRIP_CTRL_STR_VAR
  else if sub ∈ ([0x01, 0x07, 0x08, 0x0d, 0x0e, 0x68, 0x35, 0x36, 0x76, 0x77, 0x85, 0x7b] :
    List UInt8) then { before := 4 }
  -- GETSTR_VAR, GETNAME_VAR, GETLINE_VAR, GETSTRUPR_VAR, SHIFT_STR_VAR, SEND_FILE_VIA_VAR,
  -- RECEIVE_FILE_VIA_VAR, COMPARE_FIRST_CHAR, SHIFT_TO_FIRST_CHAR, SHIFT_TO_LAST_CHAR
  else if sub ∈ ([0x70, 0x71, 0x73, 0x72, 0x74, 0x7d, 0x80, 0x84, 0x86, 0x87] : List UInt8) then
    { before := 4 + 1 }
  -- PRINTTAIL_VAR_MODE, and PRINTFILE_VAR_MODE, GETNUM_VAR
  else if sub = 0x79 then { before := 1 + 4 + 2 }
  else if sub ∈ ([0x78, 0x6f] : List UInt8) then { before := 4 + 2 }
  -- STRNCMP_VAR, and SET_STR_VAR, COMPARE_STR_VAR, CAT_STR_VAR, STRSTR_VAR, TELNET_GATE_STR
  else if sub = 0x1b then { before := 1 + 4, string := true }
  else if sub ∈ ([0x13, 0x19, 0x2e, 0x1c, 0x81] : List UInt8) then { before := 4, string := true }
  -- FORMAT_TIME_STR
  else if sub = 0x33 then { before := 4, string := true, after := 4 }
  -- FORMAT_STR_VAR, and VAR_PRINTF, VAR_PRINTF_LOCAL
  else if sub = 0x30 then { before := 4, string := true, args := true }
  else if sub ∈ ([0x02, 0x03] : List UInt8) then { string := true, args := true }
  -- SEND_FILE_VIA, RECEIVE_FILE_VIA
  else if sub ∈ ([0x7c, 0x7f] : List UInt8) then { before := 1, string := true }
  -- GETSTR_MODE, STRNCMP_VARS
  else if sub ∈ ([0x75, 0x20] : List UInt8) then { before := 1 + 8 }
  else { before := 8 }

/-- After `CS_FIO_FUNCTION` in `skipto`. -/
def fioSkip (sub : UInt8) : Operands :=
  -- FIO_OPEN
  if sub = 0x00 then { before := 4 + 2, string := true }
  -- FIO_CLOSE, FIO_FLUSH, FIO_EOF, REMOVE_FILE, REMOVE_DIR, CHANGE_DIR, MAKE_DIR, REWIND_DIR,
  -- CLOSE_DIR
  else if sub ∈ ([0x01, 0x17, 0x07, 0x20, 0x28, 0x27, 0x26, 0x2b, 0x2c] : List UInt8) then
    { before := 4 }
  -- FIO_SET_ETX
  else if sub = 0x12 then { before := 1 }
  -- FIO_PRINTF
  else if sub = 0x11 then { before := 4, string := true, args := true }
  -- FIO_READ, FIO_WRITE, FIO_SEEK, FIO_SEEK_VAR, FIO_OPEN_VAR
  else if sub ∈ ([0x02, 0x04, 0x09, 0x0a, 0x15] : List UInt8) then { before := 4 + 4 + 2 }
  -- FIO_READ_VAR, FIO_WRITE_VAR
  else if sub ∈ ([0x03, 0x05] : List UInt8) then { before := 4 + 4 + 4 }
  else { before := 4 + 4 }

/-- After `CS_NET_FUNCTION` in `skipto`. -/
def netSkip (sub : UInt8) : Operands :=
  -- CS_SOCKET_CONNECT, and CS_SOCKET_READ, CS_SOCKET_READLINE, CS_SOCKET_PEEK
  if sub ∈ ([0x02, 0x06, 0x09, 0x05] : List UInt8) then { before := 4 + 4 + 2 }
  -- CS_SOCKET_NREAD, CS_SOCKET_WRITE
  else if sub ∈ ([0x04, 0x07] : List UInt8) then { before := 4 + 4 }
  -- CS_FTP_LOGIN, CS_FTP_GET, CS_FTP_PUT, CS_FTP_RENAME
  else if sub ∈ ([0x10, 0x16, 0x15, 0x17] : List UInt8) then { before := 4 + 4 + 4 }
  -- CS_FTP_DIR, CS_FTP_CWD, CS_FTP_DELETE
  else if sub ∈ ([0x14, 0x13, 0x18] : List UInt8) then { before := 4 + 4 }
  else { before := 4 }

/-- The operands that `exec_misc` reads after `CS_VAR_INSTRUCTION`.  `ADD_INT_VARS` and its like
may stop at an undefined variable and are left out, as are the numbers without an instruction. -/
def varOperands (sub : UInt8) : Option Operands :=
  -- SHOW_VARS
  if sub = 0x00 then some {}
  -- PRINT_VAR, DEFINE_*, STRUPR_VAR, STRLWR_VAR, TRUNCSP_STR_VAR, STRIP_CTRL_STR_VAR,
  -- TIME_INT_VAR, CHKFILE_VAR, COPY_CHAR
  else if sub ∈ ([0x01, 0x07, 0x08, 0x0d, 0x0e, 0x35, 0x36, 0x76, 0x7b, 0x68, 0x77, 0x85] :
    List UInt8) then some { before := 4 }
  -- VAR_PRINTF, VAR_PRINTF_LOCAL, and FORMAT_STR_VAR
  else if sub ∈ ([0x02, 0x03] : List UInt8) then some { string := true, args := true }
  else if sub = 0x30 then some { before := 4, string := true, args := true }
  -- SET_STR_VAR, COMPARE_STR_VAR, STRSTR_VAR, CAT_STR_VAR, TELNET_GATE_STR, and STRNCMP_VAR
  else if sub ∈ ([0x13, 0x19, 0x1c, 0x2e, 0x81] : List UInt8) then
    some { before := 4, string := true }
  else if sub = 0x1b then some { before := 1 + 4, string := true }
  -- STRNCMP_VARS, and GETSTR_MODE
  else if sub = 0x20 then some { before := 1 + 4 + 4 }
  else if sub = 0x75 then some { before := 4 + 1 + 4 }
  -- SET_INT_VAR, STRSTR_VARS, COMPARE_INT_VAR, COMPARE_VARS, COPY_VAR, SWAP_VARS, CAT_STR_VARS,
  -- TIME_STR, DATE_STR, SECOND_STR, TELNET_GATE_VAR, MATCHUSER
  else if sub ∈ ([0x14, 0x21, 0x1a, 0x1f, 0x24, 0x29, 0x2f, 0x31, 0x32, 0x34, 0x82, 0x88] :
    List UInt8) then some { before := 4 + 4 }
  -- ADD_INT_VAR to XOR_INT_VAR, COMPARE_ANY_BITS, COMPARE_ALL_BITS, RANDOM_INT_VAR
  else if sub ∈ ([0x37, 0x3d, 0x43, 0x49, 0x4b, 0x4f, 0x55, 0x5b, 0x61, 0x51, 0x52, 0x67] :
    List UInt8) then some { before := 4 + 4 }
  -- DATE_STR_TO_INT, STRLEN_INT_VAR, CRC16_TO_INT, CRC32_TO_INT, CHKSUM_TO_INT, FLENGTH_TO_INT,
  -- FTIME_TO_INT, CHARVAL_TO_INT, COPY_FIRST_CHAR
  else if sub ∈ ([0x69, 0x6a, 0x6b, 0x6c, 0x7a, 0x6d, 0x7e, 0x6e, 0x83] : List UInt8) then
    some { before := 4 + 4 }
  -- FORMAT_TIME_STR
  else if sub = 0x33 then some { before := 4, string := true, after := 4 }
  -- GETSTR_VAR, GETLINE_VAR, GETNAME_VAR, GETSTRUPR_VAR, SHIFT_STR_VAR, SHIFT_TO_FIRST_CHAR,
  -- SHIFT_TO_LAST_CHAR, COMPARE_FIRST_CHAR, and SEND_FILE_VIA_VAR, RECEIVE_FILE_VIA_VAR
  else if sub ∈ ([0x70, 0x73, 0x71, 0x72, 0x74, 0x86, 0x87, 0x84] : List UInt8) then
    some { before := 4 + 1 }
  else if sub ∈ ([0x7d, 0x80] : List UInt8) then some { before := 1 + 4 }
  -- GETNUM_VAR, PRINTFILE_VAR_MODE, and PRINTTAIL_VAR_MODE
  else if sub ∈ ([0x6f, 0x78] : List UInt8) then some { before := 4 + 2 }
  else if sub = 0x79 then some { before := 4 + 2 + 1 }
  -- SEND_FILE_VIA, RECEIVE_FILE_VIA
  else if sub ∈ ([0x7c, 0x7f] : List UInt8) then some { before := 1, string := true }
  else none

/-! ## Passing over instructions -/

/-- What `skipto` passes over behind an instruction of one byte whose operands do not depend on a
second byte. -/
def fixedSkip (op : UInt8) : Operands :=
  if op ≥ CS_FUNCTIONS then {}
  else if isUserMisc op then { before := 4 }
  else if op = CS_REPLACE_TEXT then { before := 2, string := true }
  else if op = CS_USE_INT_VAR then { before := 6 }
  else if op ≥ CS_MISC then {}
  else if op = CS_TWO_MORE_BYTES then { before := 2 }
  else if op = CS_THREE_MORE_BYTES then { before := 3 }
  else if op = CS_STR_FUNCTION then { before := 1, string := true }
  else if op ≥ CS_ASCIIZ then { string := true }
  else if op ≥ CS_THREE_BYTE then { before := 2 }
  else if op ≥ CS_TWO_BYTE then { before := 1 }
  else {}

/-- `skipto` at an instruction that begins and ends no block. -/
def skipInstr (op : UInt8) (code : List UInt8) : Option (List UInt8) :=
  if op = CS_VAR_INSTRUCTION then code.head?.bind fun sub ↦ (varSkip sub).skip (code.drop 1)
  else if op = CS_FIO_FUNCTION then code.head?.bind fun sub ↦ (fioSkip sub).skip (code.drop 1)
  else if op = CS_NET_FUNCTION then code.head?.bind fun sub ↦ (netSkip sub).skip (code.drop 1)
  else if op = CS_COMPARE_ARS then code.head?.map fun n ↦ code.drop (1 + n.toNat)
  else (fixedSkip op).skip code

/-- `skipto` has come to what it looks for. -/
def stops (inst op : UInt8) : Bool :=
  (inst &&& 0x80 = 0 ∧ op = inst) ∨
    (inst = CS_ELSEORENDIF ∧ (op = CS_ELSE ∨ op = CS_ENDIF)) ∨
    (inst = CS_NEXTCASE ∧ (op = CS_CASE ∨ op = CS_DEFAULT ∨ op = CS_END_SWITCH))

/-- The kinds of instructions that `skipto` tells apart. -/
inductive Kind
  | conditional
  | switch
  | case
  | cmdkey
  | cmdstr
  | oneMoreByte
  | other
  deriving DecidableEq

def kind (op : UInt8) : Kind :=
  if isIf op then .conditional
  else if op = CS_SWITCH then .switch
  else if op = CS_CASE then .case
  else if op = CS_CMDKEY ∨ op = CS_CMDCHAR then .cmdkey
  else if op = CS_CMDSTR ∨ op = CS_CMDKEYS then .cmdstr
  else if op = CS_ONE_MORE_BYTE then .oneMoreByte
  else .other

/-- The body of the loop in `skipto`, which may call `skipto` for an inner block and goes on with
`call inst`. -/
def skiptoTurn (call : UInt8 → List UInt8 → Option (List UInt8)) (inst op : UInt8)
    (code : List UInt8) : Option (List UInt8) :=
  if stops inst op then some (op :: code)
  else
    match kind op with
    | .conditional => (call CS_ENDIF code).bind fun c ↦ call inst (c.drop 1)
    | .switch => (call CS_END_SWITCH (code.drop 4)).bind fun c ↦ call inst (c.drop 1)
    | .case => (call CS_NEXTCASE (code.drop 4)).bind fun c ↦ call inst c
    | .cmdkey => (call CS_END_CMD (code.drop 1)).bind fun c ↦ call inst (c.drop 1)
    | .cmdstr =>
        (skipString code).bind fun c ↦ (call CS_END_CMD c).bind fun c ↦ call inst (c.drop 1)
    | .oneMoreByte =>
        code.head?.bind fun sub ↦
          if inst = CS_END_LOOP ∧ sub = CS_END_LOOP then some (op :: code)
          else if sub = CS_LOOP_BEGIN then
            (call CS_END_LOOP (code.drop 1)).bind fun c ↦ call inst (c.drop 2)
          else call inst (code.drop 1)
    | .other => (skipInstr op code).bind fun c ↦ call inst c

/-- `skipto` with a bound on the turns of its loop and the calls in them.  `none` is a read outside
the image. -/
def skipto : ℕ → UInt8 → List UInt8 → Option (List UInt8)
  | 0, _, _ => none
  | _ + 1, _, [] => some []
  | fuel + 1, inst, op :: code => skiptoTurn (skipto fuel) inst op code

/-- Every turn and every call passes over a byte at least. -/
def skip (inst : UInt8) (code : List UInt8) : Option (List UInt8) :=
  skipto (code.length + 1) inst code

/-! ## Execution -/

/-- The part of `csi_t` that the flow of control reads. -/
structure Csi (ε : Type*) where
  cs : List UInt8
  ip : List UInt8
  ret : List (List UInt8)
  cmdret : List (List UInt8)
  loopHome : List (List UInt8)
  inSwitch : Bool
  switchVal : Int32
  env : ε

/-- The rest of the system: `csi->logic`, `csi->cmd` and `csi->str`, the integer variables by
name, and what the other instructions do to it. -/
structure Shell (ε : Type*) where
  logic : ε → ℤ
  cmd : ε → UInt8
  str : ε → Str
  getintvar : UInt32 → ε → Option Int32
  run : List UInt8 → ε → ε

/-- `CS_IF_TRUE` to `CS_IF_LESS_OR_EQUAL`. -/
def ifHolds (op : UInt8) (logic : ℤ) : Bool :=
  if op = CS_IF_TRUE then logic = 0
  else if op = CS_IF_FALSE then logic ≠ 0
  else if op = CS_IF_GREATER then logic = 1
  else if op = CS_IF_GREATER_OR_EQUAL then logic = 1 ∨ logic = 0
  else if op = CS_IF_LESS then logic = -1
  else logic = -1 ∨ logic = 0

/-- The operands that `exec` reads behind an instruction of one byte that has no part in the flow
of control. -/
def fixedOperands (op : UInt8) : Option Operands :=
  if op ≥ CS_FUNCTIONS then some {}
  else if isUserMisc op then some { before := 4 }
  else if op = CS_REPLACE_TEXT then some { before := 2, string := true }
  else if op ≥ CS_MISC then none
  else if op = CS_STR_FUNCTION then some { before := 1, string := true }
  else if op = CS_CMDSTR ∨ op = CS_CMDKEYS then none
  else if op ≥ CS_ASCIIZ then some { string := true }
  else if op = CS_GOTO ∨ op = CS_CALL ∨ op > CS_REVERT_TEXT then none
  else if op ≥ CS_THREE_BYTE then some { before := 2 }
  else if op = CS_CMDKEY ∨ op = CS_CMDCHAR ∨ op = CS_TWO_MORE_BYTES then none
  else if op ≥ CS_TWO_BYTE then some { before := 1 }
  else if isIf op ∨ op ∈ ([CS_ELSE, CS_ENDIF, CS_CMD_HOME, CS_CMD_POP, CS_END_CMD, CS_RETURN,
    CS_DEFAULT, CS_END_SWITCH, CS_END_CASE, CS_ONE_MORE_BYTE] : List UInt8) then none
  else some {}

/-- What is left after an instruction without a part in the flow of control, as `exec` and the
functions it calls move `ip`. -/
def instrRest : List UInt8 → Option (List UInt8)
  | [] => none
  | op :: code =>
      if op = CS_VAR_INSTRUCTION then
        code.head?.bind fun sub ↦ (varOperands sub).bind fun o ↦ o.read (code.drop 1)
      else if op = CS_COMPARE_ARS then code.head?.bind fun n ↦ readBytes (1 + n.toNat) code
      else if op = CS_TWO_MORE_BYTES then
        code.head?.bind fun sub ↦ if sub = 0 then readBytes 2 code else none
      else if op = CS_ONE_MORE_BYTE then
        code.head?.bind fun sub ↦
          if CS_EXIT ≤ sub ∧ sub ≤ CS_END_LOOP then none else readBytes 1 code
      else (fixedOperands op).bind fun o ↦ o.read code

/-- The `ushort` behind `CS_GOTO` and `CS_CALL`. -/
def address (code : List UInt8) : Option ℕ :=
  if 2 ≤ code.length then some (field code 0 2) else none

/-- The name behind `CS_SWITCH`, and the number behind `CS_CASE`. -/
def word (code : List UInt8) : UInt32 := UInt32.ofNat (field code 0 4)

variable {ε : Type*}

/-- The instructions after `CS_ONE_MORE_BYTE` that direct the flow of control. -/
def execLoop (m : Csi ε) (sub : UInt8) (code : List UInt8) : Option (Csi ε × Bool) :=
  if sub = CS_EXIT then some ({ m with ip := code }, true)
  else if sub = CS_LOOP_BEGIN then
    some ({ m with
      ip := code
      -- the address of the second byte, not of `CS_ONE_MORE_BYTE`
      loopHome := if m.loopHome.length < 50 then (sub :: code) :: m.loopHome
        else m.loopHome }, false)
  else if sub = CS_BREAK_LOOP then
    if m.loopHome = [] then some ({ m with ip := code }, false)
    else (skip CS_END_LOOP code).map fun c ↦
      ({ m with ip := c.drop 2, loopHome := m.loopHome.tail }, false)
  else some ({ m with ip := m.loopHome.head?.getD code }, false)

/-- The two-byte instructions and those with a string that open a command. -/
def execCmd (sh : Shell ε) (m : Csi ε) (op : UInt8) (code : List UInt8) :
    Option (Csi ε × Bool) :=
  let cmd := sh.cmd m.env
  if op = CS_CMDKEY ∨ op = CS_CMDCHAR then
    code.head?.bind fun key ↦
      if op = CS_CMDKEY ∧ ((key = CS_DIGIT ∧ isdigit cmd) ∨
          (key = CS_EDIGIT ∧ cmd &&& 0x80 ≠ 0 ∧ isdigit (cmd &&& 0x7f))) ∨ cmd = key then
        some ({ m with ip := code.drop 1 }, false)
      else (skip CS_END_CMD (code.drop 1)).map fun c ↦ ({ m with ip := c.drop 1 }, false)
  else
    (skipString code).bind fun rest ↦
      let s := code.takeWhile (· ≠ 0)
      if if op = CS_CMDSTR then stricmp (sh.str m.env) s else cmd ∈ s then
        some ({ m with ip := rest }, false)
      else (skip CS_END_CMD rest).map fun c ↦ ({ m with ip := c.drop 1 }, false)

/-- One call of `exec`, with whether it returned 1; `none` for a read outside the image and for
the instructions that are left out. -/
def exec (sh : Shell ε) (m : Csi ε) : Option (Csi ε × Bool) :=
  match m.ip with
  | [] => some (m, true)
  | op :: code =>
      if isIf op then
        if ifHolds op (sh.logic m.env) then some ({ m with ip := code }, false)
        else (skip CS_ELSEORENDIF code).map fun c ↦ ({ m with ip := c.drop 1 }, false)
      else if op = CS_ELSE then
        (skip CS_ENDIF code).map fun c ↦ ({ m with ip := c.drop 1 }, false)
      else if op = CS_ENDIF then some ({ m with ip := code }, false)
      else if op = CS_END_CASE then
        (skip CS_END_SWITCH code).map fun c ↦ ({ m with ip := c.drop 1, inSwitch := false }, false)
      else if op = CS_DEFAULT ∨ op = CS_END_SWITCH then
        some ({ m with ip := code, inSwitch := false }, false)
      else if op = CS_SWITCH then
        (readBytes 4 code).bind fun rest ↦
          match sh.getintvar (word code) m.env with
          | none => (skip CS_END_SWITCH rest).map fun c ↦ ({ m with ip := c.drop 1 }, false)
          | some v => some ({ m with ip := rest, inSwitch := true, switchVal := v }, false)
      else if op = CS_CASE then
        (readBytes 4 code).bind fun rest ↦
          if m.inSwitch ∧ m.switchVal ≠ (word code).toInt32 then
            (skip CS_NEXTCASE rest).map fun c ↦ ({ m with ip := c }, false)
          else some ({ m with ip := rest, inSwitch := false }, false)
      else if op = CS_CMD_HOME then
        some ({ m with
          ip := code
          cmdret := if m.cmdret.length < 50 then (op :: code) :: m.cmdret else m.cmdret }, false)
      else if op = CS_CMD_POP then some ({ m with ip := code, cmdret := m.cmdret.tail }, false)
      else if op = CS_END_CMD then
        some ({ m with ip := m.cmdret.head?.getD code, cmdret := m.cmdret.tail }, false)
      else if op = CS_RETURN then
        match m.ret with
        | [] => some ({ m with ip := code }, true)
        | home :: ret => some ({ m with ip := home, ret := ret }, false)
      else if op = CS_GOTO then
        (address code).map fun a ↦ ({ m with ip := m.cs.drop a }, false)
      else if op = CS_CALL then
        if m.ret.length < 50 then
          (address code).map fun a ↦
            ({ m with ip := m.cs.drop a, ret := code.drop 2 :: m.ret }, false)
        else some ({ m with ip := code }, false)
      else if op = CS_CMDKEY ∨ op = CS_CMDCHAR ∨ op = CS_CMDSTR ∨ op = CS_CMDKEYS then
        execCmd sh m op code
      else
        match instrRest (op :: code) with
        | some rest =>
            let instr := (op :: code).take (code.length + 1 - rest.length)
            some ({ m with ip := rest, env := sh.run instr m.env }, false)
        | none =>
            if op = CS_ONE_MORE_BYTE then
              code.head?.bind fun sub ↦ execLoop m sub (code.drop 1)
            else none

end Synchronet.Sbbs3.Baja
