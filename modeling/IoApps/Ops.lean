import IoApps.Lib.Reader
import Mathlib.Data.List.TakeWhile

/-! The recorded operations. A list element is the pair of a type tag and the record the
tag announces; `Op` is the list element whose tag and record agree. -/
namespace IoApps
open Lib (Bytes)

def MAX_STRING : Nat := 512
def MODE_UNDEF : UInt32 := UInt32.ofNat (2^32 - 666)
def OFFSET_INVAL : Int64 := -1

-- A path as it stands in `char name[MAX_STRING]`: the bytes before the terminating NUL.
structure CName where
  bytes : Bytes
  noNul : 0 ∉ bytes
  fits : bytes.length < MAX_STRING
  deriving DecidableEq, Repr

theorem nameOf {a b : CName} (same : a.bytes = b.bytes) : a = b := by
  cases a
  cases b
  cases same
  rfl

-- What strncpy leaves of a NUL-terminated buffer.
def CName.copy (buff : Bytes) (fits : buff.length < MAX_STRING) : CName where
  bytes := buff.takeWhile (· ≠ 0)
  noNul := fun h => by simpa using List.mem_takeWhile_imp h
  fits := Nat.lt_of_le_of_lt (List.takeWhile_prefix _).length_le fits

theorem CName.copyExact (name : CName) : CName.copy name.bytes name.fits = name := by
  have same : name.bytes.takeWhile (· ≠ 0) = name.bytes := by
    rw [List.takeWhile_eq_self_iff]
    intro b member
    have differs : b ≠ 0 := fun zero => name.noNul (zero ▸ member)
    simpa using differs
  cases name
  simp only [copy,CName.mk.injEq]
  exact same

structure Int32Timeval where
  tvSec : Int32
  tvUsec : Int32
  deriving DecidableEq, Repr

structure OpInfo where
  pid : Int32
  dur : Int32
  start : Int32Timeval
  deriving DecidableEq, Repr

structure ReadOp where
  fd : Int32
  size : Int64
  retval : Int64
  info : OpInfo
  deriving DecidableEq, Repr

structure WriteOp where
  fd : Int32
  size : Int64
  retval : Int64
  info : OpInfo
  deriving DecidableEq, Repr

structure PreadOp where
  fd : Int32
  size : Int64
  offset : Int64
  retval : Int64
  info : OpInfo
  deriving DecidableEq, Repr

structure PwriteOp where
  fd : Int32
  size : Int64
  offset : Int64
  retval : Int64
  info : OpInfo
  deriving DecidableEq, Repr

structure PipeOp where
  fd1 : Int32
  fd2 : Int32
  mode : UInt32
  retval : Int32
  info : OpInfo
  deriving DecidableEq, Repr

structure MkdirOp where
  name : CName
  mode : UInt32
  retval : Int32
  info : OpInfo
  deriving DecidableEq, Repr

structure RmdirOp where
  name : CName
  retval : Int32
  info : OpInfo
  deriving DecidableEq, Repr

structure CloneOp where
  mode : UInt32
  retval : Int32
  info : OpInfo
  deriving DecidableEq, Repr

structure DupOp where
  newFd : Int32
  oldFd : Int32
  flags : Int32
  retval : Int32
  info : OpInfo
  deriving DecidableEq, Repr

structure OpenOp where
  name : CName
  flags : Int32
  mode : UInt32
  retval : Int32
  info : OpInfo
  deriving DecidableEq, Repr

structure CloseOp where
  fd : Int32
  retval : Int32
  info : OpInfo
  deriving DecidableEq, Repr

structure UnlinkOp where
  name : CName
  retval : Int32
  info : OpInfo
  deriving DecidableEq, Repr

structure LlseekOp where
  fd : Int32
  offset : Int64
  fOffset : Int64
  flag : Int32
  retval : Int64
  info : OpInfo
  deriving DecidableEq, Repr

structure LseekOp where
  fd : Int32
  flag : Int32
  offset : Int64
  retval : Int64
  info : OpInfo
  deriving DecidableEq, Repr

structure AccessOp where
  name : CName
  mode : UInt32
  retval : Int32
  info : OpInfo
  deriving DecidableEq, Repr

structure StatOp where
  name : CName
  retval : Int32
  info : OpInfo
  deriving DecidableEq, Repr

structure SocketOp where
  retval : Int32
  info : OpInfo
  deriving DecidableEq, Repr

structure SendfileOp where
  outFd : Int32
  inFd : Int32
  offset : Int64
  size : Int64
  retval : Int64
  info : OpInfo
  deriving DecidableEq, Repr

inductive OpType where
  | write | pwrite | read | pread | access | unknown | close | «open» | creat | unlink
  | lseek | llseek | pipe | dup | dup2 | dup3 | mkdir | rmdir | mmap | clone | socket
  | stat | sendfile | fcntl
  deriving DecidableEq, Repr

-- The OP_* characters of common.h.
def OpType.code : OpType → Int8
  | .write => 119
  | .pwrite => 87
  | .read => 114
  | .pread => 80
  | .access => 97
  | .unknown => 63
  | .close => 99
  | .open => 111
  | .creat => 82
  | .unlink => 117
  | .lseek => 108
  | .llseek => 76
  | .pipe => 112
  | .dup => 100
  | .dup2 => 68
  | .dup3 => 101
  | .mkdir => 77
  | .rmdir => 105
  | .mmap => 109
  | .clone => 67
  | .socket => 83
  | .stat => 115
  | .sendfile => 116
  | .fcntl => 102

def OpType.all : List OpType :=
  [.write,.pwrite,.read,.pread,.access,.unknown,.close,.open,.creat,.unlink,.lseek,.llseek,
    .pipe,.dup,.dup2,.dup3,.mkdir,.rmdir,.mmap,.clone,.socket,.stat,.sendfile,.fcntl]

def OpType.ofCode (c : Int8) : Option OpType := OpType.all.find? (fun t => t.code == c)

theorem ofCodeCode (t : OpType) : OpType.ofCode t.code = some t := by
  cases t <;> decide

theorem codeOfCode {c : Int8} {t : OpType} (h : OpType.ofCode c = some t) : t.code = c := by
  simpa using List.find?_some h

inductive Op where
  | write (o : WriteOp)
  | read (o : ReadOp)
  | pwrite (o : PwriteOp)
  | pread (o : PreadOp)
  | «open» (o : OpenOp)
  | close (o : CloseOp)
  | unlink (o : UnlinkOp)
  | lseek (o : LseekOp)
  | llseek (o : LlseekOp)
  | clone (o : CloneOp)
  | mkdir (o : MkdirOp)
  | rmdir (o : RmdirOp)
  | dup (o : DupOp)
  | dup2 (o : DupOp)
  | dup3 (o : DupOp)
  | pipe (o : PipeOp)
  | access (o : AccessOp)
  | stat (o : StatOp)
  | socket (o : SocketOp)
  | sendfile (o : SendfileOp)
  deriving DecidableEq, Repr

def Op.type : Op → OpType
  | .write _ => .write
  | .read _ => .read
  | .pwrite _ => .pwrite
  | .pread _ => .pread
  | .open _ => .open
  | .close _ => .close
  | .unlink _ => .unlink
  | .lseek _ => .lseek
  | .llseek _ => .llseek
  | .clone _ => .clone
  | .mkdir _ => .mkdir
  | .rmdir _ => .rmdir
  | .dup _ => .dup
  | .dup2 _ => .dup2
  | .dup3 _ => .dup3
  | .pipe _ => .pipe
  | .access _ => .access
  | .stat _ => .stat
  | .socket _ => .socket
  | .sendfile _ => .sendfile

def Op.info : Op → OpInfo
  | .write o => o.info
  | .read o => o.info
  | .pwrite o => o.info
  | .pread o => o.info
  | .open o => o.info
  | .close o => o.info
  | .unlink o => o.info
  | .lseek o => o.info
  | .llseek o => o.info
  | .clone o => o.info
  | .mkdir o => o.info
  | .rmdir o => o.info
  | .dup o => o.info
  | .dup2 o => o.info
  | .dup3 o => o.info
  | .pipe o => o.info
  | .access o => o.info
  | .stat o => o.info
  | .socket o => o.info
  | .sendfile o => o.info

/-- A list element as memory holds it: nothing forces the tag and the record to agree. -/
structure OpItem where
  type : OpType
  o : Op
  deriving DecidableEq, Repr

def Op.item (o : Op) : OpItem := ⟨o.type,o⟩

theorem itemInjective {a b : Op} (h : a.item = b.item) : a = b := congrArg OpItem.o h

end IoApps
