import IoApps.Lib.Scanf
import IoApps.Replicate

/-! The reader of strace output. A line is the bytes before its terminating NUL; a pointer into
it is the part of the line behind the pointer. -/
namespace IoApps.Strace
open Lib (Bytes Prog tokens strstr ascii isSpace Directive Arg sscanf atoi signed)

def MAX_TIME_STRING : Nat := 20
def MAX_OPERATION : Nat := 30

def O_RDONLY : Int32 := 0
def O_WRONLY : Int32 := 1
def O_NOCTTY : Int32 := 0x100
def O_TRUNC : Int32 := 0x200
def O_APPEND : Int32 := 0x400
def O_NONBLOCK : Int32 := 0x800
def O_NDELAY : Int32 := O_NONBLOCK
def O_ASYNC : Int32 := 0x2000
def O_DIRECT : Int32 := 0x4000
-- Zero where off_t has 64 bits anyway.
def O_LARGEFILE : Int32 := 0
def O_NOFOLLOW : Int32 := 0x20000
def O_NOATIME : Int32 := 0x40000
def O_CLOEXEC : Int32 := 0x80000
def O_SYNC : Int32 := 0x101000
def SEEK_SET : Int32 := 0
def SEEK_CUR : Int32 := 1
def SEEK_END : Int32 := 2
def F_OK : UInt32 := 0
def X_OK : UInt32 := 1
def W_OK : UInt32 := 2
def R_OK : UInt32 := 4

def newline : UInt8 := 10
def blank : UInt8 := 32
def quote : UInt8 := 34
def lparen : UInt8 := 40
def rparen : UInt8 := 41
def comma : UInt8 := 44
def lt : UInt8 := 60
def eq : UInt8 := 61
def gt : UInt8 := 62
def lbracket : UInt8 := 91
def backslash : UInt8 := 92
def bar : UInt8 := 124

inductive StraceFault where
  | overrun | timeOverrun | mergeOverrun | beyond | unset | assertion | depth
  deriving DecidableEq, Repr

def openFlags : List (Bytes × Int32) :=
  [(ascii "O_APPEND",O_APPEND),(ascii "O_RDONLY",O_RDONLY),(ascii "O_WRONLY",O_WRONLY),
    (ascii "O_RDWR",O_RDWR),(ascii "O_ASYNC",O_ASYNC),(ascii "O_CLOEXEC",0),
    (ascii "O_CREAT",O_CREAT),(ascii "O_DIRECT",O_DIRECT),(ascii "O_DIRECTORY",O_DIRECTORY),
    (ascii "O_LARGEFILE",O_LARGEFILE),(ascii "O_NOATIME",O_NOATIME),
    (ascii "O_NOFOLLOW",O_NOFOLLOW),(ascii "O_NOCTTY",O_NOCTTY),(ascii "O_EXCL",O_EXCL),
    (ascii "O_NONBLOCK",O_NONBLOCK),(ascii "O_NDELAY",O_NDELAY),(ascii "O_SYNC",O_SYNC),
    (ascii "O_TRUNC",O_TRUNC)]

def accessFlags : List (Bytes × UInt32) :=
  [(ascii "F_OK",F_OK),(ascii "R_OK",R_OK),(ascii "W_OK",W_OK),(ascii "X_OK",X_OK)]

def seekFlags : List (Bytes × Int32) :=
  [(ascii "SEEK_SET",SEEK_SET),(ascii "SEEK_CUR",SEEK_CUR),(ascii "SEEK_END",SEEK_END)]

-- A chain of strcmp that ends in zero.
def readFlag {α : Type} (zero : α) (table : List (Bytes × α)) (s : Bytes) : α :=
  match table.find? (·.1 == s) with
  | some entry => entry.2
  | none => zero

def readOpenFlag (s : Bytes) : Int32 := readFlag 0 openFlags s
def readAccessFlag (s : Bytes) : UInt32 := readFlag 0 accessFlags s
def readSeekFlag (s : Bytes) : Int32 := readFlag 0 seekFlags s
def readCloneFlag (s : Bytes) : UInt32 := if s = ascii "CLONE_FILES" then CLONE_FILES else 0
def readDup3Flags (s : Bytes) : Int32 := if s = ascii "O_CLOEXEC" then O_CLOEXEC else 0

def readOpenFlags (str : Bytes) : Int32 :=
  (tokens bar str).foldl (fun flags s => flags ||| readOpenFlag s) 0

def readAccessFlags (str : Bytes) : UInt32 :=
  (tokens bar str).foldl (fun flags s => flags ||| readAccessFlag s) 0

def readCloneFlags (str : Bytes) : UInt32 :=
  (tokens bar str).foldl (fun flags s => flags ||| readCloneFlag s) 0

-- A number behind a second dot only causes a message.
def readTime (timestr : Bytes) : Int32Timeval :=
  match tokens dot timestr with
  | [] => ⟨0,0⟩
  | [s] => ⟨Int32.ofInt (atoi s),0⟩
  | s :: u :: _ => ⟨Int32.ofInt (atoi s),Int32.ofInt (atoi u)⟩

def readDuration (timestr : Bytes) : Int32 :=
  match tokens dot timestr with
  | [] => 0
  | [s] => Int32.ofInt (atoi s) * 1000000
  | s :: u :: _ => Int32.ofInt (atoi s) * 1000000 + Int32.ofInt (atoi u)

-- The white space and the literal characters of a format.
def lits (s : String) : List Directive :=
  (ascii s).map fun c => if isSpace c then .space else .lit c

def d : Directive := .number .decimal
def u : Directive := .number .decimal
def o : Directive := .number .octal
def i64 : Directive := .number .auto

-- "%d %s "
def stampFormat : List Directive := [d,.space,.word MAX_TIME_STRING,.space]

-- ") = %d%*[^<]<%[^>]"
def resultFormat (number : Directive) : List Directive :=
  lits ") = " ++ [number,.skip lt] ++ lits "<" ++ [.upto gt none MAX_TIME_STRING]

-- "%d %s %*[^(]("
def argsFormat : List Directive := stampFormat ++ [.skip lparen] ++ lits "("

-- "%d %s %*[^\"]\"%512[^\"]\""
def nameFormat : List Directive :=
  stampFormat ++ [.skip quote,.lit quote,.upto quote (some MAX_STRING) MAX_STRING,.lit quote]

abbrev Scan := Except StraceFault

def scan (format : List Directive) (s : Bytes) : Scan (List Arg) :=
  match sscanf format s with
  | .ok args => .ok args
  | .error room => .error (if room = MAX_STRING then .overrun else .timeOverrun)

def toName (text : Bytes) : Scan CName :=
  if fits : text.length < MAX_STRING then .ok (CName.copy text fits) else .error .overrun

def opInfo (pid : Int) (startTime dur : Bytes) : OpInfo :=
  ⟨Int32.ofInt pid,readDuration dur,readTime startTime⟩

def closingQuote : Bool → Bytes → Bytes
  | _,[] => []
  | back,c :: s =>
    if c = quote then if back then closingQuote false s else c :: s
    else if c = backslash then closingQuote (!back) s
    else closingQuote false s

def stracePosComma (line : Bytes) : Scan (Option Bytes) :=
  match line.dropWhile (· != quote) with
  | [] =>
    match strstr (ascii "NULL,") line with
    | some off => .ok (some (line.drop (off + 4)))
    | none => .ok none
  | _ :: s =>
    if line.head? = some quote then .ok none
    else
      match closingQuote false s with
      -- one character behind the NUL is looked at
      | [] => .error .beyond
      | [_] => .ok none
      | _ :: c :: r =>
        if c = dot then .ok (some ((c :: r).dropWhile (· != comma)))
        else if c = comma then .ok (some (c :: r))
        else .ok none

inductive Found where
  | failed | skipped
  | item (o : Op)
  deriving DecidableEq, Repr

-- The first portion of a call with data: " %d %s %*[^(](%d, "
def dataFormat : List Directive := .space :: argsFormat ++ [d] ++ lits ", "

def straceReadData (record : Int32 → Int64 → Int64 → OpInfo → Op) (line : Bytes) : Scan Found := do
  match ← scan dataFormat line with
  | [.num pid,.text startTime,.num fd] =>
    match ← stracePosComma line with
    | none => pure .failed
    | some line2 =>
      match ← scan (lits ", " ++ [i64] ++ resultFormat i64) line2 with
      | [.num size,.num retval,.text dur] =>
        pure (.item (record (Int32.ofInt fd) (Int64.ofInt size) (Int64.ofInt retval)
          (opInfo pid startTime dur)))
      | _ => pure .failed
  | _ => pure .failed

def straceReadDataAt (record : Int32 → Int64 → Int64 → Int64 → OpInfo → Op) (line : Bytes) :
    Scan Found := do
  match ← scan dataFormat line with
  | [.num pid,.text startTime,.num fd] =>
    match ← stracePosComma line with
    | none => pure .failed
    | some line2 =>
      match ← scan (lits ", " ++ [i64] ++ lits ", " ++ [i64] ++ resultFormat i64) line2 with
      | [.num size,.num offset,.num retval,.text dur] =>
        pure (.item (record (Int32.ofInt fd) (Int64.ofInt size) (Int64.ofInt offset)
          (Int64.ofInt retval) (opInfo pid startTime dur)))
      | _ => pure .failed
  | _ => pure .failed

def straceReadWrite : Bytes → Scan Found :=
  straceReadData fun fd size retval info => .write ⟨fd,size,retval,info⟩

def straceReadRead : Bytes → Scan Found :=
  straceReadData fun fd size retval info => .read ⟨fd,size,retval,info⟩

def straceReadPwrite : Bytes → Scan Found :=
  straceReadDataAt fun fd size offset retval info => .pwrite ⟨fd,size,offset,retval,info⟩

def straceReadPread : Bytes → Scan Found :=
  straceReadDataAt fun fd size offset retval info => .pread ⟨fd,size,offset,retval,info⟩

def straceReadClose (line : Bytes) : Scan Found := do
  match ← scan (.space :: argsFormat ++ [d] ++ resultFormat d) line with
  | [.num pid,.text startTime,.num fd,.num retval,.text dur] =>
    pure (.item (.close ⟨Int32.ofInt fd,Int32.ofInt retval,opInfo pid startTime dur⟩))
  | _ => pure .failed

def mkdirFormat : List Directive := nameFormat ++ lits ", " ++ [o] ++ resultFormat d

def straceReadMkdir (line : Bytes) : Scan Found := do
  match ← scan mkdirFormat line with
  | [.num pid,.text startTime,.text name,.num mode,.num retval,.text dur] =>
    let name ← toName name
    pure (.item (.mkdir ⟨name,UInt32.ofInt mode,Int32.ofInt retval,opInfo pid startTime dur⟩))
  | _ => pure .failed

def nameOnlyFormat : List Directive := nameFormat ++ resultFormat d

def straceReadName (record : CName → Int32 → OpInfo → Op) (line : Bytes) : Scan Found := do
  match ← scan nameOnlyFormat line with
  | [.num pid,.text startTime,.text name,.num retval,.text dur] =>
    let name ← toName name
    pure (.item (record name (Int32.ofInt retval) (opInfo pid startTime dur)))
  | _ => pure .failed

def straceReadRmdir : Bytes → Scan Found :=
  straceReadName fun name retval info => .rmdir ⟨name,retval,info⟩

def straceReadUnlink : Bytes → Scan Found :=
  straceReadName fun name retval info => .unlink ⟨name,retval,info⟩

-- " %d %s %*[^[][%d, %d]) = %d%*[^<]<%[^>]"
def straceReadPipe (line : Bytes) : Scan Found := do
  match ← scan (.space :: stampFormat ++ [.skip lbracket] ++ lits "[" ++ [d] ++ lits ", " ++ [d] ++
      lits "]" ++ resultFormat d) line with
  | [.num pid,.text startTime,.num fd1,.num fd2,.num retval,.text dur] =>
    pure (.item (.pipe ⟨Int32.ofInt fd1,Int32.ofInt fd2,0,Int32.ofInt retval,
      opInfo pid startTime dur⟩))
  | _ => pure .failed

def openFormat : List Directive :=
  nameFormat ++ lits ", " ++ [.upto comma none MAX_STRING] ++ lits ", " ++ [u] ++ resultFormat d

def flagsFormat : List Directive :=
  nameFormat ++ lits ", " ++ [.upto rparen none MAX_STRING] ++ resultFormat d

-- The mode of an open call is scanned as a decimal number.
def straceReadOpen (line : Bytes) : Scan Found := do
  match ← scan openFormat line with
  | [.num pid,.text startTime,.text name,.text flags,.num mode,.num retval,.text dur] =>
    let name ← toName name
    pure (.item (.open ⟨name,readOpenFlags flags,UInt32.ofInt mode,Int32.ofInt retval,
      opInfo pid startTime dur⟩))
  | _ =>
    match ← scan flagsFormat line with
    | [.num pid,.text startTime,.text name,.text flags,.num retval,.text dur] =>
      let name ← toName name
      pure (.item (.open ⟨name,readOpenFlags flags,MODE_UNDEF,Int32.ofInt retval,
        opInfo pid startTime dur⟩))
    | _ => pure .failed

def creatFormat : List Directive := nameFormat ++ lits ", " ++ [u] ++ resultFormat d

def straceReadCreat (line : Bytes) : Scan Found := do
  match ← scan creatFormat line with
  | [.num pid,.text startTime,.text name,.num mode,.num retval,.text dur] =>
    let name ← toName name
    pure (.item (.open ⟨name,O_CREAT ||| O_WRONLY ||| O_TRUNC,UInt32.ofInt mode,
      Int32.ofInt retval,opInfo pid startTime dur⟩))
  | _ => pure .failed

-- "%d %s %*[^(](%*[^,], flags=%[^,], %*[^)]) = %d%*[^<]<%[^>]"
def cloneFormat : List Directive :=
  argsFormat ++ [.skip comma] ++ lits ", flags=" ++ [.upto comma none MAX_STRING] ++ lits ", " ++
    [.skip rparen] ++ resultFormat d

def straceReadClone (line : Bytes) : Scan Found := do
  match ← scan cloneFormat line with
  | [.num pid,.text startTime,.text mode,.num retval,.text dur] =>
    pure (.item (.clone ⟨readCloneFlags mode,Int32.ofInt retval,opInfo pid startTime dur⟩))
  | _ => pure .failed

def straceReadDup (line : Bytes) : Scan Found := do
  match ← scan (argsFormat ++ [d] ++ resultFormat d) line with
  | [.num pid,.text startTime,.num oldFd,.num retval,.text dur] =>
    pure (.item (.dup ⟨Int32.ofInt retval,Int32.ofInt oldFd,0,Int32.ofInt retval,
      opInfo pid startTime dur⟩))
  | _ => pure .failed

def straceReadDup2 (line : Bytes) : Scan Found := do
  match ← scan (argsFormat ++ [d] ++ lits ", " ++ [d] ++ resultFormat d) line with
  | [.num pid,.text startTime,.num oldFd,.num newFd,.num retval,.text dur] =>
    pure (.item (.dup2 ⟨Int32.ofInt newFd,Int32.ofInt oldFd,0,Int32.ofInt retval,
      opInfo pid startTime dur⟩))
  | _ => pure .failed

def dup3Format : List Directive :=
  argsFormat ++ [d] ++ lits ", " ++ [d] ++ lits ", " ++ [.upto rparen none MAX_STRING] ++
    resultFormat d

def straceReadDup3 (line : Bytes) : Scan Found := do
  match ← scan dup3Format line with
  | [.num pid,.text startTime,.num oldFd,.num newFd,.text flags,.num retval,.text dur] =>
    pure (.item (.dup3 ⟨Int32.ofInt newFd,Int32.ofInt oldFd,readDup3Flags flags,
      Int32.ofInt retval,opInfo pid startTime dur⟩))
  | _ => pure .failed

def llseekFormat : List Directive :=
  .space :: argsFormat ++ [d] ++ lits ", " ++ [i64] ++ lits ", [" ++ [i64] ++ lits "], " ++
    [.upto rparen none MAX_STRING] ++ resultFormat i64

def straceReadLlseek (line : Bytes) : Scan Found := do
  match ← scan llseekFormat line with
  | [.num pid,.text startTime,.num fd,.num offset,.num fOffset,.text flags,.num retval,
      .text dur] =>
    pure (.item (.llseek ⟨Int32.ofInt fd,Int64.ofInt offset,Int64.ofInt fOffset,
      readSeekFlag flags,Int64.ofInt retval,opInfo pid startTime dur⟩))
  | _ => pure .failed

def lseekFormat : List Directive :=
  argsFormat ++ [d] ++ lits ", " ++ [i64] ++ lits ", " ++ [.upto rparen none MAX_STRING] ++
    resultFormat i64

def straceReadLseek (line : Bytes) : Scan Found := do
  match ← scan lseekFormat line with
  | [.num pid,.text startTime,.num fd,.num offset,.text flags,.num retval,.text dur] =>
    pure (.item (.lseek ⟨Int32.ofInt fd,readSeekFlag flags,Int64.ofInt offset,
      Int64.ofInt retval,opInfo pid startTime dur⟩))
  | _ => pure .failed

-- The second format is tried where the first stopped in front of the offset.
def straceReadSendfile (line : Bytes) : Scan Found := do
  match ← scan (argsFormat ++ [d] ++ lits ", " ++ [d] ++ lits ", [" ++ [i64] ++ lits "], " ++
      [i64] ++ resultFormat i64) line with
  | [.num pid,.text startTime,.num outFd,.num inFd,.num offset,.num size,.num retval,
      .text dur] =>
    pure (.item (.sendfile ⟨Int32.ofInt outFd,Int32.ofInt inFd,Int64.ofInt offset,
      Int64.ofInt size,Int64.ofInt retval,opInfo pid startTime dur⟩))
  | [_,_,_,_] =>
    match ← scan (argsFormat ++ [d] ++ lits ", " ++ [d] ++ lits ", NULL, " ++ [i64] ++
        resultFormat i64) line with
    | [.num pid,.text startTime,.num outFd,.num inFd,.num size,.num retval,.text dur] =>
      pure (.item (.sendfile ⟨Int32.ofInt outFd,Int32.ofInt inFd,OFFSET_INVAL,
        Int64.ofInt size,Int64.ofInt retval,opInfo pid startTime dur⟩))
    | _ => pure .failed
  | _ => pure .failed

def straceReadAccess (line : Bytes) : Scan Found := do
  match ← scan flagsFormat line with
  | [.num pid,.text startTime,.text name,.text mode,.num retval,.text dur] =>
    let name ← toName name
    pure (.item (.access ⟨name,readAccessFlags mode,Int32.ofInt retval,
      opInfo pid startTime dur⟩))
  | _ => pure .failed

-- "%d %s %*[^\"]\"%512[^\"]\", %*[^)])%*[^=] = %d%*[^<]<%[^>]"
def statFormat : List Directive :=
  nameFormat ++ lits ", " ++ [.skip rparen] ++ lits ")" ++ [.skip eq] ++ lits " = " ++
    [d,.skip lt] ++ lits "<" ++ [.upto gt none MAX_TIME_STRING]

def straceReadStat (line : Bytes) : Scan Found := do
  match ← scan statFormat line with
  | [.num pid,.text startTime,.text name,.num retval,.text dur] =>
    let name ← toName name
    pure (.item (.stat ⟨name,Int32.ofInt retval,opInfo pid startTime dur⟩))
  | _ => pure .failed

-- "%d %s %*[^)]) = %d%*[^<]<%[^>]"
def readSocketStrace (line : Bytes) : Scan Found := do
  match ← scan (stampFormat ++ [.skip rparen] ++ resultFormat d) line with
  | [.num pid,.text startTime,.num retval,.text dur] =>
    pure (.item (.socket ⟨Int32.ofInt retval,opInfo pid startTime dur⟩))
  | _ => pure .failed

-- A duplication is written over the line as a dup call: "%d %s dup(%d) = %d <%s>"
def dupLine (pid : Int32) (startTime : Bytes) (oldFd newFd : Int32) (dur : Bytes) : Bytes :=
  signed pid.toInt ++ blank :: (startTime ++ ascii " dup(" ++ signed oldFd.toInt ++ ascii ") = " ++
    signed newFd.toInt ++ ascii " <" ++ dur ++ ascii ">")

def straceReadFcntl (line : Bytes) : Scan Found := do
  if (strstr (ascii "F_DUPFD") line).isNone then pure .skipped
  else
    match ← scan (argsFormat ++ [d] ++ lits ", F_DUPFD, " ++ [d] ++ resultFormat d) line with
    | [.num pid,.text startTime,.num oldFd,.num _,.num newFd,.text dur] =>
      straceReadDup (dupLine (Int32.ofInt pid) startTime (Int32.ofInt oldFd) (Int32.ofInt newFd)
        dur)
    | _ => pure .failed

def straceRead : OpType → Bytes → Scan Found
  | .write => straceReadWrite
  | .read => straceReadRead
  | .pwrite => straceReadPwrite
  | .pread => straceReadPread
  | .lseek => straceReadLseek
  | .llseek => straceReadLlseek
  | .open => straceReadOpen
  | .creat => straceReadCreat
  | .close => straceReadClose
  | .unlink => straceReadUnlink
  | .clone => straceReadClone
  | .dup3 => straceReadDup3
  | .dup2 => straceReadDup2
  | .dup => straceReadDup
  | .pipe => straceReadPipe
  | .mkdir => straceReadMkdir
  | .rmdir => straceReadRmdir
  | .access => straceReadAccess
  | .stat => straceReadStat
  | .socket => readSocketStrace
  | .sendfile => straceReadSendfile
  | .fcntl => straceReadFcntl
  | .unknown => fun _ => pure .skipped
  | .mmap => fun _ => pure .failed

structure Isyscall where
  pid : Int32
  line : Bytes
  deriving DecidableEq, Repr

structure StatisticItem where
  operation : CName
  count : Nat
  deriving DecidableEq, Repr

def htOpsIsyscall : HashTableOperations Int32 Isyscall where
  hash := htHashInt
  compare := fun key item => item.pid = key

def htOpsStat : HashTableOperations CName StatisticItem where
  hash := htHashStr
  compare := fun key item => item.operation = key

structure StraceState where
  list : List OpItem
  ht : HashTable Isyscall
  stats : HashTable StatisticItem

abbrev StraceProg := Prog StraceState StraceFault

def ofScan {α : Type} (r : Scan α) : StraceProg α := fun st => r.map (·,st)

-- A name that fills the array of a new entry is read beyond it.
def statsAddOp (operation : CName) : StraceProg Unit := do
  let st ← Prog.get
  match ← Prog.ofOption .assertion (st.stats.find htOpsStat operation) with
  | none =>
    if MAX_OPERATION ≤ operation.bytes.length then Prog.throw .beyond
    else do
      let stats ← Prog.ofOption .assertion (st.stats.insert htOpsStat operation ⟨operation,1⟩)
      Prog.modify fun st => { st with stats }
  | some _ => do
    let stats ← Prog.ofOption .assertion (st.stats.modify htOpsStat operation fun item =>
      { item with count := item.count + 1 })
    Prog.modify fun st => { st with stats }

def stampByte (c : UInt8) : Bool := isSpace c || Lib.isDigit 10 c || c == dot || c == lt

def operationText (line : Bytes) : Bytes :=
  (line.dropWhile stampByte).takeWhile fun c => c != lparen && c != blank

-- "%*[^=]= %*[^<]<%d.%d>"
def durationFormat : List Directive :=
  [.skip eq] ++ lits "= " ++ [.skip lt] ++ lits "<" ++ [d] ++ lits "." ++ [d] ++ lits ">"

def straceGetOperation (stats : Bool) (line : Bytes) : StraceProg CName := do
  let operation ← ofScan (toName (operationText line))
  if stats then do
    match ← ofScan (scan durationFormat line) with
    | [.num _,.num _] => statsAddOp operation
    | _ => pure ()
  pure operation

def operations : List (Bytes × OpType) :=
  [(ascii "write",.write),(ascii "read",.read),(ascii "pwrite",.pwrite),
    (ascii "pwrite64",.pwrite),(ascii "pread",.pread),(ascii "pread64",.pread),
    (ascii "close",.close),(ascii "open",.open),(ascii "creat",.creat),
    (ascii "unlink",.unlink),(ascii "lseek",.lseek),(ascii "_llseek",.llseek),
    (ascii "pipe2",.unknown),(ascii "pipe",.pipe),(ascii "dup3",.dup3),(ascii "dup2",.dup2),
    (ascii "dup",.dup),(ascii "mkdir",.mkdir),(ascii "clone",.clone),(ascii "access",.access),
    (ascii "stat64",.stat),(ascii "stat",.stat),(ascii "socket",.socket),
    (ascii "sendfile",.sendfile),(ascii "fcntl",.fcntl)]

def operationCode (operation : Bytes) : OpType := readFlag .unknown operations operation

def straceGetOperationCode (stats : Bool) (line : Bytes) : StraceProg OpType := do
  let operation ← straceGetOperation stats line
  pure (operationCode operation.bytes)

def readPid (line : Bytes) : StraceProg Int32 := do
  match ← ofScan (scan [d] line) with
  | [.num pid] => pure (Int32.ofInt pid)
  | _ => Prog.throw .unset

def straceReadUnfinished (line : Bytes) : StraceProg Unit := do
  let pid ← readPid line
  let st ← Prog.get
  match ← Prog.ofOption .assertion (st.ht.find htOpsIsyscall pid) with
  | none => do
    let ht ← Prog.ofOption .assertion
      (st.ht.insert htOpsIsyscall pid ⟨pid,line.take MAX_STRING⟩)
    Prog.modify fun st => { st with ht }
  | some _ => pure ()

def unfinishedMark : Bytes := ascii " <unfinished ...>"
def resumedMark : Bytes := ascii "resumed> "

-- `buff` holds the two parts of the call; `process` is strace_process_line.
def straceReadResumed (process : Bytes → StraceProg Int) (line : Bytes) : StraceProg Unit := do
  let pid ← readPid line
  let st ← Prog.get
  match ← Prog.ofOption .assertion (st.ht.find htOpsIsyscall pid) with
  | none => pure ()
  | some isyscall =>
    -- strncpy has not terminated a line of this length
    if MAX_STRING ≤ isyscall.line.length then Prog.throw .beyond
    else
      match strstr unfinishedMark isyscall.line with
      | none => pure ()
      | some s => do
        let ht ← Prog.ofOption .assertion (st.ht.modify htOpsIsyscall pid fun item =>
          { item with line := item.line.take s })
        Prog.modify fun st => { st with ht }
        match strstr resumedMark line with
        | none => pure ()
        | some r =>
          let rest := (line.drop (r + resumedMark.length)).take (2 * MAX_STRING)
          if 2 * MAX_STRING < s + rest.length then Prog.throw .mergeOverrun
          else do
            let ht ← Prog.ofOption .assertion (ht.remove htOpsIsyscall pid)
            Prog.modify fun st => { st with ht }
            let _ ← process (isyscall.line.take s ++ rest)
            pure ()

def straceSwitch (c : OpType) (line : Bytes) : StraceProg Int := do
  match ← ofScan (straceRead c line) with
  | .failed => pure (-1)
  | .skipped => pure 0
  | .item o => do
    Prog.modify fun st => { st with list := st.list ++ [o.item] }
    pure 0

-- A resumed call is processed with one pending call less.
def straceProcess : Nat → Bool → Bytes → StraceProg Int
  | 0,_,_ => Prog.throw .depth
  | fuel + 1,stats,line => do
    let c ← straceGetOperationCode stats line
    if (strstr (ascii "unfinished") line).isSome ∧ c ≠ .unknown then do
      straceReadUnfinished line
      pure 0
    else
      match strstr (ascii "resumed") line with
      | some (s + 1) => do
        let line := line.set s lparen
        let again ← straceGetOperationCode false line
        if again ≠ .unknown then straceReadResumed (straceProcess fuel false) line
        pure 0
      | _ => straceSwitch c line

def straceProcessLine (stats : Bool) (line : Bytes) : StraceProg Int := fun st =>
  straceProcess (st.ht.items.length + 1) stats line st

-- At most `size - 1` bytes, and none behind a newline.
def fgets (size : Nat) (f : Bytes) : Bytes × Bytes :=
  let n := min (size - 1) ((f.takeWhile (· != newline)).length + 1)
  (f.take n,f.drop n)

def straceGetLoop (stats : Bool) : Nat → Bytes → StraceProg Unit
  | 0,_ => pure ()
  | fuel + 1,f =>
    if f = [] then pure ()
    else do
      let _ ← straceProcessLine stats (cstr (fgets MAX_LINE f).1)
      straceGetLoop stats fuel (fgets MAX_LINE f).2

def straceInit (list : List OpItem) : StraceState :=
  ⟨list,.init HASH_TABLE_SIZE,.init HASH_TABLE_SIZE⟩

-- The state after the last line, before the pending calls are freed.
def straceGetItems (stats : Bool) (f : Bytes) (list : List OpItem) :
    Except StraceFault (Unit × StraceState) :=
  straceGetLoop stats f.length f (straceInit list)

end IoApps.Strace
