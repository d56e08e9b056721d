import IoApps.Ops

/-! The binary trace file: one tag character and one record after another, with no length
and no end mark. The file itself is a byte string; opening it is not modelled. -/
namespace IoApps.Binary
open Lib

def writeInt32 (v : Int32) : Bytes := le 4 v.toUInt32.toNat
def writeInt64 (v : Int64) : Bytes := le 8 v.toUInt64.toNat
def writeMode (v : UInt32) : Bytes := le 4 v.toNat

def readInt32 : Reader Int32 := do
  let raw ← takeBytes 4
  pure (UInt32.ofNat (readLE raw)).toInt32

def readInt64 : Reader Int64 := do
  let raw ← takeBytes 8
  pure (UInt64.ofNat (readLE raw)).toInt64

def readMode : Reader UInt32 := do
  let raw ← takeBytes 4
  pure (UInt32.ofNat (readLE raw))

def writeString (name : CName) : Bytes :=
  writeInt32 (Int32.ofNat name.bytes.length) ++ name.bytes

-- The count argument of fread: a negative `len` becomes a huge size_t.
def toSize (len : Int32) : Nat := (len.toInt % 2^64).toNat

-- fread(buff, 1, len, f) into `char buff[MAX_STRING]`, then buff[len] = 0 and strncpy.
def readBuff (len : Int32) : Reader CName := fun raw =>
  let rv := min raw.length (toSize len)
  if inside : rv < MAX_STRING then
    if (rv : Int) ≠ len.toInt then .failed
    else .ok (CName.copy (raw.take rv) (by simp; omega)) (raw.drop rv)
  else if rv = MAX_STRING ∧ (rv : Int) ≠ len.toInt then .failed
  else .fault

def readString : Reader CName := do
  let len ← readInt32
  readBuff len

def binReadInfo : Reader OpInfo := do
  let pid ← readInt32
  let dur ← readInt32
  let tvSec ← readInt32
  let tvUsec ← readInt32
  pure ⟨pid,dur,⟨tvSec,tvUsec⟩⟩

def binReadRead : Reader OpItem := do
  let fd ← readInt32
  let size ← readInt64
  let retval ← readInt64
  let info ← binReadInfo
  pure ⟨.read,.read ⟨fd,size,retval,info⟩⟩

def binReadWrite : Reader OpItem := do
  let fd ← readInt32
  let size ← readInt64
  let retval ← readInt64
  let info ← binReadInfo
  pure ⟨.write,.write ⟨fd,size,retval,info⟩⟩

def binReadPread : Reader OpItem := do
  let fd ← readInt32
  let size ← readInt64
  let offset ← readInt64
  let retval ← readInt64
  let info ← binReadInfo
  pure ⟨.pread,.pread ⟨fd,size,offset,retval,info⟩⟩

def binReadPwrite : Reader OpItem := do
  let fd ← readInt32
  let size ← readInt64
  let offset ← readInt64
  let retval ← readInt64
  let info ← binReadInfo
  pure ⟨.pwrite,.pwrite ⟨fd,size,offset,retval,info⟩⟩

def binReadOpen : Reader OpItem := do
  let name ← readString
  let flags ← readInt32
  let mode ← readMode
  let retval ← readInt32
  let info ← binReadInfo
  pure ⟨.open,.open ⟨name,flags,mode,retval,info⟩⟩

def binReadClose : Reader OpItem := do
  let fd ← readInt32
  let retval ← readInt32
  let info ← binReadInfo
  pure ⟨.close,.close ⟨fd,retval,info⟩⟩

def binReadUnlink : Reader OpItem := do
  let name ← readString
  let retval ← readInt32
  let info ← binReadInfo
  pure ⟨.unlink,.unlink ⟨name,retval,info⟩⟩

def binReadLseek : Reader OpItem := do
  let fd ← readInt32
  let flag ← readInt32
  let offset ← readInt64
  let retval ← readInt64
  let info ← binReadInfo
  pure ⟨.lseek,.lseek ⟨fd,flag,offset,retval,info⟩⟩

def binReadLlseek : Reader OpItem := do
  let fd ← readInt32
  let offset ← readInt64
  let fOffset ← readInt64
  let flag ← readInt32
  let retval ← readInt64
  let info ← binReadInfo
  pure ⟨.llseek,.llseek ⟨fd,offset,fOffset,flag,retval,info⟩⟩

def binReadClone : Reader OpItem := do
  let mode ← readMode
  let retval ← readInt32
  let info ← binReadInfo
  pure ⟨.clone,.clone ⟨mode,retval,info⟩⟩

def binReadMkdir : Reader OpItem := do
  let name ← readString
  let mode ← readMode
  let retval ← readInt32
  let info ← binReadInfo
  pure ⟨.mkdir,.mkdir ⟨name,mode,retval,info⟩⟩

-- The rmdir record is filed under OP_MKDIR, here as in the writer.
def binReadRmdir : Reader OpItem := do
  let name ← readString
  let retval ← readInt32
  let info ← binReadInfo
  pure ⟨.mkdir,.rmdir ⟨name,retval,info⟩⟩

-- The three dup calls share one record; the tag read is handed on.
def binReadDup (c : OpType) (record : DupOp → Op) : Reader OpItem := do
  let newFd ← readInt32
  let oldFd ← readInt32
  let flags ← readInt32
  let retval ← readInt32
  let info ← binReadInfo
  pure ⟨c,record ⟨newFd,oldFd,flags,retval,info⟩⟩

def binReadPipe : Reader OpItem := do
  let fd1 ← readInt32
  let fd2 ← readInt32
  let mode ← readMode
  let retval ← readInt32
  let info ← binReadInfo
  pure ⟨.pipe,.pipe ⟨fd1,fd2,mode,retval,info⟩⟩

def binReadAccess : Reader OpItem := do
  let name ← readString
  let mode ← readMode
  let retval ← readInt32
  let info ← binReadInfo
  pure ⟨.access,.access ⟨name,mode,retval,info⟩⟩

def binReadStat : Reader OpItem := do
  let name ← readString
  let retval ← readInt32
  let info ← binReadInfo
  pure ⟨.stat,.stat ⟨name,retval,info⟩⟩

def binReadSocket : Reader OpItem := do
  let retval ← readInt32
  let info ← binReadInfo
  pure ⟨.socket,.socket ⟨retval,info⟩⟩

def binReadSendfile : Reader OpItem := do
  let outFd ← readInt32
  let inFd ← readInt32
  let offset ← readInt64
  let size ← readInt64
  let retval ← readInt64
  let info ← binReadInfo
  pure ⟨.sendfile,.sendfile ⟨outFd,inFd,offset,size,retval,info⟩⟩

def binCase : OpType → Option (Reader OpItem)
  | .write => some binReadWrite
  | .read => some binReadRead
  | .pwrite => some binReadPwrite
  | .pread => some binReadPread
  | .open => some binReadOpen
  | .close => some binReadClose
  | .unlink => some binReadUnlink
  | .lseek => some binReadLseek
  | .llseek => some binReadLlseek
  | .clone => some binReadClone
  | .mkdir => some binReadMkdir
  | .rmdir => some binReadRmdir
  | .dup => some (binReadDup .dup .dup)
  | .dup2 => some (binReadDup .dup2 .dup2)
  | .dup3 => some (binReadDup .dup3 .dup3)
  | .pipe => some binReadPipe
  | .access => some binReadAccess
  | .stat => some binReadStat
  | .socket => some binReadSocket
  | .sendfile => some binReadSendfile
  | .creat | .unknown | .mmap | .fcntl => none

def EOF : Int := -1

def getc : Bytes → Int
  | [] => EOF
  | b :: _ => b.toNat

inductive Exit where
  | returned (code : Int)
  | fault
  deriving DecidableEq, Repr

-- `(c = getc(f)) != EOF` with a signed `char c`: the value is cut to a char before the test.
def binGetLoop : Nat → Bytes → List OpItem → List OpItem × Exit
  | 0, _, list => (list,.fault)
  | fuel+1, raw, list =>
    let c := Int8.ofInt (getc raw)
    if c.toInt = EOF then (list,.returned 0)
    else match OpType.ofCode c >>= binCase with
      | none => (list,.returned (-1))
      | some reader =>
        match reader raw.tail with
        | .ok item rest => binGetLoop fuel rest (list ++ [item])
        | .failed => (list,.returned (-1))
        | .fault => (list,.fault)

def binGetItems (raw : Bytes) (list : List OpItem) : List OpItem × Exit :=
  binGetLoop (raw.length+1) raw list

def writeChar (c : OpType) : Bytes := [c.code.toUInt8]

def binWriteInfo (info : OpInfo) : Bytes :=
  writeInt32 info.pid ++ writeInt32 info.dur ++ writeInt32 info.start.tvSec ++
    writeInt32 info.start.tvUsec

def binSaveWrite (o : WriteOp) : Bytes :=
  writeChar .write ++ writeInt32 o.fd ++ writeInt64 o.size ++ writeInt64 o.retval ++
    binWriteInfo o.info

def binSaveRead (o : ReadOp) : Bytes :=
  writeChar .read ++ writeInt32 o.fd ++ writeInt64 o.size ++ writeInt64 o.retval ++
    binWriteInfo o.info

def binSavePwrite (o : PwriteOp) : Bytes :=
  writeChar .pwrite ++ writeInt32 o.fd ++ writeInt64 o.size ++ writeInt64 o.offset ++
    writeInt64 o.retval ++ binWriteInfo o.info

def binSavePread (o : PreadOp) : Bytes :=
  writeChar .pread ++ writeInt32 o.fd ++ writeInt64 o.size ++ writeInt64 o.offset ++
    writeInt64 o.retval ++ binWriteInfo o.info

def binSaveOpen (o : OpenOp) : Bytes :=
  writeChar .open ++ writeString o.name ++ writeInt32 o.flags ++ writeMode o.mode ++
    writeInt32 o.retval ++ binWriteInfo o.info

def binSaveClose (o : CloseOp) : Bytes :=
  writeChar .close ++ writeInt32 o.fd ++ writeInt32 o.retval ++ binWriteInfo o.info

def binSaveUnlink (o : UnlinkOp) : Bytes :=
  writeChar .unlink ++ writeString o.name ++ writeInt32 o.retval ++ binWriteInfo o.info

def binSaveLseek (o : LseekOp) : Bytes :=
  writeChar .lseek ++ writeInt32 o.fd ++ writeInt32 o.flag ++ writeInt64 o.offset ++
    writeInt64 o.retval ++ binWriteInfo o.info

def binSaveLlseek (o : LlseekOp) : Bytes :=
  writeChar .llseek ++ writeInt32 o.fd ++ writeInt64 o.offset ++ writeInt64 o.fOffset ++
    writeInt32 o.flag ++ writeInt64 o.retval ++ binWriteInfo o.info

def binSaveClone (o : CloneOp) : Bytes :=
  writeChar .clone ++ writeMode o.mode ++ writeInt32 o.retval ++ binWriteInfo o.info

def binSaveDup (c : OpType) (o : DupOp) : Bytes :=
  writeChar c ++ writeInt32 o.newFd ++ writeInt32 o.oldFd ++ writeInt32 o.flags ++
    writeInt32 o.retval ++ binWriteInfo o.info

def binSaveMkdir (o : MkdirOp) : Bytes :=
  writeChar .mkdir ++ writeString o.name ++ writeMode o.mode ++ writeInt32 o.retval ++
    binWriteInfo o.info

def binSaveRmdir (o : RmdirOp) : Bytes :=
  writeChar .mkdir ++ writeString o.name ++ writeInt32 o.retval ++ binWriteInfo o.info

def binSavePipe (o : PipeOp) : Bytes :=
  writeChar .pipe ++ writeInt32 o.fd1 ++ writeInt32 o.fd2 ++ writeMode o.mode ++
    writeInt32 o.retval ++ binWriteInfo o.info

def binSaveAccess (o : AccessOp) : Bytes :=
  writeChar .access ++ writeString o.name ++ writeMode o.mode ++ writeInt32 o.retval ++
    binWriteInfo o.info

def binSaveStat (o : StatOp) : Bytes :=
  writeChar .stat ++ writeString o.name ++ writeInt32 o.retval ++ binWriteInfo o.info

def binSaveSocket (o : SocketOp) : Bytes :=
  writeChar .socket ++ writeInt32 o.retval ++ binWriteInfo o.info

def binSaveSendfile (o : SendfileOp) : Bytes :=
  writeChar .sendfile ++ writeInt32 o.outFd ++ writeInt32 o.inFd ++ writeInt64 o.offset ++
    writeInt64 o.size ++ writeInt64 o.retval ++ binWriteInfo o.info

def binSaveItem : Op → Bytes
  | .write o => binSaveWrite o
  | .read o => binSaveRead o
  | .pwrite o => binSavePwrite o
  | .pread o => binSavePread o
  | .open o => binSaveOpen o
  | .close o => binSaveClose o
  | .unlink o => binSaveUnlink o
  | .lseek o => binSaveLseek o
  | .llseek o => binSaveLlseek o
  | .clone o => binSaveClone o
  | .mkdir o => binSaveMkdir o
  | .rmdir o => binSaveRmdir o
  | .dup o => binSaveDup .dup o
  | .dup2 o => binSaveDup .dup2 o
  | .dup3 o => binSaveDup .dup3 o
  | .pipe o => binSavePipe o
  | .access o => binSaveAccess o
  | .stat o => binSaveStat o
  | .socket o => binSaveSocket o
  | .sendfile o => binSaveSendfile o

def binSaveItems (list : List Op) : Bytes := list.flatMap binSaveItem

end IoApps.Binary
