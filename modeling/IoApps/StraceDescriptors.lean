import IoApps.StraceComma
import IoApps.StraceNames

/-! The calls on descriptors, as strace prints them and as they are read. -/
namespace IoApps.Strace
open Lib (Bytes ascii strstr tokens joined isSpace isDigit signed Directive Radix Arg Reads Breaks)

def rbracket : UInt8 := 93

def sep (rest : Bytes) : Bytes := comma :: blank :: rest

def dataText (dots : Bool) (rest : Bytes) : Bytes :=
  quote :: quote :: ((if dots then ascii "..." else []) ++ rest)

def dup3Flags : List (Bytes × Int32) := [(ascii "O_CLOEXEC",O_CLOEXEC)]

structure Constant (table : List (Bytes × Int32)) where
  value : Int32
  text : Bytes
  begun : text ≠ []
  lead : ∀ c, text.head? = some c → isSpace c = false
  plain : rparen ∉ text
  unmarked : Unmarked text
  named : ∀ e ∈ table, text = e.1 ↔ value = e.2

def Constant.Known {table : List (Bytes × Int32)} (w : Constant table) : Prop :=
  w.value = 0 ∨ ∃ e ∈ table, w.value = e.2

theorem constantRead {table : List (Bytes × Int32)} (w : Constant table) :
    readFlag 0 table w.text = w.value ↔ w.Known := by
  unfold readFlag
  split
  · rename_i e found
    have member := List.mem_of_find?_eq_some found
    have same : e.1 = w.text := by
      have here := List.find?_some found
      simpa using here
    have value := (w.named e member).mp same.symm
    exact iff_of_true value.symm (.inr ⟨e,member,value⟩)
  · rename_i absent
    constructor
    · intro zero
      exact .inl zero.symm
    · intro known
      rcases known with zero | there
      · exact zero.symm
      · obtain ⟨e,member,value⟩ := there
        have text := (w.named e member).mpr value
        exact absurd (by simp [text]) (List.find?_eq_none.mp absent e member)

theorem dup3Read (s : Bytes) : readDup3Flags s = readFlag 0 dup3Flags s := by
  unfold readDup3Flags readFlag dup3Flags
  rcases eq_or_ne s (ascii "O_CLOEXEC") with same | other
  · subst same
    rfl
  · have absent : (ascii "O_CLOEXEC" == s) = false := by simpa using other.symm
    rw [if_neg other,List.find?_cons_of_neg (by simp [absent])]
    rfl

structure CloneArgs where
  front : Bytes
  names : List Bytes
  more : Option Bytes
  frontBegun : front ≠ []
  frontPlain : comma ∉ front ∧ Unmarked front
  named : names ≠ []
  parts : ∀ n ∈ names, Lib.Component bar n ∧ comma ∉ n ∧ Unmarked n ∧
    ∀ c, n.head? = some c → isSpace c = false
  morePlain : ∀ m, more = some m → m ≠ [] ∧ rparen ∉ m ∧ Unmarked m ∧
    ∀ c, m.head? = some c → isSpace c = false

def CloneArgs.text (a : CloneArgs) : Bytes := (joined bar a.names).tail

def CloneArgs.mode (a : CloneArgs) : UInt32 :=
  if ascii "CLONE_FILES" ∈ a.names then CLONE_FILES else 0

def CloneArgs.behind (a : CloneArgs) (rest : Bytes) : Bytes :=
  match a.more with
  | none => rest
  | some m => sep (m ++ rest)

def CloneArgs.print (a : CloneArgs) (rest : Bytes) : Bytes :=
  a.front ++ sep (ascii "flags=" ++ (a.text ++ a.behind rest))

structure SocketArgs where
  text : Bytes
  nested : Bool
  begun : text ≠ []
  plain : rparen ∉ text
  unmarked : Unmarked text

def SocketArgs.print (a : SocketArgs) (rest : Bytes) : Bytes :=
  a.text ++ if a.nested then rparen :: rest else rest

inductive FdCall where
  | write (fd : Int32) (dots : Bool) (size : Int64)
  | read (fd : Int32) (dots : Bool) (size : Int64)
  | pwrite (wide : Bool) (fd : Int32) (dots : Bool) (size offset : Int64)
  | pread (wide : Bool) (fd : Int32) (dots : Bool) (size offset : Int64)
  | close (fd : Int32)
  | lseek (fd : Int32) (offset : Int64) (whence : Constant seekFlags)
  | llseek (fd : Int32) (offset result : Int64) (whence : Constant seekFlags)
  | dup (fd : Int32)
  | dup2 (oldFd newFd : Int32)
  | dup3 (oldFd newFd : Int32) (flags : Constant dup3Flags)
  | fcntl (fd least : Int32)
  | clone (args : CloneArgs)
  | socket (args : SocketArgs)
  | pipe (fd1 fd2 : Int32)
  | sendfile (outFd inFd : Int32) (offset : Option Int64) (size : Int64)

def FdCall.name : FdCall → Bytes
  | .write _ _ _ => ascii "write"
  | .read _ _ _ => ascii "read"
  | .pwrite false _ _ _ _ => ascii "pwrite"
  | .pwrite true _ _ _ _ => ascii "pwrite64"
  | .pread false _ _ _ _ => ascii "pread"
  | .pread true _ _ _ _ => ascii "pread64"
  | .close _ => ascii "close"
  | .lseek _ _ _ => ascii "lseek"
  | .llseek _ _ _ _ => ascii "_llseek"
  | .dup _ => ascii "dup"
  | .dup2 _ _ => ascii "dup2"
  | .dup3 _ _ _ => ascii "dup3"
  | .fcntl _ _ => ascii "fcntl"
  | .clone _ => ascii "clone"
  | .socket _ => ascii "socket"
  | .pipe _ _ => ascii "pipe"
  | .sendfile _ _ _ _ => ascii "sendfile"

def FdCall.args : FdCall → Bytes → Bytes
  | .write fd dots size,rest | .read fd dots size,rest =>
    signed fd.toInt ++ sep (dataText dots (sep (signed size.toInt ++ rest)))
  | .pwrite _ fd dots size offset,rest | .pread _ fd dots size offset,rest =>
    signed fd.toInt ++ sep (dataText dots (sep (signed size.toInt ++
      sep (signed offset.toInt ++ rest))))
  | .close fd,rest | .dup fd,rest => signed fd.toInt ++ rest
  | .lseek fd offset whence,rest =>
    signed fd.toInt ++ sep (signed offset.toInt ++ sep (whence.text ++ rest))
  | .llseek fd offset result whence,rest =>
    signed fd.toInt ++ sep (signed offset.toInt ++ sep (lbracket :: (signed result.toInt ++
      rbracket :: sep (whence.text ++ rest))))
  | .dup2 oldFd newFd,rest => signed oldFd.toInt ++ sep (signed newFd.toInt ++ rest)
  | .dup3 oldFd newFd flags,rest =>
    signed oldFd.toInt ++ sep (signed newFd.toInt ++ sep (flags.text ++ rest))
  | .fcntl fd least,rest =>
    signed fd.toInt ++ sep (ascii "F_DUPFD" ++ sep (signed least.toInt ++ rest))
  | .clone args,rest => args.print rest
  | .socket args,rest => args.print rest
  | .pipe fd1 fd2,rest =>
    lbracket :: (signed fd1.toInt ++ sep (signed fd2.toInt ++ rbracket :: rest))
  | .sendfile outFd inFd none size,rest =>
    signed outFd.toInt ++ sep (signed inFd.toInt ++ sep (ascii "NULL" ++
      sep (signed size.toInt ++ rest)))
  | .sendfile outFd inFd (some offset) size,rest =>
    signed outFd.toInt ++ sep (signed inFd.toInt ++ sep (lbracket :: (signed offset.toInt ++
      rbracket :: sep (signed size.toInt ++ rest))))

def FdCall.line (c : FdCall) (s : Stamp) (r : Result) (tail : Bytes) : Bytes :=
  s.print (c.name ++ lparen :: c.args (r.print tail))

def FdCall.item (c : FdCall) (s : Stamp) (r : Result) : Op :=
  let short := Int32.ofInt r.retval
  let long := Int64.ofInt r.retval
  match c with
  | .write fd _ size => .write ⟨fd,size,long,callInfo s r⟩
  | .read fd _ size => .read ⟨fd,size,long,callInfo s r⟩
  | .pwrite _ fd _ size offset => .pwrite ⟨fd,size,offset,long,callInfo s r⟩
  | .pread _ fd _ size offset => .pread ⟨fd,size,offset,long,callInfo s r⟩
  | .close fd => .close ⟨fd,short,callInfo s r⟩
  | .lseek fd offset whence => .lseek ⟨fd,whence.value,offset,long,callInfo s r⟩
  | .llseek fd offset result whence =>
    .llseek ⟨fd,offset,result,whence.value,long,callInfo s r⟩
  | .dup fd | .fcntl fd _ => .dup ⟨short,fd,0,short,callInfo s r⟩
  | .dup2 oldFd newFd => .dup2 ⟨newFd,oldFd,0,short,callInfo s r⟩
  | .dup3 oldFd newFd flags => .dup3 ⟨newFd,oldFd,flags.value,short,callInfo s r⟩
  | .clone args => .clone ⟨args.mode,short,callInfo s r⟩
  | .socket _ => .socket ⟨short,callInfo s r⟩
  | .pipe fd1 fd2 => .pipe ⟨fd1,fd2,0,short,callInfo s r⟩
  | .sendfile outFd inFd offset size =>
    .sendfile ⟨outFd,inFd,offset.getD OFFSET_INVAL,size,long,callInfo s r⟩

def FdCall.found (c : FdCall) (s : Stamp) (r : Result) : Found :=
  match c with
  | .lseek fd offset whence => .item (.lseek ⟨fd,readSeekFlag whence.text,offset,
      Int64.ofInt r.retval,callInfo s r⟩)
  | .llseek fd offset result whence => .item (.llseek ⟨fd,offset,result,
      readSeekFlag whence.text,Int64.ofInt r.retval,callInfo s r⟩)
  | .dup3 oldFd newFd flags => .item (.dup3 ⟨newFd,oldFd,readDup3Flags flags.text,
      Int32.ofInt r.retval,callInfo s r⟩)
  | .clone args => if args.more.isSome then .item (c.item s r) else .failed
  | .socket args => if args.nested then .failed else .item (c.item s r)
  | _ => .item (c.item s r)

def FdCall.Readable : FdCall → Prop
  | .lseek _ _ whence | .llseek _ _ _ whence => whence.Known
  | .dup3 _ _ flags => flags.Known
  | .clone args => args.more.isSome
  | .socket args => args.nested = false
  | _ => True

theorem foundItem (c : FdCall) (s : Stamp) (r : Result) :
    c.found s r = .item (c.item s r) ↔ c.Readable := by
  cases c with
  | lseek fd offset whence =>
    rw [FdCall.Readable,← constantRead]
    simp [FdCall.found,FdCall.item,readSeekFlag]
  | llseek fd offset result whence =>
    rw [FdCall.Readable,← constantRead]
    simp [FdCall.found,FdCall.item,readSeekFlag]
  | dup3 oldFd newFd flags =>
    rw [FdCall.Readable,← constantRead,← dup3Read]
    simp [FdCall.found,FdCall.item]
  | clone args => simp [FdCall.found,FdCall.Readable,Option.isSome_iff_ne_none]
  | socket args => simp [FdCall.found,FdCall.Readable]
  | write | read | pwrite | pread | close | dup | dup2 | fcntl | pipe | sendfile =>
    exact iff_of_true rfl trivial

theorem fdCallable (c : FdCall) :
    Callable c.name ∧ quote ∉ c.name ∧ lparen ∉ c.name ∧ Unmarked c.name := by
  have table : ∀ name ∈ [ascii "write",ascii "read",ascii "pwrite",ascii "pwrite64",
      ascii "pread",ascii "pread64",ascii "close",ascii "lseek",ascii "_llseek",ascii "dup",
      ascii "dup2",ascii "dup3",ascii "fcntl",ascii "clone",ascii "socket",ascii "pipe",
      ascii "sendfile"],
      Callable name ∧ quote ∉ name ∧ lparen ∉ name ∧ Unmarked name := by
    decide +kernel
  refine table c.name ?_
  cases c with
  | pwrite wide _ _ _ _ => cases wide <;> simp [FdCall.name]
  | pread wide _ _ _ _ => cases wide <;> simp [FdCall.name]
  | write | read | close | lseek | llseek | dup | dup2 | dup3 | fcntl | clone | socket | pipe
  | sendfile => simp [FdCall.name]

def FdCall.code : FdCall → OpType
  | .write _ _ _ => .write
  | .read _ _ _ => .read
  | .pwrite _ _ _ _ _ => .pwrite
  | .pread _ _ _ _ _ => .pread
  | .close _ => .close
  | .lseek _ _ _ => .lseek
  | .llseek _ _ _ _ => .llseek
  | .dup _ => .dup
  | .dup2 _ _ => .dup2
  | .dup3 _ _ _ => .dup3
  | .fcntl _ _ => .fcntl
  | .clone _ => .clone
  | .socket _ => .socket
  | .pipe _ _ => .pipe
  | .sendfile _ _ _ _ => .sendfile

theorem fdCode (c : FdCall) : operationCode c.name = c.code := by
  cases c with
  | pwrite wide _ _ _ _ => cases wide <;> rfl
  | pread wide _ _ _ _ => cases wide <;> rfl
  | write | read | close | lseek | llseek | dup | dup2 | dup3 | fcntl | clone | socket | pipe
  | sendfile => rfl

section Parts
variable {rest : Bytes}

theorem numNext (z : Int) (rest : Bytes) :
    ∀ c, (signed z ++ rest).head? = some c → isSpace c = false :=
  headAppend (signedSome z) (signedBytes digitNoSpace rfl)

theorem intRead (z : Int) (breaks : Breaks rest) : Reads [d] (signed z ++ rest) [.num z] rest :=
  Lib.readsSigned (by decide) z breaks

theorem longRead (z : Int) (breaks : Breaks rest) : Reads [i64] (signed z ++ rest) [.num z] rest :=
  Lib.readsSigned (by decide) z breaks

theorem sepBreaks (rest : Bytes) : Breaks (sep rest) := Lib.breaksCons (by decide) _

theorem bracketBreaks (rest : Bytes) : Breaks (rbracket :: rest) := Lib.breaksCons (by decide) _

theorem sepRead (next : ∀ c, rest.head? = some c → isSpace c = false) :
    Reads (lits ", ") (sep rest) [] rest := sepReads next

theorem wordRead (word rest : Bytes) : Reads (word.map .lit) (word ++ rest) [] rest := by
  induction word with
  | nil =>
    intro g
    rw [List.map_nil,List.nil_append,List.nil_append]
    cases Lib.sscanf g rest <;> rfl
  | cons c word ih => exact (Lib.readsLit c).append ih

theorem constantReads {table : List (Bytes × Int32)} (w : Constant table)
    (fits : w.text.length < MAX_STRING) (r : Result) (tail : Bytes) :
    Reads [.upto rparen none MAX_STRING] (w.text ++ r.print tail) [.text w.text]
      (r.print tail) :=
  Lib.readsUpto w.begun w.plain fits (fun _ none => by cases none)
    fun c first => (Option.some.inj first).symm

theorem constantNext {table : List (Bytes × Int32)} (w : Constant table) (rest : Bytes) :
    ∀ c, (w.text ++ rest).head? = some c → isSpace c = false := by
  intro c first
  rw [List.head?_append_of_ne_nil _ w.begun] at first
  exact w.lead c first

end Parts

theorem bracketRead (z : Int) (rest : Bytes) :
    Reads (lits ", [" ++ [i64]) (sep (lbracket :: (signed z ++ rbracket :: rest))) [.num z]
      (rbracket :: rest) := by
  have next : ∀ c, (lbracket :: (signed z ++ rbracket :: rest)).head? = some c →
      isSpace c = false := fun c first => by
    cases first
    rfl
  have opens : Reads (lits ", [") (sep (lbracket :: (signed z ++ rbracket :: rest))) []
      (signed z ++ rbracket :: rest) := (sepRead next).append (Lib.readsLit lbracket)
  exact opens.append (longRead z (bracketBreaks rest))

theorem closeBracket {rest : Bytes} (next : ∀ c, rest.head? = some c → isSpace c = false) :
    Reads (lits "], ") (rbracket :: sep rest) [] rest :=
  (Lib.readsLit rbracket).append (sepRead next)

section Front
variable (s : Stamp) (c : FdCall) (rest : Bytes)

theorem argsReads : Reads argsFormat (s.print (c.name ++ lparen :: rest))
    [.num s.pid,.text s.time] rest := by
  obtain ⟨real,_,plain,_⟩ := fdCallable c
  have skip : Reads [.skip lparen] (c.name ++ lparen :: rest) [] (lparen :: rest) :=
    Lib.readsSkip real.some plain fun b first => (Option.some.inj first).symm
  exact ((stampReads s (callNext real _)).append skip).append (Lib.readsLit lparen)

theorem leadReads : Reads (.space :: argsFormat) (s.print (c.name ++ lparen :: rest))
    [.num s.pid,.text s.time] rest := by
  have blanks : Reads [.space] (s.print (c.name ++ lparen :: rest)) []
      (s.print (c.name ++ lparen :: rest)) := readsBlanks 0 (stampHead s _)
  exact blanks.append (argsReads s c rest)

end Front

section Readers
variable {s : Stamp} {r : Result} {tail : Bytes}

theorem closeRead (fd : Int32) : straceReadClose ((FdCall.close fd).line s r tail) =
    .ok ((FdCall.close fd).found s r) := by
  have reads := ((leadReads s (.close fd) _).append
    (intRead fd.toInt (resultBreaks r tail))).append (intReads r tail)
  rw [straceReadClose,FdCall.line,FdCall.args,scanReads reads]
  change (.ok (.item (.close ⟨Int32.ofInt fd.toInt,Int32.ofInt r.retval,
    opInfo s.pid s.time r.time⟩)) : Scan Found) = _
  rw [Int32.ofInt_toInt,opInfoRead]
  rfl

theorem dupRead (fd : Int32) : straceReadDup ((FdCall.dup fd).line s r tail) =
    .ok ((FdCall.dup fd).found s r) := by
  have reads := ((argsReads s (.dup fd) _).append
    (intRead fd.toInt (resultBreaks r tail))).append (intReads r tail)
  rw [straceReadDup,FdCall.line,FdCall.args,scanReads reads]
  change (.ok (.item (.dup ⟨Int32.ofInt r.retval,Int32.ofInt fd.toInt,0,Int32.ofInt r.retval,
    opInfo s.pid s.time r.time⟩)) : Scan Found) = _
  rw [Int32.ofInt_toInt,opInfoRead]
  rfl

theorem dup2Read (oldFd newFd : Int32) :
    straceReadDup2 ((FdCall.dup2 oldFd newFd).line s r tail) =
      .ok ((FdCall.dup2 oldFd newFd).found s r) := by
  have reads := ((((argsReads s (.dup2 oldFd newFd) _).append
    (intRead oldFd.toInt (sepBreaks _))).append (sepRead (numNext _ _))).append
    (intRead newFd.toInt (resultBreaks r tail))).append (intReads r tail)
  rw [straceReadDup2,FdCall.line,FdCall.args,scanReads reads]
  change (.ok (.item (.dup2 ⟨Int32.ofInt newFd.toInt,Int32.ofInt oldFd.toInt,0,
    Int32.ofInt r.retval,opInfo s.pid s.time r.time⟩)) : Scan Found) = _
  rw [Int32.ofInt_toInt,Int32.ofInt_toInt,opInfoRead]
  rfl

theorem dup3ReadLine (oldFd newFd : Int32) (flags : Constant dup3Flags)
    (fits : flags.text.length < MAX_STRING) :
    straceReadDup3 ((FdCall.dup3 oldFd newFd flags).line s r tail) =
      .ok ((FdCall.dup3 oldFd newFd flags).found s r) := by
  have reads := ((((((argsReads s (.dup3 oldFd newFd flags) _).append
    (intRead oldFd.toInt (sepBreaks _))).append (sepRead (numNext _ _))).append
    (intRead newFd.toInt (sepBreaks _))).append (sepRead (constantNext flags _))).append
    (constantReads flags fits r tail)).append (intReads r tail)
  rw [straceReadDup3,dup3Format,FdCall.line,FdCall.args,scanReads reads]
  change (.ok (.item (.dup3 ⟨Int32.ofInt newFd.toInt,Int32.ofInt oldFd.toInt,
    readDup3Flags flags.text,Int32.ofInt r.retval,opInfo s.pid s.time r.time⟩)) : Scan Found) = _
  rw [Int32.ofInt_toInt,Int32.ofInt_toInt,opInfoRead]
  rfl

theorem lseekRead (fd : Int32) (offset : Int64) (whence : Constant seekFlags)
    (fits : whence.text.length < MAX_STRING) :
    straceReadLseek ((FdCall.lseek fd offset whence).line s r tail) =
      .ok ((FdCall.lseek fd offset whence).found s r) := by
  have reads := ((((((argsReads s (.lseek fd offset whence) _).append
    (intRead fd.toInt (sepBreaks _))).append (sepRead (numNext _ _))).append
    (longRead offset.toInt (sepBreaks _))).append (sepRead (constantNext whence _))).append
    (constantReads whence fits r tail)).append (int64Reads r tail)
  rw [straceReadLseek,lseekFormat,FdCall.line,FdCall.args,scanReads reads]
  change (.ok (.item (.lseek ⟨Int32.ofInt fd.toInt,readSeekFlag whence.text,
    Int64.ofInt offset.toInt,Int64.ofInt r.retval,opInfo s.pid s.time r.time⟩)) : Scan Found) = _
  rw [Int32.ofInt_toInt,Int64.ofInt_toInt,opInfoRead]
  rfl

theorem llseekRead (fd : Int32) (offset result : Int64) (whence : Constant seekFlags)
    (fits : whence.text.length < MAX_STRING) :
    straceReadLlseek ((FdCall.llseek fd offset result whence).line s r tail) =
      .ok ((FdCall.llseek fd offset result whence).found s r) := by
  have reads := (((((((leadReads s (.llseek fd offset result whence) _).append
    (intRead fd.toInt (sepBreaks _))).append (sepRead (numNext _ _))).append
    (longRead offset.toInt (sepBreaks _))).append (bracketRead result.toInt _)).append
    (closeBracket (constantNext whence _))).append
    (constantReads whence fits r tail)).append (int64Reads r tail)
  rw [← List.append_assoc] at reads
  rw [straceReadLlseek,llseekFormat,FdCall.line,FdCall.args,scanReads reads]
  change (.ok (.item (.llseek ⟨Int32.ofInt fd.toInt,Int64.ofInt offset.toInt,
    Int64.ofInt result.toInt,readSeekFlag whence.text,Int64.ofInt r.retval,
    opInfo s.pid s.time r.time⟩)) : Scan Found) = _
  rw [Int32.ofInt_toInt,Int64.ofInt_toInt,Int64.ofInt_toInt,opInfoRead]
  rfl

theorem pipeRead (fd1 fd2 : Int32) : straceReadPipe ((FdCall.pipe fd1 fd2).line s r tail) =
    .ok ((FdCall.pipe fd1 fd2).found s r) := by
  have plain : lbracket ∉ (FdCall.pipe fd1 fd2).name ++ [lparen] :=
    (by decide +kernel : lbracket ∉ ascii "pipe" ++ [lparen])
  have blanks (rest : Bytes) : Reads [.space] (s.print ((FdCall.pipe fd1 fd2).name ++ rest)) []
      (s.print ((FdCall.pipe fd1 fd2).name ++ rest)) := readsBlanks 0 (stampHead s _)
  have skip (rest : Bytes) : Reads [.skip lbracket] ((FdCall.pipe fd1 fd2).name ++ [lparen] ++
      lbracket :: rest) [] (lbracket :: rest) :=
    Lib.readsSkip (by simp) plain fun c first => (Option.some.inj first).symm
  simp only [List.append_assoc,List.singleton_append] at skip
  have front (rest : Bytes) := (((blanks _).append (stampReads s
    (callNext (fdCallable (.pipe fd1 fd2)).1 _))).append (skip rest)).append (Lib.readsLit lbracket)
  have reads := (((((front _).append (intRead fd1.toInt (sepBreaks _))).append
    (sepRead (numNext _ _))).append (intRead fd2.toInt (bracketBreaks _))).append
    (Lib.readsLit rbracket)).append (intReads r tail)
  rw [straceReadPipe,FdCall.line,FdCall.args]
  have ran : scan (.space :: stampFormat ++ [.skip lbracket] ++ lits "[" ++ [d] ++ lits ", " ++
      [d] ++ lits "]" ++ resultFormat d)
      (s.print ((FdCall.pipe fd1 fd2).name ++ lparen :: lbracket ::
        (signed fd1.toInt ++ sep (signed fd2.toInt ++ rbracket :: r.print tail)))) =
      .ok [.num s.pid,.text s.time,.num fd1.toInt,.num fd2.toInt,.num r.retval,.text r.time] :=
    scanReads reads
  rw [ran]
  change (.ok (.item (.pipe ⟨Int32.ofInt fd1.toInt,Int32.ofInt fd2.toInt,0,Int32.ofInt r.retval,
    opInfo s.pid s.time r.time⟩)) : Scan Found) = _
  rw [Int32.ofInt_toInt,Int32.ofInt_toInt,opInfoRead]
  rfl

theorem socketRead (args : SocketArgs) : readSocketStrace ((FdCall.socket args).line s r tail) =
    .ok ((FdCall.socket args).found s r) := by
  have plain : rparen ∉ (FdCall.socket args).name ++ lparen :: args.text := by
    have name : rparen ∉ (FdCall.socket args).name := (by decide +kernel : rparen ∉ ascii "socket")
    simp only [List.mem_append,List.mem_cons,not_or]
    exact ⟨name,by decide,args.plain⟩
  have skip (rest : Bytes) : Reads [.skip rparen] ((FdCall.socket args).name ++ lparen ::
      args.text ++ rparen :: rest) [] (rparen :: rest) :=
    Lib.readsSkip (by simp) plain fun c first => (Option.some.inj first).symm
  simp only [List.append_assoc,List.cons_append] at skip
  have front (rest : Bytes) := (stampReads s (callNext (fdCallable (.socket args)).1 _)).append
    (skip rest)
  have text : (FdCall.socket args).line s r tail = s.print ((FdCall.socket args).name ++
      lparen :: (args.text ++ if args.nested then rparen :: r.print tail else r.print tail)) := rfl
  rw [readSocketStrace,text,FdCall.found]
  cases args.nested with
  | false =>
    have reads := (front _).append (intReads r tail)
    have ran : scan (stampFormat ++ [.skip rparen] ++ resultFormat d) (s.print
        ((FdCall.socket args).name ++ lparen :: (args.text ++ r.print tail))) =
        .ok [.num s.pid,.text s.time,.num r.retval,.text r.time] := scanReads reads
    simp only [if_neg Bool.false_ne_true]
    rw [ran]
    change (.ok (.item (.socket ⟨Int32.ofInt r.retval,opInfo s.pid s.time r.time⟩)) :
      Scan Found) = _
    rw [opInfoRead]
    rfl
  | true =>
    have space : Reads [.space] (r.print tail) [] (r.print tail) :=
      readsBlanks 0 fun c first => by
        cases first
        rfl
    have stops := (((front _).append (Lib.readsLit rparen)).append space).stops
      (c := eq) (g := .space :: ([d,.skip lt] ++ lits "<" ++ [.upto gt none MAX_TIME_STRING]))
      (by
        intro first
        have other : rparen = eq := Option.some.inj first
        exact absurd other (by decide))
    have ran : scan (stampFormat ++ [.skip rparen] ++ resultFormat d) (s.print
        ((FdCall.socket args).name ++ lparen :: (args.text ++ rparen :: r.print tail))) =
        .ok [.num s.pid,.text s.time] := by
      rw [scan]
      have format : stampFormat ++ [.skip rparen] ++ resultFormat d =
          stampFormat ++ [.skip rparen] ++ [.lit rparen] ++ [.space] ++
            .lit eq :: (.space :: ([d,.skip lt] ++ lits "<" ++
            [.upto gt none MAX_TIME_STRING])) := by
        simp only [List.append_assoc]
        rfl
      rw [format,stops]
      rfl
    simp only [if_pos]
    rw [ran]
    rfl

theorem cloneFlag (names : List Bytes) (flags : UInt32) (kept : flags = 0 ∨ flags = CLONE_FILES) :
    names.foldl (fun flags n => flags ||| readCloneFlag n) flags =
      if ascii "CLONE_FILES" ∈ names then CLONE_FILES else flags := by
  induction names generalizing flags with
  | nil => rfl
  | cons n names ih =>
    rw [List.foldl_cons]
    rcases eq_or_ne n (ascii "CLONE_FILES") with same | other
    · have here : flags ||| readCloneFlag n = CLONE_FILES := by
        rw [readCloneFlag,if_pos same]
        rcases kept with zero | set
        · rw [zero]
          decide
        · rw [set]
          decide
      rw [here,ih _ (.inr rfl),ite_self,if_pos (same ▸ List.mem_cons_self)]
    · have here : flags ||| readCloneFlag n = flags := by
        rw [readCloneFlag,if_neg other,UInt32.or_zero]
      have later : ascii "CLONE_FILES" ∈ n :: names ↔ ascii "CLONE_FILES" ∈ names :=
        List.mem_cons.trans (or_iff_right other.symm)
      rw [here,ih _ kept]
      simp only [later]

theorem cloneMode (a : CloneArgs) : readCloneFlags a.text = a.mode := by
  rw [readCloneFlags,CloneArgs.text,Lib.tokensTail a.named fun n member => (a.parts n member).1]
  exact cloneFlag a.names 0 (.inl rfl)

section Clone
variable (a : CloneArgs)

theorem cloneBytes : comma ∉ a.text := by
  intro member
  have inside : comma ∈ joined bar a.names := List.mem_of_mem_tail member
  obtain ⟨n,known,here⟩ := List.mem_flatMap.mp inside
  rcases List.mem_cons.mp here with same | inner
  · exact absurd same (by decide)
  · exact (a.parts n known).2.1 inner

theorem cloneText : ∃ n more, n ∈ a.names ∧ a.text = n ++ more := by
  obtain ⟨n,rest,whole⟩ := List.exists_cons_of_ne_nil a.named
  refine ⟨n,joined bar rest,by rw [whole]; exact List.mem_cons_self,?_⟩
  rw [CloneArgs.text,whole]
  rfl

theorem cloneSome : a.text ≠ [] := by
  obtain ⟨n,more,member,whole⟩ := cloneText a
  rw [whole]
  exact List.append_ne_nil_of_left_ne_nil (a.parts n member).1.1 more

theorem cloneFront (s : Stamp) (rest : Bytes) :
    Reads (argsFormat ++ [.skip comma] ++ lits ", flags=")
      (s.print ((FdCall.clone a).name ++ lparen :: (a.front ++ sep (ascii "flags=" ++ rest))))
      [.num s.pid,.text s.time] rest := by
  have skip : Reads [.skip comma] (a.front ++ sep (ascii "flags=" ++ rest)) []
      (sep (ascii "flags=" ++ rest)) :=
    Lib.readsSkip a.frontBegun a.frontPlain.1 fun c first => (Option.some.inj first).symm
  have word : Reads (lits ", flags=") (sep (ascii "flags=" ++ rest)) [] rest :=
    (sepRead fun c first => by cases first; rfl).append (wordRead (ascii "flags=") rest)
  exact ((argsReads s (.clone a) _).append skip).append word

end Clone

theorem cloneRead (args : CloneArgs) (ends : comma ∉ tail)
    (fits : ((FdCall.clone args).line s r tail).length < MAX_STRING) :
    straceReadClone ((FdCall.clone args).line s r tail) =
      .ok ((FdCall.clone args).found s r) := by
  have text : (FdCall.clone args).line s r tail = s.print ((FdCall.clone args).name ++ lparen ::
      (args.front ++ sep (ascii "flags=" ++ (args.text ++ args.behind (r.print tail))))) := rfl
  have inside {rest : Bytes} (whole : (FdCall.clone args).line s r tail = s.print
      ((FdCall.clone args).name ++ lparen :: (args.front ++ sep (ascii "flags=" ++ rest)))) :
      rest.length < MAX_STRING := by
    rw [whole] at fits
    simp only [Stamp.print,sep,List.length_append,List.length_cons] at fits
    omega
  rw [straceReadClone,FdCall.found]
  cases more : args.more with
  | some m =>
    have behind : args.behind (r.print tail) = sep (m ++ r.print tail) := by
      rw [CloneArgs.behind,more]
    rw [behind] at text
    obtain ⟨begun,plain,_,lead⟩ := args.morePlain m more
    have short := inside text
    have flags : Reads [.upto comma none MAX_STRING] (args.text ++ sep (m ++ r.print tail))
        [.text args.text] (sep (m ++ r.print tail)) := by
      refine Lib.readsUpto (cloneSome args) (cloneBytes args) ?_ (fun _ none => by cases none)
        fun c first => (Option.some.inj first).symm
      rw [List.length_append] at short
      omega
    have next : ∀ c, (m ++ r.print tail).head? = some c → isSpace c = false := by
      intro c first
      rw [List.head?_append_of_ne_nil _ begun] at first
      exact lead c first
    have skip : Reads [.skip rparen] (m ++ r.print tail) [] (r.print tail) :=
      Lib.readsSkip begun plain fun c first => (Option.some.inj first).symm
    have reads := ((((cloneFront args s _).append flags).append (sepRead next)).append skip).append
      (intReads r tail)
    rw [text,cloneFormat,scanReads reads]
    change (.ok (.item (.clone ⟨readCloneFlags args.text,Int32.ofInt r.retval,
      opInfo s.pid s.time r.time⟩)) : Scan Found) = _
    rw [cloneMode,opInfoRead]
    rfl
  | none =>
    have behind : args.behind (r.print tail) = r.print tail := by rw [CloneArgs.behind,more]
    rw [behind] at text
    have short := inside text
    have flags : Reads [.upto comma none MAX_STRING] (args.text ++ r.print tail ++ [])
        [.text (args.text ++ r.print tail)] [] := by
      refine Lib.readsUpto (List.append_ne_nil_of_left_ne_nil (cloneSome args) _) ?_ short
        (fun _ none => by cases none) (fun _ none => by cases none)
      intro member
      rcases List.mem_append.mp member with flag | result
      · exact cloneBytes args flag
      · exact resultPlain r ends result
    rw [List.append_nil] at flags
    have fails : scan cloneFormat ((FdCall.clone args).line s r tail) =
        .ok [.num s.pid,.text s.time,.text (args.text ++ r.print tail)] := by
      have format : cloneFormat =
          argsFormat ++ [.skip comma] ++ lits ", flags=" ++ [.upto comma none MAX_STRING] ++
            .lit comma :: (.space :: ([.skip rparen] ++ resultFormat d)) := by
        simp only [cloneFormat,List.append_assoc]
        rfl
      rw [scan,format,text,((cloneFront args s _).append flags).stops (by simp)]
      rfl
    rw [fails]
    rfl

theorem sendfileRead (outFd inFd : Int32) (offset : Option Int64) (size : Int64) :
    straceReadSendfile ((FdCall.sendfile outFd inFd offset size).line s r tail) =
      .ok ((FdCall.sendfile outFd inFd offset size).found s r) := by
  have front (rest : Bytes) (next : ∀ c, rest.head? = some c → isSpace c = false) :=
    ((((argsReads s (.sendfile outFd inFd offset size) _).append
    (intRead outFd.toInt (sepBreaks _))).append (sepRead (numNext _ _))).append
    (intRead inFd.toInt (sepBreaks rest))).append (sepRead next)
  rw [straceReadSendfile]
  cases offset with
  | some offset =>
    have reads := ((((((argsReads s (.sendfile outFd inFd (some offset) size) _).append
      (intRead outFd.toInt (sepBreaks _))).append (sepRead (numNext _ _))).append
      (intRead inFd.toInt (sepBreaks _))).append (bracketRead offset.toInt _)).append
      ((closeBracket (numNext size.toInt _)).append
        (longRead size.toInt (resultBreaks r tail)))).append (int64Reads r tail)
    rw [← List.append_assoc,← List.append_assoc] at reads
    rw [FdCall.line,FdCall.args,scanReads reads]
    change (.ok (.item (.sendfile ⟨Int32.ofInt outFd.toInt,Int32.ofInt inFd.toInt,
      Int64.ofInt offset.toInt,Int64.ofInt size.toInt,Int64.ofInt r.retval,
      opInfo s.pid s.time r.time⟩)) : Scan Found) = _
    rw [Int32.ofInt_toInt,Int32.ofInt_toInt,Int64.ofInt_toInt,Int64.ofInt_toInt,opInfoRead]
    rfl
  | none =>
    have word : Reads (lits ", NULL, ") (sep (ascii "NULL" ++ sep (signed size.toInt ++
        r.print tail))) [] (signed size.toInt ++ r.print tail) :=
      ((sepRead fun c first => by cases first; rfl).append
        (wordRead (ascii "NULL") _)).append (sepRead (numNext _ _))
    have reads := ((((((argsReads s (.sendfile outFd inFd none size) _).append
      (intRead outFd.toInt (sepBreaks _))).append (sepRead (numNext _ _))).append
      (intRead inFd.toInt (sepBreaks _))).append word).append
      (longRead size.toInt (resultBreaks r tail))).append (int64Reads r tail)
    have format : argsFormat ++ [d] ++ lits ", " ++ [d] ++ lits ", [" ++ [i64] ++ lits "], " ++
        [i64] ++ resultFormat i64 = argsFormat ++ [d] ++ lits ", " ++ [d] ++ lits ", " ++
          .lit lbracket :: ([i64] ++ (lits "], " ++ ([i64] ++ resultFormat i64))) := by
      simp only [List.append_assoc]
      rfl
    have stops := (front (ascii "NULL" ++ sep (signed size.toInt ++ r.print tail))
      fun c first => by cases first; rfl).stops (c := lbracket)
      (g := [i64] ++ (lits "], " ++ ([i64] ++ resultFormat i64))) (by
        intro first
        have other : (0x4e : UInt8) = lbracket := Option.some.inj first
        exact absurd other (by decide))
    have fails : scan (argsFormat ++ [d] ++ lits ", " ++ [d] ++ lits ", [" ++ [i64] ++ lits "], " ++
        [i64] ++ resultFormat i64) ((FdCall.sendfile outFd inFd none size).line s r tail) =
        .ok [.num s.pid,.text s.time,.num outFd.toInt,.num inFd.toInt] := by
      rw [scan,format,FdCall.line,FdCall.args,stops]
      rfl
    rw [fails]
    change (scan (argsFormat ++ [d] ++ lits ", " ++ [d] ++ lits ", NULL, " ++ [i64] ++
      resultFormat i64) ((FdCall.sendfile outFd inFd none size).line s r tail) >>= _) = _
    rw [FdCall.line,FdCall.args,scanReads reads]
    change (.ok (.item (.sendfile ⟨Int32.ofInt outFd.toInt,Int32.ofInt inFd.toInt,
      OFFSET_INVAL,Int64.ofInt size.toInt,Int64.ofInt r.retval,
      opInfo s.pid s.time r.time⟩)) : Scan Found) = _
    rw [Int32.ofInt_toInt,Int32.ofInt_toInt,Int64.ofInt_toInt,opInfoRead]
    rfl

section Data
variable (c : FdCall) (fd : Int32) (dots : Bool)

theorem dataFront (rest : Bytes) : Reads dataFormat
    (s.print (c.name ++ lparen :: (signed fd.toInt ++ sep (dataText dots rest))))
    [.num s.pid,.text s.time,.num fd.toInt] (dataText dots rest) :=
  ((leadReads s c _).append (intRead fd.toInt (sepBreaks _))).append
    (sepRead fun c first => by cases first; rfl)

theorem dataComma (rest : Bytes) : stracePosComma
    (s.print (c.name ++ lparen :: (signed fd.toInt ++ sep (dataText dots (sep rest))))) =
      .ok (some (sep rest)) := by
  have number : quote ∉ signed fd.toInt := by
    have digits : ∀ c, isDigit 10 c = true → c ≠ quote := by
      intro c digit same
      rw [same] at digit
      revert digit
      decide
    exact fun member => signedBytes digits (by decide) quote member rfl
  have clean : quote ∉ s.print (c.name ++ lparen :: (signed fd.toInt ++ [comma,blank])) := by
    rw [← List.nil_append (c.name ++ _),printFront]
    simp only [List.mem_append,List.mem_cons,List.not_mem_nil,or_false,not_or]
    exact ⟨stampOther s (by decide) (by decide),(fdCallable c).2.1,by decide,number,by decide,
      by decide⟩
  have some : s.print (c.name ++ lparen :: (signed fd.toInt ++ [comma,blank])) ≠ [] :=
    List.append_ne_nil_of_left_ne_nil (Lib.numeralSome 10 s.pid) _
  have whole : s.print (c.name ++ lparen :: (signed fd.toInt ++ sep (dataText dots (sep rest)))) =
      s.print (c.name ++ lparen :: (signed fd.toInt ++ [comma,blank])) ++ quote :: ([] ++ quote ::
        ((if dots then ascii "..." else []) ++ comma :: (blank :: rest))) := by
    rw [← printFront]
    simp only [sep,dataText,List.append_assoc,List.cons_append,List.nil_append]
  rw [whole,posCommaQuoted some clean,behindQuote]
  cases dots with
  | false => rfl
  | true => rfl

theorem dataRead (record : Int32 → Int64 → Int64 → OpInfo → Op) (size : Int64) :
    straceReadData record (s.print (c.name ++ lparen :: (signed fd.toInt ++
      sep (dataText dots (sep (signed size.toInt ++ r.print tail)))))) =
      .ok (.item (record fd size (Int64.ofInt r.retval) (callInfo s r))) := by
  have reads := ((sepRead (numNext size.toInt _)).append
    (longRead size.toInt (resultBreaks r tail))).append (int64Reads r tail)
  simp only [straceReadData,scanReads (dataFront c fd dots _),dataComma,scanReads reads,bind,
    Except.bind,pure,Except.pure,List.nil_append,List.cons_append,Int32.ofInt_toInt,
    Int64.ofInt_toInt,opInfoRead]

theorem dataAtRead (record : Int32 → Int64 → Int64 → Int64 → OpInfo → Op) (size offset : Int64) :
    straceReadDataAt record (s.print (c.name ++ lparen :: (signed fd.toInt ++
      sep (dataText dots (sep (signed size.toInt ++ sep (signed offset.toInt ++
        r.print tail))))))) =
      .ok (.item (record fd size offset (Int64.ofInt r.retval) (callInfo s r))) := by
  have reads := ((((sepRead (numNext size.toInt _)).append
    (longRead size.toInt (sepBreaks _))).append (sepRead (numNext offset.toInt _))).append
    (longRead offset.toInt (resultBreaks r tail))).append (int64Reads r tail)
  simp only [straceReadDataAt,scanReads (dataFront c fd dots _),dataComma,scanReads reads,bind,
    Except.bind,pure,Except.pure,List.nil_append,List.cons_append,Int32.ofInt_toInt,
    Int64.ofInt_toInt,opInfoRead]

end Data

theorem dupReplaced (fd : Int32) : dupLine (Int32.ofInt s.pid) s.time fd (Int32.ofInt r.retval)
    r.time = (FdCall.dup fd).line { s with gap := 0 } { r with
      pad := 0
      retval := (Int32.ofInt r.retval).toInt
      note := []
      noteLead := fun _ first => by cases first
      notePlain := fun _ member => by cases member
      noteUnmarked := by decide
      padFits := by decide
      retvalFits := ⟨Int.le_trans (by decide) (Int32.le_toInt _),
        Int.lt_trans (Int32.toInt_lt _) (by decide)⟩
      noteFits := by decide } [] := by
  have pid : (Int32.ofInt s.pid).toInt = s.pid := int32Small s.pidFits
  have opens : ascii " dup(" = blank :: (ascii "dup" ++ [lparen]) := rfl
  have closes : ascii ") = " = rparen :: blank :: eq :: [blank] := rfl
  have time : ascii " <" = blank :: [lt] := rfl
  have ends : ascii ">" = [gt] := rfl
  have name : (FdCall.dup fd).name = ascii "dup" := rfl
  rw [dupLine,pid,opens,closes,time,ends,FdCall.line,FdCall.args,name,signedNat]
  simp only [Stamp.print,Result.print,Stamp.time,Result.time,List.append_assoc,List.cons_append,
    List.nil_append,List.replicate_one,Nat.zero_add]

theorem fcntlRead (fd least : Int32) : straceReadFcntl ((FdCall.fcntl fd least).line s r tail) =
    .ok ((FdCall.fcntl fd least).found s r) := by
  have word : Reads (lits ", F_DUPFD, ") (sep (ascii "F_DUPFD" ++ sep (signed least.toInt ++
      r.print tail))) [] (signed least.toInt ++ r.print tail) :=
    ((sepRead fun c first => by cases first; rfl).append
      (wordRead (ascii "F_DUPFD") _)).append (sepRead (numNext _ _))
  have reads := ((((argsReads s (.fcntl fd least) _).append
    (intRead fd.toInt (sepBreaks _))).append word).append
    (intRead least.toInt (resultBreaks r tail))).append (intReads r tail)
  have marked : ascii "F_DUPFD" <:+: (FdCall.fcntl fd least).line s r tail := by
    rw [FdCall.line,FdCall.args,← List.nil_append ((FdCall.fcntl fd least).name ++ _),printFront]
    refine ⟨s.print [] ++ ((FdCall.fcntl fd least).name ++ lparen :: (signed fd.toInt ++
      [comma,blank])),sep (signed least.toInt ++ r.print tail),?_⟩
    simp only [sep,List.append_assoc,List.cons_append,List.nil_append]
  have found : ¬ (strstr (ascii "F_DUPFD") ((FdCall.fcntl fd least).line s r tail)).isNone := by
    rw [Option.isNone_iff_eq_none]
    exact Option.isSome_iff_ne_none.mp (Lib.strstrInfix.mpr marked)
  rw [straceReadFcntl,if_neg found,FdCall.line,FdCall.args,scanReads reads]
  change straceReadDup (dupLine (Int32.ofInt s.pid) s.time (Int32.ofInt fd.toInt)
    (Int32.ofInt r.retval) r.time) = _
  rw [Int32.ofInt_toInt,dupReplaced,dupRead]
  simp only [FdCall.found,FdCall.item,Int32.ofInt_toInt]
  rfl

theorem fdRead (c : FdCall) (ends : comma ∉ tail) (fits : (c.line s r tail).length < MAX_STRING) :
    straceRead (operationCode c.name) (c.line s r tail) = .ok (c.found s r) := by
  rw [fdCode]
  cases c with
  | write fd dots size =>
    exact dataRead (.write fd dots size) fd dots
      (fun fd size retval info => .write ⟨fd,size,retval,info⟩) size
  | read fd dots size =>
    exact dataRead (.read fd dots size) fd dots
      (fun fd size retval info => .read ⟨fd,size,retval,info⟩) size
  | pwrite wide fd dots size offset =>
    exact dataAtRead (.pwrite wide fd dots size offset) fd dots
      (fun fd size offset retval info => .pwrite ⟨fd,size,offset,retval,info⟩) size offset
  | pread wide fd dots size offset =>
    exact dataAtRead (.pread wide fd dots size offset) fd dots
      (fun fd size offset retval info => .pread ⟨fd,size,offset,retval,info⟩) size offset
  | close fd => exact closeRead fd
  | lseek fd offset whence =>
    refine lseekRead fd offset whence ?_
    simp only [FdCall.line,FdCall.args,Stamp.print,sep,List.length_append,List.length_cons] at fits
    omega
  | llseek fd offset result whence =>
    refine llseekRead fd offset result whence ?_
    simp only [FdCall.line,FdCall.args,Stamp.print,sep,List.length_append,List.length_cons] at fits
    omega
  | dup fd => exact dupRead fd
  | dup2 oldFd newFd => exact dup2Read oldFd newFd
  | dup3 oldFd newFd flags =>
    refine dup3ReadLine oldFd newFd flags ?_
    simp only [FdCall.line,FdCall.args,Stamp.print,sep,List.length_append,List.length_cons] at fits
    omega
  | fcntl fd least => exact fcntlRead fd least
  | clone args => exact cloneRead args ends fits
  | socket args => exact socketRead args
  | pipe fd1 fd2 => exact pipeRead fd1 fd2
  | sendfile outFd inFd offset size => exact sendfileRead outFd inFd offset size

end Readers

section Unmarked
variable {rest : Bytes}

theorem sepUnmarked : Unmarked (sep rest) ↔ Unmarked rest :=
  (unmarkedCons (by decide)).trans (unmarkedCons (by decide))

theorem numUnmarked (z : Int) : Unmarked (signed z ++ rest) ↔ Unmarked rest :=
  unmarkedRun (signedBytes (fun _ => digitBetween) (by decide))

theorem bracketUnmarked (z : Int) :
    Unmarked (lbracket :: (signed z ++ rbracket :: rest)) ↔ Unmarked rest :=
  (unmarkedCons (by decide)).trans ((numUnmarked z).trans (unmarkedCons (by decide)))

theorem dataUnmarked (dots : Bool) : Unmarked (dataText dots rest) ↔ Unmarked rest := by
  refine (unmarkedCons (by decide)).trans ((unmarkedCons (by decide)).trans (unmarkedRun ?_))
  cases dots with
  | false => exact fun c member => by cases member
  | true => exact (by decide +kernel : ∀ c ∈ ascii "...", Between c)

theorem upperUnmarked {word : Bytes} (upper : ∀ c ∈ word, Between c) :
    Unmarked (word ++ sep rest) ↔ Unmarked rest := (unmarkedRun upper).trans sepUnmarked

end Unmarked

theorem cloneUnmarked (a : CloneArgs) : Unmarked a.text := by
  have all {names : List Bytes} (parts : ∀ n ∈ names, Unmarked n) :
      Unmarked (joined bar names) := by
    induction names with
    | nil => exact (by decide : Unmarked [])
    | cons n names ih =>
      have later := ih fun m member => parts m (List.mem_cons_of_mem _ member)
      have here := parts n List.mem_cons_self
      rw [Lib.joinedCons,unmarkedCons (by decide)]
      cases names with
      | nil =>
        rw [show joined bar [] = [] from rfl,List.append_nil]
        exact here
      | cons m names =>
        rw [Lib.joinedCons] at later ⊢
        exact (unmarkedJoin (by decide)).mpr ⟨here,(unmarkedCons (by decide)).mp later⟩
  have whole := all fun n member => (a.parts n member).2.2.1
  rw [Lib.joinedTail a.named,unmarkedCons (by decide)] at whole
  exact whole

theorem fdUnmarked (c : FdCall) (s : Stamp) (r : Result) {tail : Bytes} (plain : Unmarked tail) :
    Unmarked (c.line s r tail) := by
  have result : Unmarked (r.print tail) := (resultUnmarked r tail).mpr plain
  have inner : Unmarked (r.print tail).tail := (unmarkedCons (by decide)).mp result
  have text {word : Bytes} (clean : Unmarked word) : Unmarked (word ++ r.print tail) :=
    (unmarkedJoin (by decide)).mpr ⟨clean,inner⟩
  rw [FdCall.line,stampUnmarked,unmarkedJoin (by decide)]
  refine ⟨(fdCallable c).2.2.2,?_⟩
  cases c with
  | write fd dots size | read fd dots size =>
    rw [FdCall.args,numUnmarked,sepUnmarked,dataUnmarked,sepUnmarked,numUnmarked]
    exact result
  | pwrite wide fd dots size offset | pread wide fd dots size offset =>
    rw [FdCall.args,numUnmarked,sepUnmarked,dataUnmarked,sepUnmarked,numUnmarked,sepUnmarked,
      numUnmarked]
    exact result
  | close fd | dup fd =>
    rw [FdCall.args,numUnmarked]
    exact result
  | lseek fd offset whence =>
    rw [FdCall.args,numUnmarked,sepUnmarked,numUnmarked,sepUnmarked]
    exact text whence.unmarked
  | llseek fd offset result whence =>
    rw [FdCall.args,numUnmarked,sepUnmarked,numUnmarked,sepUnmarked,bracketUnmarked,sepUnmarked]
    exact text whence.unmarked
  | dup2 oldFd newFd =>
    rw [FdCall.args,numUnmarked,sepUnmarked,numUnmarked]
    exact result
  | dup3 oldFd newFd flags =>
    rw [FdCall.args,numUnmarked,sepUnmarked,numUnmarked,sepUnmarked]
    exact text flags.unmarked
  | fcntl fd least =>
    rw [FdCall.args,numUnmarked,sepUnmarked,upperUnmarked (by decide +kernel),numUnmarked]
    exact result
  | clone args =>
    have word (rest : Bytes) : Unmarked (ascii "flags=" ++ rest) ↔ Unmarked rest := by
      have split : ascii "flags=" ++ rest = ascii "flags" ++ eq :: rest := rfl
      rw [split,unmarkedJoin (by decide)]
      exact and_iff_right (by decide)
    rw [FdCall.args,CloneArgs.print,sep,unmarkedJoin (by decide),unmarkedCons (by decide),word]
    refine ⟨args.frontPlain.2,?_⟩
    unfold CloneArgs.behind
    cases more : args.more with
    | none => exact text (cloneUnmarked args)
    | some m =>
      exact (unmarkedJoin (by decide)).mpr ⟨cloneUnmarked args,(unmarkedCons (by decide)).mpr
        (text (args.morePlain m more).2.2.1)⟩
  | socket args =>
    rw [FdCall.args,SocketArgs.print]
    split
    · exact (unmarkedJoin (by decide)).mpr ⟨args.unmarked,result⟩
    · exact text args.unmarked
  | pipe fd1 fd2 =>
    rw [FdCall.args,unmarkedCons (by decide),numUnmarked,sepUnmarked,numUnmarked,
      unmarkedCons (by decide)]
    exact result
  | sendfile outFd inFd offset size =>
    cases offset with
    | none =>
      rw [FdCall.args,numUnmarked,sepUnmarked,numUnmarked,sepUnmarked,
        upperUnmarked (by decide +kernel),numUnmarked]
      exact result
    | some offset =>
      rw [FdCall.args,numUnmarked,sepUnmarked,numUnmarked,sepUnmarked,bracketUnmarked,sepUnmarked,
        numUnmarked]
      exact result

def FdCall.wide : FdCall → Bool
  | .write _ _ _ | .read _ _ _ | .pwrite _ _ _ _ _ | .pread _ _ _ _ _ | .lseek _ _ _
  | .llseek _ _ _ _ | .sendfile _ _ _ _ => true
  | _ => false

structure NumbersExact (wide : Bool) (s : Stamp) (r : Result) : Prop where
  pid : (callInfo s r).pid.toInt = s.pid
  start : (callInfo s r).start.tvSec.toInt = s.sec ∧ (callInfo s r).start.tvUsec.toInt = s.usec
  dur : (callInfo s r).dur.toInt = r.sec * 10 ^ 6 + r.usec
  retval : if wide then (Int64.ofInt r.retval).toInt = r.retval
    else (Int32.ofInt r.retval).toInt = r.retval

theorem numbersExact {wide : Bool} {s : Stamp} {r : Result} (brief : r.sec < 2147)
    (retval : wide = false → -2 ^ 31 ≤ r.retval ∧ r.retval < 2 ^ 31) : NumbersExact wide s r := by
  have zero : RecordExact s { r with
      retval := 0
      retvalFits := by decide } :=
    recordExact brief (show (-2 ^ 31 : Int) ≤ 0 ∧ (0 : Int) < 2 ^ 31 by decide)
  refine ⟨zero.pid,zero.start,zero.dur,?_⟩
  cases wide with
  | false => exact Int32.toInt_ofInt_of_le (retval rfl).1 (retval rfl).2
  | true => exact Int64.toInt_ofInt_of_le r.retvalFits.1 r.retvalFits.2

/-- The line is processed without an error and adds one item, which is that of the call, to the
last field. -/
def Logged (c : FdCall) (s : Stamp) (r : Result) (tail : Bytes) (stats : Bool)
    (st : StraceState) : Prop :=
  NumbersExact c.wide s r ∧ ∃ st', straceProcessLine stats (c.line s r tail) st = .ok (0,st') ∧
    st'.list = st.list ++ [(c.item s r).item]

/-- A descriptor call is read as it was made, but for a clone whose flags come last, a protocol in
parentheses and constants the reader has no name for. -/
theorem loggedIff {c : FdCall} {s : Stamp} {r : Result} {tail : Bytes} (ends : Ending tail)
    {st : StraceState} (tables : Tables st) {stats : Bool} (brief : r.sec < 2147)
    (retval : c.wide = false → -2 ^ 31 ≤ r.retval ∧ r.retval < 2 ^ 31)
    (fits : (c.line s r tail).length < MAX_STRING) : Logged c s r tail stats st ↔ c.Readable := by
  obtain ⟨comma,_,plain⟩ := ends.plain
  have unmarked := fdUnmarked c s r plain
  have read := fdRead c comma fits
  rw [← foundItem c s r]
  constructor
  · intro logged
    obtain ⟨_,st',ran,grown⟩ := logged
    have real := (fdCallable c).1
    have named : toName (operationText (c.line s r tail)) = .ok real.name := by
      rw [FdCall.line,operationPrinted s real (.inl rfl)]
      exact nameCallable real
    obtain ⟨t,code,same,_⟩ := codeRun named tables real.short stats
    rw [straceProcessLine,processPlain unmarked _ stats code] at ran
    obtain ⟨o,found,own⟩ := switchGrown ran (by rw [grown,same.1])
    have bytes : real.name.bytes = c.name := rfl
    rw [bytes,read] at found
    rw [Except.ok.inj found,itemInjective own]
  · intro item
    rw [item] at read
    obtain ⟨st',ran,grown,_⟩ := itemRun (fdCallable c).1 rfl unmarked read tables stats
    exact ⟨numbersExact brief retval,st',ran,grown⟩

def seekEnd : Constant seekFlags where
  value := SEEK_END
  text := ascii "SEEK_END"
  begun := by decide
  lead := fun _ first => Option.some.inj first ▸ rfl
  plain := by decide +kernel
  unmarked := by decide +kernel
  named := by decide +kernel

theorem loggedSeek : Logged (.lseek 3 (-10) seekEnd) someStamp someResult [newline] true
    (straceInit []) :=
  (loggedIff (.inr rfl) (initTables []) (by decide) (fun narrow => by cases narrow)
    (by decide +kernel)).mpr
    (.inr ⟨(ascii "SEEK_END",SEEK_END),by decide,rfl⟩)

def seekData : Constant seekFlags where
  value := 3
  text := ascii "SEEK_DATA"
  begun := by decide
  lead := fun _ first => Option.some.inj first ▸ rfl
  plain := by decide +kernel
  unmarked := by decide +kernel
  named := by decide +kernel

def vforkArgs : CloneArgs where
  front := ascii "child_stack=0x7f2a4c1ffff0"
  names := [ascii "CLONE_VM",ascii "CLONE_VFORK",ascii "SIGCHLD"]
  more := none
  frontBegun := by decide
  frontPlain := by decide +kernel
  named := by decide
  parts := fun n member => by
    have table : ∀ n ∈ [ascii "CLONE_VM",ascii "CLONE_VFORK",ascii "SIGCHLD"],
        (Lib.Component bar n ∧ comma ∉ n ∧ Unmarked n) ∧ n.head?.all (fun c => !isSpace c) := by
      decide +kernel
    obtain ⟨all,lead⟩ := table n member
    refine ⟨all.1,all.2.1,all.2.2,?_⟩
    intro c first
    rw [first] at lead
    simpa using lead
  morePlain := fun _ none => by cases none

def vforked : Result := { someResult with
  retval := 1234
  retvalFits := by decide }

def opFlag : Op → Option Int32
  | .lseek o => some o.flag
  | _ => none

-- A clone whose flags come last is refused, and SEEK_DATA becomes SEEK_SET.
theorem vforkRefused : ¬ Logged (.clone vforkArgs) someStamp vforked [newline] true
      (straceInit []) ∧
    ¬ Logged (.lseek 3 0 seekData) someStamp someResult [newline] true (straceInit []) := by
  constructor
  · intro logged
    obtain ⟨_,st',ran,_⟩ := logged
    have refused : (straceProcessLine true ((FdCall.clone vforkArgs).line someStamp vforked
        [newline]) (straceInit [])).map (·.1) = .ok (-1) := by
      decide +kernel
    rw [ran] at refused
    have zero : (0 : Int) = -1 := Except.ok.inj refused
    cases zero
  · intro logged
    obtain ⟨_,st',ran,grown⟩ := logged
    have flags : (straceProcessLine true ((FdCall.lseek 3 0 seekData).line someStamp someResult
        [newline]) (straceInit [])).map (·.2.list.map fun i => opFlag i.o) = .ok [some 0] := by
      decide +kernel
    rw [ran] at flags
    have read : st'.list.map (fun i => opFlag i.o) = [some 0] := Except.ok.inj flags
    rw [grown] at read
    have same : some (3 : Int32) = some 0 := (List.cons.inj read).1
    exact absurd same (by decide)

end IoApps.Strace
