import IoApps.Lib.Arena
import IoApps.Simulate

/-! The replicator: the descriptor tables of the traced processes, the calls that are replayed
or simulated, and what each recorded operation does. -/
namespace IoApps
open Lib (Bytes Arena Prog)

def CLONE_FILES : UInt32 := 0x400
def O_RDWR : Int32 := 2
def O_DIRECTORY : Int32 := 0x10000
def O_IGNORE : Int32 := Int32.minValue

inductive Device where
  | null | zero
  deriving DecidableEq, Repr

inductive Call where
  | «open» (name : CName) (flags : Int32) (mode : Option UInt32)
  | openDevice (device : Device)
  | close (fd : Int32)
  | read (fd : Int32) (size : Int64)
  | write (fd : Int32) (size : Int64)
  | pread (fd : Int32) (size offset : Int64)
  | pwrite (fd : Int32) (size offset : Int64)
  | lseek (fd : Int32) (offset : Int64) (flag : Int32)
  | sendfile (outFd inFd : Int32) (offset size : Int64)
  | unlink (name : CName)
  | mkdir (name : CName) (mode : UInt32)
  | rmdir (name : CName)
  | access (name : CName) (mode : UInt32)
  | stat (name : CName)
  deriving DecidableEq, Repr

structure Garbage where
  fdMap : FdMap
  mode : UInt32
  info : OpInfo

-- `kernel` answers a call after the calls made so far, the last one first; `fileToFile` is the
-- compile-time test of the kernel version for sendfile.
structure Env where
  actSimulate : Bool
  actReplicate : Bool
  fixMissing : Bool
  fileToFile : Bool
  sim : SimEnv
  namemap : Namemap
  kernel : List (Call × Int64) → Call → Int64
  garbage : Garbage

structure State where
  fdMaps : Arena FdMap
  nextItem : Nat
  tables : List (HashTable FdItem)
  fdMappings : HashTable ProcessItem
  usageMap : HashTable FdUsage
  globalParentPid : Int32
  globalDevnullFd : Int32
  globalDevzeroFd : Int32
  openFd : Int32
  pipeFd : Int32
  socketFd : Int32
  sim : Sim
  log : List (Call × Int64)

-- Besides the assertions, the uses of memory that C leaves undefined.
inductive Fault where
  | fd (f : FdFault)
  | sim (f : SimFault)
  | noAction
  | nullTable
  | useAfterFree
  deriving DecidableEq, Repr

abbrev Replay := Prog State Fault

def State.start : State where
  fdMaps := []
  nextItem := 0
  tables := []
  fdMappings := .init HASH_TABLE_SIZE
  usageMap := .init HASH_TABLE_SIZE
  globalParentPid := 0
  globalDevnullFd := 0
  globalDevzeroFd := 0
  openFd := 1000 - 1
  pipeFd := Int32.maxValue
  socketFd := 100000000 + 1
  sim := simulateInit
  log := []

section Memory

def key {α : Type} (o : Option α) : Replay α := Prog.ofOption (.fd .negativeKey) o

def ofFd {α : Type} : Except FdFault α → Replay α
  | .ok a => pure a
  | .error f => Prog.throw (.fd f)

def onSim {α : Type} (m : SimProg α) : Replay α := fun s =>
  match m s.sim with
  | .ok (a,sim) => .ok (a,{ s with sim := sim })
  | .error f => .error (.sim f)

def readTable (t : Nat) : Replay (HashTable FdItem) := do
  let s ← Prog.get
  Prog.ofOption .nullTable s.tables[t]?

def readMap (a : Nat) : Replay FdMap := do
  let s ← Prog.get
  Prog.ofOption .useAfterFree (s.fdMaps.read a)

def writeMap (a : Nat) (m : FdMap) : Replay Unit :=
  Prog.modify fun s => { s with fdMaps := s.fdMaps.write a m }

def findItem (t : Nat) (fd : Int32) : Replay (Option FdItem) := do
  let h ← readTable t
  key (h.find htOpsFdItem fd)

def increaseUsage (fd : Int32) : Replay Unit := do
  let s ← Prog.get
  let usage ← ofFd (increaseFdUsage s.usageMap fd)
  Prog.modify fun s => { s with usageMap := usage }

def insertItem (t : Nat) (k oldFd : Int32) (a : Nat) : Replay Unit := do
  let h ← readTable t
  let s ← Prog.get
  let h ← key (h.insert htOpsFdItem k ⟨s.nextItem,oldFd,a⟩)
  Prog.modify fun s => { s with tables := s.tables.set t h, nextItem := s.nextItem + 1 }

def allocMap (m : FdMap) : Replay Nat := do
  let s ← Prog.get
  Prog.modify fun s => { s with fdMaps := s.fdMaps.alloc m }
  pure s.fdMaps.fresh

def putItem (t : Nat) (k oldFd counted : Int32) (m : FdMap) : Replay Unit := do
  let a ← allocMap m
  insertItem t k oldFd a
  increaseUsage counted

def newItem (t : Nat) (k oldFd counted : Int32) (m : FdMap) : Replay Unit := do
  let m ← ofFd (insertParentFd m oldFd)
  putItem t k oldFd counted m

def getProcessHt (pid : Int32) : Replay (Option Nat) := do
  let s ← Prog.get
  let item ← key (s.fdMappings.find htOpsFdMapping pid)
  pure (item.bind ProcessItem.ht)

def linkProcess (pid : Int32) (ht : Option Nat) : Replay Unit := do
  let s ← Prog.get
  let mappings ← key (s.fdMappings.insert htOpsFdMapping pid ⟨pid,ht⟩)
  Prog.modify fun s => { s with fdMappings := mappings }

def newTable : Replay Nat := do
  let s ← Prog.get
  Prog.modify fun s => { s with tables := s.tables ++ [.init HASH_TABLE_SIZE] }
  pure s.tables.length

-- Each copied item has an fd_map of its own, the alias list included.
def copyItems (t : Nat) : List FdItem → Replay Unit
  | [] => pure ()
  | item :: rest => do
    let m ← readMap item.fdMap
    putItem t item.oldFd item.oldFd m.myFd m
    copyItems t rest

def duplicateProcessHt : Option Nat → Replay Nat
  | none => Prog.throw .nullTable
  | some h => do
    let old ← readTable h
    let t ← newTable
    copyItems t old.items
    pure t

def getPipeFd : Replay Int32 := do
  let s ← Prog.get
  let fd ← ofFd (countDown s.pipeFd)
  Prog.modify fun s => { s with pipeFd := fd }
  pure fd

def getSocketFd : Replay Int32 := do
  let s ← Prog.get
  let fd ← ofFd (countDown s.socketFd)
  Prog.modify fun s => { s with socketFd := fd }
  pure fd

def simulateGetOpenFd : Replay Int32 := do
  let s ← Prog.get
  let fd ← ofFd (countUp s.openFd)
  Prog.modify fun s => { s with openFd := fd }
  pure fd

end Memory

def digits (n width : Nat) : Bytes :=
  let text := (Nat.toDigits 10 n).map fun c => c.toNat.toUInt8
  List.replicate (width - text.length) 0x30 ++ text

def decimal06 (n : Int32) : Bytes :=
  if n < 0 then 0x2d :: digits n.toInt.natAbs 5 else digits n.toInt.natAbs 6

def unknownFile : Bytes := "UNKNOWN_FILE_".toList.map fun c => c.toNat.toUInt8

-- The text always fits, so nothing is cut off.
def replicateGetMissingName (pid fd : Int32) : CName :=
  CName.copy ((unknownFile ++ decimal06 pid ++ 0x5f :: decimal06 fd).take (MAX_STRING - 1))
    (by simp [MAX_STRING])

section Env
variable (env : Env)

def call (c : Call) : Replay Int64 := do
  let s ← Prog.get
  let answer := env.kernel s.log c
  Prog.modify fun s => { s with log := (c,answer) :: s.log }
  pure answer

def replicateClone (op : CloneOp) : Replay Unit := do
  let pid := op.retval
  if (← getProcessHt pid).isSome then pure ()
  else if op.mode &&& CLONE_FILES ≠ 0 then do
    let ht ← getProcessHt op.info.pid
    linkProcess pid ht
  else do
    let ht ← duplicateProcessHt (← getProcessHt op.info.pid)
    linkProcess pid (some ht)

def replicateMissingHt (pid : Int32) : Replay (Option Nat) := do
  if env.fixMissing then do
    let s ← Prog.get
    replicateClone ⟨CLONE_FILES,pid,{ env.garbage.info with pid := s.globalParentPid }⟩
    getProcessHt pid
  else pure none

def processHt (pid : Int32) : Replay (Option Nat) := do
  match ← getProcessHt pid with
  | some t => pure (some t)
  | none => replicateMissingHt env pid

-- The original open failed: it is tried again, and undone if it succeeds now.
def replicateFailedOpen (op : OpenOp) : Replay Unit := do
  match namemapGetName env.namemap op.name with
  | none => pure ()
  | some name =>
    if env.actReplicate then do
      let retval := (← call env (.open name 0 none)).toInt32
      if retval ≠ -1 then do
        let _ ← call env (.close retval)
        pure ()
      else pure ()
    else if env.actSimulate then onSim (simulateCreat env.sim { op with name := name })
    else pure ()

def simulateOpened (op : OpenOp) (name : CName) (flags : Int32) : Replay Unit :=
  if env.actSimulate ∧ flags &&& O_IGNORE = 0 then
    onSim (simulateCreat env.sim { op with name := name })
  else pure ()

def openedFd (op : OpenOp) (name : CName) (flags : Int32) : Replay Int32 :=
  if env.actReplicate ∧ flags &&& O_IGNORE = 0 then do
    let mode := if op.mode = MODE_UNDEF then none else some op.mode
    let answer ← call env (.open name flags mode)
    pure answer.toInt32
  else do
    simulateOpened env op name flags
    simulateGetOpenFd

def openedType (flags : Int32) : FileType :=
  if flags &&& O_IGNORE ≠ 0 then .ignore
  else if flags &&& O_DIRECTORY ≠ 0 then .dir
  else .reg

def openedMap (op : OpenOp) (name : CName) (flags myFd : Int32) : FdMap :=
  { newFdMap env.garbage.fdMap with
    myFd := myFd, type := openedType flags, curPos := 0, timeOpen := op.info.start,
    name := name, created := flags &&& O_CREAT }

def replicateOpen (op : OpenOp) : Replay Unit := do
  let fd := op.retval
  if fd = -1 then replicateFailedOpen env op
  else
    match ← processHt env op.info.pid with
    | none => pure ()
    | some t => do
      let (name,flags) := match namemapGetName env.namemap op.name with
        | none => (op.name,op.flags ||| O_IGNORE)
        | some name => (name,op.flags)
      match ← findItem t fd with
      | some _ => pure ()
      | none => do
        let retval ← openedFd env op name flags
        if retval = -1 then pure ()
        else newItem t fd fd retval (openedMap env op name flags retval)

def replicateGetFdMap (t : Nat) (fd : Int32) (info : OpInfo) : Replay (Option FdItem) := do
  match ← findItem t fd with
  | some item => pure (some item)
  | none =>
    if env.fixMissing then do
      replicateOpen env ⟨replicateGetMissingName info.pid fd,O_RDWR,env.garbage.mode,fd,
        { env.garbage.info with pid := info.pid, start := info.start }⟩
      findItem t fd
    else pure none

def withItem (pid fd : Int32) (info : OpInfo) (act : Nat → FdItem → Replay Unit) :
    Replay Unit := do
  match ← processHt env pid with
  | none => pure ()
  | some t =>
    match ← replicateGetFdMap env t fd info with
    | none => pure ()
    | some item => act t item

-- The common part of the four transfers; `moves` is for those that use the position.
def transferResult (recorded : Int64) (simulate : SimProg Unit) (replay : Call) : Replay Int64 :=
  if env.actSimulate then
    if recorded ≠ -1 then do
      onSim simulate
      pure recorded
    else pure recorded
  else if env.actReplicate then call env replay
  else Prog.throw .noAction

def replicateTransfer (fd : Int32) (info : OpInfo) (recorded : Int64) (moves : Bool)
    (simulate : FdMap → SimProg Unit) (replay : Int32 → Call) : Replay Unit :=
  withItem env info.pid fd info fun _ item => do
    let m ← readMap item.fdMap
    if supportedType m.type then do
      let retval ← transferResult env recorded (simulate m) (replay m.myFd)
      if moves then writeMap item.fdMap { m with curPos := m.curPos + retval.toUInt64 }
      else pure ()
    else pure ()

def replicateRead (op : ReadOp) : Replay Unit :=
  replicateTransfer env op.fd op.info op.retval true (simulateRead env.sim · op)
    (.read · op.size)

def replicateWrite (op : WriteOp) : Replay Unit :=
  replicateTransfer env op.fd op.info op.retval true (simulateWrite env.sim · op)
    (.write · op.size)

def replicatePread (op : PreadOp) : Replay Unit :=
  replicateTransfer env op.fd op.info op.retval false (simulatePread env.sim · op)
    (.pread · op.size op.offset)

def replicatePwrite (op : PwriteOp) : Replay Unit :=
  replicateTransfer env op.fd op.info op.retval false (simulatePwrite env.sim · op)
    (.pwrite · op.size op.offset)

-- No pipe is made; the two ends only get placeholders, counted under the recorded numbers.
def pipeItem (t : Nat) (fd : Int32) : Replay Unit := do
  let myFd ← getPipeFd
  newItem t fd fd fd { newFdMap env.garbage.fdMap with myFd := myFd, type := .fifo }

def replicatePipe (op : PipeOp) : Replay Unit := do
  if op.retval = -1 then pure ()
  else
    match ← processHt env op.info.pid with
    | none => pure ()
    | some t => do
      if (← findItem t op.fd1).isSome then pure ()
      else if (← findItem t op.fd2).isSome then pure ()
      else do
        pipeItem env t op.fd1
        pipeItem env t op.fd2

def replicateSocket (op : SocketOp) : Replay Unit := do
  let fd := op.retval
  if fd = -1 then pure ()
  else
    match ← processHt env op.info.pid with
    | none => pure ()
    | some t => do
      if (← findItem t fd).isSome then pure ()
      else do
        let retval ← getSocketFd
        newItem t fd fd retval { newFdMap env.garbage.fdMap with
          myFd := retval, type := .sock, timeOpen := op.info.start }

-- Whether the descriptor behind an item is closed, and with which result.
def closeUsage (m : FdMap) : Replay Int32 := do
  if supportedType m.type then do
    let s ← Prog.get
    let (usage,last) ← ofFd (decreaseFdUsage s.usageMap m.myFd)
    Prog.modify fun s => { s with usageMap := usage }
    if last ∧ env.actReplicate then do
      let answer ← call env (.close m.myFd)
      pure answer.toInt32
    else pure 0
  else pure 0

-- The first match leaves the table; its fd_map goes with the last of its parents.
def removeItem (t : Nat) (fd : Int32) (item : FdItem) (m : FdMap) : Replay Unit := do
  let (m,last) ← ofFd (deleteParentFd m fd)
  writeMap item.fdMap m
  let h ← readTable t
  let h ← key (h.remove htOpsFdItem fd)
  Prog.modify fun s => { s with tables := s.tables.set t h }
  if last then Prog.modify fun s => { s with fdMaps := s.fdMaps.free item.fdMap }
  else pure ()

def replicateClose (op : CloseOp) : Replay Unit :=
  withItem env op.info.pid op.fd op.info fun t item => do
    let m ← readMap item.fdMap
    let retval ← closeUsage env m
    if retval = -1 then pure () else removeItem t op.fd item m

-- An item is gone exactly when it has left its table.
def checkItem (item : FdItem) : Replay Unit := do
  let s ← Prog.get
  if s.tables.any (fun h => h.items.any (fun i => i.id = item.id)) then pure ()
  else Prog.throw .useAfterFree

def aliasItem (t : Nat) (item : FdItem) (newFd : Int32) : Replay Unit := do
  checkItem item
  let m ← readMap item.fdMap
  let m ← ofFd (insertParentFd m newFd)
  writeMap item.fdMap m
  insertItem t newFd newFd item.fdMap
  let m ← readMap item.fdMap
  increaseUsage m.myFd

-- dup2 can be called on a descriptor that is open; it is closed first.
def closeTarget (op : DupOp) (t : Nat) : Replay Unit := do
  if (← findItem t op.oldFd).isSome then
    replicateClose env ⟨op.retval,0,{ env.garbage.info with pid := op.info.pid }⟩
  else pure ()

def replicateDup (op : DupOp) : Replay Unit :=
  if op.retval = -1 then pure ()
  else withItem env op.info.pid op.oldFd op.info fun t item => do
    closeTarget env op t
    aliasItem t item op.retval

-- lseek and _llseek; `pos` is what the position becomes.
def seekResult (seek : Call) (recorded : Int64) : Replay Int64 :=
  if env.actReplicate then call env seek else pure recorded

def replicateSeek (fd : Int32) (info : OpInfo) (recorded : Int64) (seek : Int32 → Call)
    (pos : Int64 → Int64) : Replay Unit :=
  withItem env info.pid fd info fun _ item => do
    let m ← readMap item.fdMap
    if supportedType m.type then do
      let retval ← seekResult env (seek m.myFd) recorded
      if retval = -1 ∧ retval ≠ recorded then pure ()
      else if env.actSimulate then writeMap item.fdMap { m with curPos := (pos retval).toUInt64 }
      else pure ()
    else pure ()

def replicateLseek (op : LseekOp) : Replay Unit :=
  replicateSeek env op.fd op.info op.retval (.lseek · op.offset op.flag) id

def replicateLlseek (op : LlseekOp) : Replay Unit :=
  replicateSeek env op.fd op.info op.retval (.lseek · op.offset op.flag) fun _ => op.fOffset

def advance (a : Nat) (by_ : Int64) : Replay Unit := do
  let m ← readMap a
  writeMap a { m with curPos := m.curPos + by_.toUInt64 }

-- The call for two supported ends, or for one with a device or a plain transfer at the other.
def sendfileCall (op : SendfileOp) (inSide outSide : Bool) (inFd outFd devnull devzero : Int32) :
    Call :=
  if inSide ∧ outSide then .sendfile outFd inFd op.offset op.size
  else if outSide then
    if env.fileToFile then .sendfile outFd devzero op.offset op.size
    else if op.offset = OFFSET_INVAL then .write outFd op.size
    else .pwrite outFd op.size op.offset
  else if env.fileToFile then .sendfile devnull inFd op.offset op.size
  else if op.offset = OFFSET_INVAL then .read inFd op.size
  else .pread inFd op.size op.offset

def sendfileResult (op : SendfileOp) (inMap outMap : FdMap) : Replay Int64 := do
  let inSide := supportedType inMap.type
  let outSide := supportedType outMap.type
  if env.actReplicate then do
    let s ← Prog.get
    call env (sendfileCall env op inSide outSide inMap.myFd outMap.myFd
      s.globalDevnullFd s.globalDevzeroFd)
  else if env.actSimulate then
    if op.retval ≠ -1 then do
      onSim (simulateSendfile env.sim (if inSide then some inMap else none)
        (if outSide then some outMap else none) op)
      pure op.retval
    else pure op.retval
  else pure 0

-- With no offset given the input moves too, by the size asked for when all went as recorded.
def advanceInput (op : SendfileOp) (retval : Int64) (a : Nat) : Replay Unit :=
  if op.offset = OFFSET_INVAL then advance a (if retval = op.retval then op.size else retval)
  else pure ()

def replicateSendfile (op : SendfileOp) : Replay Unit := do
  match ← processHt env op.info.pid with
  | none => pure ()
  | some t =>
    match ← replicateGetFdMap env t op.outFd op.info with
    | none => pure ()
    | some outItem =>
      match ← replicateGetFdMap env t op.inFd op.info with
      | none => pure ()
      | some inItem => do
        let outMap ← readMap outItem.fdMap
        let inMap ← readMap inItem.fdMap
        if supportedType inMap.type ∨ supportedType outMap.type then do
          let retval ← sendfileResult env op inMap outMap
          if retval = -1 ∧ retval ≠ op.retval then pure ()
          else do
            advanceInput op retval inItem.fdMap
            advance outItem.fdMap retval
        else pure ()

def replicatePath (name : CName) (replay : CName → Call) (simulate : CName → SimProg Unit) :
    Replay Unit :=
  match namemapGetName env.namemap name with
  | none => pure ()
  | some name =>
    if env.actReplicate then do
      let _ ← call env (replay name)
      pure ()
    else if env.actSimulate then onSim (simulate name)
    else pure ()

-- unlink, mkdir and rmdir hand the recorded name to the simulation, access and stat the mapped one.
def replicateUnlink (op : UnlinkOp) : Replay Unit :=
  replicatePath env op.name .unlink fun _ => simulateUnlink env.sim op

def replicateMkdir (op : MkdirOp) : Replay Unit :=
  replicatePath env op.name (.mkdir · op.mode) fun _ => simulateMkdir env.sim op

def replicateRmdir (op : RmdirOp) : Replay Unit :=
  replicatePath env op.name .rmdir fun _ => simulateRmdir env.sim op

def replicateAccess (op : AccessOp) : Replay Unit :=
  replicatePath env op.name (.access · op.mode)
    fun name => simulateAccess env.sim { op with name := name }

def replicateStat (op : StatOp) : Replay Unit :=
  replicatePath env op.name .stat fun name => simulateStat env.sim { op with name := name }

def replicateOp : Op → Replay Unit
  | .write o => replicateWrite env o
  | .read o => replicateRead env o
  | .pwrite o => replicatePwrite env o
  | .pread o => replicatePread env o
  | .open o => replicateOpen env o
  | .close o => replicateClose env o
  | .unlink o => replicateUnlink env o
  | .lseek o => replicateLseek env o
  | .llseek o => replicateLlseek env o
  | .clone o => replicateClone o
  | .mkdir o => replicateMkdir env o
  | .rmdir o => replicateRmdir env o
  | .dup o => replicateDup env o
  | .dup2 o => replicateDup env o
  | .dup3 o => replicateDup env o
  | .pipe o => replicatePipe env o
  | .access o => replicateAccess env o
  | .stat o => replicateStat env o
  | .socket o => replicateSocket env o
  | .sendfile o => replicateSendfile env o

def stdMap (fd : Int32) (name : CName) : FdMap :=
  { newFdMap env.garbage.fdMap with myFd := fd, type := .spec, name := name }

def stdName (text : String) : CName :=
  CName.copy ((text.toList.map fun c => c.toNat.toUInt8).take (MAX_STRING - 1))
    (by simp [MAX_STRING])

-- The key of stdin is the one of stdout, as the source has it.
def replicateInit (pid : Int32) : Replay Int32 := do
  Prog.modify fun s => { s with
    fdMappings := .init HASH_TABLE_SIZE, usageMap := .init HASH_TABLE_SIZE,
    globalParentPid := pid }
  let t ← newTable
  linkProcess pid (some t)
  newItem t 1 0 1 (stdMap env 0 (stdName "stdin"))
  newItem t 1 1 1 (stdMap env 1 (stdName "stdout"))
  newItem t 2 2 2 (stdMap env 2 (stdName "stderr"))
  let devnull := (← call env (.openDevice .null)).toInt32
  Prog.modify fun s => { s with globalDevnullFd := devnull }
  if devnull = -1 then pure (-1)
  else do
    let devzero := (← call env (.openDevice .zero)).toInt32
    Prog.modify fun s => { s with globalDevzeroFd := devzero }
    pure 0

def replicateOps : List Op → Replay Unit
  | [] => pure ()
  | op :: rest => do
    replicateOp env op
    replicateOps rest

-- The first record's process is the initial one. With no record nothing is initialised, and
-- replicate_finish destroys a table that does not exist.
def replicate : List Op → Replay Int32
  | [] => Prog.throw .nullTable
  | op :: rest => do
    let rv ← replicateInit env op.info.pid
    if rv ≠ 0 then pure (-1)
    else do
      replicateOps env (op :: rest)
      pure 0

end Env
end IoApps
