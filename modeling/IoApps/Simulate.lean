import IoApps.FdMap
import IoApps.Namemap
import IoApps.Simfs

/-! The simulation: the transfers of each file by its name, and the sizes the simulated file
system learns from them. -/
namespace IoApps
open Lib (Bytes Prog)

structure RwOp where
  offset : Int64
  size : UInt64
  start : Int32Timeval
  dur : Int32
  deriving DecidableEq, Repr

structure SimItem where
  name : CName
  created : Int32
  timeOpen : Int32Timeval
  list : List RwOp
  deriving DecidableEq, Repr

def htOpsSim : HashTableOperations CName SimItem where
  hash := htHashStr
  compare := fun key item => item.name = key

structure SimMode where
  simulate : Bool
  check : Bool
  prepare : Bool

structure SimEnv where
  mode : SimMode
  disk : Disk

structure Sim where
  fs : Trie Simfs
  mapRead : HashTable SimItem
  mapWrite : HashTable SimItem

inductive SimFault where
  | simfs (f : SimfsFault)
  | nullItem
  deriving DecidableEq, Repr

abbrev SimProg := Prog Sim SimFault

def simulateInit : Sim := ⟨simfsInit,.init HASH_TABLE_SIZE,.init HASH_TABLE_SIZE⟩

def onSimfs {α : Type} (m : SimfsProg α) : SimProg α := fun s =>
  match m s.fs with
  | .ok (a,fs) => .ok (a,{ s with fs := fs })
  | .error f => .error (.simfs f)

inductive Direction where
  | read | write
  deriving DecidableEq, Repr

def Sim.map (s : Sim) : Direction → HashTable SimItem
  | .read => s.mapRead
  | .write => s.mapWrite

def Sim.setMap (s : Sim) (ht : HashTable SimItem) : Direction → Sim
  | .read => { s with mapRead := ht }
  | .write => { s with mapWrite := ht }

def simulateGetSimItem (map : FdMap) (ht : HashTable SimItem) : HashTable SimItem :=
  match ht.find htOpsSim map.name with
  | some (some _) => ht
  | _ => (ht.insert htOpsSim map.name ⟨map.name,map.created,map.timeOpen,[]⟩).getD ht

def simulateAppendRw (ht : HashTable SimItem) (name : CName) (rw : RwOp) : HashTable SimItem :=
  (ht.modify htOpsSim name fun item => { item with list := item.list ++ [rw] }).getD ht

-- What is noted is how many bytes were transferred, not how many were asked for.
def simulateTransfer (dir : Direction) (map : FdMap) (offset retval : Int64) (info : OpInfo) :
    SimProg Unit := Prog.modify fun s =>
  let ht := simulateGetSimItem map (s.map dir)
  s.setMap (simulateAppendRw ht map.name ⟨offset,retval.toUInt64,info.start,info.dur⟩) dir

def writeSimfs (n : List Bytes) (f : Simfs → Simfs) : SimProg Unit :=
  Prog.modify fun s => { s with fs := setSimfs s.fs n f }

def growVirt (off : UInt64) (simfs : Simfs) : Simfs :=
  if simfs.virtSize < off then { simfs with virtSize := off } else simfs

-- A write behind the end of a file on the disk is only reported.
def growPhys (curPos off : UInt64) (simfs : Simfs) : Simfs :=
  if simfs.physical ∧ ¬ curPos > simfs.physSize ∧ simfs.physSize < off then
    { simfs with physSize := off }
  else simfs

section Env
variable (env : SimEnv)

def checking : Bool := env.mode.check || env.mode.prepare

def simfsNode (map : FdMap) : SimProg (Option (List Bytes)) :=
  onSimfs (simfsFind env.disk map.name)

-- read, write, pread and pwrite: `off` is the end the file system is told, `offset` what is noted.
def simulateRw (dir : Direction) (map : FdMap) (off : UInt64) (offset retval : Int64)
    (info : OpInfo) : SimProg Unit := do
  let simfs ← simfsNode env map
  let transfer : SimProg Unit :=
    if env.mode.simulate then simulateTransfer dir map offset retval info else pure ()
  if checking env then
    match simfs with
    | none => pure ()
    | some n => do
      writeSimfs n (growVirt off)
      match dir with
      | .write => writeSimfs n (growPhys map.curPos off)
      | .read => pure ()
      transfer
  else transfer

def simulateWrite (map : FdMap) (op : WriteOp) : SimProg Unit :=
  simulateRw env .write map (map.curPos + op.retval.toUInt64) map.curPos.toInt64 op.retval op.info

def simulateRead (map : FdMap) (op : ReadOp) : SimProg Unit :=
  simulateRw env .read map (map.curPos + op.retval.toUInt64) map.curPos.toInt64 op.retval op.info

def simulatePwrite (map : FdMap) (op : PwriteOp) : SimProg Unit :=
  simulateRw env .write map map.curPos op.offset op.retval op.info

def simulatePread (map : FdMap) (op : PreadOp) : SimProg Unit :=
  simulateRw env .read map map.curPos op.offset op.retval op.info

def sendfileEnd (dir : Direction) (map : FdMap) (off : UInt64) (op : SendfileOp) :
    SimProg Bool := do
  let simfs ← simfsNode env map
  let transfer : SimProg Bool := do
    if env.mode.simulate then simulateTransfer dir map off.toInt64 op.retval op.info
    pure true
  if checking env then
    match simfs with
    | none => pure false
    | some n => do
      writeSimfs n (growVirt (off + op.retval.toUInt64))
      transfer
  else transfer

-- The name of the output is looked up first, whether or not there is an output item.
def simulateSendfile (inMap outMap : Option FdMap) (op : SendfileOp) : SimProg Unit := do
  match outMap with
  | none => Prog.throw .nullItem
  | some out => do
    let _ ← simfsNode env out
    let goOn ← match inMap with
      | none => pure true
      | some map =>
        let off := if op.offset = OFFSET_INVAL then map.curPos else op.offset.toUInt64
        sendfileEnd env .read map off op
    if goOn then do
      let _ ← sendfileEnd env .write out out.curPos op
      pure ()
    else pure ()

def ifChecking {α : Type} (m : SimfsProg α) : SimProg Unit :=
  if checking env then do
    let _ ← onSimfs m
    pure ()
  else pure ()

def simulateAccess (op : AccessOp) : SimProg Unit := ifChecking env (simfsAccess env.disk op)
def simulateStat (op : StatOp) : SimProg Unit := ifChecking env (simfsStat env.disk op)
def simulateMkdir (op : MkdirOp) : SimProg Unit := ifChecking env (simfsMkdir env.disk op)
def simulateRmdir (op : RmdirOp) : SimProg Unit := ifChecking env (simfsRmdir env.disk op)
def simulateUnlink (op : UnlinkOp) : SimProg Unit := ifChecking env (simfsUnlink env.disk op)
def simulateCreat (op : OpenOp) : SimProg Unit := ifChecking env (simfsCreat env.disk op)

end Env
end IoApps
