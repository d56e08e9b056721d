import IoApps.Lib.Paths
import IoApps.Lib.Prog
import IoApps.Ops
import IoApps.Trie

/-! The simulated file system: a trie filled from the disk on demand, and the verdict on each
recorded call. The disk is only looked at. -/
namespace IoApps
open Lib (Bytes Tree Prog tokens rindex strstr)

def MAX_LINE : Nat := 512
def O_CREAT : Int32 := 0x40
def O_EXCL : Int32 := 0x80
def slash : UInt8 := 0x2f
def dot : UInt8 := 0x2e

structure Simfs where
  physical : Bool
  created : Bool
  physSize : UInt64
  virtSize : UInt64
  deriving DecidableEq, Repr

def simfsNewTrieNode : Simfs := ⟨false,false,-1,0⟩
def simfsNewTrieNodePhys : Simfs := ⟨true,false,0,0⟩

-- access(path,F_OK) = 0, the size stat(2) reports, and the answer of getcwd(3).
structure Disk where
  access : Bytes → Bool
  stSize : Bytes → UInt64
  cwd : Option Bytes

inductive Verdict where
  | ok | enoent | eent
  deriving DecidableEq, Repr

inductive SimfsFault where
  | exit | noSlash | overrun
  deriving DecidableEq, Repr

abbrev SimfsProg := Prog (Trie Simfs) SimfsFault

def squashDotDot : Nat → Bytes → Except SimfsFault Bytes
  | 0,buff => .ok buff
  | fuel + 1,buff =>
    match strstr [slash,dot,dot] buff with
    | none => .ok buff
    | some off =>
      if off = 0 then squashDotDot fuel (buff.drop 3)
      else
        match rindex slash (buff.take off) with
        | none => .error .noSlash
        | some s => squashDotDot fuel (buff.take s ++ buff.drop (off + 3))

def squashDot : Nat → Bytes → Bytes
  | 0,buff => buff
  | fuel + 1,buff =>
    match strstr [slash,dot] buff with
    | none => buff
    | some off =>
      if off = 0 then
        if buff.length = 2 then squashDot fuel [slash] else squashDot fuel (buff.drop 2)
      else squashDot fuel (buff.take off ++ buff.drop (off + 2))

def absolutePath (cwd : Option Bytes) (name : Bytes) (size : Nat) : Except SimfsFault Bytes :=
  if name.head? ≠ some slash then
    match cwd with
    | none => .error .exit
    | some buff =>
      if buff.length + name.length + 1 + 1 > size then .error .exit
      else .ok (buff ++ slash :: name)
  else .ok name

-- Every round of either loop shortens the buffer.
def simfsAbsoluteName (cwd : Option Bytes) (name : Bytes) (size : Nat) :
    Except SimfsFault Bytes := do
  let buff ← absolutePath cwd name size
  let buff ← squashDotDot (buff.length + 1) buff
  .ok (squashDot (buff.length + 1) buff)

def ofExcept {α : Type} (r : Except SimfsFault α) : SimfsProg α := fun fs => r.map (·,fs)

def strccount (s : Bytes) (c : UInt8) : Nat := s.count c

def simfsInit : Trie Simfs := Trie.init slash { simfsNewTrieNode with physical := true }

def setSimfs (fs : Trie Simfs) (n : List Bytes) (f : Simfs → Simfs) : Trie Simfs :=
  { fs with root := fs.root.adjust (fun node => { node with data := f node.data }) n }

section Populate
variable (disk : Disk)

def populateLoop (room : Nat) : List Bytes → Bytes → Nat → SimfsProg (Bool × Bytes × Nat)
  | [],existing,misOff => pure (true,existing,misOff)
  | s :: rest,existing,misOff =>
    let slashAdded := existing.getLast? ≠ some slash
    let longer := (if slashAdded then existing ++ [slash] else existing) ++ s
    if room < longer.length then Prog.throw .overrun
    else if disk.access longer then do
      let fs ← Prog.get
      let (fs,n) := fs.insert2 longer simfsNewTrieNodePhys
      Prog.modify fun _ => setSimfs fs n fun simfs =>
        { simfs with physSize := disk.stSize longer }
      populateLoop room rest longer (misOff + (if slashAdded then 1 else 0) + s.length)
    else pure (false,existing,misOff)

def simfsPopulate (room : Nat) (existing missing : Bytes) : SimfsProg (Bool × Bytes × Bytes) := do
  let (rv,existing,misOff) ← populateLoop disk room (tokens slash missing) existing 0
  pure (rv,existing,if misOff ≠ 0 then missing.drop misOff else missing)

-- What each operation begins with: the absolute name, the node of its longest prefix in the
-- trie and that prefix as text.
def simfsLocate (name : CName) : SimfsProg (Bytes × Simfs × Bytes) := do
  let name ← ofExcept (simfsAbsoluteName disk.cwd name.bytes MAX_LINE)
  let fs ← Prog.get
  let (node,buff) := fs.longestPrefix name (name ++ [0])
  pure (name,(fs.root.at? node).getD fs.root.data,cstr buff)

def trieDelete (name : Bytes) : SimfsProg Unit := Prog.modify fun fs => (fs.delete name).1

def trieInsert (name : Bytes) (created : Bool) : SimfsProg Unit := Prog.modify fun fs =>
  let (fs,n) := fs.insert2 name simfsNewTrieNode
  if created then setSimfs fs n fun simfs => { simfs with created := true } else fs

-- access and stat differ in the code of a missing file: simfs_access leaves it unset.
def simfsProbe (missingRv : Option Verdict) (name : CName) (retval : Int32) :
    SimfsProg (Option Verdict) := do
  let (name,simfs,buff) ← simfsLocate disk name
  if name = buff then
    if retval = 0 then pure (some .ok)
    else do
      if simfs.physical then trieDelete name
      pure (some .eent)
  else do
    let (exist,_,_) ← simfsPopulate disk name.length buff (name.drop (commonLength buff name))
    if retval ≠ 0 then
      if exist then do
        trieDelete name
        pure (some .eent)
      else pure (some .ok)
    else if exist then pure (some .ok)
    else do
      trieInsert name false
      pure missingRv

def simfsAccess (op : AccessOp) : SimfsProg (Option Verdict) :=
  simfsProbe disk none op.name op.retval

def simfsStat (op : StatOp) : SimfsProg (Option Verdict) :=
  simfsProbe disk (some .enoent) op.name op.retval

def dropSlash (missing : Bytes) : Bytes :=
  if missing.head? = some slash then missing.drop 1 else missing

def simfsMkdir (op : MkdirOp) : SimfsProg Verdict := do
  let (name,_,buff) ← simfsLocate disk op.name
  let (_,buff,missing) ←
    simfsPopulate disk name.length buff (name.drop (commonLength buff name))
  if name = buff then
    if op.retval ≠ 0 then pure .ok else pure .eent
  else
    match missing.getLast? with
    | none => Prog.throw .overrun
    | some last => do
      let missing := dropSlash (if last = slash then missing.dropLast else missing)
      let wouldSucc : Bool := strccount missing slash = 0
      if op.retval ≠ 0 then
        if wouldSucc then do
          trieDelete name
          pure .eent
        else pure .ok
      else do
        trieInsert name true
        pure (if wouldSucc then .ok else .enoent)

def simfsUnlink (op : UnlinkOp) : SimfsProg Verdict := do
  let (name,_,buff) ← simfsLocate disk op.name
  if name = buff then do
    trieDelete name
    pure (if op.retval = 0 then .ok else .eent)
  else do
    let (exist,_,_) ← simfsPopulate disk name.length buff (name.drop (commonLength buff name))
    if op.retval ≠ 0 then
      if exist then do
        trieDelete name
        pure .eent
      else pure .ok
    else do
      -- the same two calls and the same code, whether the disk has the file or not
      trieInsert name false
      trieDelete name
      pure .enoent

def simfsRmdir (op : RmdirOp) : SimfsProg Verdict :=
  simfsUnlink disk ⟨op.name,op.retval,op.info⟩

def simfsCreat (op : OpenOp) : SimfsProg Verdict := do
  let (name,_,buff) ← simfsLocate disk op.name
  let (_,buff,missing) ←
    simfsPopulate disk name.length buff (name.drop (commonLength buff name))
  if name = buff then
    if op.flags &&& O_CREAT ≠ 0 then
      if op.flags &&& O_EXCL ≠ 0 then
        if op.retval = -1 then pure .ok else pure .eent
      else pure .ok
    else if op.retval = -1 then do
      trieDelete name
      pure .eent
    else pure .ok
  else do
    let wouldSucc : Bool := strccount (dropSlash missing) slash = 0
    if op.flags &&& O_CREAT = 0 then
      if op.retval = -1 then pure .ok
      else do
        trieInsert name false
        pure .enoent
    else if op.retval = -1 then
      if wouldSucc then do
        trieDelete name
        pure .eent
      else pure .ok
    else do
      trieInsert name true
      pure (if wouldSucc then .ok else .enoent)

def simfsFind (name : CName) : SimfsProg (Option (List Bytes)) := do
  let name ← ofExcept (simfsAbsoluteName disk.cwd name.bytes MAX_LINE)
  let fs ← Prog.get
  pure (fs.find name)

end Populate
end IoApps
