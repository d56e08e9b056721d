import IoApps.HashTable
import IoApps.Ops

/-! Which files are ignored and which are replaced by another one. -/
namespace IoApps
open Lib (Bytes)

-- unsigned long arithmetic over plain (signed) characters.
def htHashStr (entries : Nat) (key : CName) : Option Nat :=
  let step (index : UInt64) (c : UInt8) : UInt64 :=
    c.toInt8.toInt64.toUInt64 + (index <<< 6) + (index <<< 16) - index
  some ((key.bytes.foldl step 4357).toNat % entries)

structure NamemapItem where
  oldName : CName
  newName : CName
  deriving DecidableEq, Repr

-- `fnmatch` is the C library's: 0 for a match, FNM_NOMATCH for none, anything else an error.
structure Namemap where
  igns : List CName
  map : HashTable NamemapItem
  fnmatch : Bytes → Bytes → Int32

def FNM_NOMATCH : Int32 := 1

def htOpsNamemap : HashTableOperations CName NamemapItem where
  hash := htHashStr
  compare := fun key item => item.oldName = key

def namemapEmpty : Namemap := ⟨[],.init HASH_TABLE_SIZE,fun _ _ => FNM_NOMATCH⟩

-- An error of fnmatch counts as a match.
def namemapGetName (nm : Namemap) (name : CName) : Option CName :=
  if nm.igns.any (fun item => nm.fnmatch item.bytes name.bytes ≠ FNM_NOMATCH) then none
  else
    match nm.map.find htOpsNamemap name with
    | some (some item) => some item.newName
    | _ => some name

end IoApps
