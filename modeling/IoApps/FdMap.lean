import IoApps.HashTable
import IoApps.Ops

/-! Records of descriptors: the fd_map an open descriptor refers to, the fd_item that maps a
recorded descriptor to it, and how often a descriptor of the replayer is in use. -/
namespace IoApps
open Lib (Bytes)

def MAX_PARENT_IDS : Nat := 20

inductive FileType where
  | reg | dir | fifo | sock | ignore | spec
  deriving DecidableEq, Repr

def supportedType : FileType → Bool
  | .dir | .reg => true
  | _ => false

structure FdMap where
  myFd : Int32
  type : FileType
  curPos : UInt64
  timeOpen : Int32Timeval
  name : CName
  created : Int32
  parentFds : List Int32
  lastParIndex : Int
  deriving DecidableEq, Repr

-- The items of the tables never change; `id` tells two allocations apart.
structure FdItem where
  id : Nat
  oldFd : Int32
  fdMap : Nat
  deriving DecidableEq, Repr

structure FdUsage where
  myFd : Int32
  usage : Int32
  deriving DecidableEq, Repr

-- `ht` is a pointer to a table, by its index; none is NULL.
structure ProcessItem where
  pid : Int32
  ht : Option Nat
  deriving DecidableEq, Repr

def htOpsFdItem : HashTableOperations Int32 FdItem where
  hash := htHashInt
  compare := fun key item => item.oldFd = key

def htOpsFdUsage : HashTableOperations Int32 FdUsage where
  hash := htHashInt
  compare := fun key item => item.myFd = key

def htOpsFdMapping : HashTableOperations Int32 ProcessItem where
  hash := htHashInt
  compare := fun key item => item.pid = key

inductive FdFault where
  | negativeKey | parentPresent | parentMissing | parentIndex | usageMissing | overflow
  deriving DecidableEq, Repr

-- `garbage` is what malloc hands out.
def newFdMap (garbage : FdMap) : FdMap :=
  { garbage with parentFds := List.replicate MAX_PARENT_IDS (-1), lastParIndex := -1 }

def freeSlot (fd : Int32) : List Int32 → Nat → Except FdFault (Option Nat)
  | [],_ => .ok none
  | x :: rest,i =>
    if x = fd then .error .parentPresent
    else if x = -1 then .ok (some i)
    else freeSlot fd rest (i + 1)

-- A full array only causes a message.
def insertParentFd (m : FdMap) (fd : Int32) : Except FdFault FdMap := do
  match ← freeSlot fd m.parentFds 0 with
  | none => .ok m
  | some index =>
    .ok { m with parentFds := m.parentFds.set index fd, lastParIndex := m.lastParIndex + 1 }

def parentSlot (fd : Int32) : List Int32 → Nat → Except FdFault (Option Nat)
  | [],_ => .ok none
  | x :: rest,i =>
    if x = fd then .ok (some i)
    else if x = -1 then .error .parentMissing
    else parentSlot fd rest (i + 1)

-- The last parent moves into the gap; the result tells whether none is left.
def deleteParentFd (m : FdMap) (fd : Int32) : Except FdFault (FdMap × Bool) := do
  match ← parentSlot fd m.parentFds 0 with
  | none => .ok (m,m.lastParIndex = -1)
  | some i =>
    let idx := m.lastParIndex
    let parents ←
      if i = idx then .ok (m.parentFds.set i (-1))
      else if 0 < idx then
        .ok ((m.parentFds.set i (m.parentFds.getD idx.toNat (-1))).set idx.toNat (-1))
      else .error .parentIndex
    .ok ({ m with parentFds := parents, lastParIndex := idx - 1 },idx - 1 = -1)

-- A signed counter that leaves its range is undefined behaviour.
def countUp (n : Int32) : Except FdFault Int32 :=
  if n = Int32.maxValue then .error .overflow else .ok (n + 1)

def countDown (n : Int32) : Except FdFault Int32 :=
  if n = Int32.minValue then .error .overflow else .ok (n - 1)

def orNegative {α : Type} : Option α → Except FdFault α
  | none => .error .negativeKey
  | some a => .ok a

def increaseFdUsage (ht : HashTable FdUsage) (fd : Int32) :
    Except FdFault (HashTable FdUsage) := do
  match ← orNegative (ht.find htOpsFdUsage fd) with
  | none => orNegative (ht.insert htOpsFdUsage fd ⟨fd,1⟩)
  | some u => do
    let usage ← countUp u.usage
    orNegative (ht.modify htOpsFdUsage fd fun u => { u with usage := usage })

def decreaseFdUsage (ht : HashTable FdUsage) (fd : Int32) :
    Except FdFault (HashTable FdUsage × Bool) := do
  match ← orNegative (ht.find htOpsFdUsage fd) with
  | none => .error .usageMissing
  | some u => do
    let usage ← countDown u.usage
    if usage = 0 then do
      let ht ← orNegative (ht.remove htOpsFdUsage fd)
      .ok (ht,true)
    else do
      let ht ← orNegative (ht.modify htOpsFdUsage fd fun u => { u with usage := usage })
      .ok (ht,false)

section Faults

theorem countUpError {n : Int32} {f : FdFault} (failed : countUp n = .error f) :
    f = .overflow := by
  rw [countUp] at failed
  split at failed
  · exact (Except.error.inj failed).symm
  · exact absurd failed (by simp)

theorem countDownError {n : Int32} {f : FdFault} (failed : countDown n = .error f) :
    f = .overflow := by
  rw [countDown] at failed
  split at failed
  · exact (Except.error.inj failed).symm
  · exact absurd failed (by simp)

variable {ht : HashTable FdUsage} {fd : Int32} {f : FdFault}

theorem increaseError (failed : increaseFdUsage ht fd = .error f) :
    f = .overflow ∨ f = .negativeKey ∧ ht.chain htOpsFdUsage fd = none := by
  cases hashed : ht.chain htOpsFdUsage fd with
  | none =>
    simp only [increaseFdUsage,HashTable.find,hashed,Option.map_none,orNegative,bind,
      Except.bind] at failed
    exact .inr ⟨(Except.error.inj failed).symm,rfl⟩
  | some c =>
    left
    simp only [increaseFdUsage,HashTable.find,HashTable.insert,HashTable.modify,hashed,
      Option.map_some,orNegative,bind,Except.bind] at failed
    split at failed
    · exact absurd failed (by simp)
    · split at failed
      · rename_i up
        cases failed
        exact countUpError up
      · exact absurd failed (by simp)

theorem decreaseError (failed : decreaseFdUsage ht fd = .error f) :
    f = .overflow ∨ f = .negativeKey ∧ ht.chain htOpsFdUsage fd = none ∨
      f = .usageMissing ∧ ht.find htOpsFdUsage fd = some none := by
  cases hashed : ht.chain htOpsFdUsage fd with
  | none =>
    simp only [decreaseFdUsage,HashTable.find,hashed,Option.map_none,orNegative,bind,
      Except.bind] at failed
    exact .inr (.inl ⟨(Except.error.inj failed).symm,rfl⟩)
  | some c =>
    simp only [decreaseFdUsage,HashTable.find,HashTable.remove,HashTable.modify,hashed,
      Option.map_some,orNegative,bind,Except.bind] at failed ⊢
    cases search : (ht.entry c).find? (htOpsFdUsage.compare fd) with
    | none =>
      rw [search] at failed
      exact .inr (.inr ⟨(Except.error.inj failed).symm,rfl⟩)
    | some u =>
      left
      rw [search] at failed
      dsimp only at failed
      cases down : countDown u.usage with
      | error g =>
        rw [down] at failed
        cases failed
        exact countDownError down
      | ok usage =>
        rw [down] at failed
        dsimp only at failed
        split at failed
        · exact absurd failed (by simp)
        · exact absurd failed (by simp)

theorem orNegativeOk {α : Type} {o : Option α} {a : α} : orNegative o = .ok a ↔ o = some a := by
  cases o <;> simp [orNegative]

theorem increaseEntries {ht' : HashTable FdUsage} (ran : increaseFdUsage ht fd = .ok ht') :
    ht'.entries = ht.entries := by
  simp only [increaseFdUsage,bind,Except.bind] at ran
  split at ran
  · exact absurd ran (by simp)
  · split at ran
    · exact HashTable.insertEntries (orNegativeOk.mp ran)
    · split at ran
      · exact absurd ran (by simp)
      · exact HashTable.modifyEntries (orNegativeOk.mp ran)

theorem decreaseEntries {ht' : HashTable FdUsage} {last : Bool}
    (ran : decreaseFdUsage ht fd = .ok (ht',last)) : ht'.entries = ht.entries := by
  simp only [decreaseFdUsage,bind,Except.bind] at ran
  split at ran
  · exact absurd ran (by simp)
  · split at ran
    · exact absurd ran (by simp)
    · split at ran
      · exact absurd ran (by simp)
      · split at ran
        · split at ran
          · exact absurd ran (by simp)
          · rename_i removed
            cases ran
            exact HashTable.removeEntries (orNegativeOk.mp removed)
        · split at ran
          · exact absurd ran (by simp)
          · rename_i modified
            cases ran
            exact HashTable.modifyEntries (orNegativeOk.mp modified)

theorem freeSlotError {l : List Int32} {i : Nat} (failed : freeSlot fd l i = .error f) :
    f = .parentPresent := by
  induction l generalizing i with
  | nil => exact absurd failed (by simp [freeSlot])
  | cons x rest ih =>
    rw [freeSlot] at failed
    split at failed
    · exact (Except.error.inj failed).symm
    · split at failed
      · exact absurd failed (by simp)
      · exact ih failed

theorem freeSlotAbsent {l : List Int32} (absent : fd ∉ l) (i : Nat) :
    ∃ r, freeSlot fd l i = .ok r := by
  induction l generalizing i with
  | nil => exact ⟨none,rfl⟩
  | cons x rest ih =>
    obtain ⟨other,later⟩ := not_or.mp fun either => absent (List.mem_cons.mpr either)
    rw [freeSlot,if_neg (Ne.symm other)]
    split
    · exact ⟨some i,rfl⟩
    · exact ih later (i + 1)

theorem insertParentError {m : FdMap} (failed : insertParentFd m fd = .error f) :
    f = .parentPresent ∧ fd ∈ m.parentFds := by
  have present : fd ∈ m.parentFds := by
    by_contra absent
    obtain ⟨r,slot⟩ := freeSlotAbsent absent 0
    rw [insertParentFd,slot] at failed
    cases r with
    | none => exact absurd failed (by simp [bind,Except.bind])
    | some i => exact absurd failed (by simp [bind,Except.bind])
  refine ⟨?_,present⟩
  cases slot : freeSlot fd m.parentFds 0 with
  | ok r =>
    rw [insertParentFd,slot] at failed
    cases r with
    | none => exact absurd failed (by simp [bind,Except.bind])
    | some i => exact absurd failed (by simp [bind,Except.bind])
  | error g =>
    rw [insertParentFd,slot] at failed
    cases failed
    exact freeSlotError slot

theorem parentSlotError {l : List Int32} {i : Nat} (failed : parentSlot fd l i = .error f) :
    f = .parentMissing := by
  induction l generalizing i with
  | nil => exact absurd failed (by simp [parentSlot])
  | cons x rest ih =>
    rw [parentSlot] at failed
    split at failed
    · exact absurd failed (by simp)
    · split at failed
      · exact (Except.error.inj failed).symm
      · exact ih failed

theorem deleteParentError {m : FdMap} (failed : deleteParentFd m fd = .error f) :
    f = .parentMissing ∨ f = .parentIndex := by
  cases slot : parentSlot fd m.parentFds 0 with
  | error g =>
    rw [deleteParentFd,slot] at failed
    cases failed
    exact .inl (parentSlotError slot)
  | ok r =>
    rw [deleteParentFd,slot] at failed
    cases r with
    | none => exact absurd failed (by simp [bind,Except.bind])
    | some i =>
      right
      simp only [bind,Except.bind] at failed
      split at failed
      · exact absurd failed (by simp)
      · split at failed
        · exact absurd failed (by simp)
        · exact (Except.error.inj failed).symm

end Faults

section Parents

/-- The alias array as a set: the stored parents in front, -1 behind them. -/
structure Parents (m : FdMap) (stored : List Int32) : Prop where
  array : m.parentFds = stored ++ List.replicate (MAX_PARENT_IDS - stored.length) (-1)
  small : stored.length ≤ MAX_PARENT_IDS
  last : m.lastParIndex = (stored.length : Int) - 1
  real : (-1) ∉ stored
  nodup : stored.Nodup

theorem parentsUnique {m : FdMap} {a b : List Int32} (left : Parents m a) (right : Parents m b) :
    a = b := by
  have size : a.length = b.length := by
    have := left.last
    have := right.last
    omega
  exact (List.append_inj (left.array.symm.trans right.array) size).1

theorem newFdMapParents (garbage : FdMap) : Parents (newFdMap garbage) [] where
  array := rfl
  small := Nat.zero_le _
  last := rfl
  real := List.not_mem_nil
  nodup := List.nodup_nil

theorem freeSlotFresh {fd : Int32} {stored : List Int32} (real : (-1) ∉ stored)
    (absent : fd ∉ stored) (valid : fd ≠ -1) (n i : Nat) :
    freeSlot fd (stored ++ List.replicate n (-1)) i =
      .ok (if n = 0 then none else some (i + stored.length)) := by
  induction stored generalizing i with
  | nil =>
    cases n with
    | zero => rfl
    | succ n => simp [List.replicate_succ,freeSlot,valid.symm]
  | cons x stored ih =>
    have other : x ≠ fd := fun same => absent (by simp [same])
    have used : x ≠ -1 := fun same => real (by simp [same])
    rw [List.cons_append,freeSlot,if_neg other,if_neg used,
      ih (fun h => real (List.mem_cons_of_mem _ h)) (fun h => absent (List.mem_cons_of_mem _ h))]
    split
    · rfl
    · congr 2
      simp only [List.length_cons]
      omega

theorem freeSlotPresent {fd : Int32} {stored : List Int32} (real : (-1) ∉ stored)
    (present : fd ∈ stored) (rest : List Int32) (i : Nat) :
    freeSlot fd (stored ++ rest) i = .error .parentPresent := by
  induction stored generalizing i with
  | nil => exact absurd present List.not_mem_nil
  | cons x stored ih =>
    rw [List.cons_append,freeSlot]
    by_cases here : x = fd
    · rw [if_pos here]
    · have used : x ≠ -1 := fun same => real (by simp [same])
      have later : fd ∈ stored := (List.mem_cons.mp present).resolve_left (Ne.symm here)
      rw [if_neg here,if_neg used,ih (fun h => real (List.mem_cons_of_mem _ h)) later]

theorem insertParentPresent {m : FdMap} {stored : List Int32} (parents : Parents m stored)
    {fd : Int32} (present : fd ∈ stored) : insertParentFd m fd = .error .parentPresent := by
  rw [insertParentFd,parents.array,freeSlotPresent parents.real present]
  rfl

theorem insertParentFull {m : FdMap} {stored : List Int32} (parents : Parents m stored)
    {fd : Int32} (absent : fd ∉ stored) (valid : fd ≠ -1)
    (full : stored.length = MAX_PARENT_IDS) : insertParentFd m fd = .ok m := by
  rw [insertParentFd,parents.array,freeSlotFresh parents.real absent valid,full,Nat.sub_self]
  rfl

theorem insertParentRoom {m : FdMap} {stored : List Int32} (parents : Parents m stored)
    {fd : Int32} (absent : fd ∉ stored) (valid : fd ≠ -1)
    (room : stored.length < MAX_PARENT_IDS) :
    ∃ parentFds lastParIndex,
      insertParentFd m fd = .ok { m with parentFds := parentFds, lastParIndex := lastParIndex } ∧
      Parents { m with parentFds := parentFds, lastParIndex := lastParIndex }
        (stored ++ [fd]) := by
  obtain ⟨n,size⟩ : ∃ n, MAX_PARENT_IDS - stored.length = n + 1 :=
    ⟨MAX_PARENT_IDS - stored.length - 1,by omega⟩
  have slot := freeSlotFresh parents.real absent valid (n + 1) 0
  rw [if_neg (Nat.succ_ne_zero n),Nat.zero_add] at slot
  refine ⟨m.parentFds.set stored.length fd,m.lastParIndex + 1,?_,?_,?_,?_,?_,?_⟩
  · rw [insertParentFd,parents.array,size,slot]
    simp [bind,Except.bind]
  · have left : MAX_PARENT_IDS - (stored ++ [fd]).length = n := by
      rw [List.length_append,List.length_singleton]
      omega
    simp only [left,parents.array,size]
    rw [List.set_append_right _ _ (Nat.le_refl _),Nat.sub_self,List.replicate_succ,
      List.set_cons_zero]
    simp
  · rw [List.length_append,List.length_singleton]
    exact room
  · simp only [parents.last,List.length_append,List.length_singleton]
    omega
  · simpa using ⟨parents.real,valid.symm⟩
  · exact List.nodup_append.mpr ⟨parents.nodup,by simp,fun a here b there same =>
      absent (List.mem_singleton.mp there ▸ same ▸ here)⟩

theorem parentSlotPresent {fd : Int32} {before : List Int32} (real : (-1) ∉ before)
    (absent : fd ∉ before) (after : List Int32) (i : Nat) :
    parentSlot fd (before ++ fd :: after) i = .ok (some (i + before.length)) := by
  induction before generalizing i with
  | nil => simp [parentSlot]
  | cons x before ih =>
    have other : x ≠ fd := fun same => absent (by simp [same])
    have used : x ≠ -1 := fun same => real (by simp [same])
    rw [List.cons_append,parentSlot,if_neg other,if_neg used,
      ih (fun h => real (List.mem_cons_of_mem _ h)) (fun h => absent (List.mem_cons_of_mem _ h))]
    congr 2
    simp only [List.length_cons]
    omega

theorem deleteParentPresent {m : FdMap} {stored : List Int32} (parents : Parents m stored)
    {fd : Int32} (present : fd ∈ stored) :
    ∃ parentFds lastParIndex stored' last,
      deleteParentFd m fd =
        .ok ({ m with parentFds := parentFds, lastParIndex := lastParIndex },last) ∧
      Parents { m with parentFds := parentFds, lastParIndex := lastParIndex } stored' ∧
      (fd :: stored').Perm stored ∧ (last = true ↔ stored' = []) := by
  obtain ⟨before,after,rfl,absent⟩ := List.eq_append_cons_of_mem present
  have real := parents.real
  have nodup := parents.nodup
  have small := parents.small
  have array := parents.array
  have idx := parents.last
  simp only [List.mem_append,List.mem_cons,not_or] at real
  simp only [List.length_append,List.length_cons] at small array idx
  have slot (rest : List Int32) := parentSlotPresent real.1 absent rest 0
  rcases List.eq_nil_or_concat after with rfl | ⟨front,z,rfl⟩
  · have whole : m.parentFds =
        before ++ fd :: List.replicate (MAX_PARENT_IDS - (before.length + 1)) (-1) := by
      simpa using array
    have shorter : m.parentFds.set before.length (-1) =
        before ++ List.replicate (MAX_PARENT_IDS - before.length) (-1) := by
      rw [whole,List.set_append_right _ _ (Nat.le_refl _),Nat.sub_self,List.set_cons_zero,
        ← List.replicate_succ]
      congr 2
      simp only [List.length_nil] at small
      omega
    have last : m.lastParIndex = before.length := by
      rw [idx]
      simp
    refine ⟨m.parentFds.set before.length (-1),m.lastParIndex - 1,before,
      decide (m.lastParIndex - 1 = -1),?_,⟨shorter,?_,by rw [last],real.1,?_⟩,?_,?_⟩
    · rw [deleteParentFd,whole,slot]
      simp [bind,Except.bind,last]
    · simp only [List.length_nil] at small
      omega
    · exact (List.nodup_append.mp nodup).1
    · exact (List.perm_append_singleton _ _).symm
    · rw [decide_eq_true_iff,last,← List.length_eq_zero_iff]
      omega
  · obtain ⟨n,rep⟩ : ∃ n, MAX_PARENT_IDS - (before.length + (front.length + 1 + 1)) = n :=
      ⟨_,rfl⟩
    simp only [List.concat_eq_append,List.length_append,List.length_singleton] at *
    have whole : m.parentFds = before ++ fd :: (front ++ z :: List.replicate n (-1)) := by
      rw [← rep]
      simpa using array
    have last : m.lastParIndex = ((before.length + 1 + front.length : Nat) : Int) := by
      rw [idx]
      omega
    have moved : m.parentFds.getD m.lastParIndex.toNat (-1) = z := by
      rw [last,whole,Int.toNat_natCast,List.getD_eq_getElem?_getD,
        List.getElem?_append_right (by omega)]
      rw [show before.length + 1 + front.length - before.length = front.length + 1 by omega]
      simp
    have shorter : (m.parentFds.set before.length z).set m.lastParIndex.toNat (-1) =
        before ++ z :: (front ++ List.replicate (n + 1) (-1)) := by
      rw [last,whole,Int.toNat_natCast,List.set_append_right _ _ (Nat.le_refl _),Nat.sub_self,
        List.set_cons_zero,List.set_append_right _ _ (by omega)]
      rw [show before.length + 1 + front.length - before.length = front.length + 1 by omega]
      rw [List.set_cons_succ,List.set_append_right _ _ (Nat.le_refl _),Nat.sub_self,
        List.set_cons_zero,List.replicate_succ]
    have differs : ¬ ((before.length : Int) = m.lastParIndex) := by omega
    have positive : 0 < m.lastParIndex := by omega
    refine ⟨(m.parentFds.set before.length z).set m.lastParIndex.toNat (-1),m.lastParIndex - 1,
      before ++ z :: front,decide (m.lastParIndex - 1 = -1),?_,⟨?_,?_,?_,?_,?_⟩,?_,?_⟩
    · rw [deleteParentFd]
      conv => lhs; rw [whole,slot]
      simp only [bind,Except.bind,Nat.zero_add,differs,if_false,positive,if_true,← whole,moved]
    · rw [shorter]
      simp only [List.length_append,List.length_cons,List.append_assoc,List.cons_append]
      congr 4
      omega
    · simp only [List.length_append,List.length_cons]
      omega
    · simp only [List.length_append,List.length_cons,last]
      omega
    · simpa [real.1,and_assoc,and_comm] using real.2.2
    · have perm : (before ++ fd :: (front ++ [z])).Perm (fd :: (before ++ z :: front)) :=
        List.perm_middle.trans (((List.perm_append_singleton _ _).append_left _).cons fd)
      exact (List.nodup_cons.mp (perm.nodup nodup)).2
    · exact ((List.perm_append_singleton _ _).append_left before |>.cons fd).symm.trans
        List.perm_middle.symm
    · simp
      omega

end Parents
end IoApps
