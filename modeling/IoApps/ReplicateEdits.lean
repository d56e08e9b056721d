import IoApps.Replicate

/-! What the replicator does to its state, once and for all: every operation is a sequence of
the edits below. Invariants are proved edit by edit. -/
namespace IoApps
open Lib (Arena Prog)

def State.items (s : State) : List FdItem := s.tables.flatMap HashTable.items

def Dangling (s : State) : Prop := ∃ i ∈ s.items, s.fdMaps.read i.fdMap = none

def State.answer (env : Env) (s : State) (c : Call) : Int32 := (env.kernel s.log c).toInt32

def State.logged (env : Env) (s : State) (c : Call) : State :=
  { s with log := (c,env.kernel s.log c) :: s.log }

def Call.Quiet : Call → Prop
  | .open .. | .openDevice _ | .close _ => False
  | _ => True

/-- What the edits of a run may do: which numbers its pipes are counted under, whether it may
add tables, whether a dup may be careless about aliases, onto one a fork left behind or of an
item that has left its table, whether a process may stay without a table, which numbers are
looked up, for which processes, and which are drawn for pipes and sockets. -/
structure Allowed where
  pipeEnd : Int32 → Prop
  copies : Prop
  careless : Prop
  stale : Prop
  loose : Prop
  orphans : Prop
  keys : Int32 → Prop
  pids : Int32 → Prop
  drawn : Int32 → Prop

def Allowed.any : Allowed :=
  ⟨fun _ => True,True,True,True,True,True,fun _ => True,fun _ => True,fun _ => True⟩

section Processes

def tableOf (s : State) (pid : Int32) : Option Nat :=
  (s.fdMappings.find htOpsFdMapping pid).join.bind ProcessItem.ht

theorem getProcessHtRun (pid : Int32) (s : State) : getProcessHt pid s =
    match s.fdMappings.find htOpsFdMapping pid with
    | some item => .ok (item.bind ProcessItem.ht,s)
    | none => .error (.fd .negativeKey) := by
  simp only [getProcessHt,Prog.bindRun,Prog.getRun]
  cases s.fdMappings.find htOpsFdMapping pid with
  | none => rfl
  | some item => rfl

theorem getProcessHtTable {s : State} {pid : Int32} {t : Nat} (table : tableOf s pid = some t) :
    getProcessHt pid s = .ok (some t,s) := by
  rw [getProcessHtRun]
  unfold tableOf at table
  cases found : s.fdMappings.find htOpsFdMapping pid with
  | none => simp [found] at table
  | some item =>
    rw [found] at table
    exact congrArg (fun t => Except.ok (t,s)) table

def Unknown (s : State) (pid : Int32) : Prop :=
  s.fdMappings.find htOpsFdMapping pid = some none

theorem Unknown.noTable {s : State} {pid : Int32} (unknown : Unknown s pid) :
    tableOf s pid = none := by
  unfold tableOf
  rw [unknown]
  rfl

theorem linkTable {s : State} {pid : Int32} {ht : Option Nat} {mappings : HashTable ProcessItem}
    (unknown : Unknown s pid)
    (inserted : s.fdMappings.insert htOpsFdMapping pid ⟨pid,ht⟩ = some mappings) :
    tableOf { s with fdMappings := mappings } pid = ht := by
  have found := HashTable.findInsert (by simp [htOpsFdMapping]) inserted
  rw [unknown] at found
  unfold tableOf
  rw [found]
  rfl

theorem insertKeeps {s : State} {pid other : Int32} {t : Nat} {p : ProcessItem}
    {mappings : HashTable ProcessItem} (table : tableOf s pid = some t)
    (inserted : s.fdMappings.insert htOpsFdMapping other p = some mappings) :
    tableOf { s with fdMappings := mappings } pid = some t := by
  unfold tableOf at table ⊢
  obtain ⟨item,first,same⟩ := Option.bind_eq_some_iff.mp table
  have kept := HashTable.findKept (Option.join_eq_some_iff.mp first) inserted
  rw [kept]
  exact same

structure Working (ok : Allowed) (s : State) (pid : Int32) (t : Nat) : Prop where
  key : ok.keys pid
  named : ok.pids pid
  table : tableOf s pid = some t

def InTable (s : State) (t a : Nat) : Prop :=
  ∃ h, s.tables[t]? = some h ∧ ∃ i ∈ h.items, i.fdMap = a

end Processes
section Naming

def Mapped (env : Env) (name : CName) : Prop :=
  ∃ recorded, namemapGetName env.namemap recorded = some name

def Call.descriptors : Call → List Int32
  | .close fd | .read fd _ | .write fd _ | .pread fd _ _ | .pwrite fd _ _ | .lseek fd _ _ => [fd]
  | .sendfile outFd inFd _ _ => [outFd,inFd]
  | .open .. | .openDevice _ | .unlink _ | .mkdir .. | .rmdir _ | .access .. | .stat _ => []

def Held (s : State) (n : Int32) : Prop :=
  n = s.globalDevnullFd ∨ n = s.globalDevzeroFd ∨
    ∃ i ∈ s.items, ∃ m, s.fdMaps.read i.fdMap = some m ∧ supportedType m.type = true ∧ m.myFd = n

def Behind (s : State) (n : Int32) : Prop :=
  n = s.globalDevnullFd ∨ n = s.globalDevzeroFd ∨
    ∃ a m, s.fdMaps.read a = some m ∧ supportedType m.type = true ∧ m.myFd = n

def Traced (env : Env) (s : State) : Call → Prop
  | .open .. | .openDevice _ | .close _ => False
  | .unlink name | .mkdir name _ | .rmdir name | .access name _ | .stat name => Mapped env name
  | .read fd _ | .write fd _ | .pread fd _ _ | .pwrite fd _ _ | .lseek fd _ _ => Behind s fd
  | .sendfile outFd inFd _ _ => Behind s outFd ∧ Behind s inFd

end Naming

def HasRoom (m : FdMap) (fd : Int32) : Prop := fd ∈ m.parentFds ∨ (-1) ∈ m.parentFds

inductive Put (s : State) (t : Nat) (k fd counted : Int32) (m : FdMap) : State → Prop where
  | mk {h h' usage} (table : s.tables[t]? = some h)
      (inserted : h.insert htOpsFdItem k ⟨s.nextItem,fd,s.fdMaps.fresh⟩ = some h')
      (used : increaseFdUsage s.usageMap counted = .ok usage) :
      Put s t k fd counted m { s with
        fdMaps := s.fdMaps.alloc m, tables := s.tables.set t h',
        nextItem := s.nextItem + 1, usageMap := usage }

/-- Where a number comes from: the answer to a replayed open, or the next placeholder, counted
under itself or, for a pipe, under the recorded number. -/
inductive Origin (env : Env) (ok : Allowed) (s : State) (counted : Int32) (m : FdMap) :
    State → Prop where
  | replayed {name flags mode} (acts : env.actReplicate = true)
      (answered : s.answer env (.open name flags mode) = counted) (valid : counted ≠ -1)
      (mine : m.myFd = counted) (supported : supportedType m.type = true)
      (named : m.name = name) (mapped : Mapped env name) :
      Origin env ok s counted m (s.logged env (.open name flags mode))
  | placeholder (up : countUp s.openFd = .ok counted) (mine : m.myFd = counted)
      (replaying : env.actReplicate = true → supportedType m.type = false) :
      Origin env ok s counted m { s with openFd := counted }
  | socket (down : countDown s.socketFd = .ok counted) (mine : m.myFd = counted)
      (unsupported : supportedType m.type = false) (other : m.type ≠ .ignore)
      (drawn : ok.drawn m.myFd) : Origin env ok s counted m { s with socketFd := counted }
  | pipe (ended : ok.pipeEnd counted) (down : countDown s.pipeFd = .ok m.myFd)
      (unsupported : supportedType m.type = false) (other : m.type ≠ .ignore)
      (drawn : ok.drawn m.myFd) : Origin env ok s counted m { s with pipeFd := m.myFd }

/-- What a close does before the item goes: nothing, one use less, or the last one. -/
inductive Release (env : Env) (s : State) (m : FdMap) : State → Prop where
  | untracked (unsupported : supportedType m.type = false) : Release env s m s
  | kept {usage} (supported : supportedType m.type = true)
      (used : decreaseFdUsage s.usageMap m.myFd = .ok (usage,false)) :
      Release env s m { s with usageMap := usage }
  | simulated {usage} (supported : supportedType m.type = true)
      (used : decreaseFdUsage s.usageMap m.myFd = .ok (usage,true))
      (simulating : env.actReplicate = false) : Release env s m { s with usageMap := usage }
  | closed {usage} (supported : supportedType m.type = true)
      (used : decreaseFdUsage s.usageMap m.myFd = .ok (usage,true))
      (acts : env.actReplicate = true) (done : s.answer env (.close m.myFd) ≠ -1) :
      Release env s m (State.logged env { s with usageMap := usage } (.close m.myFd))

inductive Edit (env : Env) (ok : Allowed) : State → State → Prop where
  | logged {s : State} (c : Call) (quiet : c.Quiet) (traced : Traced env s c)
      (acts : env.actReplicate = true) (held : ∀ n ∈ c.descriptors, Held s n) :
      Edit env ok s (s.logged env c)
  | openFailed {s : State} {name flags mode}
      (failed : s.answer env (.open name flags mode) = -1) (mapped : Mapped env name)
      (acts : env.actReplicate = true) :
      Edit env ok s (s.logged env (.open name flags mode))
  | probed {s : State} {name flags mode}
      (opened : s.answer env (.open name flags mode) ≠ -1) (mapped : Mapped env name)
      (acts : env.actReplicate = true) :
      Edit env ok s ((s.logged env (.open name flags mode)).logged env
        (.close (s.answer env (.open name flags mode))))
  | simmed {s : State} (sim : Sim) : Edit env ok s { s with sim := sim }
  | openNumber {s : State} {n : Int32} (up : countUp s.openFd = .ok n) :
      Edit env ok s { s with openFd := n }
  | seeked {s : State} {pid : Int32} {t a : Nat} {m : FdMap}
      (live : s.fdMaps.read a = some m) (pos : UInt64) (working : Working ok s pid t)
      (held : InTable s t a) :
      Edit env ok s { s with fdMaps := s.fdMaps.write a { m with curPos := pos } }
  | placed {s s₁ s' : State} {pid : Int32} {t : Nat} {fd counted : Int32} {m : FdMap}
      (origin : Origin env ok s counted m s₁) (parents : Parents m [fd])
      (put : Put s₁ t fd fd counted m s') (working : Working ok s pid t) : Edit env ok s s'
  | tableAdded {s : State} (copies : ok.copies) :
      Edit env ok s { s with tables := s.tables ++ [.init HASH_TABLE_SIZE] }
  | copied {s s' : State} {t : Nat} {item : FdItem} {m : FdMap} (copies : ok.copies)
      (there : item ∈ s.items) (live : s.fdMaps.read item.fdMap = some m)
      (put : Put s t item.oldFd item.oldFd m.myFd m s') : Edit env ok s s'
  | linked {s : State} {pid : Int32} {ht : Option Nat} {mappings : HashTable ProcessItem}
      (inserted : s.fdMappings.insert htOpsFdMapping pid ⟨pid,ht⟩ = some mappings)
      (source : ok.orphans ∨ ∃ t, ht = some t ∧
        ((∃ p, tableOf s p = some t) ∨ t < s.tables.length)) :
      Edit env ok s { s with fdMappings := mappings }
  | closed {s s₁ : State} {pid : Int32} {t : Nat} {fd : Int32} {h h' : HashTable FdItem}
    {item : FdItem}
      {m m' : FdMap} {last : Bool} (table : s.tables[t]? = some h)
      (found : h.find htOpsFdItem fd = some (some item))
      (live : s.fdMaps.read item.fdMap = some m) (release : Release env s m s₁)
      (deleted : deleteParentFd m fd = .ok (m',last))
      (removed : h.remove htOpsFdItem fd = some h') (working : Working ok s pid t) :
      Edit env ok s { s₁ with
        tables := s.tables.set t h',
        fdMaps := if last then s.fdMaps.free item.fdMap else s.fdMaps.write item.fdMap m' }
  | closeFailed {s : State} {item : FdItem} {m : FdMap} {usage : HashTable FdUsage}
      (there : item ∈ s.items) (live : s.fdMaps.read item.fdMap = some m)
      (supported : supportedType m.type = true)
      (used : decreaseFdUsage s.usageMap m.myFd = .ok (usage,true))
      (failed : s.answer env (.close m.myFd) = -1) (acts : env.actReplicate = true) :
      Edit env ok s (State.logged env { s with usageMap := usage } (.close m.myFd))
  | aliased {s : State} {pid : Int32} {t : Nat} {fd : Int32} {h h' : HashTable FdItem}
      {item : FdItem} {m m' : FdMap} {usage : HashTable FdUsage}
      (careful : ok.careless ∨ item ∈ s.items ∧ HasRoom m fd)
      (live : s.fdMaps.read item.fdMap = some m) (stored : insertParentFd m fd = .ok m')
      (valid : fd ≠ -1)
      (table : s.tables[t]? = some h)
      (inserted : h.insert htOpsFdItem fd ⟨s.nextItem,fd,item.fdMap⟩ = some h')
      (used : increaseFdUsage s.usageMap m.myFd = .ok usage) (working : Working ok s pid t)
      (held : ok.loose ∨ InTable s t item.fdMap) :
      Edit env ok s { s with
        fdMaps := s.fdMaps.write item.fdMap m', tables := s.tables.set t h',
        nextItem := s.nextItem + 1, usageMap := usage }

def CloseFailed (s : State) : Prop := ∃ fd r, (.close fd,r) ∈ s.log ∧ r.toInt32 = -1

inductive Refused (s : State) (k : Int32) : Prop where
  | process (refused : s.fdMappings.chain htOpsFdMapping k = none)
  | item {t : Nat} {h : HashTable FdItem} (table : s.tables[t]? = some h)
    (refused : h.chain htOpsFdItem k = none)
  | usage (refused : s.usageMap.chain htOpsFdUsage k = none)

/-- Why a run stops, in the state in which it does. -/
inductive Stop (env : Env) (ok : Allowed) (s : State) : Fault → Prop where
  | freed (why : Dangling s ∨ ok.careless) : Stop env ok s .useAfterFree
  | asked {k : Int32} (asked : ok.keys k ∨ k = s.globalParentPid) (refused : Refused s k) :
      Stop env ok s (.fd .negativeKey)
  | tracked {a : Nat} {m : FdMap} (live : s.fdMaps.read a = some m) (refused : Refused s m.myFd) :
      Stop env ok s (.fd .negativeKey)
  | copied {i : FdItem} (there : i ∈ s.items) (refused : Refused s i.oldFd) :
      Stop env ok s (.fd .negativeKey)
  | number {n : Int32} {m : FdMap} {s' : State} (origin : Origin env ok s n m s')
    (mine : m.myFd = n)
      (refused : Refused s n) :
      Stop env ok s (.fd .negativeKey)
  | noTable {pid : Int32} {t : Nat} (linked : tableOf s pid = some t) (gone : s.tables[t]? = none) :
      Stop env ok s .nullTable
  | orphan (allowed : ok.orphans) : Stop env ok s .nullTable
  | present (allowed : ok.careless ∨ ok.stale ∨ CloseFailed s) :
      Stop env ok s (.fd .parentPresent)
  | parent {i : FdItem} {m : FdMap} {f : FdFault} (there : i ∈ s.items)
    (live : s.fdMaps.read i.fdMap = some m)
      (failed : deleteParentFd m i.oldFd = .error f) : Stop env ok s (.fd f)
  | missing {i : FdItem} {m : FdMap} (there : i ∈ s.items) (live : s.fdMaps.read i.fdMap = some m)
      (supported : supportedType m.type = true)
      (failed : s.usageMap.find htOpsFdUsage m.myFd = some none) :
      Stop env ok s (.fd .usageMissing)
  | overflow : Stop env ok s (.fd .overflow)
  | sim (f : SimFault) : Stop env ok s (.sim f)
  | noAction : Stop env ok s .noAction

structure Kept (s s' : State) : Prop where
  items : ∀ i ∈ s.items, i ∈ s'.items
  maps : ∀ a m, s.fdMaps.read a = some m → s'.fdMaps.read a = some m

theorem Kept.refl (s : State) : Kept s s := ⟨fun _ h => h,fun _ _ h => h⟩

theorem Kept.trans {s t u : State} (a : Kept s t) (b : Kept t u) : Kept s u :=
  ⟨fun i h => b.items i (a.items i h),fun x m h => b.maps x m (a.maps x m h)⟩

theorem itemsOf {s : State} {t : Nat} {h : HashTable FdItem} {i : FdItem}
    (table : s.tables[t]? = some h) (member : i ∈ h.items) : i ∈ s.items :=
  List.mem_flatMap.mpr ⟨h,List.mem_of_getElem? table,member⟩

structure Found (s : State) (t : Nat) (fd : Int32) (item : FdItem) : Prop where
  held : ∃ h, s.tables[t]? = some h ∧ h.find htOpsFdItem fd = some (some item)

theorem Found.member {s : State} {t : Nat} {fd : Int32} {item : FdItem}
    (found : Found s t fd item) : item ∈ s.items := by
  obtain ⟨h,table,first⟩ := found.held
  exact itemsOf table (HashTable.findMem first).1

theorem Found.oldFd {s : State} {t : Nat} {fd : Int32} {item : FdItem}
    (found : Found s t fd item) : item.oldFd = fd := by
  obtain ⟨h,table,first⟩ := found.held
  simpa [htOpsFdItem] using (HashTable.findMem first).2

theorem flatMapSet {tables : List (HashTable FdItem)} {t : Nat} {h h' : HashTable FdItem}
    {x : FdItem} (table : tables[t]? = some h) (more : h'.items.Perm (x :: h.items)) :
    ((tables.set t h').flatMap HashTable.items).Perm (x :: tables.flatMap HashTable.items) := by
  induction tables generalizing t with
  | nil => simp at table
  | cons first rest ih =>
    cases t with
    | zero =>
      have same : first = h := by simpa using table
      subst same
      simpa using more.append_right (rest.flatMap HashTable.items)
    | succ t =>
      have inner := ih (t := t) (by simpa using table)
      simp only [List.set_cons_succ,List.flatMap_cons]
      exact (inner.append_left _).trans List.perm_middle

theorem putItems {s s' : State} {t : Nat} {k fd counted : Int32} {m : FdMap}
    (put : Put s t k fd counted m s') :
    s'.items.Perm (⟨s.nextItem,fd,s.fdMaps.fresh⟩ :: s.items) := by
  obtain ⟨table,inserted,_⟩ := put
  exact flatMapSet table (HashTable.insertItems inserted)

theorem removedItems {s : State} {t : Nat} {fd : Int32} {h h' : HashTable FdItem} {item : FdItem}
    (table : s.tables[t]? = some h) (found : h.find htOpsFdItem fd = some (some item))
    (removed : h.remove htOpsFdItem fd = some h') :
    (item :: (s.tables.set t h').flatMap HashTable.items).Perm s.items := by
  have inside : t < s.tables.length := by
    by_contra beyond
    rw [List.getElem?_eq_none (by omega)] at table
    simp at table
  have again : (s.tables.set t h')[t]? = some h' := by
    rw [List.getElem?_set_self inside]
  have back := flatMapSet again (HashTable.removeItems found removed).symm
  have same : (s.tables.set t h').set t h = s.tables := by
    rw [List.set_set]
    exact List.ext_getElem? fun j => by
      by_cases here : t = j
      · subst here
        rw [List.getElem?_set_self inside,table]
      · rw [List.getElem?_set_ne here]
  rw [same] at back
  exact back.symm

theorem putKept {s s' : State} {t : Nat} {k fd counted : Int32} {m : FdMap}
    (put : Put s t k fd counted m s') : Kept s s' where
  items := fun i member => (putItems put).mem_iff.mpr (List.mem_cons_of_mem _ member)
  maps := by
    obtain ⟨table,inserted,_⟩ := put
    exact fun a m' live => Arena.readAllocOld m live

end IoApps
