import IoApps.ReplicateKeys
import IoApps.ReplicateUsage

/-! The assertions of the descriptor tracker: parents are found where they are looked for and free
where they are put, and a descriptor that an item refers to is counted. -/
namespace IoApps
open Lib (Arena Prog)
open Lib.Prog (Steps)

section Covered
variable {env : Env} {ok : Allowed} {s s' : State}

/-- A supported descriptor is counted at least once for every item that refers to it; where calls
are replayed it is open, and none could not be closed. -/
structure Covered (env : Env) (s : State) : Prop where
  counters : Counters s.usageMap
  counted : ∀ n, (s.entries n : Int) ≤ usageCount s.usageMap n
  opened : env.actReplicate = true → ∀ n, s.entries n ≠ 0 → isOpen s.log n = true
  closes : ¬ CloseFailed s

/-- Where calls are replayed, the kernel opens what is not open and closes what is. -/
def Obeys (env : Env) : Prop := env.actReplicate = true → FreshOpens env ∧ ClosesSucceed env

structure Calmer (s s' : State) : Prop where
  opened : ∀ n, s.entries n ≠ 0 → isOpen s.log n = true → isOpen s'.log n = true
  closes : ¬ CloseFailed s → ¬ CloseFailed s'

theorem Calmer.same (log : s'.log = s.log) : Calmer s s' where
  opened := fun n _ there => log ▸ there
  closes := fun none failed => none (by
    obtain ⟨fd,r,member,bad⟩ := failed
    exact ⟨fd,r,log ▸ member,bad⟩)

theorem Calmer.call {c : Call} (calm : ∀ fd, c ≠ .close fd) : Calmer s (s.logged env c) where
  opened := by
    intro n _ there
    cases c with
    | «open» | openDevice => simp [State.logged,isOpen,there]
    | close fd => exact absurd rfl (calm fd)
    | _ => exact there
  closes := by
    intro none failed
    obtain ⟨fd,r,member,bad⟩ := failed
    rcases List.mem_cons.mp member with new | old
    · exact calm fd (Prod.mk.inj new).1.symm
    · exact none ⟨fd,r,old,bad⟩

theorem Covered.keep (covered : Covered env s) (calmer : Calmer s s')
    (usage : s'.usageMap = s.usageMap) (entries : ∀ n, s'.entries n = s.entries n) :
    Covered env s' where
  counters := usage ▸ covered.counters
  counted := fun n => by
    rw [usage,entries n]
    exact covered.counted n
  opened := by
    intro acts n some_
    rw [entries n] at some_
    exact calmer.opened n some_ (covered.opened acts n some_)
  closes := calmer.closes covered.closes

theorem Covered.more {m : FdMap} {counted : Int32} (covered : Covered env s) (calmer : Calmer s s')
    (used : increaseFdUsage s.usageMap counted = .ok s'.usageMap)
    (entries : ∀ n, s'.entries n = s.entries n + oneFor m n)
    (mine : supportedType m.type = true → counted = m.myFd ∧
      (env.actReplicate = true → isOpen s'.log m.myFd = true)) : Covered env s' := by
  obtain ⟨counters,counts⟩ := increaseCounts covered.counters used
  refine ⟨counters,fun n => ?_,fun acts n some_ => ?_,calmer.closes covered.closes⟩
  · have before := covered.counted n
    rw [entries n,counts n]
    by_cases new : m.myFd = n ∧ supportedType m.type = true
    · have one : oneFor m n = 1 := if_pos new
      rw [one,if_pos (new.1.symm.trans (mine new.2).1.symm)]
      omega
    · have none : oneFor m n = 0 := if_neg new
      rw [none]
      split
      · omega
      · omega
  · by_cases new : m.myFd = n ∧ supportedType m.type = true
    · exact new.1 ▸ (mine new.2).2 acts
    · have none : oneFor m n = 0 := if_neg new
      rw [entries n,none] at some_
      exact calmer.opened n some_ (covered.opened acts n some_)

theorem Covered.put {t : Nat} {k fd counted : Int32} {m : FdMap} (covered : Covered env s)
    (owned : Owned s) (put : Put s t k fd counted m s')
    (mine : supportedType m.type = true → counted = m.myFd ∧
      (env.actReplicate = true → isOpen s.log m.myFd = true)) : Covered env s' := by
  obtain ⟨entries,_⟩ := putEntries owned put
  have log := putLog put
  have used : increaseFdUsage s.usageMap counted = .ok s'.usageMap := by
    cases put
    assumption
  exact covered.more (.same log) used entries (log ▸ mine)

theorem Covered.placed {s₁ : State} {t : Nat} {fd counted : Int32} {m : FdMap}
    (covered : Covered env s) (owned : Owned s) (origin : Origin env ok s counted m s₁)
    (put : Put s₁ t fd fd counted m s') : Covered env s' := by
  obtain ⟨tables,maps⟩ := origin.same
  have same (n : Int32) : s₁.entries n = s.entries n := by
    rw [State.entries,State.entries,State.items,State.items,tables,maps]
  have calmer : Calmer s s₁ := by
    cases origin with
    | replayed => exact .call (by simp)
    | placeholder => exact .same rfl
    | socket => exact .same rfl
    | pipe => exact .same rfl
  refine Covered.put (covered.keep calmer origin.usage same) (owned.of tables maps) put ?_
  intro supported
  cases origin with
  | replayed acts answered valid mine =>
    refine ⟨mine.symm,fun _ => ?_⟩
    rw [mine]
    exact (isOpenBy answered valid).mpr (.inl rfl)
  | placeholder up mine replaying =>
    refine ⟨mine.symm,fun acts => ?_⟩
    rw [replaying acts] at supported
    exact absurd supported (by simp)
  | socket down mine unsupported =>
    rw [unsupported] at supported
    exact absurd supported (by simp)
  | pipe ended down unsupported =>
    rw [unsupported] at supported
    exact absurd supported (by simp)

theorem Calmer.probed {name : CName} {flags : Int32} {mode : Option UInt32} (obeys : Obeys env)
    (acts : env.actReplicate = true)
    (opened : s.answer env (.open name flags mode) ≠ -1) :
    Calmer s ((s.logged env (.open name flags mode)).logged env
      (.close (s.answer env (.open name flags mode)))) := by
  obtain ⟨fresh,closes⟩ := obeys acts
  have closed : isOpen s.log (s.answer env (.open name flags mode)) = false :=
    (fresh s.log name flags mode).resolve_left opened
  have there : isOpen (s.logged env (.open name flags mode)).log
      (s.answer env (.open name flags mode)) = true := (isOpenBy rfl opened).mpr (.inl rfl)
  have done := closes _ _ there
  constructor
  · intro n some_ before
    refine isOpenClose.mpr ⟨(isOpenBy rfl opened).mpr (.inr before),fun same => ?_⟩
    rw [same,before] at closed
    exact absurd closed (by simp)
  · intro none failed
    obtain ⟨fd,r,member,bad⟩ := failed
    rcases List.mem_cons.mp member with last | earlier
    · cases last
      exact done bad
    · rcases List.mem_cons.mp earlier with open_ | old
      · exact absurd (Prod.mk.inj open_).1 (by simp)
      · exact none ⟨fd,r,old,bad⟩

theorem Covered.less {m : FdMap} {last : Bool} (covered : Covered env s)
    (supported : supportedType m.type = true)
    (used : decreaseFdUsage s.usageMap m.myFd = .ok (s'.usageMap,last))
    (entries : ∀ n, s.entries n = s'.entries n + oneFor m n)
    (open_ : ∀ n, isOpen s.log n = true → (m.myFd = n → last = false) → isOpen s'.log n = true)
    (closes : ¬ CloseFailed s → ¬ CloseFailed s') : Covered env s' := by
  obtain ⟨counters,counts,final⟩ := decreaseCounts covered.counters used
  refine ⟨counters,fun n => ?_,fun acts n some_ => ?_,closes covered.closes⟩
  · have before := covered.counted n
    have step := entries n
    rw [counts n]
    by_cases same : m.myFd = n
    · have one : oneFor m n = 1 := if_pos ⟨same,supported⟩
      rw [if_pos same.symm]
      omega
    · have none : oneFor m n = 0 := if_neg fun both => same both.1
      rw [if_neg (Ne.symm same)]
      omega
  · have step := entries n
    refine open_ n (covered.opened acts n (by omega)) fun same => ?_
    have one : oneFor m n = 1 := if_pos ⟨same,supported⟩
    have before := covered.counted n
    rw [← Bool.not_eq_true,final,same]
    omega

theorem Covered.closed {s₁ : State} {t : Nat} {fd : Int32} {h h' : HashTable FdItem}
    {item : FdItem} {m m' : FdMap} {last : Bool} (covered : Covered env s) (owned : Owned s)
    (owned' : Owned s') (table : s.tables[t]? = some h)
    (found : h.find htOpsFdItem fd = some (some item))
    (live : s.fdMaps.read item.fdMap = some m) (release : Release env s m s₁)
    (deleted : deleteParentFd m fd = .ok (m',last))
    (removed : h.remove htOpsFdItem fd = some h')
    (after : s' = { s₁ with
      tables := s.tables.set t h',
      fdMaps := if last then s.fdMaps.free item.fdMap else s.fdMaps.write item.fdMap m' }) :
    Covered env s' := by
  have perm : (item :: s'.items).Perm s.items := by
    rw [after]
    exact removedItems table found removed
  have maps : s'.fdMaps =
      if last then s.fdMaps.free item.fdMap else s.fdMaps.write item.fdMap m' := by rw [after]
  have oldFd := (Found.mk ⟨h,table,found⟩).oldFd
  obtain ⟨entries,_⟩ := closedEntries owned owned' perm live (oldFd ▸ deleted) maps
  have still : ¬ CloseFailed s → ¬ CloseFailed s := id
  cases release with
  | untracked unsupported =>
    subst after
    have none (n : Int32) : oneFor m n = 0 := by simp [oneFor,unsupported]
    refine covered.keep (.same rfl) rfl fun n => ?_
    have step := entries n
    rw [none n] at step
    exact step.symm
  | kept supported used =>
    subst after
    exact covered.less supported used entries (fun _ there _ => there) still
  | simulated supported used =>
    subst after
    exact covered.less supported used entries (fun _ there _ => there) still
  | closed supported used acts done =>
    subst after
    refine covered.less supported used entries (fun n there more => ?_) fun none failed => ?_
    · exact isOpenClose.mpr ⟨there,fun same => absurd (more same) (by simp)⟩
    · obtain ⟨fd,r,member,bad⟩ := failed
      rcases List.mem_cons.mp member with last | old
      · cases last
        exact done bad
      · exact none ⟨fd,r,old,bad⟩

theorem coveredEdit (obeys : Obeys env) (careful : ¬ ok.careless) (edit : Edit env ok s s')
    (owned : Owned s) (covered : Covered env s) : Covered env s' := by
  have owned' := ownedEdit careful edit owned
  cases edit with
  | logged c quiet =>
    exact covered.keep (.call fun fd same => by rw [same] at quiet; exact quiet) rfl fun _ => rfl
  | openFailed => exact covered.keep (.call (by simp)) rfl fun _ => rfl
  | probed opened mapped acts =>
    exact covered.keep (.probed obeys acts opened) rfl fun _ => rfl
  | simmed | openNumber | linked => exact covered.keep (.same rfl) rfl fun _ => rfl
  | seeked live pos working =>
    rename_i m _
    have ends : SameEnd m { m with curPos := pos } := ⟨rfl,rfl⟩
    exact covered.keep (.same rfl) rfl (countEntriesSame (writtenEnds owned live ends))
  | placed origin parents put => exact covered.placed owned origin put
  | tableAdded =>
    refine covered.keep (.same rfl) rfl fun n => ?_
    rw [State.entries,tableAddedItems]
    rfl
  | copied copies there live put =>
    refine covered.put owned put fun supported => ⟨rfl,fun acts => ?_⟩
    exact covered.opened acts _ (countEntriesPos there live supported)
  | closed table found live release deleted removed =>
    exact covered.closed owned owned' table found live release deleted removed rfl
  | closeFailed there live supported used failed acts =>
    have opened := covered.opened acts _ (countEntriesPos there live supported)
    exact absurd failed ((obeys acts).2 _ _ opened)
  | aliased careful' live stored valid table inserted used working held =>
    rename_i usage
    obtain ⟨there,_⟩ := careful'.resolve_left careful
    have more := aliasedEntries (u := usage) owned there live stored table inserted rfl
    refine covered.more (.same rfl) used more.1 fun supported => ⟨rfl,fun acts => ?_⟩
    exact covered.opened acts _ (countEntriesPos there live supported)

end Covered

section Assertions
variable {env : Env} {ok : Allowed} {pid : Int32} {s : State}

def FdFault.tracker : FdFault → Prop
  | .parentPresent | .parentMissing | .parentIndex | .usageMissing => True
  | .negativeKey | .overflow => False

theorem coveredStop (careful : ¬ ok.careless) (fresh : ¬ ok.stale) (owned : Owned s)
    (covered : Covered env s) {f : FdFault} (tracker : f.tracker) : ¬ Stop env ok s (.fd f) := by
  intro stop
  cases stop with
  | asked | tracked | copied | number | overflow => exact tracker
  | present allowed =>
    rcases allowed with careless | stale | failed
    · exact careful careless
    · exact fresh stale
    · exact covered.closes failed
  | parent there live failed =>
    obtain ⟨m,stored,live',parents,present⟩ := owned.parents _ there
    cases Option.some.inj (live.symm.trans live')
    obtain ⟨_,_,_,_,deleted,_⟩ := deleteParentPresent parents present
    exact absurd (failed.symm.trans deleted) (by simp)
  | missing there live supported failed =>
    rename_i i m
    have some_ : s.entries m.myFd ≠ 0 := countEntriesPos there live supported
    have counted := covered.counted m.myFd
    rw [usageCountNone failed] at counted
    omega

theorem Began.covered (began : Began env pid s) : Covered env s := by
  obtain ⟨mappings,_,b,c,d,stdin,stdout,stderr,_,rfl,put₀,put₁,put₂,one,two,three,_,_,_,rfl⟩ :=
    began.puts
  have noItems : (firstTable pid mappings).items = [] := by
    simp [firstTable,State.items,HashTable.itemsInit]
  have owned : Owned (firstTable pid mappings) :=
    ⟨fun i member => absurd member (by simp [noItems]),by simp [noItems]⟩
  have none (n : Int32) : (firstTable pid mappings).entries n = 0 := by
    rw [State.entries,noItems]
    rfl
  have empty : Covered env (firstTable pid mappings) := by
    refine ⟨countersInit _,fun n => ?_,fun _ n some_ => absurd (none n) some_,?_⟩
    · rw [none n]
      exact Int.le_of_eq (usageCountInit _ n).symm
    · intro failed
      obtain ⟨fd,r,member,_⟩ := failed
      exact absurd member List.not_mem_nil
  have standard {fd : Int32} {m : FdMap} {q : Prop} (std : Standard fd m)
      (supported : supportedType m.type = true) : q := by
    rw [std.type] at supported
    exact absurd supported (by decide)
  have owned₁ := owned.put put₀ one.parents (by simp)
  have owned₂ := owned₁.put put₁ two.parents (by simp)
  have full := ((empty.put owned put₀ (standard one)).put owned₁ put₁ (standard two)).put owned₂
    put₂ (standard three)
  have first : Covered env (d.logged env (.openDevice .null)) :=
    full.keep (.call (by simp)) rfl fun _ => rfl
  have both : Covered env ((d.logged env (.openDevice .null)).logged env (.openDevice .zero)) :=
    first.keep (.call (by simp)) rfl fun _ => rfl
  exact both.keep (.same rfl) rfl fun _ => rfl

def aliasing (env : Env) (s : State) (op : Op) : Prop := carefulOp env s op ∧ freshOp env s op

instance {s : State} {op : Op} : Decidable (aliasing env s op) :=
  inferInstanceAs (Decidable (_ ∧ _))

def tracking : Allowed := { Allowed.any with careless := False, stale := False }

theorem aliasingPermits {op : Op} (owned : Owned s) (met : aliasing env s op) :
    Permits env tracking s op where
  pipes := fun _ _ _ => ⟨trivial,trivial⟩
  clones := fun _ _ => ⟨trivial,asksClone (fun _ => trivial) trivial⟩
  dups := fun _ => ⟨owned,met.1⟩
  fresh := fun _ => met.2
  stamped := fun never => absurd trivial never
  asks := fun _ => ⟨trivial,trivial,.inl trivial⟩
  asked := fun _ _ _ _ _ => trivial
  pipeNumbers := fun _ _ _ _ _ => ⟨trivial,fun _ _ => trivial⟩
  socketNumbers := fun _ _ _ _ _ => trivial

/-- In a replay each of whose dups finds room for its new descriptor, which is no alias that a
fork left behind, the assertions of the tracker hold. -/
theorem assertionsHold (obeys : Obeys env) {ops : List Op}
    (along : AlongAll env (aliasing env) ops) {f : FdFault} (tracker : f.tracker) :
    replicate env ops State.start ≠ .error (.fd f) := by
  have kept : ∀ s t, Edit env tracking s t → Owned s ∧ Covered env s →
      Owned t ∧ Covered env t := fun s t edit both =>
    ⟨ownedEdit not_false edit both.1,coveredEdit obeys not_false edit both.1 both.2⟩
  refine replicateNever (by simp) (fun op _ stops => ?_) (fun o _ s op reached met => ?_) along
  · rcases initStops stops with table | overflow | negative
    · exact absurd table (by simp)
    · cases overflow
      exact tracker
    · cases negative
      exact tracker
  · have both : Owned s ∧ Covered env s := reached.keeps tracking (fun s => Owned s ∧ Covered env s)
      (fun _ began => ⟨began.owned,began.covered⟩) (fun _ _ both => aliasingPermits both.1) kept
    exact (opRuns (aliasingPermits both.1 met)).never (fun s => Owned s ∧ Covered env s) kept
      (fun _ both => coveredStop not_false not_false both.1 both.2 tracker) both

theorem assertionsHoldFork : replicate replaying [opened 7 "/f" 3,duplicated 7 3 5,
    .clone ⟨0,9,blankInfo 7⟩,closed 9 5,duplicated 9 3 6,duplicated 7 3 5,opened 9 "/g" 4,
    duplicated 9 4 3,closed 9 6,closed 7 3,closed 7 5] State.start ≠ .error (.fd .usageMissing) :=
  assertionsHold (fun _ => ⟨replayingFresh,replayingCloses⟩) (.run (by decide +kernel)) trivial

end Assertions

section Posix

/-- The descriptor tables of a kernel: the one of each process, and the open file that each
descriptor of a table refers to. -/
structure Posix where
  processes : List (Int32 × Nat)
  tables : List (List (Int32 × Nat))
  files : Nat

namespace Posix

def start (pid : Int32) : Posix := ⟨[(pid,0)],[[(0,0),(1,1),(2,2)]],3⟩

def lowestFree (fds : List (Int32 × Nat)) : Int32 :=
  (((List.range (fds.length + 1)).map Int32.ofNat).find? fun n =>
    (fds.lookup n).isNone).getD (-1)

def bind (k : Posix) (t : Nat) (fd : Int32) (file : Nat) : Posix :=
  { k with tables := k.tables.modify t fun fds => (fd,file) :: fds.filter fun e => e.1 ≠ fd }

def table (k : Posix) (pid : Int32) : Option (Nat × List (Int32 × Nat)) := do
  let t ← k.processes.lookup pid
  let fds ← k.tables[t]?
  some (t,fds)

def «open» (k : Posix) (o : OpenOp) : Option Posix := do
  let (t,fds) ← k.table o.info.pid
  if o.retval = -1 then some k
  else if o.retval = lowestFree fds then
    some { k.bind t o.retval k.files with files := k.files + 1 }
  else none

def dup (k : Posix) (o : DupOp) (picks : List (Int32 × Nat) → Bool) : Option Posix := do
  let (t,fds) ← k.table o.info.pid
  if o.retval = -1 then some k
  else do
    let file ← fds.lookup o.oldFd
    if picks fds then some (k.bind t o.retval file) else none

def close (k : Posix) (o : CloseOp) : Option Posix := do
  let (t,fds) ← k.table o.info.pid
  if (fds.lookup o.fd).isSome ∧ o.retval = 0 then
    some { k with tables := k.tables.set t (fds.filter fun e => e.1 ≠ o.fd) }
  else if (fds.lookup o.fd).isNone ∧ o.retval = -1 then some k
  else none

def clone (k : Posix) (o : CloneOp) : Option Posix := do
  let (t,fds) ← k.table o.info.pid
  if o.retval = -1 then some k
  else if o.retval ≤ 0 ∨ (k.processes.lookup o.retval).isSome then none
  else if o.mode &&& CLONE_FILES ≠ 0 then
    some { k with processes := (o.retval,t) :: k.processes }
  else
    some { k with processes := (o.retval,k.tables.length) :: k.processes,
                  tables := k.tables ++ [fds] }

def step (k : Posix) : Op → Option Posix
  | .open o => k.open o
  | .close o => k.close o
  | .clone o => k.clone o
  | .dup o => k.dup o fun fds => o.retval = lowestFree fds
  | .dup2 o | .dup3 o => k.dup o fun _ => 0 ≤ o.newFd ∧ o.retval = o.newFd ∧ o.oldFd ≠ o.newFd
  | _ => none

def fewAliases (k : Posix) : Bool :=
  k.tables.flatten.all fun e => k.tables.flatten.countP (fun d => d.2 = e.2) < MAX_PARENT_IDS

def run : List Op → Posix → Option Posix
  | [],k => some k
  | op :: rest,k => do
    let k ← k.step op
    if k.fewAliases then run rest k else none

def consistent : List Op → Bool
  | [] => true
  | op :: rest => (run (op :: rest) (start op.info.pid)).isSome

end Posix

theorem copiedAliasPresent : ¬ ∀ env ops (f : FdFault), Posix.consistent ops = true → f.tracker →
    replicate env ops State.start ≠ .error (.fd f) := by
  intro all
  have possible : Posix.consistent [opened 7 "/f" 3,duplicated 7 3 5,.clone ⟨0,9,blankInfo 7⟩,
      closed 9 5,duplicated 9 3 5] = true := by decide +kernel
  have stops : failsWith simulating [opened 7 "/f" 3,duplicated 7 3 5,.clone ⟨0,9,blankInfo 7⟩,
      closed 9 5,duplicated 9 3 5] (.fd .parentPresent) = true := by decide +kernel
  exact all simulating _ .parentPresent possible trivial (failsWithError stops)

end Posix
end IoApps
