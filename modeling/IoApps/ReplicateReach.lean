import IoApps.ReplicateSteps

/-! The states the replicator reaches: what it begins with, and what its runs keep. -/
namespace IoApps
open Lib (Arena Prog)
open Lib.Prog (Steps)

section Init

def initialised (env : Env) (pid : Int32) : Option State :=
  match replicateInit env pid State.start with
  | .ok (rv,s) => if rv = 0 then some s else none
  | .error _ => none

def firstTable (pid : Int32) (mappings : HashTable ProcessItem) : State :=
  { State.start with
    fdMappings := mappings, globalParentPid := pid, tables := [.init HASH_TABLE_SIZE] }

structure Standard (fd : Int32) (m : FdMap) : Prop where
  parents : Parents m [fd]
  mine : m.myFd = fd
  type : m.type = .spec

def DeviceFd (env : Env) (n : Int32) : Prop :=
  ∃ log device, (env.kernel log (.openDevice device)).toInt32 = n

/-- The table holds the three standard descriptors; the first is put and counted under the number
of the second. Two devices have been opened. -/
structure Began (env : Env) (pid : Int32) (s : State) : Prop where
  puts : ∃ mappings a b c d stdin stdout stderr,
    (HashTable.init HASH_TABLE_SIZE).insert htOpsFdMapping pid ⟨pid,some 0⟩ = some mappings ∧
    a = firstTable pid mappings ∧
    Put a 0 1 0 1 stdin b ∧ Put b 0 1 1 1 stdout c ∧ Put c 0 2 2 2 stderr d ∧
    Standard 0 stdin ∧ Standard 1 stdout ∧ Standard 2 stderr ∧
    ∃ devnull devzero, (devnull ≠ -1 ∧ DeviceFd env devnull ∧ DeviceFd env devzero) ∧
      s = { (d.logged env (.openDevice .null)).logged env (.openDevice .zero) with
        globalDevnullFd := devnull, globalDevzeroFd := devzero }

theorem stdMapBare {env : Env} (fd : Int32) (name : CName) : Parents (stdMap env fd name) [] :=
  ⟨rfl,Nat.zero_le _,rfl,List.not_mem_nil,List.nodup_nil⟩

theorem stdPut {env : Env} {t : Nat} {k fd counted : Int32} {name : CName} {s s' : State}
    (valid : fd ≠ -1) (ran : newItem t k fd counted (stdMap env fd name) s = .ok ((),s')) :
    ∃ m, Standard fd m ∧ Put s t k fd counted m s' := by
  rcases newItemRun t k counted (stdMapBare fd name) valid s with
    ⟨m,_,stored,put,done⟩ | ⟨f,_,stops⟩
  · cases ran.symm.trans done
    obtain ⟨parents,mine,type,_⟩ := firstParent (stdMapBare fd name) valid stored
    exact ⟨m,⟨parents,mine,type⟩,put⟩
  · exact absurd (ran.symm.trans stops) (by simp)

theorem putLog {s s' : State} {t : Nat} {k fd counted : Int32} {m : FdMap}
    (put : Put s t k fd counted m s') : s'.log = s.log := by
  cases put
  rfl

theorem linkFirst {pid : Int32} {s a : State} {ht : Option Nat}
    (linked : linkProcess pid ht s = .ok ((),a)) : ∃ mappings,
      s.fdMappings.insert htOpsFdMapping pid ⟨pid,ht⟩ = some mappings ∧
      a = { s with fdMappings := mappings } := by
  rw [linkProcess,Prog.bindOf (Prog.getRun _)] at linked
  cases inserted : s.fdMappings.insert htOpsFdMapping pid ⟨pid,ht⟩ with
  | none =>
    rw [inserted] at linked
    exact absurd linked (by simp [key,Prog.bindRun])
  | some mappings =>
    rw [inserted] at linked
    cases linked
    exact ⟨mappings,rfl,rfl⟩

theorem initialisedRun {env : Env} {pid : Int32} {s : State} (ran : initialised env pid = some s) :
    ∃ rv, rv = 0 ∧ replicateInit env pid State.start = .ok (rv,s) := by
  rw [initialised] at ran
  split at ran
  · rename_i rv s' eq
    split at ran
    · rename_i zero
      exact ⟨rv,zero,by rw [eq,Option.some.inj ran]⟩
    · exact absurd ran (by simp)
  · exact absurd ran (by simp)

theorem initBegan {env : Env} {pid : Int32} {s : State} (ran : initialised env pid = some s) :
    Began env pid s := by
  obtain ⟨rv,zero,whole⟩ := initialisedRun ran
  rw [replicateInit,Prog.bindOf (Prog.modifyRun _ _)] at whole
  obtain ⟨t,s₀,made,whole⟩ := Prog.bindOk.mp whole
  cases made
  obtain ⟨_,a,linked,whole⟩ := Prog.bindOk.mp whole
  obtain ⟨mappings,inserted,rfl⟩ := linkFirst linked
  obtain ⟨_,b,first,whole⟩ := Prog.bindOk.mp whole
  obtain ⟨_,c,second,whole⟩ := Prog.bindOk.mp whole
  obtain ⟨_,d,third,whole⟩ := Prog.bindOk.mp whole
  obtain ⟨stdin,standard₀,put₀⟩ := stdPut (by decide) first
  obtain ⟨stdout,standard₁,put₁⟩ := stdPut (by decide) second
  obtain ⟨stderr,standard₂,put₂⟩ := stdPut (by decide) third
  rw [Prog.bindOf (callRun _ _ _),Prog.bindOf (Prog.modifyRun _ _)] at whole
  split at whole
  · cases whole
    exact absurd zero (by decide)
  · rename_i opened
    rw [Prog.bindOf (callRun _ _ _),Prog.bindOf (Prog.modifyRun _ _)] at whole
    cases whole
    exact ⟨mappings,_,b,c,d,stdin,stdout,stderr,inserted,rfl,put₀,put₁,put₂,standard₀,standard₁,
      standard₂,_,_,⟨opened,⟨_,_,rfl⟩,⟨_,_,rfl⟩⟩,rfl⟩

theorem Began.linked {env : Env} {pid : Int32} {s : State} (began : Began env pid s) :
    Linked s := by
  obtain ⟨mappings,a,b,c,d,_,_,_,inserted,rfl,put₀,put₁,put₂,_,_,_,_,_,_,rfl⟩ := began.puts
  cases put₀
  cases put₁
  cases put₂
  intro t inside
  have zero : t = 0 := by simpa [State.logged,firstTable] using inside
  subst zero
  exact ⟨⟨pid,some 0⟩,(HashTable.insertItems inserted).mem_iff.mpr List.mem_cons_self,rfl⟩

theorem Began.owned {env : Env} {pid : Int32} {s : State} (began : Began env pid s) :
    Owned s := by
  obtain ⟨mappings,a,b,c,d,_,_,_,_,rfl,put₀,put₁,put₂,one,two,three,_,_,_,rfl⟩ := began.puts
  have none : (firstTable pid mappings).items = [] := by
    simp [firstTable,State.items,HashTable.itemsInit]
  have empty : Owned (firstTable pid mappings) :=
    ⟨fun i member => absurd member (by simp [none]),by simp [none]⟩
  have full := ((empty.put put₀ one.parents (by simp)).put put₁ two.parents (by simp)).put put₂
    three.parents (by simp)
  exact full.of rfl rfl

def deviceLog (env : Env) : List (Call × Int64) :=
  let null := (.openDevice .null,env.kernel [] (.openDevice .null))
  [(.openDevice .zero,env.kernel [null] (.openDevice .zero)),null]

theorem initDevices {env : Env} {pid : Int32} {s : State} (ran : initialised env pid = some s) :
    s.log = deviceLog env ∧ (∀ null ∈ s.log[1]?, s.globalDevnullFd = null.2.toInt32) ∧
      ∀ zero ∈ s.log[0]?, s.globalDevzeroFd = zero.2.toInt32 := by
  obtain ⟨_,_,b,c,d,_,_,_,_,rfl,put₀,put₁,put₂,_,_,_,_,_,_,same⟩ := (initBegan ran).puts
  have silent : d.log = [] := by
    rw [putLog put₂,putLog put₁,putLog put₀]
    rfl
  have log : s.log = deviceLog env := by
    rw [same]
    simp only [State.logged,silent]
    rfl
  obtain ⟨rv,zero,whole⟩ := initialisedRun ran
  rw [replicateInit,Prog.bindOf (Prog.modifyRun _ _)] at whole
  obtain ⟨_,_,_,whole⟩ := Prog.bindOk.mp whole
  obtain ⟨_,_,_,whole⟩ := Prog.bindOk.mp whole
  obtain ⟨_,_,_,whole⟩ := Prog.bindOk.mp whole
  obtain ⟨_,_,_,whole⟩ := Prog.bindOk.mp whole
  obtain ⟨_,e,_,whole⟩ := Prog.bindOk.mp whole
  rw [Prog.bindOf (callRun _ _ _),Prog.bindOf (Prog.modifyRun _ _)] at whole
  split at whole
  · cases whole
    exact absurd zero (by decide)
  · rw [Prog.bindOf (callRun _ _ _),Prog.bindOf (Prog.modifyRun _ _)] at whole
    cases whole
    refine ⟨log,fun null second => ?_,fun zero first => ?_⟩
    · cases second
      rfl
    · cases first
      rfl

end Init

section Reached

/-- The states after a successful initialisation and any sequence of operations, each of which
meets a condition in the state before it. -/
inductive Reached (env : Env) (meets : State → Op → Prop) (pid : Int32) : State → Prop where
  | init {s : State} (ran : initialised env pid = some s) : Reached env meets pid s
  | step {s t : State} {op : Op} (before : Reached env meets pid s) (met : meets s op)
      (ran : replicateOp env op s = .ok ((),t)) : Reached env meets pid t

def anyOp (_ : State) (_ : Op) : Prop := True

instance {s : State} {op : Op} : Decidable (anyOp s op) := .isTrue trivial

variable {env : Env} {meets : State → Op → Prop} {pid : Int32}

/-- The run lemma: what holds at the beginning and is kept by every edit holds in every state
that is reached. -/
theorem Reached.keeps (ok : Allowed) (inv : State → Prop)
    (first : ∀ s, Began env pid s → inv s)
    (permits : ∀ s op, inv s → meets s op → Permits env ok s op)
    (kept : ∀ s t, Edit env ok s t → inv s → inv t) {s : State}
    (reached : Reached env meets pid s) : inv s := by
  induction reached with
  | init ran => exact first _ (initBegan ran)
  | step before met ran ih => exact (opRuns (permits _ _ ih met)).kept inv kept ih ran

def runOps (env : Env) (meets : State → Op → Prop) [∀ s op, Decidable (meets s op)] :
    List Op → State → Option State
  | [],s => some s
  | op :: rest,s =>
    if meets s op then
      match replicateOp env op s with
      | .ok (_,t) => runOps env meets rest t
      | .error _ => none
    else none

theorem Reached.ops [∀ s op, Decidable (meets s op)] {ops : List Op} {s t : State}
    (before : Reached env meets pid s) (ran : runOps env meets ops s = some t) :
    Reached env meets pid t := by
  induction ops generalizing s with
  | nil =>
    cases ran
    exact before
  | cons op rest ih =>
    rw [runOps] at ran
    split at ran
    · rename_i met
      cases one : replicateOp env op s with
      | error f =>
        rw [one] at ran
        exact absurd ran (by simp)
      | ok r =>
        rw [one] at ran
        exact ih (.step before met one) ran
    · exact absurd ran (by simp)

theorem Reached.run [∀ s op, Decidable (meets s op)] {ops : List Op} {s : State}
    (ran : (initialised env pid).bind (runOps env meets ops) = some s) :
    Reached env meets pid s := by
  obtain ⟨first,began,rest⟩ := Option.bind_eq_some_iff.mp ran
  exact Reached.ops (.init began) rest

theorem Reached.linked {s : State} (reached : Reached env meets pid s) : Linked s := by
  induction reached with
  | init ran => exact (initBegan ran).linked
  | step before met ran ih =>
    rename_i s t op
    by_cases clone : ∃ o, op = .clone o
    · obtain ⟨o,rfl⟩ := clone
      have runs : Runs env .any (replicateClone o) s (fun _ s' => Linked s → Linked s') :=
        cloneRuns (fun _ => trivial) (asksClone (fun _ => trivial) trivial)
      exact (runs.okElim ran).2 ih
    · have permits : Permits env { Allowed.any with copies := False } s op :=
        Allowed.Lax.permits
          ⟨trivial,trivial,trivial,fun _ => trivial,fun _ => trivial,fun _ => trivial⟩
          (fun _ _ _ => ⟨trivial,trivial⟩) (fun o same => clone ⟨o,same⟩)
          fun never => absurd trivial never
      have runs := opRuns permits
      exact runs.kept Linked (fun _ _ => linkedEdit not_false) ih ran

def Along (env : Env) (meets : State → Op → Prop) : List Op → State → Prop
  | [],_ => True
  | op :: rest,s => meets s op ∧ ∀ t, replicateOp env op s = .ok ((),t) → Along env meets rest t

def AlongAll (env : Env) (meets : State → Op → Prop) : List Op → Prop
  | [] => True
  | op :: rest => ∀ s, initialised env op.info.pid = some s → Along env meets (op :: rest) s

theorem runOpsAlong [∀ s op, Decidable (meets s op)] {ops : List Op} {s t : State}
    (ran : runOps env meets ops s = some t) : Along env meets ops s := by
  induction ops generalizing s with
  | nil => trivial
  | cons op rest ih =>
    rw [runOps] at ran
    split at ran
    · rename_i met
      refine ⟨met,fun u one => ?_⟩
      rw [one] at ran
      exact ih ran
    · exact absurd ran (by simp)

theorem AlongAll.run [∀ s op, Decidable (meets s op)] {op : Op} {rest : List Op}
    (ran : ((initialised env op.info.pid).bind (runOps env meets (op :: rest))).isSome = true) :
    AlongAll env meets (op :: rest) := by
  intro s began
  rw [began] at ran
  obtain ⟨t,done⟩ := Option.isSome_iff_exists.mp ran
  exact runOpsAlong done

theorem Along.never {f : Fault} (safe : ∀ s op, Reached env meets pid s → meets s op →
      replicateOp env op s ≠ .error f) {ops : List Op} {s : State}
    (reached : Reached env meets pid s) (along : Along env meets ops s) :
    replicateOps env ops s ≠ .error f := by
  induction ops generalizing s with
  | nil => exact fun stops => absurd stops (by simp [replicateOps])
  | cons op rest ih =>
    obtain ⟨met,later⟩ := along
    rw [replicateOps]
    intro stops
    rcases Prog.bindError.mp stops with here | ⟨_,t,ran,there⟩
    · exact safe s op reached met here
    · exact ih (.step reached met ran) (later t ran) there

theorem replicateNever {f : Fault} {ops : List Op} (other : f ≠ .nullTable)
    (begins : ∀ op ∈ ops.head?, replicateInit env op.info.pid State.start ≠ .error f)
    (safe : ∀ o ∈ ops.head?, ∀ s op, Reached env meets o.info.pid s → meets s op →
      replicateOp env op s ≠ .error f) (along : AlongAll env meets ops) :
    replicate env ops State.start ≠ .error f := by
  cases ops with
  | nil => exact fun stops => other (Except.error.inj stops).symm
  | cons op rest =>
    rw [replicate]
    intro stops
    rcases Prog.bindError.mp stops with first | ⟨rv,s,ran,later⟩
    · exact begins op rfl first
    · by_cases failed : rv ≠ 0
      · rw [if_pos failed] at later
        exact absurd later (by simp)
      · rw [if_neg failed] at later
        have began : initialised env op.info.pid = some s := by
          rw [initialised,ran]
          exact if_pos (not_not.mp failed)
        rcases Prog.bindError.mp later with inside | ⟨_,_,_,last⟩
        · exact Along.never (safe op rfl) (.init began) (along s began) inside
        · exact absurd last (by simp)

end Reached

section Examples

def blankInfo (pid : Int32) : OpInfo := ⟨pid,0,⟨0,0⟩⟩

def blankMap : FdMap := ⟨0,.reg,0,⟨0,0⟩,stdName "",0,[],0⟩

def plainEnv (replicating fixMissing : Bool) (kernel : List (Call × Int64) → Call → Int64) :
    Env where
  actSimulate := !replicating
  actReplicate := replicating
  fixMissing := fixMissing
  fileToFile := true
  sim := ⟨⟨true,false,false⟩,⟨fun _ => false,fun _ => 0,none⟩⟩
  namemap := namemapEmpty
  kernel := kernel
  garbage := ⟨blankMap,0,blankInfo 0⟩

def simulating : Env := plainEnv false true fun _ _ => 3

def opened (pid : Int32) (name : String) (fd : Int32) : Op :=
  .open ⟨stdName name,0,MODE_UNDEF,fd,blankInfo pid⟩

def closed (pid fd : Int32) : Op := .close ⟨fd,0,blankInfo pid⟩

def duplicated (pid oldFd newFd : Int32) : Op := .dup2 ⟨newFd,oldFd,0,newFd,blankInfo pid⟩

def stopsAt (env : Env) (op : Op) (f : Fault) (s : State) : Bool :=
  match replicateOp env op s with
  | .error g => g = f
  | .ok _ => false

theorem stopsAtError {env : Env} {op : Op} {f : Fault} {s : State}
    (stops : stopsAt env op f s = true) : replicateOp env op s = .error f := by
  unfold stopsAt at stops
  split at stops
  · rename_i ran
    rw [ran,of_decide_eq_true stops]
  · exact absurd stops (by simp)

def failsWith (env : Env) (ops : List Op) (f : Fault) : Bool :=
  match replicate env ops State.start with
  | .error g => g = f
  | .ok _ => false

theorem failsWithError {env : Env} {ops : List Op} {f : Fault}
    (fails : failsWith env ops f = true) : replicate env ops State.start = .error f := by
  unfold failsWith at fails
  split at fails
  · rename_i ran
    rw [ran,of_decide_eq_true fails]
  · exact absurd fails (by simp)

theorem stopsAfter {env : Env} {meets : State → Op → Prop} [∀ s op, Decidable (meets s op)]
    {pid : Int32} {ops : List Op} {op : Op} {f : Fault}
    (stops : ((initialised env pid).bind (runOps env meets ops)).any (stopsAt env op f) = true) :
    ∃ s, Reached env meets pid s ∧ replicateOp env op s = .error f := by
  obtain ⟨s,ran,last⟩ := (Option.any_eq_true _ _).mp stops
  exact ⟨s,.run ran,stopsAtError last⟩

end Examples
end IoApps
