import IoApps.ReplicateFork

/-! Which processes have a table. The missing call gives an unseen process the table of the
initial one; a clone record looks its parent up without it. -/
namespace IoApps
open Lib (Prog)
open Lib.Prog (Steps)

/-- The initial process has a table, and no entry of the process list is empty. -/
structure Served (s : State) : Prop where
  initial : (tableOf s s.globalParentPid).isSome
  tables : ∀ p ∈ s.fdMappings.items, ∃ t, p.ht = some t ∧ t < s.tables.length

theorem Served.inside {s : State} (served : Served s) {pid : Int32} {t : Nat}
    (table : tableOf s pid = some t) : t < s.tables.length := by
  obtain ⟨item,first,same⟩ := Option.bind_eq_some_iff.mp table
  obtain ⟨u,mine,inside⟩ := served.tables item
    (HashTable.findMem (Option.join_eq_some_iff.mp first)).1
  cases Option.some.inj (same.symm.trans mine)
  exact inside

theorem Served.of {s s' : State} (served : Served s) (links : s'.fdMappings = s.fdMappings)
    (parent : s'.globalParentPid = s.globalParentPid)
    (sizes : s.tables.length ≤ s'.tables.length) : Served s' where
  initial := by
    unfold tableOf
    rw [links,parent]
    exact served.initial
  tables := by
    intro p member
    obtain ⟨t,mine,inside⟩ := served.tables p (links ▸ member)
    exact ⟨t,mine,Nat.lt_of_lt_of_le inside sizes⟩

theorem Served.put {s s' : State} {t : Nat} {k fd counted : Int32} {m : FdMap}
    (served : Served s) (put : Put s t k fd counted m s') : Served s' := by
  cases put
  exact served.of rfl rfl (by simp)

theorem Origin.parent {env : Env} {ok : Allowed} {s s₁ : State} {counted : Int32} {m : FdMap}
    (origin : Origin env ok s counted m s₁) : s₁.globalParentPid = s.globalParentPid := by
  cases origin with
  | replayed => rfl
  | placeholder => rfl
  | socket => rfl
  | pipe => rfl

theorem servedEdit {env : Env} {ok : Allowed} (orphans : ¬ ok.orphans) {s s' : State}
    (edit : Edit env ok s s') (served : Served s) : Served s' := by
  cases edit with
  | logged | openFailed | probed | simmed | openNumber | seeked | closeFailed =>
    exact served.of rfl rfl (Nat.le_refl _)
  | placed origin parents put =>
    exact Served.put (served.of origin.links origin.parent
      (Nat.le_of_eq (congrArg List.length origin.same.1.symm))) put
  | tableAdded => exact served.of rfl rfl (by simp)
  | copied copies there live put => exact served.put put
  | linked inserted source =>
    obtain ⟨t,mine,from_⟩ := source.resolve_left orphans
    have inside : t < s.tables.length := by
      cases from_ with
      | inl linked =>
        obtain ⟨p,linked⟩ := linked
        exact served.inside linked
      | inr inside => exact inside
    constructor
    · obtain ⟨u,initial⟩ := Option.isSome_iff_exists.mp served.initial
      exact Option.isSome_iff_exists.mpr ⟨u,insertKeeps initial inserted⟩
    · intro p member
      cases List.mem_cons.mp ((HashTable.insertItems inserted).mem_iff.mp member) with
      | inl new => exact ⟨t,new ▸ mine,inside⟩
      | inr old => exact served.tables p old
  | closed table found live release =>
    cases release with
    | untracked | kept | simulated | closed => exact served.of rfl rfl (by simp)
  | aliased => exact served.of rfl rfl (by simp)

theorem Began.served {env : Env} {pid : Int32} {s : State} (began : Began env pid s) :
    Served s := by
  obtain ⟨mappings,a,b,c,d,_,_,_,inserted,rfl,put₀,put₁,put₂,_,_,_,_,_,_,rfl⟩ := began.puts
  have unknown : Unknown { State.start with fdMappings := .init HASH_TABLE_SIZE } pid := by
    obtain ⟨c,hashed,_⟩ := Option.map_eq_some_iff.mp inserted
    unfold Unknown
    rw [HashTable.find,show (HashTable.init HASH_TABLE_SIZE).chain htOpsFdMapping pid = some c
      from hashed]
    rfl
  have first : Served (firstTable pid mappings) := by
    constructor
    · have table := linkTable unknown inserted
      unfold tableOf at table
      unfold tableOf firstTable
      rw [table]
      rfl
    · intro p member
      have perm := HashTable.insertItems inserted
      rw [HashTable.itemsInit] at perm
      cases List.mem_singleton.mp (perm.mem_iff.mp member)
      exact ⟨0,rfl,Nat.zero_lt_one⟩
  have full := ((first.put put₀).put put₁).put put₂
  exact full.of rfl rfl (Nat.le_refl _)

def parented (s : State) : Op → Prop
  | .clone o => (tableOf s o.retval).isSome ∨ (tableOf s o.info.pid).isSome
  | _ => True

def Tabled (env : Env) (meets : State → Op → Prop) (s : State) : Prop := ∀ op, meets s op →
  replicateOp env op s ≠ .error .nullTable ∧
    ∀ s', replicateOp env op s = .ok ((),s') → Seeks op → (tableOf s' op.info.pid).isSome

instance {s : State} {op : Op} : Decidable (parented s op) :=
  match op with
  | .clone _ => inferInstanceAs (Decidable (_ ∨ _))
  | .write _ | .read _ | .pwrite _ | .pread _ | .open _ | .close _ | .unlink _ | .lseek _
  | .llseek _ | .mkdir _ | .rmdir _ | .dup _ | .dup2 _ | .dup3 _ | .pipe _ | .access _
  | .stat _ | .socket _ | .sendfile _ => .isTrue trivial

section Runs
variable {env : Env} {pid : Int32} {s : State}

def serving : Allowed := { Allowed.any with orphans := False }

theorem servedPermits {op : Op} (served : Served s) (met : parented s op) :
    Permits env serving s op where
  pipes := fun _ _ _ => ⟨trivial,trivial⟩
  clones := by
    intro _ clone
    rw [clone] at met
    exact ⟨trivial,trivial,fun _ => .inl trivial,.inr met⟩
  dups := fun never => absurd trivial never
  fresh := fun never => absurd trivial never
  stamped := fun never => absurd trivial never
  asks := fun _ => ⟨trivial,trivial,.inr (.inr served.initial)⟩
  asked := fun _ _ _ _ _ => trivial
  pipeNumbers := fun _ _ _ _ _ => ⟨trivial,fun _ _ => trivial⟩
  socketNumbers := fun _ _ _ _ _ => trivial

theorem reachedServed (reached : Reached env parented pid s) : Served s :=
  reached.keeps serving Served (fun _ began => began.served) (fun _ _ => servedPermits)
    fun _ _ => servedEdit not_false

theorem servedRecord (fixes : env.fixMissing = true) (served : Served s) {process : Int32}
    {item : Option ProcessItem} (first : s.fdMappings.find htOpsFdMapping process = some item) :
    ∃ t, recordTable env s process = some t := by
  unfold recordTable
  rw [first]
  cases item with
  | none =>
    obtain ⟨t,initial⟩ := Option.isSome_iff_exists.mp served.initial
    unfold tableOf at initial
    exact ⟨t,by simpa [fixes] using initial⟩
  | some p =>
    obtain ⟨t,mine,_⟩ := served.tables p (HashTable.findMem first).1
    exact ⟨t,mine⟩

/-- In a run with missing-call fixing on in which the child or the parent of every clone has a
table, no absent table is used and every process gets one. -/
theorem processesTabled (fixes : env.fixMissing = true) (reached : Reached env parented pid s) :
    Tabled env parented s := by
  have served := reachedServed reached
  intro op met
  constructor
  · refine (opRuns (servedPermits served met)).never Served (fun _ _ => servedEdit not_false)
      ?_ served
    intro t still stop
    cases stop with
    | noTable linked gone =>
      have inside := still.inside linked
      exact absurd (List.getElem?_eq_none_iff.mp gone) (by omega)
    | orphan allowed => exact allowed
  · intro s' ran seeks
    obtain ⟨f,begins⟩ := seeksBegins env seeks
    have whole := ran
    rw [begins] at whole
    obtain ⟨r,mid,first,_⟩ := Prog.bindOk.mp whole
    obtain ⟨known,_,looked,_⟩ := Prog.bindOk.mp first
    rw [getProcessHtRun] at looked
    cases entry : s.fdMappings.find htOpsFdMapping op.info.pid with
    | none =>
      rw [entry] at looked
      exact absurd looked (by simp)
    | some item =>
      obtain ⟨t,record⟩ := servedRecord fixes served entry
      rw [seeksTable seeks ran record]
      rfl

theorem processesTabledUnseen : ∃ s, Reached simulating parented 7 s ∧
    Tabled simulating parented s := by
  obtain ⟨s,ran⟩ := Option.isSome_iff_exists.mp (show ((initialised simulating 7).bind
    (runOps simulating parented [opened 7 "/f" 3,closed 9 3,.clone ⟨CLONE_FILES,10,blankInfo 9⟩,
      .clone ⟨0,11,blankInfo 10⟩,duplicated 11 3 4])).isSome = true by decide +kernel)
  exact ⟨s,.run ran,processesTabled (by decide) (.run ran)⟩

def nonNegative (_ : State) : Op → Prop
  | .clone o => 0 ≤ o.info.pid ∧ 0 ≤ o.retval
  | op => 0 ≤ op.info.pid

instance {s : State} {op : Op} : Decidable (nonNegative s op) :=
  match op with
  | .clone o => inferInstanceAs (Decidable (0 ≤ o.info.pid ∧ 0 ≤ o.retval))
  | .write o | .read o | .pwrite o | .pread o | .open o | .close o | .unlink o | .lseek o
  | .llseek o | .mkdir o | .rmdir o | .dup o | .dup2 o | .dup3 o | .pipe o | .access o
  | .stat o | .socket o | .sendfile o => inferInstanceAs (Decidable (0 ≤ o.info.pid))

theorem unseenParentCopied : ¬ ∀ env pid s, env.fixMissing = true →
    Reached env nonNegative pid s → Tabled env nonNegative s := by
  intro all
  obtain ⟨s,reached,stops⟩ := stopsAfter (show ((initialised simulating 7).bind
    (runOps simulating nonNegative [opened 7 "/f" 3])).any
      (stopsAt simulating (.clone ⟨0,9,blankInfo 8⟩) .nullTable) = true by decide +kernel)
  have met : nonNegative s (.clone ⟨0,9,blankInfo 8⟩) := ⟨by decide,by decide⟩
  exact (all simulating 7 s (by decide) reached _ met).1 stops

end Runs
end IoApps
