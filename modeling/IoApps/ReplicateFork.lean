import IoApps.ReplicateReach

/-! Runs over a list of records, and the table a clone record gives. -/
namespace IoApps
open Lib (Prog)

section Records

def after (env : Env) (ops : List Op) (s : State) : Option State :=
  (replicateOps env ops s).toOption.map Prod.snd

variable {env : Env}

@[simp] theorem afterNil (s : State) : after env [] s = some s := rfl

theorem afterCons (op : Op) (rest : List Op) (s : State) :
    after env (op :: rest) s = (after env [op] s).bind (after env rest) := by
  simp only [after,replicateOps,Prog.bindRun]
  cases replicateOp env op s with
  | error f => rfl
  | ok r => rfl

theorem afterAppend (first rest : List Op) (s : State) :
    after env (first ++ rest) s = (after env first s).bind (after env rest) := by
  induction first generalizing s with
  | nil => rfl
  | cons op ops ih =>
    rw [List.cons_append,afterCons,afterCons op ops,Option.bind_assoc]
    exact congrArg _ (funext ih)

theorem afterOne {op : Op} {s t : State} (ran : after env [op] s = some t) :
    replicateOp env op s = .ok ((),t) := by
  simp only [after,replicateOps,Prog.bindRun] at ran
  cases one : replicateOp env op s with
  | error f =>
    rw [one] at ran
    exact absurd ran (by simp [Except.toOption])
  | ok r =>
    rw [one] at ran
    cases ran
    rfl

end Records
section Processes
variable {env : Env}

theorem afterKept (inv : State → Prop) (kept : ∀ s s', Edit env .any s s' → inv s → inv s')
    {ops : List Op} {s s' : State} (ran : after env ops s = some s') (before : inv s) :
    inv s' := by
  induction ops generalizing s with
  | nil =>
    cases ran
    exact before
  | cons op rest ih =>
    rw [afterCons] at ran
    obtain ⟨mid,one,last⟩ := Option.bind_eq_some_iff.mp ran
    exact ih last ((opRuns (anyPermits env s op)).kept inv kept before (afterOne one))

theorem opKeeps {op : Op} {s s' : State} {pid : Int32} {t : Nat}
    (ran : replicateOp env op s = .ok ((),s')) (table : tableOf s pid = some t) :
    tableOf s' pid = some t :=
  (opRuns (anyPermits env s op)).kept (fun s => tableOf s pid = some t) (fun _ _ => tableEdit)
    table ran

theorem afterKeeps {ops : List Op} {s s' : State} {pid : Int32} {t : Nat}
    (ran : after env ops s = some s') (table : tableOf s pid = some t) :
    tableOf s' pid = some t :=
  afterKept (fun s => tableOf s pid = some t) (fun _ _ => tableEdit) ran table

theorem processHtKnown {s : State} {pid : Int32} {t : Nat} (table : tableOf s pid = some t) :
    processHt env pid s = .ok (some t,s) := by
  unfold processHt
  rw [Prog.bindOf (getProcessHtTable table)]
  rfl

theorem seeksBegins (env : Env) {op : Op} (seeks : Seeks op) :
    ∃ f, replicateOp env op = processHt env op.info.pid >>= f := by
  cases op with
  | unlink o | mkdir o | rmdir o | access o | stat o | clone o => exact seeks.elim
  | «open» o => exact ⟨_,if_neg seeks⟩
  | dup o | dup2 o | dup3 o => exact ⟨_,if_neg seeks⟩
  | pipe o => exact ⟨_,if_neg seeks⟩
  | socket o => exact ⟨_,if_neg seeks⟩
  | write o | read o | pwrite o | pread o | close o | lseek o | llseek o | sendfile o =>
    exact ⟨_,rfl⟩

theorem seeksTable {s s' : State} {op : Op} (seeks : Seeks op)
    (ran : replicateOp env op s = .ok ((),s')) {t : Nat}
    (record : recordTable env s op.info.pid = some t) : tableOf s' op.info.pid = some t := by
  obtain ⟨f,begins⟩ := seeksBegins env seeks
  have whole := ran
  rw [begins] at whole
  obtain ⟨r,mid,first,rest⟩ := Prog.bindOk.mp whole
  have runs : Runs env .any (processHt env op.info.pid) s _ :=
    processHtRuns ⟨trivial,trivial,.inl trivial⟩
  obtain ⟨_,_,which,working⟩ := runs.okElim first
  rw [record] at which
  subst which
  have table := (working t rfl).table
  refine @opKeeps env op _ _ _ _ ?_ table
  rw [begins,Prog.bindOf (processHtKnown table)]
  exact rest

end Processes
section Forked
variable {env : Env}

theorem cloneTables (env : Env) {c : CloneOp} {s s' : State} {t : Nat}
    (known : tableOf s c.info.pid = some t) (unknown : Unknown s c.retval)
    (copies : c.mode &&& CLONE_FILES = 0)
    (ran : replicateClone c s = .ok ((),s')) :
    ∃ u, tableOf s' c.retval = some u ∧ t ≠ u := by
  have fresh : getProcessHt c.retval s = .ok (none,s) := by
    rw [getProcessHtRun,unknown]
    rfl
  unfold replicateClone at ran
  rw [Prog.bindOf fresh] at ran
  simp only [Option.isSome_none,Bool.false_eq_true,if_false,copies,ne_eq,not_true] at ran
  rw [Prog.bindOf (getProcessHtTable known)] at ran
  obtain ⟨u,mid,copied,ran⟩ := Prog.bindOk.mp ran
  have runs : Runs env .any (duplicateProcessHt (tableOf s c.info.pid)) s _ :=
    duplicateProcessHtRuns trivial (.inl trivial)
  rw [known] at runs
  obtain ⟨_,rfl,_,links⟩ := runs.okElim copied
  obtain ⟨mappings,inserted,rfl⟩ := linkFirst ran
  refine ⟨s.tables.length,linkTable ?_ inserted,?_⟩
  · unfold Unknown
    rw [links]
    exact unknown
  · obtain ⟨h,_,table,_⟩ := Prog.bindOk.mp copied
    rintro rfl
    simp [readTable,Prog.bindRun] at table

end Forked
end IoApps
