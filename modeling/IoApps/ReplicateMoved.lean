import IoApps.Lib.Commute
import IoApps.ReplicateIsolation

/-! Where a fork is reported. A clone record may come after records of the child it made; it
may be moved past those that leave the child's table alone. Any other gives the child the
table of the initial process, and the clone comes too late. -/
namespace IoApps
open Lib (Arena Prog View)
open Lib.Prog (Local Blind)

section Independent

def fileOf (s : State) (pid fd : Int32) : Option (CName × FileType) := do
  let t ← tableOf s pid
  let h ← s.tables[t]?
  let item ← (h.find htOpsFdItem fd).join
  let m ← s.fdMaps.read item.fdMap
  some (m.name,m.type)

def SameFiles (s s' : State) : Prop := ∀ pid fd, fileOf s pid fd = fileOf s' pid fd

def Shares (s : State) (a b : Int32) : Prop := ∃ t, tableOf s a = some t ∧ tableOf s b = some t

/-- Two runs agree on the files of every process, and the two processes share no table. -/
structure Independent (s s' : State) (a b : Int32) : Prop where
  same : SameFiles s s'
  first : ¬ Shares s a b
  second : ¬ Shares s' a b

def finalState (env : Env) (ops : List Op) : Option State :=
  match replicate env ops State.start with
  | .ok (rv,s) => if rv = 0 then some s else none
  | .error _ => none

variable {env : Env}

theorem finalCons (op : Op) (rest : List Op) : finalState env (op :: rest) =
    (initialised env op.info.pid).bind (after env (op :: rest)) := by
  simp only [finalState,replicate,Prog.bindRun,initialised]
  cases replicateInit env op.info.pid State.start with
  | error f => rfl
  | ok r =>
    obtain ⟨rv,s⟩ := r
    by_cases zero : rv = 0
    · simp only [zero,if_true,ne_eq,not_true,if_false,Option.bind_some,after,Prog.bindRun]
      cases replicateOps env (op :: rest) s with
      | error f => rfl
      | ok r => rfl
    · simp [zero]

def stateAt (env : Env) (first : List Op) (op : Op) : Option State :=
  (initialised env (first.headD op).info.pid).bind (after env first)

theorem finalAt (first : List Op) (op : Op) (rest : List Op) :
    finalState env (first ++ op :: rest) =
      (stateAt env first op).bind (after env (op :: rest)) := by
  cases first with
  | nil =>
    rw [List.nil_append,finalCons,stateAt,Option.bind_assoc]
    rfl
  | cons f first =>
    rw [List.cons_append,finalCons,stateAt,Option.bind_assoc,← List.cons_append]
    exact congrArg _ (funext fun s => afterAppend (f :: first) (op :: rest) s)

theorem stateAtOther {first : List Op} (begun : first ≠ []) (a b : Op) :
    stateAt env first a = stateAt env first b := by
  cases first with
  | nil => exact absurd rfl begun
  | cons f first => rfl

end Independent
section Commuting

def logAndSim : View State (List (Call × Int64) × Sim) where
  get s := (s.log,s.sim)
  set s v := { s with log := v.1, sim := v.2 }
  getSet _ _ := rfl
  setGet _ := rfl
  setSet _ _ _ := rfl

variable {env : Env}

theorem callLocal (c : Call) : Local logAndSim (call env c) :=
  ⟨fun v => .ok (env.kernel v.1 c,(c,env.kernel v.1 c) :: v.1,v.2),fun _ => rfl⟩

theorem onSimLocal {α : Type} (m : SimProg α) : Local logAndSim (onSim m) := by
  refine ⟨fun v => ((m v.2).map fun r => (r.1,v.1,r.2)).mapError .sim,fun s => ?_⟩
  unfold onSim
  simp only [logAndSim]
  cases m s.sim <;> rfl

theorem pathLocal (name : CName) (replay : CName → Call) (simulate : CName → SimProg Unit) :
    Local logAndSim (replicatePath env name replay simulate) := by
  unfold replicatePath
  cases namemapGetName env.namemap name with
  | none => exact .pure ()
  | some name =>
    dsimp only
    split
    · exact (callLocal _).bind fun _ => .pure ()
    · split
      · exact onSimLocal _
      · exact .pure ()

theorem failedOpenLocal (op : OpenOp) : Local logAndSim (replicateFailedOpen env op) := by
  unfold replicateFailedOpen
  cases namemapGetName env.namemap op.name with
  | none => exact .pure ()
  | some name =>
    dsimp only
    split
    · refine (callLocal _).bind fun answer => ?_
      split
      · exact (callLocal _).bind fun _ => .pure ()
      · exact .pure ()
    · split
      · exact onSimLocal _
      · exact .pure ()

theorem keyBlind {α : Type} (o : Option α) : Blind logAndSim (key o) := .ofOption _ o

theorem ofFdBlind {α : Type} (r : Except FdFault α) : Blind logAndSim (ofFd r) := by
  cases r with
  | error f => exact .throw _
  | ok a => exact .pure a

theorem getProcessHtBlind (pid : Int32) : Blind logAndSim (getProcessHt pid) :=
  .reads (fun _ _ => rfl) fun _ => (keyBlind _).bind fun _ => .pure _

theorem linkProcessBlind (pid : Int32) (ht : Option Nat) :
    Blind logAndSim (linkProcess pid ht) :=
  .reads (fun _ _ => rfl) fun _ => (keyBlind _).bind fun _ => .modify fun _ _ => rfl

theorem readTableBlind (t : Nat) : Blind logAndSim (readTable t) :=
  .reads (fun _ _ => rfl) fun _ => .ofOption _ _

theorem readMapBlind (a : Nat) : Blind logAndSim (readMap a) :=
  .reads (fun _ _ => rfl) fun _ => .ofOption _ _

theorem putItemBlind (t : Nat) (k oldFd counted : Int32) (m : FdMap) :
    Blind logAndSim (putItem t k oldFd counted m) := by
  have alloc : Blind logAndSim (allocMap m) :=
    .reads (fun _ _ => rfl) fun _ => (Blind.modify fun _ _ => rfl).bind fun _ => .pure _
  have insert (a : Nat) : Blind logAndSim (insertItem t k oldFd a) :=
    (readTableBlind t).bind fun _ => .reads (fun _ _ => rfl) fun _ =>
      (keyBlind _).bind fun _ => .modify fun _ _ => rfl
  have count : Blind logAndSim (increaseUsage counted) :=
    .reads (fun _ _ => rfl) fun _ => (ofFdBlind _).bind fun _ => .modify fun _ _ => rfl
  exact alloc.bind fun a => (insert a).bind fun _ => count

theorem copyItemsBlind (t : Nat) (items : List FdItem) : Blind logAndSim (copyItems t items) := by
  induction items with
  | nil => exact .pure ()
  | cons item rest ih =>
    exact (readMapBlind _).bind fun _ => (putItemBlind _ _ _ _ _).bind fun _ => ih

theorem duplicateBlind (ht : Option Nat) : Blind logAndSim (duplicateProcessHt ht) := by
  cases ht with
  | none => exact .throw _
  | some h =>
    have table : Blind logAndSim newTable :=
      .reads (fun _ _ => rfl) fun _ => (Blind.modify fun _ _ => rfl).bind fun _ => .pure _
    exact (readTableBlind h).bind fun old => table.bind fun t =>
      (copyItemsBlind t old.items).bind fun _ => .pure t

theorem cloneBlind (op : CloneOp) : Blind logAndSim (replicateClone op) := by
  refine (getProcessHtBlind _).bind fun known => ?_
  split
  · exact .pure ()
  · split
    · exact (getProcessHtBlind _).bind fun _ => linkProcessBlind _ _
    · exact (getProcessHtBlind _).bind fun _ => (duplicateBlind _).bind fun _ =>
        linkProcessBlind _ _

/-- The operation does not look for the table of its process: it works on a path, it failed
before a descriptor was made, or it is a clone of a process that has a table. -/
def Untabled (s : State) : Op → Prop
  | .unlink _ | .mkdir _ | .rmdir _ | .access _ | .stat _ => True
  | .open o => o.retval = -1
  | .dup o | .dup2 o | .dup3 o => o.retval = -1
  | .pipe o => o.retval = -1
  | .socket o => o.retval = -1
  | .clone o => ∃ t, tableOf s o.retval = some t
  | .write _ | .read _ | .pwrite _ | .pread _ | .close _ | .lseek _ | .llseek _
  | .sendfile _ => False

theorem knownClone {o : CloneOp} {s : State} {t : Nat} (table : tableOf s o.retval = some t) :
    replicateClone o s = .ok ((),s) := by
  unfold replicateClone
  rw [Prog.bindOf (getProcessHtTable table)]
  rfl

theorem untabledLocal (env : Env) {s : State} {op : Op} (untabled : Untabled s op) :
    Local logAndSim (replicateOp env op) ∨ ∃ o t, op = .clone o ∧
      tableOf s o.retval = some t := by
  cases op with
  | unlink o | mkdir o | rmdir o | access o | stat o => exact .inl (pathLocal _ _ _)
  | «open» o =>
    left
    simp only [replicateOp,replicateOpen,show o.retval = -1 from untabled,if_true]
    exact failedOpenLocal o
  | dup o | dup2 o | dup3 o =>
    left
    simp only [replicateOp,replicateDup,show o.retval = -1 from untabled,if_true]
    exact .pure ()
  | pipe o =>
    left
    simp only [replicateOp,replicatePipe,show o.retval = -1 from untabled,if_true]
    exact .pure ()
  | socket o =>
    left
    simp only [replicateOp,replicateSocket,show o.retval = -1 from untabled,if_true]
    exact .pure ()
  | clone o =>
    obtain ⟨t,table⟩ := untabled
    exact .inr ⟨o,t,rfl,table⟩
  | write o | read o | pwrite o | pread o | close o | lseek o | llseek o | sendfile o =>
    exact absurd untabled id

structure SameProcesses (s s' : State) : Prop where
  links : s'.fdMappings = s.fdMappings
  parent : s'.globalParentPid = s.globalParentPid

theorem SameProcesses.table {s s' : State} (same : SameProcesses s s') (pid : Int32) :
    tableOf s' pid = tableOf s pid := by
  unfold tableOf
  rw [same.links]

theorem SameProcesses.untabled {s s' : State} (same : SameProcesses s s') {op : Op}
    : Untabled s' op ↔ Untabled s op := by
  unfold Untabled
  simp only [same.table]

theorem untabledSame {s s' : State} {op : Op} (untabled : Untabled s op)
    (ran : replicateOp env op s = .ok ((),s')) : SameProcesses s s' := by
  rcases untabledLocal env untabled with ⟨g,runs⟩ | ⟨o,t,rfl,table⟩
  · rw [runs s] at ran
    cases first : g (logAndSim.get s) with
    | error f =>
      rw [first] at ran
      exact absurd ran (by simp [Except.map])
    | ok r =>
      rw [first] at ran
      cases ran
      exact ⟨rfl,rfl⟩
  · have still : replicateClone o s = .ok ((),s') := ran
    rw [knownClone table] at still
    cases still
    exact ⟨rfl,rfl⟩

/-- The step lemma: a clone record moves past one untabled record. -/
theorem cloneSwaps {s : State} (c : CloneOp) {op : Op} (untabled : Untabled s op) :
    after env [.clone c,op] s = after env [op,.clone c] s := by
  have both (first second : Op) : after env [first,second] s =
      (((replicateOp env first >>= fun _ => replicateOp env second) s).toOption).map Prod.snd := by
    simp only [after,replicateOps,Prog.bindRun]
    cases replicateOp env first s with
    | error f => rfl
    | ok r =>
      dsimp only
      cases replicateOp env second r.2 <;> rfl
  rcases untabledLocal env untabled with here | ⟨o,t,rfl,table⟩
  · rw [both,both]
    exact congrArg (Option.map Prod.snd) (Prog.commutes (cloneBlind c) here s)
  · have still : after env [.clone o] s = some s := by
      simp [after,replicateOps,Prog.bindRun,replicateOp,knownClone table,Except.toOption]
    rw [afterCons,afterCons (.clone o),still,Option.bind_some]
    cases first : after env [.clone c] s with
    | none => rfl
    | some s' =>
      have later := opKeeps (afterOne first) table
      simp [after,replicateOps,Prog.bindRun,replicateOp,knownClone later,Except.toOption]

/-- The run lemma: it moves past any number of them. -/
theorem cloneMoves (c : CloneOp) {moved : List Op} (rest : List Op) {s : State}
    (untabled : ∀ b ∈ moved, Untabled s b) :
    after env (.clone c :: (moved ++ rest)) s = after env (moved ++ .clone c :: rest) s := by
  induction moved generalizing s with
  | nil => rfl
  | cons b moved ih =>
    have here := untabled b List.mem_cons_self
    have swapped : after env (.clone c :: b :: (moved ++ rest)) s =
        (after env [b,.clone c] s).bind (after env (moved ++ rest)) := by
      rw [← cloneSwaps c here,← afterAppend]
      rfl
    rw [List.cons_append,List.cons_append,swapped,afterCons b (moved ++ .clone c :: rest),
      afterCons b [.clone c],Option.bind_assoc]
    cases one : after env [b] s with
    | none => rfl
    | some s' =>
      have same := untabledSame here (afterOne one)
      have later : ∀ d ∈ moved, Untabled s' d := fun d member =>
        same.untabled.mpr (untabled d (List.mem_cons_of_mem _ member))
      rw [Option.bind_some,Option.bind_some,← afterCons]
      exact ih later

end Commuting
section Forked
variable {env : Env}

theorem tabledSeeks {s : State} {op : Op} (tabled : ¬ Untabled s op)
    (noClone : ∀ o, op ≠ .clone o) : Seeks op := by
  cases op with
  | unlink o | mkdir o | rmdir o | access o | stat o => exact absurd trivial tabled
  | clone o => exact absurd rfl (noClone o)
  | «open» o => exact tabled
  | dup o | dup2 o | dup3 o => exact tabled
  | pipe o => exact tabled
  | socket o => exact tabled
  | write o | read o | pwrite o | pread o | close o | lseek o | llseek o | sendfile o =>
    exact trivial

theorem tabledShares {s s' : State} {op : Op} {t : Nat} (fixes : env.fixMissing = true)
    (tabled : ¬ Untabled s op) (noClone : ∀ o, op ≠ .clone o)
    (unknown : Unknown s op.info.pid) (initial : tableOf s s.globalParentPid = some t)
    (ran : replicateOp env op s = .ok ((),s')) : tableOf s' op.info.pid = some t := by
  refine seeksTable (tabledSeeks tabled noClone) ran ?_
  unfold tableOf at initial
  unfold recordTable
  rw [unknown]
  simpa [fixes] using initial

theorem movedShares {moved : List Op} {rest : List Op} {q : Int32} {t : Nat}
    (fixes : env.fixMissing = true) {s s' : State}
    (mine : ∀ b ∈ moved, b.info.pid = q)
    (clones : ∀ o, .clone o ∈ moved → Untabled s (.clone o))
    (tabled : ¬ ∀ b ∈ moved, Untabled s b) (unknown : Unknown s q)
    (initial : tableOf s s.globalParentPid = some t)
    (ran : after env (moved ++ rest) s = some s') : tableOf s' q = some t := by
  induction moved generalizing s with
  | nil => exact absurd (fun b member => absurd member List.not_mem_nil) tabled
  | cons b moved ih =>
    rw [List.cons_append,afterCons] at ran
    obtain ⟨mid,one,last⟩ := Option.bind_eq_some_iff.mp ran
    have first := mine b List.mem_cons_self
    by_cases here : Untabled s b
    · have same := untabledSame here (afterOne one)
      refine ih (fun d member => mine d (List.mem_cons_of_mem _ member)) ?_ ?_ ?_ ?_ last
      · intro o member
        exact same.untabled.mpr (clones o (List.mem_cons_of_mem _ member))
      · intro others
        refine tabled fun d member => ?_
        rcases List.mem_cons.mp member with rfl | later
        · exact here
        · exact same.untabled.mp (others d later)
      · unfold Unknown
        rw [same.links]
        exact unknown
      · rw [same.table,same.parent]
        exact initial
    · have noClone : ∀ o, b ≠ .clone o := by
        rintro o rfl
        exact here (clones o List.mem_cons_self)
      subst first
      exact afterKeeps last (tabledShares fixes here noClone unknown initial (afterOne one))

/-- Both traces are replicated to their ends or neither is, and the ends are independent of where
the fork was reported. -/
structure SameEnds (r r' : Option State) (a b : Int32) : Prop where
  ends : r.isSome ↔ r'.isSome
  alike : ∀ s s', r = some s → r' = some s' → Independent s s' a b

/-- The clone record may be moved past the records: it is not the first of the trace; a child that
is known already has not the table of the parent, and for one that is not known no record looks
for a table. -/
structure Movable (s : State) (c : CloneOp) (first moved : List Op) : Prop where
  begun : moved ≠ [] → first ≠ []
  other : ∀ t, tableOf s c.retval = some t → tableOf s c.info.pid ≠ some t
  idle : tableOf s c.retval = none → ∀ b ∈ moved, Untabled s b

theorem knownMoves {c : CloneOp} (moved rest : List Op) {s : State} {t : Nat}
    (table : tableOf s c.retval = some t) :
    after env (.clone c :: (moved ++ rest)) s = after env (moved ++ .clone c :: rest) s := by
  have still {s : State} (table : tableOf s c.retval = some t) (ops : List Op) :
      after env (.clone c :: ops) s = after env ops s := by
    have one : after env [.clone c] s = some s := by
      simp [after,replicateOps,Prog.bindRun,replicateOp,knownClone table,Except.toOption]
    rw [afterCons,one,Option.bind_some]
  rw [still table,afterAppend,afterAppend]
  cases ran : after env moved s with
  | none => rfl
  | some s' => exact (still (afterKeeps ran table) rest).symm

theorem Movable.moves {s : State} {c : CloneOp} {first moved : List Op}
    (movable : Movable s c first moved) (rest : List Op) :
    after env (.clone c :: (moved ++ rest)) s = after env (moved ++ .clone c :: rest) s := by
  cases table : tableOf s c.retval with
  | none => exact cloneMoves c rest (movable.idle table)
  | some t => exact knownMoves moved rest table

theorem Movable.apart {s s' : State} {c : CloneOp} {first moved ops : List Op} {t : Nat}
    (movable : Movable s c first moved) (known : tableOf s c.info.pid = some t)
    (copies : c.mode &&& CLONE_FILES = 0) (ran : after env (.clone c :: ops) s = some s') :
    ¬ Shares s' c.info.pid c.retval := by
  have whole := ran
  rw [afterCons] at ran
  obtain ⟨mid,cloned,last⟩ := Option.bind_eq_some_iff.mp ran
  have barred : Barred mid c.retval t := by
    cases table : tableOf s c.retval with
    | none => exact clonedBarred known table copies (afterOne cloned)
    | some u =>
      refine barredOp (barredTable table fun same => ?_) (afterOne cloned)
      exact movable.other u table (same ▸ known)
  have kept := afterKept (fun s => Barred s c.retval t) (fun _ _ => barredEdit) last barred
  intro shares
  obtain ⟨u,parent,child⟩ := shares
  cases Option.some.inj (parent.symm.trans (afterKeeps whole known))
  exact kept.other child rfl

theorem Movable.same {s : State} {c : CloneOp} {first moved : List Op}
    (movable : Movable s c first moved) (begun : stateAt env first (.clone c) = some s)
    (rest : List Op) :
    finalState env (first ++ (moved ++ .clone c :: rest)) =
      finalState env (first ++ .clone c :: (moved ++ rest)) := by
  cases moved with
  | nil => rfl
  | cons b moved =>
    have moves : after env (.clone c :: (b :: moved ++ rest)) s =
        after env (b :: moved ++ .clone c :: rest) s := movable.moves rest
    rw [List.cons_append] at moves ⊢
    rw [finalAt,finalAt,stateAtOther (movable.begun (by simp)) b (.clone c),begun]
    exact moves.symm

/-- A clone record that copies may be moved past records of the child that do not look for a
table. Where the parent has the table of the initial process, it may be moved past no others. -/
theorem forkMoves {first moved rest : List Op} {c : CloneOp} {s : State} {t : Nat}
    (fixes : env.fixMissing = true) (begun : stateAt env first (.clone c) = some s)
    (known : tableOf s c.info.pid = some t) (copies : c.mode &&& CLONE_FILES = 0)
    (mine : ∀ b ∈ moved, b.info.pid = c.retval) :
    (Movable s c first moved →
      SameEnds (finalState env (first ++ .clone c :: (moved ++ rest)))
        (finalState env (first ++ (moved ++ .clone c :: rest))) c.info.pid c.retval) ∧
    (first ≠ [] → tableOf s s.globalParentPid = some t →
      (tableOf s c.retval = none → Unknown s c.retval) →
      (∀ o, .clone o ∈ moved → Untabled s (.clone o)) → ∀ e e',
      finalState env (first ++ .clone c :: (moved ++ rest)) = some e →
      finalState env (first ++ (moved ++ .clone c :: rest)) = some e' →
      Independent e e' c.info.pid c.retval → Movable s c first moved) := by
  constructor
  · intro movable
    rw [movable.same begun rest]
    refine ⟨Iff.rfl,fun e e' ends ends' => ?_⟩
    cases Option.some.inj (ends.symm.trans ends')
    rw [finalAt,begun] at ends
    have apart := movable.apart known copies ends
    exact ⟨fun _ _ => rfl,apart,apart⟩
  · intro later initial listed clones e e' ends ends' independent
    rw [finalAt,begun] at ends
    refine ⟨fun _ => later,fun u child parent => ?_,fun child => ?_⟩
    · exact independent.first ⟨u,afterKeeps ends parent,afterKeeps ends child⟩
    · by_contra tabled
      cases moved with
      | nil => exact tabled fun b member => absurd member List.not_mem_nil
      | cons b moved =>
        rw [List.cons_append,finalAt,stateAtOther later b (.clone c),begun] at ends'
        have shared := movedShares fixes mine clones tabled (listed child) initial ends'
        exact independent.second ⟨t,afterKeeps ends' known,shared⟩

def forked : CloneOp := ⟨0,8,blankInfo 7⟩

def forkedFirst : List Op := [opened 7 "/f" 3,duplicated 7 3 4]

def forkedMoved : List Op := [.access ⟨stdName "/g",0,-1,blankInfo 8⟩,opened 8 "/h" (-1)]

theorem forkMovesPaths : ∃ e, finalState simulating
      (forkedFirst ++ (forkedMoved ++ .clone forked :: [closed 8 3])) = some e ∧
    (fileOf e 7 3).isSome ∧ fileOf e 8 3 = none ∧ (fileOf e 8 4).isSome ∧
    SameEnds (finalState simulating (forkedFirst ++ .clone forked :: (forkedMoved ++ [closed 8 3])))
      (finalState simulating
        (forkedFirst ++ (forkedMoved ++ .clone forked :: [closed 8 3]))) 7 8 := by
  let first (s : State) : Bool := tableOf s 7 = some 0 && tableOf s 8 = none
  let last (e : State) : Bool :=
    (fileOf e 7 3).isSome && fileOf e 8 3 = none && (fileOf e 8 4).isSome
  obtain ⟨s,begun,holds⟩ := (Option.any_eq_true _ _).mp
    (show (stateAt simulating forkedFirst (.clone forked)).any first = true by decide +kernel)
  obtain ⟨e,ends,files⟩ := (Option.any_eq_true _ _).mp
    (show (finalState simulating
      (forkedFirst ++ (forkedMoved ++ .clone forked :: [closed 8 3]))).any last = true
      by decide +kernel)
  simp only [first,Bool.and_eq_true,decide_eq_true_eq] at holds
  simp only [last,Bool.and_eq_true,decide_eq_true_eq] at files
  have movable : Movable s forked forkedFirst forkedMoved := by
    refine ⟨fun _ => by simp [forkedFirst],fun t child => ?_,fun _ b member => ?_⟩
    · rw [show tableOf s forked.retval = none from holds.2] at child
      exact absurd child (by simp)
    · rcases List.mem_cons.mp member with rfl | member
      · exact trivial
      · cases List.mem_singleton.mp member
        exact rfl
  exact ⟨e,ends,files.1.1,files.1.2,files.2,(forkMoves rfl begun holds.1 rfl
    (by simp [forkedMoved,opened,Op.info,blankInfo,forked])).1 movable⟩

/-- The child closes a descriptor before the clone is reported, and the parent loses the file. -/
theorem forkCloses : ¬ ∀ (env : Env) (first moved rest : List Op) (c : CloneOp) (s : State)
    (t : Nat), env.fixMissing = true → stateAt env first (.clone c) = some s →
    tableOf s c.info.pid = some t → (∀ b ∈ first, b.info.pid ≠ c.retval) →
    c.mode &&& CLONE_FILES = 0 → (∀ b ∈ moved, b.info.pid = c.retval) →
    SameEnds (finalState env (first ++ .clone c :: (moved ++ rest)))
      (finalState env (first ++ (moved ++ .clone c :: rest))) c.info.pid c.retval := by
  intro all
  let first (s : State) : Bool := tableOf s 7 = some 0
  let shared (e : State) : Bool := tableOf e 7 = some 0 && tableOf e 8 = some 0
  obtain ⟨s,begun,holds⟩ := (Option.any_eq_true _ _).mp
    (show (stateAt simulating forkedFirst (.clone forked)).any first = true by decide +kernel)
  obtain ⟨e,plain⟩ := Option.isSome_iff_exists.mp
    (show (finalState simulating
      (forkedFirst ++ .clone forked :: ([closed 8 3] ++ []))).isSome = true by decide +kernel)
  obtain ⟨e',late,tables⟩ := (Option.any_eq_true _ _).mp
    (show (finalState simulating (forkedFirst ++ ([closed 8 3] ++ .clone forked :: []))).any
      shared = true by decide +kernel)
  simp only [first,decide_eq_true_eq] at holds
  simp only [shared,Bool.and_eq_true,decide_eq_true_eq] at tables
  have same := all simulating forkedFirst [closed 8 3] [] forked s 0 rfl begun holds
    (by simp [forkedFirst,opened,duplicated,Op.info,blankInfo,forked]) rfl
    (by simp [closed,Op.info,blankInfo,forked])
  exact (same.alike e e' plain late).second ⟨0,tables⟩

end Forked
end IoApps
