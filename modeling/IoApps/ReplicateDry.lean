import IoApps.Lib.Commute
import IoApps.ReplicateReach

/-! A run that is not replayed: the kernel is asked for the two devices and for nothing else, and
what it answers does not matter. -/
namespace IoApps
open Lib (View Arena Prog)
open Lib.Prog (Blind Matches)

section Silent
variable {env : Env} {ok : Allowed} {s s' : State}

theorem silentEdit (dry : env.actReplicate = false) (edit : Edit env ok s s') :
    s'.log = s.log := by
  have never {p : Prop} (acts : env.actReplicate = true) : p := by
    rw [dry] at acts
    exact absurd acts (by simp)
  cases edit with
  | logged c quiet traced acts => exact never acts
  | openFailed failed mapped acts => exact never acts
  | probed valid mapped acts => exact never acts
  | closeFailed there live supported used failed acts => exact never acts
  | simmed | openNumber | seeked | tableAdded | linked | aliased => rfl
  | placed origin parents put =>
    rw [putLog put]
    cases origin with
    | replayed acts => exact never acts
    | placeholder | socket | pipe => rfl
  | copied copies there live put => exact putLog put
  | closed table found live release =>
    cases release with
    | untracked | kept | simulated => rfl
    | closed supported used acts => exact never acts

/-- Simulating or checking makes no call besides the two that open the devices, however long the
trace is. -/
theorem drySilent (dry : env.actReplicate = false) {pid : Int32}
    (reached : Reached env anyOp pid s) : s.log = deviceLog env := by
  induction reached with
  | init ran => exact (initDevices ran).1
  | step before met ran ih =>
    rename_i s t op
    have same := (opRuns (anyPermits env s op)).kept (fun u => u.log = s.log)
      (fun _ _ edit still => (silentEdit dry edit).trans still) rfl ran
    exact same.trans ih

theorem drySilentFork : ∃ s, Reached simulating anyOp 7 s ∧ s.log = deviceLog simulating := by
  have checked : ((initialised simulating 7).bind (runOps simulating anyOp
      [opened 7 "/f" 3,.write ⟨3,5,5,blankInfo 7⟩,.unlink ⟨stdName "/f",0,blankInfo 7⟩,
        .clone ⟨0,8,blankInfo 7⟩,closed 8 3,closed 7 3])).isSome = true := by decide +kernel
  obtain ⟨s,ran⟩ := Option.isSome_iff_exists.mp checked
  have dry : simulating.actReplicate = false := by decide
  exact ⟨s,.run ran,drySilent dry (.run ran)⟩

end Silent
section Outside

def outside : View State (List (Call × Int64) × Int32 × Int32) where
  get s := (s.log,s.globalDevnullFd,s.globalDevzeroFd)
  set s v := { s with log := v.1, globalDevnullFd := v.2.1, globalDevzeroFd := v.2.2 }
  getSet _ _ := rfl
  setGet _ := rfl
  setSet _ _ _ := rfl

theorem keyOutside {α : Type} (o : Option α) : Blind outside (key o) := .ofOption _ o

theorem ofFdOutside {α : Type} (r : Except FdFault α) : Blind outside (ofFd r) := by
  cases r with
  | error f => exact .throw _
  | ok a => exact .pure a

theorem onSimOutside {α : Type} (m : SimProg α) : Blind outside (onSim m) := by
  intro s v
  unfold onSim
  simp only [outside]
  cases m s.sim <;> rfl

theorem readTableOutside (t : Nat) : Blind outside (readTable t) :=
  .reads (fun _ _ => rfl) fun _ => .ofOption _ _

theorem readMapOutside (a : Nat) : Blind outside (readMap a) :=
  .reads (fun _ _ => rfl) fun _ => .ofOption _ _

theorem writeMapOutside (a : Nat) (m : FdMap) : Blind outside (writeMap a m) :=
  .modify fun _ _ => rfl

theorem findItemOutside (t : Nat) (fd : Int32) : Blind outside (findItem t fd) :=
  (readTableOutside t).bind fun _ => keyOutside _

theorem getProcessHtOutside (pid : Int32) : Blind outside (getProcessHt pid) :=
  .reads (fun _ _ => rfl) fun _ => (keyOutside _).bind fun _ => .pure _

theorem linkProcessOutside (pid : Int32) (ht : Option Nat) : Blind outside (linkProcess pid ht) :=
  .reads (fun _ _ => rfl) fun _ => (keyOutside _).bind fun _ => .modify fun _ _ => rfl

theorem increaseUsageOutside (fd : Int32) : Blind outside (increaseUsage fd) :=
  .reads (fun _ _ => rfl) fun _ => (ofFdOutside _).bind fun _ => .modify fun _ _ => rfl

theorem insertItemOutside (t : Nat) (k oldFd : Int32) (a : Nat) :
    Blind outside (insertItem t k oldFd a) :=
  (readTableOutside t).bind fun _ => .reads (fun _ _ => rfl) fun _ =>
    (keyOutside _).bind fun _ => .modify fun _ _ => rfl

theorem putItemOutside (t : Nat) (k oldFd counted : Int32) (m : FdMap) :
    Blind outside (putItem t k oldFd counted m) := by
  have alloc : Blind outside (allocMap m) :=
    .reads (fun _ _ => rfl) fun _ => (Blind.modify fun _ _ => rfl).bind fun _ => .pure _
  exact alloc.bind fun a => (insertItemOutside t k oldFd a).bind fun _ =>
    increaseUsageOutside counted

theorem newItemOutside (t : Nat) (k oldFd counted : Int32) (m : FdMap) :
    Blind outside (newItem t k oldFd counted m) :=
  (ofFdOutside _).bind fun _ => putItemOutside _ _ _ _ _

theorem newTableOutside : Blind outside newTable :=
  .reads (fun _ _ => rfl) fun _ => (Blind.modify fun _ _ => rfl).bind fun _ => .pure _

theorem copyItemsOutside (t : Nat) (items : List FdItem) :
    Blind outside (copyItems t items) := by
  induction items with
  | nil => exact .pure ()
  | cons item rest ih =>
    exact (readMapOutside _).bind fun _ => (putItemOutside _ _ _ _ _).bind fun _ => ih

theorem duplicateOutside (ht : Option Nat) : Blind outside (duplicateProcessHt ht) := by
  cases ht with
  | none => exact .throw _
  | some h =>
    exact (readTableOutside h).bind fun old => newTableOutside.bind fun t =>
      (copyItemsOutside t old.items).bind fun _ => .pure t

theorem cloneOutside (op : CloneOp) : Blind outside (replicateClone op) := by
  refine (getProcessHtOutside _).bind fun known => ?_
  split
  · exact .pure ()
  · split
    · exact (getProcessHtOutside _).bind fun _ => linkProcessOutside _ _
    · exact (getProcessHtOutside _).bind fun _ => (duplicateOutside _).bind fun _ =>
        linkProcessOutside _ _

theorem pipeFdOutside : Blind outside getPipeFd :=
  .reads (fun _ _ => rfl) fun _ => (ofFdOutside _).bind fun _ =>
    (Blind.modify fun _ _ => rfl).bind fun _ => .pure _

theorem socketFdOutside : Blind outside getSocketFd :=
  .reads (fun _ _ => rfl) fun _ => (ofFdOutside _).bind fun _ =>
    (Blind.modify fun _ _ => rfl).bind fun _ => .pure _

theorem openFdOutside : Blind outside simulateGetOpenFd :=
  .reads (fun _ _ => rfl) fun _ => (ofFdOutside _).bind fun _ =>
    (Blind.modify fun _ _ => rfl).bind fun _ => .pure _

theorem removeItemOutside (t : Nat) (fd : Int32) (item : FdItem) (m : FdMap) :
    Blind outside (removeItem t fd item m) := by
  refine (ofFdOutside _).bind fun r => (writeMapOutside _ _).bind fun _ =>
    (readTableOutside t).bind fun _ => (keyOutside _).bind fun _ =>
      (Blind.modify fun _ _ => rfl).bind fun _ => ?_
  split
  · exact .modify fun _ _ => rfl
  · exact .pure ()

theorem aliasItemOutside (t : Nat) (item : FdItem) (newFd : Int32) :
    Blind outside (aliasItem t item newFd) := by
  have check : Blind outside (checkItem item) := by
    refine .reads (fun _ _ => rfl) fun s => ?_
    split
    · exact .pure ()
    · exact .throw _
  exact check.bind fun _ => (readMapOutside _).bind fun _ => (ofFdOutside _).bind fun _ =>
    (writeMapOutside _ _).bind fun _ => (insertItemOutside _ _ _ _).bind fun _ =>
      (readMapOutside _).bind fun _ => increaseUsageOutside _

theorem advanceOutside (a : Nat) (by_ : Int64) : Blind outside (advance a by_) :=
  (readMapOutside a).bind fun _ => writeMapOutside _ _

end Outside
section Dry
variable {env : Env} (dry : env.actReplicate = false) (answers : List (Call × Int64) → Call → Int64)

def Env.answering (env : Env) (answers : List (Call × Int64) → Call → Int64) : Env :=
  { env with kernel := answers }

@[simp] theorem answeringSim : (env.answering answers).sim = env.sim := rfl

include dry

theorem dryBranch {α : Type} {p : Prop} [Decidable p] {m n m' n' : Replay α}
    (rest : Matches outside n n') :
    Matches outside (if env.actReplicate = true ∧ p then m else n)
      (if env.actReplicate = true ∧ p then m' else n') :=
  .ite (fun acts => absurd (dry.symm.trans acts.1) (by simp)) fun _ => rest

theorem dryElse {α : Type} {m n m' n' : Replay α} (rest : Matches outside n n') :
    Matches outside (if env.actReplicate = true then m else n)
      (if env.actReplicate = true then m' else n') :=
  .ite (fun acts => absurd (dry.symm.trans acts) (by simp)) fun _ => rest

theorem failedOpenDry (op : OpenOp) : Matches outside (replicateFailedOpen env op)
    (replicateFailedOpen (env.answering answers) op) := by
  unfold replicateFailedOpen
  cases got : namemapGetName env.namemap op.name with
  | none =>
    simp only [Env.answering,got]
    exact Blind.pure ()
  | some name =>
    simp only [Env.answering,got]
    exact dryElse dry (.ite (fun _ => onSimOutside _) fun _ => Blind.pure ())

theorem openedFdDry (op : OpenOp) (name : CName) (flags : Int32) :
    Matches outside (openedFd env op name flags)
      (openedFd (env.answering answers) op name flags) := by
  have sims : Blind outside (simulateOpened env op name flags) := by
    unfold simulateOpened
    split
    · exact onSimOutside _
    · exact .pure ()
  exact dryBranch dry (sims.bind fun _ => openFdOutside)

theorem pathDry (name : CName) (replay : CName → Call) (simulate : CName → SimProg Unit) :
    Matches outside (replicatePath env name replay simulate)
      (replicatePath (env.answering answers) name replay simulate) := by
  unfold replicatePath
  cases got : namemapGetName env.namemap name with
  | none =>
    simp only [Env.answering,got]
    exact Blind.pure ()
  | some name =>
    simp only [Env.answering,got]
    exact dryElse dry (.ite (fun _ => onSimOutside _) fun _ => Blind.pure ())

theorem transferResultDry (recorded : Int64) (simulate : SimProg Unit) (replay : Call) :
    Matches outside (transferResult env recorded simulate replay)
      (transferResult (env.answering answers) recorded simulate replay) := by
  refine .ite (fun _ => .ite (fun _ => ?_) fun _ => Blind.pure _) fun _ =>
    dryElse dry (Blind.throw _)
  exact (onSimOutside _).bind fun _ => .pure _

theorem seekResultDry (seek : Call) (recorded : Int64) :
    Matches outside (seekResult env seek recorded)
      (seekResult (env.answering answers) seek recorded) :=
  dryElse dry (Blind.pure _)

theorem sendfileResultDry (op : SendfileOp) (inMap outMap : FdMap) :
    Matches outside (sendfileResult env op inMap outMap)
      (sendfileResult (env.answering answers) op inMap outMap) := by
  refine dryElse dry (.ite (fun _ => .ite (fun _ => ?_) fun _ => Blind.pure _)
    fun _ => Blind.pure _)
  exact (onSimOutside _).bind fun _ => .pure _

theorem closeUsageDry (m : FdMap) : Matches outside (closeUsage env m)
    (closeUsage (env.answering answers) m) := by
  refine .ite (fun _ => .reads fun s _ => (ofFdOutside _).matches.bind fun r => ?_)
    fun _ => Blind.pure _
  refine .bind (Blind.modify fun _ _ => rfl) fun _ => ?_
  exact .ite (fun acts => absurd (dry.symm.trans acts.2) (by simp)) fun _ => Blind.pure _

omit dry in
theorem missingHtDry (pid : Int32) : Matches outside (replicateMissingHt env pid)
    (replicateMissingHt (env.answering answers) pid) :=
  .ite (fun _ => .reads fun _ _ => (cloneOutside _).bind fun _ => getProcessHtOutside _)
    fun _ => Blind.pure _

omit dry in
theorem processHtDry (pid : Int32) : Matches outside (processHt env pid)
    (processHt (env.answering answers) pid) := by
  refine .bind (getProcessHtOutside pid) fun known => ?_
  cases known with
  | none => exact missingHtDry answers pid
  | some t => exact Blind.pure _

theorem openDry (op : OpenOp) : Matches outside (replicateOpen env op)
    (replicateOpen (env.answering answers) op) := by
  refine .ite (fun _ => failedOpenDry dry answers op) fun _ =>
    .bind (processHtDry answers _) fun known => ?_
  cases known with
  | none => exact Blind.pure _
  | some t =>
    refine .bind (findItemOutside t _) fun item => ?_
    cases item with
    | some item => exact Blind.pure _
    | none =>
      refine .bind (openedFdDry dry answers _ _ _) fun retval => ?_
      exact .ite (fun _ => Blind.pure _) fun _ => newItemOutside _ _ _ _ _

theorem getFdMapDry (t : Nat) (fd : Int32) (info : OpInfo) :
    Matches outside (replicateGetFdMap env t fd info)
      (replicateGetFdMap (env.answering answers) t fd info) := by
  refine .bind (findItemOutside t fd) fun item => ?_
  cases item with
  | some item => exact Blind.pure _
  | none =>
    exact .ite (fun _ => (openDry dry answers _).bind fun _ => findItemOutside t fd)
      fun _ => Blind.pure _

theorem withItemDry (pid fd : Int32) (info : OpInfo) {act act' : Nat → FdItem → Replay Unit}
    (acts : ∀ t item, Matches outside (act t item) (act' t item)) :
    Matches outside (withItem env pid fd info act)
      (withItem (env.answering answers) pid fd info act') := by
  refine .bind (processHtDry answers pid) fun known => ?_
  cases known with
  | none => exact Blind.pure _
  | some t =>
    refine .bind (getFdMapDry dry answers t fd info) fun item => ?_
    cases item with
    | none => exact Blind.pure _
    | some item => exact acts t item

theorem transferDry (fd : Int32) (info : OpInfo) (recorded : Int64) (moves : Bool)
    (simulate : FdMap → SimProg Unit) (replay : Int32 → Call) :
    Matches outside (replicateTransfer env fd info recorded moves simulate replay)
      (replicateTransfer (env.answering answers) fd info recorded moves simulate replay) :=
  withItemDry dry answers _ _ _ fun _ item => .bind (readMapOutside item.fdMap) fun _ =>
    .ite (fun _ => .bind (transferResultDry dry answers _ _ _) fun _ =>
      .ite (fun _ => writeMapOutside _ _) fun _ => Blind.pure _) fun _ => Blind.pure _

theorem seekDry (fd : Int32) (info : OpInfo) (recorded : Int64) (seek : Int32 → Call)
    (pos : Int64 → Int64) : Matches outside (replicateSeek env fd info recorded seek pos)
      (replicateSeek (env.answering answers) fd info recorded seek pos) :=
  withItemDry dry answers _ _ _ fun _ item => .bind (readMapOutside item.fdMap) fun _ =>
    .ite (fun _ => .bind (seekResultDry dry answers _ _) fun _ =>
      .ite (fun _ => Blind.pure _) fun _ => .ite (fun _ => writeMapOutside _ _)
        fun _ => Blind.pure _) fun _ => Blind.pure _

theorem closeDry (op : CloseOp) : Matches outside (replicateClose env op)
    (replicateClose (env.answering answers) op) :=
  withItemDry dry answers _ _ _ fun t item => .bind (readMapOutside item.fdMap) fun m =>
    .bind (closeUsageDry dry answers m) fun _ =>
      .ite (fun _ => Blind.pure _) fun _ => removeItemOutside t op.fd item m

theorem dupDry (op : DupOp) : Matches outside (replicateDup env op)
    (replicateDup (env.answering answers) op) := by
  have target (t : Nat) : Matches outside (closeTarget env op t)
      (closeTarget (env.answering answers) op t) :=
    .bind (findItemOutside t op.oldFd) fun _ =>
      .ite (fun _ => closeDry dry answers _) fun _ => Blind.pure _
  exact .ite (fun _ => Blind.pure _) fun _ => withItemDry dry answers _ _ _ fun t item =>
    (target t).bind fun _ => aliasItemOutside t item op.retval

omit dry in
theorem pipeDry (op : PipeOp) : Matches outside (replicatePipe env op)
    (replicatePipe (env.answering answers) op) := by
  have item (t : Nat) (fd : Int32) : Blind outside (pipeItem env t fd) :=
    pipeFdOutside.bind fun _ => newItemOutside _ _ _ _ _
  refine .ite (fun _ => Blind.pure _) fun _ => .bind (processHtDry answers _) fun known => ?_
  cases known with
  | none => exact Blind.pure _
  | some t =>
    exact .bind (findItemOutside t op.fd1) fun _ => .ite (fun _ => Blind.pure _) fun _ =>
      .bind (findItemOutside t op.fd2) fun _ => .ite (fun _ => Blind.pure _) fun _ =>
        (item t op.fd1).bind fun _ => item t op.fd2

omit dry in
theorem socketDry (op : SocketOp) : Matches outside (replicateSocket env op)
    (replicateSocket (env.answering answers) op) := by
  refine .ite (fun _ => Blind.pure _) fun _ => .bind (processHtDry answers _) fun known => ?_
  cases known with
  | none => exact Blind.pure _
  | some t =>
    exact .bind (findItemOutside t _) fun _ => .ite (fun _ => Blind.pure _) fun _ =>
      socketFdOutside.bind fun _ => newItemOutside _ _ _ _ _

theorem sendfileDry (op : SendfileOp) : Matches outside (replicateSendfile env op)
    (replicateSendfile (env.answering answers) op) := by
  have input (retval : Int64) (a : Nat) : Blind outside (advanceInput op retval a) := by
    unfold advanceInput
    split
    · exact advanceOutside _ _
    · exact .pure _
  refine .bind (processHtDry answers _) fun known => ?_
  cases known with
  | none => exact Blind.pure _
  | some t =>
    refine .bind (getFdMapDry dry answers t op.outFd op.info) fun out => ?_
    cases out with
    | none => exact Blind.pure _
    | some outItem =>
      refine .bind (getFdMapDry dry answers t op.inFd op.info) fun in_ => ?_
      cases in_ with
      | none => exact Blind.pure _
      | some inItem =>
        exact .bind (readMapOutside outItem.fdMap) fun outMap =>
          .bind (readMapOutside inItem.fdMap) fun inMap => .ite
            (fun _ => .bind (sendfileResultDry dry answers op inMap outMap) fun retval =>
              .ite (fun _ => Blind.pure _) fun _ => (input retval inItem.fdMap).bind fun _ =>
                advanceOutside outItem.fdMap retval)
            fun _ => Blind.pure _

theorem opDry (op : Op) : Matches outside (replicateOp env op)
    (replicateOp (env.answering answers) op) := by
  cases op with
  | read o =>
    simp only [replicateOp,replicateRead,answeringSim]
    exact transferDry dry answers _ _ _ _ _ _
  | write o =>
    simp only [replicateOp,replicateWrite,answeringSim]
    exact transferDry dry answers _ _ _ _ _ _
  | pread o =>
    simp only [replicateOp,replicatePread,answeringSim]
    exact transferDry dry answers _ _ _ _ _ _
  | pwrite o =>
    simp only [replicateOp,replicatePwrite,answeringSim]
    exact transferDry dry answers _ _ _ _ _ _
  | lseek o =>
    simp only [replicateOp,replicateLseek]
    exact seekDry dry answers _ _ _ _ _
  | llseek o =>
    simp only [replicateOp,replicateLlseek]
    exact seekDry dry answers _ _ _ _ _
  | «open» o => exact openDry dry answers o
  | close o => exact closeDry dry answers o
  | clone o => exact cloneOutside o
  | dup o | dup2 o | dup3 o => exact dupDry dry answers o
  | pipe o => exact pipeDry answers o
  | socket o => exact socketDry answers o
  | sendfile o => exact sendfileDry dry answers o
  | unlink o =>
    simp only [replicateOp,replicateUnlink,answeringSim]
    exact pathDry dry answers _ _ _
  | mkdir o =>
    simp only [replicateOp,replicateMkdir,answeringSim]
    exact pathDry dry answers _ _ _
  | rmdir o =>
    simp only [replicateOp,replicateRmdir,answeringSim]
    exact pathDry dry answers _ _ _
  | access o =>
    simp only [replicateOp,replicateAccess,answeringSim]
    exact pathDry dry answers _ _ _
  | stat o =>
    simp only [replicateOp,replicateStat,answeringSim]
    exact pathDry dry answers _ _ _

theorem opsDry (ops : List Op) : Matches outside (replicateOps env ops)
    (replicateOps (env.answering answers) ops) := by
  induction ops with
  | nil => exact Blind.pure _
  | cons op rest ih => exact (opDry dry answers op).bind fun _ => ih

end Dry
section Alike
variable {env : Env}

def stdTable (env : Env) (pid : Int32) : Replay Unit := do
  Prog.modify fun s => { s with
    fdMappings := .init HASH_TABLE_SIZE, usageMap := .init HASH_TABLE_SIZE,
    globalParentPid := pid }
  let t ← newTable
  linkProcess pid (some t)
  newItem t 1 0 1 (stdMap env 0 (stdName "stdin"))
  newItem t 1 1 1 (stdMap env 1 (stdName "stdout"))
  newItem t 2 2 2 (stdMap env 2 (stdName "stderr"))

def openDevices (env : Env) : Replay Int32 := do
  let devnull := (← call env (.openDevice .null)).toInt32
  Prog.modify fun s => { s with globalDevnullFd := devnull }
  if devnull = -1 then pure (-1)
  else do
    let devzero := (← call env (.openDevice .zero)).toInt32
    Prog.modify fun s => { s with globalDevzeroFd := devzero }
    pure 0

theorem stdTableOutside (env : Env) (pid : Int32) : Blind outside (stdTable env pid) :=
  (Blind.modify fun _ _ => rfl).bind fun _ => newTableOutside.bind fun _ =>
    (linkProcessOutside _ _).bind fun _ => (newItemOutside _ _ _ _ _).bind fun _ =>
      (newItemOutside _ _ _ _ _).bind fun _ => newItemOutside _ _ _ _ _

def deviceView (env : Env) : List (Call × Int64) × Int32 × Int32 :=
  let null := env.kernel [] (.openDevice .null)
  (deviceLog env,null.toInt32,(env.kernel [(.openDevice .null,null)] (.openDevice .zero)).toInt32)

theorem initAfter (opens : (env.kernel [] (.openDevice .null)).toInt32 ≠ -1) (pid : Int32) :
    replicateInit env pid State.start =
      (stdTable env pid State.start).map fun r => (0,outside.set r.2 (deviceView env)) := by
  have split : replicateInit env pid = stdTable env pid >>= fun _ => openDevices env := by
    simp only [stdTable,Prog.bindAssoc]
    rfl
  rw [split,Prog.bindRun]
  cases ran : stdTable env pid State.start with
  | error f => rfl
  | ok r =>
    have log : r.2.log = [] := congrArg Prod.fst ((stdTableOutside env pid).keeps ran)
    dsimp only
    rw [openDevices,Prog.bindOf (callRun _ _ _),Prog.bindOf (Prog.modifyRun _ _),log,if_neg opens,
      Prog.bindOf (callRun _ _ _),Prog.bindOf (Prog.modifyRun _ _)]
    simp only [Prog.pureRun,Except.map,outside,deviceView,deviceLog,State.logged,log]

def seen (r : Int32 × State) : Int32 × State := (r.1,outside.set r.2 ([],0,0))

theorem dryAlike (dry : env.actReplicate = false) (answers : List (Call × Int64) → Call → Int64)
    (opens : (env.kernel [] (.openDevice .null)).toInt32 ≠ -1)
    (opens' : (answers [] (.openDevice .null)).toInt32 ≠ -1) (ops : List Op) :
    (replicate (env.answering answers) ops State.start).map seen =
      (replicate env ops State.start).map seen := by
  cases ops with
  | nil => rfl
  | cons op rest =>
    have std : stdTable (env.answering answers) op.info.pid = stdTable env op.info.pid := rfl
    rw [replicate,replicate,Prog.bindRun,Prog.bindRun,initAfter opens,initAfter opens',std]
    cases stdTable env op.info.pid State.start with
    | error f => rfl
    | ok r =>
      have after : Matches outside (replicateOps env (op :: rest) >>= fun _ => pure (0 : Int32))
          (replicateOps (env.answering answers) (op :: rest) >>= fun _ => pure (0 : Int32)) :=
        (opsDry dry answers _).bind fun _ => Blind.pure _
      exact after.ends ⟨_,(outside.setSet _ _ _).symm⟩ ([],0,0)

end Alike
end IoApps
