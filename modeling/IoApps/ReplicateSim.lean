import IoApps.ReplicatePaths
import IoApps.SimfsLookup

/-! What the operations of the replicator do to the simulation. Only the calls on paths and the
transfers reach it, so a relation these keep is kept by every operation. -/
namespace IoApps
open Lib (Bytes Prog Tree)
open Lib.Prog (Steps)
open Relation (ReflTransGen)

section Within
variable {α β : Type} {rel : Sim → Sim → Prop}

def Within (rel : Sim → Sim → Prop) (m : Replay α) : Prop :=
  ∀ s a t, m s = .ok (a,t) → ReflTransGen rel s.sim t.sim

theorem Within.pure (a : α) : Within rel (pure a : Replay α) := by
  intro s b t ran
  cases ran
  exact .refl

theorem Within.throw (f : Fault) : Within rel (Prog.throw f : Replay α) := by
  intro s b t ran
  cases ran

theorem Within.get : Within rel (Prog.get : Replay State) := by
  intro s b t ran
  cases ran
  exact .refl

theorem Within.modify {f : State → State} (same : ∀ s, (f s).sim = s.sim) :
    Within rel (Prog.modify f : Replay Unit) := by
  intro s b t ran
  cases ran
  rw [same]

theorem Within.bind {m : Replay α} {f : α → Replay β} (first : Within rel m)
    (second : ∀ a, Within rel (f a)) : Within rel (m >>= f) := by
  intro s b u ran
  obtain ⟨a,t,one,rest⟩ := Prog.bindOk.mp ran
  exact (first s a t one).trans (second a t b u rest)

theorem Within.ofOption (f : Fault) (o : Option α) : Within rel (Prog.ofOption f o) := by
  cases o with
  | none => exact .throw f
  | some a => exact .pure a

theorem Within.ofFd (r : Except FdFault α) : Within rel (ofFd r) := by
  cases r with
  | error f => exact .throw _
  | ok a => exact .pure a

theorem Within.onSim {m : SimProg α} (kept : ∀ sim a sim', m sim = .ok (a,sim') →
    ReflTransGen rel sim sim') : Within rel (onSim m) := by
  intro s a t ran
  unfold IoApps.onSim at ran
  split at ran
  · rename_i ended
    cases ran
    exact kept _ _ _ ended
  · cases ran

end Within
section Memory
variable {rel : Sim → Sim → Prop}

theorem keyWithin {α : Type} (o : Option α) : Within rel (key o) := .ofOption _ o

theorem readTableWithin (t : Nat) : Within rel (readTable t) :=
  .bind .get fun _ => .ofOption _ _

theorem readMapWithin (a : Nat) : Within rel (readMap a) := .bind .get fun _ => .ofOption _ _

theorem writeMapWithin (a : Nat) (m : FdMap) : Within rel (writeMap a m) := .modify fun _ => rfl

theorem findItemWithin (t : Nat) (fd : Int32) : Within rel (findItem t fd) :=
  .bind (readTableWithin t) fun _ => keyWithin _

theorem increaseUsageWithin (fd : Int32) : Within rel (increaseUsage fd) :=
  .bind .get fun _ => .bind (.ofFd _) fun _ => .modify fun _ => rfl

theorem insertItemWithin (t : Nat) (k fd : Int32) (a : Nat) : Within rel (insertItem t k fd a) :=
  .bind (readTableWithin t) fun _ => .bind .get fun _ => .bind (keyWithin _) fun _ =>
    .modify fun _ => rfl

theorem allocMapWithin (m : FdMap) : Within rel (allocMap m) :=
  .bind .get fun _ => .bind (.modify fun _ => rfl) fun _ => .pure _

theorem putItemWithin (t : Nat) (k fd counted : Int32) (m : FdMap) :
    Within rel (putItem t k fd counted m) :=
  .bind (allocMapWithin m) fun _ => .bind (insertItemWithin t k fd _) fun _ =>
    increaseUsageWithin counted

theorem newItemWithin (t : Nat) (k fd counted : Int32) (m : FdMap) :
    Within rel (newItem t k fd counted m) :=
  .bind (.ofFd _) fun _ => putItemWithin t k fd counted _

theorem getProcessHtWithin (pid : Int32) : Within rel (getProcessHt pid) :=
  .bind .get fun _ => .bind (keyWithin _) fun _ => .pure _

theorem linkProcessWithin (pid : Int32) (ht : Option Nat) : Within rel (linkProcess pid ht) :=
  .bind .get fun _ => .bind (keyWithin _) fun _ => .modify fun _ => rfl

theorem newTableWithin : Within rel newTable :=
  .bind .get fun _ => .bind (.modify fun _ => rfl) fun _ => .pure _

theorem copyItemsWithin (t : Nat) (items : List FdItem) : Within rel (copyItems t items) := by
  induction items with
  | nil => exact .pure _
  | cons item rest ih =>
    exact .bind (readMapWithin _) fun _ => .bind (putItemWithin t _ _ _ _) fun _ => ih

theorem duplicateProcessHtWithin (ht : Option Nat) : Within rel (duplicateProcessHt ht) := by
  cases ht with
  | none => exact .throw _
  | some h =>
    exact .bind (readTableWithin h) fun _ => .bind newTableWithin fun _ =>
      .bind (copyItemsWithin _ _) fun _ => .pure _

theorem countedWithin {number : State → Except FdFault Int32} {f : Int32 → State → State}
    (same : ∀ n s, (f n s).sim = s.sim) :
    Within rel (do let s ← Prog.get; let n ← ofFd (number s); Prog.modify (f n); pure n) :=
  .bind .get fun _ => .bind (.ofFd _) fun n => .bind (.modify (same n)) fun _ => .pure _

theorem getPipeFdWithin : Within rel getPipeFd := countedWithin fun _ _ => rfl

theorem getSocketFdWithin : Within rel getSocketFd := countedWithin fun _ _ => rfl

theorem simulateGetOpenFdWithin : Within rel simulateGetOpenFd := countedWithin fun _ _ => rfl

theorem callWithin (env : Env) (c : Call) : Within rel (call env c) :=
  .bind .get fun _ => .bind (.modify fun _ => rfl) fun _ => .pure _

end Memory
section Operations
variable {env : Env} {rel : Sim → Sim → Prop}

theorem cloneWithin (op : CloneOp) : Within rel (replicateClone op) := by
  refine .bind (getProcessHtWithin _) fun r => ?_
  split
  · exact .pure _
  · split
    · exact .bind (getProcessHtWithin _) fun _ => linkProcessWithin _ _
    · exact .bind (getProcessHtWithin _) fun _ => .bind (duplicateProcessHtWithin _) fun _ =>
        linkProcessWithin _ _

theorem processHtWithin (pid : Int32) : Within rel (processHt env pid) := by
  refine .bind (getProcessHtWithin pid) fun r => ?_
  cases r with
  | some t => exact .pure _
  | none =>
    change Within rel (replicateMissingHt env pid)
    unfold replicateMissingHt
    split
    · exact .bind .get fun _ => .bind (cloneWithin _) fun _ => getProcessHtWithin pid
    · exact .pure _

structure Creates (env : Env) (rel : Sim → Sim → Prop) (op : OpenOp) : Prop where
  kept : ∀ name sim u sim', simulateCreat env.sim { op with name := name } sim = .ok (u,sim') →
    ReflTransGen rel sim sim'

theorem openedFdWithin {op : OpenOp} (creates : Creates env rel op) (name : CName)
    (flags : Int32) : Within rel (openedFd env op name flags) := by
  unfold openedFd
  split
  · exact .bind (callWithin env _) fun _ => .pure _
  · refine .bind ?_ fun _ => simulateGetOpenFdWithin
    unfold simulateOpened
    split
    · exact .onSim fun sim u sim' ran => creates.kept name sim u sim' ran
    · exact .pure _

theorem openWithin {op : OpenOp} (creates : Creates env rel op) :
    Within rel (replicateOpen env op) := by
  unfold replicateOpen
  dsimp only
  split
  · unfold replicateFailedOpen
    split
    · exact .pure _
    · split
      · refine .bind (callWithin env _) fun _ => ?_
        dsimp only
        split
        · exact .bind (callWithin env _) fun _ => .pure _
        · exact .pure _
      · split
        · exact .onSim fun sim u sim' ran => creates.kept _ sim u sim' ran
        · exact .pure _
  · refine .bind (processHtWithin _) fun r => ?_
    cases r with
    | none => exact .pure _
    | some t =>
      refine .bind (findItemWithin t _) fun r => ?_
      cases r with
      | some item => exact .pure _
      | none =>
        refine .bind (openedFdWithin creates _ _) fun retval => ?_
        split
        · exact .pure _
        · exact newItemWithin t _ _ _ _

def Supplies (env : Env) (rel : Sim → Sim → Prop) : Prop :=
  ∀ op : OpenOp, op.flags = O_RDWR → op.retval ≠ -1 → Creates env rel op

theorem getFdMapWithin (supplies : Supplies env rel) (t : Nat) (fd : Int32) (info : OpInfo) :
    Within rel (replicateGetFdMap env t fd info) := by
  intro s a u ran
  obtain ⟨r,mid,found,rest⟩ := Prog.bindOk.mp ran
  have valid : fd ≠ -1 := by
    obtain ⟨h,_,_,keyed⟩ := Prog.bindOk.mp found
    cases first : h.find htOpsFdItem fd with
    | none =>
      rw [first] at keyed
      cases keyed
    | some r => exact findValid first
  refine (findItemWithin t fd s r mid found).trans ?_
  cases r with
  | some item =>
    exact Within.pure (some item) mid a u rest
  | none =>
    have rest : (if env.fixMissing then do
        replicateOpen env ⟨replicateGetMissingName info.pid fd,O_RDWR,env.garbage.mode,fd,
          { env.garbage.info with pid := info.pid, start := info.start }⟩
        findItem t fd
      else pure none) mid = .ok (a,u) := rest
    split at rest
    · have opens : Within rel (replicateOpen env ⟨replicateGetMissingName info.pid fd,O_RDWR,
          env.garbage.mode,fd,{ env.garbage.info with pid := info.pid, start := info.start }⟩) :=
        openWithin (supplies _ rfl valid)
      exact Within.bind opens (fun _ => findItemWithin t fd) mid a u rest
    · exact Within.pure none mid a u rest

theorem withItemWithin (supplies : Supplies env rel) (pid fd : Int32) (info : OpInfo)
    {act : Nat → FdItem → Replay Unit} (acts : ∀ t item, Within rel (act t item)) :
    Within rel (withItem env pid fd info act) := by
  refine .bind (processHtWithin pid) fun r => ?_
  cases r with
  | none => exact .pure _
  | some t =>
    refine .bind (getFdMapWithin supplies t fd info) fun r => ?_
    cases r with
    | none => exact .pure _
    | some item => exact acts t item

theorem transferWithin (supplies : Supplies env rel) {fd : Int32} {info : OpInfo}
    {recorded : Int64} {moves : Bool} {simulate : FdMap → SimProg Unit} {replay : Int32 → Call}
    (simulates : ∀ m sim u sim', recorded ≠ -1 → simulate m sim = .ok (u,sim') →
      ReflTransGen rel sim sim') :
    Within rel (replicateTransfer env fd info recorded moves simulate replay) := by
  refine withItemWithin supplies _ _ _ fun t item => .bind (readMapWithin _) fun m => ?_
  split
  · refine .bind ?_ fun retval => ?_
    · unfold transferResult
      split
      · split
        · rename_i succeeded
          exact .bind (.onSim fun sim u sim' ran => simulates m sim u sim' succeeded ran)
            fun _ => .pure _
        · exact .pure _
      · split
        · exact callWithin env _
        · exact .throw _
    · split
      · exact writeMapWithin _ _
      · exact .pure _
  · exact .pure _

theorem seekWithin (supplies : Supplies env rel) (fd : Int32) (info : OpInfo) (recorded : Int64)
    (seek : Int32 → Call) (pos : Int64 → Int64) :
    Within rel (replicateSeek env fd info recorded seek pos) := by
  refine withItemWithin supplies _ _ _ fun t item => .bind (readMapWithin _) fun m => ?_
  split
  · refine .bind ?_ fun retval => ?_
    · unfold seekResult
      split
      · exact callWithin env _
      · exact .pure _
    · split
      · exact .pure _
      · split
        · exact writeMapWithin _ _
        · exact .pure _
  · exact .pure _

theorem closeWithin (supplies : Supplies env rel) (op : CloseOp) :
    Within rel (replicateClose env op) := by
  refine withItemWithin supplies _ _ _ fun t item => .bind (readMapWithin _) fun m =>
    .bind ?_ fun retval => ?_
  · unfold closeUsage
    split
    · refine .bind .get fun _ => .bind (.ofFd _) fun r => .bind (.modify fun _ => rfl) fun _ => ?_
      split
      · exact .bind (callWithin env _) fun _ => .pure _
      · exact .pure _
    · exact .pure _
  · split
    · exact .pure _
    · refine .bind (.ofFd _) fun r => .bind (writeMapWithin _ _) fun _ =>
        .bind (readTableWithin t) fun _ => .bind (keyWithin _) fun _ =>
          .bind (.modify fun _ => rfl) fun _ => ?_
      split
      · exact .modify fun _ => rfl
      · exact .pure _

theorem dupWithin (supplies : Supplies env rel) (op : DupOp) :
    Within rel (replicateDup env op) := by
  unfold replicateDup
  split
  · exact .pure _
  · refine withItemWithin supplies _ _ _ fun t item => .bind ?_ fun _ => ?_
    · refine .bind (findItemWithin t _) fun r => ?_
      split
      · exact closeWithin supplies _
      · exact .pure _
    · refine .bind ?_ fun _ => .bind (readMapWithin _) fun _ => .bind (.ofFd _) fun _ =>
        .bind (writeMapWithin _ _) fun _ => .bind (insertItemWithin t _ _ _) fun _ =>
          .bind (readMapWithin _) fun _ => increaseUsageWithin _
      refine .bind .get fun _ => ?_
      split
      · exact .pure _
      · exact .throw _

theorem advanceWithin (a : Nat) (n : Int64) : Within rel (advance a n) :=
  .bind (readMapWithin a) fun _ => writeMapWithin a _

theorem sendfileWithin (supplies : Supplies env rel) {op : SendfileOp}
    (simulates : ∀ inMap outMap sim u sim', op.retval ≠ -1 →
      simulateSendfile env.sim inMap outMap op sim = .ok (u,sim') → ReflTransGen rel sim sim') :
    Within rel (replicateSendfile env op) := by
  refine .bind (processHtWithin _) fun r => ?_
  cases r with
  | none => exact .pure _
  | some t =>
    refine .bind (getFdMapWithin supplies t _ _) fun r => ?_
    cases r with
    | none => exact .pure _
    | some outItem =>
      refine .bind (getFdMapWithin supplies t _ _) fun r => ?_
      cases r with
      | none => exact .pure _
      | some inItem =>
        refine .bind (readMapWithin _) fun outMap => .bind (readMapWithin _) fun inMap => ?_
        split
        · refine .bind ?_ fun retval => ?_
          · unfold sendfileResult
            dsimp only
            split
            · exact .bind .get fun _ => callWithin env _
            · split
              · split
                · rename_i succeeded
                  exact .bind (.onSim fun sim u sim' ran =>
                    simulates _ _ sim u sim' succeeded ran) fun _ => .pure _
                · exact .pure _
              · exact .pure _
          · split
            · exact .pure _
            · refine .bind ?_ fun _ => advanceWithin _ _
              unfold advanceInput
              split
              · exact advanceWithin _ _
              · exact .pure _
        · exact .pure _

theorem pathWithin {name : CName} {replay : CName → Call} {simulate : CName → SimProg Unit}
    (simulates : ∀ n sim u sim', simulate n sim = .ok (u,sim') → ReflTransGen rel sim sim') :
    Within rel (replicatePath env name replay simulate) := by
  unfold replicatePath
  split
  · exact .pure _
  · split
    · exact .bind (callWithin env _) fun _ => .pure _
    · split
      · exact .onSim fun sim u sim' ran => simulates _ sim u sim' ran
      · exact .pure _

theorem pipeWithin (op : PipeOp) : Within rel (replicatePipe env op) := by
  have item (t : Nat) (fd : Int32) : Within rel (pipeItem env t fd) :=
    .bind getPipeFdWithin fun _ => newItemWithin t _ _ _ _
  unfold replicatePipe
  split
  · exact .pure _
  · refine .bind (processHtWithin _) fun r => ?_
    cases r with
    | none => exact .pure _
    | some t =>
      refine .bind (findItemWithin t _) fun r => ?_
      split
      · exact .pure _
      · refine .bind (findItemWithin t _) fun r => ?_
        split
        · exact .pure _
        · exact .bind (item t _) fun _ => item t _

theorem socketWithin (op : SocketOp) : Within rel (replicateSocket env op) := by
  unfold replicateSocket
  dsimp only
  split
  · exact .pure _
  · refine .bind (processHtWithin _) fun r => ?_
    cases r with
    | none => exact .pure _
    | some t =>
      refine .bind (findItemWithin t _) fun r => ?_
      split
      · exact .pure _
      · exact .bind getSocketFdWithin fun _ => newItemWithin t _ _ _ _

inductive Op.Simulates (env : SimEnv) : Op → SimProg Unit → Prop where
  | read (o : ReadOp) (m : FdMap) (ok : o.retval ≠ -1) :
      Simulates env (.read o) (simulateRead env m o)
  | write (o : WriteOp) (m : FdMap) (ok : o.retval ≠ -1) :
      Simulates env (.write o) (simulateWrite env m o)
  | pread (o : PreadOp) (m : FdMap) (ok : o.retval ≠ -1) :
      Simulates env (.pread o) (simulatePread env m o)
  | pwrite (o : PwriteOp) (m : FdMap) (ok : o.retval ≠ -1) :
      Simulates env (.pwrite o) (simulatePwrite env m o)
  | sendfile (o : SendfileOp) (inMap outMap : Option FdMap) (ok : o.retval ≠ -1) :
      Simulates env (.sendfile o) (simulateSendfile env inMap outMap o)
  | path {op : Op} (c : FsOp) : Simulates env op (simulateCall env c)

theorem opWithin {op : Op} (supplies : Supplies env rel)
    (simulates : ∀ m, op.Simulates env.sim m → ∀ sim u sim', m sim = .ok (u,sim') →
      ReflTransGen rel sim sim') : Within rel (replicateOp env op) := by
  cases op with
  | read o =>
    simp only [replicateOp,replicateRead]
    exact transferWithin supplies fun m sim u sim' ok ran => simulates _ (.read o m ok) _ _ _ ran
  | write o =>
    simp only [replicateOp,replicateWrite]
    exact transferWithin supplies fun m sim u sim' ok ran => simulates _ (.write o m ok) _ _ _ ran
  | pread o =>
    simp only [replicateOp,replicatePread]
    exact transferWithin supplies fun m sim u sim' ok ran => simulates _ (.pread o m ok) _ _ _ ran
  | pwrite o =>
    simp only [replicateOp,replicatePwrite]
    exact transferWithin supplies fun m sim u sim' ok ran => simulates _ (.pwrite o m ok) _ _ _ ran
  | sendfile o =>
    exact sendfileWithin supplies fun i w sim u sim' ok ran =>
      simulates _ (.sendfile o i w ok) _ _ _ ran
  | «open» o =>
    exact openWithin ⟨fun name sim u sim' ran => simulates _ (.path (.creat { o with name := name }))
      _ _ _ ran⟩
  | close o => exact closeWithin supplies o
  | lseek o =>
    simp only [replicateOp,replicateLseek]
    exact seekWithin supplies _ _ _ _ _
  | llseek o =>
    simp only [replicateOp,replicateLlseek]
    exact seekWithin supplies _ _ _ _ _
  | clone o => exact cloneWithin o
  | unlink o => exact pathWithin fun n sim u sim' ran => simulates _ (.path (.unlink o)) _ _ _ ran
  | mkdir o => exact pathWithin fun n sim u sim' ran => simulates _ (.path (.mkdir o)) _ _ _ ran
  | rmdir o => exact pathWithin fun n sim u sim' ran => simulates _ (.path (.rmdir o)) _ _ _ ran
  | access o =>
    exact pathWithin fun n sim u sim' ran =>
      simulates _ (.path (.access { o with name := n })) _ _ _ ran
  | stat o =>
    exact pathWithin fun n sim u sim' ran =>
      simulates _ (.path (.stat { o with name := n })) _ _ _ ran
  | dup o | dup2 o | dup3 o => exact dupWithin supplies o
  | pipe o => exact pipeWithin o
  | socket o => exact socketWithin o

end Operations
section Edits
variable {env : SimEnv} {sim sim' : Sim}

/-- One change of the simulation: of the simulated file system, of the sizes in one of its nodes,
or a transfer that is noted. -/
inductive SimEdit (sim : Sim) : Sim → Prop where
  | files {fs : Trie Simfs} (edit : FsEdit sim.fs fs) : SimEdit sim { sim with fs := fs }
  | sized (n : List Bytes) (f : Simfs → Simfs) :
      SimEdit sim { sim with fs := setSimfs sim.fs n f }
  | noted (dir : Direction) (m : FdMap) (offset retval : Int64) (info : OpInfo) :
      SimEdit sim (sim.setMap (simulateAppendRw (simulateGetSimItem m (sim.map dir)) m.name
        ⟨offset,retval.toUInt64,info.start,info.dur⟩) dir)

def SimEdits {α : Type} (m : SimProg α) (sim : Sim) (post : α → Sim → Prop) : Prop :=
  Steps SimEdit (fun _ _ => True) m sim post

theorem onSimfsEdits {α : Type} {m : SimfsProg α} {post : α → Trie Simfs → Prop}
    (edits : Edits m sim.fs post) : SimEdits (onSimfs m) sim fun a sim' => post a sim'.fs := by
  cases ran : m sim.fs with
  | error f =>
    refine Steps.ofError (e := .simfs f) ?_ trivial
    rw [onSimfs,ran]
  | ok r =>
    obtain ⟨a,fs⟩ := r
    obtain ⟨steps,holds⟩ := Steps.okElim edits ran
    refine Steps.ofOk (by rw [onSimfs,ran]) ?_ holds
    clear ran holds
    induction steps with
    | refl => exact .refl
    | tail _ last ih =>
      rename_i mid fs _
      exact ih.tail (@SimEdit.files { sim with fs := mid } fs last)

theorem ifCheckingEdits {α : Type} {m : SimfsProg α}
    (edits : Edits m sim.fs fun _ _ => True) : SimEdits (ifChecking env m) sim fun _ _ => True := by
  unfold ifChecking
  split
  · exact Steps.bind (onSimfsEdits edits) fun _ _ _ => Steps.pure trivial
  · exact Steps.pure trivial

theorem simulateCallEdits (real : env.disk.Real) (c : FsOp) :
    SimEdits (simulateCall env c) sim fun _ _ => True := by
  cases c with
  | access o => exact ifCheckingEdits (probeTrims real _ _ _).edits
  | stat o => exact ifCheckingEdits (probeTrims real _ _ _).edits
  | mkdir o => exact ifCheckingEdits (mkdirTrims real o).edits
  | creat o => exact ifCheckingEdits (creatTrims real o).edits
  | unlink o => exact ifCheckingEdits (unlinkTrims real o).edits
  | rmdir o => exact ifCheckingEdits (unlinkTrims real _).edits

theorem simfsNodeEdits (m : FdMap) : SimEdits (simfsNode env m) sim fun _ sim' => sim' = sim := by
  cases ran : simfsNode env m sim with
  | error f => exact Steps.ofError ran trivial
  | ok r =>
    obtain ⟨n,sim'⟩ := r
    have same : sim' = sim := by
      unfold simfsNode onSimfs simfsFind at ran
      rw [Prog.bindRun] at ran
      cases named : simfsAbsoluteName env.disk.cwd m.name.bytes MAX_LINE with
      | error e => simp [ofExcept,named,Except.map] at ran
      | ok text =>
        simp only [ofExcept,named,Except.map,Prog.bindRun,Prog.getRun,Prog.pureRun] at ran
        cases ran
        rfl
    exact Steps.ofOk ran (same ▸ .refl) same

theorem simulateTransferEdits (dir : Direction) (m : FdMap) (offset retval : Int64)
    (info : OpInfo) : SimEdits (simulateTransfer dir m offset retval info) sim fun _ _ => True :=
  Steps.modify (.noted dir m offset retval info) trivial

theorem writeSimfsEdits (n : List Bytes) (f : Simfs → Simfs) :
    SimEdits (writeSimfs n f) sim fun _ _ => True :=
  Steps.modify (.sized n f) trivial

theorem simulateRwEdits (dir : Direction) (m : FdMap) (off : UInt64) (offset retval : Int64)
    (info : OpInfo) :
    SimEdits (simulateRw env dir m off offset retval info) sim fun _ _ => True := by
  have transfer (t : Sim) : SimEdits (if env.mode.simulate then
      simulateTransfer dir m offset retval info else pure ()) t fun _ _ => True := by
    split
    · exact simulateTransferEdits _ _ _ _ _
    · exact Steps.pure trivial
  refine Steps.bind (simfsNodeEdits m) fun r t _ => ?_
  dsimp only
  split
  · cases r with
    | none => exact Steps.pure trivial
    | some n =>
      refine Steps.bind (writeSimfsEdits n _) fun _ t _ => ?_
      cases dir with
      | write => exact Steps.bind (writeSimfsEdits n _) fun _ t _ => transfer t
      | read => exact transfer t
  · exact transfer t

theorem sendfileEndEdits (dir : Direction) (m : FdMap) (off : UInt64) (op : SendfileOp) :
    SimEdits (sendfileEnd env dir m off op) sim fun _ _ => True := by
  have transfer (t : Sim) : SimEdits (do
      if env.mode.simulate then simulateTransfer dir m off.toInt64 op.retval op.info
      pure true : SimProg Bool) t fun _ _ => True := by
    split
    · exact Steps.bind (simulateTransferEdits _ _ _ _ _) fun _ _ _ => Steps.pure trivial
    · exact Steps.pure trivial
  refine Steps.bind (simfsNodeEdits m) fun r t _ => ?_
  dsimp only
  split
  · cases r with
    | none => exact Steps.pure trivial
    | some n => exact Steps.bind (writeSimfsEdits n _) fun _ t _ => transfer t
  · exact transfer t

theorem simulateSendfileEdits (inMap outMap : Option FdMap) (op : SendfileOp) :
    SimEdits (simulateSendfile env inMap outMap op) sim fun _ _ => True := by
  cases outMap with
  | none => exact Steps.throw trivial
  | some out =>
    have last (goOn : Bool) (t : Sim) : SimEdits (if goOn then do
        let _ ← sendfileEnd env .write out out.curPos op
        pure ()
      else pure ()) t fun _ _ => True := by
      split
      · exact Steps.bind (sendfileEndEdits .write out _ op) fun _ _ _ => Steps.pure trivial
      · exact Steps.pure trivial
    refine Steps.bind (simfsNodeEdits out) fun _ t _ => ?_
    cases inMap with
    | none =>
      exact Steps.bind (q := fun _ _ => True) (Steps.pure trivial) fun goOn t _ => last goOn t
    | some m => exact Steps.bind (sendfileEndEdits .read m _ op) fun goOn t _ => last goOn t

/-- The step lemma: whatever an operation asks the simulation for is a sequence of edits. -/
theorem simulatesEdits (real : env.disk.Real) {op : Op} {m : SimProg Unit}
    (asks : op.Simulates env m) : SimEdits m sim fun _ _ => True := by
  cases asks with
  | read | write | pread | pwrite => exact simulateRwEdits _ _ _ _ _ _
  | sendfile => exact simulateSendfileEdits _ _ _
  | path c => exact simulateCallEdits real c

end Edits
section Reached
variable {env : Env} {meets : State → Op → Prop} {pid : Int32} {s s' : State}

theorem opSimEdits (real : env.sim.disk.Real) {op : Op} (ran : replicateOp env op s = .ok ((),s')) :
    ReflTransGen SimEdit s.sim s'.sim := by
  have within : Within SimEdit (replicateOp env op) := opWithin ?_ ?_
  · exact within s () s' ran
  · refine fun op _ _ => ⟨fun name sim u sim' ran => ?_⟩
    exact ((simulateCallEdits real (.creat { op with name := name })).okElim ran).1
  · exact fun m asks sim u sim' ran => ((simulatesEdits real asks).okElim ran).1

theorem putSim {t : Nat} {k fd counted : Int32} {m : FdMap} (put : Put s t k fd counted m s') :
    s'.sim = s.sim := by
  cases put
  rfl

theorem Began.sim (began : Began env pid s) : s.sim = simulateInit := by
  obtain ⟨mappings,a,b,c,d,_,_,_,_,rfl,put₀,put₁,put₂,_,_,_,_,_,_,rfl⟩ := began.puts
  have later : d.sim = simulateInit := by
    rw [putSim put₂,putSim put₁,putSim put₀]
    rfl
  exact later

/-- The run lemma: an invariant of the edits holds in every state that is reached. -/
theorem Reached.sim (real : env.sim.disk.Real) (inv : Sim → Prop) (first : inv simulateInit)
    (kept : ∀ sim sim', SimEdit sim sim' → inv sim → inv sim')
    (reached : Reached env meets pid s) : inv s.sim := by
  induction reached with
  | init ran =>
    rw [(initBegan ran).sim]
    exact first
  | step _ _ ran ih => exact Prog.keptByEdits inv kept (opSimEdits real ran) ih

theorem simEditKeyed {sim sim' : Sim} (edit : SimEdit sim sim') (keyed : Keyed sim.fs) :
    Keyed sim'.fs := by
  cases edit with
  | files edit => exact keyedEdit edit keyed
  | sized n f => exact keyedSet keyed n f
  | noted dir => cases dir <;> exact keyed

theorem opKeyed (real : env.sim.disk.Real) {op : Op} (ran : replicateOp env op s = .ok ((),s'))
    (keyed : Keyed s.sim.fs) : Keyed s'.sim.fs :=
  Prog.keptByEdits (fun sim => Keyed sim.fs) (fun _ _ => simEditKeyed) (opSimEdits real ran) keyed

theorem reachedKeyed (real : env.sim.disk.Real) (reached : Reached env meets pid s) :
    Keyed s.sim.fs :=
  reached.sim real (fun sim => Keyed sim.fs) keyedInit fun _ _ => simEditKeyed

def Filled (sim : Sim) : Prop := ∀ dir, (sim.map dir).entries = HASH_TABLE_SIZE

theorem appendEntries (ht : HashTable SimItem) (m : FdMap) (name : CName) (entry : RwOp) :
    (simulateAppendRw (simulateGetSimItem m ht) name entry).entries = ht.entries := by
  have first : (simulateGetSimItem m ht).entries = ht.entries := by
    unfold simulateGetSimItem
    split
    · rfl
    · cases inserted : ht.insert htOpsSim m.name ⟨m.name,m.created,m.timeOpen,[]⟩ with
      | none => rfl
      | some ht' => exact HashTable.insertEntries inserted
  rw [← first,simulateAppendRw]
  cases modified : (simulateGetSimItem m ht).modify htOpsSim name fun item =>
      { item with list := item.list ++ [entry] } with
  | none => rfl
  | some ht' => exact HashTable.modifyEntries modified

theorem filledNote {sim : Sim} (filled : Filled sim) (dir : Direction) (m : FdMap)
    (entry : RwOp) : Filled (sim.setMap
      (simulateAppendRw (simulateGetSimItem m (sim.map dir)) m.name entry) dir) := by
  intro d
  cases dir with
  | read =>
    cases d with
    | read => exact (appendEntries _ m _ _).trans (filled .read)
    | write => exact filled .write
  | write =>
    cases d with
    | read => exact filled .read
    | write => exact (appendEntries _ m _ _).trans (filled .write)

theorem filledEdit {sim sim' : Sim} (edit : SimEdit sim sim') (filled : Filled sim) :
    Filled sim' := by
  cases edit with
  | files => exact filled
  | sized => exact filled
  | noted dir m => exact filledNote filled dir m _

theorem callFilled {c : FsOp} {sim sim' : Sim} {u : Unit} (filled : Filled sim)
    (ran : simulateCall env.sim c sim = .ok (u,sim')) : Filled sim' := by
  have checked {α : Type} (m : SimfsProg α) (ran : ifChecking env.sim m sim = .ok (u,sim')) :
      Filled sim' := by
    unfold ifChecking at ran
    split at ran
    · obtain ⟨a,t,one,last⟩ := Prog.bindOk.mp ran
      cases last
      unfold onSimfs at one
      split at one
      · cases one
        exact filled
      · cases one
    · cases ran
      exact filled
  cases c with
  | access | stat | mkdir | creat | unlink | rmdir => exact checked _ ran

theorem reachedFilled (reached : Reached env meets pid s) : Filled s.sim := by
  induction reached with
  | init ran =>
    rw [(initBegan ran).sim]
    exact fun dir => by cases dir <;> rfl
  | step before met ran ih =>
    rename_i op
    have within : Within (fun a b => Filled a → Filled b) (replicateOp env op) := opWithin ?_ ?_
    · exact Prog.keptByEdits Filled (fun _ _ one => one) (within _ () _ ran) ih
    · exact fun op _ _ => ⟨fun name sim u sim' ran => .single fun filled =>
        callFilled (c := .creat { op with name := name }) filled ran⟩
    · intro m asks sim u sim' ran
      refine .single fun filled => ?_
      cases asks with
      | path c => exact callFilled filled ran
      | read o m | write o m | pread o m | pwrite o m =>
        exact (simulateRwEdits _ _ _ _ _ _).kept Filled (fun _ _ => filledEdit) filled ran
      | sendfile o i w =>
        exact (simulateSendfileEdits i w o).kept Filled (fun _ _ => filledEdit) filled ran

end Reached
end IoApps
