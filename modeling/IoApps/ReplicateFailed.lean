import IoApps.ReplicateMissing

/-! A call that failed on a descriptor nobody has opened. The replicator opens a file for it all
the same, and only a close may take that back. -/
namespace IoApps
open Lib (Prog)

section Staying
variable {α β : Type} {env : Env}

def Staying (m : Replay α) : Prop := ∀ s a t, m s = .ok (a,t) → t.tables = s.tables

theorem Staying.pure (a : α) : Staying (pure a : Replay α) := by
  intro s b t ran
  cases ran
  rfl

theorem Staying.throw (f : Fault) : Staying (Prog.throw f : Replay α) := by
  intro s b t ran
  cases ran

theorem Staying.bind {m : Replay α} {f : α → Replay β} (first : Staying m)
    (second : ∀ a, Staying (f a)) : Staying (m >>= f) := by
  intro s b u ran
  obtain ⟨a,t,one,rest⟩ := Prog.bindOk.mp ran
  exact (second a t b u rest).trans (first s a t one)

theorem Staying.onSim (m : SimProg α) : Staying (onSim m) := by
  intro s a t ran
  unfold IoApps.onSim at ran
  split at ran
  · cases ran
    rfl
  · cases ran

theorem readMapStays (a : Nat) : Staying (readMap a) := by
  intro s m t ran
  obtain ⟨_,_,got,read⟩ := Prog.bindOk.mp ran
  cases got
  cases live : s.fdMaps.read a with
  | none =>
    rw [live] at read
    cases read
  | some n =>
    rw [live] at read
    cases read
    rfl

theorem writeMapStays (a : Nat) (m : FdMap) : Staying (writeMap a m) := by
  intro s u t ran
  cases ran
  rfl

theorem callStays (c : Call) : Staying (call env c) := by
  intro s a t ran
  cases ran
  rfl

theorem transferStays (recorded : Int64) (moves : Bool) (simulate : FdMap → SimProg Unit)
    (replay : Int32 → Call) (item : FdItem) : Staying (do
      let m ← readMap item.fdMap
      if supportedType m.type then do
        let retval ← transferResult env recorded (simulate m) (replay m.myFd)
        if moves then writeMap item.fdMap { m with curPos := m.curPos + retval.toUInt64 }
        else pure ()
      else pure ()) := by
  refine .bind (readMapStays _) fun m => ?_
  split
  · refine .bind ?_ fun retval => ?_
    · unfold transferResult
      split
      · split
        · exact .bind (.onSim _) fun _ => .pure _
        · exact .pure _
      · split
        · exact callStays _
        · exact .throw _
    · split
      · exact writeMapStays _ _
      · exact .pure _
  · exact .pure _

theorem seekStays (recorded : Int64) (seek : Int32 → Call) (pos : Int64 → Int64)
    (item : FdItem) : Staying (do
      let m ← readMap item.fdMap
      if supportedType m.type then do
        let retval ← seekResult env (seek m.myFd) recorded
        if retval = -1 ∧ retval ≠ recorded then pure ()
        else if env.actSimulate then
          writeMap item.fdMap { m with curPos := (pos retval).toUInt64 }
        else pure ()
      else pure ()) := by
  refine .bind (readMapStays _) fun m => ?_
  split
  · refine .bind ?_ fun retval => ?_
    · unfold seekResult
      split
      · exact callStays _
      · exact .pure _
    · split
      · exact .pure _
      · split
        · exact writeMapStays _ _
        · exact .pure _
  · exact .pure _

theorem advanceStays (a : Nat) (n : Int64) : Staying (advance a n) :=
  .bind (readMapStays a) fun _ => writeMapStays a _

theorem sendStays (op : SendfileOp) (inItem outItem : FdItem) : Staying (do
      let outMap ← readMap outItem.fdMap
      let inMap ← readMap inItem.fdMap
      if supportedType inMap.type ∨ supportedType outMap.type then do
        let retval ← sendfileResult env op inMap outMap
        if retval = -1 ∧ retval ≠ op.retval then pure ()
        else do
          advanceInput op retval inItem.fdMap
          advance outItem.fdMap retval
      else pure ()) := by
  refine .bind (readMapStays _) fun outMap => .bind (readMapStays _) fun inMap => ?_
  split
  · refine .bind ?_ fun retval => ?_
    · unfold sendfileResult
      dsimp only
      split
      · refine .bind (fun s a t ran => ?_) fun _ => callStays _
        cases ran
        rfl
      · split
        · split
          · exact .bind (.onSim _) fun _ => .pure _
          · exact .pure _
        · exact .pure _
    · split
      · exact .pure _
      · refine .bind ?_ fun _ => advanceStays _ _
        unfold advanceInput
        split
        · exact advanceStays _ _
        · exact .pure _
  · exact .pure _

end Staying
section Lost
variable {env : Env} {fd : Int32} {info : OpInfo} {s s' : State} {t : Nat}

def Op.lost (s : State) (t : Nat) : Op → Option Int32
  | .read o => if itemOf s t o.fd = none then some o.fd else none
  | .write o => if itemOf s t o.fd = none then some o.fd else none
  | .pread o => if itemOf s t o.fd = none then some o.fd else none
  | .pwrite o => if itemOf s t o.fd = none then some o.fd else none
  | .lseek o => if itemOf s t o.fd = none then some o.fd else none
  | .llseek o => if itemOf s t o.fd = none then some o.fd else none
  | .close o => if itemOf s t o.fd = none then some o.fd else none
  | .sendfile o =>
    if itemOf s t o.outFd = none then some o.outFd
    else if itemOf s t o.inFd = none then some o.inFd
    else none
  | _ => none

/-- The processes, the descriptor tables with their fd_maps, the usage counters and the simulated
file system are the same. -/
structure Unchanged (s s' : State) : Prop where
  processes : s'.fdMappings = s.fdMappings
  tables : s'.tables = s.tables
  maps : ∀ a, s'.fdMaps.read a = s.fdMaps.read a
  usage : s'.usageMap = s.usageMap
  files : s'.sim.fs = s.sim.fs

theorem Unchanged.logged (env : Env) (s : State) (c : Call) : Unchanged s (s.logged env c) :=
  ⟨rfl,rfl,fun _ => rfl,rfl,rfl⟩

variable {n : Int32} {type : FileType} {m : FdMap} {s₁ : State}

theorem Supplied.found (supplied : Supplied env t fd info s n type m s₁ s')
    (absent : itemOf s t fd = none) :
    itemOf s' t fd = some ⟨s₁.nextItem,fd,s₁.fdMaps.fresh⟩ := by
  refine itemOfPut supplied.put ?_
  rw [itemOf,supplied.numbered.same.1]
  exact absent

theorem Supplied.table {pid : Int32} (supplied : Supplied env t fd info s n type m s₁ s') :
    tableOf s' pid = tableOf s pid := by
  have links := supplied.numbered.same.2.2.1
  cases supplied.put
  simp only [tableOf,links]

theorem Unchanged.item (unchanged : Unchanged s s') (t : Nat) (fd : Int32) :
    itemOf s' t fd = itemOf s t fd := by
  rw [itemOf,itemOf,unchanged.tables]

def LeftFor (env : Env) (t : Nat) (fd : Int32) (info : OpInfo) (s s' : State) : Prop :=
  Refuses env fd info s ∧ (∃ name, s' = s.logged env (missingCall env name)) ∨
    ¬ Refuses env fd info s ∧ (itemOf s' t fd).isSome = true

theorem LeftFor.unchanged (left_ : LeftFor env t fd info s s') (absent : itemOf s t fd = none) :
    Unchanged s s' ↔ Refuses env fd info s := by
  rcases left_ with ⟨refuses,name,rfl⟩ | ⟨accepted,there⟩
  · exact ⟨fun _ => refuses,fun _ => .logged env s _⟩
  · refine ⟨fun unchanged => ?_,fun refuses => absurd refuses accepted⟩
    rw [unchanged.item,absent] at there
    cases there

variable (fix : env.fixMissing = true) (bounds : Bounds s) (table : tableOf s info.pid = some t)
  (absent : itemOf s t fd = none)
include fix bounds table absent

theorem lostItem {act : Nat → FdItem → Replay Unit} (stays : ∀ item, Staying (act t item))
    (ran : withItem env info.pid fd info act s = .ok ((),s')) : LeftFor env t fd info s s' := by
  rw [withItem,Prog.bindOf (processHtKnown table)] at ran
  obtain ⟨r,s₂,got,rest⟩ := Prog.bindOk.mp ran
  rcases getFdMapMissing fix bounds table absent got with
    ⟨refuses,rfl,named⟩ | ⟨n,type,m,s₁,supplied,rfl⟩
  · cases rest
    exact .inl ⟨refuses,named⟩
  · refine .inr ⟨supplied.numbered.accepted,?_⟩
    rw [itemOf,stays _ _ _ _ rest]
    change (itemOf s₂ t fd).isSome = true
    rw [supplied.found absent]
    rfl

end Lost
section Sending
variable {env : Env} {s s' : State} {t : Nat} {op : SendfileOp}

theorem getFdMapFinds {info : OpInfo} {fd other : Int32} {r : Option FdItem}
    (table : tableOf s info.pid = some t)
    (ran : replicateGetFdMap env t other info s = .ok (r,s'))
    (there : (itemOf s t fd).isSome = true) : (itemOf s' t fd).isSome = true := by
  have working : Working .any s info.pid t := ⟨trivial,trivial,table⟩
  obtain ⟨item,found⟩ := foundSome.mp there
  exact foundSome.mpr ⟨item,((getFdMapRuns working trivial).okElim ran).2.1.found t fd item found⟩

theorem lostOutput (fix : env.fixMissing = true) (bounds : Bounds s)
    (table : tableOf s op.info.pid = some t) (absent : itemOf s t op.outFd = none)
    (ran : replicateSendfile env op s = .ok ((),s')) :
    LeftFor env t op.outFd op.info s s' := by
  rw [replicateSendfile,Prog.bindOf (processHtKnown table)] at ran
  obtain ⟨r,s₂,got,rest⟩ := Prog.bindOk.mp ran
  rcases getFdMapMissing fix bounds table absent got with
    ⟨refuses,rfl,named⟩ | ⟨n,type,m,s₁,supplied,rfl⟩
  · cases rest
    exact .inl ⟨refuses,named⟩
  · refine .inr ⟨supplied.numbered.accepted,?_⟩
    have there : (itemOf s₂ t op.outFd).isSome = true := by
      rw [supplied.found absent]
      rfl
    obtain ⟨q,s₃,got,rest⟩ := Prog.bindOk.mp rest
    have still := getFdMapFinds (supplied.table.trans table) got there
    cases q with
    | none =>
      cases rest
      exact still
    | some inItem =>
      rw [itemOf,sendStays op inItem _ _ _ _ rest]
      exact still

theorem lostInput (fix : env.fixMissing = true) (bounds : Bounds s)
    (table : tableOf s op.info.pid = some t) {outItem : FdItem}
    (there : itemOf s t op.outFd = some outItem) (absent : itemOf s t op.inFd = none)
    (ran : replicateSendfile env op s = .ok ((),s')) :
    LeftFor env t op.inFd op.info s s' := by
  rw [replicateSendfile,Prog.bindOf (processHtKnown table)] at ran
  dsimp only at ran
  rw [Prog.bindOf (getFdMapKnown (foundItem.mpr there) op.info)] at ran
  obtain ⟨r,s₂,got,rest⟩ := Prog.bindOk.mp ran
  rcases getFdMapMissing fix bounds table absent got with
    ⟨refuses,rfl,named⟩ | ⟨n,type,m,s₁,supplied,rfl⟩
  · cases rest
    exact .inl ⟨refuses,named⟩
  · refine .inr ⟨supplied.numbered.accepted,?_⟩
    rw [itemOf,sendStays op _ _ _ _ _ rest]
    change (itemOf s₂ t op.inFd).isSome = true
    rw [supplied.found absent]
    rfl

end Sending
section Closing
variable {env : Env} {s s' : State} {t : Nat} {op : CloseOp}

def Traceless (env : Env) (fd : Int32) (info : OpInfo) (s : State) : Prop :=
  ∃ name, namemapGetName env.namemap (missingOpen env fd info).name = some name ∧
    (env.actReplicate = true →
      s.usageMap.find htOpsFdUsage (s.answer env (missingCall env name)) ≠ some none ∨
      (s.logged env (missingCall env name)).answer env
        (.close (s.answer env (missingCall env name))) ≠ -1) ∧
    (env.actReplicate = false → env.actSimulate = true → checking env.sim = true →
      Present env.sim.disk s.sim.fs name)

theorem lostClose (real : env.sim.disk.Real) (keyed : Keyed s.sim.fs) (fix : env.fixMissing = true)
    (counting : Counting s) (table : tableOf s op.info.pid = some t)
    (absent : itemOf s t op.fd = none) (ran : replicateClose env op s = .ok ((),s')) :
    Unchanged s s' ↔ Refuses env op.fd op.info s ∨ Traceless env op.fd op.info s := by
  rw [replicateClose,withItem,Prog.bindOf (processHtKnown table)] at ran
  obtain ⟨r,s₂,got,rest⟩ := Prog.bindOk.mp ran
  have valid : op.fd ≠ -1 := by
    obtain ⟨_,_,asked,_⟩ := Prog.bindOk.mp got
    exact (findItemRan asked).2.1
  rcases getFdMapMissing fix counting.bounds table absent got with
    ⟨refuses,rfl,name,rfl⟩ | ⟨n,type,m,s₁,supplied,rfl⟩
  · cases rest
    exact ⟨fun _ => .inl refuses,fun _ => .logged env s _⟩
  · have accepted := supplied.numbered.accepted
    rw [or_iff_right accepted]
    obtain ⟨_,ends,outcome⟩ := suppliedClose counting.usage absent supplied
    cases ends.symm.trans rest
    rcases outcome with ⟨stuck,there⟩ | ⟨free,back,counted,_⟩
    · constructor
      · intro unchanged
        rw [unchanged.item,absent] at there
        cases there
      · intro traceless
        obtain ⟨name,seen,closes,_⟩ := traceless
        have numbered := supplied.numbered
        obtain ⟨_,acts,unused,fails⟩ := stuck
        cases numbered with
        | replayed seen' =>
          cases seen.symm.trans seen'
          exact absurd fails ((closes acts).resolve_left (not_not.mpr unused))
        | simulated _ idle => exact absurd (acts.symm.trans idle) (by simp)
        | ignored unseen => exact absurd (seen.symm.trans unseen) (by simp)
    · have same : Unchanged s s' ↔ type = .reg ∧ s₁.sim.fs = s.sim.fs := by
        constructor
        · exact fun unchanged => ⟨counted.mp unchanged.usage,back.sim ▸ unchanged.files⟩
        · intro both
          exact ⟨back.links,back.tables,back.maps,counted.mpr both.1,back.sim ▸ both.2⟩
      rw [same]
      cases supplied.numbered with
      | @replayed name seen acts =>
        refine ⟨fun _ => ⟨name,seen,fun _ => ?_,fun idle => ?_⟩,fun _ => ⟨rfl,rfl⟩⟩
        · by_contra neither
          obtain ⟨unused,fails⟩ := not_or.mp neither
          exact free ⟨rfl,acts,not_not.mp unused,not_not.mp fails⟩
        · exact absurd (acts.symm.trans idle) (by simp)
      | @simulated name sim n seen idle creates =>
        have keeps := missingSimKeeps real keyed valid creates
        constructor
        · intro both
          exact ⟨name,seen,fun acts => absurd (acts.symm.trans idle) (by simp),
            fun _ => keeps.mp both.2⟩
        · intro traceless
          obtain ⟨name',seen',_,present⟩ := traceless
          cases seen.symm.trans seen'
          exact ⟨rfl,keeps.mpr (present idle)⟩
      | ignored unseen =>
        refine ⟨fun both => absurd both.1 (by decide),?_⟩
        intro traceless
        obtain ⟨name,seen,_⟩ := traceless
        exact absurd (seen.symm.trans unseen) (by simp)

end Closing
section Records
variable {env : Env} {meets : State → Op → Prop} {pid fd : Int32} {s s' : State} {t : Nat}

theorem lostBy {a : Int32} (lost : (if itemOf s t a = none then some a else none) = some fd) :
    a = fd ∧ itemOf s t a = none := by
  split at lost
  · rename_i absent
    exact ⟨Option.some.inj lost,absent⟩
  · cases lost

def Harmless (env : Env) (fd : Int32) (op : Op) (s : State) : Prop :=
  Refuses env fd op.info s ∨ (∃ o, op = .close o) ∧ Traceless env fd op.info s

section Moves
variable {op : Op} {a : Int32} {recorded : Int64} (fix : env.fixMissing = true)
  (reached : Reached env meets pid s) (table : tableOf s op.info.pid = some t)
  (lost : (if itemOf s t a = none then some a else none) = some fd)
  (other : ∀ o, op ≠ .close o)
include fix reached table lost other

theorem lostMove {act : Nat → FdItem → Replay Unit} (stays : ∀ item, Staying (act t item))
    (ran : withItem env op.info.pid a op.info act s = .ok ((),s')) :
    Unchanged s s' ↔ Harmless env fd op s := by
  obtain ⟨rfl,absent⟩ := lostBy lost
  rw [Harmless,or_iff_left fun both => other _ both.1.choose_spec]
  exact (lostItem fix (reachedCounting reached).bounds table absent stays ran).unchanged absent

theorem lostTransfer {moves : Bool} {simulate : FdMap → SimProg Unit} {replay : Int32 → Call}
    (ran : replicateTransfer env a op.info recorded moves simulate replay s = .ok ((),s')) :
    Unchanged s s' ↔ Harmless env fd op s :=
  lostMove fix reached table lost other
    (fun item => transferStays recorded moves simulate replay item) ran

theorem lostSeek {seek : Int32 → Call} {pos : Int64 → Int64}
    (ran : replicateSeek env a op.info recorded seek pos s = .ok ((),s')) :
    Unchanged s s' ↔ Harmless env fd op s :=
  lostMove fix reached table lost other (fun item => seekStays recorded seek pos item) ran

end Moves

/-- A record on a descriptor its process's table does not have, whatever its result, leaves the
tracker alone exactly when the replayer is refused the file, or when it is a close whose made-up
file leaves no trace. -/
theorem lostUnchanged (fix : env.fixMissing = true) (real : env.sim.disk.Real)
    (reached : Reached env meets pid s) {op : Op} (table : tableOf s op.info.pid = some t)
    (lost : op.lost s t = some fd) (ran : replicateOp env op s = .ok ((),s')) :
    Unchanged s s' ↔ Harmless env fd op s := by
  have bounds := (reachedCounting reached).bounds
  cases op with
  | read o =>
    simp only [replicateOp,replicateRead] at ran
    exact lostTransfer fix reached table lost (fun _ => by simp) ran
  | write o =>
    simp only [replicateOp,replicateWrite] at ran
    exact lostTransfer fix reached table lost (fun _ => by simp) ran
  | pread o =>
    simp only [replicateOp,replicatePread] at ran
    exact lostTransfer fix reached table lost (fun _ => by simp) ran
  | pwrite o =>
    simp only [replicateOp,replicatePwrite] at ran
    exact lostTransfer fix reached table lost (fun _ => by simp) ran
  | lseek o =>
    simp only [replicateOp,replicateLseek] at ran
    exact lostSeek fix reached table lost (fun _ => by simp) ran
  | llseek o =>
    simp only [replicateOp,replicateLlseek] at ran
    exact lostSeek fix reached table lost (fun _ => by simp) ran
  | close o =>
    obtain ⟨rfl,absent⟩ := lostBy lost
    rw [Harmless,
      lostClose real (reachedKeyed real reached) fix (reachedCounting reached) table absent ran]
    exact or_congr_right (iff_and_self.mpr fun _ => ⟨o,rfl⟩)
  | sendfile o =>
    rw [Harmless,or_iff_left fun both => absurd both.1.choose_spec (by simp)]
    simp only [Op.lost] at lost
    split at lost
    · rename_i absent
      cases lost
      exact (lostOutput fix bounds table absent ran).unchanged absent
    · rename_i there
      obtain ⟨outItem,there⟩ := Option.ne_none_iff_exists'.mp there
      obtain ⟨rfl,absent⟩ := lostBy lost
      exact (lostInput fix bounds table there absent ran).unchanged absent
  | «open» | unlink | clone | mkdir | rmdir | dup | dup2 | dup3 | pipe | access | stat | socket =>
    cases lost

def Op.failed : Op → Prop
  | .read o => o.retval = -1
  | .write o => o.retval = -1
  | .pread o => o.retval = -1
  | .pwrite o => o.retval = -1
  | .lseek o => o.retval = -1
  | .llseek o => o.retval = -1
  | .close o => o.retval = -1
  | .sendfile o => o.retval = -1
  | _ => False

structure LostRun (op : Op) (s s' : State) : Prop where
  reached : Reached simulating anyOp 7 s
  table : tableOf s 7 = some 0
  lost : op.lost s 0 = some 5
  ran : replicateOp simulating op s = .ok ((),s')

theorem lostRunOf (op : Op) (ends : State → Bool) (made : ((initialised simulating 7).bind
    (runOps simulating anyOp [])).any (fun s => tableOf s 7 = some 0 && op.lost s 0 = some 5 &&
      (after simulating [op] s).any ends) = true) :
    ∃ s s', LostRun op s s' ∧ ends s' = true := by
  obtain ⟨s,first,checked⟩ := (Option.any_eq_true _ _).mp made
  simp only [Bool.and_eq_true,decide_eq_true_eq] at checked
  obtain ⟨⟨table,lost⟩,last⟩ := checked
  obtain ⟨s',ran,ended⟩ := (Option.any_eq_true _ _).mp last
  exact ⟨s,s',⟨.run first,table,lost,afterOne ran⟩,ended⟩

theorem simulatingReal : simulating.sim.disk.Real :=
  fun _ none => absurd none (by simp [simulating,plainEnv])

theorem lostUnchangedClose : ∃ s s', LostRun (.close ⟨5,-1,blankInfo 7⟩) s s' ∧ Unchanged s s' := by
  obtain ⟨s,s',run,_⟩ := lostRunOf (.close ⟨5,-1,blankInfo 7⟩) (fun _ => true) (by decide +kernel)
  have seen : ∃ name, namemapGetName simulating.namemap
      (missingOpen simulating 5 (blankInfo 7)).name = some name :=
    Option.isSome_iff_exists.mp (by decide +kernel)
  obtain ⟨name,seen⟩ := seen
  have traceless : Traceless simulating 5 (blankInfo 7) s :=
    ⟨name,seen,fun acts => absurd acts (by decide),fun _ _ checks => absurd checks (by decide)⟩
  refine ⟨s,s',run,?_⟩
  have exactly : Unchanged s s' ↔ Harmless simulating 5 (.close ⟨5,-1,blankInfo 7⟩) s :=
    lostUnchanged rfl simulatingReal run.reached run.table run.lost run.ran
  exact exactly.mpr (.inr ⟨⟨_,rfl⟩,traceless⟩)

theorem failedReadOpens : ¬ ∀ (env : Env) (pid : Int32) (s : State) (op : Op) (t : Nat) (fd : Int32)
    (s' : State), env.fixMissing = true → env.sim.disk.Real → Reached env anyOp pid s →
    tableOf s op.info.pid = some t → op.lost s t = some fd → 0 ≤ fd → op.failed →
    replicateOp env op s = .ok ((),s') → Unchanged s s' := by
  intro all
  obtain ⟨s,s',run,there⟩ := lostRunOf (.read ⟨5,4,-1,blankInfo 7⟩)
    (fun s => (itemOf s 0 5).isSome) (by decide +kernel)
  have unchanged := all simulating 7 s (.read ⟨5,4,-1,blankInfo 7⟩) 0 5 s' rfl simulatingReal
    run.reached run.table run.lost (by decide) rfl run.ran
  rw [unchanged.item,(lostBy run.lost).2] at there
  exact absurd there (by simp)

end Records
end IoApps
