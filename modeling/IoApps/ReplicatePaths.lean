import IoApps.ReplicateReach
import IoApps.SimfsCheck

/-! Which path an operation hands over: to the simulated file system when it is checked, to the
kernel when it is replayed. The operations are written once more over what they call, and the
path is what such a run asks for. -/
namespace IoApps
open Lib (Prog)

def FsOp.toOp : FsOp → Op
  | .access o => .access o
  | .stat o => .stat o
  | .mkdir o => .mkdir o
  | .creat o => .open o
  | .unlink o => .unlink o
  | .rmdir o => .rmdir o

def simulateCall (env : SimEnv) : FsOp → SimProg Unit
  | .access o => simulateAccess env o
  | .stat o => simulateStat env o
  | .mkdir o => simulateMkdir env o
  | .creat o => simulateCreat env o
  | .unlink o => simulateUnlink env o
  | .rmdir o => simulateRmdir env o

structure Io where
  kernel : Call → Replay Int64
  files : FsOp → Replay Unit

def Env.io (env : Env) : Io := ⟨call env,fun c => onSim (simulateCall env.sim c)⟩

section Via
variable (io : Io) (env : Env)

def replicateFailedOpenVia (op : OpenOp) : Replay Unit := do
  match namemapGetName env.namemap op.name with
  | none => pure ()
  | some name =>
    if env.actReplicate then do
      let retval := (← io.kernel (.open name 0 none)).toInt32
      if retval ≠ -1 then do
        let _ ← io.kernel (.close retval)
        pure ()
      else pure ()
    else if env.actSimulate then io.files (.creat { op with name := name })
    else pure ()

def simulateOpenedVia (op : OpenOp) (name : CName) (flags : Int32) : Replay Unit :=
  if env.actSimulate ∧ flags &&& O_IGNORE = 0 then io.files (.creat { op with name := name })
  else pure ()

def openedFdVia (op : OpenOp) (name : CName) (flags : Int32) : Replay Int32 :=
  if env.actReplicate ∧ flags &&& O_IGNORE = 0 then do
    let mode := if op.mode = MODE_UNDEF then none else some op.mode
    let answer ← io.kernel (.open name flags mode)
    pure answer.toInt32
  else do
    simulateOpenedVia io env op name flags
    simulateGetOpenFd

def replicateOpenVia (op : OpenOp) : Replay Unit := do
  let fd := op.retval
  if fd = -1 then replicateFailedOpenVia io env op
  else
    match ← processHt env op.info.pid with
    | none => pure ()
    | some t => do
      let (name,flags) := match namemapGetName env.namemap op.name with
        | none => (op.name,op.flags ||| O_IGNORE)
        | some name => (name,op.flags)
      match ← findItem t fd with
      | some _ => pure ()
      | none => do
        let retval ← openedFdVia io env op name flags
        if retval = -1 then pure ()
        else newItem t fd fd retval (openedMap env op name flags retval)

def replicatePathVia (name : CName) (replay : CName → Call) (simulate : CName → FsOp) :
    Replay Unit :=
  match namemapGetName env.namemap name with
  | none => pure ()
  | some name =>
    if env.actReplicate then do
      let _ ← io.kernel (replay name)
      pure ()
    else if env.actSimulate then io.files (simulate name)
    else pure ()

def replicateVia : FsOp → Replay Unit
  | .access o =>
    replicatePathVia io env o.name (.access · o.mode) fun name => .access { o with name := name }
  | .stat o => replicatePathVia io env o.name .stat fun name => .stat { o with name := name }
  | .mkdir o => replicatePathVia io env o.name (.mkdir · o.mode) fun _ => .mkdir o
  | .creat o => replicateOpenVia io env o
  | .unlink o => replicatePathVia io env o.name .unlink fun _ => .unlink o
  | .rmdir o => replicatePathVia io env o.name .rmdir fun _ => .rmdir o

end Via

theorem replicateViaSame (env : Env) (op : FsOp) :
    replicateVia env.io env op = replicateOp env op.toOp := by
  cases op with
  | access o | stat o | mkdir o | unlink o | rmdir o => rfl
  | creat o => rfl

inductive Asked where
  | kernel (c : Call)
  | files (c : FsOp)

def Call.path : Call → Option CName
  | .open name _ _ => some name
  | .unlink name => some name
  | .mkdir name _ => some name
  | .rmdir name => some name
  | .access name _ => some name
  | .stat name => some name
  | _ => none

def Asked.path : Asked → Option CName
  | .kernel c => c.path
  | .files c => some c.name

def Io.Alike (io io' : Io) : Prop := ∀ c, c.path = none → io.kernel c = io'.kernel c

def Io.Same (io io' : Io) : Asked → Prop
  | .kernel c => io.kernel c = io'.kernel c
  | .files c => io.files c = io'.files c

def Io.Stops (io : Io) (f : Fault) : Asked → Prop
  | .kernel c => io.kernel c = Prog.throw f
  | .files c => io.files c = Prog.throw f

/-- The path a run hands over, if any: it makes one call that names a path, and what it does
depends on no other such call. -/
inductive Handing {α : Type} (run : Io → Replay α) (s : State) : Option CName → Prop where
  | nothing (quiet : ∀ io io', io.Alike io' → run io s = run io' s) : Handing run s none
  | path {c : Asked} {name : CName} (named : c.path = some name)
      (only : ∀ io io', io.Alike io' → io.Same io' c → run io s = run io' s)
      (asks : ∀ io f, io.Stops f c → run io s = .error f) : Handing run s (some name)

section Handing
variable {α β : Type} {run : Io → Replay α} {s : State}

def Io.stopping (f : Fault) : Io :=
  ⟨fun c => if c.path = none then pure 0 else Prog.throw f,fun _ => Prog.throw f⟩

theorem stoppingStops (f : Fault) {c : Asked} {name : CName} (named : c.path = some name) :
    (Io.stopping f).Stops f c := by
  cases c with
  | kernel c =>
    have some : c.path ≠ none := by
      rw [show c.path = Option.some name from named]
      simp
    exact if_neg some
  | files c => rfl

theorem stoppingAlike (f g : Fault) : (Io.stopping f).Alike (Io.stopping g) := by
  intro c none
  simp only [Io.stopping,none,if_true]

theorem quietAsks (quiet : ∀ io io', io.Alike io' → run io s = run io' s) {c : Asked}
    {name : CName} (named : c.path = some name)
    (asks : ∀ io f, io.Stops f c → run io s = .error f) : False := by
  have first := asks _ _ (stoppingStops .noAction named)
  have second := asks _ _ (stoppingStops .nullTable named)
  rw [quiet _ _ (stoppingAlike .noAction .nullTable)] at first
  cases first.symm.trans second

open Classical in
theorem askedUnique {c c' : Asked} (asks : ∀ io f, io.Stops f c → run io s = .error f)
    (asks' : ∀ io f, io.Stops f c' → run io s = .error f) : c = c' := by
  by_contra different
  let io : Io := ⟨fun x => Prog.throw (if .kernel x = c then .noAction else .nullTable),
    fun x => Prog.throw (if .files x = c then .noAction else .nullTable)⟩
  have first : io.Stops .noAction c := by
    cases c with
    | kernel c => simp [io,Io.Stops]
    | files c => simp [io,Io.Stops]
  have second : io.Stops .nullTable c' := by
    cases c' with
    | kernel c' => simp [io,Io.Stops,Ne.symm different]
    | files c' => simp [io,Io.Stops,Ne.symm different]
  cases (asks _ _ first).symm.trans (asks' _ _ second)

theorem handingUnique {r r' : Option CName} (first : Handing run s r)
    (second : Handing run s r') : r = r' := by
  cases first with
  | nothing quiet =>
    cases second with
    | nothing => rfl
    | path named _ asks => exact (quietAsks quiet named asks).elim
  | path named _ asks =>
    cases second with
    | nothing quiet => exact (quietAsks quiet named asks).elim
    | path named' _ asks' =>
      rw [askedUnique asks asks'] at named
      exact named.symm.trans named'

theorem handingKernel {c : Call} {name : CName} (named : c.path = some name) :
    Handing (fun io => io.kernel c) s (some name) :=
  .path (c := .kernel c) named (fun _ _ _ same => congrFun same s)
    fun _ _ stops => congrFun stops s

theorem handingFiles (c : FsOp) : Handing (fun io => io.files c) s (some c.name) :=
  .path (c := .files c) rfl (fun _ _ _ same => congrFun same s)
    fun _ _ stops => congrFun stops s

theorem Handing.bind {r : Option CName} (handing : Handing run s r) {f : Io → α → Replay β}
    (quiet : ∀ io io', io.Alike io' → f io = f io') :
    Handing (fun io => run io >>= f io) s r := by
  cases handing with
  | nothing same =>
    refine .nothing fun io io' alike => ?_
    rw [Prog.bindRun,Prog.bindRun,same io io' alike,quiet io io' alike]
  | path named only asks =>
    refine .path named (fun io io' alike same => ?_) fun io f stops => ?_
    · rw [Prog.bindRun,Prog.bindRun,only io io' alike same,quiet io io' alike]
    · rw [Prog.bindRun,asks io f stops]

theorem Handing.after {m : Replay α} {f : Io → α → Replay β} {r : Option CName} {a : α}
    {t : State} (ran : m s = .ok (a,t)) (rest : Handing (fun io => f io a) t r) :
    Handing (fun io => m >>= f io) s r := by
  have same (io : Io) : (m >>= f io) s = f io a t := Prog.bindOf ran
  cases rest with
  | nothing quiet =>
    refine .nothing fun io io' alike => ?_
    rw [same,same,quiet io io' alike]
  | path named only asks =>
    refine .path named (fun io io' alike here => ?_) fun io f stops => ?_
    · rw [same,same,only io io' alike here]
    · rw [same,asks io f stops]

theorem handingStopped {m : Replay α} {f : Io → α → Replay β} {e : Fault}
    (ran : m s = .error e) : Handing (fun io => m >>= f io) s none := by
  refine .nothing fun io io' _ => ?_
  rw [Prog.bindRun,Prog.bindRun,ran]

theorem handingNothing (m : Replay α) : Handing (fun _ => m) s none := .nothing fun _ _ _ => rfl

end Handing

def Env.checked (env : Env) : Env := { env with actSimulate := true, actReplicate := false }
def Env.replayed (env : Env) : Env := { env with actSimulate := false, actReplicate := true }

/-- In the same state both runs hand over the same path: the mapped one, and none for a file
that is ignored. -/
def SamePath (env : Env) (op : FsOp) (s : State) : Prop :=
  ∃ r, Handing (fun io => replicateVia io env.checked op) s r ∧
    Handing (fun io => replicateVia io env.replayed op) s r ∧
    ∀ name, r = some name → namemapGetName env.namemap op.name = some name

section Paths
variable {env : Env} {s : State}

theorem pathHanding (env : Env) (s : State) (name : CName) {replay : CName → Call}
    (simulate : CName → FsOp) (names : ∀ n, (replay n).path = some n) :
    Handing (fun io => replicatePathVia io env.checked name replay simulate) s
        ((namemapGetName env.namemap name).map fun n => (simulate n).name) ∧
      Handing (fun io => replicatePathVia io env.replayed name replay simulate) s
        (namemapGetName env.namemap name) := by
  unfold replicatePathVia
  simp only [Env.checked,Env.replayed]
  cases namemapGetName env.namemap name with
  | none => exact ⟨handingNothing _,handingNothing _⟩
  | some n => exact ⟨handingFiles _,(handingKernel (names n)).bind fun _ _ _ => rfl⟩

theorem failedOpenHanding (env : Env) (s : State) (op : OpenOp) :
    Handing (fun io => replicateFailedOpenVia io env.checked op) s
        (namemapGetName env.namemap op.name) ∧
      Handing (fun io => replicateFailedOpenVia io env.replayed op) s
        (namemapGetName env.namemap op.name) := by
  unfold replicateFailedOpenVia
  simp only [Env.checked,Env.replayed]
  cases namemapGetName env.namemap op.name with
  | none => exact ⟨handingNothing _,handingNothing _⟩
  | some n =>
    refine ⟨handingFiles (.creat { op with name := n }),(handingKernel rfl).bind ?_⟩
    intro io io' alike
    funext answer
    simp only [alike (.close answer.toInt32) rfl]

theorem openedFdHanding (env : Env) (s : State) (op : OpenOp) (name : CName) (flags : Int32) :
    Handing (fun io => openedFdVia io env.checked op name flags) s
        (if flags &&& O_IGNORE = 0 then some name else none) ∧
      Handing (fun io => openedFdVia io env.replayed op name flags) s
        (if flags &&& O_IGNORE = 0 then some name else none) := by
  unfold openedFdVia simulateOpenedVia
  by_cases seen : flags &&& O_IGNORE = 0
  · simp only [Env.checked,Env.replayed,seen,and_self,and_true,if_true,Bool.false_eq_true,
      if_false]
    exact ⟨(handingFiles (.creat { op with name := name })).bind fun _ _ _ => rfl,
      (handingKernel rfl).bind fun _ _ _ => rfl⟩
  · simp only [Env.checked,Env.replayed,seen,and_false,if_false]
    exact ⟨handingNothing _,handingNothing _⟩

theorem openItemHanding (env : Env) (s : State) (op : OpenOp) (t : Nat) (name : CName)
    (flags : Int32) : ∃ r,
    Handing (fun io => findItem t op.retval >>= fun found =>
      match found with
      | some _ => pure ()
      | none => openedFdVia io env.checked op name flags >>= fun retval =>
        if retval = -1 then pure ()
        else newItem t op.retval op.retval retval
          (openedMap env.checked op name flags retval)) s r ∧
      Handing (fun io => findItem t op.retval >>= fun found =>
        match found with
        | some _ => pure ()
        | none => openedFdVia io env.replayed op name flags >>= fun retval =>
          if retval = -1 then pure ()
          else newItem t op.retval op.retval retval
            (openedMap env.replayed op name flags retval)) s r ∧
      ∀ n, r = some n → flags &&& O_IGNORE = 0 ∧ n = name := by
  cases item : findItem t op.retval s with
  | error e => exact ⟨none,handingStopped item,handingStopped item,by simp⟩
  | ok found =>
    obtain ⟨found,s'⟩ := found
    cases found with
    | some i =>
      exact ⟨none,.after item (handingNothing _),.after item (handingNothing _),by simp⟩
    | none =>
      obtain ⟨check,replay⟩ := openedFdHanding env s' op name flags
      refine ⟨_,.after item (check.bind fun _ _ _ => rfl),
        .after item (replay.bind fun _ _ _ => rfl),fun n same => ?_⟩
      split at same
      · exact ⟨‹_›,(Option.some.inj same).symm⟩
      · cases same

theorem openHanding (op : OpenOp) : SamePath env (.creat op) s := by
  unfold SamePath replicateVia replicateOpenVia
  by_cases failed : op.retval = -1
  · simp only [failed,if_true]
    obtain ⟨check,replay⟩ := failedOpenHanding env s op
    exact ⟨_,check,replay,fun _ same => same⟩
  · simp only [failed,if_false]
    have lookup (e : Env) (same : e.fixMissing = env.fixMissing)
        (again : e.garbage = env.garbage) :
        processHt e op.info.pid = processHt env op.info.pid := by
      unfold processHt replicateMissingHt
      rw [same,again]
    rw [lookup env.checked rfl rfl,lookup env.replayed rfl rfl]
    cases table : processHt env op.info.pid s with
    | error e => exact ⟨none,handingStopped table,handingStopped table,by simp⟩
    | ok found =>
      obtain ⟨t,s'⟩ := found
      cases t with
      | none =>
        exact ⟨none,.after table (handingNothing _),.after table (handingNothing _),by simp⟩
      | some t =>
        simp only [Env.checked,Env.replayed,FsOp.name]
        cases mapped : namemapGetName env.namemap op.name with
        | none =>
          obtain ⟨r,check,replay,named⟩ := openItemHanding env s' op t op.name
            (op.flags ||| O_IGNORE)
          refine ⟨r,.after table check,.after table replay,fun n same => ?_⟩
          exact absurd (named n same).1 (ignoreFlag _)
        | some name =>
          obtain ⟨r,check,replay,named⟩ := openItemHanding env s' op t name op.flags
          refine ⟨r,.after table check,.after table replay,fun n same => ?_⟩
          rw [(named n same).2]

/-- The mapping leaves the name of an unlink, mkdir or rmdir as it is, or the file is ignored. -/
def KeepsName (env : Env) : FsOp → Prop
  | .unlink o => ∀ name, namemapGetName env.namemap o.name = some name → name = o.name
  | .mkdir o => ∀ name, namemapGetName env.namemap o.name = some name → name = o.name
  | .rmdir o => ∀ name, namemapGetName env.namemap o.name = some name → name = o.name
  | _ => True

theorem mappedPath {op : FsOp} {replay : CName → Call} {simulate : CName → FsOp}
    (same : ∀ io e, replicateVia io e op = replicatePathVia io e op.name replay simulate)
    (names : ∀ n, (replay n).path = some n) (keeps : ∀ n, (simulate n).name = n) :
    SamePath env op s := by
  obtain ⟨check,replay⟩ := pathHanding env s op.name simulate names
  have whole : (namemapGetName env.namemap op.name).map (fun n => (simulate n).name) =
      namemapGetName env.namemap op.name := by
    simp only [keeps,Option.map_id']
  rw [whole] at check
  simp only [SamePath,same]
  exact ⟨_,check,replay,fun _ named => named⟩

theorem recordedPath {op : FsOp} {replay : CName → Call}
    (same : ∀ io e, replicateVia io e op = replicatePathVia io e op.name replay fun _ => op)
    (names : ∀ n, (replay n).path = some n) : SamePath env op s ↔
      ∀ name, namemapGetName env.namemap op.name = some name → name = op.name := by
  obtain ⟨check,replay⟩ := pathHanding env s op.name (fun _ => op) names
  simp only [SamePath,same]
  constructor
  · intro agree name mapped
    obtain ⟨r,first,second,_⟩ := agree
    have one := handingUnique first check
    have two := handingUnique second replay
    rw [mapped] at one two
    exact Option.some.inj (two.symm.trans one)
  · intro keeps
    refine ⟨_,?_,replay,fun _ named => named⟩
    cases mapped : namemapGetName env.namemap op.name with
    | none =>
      rw [mapped] at check
      exact check
    | some name =>
      rw [mapped] at check
      rw [keeps name mapped]
      exact check

/-- Check mode and replay act on the same path exactly when the name of an unlink, mkdir or
rmdir is not mapped to another one. -/
theorem pathsAgree (env : Env) (op : FsOp) (s : State) :
    SamePath env op s ↔ KeepsName env op := by
  cases op with
  | access o =>
    exact iff_of_true (mappedPath (fun _ _ => rfl) (fun _ => rfl) fun _ => rfl) trivial
  | stat o => exact iff_of_true (mappedPath (fun _ _ => rfl) (fun _ => rfl) fun _ => rfl) trivial
  | creat o => exact iff_of_true (openHanding o) trivial
  | mkdir o => exact recordedPath (fun _ _ => rfl) fun _ => rfl
  | unlink o => exact recordedPath (fun _ _ => rfl) fun _ => rfl
  | rmdir o => exact recordedPath (fun _ _ => rfl) fun _ => rfl

def mapAB : Namemap :=
  { namemapEmpty with
    map := ((HashTable.init HASH_TABLE_SIZE).insert htOpsNamemap pathA.name
      ⟨pathA.name,pathB.name⟩).getD (.init HASH_TABLE_SIZE) }

theorem unlinkUnmapped : ¬ ∀ (env : Env) (op : FsOp) (s : State), SamePath env op s := by
  intro all
  have mapped : namemapGetName mapAB pathA.name = some pathB.name := by decide
  have agree := all { simulating with namemap := mapAB } (.unlink ⟨pathA.name,0,noInfo⟩)
    State.start
  have kept := (recordedPath (fun _ _ => rfl) fun _ => rfl).mp agree _ mapped
  exact absurd kept (by decide)

end Paths
end IoApps
