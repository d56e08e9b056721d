import IoApps.ReplicatePaths
import IoApps.ReplicateUsage

/-! What the replayer asks the kernel for. Ignored files are recognised by the recorded path, the
calls are made with the mapped one; a descriptor of an ignored file is a placeholder, and those
stay out of the calls. -/
namespace IoApps
open Lib (Arena Prog)

section Calls
variable {env : Env} {ok : Allowed} {s s' : State}

def Device.path : Device → CName
  | .null => stdName "/dev/null"
  | .zero => stdName "/dev/zero"

def Call.names : Call → Option CName
  | .openDevice device => some device.path
  | c => c.path

inductive Issued (env : Env) (s : State) : Call → Prop where
  | quiet {c : Call} (traced : Traced env s c) : Issued env s c
  | opened {name flags mode} (mapped : Mapped env name) : Issued env s (.open name flags mode)
  | closed {fd : Int32} (behind : Behind s fd) : Issued env s (.close fd)
  | undone {log name flags mode} :
      Issued env s (.close (env.kernel log (.open name flags mode)).toInt32)

theorem releaseLog {m : FdMap} {a : Nat} (live : s.fdMaps.read a = some m)
    (release : Release env s m s') :
    ∀ entry ∈ s'.log, entry ∈ s.log ∨ Issued env s entry.1 := by
  intro entry member
  cases release with
  | untracked => exact .inl member
  | kept => exact .inl member
  | simulated => exact .inl member
  | closed supported =>
    cases List.mem_cons.mp member with
    | inl new => exact .inr (new ▸ .closed (behindMap live supported))
    | inr old => exact .inl old

theorem logEdit (edit : Edit env ok s s') :
    ∀ entry ∈ s'.log, entry ∈ s.log ∨ Issued env s entry.1 := by
  intro entry member
  cases edit with
  | simmed | openNumber | seeked | tableAdded | linked | aliased => exact .inl member
  | logged c quiet traced =>
    cases List.mem_cons.mp member with
    | inl new => exact .inr (new ▸ .quiet traced)
    | inr old => exact .inl old
  | openFailed failed mapped =>
    cases List.mem_cons.mp member with
    | inl new => exact .inr (new ▸ .opened mapped)
    | inr old => exact .inl old
  | probed opened mapped =>
    rcases List.mem_cons.mp member with last | earlier
    · exact .inr (last ▸ .undone)
    · cases List.mem_cons.mp earlier with
      | inl new => exact .inr (new ▸ .opened mapped)
      | inr old => exact .inl old
  | placed origin parents put =>
    rw [putLog put] at member
    cases origin with
    | replayed acts answered valid mine supported named mapped =>
      cases List.mem_cons.mp member with
      | inl new => exact .inr (new ▸ .opened mapped)
      | inr old => exact .inl old
    | placeholder => exact .inl member
    | socket => exact .inl member
    | pipe => exact .inl member
  | copied copies there live put =>
    rw [putLog put] at member
    exact .inl member
  | closed table found live release => exact releaseLog live release entry member
  | closeFailed there live supported =>
    cases List.mem_cons.mp member with
    | inl new => exact .inr (new ▸ .closed (behindMap live supported))
    | inr old => exact .inl old

end Calls

section Avoiding
variable {env : Env} {s s' : State}

def Given (s : State) (n : Int32) : Prop := 1000 ≤ n.toInt ∧ n.toInt ≤ s.openFd.toInt

def Shunned (env : Env) (m : FdMap) : Prop :=
  (m.type = .reg ∨ m.type = .dir ∨ m.type = .ignore) ∧ namemapGetName env.namemap m.name = none

/-- The kernel has been asked for no ignored path, nor has it been given the number of an ignored
file, which is one that stands in for a descriptor. -/
structure Avoids (env : Env) (s : State) : Prop where
  paths : ∀ entry ∈ s.log, ∀ path ∈ entry.1.names, (namemapGetName env.namemap path).isSome
  numbers : ∀ entry ∈ s.log, ∀ n ∈ entry.1.descriptors, ¬ Given s n
  shunned : ∀ a m, s.fdMaps.read a = some m → Shunned env m → Given s m.myFd

/-- No path is mapped to an ignored one, and the devices the replayer opens are not ignored. -/
structure Namemap.Clear (nm : Namemap) : Prop where
  targets : ∀ recorded name,
    namemapGetName nm recorded = some name → (namemapGetName nm name).isSome
  devices : ∀ device : Device, (namemapGetName nm device.path).isSome

def LowAnswers (env : Env) : Prop :=
  (∀ log name flags mode, (env.kernel log (.open name flags mode)).toInt32.toInt < 1000) ∧
    ∀ log device, (env.kernel log (.openDevice device)).toInt32.toInt < 1000

/-- The invariant: what is named is not ignored, what is passed is a descriptor, and the numbers
of ignored files are not. -/
structure Guarded (env : Env) (s : State) : Prop where
  paths : ∀ entry ∈ s.log, ∀ path ∈ entry.1.names, (namemapGetName env.namemap path).isSome
  passed : ∀ entry ∈ s.log, ∀ n ∈ entry.1.descriptors, n.toInt < 1000
  behind : ∀ n, Behind s n → n.toInt < 1000
  shunned : ∀ a m, s.fdMaps.read a = some m → Shunned env m → Given s m.myFd

theorem Guarded.avoids (guarded : Guarded env s) : Avoids env s where
  paths := guarded.paths
  numbers := by
    intro entry member n passed given
    have low := guarded.passed entry member n passed
    have high := given.1
    omega
  shunned := guarded.shunned

theorem Given.later {ok : Allowed} {n : Int32} (edit : Edit env ok s s') (given : Given s n) :
    Given s' n := by
  obtain ⟨low,high⟩ := given
  refine ⟨low,?_⟩
  rcases (settledEdit edit).2 with same | up
  · rw [same]
    exact high
  · have next := countUpInt up
    omega

theorem Shunned.alike {m m' : FdMap} (alike : Alike m m') (shunned : Shunned env m') :
    Shunned env m := by
  obtain ⟨type,ignored⟩ := shunned
  exact ⟨alike.type ▸ type,alike.name ▸ ignored⟩

variable {ok : Allowed} {counted : Int32} {m : FdMap}

theorem Issued.guarded (clear : env.namemap.Clear) (low : LowAnswers env)
    (guarded : Guarded env s) {c : Call} (issued : Issued env s c) :
    (∀ path ∈ c.names, (namemapGetName env.namemap path).isSome) ∧
      ∀ n ∈ c.descriptors, n.toInt < 1000 := by
  have kept {name : CName} (mapped : Mapped env name) :
      ∀ path ∈ some name, (namemapGetName env.namemap path).isSome := by
    intro path same
    cases same
    obtain ⟨recorded,got⟩ := mapped
    exact clear.targets recorded name got
  cases issued with
  | opened mapped => exact ⟨kept mapped,fun n member => absurd member List.not_mem_nil⟩
  | closed behind =>
    refine ⟨fun path none => absurd none (by simp [Call.names,Call.path]),fun n member => ?_⟩
    cases List.mem_singleton.mp member
    exact guarded.behind _ behind
  | undone =>
    refine ⟨fun path none => absurd none (by simp [Call.names,Call.path]),fun n member => ?_⟩
    cases List.mem_singleton.mp member
    exact low.1 _ _ _ _
  | quiet traced =>
    cases c with
    | «open» | openDevice | close => exact traced.elim
    | unlink | mkdir | rmdir | access | stat =>
      exact ⟨kept traced,fun n member => absurd member List.not_mem_nil⟩
    | read | write | pread | pwrite | lseek =>
      refine ⟨fun path none => absurd none (by simp [Call.names,Call.path]),fun n member => ?_⟩
      cases List.mem_singleton.mp member
      exact guarded.behind _ traced
    | sendfile outFd inFd =>
      refine ⟨fun path none => absurd none (by simp [Call.names,Call.path]),fun n member => ?_⟩
      rcases List.mem_cons.mp member with rfl | other
      · exact guarded.behind _ traced.1
      · cases List.mem_singleton.mp other
        exact guarded.behind _ traced.2

theorem Origin.guarded (acts : env.actReplicate = true) (clear : env.namemap.Clear)
    (low : LowAnswers env) (bounds : Bounds s) (origin : Origin env ok s counted m s') :
    (supportedType m.type = true → m.myFd.toInt < 1000) ∧
      (Shunned env m → Given s' m.myFd) := by
  cases origin with
  | replayed _ answered valid mine supported named mapped =>
    refine ⟨fun _ => ?_,fun shunned => ?_⟩
    · rw [mine,← answered]
      exact low.1 _ _ _ _
    · obtain ⟨recorded,got⟩ := mapped
      have kept := clear.targets recorded _ got
      rw [← named,shunned.2] at kept
      exact absurd kept (by simp)
  | placeholder up mine replaying =>
    refine ⟨fun supported => absurd supported (by rw [replaying acts]; simp),fun _ => ?_⟩
    have next := countUpInt up
    have bound := bounds.openFd
    rw [mine]
    exact ⟨by omega,Int.le_refl _⟩
  | socket down mine unsupported other =>
    refine ⟨fun supported => absurd supported (by rw [unsupported]; simp),fun shunned => ?_⟩
    rcases shunned.1 with reg | dir | ignore
    · rw [reg] at unsupported
      exact absurd unsupported (by decide)
    · rw [dir] at unsupported
      exact absurd unsupported (by decide)
    · exact absurd ignore other
  | pipe ended down unsupported other =>
    refine ⟨fun supported => absurd supported (by rw [unsupported]; simp),fun shunned => ?_⟩
    rcases shunned.1 with reg | dir | ignore
    · rw [reg] at unsupported
      exact absurd unsupported (by decide)
    · rw [dir] at unsupported
      exact absurd unsupported (by decide)
    · exact absurd ignore other

theorem guardedEdit (acts : env.actReplicate = true) (clear : env.namemap.Clear)
    (low : LowAnswers env) (edit : Edit env ok s s') (bounds : Bounds s)
    (guarded : Guarded env s) : Guarded env s' where
  paths := by
    intro entry member
    rcases logEdit edit entry member with old | new
    · exact guarded.paths entry old
    · exact (new.guarded clear low guarded).1
  passed := by
    intro entry member
    rcases logEdit edit entry member with old | new
    · exact guarded.passed entry old
    · exact (new.guarded clear low guarded).2
  behind := by
    intro n behind
    obtain ⟨settled,_⟩ := settledEdit edit
    rcases behind with null | zero | ⟨a,m',live,supported,mine⟩
    · exact guarded.behind n (.inl (null.trans settled.devnull))
    · exact guarded.behind n (.inr (.inl (zero.trans settled.devzero)))
    · rcases mapsEdit edit live with ⟨b,m,old,alike⟩ | ⟨counted,s₁,origin,_⟩
      · refine guarded.behind n (.inr (.inr ⟨b,m,old,?_,alike.mine.symm.trans mine⟩))
        rw [← alike.type]
        exact supported
      · rw [← mine]
        exact (origin.guarded acts clear low bounds).1 supported
  shunned := by
    intro a m' live shunned
    rcases mapsEdit edit live with ⟨b,m,old,alike⟩ | ⟨counted,s₁,origin,same⟩
    · rw [alike.mine]
      exact (guarded.shunned b m old (shunned.alike alike)).later edit
    · obtain ⟨least,most⟩ := (origin.guarded acts clear low bounds).2 shunned
      exact ⟨least,same ▸ most⟩

theorem Began.guarded {pid : Int32} (clear : env.namemap.Clear) (low : LowAnswers env)
    (began : Began env pid s) : Guarded env s := by
  obtain ⟨mappings,_,b,c,d,stdin,stdout,stderr,_,rfl,put₀,put₁,put₂,one,two,three,devnull,devzero,
    ⟨_,null,zero⟩,rfl⟩ := began.puts
  have log : d.log = [] := by
    rw [putLog put₂,putLog put₁,putLog put₀]
    rfl
  have standard : ∀ a m, d.fdMaps.read a = some m → m.type = .spec := by
    intro a m live
    rcases putMaps put₂ live with same | live
    · exact same ▸ three.type
    · rcases putMaps put₁ live with same | live
      · exact same ▸ two.type
      · rcases putMaps put₀ live with same | live
        · exact same ▸ one.type
        · simp [firstTable,State.start,Arena.read] at live
  refine ⟨?_,?_,?_,?_⟩
  · intro entry member path named
    simp only [State.logged,log,List.mem_cons,List.not_mem_nil,or_false] at member
    rcases member with rfl | rfl
    · cases named
      exact clear.devices .zero
    · cases named
      exact clear.devices .null
  · intro entry member n passed
    simp only [State.logged,log,List.mem_cons,List.not_mem_nil,or_false] at member
    rcases member with rfl | rfl
    · exact absurd passed List.not_mem_nil
    · exact absurd passed List.not_mem_nil
  · intro n behind
    rcases behind with isNull | isZero | ⟨a,m,live,supported,_⟩
    · obtain ⟨log,device,answer⟩ := null
      rw [isNull,← answer]
      exact low.2 log device
    · obtain ⟨log,device,answer⟩ := zero
      rw [isZero,← answer]
      exact low.2 log device
    · rw [standard a m live] at supported
      exact absurd supported (by decide)
  · intro a m live shunned
    have spec := standard a m live
    rcases shunned.1 with reg | dir | ignore
    · exact absurd (spec.symm.trans reg) (by decide)
    · exact absurd (spec.symm.trans dir) (by decide)
    · exact absurd (spec.symm.trans ignore) (by decide)

end Avoiding

section Ignoring

def under (nm : Namemap) : Env := { plainEnv true true fun _ _ => 3 with namemap := nm }

theorem underLow (nm : Namemap) : LowAnswers (under nm) :=
  ⟨fun _ _ _ _ => (by decide : (3 : Int32).toInt < 1000),
    fun _ _ => (by decide : (3 : Int32).toInt < 1000)⟩

theorem underBegins (nm : Namemap) : ∃ s, initialised (under nm) 7 = some s := by
  have same : initialised (under nm) 7 = initialised (under namemapEmpty) 7 := by
    unfold initialised replicateInit call stdMap
    rfl
  rw [same]
  exact Option.isSome_iff_exists.mp (by decide +kernel)

theorem avoidedClear {nm : Namemap}
    (avoids : ∀ s, Reached (under nm) anyOp 7 s → Avoids (under nm) s) : nm.Clear := by
  obtain ⟨s,began⟩ := underBegins nm
  constructor
  · intro recorded name got
    have ran : replicateOp (under nm) (.unlink ⟨recorded,0,blankInfo 7⟩) s =
        .ok ((),s.logged (under nm) (.unlink name)) := by
      simp only [replicateOp,replicateUnlink,replicatePath]
      rw [show namemapGetName (under nm).namemap recorded = some name from got]
      rfl
    exact (avoids _ (.step (.init began) trivial ran)).paths _ List.mem_cons_self name rfl
  · intro device
    have first := avoids s (.init began)
    obtain ⟨mappings,_,b,c,d,_,_,_,_,_,_,_,_,_,_,_,_,_,_,rfl⟩ := (initBegan began).puts
    cases device with
    | zero => exact first.paths _ List.mem_cons_self _ rfl
    | null => exact first.paths _ (List.mem_cons_of_mem _ List.mem_cons_self) _ rfl

theorem reachedGuarded {env : Env} {pid : Int32} {s : State} (acts : env.actReplicate = true)
    (clear : env.namemap.Clear) (low : LowAnswers env) (reached : Reached env anyOp pid s) :
    Guarded env s := by
  have inv : Bounds s ∧ Guarded env s := reached.keeps .any (fun s => Bounds s ∧ Guarded env s)
    (fun _ began => ⟨began.bounds,began.guarded clear low⟩) (fun s op _ _ => anyPermits env s op)
    fun _ _ edit both =>
      ⟨boundsEdit edit both.1,guardedEdit acts clear low edit both.1 both.2⟩
  exact inv.2

/-- The calls avoid the ignored files of every trace exactly when no path is mapped to an ignored
one and the two devices are not ignored. -/
theorem ignoredAvoided (nm : Namemap) : (∀ env pid s, env.namemap = nm →
    env.actReplicate = true → LowAnswers env → Reached env anyOp pid s → Avoids env s) ↔
      nm.Clear := by
  constructor
  · intro all
    exact avoidedClear fun s reached => all (under nm) 7 s rfl rfl (underLow nm) reached
  · intro clear env pid s same acts low reached
    subst same
    exact (reachedGuarded acts clear low reached).avoids

def ignoredB : Namemap :=
  { mapAB with
    igns := [pathB.name], fnmatch := fun item name => if item = name then 0 else FNM_NOMATCH }

theorem mappedToIgnored : ¬ ∀ env pid s, env.actReplicate = true → LowAnswers env →
    Reached env anyOp pid s → Avoids env s := by
  intro all
  have clear : ignoredB.Clear :=
    avoidedClear fun s reached => all (under ignoredB) 7 s rfl (underLow _) reached
  have got : namemapGetName ignoredB pathA.name = some pathB.name := by decide
  have kept := clear.targets _ _ got
  exact absurd kept (by decide)

end Ignoring
end IoApps
