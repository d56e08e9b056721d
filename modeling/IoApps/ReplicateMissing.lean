import IoApps.ReplicateIgnored
import IoApps.ReplicateOffsets
import IoApps.ReplicateSim

/-! What the replicator does for a descriptor its tables do not have: it opens a file under a name
of its own, and a close of that descriptor takes the item back. -/
namespace IoApps
open Lib (Arena Prog)

section Counting
variable {env : Env} {meets : State → Op → Prop} {pid : Int32} {s s' : State}

structure Counting (s : State) : Prop where
  usage : Positive s.usageMap
  bounds : Bounds s

theorem Release.positive {m : FdMap} (release : Release env s m s') (usage : Positive s.usageMap) :
    Positive s'.usageMap := by
  cases release with
  | untracked => exact usage
  | kept supported used => exact decreasePositive usage used
  | simulated supported used => exact decreasePositive usage used
  | closed supported used => exact decreasePositive usage used

theorem positiveEdit {ok : Allowed} (edit : Edit env ok s s') (usage : Positive s.usageMap) :
    Positive s'.usageMap := by
  cases edit with
  | logged | openFailed | probed | simmed | openNumber | seeked | tableAdded | linked => exact usage
  | placed origin parents put =>
    obtain ⟨_,_,used⟩ := put
    exact increasePositive (origin.usage.symm ▸ usage) used
  | copied copies there live put =>
    obtain ⟨_,_,used⟩ := put
    exact increasePositive usage used
  | closed table found live release => exact release.positive usage
  | closeFailed there live supported used => exact decreasePositive usage used
  | aliased careful live stored valid table inserted used => exact increasePositive usage used

theorem Began.positive (began : Began env pid s) : Positive s.usageMap := by
  obtain ⟨mappings,_,b,c,d,_,_,_,_,rfl,put₀,put₁,put₂,_,_,_,_,_,_,rfl⟩ := began.puts
  obtain ⟨_,_,used₀⟩ := put₀
  obtain ⟨_,_,used₁⟩ := put₁
  obtain ⟨_,_,used₂⟩ := put₂
  exact increasePositive (increasePositive (increasePositive (positiveInit _) used₀) used₁) used₂

theorem reachedCounting (reached : Reached env meets pid s) : Counting s :=
  reached.keeps .any Counting (fun _ began => ⟨began.positive,began.bounds⟩)
    (fun s op _ _ => anyPermits env s op)
    fun _ _ edit counting => ⟨positiveEdit edit counting.usage,boundsEdit edit counting.bounds⟩

end Counting
section Missing
variable (env : Env)

def missingOpen (fd : Int32) (info : OpInfo) : OpenOp :=
  ⟨replicateGetMissingName info.pid fd,O_RDWR,env.garbage.mode,fd,
    { env.garbage.info with pid := info.pid, start := info.start }⟩

def missingCall (name : CName) : Call :=
  .open name O_RDWR (if env.garbage.mode = MODE_UNDEF then none else some env.garbage.mode)

def missingSim (fd : Int32) (info : OpInfo) (name : CName) : SimProg Unit :=
  if env.actSimulate then simulateCreat env.sim { missingOpen env fd info with name := name }
  else pure ()

inductive Numbered (fd : Int32) (info : OpInfo) (s : State) : Int32 → FileType → State → Prop where
  | replayed {name : CName} (seen : namemapGetName env.namemap (missingOpen env fd info).name =
        some name) (acts : env.actReplicate = true)
      (answered : s.answer env (missingCall env name) ≠ -1) :
      Numbered fd info s (s.answer env (missingCall env name)) .reg
        (s.logged env (missingCall env name))
  | simulated {name : CName} {sim : Sim} {n : Int32}
      (seen : namemapGetName env.namemap (missingOpen env fd info).name = some name)
      (idle : env.actReplicate = false) (creates : missingSim env fd info name s.sim = .ok ((),sim))
      (up : countUp s.openFd = .ok n) :
      Numbered fd info s n .reg { s with sim := sim, openFd := n }
  | ignored {n : Int32}
      (unseen : namemapGetName env.namemap (missingOpen env fd info).name = none)
      (up : countUp s.openFd = .ok n) : Numbered fd info s n .ignore { s with openFd := n }

structure Supplied (t : Nat) (fd : Int32) (info : OpInfo) (s : State) (n : Int32)
    (type : FileType) (m : FdMap) (s₁ s' : State) : Prop where
  numbered : Numbered env fd info s n type s₁
  mine : m.myFd = n
  typed : m.type = type
  parents : Parents m [fd]
  put : Put s₁ t fd fd n m s'

def Refuses (fd : Int32) (info : OpInfo) (s : State) : Prop :=
  ∃ name, namemapGetName env.namemap (missingOpen env fd info).name = some name ∧
    env.actReplicate = true ∧ s.answer env (missingCall env name) = -1

variable {env} {fd : Int32} {info : OpInfo} {s s' : State} {t : Nat} {r : Option FdItem}

theorem findItemRan {s : State} {t : Nat} {fd : Int32} {r : Option FdItem} {s' : State}
    (ran : findItem t fd s = .ok (r,s')) : s' = s ∧ fd ≠ -1 ∧ r = itemOf s t fd := by
  obtain ⟨h,s₁,read,keyed⟩ := Prog.bindOk.mp ran
  rw [readTable,Prog.bindOf (Prog.getRun s)] at read
  cases table : s.tables[t]? with
  | none =>
    rw [table] at read
    cases read
  | some g =>
    rw [table] at read
    cases read
    cases first : h.find htOpsFdItem fd with
    | none =>
      rw [first] at keyed
      cases keyed
    | some q =>
      rw [first] at keyed
      cases keyed
      refine ⟨rfl,findValid first,?_⟩
      rw [itemOf,table,Option.bind_some,first,Option.join_some]

theorem itemOfPut {k n : Int32} {m : FdMap} (put : Put s t k k n m s')
    (absent : itemOf s t k = none) : itemOf s' t k = some ⟨s.nextItem,k,s.fdMaps.fresh⟩ := by
  obtain ⟨table,inserted,_⟩ := put
  have inside := (List.getElem?_eq_some_iff.mp table).1
  have first := HashTable.findInsert (by simp [htOpsFdItem]) inserted
  rw [itemOf,table,Option.bind_some] at absent
  rw [absent,Option.none_or] at first
  rw [itemOf,List.getElem?_set_self inside,Option.bind_some,first,Option.join_some]

theorem openNumbered {n : Int32} (bounds : Bounds s) (up : countUp s.openFd = .ok n) : n ≠ -1 := by
  intro minus
  have next := countUpInt up
  have low := bounds.openFd
  rw [minus] at next
  have value : (-1 : Int32).toInt = -1 := rfl
  omega

theorem suppliedOf {m : FdMap} {n : Int32} {s₁ : State} {type : FileType} (valid : fd ≠ -1)
    (bare : Parents m []) (mine : m.myFd = n) (typed : m.type = type)
    (numbered : Numbered env fd info s n type s₁)
    (ran : newItem t fd fd n m s₁ = .ok ((),s')) :
    ∃ m', Supplied env t fd info s n type m' s₁ s' := by
  rcases newItemRun t fd n bare valid s₁ with ⟨m',s₂,stored,put,done⟩ | ⟨f,_,stops⟩
  · cases done.symm.trans ran
    obtain ⟨parents,same,type',_⟩ := firstParent bare valid stored
    exact ⟨m',numbered,same.trans mine,type'.trans typed,parents,put⟩
  · cases stops.symm.trans ran

theorem openAbsent (env : Env) (o : OpenOp) {name : CName} {flags : Int32}
    (table : tableOf s o.info.pid = some t) (absent : itemOf s t o.retval = none)
    (asked : findItem t o.retval s = .ok (itemOf s t o.retval,s)) (valid : o.retval ≠ -1)
    (which : namemapGetName env.namemap o.name = none ∧ name = o.name ∧
        flags = o.flags ||| O_IGNORE ∨
      namemapGetName env.namemap o.name = some name ∧ flags = o.flags) :
    replicateOpen env o s = (do
      let retval ← openedFd env o name flags
      if retval = -1 then pure ()
      else newItem t o.retval o.retval retval (openedMap env o name flags retval)) s := by
  rw [absent] at asked
  simp only [replicateOpen]
  rw [if_neg valid,Prog.bindOf (processHtKnown table)]
  dsimp only
  rw [Prog.bindOf asked]
  rcases which with ⟨unseen,rfl,rfl⟩ | ⟨seen,rfl⟩
  · simp only [unseen]
  · simp only [seen]

theorem openNumberRan {n : Int32} {s₁ : State} (ran : simulateGetOpenFd s = .ok (n,s₁)) :
    countUp s.openFd = .ok n ∧ s₁ = { s with openFd := n } := by
  rcases openNumberRun (s := s) with stops | ⟨k,up,ends⟩
  · cases stops.symm.trans ran
  · cases ends.symm.trans ran
    exact ⟨up,rfl⟩

theorem ignoredNumbered {n : Int32} {s₁ : State}
    (unseen : namemapGetName env.namemap (missingOpen env fd info).name = none)
    (ran : openedFd env (missingOpen env fd info) (missingOpen env fd info).name
      (O_RDWR ||| O_IGNORE) s = .ok (n,s₁)) : Numbered env fd info s n .ignore s₁ := by
  have away {p : Prop} : ¬ (p ∧ (O_RDWR ||| O_IGNORE) &&& O_IGNORE = 0) :=
    fun both => ignoreFlag _ both.2
  rw [openedFd,if_neg away,simulateOpened,if_neg away,Prog.bindOf (Prog.pureRun _ s)] at ran
  obtain ⟨up,rfl⟩ := openNumberRan ran
  exact .ignored unseen up

theorem seenNumbered {name : CName} {n : Int32} {s₁ : State}
    (seen : namemapGetName env.namemap (missingOpen env fd info).name = some name)
    (ran : openedFd env (missingOpen env fd info) name O_RDWR s = .ok (n,s₁)) :
    Numbered env fd info s n .reg s₁ ∨
      Refuses env fd info s ∧ n = -1 ∧ s₁ = s.logged env (missingCall env name) := by
  have plain : O_RDWR &&& O_IGNORE = 0 := by decide
  unfold openedFd at ran
  split at ran
  · rename_i acts
    cases ran
    by_cases failed : s.answer env (missingCall env name) = -1
    · exact .inr ⟨⟨name,seen,acts.1,failed⟩,failed,rfl⟩
    · exact .inl (.replayed seen acts.1 failed)
  · rename_i idle
    obtain ⟨_,mid,creates,number⟩ := Prog.bindOk.mp ran
    obtain ⟨up,rfl⟩ := openNumberRan number
    have still : env.actReplicate = false := by
      cases acts : env.actReplicate with
      | true => exact absurd ⟨acts,plain⟩ idle
      | false => rfl
    left
    unfold simulateOpened at creates
    by_cases simulates : env.actSimulate = true
    · rw [if_pos ⟨simulates,plain⟩] at creates
      unfold onSim at creates
      split at creates
      · rename_i sim done
        cases creates
        refine .simulated seen still ?_ up
        rw [missingSim,if_pos simulates]
        exact done
      · cases creates
    · rw [if_neg fun both => simulates both.1] at creates
      cases creates
      have creates : missingSim env fd info name s.sim = .ok ((),s.sim) := by
        rw [missingSim,if_neg simulates]
        rfl
      exact .simulated seen still creates up

theorem missingOpened (bounds : Bounds s) (table : tableOf s info.pid = some t)
    (absent : itemOf s t fd = none) (valid : fd ≠ -1)
    (asked : findItem t fd s = .ok (itemOf s t fd,s))
    (ran : replicateOpen env (missingOpen env fd info) s = .ok ((),s')) :
    Refuses env fd info s ∧ (∃ name, s' = s.logged env (missingCall env name)) ∨
    ∃ n type m s₁, Supplied env t fd info s n type m s₁ s' := by
  have real {n : Int32} {type : FileType} {s₁ : State}
      (numbered : Numbered env fd info s n type s₁) : n ≠ -1 := by
    cases numbered with
    | replayed seen acts answered => exact answered
    | simulated seen idle creates up => exact openNumbered bounds up
    | ignored unseen up => exact openNumbered bounds up
  cases seen : namemapGetName env.namemap (missingOpen env fd info).name with
  | none =>
    rw [openAbsent env (missingOpen env fd info) table absent asked valid
      (.inl ⟨seen,rfl,rfl⟩)] at ran
    obtain ⟨n,s₁,number,rest⟩ := Prog.bindOk.mp ran
    have numbered := ignoredNumbered seen number
    rw [if_neg (real numbered)] at rest
    obtain ⟨m,supplied⟩ := suppliedOf valid (openedMapBare ..) rfl
      (by simp [openedMap,openedType,ignoreFlag]) numbered rest
    exact .inr ⟨n,.ignore,m,s₁,supplied⟩
  | some name =>
    rw [openAbsent env (missingOpen env fd info) table absent asked valid
      (.inr ⟨seen,rfl⟩)] at ran
    obtain ⟨n,s₁,number,rest⟩ := Prog.bindOk.mp ran
    rcases seenNumbered seen number with numbered | ⟨refuses,rfl,rfl⟩
    · rw [if_neg (real numbered)] at rest
      have typed : (openedMap env (missingOpen env fd info) name O_RDWR n).type = .reg := by
        change openedType O_RDWR = .reg
        decide
      obtain ⟨m,supplied⟩ := suppliedOf valid (openedMapBare ..) rfl typed numbered rest
      exact .inr ⟨n,.reg,m,s₁,supplied⟩
    · rw [if_pos rfl] at rest
      cases rest
      exact .inl ⟨refuses,name,rfl⟩

theorem Numbered.same {n : Int32} {type : FileType} {s₁ : State}
    (numbered : Numbered env fd info s n type s₁) : s₁.tables = s.tables ∧
      s₁.fdMaps = s.fdMaps ∧ s₁.fdMappings = s.fdMappings ∧ s₁.usageMap = s.usageMap := by
  cases numbered <;> exact ⟨rfl,rfl,rfl,rfl⟩

variable (fix : env.fixMissing = true) (bounds : Bounds s) (table : tableOf s info.pid = some t)
  (absent : itemOf s t fd = none)
include fix bounds table absent

theorem getFdMapMissing (ran : replicateGetFdMap env t fd info s = .ok (r,s')) :
    Refuses env fd info s ∧ r = none ∧
      (∃ name, s' = s.logged env (missingCall env name)) ∨
    ∃ n type m s₁, Supplied env t fd info s n type m s₁ s' ∧
      r = some ⟨s₁.nextItem,fd,s₁.fdMaps.fresh⟩ := by
  obtain ⟨found,s₀,first,rest⟩ := Prog.bindOk.mp ran
  obtain ⟨rfl,valid,rfl⟩ := findItemRan first
  rw [absent] at rest
  simp only [fix,if_true] at rest
  obtain ⟨_,s₂,opens,last⟩ := Prog.bindOk.mp rest
  obtain ⟨rfl,_,rfl⟩ := findItemRan last
  rcases missingOpened bounds table absent valid first opens with
    ⟨refuses,name,rfl⟩ | ⟨n,type,m,s₁,supplied⟩
  · exact .inl ⟨refuses,absent,name,rfl⟩
  · refine .inr ⟨n,type,m,s₁,supplied,itemOfPut supplied.put ?_⟩
    rw [itemOf,supplied.numbered.same.1]
    exact absent

end Missing
section Closing
variable {env : Env} {fd : Int32} {info : OpInfo} {s s₁ s₂ s' : State} {t : Nat} {n : Int32}
  {type : FileType} {m : FdMap}

structure TakenBack (s s₁ s' : State) : Prop where
  tables : s'.tables = s.tables
  links : s'.fdMappings = s.fdMappings
  maps : ∀ a, s'.fdMaps.read a = s.fdMaps.read a
  sim : s'.sim = s₁.sim

def Stuck (env : Env) (s : State) (n : Int32) (type : FileType) (s₁ : State) : Prop :=
  type = .reg ∧ env.actReplicate = true ∧ s.usageMap.find htOpsFdUsage n = some none ∧
    s₁.answer env (.close n) = -1

theorem Numbered.types (numbered : Numbered env fd info s n type s₁) :
    type = .reg ∨ type = .ignore := by
  cases numbered with
  | replayed => exact .inl rfl
  | simulated => exact .inl rfl
  | ignored => exact .inr rfl

theorem suppliedUsage (usage : Positive s.usageMap)
    (supplied : Supplied env t fd info s n type m s₁ s₂) :
    ∃ r s₃, closeUsage env m s₂ = .ok (r,s₃) ∧ s₃.tables = s₂.tables ∧ s₃.fdMaps = s₂.fdMaps ∧
      s₃.fdMappings = s₂.fdMappings ∧ s₃.sim = s₂.sim ∧ (r = -1 ↔ Stuck env s n type s₁) ∧
      (s₃.usageMap = s.usageMap ↔ type = .reg) ∧
      (type = .ignore → s₃.usageMap = s₂.usageMap) := by
  have same := supplied.numbered.same.2.2.2
  obtain ⟨_,_,used⟩ := supplied.put
  rw [same] at used
  have undone := increaseUndone usage used
  unfold closeUsage
  rw [supplied.typed]
  rcases supplied.numbered.types with rfl | rfl
  · rw [if_pos (show supportedType .reg = true from rfl),Prog.bindOf (Prog.getRun _)]
    simp only [supplied.mine,undone,ofFd]
    rw [Prog.bindOf (Prog.pureRun _ _)]
    dsimp only
    rw [Prog.bindOf (Prog.modifyRun _ _)]
    split
    · rename_i both
      refine ⟨_,_,rfl,rfl,rfl,rfl,rfl,?_,by simp,fun other => absurd other (by decide)⟩
      simp only [Stuck,both.2,of_decide_eq_true both.1,true_and]
      rfl
    · rename_i neither
      refine ⟨_,_,rfl,rfl,rfl,rfl,rfl,?_,by simp,fun other => absurd other (by decide)⟩
      refine ⟨fun zero => absurd zero (by decide),fun stuck => absurd ⟨?_,stuck.2.1⟩ neither⟩
      exact decide_eq_true stuck.2.2.1
  · rw [if_neg (show ¬ supportedType .ignore = true by decide)]
    refine ⟨_,_,rfl,rfl,rfl,rfl,rfl,?_,?_,fun _ => rfl⟩
    · exact ⟨fun zero => absurd zero (by decide),fun stuck => absurd stuck.1 (by decide)⟩
    · exact ⟨fun back => absurd back (increaseChanges used),fun reg => absurd reg (by decide)⟩

theorem suppliedClose (usage : Positive s.usageMap) (absent : itemOf s t fd = none)
    (supplied : Supplied env t fd info s n type m s₁ s₂) : ∃ s', (do
      let m ← readMap s₁.fdMaps.fresh
      let retval ← closeUsage env m
      if retval = -1 then pure ()
      else removeItem t fd ⟨s₁.nextItem,fd,s₁.fdMaps.fresh⟩ m : Replay Unit) s₂ = .ok ((),s') ∧
    (Stuck env s n type s₁ ∧ (itemOf s' t fd).isSome = true ∨
    ¬ Stuck env s n type s₁ ∧ TakenBack s s₁ s' ∧ (s'.usageMap = s.usageMap ↔ type = .reg) ∧
      (type = .ignore → s'.usageMap = s₂.usageMap)) := by
  have absent₁ : itemOf s₁ t fd = none := by
    rw [itemOf,supplied.numbered.same.1]
    exact absent
  have there := itemOfPut supplied.put absent₁
  obtain ⟨tables,maps,links,_⟩ := supplied.numbered.same
  have live : s₂.fdMaps.read s₁.fdMaps.fresh = some m := by
    cases supplied.put
    exact Arena.readAlloc _ _
  obtain ⟨r,s₃,used,tables₃,maps₃,links₃,sim₃,stuck,counted⟩ := suppliedUsage usage supplied
  rw [Prog.bindOf (readMapLive live),Prog.bindOf used]
  by_cases failed : r = -1
  · rw [if_pos failed]
    refine ⟨s₃,rfl,.inl ⟨stuck.mp failed,?_⟩⟩
    rw [itemOf,tables₃]
    change (itemOf s₂ t fd).isSome = true
    rw [there]
    rfl
  · rw [if_neg failed]
    obtain ⟨parentFds,lastParIndex,stored,last,deleted,_,perm,ended⟩ :=
      deleteParentPresent supplied.parents List.mem_cons_self
    have last' : last = true :=
      ended.mpr (List.perm_nil.mp ((List.perm_cons fd).mp perm))
    obtain @⟨h,h',_,table,inserted,_⟩ := supplied.put
    rw [itemOf,table,Option.bind_some] at absent₁
    have none : h.find htOpsFdItem fd = some none := by
      obtain ⟨c,hashed,_⟩ := Option.map_eq_some_iff.mp inserted
      rw [HashTable.find,hashed] at absent₁ ⊢
      exact congrArg some absent₁
    have removed := HashTable.insertRemove none (by simp [htOpsFdItem]) inserted
    have inside := (List.getElem?_eq_some_iff.mp table).1
    have table₃ : s₃.tables[t]? = some h' := by
      rw [tables₃]
      exact List.getElem?_set_self inside
    rcases removeItemRun ⟨s₁.nextItem,fd,s₁.fdMaps.fresh⟩ m table₃ removed with
      ⟨f,failed,_⟩ | ⟨m',last₁,again,ends⟩
    · cases failed.symm.trans deleted
    · cases again.symm.trans deleted
      refine ⟨_,ends,.inr ⟨fun is => failed (stuck.mpr is),⟨?_,?_,fun a => ?_,?_⟩,counted⟩⟩
      · rw [tables₃,List.set_set,setSame table]
        exact tables
      · rw [links₃]
        exact links
      · rw [last',if_pos rfl,maps₃]
        by_cases fresh : a = s₁.fdMaps.fresh
        · rw [fresh,Arena.readFree,← maps,Arena.readFresh]
        · rw [Arena.readFreeNe _ fresh,Arena.readAllocNe _ _ fresh,maps]
      · rw [sim₃]

theorem Numbered.accepted (numbered : Numbered env fd info s n type s₁) :
    ¬ Refuses env fd info s := by
  intro ⟨name,seen,acts,failed⟩
  cases numbered with
  | replayed seen' acts' answered =>
    cases seen.symm.trans seen'
    exact answered failed
  | simulated seen' idle => exact absurd (acts.symm.trans idle) (by simp)
  | ignored unseen => exact absurd (seen.symm.trans unseen) (by simp)

theorem ifCheckingKeeps {α : Type} {env : SimEnv} {m : SimfsProg α} {sim sim' : Sim} {q : Prop}
    (keeps : ∀ a fs', m sim.fs = .ok (a,fs') → (fs' = sim.fs ↔ q))
    (ran : ifChecking env m sim = .ok ((),sim')) :
    sim'.fs = sim.fs ↔ (checking env = true → q) := by
  unfold ifChecking at ran
  split at ran
  · rename_i checks
    obtain ⟨a,mid,one,last⟩ := Prog.bindOk.mp ran
    cases last
    unfold onSimfs at one
    split at one
    · rename_i done
      cases one
      rw [keeps _ _ done]
      exact ⟨fun holds _ => holds,fun holds => holds checks⟩
    · cases one
  · rename_i unchecked
    cases ran
    exact ⟨fun _ checks => absurd checks unchecked,fun _ => rfl⟩

theorem missingSimKeeps {name : CName} {sim sim' : Sim} (real : env.sim.disk.Real)
    (keyed : Keyed sim.fs) (valid : fd ≠ -1)
    (ran : missingSim env fd info name sim = .ok ((),sim')) : sim'.fs = sim.fs ↔
      (env.actSimulate = true → checking env.sim = true → Present env.sim.disk sim.fs name) := by
  unfold missingSim at ran
  split at ran
  · rename_i simulates
    have plain : O_RDWR &&& O_CREAT = 0 := by decide
    have keeps := ifCheckingKeeps (fun a fs' made => creatKeeps real keyed plain valid made) ran
    rw [keeps]
    exact ⟨fun holds _ => holds,fun holds => holds simulates⟩
  · rename_i idle
    cases ran
    exact ⟨fun _ simulates => absurd simulates idle,fun _ => rfl⟩

end Closing
end IoApps
