import IoApps.ReplicateDup

/-! When a dup goes through in check mode, and when it has no effect but the one it is for. The
replicator frees what it duplicates onto itself, refuses a descriptor that is an alias already, and
closes a target that is free by opening a file under it first. -/
namespace IoApps
open Lib (Arena Prog)

section Grounded
variable {env : Env} {meets : State → Op → Prop} {pid : Int32} {s s' : State}

theorem Release.counters {m : FdMap} (release : Release env s m s')
    (counters : Counters s.usageMap) : Counters s'.usageMap := by
  cases release with
  | untracked => exact counters
  | kept supported used => exact (decreaseCounts counters used).1
  | simulated supported used => exact (decreaseCounts counters used).1
  | closed supported used => exact (decreaseCounts counters used).1

theorem countersEdit {ok : Allowed} (edit : Edit env ok s s') (counters : Counters s.usageMap) :
    Counters s'.usageMap := by
  cases edit with
  | logged | openFailed | probed | simmed | openNumber | seeked | tableAdded | linked =>
    exact counters
  | placed origin parents put =>
    obtain ⟨_,_,used⟩ := put
    exact (increaseCounts (origin.usage.symm ▸ counters) used).1
  | copied copies there live put =>
    obtain ⟨_,_,used⟩ := put
    exact (increaseCounts counters used).1
  | closed table found live release => exact release.counters counters
  | closeFailed there live supported used => exact (decreaseCounts counters used).1
  | aliased careful live stored valid table inserted used =>
    exact (increaseCounts counters used).1

theorem Began.counters (began : Began env pid s) : Counters s.usageMap := by
  obtain ⟨mappings,_,b,c,d,_,_,_,_,rfl,put₀,put₁,put₂,_,_,_,_,_,_,rfl⟩ := began.puts
  obtain ⟨_,_,used₀⟩ := put₀
  obtain ⟨_,_,used₁⟩ := put₁
  obtain ⟨_,_,used₂⟩ := put₂
  have first := (increaseCounts (countersInit _) used₀).1
  exact (increaseCounts (increaseCounts first used₁).1 used₂).1

structure Grounded (s : State) : Prop extends Counting s where
  arrayed : Arrayed s.fdMaps
  counters : Counters s.usageMap
  stamped : Stamped s

theorem reachedGrounded (reached : Reached env meets pid s) : Grounded s where
  toCounting := reachedCounting reached
  arrayed := reachedArrayed reached
  counters := reached.keeps .any (fun s => Counters s.usageMap) (fun _ began => began.counters)
    (fun s op _ _ => anyPermits env s op) fun _ _ => countersEdit
  stamped := (reachedTidy reached).stamped

end Grounded
section Closes
variable {env : Env} {s s' : State} {t : Nat} {fd : Int32} {item prev : FdItem} {m m' p : FdMap}

def Counted (h : HashTable FdUsage) (p : FdMap) : Prop :=
  supportedType p.type = true → ∃ u, h.find htOpsFdUsage p.myFd = some (some u)

theorem closeUsageIdle (idle : env.actReplicate = false) (positive : Positive s.usageMap) :
    (∃ r s₁, closeUsage env p s = .ok (r,s₁)) ↔ Counted s.usageMap p := by
  rcases closeUsageRun env p s with
    ⟨f,supported,failed,stops⟩ | ⟨r,s₁,_,release,ends⟩ | ⟨_,_,_,_,acts,_⟩
  · refine iff_of_false (fun runs => ?_) fun counted => ?_
    · obtain ⟨_,_,ran⟩ := runs
      cases stops.symm.trans ran
    · obtain ⟨_,ran⟩ := (decreaseRuns positive).mpr (counted supported)
      cases failed.symm.trans ran
  · refine iff_of_true ⟨r,s₁,ends⟩ fun supported => (decreaseRuns positive).mp ?_
    cases release with
    | untracked plain => exact absurd (supported.symm.trans plain) (by simp)
    | kept _ used => exact ⟨_,used⟩
    | simulated _ used => exact ⟨_,used⟩
    | closed _ used => exact ⟨_,used⟩
  · exact absurd (acts.symm.trans idle) (by simp)

theorem releaseRaises {s₁ : State} (release : Release env s p s₁) (counters : Counters s.usageMap)
    (n : Int32) : Raisable s₁.usageMap n ↔
      supportedType p.type = true ∧ p.myFd = n ∨ Raisable s.usageMap n := by
  have lowered {usage : HashTable FdUsage} {last : Bool} (supported : supportedType p.type = true)
      (used : decreaseFdUsage s.usageMap p.myFd = .ok (usage,last)) : Raisable usage n ↔
        supportedType p.type = true ∧ p.myFd = n ∨ Raisable s.usageMap n := by
    by_cases mine : p.myFd = n
    · exact iff_of_true (mine ▸ decreaseRaises counters used) (.inl ⟨supported,mine⟩)
    · rw [raisableFind (decreaseOthers used (Ne.symm mine)),or_iff_right fun both => mine both.2]
  cases release with
  | untracked plain =>
    rw [or_iff_right fun both => absurd (both.1.symm.trans plain) (by simp)]
  | kept supported used => exact lowered supported used
  | simulated supported used => exact lowered supported used
  | closed supported used => exact lowered supported used

structure Emptied (s : State) (t : Nat) (prev : FdItem) (p : FdMap) (s' : State) : Prop where
  items : (prev :: s'.items).Perm s.items
  table : ∀ h, s.tables[t]? = some h → ∃ h', s'.tables[t]? = some h' ∧ h'.entries = h.entries
  raises : ∀ n, Raisable s'.usageMap n ↔
    supportedType p.type = true ∧ p.myFd = n ∨ Raisable s.usageMap n

theorem usedCloses (o : CloseOp) (idle : env.actReplicate = false) (grounded : Grounded s)
    (table : tableOf s o.info.pid = some t) (found : Found s t o.fd prev) :
    (∃ s', replicateClose env o s = .ok ((),s')) ↔ ∃ p, s.fdMaps.read prev.fdMap = some p ∧
      Counted s.usageMap p ∧ (p.aliases o.fd ∨ (-1) ∉ p.parentFds) := by
  rw [replicateClose,withItemKnown table found]
  cases live : s.fdMaps.read prev.fdMap with
  | none =>
    refine iff_of_false (fun runs => ?_) fun there => absurd there.choose_spec.1 (by simp)
    obtain ⟨_,ran⟩ := runs
    simp [readMap,Prog.bindRun,live] at ran
  | some p =>
    obtain ⟨h,inside,first⟩ := found.held
    obtain ⟨h',removed⟩ := removeSome first
    obtain ⟨stored,parents⟩ := grounded.arrayed _ _ live
    rw [Prog.bindOf (readMapLive live)]
    simp only [Option.some.injEq,exists_eq_left']
    rw [← closeUsageIdle idle grounded.usage,← deleteParentRuns parents (findValid first)]
    rcases closeUsageRun env p s with
      ⟨f,_,_,stops⟩ | ⟨r,s₁,kept,release,ends⟩ | ⟨_,_,_,_,acts,_⟩
    · refine iff_of_false (fun runs => ?_) fun both => ?_
      · obtain ⟨_,ran⟩ := runs
        rw [Prog.bindError.mpr (.inl stops)] at ran
        cases ran
      · obtain ⟨_,_,ran⟩ := both.1
        cases stops.symm.trans ran
    · rw [Prog.bindOf ends,if_neg kept,and_iff_right ⟨r,s₁,ends⟩]
      have table₁ := release.same.1 ▸ inside
      rcases removeItemRun prev p table₁ removed with ⟨f,failed,stops⟩ | ⟨m',last,deleted,done⟩
      · rw [stops,failed]
        simp
      · exact iff_of_true ⟨_,done⟩ ⟨_,deleted⟩
    · exact absurd (acts.symm.trans idle) (by simp)

theorem closeUsed (o : CloseOp) (idle : env.actReplicate = false) (grounded : Grounded s)
    (table : tableOf s o.info.pid = some t) (found : Found s t o.fd prev)
    (live : s.fdMaps.read prev.fdMap = some p) (ran : replicateClose env o s = .ok ((),s')) :
    Dropped s t o.fd s' ∧ Emptied s t prev p s' ∧ s'.sim = s.sim ∧
      itemOf s' t o.fd = itemLeft s t o.fd := by
  rw [replicateClose,withItemKnown table found,Prog.bindOf (readMapLive live)] at ran
  obtain ⟨r,s₁,used,last⟩ := Prog.bindOk.mp ran
  rcases closeUsageRun env p s with
    ⟨f,_,_,stops⟩ | ⟨r',s₂,kept,release,ends⟩ | ⟨_,_,_,_,acts,_⟩
  · cases stops.symm.trans used
  · cases ends.symm.trans used
    rw [if_neg kept] at last
    obtain ⟨tables,maps⟩ := release.same
    have alike : s₁.fdMappings = s.fdMappings ∧ s₁.sim = s.sim := by
      cases release <;> exact ⟨rfl,rfl⟩
    have raises := releaseRaises release grounded.counters
    obtain ⟨h,inside,first⟩ := found.held
    obtain ⟨h',removed⟩ := removeSome first
    have here := List.getElem?_set_self (a := h') (List.getElem?_eq_some_iff.mp inside).1
    rcases removeItemRun prev p (tables ▸ inside : s₁.tables[t]? = some h) removed with
      ⟨f,_,stops⟩ | ⟨m',final,deleted,ends⟩
    · cases stops.symm.trans last
    · cases ends.symm.trans last
      refine ⟨?_,⟨?_,fun g same => ?_,raises⟩,alike.2,?_⟩
      · exact removedDrops grounded.arrayed inside first live deleted removed alike.1
          (by rw [tables]) (by rw [maps])
      · rw [State.items,tables]
        exact removedItems inside first removed
      · cases inside.symm.trans same
        exact ⟨h',by rw [tables]; exact here,HashTable.removeEntries removed⟩
      · rw [itemOf,itemLeft,tables,here,inside,Option.bind_some,Option.bind_some,removed,
          Option.bind_some]
  · exact absurd (acts.symm.trans idle) (by simp)

theorem findItemHashed {h : HashTable FdItem} (inside : s.tables[t]? = some h)
    (some_ : 0 < h.entries) (valid : 0 ≤ fd) : findItem t fd s = .ok (itemOf s t fd,s) := by
  obtain ⟨c,hashed⟩ := Option.isSome_iff_exists.mp
    ((HashTable.chainKey htOpsFdItem rfl some_).mpr valid)
  simp [findItem,readTable,Prog.bindRun,inside,HashTable.find,hashed,key,itemOf]

theorem newItemCounts {k counted : Int32} {usage : HashTable FdUsage} {h : HashTable FdItem}
    (bare : Parents m []) (inside : s.tables[t]? = some h) (some_ : 0 < h.entries) (valid : 0 ≤ k)
    (used : increaseFdUsage s.usageMap counted = .ok usage) :
    ∃ s', newItem t k k counted m s = .ok ((),s') := by
  have real : k ≠ -1 := fun minus => absurd (minus ▸ valid) (by decide)
  obtain ⟨a,b,stored,_⟩ := insertParentRoom bare (List.not_mem_nil (a := k)) real (by decide)
  obtain ⟨c,hashed⟩ := Option.isSome_iff_exists.mp
    ((HashTable.chainKey htOpsFdItem rfl some_).mpr valid)
  simp [newItem,putItem,stored,Prog.bindRun,insertItem,allocMap,readTable,inside,key,
    HashTable.insert,hashed,increaseUsage,used,ofFd]

section MadeUp
variable {info : OpInfo}

theorem openIdle {o : OpenOp} {name : CName} {flags n : Int32} {h : HashTable FdItem}
    {usage : HashTable FdUsage} (idle : env.actReplicate = false) (bounds : Bounds s)
    (table : tableOf s o.info.pid = some t) (absent : itemOf s t o.retval = none)
    (inside : s.tables[t]? = some h) (some_ : 0 < h.entries) (valid : 0 ≤ o.retval)
    (which : namemapGetName env.namemap o.name = none ∧ name = o.name ∧
        flags = o.flags ||| O_IGNORE ∨
      namemapGetName env.namemap o.name = some name ∧ flags = o.flags)
    (creates : simulateOpened env o name flags s = .ok ((),s)) (up : countUp s.openFd = .ok n)
    (used : increaseFdUsage s.usageMap n = .ok usage) :
    ∃ s', replicateOpen env o s = .ok ((),s') := by
  have minus : o.retval ≠ -1 := fun minus => absurd (minus ▸ valid) (by decide)
  have asked := findItemHashed inside some_ valid
  have number : openedFd env o name flags s = .ok (n,{ s with openFd := n }) := by
    rw [openedFd,if_neg fun both => absurd (both.1.symm.trans idle) (by simp),Prog.bindOf creates]
    simp [simulateGetOpenFd,Prog.bindRun,up,ofFd]
  rw [openAbsent env o table absent asked minus which,Prog.bindOf number,
    if_neg (openNumbered bounds up)]
  exact newItemCounts (openedMapBare ..) inside some_ valid used

theorem missingOpens {h : HashTable FdItem} {n : Int32} {usage : HashTable FdUsage}
    (real : env.sim.disk.Real) (keyed : Keyed s.sim.fs) (simulates : env.actSimulate = true)
    (checks : checking env.sim = true) (idle : env.actReplicate = false) (bounds : Bounds s)
    (table : tableOf s info.pid = some t) (absent : itemOf s t fd = none)
    (inside : s.tables[t]? = some h) (some_ : 0 < h.entries) (valid : 0 ≤ fd)
    (present : ∀ name,
      namemapGetName env.namemap (replicateGetMissingName info.pid fd) = some name →
        Present env.sim.disk s.sim.fs name) (up : countUp s.openFd = .ok n)
    (used : increaseFdUsage s.usageMap n = .ok usage) :
    ∃ s', replicateOpen env (missingOpen env fd info) s = .ok ((),s') := by
  have minus : fd ≠ -1 := fun minus => absurd (minus ▸ valid) (by decide)
  cases seen : namemapGetName env.namemap (missingOpen env fd info).name with
  | none =>
    refine openIdle idle bounds table absent inside some_ valid (.inl ⟨seen,rfl,rfl⟩) ?_ up used
    rw [simulateOpened,if_neg fun both => ignoreFlag _ both.2]
    rfl
  | some name =>
    have plain : O_RDWR &&& O_CREAT = 0 := by decide
    obtain ⟨v,kept⟩ : ∃ v, simfsCreat env.sim.disk { missingOpen env fd info with name := name }
        s.sim.fs = .ok (v,s.sim.fs) := creatPresent real keyed plain minus (present name seen)
    refine openIdle idle bounds table absent inside some_ valid (.inr ⟨seen,rfl⟩) ?_ up used
    rw [simulateOpened,if_pos ⟨simulates,show O_RDWR &&& O_IGNORE = 0 by decide⟩]
    simp [onSim,simulateCreat,ifChecking,checks,onSimfs,Prog.bindRun,kept]

end MadeUp

def leftUsage (env : Env) (pid fd : Int32) (before after : HashTable FdUsage) : HashTable FdUsage :=
  if (namemapGetName env.namemap (replicateGetMissingName pid fd)).isSome then before else after

structure Restored (env : Env) (s : State) (o : CloseOp) (s' : State) : Prop where
  tables : s'.tables = s.tables
  number : s.openFd ≠ Int32.maxValue
  usage : ∃ usage, increaseFdUsage s.usageMap (s.openFd + 1) = .ok usage ∧
    s'.usageMap = leftUsage env o.info.pid o.fd s.usageMap usage

theorem closeFree (o : CloseOp) (real : env.sim.disk.Real) (keyed : Keyed s.sim.fs)
    (fix : env.fixMissing = true) (idle : env.actReplicate = false) (arrayed : Arrayed s.fdMaps)
    (counting : Counting s) (table : tableOf s o.info.pid = some t)
    (absent : itemOf s t o.fd = none) (ran : replicateClose env o s = .ok ((),s')) :
    Dropped s t o.fd s' ∧ Restored env s o s' ∧ (s'.sim.fs = s.sim.fs ↔
      ∀ name, namemapGetName env.namemap (replicateGetMissingName o.info.pid o.fd) = some name →
        env.actSimulate = true → checking env.sim = true → Present env.sim.disk s.sim.fs name) := by
  rw [replicateClose,withItem,Prog.bindOf (processHtKnown table)] at ran
  obtain ⟨r,s₂,got,rest⟩ := Prog.bindOk.mp ran
  have valid : o.fd ≠ -1 := by
    obtain ⟨_,_,asked,_⟩ := Prog.bindOk.mp got
    exact (findItemRan asked).2.1
  rcases getFdMapMissing fix counting.bounds table absent got with
    ⟨⟨_,_,acts,_⟩,_⟩ | ⟨n,type,m,s₁,supplied,rfl⟩
  · exact absurd (acts.symm.trans idle) (by simp)
  obtain ⟨_,ends,outcome⟩ := suppliedClose counting.usage absent supplied
  cases ends.symm.trans rest
  rcases outcome with ⟨⟨_,acts,_⟩,_⟩ | ⟨_,back,counted,stays⟩
  · exact absurd (acts.symm.trans idle) (by simp)
  have items (u : Nat) (a : Int32) : itemOf s' u a = itemOf s u a := by
    rw [itemOf,back.tables]
    rfl
  refine ⟨⟨?_,back.links,fun u a _ => items u a,fun a _ => back.maps a,?_⟩,?_,?_⟩
  · intro a m read
    exact arrayed a m (back.maps a ▸ read)
  · intro prev m there
    exact absurd (absent.symm.trans there) (by simp)
  · obtain ⟨usage,used,after⟩ : ∃ usage, increaseFdUsage s.usageMap n = .ok usage ∧
        s₂.usageMap = usage := by
      obtain ⟨_,_,used⟩ := supplied.put
      exact ⟨_,supplied.numbered.same.2.2.2 ▸ used,rfl⟩
    have next {k : Int32} (up : countUp s.openFd = .ok k) :
        s.openFd ≠ Int32.maxValue ∧ k = s.openFd + 1 := by
      unfold countUp at up
      split at up
      · cases up
      · cases up
        exact ⟨‹_›,rfl⟩
    cases supplied.numbered with
    | replayed seen acts => exact absurd (acts.symm.trans idle) (by simp)
    | simulated seen _ _ up =>
      obtain ⟨below,rfl⟩ := next up
      refine ⟨back.tables,below,usage,used,(counted.mpr rfl).trans ?_⟩
      exact (if_pos (Option.isSome_iff_exists.mpr ⟨_,seen⟩)).symm
    | ignored unseen up =>
      obtain ⟨below,rfl⟩ := next up
      refine ⟨back.tables,below,usage,used,((stays rfl).trans after).trans ?_⟩
      exact (if_neg (Option.not_isSome_iff_eq_none.mpr unseen)).symm
  · rw [back.sim]
    cases supplied.numbered with
    | replayed seen acts => exact absurd (acts.symm.trans idle) (by simp)
    | @simulated name sim n seen _ creates =>
      rw [missingSimKeeps real keyed valid creates]
      constructor
      · intro present name' seen'
        cases seen.symm.trans seen'
        exact present
      · exact fun present => present name seen
    | ignored unseen =>
      exact iff_of_true rfl fun name seen => absurd (seen.symm.trans unseen) (by simp)

structure MadeUp (env : Env) (s : State) (pid fd : Int32) : Prop where
  present : ∀ name, namemapGetName env.namemap (replicateGetMissingName pid fd) = some name →
    Present env.sim.disk s.sim.fs name
  number : s.openFd ≠ Int32.maxValue
  raises : Raisable s.usageMap (s.openFd + 1)

theorem freeCloses {h : HashTable FdItem} (o : CloseOp) (real : env.sim.disk.Real)
    (keyed : Keyed s.sim.fs) (simulates : env.actSimulate = true)
    (checks : checking env.sim = true) (fix : env.fixMissing = true)
    (idle : env.actReplicate = false) (grounded : Grounded s)
    (table : tableOf s o.info.pid = some t) (inside : s.tables[t]? = some h)
    (some_ : 0 < h.entries) (valid : 0 ≤ o.fd)
    (absent : itemOf s t o.fd = none) : (∃ s', replicateClose env o s = .ok ((),s') ∧
      s'.sim.fs = s.sim.fs) ↔ MadeUp env s o.info.pid o.fd := by
  constructor
  · intro closes
    obtain ⟨s',ran,same⟩ := closes
    obtain ⟨_,⟨_,number,usage,used,_⟩,files⟩ := closeFree o real keyed fix idle grounded.arrayed
      grounded.toCounting table absent ran
    refine ⟨fun name seen => files.mp same name seen simulates checks,number,?_⟩
    exact ⟨usage,used⟩
  · intro made
    obtain ⟨usage,used⟩ := made.raises
    have up : countUp s.openFd = .ok (s.openFd + 1) := if_neg made.number
    obtain ⟨s₂,opens⟩ : ∃ s₂, replicateOpen env (missingOpen env o.fd o.info) s = .ok ((),s₂) :=
      missingOpens real keyed simulates checks idle grounded.bounds table absent inside some_ valid
        made.present up used
    have asked := findItemHashed inside some_ valid
    have minus : o.fd ≠ -1 := fun minus => absurd (minus ▸ valid) (by decide)
    rcases missingOpened grounded.bounds table absent minus asked opens with
      ⟨⟨_,_,acts,_⟩,_⟩ | ⟨n,type,m,s₁,supplied⟩
    · exact absurd (acts.symm.trans idle) (by simp)
    have absent₁ : itemOf s₁ t o.fd = none := by
      rw [itemOf,supplied.numbered.same.1]
      exact absent
    have there := itemOfPut supplied.put absent₁
    obtain ⟨s',closes,_⟩ := suppliedClose grounded.usage absent supplied
    have again : findItem t o.fd s₂ = .ok (some ⟨s₁.nextItem,o.fd,s₁.fdMaps.fresh⟩,s₂) := by
      obtain ⟨table₁,inserted,_⟩ := supplied.put
      have here := List.getElem?_eq_some_iff.mp table₁
      rw [supplied.numbered.same.1,inside] at table₁
      cases table₁
      rw [← there]
      refine findItemHashed (List.getElem?_set_self here.1) ?_ valid
      rw [HashTable.insertEntries inserted]
      exact some_
    have got : replicateGetFdMap env t o.fd o.info s =
        .ok (some ⟨s₁.nextItem,o.fd,s₁.fdMaps.fresh⟩,s₂) := by
      rw [absent] at asked
      rw [replicateGetFdMap,Prog.bindOf asked]
      simp only [fix,if_true]
      exact (Prog.bindOf opens).trans again
    have ran : replicateClose env o s = .ok ((),s') := by
      rw [replicateClose,withItem,Prog.bindOf (processHtKnown table)]
      dsimp only
      rw [Prog.bindOf got]
      exact closes
    refine ⟨s',ran,?_⟩
    obtain ⟨_,_,files⟩ := closeFree o real keyed fix idle grounded.arrayed
      grounded.toCounting table absent ran
    exact files.mpr fun name seen _ _ => made.present name seen

end Closes
section Aliases
variable {env : Env} {s s' : State} {t : Nat} {fd : Int32} {item prev : FdItem} {m m' : FdMap}

/-- The target is one more descriptor of the source's file, its previous file has lost it, and
nothing else has changed. -/
structure Duplicated (s : State) (t : Nat) (target : Int32) (item : FdItem) (s' : State) :
    Prop where
  files : s'.sim.fs = s.sim.fs
  processes : s'.fdMappings = s.fdMappings
  others : ∀ u fd, (u,fd) ≠ (t,target) → itemOf s' u fd = itemOf s u fd
  shared : ∃ new, itemOf s' t target = some new ∧ new.fdMap = item.fdMap
  maps : ∀ a, a ≠ item.fdMap → (∀ prev, itemOf s t target = some prev → prev.fdMap ≠ a) →
    s'.fdMaps.read a = s.fdMaps.read a
  source : ∀ m, s.fdMaps.read item.fdMap = some m → ∃ m', s'.fdMaps.read item.fdMap = some m' ∧
    SameFile m m' ∧ (∀ fd, fd ≠ target → (m'.aliases fd ↔ m.aliases fd)) ∧
    (HasRoom m target → m'.aliases target)
  previous : ∀ prev m, itemOf s t target = some prev → prev.fdMap ≠ item.fdMap →
    s.fdMaps.read prev.fdMap = some m → Loses m target (s'.fdMaps.read prev.fdMap)

theorem SameFile.trans {a b c : FdMap} (first : SameFile a b) (second : SameFile b c) :
    SameFile a c := by
  unfold SameFile at first second ⊢
  rw [first] at second
  exact second

theorem sourceShares {s₂ : State} {target : Int32} {m₂ : FdMap} (dropped : Dropped s t target s₂)
    (arrayed : Arrayed s.fdMaps) (valid : target ≠ -1)
    (before : s.fdMaps.read item.fdMap = some m) (live : s₂.fdMaps.read item.fdMap = some m₂)
    (stored : insertParentFd m₂ target = .ok m') :
    SameFile m m' ∧ (∀ fd, fd ≠ target → (m'.aliases fd ↔ m.aliases fd)) ∧
      (HasRoom m target → m'.aliases target) := by
  obtain ⟨l₂,parents₂⟩ := dropped.arrays _ _ live
  obtain ⟨l,parents⟩ := arrayed _ _ before
  obtain ⟨l',parents',same,grown⟩ := insertParentEnds parents₂ valid stored
  have middle : SameFile m m₂ ∧ (∀ fd, fd ≠ target → (m₂.aliases fd ↔ m.aliases fd)) ∧
      (HasRoom m target → HasRoom m₂ target) := by
    by_cases mine : ∃ prev, itemOf s t target = some prev ∧ prev.fdMap = item.fdMap
    · obtain ⟨prev,found,shared⟩ := mine
      have loses := dropped.previous prev m found (shared ▸ before)
      rw [shared,live] at loses
      obtain ⟨same,fewer⟩ := loses.kept m₂ rfl
      refine ⟨same,fun fd other => ?_,loses.room valid parents parents₂⟩
      rw [fewer,and_iff_left other]
    · have kept := dropped.maps item.fdMap fun prev found shared => mine ⟨prev,found,shared⟩
      cases before.symm.trans (kept.symm.trans live)
      exact ⟨rfl,fun _ _ => Iff.rfl,id⟩
  obtain ⟨first,others,room⟩ := middle
  refine ⟨first.trans same,fun fd other => ?_,fun free => ?_⟩
  · rw [← others fd other,aliasesStored parents',aliasesStored parents₂]
    rcases grown with rfl | rfl
    · exact Iff.rfl
    · simp [other]
  · have more := (insertParentStored parents₂ valid (room free) stored).1
    rw [aliasesStored more]
    simp

theorem aliasShares {s₂ : State} {target : Int32} (dropped : Dropped s t target s₂)
    (arrayed : Arrayed s.fdMaps) (valid : target ≠ -1)
    (ran : aliasItem t item target s₂ = .ok ((),s')) :
    Duplicated s t target item s' ↔ s₂.sim.fs = s.sim.fs ∧
      ∀ x, itemOf s₂ t target = some x → x.fdMap = item.fdMap := by
  rcases checkItemRun item s₂ with ⟨_,checked⟩ | ⟨_,stops⟩
  · cases live : s₂.fdMaps.read item.fdMap with
    | none =>
      rw [aliasItem,Prog.bindOf checked] at ran
      simp [Prog.bindRun,readMap,live] at ran
    | some m₂ =>
      rcases aliasItemRun t target checked live with
        ⟨f,_,stops⟩ | ⟨m',h,h',usage,stored,table,inserted,_,ends⟩
      · cases stops.symm.trans ran
      obtain ⟨tables,maps,links,sim⟩ : s'.tables = s₂.tables.set t h' ∧
          s'.fdMaps = s₂.fdMaps.write item.fdMap m' ∧ s'.fdMappings = s₂.fdMappings ∧
          s'.sim = s₂.sim := by
        cases ends.symm.trans ran
        exact ⟨rfl,rfl,rfl,rfl⟩
      have now : itemOf s' t target =
          (itemOf s₂ t target).or (some ⟨s₂.nextItem,target,item.fdMap⟩) := by
        have first := HashTable.findInsert (by simp [htOpsFdItem]) inserted
        rw [itemOf,tables,List.getElem?_set_self (List.getElem?_eq_some_iff.mp table).1,
          Option.bind_some,first,Option.join_some,itemOf,table,Option.bind_some]
      have other {a : Nat} (different : a ≠ item.fdMap) :
          s'.fdMaps.read a = s₂.fdMaps.read a := by
        rw [maps,Arena.readWriteNe _ _ different]
      constructor
      · intro done
        refine ⟨sim ▸ done.files,fun x there => ?_⟩
        obtain ⟨new,last,shares⟩ := done.shared
        rw [now,there,Option.some_or] at last
        cases last
        exact shares
      · intro both
        constructor
        · rw [sim]
          exact both.1
        · exact links.trans dropped.processes
        · intro u fd apart
          have kept : itemOf s' u fd = itemOf s₂ u fd := by
            refine itemOfSet table tables (fun different => ?_) apart
            refine HashTable.findInsertOther (fun mine => ?_) inserted
            exact different (of_decide_eq_true mine).symm
          exact kept.trans (dropped.others u fd apart)
        · cases there : itemOf s₂ t target with
          | none =>
            rw [there,Option.none_or] at now
            exact ⟨_,now,rfl⟩
          | some x =>
            rw [there,Option.some_or] at now
            exact ⟨x,now,both.2 x there⟩
        · intro a different apart
          exact (other different).trans (dropped.maps a apart)
        · intro m before
          refine ⟨m',by rw [maps,Arena.readWrite m' live],?_⟩
          exact sourceShares dropped arrayed valid before live stored
        · intro prev m found different before
          rw [other different]
          exact dropped.previous prev m found before
  · rw [aliasItem] at ran
    simp [Prog.bindRun,stops] at ran

structure Aliases (s : State) (item : FdItem) (target : Int32) (m : FdMap) : Prop where
  there : ∃ i ∈ s.items, i.id = item.id
  live : s.fdMaps.read item.fdMap = some m
  absent : ¬ m.aliases target
  raises : Raisable s.usageMap m.myFd

theorem aliasRuns {h : HashTable FdItem} {target : Int32} (arrayed : Arrayed s.fdMaps)
    (inside : s.tables[t]? = some h) (some_ : 0 < h.entries) (valid : 0 ≤ target) :
    (∃ s', aliasItem t item target s = .ok ((),s')) ↔ ∃ m, Aliases s item target m := by
  have minus : target ≠ -1 := fun minus => absurd (minus ▸ valid) (by decide)
  rcases checkItemRun item s with ⟨there,checked⟩ | ⟨gone,stops⟩
  · cases live : s.fdMaps.read item.fdMap with
    | none =>
      refine iff_of_false (fun runs => ?_) fun aliases => ?_
      · obtain ⟨_,ran⟩ := runs
        rw [aliasItem,Prog.bindOf checked] at ran
        simp [Prog.bindRun,readMap,live] at ran
      · obtain ⟨_,_,read,_⟩ := aliases
        cases live.symm.trans read
    | some m =>
      obtain ⟨stored,parents⟩ := arrayed _ _ live
      constructor
      · intro runs
        obtain ⟨_,ran⟩ := runs
        rcases aliasItemRun t target checked live with
          ⟨f,_,stops⟩ | ⟨m',_,_,usage,inserted,_,_,used,_⟩
        · cases stops.symm.trans ran
        · exact ⟨m,there,live,(insertParentRuns parents minus).mp ⟨m',inserted⟩,usage,used⟩
      · intro aliases
        obtain ⟨_,_,read,absent,usage,used⟩ := aliases
        cases live.symm.trans read
        obtain ⟨m',inserted⟩ := (insertParentRuns parents minus).mpr absent
        obtain ⟨c,hashed⟩ := Option.isSome_iff_exists.mp
          ((HashTable.chainKey htOpsFdItem rfl some_).mpr valid)
        have again := Arena.readWrite m' live
        have mine := (insertParentAlike inserted).mine
        rw [aliasItem,Prog.bindOf checked]
        simp [Prog.bindRun,readMap,live,inserted,ofFd,writeMap,insertItem,readTable,inside,key,
          HashTable.insert,hashed,again,increaseUsage,mine,used]
  · refine iff_of_false (fun runs => ?_) fun aliases => gone aliases.choose_spec.there
    obtain ⟨_,ran⟩ := runs
    rw [aliasItem] at ran
    simp [Prog.bindRun,stops] at ran

theorem aliasSharesIff {s₂ : State} {h : HashTable FdItem} {target : Int32}
    (dropped : Dropped s t target s₂) (arrayed : Arrayed s.fdMaps)
    (inside : s₂.tables[t]? = some h) (some_ : 0 < h.entries) (valid : 0 ≤ target) :
    (∃ s', aliasItem t item target s₂ = .ok ((),s') ∧ Duplicated s t target item s') ↔
      (∃ m, Aliases s₂ item target m) ∧ s₂.sim.fs = s.sim.fs ∧
        ∀ x, itemOf s₂ t target = some x → x.fdMap = item.fdMap := by
  have minus : target ≠ -1 := fun minus => absurd (minus ▸ valid) (by decide)
  rw [← aliasRuns dropped.arrays inside some_ valid]
  constructor
  · intro both
    obtain ⟨s',ran,done⟩ := both
    exact ⟨⟨s',ran⟩,(aliasShares dropped arrayed minus ran).mp done⟩
  · intro both
    obtain ⟨⟨s',ran⟩,rest⟩ := both
    exact ⟨s',ran,(aliasShares dropped arrayed minus ran).mpr rest⟩

end Aliases
section Targets
variable {env : Env} {s s₂ : State} {t : Nat} {target : Int32} {item prev : FdItem} {m p : FdMap}

/-- The file of the source is there after the target is closed, and can have it as an alias. -/
structure Survives (s : State) (target : Int32) (item prev : FdItem) (p m : FdMap) : Prop where
  kept : prev.fdMap = item.fdMap → ∃ fd, m.aliases fd ∧ fd ≠ target
  absent : prev.fdMap ≠ item.fdMap → ¬ m.aliases target
  raises : supportedType p.type = true ∧ p.myFd = m.myFd ∨ Raisable s.usageMap m.myFd

theorem aliasesDropped (dropped : Dropped s t target s₂) (emptied : Emptied s t prev p s₂)
    (stamped : Stamped s) (found : itemOf s t target = some prev)
    (live : s.fdMaps.read prev.fdMap = some p) (member : item ∈ s.items) :
    (∃ m, Aliases s₂ item target m) ↔ item ≠ prev ∧ ∃ m, s.fdMaps.read item.fdMap = some m ∧
      Survives s target item prev p m := by
  have there : (∃ i ∈ s₂.items, i.id = item.id) ↔ item ≠ prev := by
    have distinct := (emptied.items.map FdItem.id).nodup_iff.mpr stamped.distinct
    obtain ⟨gone,_⟩ := List.nodup_cons.mp distinct
    constructor
    · intro still same
      obtain ⟨i,left,id⟩ := still
      exact gone (List.mem_map.mpr ⟨i,left,same ▸ id⟩)
    · intro other
      exact ⟨item,(List.mem_cons.mp (emptied.items.mem_iff.mpr member)).resolve_left other,rfl⟩
  by_cases mine : prev.fdMap = item.fdMap
  · have loses := dropped.previous prev p found live
    rw [mine] at loses live
    constructor
    · intro aliases
      obtain ⟨m₂,still,read,_,raises⟩ := aliases
      have left : ¬ ∀ fd, p.aliases fd → fd = target := by
        rw [← loses.freed,read]
        simp
      obtain ⟨same,_⟩ := loses.kept m₂ read
      rw [SameFile] at same
      rw [same,emptied.raises] at raises
      refine ⟨there.mp still,p,live,fun _ => ?_,fun differ => absurd mine differ,raises⟩
      simpa using left
    · intro survives
      obtain ⟨other,m,source,kept,_,raises⟩ := survives
      cases live.symm.trans source
      obtain ⟨fd,shares,apart⟩ := kept mine
      cases read : s₂.fdMaps.read item.fdMap with
      | none => exact absurd (loses.freed.mp read fd shares) apart
      | some m₂ =>
        obtain ⟨same,fewer⟩ := loses.kept m₂ read
        refine ⟨m₂,there.mpr other,read,fun still => ((fewer target).mp still).2 rfl,?_⟩
        rw [SameFile] at same
        rw [same,emptied.raises]
        exact raises
  · have kept : s₂.fdMaps.read item.fdMap = s.fdMaps.read item.fdMap := by
      refine dropped.maps _ fun prev' there => ?_
      cases found.symm.trans there
      exact mine
    constructor
    · intro aliases
      obtain ⟨m,still,read,absent,raises⟩ := aliases
      exact ⟨there.mp still,m,kept ▸ read,fun same => absurd same mine,fun _ => absent,
        (emptied.raises _).mp raises⟩
    · intro survives
      obtain ⟨other,m,source,_,absent,raises⟩ := survives
      exact ⟨m,there.mpr other,kept.trans source,absent mine,(emptied.raises _).mpr raises⟩

end Targets
section Records
variable {env : Env} {meets : State → Op → Prop} {pid : Int32} {s s' : State} {t : Nat}
  {item prev : FdItem} {o : DupOp}

def targetClose (env : Env) (o : DupOp) : CloseOp :=
  ⟨o.retval,0,{ env.garbage.info with pid := o.info.pid }⟩

def Op.dups : Op → Option DupOp
  | .dup o | .dup2 o | .dup3 o => some o
  | _ => none

/-- A target in use can be closed, and has no second item of another file. -/
structure UsedTarget (s : State) (t : Nat) (target : Int32) (item prev : FdItem) (p m : FdMap) :
    Prop extends Survives s target item prev p m where
  counted : Counted s.usageMap p
  stored : p.aliases target ∨ (-1) ∉ p.parentFds
  alone : ∀ x, itemLeft s t target = some x → x.fdMap = item.fdMap

/-- A file can be made up for a target that is free, and closed again. -/
structure FreeTarget (env : Env) (s : State) (o : DupOp) (m : FdMap) : Prop
    extends MadeUp env s o.info.pid o.retval where
  absent : ¬ m.aliases o.retval
  again : ∀ usage, increaseFdUsage s.usageMap (s.openFd + 1) = .ok usage →
    Raisable (leftUsage env o.info.pid o.retval s.usageMap usage) m.myFd

/-- The target is another descriptor than the source. It can be closed, if need be after a file is
made up for it, and the source's file can have it as an alias then. -/
def Sharable (env : Env) (s : State) (t : Nat) (item : FdItem) (o : DupOp) : Prop :=
  0 ≤ o.retval ∧ o.retval ≠ o.oldFd ∧ ∃ m, s.fdMaps.read item.fdMap = some m ∧
    match itemOf s t o.retval with
    | some prev => ∃ p, s.fdMaps.read prev.fdMap = some p ∧ UsedTarget s t o.retval item prev p m
    | none => FreeTarget env s o m

theorem dupRun (done : o.retval ≠ -1) (table : tableOf s o.info.pid = some t)
    (found : Found s t o.oldFd item) (first : findItem t o.oldFd s = .ok (some item,s)) :
    replicateDup env o s = (do
      replicateClose env (targetClose env o)
      aliasItem t item o.retval) s := by
  rw [replicateDup,if_neg done,withItemKnown table found]
  have closes : closeTarget env o t s = replicateClose env (targetClose env o) s := by
    rw [closeTarget,Prog.bindOf first]
    rfl
  rw [Prog.bindRun,Prog.bindRun,closes]

variable (idle : env.actReplicate = false) (grounded : Grounded s)
  (table : tableOf s o.info.pid = some t) (found : Found s t o.oldFd item)
include idle grounded table found

theorem usedShares {h : HashTable FdItem} (inside : s.tables[t]? = some h) (some_ : 0 < h.entries)
    (target : Found s t o.retval prev) (valid : 0 ≤ o.retval) :
    (∃ s', (do
      replicateClose env (targetClose env o)
      aliasItem t item o.retval : Replay Unit) s = .ok ((),s') ∧
      Duplicated s t o.retval item s') ↔ item ≠ prev ∧ ∃ m, s.fdMaps.read item.fdMap = some m ∧
        ∃ p, s.fdMaps.read prev.fdMap = some p ∧ UsedTarget s t o.retval item prev p m := by
  have here := foundItem.mp target
  have closes := usedCloses (targetClose env o) idle grounded table target
  constructor
  · intro shares
    obtain ⟨s',ran,done⟩ := shares
    obtain ⟨_,s₂,first,last⟩ := Prog.bindOk.mp ran
    obtain ⟨p,live,counted,stored⟩ := closes.mp ⟨s₂,first⟩
    obtain ⟨dropped,emptied,sim,left⟩ := closeUsed (targetClose env o) idle grounded table target
      live first
    obtain ⟨h₂,inside₂,size⟩ := emptied.table h inside
    obtain ⟨aliases,_,alone⟩ := (aliasSharesIff dropped grounded.arrayed inside₂ (size ▸ some_)
      valid).mp ⟨s',last,done⟩
    obtain ⟨other,m,source,survives⟩ := (aliasesDropped dropped emptied grounded.stamped here live
      found.member).mp aliases
    exact ⟨other,m,source,p,live,survives,counted,stored,left ▸ alone⟩
  · intro both
    obtain ⟨other,m,source,p,live,used⟩ := both
    obtain ⟨s₂,first⟩ := closes.mpr ⟨p,live,used.counted,used.stored⟩
    obtain ⟨dropped,emptied,sim,left⟩ := closeUsed (targetClose env o) idle grounded table target
      live first
    obtain ⟨h₂,inside₂,size⟩ := emptied.table h inside
    have aliases := (aliasesDropped dropped emptied grounded.stamped here live found.member).mpr
      ⟨other,m,source,used.toSurvives⟩
    obtain ⟨s',last,done⟩ := (aliasSharesIff dropped grounded.arrayed inside₂ (size ▸ some_)
      valid).mpr ⟨aliases,by rw [sim],left ▸ used.alone⟩
    exact ⟨s',(Prog.bindOf first).trans last,done⟩

theorem freeShares {h : HashTable FdItem} (inside : s.tables[t]? = some h) (some_ : 0 < h.entries)
    (real : env.sim.disk.Real) (keyed : Keyed s.sim.fs) (simulates : env.actSimulate = true)
    (checks : checking env.sim = true) (fix : env.fixMissing = true)
    (absent : itemOf s t o.retval = none) (valid : 0 ≤ o.retval) :
    (∃ s', (do
      replicateClose env (targetClose env o)
      aliasItem t item o.retval : Replay Unit) s = .ok ((),s') ∧
      Duplicated s t o.retval item s') ↔ ∃ m, s.fdMaps.read item.fdMap = some m ∧
        FreeTarget env s o m := by
  have closes := freeCloses (targetClose env o) real keyed simulates checks fix idle grounded table
    inside some_ valid absent
  -- What the close of a free target leaves to be aliased.
  have second {s₂ : State} (first : replicateClose env (targetClose env o) s = .ok ((),s₂)) :
      (∃ s', aliasItem t item o.retval s₂ = .ok ((),s') ∧ Duplicated s t o.retval item s') ↔
        s₂.sim.fs = s.sim.fs ∧ ∃ m, s.fdMaps.read item.fdMap = some m ∧ ¬ m.aliases o.retval ∧
          Raisable s₂.usageMap m.myFd := by
    obtain ⟨dropped,restored,_⟩ := closeFree (targetClose env o) real keyed fix idle
      grounded.arrayed grounded.toCounting table absent first
    have dropped : Dropped s t o.retval s₂ := dropped
    have items : s₂.items = s.items := by rw [State.items,restored.tables]; rfl
    have gone : itemOf s₂ t o.retval = none := by rw [itemOf,restored.tables]; exact absent
    have maps : s₂.fdMaps.read item.fdMap = s.fdMaps.read item.fdMap :=
      dropped.maps _ fun prev there => absurd (absent.symm.trans there) (by simp)
    rw [aliasSharesIff dropped grounded.arrayed (restored.tables ▸ inside) some_ valid,gone]
    constructor
    · intro both
      obtain ⟨⟨m,_,live,apart,raises⟩,files,_⟩ := both
      exact ⟨files,m,maps ▸ live,apart,raises⟩
    · intro both
      obtain ⟨files,m,live,apart,raises⟩ := both
      have there : ∃ i ∈ s₂.items, i.id = item.id := ⟨item,items ▸ found.member,rfl⟩
      exact ⟨⟨m,there,maps.trans live,apart,raises⟩,files,fun x some_ => absurd some_ (by simp)⟩
  constructor
  · intro shares
    obtain ⟨s',ran,done⟩ := shares
    obtain ⟨_,s₂,first,last⟩ := Prog.bindOk.mp ran
    obtain ⟨files,m,live,apart,raises⟩ := (second first).mp ⟨s',last,done⟩
    obtain ⟨_,⟨_,_,usage,used,after⟩,_⟩ := closeFree (targetClose env o) real keyed fix idle
      grounded.arrayed grounded.toCounting table absent first
    refine ⟨m,live,closes.mp ⟨s₂,first,files⟩,apart,fun usage' again => ?_⟩
    cases used.symm.trans again
    exact after ▸ raises
  · intro both
    obtain ⟨m,live,free⟩ := both
    obtain ⟨s₂,first,files⟩ := closes.mpr free.toMadeUp
    obtain ⟨_,⟨_,_,usage,used,after⟩,_⟩ := closeFree (targetClose env o) real keyed fix idle
      grounded.arrayed grounded.toCounting table absent first
    have raises := after ▸ free.again usage used
    obtain ⟨s',last,done⟩ := (second first).mpr ⟨files,m,live,free.absent,raises⟩
    exact ⟨s',(Prog.bindOf first).trans last,done⟩

end Records
section Dups
variable {env : Env} {meets : State → Op → Prop} {pid : Int32} {s s' : State} {t : Nat}

theorem foundHashed {fd : Int32} {item : FdItem} (found : Found s t fd item) :
    ∃ h, s.tables[t]? = some h ∧ 0 < h.entries ∧ findItem t fd s = .ok (some item,s) := by
  obtain ⟨h,inside,first⟩ := found.held
  obtain ⟨c,hashed,_⟩ := HashTable.findSome first
  have some_ := Nat.zero_lt_of_lt (HashTable.chainInside hashed)
  have valid := (HashTable.chainKey htOpsFdItem rfl some_).mp (by rw [hashed]; rfl)
  have asked := findItemHashed inside some_ valid
  rw [foundItem.mp found] at asked
  exact ⟨h,inside,some_,asked⟩

theorem findHashed {h : HashTable FdItem} {fd : Int32} {r : Option FdItem}
    (inside : s.tables[t]? = some h) (some_ : 0 < h.entries)
    (ran : findItem t fd s = .ok (r,s')) : 0 ≤ fd := by
  cases hashed : h.chain htOpsFdItem fd with
  | none =>
    simp [findItem,readTable,Prog.bindRun,inside,HashTable.find,hashed,key] at ran
  | some c => exact (HashTable.chainKey htOpsFdItem rfl some_).mp (by rw [hashed]; rfl)

theorem closeHashed {h : HashTable FdItem} {o : CloseOp} (table : tableOf s o.info.pid = some t)
    (inside : s.tables[t]? = some h) (some_ : 0 < h.entries)
    (ran : replicateClose env o s = .ok ((),s')) : 0 ≤ o.fd := by
  rw [replicateClose,withItem,Prog.bindOf (processHtKnown table)] at ran
  obtain ⟨_,_,got,_⟩ := Prog.bindOk.mp ran
  obtain ⟨_,_,asked,_⟩ := Prog.bindOk.mp got
  exact findHashed inside some_ asked

/-- A dup, dup2 or dup3 that succeeded, in check mode: it goes through, and does nothing else,
exactly when its target is sharable. -/
theorem dupShares (simulates : env.actSimulate = true) (idle : env.actReplicate = false)
    (checks : checking env.sim = true) (fix : env.fixMissing = true) (real : env.sim.disk.Real)
    (reached : Reached env meets pid s) {op : Op} {o : DupOp} (dups : op.dups = some o)
    (done : o.retval ≠ -1) (table : tableOf s o.info.pid = some t) {item : FdItem}
    (found : Found s t o.oldFd item) :
    (∃ s', replicateOp env op s = .ok ((),s') ∧ Duplicated s t o.retval item s') ↔
      Sharable env s t item o := by
  have runs : replicateOp env op = replicateDup env o := by
    cases op with
    | dup | dup2 | dup3 =>
      cases dups
      rfl
    | _ => cases dups
  have grounded := reachedGrounded reached
  obtain ⟨h,inside,some_,first⟩ := foundHashed found
  rw [runs,dupRun done table found first]
  unfold Sharable
  by_cases valid : 0 ≤ o.retval
  · rw [and_iff_right valid]
    cases target : itemOf s t o.retval with
    | none =>
      have other : o.retval ≠ o.oldFd := by
        intro same
        rw [same,foundItem.mp found] at target
        cases target
      rw [and_iff_right other]
      exact freeShares idle grounded table found inside some_ real (reachedKeyed real reached)
        simulates checks fix target valid
    | some prev =>
      have there := foundItem.mpr target
      have other : o.retval ≠ o.oldFd ↔ item ≠ prev := by
        rw [ne_eq,ne_eq,not_iff_not,← found.oldFd,← there.oldFd]
        constructor
        · intro same
          rw [there.oldFd,found.oldFd] at same
          exact found.unique (same ▸ there)
        · intro same
          rw [same]
      rw [other]
      exact usedShares idle grounded table found inside some_ there valid
  · refine iff_of_false (fun shares => valid ?_) fun sharable => valid sharable.1
    obtain ⟨_,ran,_⟩ := shares
    obtain ⟨_,s₂,closes,_⟩ := Prog.bindOk.mp ran
    exact closeHashed (o := targetClose env o) table inside some_ closes

def checkMode : Env :=
  { simulating with sim := ⟨⟨false,true,false⟩,⟨fun _ => false,fun _ => 0,some [slash]⟩⟩ }

theorem checkModeReal : checkMode.sim.disk.Real := by
  intro c given
  cases given
  decide

def dupTo (newFd : Int32) : DupOp := ⟨newFd,3,0,newFd,blankInfo 7⟩

structure DupRun (s : State) (item : FdItem) : Prop where
  reached : Reached checkMode anyOp 7 s
  table : tableOf s 7 = some 0
  found : itemOf s 0 3 = some item

theorem dupRunOf (ops : List Op) (first : State → FdItem → Bool)
    (made : ((initialised checkMode 7).bind (runOps checkMode anyOp ops)).any (fun s =>
      tableOf s 7 = some 0 && (itemOf s 0 3).any (first s)) = true) :
    ∃ s item, DupRun s item ∧ first s item = true := by
  obtain ⟨s,ran,checked⟩ := (Option.any_eq_true _ _).mp made
  rw [Bool.and_eq_true,decide_eq_true_eq] at checked
  obtain ⟨item,found,begins⟩ := (Option.any_eq_true _ _).mp checked.2
  exact ⟨s,item,⟨.run ran,checked.1,found⟩,begins⟩

instance (h : HashTable FdUsage) (n : Int32) : Decidable (Raisable h n) :=
  decidable_of_iff ((increaseFdUsage h n).toOption.isSome = true) (by
    rw [Raisable]
    cases increaseFdUsage h n <;> simp [Except.toOption])

instance (h : HashTable FdUsage) (p : FdMap) : Decidable (Counted h p) :=
  decidable_of_iff (supportedType p.type = true →
    ((h.find htOpsFdUsage p.myFd).bind id).isSome = true) (by
      simp [Counted,Option.isSome_iff_exists,Option.bind_eq_some_iff])

def readyTarget (s : State) (target : Int32) (item prev : FdItem) (p m : FdMap) : Bool :=
  prev.fdMap ≠ item.fdMap && ¬ target ∈ m.parentFds && Raisable s.usageMap m.myFd &&
    Counted s.usageMap p && (target ∈ p.parentFds && target ≠ -1) && (itemLeft s 0 target).isNone

theorem readyUsed {target : Int32} {item prev : FdItem} {p m : FdMap}
    (ready : readyTarget s target item prev p m = true) : UsedTarget s 0 target item prev p m := by
  simp only [readyTarget,Bool.and_eq_true,decide_eq_true_eq,Option.isNone_iff_eq_none] at ready
  obtain ⟨⟨⟨⟨⟨apart,absent⟩,raises⟩,counted⟩,present,real⟩,alone⟩ := ready
  refine ⟨⟨fun same => absurd same apart,fun _ => ?_,.inr raises⟩,counted,.inl ⟨real,present⟩,?_⟩
  · exact fun aliases => absent aliases.2
  · exact fun x left => absurd (left.symm.trans alone) (by simp)

theorem dupSharesUsed : ∃ s item s', DupRun s item ∧ (itemOf s 0 4).isSome = true ∧
    replicateOp checkMode (.dup2 (dupTo 4)) s = .ok ((),s') ∧ Duplicated s 0 4 item s' := by
  obtain ⟨s,item,run,used⟩ := dupRunOf [opened 7 "/f" 3,opened 7 "/g" 4]
    (fun s item => (itemOf s 0 4).any fun prev => (s.fdMaps.read prev.fdMap).any fun p =>
      (s.fdMaps.read item.fdMap).any fun m => readyTarget s 4 item prev p m) (by decide +kernel)
  obtain ⟨prev,target,used⟩ := (Option.any_eq_true _ _).mp used
  obtain ⟨p,live,used⟩ := (Option.any_eq_true _ _).mp used
  obtain ⟨m,source,ready⟩ := (Option.any_eq_true _ _).mp used
  have sharable : Sharable checkMode s 0 item (dupTo 4) := by
    have here : itemOf s 0 (dupTo 4).retval = some prev := target
    refine ⟨by decide,by decide,m,source,?_⟩
    rw [here]
    exact ⟨p,live,readyUsed ready⟩
  have table : tableOf s (dupTo 4).info.pid = some 0 := run.table
  have found : Found s 0 (dupTo 4).oldFd item := foundItem.mpr run.found
  have dups : Op.dups (.dup2 (dupTo 4)) = some (dupTo 4) := rfl
  have done : (dupTo 4).retval ≠ -1 := by decide
  obtain ⟨s',ran,shares⟩ :=
    (dupShares rfl rfl rfl rfl checkModeReal run.reached dups done table found).mpr sharable
  exact ⟨s,item,s',run,by rw [target]; rfl,ran,shares⟩

def madeUp : List Lib.Bytes := [(replicateGetMissingName 7 5).bytes]

theorem dupMakesFile : ¬ ∀ (env : Env) (pid : Int32) (s : State) (op : Op) (o : DupOp) (t : Nat)
    (item : FdItem) (s' : State), env.actSimulate = true → env.actReplicate = false →
    checking env.sim = true → env.fixMissing = true → env.sim.disk.Real →
    Reached env anyOp pid s → op.dups = some o → o.retval ≠ -1 → tableOf s o.info.pid = some t →
    Found s t o.oldFd item → replicateOp env op s = .ok ((),s') →
    Duplicated s t o.retval item s' := by
  intro all
  obtain ⟨s,item,run,both⟩ := dupRunOf [opened 7 "/f" 3] (fun s _ =>
    (s.sim.fs.root.at? madeUp).isNone && (after checkMode [.dup2 (dupTo 5)] s).any fun s' =>
      (s'.sim.fs.root.at? madeUp).isSome) (by decide +kernel)
  obtain ⟨before,both⟩ := (Bool.and_eq_true _ _).mp both
  obtain ⟨s',ran,later⟩ := (Option.any_eq_true _ _).mp both
  have table : tableOf s (dupTo 5).info.pid = some 0 := run.table
  have found : Found s 0 (dupTo 5).oldFd item := foundItem.mpr run.found
  have valid : (dupTo 5).retval ≠ -1 := by decide
  have done := all checkMode 7 s (.dup2 (dupTo 5)) (dupTo 5) 0 item s' rfl rfl rfl rfl checkModeReal
    run.reached rfl valid table found (afterOne ran)
  rw [done.files,Option.isNone_iff_eq_none.mp before] at later
  cases later

end Dups
end IoApps
