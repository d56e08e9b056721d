import IoApps.ReplicateMissing

/-! A dup that succeeded gives its target the fd_map of the source. The target is closed first, and
where it was free a file is made up to be closed. -/
namespace IoApps
open Lib (Arena Prog)

section Arrays
variable {m m' : FdMap} {stored : List Int32} {fd : Int32}

def SameFile (m m' : FdMap) : Prop :=
  m' = { m with parentFds := m'.parentFds, lastParIndex := m'.lastParIndex }

def FdMap.aliases (m : FdMap) (fd : Int32) : Prop := fd ≠ -1 ∧ fd ∈ m.parentFds

theorem aliasesStored (parents : Parents m stored) : m.aliases fd ↔ fd ∈ stored := by
  unfold FdMap.aliases
  rw [parents.array,List.mem_append,List.mem_replicate]
  constructor
  · intro both
    exact both.2.resolve_right fun free => both.1 free.2
  · intro there
    exact ⟨fun minus => parents.real (minus ▸ there),.inl there⟩

theorem parentSlotAbsent (real : (-1) ∉ stored) (absent : fd ∉ stored) (valid : fd ≠ -1)
    (n i : Nat) : parentSlot fd (stored ++ List.replicate n (-1)) i =
      if n = 0 then .ok none else .error .parentMissing := by
  induction stored generalizing i with
  | nil =>
    cases n with
    | zero => rfl
    | succ n => simp [List.replicate_succ,parentSlot,valid.symm]
  | cons x stored ih =>
    have other : x ≠ fd := fun same => absent (by simp [same])
    have used : x ≠ -1 := fun same => real (by simp [same])
    rw [List.cons_append,parentSlot,if_neg other,if_neg used]
    exact ih (fun h => real (List.mem_cons_of_mem _ h))
      (fun h => absent (List.mem_cons_of_mem _ h)) _

theorem insertParentEnds (parents : Parents m stored) (valid : fd ≠ -1)
    (ran : insertParentFd m fd = .ok m') : ∃ stored', Parents m' stored' ∧ SameFile m m' ∧
      (stored' = stored ∨ stored' = stored ++ [fd]) := by
  have absent : fd ∉ stored := by
    intro present
    rw [insertParentPresent parents present] at ran
    cases ran
  rcases Nat.lt_or_ge stored.length MAX_PARENT_IDS with room | full
  · obtain ⟨a,b,run,more⟩ := insertParentRoom parents absent valid room
    cases run.symm.trans ran
    exact ⟨stored ++ [fd],more,rfl,.inr rfl⟩
  · have run := insertParentFull parents absent valid (Nat.le_antisymm parents.small full)
    cases run.symm.trans ran
    exact ⟨stored,parents,rfl,.inl rfl⟩

theorem deleteParentEnds {last : Bool} (parents : Parents m stored) (valid : fd ≠ -1)
    (ran : deleteParentFd m fd = .ok (m',last)) : ∃ stored', Parents m' stored' ∧ SameFile m m' ∧
      (∀ a, a ∈ stored' ↔ a ∈ stored ∧ a ≠ fd) ∧ (last = true ↔ stored' = []) := by
  by_cases present : fd ∈ stored
  · obtain ⟨a,b,stored',last',run,less,perm,ends⟩ := deleteParentPresent parents present
    cases run.symm.trans ran
    refine ⟨stored',less,rfl,fun a => ?_,ends⟩
    have gone := (List.nodup_cons.mp (perm.symm.nodup parents.nodup)).1
    rw [← perm.mem_iff,List.mem_cons]
    constructor
    · exact fun there => ⟨.inr there,fun same => gone (same ▸ there)⟩
    · exact fun both => both.1.resolve_left both.2
  · have slot := parentSlotAbsent parents.real present valid (MAX_PARENT_IDS - stored.length) 0
    rw [deleteParentFd,parents.array,slot] at ran
    split at ran
    · cases ran
      refine ⟨stored,parents,rfl,fun a => ?_,?_⟩
      · exact iff_self_and.mpr fun there same => present (same ▸ there)
      · rw [decide_eq_true_eq,parents.last,← List.length_eq_zero_iff]
        omega
    · cases ran

theorem insertParentRuns (parents : Parents m stored) (valid : fd ≠ -1) :
    (∃ m', insertParentFd m fd = .ok m') ↔ ¬ m.aliases fd := by
  rw [aliasesStored parents]
  constructor
  · intro runs present
    obtain ⟨m',ran⟩ := runs
    rw [insertParentPresent parents present] at ran
    cases ran
  · intro absent
    rcases Nat.lt_or_ge stored.length MAX_PARENT_IDS with room | full
    · obtain ⟨a,b,run,_⟩ := insertParentRoom parents absent valid room
      exact ⟨_,run⟩
    · exact ⟨m,insertParentFull parents absent valid (Nat.le_antisymm parents.small full)⟩

theorem fullArray (parents : Parents m stored) :
    (-1) ∉ m.parentFds ↔ stored.length = MAX_PARENT_IDS := by
  have small := parents.small
  rw [parents.array,List.mem_append,List.mem_replicate,not_or,and_iff_right parents.real]
  simp only [and_true,ne_eq,not_not]
  omega

theorem deleteParentRuns (parents : Parents m stored) (valid : fd ≠ -1) :
    (∃ r, deleteParentFd m fd = .ok r) ↔ m.aliases fd ∨ (-1) ∉ m.parentFds := by
  rw [aliasesStored parents,fullArray parents]
  by_cases present : fd ∈ stored
  · obtain ⟨a,b,stored',last,run,_⟩ := deleteParentPresent parents present
    exact iff_of_true ⟨_,run⟩ (.inl present)
  · have slot := parentSlotAbsent parents.real present valid (MAX_PARENT_IDS - stored.length) 0
    have small := parents.small
    rw [or_iff_right present,deleteParentFd,parents.array,slot]
    by_cases full : stored.length = MAX_PARENT_IDS
    · rw [if_pos (by omega)]
      exact iff_of_true ⟨_,rfl⟩ full
    · rw [if_neg (by omega)]
      exact iff_of_false (fun runs => absurd runs.choose_spec (by simp [bind,Except.bind])) full

def Arrayed (maps : Arena FdMap) : Prop := ∀ a m, maps.read a = some m → ∃ stored, Parents m stored

theorem Arrayed.write {maps : Arena FdMap} {a : Nat} (arrayed : Arrayed maps)
    (parents : Parents m stored) : Arrayed (maps.write a m) := by
  intro b n read
  by_cases here : b = a
  · subst here
    cases before : maps.read b with
    | none =>
      by_cases inside : b < maps.length
      · rw [Arena.read,Arena.write,List.getElem?_set_self inside] at read
        cases read
        exact ⟨stored,parents⟩
      · rw [Arena.read,Arena.write,List.set_eq_of_length_le (Nat.not_lt.mp inside)] at read
        exact arrayed b n read
    | some m₀ =>
      rw [Arena.readWrite m before] at read
      cases read
      exact ⟨stored,parents⟩
  · rw [Arena.readWriteNe _ _ here] at read
    exact arrayed b n read

theorem Arrayed.free {maps : Arena FdMap} (arrayed : Arrayed maps) (a : Nat) :
    Arrayed (maps.free a) := by
  intro b n read
  by_cases here : b = a
  · rw [here,Arena.readFree] at read
    cases read
  · rw [Arena.readFreeNe _ here] at read
    exact arrayed b n read

theorem Arrayed.put {s s' : State} {t : Nat} {k counted : Int32} (arrayed : Arrayed s.fdMaps)
    (parents : Parents m stored) (put : Put s t k fd counted m s') : Arrayed s'.fdMaps := by
  cases put
  intro b n read
  by_cases here : b = s.fdMaps.fresh
  · rw [here,Arena.readAlloc] at read
    cases read
    exact ⟨stored,parents⟩
  · rw [Arena.readAllocNe _ _ here] at read
    exact arrayed b n read

variable {env : Env} {s s' : State}

theorem arrayedEdit {ok : Allowed} (edit : Edit env ok s s') (arrayed : Arrayed s.fdMaps) :
    Arrayed s'.fdMaps := by
  cases edit with
  | logged | openFailed | probed | simmed | openNumber | tableAdded | linked | closeFailed =>
    exact arrayed
  | seeked live pos =>
    obtain ⟨stored,parents⟩ := arrayed _ _ live
    exact arrayed.write (parents.seeked pos)
  | placed origin parents put => exact Arrayed.put (origin.same.2 ▸ arrayed) parents put
  | copied copies there live put =>
    obtain ⟨stored,parents⟩ := arrayed _ _ live
    exact arrayed.put parents put
  | closed table found live release deleted =>
    obtain ⟨stored,parents⟩ := arrayed _ _ live
    obtain ⟨stored',less,_⟩ := deleteParentEnds parents (findValid found) deleted
    dsimp only
    split
    · exact arrayed.free _
    · exact arrayed.write less
  | aliased careful live stored valid =>
    obtain ⟨before,parents⟩ := arrayed _ _ live
    obtain ⟨after,more,_⟩ := insertParentEnds parents valid stored
    exact arrayed.write more

theorem reachedArrayed {meets : State → Op → Prop} {pid : Int32}
    (reached : Reached env meets pid s) : Arrayed s.fdMaps := by
  refine reached.keeps .any (fun s => Arrayed s.fdMaps) ?_ (fun s op _ _ => anyPermits env s op)
    fun _ _ => arrayedEdit
  intro s began
  obtain ⟨mappings,a,b,c,d,_,_,_,_,rfl,put₀,put₁,put₂,one,two,three,_,_,_,rfl⟩ := began.puts
  have empty : Arrayed (firstTable pid mappings).fdMaps := by
    intro a m read
    cases read
  have full : Arrayed d.fdMaps :=
    ((empty.put one.parents put₀).put two.parents put₁).put three.parents put₂
  exact full

end Arrays
section Target
variable {env : Env} {s s' : State} {t : Nat} {fd : Int32} {item prev : FdItem} {m m' : FdMap}

structure Loses (m : FdMap) (target : Int32) (r : Option FdMap) : Prop where
  freed : r = none ↔ ∀ fd, m.aliases fd → fd = target
  kept : ∀ m', r = some m' →
    SameFile m m' ∧ ∀ fd, m'.aliases fd ↔ m.aliases fd ∧ fd ≠ target

theorem Loses.room {stored stored' : List Int32} (loses : Loses m fd (some m')) (valid : fd ≠ -1)
    (parents : Parents m stored) (parents' : Parents m' stored') (room : HasRoom m fd) :
    HasRoom m' fd := by
  have fewer (a : Int32) : a ∈ stored' ↔ a ∈ stored ∧ a ≠ fd := by
    rw [← aliasesStored parents',← aliasesStored parents]
    exact (loses.kept m' rfl).2 a
  refine (hasRoomStored parents' valid).mpr (.inr ?_)
  rcases (hasRoomStored parents valid).mp room with there | free
  · have apart : (fd :: stored').Nodup :=
      List.nodup_cons.mpr ⟨fun inside => ((fewer fd).mp inside).2 rfl,parents'.nodup⟩
    have inside : (fd :: stored') ⊆ stored :=
      List.cons_subset.mpr ⟨there,fun a member => ((fewer a).mp member).1⟩
    have size := (List.subperm_of_subset apart inside).length_le
    exact Nat.lt_of_lt_of_le size parents.small
  · have inside : stored' ⊆ stored := fun a member => ((fewer a).mp member).1
    have size := (List.subperm_of_subset parents'.nodup inside).length_le
    exact Nat.lt_of_le_of_lt size free

structure Dropped (s : State) (t : Nat) (target : Int32) (s' : State) : Prop where
  arrays : Arrayed s'.fdMaps
  processes : s'.fdMappings = s.fdMappings
  others : ∀ u fd, (u,fd) ≠ (t,target) → itemOf s' u fd = itemOf s u fd
  maps : ∀ a, (∀ prev, itemOf s t target = some prev → prev.fdMap ≠ a) →
    s'.fdMaps.read a = s.fdMaps.read a
  previous : ∀ prev m, itemOf s t target = some prev → s.fdMaps.read prev.fdMap = some m →
    Loses m target (s'.fdMaps.read prev.fdMap)

def itemLeft (s : State) (t : Nat) (fd : Int32) : Option FdItem :=
  s.tables[t]?.bind fun h => (h.remove htOpsFdItem fd).bind fun h' =>
    (h'.find htOpsFdItem fd).join

theorem otherItem {fd a : Int32} (other : a ≠ fd) (x : FdItem)
    (mine : htOpsFdItem.compare a x = true) : ¬ htOpsFdItem.compare fd x = true := by
  intro yours
  exact other ((of_decide_eq_true mine).symm.trans (of_decide_eq_true yours))

theorem itemOfSet {h : HashTable FdItem} {u : Nat} {a : Int32} (table : s.tables[t]? = some h)
    {h' : HashTable FdItem} (tables : s'.tables = s.tables.set t h')
    (same : a ≠ fd → h'.find htOpsFdItem a = h.find htOpsFdItem a) (other : (u,a) ≠ (t,fd)) :
    itemOf s' u a = itemOf s u a := by
  unfold itemOf
  rw [tables]
  by_cases here : u = t
  · subst here
    have apart : a ≠ fd := fun eq => other (by rw [eq])
    rw [List.getElem?_set_self (List.getElem?_eq_some_iff.mp table).1,table,Option.bind_some,
      Option.bind_some,same apart]
  · rw [List.getElem?_set_ne (Ne.symm here)]

theorem removedDrops {h h' : HashTable FdItem} {last : Bool} (arrayed : Arrayed s.fdMaps)
    (table : s.tables[t]? = some h) (first : h.find htOpsFdItem fd = some (some prev))
    (live : s.fdMaps.read prev.fdMap = some m) (deleted : deleteParentFd m fd = .ok (m',last))
    (removed : h.remove htOpsFdItem fd = some h') (links : s'.fdMappings = s.fdMappings)
    (tables : s'.tables = s.tables.set t h')
    (maps : s'.fdMaps = if last then s.fdMaps.free prev.fdMap else s.fdMaps.write prev.fdMap m') :
    Dropped s t fd s' := by
  have valid := findValid first
  have found : itemOf s t fd = some prev := foundItem.mp ⟨h,table,first⟩
  obtain ⟨stored,parents⟩ := arrayed _ _ live
  obtain ⟨stored',less,same,fewer,final⟩ := deleteParentEnds parents valid deleted
  have loses (a : Int32) : m'.aliases a ↔ m.aliases a ∧ a ≠ fd := by
    rw [aliasesStored less,aliasesStored parents]
    exact fewer a
  have gone : stored' = [] ↔ ∀ a, m.aliases a → a = fd := by
    simp only [List.eq_nil_iff_forall_not_mem,← aliasesStored less,loses,not_and,not_not]
  constructor
  · rw [maps]
    split
    · exact arrayed.free _
    · exact arrayed.write less
  · exact links
  · intro u a other
    refine itemOfSet table tables (fun apart => ?_) other
    exact HashTable.findRemoveOther (otherItem apart) removed
  · intro a apart
    have different := (apart prev found).symm
    rw [maps]
    split
    · exact Arena.readFreeNe _ different
    · exact Arena.readWriteNe _ _ different
  · intro prev' m₀ found' live'
    cases found.symm.trans found'
    cases live.symm.trans live'
    rw [maps]
    cases last with
    | true =>
      rw [if_pos rfl,Arena.readFree]
      exact ⟨iff_of_true rfl (gone.mp (final.mp rfl)),fun _ none => absurd none (by simp)⟩
    | false =>
      rw [if_neg (by simp),Arena.readWrite m' live]
      refine ⟨iff_of_false (by simp) fun none => ?_,fun n kept => ?_⟩
      · exact absurd (final.mpr (gone.mpr none)) (by simp)
      · cases kept
        exact ⟨same,loses⟩

end Target
end IoApps
