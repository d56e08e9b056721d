import IoApps.ReplicateEdits

/-! Who owns an fd_map: the parents stored in it are the recorded descriptors of the items that
refer to it. With careful dups every edit keeps this, and no item is ever left dangling. -/
namespace IoApps
open Lib (Arena Prog)

/-- Every item's fd_map is live and has the item's descriptor among its parents; the items that
share an fd_map have different descriptors. -/
structure Owned (s : State) : Prop where
  parents : ∀ i ∈ s.items, ∃ m stored,
    s.fdMaps.read i.fdMap = some m ∧ Parents m stored ∧ i.oldFd ∈ stored
  apart : s.items.Pairwise fun i j => i.fdMap = j.fdMap → i.oldFd ≠ j.oldFd

theorem Owned.noDangling {s : State} (owned : Owned s) : ¬ Dangling s := by
  rintro ⟨i,member,gone⟩
  obtain ⟨m,stored,live,_⟩ := owned.parents i member
  rw [gone] at live
  exact absurd live (by simp)

theorem Owned.of {s s' : State} (owned : Owned s) (tables : s'.tables = s.tables)
    (maps : s'.fdMaps = s.fdMaps) : Owned s' where
  parents := by
    intro i member
    rw [State.items,tables] at member
    rw [maps]
    exact owned.parents i member
  apart := by
    rw [State.items,tables]
    exact owned.apart

theorem apartPerm {l l' : List FdItem} (perm : l.Perm l') :
    (l.Pairwise fun i j => i.fdMap = j.fdMap → i.oldFd ≠ j.oldFd) ↔
      l'.Pairwise fun i j => i.fdMap = j.fdMap → i.oldFd ≠ j.oldFd :=
  perm.pairwise_iff fun differ same => (differ same.symm).symm

theorem Parents.seeked {m : FdMap} {stored : List Int32} (parents : Parents m stored)
    (pos : UInt64) : Parents { m with curPos := pos } stored :=
  ⟨parents.array,parents.small,parents.last,parents.real,parents.nodup⟩

theorem hasRoomStored {m : FdMap} {stored : List Int32} (parents : Parents m stored) {fd : Int32}
    (valid : fd ≠ -1) : HasRoom m fd ↔ fd ∈ stored ∨ stored.length < MAX_PARENT_IDS := by
  rw [HasRoom,parents.array]
  simp only [List.mem_append,List.mem_replicate,parents.real,valid,false_or,and_true,and_false,
    or_false]
  have small := parents.small
  constructor
  · rintro (there | free)
    · exact .inl there
    · exact .inr (by omega)
  · rintro (there | free)
    · exact .inl there
    · exact .inr (by omega)

theorem insertParentStored {m m' : FdMap} {stored : List Int32} (parents : Parents m stored)
    {fd : Int32} (valid : fd ≠ -1) (room : HasRoom m fd) (ran : insertParentFd m fd = .ok m') :
    Parents m' (stored ++ [fd]) ∧ fd ∉ stored ∧ m'.myFd = m.myFd ∧ m'.type = m.type ∧
      m'.name = m.name := by
  have absent : fd ∉ stored := by
    intro present
    rw [insertParentPresent parents present] at ran
    exact absurd ran (by simp)
  have free := ((hasRoomStored parents valid).mp room).resolve_left absent
  obtain ⟨a,b,run,more⟩ := insertParentRoom parents absent valid free
  rw [run] at ran
  cases Except.ok.inj ran
  exact ⟨more,absent,rfl,rfl,rfl⟩

theorem deleteParentStored {m m' : FdMap} {stored : List Int32} {last : Bool}
    (parents : Parents m stored) {fd : Int32} (present : fd ∈ stored)
    (ran : deleteParentFd m fd = .ok (m',last)) :
    ∃ stored', Parents m' stored' ∧ (fd :: stored').Perm stored ∧ (last = true ↔ stored' = []) ∧
      m'.myFd = m.myFd ∧ m'.type = m.type := by
  obtain ⟨a,b,stored',last',run,less,perm,done⟩ := deleteParentPresent parents present
  rw [run] at ran
  cases Except.ok.inj ran
  exact ⟨stored',less,perm,done,rfl,rfl⟩

theorem ownedWithout {s : State} {item : FdItem} {rest : List FdItem}
    (perm : (item :: rest).Perm s.items) (owned : Owned s) :
    rest.Pairwise (fun i j => i.fdMap = j.fdMap → i.oldFd ≠ j.oldFd) ∧
      ∀ j ∈ rest, j.fdMap = item.fdMap → j.oldFd ≠ item.oldFd := by
  obtain ⟨first,others⟩ := List.pairwise_cons.mp ((apartPerm perm).mpr owned.apart)
  exact ⟨others,fun j member same => (first j member same.symm).symm⟩

theorem Owned.put {s s' : State} {t : Nat} {k fd counted : Int32} {m : FdMap}
    {stored : List Int32} (owned : Owned s) (put : Put s t k fd counted m s')
    (parents : Parents m stored) (present : fd ∈ stored) : Owned s' := by
  have perm := putItems put
  have kept := putKept put
  have maps : s'.fdMaps = s.fdMaps.alloc m := by
    cases put
    rfl
  constructor
  · intro i member
    rcases List.mem_cons.mp (perm.mem_iff.mp member) with rfl | old
    · exact ⟨m,stored,by rw [maps]; exact Arena.readAlloc _ _,parents,present⟩
    · obtain ⟨m',stored',live,rest⟩ := owned.parents i old
      exact ⟨m',stored',kept.maps _ _ live,rest⟩
  · rw [apartPerm perm,List.pairwise_cons]
    refine ⟨?_,owned.apart⟩
    intro j member same
    obtain ⟨m',stored',live,_⟩ := owned.parents j member
    rw [← same,Arena.readFresh] at live
    exact absurd live (by simp)

theorem Owned.aliased {s s' : State} {item : FdItem} {m m' : FdMap} (owned : Owned s)
    (new : FdItem) (there : item ∈ s.items) (live : s.fdMaps.read item.fdMap = some m)
    (valid : new.oldFd ≠ -1) (room : HasRoom m new.oldFd)
    (stored : insertParentFd m new.oldFd = .ok m') (shared : new.fdMap = item.fdMap)
    (perm : s'.items.Perm (new :: s.items)) (maps : s'.fdMaps = s.fdMaps.write item.fdMap m') :
    Owned s' := by
  obtain ⟨m₀,l,live₀,parents,_⟩ := owned.parents item there
  cases Option.some.inj (live.symm.trans live₀)
  obtain ⟨more,absent,_⟩ := insertParentStored parents valid room stored
  have here := Arena.readWrite m' live
  constructor
  · intro i member
    rw [maps]
    by_cases same : i.fdMap = item.fdMap
    · refine ⟨m',_,by rw [same]; exact here,more,?_⟩
      rcases List.mem_cons.mp (perm.mem_iff.mp member) with rfl | old
      · simp
      · obtain ⟨m₁,l₁,live₁,parents₁,present⟩ := owned.parents i old
        rw [same] at live₁
        cases Option.some.inj (live.symm.trans live₁)
        have again : l₁ = l := parentsUnique parents₁ parents
        exact List.mem_append_left _ (again ▸ present)
    · rcases List.mem_cons.mp (perm.mem_iff.mp member) with rfl | old
      · exact absurd shared same
      · rw [Arena.readWriteNe _ _ same]
        exact owned.parents i old
  · rw [apartPerm perm,List.pairwise_cons]
    refine ⟨?_,owned.apart⟩
    intro j member same
    obtain ⟨m₁,l₁,live₁,parents₁,present⟩ := owned.parents j member
    rw [← same,shared] at live₁
    cases Option.some.inj (live.symm.trans live₁)
    have again : l₁ = l := parentsUnique parents₁ parents
    exact fun eq => absent (eq ▸ again ▸ present)

theorem Owned.closed {s s' : State} {item : FdItem} {m m' : FdMap} {last : Bool}
    (owned : Owned s) (perm : (item :: s'.items).Perm s.items)
    (live : s.fdMaps.read item.fdMap = some m)
    (deleted : deleteParentFd m item.oldFd = .ok (m',last))
    (maps : s'.fdMaps = if last then s.fdMaps.free item.fdMap else s.fdMaps.write item.fdMap m') :
    Owned s' := by
  obtain ⟨others,differ⟩ := ownedWithout perm owned
  have there : item ∈ s.items := perm.mem_iff.mp List.mem_cons_self
  obtain ⟨m₀,l,live₀,parents,present⟩ := owned.parents item there
  cases Option.some.inj (live.symm.trans live₀)
  obtain ⟨l',less,left,done,_⟩ := deleteParentStored parents present deleted
  refine ⟨?_,others⟩
  intro j member
  obtain ⟨m₁,l₁,live₁,parents₁,present₁⟩ :=
    owned.parents j (perm.mem_iff.mp (List.mem_cons_of_mem _ member))
  by_cases same : j.fdMap = item.fdMap
  · rw [same] at live₁
    cases Option.some.inj (live.symm.trans live₁)
    cases parentsUnique parents₁ parents
    have stays : j.oldFd ∈ l' :=
      (List.mem_cons.mp (left.mem_iff.mpr present₁)).resolve_left (differ j member same)
    have goesOn : last = false := by
      by_contra ended
      rw [done.mp (by simpa using ended)] at stays
      exact absurd stays List.not_mem_nil
    refine ⟨m',l',?_,less,stays⟩
    rw [maps,goesOn,same]
    exact Arena.readWrite m' live
  · refine ⟨m₁,l₁,?_,parents₁,present₁⟩
    rw [maps]
    split
    · rwa [Arena.readFreeNe _ same]
    · rwa [Arena.readWriteNe _ _ same]

theorem Owned.seeked {s : State} {a : Nat} {m : FdMap} (owned : Owned s)
    (live : s.fdMaps.read a = some m) (pos : UInt64) :
    Owned { s with fdMaps := s.fdMaps.write a { m with curPos := pos } } := by
  refine ⟨?_,owned.apart⟩
  intro i member
  obtain ⟨m',stored,live',parents,present⟩ := owned.parents i member
  by_cases same : i.fdMap = a
  · rw [same,live] at live'
    cases Option.some.inj live'
    refine ⟨_,stored,?_,parents.seeked pos,present⟩
    rw [same]
    exact Arena.readWrite _ live
  · exact ⟨m',stored,by rwa [Arena.readWriteNe _ _ same],parents,present⟩

theorem Origin.same {env : Env} {ok : Allowed} {s s₁ : State} {counted : Int32} {m : FdMap}
    (origin : Origin env ok s counted m s₁) : s₁.tables = s.tables ∧ s₁.fdMaps = s.fdMaps := by
  cases origin with
  | replayed => exact ⟨rfl,rfl⟩
  | placeholder => exact ⟨rfl,rfl⟩
  | socket => exact ⟨rfl,rfl⟩
  | pipe => exact ⟨rfl,rfl⟩

theorem Origin.links {env : Env} {ok : Allowed} {s s₁ : State} {counted : Int32} {m : FdMap}
    (origin : Origin env ok s counted m s₁) : s₁.fdMappings = s.fdMappings := by
  cases origin with
  | replayed => rfl
  | placeholder => rfl
  | socket => rfl
  | pipe => rfl

theorem Origin.usage {env : Env} {ok : Allowed} {s s₁ : State} {counted : Int32} {m : FdMap}
    (origin : Origin env ok s counted m s₁) : s₁.usageMap = s.usageMap := by
  cases origin with
  | replayed => rfl
  | placeholder => rfl
  | socket => rfl
  | pipe => rfl

theorem Release.same {env : Env} {s s₁ : State} {m : FdMap} (release : Release env s m s₁) :
    s₁.tables = s.tables ∧ s₁.fdMaps = s.fdMaps := by
  cases release with
  | untracked => exact ⟨rfl,rfl⟩
  | kept => exact ⟨rfl,rfl⟩
  | simulated => exact ⟨rfl,rfl⟩
  | closed => exact ⟨rfl,rfl⟩

theorem tableEdit {env : Env} {ok : Allowed} {s s' : State} {pid : Int32} {t : Nat}
    (edit : Edit env ok s s') (table : tableOf s pid = some t) : tableOf s' pid = some t := by
  cases edit with
  | logged | openFailed | probed | simmed | openNumber | seeked | closeFailed => exact table
  | linked inserted => exact insertKeeps table inserted
  | placed origin parents put =>
    cases put
    exact origin.links ▸ table
  | tableAdded => exact table
  | copied copies there live put =>
    cases put
    exact table
  | closed there found live release =>
    cases release with
    | untracked | kept | simulated | closed => exact table
  | aliased => exact table

theorem Working.later {env : Env} {ok ok' : Allowed} {s s' : State} {pid : Int32} {t : Nat}
    (working : Working ok s pid t) (edits : Relation.ReflTransGen (Edit env ok') s s') :
    Working ok s' pid t where
  key := working.key
  named := working.named
  table := Prog.keptByEdits (fun s => tableOf s pid = some t) (fun _ _ => tableEdit) edits
    working.table

section Stamps

structure Stamped (s : State) : Prop where
  distinct : (s.items.map FdItem.id).Nodup
  below : ∀ i ∈ s.items, i.id < s.nextItem

structure Older (s s' : State) : Prop where
  next : s.nextItem ≤ s'.nextItem
  back : ∀ (t : Nat) (h' : HashTable FdItem), s'.tables[t]? = some h' → ∀ i ∈ h'.items,
    i.id < s.nextItem → ∃ h : HashTable FdItem, s.tables[t]? = some h ∧ i ∈ h.items

theorem stampSame {tables : List (HashTable FdItem)}
    (distinct : ((tables.flatMap HashTable.items).map FdItem.id).Nodup) {x t : Nat}
    {h g : HashTable FdItem} (first : tables[x]? = some h) (second : tables[t]? = some g)
    {i j : FdItem} (left : i ∈ h.items) (right : j ∈ g.items) (same : i.id = j.id) :
    x = t ∧ i = j := by
  induction tables generalizing x t with
  | nil => simp at first
  | cons a rest ih =>
    rw [List.flatMap_cons,List.map_append] at distinct
    obtain ⟨here,there,apart⟩ := List.nodup_append.mp distinct
    have later {k : HashTable FdItem} {y : Nat} {q : FdItem} (table : rest[y]? = some k)
        (member : q ∈ k.items) : q.id ∈ (rest.flatMap HashTable.items).map FdItem.id :=
      List.mem_map_of_mem (List.mem_flatMap.mpr ⟨k,List.mem_of_getElem? table,member⟩)
    cases x with
    | zero =>
      have mine : a = h := Option.some.inj first
      subst mine
      cases t with
      | zero =>
        have mine : a = g := Option.some.inj second
        subst mine
        exact ⟨rfl,List.inj_on_of_nodup_map here left right same⟩
      | succ t => exact absurd same (apart _ (List.mem_map_of_mem left) _ (later second right))
    | succ x =>
      cases t with
      | zero =>
        have mine : a = g := Option.some.inj second
        subst mine
        exact absurd same.symm (apart _ (List.mem_map_of_mem right) _ (later first left))
      | succ t =>
        obtain ⟨rfl,same⟩ := ih there first second
        exact ⟨rfl,same⟩

theorem Stamped.more {s s' : State} {new : FdItem} (stamped : Stamped s)
    (perm : s'.items.Perm (new :: s.items)) (mine : new.id = s.nextItem)
    (next : s'.nextItem = s.nextItem + 1) : Stamped s' where
  distinct := by
    rw [(perm.map FdItem.id).nodup_iff,List.map_cons,List.nodup_cons]
    refine ⟨fun member => ?_,stamped.distinct⟩
    obtain ⟨i,there,same⟩ := List.mem_map.mp member
    have early := stamped.below i there
    omega
  below := by
    intro i member
    rw [next]
    rcases List.mem_cons.mp (perm.mem_iff.mp member) with rfl | there
    · omega
    · exact Nat.lt_succ_of_lt (stamped.below i there)

theorem Stamped.of {s s' : State} (stamped : Stamped s) (items : s'.items = s.items)
    (next : s'.nextItem = s.nextItem) : Stamped s' :=
  ⟨items ▸ stamped.distinct,items ▸ next ▸ stamped.below⟩

theorem Stamped.put {s s' : State} {t : Nat} {k fd counted : Int32} {m : FdMap}
    (stamped : Stamped s) (put : Put s t k fd counted m s') : Stamped s' := by
  refine stamped.more (putItems put) rfl ?_
  cases put
  rfl

theorem Origin.next {env : Env} {ok : Allowed} {s s₁ : State} {counted : Int32} {m : FdMap}
    (origin : Origin env ok s counted m s₁) : s₁.nextItem = s.nextItem := by
  cases origin with
  | replayed => rfl
  | placeholder => rfl
  | socket => rfl
  | pipe => rfl

theorem Release.next {env : Env} {s s₁ : State} {m : FdMap} (release : Release env s m s₁) :
    s₁.nextItem = s.nextItem := by
  cases release with
  | untracked => rfl
  | kept => rfl
  | simulated => rfl
  | closed => rfl

theorem tableAddedItems (s : State) :
    (State.items { s with tables := s.tables ++ [.init HASH_TABLE_SIZE] }) = s.items := by
  simp [State.items,HashTable.itemsInit]

theorem stampedEdit {env : Env} {ok : Allowed} {s s' : State} (edit : Edit env ok s s')
    (stamped : Stamped s) : Stamped s' := by
  cases edit with
  | logged | openFailed | probed | simmed | openNumber | seeked | linked | closeFailed =>
    exact stamped.of rfl rfl
  | placed origin parents put =>
    have items : State.items _ = s.items := congrArg (List.flatMap HashTable.items) origin.same.1
    exact (stamped.of items origin.next).put put
  | tableAdded => exact stamped.of (tableAddedItems s) rfl
  | copied copies there live put => exact stamped.put put
  | closed table found live release deleted removed =>
    have perm := removedItems table found removed
    refine ⟨?_,fun i member => ?_⟩
    · exact (List.nodup_cons.mp ((perm.map FdItem.id).nodup_iff.mpr stamped.distinct)).2
    · rw [show State.nextItem _ = s.nextItem from release.next]
      exact stamped.below i (perm.mem_iff.mp (List.mem_cons_of_mem _ member))
  | aliased careful live stored valid table inserted used =>
    exact stamped.more (flatMapSet table (HashTable.insertItems inserted)) rfl rfl

theorem Older.refl (s : State) : Older s s :=
  ⟨Nat.le_refl _,fun _ h table _ member _ => ⟨h,table,member⟩⟩

theorem Older.trans {s t u : State} (a : Older s t) (b : Older t u) : Older s u where
  next := Nat.le_trans a.next b.next
  back := by
    intro x h' table i member early
    obtain ⟨h,before,there⟩ := b.back x h' table i member (Nat.lt_of_lt_of_le early a.next)
    exact a.back x h before i there early

theorem olderSame {s s' : State} (tables : s'.tables = s.tables)
    (next : s'.nextItem = s.nextItem) : Older s s' :=
  ⟨Nat.le_of_eq next.symm,fun _ h table _ member _ => ⟨h,tables ▸ table,member⟩⟩

theorem olderSet {s s' : State} {t : Nat} {h h' : HashTable FdItem} (table : s.tables[t]? = some h)
    (tables : s'.tables = s.tables.set t h') (next : s.nextItem ≤ s'.nextItem)
    (early : ∀ i ∈ h'.items, i.id < s.nextItem → i ∈ h.items) : Older s s' where
  next := next
  back := by
    intro x g there i member below
    rw [tables] at there
    by_cases here : t = x
    · subst here
      rw [List.getElem?_set_self (List.getElem?_eq_some_iff.mp table).1] at there
      cases Option.some.inj there
      exact ⟨h,table,early i member below⟩
    · rw [List.getElem?_set_ne here] at there
      exact ⟨g,there,member⟩

theorem olderPut {s s' : State} {t : Nat} {k fd counted : Int32} {m : FdMap}
    (put : Put s t k fd counted m s') : Older s s' := by
  obtain ⟨table,inserted,_⟩ := put
  refine olderSet table rfl (Nat.le_succ _) fun i member early => ?_
  rcases List.mem_cons.mp ((HashTable.insertItems inserted).mem_iff.mp member) with rfl | there
  · exact absurd early (Nat.lt_irrefl _)
  · exact there

theorem olderEdit {env : Env} {ok : Allowed} {s t u : State} (edit : Edit env ok t u)
    (older : Older s t) : Older s u := by
  refine older.trans ?_
  cases edit with
  | logged | openFailed | probed | simmed | openNumber | seeked | linked | closeFailed =>
    exact olderSame rfl rfl
  | placed origin parents put => exact (olderSame origin.same.1 origin.next).trans (olderPut put)
  | tableAdded =>
    refine ⟨Nat.le_refl _,fun x h' table i member _ => ?_⟩
    rw [List.getElem?_append] at table
    split at table
    · exact ⟨h',table,member⟩
    · have empty := List.mem_singleton.mp (List.mem_of_getElem? table)
      rw [empty,HashTable.itemsInit] at member
      exact absurd member List.not_mem_nil
  | copied copies there live put => exact olderPut put
  | closed table found live release deleted removed =>
    refine olderSet table rfl (Nat.le_of_eq release.next.symm) fun i member _ => ?_
    exact (HashTable.removeItems found removed).mem_iff.mp (List.mem_cons_of_mem _ member)
  | aliased careful live stored valid table inserted used =>
    refine olderSet table rfl (Nat.le_succ _) fun i member early => ?_
    rcases List.mem_cons.mp ((HashTable.insertItems inserted).mem_iff.mp member) with rfl | there
    · exact absurd early (Nat.lt_irrefl _)
    · exact there

theorem Older.inTable {s s' : State} {t : Nat} {fd : Int32} {item : FdItem} (older : Older s s')
    (stamped : Stamped s) (found : Found s t fd item) (there : ∃ i ∈ s'.items, i.id = item.id) :
    InTable s' t item.fdMap := by
  obtain ⟨i,member,same⟩ := there
  obtain ⟨h',inside,mine⟩ := List.mem_flatMap.mp member
  obtain ⟨x,table'⟩ := List.getElem?_of_mem inside
  have early : i.id < s.nextItem := same ▸ stamped.below item found.member
  obtain ⟨h,table,old⟩ := older.back x h' table' i mine early
  obtain ⟨g,table₀,first⟩ := found.held
  obtain ⟨rfl,rfl⟩ := stampSame stamped.distinct table table₀ old (HashTable.findMem first).1 same
  exact ⟨h',table',i,mine,rfl⟩

end Stamps

section Sources
variable {env : Env} {ok : Allowed}

structure Alike (m m' : FdMap) : Prop where
  mine : m'.myFd = m.myFd
  type : m'.type = m.type
  name : m'.name = m.name

theorem Alike.refl (m : FdMap) : Alike m m := ⟨rfl,rfl,rfl⟩

theorem insertParentAlike {m m' : FdMap} {fd : Int32} (ran : insertParentFd m fd = .ok m') :
    Alike m m' := by
  rw [insertParentFd] at ran
  cases slot : freeSlot fd m.parentFds 0 with
  | error f =>
    rw [slot] at ran
    exact absurd ran (by simp [bind,Except.bind])
  | ok r =>
    rw [slot] at ran
    cases r with
    | none | some =>
      cases Except.ok.inj ran
      exact ⟨rfl,rfl,rfl⟩

theorem deleteParentAlike {m m' : FdMap} {fd : Int32} {last : Bool}
    (ran : deleteParentFd m fd = .ok (m',last)) : Alike m m' := by
  simp only [deleteParentFd,bind,Except.bind] at ran
  split at ran
  · exact absurd ran (by simp)
  · split at ran
    · cases ran
      exact .refl m
    · split at ran
      · cases ran
        exact ⟨rfl,rfl,rfl⟩
      · split at ran
        · cases ran
          exact ⟨rfl,rfl,rfl⟩
        · exact absurd ran (by simp)

theorem putMaps {s s' : State} {t : Nat} {k fd counted : Int32} {m : FdMap}
    (put : Put s t k fd counted m s') {a : Nat} {m' : FdMap}
    (live : s'.fdMaps.read a = some m') : m' = m ∨ s.fdMaps.read a = some m' := by
  cases put
  by_cases fresh : a = s.fdMaps.fresh
  · subst fresh
    rw [Arena.readAlloc] at live
    exact .inl (Option.some.inj live).symm
  · rw [Arena.readAllocNe _ _ fresh] at live
    exact .inr live

theorem writeMaps {maps : Arena FdMap} {a b : Nat} {m m' n : FdMap}
    (live : maps.read a = some m) (alike : Alike m m')
    (there : (maps.write a m').read b = some n) : ∃ c k, maps.read c = some k ∧ Alike k n := by
  by_cases here : b = a
  · subst here
    rw [Arena.readWrite m' live] at there
    cases there
    exact ⟨b,m,live,alike⟩
  · rw [Arena.readWriteNe _ _ here] at there
    exact ⟨b,n,there,.refl n⟩

theorem freeMaps {maps : Arena FdMap} {a b : Nat} {n : FdMap}
    (there : (maps.free a).read b = some n) : maps.read b = some n := by
  by_cases here : b = a
  · subst here
    rw [Arena.readFree] at there
    exact absurd there (by simp)
  · rwa [Arena.readFreeNe _ here] at there

theorem mapsEdit {s s' : State} (edit : Edit env ok s s') {a : Nat} {m' : FdMap}
    (live : s'.fdMaps.read a = some m') :
    (∃ b m, s.fdMaps.read b = some m ∧ Alike m m') ∨
      ∃ counted s₁, Origin env ok s counted m' s₁ ∧ s'.openFd = s₁.openFd := by
  cases edit with
  | logged | openFailed | probed | simmed | openNumber | tableAdded | linked | closeFailed =>
    exact .inl ⟨a,m',live,.refl m'⟩
  | seeked there pos working =>
    rename_i m _
    have alike : Alike m { m with curPos := pos } := ⟨rfl,rfl,rfl⟩
    exact .inl (writeMaps there alike live)
  | placed origin parents put =>
    rcases putMaps put live with same | old
    · refine .inr ⟨_,_,same ▸ origin,?_⟩
      cases put
      rfl
    · exact .inl ⟨a,m',origin.same.2 ▸ old,.refl m'⟩
  | copied copies there source put =>
    rcases putMaps put live with same | old
    · exact .inl ⟨_,_,source,same ▸ .refl m'⟩
    · exact .inl ⟨a,m',old,.refl m'⟩
  | closed table found there release deleted =>
    dsimp only at live
    split at live
    · exact .inl ⟨a,m',freeMaps live,.refl m'⟩
    · exact .inl (writeMaps there (deleteParentAlike deleted) live)
  | aliased careful there stored =>
    exact .inl (writeMaps there (insertParentAlike stored) live)

structure Settled (s s' : State) : Prop where
  parent : s'.globalParentPid = s.globalParentPid
  devnull : s'.globalDevnullFd = s.globalDevnullFd
  devzero : s'.globalDevzeroFd = s.globalDevzeroFd

theorem Release.settled {s s' : State} {m : FdMap} (release : Release env s m s') :
    Settled s s' ∧ s'.openFd = s.openFd := by
  cases release with
  | untracked => exact ⟨⟨rfl,rfl,rfl⟩,rfl⟩
  | kept => exact ⟨⟨rfl,rfl,rfl⟩,rfl⟩
  | simulated => exact ⟨⟨rfl,rfl,rfl⟩,rfl⟩
  | closed => exact ⟨⟨rfl,rfl,rfl⟩,rfl⟩

theorem settledEdit {s s' : State} (edit : Edit env ok s s') :
    Settled s s' ∧ (s'.openFd = s.openFd ∨ countUp s.openFd = .ok s'.openFd) := by
  cases edit with
  | logged | openFailed | probed | simmed | seeked | tableAdded | linked | closeFailed
  | aliased => exact ⟨⟨rfl,rfl,rfl⟩,.inl rfl⟩
  | openNumber up => exact ⟨⟨rfl,rfl,rfl⟩,.inr up⟩
  | placed origin parents put =>
    cases put
    cases origin with
    | replayed => exact ⟨⟨rfl,rfl,rfl⟩,.inl rfl⟩
    | placeholder up => exact ⟨⟨rfl,rfl,rfl⟩,.inr up⟩
    | socket => exact ⟨⟨rfl,rfl,rfl⟩,.inl rfl⟩
    | pipe => exact ⟨⟨rfl,rfl,rfl⟩,.inl rfl⟩
  | copied copies there live put =>
    cases put
    exact ⟨⟨rfl,rfl,rfl⟩,.inl rfl⟩
  | closed table found live release =>
    obtain ⟨settled,openFd⟩ := release.settled
    exact ⟨⟨settled.parent,settled.devnull,settled.devzero⟩,.inl openFd⟩

end Sources

theorem ownedEdit {env : Env} {ok : Allowed} (careful : ¬ ok.careless) {s s' : State}
    (edit : Edit env ok s s') (owned : Owned s) : Owned s' := by
  cases edit with
  | logged | openFailed | probed | simmed | openNumber | linked
  | closeFailed => exact owned.of rfl rfl
  | seeked live pos => exact owned.seeked live pos
  | placed origin parents put =>
    obtain ⟨tables,maps⟩ := origin.same
    exact (owned.of tables maps).put put parents (by simp)
  | tableAdded copies =>
    have none := tableAddedItems s
    exact ⟨fun i member => owned.parents i (none ▸ member),none.symm ▸ owned.apart⟩
  | copied copies there live put =>
    obtain ⟨m',stored,live',parents,present⟩ := owned.parents _ there
    cases Option.some.inj (live.symm.trans live')
    exact owned.put put parents present
  | closed table found live release deleted removed =>
    have here := (Found.mk ⟨_,table,found⟩).oldFd
    exact owned.closed (removedItems table found removed) live (here ▸ deleted) rfl
  | aliased careful' live stored valid table inserted used =>
    obtain ⟨there,room⟩ := careful'.resolve_left careful
    refine owned.aliased ⟨s.nextItem,_,_⟩ there live valid room stored rfl ?_ rfl
    exact flatMapSet table (HashTable.insertItems inserted)

end IoApps
