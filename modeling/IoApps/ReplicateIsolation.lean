import IoApps.ReplicateFork

/-! Two tables share no fd_map, so what is done for one process leaves the tables of the others
as they are. A copied table is such another one. -/
namespace IoApps
open Lib (Arena Prog)

/-- Items of different tables have different fd_maps. -/
structure Separate (s : State) : Prop where
  apart : ∀ (x y : Nat) (h g : HashTable FdItem), x ≠ y → s.tables[x]? = some h →
    s.tables[y]? = some g → ∀ i ∈ h.items, ∀ j ∈ g.items, i.fdMap ≠ j.fdMap
  below : ∀ i ∈ s.items, i.fdMap < s.fdMaps.fresh

def Alone (s : State) (t a : Nat) : Prop :=
  ∀ (x : Nat) (h : HashTable FdItem), x ≠ t → s.tables[x]? = some h → ∀ i ∈ h.items, i.fdMap ≠ a

theorem Separate.alone {s : State} {t a : Nat} (separate : Separate s) (held : InTable s t a) :
    Alone s t a := by
  obtain ⟨h,table,i,member,mine⟩ := held
  intro x g other there j inside same
  exact separate.apart x t g h other there table j inside i member (same.trans mine.symm)

theorem Separate.fresh {s : State} (separate : Separate s) (t : Nat) :
    Alone s t s.fdMaps.fresh := by
  intro x h _ table i member same
  have early := separate.below i (itemsOf table member)
  omega

theorem Separate.held {s : State} {t a : Nat} (separate : Separate s) (held : InTable s t a) :
    a < s.fdMaps.fresh := by
  obtain ⟨h,table,i,member,rfl⟩ := held
  exact separate.below i (itemsOf table member)

theorem Separate.set {s s' : State} {t : Nat} {h h' : HashTable FdItem} (separate : Separate s)
    (table : s.tables[t]? = some h) (tables : s'.tables = s.tables.set t h')
    (fresh : s.fdMaps.fresh ≤ s'.fdMaps.fresh)
    (items : ∀ i ∈ h'.items, i ∈ h.items ∨ Alone s t i.fdMap ∧ i.fdMap < s'.fdMaps.fresh) :
    Separate s' := by
  have inside := (List.getElem?_eq_some_iff.mp table).1
  have look {x : Nat} {g : HashTable FdItem} (there : s'.tables[x]? = some g) :
      x = t ∧ g = h' ∨ x ≠ t ∧ s.tables[x]? = some g := by
    rw [tables] at there
    by_cases here : t = x
    · subst here
      rw [List.getElem?_set_self inside] at there
      exact .inl ⟨rfl,(Option.some.inj there).symm⟩
    · rw [List.getElem?_set_ne here] at there
      exact .inr ⟨Ne.symm here,there⟩
  have alone {i : FdItem} (member : i ∈ h'.items) : Alone s t i.fdMap := by
    cases items i member with
    | inl old => exact separate.alone ⟨h,table,i,old,rfl⟩
    | inr new => exact new.1
  constructor
  · intro x y a b other first second i left j right same
    cases look first with
    | inl mine =>
      obtain ⟨rfl,rfl⟩ := mine
      cases look second with
      | inl again => exact other again.1.symm
      | inr there => exact alone left y b there.1 there.2 j right same.symm
    | inr there =>
      cases look second with
      | inl mine =>
        obtain ⟨rfl,rfl⟩ := mine
        exact alone right x a there.1 there.2 i left same
      | inr again => exact separate.apart x y a b other there.2 again.2 i left j right same
  · intro i member
    obtain ⟨g,there,left⟩ := List.mem_flatMap.mp member
    obtain ⟨x,there⟩ := List.getElem?_of_mem there
    cases look there with
    | inl mine =>
      obtain ⟨rfl,rfl⟩ := mine
      cases items i left with
      | inl old => exact Nat.lt_of_lt_of_le (separate.below i (itemsOf table old)) fresh
      | inr new => exact new.2
    | inr other => exact Nat.lt_of_lt_of_le (separate.below i (itemsOf other.2 left)) fresh

theorem Separate.of {s s' : State} (separate : Separate s) (tables : s'.tables = s.tables)
    (fresh : s'.fdMaps.fresh = s.fdMaps.fresh) : Separate s' where
  apart := tables ▸ separate.apart
  below := by
    intro i member
    rw [State.items,tables] at member
    rw [fresh]
    exact separate.below i member

theorem Separate.put {s s' : State} {t : Nat} {k fd counted : Int32} {m : FdMap}
    (separate : Separate s) (put : Put s t k fd counted m s') : Separate s' := by
  obtain ⟨table,inserted,_⟩ := put
  refine separate.set table rfl (by simp [Arena.fresh,Arena.alloc]) fun i member => ?_
  cases List.mem_cons.mp ((HashTable.insertItems inserted).mem_iff.mp member) with
  | inl new =>
    subst new
    exact .inr ⟨separate.fresh t,by simp [Arena.fresh,Arena.alloc]⟩
  | inr old => exact .inl old

theorem separateEdit {env : Env} {ok : Allowed} (loose : ¬ ok.loose) {s s' : State}
    (edit : Edit env ok s s') (separate : Separate s) : Separate s' := by
  cases edit with
  | logged | openFailed | probed | simmed | openNumber | linked | closeFailed =>
    exact separate.of rfl rfl
  | seeked => exact separate.of rfl (by simp [Arena.fresh,Arena.write])
  | placed origin parents put =>
    obtain ⟨tables,maps⟩ := origin.same
    exact Separate.put (separate.of tables (congrArg Arena.fresh maps)) put
  | tableAdded =>
    refine ⟨?_,fun i member => separate.below i (tableAddedItems s ▸ member)⟩
    have look {x : Nat} {g : HashTable FdItem} {i : FdItem}
        (there : (s.tables ++ [HashTable.init HASH_TABLE_SIZE])[x]? = some g)
        (member : i ∈ g.items) : s.tables[x]? = some g := by
      rw [List.getElem?_append] at there
      split at there
      · exact there
      · have empty := List.mem_singleton.mp (List.mem_of_getElem? there)
        rw [empty,HashTable.itemsInit] at member
        exact absurd member List.not_mem_nil
    intro x y a b other first second i left j right
    exact separate.apart x y a b other (look first left) (look second right) i left j right
  | copied copies there live put => exact separate.put put
  | closed table found live release deleted removed =>
    refine separate.set table rfl ?_ fun i member => .inl ?_
    · dsimp only
      split
      · simp [Arena.fresh,Arena.free]
      · simp [Arena.fresh,Arena.write]
    · exact (HashTable.removeItems found removed).mem_iff.mp (List.mem_cons_of_mem _ member)
  | aliased careful live stored valid table inserted used working held =>
    have here := held.resolve_left loose
    have fresh {a : Nat} {m : FdMap} : (s.fdMaps.write a m).fresh = s.fdMaps.fresh := by
      simp [Arena.fresh,Arena.write]
    refine separate.set table rfl (Nat.le_of_eq fresh.symm) fun i member => ?_
    cases List.mem_cons.mp ((HashTable.insertItems inserted).mem_iff.mp member) with
    | inl new =>
      subst new
      exact .inr ⟨separate.alone here,by rw [fresh]; exact separate.held here⟩
    | inr old => exact .inl old

section Frames

structure Framed (x : Nat) (s s' : State) : Prop where
  table : s'.tables[x]? = s.tables[x]?
  maps : ∀ h : HashTable FdItem, s.tables[x]? = some h → ∀ i ∈ h.items,
    s'.fdMaps.read i.fdMap = s.fdMaps.read i.fdMap

theorem Framed.refl (x : Nat) (s : State) : Framed x s s := ⟨rfl,fun _ _ _ _ => rfl⟩

theorem Framed.trans {x : Nat} {s t u : State} (a : Framed x s t) (b : Framed x t u) :
    Framed x s u where
  table := b.table.trans a.table
  maps := fun h table i member =>
    (b.maps h (a.table.trans table) i member).trans (a.maps h table i member)

theorem framedSet {x t : Nat} {s s' : State} {h : HashTable FdItem} (other : x ≠ t)
    (tables : s'.tables = s.tables.set t h)
    (maps : ∀ g : HashTable FdItem, s.tables[x]? = some g → ∀ i ∈ g.items,
      s'.fdMaps.read i.fdMap = s.fdMaps.read i.fdMap) : Framed x s s' where
  table := by rw [tables,List.getElem?_set_ne other.symm]
  maps := maps

theorem framedPut {x t : Nat} {s s' : State} {k fd counted : Int32} {m : FdMap}
    (separate : Separate s) (other : x ≠ t) (put : Put s t k fd counted m s') : Framed x s s' := by
  obtain ⟨table,inserted,_⟩ := put
  refine framedSet other rfl fun g there i member => ?_
  exact Arena.readAllocNe _ _ (separate.fresh t x g other there i member)

def Barred (s : State) (pid : Int32) (x : Nat) : Prop :=
  ∃ item, s.fdMappings.find htOpsFdMapping pid = some (some item) ∧ item.ht ≠ some x

theorem Barred.other {s : State} {pid : Int32} {x t : Nat} (barred : Barred s pid x)
    (table : tableOf s pid = some t) : x ≠ t := by
  obtain ⟨item,first,different⟩ := barred
  rw [tableOfFound first] at table
  exact fun same => different (same ▸ table)

theorem barredTable {s : State} {pid : Int32} {x t : Nat} (table : tableOf s pid = some t)
    (other : t ≠ x) : Barred s pid x := by
  obtain ⟨item,first,mine⟩ := Option.bind_eq_some_iff.mp table
  refine ⟨item,Option.join_eq_some_iff.mp first,fun same => ?_⟩
  exact other (Option.some.inj (mine.symm.trans same))

theorem barredEdit {env : Env} {ok : Allowed} {s s' : State} {pid : Int32} {x : Nat}
    (edit : Edit env ok s s') (barred : Barred s pid x) : Barred s' pid x := by
  obtain ⟨item,first,different⟩ := barred
  cases edit with
  | logged | openFailed | probed | simmed | openNumber | seeked | tableAdded | closeFailed
  | aliased => exact ⟨item,first,different⟩
  | linked inserted => exact ⟨item,HashTable.findKept first inserted,different⟩
  | placed origin parents put =>
    cases put
    exact ⟨item,by rw [origin.links]; exact first,different⟩
  | copied copies there live put =>
    cases put
    exact ⟨item,first,different⟩
  | closed table found live release =>
    cases release with
    | untracked | kept | simulated | closed => exact ⟨item,first,different⟩

theorem framedEdit {env : Env} {ok : Allowed} (copies : ¬ ok.copies) (loose : ¬ ok.loose)
    {x : Nat} {s s' : State} (barred : ∀ pid, ok.pids pid → Barred s pid x)
    (separate : Separate s) (edit : Edit env ok s s') : Framed x s s' := by
  have other {pid : Int32} {t : Nat} (working : Working ok s pid t) : x ≠ t :=
    (barred pid working.named).other working.table
  cases edit with
  | logged | openFailed | probed | simmed | openNumber | linked | closeFailed =>
    exact ⟨rfl,fun _ _ _ _ => rfl⟩
  | seeked live pos working held =>
    refine ⟨rfl,fun g there i member => ?_⟩
    exact Arena.readWriteNe _ _ (separate.alone held x g (other working) there i member)
  | placed origin parents put working =>
    obtain ⟨tables,maps⟩ := origin.same
    have frame := framedPut (separate.of tables (congrArg Arena.fresh maps)) (other working) put
    exact ⟨tables ▸ frame.table,fun g there i member =>
      maps ▸ frame.maps g (tables ▸ there) i member⟩
  | tableAdded allowed => exact absurd allowed copies
  | copied allowed => exact absurd allowed copies
  | closed table found live release deleted removed working =>
    refine framedSet (other working) rfl fun g there i member => ?_
    have alone := separate.alone (Found.mk ⟨_,table,found⟩).inTable
    have different := alone x g (other working) there i member
    dsimp only
    split
    · exact Arena.readFreeNe _ different
    · exact Arena.readWriteNe _ _ different
  | aliased careful live stored valid table inserted used working held =>
    refine framedSet (other working) rfl fun g there i member => ?_
    have alone := separate.alone (held.resolve_left loose)
    exact Arena.readWriteNe _ _ (alone x g (other working) there i member)

end Frames

section Runs
variable {env : Env} {pid : Int32}

structure Tidy (s : State) : Prop where
  separate : Separate s
  stamped : Stamped s

theorem tidyEdit {ok : Allowed} (loose : ¬ ok.loose) {s s' : State} (edit : Edit env ok s s')
    (tidy : Tidy s) : Tidy s' :=
  ⟨separateEdit loose edit tidy.separate,stampedEdit edit tidy.stamped⟩

theorem Began.tidy {s : State} (began : Began env pid s) : Tidy s := by
  obtain ⟨mappings,a,b,c,d,_,_,_,_,rfl,put₀,put₁,put₂,_,_,_,_,_,_,rfl⟩ := began.puts
  have none : (firstTable pid mappings).items = [] := by
    simp [firstTable,State.items,HashTable.itemsInit]
  have stamped : Stamped (firstTable pid mappings) :=
    ⟨by simp [none],fun i member => absurd member (by simp [none])⟩
  have separate : Separate (firstTable pid mappings) := by
    refine ⟨fun x y h g _ first _ i member => ?_,fun i member => absurd member (by simp [none])⟩
    exact absurd (itemsOf first member) (by simp [none])
  exact ⟨(((separate.put put₀).put put₁).put put₂).of rfl rfl,
    (((stamped.put put₀).put put₁).put put₂).of rfl rfl⟩

def tidily : Allowed := { Allowed.any with loose := False }

theorem tidyPermits {s : State} {op : Op} (stamped : Stamped s) : Permits env tidily s op where
  pipes := fun _ _ _ => ⟨trivial,trivial⟩
  clones := fun _ _ => ⟨trivial,trivial,fun _ => .inl trivial,.inl trivial⟩
  dups := fun never => absurd trivial never
  fresh := fun never => absurd trivial never
  stamped := fun _ => stamped
  asks := fun _ => ⟨trivial,trivial,.inl trivial⟩
  asked := fun _ _ _ _ _ => trivial
  pipeNumbers := fun _ _ _ _ _ => ⟨trivial,fun _ _ => trivial⟩
  socketNumbers := fun _ _ _ _ _ => trivial

theorem reachedTidy {meets : State → Op → Prop} {s : State}
    (reached : Reached env meets pid s) : Tidy s :=
  reached.keeps tidily Tidy (fun _ began => began.tidy)
    (fun _ _ tidy _ => tidyPermits tidy.stamped) fun _ _ => tidyEdit not_false

theorem opTidy {op : Op} {s s' : State} (tidy : Tidy s)
    (ran : replicateOp env op s = .ok ((),s')) : Tidy s' :=
  (opRuns (tidyPermits tidy.stamped)).kept Tidy (fun _ _ => tidyEdit not_false) tidy ran

def onlyFor (pid : Int32) : Allowed :=
  { Allowed.any with loose := False, copies := False, pids := fun q => q = pid }

theorem onlyPermits {op : Op} {s : State} (stamped : Stamped s) (mine : op.info.pid = pid)
    (noClone : ∀ o, op ≠ .clone o) : Permits env (onlyFor pid) s op where
  pipes := fun _ _ _ => ⟨trivial,trivial⟩
  clones := fun o clone => absurd clone (noClone o)
  dups := fun never => absurd trivial never
  fresh := fun never => absurd trivial never
  stamped := fun _ => stamped
  asks := fun _ => ⟨trivial,mine,.inl trivial⟩
  asked := fun _ _ _ _ _ => trivial
  pipeNumbers := fun _ _ _ _ _ => ⟨trivial,fun _ _ => trivial⟩
  socketNumbers := fun _ _ _ _ _ => trivial

/-- The step lemma: an operation of a process with another table, or with none, leaves a table
and its fd_maps as they are. -/
theorem opFramed {op : Op} {s s' : State} {x : Nat} (tidy : Tidy s) (barred : Barred s pid x)
    (mine : op.info.pid = pid) (noClone : ∀ o, op ≠ .clone o)
    (ran : replicateOp env op s = .ok ((),s')) : Framed x s s' ∧ Barred s' pid x := by
  have inv : Tidy s' ∧ Framed x s s' ∧ Barred s' pid x := by
    refine (opRuns (onlyPermits tidy.stamped mine noClone)).kept
      (fun u => Tidy u ∧ Framed x s u ∧ Barred u pid x) ?_ ⟨tidy,.refl x s,barred⟩ ran
    intro u v edit before
    obtain ⟨tidy,framed,barred⟩ := before
    have mine (q : Int32) (named : q = pid) : Barred u q x := by
      subst named
      exact barred
    exact ⟨tidyEdit not_false edit tidy,
      framed.trans (framedEdit not_false not_false mine tidy.separate edit),
      barredEdit edit barred⟩
  exact inv.2

theorem runFramed {ops : List Op} {s s' : State} {x : Nat} (tidy : Tidy s)
    (barred : Barred s pid x) (mine : ∀ op ∈ ops, op.info.pid = pid)
    (noClone : ∀ op ∈ ops, ∀ o, op ≠ .clone o) (ran : after env ops s = some s') :
    Framed x s s' := by
  induction ops generalizing s with
  | nil =>
    cases ran
    exact .refl x s
  | cons op rest ih =>
    rw [afterCons] at ran
    obtain ⟨mid,first,last⟩ := Option.bind_eq_some_iff.mp ran
    have one := afterOne first
    obtain ⟨framed,still⟩ := opFramed tidy barred (mine op List.mem_cons_self)
      (noClone op List.mem_cons_self) one
    exact framed.trans (ih (opTidy tidy one) still
      (fun b member => mine b (List.mem_cons_of_mem _ member))
      (fun b member => noClone b (List.mem_cons_of_mem _ member)) last)

end Runs

section Fork
variable {env : Env} {pid : Int32}

def mappingOf (s : State) (pid fd : Int32) : Option (CName × FileType × Int32) := do
  let t ← tableOf s pid
  let h ← s.tables[t]?
  let item ← (h.find htOpsFdItem fd).join
  let m ← s.fdMaps.read item.fdMap
  some (m.name,m.type,m.myFd)

/-- A process has the table it had, with the same descriptors, each mapped to the same. -/
structure Untouched (s s' : State) (pid : Int32) : Prop where
  table : tableOf s' pid = tableOf s pid
  items : ∀ t, tableOf s pid = some t → s'.tables[t]? = s.tables[t]?
  mapping : ∀ fd, mappingOf s' pid fd = mappingOf s pid fd

theorem Framed.untouched {s s' : State} {x : Nat} (framed : Framed x s s') {p : Int32}
    (before : tableOf s p = some x) (behind : tableOf s' p = some x) : Untouched s s' p where
  table := behind.trans before.symm
  items := by
    intro t table
    cases Option.some.inj (table.symm.trans before)
    exact framed.table
  mapping := by
    intro fd
    unfold mappingOf
    rw [before,behind]
    simp only [Option.bind_eq_bind,Option.bind_some,framed.table]
    cases table : s.tables[x]? with
    | none => rfl
    | some h =>
      cases found : (h.find htOpsFdItem fd).join with
      | none => simp [found]
      | some item =>
        have member := (HashTable.findMem (Option.join_eq_some_iff.mp found)).1
        simp [found,framed.maps h table item member]

theorem tablelessBarred {s : State} {pid : Int32} {item : ProcessItem}
    (entry : s.fdMappings.find htOpsFdMapping pid = some (some item))
    (tableless : tableOf s pid = none) (x : Nat) : Barred s pid x := by
  rw [tableOfFound entry] at tableless
  have none : item.ht = none := tableless
  exact ⟨item,entry,by rw [none]; simp⟩

theorem barredOp {op : Op} {s s' : State} {x : Nat} (barred : Barred s pid x)
    (ran : replicateOp env op s = .ok ((),s')) : Barred s' pid x :=
  (opRuns (anyPermits env s op)).kept (fun s => Barred s pid x) (fun _ _ => barredEdit) barred ran

theorem clonedKey {c : CloneOp} {s s' : State} (ran : replicateOp env (.clone c) s = .ok ((),s')) :
    ∃ found, s.fdMappings.find htOpsFdMapping c.retval = some found := by
  cases entry : s.fdMappings.find htOpsFdMapping c.retval with
  | none =>
    have stops : replicateOp env (.clone c) s = .error (.fd .negativeKey) :=
      Prog.bindError.mpr (.inl (by rw [getProcessHtRun,entry]))
    exact absurd (ran.symm.trans stops) (by simp)
  | some found => exact ⟨found,rfl⟩

theorem clonedBarred {c : CloneOp} {s s' : State} {t : Nat} (known : tableOf s c.info.pid = some t)
    (unknown : tableOf s c.retval = none) (copies : c.mode &&& CLONE_FILES = 0)
    (ran : replicateOp env (.clone c) s = .ok ((),s')) : Barred s' c.retval t := by
  obtain ⟨found,entry⟩ := clonedKey ran
  cases found with
  | none =>
    obtain ⟨u,mine,other⟩ := cloneTables env known entry copies ran
    exact barredTable mine other.symm
  | some item => exact barredOp (tablelessBarred entry unknown t) ran

/-- After a clone that copies, what the child does leaves the parent's table as it is for every
process that shares it, and what the parent does leaves the child's. -/
theorem forkIsolates {s s₁ s₂ : State} {c : CloneOp} {t : Nat} {ops : List Op}
    (reached : Reached env anyOp pid s) (known : tableOf s c.info.pid = some t)
    (unknown : tableOf s c.retval = none) (copies : c.mode &&& CLONE_FILES = 0)
    (cloned : replicateOp env (.clone c) s = .ok ((),s₁))
    (noClone : ∀ op ∈ ops, ∀ o, op ≠ .clone o) (ran : after env ops s₁ = some s₂) :
    ((∀ op ∈ ops, op.info.pid = c.retval) →
      ∀ p, tableOf s₁ p = tableOf s₁ c.info.pid → Untouched s₁ s₂ p) ∧
    ((∀ op ∈ ops, op.info.pid = c.info.pid) →
      ∀ p, (tableOf s₁ p).isSome → tableOf s₁ p = tableOf s₁ c.retval → Untouched s₁ s₂ p) := by
  have tidy := opTidy (reachedTidy reached) cloned
  have barred := clonedBarred known unknown copies cloned
  have parent := opKeeps cloned known
  constructor
  · intro mine p shares
    have table := shares.trans parent
    exact (runFramed tidy barred mine noClone ran).untouched table (afterKeeps ran table)
  · intro mine p table shares
    obtain ⟨u,table⟩ := Option.isSome_iff_exists.mp table
    have other := barred.other (shares.symm.trans table)
    exact (runFramed tidy (barredTable parent other) mine noClone ran).untouched table
      (afterKeeps ran table)

theorem forkIsolatesDup : ∃ s₁ s₂, after simulating [closed 8 4,duplicated 8 3 5,
    closed 8 3] s₁ = some s₂ ∧ Untouched s₁ s₂ 7 ∧ (mappingOf s₁ 7 4).isSome := by
  let forked := ((initialised simulating 7).bind (runOps simulating anyOp
    [opened 7 "/f" 3,duplicated 7 3 4])).bind fun s =>
      (after simulating [.clone ⟨0,8,blankInfo 7⟩] s).map fun s₁ => (s,s₁)
  let checks (r : State × State) : Bool :=
    tableOf r.1 7 = some 0 && tableOf r.1 8 = none && (mappingOf r.2 7 4).isSome &&
      (after simulating [closed 8 4,duplicated 8 3 5,closed 8 3] r.2).isSome
  obtain ⟨r,made,holds⟩ := (Option.any_eq_true _ _).mp
    (show forked.any checks = true by decide +kernel)
  obtain ⟨s,began,fork⟩ := Option.bind_eq_some_iff.mp made
  obtain ⟨s₁,cloned,rfl⟩ := Option.map_eq_some_iff.mp fork
  simp only [checks,Bool.and_eq_true,decide_eq_true_eq] at holds
  obtain ⟨⟨⟨known,unknown⟩,seen⟩,ends⟩ := holds
  obtain ⟨s₂,ran⟩ := Option.isSome_iff_exists.mp ends
  have both := forkIsolates (c := ⟨0,8,blankInfo 7⟩) (.run began) known unknown (by decide)
    (afterOne cloned) (by simp [closed,duplicated]) ran
  exact ⟨s₁,s₂,ran,both.1 (by simp [closed,duplicated,Op.info,blankInfo]) 7 rfl,seen⟩

end Fork
end IoApps
