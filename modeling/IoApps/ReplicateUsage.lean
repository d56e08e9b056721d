import IoApps.FdUsage
import IoApps.ReplicateReach

/-! The counters of the replayed descriptors against the items that refer to them, and against
what is open in the replayer. -/
namespace IoApps
open Lib (Arena Prog)
open Lib.Prog (Steps)

section Log

def Call.opens : Call → Bool
  | .open .. => true
  | _ => false

def isOpen : List (Call × Int64) → Int32 → Bool
  | [],n => n = 0 || n = 1 || n = 2
  | (c,r) :: rest,n =>
    match c with
    | .open .. | .openDevice _ => r.toInt32 = n && n ≠ -1 || isOpen rest n
    | .close fd => isOpen rest n && !(fd = n && r.toInt32 ≠ -1)
    | _ => isOpen rest n

def answered (log : List (Call × Int64)) (n : Int32) : Bool :=
  log.any fun entry => entry.1.opens && entry.2.toInt32 = n && n ≠ -1

/-- The kernel never answers an open with a number that is open in the replayer. -/
def FreshOpens (env : Env) : Prop := ∀ log name flags mode,
  (env.kernel log (.open name flags mode)).toInt32 = -1 ∨
    isOpen log (env.kernel log (.open name flags mode)).toInt32 = false

def ClosesSucceed (env : Env) : Prop := ∀ log fd, isOpen log fd = true →
  (env.kernel log (.close fd)).toInt32 ≠ -1

variable {log : List (Call × Int64)} {n : Int32} {r : Int64}

theorem answeredOpen {name : CName} {flags : Int32} {mode : Option UInt32} :
    answered ((.open name flags mode,r) :: log) n = true ↔
      r.toInt32 = n ∧ n ≠ -1 ∨ answered log n = true := by
  simp [answered,Call.opens]

theorem answeredOther {c : Call} (other : c.opens = false) :
    answered ((c,r) :: log) n = answered log n := by
  simp [answered,other]

theorem isOpenOpen {name : CName} {flags : Int32} {mode : Option UInt32} :
    isOpen ((.open name flags mode,r) :: log) n = true ↔
      r.toInt32 = n ∧ n ≠ -1 ∨ isOpen log n = true := by
  simp [isOpen]

theorem isOpenClose {fd : Int32} :
    isOpen ((.close fd,r) :: log) n = true ↔
      isOpen log n = true ∧ (fd = n → r.toInt32 = -1) := by
  simp [isOpen,← imp_iff_not_or]

theorem answeredBy {name : CName} {flags : Int32} {mode : Option UInt32} {c : Int32}
    (returned : r.toInt32 = c) (valid : c ≠ -1) :
    answered ((.open name flags mode,r) :: log) n = true ↔ n = c ∨ answered log n = true := by
  rw [answeredOpen,returned]
  exact or_congr_left ⟨fun both => both.1.symm,fun same => ⟨same.symm,same ▸ valid⟩⟩

theorem isOpenBy {name : CName} {flags : Int32} {mode : Option UInt32} {c : Int32}
    (returned : r.toInt32 = c) (valid : c ≠ -1) :
    isOpen ((.open name flags mode,r) :: log) n = true ↔ n = c ∨ isOpen log n = true := by
  rw [isOpenOpen,returned]
  exact or_congr_left ⟨fun both => both.1.symm,fun same => ⟨same.symm,same ▸ valid⟩⟩

theorem quietOpens {c : Call} (quiet : c.Quiet) : c.opens = false := by
  cases c <;> first | rfl | exact quiet.elim

theorem isOpenQuiet {c : Call} (quiet : c.Quiet) : isOpen ((c,r) :: log) n = isOpen log n := by
  cases c <;> first | rfl | exact quiet.elim

end Log

section Entries

def refersTo (maps : Arena FdMap) (n : Int32) (i : FdItem) : Bool :=
  match maps.read i.fdMap with
  | some m => m.myFd = n && supportedType m.type
  | none => false

def countEntries (maps : Arena FdMap) (items : List FdItem) (n : Int32) : Nat :=
  items.countP (refersTo maps n)

def State.entries (s : State) (n : Int32) : Nat := countEntries s.fdMaps s.items n

def oneFor (m : FdMap) (n : Int32) : Nat :=
  if m.myFd = n ∧ supportedType m.type = true then 1 else 0

structure SameEnd (m m' : FdMap) : Prop where
  myFd : m'.myFd = m.myFd
  type : m'.type = m.type

theorem refersOf {maps : Arena FdMap} {i : FdItem} {m : FdMap} (live : maps.read i.fdMap = some m)
    (n : Int32) : refersTo maps n i = (m.myFd = n && supportedType m.type) := by
  rw [refersTo,live]

theorem countEntriesCons {maps : Arena FdMap} {i : FdItem} (items : List FdItem) {m : FdMap}
    (live : maps.read i.fdMap = some m) (n : Int32) :
    countEntries maps (i :: items) n = countEntries maps items n + oneFor m n := by
  rw [countEntries,List.countP_cons,refersOf live,countEntries,oneFor]
  by_cases mine : m.myFd = n <;> by_cases supported : supportedType m.type = true <;>
    simp [mine,supported]

theorem countEntriesSame {maps maps' : Arena FdMap} {items : List FdItem}
    (same : ∀ i ∈ items, ∃ m m', maps.read i.fdMap = some m ∧ maps'.read i.fdMap = some m' ∧
      SameEnd m m') (n : Int32) : countEntries maps' items n = countEntries maps items n := by
  refine List.countP_congr fun i member => ?_
  obtain ⟨m,m',live,live',ends⟩ := same i member
  rw [refersOf live,refersOf live',ends.myFd,ends.type]

theorem countEntriesPos {maps : Arena FdMap} {items : List FdItem} {i : FdItem} {m : FdMap}
    (member : i ∈ items) (live : maps.read i.fdMap = some m)
    (supported : supportedType m.type = true) : countEntries maps items m.myFd ≠ 0 := by
  rw [countEntries,Ne,List.countP_eq_zero]
  intro none
  exact none i member (by rw [refersOf live]; simp [supported])

theorem countEntriesWhich {maps : Arena FdMap} {items : List FdItem} {n : Int32}
    (some_ : countEntries maps items n ≠ 0) : ∃ i ∈ items, ∃ m,
      maps.read i.fdMap = some m ∧ supportedType m.type = true ∧ m.myFd = n := by
  obtain ⟨i,member,refers⟩ := List.countP_pos_iff.mp (Nat.pos_of_ne_zero some_)
  rw [refersTo] at refers
  split at refers
  · rename_i m live
    simp only [Bool.and_eq_true,decide_eq_true_eq] at refers
    exact ⟨i,member,m,live,refers.2,refers.1⟩
  · exact absurd refers (by simp)

end Entries

section Tracking

def Handed (s : State) (n : Int32) : Prop :=
  1000 ≤ n.toInt ∧ n.toInt ≤ s.openFd.toInt ∨
    s.socketFd.toInt ≤ n.toInt ∧ n.toInt ≤ 100000000 ∨
    s.pipeFd.toInt ≤ n.toInt ∧ n.toInt < 2147483647

def Inherited (n : Int32) : Prop := n = 0 ∨ n = 1 ∨ n = 2

def Stray (ends : Int32 → Prop) (s : State) (n : Int32) : Prop :=
  Inherited n ∨ ends n ∨ Handed s n

/-- No number that a replayed open returned is the recorded end of a pipe or a placeholder. -/
def Apart (ends : Int32 → Prop) (s : State) : Prop :=
  ∀ n, answered s.log n = true → ¬ (ends n ∨ Handed s n)

structure Right (s : State) (n : Int32) : Prop where
  count : usageCount s.usageMap n = s.entries n
  openIff : isOpen s.log n = true ↔ s.entries n ≠ 0

def Sourced (ends : Int32 → Prop) (s : State) (m : FdMap) : Prop :=
  if supportedType m.type = true then answered s.log m.myFd = true else Stray ends s m.myFd

structure Tracked (ends : Int32 → Prop) (s : State) : Prop where
  counters : Counters s.usageMap
  right : ∀ n, answered s.log n = true → Right s n
  stray : ∀ n, usageCount s.usageMap n ≠ 0 → answered s.log n = true ∨ Stray ends s n
  sourced : ∀ i ∈ s.items, ∀ m, s.fdMaps.read i.fdMap = some m → Sourced ends s m
  inherited : ∀ n, Inherited n → isOpen s.log n = true ∧ answered s.log n = false

structure Bounds (s : State) : Prop where
  openFd : 999 ≤ s.openFd.toInt
  socketFd : s.socketFd.toInt ≤ 100000001

variable {ends : Int32 → Prop}

theorem Tracked.notStray {s : State} (tracked : Tracked ends s) (apart : Apart ends s) {n : Int32}
    (known : answered s.log n = true) : ¬ Stray ends s n := by
  rintro (inherited | stray)
  · rw [(tracked.inherited n inherited).2] at known
    exact absurd known (by simp)
  · exact apart n known stray

structure Wider (ends : Int32 → Prop) (s s' : State) : Prop where
  answered : ∀ n, answered s.log n = true → answered s'.log n = true
  handed : ∀ n, Handed s n → Handed s' n

theorem Wider.stray {s s' : State} (wider : Wider ends s s') {n : Int32}
    (stray : Stray ends s n) : Stray ends s' n := by
  rcases stray with inherited | ended | handed
  · exact .inl inherited
  · exact .inr (.inl ended)
  · exact .inr (.inr (wider.handed n handed))

theorem Wider.sourced {s s' : State} (wider : Wider ends s s') {m m' : FdMap}
    (sourced : Sourced ends s m) (same : SameEnd m m') : Sourced ends s' m' := by
  rw [Sourced] at sourced ⊢
  rw [same.type,same.myFd]
  split at sourced
  · rename_i supported
    rw [if_pos supported]
    exact wider.answered _ sourced
  · rename_i unsupported
    rw [if_neg unsupported]
    exact wider.stray sourced

theorem Wider.apart {s s' : State} (wider : Wider ends s s') (apart : Apart ends s') :
    Apart ends s := by
  intro n known clash
  refine apart n (wider.answered n known) ?_
  rcases clash with ended | handed
  · exact .inl ended
  · exact .inr (wider.handed n handed)

theorem Tracked.frame {s s' : State} (tracked : Tracked ends s) (wider : Wider ends s s')
    (usage : s'.usageMap = s.usageMap) (entries : ∀ n, s'.entries n = s.entries n)
    (known : ∀ n, answered s'.log n = answered s.log n)
    (opens : ∀ n, answered s.log n = true ∨ Inherited n → isOpen s'.log n = isOpen s.log n)
    (sources : ∀ i ∈ s'.items, ∀ m', s'.fdMaps.read i.fdMap = some m' → ∃ j ∈ s.items, ∃ m,
      s.fdMaps.read j.fdMap = some m ∧ SameEnd m m') : Tracked ends s' where
  counters := usage ▸ tracked.counters
  right := by
    intro n there
    rw [known n] at there
    obtain ⟨count,openIff⟩ := tracked.right n there
    exact ⟨by rw [usage,entries n,count],by rw [opens n (.inl there),entries n,openIff]⟩
  stray := by
    intro n used
    rw [usage] at used
    rw [known n]
    exact (tracked.stray n used).imp_right wider.stray
  sourced := by
    intro i member m' live'
    obtain ⟨j,there,m,live,same⟩ := sources i member m' live'
    exact wider.sourced (tracked.sourced j there m live) same
  inherited := fun n std => by
    rw [opens n (.inr std),known n]
    exact tracked.inherited n std

theorem Tracked.more {s s' : State} {m : FdMap} {counted : Int32} (tracked : Tracked ends s)
    (apart : Apart ends s) (log : s'.log = s.log) (wider : Wider ends s s')
    (used : increaseFdUsage s.usageMap counted = .ok s'.usageMap)
    (entries : ∀ n, s'.entries n = s.entries n + oneFor m n)
    (kind : supportedType m.type = true ∧ counted = m.myFd ∧ answered s.log counted = true ∧
        s.entries counted ≠ 0 ∨
      supportedType m.type = false ∧ Stray ends s counted)
    (sources : ∀ i ∈ s'.items, ∀ m', s'.fdMaps.read i.fdMap = some m' →
      Sourced ends s m' ∨ ∃ j ∈ s.items, ∃ m, s.fdMaps.read j.fdMap = some m ∧ SameEnd m m') :
    Tracked ends s' := by
  obtain ⟨counters,counts⟩ := increaseCounts tracked.counters used
  refine ⟨counters,?_,?_,?_,?_⟩
  · intro n there
    rw [log] at there
    obtain ⟨count,openIff⟩ := tracked.right n there
    rcases kind with ⟨supported,rfl,known,some_⟩ | ⟨unsupported,stray⟩
    · refine ⟨?_,?_⟩
      · rw [counts n,entries n,count,oneFor]
        by_cases same : m.myFd = n
        · simp [same,supported]
        · simp [same,Ne.symm same]
      · rw [log,entries n,openIff,oneFor]
        by_cases same : m.myFd = n
        · subst same
          simp [supported,some_]
        · simp [same]
    · have other : n ≠ counted := fun eq => tracked.notStray apart there (eq ▸ stray)
      have none : oneFor m n = 0 := by simp [oneFor,unsupported]
      exact ⟨by rw [counts n,entries n,count,none]; simp [other],
        by rw [log,entries n,none,openIff]; rfl⟩
  · intro n used'
    rw [counts n] at used'
    rw [log]
    by_cases same : n = counted
    · subst same
      rcases kind with ⟨_,_,known,_⟩ | ⟨_,stray⟩
      · exact .inl known
      · exact .inr (wider.stray stray)
    · rw [if_neg same,Int.add_zero] at used'
      exact (tracked.stray n used').imp_right wider.stray
  · intro i member m' live'
    rcases sources i member m' live' with sourced | ⟨j,there,m,live,same⟩
    · exact wider.sourced sourced ⟨rfl,rfl⟩
    · exact wider.sourced (tracked.sourced j there m live) same
  · intro n std
    rw [log]
    exact tracked.inherited n std

theorem Tracked.free {s : State} (tracked : Tracked ends s) {n : Int32}
    (closed : isOpen s.log n = false) (apart : ¬ (ends n ∨ Handed s n)) :
    s.entries n = 0 ∧ usageCount s.usageMap n = 0 := by
  have none : s.entries n = 0 := by
    by_contra some_
    obtain ⟨i,member,m,live,supported,rfl⟩ := countEntriesWhich some_
    have sourced := tracked.sourced i member m live
    rw [Sourced,if_pos supported] at sourced
    have open_ := (tracked.right _ sourced).openIff.mpr some_
    rw [closed] at open_
    exact absurd open_ (by simp)
  refine ⟨none,?_⟩
  by_contra used
  rcases tracked.stray n used with known | inherited | stray
  · have count := (tracked.right n known).count
    rw [none] at count
    exact used (by simpa using count)
  · rw [(tracked.inherited n inherited).1] at closed
    exact absurd closed (by simp)
  · exact apart stray

section Steps
variable {env : Env} {s s' : State}

theorem putEntries {t : Nat} {k fd counted : Int32} {m : FdMap} (owned : Owned s)
    (put : Put s t k fd counted m s') : (∀ n, s'.entries n = s.entries n + oneFor m n) ∧
      ∀ i ∈ s'.items, ∀ m', s'.fdMaps.read i.fdMap = some m' →
        m' = m ∨ ∃ j ∈ s.items, ∃ m, s.fdMaps.read j.fdMap = some m ∧ SameEnd m m' := by
  have perm := putItems put
  have kept := putKept put
  have here : s'.fdMaps.read s.fdMaps.fresh = some m := by
    cases put
    exact Arena.readAlloc _ _
  have old : ∀ i ∈ s.items, ∃ m m', s.fdMaps.read i.fdMap = some m ∧
      s'.fdMaps.read i.fdMap = some m' ∧ SameEnd m m' := by
    intro i member
    obtain ⟨m₁,_,live,_⟩ := owned.parents i member
    exact ⟨m₁,m₁,live,kept.maps _ _ live,rfl,rfl⟩
  constructor
  · intro n
    rw [State.entries,countEntries,perm.countP_eq]
    exact (countEntriesCons _ here n).trans
      (congrArg (· + oneFor m n) (countEntriesSame old n))
  · intro i member m' live'
    rcases List.mem_cons.mp (perm.mem_iff.mp member) with rfl | there
    · exact .inl (Option.some.inj (live'.symm.trans here))
    · obtain ⟨m₁,m₂,live,again,same⟩ := old i there
      cases Option.some.inj (live'.symm.trans again)
      exact .inr ⟨i,there,m₁,live,same⟩

theorem closedEntries {item : FdItem} {m m' : FdMap} {last : Bool} (owned : Owned s)
    (owned' : Owned s') (perm : (item :: s'.items).Perm s.items)
    (live : s.fdMaps.read item.fdMap = some m)
    (deleted : deleteParentFd m item.oldFd = .ok (m',last))
    (maps : s'.fdMaps = if last then s.fdMaps.free item.fdMap else s.fdMaps.write item.fdMap m') :
    (∀ n, s.entries n = s'.entries n + oneFor m n) ∧
      ∀ i ∈ s'.items, ∀ m', s'.fdMaps.read i.fdMap = some m' →
        ∃ j ∈ s.items, ∃ m, s.fdMaps.read j.fdMap = some m ∧ SameEnd m m' := by
  obtain ⟨m₀,stored,live₀,parents,present⟩ :=
    owned.parents item (perm.mem_iff.mp List.mem_cons_self)
  cases Option.some.inj (live.symm.trans live₀)
  obtain ⟨_,_,_,_,myFd,type⟩ := deleteParentStored parents present deleted
  have rest : ∀ i ∈ s'.items, ∃ m m', s.fdMaps.read i.fdMap = some m ∧
      s'.fdMaps.read i.fdMap = some m' ∧ SameEnd m m' := by
    intro i member
    obtain ⟨m₁,_,live₁,_⟩ := owned.parents i (perm.mem_iff.mp (List.mem_cons_of_mem _ member))
    obtain ⟨m₂,_,live₂,_⟩ := owned'.parents i member
    refine ⟨m₁,m₂,live₁,live₂,?_⟩
    rw [maps] at live₂
    by_cases same : i.fdMap = item.fdMap
    · rw [same] at live₁ live₂
      cases Option.some.inj (live.symm.trans live₁)
      cases last with
      | true =>
        rw [if_pos rfl,Arena.readFree] at live₂
        exact absurd live₂ (by simp)
      | false =>
        rw [if_neg (by simp),Arena.readWrite _ live] at live₂
        cases Option.some.inj live₂
        exact ⟨myFd,type⟩
    · have unchanged : s.fdMaps.read i.fdMap = some m₂ := by
        split at live₂
        · rwa [Arena.readFreeNe _ same] at live₂
        · rwa [Arena.readWriteNe _ _ same] at live₂
      cases Option.some.inj (live₁.symm.trans unchanged)
      exact ⟨rfl,rfl⟩
  constructor
  · intro n
    have all := countEntriesCons s'.items live n
    rw [State.entries,State.entries,countEntriesSame rest n,← all,countEntries,countEntries,
      perm.countP_eq]
  · intro i member m₂ live₂
    obtain ⟨m₁,m₃,live₁,live₃,same⟩ := rest i member
    cases Option.some.inj (live₂.symm.trans live₃)
    exact ⟨i,perm.mem_iff.mp (List.mem_cons_of_mem _ member),m₁,live₁,same⟩

theorem writtenEnds {a : Nat} {m m' : FdMap} (owned : Owned s) (live : s.fdMaps.read a = some m)
    (same : SameEnd m m') : ∀ i ∈ s.items, ∃ m₁ m₂, s.fdMaps.read i.fdMap = some m₁ ∧
      (s.fdMaps.write a m').read i.fdMap = some m₂ ∧ SameEnd m₁ m₂ := by
  intro i member
  obtain ⟨m₁,_,live₁,_⟩ := owned.parents i member
  by_cases here : i.fdMap = a
  · subst here
    cases Option.some.inj (live.symm.trans live₁)
    exact ⟨m,m',live,Arena.readWrite _ live,same⟩
  · exact ⟨m₁,m₁,live₁,by rw [Arena.readWriteNe _ _ here]; exact live₁,rfl,rfl⟩

theorem aliasedEntries {t : Nat} {fd : Int32} {h h' : HashTable FdItem} {item : FdItem}
    {m m' : FdMap} (owned : Owned s) (there : item ∈ s.items)
    (live : s.fdMaps.read item.fdMap = some m) (stored : insertParentFd m fd = .ok m')
    (table : s.tables[t]? = some h)
    (inserted : h.insert htOpsFdItem fd ⟨s.nextItem,fd,item.fdMap⟩ = some h')
    {u : HashTable FdUsage} (after : s' = { s with
      fdMaps := s.fdMaps.write item.fdMap m', tables := s.tables.set t h',
      nextItem := s.nextItem + 1, usageMap := u }) :
    (∀ n, s'.entries n = s.entries n + oneFor m n) ∧
      ∀ i ∈ s'.items, ∀ m₂, s'.fdMaps.read i.fdMap = some m₂ →
        ∃ j ∈ s.items, ∃ m, s.fdMaps.read j.fdMap = some m ∧ SameEnd m m₂ := by
  obtain ⟨mine,type,_⟩ := insertParentAlike stored
  have tables : s'.tables = s.tables.set t h' := by rw [after]
  have maps : s'.fdMaps = s.fdMaps.write item.fdMap m' := by rw [after]
  have perm : s'.items.Perm (⟨s.nextItem,fd,item.fdMap⟩ :: s.items) := by
    rw [State.items,tables]
    exact flatMapSet table (HashTable.insertItems inserted)
  have rest := writtenEnds owned live ⟨mine,type⟩
  rw [← maps] at rest
  have here : s'.fdMaps.read item.fdMap = some m' := by
    rw [maps]
    exact Arena.readWrite m' live
  constructor
  · intro n
    have one : oneFor m' n = oneFor m n := by rw [oneFor,oneFor,mine,type]
    have others := countEntriesSame rest n
    refine (perm.countP_eq _).trans ?_
    exact (countEntriesCons _ here n).trans (congrArg₂ (· + ·) others one)
  · intro i member m₂ live₂
    rcases List.mem_cons.mp (perm.mem_iff.mp member) with rfl | old
    · cases Option.some.inj (live₂.symm.trans here)
      exact ⟨item,there,m,live,mine,type⟩
    · obtain ⟨m₁,m₃,live₁,live₃,same⟩ := rest i old
      cases Option.some.inj (live₂.symm.trans live₃)
      exact ⟨i,old,m₁,live₁,same⟩

variable {ok : Allowed} {counted : Int32} {m : FdMap}

theorem originBounds (origin : Origin env ok s counted m s') (bounds : Bounds s) : Bounds s' := by
  have openFd := bounds.openFd
  have socketFd := bounds.socketFd
  cases origin with
  | replayed => exact ⟨openFd,socketFd⟩
  | placeholder up =>
    have next := countUpInt up
    exact ⟨by simp only; omega,socketFd⟩
  | socket down =>
    have next := countDownInt down
    exact ⟨openFd,by simp only; omega⟩
  | pipe => exact ⟨openFd,socketFd⟩

theorem originWider (origin : Origin env ok s counted m s') : Wider ends s s' := by
  cases origin with
  | replayed => exact ⟨fun n known => answeredOpen.mpr (.inr known),fun n handed => handed⟩
  | placeholder up =>
    have next := countUpInt up
    refine ⟨fun n known => known,fun n handed => ?_⟩
    simp only [Handed] at handed ⊢
    omega
  | socket down =>
    have next := countDownInt down
    refine ⟨fun n known => known,fun n handed => ?_⟩
    simp only [Handed] at handed ⊢
    omega
  | pipe ended down =>
    have next := countDownInt down
    refine ⟨fun n known => known,fun n handed => ?_⟩
    simp only [Handed] at handed ⊢
    omega

theorem boundsOf (bounds : Bounds s) (openFd : s'.openFd = s.openFd)
    (socketFd : s'.socketFd = s.socketFd) : Bounds s' :=
  ⟨openFd ▸ bounds.openFd,socketFd ▸ bounds.socketFd⟩

theorem boundsEdit (edit : Edit env ok s s') (bounds : Bounds s) : Bounds s' := by
  cases edit with
  | logged | openFailed | probed | simmed | seeked | tableAdded | linked | closeFailed
  | aliased => exact boundsOf bounds rfl rfl
  | openNumber up =>
    have next := countUpInt up
    have openFd := bounds.openFd
    exact ⟨by simp only; omega,bounds.socketFd⟩
  | placed origin parents put =>
    have mid := originBounds origin bounds
    cases put
    exact boundsOf mid rfl rfl
  | copied copies there live put =>
    cases put
    exact boundsOf bounds rfl rfl
  | closed table found live release =>
    cases release with
    | untracked | kept | simulated | closed => exact boundsOf bounds rfl rfl

theorem Wider.trans {u : State} (a : Wider ends s s') (b : Wider ends s' u) : Wider ends s u :=
  ⟨fun n h => b.answered n (a.answered n h),fun n h => b.handed n (a.handed n h)⟩

theorem widerPut {t : Nat} {k fd : Int32} (put : Put s t k fd counted m s') :
    Wider ends s s' := by
  cases put
  exact ⟨fun _ h => h,fun _ h => h⟩

theorem widerEdit (edit : Edit env ok s s') : Wider ends s s' := by
  cases edit with
  | logged c quiet =>
    exact ⟨fun n known => (answeredOther (quietOpens quiet)).trans known,fun _ h => h⟩
  | openFailed => exact ⟨fun n known => answeredOpen.mpr (.inr known),fun _ h => h⟩
  | probed =>
    exact ⟨fun n known => (answeredOther rfl).trans (answeredOpen.mpr (.inr known)),fun _ h => h⟩
  | simmed | seeked | tableAdded | linked | aliased => exact ⟨fun _ h => h,fun _ h => h⟩
  | closeFailed => exact ⟨fun n known => (answeredOther rfl).trans known,fun _ h => h⟩
  | openNumber up =>
    have next := countUpInt up
    refine ⟨fun n known => known,fun n handed => ?_⟩
    simp only [Handed] at handed ⊢
    omega
  | placed origin parents put => exact (originWider origin).trans (widerPut put)
  | copied copies there live put => exact widerPut put
  | closed table found live release =>
    cases release with
    | untracked | kept | simulated => exact ⟨fun _ h => h,fun _ h => h⟩
    | closed => exact ⟨fun n known => (answeredOther rfl).trans known,fun _ h => h⟩

theorem Tracked.opened {name : CName} {flags : Int32} {mode : Option UInt32} {t : Nat}
    {k fd : Int32} (fresh : FreshOpens env) (tracked : Tracked ends s) (owned : Owned s)
    (apart : Apart ends s') (returned : s.answer env (.open name flags mode) = counted)
    (valid : counted ≠ -1) (mine : m.myFd = counted) (supported : supportedType m.type = true)
    (put : Put (s.logged env (.open name flags mode)) t k fd counted m s') : Tracked ends s' := by
  have log : s'.log = (.open name flags mode,env.kernel s.log (.open name flags mode)) :: s.log :=
    putLog put
  have usage : increaseFdUsage s.usageMap counted = .ok s'.usageMap := by
    obtain ⟨_,_,used⟩ := put
    exact used
  have known (n : Int32) : answered s'.log n = true ↔ n = counted ∨ answered s.log n = true :=
    log ▸ answeredBy returned valid
  have opens (n : Int32) : isOpen s'.log n = true ↔ n = counted ∨ isOpen s.log n = true :=
    log ▸ isOpenBy returned valid
  have wider : Wider ends s s' := by
    have rest : Wider ends (s.logged env (.open name flags mode)) s' := widerPut put
    exact ⟨fun n old => (known n).mpr (.inr old),rest.handed⟩
  have closed : isOpen s.log counted = false := by
    rcases fresh s.log name flags mode with failed | closed
    · exact absurd (returned.symm.trans failed) valid
    · rwa [show (env.kernel s.log (.open name flags mode)).toInt32 = counted
        from returned] at closed
  have away : ¬ (ends counted ∨ Handed s counted) := by
    intro clash
    refine apart counted ((known counted).mpr (.inl rfl)) ?_
    exact clash.imp_right (wider.handed counted)
  obtain ⟨none,unused⟩ := tracked.free closed away
  have mid : Owned (s.logged env (.open name flags mode)) := owned.of rfl rfl
  obtain ⟨entries,sources⟩ := putEntries mid put
  have before (n : Int32) : (s.logged env (.open name flags mode)).entries n = s.entries n := rfl
  obtain ⟨counters,counts⟩ := increaseCounts tracked.counters usage
  refine ⟨counters,?_,?_,?_,?_⟩
  · intro n there
    by_cases same : n = counted
    · have one : oneFor m n = 1 := if_pos ⟨mine.trans same.symm,supported⟩
      refine ⟨?_,?_⟩
      · rw [counts n,entries n,before n,one,if_pos same,same,unused,none]
        rfl
      · rw [opens n,entries n,one]
        simp [same]
    · obtain ⟨count,openIff⟩ := tracked.right n (((known n).mp there).resolve_left same)
      have other : oneFor m n = 0 := if_neg fun both => same (mine ▸ both.1).symm
      refine ⟨?_,?_⟩
      · rw [counts n,entries n,before n,other,count,if_neg same]
        rfl
      · rw [opens n,entries n,before n,other,Nat.add_zero,← openIff]
        simp [same]
  · intro n used
    by_cases same : n = counted
    · exact .inl ((known n).mpr (.inl same))
    · rw [counts n,if_neg same,Int.add_zero] at used
      rcases tracked.stray n used with old | stray
      · exact .inl (wider.answered n old)
      · exact .inr (wider.stray stray)
  · intro i member m' live'
    rcases sources i member m' live' with rfl | ⟨j,there,m₁,live,same⟩
    · rw [Sourced,if_pos supported,mine]
      exact (known counted).mpr (.inl rfl)
    · exact wider.sourced (tracked.sourced j there m₁ live) same
  · intro n std
    obtain ⟨opened,unknown⟩ := tracked.inherited n std
    refine ⟨(opens n).mpr (.inr opened),?_⟩
    rw [Bool.eq_false_iff]
    intro there
    rcases (known n).mp there with rfl | old
    · rw [closed] at opened
      exact absurd opened (by simp)
    · rw [unknown] at old
      exact absurd old (by simp)

theorem Tracked.put {t : Nat} {k fd : Int32} (tracked : Tracked ends s) (owned : Owned s)
    (apart : Apart ends s')
    (kind : supportedType m.type = true ∧ counted = m.myFd ∧ answered s.log counted = true ∧
        s.entries counted ≠ 0 ∨
      supportedType m.type = false ∧ Stray ends s counted)
    (sourced : Sourced ends s m) (put : Put s t k fd counted m s') : Tracked ends s' := by
  have wider : Wider ends s s' := widerPut put
  obtain ⟨entries,sources⟩ := putEntries owned put
  have usage : increaseFdUsage s.usageMap counted = .ok s'.usageMap := by
    obtain ⟨_,_,used⟩ := put
    exact used
  refine tracked.more (wider.apart apart) (putLog put) wider usage entries kind ?_
  intro i member m' live'
  rcases sources i member m' live' with rfl | old
  · exact .inl sourced
  · exact .inr old

theorem Tracked.handed (tracked : Tracked ends s) (wider : Wider ends s s')
    (tables : s'.tables = s.tables) (maps : s'.fdMaps = s.fdMaps)
    (usage : s'.usageMap = s.usageMap) (log : s'.log = s.log) : Tracked ends s' := by
  refine tracked.frame wider usage ?_ (fun n => by rw [log]) (fun n _ => by rw [log]) ?_
  · intro n
    rw [State.entries,State.entries,State.items,State.items,tables,maps]
  · intro i member m' live'
    rw [State.items,tables] at member
    rw [maps] at live'
    exact ⟨i,member,m',live',rfl,rfl⟩

theorem Tracked.placed {s₁ : State} {t : Nat} {fd : Int32} (fresh : FreshOpens env)
    (acts : env.actReplicate = true) (inside : ∀ n, ok.pipeEnd n → ends n)
    (tracked : Tracked ends s) (owned : Owned s) (bounds : Bounds s) (apart : Apart ends s')
    (origin : Origin env ok s counted m s₁) (put : Put s₁ t fd fd counted m s') :
    Tracked ends s' := by
  have wider : Wider ends s s₁ := originWider origin
  have openFd := bounds.openFd
  have socketFd := bounds.socketFd
  -- the three kinds of placeholder
  have placeholder (tables : s₁.tables = s.tables) (maps : s₁.fdMaps = s.fdMaps)
      (usage : s₁.usageMap = s.usageMap) (log : s₁.log = s.log)
      (unsupported : supportedType m.type = false) (stray : Stray ends s₁ counted)
      (mine : Stray ends s₁ m.myFd) : Tracked ends s' := by
    refine (tracked.handed wider tables maps usage log).put (owned.of tables maps) apart
      (.inr ⟨unsupported,stray⟩) ?_ put
    rw [Sourced,if_neg (by simp [unsupported])]
    exact mine
  cases origin with
  | replayed _ returned valid mine supported =>
    exact tracked.opened fresh owned apart returned valid mine supported put
  | placeholder up mine replaying =>
    have next := countUpInt up
    have stray : Stray ends { s with openFd := counted } counted :=
      .inr (.inr (.inl ⟨by omega,Int.le_refl _⟩))
    exact placeholder rfl rfl rfl rfl (replaying acts) stray (mine ▸ stray)
  | socket down mine unsupported =>
    have next := countDownInt down
    have stray : Stray ends { s with socketFd := counted } counted :=
      .inr (.inr (.inr (.inl ⟨Int.le_refl _,by omega⟩)))
    exact placeholder rfl rfl rfl rfl unsupported stray (mine ▸ stray)
  | pipe ended down unsupported =>
    have next := countDownInt down
    have top := s.pipeFd.toInt_lt
    have stray : Stray ends { s with pipeFd := m.myFd } m.myFd :=
      .inr (.inr (.inr (.inr ⟨Int.le_refl _,by omega⟩)))
    exact placeholder rfl rfl rfl rfl unsupported (.inr (.inl (inside _ ended))) stray

theorem Tracked.probed {name : CName} {flags : Int32} {mode : Option UInt32}
    (fresh : FreshOpens env) (closes : ClosesSucceed env) (tracked : Tracked ends s)
    (returned : s.answer env (.open name flags mode) = counted)
    (valid : counted ≠ -1)
    (apart : Apart ends ((s.logged env (.open name flags mode)).logged env (.close counted))) :
    Tracked ends ((s.logged env (.open name flags mode)).logged env (.close counted)) := by
  have known (n : Int32) : answered ((s.logged env (.open name flags mode)).logged env
      (.close counted)).log n = true ↔ n = counted ∨ answered s.log n = true := by
    have skip : answered ((s.logged env (.open name flags mode)).logged env
        (.close counted)).log n = answered (s.logged env (.open name flags mode)).log n :=
      answeredOther rfl
    exact (Eq.congr_left skip).trans (answeredBy returned valid)
  have closed : isOpen s.log counted = false := by
    rcases fresh s.log name flags mode with failed | closed
    · exact absurd (returned.symm.trans failed) valid
    · rwa [show (env.kernel s.log (.open name flags mode)).toInt32 = counted
        from returned] at closed
  have opened : isOpen (s.logged env (.open name flags mode)).log counted = true :=
    (isOpenBy returned valid).mpr (.inl rfl)
  have done := closes _ _ opened
  have opens (n : Int32) : isOpen ((s.logged env (.open name flags mode)).logged env
      (.close counted)).log n = isOpen s.log n := by
    rw [Bool.eq_iff_iff]
    refine isOpenClose.trans ?_
    rw [show isOpen (s.logged env (.open name flags mode)).log n = true ↔ _ from
      isOpenBy returned valid]
    constructor
    · rintro ⟨rfl | old,other⟩
      · exact absurd (other rfl) done
      · exact old
    · intro old
      refine ⟨.inr old,fun same => ?_⟩
      rw [← same,closed] at old
      exact absurd old (by simp)
  have away : ¬ (ends counted ∨ Handed s counted) := fun clash =>
    apart counted ((known counted).mpr (.inl rfl)) clash
  obtain ⟨none,unused⟩ := tracked.free closed away
  refine ⟨tracked.counters,?_,?_,?_,?_⟩
  · intro n there
    by_cases same : n = counted
    · have gone : ((s.logged env (.open name flags mode)).logged env
          (.close counted)).entries counted = 0 := none
      rw [same]
      exact ⟨by rw [gone]; exact unused,by rw [opens counted,closed,gone]; simp⟩
    · obtain ⟨count,openIff⟩ := tracked.right n (((known n).mp there).resolve_left same)
      exact ⟨count,by rw [opens n]; exact openIff⟩
  · intro n used
    exact (tracked.stray n used).imp_left fun old => (known n).mpr (.inr old)
  · intro i member m' live'
    have wider : Wider ends s ((s.logged env (.open name flags mode)).logged env
        (.close counted)) := ⟨fun n old => (known n).mpr (.inr old),fun _ h => h⟩
    exact wider.sourced (tracked.sourced i member m' live') ⟨rfl,rfl⟩
  · intro n std
    obtain ⟨open_,unknown⟩ := tracked.inherited n std
    refine ⟨by rw [opens n]; exact open_,?_⟩
    rw [Bool.eq_false_iff]
    intro there
    rcases (known n).mp there with rfl | old
    · rw [closed] at open_
      exact absurd open_ (by simp)
    · rw [unknown] at old
      exact absurd old (by simp)

theorem Tracked.less (tracked : Tracked ends s) (supported : supportedType m.type = true)
    {last : Bool}
    (known : answered s.log m.myFd = true)
    (used : decreaseFdUsage s.usageMap m.myFd = .ok (s'.usageMap,last))
    (entries : ∀ n, s.entries n = s'.entries n + oneFor m n)
    (wider : Wider ends s s') (answers : ∀ n, answered s'.log n = answered s.log n)
    (opens : ∀ n, isOpen s'.log n = true ↔
      isOpen s.log n = true ∧ (m.myFd = n → last = false))
    (sources : ∀ i ∈ s'.items, ∀ m', s'.fdMaps.read i.fdMap = some m' → ∃ j ∈ s.items, ∃ m,
      s.fdMaps.read j.fdMap = some m ∧ SameEnd m m') : Tracked ends s' := by
  obtain ⟨counters,counts,ends_⟩ := decreaseCounts tracked.counters used
  refine ⟨counters,?_,?_,?_,?_⟩
  · intro n there
    rw [answers n] at there
    obtain ⟨count,openIff⟩ := tracked.right n there
    have step := entries n
    by_cases same : m.myFd = n
    · have one : oneFor m n = 1 := if_pos ⟨same,supported⟩
      have final : last = true ↔ s'.entries n = 0 := by
        rw [ends_,same,count]
        omega
      refine ⟨by rw [counts n,count,if_pos same.symm]; omega,?_⟩
      rw [opens n,openIff]
      constructor
      · rintro ⟨_,more⟩ zero
        have contrary := more same
        rw [final.mpr zero] at contrary
        exact absurd contrary (by simp)
      · intro more
        exact ⟨by omega,fun _ => by rw [← Bool.not_eq_true,final]; exact more⟩
    · have none : oneFor m n = 0 := if_neg fun both => same both.1
      refine ⟨by rw [counts n,count,if_neg (Ne.symm same)]; omega,?_⟩
      rw [opens n,openIff]
      constructor
      · rintro ⟨some_,_⟩
        omega
      · intro some_
        exact ⟨by omega,fun eq => absurd eq same⟩
  · intro n used'
    rw [answers n]
    by_cases same : n = m.myFd
    · exact .inl (same ▸ known)
    · rw [counts n,if_neg same,Int.sub_zero] at used'
      exact (tracked.stray n used').imp_right wider.stray
  · intro i member m' live'
    obtain ⟨j,there,m₁,live,same⟩ := sources i member m' live'
    exact wider.sourced (tracked.sourced j there m₁ live) same
  · intro n std
    obtain ⟨open_,unknown⟩ := tracked.inherited n std
    refine ⟨(opens n).mpr ⟨open_,fun eq => ?_⟩,by rw [answers n]; exact unknown⟩
    rw [← eq] at unknown
    rw [unknown] at known
    exact absurd known (by simp)

theorem Tracked.closed {s₁ : State} {t : Nat} {fd : Int32} {h h' : HashTable FdItem}
    {item : FdItem} {m' : FdMap} {last : Bool} (acts : env.actReplicate = true)
    (tracked : Tracked ends s) (owned : Owned s) (owned' : Owned s')
    (table : s.tables[t]? = some h) (found : h.find htOpsFdItem fd = some (some item))
    (live : s.fdMaps.read item.fdMap = some m) (release : Release env s m s₁)
    (deleted : deleteParentFd m fd = .ok (m',last))
    (removed : h.remove htOpsFdItem fd = some h')
    (after : s' = { s₁ with
      tables := s.tables.set t h',
      fdMaps := if last then s.fdMaps.free item.fdMap else s.fdMaps.write item.fdMap m' }) :
    Tracked ends s' := by
  have perm : (item :: s'.items).Perm s.items := by
    rw [after]
    exact removedItems table found removed
  have maps : s'.fdMaps =
      if last then s.fdMaps.free item.fdMap else s.fdMaps.write item.fdMap m' := by rw [after]
  have oldFd := (Found.mk ⟨h,table,found⟩).oldFd
  obtain ⟨entries,sources⟩ := closedEntries owned owned' perm live (oldFd ▸ deleted) maps
  have there : item ∈ s.items := perm.mem_iff.mp List.mem_cons_self
  have sourced := tracked.sourced item there m live
  cases release with
  | untracked unsupported =>
    subst after
    have none (n : Int32) : oneFor m n = 0 := by simp [oneFor,unsupported]
    refine tracked.frame ⟨fun _ h => h,fun _ h => h⟩ rfl ?_ (fun _ => rfl) (fun _ _ => rfl)
      sources
    intro n
    have step := entries n
    rw [none n] at step
    exact step.symm
  | kept supported used =>
    subst after
    rw [Sourced,if_pos supported] at sourced
    exact tracked.less supported sourced used entries ⟨fun _ h => h,fun _ h => h⟩
      (fun _ => rfl) (fun n => ⟨fun open_ => ⟨open_,fun _ => rfl⟩,And.left⟩) sources
  | simulated supported used simulating =>
    rw [acts] at simulating
    exact absurd simulating (by simp)
  | closed supported used _ done =>
    subst after
    rw [Sourced,if_pos supported] at sourced
    refine tracked.less supported sourced used entries
      ⟨fun _ known => (answeredOther rfl).trans known,fun _ h => h⟩
      (fun _ => answeredOther rfl) (fun n => ?_) sources
    refine isOpenClose.trans (and_congr_right fun _ => ?_)
    have never : (env.kernel s.log (.close m.myFd)).toInt32 ≠ -1 := done
    simp [never]

theorem trackedEdit (fresh : FreshOpens env) (closes : ClosesSucceed env)
    (acts : env.actReplicate = true) (careful : ¬ ok.careless)
    (inside : ∀ n, ok.pipeEnd n → ends n) (edit : Edit env ok s s') (owned : Owned s)
    (bounds : Bounds s) (apart : Apart ends s') (tracked : Tracked ends s) :
    Tracked ends s' := by
  have owned' := ownedEdit careful edit owned
  have wider : Wider ends s s' := widerEdit edit
  have before := wider.apart apart
  have still : ∀ i ∈ s.items, ∀ m', s.fdMaps.read i.fdMap = some m' → ∃ j ∈ s.items, ∃ m,
      s.fdMaps.read j.fdMap = some m ∧ SameEnd m m' :=
    fun i member m' live => ⟨i,member,m',live,rfl,rfl⟩
  cases edit with
  | logged c quiet =>
    exact tracked.frame wider rfl (fun _ => rfl) (fun _ => answeredOther (quietOpens quiet))
      (fun _ _ => isOpenQuiet quiet) still
  | openFailed failed =>
    refine tracked.frame wider rfl (fun _ => rfl) (fun n => ?_) (fun n _ => ?_) still
    · rw [Bool.eq_iff_iff]
      refine answeredOpen.trans ⟨fun either => either.resolve_left ?_,.inr⟩
      exact fun both => both.2 (both.1.symm.trans failed)
    · rw [Bool.eq_iff_iff]
      refine isOpenOpen.trans ⟨fun either => either.resolve_left ?_,.inr⟩
      exact fun both => both.2 (both.1.symm.trans failed)
  | probed returned => exact tracked.probed fresh closes rfl returned apart
  | simmed | openNumber | linked => exact tracked.handed wider rfl rfl rfl rfl
  | seeked live pos working held =>
    rename_i pid t a m
    have rest := writtenEnds owned live (show SameEnd m { m with curPos := pos } from ⟨rfl,rfl⟩)
    refine tracked.frame wider rfl (countEntriesSame rest) (fun _ => rfl) (fun _ _ => rfl) ?_
    intro i member m₂ live₂
    obtain ⟨m₁,m₃,live₁,live₃,same⟩ := rest i member
    cases Option.some.inj (live₂.symm.trans live₃)
    exact ⟨i,member,m₁,live₁,same⟩
  | placed origin parents put =>
    exact tracked.placed fresh acts inside owned bounds apart origin put
  | tableAdded copies =>
    have none := tableAddedItems s
    refine tracked.frame wider rfl (fun n => ?_) (fun _ => rfl) (fun _ _ => rfl) (none ▸ still)
    rw [State.entries,none]
    rfl
  | copied copies there live put =>
    have sourced := tracked.sourced _ there _ live
    refine tracked.put owned apart ?_ sourced put
    rw [Sourced] at sourced
    split at sourced
    · rename_i supported
      exact .inl ⟨supported,rfl,sourced,countEntriesPos there live supported⟩
    · rename_i unsupported
      exact .inr ⟨by simpa using unsupported,sourced⟩
  | closed table found live release deleted removed =>
    exact tracked.closed acts owned owned' table found live release deleted removed rfl
  | closeFailed there live supported used failed =>
    have sourced := tracked.sourced _ there _ live
    rw [Sourced,if_pos supported] at sourced
    have opened := (tracked.right _ sourced).openIff.mpr (countEntriesPos there live supported)
    exact absurd failed (closes _ _ opened)
  | aliased careful' live stored valid table inserted used working held =>
    rename_i h h' item m m' usage
    obtain ⟨there,room⟩ := careful'.resolve_left careful
    have more := aliasedEntries (u := usage) owned there live stored table inserted rfl
    have sourced := tracked.sourced _ there _ live
    refine tracked.more before rfl wider used more.1 ?_ fun i member m₂ live₂ =>
      .inr (more.2 i member m₂ live₂)
    rw [Sourced] at sourced
    split at sourced
    · rename_i supported
      exact .inl ⟨supported,rfl,sourced,countEntriesPos there live supported⟩
    · rename_i unsupported
      exact .inr ⟨by simpa using unsupported,sourced⟩

end Steps
section Reached
variable {env : Env} {pid : Int32} {s : State}

theorem Began.tracked (began : Began env pid s) : Tracked ends s := by
  obtain ⟨mappings,_,b,c,d,stdin,stdout,stderr,_,rfl,put₀,put₁,put₂,one,two,three,_,_,_,rfl⟩ :=
    began.puts
  have noItems : (firstTable pid mappings).items = [] := by
    simp [firstTable,State.items,HashTable.itemsInit]
  have owned : Owned (firstTable pid mappings) :=
    ⟨fun i member => absurd member (by simp [noItems]),by simp [noItems]⟩
  have empty : Tracked ends (firstTable pid mappings) := by
    refine ⟨countersInit _,fun n known => absurd known (by simp [firstTable,State.start,answered]),
      fun n used => absurd (usageCountInit _ n) used,?_,?_⟩
    · exact fun i member => absurd member (by simp [noItems])
    · rintro n (rfl | rfl | rfl) <;> exact ⟨rfl,rfl⟩
  have silent {s : State} (log : s.log = []) : Apart ends s := by
    intro n known
    rw [log] at known
    exact absurd known (by simp [answered])
  have standard {fd : Int32} {m : FdMap} {s : State} (std : Standard fd m)
      (inherited : Inherited fd) : supportedType m.type = false ∧ Sourced ends s m := by
    have unsupported : supportedType m.type = false := by rw [std.type]; rfl
    refine ⟨unsupported,?_⟩
    rw [Sourced,if_neg (by simp [unsupported]),std.mine]
    exact .inl inherited
  have log₀ := putLog put₀
  have log₁ := (putLog put₁).trans log₀
  have log₂ := (putLog put₂).trans log₁
  have zero := standard (s := firstTable pid mappings) one (.inl rfl)
  have first := empty.put owned (silent log₀)
    (.inr ⟨zero.1,.inl (.inr (.inl rfl))⟩) zero.2 put₀
  have owned₁ := owned.put put₀ one.parents (by simp)
  have next := standard (s := b) two (.inr (.inl rfl))
  have second := first.put owned₁ (silent log₁)
    (.inr ⟨next.1,.inl (.inr (.inl rfl))⟩) next.2 put₁
  have owned₂ := owned₁.put put₁ two.parents (by simp)
  have last := standard (s := c) three (.inr (.inr rfl))
  have third := second.put owned₂ (silent log₂)
    (.inr ⟨last.1,.inl (.inr (.inr rfl))⟩) last.2 put₂
  refine third.frame ⟨fun _ h => h,fun _ h => h⟩ rfl (fun _ => rfl) (fun _ => rfl) ?_
    fun i member m live => ⟨i,member,m,live,rfl,rfl⟩
  intro n either
  have inherited : Inherited n := either.resolve_left fun known => by
    rw [log₂] at known
    exact absurd known (by simp [firstTable,State.start,answered])
  have before := (third.inherited n inherited).1
  rw [before]
  simp [isOpen,State.logged,before]

theorem Began.bounds (began : Began env pid s) : Bounds s := by
  obtain ⟨mappings,_,b,c,d,_,_,_,_,rfl,put₀,put₁,put₂,_,_,_,_,_,_,rfl⟩ := began.puts
  cases put₀
  cases put₁
  cases put₂
  have start : Bounds State.start := ⟨by decide,by decide⟩
  exact ⟨start.openFd,start.socketFd⟩

def processTables (s : State) : List (HashTable FdItem) :=
  (s.tables.zipIdx.filter fun entry =>
    s.fdMappings.items.any fun p => p.ht = some entry.2).map Prod.fst

theorem processTablesLinked (linked : Linked s) : processTables s = s.tables := by
  have all : s.tables.zipIdx.filter (fun entry =>
      s.fdMappings.items.any fun p => p.ht = some entry.2) = s.tables.zipIdx := by
    refine List.filter_eq_self.mpr fun entry member => ?_
    have inside := List.snd_lt_of_mem_zipIdx member
    obtain ⟨p,there,same⟩ := linked entry.2 (by simpa using inside)
    exact List.any_eq_true.mpr ⟨p,there,by simpa using same⟩
  rw [processTables,all,List.zipIdx_map_fst]

def processEntries (s : State) (n : Int32) : Nat :=
  countEntries s.fdMaps ((processTables s).flatMap HashTable.items) n

/-- The count of every number a replayed open returned is the number of its entries, and it is
open exactly as long as it has one. -/
def UsageRight (s : State) : Prop := ∀ n, answered s.log n = true →
  usageCount s.usageMap n = processEntries s n ∧
    (isOpen s.log n = true ↔ processEntries s n ≠ 0)

def pipeNoted (ends : Int32 → Prop) : Op → Prop
  | .pipe o => o.retval ≠ -1 → ends o.fd1 ∧ ends o.fd2
  | _ => True

def notingPipes (ends : Int32 → Prop) (env : Env) (s : State) (op : Op) : Prop :=
  carefulOp env s op ∧ pipeNoted ends op

theorem usageTracked (acts : env.actReplicate = true) (fresh : FreshOpens env)
    (closes : ClosesSucceed env) (reached : Reached env (notingPipes ends env) pid s)
    (apart : Apart ends s) : UsageRight s := by
  have inv : Owned s ∧ Bounds s ∧ (Apart ends s → Tracked ends s) := by
    refine reached.keeps { Allowed.any with pipeEnd := ends, careless := False }
      (fun s => Owned s ∧ Bounds s ∧ (Apart ends s → Tracked ends s))
      (fun _ began => ⟨began.owned,began.bounds,fun _ => began.tracked⟩) ?_ ?_
    · rintro s op ⟨owned,_⟩ ⟨careful,pipes⟩
      refine Allowed.Lax.permits
        ⟨trivial,trivial,trivial,fun _ => trivial,fun _ => trivial,fun _ => trivial⟩
        ?_ (fun _ _ => trivial) fun _ => ⟨owned,careful⟩
      rintro o rfl
      exact pipes
    · rintro s t edit ⟨owned,bounds,tracked⟩
      refine ⟨ownedEdit not_false edit owned,boundsEdit edit bounds,fun apart => ?_⟩
      exact trackedEdit fresh closes acts not_false (fun _ h => h) edit owned bounds apart
        (tracked ((widerEdit edit).apart apart))
  intro n known
  obtain ⟨count,openIff⟩ := (inv.2.2 apart).right n known
  have same : processEntries s n = s.entries n := by
    rw [processEntries,processTablesLinked reached.linked]
    rfl
  exact ⟨by rw [same,count],by rw [same,openIff]⟩

section Examples

def lowestOf (log : List (Call × Int64)) (numbers : List Nat) : Int64 :=
  match numbers.find? fun n => !isOpen log (Int32.ofNat n) with
  | some n => Int64.ofNat n
  | none => -1

theorem lowestOfFree (log : List (Call × Int64)) (numbers : List Nat) :
    (lowestOf log numbers).toInt32 = -1 ∨ isOpen log (lowestOf log numbers).toInt32 = false := by
  rw [lowestOf]
  cases found : numbers.find? fun n => !isOpen log (Int32.ofNat n) with
  | none => exact .inl rfl
  | some n =>
    have free := List.find?_some found
    right
    simp only [Int64.toInt32_ofNat']
    simpa using free

def lowestKernel (log : List (Call × Int64)) : Call → Int64
  | .open .. | .openDevice _ => lowestOf log (List.range 1024)
  | _ => 0

def replaying : Env := plainEnv true false lowestKernel

theorem lowestKernelOpen (log : List (Call × Int64)) (name : CName) (flags : Int32)
    (mode : Option UInt32) : lowestKernel log (.open name flags mode) =
      lowestOf log (List.range 1024) := by
  rw [lowestKernel]

theorem replayingFresh : FreshOpens replaying := by
  intro log name flags mode
  have same : replaying.kernel = lowestKernel := rfl
  rw [same,lowestKernelOpen]
  exact lowestOfFree log _

theorem replayingCloses : ClosesSucceed replaying := by
  intro log fd _
  exact (by decide : (0 : Int64).toInt32 ≠ -1)

def piped (pid fd1 fd2 : Int32) : Op := .pipe ⟨fd1,fd2,0,0,blankInfo pid⟩

instance {s : State} {n : Int32} : Decidable (Handed s n) :=
  inferInstanceAs (Decidable (_ ∨ _ ∨ _))

def Among (ends : List Int32) (n : Int32) : Prop := n ∈ ends

instance {ends : List Int32} {op : Op} : Decidable (pipeNoted (Among ends) op) :=
  match op with
  | .pipe o => inferInstanceAs (Decidable (o.retval ≠ -1 → o.fd1 ∈ ends ∧ o.fd2 ∈ ends))
  | .write _ | .read _ | .pwrite _ | .pread _ | .open _ | .close _ | .unlink _ | .lseek _
  | .llseek _ | .clone _ | .mkdir _ | .rmdir _ | .dup _ | .dup2 _ | .dup3 _ | .access _
  | .stat _ | .socket _ | .sendfile _ => .isTrue trivial

instance {ends : List Int32} {env : Env} {s : State} {op : Op} :
    Decidable (notingPipes (Among ends) env s op) := inferInstanceAs (Decidable (_ ∧ _))

def apartLog (ends : List Int32) (s : State) : Bool :=
  s.log.all fun entry =>
    !entry.1.opens || !decide (entry.2.toInt32 ∈ ends ∨ Handed s entry.2.toInt32)

theorem apartOf {ends : List Int32} {s : State} (checked : apartLog ends s = true) :
    Apart (Among ends) s := by
  intro n known clash
  obtain ⟨entry,member,opens⟩ := List.any_eq_true.mp known
  have one := List.all_eq_true.mp checked entry member
  simp only [Bool.and_eq_true,decide_eq_true_eq] at opens
  obtain ⟨⟨opened,rfl⟩,_⟩ := opens
  have found : entry.2.toInt32 ∈ ends ∨ Handed s entry.2.toInt32 := clash
  simp [opened,found] at one

theorem usageTrackedFork : ∃ s, Reached replaying (notingPipes (Among [20,21]) replaying) 7 s ∧
    Apart (Among [20,21]) s ∧ UsageRight s := by
  have checked : ((initialised replaying 7).bind
      (runOps replaying (notingPipes (Among [20,21]) replaying)
        [opened 7 "/f" 3,piped 7 20 21,duplicated 7 3 4,.clone ⟨0,8,blankInfo 7⟩,closed 7 3,
          closed 8 3,closed 7 4])).any (apartLog [20,21]) = true := by decide +kernel
  obtain ⟨s,ran,apart⟩ := (Option.any_eq_true _ _).mp checked
  have reached := Reached.run ran
  have acts : replaying.actReplicate = true := by decide
  exact ⟨s,reached,apartOf apart,
    usageTracked acts replayingFresh replayingCloses reached (apartOf apart)⟩

def miscounted (n : Int32) (s : State) : Bool :=
  answered s.log n && usageCount s.usageMap n ≠ processEntries s n

theorem pipeMiscounted : ¬ ∀ env pid s, env.actReplicate = true → FreshOpens env →
    Reached env anyOp pid s → UsageRight s := by
  intro all
  have acts : replaying.actReplicate = true := by decide
  have wrong : ((initialised replaying 7).bind (runOps replaying anyOp
      [piped 7 5 6,opened 7 "/f" 7])).any (miscounted 5) = true := by decide +kernel
  obtain ⟨s,ran,miss⟩ := (Option.any_eq_true _ _).mp wrong
  simp only [miscounted,Bool.and_eq_true,decide_eq_true_eq] at miss
  exact miss.2 (all replaying 7 s acts replayingFresh (.run ran) 5 miss.1).1

end Examples
end Reached
end Tracking
end IoApps
