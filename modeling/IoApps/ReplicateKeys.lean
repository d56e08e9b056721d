import IoApps.FdUsage
import IoApps.ReplicateReach

/-! The numbers the replicator hashes: pids, recorded descriptors, and the numbers descriptors are
counted under. The hash function asserts that they are not negative. -/
namespace IoApps
open Lib (Arena Prog)
open Lib.Prog (Steps)

section Sized
variable {env : Env} {ok : Allowed} {s s' : State}

structure Sized (s : State) : Prop where
  tables : ∀ h ∈ s.tables, 0 < h.entries
  links : 0 < s.fdMappings.entries
  usage : 0 < s.usageMap.entries

theorem Sized.refused {k : Int32} (sized : Sized s) (refused : Refused s k) : ¬ 0 ≤ k := by
  intro valid
  cases refused with
  | process none =>
    have taken := (HashTable.chainKey htOpsFdMapping rfl sized.links).mpr valid
    rw [none] at taken
    exact absurd taken (by simp)
  | item table none =>
    have chains := sized.tables _ (List.mem_of_getElem? table)
    have taken := (HashTable.chainKey htOpsFdItem rfl chains).mpr valid
    rw [none] at taken
    exact absurd taken (by simp)
  | usage none =>
    have taken := (HashTable.chainKey htOpsFdUsage rfl sized.usage).mpr valid
    rw [none] at taken
    exact absurd taken (by simp)

theorem Sized.of (sized : Sized s) (tables : s'.tables = s.tables)
    (links : s'.fdMappings = s.fdMappings) (usage : s'.usageMap.entries = s.usageMap.entries) :
    Sized s' :=
  ⟨tables ▸ sized.tables,links ▸ sized.links,usage ▸ sized.usage⟩

theorem Sized.set {t : Nat} {h h' : HashTable FdItem} (sized : Sized s)
    (table : s.tables[t]? = some h) (same : h'.entries = h.entries)
    (tables : s'.tables = s.tables.set t h') (links : s'.fdMappings = s.fdMappings)
    (usage : s'.usageMap.entries = s.usageMap.entries) : Sized s' := by
  refine ⟨fun g member => ?_,links ▸ sized.links,usage ▸ sized.usage⟩
  rw [tables] at member
  cases List.mem_or_eq_of_mem_set member with
  | inl old => exact sized.tables g old
  | inr new =>
    rw [new,same]
    exact sized.tables h (List.mem_of_getElem? table)

theorem Sized.put {t : Nat} {k fd counted : Int32} {m : FdMap} (sized : Sized s)
    (put : Put s t k fd counted m s') : Sized s' ∧ 0 ≤ k := by
  obtain ⟨table,inserted,used⟩ := put
  have chains := sized.tables _ (List.mem_of_getElem? table)
  exact ⟨sized.set table (HashTable.insertEntries inserted) rfl rfl (increaseEntries used),
    HashTable.insertKey rfl chains inserted⟩

theorem Sized.tableAdded (sized : Sized s) :
    Sized { s with tables := s.tables ++ [.init HASH_TABLE_SIZE] } := by
  refine ⟨fun h member => ?_,sized.links,sized.usage⟩
  rcases List.mem_append.mp member with old | new
  · exact sized.tables h old
  · rw [List.mem_singleton.mp new]
    decide

theorem Release.sizes {m : FdMap} (release : Release env s m s') :
    s'.fdMappings = s.fdMappings ∧ s'.usageMap.entries = s.usageMap.entries := by
  cases release with
  | untracked => exact ⟨rfl,rfl⟩
  | kept supported used => exact ⟨rfl,decreaseEntries used⟩
  | simulated supported used => exact ⟨rfl,decreaseEntries used⟩
  | closed supported used => exact ⟨rfl,decreaseEntries used⟩

theorem sizedEdit (edit : Edit env ok s s') (sized : Sized s) : Sized s' := by
  cases edit with
  | logged | openFailed | probed | simmed | openNumber | seeked => exact sized.of rfl rfl rfl
  | placed origin parents put =>
    have first := sized.of origin.same.1 origin.links (congrArg _ origin.usage)
    exact (first.put put).1
  | tableAdded => exact sized.tableAdded
  | copied copies there live put => exact (sized.put put).1
  | linked inserted =>
    refine ⟨sized.tables,?_,sized.usage⟩
    have same := HashTable.insertEntries inserted
    exact same ▸ sized.links
  | closed table found live release deleted removed =>
    obtain ⟨links,usage⟩ := release.sizes
    exact sized.set table (HashTable.removeEntries removed) rfl links usage
  | closeFailed there live supported used => exact sized.of rfl rfl (decreaseEntries used)
  | aliased careful live stored valid table inserted used =>
    exact sized.set table (HashTable.insertEntries inserted) rfl rfl (increaseEntries used)

end Sized

section Hashable
variable {env : Env} {ok : Allowed} {s s' : State}

/-- The numbers of a state, all of which are hashed at some time, are accepted. -/
structure Hashable (s : State) : Prop extends Sized s where
  parent : 0 ≤ s.globalParentPid
  items : ∀ i ∈ s.items, 0 ≤ i.oldFd
  maps : ∀ a m, s.fdMaps.read a = some m → 0 ≤ m.myFd
  openFd : 0 ≤ s.openFd

theorem Hashable.of (hashable : Hashable s) (tables : s'.tables = s.tables)
    (links : s'.fdMappings = s.fdMappings) (usage : s'.usageMap = s.usageMap)
    (maps : s'.fdMaps = s.fdMaps) (parent : s'.globalParentPid = s.globalParentPid)
    (openFd : s'.openFd = s.openFd) : Hashable s' where
  toSized := hashable.toSized.of tables links (congrArg _ usage)
  parent := parent ▸ hashable.parent
  items := fun i member => hashable.items i (by rwa [State.items,tables] at member)
  maps := maps ▸ hashable.maps
  openFd := openFd ▸ hashable.openFd

def OpensValid (env : Env) : Prop :=
  ∀ log name flags mode, -1 ≤ (env.kernel log (.open name flags mode)).toInt32

theorem nonNegativeUp {n n' : Int32} (valid : 0 ≤ n) (up : countUp n = .ok n') : 0 ≤ n' := by
  have next := countUpInt up
  have low := Int32.le_iff_toInt_le.mp valid
  refine Int32.le_iff_toInt_le.mpr ?_
  simp only [Int32.toInt_zero] at low ⊢
  omega

theorem nonNegativeDown {n n' : Int32} (valid : 1 ≤ n) (down : countDown n = .ok n') :
    0 ≤ n' := by
  have next := countDownInt down
  have low := Int32.le_iff_toInt_le.mp valid
  refine Int32.le_iff_toInt_le.mpr ?_
  simp only [Int32.toInt_zero,Int32.toInt_one] at low ⊢
  omega

theorem nonNegativeAnswer {n : Int32} (low : -1 ≤ n) (other : n ≠ -1) : 0 ≤ n := by
  have bound := Int32.le_iff_toInt_le.mp low
  have apart : n.toInt ≠ (-1 : Int32).toInt := fun same => other (Int32.toInt_inj.mp same)
  have minus : (-1 : Int32).toInt = -1 := rfl
  refine Int32.le_iff_toInt_le.mpr ?_
  simp only [Int32.toInt_zero] at bound ⊢
  omega

def hashing : Allowed := { Allowed.any with keys := (0 ≤ ·), drawn := (0 ≤ ·) }

theorem Origin.valid (opens : OpensValid env) (hashable : Hashable s) {counted : Int32}
    {m : FdMap} (origin : Origin env hashing s counted m s') : 0 ≤ m.myFd := by
  cases origin with
  | replayed acts answered valid mine =>
    rw [mine]
    exact nonNegativeAnswer (answered ▸ opens _ _ _ _) valid
  | placeholder up mine => exact mine ▸ nonNegativeUp hashable.openFd up
  | socket down mine unsupported other drawn => exact drawn
  | pipe ended down unsupported other drawn => exact drawn

theorem Hashable.put {t : Nat} {k fd counted : Int32} {m : FdMap} (hashable : Hashable s)
    (put : Put s t k fd counted m s') (named : 0 ≤ fd) (mine : 0 ≤ m.myFd) : Hashable s' := by
  refine ⟨(hashable.toSized.put put).1,?_,?_,fun a m' live => ?_,?_⟩
  · cases put
    exact hashable.parent
  · intro i member
    rcases List.mem_cons.mp ((putItems put).mem_iff.mp member) with new | old
    · rw [new]
      exact named
    · exact hashable.items i old
  · rcases putMaps put live with same | old
    · rw [same]
      exact mine
    · exact hashable.maps a m' old
  · cases put
    exact hashable.openFd

theorem itemsEdit (edit : Edit env ok s s') (sized : Sized s) :
    ∀ i ∈ s'.items, i ∈ s.items ∨ 0 ≤ i.oldFd := by
  intro i member
  cases edit with
  | logged | openFailed | probed | simmed | openNumber | seeked | linked | closeFailed =>
    exact .inl member
  | placed origin parents put =>
    have first := sized.of origin.same.1 origin.links (congrArg _ origin.usage)
    cases List.mem_cons.mp ((putItems put).mem_iff.mp member) with
    | inl new => exact .inr (new ▸ (first.put put).2)
    | inr old => exact .inl (by rwa [State.items,origin.same.1] at old)
  | tableAdded => exact .inl (tableAddedItems s ▸ member)
  | copied copies there live put =>
    cases List.mem_cons.mp ((putItems put).mem_iff.mp member) with
    | inl new => exact .inr (new ▸ (sized.put put).2)
    | inr old => exact .inl old
  | closed table found live release deleted removed =>
    exact .inl ((removedItems table found removed).mem_iff.mp (List.mem_cons_of_mem _ member))
  | aliased careful live stored valid table inserted =>
    have chains := sized.tables _ (List.mem_of_getElem? table)
    have perm := flatMapSet table (HashTable.insertItems inserted)
    cases List.mem_cons.mp (perm.mem_iff.mp member) with
    | inl new => exact .inr (new ▸ HashTable.insertKey rfl chains inserted)
    | inr old => exact .inl old

theorem hashableEdit (opens : OpensValid env) (edit : Edit env hashing s s')
    (hashable : Hashable s) : Hashable s' where
  toSized := sizedEdit edit hashable.toSized
  parent := (settledEdit edit).1.parent ▸ hashable.parent
  items := fun i member => (itemsEdit edit hashable.toSized i member).elim (hashable.items i) id
  maps := by
    intro a m live
    rcases mapsEdit edit live with ⟨b,m₀,old,alike⟩ | ⟨counted,s₁,origin,_⟩
    · exact alike.mine ▸ hashable.maps b m₀ old
    · exact origin.valid opens hashable
  openFd := by
    rcases (settledEdit edit).2 with same | up
    · exact same ▸ hashable.openFd
    · exact nonNegativeUp hashable.openFd up

theorem hashableStop (opens : OpensValid env) (hashable : Hashable s) :
    ¬ Stop env hashing s (.fd .negativeKey) := by
  intro stop
  have safe := hashable.toSized
  cases stop with
  | asked asked refused =>
    rcases asked with key | rfl
    · exact safe.refused refused key
    · exact safe.refused refused hashable.parent
  | tracked live refused => exact safe.refused refused (hashable.maps _ _ live)
  | copied there refused => exact safe.refused refused (hashable.items _ there)
  | number origin mine refused =>
    exact safe.refused refused (mine ▸ origin.valid opens hashable)
  | parent there live failed =>
    rcases deleteParentError failed with missing | index
    · exact absurd missing (by simp)
    · exact absurd index (by simp)

end Hashable

section Keyed

instance {op : Op} : Decidable (Seeks op) :=
  match op with
  | .unlink _ | .mkdir _ | .rmdir _ | .access _ | .stat _ | .clone _ => .isFalse id
  | .open o => inferInstanceAs (Decidable (o.retval ≠ -1))
  | .dup o | .dup2 o | .dup3 o => inferInstanceAs (Decidable (o.retval ≠ -1))
  | .pipe o => inferInstanceAs (Decidable (o.retval ≠ -1))
  | .socket o => inferInstanceAs (Decidable (o.retval ≠ -1))
  | .write _ | .read _ | .pwrite _ | .pread _ | .close _ | .lseek _ | .llseek _
  | .sendfile _ => .isTrue trivial

def lookups (env : Env) (s : State) (op : Op) : Prop :=
  Seeks op → 0 ≤ op.info.pid ∧ ∀ t ∈ recordTable env s op.info.pid, ∀ fd ∈ wanted env s t op, 0 ≤ fd

def draws (s : State) : Op → Prop
  | .clone o => 0 ≤ o.retval ∧ ((tableOf s o.retval).isSome = false → 0 ≤ o.info.pid)
  | .pipe o => o.retval ≠ -1 → 2 ≤ s.pipeFd
  | .socket o => o.retval ≠ -1 → 1 ≤ s.socketFd
  | _ => True

def keyed (env : Env) (s : State) (op : Op) : Prop := lookups env s op ∧ draws s op

instance {s : State} {op : Op} : Decidable (draws s op) :=
  match op with
  | .clone _ => inferInstanceAs (Decidable (_ ∧ (_ → _)))
  | .pipe o => inferInstanceAs (Decidable (o.retval ≠ -1 → _))
  | .socket o => inferInstanceAs (Decidable (o.retval ≠ -1 → _))
  | .write _ | .read _ | .pwrite _ | .pread _ | .open _ | .close _ | .unlink _ | .lseek _
  | .llseek _ | .mkdir _ | .rmdir _ | .dup _ | .dup2 _ | .dup3 _ | .access _ | .stat _
  | .sendfile _ => .isTrue trivial

instance {env : Env} {s : State} {op : Op} : Decidable (lookups env s op) :=
  have (t : Nat) : Decidable (∀ fd ∈ wanted env s t op, 0 ≤ fd) := List.decidableBAll _ _
  inferInstanceAs (Decidable (_ → _ ∧ ∀ t ∈ recordTable env s op.info.pid,
    ∀ fd ∈ wanted env s t op, 0 ≤ fd))

instance {env : Env} {s : State} {op : Op} : Decidable (keyed env s op) :=
  inferInstanceAs (Decidable (_ ∧ _))

variable {env : Env} {pid : Int32} {s : State}

theorem keyedPermits {op : Op} (met : keyed env s op) : Permits env hashing s op where
  pipes := fun _ _ _ => ⟨trivial,trivial⟩
  clones := by
    intro o clone
    rw [clone] at met
    exact ⟨trivial,met.2.1,fun unknown => .inl (met.2.2 unknown),.inl trivial⟩
  dups := fun never => absurd trivial never
  fresh := fun never => absurd trivial never
  stamped := fun never => absurd trivial never
  asks := fun seeks => ⟨(met.1 seeks).1,trivial,.inl trivial⟩
  asked := fun seeks => (met.1 seeks).2
  pipeNumbers := by
    intro o pipe made n down
    rw [pipe] at met
    have left := Int32.le_iff_toInt_le.mp (met.2 made)
    have next := countDownInt down
    have two : (2 : Int32).toInt = 2 := rfl
    have enough : 1 ≤ n := by
      refine Int32.le_iff_toInt_le.mpr ?_
      simp only [Int32.toInt_one]
      omega
    exact ⟨nonNegativeDown (Int32.le_trans (by decide) (met.2 made)) down,
      fun n' => nonNegativeDown enough⟩
  socketNumbers := by
    intro o socket made n
    rw [socket] at met
    exact nonNegativeDown (met.2 made)

theorem Began.hashable (valid : 0 ≤ pid) (began : Began env pid s) : Hashable s := by
  obtain ⟨mappings,a,b,c,d,_,_,_,inserted,rfl,put₀,put₁,put₂,one,two,three,_,_,_,rfl⟩ := began.puts
  have first : Hashable (firstTable pid mappings) := by
    refine ⟨⟨fun h member => ?_,?_,(by decide : 0 < HASH_TABLE_SIZE)⟩,valid,?_,?_,
      (by decide : (0 : Int32) ≤ 1000 - 1)⟩
    · rw [List.mem_singleton.mp member]
      decide
    · have same := HashTable.insertEntries inserted
      exact same ▸ (by decide : 0 < HASH_TABLE_SIZE)
    · intro i member
      simp [firstTable,State.items,HashTable.itemsInit] at member
    · intro a m live
      simp [firstTable,State.start,Arena.read] at live
  have full := ((first.put put₀ (by decide) (by rw [one.mine]; decide)).put put₁ (by decide)
    (by rw [two.mine]; decide)).put put₂ (by decide) (by rw [three.mine]; decide)
  exact full.of rfl rfl rfl rfl rfl rfl

abbrev Begins {α : Type} (pid : Int32) (m : Replay α) (s : State) : Prop :=
  Steps (fun s t => 0 ≤ pid → Hashable s → Hashable t)
    (fun s f => f = .nullTable ∨ f = .fd .overflow ∨
      f = .fd .negativeKey ∧ (0 ≤ pid → ¬ Hashable s)) m s fun _ _ => True

theorem newItemBegins {t : Nat} {k fd counted : Int32} {name : CName} {s : State} (key : 0 ≤ k)
    (named : 0 ≤ fd) (number : 0 ≤ counted) :
    Begins pid (newItem t k fd counted (stdMap env fd name)) s := by
  have valid : fd ≠ -1 := fun same => absurd (same ▸ named) (by decide)
  rcases newItemRun t k counted (stdMapBare fd name) valid s with
    ⟨m,s',stored,put,ran⟩ | ⟨f,why,ran⟩
  · have mine := (insertParentAlike stored).mine
    exact Steps.ofOk ran (.single fun _ hashable => hashable.put put named (mine ▸ named)) trivial
  · refine Steps.ofError ran ?_
    cases why with
    | noTable => exact .inl rfl
    | overflow => exact .inr (.inl rfl)
    | key refused =>
      refine .inr (.inr ⟨rfl,fun _ hashable => ?_⟩)
      cases refused with
      | inl first => exact hashable.refused first key
      | inr second => exact hashable.refused second number

theorem linkBegins {ht : Option Nat} (s : State) : Begins pid (linkProcess pid ht) s := by
  refine Steps.getBind (Steps.bind (q := fun m t => t = s ∧
    s.fdMappings.insert htOpsFdMapping pid ⟨pid,ht⟩ = some m) ?_ ?_)
  · refine Steps.ofOption (fun m inserted => ⟨rfl,inserted⟩) fun none => ?_
    refine .inr (.inr ⟨rfl,fun valid hashable => ?_⟩)
    exact hashable.refused (.process (Option.map_eq_none_iff.mp none)) valid
  · intro mappings t both
    obtain ⟨rfl,inserted⟩ := both
    refine Steps.modify (fun _ hashable => ?_) trivial
    have same := HashTable.insertEntries inserted
    exact ⟨⟨hashable.tables,same ▸ hashable.links,hashable.usage⟩,hashable.parent,
      hashable.items,hashable.maps,hashable.openFd⟩

theorem callBegins (c : Call) (s : State) : Begins pid (call env c) s :=
  Steps.getBind (Steps.modifyBind (fun _ hashable => hashable.of rfl rfl rfl rfl rfl rfl)
    (Steps.pure trivial))

theorem initBegins (env : Env) (pid : Int32) (s : State) :
    Begins pid (replicateInit env pid) s := by
  rw [replicateInit]
  refine Steps.modifyBind (fun valid hashable => ?_) ?_
  · exact ⟨⟨hashable.tables,(by decide : 0 < HASH_TABLE_SIZE),(by decide : 0 < HASH_TABLE_SIZE)⟩,
      valid,hashable.items,hashable.maps,hashable.openFd⟩
  refine Steps.bind (q := fun _ _ => True) (Steps.getBind (Steps.modifyBind
    (fun _ hashable => ?_) (Steps.pure trivial))) fun t s _ => ?_
  · exact ⟨hashable.toSized.tableAdded,hashable.parent,
      fun i member => hashable.items i (tableAddedItems _ ▸ member),hashable.maps,
      hashable.openFd⟩
  refine Steps.bind (linkBegins s) fun _ s _ => ?_
  refine Steps.bind (newItemBegins (by decide) (by decide) (by decide)) fun _ s _ => ?_
  refine Steps.bind (newItemBegins (by decide) (by decide) (by decide)) fun _ s _ => ?_
  refine Steps.bind (newItemBegins (by decide) (by decide) (by decide)) fun _ s _ => ?_
  refine Steps.bind (callBegins _ s) fun devnull s _ => ?_
  refine Steps.modifyBind (fun _ hashable => hashable.of rfl rfl rfl rfl rfl rfl) ?_
  split
  · exact Steps.pure trivial
  · refine Steps.bind (callBegins _ _) fun devzero s _ => ?_
    exact Steps.modifyBind (fun _ hashable => hashable.of rfl rfl rfl rfl rfl rfl)
      (Steps.pure trivial)

theorem initStops {f : Fault} (ran : replicateInit env pid s = .error f) :
    f = .nullTable ∨ f = .fd .overflow ∨ f = .fd .negativeKey := by
  obtain ⟨_,_,why⟩ := (initBegins env pid s).errorElim ran
  exact why.imp_right (Or.imp_right And.left)

theorem startHashable : Hashable State.start where
  tables := fun h member => absurd member List.not_mem_nil
  links := (by decide : 0 < HASH_TABLE_SIZE)
  usage := (by decide : 0 < HASH_TABLE_SIZE)
  parent := (by decide : (0 : Int32) ≤ 0)
  items := fun i member => absurd member List.not_mem_nil
  maps := fun a m live => by simp [State.start,Arena.read] at live
  openFd := (by decide : (0 : Int32) ≤ 1000 - 1)

theorem initAccepted (valid : 0 ≤ pid) :
    replicateInit env pid State.start ≠ .error (.fd .negativeKey) := by
  refine (initBegins env pid State.start).never Hashable (fun _ _ kept => kept valid) ?_
    startHashable
  intro s hashable why
  rcases why with first | second | ⟨_,last⟩
  · exact absurd first (by simp)
  · exact absurd second (by simp)
  · exact last valid hashable

/-- In a replay each of whose records looks up and draws numbers that are not negative, no hash
table is given one that is. -/
theorem keysAccepted (opens : OpensValid env) {ops : List Op}
    (first : ∀ op ∈ ops.head?, 0 ≤ op.info.pid) (along : AlongAll env (keyed env) ops) :
    replicate env ops State.start ≠ .error (.fd .negativeKey) := by
  refine replicateNever (by simp) (fun op head => initAccepted (first op head)) ?_ along
  intro o head s op reached met
  have hashable : Hashable s := reached.keeps hashing Hashable
    (fun _ began => began.hashable (first o head)) (fun _ _ _ => keyedPermits)
    fun _ _ => hashableEdit opens
  exact (opRuns (keyedPermits met)).never Hashable (fun _ _ => hashableEdit opens)
    (fun _ => hashableStop opens) hashable

theorem simulatingValid : OpensValid simulating :=
  fun _ _ _ _ => (by decide : (-1 : Int32) ≤ 3)

theorem keysAcceptedFailures : replicate simulating [opened 7 "/f" 3,opened 7 "/g" (-1),
    .pipe ⟨4,5,0,0,blankInfo 7⟩,.socket ⟨6,blankInfo 7⟩,.socket ⟨-1,blankInfo 7⟩,
    .clone ⟨0,9,blankInfo 7⟩,duplicated 9 3 8,.read ⟨4,10,-1,blankInfo 9⟩,closed 9 3]
    State.start ≠ .error (.fd .negativeKey) :=
  keysAccepted simulatingValid (by decide) (.run (by decide +kernel))

def numbers : Op → List Int32
  | .write o => [o.fd]
  | .read o => [o.fd]
  | .pwrite o => [o.fd]
  | .pread o => [o.fd]
  | .open o => [o.retval]
  | .close o => [o.fd,o.retval]
  | .lseek o => [o.fd]
  | .llseek o => [o.fd]
  | .clone o => [o.retval]
  | .dup o | .dup2 o | .dup3 o => [o.oldFd,o.newFd,o.retval]
  | .pipe o => [o.fd1,o.fd2,o.retval]
  | .socket o => [o.retval]
  | .sendfile o => [o.outFd,o.inFd]
  | .unlink _ | .mkdir _ | .rmdir _ | .access _ | .stat _ => []

def recorded (op : Op) : Prop := 0 ≤ op.info.pid ∧ ∀ n ∈ numbers op, -1 ≤ n

theorem failedCloseHashed : ¬ ∀ env ops, OpensValid env → (∀ op ∈ ops, recorded op) →
    replicate env ops State.start ≠ .error (.fd .negativeKey) := by
  intro all
  have stops : failsWith simulating [.close ⟨-1,-1,blankInfo 7⟩] (.fd .negativeKey) = true := by
    decide +kernel
  refine all simulating _ simulatingValid ?_ (failsWithError stops)
  intro op member
  cases List.mem_singleton.mp member
  exact ⟨by decide,by simp [numbers]⟩

end Keyed
end IoApps
