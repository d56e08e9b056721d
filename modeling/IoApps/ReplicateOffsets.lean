import IoApps.ReplicateIsolation

/-! Where a transfer begins after a fork. The child has an fd_map of its own for every file it
inherits, with the position of that moment; from then on each process moves only its own. -/
namespace IoApps
open Lib (Arena Prog)

section Filing
variable {env : Env} {ok : Allowed} {s s' : State}

def Filed (h : HashTable FdItem) : Prop :=
  ∀ c i, c < h.entries → i ∈ h.entry c → i.oldFd = 0 ∨ h.chain htOpsFdItem i.oldFd = some c

def AllFiled (s : State) : Prop := ∀ h ∈ s.tables, Filed h

theorem Filed.walks {h : HashTable FdItem} {fd : Int32} {i : FdItem} (filed : Filed h)
    (found : h.find htOpsFdItem fd = some (some i)) :
    h.items.find? (htOpsFdItem.compare fd) = some i := by
  obtain ⟨c,hashed,first⟩ := HashTable.findSome found
  refine HashTable.findItems (HashTable.chainInside hashed) first ?_
  intro d before j member same
  have mine : j.oldFd = fd := by simpa [htOpsFdItem] using same
  have inside := Nat.lt_trans before (HashTable.chainInside hashed)
  rcases filed d j inside member with zero | placed
  · rw [mine] at zero
    subst zero
    have lowest : h.chain htOpsFdItem 0 = some 0 := by
      simp [HashTable.chain,htOpsFdItem,htHashInt,Nat.lt_of_le_of_lt (Nat.zero_le d) inside]
    cases Option.some.inj (hashed.symm.trans lowest)
    exact absurd before (Nat.not_lt_zero d)
  · rw [mine,hashed] at placed
    cases Option.some.inj placed
    exact absurd before (Nat.lt_irrefl _)

theorem Filed.init (n : Nat) : Filed (.init n) :=
  fun _ _ _ member => absurd member List.not_mem_nil

theorem Filed.insert {h h' : HashTable FdItem} {k : Int32} {i : FdItem} (filed : Filed h)
    (named : i.oldFd = 0 ∨ i.oldFd = k) (inserted : h.insert htOpsFdItem k i = some h') :
    Filed h' := by
  obtain ⟨d,hashed,rfl⟩ := Option.map_eq_some_iff.mp inserted
  intro c j inside member
  by_cases here : c = d
  · subst here
    simp only [HashTable.append,Function.update_self] at member
    rcases List.mem_append.mp member with old | new
    · exact filed c j inside old
    · cases List.mem_singleton.mp new
      exact named.imp id fun same => by rw [same]; exact hashed
  · simp only [HashTable.append,Function.update_of_ne here] at member
    exact filed c j inside member

theorem Filed.remove {h h' : HashTable FdItem} {k : Int32} (filed : Filed h)
    (removed : h.remove htOpsFdItem k = some h') : Filed h' := by
  obtain ⟨d,_,rfl⟩ := Option.map_eq_some_iff.mp removed
  intro c j inside member
  by_cases here : c = d
  · subst here
    simp only [Function.update_self] at member
    exact filed c j inside (List.mem_of_mem_eraseP member)
  · simp only [Function.update_of_ne here] at member
    exact filed c j inside member

theorem AllFiled.set {t : Nat} {h' : HashTable FdItem} (filed : AllFiled s)
    (tables : s'.tables = s.tables.set t h') (new : Filed h') : AllFiled s' := by
  intro g member
  rw [tables] at member
  cases List.mem_or_eq_of_mem_set member with
  | inl old => exact filed g old
  | inr same => exact same ▸ new

theorem AllFiled.put {t : Nat} {k fd counted : Int32} {m : FdMap} (filed : AllFiled s)
    (named : fd = 0 ∨ fd = k) (put : Put s t k fd counted m s') : AllFiled s' := by
  obtain ⟨table,inserted,_⟩ := put
  exact filed.set rfl ((filed _ (List.mem_of_getElem? table)).insert named inserted)

theorem filedEdit (edit : Edit env ok s s') (filed : AllFiled s) : AllFiled s' := by
  cases edit with
  | logged | openFailed | probed | simmed | openNumber | seeked | linked | closeFailed =>
    exact filed
  | placed origin parents put =>
    have before : AllFiled _ := fun h member => filed h (origin.same.1 ▸ member)
    exact before.put (.inr rfl) put
  | tableAdded =>
    intro h member
    rcases List.mem_append.mp member with old | new
    · exact filed h old
    · exact List.mem_singleton.mp new ▸ .init _
  | copied copies there live put => exact filed.put (.inr rfl) put
  | closed table found live release deleted removed =>
    exact filed.set rfl ((filed _ (List.mem_of_getElem? table)).remove removed)
  | aliased careful live stored valid table inserted =>
    exact filed.set rfl ((filed _ (List.mem_of_getElem? table)).insert (.inr rfl) inserted)

theorem Began.filed {pid : Int32} (began : Began env pid s) : AllFiled s := by
  obtain ⟨mappings,_,b,c,d,_,_,_,_,rfl,put₀,put₁,put₂,_,_,_,_,_,_,rfl⟩ := began.puts
  have empty : AllFiled (firstTable pid mappings) :=
    fun h member => List.mem_singleton.mp member ▸ .init _
  have full : AllFiled d := ((empty.put (.inl rfl) put₀).put (.inr rfl) put₁).put (.inr rfl) put₂
  exact full

theorem reachedFiled {meets : State → Op → Prop} {pid : Int32}
    (reached : Reached env meets pid s) : AllFiled s :=
  reached.keeps .any AllFiled (fun _ began => began.filed) (fun s op _ _ => anyPermits env s op)
    fun _ _ => filedEdit

theorem emptyFinds {h : HashTable FdItem} {fd : Int32} {i : FdItem}
    (found : h.find htOpsFdItem fd = some (some i)) :
    (HashTable.init HASH_TABLE_SIZE : HashTable FdItem).find htOpsFdItem fd = some none := by
  obtain ⟨d,hashed,_⟩ := HashTable.findSome found
  have chains : 0 < h.entries := Nat.lt_of_le_of_lt (Nat.zero_le d) (HashTable.chainInside hashed)
  have valid := (HashTable.chainKey htOpsFdItem rfl chains).mp (by rw [hashed]; rfl)
  have taken := (HashTable.chainKey htOpsFdItem rfl
    (show 0 < (HashTable.init HASH_TABLE_SIZE : HashTable FdItem).entries by decide)).mpr valid
  obtain ⟨e,empty⟩ := Option.isSome_iff_exists.mp taken
  rw [HashTable.find,empty]
  rfl

end Filing
section Copying
variable {env : Env} {s s' : State}

def mapOf (s : State) (pid fd : Int32) : Option FdMap := do
  let t ← tableOf s pid
  let h ← s.tables[t]?
  let item ← (h.find htOpsFdItem fd).join
  s.fdMaps.read item.fdMap

def positionOf (s : State) (pid fd : Int32) : Option UInt64 := (mapOf s pid fd).map FdMap.curPos

theorem mapOfSome {pid fd : Int32} {m : FdMap} : mapOf s pid fd = some m ↔
    ∃ t item, tableOf s pid = some t ∧ Found s t fd item ∧
      s.fdMaps.read item.fdMap = some m := by
  simp only [mapOf,Option.bind_eq_bind,Option.bind_eq_some_iff,Option.join_eq_some_iff]
  constructor
  · intro ⟨t,mine,h,table,item,first,live⟩
    exact ⟨t,item,mine,⟨h,table,first⟩,live⟩
  · intro ⟨t,item,mine,⟨h,table,first⟩,live⟩
    exact ⟨t,mine,h,table,item,first,live⟩

/-- A table that has got copies: what could be found in it still can, and of each descriptor it
had no item for, the first item. -/
structure Copies (items : List FdItem) (t : Nat) (g g' : HashTable FdItem) (s s' : State) :
    Prop where
  tables : s'.tables = s.tables.set t g'
  links : s'.fdMappings = s.fdMappings
  maps : ∀ a m, s.fdMaps.read a = some m → s'.fdMaps.read a = some m
  kept : ∀ fd j, g.find htOpsFdItem fd = some (some j) → g'.find htOpsFdItem fd = some (some j)
  copied : ∀ fd i m, g.find htOpsFdItem fd = some none →
    items.find? (htOpsFdItem.compare fd) = some i → s.fdMaps.read i.fdMap = some m →
    ∃ j, g'.find htOpsFdItem fd = some (some j) ∧ s'.fdMaps.read j.fdMap = some m

theorem setSame {α : Type} {l : List α} {t : Nat} {x : α} (there : l[t]? = some x) :
    l.set t x = l := by
  refine List.ext_getElem? fun j => ?_
  by_cases here : t = j
  · subst here
    rw [List.getElem?_set_self (List.getElem?_eq_some_iff.mp there).1,there]
  · rw [List.getElem?_set_ne here]

theorem copyItemsCopies {t : Nat} (items : List FdItem) {g : HashTable FdItem} {s s' : State}
    (table : s.tables[t]? = some g) (ran : copyItems t items s = .ok ((),s')) :
    ∃ g', Copies items t g g' s s' := by
  induction items generalizing s g with
  | nil =>
    cases ran
    refine ⟨g,(setSame table).symm,rfl,fun _ _ live => live,fun _ _ found => found,?_⟩
    exact fun fd i m _ none => absurd none (by simp)
  | cons item rest ih =>
    obtain ⟨m,s₀,read,ran⟩ := Prog.bindOk.mp ran
    obtain ⟨_,s₁,one,ran⟩ := Prog.bindOk.mp ran
    have live : s₀ = s ∧ s.fdMaps.read item.fdMap = some m := by
      rw [readMap,Prog.bindOf (Prog.getRun _)] at read
      cases there : s.fdMaps.read item.fdMap with
      | none =>
        rw [there] at read
        exact absurd read (by simp)
      | some n =>
        rw [there] at read
        cases read
        exact ⟨rfl,rfl⟩
    obtain ⟨rfl,live⟩ := live
    rcases putItemRun t item.oldFd item.oldFd m.myFd m s₀ with ⟨s₂,put,done⟩ | ⟨f,_,stops⟩
    · cases one.symm.trans done
      have kept := (putKept put).maps
      obtain @⟨h,h',usage,there,inserted,used⟩ := put
      cases Option.some.inj (table.symm.trans there)
      have inside := (List.getElem?_eq_some_iff.mp table).1
      obtain ⟨g',copies⟩ := ih (List.getElem?_set_self inside) ran
      refine ⟨g',?_,copies.links,?_,?_,?_⟩
      · rw [copies.tables]
        exact List.set_set ..
      · exact fun a n old => copies.maps a n (kept a n old)
      · exact fun fd j found => copies.kept fd j (HashTable.findKept found inserted)
      · intro fd i n absent first old
        by_cases here : htOpsFdItem.compare fd item = true
        · have same : item.oldFd = fd := by simpa [htOpsFdItem] using here
          rw [List.find?_cons_of_pos here] at first
          cases Option.some.inj first
          subst same
          have found := HashTable.findInsert (by simp [htOpsFdItem]) inserted
          rw [absent] at found
          refine ⟨_,copies.kept _ _ found,copies.maps _ _ ?_⟩
          rw [← Option.some.inj (live.symm.trans old)]
          exact Arena.readAlloc _ _
        · rw [List.find?_cons_of_neg here] at first
          refine copies.copied fd i n ?_ first (kept _ _ old)
          rw [HashTable.findInsertOther (by simpa [htOpsFdItem] using here) inserted,absent]
    · exact absurd (one.symm.trans stops) (by simp)

theorem noTableRun {pid : Int32} {r : Option Nat} (tableless : tableOf s pid = none)
    (ran : getProcessHt pid s = .ok (r,s')) : r = none ∧ s' = s := by
  rw [getProcessHtRun] at ran
  unfold tableOf at tableless
  cases found : s.fdMappings.find htOpsFdMapping pid with
  | none =>
    rw [found] at ran
    exact absurd ran (by simp)
  | some item =>
    rw [found] at ran tableless
    cases ran
    exact ⟨tableless,rfl⟩

theorem cloneCopies {c : CloneOp} {fd : Int32} {m : FdMap} (filed : AllFiled s)
    (opened : mapOf s c.info.pid fd = some m) (made : tableOf s c.retval = none)
    (copying : c.mode &&& CLONE_FILES = 0) (ran : replicateOp env (.clone c) s = .ok ((),s')) :
    mapOf s' c.info.pid fd = some m ∧ (Unknown s c.retval → mapOf s' c.retval fd = some m) := by
  obtain ⟨t,item,mine,found,live⟩ := mapOfSome.mp opened
  have still := opKeeps ran mine
  obtain ⟨h,table,first⟩ := found.held
  have inside := (List.getElem?_eq_some_iff.mp table).1
  simp only [replicateOp,replicateClone] at ran
  obtain ⟨r,s₀,known,rest⟩ := Prog.bindOk.mp ran
  obtain ⟨rfl,rfl⟩ := noTableRun made known
  simp only [Option.isSome_none,Bool.false_eq_true,if_false,copying,ne_eq,not_true] at rest
  rw [Prog.bindOf (getProcessHtTable mine)] at rest
  obtain ⟨u,s₁,copied,linked⟩ := Prog.bindOk.mp rest
  obtain ⟨mappings,inserted,rfl⟩ := linkFirst linked
  simp only [duplicateProcessHt,newTable] at copied
  rw [Prog.bindOf (a := h) (t := s₀) (by simp [readTable,Prog.bindRun,table])] at copied
  rw [Prog.bindOf (a := s₀.tables.length)
    (t := { s₀ with tables := s₀.tables ++ [.init HASH_TABLE_SIZE] }) rfl] at copied
  obtain ⟨_,s₂,filled,done⟩ := Prog.bindOk.mp copied
  cases done
  obtain ⟨g,copies⟩ := copyItemsCopies (g := .init HASH_TABLE_SIZE) h.items (by simp) filled
  refine ⟨mapOfSome.mpr ⟨t,item,still,⟨h,?_,first⟩,copies.maps _ _ live⟩,fun unknown => ?_⟩
  · show s₁.tables[t]? = some h
    rw [copies.tables,List.getElem?_set_ne (by omega)]
    exact (List.getElem?_append_left inside).trans table
  · have absent := emptyFinds first
    obtain ⟨j,there,same⟩ := copies.copied fd item m absent
      ((filed h (List.mem_of_getElem? table)).walks first) live
    refine mapOfSome.mpr ⟨_,j,linkTable ?_ inserted,⟨g,?_,there⟩,same⟩
    · unfold Unknown
      rw [copies.links]
      exact unknown
    · show s₁.tables[s₀.tables.length]? = some g
      rw [copies.tables,List.getElem?_set_self (by simp)]

end Copying
section Moving
variable {env : Env} {s s' : State}

def Op.move (fd : Int32) : Op → Option (UInt64 → UInt64)
  | .read o => if o.fd = fd ∧ o.retval ≠ -1 then some (· + o.retval.toUInt64) else none
  | .write o => if o.fd = fd ∧ o.retval ≠ -1 then some (· + o.retval.toUInt64) else none
  | .lseek o => if o.fd = fd ∧ o.retval ≠ -1 then some fun _ => o.retval.toUInt64 else none
  | .llseek o => if o.fd = fd ∧ o.retval ≠ -1 then some fun _ => o.fOffset.toUInt64 else none
  | _ => none

def movedBy (pid fd : Int32) : List Op → UInt64 → UInt64
  | [],pos => pos
  | op :: rest,pos =>
    movedBy pid fd rest (if op.info.pid = pid then (op.move fd).elim pos (· pos) else pos)

theorem getFdMapKnown {t : Nat} {fd : Int32} {item : FdItem} (found : Found s t fd item)
    (info : OpInfo) : replicateGetFdMap env t fd info s = .ok (some item,s) := by
  obtain ⟨h,table,first⟩ := found.held
  have search : findItem t fd s = .ok (some item,s) := by
    simp [findItem,readTable,Prog.bindRun,table,key,first]
  rw [replicateGetFdMap,Prog.bindOf search]
  rfl

theorem withItemKnown {pid fd : Int32} {info : OpInfo} {act : Nat → FdItem → Replay Unit}
    {t : Nat} {item : FdItem} (mine : tableOf s pid = some t) (found : Found s t fd item) :
    withItem env pid fd info act s = act t item s := by
  rw [withItem,Prog.bindOf (processHtKnown mine)]
  dsimp only
  rw [Prog.bindOf (getFdMapKnown found info)]

theorem readMapLive {a : Nat} {m : FdMap} (live : s.fdMaps.read a = some m) :
    readMap a s = .ok (m,s) := by
  simp [readMap,Prog.bindRun,live]

structure Moved (s : State) (a : Nat) (m : FdMap) (s' : State) : Prop where
  tables : s'.tables = s.tables
  links : s'.fdMappings = s.fdMappings
  maps : s'.fdMaps = s.fdMaps.write a m

variable {fd : Int32} {info : OpInfo} {t : Nat} {item : FdItem} {m : FdMap}

theorem transferMoves {recorded : Int64} {simulate : FdMap → SimProg Unit} {replay : Int32 → Call}
    (simulates : env.actSimulate = true) (mine : tableOf s info.pid = some t)
    (found : Found s t fd item) (live : s.fdMaps.read item.fdMap = some m)
    (supported : supportedType m.type = true) (succeeded : recorded ≠ -1)
    (ran : replicateTransfer env fd info recorded true simulate replay s = .ok ((),s')) :
    Moved s item.fdMap { m with curPos := m.curPos + recorded.toUInt64 } s' := by
  rw [replicateTransfer,withItemKnown mine found,Prog.bindOf (readMapLive live)] at ran
  simp only [supported,if_true,transferResult,simulates,succeeded,ne_eq,not_false_eq_true] at ran
  obtain ⟨r,mid,result,written⟩ := Prog.bindOk.mp ran
  obtain ⟨_,simmed,simulated,done⟩ := Prog.bindOk.mp result
  cases done
  cases written
  have same : ∃ sim, mid = { s with sim := sim } := by
    unfold onSim at simulated
    split at simulated
    · cases simulated
      exact ⟨_,rfl⟩
    · exact absurd simulated (by simp)
  obtain ⟨sim,rfl⟩ := same
  exact ⟨rfl,rfl,rfl⟩

theorem seekMoves {recorded : Int64} {seek : Int32 → Call} {pos : Int64 → Int64}
    (simulates : env.actSimulate = true) (acts : env.actReplicate = false)
    (mine : tableOf s info.pid = some t) (found : Found s t fd item)
    (live : s.fdMaps.read item.fdMap = some m) (supported : supportedType m.type = true)
    (ran : replicateSeek env fd info recorded seek pos s = .ok ((),s')) :
    Moved s item.fdMap { m with curPos := (pos recorded).toUInt64 } s' := by
  rw [replicateSeek,withItemKnown mine found,Prog.bindOf (readMapLive live)] at ran
  simp only [supported,if_true,seekResult,acts,Bool.false_eq_true,if_false] at ran
  rw [Prog.bindOf (Prog.pureRun _ _)] at ran
  simp only [ne_eq,not_true,and_false,if_false,simulates,if_true] at ran
  cases ran
  exact ⟨rfl,rfl,rfl⟩

theorem opMoves {op : Op} {f : UInt64 → UInt64} (simulates : env.actSimulate = true)
    (acts : env.actReplicate = false) (move : op.move fd = some f)
    (mine : tableOf s op.info.pid = some t) (found : Found s t fd item)
    (live : s.fdMaps.read item.fdMap = some m) (supported : supportedType m.type = true)
    (ran : replicateOp env op s = .ok ((),s')) :
    Moved s item.fdMap { m with curPos := f m.curPos } s' := by
  cases op with
  | read o | write o =>
    simp only [Op.move,Option.ite_none_right_eq_some,Option.some.injEq] at move
    obtain ⟨⟨rfl,succeeded⟩,rfl⟩ := move
    simp only [replicateOp,replicateRead,replicateWrite] at ran
    exact transferMoves simulates mine found live supported succeeded ran
  | lseek o | llseek o =>
    simp only [Op.move,Option.ite_none_right_eq_some,Option.some.injEq] at move
    obtain ⟨⟨rfl,_⟩,rfl⟩ := move
    simp only [replicateOp,replicateLseek,replicateLlseek] at ran
    exact seekMoves simulates acts mine found live supported ran
  | pread | pwrite | «open» | close | unlink | clone | mkdir | rmdir | dup | dup2 | dup3 | pipe
  | access | stat | socket | sendfile => exact absurd move (by simp [Op.move])

theorem Moved.mapOf {pid : Int32} {n : FdMap} (moved : Moved s item.fdMap n s')
    (mine : tableOf s pid = some t) (found : Found s t fd item)
    (live : s.fdMaps.read item.fdMap = some m) : mapOf s' pid fd = some n := by
  refine mapOfSome.mpr ⟨t,item,?_,⟨?_⟩,?_⟩
  · unfold tableOf
    rw [moved.links]
    exact mine
  · rw [moved.tables]
    exact found.held
  · rw [moved.maps]
    exact Arena.readWrite _ live

end Moving
section Positions
variable {env : Env} {pid : Int32} {s s' : State}

def placeOf (s : State) (pid fd : Int32) : Option (FileType × UInt64) :=
  (mapOf s pid fd).map fun m => (m.type,m.curPos)

theorem placePosition {fd : Int32} {type : FileType} {pos : UInt64}
    (place : placeOf s pid fd = some (type,pos)) : positionOf s pid fd = some pos := by
  obtain ⟨m,mine,same⟩ := Option.map_eq_some_iff.mp place
  rw [positionOf,mine]
  exact congrArg (some ∘ Prod.snd) same

/-- What happens to a descriptor that two processes have: one of them transfers or seeks with
success, or a record neither closes it, nor duplicates onto it, nor moves either position. -/
def Paired (env : Env) (p q fd : Int32) (s : State) (op : Op) : Prop :=
  ((op.info.pid = p ∨ op.info.pid = q) ∧ (op.move fd).isSome = true) ∨
    ∀ t, replicateOp env op s = .ok ((),t) →
      placeOf t p fd = placeOf s p fd ∧ placeOf t q fd = placeOf s q fd

theorem Framed.mapOf {x : Nat} {fd : Int32} (framed : Framed x s s')
    (before : tableOf s pid = some x) (behind : tableOf s' pid = some x) :
    mapOf s' pid fd = mapOf s pid fd := by
  unfold IoApps.mapOf
  rw [before,behind]
  simp only [Option.bind_eq_bind,Option.bind_some,framed.table]
  cases table : s.tables[x]? with
  | none => rfl
  | some h =>
    cases found : (h.find htOpsFdItem fd).join with
    | none => simp [found]
    | some item =>
      have member := (HashTable.findMem (Option.join_eq_some_iff.mp found)).1
      simp [found,framed.maps h table item member]

variable {a b fd : Int32} {x : Nat}

theorem ownStep {op : Op} {pos : UInt64} (simulates : env.actSimulate = true)
    (acts : env.actReplicate = false) (tidy : Tidy s) (table : tableOf s a = some x)
    (barred : Barred s b x) (place : placeOf s a fd = some (.reg,pos))
    (met : ((op.info.pid = a ∨ op.info.pid = b) ∧ (op.move fd).isSome = true) ∨
      placeOf s' a fd = placeOf s a fd)
    (ran : replicateOp env op s = .ok ((),s')) : placeOf s' a fd =
      some (.reg,if op.info.pid = a then (op.move fd).elim pos (· pos) else pos) := by
  by_cases mine : op.info.pid = a
  · rw [if_pos mine]
    cases move : op.move fd with
    | some f =>
      obtain ⟨m,first,same⟩ := Option.map_eq_some_iff.mp place
      obtain ⟨t,item,own,found,live⟩ := mapOfSome.mp first
      obtain ⟨type,rfl⟩ := Prod.mk.inj same
      have supported : supportedType m.type = true := by
        rw [type]
        rfl
      have moved := opMoves simulates acts move (mine.symm ▸ own) found live supported ran
      unfold placeOf
      rw [moved.mapOf own found live,← type]
      rfl
    | none =>
      rw [move] at met
      rw [met.resolve_left (by simp),place]
      rfl
  · rw [if_neg mine,← place]
    rcases met with ⟨which,moves⟩ | same
    · have noClone : ∀ o, op ≠ .clone o := by
        intro o clone
        rw [clone] at moves
        exact absurd moves (by simp [Op.move])
      have framed := (opFramed tidy barred (which.resolve_left mine) noClone ran).1
      unfold placeOf
      rw [framed.mapOf table (opKeeps ran table)]
    · exact same

/-- The run lemma: every process ends where its own records lead. -/
theorem ownRun {meets : State → Op → Prop} {ops : List Op} {pos : UInt64}
    (simulates : env.actSimulate = true) (acts : env.actReplicate = false) (tidy : Tidy s)
    (table : tableOf s a = some x) (barred : Barred s b x)
    (place : placeOf s a fd = some (.reg,pos))
    (mets : ∀ u op t, meets u op → replicateOp env op u = .ok ((),t) →
      ((op.info.pid = a ∨ op.info.pid = b) ∧ (op.move fd).isSome = true) ∨
        placeOf t a fd = placeOf u a fd)
    (along : Along env meets ops s) (ran : after env ops s = some s') :
    placeOf s' a fd = some (.reg,movedBy a fd ops pos) := by
  induction ops generalizing s pos with
  | nil =>
    cases ran
    exact place
  | cons op rest ih =>
    obtain ⟨met,later⟩ := along
    rw [afterCons] at ran
    obtain ⟨mid,first,last⟩ := Option.bind_eq_some_iff.mp ran
    have one := afterOne first
    exact ih (opTidy tidy one) (opKeeps one table) (barredOp barred one)
      (ownStep simulates acts tidy table barred place (mets s op mid met one) one)
      (later mid one) last

theorem Barred.never (barred : ∀ x, Barred s pid x) : tableOf s pid = none := by
  cases table : tableOf s pid with
  | none => rfl
  | some t => exact absurd rfl ((barred t).other table)

theorem barredRun {ops : List Op} (barred : Barred s pid x) (ran : after env ops s = some s') :
    Barred s' pid x := by
  induction ops generalizing s with
  | nil =>
    cases ran
    exact barred
  | cons op rest ih =>
    rw [afterCons] at ran
    obtain ⟨mid,first,last⟩ := Option.bind_eq_some_iff.mp ran
    exact ih (barredOp barred (afterOne first)) last

/-- After a copying clone the two processes are at one position exactly when their own records
lead each of them there, and the child had no entry in the process list before. -/
theorem offsetsAgree {s₁ s₂ : State} {c : CloneOp} {fd : Int32} {m : FdMap} {ops : List Op}
    (simulates : env.actSimulate = true) (acts : env.actReplicate = false)
    (reached : Reached env anyOp pid s) (opened : mapOf s c.info.pid fd = some m)
    (regular : m.type = .reg) (made : tableOf s c.retval = none)
    (copies : c.mode &&& CLONE_FILES = 0)
    (cloned : replicateOp env (.clone c) s = .ok ((),s₁))
    (along : Along env (Paired env c.info.pid c.retval fd) ops s₁)
    (ran : after env ops s₁ = some s₂) :
    positionOf s₂ c.info.pid fd = positionOf s₂ c.retval fd ↔ Unknown s c.retval ∧
      movedBy c.info.pid fd ops m.curPos = movedBy c.retval fd ops m.curPos := by
  obtain ⟨t,_,mine,_⟩ := mapOfSome.mp opened
  have tidy := opTidy (reachedTidy reached) cloned
  have barred := clonedBarred mine made copies cloned
  obtain ⟨parent,child⟩ := cloneCopies (reachedFiled reached) opened made copies cloned
  have place {p : Int32} (same : mapOf s₁ p fd = some m) :
      placeOf s₁ p fd = some (.reg,m.curPos) := by
    rw [placeOf,same,← regular]
    rfl
  have own := ownRun simulates acts tidy (opKeeps cloned mine) barred (place parent)
    (fun u op t met one => met.imp id fun aside => (aside t one).1) along ran
  rw [placePosition own]
  by_cases unknown : Unknown s c.retval
  · obtain ⟨u,_,table,_⟩ := mapOfSome.mp (child unknown)
    have other := barred.other table
    have inherited := ownRun simulates acts tidy table
      (barredTable (opKeeps cloned mine) other) (place (child unknown))
      (fun u op t met one => met.imp (fun both => ⟨both.1.symm,both.2⟩)
        fun aside => (aside t one).2) along ran
    rw [placePosition inherited]
    simp [unknown]
  · obtain ⟨found,entry⟩ := clonedKey cloned
    cases found with
    | none => exact absurd entry unknown
    | some item =>
      have never (x : Nat) := barredRun (barredOp (tablelessBarred entry made x) cloned) ran
      simp [unknown,positionOf,mapOf,Barred.never never]

def wrote (pid fd : Int32) (n : Int64) : Op := .write ⟨fd,n,n,blankInfo pid⟩

def sought (pid fd : Int32) (n : Int64) : Op := .lseek ⟨fd,0,n,n,blankInfo pid⟩

structure ForkedRun (ops : List Op) (s s₁ s₂ : State) : Prop where
  reached : Reached simulating anyOp 7 s
  opened : ∃ m, mapOf s 7 3 = some m ∧ m.type = .reg
  unknown : Unknown s 8
  cloned : replicateOp simulating (.clone ⟨0,8,blankInfo 7⟩) s = .ok ((),s₁)
  ran : after simulating ops s₁ = some s₂

def forkedRun (ops : List Op) : Option (State × State × State) := do
  let s₀ ← initialised simulating 7
  let s ← runOps simulating anyOp [opened 7 "/f" 3] s₀
  let s₁ ← after simulating [.clone ⟨0,8,blankInfo 7⟩] s
  let s₂ ← after simulating ops s₁
  some (s,s₁,s₂)

def atFork (s : State) : Bool := (mapOf s 7 3).any (fun m => m.type = .reg) &&
  s.fdMappings.find htOpsFdMapping 8 = some none

theorem forkedRunOf (ops : List Op) (ends : State → Bool)
    (made : (forkedRun ops).any (fun r => atFork r.1 && ends r.2.2) = true) :
    ∃ s s₁ s₂, ForkedRun ops s s₁ s₂ ∧ ends s₂ = true := by
  obtain ⟨r,made,checked⟩ := (Option.any_eq_true _ _).mp made
  simp only [forkedRun,Option.bind_eq_bind,Option.bind_eq_some_iff,Option.some.injEq] at made
  obtain ⟨s₀,began,s,first,s₁,cloned,s₂,ran,rfl⟩ := made
  simp only [atFork,Bool.and_eq_true,decide_eq_true_eq] at checked
  obtain ⟨⟨file,unknown⟩,last⟩ := checked
  obtain ⟨m,opened,regular⟩ := (Option.any_eq_true _ _).mp file
  exact ⟨s,s₁,s₂,⟨.ops (.init began) first,⟨m,opened,of_decide_eq_true regular⟩,unknown,
    afterOne cloned,ran⟩,last⟩

def takingTurns : List Op := [wrote 7 3 5,wrote 8 3 2,sought 8 3 9,wrote 7 3 1,sought 7 3 9]

theorem offsetsAgreeTurns : ∃ s₁ s₂, after simulating takingTurns s₁ = some s₂ ∧
    positionOf s₂ 7 3 = positionOf s₂ 8 3 ∧ positionOf s₂ 7 3 = some 9 := by
  obtain ⟨s,s₁,s₂,run,last⟩ := forkedRunOf takingTurns
    (fun s => positionOf s 7 3 = some 9) (by decide +kernel)
  obtain ⟨m,opened,regular⟩ := run.opened
  have along : Along simulating (Paired simulating 7 8 3) takingTurns s₁ := by
    simp [takingTurns,Along,Paired,wrote,sought,Op.move,Op.info,blankInfo]
  have moved (pos : UInt64) : movedBy 7 3 takingTurns pos = movedBy 8 3 takingTurns pos := by
    simp [takingTurns,movedBy,wrote,sought,Op.move,Op.info,blankInfo]
  exact ⟨s₁,s₂,run.ran,(offsetsAgree (c := ⟨0,8,blankInfo 7⟩) rfl rfl run.reached opened regular
    run.unknown.noTable (by decide) run.cloned along run.ran).mpr ⟨run.unknown,moved _⟩,
    of_decide_eq_true last⟩

theorem forkedPositions : ¬ ∀ env pid s s₁ s₂ c fd m ops, env.actSimulate = true →
    env.actReplicate = false → Reached env anyOp pid s → mapOf s c.info.pid fd = some m →
    m.type = .reg → Unknown s c.retval → c.mode &&& CLONE_FILES = 0 →
    replicateOp env (.clone c) s = .ok ((),s₁) →
    (∀ op ∈ ops, (op.info.pid = c.info.pid ∨ op.info.pid = c.retval) ∧
      (op.move fd).isSome = true) →
    after env ops s₁ = some s₂ → positionOf s₂ c.info.pid fd = positionOf s₂ c.retval fd := by
  intro all
  obtain ⟨s,s₁,s₂,run,last⟩ := forkedRunOf [wrote 7 3 5]
    (fun s => positionOf s 7 3 ≠ positionOf s 8 3) (by decide +kernel)
  obtain ⟨m,opened,regular⟩ := run.opened
  exact of_decide_eq_true last (all simulating 7 s s₁ s₂ ⟨0,8,blankInfo 7⟩ 3 m [wrote 7 3 5] rfl rfl
    run.reached opened regular run.unknown (by decide) run.cloned
    (by simp [wrote,Op.move,Op.info,blankInfo]) run.ran)

end Positions
end IoApps
