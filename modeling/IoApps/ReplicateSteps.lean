import IoApps.ReplicateMaps

/-! Every operation of the replicator is a sequence of edits, and what it does when it stops. -/
namespace IoApps
open Lib (Arena Prog)
open Lib.Prog (Steps)

section Lookup

-- The table the operations of a process work on: its own, or the one the missing call gives it.
def recordTable (env : Env) (s : State) (pid : Int32) : Option Nat :=
  match (s.fdMappings.find htOpsFdMapping pid).join with
  | some item => item.ht
  | none =>
    if env.fixMissing then
      (s.fdMappings.find htOpsFdMapping s.globalParentPid).join.bind ProcessItem.ht
    else none

theorem recordOf {env : Env} {s : State} {pid : Int32} {t : Nat} (table : tableOf s pid = some t) :
    recordTable env s pid = some t := by
  unfold tableOf at table
  unfold recordTable
  obtain ⟨item,first,same⟩ := Option.bind_eq_some_iff.mp table
  rw [first]
  exact same

theorem Found.inTable {s : State} {t : Nat} {fd : Int32} {item : FdItem}
    (found : Found s t fd item) : InTable s t item.fdMap := by
  obtain ⟨h,table,first⟩ := found.held
  exact ⟨h,table,item,(HashTable.findMem first).1,rfl⟩

theorem Found.unique {s : State} {t : Nat} {fd : Int32} {i j : FdItem} (left : Found s t fd i)
    (right : Found s t fd j) : i = j := by
  obtain ⟨h,table,first⟩ := left.held
  obtain ⟨g,again,second⟩ := right.held
  cases Option.some.inj (table.symm.trans again)
  exact Option.some.inj (Option.some.inj (first.symm.trans second))

def itemOf (s : State) (t : Nat) (fd : Int32) : Option FdItem :=
  s.tables[t]?.bind fun h => (h.find htOpsFdItem fd).join

theorem foundItem {s : State} {t : Nat} {fd : Int32} {item : FdItem} :
    Found s t fd item ↔ itemOf s t fd = some item := by
  unfold itemOf
  rw [Option.bind_eq_some_iff]
  constructor
  · intro found
    obtain ⟨h,table,first⟩ := found.held
    exact ⟨h,table,Option.join_eq_some_iff.mpr first⟩
  · intro found
    obtain ⟨h,table,first⟩ := found
    exact ⟨h,table,Option.join_eq_some_iff.mp first⟩

theorem foundSome {s : State} {t : Nat} {fd : Int32} :
    (itemOf s t fd).isSome = true ↔ ∃ item, Found s t fd item := by
  rw [Option.isSome_iff_exists]
  exact exists_congr fun item => foundItem.symm

theorem foundNone {s : State} {t : Nat} {fd : Int32} :
    ¬ (itemOf s t fd).isSome = true ↔ ∀ item, ¬ Found s t fd item := by
  rw [foundSome,not_exists]

theorem findValid {h : HashTable FdItem} {fd : Int32} {r : Option FdItem}
    (found : h.find htOpsFdItem fd = some r) : fd ≠ -1 := by
  rintro rfl
  have refused : h.chain htOpsFdItem (-1) = none := rfl
  rw [HashTable.find,refused] at found
  exact absurd found (by simp)

theorem firstParent {m m' : FdMap} (bare : Parents m []) {fd : Int32} (valid : fd ≠ -1)
    (stored : insertParentFd m fd = .ok m') :
    Parents m' [fd] ∧ m'.myFd = m.myFd ∧ m'.type = m.type ∧ m'.name = m.name := by
  have room : HasRoom m fd := (hasRoomStored bare valid).mpr (.inr (by decide))
  obtain ⟨parents,_,same⟩ := insertParentStored bare valid room stored
  exact ⟨by simpa using parents,same⟩

structure Same (s s' : State) : Prop where
  tables : s'.tables = s.tables
  maps : s'.fdMaps = s.fdMaps
  pipeFd : s'.pipeFd = s.pipeFd
  socketFd : s'.socketFd = s.socketFd

theorem Same.refl (s : State) : Same s s := ⟨rfl,rfl,rfl,rfl⟩

theorem Same.trans {s t u : State} (a : Same s t) (b : Same t u) : Same s u :=
  ⟨b.tables.trans a.tables,b.maps.trans a.maps,b.pipeFd.trans a.pipeFd,
    b.socketFd.trans a.socketFd⟩

structure Grew (s s' : State) : Prop extends Kept s s' where
  found : ∀ t fd item, Found s t fd item → Found s' t fd item
  fresh : ∀ t fd item, Found s' t fd item → Found s t fd item ∨
    ∃ m, s'.fdMaps.read item.fdMap = some m ∧ Parents m [item.oldFd]

theorem grewOf {s s' : State} (tables : s'.tables = s.tables) (maps : s'.fdMaps = s.fdMaps) :
    Grew s s' where
  items := fun i member => by rwa [State.items,tables]
  maps := fun a m live => by rwa [maps]
  found := fun t fd item found => ⟨by simpa only [tables] using found.held⟩
  fresh := fun t fd item found => .inl ⟨by simpa only [← tables] using found.held⟩

theorem Same.grew {s s' : State} (same : Same s s') : Grew s s' := grewOf same.tables same.maps

theorem Grew.trans {s t u : State} (a : Grew s t) (b : Grew t u) : Grew s u where
  toKept := a.toKept.trans b.toKept
  found := fun x fd item found => b.found x fd item (a.found x fd item found)
  fresh := by
    intro x fd item found
    rcases b.fresh x fd item found with before | fresh
    · rcases a.fresh x fd item before with first | ⟨m,live,parents⟩
      · exact .inl first
      · exact .inr ⟨m,b.maps _ _ live,parents⟩
    · exact .inr fresh

theorem putGrew {s s' : State} {t : Nat} {k fd counted : Int32} {m : FdMap}
    (put : Put s t k fd counted m s') (parents : Parents m [fd]) : Grew s s' where
  toKept := putKept put
  found := by
    rintro x y item ⟨g,there,first⟩
    obtain @⟨h,h',usage,table,inserted,used⟩ := put
    by_cases here : t = x
    · subst here
      cases Option.some.inj (table.symm.trans there)
      refine ⟨h',?_,HashTable.findKept first inserted⟩
      exact List.getElem?_set_self (List.getElem?_eq_some_iff.mp table).1
    · exact ⟨g,(List.getElem?_set_ne here).trans there,first⟩
  fresh := by
    rintro x y item ⟨g,there,first⟩
    obtain @⟨h,h',usage,table,inserted,used⟩ := put
    by_cases here : t = x
    · subst here
      have inside : t < s.tables.length := by
        by_contra beyond
        rw [List.getElem?_eq_none (by omega)] at table
        simp at table
      rw [List.getElem?_set_self inside] at there
      cases Option.some.inj there
      obtain ⟨c,hashed,rfl⟩ := Option.map_eq_some_iff.mp inserted
      obtain ⟨d,again,search⟩ := HashTable.findSome first
      by_cases chain : d = c
      · subst chain
        simp only [HashTable.append,Function.update_self,List.find?_append] at search
        rcases Option.or_eq_some_iff.mp search with old | ⟨none,new⟩
        · refine .inl ⟨h,table,?_⟩
          have same : h.chain htOpsFdItem y = some d := again
          rw [HashTable.find,same]
          exact congrArg some old
        · refine .inr ⟨m,?_⟩
          have fresh := List.mem_of_find?_eq_some new
          rw [List.mem_singleton.mp fresh]
          exact ⟨Arena.readAlloc _ _,parents⟩
      · simp only [HashTable.append,Function.update_of_ne chain] at search
        refine .inl ⟨h,table,?_⟩
        have same : h.chain htOpsFdItem y = some d := again
        rw [HashTable.find,same]
        exact congrArg some search
    · rw [List.getElem?_set_ne here] at there
      exact .inl ⟨g,there,first⟩

end Lookup

section Runs
variable {env : Env} {ok : Allowed}

abbrev Runs {α : Type} (env : Env) (ok : Allowed) (m : Replay α) (s : State)
    (post : α → State → Prop) : Prop :=
  Steps (Edit env ok) (Stop env ok) m s post

structure Asks (ok : Allowed) (s : State) (pid : Int32) : Prop where
  key : ok.keys pid
  named : ok.pids pid
  parent : ok.orphans ∨ (tableOf s pid).isSome ∨ (tableOf s s.globalParentPid).isSome

theorem Working.asks {s : State} {pid : Int32} {t : Nat} (working : Working ok s pid t) :
    Asks ok s pid :=
  ⟨working.key,working.named,.inr (.inl (by rw [working.table]; rfl))⟩

theorem keyRuns {α : Type} {o : Option α} {s : State}
    (stops : o = none → Stop env ok s (.fd .negativeKey)) :
    Runs env ok (key o) s fun a t => t = s ∧ o = some a :=
  Steps.ofOption (fun _ h => ⟨rfl,h⟩) stops

theorem onSimRuns {α : Type} {m : SimProg α} {s : State} :
    Runs env ok (onSim m) s fun _ t => ∃ sim, t = { s with sim := sim } := by
  cases ran : m s.sim with
  | error f =>
    have stops : onSim m s = .error (.sim f) := by rw [onSim,ran]
    exact Steps.ofError stops (.sim f)
  | ok r =>
    obtain ⟨a,sim⟩ := r
    have ends : onSim m s = .ok (a,{ s with sim := sim }) := by rw [onSim,ran]
    exact Steps.ofOk ends (.single (.simmed sim)) ⟨sim,rfl⟩

theorem readTableRuns {pid : Int32} {t : Nat} {s : State} (linked : tableOf s pid = some t) :
    Runs env ok (readTable t) s fun h s' => s' = s ∧ s.tables[t]? = some h :=
  Steps.getBind (Steps.ofOption (fun _ h => ⟨rfl,h⟩) fun gone => .noTable linked gone)

theorem readMapRuns {a : Nat} {s : State} (held : ok.careless ∨ ∃ i ∈ s.items, i.fdMap = a) :
    Runs env ok (readMap a) s fun m s' => s' = s ∧ s.fdMaps.read a = some m := by
  refine Steps.getBind (Steps.ofOption (fun _ h => ⟨rfl,h⟩) fun gone => .freed ?_)
  rcases held with careless | ⟨i,member,rfl⟩
  · exact .inr careless
  · exact .inl ⟨i,member,gone⟩

theorem writeMapRuns {pid : Int32} {t a : Nat} {m : FdMap} {s : State}
    (working : Working ok s pid t) (held : InTable s t a) (live : s.fdMaps.read a = some m)
    (pos : UInt64) : Runs env ok (writeMap a { m with curPos := pos }) s fun _ _ => True :=
  Steps.modify (.seeked live pos working held) trivial

theorem findItemRuns {pid : Int32} {t : Nat} {fd : Int32} {s : State}
    (working : Working ok s pid t) (asked : ok.keys fd) :
    Runs env ok (findItem t fd) s fun r s' => s' = s ∧ fd ≠ -1 ∧
      ∀ item, r = some item ↔ Found s t fd item := by
  refine Steps.bind (readTableRuns working.table) ?_
  rintro h _ ⟨rfl,table⟩
  refine (keyRuns fun none => .asked (.inl asked)
    (.item table (Option.map_eq_none_iff.mp none))).post ?_
  rintro r _ ⟨rfl,first⟩
  refine ⟨rfl,findValid first,fun item => ⟨fun there => ⟨h,table,there ▸ first⟩,?_⟩⟩
  rintro ⟨g,again,there⟩
  cases Option.some.inj (table.symm.trans again)
  exact Option.some.inj (first.symm.trans there)

theorem getProcessHtRuns {pid : Int32} {s : State}
    (asked : ok.keys pid ∨ pid = s.globalParentPid) :
    Runs env ok (getProcessHt pid) s fun r s' => s' = s ∧
      ∃ item, s.fdMappings.find htOpsFdMapping pid = some item ∧
        r = item.bind ProcessItem.ht := by
  refine Steps.getBind (Steps.bind (keyRuns fun none => .asked asked
    (.process (Option.map_eq_none_iff.mp none))) ?_)
  rintro item _ ⟨rfl,first⟩
  exact Steps.pure ⟨rfl,item,first,rfl⟩

theorem callRuns {c : Call} (quiet : c.Quiet) {s : State} (traced : Traced env s c)
    (held : ∀ n ∈ c.descriptors, Held s n) (acts : env.actReplicate = true) :
    Runs env ok (call env c) s fun _ s' => s' = s.logged env c :=
  Steps.getBind (Steps.modifyBind (.logged c quiet traced acts held) (Steps.pure rfl))

theorem callRun (env : Env) (c : Call) (s : State) :
    call env c s = .ok (env.kernel s.log c,s.logged env c) := rfl

inductive PutStop (s : State) (t : Nat) (k counted : Int32) : Fault → Prop where
  | noTable (gone : s.tables[t]? = none) : PutStop s t k counted .nullTable
  | key (refused : Refused s k ∨ Refused s counted) : PutStop s t k counted (.fd .negativeKey)
  | overflow : PutStop s t k counted (.fd .overflow)

theorem PutStop.stop {s : State} {t : Nat} {k counted : Int32} {f : Fault}
    (why : PutStop s t k counted f) (noTable : s.tables[t]? = none → Stop env ok s .nullTable)
    (key : Refused s k → Stop env ok s (.fd .negativeKey))
    (number : Refused s counted → Stop env ok s (.fd .negativeKey)) : Stop env ok s f := by
  cases why with
  | noTable gone => exact noTable gone
  | key refused => exact refused.elim key number
  | overflow => exact .overflow

theorem putItemRun (t : Nat) (k oldFd counted : Int32) (m : FdMap) (s : State) :
    (∃ s', Put s t k oldFd counted m s' ∧ putItem t k oldFd counted m s = .ok ((),s')) ∨
    ∃ f, PutStop s t k counted f ∧ putItem t k oldFd counted m s = .error f := by
  rw [putItem,Prog.bindOf (a := s.fdMaps.fresh) (t := { s with fdMaps := s.fdMaps.alloc m }) rfl]
  cases table : s.tables[t]? with
  | none =>
    refine .inr ⟨.nullTable,.noTable table,?_⟩
    simp [Prog.bindRun,insertItem,readTable,table]
  | some h =>
    cases inserted : h.insert htOpsFdItem k ⟨s.nextItem,oldFd,s.fdMaps.fresh⟩ with
    | none =>
      refine .inr ⟨.fd .negativeKey,
        .key (.inl (.item table (Option.map_eq_none_iff.mp inserted))),?_⟩
      simp [Prog.bindRun,insertItem,readTable,table,key,inserted]
    | some h' =>
      cases used : increaseFdUsage s.usageMap counted with
      | error f =>
        refine .inr ⟨.fd f,?_,?_⟩
        · rcases increaseError used with rfl | ⟨rfl,refused⟩
          · exact .overflow
          · exact .key (.inr (.usage refused))
        · simp [Prog.bindRun,insertItem,readTable,table,key,inserted,increaseUsage,used,ofFd]
      | ok usage =>
        refine .inl ⟨_,⟨table,inserted,used⟩,?_⟩
        simp [Prog.bindRun,insertItem,readTable,table,key,inserted,increaseUsage,used,ofFd]

theorem newItemRun (t : Nat) (k : Int32) {oldFd : Int32} (counted : Int32) {m : FdMap}
    (bare : Parents m []) (valid : oldFd ≠ -1) (s : State) :
    (∃ m' s', insertParentFd m oldFd = .ok m' ∧ Put s t k oldFd counted m' s' ∧
      newItem t k oldFd counted m s = .ok ((),s')) ∨
    ∃ f, PutStop s t k counted f ∧ newItem t k oldFd counted m s = .error f := by
  obtain ⟨parentFds,lastParIndex,stored,_⟩ :=
    insertParentRoom bare (List.not_mem_nil (a := oldFd)) valid (by decide)
  rw [newItem,stored,ofFd,Prog.bindOf (Prog.pureRun _ s)]
  rcases putItemRun t k oldFd counted _ s with ⟨s',put,ran⟩ | ⟨f,why,ran⟩
  · exact .inl ⟨_,s',rfl,put,ran⟩
  · exact .inr ⟨f,why,ran⟩

theorem Refused.of {s s' : State} {k : Int32} (refused : Refused s k)
    (tables : s'.tables = s.tables) (links : s'.fdMappings = s.fdMappings)
    (usage : s'.usageMap = s.usageMap) : Refused s' k := by
  cases refused with
  | process none => exact .process (by rw [links]; exact none)
  | item table none => exact .item (by rw [tables]; exact table) none
  | usage none => exact .usage (by rw [usage]; exact none)

theorem placeRuns {α : Type} {number : Replay α} {item : α → Replay Unit} {pid : Int32} {t : Nat}
    {fd counted : Int32} {m : FdMap} {a : α} {s s₁ : State} (working : Working ok s pid t)
    (asked : ok.keys fd) (bare : Parents m []) (valid : fd ≠ -1) (handed : number s = .ok (a,s₁))
    (puts : item a = newItem t fd fd counted m)
    (origin : ∀ m', m'.myFd = m.myFd → m'.type = m.type → m'.name = m.name →
      Origin env ok s counted m' s₁) (mine : counted = fd ∨ m.myFd = counted) :
    Runs env ok (number >>= item) s fun _ s' => Grew s s' ∧ s'.pipeFd = s₁.pipeFd := by
  have whole : (number >>= item) s = newItem t fd fd counted m s₁ := by
    rw [Prog.bindOf handed,puts]
  rcases newItemRun t fd counted bare valid s₁ with ⟨m',s',stored,put,ran⟩ | ⟨f,why,ran⟩
  · obtain ⟨parents,same,type,name⟩ := firstParent bare valid stored
    have source := origin m' same type name
    obtain ⟨tables,maps⟩ := source.same
    refine Steps.ofOk (whole.trans ran) (.single (.placed source parents put working))
      ⟨(grewOf tables maps).trans (putGrew put parents),?_⟩
    cases put
    rfl
  · refine Steps.ofError (whole.trans ran) ?_
    have source := origin m rfl rfl rfl
    have back (k : Int32) (refused : Refused s₁ k) : Refused s k :=
      refused.of source.same.1.symm source.links.symm source.usage.symm
    have here : PutStop s t fd counted f := by
      cases why with
      | noTable gone => exact .noTable (source.same.1 ▸ gone)
      | key refused => exact .key (refused.imp (back fd) (back counted))
      | overflow => exact .overflow
    refine here.stop (.noTable working.table) (.asked (.inl asked)) fun refused => ?_
    rcases mine with same | mine
    · exact .asked (.inl (same ▸ asked)) refused
    · exact .number source mine refused

theorem openedMapBare (op : OpenOp) (name : CName) (flags myFd : Int32) :
    Parents (openedMap env op name flags myFd) [] :=
  ⟨rfl,Nat.zero_le _,rfl,List.not_mem_nil,List.nodup_nil⟩

section Processes

theorem linkProcessRuns {pid : Int32} {ht : Option Nat} {s : State} (asked : ok.keys pid)
    (source : ok.orphans ∨ ∃ t, ht = some t ∧
      ((∃ p, tableOf s p = some t) ∨ t < s.tables.length)) :
    Runs env ok (linkProcess pid ht) s fun _ s' =>
      ∃ mappings, s.fdMappings.insert htOpsFdMapping pid ⟨pid,ht⟩ = some mappings ∧
        s' = { s with fdMappings := mappings } := by
  refine Steps.getBind (Steps.bind (keyRuns fun none => .asked (.inl asked)
    (.process (Option.map_eq_none_iff.mp none))) ?_)
  rintro mappings _ ⟨rfl,inserted⟩
  exact Steps.modify (.linked inserted source) ⟨mappings,inserted,rfl⟩

theorem copyItemsRuns (copies : ok.copies) {t : Nat} (items : List FdItem) {s : State}
    (inside : t < s.tables.length) (there : ∀ i ∈ items, i ∈ s.items) :
    Runs env ok (copyItems t items) s fun _ s' =>
      s'.tables.length = s.tables.length ∧ s'.fdMappings = s.fdMappings := by
  induction items generalizing s with
  | nil => exact Steps.pure ⟨rfl,rfl⟩
  | cons item rest ih =>
    have here := there item List.mem_cons_self
    refine Steps.bind (readMapRuns (.inr ⟨item,here,rfl⟩)) ?_
    rintro m _ ⟨rfl,live⟩
    rename_i s
    have block : Runs env ok (putItem t item.oldFd item.oldFd m.myFd m) s fun _ s' =>
        (∀ i ∈ rest, i ∈ s'.items) ∧
          s'.tables.length = s.tables.length ∧ s'.fdMappings = s.fdMappings := by
      rcases putItemRun t item.oldFd item.oldFd m.myFd m s with ⟨s',put,ran⟩ | ⟨f,why,ran⟩
      · refine Steps.ofOk ran (.single (.copied copies here live put)) ⟨?_,?_⟩
        · exact fun i member => (putKept put).items i (there i (List.mem_cons_of_mem _ member))
        · cases put
          exact ⟨by simp,rfl⟩
      · refine Steps.ofError ran (why.stop (fun gone => ?_) (.copied here) (.tracked live))
        exact absurd (List.getElem?_eq_none_iff.mp gone) (by omega)
    refine Steps.bind block ?_
    rintro _ s' ⟨later,sizes,links⟩
    refine (ih (by omega) later).post ?_
    rintro _ s'' ⟨sizes',links'⟩
    exact ⟨sizes'.trans sizes,links'.trans links⟩

theorem duplicateProcessHtRuns (copies : ok.copies) {pid : Int32} {s : State}
    (parent : ok.orphans ∨ (tableOf s pid).isSome) :
    Runs env ok (duplicateProcessHt (tableOf s pid)) s fun t s' => t = s.tables.length ∧
      s'.tables.length = s.tables.length + 1 ∧ s'.fdMappings = s.fdMappings := by
  cases linked : tableOf s pid with
  | none =>
    rw [linked] at parent
    exact Steps.throw (.orphan (parent.resolve_right (by simp)))
  | some h =>
    refine Steps.bind (readTableRuns linked) ?_
    rintro old _ ⟨rfl,table⟩
    rename_i s
    refine Steps.bind (q := fun t s' => t = s.tables.length ∧
      s' = { s with tables := s.tables ++ [.init HASH_TABLE_SIZE] }) ?_ ?_
    · exact Steps.getBind (Steps.modifyBind (.tableAdded copies) (Steps.pure ⟨rfl,rfl⟩))
    · rintro _ _ ⟨rfl,rfl⟩
      refine Steps.bind (copyItemsRuns copies _ (by simp) ?_) ?_
      · intro i member
        exact List.mem_flatMap.mpr
          ⟨old,List.mem_append_left _ (List.mem_of_getElem? table),member⟩
      · rintro _ s' ⟨sizes,links⟩
        exact Steps.pure ⟨rfl,by simpa using sizes,links⟩

def Linked (s : State) : Prop :=
  ∀ t < s.tables.length, ∃ p ∈ s.fdMappings.items, p.ht = some t

theorem Linked.insert {s : State} (linked : Linked s) {pid : Int32} {p : ProcessItem}
    {mappings : HashTable ProcessItem}
    (inserted : s.fdMappings.insert htOpsFdMapping pid p = some mappings) :
    Linked { s with fdMappings := mappings } := by
  intro t inside
  obtain ⟨q,member,same⟩ := linked t inside
  exact ⟨q,(HashTable.insertItems inserted).mem_iff.mpr (List.mem_cons_of_mem _ member),same⟩

theorem linkedEdit (copies : ¬ ok.copies) {s s' : State} (edit : Edit env ok s s')
    (linked : Linked s) : Linked s' := by
  have put {s₁ : State} {t : Nat} {k fd counted : Int32} {m : FdMap}
      (put : Put s₁ t k fd counted m s') (links : s₁.fdMappings = s.fdMappings)
      (sizes : s₁.tables.length = s.tables.length) : Linked s' := by
    cases put
    intro t inside
    exact links ▸ linked t (by simpa [sizes] using inside)
  cases edit with
  | logged | openFailed | probed | simmed | openNumber | seeked | closeFailed => exact linked
  | linked inserted => exact Linked.insert linked inserted
  | placed origin parents put' =>
    exact put put' origin.links (congrArg List.length origin.same.1)
  | tableAdded allowed => exact absurd allowed copies
  | copied allowed => exact absurd allowed copies
  | closed table found live release =>
    intro t inside
    have same := linked t (by simpa using inside)
    cases release with
    | untracked | kept | simulated | closed => exact same
  | aliased =>
    intro t inside
    exact linked t (by simpa using inside)

theorem tableOfFound {s : State} {pid : Int32} {item : Option ProcessItem}
    (first : s.fdMappings.find htOpsFdMapping pid = some item) :
    tableOf s pid = item.bind ProcessItem.ht := by
  rw [tableOf,first]
  rfl

/-- What a clone record asks: its child is looked up, then its parent unless the child is known,
and one of the two has a table. -/
structure AsksClone (ok : Allowed) (s : State) (child parent : Int32) : Prop where
  childKey : ok.keys child
  parentKey : (tableOf s child).isSome = false → ok.keys parent ∨ parent = s.globalParentPid
  table : ok.orphans ∨ (tableOf s child).isSome ∨ (tableOf s parent).isSome

theorem sourceOf {s : State} {child parent : Int32} (asks : AsksClone ok s child parent)
    (unknown : (tableOf s child).isSome = false) : ok.orphans ∨ ∃ t, tableOf s parent = some t ∧
      ((∃ p, tableOf s p = some t) ∨ t < s.tables.length) := by
  refine asks.table.imp id fun either => ?_
  rw [unknown] at either
  obtain ⟨t,linked⟩ := Option.isSome_iff_exists.mp (either.resolve_left (by simp))
  exact ⟨t,linked,.inl ⟨parent,linked⟩⟩

theorem cloneRuns {op : CloneOp} (copies : op.mode &&& CLONE_FILES = 0 → ok.copies) {s : State}
    (asks : AsksClone ok s op.retval op.info.pid) :
    Runs env ok (replicateClone op) s fun _ s' => Linked s → Linked s' := by
  refine Steps.bind (getProcessHtRuns (.inl asks.childKey)) ?_
  rintro known _ ⟨rfl,item,first,rfl⟩
  rw [← tableOfFound first]
  split
  · exact Steps.pure id
  · rename_i unknown
    have none := Bool.eq_false_iff.mpr unknown
    split
    · refine Steps.bind (getProcessHtRuns (asks.parentKey none)) ?_
      rintro ht _ ⟨rfl,source,second,rfl⟩
      rw [← tableOfFound second]
      refine (linkProcessRuns asks.childKey (sourceOf asks none)).post ?_
      rintro _ _ ⟨mappings,inserted,rfl⟩ linked
      exact linked.insert inserted
    · rename_i copying
      refine Steps.bind (getProcessHtRuns (asks.parentKey none)) ?_
      rintro ht _ ⟨rfl,source,second,rfl⟩
      rw [← tableOfFound second]
      refine Steps.bind (duplicateProcessHtRuns (copies (by simpa using copying)) ?_) ?_
      · exact asks.table.imp id fun either => either.resolve_left unknown
      · rintro _ s' ⟨rfl,sizes,links⟩
        refine (linkProcessRuns asks.childKey (.inr ⟨_,rfl,.inr (by omega)⟩)).post ?_
        rintro _ _ ⟨mappings,inserted,rfl⟩ linked t inside
        have perm := HashTable.insertItems inserted
        rcases Nat.lt_or_eq_of_le (Nat.lt_succ_iff.mp (sizes ▸ inside)) with old | rfl
        · obtain ⟨p,member,same⟩ := linked t old
          exact ⟨p,perm.mem_iff.mpr (List.mem_cons_of_mem _ (links ▸ member)),same⟩
        · exact ⟨_,perm.mem_iff.mpr List.mem_cons_self,rfl⟩

theorem shareRuns {pid : Int32} {info : OpInfo} {s : State} (asks : AsksClone ok s pid info.pid) :
    Runs env ok (replicateClone ⟨CLONE_FILES,pid,info⟩) s fun _ s' => Same s s' ∧
      ((s.fdMappings.find htOpsFdMapping pid).join = none →
        s'.fdMappings.find htOpsFdMapping pid =
          some (some ⟨pid,(s.fdMappings.find htOpsFdMapping info.pid).join.bind ProcessItem.ht⟩)) ∧
      ∀ p, s.fdMappings.find htOpsFdMapping pid = some (some p) →
        s'.fdMappings.find htOpsFdMapping pid = some (some p) := by
  refine Steps.bind (getProcessHtRuns (.inl asks.childKey)) ?_
  rintro known _ ⟨rfl,item,first,rfl⟩
  split
  · rename_i there
    refine Steps.pure ⟨.refl _,?_,fun _ h => h⟩
    intro none
    rw [first,Option.join_some] at none
    rw [none] at there
    exact absurd there (by simp)
  · rename_i unknown
    rename_i s
    have none : (tableOf s pid).isSome = false := by
      rw [tableOfFound first]
      exact Bool.eq_false_iff.mpr unknown
    rw [if_pos (show CLONE_FILES &&& CLONE_FILES ≠ 0 by decide)]
    refine Steps.bind (getProcessHtRuns (asks.parentKey none)) ?_
    rintro ht _ ⟨rfl,source,second,rfl⟩
    have from_ := sourceOf asks none
    rw [tableOfFound second] at from_
    refine (linkProcessRuns asks.childKey from_).post ?_
    rintro _ _ ⟨mappings,inserted,rfl⟩
    have match_ : htOpsFdMapping.compare pid
        ⟨pid,source.bind ProcessItem.ht⟩ = true := by simp [htOpsFdMapping]
    have after := HashTable.findInsert match_ inserted
    refine ⟨⟨rfl,rfl,rfl,rfl⟩,?_,?_⟩
    · intro none
      simp only [after,none,second,Option.join_some,Option.none_or]
    · intro p there
      simp only [after,there,Option.join_some,Option.some_or]

theorem processHtRuns {pid : Int32} {s : State} (asks : Asks ok s pid) :
    Runs env ok (processHt env pid) s fun r s' => Same s s' ∧ r = recordTable env s pid ∧
      ∀ t, r = some t → Working ok s' pid t := by
  refine Steps.bind (getProcessHtRuns (.inl asks.key)) ?_
  rintro known _ ⟨rfl,item,first,rfl⟩
  rename_i s
  split
  · rename_i t there
    refine Steps.pure ⟨.refl s,?_,?_⟩
    · cases item with
      | none => exact absurd there (by simp)
      | some p => simpa [recordTable,first] using there.symm
    · intro t' same
      exact ⟨asks.key,asks.named,(tableOfFound first).trans (there.trans same)⟩
  · rename_i missing
    rw [replicateMissingHt]
    split
    · rename_i fix
      have clone : AsksClone ok s pid s.globalParentPid :=
        ⟨asks.key,fun _ => .inr rfl,asks.parent⟩
      refine Steps.getBind (Steps.bind (shareRuns clone) ?_)
      rintro _ s' ⟨same,new,old⟩
      refine (getProcessHtRuns (.inl asks.key)).post ?_
      rintro r _ ⟨rfl,item',again,rfl⟩
      refine ⟨same,?_,fun t there => ⟨asks.key,asks.named,(tableOfFound again).trans there⟩⟩
      cases item with
      | none =>
        have there := new (by rw [first]; rfl)
        rw [again] at there
        rw [Option.some.inj there]
        simp [recordTable,first,fix]
      | some p =>
        have there := old p first
        rw [again] at there
        rw [Option.some.inj there]
        simp [recordTable,first]
    · rename_i keep
      refine Steps.pure ⟨.refl s,?_,fun _ there => absurd there (by simp)⟩
      cases item with
      | none => simp [recordTable,first,keep]
      | some p => simpa [recordTable,first] using missing.symm

end Processes
section Opening

theorem openNumberRun {s : State} : simulateGetOpenFd s = .error (.fd .overflow) ∨
    ∃ n, countUp s.openFd = .ok n ∧ simulateGetOpenFd s = .ok (n,{ s with openFd := n }) := by
  rw [simulateGetOpenFd,Prog.bindOf (Prog.getRun s)]
  cases up : countUp s.openFd with
  | error f =>
    rw [countUpError up]
    exact .inl rfl
  | ok n => exact .inr ⟨n,rfl,rfl⟩

theorem pipeNumberRun {s : State} : getPipeFd s = .error (.fd .overflow) ∨
    ∃ n, countDown s.pipeFd = .ok n ∧ getPipeFd s = .ok (n,{ s with pipeFd := n }) := by
  rw [getPipeFd,Prog.bindOf (Prog.getRun s)]
  cases down : countDown s.pipeFd with
  | error f =>
    rw [countDownError down]
    exact .inl rfl
  | ok n => exact .inr ⟨n,rfl,rfl⟩

theorem socketNumberRun {s : State} : getSocketFd s = .error (.fd .overflow) ∨
    ∃ n, countDown s.socketFd = .ok n ∧ getSocketFd s = .ok (n,{ s with socketFd := n }) := by
  rw [getSocketFd,Prog.bindOf (Prog.getRun s)]
  cases down : countDown s.socketFd with
  | error f =>
    rw [countDownError down]
    exact .inl rfl
  | ok n => exact .inr ⟨n,rfl,rfl⟩

theorem simRuns {m : SimProg Unit} {s : State} :
    Runs env ok (onSim m) s fun _ s' => Same s s' :=
  onSimRuns.post fun _ _ ⟨_,same⟩ => same ▸ ⟨rfl,rfl,rfl,rfl⟩

theorem simulateOpenedRuns {op : OpenOp} {name : CName} {flags : Int32} {s : State} :
    Runs env ok (simulateOpened env op name flags) s fun _ s' => Same s s' := by
  rw [simulateOpened]
  split
  · exact simRuns
  · exact Steps.pure (.refl s)

theorem failedOpenRuns {op : OpenOp} {s : State} :
    Runs env ok (replicateFailedOpen env op) s fun _ s' => Same s s' := by
  rw [replicateFailedOpen]
  split
  · exact Steps.pure (.refl s)
  · rename_i name left_
    have mapped : Mapped env name := ⟨op.name,left_⟩
    split
    · rename_i acts
      have first := callRun env (.open name 0 none) s
      by_cases failed : s.answer env (.open name 0 none) = -1
      · refine Steps.ofOk (t := s.logged env (.open name 0 none)) (a := ()) ?_
          (.single (.openFailed failed mapped acts)) ⟨rfl,rfl,rfl,rfl⟩
        rw [Prog.bindOf first]
        have same : (env.kernel s.log (.open name 0 none)).toInt32 = -1 := failed
        simp only [same,ne_eq,not_true_eq_false,if_false]
        rfl
      · refine Steps.ofOk (a := ()) ?_ (.single (.probed failed mapped acts))
          ⟨rfl,rfl,rfl,rfl⟩
        rw [Prog.bindOf first]
        have other : (env.kernel s.log (.open name 0 none)).toInt32 ≠ -1 := failed
        simp only [ne_eq,other,not_false_eq_true,if_true]
        rfl
    · split
      · exact simRuns
      · exact Steps.pure (.refl s)

variable {pid : Int32} {t : Nat} {s : State}

theorem replayedRuns {op : OpenOp} {name : CName} {flags fd : Int32}
    (working : Working ok s pid t) (asked : ok.keys fd) (valid : fd ≠ -1)
    (acts : env.actReplicate ∧ flags &&& O_IGNORE = 0) (mapped : Mapped env name) :
    Runs env ok (do
      let retval ← openedFd env op name flags
      if retval = -1 then pure ()
      else newItem t fd fd retval (openedMap env op name flags retval)) s
      fun _ s' => Grew s s' := by
  obtain ⟨c,mode,which,ran⟩ : ∃ c mode, c = .open name flags mode ∧
      openedFd env op name flags s = .ok (s.answer env c,s.logged env c) := by
    refine ⟨_,if op.mode = MODE_UNDEF then none else some op.mode,rfl,?_⟩
    rw [openedFd,if_pos acts]
    rfl
  by_cases failed : s.answer env c = -1
  · refine Steps.ofOk (t := s.logged env c) (a := ()) ?_ ?_ (grewOf rfl rfl)
    · rw [Prog.bindOf ran,if_pos failed]
      rfl
    · subst which
      exact .single (.openFailed failed mapped acts.1)
  · refine (placeRuns working asked (openedMapBare ..) valid ran (if_neg failed) ?_
      (.inr rfl)).post fun _ _ both => both.1
    intro m mine type named
    subst which
    refine .replayed acts.1 rfl failed mine ?_ named mapped
    rw [type]
    have kept : ¬ (flags &&& O_IGNORE ≠ 0) := not_not.mpr acts.2
    by_cases dir : flags &&& O_DIRECTORY ≠ 0 <;>
      simp [openedMap,openedType,kept,dir,supportedType]

theorem placeholderRuns {op : OpenOp} {name : CName} {flags fd : Int32}
    (working : Working ok s pid t) (asked : ok.keys fd) (valid : fd ≠ -1)
    (simulates : ¬ (env.actReplicate ∧ flags &&& O_IGNORE = 0)) :
    Runs env ok (do
      let retval ← simulateGetOpenFd
      if retval = -1 then pure ()
      else newItem t fd fd retval (openedMap env op name flags retval)) s
      fun _ s' => Grew s s' := by
  rcases openNumberRun (s := s) with ran | ⟨n,up,ran⟩
  · exact Steps.ofError (Prog.bindError.mpr (.inl ran)) .overflow
  · by_cases beyond : n = -1
    · refine Steps.ofOk (a := ()) ?_ (.single (.openNumber up)) (grewOf rfl rfl)
      rw [Prog.bindOf ran,if_pos beyond]
      rfl
    · refine (placeRuns working asked (openedMapBare ..) valid ran (if_neg beyond) ?_
        (.inr rfl)).post fun _ _ both => both.1
      intro m mine type _
      refine .placeholder up mine fun replaying => ?_
      have ignored : flags &&& O_IGNORE ≠ 0 := fun zero => simulates ⟨replaying,zero⟩
      rw [type]
      simp [openedMap,openedType,ignored,supportedType]

theorem openedRuns {op : OpenOp} {name : CName} {flags fd : Int32} (working : Working ok s pid t)
    (asked : ok.keys fd) (valid : fd ≠ -1) (mapped : flags &&& O_IGNORE = 0 → Mapped env name) :
    Runs env ok (do
      let retval ← openedFd env op name flags
      if retval = -1 then pure ()
      else newItem t fd fd retval (openedMap env op name flags retval)) s
      fun _ s' => Grew s s' := by
  by_cases acts : env.actReplicate ∧ flags &&& O_IGNORE = 0
  · exact replayedRuns working asked valid acts (mapped acts.2)
  · have split_ : openedFd env op name flags = (simulateOpened env op name flags >>= fun _ =>
        simulateGetOpenFd) := by rw [openedFd,if_neg acts]
    rw [split_,Prog.bindAssoc]
    refine Steps.bind (simulateOpenedRuns (s := s)).reached ?_
    rintro _ s' ⟨edits,same⟩
    exact (placeholderRuns (working.later edits) asked valid acts).post
      fun _ _ grew => same.grew.trans grew

theorem ignoreFlag (flags : Int32) : (flags ||| O_IGNORE) &&& O_IGNORE ≠ 0 := by
  intro zero
  have bits : ((flags ||| O_IGNORE) &&& O_IGNORE).toBitVec = 0#32 := by
    rw [zero]
    rfl
  have top := congrArg (fun b => b.getLsbD 31) bits
  simp [O_IGNORE] at top

theorem openedName (op : OpenOp) {name : CName} {flags : Int32}
    (which : (match namemapGetName env.namemap op.name with
      | none => (op.name,op.flags ||| O_IGNORE)
      | some name => (name,op.flags)) = (name,flags)) (seen : flags &&& O_IGNORE = 0) :
    Mapped env name := by
  split at which
  · cases which
    exact absurd seen (ignoreFlag _)
  · rename_i mapped
    cases which
    exact ⟨op.name,mapped⟩

theorem openRuns {op : OpenOp} (asks : op.retval ≠ -1 → Asks ok s op.info.pid)
    (asked : op.retval ≠ -1 → ∀ t, recordTable env s op.info.pid = some t → ok.keys op.retval) :
    Runs env ok (replicateOpen env op) s fun _ s' => Grew s s' := by
  rw [replicateOpen]
  split
  · exact failedOpenRuns.post fun _ _ same => same.grew
  · rename_i opened
    refine Steps.bind (processHtRuns (asks opened)) ?_
    rintro r s' ⟨same,which,working⟩
    split
    · exact Steps.pure same.grew
    · rename_i t
      have key := asked opened t which.symm
      refine Steps.bind (findItemRuns (working t rfl) key) ?_
      rintro found _ ⟨rfl,valid,_⟩
      split
      · exact Steps.pure same.grew
      · exact (openedRuns (working t rfl) key valid (openedName op rfl)).post
          fun _ _ grew => same.grew.trans grew

end Opening
section Items
variable {s : State}

theorem Same.found {s' : State} (same : Same s s') {t : Nat} {fd : Int32} {item : FdItem} :
    Found s' t fd item ↔ Found s t fd item :=
  ⟨fun ⟨held⟩ => ⟨by simpa only [← same.tables] using held⟩,
    fun ⟨held⟩ => ⟨by simpa only [same.tables] using held⟩⟩

theorem getFdMapRuns {t : Nat} {fd : Int32} {info : OpInfo} (working : Working ok s info.pid t)
    (asked : ok.keys fd) :
    Runs env ok (replicateGetFdMap env t fd info) s fun r s' => Grew s s' ∧
      (∀ item, r = some item → Found s' t fd item ∧
        (env.fixMissing = true ∨ Found s t fd item)) ∧
      (r = none → ∀ item, ¬ Found s t fd item) := by
  refine Steps.bind (findItemRuns working asked) ?_
  rintro r s ⟨rfl,_,first⟩
  split
  · rename_i item
    refine Steps.pure ⟨(Same.refl _).grew,fun i same => ?_,fun none => absurd none (by simp)⟩
    have there := (first i).mp same
    exact ⟨there,.inr there⟩
  · have absent (i : FdItem) : ¬ Found s t fd i :=
      fun there => absurd ((first i).mpr there) (by simp)
    split
    · rename_i fixes
      refine Steps.bind (openRuns (fun _ => working.asks) fun _ _ _ => asked).reached ?_
      rintro _ s' ⟨edits,grew⟩
      refine (findItemRuns (working.later edits) asked).post ?_
      rintro r _ ⟨rfl,_,second⟩
      exact ⟨grew,fun i same => ⟨(second i).mp same,.inl fixes⟩,fun _ => absent⟩
    · exact Steps.pure ⟨(Same.refl _).grew,fun item h => absurd h (by simp),fun _ => absent⟩

theorem withItemRuns {fd : Int32} {info : OpInfo} {act : Nat → FdItem → Replay Unit}
    {post : Unit → State → Prop} (asks : Asks ok s info.pid)
    (asked : ∀ t, recordTable env s info.pid = some t → ok.keys fd)
    (nothing : ∀ s', Grew s s' →
      (∀ t item, recordTable env s info.pid = some t → ¬ Found s t fd item) → post () s')
    (acts : ∀ t item s', recordTable env s info.pid = some t → Grew s s' → Found s' t fd item →
      (env.fixMissing = true ∨ Found s t fd item) → Working ok s' info.pid t →
      Relation.ReflTransGen (Edit env ok) s s' → Runs env ok (act t item) s' post) :
    Runs env ok (withItem env info.pid fd info act) s post := by
  refine Steps.bind (processHtRuns asks).reached ?_
  rintro r s' ⟨edits,same,which,working⟩
  split
  · refine Steps.pure (nothing s' same.grew fun t item table => ?_)
    exact absurd (which.trans table) (by simp)
  · rename_i t
    have mine := working t rfl
    refine Steps.bind (getFdMapRuns mine (asked t which.symm)).reached ?_
    rintro r s'' ⟨more,grew,found,none⟩
    split
    · refine Steps.pure (nothing s'' (same.grew.trans grew) fun u item table there => ?_)
      cases Option.some.inj (which.trans table)
      exact none rfl item (same.found.mpr there)
    · rename_i item
      obtain ⟨there,before⟩ := found item rfl
      exact acts t item s'' which.symm (same.grew.trans grew) there
        (before.imp_right same.found.mp) (mine.later more) (edits.trans more)

theorem foundMapRuns {t : Nat} {fd : Int32} {item : FdItem}
    (found : Found s t fd item) : Runs env ok (readMap item.fdMap) s
      fun m s' => s' = s ∧ s.fdMaps.read item.fdMap = some m :=
  readMapRuns (.inr ⟨item,found.member,rfl⟩)

def Names (replay : Int32 → Call) : Prop :=
  ∀ n, (replay n).Quiet ∧ (∀ env s, Behind s n → Traced env s (replay n)) ∧
    (replay n).descriptors = [n]

theorem heldItem {i : FdItem} {m : FdMap} (member : i ∈ s.items)
    (live : s.fdMaps.read i.fdMap = some m) (supported : supportedType m.type = true) :
    Held s m.myFd := .inr (.inr ⟨i,member,m,live,supported,rfl⟩)

theorem heldOnly {c : Call} {n : Int32} (given : c.descriptors = [n]) (held : Held s n) :
    ∀ n' ∈ c.descriptors, Held s n' := by
  intro n' member
  rw [given] at member
  exact List.mem_singleton.mp member ▸ held

theorem behindMap {a : Nat} {m : FdMap} (live : s.fdMaps.read a = some m)
    (supported : supportedType m.type = true) : Behind s m.myFd :=
  .inr (.inr ⟨a,m,live,supported,rfl⟩)

theorem transferResultRuns {recorded : Int64} {simulate : SimProg Unit} {replay : Call}
    (quiet : replay.Quiet) (traced : Traced env s replay)
    (held : ∀ n ∈ replay.descriptors, Held s n) :
    Runs env ok (transferResult env recorded simulate replay) s fun _ s' => Same s s' := by
  rw [transferResult]
  split
  · split
    · exact Steps.bind simRuns fun _ _ same => Steps.pure same
    · exact Steps.pure (.refl s)
  · split
    · rename_i acts
      exact (callRuns quiet traced held acts).post fun _ _ same => same ▸ ⟨rfl,rfl,rfl,rfl⟩
    · exact Steps.throw .noAction

theorem transferRuns {fd : Int32} {info : OpInfo} {recorded : Int64} {moves : Bool}
    {simulate : FdMap → SimProg Unit} {replay : Int32 → Call} (names : Names replay)
    (asks : Asks ok s info.pid) (asked : ∀ t, recordTable env s info.pid = some t → ok.keys fd) :
    Runs env ok (replicateTransfer env fd info recorded moves simulate replay) s
      fun _ _ => True := by
  refine withItemRuns asks asked (fun _ _ _ => trivial) ?_
  rintro t item s' _ _ found _ working _
  refine Steps.bind (foundMapRuns found) ?_
  rintro m _ ⟨rfl,live⟩
  split
  · rename_i supported
    obtain ⟨quiet,traced,given⟩ := names m.myFd
    refine Steps.bind (transferResultRuns quiet (traced _ _ (behindMap live supported))
      (heldOnly given (heldItem found.member live supported))).reached ?_
    rintro retval s'' ⟨edits,same⟩
    split
    · exact writeMapRuns (working.later edits) (same.found.mpr found).inTable (same.maps ▸ live) _
    · exact Steps.pure trivial
  · exact Steps.pure trivial

theorem pipeItemRuns {pid : Int32} {t : Nat} {fd : Int32} (ended : ok.pipeEnd fd)
    (working : Working ok s pid t) (asked : ok.keys fd) (valid : fd ≠ -1)
    (drawn : ∀ n, countDown s.pipeFd = .ok n → ok.drawn n) :
    Runs env ok (pipeItem env t fd) s fun _ s' => countDown s.pipeFd = .ok s'.pipeFd := by
  rcases pipeNumberRun (s := s) with ran | ⟨n,down,ran⟩
  · exact Steps.ofError (Prog.bindError.mpr (.inl ran)) .overflow
  · refine (placeRuns working asked ⟨rfl,Nat.zero_le _,rfl,List.not_mem_nil,List.nodup_nil⟩ valid
      ran rfl ?_ (.inl rfl)).post fun _ _ both => both.2.symm ▸ down
    intro m same type _
    have mine : n = m.myFd := same.symm
    subst mine
    exact .pipe ended down (by rw [type]; rfl) (by rw [type]; simp) (drawn _ down)

theorem pipeRuns {op : PipeOp} (ended : op.retval ≠ -1 → ok.pipeEnd op.fd1 ∧ ok.pipeEnd op.fd2)
    (asks : op.retval ≠ -1 → Asks ok s op.info.pid)
    (asked : op.retval ≠ -1 → ∀ t, recordTable env s op.info.pid = some t →
      ok.keys op.fd1 ∧ ((∀ item, ¬ Found s t op.fd1 item) → ok.keys op.fd2))
    (drawn : op.retval ≠ -1 → ∀ n, countDown s.pipeFd = .ok n →
      ok.drawn n ∧ ∀ n', countDown n = .ok n' → ok.drawn n') :
    Runs env ok (replicatePipe env op) s fun _ _ => True := by
  rw [replicatePipe]
  split
  · exact Steps.pure trivial
  · rename_i opened
    refine Steps.bind (processHtRuns (asks opened)) ?_
    rintro r s' ⟨same,which,working⟩
    split
    · exact Steps.pure trivial
    · rename_i t
      have mine := working t rfl
      obtain ⟨key,next⟩ := asked opened t which.symm
      refine Steps.bind (findItemRuns mine key) ?_
      rintro first s₁ ⟨still,valid,search⟩
      subst still
      split
      · exact Steps.pure trivial
      · rename_i absent
        have key' := next fun item there => by
          rw [(search item).mpr (same.found.mpr there)] at absent
          exact absent rfl
        refine Steps.bind (findItemRuns mine key') ?_
        rintro _ s₂ ⟨still,valid',_⟩
        subst still
        split
        · exact Steps.pure trivial
        · have numbers := drawn opened
          rw [← same.pipeFd] at numbers
          refine Steps.bind (pipeItemRuns (ended opened).1 mine key valid
            fun n down => (numbers n down).1).reached ?_
          rintro _ s₁ ⟨edits,down⟩
          exact (pipeItemRuns (ended opened).2 (mine.later edits) key' valid'
            (numbers _ down).2).post fun _ _ _ => trivial

theorem socketRuns {op : SocketOp} (asks : op.retval ≠ -1 → Asks ok s op.info.pid)
    (asked : op.retval ≠ -1 → ∀ t, recordTable env s op.info.pid = some t → ok.keys op.retval)
    (drawn : op.retval ≠ -1 → ∀ n, countDown s.socketFd = .ok n → ok.drawn n) :
    Runs env ok (replicateSocket env op) s fun _ _ => True := by
  rw [replicateSocket]
  split
  · exact Steps.pure trivial
  · rename_i opened
    refine Steps.bind (processHtRuns (asks opened)) ?_
    rintro r s₁ ⟨same,which,working⟩
    split
    · exact Steps.pure trivial
    · rename_i t
      have mine := working t rfl
      have key := asked opened t which.symm
      refine Steps.bind (findItemRuns mine key) ?_
      rintro _ s₂ ⟨still,valid,_⟩
      subst still
      split
      · exact Steps.pure trivial
      · have number := drawn opened
        rw [← same.socketFd] at number
        rcases socketNumberRun (s := s₂) with ran | ⟨n,down,ran⟩
        · exact Steps.ofError (Prog.bindError.mpr (.inl ran)) .overflow
        · refine (placeRuns mine key ⟨rfl,Nat.zero_le _,rfl,List.not_mem_nil,List.nodup_nil⟩ valid
            ran rfl ?_ (.inr rfl)).post fun _ _ _ => trivial
          intro m same type _
          exact .socket down same (by rw [type]; rfl) (by rw [type]; simp)
            (same.symm ▸ number n down)

theorem pathRuns {name : CName} {replay : CName → Call} {simulate : CName → SimProg Unit}
    (names : ∀ n, (replay n).Quiet ∧ (Mapped env n → Traced env s (replay n)) ∧
      (replay n).descriptors = []) :
    Runs env ok (replicatePath env name replay simulate) s fun _ _ => True := by
  rw [replicatePath]
  split
  · exact Steps.pure trivial
  · rename_i mapped
    obtain ⟨quiet,traced,given⟩ := names _
    split
    · rename_i acts
      refine Steps.bind (callRuns quiet (traced ⟨name,mapped⟩) ?_ acts)
        fun _ _ _ => Steps.pure trivial
      simp [given]
    · split
      · exact simRuns.post fun _ _ _ => trivial
      · exact Steps.pure trivial

theorem seekResultRuns {seek : Call} {recorded : Int64} (quiet : seek.Quiet)
    (traced : Traced env s seek) (held : ∀ n ∈ seek.descriptors, Held s n) :
    Runs env ok (seekResult env seek recorded) s fun _ s' => Same s s' := by
  rw [seekResult]
  split
  · rename_i acts
    exact (callRuns quiet traced held acts).post fun _ _ same => same ▸ ⟨rfl,rfl,rfl,rfl⟩
  · exact Steps.pure (.refl s)

theorem seekRuns {fd : Int32} {info : OpInfo} {recorded : Int64} {seek : Int32 → Call}
    {pos : Int64 → Int64} (names : Names seek) (asks : Asks ok s info.pid)
    (asked : ∀ t, recordTable env s info.pid = some t → ok.keys fd) :
    Runs env ok (replicateSeek env fd info recorded seek pos) s fun _ _ => True := by
  refine withItemRuns asks asked (fun _ _ _ => trivial) ?_
  rintro t item s' _ _ found _ working _
  refine Steps.bind (foundMapRuns found) ?_
  rintro m _ ⟨rfl,live⟩
  split
  · rename_i supported
    obtain ⟨quiet,traced,given⟩ := names m.myFd
    refine Steps.bind (seekResultRuns quiet (traced _ _ (behindMap live supported))
      (heldOnly given (heldItem found.member live supported))).reached ?_
    rintro retval s'' ⟨edits,same⟩
    split
    · exact Steps.pure trivial
    · split
      · exact writeMapRuns (working.later edits) (same.found.mpr found).inTable
          (same.maps ▸ live) _
      · exact Steps.pure trivial
  · exact Steps.pure trivial

theorem sendfileCallTraced (env : Env) (op : SendfileOp) {inSide outSide : Bool}
    {inFd outFd : Int32}
    (either : inSide = true ∨ outSide = true) (input : inSide = true → Behind s inFd)
    (output : outSide = true → Behind s outFd) :
    (sendfileCall env op inSide outSide inFd outFd s.globalDevnullFd s.globalDevzeroFd).Quiet ∧
      Traced env s
        (sendfileCall env op inSide outSide inFd outFd s.globalDevnullFd s.globalDevzeroFd) := by
  have null : Behind s s.globalDevnullFd := .inl rfl
  have zero : Behind s s.globalDevzeroFd := .inr (.inl rfl)
  rw [sendfileCall]
  split
  · rename_i both
    exact ⟨trivial,output both.2,input both.1⟩
  · split
    · rename_i out
      have mine := output out
      split
      · exact ⟨trivial,mine,zero⟩
      · split
        · exact ⟨trivial,mine⟩
        · exact ⟨trivial,mine⟩
    · rename_i out
      have mine := input (either.resolve_right out)
      split
      · exact ⟨trivial,null,mine⟩
      · split
        · exact ⟨trivial,mine⟩
        · exact ⟨trivial,mine⟩

theorem sendfileCallHeld (env : Env) (op : SendfileOp) {inSide outSide : Bool} {inFd outFd : Int32}
    (either : inSide = true ∨ outSide = true) (input : inSide = true → Held s inFd)
    (output : outSide = true → Held s outFd) : ∀ n ∈ (sendfileCall env op inSide outSide inFd outFd
      s.globalDevnullFd s.globalDevzeroFd).descriptors, Held s n := by
  have null : Held s s.globalDevnullFd := .inl rfl
  have zero : Held s s.globalDevzeroFd := .inr (.inl rfl)
  have two {a b : Int32} (first : Held s a) (second : Held s b) : ∀ n ∈ [a,b], Held s n := by
    intro n member
    rcases List.mem_cons.mp member with rfl | last
    · exact first
    · exact List.mem_singleton.mp last ▸ second
  rw [sendfileCall]
  split
  · rename_i both
    exact two (output both.2) (input both.1)
  · split
    · rename_i out
      split
      · exact two (output out) zero
      · split
        · exact heldOnly rfl (output out)
        · exact heldOnly rfl (output out)
    · rename_i out
      have mine := input (either.resolve_right out)
      split
      · exact two null mine
      · split
        · exact heldOnly rfl mine
        · exact heldOnly rfl mine

theorem sendfileResultRuns {op : SendfileOp} {inMap outMap : FdMap} {inItem outItem : FdItem}
    (either : supportedType inMap.type = true ∨ supportedType outMap.type = true)
    (inMember : inItem ∈ s.items) (outMember : outItem ∈ s.items)
    (input : s.fdMaps.read inItem.fdMap = some inMap)
    (output : s.fdMaps.read outItem.fdMap = some outMap) :
    Runs env ok (sendfileResult env op inMap outMap) s fun _ s' => Same s s' := by
  rw [sendfileResult]
  split
  · rename_i acts
    obtain ⟨quiet,traced⟩ := sendfileCallTraced env op either (behindMap input)
      (behindMap output)
    have held := sendfileCallHeld env op either (heldItem inMember input)
      (heldItem outMember output)
    exact Steps.getBind
      ((callRuns quiet traced held acts).post fun _ _ same => same ▸ ⟨rfl,rfl,rfl,rfl⟩)
  · split
    · split
      · exact Steps.bind simRuns fun _ _ same => Steps.pure same
      · exact Steps.pure (.refl s)
    · exact Steps.pure (.refl s)

theorem advanceRuns {pid : Int32} {t a : Nat} {retval : Int64} (working : Working ok s pid t)
    (held : InTable s t a) :
    Runs env ok (advance a retval) s fun _ s' => s'.tables = s.tables := by
  obtain ⟨h,table,i,member,mine⟩ := held
  refine Steps.bind (readMapRuns (.inr ⟨i,itemsOf table member,mine⟩)) ?_
  rintro m _ ⟨rfl,live⟩
  exact Steps.modify (.seeked live _ working ⟨h,table,i,member,mine⟩) rfl

theorem sendfileRuns {op : SendfileOp} (asks : Asks ok s op.info.pid)
    (asked : ∀ t, recordTable env s op.info.pid = some t → ok.keys op.outFd ∧
      (env.fixMissing = true ∨ (∃ item, Found s t op.outFd item) → ok.keys op.inFd)) :
    Runs env ok (replicateSendfile env op) s fun _ _ => True := by
  refine Steps.bind (processHtRuns asks) ?_
  rintro r s' ⟨same,which,working⟩
  split
  · exact Steps.pure trivial
  · rename_i t
    have mine := working t rfl
    obtain ⟨key,next⟩ := asked t which.symm
    refine Steps.bind (getFdMapRuns mine key).reached ?_
    rintro r s₁ ⟨edits₁,_,first,none⟩
    split
    · exact Steps.pure trivial
    · clear none
      rename_i outItem
      obtain ⟨out,before⟩ := first outItem rfl
      have key' := next (before.imp_right fun there => ⟨outItem,same.found.mp there⟩)
      have mine₁ := mine.later edits₁
      refine Steps.bind (getFdMapRuns mine₁ key').reached ?_
      rintro r s₂ ⟨edits₂,grew,second,none⟩
      split
      · exact Steps.pure trivial
      · clear none
        rename_i inItem
        have mine₂ := mine₁.later edits₂
        have outHeld := grew.found _ _ _ out
        have inHeld := (second inItem rfl).1
        refine Steps.bind (foundMapRuns outHeld) ?_
        rintro outMap _ ⟨rfl,outLive⟩
        refine Steps.bind (foundMapRuns inHeld) ?_
        rintro inMap _ ⟨rfl,inLive⟩
        split
        · rename_i either
          refine Steps.bind
            (sendfileResultRuns either inHeld.member outHeld.member inLive outLive).reached ?_
          rintro retval s₃ ⟨edits₃,same₃⟩
          have mine₃ := mine₂.later edits₃
          split
          · exact Steps.pure trivial
          · have input : Runs env ok (advanceInput op retval inItem.fdMap) s₃
                fun _ s₄ => s₄.tables = s₃.tables := by
              rw [advanceInput]
              split
              · exact advanceRuns mine₃ (same₃.found.mpr inHeld).inTable
              · exact Steps.pure rfl
            refine Steps.bind input.reached ?_
            rintro _ s₄ ⟨edits₄,later⟩
            refine (advanceRuns (mine₃.later edits₄) ?_).post fun _ _ _ => trivial
            rw [InTable,later]
            exact (same₃.found.mpr outHeld).inTable
        · exact Steps.pure trivial

end Items

section Closing

/-- What a close leaves: the items of the other descriptors, room for its own, and no more parents
with its number. -/
structure Spared (s s' : State) (fd : Int32) : Prop where
  items : ∀ i ∈ s.items, i.oldFd ≠ fd → i ∈ s'.items
  room : ∀ a m m', s.fdMaps.read a = some m → s'.fdMaps.read a = some m' →
    HasRoom m fd → HasRoom m' fd
  absent : ∀ a m m', s.fdMaps.read a = some m → s'.fdMaps.read a = some m' →
    fd ∉ m.parentFds → fd ∉ m'.parentFds

theorem Kept.spared {s s' : State} (kept : Kept s s') (fd : Int32) : Spared s s' fd where
  items := fun i member _ => kept.items i member
  room := fun a m m' live live' room => by
    cases Option.some.inj ((kept.maps a m live).symm.trans live')
    exact room
  absent := fun a m m' live live' absent => by
    cases Option.some.inj ((kept.maps a m live).symm.trans live')
    exact absent

theorem Spared.trans {s t u : State} {fd : Int32} (kept : Kept s t) (b : Spared t u fd) :
    Spared s u fd where
  items := fun i member other => b.items i (kept.items i member) other
  room := fun a m m' live live' room => b.room a m m' (kept.maps a m live) live' room
  absent := fun a m m' live live' absent => b.absent a m m' (kept.maps a m live) live' absent

def Cleared (s : State) (a : Nat) (fd : Int32) : Prop :=
  (∀ m, s.fdMaps.read a = some m → fd ∉ m.parentFds) ∨ CloseFailed s

theorem deletedAbsent {m m' : FdMap} {stored : List Int32} {last : Bool} {fd : Int32}
    (parents : Parents m stored) (present : fd ∈ stored)
    (ran : deleteParentFd m fd = .ok (m',last)) : fd ∉ m'.parentFds := by
  obtain ⟨stored',less,perm,_⟩ := deleteParentStored parents present ran
  have gone : fd ∉ stored' := (List.nodup_cons.mp (perm.symm.nodup parents.nodup)).1
  have valid : fd ≠ -1 := fun eq => parents.real (eq ▸ present)
  rw [less.array]
  simp [gone,valid]

theorem closedSpared {s s' : State} {item : FdItem} {m m' : FdMap} {last : Bool} (owned : Owned s)
    (perm : (item :: s'.items).Perm s.items) (live : s.fdMaps.read item.fdMap = some m)
    (deleted : deleteParentFd m item.oldFd = .ok (m',last))
    (maps : s'.fdMaps = if last then s.fdMaps.free item.fdMap else s.fdMaps.write item.fdMap m') :
    Spared s s' item.oldFd ∧ Cleared s' item.fdMap item.oldFd := by
  obtain ⟨m₀,stored,live₀,parents,present⟩ :=
    owned.parents item (perm.mem_iff.mp List.mem_cons_self)
  cases Option.some.inj (live.symm.trans live₀)
  have mine (m₂ : FdMap) (after : s'.fdMaps.read item.fdMap = some m₂) : m₂ = m' := by
    cases last with
    | true =>
      rw [maps,if_pos rfl,Arena.readFree] at after
      exact absurd after (by simp)
    | false =>
      rw [maps,if_neg (by simp),Arena.readWrite _ live] at after
      exact (Option.some.inj after).symm
  have other {a : Nat} (different : a ≠ item.fdMap) : s'.fdMaps.read a = s.fdMaps.read a := by
    rw [maps]
    split
    · exact Arena.readFreeNe _ different
    · exact Arena.readWriteNe _ _ different
  have gone := deletedAbsent parents present deleted
  refine ⟨⟨?_,?_,?_⟩,.inl fun m₂ after => mine m₂ after ▸ gone⟩
  · intro i member different
    rcases List.mem_cons.mp (perm.mem_iff.mpr member) with rfl | stays
    · exact absurd rfl different
    · exact stays
  · intro a m₁ m₂ before after room
    by_cases same : a = item.fdMap
    · subst same
      rw [mine m₂ after]
      obtain ⟨stored',less,left,_⟩ := deleteParentStored parents present deleted
      have valid : item.oldFd ≠ -1 := fun eq => parents.real (eq ▸ present)
      have fewer := left.length_eq
      have small := parents.small
      refine (hasRoomStored less valid).mpr (.inr ?_)
      simp only [List.length_cons] at fewer
      omega
    · rw [other same,before] at after
      cases Option.some.inj after
      exact room
  · intro a m₁ m₂ before after absent
    by_cases same : a = item.fdMap
    · subst same
      exact mine m₂ after ▸ gone
    · rw [other same,before] at after
      cases Option.some.inj after
      exact absent

theorem removeSome {h : HashTable FdItem} {fd : Int32} {r : Option FdItem}
    (found : h.find htOpsFdItem fd = some r) : ∃ h', h.remove htOpsFdItem fd = some h' := by
  obtain ⟨c,hashed,_⟩ := Option.map_eq_some_iff.mp found
  exact ⟨_,by rw [HashTable.remove,hashed]; rfl⟩

theorem removeItemRun {s : State} {t : Nat} {fd : Int32} {h h' : HashTable FdItem}
    (item : FdItem) (m : FdMap) (table : s.tables[t]? = some h)
    (removed : h.remove htOpsFdItem fd = some h') :
    (∃ f, deleteParentFd m fd = .error f ∧ removeItem t fd item m s = .error (.fd f)) ∨
    ∃ m' last, deleteParentFd m fd = .ok (m',last) ∧
      removeItem t fd item m s = .ok ((),{ s with
        tables := s.tables.set t h',
        fdMaps := if last then s.fdMaps.free item.fdMap else s.fdMaps.write item.fdMap m' }) := by
  cases deleted : deleteParentFd m fd with
  | error f =>
    refine .inl ⟨f,rfl,?_⟩
    simp [removeItem,deleted,ofFd,Prog.bindRun]
  | ok r =>
    obtain ⟨m',last⟩ := r
    refine .inr ⟨m',last,rfl,?_⟩
    cases last with
    | true => simp [removeItem,deleted,ofFd,Prog.bindRun,writeMap,readTable,table,removed,key,
        Arena.free,Arena.write]
    | false => simp [removeItem,deleted,ofFd,Prog.bindRun,writeMap,readTable,table,removed,key]

theorem closeUsageRun (env : Env) (m : FdMap) (s : State) :
    (∃ f, supportedType m.type = true ∧ decreaseFdUsage s.usageMap m.myFd = .error f ∧
      closeUsage env m s = .error (.fd f)) ∨
    (∃ r s₁, r ≠ -1 ∧ Release env s m s₁ ∧ closeUsage env m s = .ok (r,s₁)) ∨
    ∃ usage, decreaseFdUsage s.usageMap m.myFd = .ok (usage,true) ∧
      s.answer env (.close m.myFd) = -1 ∧ supportedType m.type = true ∧
      env.actReplicate = true ∧ closeUsage env m s =
        .ok (-1,State.logged env { s with usageMap := usage } (.close m.myFd)) := by
  rw [closeUsage]
  by_cases supported : supportedType m.type = true
  · rw [if_pos supported,Prog.bindOf (Prog.getRun s)]
    cases used : decreaseFdUsage s.usageMap m.myFd with
    | error f => exact .inl ⟨f,supported,rfl,rfl⟩
    | ok r =>
      obtain ⟨usage,last⟩ := r
      rw [ofFd,Prog.bindOf (Prog.pureRun _ s)]
      dsimp only
      rw [Prog.bindOf (Prog.modifyRun _ s)]
      cases last with
      | false =>
        refine .inr (.inl ⟨0,_,by decide,.kept supported used,?_⟩)
        simp
      | true =>
        by_cases acts : env.actReplicate = true
        · by_cases failed : s.answer env (.close m.myFd) = -1
          · refine .inr (.inr ⟨usage,rfl,failed,supported,acts,?_⟩)
            rw [if_pos ⟨rfl,acts⟩,← failed]
            rfl
          · refine .inr (.inl ⟨_,_,failed,.closed supported used acts failed,?_⟩)
            rw [if_pos ⟨rfl,acts⟩]
            rfl
        · refine .inr (.inl ⟨0,_,by decide,.simulated supported used (by simpa using acts),?_⟩)
          rw [if_neg fun both => acts both.2]
          rfl
  · refine .inr (.inl ⟨0,s,by decide,.untracked (by simpa using supported),?_⟩)
    rw [if_neg supported]
    rfl

theorem usageStop {s : State} {item : FdItem} {m : FdMap} {f : FdFault} (there : item ∈ s.items)
    (live : s.fdMaps.read item.fdMap = some m) (supported : supportedType m.type = true)
    (failed : decreaseFdUsage s.usageMap m.myFd = .error f) : Stop env ok s (.fd f) := by
  rcases decreaseError failed with rfl | ⟨rfl,refused⟩ | ⟨rfl,none⟩
  · exact .overflow
  · exact .tracked live (.usage refused)
  · exact .missing there live supported none

theorem closeItemRuns {pid : Int32} {t : Nat} {fd : Int32} {item : FdItem} {s : State}
    (working : Working ok s pid t) (found : Found s t fd item)
    (owned : ¬ ok.careless → Owned s) :
    Runs env ok (do
      let m ← readMap item.fdMap
      let retval ← closeUsage env m
      if retval = -1 then pure () else removeItem t fd item m) s
      fun _ s' => ¬ ok.careless → Spared s s' fd ∧ Cleared s' item.fdMap fd := by
  refine Steps.bind (foundMapRuns found) ?_
  rintro m _ ⟨rfl,live⟩
  rename_i s
  obtain ⟨h,table,first⟩ := found.held
  obtain ⟨h',removed⟩ := removeSome first
  have oldFd := found.oldFd
  rcases closeUsageRun env m s with
    ⟨f,supported,failed,ran⟩ | ⟨r,s₁,kept,release,ran⟩ | ⟨usage,used,failed,supported,acts,ran⟩
  · exact Steps.ofError (Prog.bindError.mpr (.inl ran))
      (usageStop found.member live supported failed)
  · obtain ⟨tables,maps⟩ := release.same
    rcases removeItemRun item m (tables ▸ table : s₁.tables[t]? = some h) removed with
      ⟨f,failed,stops⟩ | ⟨m',last,deleted,ends⟩
    · refine Steps.ofError (e := .fd f) ?_ (.parent found.member live (oldFd.symm ▸ failed))
      rw [Prog.bindOf ran,if_neg kept]
      exact stops
    · rw [tables,maps] at ends
      refine Steps.ofOk (by rw [Prog.bindOf ran,if_neg kept]; exact ends)
        (.single (.closed table first live release deleted removed working)) fun careful => ?_
      subst oldFd
      exact closedSpared (owned careful) (removedItems table first removed) live deleted rfl
  · refine Steps.ofOk (a := ()) (by rw [Prog.bindOf ran,if_pos rfl]; rfl)
      (.single (.closeFailed found.member live supported used failed acts)) fun _ => ?_
    have same : Same s (State.logged env { s with usageMap := usage } (.close m.myFd)) :=
      ⟨rfl,rfl,rfl,rfl⟩
    exact ⟨same.grew.toKept.spared fd,.inr ⟨m.myFd,_,List.mem_cons_self,failed⟩⟩

theorem closeRuns {op : CloseOp} {s : State} (asks : Asks ok s op.info.pid)
    (asked : ∀ t, recordTable env s op.info.pid = some t → ok.keys op.fd)
    (owned : ¬ ok.careless → Owned s) :
    Runs env ok (replicateClose env op) s fun _ s' => ¬ ok.careless → Spared s s' op.fd ∧
      ∀ t item, recordTable env s op.info.pid = some t → Found s t op.fd item →
        Cleared s' item.fdMap op.fd := by
  refine withItemRuns asks asked ?_ ?_
  · intro s' grew absent _
    exact ⟨grew.toKept.spared op.fd,fun t item table there => absurd there (absent t item table)⟩
  · intro t item s' table grew found _ working edits
    have still : ¬ ok.careless → Owned s' := fun careful =>
      Prog.keptByEdits Owned (fun _ _ => ownedEdit careful) edits (owned careful)
    refine (closeItemRuns working found still).post fun _ s'' closed careful => ?_
    obtain ⟨spared,cleared⟩ := closed careful
    refine ⟨Spared.trans grew.toKept spared,fun u target again there => ?_⟩
    cases Option.some.inj (table.symm.trans again)
    rw [(grew.found _ _ _ there).unique found]
    exact cleared

end Closing

section Duplicating

def Roomy (env : Env) (s : State) (op : DupOp) : Prop :=
  ∀ t ∈ recordTable env s op.info.pid, ∀ h ∈ s.tables[t]?, ∀ r ∈ h.find htOpsFdItem op.oldFd,
    ∀ item ∈ r, ∀ m ∈ s.fdMaps.read item.fdMap, HasRoom m op.retval

def CarefulDup (env : Env) (s : State) (op : DupOp) : Prop :=
  op.retval ≠ -1 → op.oldFd ≠ op.retval ∧ Roomy env s op

def carefulOp (env : Env) (s : State) : Op → Prop
  | .dup o | .dup2 o | .dup3 o => CarefulDup env s o
  | _ => True

def FreshDup (env : Env) (s : State) (op : DupOp) : Prop :=
  ∀ t ∈ recordTable env s op.info.pid, ∀ h ∈ s.tables[t]?, ∀ r ∈ h.find htOpsFdItem op.oldFd,
    ∀ item ∈ r, ∀ m ∈ s.fdMaps.read item.fdMap, op.retval ∈ m.parentFds →
      ∃ q ∈ h.find htOpsFdItem op.retval, ∃ target ∈ q, target.fdMap = item.fdMap

def freshOp (env : Env) (s : State) : Op → Prop
  | .dup o | .dup2 o | .dup3 o => FreshDup env s o
  | _ => True

instance {m : FdMap} {fd : Int32} : Decidable (HasRoom m fd) :=
  inferInstanceAs (Decidable (_ ∨ _))

instance {env : Env} {s : State} {op : DupOp} : Decidable (CarefulDup env s op) :=
  inferInstanceAs (Decidable (_ → _ ∧ ∀ t ∈ _, ∀ h ∈ _, ∀ r ∈ _, ∀ item ∈ _, ∀ m ∈ _, _))

instance {env : Env} {s : State} {op : Op} : Decidable (carefulOp env s op) :=
  match op with
  | .dup o | .dup2 o | .dup3 o => inferInstanceAs (Decidable (CarefulDup env s o))
  | .write _ | .read _ | .pwrite _ | .pread _ | .open _ | .close _ | .unlink _ | .lseek _
  | .llseek _ | .clone _ | .mkdir _ | .rmdir _ | .pipe _ | .access _ | .stat _ | .socket _
  | .sendfile _ => .isTrue trivial

instance {env : Env} {s : State} {op : DupOp} : Decidable (FreshDup env s op) :=
  inferInstanceAs (Decidable
    (∀ t ∈ _, ∀ h ∈ _, ∀ r ∈ _, ∀ item ∈ _, ∀ m ∈ _, _ → ∃ q ∈ _, ∃ target ∈ _, _))

instance {env : Env} {s : State} {op : Op} : Decidable (freshOp env s op) :=
  match op with
  | .dup o | .dup2 o | .dup3 o => inferInstanceAs (Decidable (FreshDup env s o))
  | .write _ | .read _ | .pwrite _ | .pread _ | .open _ | .close _ | .unlink _ | .lseek _
  | .llseek _ | .clone _ | .mkdir _ | .rmdir _ | .pipe _ | .access _ | .stat _ | .socket _
  | .sendfile _ => .isTrue trivial

theorem aliasItemRun (t : Nat) {item : FdItem} (newFd : Int32) {m : FdMap} {s : State}
    (checked : checkItem item s = .ok ((),s)) (live : s.fdMaps.read item.fdMap = some m) :
    (∃ f, (f = .fd .parentPresent ∧ newFd ∈ m.parentFds ∨ PutStop s t newFd m.myFd f) ∧
      aliasItem t item newFd s = .error f) ∨
    ∃ m' h h' usage, insertParentFd m newFd = .ok m' ∧ s.tables[t]? = some h ∧
      h.insert htOpsFdItem newFd ⟨s.nextItem,newFd,item.fdMap⟩ = some h' ∧
      increaseFdUsage s.usageMap m.myFd = .ok usage ∧
      aliasItem t item newFd s = .ok ((),{ s with
        fdMaps := s.fdMaps.write item.fdMap m', tables := s.tables.set t h',
        nextItem := s.nextItem + 1, usageMap := usage }) := by
  have read : readMap item.fdMap s = .ok (m,s) := by simp [readMap,Prog.bindRun,live]
  rw [aliasItem,Prog.bindOf checked,Prog.bindOf read]
  cases stored : insertParentFd m newFd with
  | error f =>
    obtain ⟨rfl,present⟩ := insertParentError stored
    exact .inl ⟨.fd .parentPresent,.inl ⟨rfl,present⟩,rfl⟩
  | ok m' =>
    have again := Arena.readWrite m' live
    have mine := (insertParentAlike stored).mine
    rw [ofFd,Prog.bindOf (Prog.pureRun m' s),writeMap,Prog.bindOf (Prog.modifyRun _ s)]
    cases table : s.tables[t]? with
    | none =>
      refine .inl ⟨.nullTable,.inr (.noTable table),?_⟩
      simp [Prog.bindRun,insertItem,readTable,table]
    | some h =>
      cases inserted : h.insert htOpsFdItem newFd ⟨s.nextItem,newFd,item.fdMap⟩ with
      | none =>
        refine .inl ⟨.fd .negativeKey,
          .inr (.key (.inl (.item table (Option.map_eq_none_iff.mp inserted)))),?_⟩
        simp [Prog.bindRun,insertItem,readTable,table,key,inserted]
      | some h' =>
        cases used : increaseFdUsage s.usageMap m.myFd with
        | error f =>
          refine .inl ⟨.fd f,.inr ?_,?_⟩
          · rcases increaseError used with rfl | ⟨rfl,refused⟩
            · exact .overflow
            · exact .key (.inr (.usage refused))
          · simp [Prog.bindRun,insertItem,readTable,table,key,inserted,readMap,again,
              increaseUsage,mine,used,ofFd]
        | ok usage =>
          refine .inr ⟨m',h,h',usage,rfl,rfl,inserted,rfl,?_⟩
          simp [Prog.bindRun,insertItem,readTable,table,key,inserted,readMap,again,increaseUsage,
            mine,used,ofFd]

theorem checkItemRun (item : FdItem) (s : State) :
    (∃ i ∈ s.items, i.id = item.id) ∧ checkItem item s = .ok ((),s) ∨
    (¬ ∃ i ∈ s.items, i.id = item.id) ∧ checkItem item s = .error .useAfterFree := by
  have same : (s.tables.any fun h => h.items.any fun i => i.id = item.id) = true ↔
      ∃ i ∈ s.items, i.id = item.id := by
    simp only [List.any_eq_true,decide_eq_true_eq,State.items,List.mem_flatMap]
    constructor
    · rintro ⟨h,table,i,member,eq⟩
      exact ⟨i,⟨h,table,member⟩,eq⟩
    · rintro ⟨i,⟨h,table,member⟩,eq⟩
      exact ⟨h,table,i,member,eq⟩
  rw [checkItem,Prog.bindOf (Prog.getRun s)]
  by_cases there : ∃ i ∈ s.items, i.id = item.id
  · exact .inl ⟨there,by rw [if_pos (same.mpr there)]; rfl⟩
  · exact .inr ⟨there,by rw [if_neg (fun eq => there (same.mp eq))]; rfl⟩

theorem aliasItemRuns {pid : Int32} {t : Nat} {item : FdItem} {newFd : Int32} {s : State}
    (working : Working ok s pid t) (asked : ok.keys newFd) (valid : newFd ≠ -1)
    (careful : ¬ ok.careless → item ∈ s.items ∧
      ∀ m, s.fdMaps.read item.fdMap = some m → HasRoom m newFd)
    (fresh : ¬ ok.careless → ¬ ok.stale → Cleared s item.fdMap newFd)
    (held : ¬ ok.loose → (∃ i ∈ s.items, i.id = item.id) → InTable s t item.fdMap) :
    Runs env ok (aliasItem t item newFd) s fun _ _ => True := by
  rcases checkItemRun item s with ⟨there,checked⟩ | ⟨gone,failed⟩
  · cases live : s.fdMaps.read item.fdMap with
    | none =>
      refine Steps.ofError (e := .useAfterFree) ?_ (.freed ?_)
      · rw [aliasItem,Prog.bindOf checked]
        simp [Prog.bindRun,readMap,live]
      · by_cases careless : ok.careless
        · exact .inr careless
        · exact .inl ⟨item,(careful careless).1,live⟩
    | some m =>
      rcases aliasItemRun t newFd checked live with
        ⟨f,why,ran⟩ | ⟨m',h,h',usage,stored,table,inserted,used,ran⟩
      · refine Steps.ofError ran ?_
        rcases why with ⟨rfl,present⟩ | why
        · refine .present ?_
          by_cases careless : ok.careless
          · exact .inl careless
          · by_cases stale : ok.stale
            · exact .inr (.inl stale)
            · rcases fresh careless stale with absent | failed
              · exact absurd present (absent m live)
              · exact .inr (.inr failed)
        · exact why.stop (.noTable working.table) (.asked (.inl asked)) (.tracked live)
      · refine Steps.ofOk ran (.single
          (.aliased ?_ live stored valid table inserted used working ?_)) trivial
        · by_cases careless : ok.careless
          · exact .inl careless
          · exact .inr ⟨(careful careless).1,(careful careless).2 m live⟩
        · by_cases loose : ok.loose
          · exact .inl loose
          · exact .inr (held loose there)
  · refine Steps.ofError (e := .useAfterFree) (Prog.bindError.mpr (.inl failed)) (.freed (.inr ?_))
    by_contra careless
    exact gone ⟨item,(careful careless).1,rfl⟩

theorem closeTargetRuns {op : DupOp} {t : Nat} {s : State} {source : FdItem}
    (working : Working ok s op.info.pid t) (askedOld : ok.keys op.oldFd)
    (asked : ok.keys op.retval) (found : Found s t op.oldFd source)
    (owned : ¬ ok.careless → Owned s) :
    Runs env ok (closeTarget env op t) s fun _ s' => ¬ ok.careless → Spared s s' op.retval ∧
      ∀ item, Found s t op.retval item → Cleared s' item.fdMap op.retval := by
  refine Steps.bind (findItemRuns working askedOld) ?_
  rintro r _ ⟨rfl,_,first⟩
  split
  · refine (closeRuns working.asks (fun _ _ => asked) owned).post fun _ s' closed careful => ?_
    obtain ⟨spared,cleared⟩ := closed careful
    exact ⟨spared,fun item there => cleared t item (recordOf working.table) there⟩
  · rename_i none
    rw [(first source).mpr found] at none
    exact absurd rfl none

theorem dupRuns {op : DupOp} {s : State} (asks : op.retval ≠ -1 → Asks ok s op.info.pid)
    (asked : op.retval ≠ -1 → ∀ t, recordTable env s op.info.pid = some t → ok.keys op.oldFd ∧
      (env.fixMissing = true ∨ (∃ item, Found s t op.oldFd item) → ok.keys op.retval))
    (careful : ¬ ok.careless → Owned s ∧ CarefulDup env s op)
    (fresh : ¬ ok.stale → FreshDup env s op) (stamped : ¬ ok.loose → Stamped s) :
    Runs env ok (replicateDup env op) s fun _ _ => True := by
  rw [replicateDup]
  split
  · exact Steps.pure trivial
  · rename_i valid
    refine withItemRuns (asks valid) (fun t table => (asked valid t table).1)
      (fun _ _ _ => trivial) ?_
    intro t item s₁ table grew found before working edits
    obtain ⟨askedOld,next⟩ := asked valid t table
    have askedNew := next (before.imp_right fun there => ⟨item,there⟩)
    have owned₁ (c : ¬ ok.careless) : Owned s₁ :=
      Prog.keptByEdits Owned (fun _ _ => ownedEdit c) edits (careful c).1
    have stamped₁ (c : ¬ ok.loose) : Stamped s₁ :=
      Prog.keptByEdits Stamped (fun _ _ => stampedEdit) edits (stamped c)
    refine Steps.bind (closeTargetRuns working askedOld askedNew found owned₁).reached ?_
    rintro _ s₂ ⟨more,closed⟩
    refine aliasItemRuns (working.later more) askedNew valid (fun c => ?_) (fun c stale => ?_)
      fun c there => ?_
    · obtain ⟨other,roomy⟩ := (careful c).2 valid
      obtain ⟨spared,_⟩ := closed c
      have oldFd := found.oldFd
      have there : item ∈ s₂.items :=
        spared.items item found.member (by rw [oldFd]; exact other)
      refine ⟨there,fun m₂ live₂ => ?_⟩
      -- the array had room before the target was closed
      rcases grew.fresh t op.oldFd item found with old | ⟨m,live,parents⟩
      · obtain ⟨m,_,live,_⟩ := (careful c).1.parents item old.member
        obtain ⟨h,inside,first⟩ := old.held
        exact spared.room _ _ _ (grew.maps _ _ live) live₂
          (roomy t table h inside _ first item rfl m live)
      · refine spared.room _ _ _ live live₂ ?_
        exact (hasRoomStored parents valid).mpr (.inr (by simp [MAX_PARENT_IDS]))
    · obtain ⟨spared,cleared⟩ := closed c
      have other := ((careful c).2 valid).1
      have absent {m : FdMap} (live : s₁.fdMaps.read item.fdMap = some m)
          (unlisted : op.retval ∉ m.parentFds) : Cleared s₂ item.fdMap op.retval :=
        .inl fun m₂ live₂ => spared.absent _ _ _ live live₂ unlisted
      rcases grew.fresh t op.oldFd item found with old | ⟨m,live,parents⟩
      · obtain ⟨m,_,live,_⟩ := (careful c).1.parents item old.member
        obtain ⟨h,inside,first⟩ := old.held
        by_cases listed : op.retval ∈ m.parentFds
        · obtain ⟨q,second,target,same,shares⟩ :=
            fresh stale t table h inside _ first item rfl m live listed
          cases same
          rw [← shares]
          exact cleared target (grew.found _ _ _ ⟨h,inside,second⟩)
        · exact absent (grew.maps _ _ live) listed
      · refine absent live ?_
        rw [parents.array,found.oldFd]
        simp [Ne.symm other,valid]
    · have older : Older s₁ s₂ :=
        Prog.keptByEdits (Older s₁) (fun _ _ => olderEdit) more (Older.refl s₁)
      exact older.inTable (stamped₁ c) found there

end Duplicating
def Seeks : Op → Prop
  | .unlink _ | .mkdir _ | .rmdir _ | .access _ | .stat _ | .clone _ => False
  | .open o => o.retval ≠ -1
  | .dup o | .dup2 o | .dup3 o => o.retval ≠ -1
  | .pipe o => o.retval ≠ -1
  | .socket o => o.retval ≠ -1
  | .write _ | .read _ | .pwrite _ | .pread _ | .close _ | .lseek _ | .llseek _
  | .sendfile _ => True

def wanted (env : Env) (s : State) (t : Nat) : Op → List Int32
  | .write o => [o.fd]
  | .read o => [o.fd]
  | .pwrite o => [o.fd]
  | .pread o => [o.fd]
  | .close o => [o.fd]
  | .lseek o => [o.fd]
  | .llseek o => [o.fd]
  | .open o => [o.retval]
  | .socket o => [o.retval]
  | .dup o | .dup2 o | .dup3 o =>
    if env.fixMissing ∨ (itemOf s t o.oldFd).isSome then [o.oldFd,o.retval] else [o.oldFd]
  | .pipe o => if (itemOf s t o.fd1).isSome then [o.fd1] else [o.fd1,o.fd2]
  | .sendfile o =>
    if env.fixMissing ∨ (itemOf s t o.outFd).isSome then [o.outFd,o.inFd] else [o.outFd]
  | .unlink _ | .mkdir _ | .rmdir _ | .access _ | .stat _ | .clone _ => []

theorem wantedPair {c : Prop} [Decidable c] {p : Int32 → Prop} {a b : Int32}
    (all : ∀ fd ∈ if c then [a,b] else [a], p fd) : p a ∧ (c → p b) := by
  by_cases both : c
  · rw [if_pos both] at all
    exact ⟨all a (by simp),fun _ => all b (by simp)⟩
  · rw [if_neg both] at all
    exact ⟨all a (by simp),fun holds => absurd holds both⟩

/-- What the operation asks of a run: its pipe's ends are noted, only a clone adds tables, where
care is taken its dup is careful and onto no left alias, and what it looks up and the numbers it
draws are allowed. -/
structure Permits (env : Env) (ok : Allowed) (s : State) (op : Op) : Prop where
  pipes : ∀ o, op = .pipe o → o.retval ≠ -1 → ok.pipeEnd o.fd1 ∧ ok.pipeEnd o.fd2
  clones : ∀ o, op = .clone o → ok.copies ∧ AsksClone ok s o.retval o.info.pid
  dups : ¬ ok.careless → Owned s ∧ carefulOp env s op
  fresh : ¬ ok.stale → freshOp env s op
  stamped : ¬ ok.loose → Stamped s
  asks : Seeks op → Asks ok s op.info.pid
  asked : Seeks op → ∀ t, recordTable env s op.info.pid = some t →
    ∀ fd ∈ wanted env s t op, ok.keys fd
  pipeNumbers : ∀ o, op = .pipe o → o.retval ≠ -1 → ∀ n, countDown s.pipeFd = .ok n →
    ok.drawn n ∧ ∀ n', countDown n = .ok n' → ok.drawn n'
  socketNumbers : ∀ o, op = .socket o → o.retval ≠ -1 → ∀ n, countDown s.socketFd = .ok n →
    ok.drawn n

theorem asksClone {s : State} {child parent : Int32} (keys : ∀ k, ok.keys k)
    (orphans : ok.orphans) : AsksClone ok s child parent :=
  ⟨keys child,fun _ => .inl (keys parent),.inl orphans⟩

structure Allowed.Lax (ok : Allowed) : Prop where
  stale : ok.stale
  loose : ok.loose
  orphans : ok.orphans
  keys : ∀ k, ok.keys k
  pids : ∀ pid, ok.pids pid
  drawn : ∀ n, ok.drawn n

theorem Allowed.anyLax : Allowed.any.Lax :=
  ⟨trivial,trivial,trivial,fun _ => trivial,fun _ => trivial,fun _ => trivial⟩

theorem Allowed.Lax.permits {s : State} {op : Op} (lax : ok.Lax)
    (pipes : ∀ o, op = .pipe o → o.retval ≠ -1 → ok.pipeEnd o.fd1 ∧ ok.pipeEnd o.fd2)
    (copies : ∀ o, op = .clone o → ok.copies)
    (dups : ¬ ok.careless → Owned s ∧ carefulOp env s op) : Permits env ok s op where
  pipes := pipes
  clones := fun o clone => ⟨copies o clone,asksClone lax.keys lax.orphans⟩
  dups := dups
  fresh := fun never => absurd lax.stale never
  stamped := fun never => absurd lax.loose never
  asks := fun _ => ⟨lax.keys _,lax.pids _,.inl lax.orphans⟩
  asked := fun _ _ _ fd _ => lax.keys fd
  pipeNumbers := fun _ _ _ n _ => ⟨lax.drawn n,fun n' _ => lax.drawn n'⟩
  socketNumbers := fun _ _ _ n _ => lax.drawn n

theorem anyPermits (env : Env) (s : State) (op : Op) : Permits env .any s op :=
  Allowed.anyLax.permits (fun _ _ _ => ⟨trivial,trivial⟩) (fun _ _ => trivial)
    fun never => absurd trivial never

theorem opRuns {op : Op} {s : State} (permits : Permits env ok s op) :
    Runs env ok (replicateOp env op) s fun _ _ => True := by
  obtain ⟨pipes,clones,dups,fresh,stamped,asks,asked,pipeNumbers,socketNumbers⟩ := permits
  cases op with
  | write o | read o | pwrite o | pread o =>
    simp only [replicateOp,replicateWrite,replicateRead,replicatePwrite,replicatePread]
    exact transferRuns (fun n => ⟨trivial,fun _ _ behind => behind,rfl⟩) (asks trivial)
      fun t table => asked trivial t table _ List.mem_cons_self
  | «open» o =>
    exact (openRuns asks fun opened t table => asked opened t table _ List.mem_cons_self).post
      fun _ _ _ => trivial
  | close o =>
    exact (closeRuns (asks trivial) (fun t table => asked trivial t table _ List.mem_cons_self)
      fun c => (dups c).1).post fun _ _ _ => trivial
  | unlink o | mkdir o | rmdir o | access o | stat o =>
    simp only [replicateOp,replicateUnlink,replicateMkdir,replicateRmdir,replicateAccess,
      replicateStat]
    exact pathRuns fun n => ⟨trivial,fun mapped => mapped,rfl⟩
  | lseek o | llseek o =>
    simp only [replicateOp,replicateLseek,replicateLlseek]
    exact seekRuns (fun n => ⟨trivial,fun _ _ behind => behind,rfl⟩) (asks trivial)
      fun t table => asked trivial t table _ List.mem_cons_self
  | clone o =>
    obtain ⟨copies,known⟩ := clones o rfl
    exact (cloneRuns (fun _ => copies) known).post fun _ _ _ => trivial
  | dup o | dup2 o | dup3 o =>
    refine dupRuns asks (fun valid t table => ?_) dups fresh stamped
    simpa only [foundSome] using wantedPair (asked valid t table)
  | pipe o =>
    refine pipeRuns (pipes o rfl) asks (fun opened t table => ?_) (pipeNumbers o rfl)
    have all := asked opened t table
    rw [wanted,← ite_not] at all
    simpa only [foundNone] using wantedPair all
  | socket o =>
    exact socketRuns asks (fun opened t table => asked opened t table _ List.mem_cons_self)
      (socketNumbers o rfl)
  | sendfile o =>
    refine sendfileRuns (asks trivial) fun t table => ?_
    simpa only [foundSome] using wantedPair (asked trivial t table)

end Runs
end IoApps
