import IoApps.ReplicateSizes

/-! The profile of a trace: its transfers in the order of the trace, against the two tables that
hold them by the names of the files. -/
namespace IoApps
open Lib (Bytes Prog)
open Relation (ReflTransGen)

structure Note where
  dir : Direction
  map : FdMap
  entry : RwOp

def Note.add (sim : Sim) (n : Note) : Sim :=
  sim.setMap (simulateAppendRw (simulateGetSimItem n.map (sim.map n.dir)) n.map.name n.entry) n.dir

/-- What the profile has under a name: what the first transfer found out about the file, and all
its transfers. -/
def profile (notes : List Note) (dir : Direction) (name : CName) : Option SimItem :=
  match notes.filter fun n => n.dir = dir ∧ n.map.name = name with
  | [] => none
  | n :: rest => some ⟨name,n.map.created,n.map.timeOpen,(n :: rest).map Note.entry⟩

section Tables
variable {ht : HashTable SimItem} {notes : List Note} {sim : Sim}

def appended (m : FdMap) (entry : RwOp) : Option SimItem → SimItem
  | none => ⟨m.name,m.created,m.timeOpen,[entry]⟩
  | some item => { item with list := item.list ++ [entry] }

theorem profileAppend (notes : List Note) (n : Note) : profile (notes ++ [n]) n.dir =
    Function.update (profile notes n.dir) n.map.name
      (some (appended n.map n.entry (profile notes n.dir n.map.name))) := by
  funext name
  rcases eq_or_ne name n.map.name with same | other
  · subst same
    rw [Function.update_self,profile,List.filter_append,
      List.filter_cons_of_pos (by simp),List.filter_nil,profile]
    cases notes.filter fun k => k.dir = n.dir ∧ k.map.name = n.map.name with
    | nil => rfl
    | cons k rest =>
      rw [List.cons_append]
      simp [appended]
  · rw [Function.update_of_ne other,profile,List.filter_append,
      List.filter_cons_of_neg (by simp [Ne.symm other]),List.filter_nil,List.append_nil]
    rfl

theorem profileOther (notes : List Note) {n : Note} {dir : Direction} (other : n.dir ≠ dir) :
    profile (notes ++ [n]) dir = profile notes dir := by
  funext name
  rw [profile,List.filter_append,List.filter_cons_of_neg (by simp [other]),List.filter_nil,
    List.append_nil]
  rfl

theorem noteMaps {m : CName → Option SimItem} (sized : ht.entries = HASH_TABLE_SIZE)
    (maps : HashTable.Maps htOpsSim SimItem.name ht m) (fd : FdMap) (entry : RwOp) :
    HashTable.Maps htOpsSim SimItem.name (simulateAppendRw (simulateGetSimItem fd ht) fd.name entry)
      (Function.update m fd.name (some (appended fd entry (m fd.name)))) := by
  obtain ⟨c,hashed⟩ := Option.isSome_iff_exists.mp (simChain sized fd.name)
  have found := maps.found fd.name
  have appends {ht' : HashTable SimItem} {m' : CName → Option SimItem}
      (maps' : HashTable.Maps htOpsSim SimItem.name ht' m')
      (hashed' : ht'.chain htOpsSim fd.name = some c) :
      HashTable.Maps htOpsSim SimItem.name (simulateAppendRw ht' fd.name entry)
        (Function.update m' fd.name ((m' fd.name).map fun item =>
          { item with list := item.list ++ [entry] })) := by
    cases modified : ht'.modify htOpsSim fd.name fun item =>
        { item with list := item.list ++ [entry] } with
    | none =>
      rw [HashTable.modify,hashed'] at modified
      cases modified
    | some ht'' =>
      rw [simulateAppendRw,modified]
      exact maps'.modify (fun _ => rfl) modified
  cases known : m fd.name with
  | some item =>
    rw [known] at found
    have still : simulateGetSimItem fd ht = ht := by rw [simulateGetSimItem,found]
    have next := appends maps hashed
    rw [known] at next
    rw [still]
    exact next
  | none =>
    rw [known] at found
    have inserted : ht.insert htOpsSim fd.name ⟨fd.name,fd.created,fd.timeOpen,[]⟩ =
        some (ht.append c ⟨fd.name,fd.created,fd.timeOpen,[]⟩) := by
      rw [HashTable.insert,hashed,Option.map_some]
    have made : simulateGetSimItem fd ht =
        ht.append c ⟨fd.name,fd.created,fd.timeOpen,[]⟩ := by
      rw [simulateGetSimItem,found,inserted]
      rfl
    have next := appends (maps.insert rfl known inserted) hashed
    rw [Function.update_self,Function.update_idem] at next
    rw [made]
    exact next

structure Profiled (notes : List Note) (sim : Sim) : Prop where
  filled : Filled sim
  maps : ∀ dir, HashTable.Maps htOpsSim SimItem.name (sim.map dir) (profile notes dir)

theorem profiledInit : Profiled [] simulateInit := by
  have maps : HashTable.Maps htOpsSim SimItem.name (.init HASH_TABLE_SIZE) fun _ => none := by
    refine ⟨HashTable.keyedInit (fun _ _ => compareSim) _,fun name => ?_⟩
    obtain ⟨c,hashed⟩ := Option.isSome_iff_exists.mp
      (simChain (show (HashTable.init HASH_TABLE_SIZE).entries = HASH_TABLE_SIZE from rfl) name)
    rw [HashTable.find,hashed]
    rfl
  refine ⟨fun dir => ?_,fun dir => ?_⟩
  · cases dir <;> rfl
  · cases dir <;> exact maps

theorem Profiled.add (profiled : Profiled notes sim) (n : Note) :
    Profiled (notes ++ [n]) (Note.add sim n) := by
  refine ⟨filledNote profiled.filled n.dir n.map n.entry,fun dir => ?_⟩
  rcases eq_or_ne n.dir dir with same | other
  · subst same
    have after : (Note.add sim n).map n.dir =
        simulateAppendRw (simulateGetSimItem n.map (sim.map n.dir)) n.map.name n.entry := by
      rw [Note.add]
      cases n.dir <;> rfl
    rw [after,profileAppend]
    exact noteMaps (profiled.filled n.dir) (profiled.maps n.dir) n.map n.entry
  · have after : (Note.add sim n).map dir = sim.map dir := by
      rw [Note.add]
      revert other
      cases n.dir <;> cases dir <;> intro other <;> first | rfl | exact absurd rfl other
    rw [after,profileOther notes other]
    exact profiled.maps dir

theorem Profiled.adds (profiled : Profiled notes sim) (more : List Note) :
    Profiled (notes ++ more) (more.foldl Note.add sim) := by
  induction more generalizing notes sim with
  | nil =>
    rw [List.append_nil]
    exact profiled
  | cons n rest ih =>
    have next := ih (profiled.add n)
    rwa [List.append_assoc] at next

end Tables
section Step
variable {env : Env} {s s' : State} {sim sim' : Sim}

def Transfer.entry (x : Transfer) (m : FdMap) : RwOp :=
  ⟨x.offset.getD m.curPos.toInt64,x.retval.toUInt64,x.info.start,x.info.dur⟩

def Transfer.notes (env : Env) (s : State) (dir : Direction) (x : Transfer) : List Note :=
  match servedMap env s x.info.pid x.fd x.info with
  | none => []
  | some m => if supportedType m.type ∧ x.retval ≠ -1 then [⟨dir,m,x.entry m⟩] else []

def SendfileOp.notes (o : SendfileOp) (inMap outMap : FdMap) : List Note :=
  if o.retval = -1 then []
  else (if supportedType inMap.type then [⟨.read,inMap,o.readEntry inMap⟩] else []) ++
    if supportedType outMap.type then
      [⟨.write,outMap,sendfileEntry o outMap.curPos.toInt64⟩] else []

def Op.notes (env : Env) (s : State) : Op → List Note
  | .read o => Transfer.notes env s .read ⟨o.fd,o.info,o.retval,none⟩
  | .write o => Transfer.notes env s .write ⟨o.fd,o.info,o.retval,none⟩
  | .pread o => Transfer.notes env s .read ⟨o.fd,o.info,o.retval,some o.offset⟩
  | .pwrite o => Transfer.notes env s .write ⟨o.fd,o.info,o.retval,some o.offset⟩
  | .sendfile o =>
    match servedEnds env o s with
    | .ok (some (inMap,outMap),_) => o.notes inMap outMap
    | _ => []
  | _ => []

variable (mode : env.Notes)
include mode

theorem callStill {c : FsOp} {u : Unit} (ran : simulateCall env.sim c sim = .ok (u,sim')) :
    sim' = sim := by
  have still {α : Type} {m : SimfsProg α} (ran : ifChecking env.sim m sim = .ok (u,sim')) :
      sim' = sim := by
    unfold ifChecking at ran
    rw [if_neg (by rw [mode.unchecked]; simp)] at ran
    cases ran
    rfl
  cases c with
  | access | stat | mkdir | creat | unlink | rmdir => exact still ran

theorem suppliesQuiet : Supplies env (fun _ _ => False) := by
  refine fun op _ _ => ⟨fun name sim u sim' ran => ?_⟩
  rw [callStill mode (c := .creat { op with name := name }) ran]

theorem servedQuiet {pid fd : Int32} {info : OpInfo} {r : Option FdItem}
    (ran : served env pid fd info s = .ok (r,s')) : s'.sim = s.sim := by
  have within : Within (fun _ _ => False) (served env pid fd info) := by
    refine .bind (processHtWithin pid) fun r => ?_
    cases r with
    | none => exact .pure _
    | some t => exact getFdMapWithin (suppliesQuiet mode) t fd info
  exact within.quiet ran

theorem servedEndsQuiet {o : SendfileOp} {r : Option (FdMap × FdMap)}
    (ran : servedEnds env o s = .ok (r,s')) : s'.sim = s.sim := by
  have supplies := suppliesQuiet mode
  have within : Within (fun _ _ => False) (servedEnds env o) := by
    refine .bind (processHtWithin _) fun r => ?_
    cases r with
    | none => exact .pure _
    | some t =>
      refine .bind (getFdMapWithin supplies t _ _) fun r => ?_
      cases r with
      | none => exact .pure _
      | some outItem =>
        refine .bind (getFdMapWithin supplies t _ _) fun r => ?_
        cases r with
        | none => exact .pure _
        | some inItem =>
          exact .bind (readMapWithin _) fun _ => .bind (readMapWithin _) fun _ => .pure _
  exact within.quiet ran

theorem rwAdds {dir : Direction} {m : FdMap} {off : UInt64} {offset retval : Int64} {info : OpInfo}
    (ran : simulateRw env.sim dir m off offset retval info sim = .ok ((),sim')) :
    sim' = Note.add sim ⟨dir,m,⟨offset,retval.toUInt64,info.start,info.dur⟩⟩ := by
  obtain ⟨r,s₁,found,rest⟩ := Prog.bindOk.mp ran
  obtain ⟨_,again⟩ := simfsNodeNamed (simfsNodeNames found) sim
  cases again.symm.trans found
  dsimp only at rest
  rw [if_neg (by rw [mode.unchecked]; simp),if_pos mode.noting] at rest
  cases rest
  rfl

theorem transferAdds {dir : Direction} (x : Transfer) (moves : Bool) (off : FdMap → UInt64)
    (replay : Int32 → Call) (ran : replicateTransfer env x.fd x.info x.retval moves (fun m =>
      simulateRw env.sim dir m (off m) (x.entry m).offset x.retval x.info) replay s =
        .ok ((),s')) :
    s'.sim = (x.notes env s dir).foldl Note.add s.sim := by
  obtain ⟨r,s₁,whole,ends⟩ := transferServed mode.simulates ran
  have quiet := servedQuiet mode whole
  rw [Transfer.notes]
  rcases ends with ⟨none,same⟩ | ⟨m,map,ends⟩
  · rw [none,same,quiet]
    rfl
  · rw [map]
    dsimp only
    split at ends
    · rename_i both
      rw [if_pos both,rwAdds mode ends,quiet]
      rfl
    · rename_i nothing
      rw [if_neg nothing,ends,quiet]
      rfl

theorem endsAdd {o : SendfileOp} {inItem outItem : FdItem} {inMap outMap : FdMap}
    (ran : sendfileActs env o inItem outItem inMap outMap s = .ok ((),s')) :
    s'.sim = (o.notes inMap outMap).foldl Note.add s.sim := by
  unfold sendfileActs at ran
  split at ran
  · obtain ⟨retval,s₁,result,last⟩ := Prog.bindOk.mp ran
    rw [(advanceQuiet o retval inItem outItem).quiet last]
    unfold sendfileResult at result
    rw [if_neg (by simp [mode.idle]),if_pos mode.simulates] at result
    split at result
    · rename_i succeeded
      rw [SendfileOp.notes,if_neg succeeded]
      obtain ⟨_,s₂,one,done⟩ := Prog.bindOk.mp result
      cases done
      have sends := onSimRan one
      by_cases output : supportedType outMap.type = true
      · rw [if_pos output] at sends
        have noted := ((simulateSendfileEnds mode.noting mode.unchecked _ _ _).mp sends).2.2
        rw [noted,if_pos output]
        by_cases input : supportedType inMap.type = true
        · rw [if_pos input,if_pos input]
          rfl
        · rw [if_neg input,if_neg input]
          rfl
      · rw [if_neg output] at sends
        cases sends
    · rename_i failed
      rw [SendfileOp.notes,if_pos (not_not.mp failed)]
      cases result
      rfl
  · rename_i neither
    obtain ⟨input,output⟩ := not_or.mp neither
    rw [SendfileOp.notes,if_neg input,if_neg output]
    cases ran
    split <;> rfl

theorem sendfileAdds {o : SendfileOp} (ran : replicateSendfile env o s = .ok ((),s')) :
    s'.sim = ((Op.sendfile o).notes env s).foldl Note.add s.sim := by
  obtain ⟨r,s₁,whole,ends⟩ := sendfileServed ran
  have quiet := servedEndsQuiet mode whole
  rw [Op.notes,whole]
  rcases ends with ⟨rfl,rfl⟩ | ⟨inMap,outMap,inItem,outItem,rfl,acts⟩
  · rw [quiet]
    rfl
  · rw [← quiet]
    exact endsAdd mode acts

theorem opAdds {op : Op} (ran : replicateOp env op s = .ok ((),s')) :
    s'.sim = (op.notes env s).foldl Note.add s.sim := by
  have quiet (within : Within (fun _ _ => False) (replicateOp env op)) : s'.sim = s.sim :=
    within.quiet ran
  cases op with
  | read o =>
    exact transferAdds mode ⟨o.fd,o.info,o.retval,none⟩ true
      (fun m => m.curPos + o.retval.toUInt64) (.read · o.size) ran
  | write o =>
    exact transferAdds mode ⟨o.fd,o.info,o.retval,none⟩ true
      (fun m => m.curPos + o.retval.toUInt64) (.write · o.size) ran
  | pread o =>
    exact transferAdds mode ⟨o.fd,o.info,o.retval,some o.offset⟩ false FdMap.curPos
      (.pread · o.size o.offset) ran
  | pwrite o =>
    exact transferAdds mode ⟨o.fd,o.info,o.retval,some o.offset⟩ false FdMap.curPos
      (.pwrite · o.size o.offset) ran
  | sendfile o => exact sendfileAdds mode ran
  | _ =>
    refine quiet (opWithin (suppliesQuiet mode) fun m asks sim u sim' ran => ?_)
    cases asks with
    | path c => rw [callStill mode ran]

end Step
section Listing

def RwOp.reach (rwOp : RwOp) : UInt64 := rwOp.offset.toUInt64 + rwOp.size

def furthest (maxOff : UInt64) (rwOp : RwOp) : UInt64 :=
  if rwOp.reach > maxOff then rwOp.reach else maxOff

def simulateGetMaxOffset (simItem : SimItem) : UInt64 := simItem.list.foldl furthest 0

structure FileSize where
  name : CName
  maxOff : UInt64
  deriving DecidableEq, Repr

def simulatePrintFilenameSize (simItem : SimItem) : FileSize :=
  ⟨simItem.name,simulateGetMaxOffset simItem⟩

def simulateListFiles (sim : Sim) : List FileSize × List FileSize :=
  (sim.mapRead.items.map simulatePrintFilenameSize,sim.mapWrite.items.map simulatePrintFilenameSize)

def FileSize.listed (sim : Sim) : Direction → List FileSize
  | .read => (simulateListFiles sim).1
  | .write => (simulateListFiles sim).2

theorem furthestRun (l : List RwOp) (start : UInt64) :
    start ≤ l.foldl furthest start ∧ (∀ r ∈ l, r.reach ≤ l.foldl furthest start) ∧
      (l.foldl furthest start = start ∨ ∃ r ∈ l, r.reach = l.foldl furthest start) := by
  induction l generalizing start with
  | nil => exact ⟨UInt64.le_refl _,by simp,.inl rfl⟩
  | cons r rest ih =>
    obtain ⟨above,most,attained⟩ := ih (furthest start r)
    have here : start ≤ furthest start r ∧ r.reach ≤ furthest start r ∧
        (furthest start r = start ∨ furthest start r = r.reach) := by
      unfold furthest
      split
      · rename_i further
        exact ⟨UInt64.le_of_lt further,UInt64.le_refl _,.inr rfl⟩
      · rename_i within
        exact ⟨UInt64.le_refl _,UInt64.not_lt.mp within,.inl rfl⟩
    rw [List.foldl_cons]
    refine ⟨UInt64.le_trans here.1 above,?_,?_⟩
    · intro k member
      obtain rfl | member := List.mem_cons.mp member
      · exact UInt64.le_trans here.2.1 above
      · exact most k member
    · obtain same | ⟨k,member,same⟩ := attained
      · obtain still | moved := here.2.2
        · exact .inl (same.trans still)
        · exact .inr ⟨r,List.mem_cons_self,(same.trans moved).symm⟩
      · exact .inr ⟨k,List.mem_cons_of_mem r member,same⟩

theorem maxOffsetGreatest {item : SimItem} (some : item.list ≠ []) :
    (∃ r ∈ item.list, r.reach = simulateGetMaxOffset item) ∧
      ∀ r ∈ item.list, r.reach ≤ simulateGetMaxOffset item := by
  obtain ⟨_,most,attained⟩ := furthestRun item.list 0
  refine ⟨?_,most⟩
  obtain zero | there := attained
  · obtain ⟨r,rest,list⟩ := List.exists_cons_of_ne_nil some
    have member : r ∈ item.list := by
      rw [list]
      exact List.mem_cons_self
    have low := most r member
    rw [zero] at low
    have none : r.reach = 0 := UInt64.le_antisymm low (by simp)
    exact ⟨r,member,none.trans zero.symm⟩
  · exact there

structure Furthest (notes : List Note) (dir : Direction) (name : CName) (size : UInt64) : Prop where
  reached : ∃ n ∈ notes, n.dir = dir ∧ n.map.name = name ∧ n.entry.reach = size
  most : ∀ n ∈ notes, n.dir = dir → n.map.name = name → n.entry.reach ≤ size

theorem profileSome {notes : List Note} {dir : Direction} {name : CName} {item : SimItem}
    (known : profile notes dir name = some item) : item.name = name ∧ item.list ≠ [] ∧
      ∀ r, r ∈ item.list ↔ ∃ n ∈ notes, n.dir = dir ∧ n.map.name = name ∧ n.entry = r := by
  unfold profile at known
  split at known
  · cases known
  · rename_i n rest kept
    cases known
    refine ⟨rfl,by simp,fun r => ?_⟩
    rw [← kept,List.mem_map]
    simp only [List.mem_filter,decide_eq_true_eq,and_assoc]

theorem profileNone {notes : List Note} {dir : Direction} {name : CName}
    (unknown : profile notes dir name = none) :
    ∀ n ∈ notes, n.dir = dir → n.map.name ≠ name := by
  unfold profile at unknown
  split at unknown
  · rename_i kept
    intro n member here there
    have fails := List.filter_eq_nil_iff.mp kept n member
    simp [here,there] at fails
  · cases unknown

theorem Profiled.listed {notes : List Note} {sim : Sim} (profiled : Profiled notes sim)
    (dir : Direction) (name : CName) (size : UInt64) :
    ⟨name,size⟩ ∈ FileSize.listed sim dir ↔ Furthest notes dir name size := by
  have maps := profiled.maps dir
  have list : FileSize.listed sim dir = (sim.map dir).items.map simulatePrintFilenameSize := by
    cases dir <;> rfl
  rw [list,List.mem_map]
  constructor
  · intro ⟨item,member,same⟩
    cases same
    obtain ⟨named,some,transfers⟩ := profileSome (maps.items.mp member)
    obtain ⟨⟨r,there,far⟩,most⟩ := maxOffsetGreatest some
    obtain ⟨n,noted,here,name,entry⟩ := (transfers r).mp there
    refine ⟨⟨n,noted,here,name,?_⟩,fun k noted here name => ?_⟩
    · rw [entry,far]
    · exact most k.entry ((transfers k.entry).mpr ⟨k,noted,here,name,rfl⟩)
  · intro ⟨⟨n,noted,here,named,far⟩,most⟩
    cases known : profile notes dir name with
    | none => exact absurd named (profileNone known n noted here)
    | some item =>
      obtain ⟨named',some,transfers⟩ := profileSome known
      obtain ⟨⟨r,there,far'⟩,most'⟩ := maxOffsetGreatest some
      obtain ⟨k,noted',here',name',entry⟩ := (transfers r).mp there
      have same : simulateGetMaxOffset item = size := by
        refine UInt64.le_antisymm ?_ ?_
        · rw [← far',← entry]
          exact most k noted' here' name'
        · rw [← far]
          exact most' n.entry ((transfers n.entry).mpr ⟨n,noted,here,named,rfl⟩)
      refine ⟨item,maps.items.mpr (by rw [named',known]),?_⟩
      rw [simulatePrintFilenameSize,named',same]

theorem Profiled.once {notes : List Note} {sim : Sim} (profiled : Profiled notes sim)
    (dir : Direction) : ((FileSize.listed sim dir).map FileSize.name).Nodup := by
  have list : (FileSize.listed sim dir).map FileSize.name =
      (sim.map dir).items.map SimItem.name := by
    cases dir <;> exact List.map_map ..
  rw [list,List.nodup_iff_count_le_one]
  intro name
  have maps := profiled.maps dir
  have alone := maps.keyed.filterKey (maps.found name)
  rw [List.count,List.countP_map,List.countP_eq_length_filter]
  have same : (sim.map dir).items.filter ((fun x => x == name) ∘ SimItem.name) =
      (sim.map dir).items.filter fun x => decide (x.name = name) := by
    refine List.filter_congr fun x _ => ?_
    rfl
  rw [same,alone]
  cases profile notes dir name <;> simp

end Listing
section Runs
variable {env : Env} {pid : Int32} {s : State} {notes : List Note}

inductive Noting (env : Env) (pid : Int32) : State → List Note → Prop where
  | init {s : State} (ran : initialised env pid = some s) : Noting env pid s []
  | step {s s' : State} {op : Op} {notes : List Note} (before : Noting env pid s notes)
      (ran : replicateOp env op s = .ok ((),s')) : Noting env pid s' (notes ++ op.notes env s)

theorem profiledRun (mode : env.Notes) (noting : Noting env pid s notes) :
    Profiled notes s.sim := by
  induction noting with
  | init ran =>
    rw [(initBegan ran).sim]
    exact profiledInit
  | step _ ran ih =>
    rw [opAdds mode ran]
    exact ih.adds _

/-- However long the trace is, the two tables hold its successful transfers by the names of the
files, in their order, and nothing else; and the list of the files has each name once, with the
furthest that a transfer went. -/
theorem profileExact (mode : env.Notes) (noting : Noting env pid s notes) (dir : Direction) :
    (∀ name, (s.sim.map dir).find htOpsSim name = some (profile notes dir name)) ∧
      ((FileSize.listed s.sim dir).map FileSize.name).Nodup ∧
      ∀ name size, ⟨name,size⟩ ∈ FileSize.listed s.sim dir ↔ Furthest notes dir name size := by
  have profiled := profiledRun mode noting
  exact ⟨(profiled.maps dir).found,profiled.once dir,profiled.listed dir⟩

def notingRun (env : Env) : List Op → State × List Note → Option (State × List Note)
  | [],r => some r
  | op :: rest,(s,notes) => (after env [op] s).bind fun s' =>
    notingRun env rest (s',notes ++ op.notes env s)

theorem notingRunOf {ops : List Op} {s' : State} {notes' : List Note}
    (before : Noting env pid s notes) (made : notingRun env ops (s,notes) = some (s',notes')) :
    Noting env pid s' notes' := by
  induction ops generalizing s notes with
  | nil =>
    cases made
    exact before
  | cons op rest ih =>
    obtain ⟨mid,one,more⟩ := Option.bind_eq_some_iff.mp made
    exact ih (.step before (afterOne one)) more

theorem profileExactWritten : ∃ (s : State) (notes : List Note),
    notes.map (fun n => (n.dir,n.entry.offset,n.entry.size)) =
      [(.write,0,5),(.write,5,6),(.read,0,4)] ∧
    ∀ name, (s.sim.map .write).find htOpsSim name = some (profile notes .write name) := by
  have made : ((initialised simulating 7).bind fun s => notingRun simulating
      [opened 7 "/f" 3,wrote 7 3 5,duplicated 7 3 4,wrote 7 4 6,.pread ⟨3,4,0,4,blankInfo 7⟩]
      (s,[])).any (fun r => r.2.map (fun n => (n.dir,n.entry.offset,n.entry.size)) =
        [(.write,0,5),(.write,5,6),(.read,0,4)]) = true := by decide +kernel
  obtain ⟨⟨s,notes⟩,ran,noted⟩ := (Option.any_eq_true _ _).mp made
  obtain ⟨first,began,rest⟩ := Option.bind_eq_some_iff.mp ran
  exact ⟨s,notes,of_decide_eq_true noted,
    (profileExact simulatingNotes (notingRunOf (.init began) rest) .write).1⟩

end Runs
end IoApps
