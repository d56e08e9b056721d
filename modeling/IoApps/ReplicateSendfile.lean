import IoApps.ReplicateOffsets
import IoApps.ReplicateSim

/-! What a sendfile record does in a simulation: the transfers that are noted under the names of
its two ends, and how far either end moves. -/
namespace IoApps
open Lib (Arena Prog)

section Noted
variable {sim : Sim}

def noted (sim : Sim) (dir : Direction) (name : CName) : List RwOp :=
  ((sim.map dir).find htOpsSim name).join.elim [] SimItem.list

theorem compareSim {name : CName} {item : SimItem} :
    htOpsSim.compare name item = true ↔ item.name = name := by
  simp [htOpsSim]

theorem simChain {ht : HashTable SimItem} (sized : ht.entries = HASH_TABLE_SIZE) (name : CName) :
    (ht.chain htOpsSim name).isSome := by
  simp [HashTable.chain,htOpsSim,htHashStr,sized,Nat.mod_lt _ (show 0 < HASH_TABLE_SIZE by decide)]

theorem simItemFinds (m : FdMap) {ht : HashTable SimItem} (sized : ht.entries = HASH_TABLE_SIZE) :
    ∃ item, (simulateGetSimItem m ht).find htOpsSim m.name = some (some item) ∧
      item.list = (ht.find htOpsSim m.name).join.elim [] SimItem.list ∧
      ∀ n, n ≠ m.name → (simulateGetSimItem m ht).find htOpsSim n = ht.find htOpsSim n := by
  obtain ⟨c,hashed⟩ := Option.isSome_iff_exists.mp (simChain sized m.name)
  cases found : (ht.entry c).find? (htOpsSim.compare m.name) with
  | some item =>
    have first : ht.find htOpsSim m.name = some (some item) := by
      rw [HashTable.find,hashed,Option.map_some,found]
    refine ⟨item,?_,?_,fun n _ => ?_⟩
    · rw [simulateGetSimItem,first,first]
    · rw [first]
      rfl
    · rw [simulateGetSimItem,first]
  | none =>
    have absent : ht.find htOpsSim m.name = some none := by
      rw [HashTable.find,hashed,Option.map_some,found]
    have inserted : ht.insert htOpsSim m.name ⟨m.name,m.created,m.timeOpen,[]⟩ =
        some (ht.append c ⟨m.name,m.created,m.timeOpen,[]⟩) := by
      rw [HashTable.insert,hashed,Option.map_some]
    have made : simulateGetSimItem m ht = ht.append c ⟨m.name,m.created,m.timeOpen,[]⟩ := by
      rw [simulateGetSimItem,absent,inserted]
      rfl
    rw [made]
    refine ⟨⟨m.name,m.created,m.timeOpen,[]⟩,?_,?_,fun n other => ?_⟩
    · rw [HashTable.findInsert (compareSim.mpr rfl) inserted,absent]
      rfl
    · rw [absent]
      rfl
    · exact HashTable.findInsertOther (fun same => other (compareSim.mp same).symm) inserted

theorem transferNotes (filled : Filled sim) (dir : Direction) (m : FdMap) (entry : RwOp)
    (d : Direction) (n : CName) :
    noted
        (sim.setMap (simulateAppendRw (simulateGetSimItem m (sim.map dir)) m.name entry) dir) d n =
      noted sim d n ++ if d = dir ∧ n = m.name then [entry] else [] := by
  by_cases same : d = dir
  · subst same
    obtain ⟨item,found,list,others⟩ := simItemFinds m (filled d)
    have valid : ((simulateGetSimItem m (sim.map d)).chain htOpsSim m.name).isSome := by
      obtain ⟨c,hashed,_⟩ := HashTable.findSome found
      rw [hashed]
      rfl
    obtain ⟨c,hashed⟩ := Option.isSome_iff_exists.mp valid
    obtain ⟨ht,modified⟩ : ∃ ht, (simulateGetSimItem m (sim.map d)).modify htOpsSim m.name
        (fun item => { item with list := item.list ++ [entry] }) = some ht := by
      rw [HashTable.modify,hashed]
      exact ⟨_,rfl⟩
    have after : (sim.setMap (simulateAppendRw (simulateGetSimItem m (sim.map d)) m.name entry)
        d).map d = ht := by
      rw [simulateAppendRw,modified]
      cases d <;> rfl
    rw [noted,after]
    by_cases mine : n = m.name
    · subst mine
      rw [HashTable.findModify (f := fun item => { item with list := item.list ++ [entry] })
        (fun x => rfl) modified,found,if_pos ⟨rfl,rfl⟩,noted,← list]
      rfl
    · rw [HashTable.findModifyOther (fun x here => ?_) modified,others n mine,
        if_neg fun both => mine both.2,List.append_nil,noted]
      have apart : ¬ htOpsSim.compare n x := fun there =>
        mine ((compareSim.mp there).symm.trans (compareSim.mp here))
      exact ⟨apart,apart⟩
  · rw [if_neg fun both => same both.1,List.append_nil,noted,noted]
    cases d <;> cases dir <;> first | rfl | exact absurd rfl same

end Noted
section Moves
variable {s t u : State}

structure Shifted (k : Nat → UInt64) (s t : State) : Prop where
  sim : t.sim = s.sim
  maps : ∀ a, t.fdMaps.read a =
    (s.fdMaps.read a).map fun m => { m with curPos := m.curPos + k a }

theorem Shifted.trans {k l : Nat → UInt64} (first : Shifted k s t) (second : Shifted l t u) :
    Shifted (fun a => k a + l a) s u := by
  refine ⟨second.sim.trans first.sim,fun a => ?_⟩
  rw [second.maps,first.maps,Option.map_map]
  refine Option.map_congr fun m _ => ?_
  simp [UInt64.add_assoc]

theorem Shifted.refl (s : State) : Shifted (fun _ => 0) s s := by
  refine ⟨rfl,fun a => ?_⟩
  cases s.fdMaps.read a with
  | none => rfl
  | some m => simp

theorem advanceShifts {a : Nat} {m : FdMap} (live : s.fdMaps.read a = some m) (n : Int64) :
    ∃ t, advance a n s = .ok ((),t) ∧ Shifted (fun b => if b = a then n.toUInt64 else 0) s t := by
  have ran : advance a n s = .ok ((),{ s with
      fdMaps := s.fdMaps.write a { m with curPos := m.curPos + n.toUInt64 } }) := by
    rw [advance,Prog.bindOf (readMapLive live)]
    rfl
  refine ⟨_,ran,rfl,fun b => ?_⟩
  dsimp only
  by_cases here : b = a
  · subst here
    simp [Arena.readWrite _ live,live]
  · rw [Arena.readWriteNe _ _ here,if_neg here]
    cases s.fdMaps.read b with
    | none => rfl
    | some m => simp

theorem Shifted.live {k : Nat → UInt64} (shifted : Shifted k s t) {a : Nat} {m : FdMap}
    (live : s.fdMaps.read a = some m) : ∃ n, t.fdMaps.read a = some n := by
  rw [shifted.maps,live]
  exact ⟨_,rfl⟩

theorem shiftedSame {k l : Nat → UInt64} {a : Nat} {m : FdMap} (left : Shifted k s t)
    (right : ∀ a, t.fdMaps.read a =
      (s.fdMaps.read a).map fun m => { m with curPos := m.curPos + l a })
    (live : s.fdMaps.read a = some m) : k a = l a := by
  have both := (left.maps a).symm.trans (right a)
  rw [live,Option.map_some,Option.map_some] at both
  have same := congrArg FdMap.curPos (Option.some.inj both)
  exact (UInt64.add_right_inj _).mp same

end Moves
section Ends
variable {env : SimEnv} {sim : Sim}

def Disk.Names (disk : Disk) (name : CName) : Prop :=
  ∃ text, simfsAbsoluteName disk.cwd name.bytes MAX_LINE = .ok text

theorem simfsNodeNamed {m : FdMap} (named : env.disk.Names m.name) (sim : Sim) :
    ∃ r, simfsNode env m sim = .ok (r,sim) := by
  obtain ⟨text,named⟩ := named
  refine ⟨sim.fs.find text,?_⟩
  unfold simfsNode onSimfs simfsFind
  simp [ofExcept,named,Except.map,Prog.bindRun]

theorem simfsNodeNames {m : FdMap} {r : Option (List Lib.Bytes)} {sim' : Sim}
    (ran : simfsNode env m sim = .ok (r,sim')) : env.disk.Names m.name := by
  cases named : simfsAbsoluteName env.disk.cwd m.name.bytes MAX_LINE with
  | ok text => exact ⟨text,named⟩
  | error e =>
    unfold simfsNode onSimfs simfsFind at ran
    simp [ofExcept,named,Except.map,Prog.bindRun] at ran

variable {op : SendfileOp}

def sendfileEntry (op : SendfileOp) (offset : Int64) : RwOp :=
  ⟨offset,op.retval.toUInt64,op.info.start,op.info.dur⟩

def noteEnd (dir : Direction) (m : FdMap) (offset : Int64) (op : SendfileOp) (sim : Sim) : Sim :=
  sim.setMap (simulateAppendRw (simulateGetSimItem m (sim.map dir)) m.name
    (sendfileEntry op offset)) dir

theorem noteEndFilled (filled : Filled sim) (dir : Direction) (m : FdMap) (offset : Int64)
    (op : SendfileOp) : Filled (noteEnd dir m offset op sim) :=
  filledNote filled dir m _

variable (noting : env.mode.simulate = true) (unchecked : checking env = false)
include noting unchecked

theorem sendfileEndNotes (dir : Direction) {m : FdMap} (named : env.disk.Names m.name)
    (off : UInt64) (op : SendfileOp) (sim : Sim) :
    sendfileEnd env dir m off op sim = .ok (true,noteEnd dir m off.toInt64 op sim) := by
  obtain ⟨r,found⟩ := simfsNodeNamed named sim
  rw [sendfileEnd,Prog.bindOf found]
  simp only [unchecked,Bool.false_eq_true,if_false,noting,if_true]
  rfl

theorem simulateSendfileEnds (inMap : Option FdMap) (out : FdMap) (sim' : Sim) :
    simulateSendfile env inMap (some out) op sim = .ok ((),sim') ↔
      env.disk.Names out.name ∧ (∀ m, inMap = some m → env.disk.Names m.name) ∧
      sim' = noteEnd .write out out.curPos.toInt64 op (match inMap with
        | none => sim
        | some m => noteEnd .read m
          (if op.offset = OFFSET_INVAL then m.curPos.toInt64 else op.offset) op sim) := by
  have last (named : env.disk.Names out.name) (sim : Sim) :
      (do let _ ← sendfileEnd env .write out out.curPos op; pure () : SimProg Unit) sim =
        .ok ((),noteEnd .write out out.curPos.toInt64 op sim) := by
    rw [Prog.bindOf (sendfileEndNotes noting unchecked .write named out.curPos op sim)]
    rfl
  have first (m : FdMap) : (if op.offset = OFFSET_INVAL then m.curPos
      else op.offset.toUInt64).toInt64 =
      if op.offset = OFFSET_INVAL then m.curPos.toInt64 else op.offset := by
    split
    · rfl
    · exact Int64.toInt64_toUInt64 _
  constructor
  · intro ran
    obtain ⟨_,s₁,found,rest⟩ := Prog.bindOk.mp ran
    have output := simfsNodeNames found
    obtain ⟨r,again⟩ := simfsNodeNamed output sim
    cases again.symm.trans found
    refine ⟨output,?_⟩
    cases inMap with
    | none =>
      refine ⟨fun m none => absurd none (by simp),?_⟩
      have ends := last output sim
      exact (Prod.mk.inj (Except.ok.inj (rest.symm.trans ends))).2
    | some m =>
      obtain ⟨goOn,s₂,one,rest⟩ := Prog.bindOk.mp rest
      have input : env.disk.Names m.name := by
        obtain ⟨_,_,found,_⟩ := Prog.bindOk.mp one
        exact simfsNodeNames found
      rw [sendfileEndNotes noting unchecked .read input] at one
      cases one
      refine ⟨fun n same => Option.some.inj same ▸ input,?_⟩
      have ends := last output (noteEnd .read m (if op.offset = OFFSET_INVAL then m.curPos
        else op.offset.toUInt64).toInt64 op sim)
      rw [first] at ends rest
      exact (Prod.mk.inj (Except.ok.inj (rest.symm.trans ends))).2
  · intro ⟨output,input,same⟩
    obtain ⟨r,found⟩ := simfsNodeNamed output sim
    rw [simulateSendfile,Prog.bindOf found,same]
    cases inMap with
    | none => exact last output sim
    | some m =>
      have one := sendfileEndNotes noting unchecked .read (input m rfl)
        (if op.offset = OFFSET_INVAL then m.curPos else op.offset.toUInt64) op sim
      rw [first] at one
      dsimp only
      rw [Prog.bindOf one]
      exact last output _

end Ends
section Record
variable {env : Env} {s s' : State} {op : SendfileOp} {inItem outItem : FdItem}
  {inMap outMap : FdMap}

-- ACT_SIMULATE alone: nothing is replayed, transfers are noted and files are not checked.
structure Env.Notes (env : Env) : Prop where
  simulates : env.actSimulate = true
  idle : env.actReplicate = false
  noting : env.sim.mode.simulate = true
  unchecked : checking env.sim = false

structure Refers (s : State) (pid fd : Int32) (item : FdItem) (m : FdMap) : Prop where
  table : ∃ t, tableOf s pid = some t ∧ Found s t fd item
  live : s.fdMaps.read item.fdMap = some m

def SendfileOp.moves (op : SendfileOp) (inItem outItem : FdItem) (input : Int64) (a : Nat) :
    UInt64 :=
  (if a = inItem.fdMap ∧ op.offset = OFFSET_INVAL then input.toUInt64 else 0) +
    if a = outItem.fdMap then op.retval.toUInt64 else 0

def SendfileOp.readEntry (op : SendfileOp) (m : FdMap) : RwOp :=
  sendfileEntry op (if op.offset = OFFSET_INVAL then m.curPos.toInt64 else op.offset)

/-- The supported ends get an entry of the result's size, and the positions move by the result;
of a call that failed there is no trace. -/
structure Sent (op : SendfileOp) (inItem outItem : FdItem) (inMap outMap : FdMap)
    (s s' : State) : Prop where
  reads : ∀ n, noted s'.sim .read n = noted s.sim .read n ++
    if op.retval ≠ -1 ∧ supportedType inMap.type ∧ n = inMap.name then [op.readEntry inMap] else []
  writes : ∀ n, noted s'.sim .write n = noted s.sim .write n ++
    if op.retval ≠ -1 ∧ supportedType outMap.type ∧ n = outMap.name then
      [sendfileEntry op outMap.curPos.toInt64] else []
  maps : ∀ a, s'.fdMaps.read a = (s.fdMaps.read a).map fun m =>
    { m with curPos := m.curPos +
      if op.retval = -1 then 0 else op.moves inItem outItem op.retval a }

theorem sendfileRun (input : Refers s op.info.pid op.inFd inItem inMap)
    (output : Refers s op.info.pid op.outFd outItem outMap) :
    replicateOp env (.sendfile op) s =
      (if supportedType inMap.type ∨ supportedType outMap.type then do
        let retval ← sendfileResult env op inMap outMap
        if retval = -1 ∧ retval ≠ op.retval then pure ()
        else do
          advanceInput op retval inItem.fdMap
          advance outItem.fdMap retval
      else pure () : Replay Unit) s := by
  obtain ⟨t,mine,there⟩ := output.table
  obtain ⟨u,again,here⟩ := input.table
  cases Option.some.inj (mine.symm.trans again)
  simp only [replicateOp,replicateSendfile]
  rw [Prog.bindOf (processHtKnown mine)]
  dsimp only
  rw [Prog.bindOf (getFdMapKnown there op.info)]
  dsimp only
  rw [Prog.bindOf (getFdMapKnown here op.info)]
  dsimp only
  rw [Prog.bindOf (readMapLive output.live),Prog.bindOf (readMapLive input.live)]

theorem endsMove (input : ∃ m, s.fdMaps.read inItem.fdMap = some m)
    (output : ∃ m, s.fdMaps.read outItem.fdMap = some m) :
    ∃ t, (do
        if op.retval = -1 ∧ op.retval ≠ op.retval then pure ()
        else do
          advanceInput op op.retval inItem.fdMap
          advance outItem.fdMap op.retval : Replay Unit) s = .ok ((),t) ∧
      Shifted (op.moves inItem outItem op.size) s t := by
  obtain ⟨m,input⟩ := input
  obtain ⟨n,output⟩ := output
  rw [if_neg fun both => both.2 rfl,advanceInput]
  by_cases moves : op.offset = OFFSET_INVAL
  · obtain ⟨mid,first,one⟩ := advanceShifts input op.size
    obtain ⟨n,later⟩ := one.live output
    obtain ⟨t,last,two⟩ := advanceShifts later op.retval
    rw [if_pos moves,if_pos rfl,Prog.bindOf first]
    refine ⟨t,last,?_⟩
    have both : op.moves inItem outItem op.size = fun a =>
        (if a = inItem.fdMap then op.size.toUInt64 else 0) +
          if a = outItem.fdMap then op.retval.toUInt64 else 0 := by
      funext a
      simp only [SendfileOp.moves,moves,and_true]
    rw [both]
    exact one.trans two
  · obtain ⟨t,last,two⟩ := advanceShifts output op.retval
    rw [if_neg moves,Prog.bindOf (Prog.pureRun _ s)]
    refine ⟨t,last,?_⟩
    have both : op.moves inItem outItem op.size = fun a =>
        0 + if a = outItem.fdMap then op.retval.toUInt64 else 0 := by
      funext a
      simp only [SendfileOp.moves,moves,and_false,if_false]
    rw [both]
    exact (Shifted.refl s).trans two

/-- The records that are sent as they say. A failed one moves the ends all the same, unless
neither is supported or the moves cancel out; of a successful one the output must be supported. -/
inductive Sendable (disk : Disk) (op : SendfileOp) (inItem outItem : FdItem)
    (inMap outMap : FdMap) : Prop where
  | failed (result : op.retval = -1) (input : ¬ supportedType inMap.type)
      (output : ¬ supportedType outMap.type)
  | cancelled (result : op.retval = -1) (shared : inItem.fdMap = outItem.fdMap)
      (moves : op.offset = OFFSET_INVAL) (one : op.size = 1)
  | sent (result : op.retval ≠ -1) (output : supportedType outMap.type)
      (names : disk.Names outMap.name)
      (others : supportedType inMap.type → disk.Names inMap.name)
      (whole : op.offset = OFFSET_INVAL → op.size = op.retval)
  | nothing (result : op.retval = 0) (input : ¬ supportedType inMap.type)
      (output : ¬ supportedType outMap.type)
  | wrapped (result : op.retval = Int64.minValue) (input : ¬ supportedType inMap.type)
      (output : ¬ supportedType outMap.type) (shared : inItem.fdMap = outItem.fdMap)
      (moves : op.offset = OFFSET_INVAL)

def sentSim (op : SendfileOp) (inMap outMap : FdMap) (sim : Sim) : Sim :=
  noteEnd .write outMap outMap.curPos.toInt64 op
    (if supportedType inMap.type then
      noteEnd .read inMap (if op.offset = OFFSET_INVAL then inMap.curPos.toInt64 else op.offset)
        op sim
    else sim)

theorem sentSimEnds (notes : env.Notes) (sim sim' : Sim) :
    simulateSendfile env.sim (if supportedType inMap.type then some inMap else none)
        (some outMap) op sim = .ok ((),sim') ↔
      env.sim.disk.Names outMap.name ∧
      (supportedType inMap.type → env.sim.disk.Names inMap.name) ∧
      sim' = sentSim op inMap outMap sim := by
  rw [simulateSendfileEnds notes.noting notes.unchecked,sentSim]
  by_cases supported : supportedType inMap.type = true
  · simp [supported]
  · simp [supported]

theorem sentSimReads {sim : Sim} (filled : Filled sim) (n : CName) :
    noted (sentSim op inMap outMap sim) .read n = noted sim .read n ++
      if supportedType inMap.type ∧ n = inMap.name then [op.readEntry inMap] else [] := by
  unfold sentSim
  split
  · rename_i supported
    rw [noteEnd,transferNotes (noteEndFilled filled _ _ _ _),noteEnd,transferNotes filled]
    simp only [supported,reduceCtorEq,false_and,if_false,List.append_nil,true_and]
    rfl
  · rename_i plain
    rw [noteEnd,transferNotes filled]
    simp [plain]

theorem sentSimWrites {sim : Sim} (filled : Filled sim) (n : CName) :
    noted (sentSim op inMap outMap sim) .write n = noted sim .write n ++
      if n = outMap.name then [sendfileEntry op outMap.curPos.toInt64] else [] := by
  unfold sentSim
  split
  · rw [noteEnd,transferNotes (noteEndFilled filled _ _ _ _),noteEnd,transferNotes filled]
    simp
  · rw [noteEnd,transferNotes filled]
    simp

theorem unsignedInj {a b : Int64} (same : a.toUInt64 = b.toUInt64) : a = b :=
  congrArg UInt64.toInt64 same

theorem movesWhole (same : op.moves inItem outItem op.size inItem.fdMap =
    op.moves inItem outItem op.retval inItem.fdMap) :
    op.offset = OFFSET_INVAL → op.size = op.retval := by
  intro moves
  simp only [SendfileOp.moves,moves,and_self,if_true] at same
  exact unsignedInj ((UInt64.add_left_inj _).mp same)

theorem movesCancel (result : op.retval = -1)
    (same : op.moves inItem outItem op.size outItem.fdMap = 0) :
    inItem.fdMap = outItem.fdMap ∧ op.offset = OFFSET_INVAL ∧ op.size = 1 := by
  simp only [SendfileOp.moves,result,if_true] at same
  by_cases moves : outItem.fdMap = inItem.fdMap ∧ op.offset = OFFSET_INVAL
  · rw [if_pos moves] at same
    have one : op.size.toUInt64 = (1 : Int64).toUInt64 := by
      have minus : (-1 : Int64).toUInt64 = -1 := rfl
      rw [minus] at same
      have back := congrArg (· + 1) same
      rw [UInt64.add_assoc,show (-1 + 1 : UInt64) = 0 from rfl,UInt64.add_zero] at back
      exact back
    exact ⟨moves.1.symm,moves.2,unsignedInj one⟩
  · rw [if_neg moves] at same
    exact absurd same (by decide)

theorem movesNothing (same : op.moves inItem outItem op.retval outItem.fdMap = 0) :
    op.retval = 0 ∨ op.retval = Int64.minValue ∧ inItem.fdMap = outItem.fdMap ∧
      op.offset = OFFSET_INVAL := by
  simp only [SendfileOp.moves,if_true] at same
  by_cases moves : outItem.fdMap = inItem.fdMap ∧ op.offset = OFFSET_INVAL
  · rw [if_pos moves] at same
    have half : op.retval.toUInt64 = (0 : Int64).toUInt64 ∨
        op.retval.toUInt64 = Int64.minValue.toUInt64 := by
      have zero : (0 : Int64).toUInt64 = 0 := rfl
      have least : Int64.minValue.toUInt64 = 0x8000000000000000 := rfl
      rw [zero,least]
      generalize op.retval.toUInt64 = r at same ⊢
      have twice := congrArg UInt64.toNat same
      rw [UInt64.toNat_add] at twice
      have bound := UInt64.toNat_lt r
      rcases Nat.lt_or_ge r.toNat 1 with low | high
      · exact .inl (UInt64.toNat_inj.mp (by simp; omega))
      · exact .inr (UInt64.toNat_inj.mp (by simp at twice ⊢; omega))
    exact half.imp unsignedInj fun least => ⟨unsignedInj least,moves.1.symm,moves.2⟩
  · rw [if_neg moves,UInt64.zero_add] at same
    exact .inl (unsignedInj (b := 0) same)

theorem sentNeither (input : ¬ supportedType inMap.type) (output : ¬ supportedType outMap.type) :
    Sent op inItem outItem inMap outMap s s ↔ ∀ a m, s.fdMaps.read a = some m →
      (if op.retval = -1 then 0 else op.moves inItem outItem op.retval a) = 0 := by
  constructor
  · intro sent a m live
    exact (shiftedSame (Shifted.refl s) sent.maps live).symm
  · intro still
    refine ⟨fun n => ?_,fun n => ?_,fun a => ?_⟩
    · rw [if_neg fun all => input all.2.1,List.append_nil]
    · rw [if_neg fun all => output all.2.1,List.append_nil]
    · cases live : s.fdMaps.read a with
      | none => rfl
      | some m =>
        rw [still a m live]
        simp

variable {notes : env.Notes}

theorem simulatedFailure (notes : env.Notes) (result : op.retval = -1) (inMap outMap : FdMap) :
    sendfileResult env op inMap outMap s = .ok (op.retval,s) := by
  unfold sendfileResult
  simp only [notes.simulates,notes.idle,result,Bool.false_eq_true,if_false,if_true,ne_eq,
    not_true]
  rfl

theorem simulatedSuccess (notes : env.Notes) (result : op.retval ≠ -1) {r : Int64} :
    sendfileResult env op inMap outMap s = .ok (r,s') ↔ r = op.retval ∧ ∃ sim,
      simulateSendfile env.sim (if supportedType inMap.type then some inMap else none)
        (if supportedType outMap.type then some outMap else none) op s.sim = .ok ((),sim) ∧
      s' = { s with sim := sim } := by
  unfold sendfileResult
  simp only [notes.simulates,notes.idle,result,Bool.false_eq_true,if_false,if_true,ne_eq,
    not_false_eq_true,Prog.bindOk,Prog.pureRun,onSim]
  cases ran : simulateSendfile env.sim (if supportedType inMap.type then some inMap else none)
      (if supportedType outMap.type then some outMap else none) op s.sim with
  | error f => simp
  | ok done =>
    obtain ⟨_,sim⟩ := done
    simp [eq_comm]

theorem failedSends (notes : env.Notes) (result : op.retval = -1)
    (input : Refers s op.info.pid op.inFd inItem inMap)
    (output : Refers s op.info.pid op.outFd outItem outMap)
    (either : supportedType inMap.type ∨ supportedType outMap.type) :
    (∃ s', replicateOp env (.sendfile op) s = .ok ((),s') ∧
      Sent op inItem outItem inMap outMap s s') ↔
    Sendable env.sim.disk op inItem outItem inMap outMap := by
  obtain ⟨t,ran,shifted⟩ := endsMove ⟨_,input.live⟩ ⟨_,output.live⟩
  have run : replicateOp env (.sendfile op) s = .ok ((),t) := by
    rw [sendfileRun input output,if_pos either,
      Prog.bindOf (simulatedFailure notes result inMap outMap)]
    exact ran
  constructor
  · intro ⟨s',again,sent⟩
    cases run.symm.trans again
    have still := shiftedSame shifted sent.maps output.live
    rw [if_pos result] at still
    obtain ⟨shared,moves,one⟩ := movesCancel result still
    exact .cancelled result shared moves one
  · intro sendable
    cases sendable with
    | failed _ bare plain => exact absurd either (not_or.mpr ⟨bare,plain⟩)
    | nothing _ bare plain => exact absurd either (not_or.mpr ⟨bare,plain⟩)
    | wrapped _ bare plain => exact absurd either (not_or.mpr ⟨bare,plain⟩)
    | sent succeeded => exact absurd result succeeded
    | cancelled _ shared moves one =>
      refine ⟨t,run,fun n => ?_,fun n => ?_,fun a => ?_⟩
      · rw [if_neg fun all => all.1 result,List.append_nil,shifted.sim]
      · rw [if_neg fun all => all.1 result,List.append_nil,shifted.sim]
      · have still : op.moves inItem outItem op.size a = 0 := by
          simp only [SendfileOp.moves,shared,moves,one,result,and_true]
          split
          · rfl
          · rfl
        rw [shifted.maps,still,if_pos result]

theorem succeededSends (notes : env.Notes) (filled : Filled s.sim) (result : op.retval ≠ -1)
    (input : Refers s op.info.pid op.inFd inItem inMap)
    (output : Refers s op.info.pid op.outFd outItem outMap)
    (either : supportedType inMap.type ∨ supportedType outMap.type) :
    (∃ s', replicateOp env (.sendfile op) s = .ok ((),s') ∧
      Sent op inItem outItem inMap outMap s s') ↔
    Sendable env.sim.disk op inItem outItem inMap outMap := by
  rw [sendfileRun input output,if_pos either]
  constructor
  · intro ⟨s',run,sent⟩
    obtain ⟨r,mid,answered,moved⟩ := Prog.bindOk.mp run
    obtain ⟨rfl,sim,simulated,rfl⟩ := (simulatedSuccess notes result).mp answered
    by_cases supported : supportedType outMap.type = true
    · rw [if_pos supported] at simulated
      obtain ⟨name,others,_⟩ := (sentSimEnds notes _ _).mp simulated
      obtain ⟨t,ran,shifted⟩ := endsMove (s := { s with sim := sim }) 
        ⟨_,input.live⟩ ⟨_,output.live⟩
      cases ran.symm.trans moved
      have whole := shiftedSame shifted sent.maps input.live
      rw [if_neg result] at whole
      exact .sent result supported name others (movesWhole whole)
    · rw [if_neg supported] at simulated
      cases simulated
  · intro sendable
    cases sendable with
    | failed failed => exact absurd failed result
    | cancelled failed => exact absurd failed result
    | nothing _ bare plain => exact absurd either (not_or.mpr ⟨bare,plain⟩)
    | wrapped _ bare plain => exact absurd either (not_or.mpr ⟨bare,plain⟩)
    | sent _ supported name others whole =>
      have simulated : simulateSendfile env.sim (if supportedType inMap.type then some inMap
          else none) (if supportedType outMap.type then some outMap else none) op s.sim =
          .ok ((),sentSim op inMap outMap s.sim) := by
        rw [if_pos supported]
        exact (sentSimEnds notes _ _).mpr ⟨name,others,rfl⟩
      have answered := (simulatedSuccess notes result).mpr ⟨rfl,_,simulated,rfl⟩
      obtain ⟨t,ran,shifted⟩ := endsMove (s := { s with sim := sentSim op inMap outMap s.sim })
         ⟨_,input.live⟩ ⟨_,output.live⟩
      rw [Prog.bindOf answered]
      refine ⟨t,ran,fun n => ?_,fun n => ?_,fun a => ?_⟩
      · rw [shifted.sim,sentSimReads filled]
        simp only [result,ne_eq,not_false_eq_true,true_and]
      · rw [shifted.sim,sentSimWrites filled]
        simp only [result,supported,ne_eq,not_false_eq_true,true_and]
      · have same : op.moves inItem outItem op.size a = op.moves inItem outItem op.retval a := by
          simp only [SendfileOp.moves]
          by_cases moves : a = inItem.fdMap ∧ op.offset = OFFSET_INVAL
          · rw [whole moves.2]
          · rw [if_neg moves,if_neg moves]
        rw [shifted.maps,same,if_neg result]

variable {pid : Int32}

/-- In a simulation a record between two mapped descriptors is sent as it says, and the replicator
goes on, exactly for these records. -/
theorem sendfileSends (notes : env.Notes) (reached : Reached env anyOp pid s)
    (input : Refers s op.info.pid op.inFd inItem inMap)
    (output : Refers s op.info.pid op.outFd outItem outMap) :
    (∃ s', replicateOp env (.sendfile op) s = .ok ((),s') ∧
      Sent op inItem outItem inMap outMap s s') ↔
    Sendable env.sim.disk op inItem outItem inMap outMap := by
  by_cases either : supportedType inMap.type = true ∨ supportedType outMap.type = true
  · by_cases result : op.retval = -1
    · exact failedSends notes result input output either
    · exact succeededSends notes (reachedFilled reached) result input output either
  · obtain ⟨bare,plain⟩ := not_or.mp either
    have run : replicateOp env (.sendfile op) s = .ok ((),s) := by
      rw [sendfileRun input output,if_neg either]
      rfl
    have same : (∃ s', replicateOp env (.sendfile op) s = .ok ((),s') ∧
        Sent op inItem outItem inMap outMap s s') ↔ Sent op inItem outItem inMap outMap s s := by
      constructor
      · intro ⟨s',again,sent⟩
        cases run.symm.trans again
        exact sent
      · exact fun sent => ⟨s,run,sent⟩
    rw [same,sentNeither bare plain]
    constructor
    · intro still
      by_cases result : op.retval = -1
      · exact .failed result bare plain
      · have zero := still _ _ output.live
        rw [if_neg result] at zero
        rcases movesNothing zero with nothing | ⟨least,shared,moves⟩
        · exact .nothing nothing bare plain
        · exact .wrapped least bare plain shared moves
    · intro sendable a m _
      split
      · rfl
      · rename_i result
        cases sendable with
        | failed failed => exact absurd failed result
        | cancelled failed => exact absurd failed result
        | sent _ supported => exact absurd supported plain
        | nothing zero =>
          simp only [SendfileOp.moves,zero]
          split <;> split <;> rfl
        | wrapped least _ _ shared moves =>
          simp only [SendfileOp.moves,least,shared,moves,and_true]
          split <;> rfl

def behindFd (s : State) (pid fd : Int32) : Option (FdItem × FdMap) := do
  let t ← tableOf s pid
  let item ← itemOf s t fd
  let m ← s.fdMaps.read item.fdMap
  some (item,m)

theorem behindRefers {s : State} {pid fd : Int32} {item : FdItem} {m : FdMap}
    (made : behindFd s pid fd = some (item,m)) : Refers s pid fd item m := by
  simp only [behindFd,Option.bind_eq_bind,Option.bind_eq_some_iff,Option.some.injEq,
    Prod.mk.injEq] at made
  obtain ⟨t,mine,i,there,n,live,rfl,rfl⟩ := made
  exact ⟨⟨t,mine,foundItem.mpr there⟩,live⟩

def received (pid fd : Int32) : Op := .socket ⟨fd,blankInfo pid⟩

def sentFrom (inFd outFd : Int32) : SendfileOp := ⟨outFd,inFd,OFFSET_INVAL,5,5,blankInfo 7⟩

theorem simulatingNotes : simulating.Notes := ⟨rfl,rfl,rfl,rfl⟩

theorem sendfileSendsFile : ∃ s s' inItem outItem inMap outMap,
    Reached simulating anyOp 7 s ∧
    replicateOp simulating (.sendfile (sentFrom 3 4)) s = .ok ((),s') ∧
      Sent (sentFrom 3 4) inItem outItem inMap outMap s s' := by
  have checked : ((initialised simulating 7).bind
      (runOps simulating anyOp [opened 7 "/f" 3,opened 7 "/g" 4])).any (fun s =>
        (behindFd s 7 3).any (fun r => r.2.name = stdName "/f") &&
        (behindFd s 7 4).any (fun r => r.2.type = .reg && r.2.name = stdName "/g")) = true := by
    decide +kernel
  obtain ⟨s,ran,both⟩ := (Option.any_eq_true _ _).mp checked
  obtain ⟨left,right⟩ := Bool.and_eq_true_iff.mp both
  obtain ⟨⟨inItem,inMap⟩,input,source⟩ := (Option.any_eq_true _ _).mp left
  obtain ⟨⟨outItem,outMap⟩,output,target⟩ := (Option.any_eq_true _ _).mp right
  simp only [Bool.and_eq_true,decide_eq_true_eq] at source target
  have named : simulating.sim.disk.Names inMap.name := ⟨(stdName "/f").bytes,by rw [source]; rfl⟩
  have named' : simulating.sim.disk.Names outMap.name :=
    ⟨(stdName "/g").bytes,by rw [target.2]; rfl⟩
  have regular : supportedType outMap.type = true := by
    rw [target.1]
    rfl
  have result : (sentFrom 3 4).retval ≠ -1 := by decide
  have reached : Reached simulating anyOp 7 s := .run ran
  have sendable : Sendable simulating.sim.disk (sentFrom 3 4) inItem outItem inMap outMap :=
    .sent result regular named' (fun _ => named) fun _ => rfl
  have input' : Refers s (sentFrom 3 4).info.pid (sentFrom 3 4).inFd inItem inMap :=
    behindRefers input
  have output' : Refers s (sentFrom 3 4).info.pid (sentFrom 3 4).outFd outItem outMap :=
    behindRefers output
  obtain ⟨s',done,sent⟩ := (sendfileSends simulatingNotes reached input' output').mpr sendable
  exact ⟨s,s',inItem,outItem,inMap,outMap,reached,done,sent⟩

theorem sendfileToSocket : ¬ ∀ env pid s op inItem outItem inMap outMap, env.Notes →
    Reached env anyOp pid s → Refers s op.info.pid op.inFd inItem inMap →
    Refers s op.info.pid op.outFd outItem outMap →
    ∃ s', replicateOp env (.sendfile op) s = .ok ((),s') ∧
      Sent op inItem outItem inMap outMap s s' := by
  intro all
  have checked : ((initialised simulating 7).bind
      (runOps simulating anyOp [opened 7 "/f" 3,received 7 4])).any (fun s =>
        (behindFd s 7 3).isSome && (behindFd s 7 4).isSome &&
        stopsAt simulating (.sendfile (sentFrom 3 4)) (.sim .nullItem) s) = true := by
    decide +kernel
  obtain ⟨s,ran,both⟩ := (Option.any_eq_true _ _).mp checked
  simp only [Bool.and_eq_true] at both
  obtain ⟨⟨left,right⟩,stops⟩ := both
  obtain ⟨⟨inItem,inMap⟩,input⟩ := Option.isSome_iff_exists.mp left
  obtain ⟨⟨outItem,outMap⟩,output⟩ := Option.isSome_iff_exists.mp right
  obtain ⟨s',done,_⟩ := all simulating 7 s (sentFrom 3 4) inItem outItem inMap outMap
    simulatingNotes (.run ran) (behindRefers input) (behindRefers output)
  rw [stopsAtError stops] at done
  exact absurd done (by simp)

end Record
end IoApps
