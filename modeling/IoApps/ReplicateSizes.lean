import IoApps.ReplicateShares
import IoApps.ReplicateSendfile

/-! How large a file has to be: what the check notes in the node of a file, and how far the
recorded transfers went in it. -/
namespace IoApps
open Lib (Bytes Tree Prog tokens)
open Relation (ReflTransGen)

section Sizes
variable {fs fs' : Trie Simfs} {q : List Bytes}

def needed (fs : Trie Simfs) (q : List Bytes) : Nat :=
  (fs.root.at? q).elim 0 fun simfs => simfs.virtSize.toNat

theorem neededAbsent (absent : ¬ Loaded fs q) : needed fs q = 0 := by
  rw [Loaded,Option.not_isSome_iff_eq_none] at absent
  rw [needed,absent]
  rfl

structure Steady (q : List Bytes) (fs fs' : Trie Simfs) : Prop where
  loaded : Loaded fs q → Loaded fs' q
  size : needed fs' q = needed fs q

theorem Steady.refl (q : List Bytes) (fs : Trie Simfs) : Steady q fs fs := ⟨id,rfl⟩

theorem Steady.trans {mid : Trie Simfs} (first : Steady q fs mid) (second : Steady q mid fs') :
    Steady q fs fs' :=
  ⟨second.loaded ∘ first.loaded,second.size.trans first.size⟩

theorem growthSteady (keyed : Keyed fs) (growth : Growth fs fs') (q : List Bytes) :
    Steady q fs fs' := by
  cases growth with
  | @insert text clean new empty =>
    have run := keyed.sound.insert2 ⟨text,clean⟩ new
    rw [run]
    constructor
    · intro there
      rw [Loaded] at there ⊢
      rw [Tree.atInsert]
      split
      · rfl
      · exact there
    · unfold needed
      rw [Tree.atInsert]
      split
      · rename_i fresh
        rw [fresh.2.2,Option.elim_some,empty]
        rfl
      · rfl
  | set n same =>
    refine ⟨(setLoaded fs n _ q).mpr,?_⟩
    unfold needed
    rw [setSimfs,Tree.atWrite]
    split
    · cases fs.root.at? q with
      | none => rfl
      | some simfs => exact congrArg UInt64.toNat (same simfs)
    · rfl

theorem grownSteady (keyed : Keyed fs) (grown : ReflTransGen Growth fs fs') (q : List Bytes) :
    Keyed fs' ∧ Steady q fs fs' := by
  induction grown with
  | refl => exact ⟨keyed,.refl q fs⟩
  | tail _ last ih =>
    exact ⟨keyedEdit last.edit ih.1,ih.2.trans (growthSteady ih.1 last q)⟩

theorem deletedSteady (keyed : Keyed fs) (text : Bytes) (stays : Loaded (fs.delete text).1 q) :
    needed (fs.delete text).1 q = needed fs q := by
  obtain ⟨simfs,there⟩ := Option.isSome_iff_exists.mp stays
  have before : fs.root.at? q = some simfs := by
    rw [Trie.delete] at there
    split at there
    · exact there
    · rw [Trie.delete2] at there
      split at there
      · exact there
      · exact Tree.atRemoveSome keyed.sound.distinct there
  rw [needed,needed,there,before]

theorem trimsSteady {α : Type} {m : SimfsProg α} {a : α} (keyed : Keyed fs) (trims : Trims m fs)
    (ran : m fs = .ok (a,fs')) (stays : Loaded fs q → Loaded fs' q) :
    needed fs' q = needed fs q := by
  obtain ⟨mid,grown,ends⟩ := trims a fs' ran
  obtain ⟨keyed',steady⟩ := grownSteady keyed grown q
  rcases ends with rfl | ⟨text,_,rfl⟩
  · exact steady.size
  · by_cases there : Loaded (mid.delete text).1 q
    · rw [deletedSteady keyed' text there,steady.size]
    · rw [neededAbsent there,neededAbsent fun before => there (stays before)]

theorem growNeeded (fs : Trie Simfs) (n : List Bytes) (off : UInt64) :
    needed (setSimfs fs n (growVirt off)) q =
      if q = n ∧ Loaded fs q then max (needed fs q) off.toNat else needed fs q := by
  unfold needed
  rw [setSimfs,Tree.atWrite]
  by_cases here : q = n
  · rw [if_pos here]
    cases there : fs.root.at? q with
    | none => simp [Loaded,there]
    | some simfs =>
      rw [if_pos ⟨here,by rw [Loaded,there]; rfl⟩]
      change (growVirt off simfs).virtSize.toNat = max simfs.virtSize.toNat off.toNat
      unfold growVirt
      split
      · rename_i less
        exact (Nat.max_eq_right (Nat.le_of_lt less)).symm
      · rename_i more
        exact (Nat.max_eq_left (Nat.not_lt.mp more)).symm
  · rw [if_neg here,if_neg fun both => here both.1]

theorem physSteady (keyed : Keyed fs) (n : List Bytes) (curPos off : UInt64) :
    Steady q fs (setSimfs fs n (growPhys curPos off)) := by
  refine growthSteady keyed (.set n fun simfs => ?_) q
  unfold growPhys
  split <;> rfl

end Sizes
section Names
variable {disk : Disk} {q : List Bytes}

def leadsTo (disk : Disk) (q : List Bytes) (name : CName) : Bool :=
  match simfsAbsoluteName disk.cwd name.bytes MAX_LINE with
  | .ok text => tokens slash text = q
  | .error _ => false

theorem leadsToText {name : CName} {text : Bytes}
    (named : simfsAbsoluteName disk.cwd name.bytes MAX_LINE = .ok text) :
    leadsTo disk q name = true ↔ tokens slash text = q := by
  rw [leadsTo,named]
  exact decide_eq_true_iff

variable {env : SimEnv} {sim sim' : Sim}

theorem nodeRan {m : FdMap} {r : Option (List Bytes)} (keyed : Keyed sim.fs)
    (ran : simfsNode env m sim = .ok (r,sim')) : sim' = sim ∧
      (∀ n, r = some n → Loaded sim.fs n ∧ leadsTo env.disk n m.name = true) ∧
      (r = none → ∀ q, leadsTo env.disk q m.name = true → ¬ Loaded sim.fs q) := by
  obtain ⟨text,named⟩ := simfsNodeNames ran
  unfold simfsNode onSimfs simfsFind at ran
  simp only [ofExcept,named,Except.map,Prog.bindRun,Prog.getRun,Prog.pureRun] at ran
  cases ran
  have found := Trie.findPaths sim.fs text
  rw [keyed.delim] at found
  refine ⟨rfl,fun n is => ?_,fun none q leads => ?_⟩
  · rw [found] at is
    split at is
    · rename_i there
      cases is
      refine ⟨?_,(leadsToText named).mpr rfl⟩
      rw [Loaded,Tree.at?,Option.isSome_map]
      exact there
    · cases is
  · rw [found] at none
    split at none
    · cases none
    · rename_i absent
      rw [← (leadsToText named).mp leads,Loaded,Tree.at?,Option.isSome_map]
      exact absent

theorem leadsToOne {name : CName} {n : List Bytes} (first : leadsTo disk n name = true) :
    leadsTo disk q name = true ↔ q = n := by
  unfold leadsTo at first ⊢
  split at first
  · rw [decide_eq_true_iff] at first ⊢
    rw [first]
    exact eq_comm
  · cases first

structure Noted (disk : Disk) (q : List Bytes) (name : CName) (off : UInt64) (fs fs' : Trie Simfs) :
    Prop where
  keyed : Keyed fs'
  loaded : Loaded fs' q ↔ Loaded fs q
  size : needed fs' q =
    if leadsTo disk q name = true ∧ Loaded fs q then max (needed fs q) off.toNat else needed fs q

theorem grownNoted {m : FdMap} {n : List Bytes} {off : UInt64} (keyed : Keyed sim.fs)
    (leads : leadsTo env.disk n m.name = true) (q : List Bytes) :
    Noted env.disk q m.name off sim.fs (setSimfs sim.fs n (growVirt off)) := by
  refine ⟨keyedSet keyed n _,setLoaded _ _ _ _,?_⟩
  rw [growNeeded]
  simp only [leadsToOne leads]

theorem transferFiles {dir : Direction} {m : FdMap} {offset retval : Int64} {info : OpInfo}
    (ran : (if env.mode.simulate then simulateTransfer dir m offset retval info else pure ()) sim =
      .ok ((),sim')) : sim'.fs = sim.fs := by
  split at ran
  · cases ran
    cases dir <;> rfl
  · cases ran
    rfl

theorem rwNoted {dir : Direction} {m : FdMap} {off : UInt64} {offset retval : Int64}
    {info : OpInfo} (checks : checking env = true) (keyed : Keyed sim.fs) (q : List Bytes)
    (ran : simulateRw env dir m off offset retval info sim = .ok ((),sim')) :
    Noted env.disk q m.name off sim.fs sim'.fs := by
  obtain ⟨r,s₁,found,rest⟩ := Prog.bindOk.mp ran
  obtain ⟨rfl,there,missing⟩ := nodeRan keyed found
  dsimp only at rest
  rw [if_pos checks] at rest
  cases r with
  | none =>
    cases rest
    refine ⟨keyed,Iff.rfl,?_⟩
    rw [if_neg fun both => missing rfl q both.1 both.2]
  | some n =>
    obtain ⟨_,s₂,virt,rest⟩ := Prog.bindOk.mp rest
    cases virt
    have noted : Noted env.disk q m.name off s₁.fs (setSimfs s₁.fs n (growVirt off)) :=
      grownNoted keyed (there n rfl).2 q
    cases dir with
    | read =>
      rw [transferFiles rest]
      exact noted
    | write =>
      obtain ⟨_,s₃,phys,rest⟩ := Prog.bindOk.mp rest
      cases phys
      rw [transferFiles rest]
      have steady := physSteady (q := q) noted.keyed n m.curPos off
      exact ⟨keyedSet noted.keyed n _,(setLoaded _ _ _ _).trans noted.loaded,
        steady.size.trans noted.size⟩

def inTree (disk : Disk) (fs : Trie Simfs) (name : CName) : Prop :=
  ∃ n, leadsTo disk n name = true ∧ Loaded fs n

theorem endNoted {dir : Direction} {m : FdMap} {off : UInt64} {op : SendfileOp} {goOn : Bool}
    (checks : checking env = true) (keyed : Keyed sim.fs) (q : List Bytes)
    (ran : sendfileEnd env dir m off op sim = .ok (goOn,sim')) :
    Noted env.disk q m.name (off + op.retval.toUInt64) sim.fs sim'.fs ∧
      (goOn = true → inTree env.disk sim.fs m.name) := by
  obtain ⟨r,s₁,found,rest⟩ := Prog.bindOk.mp ran
  obtain ⟨rfl,there,missing⟩ := nodeRan keyed found
  dsimp only at rest
  rw [if_pos checks] at rest
  cases r with
  | none =>
    cases rest
    refine ⟨⟨keyed,Iff.rfl,?_⟩,fun goes => absurd goes (by simp)⟩
    rw [if_neg fun both => missing rfl q both.1 both.2]
  | some n =>
    obtain ⟨_,s₂,virt,rest⟩ := Prog.bindOk.mp rest
    cases virt
    have files : sim'.fs = setSimfs s₁.fs n (growVirt (off + op.retval.toUInt64)) := by
      split at rest
      · cases rest
        cases dir <;> rfl
      · cases rest
        rfl
    rw [files]
    exact ⟨grownNoted keyed (there n rfl).2 q,fun _ => ⟨n,(there n rfl).2,(there n rfl).1⟩⟩

def Inside (disk : Disk) (q : List Bytes) (fs : Trie Simfs) (inMap : Option FdMap) (out : FdMap)
    (op : SendfileOp) : Prop :=
  (∀ m, inMap = some m → leadsTo disk q m.name = true →
    ((if op.offset = OFFSET_INVAL then m.curPos else op.offset.toUInt64) +
      op.retval.toUInt64).toNat ≤ needed fs q) ∧
  ((∀ m, inMap = some m → inTree disk fs m.name) → leadsTo disk q out.name = true →
    (out.curPos + op.retval.toUInt64).toNat ≤ needed fs q)

theorem Noted.steady {name : CName} {off : UInt64} {fs fs' : Trie Simfs}
    (noted : Noted disk q name off fs fs')
    (inside : leadsTo disk q name = true → off.toNat ≤ needed fs q) : Steady q fs fs' := by
  refine ⟨noted.loaded.mpr,?_⟩
  rw [noted.size]
  split
  · rename_i both
    exact Nat.max_eq_left (inside both.1)
  · rfl

theorem sendfileSteady {inMap : Option FdMap} {out : FdMap} {op : SendfileOp}
    (checks : checking env = true) (keyed : Keyed sim.fs)
    (inside : Inside env.disk q sim.fs inMap out op)
    (ran : simulateSendfile env inMap (some out) op sim = .ok ((),sim')) :
    Steady q sim.fs sim'.fs := by
  obtain ⟨r,s₁,found,rest⟩ := Prog.bindOk.mp ran
  obtain ⟨rfl,_⟩ := nodeRan keyed found
  cases inMap with
  | none =>
    dsimp only at rest
    rw [Prog.bindOf (Prog.pureRun _ _),if_pos rfl] at rest
    obtain ⟨_,s₂,last,done⟩ := Prog.bindOk.mp rest
    cases done
    refine (endNoted checks keyed q last).1.steady (inside.2 fun m none => ?_)
    cases none
  | some m =>
    obtain ⟨goOn,s₂,first,rest⟩ := Prog.bindOk.mp rest
    obtain ⟨noted,there⟩ := endNoted checks keyed q first
    have steady := noted.steady (inside.1 m rfl)
    cases goOn with
    | false =>
      dsimp only at rest
      rw [if_neg (by simp)] at rest
      cases rest
      exact steady
    | true =>
      dsimp only at rest
      rw [if_pos rfl] at rest
      obtain ⟨_,s₃,last,done⟩ := Prog.bindOk.mp rest
      cases done
      refine steady.trans ((endNoted checks noted.keyed q last).1.steady fun leads => ?_)
      rw [steady.size]
      refine inside.2 (fun m' is => ?_) leads
      cases is
      exact there rfl

end Names
section Served
variable {env : Env} {s s' : State} {q : List Bytes} {sim sim' : Sim}

def Stays (q : List Bytes) (sim sim' : Sim) : Prop :=
  Keyed sim.fs → Keyed sim'.fs ∧ Steady q sim.fs sim'.fs

theorem staysRun (steps : ReflTransGen (Stays q) sim sim') : Stays q sim sim' := by
  intro keyed
  induction steps with
  | refl => exact ⟨keyed,.refl q _⟩
  | tail _ last ih =>
    obtain ⟨keyed',steady⟩ := last ih.1
    exact ⟨keyed',ih.2.trans steady⟩

theorem ifCheckingRan {α : Type} {env : SimEnv} {m : SimfsProg α}
    (ran : ifChecking env m sim = .ok ((),sim')) :
    sim' = sim ∨ ∃ a fs', m sim.fs = .ok (a,fs') ∧ sim' = { sim with fs := fs' } := by
  unfold ifChecking at ran
  split at ran
  · obtain ⟨a,mid,one,last⟩ := Prog.bindOk.mp ran
    cases last
    unfold onSimfs at one
    split at one
    · rename_i done
      cases one
      exact .inr ⟨_,_,done,rfl⟩
    · cases one
  · cases ran
    exact .inl rfl

theorem suppliesStays (real : env.sim.disk.Real) (q : List Bytes) : Supplies env (Stays q) := by
  intro op _ succeeded
  refine ⟨fun name sim u sim' ran => .single fun keyed => ?_⟩
  rcases ifCheckingRan ran with rfl | ⟨a,fs',creates,rfl⟩
  · exact ⟨keyed,.refl q _⟩
  · have grows : Growing (simfsCreat env.sim.disk { op with name := name }) sim.fs
        fun _ _ => True := creatGrows real succeeded
    exact grownSteady keyed (grows.okElim creates).1 q

variable (env) in
def served (pid fd : Int32) (info : OpInfo) : Replay (Option FdItem) := do
  match ← processHt env pid with
  | none => pure none
  | some t => replicateGetFdMap env t fd info

theorem servedStays (real : env.sim.disk.Real) (q : List Bytes) (pid fd : Int32) (info : OpInfo) :
    Within (Stays q) (served env pid fd info) := by
  refine .bind (processHtWithin pid) fun r => ?_
  cases r with
  | none => exact .pure _
  | some t => exact getFdMapWithin (suppliesStays real q) t fd info

theorem withItemServed {pid fd : Int32} {info : OpInfo} {act : Nat → FdItem → Replay Unit}
    (ran : withItem env pid fd info act s = .ok ((),s')) :
    ∃ r s₁, served env pid fd info s = .ok (r,s₁) ∧ (r = none ∧ s' = s₁ ∨
      ∃ t item, r = some item ∧ act t item s₁ = .ok ((),s')) := by
  obtain ⟨r,s₀,asked,rest⟩ := Prog.bindOk.mp ran
  cases r with
  | none =>
    cases rest
    exact ⟨none,s',by rw [served,Prog.bindOf asked]; rfl,.inl ⟨rfl,rfl⟩⟩
  | some t =>
    obtain ⟨r,s₁,got,rest⟩ := Prog.bindOk.mp rest
    have whole : served env pid fd info s = .ok (r,s₁) := by
      rw [served,Prog.bindOf asked]
      exact got
    cases r with
    | none =>
      cases rest
      exact ⟨none,s',whole,.inl ⟨rfl,rfl⟩⟩
    | some item => exact ⟨some item,s₁,whole,.inr ⟨t,item,rfl,rest⟩⟩

def servedMap (env : Env) (s : State) (pid fd : Int32) (info : OpInfo) : Option FdMap :=
  (served env pid fd info s).toOption.bind fun r => r.1.bind fun item => r.2.fdMaps.read item.fdMap

theorem readMapRan {a : Nat} {m : FdMap} (ran : readMap a s = .ok (m,s')) :
    s' = s ∧ s.fdMaps.read a = some m := by
  cases live : s.fdMaps.read a with
  | none => simp [readMap,Prog.bindRun,live] at ran
  | some n =>
    cases (readMapLive live).symm.trans ran
    exact ⟨rfl,rfl⟩

theorem onSimRan {m : SimProg Unit} (ran : onSim m s = .ok ((),s')) :
    m s.sim = .ok ((),s'.sim) := by
  unfold onSim at ran
  split at ran
  · rename_i done
    cases ran
    exact done
  · cases ran

theorem transferServed {fd : Int32} {info : OpInfo} {recorded : Int64} {moves : Bool}
    {simulate : FdMap → SimProg Unit} {replay : Int32 → Call} (simulates : env.actSimulate = true)
    (ran : replicateTransfer env fd info recorded moves simulate replay s = .ok ((),s')) :
    ∃ r s₁, served env info.pid fd info s = .ok (r,s₁) ∧ (servedMap env s info.pid fd info = none ∧
        s'.sim = s₁.sim ∨
      ∃ m, servedMap env s info.pid fd info = some m ∧
        if supportedType m.type = true ∧ recorded ≠ -1 then
          simulate m s₁.sim = .ok ((),s'.sim)
        else s'.sim = s₁.sim) := by
  obtain ⟨r,s₁,whole,rest⟩ := withItemServed ran
  have map : servedMap env s info.pid fd info = r.bind fun item => s₁.fdMaps.read item.fdMap := by
    rw [servedMap,whole]
    rfl
  refine ⟨r,s₁,whole,?_⟩
  rcases rest with ⟨rfl,rfl⟩ | ⟨t,item,rfl,rest⟩
  · exact .inl ⟨map,rfl⟩
  right
  obtain ⟨m,s₂,read,acts⟩ := Prog.bindOk.mp rest
  obtain ⟨rfl,live⟩ := readMapRan read
  refine ⟨m,map.trans live,?_⟩
  split at acts
  · rename_i supported
    obtain ⟨retval,s₃,result,last⟩ := Prog.bindOk.mp acts
    have after : s'.sim = s₃.sim := by
      split at last
      · cases last
        rfl
      · cases last
        rfl
    rw [transferResult,if_pos simulates] at result
    rw [after]
    split at result
    · rename_i succeeded
      rw [if_pos ⟨supported,succeeded⟩]
      obtain ⟨_,s₄,one,done⟩ := Prog.bindOk.mp result
      cases done
      exact onSimRan one
    · rename_i failed
      rw [if_neg fun both => failed both.2]
      cases result
      rfl
  · rename_i unsupported
    rw [if_neg fun both => unsupported both.1]
    cases acts
    rfl

end Served
section Transfers
variable {env : Env} {s s' : State} {q : List Bytes}

structure Transfer where
  fd : Int32
  info : OpInfo
  retval : Int64
  offset : Option Int64

def Op.transfer : Op → Option Transfer
  | .read o => some ⟨o.fd,o.info,o.retval,none⟩
  | .write o => some ⟨o.fd,o.info,o.retval,none⟩
  | .pread o => some ⟨o.fd,o.info,o.retval,some o.offset⟩
  | .pwrite o => some ⟨o.fd,o.info,o.retval,some o.offset⟩
  | _ => none

def Transfer.reach (x : Transfer) (m : FdMap) : Int :=
  (match x.offset with
    | none => (m.curPos.toNat : Int)
    | some offset => offset.toInt) + x.retval.toInt

-- An open gives these types, to files that are ignored too.
def FileType.byName : FileType → Bool
  | .reg | .dir | .ignore => true
  | _ => false

def Transfer.reached (env : Env) (q : List Bytes) (s : State) (x : Transfer) : Option Int :=
  (servedMap env s x.info.pid x.fd x.info).bind fun m =>
    if x.retval ≠ -1 ∧ m.type.byName = true ∧ leadsTo env.sim.disk q m.name = true then
      some (x.reach m)
    else none

/-- What the check makes of the transfer goes no further than the transfer, and no less far, when
`v` is noted: for read and write the sum is a uint64, for pread and pwrite it is the position that
is looked at, and an ignored file is not looked at. -/
def Transfer.Fits (x : Transfer) (m : FdMap) (v : Int) : Prop :=
  if supportedType m.type = true then
    match x.offset with
    | none => max v (x.reach m % UInt64.size) = max v (x.reach m)
    | some _ => max v m.curPos.toNat = max v (x.reach m)
  else x.reach m ≤ v

def Transfer.told (x : Transfer) (m : FdMap) : UInt64 :=
  match x.offset with
  | none => m.curPos + x.retval.toUInt64
  | some _ => m.curPos

theorem addMod (a : UInt64) (n : Int64) :
    ((a + n.toUInt64).toNat : Int) = (a.toNat + n.toInt) % UInt64.size := by
  have signed : n.toInt % UInt64.size = (n.toUInt64.toNat : Int) % UInt64.size := by
    rw [← Int64.toInt_toBitVec,BitVec.toInt_eq_toNat_bmod]
    exact Int.bmod_emod
  rw [UInt64.toNat_add,Int.natCast_mod,Int.natCast_add,Int.add_emod _ n.toInt,signed,
    ← Int.add_emod]

theorem Transfer.Fits.told {x : Transfer} {m : FdMap} {v : Int} (fits : x.Fits m v)
    (supported : supportedType m.type = true) : max v (x.told m).toNat = max v (x.reach m) := by
  unfold Transfer.Fits at fits
  rw [if_pos supported] at fits
  unfold Transfer.told
  cases named : x.offset with
  | none =>
    rw [named] at fits
    dsimp only at fits ⊢
    rw [addMod,← fits,Transfer.reach,named]
  | some offset =>
    rw [named] at fits
    exact fits

theorem transferNeeded (x : Transfer) {dir : Direction} {moves : Bool} {offset : FdMap → Int64}
    {replay : Int32 → Call} (simulates : env.actSimulate = true) (checks : checking env.sim = true)
    (real : env.sim.disk.Real) (keyed : Keyed s.sim.fs)
    (fits : ∀ m, servedMap env s x.info.pid x.fd x.info = some m → x.reached env q s ≠ none →
      x.Fits m (needed s.sim.fs q))
    (there : x.reached env q s ≠ none → Loaded s'.sim.fs q)
    (ran : replicateTransfer env x.fd x.info x.retval moves
      (fun m => simulateRw env.sim dir m (x.told m) (offset m) x.retval x.info) replay s =
        .ok ((),s')) :
    (needed s'.sim.fs q : Int) =
      (x.reached env q s).elim (needed s.sim.fs q : Int) (max (needed s.sim.fs q : Int)) := by
  obtain ⟨r,s₁,whole,ends⟩ := transferServed simulates ran
  obtain ⟨keyed₁,steady⟩ := staysRun (servedStays real q _ _ _ s r s₁ whole) keyed
  rcases ends with ⟨none,same⟩ | ⟨m,map,ends⟩
  · have nothing : x.reached env q s = Option.none := by
      rw [Transfer.reached,none,Option.bind_none]
    rw [nothing,Option.elim_none,same,steady.size]
  · have reached : x.reached env q s = if x.retval ≠ -1 ∧ m.type.byName = true ∧
        leadsTo env.sim.disk q m.name = true then some (x.reach m) else none := by
      rw [Transfer.reached,map,Option.bind_some]
    split at ends
    · rename_i both
      have named : m.type.byName = true := by
        have supported := both.1
        cases type : m.type <;> simp_all [supportedType,FileType.byName]
      have noted := rwNoted checks keyed₁ q ends
      rw [noted.size,steady.size]
      by_cases leads : leadsTo env.sim.disk q m.name = true
      · rw [if_pos ⟨both.2,named,leads⟩] at reached
        have some : x.reached env q s ≠ none := by simp [reached]
        rw [if_pos ⟨leads,noted.loaded.mp (there some)⟩,reached,Option.elim_some]
        rw [← (fits m map some).told both.1]
        omega
      · rw [if_neg fun both => leads both.2.2] at reached
        rw [if_neg fun both => leads both.1,reached,Option.elim_none]
    · rename_i nothing
      rw [ends,steady.size,reached]
      split
      · rename_i counted
        have unsupported : ¬ supportedType m.type = true := fun is => nothing ⟨is,counted.1⟩
        have small := fits m map (by rw [reached,if_pos counted]; simp)
        rw [Transfer.Fits,if_neg unsupported] at small
        rw [Option.elim_some,max_eq_left small]
      · rfl

end Transfers
section Ends
variable {env : Env} {s s' : State} {q : List Bytes} {o : SendfileOp}

variable (env) in
def servedEnds (o : SendfileOp) : Replay (Option (FdMap × FdMap)) := do
  match ← processHt env o.info.pid with
  | none => pure none
  | some t =>
    match ← replicateGetFdMap env t o.outFd o.info with
    | none => pure none
    | some outItem =>
      match ← replicateGetFdMap env t o.inFd o.info with
      | none => pure none
      | some inItem => do
        let outMap ← readMap outItem.fdMap
        let inMap ← readMap inItem.fdMap
        pure (some (inMap,outMap))

theorem servedEndsStays (real : env.sim.disk.Real) (q : List Bytes) (o : SendfileOp) :
    Within (Stays q) (servedEnds env o) := by
  have supplies := suppliesStays real q
  refine .bind (processHtWithin _) fun r => ?_
  cases r with
  | none => exact .pure _
  | some t =>
    refine .bind (getFdMapWithin supplies t _ _) fun r => ?_
    cases r with
    | none => exact .pure _
    | some outItem =>
      refine .bind (getFdMapWithin supplies t _ _) fun r => ?_
      cases r with
      | none => exact .pure _
      | some inItem =>
        exact .bind (readMapWithin _) fun _ => .bind (readMapWithin _) fun _ => .pure _

def sendfileActs (env : Env) (o : SendfileOp) (inItem outItem : FdItem) (inMap outMap : FdMap) :
    Replay Unit :=
  if supportedType inMap.type ∨ supportedType outMap.type then do
    let retval ← sendfileResult env o inMap outMap
    if retval = -1 ∧ retval ≠ o.retval then pure ()
    else do
      advanceInput o retval inItem.fdMap
      advance outItem.fdMap retval
  else pure ()

theorem sendfileServed (ran : replicateSendfile env o s = .ok ((),s')) :
    ∃ r s₁, servedEnds env o s = .ok (r,s₁) ∧ (r = none ∧ s' = s₁ ∨
      ∃ inMap outMap inItem outItem, r = some (inMap,outMap) ∧
        sendfileActs env o inItem outItem inMap outMap s₁ = .ok ((),s')) := by
  obtain ⟨r,s₀,asked,rest⟩ := Prog.bindOk.mp ran
  unfold servedEnds
  rw [Prog.bindOf asked]
  cases r with
  | none =>
    cases rest
    exact ⟨none,s',rfl,.inl ⟨rfl,rfl⟩⟩
  | some t =>
    obtain ⟨r,s₁,output,rest⟩ := Prog.bindOk.mp rest
    dsimp only
    rw [Prog.bindOf output]
    cases r with
    | none =>
      cases rest
      exact ⟨none,s',rfl,.inl ⟨rfl,rfl⟩⟩
    | some outItem =>
      obtain ⟨r,s₂,input,rest⟩ := Prog.bindOk.mp rest
      dsimp only
      rw [Prog.bindOf input]
      cases r with
      | none =>
        cases rest
        exact ⟨none,s',rfl,.inl ⟨rfl,rfl⟩⟩
      | some inItem =>
        obtain ⟨outMap,s₃,one,rest⟩ := Prog.bindOk.mp rest
        obtain ⟨inMap,s₄,two,acts⟩ := Prog.bindOk.mp rest
        dsimp only
        rw [Prog.bindOf one,Prog.bindOf two]
        exact ⟨some (inMap,outMap),s₄,rfl,.inr ⟨inMap,outMap,inItem,outItem,rfl,acts⟩⟩

theorem Within.quiet {α : Type} {m : Replay α} {a : α} (within : Within (fun _ _ => False) m)
    (ran : m s = .ok (a,s')) : s'.sim = s.sim := by
  have alone {x y : Sim} (steps : ReflTransGen (fun _ _ : Sim => False) x y) : y = x := by
    cases steps with
    | refl => rfl
    | tail _ never => exact never.elim
  exact alone (within s a s' ran)

theorem advanceQuiet (o : SendfileOp) (retval : Int64) (inItem outItem : FdItem) :
    Within (fun _ _ => False) (if retval = -1 ∧ retval ≠ o.retval then pure ()
      else do
        advanceInput o retval inItem.fdMap
        advance outItem.fdMap retval) := by
  split
  · exact .pure _
  · refine .bind ?_ fun _ => advanceWithin _ _
    unfold advanceInput
    split
    · exact advanceWithin _ _
    · exact .pure _

theorem actsSim {inItem outItem : FdItem} {inMap outMap : FdMap}
    (simulates : env.actSimulate = true)
    (idle : env.actReplicate = false)
    (ran : sendfileActs env o inItem outItem inMap outMap s = .ok ((),s')) : s'.sim = s.sim ∨
      o.retval ≠ -1 ∧ supportedType outMap.type = true ∧
        simulateSendfile env.sim (if supportedType inMap.type then some inMap else none)
          (some outMap) o s.sim = .ok ((),s'.sim) := by
  unfold sendfileActs at ran
  split at ran
  · obtain ⟨retval,s₁,result,last⟩ := Prog.bindOk.mp ran
    rw [(advanceQuiet o retval inItem outItem).quiet last]
    unfold sendfileResult at result
    rw [if_neg (by simp [idle]),if_pos simulates] at result
    split at result
    · rename_i succeeded
      obtain ⟨_,s₂,one,done⟩ := Prog.bindOk.mp result
      cases done
      have sends := onSimRan one
      by_cases supported : supportedType outMap.type = true
      · rw [if_pos supported] at sends
        exact .inr ⟨succeeded,supported,sends⟩
      · rw [if_neg supported] at sends
        cases sends
    · cases result
      exact .inl rfl
  · cases ran
    exact .inl rfl

theorem endsNeeded (simulates : env.actSimulate = true) (idle : env.actReplicate = false)
    (checks : checking env.sim = true) (real : env.sim.disk.Real) (keyed : Keyed s.sim.fs)
    (inside : ∀ inMap outMap s₁, servedEnds env o s = .ok (some (inMap,outMap),s₁) →
      o.retval ≠ -1 → supportedType outMap.type = true → Inside env.sim.disk q s₁.sim.fs
        (if supportedType inMap.type then some inMap else none) outMap o)
    (ran : replicateSendfile env o s = .ok ((),s')) : needed s'.sim.fs q = needed s.sim.fs q := by
  obtain ⟨r,s₁,whole,ends⟩ := sendfileServed ran
  obtain ⟨keyed₁,steady⟩ := staysRun (servedEndsStays real q o s r s₁ whole) keyed
  rcases ends with ⟨_,rfl⟩ | ⟨inMap,outMap,inItem,outItem,rfl,acts⟩
  · exact steady.size
  · rcases actsSim simulates idle acts with same | ⟨succeeded,supported,sends⟩
    · rw [same,steady.size]
    · have still := inside inMap outMap s₁ whole succeeded supported
      rw [(sendfileSteady checks keyed₁ still sends).size,steady.size]

end Ends
section Paths
variable {env : Env} {s s' : State} {q : List Bytes}

def Once (env : Env) (sim sim' : Sim) : Prop :=
  sim' = sim ∨ ∃ c, simulateCall env.sim c sim = .ok ((),sim')

theorem pathOnce {name : CName} {replay : CName → Call} {simulate : CName → SimProg Unit}
    (idle : env.actReplicate = false) (ran : replicatePath env name replay simulate s = .ok ((),s'))
    (asks : ∀ n, ∃ c, simulate n = simulateCall env.sim c) : Once env s.sim s'.sim := by
  unfold replicatePath at ran
  cases seen : namemapGetName env.namemap name with
  | none =>
    rw [seen] at ran
    cases ran
    exact .inl rfl
  | some n =>
    rw [seen] at ran
    dsimp only at ran
    rw [if_neg (by simp [idle])] at ran
    split at ran
    · obtain ⟨c,same⟩ := asks n
      rw [same] at ran
      exact .inr ⟨c,onSimRan ran⟩
    · cases ran
      exact .inl rfl

theorem failedOnce {o : OpenOp} (idle : env.actReplicate = false)
    (ran : replicateFailedOpen env o s = .ok ((),s')) : Once env s.sim s'.sim := by
  unfold replicateFailedOpen at ran
  cases seen : namemapGetName env.namemap o.name with
  | none =>
    rw [seen] at ran
    cases ran
    exact .inl rfl
  | some n =>
    rw [seen] at ran
    dsimp only at ran
    rw [if_neg (by simp [idle])] at ran
    split at ran
    · exact .inr ⟨.creat { o with name := n },onSimRan ran⟩
    · cases ran
      exact .inl rfl

theorem openedOnce {o : OpenOp} {name : CName} {flags n : Int32} (idle : env.actReplicate = false)
    (ran : openedFd env o name flags s = .ok (n,s')) : Once env s.sim s'.sim := by
  unfold openedFd at ran
  rw [if_neg (by simp [idle])] at ran
  obtain ⟨_,s₁,one,number⟩ := Prog.bindOk.mp ran
  rw [simulateGetOpenFdWithin.quiet number]
  unfold simulateOpened at one
  split at one
  · exact .inr ⟨.creat { o with name := name },onSimRan one⟩
  · cases one
    exact .inl rfl

theorem openOnce {o : OpenOp} (idle : env.actReplicate = false)
    (ran : replicateOpen env o s = .ok ((),s')) : Once env s.sim s'.sim := by
  unfold replicateOpen at ran
  dsimp only at ran
  split at ran
  · exact failedOnce idle ran
  · obtain ⟨r,s₁,asked,rest⟩ := Prog.bindOk.mp ran
    have first := (processHtWithin _).quiet asked
    cases r with
    | none =>
      cases rest
      exact .inl first
    | some t =>
      obtain ⟨r,s₂,found,rest⟩ := Prog.bindOk.mp rest
      have second := (findItemWithin t _).quiet found
      cases r with
      | some item =>
        cases rest
        exact .inl (second.trans first)
      | none =>
        obtain ⟨n,s₃,number,rest⟩ := Prog.bindOk.mp rest
        have third := openedOnce idle number
        rw [second,first] at third
        split at rest
        · cases rest
          exact third
        · rw [(newItemWithin t _ _ _ _).quiet rest]
          exact third

theorem onceNeeded {sim sim' : Sim} (real : env.sim.disk.Real) (keyed : Keyed sim.fs)
    (once : Once env sim sim') (stays : Loaded sim.fs q → Loaded sim'.fs q) :
    needed sim'.fs q = needed sim.fs q := by
  rcases once with rfl | ⟨c,ran⟩
  · rfl
  · have checked {α : Type} {m : SimfsProg α} (trims : Trims m sim.fs)
        (ran : ifChecking env.sim m sim = .ok ((),sim')) : needed sim'.fs q = needed sim.fs q := by
      rcases ifCheckingRan ran with rfl | ⟨a,fs',did,rfl⟩
      · rfl
      · exact trimsSteady keyed trims did stays
    cases c with
    | access o => exact checked (probeTrims real _ _ _) ran
    | stat o => exact checked (probeTrims real _ _ _) ran
    | mkdir o => exact checked (mkdirTrims real o) ran
    | creat o => exact checked (creatTrims real o) ran
    | unlink o => exact checked (unlinkTrims real o) ran
    | rmdir o => exact checked (unlinkTrims real _) ran

end Paths
section Runs
variable {env : Env} {s s' : State} {q : List Bytes} {pid : Int32}

def Op.reached (env : Env) (q : List Bytes) (s : State) (op : Op) : Option Int :=
  op.transfer.bind fun x => x.reached env q s

/-- The transfer is checked by where it ends, and no sendfile ends beyond what is noted. -/
structure Fits (env : Env) (q : List Bytes) (s : State) (op : Op) : Prop where
  transfer : ∀ x m, op.transfer = some x → servedMap env s x.info.pid x.fd x.info = some m →
    x.reached env q s ≠ none → x.Fits m (needed s.sim.fs q)
  sendfile : ∀ o inMap outMap s₁, op = .sendfile o →
    servedEnds env o s = .ok (some (inMap,outMap),s₁) → o.retval ≠ -1 →
    supportedType outMap.type = true → Inside env.sim.disk q s₁.sim.fs
      (if supportedType inMap.type then some inMap else none) outMap o

/-- The file is in the tree when it is accessed, and is not removed from it. -/
structure Remains (env : Env) (q : List Bytes) (s : State) (op : Op) (s' : State) : Prop where
  accessed : op.reached env q s ≠ none → Loaded s'.sim.fs q
  stays : Loaded s.sim.fs q → Loaded s'.sim.fs q

theorem transferRun (env : Env) {op : Op} {x : Transfer} (is : op.transfer = some x) :
    ∃ (dir : Direction) (moves : Bool) (offset : FdMap → Int64) (replay : Int32 → Call),
      replicateOp env op = replicateTransfer env x.fd x.info x.retval moves (fun m =>
        simulateRw env.sim dir m (x.told m) (offset m) x.retval x.info) replay := by
  cases op with
  | read o =>
    cases is
    exact ⟨.read,true,fun m => m.curPos.toInt64,(.read · o.size),rfl⟩
  | write o =>
    cases is
    exact ⟨.write,true,fun m => m.curPos.toInt64,(.write · o.size),rfl⟩
  | pread o =>
    cases is
    exact ⟨.read,false,fun _ => o.offset,(.pread · o.size o.offset),rfl⟩
  | pwrite o =>
    cases is
    exact ⟨.write,false,fun _ => o.offset,(.pwrite · o.size o.offset),rfl⟩
  | _ => cases is

theorem otherNeeded (simulates : env.actSimulate = true) (idle : env.actReplicate = false)
    (checks : checking env.sim = true) (real : env.sim.disk.Real) (keyed : Keyed s.sim.fs)
    {op : Op} (other : op.transfer = none) (stays : Loaded s.sim.fs q → Loaded s'.sim.fs q)
    (fits : Fits env q s op) (ran : replicateOp env op s = .ok ((),s')) :
    needed s'.sim.fs q = needed s.sim.fs q := by
  have supplies := suppliesStays real q
  have within (steady : Within (Stays q) (replicateOp env op)) :
      needed s'.sim.fs q = needed s.sim.fs q := (staysRun (steady s () s' ran) keyed).2.size
  have once (once : Once env s.sim s'.sim) : needed s'.sim.fs q = needed s.sim.fs q :=
    onceNeeded real keyed once stays
  cases op with
  | read | write | pread | pwrite => cases other
  | sendfile o =>
    exact endsNeeded simulates idle checks real keyed (fun i w s₁ => fits.sendfile o i w s₁ rfl) ran
  | «open» o => exact once (openOnce idle ran)
  | unlink o => exact once (pathOnce idle ran fun _ => ⟨.unlink o,rfl⟩)
  | mkdir o => exact once (pathOnce idle ran fun _ => ⟨.mkdir o,rfl⟩)
  | rmdir o => exact once (pathOnce idle ran fun _ => ⟨.rmdir o,rfl⟩)
  | access o =>
    exact once (pathOnce idle ran fun n => ⟨.access { o with name := n },rfl⟩)
  | stat o =>
    exact once (pathOnce idle ran fun n => ⟨.stat { o with name := n },rfl⟩)
  | close o => exact within (closeWithin supplies o)
  | lseek o =>
    refine within ?_
    simp only [replicateOp,replicateLseek]
    exact seekWithin supplies _ _ _ _ _
  | llseek o =>
    refine within ?_
    simp only [replicateOp,replicateLlseek]
    exact seekWithin supplies _ _ _ _ _
  | clone o => exact within (cloneWithin o)
  | dup o | dup2 o | dup3 o => exact within (dupWithin supplies o)
  | pipe o => exact within (pipeWithin o)
  | socket o => exact within (socketWithin o)

/-- The step lemma: what is noted grows to the end of the transfer. -/
theorem stepNeeded (simulates : env.actSimulate = true) (idle : env.actReplicate = false)
    (checks : checking env.sim = true) (real : env.sim.disk.Real) (keyed : Keyed s.sim.fs)
    {op : Op} (remains : Remains env q s op s') (fits : Fits env q s op)
    (ran : replicateOp env op s = .ok ((),s')) : (needed s'.sim.fs q : Int) =
      (op.reached env q s).elim (needed s.sim.fs q : Int) (max (needed s.sim.fs q : Int)) := by
  cases is : op.transfer with
  | some x =>
    have moved : op.reached env q s = x.reached env q s := by
      rw [Op.reached,is,Option.bind_some]
    have there := remains.accessed
    rw [moved] at there ⊢
    obtain ⟨dir,moves,offset,replay,same⟩ := transferRun env is
    rw [same] at ran
    exact transferNeeded x simulates checks real keyed (fun m => fits.transfer x m is) there ran
  | none =>
    rw [Op.reached,is,Option.bind_none,Option.elim_none,
      otherNeeded simulates idle checks real keyed is remains.stays fits ran]

/-- The states of a run, each with the largest end of the transfers through descriptors opened
under a name of the path. -/
inductive Measured (env : Env) (pid : Int32) (q : List Bytes)
    (meets : State → Op → State → Prop) : State → Int → Prop where
  | init {s : State} (ran : initialised env pid = some s) : Measured env pid q meets s 0
  | step {s s' : State} {op : Op} {n : Int} (before : Measured env pid q meets s n)
      (met : meets s op s') (ran : replicateOp env op s = .ok ((),s')) :
      Measured env pid q meets s' ((op.reached env q s).elim n (max n))

/-- The run lemma: what is noted is the largest end. -/
theorem measuredNeeded (simulates : env.actSimulate = true) (idle : env.actReplicate = false)
    (checks : checking env.sim = true) (real : env.sim.disk.Real) {n : Int}
    (measured : Measured env pid q
      (fun s op s' => Remains env q s op s' ∧ Fits env q s op) s n) :
    Keyed s.sim.fs ∧ (needed s.sim.fs q : Int) = n := by
  induction measured with
  | init ran =>
    have first := (initBegan ran).sim
    rw [first]
    refine ⟨keyedInit,?_⟩
    cases q <;> rfl
  | step before met ran ih =>
    obtain ⟨keyed,size⟩ := ih
    refine ⟨opKeyed real ran keyed,?_⟩
    rw [stepNeeded simulates idle checks real keyed met.1 met.2 ran,size]

/-- In check mode the size noted for a file that stays in the tree is the largest end of the
transfers, as long as every record fits. -/
theorem virtSizeNeeded (simulates : env.actSimulate = true) (idle : env.actReplicate = false)
    (checks : checking env.sim = true) (real : env.sim.disk.Real) {n : Int}
    (measured : Measured env pid q
      (fun s op s' => Remains env q s op s' ∧ Fits env q s op) s n) {simfs : Simfs}
    (there : s.sim.fs.root.at? q = some simfs) : (simfs.virtSize.toNat : Int) = n := by
  obtain ⟨_,size⟩ := measuredNeeded simulates idle checks real measured
  rw [needed,there,Option.elim_some] at size
  exact size

instance : (x : Transfer) → (m : FdMap) → (v : Int) → Decidable (x.Fits m v)
  | ⟨_,_,_,none⟩,m,v => inferInstanceAs
    (Decidable (if supportedType m.type = true then max v _ = max v _ else _ ≤ v))
  | ⟨_,_,_,some _⟩,m,v => inferInstanceAs
    (Decidable (if supportedType m.type = true then max v _ = max v _ else _ ≤ v))

def remains (env : Env) (q : List Bytes) (s : State) (op : Op) (s' : State) : Bool :=
  ((op.reached env q s).isNone || (s'.sim.fs.root.at? q).isSome) &&
    ((s.sim.fs.root.at? q).isNone || (s'.sim.fs.root.at? q).isSome)

theorem remainsOf {op : Op} (tested : remains env q s op s' = true) : Remains env q s op s' := by
  obtain ⟨accessed,stays⟩ := Bool.and_eq_true_iff.mp tested
  constructor
  · intro reached
    exact ((Bool.or_eq_true _ _).mp accessed).resolve_left fun none =>
      reached (Option.isNone_iff_eq_none.mp none)
  · intro there
    refine ((Bool.or_eq_true _ _).mp stays).resolve_left fun none => ?_
    rw [Loaded,Option.isNone_iff_eq_none.mp none] at there
    cases there

def fitting (env : Env) (q : List Bytes) (s : State) (op : Op) : Bool :=
  (op.transfer.all fun x => (servedMap env s x.info.pid x.fd x.info).all fun m =>
    decide (x.Fits m (needed s.sim.fs q))) &&
  match op with
  | .sendfile _ => false
  | _ => true

theorem fittingOf {op : Op} (tested : fitting env q s op = true) : Fits env q s op := by
  obtain ⟨transfer,sendfile⟩ := Bool.and_eq_true_iff.mp tested
  constructor
  · intro x m is map _
    rw [is,Option.all_some,map,Option.all_some] at transfer
    exact of_decide_eq_true transfer
  · intro o _ _ _ is
    rw [is] at sendfile
    cases sendfile

def measuredRun (env : Env) (q : List Bytes) (test : State → Op → State → Bool) :
    List Op → State × Int → Option (State × Int)
  | [],r => some r
  | op :: rest,(s,n) => (after env [op] s).bind fun s' =>
    if test s op s' then measuredRun env q test rest (s',(op.reached env q s).elim n (max n))
    else none

theorem measuredRunOf {meets : State → Op → State → Prop} {test : State → Op → State → Bool}
    (tests : ∀ s op s', test s op s' = true → meets s op s') {ops : List Op} {n n' : Int}
    (before : Measured env pid q meets s n)
    (made : measuredRun env q test ops (s,n) = some (s',n')) : Measured env pid q meets s' n' := by
  induction ops generalizing s n with
  | nil =>
    cases made
    exact before
  | cons op rest ih =>
    rw [measuredRun] at made
    obtain ⟨mid,one,more⟩ := Option.bind_eq_some_iff.mp made
    split at more
    · rename_i tested
      exact ih (.step before (tests _ _ _ tested) (afterOne one)) more
    · cases more

theorem measuredStart {meets : State → Op → State → Prop} {test : State → Op → State → Bool}
    (tests : ∀ s op s', test s op s' = true → meets s op s') {ops : List Op}
    {ends : State × Int → Bool} (made : ((initialised env pid).bind fun s =>
      measuredRun env q test ops (s,0)).any ends = true) :
    ∃ s n, Measured env pid q meets s n ∧ ends (s,n) = true := by
  obtain ⟨⟨s,n⟩,ran,last⟩ := (Option.any_eq_true _ _).mp made
  obtain ⟨first,begins,rest⟩ := Option.bind_eq_some_iff.mp ran
  exact ⟨s,n,measuredRunOf tests (.init begins) rest,last⟩

def fileF : List Bytes := [[0x66]]

theorem virtSizeNeededWritten : ∃ (s : State) (simfs : Simfs),
    s.sim.fs.root.at? fileF = some simfs ∧
    (simfs.virtSize.toNat : Int) = 5 := by
  have made : ((initialised checkMode 7).bind fun s => measuredRun checkMode fileF
      (fun s op s' => remains checkMode fileF s op s' && fitting checkMode fileF s op)
      [opened 7 "/f" 3,wrote 7 3 5,.pread ⟨3,3,2,3,blankInfo 7⟩] (s,0)).any
      (fun r : State × Int => (r.1.sim.fs.root.at? fileF).isSome && r.2 = 5) = true := by
    decide +kernel
  have tests (s : State) (op : Op) (s' : State)
      (tested : (remains checkMode fileF s op s' && fitting checkMode fileF s op) = true) :
      Remains checkMode fileF s op s' ∧ Fits checkMode fileF s op := by
    obtain ⟨stays,fits⟩ := Bool.and_eq_true_iff.mp tested
    exact ⟨remainsOf stays,fittingOf fits⟩
  obtain ⟨s,n,measured,ends⟩ := measuredStart tests made
  obtain ⟨there,size⟩ := Bool.and_eq_true_iff.mp ends
  obtain ⟨simfs,there⟩ := Option.isSome_iff_exists.mp there
  have noted := virtSizeNeeded rfl rfl rfl checkModeReal measured there
  exact ⟨s,simfs,there,noted.trans (of_decide_eq_true size)⟩

theorem preadSizeMissed : ¬ ∀ (env : Env) (pid : Int32) (q : List Bytes) (s : State) (n : Int)
    (simfs : Simfs), env.actSimulate = true → env.actReplicate = false →
    checking env.sim = true → env.sim.disk.Real →
    Measured env pid q (Remains env q) s n → s.sim.fs.root.at? q = some simfs →
    (simfs.virtSize.toNat : Int) = n := by
  intro all
  have made : ((initialised checkMode 7).bind fun s => measuredRun checkMode fileF
      (remains checkMode fileF) [opened 7 "/f" 3,.pread ⟨3,5,10,5,blankInfo 7⟩] (s,0)).any
      (fun r : State × Int => (r.1.sim.fs.root.at? fileF).any fun simfs : Simfs =>
        decide ((simfs.virtSize.toNat : Int) ≠ r.2)) = true := by
    decide +kernel
  obtain ⟨s,n,measured,ends⟩ := measuredStart (fun s op s' => remainsOf) made
  obtain ⟨simfs,there,wrong⟩ := (Option.any_eq_true _ _).mp ends
  exact of_decide_eq_true wrong
    (all checkMode 7 fileF s n simfs rfl rfl rfl checkModeReal measured there)

end Runs
end IoApps
