import IoApps.ReplicateSizes
import IoApps.TrieTraversal

/-! What a check ends with: a line for each file that the disk lacks or has too little of. -/
namespace IoApps
open Lib (Bytes Tree Paths tokens)

structure CheckLine where
  fullName : Bytes
  virtSize : UInt64
  text : String
  deriving DecidableEq, Repr

def recreateIt : String := "File is too small, recreate it."
def doesntExist : String := "File doesn't exist at all."

def simfsIsFile (fs : Trie Simfs) (n : List Bytes) : Bool := (fs.root.walk n).any Trie.isLeaf

def simulateCheckFile (fs : Trie Simfs) (lines : List CheckLine) (n : List Bytes)
    (fullName : Bytes) : List CheckLine :=
  match fs.root.at? n with
  | none => lines
  | some simfs =>
    if simfs.physical then
      if simfs.virtSize > simfs.physSize then lines ++ [⟨fullName,simfs.virtSize,recreateIt⟩]
      else lines
    else if simfsIsFile fs n ∧ simfs.created = false then
      lines ++ [⟨fullName,simfs.virtSize,doesntExist⟩]
    else lines

structure CheckReport where
  heading : String
  lines : List CheckLine
  deriving DecidableEq, Repr

def simulateCheckFiles (fs : Trie Simfs) (buff : Bytes) : Except TrieFault CheckReport :=
  (fs.applyFull (simulateCheckFile fs) buff []).map (⟨"Create following files:",·⟩)

inductive Lacks (fs : Trie Simfs) (n : List Bytes) : UInt64 → String → Prop where
  | small {simfs : Simfs} (there : fs.root.at? n = some simfs) (onDisk : simfs.physical = true)
      (small : simfs.physSize < simfs.virtSize) : Lacks fs n simfs.virtSize recreateIt
  | missing {simfs : Simfs} (there : fs.root.at? n = some simfs)
      (offDisk : simfs.physical = false) (recorded : simfs.created = false)
      (last : ∀ q ∈ fs.root.paths, n <+: q → q = n) : Lacks fs n simfs.virtSize doesntExist

/-- The lines are what is wrong with the nodes: one line for each such node, under a name that
finds it, and behind the lines of the nodes below it. -/
structure Reports (fs : Trie Simfs) (lines : List CheckLine) : Prop where
  exact : ∀ n size text, Lacks fs n size text ↔
    ∃ l ∈ lines, fs.find l.fullName = some n ∧ l.virtSize = size ∧ l.text = text
  found : ∀ l ∈ lines, ∃ n, fs.find l.fullName = some n
  once : lines.Pairwise fun l later => fs.find l.fullName ≠ fs.find later.fullName
  upwards : lines.Pairwise fun l later => ∀ n m, fs.find l.fullName = some n →
    fs.find later.fullName = some m → ¬ n <+: m

section Lines
variable {fs : Trie Simfs} {n : List Bytes}

theorem isFileIff (there : (fs.root.at? n).isSome) :
    simfsIsFile fs n = true ↔ ∀ q ∈ fs.root.paths, n <+: q → q = n := by
  rw [Tree.at?,Option.isSome_map] at there
  obtain ⟨node,found⟩ := Option.isSome_iff_exists.mp there
  rw [simfsIsFile,found,Option.any_some]
  exact Trie.leafIff found

def lineOf (fs : Trie Simfs) (n : List Bytes) (fullName : Bytes) : List CheckLine :=
  simulateCheckFile fs [] n fullName

theorem checkFileAppend (lines : List CheckLine) (n : List Bytes) (fullName : Bytes) :
    simulateCheckFile fs lines n fullName = lines ++ lineOf fs n fullName := by
  unfold lineOf simulateCheckFile
  split
  · rw [List.append_nil]
  · split
    · split <;> simp
    · split <;> simp

theorem lineOfIff (n : List Bytes) (fullName : Bytes) (l : CheckLine) :
    l ∈ lineOf fs n fullName ↔ l.fullName = fullName ∧ Lacks fs n l.virtSize l.text := by
  constructor
  · intro member
    unfold lineOf simulateCheckFile at member
    split at member
    · cases member
    · rename_i simfs there
      split at member
      · rename_i onDisk
        split at member
        · rename_i small
          obtain rfl := List.mem_singleton.mp member
          exact ⟨rfl,.small there onDisk small⟩
        · cases member
      · rename_i offDisk
        split at member
        · rename_i both
          obtain rfl := List.mem_singleton.mp member
          have last := (isFileIff (Option.isSome_iff_exists.mpr ⟨_,there⟩)).mp both.1
          exact ⟨rfl,.missing there (Bool.not_eq_true _ ▸ offDisk) both.2 last⟩
        · cases member
  · intro ⟨named,lacks⟩
    obtain ⟨name,size,text⟩ := l
    cases named
    cases lacks with
    | small there onDisk small =>
      unfold lineOf simulateCheckFile
      simp [there,onDisk,small,recreateIt]
    | missing there offDisk recorded last =>
      have file := (isFileIff (Option.isSome_iff_exists.mpr ⟨_,there⟩)).mpr last
      unfold lineOf simulateCheckFile
      simp [there,offDisk,recorded,file,doesntExist]

theorem lineOfOne (n : List Bytes) (fullName : Bytes) : (lineOf fs n fullName).length ≤ 1 := by
  unfold lineOf simulateCheckFile
  split
  · exact Nat.zero_le _
  · split
    · split <;> simp
    · split <;> simp

theorem handedLines (nodes : List (List Bytes)) (lines : List CheckLine) :
    Trie.handed (simulateCheckFile fs) fs.delim nodes lines =
      lines ++ nodes.flatMap fun n => lineOf fs n (Trie.fullName fs.delim n) := by
  induction nodes generalizing lines with
  | nil => exact (List.append_nil lines).symm
  | cons n rest ih =>
    have next := ih (simulateCheckFile fs lines n (Trie.fullName fs.delim n))
    rw [checkFileAppend,List.append_assoc] at next
    rw [List.flatMap_cons,← next,← checkFileAppend]
    rfl

end Lines
section Report
variable {fs : Trie Simfs} {buff : Bytes}

def Clean (fs : Trie Simfs) : Prop := ∀ n ∈ fs.root.paths, ∀ c ∈ n, 0 ∉ c

theorem lineFound (keyed : Keyed fs) {nodes : List (List Bytes)}
    (inside : ∀ n ∈ nodes, n ∈ fs.root.paths) {l : CheckLine} {n : List Bytes} (member : n ∈ nodes)
    (line : l ∈ lineOf fs n (Trie.fullName fs.delim n)) : fs.find l.fullName = some n := by
  rw [((lineOfIff n _ l).mp line).1]
  exact Trie.findFullName keyed.sound (inside n member)

theorem linesPairwise (keyed : Keyed fs) {nodes : List (List Bytes)}
    (inside : ∀ n ∈ nodes, n ∈ fs.root.paths)
    (upwards : nodes.Pairwise fun n later => ¬ n <+: later) :
    (nodes.flatMap fun n => lineOf fs n (Trie.fullName fs.delim n)).Pairwise fun l later =>
      ∀ n m, fs.find l.fullName = some n → fs.find later.fullName = some m → ¬ n <+: m := by
  rw [List.pairwise_flatMap]
  constructor
  · intro n _
    have one : (lineOf fs n (Trie.fullName fs.delim n)).length ≤ 1 := lineOfOne n _
    match lines : lineOf fs n (Trie.fullName fs.delim n) with
    | [] => exact .nil
    | [l] => exact List.pairwise_singleton _ _
    | l :: k :: more =>
      rw [lines] at one
      simp at one
  · refine List.Pairwise.imp_of_mem ?_ upwards
    intro n m here there aside l line l' line' p q found found'
    rw [lineFound keyed inside here line] at found
    rw [lineFound keyed inside there line'] at found'
    cases found
    cases found'
    exact aside

theorem reportRun (keyed : Keyed fs) (clean : Clean fs)
    (fits : ∀ n ∈ fs.root.paths, (Trie.fullName fs.delim n).length < MAX_LINE)
    (size : buff.length = MAX_LINE) :
    simulateCheckFiles fs buff = .ok ⟨"Create following files:",
      fs.root.postorder.flatMap fun n => lineOf fs n (Trie.fullName fs.delim n)⟩ := by
  rw [simulateCheckFiles,Trie.applyFullRun keyed.sound clean fits _ size,handedLines]
  rfl

theorem reportLines (keyed : Keyed fs) : Reports fs
    (fs.root.postorder.flatMap fun n => lineOf fs n (Trie.fullName fs.delim n)) := by
  have inside : ∀ n ∈ fs.root.postorder, n ∈ fs.root.paths := by
    intro n member
    rwa [Tree.memPaths,← Tree.memPostorder keyed.sound.distinct]
  have upwards := linesPairwise keyed inside (Tree.postorderUpwards keyed.sound.distinct)
  have found : ∀ l ∈ fs.root.postorder.flatMap fun n => lineOf fs n (Trie.fullName fs.delim n),
      ∃ n, fs.find l.fullName = some n := by
    intro l member
    obtain ⟨n,here,line⟩ := List.mem_flatMap.mp member
    exact ⟨n,lineFound keyed inside here line⟩
  refine ⟨?_,found,?_,upwards⟩
  · intro n size text
    constructor
    · intro lacks
      have there : n ∈ fs.root.postorder := by
        rw [Tree.memPostorder keyed.sound.distinct,← Tree.memPaths]
        cases lacks with
        | small there => exact Option.isSome_iff_exists.mpr ⟨_,there⟩
        | missing there => exact Option.isSome_iff_exists.mpr ⟨_,there⟩
      have line : (⟨Trie.fullName fs.delim n,size,text⟩ : CheckLine) ∈
          lineOf fs n (Trie.fullName fs.delim n) := (lineOfIff n _ _).mpr ⟨rfl,lacks⟩
      exact ⟨_,List.mem_flatMap.mpr ⟨n,there,line⟩,lineFound keyed inside there line,rfl,rfl⟩
    · intro ⟨l,member,named,same,same'⟩
      obtain ⟨m,here,line⟩ := List.mem_flatMap.mp member
      rw [lineFound keyed inside here line] at named
      cases named
      cases same
      cases same'
      exact ((lineOfIff n _ l).mp line).2
  · refine List.Pairwise.imp_of_mem ?_ upwards
    intro l later here there aside same
    obtain ⟨n,named⟩ := found l here
    exact aside n n named (same ▸ named) (List.prefix_refl n)

end Report
section Reached
variable {env : Env} {meets : State → Op → Prop} {pid : Int32} {s : State} {buff : Bytes}

theorem cleanSet {fs : Trie Simfs} (clean : Clean fs) (p : List Bytes) (f : Simfs → Simfs) :
    Clean (setSimfs fs p f) := by
  intro n inside
  refine clean n ?_
  change ((setSimfs fs p f).root.at? n).isSome = true at inside
  rw [setSimfs,Tree.atWrite] at inside
  change (fs.root.at? n).isSome = true
  split at inside
  · rwa [Option.isSome_map] at inside
  · exact inside

theorem cleanEdit {fs fs' : Trie Simfs} (edit : FsEdit fs fs') (keyed : Keyed fs)
    (clean : Clean fs) : Clean fs' := by
  cases edit with
  | @insert text pure new _ =>
    intro n inside c member
    have paths := (Trie.callPaths keyed.sound new (.insert ⟨text,pure⟩)).2.2
    change n ∈ (fs.runCall new (.insert ⟨text,pure⟩)).root.paths at inside
    rw [paths] at inside
    obtain old | ahead := Paths.memInsert.mp inside
    · exact clean n old c member
    · intro zero
      exact pure (Lib.tokensInside (ahead.subset member) zero)
  | @delete text pure =>
    intro n inside
    have paths := (Trie.callPaths keyed.sound simfsNewTrieNode (.delete ⟨text,pure⟩)).2.2
    change n ∈ (fs.runCall simfsNewTrieNode (.delete ⟨text,pure⟩)).root.paths at inside
    rw [paths] at inside
    exact clean n (Paths.memDelete.mp inside).1
  | set p _ => exact cleanSet clean p _

theorem simEditClean {sim sim' : Sim} (edit : SimEdit sim sim')
    (holds : Keyed sim.fs ∧ Clean sim.fs) : Keyed sim'.fs ∧ Clean sim'.fs := by
  refine ⟨simEditKeyed edit holds.1,?_⟩
  cases edit with
  | files edit => exact cleanEdit edit holds.1 holds.2
  | sized n f => exact cleanSet holds.2 n f
  | noted dir => cases dir <;> exact holds.2

theorem cleanInit : Clean simfsInit := by
  intro n inside c member
  have root : n = [] := by
    have there : n ∈ (Paths.only : Paths Bytes) := Tree.pathsLeaf (κ := Bytes) _ ▸ inside
    exact Paths.memOnly.mp there
  subst root
  cases member

theorem reachedClean (real : env.sim.disk.Real) (reached : Reached env meets pid s) :
    Keyed s.sim.fs ∧ Clean s.sim.fs :=
  reached.sim real (fun sim => Keyed sim.fs ∧ Clean sim.fs) ⟨keyedInit,cleanInit⟩
    fun _ _ => simEditClean

theorem checkReports {fs : Trie Simfs} (keyed : Keyed fs) (clean : Clean fs)
    (size : buff.length = MAX_LINE) {report : CheckReport}
    (ran : simulateCheckFiles fs buff = .ok report) : Reports fs report.lines := by
  rw [simulateCheckFiles] at ran
  cases applied : fs.applyFull (simulateCheckFile fs) buff [] with
  | error f =>
    rw [applied] at ran
    cases ran
  | ok lines =>
    have fits := (Trie.applyFullIff keyed.sound clean _ size _).mp ⟨lines,applied⟩
    have made := reportRun keyed clean fits size
    rw [simulateCheckFiles,applied] at made
    rw [applied] at ran
    cases ran
    cases made
    exact reportLines keyed

/-- After any trace, the check reports each file that the tree says is missing or too small,
once and under its name, and nothing else. -/
theorem reportExact (real : env.sim.disk.Real) (reached : Reached env meets pid s)
    (size : buff.length = MAX_LINE) {report : CheckReport}
    (ran : simulateCheckFiles s.sim.fs buff = .ok report) : Reports s.sim.fs report.lines := by
  obtain ⟨keyed,clean⟩ := reachedClean real reached
  exact checkReports keyed clean size ran

def emptyBuffer : Bytes := List.replicate MAX_LINE 0

theorem emptyBufferSize : emptyBuffer.length = MAX_LINE := List.length_replicate

def reported (env : Env) (pid : Int32) (ops : List Op) : Option (State × CheckReport) :=
  ((initialised env pid).bind (runOps env anyOp ops)).bind fun s =>
    (simulateCheckFiles s.sim.fs emptyBuffer).toOption.map fun report => (s,report)

theorem reportedRun {ops : List Op} {report : CheckReport}
    (made : reported env pid ops = some (s,report)) : Reached env anyOp pid s ∧
      simulateCheckFiles s.sim.fs emptyBuffer = .ok report := by
  obtain ⟨s',whole,one⟩ := Option.bind_eq_some_iff.mp made
  obtain ⟨report',written,same⟩ := Option.map_eq_some_iff.mp one
  cases same
  refine ⟨Reached.run whole,?_⟩
  cases result : simulateCheckFiles s.sim.fs emptyBuffer with
  | error f =>
    rw [result] at written
    cases written
  | ok r =>
    rw [result] at written
    cases written
    rfl

theorem reportExactMissing : ∃ (s : State) (report : CheckReport),
    simulateCheckFiles s.sim.fs emptyBuffer = .ok report ∧
      report.lines.map CheckLine.virtSize = [5] ∧ Reports s.sim.fs report.lines := by
  have made : (reported checkMode 7 [opened 7 "/f" 3,wrote 7 3 5]).any
      (fun r => r.2.lines.map CheckLine.virtSize = [5]) = true := by decide +kernel
  obtain ⟨⟨s,report⟩,made,sizes⟩ := (Option.any_eq_true _ _).mp made
  obtain ⟨reached,ran⟩ := reportedRun made
  exact ⟨s,report,ran,of_decide_eq_true sizes,
    reportExact checkModeReal reached emptyBufferSize ran⟩

/-- The report is written unless a path of the tree is so long that it does not fit the array
together with the second slash that is put in front of it. -/
theorem reportFits (real : env.sim.disk.Real) (reached : Reached env meets pid s)
    (size : buff.length = MAX_LINE) :
    (∃ report, simulateCheckFiles s.sim.fs buff = .ok report) ↔
      ∀ q, Loaded s.sim.fs q → (Lib.joined slash q).length < MAX_LINE - 1 := by
  obtain ⟨keyed,clean⟩ := reachedClean real reached
  have names : (∀ q ∈ s.sim.fs.root.paths, (Trie.fullName s.sim.fs.delim q).length < MAX_LINE) ↔
      ∀ q, Loaded s.sim.fs q → (Lib.joined slash q).length < MAX_LINE - 1 := by
    refine forall_congr' fun q => imp_congr Iff.rfl ?_
    rw [Trie.fullName,keyed.delim,List.length_cons,MAX_LINE]
    omega
  rw [← names,← Trie.applyFullIff keyed.sound clean (simulateCheckFile s.sim.fs) size [],
    simulateCheckFiles]
  cases s.sim.fs.applyFull (simulateCheckFile s.sim.fs) buff [] with
  | error f => simp [Except.map]
  | ok lines => simp [Except.map]

def longestPath : CName where
  bytes := slash :: List.replicate (MAX_STRING - 2) 0x61
  noNul := by
    intro member
    obtain zero | more := List.mem_cons.mp member
    · cases zero
    · cases List.eq_of_mem_replicate more
  fits := by rw [List.length_cons,List.length_replicate]; decide

theorem reportFitsLongest : ∃ s, Reached checkMode anyOp 7 s ∧
    ¬ ∃ report, simulateCheckFiles s.sim.fs emptyBuffer = .ok report := by
  have checked : ((initialised checkMode 7).bind (runOps checkMode anyOp
      [.stat ⟨longestPath,0,blankInfo 7⟩])).any (fun s => (s.sim.fs.root.at?
        [List.replicate (MAX_STRING - 2) 0x61]).isSome) = true := by decide +kernel
  obtain ⟨s,ran,there⟩ := (Option.any_eq_true _ _).mp checked
  have reached := Reached.run ran
  refine ⟨s,reached,fun written => ?_⟩
  have short := (reportFits checkModeReal reached emptyBufferSize).mp written _ there
  simp only [Lib.joinedCons,List.length_cons,List.length_append,List.length_replicate,
    MAX_STRING,MAX_LINE] at short
  omega

end Reached
section Sizes
variable {env : Env} {pid : Int32} {q : List Bytes} {s : State} {n : Int}

theorem Measured.reached {meets : State → Op → State → Prop}
    (measured : Measured env pid q meets s n) :
    Reached env anyOp pid s := by
  induction measured with
  | init ran => exact .init ran
  | step _ _ ran ih => exact .step ih trivial ran

/-- A file that is on the disk and stays in the tree is reported exactly when a transfer went
beyond the size it is known to have, which writes raise; and the line says how far they went. -/
theorem smallReported (simulates : env.actSimulate = true) (idle : env.actReplicate = false)
    (checks : checking env.sim = true) (real : env.sim.disk.Real)
    (measured : Measured env pid q
      (fun s op s' => Remains env q s op s' ∧ Fits env q s op) s n) {simfs : Simfs}
    (there : s.sim.fs.root.at? q = some simfs) (onDisk : simfs.physical = true) {buff : Bytes}
    (size : buff.length = MAX_LINE) {report : CheckReport}
    (ran : simulateCheckFiles s.sim.fs buff = .ok report) :
    (simfs.physSize.toNat < n ↔ ∃ l ∈ report.lines, s.sim.fs.find l.fullName = some q) ∧
      ∀ l ∈ report.lines, s.sim.fs.find l.fullName = some q →
        (l.virtSize.toNat : Int) = n ∧ l.text = recreateIt := by
  obtain ⟨keyed,clean⟩ := reachedClean real measured.reached
  have reports := checkReports keyed clean size ran
  have far : (simfs.virtSize.toNat : Int) = n := by
    have noted := (measuredNeeded simulates idle checks real measured).2
    rwa [needed,there,Option.elim_some] at noted
  have only : ∀ l ∈ report.lines, s.sim.fs.find l.fullName = some q →
      l.virtSize = simfs.virtSize ∧ l.text = recreateIt ∧ simfs.physSize < simfs.virtSize := by
    intro l member found
    have lacks := (reports.exact q l.virtSize l.text).mpr ⟨l,member,found,rfl,rfl⟩
    generalize l.virtSize = size at lacks
    generalize l.text = text at lacks
    cases lacks with
    | small there' _ small =>
      cases there.symm.trans there'
      exact ⟨rfl,rfl,small⟩
    | missing there' offDisk =>
      cases there.symm.trans there'
      rw [onDisk] at offDisk
      cases offDisk
  refine ⟨⟨?_,?_⟩,?_⟩
  · intro beyond
    have small : simfs.physSize < simfs.virtSize := by
      rw [UInt64.lt_iff_toNat_lt]
      omega
    obtain ⟨l,member,found,_⟩ := (reports.exact q _ _).mp (.small there onDisk small)
    exact ⟨l,member,found⟩
  · intro reported
    obtain ⟨l,member,found⟩ := reported
    have small := UInt64.lt_iff_toNat_lt.mp (only l member found).2.2
    omega
  · intro l member found
    obtain ⟨same,text,_⟩ := only l member found
    rw [same]
    exact ⟨far,text⟩

def threeBytes : Env :=
  { checkMode with sim := ⟨⟨false,true,false⟩,⟨fun _ => true,fun _ => 3,some [slash]⟩⟩ }

theorem threeBytesReal : threeBytes.sim.disk.Real := by
  intro c given
  cases given
  decide

theorem smallReportedRead : ∃ (s : State) (report : CheckReport),
    simulateCheckFiles s.sim.fs emptyBuffer = .ok report ∧
      ∃ l ∈ report.lines, s.sim.fs.find l.fullName = some fileF := by
  have made : ((initialised threeBytes 7).bind fun s => measuredRun threeBytes fileF
      (fun s op s' => remains threeBytes fileF s op s' && fitting threeBytes fileF s op)
      [opened 7 "/f" 3,.read ⟨3,5,5,blankInfo 7⟩] (s,0)).any
      (fun r : State × Int => (r.1.sim.fs.root.at? fileF).any
        (fun simfs : Simfs => simfs.physical && simfs.physSize = 3) && r.2 = 5 &&
        (simulateCheckFiles r.1.sim.fs emptyBuffer).toBool) = true := by decide +kernel
  have tests (s : State) (op : Op) (s' : State)
      (tested : (remains threeBytes fileF s op s' && fitting threeBytes fileF s op) = true) :
      Remains threeBytes fileF s op s' ∧ Fits threeBytes fileF s op := by
    obtain ⟨stays,fits⟩ := Bool.and_eq_true_iff.mp tested
    exact ⟨remainsOf stays,fittingOf fits⟩
  obtain ⟨s,n,measured,ends⟩ := measuredStart tests made
  obtain ⟨both,written⟩ := Bool.and_eq_true_iff.mp ends
  obtain ⟨there,far⟩ := Bool.and_eq_true_iff.mp both
  obtain ⟨simfs,there,known⟩ := (Option.any_eq_true _ _).mp there
  obtain ⟨onDisk,physSize⟩ := Bool.and_eq_true_iff.mp known
  cases ran : simulateCheckFiles s.sim.fs emptyBuffer with
  | error f =>
    rw [ran] at written
    cases written
  | ok report =>
    have beyond : (simfs.physSize.toNat : Int) < n := by
      have three := of_decide_eq_true physSize
      have five : n = 5 := of_decide_eq_true far
      rw [three,five]
      decide
    exact ⟨s,report,ran,(smallReported rfl rfl rfl threeBytesReal measured there onDisk
      emptyBufferSize ran).1.mp beyond⟩

end Sizes
end IoApps
