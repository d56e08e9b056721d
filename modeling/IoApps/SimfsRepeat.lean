import IoApps.SimfsLookup

/-! The two calls that only look: access against stat, and each of them made twice. -/
namespace IoApps
open Lib (Bytes Tree Paths Prog tokens)

section Probe
variable {disk : Disk} {fs : Trie Simfs} {text : Bytes} {r m : Nat}

structure StopsAt (disk : Disk) (text : Bytes) (r m : Nat) : Prop where
  low : r ≤ m
  short : m < (tokens slash text).length
  ahead : Ahead disk text r m
  absent : Absent disk text r m

def Missing (disk : Disk) (fs : Trie Simfs) (text : Bytes) : Prop :=
  ∃ m, StopsAt disk text (fs.root.reach (tokens slash text)) m

inductive Searched (disk : Disk) (fs : Trie Simfs) (text : Bytes) (r : Nat) : Prop where
  | there (same : text = buffText text r)
  | found (differs : text ≠ buffText text r) (fs' : Trie Simfs) (rest : Bytes × Bytes)
      (ahead : Ahead disk text r (tokens slash text).length)
      (ran : simfsPopulate disk text.length (buffText text r) (missingText text r) fs =
        .ok ((true,rest),fs')) (grown : Grown fs fs' (tokens slash text))
  | stopped (differs : text ≠ buffText text r) (fs' : Trie Simfs) (rest : Bytes × Bytes) (m : Nat)
      (stops : StopsAt disk text r m)
      (ran : simfsPopulate disk text.length (buffText text r) (missingText text r) fs =
        .ok ((false,rest),fs')) (grown : Grown fs fs' ((tokens slash text).take m))
  | tooLong (differs : text ≠ buffText text r) (m : Nat) (low : r ≤ m)
      (short : m < (tokens slash text).length) (ahead : Ahead disk text r m)
      (exceeds : text.length < (asked text r m).length)
      (ran : simfsPopulate disk text.length (buffText text r) (missingText text r) fs =
        .error .overrun)

theorem searched (disk : Disk) (keyed : Keyed fs) (clean : 0 ∉ text)
    (reached : fs.root.reach (tokens slash text) = r) : Searched disk fs text r := by
  by_cases same : text = buffText text r
  · exact .there same
  · obtain ⟨m,low,bound,ahead,ends⟩ := populateText disk keyed clean reached
    rcases ends with ⟨existing,missing,fs',ran,grown,absent,_,_⟩ | ⟨short,exceeds,ran⟩
    · rcases Nat.lt_or_eq_of_le bound with short | full
      · rw [decide_eq_false (Nat.ne_of_lt short)] at ran
        exact .stopped same fs' (existing,missing) m ⟨low,short,ahead,absent short⟩ ran grown
      · rw [decide_eq_true full] at ran
        rw [full,List.take_length] at grown
        exact .found same fs' (existing,missing) (full ▸ ahead) ran grown
    · exact .tooLong same m low short ahead exceeds ran

theorem stopsNotFound (stops : StopsAt disk text r m)
    (ahead : Ahead disk text r (tokens slash text).length) : False := by
  have yes := ahead.found m stops.low stops.short
  rw [stops.absent.2] at yes
  exact Bool.false_ne_true yes

theorem stopsNotLong {k : Nat} (stops : StopsAt disk text r m) (low : r ≤ k)
    (ahead : Ahead disk text r k) (exceeds : text.length < (asked text r k).length) : False := by
  rcases Nat.lt_trichotomy m k with before | same | after
  · have yes := ahead.found m stops.low before
    rw [stops.absent.2] at yes
    exact Bool.false_ne_true yes
  · subst same
    exact absurd stops.absent.1 (Nat.not_le.mpr exceeds)
  · exact absurd (stops.ahead.fits k low after) (Nat.not_le.mpr exceeds)

end Probe
section Agree
variable {disk : Disk} {fs : Trie Simfs}

def Agree (disk : Disk) (fs : Trie Simfs) (access : AccessOp) (stat : StatOp) : Prop :=
  simfsAccess disk access fs = simfsStat disk stat fs ∧
    ∀ v fs', simfsAccess disk access fs = .ok (v,fs') → v ≠ none

def NotFound (disk : Disk) (fs : Trie Simfs) (name : CName) : Prop :=
  ∃ text, simfsAbsoluteName disk.cwd name.bytes MAX_LINE = .ok text ∧ Missing disk fs text

theorem probeFails {name : CName} {e : SimfsFault}
    (named : simfsAbsoluteName disk.cwd name.bytes MAX_LINE = .error e)
    (missingRv : Option Verdict) (retval : Int32) :
    simfsProbe disk missingRv name retval fs = .error e := by
  rw [simfsProbe,Prog.bindRun,simfsLocate,Prog.bindRun,ofExcept,named]
  rfl

section Named
variable {name : CName} {text : Bytes}

theorem probeRuns (keyed : Keyed fs) (clean : 0 ∉ text)
    (named : simfsAbsoluteName disk.cwd name.bytes MAX_LINE = .ok text) {r : Nat}
    (reached : fs.root.reach (tokens slash text) = r) (missingRv : Option Verdict)
    (retval : Int32) : ∃ simfs, fs.root.at? ((tokens slash text).take r) = some simfs ∧
      simfsProbe disk missingRv name retval fs =
        if text = buffText text r then
          if retval = 0 then .ok (some .ok,fs)
          else .ok (some .eent,if simfs.physical then (fs.delete text).1 else fs)
        else
          match simfsPopulate disk text.length (buffText text r) (missingText text r) fs with
          | .error e => .error e
          | .ok ((true,_),fs') =>
            if retval = 0 then .ok (some .ok,fs') else .ok (some .eent,(fs'.delete text).1)
          | .ok ((false,_),fs') =>
            if retval = 0 then .ok (missingRv,(fs'.insert2 text simfsNewTrieNode).1)
            else .ok (some .ok,fs') := by
  obtain ⟨simfs,data,located⟩ := locateText keyed clean named reached
  refine ⟨simfs,data,?_⟩
  rw [simfsProbe,Prog.bindOf located]
  dsimp only
  split
  · by_cases zero : retval = 0
    · simp only [if_pos zero,Prog.pureRun]
    · simp only [if_neg zero]
      cases simfs.physical <;> rfl
  · rw [← missingText,Prog.bindRun]
    cases ran : simfsPopulate disk text.length (buffText text r) (missingText text r) fs with
    | error e => rfl
    | ok res =>
      obtain ⟨⟨exist,rest⟩,fs'⟩ := res
      by_cases zero : retval = 0
      · cases exist <;> simp [zero,trieInsert,Prog.bindRun]
      · cases exist <;> simp [zero,trieDelete,Prog.bindRun]

end Named

theorem probesAgree (real : disk.Real) (reached : FsReached disk anyCall fs) {access : AccessOp}
    {stat : StatOp} (names : stat.name = access.name) (retvals : stat.retval = access.retval) :
    Agree disk fs access stat ↔ ¬ (access.retval = 0 ∧ NotFound disk fs access.name) := by
  have keyed := keyedReached real reached
  unfold Agree simfsAccess simfsStat
  rw [names,retvals]
  cases named : simfsAbsoluteName disk.cwd access.name.bytes MAX_LINE with
  | error e =>
    rw [probeFails named,probeFails named]
    refine ⟨fun _ found => ?_,fun _ => ⟨rfl,fun v fs' ran => by cases ran⟩⟩
    obtain ⟨text,other,_⟩ := found.2
    rw [named] at other
    cases other
  | ok text =>
    have clean := absoluteClean real access.name.noNul named
    have same : NotFound disk fs access.name ↔ Missing disk fs text := by
      constructor
      · intro found
        obtain ⟨other,whole,missing⟩ := found
        rw [named] at whole
        cases whole
        exact missing
      · exact fun missing => ⟨text,named,missing⟩
    obtain ⟨simfs,data,ranAccess⟩ := probeRuns keyed clean named rfl none access.retval
    obtain ⟨simfs',data',ranStat⟩ :=
      probeRuns keyed clean named rfl (some .enoent) access.retval
    cases Option.some.inj (data.symm.trans data')
    rw [same,ranAccess,ranStat]
    cases searched disk keyed clean rfl with
    | there here =>
      rw [if_pos here,if_pos here]
      refine ⟨fun _ both => ?_,fun _ => ⟨rfl,fun v fs' ran => ?_⟩⟩
      · obtain ⟨m,stops⟩ := both.2
        have full := ((textThere (reachText fs text)).mp here).1
        have low := stops.low
        have short := stops.short
        omega
      · split at ran <;> (cases ran; simp)
    | found differs fs' rest ahead ran grown =>
      rw [if_neg differs,if_neg differs,ran]
      refine ⟨fun _ both => ?_,fun _ => ⟨rfl,fun v fs' ran => ?_⟩⟩
      · obtain ⟨m,stops⟩ := both.2
        exact stopsNotFound stops ahead
      · dsimp only at ran
        split at ran <;> (cases ran; simp)
    | stopped differs fs' rest m stops ran grown =>
      rw [if_neg differs,if_neg differs,ran]
      dsimp only
      by_cases zero : access.retval = 0
      · rw [if_pos zero,if_pos zero]
        refine ⟨fun agree => ?_,fun none => absurd ⟨zero,m,stops⟩ none⟩
        cases agree.1
      · rw [if_neg zero,if_neg zero]
        exact ⟨fun _ both => zero both.1,fun _ => ⟨rfl,fun v fs' ran => by cases ran; simp⟩⟩
    | tooLong differs m low short ahead exceeds ran =>
      rw [if_neg differs,if_neg differs,ran]
      refine ⟨fun _ both => ?_,fun _ => ⟨rfl,fun v fs' ran => by cases ran⟩⟩
      obtain ⟨k,stops⟩ := both.2
      exact stopsNotLong stops low ahead exceeds

def nameX : CName := ⟨[0x2f,0x78],by decide,by decide⟩

theorem accessUnset : ¬ ∀ (disk : Disk) (fs : Trie Simfs), disk.Real → FsReached disk anyCall fs →
    ∀ (access : AccessOp) (stat : StatOp), stat.name = access.name →
      stat.retval = access.retval → Agree disk fs access stat := by
  intro all
  have agree := all ⟨fun _ => false,fun _ => 0,none⟩ simfsInit (fun c same => by cases same) .init
    ⟨nameX,0,0,noInfo⟩ ⟨nameX,0,noInfo⟩ rfl rfl
  have ran : (simfsAccess ⟨fun _ => false,fun _ => 0,none⟩ ⟨nameX,0,0,noInfo⟩ simfsInit).toOption.map
      Prod.fst = some none := by decide
  obtain ⟨res,ended,unset⟩ := Option.map_eq_some_iff.mp ran
  obtain ⟨v,fs'⟩ := res
  refine agree.2 v fs' ?_ unset
  cases both : simfsAccess ⟨fun _ => false,fun _ => 0,none⟩ ⟨nameX,0,0,noInfo⟩ simfsInit with
  | error e => simp [both,Except.toOption] at ended
  | ok res => simpa [both,Except.toOption] using ended

theorem probesAgreeFailed : Agree atW simfsInit ⟨nameX,0,-1,noInfo⟩ ⟨nameX,-1,noInfo⟩ :=
  (probesAgree (fun c same => by cases same; decide) .init rfl rfl).mpr fun both =>
    absurd both.1 (by decide)

end Agree
section Twice
variable {disk : Disk} {fs : Trie Simfs} {text : Bytes} {r m : Nat}

def Repaired (call : SimfsProg (Option Verdict)) (fs : Trie Simfs) : Prop :=
  ∃ v fs', call fs = .ok (v,fs') ∧ call fs' = .ok (some .ok,fs')

def FitsRoom (disk : Disk) (fs : Trie Simfs) (text : Bytes) : Prop :=
  ∀ m, fs.root.reach (tokens slash text) ≤ m → m < (tokens slash text).length →
    Ahead disk text (fs.root.reach (tokens slash text)) m →
      (asked text (fs.root.reach (tokens slash text)) m).length ≤ text.length

/-- How many components of a name the tree has after a call that found the name recorded as
missing: it was there and goes, it is on the disk and goes again, or it is missing. -/
inductive Leaves (disk : Disk) (fs : Trie Simfs) (text : Bytes) (m : Nat) : Prop where
  | there (size : (tokens slash text).length = m + 1)
      (full : fs.root.reach (tokens slash text) = m + 1)
      (goes : trailing text ≤ 1 → ∀ x, fs.root.at? (tokens slash text) = some x →
        x.physical = true)
  | found (size : (tokens slash text).length = m + 1)
      (low : fs.root.reach (tokens slash text) ≤ m) (ahead : Ahead disk text
        (fs.root.reach (tokens slash text)) (m + 1))
  | stopped (stops : StopsAt disk text (fs.root.reach (tokens slash text)) m)

/-- When one discrepancy is reported once: success was recorded, or the disk does not have the
component the second call asks for first. -/
def ReportedOnce (disk : Disk) (fs : Trie Simfs) (name : CName) (retval : Int32) : Prop :=
  ∃ text, simfsAbsoluteName disk.cwd name.bytes MAX_LINE = .ok text ∧
    (retval = 0 ∧ FitsRoom disk fs text ∨
      retval ≠ 0 ∧ ∃ m, Leaves disk fs text m ∧ Absent disk text m m)

section Named
variable {name : CName} {missingRv : Option Verdict} {retval : Int32}

theorem probeLoaded (missingRv : Option Verdict) (keyed : Keyed fs) (clean : 0 ∉ text)
    (named : simfsAbsoluteName disk.cwd name.bytes MAX_LINE = .ok text)
    (full : fs.root.reach (tokens slash text) = (tokens slash text).length) :
    simfsProbe disk missingRv name 0 fs = .ok (some .ok,fs) := by
  obtain ⟨simfs,_,run⟩ := probeRuns keyed clean named rfl missingRv 0
  rw [run]
  split
  · rfl
  · rw [populateLoaded disk fs full]
    rfl

theorem probeConfirms (keyed : Keyed fs) (clean : 0 ∉ text)
    (named : simfsAbsoluteName disk.cwd name.bytes MAX_LINE = .ok text) (failed : retval ≠ 0)
    (reached : fs.root.reach (tokens slash text) = m) (short : m < (tokens slash text).length) :
    simfsProbe disk missingRv name retval fs = .ok (some .ok,fs) ↔ Absent disk text m m := by
  obtain ⟨simfs,_,run⟩ := probeRuns keyed clean named reached missingRv retval
  rw [run]
  constructor
  · intro same
    cases searched disk keyed clean reached with
    | there here =>
      have full := ((textThere (reached ▸ reachText fs text)).mp here).1
      omega
    | found differs fs' rest ahead ran grown =>
      rw [if_neg differs,ran] at same
      dsimp only at same
      rw [if_neg failed] at same
      cases same
    | stopped differs fs' rest k stops ran grown =>
      rw [if_neg differs,ran] at same
      dsimp only at same
      rw [if_neg failed] at same
      cases same
      have low := stops.low
      have whole := reachGrown (reached ▸ low) (Nat.le_of_lt stops.short) grown
      obtain rfl : k = m := whole.symm.trans reached
      exact stops.absent
    | tooLong differs k low short ahead exceeds ran =>
      rw [if_neg differs,ran] at same
      cases same
  · intro absent
    have differs : text ≠ buffText text m := fun here => by
      have full := ((textThere (Nat.le_of_lt short)).mp here).1
      omega
    rw [if_neg differs,populateAbsent disk fs short absent]
    dsimp only
    rw [if_neg failed]

theorem afterDelete (keyed : Keyed fs) (clean : 0 ∉ text)
    (named : simfsAbsoluteName disk.cwd name.bytes MAX_LINE = .ok text) (failed : retval ≠ 0)
    (size : (tokens slash text).length = m + 1)
    (full : fs.root.reach (tokens slash text) = m + 1) :
    simfsProbe disk missingRv name retval (fs.delete text).1 =
      .ok (some .ok,(fs.delete text).1) ↔ Absent disk text m m :=
  probeConfirms (keyedEdit (.delete clean) keyed) clean named failed
    (reachDeleted keyed size full) (by omega)

theorem afterRoot (keyed : Keyed fs) (clean : 0 ∉ text)
    (named : simfsAbsoluteName disk.cwd name.bytes MAX_LINE = .ok text) (failed : retval ≠ 0)
    (root : tokens slash text = []) :
    simfsProbe disk missingRv name retval fs ≠ .ok (some .ok,fs) := by
  obtain ⟨simfs,_,run⟩ := probeRuns keyed clean named rfl missingRv retval
  have full : fs.root.reach (tokens slash text) = (tokens slash text).length := by
    rw [root]
    rfl
  rw [run,populateLoaded disk fs full]
  simp only [if_neg failed]
  split <;> simp

theorem repairedSuccess (keyed : Keyed fs) (clean : 0 ∉ text)
    (named : simfsAbsoluteName disk.cwd name.bytes MAX_LINE = .ok text) :
    Repaired (simfsProbe disk missingRv name 0) fs ↔ FitsRoom disk fs text := by
  have bound := reachText fs text
  obtain ⟨simfs,_,run⟩ := probeRuns keyed clean named rfl missingRv 0
  cases searched disk keyed clean rfl with
  | there here =>
    have full := ((textThere bound).mp here).1
    have again := probeLoaded missingRv keyed clean named full
    exact ⟨fun _ m low short => by omega,fun _ => ⟨_,fs,again,again⟩⟩
  | found differs fs' rest ahead ran grown =>
    rw [if_neg differs,ran] at run
    have whole := grown
    rw [← List.take_length (l := tokens slash text)] at whole
    have again := probeLoaded missingRv grown.keyed clean named
      (reachGrown bound (Nat.le_refl _) whole)
    exact ⟨fun _ m low short _ => ahead.fits m low short,fun _ => ⟨_,fs',run,again⟩⟩
  | stopped differs fs' rest m stops ran grown =>
    rw [if_neg differs,ran] at run
    have whole := insertGrown grown.keyed clean simfsNewTrieNode rfl
    rw [← List.take_length (l := tokens slash text)] at whole
    have again := probeLoaded missingRv whole.keyed clean named
      (reachGrown (reachText fs' text) (Nat.le_refl _) whole)
    refine ⟨fun _ k low short ahead => ?_,fun _ => ⟨_,_,run,again⟩⟩
    exact Nat.le_of_not_lt fun exceeds => stopsNotLong stops low ahead exceeds
  | tooLong differs m low short ahead exceeds ran =>
    rw [if_neg differs,ran] at run
    constructor
    · intro repaired
      obtain ⟨v,fs',first,_⟩ := repaired
      rw [run] at first
      cases first
    · exact fun fitting => absurd (fitting m low short ahead) (Nat.not_le.mpr exceeds)

theorem repairedFailure (keyed : Keyed fs) (clean : 0 ∉ text)
    (named : simfsAbsoluteName disk.cwd name.bytes MAX_LINE = .ok text) (failed : retval ≠ 0) :
    Repaired (simfsProbe disk missingRv name retval) fs ↔
      ∃ m, Leaves disk fs text m ∧ Absent disk text m m := by
  have bound := reachText fs text
  obtain ⟨simfs,data,run⟩ := probeRuns keyed clean named rfl missingRv retval
  -- the first call returned, so only the second one decides
  have after {v : Option Verdict} {fs' : Trie Simfs}
      (first : simfsProbe disk missingRv name retval fs = .ok (v,fs')) :
      Repaired (simfsProbe disk missingRv name retval) fs ↔
        simfsProbe disk missingRv name retval fs' = .ok (some .ok,fs') := by
    constructor
    · intro repaired
      obtain ⟨u,other,again,second⟩ := repaired
      cases Except.ok.inj (first.symm.trans again)
      exact second
    · exact fun second => ⟨v,fs',first,second⟩
  cases searched disk keyed clean rfl with
  | there here =>
    obtain ⟨full,trail⟩ := (textThere bound).mp here
    have few : trailing text ≤ 1 := by omega
    rw [if_pos here,if_neg failed] at run
    rw [full,List.take_length] at data
    cases whole : tokens slash text with
    | nil =>
      have noneLeft (m : Nat) : ¬ Leaves disk fs text m := by
        intro leaves
        cases leaves with
        | there size => simp [whole] at size
        | found size => simp [whole] at size
        | stopped stops => exact absurd stops.short (by simp [whole])
      rw [after run]
      refine ⟨fun second => absurd second ?_,fun some => ?_⟩
      · split
        · exact afterRoot (keyedEdit (.delete clean) keyed) clean named failed whole
        · exact afterRoot keyed clean named failed whole
      · obtain ⟨m,leaves,_⟩ := some
        exact absurd leaves (noneLeft m)
    | cons c rest =>
      have size : (tokens slash text).length = rest.length + 1 := by rw [whole,List.length_cons]
      by_cases phys : simfs.physical = true
      · rw [if_pos phys] at run
        rw [after run,afterDelete keyed clean named failed size (full.trans size)]
        constructor
        · intro absent
          refine ⟨_,.there size (full.trans size) fun _ x found => ?_,absent⟩
          rw [data] at found
          cases found
          exact phys
        · intro some
          obtain ⟨m,leaves,absent⟩ := some
          cases leaves with
          | there other => rwa [show m = rest.length by omega] at absent
          | found other low => omega
          | stopped stops =>
            have low := stops.low
            have short := stops.short
            omega
      · rw [if_neg phys] at run
        rw [after run]
        refine ⟨fun second => ?_,fun some => ?_⟩
        · rw [run] at second
          cases second
        · obtain ⟨m,leaves,_⟩ := some
          cases leaves with
          | there other _ goes => exact absurd (goes few simfs data) phys
          | found other low => omega
          | stopped stops =>
            have low := stops.low
            have short := stops.short
            omega
  | found differs fs' rest ahead ran grown =>
    rw [if_neg differs,ran] at run
    dsimp only at run
    rw [if_neg failed] at run
    have loaded := grown
    rw [← List.take_length (l := tokens slash text)] at loaded
    have full' := reachGrown bound (Nat.le_refl _) loaded
    rw [after run]
    cases whole : tokens slash text with
    | nil =>
      refine ⟨fun second => absurd second ?_,fun some => ?_⟩
      · exact afterRoot (keyedEdit (.delete clean) grown.keyed) clean named failed whole
      · obtain ⟨m,leaves,_⟩ := some
        cases leaves with
        | there size => simp [whole] at size
        | found size => simp [whole] at size
        | stopped stops => exact absurd stops.short (by simp [whole])
    | cons c more =>
      have size : (tokens slash text).length = more.length + 1 := by rw [whole,List.length_cons]
      rw [afterDelete grown.keyed clean named failed size (full'.trans size)]
      constructor
      · intro absent
        rcases Nat.lt_or_eq_of_le bound with short | full
        · exact ⟨_,.found size (by omega) (size ▸ ahead),absent⟩
        · refine ⟨_,.there size (full.trans size) fun few => ?_,absent⟩
          refine absurd ((textThere bound).mpr ⟨full,?_⟩) differs
          omega
      · intro some
        obtain ⟨m,leaves,absent⟩ := some
        cases leaves with
        | there other => rwa [show m = more.length by omega] at absent
        | found other => rwa [show m = more.length by omega] at absent
        | stopped stops => exact absurd (stopsNotFound stops ahead) id
  | stopped differs fs' rest m stops ran grown =>
    rw [if_neg differs,ran] at run
    dsimp only at run
    rw [if_neg failed] at run
    have short := stops.short
    have reached := reachGrown stops.low (Nat.le_of_lt short) grown
    rw [after run,probeConfirms grown.keyed clean named failed reached short]
    constructor
    · exact fun absent => ⟨m,.stopped stops,absent⟩
    · intro some
      obtain ⟨k,leaves,absent⟩ := some
      have low := stops.low
      cases leaves with
      | there size full => omega
      | found size _ ahead => exact absurd (stopsNotFound stops (size ▸ ahead)) id
      | stopped other =>
        rcases Nat.lt_trichotomy k m with before | same | later
        · have yes := stops.ahead.found k other.low before
          rw [other.absent.2] at yes
          cases yes
        · exact same ▸ absent
        · have yes := other.ahead.found m low later
          rw [stops.absent.2] at yes
          cases yes
  | tooLong differs m low short ahead exceeds ran =>
    rw [if_neg differs,ran] at run
    constructor
    · intro repaired
      obtain ⟨v,fs',first,_⟩ := repaired
      rw [run] at first
      cases first
    · intro some
      obtain ⟨k,leaves,absent⟩ := some
      cases leaves with
      | there size full => omega
      | found size _ all =>
        exact absurd (all.fits m low (size ▸ short)) (Nat.not_le.mpr exceeds)
      | stopped stops => exact absurd (stopsNotLong stops low ahead exceeds) id

end Named

theorem repairedOnce (real : disk.Real) (keyed : Keyed fs) (missingRv : Option Verdict)
    (name : CName) (retval : Int32) :
    Repaired (simfsProbe disk missingRv name retval) fs ↔ ReportedOnce disk fs name retval := by
  unfold ReportedOnce
  cases named : simfsAbsoluteName disk.cwd name.bytes MAX_LINE with
  | error e =>
    constructor
    · intro repaired
      obtain ⟨v,fs',first,_⟩ := repaired
      rw [probeFails named] at first
      cases first
    · intro once
      obtain ⟨text,other,_⟩ := once
      cases other
  | ok text =>
    have clean := absoluteClean real name.noNul named
    simp only [Except.ok.injEq,exists_eq_left']
    by_cases zero : retval = 0
    · subst zero
      simpa using repairedSuccess keyed clean named
    · simpa [zero] using repairedFailure keyed clean named zero

/-- A discrepancy is reported once just when the disk no longer has what the second call asks
for. -/
theorem reportedOnce (real : disk.Real) (reached : FsReached disk anyCall fs) (access : AccessOp)
    (stat : StatOp) :
    (Repaired (simfsAccess disk access) fs ↔
      ReportedOnce disk fs access.name access.retval) ∧
    (Repaired (simfsStat disk stat) fs ↔ ReportedOnce disk fs stat.name stat.retval) :=
  ⟨repairedOnce real (keyedReached real reached) none access.name access.retval,
    repairedOnce real (keyedReached real reached) (some .enoent) stat.name stat.retval⟩

def nameW : CName := ⟨[0x2f,0x77],by decide,by decide⟩

theorem atWReal : atW.Real := atWHolds.cwd

theorem reportedTwice : ¬ ∀ (disk : Disk) (fs : Trie Simfs), disk.Real →
    FsReached disk anyCall fs → ∀ access : AccessOp, access.name.bytes.head? = some slash →
      Repaired (simfsAccess disk access) fs := by
  intro all
  obtain ⟨v,fs',first,second⟩ := all atW simfsInit atWReal .init ⟨nameW,0,-1,noInfo⟩ rfl
  have ran : ((simfsAccess atW ⟨nameW,0,-1,noInfo⟩ simfsInit).toOption.bind fun res =>
      (simfsAccess atW ⟨nameW,0,-1,noInfo⟩ res.2).toOption.map Prod.fst) =
        some (some .eent) := by decide
  rw [first] at ran
  simp [Except.toOption,second] at ran

theorem reportedOnceMissing : Repaired (simfsStat atW ⟨nameX,0,noInfo⟩) simfsInit ∧
    (simfsStat atW ⟨nameX,0,noInfo⟩ simfsInit).map Prod.fst = .ok (some .enoent) := by
  refine ⟨(reportedOnce atWReal .init ⟨nameX,0,0,noInfo⟩ ⟨nameX,0,noInfo⟩).2.mpr ?_,by decide⟩
  refine ⟨nameX.bytes,rfl,.inl ⟨rfl,fun m _ short _ => ?_⟩⟩
  have one : (tokens slash nameX.bytes).length = 1 := by decide
  obtain rfl : m = 0 := by omega
  decide

end Twice
end IoApps
