import IoApps.NamemapLoad
import IoApps.ReplicateDry
import IoApps.ReplicatePace
import IoApps.SimulateCheck
import IoApps.StraceItems

/-! The program: what its options ask for, the list it loads, and what is done with the list. -/
namespace IoApps
open Lib (Bytes Prog ascii)

structure CArg where
  bytes : Bytes
  noNul : 0 ∉ bytes

/-- What getopt_long makes of the arguments; -b and -v have no effect on what is done. -/
inductive Flag where
  | bind | convert | check | dontFix
  | file (name : CArg)
  | format (name : CArg)
  | help
  | ignore (name : CArg)
  | map (name : CArg)
  | simulate
  | output (name : CArg)
  | replicate | prepare | print
  | scale (factor : CArg)
  | stats
  | timing (mode : CArg)
  | verbose | version | unknown

-- A floating point number: whether it is 0, and what a multiplication by it gives.
structure Factor where
  zero : Bool
  scale : Int64 → Int64

/-- What the program finds outside: files, the library, the disk, the kernel and the clock.
`patience` is how often the counter is read before a wait counts as endless, `buff` what is in the
array for the names of the check. -/
structure Shell where
  read : CName → Except Int32 Bytes
  writable : CName → Bool
  atof : Bytes → Factor
  fnmatch : Bytes → Bytes → Int32
  disk : Disk
  kernel : List (Call × Int64) → Call → Int64
  garbage : Garbage
  fileToFile : Bool
  clockRate : UInt64
  rdtsc : Nat → UInt64
  patience : Nat
  buff : Bytes

structure Settings where
  format : CArg
  filename : CArg
  output : CArg
  ignorefile : CArg
  mapfile : CArg
  scale : Int64 → Int64
  fixMissing : Bool
  convert : Bool
  check : Bool
  simulate : Bool
  replicate : Bool
  prepare : Bool
  print : Bool
  stats : Bool
  time : TimeMode

inductive MainFault where
  | unterminated
  | strace (f : Strace.StraceFault)
  | binary
  | wrongRecord
  | map
  | pace (f : PaceFault)
  | report (f : TrieFault)
  deriving DecidableEq, Repr

inductive Refusal where
  | help | version | badScale | badTime | unknown
  deriving DecidableEq, Repr

def Refusal.code : Refusal → Int32
  | .help | .version => 0
  | .badScale | .badTime | .unknown => -1

section Parse

-- The array has MAX_STRING bytes, and a longer text leaves it without a NUL.
def CArg.strncpy (arg : CArg) : CArg where
  bytes := arg.bytes.take MAX_STRING
  noNul := fun member => arg.noNul (List.mem_of_mem_take member)

def arrayName (array : CArg) : Except MainFault CName :=
  if fits : array.bytes.length < MAX_STRING then .ok ⟨array.bytes,array.noNul,fits⟩
  else .error .unterminated

def argOf (name : CName) : CArg := ⟨name.bytes,name.noNul⟩

def FORMAT_STRACE : CArg := argOf (stdName "strace")
def FORMAT_BIN : CArg := argOf (stdName "bin")

def Settings.start : Settings where
  format := FORMAT_STRACE
  filename := argOf (stdName "strace.file")
  output := argOf (stdName "strace.bin")
  ignorefile := argOf (stdName "")
  mapfile := argOf (stdName "")
  scale := id
  fixMissing := true
  convert := false
  check := false
  simulate := false
  replicate := false
  prepare := false
  print := false
  stats := false
  time := .unset

def timeMode (mode : Bytes) : Except Refusal TimeMode :=
  if mode = ascii "diff" then .ok .diff
  else if mode = ascii "exact" then .ok .exact
  else if mode = ascii "asap" then .ok .asap
  else .error .badTime

def Flag.apply (atof : Bytes → Factor) (st : Settings) : Flag → Except Refusal Settings
  | .bind | .verbose => .ok st
  | .convert => .ok { st with convert := true }
  | .check => .ok { st with check := true }
  | .dontFix => .ok { st with fixMissing := false }
  | .file name => .ok { st with filename := name.strncpy }
  | .format name => .ok { st with format := name.strncpy }
  | .help => .error .help
  | .ignore name => .ok { st with ignorefile := name.strncpy }
  | .map name => .ok { st with mapfile := name.strncpy }
  | .simulate => .ok { st with simulate := true }
  | .output name => .ok { st with output := name.strncpy }
  | .replicate => .ok { st with replicate := true }
  | .prepare => .ok { st with prepare := true }
  | .print => .ok { st with print := true }
  | .scale factor =>
    if (atof factor.bytes).zero then .error .badScale
    else .ok { st with scale := (atof factor.bytes).scale }
  | .stats => .ok { st with stats := true }
  | .timing mode => (timeMode mode.bytes).map fun time => { st with time := time }
  | .version => .error .version
  | .unknown => .error .unknown

def parse (atof : Bytes → Factor) (flags : List Flag) (st : Settings) : Except Refusal Settings :=
  flags.foldlM (Flag.apply atof) st

end Parse
section Main
variable (sh : Shell) (st : Settings)

def load : Except MainFault (Int32 × List OpItem) :=
  if st.format.bytes = FORMAT_STRACE.bytes then do
    let name ← arrayName st.filename
    match sh.read name with
    | .error errno => .ok (errno,[])
    | .ok f =>
      match Strace.straceGetItems st.stats f [] with
      | .ok (_,read) => .ok (0,read.list)
      | .error fault => .error (.strace fault)
  else if st.format.bytes = FORMAT_BIN.bytes then do
    let name ← arrayName st.filename
    match sh.read name with
    | .error errno => .ok (errno,[])
    | .ok f =>
      match Binary.binGetItems f [] with
      | (list,.returned code) => .ok (Int32.ofInt code,list)
      | (_,.fault) => .error .binary
  else .ok (-1,[])

def listFile (array : CArg) : Except MainFault (Option (Option Bytes)) := do
  let name ← arrayName array
  .ok (if name.bytes = [] then none else some (sh.read name).toOption)

-- Taking a record for one of another type reads behind it.
def records (items : List OpItem) : Except MainFault (List Op) :=
  if ∀ item ∈ items, item.type = item.o.type then .ok (items.map OpItem.o)
  else .error .wrongRecord

def trusted (items : List OpItem) : List Op :=
  (items.takeWhile fun item => item.type = item.o.type).map OpItem.o

def Shell.env (mode : SimMode) (actSimulate : Bool) (nm : Namemap) : Env where
  actSimulate := actSimulate
  actReplicate := st.replicate
  fixMissing := st.fixMissing
  fileToFile := sh.fileToFile
  sim := ⟨mode,sh.disk⟩
  namemap := nm
  kernel := sh.kernel
  garbage := sh.garbage

-- The clock rate is determined for a replay that has a pace.
def Shell.pace (time : TimeMode) : Timing where
  mode := time
  scale := st.scale
  clockRate := if st.replicate ∧ time ≠ .asap then sh.clockRate else 0
  rdtsc := sh.rdtsc

def pacedEnd (env : Env) (t : Timing) (patience : Nat) (ops : List Op) :
    Except PaceFault (Int32 × State) :=
  (pacedReplicate env t patience ops (State.start,.zero)).map fun done => (done.1.1,done.2.1)

structure Job where
  mode : SimMode
  actSimulate : Bool
  time : TimeMode

-- The process of the first record is read before the file of names.
def replay (job : Job) (ifile mfile : Option (Option Bytes)) (items : List OpItem) :
    Except MainFault (Int32 × State) :=
  if trusted items = [] then .error .wrongRecord
  else
    match namemapInit sh.fnmatch ifile mfile with
    | none => .error .map
    | some (rv,nm) =>
      if rv ≠ 0 then .ok (-1,State.start)
      else do
        let (rv,s) ← (pacedEnd (sh.env st job.mode job.actSimulate nm) (sh.pace st job.time)
          sh.patience (trusted items)).mapError .pace
        if rv = 0 then (records items).map fun _ => (rv,s) else .ok (rv,s)

inductive Deed where
  | stopped (why : Refusal)
  | failed
  | nothing
  | printed (ops : List Op)
  | saved (output : CName) (data : Bytes)
  | unsaved
  | replayed (rv : Int32) (s : State)
  | checked (rv : Int32) (s : State) (report : CheckReport)
  | noAction

def act (ifile mfile : Option (Option Bytes)) (items : List OpItem) : Except MainFault Deed :=
  if st.print then (records items).map .printed
  else if st.convert then do
    let output ← arrayName st.output
    if sh.writable output then
      (records items).map fun ops => .saved output (Binary.binSaveItems ops)
    else .ok .unsaved
  else if st.simulate then do
    let (rv,s) ← replay sh st ⟨⟨true,false,false⟩,true,st.time⟩ ifile mfile items
    .ok (.replayed rv s)
  else if st.check then do
    let (rv,s) ← replay sh st ⟨⟨false,true,false⟩,true,st.time⟩ ifile mfile items
    let report ← (simulateCheckFiles s.sim.fs sh.buff).mapError .report
    .ok (.checked rv s report)
  else if st.prepare then do
    let (rv,s) ← replay sh st ⟨⟨false,false,true⟩,false,st.time⟩ ifile mfile items
    .ok (.replayed rv s)
  else if st.replicate then do
    let time := if st.time = .unset then .diff else st.time
    let (rv,s) ← replay sh st ⟨⟨false,false,false⟩,false,time⟩ ifile mfile items
    .ok (.replayed rv s)
  else .ok .noAction

def ioreplay : Except MainFault (Int32 × Deed) := do
  let (retval,items) ← load sh st
  if retval ≠ 0 then .ok (retval,.failed)
  else do
    let ifile ← listFile sh st.ignorefile
    let mfile ← listFile sh st.mapfile
    if items = [] then .ok (0,.nothing)
    else (act sh st ifile mfile items).map (0,·)

def main (flags : List Flag) : Except MainFault (Int32 × Deed) :=
  match parse sh.atof flags .start with
  | .error why => .ok (why.code,.stopped why)
  | .ok st => ioreplay sh st

end Main
section Converted
variable {sh sh' : Shell} {st later : Settings} {items : List OpItem} {out : CName} {data : Bytes}

def saved (out : CName) : List Flag := [.format FORMAT_BIN,.file (argOf out)]

theorem boundOk {ε α β : Type} {m : Except ε α} {f : α → Except ε β} {b : β}
    (ran : (m >>= f) = .ok b) : ∃ a, m = .ok a ∧ f a = .ok b := by
  cases m with
  | error e => cases ran
  | ok a => exact ⟨a,rfl,ran⟩

theorem mappedOk {ε α β : Type} {m : Except ε α} {f : α → β} {b : β} (ran : m.map f = .ok b) :
    ∃ a, m = .ok a ∧ f a = b := by
  cases m with
  | error e => cases ran
  | ok a =>
    cases ran
    exact ⟨a,rfl,rfl⟩

theorem arrayOf (name : CName) : arrayName (argOf name).strncpy = .ok name := by
  have whole : name.bytes.take MAX_STRING = name.bytes :=
    List.take_of_length_le (Nat.le_of_lt name.fits)
  have room : (argOf name).strncpy.bytes.length < MAX_STRING := by
    simp only [CArg.strncpy,argOf,whole]
    exact name.fits
  rw [arrayName,dif_pos room]
  exact congrArg Except.ok (nameOf whole)

theorem loadTrace (trace : st.format.bytes = FORMAT_STRACE.bytes) {rv : Int32}
    (ran : load sh st = .ok (rv,items)) : Strace.Loadable items := by
  rw [load,if_pos trace] at ran
  obtain ⟨name,-,found⟩ := boundOk ran
  cases opened : sh.read name with
  | error errno =>
    rw [opened] at found
    cases found
    exact Strace.loadableNil
  | ok f =>
    rw [opened] at found
    dsimp only at found
    split at found
    · rename_i u read parsed
      cases found
      exact Strace.itemsLoadable Strace.loadableNil parsed
    · cases found

theorem recordsOf {ops : List Op} (loadable : Strace.Loadable items)
    (ran : records items = .ok ops) :
    items = ops.map Op.item ∧ ∀ o ∈ ops, Strace.Savable o := by
  obtain ⟨given,rfl,savable⟩ := loadable
  have same : (given.map Op.item).map OpItem.o = given := by
    rw [List.map_map]
    exact List.map_id _
  unfold records at ran
  split at ran
  · rw [same] at ran
    cases ran
    exact ⟨rfl,savable⟩
  · cases ran

theorem actDone {ifile mfile : Option (Option Bytes)} {deed : Deed}
    (ran : act sh st ifile mfile items = .ok deed) :
    (∃ ops, records items = .ok ops ∧
      (deed = .printed ops ∨ ∃ out, deed = .saved out (Binary.binSaveItems ops))) ∨
    deed = .unsaved ∨ deed = .noAction ∨
    ∃ job rv s, replay sh st job ifile mfile items = .ok (rv,s) ∧
      (deed = .replayed rv s ∨ ∃ report, deed = .checked rv s report) ∧
      (job.time = st.time ∨ st.replicate = true) := by
  unfold act at ran
  split at ran
  · obtain ⟨ops,taken,done⟩ := mappedOk ran
    exact .inl ⟨ops,taken,.inl done.symm⟩
  split at ran
  · obtain ⟨out,-,wrote⟩ := boundOk ran
    split at wrote
    · obtain ⟨ops,taken,done⟩ := mappedOk wrote
      exact .inl ⟨ops,taken,.inr ⟨out,done.symm⟩⟩
    · exact .inr (.inl (Except.ok.inj wrote).symm)
  refine .inr (.inr ?_)
  split at ran
  · obtain ⟨⟨rv,s⟩,replayed,done⟩ := boundOk ran
    exact .inr ⟨_,rv,s,replayed,.inl (Except.ok.inj done).symm,.inl rfl⟩
  split at ran
  · obtain ⟨⟨rv,s⟩,replayed,checked⟩ := boundOk ran
    obtain ⟨report,-,done⟩ := boundOk checked
    exact .inr ⟨_,rv,s,replayed,.inr ⟨report,(Except.ok.inj done).symm⟩,.inl rfl⟩
  split at ran
  · obtain ⟨⟨rv,s⟩,replayed,done⟩ := boundOk ran
    exact .inr ⟨_,rv,s,replayed,.inl (Except.ok.inj done).symm,.inl rfl⟩
  split at ran
  · rename_i acts
    obtain ⟨⟨rv,s⟩,replayed,done⟩ := boundOk ran
    exact .inr ⟨_,rv,s,replayed,.inl (Except.ok.inj done).symm,.inr acts⟩
  · exact .inl (Except.ok.inj ran).symm

theorem ioreplayDone {code : Int32} {deed : Deed} (ran : ioreplay sh st = .ok (code,deed)) :
    deed = .failed ∨ deed = .nothing ∨ ∃ items ifile mfile, load sh st = .ok (0,items) ∧
      act sh st ifile mfile items = .ok deed := by
  obtain ⟨⟨retval,items⟩,loaded,rest⟩ := boundOk ran
  dsimp only at rest
  split at rest
  · cases rest
    exact .inl rfl
  · rename_i well
    rw [Decidable.not_not.mp well] at loaded
    obtain ⟨ifile,-,more⟩ := boundOk rest
    obtain ⟨mfile,-,acted⟩ := boundOk more
    split at acted
    · cases acted
      exact .inr (.inl rfl)
    · obtain ⟨d,done,same⟩ := mappedOk acted
      cases same
      exact .inr (.inr ⟨items,ifile,mfile,loaded,done⟩)

theorem ioreplaySaved {code : Int32} (ran : ioreplay sh st = .ok (code,.saved out data)) :
    ∃ items ops, load sh st = .ok (0,items) ∧ records items = .ok ops ∧
      data = Binary.binSaveItems ops := by
  obtain failed | nothing | ⟨items,ifile,mfile,loaded,acted⟩ := ioreplayDone ran
  · cases failed
  · cases nothing
  obtain ⟨ops,taken,printed | ⟨out,same⟩⟩ | unsaved | none | ⟨job,rv,s,-,done,-⟩ := actDone acted
  · cases printed
  · cases same
    exact ⟨items,ops,loaded,taken,rfl⟩
  · cases unsaved
  · cases none
  · obtain replayed | ⟨report,checked⟩ := done
    · cases replayed
    · cases checked

theorem loadBack {ops : List Op} (savable : ∀ o ∈ ops, Strace.Savable o)
    (holds : sh.read out = .ok (Binary.binSaveItems ops)) :
    load sh { later with format := FORMAT_BIN, filename := (argOf out).strncpy } =
      .ok (0,ops.map Op.item) := by
  have other : FORMAT_BIN.bytes ≠ FORMAT_STRACE.bytes := by decide +kernel
  rw [load,if_neg other,if_pos rfl,arrayOf]
  simp only [bind,Except.bind,holds,Binary.loadSaved ops savable [],List.nil_append]
  rfl

theorem loadSame (trace : st.format.bytes = FORMAT_STRACE.bytes)
    (format : later.format.bytes = st.format.bytes) (filename : later.filename = st.filename)
    (stats : later.stats = st.stats)
    (still : ∀ name, arrayName st.filename = .ok name → sh'.read name = sh.read name) :
    load sh' later = load sh st := by
  rw [load,load,if_pos trace,if_pos (format.trans trace),filename,stats]
  cases named : arrayName st.filename with
  | error f => rfl
  | ok name =>
    simp only [bind,Except.bind,still name named]

/-- Converting a trace keeps its meaning: as long as the binary file holds what -c has written and
the trace is as it was, whatever the program is asked to do with the one ends as it does with the
other. -/
theorem mainConverted {flags again : List Flag} {code : Int32}
    (parsed : parse sh.atof flags .start = .ok st)
    (trace : st.format.bytes = FORMAT_STRACE.bytes)
    (ran : main sh flags = .ok (code,.saved out data)) (holds : sh'.read out = .ok data)
    (still : ∀ name, arrayName st.filename = .ok name → sh'.read name = sh.read name)
    (asked : parse sh'.atof again .start = .ok later)
    (format : later.format.bytes = st.format.bytes) (filename : later.filename = st.filename)
    (stats : later.stats = st.stats) :
    main sh' (again ++ saved out) = main sh' again := by
  have converted : ioreplay sh st = .ok (code,.saved out data) := by
    rw [main,parsed] at ran
    exact ran
  obtain ⟨items,ops,loaded,taken,rfl⟩ := ioreplaySaved converted
  obtain ⟨rfl,savable⟩ := recordsOf (loadTrace trace loaded) taken
  have reloaded := (loadSame trace format filename stats still).trans loaded
  have both : parse sh'.atof (again ++ saved out) .start = .ok
      { later with format := FORMAT_BIN, filename := (argOf out).strncpy } := by
    rw [parse] at asked ⊢
    rw [List.foldlM_append,asked]
    rfl
  rw [main,main,asked,both]
  dsimp only
  rw [ioreplay,ioreplay,loadBack savable holds,reloaded]
  rfl

def onTrace (kernel : List (Call × Int64) → Call → Int64) (trace : Bytes) : Shell where
  read := Function.update (fun _ => .error 2) (stdName "strace.file") (.ok trace)
  writable _ := true
  atof _ := ⟨false,id⟩
  fnmatch _ _ := 1
  disk := simulating.sim.disk
  kernel := kernel
  garbage := simulating.garbage
  fileToFile := true
  clockRate := 1000000000
  rdtsc n := .ofNat (25 * n)
  patience := 100
  buff := emptyBuffer

def openedTrace : Bytes := ascii
  "7 10.000100 open(\"/f\", O_RDONLY) = 3 <0.000010>
7 10.000200 close(3) = 0 <0.000010>
"

def converting : Shell := onTrace simulating.kernel openedTrace

def Deed.file : Deed → Option (CName × Bytes)
  | .saved out data => some (out,data)
  | _ => none

theorem mainConvertedChecked : ∃ code out data, main converting [.convert] =
    .ok (code,.saved out data) ∧
      main { converting with read := Function.update converting.read out (.ok data) }
          ([.check] ++ saved out) =
        main { converting with read := Function.update converting.read out (.ok data) }
          [.check] := by
  have files : ((main converting [.convert]).map fun r => r.2.file.map Prod.fst) =
      .ok (some (stdName "strace.bin")) := by decide +kernel
  obtain ⟨⟨code,deed⟩,ran,file⟩ := mappedOk files
  cases deed with
  | saved out data =>
    have other : out = stdName "strace.bin" := Option.some.inj file
    have apart : stdName "strace.file" ≠ stdName "strace.bin" := by decide +kernel
    have named : arrayName Settings.start.filename = .ok (stdName "strace.file") := by
      decide +kernel
    have parsed : parse converting.atof [.convert] .start =
        .ok { Settings.start with convert := true } := rfl
    have asked : parse converting.atof [.check] .start =
        .ok { Settings.start with check := true } := rfl
    refine ⟨code,out,data,ran,mainConverted parsed rfl ran ?_ ?_ asked rfl rfl rfl⟩
    · exact Function.update_self _ _ _
    · intro name same
      have here : stdName "strace.file" = name := Except.ok.inj (named.symm.trans same)
      rw [← here,other]
      exact Function.update_of_ne apart (.ok data) converting.read
  | stopped | failed | nothing | printed | unsaved | replayed | checked | noAction => cases file

end Converted
section Rateless
variable {env : Env} {t t' : Timing} {fuel : Nat}

theorem mapErrorMap {ε ε' α β : Type} (m : Except ε α) (f : ε → ε') (g : α → β) :
    (m.mapError f).map g = (m.map g).mapError f := by
  cases m <;> rfl

theorem mapErrorOk {ε ε' α : Type} {m : Except ε α} {f : ε → ε'} {a : α}
    (ran : m.mapError f = .ok a) : m = .ok a := by
  cases m with
  | error e => cases ran
  | ok b =>
    cases ran
    rfl

theorem quickWaits (quick : t.mode = .asap ∨ t.mode = .unset) (p : Pace) (ops : List Op) :
    Waits t fuel p ops := by
  induction ops generalizing p with
  | nil => exact .nil p
  | cons op rest ih =>
    have waited : paceBefore t fuel op.info p = .ok p := by
      cases quick with
      | inl mode => rw [paceBefore,mode]
      | inr mode => rw [paceBefore,mode]
    exact .cons waited (ih _)

theorem waitRateless (rate : t.clockRate = 0) (timed : t.mode = .diff ∨ t.mode = .exact)
    (info : OpInfo) (p : Pace) : paceBefore t fuel info p = .error .noRate := by
  cases timed with
  | inl mode =>
    rw [paceBefore,mode]
    exact if_pos rate
  | inr mode =>
    rw [paceBefore,mode]
    exact if_pos rate

theorem opsRateless (rate : t.clockRate = 0) (timed : t.mode = .diff ∨ t.mode = .exact) (op : Op)
    (rest : List Op) (s : State × Pace) :
    pacedOps env t fuel (op :: rest) s = .error .noRate := by
  have stops : onPace (paceBefore t fuel op.info) s = .error .noRate := by
    rw [onPace,waitRateless rate timed]
  rw [pacedOps,Prog.bindRun,stops]

theorem endRateless (rate : t.clockRate = 0) (timed : t.mode = .diff ∨ t.mode = .exact) (op : Op)
    (rest : List Op) : pacedEnd env t fuel (op :: rest) =
      ((replicateInit env op.info.pid State.start).mapError .replay).bind fun done =>
        if done.1 = 0 then .error .noRate else .ok (-1,done.2) := by
  rw [pacedEnd,pacedReplicate]
  cases began : replicateInit env op.info.pid State.start with
  | error f =>
    have stops : onReplay (replicateInit env op.info.pid) (State.start,Pace.zero) =
        .error (.replay f) := by
      rw [onReplay,began]
    rw [Prog.bindRun,stops]
    rfl
  | ok done =>
    have goes : onReplay (replicateInit env op.info.pid) (State.start,Pace.zero) =
        .ok (done.1,done.2,Pace.zero) := by
      rw [onReplay,began]
    rw [Prog.bindOf goes]
    by_cases zero : done.1 = 0
    · have moves : onPace (fun _ => .ok (paceBegin t op.info)) (done.2,Pace.zero) =
          .ok (paceBegin t op.info,done.2,paceBegin t op.info) := rfl
      rw [if_neg (not_not.mpr zero),Prog.bindOf moves,Prog.bindRun,opsRateless rate timed]
      exact (if_pos zero).symm
    · rw [if_pos zero]
      exact (if_neg zero).symm

theorem endStopped (rate : t.clockRate = 0) (timed : t.mode = .diff ∨ t.mode = .exact)
    (opens : (env.kernel [] (.openDevice .null)).toInt32 ≠ -1) (op : Op) (rest : List Op) :
    pacedEnd env t fuel (op :: rest) =
      ((stdTable env op.info.pid State.start).mapError .replay).bind fun _ => .error .noRate := by
  rw [endRateless rate timed,initAfter opens]
  cases stdTable env op.info.pid State.start with
  | error f => rfl
  | ok r => simp only [Except.map,Except.mapError,Except.bind,↓reduceIte]

theorem endQuick (quick : t.mode = .asap ∨ t.mode = .unset) (op : Op) (rest : List Op) :
    pacedEnd env t fuel (op :: rest) =
      (replicate env (op :: rest) State.start).mapError .replay := by
  rw [pacedEnd]
  exact pacedSame (quickWaits quick _ _) State.start

theorem endAlike (dry : env.actReplicate = false) (rate : t.clockRate = 0)
    (rate' : t'.clockRate = 0) (mode : t'.mode = t.mode)
    (answers : List (Call × Int64) → Call → Int64)
    (opens : (env.kernel [] (.openDevice .null)).toInt32 ≠ -1)
    (opens' : (answers [] (.openDevice .null)).toInt32 ≠ -1) (ops : List Op) :
    (pacedEnd (env.answering answers) t' fuel ops).map seen =
      (pacedEnd env t fuel ops).map seen := by
  cases ops with
  | nil => rfl
  | cons op rest =>
    by_cases timed : t.mode = .diff ∨ t.mode = .exact
    · have std : stdTable (env.answering answers) op.info.pid = stdTable env op.info.pid := rfl
      rw [endStopped rate timed opens,endStopped rate' (mode ▸ timed) opens',std]
    · have quick : t.mode = .asap ∨ t.mode = .unset := by
        cases shown : t.mode <;> simp [shown] at timed ⊢
      rw [endQuick quick,endQuick (mode ▸ quick),mapErrorMap,mapErrorMap,
        dryAlike dry answers opens opens']

end Rateless
section Dry
variable {sh : Shell} {st : Settings} {items : List OpItem}

def Shell.beside (sh : Shell) (kernel : List (Call × Int64) → Call → Int64) (clockRate : UInt64)
    (rdtsc : Nat → UInt64) : Shell :=
  { sh with kernel, clockRate, rdtsc }

def Deed.seen : Deed → Deed
  | .replayed rv s => .replayed rv (outside.set s ([],0,0))
  | .checked rv s report => .checked rv (outside.set s ([],0,0)) report
  | deed => deed

def Deed.finished : Deed → Bool
  | .replayed rv _ | .checked rv _ _ => rv == 0
  | _ => false

theorem boundSeen {ε α β γ δ : Type} {m m' : Except ε α} {f f' : α → Except ε β} {p : α → γ}
    {q : β → δ} (first : m'.map p = m.map p)
    (rest : ∀ a a', p a' = p a → (f' a').map q = (f a).map q) :
    (m' >>= f').map q = (m >>= f).map q := by
  cases m with
  | error e =>
    cases m' with
    | error e' =>
      cases first
      rfl
    | ok a' => cases first
  | ok a =>
    cases m' with
    | error e' => cases first
    | ok a' => exact rest a a' (Except.ok.inj first)

theorem mapAlike {ε α β γ δ : Type} {m m' : Except ε α} {p : α → γ} {q : β → δ} (f : α → β)
    (after : ∀ a a', p a' = p a → q (f a') = q (f a)) (same : m'.map p = m.map p) :
    (m'.map f).map q = (m.map f).map q :=
  boundSeen same fun a a' alike => congrArg Except.ok (after a a' alike)

theorem boundSame {ε α β δ : Type} {m m' : Except ε α} {f f' : α → Except ε β} {q : β → δ}
    (first : m' = m) (rest : ∀ a, (f' a).map q = (f a).map q) :
    (m' >>= f').map q = (m >>= f).map q := by
  rw [first]
  cases m with
  | error e => rfl
  | ok a => exact rest a

theorem replayAlike {sh' : Shell} {kernel : List (Call × Int64) → Call → Int64}
    {clockRate : UInt64} {rdtsc : Nat → UInt64} (other : sh' = sh.beside kernel clockRate rdtsc)
    (dry : st.replicate = false) (opens : (sh.kernel [] (.openDevice .null)).toInt32 ≠ -1)
    (opens' : (kernel [] (.openDevice .null)).toInt32 ≠ -1) (job : Job)
    (ifile mfile : Option (Option Bytes)) :
    (replay sh' st job ifile mfile items).map seen =
      (replay sh st job ifile mfile items).map seen := by
  rw [replay,replay]
  by_cases none : trusted items = []
  · rw [if_pos none,if_pos none]
  · have files : namemapInit sh'.fnmatch ifile mfile = namemapInit sh.fnmatch ifile mfile := by
      rw [other]
      rfl
    rw [if_neg none,if_neg none,files]
    cases namemapInit sh.fnmatch ifile mfile with
    | none => rfl
    | some found =>
      by_cases failed : found.1 = 0
      · have dry' : (sh.env st job.mode job.actSimulate found.2).actReplicate = false := dry
        have rate : (sh.pace st job.time).clockRate = 0 := by simp [Shell.pace,dry]
        have rate' : (sh'.pace st job.time).clockRate = 0 := by simp [Shell.pace,dry]
        have mode : (sh'.pace st job.time).mode = (sh.pace st job.time).mode := rfl
        have env : sh'.env st job.mode job.actSimulate found.2 =
            (sh.env st job.mode job.actSimulate found.2).answering kernel := by
          rw [other]
          rfl
        have patience : sh'.patience = sh.patience := by
          rw [other]
          rfl
        have alike := @endAlike _ _ _ sh.patience dry' rate rate' mode kernel opens opens'
          (trusted items)
        dsimp only
        rw [if_neg (not_not.mpr failed),if_neg (not_not.mpr failed),env,patience]
        refine boundSeen (p := seen) ?_ ?_
        · rw [mapErrorMap,mapErrorMap,alike]
        · intro a a' same
          have rv : a'.1 = a.1 := (Prod.ext_iff.mp same).1
          rw [rv]
          split
          · cases records items with
            | error f => rfl
            | ok ops => exact congrArg Except.ok (same ▸ rv ▸ rfl)
          · have whole : seen (a'.1,a'.2) = seen (a.1,a.2) := same
            exact congrArg Except.ok (rv ▸ whole)
      · dsimp only
        rw [if_pos failed,if_pos failed]

variable {kernel : List (Call × Int64) → Call → Int64} {clockRate : UInt64} {rdtsc : Nat → UInt64}

theorem actAlike {sh' : Shell} (other : sh' = sh.beside kernel clockRate rdtsc)
    (dry : st.replicate = false) (opens : (sh.kernel [] (.openDevice .null)).toInt32 ≠ -1)
    (opens' : (kernel [] (.openDevice .null)).toInt32 ≠ -1) (ifile mfile : Option (Option Bytes)) :
    (act sh' st ifile mfile items).map Deed.seen = (act sh st ifile mfile items).map Deed.seen := by
  have alike (job : Job) := @replayAlike sh st items sh' kernel clockRate rdtsc other dry opens
    opens' job ifile mfile
  have ends (a a' : Int32 × State) (same : seen a' = seen a) :
      (Except.ok (ε := MainFault) (Deed.replayed a'.1 a'.2)).map Deed.seen =
        (Except.ok (Deed.replayed a.1 a.2)).map Deed.seen :=
    congrArg (fun r : Int32 × State => Except.ok (Deed.replayed r.1 r.2)) same
  rw [act,act]
  split
  · rfl
  split
  · rw [other]
    rfl
  split
  · exact boundSeen (alike _) ends
  split
  · refine boundSeen (alike _) fun a a' same => ?_
    have left : (seen a').2.sim.fs = (seen a).2.sim.fs := by rw [same]
    have fs : a'.2.sim.fs = a.2.sim.fs := left
    have buff : sh'.buff = sh.buff := by
      rw [other]
      rfl
    dsimp only
    rw [fs,buff]
    cases simulateCheckFiles a.2.sim.fs sh.buff with
    | error f => rfl
    | ok report =>
      exact congrArg (fun r : Int32 × State => Except.ok (Deed.checked r.1 r.2 report)) same
  split
  · exact boundSeen (alike _) ends
  · rw [if_neg (ne_true_of_eq_false dry),if_neg (ne_true_of_eq_false dry)]

/-- Without -r the program does what it does next to any other kernel and clock, whatever else its
options ask for: the same list, the same file, the same result, state and report, or the same
fault. -/
theorem mainAlike {flags : List Flag} (parsed : parse sh.atof flags .start = .ok st)
    (dry : st.replicate = false) (opens : (sh.kernel [] (.openDevice .null)).toInt32 ≠ -1)
    (opens' : (kernel [] (.openDevice .null)).toInt32 ≠ -1) :
    (main (sh.beside kernel clockRate rdtsc) flags).map (fun r => (r.1,r.2.seen)) =
      (main sh flags).map fun r => (r.1,r.2.seen) := by
  have parsed' : parse (sh.beside kernel clockRate rdtsc).atof flags .start = .ok st := parsed
  rw [main,main,parsed,parsed']
  dsimp only
  unfold ioreplay
  refine boundSame rfl fun read => ?_
  dsimp only
  split
  · rfl
  refine boundSame rfl fun ifile => boundSame rfl fun mfile => ?_
  split
  · rfl
  · have alike := @actAlike sh st read.2 kernel clockRate rdtsc _ rfl dry opens opens' ifile mfile
    exact mapAlike (0,·) (fun a a' same => congrArg (0,·) same) alike

theorem endShort {env : Env} {t : Timing} {fuel : Nat} (rate : t.clockRate = 0)
    (timed : t.mode = .diff ∨ t.mode = .exact) (ops : List Op) (s : State) :
    pacedEnd env t fuel ops ≠ .ok (0,s) := by
  intro ended
  cases ops with
  | nil => cases ended
  | cons op rest =>
    rw [endRateless rate timed] at ended
    cases began : replicateInit env op.info.pid State.start with
    | error f =>
      rw [began] at ended
      cases ended
    | ok done =>
      rw [began] at ended
      simp only [Except.mapError,Except.bind] at ended
      split at ended <;> cases ended

theorem replayShort (dry : st.replicate = false) {job : Job}
    (timed : job.time = .diff ∨ job.time = .exact) (ifile mfile : Option (Option Bytes))
    (s : State) : replay sh st job ifile mfile items ≠ .ok (0,s) := by
  intro replayed
  have rate : (sh.pace st job.time).clockRate = 0 := by simp [Shell.pace,dry]
  unfold replay at replayed
  split at replayed
  · cases replayed
  split at replayed
  · cases replayed
  split at replayed
  · cases replayed
  obtain ⟨⟨rv,s'⟩,ended,rest⟩ := boundOk replayed
  dsimp only at rest
  split at rest
  · rename_i zero
    rw [zero] at ended
    exact endShort rate timed _ s' (mapErrorOk ended)
  · rename_i other
    cases rest
    exact other rfl

theorem mainAlikeSeven :
    (main (converting.beside (fun _ _ => 7) 0 fun _ => 0) [.check]).map
        (fun r => (r.1,r.2.seen)) =
      (main converting [.check]).map fun r => (r.1,r.2.seen) := by
  have parsed : parse converting.atof [.check] .start =
      .ok { Settings.start with check := true } := rfl
  exact mainAlike parsed rfl (by decide) (by decide)

/-- With -t diff or -t exact and without -r no trace is gone through to its end: the clock rate is
not determined, and the first record divides by it. -/
theorem dryTimed {flags : List Flag} (parsed : parse sh.atof flags .start = .ok st)
    (dry : st.replicate = false) (timed : st.time = .diff ∨ st.time = .exact) :
    (main sh flags).map (fun r => r.2.finished) ≠ .ok true := by
  intro ended
  rw [main,parsed] at ended
  obtain ⟨⟨code,deed⟩,ran,finished⟩ := mappedOk ended
  obtain rfl | rfl | ⟨items,ifile,mfile,-,acted⟩ := ioreplayDone ran
  · cases finished
  · cases finished
  obtain ⟨ops,-,rfl | ⟨out,rfl⟩⟩ | rfl | rfl | ⟨job,rv,s,replayed,done,time⟩ := actDone acted
  · cases finished
  · cases finished
  · cases finished
  · cases finished
  have same : job.time = st.time := time.resolve_right (ne_true_of_eq_false dry)
  have zero : rv = 0 := by
    obtain rfl | ⟨report,rfl⟩ := done <;> exact eq_of_beq finished
  rw [zero] at replayed
  exact replayShort dry (same ▸ timed) ifile mfile s replayed

theorem dryTimedExact :
    (main converting [.check,.timing (argOf (stdName "exact"))]).map (fun r => r.2.finished) ≠
      .ok true := by
  have parsed : parse converting.atof [.check,.timing (argOf (stdName "exact"))] .start =
      .ok { Settings.start with check := true, time := .exact } := rfl
  exact dryTimed parsed rfl (.inr rfl)

end Dry
end IoApps
