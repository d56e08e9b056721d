import IoApps.BinaryLoad
import IoApps.StraceResumed

/-! The arrays of MAX_STRING bytes the readers fill. -/
namespace IoApps.Strace
open Lib (Bytes Prog ascii strstr sscanf fields firstTooLong Directive Arg)

def Overlong (format : List Directive) (line : Bytes) : Prop :=
  firstTooLong (fields format line) = some MAX_STRING

theorem scanOverrun {format : List Directive} {line : Bytes} :
    scan format line = .error .overrun ↔ Overlong format line := by
  rw [Overlong,← Lib.sscanfError,scan]
  cases sscanf format line with
  | ok args => exact iff_of_false Prog.okNotError Prog.okNotError
  | error room =>
    simp only [Except.error.injEq]
    split
    · rename_i same
      exact iff_of_true rfl same
    · rename_i other
      exact iff_of_false (by decide) other

def Rooms (p : Option Nat → Prop) (format : List Directive) : Prop := ∀ x ∈ format, p x.room

def Narrow (format : List Directive) : Prop := Rooms (· ≠ some MAX_STRING) format

def Bounded (format : List Directive) : Prop := Rooms (fun room => room.getD 0 ≤ MAX_STRING) format

theorem narrowFits {format : List Directive} (narrow : Narrow format) (line : Bytes) :
    ¬ Overlong format line := by
  intro beyond
  obtain ⟨x,found,size⟩ := Option.map_eq_some_iff.mp beyond
  obtain ⟨directive,member,room⟩ :=
    List.mem_map.mp (Lib.fieldRoom (List.mem_of_find?_eq_some found))
  exact narrow directive member (size ▸ room)

theorem shortFits {format : List Directive} {line : Bytes} (short : line.length < MAX_STRING) :
    ¬ Overlong format line := by
  intro beyond
  obtain ⟨x,found,size⟩ := Option.map_eq_some_iff.mp beyond
  have beyond : Lib.tooLong x = true := List.find?_some found
  have long : x.1 ≤ x.2.length := of_decide_eq_true beyond
  have less := Lib.fieldShort (List.mem_of_find?_eq_some found)
  omega

theorem textShort {format : List Directive} {line : Bytes} {args : List Arg} {text : Bytes}
    (bounded : Bounded format) (ran : scan format line = .ok args) (member : .text text ∈ args) :
    text.length < MAX_STRING := by
  have told : sscanf format line = .ok args := by
    rw [scan] at ran
    split at ran
    · rename_i here
      cases ran
      exact here
    · cases ran
  obtain ⟨room,taken,fits⟩ := Lib.textField told member
  obtain ⟨directive,inside,size⟩ := List.mem_map.mp (Lib.fieldRoom taken)
  have most : directive.room.getD 0 ≤ MAX_STRING := bounded directive inside
  rw [size] at most
  exact Nat.lt_of_lt_of_le fits most

theorem readOverrun {format : List Directive} {line : Bytes} {k : List Arg → Scan Found}
    (bounded : Bounded format)
    (quiet : ∀ args, (∀ text, .text text ∈ args → text.length < MAX_STRING) →
      k args ≠ .error .overrun) :
    (scan format line >>= k) = .error .overrun ↔ Overlong format line := by
  rw [← scanOverrun]
  cases ran : scan format line with
  | error fault =>
    have same : (Except.error fault >>= k : Scan Found) = .error fault := rfl
    rw [same,Except.error.injEq,Except.error.injEq]
  | ok args =>
    refine iff_of_false ?_ Prog.okNotError
    exact quiet args fun text member => textShort bounded ran member

section Rooms
variable {p : Option Nat → Prop}

@[simp] theorem roomsNil : Rooms p [] := List.forall_mem_nil _

@[simp] theorem roomsCons {x : Directive} {f : List Directive} :
    Rooms p (x :: f) ↔ p x.room ∧ Rooms p f := List.forall_mem_cons

@[simp] theorem roomsAppend {f g : List Directive} : Rooms p (f ++ g) ↔ Rooms p f ∧ Rooms p g :=
  List.forall_mem_append

@[simp] theorem decimalRoom : d.room = none := by
  unfold d Directive.room
  rfl

@[simp] theorem unsignedRoom : u.room = none := by
  unfold u Directive.room
  rfl

@[simp] theorem octalRoom : o.room = none := by
  unfold o Directive.room
  rfl

@[simp] theorem longRoom : i64.room = none := by
  unfold i64 Directive.room
  rfl

@[simp] theorem spaceRoom : Directive.space.room = none := rfl
@[simp] theorem litRoom (c : UInt8) : (Directive.lit c).room = none := rfl
@[simp] theorem skipRoom (stop : UInt8) : (Directive.skip stop).room = none := rfl
@[simp] theorem wordRoom (room : Nat) : (Directive.word room).room = some room := rfl
@[simp] theorem uptoRoom (stop : UInt8) (width : Option Nat) (room : Nat) :
    (Directive.upto stop width room).room = some room := rfl

@[simp] theorem roomsLits (free : p none) (s : String) : Rooms p (lits s) := by
  intro x member
  obtain ⟨c,_,made⟩ := List.mem_map.mp member
  rw [← made]
  split
  · exact free
  · exact free

@[simp] theorem roomsStamp (free : p none) (time : p (some MAX_TIME_STRING)) :
    Rooms p stampFormat := by simp [stampFormat,free,time]

@[simp] theorem roomsArgs (free : p none) (time : p (some MAX_TIME_STRING)) :
    Rooms p argsFormat := by simp [argsFormat,free,time]

@[simp] theorem roomsName (free : p none) (time : p (some MAX_TIME_STRING))
    (name : p (some MAX_STRING)) : Rooms p nameFormat := by simp [nameFormat,free,time,name]

@[simp] theorem roomsResult (free : p none) (time : p (some MAX_TIME_STRING)) {number : Directive}
    (value : number.room = none) : Rooms p (resultFormat number) := by
  simp [resultFormat,free,time,value]

end Rooms

theorem narrowRooms {format : List Directive}
    (rooms : ∀ p : Option Nat → Prop, p none → p (some MAX_TIME_STRING) → Rooms p format) :
    Narrow format := rooms _ (fun same => by cases same) (by decide)

theorem boundedRooms {format : List Directive}
    (rooms : ∀ p : Option Nat → Prop, p none → p (some MAX_TIME_STRING) → p (some MAX_STRING) →
      Rooms p format) : Bounded format := rooms _ (by decide) (by decide) (by decide)

def OpenRead (args : List Arg) : Prop :=
  ∃ pid startTime name flags mode retval dur, args = [.num pid,.text startTime,.text name,
    .text flags,.num mode,.num retval,.text dur]

def TextOverrun (c : OpType) (line : Bytes) : Prop :=
  match c with
  | .mkdir => Overlong mkdirFormat line
  | .rmdir | .unlink => Overlong nameOnlyFormat line
  | .open => Overlong openFormat line ∨
      (∃ args, scan openFormat line = .ok args ∧ ¬ OpenRead args) ∧ Overlong flagsFormat line
  | .creat => Overlong creatFormat line
  | .access => Overlong flagsFormat line
  | .stat => Overlong statFormat line
  | .clone => Overlong cloneFormat line
  | .dup3 => Overlong dup3Format line
  | .llseek => Overlong llseekFormat line
  | .lseek => Overlong lseekFormat line
  | _ => False

theorem itemQuiet (r : Found) : (pure r : Scan Found) ≠ .error .overrun := by
  intro same
  cases same

theorem toNameQuiet {args : List Arg} {name : Bytes}
    (short : ∀ text, .text text ∈ args → text.length < MAX_STRING) (member : .text name ∈ args)
    {k : CName → Scan Found} (quiet : ∀ own, k own ≠ .error .overrun) :
    (toName name >>= k) ≠ .error .overrun := by
  rw [toName,dif_pos (short name member)]
  exact quiet _

section Readers
variable (line : Bytes)

theorem mkdirOverrun : straceReadMkdir line = .error .overrun ↔ Overlong mkdirFormat line := by
  refine readOverrun (boundedRooms fun p free time name => by simp [mkdirFormat,free,time,name]) ?_
  intro args short
  split
  · exact toNameQuiet short (by simp) fun _ => itemQuiet _
  · exact itemQuiet _

theorem nameOverrun (record : CName → Int32 → OpInfo → Op) :
    straceReadName record line = .error .overrun ↔ Overlong nameOnlyFormat line := by
  refine readOverrun (boundedRooms fun p free time name => by simp [nameOnlyFormat,free,time,name]) ?_
  intro args short
  split
  · exact toNameQuiet short (by simp) fun _ => itemQuiet _
  · exact itemQuiet _

theorem creatOverrun : straceReadCreat line = .error .overrun ↔ Overlong creatFormat line := by
  refine readOverrun (boundedRooms fun p free time name => by simp [creatFormat,free,time,name]) ?_
  intro args short
  split
  · exact toNameQuiet short (by simp) fun _ => itemQuiet _
  · exact itemQuiet _

theorem accessOverrun : straceReadAccess line = .error .overrun ↔ Overlong flagsFormat line := by
  refine readOverrun (boundedRooms fun p free time name => by simp [flagsFormat,free,time,name]) ?_
  intro args short
  split
  · exact toNameQuiet short (by simp) fun _ => itemQuiet _
  · exact itemQuiet _

theorem statOverrun : straceReadStat line = .error .overrun ↔ Overlong statFormat line := by
  refine readOverrun (boundedRooms fun p free time name => by simp [statFormat,free,time,name]) ?_
  intro args short
  split
  · exact toNameQuiet short (by simp) fun _ => itemQuiet _
  · exact itemQuiet _

theorem cloneOverrun : straceReadClone line = .error .overrun ↔ Overlong cloneFormat line := by
  refine readOverrun (boundedRooms fun p free time name => by simp [cloneFormat,free,time,name]) ?_
  intro args _
  split
  · exact itemQuiet _
  · exact itemQuiet _

theorem dup3Overrun : straceReadDup3 line = .error .overrun ↔ Overlong dup3Format line := by
  refine readOverrun (boundedRooms fun p free time name => by simp [dup3Format,free,time,name]) ?_
  intro args _
  split
  · exact itemQuiet _
  · exact itemQuiet _

theorem llseekOverrun : straceReadLlseek line = .error .overrun ↔ Overlong llseekFormat line := by
  refine readOverrun (boundedRooms fun p free time name => by simp [llseekFormat,free,time,name]) ?_
  intro args _
  split
  · exact itemQuiet _
  · exact itemQuiet _

theorem lseekOverrun : straceReadLseek line = .error .overrun ↔ Overlong lseekFormat line := by
  refine readOverrun (boundedRooms fun p free time name => by simp [lseekFormat,free,time,name]) ?_
  intro args _
  split
  · exact itemQuiet _
  · exact itemQuiet _

theorem okBind (args : List Arg) (k : List Arg → Scan Found) : (.ok args >>= k) = k args := rfl

theorem errorBind (fault : StraceFault) (k : List Arg → Scan Found) :
    (.error fault >>= k) = .error fault := rfl

theorem openOverrun : straceReadOpen line = .error .overrun ↔ TextOverrun .open line := by
  have unfolded : straceReadOpen line = (scan openFormat line >>= _) := rfl
  have whole : scan openFormat line = .error .overrun ↔ Overlong openFormat line := scanOverrun
  rw [unfolded,TextOverrun,← whole]
  cases ran : scan openFormat line with
  | error fault =>
    rw [errorBind,Except.error.injEq,Except.error.injEq]
    constructor
    · exact .inl
    · intro either
      rcases either with first | second
      · exact first
      · obtain ⟨⟨args,told,_⟩,_⟩ := second
        cases told
  | ok args =>
    have short : ∀ text, .text text ∈ args → text.length < MAX_STRING :=
      fun text member => textShort (boundedRooms fun p free time name => by
        simp [openFormat,free,time,name]) ran member
    rw [okBind]
    split
    · refine iff_of_false (toNameQuiet short (by simp) fun _ => itemQuiet _) ?_
      intro either
      rcases either with first | second
      · cases first
      · obtain ⟨⟨args,told,other⟩,_⟩ := second
        cases told
        exact other ⟨_,_,_,_,_,_,_,rfl⟩
    · rename_i other
      have early : ¬ OpenRead args := fun whole => by
        obtain ⟨pid,startTime,name,flags,mode,retval,dur,same⟩ := whole
        exact other pid startTime name flags mode retval dur same
      have bounded : Bounded flagsFormat := boundedRooms fun p free time name => by
        simp [flagsFormat,free,time,name]
      refine (readOverrun bounded ?_).trans ?_
      · intro args short
        split
        · exact toNameQuiet short (by simp) fun _ => itemQuiet _
        · exact itemQuiet _
      · constructor
        · intro beyond
          exact .inr ⟨⟨args,rfl,early⟩,beyond⟩
        · intro either
          exact (either.resolve_left fun same => by cases same).2

theorem narrowBind {format : List Directive} {line : Bytes} {k : List Arg → Scan Found}
    (narrow : Narrow format) (quiet : ∀ args, k args ≠ .error .overrun) :
    (scan format line >>= k) ≠ .error .overrun := by
  intro beyond
  cases ran : scan format line with
  | error fault =>
    rw [ran,errorBind,Except.error.injEq] at beyond
    rw [beyond] at ran
    exact narrowFits narrow line (scanOverrun.mp ran)
  | ok args =>
    rw [ran,okBind] at beyond
    exact quiet args beyond

theorem posCommaQuiet {k : Option Bytes → Scan Found} (quiet : ∀ r, k r ≠ .error .overrun) :
    (stracePosComma line >>= k) ≠ .error .overrun := by
  intro beyond
  cases ran : stracePosComma line with
  | ok r =>
    rw [ran] at beyond
    exact quiet r beyond
  | error fault =>
    rw [ran] at beyond
    cases beyond
    rw [stracePosComma] at ran
    split at ran
    · split at ran
      · cases ran
      · cases ran
    · split at ran
      · cases ran
      · split at ran
        · cases ran
        · cases ran
        · split at ran
          · cases ran
          · split at ran
            · cases ran
            · cases ran

theorem dataQuiet (record : Int32 → Int64 → Int64 → OpInfo → Op) :
    straceReadData record line ≠ .error .overrun := by
  refine narrowBind (narrowRooms fun p free time => by
    simp [dataFormat,free,time]) ?_
  intro args
  split
  · refine posCommaQuiet line ?_
    intro r
    split
    · exact itemQuiet _
    · refine narrowBind (narrowRooms fun p free time => by simp [free,time]) ?_
      intro args
      split
      · exact itemQuiet _
      · exact itemQuiet _
  · exact itemQuiet _

theorem dataAtQuiet (record : Int32 → Int64 → Int64 → Int64 → OpInfo → Op) :
    straceReadDataAt record line ≠ .error .overrun := by
  refine narrowBind (narrowRooms fun p free time => by
    simp [dataFormat,free,time]) ?_
  intro args
  split
  · refine posCommaQuiet line ?_
    intro r
    split
    · exact itemQuiet _
    · refine narrowBind (narrowRooms fun p free time => by simp [free,time]) ?_
      intro args
      split
      · exact itemQuiet _
      · exact itemQuiet _
  · exact itemQuiet _

theorem closeQuiet : straceReadClose line ≠ .error .overrun := by
  refine narrowBind (narrowRooms fun p free time => by simp [free,time]) ?_
  intro args
  split
  · exact itemQuiet _
  · exact itemQuiet _

theorem pipeQuiet : straceReadPipe line ≠ .error .overrun := by
  refine narrowBind (narrowRooms fun p free time => by simp [free,time]) ?_
  intro args
  split
  · exact itemQuiet _
  · exact itemQuiet _

theorem dupQuiet : straceReadDup line ≠ .error .overrun := by
  refine narrowBind (narrowRooms fun p free time => by simp [free,time]) ?_
  intro args
  split
  · exact itemQuiet _
  · exact itemQuiet _

theorem dup2Quiet : straceReadDup2 line ≠ .error .overrun := by
  refine narrowBind (narrowRooms fun p free time => by simp [free,time]) ?_
  intro args
  split
  · exact itemQuiet _
  · exact itemQuiet _

theorem socketQuiet : readSocketStrace line ≠ .error .overrun := by
  refine narrowBind (narrowRooms fun p free time => by simp [free,time]) ?_
  intro args
  split
  · exact itemQuiet _
  · exact itemQuiet _

theorem sendfileQuiet : straceReadSendfile line ≠ .error .overrun := by
  refine narrowBind (narrowRooms fun p free time => by simp [free,time]) ?_
  intro args
  split
  · exact itemQuiet _
  · refine narrowBind (narrowRooms fun p free time => by simp [free,time]) ?_
    intro args
    split
    · exact itemQuiet _
    · exact itemQuiet _
  · exact itemQuiet _

theorem fcntlQuiet : straceReadFcntl line ≠ .error .overrun := by
  rw [straceReadFcntl]
  split
  · exact itemQuiet _
  · refine narrowBind (narrowRooms fun p free time => by simp [free,time]) ?_
    intro args
    split
    · exact dupQuiet _
    · exact itemQuiet _

theorem textOverrun (c : OpType) :
    straceRead c line = .error .overrun ↔ TextOverrun c line := by
  cases c with
  | mkdir => exact mkdirOverrun line
  | rmdir =>
    rw [straceRead,straceReadRmdir]
    exact nameOverrun line _
  | unlink =>
    rw [straceRead,straceReadUnlink]
    exact nameOverrun line _
  | «open» => exact openOverrun line
  | creat => exact creatOverrun line
  | access => exact accessOverrun line
  | stat => exact statOverrun line
  | clone => exact cloneOverrun line
  | dup3 => exact dup3Overrun line
  | llseek => exact llseekOverrun line
  | lseek => exact lseekOverrun line
  | write =>
    rw [straceRead,straceReadWrite]
    exact iff_of_false (dataQuiet line _) id
  | read =>
    rw [straceRead,straceReadRead]
    exact iff_of_false (dataQuiet line _) id
  | pwrite =>
    rw [straceRead,straceReadPwrite]
    exact iff_of_false (dataAtQuiet line _) id
  | pread =>
    rw [straceRead,straceReadPread]
    exact iff_of_false (dataAtQuiet line _) id
  | close => exact iff_of_false (closeQuiet line) id
  | pipe => exact iff_of_false (pipeQuiet line) id
  | dup => exact iff_of_false (dupQuiet line) id
  | dup2 => exact iff_of_false (dup2Quiet line) id
  | socket => exact iff_of_false (socketQuiet line) id
  | sendfile => exact iff_of_false (sendfileQuiet line) id
  | fcntl => exact iff_of_false (fcntlQuiet line) id
  | unknown => exact iff_of_false (itemQuiet _) id
  | mmap => exact iff_of_false (itemQuiet _) id

end Readers

structure ReadAs (line : Bytes) (c : OpType) : Prop where
  told : ∃ name, toName (operationText line) = .ok name ∧ c = operationCode name.bytes
  unfinished : unfinishedWord <:+: line → c = .unknown
  resumed : strstr resumedWord line = none ∨ strstr resumedWord line = some 0

def LineOverrun (line : Bytes) : Prop :=
  MAX_STRING ≤ (operationText line).length ∨ ∃ c, ReadAs line c ∧ TextOverrun c line

inductive MergedAs (st : StraceState) (line : Bytes) : Bytes → Prop where
  | parts {name again : CName} {n : Nat} {pid : Int32} {e : Isyscall} {s r : Nat}
      (named : toName (operationText line) = .ok name)
      (unfinished : unfinishedWord <:+: line → operationCode name.bytes = .unknown)
      (occurs : strstr resumedWord line = some (n + 1))
      (told : toName (operationText (line.set n lparen)) = .ok again)
      (known : operationCode again.bytes ≠ .unknown)
      (own : linePid (line.set n lparen) = some pid)
      (found : st.ht.find htOpsIsyscall pid = some (some e))
      (short : e.line.length < MAX_STRING) (cut : strstr unfinishedMark e.line = some s)
      (mark : strstr resumedMark (line.set n lparen) = some r)
      (fits : s + (resumedRest (line.set n lparen) r).length ≤ 2 * MAX_STRING) :
      MergedAs st line (e.line.take s ++ resumedRest (line.set n lparen) r)

theorem nameMissing {line : Bytes} (long : MAX_STRING ≤ (operationText line).length) (fuel : Nat)
    (stats : Bool) (st : StraceState) :
    straceProcess (fuel + 1) stats line st = .error .overrun := by
  have unnamed : ofScan (toName (operationText line)) st = .error .overrun := by
    rw [toName,dif_neg (Nat.not_lt.mpr long)]
    rfl
  rw [straceProcess,Prog.bindRun,straceGetOperationCode,straceGetOperation,Prog.bindRun,
    Prog.bindRun,unnamed]

theorem switchOverrun {c : OpType} {line : Bytes} {st : StraceState} :
    straceSwitch c line st = .error .overrun ↔ TextOverrun c line := by
  rw [← textOverrun,straceSwitch,Prog.bindRun,ofScan]
  cases straceRead c line with
  | error fault =>
    simp only [Except.map,Except.error.injEq]
  | ok found =>
    refine iff_of_false ?_ Prog.okNotError
    cases found with
    | failed => exact Prog.okNotError
    | skipped => exact Prog.okNotError
    | item o => exact Prog.okNotError

theorem readPidNone {line : Bytes} (lost : linePid line = none) (st : StraceState) :
    readPid line st = .error .unset := by
  obtain ⟨args,told⟩ := Lib.sscanfFree (f := [d]) (by decide) line
  have read : ofScan (scan [d] line) st = .ok (args,st) := by
    rw [scan,told]
    rfl
  rw [linePid,told] at lost
  rw [readPid,Prog.bindOf read]
  split
  · cases lost
  · rfl

theorem unfinishedQuiet (line : Bytes) (st : StraceState) :
    straceReadUnfinished line st ≠ .error .overrun := by
  intro beyond
  cases told : linePid line with
  | none =>
    rw [straceReadUnfinished,Prog.bindRun,readPidNone told] at beyond
    cases beyond
  | some pid =>
    cases search : st.ht.find htOpsIsyscall pid with
    | none =>
      rw [straceReadUnfinished,Prog.bindOf (readPidRun told st),Prog.bindOf (Prog.getRun st),
        search] at beyond
      cases beyond
    | some here =>
      cases here with
      | none =>
        obtain ⟨ht,_,stored⟩ := unfinishedStored told search
        rw [stored] at beyond
        cases beyond
      | some e =>
        rw [unfinishedKept told search] at beyond
        cases beyond

section Line
variable {line : Bytes} {name : CName} (named : toName (operationText line) = .ok name)
include named

theorem readAsIs {c : OpType} (reads : ReadAs line c) : c = operationCode name.bytes := by
  obtain ⟨other,told,same⟩ := reads.told
  rw [named] at told
  cases told
  exact same

variable {stats : Bool} {st t : StraceState} (fuel : Nat)
  (code : straceGetOperationCode stats line st = .ok (operationCode name.bytes,t))
include code

theorem readOverruns (plain : unfinishedWord <:+: line → operationCode name.bytes = .unknown)
    (resumed : strstr resumedWord line = none ∨ strstr resumedWord line = some 0) :
    straceProcess (fuel + 1) stats line st = .error .overrun ↔
      ∃ c, ReadAs line c ∧ TextOverrun c line := by
  rw [processSwitch fuel code plain resumed,switchOverrun]
  constructor
  · intro beyond
    exact ⟨_,⟨⟨name,named,rfl⟩,plain,resumed⟩,beyond⟩
  · intro one
    obtain ⟨c,reads,beyond⟩ := one
    exact readAsIs named reads ▸ beyond

theorem unfinishedOverruns (marked : unfinishedWord <:+: line)
    (known : operationCode name.bytes ≠ .unknown) :
    straceProcess (fuel + 1) stats line st ≠ .error .overrun ∧ ∀ c, ¬ ReadAs line c := by
  constructor
  · intro beyond
    rw [processUnfinished fuel code marked known,Prog.bindRun] at beyond
    cases ran : straceReadUnfinished line t with
    | error fault =>
      rw [ran] at beyond
      cases beyond
      exact unfinishedQuiet line t ran
    | ok r =>
      rw [ran] at beyond
      cases beyond
  · intro c reads
    exact known (readAsIs named reads ▸ reads.unfinished marked)

theorem mergedOverruns (same : t = st) (first : ∀ n, strstr resumedWord line = some n →
    ∀ m, n = m + 1 → ∃ pid, linePid (line.set m lparen) = some pid ∧
      st.ht.find htOpsIsyscall pid = some none) :
    straceProcess (fuel + 1) stats line st = .error .overrun ↔
      ∃ c, ReadAs line c ∧ TextOverrun c line := by
  subst same
  rcases em (unfinishedWord <:+: line ∧ operationCode name.bytes ≠ .unknown) with both | other
  · obtain ⟨fills,reads⟩ := unfinishedOverruns named fuel code both.1 both.2
    exact iff_of_false fills fun one => reads _ one.choose_spec.1
  · have plain : unfinishedWord <:+: line → operationCode name.bytes = .unknown := fun marked =>
      not_not.mp fun known => other ⟨marked,known⟩
    cases occurs : strstr resumedWord line with
    | none => exact readOverruns named fuel code plain (.inl occurs)
    | some n =>
      cases n with
      | zero => exact readOverruns named fuel code plain (.inr occurs)
      | succ m =>
        have foreign : ¬ ∃ c, ReadAs line c ∧ TextOverrun c line := by
          intro one
          obtain ⟨c,reads,_⟩ := one
          rcases reads.resumed with absent | front
          · rw [occurs] at absent
            cases absent
          · rw [occurs] at front
            cases front
        obtain ⟨pid,own,absent⟩ := first _ occurs m rfl
        have fits := Nat.lt_of_le_of_lt (patchedShorter line m) (toNameOk named).1
        have again : straceGetOperationCode false (line.set m lparen) t =
            .ok (operationCode (CName.copy _ fits).bytes,t) :=
          codeSilent (by rw [toName,dif_pos fits])
        refine iff_of_false ?_ foreign
        rcases eq_or_ne (operationCode (CName.copy _ fits).bytes) .unknown with other | known
        · rw [processForeign fuel code plain occurs again other]
          intro same
          cases same
        · rw [processResumed fuel code plain occurs again known,
            Prog.bindOf (resumedNone own absent _)]
          intro same
          cases same

end Line

theorem mergedOwn {st : StraceState} {line merged : Bytes} (parts : MergedAs st line merged)
    {n : Nat} (occurs : strstr resumedWord line = some (n + 1)) :
    ∃ pid e s r, linePid (line.set n lparen) = some pid ∧
      st.ht.find htOpsIsyscall pid = some (some e) ∧ e.line.length < MAX_STRING ∧
      strstr unfinishedMark e.line = some s ∧ strstr resumedMark (line.set n lparen) = some r ∧
      s + (resumedRest (line.set n lparen) r).length ≤ 2 * MAX_STRING ∧
      merged = e.line.take s ++ resumedRest (line.set n lparen) r := by
  cases parts with
  | parts named unfinished place told known own found short cut mark fits =>
    rw [occurs] at place
    cases place
    exact ⟨_,_,_,_,own,found,short,cut,mark,fits,rfl⟩

theorem passed {α β : Type} {m : StraceProg α} {b : β} {st : StraceState} {fault : StraceFault} :
    (m >>= fun _ => pure b) st = .error fault ↔ m st = .error fault := by
  rw [Prog.bindError]
  refine or_iff_left ?_
  intro later
  obtain ⟨_,_,_,never⟩ := later
  cases never

theorem mergedDecides {st t : StraceState} (pending : PendingTable st) (same : SameCalls st t)
    {pid : Int32} {e : Isyscall} (found : st.ht.find htOpsIsyscall pid = some (some e))
    {line : Bytes} (own : linePid line = some pid) (short : e.line.length < MAX_STRING) {s r : Nat}
    (cut : strstr unfinishedMark e.line = some s) (mark : strstr resumedMark line = some r)
    (fits : ¬ 2 * MAX_STRING < s + (resumedRest line r).length) :
    straceReadResumed (straceProcess st.ht.items.length false) line t = .error .overrun ↔
      LineOverrun (e.line.take s ++ resumedRest line r) := by
  have here : t.ht.find htOpsIsyscall pid = some (some e) := same.2 ▸ found
  obtain ⟨cutTable,ht,modified,removed,merge⟩ := resumedMerge own here short cut mark fits
  obtain ⟨member,mine⟩ := HashTable.findMem found
  obtain ⟨_,named,told⟩ := pending.recorded e member short
  obtain ⟨shape,front⟩ := cutLine told (Lib.strstrFound cut)
  have told : linePid (e.line.take s) = some pid :=
    front.trans (named.trans (congrArg some ((isyscallAgrees pid e).mp mine)))
  obtain ⟨_,absent,_⟩ := mergedTable (same.2 ▸ pending.keyed) modified removed
  obtain ⟨fuel,size⟩ : ∃ fuel, st.ht.items.length = fuel + 1 :=
    ⟨st.ht.items.length - 1,by
      have some := List.length_pos_of_mem member
      omega⟩
  rw [size,merge,passed]
  rcases Nat.lt_or_ge (operationText (e.line.take s ++ resumedRest line r)).length MAX_STRING with
    brief | long
  · have named : toName (operationText (e.line.take s ++ resumedRest line r)) =
        .ok (CName.copy _ brief) := by rw [toName,dif_pos brief]
    have first : ∀ n, strstr resumedWord (e.line.take s ++ resumedRest line r) = some n →
        ∀ m, n = m + 1 → ∃ pid, linePid ((e.line.take s ++ resumedRest line r).set m lparen) =
          some pid ∧ ({ t with ht } : StraceState).ht.find htOpsIsyscall pid = some none := by
      intro n occurs m next
      subst next
      exact ⟨pid,(shape.patched occurs).trans told,absent⟩
    have code : straceGetOperationCode false (e.line.take s ++ resumedRest line r) { t with ht } =
        .ok (operationCode (CName.copy _ brief).bytes,{ t with ht }) :=
      codeSilent named
    rw [mergedOverruns named fuel code rfl first,LineOverrun,
      or_iff_right (Nat.not_le.mpr brief)]
  · exact iff_of_true (nameMissing long fuel false _) (.inl long)

section Resumes
variable {st t : StraceState} (pending : PendingTable st) (same : SameCalls st t) {line : Bytes}
  {n : Nat} (occurs : strstr resumedWord line = some (n + 1))
include same occurs

theorem resumedQuiet {pid : Int32} {e : Isyscall} (own : linePid (line.set n lparen) = some pid)
    (found : st.ht.find htOpsIsyscall pid = some (some e))
    (apart : ∀ s r, e.line.length < MAX_STRING → strstr unfinishedMark e.line = some s →
      strstr resumedMark (line.set n lparen) = some r →
      2 * MAX_STRING < s + (resumedRest (line.set n lparen) r).length)
    (process : Bytes → StraceProg Int) :
    straceReadResumed process (line.set n lparen) t ≠ .error .overrun ∧
      ∀ merged, ¬ MergedAs st line merged := by
  have here : t.ht.find htOpsIsyscall pid = some (some e) := same.2 ▸ found
  constructor
  · rcases Nat.lt_or_ge e.line.length MAX_STRING with short | long
    · cases cut : strstr unfinishedMark e.line with
      | none =>
        rw [resumedWhole own here short cut]
        intro same
        cases same
      | some s =>
        cases mark : strstr resumedMark (line.set n lparen) with
        | none =>
          obtain ⟨ht,_,ran⟩ := resumedCut own here short cut mark process
          rw [ran]
          intro same
          cases same
        | some r =>
          rw [resumedFull own here short cut mark (apart s r short cut mark)]
          intro same
          cases same
    · rw [resumedLong own here long]
      intro same
      cases same
  · intro merged parts
    obtain ⟨pid',e',s,r,own',found',short,cut,mark,fits,_⟩ := mergedOwn parts occurs
    rw [own] at own'
    cases own'
    rw [found] at found'
    cases found'
    exact absurd (apart s r short cut mark) (Nat.not_lt.mpr fits)

include pending

theorem resumedOverruns {name again : CName} (named : toName (operationText line) = .ok name)
    (unfinished : unfinishedWord <:+: line → operationCode name.bytes = .unknown)
    (told : toName (operationText (line.set n lparen)) = .ok again)
    (known : operationCode again.bytes ≠ .unknown) :
    straceReadResumed (straceProcess st.ht.items.length false) (line.set n lparen) t =
        .error .overrun ↔
      ∃ merged, MergedAs st line merged ∧ LineOverrun merged := by
  have apart {x : Except StraceFault (Unit × StraceState)}
      (other : x ≠ .error .overrun ∧ ∀ merged, ¬ MergedAs st line merged) :
      x = .error .overrun ↔ ∃ merged, MergedAs st line merged ∧ LineOverrun merged :=
    iff_of_false other.1 fun one => other.2 _ one.choose_spec.1
  cases own : linePid (line.set n lparen) with
  | none =>
    refine apart ⟨?_,?_⟩
    · rw [straceReadResumed,Prog.bindRun,readPidNone own]
      intro same
      cases same
    · intro merged parts
      obtain ⟨_,_,_,_,other,_⟩ := mergedOwn parts occurs
      rw [own] at other
      cases other
  | some pid =>
    have alone (missing : ∀ e, st.ht.find htOpsIsyscall pid ≠ some (some e)) (merged : Bytes) :
        ¬ MergedAs st line merged := by
      intro parts
      obtain ⟨pid',e,_,_,own',found,_⟩ := mergedOwn parts occurs
      rw [own] at own'
      cases own'
      exact missing e found
    cases search : st.ht.find htOpsIsyscall pid with
    | none =>
      refine apart ⟨?_,alone fun e => by rw [search]; intro same; cases same⟩
      rw [straceReadResumed,Prog.bindOf (readPidRun own t),Prog.bindOf (Prog.getRun t),same.2,
        search]
      intro same
      cases same
    | some here =>
      cases here with
      | none =>
        refine apart ⟨?_,alone fun e => by rw [search]; intro same; cases same⟩
        rw [resumedNone own (same.2 ▸ search)]
        intro same
        cases same
      | some e =>
        rcases em (∃ s r, e.line.length < MAX_STRING ∧ strstr unfinishedMark e.line = some s ∧
            strstr resumedMark (line.set n lparen) = some r ∧
            ¬ 2 * MAX_STRING < s + (resumedRest (line.set n lparen) r).length) with merges | stops
        · obtain ⟨s,r,short,cut,mark,fits⟩ := merges
          rw [mergedDecides pending same search own short cut mark fits]
          constructor
          · intro beyond
            exact ⟨_,.parts named unfinished occurs told known own search short cut mark
              (Nat.not_lt.mp fits),beyond⟩
          · intro one
            obtain ⟨merged,parts,beyond⟩ := one
            obtain ⟨pid',e',s',r',own',found',_,cut',mark',_,whole⟩ := mergedOwn parts occurs
            rw [own] at own'
            cases own'
            rw [search] at found'
            cases found'
            rw [cut] at cut'
            cases cut'
            rw [mark] at mark'
            cases mark'
            exact whole ▸ beyond
        · refine apart (resumedQuiet same occurs own search ?_ _)
          intro s r short cut mark
          by_contra fits
          exact stops ⟨s,r,short,cut,mark,fits⟩

end Resumes

theorem unmerged {st : StraceState} {line : Bytes}
    (apart : ∀ n, strstr resumedWord line ≠ some (n + 1)) :
    ¬ ∃ merged, MergedAs st line merged ∧ LineOverrun merged := by
  intro one
  obtain ⟨merged,parts,_⟩ := one
  cases parts with
  | parts _ _ occurs => exact apart _ occurs

theorem lineOverrun {st : StraceState} (pending : PendingTable st) (stats : Bool) (line : Bytes) :
    straceProcessLine stats line st = .error .overrun ↔
      MAX_STRING ≤ (operationText line).length ∨ Counts stats line st ∧
        ((∃ c, ReadAs line c ∧ TextOverrun c line) ∨
          ∃ merged, MergedAs st line merged ∧ LineOverrun merged) := by
  rw [straceProcessLine]
  rcases Nat.lt_or_ge (operationText line).length MAX_STRING with fits | long
  · have named : toName (operationText line) = .ok (CName.copy _ fits) := by
      rw [toName,dif_pos fits]
    rw [or_iff_right (Nat.not_le.mpr fits)]
    rcases em (Counts stats line st) with counts | stops
    · rw [and_iff_right counts]
      obtain ⟨t,code,same,tables⟩ := codeTold named pending.tables counts
      rcases em (unfinishedWord <:+: line ∧ operationCode (CName.copy _ fits).bytes ≠ .unknown) with
        both | other
      · obtain ⟨fills,reads⟩ := unfinishedOverruns named _ code both.1 both.2
        refine iff_of_false fills ?_
        intro either
        rcases either with one | two
        · exact reads _ one.choose_spec.1
        · obtain ⟨merged,parts,_⟩ := two
          cases parts with
          | parts named' unfinished =>
            rw [named] at named'
            cases named'
            exact both.2 (unfinished both.1)
      · have plain : unfinishedWord <:+: line →
            operationCode (CName.copy _ fits).bytes = .unknown := fun marked =>
          not_not.mp fun known => other ⟨marked,known⟩
        cases occurs : strstr resumedWord line with
        | none =>
          rw [readOverruns named _ code plain (.inl occurs)]
          exact (or_iff_left (unmerged fun n same => by rw [occurs] at same; cases same)).symm
        | some n =>
          cases n with
          | zero =>
            rw [readOverruns named _ code plain (.inr occurs)]
            exact (or_iff_left (unmerged fun n same => by rw [occurs] at same; cases same)).symm
          | succ m =>
            have foreign : ¬ ∃ c, ReadAs line c ∧ TextOverrun c line := by
              intro one
              obtain ⟨c,reads,_⟩ := one
              rcases reads.resumed with absent | front
              · rw [occurs] at absent
                cases absent
              · rw [occurs] at front
                cases front
            have room := Nat.lt_of_le_of_lt (patchedShorter line m) fits
            have told : toName (operationText (line.set m lparen)) = .ok (CName.copy _ room) := by
              rw [toName,dif_pos room]
            have again : straceGetOperationCode false (line.set m lparen) t =
                .ok (operationCode (CName.copy _ room).bytes,t) :=
              codeSilent told
            rw [or_iff_right foreign]
            rcases eq_or_ne (operationCode (CName.copy _ room).bytes) .unknown with other | known
            · refine iff_of_false ?_ ?_
              · rw [processForeign _ code plain occurs again other]
                intro same
                cases same
              · intro one
                obtain ⟨merged,parts,_⟩ := one
                cases parts with
                | parts _ _ place told' known =>
                  rw [occurs] at place
                  cases place
                  rw [told] at told'
                  cases told'
                  exact known other
            · rw [processResumed _ code plain occurs again known,passed]
              exact resumedOverruns pending same occurs named plain told known
    · refine iff_of_false ?_ fun both => stops both.1
      rw [straceProcess,Prog.bindRun,codeStops named stops]
      intro same
      cases same
  · exact iff_of_true (nameMissing long _ stats st) (.inl long)

theorem shortLineFits {line : Bytes} (short : line.length < MAX_STRING) : ¬ LineOverrun line := by
  intro beyond
  rcases beyond with long | one
  · have less : (operationText line).length ≤ line.length :=
      ((List.takeWhile_sublist _).trans (List.dropWhile_sublist _)).length_le
    omega
  · obtain ⟨c,_,text⟩ := one
    cases c with
    | «open» =>
      rcases text with first | second
      · exact shortFits short first
      · exact shortFits short second.2
    | mkdir => exact shortFits short text
    | rmdir => exact shortFits short text
    | unlink => exact shortFits short text
    | creat => exact shortFits short text
    | access => exact shortFits short text
    | stat => exact shortFits short text
    | clone => exact shortFits short text
    | dup3 => exact shortFits short text
    | llseek => exact shortFits short text
    | lseek => exact shortFits short text
    | _ => exact text

/-- The operation, and what the call's reader takes from the line or from the line it is merged
to, is shorter than its array. -/
structure LineFits (stats : Bool) (line : Bytes) (st : StraceState) : Prop where
  operation : (operationText line).length < MAX_STRING
  read : Counts stats line st → ∀ c, ReadAs line c → ¬ TextOverrun c line
  merged : Counts stats line st → ∀ merged, MergedAs st line merged → ¬ LineOverrun merged

/-- The binary reader and the strace reader stay inside their arrays of MAX_STRING bytes. -/
theorem namesFit (raw : Bytes) (list : List OpItem) {st : StraceState} (pending : PendingTable st)
    (stats : Bool) (line : Bytes) :
    ((Binary.binGetItems raw list).2 ≠ .fault ↔ ¬ Binary.Overruns raw) ∧
      (straceProcessLine stats line st ≠ .error .overrun ↔ LineFits stats line st) := by
  constructor
  · constructor
    · intro inside beyond
      exact inside (Binary.loadOverrun beyond list)
    · intro fits fault
      exact fits ((Binary.loadSource raw list).2 fault)
  · rw [ne_eq,lineOverrun pending stats line]
    constructor
    · intro fits
      refine ⟨Nat.not_le.mp fun long => fits (.inl long),?_,?_⟩
      · intro counts c reads text
        exact fits (.inr ⟨counts,.inl ⟨c,reads,text⟩⟩)
      · intro counts merged parts beyond
        exact fits (.inr ⟨counts,.inr ⟨merged,parts,beyond⟩⟩)
    · intro fits beyond
      rcases beyond with long | later
      · exact absurd fits.operation (Nat.not_lt.mpr long)
      · obtain ⟨counts,one | two⟩ := later
        · obtain ⟨c,reads,text⟩ := one
          exact fits.read counts c reads text
        · obtain ⟨merged,parts,spilt⟩ := two
          exact fits.merged counts merged parts spilt

def begunUnlink : Bytes := ascii "7 1.0 unlink(\"/tmp/a\" <unfinished ...>"

def doneUnlink : Bytes := ascii "7 1.1 <... unlink resumed> ) = 0 <0.1>"

def unlinked : Op := .unlink ⟨CName.copy (ascii "/tmp/a") (by decide),0,⟨7,1,1,0⟩⟩

def resumesUnlink (st : StraceState) : Bool :=
  st.ht.items.length = 1 && (straceProcessLine true doneUnlink st).toOption.any fun r =>
    r.2.list = [unlinked.item]

theorem namesFitMerged : (∃ st, processLines true [begunUnlink] (straceInit []) = .ok ((),st) ∧
      resumesUnlink st = true ∧ LineFits true doneUnlink st) ∧
    Binary.binGetItems (Binary.binSaveItem unlinked) [] = ([unlinked.item],.returned 0) ∧
    ¬ Binary.Overruns (Binary.binSaveItem unlinked) := by
  have read : Binary.binGetItems (Binary.binSaveItem unlinked) [] =
      ([unlinked.item],.returned 0) := by decide +kernel
  have made : (processLines true [begunUnlink] (straceInit [])).toOption.any
      (fun r => resumesUnlink r.2) = true := by decide +kernel
  obtain ⟨r,ran,resumes⟩ := (Option.any_eq_true _ _).mp made
  have run : processLines true [begunUnlink] (straceInit []) = .ok ((),r.2) := by
    cases first : processLines true [begunUnlink] (straceInit []) with
    | error f =>
      rw [first] at ran
      cases ran
    | ok r' =>
      rw [first] at ran
      cases ran
      rfl
  have fits := namesFit (Binary.binSaveItem unlinked) [] (linesPending (pendingInit []) run) true
    doneUnlink
  have inside : straceProcessLine true doneUnlink r.2 ≠ .error .overrun := by
    intro beyond
    rw [resumesUnlink,beyond] at resumes
    simp [Except.toOption] at resumes
  exact ⟨⟨r.2,run,resumes,fits.2.mp inside⟩,read,fits.1.mp (by rw [read]; decide)⟩

def cutUnlink : Bytes := ascii "7 1.0 unlink(\"" ++ List.replicate 400 0x61 ++ unfinishedMark

def restUnlink : Bytes :=
  ascii "7 1.1 <... unlink resumed> " ++ List.replicate 200 0x61 ++ ascii "\") = 0 <0.1>"

theorem namesSpill :
    (Binary.binGetItems (OpType.unlink.code.toUInt8 :: (Binary.writeInt32 512 ++
      List.replicate 512 0x61)) []).2 = .fault ∧
    (processLines true [cutUnlink,restUnlink] (straceInit [])).map (fun _ => ()) =
      .error .overrun := by
  constructor
  · decide +kernel
  · decide +kernel

end IoApps.Strace
