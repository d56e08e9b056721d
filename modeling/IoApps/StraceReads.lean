import IoApps.StraceBounds
import IoApps.StraceComma

/-! What the readers make of a line with a stamp: the item keeps the stamp, and a reader stops only
where one of its scans does. -/
namespace IoApps.Strace
open Lib (Bytes ascii strstr isSpace signed sscanf Directive Arg)

def Stamped (s : Stamp) (info : OpInfo) : Prop :=
  info.pid = Int32.ofNat s.pid ∧ info.start = ⟨Int32.ofNat s.sec,Int32.ofNat s.usec⟩

def Yields (bad : StraceFault → Prop) (s : Stamp) : Scan Found → Prop
  | .error fault => bad fault
  | .ok (.item o) => Stamped s o.info
  | .ok _ => True

def durationEnd : List Directive := lits "<" ++ [.upto gt none MAX_TIME_STRING]

def Dated (format : List Directive) : Prop :=
  ∃ g, Rooms (fun room => room = none ∨ room = some MAX_STRING) g ∧
    (format = g ∨ format = g ++ durationEnd)

def Tame (bad : StraceFault → Prop) (s : Bytes) : Prop :=
  ∀ format fault, Dated format → scan format s = .error fault → bad fault

def dupRest (oldFd newFd : Int32) (dur : Bytes) : Bytes :=
  ascii "dup(" ++ signed oldFd.toInt ++ ascii ") = " ++ signed newFd.toInt ++ ascii " <" ++ dur ++
    ascii ">"

structure Scans (bad : StraceFault → Prop) (rest : Bytes) : Prop where
  next : ∀ c, rest.head? = some c → isSpace c = false
  tame : Tame bad rest

structure Clean (bad : StraceFault → Prop) (rest : Bytes) : Prop extends Scans bad rest where
  spill : bad .overrun
  dup : ∀ oldFd newFd dur, dur.length < MAX_TIME_STRING → Tame bad (dupRest oldFd newFd dur)

def ShowsData (c : OpType) : Prop := c = .write ∨ c = .read ∨ c = .pwrite ∨ c = .pread

structure Commas (bad : StraceFault → Prop) (line : Bytes) : Prop where
  comma : ∀ fault, stracePosComma line = .error fault → bad fault
  behind : ∀ found, stracePosComma line = .ok (some found) → Tame bad found

theorem datedRooms {g : List Directive}
    (rooms : ∀ p : Option Nat → Prop, p none → p (some MAX_STRING) → Rooms p g) :
    Rooms (fun room => room = none ∨ room = some MAX_STRING) g := rooms _ (.inl rfl) (.inr rfl)

theorem datedPlain {g : List Directive}
    (rooms : ∀ p : Option Nat → Prop, p none → p (some MAX_STRING) → Rooms p g) : Dated g :=
  ⟨g,datedRooms rooms,.inl rfl⟩

theorem datedResult {g : List Directive} {number : Directive} (value : number.room = none)
    (rooms : ∀ p : Option Nat → Prop, p none → p (some MAX_STRING) → Rooms p g) :
    Dated (g ++ resultFormat number) := by
  refine ⟨g ++ (lits ") = " ++ [number,.skip lt]),datedRooms fun p free name => ?_,.inr ?_⟩
  · simp [rooms p free name,free,value]
  · simp only [resultFormat,durationEnd,List.append_assoc]

def Opens (format g : List Directive) : Prop :=
  format = stampFormat ++ g ∨ format = .space :: (stampFormat ++ g)

theorem Opens.append {format g : List Directive} (opens : Opens format g) (h : List Directive) :
    Opens (format ++ h) (g ++ h) := by
  rcases opens with plain | spaced
  · exact .inl (by rw [plain,List.append_assoc])
  · exact .inr (by rw [spaced,List.cons_append,List.append_assoc])

theorem opensStamp : Opens stampFormat [] := .inl (List.append_nil _).symm

theorem opensSpaced : Opens (.space :: stampFormat) [] :=
  .inr (congrArg _ (List.append_nil _).symm)

theorem opensArgs : Opens argsFormat ([.skip lparen] ++ lits "(") :=
  (opensStamp.append _).append _

theorem spacedArgs : Opens (.space :: argsFormat) ([.skip lparen] ++ lits "(") :=
  (opensSpaced.append _).append _

theorem opensName : Opens nameFormat
    [.skip quote,.lit quote,.upto quote (some MAX_STRING) MAX_STRING,.lit quote] :=
  opensStamp.append _

section Rules
variable {bad : StraceFault → Prop} {s : Stamp}

theorem openScan {rest : Bytes} (next : ∀ c, rest.head? = some c → isSpace c = false)
    {format g : List Directive} (opens : Opens format g) :
    scan format (s.print rest) =
      (scan g rest).map fun args => .num s.pid :: .text s.time :: args := by
  have reads := stampReads s next g
  have both : sscanf format (s.print rest) = sscanf (stampFormat ++ g) (s.print rest) := by
    rcases opens with plain | spaced
    · rw [plain]
    · have still : Lib.skipSpace (s.print rest) = s.print rest := by
        cases text : s.print rest with
        | nil => rfl
        | cons c more =>
          have other := stampHead s rest c (by rw [text]; rfl)
          exact List.dropWhile_cons_of_neg (by simp [other])
      rw [spaced,sscanf,still]
  rw [scan,both,reads,scan]
  cases sscanf g rest <;> rfl

theorem yieldsScan {format : List Directive} {line : Bytes} (tame : Tame bad line)
    (dated : Dated format) {k : List Arg → Scan Found} (later : ∀ args, Yields bad s (k args)) :
    Yields bad s (scan format line >>= k) := by
  cases ran : scan format line with
  | error fault => exact tame format fault dated ran
  | ok args => exact later args

theorem yieldsName (spill : bad .overrun) {text : Bytes} {k : CName → Scan Found}
    (later : ∀ name, Yields bad s (k name)) : Yields bad s (toName text >>= k) := by
  unfold toName
  split
  · exact later _
  · exact spill

theorem yieldsComma {line : Bytes} (commas : Commas bad line)
    {k : Option Bytes → Scan Found} (none : Yields bad s (k none))
    (later : ∀ found, Tame bad found → Yields bad s (k (some found))) :
    Yields bad s (stracePosComma line >>= k) := by
  cases ran : stracePosComma line with
  | error fault => exact commas.comma fault ran
  | ok found =>
    cases found with
    | none => exact none
    | some text => exact later text (commas.behind text ran)

theorem yieldsItem {o : Op} {dur : Bytes} (own : o.info = opInfo s.pid s.time dur) :
    Yields bad s (pure (.item o)) := by
  have time := readTimeText s.sec s.usec
  change Stamped s o.info
  rw [own]
  exact ⟨Int32.ofInt_eq_ofNat,time.trans (by simp only [Int32.ofInt_eq_ofNat])⟩

variable {rest : Bytes}

theorem yieldsOpen (scans : Scans bad rest) {format g : List Directive} (opens : Opens format g)
    (dated : Dated g) {k : List Arg → Scan Found} (later : ∀ args, scan g rest = .ok args →
      Yields bad s (k (.num s.pid :: .text s.time :: args))) :
    Yields bad s (scan format (s.print rest) >>= k) := by
  rw [openScan scans.next opens]
  cases ran : scan g rest with
  | error fault => exact scans.tame g fault dated ran
  | ok args => exact later args ran

theorem dupYields (scans : Scans bad rest) : Yields bad s (straceReadDup (s.print rest)) := by
  refine yieldsOpen scans ((opensArgs.append [d]).append (resultFormat d))
    (datedResult rfl fun p free _ => by simp [free]) ?_
  intro args _
  split
  · rename_i same
    cases same
    exact yieldsItem rfl
  · exact trivial
variable (clean : Clean bad rest)
include clean

theorem closeYields : Yields bad s (straceReadClose (s.print rest)) := by
  refine yieldsOpen clean.toScans
    ((spacedArgs.append [d]).append (resultFormat d))
    (datedResult rfl fun p free _ => by simp [free]) ?_
  intro args _
  split
  · rename_i same
    cases same
    exact yieldsItem rfl
  · exact trivial

theorem mkdirYields : Yields bad s (straceReadMkdir (s.print rest)) := by
  refine yieldsOpen clean.toScans
    (((opensName.append (lits ", ")).append [o]).append (resultFormat d))
    (datedResult rfl fun p free name => by simp [free,name]) ?_
  intro args _
  split
  · rename_i same
    cases same
    exact yieldsName clean.spill fun _ => yieldsItem rfl
  · exact trivial

theorem dataYields (commas : Commas bad (s.print rest))
    (record : Int32 → Int64 → Int64 → OpInfo → Op)
    (own : ∀ fd size retval info, (record fd size retval info).info = info) :
    Yields bad s (straceReadData record (s.print rest)) := by
  refine yieldsOpen clean.toScans
    ((spacedArgs.append [d]).append (lits ", "))
    (datedPlain fun p free _ => by simp [free]) ?_
  intro args _
  split
  · rename_i same
    cases same
    refine yieldsComma commas trivial fun found tame => ?_
    refine yieldsScan tame (datedResult rfl fun p free _ => by simp [free]) fun args => ?_
    split
    · exact yieldsItem (own _ _ _ _)
    · exact trivial
  · exact trivial

theorem dataAtYields (commas : Commas bad (s.print rest))
    (record : Int32 → Int64 → Int64 → Int64 → OpInfo → Op)
    (own : ∀ fd size offset retval info, (record fd size offset retval info).info = info) :
    Yields bad s (straceReadDataAt record (s.print rest)) := by
  refine yieldsOpen clean.toScans
    ((spacedArgs.append [d]).append (lits ", "))
    (datedPlain fun p free _ => by simp [free]) ?_
  intro args _
  split
  · rename_i same
    cases same
    refine yieldsComma commas trivial fun found tame => ?_
    refine yieldsScan tame (datedResult rfl fun p free _ => by simp [free]) fun args => ?_
    split
    · exact yieldsItem (own _ _ _ _ _)
    · exact trivial
  · exact trivial

theorem nameYields (record : CName → Int32 → OpInfo → Op)
    (own : ∀ name retval info, (record name retval info).info = info) :
    Yields bad s (straceReadName record (s.print rest)) := by
  refine yieldsOpen clean.toScans
    (opensName.append (resultFormat d))
    (datedResult rfl fun p free name => by simp [free,name]) ?_
  intro args _
  split
  · rename_i same
    cases same
    exact yieldsName clean.spill fun _ => yieldsItem (own _ _ _)
  · exact trivial

theorem pipeYields : Yields bad s (straceReadPipe (s.print rest)) := by
  refine yieldsOpen clean.toScans
    (((((((opensSpaced.append [.skip lbracket]).append (lits "[")).append [d]).append
    (lits ", ")).append [d]).append (lits "]")).append (resultFormat d))
    (datedResult rfl fun p free _ => by simp [free]) ?_
  intro args _
  split
  · rename_i same
    cases same
    exact yieldsItem rfl
  · exact trivial

theorem openYields : Yields bad s (straceReadOpen (s.print rest)) := by
  refine yieldsOpen clean.toScans
    (((((opensName.append (lits ", ")).append
    [.upto comma none MAX_STRING]).append (lits ", ")).append [u]).append (resultFormat d))
    (datedResult rfl fun p free name => by simp [free,name]) ?_
  intro args _
  split
  · rename_i same
    cases same
    exact yieldsName clean.spill fun _ => yieldsItem rfl
  · refine yieldsOpen clean.toScans
      (((opensName.append (lits ", ")).append
      [.upto rparen none MAX_STRING]).append (resultFormat d))
      (datedResult rfl fun p free name => by simp [free,name]) ?_
    intro args _
    split
    · rename_i same
      cases same
      exact yieldsName clean.spill fun _ => yieldsItem rfl
    · exact trivial

theorem creatYields : Yields bad s (straceReadCreat (s.print rest)) := by
  refine yieldsOpen clean.toScans
    (((opensName.append (lits ", ")).append [u]).append (resultFormat d))
    (datedResult rfl fun p free name => by simp [free,name]) ?_
  intro args _
  split
  · rename_i same
    cases same
    exact yieldsName clean.spill fun _ => yieldsItem rfl
  · exact trivial

theorem cloneYields : Yields bad s (straceReadClone (s.print rest)) := by
  refine yieldsOpen clean.toScans
    ((((((opensArgs.append [.skip comma]).append (lits ", flags=")).append
    [.upto comma none MAX_STRING]).append (lits ", ")).append [.skip rparen]).append
    (resultFormat d))
    (datedResult rfl fun p free name => by simp [free,name]) ?_
  intro args _
  split
  · rename_i same
    cases same
    exact yieldsItem rfl
  · exact trivial

theorem dup2Yields : Yields bad s (straceReadDup2 (s.print rest)) := by
  refine yieldsOpen clean.toScans
    ((((opensArgs.append [d]).append (lits ", ")).append [d]).append (resultFormat d))
    (datedResult rfl fun p free _ => by simp [free]) ?_
  intro args _
  split
  · rename_i same
    cases same
    exact yieldsItem rfl
  · exact trivial

theorem dup3Yields : Yields bad s (straceReadDup3 (s.print rest)) := by
  refine yieldsOpen clean.toScans
    ((((((opensArgs.append [d]).append (lits ", ")).append [d]).append (lits ", ")).append
    [.upto rparen none MAX_STRING]).append (resultFormat d))
    (datedResult rfl fun p free name => by simp [free,name]) ?_
  intro args _
  split
  · rename_i same
    cases same
    exact yieldsItem rfl
  · exact trivial

theorem llseekYields : Yields bad s (straceReadLlseek (s.print rest)) := by
  refine yieldsOpen clean.toScans
    ((((((((spacedArgs.append [d]).append (lits ", ")).append [i64]).append
    (lits ", [")).append [i64]).append (lits "], ")).append [.upto rparen none MAX_STRING]).append
    (resultFormat i64))
    (datedResult rfl fun p free name => by simp [free,name]) ?_
  intro args _
  split
  · rename_i same
    cases same
    exact yieldsItem rfl
  · exact trivial

theorem lseekYields : Yields bad s (straceReadLseek (s.print rest)) := by
  refine yieldsOpen clean.toScans
    ((((((opensArgs.append [d]).append (lits ", ")).append [i64]).append (lits ", ")).append
    [.upto rparen none MAX_STRING]).append (resultFormat i64))
    (datedResult rfl fun p free name => by simp [free,name]) ?_
  intro args _
  split
  · rename_i same
    cases same
    exact yieldsItem rfl
  · exact trivial

theorem sendfileYields : Yields bad s (straceReadSendfile (s.print rest)) := by
  refine yieldsOpen clean.toScans
    ((((((((opensArgs.append [d]).append (lits ", ")).append [d]).append
    (lits ", [")).append [i64]).append (lits "], ")).append [i64]).append (resultFormat i64))
    (datedResult rfl fun p free _ => by simp [free]) ?_
  intro args _
  split
  · rename_i same
    cases same
    exact yieldsItem rfl
  · refine yieldsOpen clean.toScans
      ((((((opensArgs.append [d]).append (lits ", ")).append [d]).append
      (lits ", NULL, ")).append [i64]).append (resultFormat i64))
      (datedResult rfl fun p free _ => by simp [free]) ?_
    intro args _
    split
    · rename_i same
      cases same
      exact yieldsItem rfl
    · exact trivial
  · exact trivial

theorem accessYields : Yields bad s (straceReadAccess (s.print rest)) := by
  refine yieldsOpen clean.toScans
    (((opensName.append (lits ", ")).append [.upto rparen none MAX_STRING]).append
    (resultFormat d))
    (datedResult rfl fun p free name => by simp [free,name]) ?_
  intro args _
  split
  · rename_i same
    cases same
    exact yieldsName clean.spill fun _ => yieldsItem rfl
  · exact trivial

theorem statYields : Yields bad s (straceReadStat (s.print rest)) := by
  have dated : Dated ([.skip quote,.lit quote,.upto quote (some MAX_STRING) MAX_STRING,
      .lit quote] ++ lits ", " ++ [.skip rparen] ++ lits ")" ++ [.skip eq] ++ lits " = " ++ [d,.skip lt] ++
      lits "<" ++ [.upto gt none MAX_TIME_STRING]) :=
    ⟨_,datedRooms fun p free name => by simp [free,name],.inr (List.append_assoc _ _ _)⟩
  refine yieldsOpen clean.toScans
    ((((((((opensName.append (lits ", ")).append [.skip rparen]).append
    (lits ")")).append [.skip eq]).append (lits " = ")).append [d,.skip lt]).append
    (lits "<")).append [.upto gt none MAX_TIME_STRING]) dated ?_
  intro args _
  split
  · rename_i same
    cases same
    exact yieldsName clean.spill fun _ => yieldsItem rfl
  · exact trivial

theorem socketYields : Yields bad s (readSocketStrace (s.print rest)) := by
  refine yieldsOpen clean.toScans
    ((opensStamp.append [.skip rparen]).append (resultFormat d))
    (datedResult rfl fun p free _ => by simp [free]) ?_
  intro args _
  split
  · rename_i same
    cases same
    exact yieldsItem rfl
  · exact trivial

end Rules

theorem dupPrinted (s : Stamp) (oldFd newFd : Int32) (dur : Bytes) :
    dupLine (Int32.ofInt s.pid) s.time oldFd newFd dur =
      ({ s with gap := 0 } : Stamp).print (dupRest oldFd newFd dur) := by
  have text : ascii " dup(" = blank :: ascii "dup(" := rfl
  have own : signed (s.pid : Int) = Lib.numeral 10 s.pid := signedNat s.pid
  rw [dupLine,int32Small s.pidFits,own,Stamp.print,dupRest,text]
  simp only [Nat.zero_add,List.replicate_one,List.append_assoc,List.cons_append,List.nil_append]
  rfl

theorem timeFits {format : List Directive} (rooms : ∀ p : Option Nat → Prop, p none →
    p (some MAX_TIME_STRING) → Rooms p format) {line : Bytes} {args : List Arg} {text : Bytes}
    (ran : scan format line = .ok args) (member : .text text ∈ args) :
    text.length < MAX_TIME_STRING := by
  have told : sscanf format line = .ok args := by
    rw [scan] at ran
    split at ran
    · rename_i here
      cases ran
      exact here
    · cases ran
  obtain ⟨room,taken,fits⟩ := Lib.textField told member
  obtain ⟨directive,inside,size⟩ := List.mem_map.mp (Lib.fieldRoom taken)
  have most : directive.room.getD 0 ≤ MAX_TIME_STRING :=
    rooms (fun room => room.getD 0 ≤ MAX_TIME_STRING) (by decide) (by decide) directive inside
  rw [size] at most
  exact Nat.lt_of_lt_of_le fits most

section Dispatch
variable {bad : StraceFault → Prop} {s : Stamp} {rest : Bytes}
  (clean : Clean bad rest)
include clean

theorem fcntlYields : Yields bad s (straceReadFcntl (s.print rest)) := by
  rw [straceReadFcntl]
  split
  · exact trivial
  · refine yieldsOpen clean.toScans
      ((((opensArgs.append [d]).append (lits ", F_DUPFD, ")).append [d]).append
      (resultFormat d)) (datedResult rfl fun p free _ => by simp [free]) ?_
    intro args ran
    split
    · rename_i pid time oldFd bound newFd dur same
      cases same
      have fits : dur.length < MAX_TIME_STRING :=
        timeFits (fun p free time => by simp [free,time]) ran (by simp)
      rw [dupPrinted]
      refine dupYields (s := { s with gap := 0 }) ⟨?_,clean.dup _ _ dur fits⟩
      intro c first
      cases first
      rfl
    · exact trivial

theorem readYields (c : OpType) (commas : ShowsData c → Commas bad (s.print rest)) :
    Yields bad s (straceRead c (s.print rest)) := by
  cases c with
  | write =>
    rw [straceRead,straceReadWrite]
    exact dataYields clean (commas (.inl rfl)) _ fun _ _ _ _ => rfl
  | read =>
    rw [straceRead,straceReadRead]
    exact dataYields clean (commas (.inr (.inl rfl))) _ fun _ _ _ _ => rfl
  | pwrite =>
    rw [straceRead,straceReadPwrite]
    exact dataAtYields clean (commas (.inr (.inr (.inl rfl)))) _ fun _ _ _ _ _ => rfl
  | pread =>
    rw [straceRead,straceReadPread]
    exact dataAtYields clean (commas (.inr (.inr (.inr rfl)))) _ fun _ _ _ _ _ => rfl
  | lseek => exact lseekYields clean
  | llseek => exact llseekYields clean
  | «open» => exact openYields clean
  | creat => exact creatYields clean
  | close => exact closeYields clean
  | unlink =>
    rw [straceRead,straceReadUnlink]
    exact nameYields clean _ fun _ _ _ => rfl
  | clone => exact cloneYields clean
  | dup3 => exact dup3Yields clean
  | dup2 => exact dup2Yields clean
  | dup => exact dupYields clean.toScans
  | pipe => exact pipeYields clean
  | mkdir => exact mkdirYields clean
  | rmdir =>
    rw [straceRead,straceReadRmdir]
    exact nameYields clean _ fun _ _ _ => rfl
  | access => exact accessYields clean
  | stat => exact statYields clean
  | socket => exact socketYields clean
  | sendfile => exact sendfileYields clean
  | fcntl => exact fcntlYields clean
  | unknown => exact trivial
  | mmap => exact trivial

end Dispatch

def Brief (s : Bytes) : Prop :=
  ∀ t, lt :: t <:+ s → (t.takeWhile (· != gt)).length < MAX_TIME_STRING

theorem briefSuffix {s t : Bytes} (brief : Brief s) (part : t <:+ s) : Brief t :=
  fun u inside => brief u (inside.trans part)

theorem briefCons {c : UInt8} {s : Bytes}
    (first : c = lt → (s.takeWhile (· != gt)).length < MAX_TIME_STRING) (brief : Brief s) :
    Brief (c :: s) := by
  intro t inside
  rcases List.suffix_cons_iff.mp inside with whole | later
  · obtain ⟨same,rest⟩ := List.cons.inj whole
    exact rest ▸ first same.symm
  · exact brief t later

theorem briefSkip {a s : Bytes} (clean : lt ∉ a) (brief : Brief s) : Brief (a ++ s) := by
  induction a with
  | nil => exact brief
  | cons c a ih =>
    have other : c ≠ lt := fun same => clean (same ▸ List.mem_cons_self)
    exact briefCons (fun same => absurd same other)
      (ih fun member => clean (List.mem_cons_of_mem c member))

theorem briefFree {s : Bytes} (clean : lt ∉ s) : Brief s :=
  fun _ inside => absurd (inside.mem List.mem_cons_self) clean

theorem timeRun (time tail : Bytes) : ((time ++ gt :: tail).takeWhile (· != gt)).length ≤
    time.length := by
  induction time with
  | nil => exact Nat.le_of_eq rfl
  | cons c time ih =>
    rw [List.cons_append]
    rcases eq_or_ne c gt with same | other
    · rw [List.takeWhile_cons_of_neg (by simp [same])]
      exact Nat.zero_le _
    · rw [List.takeWhile_cons_of_pos (by simp [other])]
      exact Nat.succ_le_succ ih

theorem briefTime {time tail : Bytes} (short : time.length < MAX_TIME_STRING)
    (clean : lt ∉ tail) : Brief (time ++ gt :: tail) := by
  induction time with
  | nil => exact briefCons (fun same => by cases same) (briefFree clean)
  | cons c time ih =>
    have less : time.length < MAX_TIME_STRING := Nat.lt_of_succ_lt short
    exact briefCons (fun _ => Nat.lt_of_le_of_lt (timeRun time tail) less) (ih less)

theorem briefEnd {a time tail : Bytes} (front : lt ∉ a) (short : time.length < MAX_TIME_STRING)
    (clean : lt ∉ tail) : Brief (a ++ lt :: (time ++ gt :: tail)) :=
  briefSkip front (briefCons (fun _ => Nat.lt_of_le_of_lt (timeRun time tail) short)
    (briefTime short clean))

theorem tameBrief {s : Bytes} (brief : Brief s) : Tame (· = .overrun) s := by
  intro format fault dated stopped
  obtain ⟨g,rooms,whole⟩ := dated
  cases ran : sscanf format s with
  | ok args =>
    rw [scan,ran] at stopped
    cases stopped
  | error room =>
    have own {format : List Directive}
        (rooms : Rooms (fun room => room = none ∨ room = some MAX_STRING) format)
        (member : some room ∈ format.map Directive.room) : room = MAX_STRING := by
      obtain ⟨directive,inside,size⟩ := List.mem_map.mp member
      rcases rooms directive inside with free | name
      · rw [size] at free
        cases free
      · rw [size] at name
        exact Option.some.inj name
    have same : room = MAX_STRING := by
      rcases whole with plain | ends
      · rw [plain,← List.append_nil g] at ran
        rcases Lib.sscanfBehind ran with taken | behind
        · exact own rooms taken
        · obtain ⟨t,_,never⟩ := behind
          cases never
      · rw [ends] at ran
        rcases Lib.sscanfBehind ran with taken | behind
        · exact own rooms taken
        · obtain ⟨t,part,late⟩ := behind
          have last : durationEnd = [.lit lt,.upto gt none MAX_TIME_STRING] := rfl
          rw [last,sscanf] at late
          split at late
          · rename_i first
            obtain ⟨u,begun⟩ := List.head?_eq_some_iff.mp first
            have short := brief u (begun ▸ part)
            rw [begun,List.tail_cons,sscanf] at late
            split at late
            · cases late
            · split at late
              · rename_i long
                omega
              · cases late
          · cases late
    rw [scan,ran] at stopped
    simp only [if_pos same] at stopped
    exact (Except.error.inj stopped).symm

theorem briefDup (oldFd newFd : Int32) {dur : Bytes} (short : dur.length < MAX_TIME_STRING) :
    Brief (dupRest oldFd newFd dur) := by
  have digit : ∀ c, Lib.isDigit 10 c = true → c ≠ lt := by
    intro c digit same
    rw [same] at digit
    revert digit
    decide
  have number (z : Int) : lt ∉ signed z := fun member =>
    signedBytes (p := (· ≠ lt)) digit (by decide) lt member rfl
  have whole : dupRest oldFd newFd dur = ascii "dup(" ++ signed oldFd.toInt ++ ascii ") = " ++
      signed newFd.toInt ++ [blank] ++ lt :: (dur ++ gt :: []) := by
    have mark : ascii " <" = [blank] ++ [lt] := rfl
    have ends : ascii ">" = [gt] := rfl
    rw [dupRest,mark,ends]
    simp only [List.append_assoc,List.cons_append,List.nil_append]
  rw [whole]
  refine briefEnd ?_ short List.not_mem_nil
  simp only [List.mem_append,not_or]
  exact ⟨⟨⟨⟨by decide,number _⟩,by decide⟩,number _⟩,by decide⟩

theorem readsWell {s : Stamp} {rest : Bytes}
    (next : ∀ c, rest.head? = some c → isSpace c = false) (brief : Brief (s.print rest))
    {c : OpType} (closed : ShowsData c → Closed (s.print rest))
    (fits : ¬ TextOverrun c (s.print rest)) : ∃ found, straceRead c (s.print rest) = .ok found := by
  have part : rest <:+ s.print rest := ⟨s.print [],(printFront s [] rest).symm⟩
  have clean : Clean (· = .overrun) rest :=
    ⟨⟨next,tameBrief (briefSuffix brief part)⟩,rfl,
      fun oldFd newFd _ short => tameBrief (briefDup oldFd newFd short)⟩
  have commas : ShowsData c → Commas (· = .overrun) (s.print rest) := by
    intro shows
    obtain ⟨r,ran,inside⟩ := (insideClosed _).mpr (closed shows)
    constructor
    · intro fault stopped
      rw [ran] at stopped
      cases stopped
    · intro found there
      rw [ran] at there
      exact tameBrief (briefSuffix brief (inside found (Except.ok.inj there)).2)
  have yields := readYields clean c commas
  cases read : straceRead c (s.print rest) with
  | ok found => exact ⟨found,rfl⟩
  | error fault =>
    rw [read] at yields
    have beyond : straceRead c (s.print rest) = .error .overrun := read.trans (congrArg _ yields)
    exact absurd ((textOverrun (s.print rest) c).mp beyond) fits

end IoApps.Strace
