import IoApps.StraceReads
import IoApps.StraceTrace

/-! Calls printed in two parts, against the same calls in one piece. -/
namespace IoApps.Strace
open Lib (Bytes Prog ascii)

def Found.items : Found → List OpItem
  | .item o => [o.item]
  | .failed | .skipped => []

def Found.result : Found → Int
  | .failed => -1
  | .skipped | .item _ => 0

def itemStamp (o : OpItem) : Int32 × Int32Timeval := (o.o.info.pid,o.o.info.start)

def Call.stamp (c : Call) : Int32 × Int32Timeval :=
  (Int32.ofNat c.start.pid,⟨Int32.ofNat c.start.sec,Int32.ofNat c.start.usec⟩)

def wholes (eol : Bytes) (lines : List TraceLine) : List Bytes :=
  (lines.filterMap TraceLine.ends).map fun c => c.print eol

structure Sound (stats : Bool) (eol : Bytes) (l : TraceLine) : Prop where
  proper : Proper l.call
  short : (l.print eol).length < MAX_STRING
  name : stats = true → l.call.name.length < MAX_OPERATION

theorem switchFound {c : OpType} {line : Bytes} {found : Found}
    (read : straceRead c line = .ok found) (st : StraceState) :
    straceSwitch c line st = .ok (found.result,{ st with list := st.list ++ found.items }) := by
  have ran : ofScan (straceRead c line) st = .ok (found,st) := by
    rw [read]
    rfl
  rw [straceSwitch,Prog.bindOf ran]
  cases found with
  | failed => rw [Found.items,List.append_nil]; rfl
  | skipped => rw [Found.items,List.append_nil]; rfl
  | item o => rfl

theorem switchFault {c : OpType} {line : Bytes} {fault : StraceFault}
    (read : straceRead c line = .error fault) (st : StraceState) :
    straceSwitch c line st = .error fault := by
  rw [straceSwitch,Prog.bindRun,read]
  rfl

def Switches (c : Call) (eol : Bytes) (t : StraceState)
    (r : Except StraceFault (Int × StraceState)) : Prop :=
  match straceRead (operationCode c.name) (c.print eol) with
  | .error fault => r = .error fault
  | .ok found => ∃ n, r = .ok (n,{ t with list := t.list ++ found.items })

theorem switchesSelf (c : Call) (eol : Bytes) (t : StraceState) :
    Switches c eol t (straceSwitch (operationCode c.name) (c.print eol) t) := by
  unfold Switches
  cases read : straceRead (operationCode c.name) (c.print eol) with
  | error fault => exact switchFault read t
  | ok found => exact ⟨_,switchFound read t⟩

theorem switchesPassed (c : Call) (eol : Bytes) (t : StraceState) :
    Switches c eol t
      ((straceSwitch (operationCode c.name) (c.print eol) >>= fun _ => pure 0) t) := by
  unfold Switches
  cases read : straceRead (operationCode c.name) (c.print eol) with
  | error fault =>
    change _ = _
    rw [Prog.bindRun,switchFault read t]
  | ok found =>
    refine ⟨0,?_⟩
    rw [Prog.bindOf (switchFound read t)]
    rfl

theorem readStamp {c : Call} (named : Named c.name) {eol : Bytes} {found : Found}
    (read : straceRead (operationCode c.name) (c.print eol) = .ok found) :
    List.Sublist (found.items.map itemStamp) [c.stamp] := by
  have next : ∀ b, (c.name ++ lparen :: (c.text ++ eol)).head? = some b →
      Lib.isSpace b = false := by
    intro b first
    rw [List.head?_append_of_ne_nil _ named.some] at first
    have lead := named.lead
    rw [first] at lead
    have other : stampByte b = false := by simpa using lead
    unfold stampByte at other
    simp only [Bool.or_eq_false_iff] at other
    exact other.1.1.1
  have clean : Clean (fun _ => True) (c.name ++ lparen :: (c.text ++ eol)) :=
    ⟨⟨next,fun _ _ _ _ => trivial⟩,trivial,fun _ _ _ _ _ _ _ _ => trivial⟩
  have yields := readYields (s := c.start) clean (operationCode c.name) fun _ =>
    ⟨fun _ _ => trivial,fun _ _ _ _ _ _ => trivial⟩
  rw [Call.print] at read
  rw [read] at yields
  cases found with
  | failed => exact List.nil_sublist _
  | skipped => exact List.nil_sublist _
  | item o =>
    obtain ⟨pid,time⟩ := yields
    have same : itemStamp o.item = c.stamp := Prod.ext pid time
    rw [Found.items,List.map_singleton,same]

/-- The same operations come of both traces, in the same order; each keeps the PID and the time of
the first part of its call; and no call is pending at the end. -/
structure Joined (stats : Bool) (eol : Bytes) (lines : List TraceLine) (st su : StraceState) :
    Prop where
  same : (processLines stats (lines.map fun l => l.print eol) st).map (fun r => r.2.list) =
    (processLines stats (wholes eol lines) su).map (fun r => r.2.list)
  stamps : ∀ st', processLines stats (lines.map fun l => l.print eol) st = .ok ((),st') →
    ∃ found, st'.list = st.list ++ found ∧
      List.Sublist (found.map itemStamp) ((lines.filterMap TraceLine.ends).map Call.stamp)
  landed : ∀ st', processLines stats (lines.map fun l => l.print eol) st = .ok ((),st') →
    st'.ht.items = []

section Steps
variable {stats : Bool} {eol : Bytes} {l : TraceLine} {lines : List TraceLine}
  {st su t tu : StraceState}

theorem joinedCall {c : Call} (own : l.ends = some c) (named : Named c.name)
    (first : Switches c eol t (straceProcessLine stats (cstr (l.print eol)) st))
    (second : Switches c eol tu (straceProcessLine stats (cstr (c.print eol)) su))
    (kept : t.list = st.list)
    (later : ∀ found : Found, Joined stats eol lines { t with list := t.list ++ found.items }
      { tu with list := tu.list ++ found.items }) : Joined stats eol (l :: lines) st su := by
  have ends : wholes eol (l :: lines) = c.print eol :: wholes eol lines := by
    rw [wholes,List.filterMap_cons,own]
    rfl
  unfold Switches at first second
  cases read : straceRead (operationCode c.name) (c.print eol) with
  | error fault =>
    rw [read] at first second
    have stops : processLines stats ((l :: lines).map fun l => l.print eol) st = .error fault := by
      rw [List.map_cons,processLines,Prog.bindRun,first]
    refine ⟨?_,?_,?_⟩
    · rw [stops,ends,processLines,Prog.bindRun,second]
    · intro st' ran
      rw [stops] at ran
      cases ran
    · intro st' ran
      rw [stops] at ran
      cases ran
  | ok found =>
    rw [read] at first second
    obtain ⟨n,first⟩ := first
    obtain ⟨m,second⟩ := second
    have goes : processLines stats ((l :: lines).map fun l => l.print eol) st =
        processLines stats (lines.map fun l => l.print eol)
          { t with list := t.list ++ found.items } := by
      rw [List.map_cons,processLines,Prog.bindOf first]
    have rest := later found
    refine ⟨?_,?_,?_⟩
    · rw [goes,ends,processLines,Prog.bindOf second]
      exact rest.same
    · intro st' ran
      rw [goes] at ran
      obtain ⟨more,list,stamps⟩ := rest.stamps st' ran
      refine ⟨found.items ++ more,by rw [list,kept,List.append_assoc],?_⟩
      rw [List.filterMap_cons,own,List.map_append,List.map_cons]
      exact (readStamp named read).append stamps
    · intro st' ran
      rw [goes] at ran
      exact rest.landed st' ran

theorem joinedBegun (own : l.ends = none) {n : Int}
    (ran : straceProcessLine stats (cstr (l.print eol)) st = .ok (n,t)) (kept : t.list = st.list)
    (later : Joined stats eol lines t su) : Joined stats eol (l :: lines) st su := by
  have goes : processLines stats ((l :: lines).map fun l => l.print eol) st =
      processLines stats (lines.map fun l => l.print eol) t := by
    rw [List.map_cons,processLines,Prog.bindOf ran]
  have ends : (l :: lines).filterMap TraceLine.ends = lines.filterMap TraceLine.ends := by
    rw [List.filterMap_cons,own]
  refine ⟨?_,?_,?_⟩
  · rw [goes,wholes,ends]
    exact later.same
  · intro st' ran
    rw [goes] at ran
    rw [ends,← kept]
    exact later.stamps st' ran
  · intro st' ran
    rw [goes] at ran
    exact later.landed st' ran

end Steps

theorem callSwitches {stats : Bool} {eol : Bytes} (ends : Eol eol) {c : Call} (proper : Proper c)
    (fits : c.name.length < MAX_STRING) (short : stats = true → c.name.length < MAX_OPERATION)
    {st : StraceState} (tables : Tables st) : ∃ t, SameCalls st t ∧ Tables t ∧
      Switches c eol t (straceProcessLine stats (cstr (c.print eol)) st) := by
  obtain ⟨t,code,kept,chains⟩ := namedCode (callNamed proper.named eol) (namedClean proper.named)
    fits short tables
  refine ⟨t,kept,chains,?_⟩
  rw [cstrClean (callClean ends proper),straceProcessLine,
    processPlain (callUnmarked ends proper) _ stats code]
  exact switchesSelf c eol t

theorem joinedRun {stats : Bool} {eol : Bytes} (ends : Eol eol) {flight : Flight}
    {lines : List TraceLine} (ordered : Ordered flight lines)
    (sound : ∀ l ∈ lines, Sound stats eol l) {st su : StraceState} (holds : InFlight eol flight st)
    (flown : ∀ pid p, flight pid = some p → (p.unfinished eol).length < MAX_STRING)
    (tables : Tables su) (same : st.list = su.list) : Joined stats eol lines st su := by
  induction ordered generalizing st su with
  | done landed =>
    refine ⟨congrArg Except.ok same,?_,?_⟩
    · intro st' ran
      cases ran
      exact ⟨[],(List.append_nil _).symm,List.nil_sublist _⟩
    · intro st' ran
      cases ran
      exact holds.landed landed
  | @whole flight c lines idle next ih =>
    have here := sound (.whole c) List.mem_cons_self
    have proper : Proper c := here.proper
    have fits : c.name.length < MAX_STRING := Nat.lt_of_le_of_lt (nameInside _ _ _) here.short
    obtain ⟨t,kept,chains,first⟩ := callSwitches ends proper fits here.name holds.tables
    obtain ⟨tu,keptU,chainsU,second⟩ := callSwitches ends proper fits here.name tables
    refine joinedCall rfl proper.named first second kept.1 fun found => ?_
    refine ih (fun l member => sound l (List.mem_cons_of_mem _ member)) ?_ flown
      ⟨chainsU.ht,chainsU.stats⟩ ?_
    · exact holds.same kept.2 ⟨chains.ht,chains.stats⟩
    · change t.list ++ _ = tu.list ++ _
      rw [kept.1,keptU.1,same]
  | @unfinished flight p lines idle next ih =>
    have here := sound (.unfinished p) List.mem_cons_self
    have proper : Proper p.call := here.proper
    have fits : p.call.name.length < MAX_STRING :=
      Nat.lt_of_le_of_lt (nameInside _ _ _) here.short
    obtain ⟨t,code,kept,chains⟩ := namedCode (unfinishedText proper.named eol)
      (namedClean proper.named) fits here.name holds.tables
    obtain ⟨ht,ran,begun⟩ := unfinishedBegins proper ends holds idle here.short code kept chains
    rw [← cstrClean (unfinishedClean proper ends)] at ran
    refine joinedBegun rfl ran kept.1 ?_
    refine ih (fun l member => sound l (List.mem_cons_of_mem _ member)) begun ?_ tables
      (kept.1.trans same)
    intro pid q flies
    rcases eq_or_ne pid p.pid with own | other
    · rw [own,Function.update_self] at flies
      exact Option.some.inj flies ▸ here.short
    · rw [Function.update_of_ne other] at flies
      exact flown pid q flies
  | @resumed flight p lines pending next ih =>
    have here := sound (.resumed p) List.mem_cons_self
    have proper : Proper p.call := here.proper
    have begun := flown p.pid p pending
    have fits : p.call.name.length < MAX_STRING := Nat.lt_of_le_of_lt (nameInside _ _ _) begun
    obtain ⟨t,code,kept,chains⟩ := namedCode (resumedText proper.named eol)
      (namedClean proper.named) fits here.name holds.tables
    obtain ⟨ht,left,ran⟩ := resumedLands proper ends holds pending begun here.short code kept chains
    obtain ⟨tu,keptU,chainsU,second⟩ := callSwitches ends proper fits here.name tables
    have first : Switches p.call eol { t with ht }
        (straceProcessLine stats (cstr ((TraceLine.resumed p).print eol)) st) := by
      rw [TraceLine.print,cstrClean (resumedClean proper ends),ran]
      exact switchesPassed p.call eol { t with ht }
    refine joinedCall rfl proper.named first second kept.1 fun found => ?_
    refine ih (fun l member => sound l (List.mem_cons_of_mem _ member)) ?_ ?_
      ⟨chainsU.ht,chainsU.stats⟩ ?_
    · exact left.same rfl ⟨left.tables.ht,left.tables.stats⟩
    · intro pid q flies
      rcases eq_or_ne pid p.pid with own | other
      · rw [own,Function.update_self] at flies
        cases flies
      · rw [Function.update_of_ne other] at flies
        exact flown pid q flies
    · change t.list ++ _ = tu.list ++ _
      rw [kept.1,keptU.1,same]

/-- Whatever the interleaving, split calls are recorded as those in one piece. -/
theorem splitsJoined {stats : Bool} {eol : Bytes} (ends : Eol eol) {calls : Int32 → List Printed}
    {lines : List TraceLine} (mixed : Interleaved calls lines)
    (sound : ∀ l ∈ lines, Sound stats eol l) (list : List OpItem) :
    Joined stats eol lines (straceInit list) (straceInit list) :=
  joinedRun ends (interleavedOrdered mixed) sound (inFlightInit eol list)
    (fun _ _ flies => by cases flies) (pendingInit list).tables rfl

def readStart : Stamp := ⟨9,0,10,5,by decide,by decide,by decide⟩
def readAgain : Stamp := ⟨9,0,12,0,by decide,by decide,by decide⟩
def closeStart : Stamp := ⟨8,0,11,0,by decide,by decide,by decide⟩

def cutRead : Split :=
  ⟨⟨readStart,ascii "read",ascii "3, \"\"..., 9) = 4 <2.000000>"⟩,3,readAgain,rfl⟩
def wholeClose : Call := ⟨closeStart,ascii "close",ascii "5) = 0 <0.000001>"⟩

def twoProcesses (pid : Int32) : List Printed :=
  if pid = 9 then [.twice cutRead] else if pid = 8 then [.once wholeClose] else []

theorem twoInterleaved : Interleaved twoProcesses
    [.unfinished cutRead,.whole wholeClose,.resumed cutRead] := by
  have read : TraceLine.pid (.unfinished cutRead) = 9 ∧ TraceLine.pid (.resumed cutRead) = 9 := by
    decide
  have close : TraceLine.pid (.whole wholeClose) = 8 := by decide
  intro pid
  unfold twoProcesses
  split
  · rename_i same
    subst same
    rfl
  · split
    · rename_i same
      subst same
      rfl
    · rename_i nine eight
      simp [read,close,Ne.symm nine,Ne.symm eight]

theorem splitsJoinedTwo : Joined true [newline]
    [.unfinished cutRead,.whole wholeClose,.resumed cutRead] (straceInit []) (straceInit []) := by
  have read : Proper cutRead.call :=
    ⟨⟨by decide +kernel,by decide +kernel,by decide +kernel⟩,by decide +kernel,by decide +kernel⟩
  have close : Proper wholeClose :=
    ⟨⟨by decide +kernel,by decide +kernel,by decide +kernel⟩,by decide +kernel,by decide +kernel⟩
  refine splitsJoined (.inr rfl) twoInterleaved ?_ []
  intro l member
  simp only [List.mem_cons,List.not_mem_nil,or_false] at member
  rcases member with first | second | third
  · subst first
    exact ⟨read,by decide +kernel,fun _ => by decide +kernel⟩
  · subst second
    exact ⟨close,by decide +kernel,fun _ => by decide +kernel⟩
  · subst third
    exact ⟨read,by decide +kernel,fun _ => by decide +kernel⟩

example : (processLines true ([TraceLine.unfinished cutRead,.whole wholeClose,.resumed cutRead].map
    fun l => l.print [newline]) (straceInit [])).map (fun r => r.2.list.map itemStamp) =
    .ok [(8,⟨11,0⟩),(9,⟨10,5⟩)] := by decide +kernel

end IoApps.Strace
