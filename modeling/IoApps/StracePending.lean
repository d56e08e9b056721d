import IoApps.StraceProcess

/-! The pending calls: what an unfinished and a resumed line do to their table. -/
namespace IoApps.Strace
open Lib (Bytes Prog ascii strstr sscanf)

def linePid (line : Bytes) : Option Int32 :=
  match sscanf [d] line with
  | .ok [.num n] => some (Int32.ofInt n)
  | _ => none

theorem readPidRun {line : Bytes} {pid : Int32} (told : linePid line = some pid)
    (st : StraceState) : readPid line st = .ok (pid,st) := by
  unfold linePid at told
  split at told
  · rename_i n ran
    cases told
    have read : ofScan (scan [d] line) st = .ok ([.num n],st) := by
      rw [scan,ran]
      rfl
    rw [readPid,Prog.bindOf read]
    rfl
  · cases told

theorem pidPrinted (s : Stamp) (rest : Bytes) :
    linePid (s.print rest) = some (Int32.ofNat s.pid) := by
  rw [linePid,(pidReads s rest).done]
  exact congrArg some Int32.ofInt_eq_ofNat

theorem printFront (s : Stamp) (front rest : Bytes) :
    s.print (front ++ rest) = s.print front ++ rest := by
  simp only [Stamp.print,List.append_assoc,List.cons_append]

theorem callPatched (s : Stamp) {call text : Bytes} (plain : Unmarked call) {n : Nat}
    (found : strstr resumedWord (s.print (call ++ lparen :: text)) = some (n + 1)) :
    ∃ text', (s.print (call ++ lparen :: text)).set n lparen =
      s.print (call ++ lparen :: text') := by
  have front : ¬ resumedWord <:+: s.print call := ((stampUnmarked s call).mpr plain).2
  rw [printFront,Lib.strstrBehind (by decide) front] at found
  obtain ⟨i,inside,place⟩ := Option.map_eq_some_iff.mp found
  have here : n = (s.print call).length + i := by omega
  rw [printFront,here,List.set_append_right _ _ (by omega),Nat.add_sub_cancel_left]
  cases i with
  | zero => exact ⟨text,by rw [List.set_cons_zero,printFront]⟩
  | succ i => exact ⟨text.set i lparen,by rw [List.set_cons_succ,printFront]⟩

section Calls
variable {line : Bytes} {pid : Int32} (told : linePid line = some pid) {st : StraceState}
include told

theorem unfinishedKept {e : Isyscall} (found : st.ht.find htOpsIsyscall pid = some (some e)) :
    straceReadUnfinished line st = .ok ((),st) := by
  rw [straceReadUnfinished,Prog.bindOf (readPidRun told st),Prog.bindOf (Prog.getRun st),
    Prog.bindOf (by rw [found]; rfl)]
  rfl

theorem unfinishedStored (found : st.ht.find htOpsIsyscall pid = some none) :
    ∃ ht, st.ht.insert htOpsIsyscall pid ⟨pid,line.take MAX_STRING⟩ = some ht ∧
      straceReadUnfinished line st = .ok ((),{ st with ht }) := by
  obtain ⟨c,hashed,_⟩ := Option.map_eq_some_iff.mp found
  obtain ⟨ht,inserted⟩ : ∃ ht, st.ht.insert htOpsIsyscall pid ⟨pid,line.take MAX_STRING⟩ =
      some ht := ⟨_,by rw [HashTable.insert,hashed,Option.map_some]⟩
  refine ⟨ht,inserted,?_⟩
  rw [straceReadUnfinished,Prog.bindOf (readPidRun told st),Prog.bindOf (Prog.getRun st),
    Prog.bindOf (by rw [found]; rfl)]
  simp only
  rw [Prog.bindOf (by rw [inserted]; rfl)]
  rfl

theorem resumedNone (found : st.ht.find htOpsIsyscall pid = some none)
    (process : Bytes → StraceProg Int) : straceReadResumed process line st = .ok ((),st) := by
  rw [straceReadResumed,Prog.bindOf (readPidRun told st),Prog.bindOf (Prog.getRun st),
    Prog.bindOf (by rw [found]; rfl)]
  rfl

variable {e : Isyscall} (found : st.ht.find htOpsIsyscall pid = some (some e))
include found

theorem resumedLong (long : MAX_STRING ≤ e.line.length) (process : Bytes → StraceProg Int) :
    straceReadResumed process line st = .error .beyond := by
  rw [straceReadResumed,Prog.bindOf (readPidRun told st),Prog.bindOf (Prog.getRun st),
    Prog.bindOf (by rw [found]; rfl)]
  simp only [if_pos long]
  rfl

variable (short : e.line.length < MAX_STRING)
include short

theorem resumedWhole (whole : strstr unfinishedMark e.line = none)
    (process : Bytes → StraceProg Int) : straceReadResumed process line st = .ok ((),st) := by
  rw [straceReadResumed,Prog.bindOf (readPidRun told st),Prog.bindOf (Prog.getRun st),
    Prog.bindOf (by rw [found]; rfl)]
  simp only [if_neg (Nat.not_le.mpr short),whole]
  rfl

variable {s : Nat} (cut : strstr unfinishedMark e.line = some s)
include cut

theorem resumedCut (lost : strstr resumedMark line = none) (process : Bytes → StraceProg Int) :
    ∃ ht, st.ht.modify htOpsIsyscall pid (fun item => { item with line := item.line.take s }) =
      some ht ∧ straceReadResumed process line st = .ok ((),{ st with ht }) := by
  obtain ⟨c,hashed,_⟩ := HashTable.findSome found
  obtain ⟨ht,modified⟩ : ∃ ht, st.ht.modify htOpsIsyscall pid
      (fun item => { item with line := item.line.take s }) = some ht :=
    ⟨_,by rw [HashTable.modify,hashed,Option.map_some]⟩
  refine ⟨ht,modified,?_⟩
  rw [straceReadResumed,Prog.bindOf (readPidRun told st),Prog.bindOf (Prog.getRun st),
    Prog.bindOf (by rw [found]; rfl)]
  simp only [if_neg (Nat.not_le.mpr short),cut]
  rw [Prog.bindOf (by rw [modified]; rfl)]
  simp only [lost]
  rfl

def resumedRest (line : Bytes) (r : Nat) : Bytes :=
  (line.drop (r + resumedMark.length)).take (2 * MAX_STRING)

theorem resumedFull {r : Nat} (here : strstr resumedMark line = some r)
    (full : 2 * MAX_STRING < s + (resumedRest line r).length) (process : Bytes → StraceProg Int) :
    straceReadResumed process line st = .error .mergeOverrun := by
  obtain ⟨c,hashed,_⟩ := HashTable.findSome found
  rw [straceReadResumed,Prog.bindOf (readPidRun told st),Prog.bindOf (Prog.getRun st),
    Prog.bindOf (by rw [found]; rfl)]
  simp only [if_neg (Nat.not_le.mpr short),cut]
  rw [Prog.bindOf (by rw [HashTable.modify,hashed]; rfl)]
  unfold resumedRest at full
  simp only [here,if_pos full]
  rfl

theorem resumedMerge {r : Nat} (here : strstr resumedMark line = some r)
    (fits : ¬ 2 * MAX_STRING < s + (resumedRest line r).length) :
    ∃ cut ht, st.ht.modify htOpsIsyscall pid (fun item =>
        { item with line := item.line.take s }) = some cut ∧
      cut.remove htOpsIsyscall pid = some ht ∧
      ∀ process : Bytes → StraceProg Int, straceReadResumed process line st =
        (process (e.line.take s ++ resumedRest line r) >>= fun _ => pure ()) { st with ht } := by
  obtain ⟨c,hashed,_⟩ := HashTable.findSome found
  obtain ⟨cutTable,modified⟩ : ∃ ht, st.ht.modify htOpsIsyscall pid
      (fun item => { item with line := item.line.take s }) = some ht :=
    ⟨_,by rw [HashTable.modify,hashed,Option.map_some]⟩
  have again : cutTable.chain htOpsIsyscall pid = some c := by
    rw [HashTable.modify,hashed,Option.map_some] at modified
    rw [← Option.some.inj modified]
    exact hashed
  obtain ⟨ht,removed⟩ : ∃ ht, cutTable.remove htOpsIsyscall pid = some ht :=
    ⟨_,by rw [HashTable.remove,again,Option.map_some]⟩
  refine ⟨cutTable,ht,modified,removed,?_⟩
  intro process
  rw [straceReadResumed,Prog.bindOf (readPidRun told st),Prog.bindOf (Prog.getRun st),
    Prog.bindOf (by rw [found]; rfl)]
  simp only [if_neg (Nat.not_le.mpr short),cut]
  rw [Prog.bindOf (by rw [modified]; rfl)]
  unfold resumedRest at fits ⊢
  simp only [here,if_neg fits]
  rw [Prog.bindOf (by rw [Prog.modifyRun]),Prog.bindOf (by rw [removed]; rfl),
    Prog.bindOf (by rw [Prog.modifyRun])]

end Calls

theorem readPidOk {line : Bytes} {pid : Int32} {st st' : StraceState}
    (ran : readPid line st = .ok (pid,st')) : linePid line = some pid ∧ st' = st := by
  obtain ⟨args,told⟩ := Lib.sscanfFree (f := [d]) (by decide) line
  have read : ofScan (scan [d] line) st = .ok (args,st) := by
    rw [scan,told]
    rfl
  rw [readPid,Prog.bindOf read] at ran
  split at ran
  · cases ran
    exact ⟨by rw [linePid,told],rfl⟩
  · cases ran

theorem foundCut {ht cut : HashTable Isyscall} {pid : Int32} {e : Isyscall} {s : Nat}
    (found : ht.find htOpsIsyscall pid = some (some e))
    (modified : ht.modify htOpsIsyscall pid (fun item =>
      { item with line := item.line.take s }) = some cut) :
    cut.find htOpsIsyscall pid = some (some { e with line := e.line.take s }) := by
  have same : ∀ x : Isyscall, htOpsIsyscall.compare pid { x with line := x.line.take s } =
      htOpsIsyscall.compare pid x := fun _ => rfl
  rw [HashTable.findModify same modified,found]
  rfl

theorem statsKeeps {operation : CName} {st st' : StraceState}
    (ran : statsAddOp operation st = .ok ((),st')) :
    SameCalls st st' ∧ st'.stats.entries = st.stats.entries := by
  rw [statsAddOp,Prog.bindOf (Prog.getRun st)] at ran
  cases search : st.stats.find htOpsStat operation with
  | none =>
    rw [search] at ran
    cases ran
  | some here =>
    rw [Prog.bindOf (by rw [search]; rfl)] at ran
    cases here with
    | none =>
      simp only at ran
      split at ran
      · cases ran
      · obtain ⟨stats,t,inserted,last⟩ := Prog.bindOk.mp ran
        cases last
        cases added : st.stats.insert htOpsStat operation ⟨operation,1⟩ with
        | none =>
          rw [added] at inserted
          cases inserted
        | some table =>
          rw [added] at inserted
          cases inserted
          exact ⟨⟨rfl,rfl⟩,HashTable.insertEntries added⟩
    | some item =>
      simp only at ran
      obtain ⟨stats,t,modified,last⟩ := Prog.bindOk.mp ran
      cases last
      cases counted : st.stats.modify htOpsStat operation
          (fun item => { item with count := item.count + 1 }) with
      | none =>
        rw [counted] at modified
        cases modified
      | some table =>
        rw [counted] at modified
        cases modified
        exact ⟨⟨rfl,rfl⟩,HashTable.modifyEntries counted⟩

theorem codeSplit {stats : Bool} {line : Bytes} {c : OpType} {st st' : StraceState}
    (ran : straceGetOperationCode stats line st = .ok (c,st')) :
    ∃ operation, toName (operationText line) = .ok operation ∧
      c = operationCode operation.bytes ∧
      (st' = st ∨ stats = true ∧ statsAddOp operation st = .ok ((),st')) := by
  cases named : toName (operationText line) with
  | error fault =>
    have unnamed : ofScan (toName (operationText line)) st = .error fault := by
      rw [named]
      rfl
    rw [straceGetOperationCode,straceGetOperation,Prog.bindRun,Prog.bindRun,unnamed] at ran
    cases ran
  | ok operation =>
    rcases em (stats = true ∧ Timed line) with both | plain
    · obtain ⟨on,timed⟩ := both
      subst on
      rw [codeCounted named timed] at ran
      obtain ⟨_,t,counted,last⟩ := Prog.bindOk.mp ran
      cases last
      exact ⟨operation,rfl,rfl,.inr ⟨rfl,counted⟩⟩
    · have whole : straceGetOperationCode stats line st =
          .ok (operationCode operation.bytes,st) :=
        codeUncounted named fun on timed => plain ⟨on,timed⟩
      rw [ran] at whole
      cases whole
      exact ⟨operation,rfl,rfl,.inl rfl⟩

theorem codeKeeps {stats : Bool} {line : Bytes} {c : OpType} {st st' : StraceState}
    (ran : straceGetOperationCode stats line st = .ok (c,st')) :
    SameCalls st st' ∧ st'.stats.entries = st.stats.entries := by
  obtain ⟨operation,_,_,same | counted⟩ := codeSplit ran
  · rw [same]
    exact ⟨⟨rfl,rfl⟩,rfl⟩
  · exact statsKeeps counted.2

theorem resumedShrinks {process : Bytes → StraceProg Int} {line : Bytes} {st st' : StraceState}
    (shrinks : ∀ line st r st', process line st = .ok (r,st') → st'.list ≠ st.list →
      st'.ht.items.length ≤ st.ht.items.length)
    (ran : straceReadResumed process line st = .ok ((),st')) (grown : st'.list ≠ st.list) :
    st'.ht.items.length < st.ht.items.length := by
  have whole := ran
  rw [straceReadResumed] at ran
  obtain ⟨pid,t,read,rest⟩ := Prog.bindOk.mp ran
  obtain ⟨told,same⟩ := readPidOk read
  subst same
  rw [Prog.bindOf (Prog.getRun t)] at rest
  cases search : t.ht.find htOpsIsyscall pid with
  | none =>
    rw [search] at rest
    cases rest
  | some here =>
    cases here with
    | none =>
      rw [resumedNone told search] at whole
      cases whole
      exact absurd rfl grown
    | some e =>
      rcases Nat.lt_or_ge e.line.length MAX_STRING with short | long
      · cases cut : strstr unfinishedMark e.line with
        | none =>
          rw [resumedWhole told search short cut] at whole
          cases whole
          exact absurd rfl grown
        | some s =>
          cases here : strstr resumedMark line with
          | none =>
            obtain ⟨ht,_,same⟩ := resumedCut told search short cut here process
            rw [same] at whole
            cases whole
            exact absurd rfl grown
          | some r =>
            rcases em (2 * MAX_STRING < s + (resumedRest line r).length) with full | fits
            · rw [resumedFull told search short cut here full] at whole
              cases whole
            · obtain ⟨cutTable,ht,modified,removed,merge⟩ :=
                resumedMerge told search short cut here fits
              rw [merge] at whole
              obtain ⟨n,t',processed,last⟩ := Prog.bindOk.mp whole
              cases last
              have less := shrinks _ _ n _ processed grown
              have one := (HashTable.removeItems (foundCut search modified) removed).length_eq
              rw [List.length_cons,HashTable.modifyLength modified] at one
              have fewer : ht.items.length < t.ht.items.length := by omega
              exact Nat.lt_of_le_of_lt less fewer
      · rw [resumedLong told search long] at whole
        cases whole

theorem unfinishedKeeps {line : Bytes} {st st' : StraceState}
    (ran : straceReadUnfinished line st = .ok ((),st')) : st'.list = st.list := by
  rw [straceReadUnfinished] at ran
  obtain ⟨pid,t,read,rest⟩ := Prog.bindOk.mp ran
  obtain ⟨told,same⟩ := readPidOk read
  subst same
  cases search : t.ht.find htOpsIsyscall pid with
  | none =>
    rw [Prog.bindOf (Prog.getRun t),search] at rest
    cases rest
  | some here =>
    cases here with
    | none =>
      obtain ⟨ht,_,stored⟩ := unfinishedStored told search
      rw [straceReadUnfinished] at stored
      rw [stored] at ran
      cases ran
      rfl
    | some e =>
      have kept := unfinishedKept told search
      rw [straceReadUnfinished] at kept
      rw [kept] at ran
      cases ran
      rfl

section Marked
variable {line : Bytes} {st st' : StraceState} {c : OpType} (fuel : Nat) {stats : Bool}
  (code : straceGetOperationCode stats line st = .ok (c,st'))
include code

theorem processUnfinished (marked : unfinishedWord <:+: line) (known : c ≠ .unknown) :
    straceProcess (fuel + 1) stats line st =
      (straceReadUnfinished line >>= fun _ => pure 0) st' := by
  rw [straceProcess,Prog.bindOf code,if_pos ⟨Lib.strstrInfix.mpr marked,known⟩]

section Resumed
variable (plain : unfinishedWord <:+: line → c = .unknown) {s : Nat}
  (resumed : strstr resumedWord line = some (s + 1)) {again : OpType}
  (told : straceGetOperationCode false (line.set s lparen) st' = .ok (again,st'))
include plain resumed told

theorem processResumed (known : again ≠ .unknown) : straceProcess (fuel + 1) stats line st =
    (straceReadResumed (straceProcess fuel false) (line.set s lparen) >>= fun _ => pure 0) st' := by
  have other : ¬ ((strstr unfinishedWord line).isSome ∧ c ≠ .unknown) := fun both =>
    both.2 (plain (Lib.strstrInfix.mp both.1))
  unfold unfinishedWord at other
  unfold resumedWord at resumed
  rw [straceProcess,Prog.bindOf code,if_neg other,resumed]
  simp only
  rw [Prog.bindOf told,if_pos known]

theorem processForeign (foreign : again = .unknown) :
    straceProcess (fuel + 1) stats line st = .ok (0,st') := by
  have other : ¬ ((strstr unfinishedWord line).isSome ∧ c ≠ .unknown) := fun both =>
    both.2 (plain (Lib.strstrInfix.mp both.1))
  unfold unfinishedWord at other
  unfold resumedWord at resumed
  rw [straceProcess,Prog.bindOf code,if_neg other,resumed]
  simp only
  rw [Prog.bindOf told,if_neg (not_not.mpr foreign)]
  rfl

end Resumed

theorem processSwitch (plain : unfinishedWord <:+: line → c = .unknown)
    (resumed : strstr resumedWord line = none ∨ strstr resumedWord line = some 0) :
    straceProcess (fuel + 1) stats line st = straceSwitch c line st' := by
  have other : ¬ ((strstr unfinishedWord line).isSome ∧ c ≠ .unknown) := fun both =>
    both.2 (plain (Lib.strstrInfix.mp both.1))
  unfold unfinishedWord at other
  unfold resumedWord at resumed
  rw [straceProcess,Prog.bindOf code,if_neg other]
  rcases resumed with absent | front
  · rw [absent]
  · rw [front]

end Marked

theorem switchKeeps {c : OpType} {line : Bytes} {st st' : StraceState} {r : Int}
    (ran : straceSwitch c line st = .ok (r,st')) : st'.ht = st.ht := by
  rw [straceSwitch] at ran
  cases read : straceRead c line with
  | error fault =>
    rw [read] at ran
    cases ran
  | ok found =>
    have first : ofScan (straceRead c line) st = .ok (found,st) := by
      rw [read]
      rfl
    rw [Prog.bindOf first] at ran
    cases found with
    | failed =>
      cases ran
      rfl
    | skipped =>
      cases ran
      rfl
    | item o =>
      cases ran
      rfl

theorem switchStats {c : OpType} {line : Bytes} {st st' : StraceState} {r : Int}
    (ran : straceSwitch c line st = .ok (r,st')) : st'.stats = st.stats := by
  rw [straceSwitch] at ran
  obtain ⟨found,t,read,rest⟩ := Prog.bindOk.mp ran
  have same : t = st := by
    cases told : straceRead c line with
    | error fault =>
      rw [told] at read
      cases read
    | ok other =>
      rw [told] at read
      cases read
      rfl
  subst same
  cases found with
  | failed =>
    cases rest
    rfl
  | skipped =>
    cases rest
    rfl
  | item o =>
    cases rest
    rfl

theorem codeOff {line : Bytes} {c : OpType} {st st' : StraceState}
    (ran : straceGetOperationCode false line st = .ok (c,st')) : st' = st := by
  obtain ⟨operation,_,_,same | counted⟩ := codeSplit ran
  · exact same
  · exact absurd counted.1 (by decide)

theorem resumedLess (fuel : Nat)
    (shrinks : ∀ stats line st r st', straceProcess fuel stats line st = .ok (r,st') →
      st'.list ≠ st.list → st'.ht.items.length ≤ st.ht.items.length) {stats : Bool} {line : Bytes}
    {st t st' : StraceState} {c : OpType} {r : Int}
    (code : straceGetOperationCode stats line st = .ok (c,t))
    (plain : unfinishedWord <:+: line → c = .unknown) {s : Nat}
    (occurs : strstr resumedWord line = some (s + 1))
    (ran : straceProcess (fuel + 1) stats line st = .ok (r,st')) (grown : st'.list ≠ t.list) :
    st'.ht.items.length < t.ht.items.length := by
  have whole := ran
  have other : ¬ ((strstr unfinishedWord line).isSome ∧ c ≠ .unknown) := fun both =>
    both.2 (plain (Lib.strstrInfix.mp both.1))
  unfold unfinishedWord at other
  have found := occurs
  unfold resumedWord at found
  rw [straceProcess,Prog.bindOf code,if_neg other,found] at ran
  simp only at ran
  obtain ⟨again,t',told,_⟩ := Prog.bindOk.mp ran
  have still := codeOff told
  subst still
  rcases eq_or_ne again .unknown with foreign | known
  · rw [processForeign fuel code plain occurs told foreign] at whole
    cases whole
    exact absurd rfl grown
  · rw [processResumed fuel code plain occurs told known] at whole
    obtain ⟨_,t,resumed,last⟩ := Prog.bindOk.mp whole
    cases last
    exact resumedShrinks (shrinks false) resumed grown

theorem processShrinks (fuel : Nat) (stats : Bool) (line : Bytes) (st : StraceState) (r : Int)
    (st' : StraceState) (ran : straceProcess fuel stats line st = .ok (r,st'))
    (grown : st'.list ≠ st.list) : st'.ht.items.length ≤ st.ht.items.length := by
  induction fuel generalizing stats line st r st' with
  | zero => cases ran
  | succ fuel ih =>
    have whole := ran
    rw [straceProcess] at ran
    obtain ⟨c,t,code,_⟩ := Prog.bindOk.mp ran
    have same := (codeKeeps code).1
    rcases em (unfinishedWord <:+: line ∧ c ≠ .unknown) with both | other
    · rw [processUnfinished fuel code both.1 both.2] at whole
      obtain ⟨_,t',stored,last⟩ := Prog.bindOk.mp whole
      cases last
      exact absurd ((unfinishedKeeps stored).trans same.1) grown
    · have plain : unfinishedWord <:+: line → c = .unknown := fun marked =>
        not_not.mp fun known => other ⟨marked,known⟩
      cases occurs : strstr resumedWord line with
      | none =>
        rw [processSwitch fuel code plain (.inl occurs)] at whole
        exact (congrArg (fun h => h.items.length) ((switchKeeps whole).trans same.2)).le
      | some n =>
        cases n with
        | zero =>
          rw [processSwitch fuel code plain (.inr occurs)] at whole
          exact (congrArg (fun h => h.items.length) ((switchKeeps whole).trans same.2)).le
        | succ s =>
          have less := resumedLess fuel ih code plain occurs whole
            (fun kept => grown (kept.trans same.1))
          rw [same.2] at less
          exact Nat.le_of_lt less

end IoApps.Strace
