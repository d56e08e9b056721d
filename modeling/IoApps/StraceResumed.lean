import IoApps.StracePending
import IoApps.StraceChunks

/-! When a resumed line leaves nothing of its call behind. -/
namespace IoApps.Strace
open Lib (Bytes Prog ascii strstr isSpace isDigit readNumber)

structure KnownName (name : Bytes) : Prop where
  callable : Callable name
  unmarked : Unmarked name
  lead : ∀ c ∈ name.head?, isDigit 10 c = false ∧ isSpace c = false ∧ c ≠ 45 ∧ c ≠ 43 ∧
    stampByte c = false
  resumed : ¬ name <+: resumedWord ∧ ¬ resumedWord <+: name

theorem knownName {name : Bytes} (known : operationCode name ≠ .unknown) : KnownName name := by
  have all : ∀ e ∈ operations, Callable e.1 ∧ Unmarked e.1 ∧ (∀ c ∈ e.1.head?,
      isDigit 10 c = false ∧ isSpace c = false ∧ c ≠ 45 ∧ c ≠ 43 ∧ stampByte c = false) ∧
      ¬ e.1 <+: resumedWord ∧ ¬ resumedWord <+: e.1 := by
    decide +kernel
  cases found : operations.find? (·.1 == name) with
  | none =>
    rw [operationCode,readFlag,found] at known
    exact absurd rfl known
  | some e =>
    have same : e.1 = name := by simpa using List.find?_some found
    obtain ⟨callable,unmarked,lead,resumed⟩ := all e (List.mem_of_find?_eq_some found)
    exact same ▸ ⟨callable,unmarked,lead,resumed⟩

def stopByte (c : UInt8) : Bool := c != lparen && c != blank

theorem textBehind {front : Bytes} (stamp : ∀ b ∈ front, stampByte b = true) {s : Bytes}
    (next : ∀ c, s.head? = some c → stampByte c = false) :
    operationText (front ++ s) = s.takeWhile stopByte := by
  have still : (front ++ s).dropWhile stampByte = s := by
    rw [List.dropWhile_append_of_pos stamp]
    cases s with
    | nil => rfl
    | cons c s => exact List.dropWhile_cons_of_neg (by simp [next c rfl])
  rw [operationText,still]
  rfl

theorem pidBehind {c : UInt8} (digit : isDigit 10 c = false) (space : isSpace c = false)
    (sign : c ≠ 45 ∧ c ≠ 43) (front rest : Bytes) :
    linePid (front ++ c :: rest) = linePid front := by
  have value := Lib.readNumberFront digit space sign front rest
  have reads (s : Bytes) : linePid s = (readNumber .decimal s).map (fun r => Int32.ofInt r.1) := by
    unfold linePid d
    rw [Lib.sscanf]
    cases readNumber .decimal s with
    | none => rfl
    | some r => rfl
  have mapped := congrArg (Option.map Int32.ofInt) value
  rw [Option.map_map,Option.map_map] at mapped
  rw [reads,reads]
  exact mapped

structure CallLine (line front call : Bytes) : Prop where
  whole : line = front ++ call
  stamp : ∀ b ∈ front, stampByte b = true
  known : operationCode (call.takeWhile stopByte) ≠ .unknown

theorem CallLine.first {line front call : Bytes} (shape : CallLine line front call) :
    ∃ c more, call = c :: more ∧ isDigit 10 c = false ∧ isSpace c = false ∧ (c ≠ 45 ∧ c ≠ 43) ∧
      stampByte c = false := by
  have name := knownName shape.known
  cases call with
  | nil => exact absurd rfl name.callable.some
  | cons c more =>
    have some : (List.takeWhile stopByte (c :: more)).head? = .some c := by
      cases stops : stopByte c with
      | true => rw [List.takeWhile_cons_of_pos stops]; rfl
      | false =>
        refine absurd ?_ name.callable.some
        exact List.takeWhile_cons_of_neg (by simp [stops])
    obtain ⟨digit,space,minus,plus,stamp⟩ := name.lead c some
    exact ⟨c,more,rfl,digit,space,⟨minus,plus⟩,stamp⟩

theorem CallLine.text {line front call : Bytes} (shape : CallLine line front call) :
    operationText line = call.takeWhile stopByte := by
  obtain ⟨c,more,same,_,_,_,stamp⟩ := shape.first
  rw [shape.whole]
  exact textBehind shape.stamp fun b first => by
    rw [same] at first
    exact Option.some.inj first ▸ stamp

theorem CallLine.pid {line front call : Bytes} (shape : CallLine line front call) :
    linePid line = linePid front := by
  obtain ⟨c,more,same,digit,space,sign,_⟩ := shape.first
  rw [shape.whole,same]
  exact pidBehind digit space sign front more

theorem stopsAt {s rest : Bytes} {c : UInt8} (stop : stopByte c = false) :
    (s ++ c :: rest).takeWhile stopByte = s.takeWhile stopByte := by
  rw [List.takeWhile_append,List.takeWhile_cons_of_neg (by simp [stop]),List.append_nil]
  split
  · rename_i whole
    exact ((List.takeWhile_prefix stopByte).eq_of_length whole).symm
  · rfl

theorem cutLine {line a t : Bytes} (known : operationCode (operationText line) ≠ .unknown)
    (cut : line = a ++ (unfinishedMark ++ t)) :
    CallLine a (a.takeWhile stampByte) (a.dropWhile stampByte) ∧ linePid a = linePid line := by
  have parts : a.takeWhile stampByte ++ a.dropWhile stampByte = a :=
    List.takeWhile_append_dropWhile
  cases begun : a.dropWhile stampByte with
  | nil =>
    have word : operationText line = ascii "unfinished" := by
      have rest : line.dropWhile stampByte = (unfinishedMark ++ t).dropWhile stampByte := by
        rw [cut,List.dropWhile_append,begun]
        rfl
      rw [operationText,rest]
      rfl
    rw [word] at known
    exact absurd (by decide +kernel) known
  | cons c more =>
    have behind : line.dropWhile stampByte = c :: more ++ (unfinishedMark ++ t) := by
      rw [cut,List.dropWhile_append,begun]
      rfl
    have name : operationText line = (c :: more).takeWhile stopByte := by
      have mark : unfinishedMark ++ t = blank :: (ascii "<unfinished ...>" ++ t) := rfl
      rw [operationText,behind,mark]
      exact stopsAt rfl
    have own : CallLine a (a.takeWhile stampByte) (c :: more) :=
      ⟨by rw [← begun,parts],fun _ member => List.mem_takeWhile_imp member,name ▸ known⟩
    have whole : CallLine line (a.takeWhile stampByte) (c :: more ++ (unfinishedMark ++ t)) := by
      have text : line = a.takeWhile stampByte ++ (c :: more ++ (unfinishedMark ++ t)) := by
        rw [cut,← List.append_assoc (a.takeWhile stampByte)]
        exact congrArg (· ++ (unfinishedMark ++ t)) own.whole
      refine ⟨text,own.stamp,?_⟩
      rw [← behind]
      exact known
    exact ⟨own,own.pid.trans whole.pid.symm⟩

theorem CallLine.extend {a front call : Bytes} (shape : CallLine a front call) (rest : Bytes) :
    linePid (a ++ rest) = linePid a := by
  obtain ⟨c,more,same,digit,space,sign,_⟩ := shape.first
  rw [shape.pid,shape.whole,same,List.append_assoc,List.cons_append]
  exact pidBehind digit space sign front _

theorem stampLetter {front : Bytes} (stamp : ∀ b ∈ front, stampByte b = true) {c : UInt8}
    (letter : stampByte c = false) : c ∉ front := fun member =>
  absurd (stamp c member) (by simp [letter])

theorem CallLine.resumed {a front call : Bytes} (shape : CallLine a front call) {rest : Bytes}
    {n : Nat} (found : strstr resumedWord (a ++ rest) = some n) : front.length < n := by
  have text := Lib.strstrFound found
  have room := Lib.strstrBound found
  have word : resumedWord <+: (a ++ rest).drop n := by
    have size : ((a ++ rest).take n).length = n := List.length_take_of_le (by omega)
    have split : (a ++ rest).drop n = resumedWord ++ (a ++ rest).drop (n + resumedWord.length) := by
      have cut := congrArg (List.drop n) text
      rwa [List.drop_left' size] at cut
    exact ⟨_,split.symm⟩
  rw [shape.whole,List.append_assoc] at word
  by_contra early
  rcases Nat.lt_or_ge n front.length with inside | there
  · rw [List.drop_append_of_le_length (Nat.le_of_lt inside)] at word
    have first : (front.drop n).head? = some 0x72 := by
      obtain ⟨more,same⟩ := word
      have head := congrArg List.head? same
      rw [List.head?_append_of_ne_nil _ (List.drop_eq_nil_iff.not.mpr (Nat.not_le.mpr inside))]
        at head
      exact head.symm
    have letter := stampLetter shape.stamp (c := 0x72) (by decide)
    exact letter (List.mem_of_mem_drop (List.mem_of_mem_head? first))
  · have here : n = front.length := by omega
    rw [here,List.drop_left] at word
    have name : call.takeWhile stopByte <+: call ++ rest :=
      (List.takeWhile_prefix stopByte).trans (List.prefix_append call rest)
    have known := (knownName shape.known).resumed
    rcases List.prefix_or_prefix_of_prefix name word with left | right
    · exact known.1 left
    · exact known.2 right

theorem setShorter {s : Bytes} {n : Nat} :
    ((s.set n lparen).takeWhile stopByte).length ≤ (s.takeWhile stopByte).length := by
  induction s generalizing n with
  | nil => exact Nat.le_refl 0
  | cons c s ih =>
    cases n with
    | zero =>
      rw [List.set_cons_zero,List.takeWhile_cons_of_neg (by decide)]
      exact Nat.zero_le _
    | succ n =>
      rw [List.set_cons_succ]
      cases stops : stopByte c with
      | true =>
        rw [List.takeWhile_cons_of_pos stops,List.takeWhile_cons_of_pos stops]
        exact Nat.succ_le_succ ih
      | false =>
        rw [List.takeWhile_cons_of_neg (by simp [stops])]
        exact Nat.zero_le _

theorem patchedShorter (s : Bytes) (n : Nat) :
    (operationText (s.set n lparen)).length ≤ (operationText s).length := by
  induction s generalizing n with
  | nil => exact Nat.le_refl 0
  | cons c s ih =>
    cases n with
    | zero =>
      have none : operationText (lparen :: s) = [] := rfl
      rw [List.set_cons_zero,none]
      exact Nat.zero_le _
    | succ n =>
      rw [List.set_cons_succ]
      cases stamp : stampByte c with
      | true =>
        have skips (t : Bytes) : operationText (c :: t) = operationText t := by
          rw [operationText,List.dropWhile_cons_of_pos stamp,operationText]
        rw [skips,skips]
        exact ih n
      | false =>
        have stops (t : Bytes) : operationText (c :: t) = (c :: t).takeWhile stopByte := by
          rw [operationText,List.dropWhile_cons_of_neg (by simp [stamp])]
          rfl
        rw [stops,stops,← List.set_cons_succ]
        exact setShorter

theorem CallLine.patched {a front call : Bytes} (shape : CallLine a front call) {rest : Bytes}
    {n : Nat} (found : strstr resumedWord (a ++ rest) = some (n + 1)) :
    linePid ((a ++ rest).set n lparen) = linePid a := by
  have behind := shape.resumed found
  obtain ⟨c,more,same,digit,space,sign,stamp⟩ := shape.first
  have whole : a ++ rest = front ++ c :: (more ++ rest) := by
    rw [shape.whole,same,List.append_assoc,List.cons_append]
  rw [shape.pid,whole,List.set_append_right _ _ (by omega)]
  cases place : n - front.length with
  | zero => exact pidBehind (by decide) (by decide) (by decide) front _
  | succ k => exact pidBehind digit space sign front _

def Recorded (e : Isyscall) : Prop := e.line.length < MAX_STRING →
  0 ∉ e.line ∧ linePid e.line = some e.pid ∧ operationCode (operationText e.line) ≠ .unknown

structure PendingTable (st : StraceState) : Prop where
  tables : Tables st
  keyed : HashTable.Keyed htOpsIsyscall Isyscall.pid st.ht
  recorded : ∀ e ∈ st.ht.items, Recorded e

theorem isyscallAgrees (k : Int32) (e : Isyscall) :
    htOpsIsyscall.compare k e = true ↔ e.pid = k := decide_eq_true_iff

theorem pendingInit (list : List OpItem) : PendingTable (straceInit list) where
  tables := ⟨Nat.zero_lt_succ _,Nat.zero_lt_succ _⟩
  keyed := HashTable.keyedInit isyscallAgrees _
  recorded := fun e member => by
    rw [straceInit,HashTable.itemsInit] at member
    cases member

theorem PendingTable.same {st st' : StraceState} (pending : PendingTable st)
    (ht : st'.ht = st.ht) (stats : 0 < st'.stats.entries) : PendingTable st' where
  tables := ⟨ht ▸ pending.tables.ht,stats⟩
  keyed := ht ▸ pending.keyed
  recorded := ht ▸ pending.recorded

section Table
variable {st : StraceState} (pending : PendingTable st) {pid : Int32} {ht : HashTable Isyscall}
include pending

theorem PendingTable.insert {e : Isyscall} (absent : st.ht.find htOpsIsyscall pid = some none)
    (own : e.pid = pid) (recorded : Recorded e)
    (inserted : st.ht.insert htOpsIsyscall pid e = some ht) : PendingTable { st with ht } where
  tables := ⟨HashTable.insertEntries inserted ▸ pending.tables.ht,pending.tables.stats⟩
  keyed := pending.keyed.insert absent own inserted
  recorded := fun x member => by
    rcases List.mem_cons.mp ((HashTable.insertItems inserted).mem_iff.mp member) with new | old
    · exact new ▸ recorded
    · exact pending.recorded x old

theorem PendingTable.remove {e : Isyscall} (found : st.ht.find htOpsIsyscall pid = some (some e))
    (removed : st.ht.remove htOpsIsyscall pid = some ht) : PendingTable { st with ht } where
  tables := ⟨HashTable.removeEntries removed ▸ pending.tables.ht,pending.tables.stats⟩
  keyed := pending.keyed.remove removed
  recorded := fun x member => pending.recorded x
    ((HashTable.removeItems found removed).mem_iff.mp (List.mem_cons_of_mem e member))

theorem PendingTable.modify {f : Isyscall → Isyscall} (same : ∀ x, (f x).pid = x.pid)
    (recorded : ∀ x, st.ht.find htOpsIsyscall pid = some (some x) → Recorded (f x))
    (modified : st.ht.modify htOpsIsyscall pid f = some ht) : PendingTable { st with ht } where
  tables := ⟨HashTable.modifyEntries modified ▸ pending.tables.ht,pending.tables.stats⟩
  keyed := pending.keyed.modify same modified
  recorded := fun x member => by
    rcases HashTable.modifyMem modified member with old | changed
    · exact pending.recorded x old
    · obtain ⟨y,found,here⟩ := changed
      exact here ▸ recorded y found

end Table

theorem lineRecorded {line : Bytes} {pid : Int32} {name : CName} (noNul : 0 ∉ line)
    (told : linePid line = some pid) (named : toName (operationText line) = .ok name)
    (known : operationCode name.bytes ≠ .unknown) : Recorded ⟨pid,line.take MAX_STRING⟩ := by
  intro short
  rw [List.length_take] at short
  have whole : line.take MAX_STRING = line := List.take_of_length_le (by omega)
  have own : name.bytes = operationText line := (toNameOk named).2 fun member =>
    noNul ((List.dropWhile_sublist _).mem ((List.takeWhile_sublist _).mem member))
  rw [own] at known
  rw [whole]
  exact ⟨noNul,told,known⟩

theorem cutRecorded {e : Isyscall} (recorded : Recorded e) (short : e.line.length < MAX_STRING)
    {s : Nat} (cut : strstr unfinishedMark e.line = some s) :
    Recorded { e with line := e.line.take s } := by
  obtain ⟨noNul,told,known⟩ := recorded short
  obtain ⟨shape,same⟩ := cutLine known (Lib.strstrFound cut)
  intro _
  refine ⟨fun member => noNul (List.mem_of_mem_take member),same.trans told,?_⟩
  rw [shape.text]
  exact shape.known

theorem unfinishedPending {line : Bytes} {name : CName} (noNul : 0 ∉ line)
    (named : toName (operationText line) = .ok name)
    (known : operationCode name.bytes ≠ .unknown) {st st' : StraceState}
    (pending : PendingTable st) (ran : straceReadUnfinished line st = .ok ((),st')) :
    PendingTable st' := by
  have whole := ran
  rw [straceReadUnfinished] at ran
  obtain ⟨pid,t,read,rest⟩ := Prog.bindOk.mp ran
  obtain ⟨told,same⟩ := readPidOk read
  subst same
  cases search : t.ht.find htOpsIsyscall pid with
  | none =>
    rw [Prog.bindOf (Prog.getRun t),search] at rest
    cases rest
  | some here =>
    cases here with
    | none =>
      obtain ⟨ht,inserted,stored⟩ := unfinishedStored told search
      rw [stored] at whole
      cases whole
      exact pending.insert search rfl (lineRecorded noNul told named known) inserted
    | some e =>
      rw [unfinishedKept told search] at whole
      cases whole
      exact pending

theorem resumedPending {process : Bytes → StraceProg Int} {line : Bytes} {st st' : StraceState}
    (keeps : ∀ line st r st', 0 ∉ line → PendingTable st → process line st = .ok (r,st') →
      PendingTable st') (noNul : 0 ∉ line) (pending : PendingTable st)
    (ran : straceReadResumed process line st = .ok ((),st')) : PendingTable st' := by
  have whole := ran
  rw [straceReadResumed] at ran
  obtain ⟨pid,t,read,rest⟩ := Prog.bindOk.mp ran
  obtain ⟨told,same⟩ := readPidOk read
  subst same
  rw [Prog.bindOf (Prog.getRun t)] at rest
  cases search : t.ht.find htOpsIsyscall pid with
  | none =>
    rw [search] at rest
    cases rest
  | some here =>
    cases here with
    | none =>
      rw [resumedNone told search] at whole
      cases whole
      exact pending
    | some e =>
      have recorded := pending.recorded e (HashTable.findMem search).1
      rcases Nat.lt_or_ge e.line.length MAX_STRING with short | long
      · cases cut : strstr unfinishedMark e.line with
        | none =>
          rw [resumedWhole told search short cut] at whole
          cases whole
          exact pending
        | some s =>
          have changed : ∀ x, t.ht.find htOpsIsyscall pid = some (some x) →
              Recorded { x with line := x.line.take s } := fun x found => by
            rw [search] at found
            cases found
            exact cutRecorded recorded short cut
          have own : ∀ x : Isyscall, ({ x with line := x.line.take s } : Isyscall).pid = x.pid :=
            fun _ => rfl
          cases here : strstr resumedMark line with
          | none =>
            obtain ⟨ht,modified,same⟩ := resumedCut told search short cut here process
            rw [same] at whole
            cases whole
            exact pending.modify own changed modified
          | some r =>
            rcases em (2 * MAX_STRING < s + (resumedRest line r).length) with full | fits
            · rw [resumedFull told search short cut here full] at whole
              cases whole
            · obtain ⟨cutTable,ht,modified,removed,merge⟩ :=
                resumedMerge told search short cut here fits
              have kept : PendingTable { t with ht := cutTable } :=
                pending.modify own changed modified
              have left : PendingTable { t with ht } :=
                kept.remove (foundCut search modified) removed
              rw [merge] at whole
              obtain ⟨n,t',processed,last⟩ := Prog.bindOk.mp whole
              cases last
              refine keeps _ _ n _ ?_ left processed
              intro member
              rcases List.mem_append.mp member with first | second
              · exact (recorded short).1 (List.mem_of_mem_take first)
              · exact noNul (List.mem_of_mem_drop (List.mem_of_mem_take second))
      · rw [resumedLong told search long] at whole
        cases whole

theorem processPending (fuel : Nat) (stats : Bool) (line : Bytes) (st : StraceState) (r : Int)
    (st' : StraceState) (noNul : 0 ∉ line) (pending : PendingTable st)
    (ran : straceProcess fuel stats line st = .ok (r,st')) : PendingTable st' := by
  induction fuel generalizing stats line st r st' with
  | zero => cases ran
  | succ fuel ih =>
    have whole := ran
    rw [straceProcess] at ran
    obtain ⟨c,t,code,rest⟩ := Prog.bindOk.mp ran
    obtain ⟨same,entries⟩ := codeKeeps code
    obtain ⟨name,named,coded,_⟩ := codeSplit code
    have here : PendingTable t := pending.same same.2 (entries ▸ pending.tables.stats)
    rcases em (unfinishedWord <:+: line ∧ c ≠ .unknown) with both | other
    · rw [processUnfinished fuel code both.1 both.2] at whole
      obtain ⟨_,t',stored,last⟩ := Prog.bindOk.mp whole
      cases last
      exact unfinishedPending noNul named (coded ▸ both.2) here stored
    · have plain : unfinishedWord <:+: line → c = .unknown := fun marked =>
        not_not.mp fun known => other ⟨marked,known⟩
      have switched (ran : straceSwitch c line t = .ok (r,st')) : PendingTable st' :=
        here.same (switchKeeps ran) (switchStats ran ▸ here.tables.stats)
      cases occurs : strstr resumedWord line with
      | none =>
        rw [processSwitch fuel code plain (.inl occurs)] at whole
        exact switched whole
      | some n =>
        cases n with
        | zero =>
          rw [processSwitch fuel code plain (.inr occurs)] at whole
          exact switched whole
        | succ s =>
          have absent : ¬ ((strstr unfinishedWord line).isSome ∧ c ≠ .unknown) := fun both =>
            other ⟨Lib.strstrInfix.mp both.1,both.2⟩
          unfold unfinishedWord at absent
          have found := occurs
          unfold resumedWord at found
          rw [if_neg absent,found] at rest
          simp only at rest
          obtain ⟨again,t',told,_⟩ := Prog.bindOk.mp rest
          have still := codeOff told
          subst still
          rcases eq_or_ne again .unknown with foreign | known
          · rw [processForeign fuel code plain occurs told foreign] at whole
            cases whole
            exact here
          · rw [processResumed fuel code plain occurs told known] at whole
            obtain ⟨_,t,resumed,last⟩ := Prog.bindOk.mp whole
            cases last
            refine resumedPending (fun line st r st' => ih false line st r st') ?_ here resumed
            intro member
            rcases List.mem_or_eq_of_mem_set member with inside | put
            · exact noNul inside
            · exact absurd put (by decide)

theorem cstrNoNul (f : Bytes) : 0 ∉ cstr f := fun member => by
  simpa using List.mem_takeWhile_imp member

theorem linesPending {stats : Bool} {lines : List Bytes} {st st' : StraceState}
    (pending : PendingTable st) (ran : processLines stats lines st = .ok ((),st')) :
    PendingTable st' := by
  induction lines generalizing st with
  | nil =>
    cases ran
    exact pending
  | cons line lines ih =>
    rw [processLines] at ran
    obtain ⟨n,t,first,rest⟩ := Prog.bindOk.mp ran
    have kept : PendingTable t := processPending _ stats _ st n t (cstrNoNul line) pending first
    exact ih kept rest

def Absorbed (merged : Bytes) : Prop :=
  ∃ name, toName (operationText merged) = .ok name ∧
    (unfinishedWord <:+: merged → operationCode name.bytes = .unknown) ∧
    (¬ resumedWord <:+: merged →
      ∃ found, straceRead (operationCode name.bytes) merged = .ok found)

section Merged
variable {a front call : Bytes} (shape : CallLine a front call) {pid : Int32}
  (told : linePid a = some pid) {st : StraceState}
  (absent : st.ht.find htOpsIsyscall pid = some none) (fuel : Nat) (rest : Bytes)
include shape told absent

theorem absorbedRun (absorbed : Absorbed (a ++ rest)) :
    ∃ r st', straceProcess (fuel + 1) false (a ++ rest) st = .ok (r,st') ∧ st'.ht = st.ht ∧
      st'.stats = st.stats := by
  obtain ⟨name,named,plain,reads⟩ := absorbed
  have code : straceGetOperationCode false (a ++ rest) st = .ok (operationCode name.bytes,st) :=
    codeSilent named
  cases occurs : strstr resumedWord (a ++ rest) with
  | none =>
    obtain ⟨found,read⟩ := reads fun inside => by
      rw [← Lib.strstrInfix,occurs] at inside
      cases inside
    have ran : ofScan (straceRead (operationCode name.bytes) (a ++ rest)) st = .ok (found,st) := by
      rw [read]
      rfl
    rw [processSwitch fuel code plain (.inl occurs),straceSwitch,Prog.bindOf ran]
    cases found with
    | failed => exact ⟨_,_,rfl,rfl,rfl⟩
    | skipped => exact ⟨_,_,rfl,rfl,rfl⟩
    | item o => exact ⟨_,_,rfl,rfl,rfl⟩
  | some n =>
    have behind := shape.resumed occurs
    obtain ⟨m,rfl⟩ : ∃ m, n = m + 1 := ⟨n - 1,by omega⟩
    have own := shape.patched occurs
    have fits := Nat.lt_of_le_of_lt (patchedShorter (a ++ rest) m) (toNameOk named).1
    have again : straceGetOperationCode false ((a ++ rest).set m lparen) st =
        .ok (operationCode (CName.copy _ fits).bytes,st) :=
      codeSilent (by rw [toName,dif_pos fits])
    rcases eq_or_ne (operationCode (CName.copy _ fits).bytes) .unknown with foreign | known
    · exact ⟨_,_,processForeign fuel code plain occurs again foreign,rfl,rfl⟩
    · rw [processResumed fuel code plain occurs again known,
        Prog.bindOf (resumedNone (own.trans told) absent _)]
      exact ⟨_,_,rfl,rfl,rfl⟩

theorem absorbedOnly {r : Int} {st' : StraceState}
    (ran : straceProcess (fuel + 1) false (a ++ rest) st = .ok (r,st'))
    (cleared : st'.ht.find htOpsIsyscall pid = some none) : Absorbed (a ++ rest) := by
  have whole := ran
  rw [straceProcess] at ran
  obtain ⟨c,t,code,_⟩ := Prog.bindOk.mp ran
  have still := codeOff code
  subst still
  obtain ⟨name,named,coded,_⟩ := codeSplit code
  subst coded
  have plain : unfinishedWord <:+: a ++ rest → operationCode name.bytes = .unknown := by
    intro marked
    by_contra known
    obtain ⟨ht,inserted,stored⟩ := unfinishedStored ((shape.extend rest).trans told) absent
    rw [processUnfinished fuel code marked known,Prog.bindOf stored] at whole
    cases whole
    have found := HashTable.findInsert (decide_eq_true rfl) inserted
    rw [absent] at found
    rw [found] at cleared
    cases cleared
  refine ⟨name,named,plain,?_⟩
  intro unmarked
  have occurs : strstr resumedWord (a ++ rest) = none := by
    rw [← Lib.strstrInfix,Option.not_isSome_iff_eq_none] at unmarked
    exact unmarked
  rw [processSwitch fuel code plain (.inl occurs),straceSwitch] at whole
  obtain ⟨found,t',read,_⟩ := Prog.bindOk.mp whole
  cases told : straceRead (operationCode name.bytes) (a ++ rest) with
  | error fault =>
    rw [told] at read
    cases read
  | ok other => exact ⟨other,rfl⟩

end Merged

def resumedLine (front name rest : Bytes) : Bytes :=
  front ++ (ascii "<... " ++ (name ++ blank :: (resumedWord ++ rest)))

def Merges (e : Isyscall) (tail : Bytes) : Prop :=
  ¬ unfinishedWord <:+: tail ∧ e.line.length < MAX_STRING ∧
    ∃ s r, strstr unfinishedMark e.line = some s ∧ strstr resumedMark tail = some r ∧
      s + (resumedRest tail r).length ≤ 2 * MAX_STRING ∧
      Absorbed (e.line.take s ++ resumedRest tail r)

def Recording (pid : Int32) (st : StraceState) : Prop :=
  ∀ stats next, linePid next = some pid → unfinishedWord <:+: next →
    operationCode (operationText next) ≠ .unknown →
    ∃ st', straceProcessLine stats next st = .ok (0,st') ∧
      st'.ht.find htOpsIsyscall pid = some (some ⟨pid,next.take MAX_STRING⟩)

/-- The process has no pending call any more, the others have what they had, and the next
unfinished line is recorded. -/
def Cleared (stats : Bool) (line : Bytes) (pid : Int32) (st : StraceState) : Prop :=
  ∃ st', straceProcessLine stats line st = .ok (0,st') ∧
    st'.ht.find htOpsIsyscall pid = some none ∧
    (∀ other, other ≠ pid → st'.ht.find htOpsIsyscall other = st.ht.find htOpsIsyscall other) ∧
    Recording pid st'

theorem recording {pid : Int32} {st : StraceState} (tables : Tables st)
    (absent : st.ht.find htOpsIsyscall pid = some none) : Recording pid st := by
  intro stats next told marked known
  have name := (knownName known).callable
  obtain ⟨t,code,same,_⟩ := codeRun (nameCallable name) tables name.short stats
  have here : t.ht.find htOpsIsyscall pid = some none := same.2 ▸ absent
  obtain ⟨ht,inserted,stored⟩ := unfinishedStored told here
  refine ⟨{ t with ht },?_,?_⟩
  · rw [straceProcessLine,processUnfinished _ code marked known,Prog.bindOf stored]
    rfl
  · have found := HashTable.findInsert (decide_eq_true rfl) inserted
    rw [here] at found
    exact found

section Resumed
variable {front name rest : Bytes} (stamp : ∀ b ∈ front, stampByte b = true)
  (known : operationCode name ≠ .unknown)
include stamp known

theorem resumedShape {c : UInt8} (ends : stopByte c = false) (tail : Bytes) :
    CallLine (front ++ ascii "<... " ++ (name ++ c :: tail)) (front ++ ascii "<... ")
        (name ++ c :: tail) ∧
      operationText (front ++ ascii "<... " ++ (name ++ c :: tail)) = name := by
  have plain : ∀ b ∈ name, stopByte b = true := fun b member => by
    obtain ⟨paren,space,_⟩ := (knownName known).callable.plain b member
    simp [stopByte,paren,space]
  have text : (name ++ c :: tail).takeWhile stopByte = name :=
    (stopsAt ends).trans (List.takeWhile_eq_self_iff.mpr plain)
  have shape : CallLine (front ++ ascii "<... " ++ (name ++ c :: tail)) (front ++ ascii "<... ")
      (name ++ c :: tail) := by
    refine ⟨rfl,?_,text.symm ▸ known⟩
    intro b member
    rcases List.mem_append.mp member with first | marker
    · exact stamp b first
    · exact (by decide +kernel : ∀ b ∈ ascii "<... ", stampByte b = true) b marker
  exact ⟨shape,shape.text.trans text⟩

end Resumed

section Marker
variable {front name : Bytes} (stamp : ∀ b ∈ front, stampByte b = true) (unmarked : Unmarked name)
include stamp unmarked

theorem resumedFront : Unmarked (front ++ ascii "<... " ++ name) := by
  have between : ∀ b : UInt8, stampByte b = true → Between b := Lib.everyByte (by decide +kernel)
  have marker : ∀ b ∈ ascii "<... ", Between b := by decide +kernel
  rw [List.append_assoc,unmarkedRun fun b member => between b (stamp b member),
    unmarkedRun marker]
  exact unmarked

theorem resumedPlain (tail : Bytes) :
    unfinishedWord <:+: front ++ ascii "<... " ++ (name ++ blank :: tail) ↔
      unfinishedWord <:+: tail := by
  rw [← List.append_assoc,Lib.infixApart (by decide)]
  exact or_iff_right (resumedFront stamp unmarked).1

theorem resumedOccurs (tail : Bytes) :
    strstr resumedWord (front ++ ascii "<... " ++ (name ++ blank :: (resumedWord ++ tail))) =
      some ((front ++ ascii "<... " ++ name).length + 1) := by
  have here : strstr resumedWord (resumedWord ++ tail) = some 0 := by
    unfold resumedWord
    rfl
  rw [← List.append_assoc,Lib.strstrBehind (by decide) (resumedFront stamp unmarked).2,here,
    Option.map_some,Nat.zero_add]

theorem resumedMarked (tail : Bytes) :
    strstr resumedMark (front ++ ascii "<... " ++ (name ++ lparen :: tail)) =
      (strstr resumedMark tail).map (· + ((front ++ ascii "<... " ++ name).length + 1)) := by
  have absent : ¬ resumedMark <:+: front ++ ascii "<... " ++ name := fun inside =>
    (resumedFront stamp unmarked).2 (List.IsInfix.trans ⟨[],ascii "> ",rfl⟩ inside)
  rw [← List.append_assoc]
  exact Lib.strstrBehind (by decide) absent tail

end Marker

theorem restBehind (a : Bytes) (c : UInt8) (tail : Bytes) (r : Nat) :
    resumedRest (a ++ c :: tail) (r + (a.length + 1)) = resumedRest tail r := by
  have split : a ++ c :: tail = (a ++ [c]) ++ tail := by simp
  have size : (a ++ [c]).length = a.length + 1 := List.length_append
  have place : r + (a.length + 1) + resumedMark.length =
      (a ++ [c]).length + (r + resumedMark.length) := by omega
  rw [resumedRest,split,place,List.drop_length_add_append]
  rfl

theorem mergedTable {table cut ht : HashTable Isyscall}
    (keyed : HashTable.Keyed htOpsIsyscall Isyscall.pid table) {pid : Int32} {s : Nat}
    (modified : table.modify htOpsIsyscall pid (fun item =>
      { item with line := item.line.take s }) = some cut)
    (removed : cut.remove htOpsIsyscall pid = some ht) :
    HashTable.Keyed htOpsIsyscall Isyscall.pid ht ∧ ht.find htOpsIsyscall pid = some none ∧
      ∀ other, other ≠ pid → ht.find htOpsIsyscall other = table.find htOpsIsyscall other := by
  have own : ∀ x : Isyscall, ({ x with line := x.line.take s } : Isyscall).pid = x.pid :=
    fun _ => rfl
  have cutKeyed := keyed.modify own modified
  refine ⟨cutKeyed.remove removed,cutKeyed.findRemoved removed,?_⟩
  intro other differs
  have apart : ∀ x : Isyscall, htOpsIsyscall.compare pid x →
      ¬ htOpsIsyscall.compare other x := fun x mine theirs =>
    differs (((isyscallAgrees other x).mp theirs).symm.trans ((isyscallAgrees pid x).mp mine))
  have cutKept : cut.find htOpsIsyscall other = table.find htOpsIsyscall other :=
    HashTable.findModifyOther (f := fun item => { item with line := item.line.take s })
      (fun x mine => ⟨apart x mine,apart x mine⟩) modified
  rw [HashTable.findRemoveOther (fun x theirs mine => apart x mine theirs) removed,cutKept]

section Resuming
variable {st : StraceState} (pending : PendingTable st) {pid : Int32} {e : Isyscall}
  (found : st.ht.find htOpsIsyscall pid = some (some e)) (stats : Bool)
include pending found

theorem mergedIff {t : StraceState} (same : SameCalls st t) (tables : Tables t) {line : Bytes}
    (own : linePid line = some pid) (short : e.line.length < MAX_STRING) {s : Nat}
    (cut : strstr unfinishedMark e.line = some s) {r : Nat}
    (mark : strstr resumedMark line = some r)
    (fits : ¬ 2 * MAX_STRING < s + (resumedRest line r).length) {fuel : Nat} {whole : Bytes}
    (done : straceProcessLine stats whole st =
      (straceReadResumed (straceProcess (fuel + 1) false) line >>= fun _ => pure 0) t) :
    Cleared stats whole pid st ↔ Absorbed (e.line.take s ++ resumedRest line r) := by
  have here : t.ht.find htOpsIsyscall pid = some (some e) := same.2 ▸ found
  obtain ⟨cutTable,ht,modified,removed,merge⟩ := resumedMerge own here short cut mark fits
  obtain ⟨_,absent,kept⟩ := mergedTable (same.2 ▸ pending.keyed) modified removed
  have others : ∀ other, other ≠ pid →
      ht.find htOpsIsyscall other = st.ht.find htOpsIsyscall other :=
    fun other differs => (kept other differs).trans (by rw [same.2])
  obtain ⟨member,mine⟩ := HashTable.findMem found
  obtain ⟨_,named,told⟩ := pending.recorded e member short
  obtain ⟨shape,front⟩ := cutLine told (Lib.strstrFound cut)
  have told : linePid (e.line.take s) = some pid :=
    front.trans (named.trans (congrArg some ((isyscallAgrees pid e).mp mine)))
  constructor
  · intro cleared
    obtain ⟨st',ended,gone,_⟩ := cleared
    rw [done] at ended
    obtain ⟨_,t',resumed,last⟩ := Prog.bindOk.mp ended
    cases last
    rw [merge] at resumed
    obtain ⟨n,t,ran,last⟩ := Prog.bindOk.mp resumed
    cases last
    exact absorbedOnly shape told absent fuel _ ran gone
  · intro absorbed
    have gone : ({ t with ht } : StraceState).ht.find htOpsIsyscall pid = some none := absent
    obtain ⟨n,st',ran,table,counts⟩ := absorbedRun shape told gone fuel _ absorbed
    have gone : st'.ht.find htOpsIsyscall pid = some none := table ▸ absent
    have chains : Tables st' :=
      ⟨table ▸ HashTable.removeEntries removed ▸ HashTable.modifyEntries modified ▸ tables.ht,
        counts ▸ tables.stats⟩
    refine ⟨st',?_,gone,fun other differs => table ▸ others other differs,recording chains gone⟩
    rw [done,Prog.bindRun,merge,Prog.bindOf ran]
    rfl

variable {front name rest : Bytes} (stamp : ∀ b ∈ front, stampByte b = true)
  (known : operationCode name ≠ .unknown)
  (told : linePid (resumedLine front name rest) = some pid)
include stamp known told

theorem resumedStep : ∃ fuel t, SameCalls st t ∧ Tables t ∧
    (unfinishedWord <:+: resumedWord ++ rest →
      straceProcessLine stats (resumedLine front name rest) st = .ok (0,t)) ∧
    (¬ unfinishedWord <:+: resumedWord ++ rest → ∃ line, linePid line = some pid ∧
      line = front ++ ascii "<... " ++ (name ++ lparen :: (resumedWord ++ rest)) ∧
      straceProcessLine stats (resumedLine front name rest) st =
        (straceReadResumed (straceProcess (fuel + 1) false) line >>= fun _ => pure 0) t) := by
  have call := (knownName known).callable
  have line : resumedLine front name rest =
      front ++ ascii "<... " ++ (name ++ blank :: (resumedWord ++ rest)) :=
    (List.append_assoc _ _ _).symm
  obtain ⟨shape,text⟩ := resumedShape stamp known (c := blank) (by decide) (resumedWord ++ rest)
  obtain ⟨patched,again⟩ := resumedShape stamp known (c := lparen) (by decide) (resumedWord ++ rest)
  have marked := resumedPlain stamp (knownName known).unmarked (resumedWord ++ rest)
  have occurs := resumedOccurs stamp (knownName known).unmarked rest
  rw [← line] at shape text marked occurs
  obtain ⟨fuel,size⟩ : ∃ fuel, st.ht.items.length = fuel + 1 :=
    ⟨st.ht.items.length - 1,by
      have some := List.length_pos_of_mem (HashTable.findMem found).1
      omega⟩
  have named : toName (operationText (resumedLine front name rest)) = .ok call.name := by
    rw [text]
    exact nameCallable call
  obtain ⟨t,code,same,tables⟩ := codeRun named pending.tables call.short stats
  have here : t.ht.find htOpsIsyscall pid = some (some e) := same.2 ▸ found
  refine ⟨fuel,t,same,tables,?_,?_⟩
  · intro both
    rw [straceProcessLine,processUnfinished _ code (marked.mpr both) known,
      Prog.bindOf (unfinishedKept told here)]
    rfl
  · intro other
    have ended : (resumedLine front name rest).set (front ++ ascii "<... " ++ name).length lparen =
        front ++ ascii "<... " ++ (name ++ lparen :: (resumedWord ++ rest)) := by
      rw [line,← List.append_assoc,List.set_append_right _ _ (Nat.le_refl _),Nat.sub_self,
        List.set_cons_zero,List.append_assoc (front ++ ascii "<... ")]
    have second : straceGetOperationCode false
        (front ++ ascii "<... " ++ (name ++ lparen :: (resumedWord ++ rest))) t =
        .ok (operationCode call.name.bytes,t) :=
      codeSilent (by rw [again]; exact nameCallable call)
    have own : linePid (front ++ ascii "<... " ++ (name ++ lparen :: (resumedWord ++ rest))) =
        some pid := (patched.pid.trans shape.pid.symm).trans told
    refine ⟨_,own,rfl,?_⟩
    rw [← ended] at second
    have ran := processResumed (st.ht.items.length) code
      (fun inside => absurd (marked.mp inside) other) occurs second known
    rw [straceProcessLine,ran,ended,size]

theorem clearedIff :
    Cleared stats (resumedLine front name rest) pid st ↔ Merges e (resumedWord ++ rest) := by
  obtain ⟨fuel,t,same,tables,kept,ran⟩ := resumedStep pending found stats stamp known told
  have here : t.ht.find htOpsIsyscall pid = some (some e) := same.2 ▸ found
  have recorded := pending.recorded e (HashTable.findMem found).1
  rcases em (unfinishedWord <:+: resumedWord ++ rest) with both | plain
  · refine iff_of_false ?_ fun merges => merges.1 both
    intro cleared
    obtain ⟨st',done,absent,_⟩ := cleared
    rw [kept both] at done
    cases done
    rw [here] at absent
    cases absent
  · obtain ⟨line,own,text,done⟩ := ran plain
    have marks := resumedMarked stamp (knownName known).unmarked (resumedWord ++ rest)
    rw [← text] at marks
    have stays {t' : StraceState} {left : Isyscall}
        (resumed : straceReadResumed (straceProcess (fuel + 1) false) line t = .ok ((),t'))
        (still : t'.ht.find htOpsIsyscall pid = some (some left)) :
        ¬ Cleared stats (resumedLine front name rest) pid st := by
      intro cleared
      obtain ⟨st',ended,absent,_⟩ := cleared
      rw [done,Prog.bindOf resumed] at ended
      cases ended
      rw [still] at absent
      cases absent
    have fails {fault : StraceFault}
        (stopped : straceReadResumed (straceProcess (fuel + 1) false) line t = .error fault) :
        ¬ Cleared stats (resumedLine front name rest) pid st := by
      intro cleared
      obtain ⟨st',ended,_⟩ := cleared
      rw [done,Prog.bindRun,stopped] at ended
      cases ended
    rcases Nat.lt_or_ge e.line.length MAX_STRING with short | long
    · cases cut : strstr unfinishedMark e.line with
      | none =>
        refine iff_of_false (stays (resumedWhole own here short cut _) here) ?_
        intro merges
        obtain ⟨_,_,s,r,marked,_⟩ := merges
        rw [cut] at marked
        cases marked
      | some s =>
        cases mark : strstr resumedMark (resumedWord ++ rest) with
        | none =>
          rw [mark] at marks
          obtain ⟨ht,modified,resumed⟩ := resumedCut own here short cut marks _
          refine iff_of_false (stays resumed (foundCut here modified)) ?_
          intro merges
          obtain ⟨_,_,s,r,_,marked,_⟩ := merges
          rw [mark] at marked
          cases marked
        | some r =>
          rw [mark,Option.map_some] at marks
          have behind := restBehind (front ++ ascii "<... " ++ name) lparen (resumedWord ++ rest) r
          rw [List.append_assoc (front ++ ascii "<... "),← text] at behind
          rcases em (2 * MAX_STRING < s + (resumedRest (resumedWord ++ rest) r).length) with
            full | fits
          · refine iff_of_false (fails (resumedFull own here short cut marks (behind ▸ full) _)) ?_
            intro merges
            obtain ⟨_,_,s',r',cut',mark',room,_⟩ := merges
            rw [cut] at cut'
            rw [mark] at mark'
            cases cut'
            cases mark'
            exact absurd full (Nat.not_lt.mpr room)
          · have merged := mergedIff pending found stats same tables own short cut marks
              (behind ▸ fits) done
            rw [behind] at merged
            rw [merged]
            constructor
            · intro absorbed
              exact ⟨plain,short,s,r,cut,mark,Nat.not_lt.mp fits,absorbed⟩
            · intro merges
              obtain ⟨_,_,s',r',cut',mark',_,absorbed⟩ := merges
              rw [cut] at cut'
              rw [mark] at mark'
              cases cut'
              cases mark'
              exact absorbed
    · exact iff_of_false (fails (resumedLong own here long _))
        fun merges => absurd long (Nat.not_le.mpr merges.2.1)

end Resuming

def pendingCall : Isyscall := ⟨7,ascii "7 1.0 close( <unfinished ...>"⟩

def pendingClose : StraceState :=
  { straceInit [] with ht := (straceInit []).ht.append 7 pendingCall }

theorem pendingCloseTable : PendingTable pendingClose :=
  (pendingInit []).insert (show (straceInit []).ht.find htOpsIsyscall 7 = some none from rfl) rfl
    (fun _ => by decide +kernel) rfl

theorem clearedClose :
    Cleared true (resumedLine (ascii "7 2.0 ") (ascii "close") (ascii "> ")) 7 pendingClose :=
  (clearedIff pendingCloseTable (show _ = some (some pendingCall) from rfl) true
    (by decide +kernel) (by decide +kernel) (by decide +kernel)).mpr
    ⟨by decide +kernel,by decide +kernel,12,0,by decide +kernel,by decide +kernel,by decide +kernel,
      ⟨⟨ascii "close",by decide +kernel,by decide +kernel⟩,by decide +kernel,by decide +kernel,
        fun _ => ⟨.failed,by decide +kernel⟩⟩⟩

theorem resumedPoisons :
    ¬ Cleared true (resumedLine (ascii "7 2.0 ") (ascii "close") (ascii ">3) = 0 <0.1>")) 7
      pendingClose := by
  intro cleared
  obtain ⟨st',done,absent,_⟩ := cleared
  have stays : (straceProcessLine true (resumedLine (ascii "7 2.0 ") (ascii "close")
      (ascii ">3) = 0 <0.1>")) pendingClose).map (fun r => r.2.ht.find htOpsIsyscall 7) =
      .ok (some (some ⟨7,ascii "7 1.0 close("⟩)) := by
    decide +kernel
  rw [done] at stays
  have still : st'.ht.find htOpsIsyscall 7 = some (some ⟨7,ascii "7 1.0 close("⟩) :=
    Except.ok.inj stays
  rw [absent] at still
  cases still

end IoApps.Strace
