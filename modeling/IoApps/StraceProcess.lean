import IoApps.StraceLines

/-! What one call of `strace_process_line` does to the state. -/
namespace IoApps.Strace
open Lib (Bytes Prog ascii strstr)

structure Callable (call : Bytes) : Prop where
  some : call ≠ []
  lead : call.head?.all (fun c => !stampByte c) = true
  plain : ∀ c ∈ call, c ≠ lparen ∧ c ≠ blank ∧ c ≠ 0
  short : call.length < MAX_OPERATION

instance (call : Bytes) : Decidable (Callable call) :=
  decidable_of_iff (call ≠ [] ∧ call.head?.all (fun c => !stampByte c) = true ∧
    call.all (fun c => c != lparen && c != blank && c != 0) = true ∧
    call.length < MAX_OPERATION) <| by
    have bytes : call.all (fun c => c != lparen && c != blank && c != 0) = true ↔
        ∀ c ∈ call, c ≠ lparen ∧ c ≠ blank ∧ c ≠ 0 := by
      simp [List.all_eq_true,and_assoc]
    constructor
    · intro all
      obtain ⟨some,lead,plain,short⟩ := all
      exact ⟨some,lead,bytes.mp plain,short⟩
    · intro all
      exact ⟨all.some,all.lead,bytes.mpr all.plain,all.short⟩

def Callable.name {call : Bytes} (real : Callable call) : CName where
  bytes := call
  noNul := fun member => (real.plain 0 member).2.2 rfl
  fits := Nat.lt_trans real.short (by decide)

theorem stampSkipped (s : Stamp) (rest : Bytes) :
    (s.print rest).dropWhile stampByte = rest.dropWhile stampByte := by
  have digit (c : UInt8) (digit : Lib.isDigit 10 c = true) : stampByte c = true := by
    unfold stampByte
    simp [digit]
  have pid : ∀ c ∈ Lib.numeral 10 s.pid, stampByte c = true := fun c member =>
    digit c (Lib.numeralDigits (by decide) (by decide) _ c member)
  have blanks : ∀ c ∈ List.replicate (s.gap + 1) blank, stampByte c = true := fun c member => by
    rw [List.eq_of_mem_replicate member]
    rfl
  have time : ∀ c ∈ s.time, stampByte c = true := timeBytes digit rfl
  rw [Stamp.print,List.dropWhile_append_of_pos pid,List.dropWhile_append_of_pos blanks,
    List.dropWhile_append_of_pos time,List.dropWhile_cons_of_pos rfl]

theorem callFirst {call : Bytes} (real : Callable call) (rest : Bytes) :
    ∀ c, (call ++ rest).head? = some c → stampByte c = false := by
  intro c first
  rw [List.head?_append_of_ne_nil _ real.some] at first
  have lead := real.lead
  rw [first] at lead
  simpa using lead

theorem callNext {call : Bytes} (real : Callable call) (rest : Bytes) :
    ∀ c, (call ++ rest).head? = some c → Lib.isSpace c = false := by
  intro c first
  have lead := callFirst real rest c first
  unfold stampByte at lead
  simp only [Bool.or_eq_false_iff] at lead
  exact lead.1.1.1

theorem callText {call : Bytes} (real : Callable call) {c : UInt8}
    (ends : c = lparen ∨ c = blank) (rest : Bytes) :
    operationText (call ++ c :: rest) = call := by
  obtain ⟨b,more,whole⟩ := List.exists_cons_of_ne_nil real.some
  have lead : stampByte b = false := callFirst real (c :: rest) b (by rw [whole]; rfl)
  have still : (call ++ c :: rest).dropWhile stampByte = call ++ c :: rest := by
    rw [whole]
    exact List.dropWhile_cons_of_neg (by simp [lead])
  rw [operationText,still]
  refine Lib.takeWhileBreak ?_ ?_
  · intro b member
    obtain ⟨paren,space,_⟩ := real.plain b member
    simp [paren,space]
  · intro b first
    cases first
    rcases ends with same | same
    · simp [same]
    · simp [same]

theorem operationPrinted (s : Stamp) {call : Bytes} (real : Callable call) {c : UInt8}
    (ends : c = lparen ∨ c = blank) (rest : Bytes) :
    operationText (s.print (call ++ c :: rest)) = call := by
  rw [operationText,stampSkipped]
  exact callText real ends rest

theorem toNameOk {text : Bytes} {name : CName} (named : toName text = .ok name) :
    text.length < MAX_STRING ∧ (0 ∉ text → name.bytes = text) := by
  unfold toName at named
  split at named
  · rename_i fits
    cases named
    refine ⟨fits,fun noNul => ?_⟩
    exact List.takeWhile_eq_self_iff.mpr fun c member =>
      decide_eq_true fun same => noNul (same ▸ member)
  · cases named

theorem toNameShort {text : Bytes} (fits : text.length < MAX_STRING) (noNul : 0 ∉ text) :
    ∃ name, toName text = .ok name ∧ name.bytes = text := by
  have named : toName text = .ok (CName.copy text fits) := by rw [toName,dif_pos fits]
  exact ⟨_,named,(toNameOk named).2 noNul⟩

theorem nameCallable {call : Bytes} (real : Callable call) : toName call = .ok real.name := by
  have fits : call.length < MAX_STRING := real.name.fits
  rw [toName,dif_pos fits]
  exact congrArg Except.ok real.name.copyExact

structure Tables (st : StraceState) : Prop where
  ht : 0 < st.ht.entries
  stats : 0 < st.stats.entries

theorem statsChain {st : StraceState} (real : Tables st) (operation : CName) :
    ∃ c, st.stats.chain htOpsStat operation = some c := by
  unfold HashTable.chain htOpsStat htHashStr
  refine ⟨_,Option.filter_eq_some_iff.mpr ⟨rfl,?_⟩⟩
  exact decide_eq_true (Nat.mod_lt _ real.stats)

def SameCalls (st st' : StraceState) : Prop := st'.list = st.list ∧ st'.ht = st.ht

theorem statsRun {st : StraceState} (real : Tables st) {operation : CName}
    (room : st.stats.find htOpsStat operation = some none →
      operation.bytes.length < MAX_OPERATION) :
    ∃ stats, statsAddOp operation st = .ok ((),{ st with stats }) ∧ Tables { st with stats } ∧
      ((st.stats.find htOpsStat operation = some none ∧
          st.stats.insert htOpsStat operation ⟨operation,1⟩ = some stats) ∨
        ∃ item, st.stats.find htOpsStat operation = some (some item) ∧
          st.stats.modify htOpsStat operation (fun item =>
            { item with count := item.count + 1 }) = some stats) := by
  obtain ⟨c,hashed⟩ := statsChain real operation
  have found : st.stats.find htOpsStat operation =
      some ((st.stats.entry c).find? (htOpsStat.compare operation)) := by
    rw [HashTable.find,hashed,Option.map_some]
  cases here : (st.stats.entry c).find? (htOpsStat.compare operation) with
  | none =>
    rw [here] at found
    refine ⟨st.stats.append c ⟨operation,1⟩,?_,⟨real.ht,real.stats⟩,.inl ⟨found,?_⟩⟩
    · rw [statsAddOp,Prog.bindOf (Prog.getRun st),Prog.bindOf (by rw [found]; rfl)]
      simp only [if_neg (Nat.not_le.mpr (room found))]
      rw [Prog.bindOf (by rw [HashTable.insert,hashed]; rfl)]
      rfl
    · rw [HashTable.insert,hashed,Option.map_some]
  | some item =>
    rw [here] at found
    obtain ⟨stats,modified⟩ : ∃ stats, st.stats.modify htOpsStat operation (fun item =>
        { item with count := item.count + 1 }) = some stats :=
      ⟨_,by rw [HashTable.modify,hashed,Option.map_some]⟩
    refine ⟨stats,?_,⟨real.ht,HashTable.modifyEntries modified ▸ real.stats⟩,
      .inr ⟨item,found,modified⟩⟩
    rw [statsAddOp,Prog.bindOf (Prog.getRun st),Prog.bindOf (by rw [found]; rfl)]
    simp only
    rw [Prog.bindOf (by rw [modified]; rfl)]
    rfl

def Timed (line : Bytes) : Prop := ∃ sec usec, scan durationFormat line = .ok [.num sec,.num usec]

theorem durationFree (line : Bytes) : ∃ args, scan durationFormat line = .ok args := by
  obtain ⟨args,ran⟩ := Lib.sscanfFree (f := durationFormat) (by decide) line
  exact ⟨args,by rw [scan,ran]⟩

def Counts (stats : Bool) (line : Bytes) (st : StraceState) : Prop :=
  stats = true → Timed line → ∀ name, toName (operationText line) = .ok name →
    st.stats.find htOpsStat name = some none → name.bytes.length < MAX_OPERATION

section Code
variable {st : StraceState} {line : Bytes} {name : CName}
  (named : toName (operationText line) = .ok name)
include named

theorem nameRun : ofScan (toName (operationText line)) st = .ok (name,st) := by
  rw [named]
  rfl

theorem codeCounted (timed : Timed line) : straceGetOperationCode true line st =
    (statsAddOp name >>= fun _ => pure (operationCode name.bytes)) st := by
  obtain ⟨sec,usec,ran⟩ := timed
  have second : ofScan (scan durationFormat line) st = .ok ([.num sec,.num usec],st) := by
    rw [ran]
    rfl
  rw [straceGetOperationCode,straceGetOperation,Prog.bindRun,Prog.bindOf (nameRun named),
    if_pos rfl,Prog.bindOf second]
  simp only [Prog.bindRun]
  cases statsAddOp name st <;> rfl

theorem codeUncounted {stats : Bool} (plain : stats = true → ¬ Timed line) :
    straceGetOperationCode stats line st = .ok (operationCode name.bytes,st) := by
  rw [straceGetOperationCode,straceGetOperation,Prog.bindRun,Prog.bindOf (nameRun named)]
  cases stats with
  | false => rfl
  | true =>
    obtain ⟨args,ran⟩ := durationFree line
    have second : ofScan (scan durationFormat line) st = .ok (args,st) := by
      rw [ran]
      rfl
    rw [if_pos rfl,Prog.bindOf second]
    -- only two numbers are counted
    rcases args with _ | ⟨a,more⟩
    · rfl
    · rcases a with sec | text
      · rcases more with _ | ⟨b,more⟩
        · rfl
        · rcases b with usec | text
          · cases more with
            | nil => exact absurd ⟨sec,usec,ran⟩ (plain rfl)
            | cons c more => rfl
          · rfl
      · rfl

theorem codeSilent : straceGetOperationCode false line st = .ok (operationCode name.bytes,st) := by
  refine codeUncounted named ?_
  intro on
  cases on

theorem codeTold (real : Tables st) {stats : Bool} (counts : Counts stats line st) :
    ∃ st', straceGetOperationCode stats line st = .ok (operationCode name.bytes,st') ∧
      SameCalls st st' ∧ Tables st' := by
  rcases em (stats = true ∧ Timed line) with both | plain
  · obtain ⟨on,timed⟩ := both
    obtain ⟨table,counted,tables,_⟩ := statsRun real (counts on timed name named)
    refine ⟨{ st with stats := table },?_,⟨rfl,rfl⟩,tables⟩
    rw [on,codeCounted named timed,Prog.bindOf counted]
    rfl
  · exact ⟨st,codeUncounted named fun on timed => plain ⟨on,timed⟩,⟨rfl,rfl⟩,real⟩

theorem codeStops {stats : Bool} (stops : ¬ Counts stats line st) :
    straceGetOperationCode stats line st = .error .beyond := by
  unfold Counts at stops
  push Not at stops
  obtain ⟨on,timed,other,told,found,long⟩ := stops
  rw [named] at told
  cases told
  subst on
  rw [codeCounted named timed,Prog.bindRun,statsAddOp,Prog.bindOf (Prog.getRun st),
    Prog.bindOf (by rw [found]; rfl)]
  simp only [if_pos long]
  rfl

theorem codeRun (real : Tables st) (short : name.bytes.length < MAX_OPERATION) (stats : Bool) :
    ∃ st', straceGetOperationCode stats line st = .ok (operationCode name.bytes,st') ∧
      SameCalls st st' ∧ Tables st' := by
  refine codeTold named real fun _ _ other told _ => ?_
  rw [named] at told
  exact Except.ok.inj told ▸ short

end Code

theorem switchItem {c : OpType} {line : Bytes} {o : Op} (read : straceRead c line = .ok (.item o))
    (st : StraceState) :
    straceSwitch c line st = .ok (0,{ st with list := st.list ++ [o.item] }) := by
  have ran : ofScan (straceRead c line) st = .ok (.item o,st) := by
    rw [read]
    rfl
  rw [straceSwitch,Prog.bindOf ran]
  rfl

theorem unmarkedNone {line : Bytes} (plain : Unmarked line) :
    strstr (ascii "unfinished") line = none ∧ strstr (ascii "resumed") line = none := by
  obtain ⟨unfinished,resumed⟩ := plain
  rw [← Lib.strstrInfix,Option.not_isSome_iff_eq_none] at unfinished resumed
  exact ⟨unfinished,resumed⟩

theorem processPlain {line : Bytes} (plain : Unmarked line) (fuel : Nat) (stats : Bool)
    {st st' : StraceState} {c : OpType}
    (code : straceGetOperationCode stats line st = .ok (c,st')) :
    straceProcess (fuel + 1) stats line st = straceSwitch c line st' := by
  obtain ⟨unfinished,resumed⟩ := unmarkedNone plain
  rw [straceProcess,Prog.bindOf code,unfinished,resumed,if_neg (by simp)]

theorem itemRun {s : Stamp} {call rest : Bytes} (real : Callable call) {line : Bytes}
    (printed : line = s.print (call ++ lparen :: rest)) (plain : Unmarked line) {o : Op}
    (read : straceRead (operationCode call) line = .ok (.item o)) {st : StraceState}
    (tables : Tables st) (stats : Bool) :
    ∃ st', straceProcessLine stats line st = .ok (0,st') ∧ st'.list = st.list ++ [o.item] ∧
      st'.ht = st.ht ∧ Tables st' := by
  have named : toName (operationText line) = .ok real.name := by
    rw [printed,operationPrinted s real (.inl rfl)]
    exact nameCallable real
  obtain ⟨st',code,same,tables'⟩ := codeRun named tables real.short stats
  refine ⟨{ st' with list := st'.list ++ [o.item] },?_,?_,same.2,⟨tables'.ht,tables'.stats⟩⟩
  · rw [straceProcessLine,processPlain plain _ stats code,
      switchItem (show straceRead (operationCode real.name.bytes) line = .ok (.item o) from read)]
  · rw [← same.1]

end IoApps.Strace
