import IoApps.StraceResumed

/-! Traces of several processes: their calls, some of them printed in two parts, in any order that
keeps the order of each process. -/
namespace IoApps.Strace
open Lib (Bytes Prog ascii strstr)

structure Named (name : Bytes) : Prop where
  some : name ≠ []
  lead : name.head?.all (fun c => !stampByte c) = true
  plain : ∀ c ∈ name, c ≠ lparen ∧ c ≠ blank ∧ c ≠ 0

structure Call where
  start : Stamp
  name : Bytes
  text : Bytes

def Call.print (c : Call) (tail : Bytes) : Bytes :=
  c.start.print (c.name ++ lparen :: (c.text ++ tail))

-- A call whose text is cut, and the stamp of its second line.
structure Split where
  call : Call
  cut : Nat
  again : Stamp
  own : again.pid = call.start.pid

namespace Split

def first (p : Split) : Bytes := p.call.text.take p.cut
def rest (p : Split) : Bytes := p.call.text.drop p.cut
def pid (p : Split) : Int32 := Int32.ofNat p.call.start.pid

def unfinished (p : Split) (tail : Bytes) : Bytes :=
  p.call.start.print (p.call.name ++ lparen :: (p.first ++ (unfinishedMark ++ tail)))

def resumed (p : Split) (tail : Bytes) : Bytes :=
  p.again.print (ascii "<... " ++ (p.call.name ++ blank :: (resumedMark ++ (p.rest ++ tail))))

end Split

inductive TraceLine where
  | whole (c : Call)
  | unfinished (p : Split)
  | resumed (p : Split)

namespace TraceLine

def call : TraceLine → Call
  | .whole c => c
  | .unfinished p | .resumed p => p.call

def pid (l : TraceLine) : Int32 := Int32.ofNat l.call.start.pid

def print : TraceLine → Bytes → Bytes
  | .whole c => c.print
  | .unfinished p => p.unfinished
  | .resumed p => p.resumed

def ends : TraceLine → Option Call
  | .whole c => some c
  | .unfinished _ => none
  | .resumed p => some p.call

end TraceLine

inductive Printed where
  | once (c : Call)
  | twice (p : Split)

def Printed.lines : Printed → List TraceLine
  | .once c => [.whole c]
  | .twice p => [.unfinished p,.resumed p]

/-- The lines of each process are those of its calls, in their order. -/
def Interleaved (calls : Int32 → List Printed) (lines : List TraceLine) : Prop :=
  ∀ pid, lines.filter (fun l => decide (l.pid = pid)) = (calls pid).flatMap Printed.lines

abbrev Flight := Int32 → Option Split

inductive Ordered : Flight → List TraceLine → Prop where
  | done {flight} (landed : ∀ pid, flight pid = none) : Ordered flight []
  | whole {flight c lines} (idle : flight (TraceLine.whole c).pid = none)
      (next : Ordered flight lines) : Ordered flight (.whole c :: lines)
  | unfinished {flight : Flight} {p : Split} {lines} (idle : flight p.pid = none)
      (next : Ordered (Function.update flight p.pid (some p)) lines) :
      Ordered flight (.unfinished p :: lines)
  | resumed {flight : Flight} {p : Split} {lines} (pending : flight p.pid = some p)
      (next : Ordered (Function.update flight p.pid none) lines) :
      Ordered flight (.resumed p :: lines)

def Remains (flight : Flight) (lines : List TraceLine) : Prop :=
  ∃ calls : Int32 → List Printed, ∀ pid, lines.filter (fun l => decide (l.pid = pid)) =
    (flight pid).toList.map TraceLine.resumed ++ (calls pid).flatMap Printed.lines

section Remains
variable {flight : Flight} {l : TraceLine} {lines : List TraceLine}

theorem remainsLeft (calls : Int32 → List Printed) (now : Option Split) (later : List Printed)
    (others : ∀ pid, pid ≠ l.pid → (l :: lines).filter (fun l => decide (l.pid = pid)) =
      (flight pid).toList.map TraceLine.resumed ++ (calls pid).flatMap Printed.lines)
    (own : lines.filter (fun x => decide (x.pid = l.pid)) =
      now.toList.map TraceLine.resumed ++ later.flatMap Printed.lines) :
    Remains (Function.update flight l.pid now) lines := by
  refine ⟨Function.update calls l.pid later,?_⟩
  intro pid
  rcases eq_or_ne pid l.pid with same | other
  · subst same
    rw [Function.update_self,Function.update_self]
    exact own
  · have rest := others pid other
    rw [List.filter_cons_of_neg (by simpa using other.symm)] at rest
    rw [Function.update_of_ne other,Function.update_of_ne other]
    exact rest

theorem remainsSplit (remains : Remains flight (l :: lines)) :
    (∃ c, l = .whole c ∧ flight l.pid = none ∧ Remains flight lines) ∨
    (∃ p, l = .unfinished p ∧ flight l.pid = none ∧
      Remains (Function.update flight l.pid (some p)) lines) ∨
    (∃ p, l = .resumed p ∧ flight l.pid = some p ∧
      Remains (Function.update flight l.pid none) lines) := by
  obtain ⟨calls,split⟩ := remains
  have here := split l.pid
  rw [List.filter_cons_of_pos (by simp)] at here
  have others : ∀ pid, pid ≠ l.pid → (l :: lines).filter (fun l => decide (l.pid = pid)) =
      (flight pid).toList.map TraceLine.resumed ++ (calls pid).flatMap Printed.lines :=
    fun pid _ => split pid
  cases now : flight l.pid with
  | some p =>
    rw [now] at here
    obtain ⟨first,later⟩ := List.cons.inj here
    exact .inr (.inr ⟨p,first,rfl,remainsLeft calls none _ others later⟩)
  | none =>
    rw [now] at here
    cases next : calls l.pid with
    | nil =>
      rw [next] at here
      cases here
    | cons x more =>
      rw [next,List.flatMap_cons] at here
      cases x with
      | once c =>
        obtain ⟨first,later⟩ := List.cons.inj here
        have left := remainsLeft calls none more others later
        have same : Function.update flight l.pid none = flight := by
          rw [← now,Function.update_eq_self]
        exact .inl ⟨c,first,rfl,same ▸ left⟩
      | twice p =>
        obtain ⟨first,later⟩ := List.cons.inj here
        exact .inr (.inl ⟨p,first,rfl,remainsLeft calls (some p) more others later⟩)

end Remains

theorem remainsOrdered {flight : Flight} {lines : List TraceLine} (remains : Remains flight lines) :
    Ordered flight lines := by
  induction lines generalizing flight with
  | nil =>
    obtain ⟨calls,split⟩ := remains
    refine .done fun pid => ?_
    have none := List.append_eq_nil_iff.mp (split pid).symm
    cases here : flight pid with
    | none => rfl
    | some p =>
      rw [here] at none
      cases none.1
  | cons l lines ih =>
    rcases remainsSplit remains with whole | begun | ended
    · obtain ⟨c,rfl,idle,left⟩ := whole
      exact .whole idle (ih left)
    · obtain ⟨p,rfl,idle,left⟩ := begun
      exact .unfinished idle (ih left)
    · obtain ⟨p,rfl,pending,left⟩ := ended
      exact .resumed pending (ih left)

theorem interleavedOrdered {calls : Int32 → List Printed} {lines : List TraceLine}
    (mixed : Interleaved calls lines) : Ordered (fun _ => none) lines :=
  remainsOrdered ⟨calls,mixed⟩

def Eol (eol : Bytes) : Prop := eol = [] ∨ eol = [newline]

structure Proper (c : Call) : Prop where
  named : Named c.name
  unmarked : Unmarked (c.name ++ lparen :: c.text)
  noNul : 0 ∉ c.text

theorem stampHeld (s : Stamp) : ∀ b ∈ s.print [], stampByte b = true := by
  have skipped := stampSkipped s []
  rw [List.dropWhile_nil] at skipped
  exact List.dropWhile_eq_nil_iff.mp skipped

theorem printSplit (s : Stamp) (rest : Bytes) : s.print rest = s.print [] ++ rest := by
  rw [← printFront,List.nil_append]

theorem namedStops {name : Bytes} (named : Named name) : ∀ b ∈ name, stopByte b = true := by
  intro b member
  obtain ⟨paren,space,_⟩ := named.plain b member
  simp [stopByte,paren,space]

theorem namedClean {name : Bytes} (named : Named name) : 0 ∉ name :=
  fun member => (named.plain 0 member).2.2 rfl

theorem namedText {front : Bytes} (stamp : ∀ b ∈ front, stampByte b = true) {name : Bytes}
    (named : Named name) {c : UInt8} (ends : stopByte c = false) (tail : Bytes) :
    operationText (front ++ (name ++ c :: tail)) = name := by
  have next : ∀ b, (name ++ c :: tail).head? = some b → stampByte b = false := by
    intro b first
    rw [List.head?_append_of_ne_nil _ named.some] at first
    have lead := named.lead
    rw [first] at lead
    simpa using lead
  rw [textBehind stamp next,stopsAt ends]
  exact List.takeWhile_eq_self_iff.mpr (namedStops named)

theorem noNulPrinted (s : Stamp) {rest : Bytes} (clean : 0 ∉ rest) : 0 ∉ s.print rest := by
  rw [printSplit]
  intro member
  rcases List.mem_append.mp member with front | back
  · exact absurd (stampHeld s 0 front) (by decide)
  · exact clean back

theorem cstrClean {s : Bytes} (clean : 0 ∉ s) : cstr s = s :=
  List.takeWhile_eq_self_iff.mpr fun _ member =>
    decide_eq_true fun same => clean (same ▸ member)

section Texts
variable {eol : Bytes} (ends : Eol eol)
include ends

theorem eolClean : 0 ∉ eol := by
  rcases ends with none | line
  · rw [none]
    exact List.not_mem_nil
  · rw [line]
    decide

theorem eolUnmarked {s : Bytes} (unmarked : Unmarked s) : Unmarked (s ++ eol) := by
  rcases ends with none | line
  · rw [none,List.append_nil]
    exact unmarked
  · rw [line,unmarkedJoin (by decide)]
    exact ⟨unmarked,by decide⟩

variable {c : Call} (proper : Proper c)
include proper

theorem callUnmarked : Unmarked (c.print eol) := by
  have joined := eolUnmarked ends proper.unmarked
  rw [List.append_assoc,List.cons_append] at joined
  rw [Call.print,stampUnmarked]
  exact joined

theorem callClean : 0 ∉ c.print eol := by
  refine noNulPrinted _ ?_
  simp only [List.mem_append,List.mem_cons,not_or]
  exact ⟨namedClean proper.named,by decide,proper.noNul,eolClean ends⟩

end Texts

theorem callNamed {c : Call} (named : Named c.name) (eol : Bytes) :
    operationText (c.print eol) = c.name := by
  rw [Call.print,printSplit]
  exact namedText (stampHeld _) named rfl _

def Split.entry (p : Split) (eol : Bytes) : Option Isyscall :=
  if operationCode p.call.name = .unknown then none else some ⟨p.pid,p.unfinished eol⟩

structure InFlight (eol : Bytes) (flight : Flight) (st : StraceState) : Prop where
  tables : Tables st
  keyed : HashTable.Keyed htOpsIsyscall Isyscall.pid st.ht
  found : ∀ pid, 0 ≤ pid →
    st.ht.find htOpsIsyscall pid = some ((flight pid).bind fun p => p.entry eol)

theorem stampPid (s : Stamp) : 0 ≤ Int32.ofNat s.pid := by
  have value : (Int32.ofNat s.pid).toInt = s.pid := Int32.toInt_ofNat_of_lt s.pidFits
  rw [Int32.le_iff_toInt_le,value]
  exact Int.natCast_nonneg _

theorem inFlightInit (eol : Bytes) (list : List OpItem) :
    InFlight eol (fun _ => none) (straceInit list) where
  tables := (pendingInit list).tables
  keyed := (pendingInit list).keyed
  found := fun pid real => by
    have hashed := (HashTable.chainKey htOpsIsyscall rfl (pendingInit list).tables.ht).mpr real
    obtain ⟨c,chain⟩ := Option.isSome_iff_exists.mp hashed
    rw [HashTable.find,chain]
    rfl

theorem InFlight.same {eol : Bytes} {flight : Flight} {st t : StraceState}
    (holds : InFlight eol flight st) (same : t.ht = st.ht) (tables : Tables t) :
    InFlight eol flight t :=
  ⟨tables,same ▸ holds.keyed,same ▸ holds.found⟩

theorem InFlight.landed {eol : Bytes} {flight : Flight} {st : StraceState}
    (holds : InFlight eol flight st) (landed : ∀ pid, flight pid = none) : st.ht.items = [] := by
  refine List.eq_nil_iff_forall_not_mem.mpr fun e member => ?_
  have here := holds.keyed.finds member
  obtain ⟨_,hashed,_⟩ := Option.map_eq_some_iff.mp here
  have real := (HashTable.chainKey htOpsIsyscall rfl holds.tables.ht).mp (by rw [hashed]; rfl)
  rw [holds.found e.pid real,landed] at here
  cases here

section Code
variable {line name : Bytes} (text : operationText line = name) (clean : 0 ∉ name)
  (fits : name.length < MAX_STRING) {st : StraceState}
include text clean fits

theorem namedSilent : straceGetOperationCode false line st = .ok (operationCode name,st) := by
  obtain ⟨own,named,bytes⟩ := toNameShort fits clean
  rw [← bytes]
  exact codeSilent (text ▸ named)

theorem namedCode {stats : Bool} (short : stats = true → name.length < MAX_OPERATION)
    (tables : Tables st) :
    ∃ t, straceGetOperationCode stats line st = .ok (operationCode name,t) ∧ SameCalls st t ∧
      Tables t := by
  obtain ⟨own,named,bytes⟩ := toNameShort fits clean
  rw [← bytes]
  refine codeTold (text ▸ named) tables fun on _ other told _ => ?_
  rw [text,named] at told
  rw [← Except.ok.inj told,bytes]
  exact short on

end Code

theorem nameInside (s : Stamp) (name rest : Bytes) :
    name.length ≤ (s.print (name ++ rest)).length := by
  rw [printFront,printSplit,List.length_append,List.length_append]
  omega

theorem unmarkedInside {s t : Bytes} (inside : s <:+: t) (unmarked : Unmarked t) : Unmarked s :=
  ⟨fun word => unmarked.1 (word.trans inside),fun word => unmarked.2 (word.trans inside)⟩

def Split.front (p : Split) : Bytes := p.call.start.print (p.call.name ++ lparen :: p.first)

theorem unfinishedFront (p : Split) (eol : Bytes) :
    p.unfinished eol = p.front ++ (unfinishedMark ++ eol) := by
  rw [Split.front,← printFront,List.append_assoc,List.cons_append]
  rfl

theorem frontJoined (p : Split) (eol : Bytes) :
    p.front ++ (p.rest ++ eol) = p.call.print eol := by
  have whole : p.first ++ p.rest = p.call.text := List.take_append_drop _ _
  rw [Split.front,← printFront,Call.print,List.append_assoc,List.cons_append,← whole,
    List.append_assoc]

def Split.second (p : Split) (c : UInt8) (eol : Bytes) : Bytes :=
  p.again.print [] ++ ascii "<... " ++ (p.call.name ++ c :: (resumedMark ++ (p.rest ++ eol)))

theorem resumedSecond (p : Split) (eol : Bytes) : p.resumed eol = p.second blank eol := by
  rw [Split.resumed,printSplit,Split.second,List.append_assoc]

theorem secondPid (p : Split) (c : UInt8) (eol : Bytes) :
    linePid (p.second c eol) = some p.pid := by
  have printed : p.second c eol = p.again.print
      (ascii "<... " ++ (p.call.name ++ c :: (resumedMark ++ (p.rest ++ eol)))) := by
    rw [printSplit,Split.second,List.append_assoc]
  rw [printed,pidPrinted,p.own]
  rfl

section Names
variable {p : Split} (named : Named p.call.name) (eol : Bytes)
include named

theorem unfinishedText : operationText (p.unfinished eol) = p.call.name := by
  rw [Split.unfinished,printSplit]
  exact namedText (stampHeld _) named rfl _

theorem secondText {c : UInt8} (stop : stopByte c = false) :
    operationText (p.second c eol) = p.call.name := by
  have stamp : ∀ b ∈ p.again.print [] ++ ascii "<... ", stampByte b = true := by
    intro b member
    rcases List.mem_append.mp member with first | marker
    · exact stampHeld _ b first
    · exact (by decide +kernel : ∀ b ∈ ascii "<... ", stampByte b = true) b marker
  exact namedText stamp named stop _

theorem resumedText : operationText (p.resumed eol) = p.call.name := by
  rw [resumedSecond]
  exact secondText named eol rfl

end Names

theorem unfinishedMarked (p : Split) (eol : Bytes) : unfinishedWord <:+: p.unfinished eol := by
  have word : unfinishedWord <:+: unfinishedMark := ⟨ascii " <",ascii " ...>",rfl⟩
  rw [unfinishedFront]
  exact word.trans ⟨p.front,eol,by rw [List.append_assoc]⟩

section Parts
variable {eol : Bytes} {p : Split} (proper : Proper p.call)
include proper

theorem frontUnmarked : Unmarked p.front := by
  obtain ⟨name,text⟩ := (unmarkedJoin (by decide)).mp proper.unmarked
  rw [Split.front,stampUnmarked,unmarkedJoin (by decide)]
  exact ⟨name,unmarkedInside (List.take_prefix _ _).isInfix text⟩

theorem restUnmarked : Unmarked p.rest :=
  unmarkedInside (List.drop_suffix _ _).isInfix
    ((unmarkedJoin (by decide)).mp proper.unmarked).2

theorem unfinishedCut : strstr unfinishedMark (p.unfinished eol) = some p.front.length := by
  have absent : ¬ ascii "<unfinished" <:+: p.front := fun inside =>
    (frontUnmarked proper).1 (List.IsInfix.trans ⟨ascii "<",[],rfl⟩ inside)
  have mark : unfinishedMark = blank :: (ascii "<unfinished" ++ ascii " ...>") := rfl
  rw [unfinishedFront,← List.append_assoc,mark]
  exact Lib.strstrOwn (by decide) absent eol

theorem unfinishedFresh (ends : Eol eol) : strstr resumedWord (p.unfinished eol) = none := by
  have mark : unfinishedMark ++ eol = blank :: (ascii "<unfinished ...>" ++ eol) := rfl
  have absent : ¬ resumedWord <:+: p.unfinished eol := by
    rw [unfinishedFront,mark,Lib.infixApart (by decide)]
    intro either
    rcases either with front | back
    · exact (frontUnmarked proper).2 front
    · rcases ends with none | line
      · rw [none] at back
        exact absurd back (by decide)
      · rw [line] at back
        exact absurd back (by decide)
  rw [← Lib.strstrInfix,Option.not_isSome_iff_eq_none] at absent
  exact absent

theorem unfinishedClean (ends : Eol eol) : 0 ∉ p.unfinished eol := by
  refine noNulPrinted _ ?_
  simp only [List.mem_append,List.mem_cons,not_or]
  exact ⟨namedClean proper.named,by decide,fun member => proper.noNul (List.mem_of_mem_take member),
    by decide,eolClean ends⟩

theorem resumedClean (ends : Eol eol) : 0 ∉ p.resumed eol := by
  refine noNulPrinted _ ?_
  simp only [List.mem_append,List.mem_cons,not_or]
  exact ⟨by decide,namedClean proper.named,by decide,by decide,
    fun member => proper.noNul (List.mem_of_mem_drop member),eolClean ends⟩

theorem unfinishedBegins (ends : Eol eol) {flight : Flight} {st t : StraceState}
    (holds : InFlight eol flight st) (idle : flight p.pid = none)
    (short : (p.unfinished eol).length < MAX_STRING) {stats : Bool}
    (code : straceGetOperationCode stats (p.unfinished eol) st =
      .ok (operationCode p.call.name,t)) (same : SameCalls st t) (tables : Tables t) :
    ∃ ht, straceProcessLine stats (p.unfinished eol) st = .ok (0,{ t with ht }) ∧
      InFlight eol (Function.update flight p.pid (some p)) { t with ht } := by
  have here : InFlight eol flight t := holds.same same.2 tables
  rcases eq_or_ne (operationCode p.call.name) .unknown with foreign | known
  · have entry : p.entry eol = none := if_pos foreign
    refine ⟨t.ht,?_,tables,here.keyed,?_⟩
    · rw [straceProcessLine,processSwitch _ code (fun _ => foreign)
        (.inl (unfinishedFresh proper ends)),foreign]
      rfl
    · intro pid real
      rcases eq_or_ne pid p.pid with own | other
      · subst own
        rw [here.found _ real,idle,Function.update_self,Option.bind_some,entry]
        rfl
      · rw [here.found _ real,Function.update_of_ne other]
  · have entry : p.entry eol = some ⟨p.pid,p.unfinished eol⟩ := if_neg known
    have told : linePid (p.unfinished eol) = some p.pid := pidPrinted _ _
    have whole : (p.unfinished eol).take MAX_STRING = p.unfinished eol :=
      List.take_of_length_le (Nat.le_of_lt short)
    have absent : t.ht.find htOpsIsyscall p.pid = some none := by
      rw [here.found p.pid (stampPid _),idle]
      rfl
    obtain ⟨ht,inserted,stored⟩ := unfinishedStored told absent
    rw [whole] at inserted
    refine ⟨ht,?_,⟨HashTable.insertEntries inserted ▸ tables.ht,tables.stats⟩,
      here.keyed.insert absent rfl inserted,?_⟩
    · rw [straceProcessLine,processUnfinished _ code (unfinishedMarked p eol) known,
        Prog.bindOf stored]
      rfl
    · intro pid real
      rcases eq_or_ne pid p.pid with own | other
      · subst own
        rw [HashTable.findInsert (decide_eq_true rfl) inserted,absent,Function.update_self,
          Option.bind_some,entry]
        rfl
      · have apart : ¬ htOpsIsyscall.compare pid ⟨p.pid,p.unfinished eol⟩ = true := fun match_ =>
          other ((isyscallAgrees pid _).mp match_).symm
        rw [HashTable.findInsertOther apart inserted,here.found _ real,Function.update_of_ne other]

theorem nameUnmarked : Unmarked p.call.name := ((unmarkedJoin (by decide)).mp proper.unmarked).1

theorem resumedFresh (ends : Eol eol) : ¬ unfinishedWord <:+: p.resumed eol := by
  have mark : resumedMark ++ (p.rest ++ eol) = ascii "resumed>" ++ blank :: (p.rest ++ eol) := rfl
  have front : ¬ unfinishedWord <:+: ascii "resumed>" := by decide
  rw [resumedSecond,Split.second,resumedPlain (stampHeld _) (nameUnmarked proper),mark,
    Lib.infixApart (by decide)]
  intro either
  rcases either with marker | back
  · exact front marker
  · exact (eolUnmarked ends (restUnmarked proper)).1 back

theorem resumedAgain (eol : Bytes) : ∃ n, strstr resumedWord (p.resumed eol) = some (n + 1) ∧
    (p.resumed eol).set n lparen = p.second lparen eol := by
  have mark : resumedMark ++ (p.rest ++ eol) = resumedWord ++ (ascii "> " ++ (p.rest ++ eol)) := rfl
  refine ⟨(p.again.print [] ++ ascii "<... " ++ p.call.name).length,?_,?_⟩
  · rw [resumedSecond,Split.second,mark]
    exact resumedOccurs (stampHeld _) (nameUnmarked proper) _
  · rw [resumedSecond,Split.second,Split.second,← List.append_assoc,
      List.set_append_right _ _ (Nat.le_refl _),Nat.sub_self,List.set_cons_zero,List.append_assoc]

theorem secondMarked (eol : Bytes) : ∃ r, strstr resumedMark (p.second lparen eol) = some r ∧
    resumedRest (p.second lparen eol) r = (p.rest ++ eol).take (2 * MAX_STRING) := by
  have here : strstr resumedMark (resumedMark ++ (p.rest ++ eol)) = some 0 := by
    unfold resumedMark
    rfl
  have found := resumedMarked (stampHeld p.again) (nameUnmarked proper)
    (resumedMark ++ (p.rest ++ eol))
  rw [here,Option.map_some] at found
  have behind := restBehind (p.again.print [] ++ ascii "<... " ++ p.call.name) lparen
    (resumedMark ++ (p.rest ++ eol)) 0
  rw [List.append_assoc (p.again.print [] ++ ascii "<... ")] at behind
  refine ⟨_,found,behind.trans ?_⟩
  rw [resumedRest,Nat.zero_add,List.drop_left]

theorem resumedLands (ends : Eol eol) {flight : Flight} {st t : StraceState}
    (holds : InFlight eol flight st) (pending : flight p.pid = some p)
    (first : (p.unfinished eol).length < MAX_STRING)
    (second : (p.resumed eol).length < MAX_STRING) {stats : Bool}
    (code : straceGetOperationCode stats (p.resumed eol) st =
      .ok (operationCode p.call.name,t)) (same : SameCalls st t) (tables : Tables t) :
    ∃ ht, InFlight eol (Function.update flight p.pid none) { t with ht } ∧
      straceProcessLine stats (p.resumed eol) st =
        (straceSwitch (operationCode p.call.name) (p.call.print eol) >>= fun _ => pure 0)
          { t with ht } := by
  have here : InFlight eol flight t := holds.same same.2 tables
  have fits : p.call.name.length < MAX_STRING :=
    Nat.lt_of_le_of_lt (nameInside _ _ _) first
  have clean := namedClean proper.named
  obtain ⟨n,occurs,again⟩ := resumedAgain proper eol
  have silent (st : StraceState) : straceGetOperationCode false (p.second lparen eol) st =
      .ok (operationCode p.call.name,st) := namedSilent (secondText proper.named eol rfl) clean fits
  have plain : unfinishedWord <:+: p.resumed eol → operationCode p.call.name = .unknown :=
    fun marked => absurd marked (resumedFresh proper ends)
  rcases eq_or_ne (operationCode p.call.name) .unknown with foreign | known
  · have entry : p.entry eol = none := if_pos foreign
    refine ⟨t.ht,⟨tables,here.keyed,?_⟩,?_⟩
    · intro pid real
      rcases eq_or_ne pid p.pid with own | other
      · subst own
        rw [here.found _ real,pending,Function.update_self,Option.bind_some,entry]
        rfl
      · rw [here.found _ real,Function.update_of_ne other]
    · rw [straceProcessLine,processForeign _ code plain occurs (again ▸ silent t) foreign,foreign]
      rfl
  · have entry : p.entry eol = some ⟨p.pid,p.unfinished eol⟩ := if_neg known
    have found : t.ht.find htOpsIsyscall p.pid = some (some ⟨p.pid,p.unfinished eol⟩) := by
      rw [here.found p.pid (stampPid _),pending,Option.bind_some,entry]
    obtain ⟨r,marked,rest⟩ := secondMarked proper eol
    have size : (p.rest ++ eol).length ≤ (p.resumed eol).length := by
      have whole : p.resumed eol = p.again.print [] ++ ascii "<... " ++
          (p.call.name ++ blank :: resumedMark) ++ (p.rest ++ eol) := by
        rw [resumedSecond,Split.second]
        simp only [List.append_assoc,List.cons_append]
      rw [whole]
      exact (List.suffix_append _ _).length_le
    have left : p.front.length ≤ (p.unfinished eol).length := by
      rw [unfinishedFront]
      exact (List.prefix_append _ _).length_le
    have copied : resumedRest (p.second lparen eol) r = p.rest ++ eol :=
      rest.trans (List.take_of_length_le (by omega))
    obtain ⟨cutTable,ht,modified,removed,merge⟩ := resumedMerge (secondPid p lparen eol) found first
      (unfinishedCut proper) marked (by rw [copied]; omega)
    obtain ⟨keyed,absent,others⟩ := mergedTable here.keyed modified removed
    refine ⟨ht,⟨⟨?_,tables.stats⟩,keyed,?_⟩,?_⟩
    · exact HashTable.removeEntries removed ▸ HashTable.modifyEntries modified ▸ tables.ht
    · intro pid real
      rcases eq_or_ne pid p.pid with own | other
      · subst own
        rw [Function.update_self]
        exact absent
      · rw [Function.update_of_ne other,← here.found pid real]
        exact others pid other
    · obtain ⟨fuel,enough⟩ : ∃ fuel, st.ht.items.length = fuel + 1 :=
        ⟨st.ht.items.length - 1,by
          have some := List.length_pos_of_mem (HashTable.findMem (same.2 ▸ found)).1
          omega⟩
      have cut : (p.unfinished eol).take p.front.length = p.front := by
        rw [unfinishedFront,List.take_left]
      have whole : straceGetOperationCode false (p.call.print eol) { t with ht } =
          .ok (operationCode p.call.name,{ t with ht }) :=
        namedSilent (callNamed proper.named eol) clean fits
      rw [straceProcessLine,processResumed _ code plain occurs (again ▸ silent t) known,again,
        enough,Prog.bindRun,merge,cut,copied,frontJoined,Prog.bindRun,
        processPlain (callUnmarked ends proper) fuel false whole,Prog.bindRun]
      cases straceSwitch (operationCode p.call.name) (p.call.print eol) { t with ht } <;> rfl

end Parts

end IoApps.Strace
