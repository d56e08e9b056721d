import IoApps.StracePaths

/-! Which names come through a line: the words of split calls in a name, quoting, and the modes. -/
namespace IoApps.Strace
open Lib (Bytes Prog ascii strstr numeral digitByte)

theorem scannedPath {path : Bytes} (clean : quote ∉ path) (rest : Bytes) :
    scannedName (path ++ quote :: rest) = path.take MAX_STRING := by
  have run : (path ++ quote :: rest).takeWhile (· != quote) = path :=
    Lib.takeWhileBreak (Lib.runStops clean) fun c first => by
      cases first
      rfl
  rw [scannedName,run]

theorem scannedShort {path : Bytes} (clean : quote ∉ path) {rest : Bytes} {name : CName}
    (named : toName (scannedName (path ++ quote :: rest)) = .ok name) :
    path.length < MAX_STRING ∧ toName path = .ok name := by
  rw [scannedPath clean] at named
  have fits := (toNameOk named).1
  rw [List.length_take] at fits
  have short : path.length < MAX_STRING := by omega
  rw [List.take_of_length_le (Nat.le_of_lt short)] at named
  exact ⟨short,named⟩

theorem switchGrown {c : OpType} {line : Bytes} {st st' : StraceState} {r : Int} {i : OpItem}
    (ran : straceSwitch c line st = .ok (r,st')) (grown : st'.list = st.list ++ [i]) :
    ∃ o, straceRead c line = .ok (.item o) ∧ o.item = i := by
  cases read : straceRead c line with
  | error fault =>
    rw [straceSwitch,Prog.bindRun,read] at ran
    cases ran
  | ok found =>
    cases found with
    | item o =>
      rw [switchItem read] at ran
      cases ran
      have last := List.append_cancel_left grown
      exact ⟨o,rfl,(List.cons.inj last).1⟩
    | failed =>
      rw [straceSwitch,Prog.bindRun,read] at ran
      cases ran
      exact absurd (congrArg List.length grown) (by simp)
    | skipped =>
      rw [straceSwitch,Prog.bindRun,read] at ran
      cases ran
      exact absurd (congrArg List.length grown) (by simp)

theorem grownOther {α : Type} {l l' : List α} {a : α} (grown : l' = l ++ [a]) : l' ≠ l := by
  intro same
  rw [same] at grown
  exact absurd (congrArg List.length grown) (by simp)

theorem resumedLater (s : Stamp) (rest : Bytes) :
    strstr resumedWord (s.print rest) ≠ some 0 := by
  intro front
  have text := Lib.strstrFound front
  have first := congrArg List.head? text
  obtain ⟨c,more,digits⟩ := List.exists_cons_of_ne_nil (Lib.numeralSome 10 s.pid)
  have digit : Lib.isDigit 10 c = true :=
    Lib.numeralDigits (by decide) (by decide) s.pid c (by rw [digits]; exact List.mem_cons_self)
  rw [Stamp.print,digits] at first
  have same : c = 0x72 := Option.some.inj first
  rw [same] at digit
  exact absurd digit (by decide)

section Line
variable {c : PathCall} {s : Stamp} {path : Bytes} {r : Result} {tail : Bytes}
  {st st' : StraceState} {stats : Bool}

theorem lineCode (tables : Tables st) : ∃ t,
    straceGetOperationCode stats (c.line s path r tail) st = .ok (c.code,t) ∧ SameCalls st t ∧
      Tables t := by
  have real := (pathCallable c).1
  have named : toName (operationText (c.line s path r tail)) = .ok real.name := by
    rw [PathCall.line,operationPrinted s real (.inl rfl)]
    exact nameCallable real
  obtain ⟨t,code,same,still⟩ := codeRun named tables real.short stats
  have told : operationCode real.name.bytes = c.code := pathCode c
  exact ⟨t,told ▸ code,same,still⟩

theorem unmarkedLine {line : Bytes} (unfinished : ¬ unfinishedWord <:+: line)
    (resumed : strstr resumedWord line = none) : Unmarked line := by
  refine ⟨unfinished,?_⟩
  rw [← Lib.strstrInfix,resumed]
  simp

theorem lineWays (tables : Tables st) (real : c.Dispatched) {ret : Int} {i : OpItem}
    (ran : straceProcessLine stats (c.line s path r tail) st = .ok (ret,st'))
    (grown : st'.list = st.list ++ [i]) :
    ¬ unfinishedWord <:+: c.line s path r tail ∧
      ((∃ n, strstr resumedWord (c.line s path r tail) = some (n + 1)) ∨
        strstr resumedWord (c.line s path r tail) = none ∧
          ∃ o, straceRead c.code (c.line s path r tail) = .ok (.item o) ∧ o.item = i) := by
  obtain ⟨t,code,same,_⟩ : ∃ t, straceGetOperationCode stats (c.line s path r tail) st =
    .ok (c.code,t) ∧ SameCalls st t ∧ Tables t := lineCode tables
  have known : c.code ≠ .unknown := pathKnown real
  rw [straceProcessLine] at ran
  have unfinished : ¬ unfinishedWord <:+: c.line s path r tail := by
    intro marked
    rw [processUnfinished _ code marked known] at ran
    obtain ⟨_,t',stored,last⟩ := Prog.bindOk.mp ran
    cases last
    exact grownOther grown ((unfinishedKeeps stored).trans same.1)
  refine ⟨unfinished,?_⟩
  have plain : unfinishedWord <:+: c.line s path r tail → c.code = .unknown := fun marked =>
    absurd marked unfinished
  cases occurs : strstr resumedWord (c.line s path r tail) with
  | none =>
    rw [processSwitch _ code plain (.inl occurs)] at ran
    exact .inr ⟨rfl,switchGrown ran (by rw [grown,same.1])⟩
  | some n =>
    cases n with
    | zero => exact absurd occurs (resumedLater s _)
    | succ n => exact .inl ⟨n,rfl⟩

theorem lineDirect (tables : Tables st) (real : c.Dispatched) {ret : Int} {i : OpItem}
    (ran : straceProcessLine stats (c.line s path r tail) st = .ok (ret,st'))
    (grown : st'.list = st.list ++ [i]) (still : st'.ht = st.ht) :
    Unmarked (c.line s path r tail) ∧
      ∃ o, straceRead c.code (c.line s path r tail) = .ok (.item o) ∧ o.item = i := by
  obtain ⟨unfinished,ways⟩ := lineWays tables real ran grown
  rcases ways with merged | direct
  · obtain ⟨n,occurs⟩ := merged
    obtain ⟨t,code,same,_⟩ : ∃ t, straceGetOperationCode stats (c.line s path r tail) st =
      .ok (c.code,t) ∧ SameCalls st t ∧ Tables t := lineCode tables
    have less := resumedLess _ (processShrinks _) code (fun marked => absurd marked unfinished)
      occurs ran (by rw [same.1]; exact grownOther grown)
    rw [still,same.2] at less
    exact absurd less (Nat.lt_irrefl _)
  · exact ⟨unmarkedLine unfinished direct.1,direct.2⟩

theorem lineAlone (tables : Tables st) (real : c.Dispatched)
    (idle : st.ht.find htOpsIsyscall (Int32.ofNat s.pid) = some none) {ret : Int} {i : OpItem}
    (ran : straceProcessLine stats (c.line s path r tail) st = .ok (ret,st'))
    (grown : st'.list = st.list ++ [i]) : Unmarked (c.line s path r tail) ∧
      ∃ o, straceRead c.code (c.line s path r tail) = .ok (.item o) ∧ o.item = i := by
  obtain ⟨unfinished,ways⟩ := lineWays tables real ran grown
  rcases ways with merged | direct
  · obtain ⟨n,occurs⟩ := merged
    obtain ⟨t,code,same,_⟩ : ∃ t, straceGetOperationCode stats (c.line s path r tail) st =
      .ok (c.code,t) ∧ SameCalls st t ∧ Tables t := lineCode tables
    obtain ⟨text,patched⟩ := callPatched s (pathCallable c).2.2 occurs
    have own := (pathCallable c).1
    have named : toName (operationText ((c.line s path r tail).set n lparen)) = .ok own.name := by
      rw [PathCall.line,patched,operationPrinted s own (.inl rfl)]
      exact nameCallable own
    have told : straceGetOperationCode false ((c.line s path r tail).set n lparen) t =
        .ok (operationCode own.name.bytes,t) := codeSilent named
    have known : operationCode own.name.bytes ≠ .unknown := by
      change operationCode c.name ≠ .unknown
      rw [pathCode]
      exact pathKnown real
    have pid : linePid ((c.line s path r tail).set n lparen) = some (Int32.ofNat s.pid) := by
      rw [PathCall.line,patched]
      exact pidPrinted s _
    rw [straceProcessLine,processResumed _ code (fun marked => absurd marked unfinished) occurs told
      known,Prog.bindOf (resumedNone pid (by rw [same.2]; exact idle) _)] at ran
    cases ran
    exact absurd (grown.trans (by rw [← same.1])) (fun same => grownOther same rfl)
  · exact ⟨unmarkedLine unfinished direct.1,direct.2⟩

end Line

def Denoted (c : PathCall) (s : Stamp) (path : Bytes) (r : Result) (tail : Bytes) (stats : Bool)
    (st : StraceState) : Prop :=
  ∃ ret name st', straceProcessLine stats (c.line s path r tail) st = .ok (ret,st') ∧
    name.bytes = path ∧ st'.list = st.list ++ [(c.item s name r).item] ∧ st'.ht = st.ht

def Plain (path : Bytes) : Prop :=
  ∀ b ∈ path, 0x20 ≤ b ∧ b ≤ 0x7e ∧ b ≠ quote ∧ b ≠ backslash

instance (path : Bytes) : Decidable (Plain path) :=
  inferInstanceAs (Decidable (∀ b ∈ path, 0x20 ≤ b ∧ b ≤ 0x7e ∧ b ≠ quote ∧ b ≠ backslash))

theorem Plain.clean {path : Bytes} (plain : Plain path) : quote ∉ path ∧ 0 ∉ path :=
  ⟨fun member => (plain quote member).2.2.1 rfl,
    fun member => absurd (plain 0 member).1 (by decide)⟩

def Ending (tail : Bytes) : Prop := tail = [] ∨ tail = [newline]

theorem Ending.plain {tail : Bytes} (ends : Ending tail) :
    comma ∉ tail ∧ tail.length ≤ 1 ∧ Unmarked tail := by
  rcases ends with none | one
  · subst none
    decide
  · subst one
    decide

section Complete
variable {c : PathCall} {s : Stamp} {path : Bytes} {r : Result} {tail : Bytes}
  {st : StraceState} {stats : Bool} (real : c.Dispatched) (ends : Ending tail)
  (tables : Tables st)
include real ends tables

theorem lineItem (some : path ≠ []) (clean : quote ∉ path) (fits : path.length < MAX_STRING)
    (unmarked : Unmarked path) {name : CName} (named : toName path = .ok name) :
    ∃ st', straceProcessLine stats (c.line s path r tail) st = .ok (0,st') ∧
      st'.list = st.list ++ [(c.readItem s name r).item] ∧ st'.ht = st.ht := by
  obtain ⟨comma,short,plain⟩ := ends.plain
  obtain ⟨st',ran,grown,still,_⟩ := itemRun (pathCallable c).1 rfl
    ((lineUnmarked c s path r plain).mpr unmarked)
    (pathRead real some clean fits named comma short) tables stats
  exact ⟨st',ran,grown,still⟩

theorem denotedIff (plain : Plain path) : Denoted c s path r tail stats st ↔
    path ≠ [] ∧ path.length < MAX_STRING ∧ Unmarked path ∧ c.Decimal := by
  obtain ⟨clean,noNul⟩ := plain.clean
  obtain ⟨comma,short,unmarkedTail⟩ := ends.plain
  constructor
  · intro denoted
    obtain ⟨ret,name,st',ran,bytes,grown,still⟩ := denoted
    obtain ⟨unmarked,o,read,same⟩ := lineDirect tables real ran grown still
    have made := itemInjective same
    obtain ⟨told,own,named,begun⟩ := pathNamed c rfl read
    obtain ⟨fits,named⟩ := scannedShort clean named
    have some : path ≠ [] := by
      rw [scannedPath clean] at begun
      exact fun empty => begun (by rw [empty]; rfl)
    refine ⟨some,fits,(lineUnmarked c s path r unmarkedTail).mp unmarked,?_⟩
    have reread := pathRead (s := s) (r := r) real some clean fits named comma short
    rw [pathCode,read] at reread
    cases reread
    have one : told = name := nameOf (((toNameOk named).2 noNul).trans bytes.symm)
    rw [one] at made
    exact (readItemSame c s name r).mp made
  · intro holds
    obtain ⟨some,fits,unmarked,decimal⟩ := holds
    obtain ⟨name,named,bytes⟩ := toNameShort fits noNul
    obtain ⟨st',ran,grown,still⟩ : ∃ st', straceProcessLine stats (c.line s path r tail) st =
        .ok (0,st') ∧ st'.list = st.list ++ [(c.readItem s name r).item] ∧ st'.ht = st.ht :=
      lineItem real ends tables some clean fits unmarked named
    rw [(readItemSame c s name r).mpr decimal] at grown
    exact ⟨0,name,st',ran,bytes,grown,still⟩

end Complete

def someStamp : Stamp := ⟨7,0,1,500000,by decide,by decide,by decide⟩

def someResult : Result where
  pad := 0
  retval := 0
  note := []
  sec := 0
  usec := 30
  noteLead := nofun
  notePlain := nofun
  noteUnmarked := by decide
  padFits := by decide
  retvalFits := by decide
  noteFits := by decide
  secFits := by decide
  usecFits := by decide

def readOnly : FlagSet openFlags :=
  ⟨[(ascii "O_RDONLY",O_RDONLY)],by decide,by decide +kernel,by decide⟩

theorem initTables (list : List OpItem) : Tables (straceInit list) :=
  ⟨(by decide : 0 < HASH_TABLE_SIZE),(by decide : 0 < HASH_TABLE_SIZE)⟩

theorem denotedOpen : Denoted (.open readOnly none) someStamp (ascii "/tmp/x") someResult [newline]
    false (straceInit []) :=
  (denotedIff (by exact nofun) (.inr rfl) (initTables []) (by decide +kernel)).mpr
    ⟨by decide,by decide +kernel,by decide +kernel,trivial⟩

theorem wordsDisguise : ¬ Denoted (.open readOnly none) someStamp (ascii "/tmp/unfinished")
      someResult [newline] false (straceInit []) ∧
    ¬ Denoted (.open readOnly none) someStamp (ascii "/tmp/resumed") someResult [newline] false
      (straceInit []) := by
  have lost : ∀ path ∈ [ascii "/tmp/unfinished",ascii "/tmp/resumed"],
      (straceProcessLine false ((PathCall.open readOnly none).line someStamp path someResult
        [newline]) (straceInit [])).map (·.2.list.length) = .ok 0 := by
    decide +kernel
  have never {path : Bytes} (none : (straceProcessLine false ((PathCall.open readOnly none).line
      someStamp path someResult [newline]) (straceInit [])).map (·.2.list.length) = .ok 0) :
      ¬ Denoted (.open readOnly .none) someStamp path someResult [newline] false
        (straceInit []) := by
    intro denoted
    obtain ⟨ret,name,st',ran,_,grown,_⟩ := denoted
    rw [ran] at none
    have size : st'.list.length = 0 := Except.ok.inj none
    rw [grown] at size
    exact absurd size (by simp)
  exact ⟨never (lost _ (by simp)),never (lost _ (by simp))⟩

def escapeLetter : UInt8 → Option UInt8
  | 9 => some 0x74
  | 10 => some 0x6e
  | 11 => some 0x76
  | 12 => some 0x66
  | 13 => some 0x72
  | _ => none

def octalText (c : UInt8) (next : Option UInt8) : Bytes :=
  if next.any (Lib.isDigit 10) then
    [digitByte (c.toNat / 64),digitByte (c.toNat / 8 % 8),digitByte (c.toNat % 8)]
  else numeral 8 c.toNat

def quotedByte (c : UInt8) (next : Option UInt8) : Bytes :=
  if c = quote ∨ c = backslash then [backslash,c]
  else
    match escapeLetter c with
    | some letter => [backslash,letter]
    | none => if 0x20 ≤ c ∧ c ≤ 0x7e then [c] else backslash :: octalText c next

def quotedPath : Bytes → Bytes
  | [] => []
  | c :: path => quotedByte c path.head? ++ quotedPath path

theorem quotedPlain {path : Bytes} (plain : Plain path) : quotedPath path = path := by
  induction path with
  | nil => rfl
  | cons c path ih =>
    obtain ⟨low,high,noQuote,noBack⟩ := plain c List.mem_cons_self
    have letter : escapeLetter c = none := by
      have all : ∀ c : UInt8, 0x20 ≤ c → escapeLetter c = none := Lib.everyByte (by decide +kernel)
      exact all c low
    have later := ih fun b member => plain b (List.mem_cons_of_mem c member)
    rw [quotedPath,later,quotedByte,if_neg (fun either => either.elim noQuote noBack),letter]
    simp only [if_pos (And.intro low high)]
    rfl

theorem octalSome (c : UInt8) (next : Option UInt8) : octalText c next ≠ [] := by
  unfold octalText
  split
  · exact List.cons_ne_nil _ _
  · exact Lib.numeralSome 8 _

theorem octalDigits (c : UInt8) (next : Option UInt8) :
    ∀ b ∈ octalText c next, Lib.isDigit 10 b = true := by
  have digit {d : Nat} (small : d < 10) : Lib.isDigit 10 (digitByte d) = true := by
    rw [Lib.isDigit,Lib.digitByteVal small]
    exact decide_eq_true small
  have bound := c.toNat_lt
  unfold octalText
  split
  · intro b member
    rcases List.mem_cons.mp member with first | rest
    · exact first ▸ digit (by omega)
    · rcases List.mem_cons.mp rest with second | last
      · exact second ▸ digit (by omega)
      · exact List.mem_singleton.mp last ▸ digit (by omega)
  · intro b member
    exact octalDigit (Lib.numeralDigits (by decide) (by decide) _ b member)

theorem octalLength (c : UInt8) (next : Option UInt8) : (octalText c next).length ≤ 3 := by
  have all : ∀ c : UInt8, (numeral 8 c.toNat).length ≤ 3 := Lib.everyByte (by decide +kernel)
  unfold octalText
  split
  · exact Nat.le_refl 3
  · exact all c

theorem quotedByteLength (c : UInt8) (next : Option UInt8) :
    1 ≤ (quotedByte c next).length ∧ (quotedByte c next).length ≤ 4 ∧
      ((quotedByte c next).length = 1 → 0x20 ≤ c ∧ c ≤ 0x7e ∧ c ≠ quote ∧ c ≠ backslash) := by
  have digits := List.length_pos_of_ne_nil (octalSome c next)
  have few := octalLength c next
  rw [quotedByte]
  split
  · simp
  · rename_i other
    cases escapeLetter c with
    | some letter => simp
    | none =>
      simp only
      split
      · rename_i printed
        exact ⟨by simp,by simp,fun _ => ⟨printed.1,printed.2,fun same => other (.inl same),
          fun same => other (.inr same)⟩⟩
      · rw [List.length_cons]
        exact ⟨by omega,by omega,fun one => absurd one (by omega)⟩

theorem quotedByteSafe (c : UInt8) (next : Option UInt8) :
    ∀ b ∈ quotedByte c next, b ≠ 0 ∧ (b = quote → c = quote) := by
  have digit : ∀ b : UInt8, Lib.isDigit 10 b = true → b ≠ 0 ∧ b ≠ quote :=
    Lib.everyByte (by decide +kernel)
  have letters : ∀ c : UInt8, ∀ l ∈ escapeLetter c, l ≠ 0 ∧ l ≠ quote :=
    Lib.everyByte (by decide +kernel)
  have back : backslash ≠ 0 ∧ backslash ≠ quote := by decide
  intro b member
  rw [quotedByte] at member
  split at member
  · rename_i special
    rcases List.mem_cons.mp member with first | last
    · rw [first]
      exact ⟨back.1,fun same => absurd same back.2⟩
    · rw [List.mem_singleton.mp last]
      rcases special with same | same
      · exact ⟨by rw [same]; decide,id⟩
      · exact ⟨by rw [same]; exact back.1,id⟩
  · rename_i other
    cases named : escapeLetter c with
    | some letter =>
      rw [named] at member
      rcases List.mem_cons.mp member with first | last
      · rw [first]
        exact ⟨back.1,fun same => absurd same back.2⟩
      · have plain := letters c letter named
        rw [List.mem_singleton.mp last]
        exact ⟨plain.1,fun same => absurd same plain.2⟩
    | none =>
      rw [named] at member
      simp only at member
      split at member
      · rename_i printed
        rw [List.mem_singleton.mp member]
        exact ⟨fun zero => absurd printed.1 (by rw [zero]; decide),id⟩
      · rcases List.mem_cons.mp member with first | last
        · rw [first]
          exact ⟨back.1,fun same => absurd same back.2⟩
        · have plain := digit b (octalDigits c next b last)
          exact ⟨plain.1,fun same => absurd same plain.2⟩

theorem quotedLength (path : Bytes) : path.length ≤ (quotedPath path).length ∧
    (quotedPath path).length ≤ 4 * path.length ∧
    ((quotedPath path).length = path.length → Plain path) := by
  induction path with
  | nil => exact ⟨Nat.le_refl 0,Nat.le_refl 0,fun _ => nofun⟩
  | cons c path ih =>
    obtain ⟨low,high,plain⟩ := quotedByteLength c path.head?
    obtain ⟨least,most,rest⟩ := ih
    rw [quotedPath,List.length_append,List.length_cons]
    refine ⟨by omega,by omega,fun same => ?_⟩
    intro b member
    rcases List.mem_cons.mp member with first | later
    · rw [first]
      exact plain (by omega)
    · exact rest (by omega) b later

theorem quotedSafe (path : Bytes) :
    0 ∉ quotedPath path ∧ (quote ∈ quotedPath path → quote ∈ path) := by
  induction path with
  | nil => exact ⟨List.not_mem_nil,id⟩
  | cons c path ih =>
    have safe := quotedByteSafe c path.head?
    rw [quotedPath]
    constructor
    · intro member
      rcases List.mem_append.mp member with first | later
      · exact (safe 0 first).1 rfl
      · exact ih.1 later
    · intro member
      rcases List.mem_append.mp member with first | later
      · rw [(safe quote first).2 rfl]
        exact List.mem_cons_self
      · exact List.mem_cons_of_mem c (ih.2 later)

theorem scannedInside {path rest : Bytes} {b : UInt8}
    (member : b ∈ scannedName (path ++ quote :: rest)) : b ∈ path := by
  have run := List.mem_of_mem_take member
  rw [List.takeWhile_append,List.takeWhile_cons_of_neg (by simp),List.append_nil] at run
  split at run
  · exact run
  · exact (List.takeWhile_prefix _).mem run

theorem scannedQuoted {path : Bytes} (fits : path.length ≤ 100) (rest : Bytes) :
    scannedName (quotedPath path ++ quote :: rest) = path → Plain path := by
  intro same
  obtain ⟨_,most,plain⟩ := quotedLength path
  refine plain ?_
  rcases em (quote ∈ path) with inside | clean
  · rw [← same] at inside
    have run := List.mem_takeWhile_imp (List.mem_of_mem_take inside)
    exact absurd run (by decide)
  · have safe : quote ∉ quotedPath path := fun member => clean ((quotedSafe path).2 member)
    have short : (quotedPath path).length ≤ MAX_STRING := by
      unfold MAX_STRING
      omega
    rw [scannedPath safe,List.take_of_length_le short] at same
    rw [same]

def Survives (c : PathCall) (s : Stamp) (path : Bytes) (r : Result) (tail : Bytes) (stats : Bool)
    (st : StraceState) : Prop :=
  ∃ ret st' o name, straceProcessLine stats (c.line s (quotedPath path) r tail) st =
    .ok (ret,st') ∧ st'.list = st.list ++ [o.item] ∧ opName o = some name ∧ name.bytes = path

section Quoting
variable {c : PathCall} {s : Stamp} {path : Bytes} {r : Result} {tail : Bytes}
  {st : StraceState} {stats : Bool}

/-- A path comes through its quoting exactly where it is printed as it is, and holds neither word
of a split call. -/
theorem survivesIff (real : c.Dispatched) (ends : Ending tail) (tables : Tables st)
    (idle : st.ht.find htOpsIsyscall (Int32.ofNat s.pid) = some none) (some : path ≠ [])
    (fits : path.length ≤ 100) (noNul : 0 ∉ path) :
    Survives c s path r tail stats st ↔ Plain path ∧ Unmarked path := by
  obtain ⟨comma,short,unmarkedTail⟩ := ends.plain
  constructor
  · intro survives
    obtain ⟨ret,st',o,name,ran,grown,own,bytes⟩ := survives
    obtain ⟨unmarked,o',read,same⟩ := lineAlone tables real idle ran grown
    cases itemInjective same
    obtain ⟨told,own',named,_⟩ := pathNamed c rfl read
    rw [own] at own'
    cases own'
    have zero : 0 ∉ scannedName (quotedPath path ++ quote :: c.args (r.print tail)) :=
      fun member => (quotedSafe path).1 (scannedInside member)
    have scanned : scannedName (quotedPath path ++ quote :: c.args (r.print tail)) = path :=
      ((toNameOk named).2 zero).symm.trans bytes
    have plain := scannedQuoted fits _ scanned
    have line := (lineUnmarked c s (quotedPath path) r unmarkedTail).mp unmarked
    rw [quotedPlain plain] at line
    exact ⟨plain,line⟩
  · intro holds
    obtain ⟨plain,unmarked⟩ := holds
    have room : path.length < MAX_STRING := by
      unfold MAX_STRING
      omega
    obtain ⟨name,named,bytes⟩ := toNameShort room noNul
    obtain ⟨st',ran,grown,_⟩ : ∃ st', straceProcessLine stats (c.line s path r tail) st =
        .ok (0,st') ∧ st'.list = st.list ++ [(c.readItem s name r).item] ∧ st'.ht = st.ht :=
      lineItem real ends tables some plain.clean.1 room unmarked named
    exact ⟨0,st',_,name,by rw [quotedPlain plain]; exact ran,grown,readItemName real s name r,bytes⟩

theorem survivesPlain : Survives .unlink someStamp (ascii "/tmp/x") someResult [newline] false
    (straceInit []) :=
  (survivesIff (by exact nofun) (.inr rfl) (initTables []) (by decide +kernel) (by decide)
    (by decide) (by decide)).mpr ⟨by decide +kernel,by decide +kernel⟩

theorem quotedSpoilt : ¬ Survives .unlink someStamp [0x2f,0xc3,0xa9] someResult [newline] false
    (straceInit []) := by
  intro survives
  obtain ⟨ret,st',o,name,ran,grown,own,bytes⟩ := survives
  have read : (straceProcessLine false (PathCall.unlink.line someStamp (quotedPath [0x2f,0xc3,0xa9])
      someResult [newline]) (straceInit [])).map (fun r => r.2.list.map fun i =>
        (opName i.o).map CName.bytes) = .ok [some (ascii "/\\303\\251")] := by
    decide +kernel
  rw [ran] at read
  have names : st'.list.map (fun i => (opName i.o).map CName.bytes) =
      [some (ascii "/\\303\\251")] := Except.ok.inj read
  rw [grown] at names
  have spoilt : (opName o).map CName.bytes = some (ascii "/\\303\\251") := (List.cons.inj names).1
  rw [own,Option.map_some,bytes] at spoilt
  exact absurd (Option.some.inj spoilt) (by decide +kernel)

end Quoting

structure RecordExact (s : Stamp) (r : Result) : Prop where
  pid : (callInfo s r).pid.toInt = s.pid
  start : (callInfo s r).start.tvSec.toInt = s.sec ∧ (callInfo s r).start.tvUsec.toInt = s.usec
  dur : (callInfo s r).dur.toInt = r.sec * 10 ^ 6 + r.usec
  retval : (Int32.ofInt r.retval).toInt = r.retval

theorem recordExact {s : Stamp} {r : Result} (brief : r.sec < 2147)
    (retval : -2 ^ 31 ≤ r.retval ∧ r.retval < 2 ^ 31) : RecordExact s r where
  pid := Int32.toInt_ofNat_of_lt s.pidFits
  start := ⟨Int32.toInt_ofNat_of_lt s.secFits,
    Int32.toInt_ofNat_of_lt (Nat.lt_trans s.usecFits (by decide))⟩
  dur := by
    have usec := r.usecFits
    have total : (callInfo s r).dur.toInt = ((r.sec * 10 ^ 6 + r.usec : Nat) : Int) :=
      Int32.toInt_ofNat_of_lt (by omega)
    rw [total]
    norm_cast
  retval := Int32.toInt_ofInt_of_le retval.1 retval.2

def Parsed (c : PathCall) (s : Stamp) (path : Bytes) (r : Result) (tail : Bytes) (stats : Bool)
    (st : StraceState) : Prop :=
  RecordExact s r ∧ ∃ ret name st', straceProcessLine stats (c.line s path r tail) st =
    .ok (ret,st') ∧ name.bytes = path ∧ st'.list = st.list ++ [(c.item s name r).item]

section Parsing
variable {c : PathCall} {s : Stamp} {path : Bytes} {r : Result} {tail : Bytes}
  {st : StraceState} {stats : Bool}

theorem parsedDispatched (ends : Ending tail) (tables : Tables st) (unmarked : Unmarked path)
    (parsed : Parsed c s path r tail stats st) : c.Dispatched := by
  intro none
  subst none
  obtain ⟨_,ret,name,st',ran,_,grown⟩ := parsed
  obtain ⟨t,code,same,_⟩ : ∃ t, straceGetOperationCode stats (PathCall.rmdir.line s path r tail)
    st = .ok (.unknown,t) ∧ SameCalls st t ∧ Tables t := lineCode tables
  rw [straceProcessLine,processPlain ((lineUnmarked _ s path r ends.plain.2.2).mpr unmarked) _ stats
    code] at ran
  obtain ⟨o,read,_⟩ := switchGrown ran (by rw [grown,same.1])
  cases read

/-- A path call is read as it was made where its name is looked for and no mode is mistaken. -/
theorem parsedIff (ends : Ending tail) (tables : Tables st) (brief : r.sec < 2147)
    (retval : -2 ^ 31 ≤ r.retval ∧ r.retval < 2 ^ 31) (some : path ≠ []) (fits : path.length ≤ 400)
    (plain : Plain path) (unmarked : Unmarked path) :
    Parsed c s path r tail stats st ↔ c.Dispatched ∧ c.Decimal := by
  have room : path.length < MAX_STRING := by
    unfold MAX_STRING
    omega
  obtain ⟨name,named,bytes⟩ := toNameShort room plain.clean.2
  have made (real : c.Dispatched) : ∃ st', straceProcessLine stats (c.line s path r tail) st =
      .ok (0,st') ∧ st'.list = st.list ++ [(c.readItem s name r).item] ∧ st'.ht = st.ht :=
    lineItem real ends tables some plain.clean.1 room unmarked named
  constructor
  · intro parsed
    have real := parsedDispatched ends tables unmarked parsed
    obtain ⟨_,ret,told,st',ran,own,grown⟩ := parsed
    obtain ⟨t,again,read,_⟩ := made real
    rw [again] at ran
    cases ran
    rw [grown] at read
    have same := itemInjective (List.cons.inj (List.append_cancel_left read)).1
    have one : told = name := nameOf (own.trans bytes.symm)
    rw [one] at same
    exact ⟨real,(readItemSame c s name r).mp same.symm⟩
  · intro holds
    obtain ⟨real,decimal⟩ := holds
    obtain ⟨st',ran,grown,_⟩ := made real
    rw [(readItemSame c s name r).mpr decimal] at grown
    exact ⟨recordExact brief retval,0,name,st',ran,bytes,grown⟩

theorem parsedAccess : Parsed (.access ⟨[(ascii "R_OK",R_OK),(ascii "W_OK",W_OK)],by decide,
    by decide +kernel,by decide +kernel⟩) someStamp (ascii "/tmp/x") someResult [newline] true
    (straceInit []) :=
  (parsedIff (.inr rfl) (initTables []) (by decide) (by decide) (by decide) (by decide)
    (by decide +kernel) (by decide +kernel)).mpr ⟨nofun,trivial⟩

def openMode : Op → Option UInt32
  | .open o => some o.mode
  | _ => none

-- rmdir("/tmp/x") is skipped, and creat("/tmp/x", 0644) gets the mode 644.
theorem rmdirSkipped : ¬ Parsed .rmdir someStamp (ascii "/tmp/x") someResult [newline] true
      (straceInit []) ∧
    ¬ Parsed (.creat ⟨0o644,1,by decide⟩) someStamp (ascii "/tmp/x") someResult [newline] true
      (straceInit []) := by
  constructor
  · intro parsed
    obtain ⟨_,ret,name,st',ran,_,grown⟩ := parsed
    have none : (straceProcessLine true (PathCall.rmdir.line someStamp (ascii "/tmp/x") someResult
        [newline]) (straceInit [])).map (·.2.list.length) = .ok 0 := by
      decide +kernel
    rw [ran] at none
    have size : st'.list.length = 0 := Except.ok.inj none
    rw [grown] at size
    exact absurd size (by simp)
  · intro parsed
    obtain ⟨_,ret,name,st',ran,_,grown⟩ := parsed
    have mode : (straceProcessLine true ((PathCall.creat ⟨0o644,1,by decide⟩).line someStamp
        (ascii "/tmp/x") someResult [newline]) (straceInit [])).map
        (·.2.list.map fun i => openMode i.o) = .ok [some 644] := by
      decide +kernel
    rw [ran] at mode
    have read : st'.list.map (fun i => openMode i.o) = [some 644] := Except.ok.inj mode
    rw [grown] at read
    have same : some (UInt32.ofNat 0o644) = some 644 := (List.cons.inj read).1
    exact absurd same (by decide)

end Parsing
end IoApps.Strace
