import IoApps.Lib.Numeral

/-! sscanf: directives taken off a string from the left, until one does not match. -/
namespace IoApps.Lib

-- %o; %d and %u; %i.
inductive Radix where
  | octal | decimal | auto
  deriving DecidableEq, Repr

-- `room` is the size of the array a text is written to. A set is given by the byte it leaves out.
inductive Directive where
  | space
  | lit (c : UInt8)
  | number (radix : Radix)
  | word (room : Nat)
  | upto (stop : UInt8) (width : Option Nat) (room : Nat)
  | skip (stop : UInt8)
  deriving DecidableEq, Repr

inductive Arg where
  | num (n : Int)
  | text (s : Bytes)
  deriving DecidableEq, Repr

def splitDigits (base : Nat) (s : Bytes) : Option (Nat × Bytes) :=
  let digits := s.takeWhile (isDigit base)
  if digits = [] then none else some (digitsValue base digits,s.drop digits.length)

def readDigits : Radix → Bytes → Option (Nat × Bytes)
  | .octal,s => splitDigits 8 s
  | .decimal,s => splitDigits 10 s
  | .auto,s =>
    if s.head? ≠ some 48 then splitDigits 10 s
    else if s[1]? = some 120 ∨ s[1]? = some 88 then splitDigits 16 (s.drop 2)
    else splitDigits 8 s

def readNumber (radix : Radix) (s : Bytes) : Option (Int × Bytes) :=
  match skipSpace s with
  | [] => none
  | c :: rest =>
    if c = 45 then (readDigits radix rest).map fun r => (-(r.1 : Int),r.2)
    else if c = 43 then (readDigits radix rest).map fun r => ((r.1 : Int),r.2)
    else (readDigits radix (c :: rest)).map fun r => ((r.1 : Int),r.2)

def atoi (s : Bytes) : Int :=
  match readNumber .decimal s with
  | none => 0
  | some r => r.1

-- The values assigned, or the size of the array a text does not fit into.
def sscanf : List Directive → Bytes → Except Nat (List Arg)
  | [],_ => .ok []
  | .space :: f,s => sscanf f (skipSpace s)
  | .lit c :: f,s => if s.head? = some c then sscanf f s.tail else .ok []
  | .number radix :: f,s =>
    match readNumber radix s with
    | none => .ok []
    | some r => (sscanf f r.2).map (.num r.1 :: ·)
  | .word room :: f,s =>
    let text := (skipSpace s).takeWhile (!isSpace ·)
    if text = [] then .ok []
    else if room ≤ text.length then .error room
    else (sscanf f ((skipSpace s).drop text.length)).map (.text text :: ·)
  | .upto stop width room :: f,s =>
    let run := s.takeWhile (· != stop)
    let text := match width with
      | none => run
      | some w => run.take w
    if text = [] then .ok []
    else if room ≤ text.length then .error room
    else (sscanf f (s.drop text.length)).map (.text text :: ·)
  | .skip stop :: f,s =>
    if s.head? = none ∨ s.head? = some stop then .ok [] else sscanf f (s.dropWhile (· != stop))

def Directive.free : Directive → Bool
  | .word _ | .upto _ _ _ => false
  | _ => true

theorem sscanfFree {f : List Directive} (free : ∀ d ∈ f, d.free = true) (s : Bytes) :
    ∃ args, sscanf f s = .ok args := by
  induction f generalizing s with
  | nil => exact ⟨[],rfl⟩
  | cons d f ih =>
    have later := ih fun e member => free e (List.mem_cons_of_mem d member)
    have here := free d List.mem_cons_self
    cases d with
    | space => exact later (skipSpace s)
    | lit c =>
      rw [sscanf]
      split
      · exact later s.tail
      · exact ⟨[],rfl⟩
    | number radix =>
      rw [sscanf]
      cases readNumber radix s with
      | none => exact ⟨[],rfl⟩
      | some r =>
        obtain ⟨args,ran⟩ := later r.2
        exact ⟨.num r.1 :: args,by simp only [ran,Except.map]⟩
    | skip stop =>
      rw [sscanf]
      split
      · exact ⟨[],rfl⟩
      · exact later _
    | word room => cases here
    | upto stop width room => cases here

def Breaks (rest : Bytes) : Prop :=
  ∀ c, rest.head? = some c → digitVal c = 16 ∧ c ≠ 120 ∧ c ≠ 88

theorem breaksNil : Breaks [] := fun _ none => nomatch none

theorem breaksCons {c : UInt8} (other : digitVal c = 16 ∧ c ≠ 120 ∧ c ≠ 88) (rest : Bytes) :
    Breaks (c :: rest) := fun _ same => Option.some.inj same ▸ other

theorem takeWhileBreak {p : UInt8 → Bool} {text rest : Bytes} (inside : ∀ c ∈ text, p c = true)
    (next : ∀ c, rest.head? = some c → p c = false) : (text ++ rest).takeWhile p = text := by
  rw [List.takeWhile_append_of_pos inside]
  cases rest with
  | nil => rw [List.takeWhile_nil,List.append_nil]
  | cons c rest =>
    have stop : ¬ p c = true := Bool.eq_false_iff.mp (next c rfl)
    rw [List.takeWhile_cons_of_neg stop,List.append_nil]

section Numbers
variable {rest : Bytes}

theorem digitsBreak (breaks : Breaks rest) {base : Nat} (bound : base ≤ 16) :
    ∀ c, rest.head? = some c → isDigit base c = false := by
  intro c first
  rw [isDigit,(breaks c first).1]
  exact decide_eq_false (by omega)

theorem splitDigitsRun {base : Nat} (bound : base ≤ 16) {digits : Bytes} (some : digits ≠ [])
    (real : ∀ c ∈ digits, isDigit base c = true) (breaks : Breaks rest) :
    splitDigits base (digits ++ rest) = .some (digitsValue base digits,rest) := by
  have run := takeWhileBreak real (digitsBreak breaks bound)
  simp only [splitDigits,run,if_neg some,List.drop_left]

theorem digitPlain {base : Nat} {c : UInt8} (digit : isDigit base c = true) (bound : base ≤ 10) :
    isSpace c = false ∧ c ≠ 45 ∧ c ≠ 43 := by
  have all : ∀ c : UInt8, digitVal c < 10 → isSpace c = false ∧ c ≠ 45 ∧ c ≠ 43 :=
    everyByte (by decide +kernel)
  exact all c (Nat.lt_of_lt_of_le (of_decide_eq_true digit) bound)

theorem readUnsigned {radix : Radix} {base : Nat} (bound : base ≤ 10) {digits : Bytes}
    (some : digits ≠ []) (real : ∀ c ∈ digits, isDigit base c = true) {n : Nat}
    (read : readDigits radix (digits ++ rest) = .some (n,rest)) :
    readNumber radix (digits ++ rest) = .some ((n : Int),rest) := by
  obtain ⟨c,more,rfl⟩ := List.exists_cons_of_ne_nil some
  obtain ⟨plain,minus,plus⟩ := digitPlain (real c List.mem_cons_self) bound
  have still : skipSpace (c :: (more ++ rest)) = c :: (more ++ rest) :=
    List.dropWhile_cons_of_neg (by simp [plain])
  rw [List.cons_append] at read ⊢
  rw [readNumber,still]
  simp only [if_neg minus,if_neg plus,read,Option.map_some]

theorem readMinus {radix : Radix} {digits : Bytes} {n : Nat}
    (read : readDigits radix (digits ++ rest) = .some (n,rest)) :
    readNumber radix (45 :: (digits ++ rest)) = .some (-(n : Int),rest) := by
  have still : skipSpace (45 :: (digits ++ rest)) = 45 :: (digits ++ rest) := rfl
  rw [readNumber,still]
  simp only [if_true,read,Option.map_some]

theorem readNumeral {radix : Radix} (real : radix ≠ .octal) (n : Nat) (breaks : Breaks rest) :
    readDigits radix (numeral 10 n ++ rest) = .some (n,rest) := by
  have digits : ∀ c ∈ numeral 10 n, isDigit 10 c = true :=
    numeralDigits (by decide) (by decide) n
  have value : digitsValue 10 (numeral 10 n) = n := numeralValue (by decide) (by decide) n
  have ten := splitDigitsRun (by decide) (numeralSome 10 n) digits breaks
  rw [value] at ten
  cases radix with
  | octal => exact absurd rfl real
  | decimal => exact ten
  | auto =>
    obtain ⟨c,more,text⟩ := List.exists_cons_of_ne_nil (numeralSome 10 n)
    by_cases zero : (numeral 10 n).head? = some 48
    · have none := numeralLead (by decide) (by decide) zero
      subst none
      have bare : numeral 10 0 = [48] := by decide
      have next : rest.head? ≠ some 120 ∧ rest.head? ≠ some 88 :=
        ⟨fun h => (breaks 120 h).2.1 rfl,fun h => (breaks 88 h).2.2 rfl⟩
      have eight : splitDigits 8 ([48] ++ rest) = some (0,rest) :=
        splitDigitsRun (by decide) (List.cons_ne_nil 48 []) (fun c member => by
          rw [List.mem_singleton.mp member]
          rfl) breaks
      have second : ([48] ++ rest)[1]? = rest.head? := by
        cases rest <;> rfl
      rw [bare,readDigits,second,if_neg (by simp),if_neg (by simp [next]),eight]
    · have first : (numeral 10 n ++ rest).head? ≠ some 48 := by
        rw [text] at zero ⊢
        exact zero
      rw [readDigits,if_pos first,ten]

theorem readSigned {radix : Radix} (real : radix ≠ .octal) (z : Int) (breaks : Breaks rest) :
    readNumber radix (signed z ++ rest) = some (z,rest) := by
  have read := readNumeral real z.natAbs breaks
  rw [signed]
  split
  · rename_i negative
    rw [List.cons_append,readMinus read]
    congr 2
    omega
  · rename_i positive
    have digits : ∀ c ∈ numeral 10 z.natAbs, isDigit 10 c = true :=
      numeralDigits (by decide) (by decide) z.natAbs
    rw [readUnsigned (by decide) (numeralSome 10 _) digits read]
    congr 2
    omega

theorem splitDigitsFront {base : Nat} {c : UInt8} (other : isDigit base c = false)
    (s rest : Bytes) :
    (splitDigits base (s ++ c :: rest)).map Prod.fst = (splitDigits base s).map Prod.fst := by
  have run : (s ++ c :: rest).takeWhile (isDigit base) = s.takeWhile (isDigit base) := by
    rw [List.takeWhile_append,List.takeWhile_cons_of_neg (by simp [other]),List.append_nil]
    split
    · rename_i whole
      exact (List.takeWhile_prefix (isDigit base)).eq_of_length whole |>.symm
    · rfl
  simp only [splitDigits,run]
  split
  · rfl
  · rfl

theorem readNumberFront {c : UInt8} (digit : isDigit 10 c = false) (space : isSpace c = false)
    (sign : c ≠ 45 ∧ c ≠ 43) (s rest : Bytes) :
    (readNumber .decimal (s ++ c :: rest)).map Prod.fst =
      (readNumber .decimal s).map Prod.fst := by
  have skipped : skipSpace (s ++ c :: rest) = skipSpace s ++ c :: rest := by
    rw [skipSpace,skipSpace,List.dropWhile_append]
    split
    · rename_i all
      rw [List.isEmpty_iff.mp all,List.nil_append,List.dropWhile_cons_of_neg (by simp [space])]
    · rfl
  rw [readNumber,skipped,readNumber]
  cases skipSpace s with
  | nil =>
    have none : splitDigits 10 (c :: rest) = none := by
      rw [splitDigits,List.takeWhile_cons_of_neg (by simp [digit])]
      rfl
    simp only [List.nil_append,if_neg sign.1,if_neg sign.2,readDigits,none]
    rfl
  | cons b more =>
    have inner := splitDigitsFront digit more rest
    have whole := splitDigitsFront digit (b :: more) rest
    simp only [List.cons_append,readDigits] at inner whole ⊢
    have value (f : Nat → Int) {x y : Option (Nat × Bytes)}
        (same : x.map Prod.fst = y.map Prod.fst) :
        (x.map fun r => (f r.1,r.2)).map Prod.fst = (y.map fun r => (f r.1,r.2)).map Prod.fst := by
      have mapped := congrArg (Option.map f) same
      rwa [Option.map_map,Option.map_map] at mapped ⊢
    split
    · exact value (fun n => -(n : Int)) inner
    · split
      · exact value (fun n => (n : Int)) inner
      · exact value (fun n => (n : Int)) whole

end Numbers
section Directives
variable {f : List Directive} {rest : Bytes}

theorem scanSigned {radix : Radix} (real : radix ≠ .octal) (z : Int) (breaks : Breaks rest) :
    sscanf (.number radix :: f) (signed z ++ rest) = (sscanf f rest).map (.num z :: ·) := by
  rw [sscanf,readSigned real z breaks]

theorem scanDigits {radix : Radix} {base : Nat} (bound : base ≤ 10)
    (same : readDigits radix = splitDigits base) {digits : Bytes} (some : digits ≠ [])
    (real : ∀ c ∈ digits, isDigit base c = true) (breaks : Breaks rest) :
    sscanf (.number radix :: f) (digits ++ rest) =
      (sscanf f rest).map (.num (digitsValue base digits) :: ·) := by
  have read := splitDigitsRun (by omega) some real breaks
  rw [← same] at read
  rw [sscanf,readUnsigned bound some real read]

theorem scanWord {room : Nat} {text : Bytes} (some : text ≠ [])
    (plain : ∀ c ∈ text, isSpace c = false) (fits : text.length < room)
    (next : ∀ c, rest.head? = .some c → isSpace c = true) :
    sscanf (.word room :: f) (text ++ rest) = (sscanf f rest).map (.text text :: ·) := by
  obtain ⟨c,more,whole⟩ := List.exists_cons_of_ne_nil some
  have still : skipSpace (text ++ rest) = text ++ rest := by
    rw [whole]
    exact List.dropWhile_cons_of_neg (by simp [plain c (by simp [whole])])
  have run : (text ++ rest).takeWhile (!isSpace ·) = text :=
    takeWhileBreak (fun c member => by simp [plain c member]) fun c first => by
      simp [next c first]
  rw [sscanf,still]
  simp only [run,if_neg some,if_neg (Nat.not_le.mpr fits),List.drop_left]

theorem runStops {stop : UInt8} {text : Bytes} (clean : stop ∉ text) :
    ∀ c ∈ text, (c != stop) = true :=
  fun _ member => bne_iff_ne.mpr fun same => clean (same ▸ member)

theorem scanUpto {stop : UInt8} {width : Option Nat} {room : Nat} {text : Bytes} (some : text ≠ [])
    (clean : stop ∉ text) (fits : text.length < room)
    (wide : ∀ w, width = .some w → text.length ≤ w)
    (next : ∀ c, rest.head? = .some c → c = stop) :
    sscanf (.upto stop width room :: f) (text ++ rest) = (sscanf f rest).map (.text text :: ·) := by
  have run : (text ++ rest).takeWhile (· != stop) = text :=
    takeWhileBreak (runStops clean) fun c first => by simp [next c first]
  cases width with
  | none =>
    rw [sscanf]
    simp only [run,if_neg some,if_neg (Nat.not_le.mpr fits),List.drop_left]
  | some w =>
    have whole : text.take w = text := List.take_of_length_le (wide w rfl)
    rw [sscanf]
    simp only [run,whole,if_neg some,if_neg (Nat.not_le.mpr fits),List.drop_left]

theorem uptoOk {stop : UInt8} {w room : Nat} {s : Bytes} {a : Arg} {more : List Arg}
    (ran : sscanf (.upto stop (some w) room :: f) s = .ok (a :: more)) :
    a = .text ((s.takeWhile (· != stop)).take w) ∧ (s.takeWhile (· != stop)).take w ≠ [] ∧
      ((s.takeWhile (· != stop)).take w).length < room := by
  rw [sscanf] at ran
  split at ran
  · cases ran
  · rename_i begun
    split at ran
    · cases ran
    · rename_i fits
      refine ⟨?_,begun,Nat.not_le.mp fits⟩
      cases later : sscanf f (s.drop ((s.takeWhile (· != stop)).take w).length) with
      | error room =>
        rw [later] at ran
        cases ran
      | ok args =>
        rw [later] at ran
        cases ran
        rfl

theorem scanSkip {stop : UInt8} {text : Bytes} (some : text ≠ []) (clean : stop ∉ text)
    (next : ∀ c, rest.head? = .some c → c = stop) :
    sscanf (.skip stop :: f) (text ++ rest) = sscanf f rest := by
  obtain ⟨c,more,whole⟩ := List.exists_cons_of_ne_nil some
  have other : c ≠ stop := fun same => clean (by rw [whole,same]; exact List.mem_cons_self)
  have behind : (text ++ rest).dropWhile (· != stop) = rest := by
    rw [List.dropWhile_append_of_pos (runStops clean)]
    cases rest with
    | nil => rfl
    | cons d rest =>
      exact List.dropWhile_cons_of_neg (by simp [next d rfl])
  have first : (text ++ rest).head? = .some c := by rw [whole]; rfl
  rw [sscanf,first,if_neg (by simp [other]),behind]

theorem scanLit (c : UInt8) : sscanf (.lit c :: f) (c :: rest) = sscanf f rest := by
  rw [sscanf,List.head?_cons,if_pos rfl,List.tail_cons]

theorem scanSpace {text : Bytes} (blank : ∀ c ∈ text, isSpace c = true)
    (next : ∀ c, rest.head? = some c → isSpace c = false) :
    sscanf (.space :: f) (text ++ rest) = sscanf f rest := by
  rw [sscanf,skipSpace,List.dropWhile_append_of_pos blank]
  cases rest with
  | nil => rfl
  | cons d rest => rw [List.dropWhile_cons_of_neg (by simp [next d rfl])]

end Directives

-- A part of a format takes a text and leaves the rest to the directives behind it.
def Reads (f : List Directive) (s : Bytes) (args : List Arg) (rest : Bytes) : Prop :=
  ∀ g, sscanf (f ++ g) s = (sscanf g rest).map (args ++ ·)

section Reads
variable {f g : List Directive} {s t rest : Bytes} {a b : List Arg}

theorem Reads.done (reads : Reads f s a rest) : sscanf f s = .ok a := by
  have all := reads []
  rw [List.append_nil,sscanf] at all
  rw [all]
  exact congrArg _ (List.append_nil a)

theorem Reads.append (front : Reads f s a t) (back : Reads g t b rest) :
    Reads (f ++ g) s (a ++ b) rest := by
  intro more
  rw [List.append_assoc,front,back]
  cases sscanf more rest with
  | error room => rfl
  | ok args => simp only [Except.map,List.append_assoc]

theorem Reads.stops (front : Reads f s a rest) {c : UInt8} (other : rest.head? ≠ some c) :
    sscanf (f ++ .lit c :: g) s = .ok a := by
  rw [front,sscanf,if_neg other]
  exact congrArg _ (List.append_nil a)

theorem readsNothing {d : Directive} (step : ∀ more, sscanf (d :: more) s = sscanf more rest) :
    Reads [d] s [] rest := by
  intro more
  rw [List.singleton_append,step]
  cases sscanf more rest <;> rfl

theorem readsSigned {radix : Radix} (real : radix ≠ .octal) (z : Int) (breaks : Breaks rest) :
    Reads [.number radix] (signed z ++ rest) [.num z] rest :=
  fun _ => scanSigned real z breaks

theorem readsDigits {radix : Radix} {base : Nat} (bound : base ≤ 10)
    (same : readDigits radix = splitDigits base) {digits : Bytes} (some : digits ≠ [])
    (real : ∀ c ∈ digits, isDigit base c = true) (breaks : Breaks rest) :
    Reads [.number radix] (digits ++ rest) [.num (digitsValue base digits)] rest :=
  fun _ => scanDigits bound same some real breaks

theorem readsWord {room : Nat} {text : Bytes} (some : text ≠ [])
    (plain : ∀ c ∈ text, isSpace c = false) (fits : text.length < room)
    (next : ∀ c, rest.head? = .some c → isSpace c = true) :
    Reads [.word room] (text ++ rest) [.text text] rest :=
  fun _ => scanWord some plain fits next

theorem readsUpto {stop : UInt8} {width : Option Nat} {room : Nat} {text : Bytes}
    (some : text ≠ []) (clean : stop ∉ text) (fits : text.length < room)
    (wide : ∀ w, width = .some w → text.length ≤ w)
    (next : ∀ c, rest.head? = .some c → c = stop) :
    Reads [.upto stop width room] (text ++ rest) [.text text] rest :=
  fun _ => scanUpto some clean fits wide next

theorem readsSkip {stop : UInt8} {text : Bytes} (some : text ≠ []) (clean : stop ∉ text)
    (next : ∀ c, rest.head? = .some c → c = stop) : Reads [.skip stop] (text ++ rest) [] rest :=
  readsNothing fun _ => scanSkip some clean next

theorem readsLit (c : UInt8) : Reads [.lit c] (c :: rest) [] rest :=
  readsNothing fun _ => scanLit c

theorem readsSpace {text : Bytes} (blank : ∀ c ∈ text, isSpace c = true)
    (next : ∀ c, rest.head? = some c → isSpace c = false) :
    Reads [.space] (text ++ rest) [] rest :=
  readsNothing fun _ => scanSpace blank next

end Reads

def fields : List Directive → Bytes → List (Nat × Bytes)
  | [],_ => []
  | .space :: f,s => fields f (skipSpace s)
  | .lit c :: f,s => if s.head? = some c then fields f s.tail else []
  | .number radix :: f,s =>
    match readNumber radix s with
    | none => []
    | some r => fields f r.2
  | .word room :: f,s =>
    let text := (skipSpace s).takeWhile (!isSpace ·)
    if text = [] then [] else (room,text) :: fields f ((skipSpace s).drop text.length)
  | .upto stop width room :: f,s =>
    let run := s.takeWhile (· != stop)
    let text := match width with
      | none => run
      | some w => run.take w
    if text = [] then [] else (room,text) :: fields f (s.drop text.length)
  | .skip stop :: f,s =>
    if s.head? = none ∨ s.head? = some stop then [] else fields f (s.dropWhile (· != stop))

def tooLong (x : Nat × Bytes) : Bool := decide (x.1 ≤ x.2.length)

def firstTooLong (texts : List (Nat × Bytes)) : Option Nat := (texts.find? tooLong).map Prod.fst

section Fields
variable {f : List Directive} {s : Bytes}

theorem firstKept {room : Nat} {text : Bytes} {texts : List (Nat × Bytes)}
    (fits : ¬ room ≤ text.length) : firstTooLong ((room,text) :: texts) = firstTooLong texts := by
  have other : ¬ tooLong (room,text) = true := by
    rw [tooLong,decide_eq_true_iff]
    exact fits
  rw [firstTooLong,List.find?_cons_of_neg other]
  rfl

theorem firstFound {room : Nat} {text : Bytes} {texts : List (Nat × Bytes)}
    (beyond : room ≤ text.length) : firstTooLong ((room,text) :: texts) = some room := by
  have here : tooLong (room,text) = true := decide_eq_true beyond
  rw [firstTooLong,List.find?_cons_of_pos here]
  rfl

theorem mapError {α β : Type} {x : Except Nat α} {g : α → β} {room : Nat} :
    x.map g = .error room ↔ x = .error room := by
  cases x with
  | error other => simp only [Except.map,Except.error.injEq]
  | ok a => exact iff_of_false nofun nofun

theorem sscanfError {room : Nat} :
    sscanf f s = .error room ↔ firstTooLong (fields f s) = some room := by
  induction f generalizing s with
  | nil => exact iff_of_false nofun nofun
  | cons d f ih =>
    cases d with
    | space => exact ih
    | lit c =>
      rw [sscanf,fields]
      split
      · exact ih
      · exact iff_of_false nofun nofun
    | number radix =>
      rw [sscanf,fields]
      cases readNumber radix s with
      | none => exact iff_of_false nofun nofun
      | some r => exact mapError.trans ih
    | skip stop =>
      rw [sscanf,fields]
      split
      · exact iff_of_false nofun nofun
      · exact ih
    | word size =>
      rw [sscanf,fields]
      split
      · exact iff_of_false nofun nofun
      · split
        · rename_i beyond
          rw [firstFound beyond,Except.error.injEq,Option.some.injEq]
        · rename_i fits
          rw [firstKept fits,mapError,ih]
    | upto stop width size =>
      cases width with
      | none =>
        rw [sscanf,fields]
        split
        · exact iff_of_false nofun nofun
        · split
          · rename_i beyond
            rw [firstFound beyond,Except.error.injEq,Option.some.injEq]
          · rename_i fits
            rw [firstKept fits,mapError,ih]
      | some w =>
        rw [sscanf,fields]
        split
        · exact iff_of_false nofun nofun
        · split
          · rename_i beyond
            rw [firstFound beyond,Except.error.injEq,Option.some.injEq]
          · rename_i fits
            rw [firstKept fits,mapError,ih]

def Directive.room : Directive → Option Nat
  | .word room | .upto _ _ room => some room
  | _ => none

theorem readDigitsRest {radix : Radix} {n : Nat} {rest : Bytes}
    (read : readDigits radix s = some (n,rest)) : rest <:+ s := by
  have split {base : Nat} {s : Bytes} (read : splitDigits base s = some (n,rest)) :
      rest <:+ s := by
    rw [splitDigits] at read
    split at read
    · cases read
    · cases read
      exact List.drop_suffix _ _
  cases radix with
  | octal => exact split read
  | decimal => exact split read
  | auto =>
    rw [readDigits] at read
    split at read
    · exact split read
    · split at read
      · exact (split read).trans (List.drop_suffix 2 s)
      · exact split read

theorem readNumberRest {radix : Radix} {z : Int} {rest : Bytes}
    (read : readNumber radix s = some (z,rest)) : rest <:+ s := by
  have skipped : skipSpace s <:+ s := List.dropWhile_suffix _
  have digits {s' : Bytes} {g : Nat → Int}
      (read : (readDigits radix s').map (fun r => (g r.1,r.2)) = some (z,rest)) :
      rest <:+ s' := by
    obtain ⟨r,told,same⟩ := Option.map_eq_some_iff.mp read
    obtain ⟨n,more⟩ := r
    cases same
    exact readDigitsRest told
  rw [readNumber] at read
  cases begun : skipSpace s with
  | nil =>
    rw [begun] at read
    cases read
  | cons c more =>
    rw [begun] at read skipped
    have later : more <:+ s := (List.suffix_cons c more).trans skipped
    simp only at read
    split at read
    · exact (digits (g := fun n => -(n : Int)) read).trans later
    · split at read
      · exact (digits (g := fun n => (n : Int)) read).trans later
      · exact (digits (g := fun n => (n : Int)) read).trans skipped

theorem sscanfBehind {g : List Directive} {room : Nat}
    (stopped : sscanf (f ++ g) s = .error room) :
    some room ∈ f.map Directive.room ∨ ∃ t, t <:+ s ∧ sscanf g t = .error room := by
  induction f generalizing s with
  | nil => exact .inr ⟨s,List.suffix_refl s,stopped⟩
  | cons d f ih =>
    have later {t : Bytes} (part : t <:+ s) (stopped : sscanf (f ++ g) t = .error room) :
        some room ∈ (d :: f).map Directive.room ∨ ∃ t, t <:+ s ∧ sscanf g t = .error room := by
      rcases ih stopped with own | behind
      · exact .inl (List.mem_cons_of_mem _ own)
      · obtain ⟨t',inside,there⟩ := behind
        exact .inr ⟨t',inside.trans part,there⟩
    have here {size : Nat} (own : d.room = some size) (same : size = room) :
        some room ∈ (d :: f).map Directive.room := by
      rw [List.map_cons,own,same]
      exact List.mem_cons_self
    rw [List.cons_append] at stopped
    cases d with
    | space => exact later (List.dropWhile_suffix _) stopped
    | lit c =>
      rw [sscanf] at stopped
      split at stopped
      · exact later (List.tail_suffix s) stopped
      · cases stopped
    | number radix =>
      rw [sscanf] at stopped
      split at stopped
      · cases stopped
      · rename_i r read
        exact later (readNumberRest read) (mapError.mp stopped)
    | skip stop =>
      rw [sscanf] at stopped
      split at stopped
      · cases stopped
      · exact later (List.dropWhile_suffix _) stopped
    | word size =>
      rw [sscanf] at stopped
      split at stopped
      · cases stopped
      · split at stopped
        · cases stopped
          exact .inl (here rfl rfl)
        · exact later ((List.drop_suffix _ _).trans (List.dropWhile_suffix _)) (mapError.mp stopped)
    | upto stop width size =>
      cases width with
      | none =>
        rw [sscanf] at stopped
        split at stopped
        · cases stopped
        · split at stopped
          · cases stopped
            exact .inl (here rfl rfl)
          · exact later (List.drop_suffix _ _) (mapError.mp stopped)
      | some w =>
        rw [sscanf] at stopped
        split at stopped
        · cases stopped
        · split at stopped
          · cases stopped
            exact .inl (here rfl rfl)
          · exact later (List.drop_suffix _ _) (mapError.mp stopped)

theorem fieldStep {d : Directive} {x : Nat × Bytes} (member : x ∈ fields (d :: f) s) :
    d.room = some x.1 ∧ x.2.length ≤ s.length ∨ ∃ t, t.length ≤ s.length ∧ x ∈ fields f t := by
  have skipped : (skipSpace s).length ≤ s.length := (List.dropWhile_sublist _).length_le
  cases d with
  | space => exact .inr ⟨_,skipped,member⟩
  | lit c =>
    rw [fields] at member
    split at member
    · exact .inr ⟨_,(List.tail_sublist s).length_le,member⟩
    · cases member
  | number radix =>
    rw [fields] at member
    split at member
    · cases member
    · rename_i r read
      exact .inr ⟨_,(readNumberRest read).length_le,member⟩
  | skip stop =>
    rw [fields] at member
    split at member
    · cases member
    · exact .inr ⟨_,(List.dropWhile_sublist _).length_le,member⟩
  | word room =>
    rw [fields] at member
    split at member
    · cases member
    · rcases List.mem_cons.mp member with here | later
      · rw [here]
        exact .inl ⟨rfl,(List.takeWhile_sublist _).length_le.trans skipped⟩
      · exact .inr ⟨_,(List.drop_sublist _ _).length_le.trans skipped,later⟩
  | upto stop width room =>
    have run : (s.takeWhile (· != stop)).length ≤ s.length := (List.takeWhile_sublist _).length_le
    cases width with
    | none =>
      rw [fields] at member
      split at member
      · cases member
      · rcases List.mem_cons.mp member with here | later
        · rw [here]
          exact .inl ⟨rfl,run⟩
        · exact .inr ⟨_,(List.drop_sublist _ _).length_le,later⟩
    | some w =>
      rw [fields] at member
      split at member
      · cases member
      · rcases List.mem_cons.mp member with here | later
        · rw [here]
          exact .inl ⟨rfl,(List.take_sublist _ _).length_le.trans run⟩
        · exact .inr ⟨_,(List.drop_sublist _ _).length_le,later⟩

theorem fieldRoom {x : Nat × Bytes} (member : x ∈ fields f s) :
    some x.1 ∈ f.map Directive.room := by
  induction f generalizing s with
  | nil => cases member
  | cons d f ih =>
    rcases fieldStep member with here | later
    · rw [List.map_cons,here.1]
      exact List.mem_cons_self
    · obtain ⟨t,_,inside⟩ := later
      exact List.mem_cons_of_mem _ (ih inside)

theorem fieldShort {x : Nat × Bytes} (member : x ∈ fields f s) : x.2.length ≤ s.length := by
  induction f generalizing s with
  | nil => cases member
  | cons d f ih =>
    rcases fieldStep member with here | later
    · exact here.2
    · obtain ⟨t,short,inside⟩ := later
      exact (ih inside).trans short

theorem mapOk {x : Except Nat (List Arg)} {a : Arg} {args : List Arg}
    (ran : x.map (a :: ·) = .ok args) : ∃ more, x = .ok more ∧ args = a :: more := by
  cases x with
  | error room => cases ran
  | ok more =>
    cases ran
    exact ⟨more,rfl,rfl⟩

theorem textField {args : List Arg} {text : Bytes} (ran : sscanf f s = .ok args)
    (member : .text text ∈ args) : ∃ room, (room,text) ∈ fields f s ∧ text.length < room := by
  have stored {room : Nat} {own : Bytes} {more : List Arg} {texts : List (Nat × Bytes)}
      (fits : ¬ room ≤ own.length) (member : .text text ∈ .text own :: more)
      (later : .text text ∈ more → ∃ room, (room,text) ∈ texts ∧ text.length < room) :
      ∃ size, (size,text) ∈ (room,own) :: texts ∧ text.length < size := by
    rcases List.mem_cons.mp member with here | behind
    · cases here
      exact ⟨room,List.mem_cons_self,Nat.not_le.mp fits⟩
    · obtain ⟨size,inside,short⟩ := later behind
      exact ⟨size,List.mem_cons_of_mem _ inside,short⟩
  induction f generalizing s args with
  | nil =>
    cases ran
    cases member
  | cons d f ih =>
    cases d with
    | space => exact ih ran member
    | lit c =>
      rw [sscanf] at ran
      rw [fields]
      split at ran
      · rename_i here
        rw [if_pos here]
        exact ih ran member
      · cases ran
        cases member
    | number radix =>
      rw [sscanf] at ran
      rw [fields]
      cases read : readNumber radix s with
      | none =>
        rw [read] at ran
        cases ran
        cases member
      | some r =>
        rw [read] at ran
        obtain ⟨more,rest,same⟩ := mapOk ran
        rw [same] at member
        rcases List.mem_cons.mp member with here | later
        · cases here
        · exact ih rest later
    | skip stop =>
      rw [sscanf] at ran
      rw [fields]
      split at ran
      · cases ran
        cases member
      · rename_i other
        rw [if_neg other]
        exact ih ran member
    | word room =>
      rw [sscanf] at ran
      rw [fields]
      split at ran
      · cases ran
        cases member
      · rename_i begun
        rw [if_neg begun]
        split at ran
        · cases ran
        · rename_i fits
          obtain ⟨more,rest,same⟩ := mapOk ran
          exact stored fits (same ▸ member) (ih rest)
    | upto stop width room =>
      cases width with
      | none =>
        rw [sscanf] at ran
        rw [fields]
        split at ran
        · cases ran
          cases member
        · rename_i begun
          rw [if_neg begun]
          split at ran
          · cases ran
          · rename_i fits
            obtain ⟨more,rest,same⟩ := mapOk ran
            exact stored fits (same ▸ member) (ih rest)
      | some w =>
        rw [sscanf] at ran
        rw [fields]
        split at ran
        · cases ran
          cases member
        · rename_i begun
          rw [if_neg begun]
          split at ran
          · cases ran
          · rename_i fits
            obtain ⟨more,rest,same⟩ := mapOk ran
            exact stored fits (same ▸ member) (ih rest)

end Fields
end IoApps.Lib
