import IoApps.StraceTime

/-! The lines strace prints for calls, and what every reader makes of their parts. A part is
printed in front of the rest of the line. -/
namespace IoApps.Strace
open Lib (Bytes Prog ascii strstr isSpace isDigit numeral padded signed Directive Radix Arg sscanf Reads
  Breaks)

def unfinishedWord : Bytes := ascii "unfinished"
def resumedWord : Bytes := ascii "resumed"

def Unmarked (s : Bytes) : Prop := ¬ unfinishedWord <:+: s ∧ ¬ resumedWord <:+: s

instance (s : Bytes) : Decidable (Unmarked s) :=
  inferInstanceAs (Decidable (¬ unfinishedWord <:+: s ∧ ¬ resumedWord <:+: s))

def Between (c : UInt8) : Prop := c ∉ unfinishedWord ∧ c ∉ resumedWord

instance (c : UInt8) : Decidable (Between c) :=
  inferInstanceAs (Decidable (c ∉ unfinishedWord ∧ c ∉ resumedWord))

theorem unmarkedJoin {c : UInt8} (between : Between c) {a b : Bytes} :
    Unmarked (a ++ c :: b) ↔ Unmarked a ∧ Unmarked b := by
  unfold Unmarked
  rw [Lib.infixApart between.1,Lib.infixApart between.2]
  tauto

theorem unmarkedCons {c : UInt8} (between : Between c) {b : Bytes} :
    Unmarked (c :: b) ↔ Unmarked b := by
  have join : Unmarked ([] ++ c :: b) ↔ Unmarked [] ∧ Unmarked b := unmarkedJoin between
  rw [List.nil_append] at join
  rw [join]
  exact and_iff_right (by decide)

theorem unmarkedRun {a : Bytes} (between : ∀ c ∈ a, Between c) {b : Bytes} :
    Unmarked (a ++ b) ↔ Unmarked b := by
  induction a with
  | nil => rfl
  | cons c a ih =>
    rw [List.cons_append,unmarkedCons (between c List.mem_cons_self),
      ih fun d member => between d (List.mem_cons_of_mem c member)]

theorem digitBetween {c : UInt8} (digit : isDigit 10 c = true) : Between c := by
  have all : ∀ c : UInt8, isDigit 10 c = true → Between c := Lib.everyByte (by decide +kernel)
  exact all c digit

structure Stamp where
  pid : Nat
  gap : Nat
  sec : Nat
  usec : Nat
  pidFits : pid < 2 ^ 31
  secFits : sec < 2 ^ 31
  usecFits : usec < 10 ^ 6

def Stamp.time (s : Stamp) : Bytes := timeText s.sec s.usec

def Stamp.print (s : Stamp) (rest : Bytes) : Bytes :=
  numeral 10 s.pid ++ (List.replicate (s.gap + 1) blank ++ (s.time ++ blank :: rest))

theorem timePlain (sec usec : Nat) : ∀ c ∈ timeText sec usec, isDigit 10 c = true ∨ c = dot := by
  intro c member
  rcases List.mem_append.mp member with front | back
  · exact .inl (Lib.numeralDigits (by decide) (by decide) sec c front)
  · rcases List.mem_cons.mp back with same | digit
    · exact .inr same
    · exact .inl (Lib.paddedDigits 6 usec c digit)

theorem timeSome (sec usec : Nat) : timeText sec usec ≠ [] :=
  List.append_ne_nil_of_left_ne_nil (Lib.numeralSome 10 sec) _

theorem timeShort {sec usec : Nat} (seconds : sec < 2 ^ 31) (micros : usec < 10 ^ 6) :
    (timeText sec usec).length < MAX_TIME_STRING := by
  have front : (numeral 10 sec).length ≤ 10 := (Lib.numeralLength (by decide)).mpr (by omega)
  have back : (padded 6 usec).length = 6 := Lib.paddedLength (by decide) micros
  rw [timeText,List.length_append,List.length_cons,back,MAX_TIME_STRING]
  omega

theorem timeBytes {sec usec : Nat} {p : UInt8 → Prop} (digits : ∀ c, isDigit 10 c = true → p c)
    (other : p dot) : ∀ c ∈ timeText sec usec, p c := by
  intro c member
  rcases timePlain sec usec c member with digit | same
  · exact digits c digit
  · rw [same]
    exact other

theorem digitNoSpace (c : UInt8) (digit : isDigit 10 c = true) : isSpace c = false :=
  (Lib.digitPlain digit (by decide)).1

theorem blankBreaks (rest : Bytes) : Breaks (blank :: rest) := Lib.breaksCons (by decide) rest

theorem signedNat (n : Nat) : signed n = numeral 10 n := by
  rw [signed,if_neg (by omega),Int.natAbs_natCast]

theorem blanksSpace (n : Nat) : ∀ c ∈ List.replicate n blank, isSpace c = true := by
  intro c member
  rw [List.eq_of_mem_replicate member]
  rfl

theorem readsBlanks (n : Nat) {rest : Bytes}
    (next : ∀ c, rest.head? = some c → isSpace c = false) :
    Reads [.space] (List.replicate n blank ++ rest) [] rest :=
  Lib.readsSpace (blanksSpace n) next

theorem readsBlank {rest : Bytes} (next : ∀ c, rest.head? = some c → isSpace c = false) :
    Reads [.space] (blank :: rest) [] rest := readsBlanks 1 next

theorem headAppend {p : UInt8 → Prop} {a b : Bytes} (some : a ≠ []) (all : ∀ c ∈ a, p c) :
    ∀ c, (a ++ b).head? = .some c → p c := by
  intro c first
  rw [List.head?_append_of_ne_nil _ some] at first
  exact all c (List.mem_of_mem_head? first)

theorem pidReads (s : Stamp) (rest : Bytes) : Reads [d] (s.print rest) [.num s.pid]
    (List.replicate (s.gap + 1) blank ++ (s.time ++ blank :: rest)) := by
  have number : Reads [d] (signed s.pid ++ blank :: (List.replicate s.gap blank ++
      (s.time ++ blank :: rest))) [.num s.pid]
      (blank :: (List.replicate s.gap blank ++ (s.time ++ blank :: rest))) :=
    Lib.readsSigned (by decide) s.pid (blankBreaks _)
  rw [signedNat] at number
  exact number

theorem stampReads (s : Stamp) {rest : Bytes}
    (next : ∀ c, rest.head? = some c → isSpace c = false) :
    Reads stampFormat (s.print rest) [.num s.pid,.text s.time] rest := by
  have digits : ∀ c ∈ s.time, isSpace c = false := timeBytes digitNoSpace rfl
  have some : s.time ≠ [] := timeSome s.sec s.usec
  have gap : Reads [.space] (List.replicate (s.gap + 1) blank ++ (s.time ++ blank :: rest)) []
      (s.time ++ blank :: rest) := readsBlanks _ (headAppend some digits)
  have word : Reads [.word MAX_TIME_STRING] (s.time ++ blank :: rest) [.text s.time]
      (blank :: rest) :=
    Lib.readsWord some digits (timeShort s.secFits s.usecFits) fun c first => by
      cases first
      rfl
  exact (((pidReads s rest).append gap).append word).append (readsBlank next)

theorem stampHead (s : Stamp) (rest : Bytes) :
    ∀ c, (s.print rest).head? = some c → isSpace c = false :=
  headAppend (Lib.numeralSome 10 s.pid) fun c member =>
    digitNoSpace c (Lib.numeralDigits (by decide) (by decide) s.pid c member)

theorem stampUnmarked (s : Stamp) (rest : Bytes) : Unmarked (s.print rest) ↔ Unmarked rest := by
  have blanks : ∀ c ∈ List.replicate (s.gap + 1) blank, Between c := fun c member => by
    rw [List.eq_of_mem_replicate member]
    decide
  rw [Stamp.print,
    unmarkedRun fun c member => digitBetween (Lib.numeralDigits (by decide) (by decide) _ c member),
    unmarkedRun blanks,Stamp.time,
    unmarkedRun (timeBytes (fun _ => digitBetween) (by decide)),unmarkedCons (by decide)]

theorem stampOther (s : Stamp) {c : UInt8} (letter : isDigit 10 c = false)
    (other : c ≠ blank ∧ c ≠ dot) : c ∉ s.print [] := by
  have digits : ∀ b, isDigit 10 b = true → b ≠ c := by
    intro b digit same
    rw [same,letter] at digit
    cases digit
  have pid : c ∉ numeral 10 s.pid := fun member =>
    digits c (Lib.numeralDigits (by decide) (by decide) _ c member) rfl
  have time : c ∉ s.time := fun member => timeBytes digits other.2.symm c member rfl
  simp only [Stamp.print,List.mem_append,List.mem_cons,List.mem_replicate,List.not_mem_nil,
    or_false,not_or,not_and]
  exact ⟨pid,fun _ => other.1,time,other.1⟩

structure Result where
  pad : Nat
  retval : Int
  note : Bytes
  sec : Nat
  usec : Nat
  noteLead : ∀ c, note.head? = some c → c = blank
  notePlain : ∀ c ∈ note, c ≠ lt ∧ c ≠ quote ∧ c ≠ comma
  noteUnmarked : Unmarked note
  padFits : pad < 64
  retvalFits : -2 ^ 63 ≤ retval ∧ retval < 2 ^ 63
  noteFits : note.length ≤ 128
  secFits : sec < 2 ^ 31
  usecFits : usec < 10 ^ 6

def Result.time (r : Result) : Bytes := timeText r.sec r.usec

def Result.print (r : Result) (tail : Bytes) : Bytes :=
  rparen :: (List.replicate (r.pad + 1) blank ++ (eq :: blank :: (signed r.retval ++
    (r.note ++ (blank :: lt :: (r.time ++ gt :: tail))))))

theorem signedBytes {z : Int} {p : UInt8 → Prop} (digits : ∀ c, isDigit 10 c = true → p c)
    (minus : p 45) : ∀ c ∈ signed z, p c := by
  intro c member
  rw [signed] at member
  have digit : ∀ c ∈ numeral 10 z.natAbs, p c := fun c member =>
    digits c (Lib.numeralDigits (by decide) (by decide) _ c member)
  split at member
  · rcases List.mem_cons.mp member with same | later
    · rw [same]
      exact minus
    · exact digit c later
  · exact digit c member

theorem signedSome (z : Int) : signed z ≠ [] := by
  unfold signed
  split
  · exact List.cons_ne_nil _ _
  · exact Lib.numeralSome 10 _

theorem noteBreaks (r : Result) (rest : Bytes) : Breaks (r.note ++ blank :: rest) := by
  intro c first
  have same : c = blank := by
    rcases eq_or_ne r.note [] with empty | some
    · rw [empty] at first
      exact (Option.some.inj first).symm
    · rw [List.head?_append_of_ne_nil _ some] at first
      exact r.noteLead c first
  rw [same]
  decide

theorem numberReads (r : Result) {number : Radix} (real : number ≠ .octal) (tail : Bytes) :
    Reads ([.number number,.skip lt] ++ lits "<" ++ [.upto gt none MAX_TIME_STRING])
      (signed r.retval ++ (r.note ++ (blank :: lt :: (r.time ++ gt :: tail))))
      [.num r.retval,.text r.time] (gt :: tail) := by
  have ret : Reads [.number number] (signed r.retval ++ (r.note ++ (blank :: lt :: (r.time ++
      gt :: tail)))) [.num r.retval] (r.note ++ (blank :: lt :: (r.time ++ gt :: tail))) :=
    Lib.readsSigned real r.retval (noteBreaks r _)
  have skip : Reads [.skip lt] (r.note ++ [blank] ++ lt :: (r.time ++ gt :: tail)) []
      (lt :: (r.time ++ gt :: tail)) := by
    refine Lib.readsSkip (by simp) ?_ fun c first => (Option.some.inj first).symm
    intro member
    rcases List.mem_append.mp member with inside | last
    · exact (r.notePlain lt inside).1 rfl
    · exact absurd (List.mem_singleton.mp last) (by decide)
  rw [List.append_assoc,List.singleton_append] at skip
  have clean : gt ∉ r.time := fun member =>
    timeBytes (p := (· ≠ gt)) (fun c digit same => by rw [same] at digit; revert digit; decide)
      (by decide) gt member rfl
  have time : Reads [.upto gt none MAX_TIME_STRING] (r.time ++ gt :: tail) [.text r.time]
      (gt :: tail) :=
    Lib.readsUpto (timeSome r.sec r.usec) clean (timeShort r.secFits r.usecFits)
      (fun _ none => nomatch none) fun c first => (Option.some.inj first).symm
  exact ((ret.append skip).append (Lib.readsLit lt)).append time

theorem resultReads (r : Result) {number : Radix} (real : number ≠ .octal) (tail : Bytes) :
    Reads (resultFormat (.number number)) (r.print tail) [.num r.retval,.text r.time]
      (gt :: tail) := by
  have digits : ∀ c ∈ signed r.retval, isSpace c = false := signedBytes digitNoSpace rfl
  have pad : Reads [.space] (List.replicate (r.pad + 1) blank ++ (eq :: blank ::
      (signed r.retval ++ (r.note ++ (blank :: lt :: (r.time ++ gt :: tail)))))) []
      (eq :: blank :: (signed r.retval ++ (r.note ++ (blank :: lt :: (r.time ++ gt :: tail))))) :=
    readsBlanks _ fun c first => by
      cases first
      rfl
  exact (((Lib.readsLit rparen).append pad).append ((Lib.readsLit eq).append
    (readsBlank (headAppend (signedSome r.retval) digits)))).append (numberReads r real tail)

theorem intReads (r : Result) (tail : Bytes) :
    Reads (resultFormat d) (r.print tail) [.num r.retval,.text r.time] (gt :: tail) :=
  resultReads r (by decide) tail

theorem int64Reads (r : Result) (tail : Bytes) :
    Reads (resultFormat i64) (r.print tail) [.num r.retval,.text r.time] (gt :: tail) :=
  resultReads r (by decide) tail

theorem signedShort {z : Int} (fits : -2 ^ 63 ≤ z ∧ z < 2 ^ 63) : (signed z).length ≤ 20 := by
  have digits : (numeral 10 z.natAbs).length ≤ 19 := (Lib.numeralLength (by decide)).mpr (by omega)
  rw [signed]
  split
  · rw [List.length_cons]
    omega
  · omega

theorem resultShort (r : Result) (tail : Bytes) : (r.print tail).length < 240 + tail.length := by
  have number := signedShort r.retvalFits
  have time : r.time.length < 20 := timeShort r.secFits r.usecFits
  have pad := r.padFits
  have note := r.noteFits
  simp only [Result.print,List.length_cons,List.length_append,List.length_replicate]
  omega

theorem resultUnmarked (r : Result) (tail : Bytes) : Unmarked (r.print tail) ↔ Unmarked tail := by
  have blanks : ∀ c ∈ List.replicate (r.pad + 1) blank, Between c := fun c member => by
    rw [List.eq_of_mem_replicate member]
    decide
  rw [Result.print,unmarkedCons (by decide),unmarkedRun blanks,unmarkedCons (by decide),
    unmarkedCons (by decide),unmarkedRun (signedBytes (fun _ => digitBetween) (by decide)),
    unmarkedJoin (by decide),unmarkedCons (by decide),Result.time,
    unmarkedRun (timeBytes (fun _ => digitBetween) (by decide)),unmarkedCons (by decide)]
  exact and_iff_right r.noteUnmarked

theorem resultPlain (r : Result) {tail : Bytes} (clean : comma ∉ tail) :
    comma ∉ r.print tail := by
  have digits : ∀ c, isDigit 10 c = true → c ≠ comma := fun c digit same => by
    rw [same] at digit
    revert digit
    decide
  have number : comma ∉ signed r.retval := fun member =>
    signedBytes (p := (· ≠ comma)) digits (by decide) comma member rfl
  have time : comma ∉ r.time := fun member =>
    timeBytes (p := (· ≠ comma)) digits (by decide) comma member rfl
  have note : comma ∉ r.note := fun member => (r.notePlain comma member).2.2 rfl
  have blanks : comma ∉ List.replicate (r.pad + 1) blank := fun member =>
    absurd (List.eq_of_mem_replicate member) (by decide)
  simp only [Result.print,List.mem_cons,List.mem_append,not_or]
  exact ⟨by decide,blanks,by decide,by decide,number,note,by decide,by decide,time,by decide,clean⟩

def callInfo (s : Stamp) (r : Result) : OpInfo :=
  ⟨Int32.ofNat s.pid,Int32.ofNat (r.sec * 10 ^ 6 + r.usec),
    ⟨Int32.ofNat s.sec,Int32.ofNat s.usec⟩⟩

theorem opInfoRead (s : Stamp) (r : Result) : opInfo s.pid s.time r.time = callInfo s r := by
  have factor : (1000000 : Int32) = Int32.ofNat 1000000 := rfl
  rw [opInfo,callInfo,Stamp.time,Result.time,readTimeText,readDurationText,factor]
  simp only [Int32.ofInt_eq_ofNat,← Int32.ofNat_mul,← Int32.ofNat_add,Nat.reducePow]

end IoApps.Strace
