import IoApps.Strace

/-! The times and durations strace prints: seconds, a dot and six digits. -/
namespace IoApps.Strace
open Lib (Bytes tokens numeral padded atoi digitsValue isDigit Component)

def timeText (sec usec : Nat) : Bytes := numeral 10 sec ++ dot :: padded 6 usec

theorem atoiDigits {digits : Bytes} (some : digits ≠ [])
    (real : ∀ c ∈ digits, isDigit 10 c = true) : atoi digits = digitsValue 10 digits := by
  have read : Lib.readDigits .decimal (digits ++ []) = .some (digitsValue 10 digits,[]) :=
    Lib.splitDigitsRun (by decide) some real Lib.breaksNil
  have number := Lib.readUnsigned (by decide) some real read
  rw [List.append_nil] at number
  rw [atoi,number]

theorem digitsComponent {digits : Bytes} (some : digits ≠ [])
    (real : ∀ c ∈ digits, isDigit 10 c = true) : Component dot digits :=
  ⟨some,fun member => absurd (real dot member) (by decide)⟩

theorem timeTokens (sec usec : Nat) :
    tokens dot (timeText sec usec) = [numeral 10 sec,padded 6 usec] := by
  have front : Component dot (numeral 10 sec) :=
    digitsComponent (Lib.numeralSome 10 sec) (Lib.numeralDigits (by decide) (by decide) sec)
  have back : Component dot (padded 6 usec) :=
    digitsComponent (Lib.paddedSome 6 usec) (Lib.paddedDigits 6 usec)
  rw [timeText,Lib.tokensCons front,Lib.tokensOne back]

theorem atoiNumeral (n : Nat) : atoi (numeral 10 n) = n := by
  rw [atoiDigits (Lib.numeralSome 10 n) (Lib.numeralDigits (by decide) (by decide) n),
    Lib.numeralValue (by decide) (by decide)]

theorem atoiPadded (width n : Nat) : atoi (padded width n) = n := by
  rw [atoiDigits (Lib.paddedSome width n) (Lib.paddedDigits width n),Lib.paddedValue]

theorem readTimeText (sec usec : Nat) :
    readTime (timeText sec usec) = ⟨Int32.ofInt sec,Int32.ofInt usec⟩ := by
  rw [readTime,timeTokens]
  simp only [atoiNumeral,atoiPadded]

theorem readDurationText (sec usec : Nat) :
    readDuration (timeText sec usec) = Int32.ofInt sec * 1000000 + Int32.ofInt usec := by
  rw [readDuration,timeTokens]
  simp only [atoiNumeral,atoiPadded]

theorem int32Small {n : Nat} (small : n < 2 ^ 31) : (Int32.ofInt n).toInt = n :=
  Int32.toInt_ofInt_of_le (by omega) (by omega)

def NoOverflow (timestr : Bytes) : Prop :=
  ∃ s u, tokens dot timestr = [s,u] ∧ (Int32.ofInt (atoi s)).toInt = atoi s ∧
    (Int32.ofInt (atoi s) * 1000000).toInt = atoi s * 1000000 ∧
    (Int32.ofInt (atoi u)).toInt = atoi u ∧
    (Int32.ofInt (atoi s) * 1000000 + Int32.ofInt (atoi u)).toInt = atoi s * 1000000 + atoi u

structure TimeExact (sec usec : Nat) : Prop where
  tvSec : (readTime (timeText sec usec)).tvSec.toInt = sec
  tvUsec : (readTime (timeText sec usec)).tvUsec.toInt = usec
  duration : (readDuration (timeText sec usec)).toInt = sec * 10 ^ 6 + usec
  steps : NoOverflow (timeText sec usec)

section Small
variable {sec usec : Nat} (small : sec * 10 ^ 6 + usec < 2 ^ 31)
include small

theorem productSmall : (Int32.ofInt sec * 1000000).toInt = sec * 1000000 := by
  have factor : (1000000 : Int32).toInt = 1000000 := by decide
  rw [Int32.toInt_mul,int32Small (show sec < 2 ^ 31 by omega),factor]
  exact Int.bmod_eq_of_le (by omega) (by omega)

theorem sumSmall : (Int32.ofInt sec * 1000000 + Int32.ofInt usec).toInt = sec * 1000000 + usec := by
  rw [Int32.toInt_add,productSmall small,int32Small (show usec < 2 ^ 31 by omega)]
  exact Int.bmod_eq_of_le (by omega) (by omega)

theorem noOverflow : NoOverflow (timeText sec usec) := by
  refine ⟨numeral 10 sec,padded 6 usec,timeTokens sec usec,?_⟩
  rw [atoiNumeral,atoiPadded]
  exact ⟨int32Small (by omega),productSmall small,int32Small (by omega),sumSmall small⟩

end Small

/-- A time is always read exactly; a duration where its microseconds fit into 31 bits. -/
theorem timeExact {sec usec : Nat} (seconds : sec < 2 ^ 31) (micros : usec < 10 ^ 6) :
    TimeExact sec usec ↔ sec * 10 ^ 6 + usec < 2 ^ 31 := by
  constructor
  · intro exact
    have bound := (readDuration (timeText sec usec)).toInt_lt
    have same := exact.duration
    omega
  · intro small
    have time := readTimeText sec usec
    exact {
      tvSec := by rw [time]; exact int32Small seconds
      tvUsec := by rw [time]; exact int32Small (by omega)
      duration := by rw [readDurationText]; exact sumSmall small
      steps := noOverflow small }

theorem timeExactSecond : TimeExact 1 500000 := (timeExact (by decide) (by decide)).mpr (by decide)

theorem durationOverflows : ¬ TimeExact 2147 483648 := by
  intro exact
  have same := exact.duration
  have wrapped : (readDuration (timeText 2147 483648)).toInt = -2147483648 := by decide +kernel
  rw [wrapped] at same
  cases same

end IoApps.Strace
