import Mathlib.Data.List.TakeWhile
import IoApps.Lib.Reader

/-! Numbers as text, the way printf writes them and scanf and atoi read them. -/
namespace IoApps.Lib

def ascii (s : String) : Bytes := s.toList.map fun c => UInt8.ofNat c.toNat

-- isspace in the C locale.
def isSpace (c : UInt8) : Bool := c == 32 || (9 ≤ c && c ≤ 13)

def skipSpace (s : Bytes) : Bytes := s.dropWhile isSpace

def digitVal (c : UInt8) : Nat :=
  if 48 ≤ c ∧ c ≤ 57 then c.toNat - 48
  else if 97 ≤ c ∧ c ≤ 102 then c.toNat - 87
  else if 65 ≤ c ∧ c ≤ 70 then c.toNat - 55
  else 16

def isDigit (base : Nat) (c : UInt8) : Bool := digitVal c < base

def digitsValue (base : Nat) (s : Bytes) : Nat := s.foldl (fun n c => n * base + digitVal c) 0

def numeral (base n : Nat) : Bytes := (Nat.toDigits base n).map fun c => UInt8.ofNat c.toNat

-- %d, %lld and so on.
def signed (z : Int) : Bytes := if z < 0 then 45 :: numeral 10 z.natAbs else numeral 10 z.natAbs

-- %0*u.
def padded (width n : Nat) : Bytes :=
  List.replicate (width - (numeral 10 n).length) 48 ++ numeral 10 n

theorem everyByte {P : UInt8 → Prop} (all : ∀ n < 256, P (UInt8.ofNat n)) (c : UInt8) : P c := by
  have here := all c.toNat c.toNat_lt
  rwa [UInt8.ofNat_toNat] at here

def digitByte (d : Nat) : UInt8 := UInt8.ofNat (48 + d)

theorem digitByteVal {d : Nat} (small : d < 10) : digitVal (digitByte d) = d := by
  have all : ∀ d < 10, digitVal (digitByte d) = d := by decide
  exact all d small

theorem digitByteZero {d : Nat} (small : d < 10) : digitByte d = 48 ↔ d = 0 := by
  have all : ∀ d < 10, digitByte d = 48 ↔ d = 0 := by decide
  exact all d small

theorem numeralSome (base n : Nat) : numeral base n ≠ [] := by
  rw [numeral,ne_eq,List.map_eq_nil_iff]
  exact Nat.toDigits_ne_nil

section Numeral
variable {base : Nat} (low : 1 < base) (high : base ≤ 10)
include low high

theorem numeralSmall {n : Nat} (small : n < base) : numeral base n = [digitByte n] := by
  have all : ∀ d < 10, UInt8.ofNat (Nat.digitChar d).toNat = digitByte d := by decide
  rw [numeral,Nat.toDigits_of_lt_base small,List.map_singleton,all n (by omega)]

theorem numeralStep {n : Nat} (large : base ≤ n) :
    numeral base n = numeral base (n / base) ++ [digitByte (n % base)] := by
  have rest : n % base < base := Nat.mod_lt _ (by omega)
  have last := numeralSmall low high rest
  rw [numeral,Nat.toDigits_of_lt_base rest] at last
  rw [numeral,Nat.toDigits_of_base_le low large,List.map_append,last,numeral]

theorem numeralDigits (n : Nat) : ∀ c ∈ numeral base n, isDigit base c = true := by
  induction n using Nat.strongRecOn with
  | ind n ih =>
    intro c member
    rcases Nat.lt_or_ge n base with small | large
    · rw [numeralSmall low high small] at member
      rw [List.mem_singleton.mp member,isDigit,digitByteVal (by omega)]
      exact decide_eq_true small
    · rw [numeralStep low high large] at member
      have rest : n % base < base := Nat.mod_lt _ (by omega)
      rcases List.mem_append.mp member with front | last
      · exact ih (n / base) (Nat.div_lt_self (by omega) low) c front
      · rw [List.mem_singleton.mp last,isDigit,digitByteVal (by omega)]
        exact decide_eq_true rest

theorem numeralValue (n : Nat) : digitsValue base (numeral base n) = n := by
  induction n using Nat.strongRecOn with
  | ind n ih =>
    rcases Nat.lt_or_ge n base with small | large
    · rw [numeralSmall low high small]
      have value := digitByteVal (show n < 10 by omega)
      simp [digitsValue,value]
    · have rest : n % base < base := Nat.mod_lt _ (by omega)
      have value := digitByteVal (show n % base < 10 by omega)
      have front := ih (n / base) (Nat.div_lt_self (by omega) low)
      rw [digitsValue] at front
      rw [numeralStep low high large,digitsValue,List.foldl_append,front]
      simp only [List.foldl_cons,List.foldl_nil,value]
      exact Nat.div_add_mod' n base

theorem numeralLead {n : Nat} (zero : (numeral base n).head? = some 48) : n = 0 := by
  induction n using Nat.strongRecOn with
  | ind n ih =>
    rcases Nat.lt_or_ge n base with small | large
    · rw [numeralSmall low high small] at zero
      exact (digitByteZero (by omega)).mp (Option.some.inj zero)
    · obtain ⟨c,rest,front⟩ := List.exists_cons_of_ne_nil (numeralSome base (n / base))
      rw [numeralStep low high large,front] at zero
      have none := ih (n / base) (Nat.div_lt_self (by omega) low) (by rw [front]; exact zero)
      have some : 0 < n / base := Nat.div_pos large (by omega)
      omega

end Numeral

theorem numeralLength {n k : Nat} (some : 0 < k) : (numeral 10 n).length ≤ k ↔ n < 10 ^ k := by
  rw [numeral,List.length_map]
  exact Nat.length_toDigits_le_iff (by decide) some

theorem digitsZeros (base k : Nat) (s : Bytes) :
    digitsValue base (List.replicate k 48 ++ s) = digitsValue base s := by
  induction k with
  | zero => rfl
  | succ k ih =>
    rw [List.replicate_succ,List.cons_append,← ih,digitsValue,digitsValue,List.foldl_cons]
    congr 1
    have zero : digitVal 48 = 0 := rfl
    omega

theorem paddedValue (width n : Nat) : digitsValue 10 (padded width n) = n := by
  rw [padded,digitsZeros,numeralValue (by decide) (by decide)]

theorem paddedDigits (width n : Nat) : ∀ c ∈ padded width n, isDigit 10 c = true := by
  intro c member
  rcases List.mem_append.mp member with zero | digit
  · rw [List.eq_of_mem_replicate zero]
    rfl
  · exact numeralDigits (by decide) (by decide) n c digit

theorem paddedSome (width n : Nat) : padded width n ≠ [] :=
  List.append_ne_nil_of_right_ne_nil _ (numeralSome 10 n)

theorem paddedLength {width n : Nat} (some : 0 < width) (small : n < 10 ^ width) :
    (padded width n).length = width := by
  have short := (numeralLength some).mpr small
  rw [padded,List.length_append,List.length_replicate]
  omega

end IoApps.Lib
