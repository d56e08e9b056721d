import Mathlib.Data.List.Basic
import Mathlib.Data.List.Infix
import Mathlib.Algebra.Order.Ring.Nat

/-! Readers that take values off the front of a byte string. A reader succeeds, runs out of
bytes, or leaves the memory it may write; only success lets the next reader start. Nothing
here knows a record layout. -/
namespace IoApps.Lib

abbrev Bytes := List UInt8

inductive Got (α : Type) where
  | ok (value : α) (rest : Bytes)
  | failed
  | fault
  deriving DecidableEq, Repr

def Reader (α : Type) := Bytes → Got α

namespace Reader

def give {α : Type} (value : α) : Reader α := fun raw => .ok value raw

def next {α β : Type} (r : Reader α) (f : α → Reader β) : Reader β := fun raw =>
  match r raw with
  | .ok value rest => f value rest
  | .failed => .failed
  | .fault => .fault

instance : Monad Reader where
  pure := give
  bind := next

theorem pureRun {α : Type} (value : α) (raw : Bytes) :
    (pure value : Reader α) raw = .ok value raw := rfl

theorem bindRun {α β : Type} (r : Reader α) (f : α → Reader β) (raw : Bytes) :
    (r >>= f) raw = match r raw with
      | .ok value rest => f value rest
      | .failed => .failed
      | .fault => .fault := rfl

theorem bindOk {α β : Type} {r : Reader α} {f : α → Reader β} {raw : Bytes} {value rest}
    (h : r raw = .ok value rest) : (r >>= f) raw = f value rest := by
  rw [bindRun,h]

theorem bindFailed {α β : Type} {r : Reader α} {f : α → Reader β} {raw : Bytes}
    (h : r raw = .failed) : (r >>= f) raw = .failed := by
  rw [bindRun,h]

theorem bindSource {α β : Type} {r : Reader α} {f : α → Reader β} {raw : Bytes} {b rest}
    (h : (r >>= f) raw = .ok b rest) : ∃ a mid, r raw = .ok a mid ∧ f a mid = .ok b rest := by
  rw [bindRun] at h
  cases e : r raw with
  | ok a mid => rw [e] at h; exact ⟨a,mid,rfl,h⟩
  | failed => simp [e] at h
  | fault => simp [e] at h

/-- The byte strings a reader takes are exactly those of a shape, and it asks for more
bytes on every proper prefix of one. -/
structure Shaped {α : Type} (r : Reader α) (shape : Bytes → Prop) : Prop where
  taken : ∀ raw value rest, r raw = .ok value rest → ∃ used, raw = used ++ rest ∧ shape used
  given : ∀ used rest, shape used → ∃ value, r (used ++ rest) = .ok value rest
  cut : ∀ used part, shape used → part <+: used → part ≠ used → r part = .failed

def Both (first second : Bytes → Prop) (raw : Bytes) : Prop :=
  ∃ x y, raw = x ++ y ∧ first x ∧ second y

theorem prefixSplit {part x y : Bytes} (h : part <+: x ++ y) :
    (part <+: x ∧ part ≠ x) ∨ ∃ tail, part = x ++ tail ∧ tail <+: y := by
  obtain ⟨after,same⟩ := h
  rcases List.append_eq_append_iff.mp same with ⟨extra,eq,_⟩ | ⟨extra,eq,later⟩
  · by_cases whole : part = x
    · exact .inr ⟨[],by simp [whole],List.nil_prefix⟩
    · exact .inl ⟨⟨extra,eq.symm⟩,whole⟩
  · exact .inr ⟨extra,eq,⟨after,later.symm⟩⟩

theorem pureShaped {α : Type} (value : α) : Shaped (pure value : Reader α) (· = []) where
  taken raw value rest h := by
    rw [pureRun] at h
    cases h
    exact ⟨[],rfl,rfl⟩
  given used rest h := ⟨value,by simp [pureRun,h]⟩
  cut used part h inside different := by
    subst h
    exact absurd (List.prefix_nil.mp inside) different

theorem Shaped.bind {α β : Type} {r : Reader α} {f : α → Reader β} {first second : Bytes → Prop}
    (hr : Shaped r first) (hf : ∀ a, Shaped (f a) second) :
    Shaped (r >>= f) (Both first second) where
  taken raw b rest h := by
    obtain ⟨a,mid,ha,hb⟩ := bindSource h
    obtain ⟨x,sx,px⟩ := hr.taken _ _ _ ha
    obtain ⟨y,sy,py⟩ := (hf a).taken _ _ _ hb
    exact ⟨x ++ y,by rw [sx,sy,List.append_assoc],x,y,rfl,px,py⟩
  given used rest h := by
    obtain ⟨x,y,rfl,px,py⟩ := h
    obtain ⟨a,ha⟩ := hr.given x (y ++ rest) px
    obtain ⟨b,hb⟩ := (hf a).given y rest py
    exact ⟨b,by rw [List.append_assoc,bindOk ha,hb]⟩
  cut used part h inside different := by
    obtain ⟨x,y,rfl,px,py⟩ := h
    rcases prefixSplit inside with ⟨early,ne⟩ | ⟨tail,rfl,late⟩
    · exact bindFailed (hr.cut x part px early ne)
    · obtain ⟨a,ha⟩ := hr.given x tail px
      rw [bindOk ha]
      exact (hf a).cut y tail py late (fun same => different (by rw [same]))

theorem Shaped.map {α β : Type} {r : Reader α} {shape : Bytes → Prop} (f : α → β)
    (hr : Shaped r shape) : Shaped (r >>= fun a => pure (f a)) shape where
  taken raw b rest h := by
    obtain ⟨a,mid,ha,hb⟩ := bindSource h
    rw [pureRun] at hb
    cases hb
    exact hr.taken _ _ _ ha
  given used rest h := by
    obtain ⟨a,ha⟩ := hr.given used rest h
    exact ⟨f a,by rw [bindOk ha]; rfl⟩
  cut used part h inside different := bindFailed (hr.cut used part h inside different)

def Safe {α : Type} (r : Reader α) : Prop := ∀ raw, r raw ≠ .fault

theorem pureSafe {α : Type} (value : α) : Safe (pure value : Reader α) := fun raw => by
  simp [pureRun]

theorem bindFault {α β : Type} {r : Reader α} {f : α → Reader β} (safe : ∀ a, Safe (f a))
    (raw : Bytes) : (r >>= f) raw = .fault ↔ r raw = .fault := by
  rw [bindRun]
  cases e : r raw with
  | ok a mid => simp [safe a mid]
  | failed => simp
  | fault => simp

theorem Safe.bind {α β : Type} {r : Reader α} {f : α → Reader β} (hr : Safe r)
    (hf : ∀ a, Safe (f a)) : Safe (r >>= f) := fun raw h =>
  hr raw ((bindFault hf raw).mp h)

end Reader

def le : Nat → Nat → Bytes
  | 0, _ => []
  | width+1, value => UInt8.ofNat (value % 256) :: le width (value / 256)

def readLE : Bytes → Nat
  | [] => 0
  | b :: rest => b.toNat + 256 * readLE rest

theorem leLength (width value : Nat) : (le width value).length = width := by
  induction width generalizing value with
  | zero => rfl
  | succ width ih => simp [le,ih]

theorem readLeBounded (width value : Nat) (bound : value < 256 ^ width) :
    readLE (le width value) = value := by
  induction width generalizing value with
  | zero => simp at bound; simp [le,readLE,bound]
  | succ width ih =>
    have small : value / 256 < 256 ^ width := by
      rw [pow_succ] at bound
      exact Nat.div_lt_of_lt_mul (by omega)
    simp only [le,readLE,ih _ small,UInt8.toNat_ofNat']
    omega

theorem readLEBound (raw : Bytes) : readLE raw < 256 ^ raw.length := by
  induction raw with
  | nil => simp [readLE]
  | cons b rest ih =>
    have hb := b.toNat_lt
    rw [readLE,List.length_cons,pow_succ]
    omega

def takeBytes (count : Nat) : Reader Bytes := fun raw =>
  if count ≤ raw.length then .ok (raw.take count) (raw.drop count) else .failed

theorem takeGiven (used rest : Bytes) : takeBytes used.length (used ++ rest) = .ok used rest := by
  simp [takeBytes]

theorem takeShaped (count : Nat) : Reader.Shaped (takeBytes count) (·.length = count) where
  taken raw value rest h := by
    unfold takeBytes at h
    split at h <;> try contradiction
    rename_i enough
    cases h
    exact ⟨raw.take count,by simp,by simp [enough]⟩
  given used rest h := ⟨used,by rw [← h]; exact takeGiven used rest⟩
  cut used part h inside different := by
    have small : part.length < count := by
      rcases Nat.lt_or_ge part.length used.length with lt | ge
      · omega
      · exact absurd (inside.eq_of_length_le ge) different
    simp [takeBytes,Nat.not_le.mpr small]

theorem takeSafe (count : Nat) : Reader.Safe (takeBytes count) := fun raw => by
  unfold takeBytes; split <;> simp

end IoApps.Lib
