import IoApps.Lib.Tree
import Mathlib.SetTheory.Descriptive.Tree

/-! Prefix-closed sets of paths with their root, and the set a keyed tree stands for. -/
namespace IoApps.Lib
open Descriptive (tree)

structure Paths (κ : Type) where
  nodes : tree κ
  root : [] ∈ nodes

namespace Paths
variable {κ : Type}

instance : Membership (List κ) (Paths κ) := ⟨fun s p => p ∈ s.nodes⟩

theorem closed {s : Paths κ} {p q : List κ} (ahead : p <+: q) (inside : q ∈ s) : p ∈ s :=
  Descriptive.Tree.mem_of_prefix ahead inside

theorem ext {s s' : Paths κ} (same : ∀ p, p ∈ s ↔ p ∈ s') : s = s' := by
  cases s
  cases s'
  congr
  exact SetLike.ext same

def only : Paths κ where
  nodes := ⟨{p | p = []},fun x a h =>
    absurd (show x ++ [a] = [] from h) (List.append_ne_nil_of_right_ne_nil x (by simp))⟩
  root := rfl

def insert (s : Paths κ) (path : List κ) : Paths κ where
  nodes := s.nodes ⊔ ⟨{q | q <+: path},fun _ _ h => (List.prefix_append _ _).trans h⟩
  root := .inl s.root

def delete (s : Paths κ) (path : List κ) : Paths κ where
  nodes := ⟨{q | q ∈ s ∧ (path <+: q → q = [])},fun x a h =>
    ⟨closed (List.prefix_append _ _) h.1,fun ahead =>
      absurd (h.2 (ahead.trans (List.prefix_append _ _))) (by simp)⟩⟩
  root := ⟨s.root,fun _ => rfl⟩

@[simp] theorem memOnly {p : List κ} : p ∈ (only : Paths κ) ↔ p = [] := Iff.rfl

@[simp] theorem memInsert {s : Paths κ} {path q : List κ} :
    q ∈ s.insert path ↔ q ∈ s ∨ q <+: path := Iff.rfl

@[simp] theorem memDelete {s : Paths κ} {path q : List κ} :
    q ∈ s.delete path ↔ q ∈ s ∧ (path <+: q → q = []) := Iff.rfl

theorem memDeleteBelow {s : Paths κ} {path q : List κ} (below : path ≠ []) :
    q ∈ s.delete path ↔ q ∈ s ∧ ¬ path <+: q := by
  refine and_congr_right fun _ => ⟨fun only ahead => ?_,fun aside ahead => absurd ahead aside⟩
  exact below (List.prefix_nil.mp (only ahead ▸ ahead))

end Paths

namespace Tree
variable {κ δ : Type} [DecidableEq κ]

def paths (t : Tree κ δ) : Paths κ where
  nodes := ⟨{p | (t.at? p).isSome},fun _ _ h => atPrefix h⟩
  root := rfl

theorem memPaths {t : Tree κ δ} {p : List κ} : p ∈ t.paths ↔ (t.walk p).isSome := by
  change (t.at? p).isSome = true ↔ _
  rw [at?,Option.isSome_map]

theorem pathsLeaf (data : δ) : (leaf data : Tree κ δ).paths = Paths.only := by
  refine Paths.ext fun p => ?_
  rw [memPaths,Paths.memOnly]
  cases p with
  | nil => simp [walk]
  | cons k p => simp [leaf,walk,Forest.find]

theorem pathsInsert (t : Tree κ δ) (new : δ) (path : List κ) :
    (t.insert new path).paths = t.paths.insert path := by
  refine Paths.ext fun q => ?_
  change ((t.insert new path).at? q).isSome = true ↔ (t.at? q).isSome = true ∨ q <+: path
  rw [atInsert]
  split
  · rename_i h
    simp [h.2.1]
  · rename_i h
    refine ⟨.inl,fun there => there.elim id fun ahead => ?_⟩
    by_cases root : q = []
    · subst root
      rfl
    · rw [not_and,not_and] at h
      exact Option.isSome_iff_ne_none.mpr (h root ahead)

theorem pathsRemove {t : Tree κ δ} (distinct : t.Distinct) (path : List κ) :
    (t.remove path).paths = t.paths.delete path := by
  refine Paths.ext fun q => ?_
  cases path with
  | nil =>
    rw [memPaths,Paths.memDelete]
    cases q with
    | nil => exact ⟨fun _ => ⟨t.paths.root,fun _ => rfl⟩,fun _ => rfl⟩
    | cons k q => simp [walk,remove,Forest.find]
  | cons k path =>
    rw [Paths.memDeleteBelow (List.cons_ne_nil k path)]
    change ((t.remove (k :: path)).at? q).isSome = true ↔ (t.at? q).isSome = true ∧ _
    rw [atRemove distinct (List.cons_ne_nil k path)]
    split
    · rename_i ahead
      simp [ahead]
    · rename_i aside
      simp [aside]

theorem childrenNil {t m : Tree κ δ} {p : List κ} (found : t.walk p = some m) :
    m.children = .nil ↔ ∀ q ∈ t.paths, p <+: q → q = p := by
  constructor
  · rintro bare q inside ⟨r,rfl⟩
    rw [memPaths,walkAppend,found,Option.bind_some] at inside
    cases r with
    | nil => exact List.append_nil p
    | cons k r => simp [walk,bare,Forest.find] at inside
  · intro alone
    cases children : m.children with
    | nil => rfl
    | cons key data below rest =>
      have inside : p ++ [key] ∈ t.paths := by
        rw [memPaths,walkAppend,found]
        simp [walk,children,Forest.find]
      exact absurd (alone _ inside (List.prefix_append _ _)) (by simp)

end Tree
end IoApps.Lib
