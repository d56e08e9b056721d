import Mathlib.Data.List.Nodup
import Mathlib.Logic.Function.Basic

/-! Records that are linked both ways. A segment is a part of such a chain, with what comes before
its first record and after its last one. -/
namespace IoApps.Lib

structure Links (α : Type) where
  prev : Option α
  next : Option α
  deriving DecidableEq, Repr

variable {α : Type}

def Segment (links : α → Option (Links α)) : Option α → List α → Option α → Prop
  | _,[],_ => True
  | prev,x :: rest,next =>
    links x = some ⟨prev,rest.head?.or next⟩ ∧ Segment links (some x) rest next

namespace Segment
variable {links links' : α → Option (Links α)} {prev next : Option α} {xs ys : List α} {a x : α}

theorem append : Segment links prev (xs ++ ys) next ↔
    Segment links prev xs (ys.head?.or next) ∧ Segment links (xs.getLast?.or prev) ys next := by
  induction xs generalizing prev with
  | nil => simp [Segment]
  | cons x rest ih =>
    have first : (rest ++ ys).head?.or next = rest.head?.or (ys.head?.or next) := by
      rw [List.head?_append,Option.or_assoc]
    have last : (x :: rest).getLast?.or prev = rest.getLast?.or (some x) := by
      rw [List.getLast?_cons]
      cases rest.getLast? <;> rfl
    rw [List.cons_append,Segment,Segment,ih,first,last,and_assoc]

theorem linked (segment : Segment links prev xs next) (inside : x ∈ xs) :
    ∃ l, links x = some l := by
  induction xs generalizing prev with
  | nil => exact absurd inside List.not_mem_nil
  | cons y rest ih =>
    obtain ⟨here,others⟩ := segment
    cases inside with
    | head => exact ⟨_,here⟩
    | tail _ inside => exact ih others inside

theorem frame (segment : Segment links prev xs next) (same : ∀ x ∈ xs, links' x = links x) :
    Segment links' prev xs next := by
  induction xs generalizing prev with
  | nil => trivial
  | cons x rest ih =>
    obtain ⟨here,others⟩ := segment
    have kept : links' x = links x := same x List.mem_cons_self
    exact ⟨kept.trans here,ih others fun y inside => same y (List.mem_cons_of_mem _ inside)⟩

theorem setNext (segment : Segment links prev xs next) (nodup : xs.Nodup) {next' : Option α}
    (last : ∀ z ∈ xs.getLast?, links' z = (links z).map fun l => { l with next := next' })
    (others : ∀ x ∈ xs, x ∉ xs.getLast? → links' x = links x) : Segment links' prev xs next' := by
  obtain rfl | ⟨front,z,rfl⟩ := List.eq_nil_or_concat' xs
  · trivial
  · obtain ⟨before,at_,_⟩ := append.mp segment
    have kept : ∀ x ∈ front, links' x = links x := by
      intro x inside
      apply others x (List.mem_append_left _ inside)
      rw [List.getLast?_concat,Option.mem_some_iff]
      intro same
      exact (List.nodup_append.mp nodup).2.2 x inside x (by simp [same]) rfl
    have here := last z (by simp)
    rw [at_] at here
    exact append.mpr ⟨before.frame kept,here,trivial⟩

theorem setPrev (segment : Segment links prev xs next) (nodup : xs.Nodup) {prev' : Option α}
    (first : ∀ z ∈ xs.head?, links' z = (links z).map fun l => { l with prev := prev' })
    (others : ∀ x ∈ xs, x ∉ xs.head? → links' x = links x) : Segment links' prev' xs next := by
  cases xs with
  | nil => trivial
  | cons z rest =>
    obtain ⟨at_,after⟩ := segment
    have here := first z rfl
    rw [at_] at here
    refine ⟨here,after.frame fun x inside => others x (List.mem_cons_of_mem _ inside) ?_⟩
    rw [List.head?_cons,Option.mem_some_iff]
    intro same
    exact (List.nodup_cons.mp nodup).1 (same ▸ inside)

theorem link (segment : Segment links none (xs ++ ys) none) (nodup : (xs ++ a :: ys).Nodup)
    (here : links' a = some ⟨xs.getLast?,ys.head?⟩)
    (last : ∀ z ∈ xs.getLast?, links' z = (links z).map fun l => { l with next := some a })
    (first : ∀ z ∈ ys.head?, links' z = (links z).map fun l => { l with prev := some a })
    (others : ∀ x, x ≠ a → x ∉ xs.getLast? → x ∉ ys.head? → links' x = links x) :
    Segment links' none (xs ++ a :: ys) none := by
  obtain ⟨before,after⟩ := append.mp segment
  obtain ⟨left,right,apart⟩ := List.nodup_append.mp nodup
  obtain ⟨fresh,right⟩ := List.nodup_cons.mp right
  have between : ∀ x ∈ xs, x ≠ a ∧ x ∉ ys.head? := fun x inside =>
    ⟨apart x inside a List.mem_cons_self,fun head => apart x inside x
      (List.mem_cons_of_mem _ (List.mem_of_mem_head? head)) rfl⟩
  have beyond : ∀ y ∈ ys, y ≠ a ∧ y ∉ xs.getLast? := fun y inside =>
    ⟨fun same => fresh (same ▸ inside),fun end_ => apart y (List.mem_of_mem_getLast? end_) y
      (List.mem_cons_of_mem _ inside) rfl⟩
  refine append.mpr ⟨?_,?_,?_⟩
  · exact before.setNext left last fun x inside apart =>
      others x (between x inside).1 apart (between x inside).2
  · simpa using here
  · exact after.setPrev right first fun y inside apart =>
      others y (beyond y inside).1 (beyond y inside).2 apart

theorem unlink (segment : Segment links none (xs ++ a :: ys) none) (nodup : (xs ++ a :: ys).Nodup)
    (last : ∀ z ∈ xs.getLast?, links' z = (links z).map fun l => { l with next := ys.head? })
    (first : ∀ z ∈ ys.head?, links' z = (links z).map fun l => { l with prev := xs.getLast? })
    (others : ∀ x, x ≠ a → x ∉ xs.getLast? → x ∉ ys.head? → links' x = links x) :
    Segment links' none (xs ++ ys) none := by
  obtain ⟨before,_,after⟩ := append.mp segment
  obtain ⟨left,right,apart⟩ := List.nodup_append.mp nodup
  obtain ⟨fresh,right⟩ := List.nodup_cons.mp right
  have between : ∀ x ∈ xs, x ≠ a ∧ x ∉ ys.head? := fun x inside =>
    ⟨apart x inside a List.mem_cons_self,fun head => apart x inside x
      (List.mem_cons_of_mem _ (List.mem_of_mem_head? head)) rfl⟩
  have beyond : ∀ y ∈ ys, y ≠ a ∧ y ∉ xs.getLast? := fun y inside =>
    ⟨fun same => fresh (same ▸ inside),fun end_ => apart y (List.mem_of_mem_getLast? end_) y
      (List.mem_cons_of_mem _ inside) rfl⟩
  refine append.mpr ⟨?_,?_⟩
  · simpa using before.setNext left last fun x inside apart =>
      others x (between x inside).1 apart (between x inside).2
  · simpa using after.setPrev right first fun y inside apart =>
      others y (beyond y inside).1 (beyond y inside).2 apart

theorem middle (segment : Segment links none (xs ++ a :: ys) none) :
    links a = some ⟨xs.getLast?,ys.head?⟩ := by
  simpa using (append.mp segment).2.1

end Segment
end IoApps.Lib
