import Mathlib.Algebra.Order.Ring.Nat

/-! Lists in which a mark takes back the last item that is still there. -/
namespace IoApps.Lib

section Cancel
variable {α : Type} [DecidableEq α] (mark : α)

def settle (counts : α → Bool) : List α → List α → List α
  | stack,[] => stack.reverse
  | stack,c :: rest =>
    if c = mark then settle counts stack.tail rest
    else if counts c then settle counts (c :: stack) rest else settle counts stack rest

def pending (counts : α → Bool) : List α → Nat
  | [] => 0
  | c :: rest =>
    if c = mark then pending counts rest + 1
    else if counts c then pending counts rest - 1 else pending counts rest

def survivors (counts : α → Bool) : List α → List α
  | [] => []
  | c :: rest =>
    if c ≠ mark ∧ counts c ∧ pending mark counts rest = 0 then c :: survivors counts rest
    else survivors counts rest

theorem settleSurvivors (counts : α → Bool) (stack items : List α) :
    settle mark counts stack items =
      (stack.drop (pending mark counts items)).reverse ++ survivors mark counts items := by
  induction items generalizing stack with
  | nil => simp [settle,pending,survivors]
  | cons c rest ih =>
    rw [settle,pending,survivors]
    by_cases up : c = mark
    · rw [if_pos up,if_pos up,if_neg (fun stays => stays.1 up),ih,List.drop_tail]
    · rw [if_neg up,if_neg up]
      cases counted : counts c with
      | false =>
        rw [if_neg (by simp),if_neg (by simp),if_neg (by simp)]
        exact ih stack
      | true =>
        rw [if_pos rfl,if_pos rfl,ih]
        cases left : pending mark counts rest with
        | zero =>
          rw [if_pos ⟨up,rfl,rfl⟩]
          simp
        | succ n =>
          rw [if_neg (by simp)]
          rfl

theorem settled (counts : α → Bool) (items : List α) :
    settle mark counts [] items = survivors mark counts items := by
  rw [settleSurvivors,List.drop_nil,List.reverse_nil,List.nil_append]

theorem memSurvivors {counts : α → Bool} {items : List α} {c : α} :
    c ∈ survivors mark counts items ↔ ∃ rest, c :: rest <:+ items ∧ c ≠ mark ∧
      counts c = true ∧ pending mark counts rest = 0 := by
  induction items with
  | nil => simp [survivors]
  | cons d items ih =>
    have step : c ∈ survivors mark counts (d :: items) ↔
        (c = d ∧ c ≠ mark ∧ counts c = true ∧ pending mark counts items = 0) ∨
          c ∈ survivors mark counts items := by
      rw [survivors]
      split
      · rename_i stays
        rw [List.mem_cons]
        constructor
        · intro either
          exact either.imp_left fun same => ⟨same,same ▸ stays⟩
        · intro either
          exact either.imp_left And.left
      · rename_i gone
        constructor
        · exact .inr
        · intro either
          rcases either with ⟨same,stays⟩ | inside
          · exact absurd (same ▸ stays) gone
          · exact inside
    rw [step,ih]
    constructor
    · intro either
      rcases either with ⟨same,stays⟩ | ⟨rest,tail,stays⟩
      · exact ⟨items,same ▸ List.suffix_rfl,stays⟩
      · exact ⟨rest,tail.trans (List.suffix_cons d items),stays⟩
    · intro found
      obtain ⟨rest,tail,stays⟩ := found
      rcases List.suffix_cons_iff.mp tail with whole | inner
      · obtain ⟨rfl,rfl⟩ := List.cons.inj whole
        exact .inl ⟨rfl,stays⟩
      · exact .inr ⟨rest,inner,stays⟩

section Fewer
variable {fewer more : α → Bool} (less : ∀ c, fewer c = true → more c = true)
include less

theorem pendingLess (items : List α) :
    pending mark more items ≤ pending mark fewer items := by
  induction items with
  | nil => exact Nat.le_refl 0
  | cons c rest ih =>
    rw [pending,pending]
    split
    · exact Nat.succ_le_succ ih
    · cases one : fewer c with
      | true =>
        rw [if_pos (less c one),if_pos rfl]
        omega
      | false =>
        rw [if_neg (show ¬ false = true by simp)]
        split <;> omega

theorem survivorsSublist (items : List α) :
    (survivors mark fewer items).Sublist ((survivors mark more items).filter fewer) := by
  induction items with
  | nil => exact List.Sublist.slnil
  | cons c rest ih =>
    rw [survivors,survivors]
    split
    · rename_i stays
      have bound := pendingLess mark less rest
      rw [if_pos ⟨stays.1,less c stays.2.1,by omega⟩,List.filter_cons_of_pos stays.2.1]
      exact ih.cons_cons c
    · split
      · exact ih.trans (List.Sublist.filter _ (List.sublist_cons_self _ _))
      · exact ih

end Fewer

def Agrees (fewer more : α → Bool) (items : List α) : Prop :=
  ∀ c rest, c :: rest <:+ items → c ≠ mark → fewer c = true →
    0 < pending mark fewer rest → 0 < pending mark more rest

section Agrees
variable {mark} {fewer more : α → Bool} (less : ∀ c, fewer c = true → more c = true)
include less

theorem agreesSurvivors {items : List α} (agrees : Agrees mark fewer more items) :
    (survivors mark more items).filter fewer = survivors mark fewer items := by
  induction items with
  | nil => rfl
  | cons c rest ih =>
    have inner := ih fun d tail suffix => agrees d tail (suffix.trans (List.suffix_cons c rest))
    have here := agrees c rest List.suffix_rfl
    have bound := pendingLess mark less rest
    rw [survivors,survivors]
    split
    · rename_i stays
      cases one : fewer c with
      | true =>
        have both : pending mark fewer rest = 0 := by
          have := here stays.1 one
          omega
        rw [List.filter_cons_of_pos one,if_pos ⟨stays.1,rfl,both⟩,inner]
      | false => rw [List.filter_cons_of_neg (by simp [one]),if_neg (by simp),inner]
    · rename_i gone
      rw [if_neg,inner]
      intro stays
      exact gone ⟨stays.1,less c stays.2.1,by omega⟩

theorem survivorsAgree {items : List α}
    (same : (survivors mark more items).filter fewer = survivors mark fewer items) :
    Agrees mark fewer more items := by
  induction items with
  | nil =>
    intro c rest suffix
    exact absurd (List.suffix_nil.mp suffix) (List.cons_ne_nil c rest)
  | cons d items ih =>
    have sub := survivorsSublist mark less items
    have bound := pendingLess mark less items
    have inner : (survivors mark more items).filter fewer = survivors mark fewer items ∧
        (d ≠ mark → fewer d = true → 0 < pending mark fewer items →
          0 < pending mark more items) := by
      rw [survivors,survivors] at same
      split at same
      · rename_i stays
        cases one : fewer d with
        | true =>
          rw [List.filter_cons_of_pos one] at same
          split at same
          · rename_i both
            refine ⟨(List.cons.inj same).2,fun _ _ some => ?_⟩
            exact absurd both.2.2 (Nat.pos_iff_ne_zero.mp some)
          · have size := congrArg List.length same
            have small := sub.length_le
            rw [List.length_cons] at size
            omega
        | false =>
          rw [List.filter_cons_of_neg (by simp [one]),if_neg (by simp [one])] at same
          exact ⟨same,fun _ counted => absurd counted (by simp)⟩
      · rename_i gone
        rw [if_neg] at same
        · refine ⟨same,fun other counted _ => Nat.pos_of_ne_zero fun zero => ?_⟩
          exact gone ⟨other,less d counted,zero⟩
        · intro stays
          exact gone ⟨stays.1,less d stays.2.1,by omega⟩
    intro c rest suffix
    rcases List.suffix_cons_iff.mp suffix with whole | tail
    · obtain ⟨rfl,rfl⟩ := List.cons.inj whole
      exact inner.2
    · exact ih inner.1 c rest tail

end Agrees
end Cancel

section Weight
variable {α : Type} (weight : α → Nat) {part whole : List α}

theorem sublistLighter (sub : part.Sublist whole) :
    (part.map weight).sum ≤ (whole.map weight).sum := by
  induction sub with
  | slnil => exact Nat.le_refl _
  | cons c sub ih =>
    rw [List.map_cons,List.sum_cons]
    omega
  | cons_cons c sub ih =>
    rw [List.map_cons,List.map_cons,List.sum_cons,List.sum_cons]
    omega

theorem sublistWeight (sub : part.Sublist whole) (heavy : ∀ c ∈ whole, 0 < weight c)
    (same : (part.map weight).sum = (whole.map weight).sum) : part = whole := by
  induction sub with
  | slnil => rfl
  | cons c sub ih =>
    have light := sublistLighter weight sub
    have some := heavy c List.mem_cons_self
    rw [List.map_cons,List.sum_cons] at same
    omega
  | cons_cons c sub ih =>
    rw [List.map_cons,List.map_cons,List.sum_cons,List.sum_cons,Nat.add_left_cancel_iff] at same
    rw [ih (fun d member => heavy d (List.mem_cons_of_mem _ member)) same]

end Weight
end IoApps.Lib
