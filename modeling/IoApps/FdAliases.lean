import IoApps.FdMap
import Mathlib.Data.Finset.Card

/-! The alias array of an open descriptor against a set of at most MAX_PARENT_IDS numbers. -/
namespace IoApps

inductive AliasCall where
  | insert (fd : Int32)
  | delete (fd : Int32)
  deriving DecidableEq, Repr

def aliasCalls : FdMap → List AliasCall → Except FdFault (FdMap × List Bool)
  | m,[] => .ok (m,[])
  | m,.insert fd :: calls => do
    let m ← insertParentFd m fd
    aliasCalls m calls
  | m,.delete fd :: calls => do
    let r ← deleteParentFd m fd
    let rest ← aliasCalls r.1 calls
    .ok (rest.1,r.2 :: rest.2)

def AliasCall.next (s : Finset Int32) : AliasCall → Finset Int32
  | .insert fd => if s.card < MAX_PARENT_IDS then s ∪ {fd} else s
  | .delete fd => s.erase fd

def AliasCall.Allowed (s : Finset Int32) : AliasCall → Prop
  | .insert fd => 0 ≤ fd ∧ fd ∉ s
  | .delete fd => fd ∈ s

def aliasesKept (s : Finset Int32) (calls : List AliasCall) : Finset Int32 :=
  calls.foldl AliasCall.next s

def AliasesAllowed : Finset Int32 → List AliasCall → Prop
  | _,[] => True
  | s,call :: calls => call.Allowed s ∧ AliasesAllowed (call.next s) calls

def aliasesEmptied : Finset Int32 → List AliasCall → List Bool
  | _,[] => []
  | s,.insert fd :: calls => aliasesEmptied ((AliasCall.insert fd).next s) calls
  | s,.delete fd :: calls =>
    decide (s.erase fd = ∅) :: aliasesEmptied ((AliasCall.delete fd).next s) calls

/-- The array holds this set: its members in front, each once, and -1 behind them. -/
structure AliasSet (m : FdMap) (s : Finset Int32) : Prop where
  size : m.parentFds.length = MAX_PARENT_IDS
  index : m.lastParIndex = (s.card : Int) - 1
  distinct : (m.parentFds.take s.card).Nodup
  exact : ∀ fd, fd ∈ m.parentFds.take s.card ↔ fd ∈ s
  behind : ∀ x ∈ m.parentFds.drop s.card, x = -1
  full : s.card = MAX_PARENT_IDS → ∀ fd, 0 ≤ fd → fd ∉ s → insertParentFd m fd = .ok m

theorem validNotFree {fd : Int32} (valid : 0 ≤ fd) : fd ≠ -1 := by
  intro same
  rw [same] at valid
  revert valid
  decide

section Stored
variable {m : FdMap} {stored : List Int32} (parents : Parents m stored)
include parents

theorem storedCard : stored.toFinset.card = stored.length :=
  List.toFinset_card_of_nodup parents.nodup

theorem storedSet : AliasSet m stored.toFinset := by
  have card := storedCard parents
  have front : m.parentFds.take stored.toFinset.card = stored := by
    rw [card,parents.array,List.take_left]
  have tail : m.parentFds.drop stored.toFinset.card =
      List.replicate (MAX_PARENT_IDS - stored.length) (-1) := by
    rw [card,parents.array,List.drop_left]
  refine ⟨?_,?_,?_,?_,?_,?_⟩
  · have small := parents.small
    rw [parents.array,List.length_append,List.length_replicate]
    omega
  · rw [card]
    exact parents.last
  · rw [front]
    exact parents.nodup
  · intro fd
    rw [front,List.mem_toFinset]
  · intro x member
    rw [tail] at member
    exact List.eq_of_mem_replicate member
  · intro full fd valid absent
    rw [card] at full
    exact insertParentFull parents (fun member => absent (List.mem_toFinset.mpr member))
      (validNotFree valid) full

theorem insertStep {fd : Int32} (allowed : (AliasCall.insert fd).Allowed stored.toFinset) :
    ∃ m' stored', insertParentFd m fd = .ok m' ∧ Parents m' stored' ∧
      stored'.toFinset = (AliasCall.insert fd).next stored.toFinset := by
  obtain ⟨valid,absent⟩ := allowed
  have fresh : fd ∉ stored := fun member => absent (List.mem_toFinset.mpr member)
  have card := storedCard parents
  rw [AliasCall.next]
  rcases Nat.lt_or_ge stored.length MAX_PARENT_IDS with room | full
  · obtain ⟨_,_,ran,kept⟩ := insertParentRoom parents fresh (validNotFree valid) room
    refine ⟨_,_,ran,kept,?_⟩
    rw [if_pos (card.symm ▸ room),List.toFinset_append]
    rfl
  · have whole : stored.length = MAX_PARENT_IDS := Nat.le_antisymm parents.small full
    refine ⟨m,stored,insertParentFull parents fresh (validNotFree valid) whole,parents,?_⟩
    rw [if_neg (card.symm ▸ Nat.not_lt.mpr full)]

theorem deleteStep {fd : Int32} (allowed : (AliasCall.delete fd).Allowed stored.toFinset) :
    ∃ m' stored', deleteParentFd m fd =
        .ok (m',decide (stored.toFinset.erase fd = ∅)) ∧ Parents m' stored' ∧
      stored'.toFinset = (AliasCall.delete fd).next stored.toFinset := by
  obtain ⟨_,_,stored',last,ran,kept,perm,told⟩ :=
    deleteParentPresent parents (List.mem_toFinset.mp allowed)
  have less : fd ∉ stored' := (List.nodup_cons.mp (perm.symm.nodup parents.nodup)).1
  have left : stored'.toFinset = stored.toFinset.erase fd := by
    rw [← List.toFinset_eq_of_perm _ _ perm,List.toFinset_cons,Finset.erase_insert]
    exact fun member => less (List.mem_toFinset.mp member)
  have same : last = decide (stored.toFinset.erase fd = ∅) := by
    rw [← left,Bool.eq_iff_iff,told,decide_eq_true_iff,List.toFinset_eq_empty_iff]
  exact ⟨_,stored',same ▸ ran,kept,left⟩

theorem aliasesRun {calls : List AliasCall} (allowed : AliasesAllowed stored.toFinset calls) :
    ∃ m' stored', aliasCalls m calls = .ok (m',aliasesEmptied stored.toFinset calls) ∧
      Parents m' stored' ∧ stored'.toFinset = aliasesKept stored.toFinset calls := by
  induction calls generalizing m stored with
  | nil => exact ⟨m,stored,rfl,parents,rfl⟩
  | cons call calls ih =>
    obtain ⟨here,later⟩ := allowed
    cases call with
    | insert fd =>
      obtain ⟨m',next,ran,kept,left⟩ := insertStep parents here
      rw [← left] at later
      obtain ⟨final,last,rest,holds,told⟩ := ih kept later
      refine ⟨final,last,?_,holds,?_⟩
      · rw [aliasCalls,ran,aliasesEmptied,← left]
        exact rest
      · rw [told,left]
        rfl
    | delete fd =>
      obtain ⟨m',next,ran,kept,left⟩ := deleteStep parents here
      rw [← left] at later
      obtain ⟨final,last,rest,holds,told⟩ := ih kept later
      refine ⟨final,last,?_,holds,?_⟩
      · rw [aliasCalls,ran,aliasesEmptied,← left]
        simp only [bind,Except.bind,rest]
      · rw [told,left]
        rfl

end Stored

/-- Whatever is inserted and deleted, no assertion fails, the array holds the set, and a deletion
tells whether it has become empty. -/
theorem aliasesHeld (garbage : FdMap) {calls : List AliasCall} (allowed : AliasesAllowed ∅ calls) :
    ∃ m, aliasCalls (newFdMap garbage) calls = .ok (m,aliasesEmptied ∅ calls) ∧
      AliasSet m (aliasesKept ∅ calls) := by
  obtain ⟨m,stored,ran,parents,left⟩ := aliasesRun (newFdMapParents garbage) allowed
  exact ⟨m,ran,left ▸ storedSet parents⟩

def someMap : FdMap := ⟨0,.reg,0,⟨0,0⟩,⟨[],by decide,by decide⟩,0,[],0⟩

theorem aliasesHeldTwo : ∃ m, aliasCalls (newFdMap someMap) [.insert 3,.insert 5,.delete 3] =
      .ok (m,aliasesEmptied ∅ [.insert 3,.insert 5,.delete 3]) ∧
    AliasSet m (aliasesKept ∅ [.insert 3,.insert 5,.delete 3]) :=
  aliasesHeld someMap ⟨⟨by decide,by decide⟩,⟨by decide,by decide⟩,
    show 3 ∈ (AliasCall.insert 5).next ((AliasCall.insert 3).next ∅) by decide,trivial⟩

end IoApps
