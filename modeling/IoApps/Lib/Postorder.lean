import IoApps.Lib.Tree
import Mathlib.Data.List.Infix

/-! The nodes of a keyed tree by their paths, each behind the nodes below it. -/
namespace IoApps.Lib

section ChildKey
variable {κ : Type} [DecidableEq κ]

def childKey : List κ → List κ → Option κ
  | [],[k] => some k
  | p :: ps,q :: qs => if p = q then childKey ps qs else none
  | _,_ => none

theorem childKeyIff {p q : List κ} {k : κ} : childKey p q = some k ↔ q = p ++ [k] := by
  induction p generalizing q with
  | nil =>
    cases q with
    | nil => simp [childKey]
    | cons j q => cases q <;> simp [childKey]
  | cons j p ih =>
    cases q with
    | nil => simp [childKey]
    | cons i q =>
      rw [childKey,List.cons_append,List.cons.injEq]
      split
      · rename_i same
        rw [ih,same]
        exact (and_iff_right rfl).symm
      · rename_i other
        simp [Ne.symm other]

end ChildKey

variable {κ δ : Type}

namespace Forest

def keys : Forest κ δ → List κ
  | nil => []
  | cons key _ _ rest => key :: rest.keys

def postorder : Forest κ δ → List (List κ)
  | nil => []
  | cons key _ children rest => children.postorder.map (key :: ·) ++ [key] :: rest.postorder

theorem postorderReal (f : Forest κ δ) : [] ∉ f.postorder := by
  induction f with
  | nil => exact List.not_mem_nil
  | cons key data children rest _ ih =>
    intro member
    rw [postorder,List.mem_append,List.mem_cons] at member
    rcases member with below | here | later
    · obtain ⟨q,_,same⟩ := List.mem_map.mp below
      cases same
    · cases here
    · exact ih later

variable [DecidableEq κ]

theorem memPostorder {f : Forest κ δ} (distinct : f.Distinct) {k : κ} {ks : List κ} :
    k :: ks ∈ f.postorder ↔ ((f.find k).bind fun c => c.walk ks).isSome := by
  induction f generalizing k ks with
  | nil => simp [postorder,find]
  | cons key data children rest ihc ihr =>
    obtain ⟨single,inner,tail⟩ := distinct
    have split : k :: ks ∈ (cons key data children rest).postorder ↔
        key = k ∧ (ks ∈ children.postorder ∨ ks = []) ∨ k :: ks ∈ rest.postorder := by
      rw [postorder,List.mem_append,List.mem_cons]
      simp only [List.mem_map,List.cons.injEq]
      constructor
      · intro member
        rcases member with ⟨q,there,same,more⟩ | ⟨same,none⟩ | later
        · exact .inl ⟨same,.inl (more ▸ there)⟩
        · exact .inl ⟨same.symm,.inr none⟩
        · exact .inr later
      · intro member
        rcases member with ⟨same,there | none⟩ | later
        · exact .inl ⟨ks,there,same,rfl⟩
        · exact .inr (.inl ⟨same.symm,none⟩)
        · exact .inr (.inr later)
    rw [split,ihr tail,find]
    split
    · rename_i same
      subst same
      rw [single,Option.bind_none,Option.bind_some]
      cases ks with
      | nil => simp [Tree.walk]
      | cons j js =>
        rw [ihc inner,Tree.walkCons]
        simp
    · rename_i other
      simp [other]

theorem postorderHead {f : Forest κ δ} (distinct : f.Distinct) {k : κ} (absent : f.find k = none)
    {q : List κ} (member : q ∈ f.postorder) : ∃ j js, q = j :: js ∧ k ≠ j := by
  cases q with
  | nil => exact absurd member (postorderReal f)
  | cons j js =>
    refine ⟨j,js,rfl,fun same => ?_⟩
    rw [memPostorder distinct,← same,absent] at member
    cases member

theorem postorderUpwards {f : Forest κ δ} (distinct : f.Distinct) :
    f.postorder.Pairwise fun p q => ¬ p <+: q := by
  induction f with
  | nil => exact List.Pairwise.nil
  | cons key data children rest ihc ihr =>
    obtain ⟨single,inner,tail⟩ := distinct
    rw [postorder,List.pairwise_append,List.pairwise_cons,List.pairwise_map]
    refine ⟨(ihc inner).imp fun aside ahead => ?_,⟨fun q later ahead => ?_,ihr tail⟩,
      fun p below q here ahead => ?_⟩
    · exact aside (List.cons_prefix_cons.mp ahead).2
    · obtain ⟨j,js,rfl,other⟩ := postorderHead tail single later
      exact other (List.cons_prefix_cons.mp ahead).1
    · obtain ⟨p,there,rfl⟩ := List.mem_map.mp below
      rcases List.mem_cons.mp here with rfl | later
      · have short := List.prefix_nil.mp (List.cons_prefix_cons.mp ahead).2
        exact postorderReal children (short ▸ there)
      · obtain ⟨j,js,rfl,other⟩ := postorderHead tail single later
        exact other (List.cons_prefix_cons.mp ahead).1

theorem postorderTop (f : Forest κ δ) : f.postorder.filterMap (childKey []) = f.keys := by
  induction f with
  | nil => rfl
  | cons key data children rest _ ih =>
    have deep : (children.postorder.map (key :: ·)).filterMap (childKey []) = [] := by
      refine List.filterMap_eq_nil_iff.mpr fun q member => ?_
      obtain ⟨p,there,rfl⟩ := List.mem_map.mp member
      cases p with
      | nil => exact absurd there (postorderReal children)
      | cons j js => rfl
    have here : childKey [] [key] = some key := rfl
    rw [postorder,List.filterMap_append,deep,List.nil_append,List.filterMap_cons_some here,ih,keys]

theorem postorderBelow {f : Forest κ δ} (distinct : f.Distinct) (k : κ) (ks : List κ) :
    f.postorder.filterMap (childKey (k :: ks)) =
      match f.find k with
      | none => []
      | some c => c.children.postorder.filterMap (childKey ks) := by
  induction f with
  | nil => rfl
  | cons key data children rest _ ih =>
    obtain ⟨single,_,tail⟩ := distinct
    have here : childKey (k :: ks) [key] = none := by
      rw [childKey]
      split
      · cases ks <;> rfl
      · rfl
    rw [postorder,List.filterMap_append,List.filterMap_cons_none here,ih tail,List.filterMap_map,
      find]
    by_cases same : key = k
    · subst same
      rw [if_pos rfl,single,List.append_nil]
      refine List.filterMap_congr fun q _ => ?_
      simp [childKey]
    · have aside : children.postorder.filterMap (childKey (k :: ks) ∘ (key :: ·)) = [] := by
        refine List.filterMap_eq_nil_iff.mpr fun q _ => ?_
        simp [childKey,Ne.symm same]
      rw [if_neg same,aside,List.nil_append]

end Forest

namespace Tree

def postorder (t : Tree κ δ) : List (List κ) := t.children.postorder ++ [[]]

variable [DecidableEq κ] {t : Tree κ δ}

theorem memPostorder (distinct : t.Distinct) {p : List κ} :
    p ∈ t.postorder ↔ (t.walk p).isSome := by
  rw [postorder,List.mem_append,List.mem_singleton]
  cases p with
  | nil => simp [walk]
  | cons k ks =>
    rw [Forest.memPostorder distinct,walkCons]
    simp

theorem postorderUpwards (distinct : t.Distinct) :
    t.postorder.Pairwise fun p q => ¬ p <+: q := by
  rw [postorder,List.pairwise_append]
  refine ⟨Forest.postorderUpwards distinct,List.pairwise_singleton _ _,
    fun p below q root ahead => ?_⟩
  rw [List.mem_singleton.mp root] at ahead
  exact Forest.postorderReal t.children (List.prefix_nil.mp ahead ▸ below)

theorem postorderOnce (distinct : t.Distinct) : t.postorder.Nodup :=
  (postorderUpwards distinct).imp fun aside same => aside (by rw [same])

theorem postorderSiblings (distinct : t.Distinct) {p : List κ} {m : Tree κ δ}
    (found : t.walk p = some m) : t.postorder.filterMap (childKey p) = m.children.keys := by
  have root (p : List κ) : t.postorder.filterMap (childKey p) =
      t.children.postorder.filterMap (childKey p) := by
    have none : childKey p [] = none := by cases p <;> rfl
    rw [postorder,List.filterMap_append,List.filterMap_cons_none none,List.filterMap_nil,
      List.append_nil]
  rw [root]
  clear root
  induction p generalizing t with
  | nil =>
    rw [Forest.postorderTop,← Option.some.inj found]
  | cons k ks ih =>
    obtain ⟨c,child,rest⟩ := Option.bind_eq_some_iff.mp found
    rw [Forest.postorderBelow distinct,child]
    exact ih (t := c) (Forest.distinctFind distinct child) rest

end Tree
end IoApps.Lib
