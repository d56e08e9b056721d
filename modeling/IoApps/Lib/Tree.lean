import Mathlib.Data.Option.Basic
import Mathlib.Data.List.Basic

/-! Trees with keyed, ordered children, as first-child/next-sibling forests. A path is the
list of keys from the root; a lookup follows the first child of each key. -/
namespace IoApps.Lib

inductive Forest (κ δ : Type) where
  | nil
  | cons (key : κ) (data : δ) (children rest : Forest κ δ)
  deriving DecidableEq, Repr

structure Tree (κ δ : Type) where
  data : δ
  children : Forest κ δ
  deriving DecidableEq, Repr

variable {κ δ : Type} [DecidableEq κ]

namespace Forest

def find : Forest κ δ → κ → Option (Tree κ δ)
  | nil,_ => none
  | cons key data children rest,k => if key = k then some ⟨data,children⟩ else rest.find k

def append : Forest κ δ → κ → Tree κ δ → Forest κ δ
  | nil,k,t => cons k t.data t.children nil
  | cons key data children rest,k,t => cons key data children (rest.append k t)

def replace : Forest κ δ → κ → (Tree κ δ → Tree κ δ) → Forest κ δ
  | nil,_,_ => nil
  | cons key data children rest,k,g =>
    if key = k then cons key (g ⟨data,children⟩).data (g ⟨data,children⟩).children rest
    else cons key data children (rest.replace k g)

def erase : Forest κ δ → κ → Forest κ δ
  | nil,_ => nil
  | cons key data children rest,k =>
    if key = k then rest else cons key data children (rest.erase k)

def Distinct : Forest κ δ → Prop
  | nil => True
  | cons key _ children rest => rest.find key = none ∧ children.Distinct ∧ rest.Distinct

theorem findAppend (f : Forest κ δ) (k j : κ) (t : Tree κ δ) :
    (f.append k t).find j = (f.find j).or (if k = j then some t else none) := by
  induction f with
  | nil => simp [append,find]
  | cons key data children rest _ ih =>
    by_cases here : key = j
    · simp [append,find,here]
    · simp [append,find,here,ih]

theorem findReplace (f : Forest κ δ) (k j : κ) (g : Tree κ δ → Tree κ δ) :
    (f.replace k g).find j = if k = j then (f.find j).map g else f.find j := by
  induction f with
  | nil => simp [replace,find]
  | cons key data children rest _ ih =>
    by_cases here : key = k
    · subst here
      by_cases same : key = j
      · simp [replace,find,same]
      · simp [replace,find,same]
    · by_cases same : key = j
      · have other : k ≠ j := fun h => here (same.trans h.symm)
        rw [replace,if_neg here,find,find,if_pos same,if_pos same,if_neg other]
      · simp [replace,find,here,same,ih]

theorem replaceSame {f : Forest κ δ} {k : κ} {g : Tree κ δ → Tree κ δ}
    (same : ∀ c, g c = c) : f.replace k g = f := by
  induction f with
  | nil => rfl
  | cons key data children rest _ ih => simp [replace,same,ih]

theorem replaceAt {f : Forest κ δ} {k : κ} {c : Tree κ δ} {g h : Tree κ δ → Tree κ δ}
    (found : f.find k = some c) (same : g c = h c) : f.replace k g = f.replace k h := by
  induction f with
  | nil => rfl
  | cons key data children rest _ ih =>
    by_cases here : key = k
    · simp only [find,here,if_true,Option.some.injEq] at found
      simp only [replace,here,if_true,found,same]
    · simp only [find,here,if_false] at found
      simp only [replace,here,if_false,ih found]

theorem findEraseNe {k j : κ} (different : k ≠ j) (f : Forest κ δ) :
    (f.erase k).find j = f.find j := by
  induction f with
  | nil => rfl
  | cons key data children rest _ ih =>
    by_cases here : key = k
    · have other : ¬ key = j := fun h => different (here.symm.trans h)
      rw [erase,if_pos here,find,if_neg other]
    · simp [erase,find,here,ih]

theorem findErase {f : Forest κ δ} (distinct : f.Distinct) (k : κ) :
    (f.erase k).find k = none := by
  induction f with
  | nil => rfl
  | cons key data children rest _ ih =>
    obtain ⟨single,_,tail⟩ := distinct
    by_cases here : key = k
    · simpa [erase,here] using here ▸ single
    · simp [erase,find,here,ih tail]

theorem distinctFind {f : Forest κ δ} (distinct : f.Distinct) {k : κ} {t : Tree κ δ}
    (found : f.find k = some t) : t.children.Distinct := by
  induction f with
  | nil => simp [find] at found
  | cons key data children rest _ ih =>
    obtain ⟨_,below,tail⟩ := distinct
    by_cases here : key = k
    · simp only [find,here,if_true,Option.some.injEq] at found
      exact found ▸ below
    · simp only [find,here,if_false] at found
      exact ih tail found

theorem distinctAppend {f : Forest κ δ} (distinct : f.Distinct) {k : κ}
    (absent : f.find k = none) {t : Tree κ δ} (below : t.children.Distinct) :
    (f.append k t).Distinct := by
  induction f with
  | nil => exact ⟨rfl,below,trivial⟩
  | cons key data children rest _ ih =>
    obtain ⟨single,inner,tail⟩ := distinct
    have other : ¬ key = k := fun h => by simp [find,h] at absent
    simp only [find,other,if_false] at absent
    refine ⟨?_,inner,ih tail absent⟩
    simp [findAppend,single,Ne.symm other]

theorem distinctReplace {f : Forest κ δ} (distinct : f.Distinct) {k : κ}
    {g : Tree κ δ → Tree κ δ}
    (below : ∀ t, t.children.Distinct → (g t).children.Distinct) :
    (f.replace k g).Distinct := by
  induction f with
  | nil => trivial
  | cons key data children rest _ ih =>
    obtain ⟨single,inner,tail⟩ := distinct
    by_cases here : key = k
    · simp only [replace,here,if_true]
      exact ⟨here ▸ single,below ⟨data,children⟩ inner,tail⟩
    · simp only [replace,here,if_false]
      refine ⟨?_,inner,ih tail⟩
      simp [findReplace,single]

theorem distinctErase {f : Forest κ δ} (distinct : f.Distinct) (k : κ) :
    (f.erase k).Distinct := by
  induction f with
  | nil => trivial
  | cons key data children rest _ ih =>
    obtain ⟨single,inner,tail⟩ := distinct
    by_cases here : key = k
    · simpa [erase,here] using tail
    · simp only [erase,here,if_false]
      refine ⟨?_,inner,ih tail⟩
      rw [findEraseNe (Ne.symm here)]
      exact single

end Forest

namespace Tree

def leaf (data : δ) : Tree κ δ := ⟨data,.nil⟩

def walk (t : Tree κ δ) : List κ → Option (Tree κ δ)
  | [] => some t
  | k :: ks => (t.children.find k).bind (fun c => c.walk ks)

def at? (t : Tree κ δ) (path : List κ) : Option δ := (t.walk path).map Tree.data

def adjust (t : Tree κ δ) (g : Tree κ δ → Tree κ δ) : List κ → Tree κ δ
  | [] => g t
  | k :: ks => { t with children := t.children.replace k (fun c => c.adjust g ks) }

def extend (t : Tree κ δ) (new : δ) : List κ → Tree κ δ
  | [] => t
  | k :: ks => { t with children := t.children.append k ((leaf new).extend new ks) }

def remove (t : Tree κ δ) : List κ → Tree κ δ
  | [] => { t with children := .nil }
  | [k] => { t with children := t.children.erase k }
  | k :: j :: ks => { t with children := t.children.replace k (fun c => c.remove (j :: ks)) }

def Distinct (t : Tree κ δ) : Prop := t.children.Distinct

def reach (t : Tree κ δ) : List κ → Nat
  | [] => 0
  | k :: ks =>
    match t.children.find k with
    | none => 0
    | some c => c.reach ks + 1

theorem walkAppend (t : Tree κ δ) (p q : List κ) :
    t.walk (p ++ q) = (t.walk p).bind (fun m => m.walk q) := by
  induction p generalizing t with
  | nil => rfl
  | cons k p ih =>
    simp only [List.cons_append,walk,Option.bind_assoc]
    exact congrArg _ (funext fun c => ih c)

theorem walkCons (t : Tree κ δ) (k : κ) (ks : List κ) :
    t.walk (k :: ks) = (t.children.find k).bind (fun c => c.walk ks) := rfl

theorem atNil (t : Tree κ δ) : t.at? [] = some t.data := rfl

theorem atCons (t : Tree κ δ) (k : κ) (ks : List κ) :
    t.at? (k :: ks) = (t.children.find k).bind (fun c => c.at? ks) := by
  simp only [at?,walk]
  cases t.children.find k <;> rfl

theorem atPrefix {t : Tree κ δ} {p q : List κ} (present : (t.at? (p ++ q)).isSome) :
    (t.at? p).isSome := by
  simp only [at?,Option.isSome_map,walkAppend] at present ⊢
  cases h : t.walk p with
  | none => simp [h] at present
  | some m => rfl

theorem reachBound (t : Tree κ δ) (p : List κ) : t.reach p ≤ p.length := by
  induction p generalizing t with
  | nil => exact Nat.le_refl 0
  | cons k p ih =>
    rw [reach]
    cases t.children.find k with
    | none => exact Nat.zero_le _
    | some c => exact Nat.succ_le_succ (ih c)

theorem reachAppend {t m : Tree κ δ} {p : List κ} (found : t.walk p = some m) (q : List κ) :
    t.reach (p ++ q) = p.length + m.reach q := by
  induction p generalizing t with
  | nil => simp [Option.some.inj found]
  | cons k p ih =>
    obtain ⟨c,child,rest⟩ := Option.bind_eq_some_iff.mp found
    simp only [List.cons_append,reach,child,ih rest,List.length_cons]
    omega

theorem walkReach (t : Tree κ δ) (p : List κ) : (t.walk (p.take (t.reach p))).isSome := by
  induction p generalizing t with
  | nil => rfl
  | cons k p ih =>
    rw [reach]
    cases child : t.children.find k with
    | none => rfl
    | some c => simpa [walk,child] using ih c

theorem reachMax {t : Tree κ δ} {p : List κ} {n : Nat} (bound : n ≤ p.length)
    (found : (t.walk (p.take n)).isSome) : n ≤ t.reach p := by
  induction p generalizing t n with
  | nil => exact bound
  | cons k p ih =>
    cases n with
    | zero => exact Nat.zero_le _
    | succ n =>
      rw [reach]
      cases child : t.children.find k with
      | none => simp [walk,child] at found
      | some c =>
        have inner : (c.walk (p.take n)).isSome := by simpa [walk,child] using found
        exact Nat.succ_le_succ (ih (Nat.le_of_succ_le_succ bound) inner)

theorem walkIffReach {t : Tree κ δ} {p : List κ} : (t.walk p).isSome ↔ t.reach p = p.length := by
  constructor
  · intro found
    have most := reachMax (Nat.le_refl p.length) (by rwa [List.take_length])
    exact Nat.le_antisymm (reachBound t p) most
  · intro full
    have found := walkReach t p
    rwa [full,List.take_length] at found

theorem walkAdjust (t : Tree κ δ) (g : Tree κ δ → Tree κ δ) (p : List κ) :
    (t.adjust g p).walk p = (t.walk p).map g := by
  induction p generalizing t with
  | nil => rfl
  | cons k p ih =>
    simp only [adjust,walk,Forest.findReplace,if_true]
    cases t.children.find k with
    | none => rfl
    | some c => exact ih c

theorem atAdjustBelow (t : Tree κ δ) (g : Tree κ δ → Tree κ δ) (p r : List κ) :
    (t.adjust g p).at? (p ++ r) = (t.walk p).bind (fun m => (g m).at? r) := by
  simp only [at?,walkAppend,walkAdjust]
  cases t.walk p <;> rfl

theorem atAdjustOther {p q : List κ} (aside : ¬ p <+: q) (t : Tree κ δ)
    (g : Tree κ δ → Tree κ δ) : (t.adjust g p).at? q = t.at? q := by
  induction p generalizing t q with
  | nil => exact absurd List.nil_prefix aside
  | cons k p ih =>
    cases q with
    | nil => rfl
    | cons j q =>
      rw [atCons,atCons,adjust,Forest.findReplace]
      by_cases same : k = j
      · subst same
        have inner : ¬ p <+: q := fun h => aside (List.cons_prefix_cons.mpr ⟨rfl,h⟩)
        rw [if_pos rfl]
        cases t.children.find k with
        | none => rfl
        | some c => exact ih inner c
      · rw [if_neg same]

theorem atWrite (t : Tree κ δ) (f : δ → δ) (p q : List κ) :
    (t.adjust (fun m => { m with data := f m.data }) p).at? q =
      if q = p then (t.at? q).map f else t.at? q := by
  by_cases below : p <+: q
  · obtain ⟨r,rfl⟩ := below
    rw [atAdjustBelow,at?,walkAppend]
    cases t.walk p with
    | none => simp
    | some m =>
      cases r with
      | nil => simp [atNil,walk]
      | cons k r => simp [at?,walk]
  · have other : q ≠ p := fun same => below (same ▸ List.prefix_refl q)
    rw [atAdjustOther below,if_neg other]

theorem adjustSame {g : Tree κ δ → Tree κ δ} (same : ∀ m, g m = m) (t : Tree κ δ) (p : List κ) :
    t.adjust g p = t := by
  induction p generalizing t with
  | nil => exact same t
  | cons k p ih => rw [adjust,Forest.replaceSame ih]

theorem adjustAt {t m : Tree κ δ} {g : Tree κ δ → Tree κ δ} {p : List κ}
    (found : t.walk p = some m) : t.adjust g p = t.adjust (fun _ => g m) p := by
  induction p generalizing t with
  | nil => rw [adjust,adjust,Option.some.inj found]
  | cons k p ih =>
    obtain ⟨c,child,rest⟩ := Option.bind_eq_some_iff.mp found
    simp only [adjust]
    congr 1
    exact Forest.replaceAt child (ih rest)

theorem distinctWalk {t m : Tree κ δ} (distinct : t.Distinct) {p : List κ}
    (found : t.walk p = some m) : m.Distinct := by
  induction p generalizing t with
  | nil => exact Option.some.inj found ▸ distinct
  | cons k p ih =>
    obtain ⟨c,child,rest⟩ := Option.bind_eq_some_iff.mp found
    exact ih (Forest.distinctFind distinct child) rest

theorem distinctAdjust {t : Tree κ δ} (distinct : t.Distinct) {g : Tree κ δ → Tree κ δ}
    (below : ∀ m : Tree κ δ, m.Distinct → (g m).Distinct) (p : List κ) :
    (t.adjust g p).Distinct := by
  induction p generalizing t with
  | nil => exact below t distinct
  | cons k p ih => exact Forest.distinctReplace distinct fun c inner => ih (t := c) inner

theorem atExtend {t : Tree κ δ} {k : κ} (absent : t.children.find k = none) (new : δ)
    (ks q : List κ) :
    (t.extend new (k :: ks)).at? q =
      if q ≠ [] ∧ q <+: k :: ks then some new else t.at? q := by
  induction ks generalizing t k q with
  | nil =>
    cases q with
    | nil => simp [extend,atNil]
    | cons j q =>
      rw [atCons,atCons,extend,Forest.findAppend]
      by_cases same : k = j
      · subst same
        cases q with
        | nil => simp [absent,extend,leaf,atNil]
        | cons i q =>
          simp [absent,extend,leaf,atCons,List.cons_prefix_cons,Forest.find]
      · have other : ¬ j = k := fun h => same h.symm
        simp [same,other,List.cons_prefix_cons]
  | cons k' ks ih =>
    cases q with
    | nil => simp [extend,atNil]
    | cons j q =>
      rw [atCons,atCons,extend,Forest.findAppend]
      by_cases same : k = j
      · subst same
        have inner := ih (t := leaf new) (k := k') (by rfl) q
        cases q with
        | nil => simp [absent,extend,leaf,atNil]
        | cons i q =>
          have empty : (leaf new : Tree κ δ).at? (i :: q) = none := by
            simp [leaf,atCons,Forest.find]
          simp only [absent,if_true,Option.none_or,Option.bind_some,inner,empty,
            List.cons_prefix_cons,Option.bind_none,true_and,ne_eq,reduceCtorEq,not_false_eq_true]
      · have other : ¬ j = k := fun h => same h.symm
        simp [same,other,List.cons_prefix_cons]

def insert (t : Tree κ δ) (new : δ) (path : List κ) : Tree κ δ :=
  t.adjust (fun m => m.extend new (path.drop (t.reach path))) (path.take (t.reach path))

theorem reachStops {t m : Tree κ δ} {path : List κ} {k : κ} {ks : List κ}
    (found : t.walk (path.take (t.reach path)) = some m)
    (rest : path.drop (t.reach path) = k :: ks) : m.children.find k = none := by
  cases child : m.children.find k with
  | none => rfl
  | some c =>
    have inside : t.reach path < path.length := by
      by_contra beyond
      rw [List.drop_eq_nil_of_le (by omega)] at rest
      exact absurd rest (by simp)
    have head : path[t.reach path]? = some k := by
      rw [← List.head?_drop,rest,List.head?_cons]
    have longer : (t.walk (path.take (t.reach path + 1))).isSome := by
      rw [List.take_add_one,head,walkAppend,found]
      simp [walk,child]
    exact absurd (reachMax inside longer) (by omega)

theorem insertPresent {t : Tree κ δ} {path : List κ} (present : t.reach path = path.length)
    (new : δ) : t.insert new path = t := by
  rw [insert,present,List.drop_length]
  exact adjustSame (fun _ => rfl) t _

theorem atInsert (t : Tree κ δ) (new : δ) (path q : List κ) :
    (t.insert new path).at? q =
      if q ≠ [] ∧ q <+: path ∧ t.at? q = none then some new else t.at? q := by
  obtain ⟨m,found⟩ := Option.isSome_iff_exists.mp (walkReach t path)
  have whole : path.take (t.reach path) ++ path.drop (t.reach path) = path :=
    List.take_append_drop _ _
  have present {r : List κ} (short : r <+: path.take (t.reach path)) : t.at? r ≠ none := by
    obtain ⟨r',same⟩ := short
    have some : (t.at? (r ++ r')).isSome := by simp [same,at?,found]
    exact Option.isSome_iff_ne_none.mp (atPrefix some)
  by_cases ahead : path.take (t.reach path) <+: q
  · obtain ⟨r,rfl⟩ := ahead
    have below : t.at? (path.take (t.reach path) ++ r) = m.at? r := by
      simp [at?,walkAppend,found]
    rw [insert,atAdjustBelow,found,Option.bind_some,below]
    cases ks : path.drop (t.reach path) with
    | nil =>
      have all : path.take (t.reach path) = path := by simpa [ks] using whole
      by_cases here : r = []
      · subst here
        simp [extend,atNil]
      · have beyond : ¬ path.take (t.reach path) ++ r <+: path := by
          intro h
          have := h.length_le
          rw [all,List.length_append] at this
          exact here (List.length_eq_zero_iff.mp (by omega))
        simp [extend,beyond]
    | cons k ks' =>
      rw [atExtend (reachStops found ks)]
      have inner : path.take (t.reach path) ++ r <+: path ↔ r <+: k :: ks' := by
        conv => lhs; rhs; rw [← whole]
        rw [List.prefix_append_right_inj,ks]
      by_cases here : r = []
      · subst here
        simp [atNil]
      · by_cases mine : r <+: k :: ks'
        · have gone : m.at? r = none := by
            obtain ⟨j,js,rfl⟩ := List.exists_cons_of_ne_nil here
            rw [(List.cons_prefix_cons.mp mine).1,atCons,reachStops found ks,Option.bind_none]
          simp [here,mine,inner,gone]
        · simp [mine,inner]
  · rw [insert,atAdjustOther ahead]
    split
    · rename_i h
      have short : q <+: path.take (t.reach path) :=
        (List.prefix_or_prefix_of_prefix h.2.1 (List.take_prefix _ _)).resolve_right ahead
      exact absurd h.2.2 (present short)
    · rfl

theorem distinctExtend {t : Tree κ δ} (distinct : t.Distinct) (new : δ) {path : List κ}
    (absent : ∀ k ks, path = k :: ks → t.children.find k = none) :
    (t.extend new path).Distinct := by
  have chain (ks : List κ) : ((leaf new : Tree κ δ).extend new ks).Distinct := by
    induction ks with
    | nil => trivial
    | cons k ks ih =>
      have bare : (Forest.nil : Forest κ δ).Distinct := trivial
      exact Forest.distinctAppend bare rfl ih
  cases path with
  | nil => exact distinct
  | cons k ks => exact Forest.distinctAppend distinct (absent k ks rfl) (chain ks)

theorem distinctInsert {t : Tree κ δ} (distinct : t.Distinct) (new : δ) (path : List κ) :
    (t.insert new path).Distinct := by
  obtain ⟨m,found⟩ := Option.isSome_iff_exists.mp (walkReach t path)
  have one : t.insert new path =
      t.adjust (fun _ => m.extend new (path.drop (t.reach path))) (path.take (t.reach path)) :=
    adjustAt found
  rw [one]
  refine distinctAdjust distinct (fun _ _ => ?_) _
  exact distinctExtend (distinctWalk distinct found) new fun k ks rest => reachStops found rest

theorem atRemove {t : Tree κ δ} (distinct : t.Distinct) {p : List κ} (below : p ≠ [])
    (q : List κ) : (t.remove p).at? q = if p <+: q then none else t.at? q := by
  induction p generalizing t q with
  | nil => exact absurd rfl below
  | cons k p ih =>
    cases q with
    | nil => cases p <;> simp [remove,atNil]
    | cons j q =>
      by_cases same : k = j
      · subst same
        cases p with
        | nil => simp [remove,atCons,Forest.findErase distinct,List.cons_prefix_cons]
        | cons i p =>
          simp only [remove,atCons,Forest.findReplace,if_true,List.cons_prefix_cons,true_and]
          cases child : t.children.find k with
          | none => simp
          | some c =>
            exact ih (Forest.distinctFind distinct child) (List.cons_ne_nil _ _) q
      · cases p with
        | nil => simp [remove,atCons,Forest.findEraseNe same,List.cons_prefix_cons,same]
        | cons i p =>
          simp [remove,atCons,Forest.findReplace,List.cons_prefix_cons,same]

theorem atRemoveSome {t : Tree κ δ} (distinct : t.Distinct) {p q : List κ} {x : δ}
    (found : (t.remove p).at? q = some x) : t.at? q = some x := by
  by_cases root : p = []
  · subst root
    cases q with
    | nil => exact found
    | cons k q => simp [remove,atCons,Forest.find] at found
  · rw [atRemove distinct root] at found
    split at found
    · exact absurd found (by simp)
    · exact found

theorem distinctRemove {t : Tree κ δ} (distinct : t.Distinct) (p : List κ) :
    (t.remove p).Distinct := by
  induction p generalizing t with
  | nil => trivial
  | cons k p ih =>
    cases p with
    | nil => exact Forest.distinctErase distinct k
    | cons j p => exact Forest.distinctReplace distinct fun c inner => ih (t := c) inner

end Tree
end IoApps.Lib
