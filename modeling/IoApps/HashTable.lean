import Mathlib.Data.List.Perm.Basic
import Mathlib.Data.List.Nodup
import Mathlib.Data.List.Range
import Mathlib.Logic.Function.Basic

/-! The chained hash table. The hash function may refuse a key, which is its assertion;
`find` and `remove` look at the first match of the key's own chain and nowhere else. -/
namespace IoApps

def HASH_TABLE_SIZE : Nat := 1019

structure HashTableOperations (κ α : Type) where
  hash : Nat → κ → Option Nat
  compare : κ → α → Bool

structure HashTable (α : Type) where
  entries : Nat
  entry : Nat → List α

def htHashInt (entries : Nat) (key : Int32) : Option Nat :=
  if 0 ≤ key then some (key.toInt.toNat % entries) else none

namespace HashTable
variable {κ α : Type}

def init (m : Nat) : HashTable α := ⟨m,fun _ => []⟩

def append (h : HashTable α) (chain : Nat) (item : α) : HashTable α :=
  { h with entry := Function.update h.entry chain (h.entry chain ++ [item]) }

-- hash_table_insert and hash_table_find assert that the chain is one of the table's.
def chain (op : HashTableOperations κ α) (h : HashTable α) (key : κ) : Option Nat :=
  (op.hash h.entries key).filter (· < h.entries)

def insert (op : HashTableOperations κ α) (h : HashTable α) (key : κ) (item : α) :
    Option (HashTable α) :=
  (h.chain op key).map fun chain => h.append chain item

def find (op : HashTableOperations κ α) (h : HashTable α) (key : κ) : Option (Option α) :=
  (h.chain op key).map fun chain => (h.entry chain).find? (op.compare key)

def remove (op : HashTableOperations κ α) (h : HashTable α) (key : κ) : Option (HashTable α) :=
  (h.chain op key).map fun chain =>
    { h with entry := Function.update h.entry chain ((h.entry chain).eraseP (op.compare key)) }

def updateFirst (p : α → Bool) (f : α → α) : List α → List α
  | [] => []
  | x :: rest => if p x then f x :: rest else x :: updateFirst p f rest

def modify (op : HashTableOperations κ α) (h : HashTable α) (key : κ) (f : α → α) :
    Option (HashTable α) :=
  (h.chain op key).map fun chain =>
    let changed := updateFirst (op.compare key) f (h.entry chain)
    { h with entry := Function.update h.entry chain changed }

def items (h : HashTable α) : List α := (List.range h.entries).flatMap h.entry

theorem memItems {h : HashTable α} {x : α} :
    x ∈ h.items ↔ ∃ chain, chain < h.entries ∧ x ∈ h.entry chain := by
  simp [items]

theorem itemsInit (m : Nat) : (init m : HashTable α).items = [] := by
  simp [items,init]

theorem flatMapUpdate {chains : List Nat} (nodup : chains.Nodup) {f : Nat → List α} {chain : Nat}
    (inside : chain ∈ chains) {x : α} {l : List α} (step : l.Perm (x :: f chain)) :
    (chains.flatMap (Function.update f chain l)).Perm (x :: chains.flatMap f) := by
  induction chains with
  | nil => simp at inside
  | cons c rest ih =>
    obtain ⟨absent,tail⟩ := List.nodup_cons.mp nodup
    simp only [List.flatMap_cons]
    by_cases here : c = chain
    · subst here
      have same : rest.flatMap (Function.update f c l) = rest.flatMap f :=
        List.flatMap_congr fun d member => by
          have other : d ≠ c := fun eq => absent (eq ▸ member)
          rw [Function.update_of_ne other]
      rw [Function.update_self,same]
      exact step.append_right _
    · have later : chain ∈ rest := (List.mem_cons.mp inside).resolve_left (Ne.symm here)
      rw [Function.update_of_ne here]
      exact ((ih tail later).append_left _).trans List.perm_middle

theorem itemsAppend {h : HashTable α} {chain : Nat} (inside : chain < h.entries) (item : α) :
    (h.append chain item).items.Perm (item :: h.items) :=
  flatMapUpdate List.nodup_range (List.mem_range.mpr inside) (List.perm_append_singleton _ _)

theorem itemsErase {h : HashTable α} {chain : Nat} (inside : chain < h.entries) {p : α → Bool}
    {item : α} (found : (h.entry chain).find? p = some item) :
    (item :: ({ h with entry := Function.update h.entry chain ((h.entry chain).eraseP p) } :
      HashTable α).items).Perm h.items := by
  obtain ⟨hp,before,after,whole,ahead⟩ := List.find?_eq_some_iff_append.mp found
  have rest : (h.entry chain).eraseP p = before ++ after := by
    rw [whole,List.eraseP_append_right _ (fun b member => by simpa using ahead b member)]
    simp [hp]
  have back : Function.update (Function.update h.entry chain ((h.entry chain).eraseP p)) chain
      (h.entry chain) = h.entry := by
    simp
  have step := flatMapUpdate (f := Function.update h.entry chain ((h.entry chain).eraseP p))
    List.nodup_range (List.mem_range.mpr inside) (x := item) (l := h.entry chain)
    (by rw [Function.update_self,rest,whole]; exact List.perm_middle)
  rw [back] at step
  exact step.symm

section Lookup
variable {op : HashTableOperations κ α} {h h' : HashTable α} {k : κ} {x : α}

theorem findItems {p : α → Bool} {c : Nat} (inside : c < h.entries)
    (first : (h.entry c).find? p = some x) (ahead : ∀ d < c, ∀ y ∈ h.entry d, ¬ p y) :
    h.items.find? p = some x := by
  obtain ⟨k,size⟩ : ∃ k, h.entries = c + (k + 1) := ⟨h.entries - c - 1,by omega⟩
  have none : ((List.range c).flatMap h.entry).find? p = none := by
    refine List.find?_eq_none.mpr fun y member => ?_
    obtain ⟨d,before,there⟩ := List.mem_flatMap.mp member
    exact ahead d (List.mem_range.mp before) y there
  rw [items,size,List.range_add,List.flatMap_append,List.find?_append,none,Option.none_or,
    List.range_succ_eq_map,List.map_cons,List.flatMap_cons,Nat.add_zero,List.find?_append,first,
    Option.some_or]

theorem chainInside {c : Nat} (hashed : h.chain op k = some c) : c < h.entries := by
  simpa using (Option.filter_eq_some_iff.mp hashed).2

theorem findSome (found : h.find op k = some (some x)) :
    ∃ c, h.chain op k = some c ∧ (h.entry c).find? (op.compare k) = some x := by
  obtain ⟨c,hashed,first⟩ := Option.map_eq_some_iff.mp found
  exact ⟨c,hashed,first⟩

theorem findMem (found : h.find op k = some (some x)) : x ∈ h.items ∧ op.compare k x := by
  obtain ⟨c,hashed,first⟩ := findSome found
  exact ⟨memItems.mpr ⟨c,chainInside hashed,List.mem_of_find?_eq_some first⟩,
    List.find?_some first⟩

theorem insertItems (inserted : h.insert op k x = some h') : h'.items.Perm (x :: h.items) := by
  obtain ⟨c,hashed,rfl⟩ := Option.map_eq_some_iff.mp inserted
  exact itemsAppend (chainInside hashed) x

theorem removeItems (found : h.find op k = some (some x)) (removed : h.remove op k = some h') :
    (x :: h'.items).Perm h.items := by
  obtain ⟨c,hashed,first⟩ := findSome found
  rw [remove,hashed] at removed
  cases Option.some.inj removed
  exact itemsErase (chainInside hashed) first

theorem insertEntries (inserted : h.insert op k x = some h') : h'.entries = h.entries := by
  obtain ⟨c,_,rfl⟩ := Option.map_eq_some_iff.mp inserted
  rfl

theorem removeEntries (removed : h.remove op k = some h') : h'.entries = h.entries := by
  obtain ⟨c,_,rfl⟩ := Option.map_eq_some_iff.mp removed
  rfl

theorem modifyEntries {f : α → α} (modified : h.modify op k f = some h') :
    h'.entries = h.entries := by
  obtain ⟨c,_,rfl⟩ := Option.map_eq_some_iff.mp modified
  rfl

theorem findInsert (match_ : op.compare k x) (inserted : h.insert op k x = some h') :
    h'.find op k = some ((h.find op k).join.or (some x)) := by
  obtain ⟨c,hashed,rfl⟩ := Option.map_eq_some_iff.mp inserted
  have again : (h.append c x).chain op k = some c := hashed
  rw [find,again,find,hashed]
  simp [append,match_]

theorem findInsertOther {j : κ} (other : ¬ op.compare k x) (inserted : h.insert op j x = some h') :
    h'.find op k = h.find op k := by
  obtain ⟨d,_,rfl⟩ := Option.map_eq_some_iff.mp inserted
  unfold find
  refine Option.map_congr fun c _ => ?_
  by_cases here : c = d
  · subst here
    simp [append,other]
  · simp [append,Function.update_of_ne here]

theorem findEraseOther {p q : α → Bool} (other : ∀ x, q x → ¬ p x) (l : List α) :
    (l.eraseP p).find? q = l.find? q := by
  induction l with
  | nil => rfl
  | cons y rest ih =>
    cases mine : p y with
    | true =>
      have skipped : q y = false := Bool.eq_false_iff.mpr fun asked => other y asked mine
      rw [List.eraseP_cons_of_pos mine,List.find?_cons,skipped]
    | false =>
      rw [List.eraseP_cons_of_neg (by simp [mine]),List.find?_cons,List.find?_cons,ih]

theorem findRemoveOther {j : κ} (other : ∀ x, op.compare k x → ¬ op.compare j x)
    (removed : h.remove op j = some h') : h'.find op k = h.find op k := by
  obtain ⟨d,_,rfl⟩ := Option.map_eq_some_iff.mp removed
  unfold find
  refine Option.map_congr fun c _ => ?_
  by_cases here : c = d
  · subst here
    simp only [Function.update_self,findEraseOther other]
  · simp only [Function.update_of_ne here]

theorem findKept {j : κ} {y : α} (found : h.find op k = some (some y))
    (inserted : h.insert op j x = some h') : h'.find op k = some (some y) := by
  obtain ⟨c,hashed,first⟩ := findSome found
  obtain ⟨d,_,rfl⟩ := Option.map_eq_some_iff.mp inserted
  have again : (h.append d x).chain op k = some c := hashed
  rw [find,again]
  by_cases here : c = d
  · subst here
    simp [append,first]
  · simp [append,Function.update_of_ne here,first]

theorem updateFirstFind {p : α → Bool} {f : α → α} (same : ∀ x, p (f x) = p x) (l : List α) :
    (updateFirst p f l).find? p = (l.find? p).map f := by
  induction l with
  | nil => rfl
  | cons x rest ih =>
    rw [updateFirst]
    cases here : p x with
    | true => simp [here,same]
    | false => simp [here,ih]

theorem updateFirstOther {p q : α → Bool} {f : α → α} (apart : ∀ x, p x → ¬ q x ∧ ¬ q (f x))
    (l : List α) : (updateFirst p f l).find? q = l.find? q := by
  induction l with
  | nil => rfl
  | cons x rest ih =>
    rw [updateFirst]
    split
    · rename_i here
      obtain ⟨before,behind⟩ := apart x here
      rw [List.find?_cons_of_neg behind,List.find?_cons_of_neg before]
    · rw [List.find?_cons,List.find?_cons,ih]

theorem findModify {f : α → α} (same : ∀ x, op.compare k (f x) = op.compare k x)
    (modified : h.modify op k f = some h') : h'.find op k = (h.find op k).map (Option.map f) := by
  obtain ⟨c,hashed,rfl⟩ := Option.map_eq_some_iff.mp modified
  simp only [find,chain] at hashed ⊢
  rw [hashed,Option.map_some,Option.map_some,Function.update_self,updateFirstFind same,
    Option.map_some]

theorem findModifyOther {f : α → α} {j : κ}
    (apart : ∀ x, op.compare k x → ¬ op.compare j x ∧ ¬ op.compare j (f x))
    (modified : h.modify op k f = some h') : h'.find op j = h.find op j := by
  obtain ⟨d,_,rfl⟩ := Option.map_eq_some_iff.mp modified
  unfold find
  refine Option.map_congr fun c _ => ?_
  by_cases here : c = d
  · subst here
    simp only [Function.update_self,updateFirstOther apart]
  · simp only [Function.update_of_ne here]

theorem updateFirstLength (p : α → Bool) (f : α → α) (l : List α) :
    (updateFirst p f l).length = l.length := by
  induction l with
  | nil => rfl
  | cons x rest ih =>
    rw [updateFirst]
    split
    · rfl
    · rw [List.length_cons,List.length_cons,ih]

theorem updateFirstMem {p : α → Bool} {f : α → α} {l : List α} (member : x ∈ updateFirst p f l) :
    x ∈ l ∨ ∃ y, l.find? p = some y ∧ x = f y := by
  induction l with
  | nil => cases member
  | cons y rest ih =>
    rw [updateFirst] at member
    cases here : p y with
    | true =>
      rw [if_pos here] at member
      rcases List.mem_cons.mp member with changed | later
      · exact .inr ⟨y,List.find?_cons_of_pos here,changed⟩
      · exact .inl (List.mem_cons_of_mem y later)
    | false =>
      have other : ¬ p y = true := Bool.eq_false_iff.mp here
      rw [if_neg other] at member
      rw [List.find?_cons_of_neg other]
      rcases List.mem_cons.mp member with same | later
      · exact .inl (same ▸ List.mem_cons_self)
      · exact (ih later).imp_left (List.mem_cons_of_mem y)

theorem modifyMem {f : α → α} (modified : h.modify op k f = some h') (member : x ∈ h'.items) :
    x ∈ h.items ∨ ∃ y, h.find op k = some (some y) ∧ x = f y := by
  obtain ⟨c,hashed,rfl⟩ := Option.map_eq_some_iff.mp modified
  obtain ⟨d,inside,here⟩ := memItems.mp member
  change x ∈ Function.update h.entry c _ d at here
  rcases eq_or_ne d c with same | other
  · subst same
    rw [Function.update_self] at here
    rcases updateFirstMem here with old | changed
    · exact .inl (memItems.mpr ⟨d,inside,old⟩)
    · obtain ⟨y,first,made⟩ := changed
      exact .inr ⟨y,by rw [find,hashed,Option.map_some,first],made⟩
  · rw [Function.update_of_ne other] at here
    exact .inl (memItems.mpr ⟨d,inside,here⟩)

theorem modifyLength {f : α → α} (modified : h.modify op k f = some h') :
    h'.items.length = h.items.length := by
  obtain ⟨c,_,rfl⟩ := Option.map_eq_some_iff.mp modified
  simp only [items,List.length_flatMap]
  congr 1
  refine List.map_congr_left fun d _ => ?_
  rcases eq_or_ne d c with same | other
  · subst same
    rw [Function.update_self,updateFirstLength]
  · rw [Function.update_of_ne other]

theorem updateFirstBack {p : α → Bool} {f g : α → α} {l : List α} (first : l.find? p = some x)
    (same : p (f x)) (back : g (f x) = x) : updateFirst p g (updateFirst p f l) = l := by
  induction l with
  | nil => simp at first
  | cons y rest ih =>
    rw [updateFirst]
    by_cases here : p y = true
    · rw [List.find?_cons_of_pos here] at first
      cases Option.some.inj first
      rw [if_pos here,updateFirst,if_pos same,back]
    · rw [List.find?_cons_of_neg here] at first
      rw [if_neg here,updateFirst,if_neg here,ih first]

theorem insertRemove (absent : h.find op k = some none) (match_ : op.compare k x)
    (inserted : h.insert op k x = some h') : h'.remove op k = some h := by
  obtain ⟨c,hashed,search⟩ := Option.map_eq_some_iff.mp absent
  rw [insert,hashed] at inserted
  cases Option.some.inj inserted
  have again : (h.append c x).chain op k = some c := hashed
  rw [remove,again]
  have same : (h.entry c ++ [x]).eraseP (op.compare k) = h.entry c := by
    rw [List.eraseP_append_right _ fun y member => List.find?_eq_none.mp search y member]
    simp [match_]
  simp only [append,Function.update_self,same,Option.map_some]
  simp

theorem modifyBack {f g : α → α} (found : h.find op k = some (some x))
    (same : op.compare k (f x)) (back : g (f x) = x) (modified : h.modify op k f = some h') :
    h'.modify op k g = some h := by
  obtain ⟨c,hashed,first⟩ := findSome found
  rw [modify,hashed] at modified
  cases Option.some.inj modified
  simp only [modify,chain] at hashed ⊢
  rw [hashed,Option.map_some,Function.update_self,updateFirstBack first same back]
  simp

end Lookup

-- Every item sits in the chain of its key, and no two items of a chain share a key.
structure Keyed (op : HashTableOperations κ α) (key : α → κ) (h : HashTable α) : Prop where
  agrees : ∀ k x, op.compare k x = true ↔ key x = k
  placed : ∀ c, ∀ x ∈ h.entry c, h.chain op (key x) = some c
  distinct : ∀ c, ((h.entry c).map key).Nodup

section Keys
variable {op : HashTableOperations κ α} {key : α → κ} {h h' : HashTable α} {k : κ} {x : α}

theorem keyedInit (agrees : ∀ k x, op.compare k x = true ↔ key x = k) (m : Nat) :
    Keyed op key (init m) :=
  ⟨agrees,fun _ _ member => absurd member List.not_mem_nil,fun _ => List.nodup_nil⟩

theorem Keyed.changed (keyed : Keyed op key h) {c : Nat} {l : List α}
    (placed : ∀ x ∈ l, h.chain op (key x) = some c) (distinct : (l.map key).Nodup) :
    Keyed op key { h with entry := Function.update h.entry c l } where
  agrees := keyed.agrees
  placed := by
    intro d x member
    change x ∈ Function.update h.entry c l d at member
    rcases eq_or_ne d c with same | other
    · subst same
      rw [Function.update_self] at member
      exact placed x member
    · rw [Function.update_of_ne other] at member
      exact keyed.placed d x member
  distinct := by
    intro d
    change ((Function.update h.entry c l d).map key).Nodup
    rcases eq_or_ne d c with same | other
    · subst same
      rw [Function.update_self]
      exact distinct
    · rw [Function.update_of_ne other]
      exact keyed.distinct d

theorem Keyed.insert (keyed : Keyed op key h) (absent : h.find op k = some none)
    (own : key x = k) (inserted : h.insert op k x = some h') : Keyed op key h' := by
  obtain ⟨c,hashed,rfl⟩ := Option.map_eq_some_iff.mp inserted
  rw [find,hashed,Option.map_some] at absent
  have missed := List.find?_eq_none.mp (Option.some.inj absent)
  refine keyed.changed ?_ ?_
  · intro y member
    rcases List.mem_append.mp member with old | new
    · exact keyed.placed c y old
    · rw [List.mem_singleton.mp new,own]
      exact hashed
  · rw [List.map_append,List.map_singleton]
    refine List.nodup_append.mpr ⟨keyed.distinct c,List.nodup_singleton _,?_⟩
    intro a old b new same
    obtain ⟨y,member,named⟩ := List.mem_map.mp old
    refine missed y member ((keyed.agrees k y).mpr ?_)
    rw [named,same,List.mem_singleton.mp new,own]

theorem Keyed.remove (keyed : Keyed op key h) (removed : h.remove op k = some h') :
    Keyed op key h' := by
  obtain ⟨c,hashed,rfl⟩ := Option.map_eq_some_iff.mp removed
  exact keyed.changed (fun y member => keyed.placed c y (List.mem_of_mem_eraseP member))
    ((keyed.distinct c).sublist (List.eraseP_sublist.map key))

theorem updateFirstKeys {p : α → Bool} {f : α → α} (same : ∀ x, key (f x) = key x) (l : List α) :
    (updateFirst p f l).map key = l.map key := by
  induction l with
  | nil => rfl
  | cons y rest ih =>
    rw [updateFirst]
    split
    · rw [List.map_cons,List.map_cons,same]
    · rw [List.map_cons,List.map_cons,ih]

theorem Keyed.modify (keyed : Keyed op key h) {f : α → α} (same : ∀ x, key (f x) = key x)
    (modified : h.modify op k f = some h') : Keyed op key h' := by
  obtain ⟨c,hashed,rfl⟩ := Option.map_eq_some_iff.mp modified
  have keys : (updateFirst (op.compare k) f (h.entry c)).map key = (h.entry c).map key :=
    updateFirstKeys same _
  refine keyed.changed ?_ (keys ▸ keyed.distinct c)
  intro y member
  have named : key y ∈ (h.entry c).map key := keys ▸ List.mem_map_of_mem member
  obtain ⟨z,old,there⟩ := List.mem_map.mp named
  rw [← there]
  exact keyed.placed c z old

theorem Keyed.findRemoved (keyed : Keyed op key h) (removed : h.remove op k = some h') :
    h'.find op k = some none := by
  obtain ⟨c,hashed,made⟩ := Option.map_eq_some_iff.mp removed
  have again : h'.chain op k = some c := by
    rw [← made]
    exact hashed
  have rest : (h'.entry c).find? (op.compare k) = none := by
    rw [← made]
    simp only [Function.update_self]
    refine List.find?_eq_none.mpr fun y member match_ => ?_
    have own : key y = k := (keyed.agrees k y).mp match_
    cases search : (h.entry c).find? (op.compare k) with
    | none => exact List.find?_eq_none.mp search y (List.mem_of_mem_eraseP member) match_
    | some z =>
      obtain ⟨hit,before,after,whole,ahead⟩ := List.find?_eq_some_iff_append.mp search
      have left : (h.entry c).eraseP (op.compare k) = before ++ after := by
        rw [whole,List.eraseP_append_right _ (fun b member => by simpa using ahead b member)]
        simp [hit]
      have distinct := keyed.distinct c
      rw [whole,List.map_append,List.map_cons] at distinct
      rw [left] at member
      have fresh : key z ∉ before.map key ++ after.map key :=
        (List.nodup_middle.mp distinct).notMem
      rw [← List.map_append] at fresh
      refine fresh (List.mem_map.mpr ⟨y,member,?_⟩)
      rw [own,(keyed.agrees k z).mp hit]
  rw [find,again,Option.map_some,rest]

theorem Keyed.finds (keyed : Keyed op key h) (there : x ∈ h.items) :
    h.find op (key x) = some (some x) := by
  obtain ⟨c,inside,member⟩ := memItems.mp there
  rw [find,keyed.placed c x member,Option.map_some]
  cases search : (h.entry c).find? (op.compare (key x)) with
  | none => exact absurd ((keyed.agrees _ x).mpr rfl) (List.find?_eq_none.mp search x member)
  | some y =>
    have same : key y = key x := (keyed.agrees _ y).mp (List.find?_some search)
    rw [List.inj_on_of_nodup_map (keyed.distinct c) (List.mem_of_find?_eq_some search) member same]

theorem Keyed.filterKey [DecidableEq κ] (keyed : Keyed op key h) {r : Option α}
    (found : h.find op k = some r) :
    h.items.filter (fun x => decide (key x = k)) = r.toList := by
  cases r with
  | none =>
    refine List.filter_eq_nil_iff.mpr fun x member same => ?_
    have there := keyed.finds member
    rw [of_decide_eq_true same,found] at there
    cases there
  | some x =>
    obtain ⟨c,hashed,_⟩ := findSome found
    obtain ⟨h',removed⟩ : ∃ h', h.remove op k = some h' :=
      ⟨_,by rw [HashTable.remove,hashed,Option.map_some]⟩
    have absent := keyed.findRemoved removed
    have rest : h'.items.filter (fun x => decide (key x = k)) = [] := by
      refine List.filter_eq_nil_iff.mpr fun y member same => ?_
      have there := (keyed.remove removed).finds member
      rw [of_decide_eq_true same,absent] at there
      cases there
    have own : key x = k := (keyed.agrees k x).mp (findMem found).2
    have first : (x :: h'.items).filter (fun x => decide (key x = k)) = [x] := by
      rw [List.filter_cons_of_pos (by simp [own]),rest]
    have all := (removeItems found removed).filter (fun x => decide (key x = k))
    rw [first] at all
    exact List.perm_singleton.mp all.symm

end Keys

structure Maps (op : HashTableOperations κ α) (key : α → κ) (h : HashTable α)
    (m : κ → Option α) : Prop where
  keyed : Keyed op key h
  found : ∀ k, h.find op k = some (m k)

section Maps
variable {op : HashTableOperations κ α} {key : α → κ} {h h' : HashTable α} {k : κ} {x : α}
  {m : κ → Option α}

theorem Maps.items (maps : Maps op key h m) : x ∈ h.items ↔ m (key x) = some x := by
  constructor
  · intro member
    have found := maps.keyed.finds member
    rw [maps.found] at found
    exact Option.some.inj found
  · intro mapped
    have found := maps.found (key x)
    rw [mapped] at found
    exact (findMem found).1

variable [DecidableEq κ]

theorem Maps.insert (maps : Maps op key h m) (own : key x = k) (absent : m k = none)
    (inserted : h.insert op k x = some h') : Maps op key h' (Function.update m k (some x)) := by
  have missing := maps.found k
  rw [absent] at missing
  refine ⟨maps.keyed.insert missing own inserted,fun j => ?_⟩
  rcases eq_or_ne j k with same | other
  · subst same
    rw [findInsert ((maps.keyed.agrees j x).mpr own) inserted,missing,Function.update_self]
    rfl
  · have apart : ¬ op.compare j x := fun match_ =>
      other (((maps.keyed.agrees j x).mp match_).symm.trans own)
    rw [findInsertOther apart inserted,maps.found,Function.update_of_ne other]

theorem Maps.modify (maps : Maps op key h m) {f : α → α} (same : ∀ x, key (f x) = key x)
    (modified : h.modify op k f = some h') :
    Maps op key h' (Function.update m k ((m k).map f)) := by
  have kept (j : κ) (x : α) : op.compare j (f x) = op.compare j x := by
    rw [Bool.eq_iff_iff,maps.keyed.agrees,maps.keyed.agrees,same]
  refine ⟨maps.keyed.modify same modified,fun j => ?_⟩
  rcases eq_or_ne j k with here | other
  · subst here
    rw [findModify (kept j) modified,maps.found,Function.update_self]
    rfl
  · have apart : ∀ x, op.compare k x → ¬ op.compare j x ∧ ¬ op.compare j (f x) := by
      intro x mine
      have not : ¬ op.compare j x := fun theirs =>
        other (((maps.keyed.agrees j x).mp theirs).symm.trans ((maps.keyed.agrees k x).mp mine))
      exact ⟨not,by rwa [kept]⟩
    rw [findModifyOther apart modified,maps.found,Function.update_of_ne other]

end Maps

section Integers
variable {α : Type} {op : HashTableOperations Int32 α} {h : HashTable α} {k : Int32}

theorem chainKey (op : HashTableOperations Int32 α) (hash : op.hash = htHashInt)
    (sized : 0 < h.entries) : (h.chain op k).isSome ↔ 0 ≤ k := by
  unfold chain
  rw [hash,htHashInt]
  split
  · rename_i valid
    simp [Nat.mod_lt _ sized,valid]
  · rename_i negative
    simp [negative]

theorem insertKey (hash : op.hash = htHashInt) {x : α} {h' : HashTable α}
    (sized : 0 < h.entries) (inserted : h.insert op k x = some h') : 0 ≤ k := by
  obtain ⟨c,hashed,_⟩ := Option.map_eq_some_iff.mp inserted
  exact (chainKey op hash sized).mp (by rw [hashed]; rfl)

end Integers

end HashTable
end IoApps
