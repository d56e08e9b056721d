import IoApps.Lib.Links
import IoApps.Lib.Prog

/-! The linked lists, at the level of their pointers. An item knows the list it is on, and the
assertions of the operations are about that. -/
namespace IoApps.Adt
open Lib (Links Prog Segment)

structure ListHead (A : Type) where
  head : Option A
  tail : Option A
  deriving DecidableEq, Repr

structure Item (L A : Type) extends Links A where
  list : Option L
  deriving DecidableEq, Repr

-- What is allocated: the lists and the items that are embedded in some record.
structure Memory (L A : Type) where
  lists : L → Option (ListHead A)
  items : A → Option (Item L A)

inductive ListFault where
  | assertion
  | null
  | dangling
  | endless
  deriving DecidableEq, Repr

abbrev OnLists (L A α : Type) := Prog (Memory L A) ListFault α

section Operations
variable {L A : Type} [DecidableEq L] [DecidableEq A]

def Memory.modify (m : Memory L A) (a : A) (f : Item L A → Item L A) : Memory L A :=
  { m with items := Function.update m.items a ((m.items a).map f) }

def Memory.modifyList (m : Memory L A) (l : L) (f : ListHead A → ListHead A) : Memory L A :=
  { m with lists := Function.update m.lists l ((m.lists l).map f) }

def item (a : A) : OnLists L A (Item L A) := fun m =>
  match m.items a with
  | some i => .ok (i,m)
  | none => .error .dangling

def list (l : L) : OnLists L A (ListHead A) := fun m =>
  match m.lists l with
  | some h => .ok (h,m)
  | none => .error .dangling

def write (a : A) (f : Item L A → Item L A) : OnLists L A Unit := do
  let _ ← item a
  Prog.modify fun m => m.modify a f

def writeList (l : L) (f : ListHead A → ListHead A) : OnLists L A Unit := do
  let _ ← list l
  Prog.modify fun m => m.modifyList l f

def assert (p : Prop) [Decidable p] : OnLists L A Unit :=
  if p then pure () else Prog.throw .assertion

-- The pointer forwards, which is in the item before or else in the list, and the one backwards.
def writeNext (l : L) (before next : Option A) : OnLists L A Unit :=
  match before with
  | none => writeList l fun h => { h with head := next }
  | some p => write p fun i => { i with next := next }

def writePrev (l : L) (after prev : Option A) : OnLists L A Unit :=
  match after with
  | none => writeList l fun h => { h with tail := prev }
  | some n => write n fun i => { i with prev := prev }

def listInit (l : L) : OnLists L A Unit := writeList l fun _ => ⟨none,none⟩

def itemInit (a : A) : OnLists L A Unit := write a fun i => { i with list := none }

def listAppend (l : L) (a : A) : OnLists L A Unit := do
  let i ← item a
  assert (i.list = none)
  write a fun i => { i with list := some l }
  let h ← list l
  writeNext l h.tail (some a)
  let h ← list l
  write a fun i => { i with prev := h.tail }
  write a fun i => { i with next := none }
  writeList l fun h => { h with tail := some a }

def listOf (a : A) : OnLists L A L := do
  let i ← item a
  match i.list with
  | none => Prog.throw .assertion
  | some l => pure l

def listInsertBefore (target insert : A) : OnLists L A Unit := do
  let l ← listOf target
  write insert fun i => { i with list := some l }
  let t ← item target
  write insert fun i => { i with prev := t.prev }
  let t ← item target
  writeNext l t.prev (some insert)
  write insert fun i => { i with next := some target }
  write target fun i => { i with prev := some insert }

def listInsertAfter (target insert : A) : OnLists L A Unit := do
  let l ← listOf target
  write insert fun i => { i with list := some l }
  let t ← item target
  write insert fun i => { i with next := t.next }
  let t ← item target
  writePrev l t.next (some insert)
  write insert fun i => { i with prev := some target }
  write target fun i => { i with next := some insert }

def listRemove (l : L) (a : A) : OnLists L A Unit := do
  let i ← item a
  assert (i.list = some l)
  write a fun i => { i with list := none }
  let i ← item a
  writeNext l i.prev i.next
  let i ← item a
  writePrev l i.next i.prev

def listRemove2 (a : A) : OnLists L A Unit := do
  let l ← listOf a
  listRemove l a

def listEmpty (l : L) : OnLists L A Bool := do
  let h ← list l
  pure (h.head = none)

def walk : Nat → Option A → OnLists L A (List A)
  | _,none => pure []
  | 0,some _ => Prog.throw .endless
  | fuel + 1,some a => do
    let i ← item a
    let rest ← walk fuel i.next
    pure (a :: rest)

def listLength (fuel : Nat) (l : L) : OnLists L A Nat := do
  let h ← list l
  let items ← walk fuel h.head
  pure items.length

def listRotate (l : L) : OnLists L A A := do
  let h ← list l
  match h.head with
  | none => Prog.throw .null
  | some a => do
    listRemove l a
    listAppend l a
    pure a

end Operations

variable {L A : Type}

def Memory.links (m : Memory L A) (a : A) : Option (Links A) := (m.items a).map Item.toLinks

def Memory.owner (m : Memory L A) (a : A) : Option L := (m.items a).bind Item.list

/-- The memory holds these lists, and every item that is on one of them says so. -/
structure Represents (m : Memory L A) (xs : L → List A) : Prop where
  heads : ∀ l h, m.lists l = some h → h = ⟨(xs l).head?,(xs l).getLast?⟩
  absent : ∀ l, m.lists l = none → xs l = []
  segment : ∀ l, Segment m.links none (xs l) none
  nodup : ∀ l, (xs l).Nodup
  owned : ∀ a l, m.owner a = some l ↔ a ∈ xs l

section Accesses
variable {m : Memory L A} {a b : A} {l k : L} {i : Item L A} {h : ListHead A}

def Memory.known (m : Memory L A) (l : L) : Bool := (m.lists l).isSome

def Memory.alive (m : Memory L A) (a : A) : Bool := (m.items a).isSome

theorem itemRun (there : m.items a = some i) : item a m = .ok (i,m) := by
  rw [item,there]

theorem listRun (there : m.lists l = some h) : list l m = .ok (h,m) := by
  rw [list,there]

theorem assertRun {p : Prop} [Decidable p] (holds : p) :
    (assert p : OnLists L A Unit) m = .ok ((),m) := by
  rw [assert,if_pos holds]
  rfl

theorem assertFails {p : Prop} [Decidable p] (fails : ¬ p) :
    (assert p : OnLists L A Unit) m = .error .assertion := by
  rw [assert,if_neg fails]
  rfl

section Items
variable [DecidableEq A]

theorem modifyItems (m : Memory L A) (f : Item L A → Item L A) (x : A) :
    (m.modify a f).items x = if x = a then (m.items x).map f else m.items x := by
  simp only [Memory.modify,Function.update_apply]
  by_cases same : x = a
  · rw [if_pos same,if_pos same,same]
  · rw [if_neg same,if_neg same]

theorem modifyHeads (m : Memory L A) (a : A) (f : Item L A → Item L A) :
    (m.modify a f).lists = m.lists := rfl

@[simp] theorem modifyAlive (f : Item L A → Item L A) : (m.modify a f).alive b = m.alive b := by
  rw [Memory.alive,Memory.alive,modifyItems]
  split <;> simp

@[simp] theorem modifyKnown (f : Item L A → Item L A) : (m.modify a f).known l = m.known l := rfl

theorem writeRun (alive : m.alive a) (f : Item L A → Item L A) :
    write a f m = .ok ((),m.modify a f) := by
  obtain ⟨i,there⟩ := Option.isSome_iff_exists.mp alive
  rw [write,Prog.bindOf (itemRun there)]
  rfl

end Items

section Heads
variable [DecidableEq L]

theorem modifyLists (m : Memory L A) (f : ListHead A → ListHead A) (k : L) :
    (m.modifyList l f).lists k = if k = l then (m.lists k).map f else m.lists k := by
  simp only [Memory.modifyList,Function.update_apply]
  by_cases same : k = l
  · rw [if_pos same,if_pos same,same]
  · rw [if_neg same,if_neg same]

theorem modifyListHeads (m : Memory L A) (l : L) (f : ListHead A → ListHead A) :
    (m.modifyList l f).lists = Function.update m.lists l ((m.lists l).map f) := rfl

@[simp] theorem modifyListAlive (f : ListHead A → ListHead A) :
    (m.modifyList l f).alive a = m.alive a := rfl

@[simp] theorem modifyListKnown (f : ListHead A → ListHead A) :
    (m.modifyList l f).known k = m.known k := by
  rw [Memory.known,Memory.known,modifyLists]
  split <;> simp

theorem writeListRun (known : m.known l) (f : ListHead A → ListHead A) :
    writeList l f m = .ok ((),m.modifyList l f) := by
  obtain ⟨h,there⟩ := Option.isSome_iff_exists.mp known
  rw [writeList,Prog.bindOf (listRun there)]
  rfl

end Heads

variable [DecidableEq L] [DecidableEq A]

def Memory.setNext (m : Memory L A) (l : L) (before next : Option A) : Memory L A :=
  match before with
  | none => m.modifyList l fun h => { h with head := next }
  | some p => m.modify p fun i => { i with next := next }

def Memory.setPrev (m : Memory L A) (l : L) (after prev : Option A) : Memory L A :=
  match after with
  | none => m.modifyList l fun h => { h with tail := prev }
  | some n => m.modify n fun i => { i with prev := prev }

theorem setNextItems (m : Memory L A) (l : L) (before next : Option A) (x : A) :
    (m.setNext l before next).items x =
      if before = some x then (m.items x).map fun i => { i with next := next } else m.items x := by
  cases before with
  | none => rfl
  | some p =>
    rw [Memory.setNext,modifyItems]
    simp [eq_comm]

theorem setPrevItems (m : Memory L A) (l : L) (after prev : Option A) (x : A) :
    (m.setPrev l after prev).items x =
      if after = some x then (m.items x).map fun i => { i with prev := prev } else m.items x := by
  cases after with
  | none => rfl
  | some n =>
    rw [Memory.setPrev,modifyItems]
    simp [eq_comm]

@[simp] theorem setNextAlive (before next : Option A) :
    (m.setNext l before next).alive a = m.alive a := by
  cases before with
  | none => rfl
  | some p => exact modifyAlive _

@[simp] theorem setNextKnown (before next : Option A) :
    (m.setNext l before next).known k = m.known k := by
  cases before with
  | none => exact modifyListKnown _
  | some p => rfl

@[simp] theorem setPrevAlive (after prev : Option A) :
    (m.setPrev l after prev).alive a = m.alive a := by
  cases after with
  | none => rfl
  | some n => exact modifyAlive _

@[simp] theorem setPrevKnown (after prev : Option A) :
    (m.setPrev l after prev).known k = m.known k := by
  cases after with
  | none => exact modifyListKnown _
  | some n => rfl

theorem writeNextRun {before : Option A} (known : m.known l) (alive : ∀ p ∈ before, m.alive p)
    (next : Option A) : writeNext l before next m = .ok ((),m.setNext l before next) := by
  cases before with
  | none => exact writeListRun known _
  | some p => exact writeRun (alive p rfl) _

theorem writePrevRun {after : Option A} (known : m.known l) (alive : ∀ n ∈ after, m.alive n)
    (prev : Option A) : writePrev l after prev m = .ok ((),m.setPrev l after prev) := by
  cases after with
  | none => exact writeListRun known _
  | some n => exact writeRun (alive n rfl) _

end Accesses

section Changes
variable [DecidableEq L]

structure Inserted (m m' : Memory L A) (l : L) (a : A) (pre post : List A) : Prop where
  lists : m'.lists = Function.update m.lists l
    (some ⟨(pre ++ a :: post).head?,(pre ++ a :: post).getLast?⟩)
  here : m'.items a = some ⟨⟨pre.getLast?,post.head?⟩,some l⟩
  last : ∀ z ∈ pre.getLast?, m'.items z = (m.items z).map fun i => { i with next := some a }
  first : ∀ z ∈ post.head?, m'.items z = (m.items z).map fun i => { i with prev := some a }
  others : ∀ x, x ≠ a → x ∉ pre.getLast? → x ∉ post.head? → m'.items x = m.items x

structure Removed (m m' : Memory L A) (l : L) (a : A) (pre post : List A) : Prop where
  lists : m'.lists = Function.update m.lists l
    (some ⟨(pre ++ post).head?,(pre ++ post).getLast?⟩)
  here : ∃ i, i.list = none ∧ m'.items a = some i
  last : ∀ z ∈ pre.getLast?, m'.items z = (m.items z).map fun i => { i with next := post.head? }
  first : ∀ z ∈ post.head?, m'.items z = (m.items z).map fun i => { i with prev := pre.getLast? }
  others : ∀ x, x ≠ a → x ∉ pre.getLast? → x ∉ post.head? → m'.items x = m.items x

end Changes

namespace Represents
variable {m m' : Memory L A} {xs : L → List A} {l k : L} {a b : A} {pre post ys : List A}

theorem off (rep : Represents m xs) (free : m.owner a = none) (l : L) : a ∉ xs l := by
  intro inside
  rw [(rep.owned a l).mpr inside] at free
  cases free

theorem apart (rep : Represents m xs) (inside : a ∈ xs l) (other : k ≠ l) : a ∉ xs k := by
  intro inside'
  have here := (rep.owned a l).mpr inside
  rw [(rep.owned a k).mpr inside'] at here
  exact other (Option.some.inj here)

theorem linksOf {f : Item L A → Item L A} {g : Links A → Links A}
    (changed : m'.items a = (m.items a).map f) (same : ∀ i, (f i).toLinks = g i.toLinks) :
    m'.links a = (m.links a).map g := by
  rw [Memory.links,Memory.links,changed]
  cases m.items a with
  | none => rfl
  | some i => exact congrArg some (same i)

theorem ownerOf {f : Item L A → Item L A} (changed : m'.items a = (m.items a).map f)
    (same : ∀ i, (f i).list = i.list) : m'.owner a = m.owner a := by
  rw [Memory.owner,Memory.owner,changed]
  cases m.items a with
  | none => rfl
  | some i => exact same i

variable [DecidableEq L]

theorem changeAt (rep : Represents m xs)
    (lists : m'.lists = Function.update m.lists l (some ⟨ys.head?,ys.getLast?⟩))
    (segment : Segment m'.links none ys none) (nodup : ys.Nodup)
    (owned : ∀ b, m'.owner b = some l ↔ b ∈ ys)
    (owners : ∀ b k, k ≠ l → (m'.owner b = some k ↔ m.owner b = some k))
    (frame : ∀ k x, k ≠ l → x ∈ xs k → m'.items x = m.items x) :
    Represents m' (Function.update xs l ys) where
  heads k h there := by
    by_cases same : k = l
    · subst same
      rw [lists,Function.update_self] at there
      rw [Function.update_self]
      exact (Option.some.inj there).symm
    · rw [lists,Function.update_of_ne same] at there
      rw [Function.update_of_ne same]
      exact rep.heads k h there
  absent k missing := by
    by_cases same : k = l
    · subst same
      rw [lists,Function.update_self] at missing
      cases missing
    · rw [lists,Function.update_of_ne same] at missing
      rw [Function.update_of_ne same]
      exact rep.absent k missing
  segment k := by
    by_cases same : k = l
    · subst same
      rw [Function.update_self]
      exact segment
    · rw [Function.update_of_ne same]
      apply (rep.segment k).frame
      intro x inside
      rw [Memory.links,Memory.links,frame k x same inside]
  nodup k := by
    by_cases same : k = l
    · subst same
      rw [Function.update_self]
      exact nodup
    · rw [Function.update_of_ne same]
      exact rep.nodup k
  owned b k := by
    by_cases same : k = l
    · subst same
      rw [Function.update_self]
      exact owned b
    · rw [Function.update_of_ne same,owners b k same]
      exact rep.owned b k

theorem inserted (rep : Represents m xs) (split : xs l = pre ++ post) (free : m.owner a = none)
    (change : Inserted m m' l a pre post) :
    Represents m' (Function.update xs l (pre ++ a :: post)) := by
  obtain ⟨lists,here,last,first,others⟩ := change
  have before := rep.segment l
  have nodup := rep.nodup l
  have fresh := rep.off free l
  rw [split] at before nodup fresh
  have whole : (pre ++ a :: post).Nodup :=
    List.perm_middle.nodup_iff.mpr (List.nodup_cons.mpr ⟨fresh,nodup⟩)
  have linked : m'.links a = some ⟨pre.getLast?,post.head?⟩ := by
    rw [Memory.links,here]
    rfl
  have owner : ∀ b, b ≠ a → m'.owner b = m.owner b := by
    intro b other
    by_cases atLast : b ∈ pre.getLast?
    · exact ownerOf (last b atLast) fun _ => rfl
    · by_cases atFirst : b ∈ post.head?
      · exact ownerOf (first b atFirst) fun _ => rfl
      · rw [Memory.owner,others b other atLast atFirst,Memory.owner]
  have mine : m'.owner a = some l := by
    rw [Memory.owner,here]
    rfl
  apply rep.changeAt lists _ whole
  · intro b
    by_cases same : b = a
    · subst same
      simp [mine]
    · rw [owner b same,rep.owned,split]
      simp [same]
  · intro b k other
    by_cases same : b = a
    · subst same
      rw [mine,free]
      simp [Ne.symm other]
    · rw [owner b same]
  · intro k x other inside
    have elsewhere : x ∉ pre ++ post := split ▸ rep.apart inside (Ne.symm other)
    have atA : x ≠ a := by
      intro same
      exact rep.off free k (same ▸ inside)
    exact others x atA
      (fun end_ => elsewhere (List.mem_append_left _ (List.mem_of_mem_getLast? end_)))
      (fun end_ => elsewhere (List.mem_append_right _ (List.mem_of_mem_head? end_)))
  · apply before.link whole linked
    · exact fun z end_ => linksOf (last z end_) fun _ => rfl
    · exact fun z end_ => linksOf (first z end_) fun _ => rfl
    · intro x other atLast atFirst
      rw [Memory.links,Memory.links,others x other atLast atFirst]

theorem removed (rep : Represents m xs) (split : xs l = pre ++ a :: post)
    (change : Removed m m' l a pre post) :
    Represents m' (Function.update xs l (pre ++ post)) := by
  obtain ⟨lists,here,last,first,others⟩ := change
  have free : m'.owner a = none := by
    obtain ⟨i,list,here⟩ := here
    rw [Memory.owner,here,Option.bind_some,list]
  have before := rep.segment l
  have whole := rep.nodup l
  have member : a ∈ xs l := by
    rw [split]
    simp
  rw [split] at before whole
  obtain ⟨fresh,nodup⟩ := List.nodup_cons.mp (List.perm_middle.nodup_iff.mp whole)
  have owner : ∀ b, b ≠ a → m'.owner b = m.owner b := by
    intro b other
    by_cases atLast : b ∈ pre.getLast?
    · exact ownerOf (last b atLast) fun _ => rfl
    · by_cases atFirst : b ∈ post.head?
      · exact ownerOf (first b atFirst) fun _ => rfl
      · rw [Memory.owner,others b other atLast atFirst,Memory.owner]
  apply rep.changeAt lists _ nodup
  · intro b
    by_cases same : b = a
    · subst same
      rw [free]
      simpa using fresh
    · rw [owner b same,rep.owned,split]
      simp [same]
  · intro b k other
    by_cases same : b = a
    · subst same
      rw [free,(rep.owned b l).mpr member]
      simp [Ne.symm other]
    · rw [owner b same]
  · intro k x other inside
    have elsewhere : x ∉ pre ++ a :: post := split ▸ rep.apart inside (Ne.symm other)
    have atA : x ≠ a := by
      intro same
      exact rep.apart member other (same ▸ inside)
    exact others x atA
      (fun end_ => elsewhere (List.mem_append_left _ (List.mem_of_mem_getLast? end_)))
      (fun end_ => elsewhere (List.mem_append_right _
        (List.mem_cons_of_mem _ (List.mem_of_mem_head? end_))))
  · apply before.unlink whole
    · exact fun z end_ => linksOf (last z end_) fun _ => rfl
    · exact fun z end_ => linksOf (first z end_) fun _ => rfl
    · intro x other atLast atFirst
      rw [Memory.links,Memory.links,others x other atLast atFirst]

end Represents

section Runs
variable {m m' : Memory L A} {xs : L → List A} {l : L} {a t : A} {i j : Item L A} {h : ListHead A}
  {pre post : List A}

theorem aliveOf (there : m.items a = some i) : m.alive a := by
  rw [Memory.alive,there]
  rfl

theorem Represents.allocated (rep : Represents m xs) (inside : a ∈ xs l) :
    ∃ i, m.items a = some i ∧ i.list = some l :=
  Option.bind_eq_some_iff.mp ((rep.owned a l).mpr inside)

theorem Represents.alive (rep : Represents m xs) (inside : a ∈ xs l) : m.alive a := by
  obtain ⟨i,there,_⟩ := rep.allocated inside
  exact aliveOf there

theorem Represents.known (rep : Represents m xs) (inside : a ∈ xs l) : m.known l := by
  cases there : m.lists l with
  | none =>
    rw [rep.absent l there] at inside
    exact absurd inside List.not_mem_nil
  | some h => rw [Memory.known,there]; rfl

theorem Represents.heads' (rep : Represents m xs) (known : m.known l) :
    m.lists l = some ⟨(xs l).head?,(xs l).getLast?⟩ := by
  obtain ⟨h,there⟩ := Option.isSome_iff_exists.mp known
  rw [there,rep.heads l h there]

theorem walkRun {prev : Option A} {as : List A} {fuel : Nat}
    (segment : Segment m.links prev as none) (enough : as.length ≤ fuel) :
    walk fuel as.head? m = .ok (as,m) := by
  induction as generalizing prev fuel with
  | nil => cases fuel <;> rfl
  | cons a rest ih =>
    obtain ⟨fuel,rfl⟩ := Nat.exists_eq_add_one.mpr (Nat.lt_of_lt_of_le (Nat.succ_pos _) enough)
    obtain ⟨here,others⟩ := segment
    obtain ⟨i,there,links⟩ := Option.map_eq_some_iff.mp here
    have next : i.next = rest.head? := (congrArg Links.next links).trans (Option.or_none ..)
    have follows := ih others (Nat.le_of_succ_le_succ enough)
    rw [List.head?_cons,walk,Prog.bindOf (itemRun there),next,Prog.bindOf follows]
    rfl

theorem Represents.lengthRun (rep : Represents m xs) (known : m.known l) {fuel : Nat}
    (enough : (xs l).length ≤ fuel) : listLength fuel l m = .ok ((xs l).length,m) := by
  rw [listLength,Prog.bindOf (listRun (rep.heads' known)),
    Prog.bindOf (walkRun (rep.segment l) enough)]
  rfl

theorem Represents.emptyRun [DecidableEq A] (rep : Represents m xs) (known : m.known l) :
    listEmpty l m = .ok (decide (xs l = []),m) := by
  rw [listEmpty,Prog.bindOf (listRun (rep.heads' known))]
  simp only [List.head?_eq_none_iff,Prog.pureRun]

theorem headInserted (pre post : List A) (a : A) : (pre ++ a :: post).head? =
    if pre.getLast?.isNone then some a else (pre ++ post).head? := by
  cases pre with
  | nil => rfl
  | cons x rest => rw [List.getLast?_cons]; rfl

theorem lastInserted (pre post : List A) (a : A) : (pre ++ a :: post).getLast? =
    if post.head?.isNone then some a else (pre ++ post).getLast? := by
  cases post with
  | nil => simp
  | cons x rest => simp [List.getLast?_append,List.getLast?_cons]

theorem headRemoved (pre post : List A) (a : A) : (pre ++ post).head? =
    if pre.getLast?.isNone then post.head? else (pre ++ a :: post).head? := by
  cases pre with
  | nil => rfl
  | cons x rest => rw [List.getLast?_cons]; rfl

theorem lastRemoved (pre post : List A) (a : A) : (pre ++ post).getLast? =
    if post.head?.isNone then pre.getLast? else (pre ++ a :: post).getLast? := by
  cases post with
  | nil => simp
  | cons x rest => simp [List.getLast?_append,List.getLast?_cons]

variable [DecidableEq L] [DecidableEq A]

theorem appendRun (there : m.items a = some i) (free : i.list = none)
    (head : m.lists l = some h) (last : ∀ t ∈ h.tail, t ≠ a ∧ m.alive t) :
    listAppend l a m = .ok ((),((((m.modify a fun i => { i with list := some l }).setNext l h.tail
      (some a)).modify a fun i => { i with prev := h.tail }).modify a fun i =>
        { i with next := none }).modifyList l fun h => { h with tail := some a }) := by
  have known : m.known l := by
    rw [Memory.known,head]
    rfl
  have alive := aliveOf there
  have first : (m.modify a fun i => { i with list := some l }).lists l = some h := head
  have second : ∃ k, ((m.modify a fun i => { i with list := some l }).setNext l h.tail
      (some a)).lists l = some k ∧ k.tail = h.tail := by
    cases tail : h.tail with
    | none =>
      rw [Memory.setNext,modifyLists,if_pos rfl]
      exact ⟨_,congrArg _ head,tail⟩
    | some t => exact ⟨h,head,tail⟩
  obtain ⟨k,second,tail⟩ := second
  rw [listAppend,Prog.bindOf (itemRun there),Prog.bindOf (assertRun free),
    Prog.bindOf (writeRun alive _),Prog.bindOf (listRun first),
    Prog.bindOf (writeNextRun (by simpa) (fun t end_ => by simpa using (last t end_).2) _),
    Prog.bindOf (listRun second),tail,Prog.bindOf (writeRun (by simpa) _),
    Prog.bindOf (writeRun (by simpa) _)]
  exact writeListRun (by simpa) _

theorem removeRun (there : m.items a = some i) (mine : i.list = some l) (known : m.known l)
    (before : ∀ p ∈ i.prev, p ≠ a ∧ m.alive p) (after : ∀ n ∈ i.next, n ≠ a ∧ m.alive n) :
    listRemove l a m = .ok ((),((m.modify a fun i => { i with list := none }).setNext l i.prev
      i.next).setPrev l i.next i.prev) := by
  have first : (m.modify a fun i => { i with list := none }).items a =
      some { i with list := none } := by
    rw [modifyItems,if_pos rfl,there]
    rfl
  have second : ((m.modify a fun i => { i with list := none }).setNext l i.prev i.next).items a =
      some { i with list := none } := by
    rw [setNextItems,if_neg,first]
    intro same
    exact (before a same).1 rfl
  rw [listRemove,Prog.bindOf (itemRun there),Prog.bindOf (assertRun mine),
    Prog.bindOf (writeRun (aliveOf there) _),Prog.bindOf (itemRun first),
    Prog.bindOf (writeNextRun (by simpa) (fun p end_ => by simpa using (before p end_).2) _),
    Prog.bindOf (itemRun second)]
  exact writePrevRun (by simpa) (fun n end_ => by simpa using (after n end_).2) _

theorem insertBeforeRun (there : m.items t = some j) (mine : j.list = some l) (known : m.known l)
    (alive : m.alive a) (other : t ≠ a) (before : ∀ p ∈ j.prev, m.alive p) :
    listInsertBefore t a m = .ok ((),((((m.modify a fun i => { i with list := some l }).modify a
      fun i => { i with prev := j.prev }).setNext l j.prev (some a)).modify a fun i =>
        { i with next := some t }).modify t fun i => { i with prev := some a }) := by
  have from_ : listOf t m = .ok (l,m) := by
    rw [listOf,Prog.bindOf (itemRun there),mine]
    rfl
  have first : (m.modify a fun i => { i with list := some l }).items t = some j := by
    rw [modifyItems,if_neg other,there]
  have second : ((m.modify a fun i => { i with list := some l }).modify a fun i =>
      { i with prev := j.prev }).items t = some j := by
    rw [modifyItems,if_neg other,first]
  rw [listInsertBefore,Prog.bindOf from_,Prog.bindOf (writeRun alive _),Prog.bindOf (itemRun first),
    Prog.bindOf (writeRun (by simpa) _),Prog.bindOf (itemRun second),
    Prog.bindOf (writeNextRun (by simpa) (fun p end_ => by simpa using before p end_) _),
    Prog.bindOf (writeRun (by simpa) _)]
  exact writeRun (by simpa using aliveOf there) _

theorem insertAfterRun (there : m.items t = some j) (mine : j.list = some l) (known : m.known l)
    (alive : m.alive a) (other : t ≠ a) (after : ∀ n ∈ j.next, m.alive n) :
    listInsertAfter t a m = .ok ((),((((m.modify a fun i => { i with list := some l }).modify a
      fun i => { i with next := j.next }).setPrev l j.next (some a)).modify a fun i =>
        { i with prev := some t }).modify t fun i => { i with next := some a }) := by
  have from_ : listOf t m = .ok (l,m) := by
    rw [listOf,Prog.bindOf (itemRun there),mine]
    rfl
  have first : (m.modify a fun i => { i with list := some l }).items t = some j := by
    rw [modifyItems,if_neg other,there]
  have second : ((m.modify a fun i => { i with list := some l }).modify a fun i =>
      { i with next := j.next }).items t = some j := by
    rw [modifyItems,if_neg other,first]
  rw [listInsertAfter,Prog.bindOf from_,Prog.bindOf (writeRun alive _),Prog.bindOf (itemRun first),
    Prog.bindOf (writeRun (by simpa) _),Prog.bindOf (itemRun second),
    Prog.bindOf (writePrevRun (by simpa) (fun n end_ => by simpa using after n end_) _),
    Prog.bindOf (writeRun (by simpa) _)]
  exact writeRun (by simpa using aliveOf there) _

section Ends
variable {before after : Option A}

theorem setNextHeads (m : Memory L A) (l : L) (next : Option A) :
    (m.setNext l before next).lists = Function.update m.lists l ((m.lists l).map fun h =>
      { h with head := if before.isNone then next else h.head }) := by
  cases before with
  | none => rfl
  | some p => simp [Memory.setNext,modifyHeads]

theorem setPrevHeads (m : Memory L A) (l : L) (prev : Option A) :
    (m.setPrev l after prev).lists = Function.update m.lists l ((m.lists l).map fun h =>
      { h with tail := if after.isNone then prev else h.tail }) := by
  cases after with
  | none => rfl
  | some n => simp [Memory.setPrev,modifyHeads]

end Ends

theorem appendRuns (rep : Represents m xs) (there : m.items a = some i) (free : i.list = none)
    (known : m.known l) :
    ∃ m', listAppend l a m = .ok ((),m') ∧ Inserted m m' l a (xs l) [] := by
  have head := rep.heads' known
  have fresh : a ∉ xs l := rep.off (by rw [Memory.owner,there]; exact free) l
  have last : ∀ t ∈ (xs l).getLast?, t ≠ a ∧ m.alive t := by
    intro t end_
    have inside := List.mem_of_mem_getLast? end_
    exact ⟨fun same => fresh (same ▸ inside),rep.alive inside⟩
  have apart : (xs l).getLast? ≠ some a := fun same => (last a same).1 rfl
  refine ⟨_,appendRun there free head last,?_⟩
  constructor
  · rw [headInserted]
    simp [modifyHeads,modifyListHeads,setNextHeads,head]
  · simp [Memory.modifyList,modifyItems,setNextItems,there,apart]
  · intro z end_
    have other := (last z end_).1
    simp [Memory.modifyList,modifyItems,setNextItems,other,Option.mem_def.mp end_]
  · intro z end_
    cases end_
  · intro x other atLast _
    have elsewhere : (xs l).getLast? ≠ some x := atLast
    simp [Memory.modifyList,modifyItems,setNextItems,other,elsewhere]

structure Placed (m : Memory L A) (l : L) (a : A) (pre post : List A) (i : Item L A) : Prop where
  there : m.items a = some i
  mine : i.list = some l
  links : i.toLinks = ⟨pre.getLast?,post.head?⟩
  before : ∀ p ∈ pre.getLast?, p ≠ a ∧ m.alive p ∧ p ∉ post.head?
  after : ∀ n ∈ post.head?, n ≠ a ∧ m.alive n

omit [DecidableEq L] [DecidableEq A] in
theorem Represents.placed (rep : Represents m xs) (split : xs l = pre ++ a :: post) :
    ∃ i, Placed m l a pre post i := by
  have member : a ∈ xs l := by
    rw [split]
    simp
  obtain ⟨i,there,mine⟩ := rep.allocated member
  have segment := rep.segment l
  have whole := rep.nodup l
  rw [split] at segment whole
  obtain ⟨fresh,nodup⟩ := List.nodup_cons.mp (List.perm_middle.nodup_iff.mp whole)
  have apart := (List.nodup_append.mp nodup).2.2
  refine ⟨i,there,mine,?_,?_,?_⟩
  · have middle := segment.middle
    rw [Memory.links,there] at middle
    exact Option.some.inj middle
  · intro p end_
    have inside := List.mem_of_mem_getLast? end_
    refine ⟨fun same => fresh (same ▸ List.mem_append_left _ inside),rep.alive (l := l) ?_,?_⟩
    · rw [split]
      exact List.mem_append_left _ inside
    · exact fun first => apart p inside p (List.mem_of_mem_head? first) rfl
  · intro n first
    have inside := List.mem_of_mem_head? first
    refine ⟨fun same => fresh (same ▸ List.mem_append_right _ inside),rep.alive (l := l) ?_⟩
    rw [split]
    exact List.mem_append_right _ (List.mem_cons_of_mem _ inside)

theorem removeRuns (rep : Represents m xs) (split : xs l = pre ++ a :: post) :
    ∃ m', listRemove l a m = .ok ((),m') ∧ Removed m m' l a pre post := by
  obtain ⟨i,there,mine,links,before,after⟩ := rep.placed split
  have member : a ∈ xs l := by
    rw [split]
    simp
  have head := rep.heads' (rep.known member)
  rw [split] at head
  obtain ⟨⟨prev,next⟩,owner⟩ := i
  cases links
  have run := removeRun there mine (rep.known member)
    (fun p end_ => ⟨(before p end_).1,(before p end_).2.1⟩) after
  have apartPrev : pre.getLast? ≠ some a := fun same => (before a same).1 rfl
  have apartNext : post.head? ≠ some a := fun same => (after a same).1 rfl
  refine ⟨_,run,?_⟩
  constructor
  · rw [headRemoved pre post a,lastRemoved pre post a]
    simp [modifyHeads,setNextHeads,setPrevHeads,head]
  · simp [modifyItems,setNextItems,setPrevItems,there,apartPrev,apartNext]
  · intro z end_
    obtain ⟨other,_,notFirst⟩ := before z end_
    have notFirst : post.head? ≠ some z := notFirst
    simp [modifyItems,setNextItems,setPrevItems,other,Option.mem_def.mp end_,notFirst]
  · intro z first
    have notLast : pre.getLast? ≠ some z := fun end_ => (before z end_).2.2 first
    simp [modifyItems,setNextItems,setPrevItems,(after z first).1,Option.mem_def.mp first,notLast]
  · intro x other atLast atFirst
    have notLast : pre.getLast? ≠ some x := atLast
    have notFirst : post.head? ≠ some x := atFirst
    simp [modifyItems,setNextItems,setPrevItems,other,notLast,notFirst]

theorem insertBeforeRuns (rep : Represents m xs) (split : xs l = pre ++ t :: post)
    (there : m.items a = some i) (free : i.list = none) :
    ∃ m', listInsertBefore t a m = .ok ((),m') ∧ Inserted m m' l a pre (t :: post) := by
  have fresh : a ∉ xs l := rep.off (by rw [Memory.owner,there]; exact free) l
  have member : t ∈ xs l := by
    rw [split]
    simp
  obtain ⟨j,at_,mine,links,before,after⟩ := rep.placed split
  have other : t ≠ a := fun same => fresh (same ▸ member)
  have head := rep.heads' (rep.known member)
  rw [split] at head fresh
  obtain ⟨⟨prev,next⟩,owner⟩ := j
  cases links
  have run := insertBeforeRun at_ mine (rep.known member) (aliveOf there) other
    (fun p end_ => (before p end_).2.1)
  have apartA : ∀ z ∈ pre.getLast?, z ≠ a := fun z end_ same =>
    fresh (same ▸ List.mem_append_left _ (List.mem_of_mem_getLast? end_))
  have notA : pre.getLast? ≠ some a := fun same => apartA a same rfl
  have notT : pre.getLast? ≠ some t := fun same => (before t same).1 rfl
  refine ⟨_,run,?_⟩
  constructor
  · rw [headInserted,lastInserted]
    simp [modifyHeads,setNextHeads,head]
  · cases mine
    simp [modifyItems,setNextItems,there,notA,Ne.symm other]
  · intro z end_
    simp [modifyItems,setNextItems,apartA z end_,(before z end_).1,Option.mem_def.mp end_]
  · intro z first
    cases first
    simp [modifyItems,setNextItems,other,notT]
  · intro x notIt atLast atFirst
    have notLast : pre.getLast? ≠ some x := atLast
    have notTarget : x ≠ t := fun same => atFirst (same ▸ rfl)
    simp [modifyItems,setNextItems,notIt,notLast,notTarget]

theorem insertAfterRuns (rep : Represents m xs) (split : xs l = pre ++ t :: post)
    (there : m.items a = some i) (free : i.list = none) :
    ∃ m', listInsertAfter t a m = .ok ((),m') ∧ Inserted m m' l a (pre ++ [t]) post := by
  have fresh : a ∉ xs l := rep.off (by rw [Memory.owner,there]; exact free) l
  have member : t ∈ xs l := by
    rw [split]
    simp
  obtain ⟨j,at_,mine,links,before,after⟩ := rep.placed split
  have other : t ≠ a := fun same => fresh (same ▸ member)
  have head := rep.heads' (rep.known member)
  rw [split] at head fresh
  obtain ⟨⟨prev,next⟩,owner⟩ := j
  cases links
  have run := insertAfterRun at_ mine (rep.known member) (aliveOf there) other
    (fun n first => (after n first).2)
  have apartA : ∀ z ∈ post.head?, z ≠ a := fun z first same => fresh (same ▸
    List.mem_append_right _ (List.mem_cons_of_mem _ (List.mem_of_mem_head? first)))
  have notA : post.head? ≠ some a := fun same => apartA a same rfl
  have notT : post.head? ≠ some t := fun same => (after t same).1 rfl
  refine ⟨_,run,?_⟩
  constructor
  · cases post with
    | nil => simp [modifyHeads,setPrevHeads,head]
    | cons n rest => simp [modifyHeads,setPrevHeads,head,List.getLast?_cons]
  · cases mine
    simp [modifyItems,setPrevItems,there,notA,Ne.symm other]
  · intro z end_
    rw [List.getLast?_concat] at end_
    cases end_
    simp [modifyItems,setPrevItems,other,notT]
  · intro z first
    simp [modifyItems,setPrevItems,apartA z first,(after z first).1,Option.mem_def.mp first]
  · intro x notIt atLast atFirst
    have notFirst : post.head? ≠ some x := atFirst
    have notTarget : x ≠ t := by
      intro same
      apply atLast
      rw [List.getLast?_concat,same]
      rfl
    simp [modifyItems,setPrevItems,notIt,notFirst,notTarget]

end Runs
section Calls
variable {m m' : Memory L A} {xs xs' : L → List A} {l k : L} {a t : A} {pre post : List A}

structure SameCells (m m' : Memory L A) : Prop where
  alive : ∀ a, m'.alive a = m.alive a
  known : ∀ l, m'.known l = m.known l

theorem SameCells.trans {m'' : Memory L A} (first : SameCells m m') (second : SameCells m' m'') :
    SameCells m m'' :=
  ⟨fun a => (second.alive a).trans (first.alive a),fun l => (second.known l).trans (first.known l)⟩

theorem mapAlive {f : Item L A → Item L A} (changed : m'.items a = (m.items a).map f) :
    m'.alive a = m.alive a := by
  rw [Memory.alive,changed,Option.isSome_map,Memory.alive]

theorem Represents.free (rep : Represents m xs) (alive : m.alive a) (off : ∀ k, a ∉ xs k) :
    ∃ i, m.items a = some i ∧ i.list = none := by
  obtain ⟨i,there⟩ := Option.isSome_iff_exists.mp alive
  cases mine : i.list with
  | none => exact ⟨i,there,mine⟩
  | some k =>
    have owned : m.owner a = some k := by
      rw [Memory.owner,there]
      exact mine
    exact absurd ((rep.owned a k).mp owned) (off k)

theorem Represents.listOf (rep : Represents m xs) (member : a ∈ xs l) : listOf a m = .ok (l,m) := by
  obtain ⟨i,there,mine⟩ := rep.allocated member
  rw [Adt.listOf,Prog.bindOf (itemRun there),mine]
  rfl

theorem broken (rep : Represents m xs) (member : a ∈ xs k) (other : m'.owner a ≠ some k)
    (lists : m'.lists k = m.lists k) (items : ∀ x ∈ xs k, x ≠ a → m'.items x = m.items x)
    (ys : L → List A) : ¬ Represents m' ys := by
  intro rep'
  apply other
  rw [rep'.owned]
  obtain ⟨pre,post,split⟩ := List.append_of_mem member
  have head := rep.heads' (rep.known member)
  obtain rfl | ⟨front,p,rfl⟩ := List.eq_nil_or_concat' pre
  · rw [← lists,split] at head
    have same := congrArg ListHead.head (rep'.heads k _ head)
    exact List.mem_of_mem_head? same.symm
  · have split' : xs k = front ++ p :: a :: post := by
      rw [split,List.append_assoc]
      rfl
    obtain ⟨i,there,mine,links,_,after⟩ := rep.placed split'
    have kept : m'.items p = some i := by
      rw [items p (by rw [split']; simp) fun same => (after a rfl).1 same.symm,there]
    have inside : p ∈ ys k := (rep'.owned p k).mp (by rw [Memory.owner,kept]; exact mine)
    obtain ⟨pre',post',split''⟩ := List.append_of_mem inside
    obtain ⟨j,there',_,links',_,_⟩ := rep'.placed split''
    rw [kept] at there'
    cases there'
    rw [links] at links'
    have next : some a = post'.head? := congrArg Links.next links'
    rw [split'']
    exact List.mem_append_right _ (List.mem_cons_of_mem _ (List.mem_of_mem_head? next.symm))

variable [DecidableEq L]

theorem updateKnown {h : ListHead A} (known : m.known l)
    (lists : m'.lists = Function.update m.lists l (some h)) (k : L) : m'.known k = m.known k := by
  rw [Memory.known,lists,Memory.known]
  by_cases same : k = l
  · subst same
    rw [Function.update_self]
    exact known.symm
  · rw [Function.update_of_ne same]

variable [DecidableEq A]

theorem Inserted.cells (change : Inserted m m' l a pre post) (known : m.known l)
    (alive : m.alive a) : SameCells m m' where
  known := updateKnown known change.lists
  alive x := by
    by_cases same : x = a
    · subst same
      rw [alive,Memory.alive,change.here]
      rfl
    by_cases atLast : x ∈ pre.getLast?
    · exact mapAlive (change.last x atLast)
    by_cases atFirst : x ∈ post.head?
    · exact mapAlive (change.first x atFirst)
    rw [Memory.alive,change.others x same atLast atFirst,Memory.alive]

theorem Removed.cells (change : Removed m m' l a pre post) (known : m.known l)
    (alive : m.alive a) : SameCells m m' where
  known := updateKnown known change.lists
  alive x := by
    by_cases same : x = a
    · subst same
      obtain ⟨i,_,here⟩ := change.here
      rw [alive,Memory.alive,here]
      rfl
    by_cases atLast : x ∈ pre.getLast?
    · exact mapAlive (change.last x atLast)
    by_cases atFirst : x ∈ post.head?
    · exact mapAlive (change.first x atFirst)
    rw [Memory.alive,change.others x same atLast atFirst,Memory.alive]

inductive ListCall (L A : Type) where
  | append (l : L) (a : A)
  | insertBefore (target insert : A)
  | insertAfter (target insert : A)
  | remove (l : L) (a : A)
  | remove2 (a : A)
  | rotate (l : L)

def ListCall.run : ListCall L A → OnLists L A Unit
  | append l a => listAppend l a
  | insertBefore t a => listInsertBefore t a
  | insertAfter t a => listInsertAfter t a
  | remove l a => listRemove l a
  | remove2 a => listRemove2 a
  | rotate l => do
    let _ ← listRotate l
    pure ()

def ListCall.Given (m : Memory L A) : ListCall L A → Prop
  | append l a | remove l a => m.known l ∧ m.alive a
  | insertBefore t a | insertAfter t a => m.alive t ∧ m.alive a
  | remove2 a => m.alive a
  | rotate l => m.known l

-- An insertion does not look whether the new item is on a list already.
def ListCall.Checked : ListCall L A → Prop
  | insertBefore _ _ | insertAfter _ _ => False
  | append _ _ | remove _ _ | remove2 _ | rotate _ => True

/-- What the calls are for, on lists without pointers. -/
inductive Moves (xs : L → List A) : ListCall L A → (L → List A) → Prop where
  | append {l : L} {a : A} (free : ∀ k, a ∉ xs k) :
    Moves xs (.append l a) (Function.update xs l (xs l ++ [a]))
  | insertBefore {l : L} {a t : A} {pre post : List A} (split : xs l = pre ++ t :: post)
    (free : ∀ k, a ∉ xs k) :
    Moves xs (.insertBefore t a) (Function.update xs l (pre ++ a :: t :: post))
  | insertAfter {l : L} {a t : A} {pre post : List A} (split : xs l = pre ++ t :: post)
    (free : ∀ k, a ∉ xs k) :
    Moves xs (.insertAfter t a) (Function.update xs l (pre ++ t :: a :: post))
  | remove {l : L} {a : A} {pre post : List A} (split : xs l = pre ++ a :: post) :
    Moves xs (.remove l a) (Function.update xs l (pre ++ post))
  | remove2 {l : L} {a : A} {pre post : List A} (split : xs l = pre ++ a :: post) :
    Moves xs (.remove2 a) (Function.update xs l (pre ++ post))
  | rotate {l : L} {a : A} {rest : List A} (split : xs l = a :: rest) :
    Moves xs (.rotate l) (Function.update xs l (rest ++ [a]))

theorem Represents.appendTo (rep : Represents m xs) (known : m.known l) (alive : m.alive a)
    (off : ∀ k, a ∉ xs k) : ∃ m', listAppend l a m = .ok ((),m') ∧
      Represents m' (Function.update xs l (xs l ++ [a])) ∧ SameCells m m' := by
  obtain ⟨i,there,free⟩ := rep.free alive off
  obtain ⟨m',run,change⟩ := appendRuns rep there free known
  have unowned : m.owner a = none := by
    rw [Memory.owner,there]
    exact free
  exact ⟨m',run,rep.inserted (List.append_nil _).symm unowned change,change.cells known alive⟩

theorem Represents.removeFrom (rep : Represents m xs) (split : xs l = pre ++ a :: post) :
    ∃ m', listRemove l a m = .ok ((),m') ∧
      Represents m' (Function.update xs l (pre ++ post)) ∧ SameCells m m' := by
  have member : a ∈ xs l := by
    rw [split]
    simp
  obtain ⟨m',run,change⟩ := removeRuns rep split
  exact ⟨m',run,rep.removed split change,change.cells (rep.known member) (rep.alive member)⟩

theorem Represents.rotates {rest : List A} (rep : Represents m xs) (known : m.known l)
    (split : xs l = a :: rest) : ∃ m', listRotate l m = .ok (a,m') ∧
      Represents m' (Function.update xs l (rest ++ [a])) ∧ SameCells m m' := by
  have member : a ∈ xs l := by
    rw [split]
    exact List.mem_cons_self
  have whole : xs l = [] ++ a :: rest := split
  obtain ⟨m',run,rep',cells⟩ := rep.removeFrom whole
  have fresh : a ∉ rest := by
    have nodup := rep.nodup l
    rw [split] at nodup
    exact (List.nodup_cons.mp nodup).1
  have off : ∀ k, a ∉ Function.update xs l ([] ++ rest) k := by
    intro k
    by_cases same : k = l
    · subst same
      rw [Function.update_self]
      exact fresh
    · rw [Function.update_of_ne same]
      exact rep.apart member same
  obtain ⟨m'',run',rep'',cells'⟩ := rep'.appendTo ((cells.known l).trans known)
    ((cells.alive a).trans (rep.alive member)) off
  rw [Function.update_self,Function.update_idem] at rep''
  have head := rep.heads' known
  rw [split] at head
  refine ⟨m'',?_,rep'',cells.trans cells'⟩
  rw [listRotate,Prog.bindOf (listRun head)]
  show (listRemove l a >>= fun _ => listAppend l a >>= fun _ => pure a) m = _
  rw [Prog.bindOf run,Prog.bindOf run']
  rfl

/-- The step lemma: the pointers follow the lists. -/
theorem Moves.runs {c : ListCall L A} (moves : Moves xs c xs') (rep : Represents m xs)
    (given : c.Given m) :
    ∃ m', c.run m = .ok ((),m') ∧ Represents m' xs' ∧ SameCells m m' := by
  cases moves with
  | append free => exact rep.appendTo given.1 given.2 free
  | @insertBefore l a t pre post split off =>
    have member : t ∈ xs l := by
      rw [split]
      simp
    obtain ⟨i,there,free⟩ := rep.free given.2 off
    obtain ⟨m',run,change⟩ := insertBeforeRuns rep split there free
    have unowned : m.owner a = none := by
      rw [Memory.owner,there]
      exact free
    exact ⟨m',run,rep.inserted split unowned change,change.cells (rep.known member) given.2⟩
  | @insertAfter l a t pre post split off =>
    have member : t ∈ xs l := by
      rw [split]
      simp
    have split' : xs l = (pre ++ [t]) ++ post := by
      rw [split,List.append_assoc]
      rfl
    obtain ⟨i,there,free⟩ := rep.free given.2 off
    obtain ⟨m',run,change⟩ := insertAfterRuns rep split there free
    have unowned : m.owner a = none := by
      rw [Memory.owner,there]
      exact free
    have after := rep.inserted split' unowned change
    rw [List.append_assoc] at after
    exact ⟨m',run,after,change.cells (rep.known member) given.2⟩
  | remove split => exact rep.removeFrom split
  | @remove2 l a pre post split =>
    have member : a ∈ xs l := by
      rw [split]
      simp
    obtain ⟨m',run,after⟩ := rep.removeFrom split
    refine ⟨m',?_,after⟩
    rw [ListCall.run,listRemove2,Prog.bindOf (rep.listOf member),run]
  | rotate split =>
    obtain ⟨m',run,after⟩ := rep.rotates given split
    refine ⟨m',?_,after⟩
    rw [ListCall.run,Prog.bindOf run]
    rfl

omit [DecidableEq L] [DecidableEq A] in
theorem ListCall.Given.kept {c : ListCall L A} (given : c.Given m) (cells : SameCells m m') :
    c.Given m' := by
  cases c with
  | append l a | remove l a => exact ⟨(cells.known l).trans given.1,(cells.alive a).trans given.2⟩
  | insertBefore t a | insertAfter t a =>
    exact ⟨(cells.alive t).trans given.1,(cells.alive a).trans given.2⟩
  | remove2 a => exact (cells.alive a).trans given
  | rotate l => exact (cells.known l).trans given

-- How a call that makes no sense is noticed.
def ListCall.fault : ListCall L A → ListFault
  | rotate _ => .null
  | append _ _ | insertBefore _ _ | insertAfter _ _ | remove _ _ | remove2 _ => .assertion

theorem stopped {c : ListCall L A} (rep : Represents m xs) (given : c.Given m)
    (checked : c.Checked) (stuck : ∀ xs', ¬ Moves xs c xs') : c.run m = .error c.fault := by
  cases c with
  | append l a =>
    have member : ∃ k, a ∈ xs k := by
      by_contra none
      exact stuck _ (.append fun k inside => none ⟨k,inside⟩)
    obtain ⟨k,inside⟩ := member
    obtain ⟨i,there,mine⟩ := rep.allocated inside
    have fails : ¬ i.list = none := by
      rw [mine]
      exact Option.some_ne_none k
    rw [ListCall.run,listAppend,Prog.bindOf (itemRun there),Prog.bindRun,assertFails fails]
    rfl
  | insertBefore t a => exact absurd checked not_false
  | insertAfter t a => exact absurd checked not_false
  | remove l a =>
    obtain ⟨i,there⟩ := Option.isSome_iff_exists.mp given.2
    have fails : ¬ i.list = some l := by
      intro mine
      have inside : a ∈ xs l := (rep.owned a l).mp (by rw [Memory.owner,there]; exact mine)
      obtain ⟨pre,post,split⟩ := List.append_of_mem inside
      exact stuck _ (.remove split)
    rw [ListCall.run,listRemove,Prog.bindOf (itemRun there),Prog.bindRun,assertFails fails]
    rfl
  | remove2 a =>
    obtain ⟨i,there⟩ := Option.isSome_iff_exists.mp given
    cases mine : i.list with
    | none =>
      rw [ListCall.run,listRemove2,Prog.bindRun,listOf,Prog.bindOf (itemRun there),mine]
      rfl
    | some l =>
      have inside : a ∈ xs l := (rep.owned a l).mp (by rw [Memory.owner,there]; exact mine)
      obtain ⟨pre,post,split⟩ := List.append_of_mem inside
      exact absurd (.remove2 split) (stuck _)
  | rotate l =>
    have head := rep.heads' given
    cases split : xs l with
    | nil =>
      rw [split] at head
      rw [ListCall.run,Prog.bindRun,listRotate,Prog.bindOf (listRun head)]
      rfl
    | cons a rest => exact absurd (.rotate split) (stuck _)

def runCalls : List (ListCall L A) → OnLists L A Unit
  | [] => pure ()
  | c :: rest => do
    c.run
    runCalls rest

inductive Path : (L → List A) → List (ListCall L A) → (L → List A) → Prop where
  | nil (xs : L → List A) : Path xs [] xs
  | cons {xs ys zs : L → List A} {c : ListCall L A} {rest : List (ListCall L A)}
    (moves : Moves xs c ys) (others : Path ys rest zs) : Path xs (c :: rest) zs

theorem Path.runs {cs : List (ListCall L A)} (path : Path xs cs xs') (rep : Represents m xs)
    (given : ∀ c ∈ cs, c.Given m) : ∃ m', runCalls cs m = .ok ((),m') ∧ Represents m' xs' := by
  induction path generalizing m with
  | nil xs => exact ⟨m,rfl,rep⟩
  | @cons xs ys zs c rest moves others ih =>
    obtain ⟨m₁,first,rep₁,cells⟩ := moves.runs rep (given c List.mem_cons_self)
    obtain ⟨m₂,second,rep₂⟩ := ih rep₁ fun d inside =>
      (given d (List.mem_cons_of_mem _ inside)).kept cells
    exact ⟨m₂,by rw [runCalls,Prog.bindOf first,second],rep₂⟩

theorem pathOrStops {cs : List (ListCall L A)} (rep : Represents m xs)
    (given : ∀ c ∈ cs, c.Given m) (checked : ∀ c ∈ cs, c.Checked) :
    (∃ xs', Path xs cs xs') ∨ ∃ c ∈ cs, runCalls cs m = .error c.fault := by
  induction cs generalizing m xs with
  | nil => exact .inl ⟨xs,.nil xs⟩
  | cons c rest ih =>
    by_cases goes : ∃ ys, Moves xs c ys
    · obtain ⟨ys,moves⟩ := goes
      obtain ⟨m₁,first,rep₁,cells⟩ := moves.runs rep (given c List.mem_cons_self)
      rcases ih rep₁ (fun d inside => (given d (List.mem_cons_of_mem _ inside)).kept cells)
          (fun d inside => checked d (List.mem_cons_of_mem _ inside)) with
        ⟨zs,others⟩ | ⟨d,inside,stops⟩
      · exact .inl ⟨zs,.cons moves others⟩
      · exact .inr ⟨d,List.mem_cons_of_mem _ inside,by rw [runCalls,Prog.bindOf first,stops]⟩
    · have stops := stopped rep (given c List.mem_cons_self) (checked c List.mem_cons_self)
        (fun ys moves => goes ⟨ys,moves⟩)
      exact .inr ⟨c,List.mem_cons_self,by rw [runCalls,Prog.bindRun,stops]⟩

def Memory.fresh : Memory L A := ⟨fun _ => some ⟨none,none⟩,fun _ => some ⟨⟨none,none⟩,none⟩⟩

omit [DecidableEq L] [DecidableEq A] in
theorem freshRepresents : Represents (Memory.fresh : Memory L A) fun _ => [] where
  heads _ _ there := (Option.some.inj there).symm
  absent _ _ := rfl
  segment _ := trivial
  nodup _ := List.nodup_nil
  owned _ _ := by simp [Memory.owner,Memory.fresh]

/-- The linked lists are lists. Any calls that make sense for lists without pointers succeed and
leave the pointers as these say; and unless an insertion is among them, others are stopped by an
assertion or a null pointer. -/
theorem listCalls {cs : List (ListCall L A)} (rep : Represents m xs)
    (given : ∀ c ∈ cs, c.Given m) :
    (∀ xs', Path xs cs xs' → ∃ m', runCalls cs m = .ok ((),m') ∧ Represents m' xs') ∧
    ((∀ c ∈ cs, c.Checked) → (¬ ∃ xs', Path xs cs xs') →
      runCalls cs m = .error .assertion ∨ runCalls cs m = .error .null) := by
  refine ⟨fun xs' path => path.runs rep given,fun checked senseless => ?_⟩
  obtain ⟨c,_,stops⟩ := (pathOrStops rep given checked).resolve_left senseless
  cases c with
  | rotate l => exact .inr stops
  | append l a | insertBefore t a | insertAfter t a | remove l a | remove2 a => exact .inl stops

def fewCalls : List (ListCall Unit Nat) := [.append () 0,.append () 1,.rotate ()]

theorem updateUnit {xs : Unit → List Nat} {ys : List Nat} :
    Function.update xs () ys = fun _ => ys :=
  funext fun _ => Function.update_self ..

theorem fewPath : Path (fun _ => []) fewCalls fun _ => [1,0] := by
  have append {xs : List Nat} {a : Nat} (free : a ∉ xs) :
      Moves (fun _ : Unit => xs) (.append () a) fun _ => xs ++ [a] := by
    have moves : Moves (fun _ : Unit => xs) (.append () a) _ := .append fun _ => free
    rwa [updateUnit] at moves
  have rotate : Moves (fun _ : Unit => [0,1]) (.rotate ()) fun _ => [1,0] := by
    have moves : Moves (fun _ : Unit => [0,1]) (.rotate ()) _ := .rotate rfl
    rwa [updateUnit] at moves
  exact .cons (append List.not_mem_nil) (.cons (append (by decide)) (.cons rotate (.nil _)))

theorem listCallsFew :
    (∃ m', runCalls fewCalls Memory.fresh = .ok ((),m') ∧ Represents m' fun _ => [1,0]) ∧
      (runCalls (fewCalls ++ [.append () 1]) Memory.fresh = .error .assertion ∨
        runCalls (fewCalls ++ [.append () 1]) Memory.fresh = .error .null) := by
  have given : ∀ c ∈ fewCalls ++ [.append () 1], c.Given Memory.fresh := by
    simp [fewCalls,ListCall.Given,Memory.known,Memory.alive,Memory.fresh]
  have senseless : ¬ ∃ xs', Path (fun _ => []) (fewCalls ++ [.append () 1]) xs' := by
    intro sense
    obtain ⟨xs',path⟩ := sense
    obtain ⟨m,ran,_⟩ := path.runs freshRepresents given
    have stops : (runCalls (fewCalls ++ [.append () 1]) Memory.fresh).toOption.isNone = true := rfl
    rw [ran] at stops
    cases stops
  have checked : ∀ c ∈ fewCalls ++ [.append () 1], c.Checked := by
    simp [fewCalls,ListCall.Checked]
  have few := listCalls freshRepresents fun c inside => given c (List.mem_append_left _ inside)
  exact ⟨few.1 _ fewPath,(listCalls freshRepresents given).2 checked senseless⟩

/-- An item of another list is inserted all the same, before or after the target, and then the
memory holds no lists any more. -/
theorem insertUnchecked (rep : Represents m xs) (target : t ∈ xs l) (member : a ∈ xs k)
    (other : k ≠ l) :
    (∃ m', listInsertBefore t a m = .ok ((),m') ∧ ∀ ys, ¬ Represents m' ys) ∧
    (∃ m', listInsertAfter t a m = .ok ((),m') ∧ ∀ ys, ¬ Represents m' ys) := by
  obtain ⟨pre,post,split⟩ := List.append_of_mem target
  obtain ⟨j,there,mine,links,before,after⟩ := rep.placed split
  obtain ⟨i,here,_⟩ := rep.allocated member
  have elsewhere : ∀ x ∈ xs k, x ∉ pre ++ t :: post := fun x inside =>
    split ▸ rep.apart inside (Ne.symm other)
  have notT : ∀ x ∈ xs k, x ≠ t := fun x inside same => elsewhere x inside (by simp [same])
  have notLast : ∀ x ∈ xs k, pre.getLast? ≠ some x := fun x inside end_ =>
    elsewhere x inside (List.mem_append_left _ (List.mem_of_mem_getLast? end_))
  have notFirst : ∀ x ∈ xs k, post.head? ≠ some x := fun x inside first =>
    elsewhere x inside
      (List.mem_append_right _ (List.mem_cons_of_mem _ (List.mem_of_mem_head? first)))
  obtain ⟨⟨prev,next⟩,owner⟩ := j
  cases links
  have otherA := Ne.symm (notT a member)
  have known := rep.known target
  refine ⟨⟨_,insertBeforeRun there mine known (aliveOf here) otherA
    (fun p end_ => (before p end_).2.1),broken rep member ?_ ?_ ?_⟩,
    ⟨_,insertAfterRun there mine known (aliveOf here) otherA (fun n first => (after n first).2),
      broken rep member ?_ ?_ ?_⟩⟩
  · simp [Memory.owner,modifyItems,setNextItems,here,notT a member,notLast a member,
      Ne.symm other]
  · simp [modifyHeads,setNextHeads,Function.update_of_ne other]
  · intro x inside notA
    simp [modifyItems,setNextItems,notA,notT x inside,notLast x inside]
  · simp [Memory.owner,modifyItems,setPrevItems,here,notT a member,notFirst a member,
      Ne.symm other]
  · simp [modifyHeads,setPrevHeads,Function.update_of_ne other]
  · intro x inside notA
    simp [modifyItems,setPrevItems,notA,notT x inside,notFirst x inside]

def twoLists : List (ListCall Bool Nat) := [.append false 0,.append true 1]

theorem insertUncheckedTwo : ∃ m, runCalls twoLists Memory.fresh = .ok ((),m) ∧
    ∃ m', listInsertBefore 0 1 m = .ok ((),m') ∧ ∀ ys, ¬ Represents m' ys := by
  have path : Path (fun _ => []) twoLists _ :=
    .cons (.append (by simp)) (.cons (.append (by simp [Function.update_apply])) (.nil _))
  have given : ∀ c ∈ twoLists, c.Given Memory.fresh := by
    simp [twoLists,ListCall.Given,Memory.known,Memory.alive,Memory.fresh]
  obtain ⟨m,ran,rep⟩ := path.runs freshRepresents given
  exact ⟨m,ran,(insertUnchecked (l := false) (k := true) rep (by simp) (by simp) (by decide)).1⟩

end Calls
end IoApps.Adt
