import IoApps.AdtList
import IoApps.HashTable

/-! The hash table over the linked lists. Its items are embedded in records, which the callback of
a removal frees. -/
namespace IoApps.Adt
open Lib (Prog Segment)

-- The chains are in an array, so no two of them are at one address.
structure Table (L : Type) where
  entries : Nat
  entry : Nat → L
  apart : ∀ {c d}, c < entries → d < entries → entry c = entry d → c = d

-- `record` is what an item is embedded in, `removed` what the callback was called on.
structure Store (L A α : Type) where
  memory : Memory L A
  record : A → Option α
  removed : List α

abbrev OnTable (L A α β : Type) := Prog (Store L A α) ListFault β

section Operations
variable {κ L A α β : Type} [DecidableEq L] [DecidableEq A]

def onMemory (p : OnLists L A β) : OnTable L A α β := fun s =>
  match p s.memory with
  | .ok (b,m) => .ok (b,{ s with memory := m })
  | .error f => .error f

def record (a : A) : OnTable L A α α := fun s =>
  match s.record a with
  | some x => .ok (x,s)
  | none => .error .dangling

def writeRecord (a : A) (f : α → α) : OnTable L A α Unit := do
  let x ← record a
  Prog.modify fun s => { s with record := Function.update s.record a (some (f x)) }

def Store.put (s : Store L A α) (a : A) (i : Option (Item L A)) (x : Option α) : Store L A α where
  memory := { s.memory with items := Function.update s.memory.items a i }
  record := Function.update s.record a x
  removed := s.removed

def newRecord (a : A) (junk : Item L A) (x : α) : OnTable L A α Unit := do
  Prog.modify fun s => s.put a (some junk) (some x)
  onMemory (itemInit a)

def free (a : A) : OnTable L A α Unit := do
  let _ ← record a
  Prog.modify fun s => s.put a none none

def removeCallback (a : A) : OnTable L A α Unit := do
  let x ← record a
  Prog.modify fun s => { s with removed := s.removed ++ [x] }
  free a

variable (op : HashTableOperations κ α) (t : Table L)

def chainOf (key : κ) : OnTable L A α Nat :=
  Prog.ofOption .assertion ((op.hash t.entries key).filter (· < t.entries))

def eachChain (f : Nat → OnTable L A α Unit) : List Nat → OnTable L A α Unit
  | [] => pure ()
  | c :: rest => do
    f c
    eachChain f rest

def Store.setList (s : Store L A α) (l : L) (h : Option (ListHead A)) : Store L A α :=
  { s with memory := { s.memory with lists := Function.update s.memory.lists l h } }

def setChain (c : Nat) (h : Option (ListHead A)) : OnTable L A α Unit :=
  Prog.modify fun s => s.setList (t.entry c) h

def hashTableInit (junk : Nat → ListHead A) : OnTable L A α Unit := do
  eachChain (fun c => setChain t c (some (junk c))) (List.range t.entries)
  eachChain (fun c => onMemory (listInit (t.entry c))) (List.range t.entries)

def hashTableInsert (key : κ) (a : A) : OnTable L A α Unit := do
  let chain ← chainOf op t key
  onMemory (listAppend (t.entry chain) a)

def findFrom (key : κ) : Nat → Option A → OnTable L A α (Option A)
  | _,none => pure none
  | 0,some _ => Prog.throw .endless
  | fuel + 1,some a => do
    let x ← record a
    if op.compare key x then pure (some a)
    else do
      let i ← onMemory (item a)
      findFrom key fuel i.next

def hashTableFind (fuel : Nat) (key : κ) : OnTable L A α (Option A) := do
  let chain ← chainOf op t key
  let h ← onMemory (list (t.entry chain))
  findFrom op key fuel h.head

def hashTableRemove (fuel : Nat) (key : κ) : OnTable L A α Unit := do
  let chain ← chainOf op t key
  let cur ← hashTableFind op t fuel key
  match cur with
  | none => pure ()
  | some a => do
    onMemory (listRemove (t.entry chain) a)
    removeCallback a

def applyFrom (f : α → α) : Nat → Option A → OnTable L A α (List α)
  | _,none => pure []
  | 0,some _ => Prog.throw .endless
  | fuel + 1,some a => do
    let x ← record a
    writeRecord a f
    let i ← onMemory (item a)
    let rest ← applyFrom f fuel i.next
    pure (x :: rest)

def applyChains (fuel : Nat) (f : α → α) : List Nat → OnTable L A α (List α)
  | [] => pure []
  | c :: rest => do
    let h ← onMemory (list (t.entry c))
    let here ← applyFrom f fuel h.head
    let others ← applyChains fuel f rest
    pure (here ++ others)

def hashTableApply (fuel : Nat) (f : α → α) : OnTable L A α (List α) :=
  applyChains t fuel f (List.range t.entries)

def destroyFrom (l : L) : Nat → Option A → OnTable L A α Unit
  | _,none => pure ()
  | 0,some _ => Prog.throw .endless
  | fuel + 1,some a => do
    let i ← onMemory (item a)
    onMemory (listRemove l a)
    removeCallback a
    destroyFrom l fuel i.next

def hashTableDestroy (fuel : Nat) : OnTable L A α Unit := do
  eachChain (fun c => do
    let h ← onMemory (list (t.entry c))
    destroyFrom (t.entry c) fuel h.head) (List.range t.entries)
  eachChain (fun c => setChain t c none) (List.range t.entries)

end Operations

variable {κ L A α β : Type}

section Cells
variable {m m' : Memory L A} {xs : L → List A} {l : L} {a : A}

theorem Represents.offList (rep : Represents m xs) (off : ∀ l, a ∉ xs l)
    (lists : m'.lists = m.lists) (free : m'.owner a = none)
    (others : ∀ x, x ≠ a → m'.items x = m.items x) : Represents m' xs where
  heads l h there := rep.heads l h (lists ▸ there)
  absent l missing := rep.absent l (lists ▸ missing)
  segment l := by
    apply (rep.segment l).frame
    intro x inside
    rw [Memory.links,others x fun same => off l (same ▸ inside),Memory.links]
  nodup := rep.nodup
  owned x l := by
    by_cases same : x = a
    · subst same
      rw [free]
      simpa using off l
    · rw [Memory.owner,others x same]
      exact rep.owned x l

end Cells
section Runs
variable {op : HashTableOperations κ α} {t : Table L} {s s' : Store L A α} {h h' : HashTable α}
  {xs : L → List A} {a : A} {x : α} {c d fuel : Nat} {key : κ} {junk : Item L A}

theorem onMemoryRun {p : OnLists L A β} {b : β} {m : Memory L A}
    (ran : p s.memory = .ok (b,m)) : onMemory p s = .ok (b,{ s with memory := m }) := by
  rw [onMemory,ran]

theorem recordRun (there : s.record a = some x) : record a s = .ok (x,s) := by
  rw [record,there]

/-- The pointers and the records hold the table. -/
structure Holds (t : Table L) (s : Store L A α) (h : HashTable α) (xs : L → List A) : Prop where
  represents : Represents s.memory xs
  entries : h.entries = t.entries
  known : ∀ c < t.entries, s.memory.known (t.entry c)
  records : ∀ c < t.entries,
    List.Forall₂ (fun a x => s.record a = some x) (xs (t.entry c)) (h.entry c)
  placed : ∀ a, s.memory.alive a ↔ ∃ c < t.entries, a ∈ xs (t.entry c)
  together : ∀ a, (s.record a).isSome = s.memory.alive a

theorem Table.elsewhere (inside : c < t.entries) (inside' : d < t.entries) (other : d ≠ c) :
    t.entry d ≠ t.entry c := fun same => other (t.apart inside' inside same)

theorem recordsKept {as : List A} {xs : List α} {f g : A → Option α}
    (records : List.Forall₂ (fun a x => f a = some x) as xs) (same : ∀ a ∈ as, g a = f a) :
    List.Forall₂ (fun a x => g a = some x) as xs := by
  induction records with
  | nil => exact .nil
  | @cons a x as xs here others ih =>
    have kept := same a List.mem_cons_self
    exact .cons (kept.trans here) (ih fun b inside => same b (List.mem_cons_of_mem _ inside))

section Items
variable [DecidableEq A]

@[simp] theorem putMemoryLists (i : Option (Item L A)) (x : Option α) :
    (s.put a i x).memory.lists = s.memory.lists := rfl

@[simp] theorem putRemoved (i : Option (Item L A)) (x : Option α) :
    (s.put a i x).removed = s.removed := rfl

theorem putItems (i : Option (Item L A)) (x : Option α) {b : A} (other : b ≠ a) :
    (s.put a i x).memory.items b = s.memory.items b := Function.update_of_ne other ..

theorem putRecord (i : Option (Item L A)) (x : Option α) {b : A} (other : b ≠ a) :
    (s.put a i x).record b = s.record b := Function.update_of_ne other ..

@[simp] theorem putItem (i : Option (Item L A)) (x : Option α) :
    (s.put a i x).memory.items a = i := Function.update_self ..

@[simp] theorem putRecordSelf (i : Option (Item L A)) (x : Option α) :
    (s.put a i x).record a = x := Function.update_self ..

theorem putAlive (i : Option (Item L A)) (x : Option α) {b : A} (other : b ≠ a) :
    (s.put a i x).memory.alive b = s.memory.alive b := by
  rw [Memory.alive,putItems i x other,Memory.alive]

theorem newRecordRun (a : A) (junk : Item L A) (x : α) :
    newRecord a junk x s = .ok ((),s.put a (some { junk with list := none }) (some x)) := by
  simp [newRecord,Prog.bindRun,onMemory,itemInit,write,item,Memory.modify,Store.put]

theorem removeCallbackRun (there : s.record a = some x) :
    removeCallback a s = .ok ((),{ s with removed := s.removed ++ [x] }.put a none none) := by
  simp [removeCallback,free,Prog.bindRun,record,there]

end Items

variable [DecidableEq L] [DecidableEq A]

theorem Holds.takeOut (holds : Holds t s h xs) (inside : c < t.entries) {as bs : List A}
    {us vs : List α} (split : xs (t.entry c) = as ++ a :: bs)
    (left : List.Forall₂ (fun a x => s.record a = some x) as us) (here : s.record a = some x)
    (right : List.Forall₂ (fun a x => s.record a = some x) bs vs) :
    ∃ s₁ s', onMemory (listRemove (t.entry c) a) s = .ok ((),s₁) ∧
      removeCallback a s₁ = .ok ((),s') ∧ s'.removed = s.removed ++ [x] ∧
      Holds t s' { h with entry := Function.update h.entry c (us ++ vs) }
        (Function.update xs (t.entry c) (as ++ bs)) := by
  obtain ⟨m,ran,rep,cells⟩ := holds.represents.removeFrom split
  have member : a ∈ xs (t.entry c) := by
    rw [split]
    simp
  have whole := holds.represents.nodup (t.entry c)
  rw [split] at whole
  have fresh : a ∉ as ++ bs := (List.nodup_cons.mp (List.perm_middle.nodup_iff.mp whole)).1
  have off : ∀ l, a ∉ Function.update xs (t.entry c) (as ++ bs) l := by
    intro l
    by_cases same : l = t.entry c
    · rw [same,Function.update_self]
      exact fresh
    · rw [Function.update_of_ne same]
      exact holds.represents.apart member same
  refine ⟨_,_,onMemoryRun ran,removeCallbackRun here,rfl,?_⟩
  have alive : ∀ b, b ≠ a → ({ s with memory := m, removed := s.removed ++ [x] }.put a none
      none).memory.alive b = s.memory.alive b := fun b other =>
    (putAlive none none other).trans (cells.alive b)
  constructor
  · refine rep.offList off rfl ?_ ?_
    · simp [Memory.owner]
    · intro y other
      exact putItems none none other
  · exact holds.entries
  · intro d inside'
    exact (cells.known _).trans (holds.known d inside')
  · intro d inside'
    by_cases same : d = c
    · subst same
      rw [Function.update_self]
      simp only [Function.update_self]
      apply recordsKept (List.rel_append left right)
      intro b member'
      exact putRecord none none fun same => fresh (same ▸ member')
    · have other := Table.elsewhere inside inside' same
      rw [Function.update_of_ne other]
      simp only [Function.update_of_ne same]
      apply recordsKept (holds.records d inside')
      intro b member'
      exact putRecord none none fun same => holds.represents.apart member other (same ▸ member')
  · intro b
    by_cases same : b = a
    · subst same
      simpa [Memory.alive] using fun d _ => off (t.entry d)
    · rw [alive b same,holds.placed b]
      refine exists_congr fun d => and_congr_right fun inside' => ?_
      by_cases same' : d = c
      · rw [same',Function.update_self,split]
        simp [same]
      · rw [Function.update_of_ne (Table.elsewhere inside inside' same')]
  · intro b
    by_cases same : b = a
    · subst same
      simp [Memory.alive]
    · rw [putRecord none none same,alive b same]
      exact holds.together b

theorem Holds.putIn (holds : Holds t s h xs) (inside : c < t.entries) (unused : ¬ s.memory.alive a)
    (junk : Item L A) (x : α) : ∃ s₁ s', newRecord a junk x s = .ok ((),s₁) ∧
      onMemory (listAppend (t.entry c) a) s₁ = .ok ((),s') ∧ s'.removed = s.removed ∧
      Holds t s' (h.append c x) (Function.update xs (t.entry c) (xs (t.entry c) ++ [a])) := by
  have off : ∀ l, a ∉ xs l := fun l inside => unused (holds.represents.alive inside)
  have rep : Represents (s.put a (some { junk with list := none }) (some x)).memory xs := by
    refine holds.represents.offList off rfl ?_ ?_
    · simp [Memory.owner]
    · intro y other
      exact putItems _ _ other
  obtain ⟨m,ran,rep',cells⟩ := rep.appendTo (holds.known c inside) (by simp [Memory.alive]) off
  refine ⟨_,_,newRecordRun a junk x,onMemoryRun ran,rfl,?_⟩
  have aliveOther : ∀ b, b ≠ a → m.alive b = s.memory.alive b := fun b other =>
    (cells.alive b).trans (putAlive _ _ other)
  have aliveHere : m.alive a = true := by
    rw [cells.alive a,Memory.alive]
    simp
  constructor
  · exact rep'
  · exact holds.entries
  · intro d inside'
    exact (cells.known _).trans (holds.known d inside')
  · intro d inside'
    have kept : List.Forall₂ (fun b y => (s.put a (some { junk with list := none })
        (some x)).record b = some y) (xs (t.entry d)) (h.entry d) :=
      recordsKept (holds.records d inside') fun b member =>
        putRecord _ _ fun same => off _ (same ▸ member)
    rw [HashTable.append]
    by_cases same : d = c
    · subst same
      rw [Function.update_self]
      simp only [Function.update_self]
      exact List.rel_append kept (.cons (putRecordSelf _ _) .nil)
    · rw [Function.update_of_ne (Table.elsewhere inside inside' same)]
      simp only [Function.update_of_ne same]
      exact kept
  · intro b
    by_cases same : b = a
    · subst same
      simp only [aliveHere,true_iff]
      exact ⟨c,inside,by simp⟩
    · rw [aliveOther b same,holds.placed b]
      refine exists_congr fun d => and_congr_right fun inside' => ?_
      by_cases same' : d = c
      · rw [same',Function.update_self]
        simp [same]
      · rw [Function.update_of_ne (Table.elsewhere inside inside' same')]
  · intro b
    by_cases same : b = a
    · subst same
      simp [aliveHere]
    · rw [aliveOther b same,← holds.together b]
      exact congrArg Option.isSome
        (putRecord (s := s) (some { junk with list := none }) (some x) same)

structure Picked (s : Store L A α) (as : List A) (ys : List α) (p : α → Bool) (a : A) (x : α)
    (pre post : List A) (us vs : List α) : Prop where
  split : as = pre ++ a :: post
  split' : ys = us ++ x :: vs
  left : List.Forall₂ (fun a x => s.record a = some x) pre us
  here : s.record a = some x
  right : List.Forall₂ (fun a x => s.record a = some x) post vs
  skipped : ∀ u ∈ us, ¬ p u
  accepted : p x

omit [DecidableEq L] [DecidableEq A] in
theorem Represents.nextOf (rep : Represents s.memory xs) {l : L} {pre post : List A}
    (split : xs l = pre ++ a :: post) :
    ∃ i, onMemory (item a) s = .ok (i,s) ∧ i.next = post.head? := by
  obtain ⟨i,placed⟩ := rep.placed split
  exact ⟨i,onMemoryRun (itemRun placed.there),congrArg Lib.Links.next placed.links⟩

omit [DecidableEq L] [DecidableEq A] in
theorem findFromRun (rep : Represents s.memory xs) {l : L} {pre as : List A} {us ys : List α}
    (split : xs l = pre ++ as) (left : List.Forall₂ (fun a x => s.record a = some x) pre us)
    (right : List.Forall₂ (fun a x => s.record a = some x) as ys)
    (skipped : ∀ u ∈ us, ¬ op.compare key u) (enough : as.length ≤ fuel) :
    (findFrom op key fuel as.head? s = .ok (none,s) ∧ ∀ y ∈ ys, ¬ op.compare key y) ∨
    ∃ a x pre' post us' vs, findFrom op key fuel as.head? s = .ok (some a,s) ∧
      Picked s (pre ++ as) (us ++ ys) (op.compare key) a x pre' post us' vs := by
  induction right generalizing pre us fuel with
  | nil =>
    refine .inl ⟨?_,by simp⟩
    cases fuel <;> rfl
  | @cons a x as ys here others ih =>
    obtain ⟨fuel,rfl⟩ : ∃ k, fuel = k + 1 := Nat.exists_eq_add_one.mpr (by simp at enough; omega)
    obtain ⟨i,read,next⟩ := rep.nextOf split
    rw [List.head?_cons,findFrom,Prog.bindOf (recordRun here)]
    by_cases accepted : op.compare key x
    · rw [if_pos accepted]
      exact .inr ⟨a,x,pre,as,us,ys,rfl,rfl,rfl,left,here,others,skipped,accepted⟩
    · rw [if_neg accepted,Prog.bindOf read,next]
      have split' : xs l = (pre ++ [a]) ++ as := by rw [split,List.append_assoc]; rfl
      have skipped' : ∀ u ∈ us ++ [x], ¬ op.compare key u := by
        intro u inside
        obtain inside | inside := List.mem_append.mp inside
        · exact skipped u inside
        · rwa [List.mem_singleton.mp inside]
      obtain ⟨ran,absent⟩ | ⟨b,y,pre',post,us',vs,ran,picked⟩ := ih split'
        (List.rel_append left (.cons here .nil)) skipped' (by simpa using enough)
      · refine .inl ⟨ran,fun y inside => ?_⟩
        obtain rfl | inside := List.mem_cons.mp inside
        · exact accepted
        · exact absent y inside
      · rw [List.append_assoc,List.append_assoc] at picked
        exact .inr ⟨b,y,pre',post,us',vs,ran,picked⟩

omit [DecidableEq L] [DecidableEq A] in
theorem chainOfRun (entries : h.entries = t.entries) (hashed : h.chain op key = some c) :
    (chainOf op t key : OnTable L A α Nat) s = .ok (c,s) := by
  rw [HashTable.chain,entries] at hashed
  rw [chainOf,hashed]
  rfl

omit [DecidableEq L] [DecidableEq A] in
theorem chainOfStops (entries : h.entries = t.entries) (refused : h.chain op key = none) :
    (chainOf op t key : OnTable L A α Nat) s = .error .assertion := by
  rw [HashTable.chain,entries] at refused
  rw [chainOf,refused]
  rfl

omit [DecidableEq L] [DecidableEq A] in
theorem Holds.finds (holds : Holds t s h xs) (hashed : h.chain op key = some c)
    (enough : (h.entry c).length ≤ fuel) :
    (hashTableFind op t fuel key s = .ok (none,s) ∧ ∀ y ∈ h.entry c, ¬ op.compare key y) ∨
    ∃ a x pre post us vs, hashTableFind op t fuel key s = .ok (some a,s) ∧
      Picked s (xs (t.entry c)) (h.entry c) (op.compare key) a x pre post us vs := by
  have inside : c < t.entries := holds.entries ▸ HashTable.chainInside hashed
  have records := holds.records c inside
  have head := holds.represents.heads' (holds.known c inside)
  have whole : xs (t.entry c) = [] ++ xs (t.entry c) := rfl
  rw [hashTableFind,Prog.bindOf (chainOfRun holds.entries hashed),
    Prog.bindOf (onMemoryRun (listRun head))]
  exact findFromRun holds.represents whole .nil records (by simp) (records.length_eq ▸ enough)

end Runs
section Sessions
variable [DecidableEq L] [DecidableEq A]

-- A call of the table; the cell of a new record is the allocator's choice.
inductive TableCall (κ L A α : Type) where
  | insert (key : κ) (a : A) (junk : Item L A) (x : α)
  | find (key : κ)
  | remove (key : κ)
  | modify (key : κ) (f : α → α)
  | apply (f : α → α)

section Calls
variable (op : HashTableOperations κ α) (t : Table L) (fuel : Nat)

def TableCall.run : TableCall κ L A α → OnTable L A α (List α)
  | insert key a junk x => do
    newRecord a junk x
    hashTableInsert op t key a
    pure []
  | find key => do
    let cur ← hashTableFind op t fuel key
    match cur with
    | none => pure []
    | some a => do
      let x ← record a
      pure [x]
  | remove key => do
    hashTableRemove op t fuel key
    pure []
  | modify key f => do
    let cur ← hashTableFind op t fuel key
    match cur with
    | none => pure []
    | some a => do
      writeRecord a f
      pure []
  | apply f => hashTableApply t fuel f

def Unused (s : Store L A α) : TableCall κ L A α → Prop
  | .insert _ a _ _ => ¬ s.memory.alive a
  | .find _ | .remove _ | .modify _ _ | .apply _ => True

-- The same call on the table without pointers, with what it gives out and what it removes.
def TableCall.answer (h : HashTable α) :
    TableCall κ L A α → Option (HashTable α × List α × List α)
  | insert key _ _ x => (h.insert op key x).map fun h' => (h',[],[])
  | find key => (h.find op key).map fun found => (h,found.toList,[])
  | remove key => (h.find op key).bind fun found =>
    (h.remove op key).map fun h' => (h',[],found.toList)
  | modify key f => (h.modify op key f).map fun h' => (h',[],[])
  | apply f => some ({ h with entry := fun c => (h.entry c).map f },h.items,[])

end Calls

variable {op : HashTableOperations κ α} {t : Table L} {s s' : Store L A α} {h h' : HashTable α}
  {xs : L → List A} {c fuel : Nat} {key : κ}

def Answers (op : HashTableOperations κ α) (t : Table L) (fuel : Nat) (s : Store L A α)
    (call : TableCall κ L A α) (h' : HashTable α) (out gone : List α) : Prop :=
  ∃ s' xs', call.run op t fuel s = .ok (out,s') ∧ s'.removed = s.removed ++ gone ∧
    Holds t s' h' xs'

theorem Holds.inserts (holds : Holds t s h xs) {a : A} (unused : ¬ s.memory.alive a)
    (junk : Item L A) (x : α) (inserted : h.insert op key x = some h') :
    Answers op t fuel s (.insert key a junk x) h' [] [] := by
  obtain ⟨c,hashed,rfl⟩ := Option.map_eq_some_iff.mp inserted
  have inside : c < t.entries := holds.entries ▸ HashTable.chainInside hashed
  obtain ⟨s₁,s',made,put,removed,after⟩ := holds.putIn inside unused junk x
  have whole : hashTableInsert op t key a s₁ = .ok ((),s') := by
    rw [hashTableInsert,Prog.bindOf (chainOfRun holds.entries hashed),put]
  refine ⟨s',_,?_,by rw [removed,List.append_nil],after⟩
  rw [TableCall.run,Prog.bindOf made,Prog.bindOf whole]
  rfl

omit [DecidableEq L] [DecidableEq A] in
theorem updateFirstAbsent {p : α → Bool} {f : α → α} {ys : List α} (absent : ∀ y ∈ ys, ¬ p y) :
    HashTable.updateFirst p f ys = ys := by
  induction ys with
  | nil => rfl
  | cons y rest ih =>
    rw [HashTable.updateFirst,if_neg (absent y List.mem_cons_self),
      ih fun z inside => absent z (List.mem_cons_of_mem _ inside)]

omit [DecidableEq L] [DecidableEq A] in
theorem Picked.found {as : List A} {p : α → Bool} {a : A} {x : α} {pre post : List A}
    {us vs : List α} (picked : Picked s as (h.entry c) p a x pre post us vs) :
    (h.entry c).find? p = some x ∧ (h.entry c).eraseP p = us ++ vs ∧
      ∀ f, HashTable.updateFirst p f (h.entry c) = us ++ f x :: vs := by
  have skipped : ∀ u ∈ us, p u = false := fun u inside => Bool.eq_false_iff.mpr
    (picked.skipped u inside)
  rw [picked.split']
  refine ⟨?_,?_,?_⟩
  · rw [List.find?_append,List.find?_eq_none.mpr picked.skipped,Option.none_or,
      List.find?_cons_of_pos picked.accepted]
  · rw [List.eraseP_append_right _ picked.skipped,List.eraseP_cons_of_pos picked.accepted]
  · intro f
    have accepted := picked.accepted
    clear picked
    induction us with
    | nil => rw [List.nil_append,HashTable.updateFirst,if_pos accepted,List.nil_append]
    | cons u us ih =>
      have here : ¬ p u = true := by simp [skipped u List.mem_cons_self]
      rw [List.cons_append,HashTable.updateFirst,if_neg here,
        ih fun v inside => skipped v (List.mem_cons_of_mem _ inside)]
      rfl

theorem Holds.answersFind (holds : Holds t s h xs) (enough : ∀ c, (h.entry c).length ≤ fuel)
    {found : Option α} (answer : h.find op key = some found) :
    Answers op t fuel s (.find key) h found.toList [] := by
  obtain ⟨c,hashed,rfl⟩ := Option.map_eq_some_iff.mp answer
  refine ⟨s,xs,?_,(List.append_nil _).symm,holds⟩
  obtain ⟨ran,absent⟩ | ⟨a,x,pre,post,us,vs,ran,picked⟩ := holds.finds hashed (enough c)
  · rw [TableCall.run,Prog.bindOf ran,List.find?_eq_none.mpr absent]
    rfl
  · rw [TableCall.run,Prog.bindOf ran,picked.found.1]
    exact Prog.bindOf (recordRun picked.here)

theorem Holds.removes (holds : Holds t s h xs) (enough : ∀ c, (h.entry c).length ≤ fuel)
    {found : Option α} (answer : h.find op key = some found)
    (removed : h.remove op key = some h') :
    Answers op t fuel s (.remove key) h' [] found.toList := by
  obtain ⟨c,hashed,rfl⟩ := Option.map_eq_some_iff.mp answer
  rw [HashTable.remove,hashed,Option.map_some,Option.some.injEq] at removed
  subst removed
  have inside : c < t.entries := holds.entries ▸ HashTable.chainInside hashed
  have chain := chainOfRun (A := A) (s := s) holds.entries hashed
  obtain ⟨ran,absent⟩ | ⟨a,x,pre,post,us,vs,ran,picked⟩ := holds.finds hashed (enough c)
  · have same : (h.entry c).eraseP (op.compare key) = h.entry c := List.eraseP_of_forall_not absent
    refine ⟨s,xs,?_,?_,?_⟩
    · rw [TableCall.run,Prog.bindOf (a := ()) (t := s)]
      · rfl
      · rw [hashTableRemove,Prog.bindOf chain,Prog.bindOf ran]
        rfl
    · rw [List.find?_eq_none.mpr absent]
      exact (List.append_nil _).symm
    · rw [same,Function.update_eq_self]
      exact holds
  · obtain ⟨first,erased,_⟩ := picked.found
    obtain ⟨s₁,s',unlinked,freed,gone,after⟩ := holds.takeOut inside picked.split picked.left
      picked.here picked.right
    refine ⟨s',Function.update xs (t.entry c) (pre ++ post),?_,?_,?_⟩
    · rw [TableCall.run,Prog.bindOf (a := ()) (t := s')]
      · rfl
      · rw [hashTableRemove,Prog.bindOf chain,Prog.bindOf ran]
        exact (Prog.bindOf unlinked).trans freed
    · rw [first,gone]
      rfl
    · rw [erased]
      exact after

omit [DecidableEq L] in
theorem Holds.writes (holds : Holds t s h xs) (inside : c < t.entries) {p : α → Bool} {a : A}
    {x : α} {pre post : List A} {us vs : List α}
    (picked : Picked s (xs (t.entry c)) (h.entry c) p a x pre post us vs) (f : α → α) :
    Holds t { s with record := Function.update s.record a (some (f x)) }
      { h with entry := Function.update h.entry c (us ++ f x :: vs) } xs := by
  have rep := holds.represents
  have member : a ∈ xs (t.entry c) := by
    rw [picked.split]
    simp
  have whole := rep.nodup (t.entry c)
  rw [picked.split] at whole
  obtain ⟨fresh,_⟩ := List.nodup_cons.mp (List.perm_middle.nodup_iff.mp whole)
  have others : ∀ b, b ≠ a → Function.update s.record a (some (f x)) b = s.record b :=
    fun b other => Function.update_of_ne other ..
  constructor
  · exact rep
  · exact holds.entries
  · exact holds.known
  · intro d inside'
    by_cases same : d = c
    · subst same
      simp only [Function.update_self,picked.split]
      have left := recordsKept picked.left fun b inside =>
        others b fun same => fresh (same ▸ List.mem_append_left _ inside)
      have right := recordsKept picked.right fun b inside =>
        others b fun same => fresh (same ▸ List.mem_append_right _ inside)
      exact List.rel_append left (.cons (Function.update_self ..) right)
    · simp only [Function.update_of_ne same]
      apply recordsKept (holds.records d inside')
      intro b member'
      exact others b fun same' => rep.apart member (Table.elsewhere inside inside' same)
        (same' ▸ member')
  · exact holds.placed
  · intro b
    by_cases same : b = a
    · subst same
      simp [rep.alive member]
    · simp only [Function.update_of_ne same]
      exact holds.together b

theorem Holds.modifies (holds : Holds t s h xs) (enough : ∀ c, (h.entry c).length ≤ fuel)
    {f : α → α} (modified : h.modify op key f = some h') :
    Answers op t fuel s (.modify key f) h' [] [] := by
  obtain ⟨c,hashed,same⟩ := Option.map_eq_some_iff.mp modified
  simp only at same
  have inside : c < t.entries := holds.entries ▸ HashTable.chainInside hashed
  obtain ⟨ran,absent⟩ | ⟨a,x,pre,post,us,vs,ran,picked⟩ := holds.finds hashed (enough c)
  · have kept : HashTable.updateFirst (op.compare key) f (h.entry c) = h.entry c :=
      updateFirstAbsent absent
    refine ⟨s,xs,?_,(List.append_nil _).symm,?_⟩
    · rw [TableCall.run,Prog.bindOf ran]
      rfl
    · rw [← same,kept,Function.update_eq_self]
      exact holds
  · refine ⟨{ s with record := Function.update s.record a (some (f x)) },xs,?_,
      (List.append_nil _).symm,?_⟩
    · rw [TableCall.run,Prog.bindOf ran]
      have written : writeRecord a f s =
          .ok ((),{ s with record := Function.update s.record a (some (f x)) }) := by
        rw [writeRecord,Prog.bindOf (recordRun picked.here)]
        rfl
      exact Prog.bindOf written
    · rw [← same,(picked.found).2.2 f]
      exact holds.writes inside picked f

section Applied
omit [DecidableEq L] [DecidableEq A]

structure Applied (f : α → α) (s s' : Store L A α) (visited : A → Prop) : Prop where
  memory : s'.memory = s.memory
  removed : s'.removed = s.removed
  mapped : ∀ a, visited a → s'.record a = (s.record a).map f
  others : ∀ a, ¬ visited a → s'.record a = s.record a

theorem recordsMapped {as : List A} {xs : List α} {r r' : A → Option α} {f : α → α}
    (records : List.Forall₂ (fun a x => r a = some x) as xs)
    (mapped : ∀ a ∈ as, r' a = (r a).map f) :
    List.Forall₂ (fun a x => r' a = some x) as (xs.map f) := by
  induction records with
  | nil => exact .nil
  | @cons a x as xs here others ih =>
    have first := mapped a List.mem_cons_self
    rw [here] at first
    exact .cons first (ih fun b inside => mapped b (List.mem_cons_of_mem _ inside))

end Applied

omit [DecidableEq L] in
theorem applyFromRun (f : α → α) (rep : Represents s.memory xs) {l : L} {pre as : List A}
    {ys : List α} (split : xs l = pre ++ as)
    (right : List.Forall₂ (fun a x => s.record a = some x) as ys) (enough : as.length ≤ fuel) :
    ∃ s', applyFrom f fuel as.head? s = .ok (ys,s') ∧ Applied f s s' (· ∈ as) := by
  induction as generalizing pre s ys fuel with
  | nil =>
    cases right
    refine ⟨s,?_,rfl,rfl,by simp,fun _ _ => rfl⟩
    cases fuel <;> rfl
  | cons a as ih =>
    cases right with
    | @cons _ x _ ys here others =>
    obtain ⟨fuel,rfl⟩ : ∃ k, fuel = k + 1 := Nat.exists_eq_add_one.mpr (by simp at enough; omega)
    have whole := rep.nodup l
    rw [split] at whole
    have fresh : a ∉ as := (List.nodup_cons.mp (List.nodup_append.mp whole).2.1).1
    have written : writeRecord a f s =
        .ok ((),{ s with record := Function.update s.record a (some (f x)) }) := by
      rw [writeRecord,Prog.bindOf (recordRun here)]
      rfl
    obtain ⟨i,read,next⟩ := Represents.nextOf
      (s := { s with record := Function.update s.record a (some (f x)) }) rep split
    have split' : xs l = (pre ++ [a]) ++ as := by rw [split,List.append_assoc]; rfl
    have other : ∀ b, b ≠ a → Function.update s.record a (some (f x)) b = s.record b :=
      fun b other => Function.update_of_ne other ..
    have kept := recordsKept others fun b inside => other b fun same => fresh (same ▸ inside)
    obtain ⟨s',ran,applied⟩ :=
      ih (s := { s with record := Function.update s.record a (some (f x)) })
      rep split' kept (by simpa using enough)
    refine ⟨s',?_,applied.memory,applied.removed,?_,?_⟩
    · rw [List.head?_cons,applyFrom,Prog.bindOf (recordRun here),Prog.bindOf written,
        Prog.bindOf read,next,Prog.bindOf ran]
      rfl
    · intro b inside
      by_cases same : b = a
      · rw [same,applied.others a fresh,here]
        exact Function.update_self ..
      · rw [applied.mapped b ((List.mem_cons.mp inside).resolve_left same)]
        exact congrArg (Option.map f) (Function.update_of_ne same ..)
    · intro b outside
      rw [List.mem_cons,not_or] at outside
      rw [applied.others b outside.2]
      exact Function.update_of_ne outside.1 ..

omit [DecidableEq L] in
theorem applyChainsRun (f : α → α) (rep : Represents s.memory xs)
    (known : ∀ c < t.entries, s.memory.known (t.entry c)) {cs : List Nat} (nodup : cs.Nodup)
    (inside : ∀ c ∈ cs, c < t.entries)
    (records : ∀ c ∈ cs, List.Forall₂ (fun a x => s.record a = some x) (xs (t.entry c)) (h.entry c))
    (enough : ∀ c, (h.entry c).length ≤ fuel) :
    ∃ s', applyChains t fuel f cs s = .ok (cs.flatMap h.entry,s') ∧
      Applied f s s' fun a => ∃ c ∈ cs, a ∈ xs (t.entry c) := by
  induction cs generalizing s with
  | nil => exact ⟨s,rfl,rfl,rfl,by simp,fun _ _ => rfl⟩
  | cons c rest ih =>
    obtain ⟨fresh,nodup⟩ := List.nodup_cons.mp nodup
    have here := inside c List.mem_cons_self
    have records' := records c List.mem_cons_self
    have head := rep.heads' (known c here)
    have whole : xs (t.entry c) = [] ++ xs (t.entry c) := rfl
    obtain ⟨s₁,ran,first⟩ := applyFromRun f rep whole records' (records'.length_eq ▸ enough c)
    have apart : ∀ d ∈ rest, ∀ a ∈ xs (t.entry d), a ∉ xs (t.entry c) := by
      intro d member a inside'
      have other : c ≠ d := fun same => fresh (same ▸ member)
      exact rep.apart inside'
          (Table.elsewhere (inside d (List.mem_cons_of_mem _ member)) here other)
    obtain ⟨s₂,ran',second⟩ := ih (first.memory ▸ rep) (first.memory ▸ known) nodup
      (fun d member => inside d (List.mem_cons_of_mem _ member))
      (fun d member => recordsKept (records d (List.mem_cons_of_mem _ member))
        fun a inside' => first.others a (apart d member a inside'))
    refine ⟨s₂,?_,second.memory.trans first.memory,second.removed.trans first.removed,?_,?_⟩
    · rw [applyChains,Prog.bindOf (onMemoryRun (listRun head)),Prog.bindOf ran,Prog.bindOf ran']
      rfl
    · intro a ⟨d,member,inside'⟩
      cases member with
      | head =>
        rw [second.others a fun ⟨d,member,there⟩ => apart d member a there inside']
        exact first.mapped a inside'
      | tail _ member =>
        rw [second.mapped a ⟨d,member,inside'⟩,first.others a (apart d member a inside')]
    · intro a outside
      rw [second.others a fun ⟨d,member,there⟩ => outside ⟨d,List.mem_cons_of_mem _ member,there⟩]
      exact first.others a fun there => outside ⟨c,List.mem_cons_self,there⟩

omit [DecidableEq L] in
theorem Holds.applies (holds : Holds t s h xs) (f : α → α)
    (enough : ∀ c, (h.entry c).length ≤ fuel) :
    ∃ s', hashTableApply t fuel f s = .ok (h.items,s') ∧ s'.removed = s.removed ∧
      Holds t s' { h with entry := fun c => (h.entry c).map f } xs := by
  obtain ⟨s',ran,applied⟩ := applyChainsRun f holds.represents holds.known List.nodup_range
    (fun c inside => List.mem_range.mp inside)
    (fun c inside => holds.records c (List.mem_range.mp inside)) enough
  refine ⟨s',?_,applied.removed,?_⟩
  · rw [hashTableApply,ran,HashTable.items,holds.entries]
  constructor
  · exact applied.memory ▸ holds.represents
  · exact holds.entries
  · exact applied.memory ▸ holds.known
  · intro c inside
    exact recordsMapped (holds.records c inside) fun a member =>
      applied.mapped a ⟨c,List.mem_range.mpr inside,member⟩
  · exact applied.memory ▸ holds.placed
  · intro a
    rw [applied.memory,← holds.together a]
    by_cases visited : ∃ c ∈ List.range t.entries, a ∈ xs (t.entry c)
    · rw [applied.mapped a visited,Option.isSome_map]
    · rw [applied.others a visited]

/-- The step lemma: a call does what it does on the table without pointers. -/
theorem Holds.answers (holds : Holds t s h xs) {call : TableCall κ L A α} (unused : Unused s call)
    (enough : ∀ c, (h.entry c).length ≤ fuel) {out gone : List α}
    (answer : call.answer op h = some (h',out,gone)) :
    Answers op t fuel s call h' out gone := by
  cases call with
  | insert key a junk x =>
    obtain ⟨h₁,inserted,same⟩ := Option.map_eq_some_iff.mp answer
    cases same
    exact holds.inserts unused junk x inserted
  | find key =>
    obtain ⟨found,asked,same⟩ := Option.map_eq_some_iff.mp answer
    cases same
    exact holds.answersFind enough asked
  | remove key =>
    obtain ⟨found,asked,rest⟩ := Option.bind_eq_some_iff.mp answer
    obtain ⟨h₁,removed,same⟩ := Option.map_eq_some_iff.mp rest
    cases same
    exact holds.removes enough asked removed
  | modify key f =>
    obtain ⟨h₁,modified,same⟩ := Option.map_eq_some_iff.mp answer
    cases same
    exact holds.modifies enough modified
  | apply f =>
    cases answer
    obtain ⟨s',ran,removed,after⟩ := holds.applies f enough
    exact ⟨s',xs,ran,by rw [removed,List.append_nil],after⟩

theorem Holds.refused (holds : Holds t s h xs) {call : TableCall κ L A α} (unused : Unused s call)
    (answer : call.answer op h = none) : call.run op t fuel s = .error .assertion := by
  cases call with
  | insert key a junk x =>
    have none := Option.map_eq_none_iff.mp (Option.map_eq_none_iff.mp answer)
    rw [TableCall.run,Prog.bindOf (newRecordRun a junk x),Prog.bindRun,hashTableInsert,
      Prog.bindRun,chainOfStops holds.entries none]
  | find key =>
    have none := Option.map_eq_none_iff.mp (Option.map_eq_none_iff.mp answer)
    rw [TableCall.run,Prog.bindRun,hashTableFind,Prog.bindRun,chainOfStops holds.entries none]
  | remove key =>
    have none : h.chain op key = .none := by
      cases hashed : h.chain op key with
      | none => rfl
      | some c =>
        rw [TableCall.answer,HashTable.find,HashTable.remove,hashed] at answer
        cases answer
    rw [TableCall.run,Prog.bindRun,hashTableRemove,Prog.bindRun,chainOfStops holds.entries none]
  | modify key f =>
    have none := Option.map_eq_none_iff.mp (Option.map_eq_none_iff.mp answer)
    rw [TableCall.run,Prog.bindRun,hashTableFind,Prog.bindRun,chainOfStops holds.entries none]
  | apply f => cases answer

omit [DecidableEq L] [DecidableEq A] in
theorem answerLonger {call : TableCall κ L A α} {out gone : List α} {n : Nat}
    (answer : call.answer op h = some (h',out,gone)) (short : ∀ c, (h.entry c).length ≤ n)
    (c : Nat) : (h'.entry c).length ≤ n + 1 := by
  have here := short c
  have changed : ∀ (d : Nat) (ys : List α), ys.length ≤ (h.entry d).length + 1 →
      (Function.update h.entry d ys c).length ≤ n + 1 := by
    intro d ys longer
    by_cases same : c = d
    · subst same
      rw [Function.update_self]
      omega
    · rw [Function.update_of_ne same]
      omega
  cases call with
  | insert key a junk x =>
    obtain ⟨h₁,inserted,same⟩ := Option.map_eq_some_iff.mp answer
    obtain ⟨d,_,made⟩ := Option.map_eq_some_iff.mp inserted
    cases same
    rw [← made]
    exact changed d _ (by simp)
  | find key =>
    obtain ⟨found,_,same⟩ := Option.map_eq_some_iff.mp answer
    cases same
    omega
  | remove key =>
    obtain ⟨found,_,rest⟩ := Option.bind_eq_some_iff.mp answer
    obtain ⟨h₁,removed,same⟩ := Option.map_eq_some_iff.mp rest
    obtain ⟨d,_,made⟩ := Option.map_eq_some_iff.mp removed
    cases same
    rw [← made]
    exact changed d _ (List.eraseP_sublist.length_le.trans (Nat.le_succ _))
  | modify key f =>
    obtain ⟨h₁,modified,same⟩ := Option.map_eq_some_iff.mp answer
    obtain ⟨d,_,made⟩ := Option.map_eq_some_iff.mp modified
    cases same
    rw [← made]
    exact changed d _ ((HashTable.updateFirstLength _ f _).le.trans (Nat.le_succ _))
  | apply f =>
    cases answer
    simp only [List.length_map]
    omega

/-- A session: each call is made on what the one before it left. -/
inductive Session (op : HashTableOperations κ α) (t : Table L) (fuel : Nat) :
    Store L A α → List (TableCall κ L A α) → List (List α) → Store L A α → Prop where
  | nil (s : Store L A α) : Session op t fuel s [] [] s
  | cons {s s₁ s₂ : Store L A α} {call : TableCall κ L A α} {rest : List (TableCall κ L A α)}
    {out : List α} {outs : List (List α)} (unused : Unused s call)
    (ran : call.run op t fuel s = .ok (out,s₁)) (others : Session op t fuel s₁ rest outs s₂) :
    Session op t fuel s (call :: rest) (out :: outs) s₂

def answersOf (op : HashTableOperations κ α) :
    List (TableCall κ L A α) → HashTable α → Option (HashTable α × List (List α) × List α)
  | [],h => some (h,[],[])
  | call :: rest,h => do
    let (h₁,out,gone) ← call.answer op h
    let (h₂,outs,others) ← answersOf op rest h₁
    some (h₂,out :: outs,gone ++ others)

theorem Session.answered {calls : List (TableCall κ L A α)} {outs : List (List α)} {n : Nat}
    (session : Session op t fuel s calls outs s') (holds : Holds t s h xs)
    (short : ∀ c, (h.entry c).length ≤ n) (enough : n + calls.length ≤ fuel) :
    ∃ h' gone xs', answersOf op calls h = some (h',outs,gone) ∧ Holds t s' h' xs' ∧
      s'.removed = s.removed ++ gone ∧ ∀ c, (h'.entry c).length ≤ n + calls.length := by
  induction session generalizing h xs n with
  | nil s => exact ⟨h,[],xs,rfl,holds,(List.append_nil _).symm,short⟩
  | @cons s s₁ s₂ call rest out outs unused ran others ih =>
    rw [List.length_cons] at enough ⊢
    cases answer : call.answer op h with
    | none =>
      rw [holds.refused unused answer] at ran
      cases ran
    | some r =>
      obtain ⟨h₁,out',gone⟩ := r
      obtain ⟨s₁',xs₁,ran',removed,holds₁⟩ := holds.answers unused
        (fun c => (short c).trans (show n ≤ fuel by omega)) answer
      rw [ran] at ran'
      cases ran'
      obtain ⟨h₂,gone',xs₂,answers,holds₂,removed',short'⟩ := ih (n := n + 1) holds₁
        (answerLonger answer short) (by omega)
      refine ⟨h₂,gone ++ gone',xs₂,?_,holds₂,?_,fun c => (short' c).trans (by omega)⟩
      · rw [answersOf,answer]
        simp [answers]
      · rw [removed',removed,List.append_assoc]

section Ends

omit [DecidableEq A] in
theorem eachChainSets {f : Nat → OnTable L A α Unit} {v : Nat → Option (ListHead A)}
    (good : Store L A α → Prop) {cs : List Nat} (nodup : cs.Nodup)
    (inside : ∀ c ∈ cs, c < t.entries)
    (step : ∀ c ∈ cs, ∀ s, good s → f c s = .ok ((),s.setList (t.entry c) (v c)) ∧
      good (s.setList (t.entry c) (v c))) (start : good s) :
    ∃ s', eachChain f cs s = .ok ((),s') ∧ good s' ∧ s'.memory.items = s.memory.items ∧
      s'.record = s.record ∧ s'.removed = s.removed ∧
      (∀ c ∈ cs, s'.memory.lists (t.entry c) = v c) ∧
      ∀ l, (∀ c ∈ cs, t.entry c ≠ l) → s'.memory.lists l = s.memory.lists l := by
  induction cs generalizing s with
  | nil => exact ⟨s,rfl,start,rfl,rfl,rfl,by simp,fun _ _ => rfl⟩
  | cons c rest ih =>
    obtain ⟨fresh,nodup⟩ := List.nodup_cons.mp nodup
    obtain ⟨ran,after⟩ := step c List.mem_cons_self s start
    obtain ⟨s',ran',good',items,records,removed,set,others⟩ := ih nodup
      (fun d member => inside d (List.mem_cons_of_mem _ member))
      (fun d member => step d (List.mem_cons_of_mem _ member)) after
    refine ⟨s',?_,good',items,records,removed,?_,?_⟩
    · rw [eachChain,Prog.bindOf ran,ran']
    · intro d member
      cases member with
      | head =>
        rw [others (t.entry c) fun d member => Table.elsewhere (inside c List.mem_cons_self)
          (inside d (List.mem_cons_of_mem _ member)) fun same => fresh (same ▸ member)]
        exact Function.update_self ..
      | tail _ member => exact set d member
    · intro l apart
      rw [others l fun d member => apart d (List.mem_cons_of_mem _ member)]
      exact Function.update_of_ne (apart c List.mem_cons_self).symm ..

def Store.empty : Store L A α := ⟨⟨fun _ => none,fun _ => none⟩,fun _ => none,[]⟩

omit [DecidableEq A] in
theorem initHolds (t : Table L) (junk : Nat → ListHead A) :
    ∃ s : Store L A α, hashTableInit t junk Store.empty = .ok ((),s) ∧ s.removed = [] ∧
      Holds t s (HashTable.init t.entries) fun _ => [] := by
  have inside : ∀ c ∈ List.range t.entries, c < t.entries := fun c => List.mem_range.mp
  obtain ⟨s₁,ran₁,_,items₁,records₁,removed₁,set₁,others₁⟩ := eachChainSets (t := t)
    (s := (Store.empty : Store L A α)) (f := fun c => setChain t c (some (junk c)))
    (fun _ => True) List.nodup_range inside (fun c _ s _ => ⟨rfl,trivial⟩) trivial
  obtain ⟨s₂,ran₂,_,items₂,records₂,removed₂,set₂,others₂⟩ := eachChainSets (t := t) (s := s₁)
    (f := fun c => onMemory (listInit (t.entry c))) (v := fun _ => some ⟨none,none⟩)
    (fun s => ∀ c < t.entries, s.memory.known (t.entry c)) List.nodup_range inside
    (by
      intro c member s known
      have alive := known c (inside c member)
      obtain ⟨head,there⟩ := Option.isSome_iff_exists.mp alive
      refine ⟨?_,fun d inside' => ?_⟩
      · have set : listInit (t.entry c) s.memory =
            .ok ((),(s.setList (t.entry c) (some ⟨none,none⟩)).memory) := by
          rw [listInit,writeListRun alive,Memory.modifyList,there]
          rfl
        exact onMemoryRun set
      · rw [Memory.known]
        simp only [Store.setList,Function.update_apply]
        split
        · rfl
        · exact known d inside')
    (fun c inside' => by rw [Memory.known,set₁ c (List.mem_range.mpr inside')]; rfl)
  refine ⟨s₂,?_,by rw [removed₂,removed₁]; rfl,?_⟩
  · rw [hashTableInit,Prog.bindOf ran₁,ran₂]
  have noItems : ∀ a, s₂.memory.items a = none := by
    intro a
    rw [items₂,items₁]
    rfl
  have lists : ∀ l head, s₂.memory.lists l = some head → head = ⟨none,none⟩ := by
    intro l head there
    by_cases mine : ∃ c ∈ List.range t.entries, t.entry c = l
    · obtain ⟨c,member,rfl⟩ := mine
      rw [set₂ c member] at there
      exact (Option.some.inj there).symm
    · rw [others₂ l fun c member same => mine ⟨c,member,same⟩,
        others₁ l fun c member same => mine ⟨c,member,same⟩] at there
      cases there
  constructor
  · exact ⟨fun l head there => lists l head there,fun _ _ => rfl,fun _ => trivial,
      fun _ => List.nodup_nil,fun a l => by simp [Memory.owner,noItems a]⟩
  · rfl
  · intro c inside'
    rw [Memory.known,set₂ c (List.mem_range.mpr inside')]
    rfl
  · exact fun c _ => .nil
  · intro a
    simp [Memory.alive,noItems a]
  · intro a
    rw [records₂,records₁,Memory.alive,noItems a]
    rfl

theorem destroyFromRun (holds : Holds t s h xs) (inside : c < t.entries) {as : List A}
    (whole : xs (t.entry c) = as) (enough : as.length ≤ fuel) :
    ∃ s', destroyFrom (t.entry c) fuel as.head? s = .ok ((),s') ∧
      s'.removed = s.removed ++ h.entry c ∧
      Holds t s' { h with entry := Function.update h.entry c [] }
        (Function.update xs (t.entry c) []) := by
  induction as generalizing s h xs fuel with
  | nil =>
    have records := holds.records c inside
    rw [whole] at records
    have empty : h.entry c = [] := by
      cases same : h.entry c with
      | nil => rfl
      | cons y ys =>
        rw [same] at records
        cases records
    refine ⟨s,?_,by rw [empty,List.append_nil],?_⟩
    · cases fuel <;> rfl
    · rw [← whole,Function.update_eq_self,← empty,Function.update_eq_self]
      exact holds
  | cons a as ih =>
    obtain ⟨fuel,rfl⟩ : ∃ k, fuel = k + 1 := Nat.exists_eq_add_one.mpr (by simp at enough; omega)
    have records := holds.records c inside
    rw [whole] at records
    cases same : h.entry c with
    | nil =>
      rw [same] at records
      cases records
    | cons x ys =>
      rw [same] at records
      cases records with
      | cons here others =>
        have split : xs (t.entry c) = [] ++ a :: as := whole
        obtain ⟨i,read,next⟩ := holds.represents.nextOf split
        obtain ⟨s₁,s₂,unlinked,freed,gone,after⟩ := holds.takeOut inside split .nil here others
        have short : as.length ≤ fuel := by simpa using enough
        obtain ⟨s',ran,removed,rest⟩ := ih after (Function.update_self ..) short
        refine ⟨s',?_,?_,?_⟩
        · rw [List.head?_cons,destroyFrom,Prog.bindOf read,Prog.bindOf unlinked,Prog.bindOf freed,
            next,ran]
        · rw [removed,gone,List.append_assoc]
          simp
        · simpa only [Function.update_idem] using rest

theorem destroyChainsRun (holds : Holds t s h xs) {cs : List Nat} (nodup : cs.Nodup)
    (inside : ∀ c ∈ cs, c < t.entries) (enough : ∀ c, (h.entry c).length ≤ fuel) :
    ∃ s' h' xs', eachChain (fun c => do
        let head ← onMemory (list (t.entry c))
        destroyFrom (t.entry c) fuel head.head) cs s = .ok ((),s') ∧
      s'.removed = s.removed ++ cs.flatMap h.entry ∧ Holds t s' h' xs' ∧
      (∀ c ∈ cs, xs' (t.entry c) = []) ∧
      ∀ l, (∀ c ∈ cs, t.entry c ≠ l) → xs' l = xs l := by
  induction cs generalizing s h xs with
  | nil => exact ⟨s,h,xs,rfl,(List.append_nil _).symm,holds,by simp,fun _ _ => rfl⟩
  | cons c rest ih =>
    obtain ⟨fresh,nodup⟩ := List.nodup_cons.mp nodup
    have here := inside c List.mem_cons_self
    have head := holds.represents.heads' (holds.known c here)
    obtain ⟨s₁,ran,removed,after⟩ := destroyFromRun holds here rfl
      ((holds.records c here).length_eq ▸ enough c)
    have untouched : rest.flatMap (Function.update h.entry c []) = rest.flatMap h.entry := by
      apply List.flatMap_congr
      intro d member
      have other : d ≠ c := fun same => fresh (same ▸ member)
      exact Function.update_of_ne other ..
    obtain ⟨s₂,h',xs',ran',removed',holds',cleared,others⟩ := ih after nodup
      (fun d member => inside d (List.mem_cons_of_mem _ member)) (by
        intro d
        by_cases same : d = c
        · subst same
          simp
        · simp only [Function.update_of_ne same]
          exact enough d)
    refine ⟨s₂,h',xs',?_,?_,holds',?_,?_⟩
    · rw [eachChain]
      have first : (onMemory (list (t.entry c)) >>= fun head =>
          destroyFrom (t.entry c) fuel head.head) s = .ok ((),s₁) := by
        rw [Prog.bindOf (onMemoryRun (listRun head)),ran]
      exact (Prog.bindOf first).trans ran'
    · rw [removed',removed,List.flatMap_cons,List.append_assoc]
      exact congrArg _ (congrArg _ untouched)
    · intro d member
      cases member with
      | head =>
        rw [others (t.entry c) fun d member => Table.elsewhere here
          (inside d (List.mem_cons_of_mem _ member)) fun same => fresh (same ▸ member)]
        exact Function.update_self ..
      | tail _ member => exact cleared d member
    · intro l apart
      rw [others l fun d member => apart d (List.mem_cons_of_mem _ member)]
      exact Function.update_of_ne (apart c List.mem_cons_self).symm ..

theorem Holds.destroys (holds : Holds t s h xs) (enough : ∀ c, (h.entry c).length ≤ fuel) :
    ∃ s', hashTableDestroy t fuel s = .ok ((),s') ∧ s'.removed = s.removed ++ h.items ∧
      (∀ a, s'.memory.items a = none) ∧ (∀ a, s'.record a = none) ∧
      ∀ c < t.entries, s'.memory.lists (t.entry c) = none := by
  have inside : ∀ c ∈ List.range t.entries, c < t.entries := fun c => List.mem_range.mp
  obtain ⟨s₁,h',xs',ran,removed,holds',cleared,_⟩ := destroyChainsRun holds List.nodup_range inside
    enough
  obtain ⟨s₂,ran',_,items,records,removed',set,_⟩ := eachChainSets (t := t) (s := s₁)
    (f := fun c => setChain t c none) (fun _ => True) List.nodup_range inside
    (fun c _ s _ => ⟨rfl,trivial⟩) trivial
  have dead : ∀ a, s₁.memory.alive a = false := by
    intro a
    rw [Bool.eq_false_iff]
    intro alive
    obtain ⟨c,below,member⟩ := (holds'.placed a).mp alive
    rw [cleared c (List.mem_range.mpr below)] at member
    exact absurd member List.not_mem_nil
  refine ⟨s₂,?_,?_,?_,?_,fun c below => set c (List.mem_range.mpr below)⟩
  · rw [hashTableDestroy]
    exact (Prog.bindOf ran).trans ran'
  · rw [removed',removed,HashTable.items,holds.entries]
  · intro a
    rw [items]
    exact Option.isSome_eq_false_iff.mp (dead a) |> Option.isNone_iff_eq_none.mp
  · intro a
    rw [records]
    have together := holds'.together a
    rw [dead a] at together
    exact Option.isSome_eq_false_iff.mp together |> Option.isNone_iff_eq_none.mp

/-- The hash table is one. Every session with a new table gives the answers of the table without
pointers, whatever cells the records are given, and removes the same records. What stops it is a
key that the hash function does not accept, and nothing else. -/
theorem tableSession (junk : Nat → ListHead A) {calls : List (TableCall κ L A α)}
    {outs : List (List α)} (enough : calls.length ≤ fuel) {s₀ : Store L A α}
    (made : hashTableInit t junk Store.empty = .ok ((),s₀))
    (session : Session op t fuel s₀ calls outs s) :
    ∃ h, answersOf op calls (HashTable.init t.entries) = some (h,outs,s.removed) ∧
      ∀ call, Unused s call → calls.length < fuel →
        (∀ h' out gone, call.answer op h = some (h',out,gone) →
          ∃ s', call.run op t fuel s = .ok (out,s') ∧ s'.removed = s.removed ++ gone) ∧
        (call.answer op h = none → call.run op t fuel s = .error .assertion) := by
  obtain ⟨s₁,made',clean,holds⟩ := initHolds t junk
  rw [made] at made'
  cases made'
  obtain ⟨h,gone,xs,answers,holds',removed,short⟩ := session.answered holds (n := 0)
    (fun c => by simp [HashTable.init]) (by omega)
  rw [clean,List.nil_append] at removed
  refine ⟨h,by rw [removed]; exact answers,fun call unused more => ⟨?_,holds'.refused unused⟩⟩
  intro h' out gone' answer
  obtain ⟨s',_,ran,removed',_⟩ := holds'.answers unused
    (fun c => (short c).trans (show 0 + calls.length ≤ fuel by omega)) answer
  exact ⟨s',ran,removed'⟩

def twoChains : Table Nat := ⟨2,fun c => c,fun _ _ same => same⟩

def keyOps : HashTableOperations Nat Nat where
  hash entries key := some (key % entries)
  compare key x := x = key

def junkHead : ListHead Nat := ⟨some 9,none⟩

def junkItem : Item Nat Nat := ⟨⟨none,some 4⟩,some 7⟩

def insertFind : List (TableCall Nat Nat Nat Nat) := [.insert 3 0 junkItem 3,.find 3]

theorem insertFindSession : ∃ s₀ s, hashTableInit twoChains (fun _ => junkHead) Store.empty =
      .ok ((),s₀) ∧ Session keyOps twoChains 5 s₀ insertFind [[],[3]] s := by
  obtain ⟨s₀,made,_,holds⟩ := initHolds (α := Nat) twoChains fun _ => junkHead
  have unused : Unused s₀ (.insert 3 0 junkItem 3 : TableCall Nat Nat Nat Nat) := by
    intro alive
    obtain ⟨c,_,member⟩ := (holds.placed 0).mp alive
    exact absurd member List.not_mem_nil
  obtain ⟨s₁,xs₁,ran₁,_,holds₁⟩ : Answers keyOps twoChains 5 s₀ (.insert 3 0 junkItem 3)
      (HashTable.append (HashTable.init 2) 1 3) [] [] :=
    holds.answers unused (fun c => Nat.zero_le _) rfl
  have short : ∀ c, (HashTable.entry (HashTable.append (HashTable.init 2) 1 3) c).length ≤ 5 := by
    intro c
    by_cases same : c = 1
    · subst same
      decide
    · simp [HashTable.append,HashTable.init,Function.update_of_ne same]
  have nothing : Unused s₁ (.find 3 : TableCall Nat Nat Nat Nat) := trivial
  obtain ⟨s₂,xs₂,ran₂,_,_⟩ : Answers keyOps twoChains 5 s₁ (.find 3)
      (HashTable.append (HashTable.init 2) 1 3) [3] [] := holds₁.answers nothing short rfl
  exact ⟨s₀,s₂,made,.cons unused ran₁ (.cons trivial ran₂ (.nil _))⟩

theorem tableSessionFind : ∃ s : Store Nat Nat Nat, ∃ h,
    answersOf keyOps insertFind (HashTable.init 2) = some (h,[[],[3]],s.removed) := by
  obtain ⟨s₀,s,made,session⟩ := insertFindSession
  obtain ⟨h,answers,_⟩ := tableSession (fun _ => junkHead) (by decide) made session
  exact ⟨s,h,answers⟩

/-- Destroying the table frees each record that is left, once and in the order of the chains, and
leaves nothing allocated. -/
theorem tableDestroyed (junk : Nat → ListHead A) {calls : List (TableCall κ L A α)}
    {outs : List (List α)} (enough : calls.length ≤ fuel) {s₀ : Store L A α}
    (made : hashTableInit t junk Store.empty = .ok ((),s₀))
    (session : Session op t fuel s₀ calls outs s) :
    ∃ h s', answersOf op calls (HashTable.init t.entries) = some (h,outs,s.removed) ∧
      hashTableDestroy t fuel s = .ok ((),s') ∧ s'.removed = s.removed ++ h.items ∧
      (∀ a, s'.memory.items a = none) ∧ (∀ a, s'.record a = none) ∧
      ∀ c < t.entries, s'.memory.lists (t.entry c) = none := by
  obtain ⟨s₁,made',clean,holds⟩ := initHolds t junk
  rw [made] at made'
  cases made'
  obtain ⟨h,gone,xs,answers,holds',removed,short⟩ := session.answered holds (n := 0)
    (fun c => by simp [HashTable.init]) (by omega)
  rw [clean,List.nil_append] at removed
  obtain ⟨s',ran,rest⟩ := holds'.destroys fun c =>
    (short c).trans (show 0 + calls.length ≤ fuel by omega)
  exact ⟨h,s',by rw [removed]; exact answers,ran,rest⟩

theorem tableDestroyedFind : ∃ s s' : Store Nat Nat Nat,
    hashTableDestroy twoChains 5 s = .ok ((),s') ∧ ∀ a, s'.memory.items a = none := by
  obtain ⟨s₀,s,made,session⟩ := insertFindSession
  obtain ⟨h,s',_,ran,_,freed,_⟩ := tableDestroyed (fun _ => junkHead) (by decide) made session
  exact ⟨s,s',ran,freed⟩

end Ends
end Sessions
end IoApps.Adt
