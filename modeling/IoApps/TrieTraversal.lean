import IoApps.Lib.Postorder
import IoApps.TrieSet
import IoApps.Simfs

/-! The traversal that hands each node with its full name to a function: one buffer holds the
name while the children are visited and is cut back behind each node. -/
namespace IoApps
open Lib (Bytes Tree Forest joined childKey)

inductive TrieFault where
  | overflow
  deriving DecidableEq, Repr

def strcat (buff s : Bytes) : Except TrieFault Bytes :=
  if (cstr buff).length + s.length < buff.length then
    .ok (cstr buff ++ s ++ 0 :: buff.drop ((cstr buff).length + s.length + 1))
  else .error .overflow

namespace Trie
variable {δ σ : Type}

section Apply
variable (function : σ → List Bytes → Bytes → σ) (delim : UInt8)

def apply2FullNode (key : Bytes) (n : List Bytes)
    (children : σ × Bytes → Except TrieFault (σ × Bytes)) (s : σ × Bytes) :
    Except TrieFault (σ × Bytes) := do
  let nameEnd := (cstr s.2).length
  let buff ← if cstr s.2 ≠ [] then strcat s.2 [delim] else .ok s.2
  let name ← strcat buff key
  let r ← children (s.1,name)
  .ok (function r.1 n (cstr r.2),r.2.set nameEnd 0)

def apply2FullChildren : Forest Bytes δ → List Bytes → σ × Bytes → Except TrieFault (σ × Bytes)
  | .nil,_,s => .ok s
  | .cons key _ children rest,n,s => do
    let r ← apply2FullNode function delim key (n ++ [key])
      (apply2FullChildren children (n ++ [key])) s
    apply2FullChildren rest n r

def applyFull (t : Trie δ) (buff : Bytes) (s : σ) : Except TrieFault σ := do
  let r ← apply2FullNode function t.delim [t.delim] []
    (apply2FullChildren function t.delim t.root.children []) (s,buff.set 0 0)
  .ok r.1

end Apply

def fullName (delim : UInt8) (n : List Bytes) : Bytes := delim :: joined delim n

structure NameBuffer (buff name : Bytes) : Prop where
  size : buff.length = MAX_LINE
  clean : 0 ∉ name
  text : ∃ rest, buff = name ++ 0 :: rest

section Buffer
variable {buff name : Bytes}

theorem NameBuffer.cstr (holds : NameBuffer buff name) : cstr buff = name := by
  obtain ⟨rest,text⟩ := holds.text
  rw [text]
  exact cstrZero holds.clean rest

theorem strcatHolds (holds : NameBuffer buff name) {s : Bytes} (clean : 0 ∉ s)
    (fits : (name ++ s).length < MAX_LINE) :
    ∃ buff', strcat buff s = .ok buff' ∧ NameBuffer buff' (name ++ s) := by
  have size := holds.size
  rw [List.length_append] at fits
  have ran : strcat buff s =
      .ok (name ++ s ++ 0 :: buff.drop (name.length + s.length + 1)) := by
    rw [strcat,holds.cstr,if_pos (by omega)]
  refine ⟨_,ran,?_,?_,_,rfl⟩
  · simp only [List.length_append,List.length_cons,List.length_drop]
    omega
  · intro member
    rcases List.mem_append.mp member with before | after
    · exact holds.clean before
    · exact clean after

theorem strcatFits (holds : NameBuffer buff name) {s buff' : Bytes}
    (ran : strcat buff s = .ok buff') : (name ++ s).length < MAX_LINE := by
  rw [strcat,holds.cstr,holds.size] at ran
  split at ran
  · rename_i room
    rwa [List.length_append]
  · cases ran

theorem cutHolds {more : Bytes} (holds : NameBuffer buff (name ++ more)) :
    NameBuffer (buff.set name.length 0) name := by
  obtain ⟨rest,text⟩ := holds.text
  refine ⟨?_,fun member => holds.clean (List.mem_append_left more member),?_⟩
  · rw [List.length_set]
    exact holds.size
  · rw [text,List.append_assoc,List.set_append_right _ _ (Nat.le_refl _),Nat.sub_self]
    cases more with
    | nil => exact ⟨rest,rfl⟩
    | cons x more => exact ⟨_,rfl⟩

end Buffer

section Run
variable {delim : UInt8}

def handed (function : σ → List Bytes → Bytes → σ) (delim : UInt8) (nodes : List (List Bytes))
    (s : σ) : σ :=
  nodes.foldl (fun s n => function s n (fullName delim n)) s

theorem fullNameOf (n : List Bytes) (key : Bytes) :
    fullName delim (n ++ [key]) = fullName delim n ++ [delim] ++ key := by
  have last : joined delim [key] = [delim] ++ key := by simp [joined]
  rw [fullName,fullName,Lib.joinedAppend,last,← List.append_assoc]
  rfl

/-- The step lemma: one node below the root. -/
theorem nodeHolds (function : σ → List Bytes → Bytes → σ) (real : delim ≠ 0) {key : Bytes}
    (clean : 0 ∉ key) {n : List Bytes} (fits : (fullName delim (n ++ [key])).length < MAX_LINE)
    {buff : Bytes} (holds : NameBuffer buff (fullName delim n))
    {children : σ × Bytes → Except TrieFault (σ × Bytes)} {s s' : σ}
    (below : ∀ name, NameBuffer name (fullName delim (n ++ [key])) →
      ∃ name', children (s,name) = .ok (s',name') ∧
        NameBuffer name' (fullName delim (n ++ [key]))) :
    ∃ buff', apply2FullNode function delim key (n ++ [key]) children (s,buff) =
        .ok (function s' (n ++ [key]) (fullName delim (n ++ [key])),buff') ∧
      NameBuffer buff' (fullName delim n) := by
  rw [fullNameOf] at fits
  have some : fullName delim n ≠ [] := List.cons_ne_nil _ _
  have short : (fullName delim n ++ [delim]).length < MAX_LINE := by
    rw [List.length_append] at fits
    omega
  obtain ⟨parted,first,behind⟩ := strcatHolds holds (s := [delim])
    (by simpa using Ne.symm real) short
  obtain ⟨named,second,inside⟩ := strcatHolds behind clean fits
  rw [← fullNameOf] at inside
  obtain ⟨left,ran,kept⟩ := below named inside
  refine ⟨left.set (fullName delim n).length 0,?_,?_⟩
  · unfold apply2FullNode
    simp only [holds.cstr,some,ne_eq,not_false_eq_true,if_true,first,second,ran,bind,Except.bind,
      kept.cstr]
  · rw [fullNameOf,List.append_assoc] at kept
    exact cutHolds kept

/-- The run lemma: the name of the parent is left in the buffer. -/
theorem childrenHold (function : σ → List Bytes → Bytes → σ) (real : delim ≠ 0)
    (f : Forest Bytes δ) {n : List Bytes}
    (clean : ∀ q ∈ f.postorder, ∀ c ∈ q, 0 ∉ c)
    (fits : ∀ q ∈ f.postorder, (fullName delim (n ++ q)).length < MAX_LINE) {buff : Bytes}
    (holds : NameBuffer buff (fullName delim n)) (s : σ) :
    ∃ buff', apply2FullChildren function delim f n (s,buff) =
        .ok (handed function delim (f.postorder.map (n ++ ·)) s,buff') ∧
      NameBuffer buff' (fullName delim n) := by
  induction f generalizing n buff s with
  | nil => exact ⟨buff,rfl,holds⟩
  | cons key data children rest ihc ihr =>
    have here : [key] ∈ (Forest.cons key data children rest).postorder := by
      simp [Forest.postorder]
    have below {q : List Bytes} (member : q ∈ children.postorder) :
        key :: q ∈ (Forest.cons key data children rest).postorder := by
      simp [Forest.postorder,member]
    have later {q : List Bytes} (member : q ∈ rest.postorder) :
        q ∈ (Forest.cons key data children rest).postorder := by
      simp [Forest.postorder,member]
    obtain ⟨buff',one,kept⟩ := nodeHolds function real
      (clean _ here key List.mem_cons_self) (fits _ here) holds fun name inside =>
        ihc (fun q member c part => clean _ (below member) c (List.mem_cons_of_mem key part))
          (fun q member => by
            rw [List.append_assoc]
            exact fits _ (below member)) inside s
    obtain ⟨buff'',others,end_⟩ := ihr (fun q member => clean q (later member))
      (fun q member => fits q (later member)) kept
      (function (handed function delim (children.postorder.map (n ++ [key] ++ ·)) s) (n ++ [key])
        (fullName delim (n ++ [key])))
    refine ⟨buff'',?_,end_⟩
    rw [apply2FullChildren,one]
    simp only [bind,Except.bind]
    rw [others]
    simp [handed,Forest.postorder,Function.comp_def]

theorem childrenFit (function : σ → List Bytes → Bytes → σ) (real : delim ≠ 0)
    (f : Forest Bytes δ) {n : List Bytes} (clean : ∀ q ∈ f.postorder, ∀ c ∈ q, 0 ∉ c)
    {buff : Bytes} (holds : NameBuffer buff (fullName delim n)) {s : σ} {r : σ × Bytes}
    (ran : apply2FullChildren function delim f n (s,buff) = .ok r) :
    ∀ q ∈ f.postorder, (fullName delim (n ++ q)).length < MAX_LINE := by
  induction f generalizing n buff s r with
  | nil => simp [Forest.postorder]
  | cons key data children rest ihc ihr =>
    have here : 0 ∉ key := clean [key] (by simp [Forest.postorder]) key List.mem_cons_self
    have below : ∀ q ∈ children.postorder, ∀ c ∈ q, 0 ∉ c := fun q member c part =>
      clean (key :: q) (by simp [Forest.postorder,member]) c (List.mem_cons_of_mem key part)
    have later : ∀ q ∈ rest.postorder, ∀ c ∈ q, 0 ∉ c := fun q member =>
      clean q (by simp [Forest.postorder,member])
    have some : fullName delim n ≠ [] := List.cons_ne_nil _ _
    rw [apply2FullChildren] at ran
    cases node : apply2FullNode function delim key (n ++ [key])
        (apply2FullChildren function delim children (n ++ [key])) (s,buff) with
    | error e =>
      rw [node] at ran
      cases ran
    | ok left =>
      rw [node] at ran
      simp only [apply2FullNode,holds.cstr,some,ne_eq,not_false_eq_true,if_true] at node
      cases parted : strcat buff [delim] with
      | error e =>
        rw [parted] at node
        cases node
      | ok first =>
        rw [parted] at node
        obtain ⟨first',same,behind⟩ := strcatHolds holds (by simpa using Ne.symm real)
          (strcatFits holds parted)
        cases parted.symm.trans same
        simp only [bind,Except.bind] at node
        cases named : strcat first key with
        | error e =>
          rw [named] at node
          cases node
        | ok name =>
          rw [named] at node
          have short := strcatFits behind named
          obtain ⟨name',same',inside⟩ := strcatHolds behind here short
          cases named.symm.trans same'
          rw [← fullNameOf] at inside short
          cases visited : apply2FullChildren function delim children (n ++ [key]) (s,name) with
          | error e =>
            simp only [visited] at node
            cases node
          | ok r' =>
            have fits := ihc below inside visited
            obtain ⟨buff',one,kept⟩ := nodeHolds function real here short holds fun b holds' =>
              childrenHold function real children below fits holds' s
            have whole : apply2FullNode function delim key (n ++ [key])
                (apply2FullChildren function delim children (n ++ [key])) (s,buff) =
                .ok left := by
              simp only [apply2FullNode,holds.cstr,some,ne_eq,not_false_eq_true,if_true,parted,
                bind,Except.bind,named,visited] at node ⊢
              exact node
            rw [whole] at one
            cases one
            intro q member
            rw [Forest.postorder,List.mem_append,List.mem_cons] at member
            obtain child | rfl | other := member
            · obtain ⟨q,inner,rfl⟩ := List.mem_map.mp child
              have fit := fits q inner
              rwa [List.append_assoc] at fit
            · exact short
            · exact ihr later kept ran q other

end Run

/-- What the calls of the function are, in their order: a node with the name it is given. -/
structure Traversal (t : Trie δ) (visits : List (List Bytes × Bytes)) : Prop where
  nodes : ∀ n, n ∈ visits.map Prod.fst ↔ n ∈ t.root.paths
  once : (visits.map Prod.fst).Nodup
  upwards : (visits.map Prod.fst).Pairwise fun n later => ¬ n <+: later
  siblings : ∀ n m, t.root.walk n = some m →
    (visits.map Prod.fst).filterMap (childKey n) = m.children.keys
  found : ∀ v ∈ visits, t.find v.2 = some v.1
  different : (visits.map Prod.snd).Nodup

section Sound
variable {t : Trie δ} (sound : t.Sound)
include sound

theorem findFullName {n : List Bytes} (inside : n ∈ t.root.paths) :
    t.find (fullName t.delim n) = some n := by
  have parts := sound.keys n inside
  have there := Tree.memPaths.mp inside
  rw [findPaths,fullName,Lib.tokensDelim,Lib.tokensJoined parts,if_pos there]

theorem postorderTraversal :
    Traversal t (t.root.postorder.map fun n => (n,fullName t.delim n)) := by
  have inside {n : List Bytes} : n ∈ t.root.postorder ↔ n ∈ t.root.paths := by
    rw [Tree.memPostorder sound.distinct,Tree.memPaths]
  have nodes : (t.root.postorder.map fun n => (n,fullName t.delim n)).map Prod.fst =
      t.root.postorder := by
    rw [List.map_map]
    exact List.map_id _
  have names : (t.root.postorder.map fun n => (n,fullName t.delim n)).map Prod.snd =
      t.root.postorder.map (fullName t.delim) := by
    rw [List.map_map]
    rfl
  refine ⟨?_,?_,?_,?_,?_,?_⟩
  · intro n
    rw [nodes]
    exact inside
  · rw [nodes]
    exact Tree.postorderOnce sound.distinct
  · rw [nodes]
    exact Tree.postorderUpwards sound.distinct
  · intro n m found
    rw [nodes]
    exact Tree.postorderSiblings sound.distinct found
  · intro v member
    obtain ⟨n,there,rfl⟩ := List.mem_map.mp member
    exact findFullName sound (inside.mp there)
  · rw [names]
    refine (Tree.postorderOnce sound.distinct).map_on ?_
    intro n here n' there same
    have first := findFullName sound (inside.mp here)
    rw [same,findFullName sound (inside.mp there)] at first
    exact (Option.some.inj first).symm

theorem applyFullRun (clean : ∀ n ∈ t.root.paths, ∀ c ∈ n, 0 ∉ c)
    (fits : ∀ n ∈ t.root.paths, (fullName t.delim n).length < MAX_LINE)
    (function : σ → List Bytes → Bytes → σ) {buff : Bytes} (size : buff.length = MAX_LINE) (s : σ) :
    t.applyFull function buff s = .ok (handed function t.delim t.root.postorder s) := by
  have inside {n : List Bytes} (member : n ∈ t.root.children.postorder) : n ∈ t.root.paths := by
    rw [Tree.memPaths,← Tree.memPostorder sound.distinct]
    exact List.mem_append_left _ member
  have empty : NameBuffer (buff.set 0 0) [] := by
    cases buff with
    | nil => cases size
    | cons x rest => exact ⟨size,List.not_mem_nil,rest,rfl⟩
  obtain ⟨named,first,holds⟩ := strcatHolds empty (s := [t.delim])
    (by simpa using Ne.symm sound.real) (fits [] t.root.paths.root)
  obtain ⟨buff',ran,kept⟩ := childrenHold function sound.real t.root.children
    (n := []) (fun q member => clean q (inside member)) (fun q member => fits q (inside member))
    holds s
  rw [applyFull,apply2FullNode]
  simp only [empty.cstr,ne_eq,not_true_eq_false,if_false,bind,Except.bind,first,ran,kept.cstr]
  simp [handed,Tree.postorder]

theorem applyFullIff (clean : ∀ n ∈ t.root.paths, ∀ c ∈ n, 0 ∉ c)
    (function : σ → List Bytes → Bytes → σ) {buff : Bytes} (size : buff.length = MAX_LINE) (s : σ) :
    (∃ s', t.applyFull function buff s = .ok s') ↔
      ∀ n ∈ t.root.paths, (fullName t.delim n).length < MAX_LINE := by
  refine ⟨?_,fun fits => ⟨_,applyFullRun sound clean fits function size s⟩⟩
  intro ⟨s',ran⟩
  have inside {n : List Bytes} (member : n ∈ t.root.children.postorder) : n ∈ t.root.paths := by
    rw [Tree.memPaths,← Tree.memPostorder sound.distinct]
    exact List.mem_append_left _ member
  have empty : NameBuffer (buff.set 0 0) [] := by
    cases buff with
    | nil => cases size
    | cons x rest => exact ⟨size,List.not_mem_nil,rest,rfl⟩
  have room : ([] ++ [t.delim] : Bytes).length < MAX_LINE := by
    simp only [List.nil_append,List.length_singleton]
    decide
  have real : 0 ∉ [t.delim] := by simpa using Ne.symm sound.real
  obtain ⟨named,first,holds⟩ := strcatHolds empty real room
  rw [applyFull,apply2FullNode] at ran
  simp only [empty.cstr,ne_eq,not_true_eq_false,if_false,bind,Except.bind,first] at ran
  cases visited : apply2FullChildren function t.delim t.root.children [] (s,named) with
  | error e =>
    rw [visited] at ran
    cases ran
  | ok r =>
    have fits :=
      childrenFit function sound.real t.root.children (fun q member => clean q (inside member))
      (show NameBuffer named (fullName t.delim []) from holds) visited
    intro n member
    rw [Tree.memPaths,← Tree.memPostorder sound.distinct,Tree.postorder,List.mem_append,
      List.mem_singleton] at member
    obtain below | rfl := member
    · exact fits n below
    · exact room

end Sound

theorem callsClean {delim : UInt8} {calls : List TrieCall} {n : List Bytes}
    (inside : n ∈ pathCalls delim calls) : ∀ c ∈ n, 0 ∉ c := by
  induction calls using List.reverseRecOn generalizing n with
  | nil =>
    rw [show n = [] from Lib.Paths.memOnly.mp inside]
    intro c member
    cases member
  | append_singleton calls call ih =>
    rw [pathCalls,List.foldl_append] at inside
    cases call with
    | insert fullKey =>
      rcases Lib.Paths.memInsert.mp inside with old | ahead
      · exact ih old
      · intro c member zero
        exact fullKey.noNul (Lib.tokensInside (ahead.subset member) zero)
    | delete fullKey => exact ih (Lib.Paths.memDelete.mp inside).1

/-- Whatever has been inserted and deleted, the function is called once for each node, behind
the nodes below it and in the order of the lists, with a name under which that node is found. -/
theorem fullNamesApplied {delim : UInt8} (real : delim ≠ 0) (data new : δ) (calls : List TrieCall)
    (fits : ∀ n ∈ ((init delim data).runCalls new calls).root.paths,
      (fullName delim n).length < MAX_LINE) :
    ∃ visits, Traversal ((init delim data).runCalls new calls) visits ∧
      ∀ {σ : Type} (function : σ → List Bytes → Bytes → σ) (buff : Bytes) (s : σ),
        buff.length = MAX_LINE →
          ((init delim data).runCalls new calls).applyFull function buff s =
            .ok (visits.foldl (fun s v => function s v.1 v.2) s) := by
  obtain ⟨sound,same,paths⟩ := callsPaths real data new calls
  refine ⟨_,postorderTraversal sound,?_⟩
  intro σ function buff s size
  have clean : ∀ n ∈ ((init delim data).runCalls new calls).root.paths, ∀ c ∈ n, 0 ∉ c := by
    intro n inside
    rw [paths] at inside
    exact callsClean inside
  rw [applyFullRun sound clean (same.symm ▸ fits) function size,handed,List.foldl_map]

def nestedKeys : List TrieCall :=
  [.insert ⟨[47,97,47,98],by decide⟩,.insert ⟨[47,97,47,99],by decide⟩,
    .insert ⟨[47,100],by decide⟩,.delete ⟨[47,97,47,98],by decide⟩]

theorem fullNamesAppliedNested :
    ∃ visits, Traversal ((init 47 ()).runCalls () nestedKeys) visits ∧
      ∀ {σ : Type} (function : σ → List Bytes → Bytes → σ) (buff : Bytes) (s : σ),
        buff.length = MAX_LINE →
          ((init 47 ()).runCalls () nestedKeys).applyFull function buff s =
            .ok (visits.foldl (fun s v => function s v.1 v.2) s) := by
  refine fullNamesApplied (by decide) () () nestedKeys fun n inside => ?_
  have real : (47 : UInt8) ≠ 0 := by decide
  have sound := (callsPaths real () () nestedKeys).1
  rw [Tree.memPaths,← Tree.memPostorder sound.distinct] at inside
  have short : ∀ n ∈ ((init 47 ()).runCalls () nestedKeys).root.postorder,
      (fullName 47 n).length < MAX_LINE := by decide +kernel
  exact short n inside

end Trie
end IoApps
