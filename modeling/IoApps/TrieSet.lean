import IoApps.Lib.Paths
import IoApps.Trie

/-! A trie that is only inserted into and deleted from stands for the set of paths it
contains: each call does to the set what its name says, however the keys are spelled. -/
namespace IoApps
open Lib (Bytes Tree Paths tokens Component)

structure TrieKey where
  bytes : Bytes
  noNul : 0 ∉ bytes

inductive TrieCall where
  | insert (fullKey : TrieKey)
  | delete (fullKey : TrieKey)

namespace Trie
variable {δ : Type}

def insert (t : Trie δ) (fullKey : TrieKey) (new : δ) : Trie δ × List Bytes :=
  t.insert2 fullKey.bytes new

def runCall (new : δ) (t : Trie δ) : TrieCall → Trie δ
  | .insert fullKey => (t.insert fullKey new).1
  | .delete fullKey => (t.delete fullKey.bytes).1

def runCalls (new : δ) (t : Trie δ) (calls : List TrieCall) : Trie δ := calls.foldl (runCall new) t

def pathCall (delim : UInt8) (s : Paths Bytes) : TrieCall → Paths Bytes
  | .insert fullKey => s.insert (tokens delim fullKey.bytes)
  | .delete fullKey => s.delete (tokens delim fullKey.bytes)

def pathCalls (delim : UInt8) (calls : List TrieCall) : Paths Bytes :=
  calls.foldl (pathCall delim) .only

/-- What the calls keep: no two children of a node share a key, and a key is a component. -/
structure Sound (t : Trie δ) : Prop where
  real : t.delim ≠ 0
  distinct : t.root.Distinct
  keys : ∀ p ∈ t.root.paths, ∀ c ∈ p, Component t.delim c

section Calls
variable {t : Trie δ}

theorem Sound.plain (sound : t.Sound) (n : List Bytes) : t.findChild n [] = none := by
  rw [findChild]
  cases found : (t.root.walk n).bind fun node => node.children.find [] with
  | none => rfl
  | some c =>
    obtain ⟨node,here,child⟩ := Option.bind_eq_some_iff.mp found
    have inside : n ++ [[]] ∈ t.root.paths := by
      rw [Tree.memPaths,Tree.walkAppend,here]
      simp [Tree.walk,child]
    exact absurd rfl (sound.keys _ inside [] (by simp)).1

theorem Sound.insert2 (sound : t.Sound) (fullKey : TrieKey) (new : δ) :
    t.insert2 fullKey.bytes new =
      ({ t with root := t.root.insert new (tokens t.delim fullKey.bytes) },
        tokens t.delim fullKey.bytes) :=
  insert2Run sound.real sound.plain fullKey.noNul new

theorem soundInit {delim : UInt8} (real : delim ≠ 0) (data : δ) : (init delim data).Sound := by
  refine ⟨real,trivial,fun p inside c member => ?_⟩
  have only : p ∈ (Tree.leaf data : Tree Bytes δ).paths := inside
  rw [Tree.pathsLeaf,Paths.memOnly] at only
  subst only
  exact absurd member List.not_mem_nil

theorem deleteRoot (t : Trie δ) (fullKey : Bytes) : (t.delete fullKey).1.root =
    if (t.root.walk (tokens t.delim fullKey)).isSome
      then t.root.remove (tokens t.delim fullKey) else t.root := by
  rw [delete,find]
  cases found : t.root.walk (tokens t.delim fullKey) with
  | none => rfl
  | some node => simp [delete2,found]

theorem deleteDelim (t : Trie δ) (fullKey : Bytes) : (t.delete fullKey).1.delim = t.delim := by
  rw [delete,find]
  cases found : t.root.walk (tokens t.delim fullKey) with
  | none => rfl
  | some node => simp [delete2,found]

theorem deletePaths (distinct : t.root.Distinct) (fullKey : Bytes) :
    (t.delete fullKey).1.root.paths = t.root.paths.delete (tokens t.delim fullKey) := by
  rw [deleteRoot]
  split
  · exact Tree.pathsRemove distinct _
  · rename_i absent
    refine Paths.ext fun q => ?_
    rw [Paths.memDelete]
    refine ⟨fun inside => ⟨inside,fun ahead => ?_⟩,And.left⟩
    exact absurd (Tree.memPaths.mp (Paths.closed ahead inside)) absent

/-- The step lemma: the call keeps the trie sound and does to its paths what it means. -/
theorem callPaths (sound : t.Sound) (new : δ) (call : TrieCall) :
    (t.runCall new call).Sound ∧ (t.runCall new call).delim = t.delim ∧
      (t.runCall new call).root.paths = pathCall t.delim t.root.paths call := by
  cases call with
  | insert fullKey =>
    have run : t.runCall new (.insert fullKey) =
        { t with root := t.root.insert new (tokens t.delim fullKey.bytes) } := by
      rw [runCall,insert,sound.insert2]
    have paths := Tree.pathsInsert t.root new (tokens t.delim fullKey.bytes)
    rw [run]
    refine ⟨⟨sound.real,Tree.distinctInsert sound.distinct _ _,?_⟩,rfl,paths⟩
    intro p inside c member
    have there : p ∈ (t.root.insert new (tokens t.delim fullKey.bytes)).paths := inside
    rw [paths,Paths.memInsert] at there
    rcases there with old | ahead
    · exact sound.keys p old c member
    · exact Lib.tokensReal t.delim fullKey.bytes c (ahead.subset member)
  | delete fullKey =>
    have delim := deleteDelim t fullKey.bytes
    have paths := deletePaths sound.distinct fullKey.bytes
    refine ⟨⟨?_,?_,?_⟩,delim,paths⟩
    · rw [runCall,delim]
      exact sound.real
    · rw [runCall,deleteRoot]
      split
      · exact Tree.distinctRemove sound.distinct _
      · exact sound.distinct
    · intro p inside c member
      have there : p ∈ (t.delete fullKey.bytes).1.root.paths := inside
      rw [paths,Paths.memDelete] at there
      rw [runCall,delim]
      exact sound.keys p there.1 c member

theorem callsPaths {delim : UInt8} (real : delim ≠ 0) (data new : δ) (calls : List TrieCall) :
    ((init delim data).runCalls new calls).Sound ∧
      ((init delim data).runCalls new calls).delim = delim ∧
      ((init delim data).runCalls new calls).root.paths = pathCalls delim calls := by
  induction calls using List.reverseRecOn with
  | nil => exact ⟨soundInit real data,rfl,Tree.pathsLeaf data⟩
  | append_singleton calls call ih =>
    obtain ⟨sound,same,paths⟩ := ih
    obtain ⟨sound',same',paths'⟩ := callPaths sound new call
    simp only [runCalls,pathCalls,List.foldl_append,List.foldl_cons,List.foldl_nil] at *
    exact ⟨sound',same'.trans same,by rw [paths',same,paths]⟩

theorem findPaths (t : Trie δ) (fullKey : Bytes) :
    t.find fullKey = if (t.root.walk (tokens t.delim fullKey)).isSome
      then some (tokens t.delim fullKey) else none := by
  rw [find]
  cases t.root.walk (tokens t.delim fullKey) <;> rfl

theorem findSome {t : Trie δ} {fullKey : Bytes} :
    (t.find fullKey).isSome ↔ tokens t.delim fullKey ∈ t.root.paths := by
  rw [find,Option.isSome_map,Tree.memPaths]

end Calls

/-- The trie is the set `s` of component lists: what each function does with any key. -/
structure IsSet (new : δ) (t : Trie δ) (s : Paths Bytes) : Prop where
  parts : ∀ p ∈ s, ∀ c ∈ p, Component t.delim c
  found : ∀ k : TrieKey, (t.find k.bytes).isSome ↔ tokens t.delim k.bytes ∈ s
  same : ∀ k l : TrieKey, tokens t.delim k.bytes = tokens t.delim l.bytes →
    t.find k.bytes = t.find l.bytes
  inserted : ∀ k l : TrieKey, ((t.insert k new).1.find l.bytes).isSome ↔
    tokens t.delim l.bytes ∈ s ∨ tokens t.delim l.bytes <+: tokens t.delim k.bytes
  insertKept : ∀ k : TrieKey, ∀ p ∈ s, (t.insert k new).1.root.at? p = t.root.at? p
  insertNode : ∀ k : TrieKey, (t.insert k new).1.find k.bytes = some (t.insert k new).2
  deleted : ∀ k : TrieKey, tokens t.delim k.bytes ≠ [] → ∀ l : TrieKey,
    ((t.delete k.bytes).1.find l.bytes).isSome ↔
      tokens t.delim l.bytes ∈ s ∧ ¬ tokens t.delim k.bytes <+: tokens t.delim l.bytes
  deleteKept : ∀ k : TrieKey, tokens t.delim k.bytes ≠ [] → ∀ p ∈ s,
    ¬ tokens t.delim k.bytes <+: p → (t.delete k.bytes).1.root.at? p = t.root.at? p
  missing : ∀ k : TrieKey, tokens t.delim k.bytes ∉ s → t.delete k.bytes = (t,.err)
  one : ∀ k : TrieKey, tokens t.delim k.bytes ∈ s →
    (∀ p ∈ s, tokens t.delim k.bytes <+: p → p = tokens t.delim k.bytes) →
    (t.delete k.bytes).2 = .ok
  many : ∀ k : TrieKey, tokens t.delim k.bytes ∈ s →
    (∃ p ∈ s, tokens t.delim k.bytes <+: p ∧ p ≠ tokens t.delim k.bytes) →
    (t.delete k.bytes).2 = .many
  distinct : t.root.Distinct

theorem deleteStatus {t : Trie δ} {fullKey : Bytes} {node : Tree Bytes δ}
    (found : t.root.walk (tokens t.delim fullKey) = some node) :
    (t.delete fullKey).2 = if isLeaf node then .ok else .many := by
  rw [delete,find,found]
  simp [delete2,found]

theorem leafIff {t : Tree Bytes δ} {node : Tree Bytes δ} {p : List Bytes}
    (found : t.walk p = some node) : isLeaf node = true ↔ ∀ q ∈ t.paths, p <+: q → q = p := by
  rw [← Tree.childrenNil found,isLeaf]
  cases node.children <;> simp

theorem soundSet {t : Trie δ} (sound : t.Sound) (new : δ) : t.IsSet new t.root.paths where
  parts := sound.keys
  found _ := findSome
  same k l equal := by rw [findPaths,findPaths,equal]
  inserted k l := by
    have paths := Tree.pathsInsert t.root new (tokens t.delim k.bytes)
    rw [insert,sound.insert2]
    rw [findSome]
    change tokens t.delim l.bytes ∈ (t.root.insert new (tokens t.delim k.bytes)).paths ↔ _
    rw [paths,Paths.memInsert]
  insertKept k p inside := by
    have there : t.root.at? p ≠ none := Option.isSome_iff_ne_none.mp inside
    rw [insert,sound.insert2]
    simp only [Tree.atInsert,there,and_false,if_false]
  insertNode k := by
    have present : tokens t.delim k.bytes ∈
        (t.root.insert new (tokens t.delim k.bytes)).paths := by
      rw [Tree.pathsInsert,Paths.memInsert]
      exact .inr (List.prefix_refl _)
    rw [insert,sound.insert2,findPaths]
    exact if_pos (Tree.memPaths.mp present)
  deleted k below l := by
    rw [findSome,deletePaths sound.distinct,deleteDelim,Paths.memDeleteBelow below]
  deleteKept k below p _ aside := by
    rw [deleteRoot]
    split
    · rw [Tree.atRemove sound.distinct below,if_neg aside]
    · rfl
  missing k absent := by
    rw [Tree.memPaths] at absent
    rw [delete,findPaths,if_neg absent]
  one k inside alone := by
    obtain ⟨node,found⟩ := Option.isSome_iff_exists.mp (Tree.memPaths.mp inside)
    rw [deleteStatus found,if_pos ((leafIff found).mpr alone)]
  many k inside more := by
    obtain ⟨node,found⟩ := Option.isSome_iff_exists.mp (Tree.memPaths.mp inside)
    obtain ⟨q,there,ahead,other⟩ := more
    rw [deleteStatus found,if_neg fun leaf => other ((leafIff found).mp leaf q there ahead)]
  distinct := sound.distinct

/-- After any sequence of insertions and deletions the trie is the set the calls describe. -/
theorem callsSet {delim : UInt8} (real : delim ≠ 0) (data new : δ) (calls : List TrieCall) :
    ((init delim data).runCalls new calls).delim = delim ∧
      ((init delim data).runCalls new calls).IsSet new (pathCalls delim calls) := by
  obtain ⟨sound,same,paths⟩ := callsPaths real data new calls
  exact ⟨same,paths ▸ soundSet sound new⟩

theorem callsSetSpellings :
    ((init 0x2f ()).runCalls () [.insert ⟨[0x2f,0x61,0x2f,0x2f,0x62,0x2f],by decide⟩,
      .delete ⟨[0x61],by decide⟩]).IsSet ()
      (pathCalls 0x2f [.insert ⟨[0x2f,0x61,0x2f,0x2f,0x62,0x2f],by decide⟩,
        .delete ⟨[0x61],by decide⟩]) :=
  (callsSet (by decide) () () _).2

end Trie
end IoApps
