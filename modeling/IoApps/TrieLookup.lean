import IoApps.TrieSet

/-! The search for the longest prefix of a key, and where it answers for the whole key as the
exact search does. -/
namespace IoApps
open Lib (Bytes Tree Paths tokens spelled Spelling spell)

namespace Trie
variable {δ : Type}

structure Searched (t : Trie δ) (s : Paths Bytes) (fullKey buff : Bytes) : Prop where
  ahead : (t.longestPrefix fullKey buff).1 <+: tokens t.delim fullKey
  inside : (t.longestPrefix fullKey buff).1 ∈ s
  longest : ∀ q ∈ s, q <+: tokens t.delim fullKey → q <+: (t.longestPrefix fullKey buff).1
  front : cstr (t.longestPrefix fullKey buff).2 <+: fullKey
  comps : tokens t.delim (cstr (t.longestPrefix fullKey buff).2) =
    (t.longestPrefix fullKey buff).1

structure LookupsAgree (t : Trie δ) (s : Paths Bytes) (fullKey buff : Bytes) : Prop where
  searched : Searched t s fullKey buff
  whole : cstr (t.longestPrefix fullKey buff).2 = fullKey ↔ (t.find fullKey).isSome

def trailing (delim : UInt8) (fullKey : Bytes) : Nat := (spell delim fullKey).2

section Search
variable {t : Trie δ} {parts : List (Nat × Bytes)} {trail : Nat} {fullKey buff : Bytes}

theorem reachedAll : t.root.reach (parts.map Prod.snd) = parts.length ↔
    parts.map Prod.snd ∈ t.root.paths := by
  rw [Tree.memPaths,Tree.walkIffReach,List.length_map]

theorem searchNode (buff : Bytes) (sound : t.Sound) (spelling : Spelling t.delim parts)
    (whole : fullKey = spelled t.delim parts ++ List.replicate trail t.delim) :
    (t.longestPrefix fullKey buff).1 =
      (parts.map Prod.snd).take (t.root.reach (parts.map Prod.snd)) := by
  rw [longestPrefixSpelled sound.real (fun _ => sound.plain) spelling whole,prefixOf]
  split
  · rename_i full
    have all : t.root.reach (parts.map Prod.snd) = (parts.map Prod.snd).length := by
      rw [full.1,List.length_map]
    rw [all,List.take_length]
  · exact List.map_take

theorem searchedOf (sound : t.Sound) (spelling : Spelling t.delim parts)
    (whole : fullKey = spelled t.delim parts ++ List.replicate trail t.delim)
    (front : cstr (t.longestPrefix fullKey buff).2 <+: fullKey)
    (comps : tokens t.delim (cstr (t.longestPrefix fullKey buff).2) =
      (parts.map Prod.snd).take (t.root.reach (parts.map Prod.snd))) :
    Searched t t.root.paths fullKey buff := by
  have node := searchNode buff sound spelling whole
  have toks : tokens t.delim fullKey = parts.map Prod.snd := by
    rw [whole,Lib.tokensSpelled spelling]
  refine ⟨?_,?_,?_,front,comps.trans node.symm⟩
  · rw [node,toks]
    exact List.take_prefix _ _
  · rw [node,Tree.memPaths]
    exact Tree.walkReach _ _
  · intro q inside ahead
    rw [node]
    rw [toks] at ahead
    have same := List.prefix_iff_eq_take.mp ahead
    have bound : q.length ≤ t.root.reach (parts.map Prod.snd) :=
      Tree.reachMax ahead.length_le (same ▸ Tree.memPaths.mp inside)
    rw [same]
    exact List.take_prefix_take_left bound

theorem agreesIff (searched : Searched t t.root.paths fullKey buff) :
    LookupsAgree t t.root.paths fullKey buff ↔
      (tokens t.delim fullKey ∈ t.root.paths →
        cstr (t.longestPrefix fullKey buff).2 = fullKey) := by
  constructor
  · intro agree found
    exact agree.whole.mpr (findSome.mpr found)
  · intro there
    refine ⟨searched,fun same => findSome.mpr ?_,fun found => there (findSome.mp found)⟩
    have comps := searched.comps
    rw [same] at comps
    rw [comps]
    exact searched.inside

theorem spelledTrail (whole : fullKey = spelled t.delim parts ++ List.replicate trail t.delim)
    (k : Nat) : spelled t.delim parts ++ List.replicate k t.delim = fullKey ↔ trail = k := by
  rw [whole]
  constructor
  · intro same
    have size := congrArg List.length (List.append_cancel_left same)
    simpa using size.symm
  · intro same
    rw [same]

theorem zeroText (sound : t.Sound) (spelling : Spelling t.delim parts)
    (whole : fullKey = spelled t.delim parts ++ List.replicate trail t.delim)
    (clean : 0 ∉ fullKey) {n : Nat} (room : fullKey.length < n) :
    cstr (t.longestPrefix fullKey (List.replicate n 0)).2 =
      spelled t.delim (parts.take (t.root.reach (parts.map Prod.snd))) := by
  rw [longestPrefixSpelled sound.real (fun _ => sound.plain) spelling whole,prefixOf]
  split
  · rename_i full
    rw [cstrZero clean,full.1,List.take_length,whole,full.2.2,List.replicate_zero,List.append_nil]
  · obtain ⟨rest,split,_⟩ := keyCut spelling whole (t.root.reach (parts.map Prod.snd))
    have clean' : 0 ∉ spelled t.delim (parts.take (t.root.reach (parts.map Prod.snd))) :=
      fun member => clean (split ▸ List.mem_append_left _ member)
    refine cstrBufferZero clean' ?_
    rw [split,List.length_append] at room
    omega

theorem zeroSearched (sound : t.Sound) (spelling : Spelling t.delim parts)
    (whole : fullKey = spelled t.delim parts ++ List.replicate trail t.delim)
    (clean : 0 ∉ fullKey) {n : Nat} (room : fullKey.length < n) :
    Searched t t.root.paths fullKey (List.replicate n 0) := by
  have text := zeroText sound spelling whole clean room
  obtain ⟨rest,split,_⟩ := keyCut spelling whole (t.root.reach (parts.map Prod.snd))
  have toks := Lib.tokensSpelled (spelling.take (t.root.reach (parts.map Prod.snd))) 0
  rw [List.replicate_zero,List.append_nil,List.map_take] at toks
  refine searchedOf sound spelling whole ?_ (text ▸ toks)
  rw [text]
  exact ⟨rest,split.symm⟩

theorem zeroWhole (sound : t.Sound) (spelling : Spelling t.delim parts)
    (whole : fullKey = spelled t.delim parts ++ List.replicate trail t.delim)
    (clean : 0 ∉ fullKey) {n : Nat} (room : fullKey.length < n)
    (found : parts.map Prod.snd ∈ t.root.paths) :
    cstr (t.longestPrefix fullKey (List.replicate n 0)).2 = fullKey ↔ trail = 0 := by
  have same := spelledTrail whole 0
  rw [List.replicate_zero,List.append_nil] at same
  rw [zeroText sound spelling whole clean room,reachedAll.mpr found,List.take_length]
  exact same

theorem copySearched (sound : t.Sound) (spelling : Spelling t.delim parts)
    (whole : fullKey = spelled t.delim parts ++ List.replicate trail t.delim)
    (clean : 0 ∉ fullKey) : Searched t t.root.paths fullKey (fullKey ++ [0]) := by
  have text := longestPrefixText sound.real (fun _ => sound.plain) spelling whole clean rfl
  have bound := Tree.reachBound t.root (parts.map Prod.snd)
  rw [List.length_map] at bound
  obtain ⟨rest,split,_,none,next⟩ := keyCut spelling whole (t.root.reach (parts.map Prod.snd))
  apply searchedOf sound spelling whole
  · rw [text]
    split
    · exact List.prefix_rfl
    · rename_i short
      split
      · exact List.nil_prefix
      · rename_i some
        have left : rest ≠ [] := by
          intro empty
          obtain ⟨beyond,still⟩ := none empty
          have low := List.drop_eq_nil_iff.mp beyond
          have begun : parts ≠ [] := fun bare => some (by simpa [bare] using bound)
          exact short ⟨Nat.le_antisymm bound low,begun,still⟩
        obtain ⟨more,behind⟩ := (next some).resolve_left left
        refine ⟨more,?_⟩
        rw [List.append_assoc,List.singleton_append,← behind]
        exact split.symm
  · rw [text]
    split
    · rename_i full
      rw [full.1,whole,Lib.tokensSpelled spelling,← List.length_map,List.take_length]
    · split
      · rename_i root
        rw [root]
        rfl
      · have toks := Lib.tokensSpelled
          (spelling.take (t.root.reach (parts.map Prod.snd))) 1
        rw [List.map_take] at toks
        exact toks

theorem copyWhole (sound : t.Sound) (spelling : Spelling t.delim parts)
    (whole : fullKey = spelled t.delim parts ++ List.replicate trail t.delim)
    (clean : 0 ∉ fullKey) (some : fullKey ≠ []) (found : parts.map Prod.snd ∈ t.root.paths) :
    cstr (t.longestPrefix fullKey (fullKey ++ [0])).2 = fullKey ↔
      trail = 0 ∨ trail = 1 ∧ parts ≠ [] := by
  have all := reachedAll.mpr found
  rw [longestPrefixText sound.real (fun _ => sound.plain) spelling whole clean all]
  split
  · rename_i full
    exact ⟨fun _ => .inl full.2.2,fun _ => rfl⟩
  · rename_i short
    have trailed : parts ≠ [] → trail ≠ 0 := fun begun still => short ⟨rfl,begun,still⟩
    split
    · rename_i zero
      have bare : parts = [] := List.length_eq_zero_iff.mp zero
      have still : trail ≠ 0 := by
        intro still
        exact some (by rw [whole,bare,still]; rfl)
      constructor
      · intro empty
        exact absurd empty.symm some
      · intro either
        rcases either with none | one
        · exact absurd none still
        · exact absurd bare one.2
    · rename_i long
      have begun : parts ≠ [] := fun bare => long (by rw [bare]; rfl)
      rw [List.take_length]
      constructor
      · intro same
        exact .inr ⟨(spelledTrail whole 1).mp same,begun⟩
      · intro either
        rcases either with none | one
        · exact absurd none (trailed begun)
        · exact (spelledTrail whole 1).mpr one.1

end Search

theorem soundAgrees {t : Trie δ} (sound : t.Sound) (fullKey : TrieKey) (some : fullKey.bytes ≠ []) :
    (∀ n, fullKey.bytes.length < n →
      (LookupsAgree t t.root.paths fullKey.bytes (List.replicate n 0) ↔
        (tokens t.delim fullKey.bytes ∈ t.root.paths → trailing t.delim fullKey.bytes = 0))) ∧
    (LookupsAgree t t.root.paths fullKey.bytes (fullKey.bytes ++ [0]) ↔
      (tokens t.delim fullKey.bytes ∈ t.root.paths → trailing t.delim fullKey.bytes = 0 ∨
        trailing t.delim fullKey.bytes = 1 ∧ tokens t.delim fullKey.bytes ≠ [])) := by
  obtain ⟨spelling,whole⟩ := Lib.spellSpelling t.delim fullKey.bytes
  have toks := Lib.tokensSpell t.delim fullKey.bytes
  have begun : tokens t.delim fullKey.bytes ≠ [] ↔ (spell t.delim fullKey.bytes).1 ≠ [] := by
    rw [toks,ne_eq,List.map_eq_nil_iff]
  constructor
  · intro n room
    rw [agreesIff (zeroSearched sound spelling whole fullKey.noNul room)]
    constructor
    · intro agree found
      exact (zeroWhole sound spelling whole fullKey.noNul room (toks ▸ found)).mp (agree found)
    · intro holds found
      exact (zeroWhole sound spelling whole fullKey.noNul room (toks ▸ found)).mpr (holds found)
  · rw [agreesIff (copySearched sound spelling whole fullKey.noNul),begun]
    constructor
    · intro agree found
      exact (copyWhole sound spelling whole fullKey.noNul some (toks ▸ found)).mp (agree found)
    · intro holds found
      exact (copyWhole sound spelling whole fullKey.noNul some (toks ▸ found)).mpr (holds found)

/-- In every trie that is only inserted into and deleted from. -/
theorem lookupsAgree {delim : UInt8} (real : delim ≠ 0) (data new : δ) (calls : List TrieCall)
    (fullKey : TrieKey) (some : fullKey.bytes ≠ []) :
    (∀ n, fullKey.bytes.length < n →
      (LookupsAgree ((init delim data).runCalls new calls) (pathCalls delim calls) fullKey.bytes
          (List.replicate n 0) ↔
        (tokens delim fullKey.bytes ∈ pathCalls delim calls →
          trailing delim fullKey.bytes = 0))) ∧
    (LookupsAgree ((init delim data).runCalls new calls) (pathCalls delim calls) fullKey.bytes
        (fullKey.bytes ++ [0]) ↔
      (tokens delim fullKey.bytes ∈ pathCalls delim calls → trailing delim fullKey.bytes = 0 ∨
        trailing delim fullKey.bytes = 1 ∧ tokens delim fullKey.bytes ≠ [])) := by
  obtain ⟨sound,same,paths⟩ := callsPaths real data new calls
  have agrees := soundAgrees sound fullKey some
  rwa [same,paths] at agrees

theorem lookupsAgreePresent :
    LookupsAgree ((init 0x2f ()).runCalls () [.insert ⟨[0x2f,0x61],by decide⟩])
      (pathCalls 0x2f [.insert ⟨[0x2f,0x61],by decide⟩]) [0x2f,0x61] ([0x2f,0x61] ++ [0]) :=
  (lookupsAgree (by decide) () () [.insert ⟨[0x2f,0x61],by decide⟩] ⟨[0x2f,0x61],by decide⟩
    (by decide)).2.mpr fun _ => .inl (by decide)

theorem lookupsDiffer :
    ¬ LookupsAgree ((init 0x2f ()).runCalls () [.insert ⟨[0x2f,0x61],by decide⟩])
      (pathCalls 0x2f [.insert ⟨[0x2f,0x61],by decide⟩]) [0x2f,0x61,0x2f]
      (List.replicate 4 0) ∧
    ¬ LookupsAgree ((init 0x2f ()).runCalls () [.insert ⟨[0x2f,0x61],by decide⟩])
      (pathCalls 0x2f [.insert ⟨[0x2f,0x61],by decide⟩]) [0x2f] ([0x2f] ++ [0]) := by
  constructor
  · intro agree
    exact absurd (agree.whole.mpr (by decide)) (by decide)
  · intro agree
    exact absurd (agree.whole.mpr (by decide)) (by decide)

end Trie
end IoApps
