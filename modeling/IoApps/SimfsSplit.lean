import IoApps.SimfsLookup

/-! How a name without empty components is split against the disk: what the look at the disk
makes of the part the trie has, of the part it does not have, and of the trie. -/
namespace IoApps
open Lib (Bytes Tree Prog tokens joined Component)

def absoluteText (comps : List Bytes) : Bytes :=
  if comps = [] then [slash] else joined slash comps

def existingPart (fs : Trie Simfs) (name : Bytes) : Bytes :=
  cstr (fs.longestPrefix name (name ++ [0])).2

def missingPart (fs : Trie Simfs) (name : Bytes) : Bytes :=
  name.drop (commonLength (existingPart fs name) name)

theorem locateParts {disk : Disk} {name : CName} {fs fs' : Trie Simfs} {text buff : Bytes}
    {simfs : Simfs} (ran : simfsLocate disk name fs = .ok ((text,simfs,buff),fs')) :
    fs' = fs ∧ buff = existingPart fs text := by
  obtain ⟨name',mid,named,rest⟩ := Prog.bindOk.mp ran
  obtain ⟨_,_,got,last⟩ := Prog.bindOk.mp rest
  cases got
  cases last
  rw [ofExcept] at named
  cases absolute : simfsAbsoluteName disk.cwd name.bytes MAX_LINE with
  | error e =>
    rw [absolute] at named
    cases named
  | ok text' =>
    rw [absolute] at named
    cases named
    exact ⟨rfl,rfl⟩

/-- What becomes of the two parts when the next `k` components are on the disk. -/
structure Split (disk : Disk) (fs fs' : Trie Simfs)
    (name existing missing existing' missing' : Bytes) (rv : Bool) (k : Nat) : Prop where
  before : tokens slash existing ++ tokens slash missing = tokens slash name
  after : tokens slash existing' ++ tokens slash missing' = tokens slash name
  whole : existing' ++ missing' = name
  bound : k ≤ (tokens slash missing).length
  extended : tokens slash existing' = tokens slash existing ++ (tokens slash missing).take k
  onDisk : ∀ i < k, disk.access
    (joined slash (tokens slash existing ++ (tokens slash missing).take (i + 1))) = true
  stopped : k < (tokens slash missing).length → disk.access
    (joined slash (tokens slash existing ++ (tokens slash missing).take (k + 1))) = false
  fresh : ∀ i < k,
    tokens slash existing ++ (tokens slash missing).take (i + 1) ∉ fs.root.paths
  added : ∀ q, q ∈ fs'.root.paths ↔ q ∈ fs.root.paths ∨
    ∃ i < k, q = tokens slash existing ++ (tokens slash missing).take (i + 1)
  result : rv = true ↔ tokens slash missing' = []

theorem absoluteTextClean {comps : List Bytes} (clean : ∀ c ∈ comps, 0 ∉ c) :
    0 ∉ absoluteText comps := by
  rw [absoluteText]
  split
  · decide
  · exact notInJoined (by decide) clean

section Text
variable {comps : List Bytes} (parts : ∀ c ∈ comps, Component slash c)
include parts

theorem absoluteTokens : tokens slash (absoluteText comps) = comps := by
  rw [absoluteText]
  split
  · rename_i root
    rw [root]
    rfl
  · exact Lib.tokensJoined parts

theorem frontJoined (some : comps ≠ []) (r : Nat) :
    frontText (absoluteText comps) r = joined slash (comps.take r) := by
  rw [frontText,absoluteText,if_neg some,Lib.spellJoined parts,Lib.joinedSpelled,List.map_take]

theorem askedJoined (some : comps ≠ []) {r m : Nat} (low : r ≤ m + 1) :
    asked (absoluteText comps) r m = joined slash (comps.take (m + 1)) := by
  rw [asked,absoluteTokens parts,frontJoined parts some,← Lib.joinedAppend]
  conv => rhs; rw [← List.take_append_drop r (comps.take (m + 1))]
  rw [List.take_take,Nat.min_eq_left low]

theorem buffShorter {r m : Nat} (more : r < m) (bound : m ≤ comps.length) :
    (buffText (absoluteText comps) r).length ≤ (joined slash (comps.take m)).length := by
  have some : comps ≠ [] := by
    intro root
    rw [root,List.length_nil] at bound
    omega
  rw [buffText,absoluteTokens parts,if_neg (by omega)]
  split
  · exact Nat.zero_le _
  · have cut : comps.take m = comps.take r ++ (comps.take m).drop r := by
      conv => lhs; rw [← List.take_append_drop r (comps.take m)]
      rw [List.take_take,Nat.min_eq_left (Nat.le_of_lt more)]
    obtain ⟨c,rest,next⟩ : ∃ c rest, (comps.take m).drop r = c :: rest := by
      refine List.exists_cons_of_ne_nil fun empty => ?_
      have size := congrArg List.length empty
      rw [List.length_drop,List.length_take,List.length_nil] at size
      omega
    rw [frontJoined parts some,cut,next,Lib.joinedAppend,Lib.joinedCons]
    simp only [List.length_append,List.length_cons,List.length_nil]
    omega

theorem endsAt {r m : Nat} (low : r ≤ m) (bound : m ≤ comps.length) {existing missing : Bytes}
    (text : existing = if m = r then buffText (absoluteText comps) r
      else asked (absoluteText comps) r (m - 1))
    (left : missing = (missingText (absoluteText comps) r).drop
      (existing.length - (buffText (absoluteText comps) r).length)) :
    existing ++ missing = absoluteText comps ∧ tokens slash existing = comps.take m ∧
      tokens slash missing = comps.drop m := by
  have toks := absoluteTokens parts
  have inside : r ≤ (tokens slash (absoluteText comps)).length := by
    rw [toks]
    omega
  obtain ⟨whole,rest⟩ := missingCut inside
  rw [toks] at rest
  by_cases same : m = r
  · subst same
    rw [if_pos rfl] at text
    rw [text,Nat.sub_self,List.drop_zero] at left
    rw [text,left,tokensBuff,toks]
    exact ⟨whole.symm,rfl,rest⟩
  · have some : comps ≠ [] := by
      intro root
      rw [root,List.length_nil] at bound
      omega
    have long := buffShorter parts (show r < m by omega) bound
    have name : absoluteText comps =
        joined slash (comps.take m) ++ joined slash (comps.drop m) := by
      rw [absoluteText,if_neg some,← Lib.joinedAppend,List.take_append_drop]
    rw [if_neg same,askedJoined parts some (by omega),show m - 1 + 1 = m by omega] at text
    have tail : missing = joined slash (comps.drop m) := by
      have cut : (absoluteText comps).drop existing.length = missing := by
        rw [left]
        conv => lhs; rw [whole]
        rw [List.drop_append,List.drop_eq_nil_of_le (text ▸ long),List.nil_append]
      rw [← cut,name,text,List.drop_left]
    refine ⟨by rw [text,tail,name],?_,?_⟩
    · rw [text]
      exact Lib.tokensJoined fun c member => parts c (List.mem_of_mem_take member)
    · rw [tail]
      exact Lib.tokensJoined fun c member => parts c (List.mem_of_mem_drop member)

end Text

theorem addedPaths {fs fs' : Trie Simfs} {comps : List Bytes} {r k : Nat}
    (reached : fs.root.reach comps = r) (bound : r + k ≤ comps.length)
    (grown : Grown fs fs' (comps.take (r + k))) (q : List Bytes) :
    q ∈ fs'.root.paths ↔ q ∈ fs.root.paths ∨ ∃ i < k, q = comps.take (r + (i + 1)) := by
  have same : q ∈ fs'.root.paths ↔ q ∈ fs.root.paths ∨ q <+: comps.take (r + k) := grown.loaded q
  rw [same]
  constructor
  · intro either
    rcases either with old | ahead
    · exact .inl old
    · have cut := List.prefix_iff_eq_take.mp (ahead.trans (List.take_prefix _ _))
      have size := ahead.length_le
      rw [List.length_take] at size
      rcases Nat.lt_or_ge r q.length with beyond | inside
      · exact .inr ⟨q.length - r - 1,by omega,by rw [cut]; congr 1; rw [List.length_take]; omega⟩
      · refine .inl ?_
        have found := Tree.walkReach fs.root comps
        rw [← Tree.memPaths] at found
        rw [cut]
        exact Lib.Paths.closed (List.take_prefix_take_left (reached ▸ inside)) found
  · intro either
    rcases either with old | ⟨i,small,same⟩
    · exact .inl old
    · exact .inr (same ▸ List.take_prefix_take_left (by omega))

/-- Whatever the trie and the disk hold: the components stay, and the existing part grows by
the components that are on the disk, which the trie then has as well. -/
theorem populateSplits (disk : Disk) {fs : Trie Simfs} (keyed : Keyed fs) {comps : List Bytes}
    (parts : ∀ c ∈ comps, Component slash c ∧ 0 ∉ c) :
    ∃ fs' existing' missing' rv k,
      simfsPopulate disk (absoluteText comps).length (existingPart fs (absoluteText comps))
        (missingPart fs (absoluteText comps)) fs =
          .ok ((rv,existing',missing'),fs') ∧
      Split disk fs fs' (absoluteText comps) (existingPart fs (absoluteText comps))
        (missingPart fs (absoluteText comps)) existing' missing' rv k := by
  have real : ∀ c ∈ comps, Component slash c := fun c member => (parts c member).1
  have toks := absoluteTokens real
  have clean := absoluteTextClean fun c member => (parts c member).2
  obtain ⟨r,reached⟩ : ∃ r, fs.root.reach comps = r := ⟨_,rfl⟩
  have reached' : fs.root.reach (tokens slash (absoluteText comps)) = r := by rw [toks,reached]
  have high : r ≤ comps.length := reached ▸ Tree.reachBound fs.root comps
  have first : existingPart fs (absoluteText comps) = buffText (absoluteText comps) r :=
    (prefixBuff keyed clean reached').1
  have second : missingPart fs (absoluteText comps) = missingText (absoluteText comps) r := by
    rw [missingPart,first,missingText]
  have front : tokens slash (buffText (absoluteText comps) r) = comps.take r := by
    rw [tokensBuff,toks]
  have rest : tokens slash (missingText (absoluteText comps) r) = comps.drop r := by
    rw [(missingCut (by rw [toks]; exact high)).2,toks]
  have took (i : Nat) : comps.take r ++ (comps.drop r).take i = comps.take (r + i) :=
    List.take_add.symm
  have fits (j : Nat) (low : r ≤ j) (short : j < comps.length) :
      (asked (absoluteText comps) r j).length ≤ (absoluteText comps).length := by
    have some : comps ≠ [] := by
      intro root
      rw [root,List.length_nil] at short
      omega
    rw [askedJoined real some (by omega),absoluteText,if_neg some]
    conv => rhs; rw [← List.take_append_drop (j + 1) comps]
    rw [Lib.joinedAppend,List.length_append]
    exact Nat.le_add_right _ _
  have asks (j : Nat) (low : r ≤ j) (short : j < comps.length) :
      asked (absoluteText comps) r j = joined slash (comps.take (j + 1)) := by
    refine askedJoined real (fun root => ?_) (by omega)
    rw [root,List.length_nil] at short
    omega
  obtain ⟨m,low,bound,ahead,ends⟩ := populateText disk keyed clean reached'
  rw [toks] at bound ends
  obtain ⟨existing,missing,fs',run,grown,absent,text,left⟩ := ends.resolve_right fun long =>
    absurd (fits m low long.1) (Nat.not_le.mpr long.2.1)
  obtain ⟨whole,done,more⟩ := endsAt real low bound text left
  have apart : tokens slash existing ++ tokens slash missing = comps := by
    rw [done,more,List.take_append_drop]
  have size : r + (m - r) = m := by omega
  refine ⟨fs',existing,missing,decide (m = comps.length),m - r,?_,?_⟩
  · rw [first,second,run]
  · rw [first,second]
    refine ⟨?_,apart.trans toks.symm,whole,?_,?_,?_,?_,?_,?_,?_⟩
    · rw [front,rest,toks,List.take_append_drop]
    · rw [rest,List.length_drop]
      omega
    · rw [front,rest,took,size,done]
    · intro i small
      rw [front,rest,took,← Nat.add_assoc,← asks (r + i) (by omega) (by omega)]
      exact ahead.found (r + i) (by omega) (by omega)
    · intro short
      rw [rest,List.length_drop] at short
      rw [front,rest,took,← Nat.add_assoc,size,← asks m low (by omega)]
      exact (absent (by omega)).2
    · intro i small inside
      rw [front,rest,took,Tree.memPaths] at inside
      have reach := Tree.reachMax (by omega) inside
      omega
    · intro q
      rw [front,rest]
      simp only [took]
      exact addedPaths reached (by omega) (size.symm ▸ grown) q
    · rw [more,List.drop_eq_nil_iff,decide_eq_true_iff]
      omega

def nameComps : List Bytes := [[0x62],[0x78]]

theorem populateSplitsTwo :
    ∃ fs' existing' missing' rv k,
      simfsPopulate atW (absoluteText nameComps).length
        (existingPart simfsInit (absoluteText nameComps))
        (missingPart simfsInit (absoluteText nameComps)) simfsInit =
          .ok ((rv,existing',missing'),fs') ∧
      Split atW simfsInit fs' (absoluteText nameComps)
        (existingPart simfsInit (absoluteText nameComps))
        (missingPart simfsInit (absoluteText nameComps)) existing' missing' rv k :=
  populateSplits atW keyedInit (by decide)

end IoApps
