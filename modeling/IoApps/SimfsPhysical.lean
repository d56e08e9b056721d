import IoApps.SimfsCheck
import IoApps.TrieSet

/-! The physical flag of a node against the disk. A name that is no longer absolute once it
has been polished is looked up on the disk from the current directory, but in the trie from
the root; without such names the flag tells whether the path of the node is on the disk. -/
namespace IoApps
open Lib (Bytes Tree Paths Prog tokens joined spelled Spelling Component)

/-- The disk has exactly the paths of `d`, for whoever asks by an absolute name. -/
structure Holds (disk : Disk) (d : Paths Bytes) : Prop where
  access : ∀ s, s.head? = some slash → s.getLast? ≠ some slash →
    (disk.access s = true ↔ tokens slash s ∈ d)
  cwd : ∀ c, disk.cwd = some c → 0 ∉ c

def Physical (d : Paths Bytes) (fs : Trie Simfs) : Prop :=
  ∀ p x, fs.root.at? p = some x → (x.physical = true ↔ p ∈ d)

structure Flagged (d : Paths Bytes) (fs : Trie Simfs) : Prop where
  delim : fs.delim = slash
  sound : fs.Sound
  flags : Physical d fs

def Rooted (fs : Trie Simfs) (text : Bytes) : Prop :=
  text.head? = some slash ∨ fs.root.reach (tokens slash text) = 0 ∨
    fs.root.reach (tokens slash text) = (tokens slash text).length

instance (fs : Trie Simfs) (text : Bytes) : Decidable (Rooted fs text) :=
  inferInstanceAs (Decidable (_ ∨ _ ∨ _))

def Ready (d : Paths Bytes) (fs : Trie Simfs) (text : Bytes) : Prop :=
  ∀ q, q <+: tokens slash text → fs.root.at? q = none → q ∉ d

theorem flaggedInit (d : Paths Bytes) : Flagged d simfsInit where
  delim := rfl
  sound := Trie.soundInit (by decide) _
  flags p x found := by
    have only : p ∈ (Tree.leaf { simfsNewTrieNode with physical := true } :
        Tree Bytes Simfs).paths := Option.isSome_iff_exists.mpr ⟨x,found⟩
    rw [Tree.pathsLeaf,Paths.memOnly] at only
    subst only
    cases found
    exact ⟨fun _ => d.root,fun _ => rfl⟩

section Edits
variable {d : Paths Bytes} {fs : Trie Simfs}

theorem Flagged.insert (flagged : Flagged d fs) {text : Bytes} (clean : 0 ∉ text) (new : Simfs)
    (right : ∀ q, q <+: tokens slash text → fs.root.at? q = none →
      (new.physical = true ↔ q ∈ d)) :
    Flagged d (fs.insert2 text new).1 ∧ (fs.insert2 text new).2 = tokens slash text ∧
      ∀ q, (fs.insert2 text new).1.root.at? q =
        if q ≠ [] ∧ q <+: tokens slash text ∧ fs.root.at? q = none then some new
        else fs.root.at? q := by
  have kept := Trie.callPaths flagged.sound new (.insert ⟨text,clean⟩)
  have run := flagged.sound.insert2 ⟨text,clean⟩ new
  rw [flagged.delim] at run
  simp only at run
  have data (q : List Bytes) : (fs.insert2 text new).1.root.at? q =
      if q ≠ [] ∧ q <+: tokens slash text ∧ fs.root.at? q = none then some new
      else fs.root.at? q := by
    rw [run]
    exact Tree.atInsert fs.root new (tokens slash text) q
  refine ⟨⟨kept.2.1.trans flagged.delim,kept.1,?_⟩,by rw [run],data⟩
  intro p x found
  rw [data] at found
  split at found
  · rename_i fresh
    cases found
    exact right p fresh.2.1 fresh.2.2
  · exact flagged.flags p x found

theorem Flagged.delete (flagged : Flagged d fs) {text : Bytes} (clean : 0 ∉ text) :
    Flagged d (fs.delete text).1 := by
  have kept := Trie.callPaths flagged.sound simfsNewTrieNode (.delete ⟨text,clean⟩)
  refine ⟨kept.2.1.trans flagged.delim,kept.1,fun p x found => ?_⟩
  rw [Trie.deleteRoot] at found
  split at found
  · exact flagged.flags p x (Tree.atRemoveSome flagged.sound.distinct found)
  · exact flagged.flags p x found

theorem Flagged.set (flagged : Flagged d fs) (n : List Bytes) {f : Simfs → Simfs}
    (same : ∀ x, (f x).physical = x.physical) : Flagged d (setSimfs fs n f) := by
  have data := Tree.atWrite fs.root f n
  refine ⟨flagged.delim,⟨flagged.sound.real,?_,?_⟩,?_⟩
  · exact Tree.distinctAdjust (g := fun node => { node with data := f node.data })
      flagged.sound.distinct (fun _ below => below) n
  · intro p inside
    refine flagged.sound.keys p ?_
    change (fs.root.at? p).isSome = true
    have there : ((setSimfs fs n f).root.at? p).isSome = true := inside
    rw [setSimfs,data] at there
    split at there
    · rwa [Option.isSome_map] at there
    · exact there
  · intro p x found
    rw [setSimfs,data] at found
    split at found
    · obtain ⟨y,before,rfl⟩ := Option.map_eq_some_iff.mp found
      rw [same]
      exact flagged.flags p y before
    · exact flagged.flags p x found

theorem setAt (n q : List Bytes) (f : Simfs → Simfs) :
    (setSimfs fs n f).root.at? q = none ↔ fs.root.at? q = none := by
  rw [setSimfs,Tree.atWrite]
  split
  · exact Option.map_eq_none_iff
  · exact Iff.rfl

end Edits
section Names

theorem squashDotDotClean {x : UInt8} {fuel : Nat} {buff out : Bytes}
    (run : squashDotDot fuel buff = .ok out) (inside : x ∈ out) : x ∈ buff := by
  induction fuel generalizing buff with
  | zero =>
    cases run
    exact inside
  | succ fuel ih =>
    rw [squashDotDot] at run
    split at run
    · cases run
      exact inside
    · split at run
      · exact List.mem_of_mem_drop (ih run)
      · split at run
        · cases run
        · rcases List.mem_append.mp (ih run) with front | back
          · exact List.mem_of_mem_take front
          · exact List.mem_of_mem_drop back

theorem squashDotClean {x : UInt8} (other : x ≠ slash) {fuel : Nat} {buff : Bytes}
    (inside : x ∈ squashDot fuel buff) : x ∈ buff := by
  induction fuel generalizing buff with
  | zero => exact inside
  | succ fuel ih =>
    rw [squashDot] at inside
    split at inside
    · exact inside
    · split at inside
      · split at inside
        · exact absurd (List.mem_singleton.mp (ih inside)) other
        · exact List.mem_of_mem_drop (ih inside)
      · rcases List.mem_append.mp (ih inside) with front | back
        · exact List.mem_of_mem_take front
        · exact List.mem_of_mem_drop back

theorem absoluteClean {cwd : Option Bytes} (here : ∀ c, cwd = some c → 0 ∉ c) {name text : Bytes}
    (clean : 0 ∉ name) {size : Nat} (run : simfsAbsoluteName cwd name size = .ok text) :
    0 ∉ text := by
  simp only [simfsAbsoluteName,bind,Except.bind] at run
  cases first : absolutePath cwd name size with
  | error f => simp [first] at run
  | ok buff =>
    rw [first] at run
    dsimp only at run
    cases second : squashDotDot (buff.length + 1) buff with
    | error f => simp [second] at run
    | ok buff' =>
      rw [second] at run
      cases run
      intro inside
      have before := squashDotDotClean second (squashDotClean (by decide) inside)
      unfold absolutePath at first
      split at first
      · split at first
        · cases first
        · rename_i c
          split at first
          · cases first
          · cases first
            have parts := List.mem_append.mp before
            simp only [List.mem_cons,show (0 : UInt8) ≠ slash by decide,false_or] at parts
            exact parts.elim (here c rfl) clean
      · cases first
        exact clean before

end Names
section Look
variable {disk : Disk} {d : Paths Bytes} {fs : Trie Simfs}

theorem locateEnsures (name : CName) : (simfsLocate disk name).Ensures fs fun r fs' => fs' = fs ∧
    simfsAbsoluteName disk.cwd name.bytes MAX_LINE = .ok r.1 ∧
      r.2.2 = cstr (fs.longestPrefix r.1 (r.1 ++ [0])).2 := by
  intro r fs' run
  obtain ⟨text,mid,named,rest⟩ := Prog.bindOk.mp run
  rw [ofExcept] at named
  cases h : simfsAbsoluteName disk.cwd name.bytes MAX_LINE with
  | error f => simp [h,Except.map] at named
  | ok text' =>
    rw [h] at named
    cases named
    cases rest
    exact ⟨rfl,rfl,rfl⟩

structure Cutting (fs : Trie Simfs) (text buff missing : Bytes) : Prop where
  whole : tokens slash buff ++ tokens slash missing = tokens slash text
  there : ∀ q, q <+: tokens slash buff → fs.root.at? q ≠ none
  clean : 0 ∉ buff
  rooted : tokens slash missing = [] ∨ buff = [] ∨ buff.head? = some slash

theorem reachLoaded {p q : List Bytes} {r : Nat} (reached : fs.root.reach p = r)
    (ahead : q <+: p.take r) : fs.root.at? q ≠ none := by
  obtain ⟨rest,same⟩ := ahead
  have walked := Tree.walkReach fs.root p
  rw [reached,← same] at walked
  have found : (fs.root.at? (q ++ rest)).isSome := by
    rw [Tree.at?,Option.isSome_map]
    exact walked
  exact Option.isSome_iff_ne_none.mp (Tree.atPrefix found)

theorem cutting (flagged : Flagged d fs) {text : Bytes} (clean : 0 ∉ text)
    (rooted : Rooted fs text) {buff : Bytes}
    (found : buff = cstr (fs.longestPrefix text (text ++ [0])).2) :
    Cutting fs text buff (text.drop (commonLength buff text)) := by
  obtain ⟨parts,trail,spelling,whole⟩ := Lib.spellingOf slash text
  have comps : tokens slash text = parts.map Prod.snd := by
    rw [whole,Lib.tokensSpelled spelling]
  have spelling' : Spelling fs.delim parts := flagged.delim ▸ spelling
  have whole' : text = spelled fs.delim parts ++ List.replicate trail fs.delim :=
    flagged.delim ▸ whole
  have search := Trie.longestPrefixText flagged.sound.real (fun _ => flagged.sound.plain)
    spelling' whole' clean rfl
  rw [← found,flagged.delim,← comps] at search
  generalize reached : fs.root.reach (tokens slash text) = r at search
  have high : r ≤ parts.length := by
    have bound := Tree.reachBound fs.root (tokens slash text)
    rwa [reached,comps,List.length_map] at bound
  split at search
  · rename_i full
    subst search
    have same : buff.drop (commonLength buff buff) = [] := by
      have all := Trie.commonLengthPrefix buff []
      rw [List.append_nil] at all
      rw [all,List.drop_length]
    rw [same]
    refine ⟨by simp [tokens],fun q ahead => ?_,clean,.inl (by simp [tokens])⟩
    refine reachLoaded reached (p := tokens slash buff) ?_
    rw [List.take_of_length_le (by rw [comps,List.length_map]; omega)]
    exact ahead
  · rename_i partial_
    split at search
    · rename_i zero
      subst search
      rw [show commonLength [] text = 0 from rfl,List.drop_zero]
      refine ⟨by simp [tokens],fun q ahead => ?_,by simp,.inr (.inl rfl)⟩
      have root : q = [] := by simpa [tokens] using ahead
      rw [root,Tree.atNil]
      simp
    · rename_i some
      obtain ⟨rest,split,behind,none,next⟩ :=
        Trie.keyCut spelling' whole' r
      rw [flagged.delim] at split behind next
      have more : rest ≠ [] := fun empty => by
        obtain ⟨beyond,still⟩ := none empty
        have low : parts.length ≤ r := List.drop_eq_nil_iff.mp beyond
        have begun : parts ≠ [] := fun bare => some (by simpa [bare] using high)
        exact partial_ ⟨by omega,begun,still⟩
      obtain ⟨tail,rfl⟩ := (next some).resolve_left more
      have front : text = buff ++ tail := by
        rw [search,split]
        simp
      have skipped : text.drop (commonLength buff text) = tail := by
        conv => lhs; rw [front]
        rw [Trie.commonLengthPrefix,List.drop_left]
      have mine : tokens slash buff = (tokens slash text).take r := by
        have one := Lib.tokensSpelled (spelling.take r) 1
        rw [search,comps,← List.map_take]
        exact one
      have left : tokens slash tail = (tokens slash text).drop r := by
        rw [← Lib.tokensDelim,behind,comps,← List.map_drop]
      rw [skipped]
      refine ⟨by rw [mine,left,List.take_append_drop],fun q ahead => ?_,?_,?_⟩
      · exact reachLoaded reached (mine ▸ ahead)
      · exact fun inside => clean (front ▸ List.mem_append_left _ inside)
      · rw [left]
        rcases rooted with absolute | zero | full
        · refine .inr (.inr ?_)
          cases buff with
          | nil => exact absurd search (by simp)
          | cons x buff => simpa [front] using absolute
        · exact absurd (reached.symm.trans zero) some
        · exact .inl (List.drop_eq_nil_of_le (by omega))

structure At (fs : Trie Simfs) (existing : Bytes) (done rest : List Bytes) : Prop where
  text : tokens slash existing = done
  clean : 0 ∉ existing
  there : ∀ q, q <+: done → fs.root.at? q ≠ none
  rooted : rest = [] ∨ existing = [] ∨ existing.head? = some slash

theorem longerText {existing s : Bytes} {done rest : List Bytes}
    (here : At fs existing done (s :: rest)) (part : Component slash s) (clean : 0 ∉ s) :
    ∃ longer, (if existing.getLast? ≠ some slash then existing ++ [slash] else existing) ++ s =
        longer ∧ tokens slash longer = done ++ [s] ∧ 0 ∉ longer ∧
      longer.head? = some slash ∧ longer.getLast? ≠ some slash := by
  obtain ⟨front,cut,text⟩ : ∃ front, (if existing.getLast? ≠ some slash
      then existing ++ [slash] else existing) = front ++ [slash] ∧
      tokens slash front = tokens slash existing := by
    split
    · exact ⟨existing,rfl,rfl⟩
    · rename_i slashed
      obtain ⟨front,rfl⟩ := List.getLast?_eq_some_iff.mp (not_not.mp slashed)
      exact ⟨front,rfl,by rw [Lib.tokensAppend]; simp [tokens]⟩
  have begins : ((if existing.getLast? ≠ some slash then existing ++ [slash] else existing)
      ++ s).head? = some slash := by
    rcases here.rooted with none | empty | absolute
    · cases none
    · simp [empty]
    · cases existing with
      | nil => cases absolute
      | cons x existing => split <;> simpa using absolute
  have ends : s.getLast? ≠ some slash := fun last =>
    part.2 (List.mem_of_getLast? last)
  have inside : 0 ∉ (if existing.getLast? ≠ some slash then existing ++ [slash] else existing) := by
    split
    · simpa using ⟨here.clean,show ¬ (0 : UInt8) = slash by decide⟩
    · exact here.clean
  refine ⟨_,rfl,?_,?_,begins,?_⟩
  · rw [cut,List.append_assoc,List.singleton_append,Lib.tokensAppend,text,here.text,
      Lib.tokensOne part]
  · exact fun h => (List.mem_append.mp h).elim inside clean
  · rw [List.getLast?_append_of_ne_nil _ part.1]
    exact ends

theorem populateLoopEnsures (holds : Holds disk d) (flagged : Flagged d fs)
    {existing : Bytes} {done rest : List Bytes} (here : At fs existing done rest)
    (parts : ∀ c ∈ rest, Component slash c ∧ 0 ∉ c) (room misOff : Nat) :
    (populateLoop disk room rest existing misOff).Ensures fs fun _ fs' => Flagged d fs' ∧
      ∀ q, q <+: done ++ rest → fs'.root.at? q = none → q ∉ d := by
  induction rest generalizing fs existing done misOff with
  | nil =>
    refine .pure ⟨flagged,fun q ahead absent => absurd absent (here.there q ?_)⟩
    rwa [List.append_nil] at ahead
  | cons s rest ih =>
    obtain ⟨part,clean⟩ := parts s List.mem_cons_self
    obtain ⟨longer,text,toks,clean',begins,ends⟩ := longerText here part clean
    have disk' := holds.access longer begins ends
    rw [toks] at disk'
    have whole : done ++ s :: rest = (done ++ [s]) ++ rest := by simp
    rw [populateLoop]
    simp only [text]
    split
    · exact .throw
    · split
      · rename_i found
        have inside : done ++ [s] ∈ d := disk'.mp found
        have right : ∀ q, q <+: tokens slash longer → fs.root.at? q = none →
            (simfsNewTrieNodePhys.physical = true ↔ q ∈ d) := fun q ahead _ =>
          ⟨fun _ => Paths.closed (toks ▸ ahead) inside,fun _ => rfl⟩
        obtain ⟨flagged₁,_,data⟩ := flagged.insert clean' simfsNewTrieNodePhys right
        refine .getBind (.modifyBind ?_)
        have sized := flagged₁.set (fs.insert2 longer simfsNewTrieNodePhys).2
          (f := fun simfs => { simfs with physSize := disk.stSize longer }) fun _ => rfl
        refine whole ▸ ih sized ⟨toks,clean',?_,.inr (.inr begins)⟩
          (fun c member => parts c (List.mem_cons_of_mem _ member)) _
        intro q ahead
        rw [ne_eq,setAt,data]
        split
        · simp
        · rename_i old
          rw [toks] at old
          intro absent
          by_cases root : q = []
          · rw [root,Tree.atNil] at absent
            cases absent
          · exact old ⟨root,ahead,absent⟩
      · rename_i missing
        refine .pure ⟨flagged,fun q ahead absent inside => ?_⟩
        rcases List.prefix_or_prefix_of_prefix (whole ▸ ahead)
          (List.prefix_append (done ++ [s]) rest)
          with short | long
        · rcases List.prefix_concat_iff.mp short with same | older
          · exact missing (disk'.mpr (same ▸ inside))
          · exact here.there q older absent
        · exact missing (disk'.mpr (Paths.closed long inside))

theorem populateEnsures (holds : Holds disk d) (flagged : Flagged d fs) {text buff : Bytes}
    (clean : 0 ∉ text) (cut : Cutting fs text buff (text.drop (commonLength buff text)))
    (room : Nat) :
    (simfsPopulate disk room buff (text.drop (commonLength buff text))).Ensures fs
      fun _ fs' => Flagged d fs' ∧ Ready d fs' text := by
  have parts : ∀ c ∈ tokens slash (text.drop (commonLength buff text)),
      Component slash c ∧ 0 ∉ c := fun c member =>
    ⟨Lib.tokensReal slash _ c member,fun zero =>
      clean (List.mem_of_mem_drop (Lib.tokensInside member zero))⟩
  have loop := populateLoopEnsures holds flagged ⟨rfl,cut.clean,cut.there,cut.rooted⟩ parts room 0
  rw [cut.whole] at loop
  exact loop.bind fun _ _ ready => .pure ready

end Look
section Operations
variable {disk : Disk} {d : Paths Bytes} {fs : Trie Simfs}

theorem deleteThen {α : Type} (flagged : Flagged d fs) {text : Bytes} (clean : 0 ∉ text) (a : α) :
    (trieDelete text >>= fun _ => pure a : SimfsProg α).Ensures fs fun _ fs' => Flagged d fs' :=
  .modifyBind (.pure (flagged.delete clean))

theorem insertEnsures (flagged : Flagged d fs) {text : Bytes} (clean : 0 ∉ text)
    (ready : Ready d fs text) (created : Bool) :
    (trieInsert text created).Ensures fs fun _ fs' => Flagged d fs' := by
  have right : ∀ q, q <+: tokens slash text → fs.root.at? q = none →
      (simfsNewTrieNode.physical = true ↔ q ∈ d) := fun q ahead absent =>
    ⟨fun yes => absurd yes (by decide),fun inside => absurd inside (ready q ahead absent)⟩
  have inserted := (flagged.insert clean simfsNewTrieNode right).1
  refine .modify ?_
  cases created with
  | false => exact inserted
  | true =>
    exact inserted.set _ (f := fun simfs => { simfs with created := true }) fun _ => rfl

theorem insertThen {α : Type} (flagged : Flagged d fs) {text : Bytes} (clean : 0 ∉ text)
    (ready : Ready d fs text) (created : Bool) (a : α) :
    (trieInsert text created >>= fun _ => pure a : SimfsProg α).Ensures fs
      fun _ fs' => Flagged d fs' :=
  (insertEnsures flagged clean ready created).bind fun _ _ kept => .pure kept

theorem located {α : Type} (holds : Holds disk d) (flagged : Flagged d fs) {name : CName}
    (rooted : ∀ text, simfsAbsoluteName disk.cwd name.bytes MAX_LINE = .ok text → Rooted fs text)
    {f : Bytes × Simfs × Bytes → SimfsProg α}
    (rest : ∀ text simfs buff, 0 ∉ text →
      (∀ room, (simfsPopulate disk room buff (text.drop (commonLength buff text))).Ensures fs
        fun _ fs' => Flagged d fs' ∧ Ready d fs' text) →
      (f (text,simfs,buff)).Ensures fs fun _ fs' => Flagged d fs') :
    (simfsLocate disk name >>= f).Ensures fs fun _ fs' => Flagged d fs' := by
  refine (locateEnsures name).bind fun r fs' found => ?_
  obtain ⟨rfl,named,text⟩ := found
  have clean := absoluteClean holds.cwd name.noNul named
  exact rest r.1 r.2.1 r.2.2 clean fun room =>
    populateEnsures holds flagged clean (cutting flagged clean (rooted _ named) text) room

theorem probeEnsures (holds : Holds disk d) (flagged : Flagged d fs) (missingRv : Option Verdict)
    {name : CName} (retval : Int32)
    (rooted : ∀ text, simfsAbsoluteName disk.cwd name.bytes MAX_LINE = .ok text → Rooted fs text) :
    (simfsProbe disk missingRv name retval).Ensures fs fun _ fs' => Flagged d fs' := by
  refine located holds flagged rooted fun text simfs buff clean populate => ?_
  dsimp only
  split
  · split
    · exact .pure flagged
    · split
      · exact deleteThen flagged clean _
      · exact .pure flagged
  · refine (populate _).bind fun r fs' ⟨kept,ready⟩ => ?_
    split
    · split
      · exact deleteThen kept clean _
      · exact .pure kept
    · split
      · exact .pure kept
      · exact insertThen kept clean ready _ _

theorem mkdirEnsures (holds : Holds disk d) (flagged : Flagged d fs) {op : MkdirOp}
    (rooted : ∀ text, simfsAbsoluteName disk.cwd op.name.bytes MAX_LINE = .ok text →
      Rooted fs text) :
    (simfsMkdir disk op).Ensures fs fun _ fs' => Flagged d fs' := by
  refine located holds flagged rooted fun text simfs buff clean populate => ?_
  refine (populate _).bind fun r fs' ⟨kept,ready⟩ => ?_
  dsimp only
  split
  · split <;> exact .pure kept
  · split
    · exact .throw
    · generalize dropSlash _ = left
      split
      · split
        · exact deleteThen kept clean _
        · exact .pure kept
      · exact insertThen kept clean ready _ _

theorem unlinkEnsures (holds : Holds disk d) (flagged : Flagged d fs) (op : UnlinkOp)
    (rooted : ∀ text, simfsAbsoluteName disk.cwd op.name.bytes MAX_LINE = .ok text →
      Rooted fs text) :
    (simfsUnlink disk op).Ensures fs fun _ fs' => Flagged d fs' := by
  refine located holds flagged rooted fun text simfs buff clean populate => ?_
  dsimp only
  split
  · exact deleteThen flagged clean _
  · refine (populate _).bind fun r fs' ⟨kept,ready⟩ => ?_
    split
    · split
      · exact deleteThen kept clean _
      · exact .pure kept
    · exact (insertEnsures kept clean ready _).bind fun _ _ kept => deleteThen kept clean _

theorem creatEnsures (holds : Holds disk d) (flagged : Flagged d fs) {op : OpenOp}
    (rooted : ∀ text, simfsAbsoluteName disk.cwd op.name.bytes MAX_LINE = .ok text →
      Rooted fs text) :
    (simfsCreat disk op).Ensures fs fun _ fs' => Flagged d fs' := by
  refine located holds flagged rooted fun text simfs buff clean populate => ?_
  refine (populate _).bind fun r fs' ⟨kept,ready⟩ => ?_
  dsimp only
  split
  · split
    · split
      · split <;> exact .pure kept
      · exact .pure kept
    · split
      · exact deleteThen kept clean _
      · exact .pure kept
  · split
    · split
      · exact .pure kept
      · exact insertThen kept clean ready _ _
    · split
      · split
        · exact deleteThen kept clean _
        · exact .pure kept
      · exact insertThen kept clean ready _ _

/-- The record's name stays absolute when it is polished, or else the trie has nothing of it
or all of it. -/
def KeepsRoot (disk : Disk) (fs : Trie Simfs) (op : FsOp) : Prop :=
  ∀ text, simfsAbsoluteName disk.cwd op.name.bytes MAX_LINE = .ok text → Rooted fs text

theorem checkEnsures (holds : Holds disk d) (flagged : Flagged d fs) {op : FsOp}
    (rooted : KeepsRoot disk fs op) :
    (op.check disk).Ensures fs fun _ fs' => Flagged d fs' := by
  cases op with
  | access o => exact probeEnsures holds flagged none o.retval rooted
  | stat o => exact probeEnsures holds flagged (some .enoent) o.retval rooted
  | mkdir o => exact (mkdirEnsures holds flagged rooted).bind fun _ _ kept => .pure kept
  | creat o => exact (creatEnsures holds flagged rooted).bind fun _ _ kept => .pure kept
  | unlink o => exact (unlinkEnsures holds flagged o rooted).bind fun _ _ kept => .pure kept
  | rmdir o =>
    exact (unlinkEnsures holds flagged ⟨o.name,o.retval,o.info⟩ rooted).bind
      fun _ _ kept => .pure kept

end Operations
section Runs

-- The states of the simulated file system after any number of calls that each meet `meets`.
inductive FsReached (disk : Disk) (meets : Trie Simfs → FsOp → Prop) : Trie Simfs → Prop where
  | init : FsReached disk meets simfsInit
  | step {fs fs' : Trie Simfs} {op : FsOp} {v : Option Verdict}
      (before : FsReached disk meets fs) (met : meets fs op)
      (ran : op.check disk fs = .ok (v,fs')) : FsReached disk meets fs'

theorem flaggedReached {disk : Disk} {d : Paths Bytes} (holds : Holds disk d) {fs : Trie Simfs}
    (reached : FsReached disk (KeepsRoot disk) fs) : Flagged d fs := by
  induction reached with
  | init => exact flaggedInit d
  | step _ met ran ih => exact checkEnsures holds ih met _ _ ran

def keepsRoot (disk : Disk) (fs : Trie Simfs) (op : FsOp) : Bool :=
  match simfsAbsoluteName disk.cwd op.name.bytes MAX_LINE with
  | .ok text => decide (Rooted fs text)
  | .error _ => true

instance (disk : Disk) (fs : Trie Simfs) (op : FsOp) : Decidable (KeepsRoot disk fs op) :=
  decidable_of_iff (keepsRoot disk fs op = true) (by
    unfold KeepsRoot keepsRoot
    cases simfsAbsoluteName disk.cwd op.name.bytes MAX_LINE <;> simp)

def checkWhile (disk : Disk) (meets : Trie Simfs → FsOp → Prop)
    [∀ fs op, Decidable (meets fs op)] : List FsOp → Trie Simfs → Option (Trie Simfs)
  | [],fs => some fs
  | op :: rest,fs =>
    if meets fs op then
      match op.check disk fs with
      | .ok (_,fs') => checkWhile disk meets rest fs'
      | .error _ => none
    else none

theorem FsReached.run {disk : Disk} {meets : Trie Simfs → FsOp → Prop}
    [∀ fs op, Decidable (meets fs op)] {ops : List FsOp} {fs fs' : Trie Simfs}
    (before : FsReached disk meets fs) (ran : checkWhile disk meets ops fs = some fs') :
    FsReached disk meets fs' := by
  induction ops generalizing fs with
  | nil =>
    cases ran
    exact before
  | cons op rest ih =>
    rw [checkWhile] at ran
    split at ran
    · rename_i met
      cases one : op.check disk fs with
      | error f =>
        rw [one] at ran
        exact absurd ran (by simp)
      | ok r =>
        rw [one] at ran
        exact ih (.step before met one) ran
    · exact absurd ran (by simp)

/-- While every name keeps its root, the flag of each node says whether its path is on the
disk. -/
theorem physicalExact {disk : Disk} {d : Paths Bytes} (holds : Holds disk d) {fs : Trie Simfs}
    (reached : FsReached disk (KeepsRoot disk) fs) : Physical d fs :=
  (flaggedReached holds reached).flags

end Runs
section Examples

def pathsOf (d : RefFs) (root : [] ∈ d) (closed : ∀ q ∈ d, ∀ p ∈ q.inits, p ∈ d) :
    Paths Bytes where
  nodes := ⟨{p | p ∈ d},fun x a h =>
    closed (x ++ [a]) h x ((List.mem_inits _ _).mpr (List.prefix_append _ _))⟩
  root := root

def diskFrom (d : RefFs) (cwd : Bytes) : Disk where
  access s := decide (tokens slash (if s.head? = some slash then s else cwd ++ slash :: s) ∈ d)
  stSize _ := 0
  cwd := some cwd

theorem diskFromHolds {d : RefFs} {cwd : Bytes} (root : [] ∈ d)
    (closed : ∀ q ∈ d, ∀ p ∈ q.inits, p ∈ d) (clean : 0 ∉ cwd) :
    Holds (diskFrom d cwd) (pathsOf d root closed) where
  access s begins _ := by
    simp only [diskFrom,begins,if_true,decide_eq_true_iff]
    rfl
  cwd c same := by
    cases same
    exact clean

def diskBX : RefFs := {[],[[0x62]],[[0x62],[0x78]],[[0x77]]}

def pathsBX : Paths Bytes := pathsOf diskBX (by decide) (by decide)

def atW : Disk := diskFrom diskBX [0x2f,0x77]

theorem atWHolds : Holds atW pathsBX := diskFromHolds (by decide) (by decide) (by decide)

def statted (name : Bytes) (noNul : 0 ∉ name) (fits : name.length < MAX_STRING) : FsOp :=
  .stat ⟨⟨name,noNul,fits⟩,0,noInfo⟩

def dotted : List FsOp := [statted [0x2f,0x62] (by decide) (by decide),
  statted [0x2f,0x2e,0x62,0x2f,0x78] (by decide) (by decide)]

def anyCall (_ : Trie Simfs) (_ : FsOp) : Prop := True

instance {fs : Trie Simfs} {op : FsOp} : Decidable (anyCall fs op) := .isTrue trivial

theorem physicalLost : ¬ ∀ (disk : Disk) (d : Paths Bytes) (fs : Trie Simfs), Holds disk d →
    FsReached disk anyCall fs → Physical d fs := by
  intro all
  have virtual : (checkWhile atW anyCall dotted simfsInit).bind
      (fun fs => fs.root.at? [[0x62],[0x78]]) = some simfsNewTrieNode := by decide
  obtain ⟨fs,ran,found⟩ := Option.bind_eq_some_iff.mp virtual
  have flags := all atW pathsBX fs atWHolds (FsReached.init.run ran) _ _ found
  have there : [[0x62],[0x78]] ∈ pathsBX := show [[0x62],[0x78]] ∈ diskBX by decide
  exact absurd (flags.mpr there) (by decide)

theorem physicalExactStat : ∃ fs, FsReached atW (KeepsRoot atW) fs ∧ Physical pathsBX fs := by
  have runs : (checkWhile atW (KeepsRoot atW) [statted [0x2f,0x62] (by decide) (by decide),
      statted [0x2f,0x62,0x2f,0x78] (by decide) (by decide)] simfsInit).isSome = true := by decide
  obtain ⟨fs,ran⟩ := Option.isSome_iff_exists.mp runs
  exact ⟨fs,FsReached.init.run ran,physicalExact atWHolds (FsReached.init.run ran)⟩

end Examples
end IoApps
