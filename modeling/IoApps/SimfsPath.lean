import IoApps.Simfs

/-! Canonical paths in the simulated file system: how the name is cut into the part the trie
has and the rest, and what one look at the disk adds. -/
namespace IoApps
open Lib (Bytes Tree Prog tokens joined spelled Spelling Component strstr)

-- An absolute path without repeated or trailing slashes and without components starting in a dot.
structure Path where
  comps : List Bytes
  proper : comps ≠ []
  parts : ∀ c ∈ comps, Component slash c ∧ 0 ∉ c ∧ c.head? ≠ some dot
  fits : (joined slash comps).length < MAX_STRING

theorem notInJoined {x : UInt8} (other : x ≠ slash) {comps : List Bytes}
    (clean : ∀ c ∈ comps, x ∉ c) : x ∉ joined slash comps := by
  simp only [joined,List.mem_flatMap,List.mem_cons,not_exists,not_and,not_or]
  exact fun c member => ⟨other,clean c member⟩

def Path.name (p : Path) : CName where
  bytes := joined slash p.comps
  noNul := notInJoined (by decide) fun c member => (p.parts c member).2.1
  fits := p.fits

theorem pathBytes (p : Path) : p.name.bytes = joined slash p.comps := rfl

theorem noSlashDot {comps : List Bytes}
    (parts : ∀ c ∈ comps, Component slash c ∧ 0 ∉ c ∧ c.head? ≠ some dot)
    (before after : Bytes) : joined slash comps ≠ before ++ slash :: dot :: after := by
  induction comps generalizing before with
  | nil => cases before <;> simp [joined]
  | cons c comps ih =>
    obtain ⟨⟨some,apart⟩,_,undotted⟩ := parts c (by simp)
    rw [Lib.joinedCons]
    intro same
    cases before with
    | nil =>
      obtain ⟨x,xs,rfl⟩ := List.exists_cons_of_ne_nil some
      simp only [List.nil_append,List.cons_append,List.cons.injEq,true_and] at same
      have head : x = dot := same.1
      exact undotted (by simp [head])
    | cons b before =>
      have tail : c ++ joined slash comps = before ++ slash :: dot :: after := by
        simpa using congrArg List.tail same
      rcases List.append_eq_append_iff.mp tail with ⟨rest,_,later⟩ | ⟨rest,inside,later⟩
      · exact ih (fun d member => parts d (List.mem_cons_of_mem _ member)) rest later
      · cases rest with
        | nil =>
          exact ih (fun d member => parts d (List.mem_cons_of_mem _ member)) []
            (by simpa using later.symm)
        | cons r rest =>
          have first : r = slash := by simpa using (congrArg List.head? later).symm
          exact apart (by simp [inside,first])

theorem absoluteName (cwd : Option Bytes) (p : Path) :
    simfsAbsoluteName cwd p.name.bytes MAX_LINE = .ok p.name.bytes := by
  have absolute : p.name.bytes.head? = some slash := by
    obtain ⟨c,comps,whole⟩ := List.exists_cons_of_ne_nil p.proper
    simp [Path.name,whole,Lib.joinedCons]
  have one : strstr [slash,dot] p.name.bytes = none :=
    Lib.strstrNone fun before after => by simpa [pathBytes] using noSlashDot p.parts before after
  have two : strstr [slash,dot,dot] p.name.bytes = none :=
    Lib.strstrNone fun before after => by
      simpa [pathBytes] using noSlashDot p.parts before (dot :: after)
  have first : absolutePath cwd p.name.bytes MAX_LINE = .ok p.name.bytes := by
    simp [absolutePath,absolute]
  simp [simfsAbsoluteName,first,squashDotDot,squashDot,one,two,bind,Except.bind]

structure Formed (fs : Trie Simfs) : Prop where
  delim : fs.delim = slash
  distinct : fs.root.Distinct

def Loaded (fs : Trie Simfs) (q : List Bytes) : Prop := (fs.root.at? q).isSome

theorem loadedReach {fs : Trie Simfs} {q : List Bytes} :
    Loaded fs q ↔ fs.root.reach q = q.length := by
  rw [Loaded,Tree.at?,Option.isSome_map,Tree.walkIffReach]

def prefixText (p : List Bytes) (m : Nat) : Bytes :=
  if m = p.length then joined slash p
  else if m = 0 then [] else joined slash (p.take m) ++ [slash]

theorem locateRun (disk : Disk) {fs : Trie Simfs} (formed : Formed fs) (p : Path) :
    ∃ simfs, simfsLocate disk p.name fs =
      .ok ((p.name.bytes,simfs,prefixText p.comps (fs.root.reach p.comps)),fs) := by
  have real : fs.delim ≠ 0 := by
    rw [formed.delim]
    decide
  have spelling : Spelling fs.delim (p.comps.map (1,·)) :=
    Lib.spellingJoined fun c member => formed.delim ▸ (p.parts c member).1
  have whole : p.name.bytes =
      spelled fs.delim (p.comps.map (1,·)) ++ List.replicate 0 fs.delim := by
    rw [pathBytes,Lib.joinedSpelled,formed.delim,List.replicate_zero,List.append_nil]
  have text : cstr (fs.longestPrefix p.name.bytes (p.name.bytes ++ [0])).2 =
      prefixText p.comps (fs.root.reach p.comps) := by
    rw [Trie.longestPrefixText real (by simp [p.proper]) spelling whole p.name.noNul rfl]
    simp [prefixText,p.proper,pathBytes,formed.delim,Lib.joinedSpelled,Function.comp_def,
      List.map_take]
  refine ⟨(fs.root.at? (fs.longestPrefix p.name.bytes (p.name.bytes ++ [0])).1).getD
    fs.root.data,?_⟩
  rw [simfsLocate,Prog.bindOf (a := p.name.bytes) (t := fs)
    (by simp [ofExcept,absoluteName,Except.map])]
  rw [Prog.bindOf (Prog.getRun fs)]
  simp only [Prog.pureRun,text]

theorem loadedRoot (fs : Trie Simfs) : Loaded fs [] := by
  simp [Loaded,Tree.atNil]

theorem setFormed {fs : Trie Simfs} (formed : Formed fs) (n : List Bytes) (f : Simfs → Simfs) :
    Formed (setSimfs fs n f) :=
  ⟨formed.delim,Tree.distinctAdjust (g := fun node => { node with data := f node.data })
    formed.distinct (fun _ below => below) n⟩

theorem setLoaded (fs : Trie Simfs) (n : List Bytes) (f : Simfs → Simfs) (q : List Bytes) :
    Loaded (setSimfs fs n f) q ↔ Loaded fs q := by
  rw [Loaded,setSimfs,Tree.atWrite]
  split <;> simp [Loaded]

def Named (comps : List Bytes) : Prop :=
  ∀ c ∈ comps, Component slash c ∧ 0 ∉ c ∧ c.head? ≠ some dot

theorem insertRun {fs : Trie Simfs} (formed : Formed fs) {comps : List Bytes} (some : comps ≠ [])
    (named : Named comps) (create : Simfs) :
    fs.insert2 (joined slash comps) create =
      ({ fs with root := fs.root.insert create comps },comps) := by
  have real : fs.delim ≠ 0 := by
    rw [formed.delim]
    decide
  have clean : 0 ∉ joined slash comps :=
    notInJoined (by decide) fun c member => (named c member).2.1
  have run := Trie.insert2Joined (t := fs) real some
    (fun c member => formed.delim ▸ (named c member).1) (formed.delim ▸ clean) create
  exact (congrArg (fun d => fs.insert2 (joined d comps) create) formed.delim).symm.trans run

theorem insertFormed {fs : Trie Simfs} (formed : Formed fs) (create : Simfs)
    (comps : List Bytes) : Formed { fs with root := fs.root.insert create comps } :=
  ⟨formed.delim,Tree.distinctInsert formed.distinct create comps⟩

theorem insertLoaded (fs : Trie Simfs) (create : Simfs) (comps q : List Bytes) :
    Loaded { fs with root := fs.root.insert create comps } q ↔ Loaded fs q ∨ q <+: comps := by
  have paths := Tree.pathsInsert fs.root create comps
  change q ∈ (fs.root.insert create comps).paths ↔ q ∈ fs.root.paths ∨ q <+: comps
  rw [paths,Lib.Paths.memInsert]

theorem lastOfJoined {comps : List Bytes} (some : comps ≠ []) (named : Named comps) :
    (joined slash comps).getLast? ≠ Option.some slash := by
  obtain ⟨front,c,rfl⟩ := List.eq_nil_or_concat comps |>.resolve_left some
  have part := (named c (by simp)).1
  obtain ⟨cs,x,rfl⟩ := List.eq_nil_or_concat c |>.resolve_left part.1
  have text : joined slash (front ++ [cs ++ [x]]) =
      joined slash front ++ slash :: cs ++ [x] := by
    simp [joined]
  intro last
  simp only [List.concat_eq_append,text,List.getLast?_append,List.getLast?_singleton,
    Option.some_or,Option.some.injEq] at last
  exact part.2 (by simp [last])

def Spelled (existing : Bytes) (done : List Bytes) : Prop :=
  existing = joined slash done ∨ existing = joined slash done ++ [slash]

theorem longerSpelled {existing s : Bytes} {done : List Bytes} (spelled : Spelled existing done)
    (named : Named done) :
    (if existing.getLast? ≠ some slash then existing ++ [slash] else existing) ++ s =
      joined slash (done ++ [s]) := by
  rw [Lib.joinedAppend,Lib.joinedCons]
  rcases spelled with rfl | rfl
  · have open_ : (joined slash done).getLast? ≠ some slash := by
      by_cases root : done = []
      · simp [root,joined]
      · exact lastOfJoined root named
    rw [if_pos open_]
    simp [joined]
  · rw [if_neg (by simp)]
    simp [joined]

structure Populated (disk : Disk) (fs fs' : Trie Simfs) (done rest : List Bytes) (k : Nat) :
    Prop where
  bound : k ≤ rest.length
  formed : Formed fs'
  loaded : ∀ q, Loaded fs' q ↔ Loaded fs q ∨ q <+: done ++ rest.take k
  onDisk : ∀ i < k, disk.access (joined slash (done ++ rest.take (i + 1))) = true
  stopped : k < rest.length → disk.access (joined slash (done ++ rest.take (k + 1))) = false

theorem populateLoopRun (disk : Disk) {fs : Trie Simfs} (formed : Formed fs)
    {done rest : List Bytes} {existing : Bytes} (spelled : Spelled existing done)
    (named : Named (done ++ rest)) (room : Nat)
    (fits : (joined slash (done ++ rest)).length ≤ room)
    (there : ∀ q, q <+: done → Loaded fs q) (misOff : Nat) :
    ∃ k existing' misOff' fs',
      populateLoop disk room rest existing misOff fs =
        .ok ((decide (k = rest.length),existing',misOff'),fs') ∧
      Populated disk fs fs' done rest k ∧
      existing' = (if k = 0 then existing else joined slash (done ++ rest.take k)) ∧
      misOff' + existing.length = misOff + existing'.length := by
  induction rest generalizing fs done existing misOff with
  | nil =>
    refine ⟨0,existing,misOff,fs,rfl,⟨Nat.le_refl 0,formed,?_,?_,?_⟩,rfl,rfl⟩
    · intro q
      simp only [List.take_nil,List.append_nil]
      exact ⟨.inl,fun h => h.elim id (there q)⟩
    · exact fun i h => absurd h (Nat.not_lt_zero i)
    · exact fun h => absurd h (Nat.lt_irrefl _)
  | cons s rest ih =>
    have front : Named done := fun c member => named c (List.mem_append_left _ member)
    have longer := longerSpelled (s := s) spelled front
    have whole : done ++ s :: rest = (done ++ [s]) ++ rest := by simp
    have inside : ¬ room < (joined slash (done ++ [s])).length := by
      rw [whole,Lib.joinedAppend,List.length_append] at fits
      omega
    have grown : (if existing.getLast? ≠ some slash then 1 else 0) + s.length +
        existing.length = (joined slash (done ++ [s])).length := by
      rw [← longer]
      split <;> simp <;> omega
    by_cases found : disk.access (joined slash (done ++ [s])) = true
    · let fs₁ : Trie Simfs := { fs with root := fs.root.insert simfsNewTrieNodePhys (done ++ [s]) }
      let fs₂ := setSimfs fs₁ (done ++ [s]) fun simfs =>
        { simfs with physSize := disk.stSize (joined slash (done ++ [s])) }
      have formed₂ : Formed fs₂ := setFormed (insertFormed formed _ _) _ _
      have loaded₂ (q : List Bytes) : Loaded fs₂ q ↔ Loaded fs q ∨ q <+: done ++ [s] :=
        (setLoaded fs₁ _ _ q).trans (insertLoaded fs _ _ q)
      have spelled₂ : Spelled (joined slash (done ++ [s])) (done ++ [s]) := .inl rfl
      obtain ⟨k,existing',misOff',fs',run,populated,text,offset⟩ :=
        ih formed₂ spelled₂
          (whole ▸ named) (whole ▸ fits) (fun q ahead => (loaded₂ q).mpr (.inr ahead))
          (misOff + (if existing.getLast? ≠ some slash then 1 else 0) + s.length)
      have inserted := insertRun formed (show done ++ [s] ≠ [] by simp)
        (fun c member => named c (by rw [whole]; exact List.mem_append_left _ member))
        simfsNewTrieNodePhys
      have took (i : Nat) : done ++ (s :: rest).take (i + 1) = (done ++ [s]) ++ rest.take i := by
        simp
      refine ⟨k + 1,existing',misOff',fs',?_,⟨?_,populated.formed,?_,?_,?_⟩,?_,?_⟩
      · rw [populateLoop]
        simp only [longer,inside,if_false,found,if_true]
        rw [Prog.bindOf (Prog.getRun fs)]
        rw [inserted,Prog.bindOf (Prog.modifyRun _ _)]
        have same : decide (k + 1 = (s :: rest).length) = decide (k = rest.length) := by simp
        rw [same]
        exact run
      · simpa using populated.bound
      · intro q
        rw [populated.loaded q,loaded₂ q,took,or_assoc]
        constructor
        · rintro (a | b | c)
          · exact .inl a
          · exact .inr (b.trans (List.prefix_append _ _))
          · exact .inr c
        · rintro (a | c)
          · exact .inl a
          · exact .inr (.inr c)
      · intro i small
        rw [took]
        cases i with
        | zero => simpa using found
        | succ i => exact populated.onDisk i (by omega)
      · intro more
        rw [took]
        exact populated.stopped (by simpa using more)
      · rw [text,took]
        split
        · rename_i zero
          simp [zero]
        · simp
      · omega
    · refine ⟨0,existing,misOff,fs,?_,⟨Nat.zero_le _,formed,?_,?_,?_⟩,rfl,rfl⟩
      · have absent : disk.access (joined slash (done ++ [s])) = false := by simpa using found
        rw [populateLoop]
        simp only [longer,inside,if_false,absent,Bool.false_eq_true]
        simp
      · intro q
        simp only [List.take_zero,List.append_nil]
        exact ⟨.inl,fun h => h.elim id (there q)⟩
      · exact fun i h => absurd h (Nat.not_lt_zero i)
      · intro _
        simpa using found

structure Frontier (disk : Disk) (fs fs' : Trie Simfs) (p : List Bytes) (m : Nat) : Prop where
  low : fs.root.reach p ≤ m
  bound : m ≤ p.length
  formed : Formed fs'
  loaded : ∀ q, Loaded fs' q ↔ Loaded fs q ∨ q <+: p.take m
  onDisk : ∀ i, fs.root.reach p ≤ i → i < m → disk.access (joined slash (p.take (i + 1))) = true
  stopped : m < p.length → disk.access (joined slash (p.take (m + 1))) = false

structure Cut (p : Path) (m : Nat) (existing missing : Bytes) : Prop where
  whole : existing ++ missing = p.name.bytes
  spelled : existing = joined slash (p.comps.take m) ∨
    m < p.comps.length ∧ existing = joined slash (p.comps.take m) ++ [slash]

theorem prefixSpelled (p : Path) {m : Nat} (bound : m ≤ p.comps.length) :
    prefixText p.comps m = joined slash (p.comps.take m) ∨
      m < p.comps.length ∧ prefixText p.comps m = joined slash (p.comps.take m) ++ [slash] := by
  rw [prefixText]
  split
  · rename_i full
    simp [full]
  · split
    · rename_i zero
      simp [zero,joined]
    · exact .inr ⟨by omega,rfl⟩

theorem joinedCut (p : Path) {m : Nat} (short : m < p.comps.length) :
    ∃ c more, p.comps.drop m = c :: more ∧ c ∈ p.comps ∧
      p.name.bytes = joined slash (p.comps.take m) ++ slash :: (c ++ joined slash more) := by
  obtain ⟨c,more,rest⟩ : ∃ c more, p.comps.drop m = c :: more :=
    List.exists_cons_of_ne_nil (by simpa using short)
  refine ⟨c,more,rest,List.mem_of_mem_drop (rest ▸ List.mem_cons_self),?_⟩
  have cut := Lib.joinedAppend slash (p.comps.take m) (p.comps.drop m)
  rwa [List.take_append_drop,rest,Lib.joinedCons] at cut

theorem prefixCut (p : Path) {m : Nat} (bound : m ≤ p.comps.length) :
    ∃ missing, p.name.bytes = prefixText p.comps m ++ missing ∧
      tokens slash missing = p.comps.drop m := by
  have parts : ∀ c ∈ p.comps.drop m, Component slash c := fun c member =>
    (p.parts c (List.mem_of_mem_drop member)).1
  rcases Nat.lt_or_eq_of_le bound with short | full
  · obtain ⟨c,more,rest,_,text⟩ := joinedCut p short
    rw [prefixText,if_neg (Nat.ne_of_lt short)]
    split
    · rename_i zero
      subst zero
      refine ⟨p.name.bytes,rfl,?_⟩
      rw [List.drop_zero] at parts ⊢
      exact Lib.tokensJoined parts
    · refine ⟨c ++ joined slash more,by simp [text],?_⟩
      have same : tokens slash (c ++ joined slash more) =
          tokens slash (joined slash (c :: more)) := by
        have cons := List.splitOnP_cons_eq_if_modifyHead (p := (· == slash)) slash
          (c ++ joined slash more)
        rw [Lib.joinedCons,tokens,tokens,cons]
        simp
      rw [same,← rest]
      exact Lib.tokensJoined parts
  · refine ⟨[],by simp [prefixText,full,pathBytes],?_⟩
    simp [full,tokens]

theorem populateRun (disk : Disk) {fs : Trie Simfs} (formed : Formed fs) (p : Path) :
    ∃ m fs' existing missing,
      simfsPopulate disk p.name.bytes.length (prefixText p.comps (fs.root.reach p.comps))
        (p.name.bytes.drop
          (commonLength (prefixText p.comps (fs.root.reach p.comps)) p.name.bytes)) fs =
        .ok ((decide (m = p.comps.length),existing,missing),fs') ∧
      Frontier disk fs fs' p.comps m ∧ Cut p m existing missing := by
  have bound := Tree.reachBound fs.root p.comps
  obtain ⟨missing,text,toks⟩ := prefixCut p bound
  have skipped : p.name.bytes.drop
      (commonLength (prefixText p.comps (fs.root.reach p.comps)) p.name.bytes) = missing := by
    conv => lhs; rw [text]
    rw [Trie.commonLengthPrefix,List.drop_left]
  have spelled := prefixSpelled p bound
  have split : p.comps.take (fs.root.reach p.comps) ++ p.comps.drop (fs.root.reach p.comps) =
      p.comps := List.take_append_drop _ _
  have there : ∀ q, q <+: p.comps.take (fs.root.reach p.comps) → Loaded fs q := by
    rintro q ⟨r,same⟩
    have found : (fs.root.at? (q ++ r)).isSome := by
      rw [same,Tree.at?,Option.isSome_map]
      exact Tree.walkReach _ _
    exact Tree.atPrefix found
  obtain ⟨k,existing',misOff',fs',run,populated,text',offset⟩ :=
    populateLoopRun disk formed (spelled.imp_right And.right)
      (by rw [split]; exact p.parts) p.name.bytes.length
      (by rw [split]; exact Nat.le_refl _) there 0
  have small : k ≤ p.comps.length - fs.root.reach p.comps := by
    simpa using populated.bound
  have took (i : Nat) : p.comps.take (fs.root.reach p.comps) ++
      (p.comps.drop (fs.root.reach p.comps)).take i =
      p.comps.take (fs.root.reach p.comps + i) := by
    rw [List.take_add]
  have full : decide (k = (p.comps.drop (fs.root.reach p.comps)).length) =
      decide (fs.root.reach p.comps + k = p.comps.length) := by
    rw [List.length_drop]
    congr 1
    exact propext (by omega)
  refine ⟨fs.root.reach p.comps + k,fs',existing',missing.drop misOff',?_,?_,?_⟩
  · rw [skipped,simfsPopulate,toks,Prog.bindOf run,full]
    by_cases zero : misOff' = 0
    · simp [zero]
    · simp [zero]
  · refine ⟨Nat.le_add_right _ _,by omega,populated.formed,?_,?_,?_⟩
    · intro q
      rw [populated.loaded q,took]
    · intro i low high
      have here := populated.onDisk (i - fs.root.reach p.comps) (by omega)
      rwa [took,show fs.root.reach p.comps + (i - fs.root.reach p.comps + 1) = i + 1 by omega]
        at here
    · intro more
      have here := populated.stopped (by rw [List.length_drop]; omega)
      rwa [took] at here
  · rw [took] at text'
    by_cases none : k = 0
    · subst none
      rw [if_pos rfl] at text'
      have zero : misOff' = 0 := by
        rw [text'] at offset
        omega
      refine ⟨by rw [text',zero,List.drop_zero,text],?_⟩
      rw [text']
      exact spelled
    · rw [if_neg none] at text'
      refine ⟨?_,.inl text'⟩
      have front : joined slash (p.comps.take (fs.root.reach p.comps + k)) ++
          joined slash (p.comps.drop (fs.root.reach p.comps + k)) = p.name.bytes := by
        rw [← Lib.joinedAppend,List.take_append_drop,pathBytes]
      have behind : missing.drop misOff' = p.name.bytes.drop existing'.length := by
        have beyond : (prefixText p.comps (fs.root.reach p.comps)).drop existing'.length = [] :=
          List.drop_eq_nil_of_le (by omega)
        rw [text,List.drop_append,beyond,List.nil_append]
        congr 1
        omega
      rw [behind,text',← front,List.drop_left]

section Cut
variable {p : Path} {m : Nat} {existing missing : Bytes}

theorem cutFull (bound : m ≤ p.comps.length) (cut : Cut p m existing missing) :
    p.name.bytes = existing ↔ m = p.comps.length := by
  constructor
  · intro same
    by_contra differs
    obtain ⟨c,more,_,member,text⟩ := joinedCut p (Nat.lt_of_le_of_ne bound differs)
    obtain ⟨x,xs,rfl⟩ := List.exists_cons_of_ne_nil (p.parts c member).1.1
    rcases cut.spelled with plain | ⟨_,slashed⟩
    · have := congrArg List.length (text.symm.trans (same.trans plain))
      simp at this
    · have := congrArg List.length (text.symm.trans (same.trans slashed))
      simp at this
  · rintro rfl
    rcases cut.spelled with plain | ⟨short,_⟩
    · rw [plain,List.take_length,pathBytes]
    · exact absurd short (Nat.lt_irrefl _)

theorem cutMissing (short : m < p.comps.length) (cut : Cut p m existing missing) :
    ∃ c more, p.comps.drop m = c :: more ∧
      dropSlash missing = c ++ joined slash more ∧ (missing.getLast? = p.name.bytes.getLast?) := by
  obtain ⟨c,more,rest,member,text⟩ := joinedCut p short
  obtain ⟨⟨some,apart⟩,_⟩ := p.parts c member
  obtain ⟨x,xs,rfl⟩ := List.exists_cons_of_ne_nil some
  have other : x ≠ slash := fun same => apart (by simp [same])
  have last (some : missing ≠ []) : missing.getLast? = p.name.bytes.getLast? := by
    rw [← cut.whole,List.getLast?_append_of_ne_nil _ some]
  refine ⟨x :: xs,more,rest,?_⟩
  rcases cut.spelled with plain | ⟨_,slashed⟩
  · have tail : missing = slash :: (x :: xs ++ joined slash more) := by
      have whole := cut.whole
      rw [plain,text] at whole
      exact List.append_cancel_left whole
    exact ⟨by simp [dropSlash,tail],last (by simp [tail])⟩
  · have tail : missing = x :: xs ++ joined slash more := by
      have whole := cut.whole
      rw [slashed,text,List.append_assoc] at whole
      simpa using List.append_cancel_left whole
    exact ⟨by simp [dropSlash,tail,other],last (by simp [tail])⟩

theorem slashCount {c : Bytes} {more : List Bytes} (first : slash ∉ c)
    (others : ∀ x ∈ more, slash ∉ x) :
    strccount (c ++ joined slash more) slash = more.length := by
  rw [strccount,List.count_append,List.count_eq_zero_of_not_mem first,Nat.zero_add]
  induction more with
  | nil => rfl
  | cons d more ih =>
    rw [Lib.joinedCons,List.count_cons_self,List.count_append,
      List.count_eq_zero_of_not_mem (others d (by simp)),
      ih fun x member => others x (List.mem_cons_of_mem _ member)]
    simp

theorem wouldSuccIff (short : m < p.comps.length) (cut : Cut p m existing missing) :
    strccount (dropSlash missing) slash = 0 ↔ m + 1 = p.comps.length := by
  obtain ⟨c,more,rest,text,_⟩ := cutMissing short cut
  have apart : ∀ x ∈ c :: more, slash ∉ x := fun x member =>
    (p.parts x (List.mem_of_mem_drop (rest ▸ member))).1.2
  rw [text,slashCount (apart c (by simp)) fun x member => apart x (List.mem_cons_of_mem _ member)]
  have size := congrArg List.length rest
  simp only [List.length_drop,List.length_cons] at size
  omega

theorem cutLast (short : m < p.comps.length) (cut : Cut p m existing missing) :
    ∃ last, missing.getLast? = some last ∧ last ≠ slash := by
  obtain ⟨c,more,_,_,same⟩ := cutMissing short cut
  have plain := lastOfJoined p.proper p.parts
  rw [same,pathBytes]
  cases h : (joined slash p.comps).getLast? with
  | none =>
    obtain ⟨d,ds,whole⟩ := List.exists_cons_of_ne_nil p.proper
    rw [whole,Lib.joinedCons] at h
    simp at h
  | some last => exact ⟨last,rfl,fun same => plain (same ▸ h)⟩

end Cut

theorem prefixFull (p : Path) {m : Nat} (bound : m ≤ p.comps.length) :
    p.name.bytes = prefixText p.comps m ↔ m = p.comps.length := by
  obtain ⟨missing,text,_⟩ := prefixCut p bound
  exact cutFull bound ⟨text.symm,prefixSpelled p bound⟩

theorem trieInsertRun {fs : Trie Simfs} (formed : Formed fs) (p : Path) (created : Bool) :
    ∃ fs', trieInsert p.name.bytes created fs = .ok ((),fs') ∧ Formed fs' ∧
      ∀ q, Loaded fs' q ↔ Loaded fs q ∨ q <+: p.comps := by
  have inserted := insertRun formed p.proper p.parts simfsNewTrieNode
  let fs₁ : Trie Simfs := { fs with root := fs.root.insert simfsNewTrieNode p.comps }
  have formed₁ : Formed fs₁ := insertFormed formed _ _
  have loaded₁ := insertLoaded fs simfsNewTrieNode p.comps
  cases created with
  | false =>
    refine ⟨fs₁,?_,formed₁,loaded₁⟩
    simp only [trieInsert,Prog.modifyRun,pathBytes,inserted]
    rfl
  | true =>
    refine ⟨setSimfs fs₁ p.comps fun simfs => { simfs with created := true },?_,
      setFormed formed₁ _ _,fun q => (setLoaded _ _ _ q).trans (loaded₁ q)⟩
    simp only [trieInsert,Prog.modifyRun,pathBytes,inserted]
    rfl

theorem trieDeleteRun {fs : Trie Simfs} (formed : Formed fs) (p : Path) :
    ∃ fs', trieDelete p.name.bytes fs = .ok ((),fs') ∧ Formed fs' ∧
      ∀ q, Loaded fs' q ↔ Loaded fs q ∧ ¬ p.comps <+: q := by
  have parts : ∀ c ∈ p.comps, Component fs.delim c := fun c member =>
    formed.delim ▸ (p.parts c member).1
  have found := Trie.findJoined parts
  rw [formed.delim] at found
  cases node : fs.root.walk p.comps with
  | none =>
    have same : fs.delete p.name.bytes = (fs,.err) := by
      rw [Trie.delete,pathBytes,found,node]
      rfl
    refine ⟨fs,by rw [trieDelete,Prog.modifyRun,same],formed,?_⟩
    intro q
    refine ⟨fun there => ⟨there,?_⟩,And.left⟩
    rintro ⟨r,rfl⟩
    have here : (fs.root.at? p.comps).isSome := Tree.atPrefix there
    rw [Tree.at?,node] at here
    exact absurd here (by simp)
  | some n =>
    have removed : (fs.delete p.name.bytes).1 = { fs with root := fs.root.remove p.comps } := by
      rw [Trie.delete,pathBytes,found,node]
      simp [Trie.delete2,node]
    refine ⟨{ fs with root := fs.root.remove p.comps },by rw [trieDelete,Prog.modifyRun,removed],
      ⟨formed.delim,Tree.distinctRemove formed.distinct _⟩,?_⟩
    intro q
    have paths := Tree.pathsRemove formed.distinct p.comps
    change q ∈ (fs.root.remove p.comps).paths ↔ q ∈ fs.root.paths ∧ ¬ p.comps <+: q
    rw [paths,Lib.Paths.memDeleteBelow p.proper]

end IoApps
