import IoApps.SimfsRepeat

/-! One path in two spellings: which of the operations tell repeated or trailing slashes apart,
and in which states. -/
namespace IoApps
open Lib (Bytes Tree Paths Prog tokens joined spelled Spelling Component strstr)

section Plain

/-- An absolute name without components that begin with a dot, however it is spelled. -/
structure Plain (name : CName) : Prop where
  absolute : name.bytes.head? = some slash
  undotted : ∀ c ∈ tokens slash name.bytes, c.head? ≠ some dot

theorem plainNoDot {name : CName} (plain : Plain name) (before after : Bytes) :
    name.bytes ≠ before ++ slash :: dot :: after := by
  intro same
  obtain ⟨c,rest,first⟩ := Lib.tokensFirst (show dot ≠ slash by decide) after
  have member : dot :: c ∈ tokens slash name.bytes := by
    rw [same,Lib.tokensAppend,first]
    simp
  exact plain.undotted _ member rfl

theorem plainName (cwd : Option Bytes) {name : CName} (plain : Plain name) :
    simfsAbsoluteName cwd name.bytes MAX_LINE = .ok name.bytes := by
  have one : strstr [slash,dot] name.bytes = none :=
    Lib.strstrNone fun before after => by simpa using plainNoDot plain before after
  have two : strstr [slash,dot,dot] name.bytes = none :=
    Lib.strstrNone fun before after => by simpa using plainNoDot plain before (dot :: after)
  have first : absolutePath cwd name.bytes MAX_LINE = .ok name.bytes := by
    simp [absolutePath,plain.absolute]
  simp [simfsAbsoluteName,first,squashDotDot,squashDot,one,two,bind,Except.bind]

end Plain
section Absolute
variable {text : Bytes}

theorem runsPositive (absolute : text.head? = some slash) :
    ∀ p ∈ (Lib.spell slash text).1, 0 < p.1 := by
  obtain ⟨spelling,whole⟩ := Lib.spellSpelling slash text
  intro p member
  cases parts : (Lib.spell slash text).1 with
  | nil => simp [parts] at member
  | cons q more =>
    rw [parts] at member whole spelling
    rcases List.mem_cons.mp member with rfl | later
    · by_contra zero
      obtain ⟨x,xs,letters⟩ := List.exists_cons_of_ne_nil (spelling.real p List.mem_cons_self).1
      rw [Lib.spelledCons,Nat.eq_zero_of_not_pos zero,letters] at whole
      rw [whole] at absolute
      have first : x = slash := by simpa using absolute
      exact (spelling.real p List.mem_cons_self).2 (by simp [letters,first])
    · exact spelling.apart p later

theorem joinedInside {parts : List (Nat × Bytes)} (positive : ∀ p ∈ parts, 0 < p.1) :
    (joined slash (parts.map Prod.snd)).Sublist (spelled slash parts) := by
  induction parts with
  | nil => exact List.Sublist.refl _
  | cons p parts ih =>
    obtain ⟨n,run⟩ := Nat.exists_eq_add_one.mpr (positive p List.mem_cons_self)
    rw [List.map_cons,Lib.joinedCons,Lib.spelledCons,run,List.replicate_succ',
      List.append_assoc,List.singleton_append]
    refine (List.Sublist.cons_cons slash ?_).trans (List.sublist_append_right _ _)
    exact List.Sublist.append (List.Sublist.refl _)
      (ih fun q member => positive q (List.mem_cons_of_mem _ member))

theorem askedInside (absolute : text.head? = some slash) (r m : Nat) :
    (asked text r m).Sublist text := by
  obtain ⟨_,whole⟩ := Lib.spellSpelling slash text
  have positive := runsPositive absolute
  have behind : (joined slash (((tokens slash text).take (m + 1)).drop r)).Sublist
      (spelled slash ((Lib.spell slash text).1.drop r)) := by
    rw [Lib.tokensSpell,List.drop_take,← List.map_drop,← List.map_take]
    refine (joinedInside fun p member => positive p ?_).trans ?_
    · exact List.mem_of_mem_drop (List.mem_of_mem_take member)
    · conv => rhs; rw [← List.take_append_drop (m + 1 - r) ((Lib.spell slash text).1.drop r)]
      rw [Lib.spelledAppend]
      exact List.sublist_append_left _ _
  have cut : text = frontText text r ++ (spelled slash ((Lib.spell slash text).1.drop r) ++
      List.replicate (Lib.spell slash text).2 slash) := by
    rw [frontText,← List.append_assoc,← Lib.spelledAppend,List.take_append_drop]
    exact whole
  conv => rhs; rw [cut]
  exact List.Sublist.append (List.Sublist.refl _)
    (behind.trans (List.sublist_append_left _ _))

theorem frontAbsolute (absolute : text.head? = some slash) (r : Nat) :
    frontText text r = [] ∨ (frontText text r).head? = some slash := by
  obtain ⟨rest,split,_⟩ := textCut text r
  cases front : frontText text r with
  | nil => exact .inl rfl
  | cons x xs =>
    rw [front] at split
    rw [split] at absolute
    exact .inr (by simpa using absolute)

theorem tokensAsked {r m : Nat} (low : r ≤ m + 1) :
    tokens slash (asked text r m) = (tokens slash text).take (m + 1) := by
  rw [asked,tokensJoin fun c member => Lib.tokensReal slash text c
    (List.mem_of_mem_take (List.mem_of_mem_drop member)),tokensFront]
  conv => rhs; rw [← List.take_append_drop r ((tokens slash text).take (m + 1))]
  rw [List.take_take,Nat.min_eq_left low]

theorem askedText (absolute : text.head? = some slash) {r m : Nat} (low : r ≤ m)
    (short : m < (tokens slash text).length) : (asked text r m).head? = some slash ∧
      (asked text r m).getLast? ≠ some slash := by
  obtain ⟨c,more,rest⟩ : ∃ c more, ((tokens slash text).take (m + 1)).drop r = c :: more := by
    refine List.exists_cons_of_ne_nil fun empty => ?_
    have size := congrArg List.length empty
    rw [List.length_drop,List.length_take,List.length_nil] at size
    omega
  have parts : ∀ x ∈ c :: more, Component slash x := fun x member =>
    Lib.tokensReal slash text x (List.mem_of_mem_take (List.mem_of_mem_drop (rest ▸ member)))
  rw [asked,rest]
  constructor
  · rcases frontAbsolute absolute r with empty | begins
    · rw [empty]
      rfl
    · cases front : frontText text r with
      | nil => rfl
      | cons x xs => rw [front] at begins; exact begins
  · rw [List.getLast?_append_of_ne_nil _ (by simp [joined])]
    obtain ⟨front,last,split⟩ := List.eq_nil_or_concat (c :: more) |>.resolve_left (by simp)
    rw [split,List.concat_eq_append,Lib.joinedAppend]
    have part := parts last (by rw [split]; simp)
    have text' : joined slash [last] = [slash] ++ last := by simp [joined]
    rw [text',← List.append_assoc,List.getLast?_append_of_ne_nil _ part.1]
    exact fun ends => part.2 (List.mem_of_getLast? ends)

theorem plainThere (absolute : text.head? = some slash) {r : Nat}
    (bound : r ≤ (tokens slash text).length) : text = buffText text r ↔
      tokens slash text ≠ [] ∧ r = (tokens slash text).length ∧ trailing text ≤ 1 := by
  rw [textThere bound]
  constructor
  · intro there
    obtain ⟨full,trail⟩ := there
    refine ⟨fun root => ?_,full,by omega⟩
    have zero : r = 0 := by
      rw [root] at bound
      exact Nat.le_zero.mp bound
    have still : trailing text = 0 := by omega
    obtain ⟨_,whole⟩ := Lib.spellSpelling slash text
    have none : (Lib.spell slash text).1 = [] :=
      List.length_eq_zero_iff.mp (by rw [countParts,root,List.length_nil])
    rw [none,show (Lib.spell slash text).2 = 0 from still] at whole
    rw [whole] at absolute
    exact absurd absolute (by simp)
  · intro there
    obtain ⟨below,full,few⟩ := there
    have some : r ≠ 0 := fun zero => below (List.length_eq_zero_iff.mp (full.symm.trans zero))
    exact ⟨full,by omega⟩

end Absolute
section Known
variable {disk : Disk} {d : Paths Bytes} {fs : Trie Simfs} {p : List Bytes} {m k : Nat}

structure Known (d : Paths Bytes) (fs : Trie Simfs) (p : List Bytes) (m : Nat) : Prop where
  low : fs.root.reach p ≤ m
  bound : m ≤ p.length
  onDisk : ∀ j, fs.root.reach p ≤ j → j < m → p.take (j + 1) ∈ d
  ends : m < p.length → p.take (m + 1) ∉ d

theorem knownUnique (left : Known d fs p m) (right : Known d fs p k) : m = k := by
  rcases Nat.lt_trichotomy m k with before | same | after
  · have bound := right.bound
    exact absurd (right.onDisk m left.low before) (left.ends (by omega))
  · exact same
  · have bound := left.bound
    exact absurd (left.onDisk k right.low after) (right.ends (by omega))

def rebuilt (text : Bytes) (r m : Nat) : Bytes :=
  if m = r then buffText text r else asked text r (m - 1)

def behind (text : Bytes) (r m : Nat) : Bytes := text.drop (rebuilt text r m).length

theorem rebuiltInside {text : Bytes} (absolute : text.head? = some slash) {r m : Nat}
    (bound : r ≤ (tokens slash text).length) : (rebuilt text r m).Sublist text := by
  rw [rebuilt]
  split
  · conv => rhs; rw [(missingCut bound).1]
    exact List.sublist_append_left _ _
  · exact askedInside absolute r (m - 1)

theorem behindLeft {text : Bytes} (absolute : text.head? = some slash) {r m : Nat}
    (bound : r ≤ (tokens slash text).length) (differs : text ≠ rebuilt text r m) :
    behind text r m ≠ [] := by
  intro empty
  have inside := rebuiltInside absolute (m := m) bound
  have long := List.drop_eq_nil_iff.mp empty
  exact differs (inside.eq_of_length (Nat.le_antisymm inside.length_le long)).symm

theorem populateAbsolute (holds : Holds disk d) (keyed : Keyed fs) {text : Bytes}
    (clean : 0 ∉ text) (absolute : text.head? = some slash) {r : Nat}
    (reached : fs.root.reach (tokens slash text) = r) :
    ∃ m fs', Known d fs (tokens slash text) m ∧
      simfsPopulate disk text.length (buffText text r) (missingText text r) fs =
        .ok ((decide (m = (tokens slash text).length),rebuilt text r m,behind text r m),fs') ∧
      Grown fs fs' ((tokens slash text).take m) := by
  have bound : r ≤ (tokens slash text).length := reached ▸ reachText fs text
  have answer (j : Nat) (low : r ≤ j) (short : j < (tokens slash text).length) :
      disk.access (asked text r j) = true ↔ (tokens slash text).take (j + 1) ∈ d := by
    obtain ⟨begins,ends⟩ := askedText absolute low short
    rw [holds.access _ begins ends,tokensAsked (by omega)]
  obtain ⟨m,low,high,ahead,ends⟩ := populateText disk keyed clean reached
  rcases ends with ⟨existing,missing,fs',ran,grown,absent,text',rest⟩ | ⟨short,exceeds,_⟩
  · refine ⟨m,fs',⟨reached ▸ low,high,?_,?_⟩,?_,grown⟩
    · intro j after before
      exact (answer j (reached ▸ after) (by omega)).mp (ahead.found j (reached ▸ after) before)
    · intro short inside
      have yes := (answer m low short).mpr inside
      rw [(absent short).2] at yes
      cases yes
    · have same : existing = rebuilt text r m := text'
      have cut := (missingCut bound).1
      have longer : (buffText text r).length ≤ existing.length := by
        rw [text']
        split
        · exact Nat.le_refl _
        · rename_i moved
          rw [buffText,if_neg (by omega)]
          split
          · exact Nat.zero_le _
          · have more : (asked text r (m - 1)) ≠ frontText text r := by
              intro empty
              have parts := congrArg (tokens slash) empty
              rw [tokensAsked (by omega),tokensFront] at parts
              have size := congrArg List.length parts
              rw [List.length_take,List.length_take] at size
              omega
            have front : (frontText text r).Sublist (asked text r (m - 1)) :=
              List.sublist_append_left _ _
            rw [List.length_append,List.length_singleton]
            have size := front.length_le
            rcases Nat.lt_or_eq_of_le size with less | equal
            · exact less
            · exact absurd (front.eq_of_length equal).symm more
      have left : missing = behind text r m := by
        rw [rest,behind,← same]
        conv => rhs; rw [cut]
        rw [List.drop_append,List.drop_eq_nil_of_le longer,List.nil_append]
      rw [ran,same,left]
  · have fits := (askedInside absolute r m).length_le
    exact absurd fits (Nat.not_le.mpr exceeds)

end Known
section Ends
variable {disk : Disk} {d : Paths Bytes} {fs : Trie Simfs} {p : List Bytes} {m : Nat}

inductive Effect where
  | keep | insert | delete | insertDelete
  deriving DecidableEq

def Effect.paths (p : List Bytes) (inside : List Bytes → Prop) (q : List Bytes) : Effect → Prop
  | .keep => inside q
  | .insert => inside q ∨ q <+: p
  | .delete => inside q ∧ (p <+: q → q = [])
  | .insertDelete => (inside q ∨ q <+: p) ∧ (p <+: q → q = [])

def Ends {α : Type} (run : Except SimfsFault (α × Trie Simfs)) (fs : Trie Simfs) (p : List Bytes)
    (m : Nat) (v : α) (effect : Effect) : Prop :=
  ∃ fs', run = .ok (v,fs') ∧
    ∀ q, Loaded fs' q ↔ effect.paths p (fun q => Loaded fs q ∨ q <+: p.take m) q

section Runs
variable {α : Type} {fs' : Trie Simfs} {text : Bytes} {v : α}

theorem endsKeep (grown : Grown fs fs' (p.take m)) :
    Ends (.ok (v,fs')) fs p m v .keep := ⟨fs',rfl,grown.loaded⟩

theorem endsDelete (grown : Grown fs fs' ((tokens slash text).take m)) :
    Ends ((trieDelete text >>= fun _ => pure v : SimfsProg α) fs') fs (tokens slash text) m v
      .delete := by
  refine ⟨(fs'.delete text).1,rfl,fun q => ?_⟩
  rw [deleteLoaded grown.keyed,grown.loaded]
  rfl

theorem insertRuns (keyed : Keyed fs) (clean : 0 ∉ text) (created : Bool) :
    ∃ fs', trieInsert text created fs = .ok ((),fs') ∧ Grown fs fs' (tokens slash text) := by
  have grown := insertGrown keyed clean simfsNewTrieNode rfl
  cases created with
  | false => exact ⟨_,rfl,grown⟩
  | true =>
    refine ⟨setSimfs (fs.insert2 text simfsNewTrieNode).1 (fs.insert2 text simfsNewTrieNode).2
      fun simfs => { simfs with created := true },rfl,?_,fun q => ?_⟩
    · exact keyedEdit (.set _ fun _ => rfl) grown.keyed
    · rw [setLoaded]
      exact grown.loaded q

theorem endsInsert (grown : Grown fs fs' ((tokens slash text).take m)) (clean : 0 ∉ text)
    (created : Bool) :
    Ends ((trieInsert text created >>= fun _ => pure v : SimfsProg α) fs') fs (tokens slash text)
      m v .insert := by
  obtain ⟨fs'',run,more⟩ := insertRuns grown.keyed clean created
  refine ⟨fs'',by rw [Prog.bindOf run]; rfl,fun q => ?_⟩
  rw [more.loaded,grown.loaded]
  rfl

theorem endsInsertDelete (grown : Grown fs fs' ((tokens slash text).take m)) (clean : 0 ∉ text) :
    Ends ((trieInsert text false >>= fun _ => trieDelete text >>= fun _ => pure v : SimfsProg α)
      fs') fs (tokens slash text) m v .insertDelete := by
  obtain ⟨fs'',run,more⟩ := insertRuns grown.keyed clean false
  refine ⟨(fs''.delete text).1,by rw [Prog.bindOf run]; rfl,fun q => ?_⟩
  rw [deleteLoaded more.keyed,more.loaded,grown.loaded]
  rfl

theorem grownSame (keyed : Keyed fs) (full : fs.root.reach p = p.length) :
    Grown fs fs (p.take p.length) := by
  refine ⟨keyed,fun q => ⟨.inl,fun either => either.elim id fun ahead => ?_⟩⟩
  obtain ⟨rest,same⟩ := ahead
  have found := Tree.walkReach fs.root p
  rw [full,← same] at found
  refine Tree.atPrefix (q := rest) ?_
  rwa [Tree.at?,Option.isSome_map]

end Runs

def Virtual (fs : Trie Simfs) (p : List Bytes) : Prop :=
  (fs.root.at? p).map Simfs.physical = some false

instance (fs : Trie Simfs) (p : List Bytes) : Decidable (Virtual fs p) :=
  inferInstanceAs (Decidable (_ = _))

def InTree (fs : Trie Simfs) (text : Bytes) : Prop :=
  tokens slash text ≠ [] ∧ Loaded fs (tokens slash text) ∧ trailing text ≤ 1

instance (fs : Trie Simfs) (text : Bytes) : Decidable (InTree fs text) :=
  inferInstanceAs (Decidable (_ ∧ _ ∧ _))

section Operations
variable {name : CName}

theorem plainRun (disk : Disk) (plain : Plain name) (keyed : Keyed fs) :
    ∃ simfs, fs.root.at? ((tokens slash name.bytes).take
        (fs.root.reach (tokens slash name.bytes))) = some simfs ∧
      simfsLocate disk name fs = .ok ((name.bytes,simfs,
        buffText name.bytes (fs.root.reach (tokens slash name.bytes))),fs) :=
  locateText keyed name.noNul (plainName disk.cwd plain) rfl

theorem plainInTree (plain : Plain name) :
    name.bytes = buffText name.bytes (fs.root.reach (tokens slash name.bytes)) ↔
      InTree fs name.bytes := by
  rw [plainThere plain.absolute (reachText fs name.bytes),← loadedReach]
  rfl

theorem probeEnds (holds : Holds disk d) (keyed : Keyed fs) (plain : Plain name)
    (known : Known d fs (tokens slash name.bytes) m) (missingRv : Option Verdict)
    (retval : Int32) :
    Ends (simfsProbe disk missingRv name retval fs) fs (tokens slash name.bytes) m
      (if retval = 0 then if m = (tokens slash name.bytes).length then some .ok else missingRv
        else if m = (tokens slash name.bytes).length then some .eent else some .ok)
      (if retval = 0 then if m = (tokens slash name.bytes).length then .keep else .insert
        else if m = (tokens slash name.bytes).length then
          if InTree fs name.bytes ∧ Virtual fs (tokens slash name.bytes) then .keep else .delete
        else .keep) := by
  have clean := name.noNul
  obtain ⟨simfs,data,run⟩ :=
    probeRuns keyed clean (plainName disk.cwd plain) rfl missingRv retval
  rw [run]
  by_cases there : InTree fs name.bytes
  · have full := loadedReach.mp there.2.1
    have high := known.bound
    have low := known.low
    obtain rfl : m = (tokens slash name.bytes).length := by omega
    have grown := grownSame keyed full
    rw [full,List.take_length] at data
    rw [if_pos ((plainInTree plain).mpr there)]
    simp only [if_pos]
    split
    · exact endsKeep grown
    · by_cases phys : simfs.physical = true
      · have real : ¬ (InTree fs name.bytes ∧ Virtual fs (tokens slash name.bytes)) := by
          intro both
          have flag := both.2
          rw [Virtual,data,Option.map_some,phys] at flag
          cases flag
        rw [if_pos phys,if_neg real]
        exact endsDelete grown
      · rw [if_neg phys,if_pos ⟨there,by simpa [Virtual,data] using phys⟩]
        exact endsKeep grown
  · obtain ⟨k,fs',known',ran,grown⟩ := populateAbsolute holds keyed clean plain.absolute rfl
    obtain rfl := knownUnique known known'
    rw [if_neg (mt (plainInTree plain).mp there),ran]
    have none : ¬ (InTree fs name.bytes ∧ Virtual fs (tokens slash name.bytes)) := fun both =>
      there both.1
    by_cases full : m = (tokens slash name.bytes).length
    · simp only [decide_eq_true full,if_pos full,if_neg none]
      split
      · exact endsKeep grown
      · exact endsDelete grown
    · simp only [decide_eq_false full,if_neg full]
      split
      · exact endsInsert grown clean false
      · exact endsKeep grown

theorem unlinkEnds (holds : Holds disk d) (keyed : Keyed fs) {op : UnlinkOp}
    (plain : Plain op.name) (known : Known d fs (tokens slash op.name.bytes) m) :
    Ends (simfsUnlink disk op fs) fs (tokens slash op.name.bytes) m
      (if op.retval = 0 then if InTree fs op.name.bytes then .ok else .enoent
        else if m = (tokens slash op.name.bytes).length then .eent else .ok)
      (if op.retval = 0 then if InTree fs op.name.bytes then .delete else .insertDelete
        else if m = (tokens slash op.name.bytes).length then .delete else .keep) := by
  have clean := op.name.noNul
  obtain ⟨simfs,_,located⟩ := plainRun disk plain keyed
  rw [simfsUnlink,Prog.bindOf located]
  dsimp only
  by_cases there : InTree fs op.name.bytes
  · have full := loadedReach.mp there.2.1
    have high := known.bound
    have low := known.low
    obtain rfl : m = (tokens slash op.name.bytes).length := by omega
    have grown := grownSame keyed full
    rw [if_pos ((plainInTree plain).mpr there)]
    simp only [if_pos there,if_pos]
    split <;> exact endsDelete grown
  · obtain ⟨k,fs',known',ran,grown⟩ := populateAbsolute holds keyed clean plain.absolute rfl
    obtain rfl := knownUnique known known'
    rw [if_neg (mt (plainInTree plain).mp there),← missingText,Prog.bindOf ran]
    simp only [if_neg there,ne_eq]
    by_cases zero : op.retval = 0
    · simp only [zero,not_true_eq_false,if_false,if_true]
      exact endsInsertDelete grown clean
    · by_cases full : m = (tokens slash op.name.bytes).length
      · simp only [zero,not_false_eq_true,if_true,full,decide_true,if_false]
        exact endsDelete (full ▸ grown)
      · simp only [zero,not_false_eq_true,if_true,full,decide_false,if_false,
          Bool.false_eq_true]
        exact endsKeep grown

def Standing (text : Bytes) (r m : Nat) : Prop := text = rebuilt text r m

instance (text : Bytes) (r m : Nat) : Decidable (Standing text r m) :=
  inferInstanceAs (Decidable (_ = _))

def OneLeft (ending : Bytes → Bytes) (text : Bytes) (r m : Nat) : Prop :=
  text ≠ rebuilt text r m ∧ slash ∉ dropSlash (ending (behind text r m))

instance (ending : Bytes → Bytes) (text : Bytes) (r m : Nat) :
    Decidable (OneLeft ending text r m) := inferInstanceAs (Decidable (_ ∧ _))

theorem countZero {s : Bytes} : strccount s slash = 0 ↔ slash ∉ s := List.count_eq_zero

section Created
variable {fs' : Trie Simfs} {α : Type} {v : α}

theorem mkdirEnds (holds : Holds disk d) (keyed : Keyed fs) {op : MkdirOp}
    (plain : Plain op.name) (known : Known d fs (tokens slash op.name.bytes) m) {r : Nat}
    (reached : fs.root.reach (tokens slash op.name.bytes) = r) :
    Ends (simfsMkdir disk op fs) fs (tokens slash op.name.bytes) m
      (if op.retval = 0 then if Standing op.name.bytes r m then .eent
          else if OneLeft trim op.name.bytes r m then .ok else .enoent
        else if OneLeft trim op.name.bytes r m then .eent else .ok)
      (if op.retval = 0 then if Standing op.name.bytes r m then .keep else .insert
        else if OneLeft trim op.name.bytes r m then .delete else .keep) := by
  subst reached
  have clean := op.name.noNul
  obtain ⟨simfs,_,located⟩ := plainRun disk plain keyed
  obtain ⟨k,fs',known',ran,grown⟩ := populateAbsolute holds keyed clean plain.absolute rfl
  obtain rfl := knownUnique known known'
  rw [simfsMkdir,Prog.bindOf located]
  dsimp only
  rw [← missingText,Prog.bindOf ran]
  dsimp only
  by_cases there : op.name.bytes = rebuilt op.name.bytes
      (fs.root.reach (tokens slash op.name.bytes)) m
  · have never : ¬ OneLeft trim op.name.bytes (fs.root.reach (tokens slash op.name.bytes)) m :=
      fun ready => ready.1 there
    rw [if_pos there]
    simp only [if_pos (show Standing op.name.bytes _ m from there),if_neg never]
    by_cases zero : op.retval = 0
    · simp only [zero,ne_eq,not_true_eq_false,if_false,if_true]
      exact endsKeep grown
    · simp only [zero,ne_eq,not_false_eq_true,if_false,if_true]
      exact endsKeep grown
  · have left := behindLeft plain.absolute (reachText fs op.name.bytes) (m := m) there
    obtain ⟨last,ends⟩ := List.getLast?_isSome.mpr left |> Option.isSome_iff_exists.mp
    have cut : (if last = slash then (behind op.name.bytes
        (fs.root.reach (tokens slash op.name.bytes)) m).dropLast
        else behind op.name.bytes (fs.root.reach (tokens slash op.name.bytes)) m) =
        trim (behind op.name.bytes (fs.root.reach (tokens slash op.name.bytes)) m) := by
      rw [trim,ends]
      simp only [Option.some.injEq]
    rw [if_neg there]
    simp only [ends,cut,if_neg (show ¬ Standing op.name.bytes _ m from there)]
    have ready : OneLeft trim op.name.bytes (fs.root.reach (tokens slash op.name.bytes)) m ↔
        strccount (dropSlash (trim (behind op.name.bytes
          (fs.root.reach (tokens slash op.name.bytes)) m))) slash = 0 := by
      rw [countZero,OneLeft]
      exact and_iff_right there
    by_cases zero : op.retval = 0
    · by_cases one : OneLeft trim op.name.bytes (fs.root.reach (tokens slash op.name.bytes)) m
      · simp only [zero,ne_eq,not_true_eq_false,if_false,if_true,one,ready.mp one,decide_true]
        exact endsInsert grown clean true
      · simp only [zero,ne_eq,not_true_eq_false,if_false,if_true,one,mt ready.mpr one,
          decide_false,Bool.false_eq_true]
        exact endsInsert grown clean true
    · by_cases one : OneLeft trim op.name.bytes (fs.root.reach (tokens slash op.name.bytes)) m
      · simp only [zero,ne_eq,not_false_eq_true,if_false,if_true,one,ready.mp one,decide_true]
        exact endsDelete grown
      · simp only [zero,ne_eq,not_false_eq_true,if_false,if_true,one,mt ready.mpr one,
          decide_false,Bool.false_eq_true]
        exact endsKeep grown

theorem creatEnds (holds : Holds disk d) (keyed : Keyed fs) {op : OpenOp}
    (plain : Plain op.name) (known : Known d fs (tokens slash op.name.bytes) m) {r : Nat}
    (reached : fs.root.reach (tokens slash op.name.bytes) = r) :
    Ends (simfsCreat disk op fs) fs (tokens slash op.name.bytes) m
      (if op.flags &&& O_CREAT = 0 then
          if Standing op.name.bytes r m then if op.retval = -1 then .eent else .ok
          else if op.retval = -1 then .ok else .enoent
        else if op.retval = -1 then if OneLeft id op.name.bytes r m then .eent else .ok
        else if Standing op.name.bytes r m then
          if op.flags &&& O_EXCL = 0 then .ok else .eent
        else if OneLeft id op.name.bytes r m then .ok else .enoent)
      (if op.flags &&& O_CREAT = 0 then
          if Standing op.name.bytes r m then if op.retval = -1 then .delete else .keep
          else if op.retval = -1 then .keep else .insert
        else if op.retval = -1 then if OneLeft id op.name.bytes r m then .delete else .keep
        else if Standing op.name.bytes r m then .keep else .insert) := by
  subst reached
  have clean := op.name.noNul
  obtain ⟨simfs,_,located⟩ := plainRun disk plain keyed
  obtain ⟨k,fs',known',ran,grown⟩ := populateAbsolute holds keyed clean plain.absolute rfl
  obtain rfl := knownUnique known known'
  rw [simfsCreat,Prog.bindOf located]
  dsimp only
  rw [← missingText,Prog.bindOf ran]
  dsimp only
  by_cases there : op.name.bytes = rebuilt op.name.bytes
      (fs.root.reach (tokens slash op.name.bytes)) m
  · have never : ¬ OneLeft id op.name.bytes (fs.root.reach (tokens slash op.name.bytes)) m :=
      fun ready => ready.1 there
    rw [if_pos there]
    simp only [if_pos (show Standing op.name.bytes _ m from there),if_neg never]
    by_cases create : op.flags &&& O_CREAT = 0
    · by_cases failed : op.retval = -1
      · simp only [create,failed,ne_eq,not_true_eq_false,if_false,if_true]
        exact endsDelete grown
      · simp only [create,failed,ne_eq,not_true_eq_false,if_false,if_true]
        exact endsKeep grown
    · by_cases failed : op.retval = -1
      · by_cases excl : op.flags &&& O_EXCL = 0
        · simp only [create,failed,excl,ne_eq,not_true_eq_false,not_false_eq_true,if_false,
            if_true]
          exact endsKeep grown
        · simp only [create,failed,excl,ne_eq,not_false_eq_true,if_false,if_true]
          exact endsKeep grown
      · by_cases excl : op.flags &&& O_EXCL = 0
        · simp only [create,failed,excl,ne_eq,not_true_eq_false,not_false_eq_true,if_false,
            if_true]
          exact endsKeep grown
        · simp only [create,failed,excl,ne_eq,not_false_eq_true,if_false,if_true]
          exact endsKeep grown
  · have ready : OneLeft id op.name.bytes (fs.root.reach (tokens slash op.name.bytes)) m ↔
        strccount (dropSlash (behind op.name.bytes
          (fs.root.reach (tokens slash op.name.bytes)) m)) slash = 0 := by
      rw [countZero,OneLeft]
      exact and_iff_right there
    rw [if_neg there]
    simp only [if_neg (show ¬ Standing op.name.bytes _ m from there)]
    by_cases create : op.flags &&& O_CREAT = 0
    · by_cases failed : op.retval = -1
      · simp only [create,failed,if_true]
        exact endsKeep grown
      · simp only [create,failed,if_true,if_false]
        exact endsInsert grown clean false
    · by_cases one : OneLeft id op.name.bytes (fs.root.reach (tokens slash op.name.bytes)) m
      · by_cases failed : op.retval = -1
        · simp only [create,failed,one,ready.mp one,decide_true,if_true,if_false]
          exact endsDelete grown
        · simp only [create,failed,one,ready.mp one,decide_true,if_true,if_false]
          exact endsInsert grown clean true
      · by_cases failed : op.retval = -1
        · simp only [create,failed,one,mt ready.mpr one,decide_false,if_true,if_false,
            Bool.false_eq_true]
          exact endsKeep grown
        · simp only [create,failed,one,mt ready.mpr one,decide_false,if_false,
            Bool.false_eq_true]
          exact endsInsert grown clean true

end Created
end Operations
end Ends
section Respelled
variable {disk : Disk} {d : Paths Bytes} {fs : Trie Simfs}

structure OnePath (name name' : CName) : Prop where
  left : Plain name
  right : Plain name'
  comps : tokens slash name'.bytes = tokens slash name.bytes

-- The same call with the same recorded result and flags, for two spellings of the path.
inductive Respelled : FsOp → FsOp → Prop where
  | access {a b : AccessOp} (path : OnePath a.name b.name) (retval : b.retval = a.retval) :
      Respelled (.access a) (.access b)
  | stat {a b : StatOp} (path : OnePath a.name b.name) (retval : b.retval = a.retval) :
      Respelled (.stat a) (.stat b)
  | mkdir {a b : MkdirOp} (path : OnePath a.name b.name) (retval : b.retval = a.retval) :
      Respelled (.mkdir a) (.mkdir b)
  | unlink {a b : UnlinkOp} (path : OnePath a.name b.name) (retval : b.retval = a.retval) :
      Respelled (.unlink a) (.unlink b)
  | creat {a b : OpenOp} (path : OnePath a.name b.name) (retval : b.retval = a.retval)
      (flags : b.flags = a.flags) : Respelled (.creat a) (.creat b)

def SameOutcome (disk : Disk) (fs : Trie Simfs) (op op' : FsOp) : Prop :=
  ∃ v fs₁ fs₂, v ≠ none ∧ op.check disk fs = .ok (v,fs₁) ∧ op'.check disk fs = .ok (v,fs₂) ∧
    ∀ q, Loaded fs₁ q ↔ Loaded fs₂ q

def OneSlash (name : CName) : Prop := trailing name.bytes ≤ 1

/-- When a call takes two spellings for the same path, by the slashes of both, what the tree has
and what the disk has. -/
def Indifferent (d : Paths Bytes) (fs : Trie Simfs) : FsOp → FsOp → Prop
  | .access a,.access b =>
    (a.retval = 0 → Known d fs (tokens slash a.name.bytes) (tokens slash a.name.bytes).length) ∧
      (a.retval ≠ 0 → tokens slash a.name.bytes ≠ [] → Virtual fs (tokens slash a.name.bytes) →
        (OneSlash a.name ↔ OneSlash b.name))
  | .stat a,.stat b =>
    a.retval ≠ 0 → tokens slash a.name.bytes ≠ [] → Virtual fs (tokens slash a.name.bytes) →
      (OneSlash a.name ↔ OneSlash b.name)
  | .unlink a,.unlink b =>
    a.retval = 0 → tokens slash a.name.bytes ≠ [] → Loaded fs (tokens slash a.name.bytes) →
      (OneSlash a.name ↔ OneSlash b.name)
  | .mkdir a,.mkdir b =>
    ∀ m, Known d fs (tokens slash a.name.bytes) m →
      let r := fs.root.reach (tokens slash a.name.bytes)
      (OneLeft trim a.name.bytes r m ↔ OneLeft trim b.name.bytes r m) ∧
        (a.retval = 0 → (Standing a.name.bytes r m ↔ Standing b.name.bytes r m))
  | .creat a,.creat b =>
    ∀ m, Known d fs (tokens slash a.name.bytes) m →
      let r := fs.root.reach (tokens slash a.name.bytes)
      if a.flags &&& O_CREAT = 0 then Standing a.name.bytes r m ↔ Standing b.name.bytes r m
      else if a.retval = -1 then OneLeft id a.name.bytes r m ↔ OneLeft id b.name.bytes r m
      else if a.flags &&& O_EXCL = 0 then
        Standing a.name.bytes r m ∨ OneLeft id a.name.bytes r m ↔
          Standing b.name.bytes r m ∨ OneLeft id b.name.bytes r m
      else (Standing a.name.bytes r m ↔ Standing b.name.bytes r m) ∧
        (OneLeft id a.name.bytes r m ↔ OneLeft id b.name.bytes r m)
  | _,_ => False

section Compare
variable {p : List Bytes} {m : Nat}

theorem endsSome {α : Type} {run : SimfsProg α} {v : α} {effect : Effect}
    (ends : Ends (run fs) fs p m v effect) :
    Ends ((do return some (← run) : SimfsProg (Option α)) fs) fs p m (some v) effect := by
  obtain ⟨fs',ran,paths⟩ := ends
  exact ⟨fs',by rw [Prog.bindOf ran]; rfl,paths⟩

theorem sameEnds {op op' : FsOp} {v v' : Option Verdict} {e e' : Effect}
    (left : Ends (op.check disk fs) fs p m v e) (right : Ends (op'.check disk fs) fs p m v' e') :
    SameOutcome disk fs op op' ↔ v ≠ none ∧ v = v' ∧
      ∀ q, e.paths p (fun q => Loaded fs q ∨ q <+: p.take m) q ↔
        e'.paths p (fun q => Loaded fs q ∨ q <+: p.take m) q := by
  obtain ⟨fs₁,ran,paths⟩ := left
  obtain ⟨fs₂,ran',paths'⟩ := right
  constructor
  · intro same
    obtain ⟨u,gs₁,gs₂,set,one,two,equal⟩ := same
    cases Except.ok.inj (ran.symm.trans one)
    cases Except.ok.inj (ran'.symm.trans two)
    exact ⟨set,rfl,fun q => by rw [← paths,← paths',equal]⟩
  · intro same
    obtain ⟨set,rfl,equal⟩ := same
    exact ⟨v,fs₁,fs₂,set,ran,ran',fun q => by rw [paths,paths',equal]⟩

theorem keepNotDelete {inside : List Bytes → Prop} (some : p ≠ []) (there : inside p) :
    ¬ ∀ q, Effect.keep.paths p inside q ↔ Effect.delete.paths p inside q := by
  intro all
  exact some (((all p).mp there).2 (List.prefix_refl p))

theorem standingFull {text : Bytes} {r : Nat} (bound : m ≤ (tokens slash text).length)
    (low : r ≤ m) (stands : Standing text r m) : m = (tokens slash text).length := by
  have parts : tokens slash (rebuilt text r m) = (tokens slash text).take m := by
    rw [rebuilt]
    split
    · rename_i same
      rw [tokensBuff,same]
    · rw [tokensAsked (by omega),show m - 1 + 1 = m by omega]
  rw [← show text = rebuilt text r m from stands] at parts
  have size := congrArg List.length parts
  rw [List.length_take] at size
  omega

end Compare
section Kinds
variable {m : Nat}

theorem inTreeSame {a b : CName} (path : OnePath a b) :
    (InTree fs a.bytes ↔ InTree fs b.bytes) ↔
      (tokens slash a.bytes ≠ [] → Loaded fs (tokens slash a.bytes) → (OneSlash a ↔ OneSlash b)) := by
  unfold InTree OneSlash
  rw [path.comps]
  tauto

theorem someKnown (holds : Holds disk d) (keyed : Keyed fs) {name : CName} (plain : Plain name) :
    ∃ m, Known d fs (tokens slash name.bytes) m := by
  obtain ⟨m,_,known,_⟩ := populateAbsolute holds keyed name.noNul plain.absolute rfl
  exact ⟨m,known⟩

theorem virtualLoaded {p : List Bytes} (virtual : Virtual fs p) : Loaded fs p := by
  obtain ⟨x,found,_⟩ := Option.map_eq_some_iff.mp virtual
  rw [Loaded,found]
  rfl

theorem loadedKnown {p : List Bytes} (known : Known d fs p m) (there : Loaded fs p) :
    m = p.length := by
  have low := known.low
  have bound := known.bound
  rw [loadedReach.mp there] at low
  omega

theorem failuresSame (fs : Trie Simfs) {a b : CName} (path : OnePath a b)
    (inside : List Bytes → Prop) (there : inside (tokens slash a.bytes)) :
    (∀ q, Effect.paths (tokens slash a.bytes) inside q
        (if InTree fs a.bytes ∧ Virtual fs (tokens slash a.bytes) then .keep else .delete) ↔
      Effect.paths (tokens slash a.bytes) inside q
        (if InTree fs b.bytes ∧ Virtual fs (tokens slash a.bytes) then .keep else .delete)) ↔
      (tokens slash a.bytes ≠ [] → Virtual fs (tokens slash a.bytes) → (OneSlash a ↔ OneSlash b)) := by
  have apart (some : tokens slash a.bytes ≠ []) := keepNotDelete some there
  have intree : (InTree fs a.bytes ↔ InTree fs b.bytes) ↔ _ := inTreeSame path
  constructor
  · intro same some virtual
    refine intree.mp ?_ some (virtualLoaded virtual)
    by_cases left : InTree fs a.bytes
    · by_cases right : InTree fs b.bytes
      · exact ⟨fun _ => right,fun _ => left⟩
      · rw [if_pos ⟨left,virtual⟩,if_neg fun both => right both.1] at same
        exact absurd same (apart some)
    · by_cases right : InTree fs b.bytes
      · rw [if_neg fun both => left both.1,if_pos ⟨right,virtual⟩] at same
        exact absurd (fun q => (same q).symm) (apart some)
      · exact ⟨fun h => absurd h left,fun h => absurd h right⟩
  · intro slashes q
    have equal : InTree fs a.bytes ∧ Virtual fs (tokens slash a.bytes) ↔
        InTree fs b.bytes ∧ Virtual fs (tokens slash a.bytes) := by
      unfold InTree OneSlash at *
      rw [path.comps] at *
      tauto
    simp only [equal]

theorem probeSame (holds : Holds disk d) (keyed : Keyed fs) {a b : CName} (path : OnePath a b)
    {op op' : FsOp} (missingRv : Option Verdict) (retval : Int32)
    (left : op.check disk = simfsProbe disk missingRv a retval)
    (right : op'.check disk = simfsProbe disk missingRv b retval) :
    SameOutcome disk fs op op' ↔
      (retval = 0 → missingRv = none →
        Known d fs (tokens slash a.bytes) (tokens slash a.bytes).length) ∧
      (retval ≠ 0 → tokens slash a.bytes ≠ [] → Virtual fs (tokens slash a.bytes) →
        (OneSlash a ↔ OneSlash b)) := by
  obtain ⟨m,known⟩ := someKnown holds keyed path.left
  have one := probeEnds holds keyed path.left known missingRv retval
  have two := probeEnds holds keyed path.right (path.comps ▸ known) missingRv retval
  rw [path.comps] at two
  rw [← left] at one
  rw [← right] at two
  rw [sameEnds one two]
  by_cases zero : retval = 0
  · simp only [zero,if_true,ne_eq,not_true_eq_false,true_implies,false_implies,and_true]
    by_cases full : m = (tokens slash a.bytes).length
    · simp [full,full ▸ known]
    · have short : ¬ Known d fs (tokens slash a.bytes) (tokens slash a.bytes).length :=
        fun whole => full (knownUnique known whole)
      simp [full,short]
  · simp only [zero,if_false,ne_eq,not_false_eq_true,true_implies,false_implies,true_and]
    by_cases full : m = (tokens slash a.bytes).length
    · have there : Loaded fs (tokens slash a.bytes) ∨
          tokens slash a.bytes <+: (tokens slash a.bytes).take m := by
        rw [full,List.take_length]
        exact .inr (List.prefix_refl _)
      have same := failuresSame fs path
        (fun q => Loaded fs q ∨ q <+: (tokens slash a.bytes).take m) there
      simp only [full,if_true,reduceCtorEq,not_false_eq_true,true_and] at same ⊢
      exact same
    · simp only [full,if_false,reduceCtorEq,not_false_eq_true,true_and,implies_true,true_iff]
      exact fun _ virtual => absurd (loadedKnown known (virtualLoaded virtual)) full

theorem unlinkSame (holds : Holds disk d) (keyed : Keyed fs) {a b : UnlinkOp}
    (path : OnePath a.name b.name) (retval : b.retval = a.retval) :
    SameOutcome disk fs (.unlink a) (.unlink b) ↔ Indifferent d fs (.unlink a) (.unlink b) := by
  obtain ⟨m,known⟩ := someKnown holds keyed path.left
  have one := endsSome (unlinkEnds holds keyed path.left known)
  have two := endsSome (unlinkEnds holds keyed path.right (path.comps ▸ known))
  rw [path.comps,retval] at two
  have same : SameOutcome disk fs (.unlink a) (.unlink b) ↔ _ := sameEnds one two
  rw [same,Indifferent]
  by_cases zero : a.retval = 0
  · rw [← inTreeSame path]
    by_cases left : InTree fs a.name.bytes
    · by_cases right : InTree fs b.name.bytes <;> simp [zero,left,right]
    · by_cases right : InTree fs b.name.bytes <;> simp [zero,left,right]
  · simp [zero]

theorem mkdirSame (holds : Holds disk d) (keyed : Keyed fs) {a b : MkdirOp}
    (path : OnePath a.name b.name) (retval : b.retval = a.retval) :
    SameOutcome disk fs (.mkdir a) (.mkdir b) ↔ Indifferent d fs (.mkdir a) (.mkdir b) := by
  obtain ⟨m,known⟩ := someKnown holds keyed path.left
  have one := endsSome (mkdirEnds holds keyed path.left known rfl)
  have two := endsSome (mkdirEnds holds keyed path.right (path.comps ▸ known) rfl)
  rw [path.comps,retval] at two
  have same : SameOutcome disk fs (.mkdir a) (.mkdir b) ↔ _ := sameEnds one two
  have only : Indifferent d fs (.mkdir a) (.mkdir b) ↔ _ :=
    ⟨fun all => all m known,fun this k other => knownUnique known other ▸ this⟩
  rw [same,only]
  dsimp only
  generalize fs.root.reach (tokens slash a.name.bytes) = r
  have apart (text : Bytes) (left : OneLeft trim text r m) : ¬ Standing text r m := left.1
  by_cases zero : a.retval = 0
  · by_cases left : Standing a.name.bytes r m
    · have none := mt (apart a.name.bytes) (not_not.mpr left)
      by_cases right : Standing b.name.bytes r m
      · have none' := mt (apart b.name.bytes) (not_not.mpr right)
        simp [zero,left,right,none,none']
      · by_cases ready : OneLeft trim b.name.bytes r m <;>
          simp [zero,left,right,none,ready]
    · by_cases right : Standing b.name.bytes r m
      · have none' := mt (apart b.name.bytes) (not_not.mpr right)
        by_cases ready : OneLeft trim a.name.bytes r m <;>
          simp [zero,left,right,none',ready]
      · by_cases ready : OneLeft trim a.name.bytes r m <;>
          by_cases ready' : OneLeft trim b.name.bytes r m <;>
            simp [zero,left,right,ready,ready']
  · by_cases ready : OneLeft trim a.name.bytes r m <;>
      by_cases ready' : OneLeft trim b.name.bytes r m <;> simp [zero,ready,ready']

theorem creatSame (holds : Holds disk d) (keyed : Keyed fs) {a b : OpenOp}
    (path : OnePath a.name b.name) (retval : b.retval = a.retval) (flags : b.flags = a.flags) :
    SameOutcome disk fs (.creat a) (.creat b) ↔ Indifferent d fs (.creat a) (.creat b) := by
  obtain ⟨m,known⟩ := someKnown holds keyed path.left
  have one := endsSome (creatEnds holds keyed path.left known rfl)
  have two := endsSome (creatEnds holds keyed path.right (path.comps ▸ known) rfl)
  rw [path.comps,retval,flags] at two
  have same : SameOutcome disk fs (.creat a) (.creat b) ↔ _ := sameEnds one two
  have only : Indifferent d fs (.creat a) (.creat b) ↔ _ :=
    ⟨fun all => all m known,fun this k other => knownUnique known other ▸ this⟩
  rw [same,only]
  dsimp only
  have bound := known.bound
  have low := known.low
  have whole (name : CName) (comps : tokens slash name.bytes = tokens slash a.name.bytes)
      (stands : Standing name.bytes (fs.root.reach (tokens slash a.name.bytes)) m) :
      m = (tokens slash a.name.bytes).length := by
    rw [← comps] at bound low stands ⊢
    exact standingFull bound low stands
  generalize fs.root.reach (tokens slash a.name.bytes) = r at whole
  have apart (text : Bytes) (left : OneLeft id text r m) : ¬ Standing text r m := left.1
  -- an insertion adds nothing where the disk has the whole path
  have inserted (full : m = (tokens slash a.name.bytes).length) (q : List Bytes) :
      Effect.insert.paths (tokens slash a.name.bytes)
          (fun q => Loaded fs q ∨ q <+: (tokens slash a.name.bytes).take m) q ↔
        Effect.keep.paths (tokens slash a.name.bytes)
          (fun q => Loaded fs q ∨ q <+: (tokens slash a.name.bytes).take m) q := by
    simp only [Effect.paths,full,List.take_length]
    tauto
  by_cases create : a.flags &&& O_CREAT = 0
  · by_cases failed : a.retval = -1
    · by_cases left : Standing a.name.bytes r m <;>
        by_cases right : Standing b.name.bytes r m <;> simp [create,failed,left,right]
    · by_cases left : Standing a.name.bytes r m <;>
        by_cases right : Standing b.name.bytes r m <;> simp [create,failed,left,right]
  · by_cases failed : a.retval = -1
    · by_cases ready : OneLeft id a.name.bytes r m <;>
        by_cases ready' : OneLeft id b.name.bytes r m <;> simp [create,failed,ready,ready']
    · by_cases left : Standing a.name.bytes r m
      · have none := mt (apart a.name.bytes) (not_not.mpr left)
        have same := inserted (whole a.name rfl left)
        by_cases right : Standing b.name.bytes r m
        · have none' := mt (apart b.name.bytes) (not_not.mpr right)
          simp [create,failed,left,right,none,none']
        · by_cases ready : OneLeft id b.name.bytes r m <;>
            by_cases excl : a.flags &&& O_EXCL = 0 <;>
              simp [create,failed,left,right,none,ready,excl,same]
      · by_cases right : Standing b.name.bytes r m
        · have none' := mt (apart b.name.bytes) (not_not.mpr right)
          have same := inserted (whole b.name path.comps right)
          by_cases ready : OneLeft id a.name.bytes r m <;>
            by_cases excl : a.flags &&& O_EXCL = 0 <;>
              simp [create,failed,left,right,none',ready,excl,same]
        · by_cases ready : OneLeft id a.name.bytes r m <;>
            by_cases ready' : OneLeft id b.name.bytes r m <;>
              by_cases excl : a.flags &&& O_EXCL = 0 <;>
                simp [create,failed,left,right,ready,ready',excl]

end Kinds

/-- The verdict on a path depends on its spelling in exactly these cases. -/
theorem spellingsAgree (holds : Holds disk d) (reached : FsReached disk anyCall fs)
    {op op' : FsOp} (respelled : Respelled op op') :
    SameOutcome disk fs op op' ↔ Indifferent d fs op op' := by
  have keyed := keyedReached holds.cwd reached
  cases respelled with
  | @access a b path retval =>
    rw [probeSame holds keyed path none a.retval rfl
      (by rw [← retval]; rfl)]
    simp [Indifferent]
  | @stat a b path retval =>
    rw [probeSame holds keyed path (some .enoent) a.retval rfl
      (by rw [← retval]; rfl)]
    simp [Indifferent]
  | mkdir path retval => exact mkdirSame holds keyed path retval
  | unlink path retval => exact unlinkSame holds keyed path retval
  | creat path retval flags => exact creatSame holds keyed path retval flags

def nameBX : CName := ⟨[0x2f,0x62,0x2f,0x78],by decide,by decide⟩
def nameBXTwo : CName := ⟨[0x2f,0x62,0x2f,0x2f,0x78],by decide,by decide⟩
def nameWEnd : CName := ⟨[0x2f,0x77,0x2f],by decide,by decide⟩

theorem slashesCounted : ¬ ∀ (disk : Disk) (d : Paths Bytes) (fs : Trie Simfs), Holds disk d →
    FsReached disk anyCall fs → ∀ op op', Respelled op op' → SameOutcome disk fs op op' := by
  intro all
  have path : OnePath nameBX nameBXTwo := ⟨⟨by decide,by decide⟩,⟨by decide,by decide⟩,by decide⟩
  obtain ⟨v,fs₁,fs₂,_,one,two,_⟩ := all atW pathsBX simfsInit atWHolds .init
    (.mkdir ⟨nameBX,0,0,noInfo⟩) (.mkdir ⟨nameBXTwo,0,0,noInfo⟩) (.mkdir path rfl)
  have first : ((FsOp.mkdir ⟨nameBX,0,0,noInfo⟩).check atW simfsInit).toOption.map Prod.fst =
      some (some .eent) := by decide
  have second : ((FsOp.mkdir ⟨nameBXTwo,0,0,noInfo⟩).check atW simfsInit).toOption.map
      Prod.fst = some (some .ok) := by decide
  rw [one] at first
  rw [two] at second
  simp only [Except.toOption,Option.map_some,Option.some.injEq] at first second
  rw [first] at second
  cases second

theorem spellingsAgreeStat : SameOutcome atW simfsInit (.stat ⟨nameW,0,noInfo⟩)
    (.stat ⟨nameWEnd,0,noInfo⟩) := by
  have path : OnePath nameW nameWEnd := ⟨⟨by decide,by decide⟩,⟨by decide,by decide⟩,by decide⟩
  have respelled : Respelled (.stat ⟨nameW,0,noInfo⟩) (.stat ⟨nameWEnd,0,noInfo⟩) :=
    .stat path rfl
  exact (spellingsAgree atWHolds .init respelled).mpr fun failed => absurd rfl failed

end Respelled
end IoApps
