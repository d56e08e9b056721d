import IoApps.SimfsPhysical

/-! Looking a name up, however it is spelled: what the operations do to the trie, which texts
they ask the disk for, and what the trie has afterwards. -/
namespace IoApps
open Lib (Bytes Tree Paths Prog tokens joined spelled Spelling Component)
open Lib.Prog (Steps)

def Disk.Real (disk : Disk) : Prop := ∀ c, disk.cwd = some c → 0 ∉ c

section Edits

inductive FsEdit (fs : Trie Simfs) : Trie Simfs → Prop where
  | insert {text : Bytes} (clean : 0 ∉ text) {new : Simfs} (empty : new.virtSize = 0) :
      FsEdit fs (fs.insert2 text new).1
  | delete {text : Bytes} (clean : 0 ∉ text) : FsEdit fs (fs.delete text).1
  | set (n : List Bytes) {f : Simfs → Simfs} (same : ∀ x, (f x).virtSize = x.virtSize) :
      FsEdit fs (setSimfs fs n f)

structure Keyed (fs : Trie Simfs) : Prop where
  delim : fs.delim = slash
  sound : fs.Sound

theorem keyedInit : Keyed simfsInit := ⟨rfl,Trie.soundInit (by decide) _⟩

theorem keyedSet {fs : Trie Simfs} (keyed : Keyed fs) (n : List Bytes) (f : Simfs → Simfs) :
    Keyed (setSimfs fs n f) := by
  refine ⟨keyed.delim,keyed.sound.real,?_,?_⟩
  · exact Tree.distinctAdjust (g := fun node => { node with data := f node.data })
      keyed.sound.distinct (fun _ below => below) n
  · intro p inside
    refine keyed.sound.keys p ?_
    have there : ((setSimfs fs n f).root.at? p).isSome = true := inside
    rw [setSimfs,Tree.atWrite] at there
    change (fs.root.at? p).isSome = true
    split at there
    · rwa [Option.isSome_map] at there
    · exact there

theorem keyedEdit {fs fs' : Trie Simfs} (edit : FsEdit fs fs') (keyed : Keyed fs) : Keyed fs' := by
  cases edit with
  | @insert text clean new _ =>
    have kept := Trie.callPaths keyed.sound new (.insert ⟨text,clean⟩)
    exact ⟨kept.2.1.trans keyed.delim,kept.1⟩
  | @delete text clean =>
    have kept := Trie.callPaths keyed.sound simfsNewTrieNode (.delete ⟨text,clean⟩)
    exact ⟨kept.2.1.trans keyed.delim,kept.1⟩
  | set n _ => exact keyedSet keyed n _

def Edits {α : Type} (m : SimfsProg α) (fs : Trie Simfs) (post : α → Trie Simfs → Prop) : Prop :=
  Steps FsEdit (fun _ _ => True) m fs post

inductive Growth (fs : Trie Simfs) : Trie Simfs → Prop where
  | insert {text : Bytes} (clean : 0 ∉ text) {new : Simfs} (empty : new.virtSize = 0) :
      Growth fs (fs.insert2 text new).1
  | set (n : List Bytes) {f : Simfs → Simfs} (same : ∀ x, (f x).virtSize = x.virtSize) :
      Growth fs (setSimfs fs n f)

theorem Growth.edit {fs fs' : Trie Simfs} (growth : Growth fs fs') : FsEdit fs fs' := by
  cases growth with
  | insert clean empty => exact .insert clean empty
  | set n same => exact .set n same

def Growing {α : Type} (m : SimfsProg α) (fs : Trie Simfs) (post : α → Trie Simfs → Prop) : Prop :=
  Steps Growth (fun _ _ => True) m fs post

def Trims {α : Type} (m : SimfsProg α) (fs : Trie Simfs) : Prop :=
  ∀ a fs', m fs = .ok (a,fs') → ∃ mid, Relation.ReflTransGen Growth fs mid ∧
    (fs' = mid ∨ ∃ text, 0 ∉ text ∧ fs' = (mid.delete text).1)

section Trims
variable {α β : Type} {m : SimfsProg α} {fs : Trie Simfs}

theorem Growing.trims {post : α → Trie Simfs → Prop} (growing : Growing m fs post) : Trims m fs :=
  fun _ fs' ran => ⟨fs',(Steps.okElim growing ran).1,.inl rfl⟩

theorem Trims.pure (a : α) : Trims (pure a : SimfsProg α) fs := by
  have still : Growing (Pure.pure a : SimfsProg α) fs fun _ _ => True := Steps.pure trivial
  exact still.trims

theorem Trims.throw (f : SimfsFault) : Trims (Prog.throw f : SimfsProg α) fs := by
  intro a fs' ran
  cases ran

theorem Trims.bind {f : α → SimfsProg β} {q : α → Trie Simfs → Prop} (first : Growing m fs q)
    (second : ∀ a t, q a t → Trims (f a) t) : Trims (m >>= f) fs := by
  intro b fs' ran
  obtain ⟨a,mid,one,rest⟩ := Prog.bindOk.mp ran
  obtain ⟨grown,holds⟩ := Steps.okElim first one
  obtain ⟨last,more,ends⟩ := second a mid holds b fs' rest
  exact ⟨last,grown.trans more,ends⟩

theorem Trims.edits (trims : Trims m fs) : Edits m fs fun _ _ => True := by
  cases ran : m fs with
  | error e => exact Steps.ofError ran trivial
  | ok r =>
    obtain ⟨mid,grown,ends⟩ := trims r.1 r.2 ran
    have steps : Relation.ReflTransGen FsEdit fs mid :=
      Relation.ReflTransGen.mono (fun _ _ => Growth.edit) _ _ grown
    refine Steps.ofOk ran ?_ trivial
    rcases ends with same | ⟨text,clean,same⟩
    · exact same ▸ steps
    · exact same ▸ steps.tail (.delete clean)

theorem deleteTrims {text : Bytes} (clean : 0 ∉ text) (a : α) :
    Trims (trieDelete text >>= fun _ => Pure.pure a) fs := by
  intro _ fs' ran
  cases ran
  exact ⟨fs,.refl,.inr ⟨text,clean,rfl⟩⟩

theorem insertGrows {text : Bytes} (clean : 0 ∉ text) (created : Bool) (fs : Trie Simfs) :
    Growing (trieInsert text created) fs fun _ _ => True := by
  refine Steps.ofOk rfl ?_ trivial
  have one : Growth fs (fs.insert2 text simfsNewTrieNode).1 := .insert clean rfl
  cases created with
  | false => exact .single one
  | true =>
    exact (Relation.ReflTransGen.single one).tail
      (.set _ (f := fun simfs => { simfs with created := true }) fun _ => rfl)

theorem insertThenGrows {text : Bytes} (clean : 0 ∉ text) (created : Bool) (a : α)
    (fs : Trie Simfs) :
    Growing (trieInsert text created >>= fun _ => Pure.pure a) fs fun _ _ => True :=
  Steps.bind (insertGrows clean created fs) fun _ _ _ => Steps.pure trivial

end Trims

theorem populateLoopGrows (disk : Disk) (room : Nat) {rest : List Bytes}
    (parts : ∀ c ∈ rest, 0 ∉ c) {existing : Bytes} (clean : 0 ∉ existing) (misOff : Nat)
    (fs : Trie Simfs) :
    Growing (populateLoop disk room rest existing misOff) fs fun _ _ => True := by
  induction rest generalizing existing misOff fs with
  | nil => exact Steps.pure trivial
  | cons s rest ih =>
    rw [populateLoop]
    generalize longer : (if existing.getLast? ≠ some slash then existing ++ [slash]
      else existing) ++ s = text
    have clean' : 0 ∉ text := by
      rw [← longer,List.mem_append,not_or]
      refine ⟨?_,parts s List.mem_cons_self⟩
      split
      · simpa using ⟨clean,show ¬ (0 : UInt8) = slash by decide⟩
      · exact clean
    simp only []
    split
    · exact Steps.throw trivial
    · split
      · refine Steps.getBind (Steps.bind (q := fun _ _ => True) (Steps.ofOk rfl ?_ trivial) ?_)
        · have one : Growth fs (fs.insert2 text simfsNewTrieNodePhys).1 := .insert clean' rfl
          exact (Relation.ReflTransGen.single one).tail (.set _ fun _ => rfl)
        · exact fun _ fs' _ => ih (fun c member => parts c (List.mem_cons_of_mem _ member))
            clean' _ fs'
      · exact Steps.pure trivial

section Operations
variable {disk : Disk} {fs : Trie Simfs}

structure Located (disk : Disk) (fs : Trie Simfs) (r : Bytes × Simfs × Bytes) : Prop where
  clean : 0 ∉ r.1
  populates : ∀ room, Growing (simfsPopulate disk room r.2.2
    (r.1.drop (commonLength r.2.2 r.1))) fs fun _ _ => True

theorem locateGrows (real : disk.Real) (name : CName) (fs : Trie Simfs) :
    Growing (simfsLocate disk name) fs fun r t => t = fs ∧ Located disk fs r := by
  cases named : simfsAbsoluteName disk.cwd name.bytes MAX_LINE with
  | error e =>
    refine Steps.ofError (e := e) ?_ trivial
    rw [simfsLocate,Lib.Prog.bindRun,ofExcept,named]
    rfl
  | ok text =>
    have clean := absoluteClean real name.noNul named
    have run : simfsLocate disk name fs = .ok ((text,(fs.root.at? (fs.longestPrefix text
        (text ++ [0])).1).getD fs.root.data,cstr (fs.longestPrefix text (text ++ [0])).2),fs) := by
      rw [simfsLocate,Prog.bindOf (a := text) (t := fs) (by simp [ofExcept,named,Except.map])]
      rfl
    refine Steps.ofOk run .refl ⟨rfl,clean,fun room => ?_⟩
    refine Steps.bind (populateLoopGrows disk room (fun c member zero => ?_) ?_ 0 _)
      fun _ _ _ => Steps.pure trivial
    · exact clean (List.mem_of_mem_drop (Lib.tokensInside member zero))
    · intro zero
      have real := List.mem_takeWhile_imp zero
      simp at real

theorem probeTrims (real : disk.Real) (missingRv : Option Verdict) (name : CName)
    (retval : Int32) : Trims (simfsProbe disk missingRv name retval) fs := by
  refine Trims.bind (locateGrows real name fs) fun r t found => ?_
  obtain ⟨rfl,clean,populates⟩ := found
  dsimp only
  split
  · split
    · exact .pure _
    · split
      · exact deleteTrims clean _
      · exact .pure _
  · refine Trims.bind (populates _) fun r fs' _ => ?_
    split
    · split
      · exact deleteTrims clean _
      · exact .pure _
    · split
      · exact .pure _
      · exact (insertThenGrows clean _ _ _).trims

theorem mkdirTrims (real : disk.Real) (op : MkdirOp) : Trims (simfsMkdir disk op) fs := by
  refine Trims.bind (locateGrows real op.name fs) fun r t found => ?_
  obtain ⟨rfl,clean,populates⟩ := found
  refine Trims.bind (populates _) fun r fs' _ => ?_
  dsimp only
  split
  · split <;> exact .pure _
  · split
    · exact .throw _
    · generalize dropSlash _ = left
      split
      · split
        · exact deleteTrims clean _
        · exact .pure _
      · exact (insertThenGrows clean _ _ _).trims

theorem unlinkTrims (real : disk.Real) (op : UnlinkOp) : Trims (simfsUnlink disk op) fs := by
  refine Trims.bind (locateGrows real op.name fs) fun r t found => ?_
  obtain ⟨rfl,clean,populates⟩ := found
  dsimp only
  split
  · exact deleteTrims clean _
  · refine Trims.bind (populates _) fun r fs' _ => ?_
    split
    · split
      · exact deleteTrims clean _
      · exact .pure _
    · exact Trims.bind (insertGrows clean false _) fun _ _ _ => deleteTrims clean _

theorem creatTrims (real : disk.Real) (op : OpenOp) : Trims (simfsCreat disk op) fs := by
  refine Trims.bind (locateGrows real op.name fs) fun r t found => ?_
  obtain ⟨rfl,clean,populates⟩ := found
  refine Trims.bind (populates _) fun r fs' _ => ?_
  dsimp only
  split
  · split
    · split
      · split <;> exact .pure _
      · exact .pure _
    · split
      · exact deleteTrims clean _
      · exact .pure _
  · split
    · split
      · exact .pure _
      · exact (insertThenGrows clean _ _ _).trims
    · split
      · split
        · exact deleteTrims clean _
        · exact .pure _
      · exact (insertThenGrows clean _ _ _).trims

theorem creatGrows (real : disk.Real) {op : OpenOp} (succeeded : op.retval ≠ -1) :
    Growing (simfsCreat disk op) fs fun _ _ => True := by
  refine Steps.bind (locateGrows real op.name fs) fun r t found => ?_
  obtain ⟨rfl,clean,populates⟩ := found
  refine Steps.bind (populates _) fun r fs' _ => ?_
  simp only [succeeded,if_false]
  split
  · split
    · split <;> exact Steps.pure trivial
    · exact Steps.pure trivial
  · split <;> exact insertThenGrows clean _ _ _

/-- The step lemma: a call is a sequence of edits, of which only the last takes something away. -/
theorem checkTrims (real : disk.Real) (op : FsOp) : Trims (op.check disk) fs := by
  have some {m : SimfsProg Verdict} (trims : Trims m fs) :
      Trims (do return Option.some (← m)) fs := by
    intro a fs' ran
    obtain ⟨v,mid,one,last⟩ := Prog.bindOk.mp ran
    cases last
    exact trims v fs' one
  cases op with
  | access o => exact probeTrims real none o.name o.retval
  | stat o => exact probeTrims real (Option.some .enoent) o.name o.retval
  | mkdir o => exact some (mkdirTrims real o)
  | creat o => exact some (creatTrims real o)
  | unlink o => exact some (unlinkTrims real o)
  | rmdir o => exact some (unlinkTrims real ⟨o.name,o.retval,o.info⟩)

theorem checkEdits (real : disk.Real) (op : FsOp) :
    Edits (op.check disk) fs fun _ _ => True := (checkTrims real op).edits

theorem keyedReached (real : disk.Real) {meets : Trie Simfs → FsOp → Prop}
    (reached : FsReached disk meets fs) : Keyed fs := by
  induction reached with
  | init => exact keyedInit
  | step _ _ ran ih =>
    exact (checkEdits real _).kept Keyed (fun _ _ edit keyed => keyedEdit edit keyed) ih ran

end Operations
end Edits
section Looks

theorem tokensJoin {more : List Bytes} (parts : ∀ c ∈ more, Component slash c) (s : Bytes) :
    tokens slash (s ++ joined slash more) = tokens slash s ++ more := by
  cases more with
  | nil => simp [joined]
  | cons c more =>
    have whole := Lib.tokensJoined parts
    rw [Lib.joinedCons,Lib.tokensDelim] at whole
    rw [Lib.joinedCons,Lib.tokensAppend,whole]

def trim (existing : Bytes) : Bytes :=
  if existing.getLast? = some slash then existing.dropLast else existing

def look (existing : Bytes) (more : List Bytes) : Bytes := trim existing ++ joined slash more

theorem tokensTrim (existing : Bytes) : tokens slash (trim existing) = tokens slash existing := by
  rw [trim]
  split
  · rename_i slashed
    obtain ⟨front,rfl⟩ := List.getLast?_eq_some_iff.mp slashed
    rw [List.dropLast_concat,Lib.tokensAppend]
    simp [tokens]
  · rfl

theorem lookOne (existing s : Bytes) :
    (if existing.getLast? ≠ some slash then existing ++ [slash] else existing) ++ s =
      look existing [s] := by
  rw [look,trim]
  by_cases slashed : existing.getLast? = some slash
  · obtain ⟨front,rfl⟩ := List.getLast?_eq_some_iff.mp slashed
    simp [joined]
  · simp [joined,slashed]

theorem trimLook {s : Bytes} (part : Component slash s) (existing : Bytes) :
    trim (look existing [s]) = look existing [s] := by
  have ends : (look existing [s]).getLast? ≠ some slash := by
    rw [look,Lib.joinedCons,joined,List.flatMap_nil,List.append_nil,← List.singleton_append,
      ← List.append_assoc,List.getLast?_append_of_ne_nil _ part.1]
    exact fun last => part.2 (List.mem_of_getLast? last)
  rw [trim,if_neg ends]

theorem lookAppend {s : Bytes} (part : Component slash s) (existing : Bytes)
    (more : List Bytes) : look (look existing [s]) more = look existing (s :: more) := by
  rw [look,trimLook part,look,look,List.append_assoc,← Lib.joinedAppend,List.singleton_append]

theorem tokensLook {more : List Bytes} (parts : ∀ c ∈ more, Component slash c)
    (existing : Bytes) : tokens slash (look existing more) = tokens slash existing ++ more := by
  rw [look,tokensJoin parts,tokensTrim]

theorem cleanLook {existing : Bytes} (clean : 0 ∉ existing) {more : List Bytes}
    (parts : ∀ c ∈ more, 0 ∉ c) : 0 ∉ look existing more := by
  rw [look,List.mem_append,not_or]
  refine ⟨fun inside => clean ?_,notInJoined (by decide) parts⟩
  rw [trim] at inside
  split at inside
  · exact List.mem_of_mem_dropLast inside
  · exact inside

structure Grown (fs fs' : Trie Simfs) (path : List Bytes) : Prop where
  keyed : Keyed fs'
  loaded : ∀ q, Loaded fs' q ↔ Loaded fs q ∨ q <+: path

theorem loadOne (disk : Disk) {fs : Trie Simfs} (keyed : Keyed fs) {longer : Bytes}
    (clean : 0 ∉ longer) :
    Grown fs (setSimfs (fs.insert2 longer simfsNewTrieNodePhys).1
        (fs.insert2 longer simfsNewTrieNodePhys).2
        fun simfs => { simfs with physSize := disk.stSize longer }) (tokens slash longer) := by
  have run := keyed.sound.insert2 ⟨longer,clean⟩ simfsNewTrieNodePhys
  rw [keyed.delim] at run
  refine ⟨keyedEdit (.set _ fun _ => rfl) (keyedEdit (.insert clean rfl) keyed),fun q => ?_⟩
  rw [setLoaded,run]
  exact insertLoaded fs simfsNewTrieNodePhys _ q

section Loop
variable {disk : Disk} {room : Nat} {rest : List Bytes}

structure Walked (disk : Disk) (room : Nat) (rest : List Bytes) (existing : Bytes) (k : Nat) :
    Prop where
  bound : k ≤ rest.length
  fits : ∀ i < k, (look existing (rest.take (i + 1))).length ≤ room
  found : ∀ i < k, disk.access (look existing (rest.take (i + 1))) = true

theorem walkedNext {s : Bytes} (part : Component slash s) {existing : Bytes} {k : Nat}
    (fits : (look existing [s]).length ≤ room) (found : disk.access (look existing [s]) = true)
    (walked : Walked disk room rest (look existing [s]) k) :
    Walked disk room (s :: rest) existing (k + 1) := by
  refine ⟨by simpa using walked.bound,?_,?_⟩
  · intro i small
    cases i with
    | zero => exact fits
    | succ i =>
      have next := walked.fits i (by omega)
      rwa [lookAppend part] at next
  · intro i small
    cases i with
    | zero => exact found
    | succ i =>
      have next := walked.found i (by omega)
      rwa [lookAppend part] at next

theorem populateLoopRuns (disk : Disk) (room : Nat) {rest : List Bytes}
    (parts : ∀ c ∈ rest, Component slash c ∧ 0 ∉ c) {existing : Bytes} (clean : 0 ∉ existing)
    {fs : Trie Simfs} (keyed : Keyed fs) (there : Loaded fs (tokens slash existing))
    (misOff : Nat) :
    ∃ k, Walked disk room rest existing k ∧
      ((∃ misOff' fs', populateLoop disk room rest existing misOff fs =
          .ok ((decide (k = rest.length),
            if k = 0 then existing else look existing (rest.take k),misOff'),fs') ∧
        misOff' + existing.length =
          misOff + (if k = 0 then existing else look existing (rest.take k)).length ∧
        (k < rest.length → (look existing (rest.take (k + 1))).length ≤ room ∧
          disk.access (look existing (rest.take (k + 1))) = false) ∧
        Grown fs fs' (tokens slash existing ++ rest.take k)) ∨
      (k < rest.length ∧ room < (look existing (rest.take (k + 1))).length ∧
        populateLoop disk room rest existing misOff fs = .error .overrun)) := by
  induction rest generalizing existing misOff fs with
  | nil =>
    refine ⟨0,⟨Nat.le_refl 0,by simp,by simp⟩,.inl ⟨misOff,fs,rfl,rfl,by simp,keyed,?_⟩⟩
    intro q
    rw [List.take_nil,List.append_nil]
    refine ⟨.inl,fun either => either.elim id fun ahead => ?_⟩
    obtain ⟨r,same⟩ := ahead
    rw [← same] at there
    exact Tree.atPrefix there
  | cons s rest ih =>
    obtain ⟨part,clean'⟩ := parts s List.mem_cons_self
    have later : ∀ c ∈ rest, Component slash c ∧ 0 ∉ c := fun c member =>
      parts c (List.mem_cons_of_mem _ member)
    have one : tokens slash (look existing [s]) = tokens slash existing ++ [s] :=
      tokensLook (by simpa using part) existing
    rw [populateLoop]
    simp only [lookOne]
    by_cases fits : (look existing [s]).length ≤ room
    · rw [if_neg (Nat.not_lt.mpr fits)]
      by_cases found : disk.access (look existing [s]) = true
      · have inside : 0 ∉ look existing [s] := cleanLook clean (by simpa using clean')
        have grown := loadOne disk keyed inside
        rw [one] at grown
        have loaded := (grown.loaded (tokens slash (look existing [s]))).mpr
          (.inr (by rw [one]))
        rw [if_pos found,Prog.bindOf (Prog.getRun fs),Prog.bindOf (Prog.modifyRun _ _)]
        have longer : misOff + (if existing.getLast? ≠ some slash then 1 else 0) + s.length +
            existing.length = misOff + (look existing [s]).length := by
          rw [← lookOne]
          split <;> simp <;> omega
        obtain ⟨k,walked,ends⟩ := ih later
          inside grown.keyed loaded
          (misOff + (if existing.getLast? ≠ some slash then 1 else 0) + s.length)
        have text : (if k = 0 then look existing [s] else look (look existing [s]) (rest.take k)) =
            if k + 1 = 0 then existing else look existing ((s :: rest).take (k + 1)) := by
          rw [if_neg (Nat.succ_ne_zero k),List.take_succ_cons,
            ← lookAppend part existing (rest.take k)]
          split
          · rename_i zero
            rw [zero,List.take_zero,look.eq_def (look existing [s]),trimLook part]
            exact (List.append_nil _).symm
          · rfl
        refine ⟨k + 1,walkedNext part fits found walked,?_⟩
        rcases ends with ⟨misOff',fs',run,offset,stopped,grown'⟩ | ⟨short,exceeds,run⟩
        · refine .inl ⟨misOff',fs',?_,?_,?_,?_⟩
          · have same : decide (k + 1 = (s :: rest).length) = decide (k = rest.length) := by simp
            rw [same,← text]
            exact run
          · rw [← text]
            omega
          · intro more
            have next := stopped (by simpa using more)
            rwa [lookAppend part] at next
          · refine ⟨grown'.keyed,fun q => ?_⟩
            rw [grown'.loaded q,grown.loaded q,one,List.take_succ_cons,List.append_assoc,
              List.singleton_append,or_assoc]
            refine or_congr_right ⟨fun either => either.elim (fun ahead => ?_) id,.inr⟩
            exact ahead.trans ⟨rest.take k,by simp⟩
        · refine .inr ⟨by simpa using short,?_,run⟩
          rwa [lookAppend part] at exceeds
      · refine ⟨0,⟨Nat.zero_le _,by simp,by simp⟩,.inl ⟨misOff,fs,?_,rfl,?_,keyed,?_⟩⟩
        · rw [if_neg found]
          rfl
        · exact fun _ => ⟨fits,by simpa using found⟩
        · intro q
          rw [List.take_zero,List.append_nil]
          refine ⟨.inl,fun either => either.elim id fun ahead => ?_⟩
          obtain ⟨r,same⟩ := ahead
          rw [← same] at there
          exact Tree.atPrefix there
    · refine ⟨0,⟨Nat.zero_le _,by simp,by simp⟩,.inr ⟨Nat.succ_pos _,Nat.lt_of_not_le fits,?_⟩⟩
      rw [if_pos (Nat.lt_of_not_le fits)]
      rfl

end Loop
end Looks
section Names
variable {fs : Trie Simfs} {text : Bytes}

def frontText (text : Bytes) (m : Nat) : Bytes := spelled slash ((Lib.spell slash text).1.take m)

def trailing (text : Bytes) : Nat := (Lib.spell slash text).2

def buffText (text : Bytes) (r : Nat) : Bytes :=
  if r = (tokens slash text).length ∧ tokens slash text ≠ [] ∧ trailing text = 0 then text
  else if r = 0 then [] else frontText text r ++ [slash]

def missingText (text : Bytes) (r : Nat) : Bytes :=
  text.drop (commonLength (buffText text r) text)

def asked (text : Bytes) (r m : Nat) : Bytes :=
  frontText text r ++ joined slash (((tokens slash text).take (m + 1)).drop r)

theorem countParts (text : Bytes) :
    (Lib.spell slash text).1.length = (tokens slash text).length := by
  rw [Lib.tokensSpell,List.length_map]

theorem reachText (fs : Trie Simfs) (text : Bytes) :
    fs.root.reach (tokens slash text) ≤ (tokens slash text).length := Tree.reachBound _ _

theorem textCut (text : Bytes) (r : Nat) : ∃ rest, text = frontText text r ++ rest ∧
    tokens slash rest = (tokens slash text).drop r ∧
    (rest = [] → (tokens slash text).length ≤ r ∧ trailing text = 0) ∧
    (r ≠ 0 → rest = [] ∨ ∃ more, rest = slash :: more) := by
  obtain ⟨spelling,whole⟩ := Lib.spellSpelling slash text
  obtain ⟨rest,split,behind,none,next⟩ :=
    Trie.keyCut (t := simfsInit) spelling whole r
  refine ⟨rest,split,?_,fun empty => ?_,next⟩
  · rw [Lib.tokensSpell slash text,← List.map_drop]
    exact behind
  · obtain ⟨beyond,still⟩ := none empty
    exact ⟨by rw [← countParts]; exact List.drop_eq_nil_iff.mp beyond,still⟩

theorem tokensFront (text : Bytes) (r : Nat) :
    tokens slash (frontText text r) = (tokens slash text).take r := by
  have front := Lib.tokensSpelled ((Lib.spellSpelling slash text).1.take r) 0
  rw [List.replicate_zero,List.append_nil] at front
  rw [frontText,front,Lib.tokensSpell,List.map_take]

theorem cleanFront (clean : 0 ∉ text) (r : Nat) : 0 ∉ frontText text r := by
  obtain ⟨rest,split,_⟩ := textCut text r
  exact fun inside => clean (split ▸ List.mem_append_left _ inside)

theorem prefixBuff (keyed : Keyed fs) (clean : 0 ∉ text) {r : Nat}
    (reached : fs.root.reach (tokens slash text) = r) :
    cstr (fs.longestPrefix text (text ++ [0])).2 = buffText text r ∧
      (fs.longestPrefix text (text ++ [0])).1 = (tokens slash text).take r := by
  obtain ⟨spelling,whole⟩ := Lib.spellSpelling slash text
  have spelling' : Spelling fs.delim (Lib.spell slash text).1 := keyed.delim ▸ spelling
  have whole' : text = spelled fs.delim (Lib.spell slash text).1 ++
      List.replicate (Lib.spell slash text).2 fs.delim := keyed.delim ▸ whole
  have comps := Lib.tokensSpell slash text
  have size := countParts text
  have buff := Trie.longestPrefixText keyed.sound.real (fun _ => keyed.sound.plain)
    spelling' whole' clean (comps ▸ reached)
  have found := Trie.longestPrefixSpelled keyed.sound.real (fun _ => keyed.sound.plain)
    spelling' whole' (text ++ [0])
  constructor
  · rw [buff,buffText,keyed.delim,size,trailing,frontText]
    have same : (Lib.spell slash text).1 ≠ [] ↔ tokens slash text ≠ [] := by
      rw [comps,ne_eq,ne_eq,List.map_eq_nil_iff]
    simp only [same]
  · rw [found,Trie.prefixOf,← comps,reached]
    split
    · rename_i full
      rw [List.take_of_length_le (by omega)]
    · rw [List.map_take,← comps]

theorem locateText {disk : Disk} {name : CName} (keyed : Keyed fs) (clean : 0 ∉ text)
    (named : simfsAbsoluteName disk.cwd name.bytes MAX_LINE = .ok text) {r : Nat}
    (reached : fs.root.reach (tokens slash text) = r) :
    ∃ simfs, fs.root.at? ((tokens slash text).take r) = some simfs ∧
      simfsLocate disk name fs = .ok ((text,simfs,buffText text r),fs) := by
  obtain ⟨text',node⟩ := prefixBuff keyed clean reached
  have there : (fs.root.at? ((tokens slash text).take r)).isSome := by
    rw [← reached,Tree.at?,Option.isSome_map]
    exact Tree.walkReach _ _
  obtain ⟨simfs,data⟩ := Option.isSome_iff_exists.mp there
  refine ⟨simfs,data,?_⟩
  rw [simfsLocate,Prog.bindOf (a := text) (t := fs) (by simp [ofExcept,named,Except.map])]
  rw [Prog.bindOf (Prog.getRun fs)]
  simp only [Prog.pureRun,text',node,data,Option.getD_some]

theorem buffCut {r : Nat} (bound : r ≤ (tokens slash text).length) :
    ∃ rest, text = buffText text r ++ rest ∧ tokens slash rest = (tokens slash text).drop r := by
  rw [buffText]
  split
  · rename_i full
    refine ⟨[],(List.append_nil text).symm,?_⟩
    rw [List.drop_eq_nil_of_le (by omega)]
    simp [tokens]
  · rename_i partial_
    split
    · rename_i zero
      exact ⟨text,rfl,by rw [zero,List.drop_zero]⟩
    · rename_i some
      obtain ⟨rest,split,behind,none,next⟩ := textCut text r
      rcases next some with empty | ⟨more,rfl⟩
      · obtain ⟨low,bare⟩ := none empty
        refine absurd ⟨Nat.le_antisymm bound low,fun root => ?_,bare⟩ partial_
        rw [root] at bound
        exact some (Nat.le_zero.mp bound)
      · exact ⟨more,by simpa using split,by rw [← behind,Lib.tokensDelim]⟩

theorem missingCut {r : Nat} (bound : r ≤ (tokens slash text).length) :
    text = buffText text r ++ missingText text r ∧
      tokens slash (missingText text r) = (tokens slash text).drop r := by
  obtain ⟨rest,split,behind⟩ := buffCut bound
  have common := Trie.commonLengthPrefix (buffText text r) rest
  rw [← split] at common
  have same : missingText text r = rest := by
    rw [missingText,common]
    conv => lhs; arg 2; rw [split]
    exact List.drop_left
  rw [same]
  exact ⟨split,behind⟩

theorem tokensBuff (text : Bytes) (r : Nat) :
    tokens slash (buffText text r) = (tokens slash text).take r := by
  rw [buffText]
  split
  · rename_i full
    rw [full.1,List.take_length]
  · split
    · rename_i zero
      rw [zero]
      simp [tokens]
    · rw [Lib.tokensAppend,tokensFront]
      simp [tokens]

theorem cleanBuff (clean : 0 ∉ text) (r : Nat) : 0 ∉ buffText text r := by
  rw [buffText]
  split
  · exact clean
  · split
    · simp
    · simpa using ⟨cleanFront clean r,show ¬ (0 : UInt8) = slash by decide⟩

theorem partsText (clean : 0 ∉ text) : ∀ c ∈ tokens slash text, Component slash c ∧ 0 ∉ c :=
  fun c member =>
    ⟨Lib.tokensReal slash text c member,fun zero => clean (Lib.tokensInside member zero)⟩

theorem lookAsked {r i : Nat} (more : r + i < (tokens slash text).length) :
    look (buffText text r) (((tokens slash text).drop r).take (i + 1)) = asked text r (r + i) := by
  have front : trim (buffText text r) = frontText text r := by
    rw [buffText,if_neg (by omega)]
    split
    · rename_i zero
      simp [zero,frontText,trim]
    · simp [trim]
  rw [look,front,asked,List.drop_take]
  congr 3
  omega

theorem textThere {r : Nat} (bound : r ≤ (tokens slash text).length) : text = buffText text r ↔
    r = (tokens slash text).length ∧ (trailing text = 0 ∨ r ≠ 0 ∧ trailing text = 1) := by
  obtain ⟨spelling,whole⟩ := Lib.spellSpelling slash text
  rw [buffText]
  split
  · rename_i full
    exact ⟨fun _ => ⟨full.1,.inl full.2.2⟩,fun _ => rfl⟩
  · rename_i partial_
    split
    · rename_i zero
      subst zero
      constructor
      · intro empty
        subst empty
        exact ⟨by simp [tokens],.inl rfl⟩
      · intro there
        have none : (Lib.spell slash text).1 = [] :=
          List.length_eq_zero_iff.mp ((countParts text).trans there.1.symm)
        have bare : trailing text = 0 := there.2.elim id fun h => absurd rfl h.1
        rw [whole,none,show (Lib.spell slash text).2 = 0 from bare]
        rfl
    · rename_i some
      obtain ⟨j,rfl⟩ := Nat.exists_eq_succ_of_ne_zero some
      have split : text = frontText text (j + 1) ++ (spelled slash
          ((Lib.spell slash text).1.drop (j + 1)) ++
            List.replicate (Lib.spell slash text).2 slash) := by
        rw [frontText,← List.append_assoc,← Lib.spelledAppend,List.take_append_drop]
        exact whole
      have same : text = frontText text (j + 1) ++ [slash] ↔ spelled slash
          ((Lib.spell slash text).1.drop (j + 1)) ++
            List.replicate (Lib.spell slash text).2 slash = [slash] := by
        constructor
        · intro one
          exact List.append_cancel_left (split.symm.trans one)
        · intro one
          rw [one] at split
          exact split
      rw [same]
      have size := countParts text
      constructor
      · intro one
        cases rest : (Lib.spell slash text).1.drop (j + 1) with
        | nil =>
          have low := List.drop_eq_nil_iff.mp rest
          refine ⟨by omega,.inr ⟨some,?_⟩⟩
          rw [rest,Lib.spelledNil,List.nil_append] at one
          simpa [trailing] using congrArg List.length one
        | cons p more =>
          have part := spelling.real p (List.mem_of_mem_drop (rest ▸ List.mem_cons_self))
          have inside : ∀ x ∈ p.2, x ∈ spelled slash ((Lib.spell slash text).1.drop (j + 1)) ++
              List.replicate (Lib.spell slash text).2 slash := by
            intro x member
            rw [rest,Lib.spelledCons]
            simp [member]
          obtain ⟨x,xs,letters⟩ := List.exists_cons_of_ne_nil part.1
          have first := inside x (by simp [letters])
          rw [one,List.mem_singleton] at first
          exact absurd (by simp [letters,first]) part.2
      · intro there
        have none : (Lib.spell slash text).1.drop (j + 1) = [] :=
          List.drop_eq_nil_of_le (by omega)
        have one : (Lib.spell slash text).2 = 1 := by
          refine there.2.elim (fun bare => ?_) And.right
          exact absurd ⟨there.1,fun empty => by simp [empty] at bound,bare⟩ partial_
        rw [none,one]
        rfl

structure Ahead (disk : Disk) (text : Bytes) (r m : Nat) : Prop where
  fits : ∀ j, r ≤ j → j < m → (asked text r j).length ≤ text.length
  found : ∀ j, r ≤ j → j < m → disk.access (asked text r j) = true

def Absent (disk : Disk) (text : Bytes) (r m : Nat) : Prop :=
  (asked text r m).length ≤ text.length ∧ disk.access (asked text r m) = false

theorem populateText (disk : Disk) (keyed : Keyed fs) (clean : 0 ∉ text) {r : Nat}
    (reached : fs.root.reach (tokens slash text) = r) :
    ∃ m, r ≤ m ∧ m ≤ (tokens slash text).length ∧ Ahead disk text r m ∧
      ((∃ existing missing fs', simfsPopulate disk text.length (buffText text r)
          (missingText text r) fs =
            .ok ((decide (m = (tokens slash text).length),existing,missing),fs') ∧
        Grown fs fs' ((tokens slash text).take m) ∧
        (m < (tokens slash text).length → Absent disk text r m) ∧
        existing = (if m = r then buffText text r else asked text r (m - 1)) ∧
        missing = (missingText text r).drop (existing.length - (buffText text r).length)) ∨
      (m < (tokens slash text).length ∧ text.length < (asked text r m).length ∧
        simfsPopulate disk text.length (buffText text r) (missingText text r) fs =
          .error .overrun)) := by
  have bound : r ≤ (tokens slash text).length := reached ▸ reachText fs text
  have mine := tokensBuff text r
  have there : Loaded fs (tokens slash (buffText text r)) := by
    rw [mine,Loaded,← reached,Tree.at?,Option.isSome_map]
    exact Tree.walkReach _ _
  have parts : ∀ c ∈ (tokens slash text).drop r, Component slash c ∧ 0 ∉ c := fun c member =>
    partsText clean c (List.mem_of_mem_drop member)
  obtain ⟨k,walked,ends⟩ :=
    populateLoopRuns disk text.length parts (cleanBuff clean r) keyed there 0
  have left : ((tokens slash text).drop r).length = (tokens slash text).length - r :=
    List.length_drop
  have high := walked.bound
  have ahead : Ahead disk text r (r + k) := by
    constructor
    · intro j low short
      have step := walked.fits (j - r) (by omega)
      rwa [lookAsked (by omega),show r + (j - r) = j by omega] at step
    · intro j low short
      have step := walked.found (j - r) (by omega)
      rwa [lookAsked (by omega),show r + (j - r) = j by omega] at step
  refine ⟨r + k,Nat.le_add_right _ _,by omega,ahead,?_⟩
  rcases ends with ⟨misOff',fs',run,offset,stopped,grown⟩ | ⟨short,exceeds,run⟩
  · have text' : (if k = 0 then buffText text r
        else look (buffText text r) (((tokens slash text).drop r).take k)) =
        if r + k = r then buffText text r else asked text r (r + k - 1) := by
      cases k with
      | zero => rw [if_pos rfl,if_pos (Nat.add_zero r)]
      | succ i =>
        rw [if_neg (Nat.succ_ne_zero i),if_neg (by omega),lookAsked (by omega)]
        rfl
    rw [text'] at run offset
    refine .inl ⟨_,_,fs',?_,?_,?_,rfl,rfl⟩
    · have full : decide (k = ((tokens slash text).drop r).length) =
          decide (r + k = (tokens slash text).length) := by
        rw [left]
        congr 1
        exact propext (by omega)
      rw [simfsPopulate,(missingCut bound).2,Prog.bindOf run,full]
      have moved : misOff' = (if r + k = r then buffText text r
          else asked text r (r + k - 1)).length - (buffText text r).length := by omega
      rw [← moved]
      by_cases zero : misOff' = 0
      · simp [zero]
      · simp [zero]
    · rw [mine,← List.take_add] at grown
      exact grown
    · intro more
      have next := stopped (by omega)
      rwa [lookAsked more] at next
  · refine .inr ⟨by omega,?_,?_⟩
    · rwa [lookAsked (by omega)] at exceeds
    · rw [simfsPopulate,(missingCut bound).2]
      exact Prog.bindError.mpr (.inl run)

theorem populateLoaded (disk : Disk) (fs : Trie Simfs) {r : Nat}
    (full : r = (tokens slash text).length) :
    simfsPopulate disk text.length (buffText text r) (missingText text r) fs =
      .ok ((true,buffText text r,missingText text r),fs) := by
  rw [simfsPopulate,(missingCut (Nat.le_of_eq full)).2,full,List.drop_length,populateLoop]
  rfl

theorem populateAbsent (disk : Disk) (fs : Trie Simfs) {r : Nat}
    (short : r < (tokens slash text).length) (absent : Absent disk text r r) :
    simfsPopulate disk text.length (buffText text r) (missingText text r) fs =
      .ok ((false,buffText text r,missingText text r),fs) := by
  obtain ⟨fits,gone⟩ := absent
  have next := lookAsked (i := 0) short
  rw [simfsPopulate,(missingCut (Nat.le_of_lt short)).2]
  cases rest : (tokens slash text).drop r with
  | nil => exact absurd (List.drop_eq_nil_iff.mp rest) (Nat.not_le.mpr short)
  | cons c more =>
    rw [rest,List.take_succ_cons,List.take_zero] at next
    rw [populateLoop]
    simp only [lookOne,next,Nat.add_zero]
    rw [if_neg (Nat.not_lt.mpr fits),gone]
    rfl

theorem reachStep {p : List Bytes} {m : Nat} (short : m < p.length) :
    Loaded fs (p.take (m + 1)) ↔ m < fs.root.reach p := by
  constructor
  · intro there
    rw [Loaded,Tree.at?,Option.isSome_map] at there
    exact Tree.reachMax (Nat.succ_le_of_lt short) there
  · intro low
    have found := Tree.walkReach fs.root p
    obtain ⟨rest,same⟩ : p.take (m + 1) <+: p.take (fs.root.reach p) :=
      List.take_prefix_take_left low
    rw [← same] at found
    refine Tree.atPrefix (q := rest) ?_
    rwa [Tree.at?,Option.isSome_map]

theorem reachAt {p : List Bytes} {m : Nat} (bound : m ≤ p.length) (there : Loaded fs (p.take m))
    (ends : m < p.length → ¬ Loaded fs (p.take (m + 1))) : fs.root.reach p = m := by
  rw [Loaded,Tree.at?,Option.isSome_map] at there
  have low := Tree.reachMax bound there
  have high := Tree.reachBound fs.root p
  by_contra differs
  exact ends (by omega) ((reachStep (by omega)).mpr (by omega))

theorem reachGrown {fs' : Trie Simfs} {p : List Bytes} {m : Nat} (low : fs.root.reach p ≤ m)
    (bound : m ≤ p.length) (grown : Grown fs fs' (p.take m)) : fs'.root.reach p = m := by
  refine reachAt bound ((grown.loaded _).mpr (.inr (List.prefix_refl _))) fun short there => ?_
  rcases (grown.loaded _).mp there with old | ahead
  · exact absurd ((reachStep short).mp old) (by omega)
  · have size := ahead.length_le
    rw [List.length_take,List.length_take] at size
    omega

theorem insertGrown (keyed : Keyed fs) (clean : 0 ∉ text) (new : Simfs)
    (empty : new.virtSize = 0) : Grown fs (fs.insert2 text new).1 (tokens slash text) := by
  have run := keyed.sound.insert2 ⟨text,clean⟩ new
  rw [keyed.delim] at run
  refine ⟨keyedEdit (.insert clean empty) keyed,fun q => ?_⟩
  rw [run]
  exact insertLoaded fs new _ q

theorem deleteLoaded (keyed : Keyed fs) (q : List Bytes) :
    Loaded (fs.delete text).1 q ↔ Loaded fs q ∧ (tokens slash text <+: q → q = []) := by
  have paths := Trie.deletePaths keyed.sound.distinct text
  rw [keyed.delim] at paths
  change q ∈ (fs.delete text).1.root.paths ↔ q ∈ fs.root.paths ∧ _
  rw [paths,Paths.memDelete]

theorem reachDeleted (keyed : Keyed fs) {k : Nat} (size : (tokens slash text).length = k + 1)
    (full : fs.root.reach (tokens slash text) = k + 1) :
    (fs.delete text).1.root.reach (tokens slash text) = k := by
  refine reachAt (by omega) ((deleteLoaded keyed _).mpr ⟨?_,fun ahead => ?_⟩) fun _ there => ?_
  · cases k with
    | zero => exact loadedRoot fs
    | succ j => exact (reachStep (by omega)).mpr (by omega)
  · have long := ahead.length_le
    rw [List.length_take] at long
    omega
  · obtain ⟨_,root⟩ := (deleteLoaded keyed _).mp there
    rw [List.take_of_length_le (by omega)] at root
    have empty := root (List.prefix_refl _)
    rw [empty] at size
    exact absurd size (by simp)

def Present (disk : Disk) (fs : Trie Simfs) (name : CName) : Prop :=
  ∃ text, simfsAbsoluteName disk.cwd name.bytes MAX_LINE = .ok text ∧ Loaded fs (tokens slash text)

theorem insertPresent (keyed : Keyed fs) (clean : 0 ∉ text) (new : Simfs)
    (there : Loaded fs (tokens slash text)) : (fs.insert2 text new).1 = fs := by
  have same : fs.root.insert new (tokens fs.delim text) = fs.root := by
    rw [keyed.delim]
    exact Tree.insertPresent (loadedReach.mp there) new
  rw [keyed.sound.insert2 ⟨text,clean⟩ new]
  exact congrArg (fun root => { fs with root := root }) same

theorem buffLoaded {fs' : Trie Simfs} {r m : Nat} (clean : 0 ∉ text) (low : r ≤ m)
    (grown : Grown fs fs' ((tokens slash text).take m))
    (whole : text = if m = r then buffText text r else asked text r (m - 1)) :
    Loaded fs' (tokens slash text) := by
  have same : tokens slash text = (tokens slash text).take m := by
    split at whole
    · rename_i here
      have parts := tokensBuff text r
      rw [← whole,← here] at parts
      exact parts
    · rename_i more
      have tail (c : Bytes) (member : c ∈ ((tokens slash text).take (m - 1 + 1)).drop r) :
          Component slash c :=
        (partsText clean c (List.mem_of_mem_take (List.mem_of_mem_drop member))).1
      have parts := tokensJoin tail (frontText text r)
      rw [tokensFront] at parts
      change tokens slash (asked text r (m - 1)) = _ at parts
      rw [← whole,show m - 1 + 1 = m by omega] at parts
      have front := List.take_append_drop r ((tokens slash text).take m)
      rw [List.take_take,Nat.min_eq_left low] at front
      exact parts.trans front
  rw [same]
  exact (grown.loaded _).mpr (.inr (List.prefix_refl _))

section Creat
variable {disk : Disk} {op : OpenOp} {fs' : Trie Simfs} {v : Verdict}

theorem creatNamed (ran : simfsCreat disk op fs = .ok (v,fs')) :
    ∃ text, simfsAbsoluteName disk.cwd op.name.bytes MAX_LINE = .ok text := by
  cases named : simfsAbsoluteName disk.cwd op.name.bytes MAX_LINE with
  | ok text => exact ⟨text,rfl⟩
  | error e =>
    have stops : simfsLocate disk op.name fs = .error e := by
      rw [simfsLocate,Prog.bindRun,ofExcept,named]
      rfl
    rw [simfsCreat,Prog.bindError.mpr (.inl stops)] at ran
    cases ran

theorem creatLoads (real : disk.Real) (keyed : Keyed fs) (plain : op.flags &&& O_CREAT = 0)
    (succeeded : op.retval ≠ -1) (ran : simfsCreat disk op fs = .ok (v,fs')) :
    Present disk fs' op.name := by
  obtain ⟨text,named⟩ := creatNamed ran
  refine ⟨text,named,?_⟩
  have clean := absoluteClean real op.name.noNul named
  obtain ⟨simfs,_,located⟩ := locateText keyed clean named rfl
  rw [simfsCreat,Prog.bindOf located] at ran
  dsimp only at ran
  obtain ⟨m,low,_,_,ends⟩ := populateText disk keyed clean rfl
  rcases ends with ⟨existing,missing,mid,run,grown,_,whole,_⟩ | ⟨_,_,stops⟩
  · change (simfsPopulate disk text.length _ (missingText text _) >>= _) fs = _ at ran
    rw [Prog.bindOf run] at ran
    simp only [plain,succeeded,ne_eq,not_true,if_false,if_true] at ran
    split at ran
    · rename_i same
      cases ran
      exact buffLoaded clean low grown (same.trans whole)
    · obtain ⟨_,last,inserted,done⟩ := Prog.bindOk.mp ran
      cases done
      cases inserted
      exact ((insertGrown grown.keyed clean simfsNewTrieNode rfl).loaded _).mpr
        (.inr (List.prefix_refl _))
  · change (simfsPopulate disk text.length _ (missingText text _) >>= _) fs = _ at ran
    rw [Prog.bindError.mpr (.inl stops)] at ran
    cases ran

theorem creatPresent (real : disk.Real) (keyed : Keyed fs) (plain : op.flags &&& O_CREAT = 0)
    (succeeded : op.retval ≠ -1) (present : Present disk fs op.name) :
    ∃ v, simfsCreat disk op fs = .ok (v,fs) := by
  obtain ⟨text,named,there⟩ := present
  have clean := absoluteClean real op.name.noNul named
  obtain ⟨simfs,_,located⟩ := locateText keyed clean named rfl
  rw [simfsCreat,Prog.bindOf located]
  dsimp only
  change ∃ v, (simfsPopulate disk text.length _ (missingText text _) >>= _) fs = .ok (v,fs)
  rw [Prog.bindOf (populateLoaded disk fs (loadedReach.mp there))]
  simp only [plain,succeeded,ne_eq,not_true,if_false,if_true]
  split
  · exact ⟨_,rfl⟩
  · have same := insertPresent keyed clean simfsNewTrieNode there
    simp [trieInsert,Prog.bindRun,same]

theorem creatKeeps (real : disk.Real) (keyed : Keyed fs) (plain : op.flags &&& O_CREAT = 0)
    (succeeded : op.retval ≠ -1) (ran : simfsCreat disk op fs = .ok (v,fs')) :
    fs' = fs ↔ Present disk fs op.name := by
  constructor
  · intro same
    rw [← same]
    exact creatLoads real keyed plain succeeded ran
  · intro present
    obtain ⟨w,kept⟩ := creatPresent real keyed plain succeeded present
    cases kept.symm.trans ran
    rfl

end Creat
end Names
end IoApps
