import IoApps.SimfsPath
import Mathlib.Data.Finset.Image

/-! Check mode against a reference file system that starts from the disk and applies the
records. The two stay in step while no record leads through a path that the trace removed and
the disk still has, and while what is removed has been looked at before. -/
namespace IoApps
open Lib (Bytes Tree Prog tokens joined Component)

inductive FsOp where
  | access (o : AccessOp)
  | stat (o : StatOp)
  | mkdir (o : MkdirOp)
  | creat (o : OpenOp)
  | unlink (o : UnlinkOp)
  | rmdir (o : RmdirOp)

def FsOp.name : FsOp → CName
  | .access o => o.name
  | .stat o => o.name
  | .mkdir o => o.name
  | .creat o => o.name
  | .unlink o => o.name
  | .rmdir o => o.name

def FsOp.check (disk : Disk) : FsOp → SimfsProg (Option Verdict)
  | .access o => simfsAccess disk o
  | .stat o => simfsStat disk o
  | .mkdir o => do return some (← simfsMkdir disk o)
  | .creat o => do return some (← simfsCreat disk o)
  | .unlink o => do return some (← simfsUnlink disk o)
  | .rmdir o => do return some (← simfsRmdir disk o)

structure Record where
  path : Path
  op : FsOp
  named : op.name = path.name

def checkAll (disk : Disk) : List Record → SimfsProg (List (Option Verdict))
  | [] => pure []
  | r :: rest => do
    let v ← r.op.check disk
    return v :: (← checkAll disk rest)

section Reference

abbrev RefFs := Finset (List Bytes)

def leaf (f : RefFs) (p : List Bytes) : Prop := ∀ q ∈ f, p <+: q → q = p

instance (f : RefFs) (p : List Bytes) : Decidable (leaf f p) :=
  inferInstanceAs (Decidable (∀ q ∈ f, p <+: q → q = p))

def refSucceeds (f : RefFs) (p : List Bytes) : FsOp → Prop
  | .access _ => p ∈ f
  | .stat _ => p ∈ f
  | .mkdir _ => p ∉ f ∧ p.dropLast ∈ f
  | .creat o =>
    if o.flags &&& O_CREAT = 0 then p ∈ f
    else if o.flags &&& O_EXCL = 0 then p ∈ f ∨ p.dropLast ∈ f
    else p ∉ f ∧ p.dropLast ∈ f
  | .unlink _ => p ∈ f
  | .rmdir _ => p ∈ f ∧ leaf f p

instance (f : RefFs) (p : List Bytes) (op : FsOp) : Decidable (refSucceeds f p op) := by
  cases op <;> simp only [refSucceeds] <;> infer_instance

def refNext (f : RefFs) (p : List Bytes) (op : FsOp) : RefFs :=
  if refSucceeds f p op then
    match op with
    | .access _ | .stat _ => f
    | .mkdir _ => insert p f
    | .creat o => if o.flags &&& O_CREAT = 0 then f else insert p f
    | .unlink _ | .rmdir _ => f.filter (fun q => ¬ p <+: q)
  else f

def Answers (success : Prop) : FsOp → Prop
  | .access o => (success → o.retval = 0) ∧ (¬ success → o.retval = -1)
  | .stat o => (success → o.retval = 0) ∧ (¬ success → o.retval = -1)
  | .mkdir o => (success → o.retval = 0) ∧ (¬ success → o.retval = -1)
  | .creat o => (success → 0 ≤ o.retval) ∧ (¬ success → o.retval = -1)
  | .unlink o => (success → o.retval = 0) ∧ (¬ success → o.retval = -1)
  | .rmdir o => (success → o.retval = 0) ∧ (¬ success → o.retval = -1)

def GivenBy : RefFs → List Record → Prop
  | _,[] => True
  | f,r :: rest =>
    Answers (refSucceeds f r.path.comps r.op) r.op ∧ GivenBy (refNext f r.path.comps r.op) rest

instance (success : Prop) [Decidable success] (op : FsOp) : Decidable (Answers success op) := by
  cases op <;> simp only [Answers] <;> infer_instance

def GivenBy.decide : (f : RefFs) → (records : List Record) → Decidable (GivenBy f records)
  | _,[] => isTrue trivial
  | f,r :: rest =>
    have := GivenBy.decide (refNext f r.path.comps r.op) rest
    inferInstanceAs (Decidable (_ ∧ _))

instance (f : RefFs) (records : List Record) : Decidable (GivenBy f records) :=
  GivenBy.decide f records

structure DiskTree (disk : Disk) (d : RefFs) : Prop where
  root : [] ∈ d
  closed : ∀ p q, q ∈ d → p <+: q → p ∈ d
  access : ∀ comps, comps ≠ [] → Named comps →
    (disk.access (joined slash comps) = true ↔ comps ∈ d)

end Reference

def Removes : FsOp → Prop
  | .unlink _ | .rmdir _ => True
  | _ => False

/-- When a record is safe: nothing on its way was removed by the trace while the disk still has
it, and what it would remove is in the trie and a leaf where that matters. -/
structure StepFits (d f : RefFs) (fs : Trie Simfs) (p : List Bytes) (op : FsOp) : Prop where
  kept : ∀ q ∈ p.inits, q ∈ d → q ∈ f
  removes : Removes op → p ∈ f → refSucceeds f p op ∧ Loaded fs p

def FitsAll (disk : Disk) (d : RefFs) : RefFs → Trie Simfs → List Record → Prop
  | _,_,[] => True
  | f,fs,r :: rest => StepFits d f fs r.path.comps r.op ∧
    match r.op.check disk fs with
    | .ok (_,fs') => FitsAll disk d (refNext f r.path.comps r.op) fs' rest
    | .error _ => True

instance (fs : Trie Simfs) (q : List Bytes) : Decidable (Loaded fs q) :=
  inferInstanceAs (Decidable ((fs.root.at? q).isSome = true))

instance (op : FsOp) : Decidable (Removes op) := by
  cases op <;> simp only [Removes] <;> infer_instance

instance (d f : RefFs) (fs : Trie Simfs) (p : List Bytes) (op : FsOp) :
    Decidable (StepFits d f fs p op) :=
  decidable_of_iff ((∀ q ∈ p.inits, q ∈ d → q ∈ f) ∧
      (Removes op → p ∈ f → refSucceeds f p op ∧ Loaded fs p))
    ⟨fun h => ⟨h.1,h.2⟩,fun h => ⟨h.kept,h.removes⟩⟩

def FitsAll.decide (disk : Disk) (d : RefFs) : (f : RefFs) → (fs : Trie Simfs) →
    (records : List Record) → Decidable (FitsAll disk d f fs records)
  | _,_,[] => isTrue trivial
  | f,fs,r :: rest => by
    rw [FitsAll]
    have next (fs' : Trie Simfs) := FitsAll.decide disk d (refNext f r.path.comps r.op) fs' rest
    cases r.op.check disk fs <;> infer_instance

instance (disk : Disk) (d f : RefFs) (fs : Trie Simfs) (records : List Record) :
    Decidable (FitsAll disk d f fs records) := FitsAll.decide disk d f fs records

/-- The reference and the trie agree wherever the trie or the disk can tell. -/
structure Sync (d f : RefFs) (fs : Trie Simfs) : Prop where
  formed : Formed fs
  loaded : ∀ q, Loaded fs q → q ∈ f
  known : ∀ q ∈ f, Loaded fs q ∨ q ∈ d
  closed : ∀ p q, q ∈ f → p <+: q → p ∈ f

theorem initLoaded {q : List Bytes} : Loaded simfsInit q ↔ q = [] := by
  cases q with
  | nil => simp [loadedRoot]
  | cons k q => simp [Loaded,simfsInit,Trie.init,Tree.atCons,Tree.leaf,Lib.Forest.find]

theorem syncInit {disk : Disk} {d : RefFs} (tree : DiskTree disk d) : Sync d d simfsInit where
  formed := ⟨rfl,trivial⟩
  loaded := fun _ h => initLoaded.mp h ▸ tree.root
  known := fun _ h => .inr h
  closed := tree.closed

theorem takePrefix {p q : List Bytes} (ahead : q <+: p) : q = p.take q.length :=
  (List.prefix_iff_eq_take.mp ahead)

section Step
variable {disk : Disk} {d f : RefFs} {fs fs' : Trie Simfs} {p : Path} {m : Nat}

theorem frontierSync (tree : DiskTree disk d) (sync : Sync d f fs)
    (kept : ∀ q ∈ p.comps.inits, q ∈ d → q ∈ f) (frontier : Frontier disk fs fs' p.comps m) :
    Sync d f fs' where
  formed := frontier.formed
  loaded := by
    intro q there
    rcases (frontier.loaded q).mp there with old | ahead
    · exact sync.loaded q old
    · have inside : q <+: p.comps := ahead.trans (List.take_prefix _ _)
      have short : q.length ≤ m := by
        have := ahead.length_le
        rw [List.length_take] at this
        omega
      rcases Nat.lt_or_ge (fs.root.reach p.comps) q.length with later | sooner
      · have onDisk := frontier.onDisk (q.length - 1) (by omega) (by omega)
        rw [show q.length - 1 + 1 = q.length by omega,← takePrefix inside] at onDisk
        have some : q ≠ [] := by
          rintro rfl
          exact absurd later (Nat.not_lt_zero _)
        have named : Named q := fun c member => p.parts c (inside.subset member)
        exact kept q (List.mem_inits _ _ |>.mpr inside) ((tree.access q some named).mp onDisk)
      · refine sync.loaded q ?_
        have found := Tree.walkReach fs.root p.comps
        have ahead' : q <+: p.comps.take (fs.root.reach p.comps) := by
          rw [takePrefix inside]
          exact List.take_prefix_take_left sooner
        obtain ⟨r,same⟩ := ahead'
        refine Tree.atPrefix (q := r) ?_
        rwa [same,Tree.at?,Option.isSome_map]
  known := by
    intro q member
    rcases sync.known q member with there | onDisk
    · exact .inl ((frontier.loaded q).mpr (.inl there))
    · exact .inr onDisk
  closed := sync.closed

theorem frontierMem (tree : DiskTree disk d) (sync : Sync d f fs)
    (kept : ∀ q ∈ p.comps.inits, q ∈ d → q ∈ f) (frontier : Frontier disk fs fs' p.comps m)
    {i : Nat} (bound : i ≤ p.comps.length) : p.comps.take i ∈ f ↔ i ≤ m := by
  constructor
  · intro member
    by_contra beyond
    have short : m < p.comps.length := by omega
    have next : p.comps.take (m + 1) ∈ f :=
      sync.closed _ _ member (List.take_prefix_take_left (by omega))
    have some : p.comps.take (m + 1) ≠ [] := by simp [p.proper]
    rcases sync.known _ next with there | onDisk
    · have low := frontier.low
      have high := Tree.reachMax (t := fs.root) (p := p.comps) short
        (by rwa [Loaded,Tree.at?,Option.isSome_map] at there)
      omega
    · have named : Named (p.comps.take (m + 1)) := fun c inside =>
        p.parts c (List.mem_of_mem_take inside)
      have yes := (tree.access _ some named).mpr onDisk
      rw [frontier.stopped short] at yes
      exact Bool.false_ne_true yes
  · intro low
    refine (frontierSync tree sync kept frontier).loaded _ ((frontier.loaded _).mpr (.inr ?_))
    exact List.take_prefix_take_left low

theorem syncInsert (sync : Sync d f fs) (parent : p.comps.dropLast ∈ f) (formed : Formed fs')
    (loaded : ∀ q, Loaded fs' q ↔ Loaded fs q ∨ q <+: p.comps) :
    Sync d (insert p.comps f) fs' := by
  have way {q : List Bytes} (ahead : q <+: p.comps) : q ∈ insert p.comps f := by
    by_cases whole : q = p.comps
    · exact Finset.mem_insert.mpr (.inl whole)
    · have short : q <+: p.comps.dropLast := by
        rw [takePrefix ahead,List.dropLast_eq_take]
        refine List.take_prefix_take_left ?_
        have size := ahead.length_le
        have differs : q.length ≠ p.comps.length := fun same => whole (ahead.eq_of_length same)
        omega
      exact Finset.mem_insert_of_mem (sync.closed _ _ parent short)
  refine ⟨formed,?_,?_,?_⟩
  · intro q there
    rcases (loaded q).mp there with old | ahead
    · exact Finset.mem_insert_of_mem (sync.loaded q old)
    · exact way ahead
  · intro q member
    rcases Finset.mem_insert.mp member with rfl | old
    · exact .inl ((loaded _).mpr (.inr (List.prefix_refl _)))
    · exact (sync.known q old).imp_left fun there => (loaded q).mpr (.inl there)
  · intro a b member ahead
    rcases Finset.mem_insert.mp member with rfl | old
    · exact way ahead
    · exact Finset.mem_insert_of_mem (sync.closed a b old ahead)

theorem syncRemove (sync : Sync d f fs) (formed : Formed fs')
    (loaded : ∀ q, Loaded fs' q ↔ Loaded fs q ∧ ¬ p.comps <+: q) :
    Sync d (f.filter (fun q => ¬ p.comps <+: q)) fs' := by
  refine ⟨formed,?_,?_,?_⟩
  · intro q there
    obtain ⟨old,aside⟩ := (loaded q).mp there
    exact Finset.mem_filter.mpr ⟨sync.loaded q old,aside⟩
  · intro q member
    obtain ⟨old,aside⟩ := Finset.mem_filter.mp member
    exact (sync.known q old).imp_left fun there => (loaded q).mpr ⟨there,aside⟩
  · intro a b member ahead
    obtain ⟨old,aside⟩ := Finset.mem_filter.mp member
    exact Finset.mem_filter.mpr ⟨sync.closed a b old ahead,fun below => aside (below.trans ahead)⟩

theorem lookedUp (tree : DiskTree disk d) (sync : Sync d f fs)
    (kept : ∀ q ∈ p.comps.inits, q ∈ d → q ∈ f) :
    ∃ m fs' existing missing,
      simfsPopulate disk p.name.bytes.length (prefixText p.comps (fs.root.reach p.comps))
        (p.name.bytes.drop
          (commonLength (prefixText p.comps (fs.root.reach p.comps)) p.name.bytes)) fs =
        .ok ((decide (p.comps ∈ f),existing,missing),fs') ∧ Sync d f fs' ∧
      (p.name.bytes = existing ↔ p.comps ∈ f) ∧ Cut p m existing missing ∧
      (m < p.comps.length ↔ p.comps ∉ f) ∧ (p.comps.dropLast ∈ f ↔ p.comps.length ≤ m + 1) := by
  obtain ⟨m,fs',existing,missing,run,frontier,cut⟩ := populateRun disk sync.formed p
  have all := frontierMem tree sync kept frontier (Nat.le_refl p.comps.length)
  rw [List.take_length] at all
  have full : m = p.comps.length ↔ p.comps ∈ f := by
    have := frontier.bound
    rw [all]
    omega
  have parent := frontierMem tree sync kept frontier (i := p.comps.length - 1) (by omega)
  rw [← List.dropLast_eq_take] at parent
  refine ⟨m,fs',existing,missing,?_,frontierSync tree sync kept frontier,?_,cut,?_,?_⟩
  · rw [run]
    simp only [full]
  · exact (cutFull frontier.bound cut).trans full
  · have := frontier.bound
    rw [← full]
    omega
  · rw [parent]
    omega

theorem probeStep (tree : DiskTree disk d) (sync : Sync d f fs)
    (kept : ∀ q ∈ p.comps.inits, q ∈ d → q ∈ f) {name : CName} (named : name = p.name)
    {retval : Int32} (zero : retval = 0 ↔ p.comps ∈ f) (missingRv : Option Verdict) :
    ∃ fs', simfsProbe disk missingRv name retval fs = .ok (some .ok,fs') ∧ Sync d f fs' := by
  subst named
  obtain ⟨simfs,located⟩ := locateRun disk sync.formed p
  rw [simfsProbe,Prog.bindOf located]
  by_cases there : p.name.bytes = prefixText p.comps (fs.root.reach p.comps)
  · have full := (prefixFull p (Tree.reachBound _ _)).mp there
    have member : p.comps ∈ f := sync.loaded _ (loadedReach.mpr full)
    exact ⟨fs,by simp only [if_pos there,if_pos (zero.mpr member),Prog.pureRun],sync⟩
  · obtain ⟨m,fs',existing,missing,run,sync',_⟩ := lookedUp tree sync kept
    refine ⟨fs',?_,sync'⟩
    simp only [if_neg there]
    rw [Prog.bindOf run]
    by_cases member : p.comps ∈ f
    · simp [zero.mpr member,member]
    · simp [mt zero.mp member,member]

theorem mkdirStep (tree : DiskTree disk d) (sync : Sync d f fs)
    (kept : ∀ q ∈ p.comps.inits, q ∈ d → q ∈ f) {o : MkdirOp} (named : o.name = p.name)
    (answers : Answers (refSucceeds f p.comps (.mkdir o)) (.mkdir o)) :
    ∃ fs', simfsMkdir disk o fs = .ok (.ok,fs') ∧ Sync d (refNext f p.comps (.mkdir o)) fs' := by
  obtain ⟨simfs,located⟩ := locateRun disk sync.formed p
  obtain ⟨m,fs',existing,missing,run,sync',full,cut,short,parent⟩ := lookedUp tree sync kept
  obtain ⟨success,failure⟩ := answers
  rw [refNext]
  rw [simfsMkdir,named,Prog.bindOf located]
  simp only []
  rw [Prog.bindOf run]
  by_cases member : p.comps ∈ f
  · have fails : ¬ refSucceeds f p.comps (.mkdir o) := fun h => h.1 member
    have retval : o.retval ≠ 0 := by
      rw [failure fails]
      decide
    refine ⟨fs',?_,by rwa [if_neg fails]⟩
    simp only [if_pos (full.mpr member),if_pos retval,Prog.pureRun]
  · have missed := short.mpr member
    obtain ⟨last,ends,plain⟩ := cutLast missed cut
    have would := wouldSuccIff missed cut
    simp only [if_neg (mt full.mp member),ends,if_neg plain]
    by_cases ready : p.comps.dropLast ∈ f
    · have succeeds : refSucceeds f p.comps (.mkdir o) := ⟨member,ready⟩
      have alone : strccount (dropSlash missing) slash = 0 :=
        would.mpr (Nat.le_antisymm missed (parent.mp ready))
      obtain ⟨fs'',inserted,formed,loaded⟩ := trieInsertRun sync'.formed p true
      refine ⟨fs'',?_,?_⟩
      · have same : ¬ o.retval ≠ 0 := not_not.mpr (success succeeds)
        simp only [if_neg same]
        rw [Prog.bindOf inserted]
        simp [alone]
      · rw [if_pos succeeds]
        exact syncInsert sync' ready formed loaded
    · have fails : ¬ refSucceeds f p.comps (.mkdir o) := fun h => ready h.2
      have retval : o.retval ≠ 0 := by
        rw [failure fails]
        decide
      have more : ¬ strccount (dropSlash missing) slash = 0 := fun alone =>
        ready (parent.mpr (Nat.le_of_eq (would.mp alone).symm))
      refine ⟨fs',?_,by rwa [if_neg fails]⟩
      simp [retval,more]

theorem creatStep (tree : DiskTree disk d) (sync : Sync d f fs)
    (kept : ∀ q ∈ p.comps.inits, q ∈ d → q ∈ f) {o : OpenOp} (named : o.name = p.name)
    (answers : Answers (refSucceeds f p.comps (.creat o)) (.creat o)) :
    ∃ fs', simfsCreat disk o fs = .ok (.ok,fs') ∧ Sync d (refNext f p.comps (.creat o)) fs' := by
  obtain ⟨simfs,located⟩ := locateRun disk sync.formed p
  obtain ⟨m,fs',existing,missing,run,sync',full,cut,short,parent⟩ := lookedUp tree sync kept
  obtain ⟨success,failure⟩ := answers
  have opened (succeeds : refSucceeds f p.comps (.creat o)) : o.retval ≠ -1 := by
    intro same
    have := success succeeds
    rw [same] at this
    exact absurd this (by decide)
  rw [simfsCreat,named,Prog.bindOf located]
  simp only []
  rw [Prog.bindOf run]
  by_cases member : p.comps ∈ f
  · have closed : insert p.comps f = f := Finset.insert_eq_of_mem member
    refine ⟨fs',?_,?_⟩
    · simp only [if_pos (full.mpr member)]
      by_cases creating : o.flags &&& O_CREAT = 0
      · have succeeds : refSucceeds f p.comps (.creat o) := by
          rw [refSucceeds,if_pos creating]
          exact member
        simp [creating,opened succeeds]
      · by_cases excl : o.flags &&& O_EXCL = 0
        · simp [creating,excl]
        · have fails : ¬ refSucceeds f p.comps (.creat o) := by
            rw [refSucceeds,if_neg creating,if_neg excl]
            exact fun h => h.1 member
          simp [creating,excl,failure fails]
    · rw [refNext]
      split
      · simp only [closed,ite_self]
        exact sync'
      · exact sync'
  · have missed := short.mpr member
    have would := wouldSuccIff missed cut
    simp only [if_neg (mt full.mp member)]
    by_cases creating : o.flags &&& O_CREAT = 0
    · have fails : ¬ refSucceeds f p.comps (.creat o) := by
        rw [refSucceeds,if_pos creating]
        exact member
      refine ⟨fs',by simp [creating,failure fails],?_⟩
      rwa [refNext,if_neg fails]
    · have iff : refSucceeds f p.comps (.creat o) ↔ p.comps.dropLast ∈ f := by
        rw [refSucceeds,if_neg creating]
        split <;> simp [member]
      by_cases ready : p.comps.dropLast ∈ f
      · have alone : strccount (dropSlash missing) slash = 0 :=
          would.mpr (Nat.le_antisymm missed (parent.mp ready))
        obtain ⟨fs'',inserted,formed,loaded⟩ := trieInsertRun sync'.formed p true
        refine ⟨fs'',?_,?_⟩
        · simp only [if_neg creating,if_neg (opened (iff.mpr ready))]
          rw [Prog.bindOf inserted]
          simp [alone]
        · rw [refNext,if_pos (iff.mpr ready)]
          simp only [if_neg creating]
          exact syncInsert sync' ready formed loaded
      · have more : ¬ strccount (dropSlash missing) slash = 0 := fun alone =>
          ready (parent.mpr (Nat.le_of_eq (would.mp alone).symm))
        refine ⟨fs',?_,?_⟩
        · simp [creating,failure (mt iff.mp ready),more]
        · rwa [refNext,if_neg (mt iff.mp ready)]

theorem unlinkStep (tree : DiskTree disk d) (sync : Sync d f fs)
    (kept : ∀ q ∈ p.comps.inits, q ∈ d → q ∈ f) {o : UnlinkOp} (named : o.name = p.name)
    (there : p.comps ∈ f → Loaded fs p.comps) (zero : o.retval = 0 ↔ p.comps ∈ f) :
    ∃ fs', simfsUnlink disk o fs = .ok (.ok,fs') ∧
      Sync d (if p.comps ∈ f then f.filter (fun q => ¬ p.comps <+: q) else f) fs' := by
  obtain ⟨simfs,located⟩ := locateRun disk sync.formed p
  have bound := Tree.reachBound fs.root p.comps
  rw [simfsUnlink,named,Prog.bindOf located]
  simp only []
  by_cases member : p.comps ∈ f
  · have here := (prefixFull p bound).mpr (loadedReach.mp (there member))
    obtain ⟨fs',deleted,formed,loaded⟩ := trieDeleteRun sync.formed p
    refine ⟨fs',?_,?_⟩
    · simp only [if_pos here]
      rw [Prog.bindOf deleted]
      simp [zero.mpr member]
    · rw [if_pos member]
      exact syncRemove sync formed loaded
  · have gone : ¬ p.name.bytes = prefixText p.comps (fs.root.reach p.comps) := fun same =>
      member (sync.loaded _ (loadedReach.mpr ((prefixFull p bound).mp same)))
    obtain ⟨m,fs',existing,missing,run,sync',_⟩ := lookedUp tree sync kept
    refine ⟨fs',?_,by rwa [if_neg member]⟩
    simp only [if_neg gone]
    rw [Prog.bindOf run]
    simp [mt zero.mp member,member]

theorem checkStep (tree : DiskTree disk d) (sync : Sync d f fs) {op : FsOp}
    (named : op.name = p.name) (answers : Answers (refSucceeds f p.comps op) op)
    (fits : StepFits d f fs p.comps op) :
    ∃ fs', op.check disk fs = .ok (some .ok,fs') ∧ Sync d (refNext f p.comps op) fs' := by
  have zero {P : Prop} {retval : Int32} (h : (P → retval = 0) ∧ (¬ P → retval = -1)) :
      retval = 0 ↔ P := by
    refine ⟨fun same => ?_,h.1⟩
    by_contra fails
    have clash := (h.2 fails).symm.trans same
    exact absurd clash (by decide)
  cases op with
  | access o =>
    obtain ⟨fs',run,sync'⟩ := probeStep tree sync fits.kept named (zero answers) none
    exact ⟨fs',run,by simpa [refNext] using sync'⟩
  | stat o =>
    obtain ⟨fs',run,sync'⟩ := probeStep tree sync fits.kept named (zero answers) (some .enoent)
    exact ⟨fs',run,by simpa [refNext] using sync'⟩
  | mkdir o =>
    obtain ⟨fs',run,sync'⟩ := mkdirStep tree sync fits.kept named answers
    exact ⟨fs',by rw [FsOp.check,Prog.bindOf run,Prog.pureRun],sync'⟩
  | creat o =>
    obtain ⟨fs',run,sync'⟩ := creatStep tree sync fits.kept named answers
    exact ⟨fs',by rw [FsOp.check,Prog.bindOf run,Prog.pureRun],sync'⟩
  | unlink o =>
    have there := fun member => (fits.removes trivial member).2
    obtain ⟨fs',run,sync'⟩ := unlinkStep tree sync fits.kept named there (zero answers)
    refine ⟨fs',by rw [FsOp.check,Prog.bindOf run,Prog.pureRun],?_⟩
    simpa [refNext,refSucceeds] using sync'
  | rmdir o =>
    have there := fun member => (fits.removes trivial member).2
    have iff : refSucceeds f p.comps (.rmdir o) ↔ p.comps ∈ f :=
      ⟨And.left,fun member => (fits.removes trivial member).1⟩
    obtain ⟨fs',run,sync'⟩ := unlinkStep (o := ⟨o.name,o.retval,o.info⟩) tree sync fits.kept named
      there ((zero answers).trans iff)
    refine ⟨fs',by rw [FsOp.check,simfsRmdir,Prog.bindOf run,Prog.pureRun],?_⟩
    simpa [refNext,iff] using sync'

end Step

def Silent (disk : Disk) (records : List Record) : Prop :=
  ∃ fs', checkAll disk records simfsInit = .ok (records.map fun _ => some .ok,fs')

theorem checkRun {disk : Disk} {d f : RefFs} (tree : DiskTree disk d) {records : List Record}
    {fs : Trie Simfs} (sync : Sync d f fs) (given : GivenBy f records)
    (fits : FitsAll disk d f fs records) :
    ∃ fs', checkAll disk records fs = .ok (records.map fun _ => some .ok,fs') := by
  induction records generalizing f fs with
  | nil => exact ⟨fs,rfl⟩
  | cons r rest ih =>
    obtain ⟨answers,given⟩ := given
    obtain ⟨one,fits⟩ := fits
    obtain ⟨fs',run,sync'⟩ := checkStep tree sync r.named answers one
    rw [run] at fits
    obtain ⟨fs'',later⟩ := ih sync' given fits
    refine ⟨fs'',?_⟩
    rw [checkAll,Prog.bindOf run,Prog.bindOf later]
    rfl

/-- A trace the reference file system would give is checked without a discrepancy when every
record fits. -/
theorem checkSilent {disk : Disk} {d : RefFs} (tree : DiskTree disk d) {records : List Record}
    (given : GivenBy d records) (fits : FitsAll disk d d simfsInit records) :
    Silent disk records :=
  checkRun tree (syncInit tree) given fits

def diskOf (d : RefFs) : Disk := ⟨fun s => decide (tokens slash s ∈ d),fun _ => 0,none⟩

theorem diskOfTree {d : RefFs} (root : [] ∈ d) (closed : ∀ q ∈ d, ∀ p ∈ q.inits, p ∈ d) :
    DiskTree (diskOf d) d where
  root := root
  closed := fun p q member ahead => closed q member p ((List.mem_inits _ _).mpr ahead)
  access := fun comps _ named => by
    simp only [diskOf,Lib.tokensJoined fun c member => (named c member).1,decide_eq_true_iff]

section Witness

def noInfo : OpInfo := ⟨1,0,⟨0,0⟩⟩

def pathA : Path := ⟨[[0x61]],by decide,by decide,by decide⟩
def pathB : Path := ⟨[[0x62]],by decide,by decide,by decide⟩
def pathBC : Path := ⟨[[0x62],[0x63]],by decide,by decide,by decide⟩

def diskA : RefFs := {[],[[0x61]]}

theorem diskATree : DiskTree (diskOf diskA) diskA := diskOfTree (by decide) (by decide)

theorem unlinkReported : ¬ ∀ (disk : Disk) (d : RefFs) (records : List Record),
    DiskTree disk d → GivenBy d records → Silent disk records := by
  intro all
  obtain ⟨fs',run⟩ := all (diskOf diskA) diskA [⟨pathA,.unlink ⟨pathA.name,0,noInfo⟩,rfl⟩]
    diskATree (by decide)
  have verdicts : (checkAll (diskOf diskA) [⟨pathA,.unlink ⟨pathA.name,0,noInfo⟩,rfl⟩]
      simfsInit).map Prod.fst = .ok [some .ok] := congrArg (Except.map Prod.fst) run
  exact absurd verdicts (by decide)

def traceA : List Record := [⟨pathA,.access ⟨pathA.name,0,0,noInfo⟩,rfl⟩,
  ⟨pathB,.mkdir ⟨pathB.name,0,0,noInfo⟩,rfl⟩,
  ⟨pathBC,.creat ⟨pathBC.name,O_CREAT,0,3,noInfo⟩,rfl⟩,
  ⟨pathBC,.unlink ⟨pathBC.name,0,noInfo⟩,rfl⟩,
  ⟨pathB,.rmdir ⟨pathB.name,0,noInfo⟩,rfl⟩,
  ⟨pathBC,.stat ⟨pathBC.name,-1,noInfo⟩,rfl⟩,
  ⟨pathA,.unlink ⟨pathA.name,0,noInfo⟩,rfl⟩]

theorem checkSilentTrace : DiskTree (diskOf diskA) diskA ∧ GivenBy diskA traceA ∧
    FitsAll (diskOf diskA) diskA diskA simfsInit traceA ∧ Silent (diskOf diskA) traceA :=
  ⟨diskATree,by decide,by decide,checkSilent diskATree (by decide) (by decide)⟩

end Witness
end IoApps
