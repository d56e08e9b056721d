import IoApps.ReplicateLifetime
import IoApps.ReplicateOffsets
import IoApps.ReplicateTracker

/-! The descriptors the replay gives to the kernel: each of them is open when the call is made. -/
namespace IoApps
open Lib (Arena Prog)

section Log
variable {log : List (Call × Int64)} {n : Int32} {r : Int64}

def PassedOpen : List (Call × Int64) → Prop
  | [] => True
  | (c,_) :: earlier => (∀ n ∈ c.descriptors, isOpen earlier n = true) ∧ PassedOpen earlier

def DevicesOpen (env : Env) : Prop := ∀ entry ∈ deviceLog env, entry.2.toInt32 ≠ -1

instance {env : Env} : Decidable (DevicesOpen env) := inferInstanceAs (Decidable (∀ _ ∈ _,_))

theorem passedNone {c : Call} (none : c.descriptors = []) (passed : PassedOpen log) :
    PassedOpen ((c,r) :: log) := by
  refine ⟨fun n member => ?_,passed⟩
  rw [none] at member
  exact absurd member List.not_mem_nil

theorem passedClose {fd : Int32} (opened : isOpen log fd = true) (passed : PassedOpen log) :
    PassedOpen ((.close fd,r) :: log) :=
  ⟨fun n member => by rw [List.mem_singleton.mp member]; exact opened,passed⟩

theorem isOpenMore {name : CName} {flags : Int32} {mode : Option UInt32}
    (opened : isOpen log n = true) : isOpen ((.open name flags mode,r) :: log) n = true :=
  isOpenOpen.mpr (.inr opened)

theorem isOpenLess {fd : Int32} (other : fd ≠ n) (opened : isOpen log n = true) :
    isOpen ((.close fd,r) :: log) n = true :=
  isOpenClose.mpr ⟨opened,fun same => absurd same other⟩

end Log
section Device
variable {env : Env} {ok : Allowed} {s s' : State} {n : Int32}

structure Reserved (s : State) (n : Int32) : Prop where
  opened : isOpen s.log n = true
  apart : ∀ a m, s.fdMaps.read a = some m → supportedType m.type = true → m.myFd ≠ n

theorem freshNot (fresh : FreshOpens env) {name : CName} {flags : Int32} {mode : Option UInt32}
    (opened : isOpen s.log n = true) (valid : s.answer env (.open name flags mode) ≠ -1) :
    s.answer env (.open name flags mode) ≠ n := by
  intro same
  have closed : isOpen s.log (s.answer env (.open name flags mode)) = false :=
    (fresh s.log name flags mode).resolve_left valid
  rw [same,opened] at closed
  exact absurd closed (by simp)

theorem originReserved {counted : Int32} {m : FdMap} (fresh : FreshOpens env)
    (acts : env.actReplicate = true) (origin : Origin env ok s counted m s')
    (opened : isOpen s.log n = true) (supported : supportedType m.type = true) : m.myFd ≠ n := by
  cases origin with
  | replayed _ answered valid mine =>
    rw [mine,← answered]
    exact freshNot fresh opened (answered ▸ valid)
  | placeholder up mine replaying =>
    rw [replaying acts] at supported
    exact absurd supported (by simp)
  | socket down mine unsupported =>
    rw [unsupported] at supported
    exact absurd supported (by simp)
  | pipe ended down unsupported =>
    rw [unsupported] at supported
    exact absurd supported (by simp)

theorem releaseOpen {a : Nat} {m : FdMap} (live : s.fdMaps.read a = some m)
    (release : Release env s m s') (reserved : Reserved s n) : isOpen s'.log n = true := by
  cases release with
  | untracked | kept | simulated => exact reserved.opened
  | closed supported => exact isOpenLess (reserved.apart a m live supported) reserved.opened

theorem reservedOpen (fresh : FreshOpens env) (edit : Edit env ok s s') (reserved : Reserved s n) :
    isOpen s'.log n = true := by
  cases edit with
  | simmed | openNumber | seeked | tableAdded | linked | aliased => exact reserved.opened
  | logged c quiet => exact (isOpenQuiet quiet).trans reserved.opened
  | openFailed => exact isOpenMore reserved.opened
  | probed valid =>
    exact isOpenLess (freshNot fresh reserved.opened valid) (isOpenMore reserved.opened)
  | placed origin parents put =>
    rw [putLog put]
    cases origin with
    | replayed => exact isOpenMore reserved.opened
    | placeholder | socket | pipe => exact reserved.opened
  | copied copies there live put =>
    rw [putLog put]
    exact reserved.opened
  | closed table found live release =>
    have after := releaseOpen live release reserved
    exact after
  | closeFailed there live supported =>
    exact isOpenLess (reserved.apart _ _ live supported) reserved.opened

theorem reservedEdit (fresh : FreshOpens env) (acts : env.actReplicate = true)
    (edit : Edit env ok s s') (reserved : Reserved s n) : Reserved s' n where
  opened := reservedOpen fresh edit reserved
  apart := by
    intro a m' live supported
    rcases mapsEdit edit live with ⟨b,m,old,alike⟩ | ⟨counted,s₁,origin,_⟩
    · rw [alike.mine]
      exact reserved.apart b m old (alike.type ▸ supported)
    · exact originReserved fresh acts origin reserved.opened supported

end Device
section Passing
variable {env : Env} {ok : Allowed} {s s' : State}

structure Orderly (s : State) : Prop where
  passed : PassedOpen s.log
  devnull : Reserved s s.globalDevnullFd
  devzero : Reserved s s.globalDevzeroFd

theorem heldOpen (covered : Covered env s) (acts : env.actReplicate = true) (orderly : Orderly s)
    {n : Int32} (held : Held s n) : isOpen s.log n = true := by
  rcases held with null | zero | ⟨i,member,m,live,supported,mine⟩
  · exact null ▸ orderly.devnull.opened
  · exact zero ▸ orderly.devzero.opened
  · rw [← mine]
    exact covered.opened acts _ (countEntriesPos member live supported)

theorem itemOpen {i : FdItem} {m : FdMap} (covered : Covered env s)
    (acts : env.actReplicate = true) (member : i ∈ s.items)
    (live : s.fdMaps.read i.fdMap = some m) (supported : supportedType m.type = true) :
    isOpen s.log m.myFd = true :=
  covered.opened acts _ (countEntriesPos member live supported)

theorem releasePassed {i : FdItem} {m : FdMap} (covered : Covered env s)
    (acts : env.actReplicate = true) (member : i ∈ s.items)
    (live : s.fdMaps.read i.fdMap = some m) (release : Release env s m s')
    (passed : PassedOpen s.log) : PassedOpen s'.log := by
  cases release with
  | untracked | kept | simulated => exact passed
  | closed supported =>
    have opened := itemOpen covered acts member live supported
    exact passedClose opened passed

/-- The step lemma: what an edit passes to the kernel is open. -/
theorem passedEdit (acts : env.actReplicate = true) (edit : Edit env ok s s')
    (covered : Covered env s) (orderly : Orderly s) : PassedOpen s'.log := by
  have passed := orderly.passed
  cases edit with
  | simmed | openNumber | seeked | tableAdded | linked | aliased => exact passed
  | logged c quiet traced _ held =>
    exact ⟨fun n member => heldOpen covered acts orderly (held n member),passed⟩
  | openFailed => exact passedNone rfl passed
  | probed valid =>
    exact passedClose ((isOpenBy rfl valid).mpr (.inl rfl)) (passedNone rfl passed)
  | placed origin parents put =>
    rw [putLog put]
    cases origin with
    | replayed => exact passedNone rfl passed
    | placeholder | socket | pipe => exact passed
  | copied copies there live put =>
    rw [putLog put]
    exact passed
  | closed table found live release =>
    have member := (Found.mk ⟨_,table,found⟩).member
    have after := releasePassed covered acts member live release passed
    exact after
  | closeFailed there live supported =>
    have opened := itemOpen covered acts there live supported
    exact passedClose opened passed

theorem orderlyEdit (fresh : FreshOpens env) (acts : env.actReplicate = true)
    (edit : Edit env ok s s') (covered : Covered env s) (orderly : Orderly s) : Orderly s' := by
  obtain ⟨settled,_⟩ := settledEdit edit
  refine ⟨passedEdit acts edit covered orderly,?_,?_⟩
  · rw [settled.devnull]
    exact reservedEdit fresh acts edit orderly.devnull
  · rw [settled.devzero]
    exact reservedEdit fresh acts edit orderly.devzero

end Passing
section Reached
variable {env : Env} {pid : Int32} {s : State}

theorem initOrderly (devices : DevicesOpen env) (ran : initialised env pid = some s) :
    Orderly s := by
  obtain ⟨log,isNull,isZero⟩ := initDevices ran
  obtain ⟨_,_,b,c,d,_,_,_,_,rfl,put₀,put₁,put₂,one,two,three,_,_,_,same⟩ := (initBegan ran).puts
  have apart (n : Int32) : ∀ a m, s.fdMaps.read a = some m → supportedType m.type = true →
      m.myFd ≠ n := by
    intro a m live supported
    have spec : m.type = .spec := by
      have live : d.fdMaps.read a = some m := by rw [same] at live; exact live
      rcases putMaps put₂ live with mine | live
      · exact mine ▸ three.type
      · rcases putMaps put₁ live with mine | live
        · exact mine ▸ two.type
        · rcases putMaps put₀ live with mine | live
          · exact mine ▸ one.type
          · simp [firstTable,State.start,Arena.read] at live
    rw [spec] at supported
    exact absurd supported (by decide)
  rw [log] at isNull isZero
  have null := devices _ (List.mem_cons_of_mem _ List.mem_cons_self)
  have zero := devices _ List.mem_cons_self
  refine ⟨?_,⟨?_,apart _⟩,⟨?_,apart _⟩⟩
  · rw [log]
    exact passedNone rfl (passedNone rfl trivial)
  · rw [log,isNull _ rfl]
    simpa [isOpen,deviceLog] using .inr (.inl null)
  · rw [log,isZero _ rfl]
    simpa [isOpen,deviceLog] using .inl zero

theorem reachedOrderly (acts : env.actReplicate = true) (fresh : FreshOpens env)
    (closes : ClosesSucceed env) (devices : DevicesOpen env)
    (reached : Reached env (carefulOp env) pid s) : Owned s ∧ Covered env s ∧ Orderly s := by
  have obeys : Obeys env := fun _ => ⟨fresh,closes⟩
  induction reached with
  | init ran =>
    have began := initBegan ran
    exact ⟨began.owned,began.covered,initOrderly devices ran⟩
  | step before met ran ih =>
    refine (opRuns (carefulPermits ih.1 met)).kept (fun s => Owned s ∧ Covered env s ∧ Orderly s)
      (fun s t edit both => ?_) ih ran
    obtain ⟨owned,covered,orderly⟩ := both
    exact ⟨ownedEdit not_false edit owned,coveredEdit obeys not_false edit owned covered,
      orderlyEdit fresh acts edit covered orderly⟩

/-- Whatever is replayed, with forks and shared tables, no call is made on a descriptor that is
not open: none before it is opened, none after it is closed. -/
theorem callsOnOpen (acts : env.actReplicate = true) (fresh : FreshOpens env)
    (closes : ClosesSucceed env) (devices : DevicesOpen env)
    (reached : Reached env (carefulOp env) pid s) : PassedOpen s.log :=
  (reachedOrderly acts fresh closes devices reached).2.2.passed

theorem callsOnOpenFork : ∃ s, Reached replaying (carefulOp replaying) 7 s ∧ s.log ≠ [] ∧
    PassedOpen s.log := by
  have checked : ((initialised replaying 7).bind (runOps replaying (carefulOp replaying)
      [opened 7 "/f" 3,duplicated 7 3 4,.clone ⟨0,8,blankInfo 7⟩,wrote 7 3 5,wrote 8 4 6,
        closed 7 3,closed 8 3,closed 7 4,wrote 8 4 1,closed 8 4])).any
      (fun s => s.log.length = 7) = true := by decide +kernel
  obtain ⟨s,ran,long⟩ := (Option.any_eq_true _ _).mp checked
  have reached := Reached.run ran
  have acts : replaying.actReplicate = true := by decide
  have devices : DevicesOpen replaying := by decide +kernel
  have some_ : s.log ≠ [] := fun none => by simp [none] at long
  exact ⟨s,reached,some_,callsOnOpen acts replayingFresh replayingCloses devices reached⟩

end Reached
end IoApps
