import IoApps.BinaryRoundTrip
import IoApps.Strace

/-! What the list of a trace is made of: records under their own tags, and no rmdir among them,
as the calls the reader knows by name are without it. -/
namespace IoApps.Strace
open Lib (Bytes Prog)

def Savable (o : Op) : Prop := o.type ≠ .rmdir

def Gives : Scan Found → Prop
  | .ok (.item o) => Savable o
  | _ => True

section Readers

theorem givesItem {o : Op} (savable : Savable o) : Gives (pure (.item o)) := savable

theorem givesFailed : Gives (pure .failed) := trivial

theorem givesBind {α : Type} (m : Scan α) {k : α → Scan Found} (later : ∀ a, Gives (k a)) :
    Gives (m >>= k) := by
  cases m with
  | error f => trivial
  | ok a => exact later a

theorem dataGives {record : Int32 → Int64 → Int64 → OpInfo → Op}
    (savable : ∀ fd size retval info, Savable (record fd size retval info)) (line : Bytes) :
    Gives (straceReadData record line) := by
  unfold straceReadData
  repeat' first
    | refine givesBind _ fun _ => ?_
    | split
    | exact givesFailed
    | exact givesItem (savable _ _ _ _)

theorem dataAtGives {record : Int32 → Int64 → Int64 → Int64 → OpInfo → Op}
    (savable : ∀ fd size offset retval info, Savable (record fd size offset retval info))
    (line : Bytes) : Gives (straceReadDataAt record line) := by
  unfold straceReadDataAt
  repeat' first
    | refine givesBind _ fun _ => ?_
    | split
    | exact givesFailed
    | exact givesItem (savable _ _ _ _ _)

theorem unlinkGives (line : Bytes) : Gives (straceReadUnlink line) := by
  unfold straceReadUnlink straceReadName
  repeat' first
    | refine givesBind _ fun _ => ?_
    | split
    | exact givesFailed
    | exact givesItem (by simp [Savable,Op.type])

theorem dupGives (line : Bytes) : Gives (straceReadDup line) := by
  unfold straceReadDup
  repeat' first
    | refine givesBind _ fun _ => ?_
    | split
    | exact givesFailed
    | exact givesItem (by simp [Savable,Op.type])

theorem fcntlGives (line : Bytes) : Gives (straceReadFcntl line) := by
  unfold straceReadFcntl
  split
  · exact trivial
  · refine givesBind _ fun args => ?_
    split
    · exact dupGives _
    · exact givesFailed

theorem readGives {c : OpType} (other : c ≠ .rmdir) (line : Bytes) :
    Gives (straceRead c line) := by
  cases c with
  | rmdir => exact absurd rfl other
  | write | read =>
    simp only [straceRead,straceReadWrite,straceReadRead]
    exact dataGives (fun _ _ _ _ => by simp [Savable,Op.type]) line
  | pwrite | pread =>
    simp only [straceRead,straceReadPwrite,straceReadPread]
    exact dataAtGives (fun _ _ _ _ _ => by simp [Savable,Op.type]) line
  | unlink => exact unlinkGives line
  | dup => exact dupGives line
  | fcntl => exact fcntlGives line
  | unknown | mmap => exact trivial
  | lseek | llseek | «open» | creat | close | clone | dup3 | dup2 | pipe | mkdir | access | stat
      | socket | sendfile =>
    simp only [straceRead]
    repeat' first
      | refine givesBind _ fun _ => ?_
      | split
      | exact givesFailed
      | exact givesItem (by simp [Savable,Op.type])

end Readers
section Programs
variable {α β : Type}

def Loadable (list : List OpItem) : Prop :=
  ∃ ops : List Op, list = ops.map Op.item ∧ ∀ o ∈ ops, Savable o

theorem loadableNil : Loadable [] := ⟨[],rfl,by simp⟩

theorem Loadable.snoc {list : List OpItem} (loadable : Loadable list) {o : Op}
    (savable : Savable o) : Loadable (list ++ [o.item]) := by
  obtain ⟨ops,rfl,all⟩ := loadable
  refine ⟨ops ++ [o],by simp,fun p member => ?_⟩
  obtain old | new := List.mem_append.mp member
  · exact all p old
  · rw [List.mem_singleton.mp new]
    exact savable

def Records (m : StraceProg α) : Prop :=
  ∀ s a t, m s = .ok (a,t) → Loadable s.list → Loadable t.list

theorem Records.pure (a : α) : Records (pure a : StraceProg α) := by
  intro s b t ran
  cases ran
  exact id

theorem Records.throw (f : StraceFault) : Records (Prog.throw f : StraceProg α) := by
  intro s b t ran
  cases ran

theorem Records.get : Records (Prog.get : StraceProg StraceState) := by
  intro s b t ran
  cases ran
  exact id

theorem Records.ofOption (f : StraceFault) (o : Option α) :
    Records (Prog.ofOption f o : StraceProg α) := by
  cases o with
  | none => exact Records.throw f
  | some a => exact Records.pure a

theorem Records.ofScan (r : Scan α) : Records (ofScan r) := by
  intro s a t ran
  cases r with
  | error f => cases ran
  | ok b =>
    cases ran
    exact id

theorem Records.bind {m : StraceProg α} {f : α → StraceProg β} (first : Records m)
    (later : ∀ a, Records (f a)) : Records (m >>= f) := by
  intro s b t ran loadable
  obtain ⟨a,mid,one,rest⟩ := Prog.bindOk.mp ran
  exact later a mid b t rest (first s a mid one loadable)

theorem Records.modify {f : StraceState → StraceState} (same : ∀ s, (f s).list = s.list) :
    Records (Prog.modify f : StraceProg Unit) := by
  intro s a t ran loadable
  cases ran
  rw [same]
  exact loadable

end Programs
section Reader
variable {line : Bytes}

theorem addOpRecords (operation : CName) : Records (statsAddOp operation) := by
  refine .bind .get fun st => .bind (.ofOption _ _) fun found => ?_
  cases found with
  | none =>
    dsimp only
    split
    · exact .throw _
    · exact .bind (.ofOption _ _) fun _ => .modify fun _ => rfl
  | some item => exact .bind (.ofOption _ _) fun _ => .modify fun _ => rfl

theorem codeRecords (stats : Bool) (line : Bytes) :
    Records (straceGetOperationCode stats line) := by
  refine .bind (.bind (.ofScan _) fun operation => ?_) fun _ => .pure _
  split
  · refine .bind (.ofScan _) fun args => ?_
    split
    · exact .bind (addOpRecords operation) fun _ => .pure _
    · exact .pure _
  · exact .pure _

theorem pidRecords (line : Bytes) : Records (readPid line) := by
  refine .bind (.ofScan _) fun args => ?_
  split
  · exact .pure _
  · exact .throw _

theorem unfinishedRecords (line : Bytes) : Records (straceReadUnfinished line) := by
  refine .bind (pidRecords line) fun pid => .bind .get fun st => ?_
  refine .bind (.ofOption _ _) fun found => ?_
  cases found with
  | none => exact .bind (.ofOption _ _) fun _ => .modify fun _ => rfl
  | some _ => exact .pure _

theorem resumedRecords {process : Bytes → StraceProg Int} (records : ∀ line, Records (process line))
    (line : Bytes) : Records (straceReadResumed process line) := by
  refine .bind (pidRecords line) fun pid => .bind .get fun st => ?_
  refine .bind (.ofOption _ _) fun found => ?_
  cases found with
  | none => exact .pure _
  | some isyscall =>
    dsimp only
    split
    · exact .throw _
    · split
      · exact .pure _
      · refine .bind (.ofOption _ _) fun ht => .bind (.modify fun _ => rfl) fun _ => ?_
        split
        · exact .pure _
        · split
          · exact .throw _
          · exact .bind (.ofOption _ _) fun _ => .bind (.modify fun _ => rfl) fun _ =>
              .bind (records _) fun _ => .pure _

theorem codeOther (operation : Bytes) : operationCode operation ≠ .rmdir := by
  have all : ∀ entry ∈ operations, entry.2 ≠ .rmdir := by decide
  rw [operationCode,readFlag]
  split
  · rename_i entry found
    exact all entry (List.mem_of_find?_eq_some found)
  · decide

theorem codeNotRmdir {stats : Bool} {s t : StraceState} {c : OpType}
    (ran : straceGetOperationCode stats line s = .ok (c,t)) : c ≠ .rmdir := by
  obtain ⟨operation,mid,_,last⟩ := Prog.bindOk.mp ran
  cases last
  exact codeOther _

theorem switchRecords {c : OpType} (other : c ≠ .rmdir) (line : Bytes) :
    Records (straceSwitch c line) := by
  intro s a t ran loadable
  obtain ⟨found,mid,scanned,rest⟩ := Prog.bindOk.mp ran
  have gives := readGives other line
  cases read : straceRead c line with
  | error f =>
    rw [read] at scanned
    cases scanned
  | ok r =>
    rw [read] at scanned gives
    cases scanned
    cases found with
    | failed | skipped =>
      cases rest
      exact loadable
    | item o =>
      cases rest
      exact loadable.snoc gives

/-- The step lemma: a line, on its own or put together with a pending one. -/
theorem processRecords (fuel : Nat) (stats : Bool) (line : Bytes) :
    Records (straceProcess fuel stats line) := by
  induction fuel generalizing stats line with
  | zero => exact .throw _
  | succ fuel ih =>
    rw [straceProcess]
    intro s a t ran loadable
    obtain ⟨c,mid,code,rest⟩ := Prog.bindOk.mp ran
    refine (?_ : Records _) mid a t rest (codeRecords stats line s c mid code loadable)
    split
    · exact .bind (unfinishedRecords line) fun _ => .pure _
    · split
      · refine .bind (codeRecords false _) fun again => ?_
        split
        · exact .bind (resumedRecords (ih false) _) fun _ => .pure _
        · exact .bind (.pure _) fun _ => .pure _
      · exact switchRecords (codeNotRmdir code) line

theorem itemsLoadable {stats : Bool} {f : Bytes} {list : List OpItem} {st : StraceState}
    (loadable : Loadable list) (ran : straceGetItems stats f list = .ok ((),st)) :
    Loadable st.list := by
  have loop (fuel : Nat) (f : Bytes) : Records (straceGetLoop stats fuel f) := by
    induction fuel generalizing f with
    | zero => exact .pure _
    | succ fuel ih =>
      rw [straceGetLoop]
      split
      · exact .pure _
      · refine .bind ?_ fun _ => ih _
        intro s a t ran
        exact processRecords _ stats _ s a t ran
  exact loop f.length f _ _ _ ran loadable

end Reader
end IoApps.Strace
