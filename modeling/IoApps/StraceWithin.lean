import IoApps.StraceReads
import IoApps.StraceTrace

/-! What keeps a line inside the arrays of its readers. -/
namespace IoApps.Strace
open Lib (Bytes Prog ascii strstr isSpace Reads)

theorem stampSome (s : Stamp) : s.print [] ≠ [] :=
  List.append_ne_nil_of_left_ne_nil (Lib.numeralSome 10 s.pid) _

inductive ResumedAs (line : Bytes) : Bytes → Prop where
  | patched {name again : CName} {n : Nat} (named : toName (operationText line) = .ok name)
      (unfinished : unfinishedWord <:+: line → operationCode name.bytes = .unknown)
      (occurs : strstr resumedWord line = some (n + 1))
      (told : toName (operationText (line.set n lparen)) = .ok again)
      (known : operationCode again.bytes ≠ .unknown) : ResumedAs line (line.set n lparen)

/-- Data are closed where they are read, the pending line of a resumed one was copied whole, and
the names and times of a merged line fit their arrays. -/
structure Within (st : StraceState) (line : Bytes) : Prop where
  read : ∀ c, ReadAs line c → ShowsData c → Closed line
  pending : ∀ patched, ResumedAs line patched → ∀ pid e, linePid patched = some pid →
    st.ht.find htOpsIsyscall pid = some (some e) → e.line.length < MAX_STRING
  merged : ∀ whole, MergedAs st line whole → ¬ LineOverrun whole ∧ Brief whole ∧
    ∀ c, ReadAs whole c → ShowsData c → Closed whole

def Stampy (a : Bytes) : Prop :=
  ∃ s y, a = Stamp.print s y ∧ y ≠ [] ∧ ∀ c, y.head? = some c → isSpace c = false

theorem Stampy.append {a : Bytes} (stampy : Stampy a) (rest : Bytes) : Stampy (a ++ rest) := by
  obtain ⟨s,y,whole,some,next⟩ := stampy
  refine ⟨s,y ++ rest,by rw [printFront,whole],List.append_ne_nil_of_left_ne_nil some rest,?_⟩
  intro c first
  rw [List.head?_append_of_ne_nil _ some] at first
  exact next c first

theorem Stampy.cut {line a : Bytes} (stampy : Stampy line) (part : a <+: line)
    (begun : a.dropWhile stampByte ≠ []) : Stampy a := by
  obtain ⟨s,y,whole,some,next⟩ := stampy
  rw [printSplit] at whole
  have stamp : s.print [] <+: line := ⟨y,whole.symm⟩
  rcases List.prefix_or_prefix_of_prefix part stamp with inside | beyond
  · refine absurd ?_ begun
    exact List.dropWhile_eq_nil_iff.mpr fun b member => stampHeld s b (inside.mem member)
  · obtain ⟨z,text⟩ := beyond
    have front : z <+: y := by
      rw [← text,whole] at part
      exact (List.prefix_append_right_inj _).mp part
    have more : z ≠ [] := by
      intro none
      rw [none,List.append_nil] at text
      refine begun ?_
      exact List.dropWhile_eq_nil_iff.mpr fun b member => stampHeld s b (text ▸ member)
    refine ⟨s,z,by rw [printSplit,text],more,?_⟩
    intro c first
    obtain ⟨rest,same⟩ := front
    rw [← same,List.head?_append_of_ne_nil _ more] at next
    exact next c first

theorem stampyReads {line : Bytes} (stampy : Stampy line) (brief : Brief line) {c : OpType}
    (closed : ShowsData c → Closed line) (fits : ¬ TextOverrun c line) :
    ∃ found, straceRead c line = .ok found := by
  obtain ⟨s,y,whole,_,next⟩ := stampy
  subst whole
  exact readsWell next brief closed fits

def Stamps (ht : HashTable Isyscall) : Prop :=
  ∀ e ∈ ht.items, e.line.length < MAX_STRING → Stampy e.line

section Nested
variable {a front call : Bytes} (shape : CallLine a front call) {pid : Int32}
  (told : linePid a = some pid) {st : StraceState}
  (absent : st.ht.find htOpsIsyscall pid = some none) (fuel : Nat) (rest : Bytes)
include shape told absent

theorem nestedRun (stampy : Stampy a) (short : a.length < MAX_STRING)
    (fits : ¬ LineOverrun (a ++ rest)) (brief : Brief (a ++ rest))
    (closed : ∀ c, ReadAs (a ++ rest) c → ShowsData c → Closed (a ++ rest))
    (stamps : Stamps st.ht) :
    ∃ r st', straceProcess (fuel + 1) false (a ++ rest) st = .ok (r,st') ∧ st'.stats = st.stats ∧
      Stamps st'.ht := by
  have room : (operationText (a ++ rest)).length < MAX_STRING :=
    Nat.not_le.mp fun long => fits (.inl long)
  have named : toName (operationText (a ++ rest)) = .ok (CName.copy _ room) := by
    rw [toName,dif_pos room]
  have code : straceGetOperationCode false (a ++ rest) st =
      .ok (operationCode (CName.copy _ room).bytes,st) := codeSilent named
  rcases em (unfinishedWord <:+: a ++ rest ∧ operationCode (CName.copy _ room).bytes ≠ .unknown)
    with both | other
  · obtain ⟨ht,inserted,stored⟩ := unfinishedStored ((shape.extend rest).trans told) absent
    refine ⟨0,{ st with ht },?_,rfl,?_⟩
    · rw [processUnfinished fuel code both.1 both.2,Prog.bindOf stored]
      rfl
    · intro e member _
      rcases List.mem_cons.mp ((HashTable.insertItems inserted).mem_iff.mp member) with new | old
      · have cut : (a ++ rest).take MAX_STRING = a ++ rest.take (MAX_STRING - a.length) := by
          rw [List.take_append,List.take_of_length_le (Nat.le_of_lt short)]
        rw [new,cut]
        exact stampy.append _
      · exact stamps e old ‹_›
  · have plain : unfinishedWord <:+: a ++ rest →
        operationCode (CName.copy _ room).bytes = .unknown := fun marked =>
      not_not.mp fun known => other ⟨marked,known⟩
    have absorbed : Absorbed (a ++ rest) := by
      refine ⟨_,named,plain,fun unmarked => ?_⟩
      have occurs : strstr resumedWord (a ++ rest) = none := by
        rw [← Lib.strstrInfix,Option.not_isSome_iff_eq_none] at unmarked
        exact unmarked
      have reads : ReadAs (a ++ rest) (operationCode (CName.copy _ room).bytes) :=
        ⟨⟨_,named,rfl⟩,plain,.inl occurs⟩
      exact stampyReads (stampy.append rest) brief (closed _ reads)
        fun beyond => fits (.inr ⟨_,reads,beyond⟩)
    obtain ⟨r,st',ran,table,counts⟩ := absorbedRun shape told absent fuel rest absorbed
    exact ⟨r,st',ran,counts,table ▸ stamps⟩

end Nested

theorem patchedPid (s : Stamp) (y : Bytes) {n : Nat}
    (found : strstr resumedWord (s.print y) = some (n + 1)) :
    linePid ((s.print y).set n lparen) = some (Int32.ofNat s.pid) := by
  have number (rest : Bytes) :
      linePid (Lib.numeral 10 s.pid ++ blank :: rest) = some (Int32.ofNat s.pid) := by
    have read : Reads [d] (Lib.signed s.pid ++ blank :: rest) [.num s.pid] (blank :: rest) :=
      Lib.readsSigned (by decide) s.pid (blankBreaks rest)
    rw [signedNat] at read
    rw [linePid,read.done]
    exact congrArg some Int32.ofInt_eq_ofNat
  have behind : (s.print []).length ≤ n + 1 := by
    by_contra early
    have text : (s.print y).take (n + 1) ++ [0x72] <+: s.print y := by
      refine ⟨ascii "esumed" ++ (s.print y).drop (n + 1 + resumedWord.length),?_⟩
      rw [List.append_assoc]
      exact (Lib.strstrFound found).symm
    have stamp : s.print [] <+: s.print y := ⟨y,(printSplit s y).symm⟩
    have inside := List.prefix_of_prefix_length_le text stamp (by
      rw [List.length_append,List.length_singleton]
      exact Nat.le_trans (Nat.add_le_add_right (List.length_take_le _ _) 1) (by omega))
    exact stampOther s (by decide) (by decide)
      (inside.mem (List.mem_append_right _ (List.mem_singleton_self 0x72)))
  have size : (Lib.numeral 10 s.pid).length + 2 ≤ (s.print []).length := by
    simp only [Stamp.print,List.length_append,List.length_replicate,List.length_cons]
    omega
  have whole : s.print y = Lib.numeral 10 s.pid ++ blank ::
      (List.replicate s.gap blank ++ (s.time ++ blank :: y)) := rfl
  obtain ⟨k,place⟩ : ∃ k, n = (Lib.numeral 10 s.pid).length + (k + 1) :=
    ⟨n - (Lib.numeral 10 s.pid).length - 1,by omega⟩
  rw [whole,place,List.set_append_right _ _ (Nat.le_add_right _ _),Nat.add_sub_cancel_left,
    List.set_cons_succ]
  exact number _

theorem pidEntry {st : StraceState} (tables : Tables st) {pid : Int32} (real : 0 ≤ pid) :
    st.ht.find htOpsIsyscall pid = some none ∨
      ∃ e, st.ht.find htOpsIsyscall pid = some (some e) := by
  have hashed := (HashTable.chainKey htOpsIsyscall rfl tables.ht).mpr real
  obtain ⟨c,chain⟩ := Option.isSome_iff_exists.mp hashed
  rw [HashTable.find,chain,Option.map_some]
  cases (st.ht.entry c).find? (htOpsIsyscall.compare pid) with
  | none => exact .inl rfl
  | some e => exact .inr ⟨e,rfl⟩

theorem stampsCut {st : StraceState} (pending : PendingTable st) (stamps : Stamps st.ht)
    {pid : Int32} {e : Isyscall} (found : st.ht.find htOpsIsyscall pid = some (some e))
    (short : e.line.length < MAX_STRING) {n : Nat} (cut : strstr unfinishedMark e.line = some n) :
    Stampy (e.line.take n) ∧ ∀ ht, st.ht.modify htOpsIsyscall pid (fun item =>
      { item with line := item.line.take n }) = some ht → Stamps ht := by
  have member := (HashTable.findMem found).1
  obtain ⟨_,_,known⟩ := pending.recorded e member short
  obtain ⟨c,more,begun,_⟩ := (cutLine known (Lib.strstrFound cut)).1.first
  have stampy : Stampy (e.line.take n) :=
    (stamps e member short).cut (List.take_prefix _ _) (by rw [begun]; exact List.cons_ne_nil _ _)
  refine ⟨stampy,?_⟩
  intro ht modified x inside less
  rcases HashTable.modifyMem modified inside with old | changed
  · exact stamps x old less
  · obtain ⟨y,there,same⟩ := changed
    rw [found] at there
    cases there
    exact same ▸ stampy

section Line
variable {line : Bytes} (stampy : Stampy line) {st t : StraceState} (stamps : Stamps st.ht)
  (same : SameCalls st t) (tables : Tables t)
include stampy stamps same tables

theorem storedRun : ∃ ht, straceReadUnfinished line t = .ok ((),{ t with ht }) ∧ Stamps ht := by
  have told : ∃ s : Stamp, linePid line = some (Int32.ofNat s.pid) := by
    obtain ⟨s,y,whole,_⟩ := stampy
    exact ⟨s,whole ▸ pidPrinted s y⟩
  obtain ⟨s,told⟩ := told
  rcases pidEntry tables (stampPid s) with absent | there
  · obtain ⟨ht,inserted,stored⟩ := unfinishedStored told absent
    refine ⟨ht,stored,?_⟩
    intro e member short
    rcases List.mem_cons.mp ((HashTable.insertItems inserted).mem_iff.mp member) with new | old
    · rw [new,List.length_take] at short
      rw [new,List.take_of_length_le (by omega)]
      exact stampy
    · exact stamps e (same.2 ▸ old) short
  · obtain ⟨e,found⟩ := there
    exact ⟨t.ht,unfinishedKept told found,same.2 ▸ stamps⟩

variable (pending : PendingTable st) (short : line.length < MAX_STRING) (within : Within st line)
  {name again : CName} (named : toName (operationText line) = .ok name)
  (plain : unfinishedWord <:+: line → operationCode name.bytes = .unknown) {n : Nat}
  (occurs : strstr resumedWord line = some (n + 1))
  (told : toName (operationText (line.set n lparen)) = .ok again)
  (known : operationCode again.bytes ≠ .unknown)
include pending short within named plain occurs told known

theorem restoredRun : ∃ st', straceReadResumed (straceProcess st.ht.items.length false)
      (line.set n lparen) t = .ok ((),st') ∧ st'.stats = t.stats ∧ Stamps st'.ht := by
  have own : ∃ s : Stamp, linePid (line.set n lparen) = some (Int32.ofNat s.pid) := by
    obtain ⟨s,y,whole,_⟩ := stampy
    subst whole
    exact ⟨s,patchedPid s y occurs⟩
  obtain ⟨s,own⟩ := own
  have kept : Stamps t.ht := same.2 ▸ stamps
  rcases pidEntry tables (stampPid s) with absent | there
  · exact ⟨t,resumedNone own absent _,rfl,kept⟩
  · obtain ⟨e,found⟩ := there
    have here : st.ht.find htOpsIsyscall (Int32.ofNat s.pid) = some (some e) := same.2 ▸ found
    have size := within.pending _ (.patched named plain occurs told known) _ e own here
    cases cut : strstr unfinishedMark e.line with
    | none => exact ⟨t,resumedWhole own found size cut _,rfl,kept⟩
    | some c =>
      have table : PendingTable t := pending.same same.2 tables.stats
      obtain ⟨begun,after⟩ := stampsCut table kept found size cut
      cases mark : strstr resumedMark (line.set n lparen) with
      | none =>
        obtain ⟨ht,modified,ran⟩ := resumedCut own found size cut mark
          (straceProcess st.ht.items.length false)
        exact ⟨_,ran,rfl,after ht modified⟩
      | some r =>
        have left : (e.line.take c).length < MAX_STRING :=
          Nat.lt_of_le_of_lt (List.take_sublist _ _).length_le size
        have right : (resumedRest (line.set n lparen) r).length ≤ line.length := by
          rw [resumedRest,List.length_take,List.length_drop,List.length_set]
          omega
        have bound := Lib.strstrBound cut
        have fits : ¬ 2 * MAX_STRING < c + (resumedRest (line.set n lparen) r).length := by omega
        obtain ⟨cutTable,ht,modified,removed,merge⟩ := resumedMerge own found size cut mark fits
        obtain ⟨_,absent,_⟩ := mergedTable table.keyed modified removed
        obtain ⟨member,mine⟩ := HashTable.findMem found
        obtain ⟨_,before,call⟩ := table.recorded e member size
        obtain ⟨shape,front⟩ := cutLine call (Lib.strstrFound cut)
        have pid : linePid (e.line.take c) = some (Int32.ofNat s.pid) :=
          front.trans (before.trans (congrArg some ((isyscallAgrees _ e).mp mine)))
        obtain ⟨inside,brief,closed⟩ := within.merged _ (.parts named plain occurs told known own
          here size cut mark (Nat.not_lt.mp fits))
        have left : Stamps ht := fun x item less => after _ modified x
          ((HashTable.removeItems (foundCut found modified) removed).mem_iff.mp
            (List.mem_cons_of_mem _ item)) less
        obtain ⟨fuel,room⟩ : ∃ fuel, st.ht.items.length = fuel + 1 :=
          ⟨st.ht.items.length - 1,by
            have some := List.length_pos_of_mem (HashTable.findMem here).1
            omega⟩
        obtain ⟨x,st',ran,counts,stamped⟩ := nestedRun shape pid
          (show ({ t with ht } : StraceState).ht.find _ _ = some none from absent) fuel _ begun
          (Nat.lt_of_le_of_lt (List.take_sublist _ _).length_le size) inside brief closed left
        refine ⟨st',?_,counts,stamped⟩
        rw [room,merge,Prog.bindOf ran]
        rfl

end Line

theorem insideRun {line : Bytes} (stampy : Stampy line) (short : line.length < MAX_STRING)
    {st t : StraceState} (pending : PendingTable st) (stamps : Stamps st.ht) (same : SameCalls st t)
    (tables : Tables t) (within : Within st line)
    (reads : ∀ c, ReadAs line c → ∃ found, straceRead c line = .ok found) {stats : Bool}
    {name : CName} (named : toName (operationText line) = .ok name)
    (code : straceGetOperationCode stats line st = .ok (operationCode name.bytes,t)) :
    ∃ r st', straceProcessLine stats line st = .ok (r,st') ∧ st'.stats = t.stats ∧
      Stamps st'.ht := by
  unfold straceProcessLine
  rcases em (unfinishedWord <:+: line ∧ operationCode name.bytes ≠ .unknown) with both | other
  · obtain ⟨ht,stored,kept⟩ := storedRun stampy stamps same tables
    refine ⟨0,{ t with ht },?_,rfl,kept⟩
    rw [processUnfinished _ code both.1 both.2,Prog.bindOf stored]
    rfl
  · have plain : unfinishedWord <:+: line → operationCode name.bytes = .unknown := fun marked =>
      not_not.mp fun known => other ⟨marked,known⟩
    have switched (resumed : strstr resumedWord line = none ∨ strstr resumedWord line = some 0) :
        ∃ r st', straceProcess (st.ht.items.length + 1) stats line st = .ok (r,st') ∧
          st'.stats = t.stats ∧ Stamps st'.ht := by
      obtain ⟨found,read⟩ := reads _ ⟨⟨name,named,rfl⟩,plain,resumed⟩
      have ran : ofScan (straceRead (operationCode name.bytes) line) t = .ok (found,t) := by
        rw [read]
        rfl
      rw [processSwitch _ code plain resumed,straceSwitch,Prog.bindOf ran]
      cases found with
      | failed => exact ⟨_,_,rfl,rfl,same.2 ▸ stamps⟩
      | skipped => exact ⟨_,_,rfl,rfl,same.2 ▸ stamps⟩
      | item o => exact ⟨_,_,rfl,rfl,same.2 ▸ stamps⟩
    cases occurs : strstr resumedWord line with
    | none => exact switched (.inl occurs)
    | some m =>
      cases m with
      | zero => exact switched (.inr occurs)
      | succ n =>
        have fits := Nat.lt_of_le_of_lt (patchedShorter line n) (toNameOk named).1
        have told : toName (operationText (line.set n lparen)) = .ok (CName.copy _ fits) := by
          rw [toName,dif_pos fits]
        have again : straceGetOperationCode false (line.set n lparen) t =
            .ok (operationCode (CName.copy _ fits).bytes,t) := codeSilent told
        rcases eq_or_ne (operationCode (CName.copy _ fits).bytes) .unknown with foreign | known
        · exact ⟨0,t,processForeign _ code plain occurs again foreign,rfl,same.2 ▸ stamps⟩
        · obtain ⟨st',ran,counts,kept⟩ := restoredRun stampy stamps same tables pending short within
            named plain occurs told known
          refine ⟨0,st',?_,counts,kept⟩
          rw [processResumed _ code plain occurs again known,Prog.bindOf ran]
          rfl

end IoApps.Strace
