import IoApps.StraceWithin
import IoApps.StraceJoined
import Mathlib.Algebra.BigOperators.Group.Finset.Piecewise

/-! The statistics of a trace: a call is counted at the line that ends it. -/
namespace IoApps.Strace
open Lib (Bytes Prog ascii strstr isSpace sscanf Reads)

structure Tally (count : CName → Nat) (stats : HashTable StatisticItem) : Prop where
  keyed : HashTable.Keyed htOpsStat StatisticItem.operation stats
  found : ∀ name, stats.find htOpsStat name =
    some (if count name = 0 then none else some ⟨name,count name⟩)

theorem statAgrees (k : CName) (x : StatisticItem) :
    htOpsStat.compare k x = true ↔ x.operation = k := decide_eq_true_iff

theorem tallyInit (list : List OpItem) : Tally (fun _ => 0) (straceInit list).stats where
  keyed := HashTable.keyedInit statAgrees _
  found := fun name => by
    obtain ⟨c,hashed⟩ := statsChain (pendingInit list).tables name
    rw [HashTable.find,hashed]
    rfl

theorem tallyAdd {count : CName → Nat} {st : StraceState} (tables : Tables st)
    (tally : Tally count st.stats) {name : CName} (short : name.bytes.length < MAX_OPERATION) :
    ∃ stats, statsAddOp name st = .ok ((),{ st with stats }) ∧ Tables { st with stats } ∧
      Tally (Function.update count name (count name + 1)) stats := by
  have room : st.stats.find htOpsStat name = some none → name.bytes.length < MAX_OPERATION :=
    fun _ => short
  obtain ⟨stats,ran,chains,how⟩ := statsRun tables room
  refine ⟨stats,ran,chains,?_⟩
  have held := tally.found name
  have apart {other : CName} (differs : other ≠ name) (x : StatisticItem)
      (mine : htOpsStat.compare name x) : ¬ htOpsStat.compare other x := fun theirs =>
    differs (((statAgrees other x).mp theirs).symm.trans ((statAgrees name x).mp mine))
  rcases how with fresh | old
  · obtain ⟨absent,inserted⟩ := fresh
    have none : count name = 0 := by
      rw [absent] at held
      by_contra some
      rw [if_neg some] at held
      cases held
    refine ⟨tally.keyed.insert absent rfl inserted,fun other => ?_⟩
    rcases eq_or_ne other name with same | differs
    · subst same
      rw [HashTable.findInsert (decide_eq_true rfl) inserted,absent,Function.update_self,none]
      rfl
    · rw [HashTable.findInsertOther (apart differs ⟨name,1⟩ (decide_eq_true rfl)) inserted,
        tally.found,Function.update_of_ne differs]
  · obtain ⟨item,there,modified⟩ := old
    have some : count name ≠ 0 ∧ item = ⟨name,count name⟩ := by
      rw [there] at held
      by_cases none : count name = 0
      · rw [if_pos none] at held
        cases held
      · rw [if_neg none] at held
        exact ⟨none,Option.some.inj (Option.some.inj held)⟩
    have kept : ∀ x : StatisticItem,
        ({ x with count := x.count + 1 } : StatisticItem).operation = x.operation := fun _ => rfl
    refine ⟨tally.keyed.modify kept modified,fun other => ?_⟩
    rcases eq_or_ne other name with same | differs
    · subst same
      have still : ∀ x : StatisticItem, htOpsStat.compare other { x with count := x.count + 1 } =
          htOpsStat.compare other x := fun _ => rfl
      rw [HashTable.findModify still modified,there,some.2,Function.update_self,
        if_neg (Nat.succ_ne_zero _)]
      rfl
    · rw [HashTable.findModifyOther (f := fun item => { item with count := item.count + 1 })
        (fun x mine => ⟨apart differs x mine,apart differs x mine⟩) modified,tally.found,
        Function.update_of_ne differs]

section Timed
variable {a b tail : Bytes}

theorem timedLine (some : a ≠ []) (front : eq ∉ a) (clean : lt ∉ b)
    (result : ∃ c ∈ b, isSpace c = false) (sec usec : Nat) :
    Timed (a ++ eq :: (b ++ lt :: (timeText sec usec ++ gt :: tail))) := by
  have split : b.takeWhile isSpace ++ b.dropWhile isSpace = b := List.takeWhile_append_dropWhile
  have first : b.dropWhile isSpace ≠ [] := by
    intro none
    obtain ⟨c,member,other⟩ := result
    have space := List.dropWhile_eq_nil_iff.mp none c member
    rw [other] at space
    cases space
  obtain ⟨c,more,begun⟩ := List.exists_cons_of_ne_nil first
  have stop : isSpace c = false := by
    have stops := List.head?_dropWhile_not isSpace b
    rw [begun] at stops
    simpa using stops
  have skipEq : Reads [.skip eq] (a ++ eq :: (b ++ lt :: (timeText sec usec ++ gt :: tail))) []
      (eq :: (b ++ lt :: (timeText sec usec ++ gt :: tail))) :=
    Lib.readsSkip some front fun c first => (Option.some.inj first).symm
  have spaces : Reads [.space] (b ++ lt :: (timeText sec usec ++ gt :: tail)) []
      (b.dropWhile isSpace ++ lt :: (timeText sec usec ++ gt :: tail)) := by
    have read : Reads [.space] (b.takeWhile isSpace ++ (b.dropWhile isSpace ++
        lt :: (timeText sec usec ++ gt :: tail))) []
        (b.dropWhile isSpace ++ lt :: (timeText sec usec ++ gt :: tail)) := by
      refine Lib.readsSpace (fun c member => List.mem_takeWhile_imp member) ?_
      intro d first
      rw [begun] at first
      exact Option.some.inj first ▸ stop
    rw [← List.append_assoc,split] at read
    exact read
  have skipLt : Reads [.skip lt] (b.dropWhile isSpace ++ lt :: (timeText sec usec ++ gt :: tail)) []
      (lt :: (timeText sec usec ++ gt :: tail)) :=
    Lib.readsSkip first (fun member => clean ((List.dropWhile_sublist _).mem member))
      fun c first => (Option.some.inj first).symm
  have seconds : Reads [d] (timeText sec usec ++ gt :: tail) [.num sec]
      (dot :: (Lib.padded 6 usec ++ gt :: tail)) := by
    have number : Reads [d] (Lib.signed sec ++ dot :: (Lib.padded 6 usec ++ gt :: tail)) [.num sec]
        (dot :: (Lib.padded 6 usec ++ gt :: tail)) :=
      Lib.readsSigned (by decide) sec (Lib.breaksCons (by decide) _)
    rw [signedNat] at number
    rw [timeText,List.append_assoc,List.cons_append]
    exact number
  have micros : Reads [d] (Lib.padded 6 usec ++ gt :: tail)
      [.num (Lib.digitsValue 10 (Lib.padded 6 usec))] (gt :: tail) :=
    Lib.readsDigits (by decide) rfl (Lib.paddedSome 6 usec) (Lib.paddedDigits 6 usec)
      (Lib.breaksCons (by decide) _)
  have all := ((((((skipEq.append ((Lib.readsLit eq).append spaces)).append skipLt).append
    (Lib.readsLit lt)).append seconds).append (Lib.readsLit dot)).append micros).append
    (Lib.readsLit gt)
  refine ⟨sec,Lib.digitsValue 10 (Lib.padded 6 usec),?_⟩
  have format : durationFormat = [.skip eq] ++ ([.lit eq] ++ [.space]) ++ [.skip lt] ++ [.lit lt] ++
      [d] ++ [.lit dot] ++ [d] ++ [.lit gt] := rfl
  rw [scan,format,all.done]
  rfl

theorem timedText (some : a ≠ []) (front : eq ∉ a) {x y : Bytes} (clean : lt ∉ x ∧ lt ∉ y)
    (result : ∃ c ∈ y, isSpace c = false) (sec usec : Nat) :
    Timed (a ++ (x ++ eq :: (y ++ lt :: (timeText sec usec ++ gt :: tail)))) := by
  rcases em (eq ∈ x) with inside | absent
  · obtain ⟨x1,x2,whole,first⟩ := List.eq_append_cons_of_mem inside
    have timed : Timed (a ++ x1 ++ eq :: (x2 ++ eq :: y ++ lt ::
        (timeText sec usec ++ gt :: tail))) := by
      refine timedLine (List.append_ne_nil_of_left_ne_nil some x1) ?_ ?_ ?_ sec usec
      · exact fun member => (List.mem_append.mp member).elim front first
      · intro member
        rcases List.mem_append.mp member with left | right
        · exact clean.1 (by rw [whole]; exact List.mem_append_right _ (List.mem_cons_of_mem _ left))
        · exact clean.2 ((List.mem_cons.mp right).resolve_left (by decide))
      · exact ⟨eq,by simp,by decide⟩
    rw [whole]
    simp only [List.append_assoc,List.cons_append] at timed ⊢
    exact timed
  · rw [← List.append_assoc]
    exact timedLine (List.append_ne_nil_of_left_ne_nil some x)
      (fun member => (List.mem_append.mp member).elim front absent) clean.2 result sec usec

theorem letterUnread {c : UInt8} (letter : Lib.isDigit 10 c = false ∧ isSpace c = false ∧ c ≠ 45 ∧
    c ≠ 43) (more : List Lib.Directive) (tail : Bytes) :
    sscanf (d :: more) (c :: tail) = .ok [] := by
  obtain ⟨digit,space,minus,plus⟩ := letter
  have still : Lib.skipSpace (c :: tail) = c :: tail := List.dropWhile_cons_of_neg (by simp [space])
  have none : Lib.splitDigits 10 (c :: tail) = none := by
    rw [Lib.splitDigits,List.takeWhile_cons_of_neg (by simp [digit])]
    rfl
  have unread : Lib.readNumber .decimal (c :: tail) = Option.none := by
    rw [Lib.readNumber,still]
    simp only [if_neg minus,if_neg plus,Lib.readDigits,none]
    rfl
  rw [d,sscanf,unread]

theorem spacesSkipped (b : Bytes) (rest : Bytes) :
    ∃ b', Lib.skipSpace (b ++ lt :: rest) = b' ++ lt :: rest ∧ b' <:+ b := by
  rw [Lib.skipSpace,List.dropWhile_append]
  split
  · exact ⟨[],List.dropWhile_cons_of_neg (by decide),List.nil_suffix⟩
  · exact ⟨_,rfl,List.dropWhile_suffix _⟩

theorem untimedLine (some : a ≠ []) (front : eq ∉ a) (clean : lt ∉ b) {c : UInt8}
    (letter : Lib.isDigit 10 c = false ∧ isSpace c = false ∧ c ≠ 45 ∧ c ≠ 43)
    (late : eq ∉ c :: tail) : ¬ Timed (a ++ (b ++ lt :: c :: tail)) := by
  have format : durationFormat = [.skip eq] ++ .lit eq :: .space :: .skip lt :: .lit lt :: d ::
      (lits "." ++ [d] ++ lits ">") := rfl
  have none : sscanf durationFormat (a ++ (b ++ lt :: c :: tail)) = .ok [] := by
    rcases em (eq ∈ b) with inside | absent
    · obtain ⟨x,y,whole,first⟩ := List.eq_append_cons_of_mem inside
      have skip : Reads [.skip eq] (a ++ x ++ eq :: (y ++ lt :: c :: tail)) []
          (eq :: (y ++ lt :: c :: tail)) :=
        Lib.readsSkip (List.append_ne_nil_of_left_ne_nil some x)
          (fun member => (List.mem_append.mp member).elim front first)
          fun c first => (Option.some.inj first).symm
      have text : a ++ (b ++ lt :: c :: tail) = a ++ x ++ eq :: (y ++ lt :: c :: tail) := by
        rw [whole]
        simp only [List.append_assoc,List.cons_append]
      obtain ⟨y',skipped,part⟩ := spacesSkipped y (c :: tail)
      rw [format,text,skip,Lib.scanLit,sscanf,skipped]
      cases y' with
      | nil =>
        rw [List.nil_append,sscanf,if_pos (.inr rfl)]
        rfl
      | cons first y' =>
        have apart : lt ∉ first :: y' := by
          intro member
          refine clean ?_
          rw [whole]
          exact List.mem_append_right _ (List.mem_cons_of_mem _ (part.mem member))
        have behind (f : List Lib.Directive) :
            sscanf (.skip lt :: f) (first :: y' ++ lt :: c :: tail) = sscanf f (lt :: c :: tail) :=
          Lib.scanSkip (List.cons_ne_nil first y') apart fun c first => (Option.some.inj first).symm
        rw [behind,Lib.scanLit,letterUnread letter]
        rfl
    · have clear : eq ∉ a ++ (b ++ lt :: c :: tail) := by
        simp only [List.mem_append,not_or]
        exact ⟨front,absent,fun member => late ((List.mem_cons.mp member).resolve_left (by decide))⟩
      have skip : Reads [.skip eq] (a ++ (b ++ lt :: c :: tail) ++ []) [] [] :=
        Lib.readsSkip (List.append_ne_nil_of_left_ne_nil some _) clear fun _ none => by cases none
      rw [List.append_nil] at skip
      rw [format,skip]
      rfl
  intro timed
  obtain ⟨sec,usec,ran⟩ := timed
  rw [scan,none] at ran
  cases ran

end Timed

inductive Finished : Bytes → Prop where
  | ends {args result : Bytes} {sec usec : Nat} (clean : lt ∉ args ∧ lt ∉ result)
      (some : ∃ c ∈ result, isSpace c = false) (seconds : sec < 2 ^ 31) (micros : usec < 10 ^ 6) :
      Finished (args ++ eq :: (result ++ lt :: (timeText sec usec ++ [gt])))

def TraceLine.Shown : TraceLine → Prop
  | .whole c => Finished c.text
  | .unfinished p => lt ∉ p.first
  | .resumed p => Finished p.rest

structure Traced (l : TraceLine) : Prop where
  name : Callable l.call.name
  mark : lt ∉ l.call.name
  clean : ∀ c ∈ l.call.name ++ l.call.text, c ≠ 0 ∧ c ≠ newline
  shown : l.Shown

theorem callableNamed {name : Bytes} (real : Callable name) : Named name :=
  ⟨real.some,real.lead,real.plain⟩

theorem finishedTimed {front x text : Bytes} (some : front ≠ []) (clear : eq ∉ front)
    (clean : lt ∉ x) (finished : Finished text) (eol : Bytes) :
    Timed (front ++ (x ++ (text ++ eol))) := by
  cases finished with
  | @ends args result sec usec apart real seconds micros =>
    have timed : Timed (front ++ (x ++ args ++ eq :: (result ++ lt ::
        (timeText sec usec ++ gt :: eol)))) :=
      timedText some clear ⟨fun member => (List.mem_append.mp member).elim clean apart.1,apart.2⟩
        real sec usec
    simp only [List.append_assoc,List.cons_append,List.nil_append] at timed ⊢
    exact timed

theorem finishedBrief {front text : Bytes} (clean : lt ∉ front) (finished : Finished text)
    {eol : Bytes} (ends : lt ∉ eol) : Brief (front ++ (text ++ eol)) := by
  cases finished with
  | @ends args result sec usec apart real seconds micros =>
    have brief : Brief (front ++ args ++ eq :: result ++ lt ::
        (timeText sec usec ++ gt :: eol)) := by
      refine briefEnd ?_ (timeShort seconds micros) ends
      simp only [List.mem_append,List.mem_cons,not_or]
      exact ⟨⟨clean,apart.1⟩,by decide,apart.2⟩
    simp only [List.append_assoc,List.cons_append,List.nil_append] at brief ⊢
    exact brief

section Lines
variable {l : TraceLine} (traced : Traced l)
include traced

theorem tracedText (eol : Bytes) : operationText (l.print eol) = l.call.name := by
  have named := callableNamed traced.name
  cases l with
  | whole c => exact callNamed named eol
  | unfinished p => exact unfinishedText named eol
  | resumed p => exact resumedText named eol

theorem tracedTimed (eol : Bytes) {c : Call} (own : l.ends = some c) : Timed (l.print eol) := by
  have stamp (s : Stamp) : eq ∉ s.print [] := stampOther s (by decide) (by decide)
  cases l with
  | whole c =>
    have mark : lt ∉ c.name ++ [lparen] := fun member =>
      (List.mem_append.mp member).elim traced.mark (by decide)
    have timed := finishedTimed (stampSome c.start) (stamp c.start) mark traced.shown eol
    rw [TraceLine.print,Call.print,printSplit]
    rw [List.append_assoc c.name] at timed
    exact timed
  | unfinished p => cases own
  | resumed p =>
    have some : p.again.print [] ++ ascii "<... " ≠ [] :=
      List.append_ne_nil_of_left_ne_nil (stampSome p.again) _
    have front : eq ∉ p.again.print [] ++ ascii "<... " := fun member =>
      (List.mem_append.mp member).elim (stamp p.again) (by decide)
    have mark : lt ∉ p.call.name ++ blank :: resumedMark := fun member =>
      (List.mem_append.mp member).elim traced.mark (by decide)
    have timed := finishedTimed some front mark traced.shown eol
    rw [TraceLine.print,resumedSecond,Split.second]
    rw [List.append_assoc p.call.name] at timed
    exact timed

theorem tracedUntimed {eol : Bytes} (ends : Eol eol) (own : l.ends = none) :
    ¬ Timed (l.print eol) := by
  cases l with
  | whole c => cases own
  | resumed p => cases own
  | unfinished p =>
    have front : lt ∉ p.call.name ++ lparen :: (p.first ++ [blank]) := by
      simp only [List.mem_append,List.mem_cons,List.not_mem_nil,or_false,not_or]
      exact ⟨traced.mark,by decide,traced.shown,by decide⟩
    have late : eq ∉ 0x75 :: (ascii "nfinished ...>" ++ eol) := by
      rcases ends with none | line
      · rw [none]
        decide
      · rw [line]
        decide
    have stamp : eq ∉ p.call.start.print [] := stampOther _ (by decide) (by decide)
    have untimed := untimedLine (stampSome p.call.start) stamp front (by decide) late
    have text : p.unfinished eol = p.call.start.print [] ++ (p.call.name ++ lparen ::
        (p.first ++ [blank]) ++ lt :: 0x75 :: (ascii "nfinished ...>" ++ eol)) := by
      have mark : unfinishedMark ++ eol =
          blank :: lt :: 0x75 :: (ascii "nfinished ...>" ++ eol) := rfl
      rw [Split.unfinished,printSplit,mark]
      simp only [List.append_assoc,List.cons_append,List.nil_append]
    rw [TraceLine.print,text]
    exact untimed

end Lines

section Lines
variable {l : TraceLine} (traced : Traced l)
include traced

theorem tracedStampy (eol : Bytes) : Stampy (l.print eol) := by
  have named {rest : Bytes} : l.call.name ++ rest ≠ [] :=
    List.append_ne_nil_of_left_ne_nil traced.name.some rest
  have next {rest : Bytes} : ∀ c, (l.call.name ++ rest).head? = some c → isSpace c = false :=
    callNext traced.name rest
  cases l with
  | whole c => exact ⟨c.start,_,rfl,named,next⟩
  | unfinished p => exact ⟨p.call.start,_,rfl,named,next⟩
  | resumed p =>
    refine ⟨p.again,_,rfl,List.cons_ne_nil _ _,?_⟩
    intro c first
    cases first
    rfl

theorem tracedClean {eol : Bytes} (ends : Eol eol) : 0 ∉ l.print eol := by
  have name : 0 ∉ l.call.name := fun member =>
    (traced.clean 0 (List.mem_append_left _ member)).1 rfl
  have text : 0 ∉ l.call.text := fun member =>
    (traced.clean 0 (List.mem_append_right _ member)).1 rfl
  cases l with
  | whole c =>
    refine noNulPrinted _ ?_
    simp only [List.mem_append,List.mem_cons,not_or]
    exact ⟨name,by decide,text,eolClean ends⟩
  | unfinished p =>
    refine noNulPrinted _ ?_
    simp only [List.mem_append,List.mem_cons,not_or]
    exact ⟨name,by decide,fun member => text (List.mem_of_mem_take member),by decide +kernel,
      eolClean ends⟩
  | resumed p =>
    refine noNulPrinted _ ?_
    simp only [List.mem_append,List.mem_cons,not_or]
    exact ⟨by decide +kernel,name,by decide,by decide +kernel,
      fun member => text (List.mem_of_mem_drop member),eolClean ends⟩

theorem tracedReads {eol : Bytes} (ends : Eol eol) (short : (l.print eol).length < MAX_STRING)
    {c : OpType} (reads : ReadAs (l.print eol) c) (closed : ShowsData c → Closed (l.print eol)) :
    ∃ found, straceRead c (l.print eol) = .ok found := by
  have fits : ¬ TextOverrun c (l.print eol) := fun beyond =>
    shortLineFits short (.inr ⟨c,reads,beyond⟩)
  have stampy := tracedStampy traced eol
  cases l with
  | whole call =>
    have front : lt ∉ call.start.print [] ++ (call.name ++ [lparen]) := by
      simp only [List.mem_append,List.mem_singleton,not_or]
      exact ⟨stampOther _ (by decide) (by decide),traced.mark,by decide⟩
    have tail : lt ∉ eol := by
      rcases ends with none | line
      · rw [none]
        exact List.not_mem_nil
      · rw [line]
        decide
    have brief := finishedBrief front traced.shown tail
    have whole : call.start.print [] ++ (call.name ++ [lparen]) ++ (call.text ++ eol) =
        (TraceLine.whole call).print eol := by
      rw [TraceLine.print,Call.print,printSplit call.start (call.name ++ _)]
      simp only [List.append_assoc,List.cons_append,List.nil_append]
    exact stampyReads stampy (whole ▸ brief) closed fits
  | unfinished p =>
    have foreign := reads.unfinished (unfinishedMarked p eol)
    subst foreign
    exact ⟨.skipped,rfl⟩
  | resumed p =>
    rcases reads.resumed with absent | front
    · have inside : resumedWord <:+: p.resumed eol := by
        rw [resumedSecond,Split.second]
        exact ⟨p.again.print [] ++ ascii "<... " ++ p.call.name ++ [blank],
          ascii "> " ++ (p.rest ++ eol),by simp only [List.append_assoc]; rfl⟩
      rw [← Lib.strstrInfix] at inside
      have none : strstr resumedWord (p.resumed eol) = none := absent
      rw [none] at inside
      cases inside
    · refine absurd (?_ : 0x72 ∈ p.again.print []) (stampOther _ (by decide) (by decide))
      obtain ⟨b,more,begun⟩ := List.exists_cons_of_ne_nil (stampSome p.again)
      have text := Lib.strstrFound front
      have line : p.resumed eol = b :: (more ++ (ascii "<... " ++ (p.call.name ++ blank ::
          (resumedMark ++ (p.rest ++ eol))))) := by
        rw [Split.resumed,printSplit,begun]
        rfl
      have first : b = 0x72 := (List.cons.inj (line.symm.trans text)).1
      rw [begun,first]
      exact List.mem_cons_self

end Lines

def TraceLine.counts (name : CName) (l : TraceLine) : Bool :=
  l.ends.any fun c => decide (c.name = name.bytes)

theorem endsCall {l : TraceLine} {c : Call} (own : l.ends = some c) : l.call = c := by
  cases l with
  | whole d => exact Option.some.inj own
  | unfinished p => cases own
  | resumed p => exact Option.some.inj own

theorem Tally.congr {count other : CName → Nat} {stats : HashTable StatisticItem}
    (tally : Tally count stats) (same : ∀ name, count name = other name) : Tally other stats :=
  funext same ▸ tally

theorem tracedCode {l : TraceLine} (traced : Traced l) {eol : Bytes} (ends : Eol eol)
    {st : StraceState} (tables : Tables st) {count : CName → Nat} (tally : Tally count st.stats) :
    ∃ name t, toName (operationText (l.print eol)) = .ok name ∧
      straceGetOperationCode true (l.print eol) st = .ok (operationCode name.bytes,t) ∧
      SameCalls st t ∧ Tables t ∧
      Tally (fun other => count other + (l.counts other).toNat) t.stats := by
  have text := tracedText traced eol
  have named : toName (operationText (l.print eol)) = .ok traced.name.name :=
    text.symm ▸ nameCallable traced.name
  cases own : l.ends with
  | none =>
    have untimed := tracedUntimed traced ends own
    refine ⟨_,st,named,codeUncounted named fun _ => untimed,⟨rfl,rfl⟩,tables,?_⟩
    refine tally.congr fun other => ?_
    rw [TraceLine.counts,own]
    rfl
  | some c =>
    have brief : traced.name.name.bytes.length < MAX_OPERATION := traced.name.short
    obtain ⟨stats,added,chains,more⟩ := tallyAdd tables tally brief
    refine ⟨_,{ st with stats },named,?_,⟨rfl,rfl⟩,chains,?_⟩
    · rw [codeCounted named (tracedTimed traced eol own),Prog.bindOf added]
      rfl
    · refine more.congr fun other => ?_
      have call := endsCall own
      rw [TraceLine.counts,own,Option.any_some]
      rcases eq_or_ne other traced.name.name with same | differs
      · have bytes : c.name = other.bytes := by
          rw [same,← call]
          rfl
        rw [same,Function.update_self,← same,decide_eq_true bytes]
        rfl
      · have bytes : c.name ≠ other.bytes := by
          intro equal
          refine differs (nameOf ?_)
          rw [← equal,← call]
          rfl
        rw [Function.update_of_ne differs,decide_eq_false bytes]
        rfl

/-- Where it is processed, no line goes beyond the arrays of its readers. -/
def Confined (lines : List TraceLine) (st : StraceState) : Prop :=
  ∀ before l after t, lines = before ++ l :: after →
    processLines true (before.map fun l => l.print [newline]) st = .ok ((),t) →
    Within t (l.print [newline])

theorem Confined.next {l : TraceLine} {lines : List TraceLine} {st t : StraceState}
    (inside : Confined (l :: lines) st) {n : Int}
    (ran : straceProcessLine true (cstr (l.print [newline])) st = .ok (n,t)) :
    Confined lines t := by
  intro before x after u whole later
  refine inside (l :: before) x after u (by rw [whole,List.cons_append]) ?_
  rw [List.map_cons,processLines,Prog.bindOf ran]
  exact later

theorem tracedRun {lines : List TraceLine} (traced : ∀ l ∈ lines, Traced l)
    (short : ∀ l ∈ lines, (l.print [newline]).length < MAX_STRING) {st : StraceState}
    (pending : PendingTable st) (stamps : Stamps st.ht) (inside : Confined lines st)
    {count : CName → Nat} (tally : Tally count st.stats) :
    ∃ st', processLines true (lines.map fun l => l.print [newline]) st = .ok ((),st') ∧
      Tally (fun name => count name + lines.countP (TraceLine.counts name)) st'.stats := by
  induction lines generalizing st count with
  | nil => exact ⟨st,rfl,tally⟩
  | cons l lines ih =>
    have here := traced l List.mem_cons_self
    have fits := short l List.mem_cons_self
    have noNul := tracedClean here (.inr rfl)
    have within := inside [] l lines st rfl rfl
    obtain ⟨name,t,named,code,same,tables,counted⟩ := tracedCode here (.inr rfl)
      pending.tables tally
    obtain ⟨r,st',ran,stats,kept⟩ := insideRun (tracedStampy here _) fits pending stamps same tables
      within (fun c reads => tracedReads here (.inr rfl) fits reads (within.read c reads)) named
      code
    have table := processPending _ _ _ _ r st' noNul pending ran
    have first : straceProcessLine true (cstr (l.print [newline])) st = .ok (r,st') :=
      (cstrClean noNul).symm ▸ ran
    obtain ⟨last,rest,tallied⟩ := ih (fun x member => traced x (List.mem_cons_of_mem _ member))
      (fun x member => short x (List.mem_cons_of_mem _ member)) table kept (inside.next first)
      (stats ▸ counted)
    refine ⟨last,?_,?_⟩
    · rw [List.map_cons,processLines,Prog.bindOf first]
      exact rest
    · refine tallied.congr fun other => ?_
      rw [List.countP_cons]
      cases l.counts other with
      | true =>
        simp only [Bool.toNat_true,if_true]
        omega
      | false => simp

theorem countFibers {α β : Type} [DecidableEq β] (f : α → β) (p : α → Bool) {s : Finset β}
    {xs : List α} (inside : ∀ x ∈ xs, f x ∈ s) :
    xs.countP p = ∑ b ∈ s, (xs.filter fun x => decide (f x = b)).countP p := by
  induction xs with
  | nil => simp
  | cons x xs ih =>
    have later := ih fun y member => inside y (List.mem_cons_of_mem _ member)
    have one (b : β) : ((x :: xs).filter fun x => decide (f x = b)).countP p =
        (xs.filter fun x => decide (f x = b)).countP p + if f x = b then (p x).toNat else 0 := by
      rw [List.filter_cons]
      split
      · rename_i own
        rw [List.countP_cons,if_pos (of_decide_eq_true own)]
        cases p x <;> rfl
      · rename_i other
        rw [if_neg fun own => other (decide_eq_true own)]
        rfl
    simp only [one,Finset.sum_add_distrib,Finset.sum_ite_eq,if_pos (inside x List.mem_cons_self)]
    rw [← later,List.countP_cons]
    cases p x <;> rfl

def Printed.call : Printed → Call
  | .once c => c
  | .twice p => p.call

def completed (calls : Int32 → List Printed) (pids : Finset Int32) (name : CName) : Nat :=
  ∑ pid ∈ pids, (calls pid).countP fun c => decide (c.call.name = name.bytes)

theorem linesCount (name : CName) (calls : List Printed) :
    (calls.flatMap Printed.lines).countP (TraceLine.counts name) =
      calls.countP fun c => decide (c.call.name = name.bytes) := by
  induction calls with
  | nil => rfl
  | cons c calls ih =>
    rw [List.flatMap_cons,List.countP_append,ih,List.countP_cons,Nat.add_comm]
    congr 1
    cases c with
    | once c =>
      rw [Printed.lines,List.countP_singleton]
      rfl
    | twice p =>
      rw [Printed.lines,List.countP_cons,List.countP_singleton]
      rfl

theorem completedLines {calls : Int32 → List Printed} {lines : List TraceLine}
    (mixed : Interleaved calls lines) {pids : Finset Int32}
    (only : ∀ pid, pid ∉ pids → calls pid = []) (name : CName) :
    lines.countP (TraceLine.counts name) = completed calls pids name := by
  have inside : ∀ l ∈ lines, l.pid ∈ pids := by
    intro l member
    by_contra outside
    have own : l ∈ lines.filter fun x => decide (x.pid = l.pid) :=
      List.mem_filter.mpr ⟨member,decide_eq_true rfl⟩
    rw [mixed,only _ outside] at own
    cases own
  rw [countFibers TraceLine.pid _ inside,completed]
  refine Finset.sum_congr rfl fun pid _ => ?_
  rw [mixed,linesCount]

/-- The statistics of the trace: one entry for each name that was completed, with the number of its
calls, and no entry for another. -/
def CountsCalls (calls : Int32 → List Printed) (pids : Finset Int32) (lines : List TraceLine)
    (list : List OpItem) : Prop :=
  ∃ st, straceGetItems true (traceFile (lines.map fun l => l.print [])) list = .ok ((),st) ∧
    ∀ name, st.stats.items.filter (fun x => decide (x.operation = name)) =
      if completed calls pids name = 0 then [] else [⟨name,completed calls pids name⟩]

theorem printEnded (l : TraceLine) (eol : Bytes) : l.print eol = l.print [] ++ eol := by
  cases l with
  | whole c =>
    rw [TraceLine.print,Call.print,Call.print,← printFront]
    simp only [List.append_assoc,List.cons_append,List.append_nil]
  | unfinished p =>
    rw [TraceLine.print,Split.unfinished,Split.unfinished,← printFront]
    simp only [List.append_assoc,List.cons_append,List.append_nil]
  | resumed p =>
    rw [TraceLine.print,Split.resumed,Split.resumed,← printFront]
    simp only [List.append_assoc,List.cons_append,List.append_nil]

theorem tracedLine {l : TraceLine} (traced : Traced l) : newline ∉ l.print [] := by
  have name : newline ∉ l.call.name := fun member =>
    (traced.clean newline (List.mem_append_left _ member)).2 rfl
  have text : newline ∉ l.call.text := fun member =>
    (traced.clean newline (List.mem_append_right _ member)).2 rfl
  have stamp (s : Stamp) : newline ∉ s.print [] := stampOther s (by decide) (by decide)
  cases l with
  | whole c =>
    rw [TraceLine.print,Call.print,printSplit]
    simp only [List.mem_append,List.mem_cons,not_or]
    exact ⟨stamp _,name,by decide,text,List.not_mem_nil⟩
  | unfinished p =>
    rw [TraceLine.print,Split.unfinished,printSplit]
    simp only [List.mem_append,List.mem_cons,not_or]
    exact ⟨stamp _,name,by decide,fun member => text (List.mem_of_mem_take member),
      by decide +kernel,List.not_mem_nil⟩
  | resumed p =>
    rw [TraceLine.print,Split.resumed,printSplit]
    simp only [List.mem_append,List.mem_cons,not_or]
    exact ⟨stamp _,by decide +kernel,name,by decide,by decide +kernel,
      fun member => text (List.mem_of_mem_drop member),List.not_mem_nil⟩

/-- Whatever the interleaving, a call that has come to its end is counted once, in one line or in
two, where no line is cut by fgets or goes beyond the arrays of its readers. -/
theorem callsCounted {calls : Int32 → List Printed} {pids : Finset Int32}
    (only : ∀ pid, pid ∉ pids → calls pid = []) {lines : List TraceLine}
    (mixed : Interleaved calls lines) (traced : ∀ l ∈ lines, Traced l) {list : List OpItem}
    (short : ∀ l ∈ lines, (ended (l.print [])).length < MAX_LINE)
    (inside : Confined lines (straceInit list)) : CountsCalls calls pids lines list := by
  have own (l : TraceLine) : l.print [newline] = ended (l.print []) := printEnded l [newline]
  have whole : ∀ line ∈ lines.map fun l => l.print [], newline ∉ line := by
    intro line member
    obtain ⟨l,there,same⟩ := List.mem_map.mp member
    exact same ▸ tracedLine (traced l there)
  have cut : ∀ line ∈ lines.map fun l => l.print [], (ended line).length < MAX_LINE := by
    intro line member
    obtain ⟨l,there,same⟩ := List.mem_map.mp member
    exact same ▸ short l there
  have run := ((byLines whole true list).mpr cut).same
  have stamps : Stamps (straceInit list).ht := by
    intro e member
    rw [straceInit,HashTable.itemsInit] at member
    cases member
  obtain ⟨st,ran,tally⟩ := tracedRun traced (fun l member => own l ▸ short l member)
    (pendingInit list) stamps inside (tallyInit list)
  refine ⟨st,?_,?_⟩
  · rw [run,← ran,List.map_map]
    congr 2
    exact funext fun l => (own l).symm
  · intro name
    rw [tally.keyed.filterKey (tally.found name),Nat.zero_add,completedLines mixed only name]
    split
    · rfl
    · rfl

def cutClose : Split := ⟨wholeClose,2,closeStart,rfl⟩

def closeCalls (pid : Int32) : List Printed := if pid = 8 then [.twice cutClose] else []

def closeLines : List TraceLine := [.unfinished cutClose,.resumed cutClose]

theorem closeInterleaved : Interleaved closeCalls closeLines := by
  have pids : TraceLine.pid (.unfinished cutClose) = 8 ∧ TraceLine.pid (.resumed cutClose) = 8 := by
    decide
  intro pid
  unfold closeCalls closeLines
  split
  · rename_i same
    subst same
    rfl
  · rename_i other
    simp [pids,Ne.symm other]

theorem closeTraced : ∀ l ∈ closeLines, Traced l := by
  have name : Callable cutClose.call.name ∧ lt ∉ cutClose.call.name := by decide +kernel
  have clean : ∀ c ∈ cutClose.call.name ++ cutClose.call.text, c ≠ 0 ∧ c ≠ newline := by
    decide +kernel
  intro l member
  simp only [closeLines,List.mem_cons,List.not_mem_nil,or_false] at member
  rcases member with first | second
  · subst first
    exact ⟨name.1,name.2,clean,show lt ∉ cutClose.first by decide +kernel⟩
  · subst second
    have ends : Finished (ascii " " ++ eq :: (ascii " 0 " ++ lt :: (timeText 0 1 ++ [gt]))) :=
      .ends (by decide) ⟨0x30,by decide,by decide⟩ (by decide) (by decide)
    have rest : cutClose.rest =
        ascii " " ++ eq :: (ascii " 0 " ++ lt :: (timeText 0 1 ++ [gt])) := by
      decide +kernel
    exact ⟨name.1,name.2,clean,show Finished cutClose.rest from rest ▸ ends⟩

theorem plainClosed {line : Bytes} (clean : quote ∉ line) : Closed line := by
  intro p q whole
  refine absurd ?_ clean
  rw [whole]
  exact List.mem_append_right _ List.mem_cons_self

def closeEntry : Isyscall := ⟨8,cutClose.unfinished [newline]⟩

theorem closePending {t : StraceState}
    (ran : processLines true [cutClose.unfinished [newline]] (straceInit []) = .ok ((),t)) :
    t.ht.find htOpsIsyscall 8 = some (some closeEntry) := by
  have stored : (processLines true [cutClose.unfinished [newline]] (straceInit [])).map
      (fun r => r.2.ht.find htOpsIsyscall 8) = .ok (some (some closeEntry)) := by
    decide +kernel
  rw [ran] at stored
  exact Except.ok.inj stored

theorem closeWithin {t : StraceState}
    (pending : t.ht.find htOpsIsyscall 8 = some (some closeEntry)) :
    Within t (cutClose.resumed [newline]) := by
  have occurs : strstr resumedWord (cutClose.resumed [newline]) = some 23 := by decide +kernel
  have own : linePid ((cutClose.resumed [newline]).set 22 lparen) = some 8 := by decide +kernel
  refine ⟨?_,?_,?_⟩
  · intro c reads
    rcases reads.resumed with absent | front
    · rw [occurs] at absent
      cases absent
    · rw [occurs] at front
      cases front
  · intro patched goes pid e told found
    cases goes with
    | patched _ _ there =>
      rw [occurs] at there
      cases there
      rw [own] at told
      cases told
      rw [pending] at found
      cases found
      decide +kernel
  · intro whole merged
    obtain ⟨pid,e,s,r,told,found,_,cut,mark,_,text⟩ := mergedOwn merged occurs
    rw [own] at told
    cases told
    rw [pending] at found
    cases found
    have first : strstr unfinishedMark closeEntry.line = some 20 := by decide +kernel
    have second : strstr resumedMark ((cutClose.resumed [newline]).set 22 lparen) = some 23 := by
      decide +kernel
    rw [first] at cut
    cases cut
    rw [second] at mark
    cases mark
    have joined : closeEntry.line.take 20 ++
        resumedRest ((cutClose.resumed [newline]).set 22 lparen) 23 =
        ascii "8 11.000000 close(5) = 0 " ++ lt :: (ascii "0.000001" ++ gt :: [newline]) := by
      decide +kernel
    rw [joined] at text
    subst text
    exact ⟨shortLineFits (by decide +kernel),briefEnd (by decide +kernel) (by decide) (by decide),
      fun _ _ _ => plainClosed (by decide +kernel)⟩

theorem closeConfined : Confined closeLines (straceInit []) := by
  have marked : strstr resumedWord ((TraceLine.unfinished cutClose).print [newline]) = none := by
    decide +kernel
  intro before l after t split ran
  cases before with
  | nil =>
    obtain ⟨same,_⟩ := List.cons.inj split
    subst same
    refine ⟨?_,?_,?_⟩
    · intro c reads shows
      rw [reads.unfinished (unfinishedMarked cutClose [newline])] at shows
      rcases shows with a | a | a | a <;> cases a
    · intro patched goes
      cases goes with
      | patched _ _ there =>
        rw [marked] at there
        cases there
    · intro whole merged
      cases merged with
      | parts _ _ there =>
        rw [marked] at there
        cases there
  | cons first before =>
    obtain ⟨same,later⟩ := List.cons.inj split
    subst same
    cases before with
    | nil =>
      obtain ⟨same,_⟩ := List.cons.inj later
      subst same
      exact closeWithin (closePending ran)
    | cons second before =>
      have none := (List.cons.inj later).2
      cases before with
      | nil => cases none
      | cons third before => cases none

theorem callsCountedClose : CountsCalls closeCalls {8} closeLines [] :=
  callsCounted (fun pid outside => if_neg fun same => outside (Finset.mem_singleton.mpr same))
    closeInterleaved closeTraced (by decide +kernel) closeConfined

def longChdir : Call :=
  ⟨readStart,ascii "chdir",ascii "\"/" ++ List.replicate 500 0x61 ++ ascii "\") = 0 <0.000010>"⟩

def chdirCalls (pid : Int32) : List Printed := if pid = 9 then [.once longChdir] else []

theorem chdirInterleaved : Interleaved chdirCalls [.whole longChdir] := by
  have own : TraceLine.pid (.whole longChdir) = 9 := by decide
  intro pid
  unfold chdirCalls
  split
  · rename_i same
    subst same
    rfl
  · rename_i other
    simp [own,Ne.symm other]

theorem chdirTraced : Traced (.whole longChdir) := by
  have text : longChdir.text = ascii "\"/" ++ List.replicate 500 0x61 ++ ascii "\") " ++
      eq :: (ascii " 0 " ++ lt :: (timeText 0 10 ++ [gt])) := by
    decide +kernel
  have ends : Finished (ascii "\"/" ++ List.replicate 500 0x61 ++ ascii "\") " ++
      eq :: (ascii " 0 " ++ lt :: (timeText 0 10 ++ [gt]))) :=
    .ends (by decide +kernel) ⟨0x30,by decide,by decide⟩ (by decide) (by decide)
  exact ⟨by decide +kernel,by decide +kernel,by decide +kernel,
    show Finished longChdir.text from text ▸ ends⟩

theorem longLineUncounted : (∀ l ∈ [TraceLine.whole longChdir], Traced l) ∧
    Interleaved chdirCalls [.whole longChdir] ∧
    ¬ CountsCalls chdirCalls {9} [.whole longChdir] [] := by
  refine ⟨fun l member => List.mem_singleton.mp member ▸ chdirTraced,chdirInterleaved,?_⟩
  intro counts
  obtain ⟨st,ran,each⟩ := counts
  have spoilt : (straceGetItems true
      (traceFile ([TraceLine.whole longChdir].map fun l => l.print [])) []).map
      (fun r => r.2.stats.items.map fun x => (x.operation.bytes,x.count)) =
      .ok [(List.replicate 9 0x61 ++ ascii "\")",1)] := by
    decide +kernel
  rw [ran] at spoilt
  have items := Except.ok.inj spoilt
  have once := each ⟨ascii "chdir",by decide,by decide⟩
  have total : completed chdirCalls {9} ⟨ascii "chdir",by decide,by decide⟩ = 1 := by
    decide +kernel
  rw [total,if_neg (Nat.succ_ne_zero 0)] at once
  have entry := (List.mem_filter.mp (once ▸ List.mem_singleton_self _)).1
  have counted : (ascii "chdir",1) ∈ st.stats.items.map fun x => (x.operation.bytes,x.count) :=
    List.mem_map.mpr ⟨_,entry,rfl⟩
  have named : (ascii "chdir",1) ∈ [(List.replicate 9 0x61 ++ ascii "\")",1)] := items ▸ counted
  exact absurd named (by decide +kernel)

end IoApps.Strace
