import IoApps.Lib.Cancel
import IoApps.Simfs

/-! What simfs_absolute_name makes of an absolute name, against the lexical normal form. -/
namespace IoApps
open Lib (Bytes tokens joined strstr rindex settle pending survivors Agrees)

def dotdot : Bytes := [dot,dot]

def components (name : Bytes) : List Bytes := (name.drop 1).splitOn slash

def isName (c : Bytes) : Bool := !c.isEmpty && c != [dot]

def every (_ : Bytes) : Bool := true

def lexical (name : Bytes) : List Bytes := settle dotdot isName [] (components name)

def Normal (cwd : Option Bytes) (name : Bytes) : Prop :=
  ∃ out, simfsAbsoluteName cwd name MAX_LINE = .ok out ∧
    (∀ fuel, name.length < fuel → (squashDotDot fuel name).map (squashDot fuel) = .ok out) ∧
    out.head? = some slash ∧ tokens slash out = lexical name

section Loops

theorem squashDotDotShort {fuel : Nat} {buff out : Bytes}
    (run : squashDotDot fuel buff = .ok out) : out.length ≤ buff.length := by
  fun_induction squashDotDot fuel buff with
  | case1 buff =>
    cases run
    exact Nat.le_refl _
  | case2 fuel buff seen =>
    cases run
    exact Nat.le_refl _
  | case3 fuel buff seen ih =>
    have inner := ih run
    rw [List.length_drop] at inner
    omega
  | case4 fuel buff off seen later back => cases run
  | case5 fuel buff off seen later s back ih =>
    have inner := ih run
    have front := Lib.rindexBound back
    rw [List.length_append,List.length_take,List.length_drop] at inner
    rw [List.length_take] at front
    omega

theorem squashDotDone {fuel : Nat} {buff : Bytes} (enough : buff.length < fuel) :
    strstr [slash,dot] (squashDot fuel buff) = none := by
  fun_induction squashDot fuel buff with
  | case1 buff => exact absurd enough (Nat.not_lt_zero _)
  | case2 fuel buff seen => exact seen
  | case3 fuel buff short seen ih => exact ih (by rw [List.length_singleton]; omega)
  | case4 fuel buff long seen ih =>
    have bound := Lib.strstrBound seen
    rw [List.length_cons,List.length_singleton] at bound
    exact ih (by rw [List.length_drop]; omega)
  | case5 fuel buff off seen later ih =>
    have bound := Lib.strstrBound seen
    rw [List.length_cons,List.length_singleton] at bound
    exact ih (by rw [List.length_append,List.length_take,List.length_drop]; omega)

def weight (s : Bytes) : Nat := s.countP fun b => b != slash && b != dot

theorem weightAppend (a b : Bytes) : weight (a ++ b) = weight a + weight b :=
  List.countP_append

theorem squashDotWeight (fuel : Nat) (buff : Bytes) :
    weight (squashDot fuel buff) = weight buff := by
  fun_induction squashDot fuel buff with
  | case1 buff => rfl
  | case2 fuel buff seen => rfl
  | case3 fuel buff short seen ih =>
    have text := Lib.strstrFound seen
    have rest : buff.drop 2 = [] := List.drop_eq_nil_of_le (by omega)
    rw [List.take_zero,List.nil_append,List.length_cons,List.length_singleton,rest] at text
    rw [ih,text]
    rfl
  | case4 fuel buff long seen ih =>
    have text := Lib.strstrFound seen
    rw [ih]
    conv => rhs; rw [text]
    rw [weightAppend,weightAppend,Nat.zero_add,List.take_zero]
    exact ((Nat.zero_add _).trans (Nat.zero_add _)).symm
  | case5 fuel buff off seen later ih =>
    have text := Lib.strstrFound seen
    rw [ih,weightAppend]
    conv => rhs; rw [text]
    rw [weightAppend,weightAppend]
    exact congrArg _ (Nat.zero_add _).symm

end Loops
section Runs

theorem joinedSnoc (front : List Bytes) (t : Bytes) :
    joined slash (front ++ [t]) = joined slash front ++ slash :: t := by
  rw [Lib.joinedAppend,Lib.joinedCons]
  simp [joined]

theorem squashUpFirst (fuel : Nat) (text : Bytes) :
    squashDotDot (fuel + 1) (slash :: (dotdot ++ text)) = squashDotDot fuel text := by
  have here : [slash,dot,dot].isPrefixOf (slash :: (dotdot ++ text)) = true :=
    List.isPrefixOf_iff_prefix.mpr (List.prefix_append (slash :: dotdot) text)
  have seen : strstr [slash,dot,dot] (slash :: (dotdot ++ text)) = some 0 := by
    rw [strstr,if_pos here]
  rw [squashDotDot,seen]
  rfl

theorem squashUpLater (fuel : Nat) {front : List Bytes} {t : Bytes}
    (below : ∀ c ∈ front ++ [t], slash ∉ c ∧ ¬ dotdot <+: c) (text : Bytes) :
    squashDotDot (fuel + 1) (joined slash (front ++ [t]) ++ slash :: (dotdot ++ text)) =
      squashDotDot fuel (joined slash front ++ text) := by
  have apart : slash ∉ dotdot := by decide
  have clean : slash ∉ t := (below t (by simp)).1
  have here : (slash :: dotdot).isPrefixOf (slash :: (dotdot ++ text)) = true :=
    List.isPrefixOf_iff_prefix.mpr (List.prefix_append (slash :: dotdot) text)
  have seen : strstr [slash,dot,dot] (joined slash (front ++ [t]) ++ slash :: (dotdot ++ text)) =
      some (joined slash (front ++ [t])).length := by
    refine (Lib.strstrJoined apart below (.inr rfl)).trans ?_
    rw [strstr,if_pos here,Option.map_some,Nat.zero_add]
  have some : (joined slash (front ++ [t])).length ≠ 0 := by simp [joinedSnoc]
  have back : rindex slash (joined slash (front ++ [t])) = .some (joined slash front).length := by
    rw [joinedSnoc]
    exact Lib.rindexLast clean
  have behind : (joined slash (front ++ [t]) ++ slash :: (dotdot ++ text)).drop
      ((joined slash (front ++ [t])).length + 3) = text := by
    rw [List.drop_append]
    simp [dotdot]
  rw [squashDotDot,seen]
  simp only [if_neg some,List.take_left,back,behind]
  rw [joinedSnoc,List.append_assoc,List.take_left]

theorem squashDotDotRun {stack comps : List Bytes}
    (below : ∀ c ∈ stack, slash ∉ c ∧ ¬ dotdot <+: c)
    (plain : ∀ c ∈ comps, slash ∉ c ∧ (dotdot <+: c → c = dotdot)) {fuel : Nat}
    (enough : (joined slash (stack.reverse ++ comps)).length < fuel) :
    squashDotDot fuel (joined slash (stack.reverse ++ comps)) =
      .ok (joined slash (settle dotdot every stack comps)) := by
  have apart : slash ∉ dotdot := by decide
  induction comps generalizing stack fuel with
  | nil =>
    obtain ⟨fuel,rfl⟩ := Nat.exists_eq_add_one.mpr (Nat.zero_lt_of_lt enough)
    have below' : ∀ c ∈ stack.reverse, slash ∉ c ∧ ¬ dotdot <+: c := fun c member =>
      below c (List.mem_reverse.mp member)
    have seen := Lib.strstrJoined apart below' (s := []) (.inl rfl)
    rw [List.append_nil] at seen ⊢
    have gone : strstr [slash,dot,dot] (joined slash stack.reverse) = none := seen
    rw [squashDotDot,gone,settle]
  | cons c comps ih =>
    obtain ⟨clean,only⟩ := plain c List.mem_cons_self
    have later : ∀ d ∈ comps, slash ∉ d ∧ (dotdot <+: d → d = dotdot) := fun d member =>
      plain d (List.mem_cons_of_mem c member)
    rw [settle]
    by_cases up : c = dotdot
    · obtain ⟨fuel,rfl⟩ := Nat.exists_eq_add_one.mpr (Nat.zero_lt_of_lt enough)
      have text : joined slash (stack.reverse ++ c :: comps) =
          joined slash stack.reverse ++ slash :: (dotdot ++ joined slash comps) := by
        rw [Lib.joinedAppend,Lib.joinedCons,up]
      rw [if_pos up,text]
      rw [text,List.length_append,List.length_cons,List.length_append] at enough
      cases stack with
      | nil =>
        have round := squashUpFirst fuel (joined slash comps)
        have empty : ∀ d ∈ ([] : List Bytes), slash ∉ d ∧ ¬ dotdot <+: d := by simp
        exact round.trans (ih empty later (by simpa using by omega))
      | cons t stack =>
        have below' : ∀ d ∈ stack.reverse ++ [t], slash ∉ d ∧ ¬ dotdot <+: d :=
          fun d member => below d (by simpa [or_comm] using member)
        have round := squashUpLater fuel below' (joined slash comps)
        rw [List.reverse_cons,round,← Lib.joinedAppend]
        refine ih (fun d member => below d (List.mem_cons_of_mem t member)) later ?_
        rw [Lib.joinedAppend,List.length_append]
        rw [List.reverse_cons,joinedSnoc,List.length_append] at enough
        omega
    · rw [if_neg up]
      have more : ∀ d ∈ c :: stack, slash ∉ d ∧ ¬ dotdot <+: d := by
        intro d member
        rcases List.mem_cons.mp member with rfl | inside
        · exact ⟨clean,fun starts => up (only starts)⟩
        · exact below d inside
      have same : (c :: stack).reverse ++ comps = stack.reverse ++ c :: comps := by simp
      exact same ▸ ih more later (same ▸ enough)

def polished : List Bytes → Bytes
  | [] => []
  | c :: rest =>
    if c = [dot] then if rest = [] then [slash] else polished rest
    else joined slash ((c :: rest).filter (· != [dot]))

theorem squashDotFirst (fuel : Nat) (text : Bytes) :
    squashDot (fuel + 1) (slash :: dot :: text) =
      if text = [] then squashDot fuel [slash] else squashDot fuel text := by
  have here : [slash,dot].isPrefixOf (slash :: dot :: text) = true :=
    List.isPrefixOf_iff_prefix.mpr (List.prefix_append [slash,dot] text)
  have seen : strstr [slash,dot] (slash :: dot :: text) = some 0 := by
    rw [strstr,if_pos here]
  rw [squashDot,seen]
  simp

theorem squashDotLater (fuel : Nat) {front : List Bytes} (some : front ≠ [])
    (shown : ∀ c ∈ front, slash ∉ c ∧ ¬ [dot] <+: c) (text : Bytes) :
    squashDot (fuel + 1) (joined slash front ++ slash :: dot :: text) =
      squashDot fuel (joined slash front ++ text) := by
  have apart : slash ∉ [dot] := by decide
  have here : [slash,dot].isPrefixOf (slash :: dot :: text) = true :=
    List.isPrefixOf_iff_prefix.mpr (List.prefix_append [slash,dot] text)
  have seen : strstr [slash,dot] (joined slash front ++ slash :: dot :: text) =
      .some (joined slash front).length := by
    refine (Lib.strstrJoined apart shown (.inr rfl)).trans ?_
    rw [strstr,if_pos here,Option.map_some,Nat.zero_add]
  have long : (joined slash front).length ≠ 0 := by
    obtain ⟨c,more,rfl⟩ := List.exists_cons_of_ne_nil some
    simp [Lib.joinedCons]
  have behind : (joined slash front ++ slash :: dot :: text).drop
      ((joined slash front).length + 2) = text := by
    rw [List.drop_append]
    simp
  rw [squashDot,seen]
  simp only [if_neg long,List.take_left,behind]

theorem squashDotBehind {front comps : List Bytes} (some : front ≠ [])
    (shown : ∀ c ∈ front, slash ∉ c ∧ ¬ [dot] <+: c)
    (plain : ∀ c ∈ comps, slash ∉ c ∧ ([dot] <+: c → c = [dot])) {fuel : Nat}
    (enough : (joined slash (front ++ comps)).length < fuel) :
    squashDot fuel (joined slash (front ++ comps)) =
      joined slash (front ++ comps.filter (· != [dot])) := by
  induction comps generalizing front fuel with
  | nil =>
    obtain ⟨fuel,rfl⟩ := Nat.exists_eq_add_one.mpr (Nat.zero_lt_of_lt enough)
    have apart : slash ∉ [dot] := by decide
    have seen := Lib.strstrJoined apart shown (s := []) (.inl rfl)
    rw [List.append_nil] at seen
    have gone : strstr [slash,dot] (joined slash front) = none := seen
    rw [List.filter_nil,List.append_nil,squashDot,gone]
  | cons c comps ih =>
    obtain ⟨clean,only⟩ := plain c List.mem_cons_self
    have later : ∀ d ∈ comps, slash ∉ d ∧ ([dot] <+: d → d = [dot]) := fun d member =>
      plain d (List.mem_cons_of_mem c member)
    by_cases single : c = [dot]
    · obtain ⟨fuel,rfl⟩ := Nat.exists_eq_add_one.mpr (Nat.zero_lt_of_lt enough)
      have text : joined slash (front ++ c :: comps) =
          joined slash front ++ slash :: dot :: joined slash comps := by
        rw [Lib.joinedAppend,Lib.joinedCons,single]
        rfl
      rw [text,List.length_append,List.length_cons,List.length_cons] at enough
      have fits : (joined slash (front ++ comps)).length < fuel := by
        rw [Lib.joinedAppend,List.length_append]
        omega
      rw [text,squashDotLater fuel some shown,← Lib.joinedAppend,ih some shown later fits,
        List.filter_cons_of_neg (by simp [single])]
    · have more : ∀ d ∈ front ++ [c], slash ∉ d ∧ ¬ [dot] <+: d := by
        intro d member
        rcases List.mem_append.mp member with before | last
        · exact shown d before
        · rw [List.mem_singleton.mp last]
          exact ⟨clean,fun starts => single (only starts)⟩
      have same (tail : List Bytes) : front ++ c :: tail = front ++ [c] ++ tail := by simp
      rw [same comps] at enough ⊢
      rw [List.filter_cons_of_pos (by simp [single]),same (comps.filter (· != [dot]))]
      exact ih (by simp) more later enough

theorem squashDotRun {comps : List Bytes}
    (plain : ∀ c ∈ comps, slash ∉ c ∧ ([dot] <+: c → c = [dot])) {fuel : Nat}
    (enough : (joined slash comps).length < fuel) :
    squashDot fuel (joined slash comps) = polished comps := by
  induction comps generalizing fuel with
  | nil =>
    obtain ⟨fuel,rfl⟩ := Nat.exists_eq_add_one.mpr (Nat.zero_lt_of_lt enough)
    rfl
  | cons c comps ih =>
    obtain ⟨clean,only⟩ := plain c List.mem_cons_self
    have later : ∀ d ∈ comps, slash ∉ d ∧ ([dot] <+: d → d = [dot]) := fun d member =>
      plain d (List.mem_cons_of_mem c member)
    rw [polished]
    split
    · rename_i single
      obtain ⟨fuel,rfl⟩ := Nat.exists_eq_add_one.mpr (Nat.zero_lt_of_lt enough)
      have text : joined slash (c :: comps) = slash :: dot :: joined slash comps := by
        rw [single]
        rfl
      rw [text,List.length_cons,List.length_cons] at enough
      rw [text,squashDotFirst]
      cases comps with
      | nil =>
        obtain ⟨fuel,rfl⟩ : ∃ n, fuel = n + 1 := Nat.exists_eq_add_one.mpr (by omega)
        rfl
      | cons d comps =>
        rw [if_neg (by simp [Lib.joinedCons]),if_neg (List.cons_ne_nil d comps)]
        exact ih later (by omega)
    · rename_i other
      have shown : ∀ d ∈ [c], slash ∉ d ∧ ¬ [dot] <+: d := by
        intro d member
        rw [List.mem_singleton.mp member]
        exact ⟨clean,fun starts => other (only starts)⟩
      rw [List.filter_cons_of_pos (by simp [other])]
      exact squashDotBehind (List.cons_ne_nil c []) shown later enough

theorem polishedTokens {comps : List Bytes} (apart : ∀ c ∈ comps, slash ∉ c) :
    tokens slash (polished comps) = comps.filter isName := by
  induction comps with
  | nil => rfl
  | cons c comps ih =>
    have later := ih fun d member => apart d (List.mem_cons_of_mem c member)
    rw [polished]
    split
    · rename_i single
      rw [List.filter_cons_of_neg (by simp [isName,single]),← later]
      split
      · rename_i last
        rw [last]
        rfl
      · rfl
    · rw [Lib.tokensAll fun d member => apart d (List.mem_of_mem_filter member),List.filter_filter]
      rfl

theorem polishedAbsolute {comps : List Bytes} (some : comps ≠ []) :
    (polished comps).head? = .some slash := by
  induction comps with
  | nil => exact absurd rfl some
  | cons c comps ih =>
    rw [polished]
    split
    · split
      · rfl
      · rename_i more
        exact ih more
    · rename_i other
      rw [List.filter_cons_of_pos (by simp [other])]
      rfl

end Runs

def Undotted (name : Bytes) : Prop := ∀ c ∈ components name, dotdot <+: c → c = dotdot

/-- No ".." is used up on an empty component or a ".", no name that stays starts in a dot, and
something stays. -/
structure Settles (name : Bytes) : Prop where
  undotted : Undotted name
  agrees : Agrees dotdot isName every (components name)
  visible : ∀ c rest, c :: rest <:+ components name → c ≠ dotdot → isName c = true →
    pending dotdot isName rest = 0 → c.head? ≠ some dot
  left : ∃ c rest, c :: rest <:+ components name ∧ c ≠ dotdot ∧ pending dotdot every rest = 0

section Name
variable {cwd : Option Bytes} {name : Bytes}

theorem joinedComponents (absolute : name.head? = some slash) :
    joined slash (components name) = name := by
  obtain ⟨text,rfl⟩ := List.head?_eq_some_iff.mp absolute
  exact Lib.joinedSplit slash text

theorem componentsApart : ∀ c ∈ components name, slash ∉ c := fun _ member =>
  Lib.splitApart member

theorem absoluteRan (absolute : name.head? = some slash) :
    simfsAbsoluteName cwd name MAX_LINE = (squashDotDot (name.length + 1) name).map fun buff =>
      squashDot (buff.length + 1) buff := by
  have first : absolutePath cwd name MAX_LINE = .ok name := by
    simp [absolutePath,absolute]
  rw [simfsAbsoluteName,first]
  cases ran : squashDotDot (name.length + 1) name with
  | error f => simp [bind,Except.bind,ran,Except.map]
  | ok buff => simp [bind,Except.bind,ran,Except.map]

def stay (name : Bytes) : List Bytes := survivors dotdot every (components name)

theorem firstLoop (absolute : name.head? = some slash) (undotted : Undotted name) {fuel : Nat}
    (enough : name.length < fuel) : squashDotDot fuel name = .ok (joined slash (stay name)) := by
  have whole := joinedComponents absolute
  have empty : ∀ d ∈ ([] : List Bytes), slash ∉ d ∧ ¬ dotdot <+: d := by simp
  have plain : ∀ c ∈ components name, slash ∉ c ∧ (dotdot <+: c → c = dotdot) :=
    fun c member => ⟨componentsApart c member,undotted c member⟩
  have fits : (joined slash (([] : List Bytes).reverse ++ components name)).length < fuel := by
    rwa [List.reverse_nil,List.nil_append,whole]
  have run := squashDotDotRun empty plain fits
  rwa [List.reverse_nil,List.nil_append,whole,Lib.settled] at run

theorem stayApart : ∀ c ∈ stay name, slash ∉ c ∧ c ≠ dotdot := by
  intro c member
  obtain ⟨rest,tail,other,_⟩ := (Lib.memSurvivors dotdot).mp member
  exact ⟨componentsApart c (tail.subset List.mem_cons_self),other⟩

theorem everyCounts : ∀ c, isName c = true → every c = true := fun _ _ => rfl

theorem settlesNormal (absolute : name.head? = some slash) (settles : Settles name) :
    Normal cwd name := by
  have names : (stay name).filter isName = lexical name := by
    rw [lexical,Lib.settled]
    exact Lib.agreesSurvivors everyCounts settles.agrees
  have plain : ∀ c ∈ stay name, slash ∉ c ∧ ([dot] <+: c → c = [dot]) := by
    intro c member
    refine ⟨(stayApart c member).1,fun starts => ?_⟩
    cases named : isName c with
    | true =>
      have shown : c ∈ lexical name := names ▸ List.mem_filter.mpr ⟨member,named⟩
      rw [lexical,Lib.settled] at shown
      obtain ⟨rest,tail,other,_,free⟩ := (Lib.memSurvivors dotdot).mp shown
      obtain ⟨more,same⟩ := starts
      exact absurd (by rw [← same]; rfl) (settles.visible c rest tail other named free)
    | false =>
      have either : c = [] ∨ c = [dot] := by
        simpa [isName,Decidable.or_iff_not_imp_left] using named
      rcases either with rfl | single
      · exact absurd (List.prefix_nil.mp starts) (List.cons_ne_nil dot [])
      · exact single
  have some : stay name ≠ [] := by
    obtain ⟨c,rest,tail,other,free⟩ := settles.left
    have member : c ∈ stay name := (Lib.memSurvivors dotdot).mpr ⟨rest,tail,other,rfl,free⟩
    exact List.ne_nil_of_mem member
  have short : (joined slash (stay name)).length ≤ name.length :=
    squashDotDotShort (firstLoop absolute settles.undotted (Nat.lt_succ_self _))
  refine ⟨polished (stay name),?_,?_,polishedAbsolute some,?_⟩
  · rw [absoluteRan absolute,firstLoop absolute settles.undotted (Nat.lt_succ_self _)]
    exact congrArg Except.ok (squashDotRun plain (Nat.lt_succ_self _))
  · intro fuel enough
    rw [firstLoop absolute settles.undotted enough]
    exact congrArg Except.ok (squashDotRun plain (by omega))
  · rw [polishedTokens fun c member => (plain c member).1,names]

theorem weightJoined (comps : List Bytes) :
    weight (joined slash comps) = (comps.map weight).sum := by
  induction comps with
  | nil => rfl
  | cons c comps ih =>
    have first : weight (slash :: (c ++ joined slash comps)) =
        weight (c ++ joined slash comps) := List.countP_cons_of_neg (by simp)
    rw [Lib.joinedCons,first,weightAppend,ih,List.map_cons,List.sum_cons]

theorem weightFilter {p : Bytes → Bool} {comps : List Bytes}
    (light : ∀ c ∈ comps, p c = false → weight c = 0) :
    ((comps.filter p).map weight).sum = (comps.map weight).sum := by
  induction comps with
  | nil => rfl
  | cons c comps ih =>
    have later := ih fun d member => light d (List.mem_cons_of_mem c member)
    rw [List.map_cons,List.sum_cons]
    cases stays : p c with
    | true => rw [List.filter_cons_of_pos stays,List.map_cons,List.sum_cons,later]
    | false =>
      rw [List.filter_cons_of_neg (by simp [stays]),later,light c List.mem_cons_self stays,
        Nat.zero_add]

theorem weightTokens {text : Bytes} (absolute : text.head? = some slash) :
    ((tokens slash text).map weight).sum = weight text := by
  conv => lhs; rw [← joinedComponents absolute]
  rw [Lib.tokensAll componentsApart,weightFilter,← weightJoined,joinedComponents absolute]
  intro c _ empty
  have bare : c = [] := by simpa using empty
  rw [bare]
  rfl

theorem nameHeavy {c : Bytes} (named : isName c = true) (clean : slash ∉ c)
    (single : ¬ dotdot <+: c) : 0 < weight c := by
  cases c with
  | nil => cases named
  | cons x c =>
    have first : x ≠ slash := fun same => clean (by simp [same])
    by_cases dotted : x = dot
    · cases c with
      | nil => simp [isName,dotted] at named
      | cons y c =>
        have second : y ≠ slash := fun same => clean (by simp [same])
        have other : y ≠ dot := by
          intro same
          exact single ⟨c,by rw [dotted,same]; rfl⟩
        exact List.countP_pos_iff.mpr ⟨y,by simp,by simp [second,other]⟩
    · exact List.countP_pos_iff.mpr ⟨x,by simp,by simp [first,dotted]⟩

theorem tokenShown {text : Bytes} (absolute : text.head? = some slash)
    (gone : strstr [slash,dot] text = none) {c : Bytes} (member : c ∈ tokens slash text) :
    c.head? ≠ some dot := by
  intro starts
  obtain ⟨more,rfl⟩ := List.head?_eq_some_iff.mp starts
  have whole := joinedComponents absolute
  rw [← whole,Lib.tokensAll componentsApart] at member
  obtain ⟨before,after,parts⟩ := List.append_of_mem (List.mem_of_mem_filter member)
  rw [parts,Lib.joinedAppend,Lib.joinedCons] at whole
  rw [← whole] at gone
  exact Lib.strstrFinds [slash,dot] (joined slash before) (more ++ joined slash after) gone

theorem normalSettles (absolute : name.head? = some slash) (undotted : Undotted name)
    (normal : Normal cwd name) : Settles name := by
  obtain ⟨out,ran,_,rooted,toks⟩ := normal
  rw [absoluteRan absolute,firstLoop absolute undotted (Nat.lt_succ_self _)] at ran
  have same : squashDot ((joined slash (stay name)).length + 1) (joined slash (stay name)) = out :=
    Except.ok.inj ran
  have gone : strstr [slash,dot] out = none := same ▸ squashDotDone (Nat.lt_succ_self _)
  have sub : (lexical name).Sublist ((stay name).filter isName) := by
    rw [lexical,Lib.settled]
    exact Lib.survivorsSublist dotdot everyCounts _
  have heavy : ∀ c ∈ (stay name).filter isName, 0 < weight c := by
    intro c member
    obtain ⟨inside,named⟩ := List.mem_filter.mp member
    obtain ⟨clean,other⟩ := stayApart c inside
    obtain ⟨rest,tail,_⟩ := (Lib.memSurvivors dotdot).mp inside
    refine nameHeavy named clean fun starts => other ?_
    exact undotted c (tail.subset List.mem_cons_self) starts
  have light : ∀ c ∈ stay name, isName c = false → weight c = 0 := by
    intro c _ bare
    have either : c = [] ∨ c = [dot] := by
      simpa [isName,Decidable.or_iff_not_imp_left] using bare
    rcases either with rfl | rfl
    · rfl
    · rfl
  have equal : ((lexical name).map weight).sum = (((stay name).filter isName).map weight).sum := by
    calc
      ((lexical name).map weight).sum = weight out := by rw [← toks,weightTokens rooted]
      _ = weight (joined slash (stay name)) := by rw [← same,squashDotWeight]
      _ = ((stay name).map weight).sum := weightJoined _
      _ = (((stay name).filter isName).map weight).sum := (weightFilter light).symm
  have names := Lib.sublistWeight weight sub heavy equal
  refine ⟨undotted,?_,?_,?_⟩
  · rw [lexical,Lib.settled] at names
    exact Lib.survivorsAgree everyCounts names.symm
  · intro c rest tail other named free
    have member : c ∈ lexical name := by
      rw [lexical,Lib.settled]
      exact (Lib.memSurvivors dotdot).mpr ⟨rest,tail,other,named,free⟩
    exact tokenShown rooted gone (toks ▸ member)
  · cases kept : stay name with
    | nil =>
      rw [kept] at same
      rw [← same] at rooted
      cases rooted
    | cons c more =>
      obtain ⟨rest,tail,other,_,free⟩ :=
        (Lib.memSurvivors dotdot).mp (show c ∈ stay name from kept ▸ List.mem_cons_self)
      exact ⟨c,rest,tail,other,free⟩

theorem absoluteNormal (cwd : Option Bytes) (absolute : name.head? = some slash) :
    Settles name ↔ Undotted name ∧ Normal cwd name :=
  ⟨fun settles => ⟨settles.undotted,settlesNormal absolute settles⟩,
    fun both => normalSettles absolute both.1 both.2⟩

end Name

def upOnce : Bytes := [slash,97,slash,dot,slash,98,slash,dot,dot,slash,99]

theorem absoluteNormalOnce : Normal none upOnce := by
  have parts : components upOnce = [[97],[dot],[98],dotdot,[99]] := by decide
  have settles : Settles upOnce := by
    constructor
    · intro c member
      rw [parts] at member
      revert c
      decide
    · rw [parts]
      exact Lib.survivorsAgree everyCounts (by decide)
    · intro c rest tail other named free
      have member := (Lib.memSurvivors dotdot).mpr ⟨rest,tail,other,named,free⟩
      have shown : ∀ d ∈ survivors dotdot isName [[97],[dot],[98],dotdot,[99]],
          d.head? ≠ some dot := by decide
      exact shown c (parts ▸ member)
    · rw [parts]
      exact ⟨[99],[],⟨[[97],[dot],[98],dotdot],rfl⟩,by decide,rfl⟩
  exact ((absoluteNormal none rfl).mp settles).2

def hiddenFile : Bytes := [slash,97,slash,dot,98,97,115,104,114,99]

def dottedTwice : Bytes := [slash,97,slash,dot,dot,120,slash,dot,dot]

theorem absoluteSpoilt : ¬ Normal none hiddenFile ∧
    simfsAbsoluteName none dottedTwice MAX_LINE = .error .noSlash := by
  refine ⟨fun normal => ?_,by decide +kernel⟩
  obtain ⟨out,ran,_,_,toks⟩ := normal
  have text : simfsAbsoluteName none hiddenFile MAX_LINE =
      .ok [slash,97,98,97,115,104,114,99] := by decide +kernel
  have same : [slash,97,98,97,115,104,114,99] = out := Except.ok.inj (text.symm.trans ran)
  rw [← same] at toks
  exact absurd toks (by decide +kernel)

end IoApps
