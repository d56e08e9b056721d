import IoApps.FdMap
import Mathlib.Data.List.Nodup

/-! The usage counters as a function from descriptors to numbers: an increase adds one, a decrease
takes one away, and no other counter is touched. -/
namespace IoApps

def listCount (l : List FdUsage) (n : Int32) : Int :=
  match l.find? (htOpsFdUsage.compare n) with
  | some u => u.usage.toInt
  | none => 0

def usageCount (h : HashTable FdUsage) (n : Int32) : Int :=
  match h.chain htOpsFdUsage n with
  | some c => listCount (h.entry c) n
  | none => 0

def Distinct (l : List FdUsage) : Prop := (l.map FdUsage.myFd).Nodup

def Counters (h : HashTable FdUsage) : Prop := ∀ c, Distinct (h.entry c)

theorem compareUsage {n : Int32} {u : FdUsage} : htOpsFdUsage.compare n u = true ↔ u.myFd = n := by
  simp [htOpsFdUsage]

theorem countersInit (m : Nat) : Counters (.init m) := fun _ => List.nodup_nil

theorem usageCountInit (m : Nat) (n : Int32) : usageCount (.init m) n = 0 := by
  rw [usageCount]
  split <;> rfl

theorem usageCountNone {h : HashTable FdUsage} {n : Int32}
    (absent : h.find htOpsFdUsage n = some none) : usageCount h n = 0 := by
  obtain ⟨c,hashed,search⟩ := Option.map_eq_some_iff.mp absent
  rw [usageCount,hashed]
  simp only [listCount,search]

section Lists
variable {l : List FdUsage} {n k : Int32}

theorem listCountAppend (absent : l.find? (htOpsFdUsage.compare n) = none) :
    listCount (l ++ [⟨n,1⟩]) k = listCount l k + if k = n then 1 else 0 := by
  rw [listCount,listCount,List.find?_append]
  by_cases same : k = n
  · subst same
    have one : htOpsFdUsage.compare k ⟨k,1⟩ = true := compareUsage.mpr rfl
    simp [absent,one]
  · have other : htOpsFdUsage.compare k ⟨n,1⟩ = false := by
      simpa using fun eq => same (compareUsage.mp eq).symm
    simp [same,other]

theorem distinctAppend (distinct : Distinct l)
    (absent : l.find? (htOpsFdUsage.compare n) = none) : Distinct (l ++ [⟨n,1⟩]) := by
  rw [Distinct,List.map_append]
  refine List.nodup_append.mpr ⟨distinct,by simp,?_⟩
  rintro a here b there rfl
  obtain ⟨u,member,same⟩ := List.mem_map.mp here
  have missed := List.find?_eq_none.mp absent u member
  exact missed (compareUsage.mpr (same.trans (by simpa using there)))

theorem updateFirstFds (usage : Int32) : (HashTable.updateFirst (htOpsFdUsage.compare n)
    (fun u => { u with usage := usage }) l).map FdUsage.myFd = l.map FdUsage.myFd := by
  induction l with
  | nil => rfl
  | cons u rest ih =>
    rw [HashTable.updateFirst]
    split
    · rfl
    · simp [ih]

theorem listCountUpdate {u : FdUsage} (found : l.find? (htOpsFdUsage.compare n) = some u)
    (usage : Int32) : listCount (HashTable.updateFirst (htOpsFdUsage.compare n)
      (fun u => { u with usage := usage }) l) k =
      listCount l k + if k = n then usage.toInt - u.usage.toInt else 0 := by
  induction l with
  | nil => simp at found
  | cons x rest ih =>
    rw [HashTable.updateFirst]
    by_cases here : htOpsFdUsage.compare n x = true
    · rw [if_pos here]
      rw [List.find?_cons_of_pos here] at found
      obtain rfl : x = u := Option.some.inj found
      have mine := compareUsage.mp here
      by_cases same : k = n
      · subst same
        have again : htOpsFdUsage.compare k { x with usage := usage } = true :=
          compareUsage.mpr mine
        rw [listCount,listCount,List.find?_cons_of_pos again,List.find?_cons_of_pos here]
        simp only [if_true]
        omega
      · have left : ¬ htOpsFdUsage.compare k x = true :=
          fun eq => same ((compareUsage.mp eq).symm.trans mine)
        have right : ¬ htOpsFdUsage.compare k { x with usage := usage } = true :=
          fun eq => same ((compareUsage.mp eq).symm.trans mine)
        rw [listCount,listCount,List.find?_cons_of_neg left,List.find?_cons_of_neg right,
          if_neg same,Int.add_zero]
    · rw [if_neg here]
      rw [List.find?_cons_of_neg here] at found
      have step := ih found
      rw [listCount] at step ⊢
      rw [listCount] at step ⊢
      by_cases first : htOpsFdUsage.compare k x = true
      · have other : k ≠ n := fun eq => here (eq ▸ first)
        rw [List.find?_cons_of_pos first,List.find?_cons_of_pos first,if_neg other,Int.add_zero]
      · rw [List.find?_cons_of_neg first,List.find?_cons_of_neg first]
        exact step

theorem listCountErase {u : FdUsage} (distinct : Distinct l)
    (found : l.find? (htOpsFdUsage.compare n) = some u) :
    listCount (l.eraseP (htOpsFdUsage.compare n)) k =
      listCount l k - if k = n then u.usage.toInt else 0 := by
  obtain ⟨here,before,after,rfl,ahead⟩ := List.find?_eq_some_iff_append.mp found
  have mine := compareUsage.mp here
  have rest : (before ++ u :: after).eraseP (htOpsFdUsage.compare n) = before ++ after := by
    rw [List.eraseP_append_right _ (fun b member => by simpa using ahead b member)]
    simp [here]
  rw [rest]
  rw [listCount,listCount]
  by_cases same : k = n
  · subst same
    have apart : ∀ v ∈ after, v.myFd ≠ k := by
      intro v member eq
      simp only [Distinct,List.map_append,List.map_cons] at distinct
      have tail := (List.nodup_cons.mp (List.nodup_append.mp distinct).2.1).1
      exact tail (mine ▸ eq ▸ List.mem_map_of_mem member)
    have gone : (before ++ after).find? (htOpsFdUsage.compare k) = none := by
      refine List.find?_eq_none.mpr fun v member => ?_
      rcases List.mem_append.mp member with left | right
      · simpa using ahead v left
      · exact fun eq => apart v right (compareUsage.mp eq)
    rw [gone,found]
    simp
  · have other : ¬ htOpsFdUsage.compare k u = true :=
      fun eq => same ((compareUsage.mp eq).symm.trans mine)
    rw [List.find?_append,List.find?_append,List.find?_cons_of_neg other,if_neg same,Int.sub_zero]

end Lists

section Maps
variable {h h' : HashTable FdUsage} {n : Int32}

theorem countChain {c : Nat} (hashed : h.chain htOpsFdUsage n = some c) {l : List FdUsage}
    {d : Int} (step : ∀ k, listCount l k = listCount (h.entry c) k + if k = n then d else 0)
    (k : Int32) : usageCount { h with entry := Function.update h.entry c l } k =
      usageCount h k + if k = n then d else 0 := by
  have same : ({ h with entry := Function.update h.entry c l } : HashTable FdUsage).chain
      htOpsFdUsage k = h.chain htOpsFdUsage k := rfl
  rw [usageCount,usageCount,same]
  cases other : h.chain htOpsFdUsage k with
  | none =>
    have different : k ≠ n := fun eq => by simp [eq,hashed] at other
    simp [different]
  | some e =>
    by_cases here : e = c
    · subst here
      simp only [Function.update_self]
      exact step k
    · have different : k ≠ n := by
        rintro rfl
        exact here (Option.some.inj (other.symm.trans hashed))
      simp [Function.update_of_ne here,different]

theorem countersChain {c : Nat} {l : List FdUsage} (counters : Counters h)
    (distinct : Distinct l) : Counters { h with entry := Function.update h.entry c l } := by
  intro e
  by_cases here : e = c
  · subst here
    simpa [Function.update_self] using distinct
  · simpa [Function.update_of_ne here] using counters e

theorem countUpInt {n n' : Int32} (up : countUp n = .ok n') : n'.toInt = n.toInt + 1 := by
  rw [countUp] at up
  split at up
  · exact absurd up (by simp)
  · rename_i below
    cases Except.ok.inj up
    have top : n.toInt ≠ Int32.maxValue.toInt := fun eq => below (Int32.toInt_inj.mp eq)
    have bound := n.toInt_lt
    have low := n.le_toInt
    have most : Int32.maxValue.toInt = 2147483647 := rfl
    rw [Int32.toInt_add,Int.bmod_eq_of_le]
    all_goals simp only [Int32.toInt_one]
    all_goals omega

theorem countDownInt {n n' : Int32} (down : countDown n = .ok n') : n'.toInt = n.toInt - 1 := by
  rw [countDown] at down
  split at down
  · exact absurd down (by simp)
  · rename_i above
    cases Except.ok.inj down
    have bottom : n.toInt ≠ Int32.minValue.toInt := fun eq => above (Int32.toInt_inj.mp eq)
    have bound := n.toInt_lt
    have low := n.le_toInt
    have least : Int32.minValue.toInt = -2147483648 := rfl
    rw [Int32.toInt_sub,Int.bmod_eq_of_le]
    all_goals simp only [Int32.toInt_one]
    all_goals omega

theorem increaseCounts (counters : Counters h) (ran : increaseFdUsage h n = .ok h') :
    Counters h' ∧ ∀ k, usageCount h' k = usageCount h k + if k = n then 1 else 0 := by
  cases hashed : h.chain htOpsFdUsage n with
  | none =>
    simp [increaseFdUsage,HashTable.find,hashed,orNegative,bind,Except.bind] at ran
  | some c =>
    cases search : (h.entry c).find? (htOpsFdUsage.compare n) with
    | none =>
      have found : h.find htOpsFdUsage n = some none := by
        rw [HashTable.find,hashed]
        exact congrArg some search
      have into : h.insert htOpsFdUsage n ⟨n,1⟩ = some (h.append c ⟨n,1⟩) := by
        rw [HashTable.insert,hashed]
        rfl
      simp only [increaseFdUsage,found,into,orNegative,bind,Except.bind] at ran
      cases Except.ok.inj ran
      exact ⟨countersChain counters (distinctAppend (counters c) search),
        countChain hashed fun k => listCountAppend search⟩
    | some u =>
      have found : h.find htOpsFdUsage n = some (some u) := by
        rw [HashTable.find,hashed]
        exact congrArg some search
      cases up : countUp u.usage with
      | error f => simp [increaseFdUsage,found,up,orNegative,bind,Except.bind] at ran
      | ok usage =>
        simp only [increaseFdUsage,found,up,HashTable.modify,hashed,Option.map_some,orNegative,
          bind,Except.bind] at ran
        cases Except.ok.inj ran
        have more := countUpInt up
        refine ⟨countersChain counters ?_,countChain hashed fun k => ?_⟩
        · rw [Distinct,updateFirstFds]
          exact counters c
        · rw [listCountUpdate search,more]
          congr 2
          omega

theorem decreaseCounts {last : Bool} (counters : Counters h)
    (ran : decreaseFdUsage h n = .ok (h',last)) : Counters h' ∧
      (∀ k, usageCount h' k = usageCount h k - if k = n then 1 else 0) ∧
      (last = true ↔ usageCount h n = 1) := by
  cases hashed : h.chain htOpsFdUsage n with
  | none =>
    simp [decreaseFdUsage,HashTable.find,hashed,orNegative,bind,Except.bind] at ran
  | some c =>
    cases search : (h.entry c).find? (htOpsFdUsage.compare n) with
    | none =>
      have found : h.find htOpsFdUsage n = some none := by
        rw [HashTable.find,hashed]
        exact congrArg some search
      simp [decreaseFdUsage,found,orNegative,bind,Except.bind] at ran
    | some u =>
      have found : h.find htOpsFdUsage n = some (some u) := by
        rw [HashTable.find,hashed]
        exact congrArg some search
      have count : usageCount h n = u.usage.toInt := by
        rw [usageCount,hashed]
        simp only [listCount,search]
      cases down : countDown u.usage with
      | error f => simp [decreaseFdUsage,found,down,orNegative,bind,Except.bind] at ran
      | ok usage =>
        have less := countDownInt down
        simp only [decreaseFdUsage,found,down,HashTable.modify,HashTable.remove,hashed,
          Option.map_some,orNegative,bind,Except.bind] at ran
        split at ran
        · rename_i zero
          cases Except.ok.inj ran
          have one : u.usage.toInt = 1 := by
            rw [zero] at less
            simp only [Int32.toInt_zero] at less
            omega
          refine ⟨countersChain counters ((counters c).sublist ?_),fun k => ?_,by simp [count,one]⟩
          · exact (List.eraseP_sublist).map _
          · have step := countChain (h := h) (d := -1) hashed (l := (h.entry c).eraseP
              (htOpsFdUsage.compare n)) (fun k => by
                rw [listCountErase (counters c) search,one]
                split <;> omega) k
            rw [step]
            split <;> omega
        · rename_i more
          cases Except.ok.inj ran
          have several : u.usage.toInt ≠ 1 := by
            intro one
            refine more (Int32.toInt_inj.mp ?_)
            rw [less,one]
            rfl
          refine ⟨countersChain counters ?_,fun k => ?_,by simp [count,several]⟩
          · rw [Distinct,updateFirstFds]
            exact counters c
          · have step := countChain (h := h) (d := -1) hashed (l := HashTable.updateFirst
              (htOpsFdUsage.compare n) (fun u => { u with usage := usage }) (h.entry c)) (fun k => by
                rw [listCountUpdate search,less]
                split <;> omega) k
            rw [step]
            split <;> omega

end Maps
section Undone
variable {h h' : HashTable FdUsage} {n : Int32}

def Positive (h : HashTable FdUsage) : Prop := ∀ c, ∀ u ∈ h.entry c, 0 < u.usage.toInt

theorem increaseRun (ran : increaseFdUsage h n = .ok h') :
    h.find htOpsFdUsage n = some none ∧ h.insert htOpsFdUsage n ⟨n,1⟩ = some h' ∨
    ∃ u usage, h.find htOpsFdUsage n = some (some u) ∧ countUp u.usage = .ok usage ∧
      h.modify htOpsFdUsage n (fun u => { u with usage := usage }) = some h' := by
  simp only [increaseFdUsage,bind,Except.bind] at ran
  cases search : h.find htOpsFdUsage n with
  | none => simp [search,orNegative] at ran
  | some found =>
    rw [search] at ran
    cases found with
    | none => exact .inl ⟨rfl,orNegativeOk.mp ran⟩
    | some u =>
      cases up : countUp u.usage with
      | error f => simp [orNegative,up] at ran
      | ok usage =>
        simp only [orNegative,up] at ran
        exact .inr ⟨u,usage,rfl,up,orNegativeOk.mp ran⟩

theorem decreaseRun {last : Bool} (ran : decreaseFdUsage h n = .ok (h',last)) :
    ∃ u usage, h.find htOpsFdUsage n = some (some u) ∧ countDown u.usage = .ok usage ∧
      (usage = 0 ∧ last = true ∧ h.remove htOpsFdUsage n = some h' ∨
        usage ≠ 0 ∧ last = false ∧
          h.modify htOpsFdUsage n (fun u => { u with usage := usage }) = some h') := by
  simp only [decreaseFdUsage,bind,Except.bind] at ran
  cases search : h.find htOpsFdUsage n with
  | none => simp [search,orNegative] at ran
  | some found =>
    rw [search] at ran
    cases found with
    | none => simp [orNegative] at ran
    | some u =>
      cases down : countDown u.usage with
      | error f => simp [orNegative,down] at ran
      | ok usage =>
        simp only [orNegative,down] at ran
        refine ⟨u,usage,rfl,down,?_⟩
        by_cases zero : usage = 0
        · rw [if_pos zero] at ran
          cases removed : h.remove htOpsFdUsage n with
          | none => simp [removed] at ran
          | some g =>
            rw [removed] at ran
            cases ran
            exact .inl ⟨zero,rfl,rfl⟩
        · rw [if_neg zero] at ran
          cases changed : h.modify htOpsFdUsage n fun u => { u with usage := usage } with
          | none => simp [changed] at ran
          | some g =>
            rw [changed] at ran
            cases ran
            exact .inr ⟨zero,rfl,rfl⟩

theorem updateFirstMem {p : FdUsage → Bool} {f : FdUsage → FdUsage} {l : List FdUsage} {x : FdUsage}
    (member : x ∈ HashTable.updateFirst p f l) : x ∈ l ∨ ∃ y ∈ l, x = f y := by
  induction l with
  | nil => exact absurd member List.not_mem_nil
  | cons y rest ih =>
    rw [HashTable.updateFirst] at member
    split at member
    · rcases List.mem_cons.mp member with here | there
      · exact .inr ⟨y,List.mem_cons_self,here⟩
      · exact .inl (List.mem_cons_of_mem _ there)
    · rcases List.mem_cons.mp member with here | there
      · exact .inl (here ▸ List.mem_cons_self)
      · rcases ih there with deeper | ⟨z,inside,same⟩
        · exact .inl (List.mem_cons_of_mem _ deeper)
        · exact .inr ⟨z,List.mem_cons_of_mem _ inside,same⟩

theorem positiveInit (m : Nat) : Positive (.init m) :=
  fun _ _ member => absurd member List.not_mem_nil

theorem Positive.modify {usage : Int32} (positive : Positive h) (more : 0 < usage.toInt)
    (modified : h.modify htOpsFdUsage n (fun u => { u with usage := usage }) = some h') :
    Positive h' := by
  obtain ⟨d,_,rfl⟩ := Option.map_eq_some_iff.mp modified
  intro c u member
  by_cases here : c = d
  · subst here
    simp only [Function.update_self] at member
    rcases updateFirstMem member with old | ⟨v,_,rfl⟩
    · exact positive c u old
    · exact more
  · simp only [Function.update_of_ne here] at member
    exact positive c u member

theorem increasePositive (positive : Positive h) (ran : increaseFdUsage h n = .ok h') :
    Positive h' := by
  rcases increaseRun ran with ⟨_,inserted⟩ | ⟨u,usage,found,up,modified⟩
  · obtain ⟨d,_,rfl⟩ := Option.map_eq_some_iff.mp inserted
    intro c u member
    by_cases here : c = d
    · subst here
      simp only [HashTable.append,Function.update_self] at member
      rcases List.mem_append.mp member with old | new
      · exact positive c u old
      · cases List.mem_singleton.mp new
        exact (by decide : 0 < (1 : Int32).toInt)
    · simp only [HashTable.append,Function.update_of_ne here] at member
      exact positive c u member
  · obtain ⟨c,_,first⟩ := HashTable.findSome found
    have before := positive c u (List.mem_of_find?_eq_some first)
    have more := countUpInt up
    exact positive.modify (by omega) modified

theorem decreasePositive {last : Bool} (positive : Positive h)
    (ran : decreaseFdUsage h n = .ok (h',last)) : Positive h' := by
  obtain ⟨u,usage,found,down,removed | modified⟩ := decreaseRun ran
  · obtain ⟨d,_,rfl⟩ := Option.map_eq_some_iff.mp removed.2.2
    intro c u member
    by_cases here : c = d
    · subst here
      simp only [Function.update_self] at member
      exact positive c u (List.mem_of_mem_eraseP member)
    · simp only [Function.update_of_ne here] at member
      exact positive c u member
  · obtain ⟨c,_,first⟩ := HashTable.findSome found
    have before := positive c u (List.mem_of_find?_eq_some first)
    have less := countDownInt down
    refine positive.modify (Int.lt_iff_le_and_ne.mpr ⟨by omega,fun zero => modified.1 ?_⟩)
      modified.2.2
    exact Int32.toInt_inj.mp zero.symm

theorem increaseUndone (positive : Positive h) (ran : increaseFdUsage h n = .ok h') :
    decreaseFdUsage h' n = .ok (h,decide (h.find htOpsFdUsage n = some none)) := by
  have mine : htOpsFdUsage.compare n ⟨n,1⟩ = true := compareUsage.mpr rfl
  rcases increaseRun ran with ⟨absent,inserted⟩ | ⟨u,usage,found,up,modified⟩
  · have first := HashTable.findInsert mine inserted
    rw [absent,Option.join_some,Option.none_or] at first
    have one : countDown 1 = .ok 0 := rfl
    simp only [decreaseFdUsage,first,absent,orNegative,one,if_true,
      HashTable.insertRemove absent mine inserted,bind,Except.bind,decide_true]
  · obtain ⟨c,_,inside⟩ := HashTable.findSome found
    have more := countUpInt up
    have before := positive c u (List.mem_of_find?_eq_some inside)
    have same : ∀ x : FdUsage, htOpsFdUsage.compare n { x with usage := usage } =
        htOpsFdUsage.compare n x := fun _ => rfl
    have first := HashTable.findModify same modified
    rw [found] at first
    have down : countDown usage = .ok u.usage := by
      have above : usage ≠ Int32.minValue := by
        intro least
        have low : Int32.minValue.toInt = -2147483648 := rfl
        rw [least,low] at more
        omega
      have ends : countDown usage = .ok (usage - 1) := if_neg above
      have less := countDownInt ends
      rw [ends]
      exact congrArg Except.ok (Int32.toInt_inj.mp (by omega))
    have positive : ¬ u.usage = 0 := by
      intro zero
      rw [zero,Int32.toInt_zero] at before
      exact absurd before (Int.lt_irrefl 0)
    have back := HashTable.modifyBack found (f := fun u => { u with usage := usage })
      (g := fun v => { v with usage := u.usage }) ((same u).trans
        (List.find?_some inside)) rfl modified
    simp only [decreaseFdUsage,first,found,Option.map_some,orNegative,down,positive,if_false,back,
      bind,Except.bind]
    simp

theorem increaseChanges (ran : increaseFdUsage h n = .ok h') : h' ≠ h := by
  intro same
  rcases increaseRun ran with ⟨absent,inserted⟩ | ⟨u,usage,found,up,modified⟩
  · have first := HashTable.findInsert (compareUsage.mpr rfl) inserted
    rw [same,absent] at first
    exact absurd first (by simp)
  · have kept : ∀ x : FdUsage, htOpsFdUsage.compare n { x with usage := usage } =
        htOpsFdUsage.compare n x := fun _ => rfl
    have first := HashTable.findModify kept modified
    rw [same,found] at first
    have equal : u.usage = usage :=
      congrArg FdUsage.usage (Option.some.inj (Option.some.inj first))
    have more := countUpInt up
    rw [equal] at more
    omega

end Undone
section Raised
variable {h h' : HashTable FdUsage} {n k : Int32}

def Raisable (h : HashTable FdUsage) (n : Int32) : Prop := ∃ h', increaseFdUsage h n = .ok h'

theorem raisableIff : Raisable h n ↔
    ∃ r, h.find htOpsFdUsage n = some r ∧ ∀ u, r = some u → u.usage ≠ Int32.maxValue := by
  constructor
  · intro raisable
    obtain ⟨h',ran⟩ := raisable
    rcases increaseRun ran with ⟨absent,_⟩ | ⟨u,usage,found,up,_⟩
    · exact ⟨none,absent,fun _ none => absurd none (by simp)⟩
    · refine ⟨some u,found,fun v same => ?_⟩
      cases same
      intro top
      rw [top,countUp,if_pos rfl] at up
      cases up
  · intro below
    obtain ⟨r,found,below⟩ := below
    obtain ⟨c,hashed,_⟩ := Option.map_eq_some_iff.mp found
    cases r with
    | none =>
      refine ⟨h.append c ⟨n,1⟩,?_⟩
      simp [increaseFdUsage,found,HashTable.insert,hashed,orNegative,bind,Except.bind]
    | some u =>
      have up : countUp u.usage = .ok (u.usage + 1) := if_neg (below u rfl)
      rw [Raisable]
      simp [increaseFdUsage,found,up,HashTable.modify,hashed,orNegative,bind,Except.bind]

theorem raisableFind (same : h'.find htOpsFdUsage n = h.find htOpsFdUsage n) :
    Raisable h' n ↔ Raisable h n := by
  rw [raisableIff,raisableIff,same]

theorem otherCounter (other : k ≠ n) (u : FdUsage) (mine : htOpsFdUsage.compare k u = true) :
    ¬ htOpsFdUsage.compare n u = true := by
  intro yours
  exact other ((compareUsage.mp mine).symm.trans (compareUsage.mp yours))

theorem decreaseOthers {last : Bool} (ran : decreaseFdUsage h n = .ok (h',last)) (other : k ≠ n) :
    h'.find htOpsFdUsage k = h.find htOpsFdUsage k := by
  obtain ⟨u,usage,_,_,⟨_,_,removed⟩ | ⟨_,_,modified⟩⟩ := decreaseRun ran
  · exact HashTable.findRemoveOther (otherCounter other) removed
  · exact HashTable.findModifyOther (fun x mine => ⟨otherCounter other.symm x mine,
      otherCounter other.symm { x with usage := usage } mine⟩) modified

theorem countFound {u : FdUsage} (found : h.find htOpsFdUsage n = some (some u)) :
    usageCount h n = u.usage.toInt := by
  obtain ⟨c,hashed,first⟩ := HashTable.findSome found
  rw [usageCount,hashed]
  simp only [listCount,first]

theorem decreaseRuns (positive : Positive h) :
    (∃ r, decreaseFdUsage h n = .ok r) ↔ ∃ u, h.find htOpsFdUsage n = some (some u) := by
  constructor
  · intro runs
    obtain ⟨⟨_,_⟩,ran⟩ := runs
    obtain ⟨u,_,found,_⟩ := decreaseRun ran
    exact ⟨u,found⟩
  · intro counted
    obtain ⟨u,found⟩ := counted
    obtain ⟨c,hashed,first⟩ := HashTable.findSome found
    have above := positive c u (List.mem_of_find?_eq_some first)
    have down : countDown u.usage = .ok (u.usage - 1) := by
      refine if_neg fun least => ?_
      rw [least] at above
      exact absurd above (by decide)
    simp only [decreaseFdUsage,found,down,HashTable.remove,HashTable.modify,hashed,orNegative,
      Option.map_some,bind,Except.bind]
    split
    · exact ⟨_,rfl⟩
    · exact ⟨_,rfl⟩

theorem decreaseRaises {last : Bool} (counters : Counters h)
    (ran : decreaseFdUsage h n = .ok (h',last)) : Raisable h' n := by
  obtain ⟨u,_,found,_⟩ := decreaseRun ran
  have less := (decreaseCounts counters ran).2.1 n
  rw [if_pos rfl,countFound found] at less
  obtain ⟨c,hashed,_⟩ := Option.map_eq_some_iff.mp found
  have again : h'.chain htOpsFdUsage n = some c := by
    rw [HashTable.chain,decreaseEntries ran]
    exact hashed
  refine raisableIff.mpr ⟨_,by rw [HashTable.find,again]; rfl,fun v first top => ?_⟩
  have found' : h'.find htOpsFdUsage n = some (some v) := by
    rw [HashTable.find,again]
    exact congrArg some first
  rw [countFound found',top] at less
  have bound := u.usage.toInt_lt
  have most : Int32.maxValue.toInt = 2147483647 := rfl
  omega

end Raised
end IoApps
