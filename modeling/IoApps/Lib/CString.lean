import IoApps.Lib.Reader

/-! The string functions of C on strings without their terminating NUL. -/
namespace IoApps.Lib

def strstr (pat : Bytes) : Bytes → Option Nat
  | [] => if pat = [] then some 0 else none
  | c :: s => if pat.isPrefixOf (c :: s) then some 0 else (strstr pat s).map (· + 1)

def rindex (c : UInt8) : Bytes → Option Nat
  | [] => none
  | x :: s =>
    match rindex c s with
    | some i => some (i + 1)
    | none => if x = c then some 0 else none

-- The strings successive strtok_r calls return.
def tokens (delim : UInt8) (s : Bytes) : List Bytes :=
  (s.splitOnP (· == delim)).filter (fun t => !t.isEmpty)

def joined (delim : UInt8) (comps : List Bytes) : Bytes := comps.flatMap (delim :: ·)

theorem joinedCons (delim : UInt8) (c : Bytes) (comps : List Bytes) :
    joined delim (c :: comps) = delim :: (c ++ joined delim comps) := rfl

theorem joinedAppend (delim : UInt8) (a b : List Bytes) :
    joined delim (a ++ b) = joined delim a ++ joined delim b := List.flatMap_append

def Component (delim : UInt8) (c : Bytes) : Prop := c ≠ [] ∧ delim ∉ c

instance (delim : UInt8) (c : Bytes) : Decidable (Component delim c) :=
  inferInstanceAs (Decidable (c ≠ [] ∧ delim ∉ c))

section Tokens
variable {delim : UInt8}

theorem tokensDelim (s : Bytes) : tokens delim (delim :: s) = tokens delim s := by
  have cons := List.splitOnP_cons_eq_if_modifyHead (p := (· == delim)) delim s
  rw [tokens,tokens,cons]
  simp

theorem tokensCons {c : Bytes} (part : Component delim c) (s : Bytes) :
    tokens delim (c ++ delim :: s) = c :: tokens delim s := by
  have clean : ∀ b ∈ c, (b == delim) = false := fun b member =>
    beq_false_of_ne fun same => part.2 (same ▸ member)
  rw [tokens,List.splitOnP_append_cons_of_forall_mem clean _ (by simp),
    List.filter_cons_of_pos (by simpa using part.1),tokens]

theorem tokensAppend (a b : Bytes) :
    tokens delim (a ++ delim :: b) = tokens delim a ++ tokens delim b := by
  rw [tokens,List.splitOnP_append_cons _ _ (by simp),List.filter_append]
  rfl

theorem tokensOne {c : Bytes} (part : Component delim c) : tokens delim c = [c] := by
  have clean : ∀ b ∈ c, (b == delim) = false := fun b member =>
    beq_false_of_ne fun same => part.2 (same ▸ member)
  simpa [tokens,List.splitOnP_eq_singleton clean] using part.1

theorem tokensRun (delim : UInt8) (n : Nat) (s : Bytes) :
    tokens delim (List.replicate n delim ++ s) = tokens delim s := by
  induction n with
  | zero => rfl
  | succ n ih => rw [List.replicate_succ,List.cons_append,tokensDelim,ih]

def spelled (delim : UInt8) (parts : List (Nat × Bytes)) : Bytes :=
  parts.flatMap fun p => List.replicate p.1 delim ++ p.2

/-- The runs and the components of a string: only the first run may be empty. -/
structure Spelling (delim : UInt8) (parts : List (Nat × Bytes)) : Prop where
  real : ∀ p ∈ parts, Component delim p.2
  apart : ∀ p ∈ parts.tail, 0 < p.1

@[simp] theorem spelledNil : spelled delim [] = [] := rfl

theorem spelledCons (p : Nat × Bytes) (parts : List (Nat × Bytes)) :
    spelled delim (p :: parts) = List.replicate p.1 delim ++ (p.2 ++ spelled delim parts) := by
  simp [spelled]

theorem spelledAppend (a b : List (Nat × Bytes)) :
    spelled delim (a ++ b) = spelled delim a ++ spelled delim b := List.flatMap_append

theorem joinedSpelled (comps : List Bytes) :
    joined delim comps = spelled delim (comps.map (1,·)) := by
  simp [joined,spelled,List.flatMap_map]

theorem Spelling.tail {p : Nat × Bytes} {parts : List (Nat × Bytes)}
    (spelling : Spelling delim (p :: parts)) : Spelling delim parts :=
  ⟨fun q member => spelling.real q (List.mem_cons_of_mem _ member),
    fun q member => spelling.apart q (List.mem_of_mem_tail member)⟩

theorem Spelling.drop {parts : List (Nat × Bytes)} (spelling : Spelling delim parts) (k : Nat) :
    Spelling delim (parts.drop k) := by
  induction k generalizing parts with
  | zero => exact spelling
  | succ k ih =>
    cases parts with
    | nil => exact spelling
    | cons p parts => exact ih spelling.tail

theorem Spelling.take {parts : List (Nat × Bytes)} (spelling : Spelling delim parts) (k : Nat) :
    Spelling delim (parts.take k) := by
  refine ⟨fun p member => spelling.real p (List.mem_of_mem_take member),fun p member => ?_⟩
  have sub : (parts.take k).tail.Sublist parts.tail := (List.take_sublist k parts).tail
  exact spelling.apart p (sub.subset member)

theorem Spelling.dropDelim {parts : List (Nat × Bytes)} (spelling : Spelling delim parts)
    {k : Nat} (some : k ≠ 0) (trail : Nat) :
    spelled delim (parts.drop k) ++ List.replicate trail delim = [] ∨
      ∃ more, spelled delim (parts.drop k) ++ List.replicate trail delim = delim :: more := by
  obtain ⟨j,rfl⟩ := Nat.exists_eq_succ_of_ne_zero some
  cases rest : parts.drop (j + 1) with
  | nil =>
    cases trail with
    | zero => exact .inl rfl
    | succ n => exact .inr ⟨List.replicate n delim,rfl⟩
  | cons p more =>
    have later : p ∈ parts.tail := by
      refine List.mem_of_mem_drop (i := j) ?_
      rw [List.drop_tail,rest]
      exact List.mem_cons_self
    obtain ⟨n,gap⟩ := Nat.exists_eq_add_one.mpr (spelling.apart p later)
    rw [spelledCons,gap,List.replicate_succ]
    exact .inr ⟨_,rfl⟩

theorem spelledEmpty {parts : List (Nat × Bytes)} (spelling : Spelling delim parts)
    (empty : spelled delim parts = []) : parts = [] := by
  cases parts with
  | nil => rfl
  | cons p parts =>
    rw [spelledCons] at empty
    have bare := (List.append_eq_nil_iff.mp (List.append_eq_nil_iff.mp empty).2).1
    exact absurd bare (spelling.real p List.mem_cons_self).1

theorem spellingJoined {comps : List Bytes} (parts : ∀ c ∈ comps, Component delim c) :
    Spelling delim (comps.map (1,·)) := by
  constructor
  · intro p member
    obtain ⟨c,inside,rfl⟩ := List.mem_map.mp member
    exact parts c inside
  · intro p member
    obtain ⟨c,_,rfl⟩ := List.mem_map.mp (List.mem_of_mem_tail member)
    exact Nat.one_pos

theorem tokensSpelled {parts : List (Nat × Bytes)} (spelling : Spelling delim parts)
    (trail : Nat) :
    tokens delim (spelled delim parts ++ List.replicate trail delim) = parts.map Prod.snd := by
  induction parts with
  | nil =>
    have bare := tokensRun delim trail []
    rw [List.append_nil] at bare
    exact bare
  | cons p parts ih =>
    have part := spelling.real p List.mem_cons_self
    have rest := ih spelling.tail
    rw [spelledCons,List.append_assoc,List.append_assoc,tokensRun,List.map_cons]
    cases more : spelled delim parts ++ List.replicate trail delim with
    | nil =>
      rw [more] at rest
      rw [List.append_nil,tokensOne part,← rest]
      rfl
    | cons x s =>
      have first : x = delim := by
        cases parts with
        | nil =>
          have member : x ∈ List.replicate trail delim := by
            rw [show List.replicate trail delim = x :: s from more]
            exact List.mem_cons_self
          exact List.eq_of_mem_replicate member
        | cons q parts =>
          obtain ⟨n,run⟩ := Nat.exists_eq_add_one.mpr (spelling.apart q List.mem_cons_self)
          rw [spelledCons,run,List.replicate_succ] at more
          exact (List.cons.inj more).1.symm
      rw [first,tokensCons part,← rest,more,first,tokensDelim]

def spell (delim : UInt8) : Bytes → List (Nat × Bytes) × Nat
  | [] => ([],0)
  | x :: s =>
    match spell delim s with
    | ([],trail) => if x = delim then ([],trail + 1) else ([(0,[x])],trail)
    | ((0,c) :: parts,trail) =>
      if x = delim then ((1,c) :: parts,trail) else ((0,x :: c) :: parts,trail)
    | ((n + 1,c) :: parts,trail) =>
      if x = delim then ((n + 2,c) :: parts,trail) else ((0,[x]) :: (n + 1,c) :: parts,trail)

theorem spellSpelling (delim : UInt8) (s : Bytes) : Spelling delim (spell delim s).1 ∧
    s = spelled delim (spell delim s).1 ++ List.replicate (spell delim s).2 delim := by
  induction s with
  | nil => exact ⟨⟨by simp [spell],by simp [spell]⟩,rfl⟩
  | cons x s ih =>
    obtain ⟨spelling,whole⟩ := ih
    rw [spell]
    split
    · rename_i trail same
      rw [same] at spelling whole
      split
      · rename_i here
        refine ⟨spelling,?_⟩
        rw [whole,here]
        simp [spelled,List.replicate_succ]
      · rename_i here
        have single : Component delim [x] := ⟨by simp,by simpa using Ne.symm here⟩
        refine ⟨⟨by simpa using single,by simp⟩,?_⟩
        rw [whole]
        simp [spelled]
    · rename_i c parts trail same
      rw [same] at spelling whole
      have part := spelling.real (0,c) List.mem_cons_self
      have later : ∀ q ∈ parts, Component delim q.2 := fun q member =>
        spelling.real q (List.mem_cons_of_mem _ member)
      split
      · rename_i here
        refine ⟨⟨by simpa using ⟨part,fun a b member => later (a,b) member⟩,spelling.apart⟩,?_⟩
        rw [whole,here]
        simp [spelledCons]
      · rename_i here
        have longer : Component delim (x :: c) :=
          ⟨by simp,by simpa using ⟨Ne.symm here,part.2⟩⟩
        refine ⟨⟨by simpa using ⟨longer,fun a b member => later (a,b) member⟩,
          spelling.apart⟩,?_⟩
        rw [whole]
        simp [spelledCons]
    · rename_i n c parts trail same
      rw [same] at spelling whole
      have part := spelling.real (n + 1,c) List.mem_cons_self
      have later : ∀ q ∈ parts, Component delim q.2 := fun q member =>
        spelling.real q (List.mem_cons_of_mem _ member)
      split
      · rename_i here
        refine ⟨⟨by simpa using ⟨part,fun a b member => later (a,b) member⟩,spelling.apart⟩,?_⟩
        rw [whole,here]
        simp [spelledCons,List.replicate_succ]
      · rename_i here
        have single : Component delim [x] := ⟨by simp,by simpa using Ne.symm here⟩
        refine ⟨⟨by simpa using ⟨single,part,fun a b member => later (a,b) member⟩,?_⟩,?_⟩
        · intro q member
          rcases List.mem_cons.mp member with first | other
          · rw [first]
            exact Nat.succ_pos n
          · exact spelling.apart q other
        · rw [whole]
          simp [spelledCons]

theorem spellDelim (delim : UInt8) (s c : Bytes) :
    (spell delim (delim :: s)).1.head? ≠ some (0,c) := by
  rw [spell]
  split <;> simp

theorem spellComponent {delim : UInt8} {c s : Bytes} (part : Component delim c)
    (next : s = [] ∨ s.head? = some delim) :
    spell delim (c ++ s) = ((0,c) :: (spell delim s).1,(spell delim s).2) := by
  obtain ⟨some,apart⟩ := part
  induction c with
  | nil => exact absurd rfl some
  | cons x c ih =>
    have other : x ≠ delim := fun same => apart (same ▸ List.mem_cons_self)
    have rest : delim ∉ c := fun member => apart (List.mem_cons_of_mem x member)
    cases c with
    | cons y c =>
      have inner := ih (List.cons_ne_nil y c) rest
      rw [List.cons_append,spell,inner]
      exact if_neg other
    | nil =>
      rw [List.cons_append,List.nil_append,spell]
      split
      · rename_i trail same
        rw [if_neg other,same]
      · rename_i c parts trail same
        rcases next with empty | begins
        · rw [empty] at same
          cases same
        · obtain ⟨s,rfl⟩ := List.head?_eq_some_iff.mp begins
          exact absurd (by rw [same]; rfl) (spellDelim delim s c)
      · rename_i n c parts trail same
        rw [if_neg other,same]

theorem spellJoined {delim : UInt8} {comps : List Bytes} (parts : ∀ c ∈ comps, Component delim c) :
    spell delim (joined delim comps) = (comps.map (1,·),0) := by
  induction comps with
  | nil => rfl
  | cons c comps ih =>
    have later := ih fun d member => parts d (List.mem_cons_of_mem c member)
    have next : joined delim comps = [] ∨ (joined delim comps).head? = some delim := by
      cases comps with
      | nil => exact .inl rfl
      | cons d comps => exact .inr rfl
    rw [joinedCons,spell,spellComponent (parts c List.mem_cons_self) next,later]
    exact if_pos rfl

theorem spellingOf (delim : UInt8) (s : Bytes) : ∃ parts trail, Spelling delim parts ∧
    s = spelled delim parts ++ List.replicate trail delim :=
  ⟨_,_,spellSpelling delim s⟩

theorem tokensSpell (delim : UInt8) (s : Bytes) :
    tokens delim s = (spell delim s).1.map Prod.snd := by
  obtain ⟨spelling,whole⟩ := spellSpelling delim s
  conv => lhs; rw [whole]
  exact tokensSpelled spelling _

theorem tokensFirst {delim x : UInt8} (other : x ≠ delim) (s : Bytes) :
    ∃ c rest, tokens delim (x :: s) = (x :: c) :: rest := by
  rw [tokensSpell,spell]
  split
  · rw [if_neg other]
    exact ⟨[],[],rfl⟩
  · rw [if_neg other]
    exact ⟨_,_,rfl⟩
  · rw [if_neg other]
    exact ⟨_,_,rfl⟩

theorem tokensJoined {comps : List Bytes} (parts : ∀ c ∈ comps, Component delim c) :
    tokens delim (joined delim comps) = comps := by
  have split := tokensSpelled (spellingJoined parts) 0
  simpa [joinedSpelled,Function.comp_def] using split

theorem joinedTail {comps : List Bytes} (some : comps ≠ []) :
    joined delim comps = delim :: (joined delim comps).tail := by
  obtain ⟨c,rest,whole⟩ := List.exists_cons_of_ne_nil some
  rw [whole]
  rfl

theorem tokensTail {comps : List Bytes} (some : comps ≠ [])
    (parts : ∀ c ∈ comps, Component delim c) : tokens delim (joined delim comps).tail = comps := by
  have all := tokensJoined parts
  rw [joinedTail some,tokensDelim] at all
  exact all

theorem tokensReal (delim : UInt8) (s : Bytes) : ∀ c ∈ tokens delim s, Component delim c := by
  obtain ⟨parts,trail,spelling,rfl⟩ := spellingOf delim s
  rw [tokensSpelled spelling]
  intro c member
  obtain ⟨p,inside,rfl⟩ := List.mem_map.mp member
  exact spelling.real p inside

theorem tokensInside {s c : Bytes} (member : c ∈ tokens delim s) {x : UInt8} (inside : x ∈ c) :
    x ∈ s := by
  obtain ⟨parts,trail,spelling,rfl⟩ := spellingOf delim s
  rw [tokensSpelled spelling] at member
  obtain ⟨p,here,rfl⟩ := List.mem_map.mp member
  refine List.mem_append_left _ (List.mem_flatMap.mpr ⟨p,here,?_⟩)
  exact List.mem_append_right _ inside

end Tokens

theorem strstrNone {pat s : Bytes} (h : ∀ before after, s ≠ before ++ pat ++ after) :
    strstr pat s = none := by
  induction s with
  | nil =>
    have nonempty : pat ≠ [] := fun empty => h [] [] (by simp [empty])
    simp [strstr,nonempty]
  | cons c s ih =>
    have here : ¬ pat.isPrefixOf (c :: s) = true := by
      intro yes
      obtain ⟨after,same⟩ := List.isPrefixOf_iff_prefix.mp yes
      exact h [] after (by simp [same])
    have later := ih fun before after same => h (c :: before) after (by simp [same])
    simp [strstr,here,later]

theorem strstrFound {pat s : Bytes} {off : Nat} (found : strstr pat s = some off) :
    s = s.take off ++ (pat ++ s.drop (off + pat.length)) := by
  induction s generalizing off with
  | nil =>
    rw [strstr] at found
    split at found
    · rename_i empty
      cases found
      simp [empty]
    · cases found
  | cons c s ih =>
    rw [strstr] at found
    split at found
    · rename_i here
      cases found
      obtain ⟨after,same⟩ := List.isPrefixOf_iff_prefix.mp here
      simp [← same]
    · obtain ⟨i,later,rfl⟩ := Option.map_eq_some_iff.mp found
      rw [Nat.add_right_comm,List.take_succ_cons,List.drop_succ_cons,List.cons_append,
        ← ih later]

theorem strstrBound {pat s : Bytes} {off : Nat} (found : strstr pat s = some off) :
    off + pat.length ≤ s.length := by
  induction s generalizing off with
  | nil =>
    rw [strstr] at found
    split at found
    · rename_i empty
      cases found
      simp [empty]
    · cases found
  | cons c s ih =>
    rw [strstr] at found
    split at found
    · rename_i here
      cases found
      rw [Nat.zero_add]
      exact (List.isPrefixOf_iff_prefix.mp here).length_le
    · obtain ⟨i,later,rfl⟩ := Option.map_eq_some_iff.mp found
      have inner := ih later
      rw [List.length_cons]
      omega

theorem strstrFinds (pat before after : Bytes) : strstr pat (before ++ (pat ++ after)) ≠ none := by
  induction before with
  | nil =>
    rw [List.nil_append]
    cases text : pat ++ after with
    | nil => simp [strstr,(List.append_eq_nil_iff.mp text).1]
    | cons c s =>
      have here : pat.isPrefixOf (c :: s) = true :=
        List.isPrefixOf_iff_prefix.mpr (text ▸ List.prefix_append pat after)
      simp [strstr,here]
  | cons c before ih =>
    rw [List.cons_append,strstr]
    split
    · simp
    · simpa using ih

theorem strstrInfix {pat s : Bytes} : (strstr pat s).isSome ↔ pat <:+: s := by
  constructor
  · intro found
    obtain ⟨off,here⟩ := Option.isSome_iff_exists.mp found
    exact ⟨s.take off,s.drop (off + pat.length),by
      rw [List.append_assoc]
      exact (strstrFound here).symm⟩
  · intro inside
    obtain ⟨before,after,whole⟩ := inside
    rw [← whole,List.append_assoc]
    exact Option.isSome_iff_ne_none.mpr (strstrFinds pat before after)

theorem infixApart {pat a b : Bytes} {delim : UInt8} (apart : delim ∉ pat) :
    pat <:+: a ++ delim :: b ↔ pat <:+: a ∨ pat <:+: b := by
  constructor
  · intro inside
    obtain ⟨before,after,whole⟩ := inside
    rw [List.append_assoc] at whole
    rcases List.append_eq_append_iff.mp whole with left | right
    · obtain ⟨mid,front,back⟩ := left
      rcases List.append_eq_append_iff.mp back with inner | outer
      · obtain ⟨more,text,_⟩ := inner
        exact .inl ⟨before,more,by rw [front,text,List.append_assoc]⟩
      · obtain ⟨more,text,tail⟩ := outer
        cases more with
        | nil => exact .inl ⟨before,[],by simp [front,text]⟩
        | cons c more =>
          have same : delim = c := (List.cons.inj tail).1
          exact absurd (by rw [text,same]; simp) apart
    · obtain ⟨mid,front,back⟩ := right
      cases mid with
      | nil =>
        cases pat with
        | nil => exact .inl (List.nil_infix)
        | cons c pat =>
          have same : delim = c := (List.cons.inj back).1
          exact absurd (by rw [same]; exact List.mem_cons_self) apart
      | cons c mid =>
        have text : b = mid ++ (pat ++ after) := (List.cons.inj back).2
        exact .inr ⟨mid,after,by rw [text,List.append_assoc]⟩
  · intro side
    rcases side with left | right
    · exact left.trans (List.infix_append' [] a (delim :: b))
    · exact right.trans ((List.suffix_cons delim b).isInfix.trans (List.suffix_append a _).isInfix)

theorem strstrBehind {pat a : Bytes} {delim : UInt8} (apart : delim ∉ pat)
    (absent : ¬ pat <:+: a) (t : Bytes) :
    strstr pat (a ++ delim :: t) = (strstr pat t).map (· + (a.length + 1)) := by
  have missed {s : Bytes} (inside : s <:+ a) : ¬ pat.isPrefixOf (s ++ delim :: t) = true := by
    intro yes
    have front := List.isPrefixOf_iff_prefix.mp yes
    rcases Nat.le_total pat.length s.length with short | long
    · have within := List.prefix_of_prefix_length_le front (List.prefix_append s _) short
      exact absent (within.isInfix.trans inside.isInfix)
    · rcases Nat.lt_or_ge s.length pat.length with more | same
      · have whole : s ++ [delim] <+: pat :=
          List.prefix_of_prefix_length_le ⟨t,by simp⟩ front (by
            rw [List.length_append,List.length_singleton]
            exact more)
        exact apart (whole.mem (by simp))
      · have within := List.prefix_of_prefix_length_le front (List.prefix_append s _) same
        exact absent (within.isInfix.trans inside.isInfix)
  induction a with
  | nil =>
    have here := missed (List.suffix_refl [])
    rw [List.nil_append] at here ⊢
    rw [strstr,if_neg here]
    rfl
  | cons c a ih =>
    have here := missed (List.suffix_refl (c :: a))
    rw [List.cons_append] at here ⊢
    rw [strstr,if_neg here,ih (fun inside => absent (inside.trans (List.suffix_cons c a).isInfix))
      (fun {s} inside => missed (inside.trans (List.suffix_cons c a))),Option.map_map]
    rfl

theorem strstrOwn {delim : UInt8} {word rest a : Bytes} (apart : delim ∉ word)
    (absent : ¬ word <:+: a) (b : Bytes) :
    strstr (delim :: (word ++ rest)) (a ++ (delim :: (word ++ rest)) ++ b) = some a.length := by
  induction a with
  | nil =>
    have here : (delim :: (word ++ rest)).isPrefixOf (delim :: (word ++ rest ++ b)) = true :=
      List.isPrefixOf_iff_prefix.mpr (List.prefix_append (delim :: (word ++ rest)) b)
    rw [List.nil_append,List.cons_append,strstr,if_pos here]
    rfl
  | cons c a ih =>
    have missed : ¬ (delim :: (word ++ rest)).isPrefixOf
        (c :: (a ++ (delim :: (word ++ rest)) ++ b)) = true := by
      intro yes
      have later : word ++ rest <+: a ++ (delim :: (word ++ rest)) ++ b :=
        (List.cons_prefix_cons.mp (List.isPrefixOf_iff_prefix.mp yes)).2
      have front : word <+: a ++ (delim :: (word ++ rest)) ++ b :=
        (List.prefix_append word rest).trans later
      have stop : a ++ [delim] <+: a ++ (delim :: (word ++ rest)) ++ b :=
        ⟨word ++ rest ++ b,by simp⟩
      rcases List.prefix_or_prefix_of_prefix front stop with inside | beyond
      · rcases List.prefix_concat_iff.mp inside with whole | within
        · exact apart (by simp [whole])
        · exact absent (within.isInfix.trans (List.suffix_cons c a).isInfix)
      · exact apart (beyond.mem (by simp))
    rw [List.cons_append,List.cons_append,strstr,if_neg missed,
      ih fun inside => absent (inside.trans (List.suffix_cons c a).isInfix)]
    rfl

section Occurrence
variable {delim : UInt8} {q : Bytes}

theorem strstrApart {c : Bytes} (apart : delim ∉ c) (s : Bytes) :
    strstr (delim :: q) (c ++ s) = (strstr (delim :: q) s).map (· + c.length) := by
  induction c with
  | nil => simp
  | cons x c ih =>
    have other : (delim == x) = false :=
      beq_false_of_ne fun same => apart (same ▸ List.mem_cons_self)
    have here : ¬ (delim :: q).isPrefixOf (x :: (c ++ s)) = true := by
      simp [List.isPrefixOf,other]
    rw [List.cons_append,strstr,if_neg here,ih fun member => apart (List.mem_cons_of_mem x member),
      Option.map_map]
    rfl

theorem strstrJoined (apart : delim ∉ q) {front : List Bytes}
    (others : ∀ c ∈ front, delim ∉ c ∧ ¬ q <+: c) {s : Bytes}
    (next : s = [] ∨ s.head? = some delim) :
    strstr (delim :: q) (joined delim front ++ s) =
      (strstr (delim :: q) s).map (· + (joined delim front).length) := by
  induction front with
  | nil => simp [joined]
  | cons c front ih =>
    obtain ⟨clean,differs⟩ := others c List.mem_cons_self
    have later := ih fun d member => others d (List.mem_cons_of_mem c member)
    have here : ¬ (delim :: q).isPrefixOf (delim :: (c ++ (joined delim front ++ s))) = true := by
      intro yes
      obtain ⟨after,same⟩ := List.isPrefixOf_iff_prefix.mp yes
      have tail : q ++ after = c ++ (joined delim front ++ s) := (List.cons.inj same).2
      rcases List.append_eq_append_iff.mp tail with ⟨more,inside,_⟩ | ⟨more,longer,behind⟩
      · exact differs ⟨more,inside.symm⟩
      · have first : (joined delim front ++ s).head? = some delim ∨
            joined delim front ++ s = [] := by
          cases front with
          | nil => exact next.symm
          | cons d front => exact .inl rfl
        cases more with
        | nil => exact differs ⟨[],by rw [longer,List.append_nil,List.append_nil]⟩
        | cons x more =>
          rw [behind] at first
          have same : x = delim := by simpa using first
          exact apart (by simp [longer,same])
    rw [joinedCons,List.cons_append,List.append_assoc,strstr,if_neg here,strstrApart clean,later]
    simp only [Option.map_map,List.length_cons,List.length_append]
    congr 1
    funext i
    simp only [Function.comp_apply]
    omega

end Occurrence

theorem joinedSplit (delim : UInt8) (s : Bytes) : joined delim (s.splitOn delim) = delim :: s := by
  have whole (comps : List Bytes) (some : comps ≠ []) :
      joined delim comps = delim :: [delim].intercalate comps := by
    induction comps with
    | nil => exact absurd rfl some
    | cons c comps ih =>
      rw [joinedCons]
      cases comps with
      | nil => simp [joined]
      | cons d comps =>
        rw [ih (List.cons_ne_nil d comps),List.intercalate_cons_cons,List.append_assoc]
        rfl
  rw [whole _ (List.splitOn_ne_nil delim s),List.intercalate_splitOn]

theorem splitApart {delim : UInt8} {s c : Bytes} (member : c ∈ s.splitOn delim) : delim ∉ c := by
  induction s generalizing c with
  | nil => simp_all
  | cons x s ih =>
    rw [List.splitOn_cons_eq_if_modifyHead] at member
    split at member
    · rcases List.mem_cons.mp member with rfl | later
      · exact List.not_mem_nil
      · exact ih later
    · rename_i other
      cases parts : s.splitOn delim with
      | nil => exact absurd parts (List.splitOn_ne_nil delim s)
      | cons d rest =>
        rw [parts] at member ih
        rcases List.mem_cons.mp member with rfl | later
        · have first := ih List.mem_cons_self
          intro inside
          rcases List.mem_cons.mp inside with same | tail
          · exact other (by simp [same])
          · exact first tail
        · exact ih (List.mem_cons_of_mem d later)

theorem tokensAll {delim : UInt8} {comps : List Bytes} (apart : ∀ c ∈ comps, delim ∉ c) :
    tokens delim (joined delim comps) = comps.filter fun c => !c.isEmpty := by
  induction comps with
  | nil => simp [joined,tokens]
  | cons c comps ih =>
    have later := ih fun d member => apart d (List.mem_cons_of_mem c member)
    have one : tokens delim c = [c].filter fun c => !c.isEmpty := by
      cases c with
      | nil => simp [tokens]
      | cons x c =>
        rw [tokensOne ⟨List.cons_ne_nil x c,apart _ List.mem_cons_self⟩]
        rfl
    rw [joinedCons,tokensDelim]
    cases comps with
    | nil => simpa [joined] using one
    | cons d comps =>
      rw [joinedCons,tokensAppend,one,← tokensDelim (d ++ joined delim comps),← joinedCons,later,
        ← List.filter_append]
      rfl

theorem rindexNone {c : UInt8} {s : Bytes} (absent : c ∉ s) : rindex c s = none := by
  induction s with
  | nil => rfl
  | cons x s ih =>
    have other : x ≠ c := fun same => absent (by simp [same])
    simp [rindex,ih (fun member => absent (List.mem_cons_of_mem _ member)),other]

theorem rindexBound {c : UInt8} {s : Bytes} {i : Nat} (found : rindex c s = some i) :
    i < s.length := by
  induction s generalizing i with
  | nil => cases found
  | cons x s ih =>
    rw [rindex] at found
    rw [List.length_cons]
    cases back : rindex c s with
    | some j =>
      simp only [back,Option.some.injEq] at found
      have inner := ih back
      omega
    | none =>
      simp only [back] at found
      split at found
      · cases found
        omega
      · cases found

theorem rindexLast {c : UInt8} {a b : Bytes} (absent : c ∉ b) :
    rindex c (a ++ c :: b) = some a.length := by
  induction a with
  | nil => simp [rindex,rindexNone absent]
  | cons x a ih => simp [rindex,ih]

end IoApps.Lib
