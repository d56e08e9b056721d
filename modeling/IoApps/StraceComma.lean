import IoApps.Strace

/-! The end of the quoted data of a call. -/
namespace IoApps.Strace
open Lib (Bytes ascii strstr)

-- What a C string literal may hold between its quotes.
inductive Escaped : Bytes → Prop
  | nil : Escaped []
  | plain {c : UInt8} {e : Bytes} : c ≠ quote → c ≠ backslash → Escaped e → Escaped (c :: e)
  | pair (c : UInt8) {e : Bytes} : Escaped e → Escaped (backslash :: c :: e)

def escapeByte (c : UInt8) : Bytes := if c = quote ∨ c = backslash then [backslash,c] else [c]

def escape (s : Bytes) : Bytes := s.flatMap escapeByte

theorem escapeEscaped (s : Bytes) : Escaped (escape s) := by
  induction s with
  | nil => exact .nil
  | cons c s ih =>
    unfold escape escapeByte at *
    rw [List.flatMap_cons]
    split
    · exact .pair c ih
    · rename_i other
      exact .plain (fun same => other (.inl same)) (fun same => other (.inr same)) ih

theorem closingPlain {c : UInt8} (real : c ≠ quote) (same : c ≠ backslash) (back : Bool)
    (s : Bytes) : closingQuote back (c :: s) = closingQuote false s := by
  rw [closingQuote,if_neg real,if_neg same]

theorem closingBack (c : UInt8) (s : Bytes) :
    closingQuote true (c :: s) = closingQuote false s := by
  rw [closingQuote]
  split
  · rfl
  · split
    · rfl
    · rfl

theorem closingPair (s : Bytes) :
    closingQuote false (backslash :: s) = closingQuote true s := by
  rw [closingQuote,if_neg (by decide),if_pos rfl]
  rfl

theorem closingEscaped {e : Bytes} (escaped : Escaped e) (s : Bytes) :
    closingQuote false (e ++ s) = closingQuote false s := by
  induction escaped with
  | nil => rfl
  | plain real same _ ih => rw [List.cons_append,closingPlain real same,ih]
  | pair c _ ih => rw [List.cons_append,List.cons_append,closingPair,closingBack,ih]

theorem closingStops (s : Bytes) : closingQuote false (quote :: s) = quote :: s := rfl

theorem closingSplit (s : Bytes) :
    (closingQuote false s = [] ∨
      ∃ e r, s = e ++ quote :: r ∧ Escaped e ∧ closingQuote false s = quote :: r) ∧
    (closingQuote true s = [] ∨
      ∃ c e r, s = c :: (e ++ quote :: r) ∧ Escaped e ∧ closingQuote true s = quote :: r) := by
  induction s with
  | nil => exact ⟨.inl rfl,.inl rfl⟩
  | cons c s ih =>
    constructor
    · rcases eq_or_ne c quote with same | real
      · subst same
        exact .inr ⟨[],s,rfl,.nil,rfl⟩
      · rcases eq_or_ne c backslash with same | other
        · subst same
          rw [closingPair]
          rcases ih.2 with ends | found
          · exact .inl ends
          · obtain ⟨c,e,r,text,inner,stop⟩ := found
            exact .inr ⟨backslash :: c :: e,r,by rw [text]; rfl,.pair c inner,stop⟩
        · rw [closingPlain real other]
          rcases ih.1 with ends | found
          · exact .inl ends
          · obtain ⟨e,r,text,inner,stop⟩ := found
            exact .inr ⟨c :: e,r,by rw [text]; rfl,.plain real other inner,stop⟩
    · rw [closingBack]
      rcases ih.1 with ends | found
      · exact .inl ends
      · obtain ⟨e,r,text,inner,stop⟩ := found
        exact .inr ⟨c,e,r,by rw [text],inner,stop⟩

def behindQuote (s : Bytes) : Scan (Option Bytes) :=
  match closingQuote false s with
  | [] => .error .beyond
  | [_] => .ok none
  | _ :: c :: r =>
    if c = dot then .ok (some ((c :: r).dropWhile (· != comma)))
    else if c = comma then .ok (some (c :: r))
    else .ok none

theorem quoteFound {p : Bytes} (clean : quote ∉ p) (s : Bytes) :
    (p ++ quote :: s).dropWhile (· != quote) = quote :: s := by
  rw [List.dropWhile_append_of_pos (Lib.runStops clean),List.dropWhile_cons_of_neg (by simp)]

theorem posCommaQuoted {p : Bytes} (some : p ≠ []) (clean : quote ∉ p) (s : Bytes) :
    stracePosComma (p ++ quote :: s) = behindQuote s := by
  obtain ⟨c,more,whole⟩ := List.exists_cons_of_ne_nil some
  have other : c ≠ quote := fun same => clean (by rw [whole,same]; exact List.mem_cons_self)
  have first : (p ++ quote :: s).head? ≠ .some quote := by
    rw [whole]
    exact fun same => other (Option.some.inj same)
  rw [stracePosComma,quoteFound clean]
  simp only [if_neg first]
  rfl

/-- The comma behind the data is found whatever the data hold. -/
theorem posCommaFound {p e d : Bytes} (some : p ≠ []) (clean : quote ∉ p) (escaped : Escaped e)
    (dots : d = [] ∨ d = ascii "...") (r : Bytes) :
    stracePosComma (p ++ quote :: (e ++ quote :: (d ++ comma :: r))) =
      .ok (.some (comma :: r)) := by
  rw [posCommaQuoted some clean,behindQuote,closingEscaped escaped,closingStops]
  rcases dots with none | three
  · subst none
    rfl
  · subst three
    rfl

theorem posCommaFoundWrite :
    stracePosComma (ascii "1 2.0 write(1, " ++
      quote :: (escape [quote,backslash,comma] ++ quote :: (ascii "..." ++ comma :: ascii " 9"))) =
      .ok (some (comma :: ascii " 9")) :=
  posCommaFound (by decide) (by decide) (escapeEscaped _) (.inr rfl) _

def Inside (line : Bytes) : Prop :=
  ∃ r, stracePosComma line = .ok r ∧ ∀ s, r = some s → s.head? = some comma ∧ s <:+ line

def Closed (line : Bytes) : Prop :=
  ∀ p q, line = p ++ quote :: q → quote ∉ p → p ≠ [] →
    ∃ e r, q = e ++ quote :: r ∧ Escaped e ∧ (r.head? = some dot → comma ∈ r)

theorem insideNone {line : Bytes} (found : stracePosComma line = .ok none) : Inside line :=
  ⟨none,found,fun _ same => nomatch same⟩

theorem insideSome {line s : Bytes} (found : stracePosComma line = .ok (some s))
    (first : s.head? = some comma) (part : s <:+ line) : Inside line := by
  refine ⟨some s,found,?_⟩
  intro t same
  cases same
  exact ⟨first,part⟩

theorem unquotedInside {line : Bytes} (clean : quote ∉ line) : Inside line := by
  have all : line.dropWhile (· != quote) = [] :=
    List.dropWhile_eq_nil_iff.mpr (Lib.runStops clean)
  cases found : strstr (ascii "NULL,") line with
  | none => exact insideNone (by rw [stracePosComma,all]; simp only [found])
  | some off =>
    have first : (line.drop (off + 4)).head? = some comma := by
      have text := Lib.strstrFound found
      have front : (line.take off).length = off :=
        List.length_take_of_le (by have room := Lib.strstrBound found; omega)
      have split : line.drop (off + 4) =
          (ascii "NULL," ++ line.drop (off + (ascii "NULL,").length)).drop 4 := by
        rw [← List.drop_drop,text,List.drop_left' front]
        rw [← text]
      rw [split]
      rfl
    exact insideSome (by rw [stracePosComma,all]; simp only [found]) first (List.drop_suffix _ _)

theorem dropComma {r : Bytes} (member : comma ∈ r) :
    (r.dropWhile (· != comma)).head? = some comma := by
  obtain ⟨front,rest,whole,clean⟩ := List.eq_append_cons_of_mem member
  rw [whole,List.dropWhile_append_of_pos (Lib.runStops clean),
    List.dropWhile_cons_of_neg (by simp)]
  rfl

section Quoted
variable {p q : Bytes} (some : p ≠ []) (clean : quote ∉ p)
include some clean

theorem quotedInside {e r : Bytes} (text : q = e ++ quote :: r) (escaped : Escaped e)
    (dots : r.head? = .some dot → comma ∈ r) : Inside (p ++ quote :: q) := by
  have found : stracePosComma (p ++ quote :: q) = behindQuote q := posCommaQuoted some clean q
  have part : r <:+ p ++ quote :: q := by
    rw [text]
    exact ⟨p ++ quote :: (e ++ [quote]),by simp⟩
  rw [text,behindQuote,closingEscaped escaped,closingStops,← text] at found
  cases r with
  | nil => exact insideNone found
  | cons c r =>
    rcases eq_or_ne c dot with same | other
    · have first := dropComma (dots (congrArg Option.some same))
      simp only [if_pos same] at found
      exact insideSome found first ((List.dropWhile_suffix _).trans part)
    · simp only [if_neg other] at found
      rcases eq_or_ne c comma with same | different
      · rw [if_pos same] at found
        exact insideSome found (congrArg Option.some same) part
      · rw [if_neg different] at found
        exact insideNone found

theorem insideQuoted (inside : Inside (p ++ quote :: q)) :
    ∃ e r, q = e ++ quote :: r ∧ Escaped e ∧ (r.head? = .some dot → comma ∈ r) := by
  obtain ⟨found,ran,real⟩ := inside
  rw [posCommaQuoted some clean,behindQuote] at ran
  rcases (closingSplit q).1 with ends | stops
  · rw [ends] at ran
    cases ran
  · obtain ⟨e,r,text,escaped,stop⟩ := stops
    refine ⟨e,r,text,escaped,?_⟩
    intro first
    obtain ⟨rest,whole⟩ := List.head?_eq_some_iff.mp first
    rw [stop,whole] at ran
    simp only [if_true] at ran
    cases ran
    obtain ⟨comma,_⟩ := real _ rfl
    rw [whole]
    exact (List.dropWhile_suffix _).mem (List.mem_of_mem_head? comma)

theorem closedQuoted : Closed (p ++ quote :: q) ↔
    ∃ e r, q = e ++ quote :: r ∧ Escaped e ∧ (r.head? = .some dot → comma ∈ r) := by
  constructor
  · intro closed
    exact closed p q rfl clean some
  · intro holds front rest whole other _
    have same : quote :: q = quote :: rest := by
      rw [← quoteFound clean q,whole,quoteFound other]
    exact (List.cons.inj same).2 ▸ holds

end Quoted

/-- The scan for the comma stays inside a line exactly where its quoted data are closed. -/
theorem insideClosed (line : Bytes) : Inside line ↔ Closed line := by
  rcases em (quote ∈ line) with member | clean
  · obtain ⟨p,q,whole,clean⟩ := List.eq_append_cons_of_mem member
    subst whole
    cases p with
    | nil =>
      refine iff_of_true (insideNone rfl) ?_
      intro p q whole clean some
      obtain ⟨c,more,front⟩ := List.exists_cons_of_ne_nil some
      rw [front] at whole
      have same : quote = c := (List.cons.inj whole).1
      exact absurd (by rw [front,same]; exact List.mem_cons_self) clean
    | cons c p =>
      rw [closedQuoted (List.cons_ne_nil c p) clean]
      constructor
      · exact insideQuoted (List.cons_ne_nil c p) clean
      · intro holds
        obtain ⟨e,r,text,escaped,dots⟩ := holds
        exact quotedInside (List.cons_ne_nil c p) clean text escaped dots
  · exact iff_of_true (unquotedInside clean) fun p q whole _ _ =>
      absurd (whole ▸ List.mem_append_right p List.mem_cons_self) clean

theorem cutOutside : ¬ Inside (ascii "1 2.0 write(1, \"ab") ∧
    ¬ Inside (ascii "1 2.0 write(1, \"ab\"...") := by
  constructor
  · intro inside
    obtain ⟨r,found,_⟩ := inside
    have beyond : stracePosComma (ascii "1 2.0 write(1, \"ab") = .error .beyond := by
      decide +kernel
    rw [beyond] at found
    cases found
  · intro inside
    obtain ⟨r,found,real⟩ := inside
    have ends : stracePosComma (ascii "1 2.0 write(1, \"ab\"...") = .ok (some []) := by
      decide +kernel
    rw [ends] at found
    cases found
    cases (real [] rfl).1

end IoApps.Strace
