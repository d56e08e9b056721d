import IoApps.Lib.CString
import IoApps.Lib.Tree

/-! The trie of delimiter-separated keys. A node is named by the keys on the way from the
root, so a node pointer is a path. A buffer handed to `longestPrefix` is the whole memory it
points to; `cstr` reads it up to the first NUL. -/
namespace IoApps
open Lib (Bytes Tree Forest tokens joined spelled Spelling rindex Component)

structure Trie (δ : Type) where
  delim : UInt8
  root : Tree Bytes δ
  deriving DecidableEq, Repr

inductive TrieStatus where
  | ok | many | err
  deriving DecidableEq, Repr

def cstr (raw : Bytes) : Bytes := raw.takeWhile (· ≠ 0)

def commonLength : Bytes → Bytes → Nat
  | a :: as,b :: bs => if a = b then commonLength as bs + 1 else 0
  | _,_ => 0

namespace Trie
variable {δ : Type}

def init (delim : UInt8) (data : δ) : Trie δ := ⟨delim,Tree.leaf data⟩

def findChild (t : Trie δ) (n : List Bytes) (partKey : Bytes) : Option (List Bytes) :=
  ((t.root.walk n).bind (fun node => node.children.find partKey)).map fun _ => n ++ [partKey]

def find (t : Trie δ) (fullKey : Bytes) : Option (List Bytes) :=
  (t.root.walk (tokens t.delim fullKey)).map fun _ => tokens t.delim fullKey

-- After the loop: the part behind the last delimiter, or the whole key without one.
def longestPrefixEnd (t : Trie δ) (fullKey : Bytes) (n1 : List Bytes) (buff : Bytes) :
    List Bytes × Bytes :=
  match rindex t.delim fullKey with
  | none =>
    match t.findChild [] fullKey with
    | some n2 => (n2,fullKey ++ 0 :: buff.drop (fullKey.length + 1))
    | none => ([],buff)
  | some c =>
    match t.findChild n1 (fullKey.drop (c + 1)) with
    | some n2 => (n2,fullKey ++ 0 :: buff.drop (fullKey.length + 1))
    | none => (n1,buff)

def longestPrefixLoop (t : Trie δ) (fullKey : Bytes) :
    Bytes → UInt8 → Nat → Nat → Bytes → List Bytes → Bytes → List Bytes × Bytes
  | [],_,_,_,_,n1,buff => t.longestPrefixEnd fullKey n1 buff
  | c :: cs,lastc,numChars,count,partKey,n1,buff =>
    if lastc = t.delim ∧ c = t.delim then
      t.longestPrefixLoop fullKey cs c numChars (count + 1) partKey n1 buff
    else if c = t.delim then
      if numChars ≠ 0 then
        match t.findChild n1 partKey with
        | none => (n1,buff)
        | some n2 =>
          t.longestPrefixLoop fullKey cs c (numChars + 1) (count + 1) [] n2
            ((fullKey.take count ++ buff.drop count).set (count + 1) 0)
      else t.longestPrefixLoop fullKey cs c (numChars + 1) (count + 1) partKey n1 buff
    else t.longestPrefixLoop fullKey cs c (numChars + 1) (count + 1) (partKey ++ [c]) n1 buff

def longestPrefix (t : Trie δ) (fullKey buff : Bytes) : List Bytes × Bytes :=
  t.longestPrefixLoop fullKey fullKey 0 0 0 [] [] (buff.set 0 0)

def insert2 (t : Trie δ) (fullKey : Bytes) (create : δ) : Trie δ × List Bytes :=
  let (n,raw) := t.longestPrefix fullKey (List.replicate (fullKey.length + 1) 0)
  if cstr raw = fullKey then (t,n)
  else
    let i := if n ≠ [] then commonLength (cstr raw) fullKey else 0
    let new := tokens t.delim (fullKey.drop i)
    ({ t with root := t.root.adjust (fun node => node.extend create new) n },n ++ new)

def isLeaf (node : Tree Bytes δ) : Bool :=
  match node.children with
  | .nil => true
  | .cons .. => false

def delete2 (t : Trie δ) (node : List Bytes) : Trie δ × TrieStatus :=
  match t.root.walk node with
  | none => (t,.err)
  | some n =>
    ({ t with root := t.root.remove node },if isLeaf n then .ok else .many)

def delete (t : Trie δ) (fullKey : Bytes) : Trie δ × TrieStatus :=
  match t.find fullKey with
  | none => (t,.err)
  | some node => t.delete2 node

section Keys
variable {t : Trie δ} {comps : List Bytes}

theorem findJoined (parts : ∀ c ∈ comps, Component t.delim c) :
    t.find (joined t.delim comps) = (t.root.walk comps).map fun _ => comps := by
  rw [find,Lib.tokensJoined parts]

def bufferAfter (buff0 front : Bytes) : Bytes :=
  if front = [] then buff0.set 0 0
  else (front ++ buff0.drop front.length).set (front.length + 1) 0

theorem bufferAfterNil (buff0 : Bytes) : bufferAfter buff0 [] = buff0.set 0 0 := if_pos rfl

theorem bufferAfterDrop (buff0 front : Bytes) {n : Nat} (later : front.length + 2 ≤ n) :
    (bufferAfter buff0 front).drop n = buff0.drop n := by
  rw [bufferAfter]
  split
  · rw [List.drop_set_of_lt (by omega)]
  · rw [List.drop_set_of_lt (by omega),List.drop_append,
      List.drop_eq_nil_of_le (by omega),List.nil_append,List.drop_drop]
    congr 1
    omega

theorem loopComponent (fullKey : Bytes) {c : Bytes} (part : t.delim ∉ c) (some : c ≠ [])
    (more : Bytes) (lastc : UInt8) (numChars count : Nat) (partKey : Bytes) (n1 : List Bytes)
    (buff : Bytes) :
    ∃ last, last ≠ t.delim ∧
      t.longestPrefixLoop fullKey (c ++ more) lastc numChars count partKey n1 buff =
        t.longestPrefixLoop fullKey more last (numChars + c.length) (count + c.length)
          (partKey ++ c) n1 buff := by
  induction c generalizing lastc numChars count partKey with
  | nil => exact absurd rfl some
  | cons x c ih =>
    have other : x ≠ t.delim := fun same => part (by simp [same])
    have rest : t.delim ∉ c := fun member => part (List.mem_cons_of_mem _ member)
    have one : t.longestPrefixLoop fullKey (x :: c ++ more) lastc numChars count partKey n1 buff =
        t.longestPrefixLoop fullKey (c ++ more) x (numChars + 1) (count + 1) (partKey ++ [x])
          n1 buff := by
      simp [longestPrefixLoop,other]
    rw [one]
    cases c with
    | nil => exact ⟨x,other,by simp⟩
    | cons y c =>
      obtain ⟨last,differs,run⟩ := ih rest (List.cons_ne_nil _ _) x (numChars + 1)
        (count + 1) (partKey ++ [x])
      refine ⟨last,differs,?_⟩
      rw [run]
      simp only [List.length_cons,List.append_assoc,List.singleton_append]
      congr 1 <;> omega

theorem findChildOf {n : List Bytes} {m : Tree Bytes δ} (found : t.root.walk n = some m)
    (c : Bytes) : t.findChild n c = (m.children.find c).map fun _ => n ++ [c] := by
  rw [findChild,found,Option.bind_some]

theorem loopDelims (fullKey : Bytes) (k : Nat) (more : Bytes) (numChars count : Nat)
    (partKey : Bytes) (n1 : List Bytes) (buff : Bytes) :
    t.longestPrefixLoop fullKey (List.replicate k t.delim ++ more) t.delim numChars count partKey
        n1 buff =
      t.longestPrefixLoop fullKey more t.delim numChars (count + k) partKey n1 buff := by
  induction k generalizing count with
  | zero => rfl
  | succ k ih =>
    rw [List.replicate_succ,List.cons_append,longestPrefixLoop,if_pos ⟨rfl,rfl⟩,ih]
    congr 1
    omega

def prefixOf (t : Trie δ) (fullKey buff0 : Bytes) (parts : List (Nat × Bytes)) (trail : Nat) :
    List Bytes × Bytes :=
  if t.root.reach (parts.map Prod.snd) = parts.length ∧ parts ≠ [] ∧ trail = 0 then
    (parts.map Prod.snd,fullKey ++ 0 :: buff0.drop (fullKey.length + 1))
  else ((parts.take (t.root.reach (parts.map Prod.snd))).map Prod.snd,
    bufferAfter buff0 (spelled t.delim (parts.take (t.root.reach (parts.map Prod.snd)))))

theorem longestPrefixEndTrail (plain : ∀ n, t.findChild n [] = none) {fullKey : Bytes}
    (front : Bytes) {k : Nat} (whole : fullKey = front ++ List.replicate (k + 1) t.delim)
    (n1 : List Bytes)
    (buff : Bytes) : t.longestPrefixEnd fullKey n1 buff = (n1,buff) := by
  have split : fullKey = (front ++ List.replicate k t.delim) ++ t.delim :: [] := by
    rw [whole,List.replicate_succ']
    simp
  have last := Lib.rindexLast (c := t.delim) (a := front ++ List.replicate k t.delim)
    (b := []) (by simp)
  rw [← split] at last
  have tail : fullKey.drop ((front ++ List.replicate k t.delim).length + 1) = [] := by
    apply List.drop_eq_nil_of_le
    rw [split]
    simp [Nat.add_assoc]
  simp only [longestPrefixEnd,last,tail,plain]

section Loop
variable {done more : List (Nat × Bytes)} {n trail : Nat} {c fullKey : Bytes} {m : Tree Bytes δ}

theorem longestPrefixEndSpelled (spelling : Spelling t.delim (done ++ [(n,c)]))
    (whole : fullKey = spelled t.delim (done ++ [(n,c)]))
    (found : t.root.walk (done.map Prod.snd) = some m) (buff0 : Bytes) :
    t.longestPrefixEnd fullKey (done.map Prod.snd)
        (bufferAfter buff0 (spelled t.delim done)) =
      t.prefixOf fullKey buff0 (done ++ [(n,c)]) 0 := by
  have part := spelling.real (n,c) (by simp)
  have size : c.length ≠ 0 := fun h => part.1 (List.length_eq_zero_iff.mp h)
  have split : fullKey = spelled t.delim done ++ (List.replicate n t.delim ++ c) := by
    rw [whole,Lib.spelledAppend,Lib.spelledCons]
    simp [spelled]
  have reached : t.root.reach ((done ++ [(n,c)]).map Prod.snd) =
      done.length + m.reach [c] := by
    rw [List.map_append,Tree.reachAppend found,List.length_map]
    rfl
  have result : t.prefixOf fullKey buff0 (done ++ [(n,c)]) 0 =
      match t.findChild (done.map Prod.snd) c with
      | some n2 => (n2,fullKey ++ 0 :: buff0.drop (fullKey.length + 1))
      | none => (done.map Prod.snd,bufferAfter buff0 (spelled t.delim done)) := by
    rw [prefixOf,reached,findChildOf found]
    cases child : m.children.find c with
    | none => simp [Tree.reach,child]
    | some node => simp [Tree.reach,child]
  rw [result]
  cases n with
  | zero =>
    have first : done = [] := by
      cases done with
      | nil => rfl
      | cons p done => exact absurd (spelling.apart (0,c) (by simp)) (by simp)
    subst first
    have same : fullKey = c := by simpa [spelled] using split
    subst same
    rw [longestPrefixEnd,Lib.rindexNone part.2]
    simp only [List.map_nil]
    cases t.findChild [] fullKey with
    | none => rfl
    | some n2 =>
      have long : (spelled t.delim []).length + 1 ≤ fullKey.length := by
        simp only [spelled,List.flatMap_nil,List.length_nil]
        omega
      simp only [bufferAfter,spelled,List.flatMap_nil,if_true]
      rw [List.drop_set_of_lt (by omega)]
  | succ k =>
    have cut : fullKey = (spelled t.delim done ++ List.replicate k t.delim) ++ t.delim :: c := by
      rw [split,List.replicate_succ']
      simp
    have last := Lib.rindexLast (a := spelled t.delim done ++ List.replicate k t.delim) part.2
    rw [← cut] at last
    have tail : fullKey.drop ((spelled t.delim done ++ List.replicate k t.delim).length + 1) =
        c := by
      rw [cut,List.drop_append]
      simp
    have long : (spelled t.delim done).length + 2 ≤ fullKey.length + 1 := by
      rw [cut]
      simp only [List.length_append,List.length_cons]
      omega
    rw [longestPrefixEnd,last]
    simp only [tail,bufferAfterDrop _ _ long]

theorem loopPart (spelling : Spelling t.delim (done ++ (n,c) :: more)) {rest : Bytes}
    (whole : fullKey = spelled t.delim (done ++ [(n,c)]) ++ t.delim :: rest)
    (found : t.root.walk (done.map Prod.snd) = some m) (buff0 : Bytes) (lastc : UInt8)
    (numChars : Nat) :
    t.longestPrefixLoop fullKey (c ++ t.delim :: rest) lastc numChars
        ((spelled t.delim done).length + n) [] (done.map Prod.snd)
        (bufferAfter buff0 (spelled t.delim done)) =
      match m.children.find c with
      | none => (done.map Prod.snd,bufferAfter buff0 (spelled t.delim done))
      | some _ => t.longestPrefixLoop fullKey rest t.delim (numChars + c.length + 1)
          ((spelled t.delim (done ++ [(n,c)])).length + 1) []
          ((done ++ [(n,c)]).map Prod.snd)
          (bufferAfter buff0 (spelled t.delim (done ++ [(n,c)]))) := by
  have part := spelling.real (n,c) (by simp)
  have size : c.length ≠ 0 := fun h => part.1 (List.length_eq_zero_iff.mp h)
  have counted : numChars + c.length ≠ 0 := by omega
  have grown : (spelled t.delim (done ++ [(n,c)])).length =
      (spelled t.delim done).length + n + c.length := by
    rw [Lib.spelledAppend,Lib.spelledCons]
    simp [spelled]
    omega
  have some : spelled t.delim (done ++ [(n,c)]) ≠ [] := fun h => by
    rw [h,List.length_nil] at grown
    omega
  -- only before the first component there may be no delimiter
  have kept : (bufferAfter buff0 (spelled t.delim done)).drop
      (spelled t.delim (done ++ [(n,c)])).length =
      buff0.drop (spelled t.delim (done ++ [(n,c)])).length := by
    cases done with
    | nil =>
      rw [Lib.spelledNil,bufferAfterNil]
      exact List.drop_set_of_lt (by omega)
    | cons p done =>
      have gap : 0 < n := spelling.apart (n,c) (by simp)
      exact bufferAfterDrop _ _ (by omega)
  have next : (fullKey.take (spelled t.delim (done ++ [(n,c)])).length ++
      (bufferAfter buff0 (spelled t.delim done)).drop
        (spelled t.delim (done ++ [(n,c)])).length).set
          ((spelled t.delim (done ++ [(n,c)])).length + 1) 0 =
      bufferAfter buff0 (spelled t.delim (done ++ [(n,c)])) := by
    rw [kept,whole,List.take_left,bufferAfter,if_neg some]
  obtain ⟨last,differs,run⟩ := loopComponent fullKey part.2 part.1 (t.delim :: rest) lastc
    numChars ((spelled t.delim done).length + n) [] (done.map Prod.snd)
    (bufferAfter buff0 (spelled t.delim done))
  rw [run,← grown,List.nil_append,longestPrefixLoop]
  simp only [differs,false_and,if_false,if_true,counted,ne_eq,not_false_eq_true,
    findChildOf found]
  cases child : m.children.find c with
  | none => rfl
  | some node =>
    simp only [Option.map_some,next,List.map_append,List.map_cons,List.map_nil]

theorem prefixOfShort (found : t.root.walk (done.map Prod.snd) = some m)
    (absent : m.children.find c = none) (buff0 : Bytes) :
    t.prefixOf fullKey buff0 (done ++ (n,c) :: more) trail =
      (done.map Prod.snd,bufferAfter buff0 (spelled t.delim done)) := by
  have reached : t.root.reach ((done ++ (n,c) :: more).map Prod.snd) = done.length := by
    rw [List.map_append,Tree.reachAppend found,List.length_map]
    simp [Tree.reach,absent]
  have short : ¬ done.length = (done ++ (n,c) :: more).length := by simp
  rw [prefixOf,reached,if_neg fun h => short h.1,List.take_left]

theorem loopSpelled (plain : trail ≠ 0 → ∀ n, t.findChild n [] = none)
    (spelling : Spelling t.delim (done ++ (n,c) :: more))
    (whole : fullKey = spelled t.delim (done ++ (n,c) :: more) ++ List.replicate trail t.delim)
    (found : t.root.walk (done.map Prod.snd) = some m) (buff0 : Bytes) (lastc : UInt8)
    (numChars : Nat) :
    t.longestPrefixLoop fullKey
        (c ++ (spelled t.delim more ++ List.replicate trail t.delim)) lastc numChars
        ((spelled t.delim done).length + n) [] (done.map Prod.snd)
        (bufferAfter buff0 (spelled t.delim done)) =
      t.prefixOf fullKey buff0 (done ++ (n,c) :: more) trail := by
  induction more generalizing done n c m lastc numChars with
  | nil =>
    cases trail with
    | zero =>
      have part := spelling.real (n,c) (by simp)
      obtain ⟨last,_,run⟩ := loopComponent fullKey part.2 part.1 [] lastc numChars
        ((spelled t.delim done).length + n) [] (done.map Prod.snd)
        (bufferAfter buff0 (spelled t.delim done))
      have bare : spelled t.delim [] ++ List.replicate 0 t.delim = [] := rfl
      rw [bare,run]
      exact longestPrefixEndSpelled spelling (by simpa using whole) found buff0
    | succ k =>
      have split : fullKey = spelled t.delim (done ++ [(n,c)]) ++
          t.delim :: List.replicate k t.delim := by
        rw [whole,List.replicate_succ]
      have bare : spelled t.delim [] ++ List.replicate (k + 1) t.delim =
          t.delim :: List.replicate k t.delim := by
        rw [List.replicate_succ]
        rfl
      rw [bare,loopPart spelling split found]
      cases child : m.children.find c with
      | none => exact (prefixOfShort found child buff0).symm
      | some node =>
        have skipped := loopDelims (t := t) fullKey k [] (numChars + c.length + 1)
          ((spelled t.delim (done ++ [(n,c)])).length + 1) [] ((done ++ [(n,c)]).map Prod.snd)
          (bufferAfter buff0 (spelled t.delim (done ++ [(n,c)])))
        rw [List.append_nil] at skipped
        dsimp only
        rw [skipped,longestPrefixLoop,
          longestPrefixEndTrail (plain (Nat.succ_ne_zero k)) _ whole,prefixOf]
        have reached : t.root.reach ((done ++ [(n,c)]).map Prod.snd) =
            (done ++ [(n,c)]).length := by
          rw [List.map_append,Tree.reachAppend found]
          simp [Tree.reach,child]
        rw [reached,List.take_length,if_neg fun h => Nat.succ_ne_zero k h.2.2]
  | cons p more ih =>
    obtain ⟨k,gap⟩ := Nat.exists_eq_add_one.mpr (spelling.apart p (by
      cases done <;> simp))
    obtain ⟨n',c'⟩ := p
    change n' = k + 1 at gap
    subst gap
    have front : done ++ (n,c) :: (k + 1,c') :: more =
        (done ++ [(n,c)]) ++ (k + 1,c') :: more := by simp
    have later : spelled t.delim ((k + 1,c') :: more) ++ List.replicate trail t.delim =
        t.delim :: (List.replicate k t.delim ++
          (c' ++ (spelled t.delim more ++ List.replicate trail t.delim))) := by
      rw [Lib.spelledCons,List.replicate_succ]
      simp
    have split : fullKey = spelled t.delim (done ++ [(n,c)]) ++ t.delim ::
        (List.replicate k t.delim ++
          (c' ++ (spelled t.delim more ++ List.replicate trail t.delim))) := by
      rw [whole,front,Lib.spelledAppend,List.append_assoc,later]
    rw [later,loopPart spelling split found]
    cases child : m.children.find c with
    | none => exact (prefixOfShort found child buff0).symm
    | some node =>
      have deeper : t.root.walk ((done ++ [(n,c)]).map Prod.snd) = some node := by
        simp [Tree.walkAppend,found,Tree.walk,child]
      have step := ih (front ▸ spelling) (front ▸ whole) deeper t.delim
        (numChars + c.length + 1)
      dsimp only
      have count : (spelled t.delim (done ++ [(n,c)])).length + 1 + k =
          (spelled t.delim (done ++ [(n,c)])).length + (k + 1) := by omega
      rw [loopDelims,count,step,front]

end Loop

theorem longestPrefixSpelled (real : t.delim ≠ 0) {parts : List (Nat × Bytes)} {trail : Nat}
    (plain : parts = [] ∨ trail ≠ 0 → ∀ n, t.findChild n [] = none)
    (spelling : Spelling t.delim parts) {fullKey : Bytes}
    (whole : fullKey = spelled t.delim parts ++ List.replicate trail t.delim) (buff0 : Bytes) :
    t.longestPrefix fullKey buff0 = t.prefixOf fullKey buff0 parts trail := by
  have lead : ¬ ((0 : UInt8) = t.delim ∧ t.delim = t.delim) := fun h => real h.1.symm
  have first (k : Nat) (more : Bytes) :
      t.longestPrefixLoop fullKey (List.replicate (k + 1) t.delim ++ more) 0 0 0 [] []
        (buff0.set 0 0) =
      t.longestPrefixLoop fullKey more t.delim 1 (k + 1) [] [] (buff0.set 0 0) := by
    rw [List.replicate_succ,List.cons_append,longestPrefixLoop,if_neg lead,if_pos rfl,
      if_neg (by simp),loopDelims]
    congr 1
    omega
  cases parts with
  | nil =>
    have none := plain (.inl rfl)
    have result : t.prefixOf fullKey buff0 [] trail = ([],buff0.set 0 0) := by
      simp [prefixOf,bufferAfter,spelled]
    rw [result,longestPrefix]
    cases trail with
    | zero =>
      have empty : fullKey = [] := by simpa [spelled] using whole
      subst empty
      simp [longestPrefixLoop,longestPrefixEnd,rindex,none]
    | succ k =>
      have only := first k []
      have key : fullKey = List.replicate (k + 1) t.delim ++ [] := by simpa [spelled] using whole
      rw [← key] at only
      rw [only,longestPrefixLoop]
      exact longestPrefixEndTrail none [] (by simpa using key) [] _
  | cons p parts =>
    obtain ⟨n,c⟩ := p
    have text : fullKey = List.replicate n t.delim ++
        (c ++ (spelled t.delim parts ++ List.replicate trail t.delim)) := by
      rw [whole,Lib.spelledCons]
      simp
    have step (lastc : UInt8) (numChars : Nat) :=
      loopSpelled (fun h => plain (.inr h)) (show Spelling t.delim ([] ++ (n,c) :: parts)
        from spelling) whole (show t.root.walk [] = some t.root from rfl) buff0 lastc numChars
    have start : longestPrefixLoop t fullKey fullKey 0 0 0 [] [] (buff0.set 0 0) =
        longestPrefixLoop t fullKey
          (c ++ (spelled t.delim parts ++ List.replicate trail t.delim))
          (if n = 0 then 0 else t.delim) (if n = 0 then 0 else 1) n [] [] (buff0.set 0 0) := by
      cases n with
      | zero =>
        conv => lhs; arg 3; rw [text]
        rfl
      | succ k =>
        conv => lhs; arg 3; rw [text]
        rw [first]
        rfl
    have result := step (if n = 0 then 0 else t.delim) (if n = 0 then 0 else 1)
    simp only [spelled,List.flatMap_nil,List.length_nil,Nat.zero_add,List.map_nil,
      bufferAfter,if_true] at result
    rw [longestPrefix,start]
    exact result

theorem commonLengthPrefix (a b : Bytes) : commonLength a (a ++ b) = a.length := by
  induction a with
  | nil => cases b <;> rfl
  | cons x a ih => simp [commonLength,ih]

theorem cstrZero {a : Bytes} (clean : 0 ∉ a) (rest : Bytes) : cstr (a ++ 0 :: rest) = a := by
  have real : ∀ b ∈ a, (b ≠ 0 : Bool) = true := by
    intro b member
    have differs : b ≠ 0 := fun zero => clean (zero ▸ member)
    simpa using differs
  rw [cstr,List.takeWhile_append_of_pos real,List.takeWhile_cons_of_neg (by simp),List.append_nil]

theorem cstrBufferZero {front : Bytes} (clean : 0 ∉ front) {n : Nat} (room : front.length < n) :
    cstr (bufferAfter (List.replicate n 0) front) = front := by
  obtain ⟨k,size⟩ : ∃ k, n - front.length = k + 1 := ⟨n - front.length - 1,by omega⟩
  rw [bufferAfter]
  split
  · rename_i empty
    subst empty
    cases n with
    | zero => exact absurd room (by simp)
    | succ n => simp [List.replicate_succ,cstr]
  · rw [List.drop_replicate,size,List.replicate_succ]
    rw [List.set_append_right _ _ (by omega),Nat.add_sub_cancel_left,List.set_cons_succ]
    exact cstrZero clean _

theorem cstrBufferKey {front : Bytes} {x y : UInt8} (real : x ≠ 0) (clean : 0 ∉ front)
    (rest : Bytes) :
    cstr (bufferAfter (front ++ x :: y :: rest) front) =
      if front = [] then [] else front ++ [x] := by
  rw [bufferAfter]
  split
  · rename_i empty
    simp [empty,cstr]
  · rw [List.drop_left,List.set_append_right _ _ (by omega),Nat.add_sub_cancel_left,
      List.set_cons_succ]
    have clean' : 0 ∉ front ++ [x] := by simpa using ⟨clean,real.symm⟩
    simpa using cstrZero clean' rest

theorem keyCut {parts : List (Nat × Bytes)} {trail : Nat} {fullKey : Bytes}
    (spelling : Spelling t.delim parts)
    (whole : fullKey = spelled t.delim parts ++ List.replicate trail t.delim) (r : Nat) :
    ∃ rest, fullKey = spelled t.delim (parts.take r) ++ rest ∧
      tokens t.delim rest = (parts.drop r).map Prod.snd ∧
      (rest = [] → parts.drop r = [] ∧ trail = 0) ∧
      (r ≠ 0 → rest = [] ∨ ∃ more, rest = t.delim :: more) := by
  refine ⟨spelled t.delim (parts.drop r) ++ List.replicate trail t.delim,?_,
    Lib.tokensSpelled (spelling.drop r) trail,?_,fun some => spelling.dropDelim some trail⟩
  · rw [← List.append_assoc,← Lib.spelledAppend,List.take_append_drop,whole]
  · intro empty
    obtain ⟨first,last⟩ := List.append_eq_nil_iff.mp empty
    exact ⟨Lib.spelledEmpty (spelling.drop r) first,by simpa using congrArg List.length last⟩

theorem longestPrefixText (real : t.delim ≠ 0) {parts : List (Nat × Bytes)} {trail : Nat}
    (plain : parts = [] ∨ trail ≠ 0 → ∀ n, t.findChild n [] = none)
    (spelling : Spelling t.delim parts) {fullKey : Bytes}
    (whole : fullKey = spelled t.delim parts ++ List.replicate trail t.delim)
    (clean : 0 ∉ fullKey) {r : Nat} (reached : t.root.reach (parts.map Prod.snd) = r) :
    cstr (t.longestPrefix fullKey (fullKey ++ [0])).2 =
      if r = parts.length ∧ parts ≠ [] ∧ trail = 0 then fullKey
      else if r = 0 then [] else spelled t.delim (parts.take r) ++ [t.delim] := by
  rw [longestPrefixSpelled real plain spelling whole,prefixOf,reached]
  split
  · exact cstrZero clean _
  · rename_i partial_
    obtain ⟨rest,split,_,none,next⟩ := keyCut spelling whole r
    have clean' : 0 ∉ spelled t.delim (parts.take r) := fun h =>
      clean (split ▸ List.mem_append_left _ h)
    have high : r ≤ parts.length := by
      have bound := Tree.reachBound t.root (parts.map Prod.snd)
      rwa [reached,List.length_map] at bound
    by_cases root : r = 0
    · subst root
      obtain ⟨y,tail,raw⟩ := List.exists_cons_of_ne_nil
        (List.append_ne_nil_of_right_ne_nil fullKey (List.cons_ne_nil (0 : UInt8) []))
      simp [bufferAfterNil,cstr,raw]
    · have some : rest ≠ [] := fun empty => by
        obtain ⟨beyond,still⟩ := none empty
        have low : parts.length ≤ r := List.drop_eq_nil_iff.mp beyond
        have begun : parts ≠ [] := fun bare => root (by simpa [bare] using high)
        exact partial_ ⟨by omega,begun,still⟩
      obtain ⟨more,rfl⟩ := (next root).resolve_left some
      obtain ⟨y,tail,raw⟩ := List.exists_cons_of_ne_nil (List.append_ne_nil_of_right_ne_nil more
        (List.cons_ne_nil (0 : UInt8) []))
      have front : spelled t.delim (parts.take r) ≠ [] := fun bare => by
        have gone := Lib.spelledEmpty (spelling.take r) bare
        rcases List.take_eq_nil_iff.mp gone with zero | empty
        · exact root zero
        · exact root (by simpa [empty] using high)
      rw [split,List.append_assoc,List.cons_append,raw,cstrBufferKey real clean',
        if_neg front,if_neg root]

theorem insert2Spelled (real : t.delim ≠ 0) {parts : List (Nat × Bytes)} {trail : Nat}
    (plain : parts = [] ∨ trail ≠ 0 → ∀ n, t.findChild n [] = none)
    (spelling : Spelling t.delim parts) {fullKey : Bytes}
    (whole : fullKey = spelled t.delim parts ++ List.replicate trail t.delim)
    (clean : 0 ∉ fullKey) (create : δ) :
    t.insert2 fullKey create =
      ({ t with root := t.root.insert create (parts.map Prod.snd) },parts.map Prod.snd) := by
  have search := longestPrefixSpelled real plain spelling whole
    (List.replicate (fullKey.length + 1) 0)
  rw [insert2,search,prefixOf]
  by_cases full : t.root.reach (parts.map Prod.snd) = parts.length ∧ parts ≠ [] ∧ trail = 0
  · have present : t.root.reach (parts.map Prod.snd) = (parts.map Prod.snd).length := by
      rw [full.1,List.length_map]
    simp [full,cstrZero clean,Tree.insertPresent present]
  · rw [if_neg full]
    generalize reached : t.root.reach (parts.map Prod.snd) = r at full
    obtain ⟨rest,split,behind,none,_⟩ := keyCut spelling whole r
    have clean' : 0 ∉ spelled t.delim (parts.take r) := fun h =>
      clean (split ▸ List.mem_append_left _ h)
    have room : (spelled t.delim (parts.take r)).length < fullKey.length + 1 := by
      rw [split,List.length_append]
      omega
    have text := cstrBufferZero clean' room
    by_cases all : rest = []
    · obtain ⟨beyond,still⟩ := none all
      have empty : parts = [] := by
        by_contra some
        have low : parts.length ≤ r := List.drop_eq_nil_iff.mp beyond
        have high : r ≤ (parts.map Prod.snd).length := reached ▸ Tree.reachBound _ _
        rw [List.length_map] at high
        exact full ⟨by omega,some,still⟩
      subst empty
      have key : fullKey = [] := by simpa [all] using split
      simp [key,bufferAfter,cstr,Tree.insert,Tree.reach,Tree.adjust,Tree.extend,
        List.replicate_succ]
    · have differs : spelled t.delim (parts.take r) ≠ fullKey := fun same => by
        rw [split] at same
        exact all (by simpa using same)
      have took : (parts.take r).map Prod.snd = (parts.map Prod.snd).take r := List.map_take
      have left : (parts.drop r).map Prod.snd = (parts.map Prod.snd).drop r := List.map_drop
      have skipped : fullKey.drop (if (parts.map Prod.snd).take r ≠ [] then
          commonLength (spelled t.delim (parts.take r)) fullKey else 0) = rest := by
        split
        · conv => lhs; rw [split]
          rw [commonLengthPrefix,List.drop_left]
        · rename_i root
          have bare : parts.take r = [] := List.map_eq_nil_iff.mp (took.trans (not_not.mp root))
          simpa [bare] using split
      simp only [text,differs,if_false,took,skipped,behind,left,Tree.insert,reached,
        List.take_append_drop]

theorem insert2Run (real : t.delim ≠ 0) {fullKey : Bytes}
    (plain : ∀ n, t.findChild n [] = none) (clean : 0 ∉ fullKey) (create : δ) :
    t.insert2 fullKey create =
      ({ t with root := t.root.insert create (tokens t.delim fullKey) },
        tokens t.delim fullKey) := by
  obtain ⟨parts,trail,spelling,whole⟩ := Lib.spellingOf t.delim fullKey
  have comps : tokens t.delim fullKey = parts.map Prod.snd := by
    rw [whole,Lib.tokensSpelled spelling]
  rw [comps]
  exact insert2Spelled real (fun _ => plain) spelling whole clean create

theorem insert2Joined (real : t.delim ≠ 0) (some : comps ≠ [])
    (parts : ∀ c ∈ comps, Component t.delim c) (clean : 0 ∉ joined t.delim comps)
    (create : δ) :
    t.insert2 (joined t.delim comps) create =
      ({ t with root := t.root.insert create comps },comps) := by
  have spelling := Lib.spellingJoined parts
  have whole : joined t.delim comps =
      spelled t.delim (comps.map (1,·)) ++ List.replicate 0 t.delim := by
    rw [Lib.joinedSpelled,List.replicate_zero,List.append_nil]
  have run := insert2Spelled real (by simp [some]) spelling whole clean create
  simpa [Function.comp_def] using run

end Keys
end Trie
end IoApps
