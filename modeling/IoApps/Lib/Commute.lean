import IoApps.Lib.Prog

/-! Programs on different parts of a state commute. A view is the part of one program; the
other is blind to it: it neither looks at it nor changes it. -/
namespace IoApps.Lib

structure View (σ ν : Type) where
  get : σ → ν
  set : σ → ν → σ
  getSet : ∀ s v, get (set s v) = v
  setGet : ∀ s, set s (get s) = s
  setSet : ∀ s v w, set (set s v) w = set s w

namespace Prog
variable {σ ν ε α β γ : Type} (l : View σ ν)

def Local (m : Prog σ ε α) : Prop :=
  ∃ g : Prog ν ε α, ∀ s, m s = (g (l.get s)).map fun r => (r.1,l.set s r.2)

def Blind (m : Prog σ ε α) : Prop :=
  ∀ s v, m (l.set s v) = (m s).map fun r => (r.1,l.set r.2 v)

variable {l}

theorem Local.pure (a : α) : Local l (pure a : Prog σ ε α) :=
  ⟨Pure.pure a,fun s => by simp [Except.map,l.setGet]⟩

theorem Local.bind {m : Prog σ ε α} {f : α → Prog σ ε β} (first : Local l m)
    (rest : ∀ a, Local l (f a)) : Local l (m >>= f) := by
  obtain ⟨g,runs⟩ := first
  refine ⟨g >>= fun a => (rest a).choose,fun s => ?_⟩
  rw [bindRun,bindRun,runs s]
  cases g (l.get s) with
  | error e => rfl
  | ok r =>
    have next := (rest r.1).choose_spec (l.set s r.2)
    simp only [Except.map,next,l.getSet,l.setSet]

theorem Blind.pure (a : α) : Blind l (pure a : Prog σ ε α) := fun _ _ => rfl

theorem Blind.throw (e : ε) : Blind l (throw e : Prog σ ε α) := fun _ _ => rfl

theorem Blind.ofOption (e : ε) (o : Option α) : Blind l (ofOption e o : Prog σ ε α) := by
  cases o with
  | none => exact Blind.throw e
  | some a => exact Blind.pure a

theorem Blind.modify {f : σ → σ} (aside : ∀ s v, f (l.set s v) = l.set (f s) v) :
    Blind l (modify f : Prog σ ε Unit) := fun s v => by
  rw [modifyRun,modifyRun,aside]
  rfl

theorem Blind.bind {m : Prog σ ε α} {f : α → Prog σ ε β} (first : Blind l m)
    (rest : ∀ a, Blind l (f a)) : Blind l (m >>= f) := by
  intro s v
  rw [bindRun,bindRun,first s v]
  cases m s with
  | error e => rfl
  | ok r => exact rest r.1 r.2 v

theorem Blind.reads {f : σ → Prog σ ε β} (aside : ∀ s v, f (l.set s v) = f s)
    (rest : ∀ s, Blind l (f s)) : Blind l (get >>= f) := by
  intro s v
  show f (l.set s v) (l.set s v) = (f s s).map _
  rw [aside]
  exact rest s s v

variable (l) in
def Matches (m m' : Prog σ ε α) : Prop :=
  ∀ s v, m' (l.set s v) = (m s).map fun r => (r.1,l.set r.2 v)

theorem Blind.matches {m : Prog σ ε α} (blind : Blind l m) : Matches l m m := blind

theorem Matches.bind {m m' : Prog σ ε α} {f f' : α → Prog σ ε β} (first : Matches l m m')
    (rest : ∀ a, Matches l (f a) (f' a)) : Matches l (m >>= f) (m' >>= f') := by
  intro s v
  rw [bindRun,bindRun,first s v]
  cases m s with
  | error e => rfl
  | ok r => exact rest r.1 r.2 v

theorem Matches.ite {p : Prop} [Decidable p] {m n m' n' : Prog σ ε α} (yes : p → Matches l m m')
    (no : ¬ p → Matches l n n') : Matches l (if p then m else n) (if p then m' else n') := by
  by_cases holds : p
  · rw [if_pos holds,if_pos holds]
    exact yes holds
  · rw [if_neg holds,if_neg holds]
    exact no holds

theorem Matches.reads {f f' : σ → Prog σ ε β}
    (rest : ∀ s v, Matches l (f s) (f' (l.set s v))) : Matches l (get >>= f) (get >>= f') :=
  fun s v => rest s v s v

theorem Matches.ends {m m' : Prog σ ε α} (same : Matches l m m') {s t : σ}
    (apart : ∃ v, t = l.set s v) (w : ν) :
    (m' t).map (fun r => (r.1,l.set r.2 w)) = (m s).map fun r => (r.1,l.set r.2 w) := by
  obtain ⟨v,here⟩ := apart
  rw [here,same s v]
  cases m s with
  | error e => rfl
  | ok r => simp only [Except.map,l.setSet]

theorem Blind.keeps {m : Prog σ ε α} (blind : Blind l m) {s t : σ} {a : α}
    (ran : m s = .ok (a,t)) : l.get t = l.get s := by
  have same := blind s (l.get s)
  rw [l.setGet,ran] at same
  have whole : t = l.set t (l.get s) := congrArg Prod.snd (Except.ok.inj same)
  rw [whole,l.getSet]

theorem commutes {m n : Prog σ ε Unit} (blind : Blind l m) (here : Local l n) (s : σ) :
    ((m >>= fun _ => n) s).toOption = ((n >>= fun _ => m) s).toOption := by
  obtain ⟨g,runs⟩ := here
  rw [bindRun,bindRun,runs s]
  cases first : m s with
  | error e =>
    cases g (l.get s) with
    | error e' => rfl
    | ok r => simp only [Except.map,blind s r.2,first]
  | ok r =>
    simp only [runs r.2,blind.keeps first]
    cases g (l.get s) with
    | error e => rfl
    | ok r' =>
      have after : m (l.set s r'.2) = .ok (r.1,l.set r.2 r'.2) := by
        rw [blind s r'.2,first]
        rfl
      simp only [Except.map,after]

end Prog
end IoApps.Lib
