import Mathlib.Logic.Relation

/-! Programs over a state that may stop with a fault. `Steps` says what a run does in terms
of an edit relation: it ends after finitely many edits, and so does the part of it before a
fault. An invariant of the edits is then an invariant of every program. -/
namespace IoApps.Lib

def Prog (σ ε α : Type) := σ → Except ε (α × σ)

namespace Prog
variable {σ ε α β : Type}

instance : Monad (Prog σ ε) where
  pure a := fun s => .ok (a,s)
  bind m f := fun s =>
    match m s with
    | .ok (a,s') => f a s'
    | .error e => .error e

def get : Prog σ ε σ := fun s => .ok (s,s)
def modify (f : σ → σ) : Prog σ ε Unit := fun s => .ok ((),f s)
def throw (e : ε) : Prog σ ε α := fun _ => .error e

def ofOption (e : ε) : Option α → Prog σ ε α
  | some a => pure a
  | none => throw e

@[simp] theorem pureRun (a : α) (s : σ) : (pure a : Prog σ ε α) s = .ok (a,s) := rfl
@[simp] theorem getRun (s : σ) : (get : Prog σ ε σ) s = .ok (s,s) := rfl
@[simp] theorem modifyRun (f : σ → σ) (s : σ) :
    (modify f : Prog σ ε Unit) s = .ok ((),f s) := rfl
@[simp] theorem throwRun (e : ε) (s : σ) : (throw e : Prog σ ε α) s = .error e := rfl
@[simp] theorem ofOptionSome (e : ε) (a : α) (s : σ) :
    (ofOption e (some a) : Prog σ ε α) s = .ok (a,s) := rfl
@[simp] theorem ofOptionNone (e : ε) (s : σ) :
    (ofOption e none : Prog σ ε α) s = .error e := rfl

theorem okNotError {a : α} {e : ε} : (.ok a : Except ε α) ≠ .error e := by
  intro same
  cases same

theorem bindRun (m : Prog σ ε α) (f : α → Prog σ ε β) (s : σ) :
    (m >>= f) s = match m s with
      | .ok (a,s') => f a s'
      | .error e => .error e := rfl

theorem bindOf {m : Prog σ ε α} {f : α → Prog σ ε β} {s t : σ} {a : α}
    (first : m s = .ok (a,t)) : (m >>= f) s = f a t := by
  rw [bindRun,first]

theorem bindAssoc {γ : Type} (m : Prog σ ε α) (f : α → Prog σ ε β) (g : β → Prog σ ε γ) :
    m >>= f >>= g = m >>= fun a => f a >>= g := by
  funext s
  simp only [bindRun]
  cases m s <;> rfl

theorem bindOk {m : Prog σ ε α} {f : α → Prog σ ε β} {s t : σ} {b : β} :
    (m >>= f) s = .ok (b,t) ↔ ∃ a s', m s = .ok (a,s') ∧ f a s' = .ok (b,t) := by
  rw [bindRun]
  cases h : m s with
  | error e => simp
  | ok r =>
    obtain ⟨a,s'⟩ := r
    constructor
    · exact fun next => ⟨a,s',rfl,next⟩
    · rintro ⟨_,_,⟨⟩,next⟩
      exact next

theorem bindError {m : Prog σ ε α} {f : α → Prog σ ε β} {s : σ} {e : ε} :
    (m >>= f) s = .error e ↔
      m s = .error e ∨ ∃ a s', m s = .ok (a,s') ∧ f a s' = .error e := by
  rw [bindRun]
  cases h : m s with
  | error e' => simp
  | ok r =>
    obtain ⟨a,s'⟩ := r
    constructor
    · exact fun next => .inr ⟨a,s',rfl,next⟩
    · rintro (stopped | ⟨_,_,⟨⟩,next⟩)
      · contradiction
      · exact next

section Ensures

def Ensures (m : Prog σ ε α) (s : σ) (post : α → σ → Prop) : Prop :=
  ∀ a t, m s = .ok (a,t) → post a t

theorem Ensures.bind {m : Prog σ ε α} {f : α → Prog σ ε β} {s : σ} {q : α → σ → Prop}
    {post : β → σ → Prop} (first : m.Ensures s q)
    (second : ∀ a t, q a t → (f a).Ensures t post) : (m >>= f).Ensures s post := by
  intro b u ran
  obtain ⟨a,t,one,rest⟩ := bindOk.mp ran
  exact second a t (first a t one) b u rest

theorem Ensures.pure {a : α} {s : σ} {post : α → σ → Prop} (holds : post a s) :
    Ensures (Pure.pure a : Prog σ ε α) s post := by
  rintro _ _ ⟨⟩
  exact holds

theorem Ensures.getBind {f : σ → Prog σ ε β} {s : σ} {post : β → σ → Prop}
    (rest : (f s).Ensures s post) : (Prog.get >>= f).Ensures s post := rest

theorem Ensures.modify {f : σ → σ} {s : σ} {post : Unit → σ → Prop} (holds : post () (f s)) :
    (Prog.modify f : Prog σ ε Unit).Ensures s post := by
  rintro _ _ ⟨⟩
  exact holds

theorem Ensures.modifyBind {g : σ → σ} {f : Unit → Prog σ ε β} {s : σ} {post : β → σ → Prop}
    (rest : (f ()).Ensures (g s) post) : (Prog.modify g >>= f).Ensures s post := rest

theorem Ensures.throw {e : ε} {s : σ} {post : α → σ → Prop} :
    (Prog.throw e : Prog σ ε α).Ensures s post := by
  rintro _ _ ⟨⟩

theorem Ensures.post {m : Prog σ ε α} {s : σ} {post post' : α → σ → Prop}
    (ensures : m.Ensures s post) (posts : ∀ a t, post a t → post' a t) : m.Ensures s post' :=
  fun a t ran => posts a t (ensures a t ran)

end Ensures
section Steps
open Relation
variable {edit : σ → σ → Prop} {bad : σ → ε → Prop}

def Steps (edit : σ → σ → Prop) (bad : σ → ε → Prop) (m : Prog σ ε α) (s : σ)
    (post : α → σ → Prop) : Prop :=
  match m s with
  | .ok (a,t) => ReflTransGen edit s t ∧ post a t
  | .error e => ∃ t, ReflTransGen edit s t ∧ bad t e

theorem Steps.ofOk {m : Prog σ ε α} {s t : σ} {a : α} {post : α → σ → Prop}
    (ran : m s = .ok (a,t)) (edits : ReflTransGen edit s t) (holds : post a t) :
    Steps edit bad m s post := by
  rw [Steps,ran]
  exact ⟨edits,holds⟩

theorem Steps.ofError {m : Prog σ ε α} {s : σ} {e : ε} {post : α → σ → Prop}
    (ran : m s = .error e) (reached : bad s e) : Steps edit bad m s post := by
  rw [Steps,ran]
  exact ⟨s,.refl,reached⟩

theorem Steps.okElim {m : Prog σ ε α} {s t : σ} {a : α} {post : α → σ → Prop}
    (steps : Steps edit bad m s post) (ran : m s = .ok (a,t)) :
    ReflTransGen edit s t ∧ post a t := by
  rwa [Steps,ran] at steps

theorem Steps.errorElim {m : Prog σ ε α} {s : σ} {e : ε} {post : α → σ → Prop}
    (steps : Steps edit bad m s post) (ran : m s = .error e) :
    ∃ t, ReflTransGen edit s t ∧ bad t e := by
  rwa [Steps,ran] at steps

theorem Steps.pure {a : α} {s : σ} {post : α → σ → Prop} (holds : post a s) :
    Steps edit bad (pure a) s post := ⟨.refl,holds⟩

theorem Steps.get {s : σ} {post : σ → σ → Prop} (holds : post s s) :
    Steps edit bad get s post := ⟨.refl,holds⟩

theorem Steps.throw {e : ε} {s : σ} {post : α → σ → Prop} (reached : bad s e) :
    Steps edit bad (throw e) s post := ⟨s,.refl,reached⟩

theorem Steps.modify {f : σ → σ} {s : σ} {post : Unit → σ → Prop} (one : edit s (f s))
    (holds : post () (f s)) : Steps edit bad (modify f) s post := ⟨.single one,holds⟩

theorem Steps.ofOption {e : ε} {o : Option α} {s : σ} {post : α → σ → Prop}
    (some : ∀ a, o = some a → post a s) (none : o = none → bad s e) :
    Steps edit bad (ofOption e o) s post := by
  cases o with
  | none => exact ⟨s,.refl,none rfl⟩
  | some a => exact ⟨.refl,some a rfl⟩

theorem Steps.bind {m : Prog σ ε α} {f : α → Prog σ ε β} {s : σ} {q : α → σ → Prop}
    {post : β → σ → Prop} (first : Steps edit bad m s q)
    (second : ∀ a t, q a t → Steps edit bad (f a) t post) :
    Steps edit bad (m >>= f) s post := by
  cases ran : m s with
  | error e =>
    obtain ⟨t,edits,reached⟩ := first.errorElim ran
    have whole : (m >>= f) s = .error e := bindError.mpr (.inl ran)
    rw [Steps,whole]
    exact ⟨t,edits,reached⟩
  | ok r =>
    obtain ⟨a,t⟩ := r
    obtain ⟨edits,holds⟩ := first.okElim ran
    have rest := second a t holds
    cases next : f a t with
    | error e =>
      obtain ⟨u,more,reached⟩ := rest.errorElim next
      have whole : (m >>= f) s = .error e := bindError.mpr (.inr ⟨a,t,ran,next⟩)
      rw [Steps,whole]
      exact ⟨u,edits.trans more,reached⟩
    | ok r' =>
      obtain ⟨b,u⟩ := r'
      obtain ⟨more,last⟩ := rest.okElim next
      exact .ofOk (bindOk.mpr ⟨a,t,ran,next⟩) (edits.trans more) last

theorem Steps.getBind {f : σ → Prog σ ε β} {s : σ} {post : β → σ → Prop}
    (rest : Steps edit bad (f s) s post) : Steps edit bad (Prog.get >>= f) s post := rest

theorem Steps.modifyBind {g : σ → σ} {f : Unit → Prog σ ε β} {s : σ} {post : β → σ → Prop}
    (one : edit s (g s)) (rest : Steps edit bad (f ()) (g s) post) :
    Steps edit bad (Prog.modify g >>= f) s post :=
  .bind (q := fun _ t => t = g s) (.modify one rfl) fun _ _ same => same ▸ rest

theorem Steps.mono {edit' : σ → σ → Prop} {bad' : σ → ε → Prop} {m : Prog σ ε α} {s : σ}
    {post post' : α → σ → Prop} (steps : Steps edit bad m s post)
    (edits : ∀ s t, edit s t → edit' s t) (bads : ∀ s e, bad s e → bad' s e)
    (posts : ∀ a t, post a t → post' a t) : Steps edit' bad' m s post' := by
  cases ran : m s with
  | error e =>
    obtain ⟨t,before,reached⟩ := steps.errorElim ran
    rw [Steps,ran]
    exact ⟨t,ReflTransGen.mono edits _ _ before,bads t e reached⟩
  | ok r =>
    obtain ⟨before,holds⟩ := steps.okElim ran
    exact .ofOk ran (ReflTransGen.mono edits _ _ before) (posts _ _ holds)

theorem Steps.post {m : Prog σ ε α} {s : σ} {post post' : α → σ → Prop}
    (steps : Steps edit bad m s post) (posts : ∀ a t, post a t → post' a t) :
    Steps edit bad m s post' :=
  steps.mono (fun _ _ h => h) (fun _ _ h => h) posts

theorem Steps.reached {m : Prog σ ε α} {s : σ} {post : α → σ → Prop}
    (steps : Steps edit bad m s post) :
    Steps edit bad m s fun a t => ReflTransGen edit s t ∧ post a t := by
  cases ran : m s with
  | error e =>
    rw [Steps,ran]
    exact steps.errorElim ran
  | ok r =>
    have both := steps.okElim ran
    exact .ofOk ran both.1 both

theorem keptByEdits (inv : σ → Prop) (kept : ∀ s t, edit s t → inv s → inv t) {s t : σ}
    (edits : ReflTransGen edit s t) (holds : inv s) : inv t := by
  induction edits with
  | refl => exact holds
  | tail _ last ih => exact kept _ _ last ih

theorem Steps.kept {m : Prog σ ε α} {s t : σ} {a : α} {post : α → σ → Prop}
    (steps : Steps edit bad m s post) (inv : σ → Prop)
    (kept : ∀ s t, edit s t → inv s → inv t) (holds : inv s) (ran : m s = .ok (a,t)) : inv t :=
  keptByEdits inv kept (steps.okElim ran).1 holds

theorem Steps.never {m : Prog σ ε α} {s : σ} {post : α → σ → Prop}
    (steps : Steps edit bad m s post) (inv : σ → Prop)
    (kept : ∀ s t, edit s t → inv s → inv t) {e : ε}
    (excluded : ∀ s, inv s → ¬ bad s e) (holds : inv s) : m s ≠ .error e := by
  intro ran
  obtain ⟨t,before,reached⟩ := steps.errorElim ran
  exact excluded t (keptByEdits inv kept before holds) reached

end Steps
end Prog
end IoApps.Lib
