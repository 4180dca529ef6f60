import Mathlib.Logic.Basic

/-
Computations over a state that return a value or end in a fault, with the rules used to
reason about them: the weakest precondition of one run, a relation kept by every run, and
the comparison of two runs.
-/
namespace Effects

variable {ε σ α β : Type}

theorem run_pure (a : α) (s : σ) : (pure a : EStateM ε σ α) s = .ok a s := rfl

theorem run_throw (e : ε) (s : σ) : (throw e : EStateM ε σ α) s = .error e s := rfl

theorem run_get (s : σ) : (get : EStateM ε σ σ) s = .ok s s := rfl

theorem run_set (u s : σ) : (set u : EStateM ε σ PUnit) s = .ok ⟨⟩ u := rfl

theorem run_modify (f : σ → σ) (s : σ) : (modify f : EStateM ε σ PUnit) s = .ok ⟨⟩ (f s) := rfl

theorem run_bind (x : EStateM ε σ α) (f : α → EStateM ε σ β) (s : σ) :
    (x >>= f) s = match x s with
      | .ok a t => f a t
      | .error e t => .error e t := rfl

theorem run_map (g : α → β) (x : EStateM ε σ α) (s : σ) :
    (g <$> x) s = match x s with
      | .ok a t => .ok (g a) t
      | .error e t => .error e t := rfl

theorem bind_of_ok {x : EStateM ε σ α} {s t : σ} {a : α} (run : x s = .ok a t)
    (f : α → EStateM ε σ β) : (x >>= f) s = f a t := by
  rw [run_bind, run]

theorem bind_of_error {x : EStateM ε σ α} {s t : σ} {e : ε} (run : x s = .error e t)
    (f : α → EStateM ε σ β) : (x >>= f) s = .error e t := by
  rw [run_bind, run]

theorem map_of_ok {x : EStateM ε σ α} {s t : σ} {a : α} (run : x s = .ok a t) (g : α → β) :
    (g <$> x) s = .ok (g a) t := by
  rw [run_map, run]

/- A sequence that returns is one of two computations that return. -/
theorem ok_of_bind {x : EStateM ε σ α} {f : α → EStateM ε σ β} {s u : σ} {b : β}
    (run : (x >>= f) s = .ok b u) : ∃ a t, x s = .ok a t ∧ f a t = .ok b u := by
  rw [run_bind] at run
  cases first : x s with
  | ok a t => exact ⟨a, t, rfl, by simpa only [first] using run⟩
  | error e t => simp [first] at run

/-- What must hold of the outcome of x started in s: Q of a returned value and its state,
   E of a fault and the state it left. -/
def Ensures (x : EStateM ε σ α) (s : σ) (Q : α → σ → Prop) (E : ε → σ → Prop) : Prop :=
  match x s with
  | .ok a t => Q a t
  | .error e t => E e t

theorem ensures_bind (x : EStateM ε σ α) (f : α → EStateM ε σ β) (s : σ)
    (Q : β → σ → Prop) (E : ε → σ → Prop) :
    Ensures (x >>= f) s Q E ↔ Ensures x s (fun a t => Ensures (f a) t Q E) E := by
  simp only [Ensures, bind, EStateM.bind]
  cases x s <;> rfl

theorem ensures_map (g : α → β) (x : EStateM ε σ α) (s : σ)
    (Q : β → σ → Prop) (E : ε → σ → Prop) :
    Ensures (g <$> x) s Q E ↔ Ensures x s (fun a t => Q (g a) t) E := by
  simp only [Ensures, Functor.map, EStateM.map]
  cases x s <;> rfl

theorem run_tryCatch (x : EStateM ε σ α) (h : ε → EStateM ε σ α) (s : σ) :
    tryCatch x h s = match x s with
      | .ok a t => .ok a t
      | .error e t => h e t := by
  show EStateM.tryCatch x h s = _
  unfold EStateM.tryCatch
  cases x s <;> rfl

theorem ensures_tryCatch {x : EStateM ε σ α} {h : ε → EStateM ε σ α} {s : σ} {Q : α → σ → Prop}
    {E : ε → σ → Prop} (run : Ensures x s Q (fun e t => Ensures (h e) t Q E)) :
    Ensures (tryCatch x h) s Q E := by
  unfold Ensures at run ⊢
  rw [run_tryCatch]
  cases ends : x s with
  | ok a t => simpa only [ends] using run
  | error e t => simpa only [ends] using run

theorem ensures_mono {x : EStateM ε σ α} {s : σ} {Q Q' : α → σ → Prop}
    {E E' : ε → σ → Prop} (h : Ensures x s Q E) (ok : ∀ a t, Q a t → Q' a t)
    (bad : ∀ e t, E e t → E' e t) : Ensures x s Q' E' := by
  unfold Ensures at h ⊢
  cases hx : x s with
  | ok a t => simp only [hx] at h ⊢; exact ok a t h
  | error e t => simp only [hx] at h ⊢; exact bad e t h

theorem ensures_of_run {x : EStateM ε σ α} {s t : σ} {a : α} {Q : α → σ → Prop}
    {E : ε → σ → Prop} (run : x s = .ok a t) (holds : Q a t) : Ensures x s Q E := by
  simpa only [Ensures, run] using holds

theorem ensures_of_fault {x : EStateM ε σ α} {s t : σ} {e : ε} {Q : α → σ → Prop}
    {E : ε → σ → Prop} (run : x s = .error e t) (holds : E e t) : Ensures x s Q E := by
  simpa only [Ensures, run] using holds

/- The rule for a first step whose end is known. -/
theorem ensures_step {x : EStateM ε σ α} {f : α → EStateM ε σ β} {s t : σ} {a : α}
    {Q : β → σ → Prop} {E : ε → σ → Prop} (run : x s = .ok a t) (rest : Ensures (f a) t Q E) :
    Ensures (x >>= f) s Q E :=
  (ensures_bind x f s Q E).mpr (ensures_of_run run rest)

theorem ensures_self (x : EStateM ε σ α) (s : σ) :
    Ensures x s (fun a t => x s = .ok a t) (fun e t => x s = .error e t) := by
  unfold Ensures
  cases x s <;> rfl

/- A computation that cannot fault returns. -/
theorem run_of_ensures {x : EStateM ε σ α} {s : σ} {Q : α → σ → Prop}
    (h : Ensures x s Q fun _ _ => False) : ∃ a t, x s = .ok a t ∧ Q a t := by
  unfold Ensures at h
  cases ends : x s with
  | ok a t => exact ⟨a, t, rfl, by simpa only [ends] using h⟩
  | error e t => simp only [ends] at h

theorem ensures_of_ok {x : EStateM ε σ α} {s t : σ} {a : α} {Q : α → σ → Prop}
    {E : ε → σ → Prop} (h : Ensures x s Q E) (run : x s = .ok a t) : Q a t := by
  simpa only [Ensures, run] using h

theorem ensures_of_error {x : EStateM ε σ α} {s t : σ} {e : ε} {Q : α → σ → Prop}
    {E : ε → σ → Prop} (h : Ensures x s Q E) (run : x s = .error e t) : E e t := by
  simpa only [Ensures, run] using h

section Simulation

variable {δ τ α' β' : Type}

/-- x, started in s, does what the specification y does in t: Q holds of the two returned values
with their states, E of the two faults. Where y ends in a fault that U marks, it leaves open what
x does. -/
inductive Simulates (U : δ → Prop) (x : EStateM ε σ α) (y : EStateM δ τ β) (s : σ) (t : τ)
    (Q : α → σ → β → τ → Prop) (E : ε → σ → δ → τ → Prop) : Prop
  | ok (a : α) (b : β) (s' : σ) (t' : τ) (left : x s = .ok a s') (right : y t = .ok b t')
      (post : Q a s' b t')
  | error (f : ε) (g : δ) (s' : σ) (t' : τ) (left : x s = .error f s')
      (right : y t = .error g t') (post : E f s' g t')
  | undefined (g : δ) (t' : τ) (right : y t = .error g t') (open' : U g)

namespace Simulates

variable {U : δ → Prop} {x : EStateM ε σ α} {y : EStateM δ τ β} {s s' : σ} {t t' : τ}

theorem pure {a : α} {b : β} {Q : α → σ → β → τ → Prop} {E : ε → σ → δ → τ → Prop}
    (post : Q a s b t) : Simulates U (pure a) (pure b) s t Q E :=
  .ok a b s t rfl rfl post

theorem throws {f : ε} {g : δ} {Q : α → σ → β → τ → Prop} {E : ε → σ → δ → τ → Prop}
    (post : E f s g t) : Simulates U (throw f) (throw g) s t Q E :=
  .error f g s t rfl rfl post

theorem mono {Q Q' : α → σ → β → τ → Prop} {E E' : ε → σ → δ → τ → Prop}
    (simulates : Simulates U x y s t Q E) (ok : ∀ a s b t, Q a s b t → Q' a s b t)
    (error : ∀ f s g t, E f s g t → E' f s g t) : Simulates U x y s t Q' E' := by
  cases simulates with
  | ok a b s' t' left right post => exact .ok a b s' t' left right (ok a s' b t' post)
  | error f g s' t' left right post => exact .error f g s' t' left right (error f s' g t' post)
  | undefined g t' right open' => exact .undefined g t' right open'

theorem bind {f : α → EStateM ε σ α'} {g : β → EStateM δ τ β'} {Q : α' → σ → β' → τ → Prop}
    {E : ε → σ → δ → τ → Prop}
    (first : Simulates U x y s t (fun a s' b t' => Simulates U (f a) (g b) s' t' Q E) E) :
    Simulates U (x >>= f) (y >>= g) s t Q E := by
  cases first with
  | error e h s' t' left right post =>
    exact .error e h s' t' (bind_of_error left f) (bind_of_error right g) post
  | undefined h t' right open' => exact .undefined h t' (bind_of_error right g) open'
  | ok a b s' t' left right rest =>
    have whole := bind_of_ok left f
    have spec := bind_of_ok right g
    cases rest with
    | ok a' b' s'' t'' left right post =>
      exact .ok a' b' s'' t'' (whole.trans left) (spec.trans right) post
    | error e h s'' t'' left right post =>
      exact .error e h s'' t'' (whole.trans left) (spec.trans right) post
    | undefined h t'' right open' => exact .undefined h t'' (spec.trans right) open'

theorem map {f : α → α'} {g : β → β'} {Q : α' → σ → β' → τ → Prop} {E : ε → σ → δ → τ → Prop}
    (first : Simulates U x y s t (fun a s' b t' => Q (f a) s' (g b) t') E) :
    Simulates U (f <$> x) (g <$> y) s t Q E :=
  bind (mono first (fun _ _ _ _ post => pure post) fun _ _ _ _ post => post)

/- A step of the program for which the specification has none. -/
theorem step {f : α → EStateM ε σ α'} {y : EStateM δ τ β'} {a : α} {Q : α' → σ → β' → τ → Prop}
    {E : ε → σ → δ → τ → Prop} (run : x s = .ok a s')
    (rest : Simulates U (f a) y s' t Q E) : Simulates U (x >>= f) y s t Q E := by
  have whole := bind_of_ok run f
  cases rest with
  | ok a' b s'' t' left right post => exact .ok a' b s'' t' (whole.trans left) right post
  | error e h s'' t' left right post => exact .error e h s'' t' (whole.trans left) right post
  | undefined h t' right open' => exact .undefined h t' right open'

/- A step of the specification for which the program has none. -/
theorem spec_step {x : EStateM ε σ α'} {g : β → EStateM δ τ β'} {b : β}
    {Q : α' → σ → β' → τ → Prop} {E : ε → σ → δ → τ → Prop} (run : y t = .ok b t')
    (rest : Simulates U x (g b) s t' Q E) : Simulates U x (y >>= g) s t Q E := by
  have spec := bind_of_ok run g
  cases rest with
  | ok a b' s' t'' left right post => exact .ok a b' s' t'' left (spec.trans right) post
  | error e h s' t'' left right post => exact .error e h s' t'' left (spec.trans right) post
  | undefined h t'' right open' => exact .undefined h t'' (spec.trans right) open'

/- Two programs that do what one specification does, from states it starts alike. -/
theorem join {ε' σ' γ : Type} {z : EStateM ε' σ' γ} {u : σ'} {Q : α → σ → β → τ → Prop}
    {E : ε → σ → δ → τ → Prop} {R : γ → σ' → β → τ → Prop} {F : ε' → σ' → δ → τ → Prop}
    {V : ε' → Prop} (one : Simulates U x y s t Q E) (two : Simulates U z y u t R F)
    (defined : ∀ g t', y t = .error g t' → ¬ U g) :
    Simulates V x z s u (fun a s' c u' => ∃ b t', Q a s' b t' ∧ R c u' b t')
      (fun e s' f u' => ∃ g t', E e s' g t' ∧ F f u' g t') := by
  cases one with
  | undefined g t' right open' => exact absurd open' (defined g t' right)
  | ok a b s' t' left right post =>
    cases two with
    | undefined g t'' right' open' => exact absurd open' (defined g t'' right')
    | error f g u' t'' _ right' _ => cases right.symm.trans right'
    | ok c b' u' t'' left' right' post' =>
      cases right.symm.trans right'
      exact .ok a c s' u' left left' ⟨b, t', post, post'⟩
  | error e g s' t' left right post =>
    cases two with
    | undefined g t'' right' open' => exact absurd open' (defined g t'' right')
    | ok c b' u' t'' _ right' _ => cases right.symm.trans right'
    | error f g' u' t'' left' right' post' =>
      cases right.symm.trans right'
      exact .error e f s' u' left left' ⟨g, t', post, post'⟩

end Simulates

end Simulation

end Effects
