/-
Readers of a stream that may end too early. What a reader needs from the state, the items it takes
and what it leaves are stated at once with its failure on every proper front of these items, so
that both are assembled along the binds.
-/
namespace Readers

variable {σ ε α β γ : Type} {holds : σ → List β → Prop} {short : ε → Prop}

/-- m takes the items from the stream and gives a, from the states of P to those of Q, when what is
    left satisfies need; else it may fail as on a stream that ends too early. -/
structure Reads (holds : σ → List β → Prop) (short : ε → Prop) (need : List β → Prop)
    (P : σ → Prop) (m : StateT σ (Except ε) α) (items : List β) (a : α) (Q : σ → Prop) :
    Prop where
  whole : ∀ s rest, P s → holds s (items ++ rest) →
    (∃ s', m s = .ok (a, s') ∧ Q s' ∧ holds s' rest) ∨
      ¬ need rest ∧ ∃ e, m s = .error e ∧ short e
  cut : ∀ s front back, P s → front ++ back = items → back ≠ [] → holds s front →
    ∃ e, m s = .error e ∧ short e

namespace Reads

variable {need need' : List β → Prop} {P Q R : σ → Prop} {m : StateT σ (Except ε) α}
  {f : α → StateT σ (Except ε) γ} {items items' : List β} {a : α} {c : γ}

theorem pure (need : List β → Prop) (P : σ → Prop) (a : α) :
    Reads holds short need P (pure a : StateT σ (Except ε) α) [] a P := by
  refine ⟨fun s rest before stream => .inl ⟨s, rfl, before, stream⟩, ?_⟩
  intro s front back _ split more _
  exact absurd (List.append_eq_nil_iff.mp split).2 more

theorem weaken (reads : Reads holds short need P m items a Q)
    (enough : ∀ rest, need' rest → need rest) : Reads holds short need' P m items a Q :=
  ⟨fun s rest before stream =>
    (reads.whole s rest before stream).imp_right fun failed => ⟨failed.1 ∘ enough rest, failed.2⟩,
    reads.cut⟩

theorem starting (reads : Reads holds short need P m items a Q) (starts : ∀ s, R s → P s) :
    Reads holds short need R m items a Q :=
  ⟨fun s rest before => reads.whole s rest (starts s before),
    fun s front back before => reads.cut s front back (starts s before)⟩

/- What is known of every state before holds behind. -/
theorem keep {known : Prop} (reads : Reads holds short need P m items a Q)
    (always : ∀ s, P s → known) : Reads holds short need P m items a fun s => Q s ∧ known := by
  refine ⟨fun s rest before stream => (reads.whole s rest before stream).imp_left ?_, reads.cut⟩
  rintro ⟨s', made, after, stream'⟩
  exact ⟨s', made, ⟨after, always s before⟩, stream'⟩

/-- A reader behind another; the first one may need what the second one takes. -/
theorem bind_of (first : Reads holds short need' P m items a Q)
    (second : Reads holds short need Q (f a) items' c R)
    (enough : ∀ rest, need rest → need' (items' ++ rest)) :
    Reads holds short need P (m >>= f) (items ++ items') c R := by
  have failed {s : σ} {e : ε} (failure : m s = .error e) : (m >>= f) s = .error e := by
    show (m s >>= fun made => f made.1 made.2) = _
    rw [failure]
    rfl
  have goes_on {s s' : σ} (made : m s = .ok (a, s')) : (m >>= f) s = f a s' := by
    show (m s >>= fun made => f made.1 made.2) = _
    rw [made]
    rfl
  refine ⟨fun s rest before stream => ?_, fun s front back before split more stream => ?_⟩
  · rw [List.append_assoc] at stream
    rcases first.whole s (items' ++ rest) before stream with ⟨s', made, between, stream'⟩ | refused
    · rw [goes_on made]
      exact second.whole s' rest between stream'
    · obtain ⟨lacking, e, failure, short⟩ := refused
      exact .inr ⟨lacking ∘ enough rest, e, failed failure, short⟩
  · rcases List.append_eq_append_iff.mp split with ⟨early, rfl, rest⟩ | ⟨late, rfl, rest⟩
    · by_cases none : early = []
      · subst none
        rw [List.nil_append] at rest
        subst rest
        rcases first.whole s [] before (by simpa using stream) with ⟨s', made, between, stream'⟩ |
          ⟨_, e, failure, short⟩
        · rw [goes_on made]
          exact second.cut s' [] back between rfl more stream'
        · exact ⟨e, failed failure, short⟩
      · obtain ⟨e, failure, short⟩ := first.cut s front early before rfl none stream
        exact ⟨e, failed failure, short⟩
    · rcases first.whole s late before stream with ⟨s', made, between, stream'⟩ |
        ⟨_, e, failure, short⟩
      · rw [goes_on made]
        exact second.cut s' late back between rest.symm more stream'
      · exact ⟨e, failed failure, short⟩

end Reads

/- A loop of n turns of the same reader. -/
def times (m : StateT σ (Except ε) α) : Nat → StateT σ (Except ε) (List α)
  | 0 => pure []
  | n + 1 => do
    let a ← m
    let rest ← times m n
    return a :: rest

/-- What m gives from the states of I satisfies P, and I still holds. -/
def Yields (I : σ → Prop) (m : StateT σ (Except ε) α) (P : α → Prop) : Prop :=
  ∀ s a s', I s → m s = .ok (a, s') → P a ∧ I s'

namespace Yields

variable {I : σ → Prop} {m : StateT σ (Except ε) α} {f : α → StateT σ (Except ε) γ}
  {P P' : α → Prop} {Q : γ → Prop}

theorem pure {a : α} (holds : P a) : Yields I (pure a : StateT σ (Except ε) α) P := by
  intro s a' s' before made
  cases made
  exact ⟨holds, before⟩

theorem weaken (yields : Yields I m P) (weaker : ∀ a, P a → P' a) : Yields I m P' := by
  intro s a s' before made
  obtain ⟨holds, after⟩ := yields s a s' before made
  exact ⟨weaker a holds, after⟩

theorem bind (first : Yields I m P) (second : ∀ a, P a → Yields I (f a) Q) :
    Yields I (m >>= f) Q := by
  intro s c s' before made
  have steps : (m s >>= fun between => f between.1 between.2) = .ok (c, s') := made
  cases between : m s with
  | error e =>
    rw [between] at steps
    cases steps
  | ok result =>
    rw [between] at steps
    obtain ⟨holds, inside⟩ := first s result.1 result.2 before between
    exact second result.1 holds result.2 c s' inside steps

theorem times (yields : Yields I m P) (n : Nat) :
    Yields I (times m n) fun xs => xs.length = n ∧ ∀ x ∈ xs, P x := by
  induction n with
  | zero => exact pure ⟨rfl, fun x member => by cases member⟩
  | succ n ih =>
    refine yields.bind fun a holds => ih.bind fun xs all => pure ⟨by simp [all.1], ?_⟩
    exact List.forall_mem_cons.mpr ⟨holds, all.2⟩

end Yields

end Readers
