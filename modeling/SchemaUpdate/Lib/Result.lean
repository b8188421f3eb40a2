import Mathlib.Data.List.Basic

/-! # Computations that may fail

Inversion of a sequence of fallible steps, and the rules for a loop of fallible
steps over a list: a reflexive and transitive relation kept by every step holds
between the first and the last state, a loop whose steps all succeed under an
invariant succeeds, and a loop that keeps a log beside its state computes what the
loop without the log does. -/

namespace SchemaUpdate.Lib

variable {ε α β σ : Type}

theorem bind_eq_ok {x : Except ε α} {f : α → Except ε β} {b : β} :
    (x >>= f) = .ok b ↔ ∃ a, x = .ok a ∧ f a = .ok b := by
  cases x with
  | error e | ok a => simp [bind, Except.bind]

/-- A step and the rest: what says when the rest succeeds, and what it then gives. -/
theorem bind_ok_spec {x : Except ε α} {f : α → Except ε β} {Q : Prop} {R : β → Prop}
    (h : ∀ a, x = .ok a → ((∃ b, f a = .ok b) ↔ Q) ∧ ∀ b, f a = .ok b → R b) :
    ((∃ b, (x >>= f) = .ok b) ↔ (∃ a, x = .ok a) ∧ Q) ∧ ∀ b, (x >>= f) = .ok b → R b := by
  cases x with
  | error e => simp [bind, Except.bind]
  | ok a => simpa [bind, Except.bind] using h a rfl

theorem bind_eq_error {x : Except ε α} {f : α → Except ε β} {e : ε} :
    (x >>= f) = .error e ↔ x = .error e ∨ ∃ a, x = .ok a ∧ f a = .error e := by
  cases x with
  | error e | ok a => simp [bind, Except.bind]

@[simp]
theorem ok_bind (a : α) (f : α → Except ε β) : ((Except.ok a : Except ε α) >>= f) = f a := rfl

@[simp]
theorem error_bind (e : ε) (f : α → Except ε β) :
    ((Except.error e : Except ε α) >>= f) = .error e := rfl

@[simp]
theorem pure_eq_ok (a : α) : (pure a : Except ε α) = .ok a := rfl

theorem map_eq_ok {x : Except ε α} {f : α → β} {b : β} :
    f <$> x = .ok b ↔ ∃ a, x = .ok a ∧ f a = b := by
  cases x with
  | error e | ok a => simp [Functor.map, Except.map]

/-! ## Loops -/

variable {s : σ}

/-- What every step of a loop keeps, the whole loop keeps. -/
theorem foldlM_rel {R : σ → σ → Prop} (refl : ∀ s, R s s) (trans : ∀ a b c, R a b → R b c → R a c)
    {f : σ → α → Except ε σ} {l : List α} (step : ∀ s, ∀ x ∈ l, ∀ s', f s x = .ok s' → R s s')
    {s' : σ} (h : l.foldlM f s = .ok s') : R s s' := by
  induction l generalizing s with
  | nil =>
    cases h
    exact refl _
  | cons x l ih =>
    rw [List.foldlM_cons, bind_eq_ok] at h
    obtain ⟨s₁, h₁, h₂⟩ := h
    refine trans _ s₁ _ (step s x (by simp) s₁ h₁) (ih ?_ h₂)
    intro s y hy
    exact step s y (by simp [hy])

/-- A loop whose steps succeed and keep an invariant succeeds and keeps it. -/
theorem foldlM_ok {P : σ → Prop} {f : σ → α → Except ε σ} {l : List α}
    (step : ∀ s, P s → ∀ x ∈ l, ∃ s', f s x = .ok s' ∧ P s') (hs : P s) :
    ∃ s', l.foldlM f s = .ok s' ∧ P s' := by
  induction l generalizing s with
  | nil => exact ⟨s, rfl, hs⟩
  | cons x l ih =>
    obtain ⟨s₁, h₁, hs₁⟩ := step s hs x (by simp)
    obtain ⟨s', h', hs'⟩ := ih (fun s hs y hy => step s hs y (by simp [hy])) hs₁
    exact ⟨s', by rw [List.foldlM_cons, h₁, ok_bind, h'], hs'⟩

theorem foldlM_congr {f g : σ → α → Except ε σ} {l : List α} (h : ∀ s, ∀ x ∈ l, f s x = g s x) :
    l.foldlM f s = l.foldlM g s := by
  induction l generalizing s with
  | nil => rfl
  | cons x l ih =>
    rw [List.foldlM_cons, List.foldlM_cons, h s x (by simp)]
    exact bind_congr fun s' => ih fun s y hy => h s y (by simp [hy])

/-- A loop whose steps all leave the state alone leaves it alone. -/
theorem foldlM_id {f : σ → α → Except ε σ} {l : List α} (step : ∀ x ∈ l, f s x = .ok s) :
    l.foldlM f s = .ok s := by
  obtain ⟨s', h', rfl⟩ := foldlM_ok (P := (· = s)) (f := f) (l := l)
    (fun t ht x hx => ⟨s, by rw [ht]; exact step x hx, rfl⟩) rfl
  exact h'

/-! ## Logs -/

def unlogged {γ : Type} (x : Except ε (α × γ)) : Except ε α := Prod.fst <$> x

section Logs

variable {γ δ : Type}

@[simp]
theorem unlogged_ok (p : α × γ) : unlogged (.ok p : Except ε (α × γ)) = .ok p.1 := rfl

theorem unlogged_bind {xl : Except ε (α × γ)} {fl : α × γ → Except ε (β × δ)} {x : Except ε α}
    {f : α → Except ε β} (hx : unlogged xl = x) (hf : ∀ p, unlogged (fl p) = f p.1) :
    unlogged (xl >>= fl) = x >>= f := by
  subst hx
  cases xl with
  | error e => rfl
  | ok p => exact hf p

theorem unlogged_bind_same {x : Except ε α} {fl : α → Except ε (β × δ)} {f : α → Except ε β}
    (hf : ∀ a, unlogged (fl a) = f a) : unlogged (x >>= fl) = x >>= f := by
  cases x with
  | error e => rfl
  | ok a => exact hf a

theorem unlogged_foldlM {fl : σ × γ → α → Except ε (σ × γ)} {f : σ → α → Except ε σ}
    (hf : ∀ p a, unlogged (fl p a) = f p.1 a) (l : List α) (p : σ × γ) :
    unlogged (l.foldlM fl p) = l.foldlM f p.1 := by
  induction l generalizing p with
  | nil => rfl
  | cons a l ih =>
    rw [List.foldlM_cons, List.foldlM_cons]
    exact unlogged_bind (hf p a) ih

end Logs

def error? {ε α : Type} : Except ε α → Option ε
  | .ok _ => none
  | .error e => some e

theorem error?_eq_some {ε α : Type} {x : Except ε α} {e : ε} :
    error? x = some e ↔ x = .error e := by
  cases x <;> simp [error?]

/-- A computed result is there and satisfies what can be computed from it. -/
theorem ok_of_any {ε α : Type} {x : Except ε α} {p : α → Prop} [DecidablePred p]
    (h : x.toOption.any fun a => decide (p a)) : ∃ a, x = .ok a ∧ p a := by
  cases x with
  | error e => cases h
  | ok a => exact ⟨a, rfl, of_decide_eq_true h⟩

end SchemaUpdate.Lib
