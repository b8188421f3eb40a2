import SchemaUpdate.Lib.Result

/-! # Two computations side by side

Two fallible computations are related when both fail with the same error or both
succeed with related results. Sequencing and loops keep that, so a program is
compared with itself in two states by going through its text once. -/

namespace SchemaUpdate.Lib

variable {ε α β γ δ σ τ : Type}

inductive RelRes (R : α → β → Prop) : Except ε α → Except ε β → Prop
  | ok {a : α} {b : β} : R a b → RelRes R (.ok a) (.ok b)
  | error (e : ε) : RelRes R (.error e) (.error e)

namespace RelRes

variable {R : α → β → Prop} {S : γ → δ → Prop}
  {x : Except ε α} {y : Except ε β} {f : α → Except ε γ} {g : β → Except ε δ}

theorem bind (h : RelRes R x y) (hf : ∀ a b, R a b → RelRes S (f a) (g b)) :
    RelRes S (x >>= f) (y >>= g) := by
  cases h with
  | ok hab => exact hf _ _ hab
  | error e => exact .error e

/-- What follows may use that the left side succeeded. -/
theorem bind_of_ok (h : RelRes R x y) (hf : ∀ a b, x = .ok a → R a b → RelRes S (f a) (g b)) :
    RelRes S (x >>= f) (y >>= g) := by
  cases h with
  | ok hab => exact hf _ _ rfl hab
  | error e => exact .error e

theorem bind_same {y : Except ε α} (h : y = x) {g : α → Except ε δ}
    (hf : ∀ a, x = .ok a → RelRes S (f a) (g a)) : RelRes S (x >>= f) (y >>= g) := by
  subst h
  cases hx : y with
  | ok a => exact hf a hx
  | error e => exact .error e

variable (h : RelRes R x y)

include h

theorem map {f : α → γ} {g : β → δ} (hf : ∀ a b, R a b → S (f a) (g b)) :
    RelRes S (f <$> x) (g <$> y) := by
  cases h with
  | ok hab => exact .ok (hf _ _ hab)
  | error e => exact .error e

theorem mono {R' : α → β → Prop} (hR : ∀ a b, R a b → R' a b) : RelRes R' x y := by
  cases h with
  | ok hab => exact .ok (hR _ _ hab)
  | error e => exact .error e

theorem of_ok {a : α} (hx : x = .ok a) : ∃ b, y = .ok b ∧ R a b := by
  subst hx
  cases h with
  | ok hab => exact ⟨_, rfl, hab⟩

theorem ok_of {b : β} (hy : y = .ok b) : ∃ a, x = .ok a ∧ R a b := by
  subst hy
  cases h with
  | ok hab => exact ⟨_, rfl, hab⟩

/-- What the results on the two sides have in common is reached on both or on neither. -/
theorem exists_ok_iff {P : α → Prop} {Q : β → Prop} (hPQ : ∀ a b, R a b → (P a ↔ Q b)) :
    (∃ a, x = .ok a ∧ P a) ↔ ∃ b, y = .ok b ∧ Q b := by
  cases h with
  | ok hab =>
    constructor
    · rintro ⟨_, ⟨⟩, hP⟩
      exact ⟨_, rfl, (hPQ _ _ hab).mp hP⟩
    · rintro ⟨_, ⟨⟩, hQ⟩
      exact ⟨_, rfl, (hPQ _ _ hab).mpr hQ⟩
  | error e =>
    constructor <;> rintro ⟨_, h, -⟩ <;> cases h

omit h

theorem foldlM {T : σ → τ → Prop} {f : σ → α → Except ε σ} {g : τ → α → Except ε τ} {l : List α}
    (step : ∀ s t, T s t → ∀ x ∈ l, RelRes T (f s x) (g t x)) {s : σ} {t : τ} (h : T s t) :
    RelRes T (l.foldlM f s) (l.foldlM g t) := by
  induction l generalizing s t with
  | nil => exact .ok h
  | cons x l ih =>
    rw [List.foldlM_cons, List.foldlM_cons]
    refine (step s t h x (by simp)).bind fun a b hab => ?_
    exact ih (fun s t hst y hy => step s t hst y (by simp [hy])) hab

end RelRes

end SchemaUpdate.Lib
