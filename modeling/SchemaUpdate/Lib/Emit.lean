import SchemaUpdate.Lib.Result

/-! # What a run emits

A run that can fail, with an output for each of its steps. A relation between outputs and
states that holds of every step, and that composes, holds of the run. -/

namespace SchemaUpdate.Lib

variable {σ α β ε : Type}

def onOk (x : Except ε α) (f : α → List β) : List β :=
  match x with
  | .ok a => f a
  | .error _ => []

@[simp] theorem onOk_ok (a : α) (f : α → List β) : onOk (.ok a : Except ε α) f = f a := rfl

def emitted (step : σ → α → Except ε σ) (out : σ → α → List β) : σ → List α → List β
  | _, [] => []
  | s, a :: as => out s a ++ onOk (step s a) fun s' => emitted step out s' as

theorem emitted_rel {step : σ → α → Except ε σ} {g : σ → α → List β}
    {R : List β → σ → σ → Prop} (refl : ∀ s, R [] s s)
    (trans : ∀ {l l' s t u}, R l s t → R l' t u → R (l ++ l') s u) {as : List α}
    (hstep : ∀ s, ∀ a ∈ as, ∀ s', step s a = .ok s' → R (g s a) s s') {s t : σ}
    (h : as.foldlM step s = .ok t) : R (emitted step g s as) s t := by
  induction as generalizing s with
  | nil =>
    cases h
    exact refl t
  | cons a as ih =>
    rw [List.foldlM_cons] at h
    obtain ⟨s', hs', h⟩ := bind_eq_ok.mp h
    rw [emitted, hs', onOk_ok]
    exact trans (hstep s a (by simp) s' hs') (ih (fun s b hb => hstep s b (by simp [hb])) h)

end SchemaUpdate.Lib
