import SchemaUpdate.Lib.Relational

/-! # Runs of a system that takes events

A system is a fallible step on a state and an event. What holds at every step of a
run follows from the step with an invariant; events whose steps cannot be seen may
be struck from a run. -/

namespace SchemaUpdate.Lib

variable {ε α σ τ : Type}

def Along (step : σ → α → Except ε σ) (C : σ → α → Prop) : σ → List α → Prop
  | _, [] => True
  | s, e :: es => C s e ∧ ∀ s', step s e = .ok s' → Along step C s' es

variable {step : σ → α → Except ε σ} {C : σ → α → Prop} {es : List α} {s : σ} {I : σ → Prop}

/-- Every step of a run meets `C` when each event does in the state that the events before it
lead to. -/
theorem along_iff_split :
    Along step C s es ↔ ∀ pre e post, es = pre ++ e :: post →
      ∀ s', pre.foldlM step s = .ok s' → C s' e := by
  induction es generalizing s with
  | nil => exact iff_of_true trivial fun pre e post h => by cases pre <;> cases h
  | cons a es ih =>
    constructor
    · rintro ⟨ha, hes⟩ pre e post h s' hs'
      cases pre with
      | nil =>
        cases h
        cases hs'
        exact ha
      | cons b pre =>
        obtain ⟨rfl, rfl⟩ := List.cons.inj h
        rw [List.foldlM_cons] at hs'
        obtain ⟨s₁, hs₁, hs'⟩ := bind_eq_ok.mp hs'
        exact ih.mp (hes s₁ hs₁) pre e post rfl s' hs'
    · intro h
      refine ⟨h [] a es rfl s rfl, fun s₁ hs₁ => ih.mpr ?_⟩
      rintro pre e post rfl s' hs'
      refine h (a :: pre) e post rfl s' ?_
      rw [List.foldlM_cons, hs₁, ok_bind, hs']

/-- A step that meets `C` under the invariant meets `D` and keeps the invariant. -/
theorem Along.imp {D : σ → α → Prop}
    (hstep : ∀ s e, I s → C s e → D s e ∧ ∀ s', step s e = .ok s' → I s') (hs : I s)
    (h : Along step C s es) : Along step D s es := by
  induction es generalizing s with
  | nil => trivial
  | cons e es ih =>
    obtain ⟨hD, hI⟩ := hstep s e hs h.1
    exact ⟨hD, fun s' hs' => ih (hI s' hs') (h.2 s' hs')⟩

/-- What every step that meets the condition keeps holds in the state the run reaches. -/
theorem Along.inv (hstep : ∀ {s e s'}, I s → C s e → step s e = .ok s' → I s') {t : σ} (hs : I s)
    (h : Along step C s es) (hrun : es.foldlM step s = .ok t) : I t := by
  induction es generalizing s with
  | nil =>
    cases hrun
    exact hs
  | cons e es ih =>
    rw [List.foldlM_cons] at hrun
    obtain ⟨s', hs', hrun⟩ := bind_eq_ok.mp hrun
    exact ih (hstep hs h.1 hs') (h.2 s' hs') hrun

/-- What holds of every event may be used at every step. -/
theorem Along.and_event {P : α → Prop} (hP : ∀ e ∈ es, P e) (h : Along step C s es) :
    Along step (fun s e => C s e ∧ P e) s es := by
  induction es generalizing s with
  | nil => trivial
  | cons e es ih =>
    exact ⟨⟨h.1, hP e (by simp)⟩,
      fun s' hs' => ih (fun e' he' => hP e' (by simp [he'])) (h.2 s' hs')⟩

/-- A condition on the steps that decides, under the invariant, whether a step has the property
`P`: a run that meets it has the property at every step, and a run that gets through and has the
property at every step meets it. -/
theorem Along.decides {P : σ → σ → Prop}
    (hstep : ∀ {s e s'}, I s → step s e = .ok s' → (P s s' ↔ C s e))
    (hinv : ∀ {s e s'}, I s → step s e = .ok s' → P s s' → I s') (hs : I s) :
    (Along step C s es → Along step (fun s e => ∀ s', step s e = .ok s' → P s s') s es) ∧
      (∀ t, es.foldlM step s = .ok t →
        Along step (fun s e => ∀ s', step s e = .ok s' → P s s') s es → Along step C s es) := by
  induction es generalizing s with
  | nil => exact ⟨fun _ => trivial, fun _ _ _ => trivial⟩
  | cons e es ih =>
    constructor
    · intro h
      refine ⟨fun s' hs' => (hstep hs hs').mpr h.1, fun s' hs' => ?_⟩
      exact (ih (hinv hs hs' ((hstep hs hs').mpr h.1))).1 (h.2 s' hs')
    · intro t ht h
      rw [List.foldlM_cons] at ht
      obtain ⟨s₁, hs₁, ht⟩ := bind_eq_ok.mp ht
      have hP := h.1 s₁ hs₁
      refine ⟨(hstep hs hs₁).mp hP, fun s' hs' => ?_⟩
      rw [hs₁] at hs'
      cases hs'
      exact (ih (hinv hs hs₁ hP)).2 t ht (h.2 s₁ hs₁)

/-- **Striking hidden events.** A hidden event succeeds and keeps the relation on its own
side, any other event keeps it when taken on both sides. -/
theorem RelRes.strike {step' : τ → α → Except ε τ} {R : σ → τ → Prop} {hidden : α → Bool}
    (hhid : ∀ s t e, R s t → C s e → hidden e = true → ∃ s', step s e = .ok s' ∧ R s' t)
    (hseen : ∀ s t e, R s t → C s e → hidden e = false → RelRes R (step s e) (step' t e)) {t : τ}
    (h : R s t) (hC : Along step C s es) :
    RelRes R (es.foldlM step s) ((es.filter fun e => !hidden e).foldlM step' t) := by
  induction es generalizing s t with
  | nil => exact .ok h
  | cons e es ih =>
    rw [List.foldlM_cons]
    cases he : hidden e with
    | true =>
      obtain ⟨s', hs', hR⟩ := hhid s t e h hC.1 he
      rw [hs', ok_bind, List.filter_cons_of_neg (by simp [he])]
      exact ih hR (hC.2 s' hs')
    | false =>
      rw [List.filter_cons_of_pos (by simp [he]), List.foldlM_cons]
      refine (hseen s t e h hC.1 he).bind_of_ok fun s' t' hs' hR => ?_
      exact ih hR (hC.2 s' hs')

end SchemaUpdate.Lib
