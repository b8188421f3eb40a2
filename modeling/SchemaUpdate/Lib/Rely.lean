import SchemaUpdate.Lib.Prog

/-! # Programs among others

What a program achieves while other programs work on the same server. The steps of the
others are known by a relation only; the own commands may be assumed to meet a condition,
and each of them is shown to keep to a second relation. -/

namespace SchemaUpdate.Lib

namespace Prog

variable {C : Type} {R : C → Type} {α β σ : Type}

/-- Between any two commands the others may move the server along `rely`. If every own command
finds the server as `cond` has it, then every own command moves the server along `guar`, and
the result is as stated from then on. -/
def Sure (serve : (c : C) → σ → R c × σ) (rely : σ → σ → Prop) (cond : C → σ → Prop)
    (guar : σ → σ → Prop) (post : α → σ → Prop) : Prog R α → σ → Prop
  | .ret a, s => ∀ s', rely s s' → post a s'
  | .call c k, s => ∀ s', rely s s' → cond c s' →
    guar s' (serve c s').2 ∧ (k (serve c s').1).Sure serve rely cond guar post (serve c s').2

variable {serve : (c : C) → σ → R c × σ} {rely guar : σ → σ → Prop} {cond : C → σ → Prop}
  {post : α → σ → Prop} {s : σ} {p : Prog R α}

theorem Sure.ret {a : α} (h : ∀ s', rely s s' → post a s') :
    (Prog.ret a : Prog R α).Sure serve rely cond guar post s := h

theorem Sure.call {c : C} {k : R c → Prog R α}
    (h : ∀ s', rely s s' → cond c s' → guar s' (serve c s').2 ∧
      (k (serve c s').1).Sure serve rely cond guar post (serve c s').2) :
    (Prog.call c k).Sure serve rely cond guar post s := h

theorem Sure.stable [IsTrans σ rely] {s' : σ} (h : p.Sure serve rely cond guar post s)
    (hs : rely s s') :
    p.Sure serve rely cond guar post s' := by
  cases p with
  | ret a => exact fun t ht => h t (Trans.trans hs ht)
  | call c k => exact fun t ht => h t (Trans.trans hs ht)

theorem Sure.bind [Std.Refl rely] {post' : β → σ → Prop} {f : α → Prog R β}
    (hp : p.Sure serve rely cond guar post s)
    (hf : ∀ a s', post a s' → (f a).Sure serve rely cond guar post' s') :
    (p.bind f).Sure serve rely cond guar post' s := by
  induction p generalizing s with
  | ret a => exact hf a s (hp s (Std.Refl.refl s))
  | call c k ih =>
    intro s' hs hc
    obtain ⟨hguar, hrest⟩ := hp s' hs hc
    exact ⟨hguar, ih _ hrest⟩

theorem Sure.mono {post' : α → σ → Prop} (h : p.Sure serve rely cond guar post s)
    (hpost : ∀ a s, post a s → post' a s) :
    p.Sure serve rely cond guar post' s := by
  induction p generalizing s with
  | ret a => exact fun s' hs => hpost a s' (h s' hs)
  | call c k ih => exact fun s' hs hc => ⟨(h s' hs hc).1, ih _ (h s' hs hc).2⟩

theorem Sure.weaken {guar' : σ → σ → Prop} (h : p.Sure serve rely cond guar post s)
    (hguar : ∀ s s', guar s s' → guar' s s') :
    p.Sure serve rely cond guar' post s := by
  induction p generalizing s with
  | ret a => exact h
  | call c k ih =>
    exact fun s' hs hc => ⟨hguar _ _ (h s' hs hc).1, ih _ (h s' hs hc).2⟩

/-- A program that keeps to what it relies on leaves the server further along. -/
theorem Sure.frame [IsTrans σ rely] (hguar : ∀ s s', guar s s' → rely s s') {t : σ}
    (h : p.Sure serve rely cond guar post s) (hs : rely t s) :
    p.Sure serve rely cond guar (fun a s' => post a s' ∧ rely t s') s := by
  induction p generalizing s with
  | ret a => exact fun s' hs' => ⟨h s' hs', Trans.trans hs hs'⟩
  | call c k ih =>
    intro s' hs' hc
    obtain ⟨hstep, hrest⟩ := h s' hs' hc
    exact ⟨hstep, ih _ hrest (Trans.trans (Trans.trans hs hs') (hguar _ _ hstep))⟩

theorem Sure.of_issues (h : ∀ c s, p.Issues c → cond c s → guar s (serve c s).2) (s : σ) :
    p.Sure serve rely cond guar (fun _ _ => True) s := by
  induction p generalizing s with
  | ret a => exact fun _ _ => trivial
  | call c k ih =>
    intro s' _ hc
    exact ⟨h c s' (.here c k) hc, ih _ (fun c' s'' hc' => h c' s'' (.later k _ hc')) _⟩

theorem of_call {P : Prog R α} {c : C} {k : R c → Prog R α} (hP : P = .call c k) {φ : C → Prop}
    (hc : φ c) : ∀ c' k', P = .call c' k' → φ c' := by
  intro c' k' hP'
  rw [hP] at hP'
  cases hP'
  exact hc

/-- Whatever the answers, a result in `E` is only reached through a program in `M`. -/
def Through (M : Prog R α → Prop) (E : α → Prop) : Prog R α → Prop
  | .ret a => M (.ret a) ∨ ¬ E a
  | .call c k => M (.call c k) ∨ ∀ r, (k r).Through M E

theorem Through.of_mem {M : Prog R α → Prop} {E : α → Prop} (h : M p) : p.Through M E := by
  cases p with
  | ret a => exact .inl h
  | call c k => exact .inl h

theorem Through.bind {M : Prog R β → Prop} {E : β → Prop} (p : Prog R α) {f : α → Prog R β}
    (hf : ∀ a, (f a).Through M E) : (p.bind f).Through M E := by
  induction p with
  | ret a => exact hf a
  | call c k ih => exact .inr ih

end Prog

namespace Pool

variable {C : Type} {R : C → Type} {ι α σ : Type} [DecidableEq ι]
  {serve : (c : C) → σ → R c × σ} {rely guar : σ → σ → Prop} {cond : C → σ → Prop}
  {post : α → σ → Prop}

/-- A step of `i` meets its condition, a step of another moves the server along `rely`. -/
def Relies (serve : (c : C) → σ → R c × σ) (rely : σ → σ → Prop) (cond : C → σ → Prop) (i : ι)
    (p : Pool R ι α σ) (j : ι) : Prop :=
  if j = i then ∀ c k, p.procs i = .call c k → cond c p.server
  else rely p.server (p.step serve j).server

variable {p : Pool R ι α σ} {i : ι} {sched : List ι}

theorem relies_self {c : C} {k : R c → Prog R α} (hp : p.procs i = .call c k)
    (hc : cond c p.server) : Relies serve rely cond i p i := by
  rw [Relies, if_pos rfl]
  exact Prog.of_call hp hc

/-- A step of any process keeps up what a process is sure of. -/
theorem sure_step [IsTrans σ rely] [Std.Refl rely] {j : ι}
    (hp : (p.procs i).Sure serve rely cond guar post p.server) (h : Relies serve rely cond i p j) :
    ((p.step serve j).procs i).Sure serve rely cond guar post (p.step serve j).server := by
  unfold Relies at h
  by_cases hj : j = i
  · subst hj
    rw [if_pos rfl] at h
    cases hprog : p.procs j with
    | ret a =>
      rw [step_ret serve hprog]
      exact hp
    | call c k =>
      rw [hprog] at hp
      rw [step_call serve hprog]
      simp only [Function.update_self]
      exact (hp p.server (Std.Refl.refl _) (h c k hprog)).2
  · rw [if_neg hj] at h
    rw [step_ne serve p (Ne.symm hj)]
    exact hp.stable h

/-- So does a run. -/
theorem sure_run [IsTrans σ rely] [Std.Refl rely]
    (hp : (p.procs i).Sure serve rely cond guar post p.server)
    (h : p.Along serve (Relies serve rely cond i) sched) :
    ((p.run serve sched).procs i).Sure serve rely cond guar post (p.run serve sched).server :=
  h.inv (I := fun p => (p.procs i).Sure serve rely cond guar post p.server)
    (fun _ _ hp hj => sure_step hp hj) hp

theorem sure_own [Std.Refl rely] [Std.Refl guar]
    (hp : (p.procs i).Sure serve rely cond guar post p.server)
    (h : ∀ c k, p.procs i = .call c k → cond c p.server) :
    guar p.server (p.step serve i).server := by
  cases hprog : p.procs i with
  | ret a =>
    rw [step_ret serve hprog]
    exact Std.Refl.refl _
  | call c k =>
    rw [hprog] at hp
    rw [step_call serve hprog]
    exact (hp p.server (Std.Refl.refl _) (h c k hprog)).1

/-- When all the programs keep to what the others rely on, each achieves what it is sure of,
in every order, and the server moves along. -/
theorem sure_all [IsTrans σ rely] [Std.Refl rely] {cond : ι → C → σ → Prop}
    {guar : ι → σ → σ → Prop} [∀ i, Std.Refl (guar i)] {post : ι → α → σ → Prop}
    (hp : ∀ i, (p.procs i).Sure serve rely (cond i) (guar i) (post i) p.server)
    (hguar : ∀ i s s', guar i s s' → rely s s')
    (h : p.Along serve (fun p i => ∀ c k, p.procs i = .call c k → cond i c p.server) sched) :
    (∀ i, ((p.run serve sched).procs i).Sure serve rely (cond i) (guar i) (post i)
      (p.run serve sched).server) ∧ rely p.server (p.run serve sched).server := by
  refine h.inv (I := fun q =>
    (∀ i, (q.procs i).Sure serve rely (cond i) (guar i) (post i) q.server) ∧
      rely p.server q.server) ?_ ⟨hp, Std.Refl.refl _⟩
  intro q j hq hcond
  have hstep : rely q.server (q.step serve j).server := hguar j _ _ (sure_own (hq.1 j) hcond)
  refine ⟨fun i => sure_step (hq.1 i) ?_, Trans.trans hq.2 hstep⟩
  unfold Relies
  split
  · rename_i hj
    subst hj
    exact hcond
  · exact hstep

/-- A program that has ended in `E` was at some moment in `M`. -/
theorem through_run {M : Prog R α → Prop} {E : α → Prop} {a : α} (hp : (p.procs i).Through M E)
    (hend : (p.run serve sched).procs i = .ret a) (ha : E a) :
    ∃ s t, sched = s ++ t ∧ M ((p.run serve s).procs i) := by
  by_cases hnow : M (p.procs i)
  · exact ⟨[], sched, rfl, hnow⟩
  · induction sched generalizing p with
    | nil =>
      have hend : p.procs i = .ret a := hend
      rw [hend] at hp hnow
      exact absurd ha (hp.resolve_left hnow)
    | cons j sched ih =>
      have hnext : ((p.step serve j).procs i).Through M E := by
        by_cases hj : i = j
        · subst hj
          cases hprog : p.procs i with
          | ret b =>
            rw [step_ret serve hprog]
            exact hp
          | call c k =>
            rw [hprog] at hp hnow
            rw [step_call serve hprog]
            simp only [Function.update_self]
            exact hp.resolve_left hnow _
        · rw [step_ne serve p hj]
          exact hp
      by_cases hmem : M ((p.step serve j).procs i)
      · exact ⟨[j], sched, rfl, hmem⟩
      · obtain ⟨s, t, rfl, hs⟩ := ih hnext hend hmem
        exact ⟨j :: s, t, rfl, hs⟩

end Pool

end SchemaUpdate.Lib
