import Mathlib.Data.List.Count
import Mathlib.Logic.Function.Basic

/-! # Programs that talk to a server

A program issues commands one at a time and goes on with the answers. It is run
alone, or as one of any number of programs whose commands reach the server in any
order. -/

namespace SchemaUpdate.Lib

/-- A program over commands `C` with answers `R`. -/
inductive Prog {C : Type} (R : C → Type) (α : Type) : Type
  | ret (a : α)
  | call (c : C) (k : R c → Prog R α)

namespace Prog

variable {C : Type} {R : C → Type} {α β γ σ : Type}

def bind : Prog R α → (α → Prog R β) → Prog R β
  | .ret a, f => f a
  | .call c k, f => .call c fun r => (k r).bind f

@[simp]
theorem ret_bind (a : α) (f : α → Prog R β) : (Prog.ret a).bind f = f a := rfl

@[simp]
theorem call_bind (c : C) (k : R c → Prog R α) (f : α → Prog R β) :
    (Prog.call c k).bind f = .call c fun r => (k r).bind f := rfl

theorem bind_assoc (p : Prog R α) (f : α → Prog R β) (g : β → Prog R γ) :
    (p.bind f).bind g = p.bind fun a => (f a).bind g := by
  induction p with
  | ret a => rfl
  | call c k ih =>
    simp only [call_bind]
    congr 1
    funext r
    exact ih r

/-- The program may issue the command, given suitable answers. -/
inductive Issues : Prog R α → C → Prop
  | here (c : C) (k : R c → Prog R α) : Issues (.call c k) c
  | later {c c' : C} (k : R c → Prog R α) (r : R c) (h : Issues (k r) c') : Issues (.call c k) c'

def Only (P : C → Prop) : Prog R α → Prop
  | .ret _ => True
  | .call c k => P c ∧ ∀ r, (k r).Only P

variable {p : Prog R α} {f : α → Prog R β} {P : C → Prop}

theorem Only.call {c : C} {k : R c → Prog R α} (hc : P c) (hk : ∀ r, (k r).Only P) :
    (Prog.call c k).Only P := ⟨hc, hk⟩

theorem Only.issues (hp : p.Only P) {c : C} (h : p.Issues c) : P c := by
  induction h with
  | here => exact hp.1
  | later k r _ ih => exact ih (hp.2 r)

theorem Only.imp {Q : C → Prop} (hp : p.Only P) (h : ∀ c, P c → Q c) : p.Only Q := by
  induction p with
  | ret a => trivial
  | call c k ih => exact ⟨h c hp.1, fun r => ih r (hp.2 r)⟩

theorem Only.bind (hp : p.Only P) (hf : ∀ a, (f a).Only P) : (p.bind f).Only P := by
  induction p with
  | ret a => exact hf a
  | call c k ih => exact ⟨hp.1, fun r => ih r (hp.2 r)⟩

def Ends (P : α → Prop) : Prog R α → Prop
  | .ret a => P a
  | .call _ k => ∀ r, (k r).Ends P

theorem Ends.bind {P : α → Prop} {Q : β → Prop} (hp : p.Ends P) (hf : ∀ a, P a → (f a).Ends Q) :
    (p.bind f).Ends Q := by
  induction p with
  | ret a => exact hf a hp
  | call c k ih => exact fun r => ih r (hp r)

def Short : Nat → Prog R α → Prop
  | _, .ret _ => True
  | 0, .call _ _ => False
  | n + 1, .call _ k => ∀ r, (k r).Short n

theorem Short.mono {n m : Nat} (hp : p.Short n) (h : n ≤ m) : p.Short m := by
  induction p generalizing n m with
  | ret a => simp [Short]
  | call c k ih =>
    match n, m with
    | 0, _ => exact absurd hp id
    | n + 1, 0 => omega
    | n + 1, m + 1 => exact fun r => ih r (hp r) (by omega)

/-! ## One program alone -/

section Run

variable (serve : (c : C) → σ → R c × σ)

def run : Prog R α → σ → α × σ
  | .ret a, s => (a, s)
  | .call c k, s => (k (serve c s).1).run (serve c s).2

@[simp]
theorem run_ret (a : α) (s : σ) : (Prog.ret a : Prog R α).run serve s = (a, s) := rfl

@[simp]
theorem run_call (c : C) (k : R c → Prog R α) (s : σ) :
    (Prog.call c k).run serve s = (k (serve c s).1).run serve (serve c s).2 := rfl

theorem run_bind (p : Prog R α) (f : α → Prog R β) (s : σ) :
    (p.bind f).run serve s = (f (p.run serve s).1).run serve (p.run serve s).2 := by
  induction p generalizing s with
  | ret a => rfl
  | call c k ih => exact ih _ _

theorem Ends.run {P : α → Prop} {p : Prog R α} (hp : p.Ends P) (s : σ) : P (p.run serve s).1 := by
  induction p generalizing s with
  | ret a => exact hp
  | call c k ih => exact ih _ (hp _) _

/-- What every command of the program keeps, the program keeps. -/
theorem run_keeps {I : σ → Prop} {p : Prog R α}
    (h : ∀ c s, Issues p c → I s → I (serve c s).2) {s : σ} (hs : I s) : I (p.run serve s).2 := by
  induction p generalizing s with
  | ret a => exact hs
  | call c k ih =>
    refine ih _ (fun c' s' hc' hs' => h c' s' (.later k _ hc') hs') ?_
    exact h c s (.here c k) hs

/-- Every command meets the condition in the state it reaches the server in. -/
def Along (cond : C → σ → Prop) : Prog R α → σ → Prop
  | .ret _, _ => True
  | .call c k, s => cond c s ∧ (k (serve c s).1).Along cond (serve c s).2

theorem along_bind (cond : C → σ → Prop) (p : Prog R α) (f : α → Prog R β) (s : σ) :
    (p.bind f).Along serve cond s ↔
      p.Along serve cond s ∧ (f (p.run serve s).1).Along serve cond (p.run serve s).2 := by
  induction p generalizing s with
  | ret a => simp [Along]
  | call c k ih => simp only [call_bind, Along, run_call, ih, and_assoc]

end Run

end Prog

/-! ## One command -/

namespace Prog

variable {C : Type} {R : C → Type} {α β σ : Type} (serve : (c : C) → σ → R c × σ)

def next : Prog R α → σ → Prog R α × σ
  | .ret a, s => (.ret a, s)
  | .call c k, s => (k (serve c s).1, (serve c s).2)

def Busy (p : Prog R α) : Prop := ∃ c k, p = .call c k

theorem not_busy_ret (a : α) : ¬ (Prog.ret a : Prog R α).Busy := by
  rintro ⟨c, k, h⟩
  cases h

theorem Busy.bind {p : Prog R α} (h : p.Busy) (f : α → Prog R β) : (p.bind f).Busy := by
  obtain ⟨c, k, rfl⟩ := h
  exact ⟨c, _, rfl⟩

theorem Busy.next_bind {p : Prog R α} (h : p.Busy) (f : α → Prog R β) (s : σ) :
    (p.bind f).next serve s = ((p.next serve s).1.bind f, (p.next serve s).2) := by
  obtain ⟨c, k, rfl⟩ := h
  rfl

end Prog

/-! ## Many programs -/

/-- The server and the programs that are under way. -/
structure Pool {C : Type} (R : C → Type) (ι α σ : Type) where
  server : σ
  procs : ι → Prog R α

namespace Pool

variable {C : Type} {R : C → Type} {ι α σ : Type} [DecidableEq ι]
  (serve : (c : C) → σ → R c × σ)

/-- The next command of the program `i` reaches the server. -/
def step (p : Pool R ι α σ) (i : ι) : Pool R ι α σ :=
  match p.procs i with
  | .ret _ => p
  | .call c k => ⟨(serve c p.server).2, Function.update p.procs i (k (serve c p.server).1)⟩

/-- The commands reach the server in the order of the schedule. -/
def run (p : Pool R ι α σ) (sched : List ι) : Pool R ι α σ := sched.foldl (step serve) p

variable {p : Pool R ι α σ} {i : ι} {sched : List ι} {cond : Pool R ι α σ → ι → Prop}

theorem step_ret {a : α} (h : p.procs i = .ret a) : p.step serve i = p := by
  rw [step, h]

theorem step_call {c : C} {k : R c → Prog R α} (h : p.procs i = .call c k) :
    p.step serve i =
      ⟨(serve c p.server).2, Function.update p.procs i (k (serve c p.server).1)⟩ := by
  rw [step, h]

theorem step_next (p : Pool R ι α σ) (i : ι) :
    p.step serve i = ⟨((p.procs i).next serve p.server).2,
      Function.update p.procs i ((p.procs i).next serve p.server).1⟩ := by
  cases h : p.procs i with
  | ret a =>
    rw [step_ret serve h, Prog.next, ← h, Function.update_eq_self]
  | call c k => exact step_call serve h

theorem step_rel {rel : σ → σ → Prop} (hrefl : ∀ s, rel s s) (h : ∀ c s, rel s (serve c s).2)
    (p : Pool R ι α σ) (i : ι) : rel p.server (p.step serve i).server := by
  unfold step
  split
  · exact hrefl _
  · exact h _ _

theorem step_ne (p : Pool R ι α σ) {j : ι} (h : j ≠ i) : (p.step serve i).procs j = p.procs j := by
  unfold step
  split
  · rfl
  · exact Function.update_of_ne h ..

theorem run_append (p : Pool R ι α σ) (s t : List ι) :
    p.run serve (s ++ t) = (p.run serve s).run serve t := List.foldl_append ..

theorem run_ended {a : α} (h : p.procs i = .ret a) (sched : List ι) :
    (p.run serve sched).procs i = .ret a := by
  induction sched generalizing p with
  | nil => exact h
  | cons j sched ih =>
    refine ih ?_
    by_cases hj : i = j
    · rw [← hj, step_ret serve h, h]
    · rw [step_ne serve p hj, h]

/-- A process with at most `n` commands has ended after `n` turns. -/
theorem run_short {n : Nat} (hp : (p.procs i).Short n) (hn : n ≤ sched.count i) :
    ∃ a, (p.run serve sched).procs i = .ret a := by
  induction sched generalizing p n with
  | nil =>
    have hn : n = 0 := by simpa using hn
    subst hn
    cases hi : p.procs i with
    | ret a => exact ⟨a, hi⟩
    | call c k =>
      rw [hi] at hp
      exact absurd hp id
  | cons j sched ih =>
    by_cases hj : j = i
    · subst hj
      cases hi : p.procs j with
      | ret a => exact ⟨a, run_ended serve hi _⟩
      | call c k =>
        rw [hi] at hp
        match n with
        | 0 => exact absurd hp id
        | n + 1 =>
          rw [List.count_cons_self] at hn
          refine ih (p := p.step serve j) (n := n) ?_ (Nat.le_of_succ_le_succ hn)
          rw [step_call serve hi]
          simpa using hp _
    · rw [List.count_cons_of_ne hj] at hn
      refine ih (p := p.step serve j) (n := n) ?_ hn
      rw [step_ne serve p (Ne.symm hj)]
      exact hp

/-- What every command of the programs keeps, any schedule keeps. -/
theorem run_only {P : ι → C → Prop} {I : σ → Prop} (h : ∀ i c s, P i c → I s → I (serve c s).2)
    (hp : ∀ i, (p.procs i).Only (P i)) (hs : I p.server) (sched : List ι) :
    I (p.run serve sched).server := by
  induction sched generalizing p with
  | nil => exact hs
  | cons i sched ih =>
    cases hi : p.procs i with
    | ret a => exact ih (p := p.step serve i) (by rwa [step_ret serve hi]) (by rwa [step_ret serve hi])
    | call c k =>
      obtain ⟨hc, hk⟩ := hi ▸ hp i
      refine ih (p := p.step serve i) (fun j => ?_) ?_ <;> rw [step_call serve hi]
      · by_cases hj : j = i
        · subst hj
          simpa using hk _
        · simpa [hj] using hp j
      · exact h i c _ hc hs

def tally (hit : Pool R ι α σ → ι → Bool) : Pool R ι α σ → List ι → Nat
  | _, [] => 0
  | p, i :: is => (if hit p i then 1 else 0) + tally hit (p.step serve i) is

def Along (cond : Pool R ι α σ → ι → Prop) : Pool R ι α σ → List ι → Prop
  | _, [] => True
  | p, i :: is => cond p i ∧ Along cond (p.step serve i) is

theorem along_of_forall (h : ∀ p i, cond p i) (p : Pool R ι α σ) (sched : List ι) :
    p.Along serve cond sched := by
  induction sched generalizing p with
  | nil => trivial
  | cons i sched ih => exact ⟨h p i, ih _⟩

theorem along_true (p : Pool R ι α σ) (sched : List ι) :
    p.Along serve (fun _ _ => True) sched := along_of_forall serve (fun _ _ => trivial) p sched

theorem along_append {s t : List ι} :
    p.Along serve cond (s ++ t) ↔ p.Along serve cond s ∧ (p.run serve s).Along serve cond t := by
  induction s generalizing p with
  | nil => exact ⟨fun h => ⟨trivial, h⟩, fun h => h.2⟩
  | cons i s ih =>
    show cond p i ∧ (p.step serve i).Along serve cond (s ++ t) ↔
      (cond p i ∧ (p.step serve i).Along serve cond s) ∧
        ((p.step serve i).run serve s).Along serve cond t
    rw [ih, and_assoc]

theorem Along.imp {serve : (c : C) → σ → R c × σ} {cond' : Pool R ι α σ → ι → Prop}
    (h : Along serve cond p sched) (himp : ∀ p i, cond p i → cond' p i) :
    Along serve cond' p sched := by
  induction sched generalizing p with
  | nil => trivial
  | cons i sched ih => exact ⟨himp p i h.1, ih h.2⟩

/-- What every step that meets the condition keeps, the whole schedule keeps. -/
theorem Along.inv {serve : (c : C) → σ → R c × σ} {I : Pool R ι α σ → Prop}
    (hstep : ∀ p i, I p → cond p i → I (p.step serve i)) (hp : I p) (h : Along serve cond p sched) :
    I (p.run serve sched) := by
  induction sched generalizing p with
  | nil => exact hp
  | cons i sched ih => exact ih (hstep p i hp h.1) h.2

theorem Along.inv_tally {serve : (c : C) → σ → R c × σ} {hit : Pool R ι α σ → ι → Bool}
    {I : Pool R ι α σ → Nat → Prop}
    (hstep : ∀ p n i, I p n → cond p i → I (p.step serve i) (n + if hit p i then 1 else 0))
    {n : Nat} (hp : I p n) (h : Along serve cond p sched) :
    I (p.run serve sched) (n + tally serve hit p sched) := by
  induction sched generalizing p n with
  | nil => exact hp
  | cons i sched ih =>
    have hrest := ih (hstep p n i hp h.1) h.2
    rw [Nat.add_assoc] at hrest
    exact hrest

end Pool

end SchemaUpdate.Lib
