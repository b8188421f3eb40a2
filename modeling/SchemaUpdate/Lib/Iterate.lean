import Mathlib.Data.Finset.Card

/-! # Iterating a partial step over finitely many states

A step that is undefined somewhere stops. If it is still defined after as many
steps as there are states to visit, a state was visited twice and it never stops:
a bounded search that runs out of a bound of that size has met a real loop. -/

namespace SchemaUpdate.Lib

variable {α : Type}

def iter (f : α → Option α) : Nat → α → Option α
  | 0, a => some a
  | n + 1, a => (f a).bind (iter f n)

theorem iter_add (f : α → Option α) (m n : Nat) (a : α) :
    iter f (m + n) a = (iter f m a).bind (iter f n) := by
  induction m generalizing a with
  | zero => simp [iter]
  | succ m ih =>
    rw [Nat.succ_add]
    simp only [iter]
    cases f a with
    | none => rfl
    | some b => exact ih b

variable {f : α → Option α} {a : α}

theorem iter_isSome_le {m n : Nat} (h : (iter f n a).isSome) (hm : m ≤ n) :
    (iter f m a).isSome := by
  obtain ⟨k, rfl⟩ := Nat.exists_eq_add_of_le hm
  rw [iter_add] at h
  cases hf : iter f m a with
  | none => simp [hf] at h
  | some b => rfl

/-- Some state is met twice on a walk that outlasts the list of its states. -/
theorem exists_repeat {states : List α} (hin : ∀ n b, iter f n a = some b → b ∈ states)
    (h : (iter f states.length a).isSome) :
    ∃ i j, i < j ∧ j ≤ states.length ∧ iter f i a = iter f j a := by
  classical
  have hcard : (states.map some).toFinset.card < (Finset.range (states.length + 1)).card := by
    rw [Finset.card_range, Nat.lt_succ_iff]
    exact (List.toFinset_card_le _).trans_eq (List.length_map _)
  obtain ⟨i, hi, j, hj, hne, heq⟩ := Finset.exists_ne_map_eq_of_card_lt_of_maps_to
    (f := fun i => iter f i a) hcard fun i hi => by
      obtain ⟨b, hb⟩ := Option.isSome_iff_exists.mp
        (iter_isSome_le h (Nat.lt_succ_iff.mp (Finset.mem_range.mp hi)))
      simp [hb, hin i b hb]
  rw [Finset.mem_range, Nat.lt_succ_iff] at hi hj
  rcases Nat.lt_or_gt_of_ne hne with hlt | hlt
  · exact ⟨i, j, hlt, hj, heq⟩
  · exact ⟨j, i, hlt, hi, heq.symm⟩

/-- **A walk that outlasts the list of its states never stops.** -/
theorem iter_forever {states : List α} (hin : ∀ n b, iter f n a = some b → b ∈ states)
    (h : (iter f states.length a).isSome) (n : Nat) : (iter f n a).isSome := by
  obtain ⟨i, j, hij, hj, heq⟩ := exists_repeat hin h
  induction n using Nat.strong_induction_on with
  | _ n ih =>
    by_cases hn : n ≤ j
    · exact iter_isSome_le (iter_isSome_le h hj) hn
    · -- cut one turn of the loop out of the walk
      have hcut := ih (i + (n - j)) (by omega)
      rw [iter_add, heq, ← iter_add] at hcut
      rwa [show j + (n - j) = n by omega] at hcut

end SchemaUpdate.Lib
