import Mathlib.Data.Finset.Card
import Mathlib.Data.List.Basic

/-! # Replacing values one after the other

A list of pairs says which value is replaced by which. Carried out one after the
other on a collection that is searched by value, a replacement can meet what an
earlier one has put in. -/

namespace SchemaUpdate.Lib

variable {α : Type}

/-! ## In a set -/

/-- Each pair puts its second value in and then takes its first out. What is left at the end was
there and never taken out, or was put in and not taken out by that pair or a later one. -/
def Lasts (S : α → Prop) (R : List (α × α)) (y : α) : Prop :=
  (S y ∧ ∀ q ∈ R, q.1 ≠ y) ∨
    ∃ pre p post, R = pre ++ p :: post ∧ p.2 = y ∧ p.1 ≠ y ∧ ∀ q ∈ post, q.1 ≠ y

theorem lasts_nil {S : α → Prop} {y : α} : Lasts S [] y ↔ S y := by
  simp [Lasts]

theorem lasts_cons {S : α → Prop} {p : α × α} {R : List (α × α)} {y : α} :
    Lasts S (p :: R) y ↔ Lasts (fun z => z ≠ p.1 ∧ (z = p.2 ∨ S z)) R y := by
  constructor
  · rintro (⟨hy, hout⟩ | ⟨pre, p', post, heq, hin, hne, hout⟩)
    · obtain ⟨hp, hR⟩ := List.forall_mem_cons.mp hout
      exact .inl ⟨⟨Ne.symm hp, .inr hy⟩, hR⟩
    · cases pre with
      | nil =>
        cases heq
        exact .inl ⟨⟨Ne.symm hne, .inl hin.symm⟩, hout⟩
      | cons q pre =>
        cases heq
        exact .inr ⟨pre, p', post, rfl, hin, hne, hout⟩
  · rintro (⟨⟨hne, rfl | hy⟩, hout⟩ | ⟨pre, p', post, rfl, hin, hne, hout⟩)
    · exact .inr ⟨[], p, R, rfl, rfl, Ne.symm hne, hout⟩
    · exact .inl ⟨hy, List.forall_mem_cons.mpr ⟨Ne.symm hne, hout⟩⟩
    · exact .inr ⟨p :: pre, p', post, rfl, hin, hne, hout⟩

def replaced [DecidableEq α] (S : Finset α) (p : α × α) : Finset α := (insert p.2 S).erase p.1

theorem mem_foldl_replaced [DecidableEq α] (R : List (α × α)) (S : Finset α) (y : α) :
    y ∈ R.foldl replaced S ↔ Lasts (· ∈ S) R y := by
  induction R generalizing S with
  | nil => exact lasts_nil.symm
  | cons p R ih =>
    rw [List.foldl_cons, ih, lasts_cons]
    simp only [replaced, Finset.mem_erase, Finset.mem_insert]

/-! ## In a list -/

variable [DecidableEq α] [BEq α] [LawfulBEq α] {l : List α}

omit [DecidableEq α] [LawfulBEq α] in
theorem replace_ne_nil (h : l ≠ []) (x y : α) : l.replace x y ≠ [] := by
  intro hnil
  have hlen := congrArg List.length hnil
  rw [List.length_replace] at hlen
  exact h (List.eq_nil_of_length_eq_zero hlen)

omit [BEq α] [LawfulBEq α] in
theorem mem_insert_before {x : α} (y : α) (hx : x ∈ l) :
    x ∈ l.takeWhile (· ≠ x) ++ y :: l.dropWhile (· ≠ x) := by
  rw [← List.takeWhile_append_dropWhile (p := (· ≠ x)) (l := l), List.mem_append] at hx
  rw [List.mem_append, List.mem_cons]
  exact hx.imp_right .inr

omit [BEq α] [LawfulBEq α] in
theorem length_insert_before (l : List α) (x y : α) :
    (l.takeWhile (· ≠ x) ++ y :: l.dropWhile (· ≠ x)).length = l.length + 1 := by
  have hsplit := congrArg List.length
    (List.takeWhile_append_dropWhile (p := fun z => decide (z ≠ x)) (l := l))
  rw [List.length_append] at hsplit
  rw [List.length_append, List.length_cons]
  omega

/-- To insert a value before the first one equal to the pivot, and then to erase the first one
equal to the pivot, is to replace that one. -/
theorem erase_insert_before {x : α} (y : α) (hx : x ∈ l) :
    (l.takeWhile (· ≠ x) ++ y :: l.dropWhile (· ≠ x)).erase x = l.replace x y := by
  induction l with
  | nil => cases hx
  | cons a l ih =>
    by_cases ha : a = x
    · subst ha
      by_cases hy : y = a
      · subst hy
        simp
      · simp [hy]
    · have hx' : x ∈ l := (List.mem_cons.mp hx).resolve_left (Ne.symm ha)
      have hne : decide (a ≠ x) = true := by simpa using ha
      rw [List.takeWhile_cons, List.dropWhile_cons, if_pos hne, if_pos hne, List.cons_append,
        List.erase_cons_tail (by simpa using ha), ih hx', List.replace_cons,
        show (x == a) = false by simpa using Ne.symm ha]

end SchemaUpdate.Lib
