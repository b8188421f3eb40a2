import Mathlib.Data.List.Basic

/-! # Patterns with backtracking

The regular expressions that are a sequence of texts and greedy runs of characters: a run
gives back one character after the other until the rest of the pattern fits. Only the start
of the input has to fit. -/

namespace SchemaUpdate.Lib

variable {α : Type} [DecidableEq α]

def runs (p : α → Bool) : List α → List (List α × List α)
  | [] => [([], [])]
  | c :: s =>
    if p c then (runs p s).map (fun q => (c :: q.1, q.2)) ++ [([], c :: s)] else [([], c :: s)]

inductive Piece (α : Type)
  -- the text itself
  | text (t : List α)
  -- at most one such character
  | opt (p : α → Bool)
  -- at least one
  | many (p : α → Bool)
  -- any number, and they are remembered
  | group (p : α → Bool)

/-- What a piece remembers and what it leaves, the first choice first. -/
def Piece.run : Piece α → List α → List (List (List α) × List α)
  | .text t, s => if t.isPrefixOf s then [([], s.drop t.length)] else []
  | .opt p, s => ((runs p s).filter fun q => q.1.length ≤ 1).map fun q => ([], q.2)
  | .many p, s => ((runs p s).filter fun q => q.1 ≠ []).map fun q => ([], q.2)
  | .group p, s => (runs p s).map fun q => ([q.1], q.2)

/-- The remembered runs of the first way in which the pattern fits. -/
def fit : List (Piece α) → List α → Option (List (List α))
  | [], _ => some []
  | x :: xs, s => (x.run s).findSome? fun q => (fit xs q.2).map (q.1 ++ ·)

variable {s : List α}

omit [DecidableEq α] in
theorem head_of_prefixes {t t' : List α} {c c' : α} (ht : c :: t <+: s) (ht' : c' :: t' <+: s) :
    c = c' := by
  obtain ⟨r, rfl⟩ := ht
  obtain ⟨r', hr'⟩ := ht'
  exact (List.cons.inj hr').1.symm

theorem fit_text_none {t : List α} (h : ¬ t <+: s) (xs : List (Piece α)) :
    fit (.text t :: xs) s = none := by
  have hprefix : t.isPrefixOf s = false := by
    rw [← Bool.not_eq_true, List.isPrefixOf_iff_prefix]
    exact h
  simp [fit, Piece.run, hprefix]

end SchemaUpdate.Lib
