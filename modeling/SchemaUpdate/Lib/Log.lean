import Mathlib.Data.List.Basic
import Mathlib.Data.List.Nodup

/-! # Logs of tagged entries

A log is appended to at its end, and an item remembers the tag of the entry it has
seen last. What it still has to see is what stands after that entry. -/

namespace SchemaUpdate.Lib

variable {τ β σ : Type} [DecidableEq τ]

/-- What stands after the first entry tagged `t`, or the whole log when there is none. -/
def after (t : τ) (log : List (τ × β)) : List (τ × β) :=
  match log.dropWhile fun p => p.1 ≠ t with
  | [] => log
  | _ :: rest => rest

variable {t : τ} {log : List (τ × β)}

theorem after_split {pre rest : List (τ × β)} {b : β} (h : t ∉ pre.map Prod.fst) :
    after t (pre ++ (t, b) :: rest) = rest := by
  have hdrop : (pre ++ (t, b) :: rest).dropWhile (fun p => p.1 ≠ t) = (t, b) :: rest := by
    induction pre with
    | nil => simp
    | cons p pre ih =>
      simp only [List.map_cons, List.mem_cons, not_or] at h
      have hp : p.1 ≠ t := fun hp => h.1 hp.symm
      simpa [hp] using ih h.2
  rw [after, hdrop]

theorem exists_split (h : t ∈ log.map Prod.fst) :
    ∃ pre b rest, log = pre ++ (t, b) :: rest ∧ t ∉ pre.map Prod.fst := by
  induction log with
  | nil => cases h
  | cons p log ih =>
    obtain ⟨u, b⟩ := p
    by_cases hu : u = t
    · subst hu
      exact ⟨[], b, log, rfl, by simp⟩
    · have hmem : t ∈ log.map Prod.fst := by
        simpa [Ne.symm hu] using h
      obtain ⟨pre, c, rest, hlog, hpre⟩ := ih hmem
      refine ⟨(u, b) :: pre, c, rest, by rw [hlog]; rfl, ?_⟩
      simpa [Ne.symm hu] using hpre

/-- **An item that knows its place in the log gets exactly what is appended later.** -/
theorem after_append (h : t ∈ log.map Prod.fst) (more : List (τ × β)) :
    after t (log ++ more) = after t log ++ more := by
  obtain ⟨pre, b, rest, rfl, hpre⟩ := exists_split h
  rw [after_split hpre, List.append_assoc, List.cons_append, after_split hpre]

theorem after_last {b : β} (hn : (log.map Prod.fst).Nodup) (hl : log.getLast? = some (t, b)) :
    after t log = [] := by
  obtain ⟨pre, rfl⟩ := List.getLast?_eq_some_iff.mp hl
  apply after_split
  rw [List.map_append, List.nodup_append] at hn
  intro hmem
  exact hn.2.2 t hmem t (by simp) rfl

theorem after_getLast? {p : τ × β} (h : t ∈ log.map Prod.fst) (hl : log.getLast? = some p)
    (hne : t ≠ p.1) : (after t log).getLast? = some p := by
  obtain ⟨pre, b, rest, rfl, hpre⟩ := exists_split h
  rw [after_split hpre]
  cases hr : rest.getLast? with
  | none =>
    rw [List.getLast?_eq_none_iff.mp hr] at hl
    simp only [List.getLast?_append, List.getLast?_singleton, Option.some_or,
      Option.some.injEq] at hl
    exact absurd (by rw [← hl]) hne
  | some q =>
    rw [List.getLast?_append, List.getLast?_cons, hr] at hl
    simpa using hl

theorem after_suffix (t : τ) (log : List (τ × β)) : after t log <:+ log := by
  unfold after
  split
  · exact List.suffix_refl _
  · rename_i p rest h
    exact (List.suffix_cons p rest).trans (h ▸ List.dropWhile_suffix _)

end SchemaUpdate.Lib
