import Mathlib.Data.List.AList

/-! # Dictionaries

A dictionary is an association list without duplicate keys. Every change goes
through `put`, which writes one slot, so one lookup lemma covers insertion,
replacement and removal. -/

namespace SchemaUpdate.Lib

abbrev Dict (κ α : Type) := AList fun _ : κ => α

namespace Dict

variable {κ α : Type} [DecidableEq κ] (m : Dict κ α) (f : κ → α → α)

def put (k : κ) : Option α → Dict κ α
  | none => m.erase k
  | some a => m.insert k a

theorem lookup_put (k j : κ) (x : Option α) :
    (m.put k x).lookup j = if j = k then x else m.lookup j := by
  split
  · rename_i h
    subst h
    cases x with
    | none => exact AList.lookup_erase j m
    | some a => exact AList.lookup_insert m
  · rename_i h
    cases x with
    | none => exact AList.lookup_erase_ne h
    | some a => exact AList.lookup_insert_ne h

@[simp]
theorem lookup_put_self (k : κ) (x : Option α) : (m.put k x).lookup k = x := by
  rw [lookup_put, if_pos rfl]

theorem lookup_put_ne {k j : κ} (h : j ≠ k) (x : Option α) : (m.put k x).lookup j = m.lookup j := by
  rw [lookup_put, if_neg h]

def mapVals (m : Dict κ α) : Dict κ α where
  entries := m.entries.map fun p => ⟨p.1, f p.1 p.2⟩
  nodupKeys := by
    have h : (m.entries.map fun p => (⟨p.1, f p.1 p.2⟩ : Sigma fun _ : κ => α)).keys =
        m.entries.keys := by
      simp [List.keys]
    unfold List.NodupKeys
    rw [h]
    exact m.nodupKeys

theorem lookup_mapVals (m : Dict κ α) (k : κ) :
    (m.mapVals f).lookup k = (m.lookup k).map (f k) := by
  obtain ⟨l, hl⟩ := m
  simp only [mapVals, AList.lookup]
  clear hl
  induction l with
  | nil => rfl
  | cons p l ih =>
    obtain ⟨j, a⟩ := p
    rw [List.map_cons]
    by_cases hj : k = j
    · subst hj
      rw [List.dlookup_cons_eq, List.dlookup_cons_eq]
      rfl
    · rw [List.dlookup_cons_ne _ _ hj, List.dlookup_cons_ne _ _ hj, ih]

theorem mem_entries {m : Dict κ α} {k : κ} {a : α} :
    (k, a) ∈ (m.entries.map fun p => (p.1, p.2)) ↔ m.lookup k = some a := by
  have hmem : (k, a) ∈ (m.entries.map fun p => (p.1, p.2)) ↔ (⟨k, a⟩ : Sigma fun _ => α) ∈ m.entries := by
    constructor
    · intro h
      obtain ⟨⟨k', a'⟩, hp, heq⟩ := List.mem_map.mp h
      cases heq
      exact hp
    · exact fun h => List.mem_map.mpr ⟨⟨k, a⟩, h, rfl⟩
  rw [hmem]
  exact (List.mem_dlookup_iff m.nodupKeys).symm

/-- Collect the parts of the items under their keys, in order: `setdefault(k, []).extend(l)` for
each of them. -/
def gather {ι : Type} (key : ι → κ) (parts : ι → List α) : List ι → Dict κ (List α) →
    Dict κ (List α)
  | [], m => m
  | x :: xs, m =>
    gather key parts xs (m.insert (key x) ((m.lookup (key x)).getD [] ++ parts x))

theorem lookup_gather {ι : Type} (key : ι → κ) (parts : ι → List α) (xs : List ι)
    (m : Dict κ (List α)) (k : κ) :
    (gather key parts xs m).lookup k =
      if xs.filter (fun x => key x = k) = [] then m.lookup k
      else some ((m.lookup k).getD [] ++ (xs.filter fun x => key x = k).flatMap parts) := by
  induction xs generalizing m with
  | nil => simp [gather]
  | cons x xs ih =>
    rw [gather, ih]
    by_cases hx : key x = k
    · subst hx
      rw [AList.lookup_insert, List.filter_cons_of_pos (by simp), if_neg (List.cons_ne_nil _ _)]
      split
      · rename_i hnil
        simp [hnil]
      · simp
    · rw [AList.lookup_insert_ne (Ne.symm hx), List.filter_cons_of_neg (by simpa using hx)]

end Dict

end SchemaUpdate.Lib
