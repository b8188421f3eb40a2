import Mathlib.Data.List.Basic
import Mathlib.Data.List.Nodup

/-! # Non-empty collections with distinct keys

An ordered collection that is never empty and never holds two items with one
key: the shape of a stored set, a stored map and a stored sorted set. Emptiness
is not representable, so removing the last item yields no collection at all. -/

namespace SchemaUpdate.Lib

structure Coll {α κ : Type} (key : α → κ) where
  items : List α
  ne : items ≠ []
  nodup : (items.map key).Nodup
  deriving DecidableEq

abbrev NEList (α : Type) := { l : List α // l ≠ [] }

def NEList.ofList? {α : Type} (l : List α) : Option (NEList α) :=
  if h : l ≠ [] then some ⟨l, h⟩ else none

namespace Coll

variable {α κ : Type} [DecidableEq κ] {key : α → κ}

def keys (c : Coll key) : List κ := c.items.map key

def length (c : Coll key) : Nat := c.items.length

def find? (c : Coll key) (k : κ) : Option α := c.items.find? fun x => key x = k

def single (x : α) : Coll key := ⟨[x], by simp, by simp⟩

/-- The collection of a list of items, unless it is empty or a key occurs twice. -/
def ofList? (key : α → κ) (l : List α) : Option (Coll key) :=
  if h : l ≠ [] ∧ (l.map key).Nodup then some ⟨l, h.1, h.2⟩ else none

theorem ofList?_items (c : Coll key) : ofList? key c.items = some c := by
  rw [ofList?, dif_pos ⟨c.ne, c.nodup⟩]

/-- Insert an item whose key is new, before the item at position `i`. -/
def insertAt (c : Coll key) (i : Nat) (x : α) (h : key x ∉ c.keys) : Coll key where
  items := c.items.take i ++ x :: c.items.drop i
  ne := by simp
  nodup := by
    have hp : (c.items.take i ++ x :: c.items.drop i).Perm (x :: c.items) := by
      refine List.perm_middle.trans ?_
      rw [List.take_append_drop]
    rw [(hp.map key).nodup_iff]
    exact List.nodup_cons.mpr ⟨h, c.nodup⟩

omit [DecidableEq κ] in
theorem insertAt_perm (c : Coll key) (i : Nat) (x : α) (h : key x ∉ c.keys) :
    (c.insertAt i x h).items.Perm (c.items ++ [x]) := by
  refine List.perm_middle.trans ?_
  rw [List.take_append_drop]
  exact (List.perm_append_singleton x c.items).symm

def Has (c : Option (Coll key)) (k : κ) : Prop := ∃ c', c = some c' ∧ k ∈ c'.keys

instance (c : Option (Coll key)) (k : κ) : Decidable (Has c k) :=
  match c with
  | none => isFalse fun ⟨_, h, _⟩ => nomatch h
  | some c =>
    if h : k ∈ c.keys then isTrue ⟨c, rfl, h⟩
    else isFalse fun ⟨_, hc, hk⟩ => h (Option.some.inj hc ▸ hk)

/-- Add an item to a collection that may have none yet, at the place `slot` finds among the
items; an item whose key is taken is passed over. -/
def add (c : Option (Coll key)) (slot : List α → Nat) (x : α) : Coll key :=
  match c with
  | none => single x
  | some c => if h : key x ∈ c.keys then c else c.insertAt (slot c.items) x h

def Filled (done : List α) (c : Option (Coll key)) : Prop :=
  match c with
  | none => done = []
  | some c => c.items.Perm done

section Filled

variable {done xs : List α} {c : Option (Coll key)} {x : α}

theorem Filled.add (h : Filled done c) (hx : ¬ Has c (key x)) (slot : List α → Nat) :
    Filled (done ++ [x]) (some (add c slot x)) := by
  cases c with
  | none =>
    rw [show done = [] from h]
    exact List.Perm.refl _
  | some c =>
    have hx' : key x ∉ c.keys := fun hk => hx ⟨c, rfl, hk⟩
    simp only [Coll.add, dif_neg hx']
    exact (c.insertAt_perm _ x hx').trans (h.append_right [x])

omit [DecidableEq κ] in
theorem Filled.fresh (h : Filled done c) (hxs : (xs.map key).Nodup)
    (hpre : (done ++ [x]) <+: xs) : ¬ Has c (key x) := by
  rintro ⟨c', rfl, hk⟩
  have hnd : ((done ++ [x]).map key).Nodup := hxs.sublist (hpre.sublist.map key)
  rw [List.map_append, List.nodup_append] at hnd
  exact hnd.2.2 (key x) ((List.Perm.map key h).mem_iff.mp hk) (key x) (by simp) rfl

omit [DecidableEq κ] in
theorem Filled.exists_some (h : Filled done c) (hne : done ≠ []) :
    ∃ c', c = some c' ∧ c'.items.Perm done := by
  cases c with
  | none => exact absurd h hne
  | some c => exact ⟨c, rfl, h⟩

end Filled

/-- Put `x` in the place of the item with its key; nothing else moves. -/
def replace (c : Coll key) (x : α) : Coll key where
  items := c.items.map fun y => if key y = key x then x else y
  ne := by simpa using c.ne
  nodup := by
    have hk : (c.items.map fun y => if key y = key x then x else y).map key = c.items.map key := by
      rw [List.map_map]
      apply List.map_congr_left
      intro y _
      by_cases hy : key y = key x <;> simp [hy]
    rw [hk]
    exact c.nodup

/-- The collection without the item of key `k`; `none` when nothing is left. -/
def remove (c : Coll key) (k : κ) : Option (Coll key) :=
  if h : c.items.filter (fun y => key y ≠ k) ≠ [] then
    some ⟨_, h, c.nodup.sublist (List.filter_sublist.map key)⟩
  else none

variable {k : κ} {c : Coll key} {x : α}

theorem mem_of_remove {c' : Coll key} (h : c.remove k = some c') :
    x ∈ c'.items ↔ x ∈ c.items ∧ key x ≠ k := by
  unfold remove at h
  split at h
  · cases h
    simp [List.mem_filter]
  · cases h

theorem remove_eq_none (h : c.remove k = none) (hx : x ∈ c.items) : key x = k := by
  unfold remove at h
  split at h
  · cases h
  · rename_i hempty
    by_contra hk
    have hmem : x ∈ c.items.filter fun y => key y ≠ k := by
      rw [List.mem_filter]
      exact ⟨hx, by simpa using hk⟩
    rw [not_not.mp hempty] at hmem
    cases hmem

theorem remove_of_not_mem (h : k ∉ c.keys) : c.remove k = some c := by
  have hall : c.items.filter (fun y => key y ≠ k) = c.items := by
    refine List.filter_eq_self.mpr fun y hy => ?_
    have hk : key y ≠ k := fun hk => h (List.mem_map.mpr ⟨y, hy, hk⟩)
    simpa using hk
  unfold remove
  rw [dif_pos (by rw [hall]; exact c.ne)]
  simp only [hall]

/-! ## Looking up -/

theorem find?_eq_some : c.find? k = some x ↔ x ∈ c.items ∧ key x = k := by
  constructor
  · intro h
    exact ⟨List.mem_of_find?_eq_some h, by simpa using List.find?_some h⟩
  · rintro ⟨hx, rfl⟩
    cases hf : c.find? (key x) with
    | none =>
      have hnone := List.find?_eq_none.mp hf x hx
      simp at hnone
    | some y =>
      have hy : key y = key x := by simpa using List.find?_some hf
      rw [List.inj_on_of_nodup_map c.nodup (List.mem_of_find?_eq_some hf) hx hy]

theorem mem_keys : k ∈ c.keys ↔ ∃ x, c.find? k = some x := by
  simp only [keys, List.mem_map, find?_eq_some]

theorem find?_single (x : α) (k : κ) :
    (single x : Coll key).find? k = if k = key x then some x else none := by
  simp only [find?, single, List.find?_cons, List.find?_nil]
  by_cases h : key x = k
  · simp [h]
  · simp [h, Ne.symm h]

theorem find?_insertAt (c : Coll key) (i : Nat) (x : α) (h : key x ∉ c.keys) (k : κ) :
    (c.insertAt i x h).find? k = if k = key x then some x else c.find? k := by
  ext y
  have hmem : y ∈ (c.insertAt i x h).items ↔ y ∈ c.items ∨ y = x := by
    rw [(c.insertAt_perm i x h).mem_iff, List.mem_append, List.mem_singleton]
  rw [find?_eq_some, hmem]
  split
  · rename_i hk
    subst hk
    constructor
    · rintro ⟨hy | hy, hkey⟩
      · exact absurd (List.mem_map.mpr ⟨y, hy, hkey⟩) h
      · rw [hy]
    · rintro ⟨⟩
      exact ⟨.inr rfl, rfl⟩
  · rename_i hk
    rw [find?_eq_some]
    constructor
    · rintro ⟨hy | hy, hkey⟩
      · exact ⟨hy, hkey⟩
      · exact absurd (hkey.symm.trans (congrArg key hy)) hk
    · rintro ⟨hy, hkey⟩
      exact ⟨.inl hy, hkey⟩

theorem find?_replace (c : Coll key) (x : α) (h : key x ∈ c.keys) (k : κ) :
    (c.replace x).find? k = if k = key x then some x else c.find? k := by
  ext y
  rw [find?_eq_some]
  have hmem : y ∈ (c.replace x).items ↔ y = x ∨ (y ∈ c.items ∧ key y ≠ key x) := by
    simp only [replace, List.mem_map]
    constructor
    · rintro ⟨z, hz, rfl⟩
      by_cases hk : key z = key x
      · exact .inl (if_pos hk)
      · rw [if_neg hk]
        exact .inr ⟨hz, hk⟩
    · rintro (rfl | ⟨hy, hk⟩)
      · obtain ⟨z, hz, hk⟩ := List.mem_map.mp h
        exact ⟨z, hz, if_pos hk⟩
      · exact ⟨y, hy, if_neg hk⟩
  rw [hmem]
  split
  · rename_i hk
    subst hk
    constructor
    · rintro ⟨hy | ⟨-, hne⟩, hkey⟩
      · rw [hy]
      · exact absurd hkey hne
    · rintro ⟨⟩
      exact ⟨.inl rfl, rfl⟩
  · rename_i hk
    rw [find?_eq_some]
    constructor
    · rintro ⟨hy | ⟨hy, -⟩, hkey⟩
      · exact absurd (hkey.symm.trans (congrArg key hy)) hk
      · exact ⟨hy, hkey⟩
    · rintro ⟨hy, hkey⟩
      exact ⟨.inr ⟨hy, fun hyx => hk (hkey.symm.trans hyx)⟩, hkey⟩

/-- Removing leaves the rest, or nothing when there is no other key. -/
theorem find?_remove (c : Coll key) (k : κ) :
    match c.remove k with
    | none => ∀ j, j ≠ k → c.find? j = none
    | some c' => ∀ j, c'.find? j = if j = k then none else c.find? j := by
  unfold remove
  split
  · rename_i c' hc
    split at hc
    · cases hc
    · rename_i hempty
      intro j hj
      cases hf : c.find? j with
      | none => rfl
      | some x =>
        obtain ⟨hx, hkey⟩ := find?_eq_some.mp hf
        have hmem : x ∈ c.items.filter fun y => key y ≠ k := by
          rw [List.mem_filter]
          exact ⟨hx, by simpa [hkey] using hj⟩
        rw [not_not.mp hempty] at hmem
        cases hmem
  · rename_i c' hc
    split at hc
    · cases hc
      intro j
      ext x
      rw [find?_eq_some]
      simp only [List.mem_filter]
      split
      · rename_i hj
        subst hj
        simp
      · rename_i hj
        rw [find?_eq_some]
        constructor
        · rintro ⟨⟨hx, -⟩, hkey⟩
          exact ⟨hx, hkey⟩
        · rintro ⟨hx, hkey⟩
          exact ⟨⟨hx, by simpa [hkey] using hj⟩, hkey⟩
    · cases hc

end Coll

end SchemaUpdate.Lib
