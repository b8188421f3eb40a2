import SchemaUpdate.Lib.Coll
import SchemaUpdate.Lib.Result

/-! # Items that are moved in turn

A loop over the items of a keyed collection that takes each item from its key to
another one. An item whose new key no other item has can be moved without a look at
the others, so a loop of such turns ends with all the items moved. -/

namespace SchemaUpdate.Lib

namespace Coll

variable {α κ : Type} [DecidableEq κ] {key : α → κ}

/-- `y` takes the place of `x`: it stands under its own key, and nothing under the key of `x`
unless that is the same. -/
def Takes (x y : α) (c c' : Coll key) : Prop :=
  ∀ k, c'.find? k = if k = key y then some y else if k = key x then none else c.find? k

variable {x y : α} {c c' : Coll key} {pre post : List α}

/-- The others stay as they are when none of them has the new key. -/
theorem Takes.perm (h : Takes x y c c') (hc : c.items.Perm (pre ++ x :: post))
    (hy : ∀ p ∈ pre ++ post, key p ≠ key y) : c'.items.Perm (pre ++ y :: post) := by
  have hnodup : ((pre ++ x :: post).map key).Nodup := (hc.map key).nodup_iff.mp c.nodup
  rw [(List.perm_middle.map key).nodup_iff, List.map_cons, List.nodup_cons] at hnodup
  obtain ⟨hx, hrest⟩ := hnodup
  have hne : ∀ p ∈ pre ++ post, key p ≠ key x :=
    fun p hp hk => hx (List.mem_map.mpr ⟨p, hp, hk⟩)
  have hnodup' : (y :: (pre ++ post)).Nodup :=
    List.nodup_cons.mpr ⟨fun hmem => hy y hmem rfl, hrest.of_map⟩
  refine ((List.perm_ext_iff_of_nodup c'.nodup.of_map hnodup').mpr fun q => ?_).trans
    List.perm_middle.symm
  have hq : q ∈ c'.items ↔ c'.find? (key q) = some q := by simp [find?_eq_some]
  have hold : q ∈ c.items ↔ q = x ∨ q ∈ pre ++ post := by
    rw [hc.mem_iff, List.perm_middle.mem_iff, List.mem_cons]
  rw [hq, h, List.mem_cons]
  split
  · rename_i hk
    constructor
    · intro heq
      exact .inl (Option.some.inj heq).symm
    · rintro (rfl | hmem)
      · rfl
      · exact absurd hk (hy q hmem)
  · rename_i hk
    have hqy : q ≠ y := fun heq => hk (by rw [heq])
    split
    · rename_i hkx
      refine iff_of_false (by simp) ?_
      rintro (heq | hmem)
      · exact hqy heq
      · exact hne q hmem hkx
    · rename_i hkx
      have hqx : q ≠ x := fun heq => hkx (by rw [heq])
      rw [find?_eq_some, hold]
      simp [hqx, hqy]

/-- An item that was put under its key has taken the place of one that is then removed. -/
theorem takes_of_put {set : Coll key} (hset : ∀ k, set.find? k = if k = key y then some y else c.find? k)
    (hne : key x ≠ key y) : ∃ c', set.remove (key x) = some c' ∧ Takes x y c c' := by
  have hrem := set.find?_remove (key x)
  cases hr : set.remove (key x) with
  | none =>
    rw [hr] at hrem
    have hnone := hrem (key y) hne.symm
    rw [hset, if_pos rfl] at hnone
    cases hnone
  | some c' =>
    rw [hr] at hrem
    refine ⟨c', rfl, fun k => ?_⟩
    rw [hrem k, hset]
    by_cases hk : k = key x
    · rw [if_pos hk, if_neg fun hky => hne (hk.symm.trans hky), if_pos hk]
    · rw [if_neg hk, if_neg hk]

end Coll

/-- **A loop over items** each of whose turns succeeds and moves its item, with the items before it
moved and those after it in place, ends with all of them moved. -/
theorem foldlM_turns {α ε σ : Type} (items : σ → List α) {turn : σ → α → Except ε σ}
    {target : α → α} {I : σ → Prop} {l : List α}
    (hturn : ∀ pre x post s, l = pre ++ x :: post → I s →
      (items s).Perm (pre.map target ++ x :: post) →
      ∃ s', turn s x = .ok s' ∧ I s' ∧ (items s').Perm (pre.map target ++ target x :: post))
    {s : σ} (hI : I s) (hs : (items s).Perm l) :
    ∃ s', l.foldlM turn s = .ok s' ∧ I s' ∧ (items s').Perm (l.map target) := by
  -- the invariant is on what is left of the list
  suffices h : ∀ post pre s, l = pre ++ post → I s → (items s).Perm (pre.map target ++ post) →
      ∃ s', post.foldlM turn s = .ok s' ∧ I s' ∧ (items s').Perm (l.map target) from
    h l [] s rfl hI hs
  intro post
  induction post with
  | nil =>
    intro pre s hl hI hs
    refine ⟨s, rfl, hI, ?_⟩
    rw [hl, List.append_nil]
    simpa using hs
  | cons x post ih =>
    intro pre s hl hI hs
    obtain ⟨s₁, h₁, hI₁, hs₁⟩ := hturn pre x post s hl hI hs
    obtain ⟨s', h', hI', hs'⟩ := ih (pre ++ [x]) s₁ (by simp [hl]) hI₁ (by simpa using hs₁)
    exact ⟨s', by rw [List.foldlM_cons, h₁, ok_bind, h'], hI', hs'⟩

end SchemaUpdate.Lib
