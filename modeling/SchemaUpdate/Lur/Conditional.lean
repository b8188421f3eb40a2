import SchemaUpdate.Lur.Alone

/-! # Conditional writes and TTL queries

`set` with `nx` or `xx`, `setnx`, `ttl` and `pttl` look at the current name of a key
only, and `set` deletes the older names whether or not the key was set. They agree
with Redis on a key that is stored at the current version, and only then. -/

namespace SchemaUpdate.Lur

open SchemaUpdate.Lib

/-- The item `x` under the name at `e` is the only copy of the key. -/
structure OnlyCopy (r : Redis) (name : Bytes) (cur : Ver × Ns) (vl : List (Ver × Ns))
    (e : Ver × Ns) (x : Item) : Prop where
  mem : e ∈ cur :: vl
  here : r.find (nameAt name e) = some x
  only : ∀ p ∈ versioned cur.1 name :: potentialKeys name (cur :: vl), p ≠ nameAt name e →
    r.find p = none

def stored (r : Redis) (name : Bytes) (cur e : Ver × Ns) (x : Item) : Redis :=
  (r.del (nameAt name e)).put (versioned cur.1 name) (some x)

section

variable {J : Type} (c : Client J) (name : Bytes) (cur : Ver × Ns) (vl : List (Ver × Ns))
  (e : Ver × Ns) (x : Item) (r : Redis)

/-- What plain Redis answers to a `SET` on the stored key. -/
def plainSet (value : Bytes) (o : SetOpts) : Except PyErr (Option Bool) :=
  setReply (serveSet (versioned cur.1 name) value o (stored r name cur e x)).1

/-- The replies are those of plain Redis on the stored key, and a conditional set that does not
take place leaves the value in the store. -/
structure SeesThrough : Prop where
  nx : ∀ value, ((set c name value { nx := true }).run serve r).1 =
    plainSet name cur e x r value { nx := true }
  setnx : ∀ value, ((setnx c name value).run serve r).1 =
    (plainSet name cur e x r value { nx := true }).map Option.isSome
  xx : ∀ value, ((set c name value { xx := true }).run serve r).1 =
    plainSet name cur e x r value { xx := true }
  pttl : ((pttl c name).run serve r).1 = .ok (serve (.pttl (versioned cur.1 name))
    (stored r name cur e x)).1
  ttl : ((ttl c name).run serve r).1 = .ok (serve (.ttl (versioned cur.1 name))
    (stored r name cur e x)).1
  kept : ∀ value o, o = { nx := true } ∨ o = { xx := true } →
    ((set c name value o).run serve r).1 = .ok none →
    ∃ p ∈ potentialKeys name (cur :: vl), ((set c name value o).run serve r).2.find p = some x

variable {c name cur vl e x r}

theorem OnlyCopy.find_stored (h : OnlyCopy r name cur vl e x) :
    (stored r name cur e x).find (versioned cur.1 name) = some x := by
  have hlive := Redis.live_of_find h.here
  rw [stored, Redis.find_put_live (by simpa using hlive), if_pos rfl]

theorem serveSet_found {k value : Bytes} {s : Redis} {y : Item} (h : s.find k = some y) :
    serveSet k value { nx := true } s = (.ok false, s) ∧
      (serveSet k value { xx := true } s).1 = .ok true := by
  simp [serveSet, SetOpts.expire, h]

theorem serveSet_missing {k value : Bytes} {s : Redis} (h : s.find k = none) :
    serveSet k value { xx := true } s = (.ok false, s) := by
  simp [serveSet, SetOpts.expire, h]

theorem run_set_conditional (hc : Knows c name (cur :: vl)) (value : Bytes) {o : SetOpts}
    (ho : o = { nx := true } ∨ o = { xx := true }) :
    (set c name value o).run serve r =
      (setReply (serveSet (versioned cur.1 name) value o r).1,
        (potentialKeys name vl).foldl Redis.del (serveSet (versioned cur.1 name) value o r).2) := by
  rw [run_set hc]
  obtain rfl | rfl := ho <;> rfl

theorem run_setnx (value : Bytes) :
    ((setnx c name value).run serve r).1 =
      ((set c name value { nx := true }).run serve r).1.map Option.isSome := by
  rw [setnx, Prog.run_bind]
  rfl

theorem run_ttls (hc : Knows c name (cur :: vl)) :
    ((pttl c name).run serve r).1 = .ok (serve (.pttl (versioned cur.1 name)) r).1 ∧
      ((ttl c name).run serve r).1 = .ok (serve (.ttl (versioned cur.1 name)) r).1 := by
  rw [pttl, ttl, hc.currVersion]
  exact ⟨rfl, rfl⟩

theorem OnlyCopy.seesThrough (h : OnlyCopy r name cur vl e x) (hc : Knows c name (cur :: vl))
    (hcur : nameAt name e = versioned cur.1 name)
    (hnew : versioned cur.1 name ∉ potentialKeys name vl) :
    SeesThrough c name cur vl e x r := by
  have hfind : r.find (versioned cur.1 name) = some x := hcur ▸ h.here
  have hplain := h.find_stored
  have hpttl : r.pttl (versioned cur.1 name) =
      (stored r name cur e x).pttl (versioned cur.1 name) := by
    unfold Redis.pttl
    rw [hfind, hplain, stored]
    simp
  obtain ⟨hpttl', httl'⟩ := run_ttls (r := r) hc
  have hnx : ∀ value, ((set c name value { nx := true }).run serve r).1 =
      plainSet name cur e x r value { nx := true } := by
    intro value
    rw [run_set_conditional hc value (.inl rfl), plainSet, (serveSet_found hfind).1,
      (serveSet_found hplain).1]
  refine ⟨hnx, fun value => ?_, fun value => ?_, ?_, ?_, fun value o ho hno => ?_⟩
  · rw [run_setnx, hnx]
  · rw [run_set_conditional hc value (.inr rfl), plainSet, (serveSet_found hfind).2,
      (serveSet_found hplain).2]
  · rw [hpttl']
    exact congrArg Except.ok hpttl
  · rw [httl']
    simp only [serve, hpttl]
  · -- only `nx` does not take place, and the older names do not contain the current one
    rw [run_set_conditional hc value ho] at hno ⊢
    obtain rfl | rfl := ho
    · refine ⟨versioned cur.1 name, ?_, ?_⟩
      · rw [← hcur]
        exact List.mem_map_of_mem h.mem
      · rw [(serveSet_found hfind).1]
        simp only
        rw [Redis.find_delAll, if_neg hnew, hfind]
    · rw [(serveSet_found hfind).2] at hno
      cases hno

/-- **Conditional writes and TTL queries see through versions exactly when there is nothing to
see through**: the only copy of the key is under its current name, and no older entry of the
version list has that name too. -/
theorem sees_through_iff (hc : Knows c name (cur :: vl)) (h : OnlyCopy r name cur vl e x) :
    SeesThrough c name cur vl e x r ↔
      nameAt name e = versioned cur.1 name ∧ versioned cur.1 name ∉ potentialKeys name vl := by
  constructor
  · intro hs
    have hcur : nameAt name e = versioned cur.1 name := by
      by_contra hne
      have hnone := h.only (versioned cur.1 name) (by simp) (Ne.symm hne)
      have hxx := hs.xx []
      rw [run_set_conditional hc [] (.inr rfl), plainSet, serveSet_missing hnone,
        (serveSet_found h.find_stored).2] at hxx
      cases hxx
    refine ⟨hcur, fun hmem => ?_⟩
    -- a failed `nx` deletes the older names, and the current one with them
    have hfind : r.find (versioned cur.1 name) = some x := hcur ▸ h.here
    have hrun := run_set_conditional (r := r) hc [] (.inl rfl)
    rw [(serveSet_found hfind).1] at hrun
    obtain ⟨p, hp, hkept⟩ := hs.kept [] { nx := true } (.inl rfl) (by rw [hrun]; rfl)
    rw [hrun] at hkept
    simp only at hkept
    rw [Redis.find_delAll] at hkept
    split at hkept
    · cases hkept
    · rename_i hold
      have hother := h.only p (List.mem_cons_of_mem _ hp) fun hpe => hold (by rw [hpe, hcur]; exact hmem)
      rw [hother] at hkept
      cases hkept
  · rintro ⟨hcur, hnew⟩
    exact h.seesThrough hc hcur hnew

end

/-! ## A key before and after it is read -/

def keyAt (e : Ver × Ns) : Redis := (Redis.init 0).put (nameAt (lit "n:k") e) (some ⟨lit "1", none⟩)

theorem keyAt_onlyCopy (e : Ver × Ns) (he : e ∈ [demoV1, demoV0]) :
    OnlyCopy (keyAt e) (lit "n:k") demoV1 [demoV0] e ⟨lit "1", none⟩ := by
  simp only [List.mem_cons, List.not_mem_nil, or_false] at he
  obtain rfl | rfl := he
  · exact ⟨by decide, by decide, by decide⟩
  · exact ⟨by decide, by decide, by decide⟩

theorem sees_through_read :
    SeesThrough (demoClient Unit) (lit "n:k") demoV1 [demoV0] demoV1 ⟨lit "1", none⟩ (keyAt demoV1) :=
  (sees_through_iff (demoClient_knows Unit) (keyAt_onlyCopy demoV1 (by decide))).mpr ⟨by decide, by decide⟩

/-- `set(xx=True)` on the key at its older version does nothing but destroy it. -/
theorem xx_destroys :
    OnlyCopy (keyAt demoV0) (lit "n:k") demoV1 [demoV0] demoV0 ⟨lit "1", none⟩ ∧
      ¬ SeesThrough (demoClient Unit) (lit "n:k") demoV1 [demoV0] demoV0 ⟨lit "1", none⟩
        (keyAt demoV0) := by
  refine ⟨keyAt_onlyCopy demoV0 (by decide), fun h => ?_⟩
  have hlost : ∀ p ∈ potentialKeys (lit "n:k") [demoV1, demoV0],
      ((set (demoClient Unit) (lit "n:k") [] { xx := true }).run serve (keyAt demoV0)).2.find p =
        none := by
    decide
  obtain ⟨p, hp, hkept⟩ := h.kept [] { xx := true } (.inr rfl) (by decide)
  rw [hlost p hp] at hkept
  cases hkept

end SchemaUpdate.Lur
