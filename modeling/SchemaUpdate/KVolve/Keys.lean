import SchemaUpdate.KVolve.Chain
import SchemaUpdate.KVolve.Links

/-! # KEYS and renamed namespaces

`kvolve_keys` moves the stored keys to the names of their next namespaces while it
iterates over the dictionary. Each visit follows one link. The loop never loses an
entry and never stores two under one current name; it brings a key to its current
name, whatever the order, exactly when no more than one link is missing. -/

namespace SchemaUpdate.KVolve

open SchemaUpdate.Lib SchemaUpdate.Redis

/-! ## Registries as connects and loads leave them -/

/-- Every forward link is answered by a backward link, and the links lead nowhere in a circle. -/
structure Chained (reg : Reg) : Prop where
  back : ∀ {a b}, NextLink reg a b → PrevLink reg a b
  ranked : ∃ rank bound, Ranked reg rank bound

variable {reg : Reg}

/-- Every link forward has its link back, after a step as before it. -/
theorem back_step {reg' : Reg} {ev : RegEvent} (h : ∀ {a b}, NextLink reg a b → PrevLink reg a b)
    (hstep : reg.step ev = .ok reg') {a b : Bytes} (hab : NextLink reg' a b) :
    PrevLink reg' a b := by
  rcases (Reg.step_does hstep).links with hsame | ⟨id, pick, sp, -, -, hnew⟩
  · exact hsame.prev.mpr (h (hsame.next.mp hab))
  · obtain ⟨-, hab⟩ := hnew.next.mp hab
    refine hnew.prev.mpr ?_
    split at hab
    · rw [if_pos hab]
      assumption
    · rw [if_neg (hnew.fresh (h hab).registered)]
      exact h hab

theorem chained_run {evs : List RegEvent} (h : evs.foldlM Reg.step Reg.empty = .ok reg) :
    Chained reg := by
  refine foldlM_rel (R := fun a b => Chained a → Chained b) (fun _ => id)
    (fun _ _ _ hab hbc => hbc ∘ hab) ?_ h ⟨fun h => (nomatch h), _, _, ranked_empty⟩
  intro reg ev _ reg' hstep hc
  obtain ⟨rank, bound, hr⟩ := hc.ranked
  exact ⟨back_step hc.back hstep, hr.step hstep⟩

/-! ## Current names -/

def Forward (reg : Reg) (k k' : Bytes) : Prop :=
  ∃ a n x, NextLink reg a n ∧ colon ∉ x ∧ k = keyName a x ∧ k' = keyName n x

/-- The name a key has in the last namespace of its chain. -/
def CurrentName (reg : Reg) (k c : Bytes) : Prop :=
  Relation.ReflTransGen (Forward reg) k c ∧ ∀ c', ¬ Forward reg c c'

section Names

variable {reg : Reg} {a b c k k' : Bytes}

theorem keyName_split {x y : Bytes} (hx : colon ∉ x) (hy : colon ∉ y)
    (h : keyName a x = keyName b y) : a = b ∧ x = y := by
  have hsplit := rsplit_append hx a
  rw [show a ++ colon :: x = b ++ colon :: y from h, rsplit_append hy b] at hsplit
  cases hsplit
  exact ⟨rfl, rfl⟩

theorem nextLink_unique (h : NextLink reg a b) (h' : NextLink reg a c) : b = c :=
  Option.some.inj (h.symm.trans h')

theorem forward_unique : Relator.RightUnique (Forward reg) := by
  rintro k m m' ⟨a, n, x, hlink, hx, rfl, rfl⟩ ⟨b, n', y, hlink', hy, hk, rfl⟩
  obtain ⟨rfl, rfl⟩ := keyName_split hx hy hk
  rw [nextLink_unique hlink hlink']

theorem NextLink.record (h : NextLink reg a b) :
    ∃ v, reg.find a = some v ∧ v.ns = a ∧ v.nextNs = some b := by
  obtain ⟨v, hv, hnext⟩ := Option.bind_eq_some_iff.mp h
  exact ⟨v, hv, Reg.find_ns hv, hnext⟩

theorem PrevLink.record (h : PrevLink reg a b) :
    ∃ v, reg.find b = some v ∧ v.ns = b ∧ v.prevNs = some a := by
  obtain ⟨v, hv, hprev⟩ := Option.bind_eq_some_iff.mp h
  exact ⟨v, hv, Reg.find_ns hv, hprev⟩

variable (hc : Chained reg)

include hc

theorem Chained.link_nulFree (h : NextLink reg a b) : NulFree a ∧ NulFree b := by
  obtain ⟨v, -, hns, -⟩ := h.record
  obtain ⟨w, -, hns', -⟩ := (hc.back h).record
  exact ⟨hns ▸ v.nsC, hns' ▸ w.nsC⟩

theorem Chained.forward_nulFree (h : Forward reg k k') : NulFree k ↔ NulFree k' := by
  obtain ⟨a, n, x, hlink, -, rfl, rfl⟩ := h
  obtain ⟨ha, hn⟩ := hc.link_nulFree hlink
  simp only [keyName, nulFree_append, nulFree_cons, ha, hn, true_and]

theorem Chained.forwards_nulFree (h : Relation.ReflTransGen (Forward reg) k k') :
    NulFree k ↔ NulFree k' := by
  induction h with
  | refl => rfl
  | tail _ hstep ih => exact ih.trans (hc.forward_nulFree hstep)

theorem Chained.forward_ne (h : Forward reg k k') : k ≠ k' := by
  obtain ⟨a, n, x, hlink, hx, rfl, rfl⟩ := h
  obtain ⟨rank, bound, hr⟩ := hc.ranked
  intro hsame
  obtain ⟨rfl, -⟩ := keyName_split hx hx hsame
  exact absurd (hr.grows (hc.back hlink)) (lt_irrefl _)

theorem Chained.current_exists (k : Bytes) : ∃ c, CurrentName reg k c := by
  obtain ⟨rank, bound, hr⟩ := hc.ranked
  -- the rank of the namespace can grow only so often
  have hmain : ∀ n a x, colon ∉ x → bound - rank a = n → ∃ c, CurrentName reg (keyName a x) c := by
    intro n
    induction n using Nat.strong_induction_on with
    | _ n ih =>
      intro a x hx hn
      by_cases hlink : ∃ b, NextLink reg a b
      · obtain ⟨b, hb⟩ := hlink
        have hgrow := hr.grows (hc.back hb)
        have hbelow := hr.below (hc.back hb).registered
        obtain ⟨c, hpath, hend⟩ := ih (bound - rank b) (by omega) b x hx rfl
        exact ⟨c, .head ⟨a, b, x, hb, hx, rfl, rfl⟩ hpath, hend⟩
      · refine ⟨keyName a x, .refl, ?_⟩
        rintro c' ⟨a', n', y, hlink', hy, hk, -⟩
        obtain ⟨rfl, rfl⟩ := keyName_split hx hy hk
        exact hlink ⟨n', hlink'⟩
  by_cases hfwd : ∃ k', Forward reg k k'
  · obtain ⟨_, a, n, x, -, hx, rfl, -⟩ := hfwd
    exact hmain _ a x hx rfl
  · exact ⟨k, .refl, fun k' h => hfwd ⟨k', h⟩⟩

omit hc

theorem CurrentName.unique {c' : Bytes} (h : CurrentName reg k c) (h' : CurrentName reg k c') :
    c = c' := by
  rcases Relation.ReflTransGen.total_of_right_unique forward_unique h.1 h'.1 with hcc | hcc
  · rcases Relation.ReflTransGen.cases_head hcc with heq | ⟨b, hb, -⟩
    · exact heq
    · exact absurd hb (h.2 b)
  · rcases Relation.ReflTransGen.cases_head hcc with heq | ⟨b, hb, -⟩
    · exact heq.symm
    · exact absurd hb (h'.2 b)

theorem CurrentName.of_forward (hf : Forward reg k k') (h : CurrentName reg k' c) :
    CurrentName reg k c := ⟨.head hf h.1, h.2⟩

end Names

/-! ## A visit -/

/-- A key of a renamed namespace has one segment behind the name of the namespace. -/
def OneSegment (reg : Reg) (k : Bytes) : Prop :=
  ∀ v, versionHashLookup reg k = some v → v.nextNs ≠ none → ∃ x, colon ∉ x ∧ k = keyName v.ns x

variable {x : Bytes}

theorem colon_not_mem_cstr (h : colon ∉ x) : colon ∉ cstr x :=
  fun hmem => h (( cstr_prefix x).subset hmem)

section Visit

variable {env : Env} (hd : env.d = 0) {s : Store} (hc : Chained s.reg)

include hd hc

theorem keysStep_keyName (pattern : Bytes) {a n x : Bytes} (hlink : NextLink s.reg a n) (hx : colon ∉ x)
    (hhas : s.has 0 (keyName a x) = true) : keysStep env pattern s (keyName a x) =
      .ok (if env.cfg.stringmatchlen pattern (keyName n (cstr x)) ∧
          s.has 0 (keyName n (cstr x)) = false then
        s.rename env.now (keyName a (cstr x)) (keyName n (cstr x)) else s) := by
  obtain ⟨v, hv, hns, hnext⟩ := hlink.record
  obtain ⟨w, hw, -, hprev⟩ := (hc.back hlink).record
  obtain ⟨ha, hn⟩ := hc.link_nulFree hlink
  have hcx := colon_not_mem_cstr hx
  have hlookup : versionHashLookup s.reg (keyName a x) = some v := versionHashLookup_keyName hv hcx
  have hlookup' : versionHashLookup s.reg (keyName n (cstr x)) = some w :=
    versionHashLookup_keyName hw (colon_not_mem_cstr hcx)
  have hnew : constructPrevName (keyName a x) n = some (keyName n (cstr x)) := by
    rw [constructPrevName_keyName ha, lastSegment_eq_self hcx]
  have hold : constructPrevName (keyName n (cstr x)) a = some (keyName a (cstr x)) := by
    rw [constructPrevName_keyName hn, cstr_eq_self (cstr_nulFree x), lastSegment_eq_self hcx]
  rw [keysStep, hd, if_pos hhas]
  simp only [hlookup, Option.bind_some, hnext, hnew, hlookup']
  by_cases hm : env.cfg.stringmatchlen pattern (keyName n (cstr x)) = true
  · rw [if_pos hm, namespaceUpdate, hd]
    by_cases hh : s.has 0 (keyName n (cstr x)) = true
    · rw [if_pos hh, if_neg (by simp [hh])]
    · rw [if_neg hh, hprev, Option.bind_some, hold, if_pos ⟨hm, by simpa using hh⟩]
  · rw [if_neg hm, if_neg (fun h => hm h.1)]

theorem keysStep_cases (pattern : Bytes) {k : Bytes}
    (hk : s.has 0 k = true → OneSegment s.reg k) :
    keysStep env pattern s k = .ok s ∨ ∃ new, Forward s.reg (cstr k) new ∧
      s.has 0 new = false ∧ keysStep env pattern s k = .ok (s.rename env.now (cstr k) new) := by
  by_cases hhas : s.has 0 k = true
  · cases hnext : (versionHashLookup s.reg k).bind (·.nextNs) with
    | none =>
      refine .inl ?_
      rw [keysStep, hd, if_pos hhas]
      simp only [hnext]
    | some n =>
      obtain ⟨v, hv, hn⟩ := Option.bind_eq_some_iff.mp hnext
      obtain ⟨x, hx, rfl⟩ := hk hhas v hv (by rw [hn]; exact Option.some_ne_none _)
      have hlink : NextLink s.reg v.ns n := by
        rw [NextLink, versionHashLookup_find hv]
        exact hn
      rw [keysStep_keyName hd hc pattern hlink hx hhas]
      split
      · rename_i hmove
        rw [cstr_keyName v.nsC]
        exact .inr ⟨_, ⟨_, n, _, hlink, colon_not_mem_cstr hx, rfl, rfl⟩, hmove.2, rfl⟩
      · exact .inl rfl
  · refine .inl ?_
    rw [keysStep, hd, if_neg hhas]

theorem keysStep_forward {pattern k new : Bytes} (hk : NulFree k) (hhas : s.has 0 k = true)
    (hf : Forward s.reg k new) (hm : env.cfg.stringmatchlen pattern new = true)
    (hfree : s.has 0 new = false) :
    keysStep env pattern s k = .ok (s.rename env.now k new) := by
  obtain ⟨a, n, x, hlink, hx, rfl, rfl⟩ := hf
  have hnul : NulFree x := (nulFree_cons.mp (nulFree_append.mp hk).2).2
  rw [keysStep_keyName hd hc pattern hlink hx hhas, cstr_eq_self hnul, if_pos ⟨hm, hfree⟩]

end Visit

/-! ## The loop -/

/-- What the loop keeps, from the state it starts in: entries move forward along the links, none
that is alive is lost, and no two come to stand under names with the same current name. -/
structure Underway (env : Env) (s₀ s : Store) : Prop where
  reg : s.reg = s₀.reg
  origin : ∀ m e, s.get 0 m = some e →
    ∃ k, Relation.ReflTransGen (Forward s₀.reg) k m ∧ s₀.get 0 k = some e
  kept : ∀ k e, s₀.get 0 k = some e → e.alive env.now = true →
    ∃ m, Relation.ReflTransGen (Forward s₀.reg) k m ∧ s.get 0 m = some e
  sole : ∀ m m' c, s.has 0 m = true → s.has 0 m' = true → CurrentName s₀.reg m c →
    CurrentName s₀.reg m' c → m = m'
  plain : ∀ m, s.has 0 m = true → s₀.has 0 m = true ∨ NulFree m

/-- The keys of database 0: one segment behind a renamed namespace, and no two with the same
current name. -/
structure KeysApart (s : Store) : Prop where
  segment : ∀ k, s.has 0 k = true → OneSegment s.reg k
  sole : ∀ k k' c, s.has 0 k = true → s.has 0 k' = true → CurrentName s.reg k c →
    CurrentName s.reg k' c → k = k'

theorem KeysApart.underway {s : Store} (h : KeysApart s) (env : Env) : Underway env s s where
  reg := rfl
  origin := fun m _ hm => ⟨m, .refl, hm⟩
  kept := fun k _ hk _ => ⟨k, .refl, hk⟩
  sole := h.sole
  plain := fun _ hm => .inl hm

section Loop

variable {env : Env} {s₀ s : Store} (hc : Chained s₀.reg)

include hc

variable {k c pattern : Bytes} {e : Entry} {s' : Store}

theorem oneSegment_forwards {m : Bytes} (hk : OneSegment s₀.reg k)
    (h : Relation.ReflTransGen (Forward s₀.reg) k m) : OneSegment s₀.reg m := by
  rcases Relation.ReflTransGen.cases_tail h with rfl | ⟨j, -, hjm⟩
  · exact hk
  · obtain ⟨a, n, x, hlink, hx, -, rfl⟩ := hjm
    obtain ⟨w, hw, hns, -⟩ := (hc.back hlink).record
    intro v hv _
    rw [versionHashLookup_keyName hw (colon_not_mem_cstr hx)] at hv
    cases hv
    exact ⟨x, hx, by rw [hns]⟩

/-- A rename along a link goes on with the migration of the names. -/
theorem Underway.move (h : Underway env s₀ s) {src new : Bytes} (hf : Forward s₀.reg src new)
    (hsrc : NulFree src) (hfree : s.has 0 new = false) :
    Underway env s₀ (s.rename env.now src new) := by
  have hnone : s.get 0 new = none := by simpa [Store.has] using hfree
  have hget : ∀ j, (s.rename env.now src new).get 0 j = _ :=
    Store.get_rename_free (hc.forward_ne hf) hnone
  -- what is stored now was stored before, at `src` when it is at `new`
  have hback : ∀ m, (s.rename env.now src new).has 0 m = true →
      (m = new ∧ s.has 0 src = true) ∨ (m ≠ src ∧ m ≠ new ∧ s.has 0 m = true) := by
    intro m hm
    simp only [Store.has, hget] at hm ⊢
    split at hm
    · cases hm
    · rename_i hms
      split at hm
      · rename_i hmn
        refine .inl ⟨hmn, ?_⟩
        cases hs : s.get 0 src with
        | none =>
          rw [hs] at hm
          cases hm
        | some e => rfl
      · rename_i hmn
        exact .inr ⟨hms, hmn, hm⟩
  constructor
  · rw [Store.rename_reg, h.reg]
  · intro m e hm
    rw [hget] at hm
    split at hm
    · cases hm
    · split at hm
      · rename_i hmn
        obtain ⟨he, -⟩ := Option.filter_eq_some_iff.mp hm
        obtain ⟨k, hk, hke⟩ := h.origin src e he
        exact ⟨k, hmn ▸ hk.tail hf, hke⟩
      · exact h.origin m e hm
  · intro k e hk ha
    obtain ⟨m, hm, hme⟩ := h.kept k e hk ha
    by_cases hms : m = src
    · refine ⟨new, hm.tail (hms ▸ hf), ?_⟩
      rw [hget, if_neg (Ne.symm (hc.forward_ne hf)), if_pos rfl, ← hms, hme]
      simp [ha]
    · refine ⟨m, hm, ?_⟩
      rw [hget, if_neg hms, if_neg ?_, hme]
      rintro rfl
      rw [hnone] at hme
      cases hme
  · intro m m' c hm hm' hcur hcur'
    obtain ⟨rfl, hs⟩ | ⟨hms, -, hs⟩ := hback m hm
    · obtain ⟨rfl, -⟩ | ⟨hms', -, hs'⟩ := hback m' hm'
      · rfl
      · exact absurd (h.sole _ _ c hs' hs hcur' (hcur.of_forward hf)) hms'
    · obtain ⟨rfl, hs'⟩ | ⟨-, -, hs'⟩ := hback m' hm'
      · exact absurd (h.sole _ _ c hs hs' hcur (hcur'.of_forward hf)) hms
      · exact h.sole m m' c hs hs' hcur hcur'
  · intro m hm
    obtain ⟨rfl, -⟩ | ⟨-, -, hs⟩ := hback m hm
    · exact .inr ((hc.forward_nulFree hf).mp hsrc)
    · exact h.plain m hs

variable (hd : env.d = 0) (hkeys : KeysApart s₀)

include hd hkeys

variable (h : Underway env s₀ s)

include h

theorem Underway.visit (pattern k : Bytes) :
    ∃ s', keysStep env pattern s k = .ok s' ∧ Underway env s₀ s' ∧
      (s' = s ∨ ∃ new, Forward s₀.reg (cstr k) new ∧ s.has 0 new = false ∧
        s' = s.rename env.now (cstr k) new) := by
  have hsegment : s.has 0 k = true → OneSegment s.reg k := by
    intro hk
    obtain ⟨e, he⟩ := Option.isSome_iff_exists.mp hk
    obtain ⟨j, hj, hje⟩ := h.origin k e he
    rw [h.reg]
    exact oneSegment_forwards hc (hkeys.segment j (by rw [Store.has, hje]; rfl)) hj
  obtain hsame | ⟨new, hf, hfree, hmove⟩ := keysStep_cases hd
    (h.reg ▸ hc : Chained s.reg) pattern hsegment
  · exact ⟨s, hsame, h, .inl rfl⟩
  · rw [h.reg] at hf
    exact ⟨_, hmove, h.move hc hf (cstr_nulFree k) hfree, .inr ⟨new, hf, hfree, rfl⟩⟩

theorem Underway.stays (hlast : ∀ c', ¬ Forward s₀.reg c c')
    (he : s.get 0 c = some e) (hs' : keysStep env pattern s k = .ok s') : s'.get 0 c = some e := by
  obtain ⟨s₁, hs₁, -, rfl | ⟨new, hf, hfree, rfl⟩⟩ := h.visit hc hd hkeys pattern k
  · cases hs₁.symm.trans hs'
    exact he
  · cases hs₁.symm.trans hs'
    rw [Store.get_rename_other, he]
    rintro ⟨-, rfl | rfl⟩
    · exact hlast _ hf
    · rw [Store.has, he] at hfree
      cases hfree

theorem Underway.arrives (hk : s₀.get 0 k = some e)
    (ha : e.alive env.now = true) (hnul : NulFree k) (hf : Forward s₀.reg k c)
    (hlast : ∀ c', ¬ Forward s₀.reg c c') (hm : env.cfg.stringmatchlen pattern c = true)
    (hs' : keysStep env pattern s k = .ok s') : s'.get 0 c = some e := by
  obtain ⟨m, hkm, hme⟩ := h.kept k e hk ha
  have hplace : m = k ∨ m = c := by
    obtain rfl | ⟨j, hkj, hjm⟩ := Relation.ReflTransGen.cases_head hkm
    · exact .inl rfl
    · obtain rfl := forward_unique hf hkj
      obtain rfl | ⟨i, hi, -⟩ := Relation.ReflTransGen.cases_head hjm
      · exact .inr rfl
      · exact absurd hi (hlast i)
  obtain rfl | rfl := hplace
  · have hhas : s.has 0 m = true := by rw [Store.has, hme]; rfl
    have hfree : s.has 0 c = false := by
      by_contra hno
      exact hc.forward_ne hf (h.sole m c c hhas (Bool.eq_true_of_not_eq_false hno)
        ⟨.single hf, hlast⟩ ⟨.refl, hlast⟩)
    have hmove := keysStep_forward hd (h.reg ▸ hc : Chained s.reg) hnul hhas
      (h.reg.symm ▸ hf : Forward s.reg m c) hm hfree
    cases hmove.symm.trans hs'
    have hnone : s.get 0 c = none := by simpa [Store.has] using hfree
    rw [Store.get_rename_free (hc.forward_ne hf) hnone, if_neg (Ne.symm (hc.forward_ne hf)),
      if_pos rfl, hme]
    simp [Option.filter, ha]
  · exact h.stays hc hd hkeys hlast hme hs'

theorem Underway.loop (pattern : Bytes) (l : List Bytes) :
    ∃ s', l.foldlM (keysStep env pattern) s = .ok s' ∧ Underway env s₀ s' := by
  refine foldlM_ok (P := Underway env s₀) (fun s hs k _ => ?_) h
  obtain ⟨s', hs', hup, -⟩ := hs.visit hc hd hkeys pattern k
  exact ⟨s', hs', hup⟩

theorem Underway.loop_arrives (hk : s₀.get 0 k = some e)
    (ha : e.alive env.now = true) (hnul : NulFree k) (hf : Forward s₀.reg k c)
    (hlast : ∀ c', ¬ Forward s₀.reg c c') (hm : env.cfg.stringmatchlen pattern c = true)
    {l : List Bytes} (hl : k ∈ l ∨ s.get 0 c = some e)
    (hs' : l.foldlM (keysStep env pattern) s = .ok s') : s'.get 0 c = some e := by
  induction l generalizing s with
  | nil =>
    cases hs'
    exact hl.resolve_left List.not_mem_nil
  | cons j l ih =>
    rw [List.foldlM_cons] at hs'
    obtain ⟨s₁, hs₁, hs'⟩ := bind_eq_ok.mp hs'
    obtain ⟨s₂, hs₂, hup, -⟩ := h.visit hc hd hkeys pattern j
    cases hs₂.symm.trans hs₁
    refine ih hup ?_ hs'
    obtain hl | hl := hl
    · obtain rfl | hl := List.mem_cons.mp hl
      · exact .inr (h.arrives hc hd hkeys hk ha hnul hf hlast hm hs₁)
      · exact .inl hl
    · exact .inr (h.stays hc hd hkeys hlast hl hs₁)

/-- An entry that is more than one link behind does not get to its current name when the name of
the link is visited before it is there. -/
theorem Underway.loop_behind {k₁ : Bytes} (hf : Forward s₀.reg k k₁)
    (hcur : CurrentName s₀.reg k₁ c) (hne : k₁ ≠ c)
    (hplaces : ∀ m, s.has 0 m = true → CurrentName s₀.reg m c → m = k ∨ m = k₁) {l : List Bytes}
    (hl : ∀ j ∈ l, cstr j ≠ k₁) (hs' : l.foldlM (keysStep env pattern) s = .ok s') :
    s'.get 0 c = none := by
  induction l generalizing s with
  | nil =>
    cases hs'
    by_contra hsome
    have hhas : s'.has 0 c = true := Option.isSome_iff_ne_none.mpr hsome
    obtain rfl | rfl := hplaces c hhas ⟨.refl, hcur.2⟩
    · exact hcur.2 _ hf
    · exact hne rfl
  | cons j l ih =>
    rw [List.foldlM_cons] at hs'
    obtain ⟨s₁, hs₁, hs'⟩ := bind_eq_ok.mp hs'
    obtain ⟨s₂, hs₂, hup, hdid⟩ := h.visit hc hd hkeys pattern j
    cases hs₂.symm.trans hs₁
    obtain ⟨hj, hl⟩ := List.forall_mem_cons.mp hl
    refine ih hup (fun m hm hmc => ?_) hl hs'
    obtain rfl | ⟨new, hnew, hfree, rfl⟩ := hdid
    · exact hplaces m hm hmc
    · by_cases hmn : m = new
      · -- the name it came from led to `c` as well, so it was `k`
        subst hmn
        have hsrc : s.has 0 (cstr j) = true := by
          have hnone : s.get 0 m = none := by simpa [Store.has] using hfree
          rw [Store.has, Store.get_rename_free (hc.forward_ne hnew) hnone,
            if_neg (Ne.symm (hc.forward_ne hnew)), if_pos rfl] at hm
          rw [Store.has]
          cases hget : s.get 0 (cstr j) with
          | none =>
            rw [hget] at hm
            cases hm
          | some e => rfl
        have hwas := (hplaces _ hsrc (hmc.of_forward hnew)).resolve_right hj
        exact .inr (forward_unique (hwas ▸ hnew) hf)
      · refine hplaces m ?_ hmc
        by_cases hmj : m = cstr j
        · rw [hmj, Store.has, Store.get_rename_free (hc.forward_ne hnew)
            (by simpa [Store.has] using hfree), if_pos rfl] at hm
          cases hm
        · rw [Store.has, Store.get_rename_other (by rintro ⟨-, h | h⟩ <;> contradiction)] at hm
          exact hm

end Loop

/-! ## The reply -/

theorem execKeys_once {cfg : Cfg} {now : Int} {pattern c : Bytes}
    (hm : cfg.stringmatchlen pattern c = true) {order : List Bytes} (hnodup : order.Nodup)
    {db : Db} (hlive : (liveEntry now db c).isSome = true) :
    (execKeys cfg now pattern order db).1.count (.bulk c) = if c ∈ order then 1 else 0 := by
  induction order generalizing db with
  | nil => rfl
  | cons k order ih =>
    obtain ⟨hk, hnodup⟩ := List.nodup_cons.mp hnodup
    have hstill : (liveEntry now (expireIfNeeded now db k) c).isSome = true := by
      rw [liveEntry, lookup_expireIfNeeded]
      split
      · rename_i hck
        rw [← hck]
        obtain ⟨e, he⟩ := Option.isSome_iff_exists.mp hlive
        rw [he]
        simp [Option.filter, (Option.filter_eq_some_iff.mp he).2]
      · exact hlive
    rw [execKeys]
    by_cases hck : k = c
    · subst hck
      have hthere : (db.lookup k).isSome = true := by
        obtain ⟨e, he⟩ := Option.isSome_iff_exists.mp hlive
        rw [(Option.filter_eq_some_iff.mp he).1]
        rfl
      rw [if_pos (by simp [hthere, hm])]
      simp only [if_pos hlive, List.count_cons_self]
      rw [ih hnodup hstill, if_neg hk, if_pos List.mem_cons_self]
    · have hmem : (c ∈ k :: order) ↔ c ∈ order := by simp [Ne.symm hck]
      simp only [hmem]
      split
      · simp only
        split
        · rw [List.count_cons_of_ne (by simpa using hck)]
          exact ih hnodup hstill
        · exact ih hnodup hstill
      · exact ih hnodup hlive

/-! ## KEYS -/

/-- What KEYS should come to, from `s` to `s'`: an entry whose current name the pattern matches is
stored under that name, and listed once in whatever order the reply is made; no entry is lost. -/
structure KeysFound (env : Env) (pattern : Bytes) (s s' : Store) : Prop where
  current : ∀ k e, s.get 0 k = some e → e.alive env.now = true → ∃ c, CurrentName s.reg k c ∧
    (env.cfg.stringmatchlen pattern c = true → s'.get 0 c = some e ∧
      ∀ order : List Bytes, order.Nodup → (∀ j, j ∈ order ↔ s'.has 0 j = true) →
        (execKeys env.cfg env.now pattern order (s'.dbs 0)).1.count (.bulk c) = 1)
  kept : ∀ k e, s.get 0 k = some e → e.alive env.now = true →
    ∃ m, Relation.ReflTransGen (Forward s.reg) k m ∧ s'.get 0 m = some e

theorem kvolveKeys_loop {env : Env} (hd : env.d = 0) {p : Arg} (hp : cstr p.ptr ≠ lit "kvolve")
    (rest : List Arg) (s : Store) : kvolveKeys env (p :: rest) s =
      (env.iter (s.dbs 0)).foldlM (keysStep env p.ptr) s >>= fun s' => .ok (p :: rest, s') := by
  simp only [kvolveKeys, if_neg hp, hd]

/-- **KEYS finds every key under its current name, in every order of iteration, exactly when no
key whose current name matches is more than one rename behind or has a NUL.** -/
theorem keys_current_iff {evs : List RegEvent} {s : Store}
    (hreg : evs.foldlM Reg.step Reg.empty = .ok s.reg) (hkeys : KeysApart s) {env : Env}
    (hd : env.d = 0) {p : Arg} (hp : cstr p.ptr ≠ lit "kvolve") (rest : List Arg) :
    (∀ iter : Db → List Bytes, (∀ k, s.has 0 k = true → k ∈ iter (s.dbs 0)) →
      ∃ s', kvolveKeys { env with iter := iter } (p :: rest) s = .ok (p :: rest, s') ∧
        KeysFound env p.ptr s s') ↔
    ∀ k e c, s.get 0 k = some e → e.alive env.now = true → CurrentName s.reg k c →
      env.cfg.stringmatchlen p.ptr c = true → k = c ∨ (NulFree k ∧ Forward s.reg k c) := by
  have hc := chained_run hreg
  have hloop : ∀ iter : Db → List Bytes, kvolveKeys { env with iter := iter } (p :: rest) s =
      (iter (s.dbs 0)).foldlM (keysStep { env with iter := iter } p.ptr) s >>= fun s' =>
        .ok (p :: rest, s') := fun iter =>
    kvolveKeys_loop (show ({ env with iter := iter } : Env).d = 0 from hd) hp rest s
  constructor
  · intro hall k e c hk ha hcur hm
    by_contra hno
    obtain ⟨hkc, hbehind⟩ := not_or.mp hno
    obtain ⟨k₁, hf, hpath⟩ := (Relation.ReflTransGen.cases_head hcur.1).resolve_left hkc
    have hhas : s.has 0 k = true := by rw [Store.has, hk]; rfl
    have hstored : ∀ j, s.has 0 j = true → j ∈ (s.dbs 0).keys := fun j hj =>
      AList.mem_keys.mp (AList.lookup_isSome.mp hj)
    -- in the order that is chosen below nothing comes to stand under the current name
    suffices hmissed : ∃ order : List Bytes, (∀ j, s.has 0 j = true → j ∈ order) ∧
        ∀ s', order.foldlM (keysStep { env with iter := fun _ => order } p.ptr) s = .ok s' →
          s'.get 0 c = none by
      obtain ⟨order, horder, hnone⟩ := hmissed
      obtain ⟨s', hs', hfound⟩ := hall (fun _ => order) horder
      rw [hloop] at hs'
      obtain ⟨s₁, hs₁, heq⟩ := bind_eq_ok.mp hs'
      obtain ⟨c', hcur', hget⟩ := hfound.current k e hk ha
      obtain rfl := hcur.unique hcur'
      have hthere := (hget hm).1
      obtain rfl : s₁ = s' := (Prod.mk.inj (Except.ok.inj heq)).2
      rw [hnone s₁ hs₁] at hthere
      cases hthere
    by_cases hnul : NulFree k
    · -- the visits that could move the name one link ahead come first, when it is not there yet
      have hne : k₁ ≠ c := fun h => hbehind ⟨hnul, h ▸ hf⟩
      have hcur₁ : CurrentName s.reg k₁ c := ⟨hpath, hcur.2⟩
      have hfree : s.has 0 k₁ = false := by
        by_contra hthere
        exact hc.forward_ne hf (hkeys.sole k k₁ c hhas (Bool.eq_true_of_not_eq_false hthere)
          hcur hcur₁)
      refine ⟨(s.dbs 0).keys.filter (cstr · = k₁) ++ (s.dbs 0).keys.filter (cstr · ≠ k₁), ?_, ?_⟩
      · intro j hj
        by_cases hjk : cstr j = k₁
        · exact List.mem_append_left _ (List.mem_filter.mpr ⟨hstored j hj, by simpa using hjk⟩)
        · exact List.mem_append_right _ (List.mem_filter.mpr ⟨hstored j hj, by simpa using hjk⟩)
      · intro s' hs'
        generalize henv : ({ env with iter := _ } : Env) = env' at hs'
        have hd' : env'.d = 0 := by rw [← henv]; exact hd
        have hup : Underway env' s s := hkeys.underway env'
        rw [List.foldlM_append, foldlM_id (s := s) ?_, ok_bind] at hs'
        · refine hup.loop_behind hc hd' hkeys hf hcur₁ hne (fun m hm hmc => ?_) ?_ hs'
          · exact .inl (hkeys.sole m k c hm hhas hmc hcur)
          · intro j hj
            simpa using (List.mem_filter.mp hj).2
        · intro j hj
          have hjk : cstr j = k₁ := by simpa using (List.mem_filter.mp hj).2
          obtain ⟨s₁, hs₁, -, rfl | ⟨new, -, -, rfl⟩⟩ := hup.visit hc hd' hkeys p.ptr j
          · exact hs₁
          · rw [hs₁, hjk]
            have hnone : s.get 0 k₁ = none := by simpa [Store.has] using hfree
            simp only [Store.rename, hnone, ite_self]
    · -- a name with a NUL is never made
      refine ⟨(s.dbs 0).keys, hstored, fun s' hs' => ?_⟩
      generalize henv : ({ env with iter := _ } : Env) = env' at hs'
      have hd' : env'.d = 0 := by rw [← henv]; exact hd
      obtain ⟨s₁, hs₁, hup⟩ := (hkeys.underway env').loop hc hd' hkeys p.ptr (s.dbs 0).keys
      cases hs₁.symm.trans hs'
      by_contra hsome
      obtain hthere | hclean := hup.plain c (Option.isSome_iff_ne_none.mpr hsome)
      · exact hkc (hkeys.sole k c c hhas hthere hcur ⟨.refl, hcur.2⟩)
      · exact hnul ((hc.forwards_nulFree hcur.1).mpr hclean)
  · intro hcond iter hiter
    let env' : Env := { env with iter := iter }
    have hd : env'.d = 0 := hd
    have hup : Underway env' s s := hkeys.underway env'
    obtain ⟨s', hs', hup'⟩ := hup.loop hc hd hkeys p.ptr (iter (s.dbs 0))
    refine ⟨s', by rw [hloop, hs', ok_bind], ?_, hup'.kept⟩
    intro k e hk ha
    obtain ⟨c, hcur⟩ := hc.current_exists k
    refine ⟨c, hcur, fun hm => ?_⟩
    have hhas : s.has 0 k = true := by rw [Store.has, hk]; rfl
    have hget : s'.get 0 c = some e := by
      obtain rfl | ⟨hnul, hf⟩ := hcond k e c hk ha hcur hm
      · obtain ⟨m, hm, hme⟩ := hup'.kept k e hk ha
        obtain rfl | ⟨i, hi, -⟩ := Relation.ReflTransGen.cases_head hm
        · exact hme
        · exact absurd hi (hcur.2 i)
      · exact hup.loop_arrives hc hd hkeys hk ha hnul hf hcur.2 hm (.inl (hiter k hhas)) hs'
    refine ⟨hget, fun order hnodup hall => ?_⟩
    have hlive : (liveEntry env.now (s'.dbs 0) c).isSome = true := by
      rw [liveEntry, show (s'.dbs 0).lookup c = some e from hget]
      simp [Option.filter, ha]
    rw [execKeys_once hm hnodup hlive, if_pos ((hall c).mpr (by rw [Store.has, hget]; rfl))]

theorem leftBehindAt_has {k j : Bytes} : (leftBehindAt reg k).has 0 j = true ↔ j = k := by
  unfold leftBehindAt
  by_cases hj : j = k
  · simp [Store.has, hj]
  · rw [Store.has, Store.get_put_ne _ _ _ _ hj]
    exact iff_of_false (fun h => by cases h) hj

theorem keysApart_leftBehindAt {ns : Bytes} {v : VersionHash} (hv : reg.find ns = some v)
    (hx : colon ∉ x) : KeysApart (leftBehindAt reg (keyName ns x)) := by
  constructor
  · intro k hk w hw _
    obtain rfl := leftBehindAt_has.mp hk
    cases (versionHashLookup_keyName hv (colon_not_mem_cstr hx)).symm.trans hw
    exact ⟨x, hx, by rw [Reg.find_ns hv]⟩
  · intro k k' c hk hk' _ _
    rw [leftBehindAt_has.mp hk, leftBehindAt_has.mp hk']

theorem currentName_keyName {n : Bytes} (hx : colon ∉ x) (h : ∀ m, ¬ NextLink reg n m) :
    CurrentName reg (keyName n x) (keyName n x) := by
  refine ⟨.refl, ?_⟩
  rintro c ⟨a, m, y, hlink, hy, hk, -⟩
  obtain ⟨rfl, -⟩ := keyName_split hx hy hk
  exact h m hlink

def star : Arg := ⟨lit "*", 0⟩

def renameOnce : List RegEvent :=
  [.connect 1 (lit "a@1"), .load 1 (fun _ => 0) ⟨lit "a", lit "b", 1, 2, []⟩]

def renameTwice : List RegEvent :=
  renameOnce ++ [.load 1 (fun _ => 0) ⟨lit "b", lit "c", 2, 3, []⟩]

theorem keys_current_renamed :
    ∃ reg, renameOnce.foldlM Reg.step Reg.empty = .ok reg ∧ ∀ iter : Db → List Bytes,
      (∀ k, (leftBehind reg).has 0 k = true → k ∈ iter ((leftBehind reg).dbs 0)) →
      ∃ s', kvolveKeys { plainEnv with iter := iter } [star] (leftBehind reg) = .ok ([star], s') ∧
        KeysFound plainEnv star.ptr (leftBehind reg) s' := by
  obtain ⟨reg, hreg, hab, hb⟩ := ok_of_any (x := renameOnce.foldlM Reg.step Reg.empty)
    (p := fun reg => (reg.find (lit "a")).bind (·.nextNs) = some (lit "b") ∧
      (reg.find (lit "b")).bind (·.nextNs) = none) (by decide +kernel)
  have hs : colon ∉ lit "s" := by decide
  obtain ⟨v, hv, -⟩ := NextLink.record hab
  refine ⟨reg, hreg, (keys_current_iff hreg (keysApart_leftBehindAt hv hs) rfl (by decide) []).mpr ?_⟩
  intro k e c hk _ hcur _
  obtain rfl : k = keyName (lit "a") (lit "s") := leftBehindAt_has.mp (by rw [Store.has, hk]; rfl)
  have hf : Forward reg (lit "a:s") (lit "b:s") := ⟨_, _, lit "s", hab, hs, by decide, by decide⟩
  have hend : CurrentName reg (lit "b:s") (lit "b:s") :=
    currentName_keyName (n := lit "b") hs fun m hm => by
      rw [NextLink, hb] at hm
      cases hm
  obtain rfl := (hend.of_forward hf).unique hcur
  exact .inr ⟨by decide, hf⟩

/-- Two renames behind: the key is left under the name in between. -/
theorem keys_left_between :
    ∃ reg s', renameTwice.foldlM Reg.step Reg.empty = .ok reg ∧ KeysApart (leftBehind reg) ∧
      CurrentName reg (lit "a:s") (lit "c:s") ∧
      plainEnv.cfg.stringmatchlen star.ptr (lit "c:s") = true ∧
      (leftBehind reg).get 0 (lit "a:s") = some hello ∧
      kvolveKeys plainEnv [star] (leftBehind reg) = .ok ([star], s') ∧
      s'.get 0 (lit "b:s") = some hello ∧ s'.get 0 (lit "c:s") = none := by
  obtain ⟨reg, hreg, hab, hbc, hc⟩ := ok_of_any (x := renameTwice.foldlM Reg.step Reg.empty)
    (p := fun reg => (reg.find (lit "a")).bind (·.nextNs) = some (lit "b") ∧
      (reg.find (lit "b")).bind (·.nextNs) = some (lit "c") ∧
      (reg.find (lit "c")).bind (·.nextNs) = none) (by decide +kernel)
  have hs : colon ∉ lit "s" := by decide
  obtain ⟨v, hv, -⟩ := NextLink.record hab
  have hf : Forward reg (lit "a:s") (lit "b:s") := ⟨_, _, lit "s", hab, hs, by decide, by decide⟩
  have hf' : Forward reg (lit "b:s") (lit "c:s") := ⟨_, _, lit "s", hbc, hs, by decide, by decide⟩
  have hend : CurrentName reg (lit "c:s") (lit "c:s") :=
    currentName_keyName (n := lit "c") hs fun m hm => by
      rw [NextLink, hc] at hm
      cases hm
  have hapart : KeysApart (leftBehind reg) := keysApart_leftBehindAt hv hs
  have hget : (leftBehind reg).get 0 (lit "a:s") = some hello := Store.get_put_self ..
  have hvisit : keysStep plainEnv star.ptr (leftBehind reg) (lit "a:s") =
      .ok ((leftBehind reg).rename 0 (lit "a:s") (lit "b:s")) :=
    keysStep_forward rfl (chained_run hreg) (by decide) (leftBehindAt_has.mpr rfl) hf (by decide) (by rfl)
  refine ⟨reg, (leftBehind reg).rename 0 (lit "a:s") (lit "b:s"), hreg, hapart,
    (hend.of_forward hf').of_forward hf, by decide, hget, ?_, ?_, ?_⟩
  · rw [kvolveKeys_loop rfl (by decide)]
    show [lit "a:s"].foldlM _ _ >>= _ = _
    rw [List.foldlM_cons, hvisit]
    rfl
  · rw [Store.get_rename_moved (by decide) hget (by decide), if_neg (by decide), if_pos (by decide)]
  · rw [Store.get_rename_moved (by decide) hget (by decide), if_neg (by decide), if_neg (by decide)]
    exact Store.get_put_ne _ _ _ _ (by decide)

end SchemaUpdate.KVolve
