import SchemaUpdate.KVolve.Links

/-! # The clients a load disconnects

`kvolve_upd_spec` goes over the id sets of the updated namespace and of its
predecessors, draws members at random and issues `CLIENT KILL` until one is left in
each set. Which ids are killed in which order is a relation here: every order the
random generator can produce is a derivation. -/

namespace SchemaUpdate.KVolve

open SchemaUpdate.Lib SchemaUpdate.Redis

/-! ## The loops -/

/-- `while (is->length > 1)` on the id set of one record: the ids `CLIENT KILL` is issued for,
in order, and what is left of the set. -/
inductive KillLoop (loading : Nat) : Finset Nat → List Nat → Finset Nat → Prop
  | stop {is : Finset Nat} : is.card ≤ 1 → KillLoop loading is [] is
  -- the caller was drawn: `continue`
  | skip {is is' : Finset Nat} {ks : List Nat} : 1 < is.card → loading ∈ is →
      KillLoop loading is ks is' → KillLoop loading is ks is'
  | kill {is is' : Finset Nat} {k : Nat} {ks : List Nat} : 1 < is.card → k ∈ is → k ≠ loading →
      KillLoop loading (is.erase k) ks is' → KillLoop loading is (k :: ks) is'

/-- `while (tmp)`: a record and its predecessors. -/
inductive KillWalk (loading : Nat) : VersionHash → Reg → List Nat → Reg → Prop
  | last {tmp : VersionHash} {reg : Reg} {ks : List Nat} {is' : Finset Nat} :
      KillLoop loading tmp.is ks is' →
      tmp.prevNs.bind (reg.set { tmp with is := is' }).find = none →
      KillWalk loading tmp reg ks (reg.set { tmp with is := is' })
  | next {tmp t : VersionHash} {reg reg' : Reg} {ks ks' : List Nat} {is' : Finset Nat} :
      KillLoop loading tmp.is ks is' →
      tmp.prevNs.bind (reg.set { tmp with is := is' }).find = some t →
      KillWalk loading t (reg.set { tmp with is := is' }) ks' reg' →
      KillWalk loading tmp reg (ks ++ ks') reg'

/-- A load that is accepted and returns: the ids killed, in order, and the registry it
leaves. -/
inductive SpecRun (loading : Nat) (reg : Reg) (sp : Spec) : List Nat → Reg → Prop
  | renamed {reg₁ reg' : Reg} {v : VersionHash} {ks : List Nat} :
      specAccepts reg sp = some true →
      createNs reg (if loading = 0 then none else some loading) sp.toNs (some sp.fromNs)
        sp.toVers (some sp.info) = .ok reg₁ →
      reg₁.find (cstr sp.toNs) = some v → KillWalk loading v reg₁ ks reg' →
      SpecRun loading reg sp ks reg'
  | appended {reg₁ : Reg} {v v₁ v₂ : VersionHash} {ks : List Nat} :
      specAccepts reg sp = some false → reg.find (cstr sp.toNs) = some v →
      KillWalk loading v reg ks reg₁ → reg₁.find (cstr sp.toNs) = some v₁ →
      appendVersion { v₁ with is := insert loading v₁.is } sp.toVers sp.info = .ok v₂ →
      SpecRun loading reg sp ks (reg₁.set v₂)

/-! ## One set

`LoopSpec` is all the walk needs of the loop; `survivors_loop` ties it to `survivors`. -/

section Loop

variable {loading : Nat} {is is' : Finset Nat} {ks : List Nat}

/-- What the loop does to a set. -/
structure LoopSpec (loading : Nat) (is : Finset Nat) (ks : List Nat) (is' : Finset Nat) : Prop where
  once : ks.Nodup
  spared : loading ∉ ks
  mem : ∀ x, x ∈ ks ↔ x ∈ is ∧ x ∉ is'
  sub : is' ⊆ is
  card : is'.card ≤ 1
  kept : loading ∈ is → loading ∈ is'
  left : is.Nonempty → is'.Nonempty

/-- What the kill loop does to one id set. -/
theorem KillLoop.spec (h : KillLoop loading is ks is') : LoopSpec loading is ks is' := by
  induction h with
  | stop hcard =>
    refine ⟨List.nodup_nil, by simp, fun x => ?_, subset_rfl, hcard, fun h => h, fun h => h⟩
    simp only [List.not_mem_nil, false_iff, not_and, not_not]
    exact fun h => h
  | skip _ _ _ ih => exact ih
  | @kill is is' k ks hcard hk hne _ ih =>
    have hnot : k ∉ is' := fun hk' => Finset.notMem_erase k is (ih.sub hk')
    refine ⟨List.nodup_cons.mpr ⟨fun hmem => ?_, ih.once⟩, ?_, fun x => ?_, ?_, ih.card, ?_, ?_⟩
    · exact Finset.notMem_erase k is ((ih.mem k).mp hmem).1
    · intro hmem
      rcases List.mem_cons.mp hmem with heq | hmem
      · exact hne heq.symm
      · exact ih.spared hmem
    · rw [List.mem_cons, ih.mem, Finset.mem_erase]
      constructor
      · rintro (rfl | ⟨⟨-, hx⟩, hx'⟩)
        · exact ⟨hk, hnot⟩
        · exact ⟨hx, hx'⟩
      · rintro ⟨hx, hx'⟩
        by_cases hxk : x = k
        · exact .inl hxk
        · exact .inr ⟨⟨hxk, hx⟩, hx'⟩
    · exact ih.sub.trans (Finset.erase_subset k is)
    · intro hl
      exact ih.kept (Finset.mem_erase.mpr ⟨Ne.symm hne, hl⟩)
    · intro _
      apply ih.left
      rw [← Finset.card_pos, Finset.card_erase_of_mem hk]
      omega

theorem KillLoop.leave {x : Nat} (hx : x ∈ is) (hl : loading ∈ is → x = loading) :
    ∃ ks, KillLoop loading is ks {x} ∧ ks.toFinset = is \ {x} := by
  induction hn : is.card generalizing is with
  | zero =>
    rw [Finset.card_eq_zero.mp hn] at hx
    exact absurd hx (Finset.notMem_empty x)
  | succ n ih =>
    by_cases hone : is = {x}
    · subst hone
      exact ⟨[], .stop (by simp), by simp⟩
    · obtain ⟨k, hk, hkx⟩ : ∃ k ∈ is, k ≠ x := by
        by_contra hno
        push Not at hno
        exact hone (Finset.eq_singleton_iff_unique_mem.mpr ⟨hx, hno⟩)
      have hkl : k ≠ loading := fun h => hkx (h.trans (hl (h ▸ hk)).symm)
      have hcard : 1 < is.card := Finset.one_lt_card.mpr ⟨k, hk, x, hx, hkx⟩
      obtain ⟨ks, hks, hset⟩ := ih (Finset.mem_erase.mpr ⟨Ne.symm hkx, hx⟩)
        (fun h => hl (Finset.mem_of_mem_erase h)) (by rw [Finset.card_erase_of_mem hk]; omega)
      refine ⟨k :: ks, .kill hcard hk hkl hks, ?_⟩
      rw [List.toFinset_cons, hset]
      ext y
      simp only [Finset.mem_insert, Finset.mem_sdiff, Finset.mem_erase, Finset.mem_singleton]
      constructor
      · rintro (rfl | ⟨⟨-, hy⟩, hyx⟩)
        · exact ⟨hk, hkx⟩
        · exact ⟨hy, hyx⟩
      · rintro ⟨hy, hyx⟩
        by_cases hyk : y = k
        · exact .inl hyk
        · exact .inr ⟨⟨hyk, hy⟩, hyx⟩

theorem survivors_loop {pick : Finset Nat → Nat} (hpick : is.Nonempty → pick is ∈ is) :
    ∃ ks, KillLoop loading is ks (survivors loading pick is) ∧
      ks.toFinset = is \ survivors loading pick is := by
  unfold survivors
  split
  · rename_i hcard
    exact ⟨[], .stop hcard, by simp⟩
  · rename_i hcard
    split
    · rename_i hl
      exact KillLoop.leave hl fun _ => rfl
    · rename_i hl
      have hmem : pick is ∈ is := hpick (Finset.card_pos.mp (by omega))
      have hfilter : is.filter (· = pick is) = {pick is} := by
        rw [Finset.filter_eq', if_pos hmem]
      rw [hfilter]
      exact KillLoop.leave hmem fun h => absurd h hl

theorem LoopSpec.only_caller (h : LoopSpec loading is ks is') :
    (∀ x ∈ is', x = loading) ↔ is = ∅ ∨ loading ∈ is := by
  constructor
  · intro honly
    rcases Finset.eq_empty_or_nonempty is with hempty | hne
    · exact .inl hempty
    · obtain ⟨x, hx⟩ := h.left hne
      exact .inr (honly x hx ▸ h.sub hx)
  · intro hcall x hx
    rcases hcall with rfl | hl
    · exact absurd (h.sub hx) (Finset.notMem_empty x)
    · exact Finset.card_le_one.mp h.card x hx loading (h.kept hl)

end Loop

/-! ## The chain of predecessors -/

def ids (reg : Reg) (n : Bytes) : Finset Nat := ((reg.find n).map (·.is)).getD ∅

def OnChain (reg : Reg) : Bytes → Bytes → Prop :=
  Relation.ReflTransGen fun x y => PrevLink reg y x

/-- The names the walk visits, from `n` back. -/
inductive Back (reg : Reg) : Bytes → List Bytes → Prop
  | last {n : Bytes} : (∀ p, PrevLink reg p n → reg.core p = none) → Back reg n [n]
  | next {n p : Bytes} {l : List Bytes} : PrevLink reg p n → (reg.core p).isSome →
      Back reg p l → Back reg n (n :: l)

section Back

variable {reg reg' : Reg} {n m : Bytes} {l l' : List Bytes}

theorem PrevLink.unique {a b : Bytes} (ha : PrevLink reg a n) (hb : PrevLink reg b n) : a = b :=
  Option.some.inj (ha.symm.trans hb)

theorem Back.congr (hcore : ∀ n, reg'.core n = reg.core n) (h : Back reg n l) : Back reg' n l := by
  have hlink : ∀ {a b}, PrevLink reg' a b ↔ PrevLink reg a b := by
    intro a b
    rw [prevLink_core, prevLink_core, hcore]
  induction h with
  | last hend => exact .last fun p hp => (hcore p).trans (hend p (hlink.mp hp))
  | @next n p l hp hsome _ ih => exact .next (hlink.mpr hp) (by rw [hcore]; exact hsome) ih

variable (h : Back reg n l)

include h

theorem Back.unique (h' : Back reg n l') : l = l' := by
  induction h generalizing l' with
  | last hend =>
    cases h' with
    | last _ => rfl
    | next hp hsome _ =>
      rw [hend _ hp] at hsome
      cases hsome
  | next hp hsome _ ih =>
    cases h' with
    | last hend =>
      rw [hend _ hp] at hsome
      cases hsome
    | next hp' _ hl' =>
      obtain rfl := hp.unique hp'
      rw [ih hl']

theorem Back.suffix (hm : m ∈ l) : ∃ l', Back reg m l' ∧ l'.length ≤ l.length := by
  induction h with
  | last hend =>
    cases List.mem_singleton.mp hm
    exact ⟨_, .last hend, le_rfl⟩
  | next hp hsome hl ih =>
    rcases List.mem_cons.mp hm with rfl | hm
    · exact ⟨_, .next hp hsome hl, le_rfl⟩
    · obtain ⟨l', hl', hlen⟩ := ih hm
      exact ⟨l', hl', hlen.trans (Nat.le_succ _)⟩

theorem Back.nodup : l.Nodup := by
  induction h with
  | last _ => simp
  | @next n p l hp hsome hl ih =>
    refine List.nodup_cons.mpr ⟨fun hmem => ?_, ih⟩
    -- the name would have two chains of different lengths
    obtain ⟨l', hl', hlen⟩ := hl.suffix hmem
    have heq := hl'.unique (.next hp hsome hl)
    rw [heq] at hlen
    exact absurd hlen (by simp)

theorem Back.onChain (hm : m ∈ l) : OnChain reg n m := by
  induction h with
  | last _ =>
    cases List.mem_singleton.mp hm
    exact .refl
  | next hp _ _ ih =>
    rcases List.mem_cons.mp hm with rfl | hm
    · exact .refl
    · exact .head hp (ih hm)

theorem Back.mem (hm : OnChain reg n m) : m ∈ l ∨ reg.core m = none := by
  induction h with
  | last hend =>
    rcases Relation.ReflTransGen.cases_head hm with rfl | ⟨p, hp, hm⟩
    · simp
    · -- a predecessor that is not registered has none itself
      have hnone := hend p hp
      rcases Relation.ReflTransGen.cases_head hm with rfl | ⟨q, hq, -⟩
      · exact .inr hnone
      · have hreg := PrevLink.registered hq
        rw [hnone] at hreg
        cases hreg
  | next hp _ _ ih =>
    rcases Relation.ReflTransGen.cases_head hm with rfl | ⟨q, hq, hm⟩
    · simp
    · obtain rfl := hp.unique hq
      exact (ih hm).imp_left (List.mem_cons_of_mem _)

omit h

theorem ids_of_core (h : reg.core n = none) : ids reg n = ∅ := by
  unfold Reg.core at h
  rw [ids, Option.map_eq_none_iff.mp h]
  rfl

theorem ids_set (reg : Reg) (v : VersionHash) (n : Bytes) :
    ids (reg.set v) n = if n = v.ns then v.is else ids reg n := by
  unfold ids
  rw [Reg.find_set]
  split <;> rfl

end Back

variable {loading : Nat} {reg reg' : Reg}
  {pick : Finset Nat → Nat} {killed : Finset Nat} {tmp : VersionHash}

/-- **The walk runs the loop once on each record of the chain.** -/
theorem KillWalk.spec {ks : List Nat} (h : KillWalk loading tmp reg ks reg')
    (htmp : reg.find tmp.ns = some tmp) :
    ∃ l f, Back reg tmp.ns l ∧ ks = l.flatMap f ∧
      (∀ m ∈ l, LoopSpec loading (ids reg m) (f m) (ids reg' m)) ∧
      (∀ m ∉ l, ids reg' m = ids reg m) ∧ ∀ n, reg'.core n = reg.core n := by
  induction h with
  | @last tmp reg ks is' hloop hend =>
    have hcore := Reg.core_set_ids htmp is'
    have hids := ids_set reg { tmp with is := is' }
    refine ⟨[tmp.ns], fun _ => ks, .last fun p hp => ?_, by simp, fun m hm => ?_, fun m hm => ?_,
      hcore⟩
    · have hprev : tmp.prevNs = some p := by
        unfold PrevLink at hp
        rwa [htmp] at hp
      have hgone := Option.bind_eq_none_iff.mp hend p hprev
      rw [← hcore p, Reg.core, hgone]
      rfl
    · cases List.mem_singleton.mp hm
      have hbefore : ids reg tmp.ns = tmp.is := by rw [ids, htmp]; rfl
      rw [hids, if_pos rfl, hbefore]
      exact hloop.spec
    · rw [hids, if_neg (fun heq => hm (List.mem_singleton.mpr heq))]
  | @next tmp t reg reg' ks ks' is' hloop hfind _ ih =>
    have hcore := Reg.core_set_ids htmp is'
    have hids := ids_set reg { tmp with is := is' }
    obtain ⟨p, hprev, ht⟩ := Option.bind_eq_some_iff.mp hfind
    have htns : t.ns = p := Reg.find_ns ht
    obtain ⟨l, f, hback, rfl, hloops, hother, hcore'⟩ := ih (htns ▸ ht)
    rw [htns] at hback
    have hlink : PrevLink reg p tmp.ns := by
      unfold PrevLink
      rw [htmp]
      exact hprev
    have hsome : (reg.core p).isSome := by
      rw [← hcore p, core_of_find ht]
      rfl
    have hall : Back reg tmp.ns (tmp.ns :: l) :=
      .next hlink hsome (hback.congr fun n => (hcore n).symm)
    have hnot : tmp.ns ∉ l := (List.nodup_cons.mp hall.nodup).1
    refine ⟨tmp.ns :: l, fun m => if m = tmp.ns then ks else f m, hall, ?_, ?_, ?_,
      fun n => (hcore' n).trans (hcore n)⟩
    · rw [List.flatMap_cons, if_pos rfl]
      refine congrArg (ks ++ ·) (List.flatMap_congr fun m hm => ?_)
      have hne : m ≠ tmp.ns := fun heq => hnot (heq ▸ hm)
      rw [if_neg hne]
    · intro m hm
      simp only
      rcases List.mem_cons.mp hm with rfl | hm
      · have hbefore : ids reg tmp.ns = tmp.is := by rw [ids, htmp]; rfl
        rw [if_pos rfl, hother _ hnot, hids, if_pos rfl, hbefore]
        exact hloop.spec
      · have hne : m ≠ tmp.ns := fun heq => hnot (heq ▸ hm)
        have hm' := hloops m hm
        rw [hids, if_neg hne] at hm'
        rw [if_neg hne]
        exact hm'
    · intro m hm
      rw [List.mem_cons, not_or] at hm
      rw [hother m hm.2, hids, if_neg hm.1]

/-! ## Who is disconnected -/

/-- With the sets `before` and `after` of the namespaces `A`: every id but the caller's is killed
once, the caller is not, and no other id is left. -/
structure Disconnects (loading : Nat) (A : Bytes → Prop) (before after : Bytes → Finset Nat)
    (ks : List Nat) : Prop where
  once : ∀ m, A m → ∀ x ∈ before m, x ≠ loading → ks.count x = 1
  spared : loading ∉ ks
  gone : ∀ m, A m → ∀ x ∈ after m, x = loading

/-- The caller is in every set that is not empty, and nobody else is in two of them. -/
structure CallerIn (loading : Nat) (A : Bytes → Prop) (before : Bytes → Finset Nat) : Prop where
  member : ∀ m, A m → before m = ∅ ∨ loading ∈ before m
  apart : ∀ m m', A m → A m' → m ≠ m' → ∀ x ∈ before m, x ∈ before m' → x = loading

theorem disconnects_iff {A : Bytes → Prop} {before after : Bytes → Finset Nat} {l : List Bytes}
    {f : Bytes → List Nat} (hnd : l.Nodup)
    (hloops : ∀ m ∈ l, LoopSpec loading (before m) (f m) (after m)) (hA : ∀ m ∈ l, A m)
    (hout : ∀ m, A m → m ∉ l → before m = ∅ ∧ after m = ∅) :
    Disconnects loading A before after (l.flatMap f) ↔ CallerIn loading A before := by
  -- the sets outside the list are empty
  have hin : ∀ m, A m → ∀ x ∈ before m, m ∈ l := by
    intro m hm x hx
    by_contra hml
    rw [(hout m hm hml).1] at hx
    exact Finset.notMem_empty x hx
  constructor
  · intro h
    have honly : ∀ m ∈ l, ∀ x ∈ after m, x = loading := fun m hm => h.gone m (hA m hm)
    constructor
    · intro m hm
      by_cases hml : m ∈ l
      · exact (hloops m hml).only_caller.mp (honly m hml)
      · exact .inl (hout m hm hml).1
    · intro m m' hm hm' hne x hx hx'
      by_contra hxl
      have hml := hin m hm x hx
      have hml' := hin m' hm' x hx'
      have hmem : ∀ n ∈ l, x ∈ before n → x ∈ f n := fun n hn hxn =>
        ((hloops n hn).mem x).mpr ⟨hxn, fun hxa => hxl (honly n hn x hxa)⟩
      -- killed for both sets, so twice
      have hcount : ∀ y ∈ l.flatMap f, (l.flatMap f).count y = 1 := by
        intro y hy
        obtain ⟨n, hn, hyn⟩ := List.mem_flatMap.mp hy
        refine h.once n (hA n hn) y (((hloops n hn).mem y).mp hyn).1 ?_
        rintro rfl
        exact h.spared hy
      have hpair := (List.nodup_flatMap.mp (List.nodup_iff_count_eq_one.mpr hcount)).2
      have : Std.Symm (Function.onFun List.Disjoint f) := ⟨fun _ _ hd => List.Disjoint.symm hd⟩
      have hdisj := hpair.forall hml hml' hne
      exact hdisj (hmem m hml hx) (hmem m' hml' hx')
  · intro h
    have honly : ∀ m ∈ l, ∀ x ∈ after m, x = loading := fun m hm =>
      (hloops m hm).only_caller.mpr (h.member m (hA m hm))
    have hnodup : (l.flatMap f).Nodup := by
      refine List.nodup_flatMap.mpr ⟨fun m hm => (hloops m hm).once, ?_⟩
      refine hnd.pairwise_of_forall_ne fun m hm m' hm' hne => ?_
      intro x hx hx'
      have hxl := h.apart m m' (hA m hm) (hA m' hm') hne x (((hloops m hm).mem x).mp hx).1
        (((hloops m' hm').mem x).mp hx').1
      exact (hloops m hm).spared (hxl ▸ hx)
    refine ⟨fun m hm x hx hne => ?_, fun hmem => ?_, fun m hm x hx => ?_⟩
    · have hml := hin m hm x hx
      have hxk : x ∈ f m := ((hloops m hml).mem x).mpr
        ⟨hx, fun hxa => hne (honly m hml x hxa)⟩
      exact List.nodup_iff_count_eq_one.mp hnodup x (List.mem_flatMap.mpr ⟨m, hml, hxk⟩)
    · obtain ⟨m, hm, hx⟩ := List.mem_flatMap.mp hmem
      exact (hloops m hm).spared hx
    · by_cases hml : m ∈ l
      · exact honly m hml x hx
      · rw [(hout m hm hml).2] at hx
        exact absurd hx (Finset.notMem_empty x)

/-- The updated namespace and the namespaces before it. -/
def Affected (reg : Reg) (sp : Spec) (m : Bytes) : Prop :=
  m = cstr sp.toNs ∨ OnChain reg (cstr sp.fromNs) m

theorem KillWalk.disconnects {v : VersionHash} {ks : List Nat} (h : KillWalk loading v reg ks reg')
    (hv : reg.find v.ns = some v) :
    Disconnects loading (OnChain reg v.ns) (ids reg) (ids reg') ks ↔
      CallerIn loading (OnChain reg v.ns) (ids reg) := by
  obtain ⟨l, f, hback, rfl, hloops, hother, hcore⟩ := h.spec hv
  refine disconnects_iff hback.nodup hloops (fun m hm => hback.onChain hm) fun m hm hml => ?_
  have hnone := (hback.mem hm).resolve_left hml
  exact ⟨ids_of_core hnone, ids_of_core ((hcore m).trans hnone)⟩

/-! ## A load -/

section Load

variable {loading : Nat} {reg reg₁ reg' : Reg} {sp : Spec} {ks : List Nat}

theorem createNs_ids {ns p : Bytes} {v0 : Int} {list : Option UpdInfo}
    (h : createNs reg (if loading = 0 then none else some loading) ns (some p) v0 list = .ok reg₁)
    (n : Bytes) :
    ids reg₁ n = if n = cstr ns then (if loading = 0 then ∅ else {loading}) else ids reg n := by
  unfold createNs at h
  cases hv : reg.find (cstr p) with
  | none =>
    simp only [hv] at h
    cases h
  | some tmp =>
    simp only [hv] at h
    split at h
    · cases h
      have htmp : tmp.ns = cstr p := Reg.find_ns hv
      rw [ids_set, ids_set]
      by_cases hn : n = cstr ns
      · rw [if_pos hn, if_pos hn]
        by_cases hl : loading = 0
        · simp only [if_pos hl]
        · simp only [if_neg hl]
      · rw [if_neg hn, if_neg hn]
        split
        · rename_i hnp
          have hn' : n = cstr p := hnp.trans htmp
          rw [ids, hn', hv]
          rfl
        · rfl
    · cases h

theorem onChain_created {old new : Bytes} {l : List Bytes} (hback : Back reg₁ new l)
    (hlink : PrevLink reg₁ old new) (hreg : (reg₁.core old).isSome) (hnew : reg.core new = none)
    (hsame : ∀ a b, b ≠ new → (PrevLink reg₁ a b ↔ PrevLink reg a b)) {m : Bytes} :
    OnChain reg₁ new m ↔ m = new ∨ OnChain reg old m := by
  -- the new namespace is not reached again from the old one
  have hfresh : ¬ OnChain reg₁ old new := by
    intro hch
    cases hback with
    | last hend =>
      rw [hend old hlink] at hreg
      cases hreg
    | @next _ p l hp _ hl =>
      obtain rfl := hlink.unique hp
      rcases hl.mem hch with hmem | hnone
      · exact (List.nodup_cons.mp (Back.next hp hreg hl).nodup).1 hmem
      · have hpn := PrevLink.registered hp
        rw [hnone] at hpn
        cases hpn
  have hto : OnChain reg old m → OnChain reg₁ old m := by
    refine Relation.ReflTransGen.mono (fun b a hab => (hsame a b ?_).mpr hab) old m
    rintro rfl
    have hreg := PrevLink.registered hab
    rw [hnew] at hreg
    cases hreg
  have hfrom : OnChain reg₁ old m → OnChain reg old m := by
    intro h
    clear hto
    induction h with
    | refl => exact .refl
    | @tail b a hb hab ih =>
      refine ih.tail ((hsame a b ?_).mp hab)
      rintro rfl
      exact hfresh hb
  constructor
  · intro h
    rcases Relation.ReflTransGen.cases_head h with rfl | ⟨q, hq, hm⟩
    · exact .inl rfl
    · obtain rfl := hlink.unique hq
      exact .inr (hfrom hm)
  · rintro (rfl | h)
    · exact .refl
    · exact .head hlink (hto h)

theorem Disconnects.congr {A A' : Bytes → Prop} {f f' g g' : Bytes → Finset Nat}
    (hA : ∀ m, A m ↔ A' m) (hf : ∀ m, A m → ∀ x ≠ loading, x ∈ f m ↔ x ∈ f' m)
    (hg : ∀ m, A m → ∀ x ≠ loading, x ∈ g m ↔ x ∈ g' m) :
    Disconnects loading A f g ks ↔ Disconnects loading A' f' g' ks := by
  constructor
  · intro h
    refine ⟨fun m hm x hx hne => ?_, h.spared, fun m hm x hx => ?_⟩
    · exact h.once m ((hA m).mpr hm) x ((hf m ((hA m).mpr hm) x hne).mpr hx) hne
    · by_contra hne
      exact hne (h.gone m ((hA m).mpr hm) x ((hg m ((hA m).mpr hm) x hne).mpr hx))
  · intro h
    refine ⟨fun m hm x hx hne => ?_, h.spared, fun m hm x hx => ?_⟩
    · exact h.once m ((hA m).mp hm) x ((hf m hm x hne).mp hx) hne
    · by_contra hne
      exact hne (h.gone m ((hA m).mp hm) x ((hg m hm x hne).mp hx))

theorem CallerIn.congr {A A' : Bytes → Prop} {f f' : Bytes → Finset Nat}
    (hA : ∀ m, A m ↔ A' m) (hf : ∀ m, A m → ∀ x ≠ loading, x ∈ f m ↔ x ∈ f' m)
    (hmem : ∀ m, A m → (f m = ∅ ∨ loading ∈ f m ↔ f' m = ∅ ∨ loading ∈ f' m)) :
    CallerIn loading A f ↔ CallerIn loading A' f' := by
  constructor
  · intro h
    refine ⟨fun m hm => (hmem m ((hA m).mpr hm)).mp (h.member m ((hA m).mpr hm)), ?_⟩
    intro m m' hm hm' hne x hx hx'
    by_contra hxl
    have hm := (hA m).mpr hm
    have hm' := (hA m').mpr hm'
    exact hxl (h.apart m m' hm hm' hne x ((hf m hm x hxl).mpr hx) ((hf m' hm' x hxl).mpr hx'))
  · intro h
    refine ⟨fun m hm => (hmem m hm).mpr (h.member m ((hA m).mp hm)), ?_⟩
    intro m m' hm hm' hne x hx hx'
    by_contra hxl
    exact hxl (h.apart m m' ((hA m).mp hm) ((hA m').mp hm') hne x ((hf m hm x hxl).mp hx)
      ((hf m' hm' x hxl).mp hx'))

theorem appendVersion_ids {v w : VersionHash} {toVers : Int} {info : UpdInfo}
    (h : appendVersion v toVers info = .ok w) : w.ns = v.ns ∧ w.is = v.is := by
  unfold appendVersion at h
  split at h
  · cases h
    exact ⟨rfl, rfl⟩
  · split at h
    · cases h
      exact ⟨rfl, rfl⟩
    · cases h

theorem affected_renamed (ha : specAccepts reg sp = some true)
    (hc : createNs reg (if loading = 0 then none else some loading) sp.toNs (some sp.fromNs)
      sp.toVers (some sp.info) = .ok reg₁) {l : List Bytes} (hback : Back reg₁ (cstr sp.toNs) l)
    (m : Bytes) : OnChain reg₁ (cstr sp.toNs) m ↔ Affected reg sp m := by
  obtain ⟨hne, ⟨v, hv⟩, hnew⟩ := specAccepts_true ha
  have hcore := createNs_some_ok hv hc
  refine onChain_created hback ?_ ?_ ?_ ?_
  · rw [prevLink_core, hcore, if_pos rfl]
    rfl
  · rw [hcore, if_neg hne, if_pos rfl]
    rfl
  · rw [Reg.core, hnew]
    rfl
  · intro a b hb
    rw [prevLink_core, prevLink_core, hcore, if_neg hb]
    split
    · rename_i hbf
      rw [hbf, core_of_find hv]
      rfl
    · rfl

/-- **The caller is the only client left, and everybody else was killed once, exactly when the
caller was registered wherever anybody was and nobody else was registered twice.** -/
theorem load_disconnects_iff (h : SpecRun loading reg sp ks reg') :
    Disconnects loading (Affected reg sp) (ids reg) (ids reg') ks ↔
      CallerIn loading (Affected reg sp) (ids reg) := by
  cases h with
  | @renamed reg₁ _ v _ ha hc hv hwalk =>
    have hvns : v.ns = cstr sp.toNs := Reg.find_ns hv
    have hv' : reg₁.find v.ns = some v := by rw [hvns]; exact hv
    obtain ⟨l, -, hback, -⟩ := hwalk.spec hv'
    rw [hvns] at hback
    have haff := affected_renamed ha hc hback
    have hnew : ids reg (cstr sp.toNs) = ∅ := by
      rw [ids, (specAccepts_true ha).2.2]
      rfl
    have hids := createNs_ids hc
    -- the set of the new namespace differs by the loader at most
    have hbefore : ∀ m, OnChain reg₁ v.ns m → ∀ x ≠ loading, x ∈ ids reg₁ m ↔ x ∈ ids reg m := by
      intro m _ x hx
      rw [hids]
      split
      · rename_i hm
        rw [hm, hnew]
        split <;> simp [hx]
      · rfl
    have hmem : ∀ m, OnChain reg₁ v.ns m →
        (ids reg₁ m = ∅ ∨ loading ∈ ids reg₁ m ↔ ids reg m = ∅ ∨ loading ∈ ids reg m) := by
      intro m _
      rw [hids]
      split
      · rename_i hm
        rw [hm, hnew]
        split <;> simp
      · rfl
    have hA : ∀ m, OnChain reg₁ v.ns m ↔ Affected reg sp m := by
      rw [hvns]
      exact haff
    rw [← Disconnects.congr hA hbefore fun _ _ _ _ => Iff.rfl, ← CallerIn.congr hA hbefore hmem]
    exact hwalk.disconnects hv'
  | @appended reg₁ v v₁ v₂ _ ha hv hwalk hv₁ happ =>
    have hvns : v.ns = cstr sp.toNs := Reg.find_ns hv
    have hv' : reg.find v.ns = some v := by rw [hvns]; exact hv
    have heq := (specAccepts_false ha).1
    have hA : ∀ m, OnChain reg v.ns m ↔ Affected reg sp m := by
      intro m
      unfold Affected
      rw [hvns, ← heq]
      constructor
      · exact .inr
      · rintro (rfl | hm)
        · exact .refl
        · exact hm
    have hafter : ∀ m, OnChain reg v.ns m → ∀ x ≠ loading,
        x ∈ ids reg₁ m ↔ x ∈ ids (reg₁.set v₂) m := by
      intro m _ x hx
      have hv₂ := appendVersion_ids happ
      rw [ids_set, hv₂.1, hv₂.2]
      split
      · rename_i hm
        have hns : v₁.ns = cstr sp.toNs := Reg.find_ns hv₁
        have hm' : m = cstr sp.toNs := hm.trans hns
        rw [hm', ids, hv₁]
        simp [hx]
      · rfl
    rw [← Disconnects.congr hA (fun _ _ _ _ => Iff.rfl) hafter,
      ← CallerIn.congr hA (fun _ _ _ _ => Iff.rfl) fun _ _ => Iff.rfl]
    exact hwalk.disconnects hv'

end Load

/-! ## The functional model is one of the runs -/

variable (hpick : ∀ is : Finset Nat, is.Nonempty → pick is ∈ is)

include hpick

theorem killChain_walk {n : Nat} (h : killChain loading pick n tmp reg = .ok (reg', killed)) :
    ∃ ks, KillWalk loading tmp reg ks reg' ∧ ks.toFinset = killed := by
  induction n generalizing tmp reg reg' killed with
  | zero => cases h
  | succ n ih =>
    obtain ⟨ks, hloop, hset⟩ := @survivors_loop loading tmp.is pick (hpick tmp.is)
    simp only [killChain] at h
    split at h
    · rename_i hend
      cases h
      exact ⟨ks, .last hloop hend, hset⟩
    · rename_i t hnext
      obtain ⟨⟨reg₂, killed₂⟩, h₂, h⟩ := bind_eq_ok.mp h
      cases h
      obtain ⟨ks', hwalk, hset'⟩ := ih h₂
      refine ⟨ks ++ ks', .next hloop hnext hwalk, ?_⟩
      rw [List.toFinset_append, hset, hset']

/-- **A load that is accepted and returns is a run of the loops.** -/
theorem updSpec_run {sp : Spec}
    (ha : specAccepts reg sp ≠ none) (h : updSpec loading pick reg sp = .ok (reg', killed)) :
    ∃ ks, SpecRun loading reg sp ks reg' ∧ ks.toFinset = killed := by
  cases hacc : specAccepts reg sp with
  | none => exact absurd hacc ha
  | some created =>
    cases created with
    | true =>
      simp only [updSpec, hacc, if_true] at h
      obtain ⟨reg₁, hc, h⟩ := bind_eq_ok.mp h
      split at h
      · cases h
      · rename_i v hv
        obtain ⟨⟨reg₂, killed₂⟩, hk, h⟩ := bind_eq_ok.mp h
        cases h
        obtain ⟨ks, hwalk, hset⟩ := killChain_walk hpick hk
        exact ⟨ks, .renamed hacc hc hv hwalk, hset⟩
    | false =>
      obtain ⟨-, v, hv, -, -⟩ := specAccepts_false hacc
      simp only [updSpec, hacc, Bool.false_eq_true, if_false, ok_bind, hv] at h
      obtain ⟨⟨reg₁, killed₁⟩, hk, h⟩ := bind_eq_ok.mp h
      simp only at h
      split at h
      · cases h
      · rename_i v₁ hv₁
        obtain ⟨v₂, happ, h⟩ := bind_eq_ok.mp h
        cases h
        obtain ⟨ks, hwalk, hset⟩ := killChain_walk hpick hk
        exact ⟨ks, .appended hacc hv hwalk hv₁ happ, hset⟩

/-! ## Runs -/

omit hpick

def connected (is : Finset Nat) : Reg :=
  Reg.empty.set (.first (lit "a") 1 is)

def firstUpdate : Spec := ⟨lit "a", lit "a", 1, 2, []⟩

/-- An updater that is a client of the namespace. -/
theorem load_disconnects_member : ∃ reg', SpecRun 1 (connected {1, 2}) firstUpdate [2] reg' ∧
    (Disconnects 1 (Affected (connected {1, 2}) firstUpdate) (ids (connected {1, 2})) (ids reg') [2] ↔
      CallerIn 1 (Affected (connected {1, 2}) firstUpdate) (ids (connected {1, 2}))) := by
  have hloop : KillLoop 1 {1, 2} [2] {1} :=
    .kill (by decide) (by decide) (by decide) (.stop (by decide))
  have hrun : SpecRun 1 (connected {1, 2}) firstUpdate [2] _ :=
    .appended (by decide) rfl (.last hloop rfl) rfl rfl
  exact ⟨_, hrun, load_disconnects_iff hrun⟩

/-- An updater that is no client of the namespace leaves somebody connected. -/
theorem outside_load_spares : (∃ ks reg', SpecRun 7 (connected {1, 2}) firstUpdate ks reg') ∧
    ∀ ks reg', SpecRun 7 (connected {1, 2}) firstUpdate ks reg' →
      ¬ Disconnects 7 (Affected (connected {1, 2}) firstUpdate) (ids (connected {1, 2})) (ids reg')
        ks := by
  have hloop : KillLoop 7 {1, 2} [2] {1} :=
    .kill (by decide) (by decide) (by decide) (.stop (by decide))
  refine ⟨⟨[2], _, .appended (by decide) rfl (.last hloop rfl) rfl rfl⟩, ?_⟩
  · intro ks reg' hrun hdis
    cases hrun with
    | renamed ha => exact absurd ha (by decide)
    | @appended reg₁ v v₁ v₂ _ _ hv hwalk hv₁ happ =>
      obtain rfl := Option.some.inj hv
      obtain ⟨l, f, hback, -, hloops, -⟩ := hwalk.spec rfl
      have hloop := hloops (lit "a") (by cases hback <;> exact List.mem_cons_self)
      -- the loop stopped at one of the two
      obtain ⟨x, hx⟩ := hloop.left ⟨1, by decide⟩
      have hin : x ∈ ids (reg₁.set v₂) (lit "a") := by
        have hv₂ := appendVersion_ids happ
        have hns : v₁.ns = lit "a" := Reg.find_ns hv₁
        have hx₁ : x ∈ v₁.is := by
          unfold ids at hx
          rw [show reg₁.find (lit "a") = some v₁ from hv₁] at hx
          exact hx
        rw [ids_set, if_pos (hv₂.1.trans hns).symm, hv₂.2]
        exact Finset.mem_insert_of_mem hx₁
      have hseven := hdis.gone (lit "a") (.inl rfl) x hin
      have hbefore : x ∈ ({1, 2} : Finset Nat) := hloop.sub hx
      rw [hseven] at hbefore
      exact absurd hbefore (by decide)

end SchemaUpdate.KVolve
