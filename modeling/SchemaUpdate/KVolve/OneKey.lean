import SchemaUpdate.KVolve.Idle

/-! # A value under its own name

A handler of a key that stands under its own name, with quiet update functions,
changes the slot of that key and nothing else; the result depends on nothing else;
and the value keeps its kind and its expire time. -/

namespace SchemaUpdate.KVolve

open SchemaUpdate.Lib SchemaUpdate.Redis

/-! ## One slot -/

/-- What stands in the slot has the expire time `x` and the kind `τ`, and is no shared
integer. -/
def Keeps (x : Option Int) (τ : UType) (o : Option Entry) : Prop :=
  ∀ e, o = some e → e.expire = x ∧ utypeOf e.obj.val = τ ∧ e.obj.val.isShared = false

theorem get_runProc (env : Env) (key : Bytes) (p : KeyProc) (s : Store) (j : Bytes) :
    (runProc env key p s).get env.d j =
      if j = key then (p (((s.get env.d key).filter (·.alive env.now)).map (·.obj.val))).2.apply 0
        ((s.get env.d key).filter (·.alive env.now))
      else s.get env.d j := by
  unfold runProc
  rw [Store.get, Store.setDb_dbs_self, Step.lookup_exec]
  rfl

section

variable {P : Entry → Prop} (hmod : ∀ e w, P e → utypeOf w = utypeOf e.obj.val →
  w.isShared = false → P { e with obj := { e.obj with val := w } })

include hmod

theorem Tame.apply {o : Option Entry} (h : ∀ e, o = some e → P e) {a : Act}
    (ha : Tame (o.map (·.obj.val)) a) (hnew : o = none → a = .keep) :
    ∀ e, a.apply 0 o = some e → P e := by
  cases o with
  | none =>
    rw [hnew rfl]
    exact h
  | some e =>
    cases a with
    | keep => exact h
    | delete => exact fun _ h => by cases h
    | modify w =>
      obtain ⟨y, hy, hkind, hsh⟩ := ha
      cases hy
      rintro e' ⟨⟩
      exact hmod e w (h e rfl) hkind hsh
    | create w => cases ha.1
    | overwrite w => exact ha.elim
    | assign w y => exact ha.elim
    | setExpire w => exact ha.elim

/-- A command that is tame keeps what a live value and any other of its kind have alike. -/
theorem runProc_slot {env : Env} {k : Bytes} {s : Store} {p : KeyProc}
    (hlive : ∀ e, P e → e.alive env.now = true) (h : ∀ e, s.get env.d k = some e → P e)
    (hp : ∀ cur, Tame cur (p cur).2) (hnew : s.get env.d k = none → (p none).2 = .keep) :
    ∀ e, (runProc env k p s).get env.d k = some e → P e := by
  have hfilter : (s.get env.d k).filter (·.alive env.now) = s.get env.d k := by
    cases hs : s.get env.d k with
    | none => rfl
    | some e => simp [Option.filter, hlive e (h e hs)]
  rw [get_runProc, if_pos rfl, hfilter]
  refine Tame.apply hmod h (hp _) fun hnone => ?_
  rw [hnone]
  exact hnew hnone

end

def Slot (d : Nat) (k : Bytes) (d' : Nat) (j : Bytes) : Prop := d' = d ∧ j = k

/-- Both stores have the same in the slot of `k`, and have come from `s₀` and `t₀` by changing
it. -/
structure OneSlot (d : Nat) (k : Bytes) (x : Option Int) (τ : UType) (s₀ t₀ s t : Store) :
    Prop where
  same : t.get d k = s.get d k
  keeps : Keeps x τ (s.get d k)
  left : Touches (Slot d k) s₀ s
  right : Touches (Slot d k) t₀ t

structure OneKey (d : Nat) (k : Bytes) (x : Option Int) (τ : UType) (s₀ t₀ s t : Store) :
    Prop extends OneSlot d k x τ s₀ t₀ s t where
  here : s.has d k = true

theorem vers_unshared (s : Store) {o : Robj} (h : o.val.isShared = false) : s.vers o = o.vers := by
  unfold Store.vers
  split
  · rename_i n hval
    rw [hval] at h
    cases h
  · rfl

theorem vers_of_kind {o : Robj} (h : utypeOf o.val ≠ .string) (s : Store) : s.vers o = o.vers := by
  unfold Store.vers
  split
  · rename_i n hval
    rw [hval] at h
    exact absurd rfl h
  · rfl

section Slot

variable {d : Nat} {k : Bytes} {x : Option Int} {τ : UType} {s₀ t₀ s t : Store}

theorem OneSlot.put (h : OneSlot d k x τ s₀ t₀ s t) {y : Option Entry} (hy : Keeps x τ y) :
    OneSlot d k x τ s₀ t₀ (s.put d k y) (t.put d k y) where
  same := by simp
  keeps := by simpa using hy
  left := h.left.trans (.put s d k y)
  right := h.right.trans (.put t d k y)

theorem OneKey.put (h : OneKey d k x τ s₀ t₀ s t) {e : Entry} (he : Keeps x τ (some e)) :
    OneKey d k x τ s₀ t₀ (s.put d k (some e)) (t.put d k (some e)) :=
  ⟨h.toOneSlot.put he, by rw [Store.has, Store.get_put_self]; rfl⟩

theorem OneKey.entry (h : OneKey d k x τ s₀ t₀ s t) :
    ∃ e, s.get d k = some e ∧ t.get d k = some e ∧ Keeps x τ (some e) := by
  obtain ⟨e, he⟩ := Option.isSome_iff_exists.mp h.here
  exact ⟨e, he, h.same.trans he, he ▸ h.keeps⟩

/-- A command on a container keeps to its slot. -/
theorem OneSlot.runProc {env : Env} (h : OneSlot env.d k x τ s₀ t₀ s t) {p : KeyProc}
    (hp : ∀ cur, Tame cur (p cur).2) (hnew : s.get env.d k = none → (p none).2 = .keep)
    (halive : ∀ e : Entry, e.expire = x → e.alive env.now = true) :
    OneSlot env.d k x τ s₀ t₀ (runProc env k p s) (runProc env k p t) := by
  have htouch : ∀ u : Store, Touches (Slot env.d k) u (KVolve.runProc env k p u) := by
    intro u
    rcases runProc_cases env k p (u.get env.d k) with hu | ⟨y, hu⟩
    · rw [hu u rfl]
      exact .refl u
    · rw [hu u rfl]
      exact .put u env.d k y
  refine ⟨?_, ?_, h.left.trans (htouch s), h.right.trans (htouch t)⟩
  · rw [get_runProc, get_runProc, h.same]
  · refine runProc_slot ?_ (fun e he => halive e he.1) h.keeps hp hnew
    rintro e w ⟨hx, hkind, -⟩ hw hsh
    exact ⟨hx, hw.trans hkind, hsh⟩

end Slot

/-! ## Elements -/

section Elements

variable {env : Env} {k : Bytes} {x : Option Int} {τ : UType} {s₀ t₀ s t : Store}
  (h : OneKey env.d k x τ s₀ t₀ s t) {e : Entry}

theorem derefLive_ok {loc : Bytes} (hok : derefLive env loc s = .ok e) :
    s.get env.d loc = some e ∧ e.alive env.now = true := by
  obtain ⟨e', he', hok⟩ := bind_eq_ok.mp hok
  split at hok
  · rename_i ha
    cases hok
    exact ⟨get_of_deref he', ha⟩
  · cases hok

include h

theorem OneKey.alive (hok : derefLive env k s = .ok e) :
    ∀ e' : Entry, e'.expire = x → e'.alive env.now = true := by
  obtain ⟨hget, ha⟩ := derefLive_ok hok
  intro e' he'
  exact (Entry.alive_congr ((h.keeps e hget).1.trans he'.symm) _).trans ha

theorem OneKey.not_none {p : KeyProc} : s.get env.d k = none → (p none).2 = .keep := by
  intro hnone
  have hh := h.here
  rw [Store.has, hnone] at hh
  cases hh

end Elements

theorem OneKey.elems {env : Env} {k : Bytes} {x : Option Int} {τ : UType} {s₀ t₀ : Store} :
    ElemSteps env k k (fun s t => OneSlot env.d k x τ s₀ t₀ s t ∧
      ∀ e : Entry, e.expire = x → e.alive env.now = true) (OneKey env.d k x τ s₀ t₀) where
  same h := h.same
  start h he := ⟨h.toOneSlot, h.alive he⟩
  get h := ⟨h.1.same, h.1.same⟩
  add h h₀ hp := ⟨h₀.1.runProc hp h.not_none h₀.2, h₀.2⟩
  remove h₀ hp hnew := ⟨h₀.1.runProc hp (fun _ => hnew) h₀.2, h₀.2⟩
  settle h hhas := ⟨h.1, hhas⟩

/-! ## Handlers -/

theorem Quiet.oneKey {v : VersionHash} (hq : Quiet v) (env : Env) (k : Bytes) (x : Option Int)
    (τ : UType) (s₀ t₀ : Store) :
    Carried (updRedisCall env) env v (· = k) (OneKey env.d k x τ s₀ t₀) where
  get := by rintro s t k' h rfl; exact h.same
  raw := by
    rintro s t k' e b h rfl he hraw c
    obtain ⟨hx, hkind, -⟩ := h.keeps e he
    refine h.put ?_
    rintro e' ⟨⟩
    exact ⟨hx, by rw [← hkind, hraw]; rfl, rfl⟩
  tag := by
    rintro s t k' h rfl vers
    obtain ⟨e, hs, ht, hkeeps⟩ := h.entry
    obtain ⟨hx, hkind, hsh⟩ := hkeeps e rfl
    rw [Store.setVers, Store.setVers, hs, ht]
    simp only
    split
    · rename_i n hval
      rw [hval] at hsh
      cases hsh
    · refine h.put ?_
      rintro e' ⟨⟩
      exact ⟨hx, hkind, hsh⟩
  shared h n y := ⟨⟨h.same, h.keeps, ⟨⟨h.left.reg, h.left.get⟩, h.left.tmp⟩,
    ⟨⟨h.right.reg, h.right.get⟩, h.right.tmp⟩⟩, h.here⟩
  walk := by
    rintro s t k' h rfl
    have ht : t.has env.d k' = true := by
      rw [Store.has, h.same]
      exact h.here
    rw [getDbVal_has h.here, getDbVal_has ht]
  found := by
    rintro s t k' loc h rfl hfound
    rw [getDbVal_has h.here] at hfound
    cases hfound
    rfl
  vers := by
    rintro s t k' e h rfl he -
    exact (vers_unshared t (h.keeps e he).2.2).trans (vers_unshared s (h.keeps e he).2.2).symm
  move := by
    rintro s t k' h rfl
    have ht : t.has env.d k' = true := by
      rw [Store.has, h.same]
      exact h.here
    rw [namespaceUpdate_has h.here, namespaceUpdate_has ht]
    exact .ok h
  keys := .inr fun f hf key a => (hq f hf key a).1
  calls := .inr fun f hf key a => (hq f hf key a).2
  elems := by rintro _ _ rfl rfl; exact ⟨_, OneKey.elems⟩

theorem Quiet.oneKey_handlers {v : VersionHash} (hq : Quiet v) (env : Env) (k : Bytes)
    (x : Option Int) (τ : UType) (s₀ t₀ : Store) :
    HClosed checkUpdateKvPair (updRedisCall env) env v (· = k) (OneKey env.d k x τ s₀ t₀) where
  toCarried := hq.oneKey env k x τ s₀ t₀
  cu := (hq.oneKey env k x τ s₀ t₀).checkUpdateKvPair
  new := by
    rintro s t k' h rfl hnone
    rw [getDbVal_has h.here] at hnone
    cases hnone
  versAll := by
    rintro s t k' e h rfl he
    exact (vers_unshared t (h.keeps e he).2.2).trans (vers_unshared s (h.keeps e he).2.2).symm

section Run

variable {env : Env} {v : VersionHash} (hq : Quiet v) {k : Bytes} {e : Entry} {s t : Store}

theorem OneKey.refl (hs : s.get env.d k = some e) (ht : t.get env.d k = some e)
    (hsh : e.obj.val.isShared = false) :
    OneKey env.d k e.expire (utypeOf e.obj.val) s t s t where
  same := ht.trans hs.symm
  keeps := by
    intro e' he'
    rw [hs] at he'
    cases he'
    exact ⟨rfl, rfl, hsh⟩
  left := .refl s
  right := .refl t
  here := Store.has_of_get hs

include hq

/-- **A handler of a key under its own name reads and writes the slot of that key.** -/
theorem Quiet.run_oneKey {h : HName} (hname : h ≠ .keys ∧ h ≠ .set ∧ h ≠ .mset) {args : List Arg}
    (hks : ∀ j ∈ h.keysOf args, j = k) (hs : s.get env.d k = some e)
    (ht : t.get env.d k = some e) (hsh : e.obj.val.isShared = false) :
    RelRes (HRel (OneKey env.d k e.expire (utypeOf e.obj.val) s t))
      (h.run checkUpdateKvPair env v args s) (h.run checkUpdateKvPair env v args t) :=
  (hq.oneKey_handlers env k _ _ s t).run h hname.1 (.inl hname.2) (.refl hs ht hsh) hks

omit hq in
theorem updateAll_cur {loop : Int → Val → LSt → Option (Res LSt)}
    (hloop : LoopRel (· = k) (OneKey env.d k e.expire (utypeOf e.obj.val) s s) loop)
    (hs : s.get env.d k = some e) (hsh : e.obj.val.isShared = false)
    (hdue : e.obj.vers = v.cur ∨ ∀ vers st, loop vers e.obj.val st ≠ none)
    {out : Int × Bytes × Store} (hok : updateAll env v k s loop = .ok out) :
    ∃ e', out.2.2.get env.d k = some e' ∧ e'.obj.vers = v.cur := by
  have hvers : s.vers e.obj = e.obj.vers := vers_unshared s hsh
  unfold updateAll at hok
  simp only [getDbVal_has (Store.has_of_get hs), ok_bind, deref, hs, hvers] at hok
  split at hok
  · rename_i hcur
    cases hok
    exact ⟨e, hs, hcur⟩
  · rename_i hne
    rcases hloop e.obj.vers e.obj.val ⟨true, k, k, s⟩ ⟨true, k, k, s⟩
      (.mk (.refl hs hs hsh) rfl rfl) with hnone | ⟨x, y, hx, -, hxy⟩
    · exact absurd hnone.1 ((hdue.resolve_left hne) _ _)
    · simp only [hx] at hok
      obtain ⟨st, hst, hok⟩ := bind_eq_ok.mp hok
      obtain ⟨st', -, hrel⟩ := hxy.of_ok hst
      cases hrel with
      | mk h hk hl =>
        subst hl
        obtain ⟨c, -, hok⟩ := bind_eq_ok.mp hok
        cases hok
        obtain ⟨e', he', -, hkeeps⟩ := h.entry
        obtain ⟨-, -, hsh'⟩ := hkeeps e' rfl
        simp only [Store.setVers, he']
        split
        · rename_i n hval
          rw [hval] at hsh'
          cases hsh'
        · exact ⟨_, Store.get_put_self _ _ _ _, rfl⟩

end Run

end SchemaUpdate.KVolve
