import SchemaUpdate.KVolve.Invariant

/-! # The names of a key

A key and the names it has under the predecessors of its namespace, as the walk of
KVolve meets them: what a handler of the key can look at or change. -/

namespace SchemaUpdate.KVolve

open SchemaUpdate.Lib SchemaUpdate.Redis

/-- The predecessors the walk from a record goes through. -/
inductive PredNs (reg : Reg) : VersionHash → Bytes → Prop
  | here {v : VersionHash} {p : Bytes} : v.prevNs = some p → PredNs reg v p
  | next {v w : VersionHash} {p q : Bytes} : v.prevNs = some p →
      versionHashLookup reg p = some w → PredNs reg w q → PredNs reg v q

variable {reg : Reg} {v : VersionHash} {key j : Bytes} {env : Env} {s : Store}

theorem PredNs.nulFree {p : Bytes} (h : PredNs reg v p) : NulFree p := by
  induction h with
  | @here v p hp => exact v.prevC p hp
  | next _ _ _ ih => exact ih

/-- The names of `key`: itself, and what it is called under a predecessor. -/
def AliasOf (reg : Reg) (v : VersionHash) (key j : Bytes) : Prop :=
  j = key ∨ ∃ p, PredNs reg v p ∧ constructPrevName key p = some j

/-- A predecessor name of a predecessor name is one of the key: only what stands before the
last colon is replaced. -/
theorem constructPrevName_again {p : Bytes} (hp : NulFree p) (h : constructPrevName key p = some j)
    (q : Bytes) :
    constructPrevName j q = constructPrevName key q := by
  unfold constructPrevName at h ⊢
  cases hs : rsplit colon (cstr key) with
  | none => rw [hs] at h; cases h
  | some ab =>
    obtain ⟨a, b⟩ := ab
    rw [hs] at h
    cases h
    obtain ⟨hkey, hb⟩ := rsplit_sound hs
    have hbn : NulFree b := by
      have := cstr_nulFree key
      rw [hkey, nulFree_append] at this
      exact (nulFree_cons.mp this.2).2
    have hj : cstr (p ++ colon :: b) = p ++ colon :: b :=
      cstr_eq_self (nulFree_append.mpr ⟨hp, nulFree_cons.mpr ⟨by decide, hbn⟩⟩)
    simp only [hj, rsplit_append hb]
    rfl

theorem AliasOf.trans {k : Bytes} (h : AliasOf reg v key k) (h' : AliasOf reg v k j) :
    AliasOf reg v key j := by
  rcases h with rfl | ⟨p, hp, hk⟩
  · exact h'
  · rcases h' with rfl | ⟨q, hq, hj⟩
    · exact .inr ⟨p, hp, hk⟩
    · exact .inr ⟨q, hq, by rw [← constructPrevName_again hp.nulFree hk, hj]⟩

/-! ## The walk -/

theorem prevWalk_alias {here : Bytes → Bool} {n : Nat}
    (h : prevWalk reg here key n (some v) = .ok (some j)) :
    (∃ p, PredNs reg v p ∧ constructPrevName key p = some j) ∧ here j = true := by
  induction n generalizing v with
  | zero => cases h
  | succ n ih =>
    rw [prevWalk] at h
    split at h
    · cases h
    · rename_i p hp
      split at h
      · cases h
      · rename_i old hold
        split at h
        · rename_i hh
          cases h
          exact ⟨⟨p, .here hp, hold⟩, hh⟩
        · cases hw : versionHashLookup reg p with
          | none => rw [hw] at h; cases n <;> cases h
          | some w =>
            rw [hw] at h
            obtain ⟨⟨q, hq, hj⟩, hh⟩ := ih h
            exact ⟨⟨q, .next hp hw hq, hj⟩, hh⟩

theorem getDbVal_alias {loc : Bytes} (h : getDbVal env v key s = .ok (some loc)) :
    AliasOf s.reg v key loc ∧ s.has env.d loc = true := by
  unfold getDbVal at h
  split at h
  · rename_i hh
    cases h
    exact ⟨.inl rfl, hh⟩
  · obtain ⟨hp, hh⟩ := prevWalk_alias h
    exact ⟨.inr hp, hh⟩

theorem prevWalk_congr {here here' : Bytes → Bool} {n : Nat}
    (h : ∀ p j, PredNs reg v p → constructPrevName key p = some j → here' j = here j) :
    prevWalk reg here' key n (some v) = prevWalk reg here key n (some v) := by
  induction n generalizing v with
  | zero => rfl
  | succ n ih =>
    rw [prevWalk, prevWalk]
    split
    · rfl
    · rename_i p hp
      split
      · rfl
      · rename_i old hold
        rw [h p old (.here hp) hold]
        split
        · rfl
        · cases hw : versionHashLookup reg p with
          | none => cases n <;> rfl
          | some w => exact ih fun q j hq => h q j (.next hp hw hq)

theorem getDbVal_congr {t : Store} (hreg : t.reg = s.reg)
    (h : ∀ j, AliasOf s.reg v key j → t.get env.d j = s.get env.d j) :
    getDbVal env v key t = getDbVal env v key s := by
  have hhas : ∀ j, AliasOf s.reg v key j → t.has env.d j = s.has env.d j := by
    intro j hj
    rw [Store.has, Store.has, h j hj]
  unfold getDbVal
  rw [hhas key (.inl rfl), hreg]
  split
  · rfl
  · exact prevWalk_congr fun p j hp hj => hhas j (.inr ⟨p, hp, hj⟩)

variable {s' : Store}

theorem namespaceUpdate_ok (h : namespaceUpdate env v key s = .ok s') :
    s' = s ∨ ∃ old, AliasOf s.reg v key old ∧ s' = s.rename env.now old key := by
  unfold namespaceUpdate at h
  split at h
  · cases h
    exact .inl rfl
  · split at h
    · cases h
    · rename_i old hold
      cases h
      obtain ⟨p, hp, hj⟩ := Option.bind_eq_some_iff.mp hold
      exact .inr ⟨old, .inr ⟨p, .here hp, hj⟩, rfl⟩

theorem namespaceUpdate_kept (h : namespaceUpdate env v key s = .ok s') :
    s'.reg = s.reg ∧ s'.tmp = s.tmp := by
  rcases namespaceUpdate_ok h with rfl | ⟨old, -, rfl⟩
  · exact ⟨rfl, rfl⟩
  · exact ⟨Store.rename_reg .., Store.rename_tmp ..⟩

theorem checkRenameOne_ok (h : checkRenameOne env v key s = .ok s') :
    s' = s ∨ namespaceUpdate env v key s = .ok s' := by
  obtain ⟨found, -, h⟩ := bind_eq_ok.mp h
  split at h
  · exact .inl (Except.ok.inj h).symm
  · split at h
    · exact .inr h
    · split at h
      · exact .inr h
      · exact .inl (Except.ok.inj h).symm

theorem keysStep_ok {pattern : Bytes} (h : keysStep env pattern s key = .ok s') :
    s' = s ∨ ∃ v new, namespaceUpdate env v new s = .ok s' := by
  unfold keysStep at h
  split at h
  · split at h
    · exact .inl (Except.ok.inj h).symm
    · split at h
      · cases h
      · split at h
        · split at h
          · split at h
            · exact .inl (Except.ok.inj h).symm
            · cases h
          · exact .inr ⟨_, _, h⟩
        · exact .inl (Except.ok.inj h).symm
  · exact .inl (Except.ok.inj h).symm

/-! ## Quiet functions -/

/-- The update functions of the record change no key and issue no commands. -/
def Quiet (v : VersionHash) : Prop :=
  ∀ f ∈ v.funs, ∀ key a, (f key a).key = none ∧ (f key a).calls = []

def NamesOf (reg : Reg) (v : VersionHash) (ks : List Bytes) (j : Bytes) : Prop :=
  ∃ k ∈ ks, AliasOf reg v k j

/-- The slots of the names of some keys, in the selected database and in database 0, where
renames are made. -/
def SlotsOf (env : Env) (reg : Reg) (v : VersionHash) (ks : List Bytes) (d : Nat) (j : Bytes) :
    Prop := (d = env.d ∨ d = 0) ∧ NamesOf reg v ks j

theorem Quiet.within_closed (hq : Quiet v) (env : Env) (ks : List Bytes) (s₀ : Store) :
    Closed (updRedisCall env) env v (NamesOf s₀.reg v ks)
      (Same (Within (SlotsOf env s₀.reg v ks) s₀)) (Same (Within (SlotsOf env s₀.reg v ks) s₀)) where
  weak h := h
  settle h _ _ := h
  get := by rintro s t k ⟨rfl, -⟩ -; rfl
  put₀ := by rintro s t k ⟨rfl, hs⟩ hk x; exact ⟨rfl, hs.trans (.put _ ⟨.inl rfl, hk⟩ x)⟩
  put := by rintro s t k ⟨rfl, hs⟩ hk e; exact ⟨rfl, hs.trans (.put _ ⟨.inl rfl, hk⟩ _)⟩
  shared := by rintro s t ⟨rfl, hs⟩ n x; exact ⟨rfl, hs.reg, hs.get⟩
  walk := by rintro s t k ⟨rfl, -⟩ -; rfl
  found := by
    rintro s t k loc ⟨rfl, hs⟩ ⟨k₀, hk₀, hk⟩ hfound
    have halias := (getDbVal_alias hfound).1
    rw [hs.reg] at halias
    exact ⟨k₀, hk₀, hk.trans halias⟩
  vers := by rintro s t k e ⟨rfl, -⟩ - - -; rfl
  move := by
    rintro s t k ⟨rfl, hs⟩ ⟨k₀, hk₀, hk⟩
    refine relRes_same fun s' hok => ?_
    rcases namespaceUpdate_ok hok with rfl | ⟨old, hold, rfl⟩
    · exact hs
    · rw [hs.reg] at hold
      exact hs.trans (.rename _ _ ⟨.inr rfl, k₀, hk₀, hk.trans hold⟩ ⟨.inr rfl, k₀, hk₀, hk⟩)
  keys := .inr fun f hf key a => (hq f hf key a).1
  calls := .inr fun f hf key a => (hq f hf key a).2

/-- **With quiet functions a handler stays within the names of its keys.** -/
theorem Quiet.within (hq : Quiet v) {h : HName} (hk : h ≠ .keys) {args args' : List Arg}
    (hok : h.run checkUpdateKvPair env v args s = .ok (args', s')) :
    Within (SlotsOf env s.reg v (h.keysOf args)) s s' := by
  have hcl := hq.within_closed env (h.keysOf args) s
  have hR : HClosed checkUpdateKvPair (updRedisCall env) env v (NamesOf s.reg v (h.keysOf args))
      (Same (Within (SlotsOf env s.reg v (h.keysOf args)) s)) :=
    { toCarried := hcl.carried
      cu := hcl.carried.checkUpdateKvPair
      new := by rintro s t k ⟨rfl, hs⟩ - -; exact ⟨rfl, hs.reg, hs.get⟩
      versAll := by rintro s t k e ⟨rfl, -⟩ - -; rfl }
  have hsame : Same (Within (SlotsOf env s.reg v (h.keysOf args)) s) s s := ⟨rfl, .refl s⟩
  obtain ⟨q, -, hpq⟩ := (hR.run h hk (.inr fun {s t k} hst hk => by
    obtain ⟨rfl, hs⟩ := hst
    exact ⟨rfl, hs.trans (.put _ ⟨.inl rfl, hk⟩ none)⟩) hsame
    fun k hk => ⟨k, hk, .inl rfl⟩).of_ok hok
  cases hpq with
  | mk hst => exact hst.2

end SchemaUpdate.KVolve
