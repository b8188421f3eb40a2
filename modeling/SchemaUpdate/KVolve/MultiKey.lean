import SchemaUpdate.KVolve.Alias

/-! # Commands on several keys

`kvolve_mset`, `kvolve_mget` and `kvolve_del` are handed the record of the first key
and use it for all of them. Here they are compared with handlers that look every
key up for itself. -/

namespace SchemaUpdate.KVolve

open SchemaUpdate.Lib SchemaUpdate.Redis

/-! ## Every key with its own record -/

def msetOwn (env : Env) : List Arg → Store → Res (List Arg × Store)
  | k :: val :: rest, s =>
    match versionHashLookup s.reg k.ptr with
    | none => do
      let out ← msetOwn env rest s
      .ok (k :: val :: out.1, out.2)
    | some v => do
      let s ← setKeyOld env v k.ptr s
      let out ← msetOwn env rest s
      .ok (k :: { val with vers := v.cur } :: out.1, out.2)
  | args, s => .ok (args, s)

def mgetOwn (env : Env) : List Arg → Store → Res (List Arg × Store)
  | [], s => .ok ([], s)
  | k :: rest, s =>
    match versionHashLookup s.reg k.ptr with
    | none => do
      let out ← mgetOwn env rest s
      .ok (k :: out.1, out.2)
    | some v => do
      let (key, s) ← getKey checkUpdateKvPair env v k.ptr s
      let out ← mgetOwn env rest s
      .ok ({ k with ptr := key } :: out.1, out.2)

def delOwn (env : Env) : List Bytes → Store → Res Store
  | [], s => .ok s
  | k :: rest, s =>
    match versionHashLookup s.reg k with
    | none => delOwn env rest s
    | some v => do
      let s ← checkRename env v [k] s
      delOwn env rest s

inductive MultiCmd
  | mset | mget | del
  deriving DecidableEq

def MultiCmd.name : MultiCmd → HName
  | .mset => .mset
  | .mget => .mget
  | .del => .del

def MultiCmd.own (m : MultiCmd) (env : Env) (args : List Arg) (s : Store) :
    Res (List Arg × Store) :=
  match m with
  | .mset => msetOwn env args s
  | .mget => mgetOwn env args s
  | .del => do .ok (args, ← delOwn env (args.map (·.ptr)) s)

/-- The records tell reads alike apart from their names: neither namespace was renamed or updated,
and they are at the same version. -/
structure VersionHash.ReadsAs (v w : VersionHash) : Prop where
  prev : v.prevNs = none ∧ w.prevNs = none
  hist : v.hist = w.hist
  plain : ∀ p ∈ v.hist, p.2 = none

/-- The record that is used for a key, if any, acts on it as its own, if any. A write takes the
predecessor and the version from it, version 0 being that of a value without a tag; a deletion the
predecessor, and the version if there is one. -/
def ServesFor (m : MultiCmd) (x y : Option VersionHash) : Prop :=
  match m with
  | .mset => x.bind (·.prevNs) = y.bind (·.prevNs) ∧
      (x.map (·.cur)).getD 0 = (y.map (·.cur)).getD 0
  | .del => x.bind (·.prevNs) = y.bind (·.prevNs) ∧
      (x.bind (·.prevNs) ≠ none → x.map (·.cur) = y.map (·.cur))
  | .mget => x.map (·.ns) = y.map (·.ns) ∨ ∃ v w, x = some v ∧ y = some w ∧ v.ReadsAs w

/-! ## Records that act alike -/

section Alike

variable {v w : VersionHash} (hp : v.prevNs = w.prevNs)

include hp

theorem prevWalk_alike (reg : Reg) (here : Bytes → Bool) (key : Bytes) (n : Nat) :
    prevWalk reg here key n (some v) = prevWalk reg here key n (some w) := by
  cases n with
  | zero => rfl
  | succ n => rw [prevWalk, prevWalk, hp]

theorem getDbVal_alike (env : Env) (key : Bytes) (s : Store) :
    getDbVal env v key s = getDbVal env w key s := by
  rw [getDbVal, getDbVal, prevWalk_alike hp]

theorem setKeyOld_alike (env : Env) (key : Bytes) (s : Store) :
    setKeyOld env v key s = setKeyOld env w key s := by
  rw [setKeyOld, setKeyOld, hp, checkdelOld, checkdelOld, prevWalk_alike hp]

theorem namespaceUpdate_alike (env : Env) (key : Bytes) (s : Store) :
    namespaceUpdate env v key s = namespaceUpdate env w key s := by
  rw [namespaceUpdate, namespaceUpdate, hp]

theorem checkRenameOne_alike (hc : v.cur = w.cur) (env : Env) (key : Bytes) (s : Store) :
    checkRenameOne env v key s = checkRenameOne env w key s := by
  unfold checkRenameOne
  rw [getDbVal_alike hp, namespaceUpdate_alike hp, hc]

end Alike

/-- A read does not tell the records apart. -/
theorem VersionHash.ReadsAs.getKey {v w : VersionHash} (h : v.ReadsAs w) (env : Env) (key : Bytes)
    (s : Store) : getKey checkUpdateKvPair env v key s = getKey checkUpdateKvPair env w key s := by
  have hp : v.prevNs = w.prevNs := h.prev.1.trans h.prev.2.symm
  have hcur : v.cur = w.cur := by simp only [VersionHash.cur, h.hist]
  have hpending : ∀ t, v.pending t = w.pending t := fun t => by
    simp only [VersionHash.pending, h.hist]
  have hplain : ∀ t, ∀ p ∈ w.pending t, p.2 = none := fun t p hmem =>
    h.plain p (v.pending_subset (hpending t ▸ hmem))
  have hnames : ∀ u : VersionHash, ∀ t, renames u (w.pending t) = false := fun u t => by
    unfold renames
    split
    · rename_i n i hhead
      cases hplain t _ (List.mem_of_head? hhead)
    · rfl
  have hsubject : ∀ small t st,
      migrateSubject (updRedisCall env) env v true .string small t st =
        migrateSubject (updRedisCall env) env w true .string small t st := fun small t st => by
    simp only [migrateSubject, moveFirst, checkRename, h.prev.1, h.prev.2, hcur, hpending, hnames]
    refine if_congr Iff.rfl rfl (if_congr Iff.rfl rfl ?_)
    refine foldlM_congr fun st p hmem => ?_
    rw [updateTo, updateTo, hplain t p hmem]
    rfl
  simp only [KVolve.getKey, checkUpdateKvPair, checkUpdateWith, getDbVal_alike hp, hsubject]

/-! ## The registry stays -/

variable {v : VersionHash}

theorem setKeyOld_reg {env : Env} {key : Bytes} {s s' : Store}
    (h : setKeyOld env v key s = .ok s') : s'.reg = s.reg := by
  rw [setKeyOld_eq] at h
  split at h
  · obtain ⟨found, -, h⟩ := bind_eq_ok.mp h
    cases found with
    | none => cases h; rfl
    | some old => cases h; rfl
  · cases h
    rfl

theorem checkRenameOne_reg {env : Env} {key : Bytes} {s s' : Store}
    (h : checkRenameOne env v key s = .ok s') : s'.reg = s.reg := by
  rcases checkRenameOne_ok h with rfl | h
  · rfl
  · exact (namespaceUpdate_kept h).1

/-! ## One record for all keys -/

section Loops

variable {env : Env} {v : VersionHash} {args : List Arg} {s : Store}

theorem msetOwn_short (hne : ∀ k val rest, args = k :: val :: rest → False) :
    msetOwn env args s = .ok (args, s) := by
  unfold msetOwn
  split
  · exact absurd rfl (hne _ _ _)
  · rfl

theorem setKeyOld_unmoved (hp : v.prevNs = none) (env : Env) (key : Bytes) (s : Store) :
    setKeyOld env v key s = .ok s := by
  rw [setKeyOld, if_neg fun h => h.1 hp]

/-- One pair of `MSET` with a record that serves for its key. -/
theorem msetOwn_cons {k val : Arg} {rest : List Arg} (hval : val.vers = 0)
    (h : ServesFor .mset (some v) (versionHashLookup s.reg k.ptr)) :
    msetOwn env (k :: val :: rest) s = (do
      let s ← setKeyOld env v k.ptr s
      let out ← msetOwn env rest s
      .ok (k :: { val with vers := v.cur } :: out.1, out.2)) := by
  obtain ⟨hp, hc⟩ := h
  rw [msetOwn]
  cases hw : versionHashLookup s.reg k.ptr with
  | none =>
    rw [hw] at hp hc
    have hcur : v.cur = val.vers := hc.trans hval.symm
    rw [setKeyOld_unmoved hp, ok_bind, hcur]
  | some w =>
    rw [hw] at hp hc
    have hcur : v.cur = w.cur := hc
    rw [setKeyOld_alike hp, hcur]

theorem msetLoop_eq_own (hvers : ∀ a ∈ args, a.vers = 0)
    (h : ∀ k ∈ evenArgs args, ServesFor .mset (some v) (versionHashLookup s.reg k)) :
    msetLoop env v args s = msetOwn env args s := by
  induction args using evenArgs.induct generalizing s with
  | case1 k val rest ih =>
    rw [msetLoop, msetOwn_cons (hvers val (by simp)) (h k.ptr (by simp [evenArgs]))]
    cases hs : setKeyOld env v k.ptr s with
    | error e => rfl
    | ok s₁ =>
      have hreg := setKeyOld_reg hs
      rw [ok_bind, ok_bind, ih (fun a ha => hvers a (by simp [ha]))
        fun j hj => hreg ▸ h j (by simp [evenArgs, hj])]
  | case2 args hne =>
    rw [msetOwn_short hne]
    unfold msetLoop
    split
    · exact absurd rfl (hne _ _ _)
    · rfl

/-- No record does to a pair of `MSET` what that of version 0 without a predecessor does. -/
theorem msetOwn_none (hvers : ∀ a ∈ args, a.vers = 0)
    (h : ∀ k ∈ evenArgs args, ServesFor .mset none (versionHashLookup s.reg k)) :
    msetOwn env args s = .ok (args, s) := by
  induction args using evenArgs.induct with
  | case1 k val rest ih =>
    have hrest := ih (fun a ha => hvers a (by simp [ha])) fun j hj => h j (by simp [evenArgs, hj])
    obtain ⟨hp, hc⟩ := h k.ptr (by simp [evenArgs])
    rw [msetOwn]
    cases hw : versionHashLookup s.reg k.ptr with
    | none => simp only [hrest, ok_bind]
    | some w =>
      rw [hw] at hp hc
      have hcur : w.cur = val.vers := hc.symm.trans (hvers val (by simp)).symm
      simp only [setKeyOld_unmoved hp.symm, ok_bind, hrest, hcur]
  | case2 args hne => exact msetOwn_short hne

theorem msetLoop_unmoved (hp : v.prevNs = none) {args' : List Arg} {s' : Store}
    (h : msetLoop env v args s = .ok (args', s')) : s' = s := by
  induction args using evenArgs.induct generalizing args' with
  | case1 k val rest ih =>
    rw [msetLoop, setKeyOld_unmoved hp, ok_bind] at h
    obtain ⟨out, hout, h⟩ := bind_eq_ok.mp h
    cases h
    exact ih hout
  | case2 args hne =>
    unfold msetLoop at h
    split at h
    · exact absurd rfl (hne _ _ _)
    · cases h
      rfl

theorem mgetLoop_eq_own (h : ∀ k ∈ args.map (·.ptr), ∃ w, versionHashLookup s.reg k = some w ∧
    (w = v ∨ v.ReadsAs w)) : mgetLoop checkUpdateKvPair env v args s = mgetOwn env args s := by
  induction args generalizing s with
  | nil => rfl
  | cons k rest ih =>
    obtain ⟨w, hw, hvw⟩ := h k.ptr (by simp)
    have hget : getKey checkUpdateKvPair env v k.ptr s =
        getKey checkUpdateKvPair env w k.ptr s := by
      obtain rfl | hvw := hvw
      · rfl
      · exact hvw.getKey env k.ptr s
    rw [mgetLoop, mgetOwn, hw]
    simp only [hget]
    cases hs : getKey checkUpdateKvPair env w k.ptr s with
    | error e => rfl
    | ok out =>
      have hreg : out.2.reg = s.reg := getKey_reg hs
      simp only [ok_bind]
      rw [ih fun j hj => hreg ▸ h j (List.mem_cons_of_mem _ hj)]

theorem mgetOwn_none (h : ∀ k ∈ args.map (·.ptr), versionHashLookup s.reg k = none) :
    mgetOwn env args s = .ok (args, s) := by
  induction args with
  | nil => rfl
  | cons k rest ih =>
    rw [mgetOwn, h k.ptr (by simp)]
    simp only [ih fun j hj => h j (List.mem_cons_of_mem _ hj), ok_bind]

/-- What a deletion does to a key whose record, if any, has no predecessor. -/
theorem delOwn_unmoved {keys : List Bytes}
    (h : ∀ k ∈ keys, (versionHashLookup s.reg k).bind (·.prevNs) = none) :
    delOwn env keys s = .ok s := by
  induction keys with
  | nil => rfl
  | cons k rest ih =>
    have hrest := ih fun j hj => h j (by simp [hj])
    have hk := h k (by simp)
    rw [delOwn]
    cases hw : versionHashLookup s.reg k with
    | none => exact hrest
    | some w =>
      rw [hw] at hk
      simp only [checkRename, if_pos (show w.prevNs = none from hk), ok_bind, hrest]

theorem checkRename_eq_own {keys : List Bytes}
    (h : ∀ k ∈ keys, ServesFor .del (some v) (versionHashLookup s.reg k)) :
    checkRename env v keys s = delOwn env keys s := by
  by_cases hprev : v.prevNs = none
  · rw [checkRename, if_pos hprev, delOwn_unmoved fun k hk => (h k hk).1.symm.trans hprev]
  rw [checkRename, if_neg hprev]
  induction keys generalizing s with
  | nil => rfl
  | cons k rest ih =>
    obtain ⟨hp, hc⟩ := h k (by simp)
    obtain ⟨w, hw, hcw⟩ := Option.map_eq_some_iff.mp (hc hprev).symm
    rw [hw] at hp
    have hp : v.prevNs = w.prevNs := hp
    have hone : checkRename env w [k] s = checkRenameOne env v k s := by
      rw [checkRename, if_neg (hp ▸ hprev), checkRenameOne_alike hp hcw.symm]
      exact bind_pure _
    rw [delOwn, hw]
    simp only [hone]
    rw [List.foldlM_cons]
    cases hs : checkRenameOne env v k s with
    | error e => rfl
    | ok s₁ =>
      have hreg := checkRenameOne_reg hs
      exact ih fun j hj => hreg ▸ h j (by simp [hj])

end Loops

/-! ## What is touched -/

def OwnNames (reg : Reg) (keys : List Bytes) (j : Bytes) : Prop :=
  ∃ i ∈ keys, ∃ w, versionHashLookup reg i = some w ∧ AliasOf reg w i j

def OwnSlots (env : Env) (reg : Reg) (keys : List Bytes) (d : Nat) (j : Bytes) : Prop :=
  (d = env.d ∨ d = 0) ∧ OwnNames reg keys j

theorem PredNs.alike {reg : Reg} {w : VersionHash} (hp : v.prevNs = w.prevNs) {p : Bytes}
    (h : PredNs reg v p) : PredNs reg w p := by
  cases h with
  | here h => exact .here (hp ▸ h)
  | next h hw hq => exact .next (hp ▸ h) hw hq

theorem AliasOf.alike {reg : Reg} {w : VersionHash} (hp : v.prevNs = w.prevNs) {k j : Bytes}
    (h : AliasOf reg v k j) : AliasOf reg w k j := by
  rcases h with rfl | ⟨p, hpred, hj⟩
  · exact .inl rfl
  · exact .inr ⟨p, hpred.alike hp, hj⟩

theorem ownRecord {y : Option VersionHash} (hprev : v.prevNs ≠ none)
    (hp : (some v).bind (·.prevNs) = y.bind (·.prevNs)) : ∃ w, y = some w ∧ v.prevNs = w.prevNs := by
  cases y with
  | none => exact absurd hp hprev
  | some w => exact ⟨w, rfl, hp⟩

section Within

variable {env : Env} {v : VersionHash} {keys : List Bytes} {s s' : Store}
  {P : Nat → Bytes → Prop} {key : Bytes}

theorem setKeyOld_within (hP : ∀ j, AliasOf s.reg v key j → P env.d j)
    (h : setKeyOld env v key s = .ok s') : Within P s s' := by
  rw [setKeyOld_eq] at h
  split at h
  · obtain ⟨found, hfound, h⟩ := bind_eq_ok.mp h
    cases found with
    | none => cases h; exact .refl s
    | some old => cases h; exact .put s (hP old (getDbVal_alias hfound).1) none
  · cases h
    exact .refl s

theorem msetLoop_within {args args' : List Arg}
    (hP : ∀ k ∈ evenArgs args, ∀ j, AliasOf s.reg v k j → P env.d j)
    (h : msetLoop env v args s = .ok (args', s')) : Within P s s' := by
  induction args using evenArgs.induct generalizing s args' with
  | case1 k val rest ih =>
    rw [msetLoop] at h
    obtain ⟨s₁, h₁, h⟩ := bind_eq_ok.mp h
    obtain ⟨⟨args₂, s₂⟩, h₂, h⟩ := bind_eq_ok.mp h
    cases h
    have hw := setKeyOld_within (fun j hj => hP k.ptr (by simp [evenArgs]) j hj) h₁
    refine hw.trans (ih (fun i hi j hj => ?_) h₂)
    exact hP i (by simp [evenArgs, hi]) j (hw.reg ▸ hj)
  | case2 args hne =>
    unfold msetLoop at h
    split at h
    · exact absurd rfl (hne _ _ _)
    · cases h
      exact .refl _

variable (hP : ∀ j, AliasOf s.reg v key j → P 0 j)

include hP

theorem namespaceUpdate_within (h : namespaceUpdate env v key s = .ok s') : Within P s s' := by
  rcases namespaceUpdate_ok h with rfl | ⟨old, hold, rfl⟩
  · exact .refl _
  · exact .rename s _ (hP old hold) (hP key (.inl rfl))

theorem checkRenameOne_within (h : checkRenameOne env v key s = .ok s') : Within P s s' := by
  rcases checkRenameOne_ok h with rfl | h
  · exact .refl _
  · exact namespaceUpdate_within hP h

omit hP

theorem checkRename_within (hP : ∀ k ∈ keys, ∀ j, AliasOf s.reg v k j → P 0 j)
    (h : checkRename env v keys s = .ok s') : Within P s s' := by
  unfold checkRename at h
  split at h
  · cases h
    exact .refl s
  · induction keys generalizing s with
    | nil => cases h; exact .refl _
    | cons k keys ih =>
      rw [List.foldlM_cons] at h
      obtain ⟨s₁, h₁, h₂⟩ := bind_eq_ok.mp h
      have hw := checkRenameOne_within (fun j hj => hP k (by simp) j hj) h₁
      exact hw.trans (ih (fun i hi j hj => hP i (by simp [hi]) j (hw.reg ▸ hj)) h₂)

end Within

def twoNamespaces : Store :=
  leftBehindAt (loaded ((registered "a" 1).set (.first (lit "b") 5 ∅))
    ⟨lit "a", lit "c", 1, 2, []⟩) (lit "a:2")

end SchemaUpdate.KVolve
