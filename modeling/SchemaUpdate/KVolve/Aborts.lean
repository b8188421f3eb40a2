import SchemaUpdate.KVolve.Faults

/-! # Commands that take the server down

Handlers run before Redis looks at the number of arguments or at the type of a value. A
server without update functions is lost to an assertion, a panic or freed memory, or to a
predecessor name of a key without a colon, in a few ways only: an odd `MSET`, an outdated
entry that its function cannot go through to the end, and a bare key that is looked for
under a predecessor. -/

namespace SchemaUpdate.KVolve

open SchemaUpdate.Lib SchemaUpdate.Redis

/-! ## Bare keys -/

variable {v : VersionHash} {env : Env} {s s' : Store}

def BareKept (s s' : Store) : Prop := ∀ d j, colon ∉ cstr j → s'.has d j = s.has d j

theorem BareKept.refl (s : Store) : BareKept s s := fun _ _ _ => rfl

theorem BareKept.trans {s'' : Store} (h : BareKept s s') (h' : BareKept s' s'') :
    BareKept s s'' := fun d j hj => (h' d j hj).trans (h d j hj)

theorem colon_of_constructPrevName {key p old : Bytes} (hp : NulFree p)
    (h : constructPrevName key p = some old) : colon ∈ cstr key ∧ colon ∈ cstr old := by
  obtain ⟨⟨a, q⟩, hsplit, rfl⟩ := Option.map_eq_some_iff.mp h
  have hkey := (rsplit_sound hsplit).1
  have hq : NulFree q := by
    have hnul := cstr_nulFree key
    rw [hkey] at hnul
    exact (nulFree_cons.mp (nulFree_append.mp hnul).2).2
  refine ⟨by rw [hkey]; simp, ?_⟩
  rw [cstr_eq_self (nulFree_append.mpr ⟨hp, nulFree_cons.mpr ⟨colon_ne_zero, hq⟩⟩)]
  simp

section Bare

variable {env : Env} {v : VersionHash} {key : Bytes} {s s' : Store}

theorem namespaceUpdate_bare (h : namespaceUpdate env v key s = .ok s') : BareKept s s' := by
  unfold namespaceUpdate at h
  split at h
  · cases h
    exact .refl _
  · split at h
    · cases h
    · rename_i old hold
      cases h
      obtain ⟨p, hp, hname⟩ := Option.bind_eq_some_iff.mp hold
      obtain ⟨hkey, hold⟩ := colon_of_constructPrevName (v.prevC p hp) hname
      intro d j hj
      rw [Store.has, Store.get_rename_other, Store.has]
      rintro ⟨-, rfl | rfl⟩
      · exact hj hold
      · exact hj hkey

theorem setKeyOld_bare (h : setKeyOld env v key s = .ok s') : BareKept s s' := by
  unfold setKeyOld checkdelOld at h
  split at h
  · obtain ⟨found, hfound, h⟩ := bind_eq_ok.mp h
    cases found with
    | none =>
      cases h
      exact .refl _
    | some old =>
      cases h
      obtain ⟨⟨p, hp, hname⟩, -⟩ := prevWalk_alias hfound
      have hold := (colon_of_constructPrevName hp.nulFree hname).2
      intro d j hj
      rw [Store.has, Store.get_put, if_neg, Store.has]
      rintro ⟨-, rfl⟩
      exact hj hold
  · cases h
    exact .refl _

theorem checkRenameOne_bare (h : checkRenameOne env v key s = .ok s') : BareKept s s' := by
  rcases checkRenameOne_ok h with rfl | h
  · exact .refl _
  · exact namespaceUpdate_bare h

theorem checkRename_bare {keys : List Bytes} (h : checkRename env v keys s = .ok s') :
    BareKept s s' := by
  unfold checkRename at h
  split at h
  · cases h
    exact .refl _
  · exact foldlM_rel BareKept.refl (fun _ _ _ => BareKept.trans)
      (fun _ _ _ _ h => checkRenameOne_bare h) h

theorem setVers_bare (s : Store) (d : Nat) (k : Bytes) (t : Int) :
    BareKept s (s.setVers d k t) := by
  intro d' j _
  rw [Store.has, Store.get_setVers, Store.has]
  split
  · rename_i h
    rw [h.1, h.2, Option.isSome_map]
  · rfl

theorem bump_bare {t : Int} {st st' : MSt} (h : bump env t st = .ok st') :
    BareKept st.s st'.s := by
  unfold bump at h
  split at h
  · obtain ⟨_, -, h⟩ := bind_eq_ok.mp h
    cases h
    exact setVers_bare st.s env.d st.loc t
  · cases h
    exact .refl _

theorem migrateSubject_bare (hv : NoFuns v) {nested : Nested} {checkKey : Bool} {type : UType}
    {small : Bool} {t : Int} {st st' : MSt}
    (h : migrateSubject nested env v checkKey type small t st = .ok st') :
    BareKept st.s st'.s := by
  rcases migrateSubject_ok h with ⟨-, s₁, hs₁, rfl⟩ | ⟨-, -, rfl⟩ | ⟨-, -, st₁, hst₁, h⟩
  · exact checkRename_bare hs₁
  · exact .refl _
  · have hmove : BareKept st.s st₁.s := by
      rcases moveFirst_ok hst₁ with ⟨-, s₁, hs₁, rfl⟩ | ⟨-, rfl⟩
      · exact namespaceUpdate_bare hs₁
      · exact .refl _
    refine hmove.trans (foldlM_rel (R := fun a b : MSt => BareKept a.s b.s)
      (fun _ => .refl _) (fun _ _ _ => BareKept.trans) (fun st p hp st' hst' => ?_) h)
    simp only [updateTo, hv.pending t p hp, List.foldlM_nil, pure_eq_ok, ok_bind] at hst'
    exact bump_bare hst'

theorem getKey_bare (hv : NoFuns v) {key' : Bytes}
    (h : getKey checkUpdateKvPair env v key s = .ok (key', s')) : BareKept s s' := by
  unfold getKey checkUpdateKvPair checkUpdateWith at h
  obtain ⟨p, hp, h⟩ := bind_eq_ok.mp h
  cases h
  obtain ⟨found, -, hp⟩ := bind_eq_ok.mp hp
  cases found with
  | none =>
    cases hp
    exact .refl _
  | some loc =>
    obtain ⟨c, -, hp⟩ := bind_eq_ok.mp hp
    obtain ⟨st, hst, hp⟩ := bind_eq_ok.mp hp
    cases hp
    exact migrateSubject_bare hv hst

theorem keysStep_bare {pattern : Bytes} (h : keysStep env pattern s key = .ok s') :
    BareKept s s' ∧ s'.reg = s.reg := by
  rcases keysStep_ok h with rfl | ⟨v, new, h⟩
  · exact ⟨.refl _, rfl⟩
  · exact ⟨namespaceUpdate_bare h, (namespaceUpdate_kept h).1⟩

end Bare

/-! ## Predecessor names that are formed -/

/-- The names of an absent key in the predecessor namespaces are formed when the key is looked for;
it must have a colon then. -/
def FormedAt (env : Env) (v : VersionHash) (s : Store) (k : Bytes) : Prop :=
  v.prevNs ≠ none → s.has env.d k = false → colon ∈ cstr k

def VisitFormed (env : Env) (s : Store) (k : Bytes) : Prop :=
  s.has env.d k = true → (versionHashLookup s.reg k).bind (·.nextNs) ≠ none → colon ∈ cstr k

def HName.turn (h : HName) (env : Env) (v : VersionHash) (s : Store) (k : Bytes) : Res Store :=
  match h with
  | .mset => setKeyOld env v k s
  | .mget => Prod.snd <$> getKey checkUpdateKvPair env v k s
  | .del => checkRenameOne env v k s
  | _ => .ok s

/-- `kvolve_construct_prev_name` is called on keys with a colon only, by `kvolve_keys` and by the
other handlers. -/
def KeysFormed (env : Env) (args : List Arg) (s : Store) : Prop :=
  ∀ p ∈ args.head?, cstr p.ptr ≠ lit "kvolve" →
    Along (keysStep env p.ptr) (VisitFormed env) s (env.iter (s.dbs env.d))

def HName.Formed (h : HName) (env : Env) (v : VersionHash) (args : List Arg) (s : Store) : Prop :=
  if h = .keys then KeysFormed env args s
  else Along (h.turn env v) (FormedAt env v) s (h.keysOf args)

/-- No bare key is reached that is stored while `*` has a next namespace. -/
def KeysHarmless (env : Env) (args : List Arg) (s : Store) : Prop :=
  ∀ p ∈ args.head?, cstr p.ptr ≠ lit "kvolve" → ∀ pre k post,
    env.iter (s.dbs env.d) = pre ++ k :: post →
    (∃ s', pre.foldlM (keysStep env p.ptr) s = .ok s') → VisitFormed env s k

/-- `MSET` has pairs, no bare key is reached that is absent while the namespace has a predecessor,
and the entry found for a key is one that its migration can go through. -/
def HName.Harmless (h : HName) (env : Env) (v : VersionHash) (args : List Arg) (s : Store) :
    Prop :=
  if h = .keys then KeysHarmless env args s
  else (h = .mset → args.length % 2 = 0) ∧
    (∀ pre k post, h.keysOf args = pre ++ k :: post →
      (∃ s', pre.foldlM (h.turn env v) s = .ok s') → FormedAt env v s k) ∧
    ∀ t, h.checks = some t → Along (h.turn env v) (EntryKept env v t) s (h.keysOf args)

theorem HName.turn_bare {h : HName} (hv : NoFuns v) {k : Bytes} (hok : h.turn env v s k = .ok s') :
    BareKept s s' := by
  unfold HName.turn at hok
  split at hok
  · exact setKeyOld_bare hok
  · obtain ⟨⟨k', s₁⟩, hget, rfl⟩ := map_eq_ok.mp hok
    exact getKey_bare hv hget
  · exact checkRenameOne_bare hok
  · cases hok
    exact .refl _

theorem BareKept.formedAt (h : BareKept s s') (k : Bytes) :
    FormedAt env v s' k ↔ FormedAt env v s k := by
  by_cases hk : colon ∈ cstr k
  · exact iff_of_true (fun _ _ => hk) (fun _ _ => hk)
  · unfold FormedAt
    rw [h _ _ hk]

theorem HName.formed_iff {h : HName} (hne : h ≠ .keys) (hv : NoFuns v) {args : List Arg} :
    h.Formed env v args s ↔ ∀ pre k post, h.keysOf args = pre ++ k :: post →
      (∃ s', pre.foldlM (h.turn env v) s = .ok s') → FormedAt env v s k := by
  rw [HName.Formed, if_neg hne, along_iff_split]
  refine forall_congr' fun pre => forall_congr' fun k => forall_congr' fun post =>
    forall_congr' fun _ => ?_
  rw [forall_exists_index]
  refine forall_congr' fun s' => forall_congr' fun hs' => ?_
  exact (foldlM_rel BareKept.refl (fun _ _ _ => BareKept.trans)
    (fun _ _ _ _ hok => HName.turn_bare hv hok) hs').formedAt k

theorem keysFormed_iff {args : List Arg} : KeysFormed env args s ↔ KeysHarmless env args s := by
  unfold KeysFormed KeysHarmless
  simp only [along_iff_split, forall_exists_index]
  refine forall_congr' fun p => forall_congr' fun _ => forall_congr' fun _ => forall_congr' fun pre =>
    forall_congr' fun k => forall_congr' fun post => forall_congr' fun _ => forall_congr' fun s' =>
    forall_congr' fun hs' => ?_
  obtain ⟨hbare, hreg⟩ := foldlM_rel (R := fun a b => BareKept a b ∧ b.reg = a.reg)
    (fun s => ⟨.refl s, rfl⟩) (fun _ _ _ h h' => ⟨h.1.trans h'.1, h'.2.trans h.2⟩)
    (fun _ _ _ _ hok => keysStep_bare hok) hs'
  by_cases hk : colon ∈ cstr k
  · exact iff_of_true (fun _ _ => hk) (fun _ _ => hk)
  · unfold VisitFormed
    rw [hbare _ _ hk, hreg]

/-! ## Handlers -/

section Handlers

variable {v : VersionHash} (hv : NoFuns v) (env : Env) (k : Arg) (rest : List Arg) (s : Store)

theorem onKey_noAbort (f : Bytes → Store → Res (Bytes × Store)) :
    NoAbort (onKey f (k :: rest) s) ↔ NoAbort (f k.ptr s) := by
  unfold onKey
  rw [noAbort_bind]
  exact and_iff_left fun _ _ => noAbort_ok _

variable (args : List Arg) (cu : CheckUpdate) (all : UpdateAll)

theorem migrating_noAbort (cu : CheckUpdate) :
    NoAbort (migrating all cu env v (k :: rest) s) ↔ NoAbort (all cu env v k.ptr s) := by
  unfold migrating
  rw [onKey_noAbort, noAbort_bind]
  exact and_iff_left fun _ _ => noAbort_ok _

theorem creating_noAbort (cu : CheckUpdate) :
    NoAbort (creating all cu env v (k :: rest) s) ↔ NoAbort (all cu env v k.ptr s) := by
  unfold creating
  rw [onKey_noAbort, noAbort_bind]
  exact and_iff_left fun _ _ => noAbort_ok _

theorem kvolveSet_noAbort (args : List Arg) : NoAbort (kvolveSet cu env v args s) := by
  unfold kvolveSet
  split
  · split
    · exact (setnxKey_noAbort ..).bind fun _ _ => noAbort_ok _
    · split
      · exact (setnxKey_noAbort ..).bind fun _ _ => noAbort_ok _
      · exact (setKeyOld_noAbort ..).bind fun _ _ => noAbort_ok _
  · simp

theorem msetLoop_noAbort : NoAbort (msetLoop env v args s) := by
  fun_induction msetLoop env v args s with
  | case1 s k val rest ih =>
    exact (setKeyOld_noAbort ..).bind fun s' _ => (ih s').bind fun _ _ => noAbort_ok _
  | case2 => exact noAbort_ok _

theorem kvolveMset_noAbort (args : List Arg) :
    NoAbort (kvolveMset cu env v args s) ↔ args.length % 2 = 0 := by
  unfold kvolveMset
  split
  · rename_i hodd
    exact iff_of_false (by simp) (by omega)
  · rename_i hodd
    exact iff_of_true (msetLoop_noAbort env s args) (by omega)

theorem kvolveKeys_noAbort : NoAbort (kvolveKeys env args s) := by
  unfold kvolveKeys
  split
  · simp
  · split
    · exact noAbort_ok _
    · refine NoAbort.bind (noAbort_foldlM (fun s k _ => keysStep_noAbort env k s _) s) fun _ _ => noAbort_ok _

include hv

theorem mgetLoop_noAbort : NoAbort (mgetLoop checkUpdateKvPair env v args s) ↔
    Along (HName.turn .mget env v) (StringKept env v) s (args.map (·.ptr)) := by
  induction args generalizing s with
  | nil => exact iff_of_true (noAbort_ok _) trivial
  | cons k ks ih =>
    rw [mgetLoop, noAbort_bind, getKey_noAbort hv, List.map_cons, Along]
    refine and_congr_right fun _ => ?_
    simp only [noAbort_bind, noAbort_ok, implies_true, and_true, ih, HName.turn, map_eq_ok,
      forall_exists_index, and_imp, forall_apply_eq_imp_iff₂]

/-- A handler keeps clear of assertions, panics and freed memory when `MSET` has pairs and the
entry found for each key is one that its migration can go through. -/
theorem run_noAbort (h : HName) : NoAbort (h.run checkUpdateKvPair env v (k :: rest) s) ↔
    (h = .mset → (k :: rest).length % 2 = 0) ∧
      ∀ t, h.checks = some t →
        Along (h.turn env v) (EntryKept env v t) s (h.keysOf (k :: rest)) := by
  have hget : NoAbort (onKey (getKey checkUpdateKvPair env v) (k :: rest) s) ↔
      EntryKept env v .string s k.ptr :=
    (onKey_noAbort k rest s _).trans (getKey_noAbort hv env k.ptr s)
  have hincr : NoAbort (onKey (fun key s => do .ok (key, ← incrKey env v key s)) (k :: rest) s) :=
    (onKey_noAbort k rest s _).mpr ((incrKey_noAbort ..).bind fun _ _ => noAbort_ok _)
  have hsetnx : NoAbort (onKey (fun key s => do .ok (key, ← setnxKey env v key s)) (k :: rest) s) :=
    (onKey_noAbort k rest s _).mpr ((setnxKey_noAbort ..).bind fun _ _ => noAbort_ok _)
  have hset : _ ↔ EntryKept env v .set s k.ptr :=
    elems_noAbort hv env k.ptr s (gatherSet_noAbort env.cfg · _) fun _ _ h => (nomatch h)
  have hlist : _ ↔ EntryKept env v .list s k.ptr :=
    elems_noAbort hv env k.ptr s (gatherList_noAbort env.cfg) fun _ _ h => (nomatch h)
  have hhash : _ ↔ EntryKept env v .hash s k.ptr :=
    elems_noAbort hv env k.ptr s (gatherHash_noAbort env.cfg · _) fun _ _ h => (nomatch h)
  have hzset : _ ↔ EntryKept env v .zset s k.ptr := updateAllZset_noAbort hv env k.ptr s
  -- what is left to show for a handler that checks the entry of its key, and for one that does not
  have checking : ∀ t, h ≠ .mset → h.checks = some t → h.keysOf (k :: rest) = [k.ptr] →
      (NoAbort (h.run checkUpdateKvPair env v (k :: rest) s) ↔ EntryKept env v t s k.ptr) →
      (NoAbort (h.run checkUpdateKvPair env v (k :: rest) s) ↔
        (h = .mset → (k :: rest).length % 2 = 0) ∧ ∀ t, h.checks = some t →
          Along (h.turn env v) (EntryKept env v t) s (h.keysOf (k :: rest))) := by
    intro t hne ht hkeys hrun
    rw [hrun, ht, hkeys]
    simp [hne, Along]
  have plain : h ≠ .mset → h.checks = none → NoAbort (h.run checkUpdateKvPair env v (k :: rest) s) →
      (NoAbort (h.run checkUpdateKvPair env v (k :: rest) s) ↔
        (h = .mset → (k :: rest).length % 2 = 0) ∧ ∀ t, h.checks = some t →
          Along (h.turn env v) (EntryKept env v t) s (h.keysOf (k :: rest))) := by
    intro hne hnone hrun
    rw [hnone]
    exact iff_of_true hrun ⟨fun hm => absurd hm hne, fun t ht => (nomatch ht)⟩
  cases h with
  | mset =>
    refine (kvolveMset_noAbort env s checkUpdateKvPair (k :: rest)).trans
      ⟨fun h => ⟨fun _ => h, fun t ht => ?_⟩, fun h => h.1 rfl⟩
    cases ht
  | set => exact plain (by decide) rfl (kvolveSet_noAbort env s checkUpdateKvPair (k :: rest))
  | setnx => exact plain (by decide) rfl hsetnx
  | del => exact plain (by decide) rfl ((checkRename_noAbort ..).bind fun _ _ => noAbort_ok _)
  | keys => exact plain (by decide) rfl (kvolveKeys_noAbort env s (k :: rest))
  | incr | incrby => exact plain (by decide) rfl hincr
  | mget =>
    refine (mgetLoop_noAbort hv env s (k :: rest)).trans
      ⟨fun h => ⟨fun h => (nomatch h), fun t ht => ?_⟩, fun h => h.2 .string rfl⟩
    cases ht
    exact h
  | get | getset | getrange => exact checking .string (by decide) rfl rfl hget
  | scard | spop | smembers | sismember | srem =>
    exact checking .set (by decide) rfl rfl ((migrating_noAbort ..).trans hset)
  | sadd => exact checking .set (by decide) rfl rfl ((creating_noAbort ..).trans hset)
  | zcard | zscore | zrem | zrange | zrevrange =>
    exact checking .zset (by decide) rfl rfl ((migrating_noAbort ..).trans hzset)
  | zadd => exact checking .zset (by decide) rfl rfl ((creating_noAbort ..).trans hzset)
  | lrange | lpop | llen | lset | rpop =>
    exact checking .list (by decide) rfl rfl ((migrating_noAbort ..).trans hlist)
  | lpush | rpush => exact checking .list (by decide) rfl rfl ((creating_noAbort ..).trans hlist)
  | hdel | hget | hgetall | hmget =>
    exact checking .hash (by decide) rfl rfl ((migrating_noAbort ..).trans hhash)
  | hset | hmset => exact checking .hash (by decide) rfl rfl ((creating_noAbort ..).trans hhash)

/-- **A handler is lost to an assertion, a panic, freed memory or a null name exactly when it is
not harmless.** -/
theorem run_harmless (h : HName) :
    NoAbort (h.run checkUpdateKvPair env v (k :: rest) s) ∧ h.Formed env v (k :: rest) s ↔
      h.Harmless env v (k :: rest) s := by
  rw [run_noAbort hv]
  by_cases hne : h = .keys
  · subst hne
    rw [HName.Formed, HName.Harmless, if_pos rfl, if_pos rfl, keysFormed_iff]
    refine and_iff_right ⟨fun h => (nomatch h), fun t ht => (nomatch ht)⟩
  · rw [HName.formed_iff hne hv, HName.Harmless, if_neg hne, and_assoc]
    exact and_congr_right fun _ => and_comm

end Handlers

/-! ## Connecting and loading -/

theorem noAbort_of_faults {α : Type} {r : Res α}
    (h : ∀ f, r = .error f → f.aborts = false) : NoAbort r := by
  cases r with
  | ok a => exact noAbort_ok a
  | error f => exact noAbort_error.mpr (h f rfl)

theorem checkVersion_noAbort (id : Nat) (name : Bytes) (reg : Reg) :
    NoAbort (checkVersion id name reg) := by
  refine noAbort_of_faults fun f hf => ?_
  obtain rfl | rfl := checkVersion_faults hf <;> simp

theorem createNs_noAbort (reg : Reg) (owner : Option Nat) (ns : Bytes) (prev : Option Bytes) (v0 : Int)
    (list : Option UpdInfo) : NoAbort (createNs reg owner ns prev v0 list) := by
  unfold createNs
  simp only
  split
  · exact noAbort_ok _
  · split
    · simp
    · split
      · exact noAbort_ok _
      · simp

theorem appendVersion_noAbort (v : VersionHash) (n : Int) (info : UpdInfo) :
    NoAbort (appendVersion v n info) := by
  unfold appendVersion
  split
  · exact noAbort_ok _
  · split
    · exact noAbort_ok _
    · simp

theorem updSpec_noAbort (loading : Nat) (pick : Finset Nat → Nat) (reg : Reg) (sp : Spec) :
    NoAbort (updSpec loading pick reg sp) := by
  have hkill : ∀ v reg, NoAbort (killChain loading pick (reg.size + 1) v reg) := fun v reg =>
    noAbort_of_faults fun f hf => by
      rw [killChain_faults hf]
      simp
  unfold updSpec
  cases ha : specAccepts reg sp with
  | none => exact noAbort_ok _
  | some created =>
    cases created with
    | true =>
      refine (createNs_noAbort ..).bind fun reg₁ _ => ?_
      simp only [if_true]
      split
      · simp
      · exact (hkill _ reg₁).bind fun _ _ => noAbort_ok _
    | false =>
      simp only [Bool.false_eq_true, if_false, ok_bind]
      split
      · simp
      · refine (hkill _ reg).bind fun p _ => ?_
        split
        · simp
        · exact (appendVersion_noAbort ..).bind fun _ _ => noAbort_ok _

theorem loadUpdate_noAbort (ld : Loader) (id : Nat) (path : Bytes) (reg : Reg) :
    NoAbort (loadUpdate ld id path reg) := by
  unfold loadUpdate
  split
  · exact noAbort_ok _
  · exact noAbort_foldlM (fun p sp _ => (updSpec_noAbort ..).bind fun _ _ => noAbort_ok _) _

/-! ## The hook -/

/-- What is asked of the handler that a command reaches: of `kvolve_keys`, or of another one with
its record and its arguments. Other commands reach none. -/
def OnHandler (reg : Reg) (argv : List Arg) (ofKeys : List Arg → Prop)
    (ofHandler : HName → VersionHash → List Arg → Prop) : Prop :=
  isSetname argv = none →
    ((∀ name p, argv = [name, p] → strcasecmp name.ptr (lit "keys") = true → ofKeys [p]) ∧
      ∀ name k rest, argv = name :: k :: rest →
        (rest = [] → strcasecmp name.ptr (lit "keys") = false) → ∀ v h,
          versionHashLookup reg k.ptr = some v → lookupKvCommand name.ptr argv.length = some h →
          ofHandler h v (k :: rest))

def NamesFormed (env : Env) (argv : List Arg) (s : Store) : Prop :=
  OnHandler s.reg argv (fun args => KeysFormed env args s) fun h v args => h.Formed env v args s

def Harmless (env : Env) (argv : List Arg) (s : Store) : Prop :=
  OnHandler s.reg argv (fun args => KeysHarmless env args s) fun h v args =>
    h.Harmless env v args s

theorem dispatch_noAbort (env : Env) (name k : Arg) (rest : List Arg) (s : Store) :
    NoAbort (dispatch checkUpdateKvPair env (name :: k :: rest) s) ↔
      ∀ v h, versionHashLookup s.reg k.ptr = some v →
        lookupKvCommand name.ptr (name :: k :: rest).length = some h →
        NoAbort (h.run checkUpdateKvPair env v (k :: rest) s) := by
  rw [dispatch]
  cases hv : versionHashLookup s.reg k.ptr with
  | none => simp
  | some v =>
    cases hh : lookupKvCommand name.ptr (name :: k :: rest).length with
    | none => simp
    | some h =>
      refine noAbort_bind.trans ((and_iff_left fun _ _ => noAbort_ok _).trans ⟨fun hrun => ?_, fun hall =>
        hall v h rfl rfl⟩)
      rintro v' h' ⟨⟩ ⟨⟩
      exact hrun

/-- The dispatcher fails when the handler it calls does. -/
theorem processData_noAbort (env : Env) (argv : List Arg) (s : Store) (hset : isSetname argv = none) :
    NoAbort (processData checkUpdateKvPair env argv s) ↔
      OnHandler s.reg argv (fun _ => True) fun h v args =>
        NoAbort (h.run checkUpdateKvPair env v args s) := by
  have hdata : ∀ name k rest, argv = name :: k :: rest →
      (rest = [] → strcasecmp name.ptr (lit "keys") = false) →
      processData checkUpdateKvPair env argv s = dispatch checkUpdateKvPair env argv s := by
    rintro name k rest rfl hno
    cases rest with
    | nil => simp [processData, hno rfl]
    | cons a rest => rfl
  unfold OnHandler
  match argv, hset, hdata with
  | [], _, _ => exact iff_of_true (noAbort_ok _) (by simp)
  | [name], _, _ => exact iff_of_true (noAbort_ok _) (by simp)
  | name :: k :: rest, hset, hdata =>
    by_cases hkeys : rest = [] ∧ strcasecmp name.ptr (lit "keys") = true
    · obtain ⟨rfl, hname⟩ := hkeys
      refine iff_of_true ?_ fun _ => ⟨fun _ _ _ _ => trivial, ?_⟩
      · simp only [processData, hname, if_true]
        exact (kvolveKeys_noAbort env s [k]).bind fun _ _ => noAbort_ok _
      · rintro name' k' rest' h hno
        cases h
        rw [hno rfl] at hname
        cases hname
    · have hno : rest = [] → strcasecmp name.ptr (lit "keys") = false := fun hr => by
        simpa using fun h => hkeys ⟨hr, h⟩
      rw [hdata name k rest rfl hno, dispatch_noAbort]
      constructor
      · intro h _
        refine ⟨fun _ _ _ _ => trivial, ?_⟩
        rintro name' k' rest' heq -
        cases heq
        exact h
      · exact fun h => (h hset).2 name k rest rfl hno

theorem OnHandler.and {reg : Reg} {argv : List Arg} {P P' : List Arg → Prop}
    {Q Q' : HName → VersionHash → List Arg → Prop} :
    OnHandler reg argv P Q ∧ OnHandler reg argv P' Q' ↔
      OnHandler reg argv (fun args => P args ∧ P' args) fun h v args => Q h v args ∧ Q' h v args := by
  unfold OnHandler
  constructor
  · rintro ⟨h, h'⟩ hset
    exact ⟨fun name p heq hk => ⟨(h hset).1 name p heq hk, (h' hset).1 name p heq hk⟩,
      fun name k rest heq hno v hn hv hh => ⟨(h hset).2 name k rest heq hno v hn hv hh,
        (h' hset).2 name k rest heq hno v hn hv hh⟩⟩
  · intro h
    exact ⟨fun hset => ⟨fun name p heq hk => ((h hset).1 name p heq hk).1,
        fun name k rest heq hno v hn hv hh => ((h hset).2 name k rest heq hno v hn hv hh).1⟩,
      fun hset => ⟨fun name p heq hk => ((h hset).1 name p heq hk).2,
        fun name k rest heq hno v hn hv hh => ((h hset).2 name k rest heq hno v hn hv hh).2⟩⟩

theorem registered_noFuns (n : String) (v0 : Int) {m : Bytes}
    (h : (registered n v0).find m = some v) : NoFuns v := by
  rw [registered, Reg.find_set] at h
  split at h
  · cases h
    intro p hp
    obtain rfl := List.mem_singleton.mp hp
    rfl
  · cases h

end SchemaUpdate.KVolve
