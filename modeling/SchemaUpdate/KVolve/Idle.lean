import SchemaUpdate.KVolve.Alias

/-! # Handlers with nothing to do

A key that is stored under no name, or under its own name and current, is left as it
is by every handler; all a handler can still do is tag the arguments and register
the tag of a container to be created. -/

namespace SchemaUpdate.KVolve

open SchemaUpdate.Lib SchemaUpdate.Redis

def HName.reads : HName → Bool
  | .get | .mget | .getset | .getrange => true
  | _ => false

def HName.writes : HName → Bool
  | .set | .mset | .setnx | .incr | .incrby | .del => true
  | _ => false

def HName.zsets : HName → Bool
  | .zadd | .zcard | .zscore | .zrem | .zrange | .zrevrange => true
  | _ => false

def Absent (env : Env) (v : VersionHash) (k : Bytes) (s : Store) : Prop :=
  getDbVal env v k s = .ok none

/-- The value at the key needs no update: handlers that write do not look at it, a reading
one leaves small integers alone, one for sorted sets whatever is no ziplist, and otherwise
its tag is the current version. -/
def Current (h : HName) (env : Env) (v : VersionHash) (k : Bytes) (s : Store) : Prop :=
  ∃ e, s.get env.d k = some e ∧
    (h.writes = true ∨ (h.reads = true ∧ Val.isSmall e.obj.val = true) ∨
      (h.zsets = true ∧ ziplistEntries env.cfg e.obj.val = none) ∨ s.vers e.obj = v.cur)

section Keys

variable {env : Env} {v : VersionHash} {k : Bytes} {s : Store} {h : HName}

theorem Absent.has (ha : Absent env v k s) : s.has env.d k = false := by
  unfold Absent getDbVal at ha
  split at ha
  · cases ha
  · rename_i hh
    simpa using hh

theorem Current.has (hc : Current h env v k s) : s.has env.d k = true := by
  obtain ⟨e, he, -⟩ := hc
  exact Store.has_of_get he

theorem getDbVal_has (hh : s.has env.d k = true) : getDbVal env v k s = .ok (some k) := by
  rw [getDbVal, if_pos hh]

theorem namespaceUpdate_has (hh : s.has env.d k = true) : namespaceUpdate env v k s = .ok s := by
  rw [namespaceUpdate, if_pos hh]

variable (hi : Absent env v k s ∨ s.has env.d k = true)

include hi

theorem setKeyOld_idle : setKeyOld env v k s = .ok s := by
  rw [setKeyOld_eq]
  rcases hi with ha | hh
  · split
    · rw [ha]
      rfl
    · rfl
  · rw [if_neg (fun hn => hn.2 hh)]

theorem setnxKey_idle : setnxKey env v k s = .ok s := by
  unfold setnxKey
  rcases hi with ha | hh
  · rw [if_neg (by simp [ha.has]), ha]
    rfl
  · rw [if_pos hh]

theorem incrKey_idle : incrKey env v k s = .ok s := by
  unfold incrKey
  split
  · rfl
  · rcases hi with ha | hh
    · rw [ha]
      rfl
    · rw [getDbVal_has hh]
      exact namespaceUpdate_has hh

theorem checkRenameOne_idle : checkRenameOne env v k s = .ok s := by
  unfold checkRenameOne
  rcases hi with ha | hh
  · rw [ha]
    rfl
  · rw [getDbVal_has hh, ok_bind, namespaceUpdate_has hh]
    split
    · rfl
    · split
      · rfl
      · split <;> rfl

omit hi

theorem checkRename_idle {ks : List Bytes}
    (hi : ∀ k ∈ ks, Absent env v k s ∨ s.has env.d k = true) : checkRename env v ks s = .ok s := by
  unfold checkRename
  split
  · rfl
  · exact foldlM_id fun k hk => checkRenameOne_idle (hi k hk)

theorem getKey_idle (hr : h.reads = true) (hi : Absent env v k s ∨ Current h env v k s) :
    getKey checkUpdateKvPair env v k s = .ok (k, s) := by
  unfold getKey checkUpdateKvPair checkUpdateWith
  rcases hi with ha | hc
  · simp only
    rw [ha]
    rfl
  · have hh := hc.has
    obtain ⟨e, he, hcur⟩ := hc
    have hw : h.writes = false ∧ h.zsets = false := by
      cases h <;> first | exact ⟨rfl, rfl⟩ | cases hr
    simp only [getDbVal_has hh, ok_bind, deref, he]
    unfold migrateSubject
    split
    · have hidle : checkRename env v [k] s = .ok s := checkRename_idle fun j hj => by
        rw [List.mem_singleton] at hj
        exact .inr (hj ▸ hh)
      simp only [hidle, ok_bind]
    · rename_i hsm
      have hvers : s.vers e.obj = v.cur := by
        rcases hcur with hw' | hsmall | hz | hvers
        · rw [hw.1] at hw'
          cases hw'
        · exact absurd hsmall.2 hsm
        · rw [hw.2] at hz
          cases hz.1
        · exact hvers
      simp only [hvers, if_true, ok_bind]

theorem updateAll_absent (ha : Absent env v k s) (loop : Int → Val → LSt → Option (Res LSt)) :
    updateAll env v k s loop = .ok (1, k, s) := by
  unfold updateAll
  rw [ha]
  rfl

theorem updateAll_current {e : Entry} (he : s.get env.d k = some e)
    {loop : Int → Val → LSt → Option (Res LSt)}
    (hv : (∀ vers st, loop vers e.obj.val st = none) ∨ s.vers e.obj = v.cur) :
    updateAll env v k s loop = .ok (0, k, s) := by
  unfold updateAll
  simp only [getDbVal_has (Store.has_of_get he), ok_bind, deref, he]
  split
  · rfl
  · rename_i hne
    rcases hv with hnone | hv
    · rw [hnone]
    · exact absurd hv hne

end Keys

/-! ## Handlers -/

def tagPairs (vers : Int) : List Arg → List Arg
  | k :: val :: rest => k :: { val with vers := vers } :: tagPairs vers rest
  | args => args

/-- The arguments a handler hands on when it replaces no key: the values that are to be stored
are tagged, but for `SET` with `NX`. -/
def HName.tagged (h : HName) (vers : Int) (args : List Arg) : List Arg :=
  match h, args with
  | .set, k :: val :: opts =>
    if (getFlags opts).1 && !(getFlags opts).2 then args else k :: { val with vers := vers } :: opts
  | .mset, args => tagPairs vers args
  | _, args => args

theorem tagPairs_ptr (vers : Int) (args : List Arg) :
    (tagPairs vers args).map (·.ptr) = args.map (·.ptr) := by
  fun_induction tagPairs vers args with
  | case1 k val rest ih => simp [ih]
  | case2 args => rfl

theorem HName.tagged_ptr (h : HName) (vers : Int) (args : List Arg) :
    (h.tagged vers args).map (·.ptr) = args.map (·.ptr) := by
  unfold HName.tagged
  split
  · split <;> rfl
  · exact tagPairs_ptr vers _
  · rfl

variable {env : Env} {v : VersionHash} {s : Store} {k : Arg} {h : HName}

theorem msetLoop_idle {args : List Arg}
    (hi : ∀ k ∈ evenArgs args, Absent env v k s ∨ s.has env.d k = true) :
    msetLoop env v args s = .ok (tagPairs v.cur args, s) := by
  induction args using evenArgs.induct with
  | case1 k val rest ih =>
    rw [msetLoop, setKeyOld_idle (hi k.ptr (by simp [evenArgs])), ok_bind,
      ih fun j hj => hi j (by simp [evenArgs, hj])]
    rfl
  | case2 args hne =>
    unfold msetLoop tagPairs
    split
    · exact absurd rfl (hne _ _ _)
    · split
      · exact absurd rfl (hne _ _ _)
      · rfl

theorem mgetLoop_idle {args : List Arg}
    (hi : ∀ k ∈ args.map (·.ptr), Absent env v k s ∨ Current .mget env v k s) :
    mgetLoop checkUpdateKvPair env v args s = .ok (args, s) := by
  induction args with
  | nil => rfl
  | cons k rest ih =>
    rw [mgetLoop, getKey_idle rfl (hi k.ptr (by simp)), ok_bind]
    simp only [ih fun j hj => hi j (List.mem_cons_of_mem _ hj), ok_bind]

variable {rest : List Arg} {all : UpdateAll} {cu : CheckUpdate}

theorem onKey_idle {f : Bytes → Store → Res (Bytes × Store)} {s' : Store}
    (hf : f k.ptr s = .ok (k.ptr, s')) :
    onKey f (k :: rest) s = .ok (k :: rest, s') := by
  simp only [onKey, hf, ok_bind]

theorem migrating_idle {ret : Int} (hall : all cu env v k.ptr s = .ok (ret, k.ptr, s)) :
    migrating all cu env v (k :: rest) s = .ok (k :: rest, s) := by
  refine onKey_idle ?_
  rw [hall]
  rfl

theorem creating_idle {ret : Int} (hall : all cu env v k.ptr s = .ok (ret, k.ptr, s)) :
    creating all cu env v (k :: rest) s =
      .ok (k :: rest, if ret = 1 then newVersion env v k.ptr s else s) := by
  refine onKey_idle ?_
  rw [hall]
  rfl

/-- A container function is the shared frame around a loop, and the one for sorted sets
leaves what is no ziplist. -/
def Framed (h : HName) (all : UpdateAll) : Prop :=
  ∀ cu env v key s, ∃ loop, all cu env v key s = updateAll env v key s loop ∧
    (h.zsets = true → ∀ vers val st, ziplistEntries env.cfg val = none → loop vers val st = none)

theorem Framed.of_not_zsets (hz : h.zsets = false)
    (hall : ∀ cu env v key s, ∃ loop, all cu env v key s = updateAll env v key s loop) :
    Framed h all := by
  intro cu env v key s
  obtain ⟨loop, hloop⟩ := hall cu env v key s
  exact ⟨loop, hloop, fun hz' => by rw [hz] at hz'; cases hz'⟩

theorem framed_zset (h : HName) : Framed h updateAllZset :=
  fun _ _ _ _ _ => ⟨_, rfl, fun _ vers val st hnone => by simp only [hnone, Option.map_none]⟩

theorem Framed.idle (hall : Framed h all) (hh : h.writes = false ∧ h.reads = false) {k : Bytes}
    (hi : Absent env v k s ∨ Current h env v k s) :
    all cu env v k s = .ok (if s.has env.d k then 0 else 1, k, s) := by
  obtain ⟨loop, hloop, hzip⟩ := hall cu env v k s
  rw [hloop]
  rcases hi with ha | hc
  · rw [updateAll_absent ha, ha.has]
    rfl
  · rw [hc.has]
    obtain ⟨e, he, hcur⟩ := hc
    refine updateAll_current he ?_
    rcases hcur with hw | hr | hz | hv
    · rw [hh.1] at hw
      cases hw
    · rw [hh.2] at hr
      cases hr.1
    · exact .inl fun vers st => hzip hz.1 vers _ st hz.2
    · exact .inr hv

def idleStore (h : HName) (env : Env) (v : VersionHash) (k : Bytes) (s : Store) : Store :=
  if h.creates = true ∧ s.has env.d k = false then newVersion env v k s else s

def ArgsOk (h : HName) (args : List Arg) : Prop :=
  match h with
  | .set => 2 ≤ args.length
  | .mset => args.length % 2 = 0
  | _ => True

/-- **With nothing to update a handler leaves the store alone, but for the tag of a container
that is to be created.** -/
theorem run_idle (hkeys : h ≠ .keys) (hargs : ArgsOk h (k :: rest))
    (hi : ∀ j ∈ h.keysOf (k :: rest), Absent env v j s ∨ Current h env v j s) :
    h.run checkUpdateKvPair env v (k :: rest) s =
      .ok (h.tagged v.cur (k :: rest), idleStore h env v k.ptr s) := by
  have hi' : ∀ j ∈ h.keysOf (k :: rest), Absent env v j s ∨ s.has env.d j = true :=
    fun j hj => (hi j hj).imp_right Current.has
  -- the containers, by the frame they share
  have hmig : (h.writes = false ∧ h.reads = false ∧ h.creates = false) →
      h.keysOf (k :: rest) = [k.ptr] → ∀ all, Framed h all →
      migrating all checkUpdateKvPair env v (k :: rest) s =
        .ok (k :: rest, idleStore h env v k.ptr s) := by
    rintro ⟨hw, hr, hc⟩ hks all hall
    rw [migrating_idle (hall.idle ⟨hw, hr⟩ (hi k.ptr (by rw [hks]; simp))), idleStore,
      if_neg (by simp [hc])]
  have hcre : (h.writes = false ∧ h.reads = false ∧ h.creates = true) →
      h.keysOf (k :: rest) = [k.ptr] → ∀ all, Framed h all →
      creating all checkUpdateKvPair env v (k :: rest) s =
        .ok (k :: rest, idleStore h env v k.ptr s) := by
    rintro ⟨hw, hr, hc⟩ hks all hall
    rw [creating_idle (hall.idle ⟨hw, hr⟩ (hi k.ptr (by rw [hks]; simp))), idleStore]
    cases s.has env.d k.ptr <;> simp [hc]
  cases h with
  | keys => exact absurd rfl hkeys
  | set =>
    obtain ⟨val, opts, rfl⟩ : ∃ val opts, rest = val :: opts := by
      cases rest with
      | nil => simp [ArgsOk] at hargs
      | cons val opts => exact ⟨val, opts, rfl⟩
    have hk := hi' k.ptr (by simp [HName.keysOf])
    simp only [HName.run, kvolveSet, setnxKey_idle hk, setKeyOld_idle hk, ok_bind, HName.tagged]
    cases (getFlags opts).2 <;> cases (getFlags opts).1 <;> rfl
  | mset =>
    have heven : ¬ (k :: rest).length % 2 = 1 := by
      simp only [ArgsOk] at hargs
      omega
    simp only [HName.run, kvolveMset, if_neg heven]
    exact msetLoop_idle hi'
  | get => exact onKey_idle (getKey_idle rfl (hi k.ptr (by simp [HName.keysOf])))
  | getset => exact onKey_idle (getKey_idle (h := .getset) rfl (hi k.ptr (by simp [HName.keysOf])))
  | getrange =>
    exact onKey_idle (getKey_idle (h := .getrange) rfl (hi k.ptr (by simp [HName.keysOf])))
  | mget => exact mgetLoop_idle hi
  | del =>
    have hren : checkRename env v ((k :: rest).map (·.ptr)) s = .ok s := checkRename_idle hi'
    simp only [HName.run, kvolveDel, hren, ok_bind]
    rfl
  | incr =>
    have hk := incrKey_idle (hi' k.ptr (by simp [HName.keysOf]))
    simp only [HName.run, kvolveIncr, onKey, hk, ok_bind]
    rfl
  | incrby =>
    have hk := incrKey_idle (hi' k.ptr (by simp [HName.keysOf]))
    simp only [HName.run, kvolveIncrby, kvolveIncr, onKey, hk, ok_bind]
    rfl
  | setnx =>
    have hk := setnxKey_idle (hi' k.ptr (by simp [HName.keysOf]))
    simp only [HName.run, kvolveSetnx, onKey, hk, ok_bind]
    rfl
  | sadd | lpush | rpush | hset | hmset =>
    exact hcre (by decide) rfl _ (.of_not_zsets rfl fun _ _ _ _ _ => ⟨_, rfl⟩)
  | zadd => exact hcre (by decide) rfl _ (framed_zset _)
  | hdel | hget | hgetall | hmget | lrange | lpop | llen | lset | rpop | scard | spop | smembers
  | sismember | srem => exact hmig (by decide) rfl _ (.of_not_zsets rfl fun _ _ _ _ _ => ⟨_, rfl⟩)
  | zcard | zscore | zrem | zrange | zrevrange => exact hmig (by decide) rfl _ (framed_zset _)

theorem argsOk_of_run {a : List Arg} {s' : Store} (hok : h.run cu env v (k :: rest) s = .ok (a, s')) :
    ArgsOk h (k :: rest) := by
  cases h with
  | set =>
    cases rest with
    | nil => cases hok
    | cons val opts => simp [ArgsOk]
  | mset =>
    simp only [HName.run, kvolveMset] at hok
    split at hok
    · cases hok
    · rename_i hodd
      simp only [ArgsOk]
      omega
  | _ => trivial

/-- What the commands that create a container have in common. -/
theorem HName.of_creates (hc : h.creates = true) :
    (h ≠ .keys ∧ h ≠ .set ∧ h ≠ .mset) ∧
      (∀ k rest, h.keysOf (k :: rest) = [k.ptr]) ∧ ∀ vers l, h.tagged vers l = l := by
  cases h <;> first
    | exact ⟨by decide, fun _ _ => rfl, fun _ _ => rfl⟩
    | cases hc

/-- With a missing key a command that creates a container registers a tag and does nothing
else. -/
theorem run_creates_absent {a : List Arg} {s' : Store} (hc : h.creates = true)
    (habs : Absent env v k.ptr s) (hok : h.run checkUpdateKvPair env v (k :: rest) s = .ok (a, s')) :
    a = k :: rest ∧ s' = newVersion env v k.ptr s := by
  obtain ⟨hname, hks, htagged⟩ := HName.of_creates hc
  have hidle := run_idle hname.1 (argsOk_of_run hok) fun i hi =>
    .inl ((List.mem_singleton.mp (hks k rest ▸ hi) : i = k.ptr) ▸ habs)
  rw [htagged, idleStore, if_pos ⟨hc, habs.has⟩] at hidle
  cases hok.symm.trans hidle
  exact ⟨rfl, rfl⟩

end SchemaUpdate.KVolve
