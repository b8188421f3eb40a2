import SchemaUpdate.KVolve.Idle

/-! # Arguments that stay

Update functions that change no key leave the arguments of a command as they are. -/

namespace SchemaUpdate.KVolve

open SchemaUpdate.Lib SchemaUpdate.Redis

section Key

variable {nested : Nested} {env : Env} {v : VersionHash} (hq : Quiet v)
  {type : UType} {st st' : MSt} {checkKey : Bool}

theorem changeElem_key {r : UpdRes} {e : Elem} (h : changeElem env type r e st = .ok st') :
    st'.key = st.key := by
  have hsteps : ElemSteps env st.key st.loc (· = ·) (· = ·) :=
    ⟨fun h => by rw [h], fun h _ => h, fun h => by rw [h]; exact ⟨rfl, rfl⟩,
      fun _ h _ => by rw [h], fun h _ _ => by rw [h], fun h _ => h⟩
  exact (hsteps.left rfl h).1

theorem bump_key {t : Int} (h : bump env t st = .ok st') : st'.key = st.key := by
  unfold bump at h
  split at h
  · obtain ⟨c, -, h⟩ := bind_eq_ok.mp h
    cases h
    rfl
  · cases h
    rfl

theorem changeStored_key {r : UpdRes} (h : changeStored env type r st = .ok st') :
    st'.key = st.key := by
  unfold changeStored at h
  split at h
  · split at h
    · cases h
      rfl
    · obtain ⟨c, -, h⟩ := bind_eq_ok.mp h
      split at h
      · cases h
        rfl
      · cases h
  · split at h
    · cases h
    · cases h
      rfl

include hq

theorem Quiet.applyFun_key {f : UpdFun} (hf : f ∈ v.funs)
    (h : applyFun nested env v checkKey type st f = .ok st') :
    st'.key = st.key := by
  unfold applyFun at h
  obtain ⟨arg, -, h⟩ := bind_eq_ok.mp h
  simp only at h
  obtain ⟨s, -, h⟩ := bind_eq_ok.mp h
  have hsame : ∀ st : MSt, changeKey env v checkKey none st = .ok st := fun _ => by
    cases checkKey <;> rfl
  rw [(hq f hf _ _).1, hsame, ok_bind] at h
  split at h
  · exact (changeStored_key h).trans rfl
  · exact (changeElem_key h).trans rfl

theorem Quiet.updateTo_key {p : Int × Option UpdInfo} (hp : p ∈ v.hist)
    (h : updateTo nested env v checkKey type st p = .ok st') : st'.key = st.key := by
  obtain ⟨st₁, h₁, h⟩ := bind_eq_ok.mp h
  have hfuns : st₁.key = st.key := by
    refine foldlM_rel (R := fun a b : MSt => b.key = a.key) (fun _ => rfl)
      (fun _ _ _ hab hbc => hbc.trans hab) (fun a f hf b hab => ?_) h₁
    exact hq.applyFun_key (List.mem_flatMap.mpr ⟨p, hp, hf⟩) hab
  exact (bump_key h).trans hfuns

theorem Quiet.migrateSubject_key {small : Bool} {vers : Int}
    (h : migrateSubject nested env v checkKey type small vers st = .ok st') :
    st'.key = st.key := by
  rcases migrateSubject_ok h with ⟨-, s, -, rfl⟩ | ⟨-, -, rfl⟩ | ⟨-, -, st₁, h₁, h⟩
  · rfl
  · rfl
  · have hmove : st₁.key = st.key := by
      rcases moveFirst_ok h₁ with ⟨-, s, -, rfl⟩ | ⟨-, rfl⟩ <;> rfl
    refine Eq.trans ?_ hmove
    refine foldlM_rel (R := fun a b : MSt => b.key = a.key) (fun _ => rfl)
      (fun _ _ _ hab hbc => hbc.trans hab) (fun a p hp b hab => ?_) h
    exact hq.updateTo_key (VersionHash.mem_hist_of_pending hp) hab

theorem Quiet.checkUpdate_key {loc : Bytes} {o : Option Elem} {key : Bytes} {s : Store}
    {out : Bytes × Bytes × Store}
    (h : checkUpdateWith nested env v checkKey loc o type key s = .ok out) : out.1 = key := by
  unfold checkUpdateWith at h
  split at h
  · obtain ⟨found, -, h⟩ := bind_eq_ok.mp h
    split at h
    · cases h
      rfl
    · obtain ⟨c, -, h⟩ := bind_eq_ok.mp h
      obtain ⟨st, hst, h⟩ := bind_eq_ok.mp h
      cases h
      exact hq.migrateSubject_key hst
  · obtain ⟨st, hst, h⟩ := bind_eq_ok.mp h
    obtain ⟨-, -, h⟩ := bind_eq_ok.mp h
    cases h
    exact hq.migrateSubject_key hst

end Key

section Handlers

variable {env : Env} {v : VersionHash} (hq : Quiet v)
  {st st' : LSt} {key : Bytes} {s : Store} {type : UType} {out : List Arg × Store}
    {args : List Arg} {cu : CheckUpdate}

theorem foldlM_key {α : Type} {f : LSt → α → Res LSt} {l : List α}
    (hf : ∀ st x st', f st x = .ok st' → st'.key = st.key) (h : l.foldlM f st = .ok st') :
    st'.key = st.key :=
  foldlM_rel (R := fun a b : LSt => b.key = a.key) (fun _ => rfl)
    (fun _ _ _ hab hbc => hbc.trans hab) (fun _ _ _ _ hab => hf _ _ _ hab) h

theorem updateAll_key {loop : Int → Val → LSt → Option (Res LSt)} {out : Int × Bytes × Store}
    (hloop : ∀ vers val st r st', loop vers val st = some r → r = .ok st' → st'.key = st.key)
    (h : updateAll env v key s loop = .ok out) : out.2.1 = key := by
  obtain ⟨found, -, h⟩ := bind_eq_ok.mp h
  split at h
  · cases h
    rfl
  · obtain ⟨c, -, h⟩ := bind_eq_ok.mp h
    split at h
    · cases h
      rfl
    · split at h
      · cases h
        rfl
      · rename_i r hr
        obtain ⟨st, hst, h⟩ := bind_eq_ok.mp h
        obtain ⟨c', -, h⟩ := bind_eq_ok.mp h
        cases h
        exact hloop _ _ _ _ _ hr hst

include hq

theorem Quiet.getKey_key {out : Bytes × Store}
    (h : getKey checkUpdateKvPair env v key s = .ok out) : out.1 = key := by
  obtain ⟨p, hp, h⟩ := bind_eq_ok.mp h
  cases h
  exact hq.checkUpdate_key hp

theorem Quiet.elemStep_key {e : Elem} (h : elemStep checkUpdateKvPair env v type st e = .ok st') :
    st'.key = st.key := by
  obtain ⟨c, -, h⟩ := bind_eq_ok.mp h
  obtain ⟨p, hp, h⟩ := bind_eq_ok.mp h
  cases h
  exact hq.checkUpdate_key hp

theorem Quiet.slotStep_key {e : Option Elem}
    (h : slotStep checkUpdateKvPair env v type st e = .ok st') : st'.key = st.key := by
  obtain ⟨c, -, h⟩ := bind_eq_ok.mp h
  obtain ⟨p, hp, h⟩ := bind_eq_ok.mp h
  cases h
  exact hq.checkUpdate_key hp

theorem Quiet.elems_key {gather : Val → Res (List Elem)} {out : Int × Bytes × Store}
    (h : (updateAll env v key s fun _ val st =>
      some (elemsLoop checkUpdateKvPair env v type gather val st)) = .ok out) : out.2.1 = key := by
  refine updateAll_key (fun vers val st r st' hr hst => ?_) h
  cases hr
  obtain ⟨l, -, hst⟩ := elemsLoop_ok hst
  exact foldlM_key (fun _ _ _ hstep => hq.elemStep_key hstep) hst

theorem Quiet.updateAllZset_key {out : Int × Bytes × Store}
    (h : updateAllZset checkUpdateKvPair env v key s = .ok out) : out.2.1 = key := by
  refine updateAll_key (fun vers val st r st' hr hst => ?_) h
  obtain ⟨entries, -, rfl⟩ := Option.map_eq_some_iff.mp hr
  obtain ⟨l, -, hst⟩ := bind_eq_ok.mp hst
  exact foldlM_key (fun _ _ _ hstep => hq.slotStep_key hstep) hst

omit hq in
theorem onKey_args {f : Bytes → Store → Res (Bytes × Store)}
    (hf : ∀ key s out, f key s = .ok out → out.1 = key) (h : onKey f args s = .ok out) :
    out.1 = args := by
  cases args with
  | nil => cases h
  | cons k rest =>
    obtain ⟨p, hp, h⟩ := bind_eq_ok.mp h
    cases h
    rw [hf _ _ _ hp]

omit hq in
theorem migrating_args {all : UpdateAll}
    (hall : ∀ key s out, all cu env v key s = .ok out → out.2.1 = key)
    (h : migrating all cu env v args s = .ok out) : out.1 = args := by
  refine onKey_args (fun key s out hout => ?_) h
  obtain ⟨p, hp, hout⟩ := bind_eq_ok.mp hout
  cases hout
  exact hall _ _ _ hp

omit hq in
theorem creating_args {all : UpdateAll}
    (hall : ∀ key s out, all cu env v key s = .ok out → out.2.1 = key)
    (h : creating all cu env v args s = .ok out) : out.1 = args := by
  refine onKey_args (fun key s out hout => ?_) h
  obtain ⟨p, hp, hout⟩ := bind_eq_ok.mp hout
  cases hout
  exact hall _ _ _ hp

omit hq in
theorem msetLoop_args (h : msetLoop env v args s = .ok out) : out.1 = tagPairs v.cur args := by
  induction args using evenArgs.induct generalizing s out with
  | case1 k val rest ih =>
    rw [msetLoop] at h
    obtain ⟨s₁, -, h⟩ := bind_eq_ok.mp h
    obtain ⟨p, hp, h⟩ := bind_eq_ok.mp h
    cases h
    rw [tagPairs, ih hp]
  | case2 args hne =>
    unfold msetLoop at h
    unfold tagPairs
    split at h
    · exact absurd rfl (hne _ _ _)
    · cases h
      split
      · exact absurd rfl (hne _ _ _)
      · rfl

theorem Quiet.mgetLoop_args (h : mgetLoop checkUpdateKvPair env v args s = .ok out) :
    out.1 = args := by
  induction args generalizing s out with
  | nil =>
    cases h
    rfl
  | cons k rest ih =>
    rw [mgetLoop] at h
    obtain ⟨p, hp, h⟩ := bind_eq_ok.mp h
    obtain ⟨q, hq', h⟩ := bind_eq_ok.mp h
    cases h
    rw [hq.getKey_key hp, ih hq']

omit hq in
theorem set_args {h : HName} (hset : h = .set ∨ h = .mset) (hok : h.run cu env v args s = .ok out) :
    out.1 = h.tagged v.cur args := by
  rcases hset with rfl | rfl
  · simp only [HName.run, kvolveSet] at hok
    split at hok
    · rename_i k val opts
      cases hx : (getFlags opts).2 <;> cases hn : (getFlags opts).1 <;>
        simp only [hx, hn, Bool.false_eq_true, if_true, if_false] at hok <;>
        obtain ⟨s', -, hok⟩ := bind_eq_ok.mp hok <;> cases hok <;> simp [HName.tagged, hx, hn]
    · cases hok
  · simp only [HName.run, kvolveMset] at hok
    split at hok
    · cases hok
    · exact msetLoop_args hok

/-- **Functions that change no key leave a command its arguments.** -/
theorem Quiet.run_args {h : HName} (hk : h ≠ .keys)
    (hok : h.run checkUpdateKvPair env v args s = .ok out) :
    out.1 = h.tagged v.cur args := by
  have hget : onKey (getKey checkUpdateKvPair env v) args s = .ok out → out.1 = args :=
    fun hok => onKey_args (fun _ _ _ hkey => hq.getKey_key hkey) hok
  have hmove : ∀ (f : Bytes → Store → Res Store) key s (out : Bytes × Store),
      (f key s >>= fun s' => .ok (key, s')) = .ok out → out.1 = key := by
    intro f key s out hf
    obtain ⟨s', -, hf⟩ := bind_eq_ok.mp hf
    cases hf
    rfl
  cases h with
  | keys => exact absurd rfl hk
  | set => exact set_args (.inl rfl) hok
  | mset => exact set_args (.inr rfl) hok
  | get | getset | getrange => exact hget hok
  | mget => exact hq.mgetLoop_args hok
  | del =>
    obtain ⟨s', -, hok⟩ := bind_eq_ok.mp hok
    cases hok
    rfl
  | incr | incrby => exact onKey_args (hmove (incrKey env v)) hok
  | setnx => exact onKey_args (hmove (setnxKey env v)) hok
  | sadd | lpush | rpush | hset | hmset =>
    exact creating_args (fun _ _ _ hall => hq.elems_key hall) hok
  | zadd => exact creating_args (fun _ _ _ hall => hq.updateAllZset_key hall) hok
  | hdel | hget | hgetall | hmget | lrange | lpop | llen | lset | rpop | scard | spop | smembers
  | sismember | srem => exact migrating_args (fun _ _ _ hall => hq.elems_key hall) hok
  | zcard | zscore | zrem | zrange | zrevrange =>
    exact migrating_args (fun _ _ _ hall => hq.updateAllZset_key hall) hok

end Handlers

end SchemaUpdate.KVolve
