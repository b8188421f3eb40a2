import SchemaUpdate.KVolve.Moved
import SchemaUpdate.KVolve.Unauth

/-! # One database and the others

A client has selected one database. Which commands stay within it, and look at
nothing outside it, when names are changed by a client that is always on database 0? -/

namespace SchemaUpdate.KVolve

open SchemaUpdate.Lib SchemaUpdate.Redis

/-! ## Stores that show one database alike -/

/-- `s` and `t` agree on database `d` and on all that is no database; the other databases
are those of `s₀` and `t₀`, where no pending tag is due. -/
structure Beside (d : Nat) (s₀ t₀ s t : Store) : Prop where
  db : t.dbs d = s.dbs d
  reg : t.reg = s.reg
  kept : s.reg = s₀.reg
  tmp : t.tmp = s.tmp
  shared : t.shared = s.shared
  left : ∀ d', d' ≠ d → s.dbs d' = s₀.dbs d'
  right : ∀ d', d' ≠ d → t.dbs d' = t₀.dbs d'
  due : ∀ k x, s.tmp.lookup k = some x → x.2 ≠ d → s₀.get x.2 k = none ∧ t₀.get x.2 k = none

def NoneDueBeside (d : Nat) (s : Store) : Prop :=
  ∀ k x, s.tmp.lookup k = some x → x.2 ≠ d → s.get x.2 k = none

/-- The same registry, pending tags, shared integers and database `d`. -/
structure Agree (d : Nat) (s t : Store) : Prop where
  db : t.dbs d = s.dbs d
  reg : t.reg = s.reg
  tmp : t.tmp = s.tmp
  shared : t.shared = s.shared

theorem Agree.refl {d : Nat} (s : Store) : Agree d s s := ⟨rfl, rfl, rfl, rfl⟩

section Beside

variable {d : Nat} {s₀ t₀ s t : Store}

theorem Agree.beside (h : Agree d s t) (hs : NoneDueBeside d s) (ht : NoneDueBeside d t) :
    Beside d s t s t :=
  ⟨h.db, h.reg, rfl, h.tmp, h.shared, fun _ _ => rfl, fun _ _ => rfl,
    fun k x hx hd => ⟨hs k x hx hd, ht k x (h.tmp ▸ hx) hd⟩⟩

variable (h : Beside d s₀ t₀ s t)

include h

theorem Beside.agree : Agree d s t := ⟨h.db, h.reg, h.tmp, h.shared⟩

theorem Beside.get (k : Bytes) : t.get d k = s.get d k := by
  rw [Store.get, Store.get, h.db]

theorem Beside.setDb (db : Db) : Beside d s₀ t₀ (s.setDb d db) (t.setDb d db) where
  db := by simp
  reg := h.reg
  kept := h.kept
  tmp := h.tmp
  shared := h.shared
  left d' hd' := by rw [Store.setDb_dbs_ne _ _ _ hd', h.left d' hd']
  right d' hd' := by rw [Store.setDb_dbs_ne _ _ _ hd', h.right d' hd']
  due := h.due

theorem Beside.put (k : Bytes) (x : Option Entry) : Beside d s₀ t₀ (s.put d k x) (t.put d k x) := by
  rw [Store.put, Store.put, h.db]
  exact h.setDb _

theorem Beside.setShared (f : Int → Int) :
    Beside d s₀ t₀ { s with shared := f } { t with shared := f } :=
  ⟨h.db, h.reg, h.kept, h.tmp, rfl, h.left, h.right, h.due⟩

theorem Beside.setTmp (k : Bytes) {x : Option (Int × Nat)} (hx : ∀ y, x = some y → y.2 = d) :
    Beside d s₀ t₀ { s with tmp := s.tmp.put k x } { t with tmp := t.tmp.put k x } := by
  refine ⟨h.db, h.reg, h.kept, by rw [h.tmp], h.shared, h.left, h.right, fun j y hy hd => ?_⟩
  rw [Dict.lookup_put] at hy
  split at hy
  · exact absurd (hx y hy) hd
  · exact h.due j y hy hd

theorem Beside.setVers (k : Bytes) (vers : Int) :
    Beside d s₀ t₀ (s.setVers d k vers) (t.setVers d k vers) := by
  rw [Store.setVers, Store.setVers, h.get, h.shared]
  cases s.get d k with
  | none => exact h
  | some e =>
    simp only
    split
    · exact h.setShared _
    · exact h.put k _

theorem Beside.prevcallStep {k : Bytes} {x : Int × Nat}
    (hx : x.2 ≠ d → s₀.get x.2 k = none ∧ t₀.get x.2 k = none) :
    Beside d s₀ t₀ (prevcallStep s k x) (prevcallStep t k x) := by
  unfold KVolve.prevcallStep
  by_cases hd : x.2 = d
  · rw [hd, h.get]
    cases s.get d k with
    | none => exact h
    | some e =>
      have h' := (h.setVers k x.1).setTmp k (x := none) (by simp)
      rw [Store.setVers_tmp, Store.setVers_tmp] at h'
      exact h'
  · have hs : s.get x.2 k = none := by
      rw [Store.get, h.left _ hd]
      exact (hx hd).1
    have ht : t.get x.2 k = none := by
      rw [Store.get, h.right _ hd]
      exact (hx hd).2
    rw [hs, ht]
    exact h

theorem Beside.prevcallCheck : Beside d s₀ t₀ (prevcallCheck s) (prevcallCheck t) := by
  have hall : ∀ p ∈ s.tmp.entries, p.2.2 ≠ d → s₀.get p.2.2 p.1 = none ∧ t₀.get p.2.2 p.1 = none :=
    fun p hp => h.due p.1 p.2 (AList.mem_lookup_iff.mpr hp)
  unfold KVolve.prevcallCheck
  rw [h.tmp]
  generalize s.tmp.entries = l at hall
  induction l generalizing s t with
  | nil => exact h
  | cons p l ih =>
    exact ih (h.prevcallStep (hall p (by simp))) fun q hq => hall q (by simp [hq])

theorem Beside.rebase : Beside d s t s t where
  db := h.db
  reg := h.reg
  kept := rfl
  tmp := h.tmp
  shared := h.shared
  left _ _ := rfl
  right _ _ := rfl
  due k x hx hd := by
    rw [Store.get, Store.get, h.left _ hd, h.right _ hd]
    exact h.due k x hx hd

omit h

theorem Beside.trans {s₁ t₁ : Store} (h : Beside d s₀ t₀ s₁ t₁) (h' : Beside d s₁ t₁ s t) :
    Beside d s₀ t₀ s t where
  db := h'.db
  reg := h'.reg
  kept := h'.kept.trans h.kept
  tmp := h'.tmp
  shared := h'.shared
  left d' hd := (h'.left d' hd).trans (h.left d' hd)
  right d' hd := (h'.right d' hd).trans (h.right d' hd)
  due k x hx hd := by
    have hdue := h'.due k x hx hd
    rwa [Store.get, Store.get, h.left _ hd, h.right _ hd] at hdue

end Beside

/-! ## Database 0 -/

variable {env : Env} {s₀ t₀ s t : Store} {v : VersionHash} {h : HName}

theorem Beside.storeRel (hd : env.d = 0) (s₀ t₀ : Store) :
    StoreRel env (Beside 0 s₀ t₀) where
  db h := hd ▸ h.db
  reg h := h.reg
  versions h := h.shared
  setDb h db := hd ▸ h.setDb db
  shared h f := h.setShared f
  new h v k := h.setTmp _ fun y hy => by cases hy; exact hd
  move {s t} h src dst := by
    rw [Store.rename_eq, Store.rename_eq, h.db]
    exact h.setDb _

theorem Beside.hook_zero (hd : env.d = 0) (h : Beside 0 s₀ t₀ s t) (argv : List Arg) :
    RelRes (HRel (Beside 0 s₀ t₀)) (processData checkUpdateKvPair env argv s)
      (processData checkUpdateKvPair env argv t) :=
  (Beside.storeRel hd s₀ t₀).hook (Beside.storeRel rfl s₀ t₀) (fun h => h.prevcallCheck) h argv

/-! ## A key that is where it belongs -/

def Present (d : Nat) (P : Bytes → Bool) (s₀ t₀ s t : Store) : Prop :=
  Beside d s₀ t₀ s t ∧ ∀ j, s.has d j = P j

theorem Beside.has {d : Nat} (h : Beside d s₀ t₀ s t) (k : Bytes) : t.has d k = s.has d k := by
  rw [Store.has, Store.has, h.get]

theorem Beside.getDbVal (h : Beside env.d s₀ t₀ s t) (v : VersionHash) (k : Bytes) :
    getDbVal env v k t = getDbVal env v k s := by
  have hhas : t.has env.d = s.has env.d := funext h.has
  rw [KVolve.getDbVal, KVolve.getDbVal, hhas, h.reg]

theorem Store.has_put (s : Store) (d : Nat) (k : Bytes) (x : Option Entry) (j : Bytes) :
    (s.put d k x).has d j = if j = k then x.isSome else s.has d j := by
  rw [Store.has, Store.get_put]
  simp only [true_and]
  split <;> rfl

theorem Quiet.present_closed (hq : Quiet v) (env : Env) (s₀ t₀ : Store) {P : Bytes → Bool}
    {k : Bytes} (hk : P k = true) :
    Closed (updRedisCall env) env v (· = k)
      (fun s t => Beside env.d s₀ t₀ s t ∧ ∀ j, j ≠ k → s.has env.d j = P j)
      (Present env.d P s₀ t₀) where
  weak h := ⟨h.1, fun j _ => h.2 j⟩
  settle := by
    rintro s t loc ⟨hb, hP⟩ rfl hh
    refine ⟨hb, fun j => ?_⟩
    by_cases hj : j = loc
    · rw [hj, hh, hk]
    · exact hP j hj
  get h _ := h.1.get _
  put₀ := by
    rintro s t k' ⟨hb, hP⟩ rfl x
    refine ⟨hb.put _ x, fun j hj => ?_⟩
    rw [Store.has_put, if_neg hj, hP j hj]
  put := by
    rintro s t k' ⟨hb, hP⟩ rfl e
    refine ⟨hb.put _ _, fun j => ?_⟩
    rw [Store.has_put]
    split
    · rename_i hj
      rw [hj, hk]
      rfl
    · exact hP j
  shared := by
    rintro s t ⟨hb, hP⟩ n x
    rw [hb.shared]
    exact ⟨hb.setShared _, hP⟩
  walk h _ := h.1.getDbVal v _
  found := by
    rintro s t k' loc ⟨hb, hP⟩ rfl hfound
    rw [getDbVal_has ((hP k').trans hk)] at hfound
    cases hfound
    rfl
  vers h _ _ _ := by rw [Store.vers, Store.vers, h.1.shared]
  move := by
    rintro s t k' ⟨hb, hP⟩ rfl
    rw [namespaceUpdate_has ((hP k').trans hk),
      namespaceUpdate_has ((hb.has k').trans ((hP k').trans hk))]
    exact .ok ⟨hb, hP⟩
  keys := .inr fun f hf key a => (hq f hf key a).1
  calls := .inr fun f hf key a => (hq f hf key a).2

theorem Quiet.present_hclosed (hq : Quiet v) (env : Env) (s₀ t₀ : Store) {P : Bytes → Bool}
    {k : Bytes} (hk : P k = true) :
    HClosed checkUpdateKvPair (updRedisCall env) env v (· = k) (Present env.d P s₀ t₀) where
  toCarried := (hq.present_closed env s₀ t₀ hk).carried
  cu := (hq.present_closed env s₀ t₀ hk).carried.checkUpdateKvPair
  new h _ _ := ⟨h.1.setTmp _ fun y hy => by cases hy; rfl, h.2⟩
  versAll h _ _ := by rw [Store.vers, Store.vers, h.1.shared]

/-! ## Handlers that stay in their database -/

/-- Every change the handler makes is made in the selected database: a plain `SET` or `MSET`
deletes there, a key under no name is let be, and one under its own name is not moved. -/
def HandlerStays (h : HName) (env : Env) (v : VersionHash) (k : Arg) (rest : List Arg)
    (s : Store) : Prop :=
  if h = .keys then KeysIdle env k.ptr s
  else h = .mset ∨ (h = .set ∧ getFlags rest.tail = (false, false)) ∨
    ∀ j ∈ h.keysOf (k :: rest),
      Absent env v j s ∨ Current h env v j s ∨ (s.has env.d j = true ∧ Quiet v)

section Stays

variable {env : Env} {s₀ t₀ s t : Store} {v : VersionHash} {h : HName} {k : Bytes} {rest : List Arg}
  (hb : Beside env.d s₀ t₀ s t)

include hb

theorem Beside.absent (ha : Absent env v k s) : Absent env v k t := (hb.getDbVal v k).trans ha

theorem Beside.current (hc : Current h env v k s) : Current h env v k t := by
  obtain ⟨e, he, hcur⟩ := hc
  refine ⟨e, (hb.get k).trans he, ?_⟩
  rwa [Store.vers, hb.shared, ← Store.vers]

theorem Beside.keysIdle {p : Bytes} (hk : KeysIdle env p s) : KeysIdle env p t := by
  unfold KeysIdle
  rw [hb.db, hb.reg]
  refine hk.imp_right fun hidle k hmem hh next hnext => ?_
  obtain ⟨new, hnew, hmatch⟩ := hidle k hmem (hb.has k ▸ hh) next hnext
  exact ⟨new, hnew, fun hm => (hb.has new).trans (hmatch hm)⟩

theorem Beside.setKeyOld (k : Bytes) :
    RelRes (Beside env.d s₀ t₀) (setKeyOld env v k s) (setKeyOld env v k t) := by
  rw [setKeyOld_eq, setKeyOld_eq, hb.has]
  split
  · refine RelRes.bind_same (hb.getDbVal v k) fun found _ => ?_
    cases found with
    | none => exact .ok hb
    | some old => exact .ok (hb.put old none)
  · exact .ok hb

omit hb

theorem Beside.run_idle (hb : Beside env.d s t s t) (hk : h ≠ .keys) {k : Arg}
    (hargs : ArgsOk h (k :: rest))
    (hi : ∀ j ∈ h.keysOf (k :: rest), Absent env v j s ∨ Current h env v j s) :
    RelRes (HRel (Present env.d (s.has env.d) s t)) (h.run checkUpdateKvPair env v (k :: rest) s)
      (h.run checkUpdateKvPair env v (k :: rest) t) := by
  have hidle : Present env.d (s.has env.d) s t (idleStore h env v k.ptr s)
      (idleStore h env v k.ptr t) := by
    unfold idleStore
    rw [hb.has]
    split
    · exact ⟨hb.setTmp _ fun y hy => by cases hy; rfl, fun _ => rfl⟩
    · exact ⟨hb, fun _ => rfl⟩
  rw [KVolve.run_idle hk hargs hi,
    KVolve.run_idle hk hargs fun j hj => (hi j hj).imp hb.absent hb.current]
  exact .ok (.mk hidle)

theorem Present.getKey (hq : Quiet v) (hp : Present env.d (s₀.has env.d) s₀ t₀ s t)
    (hk : Absent env v k s₀ ∨ s₀.has env.d k = true) :
    RelRes (fun p q : Bytes × Store =>
        q.1 = p.1 ∧ Present env.d (s₀.has env.d) s₀ t₀ p.2 q.2)
      (getKey checkUpdateKvPair env v k s) (getKey checkUpdateKvPair env v k t) := by
  rcases hk with ha | hP
  · have has : Absent env v k s := by
      have hhas : s.has env.d = s₀.has env.d := funext hp.2
      rwa [Absent, KVolve.getDbVal, hhas, hp.1.kept, ← KVolve.getDbVal]
    rw [getKey_idle (h := .get) rfl (.inl has),
      getKey_idle (h := .get) rfl (.inl (hp.1.absent has))]
    exact .ok ⟨rfl, hp⟩
  · exact (hq.present_hclosed env s₀ t₀ hP).walks.getKey hp rfl

theorem Quiet.run_stays (hq : Quiet v) (hb : Beside env.d s t s t) (hk : h ≠ .keys) (hm : h ≠ .mset)
    {k : Arg} (hargs : ArgsOk h (k :: rest))
    (hi : ∀ j ∈ h.keysOf (k :: rest), Absent env v j s ∨ s.has env.d j = true) :
    RelRes (HRel (Present env.d (s.has env.d) s t)) (h.run checkUpdateKvPair env v (k :: rest) s)
      (h.run checkUpdateKvPair env v (k :: rest) t) := by
  have hstart : Present env.d (s.has env.d) s t s t := ⟨hb, fun _ => rfl⟩
  by_cases hw : h.writes = true
  · refine hb.run_idle hk hargs fun j hj => (hi j hj).imp_right fun hh => ?_
    obtain ⟨e, he⟩ := Option.isSome_iff_exists.mp hh
    exact ⟨e, he, .inl hw⟩
  · by_cases hmget : h = .mget
    · subst hmget
      exact relRes_mgetLoop hstart fun j hj _ _ hst => Present.getKey hq hst (hi j hj)
    · have hone : h.keysOf (k :: rest) = [k.ptr] := by
        cases h <;> first | rfl | exact absurd rfl hmget | exact absurd rfl hm | exact absurd rfl hw
      rcases hi k.ptr (by rw [hone]; simp) with ha | hP
      · refine hb.run_idle hk hargs fun j hj => .inl ?_
        rw [hone, List.mem_singleton] at hj
        exact hj ▸ ha
      · have hset : h ≠ .set ∧ h ≠ .mset := ⟨fun hs => hw (by rw [hs]; rfl), hm⟩
        refine (hq.present_hclosed env s t hP).run h hk (.inl hset) hstart ?_
        intro j hj
        rw [hone, List.mem_singleton] at hj
        exact hj

theorem HRel.of_present {d : Nat} {P : Bytes → Bool} {p q : List Arg × Store}
    (h : HRel (Present d P s₀ t₀) p q) : HRel (Beside d s₀ t₀) p q := by
  cases h with
  | mk hst => exact .mk hst.1

/-- A handler that stays in its database does not see the others. -/
theorem Beside.run_stays (hb : Beside env.d s t s t) {k : Arg}
    (hs : HandlerStays h env v k rest s) :
    RelRes (HRel (Beside env.d s t)) (h.run checkUpdateKvPair env v (k :: rest) s)
      (h.run checkUpdateKvPair env v (k :: rest) t) := by
  unfold HandlerStays at hs
  split at hs
  · rename_i hk
    subst hk
    simp only [HName.run, kvolveKeys_idle hs, kvolveKeys_idle (hb.keysIdle hs)]
    exact .ok (.mk hb)
  · rename_i hk
    by_cases hm : h = .mset
    · subst hm
      simp only [HName.run, kvolveMset]
      split
      · exact .error _
      · exact relRes_msetLoop hb fun j _ _ _ hst => hst.setKeyOld j
    · rcases hs with hm' | ⟨rfl, hplain⟩ | hkeys
      · exact absurd hm' hm
      · cases rest with
        | nil => exact .error _
        | cons val opts =>
          simp only [List.tail_cons] at hplain
          simp only [HName.run, kvolveSet, hplain]
          exact (hb.setKeyOld k.ptr).bind fun _ _ h' => .ok (.mk h')
      · by_cases hargs : ArgsOk h (k :: rest)
        · by_cases hq : Quiet v
          · refine (hq.run_stays hb hk hm hargs fun j hj => ?_).mono fun _ _ => HRel.of_present
            rcases hkeys j hj with ha | hc | hp
            · exact .inl ha
            · exact .inr hc.has
            · exact .inr hp.1
          · refine (hb.run_idle hk hargs fun j hj => ?_).mono fun _ _ => HRel.of_present
            rcases hkeys j hj with ha | hc | hp
            · exact .inl ha
            · exact .inr hc
            · exact absurd hp.2 hq
        · -- `SET` without a value
          obtain rfl : h = .set := by
            cases h <;> first | rfl | exact absurd rfl hm | exact absurd trivial hargs
          cases rest with
          | nil => exact .error _
          | cons val opts => exact absurd (by simp [ArgsOk]) hargs

end Stays

def DataStays (env : Env) (argv : List Arg) (s : Store) : Prop :=
  ∀ name k rest, argv = name :: k :: rest →
    (strcasecmp name.ptr (lit "keys") = true → rest = [] → KeysIdle env k.ptr s) ∧
    ∀ v h, versionHashLookup s.reg k.ptr = some v → lookupKvCommand name.ptr argv.length = some h →
      HandlerStays h env v k rest s

variable {argv : List Arg} {c : Client} {cfg : Cfg} {rq : Request}

theorem Beside.processData_stays (hb : Beside env.d s t s t) (hs : DataStays env argv s) :
    RelRes (HRel (Beside env.d s t)) (processData checkUpdateKvPair env argv s)
      (processData checkUpdateKvPair env argv t) := by
  refine relRes_processData hb hb.reg (fun name p heq hk => ?_) fun name k rest v h heq hv hkv =>
    hb.run_stays ((hs name k rest heq).2 v h hv hkv)
  have hidle := (hs name p [] heq).1 hk rfl
  rw [kvolveKeys_idle hidle, kvolveKeys_idle (hb.keysIdle hidle)]
  exact .ok (.mk hb)

/-! ## Requests -/

/-- A supported command, or any other that is neither `EXEC` nor a name a client gives
itself. -/
def DataRequest (argv : List Bytes) : Prop :=
  isSetname (args argv) = none ∧
    ∀ name rest, argv = name :: rest → (lookupCommand name).map (·.2.1) ≠ some .exec

/-- The request of a client on database `c.db` stays within it. -/
structure Stays (cfg : Cfg) (c : Client) (rq : Request) (s : Store) : Prop where
  due : NoneDueBeside c.db s
  data : c.db = 0 ∨ DataStays (rq.env cfg c.db) (args rq.argv) (prevcallCheck s)

theorem processData_head {argv' : List Arg} {s' : Store}
    (h : processData checkUpdateKvPair env argv s = .ok (argv', s')) :
    argv'.head? = argv.head? := by
  have hdisp : dispatch checkUpdateKvPair env argv s = .ok (argv', s') → argv'.head? = argv.head? := by
    intro h
    unfold dispatch at h
    split at h
    · split at h
      · cases h
        rfl
      · split at h
        · cases h
          rfl
        · obtain ⟨p, -, h⟩ := bind_eq_ok.mp h
          cases h
          rfl
    · cases h
      rfl
  unfold processData at h
  split at h
  · split at h
    · obtain ⟨p, -, h⟩ := bind_eq_ok.mp h
      cases h
      rfl
    · exact hdisp h
  · exact hdisp h

theorem NotExec.of_head {argv' : List Arg} (h : NotExec argv) (hhead : argv'.head? = argv.head?) :
    NotExec argv' := by
  rintro name args rfl
  cases argv with
  | nil => cases hhead
  | cons n as =>
    cases hhead
    exact h name as rfl

theorem DataRequest.notExec {argv : List Bytes} (h : DataRequest argv) : NotExec (args argv) := by
  intro name as heq
  cases argv with
  | nil => cases heq
  | cons n rest =>
    cases heq
    exact h.2 n rest rfl

/-- The same answer, and stores that differ outside database `d` at most. -/
structure SameSeen (d : Nat) (s₀ t₀ : Store) (a b : Served) : Prop where
  reply : b.reply = a.reply
  c : b.c = a.c
  killed : b.killed = a.killed
  s : Beside d s₀ t₀ a.s b.s

theorem Beside.redis (cfg : Cfg) (rq : Request) (hb : Beside c.db s₀ t₀ s t)
    (hexec : NotExec argv) :
    let a := redisProcessCommand cfg rq c argv s
    let b := redisProcessCommand cfg rq c argv t
    b.1 = a.1 ∧ b.2.1 = a.2.1 ∧ Beside c.db s₀ t₀ a.2.2 b.2.2 := by
  rcases redisProcessCommand_cases cfg rq c hexec with ⟨r, c', h⟩ | ⟨p, h⟩
  · simp only [h]
    exact ⟨trivial, trivial, hb⟩
  · have hdb : t.dbs (rq.env cfg c.db).d = s.dbs (rq.env cfg c.db).d := hb.db
    simp only [h, Store.call, hdb]
    exact ⟨trivial, trivial, hb.setDb _⟩

/-- Two stores that differ in other databases serve a request alike when it stays within its
own. -/
theorem serve_beside (hb : Beside c.db s t s t) (hreq : DataRequest rq.argv)
    (hs : c.db = 0 ∨ DataStays (rq.env cfg c.db) (args rq.argv) (prevcallCheck s)) :
    RelRes (SameSeen c.db s t) (serve cfg c rq s) (serve cfg c rq t) := by
  have hp := hb.prevcallCheck
  have hdata : RelRes (HRel (Beside c.db s t))
      (processData checkUpdateKvPair (rq.env cfg c.db) (args rq.argv) (prevcallCheck s))
      (processData checkUpdateKvPair (rq.env cfg c.db) (args rq.argv) (prevcallCheck t)) := by
    rcases hs with h0 | hs
    · rw [h0] at hp ⊢
      exact hp.hook_zero rfl _
    · refine (Beside.processData_stays ?_ hs).mono fun p q hpq => ?_
      · exact hp.rebase
      · cases hpq with
        | mk h' => exact .mk (hp.trans h')
  have hhook : RelRes (fun a b : HookOut => b.argv = a.argv ∧ b.killed = a.killed ∧
        NotExec a.argv ∧ Beside c.db s t a.s b.s)
      (processCommand rq.ld (rq.env cfg c.db) c.id (args rq.argv) s)
      (processCommand rq.ld (rq.env cfg c.db) c.id (args rq.argv) t) := by
    unfold processCommand hookBody
    rw [hreq.1]
    refine hdata.bind_of_ok fun p q hok hpq => ?_
    cases hpq with
    | mk h' => exact .ok ⟨rfl, rfl, hreq.notExec.of_head (processData_head hok), h'⟩
  refine hhook.bind fun a b hab => ?_
  obtain ⟨argv', sa, killed⟩ := a
  obtain ⟨argv'', sb, killed'⟩ := b
  obtain ⟨rfl, rfl, hexec, hst⟩ := hab
  obtain ⟨hr, hc, hs'⟩ := hst.redis cfg rq hexec
  exact .ok ⟨hr, hc, rfl, hs'⟩

/-! ## Isolation -/

/-- What the request of a client may do to the databases it has not selected, and what it
does for a value that stands under the previous name of its key in the one it has. -/
structure Isolated (cfg : Cfg) (c : Client) (rq : Request) (s : Store) : Prop where
  others : ∀ out, serve cfg c rq s = .ok out → ∀ d, d ≠ c.db → out.s.dbs d = s.dbs d
  blind : ∀ t, Agree c.db s t → NoneDueBeside c.db t →
    RelRes (fun a b : Served => b.reply = a.reply ∧ b.c = a.c ∧ Agree c.db a.s b.s)
      (serve cfg c rq s) (serve cfg c rq t)
  visible : ∀ name key rest h v old e, rq.argv = name :: key :: rest →
    lookupKvCommand name rq.argv.length = some h → versionHashLookup s.reg key = some v →
    Quiet v → v.prevNs.bind (constructPrevName key) = some old →
    (prevcallCheck s).get c.db key = none → (prevcallCheck s).get c.db old = some e →
    e.alive rq.now = true → Moves h (rq.env cfg c.db) v (args rest) e (prevcallCheck s) →
    ∀ out, processCommand rq.ld (rq.env cfg c.db) c.id (args rq.argv) s = .ok out →
      out.s.has c.db key = true ∧ out.s.has c.db old = false ∧
        ∀ j, j ≠ key → j ≠ old → out.s.has c.db j = (prevcallCheck s).has c.db j

theorem lookupKvCommand_of_keys {name : Bytes} {argc : Nat}
    (hk : strcasecmp name (lit "keys") = true) (hkv : lookupKvCommand name argc = some h) :
    h = .keys := by
  unfold lookupKvCommand at hkv
  split at hkv
  · rename_i c hname least hfind
    split at hkv
    · cases hkv
    · cases hkv
      have hmem := List.mem_of_find?_eq_some hfind
      have hp := List.find?_some hfind
      simp only [Bool.or_eq_true, beq_iff_eq] at hp
      have hall : ∀ c ∈ kvolveCommandTable, ∀ x ∈ [lit c.1, (lit c.1).map upper],
          x.map lower = (cstr (lit "keys")).map lower → c.2.1 = .keys := by
        decide +kernel
      have hlow : (cstr name).map lower = (cstr (lit "keys")).map lower := by
        simpa [strcasecmp] using hk
      refine hall _ hmem (cstr name) ?_ hlow
      rcases hp with hp | hp
      · rw [hp]
        simp
      · rw [hp]
        simp
  · cases hkv

theorem processData_handler {cu : CheckUpdate} {name k : Arg} {rest : List Arg}
    (hkv : lookupKvCommand name.ptr (rest.length + 2) = some h) (hk : h ≠ .keys)
    (hv : versionHashLookup s.reg k.ptr = some v) :
    processData cu env (name :: k :: rest) s =
      h.run cu env v (k :: rest) s >>= fun p => .ok (name :: p.1, p.2) := by
  have hdisp : dispatch cu env (name :: k :: rest) s =
      h.run cu env v (k :: rest) s >>= fun p => .ok (name :: p.1, p.2) := by
    simp only [dispatch, hv, List.length_cons, hkv]
  unfold processData
  split
  · rename_i heq
    cases heq
    rw [if_neg]
    · exact hdisp
    · exact fun hs => hk (lookupKvCommand_of_keys hs hkv)
  · exact hdisp

theorem Moves.first {k : Arg} {rest : List Arg} {e : Entry} (hm : Moves h env v rest e s) :
    h ≠ .keys ∧ h ≠ .mset ∧ h.keysOf (k :: rest) = [k.ptr] := by
  cases h
  case mset => exact hm.elim
  case keys => exact hm.elim
  case mget => exact ⟨by decide, by decide, by rw [hm.1]; rfl⟩
  case del => exact ⟨by decide, by decide, by rw [hm.1]; rfl⟩
  all_goals exact ⟨by decide, by decide, rfl⟩

/-- A value under the previous name of its key is visible under the key. -/
theorem Stays.visible (hreq : DataRequest rq.argv) (hs : Stays cfg c rq s) {name key : Bytes}
    {rest : List Bytes} {old : Bytes} {e : Entry} (hargv : rq.argv = name :: key :: rest)
    (hkv : lookupKvCommand name rq.argv.length = some h) (hv : versionHashLookup s.reg key = some v)
    (hq : Quiet v) (hprev : v.prevNs.bind (constructPrevName key) = some old)
    (habs : (prevcallCheck s).get c.db key = none) (hold : (prevcallCheck s).get c.db old = some e)
    (halive : e.alive rq.now = true)
    (hm : Moves h (rq.env cfg c.db) v (args rest) e (prevcallCheck s)) {out : HookOut}
    (hok : processCommand rq.ld (rq.env cfg c.db) c.id (args rq.argv) s = .ok out) :
    out.s.has c.db key = true ∧ out.s.has c.db old = false ∧
      ∀ j, j ≠ key → j ≠ old → out.s.has c.db j = (prevcallCheck s).has c.db j := by
  have hv' : versionHashLookup (prevcallCheck s).reg key = some v := by rwa [prevcallCheck_reg]
  obtain ⟨hk, hmset, hone⟩ := hm.first (k := ⟨key, 0⟩)
  have h0 : c.db = 0 := by
    refine hs.data.resolve_right fun hdata => ?_
    -- elsewhere the value would not be moved
    have hst := (hdata ⟨name, 0⟩ ⟨key, 0⟩ (args rest) (by rw [hargv]; rfl)).2 v h hv'
      (by simpa [args] using hkv)
    have hhas : (prevcallCheck s).has c.db key = false := by
      rw [Store.has, habs]
      rfl
    have hfound : getDbVal (rq.env cfg c.db) v key (prevcallCheck s) = .ok (some old) :=
      getDbVal_previous hprev hhas (Store.has_of_get hold)
    unfold HandlerStays at hst
    rw [if_neg hk] at hst
    rcases hst with hms | ⟨rfl, hplain⟩ | hkeys
    · exact hmset hms
    · exact hm hplain
    · rcases hkeys key (by rw [hone]; simp) with ha | hc | hp
      · have ha' : getDbVal (rq.env cfg c.db) v key (prevcallCheck s) = .ok none := ha
        rw [hfound] at ha'
        cases ha'
      · have hhas' := hc.has
        simp only [Request.env] at hhas'
        rw [hhas] at hhas'
        cases hhas'
      · have hhas' := hp.1
        simp only [Request.env] at hhas'
        rw [hhas] at hhas'
        cases hhas'
  have hb : Behind (rq.env cfg c.db) v key old e (prevcallCheck s) :=
    ⟨h0, hprev, h0 ▸ habs, h0 ▸ hold, halive⟩
  obtain ⟨p, hp, hout⟩ : ∃ p, h.run checkUpdateKvPair (rq.env cfg c.db) v
      (⟨key, 0⟩ :: args rest) (prevcallCheck s) = .ok p ∧ out.s = p.2 := by
    have hset := hreq.1
    rw [hargv] at hset hok hkv
    simp only [processCommand, hookBody, hset] at hok
    rw [args, List.map_cons, List.map_cons, ← args, processData_handler (by simpa [args] using hkv)
      hk hv'] at hok
    obtain ⟨q, hq', hok⟩ := bind_eq_ok.mp hok
    obtain ⟨p, hp, hq'⟩ := bind_eq_ok.mp hq'
    cases hq'
    cases hok
    exact ⟨p, hp, rfl⟩
  rw [hb.run hm] at hp
  -- the value has been moved: nothing comes or goes any more
  have hrel : StoreRel (rq.env cfg c.db) (Beside 0 s s) := Beside.storeRel h0 s s
  have hdue : NoneDueBeside 0 s := h0 ▸ hs.due
  have hbes := (hrel.move ((Agree.refl s).beside hdue hdue).prevcallCheck old key).rebase
  rw [← h0] at hbes
  obtain ⟨q, -, hpq⟩ := (Quiet.run_stays hq hbes hk hmset (argsOk_of_run hp) fun j hj => by
    rw [hone, List.mem_singleton] at hj
    rw [hj]
    exact .inr hb.has_moved).of_ok hp
  cases hpq with
  | mk hst =>
    have hpres := hst.2
    rw [hout]
    refine ⟨(hpres key).trans hb.has_moved, ?_, fun j hjk hjo => ?_⟩
    · refine (hpres old).trans ?_
      rw [Store.has, hb.gone_moved]
      rfl
    · have hother : ((prevcallCheck s).rename rq.now old key).get c.db j =
          (prevcallCheck s).get c.db j :=
        Store.get_rename_other fun hj => hj.2.elim hjo hjk
      refine (hpres j).trans ?_
      rw [Store.has, Store.has, ← hother]
      rfl

theorem Stays.isolated (hreq : DataRequest rq.argv) (hs : Stays cfg c rq s) :
    Isolated cfg c rq s where
  others out hout d hd := by
    obtain ⟨b, -, hab⟩ :=
      (serve_beside ((Agree.refl s).beside hs.due hs.due) hreq hs.data).of_ok hout
    exact hab.s.left d hd
  blind t hagree ht :=
    (serve_beside (hagree.beside hs.due ht) hreq hs.data).mono fun a b hab =>
      ⟨hab.reply, hab.c, hab.s.agree⟩
  visible _ _ _ _ _ _ _ hargv hkv hv hq hprev habs hold halive hm _ hok :=
    hs.visible hreq hargv hkv hv hq hprev habs hold halive hm hok

/-- **In a run whose data requests stay within their databases, every request leaves the
other databases alone, does not look at them, and finds a value under the previous name of
its key.** -/
theorem database_isolation {cfg : Cfg} {y : System} {evs : List Event}
    (h : Along (System.step cfg) (fun y ev => DataRequest ev.2.argv →
      Stays cfg (y.clients ev.1) ev.2 y.s) y evs) :
    Along (System.step cfg) (fun y ev => DataRequest ev.2.argv →
      Isolated cfg (y.clients ev.1) ev.2 y.s) y evs :=
  Along.imp (I := fun _ => True)
    (fun _ _ _ hC => ⟨fun hreq => (hC hreq).isolated hreq, fun _ _ => trivial⟩) trivial h

/-! ## A client on database 1 -/

def onDb (d : Nat) : Client := { id := 1, db := d }

def inBoth : Store := (leftBehind regAB).put 1 (lit "a:s") (some hello)

theorem database_isolation_get :
    Along (System.step {}) (fun y ev => DataRequest ev.2.argv →
        Isolated {} (y.clients ev.1) ev.2 y.s) ⟨inBoth, fun _ => onDb 1⟩
      [(1, request [lit "get", lit "b:t"])] := by
  refine database_isolation ⟨fun _ => ⟨fun k x hx => ?_, .inr ?_⟩, fun _ _ => trivial⟩
  · cases hx
  · intro name k rest heq
    cases heq
    refine ⟨fun hk => ?_, fun v h hv hh => ?_⟩
    · cases hk
    · cases hh
      have hrec : v = (regAB.find (lit "b")).get (by decide) := Option.some.inj (hv.symm.trans rfl)
      subst hrec
      refine .inr (.inr fun j hj => .inl ?_)
      cases List.mem_singleton.mp hj
      rfl

/-- `GET b:s` on database 1 renames the key of database 0 and finds nothing. -/
theorem database_crossed :
    (serve {} (onDb 1) (request [lit "get", lit "b:s"]) inBoth).map (fun out =>
        (out.reply, out.s.get 0 (lit "a:s"), out.s.get 0 (lit "b:s"), out.s.get 1 (lit "b:s"))) =
      .ok ([.nullBulk], none, some hello, none) ∧
    inBoth.get 0 (lit "a:s") = some hello ∧ inBoth.get 1 (lit "a:s") = some hello ∧
    ¬ Isolated {} (onDb 1) (request [lit "get", lit "b:s"]) inBoth := by
  have hrun : (serve {} (onDb 1) (request [lit "get", lit "b:s"]) inBoth).map (fun out =>
      (out.reply, out.s.get 0 (lit "a:s"), out.s.get 0 (lit "b:s"), out.s.get 1 (lit "b:s"))) =
    .ok ([.nullBulk], none, some hello, none) := by rfl
  have hzero : inBoth.get 0 (lit "a:s") = some hello := by rfl
  refine ⟨hrun, hzero, by rfl, fun hiso => ?_⟩
  cases hserve : serve {} (onDb 1) (request [lit "get", lit "b:s"]) inBoth with
  | error f =>
    rw [hserve] at hrun
    cases hrun
  | ok out =>
    rw [hserve] at hrun
    have hget : out.s.get 0 (lit "a:s") = none := congrArg (·.2.1) (Except.ok.inj hrun)
    rw [Store.get, hiso.others out hserve 0 (by decide), ← Store.get, hzero] at hget
    cases hget

end SchemaUpdate.KVolve
