import SchemaUpdate.KVolve.Lazy

/-! # Runs of string commands and loads within a namespace

The lazy server beside a plain Redis whose strings are updated at every load. One
relation between their slots is kept by each command and by each load, and the
commands answer alike. -/

namespace SchemaUpdate.KVolve

open SchemaUpdate.Lib SchemaUpdate.Redis

/-! ## The eager store -/

def IsKey (reg : Reg) (n k : Bytes) : Prop := (versionHashLookup reg k).map (·.ns) = some n

instance (reg : Reg) (n k : Bytes) : Decidable (IsKey reg n k) :=
  inferInstanceAs (Decidable (_ = _))

def eagerEntry (funs : List UpdFun) (e : Entry) : Entry :=
  match e.obj.val with
  | .str (.raw b) => { e with obj := { e.obj with val := .str (.raw (allOnBytes funs b)) } }
  | _ => e

/-- Apply the functions of an update to every string of the namespace. -/
def eagerLoad (reg : Reg) (n : Bytes) (funs : List UpdFun) (t : Store) : Store :=
  { t with dbs := fun d => (t.dbs d).mapVals fun k e =>
      if IsKey reg n k then eagerEntry funs e else e }

theorem get_eagerLoad (reg : Reg) (n : Bytes) (funs : List UpdFun) (t : Store) (d : Nat)
    (k : Bytes) (hk : IsKey reg n k) :
    (eagerLoad reg n funs t).get d k = (t.get d k).map (eagerEntry funs) := by
  simp only [Store.get, eagerLoad, Dict.lookup_mapVals, hk, if_true]

inductive LazyEvent
  | command (c : Client) (rq : Request)
  | load (id : Nat) (pick : Finset Nat → Nat) (sp : Spec)

def lazyStep (cfg : Cfg) (s : Store) : LazyEvent → Res (Reply × Store)
  | .command c rq => do
    let out ← serve cfg c rq s
    .ok (out.reply, out.s)
  | .load id pick sp => do
    let out ← updSpec id pick s.reg sp
    .ok ([], { s with reg := out.1 })

/-- Redis without KVolve, and the eager update. -/
def eagerStep (cfg : Cfg) (reg : Reg) (n : Bytes) (t : Store) : LazyEvent → Reply × Store
  | .command c rq =>
    let out := redisProcessCommand cfg rq c (args rq.argv) t
    (out.1, out.2.2)
  | .load _ _ sp => ([], eagerLoad reg n sp.funs t)

def lazyRun (cfg : Cfg) : Store → List LazyEvent → Res (List Reply)
  | _, [] => .ok []
  | s, e :: es => do
    let out ← lazyStep cfg s e
    let rs ← lazyRun cfg out.2 es
    .ok (out.1 :: rs)

def eagerRun (cfg : Cfg) (reg : Reg) (n : Bytes) : Store → List LazyEvent → List Reply
  | _, [] => []
  | t, e :: es =>
    let out := eagerStep cfg reg n t e
    out.1 :: eagerRun cfg reg n out.2 es

/-! ## The commands -/

def flat (ps : List (Bytes × Bytes)) : List Bytes := ps.flatMap fun p => [p.1, p.2]

/-- Well-formed string commands on keys in `key` that write no integers. -/
inductive StringCmd (key : Bytes → Prop) : List Bytes → Prop
  | set {name k b : Bytes} : Spelled .set name → key k → encInt b = none →
      StringCmd key [name, k, b]
  | mset {name k b : Bytes} {ps : List (Bytes × Bytes)} : Spelled .mset name →
      (∀ p ∈ (k, b) :: ps, key p.1 ∧ encInt p.2 = none) →
      StringCmd key (name :: k :: b :: flat ps)
  | get {name k : Bytes} : Spelled .get name → key k → StringCmd key [name, k]
  | mget {name k : Bytes} {ks : List Bytes} : Spelled .mget name → (∀ j ∈ k :: ks, key j) →
      StringCmd key (name :: k :: ks)
  | getrange {name k a b : Bytes} : Spelled .getrange name → key k →
      StringCmd key [name, k, a, b]
  | del {name k : Bytes} {ks : List Bytes} : Spelled .del name → (∀ j ∈ k :: ks, key j) →
      StringCmd key (name :: k :: ks)

/-- A run of string commands outside `MULTI` and of loads within `n` that fit: `vs` are the
versions registered so far. -/
def LazyTrace (n : Bytes) (key : Bytes → Prop) : List Int → List LazyEvent → Prop
  | _, [] => True
  | vs, .command c rq :: es =>
    c.multi = false ∧ StringCmd key rq.argv ∧ LazyTrace n key vs es
  | vs, .load _ _ sp :: es =>
    (cstr sp.fromNs = n ∧ cstr sp.toNs = n ∧ vs.getLast? = some sp.fromVers ∧ sp.toVers ∉ vs ∧
      vs.length < kvInitSz ∧ ∀ f ∈ sp.funs, PureFun f) ∧ LazyTrace n key (vs ++ [sp.toVers]) es

/-! ## The relation -/

/-- A slot of the lazy store and the slot of the eager one. -/
inductive LazySlot (v : VersionHash) : Option Entry → Option Entry → Prop
  | absent : LazySlot v none none
  | present {tag tag' : Int} {b : Bytes} : tag ∈ v.versions →
      LazySlot v (some (rawEntry tag b)) (some (rawEntry tag' (migrated (v.pending tag) b)))

def LazyDb (key : Bytes → Prop) (v : VersionHash) (a b : Db) : Prop :=
  ∀ k, key k → LazySlot v (a.lookup k) (b.lookup k)

/-- The lazy store `s`, in which `v` is the record of `n`, and the eager store `t`. -/
structure LazyRel (n : Bytes) (key : Bytes → Prop) (v : VersionHash) (s t : Store) : Prop where
  found : s.reg.find n = some v
  prev : v.prevNs = none
  nodup : v.versions.Nodup
  pure : PureHist n v.hist
  tmp : s.tmp = ∅
  resolves : ∀ k, key k → versionHashLookup s.reg k = some v
  slots : ∀ d, LazyDb key v (s.dbs d) (t.dbs d)

/-! ## Steps of Redis commands -/

section Steps

variable {key : Bytes → Prop} {v : VersionHash} {now : Int} {y : Option Entry}

theorem LazySlot.live {x : Option Entry} (h : LazySlot v x y) :
    x.filter (·.alive now) = x ∧ y.filter (·.alive now) = y := by
  cases h <;> exact ⟨rfl, rfl⟩

theorem LazySlot.of_some {e : Entry} (h : LazySlot v (some e) y) :
    ∃ tag tag' b, e = rawEntry tag b ∧ tag ∈ v.versions ∧
      y = some (rawEntry tag' (migrated (v.pending tag) b)) := by
  cases h with
  | present hmem => exact ⟨_, _, _, rfl, hmem, rfl⟩

theorem LazySlot.current (hn : v.versions.Nodup) (b : Bytes) (tag : Int) :
    LazySlot v (some (rawEntry v.cur b)) (some (rawEntry tag b)) := by
  have h : LazySlot v (some (rawEntry v.cur b))
      (some (rawEntry tag (migrated (v.pending v.cur) b))) := .present v.cur_mem
  rw [VersionHash.pending_cur hn] at h
  exact h

def CurrentAt (v : VersionHash) (K : List Bytes) (a : Db) : Prop :=
  ∀ k ∈ K, ∀ e, a.lookup k = some e → e.obj.vers = v.cur

theorem LazySlot.same_val {x : Option Entry} (h : LazySlot v x y) (hn : v.versions.Nodup)
    (hcur : ∀ e, x = some e → e.obj.vers = v.cur) :
    x.map (·.obj.val) = y.map (·.obj.val) := by
  cases h with
  | absent => rfl
  | present hmem =>
    have htag : _ = v.cur := hcur _ rfl
    simp only [rawEntry] at htag
    rw [htag, VersionHash.pending_cur hn]
    rfl

theorem assign_sim (hn : v.versions.Nodup) (k b : Bytes) (r r' : Reply) (x y : Db)
    (h : LazyDb key v x y) :
    ((⟨k, v.cur, setProc false false (.raw b) none r r'⟩ : Step).exec now x).1 =
        ((⟨k, 0, setProc false false (.raw b) none r r'⟩ : Step).exec now y).1 ∧
      LazyDb key v ((⟨k, v.cur, setProc false false (.raw b) none r r'⟩ : Step).exec now x).2
        ((⟨k, 0, setProc false false (.raw b) none r r'⟩ : Step).exec now y).2 := by
  refine ⟨rfl, fun j hj => ?_⟩
  rw [Step.lookup_exec, Step.lookup_exec]
  split
  · exact LazySlot.current hn b 0
  · exact h j hj

/-- A read of a current string leaves both sides as they are. -/
theorem read_sim (hn : v.versions.Nodup) {K : List Bytes} {k : Bytes} (hk : key k) (hK : k ∈ K)
    {p : KeyProc} (hp : ∀ x, (p x).2 = .keep) (x y : Db)
    (h : LazyDb key v x y ∧ CurrentAt v K x) :
    ((⟨k, 0, p⟩ : Step).exec now x).1 = ((⟨k, 0, p⟩ : Step).exec now y).1 ∧
      LazyDb key v ((⟨k, 0, p⟩ : Step).exec now x).2 ((⟨k, 0, p⟩ : Step).exec now y).2 ∧
      CurrentAt v K ((⟨k, 0, p⟩ : Step).exec now x).2 := by
  obtain ⟨hdb, hcur⟩ := h
  have hslot := hdb k hk
  obtain ⟨hx, hy⟩ : liveEntry now x k = x.lookup k ∧ liveEntry now y k = y.lookup k := hslot.live
  -- a read leaves every slot as it is
  have hsame : ∀ z : Db, liveEntry now z k = z.lookup k →
      ∀ j, ((⟨k, 0, p⟩ : Step).exec now z).2.lookup j = z.lookup j := by
    intro z hz j
    rw [Step.lookup_exec]
    split
    · rename_i hj
      rw [Step.outcome, hp, hj]
      exact hz
    · rfl
  refine ⟨?_, fun j hj => ?_, fun j hj e he => ?_⟩
  · simp only [Step.exec, Step.outcome, hx, hy, hslot.same_val hn (hcur k hK)]
  · rw [hsame x hx, hsame y hy]
    exact hdb j hj
  · rw [hsame x hx] at he
    exact hcur j hj e he

theorem del_sim {k : Bytes} (hk : key k) (x y : Db) (h : LazyDb key v x y) :
    ((⟨k, 0, delProc⟩ : Step).exec now x).1 = ((⟨k, 0, delProc⟩ : Step).exec now y).1 ∧
      LazyDb key v ((⟨k, 0, delProc⟩ : Step).exec now x).2
        ((⟨k, 0, delProc⟩ : Step).exec now y).2 := by
  have hslot := h k hk
  obtain ⟨hx, hy⟩ : liveEntry now x k = x.lookup k ∧ liveEntry now y k = y.lookup k := hslot.live
  refine ⟨?_, fun j hj => ?_⟩
  · simp only [Step.exec, Step.outcome, hx, hy]
    generalize x.lookup k = ex at hslot
    generalize y.lookup k = ey at hslot
    cases hslot <;> rfl
  · rw [Step.lookup_exec, Step.lookup_exec]
    split
    · simp only [Step.outcome, hx, hy]
      generalize x.lookup k = ex at hslot
      generalize y.lookup k = ey at hslot
      cases hslot <;> exact .absent
    · exact h j hj

end Steps

/-! ## Commands -/

section Commands

variable {n : Bytes} {key : Bytes → Prop} {v : VersionHash} {s t : Store}

theorem LazyRel.ns (h : LazyRel n key v s t) : v.ns = n := Reg.find_ns h.found

theorem LazyRel.call (h : LazyRel n key v s t) (env : Env) {l l' : List Step}
    (combine : List Reply → Reply) {R : Db → Db → Prop} (hR : R (s.dbs env.d) (t.dbs env.d))
    (hRdb : ∀ a b, R a b → LazyDb key v a b)
    (hsteps : List.Forall₂ (fun st st' => ∀ a b, R a b →
      (st.exec env.now a).1 = (st'.exec env.now b).1 ∧
        R (st.exec env.now a).2 (st'.exec env.now b).2) l l') :
    (s.call env (.run l combine)).1 = (t.call env (.run l' combine)).1 ∧
      LazyRel n key v (s.call env (.run l combine)).2 (t.call env (.run l' combine)).2 := by
  obtain ⟨hr, hR'⟩ := execSteps_sim hsteps hR
  refine ⟨?_, h.found, h.prev, h.nodup, h.pure, h.tmp, h.resolves, fun d => ?_⟩
  · simp only [Store.call, Plan.exec, hr]
  · by_cases hd : d = env.d
    · subst hd
      simp only [Store.call, Plan.exec, Store.setDb_dbs_self]
      exact hRdb _ _ hR'
    · simp only [Store.call, Store.setDb_dbs_ne _ _ _ hd]
      exact h.slots d

variable (cfg : Cfg) (tag : Int) (ps : List (Bytes × Bytes)) (x : Option Val)

def LazyOk (reg : Reg) (n : Bytes) (key : Bytes → Prop) (v : VersionHash)
    (s t : Store) (e : LazyEvent) : Prop :=
  ∃ s', lazyStep cfg s e = .ok ((eagerStep cfg reg n t e).1, s') ∧
    LazyRel n key v s' (eagerStep cfg reg n t e).2

variable {k name : Bytes} {c : Client} {rq : Request} {b : Bytes} {ks : List Bytes}

theorem LazyRel.command (h : LazyRel n key v s t) {hn : HName} {rest : List Bytes}
    (hs : Spelled hn name) (hkeys : hn ≠ .keys) (hk : key k) (cfg : Cfg) (reg : Reg)
    (hc : c.multi = false) (hargv : rq.argv = name :: k :: rest)
    (hargc : hn.least ≤ rest.length + 2) {a : List Arg} {s₁ : Store}
    (hrun : hn.run checkUpdateKvPair (rq.env cfg c.db) v (args (k :: rest)) s = .ok (a, s₁))
    (hlen : a.length = (args (k :: rest)).length) (h₁ : LazyRel n key v s₁ t) {p p' : Plan}
    (hp : plan cfg rq.now rq.rand hn.cmd a = some p)
    (hp' : plan cfg rq.now rq.rand hn.cmd (args (k :: rest)) = some p')
    (hcall : (s₁.call (rq.env cfg c.db) p).1 = (t.call (rq.env cfg c.db) p').1 ∧
      LazyRel n key v (s₁.call (rq.env cfg c.db) p).2 (t.call (rq.env cfg c.db) p').2) :
    LazyOk cfg reg n key v s t (.command c rq) := by
  have hhandle : handle hn (rq.env cfg c.db) ⟨k, 0⟩ (args rest) (prevcallCheck s) =
      .ok (a, s₁) := by
    rw [prevcallCheck_of_empty h.tmp, handle, h.resolves k hk]
    exact hrun
  have hargs : args rq.argv = ⟨name, 0⟩ :: args (k :: rest) := by rw [hargv]; rfl
  simp only [LazyOk, lazyStep, eagerStep, serve_spelled hs hkeys hargc cfg c rq hargv s, hhandle,
    ok_bind, hargs]
  rcases redisProcessCommand_spelled hs cfg rq hc a.length with ⟨r, hr⟩ | hr
  · rw [hr a s₁ rfl, hr _ t hlen.symm]
    exact ⟨s₁, rfl, h₁⟩
  · rw [hr a s₁ rfl, hr _ t hlen.symm]
    simp only [KVolve.call, hp, hp']
    exact ⟨_, by rw [hcall.1], hcall.2⟩

theorem tryObjectEncoding_raw (h : encInt b = none) : tryObjectEncoding cfg b = .raw b := by
  rw [tryObjectEncoding, h]

theorem LazyRel.set (h : LazyRel n key v s t) (cfg : Cfg) (reg : Reg) (hc : c.multi = false)
    (hs : Spelled .set name) (hk : key k) (hb : encInt b = none) (hargv : rq.argv = [name, k, b]) :
    LazyOk cfg reg n key v s t (.command c rq) := by
  have hrun : HName.set.run checkUpdateKvPair (rq.env cfg c.db) v (args [k, b]) s =
      .ok ([⟨k, 0⟩, ⟨b, v.cur⟩], s) := by
    simp [HName.run, kvolveSet, args, getFlags, setKeyOld, h.prev]
  refine h.command hs (by decide) hk cfg reg hc hargv (by decide : HName.set.least ≤ 3) hrun rfl h
    rfl rfl ?_
  simp only [setCommand, parseSetOpts, List.map_nil, tryObjectEncoding_raw cfg hb, Plan.one]
  exact h.call _ _ (h.slots _) (fun _ _ h => h)
    (.cons (fun x y hxy => assign_sim h.nodup k b ok [.nullBulk] x y hxy) .nil)

def taggedFlat : List Arg :=
  ps.flatMap fun p => [⟨p.1, 0⟩, ⟨p.2, tag⟩]

theorem msetLoop_plain (env : Env) (hprev : v.prevNs = none) (ps : List (Bytes × Bytes)) :
    msetLoop env v (args (flat ps)) s = .ok (taggedFlat v.cur ps, s) := by
  induction ps with
  | nil => rfl
  | cons p ps ih =>
    have hflat : args (flat (p :: ps)) = ⟨p.1, 0⟩ :: ⟨p.2, 0⟩ :: args (flat ps) := rfl
    have hold : setKeyOld env v p.1 s = .ok s := by simp [setKeyOld, hprev]
    rw [hflat, msetLoop]
    simp only [hold, ih, ok_bind]
    rfl

theorem msetSteps_flat : msetSteps cfg (taggedFlat tag ps) = ps.map fun p =>
      ⟨p.1, tag, setProc false false (tryObjectEncoding cfg p.2) none ok ok⟩ := by
  induction ps with
  | nil => rfl
  | cons p ps ih =>
    have hflat : taggedFlat tag (p :: ps) = ⟨p.1, 0⟩ :: ⟨p.2, tag⟩ :: taggedFlat tag ps := rfl
    rw [hflat, msetSteps, ih, List.map_cons]

theorem length_flat_even : (taggedFlat tag ps).length = 2 * ps.length := by
  induction ps with
  | nil => rfl
  | cons p ps ih =>
    have hflat : taggedFlat tag (p :: ps) = ⟨p.1, 0⟩ :: ⟨p.2, tag⟩ :: taggedFlat tag ps := rfl
    rw [hflat, List.length_cons, List.length_cons, List.length_cons, ih]
    omega

theorem args_flat : args (flat ps) = taggedFlat 0 ps := by
  simp [args, flat, taggedFlat, List.map_flatMap]

theorem msetCommand_flat : msetCommand cfg (taggedFlat tag ps) = .run (ps.map fun p =>
      ⟨p.1, tag, setProc false false (tryObjectEncoding cfg p.2) none ok ok⟩) fun _ => ok := by
  rw [msetCommand, if_neg, msetSteps_flat]
  rw [length_flat_even]
  omega

variable (h : LazyRel n key v s t)

include h

theorem LazyRel.mset (cfg : Cfg) (reg : Reg) (hc : c.multi = false)
    {ps : List (Bytes × Bytes)} (hs : Spelled .mset name)
    (hps : ∀ p ∈ (k, b) :: ps, key p.1 ∧ encInt p.2 = none)
    (hargv : rq.argv = name :: k :: b :: flat ps) :
    LazyOk cfg reg n key v s t (.command c rq) := by
  have hargs : args (k :: b :: flat ps) = taggedFlat 0 ((k, b) :: ps) :=
    args_flat ((k, b) :: ps)
  have hrun : HName.mset.run checkUpdateKvPair (rq.env cfg c.db) v (args (k :: b :: flat ps)) s =
      .ok (taggedFlat v.cur ((k, b) :: ps), s) := by
    rw [HName.run, kvolveMset, if_neg]
    · exact msetLoop_plain _ h.prev ((k, b) :: ps)
    · rw [hargs, length_flat_even]
      omega
  have hplan : ∀ tag, plan cfg rq.now rq.rand HName.mset.cmd (taggedFlat tag ((k, b) :: ps)) =
      some (msetCommand cfg (taggedFlat tag ((k, b) :: ps))) := fun _ => rfl
  have hplan' := hargs ▸ hplan 0
  refine h.command hs (by decide) (hps (k, b) (by simp)).1 cfg reg hc hargv
    (Nat.le_add_left 3 _) hrun ?_ h (hplan v.cur) hplan' ?_
  · rw [hargs, length_flat_even, length_flat_even]
  · rw [hargs, msetCommand_flat, msetCommand_flat]
    refine h.call _ _ (h.slots _) (fun _ _ h => h) ?_
    rw [List.forall₂_map_left_iff, List.forall₂_map_right_iff, List.forall₂_same]
    intro p hp x y hxy
    rw [tryObjectEncoding_raw cfg (hps p hp).2]
    exact assign_sim h.nodup p.1 p.2 ok ok x y hxy

/-! ## Reads -/

theorem LazyRel.getKey (env : Env) (hk : key k) {K : List Bytes}
    (hK : CurrentAt v K (s.dbs env.d)) :
    ∃ s', KVolve.getKey checkUpdateKvPair env v k s = .ok (k, s') ∧ LazyRel n key v s' t ∧
      CurrentAt v (k :: K) (s'.dbs env.d) := by
  have hslot : LazySlot v (s.get env.d k) (t.get env.d k) := h.slots env.d k hk
  -- nothing is stored: the walk ends at once, for there is no predecessor
  cases hx : s.get env.d k with
  | none =>
    refine ⟨s, ?_, h, ?_⟩
    · have hdb : getDbVal env v k s = .ok none := by
        rw [getDbVal, if_neg (by simp [Store.has, hx]), walkFuel, prevWalk]
        simp only [h.prev]
      simp only [KVolve.getKey, checkUpdateKvPair, checkUpdateWith, hdb, ok_bind]
    · intro j hj e he
      rcases List.mem_cons.mp hj with rfl | hj
      · rw [Store.get] at hx
        rw [hx] at he
        cases he
      · exact hK j hj e he
  | some e =>
    rw [hx] at hslot
    obtain ⟨tag, tag', b, rfl, ht, hy⟩ := hslot.of_some
    have hpure : PureHist v.ns v.hist := h.ns.symm ▸ h.pure
    obtain ⟨s', hget, hs', htouch⟩ := getKey_raw h.nodup hpure ht hx
    have hother : ∀ d j, ¬ SlotOf env k d j → (s'.dbs d).lookup j = (s.dbs d).lookup j :=
      fun d j hj => htouch.get d j hj
    have hat : (s'.dbs env.d).lookup k =
        some (rawEntry v.cur (migrated (v.pending tag) b)) := hs'
    refine ⟨s', hget, ⟨htouch.reg ▸ h.found, h.prev, h.nodup, h.pure, htouch.tmp ▸ h.tmp,
      htouch.reg ▸ h.resolves, fun d j hj => ?_⟩, fun j hj e' he' => ?_⟩
    · by_cases hjk : SlotOf env k d j
      · obtain ⟨rfl, rfl⟩ := hjk
        rw [Store.get] at hy
        rw [hat, hy]
        exact LazySlot.current h.nodup _ _
      · rw [hother d j hjk]
        exact h.slots d j hj
    · by_cases hjk : j = k
      · subst hjk
        rw [hat] at he'
        cases he'
        rfl
      · rw [hother env.d j (fun hj' => hjk hj'.2)] at he'
        exact hK j ((List.mem_cons.mp hj).resolve_left hjk) e' he'

theorem LazyRel.mgetLoop (env : Env) (hks : ∀ k ∈ ks, key k)
    {K : List Bytes} (hK : CurrentAt v K (s.dbs env.d)) :
    ∃ s', KVolve.mgetLoop checkUpdateKvPair env v (args ks) s = .ok (args ks, s') ∧
      LazyRel n key v s' t ∧ CurrentAt v (ks ++ K) (s'.dbs env.d) := by
  induction ks generalizing s K with
  | nil => exact ⟨s, rfl, h, hK⟩
  | cons k ks ih =>
    obtain ⟨s₁, h₁, hrel₁, hK₁⟩ := h.getKey env (hks k (by simp)) hK
    obtain ⟨s₂, h₂, hrel₂, hK₂⟩ := ih hrel₁ (fun j hj => hks j (by simp [hj])) hK₁
    refine ⟨s₂, ?_, hrel₂, fun j hj => hK₂ j ?_⟩
    · have hcons : args (k :: ks) = ⟨k, 0⟩ :: args ks := rfl
      rw [hcons, KVolve.mgetLoop]
      simp only [h₁, h₂, ok_bind]
    · simp only [List.cons_append, List.mem_cons, List.mem_append] at hj ⊢
      tauto

omit h

theorem currentAt_nil (v : VersionHash) (a : Db) : CurrentAt v [] a := by
  intro k hk
  cases hk

theorem onKey_getKey {env : Env} {rest : List Bytes} {s' : Store}
    (h : getKey checkUpdateKvPair env v k s = .ok (k, s')) :
    onKey (getKey checkUpdateKvPair env v) (args (k :: rest)) s = .ok (args (k :: rest), s') := by
  have hcons : args (k :: rest) = ⟨k, 0⟩ :: args rest := rfl
  rw [hcons, onKey]
  simp only [h, ok_bind]

theorem mgetProc_keep : (mgetProc x).2 = .keep := by
  unfold mgetProc
  split <;> rfl

theorem getProc_keep : (getProc x).2 = .keep := by
  unfold getProc
  split <;> rfl

theorem getrangeProc_keep (a b : Int) (x : Option Val) : (getrangeProc a b x).2 = .keep := by
  unfold getrangeProc
  split
  · rfl
  · simp only [apply_ite Prod.snd, ite_self]
  · rfl

variable (h : LazyRel n key v s t)

include h

theorem LazyRel.call_reads (env : Env) (combine : List Reply → Reply)
    (ks : List Bytes) (hks : ∀ k ∈ ks, key k) (hcur : CurrentAt v ks (s.dbs env.d)) {p : KeyProc}
    (hp : ∀ x, (p x).2 = .keep) :
    (s.call env (.run (ks.map fun k => ⟨k, 0, p⟩) combine)).1 =
        (t.call env (.run (ks.map fun k => ⟨k, 0, p⟩) combine)).1 ∧
      LazyRel n key v (s.call env (.run (ks.map fun k => ⟨k, 0, p⟩) combine)).2
        (t.call env (.run (ks.map fun k => ⟨k, 0, p⟩) combine)).2 := by
  refine h.call env combine (R := fun a b => LazyDb key v a b ∧ CurrentAt v ks a)
    ⟨h.slots _, hcur⟩ (fun _ _ hab => hab.1) ?_
  rw [List.forall₂_map_left_iff, List.forall₂_map_right_iff, List.forall₂_same]
  intro k hk x y hxy
  exact read_sim h.nodup (hks k hk) hk hp x y hxy

theorem LazyRel.get (cfg : Cfg) (reg : Reg) (hc : c.multi = false)
    (hs : Spelled .get name) (hk : key k) (hargv : rq.argv = [name, k]) :
    LazyOk cfg reg n key v s t (.command c rq) := by
  obtain ⟨s', hget, h', hcur⟩ := h.getKey (rq.env cfg c.db) hk (currentAt_nil v _)
  exact h.command hs (by decide) hk cfg reg hc hargv (by decide : HName.get.least ≤ 2)
    (onKey_getKey hget) rfl h' rfl rfl
    (h'.call_reads _ _ [k] (by simpa using hk) hcur getProc_keep)

theorem LazyRel.getrange (cfg : Cfg) (reg : Reg) (hc : c.multi = false)
    {a : Bytes} (hs : Spelled .getrange name) (hk : key k) (hargv : rq.argv = [name, k, a, b]) :
    LazyOk cfg reg n key v s t (.command c rq) := by
  obtain ⟨s', hget, h', hcur⟩ := h.getKey (rq.env cfg c.db) hk (currentAt_nil v _)
  refine h.command hs (by decide) hk cfg reg hc hargv (by decide : HName.getrange.least ≤ 4)
    (onKey_getKey hget) rfl h' rfl rfl ?_
  -- an argument that is no integer is refused without a look at the store
  simp only [getrangeCommand, withLongLong]
  split
  · split
    · exact h'.call_reads _ _ [k] (by simpa using hk) hcur (getrangeProc_keep _ _)
    · rw [Store.call_refuse, Store.call_refuse]
      exact ⟨rfl, h'⟩
  · rw [Store.call_refuse, Store.call_refuse]
    exact ⟨rfl, h'⟩

theorem LazyRel.mget (cfg : Cfg) (reg : Reg) (hc : c.multi = false)
    (hs : Spelled .mget name) (hks : ∀ j ∈ k :: ks, key j) (hargv : rq.argv = name :: k :: ks) :
    LazyOk cfg reg n key v s t (.command c rq) := by
  obtain ⟨s', hget, h', hcur⟩ := h.mgetLoop (rq.env cfg c.db) hks (currentAt_nil v _)
  rw [List.append_nil] at hcur
  have hplan : plan cfg rq.now rq.rand HName.mget.cmd (args (k :: ks)) =
      some (.run ((k :: ks).map fun k => ⟨k, 0, mgetProc⟩)
        fun rs => .multi (args (k :: ks)).length :: rs.flatten) := by
    simp only [HName.cmd, args, List.map_cons, plan, mgetCommand, List.map_map]
    rfl
  exact h.command hs (by decide) (hks k (by simp)) cfg reg hc hargv (Nat.le_add_left 2 _)
    hget rfl h' hplan hplan (h'.call_reads _ _ _ hks hcur mgetProc_keep)

theorem LazyRel.del (cfg : Cfg) (reg : Reg) (hc : c.multi = false)
    (hs : Spelled .del name) (hks : ∀ j ∈ k :: ks, key j) (hargv : rq.argv = name :: k :: ks) :
    LazyOk cfg reg n key v s t (.command c rq) := by
  have hrun : HName.del.run checkUpdateKvPair (rq.env cfg c.db) v (args (k :: ks)) s =
      .ok (args (k :: ks), s) := by
    simp only [HName.run, kvolveDel, checkRename, h.prev, if_true, ok_bind]
  have hplan : plan cfg rq.now rq.rand HName.del.cmd (args (k :: ks)) =
      some (.run ((k :: ks).map fun k => ⟨k, 0, delProc⟩)
        fun rs => [.int (rs.count [.int 1])]) := by
    simp only [HName.cmd, args, List.map_cons, plan, delCommand, List.map_map]
    rfl
  refine h.command hs (by decide) (hks k (by simp)) cfg reg hc hargv (Nat.le_add_left 2 _)
    hrun rfl h hplan hplan ?_
  refine h.call _ _ (h.slots _) (fun _ _ h => h) ?_
  rw [List.forall₂_map_left_iff, List.forall₂_map_right_iff, List.forall₂_same]
  intro j hj x y hxy
  exact del_sim (hks j hj) x y hxy

/-- **A string command answers alike on both sides and keeps the relation.** -/
theorem LazyRel.stringCmd (cfg : Cfg) (reg : Reg) (hc : c.multi = false)
    (hcmd : StringCmd key rq.argv) :
    LazyOk cfg reg n key v s t (.command c rq) := by
  generalize hargv : rq.argv = argv at hcmd
  cases hcmd with
  | set hs hk hb => exact h.set cfg reg hc hs hk hb hargv
  | mset hs hps => exact h.mset cfg reg hc hs hps hargv
  | get hs hk => exact h.get cfg reg hc hs hk hargv
  | mget hs hks => exact h.mget cfg reg hc hs hks hargv
  | getrange hs hk => exact h.getrange cfg reg hc hs hk hargv
  | del hs hks => exact h.del cfg reg hc hs hks hargv

end Commands

/-! ## Loads and runs -/

variable {v : VersionHash}

theorem LazySlot.load {v' : VersionHash} {sp : Spec}
    (hhist : v'.hist = v.hist ++ [(sp.toVers, some sp.info)]) {x y : Option Entry}
    (h : LazySlot v x y) : LazySlot v' x (y.map (eagerEntry sp.funs)) := by
  cases h with
  | absent => exact .absent
  | @present tag tag' b hmem =>
    have hmem' : tag ∈ v'.versions := by
      rw [VersionHash.versions, hhist, List.map_append]
      exact List.mem_append_left _ hmem
    have hpend : migrated (v'.pending tag) b =
        allOnBytes sp.funs (migrated (v.pending tag) b) := by
      rw [v'.pending_eq, hhist, after_append hmem, migrated_append, v.pending_eq]
      rfl
    have hp : LazySlot v' (some (rawEntry tag b))
        (some (rawEntry tag' (migrated (v'.pending tag) b))) := .present hmem'
    rw [hpend] at hp
    exact hp

/-- **A load keeps the relation: what the eager store applies now, the lazy store has
pending for every string.** -/
theorem LazyRel.load {n : Bytes} {reg : Reg} {s t : Store} (h : LazyRel n (IsKey reg n) v s t)
    (cfg : Cfg) (id : Nat) (pick : Finset Nat → Nat) {sp : Spec} (hfrom : cstr sp.fromNs = n)
    (hto : cstr sp.toNs = n) (hcur : v.versions.getLast? = some sp.fromVers)
    (hnew : sp.toVers ∉ v.versions) (hroom : v.versions.length < kvInitSz)
    (hpure : ∀ f ∈ sp.funs, PureFun f) :
    ∃ v' s', lazyStep cfg s (.load id pick sp) = .ok ([], s') ∧
      v'.versions = v.versions ++ [sp.toVers] ∧
      LazyRel n (IsKey reg n) v' s' (eagerLoad reg n sp.funs t) := by
  have hcur' : v.cur = sp.fromVers := by
    rw [VersionHash.versions, List.getLast?_map, v.getLast?_hist] at hcur
    exact Option.some.inj hcur
  have hacc : specAccepts s.reg sp = some false := by
    simp [specAccepts, hfrom, hto, h.found, hnew, hcur']
  have hfound : s.reg.find (cstr sp.toNs) = some v := hto ▸ h.found
  have hroom' : v.hist.length < kvInitSz := by
    rwa [VersionHash.versions, List.length_map] at hroom
  obtain ⟨reg', killed, hupd⟩ := updSpec_append_ok id pick hacc hfound h.prev hroom'
  obtain ⟨w, hw, hcore⟩ := updSpec_append hacc hupd
  obtain rfl : w = v := Option.some.inj (hw.symm.trans hfound)
  obtain ⟨v', hv', hc'⟩ := Reg.core_eq_some (by rw [hcore n, hto, if_pos rfl] :
    reg'.core n = some ⟨w.prevNs, w.nextNs, w.hist ++ [(sp.toVers, some sp.info)]⟩)
  have hhist : v'.hist = w.hist ++ [(sp.toVers, some sp.info)] := congrArg Core.hist hc'
  have hvers : v'.versions = w.versions ++ [sp.toVers] := by
    rw [VersionHash.versions, hhist, List.map_append]
    rfl
  -- the names that are registered stay the same, so every key still resolves to `n`
  have hdom : ∀ m, (s.reg.find m).isSome = (reg'.find m).isSome := by
    intro m
    rw [← Reg.core_isSome reg', hcore m]
    split
    · rename_i hm
      rw [hm, hfound]
      rfl
    · rw [Reg.core_isSome]
  refine ⟨v', { s with reg := reg' }, by rw [lazyStep, hupd]; rfl, hvers, hv',
    (congrArg Core.prevNs hc').trans h.prev, ?_, ?_, h.tmp, ?_, ?_⟩
  · rw [hvers]
    exact List.Nodup.append h.nodup (by simp) (by simpa using hnew)
  · intro p hp i hi
    rw [hhist] at hp
    rcases List.mem_append.mp hp with hp | hp
    · exact h.pure p hp i hi
    · rw [List.mem_singleton] at hp
      subst hp
      cases hi
      exact ⟨hfrom, hpure⟩
  · intro k hk
    rw [versionHashLookup_dom hdom, h.resolves k hk, Option.bind_some, h.ns, hv']
  · intro d k hk
    have hget := get_eagerLoad reg n sp.funs t d k hk
    rw [Store.get, Store.get] at hget
    rw [hget]
    exact (h.slots d k hk).load hhist

/-- **Lazy and eager runs give the same replies.** -/
theorem LazyRel.run {n : Bytes} {reg : Reg} {s t : Store} (h : LazyRel n (IsKey reg n) v s t)
    (cfg : Cfg) {es : List LazyEvent} (hes : LazyTrace n (IsKey reg n) v.versions es) :
    lazyRun cfg s es = .ok (eagerRun cfg reg n t es) := by
  induction es generalizing v s t with
  | nil => rfl
  | cons e es ih =>
    cases e with
    | command c rq =>
      obtain ⟨hc, hcmd, hes⟩ := hes
      obtain ⟨s', hstep, h'⟩ := h.stringCmd cfg reg hc hcmd
      rw [lazyRun, hstep, ok_bind, ih h' hes]
      rfl
    | load id pick sp =>
      obtain ⟨⟨hfrom, hto, hcur, hnew, hroom, hpure⟩, hes⟩ := hes
      obtain ⟨v', s', hstep, hvers, h'⟩ := h.load cfg id pick hfrom hto hcur hnew hroom hpure
      rw [← hvers] at hes
      rw [lazyRun, hstep, ok_bind, ih h' hes]
      rfl

/-- A client has registered `n` at version `v0`, and no key of `n` is stored yet. -/
structure JustRegistered (n : Bytes) (v0 : Int) (s : Store) : Prop where
  record : ∃ v, s.reg.find n = some v ∧ v.prevNs = none ∧ v.hist = [(v0, none)]
  tmp : s.tmp = ∅
  fresh : ∀ d k, IsKey s.reg n k → s.get d k = none

/-- **Lazy equals eager: every run of string commands on keys of `n` and of loads within
`n` is answered as by a plain Redis that updates every string of `n` at each load.** -/
theorem lazy_eq_eager (cfg : Cfg) {n : Bytes} {v0 : Int} {s : Store} (h : JustRegistered n v0 s)
    {es : List LazyEvent} (hes : LazyTrace n (IsKey s.reg n) [v0] es) :
    lazyRun cfg s es = .ok (eagerRun cfg s.reg n s es) := by
  obtain ⟨v, hv, hprev, hhist⟩ := h.record
  have hvers : v.versions = [v0] := by rw [VersionHash.versions, hhist]; rfl
  refine LazyRel.run (v := v) ⟨hv, hprev, ?_, ?_, h.tmp, ?_, ?_⟩ cfg (hvers ▸ hes)
  · rw [hvers]
    exact List.nodup_singleton v0
  · intro p hp i hi
    rw [hhist, List.mem_singleton] at hp
    subst hp
    cases hi
  · intro k hk
    obtain ⟨w, hw, hns⟩ := Option.map_eq_some_iff.mp hk
    have hfind := versionHashLookup_find hw
    rw [hns, hv] at hfind
    rw [hw, Option.some.inj hfind]
  · intro d k hk
    have hnone : (s.dbs d).lookup k = none := h.fresh d k hk
    rw [hnone]
    exact .absent

def markRun : List LazyEvent :=
  [.command { id := 1 } { argv := [lit "SET", lit "user:1", lit "ann"], now := 0 },
   .load 2 (fun _ => 0) ⟨lit "user", lit "user", 1, 2, [fun _ a =>
     match a with
     | .str b => { val := some (b ++ lit "!") }
     | _ => {}]⟩,
   .command { id := 1 } { argv := [lit "get", lit "user:1"], now := 0 }]

def registeredUser : Store := { Store.init with reg := registered "user" 1 }

theorem registeredUser_fresh : JustRegistered (lit "user") 1 registeredUser :=
  ⟨⟨_, rfl, rfl, rfl⟩, rfl, fun _ _ _ => rfl⟩

theorem markRun_trace : LazyTrace (lit "user") (IsKey registeredUser.reg (lit "user")) [1] markRun := by
  refine ⟨rfl, .set (by decide) (by decide) (by decide), ⟨by decide, by decide, rfl, by decide,
    by decide, ?_⟩, rfl, .get (by decide) (by decide), trivial⟩
  intro f hf
  rw [List.mem_singleton] at hf
  subst hf
  intro key b
  rfl

theorem lazy_eq_eager_mark :
    lazyRun {} registeredUser markRun = .ok [ok, [], [.bulk (lit "ann!")]] := by
  rw [lazy_eq_eager {} registeredUser_fresh markRun_trace]
  rfl

end SchemaUpdate.KVolve
