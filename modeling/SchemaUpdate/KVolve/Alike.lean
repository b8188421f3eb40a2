import SchemaUpdate.KVolve.Trace

/-! # Stores with the same contents

Two stores that hold the same objects under the same keys, whatever the order of their
dictionaries and the tags that are pending. Nothing but `KEYS` looks at the order and
nothing but `kvolve_prevcall_check` at the tags. -/

namespace SchemaUpdate.KVolve

open SchemaUpdate.Lib SchemaUpdate.Redis

structure Alike (s t : Store) : Prop where
  reg : t.reg = s.reg
  shared : t.shared = s.shared
  get : ∀ d k, t.get d k = s.get d k

namespace Alike

variable {s t : Store}

theorem refl (s : Store) : Alike s s := ⟨rfl, rfl, fun _ _ => rfl⟩

variable (h : Alike s t)

include h

theorem has (d : Nat) (k : Bytes) : t.has d k = s.has d k := by
  rw [Store.has, Store.has, h.get]

theorem vers (o : Robj) : t.vers o = s.vers o := by
  unfold Store.vers
  rw [h.shared]

theorem put (d : Nat) (k : Bytes) (x : Option Entry) : Alike (s.put d k x) (t.put d k x) := by
  refine ⟨h.reg, h.shared, fun d' j => ?_⟩
  rw [Store.get_put, Store.get_put, h.get]

theorem setDb (d : Nat) {a b : Db} (hab : ∀ k, b.lookup k = a.lookup k) :
    Alike (s.setDb d a) (t.setDb d b) := by
  refine ⟨h.reg, h.shared, fun d' k => ?_⟩
  unfold Store.get
  by_cases hd : d' = d
  · subst hd
    rw [Store.setDb_dbs_self, Store.setDb_dbs_self]
    exact hab k
  · simp only [Store.setDb, Function.update_of_ne hd]
    exact h.get d' k

theorem rename (now : Int) (src dst : Bytes) :
    Alike (s.rename now src dst) (t.rename now src dst) := by
  unfold Store.rename
  rw [h.get]
  split
  · exact h
  · split
    · exact h
    · split
      · exact (h.put _ _ _).put _ _ _
      · exact h.put _ _ _

theorem namespaceUpdate (env : Env) (v : VersionHash) (k : Bytes) :
    RelRes Alike (namespaceUpdate env v k s) (namespaceUpdate env v k t) := by
  unfold KVolve.namespaceUpdate
  rw [h.has]
  split
  · exact .ok h
  · split
    · exact .error _
    · exact .ok (h.rename _ _ _)

end Alike

theorem Quiet.alike {v : VersionHash} (hq : Quiet v) (env : Env) :
    HClosed checkUpdateKvPair (updRedisCall env) env v (fun _ => True) Alike := by
  have hcl : Closed (updRedisCall env) env v (fun _ => True) Alike Alike :=
    { weak := fun h => h
      settle := fun h _ _ => h
      get := fun h _ => h.get _ _
      put₀ := fun h _ x => h.put _ _ x
      put := fun h _ e => h.put _ _ (some e)
      shared := fun h n x => ⟨h.reg, by rw [h.shared], h.get⟩
      walk := fun h _ => getDbVal_congr h.reg fun _ _ => h.get _ _
      found := fun _ _ _ => trivial
      vers := fun h _ _ _ => h.vers _
      move := fun h _ => h.namespaceUpdate env v _
      keys := .inl fun _ => trivial
      calls := .inr fun f hf key a => (hq f hf key a).2 }
  exact
    { toCarried := hcl.carried
      cu := hcl.carried.checkUpdateKvPair
      new := fun h _ _ => ⟨h.reg, h.shared, h.get⟩
      versAll := fun h _ _ => h.vers _ }

variable {env : Env} {s t : Store}

/-- A handler does the same to stores that hold the same. -/
theorem Quiet.run_alike {v : VersionHash} (hq : Quiet v) (h : Alike s t) {hn : HName}
    (hk : hn ≠ .keys) (args : List Arg) :
    RelRes (HRel Alike) (hn.run checkUpdateKvPair env v args s)
      (hn.run checkUpdateKvPair env v args t) :=
  (hq.alike env).run hn hk (.inr fun hst _ => hst.put _ _ none) h fun _ _ => trivial

/-! ## Keys -/

def Orderly (iter : Db → List Bytes) : Prop :=
  ∀ a b : Db, (∀ k, b.lookup k = a.lookup k) → iter b = iter a

theorem Alike.keysStep (h : Alike s t) (pattern k : Bytes) :
    RelRes Alike (keysStep env pattern s k) (keysStep env pattern t k) :=
  relRes_keysStep h h.reg (h.has env.d) (h.namespaceUpdate env) pattern k

theorem Alike.kvolveKeys (h : Alike s t) (hiter : Orderly env.iter) (args : List Arg) :
    RelRes (HRel Alike) (kvolveKeys env args s) (kvolveKeys env args t) := by
  unfold KVolve.kvolveKeys
  split
  · exact .error _
  · split
    · exact .ok (.mk h)
    · rw [hiter _ _ fun k => h.get env.d k]
      refine (RelRes.foldlM (fun s t hst k _ => hst.keysStep _ k) h).bind fun s' t' h' => ?_
      exact .ok (.mk h')

/-! ## The hook -/

def QuietFor (argv : List Arg) (reg : Reg) : Prop :=
  ∀ name k rest v h, argv = name :: k :: rest → versionHashLookup reg k.ptr = some v →
    lookupKvCommand name.ptr argv.length = some h → h ≠ .keys → Quiet v

/-- The same arguments and the same clients killed, and stores with the same contents. -/
structure HookAlike (a b : HookOut) : Prop where
  argv : b.argv = a.argv
  killed : b.killed = a.killed
  store : Alike a.s b.s

section Hook

variable {env : Env} {argv : List Arg} {s t : Store}

theorem Alike.processData (h : Alike s t) (hiter : Orderly env.iter) (hq : QuietFor argv s.reg) :
    RelRes (HRel Alike) (processData checkUpdateKvPair env argv s)
      (processData checkUpdateKvPair env argv t) := by
  refine relRes_processData h h.reg (fun _ _ _ _ => h.kvolveKeys hiter _) ?_
  intro name k rest v hn heq hv hkv
  by_cases hk : hn = .keys
  · subst hk
    exact h.kvolveKeys hiter (k :: rest)
  · exact (hq name k rest v hn heq hv hkv hk).run_alike h hk (k :: rest)

theorem Alike.hookBody (h : Alike s t) (hiter : Orderly env.iter) (hq : QuietFor argv s.reg)
    (ld : Loader) (id : Nat) :
    RelRes HookAlike (hookBody ld env id argv s) (hookBody ld env id argv t) := by
  unfold KVolve.hookBody
  rw [h.reg]
  split
  · split
    · refine RelRes.bind_same rfl fun p _ => ?_
      exact .ok ⟨rfl, rfl, rfl, h.shared, h.get⟩
    · refine RelRes.bind_same rfl fun p _ => ?_
      exact .ok ⟨rfl, rfl, rfl, h.shared, h.get⟩
  · refine (h.processData hiter hq).bind fun p q hpq => ?_
    cases hpq with
    | mk h' => exact .ok ⟨rfl, rfl, h'⟩

end Hook

/-! ## Redis -/

section Commands

variable (now : Int) {a b : Db}

theorem liveEntry_congr {k : Bytes} (h : ∀ k, b.lookup k = a.lookup k) :
    liveEntry now b k = liveEntry now a k := by
  rw [liveEntry, liveEntry, h]

variable (h : ∀ k, b.lookup k = a.lookup k)

include h

theorem Step.outcome_congr (st : Step) : st.outcome now b = st.outcome now a := by
  rw [Step.outcome, Step.outcome, liveEntry_congr now h]

theorem Step.exec_congr (st : Step) : (st.exec now a).1 = (st.exec now b).1 ∧
      ∀ k, (st.exec now b).2.lookup k = (st.exec now a).2.lookup k := by
  refine ⟨by rw [Step.exec, Step.exec, Step.outcome_congr now h], fun k => ?_⟩
  rw [Step.lookup_exec, Step.lookup_exec, Step.outcome_congr now h, liveEntry_congr now h, h]

theorem execSteps_congr (l : List Step) : (execSteps now l a).1 = (execSteps now l b).1 ∧
      ∀ k, (execSteps now l b).2.lookup k = (execSteps now l a).2.lookup k := by
  refine execSteps_sim (R := fun a b => ∀ k, b.lookup k = a.lookup k) ?_ h
  exact List.forall₂_same.mpr fun st _ a b hab => Step.exec_congr now hab st

omit h

theorem execKeys_congr (cfg : Cfg) (pattern : Bytes) (l : List Bytes)
    (h : ∀ k, b.lookup k = a.lookup k) :
    (execKeys cfg now pattern l b).1 = (execKeys cfg now pattern l a).1 ∧
      ∀ k, (execKeys cfg now pattern l b).2.lookup k =
        (execKeys cfg now pattern l a).2.lookup k := by
  induction l generalizing a b with
  | nil => exact ⟨rfl, h⟩
  | cons j l ih =>
    have hexp : ∀ k, (expireIfNeeded now b j).lookup k = (expireIfNeeded now a j).lookup k := by
      intro k
      rw [lookup_expireIfNeeded, lookup_expireIfNeeded, liveEntry_congr now h, h]
    obtain ⟨hrep, hdb⟩ := ih hexp
    unfold execKeys
    rw [h j, liveEntry_congr now h]
    split
    · exact ⟨by simp only [hrep], hdb⟩
    · exact ih h

theorem Plan.exec_congr (cfg : Cfg) {iter : Db → List Bytes} (hiter : Orderly iter) (p : Plan)
    (h : ∀ k, b.lookup k = a.lookup k) :
    (p.exec cfg now iter b).1 = (p.exec cfg now iter a).1 ∧
      ∀ k, (p.exec cfg now iter b).2.lookup k = (p.exec cfg now iter a).2.lookup k := by
  cases p with
  | refuse r => exact ⟨rfl, h⟩
  | run steps combine =>
    obtain ⟨hrep, hdb⟩ := execSteps_congr now h steps
    exact ⟨by simp only [Plan.exec, hrep], hdb⟩
  | keys pattern =>
    simp only [Plan.exec, hiter a b h]
    obtain ⟨hrep, hdb⟩ := execKeys_congr now cfg pattern (iter a) h
    exact ⟨by rw [hrep], hdb⟩

end Commands

section Server

variable {cfg : Cfg} {rq : Request} {c : Client} {s t : Store}

theorem Alike.call (cfg : Cfg) (c : Client) (h : Alike s t) (hiter : Orderly rq.iter)
    (cmd : Cmd) (args : List Arg) :
    (call cfg rq c t cmd args).1 = (call cfg rq c s cmd args).1 ∧
      (call cfg rq c t cmd args).2.1 = (call cfg rq c s cmd args).2.1 ∧
      Alike (call cfg rq c s cmd args).2.2 (call cfg rq c t cmd args).2.2 := by
  cases hplan : plan cfg rq.now rq.rand cmd args with
  | none =>
    rw [call_conn hplan t s, call_conn hplan s s]
    exact ⟨rfl, rfl, h⟩
  | some p =>
    simp only [KVolve.call, hplan, Store.call]
    obtain ⟨hrep, hdb⟩ := Plan.exec_congr rq.now cfg hiter p fun k => h.get c.db k
    exact ⟨hrep, trivial, h.setDb c.db hdb⟩

theorem Alike.execQueue (cfg : Cfg) (c : Client) (h : Alike s t) (hiter : Orderly rq.iter)
    (q : List (Cmd × List Arg)) :
    (execQueue cfg rq q c t).1 = (execQueue cfg rq q c s).1 ∧
      (execQueue cfg rq q c t).2.1 = (execQueue cfg rq q c s).2.1 ∧
      Alike (execQueue cfg rq q c s).2.2 (execQueue cfg rq q c t).2.2 := by
  induction q generalizing c s t with
  | nil => exact ⟨rfl, rfl, h⟩
  | cons p q ih =>
    obtain ⟨hr, hc, hs⟩ := h.call cfg c hiter p.1 p.2
    simp only [KVolve.execQueue, hr, hc]
    obtain ⟨hr', hc', hs'⟩ := ih (KVolve.call cfg rq c s p.1 p.2).2.1 hs
    exact ⟨by rw [hr'], hc', hs'⟩

theorem Alike.execCommand (h : Alike s t) (hiter : Orderly rq.iter) :
    (execCommand cfg rq c t).1 = (execCommand cfg rq c s).1 ∧
      (execCommand cfg rq c t).2.1 = (execCommand cfg rq c s).2.1 ∧
      Alike (execCommand cfg rq c s).2.2 (execCommand cfg rq c t).2.2 := by
  unfold KVolve.execCommand
  split
  · exact ⟨rfl, rfl, h⟩
  · split
    · exact ⟨rfl, rfl, h⟩
    · split
      · exact ⟨rfl, rfl, h⟩
      · obtain ⟨hr, hc, hs⟩ := h.execQueue cfg c hiter c.queue
        exact ⟨congrArg (Tok.multi c.queue.length :: ·) hr, congrArg Client.discard hc, hs⟩

/-- **Redis answers alike and leaves the client alike.** -/
theorem Alike.redisProcessCommand (cfg : Cfg) (c : Client) (h : Alike s t)
    (hiter : Orderly rq.iter) (argv : List Arg) :
    (redisProcessCommand cfg rq c argv t).1 = (redisProcessCommand cfg rq c argv s).1 ∧
      (redisProcessCommand cfg rq c argv t).2.1 = (redisProcessCommand cfg rq c argv s).2.1 ∧
      Alike (redisProcessCommand cfg rq c argv s).2.2 (redisProcessCommand cfg rq c argv t).2.2 := by
  unfold KVolve.redisProcessCommand
  repeat' split
  all_goals first | exact ⟨rfl, rfl, h⟩ | exact h.execCommand hiter | exact h.call cfg c hiter _ _

end Server

end SchemaUpdate.KVolve
