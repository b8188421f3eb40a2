import SchemaUpdate.KVolve.Alike
import SchemaUpdate.KVolve.Dump
import SchemaUpdate.KVolve.Pending

/-! # Snapshots between two requests

A container made by a request is tagged when the next request arrives; a background
save in between writes the version it has until then. Beside the server runs the one
that was intended, which tags a container when it is made, and the snapshots of the
two are compared. -/

namespace SchemaUpdate.KVolve

open SchemaUpdate.Lib SchemaUpdate.Redis

/-! ## The intended server -/

/-- The containers a request has made get the current version of their namespace. -/
def promptTag (made : Makers) (s : Store) : Store :=
  { s with dbs := fun d => (s.dbs d).mapVals fun k e =>
      match made d k, versionHashLookup s.reg k with
      | some _, some v => retag v.cur e
      | _, _ => e }

/-- One request to the intended server: the same hook and the same Redis, but tags are set at the
end of the request and none are pending. -/
def promptStep (cfg : Cfg) (x : System) (ev : Event) : Res System :=
  let c := x.clients ev.1
  if c.closing then .ok x
  else do
    let hook ← hookBody ev.2.ld (ev.2.env cfg c.db) c.id (args ev.2.argv) x.s
    let out := redisProcessCommand cfg ev.2 c hook.argv hook.s
    let made := jobsMakers cfg ev.2 (jobs cfg ev.2 c hook.argv 0 []) c hook.s fun _ _ => none
    .ok ⟨promptTag made out.2.2, clientsAfter ev.1 ⟨out.1, out.2.1, out.2.2, hook.killed⟩ x.clients⟩

/-- What the server does between two turns of its event loop. -/
inductive Tick
  | request (ev : Event)
  -- a background save, at the time `now`
  | save (now : Int)

/-- The server with its record, and the intended server. -/
def tickStep (cfg : Cfg) (p : (System × Trace) × System) : Tick → Res ((System × Trace) × System)
  | .request ev => do
    let z ← Trace.step cfg p.1 ev
    let x ← promptStep cfg p.2 ev
    .ok (z, x)
  | .save _ => .ok p

/-- **A snapshot carries the intended versions**: for every set, sorted set, list and hash of the
store `s`, `rdbSaveKeyValuePair` gets the version and writes the record that the intended store
`t` has for it. -/
def SnapshotRight {cfg : Cfg} (lib : RdbLib cfg) (now : Int) (s t : Store) : Prop :=
  ∀ d k e, s.get d k = some e → utypeOf e.obj.val ≠ .string →
    ∃ e', t.get d k = some e' ∧ s.vers e.obj = t.vers e'.obj ∧
      rdbSaveKeyValuePair lib k e.obj.val (s.vers e.obj) (getExpire e) now =
        rdbSaveKeyValuePair lib k e'.obj.val (t.vers e'.obj) (getExpire e') now

def TagsDone (s : Store) : Prop :=
  ∀ k w d e, s.tmp.lookup k = some (w, d) → s.get d k = some e → utypeOf e.obj.val ≠ .string →
    e.obj.vers = w

/-! ## Setting the tags now or at the next request -/

variable {s : Store} {cfg : Cfg}

theorem prevcall_shared {l : List (Sigma fun _ : Bytes => Int × Nat)}
    (h : ∀ p ∈ l, ∀ e, s.get p.2.2 p.1 = some e → e.obj.val.isShared = false) :
    (l.foldl (fun s p => prevcallStep s p.1 p.2) s).shared = s.shared := by
  induction l generalizing s with
  | nil => rfl
  | cons p l ih =>
    rw [List.foldl_cons, ih]
    · unfold prevcallStep
      cases hp : s.get p.2.2 p.1 with
      | none => rfl
      | some e =>
        have hsh := h p (by simp) e hp
        simp only [Store.setVers, hp]
        split
        · rename_i n hval
          rw [hval] at hsh
          cases hsh
        · rfl
    · intro q hq e he
      rw [get_prevcallStep] at he
      split at he
      · rename_i hslot
        obtain ⟨e₀, he₀, rfl⟩ := Option.map_eq_some_iff.mp he
        have hsh := h p (by simp) e₀ he₀
        rw [retag, hsh]
        exact hsh
      · exact h q (List.mem_cons_of_mem _ hq) e he

theorem get_promptTag (made : Makers) (s : Store) (d : Nat) (k : Bytes) :
    (promptTag made s).get d k = (s.get d k).map fun e =>
      match made d k, versionHashLookup s.reg k with
      | some _, some v => retag v.cur e
      | _, _ => e :=
  Dict.lookup_mapVals _ _ _

variable {p : (System × Trace) × System} {owners : Bytes → List Nat} {rq : Request}

/-- **Where the pending tags fit the containers made, it is the same to set them now.** -/
theorem Attributed.prompt {made : Makers}
    (h : Attributed owners made s) : Alike (prevcallCheck s) (promptTag made s) := by
  have hshared : (prevcallCheck s).shared = s.shared := by
    refine prevcall_shared fun p hp e he => ?_
    obtain ⟨r, v, -, hmade, -⟩ := h.own (AList.mem_lookup_iff.mpr hp) he
    exact h.whole hmade he
  refine ⟨(prevcallCheck_reg s).symm, hshared.symm, fun d k => ?_⟩
  rw [get_promptTag]
  cases hs : s.get d k with
  | none => exact ((prevcall_get_none d).mpr hs).symm
  | some e =>
    -- an entry for the slot belongs to a container made in a registered namespace
    have hnone : (made d k = none ∨ versionHashLookup s.reg k = none) →
        (prevcallCheck s).get d k = some e := by
      intro hno
      rw [prevcallCheck_other, hs]
      intro w hw
      obtain ⟨r, v, -, hmade, hv, -⟩ := h.own hw hs
      rcases hno with hno | hno
      · rw [hno] at hmade
        cases hmade
      · rw [hno] at hv
        cases hv
    rw [Option.map_some]
    cases hmade : made d k with
    | none => exact (hnone (.inl hmade)).symm
    | some r =>
      cases hv : versionHashLookup s.reg k with
      | none => exact (hnone (.inr hv)).symm
      | some v => exact (prevcallCheck_sets (h.tag hmade hs hv) hs).symm

/-! ## The makers -/

def SameMade (m m' : Makers) : Prop := ∀ d k, (m' d k).isSome = (m d k).isSome

theorem promptTag_alike {made made' : Makers} {t : Store} (hm : SameMade made made')
    (h : Alike s t) : Alike (promptTag made s) (promptTag made' t) := by
  refine ⟨h.reg, h.shared, fun d k => ?_⟩
  rw [get_promptTag, get_promptTag, h.get, h.reg]
  refine congrArg (Option.map · (s.get d k)) (funext fun e => ?_)
  have hdk := hm d k
  cases h₁ : made d k with
  | none =>
    have hnone : made' d k = none := by simpa [h₁] using hdk
    rw [hnone]
  | some r =>
    rw [h₁] at hdk
    obtain ⟨r', hr'⟩ := Option.isSome_iff_exists.mp hdk
    rw [hr']
    cases versionHashLookup s.reg k <;> rfl

theorem stepsMakers_same {now : Int} {id id' : Option Nat} (hid : id'.isSome = id.isSome)
    {l : List Step} {a b : Db} (hab : ∀ k, b.lookup k = a.lookup k) {m m' : Bytes → Option Nat}
    (hm : ∀ k, (m' k).isSome = (m k).isSome) (k : Bytes) :
    (stepsMakers now id' l b m' k).isSome = (stepsMakers now id l a m k).isSome := by
  induction l generalizing a b m m' with
  | nil => exact hm k
  | cons st l ih =>
    refine ih (Step.exec_congr now hab st).2 fun j => ?_
    have hmaker : (Step.maker now b st id' (m' st.key)).isSome =
        (Step.maker now a st id (m st.key)).isSome := by
      unfold Step.maker
      rw [Step.outcome_congr now hab, liveEntry_congr now hab]
      split
      · exact hid
      · split
        · exact hm st.key
        · rfl
      · split
        · exact hm st.key
        · rfl
      · split
        · exact hm st.key
        · rfl
      · rfl
      · rfl
      · rfl
    rw [Function.update_apply, Function.update_apply]
    split
    · exact hmaker
    · exact hm j

def SameJobs : List Job → List Job → Prop :=
  List.Forall₂ fun j j' => j'.cmd = j.cmd ∧ j'.args = j.args

theorem queueJobs_same (q : List (Cmd × List Arg)) (ids ids' : List Nat) :
    SameJobs (queueJobs ids q) (queueJobs ids' q) := by
  induction q generalizing ids ids' with
  | nil => exact .nil
  | cons p q ih => exact .cons ⟨rfl, rfl⟩ (ih ids.tail ids'.tail)

theorem jobs_same (cfg : Cfg) (rq : Request) (c : Client) (argv : List Arg) (n n' : Nat)
    (ids ids' : List Nat) : SameJobs (jobs cfg rq c argv n ids) (jobs cfg rq c argv n' ids') := by
  unfold jobs
  split
  · exact .cons ⟨rfl, rfl⟩ .nil
  · split
    · exact queueJobs_same _ _ _
    · exact .nil
  · exact .nil

theorem jobsMakers_same (cfg : Cfg) (c : Client) (hiter : Orderly rq.iter)
    {l l' : List Job} (hl : SameJobs l l') {t : Store} (h : Alike s t) {m m' : Makers}
    (hm : SameMade m m') : SameMade (jobsMakers cfg rq l c s m) (jobsMakers cfg rq l' c t m') := by
  induction hl generalizing c s t m m' with
  | nil => exact hm
  | @cons j j' l l' hj _ ih =>
    obtain ⟨-, hc, hs⟩ := h.call cfg c hiter j.cmd j.args
    simp only [jobsMakers, hj.1, hj.2, hc]
    refine ih _ hs fun d k => ?_
    unfold Job.makers
    rw [hj.1, hj.2]
    cases plan cfg rq.now rq.rand j.cmd j.args with
    | none => exact hm d k
    | some p =>
      cases p with
      | refuse r => exact hm d k
      | keys pattern => exact hm d k
      | run steps combine =>
        simp only [Function.update_apply]
        split
        · refine stepsMakers_same ?_ (fun k => h.get c.db k) (hm c.db) k
          split <;> rfl
        · exact hm d k

/-! ## The two servers -/

/-- The same clients, and the same contents once the pending tags are set. -/
structure Abreast (p : (System × Trace) × System) : Prop where
  clients : p.2.clients = p.1.1.clients
  store : Alike (prevcallCheck p.1.1.s) p.2.s

theorem PendingFits.quietFor {c : Client} {ids : List Nat} (h : PendingFits cfg c rq s owners ids) :
    QuietFor (args rq.argv) s.reg := by
  intro name k rest v hn heq hv hkv hk
  have hlen : (args rq.argv).length = rq.argv.length := List.length_map _
  obtain ⟨nm, p, more, hrq, rfl, rfl, rfl⟩ := args_eq_cons heq
  exact (h.handler nm p more v hn hrq hv (hlen ▸ hkv) hk).1

/-- The request fits, and the iterator of its `KEYS` goes by the contents. -/
def TickFits (cfg : Cfg) (p : (System × Trace) × System) : Tick → Prop
  | .request ev => Orderly ev.2.iter ∧ PendingFits cfg (p.1.1.clients ev.1) ev.2
      (prevcallCheck p.1.1.s) p.1.2.owners (p.1.2.queued ev.1)
  | .save _ => True

/-- A request keeps the two servers abreast. -/
theorem Abreast.request (h : Abreast p) {ev : Event}
    (hfit : TickFits cfg p (.request ev)) {z' : System × Trace}
    (hok : Trace.step cfg p.1 ev = .ok z') :
    ∃ x', promptStep cfg p.2 ev = .ok x' ∧ Abreast (z', x') := by
  obtain ⟨z, x⟩ := p
  obtain ⟨hiter, hfit⟩ := hfit
  obtain ⟨hclients, hstore⟩ := h
  simp only at hclients hstore hfit hok ⊢
  unfold promptStep
  simp only [hclients]
  cases hc : (z.1.clients ev.1).closing with
  | true =>
    simp only [Trace.step, hc, if_true] at hok
    cases hok
    exact ⟨x, rfl, hclients, hstore⟩
  | false =>
    obtain ⟨hook, hhook, hs, howners, hmade⟩ := Trace.step_ok hc hok
    obtain ⟨hook', hhook', hsame⟩ :=
      (hstore.hookBody hiter hfit.quietFor ev.2.ld (z.1.clients ev.1).id).of_ok hhook
    simp only [Bool.false_eq_true, if_false]
    rw [hhook', ok_bind]
    refine ⟨_, rfl, ?_, ?_⟩
    · -- the clients
      have hy : z'.1.clients = clientsAfter ev.1
          ⟨(redisProcessCommand cfg ev.2 (z.1.clients ev.1) hook.argv hook.s).1,
            (redisProcessCommand cfg ev.2 (z.1.clients ev.1) hook.argv hook.s).2.1,
            (redisProcessCommand cfg ev.2 (z.1.clients ev.1) hook.argv hook.s).2.2, hook.killed⟩
          z.1.clients := by
        unfold Trace.step System.step serve at hok
        simp only [hc, Bool.false_eq_true, if_false] at hok
        rw [← args, hhook] at hok
        cases hok
        rfl
      obtain ⟨-, hcl, -⟩ := hsame.store.redisProcessCommand cfg (z.1.clients ev.1) hiter
        hook.argv
      rw [hy]
      funext j
      simp only [clientsAfter, hsame.argv, hsame.killed, hcl]
    · obtain ⟨hdue, hjobs⟩ := hfit.hook (n := z.2.n) (prevcallCheck_due z.1.s)
        (processCommand_case hhook)
      have hatt := (hdue.attributed _).jobs hjobs
      rw [← howners, ← hmade, ← hs] at hatt
      have hnow := hatt.prompt
      obtain ⟨-, -, hredis⟩ := hsame.store.redisProcessCommand cfg (z.1.clients ev.1) hiter
        hook.argv
      rw [redisProcessCommand_jobs cfg ev.2 _ hook.argv hook.s z.2.n (z.2.queued ev.1), ← hs]
        at hredis
      have hfirst : SameMade (fun _ _ => none) fun _ _ => none := fun _ _ => rfl
      have hmakers := jobsMakers_same cfg (z.1.clients ev.1) hiter
        (jobs_same cfg ev.2 (z.1.clients ev.1) hook.argv z.2.n 0 (z.2.queued ev.1) []) hsame.store
        hfirst
      rw [← hmade] at hmakers
      have hprompt := promptTag_alike hmakers hredis
      simp only [hsame.argv]
      exact ⟨hprompt.reg.trans hnow.reg, hprompt.shared.trans hnow.shared,
        fun d k => (hprompt.get d k).trans (hnow.get d k)⟩

/-- **A snapshot is right exactly when no container waits for another tag.** -/
theorem Abreast.save (lib : RdbLib cfg) (now : Int)
    (h : Abreast p) : SnapshotRight lib now p.1.1.s p.2.s ↔ TagsDone p.1.1.s := by
  constructor
  · intro hright k w d e htmp hget hkind
    obtain ⟨e', he', hvers, -⟩ := hright d k e hget hkind
    rw [h.store.get, prevcallCheck_sets htmp hget] at he'
    cases he'
    rw [vers_of_kind hkind, vers_of_kind (by rw [retag]; split <;> exact hkind), retag,
      isShared_of_kind hkind] at hvers
    exact hvers
  · intro hdone d k e hget hkind
    have hsame : p.2.s.get d k = some e := by
      rw [h.store.get]
      by_cases hdue : ∃ w, p.1.1.s.tmp.lookup k = some (w, d)
      · obtain ⟨w, hw⟩ := hdue
        rw [prevcallCheck_sets hw hget, retag, isShared_of_kind hkind,
          ← hdone k w d e hw hget hkind]
        rfl
      · rw [prevcallCheck_other fun w hw => hdue ⟨w, hw⟩, hget]
    refine ⟨e, hsame, ?_, ?_⟩
    · rw [vers_of_kind hkind, vers_of_kind hkind]
    · rw [vers_of_kind hkind, vers_of_kind hkind]

def abreastStart : (System × Trace) × System := (traceStart, traceStart.1)

def saddThenSave : List Tick := [.request (1, saddRequest fun _ => []), .save 0]

end SchemaUpdate.KVolve
