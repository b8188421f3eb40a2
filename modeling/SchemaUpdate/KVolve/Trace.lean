import SchemaUpdate.KVolve.TagRun

/-! # Runs with a record of who did what

A run of the server in which the requests are numbered. Beside the state it keeps
which requests registered the pending tag of a key, which request brought each queued
command, and which of the commands just carried out made the container in a slot. The
record follows the run and has no influence on it. -/

namespace SchemaUpdate.KVolve

open SchemaUpdate.Lib SchemaUpdate.Redis

/-! ## What Redis carries out -/

/-- What becomes of a request. -/
inductive Route
  | refused
  | queued
  | exec
  | direct (cmd : Cmd) (args : List Arg)

variable (cfg : Cfg) (rq : Request) (c : Client) (argv : List Arg)

def route : Route :=
  match argv with
  | [] => .refused
  | name :: args =>
    if strcasecmp name.ptr (lit "quit") then .refused
    else
      match lookupCommand name.ptr with
      | none => .refused
      | some (_, cmd, arity) =>
        if !arityOk arity argv.length then .refused
        else if cfg.requirepass.isSome && !c.authenticated && cmd != .auth then .refused
        else if (rq.refuse cmd).isSome then .refused
        else if c.multi && cmd != .exec && cmd != .discard && cmd != .multi && cmd != .watch then
          .queued
        else if cmd = .exec then .exec
        else .direct cmd args

structure Job where
  id : Nat
  cmd : Cmd
  args : List Arg

def queueJobs : List Nat → List (Cmd × List Arg) → List Job
  | _, [] => []
  | ids, (cmd, args) :: q => ⟨ids.headD 0, cmd, args⟩ :: queueJobs ids.tail q

/-- The commands a request has carried out: its own, or those of the queue. -/
def jobs (n : Nat) (ids : List Nat) : List Job :=
  match route cfg rq c argv with
  | .direct cmd args => [⟨n, cmd, args⟩]
  | .exec =>
    if c.multi && !c.dirtyExec && !c.dirtyCas then queueJobs ids c.queue else []
  | _ => []

def runJobs (cfg : Cfg) (rq : Request) : List Job → Client → Store → Client × Store
  | [], c, s => (c, s)
  | j :: l, c, s =>
    runJobs cfg rq l (call cfg rq c s j.cmd j.args).2.1 (call cfg rq c s j.cmd j.args).2.2

theorem execQueue_jobs (q : List (Cmd × List Arg)) (ids : List Nat) (c : Client) (s : Store) :
    (execQueue cfg rq q c s).2 = runJobs cfg rq (queueJobs ids q) c s := by
  induction q generalizing ids c s with
  | nil => rfl
  | cons p q ih =>
    obtain ⟨cmd, args⟩ := p
    exact ih ids.tail _ _

theorem execCommand_jobs (s : Store) (ids : List Nat) :
    (execCommand cfg rq c s).2.2 = (runJobs cfg rq
      (if c.multi && !c.dirtyExec && !c.dirtyCas then queueJobs ids c.queue else []) c s).2 := by
  unfold execCommand
  cases hm : c.multi with
  | false => rfl
  | true =>
    cases hx : c.dirtyExec with
    | true => rfl
    | false =>
      cases hc : c.dirtyCas with
      | true => rfl
      | false =>
        have hq := congrArg Prod.snd (execQueue_jobs cfg rq c.queue ids c s)
        exact hq

/-- **The store after a request is that after its jobs.** -/
theorem redisProcessCommand_jobs (s : Store) (n : Nat) (ids : List Nat) :
    (redisProcessCommand cfg rq c argv s).2.2 = (runJobs cfg rq (jobs cfg rq c argv n ids) c s).2 := by
  cases argv with
  | nil => rfl
  | cons name args =>
    simp only [redisProcessCommand, jobs, route]
    cases strcasecmp name.ptr (lit "quit") with
    | true => rfl
    | false =>
      cases lookupCommand name.ptr with
      | none => rfl
      | some row =>
        obtain ⟨cname, cmd, arity⟩ := row
        simp only [Bool.false_eq_true, if_false]
        split
        · rfl
        · split
          · rfl
          · cases rq.refuse cmd with
            | some r => rfl
            | none =>
              simp only [Option.isSome_none, Bool.false_eq_true, if_false]
              split
              · rfl
              · split
                · exact execCommand_jobs cfg rq c s ids
                · rfl

/-! ## Who made what -/

/-- For every slot, the request that made the container in it. -/
abbrev Makers := Nat → Bytes → Option Nat

def createsCmd : Cmd → Bool
  | .sadd | .zadd | .lpush | .rpush | .hset | .hmset => true
  | _ => false

theorem createsCmd_cmd (h : HName) : createsCmd h.cmd = h.creates := by
  cases h <;> rfl

/-- The maker of what is in the slot of a step once the step is done: an object changed in
place keeps its maker. -/
def Step.maker (now : Int) (db : Db) (st : Step) (id m : Option Nat) : Option Nat :=
  match (st.outcome now db).2 with
  | .create _ => id
  | .keep | .modify _ | .setExpire _ => if (liveEntry now db st.key).isSome then m else none
  | .overwrite _ | .assign _ _ | .delete => none

def stepsMakers (now : Int) (id : Option Nat) :
    List Step → Db → (Bytes → Option Nat) → Bytes → Option Nat
  | [], _, m => m
  | st :: l, db, m =>
    stepsMakers now id l (st.exec now db).2
      (Function.update m st.key (Step.maker now db st id (m st.key)))

def Job.makers (j : Job) (c : Client) (s : Store) (m : Makers) : Makers :=
  match plan cfg rq.now rq.rand j.cmd j.args with
  | some (.run steps _) =>
    Function.update m c.db (stepsMakers rq.now (if createsCmd j.cmd then some j.id else none) steps
      (s.dbs c.db) (m c.db))
  | _ => m

def jobsMakers (cfg : Cfg) (rq : Request) : List Job → Client → Store → Makers → Makers
  | [], _, _, m => m
  | j :: l, c, s, m =>
    jobsMakers cfg rq l (call cfg rq c s j.cmd j.args).2.1 (call cfg rq c s j.cmd j.args).2.2
      (j.makers cfg rq c s m)

/-! ## The record -/

/-- The entry for which the handler of a request calls `kvolve_new_version`. -/
def registers (env : Env) (argv : List Bytes) (s : Store) : Option Bytes :=
  match argv with
  | name :: k :: rest =>
    match versionHashLookup s.reg k, lookupKvCommand name (rest.length + 2) with
    | some v, some h =>
      match h.creates, getDbVal env v k s with
      | true, .ok none => some (cstr k)
      | _, _ => none
    | _, _ => none
  | _ => none

structure Trace where
  /-- The number of requests so far. -/
  n : Nat
  /-- The requests that registered the pending tag of a key as it stands. -/
  owners : Bytes → List Nat
  /-- The requests that brought the queued commands of a client. -/
  queued : Nat → List Nat
  /-- The containers made by the last request that was served. -/
  made : Makers

/-- The owners of the pending tags after a request with the number `n`, when the hook has turned
the store `s` into `s'`; a tag that has been changed has new ones. -/
def ownersAfter (env : Env) (argv : List Bytes) (n : Nat) (s s' : Store)
    (owners : Bytes → List Nat) (k : Bytes) : List Nat :=
  let kept := if s'.tmp.lookup k = s.tmp.lookup k then owners k else []
  if registers env argv s = some k ∨ s'.tmp.lookup k ≠ s.tmp.lookup k then n :: kept else kept

def Trace.step (cfg : Cfg) (z : System × Trace) (ev : Event) : Res (System × Trace) :=
  let c := z.1.clients ev.1
  if c.closing then .ok z
  else do
    let y ← z.1.step cfg ev
    let hook ← processCommand ev.2.ld (ev.2.env cfg c.db) c.id (args ev.2.argv) z.1.s
    let queued :=
      match route cfg ev.2 c hook.argv with
      | .queued => z.2.queued ev.1 ++ [z.2.n]
      | _ => if (y.clients ev.1).queue.isEmpty then [] else z.2.queued ev.1
    .ok (y, {
      n := z.2.n + 1
      owners := ownersAfter (ev.2.env cfg c.db) ev.2.argv z.2.n (prevcallCheck z.1.s) hook.s
        z.2.owners
      queued := Function.update z.2.queued ev.1 queued
      made := jobsMakers cfg ev.2 (jobs cfg ev.2 c hook.argv z.2.n (z.2.queued ev.1)) c hook.s
        fun _ _ => none })

theorem Trace.step_ok {cfg : Cfg} {z z' : System × Trace} {ev : Event}
    (hc : (z.1.clients ev.1).closing = false) (h : Trace.step cfg z ev = .ok z') :
    ∃ hook, processCommand ev.2.ld (ev.2.env cfg (z.1.clients ev.1).db) (z.1.clients ev.1).id
        (args ev.2.argv) z.1.s = .ok hook ∧
      z'.1.s = (runJobs cfg ev.2 (jobs cfg ev.2 (z.1.clients ev.1) hook.argv z.2.n
        (z.2.queued ev.1)) (z.1.clients ev.1) hook.s).2 ∧
      z'.2.owners = ownersAfter (ev.2.env cfg (z.1.clients ev.1).db) ev.2.argv z.2.n
        (prevcallCheck z.1.s) hook.s z.2.owners ∧
      z'.2.made = jobsMakers cfg ev.2 (jobs cfg ev.2 (z.1.clients ev.1) hook.argv z.2.n
        (z.2.queued ev.1)) (z.1.clients ev.1) hook.s fun _ _ => none := by
  unfold Trace.step at h
  simp only [hc, Bool.false_eq_true, if_false] at h
  obtain ⟨y, hy, h⟩ := bind_eq_ok.mp h
  obtain ⟨hook, hhook, h⟩ := bind_eq_ok.mp h
  cases h
  refine ⟨hook, hhook, ?_, rfl, rfl⟩
  unfold System.step at hy
  rw [hc] at hy
  simp only [Bool.false_eq_true, if_false] at hy
  obtain ⟨out, hout, hy⟩ := bind_eq_ok.mp hy
  cases hy
  unfold serve at hout
  rw [← args, hhook, ok_bind] at hout
  cases hout
  exact redisProcessCommand_jobs ..

end SchemaUpdate.KVolve
