import SchemaUpdate.KVolve.Server

/-! # The server with its clients

One request after the other, each by one of the clients; a client that quits or is
killed sends nothing more. -/

namespace SchemaUpdate.KVolve

open SchemaUpdate.Lib SchemaUpdate.Redis

structure System where
  s : Store
  clients : Nat → Client

abbrev Event := Nat × Request

def clientsAfter (i : Nat) (out : Served) (clients : Nat → Client) (j : Nat) : Client :=
  let c := if j = i then out.c else clients j
  if j ∈ out.killed then { c with closing := true } else c

def System.step (cfg : Cfg) (y : System) (ev : Event) : Res System :=
  if (y.clients ev.1).closing then .ok y
  else do
    let out ← serve cfg (y.clients ev.1) ev.2 y.s
    .ok ⟨out.s, clientsAfter ev.1 out y.clients⟩

def System.run (cfg : Cfg) (y : System) (evs : List Event) : Res System :=
  evs.foldlM (System.step cfg) y

/-! ## What Redis does with a request -/

theorem call_conn {cfg : Cfg} {rq : Request} {c : Client} {cmd : Cmd} {args : List Arg}
    (hplan : plan cfg rq.now rq.rand cmd args = none) (s s₀ : Store) :
    call cfg rq c s cmd args =
      ((call cfg rq c s₀ cmd args).1, (call cfg rq c s₀ cmd args).2.1, s) := by
  unfold call
  rw [hplan]
  simp only
  repeat' split
  all_goals rfl

def NotExec (argv : List Arg) : Prop :=
  ∀ name args, argv = name :: args → (lookupCommand name.ptr).map (·.2.1) ≠ some .exec

variable {argv : List Arg}

theorem redisProcessCommand_cases (cfg : Cfg) (rq : Request) (c : Client) (hexec : NotExec argv) :
    (∃ r c', ∀ s, redisProcessCommand cfg rq c argv s = (r, c', s)) ∨
    ∃ p, ∀ s, redisProcessCommand cfg rq c argv s =
      ((s.call (rq.env cfg c.db) p).1, c, (s.call (rq.env cfg c.db) p).2) := by
  cases argv with
  | nil => exact .inl ⟨_, _, fun _ => rfl⟩
  | cons name args =>
    simp only [redisProcessCommand]
    split
    · exact .inl ⟨_, _, fun _ => rfl⟩
    · cases hcmd : lookupCommand name.ptr with
      | none => exact .inl ⟨_, _, fun _ => rfl⟩
      | some row =>
        obtain ⟨cname, cmd, arity⟩ := row
        have hne : cmd ≠ .exec := fun h => hexec name args rfl (by rw [hcmd, h]; rfl)
        simp only
        split
        · exact .inl ⟨_, _, fun _ => rfl⟩
        · split
          · exact .inl ⟨_, _, fun _ => rfl⟩
          · cases rq.refuse cmd with
            | some r => exact .inl ⟨_, _, fun _ => rfl⟩
            | none =>
              simp only
              split
              · exact .inl ⟨_, _, fun _ => rfl⟩
              · cases hplan : plan cfg rq.now rq.rand cmd args with
                | some p => exact .inr ⟨p, fun s => by simp only [call, hplan]⟩
                | none => exact .inl ⟨_, _, fun s => call_conn hplan s Store.init⟩

/-! ## What the hook does with a request -/

/-- The ways of `kvolve_process_command` once the pending tags are set in `s`: a name a client
gives itself, `KEYS`, a command that no handler takes, and a handler. -/
inductive HookCase (env : Env) (argv : List Arg) (s : Store) (out : HookOut) : Prop
  | setname {nm : Bytes} : isSetname argv = some nm → out.s = { s with reg := out.s.reg } →
      (out.argv = argv ∨ out.argv = ⟨lit "quit", 0⟩ :: argv.tail) → HookCase env argv s out
  | keys {name k : Arg} {rest a : List Arg} : argv = name :: k :: rest →
      (strcasecmp name.ptr (lit "keys") = true ∨
        lookupKvCommand name.ptr argv.length = some .keys) →
      kvolveKeys env (k :: rest) s = .ok (a, out.s) → out.argv = name :: a →
      HookCase env argv s out
  | plain : (∀ name k rest v h, argv = name :: k :: rest → versionHashLookup s.reg k.ptr = some v →
      lookupKvCommand name.ptr argv.length ≠ some h) → out.argv = argv → out.s = s →
      HookCase env argv s out
  | handler {name k : Arg} {rest a : List Arg} {v : VersionHash} {h : HName} :
      argv = name :: k :: rest → versionHashLookup s.reg k.ptr = some v →
      lookupKvCommand name.ptr argv.length = some h → h ≠ .keys →
      h.run checkUpdateKvPair env v (k :: rest) s = .ok (a, out.s) → out.argv = name :: a →
      HookCase env argv s out

theorem dispatch_case {env : Env} {s : Store} {p : List Arg × Store}
    (h : dispatch checkUpdateKvPair env argv s = .ok p) :
    HookCase env argv s { argv := p.1, s := p.2 } := by
  unfold dispatch at h
  split at h
  · rename_i name k rest
    split at h
    · rename_i hv
      cases h
      refine .plain (fun _ _ _ v h heq hv' => ?_) rfl rfl
      cases heq
      rw [hv] at hv'
      cases hv'
    · rename_i v hv
      split at h
      · rename_i hkv
        cases h
        refine .plain (fun _ _ _ v h heq _ => ?_) rfl rfl
        cases heq
        rw [hkv]
        simp
      · rename_i hn hkv
        obtain ⟨⟨a, s'⟩, hrun, h⟩ := bind_eq_ok.mp h
        cases h
        by_cases hkeys : hn = .keys
        · subst hkeys
          exact .keys rfl (.inr hkv) hrun rfl
        · exact .handler rfl hv hkv hkeys hrun rfl
  · rename_i hshort
    cases h
    exact .plain (fun name k rest _ _ heq _ => absurd heq (hshort name k rest)) rfl rfl

theorem processCommand_case {ld : Loader} {env : Env} {id : Nat} {s : Store} {out : HookOut}
    (h : processCommand ld env id argv s = .ok out) :
    HookCase env argv (prevcallCheck s) out := by
  unfold processCommand hookBody at h
  cases hset : isSetname argv with
  | some nm =>
    rw [hset] at h
    simp only at h
    split at h
    · obtain ⟨p, -, h⟩ := bind_eq_ok.mp h
      cases h
      exact .setname hset rfl (.inl rfl)
    · obtain ⟨p, -, h⟩ := bind_eq_ok.mp h
      cases h
      refine .setname hset rfl ?_
      simp only
      split
      · exact .inr rfl
      · exact .inl rfl
  | none =>
    rw [hset] at h
    obtain ⟨⟨a, s'⟩, hdata, h⟩ := bind_eq_ok.mp h
    cases h
    unfold processData at hdata
    split at hdata
    · split at hdata
      · rename_i hk
        obtain ⟨⟨a', s''⟩, hkeys, hdata⟩ := bind_eq_ok.mp hdata
        cases hdata
        exact .keys rfl (.inl hk) hkeys rfl
      · exact dispatch_case hdata
    · exact dispatch_case hdata

end SchemaUpdate.KVolve
