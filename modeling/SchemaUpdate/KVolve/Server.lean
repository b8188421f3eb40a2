import SchemaUpdate.KVolve.Hook

/-! # Clients and the command loop

`processInputBuffer` for one request: the hook, then Redis's own checks (unknown
command, arity, authentication, the other refusals), the queue of a transaction
and the execution of the command. -/

namespace SchemaUpdate.KVolve

open SchemaUpdate.Lib SchemaUpdate.Redis

structure Client where
  id : Nat
  db : Nat := 0
  authenticated : Bool := false
  multi : Bool := false
  dirtyCas : Bool := false
  dirtyExec : Bool := false
  queue : List (Cmd × List Arg) := []
  closing : Bool := false

/-- One request with the choices the environment makes while it is served; `refuse` are the
refusals that depend on memory, disk and replication. -/
structure Request where
  argv : List Bytes
  now : Int
  rand : Nat := 0
  iter : Db → List Bytes := fun db => db.keys
  tables : Bytes → Table := fun _ => {}
  ld : Loader := ⟨fun _ => none, fun _ => 0⟩
  refuse : Cmd → Option Reply := fun _ => none

def Request.env (rq : Request) (cfg : Cfg) (d : Nat) : Env := ⟨cfg, rq.now, d, rq.rand, rq.iter, rq.tables⟩

def Client.flag (c : Client) : Client := { c with dirtyExec := c.dirtyExec || c.multi }

def Client.discard (c : Client) : Client :=
  { c with multi := false, dirtyCas := false, dirtyExec := false, queue := [] }

/-- `call` of a command that is not `EXEC`. -/
def call (cfg : Cfg) (rq : Request) (c : Client) (s : Store) (cmd : Cmd) (args : List Arg) :
    Reply × Client × Store :=
  match plan cfg rq.now rq.rand cmd args with
  | some p =>
    let out := s.call (rq.env cfg c.db) p
    (out.1, c, out.2)
  | none =>
    match cmd, args with
    | .auth, [pw] =>
      match cfg.requirepass with
      | none => (replyError (lit "Client sent AUTH, but no password is set"), c, s)
      | some pass =>
        if cstr pw.ptr = pass then (ok, { c with authenticated := true }, s)
        else (replyError (lit "invalid password"), { c with authenticated := false }, s)
    | .select, [n] =>
      match strtoll n.ptr with
      | some i =>
        if 0 ≤ wrap32 i ∧ wrap32 i < cfg.dbnum then (ok, { c with db := (wrap32 i).toNat }, s)
        else (replyError (lit "invalid DB index"), c, s)
      | none => (replyError (lit "invalid DB index"), c, s)
    | .multi, _ =>
      if c.multi then (replyError (lit "MULTI calls can not be nested"), c, s)
      else (ok, { c with multi := true }, s)
    | .discard, _ =>
      if c.multi then (ok, c.discard, s)
      else (replyError (lit "DISCARD without MULTI"), c, s)
    | .watch, _ =>
      if c.multi then (replyError (lit "WATCH inside MULTI is not allowed"), c, s)
      else (ok, c, s)
    | .unwatch, _ => (ok, { c with dirtyCas := false }, s)
    | .client, [sub, name] =>
      if strcasecmp sub.ptr (lit "setname") then
        if name.ptr.all fun x => 33 ≤ x && x ≤ 126 then (ok, c, s)
        else (replyError (lit
          "Client names cannot contain spaces, newlines or special characters."), c, s)
      else (replyError (lit
        "Syntax error, try CLIENT (LIST | KILL ip:port | GETNAME | SETNAME connection-name)"),
        c, s)
    | _, _ => (replyError (lit
        "Syntax error, try CLIENT (LIST | KILL ip:port | GETNAME | SETNAME connection-name)"),
        c, s)

def execQueue (cfg : Cfg) (rq : Request) :
    List (Cmd × List Arg) → Client → Store → Reply × Client × Store
  | [], c, s => ([], c, s)
  | (cmd, args) :: q, c, s =>
    let (r, c, s) := call cfg rq c s cmd args
    let (rs, c, s) := execQueue cfg rq q c s
    (r ++ rs, c, s)

def execCommand (cfg : Cfg) (rq : Request) (c : Client) (s : Store) : Reply × Client × Store :=
  if !c.multi then (replyError (lit "EXEC without MULTI"), c, s)
  else if c.dirtyExec then (execaborterr, c.discard, s)
  else if c.dirtyCas then ([.nullMulti], c.discard, s)
  else
    let (r, c', s) := execQueue cfg rq c.queue c s
    (.multi c.queue.length :: r, c'.discard, s)

def redisProcessCommand (cfg : Cfg) (rq : Request) (c : Client) (argv : List Arg) (s : Store) :
    Reply × Client × Store :=
  match argv with
  | [] => ([], c, s)
  | name :: args =>
    if strcasecmp name.ptr (lit "quit") then (ok, { c with closing := true }, s)
    else
      match lookupCommand name.ptr with
      | none =>
        (replyError (lit "unknown command '" ++ cstr name.ptr ++ lit "'"), c.flag, s)
      | some (cname, cmd, arity) =>
        if !arityOk arity argv.length then
          (replyError (lit "wrong number of arguments for '" ++ lit cname ++ lit "' command"),
            c.flag, s)
        else if cfg.requirepass.isSome && !c.authenticated && cmd != .auth then
          (noautherr, c.flag, s)
        else
          match rq.refuse cmd with
          | some r => (r, c.flag, s)
          | none =>
            if c.multi && cmd != .exec && cmd != .discard && cmd != .multi && cmd != .watch then
              ([.status (lit "QUEUED")], { c with queue := c.queue ++ [(cmd, args)] }, s)
            else if cmd = .exec then execCommand cfg rq c s
            else call cfg rq c s cmd args

/-- What a request leaves: the reply, the client, the store and the clients killed. -/
structure Served where
  reply : Reply
  c : Client
  s : Store
  killed : Finset Nat

/-- `processInputBuffer` for one request. -/
def serve (cfg : Cfg) (c : Client) (rq : Request) (s : Store) : Res Served := do
  let out ← processCommand rq.ld (rq.env cfg c.db) c.id (rq.argv.map (⟨·, 0⟩)) s
  let (r, c, s) := redisProcessCommand cfg rq c out.argv out.s
  .ok ⟨r, c, s, out.killed⟩

end SchemaUpdate.KVolve
