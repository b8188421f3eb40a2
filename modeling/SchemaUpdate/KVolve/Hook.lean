import SchemaUpdate.KVolve.Handlers

/-! # `kvolve_process_command`

The hook that runs before Redis looks at a command, and the commands that update
functions issue, which pass through the same hook in database 0. -/

namespace SchemaUpdate.KVolve

open SchemaUpdate.Lib SchemaUpdate.Redis

variable (ld : Loader) (env : Env) (id : Nat) (argv : List Arg) (cu : CheckUpdate)

/-- The last branch of `kvolve_process_command`: the record of the first argument and the
handler of the command. -/
def dispatch (env : Env) (argv : List Arg) (s : Store) : Res (List Arg × Store) :=
  match argv with
  | name :: k :: rest =>
    match versionHashLookup s.reg k.ptr with
    | none => .ok (argv, s)
    | some v =>
      match lookupKvCommand name.ptr argv.length with
      | none => .ok (argv, s)
      | some h => do
        let (args, s) ← h.run cu env v (k :: rest) s
        .ok (name :: args, s)
  | _ => .ok (argv, s)

/-- The part of `kvolve_process_command` that concerns data commands. -/
def processData (env : Env) (argv : List Arg) (s : Store) : Res (List Arg × Store) :=
  match argv with
  | [name, p] =>
    if strcasecmp name.ptr (lit "keys") then do
      let (args, s) ← kvolveKeys env [p] s
      .ok (name :: args, s)
    else dispatch cu env argv s
  | _ => dispatch cu env argv s

/-- `kvolve_upd_redis_call`: the fake client is on database 0, and no reply reaches the
caller. Commands that are no data commands are outside the model. -/
def updRedisCall : Nested := fun s argv =>
  match argv with
  | [] => .error .segv
  | name :: args =>
    match lookupCommand name with
    | none => .error .segv
    | some (_, cmd, _) => do
      let env := { env with d := 0 }
      let (argv, s) ← processData checkUpdateSkip env (⟨name, 0⟩ :: args.map (⟨·, 0⟩))
        (prevcallCheck s)
      match plan env.cfg env.now env.rand cmd argv.tail with
      | some p => .ok (s.call env p).2
      | none => .error .unmodelled

def checkUpdateKvPair : CheckUpdate := fun env => checkUpdateWith (updRedisCall env) env

/-! ## Loading and connecting -/

/-- What `stat` and `dlopen` find, and the choices of `intsetRandom`. The calls of
`kvolve_upd_spec` that the constructors of a library make stand for the library. -/
structure Loader where
  dlopen : Bytes → Option (List Spec)
  pick : Finset Nat → Nat

def loadUpdate (path : Bytes) (reg : Reg) : Res (Reg × Finset Nat) :=
  match ld.dlopen path with
  | none => .ok (reg, ∅)
  | some specs =>
    specs.foldlM (fun p sp => do
      let (reg, killed) ← updSpec id ld.pick p.1 sp
      .ok (reg, p.2 ∪ killed)) (reg, ∅)

/-- What the hook leaves to Redis: the arguments, the store and the clients it killed. -/
structure HookOut where
  argv : List Arg
  s : Store
  killed : Finset Nat := ∅

def isSetname : Option Bytes :=
  match argv with
  | [c, sub, name] =>
    if strcasecmp c.ptr (lit "client") && strcasecmp sub.ptr (lit "setname") then some name.ptr
    else none
  | _ => none

/-- `strncasecmp(name, "update", 6)` and the path after it. -/
def updatePath (name : Bytes) : Option Bytes :=
  if ((cstr name).take 6).map lower = lit "update" then some ((cstr name).drop 6) else none

def hookBody (s : Store) : Res HookOut :=
  match isSetname argv with
  | some name =>
    match updatePath name with
    | some path => do
      let (reg, killed) ← loadUpdate ld id path s.reg
      .ok { argv := argv, s := { s with reg := reg }, killed := killed }
    | none => do
      let (reg, quit) ← checkVersion id name s.reg
      .ok { argv := if quit then ⟨lit "quit", 0⟩ :: argv.tail else argv,
            s := { s with reg := reg } }
  | none => do
    let (argv, s) ← processData checkUpdateKvPair env argv s
    .ok { argv := argv, s := s }

def processCommand (s : Store) : Res HookOut :=
  hookBody ld env id argv (prevcallCheck s)

end SchemaUpdate.KVolve
