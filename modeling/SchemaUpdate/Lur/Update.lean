import SchemaUpdate.Lur.Client

/-! # The Python client: connecting and loading updates

`append_new_version`, `append_new_version_updated_ns`, the constructor and `do_upd`.
They change the dictionaries of the client as they go, also when an exception ends
them. An update file is given by what the two parsers and the generated module make
of it. -/

namespace SchemaUpdate.Lur

open SchemaUpdate.Lib

/-! ## Methods that change the client -/

/-- A method: it works on the client, issues commands and may raise. -/
def PyM (J α : Type) : Type := Client J → Prog Cmd.Reply (Except PyErr α × Client J)

namespace PyM

variable {J α β : Type}

protected def pure (a : α) : PyM J α := fun c => .ret (.ok a, c)

protected def bind (m : PyM J α) (f : α → PyM J β) : PyM J β := fun c =>
  (m c).bind fun out =>
    match out.1 with
    | .ok a => f a out.2
    | .error e => .ret (.error e, out.2)

instance : Monad (PyM J) where
  pure := PyM.pure
  bind := PyM.bind

def raise (e : PyErr) : PyM J α := fun c => .ret (.error e, c)

def send (c : Cmd) : PyM J c.Reply := fun cl => .call c fun r => .ret (.ok r, cl)

def client : PyM J (Client J) := fun c => .ret (.ok c, c)

def modify (f : Client J → Client J) : PyM J Unit := fun c => .ret (.ok (), f c)

def ofExcept (x : Except PyErr α) : PyM J α := fun c => .ret (x, c)

/-- A call that leaves the dictionaries alone. -/
def lift (p : Client J → Prog Cmd.Reply (Except PyErr α)) : PyM J α := fun c =>
  (p c).bind fun r => .ret (r, c)

end PyM

section

variable {J : Type} (c : Client J) (t : ForTuple J)

def Client.setNsVersion (ns : Ns) (v : Ver) : Client J :=
  { c with nsVersions := Function.update c.nsVersions ns (some v) }

def Client.setVersDict (ns : Ns) (l : Option (List (Ver × Ns))) : Client J :=
  { c with versDict := Function.update c.versDict ns l }

/-- `upd_dict.setdefault(name, []).append(rule)`. -/
def Client.addRule (name : UpdName) (r : Rule J) : Client J :=
  { c with updDict := Function.update c.updDict name (some ((c.updDict name).getD [] ++ [r])) }

/-! ## Version lists -/

/-- `x in global_ver_redis`: the list as Redis holds it has versions and namespaces in turn. -/
def inFlat (x : Bytes) (l : List (Ver × Ns)) : Bool := l.any fun e => e.1 == x || e.2 == x

/-- `append_new_version`; the result is `None` after a `WatchError`. -/
def appendNewVersion (v : Ver) (ns : Ns) (startup : Bool) : PyM J (Option Unit) := do
  let n : Nat ← PyM.send (.watch (.versions ns))
  let l : List (Ver × Ns) ← PyM.send (.lrange ns)
  PyM.modify (·.setNsVersion ns v)
  if (l.head?.map Prod.fst) = some v then
    if startup then PyM.modify (·.setVersDict ns (some l))
    return some ()
  else if startup && inFlat v l then PyM.raise .valueError
  else if startup && !l.isEmpty then PyM.raise .valueError
  else
    PyM.modify (·.setVersDict ns (some ((v, ns) :: l)))
    let out : Option Bool ← PyM.send (.exec [(.versions ns, n)] [.lpush ns (v, ns)])
    return out.map fun _ => ()

def appendNewVersionUpdatedNs (oldV v : Ver) (oldns ns : Ns) : PyM J (Option Unit) := do
  let there : Bool ← PyM.send (.existsVersions ns)
  if there then PyM.raise .valueError
  else
    let n : Nat ← PyM.send (.watch (.versions ns))
    let n' : Nat ← PyM.send (.watch (.versions oldns))
    let l : List (Ver × Ns) ← PyM.send (.lrange oldns)
    if l.isEmpty then PyM.raise .valueError
    else if !inFlat oldV l then PyM.raise .valueError
    else
      PyM.modify (·.setVersDict ns (some ((v, ns) :: l)))
      -- `del self.ns_versions_dict[oldns]`
      let c ← PyM.client
      match c.versDict oldns with
      | none => PyM.raise .keyError
      | some _ =>
        PyM.modify (·.setVersDict oldns none)
        let out : Option Bool ← PyM.send (.exec [(.versions ns, n), (.versions oldns, n')]
          [.rpush ns ((v, ns) :: l), .delVersions oldns])
        return out.map fun _ => ()

/-! ## Connecting -/

/-- The updates in Redis are compiled and stored in `upd_dict`. -/
def loadUpdTuples (py : Py J) : List (UpdName × Bytes) → PyM J Unit
  | [] => return
  | (name, text) :: rest => do
    let tups ← PyM.ofExcept (py.compile name.oldns text)
    tups.forM fun (t : ForTuple J) =>
      match t.funcs with
      | none => PyM.raise .user
      | some funcs => PyM.modify (·.addRule name ⟨t.glob, funcs, t.verTo⟩)
    loadUpdTuples py rest

/-- `__init__`, from a client without entries. -/
def connect (py : Py J) (nsVersions : List (Ns × Ver)) : PyM J Unit := do
  nsVersions.forM fun (p : Ns × Ver) => do
    let _ ← appendNewVersion p.2 p.1 true
    return
  let texts : List (UpdName × Bytes) ← PyM.send .hgetall
  loadUpdTuples py texts

def Client.empty : Client J := ⟨fun _ => none, fun _ => none, fun _ => none⟩

/-! ## Loading an update -/

/-- One tuple of `get_newkey_tuples`: the keys to add and their value, or no such function. -/
structure AddTuple (J : Type) where
  ns : Ns
  version : Ver
  func : Option (List Bytes × J)

/-- The lines of the stanzas of one update, joined; a stanza without an end cannot be. -/
abbrev Texts := List (UpdName × Except PyErr Bytes)

def Texts.find (texts : Texts) (name : UpdName) : Option (Except PyErr Bytes) :=
  (texts.find? fun p => p.1 = name).map Prod.snd

/-- An update file: the texts by name as `parse_dslfile_string_only` returns them (nothing if
the file cannot be read), and the generated module (or the exception of generating and
importing it). -/
structure Dsl (J : Type) where
  texts : Option Texts
  adds : List (AddTuple J)
  fors : List (ForTuple J)
  broken : Option PyErr := none
  -- the name of the module file if it is to be kept
  file : Option Bytes := none

/-- The updates start from the versions this client is at. -/
def checkVersions : Texts → PyM J Unit
  | [] => return
  | (name, _) :: rest => do
    let c ← PyM.client
    let cur ← PyM.ofExcept (c.currVersion name.oldns)
    if name.old ≠ cur then PyM.raise .keyError else checkVersions rest

def setKeys (py : Py J) (j : J) : List Bytes → PyM J Unit
  | [] => return
  | k :: ks => do
    let _ ← PyM.lift fun c => set c k (py.dumps j) {}
    setKeys py j ks

def addLoop (py : Py J) : List (AddTuple J) → PyM J Unit
  | [] => return
  | a :: rest => do
    let _ ← appendNewVersion a.version a.ns false
    match a.func with
    | none => addLoop py rest
    | some (ks, j) => do
      setKeys py j ks
      addLoop py rest

def ForTuple.name : UpdName := ⟨t.verFrom, t.verTo, t.oldns, t.ns⟩

/-- The version list is extended by a `for` stanza. -/
def appendFor : PyM J (Option Unit) :=
  if t.oldns = t.ns then appendNewVersion t.verTo t.ns false
  else appendNewVersionUpdatedNs t.verFrom t.verTo t.oldns t.ns

/-- `pipe.execute()`, which does nothing when nothing is queued. -/
def execute (w : Watch) (l : List Write) : PyM J (Option Bool) :=
  if l.isEmpty then pure (some true) else PyM.send (.exec w l)

/-- The `for` stanzas; `false` is a load that was given up. -/
def forLoop (texts : Texts) (file : Option Bytes) :
    List (ForTuple J) → PyM J Bool
  | [] => return true
  | t :: rest => do
    let n : Nat ← PyM.send (.watch .dsl)
    match texts.find t.name with
    | none => PyM.raise .valueError
    | some text => do
      let prev : Option Bytes ← PyM.send (.hget t.name)
      let joined ← PyM.ofExcept text
      if prev ≠ none ∧ prev ≠ some joined then PyM.raise .valueError
      else
        let queue := if prev ≠ some joined then [Write.hset t.name (file.getD joined)] else []
        match ← appendFor t with
        | none => return false
        | some () =>
          match t.funcs with
          | none => return false
          | some funcs =>
            PyM.modify (·.addRule t.name ⟨t.glob, funcs, t.verTo⟩)
            match ← execute [(.dsl, n)] queue with
            | none => return false
            | some false => PyM.raise .responseError
            | some true => forLoop texts file rest

/-- `do_upd`; the result is `None` when the file cannot be read. -/
def doUpd (py : Py J) (d : Dsl J) : PyM J (Option Bool) :=
  match d.texts with
  | none => return none
  | some texts => do
    checkVersions texts
    match d.broken with
    | some e => PyM.raise e
    | none => do
      addLoop py d.adds
      let done ← forLoop texts d.file d.fors
      return some done

end

end SchemaUpdate.Lur
