import SchemaUpdate.Lur.Names

/-! # The Python client: reading and writing keys

`get`, `set`, `delete`, `keys`, `ttl` and `pttl` of `LazyUpdateRedis` as programs over
the Redis commands, with the walk through the update functions that `get` makes. -/

namespace SchemaUpdate.Lur

open SchemaUpdate.Lib

/-- The exceptions that leave a method. -/
inductive PyErr
  | keyError
  | valueError
  | typeError
  | indexError
  | responseError
  -- the recursion limit of the interpreter
  | recursion
  -- an exception of user code
  | user
  deriving DecidableEq

/-- The value that marks a key as looked up and not found. -/
def placeholder : Bytes := lit "#### ####"

/-! ## Update functions -/

/-- What an update function leaves behind: the key it returns (`None` asks for a deletion),
the object it returns, and the object it was given after its changes in place. -/
structure FunOut (J : Type) where
  key : Option Bytes
  ret : J
  obj : J

abbrev UpdFun (J : Type) := Bytes → J → Except PyErr (FunOut J)

/-- An entry of `upd_dict`. -/
structure Rule (J : Type) where
  glob : Bytes
  funcs : List (UpdFun J)
  newVer : Ver

/-- One tuple of `get_update_tuples`; a missing function is no list. -/
structure ForTuple (J : Type) where
  glob : Bytes
  funcs : Option (List (UpdFun J))
  oldns : Ns
  ns : Ns
  verFrom : Ver
  verTo : Ver

/-- What the client takes from the Python library: JSON, the matching of globs (Python's and
the one of `KEYS`) and the compiler of update texts. -/
structure Py (J : Type) where
  loads : Bytes → Option J
  dumps : J → Bytes
  loads_dumps : ∀ j, loads (dumps j) = some j
  loads_nil : loads [] = none
  loads_placeholder : loads placeholder = none
  fnmatch : Bytes → Bytes → Bool
  stringmatch : Bytes → Bytes → Bool
  -- the module generated from a text is named after a namespace
  compile : Ns → Bytes → Except PyErr (List (ForTuple J))

/-- The dictionaries of a client. -/
structure Client (J : Type) where
  -- `client_ns_versions`
  nsVersions : Ns → Option Ver
  -- `ns_versions_dict`
  versDict : Ns → Option (List (Ver × Ns))
  -- `upd_dict`
  updDict : UpdName → Option (List (Rule J))

section

variable {J : Type}
  (py : Py J) (c : Client J) (name : Bytes) (vl : List (Ver × Ns)) (again : GetProg)

def Client.versions (ns : Ns) : Except PyErr (List (Ver × Ns)) :=
  match c.versDict ns with
  | some l => .ok l
  | none => .error .keyError

def Client.currVersion (ns : Ns) : Except PyErr Ver := do
  match ← c.versions ns with
  | e :: _ => .ok e.1
  | [] => .error .indexError

/-- The loop of `update`: every function is given the object as the one before left it. -/
def applyFuncs (name : Bytes) : List (UpdFun J) → J → Option Bytes × J →
    Except PyErr (Option Bytes × J)
  | [], _, last => .ok last
  | f :: fs, obj, _ => do
    let out ← f name obj
    applyFuncs name fs out.obj (out.key, out.ret)

def update (val : Bytes) (funcs : List (UpdFun J)) : Except PyErr (Option Bytes × Bytes) :=
  match py.loads val with
  | none => .error .valueError
  | some j => do
    let last ← applyFuncs name funcs j (none, j)
    .ok (last.1, py.dumps last.2)

/-- The functions of the rules whose glob matches; a rule for another version is an error. -/
def matching (py : Py J) (name : Bytes) (updV : Ver) :
    List (Rule J) → Except PyErr (List (UpdFun J))
  | [] => .ok []
  | r :: rules => do
    if r.newVer ≠ updV then .error .keyError
    else
      let rest ← matching py name updV rules
      .ok (if py.fnmatch r.glob name then r.funcs ++ rest else rest)

/-- One turn of the loop over the versions: from the version of the key to the next. -/
def walkStep (prevNs ns : Ns) (st : Ver × Bytes) (updV : Ver) : Except PyErr (Ver × Bytes) :=
  match c.updDict ⟨st.1, updV, prevNs, ns⟩ with
  | none => .error .keyError
  | some rules => do
    let funcs ← matching py name updV rules
    if funcs.isEmpty then .ok (updV, st.2)
    else
      let mod ← update py name st.2 funcs
      -- `upd_v + "|" + mod[0]`
      match mod.1 with
      | none => .error .typeError
      | some _ => .ok (updV, mod.2)

/-- The value of the key found at index `idx` of the version list, brought to the current
version. -/
def migrate (idx : Nat) (e : Ver × Ns) (val : Bytes) : Except PyErr Bytes := do
  let out ← (((vl.take idx).map Prod.fst).reverse).foldlM
    (walkStep py c name e.2 (splitNamespaceKey name).1) (e.1, val)
  .ok out.2

/-! ## `get` -/

def firstFound : List (Option Bytes) → Option (Nat × Bytes)
  | [] => none
  | some v :: _ => some (0, v)
  | none :: vals => (firstFound vals).map fun p => (p.1 + 1, p.2)

abbrev GetProg := Prog Cmd.Reply (Except PyErr (Option Bytes))

/-- After `EXEC`: a `WatchError` leads to another attempt. -/
def getDone (val : Bytes) : Option Bool → GetProg
  | none => again
  | some true => .ret (.ok (some val))
  | some false => .ret (.error .responseError)

/-- The migrated value takes the place of the one that was found. -/
def getWrite (w : Watch) (orig new found val : Bytes) : GetProg :=
  if found ≠ val then
    .call (.pttl orig) fun (pttl : Int) =>
      .call (.exec w [if pttl < 0 then .set new val else .psetex new pttl val, .del orig])
        (getDone again val)
  else .call (.exec w [.rename orig new]) (getDone again val)

/-- The second look at all versions, under `WATCH`. -/
def getLook (w : Watch) : GetProg :=
  .call (.mget (potentialKeys name vl)) fun (vals : List (Option Bytes)) =>
    match firstFound vals with
    | none => .ret (.ok none)
    | some (0, v) => .ret (.ok (some v))
    | some (idx + 1, v) =>
      match vl[0]?, vl[idx + 1]? with
      | some cur, some e =>
        match migrate py c name vl (idx + 1) e v with
        | .error err => .ret (.error err)
        | .ok val => getWrite again w
            (nameAt name e)
            (versioned cur.1 name) v val
      | _, _ => .ret (.error .indexError)

/-- The keys are watched one after the other. -/
def getWatch (py : Py J) (c : Client J) (name : Bytes) (vl : List (Ver × Ns)) (again : GetProg) :
    List RKey → Watch → GetProg
  | [], w => getLook py c name vl again w
  | k :: ks, w => .call (.watch k) fun (n : Nat) => getWatch py c name vl again ks (w ++ [(k, n)])

/-- What `get` watches: the requested name at every version, and the version list. -/
def watchedKeys : List RKey :=
  (vl.map fun e => RKey.data (versioned e.1 name)) ++ [.versions (splitNamespaceKey name).1]

/-- The first look at all versions; when there is nothing a placeholder is left. -/
def getAll : GetProg :=
  .call (.mget (potentialKeys name vl)) fun (vals : List (Option Bytes)) =>
    if vals.all Option.isNone then
      match (potentialKeys name vl)[0]? with
      | some k => .call (.setnx k placeholder) fun _ => .ret (.ok none)
      | none => .ret (.error .indexError)
    else getWatch py c name vl again (watchedKeys name vl) []

/-- One attempt of `get`. -/
def getOnce : GetProg :=
  match c.versions (splitNamespaceKey name).1, c.currVersion (splitNamespaceKey name).1 with
  | .ok vl, .ok cur =>
    -- the express route
    .call (.get (versioned cur name)) fun (val : Option Bytes) =>
      match val with
      | none => getAll py c name vl again
      | some v =>
        if v = placeholder then .ret (.ok none)
        else if v ≠ [] then .ret (.ok (some v))
        else getAll py c name vl again
  | .error e, _ => .ret (.error e)
  | _, .error e => .ret (.error e)

/-- `get`, with the number of nested calls the interpreter still allows. -/
def get (py : Py J) (c : Client J) (name : Bytes) : Nat → GetProg
  | 0 => .ret (.error .recursion)
  | depth + 1 => getOnce py c name (get py c name depth)

/-! ## `set` and `delete` -/

/-- An option that Python takes for true. -/
def truthy (o : Option Int) : Option Int := o.filter (· ≠ 0)

def SetOpts.flagged (o : SetOpts) : Bool :=
  (truthy o.ex).isSome || (truthy o.px).isSome || o.nx || o.xx

def keysToDel : List Bytes := potentialKeys name (vl.drop 1)

/-- The older versions are deleted, if there are any in the list. -/
def delOlder {α : Type} (a : α) : Prog Cmd.Reply α :=
  if (keysToDel name vl).isEmpty then .ret a
  else .call (.del (keysToDel name vl)) fun _ => .ret a

/-- The reply of a `SET`: `True`, `None` or an exception. -/
def setReply : Except Unit Bool → Except PyErr (Option Bool)
  | .error _ => .error .responseError
  | .ok true => .ok (some true)
  | .ok false => .ok none

/-- `set`: with options as two commands in one packet, without as `GETSET`. -/
def set (c : Client J) (name value : Bytes) (o : SetOpts) :
    Prog Cmd.Reply (Except PyErr (Option Bool)) :=
  match c.versions (splitNamespaceKey name).1, c.currVersion (splitNamespaceKey name).1 with
  | .ok vl, .ok cur =>
    if o.flagged then
      .call (.set (versioned cur name) value { o with ex := truthy o.ex, px := truthy o.px })
        fun (r : Except Unit Bool) => delOlder name vl (setReply r)
    else
      .call (.getset (versioned cur name) value) fun (r : Option Bytes) =>
        match r with
        | some _ => .ret (.ok (some true))
        | none => delOlder name vl (.ok (some true))
  | .error e, _ => .ret (.error e)
  | _, .error e => .ret (.error e)

def setnx (value : Bytes) : Prog Cmd.Reply (Except PyErr Bool) :=
  (set c name value { nx := true }).bind fun r => .ret (r.map Option.isSome)

/-- The names `delete` expands its arguments to. -/
def deleteNames (c : Client J) : List Bytes → Except PyErr (List Bytes)
  | [] => .ok []
  | name :: names => do
    let vl ← c.versions (splitNamespaceKey name).1
    let rest ← deleteNames c names
    .ok (potentialKeys name vl ++ rest)

def delete (names : List Bytes) : Prog Cmd.Reply (Except PyErr Nat) :=
  match deleteNames c names with
  | .error e => .ret (.error e)
  -- `DEL` without a key
  | .ok [] => .ret (.error .responseError)
  | .ok ks => .call (.del ks) fun (n : Nat) => .ret (.ok n)

/-! ## Other queries -/

/-- What stands after the first bar. -/
def afterBar (k : Bytes) : Bytes := (k.dropWhile (· != bar)).drop 1

def keys (py : Py J) (pattern : Bytes) : Prog Cmd.Reply (List Bytes) :=
  .call (.keys (py.stringmatch (star ++ bar :: pattern))) fun (ks : List Bytes) =>
    .ret (ks.map afterBar)

def pttl (c : Client J) (name : Bytes) : Prog Cmd.Reply (Except PyErr Int) :=
  match c.currVersion (splitNamespaceKey name).1 with
  | .error e => .ret (.error e)
  | .ok cur => .call (.pttl (versioned cur name)) fun (n : Int) => .ret (.ok n)

def ttl (c : Client J) (name : Bytes) : Prog Cmd.Reply (Except PyErr Int) :=
  match c.currVersion (splitNamespaceKey name).1 with
  | .error e => .ret (.error e)
  | .ok cur => .call (.ttl (versioned cur name)) fun (n : Int) => .ret (.ok n)

end

end SchemaUpdate.Lur
