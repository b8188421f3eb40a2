import SchemaUpdate.KVolve.Store

/-! # Finding and moving a value across namespaces

`kvolve_get_db_val`, `kvolve_namespace_update`, `kvolve_checkdel_old` and
`kvolve_check_rename`. An object is referred to by the key that holds it. -/

namespace SchemaUpdate.KVolve

open SchemaUpdate.Lib SchemaUpdate.Redis

/-- The loop over the predecessors of a record: the first predecessor name of `key` that
is present. The next record is found by looking the name of the predecessor up as if it
were a key. -/
def prevWalk (reg : Reg) (here : Bytes → Bool) (key : Bytes) :
    Nat → Option VersionHash → Res (Option Bytes)
  | _, none => .ok none
  | 0, some _ => .error .diverge
  | n + 1, some tmp =>
    match tmp.prevNs with
    | none => .ok none
    | some p =>
      match constructPrevName key p with
      | none => .error .segv
      | some old =>
        if here old then .ok (some old)
        else prevWalk reg here key n (versionHashLookup reg p)

/-- A walk that visits more records than there are visits one of them twice. -/
def walkFuel (reg : Reg) : Nat := reg.size + 2

variable (env : Env) (v : VersionHash) (key : Bytes) (s : Store)

def Store.has (d : Nat) (k : Bytes) : Bool := (s.get d k).isSome

/-- `kvolve_get_db_val`: the name the value is stored under. -/
def getDbVal : Res (Option Bytes) :=
  if s.has env.d key then .ok (some key)
  else prevWalk s.reg (s.has env.d) key (walkFuel s.reg) (some v)

/-- `kvolve_namespace_update`. The rename runs on a client of its own, whose database is
not set. -/
def namespaceUpdate : Res Store :=
  if s.has env.d key then .ok s
  else
    match v.prevNs.bind (constructPrevName key) with
    | none => .error .segv
    | some old => .ok (s.rename env.now old key)

/-- Where the object that was held at `loc` is after a rename to `key`. -/
def track (loc : Bytes) (s : Store) : Bytes := if s.has env.d loc then loc else key

def checkdelOld : Res Store := do
  match ← prevWalk s.reg (s.has env.d) key (walkFuel s.reg) (some v) with
  | none => .ok s
  | some old => .ok (s.put env.d old none)

/-- The body of the loop of `kvolve_check_rename`. -/
def checkRenameOne : Res Store := do
  match (← getDbVal env v key s).bind (s.get env.d) with
  | none => .ok s
  | some e =>
    match e.obj.val with
    -- strings stored as integers have no version of their own
    | .str (.int _ _) => namespaceUpdate env v key s
    | _ => if s.vers e.obj ≠ v.cur then namespaceUpdate env v key s else .ok s

def checkRename (keys : List Bytes) (s : Store) : Res Store :=
  if v.prevNs = none then .ok s else keys.foldlM (fun s k => checkRenameOne env v k s) s

end SchemaUpdate.KVolve
