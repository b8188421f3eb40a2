import SchemaUpdate.KVolve.Element

/-! # The migration of an object

`kvolve_check_update_kv_pair` and the four functions that run it over the elements
of a container. The commands an update function issues are a parameter here
(`nested`): they run with `upd_fun_running` set, which makes every migration they
reach return at once. -/

namespace SchemaUpdate.KVolve

open SchemaUpdate.Lib SchemaUpdate.Redis

/-- The object under update: the value held at `loc`, or an element of it. -/
inductive Subject
  | stored
  | elem (e : Elem)

/-- The state of the update loop: `argv[1]`, the name the stored object is under, the
object, and the store. -/
structure MSt where
  key : Bytes
  loc : Bytes
  subj : Subject
  s : Store

def MSt.free (env : Env) (st : MSt) : Res Unit :=
  match st.subj with
  | .stored => .ok ()
  | .elem e => e.free env st.loc st.s

abbrev Nested := Store → List Bytes → Res Store

/-! ## One update function -/

def argOf (env : Env) (type : UType) (st : MSt) : Res UpdArg :=
  match st.subj with
  | .stored => do
    let c ← deref env st.loc st.s
    match type, c.obj.val with
    | .hash, _ => .error .segv
    | .string, .str (.raw b) => .ok (.str b)
    | _, _ => .ok .wild
  | .elem e =>
    match type, e.obj, e.fval with
    | .hash, _, none => .error .segv
    | .hash, .raw f, some (.raw b) => .ok (.hash f (some b))
    | .hash, .raw f, some (.int _ _) => .ok (.hash f none)
    | .zset, .raw b, _ => .ok (.zset b e.score)
    | .hash, .int _ _, _ => .ok .wild
    | _, .raw b, _ => .ok (.str b)
    | _, .int _ _, _ => .ok .wild

/-- The commands an update function issues. What happens when they change the very container or
string it works on is outside the model. -/
def runCalls (nested : Nested) (env : Env) (calls : List (List Bytes)) (loc : Bytes) (s : Store) :
    Res Store :=
  if calls = [] then .ok s
  else do
    let s' ← calls.foldlM nested s
    if s'.get env.d loc = s.get env.d loc then .ok s' else .error .unmodelled

/-- The key the update function asks for takes the place of `argv[1]`. -/
def changeKey (env : Env) (v : VersionHash) (checkKey : Bool) (k : Option Bytes) (st : MSt) :
    Res MSt :=
  match checkKey, k with
  | true, some k => do
    let s ← namespaceUpdate env v (cstr k) st.s
    .ok { st with key := cstr k, loc := track env (cstr k) st.loc s, s := s }
  | _, _ => .ok st

/-- A new string value replaces the bytes; what is no raw string cannot be freed as one. -/
def changeStored (env : Env) (type : UType) (r : UpdRes) (st : MSt) : Res MSt :=
  match type with
  | .string =>
    match r.val with
    | none => .ok st
    | some b => do
      let c ← deref env st.loc st.s
      match c.obj.val with
      | .str (.raw _) =>
        let e := { c with obj := { c.obj with val := .str (.raw b) } }
        .ok { st with s := st.s.put env.d st.loc (some e) }
      | _ => .error .segv
  -- the container itself, handed to the element updater in place of a missing element
  | _ => if r.val.isSome ∨ r.score.isSome then .error .panic else .ok st

/-- The field and the value to store when a function replaced one of them; what it left is
read as a text. -/
def newField (r : UpdRes) (e : Elem) : Res Bytes :=
  match r.val with
  | some b => .ok b
  | none => textOf e.obj

def newFieldVal (r : UpdRes) (e : Elem) : Res Bytes :=
  match r.fval, e.fval with
  | some b, _ => .ok b
  | none, some o => textOf o
  | none, none => .error .segv

def changeElem (env : Env) (type : UType) (r : UpdRes) (e : Elem) (st : MSt) : Res MSt :=
  let done (p : Elem × Store) : MSt := { st with subj := .elem p.1, s := p.2 }
  match type with
  | .string => .ok st
  | .set =>
    match r.val with
    | none => .ok st
    | some b => done <$> updateSetElem env st.key st.loc b e st.s
  | .list =>
    match r.val with
    | none => .ok st
    | some b => done <$> updateListElem env st.key st.loc b e st.s
  | .zset =>
    if r.val.isSome ∨ r.score.isSome then
      done <$> updateZsetElem env st.key st.loc (r.val.getD e.obj.bytes) (r.score.getD e.score)
        e st.s
    else .ok st
  | .hash =>
    if r.val.isSome ∨ r.fval.isSome then do
      let f ← newField r e
      let v ← newFieldVal r e
      done <$> updateHashElem env st.key st.loc f v e st.s
    else .ok st

def applyFun (nested : Nested) (env : Env) (v : VersionHash) (checkKey : Bool) (type : UType)
    (st : MSt) (f : UpdFun) : Res MSt := do
  let arg ← argOf env type st
  let r := f (cstr st.key) arg
  let s ← runCalls nested env r.calls st.loc st.s
  let st ← changeKey env v checkKey r.key { st with s := s }
  match st.subj with
  | .stored => changeStored env type r st
  | .elem e => changeElem env type r e st

/-! ## The update loop -/

/-- `o->vers = versions[..]`. -/
def bump (env : Env) (vers : Int) (st : MSt) : Res MSt :=
  match st.subj with
  | .stored => do
    let _ ← deref env st.loc st.s
    .ok { st with s := st.s.setVers env.d st.loc vers }
  | .elem e => .ok { st with subj := .elem { e with vers := vers } }

/-- One version of the history: its functions, if any, and then its tag. -/
def updateTo (nested : Nested) (env : Env) (v : VersionHash) (checkKey : Bool) (type : UType)
    (st : MSt) (p : Int × Option UpdInfo) : Res MSt := do
  let st ← (infoFuns p.2).foldlM (applyFun nested env v checkKey type) st
  bump env p.1 st

def renames (v : VersionHash) (pend : List (Int × Option UpdInfo)) : Bool :=
  match pend.head? with
  | some (_, some i) => i.fromNs ≠ v.ns
  | _ => false

/-- Move the key to the current namespace before a migration. -/
def moveFirst (env : Env) (v : VersionHash) (checkKey : Bool) (vers : Int) (st : MSt) : Res MSt :=
  if checkKey ∧ renames v (v.pending vers) then do
    let s ← namespaceUpdate env v st.key st.s
    .ok { st with s := s, loc := track env st.key st.loc s }
  else .ok st

/-- `kvolve_check_update_kv_pair` from the moment its object is known; `small` is the test
for a shared integer, which negative integers pass as well. -/
def migrateSubject (nested : Nested) (env : Env) (v : VersionHash) (checkKey : Bool)
    (type : UType) (small : Bool) (vers : Int) (st : MSt) : Res MSt :=
  if small then do
    let s ← checkRename env v [st.key] st.s
    .ok { st with s := s, loc := track env st.key st.loc s }
  else if vers = v.cur then .ok st
  else do
    let st ← moveFirst env v checkKey vers st
    (v.pending vers).foldlM (updateTo nested env v checkKey type) st

section Inversion

variable {nested : Nested} {env : Env} {v : VersionHash} {checkKey : Bool} {type : UType}
  {small : Bool} {vers : Int} {st st' : MSt}

theorem moveFirst_ok (h : moveFirst env v checkKey vers st = .ok st') :
    ((checkKey ∧ renames v (v.pending vers)) ∧ ∃ s, namespaceUpdate env v st.key st.s = .ok s ∧
      st' = { st with s := s, loc := track env st.key st.loc s }) ∨
    (¬ (checkKey ∧ renames v (v.pending vers)) ∧ st' = st) := by
  unfold moveFirst at h
  split at h
  · rename_i hren
    obtain ⟨s, hs, h⟩ := bind_eq_ok.mp h
    exact .inl ⟨hren, s, hs, (Except.ok.inj h).symm⟩
  · rename_i hren
    exact .inr ⟨hren, (Except.ok.inj h).symm⟩

theorem migrateSubject_ok (h : migrateSubject nested env v checkKey type small vers st = .ok st') :
    (small = true ∧ ∃ s, checkRename env v [st.key] st.s = .ok s ∧
      st' = { st with s := s, loc := track env st.key st.loc s }) ∨
    (small = false ∧ vers = v.cur ∧ st' = st) ∨
    (small = false ∧ vers ≠ v.cur ∧ ∃ st₁, moveFirst env v checkKey vers st = .ok st₁ ∧
      (v.pending vers).foldlM (updateTo nested env v checkKey type) st₁ = .ok st') := by
  unfold migrateSubject at h
  split at h
  · rename_i hsmall
    obtain ⟨s, hs, h⟩ := bind_eq_ok.mp h
    exact .inl ⟨hsmall, s, hs, (Except.ok.inj h).symm⟩
  · rename_i hsmall
    split at h
    · rename_i hvers
      exact .inr (.inl ⟨by simpa using hsmall, hvers, (Except.ok.inj h).symm⟩)
    · rename_i hvers
      obtain ⟨st₁, hst₁, h⟩ := bind_eq_ok.mp h
      exact .inr (.inr ⟨by simpa using hsmall, hvers, st₁, hst₁, h⟩)

end Inversion

def Str.isSmall : Str → Bool
  | .int n _ => n < sharedIntegers
  | .raw _ => false

def Val.isSmall : Val → Bool
  | .str o => Str.isSmall o
  | _ => false

/-- The type of `kvolve_check_update_kv_pair`: the record, `check_key`, the container's
name, the element if one is passed in, the type, `argv[1]` and the store; the result is
`argv[1]`, the container's name and the store. -/
abbrev CheckUpdate :=
  Env → VersionHash → Bool → Bytes → Option Elem → UType → Bytes → Store →
    Res (Bytes × Bytes × Store)

def checkUpdateWith (nested : Nested) : CheckUpdate := fun env v checkKey loc o type key s =>
  match o with
  | none => do
    match ← getDbVal env v key s with
    | none => .ok (key, loc, s)
    | some loc => do
      let c ← deref env loc s
      let st ← migrateSubject nested env v checkKey type (Val.isSmall c.obj.val) (s.vers c.obj)
        ⟨key, loc, .stored, s⟩
      .ok (st.key, st.loc, st.s)
  | some e => do
    let st ← migrateSubject nested env v checkKey type (Str.isSmall e.obj) e.vers
      ⟨key, loc, .elem e, s⟩
    let _ ← st.free env
    .ok (st.key, st.loc, st.s)

/-- The same while an update function is running. -/
def checkUpdateSkip : CheckUpdate := fun env _ _ loc o _ key s => do
  let _ ← MSt.free env ⟨key, loc, o.elim .stored .elem, s⟩
  .ok (key, loc, s)

/-! ## Containers -/

/-- `robj_array[i]->vers = o->vers`, which for a shared integer is a write to it. -/
def tagElem (vers : Int) (e : Elem) (s : Store) : Elem × Store :=
  ({ e with vers := vers },
    match e.obj with
    | .int n true => { s with shared := Function.update s.shared n vers }
    | _ => s)

/-- What an element loop carries: whether the key is still to be checked, `argv[1]`, the
container's name and the store. -/
structure LSt where
  first : Bool
  key : Bytes
  loc : Bytes
  s : Store

variable (cu : CheckUpdate)

/-- One turn of an element loop; the tag of the container is read again each time. -/
def elemStep (env : Env) (v : VersionHash) (type : UType) (st : LSt) (e : Elem) : Res LSt := do
  let c ← deref env st.loc st.s
  let (e, s) := tagElem (st.s.vers c.obj) e st.s
  let (key, loc, s) ← cu env v st.first st.loc (some e) type st.key s
  .ok ⟨false, key, loc, s⟩

/-- One turn of the loop over the slots of a sorted set, null ones included. -/
def slotStep (env : Env) (v : VersionHash) (type : UType) (st : LSt)
    (e : Option Elem) : Res LSt := do
  let _ ← deref env st.loc st.s
  let (key, loc, s) ← cu env v st.first st.loc e type st.key st.s
  .ok ⟨false, key, loc, s⟩

/-- The frame shared by the four container functions: nothing is stored under any name
(`1`), the container is current, or its elements are gone through and it is tagged. The
loop is given the tag, the value and the state to start from; `none` is a kind of
container that is left alone. -/
def updateAll (env : Env) (v : VersionHash) (key : Bytes) (s : Store)
    (loop : Int → Val → LSt → Option (Res LSt)) : Res (Int × Bytes × Store) := do
  match ← getDbVal env v key s with
  | none => .ok (1, key, s)
  | some loc => do
    let c ← deref env loc s
    if s.vers c.obj = v.cur then .ok (0, key, s)
    else
      match loop (s.vers c.obj) c.obj.val ⟨true, key, loc, s⟩ with
      | none => .ok (0, key, s)
      | some r => do
        let st ← r
        let _ ← deref env st.loc st.s
        .ok (0, st.key, st.s.setVers env.d st.loc v.cur)

/-- The entries of a dictionary that an unsafe iterator goes through. -/
def dictUsed (val : Val) : Option Nat := (setUsed val).or (hashUsed val)

/-- `dictReleaseIterator`, which compares the fingerprint of the dictionary with the one at the
start: it fails when the dictionary is gone or has another number of entries. -/
def released (env : Env) (val : Val) (r : Res LSt) : Res LSt :=
  match dictUsed val, r with
  | some _, .error .freed => .error .assertFail
  | some n, .ok st =>
    if (st.s.val? env.d st.loc).bind dictUsed = some n then .ok st else .error .assertFail
  | _, r => r

section Released

variable {env : Env} {val : Val} {r : Res LSt} {st : LSt}

theorem released_error (env : Env) (val : Val) (f : Fault) :
    ∃ f', released env val (.error f) = .error f' := by
  unfold released
  cases dictUsed val <;> cases f <;> exact ⟨_, rfl⟩

theorem released_ok : released env val r = .ok st ↔ r = .ok st ∧
    ∀ n, dictUsed val = some n → (st.s.val? env.d st.loc).bind dictUsed = some n := by
  unfold released
  cases hval : dictUsed val with
  | none => simp
  | some n =>
    cases r with
    | error f => cases f <;> simp
    | ok st' =>
      simp only [Option.some.injEq, forall_eq', Except.ok.injEq]
      split
      · rename_i hkept
        simp only [Except.ok.injEq, iff_self_and]
        rintro rfl
        exact hkept
      · rename_i hlost
        simp only [reduceCtorEq, false_iff, not_and]
        rintro rfl
        exact hlost

end Released

def elemsLoop (env : Env) (v : VersionHash) (type : UType) (gather : Val → Res (List Elem))
    (val : Val) (st : LSt) : Res LSt :=
  released env val do
    let l ← gather val
    l.foldlM (elemStep cu env v type) st

theorem elemsLoop_ok {cu : CheckUpdate} {env : Env} {v : VersionHash} {type : UType}
    {gather : Val → Res (List Elem)} {val : Val} {st st' : LSt}
    (h : elemsLoop cu env v type gather val st = .ok st') :
    ∃ l, gather val = .ok l ∧ l.foldlM (elemStep cu env v type) st = .ok st' :=
  bind_eq_ok.mp (released_ok.mp h).1

def updateAllSet (env : Env) (v : VersionHash) (key : Bytes) (s : Store) :
    Res (Int × Bytes × Store) :=
  updateAll env v key s fun _ val st =>
    some (elemsLoop cu env v .set (gatherSet env.cfg (env.tables key)) val st)

def updateAllList (env : Env) (v : VersionHash) (key : Bytes) (s : Store) :
    Res (Int × Bytes × Store) :=
  updateAll env v key s fun _ val st =>
    some (elemsLoop cu env v .list (gatherList env.cfg) val st)

def updateAllHash (env : Env) (v : VersionHash) (key : Bytes) (s : Store) :
    Res (Int × Bytes × Store) :=
  updateAll env v key s fun _ val st =>
    some (elemsLoop cu env v .hash (gatherHash env.cfg (env.tables key)) val st)

/-- `kvolve_update_all_zset`: only ziplists are gone through, whatever they stand for. -/
def updateAllZset (env : Env) (v : VersionHash) (key : Bytes) (s : Store) :
    Res (Int × Bytes × Store) :=
  updateAll env v key s fun vers val st =>
    (ziplistEntries env.cfg val).map fun entries => do
      let l ← zsetSlots env.cfg vers entries
      l.foldlM (slotStep cu env v (utypeOf val)) st

end SchemaUpdate.KVolve
