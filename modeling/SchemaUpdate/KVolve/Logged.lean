import SchemaUpdate.KVolve.LocalHandlers

/-! # The calls of update functions, on record

The migration once more, with a log: which update functions are called with what, in
which turn of an element loop, and which objects are then marked current. Without
its log each function here is the one it records. -/

namespace SchemaUpdate.KVolve

open SchemaUpdate.Lib SchemaUpdate.Redis

structure Call where
  fn : UpdFun
  arg : UpdArg

/-- A stored object on its way to the current version: the key it was asked for, its tag and
its entry as they were found, and the calls made in each turn of the loop over its
elements. -/
structure Mark where
  key : Bytes
  old : Int
  entry : Entry
  turns : List (List Call)

/-! ## One object -/

section Subject

variable (nested : Nested) (env : Env) (v : VersionHash) (checkKey : Bool) (type : UType)
  (p : MSt × List Call) (q : Int × Option UpdInfo) (small : Bool)

def applyFunL (f : UpdFun) : Res (MSt × List Call) := do
  let arg ← argOf env type p.1
  let st ← applyFun nested env v checkKey type p.1 f
  .ok (st, p.2 ++ [⟨f, arg⟩])

def updateToL : Res (MSt × List Call) := do
  let p ← (infoFuns q.2).foldlM (applyFunL nested env v checkKey type) p
  let st ← bump env q.1 p.1
  .ok (st, p.2)

def migrateSubjectL (vers : Int) (st : MSt) : Res (MSt × List Call) :=
  if small ∨ vers = v.cur then do
    .ok (← migrateSubject nested env v checkKey type small vers st, [])
  else do
    let st ← moveFirst env v checkKey vers st
    (v.pending vers).foldlM (updateToL nested env v checkKey type) (st, [])

theorem applyFunL_unlogged (f : UpdFun) : unlogged (applyFunL nested env v checkKey type p f) =
      applyFun nested env v checkKey type p.1 f := by
  unfold applyFunL
  cases harg : argOf env type p.1 with
  | error e => simp only [applyFun, harg, error_bind]; rfl
  | ok arg =>
    rw [ok_bind]
    cases applyFun nested env v checkKey type p.1 f <;> rfl

theorem updateToL_unlogged : unlogged (updateToL nested env v checkKey type p q) =
      updateTo nested env v checkKey type p.1 q := by
  unfold updateToL updateTo
  refine unlogged_bind (unlogged_foldlM (applyFunL_unlogged nested env v checkKey type) _ p) ?_
  intro r
  cases bump env q.1 r.1 <;> rfl

theorem migrateSubjectL_unlogged (vers : Int) (st : MSt) :
    unlogged (migrateSubjectL nested env v checkKey type small vers st) =
      migrateSubject nested env v checkKey type small vers st := by
  unfold migrateSubjectL
  split
  · cases migrateSubject nested env v checkKey type small vers st <;> rfl
  · rename_i h
    obtain ⟨hsmall, hvers⟩ := not_or.mp h
    unfold migrateSubject
    rw [if_neg hsmall, if_neg hvers]
    exact unlogged_bind_same fun st =>
      unlogged_foldlM (updateToL_unlogged nested env v checkKey type) _ (st, [])

end Subject

abbrev CheckUpdateL :=
  Env → VersionHash → Bool → Bytes → Option Elem → UType → Bytes → Store →
    Res ((Bytes × Bytes × Store) × List Call)

def checkUpdateWithL (nested : Nested) : CheckUpdateL := fun env v checkKey loc o type key s =>
  match o with
  | none => do
    match ← getDbVal env v key s with
    | none => .ok ((key, loc, s), [])
    | some loc => do
      let c ← deref env loc s
      let p ← migrateSubjectL nested env v checkKey type (Val.isSmall c.obj.val) (s.vers c.obj)
        ⟨key, loc, .stored, s⟩
      .ok ((p.1.key, p.1.loc, p.1.s), p.2)
  | some e => do
    let p ← migrateSubjectL nested env v checkKey type (Str.isSmall e.obj) e.vers
      ⟨key, loc, .elem e, s⟩
    let _ ← p.1.free env
    .ok ((p.1.key, p.1.loc, p.1.s), p.2)

/-- A command of a client, or a command of an update function, for which
`upd_fun_running` is set. -/
inductive Mode
  | command | nested
  deriving DecidableEq

def Mode.check : Mode → CheckUpdate
  | .command => checkUpdateKvPair
  | .nested => checkUpdateSkip

def Mode.checkL : Mode → CheckUpdateL
  | .command => fun env => checkUpdateWithL (updRedisCall env) env
  | .nested => fun env v checkKey loc o type key s => do
    .ok (← checkUpdateSkip env v checkKey loc o type key s, [])

theorem Mode.checkL_unlogged (mode : Mode) (env : Env) (v : VersionHash) (checkKey : Bool)
    (loc : Bytes) (o : Option Elem) (type : UType) (key : Bytes) (s : Store) :
    unlogged (mode.checkL env v checkKey loc o type key s) =
      mode.check env v checkKey loc o type key s := by
  cases mode with
  | nested =>
    show unlogged (checkUpdateSkip env v checkKey loc o type key s >>= _) = _
    cases hskip : checkUpdateSkip env v checkKey loc o type key s <;> exact hskip.symm
  | command =>
    cases o with
    | some e =>
      refine unlogged_bind (migrateSubjectL_unlogged ..) fun p => ?_
      exact unlogged_bind_same fun _ => rfl
    | none =>
      refine unlogged_bind_same fun found => ?_
      cases found with
      | none => rfl
      | some loc =>
        refine unlogged_bind_same fun c => ?_
        exact unlogged_bind (migrateSubjectL_unlogged ..) fun p => rfl

/-! ## Containers -/

section Loops

variable (mode : Mode) (env : Env) (v : VersionHash) (type : UType)
  (p : LSt × List (List Call)) (e : Option Elem)

def elemStepL (e : Elem) : Res (LSt × List (List Call)) := do
  let c ← deref env p.1.loc p.1.s
  let (e, s) := tagElem (p.1.s.vers c.obj) e p.1.s
  let q ← mode.checkL env v p.1.first p.1.loc (some e) type p.1.key s
  .ok (⟨false, q.1.1, q.1.2.1, q.1.2.2⟩, p.2 ++ [q.2])

def slotStepL : Res (LSt × List (List Call)) := do
  let _ ← deref env p.1.loc p.1.s
  let q ← mode.checkL env v p.1.first p.1.loc e type p.1.key p.1.s
  .ok (⟨false, q.1.1, q.1.2.1, q.1.2.2⟩, p.2 ++ [q.2])

theorem elemStepL_unlogged (e : Elem) :
    unlogged (elemStepL mode env v type p e) = elemStep mode.check env v type p.1 e :=
  unlogged_bind_same fun _ => unlogged_bind (mode.checkL_unlogged ..) fun _ => rfl

theorem slotStepL_unlogged :
    unlogged (slotStepL mode env v type p e) = slotStep mode.check env v type p.1 e :=
  unlogged_bind_same fun _ => unlogged_bind (mode.checkL_unlogged ..) fun _ => rfl

end Loops

abbrev LoopL := Int → Val → LSt → Option (Res (LSt × List (List Call)))

def updateAllL (env : Env) (v : VersionHash) (key : Bytes) (s : Store) (loop : LoopL) :
    Res ((Int × Bytes × Store) × List Mark) := do
  match ← getDbVal env v key s with
  | none => .ok ((1, key, s), [])
  | some loc => do
    let c ← deref env loc s
    if s.vers c.obj = v.cur then .ok ((0, key, s), [])
    else
      match loop (s.vers c.obj) c.obj.val ⟨true, key, loc, s⟩ with
      | none => .ok ((0, key, s), [])
      | some r => do
        let p ← r
        let _ ← deref env p.1.loc p.1.s
        .ok ((0, p.1.key, p.1.s.setVers env.d p.1.loc v.cur), [⟨key, s.vers c.obj, c, p.2⟩])

theorem updateAllL_unlogged {env : Env} {v : VersionHash} {key : Bytes} {s : Store} {loopL : LoopL}
    {loop : Int → Val → LSt → Option (Res LSt)}
    (h : ∀ vers val st, (loopL vers val st).map unlogged = loop vers val st) :
    unlogged (updateAllL env v key s loopL) = updateAll env v key s loop := by
  refine unlogged_bind_same fun found => ?_
  cases found with
  | none => rfl
  | some loc =>
    refine unlogged_bind_same fun c => ?_
    rw [← h (s.vers c.obj) c.obj.val ⟨true, key, loc, s⟩]
    split
    · rfl
    · cases loopL (s.vers c.obj) c.obj.val ⟨true, key, loc, s⟩ with
      | none => rfl
      | some r =>
        refine unlogged_bind rfl fun p => ?_
        cases deref env p.1.loc p.1.s <;> rfl

def releasedL {γ : Type} (env : Env) (val : Val) (r : Res (LSt × γ)) : Res (LSt × γ) := do
  let _ ← released env val (unlogged r)
  r

theorem releasedL_unlogged {γ : Type} (env : Env) (val : Val) (r : Res (LSt × γ)) :
    unlogged (releasedL env val r) = released env val (unlogged r) := by
  unfold releasedL
  cases hr : released env val (unlogged r) with
  | error f => rfl
  | ok st => exact (released_ok.mp hr).1

/-- The loop of the container function for a kind, `gather` being its iterator. -/
def elemsLoopL (gather : Val → Res (List Elem)) (type : UType) (mode : Mode) (env : Env)
    (v : VersionHash) : LoopL := fun _ val st => some (releasedL env val do
  let l ← gather val
  l.foldlM (elemStepL mode env v type) (st, []))

def slotsLoopL (mode : Mode) (env : Env) (v : VersionHash) : LoopL := fun vers val st =>
  (ziplistEntries env.cfg val).map fun entries => do
    let l ← zsetSlots env.cfg vers entries
    l.foldlM (slotStepL mode env v (utypeOf val)) (st, [])

abbrev UpdateAllL :=
  Mode → Env → VersionHash → Bytes → Store → Res ((Int × Bytes × Store) × List Mark)

def updateAllSetL : UpdateAllL := fun mode env v key s =>
  updateAllL env v key s (elemsLoopL (gatherSet env.cfg (env.tables key)) .set mode env v)

def updateAllListL : UpdateAllL := fun mode env v key s =>
  updateAllL env v key s (elemsLoopL (gatherList env.cfg) .list mode env v)

def updateAllHashL : UpdateAllL := fun mode env v key s =>
  updateAllL env v key s (elemsLoopL (gatherHash env.cfg (env.tables key)) .hash mode env v)

def updateAllZsetL : UpdateAllL := fun mode env v key s =>
  updateAllL env v key s (slotsLoopL mode env v)

def Records (allL : UpdateAllL) (all : UpdateAll) : Prop :=
  ∀ mode env v key s, unlogged (allL mode env v key s) = all mode.check env v key s

theorem records_elems (gather : Env → Bytes → Val → Res (List Elem)) (type : UType) :
    Records
      (fun mode env v key s => updateAllL env v key s (elemsLoopL (gather env key) type mode env v))
      fun cu env v key s => updateAll env v key s fun _ val st =>
        some (elemsLoop cu env v type (gather env key) val st) := by
  intro mode env v key s
  refine updateAllL_unlogged fun vers val st => ?_
  refine congrArg some ((releasedL_unlogged ..).trans (congrArg _ (unlogged_bind_same fun l => ?_)))
  exact unlogged_foldlM (elemStepL_unlogged mode env v type) l (st, [])

theorem records_set : Records updateAllSetL updateAllSet :=
  records_elems (fun env key => gatherSet env.cfg (env.tables key)) .set

theorem records_list : Records updateAllListL updateAllList :=
  records_elems (fun env _ => gatherList env.cfg) .list

theorem records_hash : Records updateAllHashL updateAllHash :=
  records_elems (fun env key => gatherHash env.cfg (env.tables key)) .hash

theorem records_zset : Records updateAllZsetL updateAllZset := by
  intro mode env v key s
  refine updateAllL_unlogged fun vers val st => ?_
  unfold slotsLoopL
  cases ziplistEntries env.cfg val with
  | none => rfl
  | some entries =>
    refine congrArg some (unlogged_bind_same fun l => ?_)
    exact unlogged_foldlM (slotStepL_unlogged mode env v (utypeOf val)) l (st, [])

/-! ## Handlers -/

/-- The check of a string brings whatever is stored at the key to the current version: a
container as well. -/
def storedMark (mode : Mode) (env : Env) (v : VersionHash) (key : Bytes) (s : Store)
    (calls : List Call) : List Mark :=
  match mode, getDbVal env v key s with
  | .command, .ok (some loc) =>
    match s.get env.d loc with
    | some c =>
      if Val.isSmall c.obj.val ∨ s.vers c.obj = v.cur then []
      else [⟨key, s.vers c.obj, c, [calls]⟩]
    | none => []
  | _, _ => []

def getKeyL (mode : Mode) (env : Env) (v : VersionHash) (key : Bytes) (s : Store) :
    Res ((Bytes × Store) × List Mark) := do
  let q ← mode.checkL env v true key none .string key s
  .ok ((q.1.1, q.1.2.2), storedMark mode env v key s q.2)

def mgetLoopL (mode : Mode) (env : Env) (v : VersionHash) :
    List Arg → Store → Res ((List Arg × Store) × List Mark)
  | [], s => .ok (([], s), [])
  | k :: ks, s => do
    let p ← getKeyL mode env v k.ptr s
    let q ← mgetLoopL mode env v ks p.1.2
    .ok (({ k with ptr := p.1.1 } :: q.1.1, q.1.2), p.2 ++ q.2)

def onKeyL (f : Bytes → Store → Res ((Bytes × Store) × List Mark)) (args : List Arg) (s : Store) :
    Res ((List Arg × Store) × List Mark) :=
  match args with
  | [] => .error .segv
  | k :: rest => do
    let p ← f k.ptr s
    .ok (({ k with ptr := p.1.1 } :: rest, p.1.2), p.2)

/-- A handler of a container command, `creates` when it may create the container. -/
def containerL (creates : Bool) (allL : UpdateAllL) (mode : Mode) (env : Env) (v : VersionHash) :
    List Arg → Store → Res ((List Arg × Store) × List Mark) :=
  onKeyL fun key s => do
    let p ← allL mode env v key s
    let s := if creates ∧ p.1.1 = 1 then newVersion env v p.1.2.1 p.1.2.2 else p.1.2.2
    .ok ((p.1.2.1, s), p.2)

/-- What a handler goes through: a string, or the elements of a container. -/
def HName.checks : HName → Option UType
  | .get | .mget | .getset | .getrange => some .string
  | .sadd | .scard | .spop | .smembers | .sismember | .srem => some .set
  | .zadd | .zcard | .zscore | .zrem | .zrange | .zrevrange => some .zset
  | .lrange | .lpush | .lpop | .llen | .lset | .rpush | .rpop => some .list
  | .hdel | .hget | .hgetall | .hset | .hmset | .hmget => some .hash
  | .set | .mset | .incr | .incrby | .del | .setnx | .keys => none

/-- A handler with the marks it sets; a handler that checks nothing sets none. -/
def HName.runL (h : HName) (mode : Mode) (env : Env) (v : VersionHash) (args : List Arg)
    (s : Store) : Res ((List Arg × Store) × List Mark) :=
  match h.checks with
  | some .string =>
    if h = .mget then mgetLoopL mode env v args s else onKeyL (getKeyL mode env v) args s
  | some .set => containerL h.creates updateAllSetL mode env v args s
  | some .zset => containerL h.creates updateAllZsetL mode env v args s
  | some .list => containerL h.creates updateAllListL mode env v args s
  | some .hash => containerL h.creates updateAllHashL mode env v args s
  | none => do .ok (← h.run mode.check env v args s, [])

section Handlers

variable (mode : Mode) (env : Env) (v : VersionHash)

theorem getKeyL_unlogged (key : Bytes) (s : Store) :
    unlogged (getKeyL mode env v key s) = getKey mode.check env v key s :=
  unlogged_bind (mode.checkL_unlogged ..) fun _ => rfl

theorem mgetLoopL_unlogged (args : List Arg) (s : Store) :
    unlogged (mgetLoopL mode env v args s) = mgetLoop mode.check env v args s := by
  induction args generalizing s with
  | nil => rfl
  | cons k ks ih =>
    refine unlogged_bind (getKeyL_unlogged mode env v k.ptr s) fun p => ?_
    exact unlogged_bind (ih p.1.2) fun q => rfl

theorem onKeyL_unlogged {fl : Bytes → Store → Res ((Bytes × Store) × List Mark)}
    {f : Bytes → Store → Res (Bytes × Store)} (hf : ∀ key s, unlogged (fl key s) = f key s)
    (args : List Arg) (s : Store) : unlogged (onKeyL fl args s) = onKey f args s := by
  cases args with
  | nil => rfl
  | cons k rest => exact unlogged_bind (hf k.ptr s) fun p => rfl

variable {allL : UpdateAllL} {all : UpdateAll}

theorem migrating_unlogged (h : Records allL all) (args : List Arg) (s : Store) :
    unlogged (containerL false allL mode env v args s) = migrating all mode.check env v args s :=
  onKeyL_unlogged (fun _ _ => unlogged_bind (h ..) fun _ => rfl) args s

theorem creating_unlogged (h : Records allL all) (args : List Arg) (s : Store) :
    unlogged (containerL true allL mode env v args s) = creating all mode.check env v args s := by
  refine onKeyL_unlogged (fun _ _ => unlogged_bind (h ..) fun p => ?_) args s
  simp only [true_and, unlogged_ok]

/-- **Without the log the handlers are those of the server.** -/
theorem HName.runL_unlogged (h : HName) (args : List Arg) (s : Store) :
    unlogged (h.runL mode env v args s) = h.run mode.check env v args s := by
  cases h with
  | get | getset | getrange => exact onKeyL_unlogged (getKeyL_unlogged mode env v) args s
  | mget => exact mgetLoopL_unlogged mode env v args s
  | sadd => exact creating_unlogged mode env v records_set args s
  | zadd => exact creating_unlogged mode env v records_zset args s
  | lpush | rpush => exact creating_unlogged mode env v records_list args s
  | hset | hmset => exact creating_unlogged mode env v records_hash args s
  | scard | spop | smembers | sismember | srem =>
    exact migrating_unlogged mode env v records_set args s
  | zcard | zscore | zrem | zrange | zrevrange =>
    exact migrating_unlogged mode env v records_zset args s
  | lrange | lpop | llen | lset | rpop => exact migrating_unlogged mode env v records_list args s
  | hdel | hget | hgetall | hmget => exact migrating_unlogged mode env v records_hash args s
  | set | mset | incr | incrby | del | setnx | keys =>
    exact (unlogged_bind_same fun _ => rfl).trans (bind_pure _)

end Handlers

end SchemaUpdate.KVolve
