import SchemaUpdate.KVolve.Walk

/-! # Elements of containers under update

What the migration takes out of a container (`robj_array`), and the helpers that
write a changed element back by running Redis commands on the client's key. -/

namespace SchemaUpdate.KVolve

open SchemaUpdate.Lib SchemaUpdate.Redis

/-- The `type` argument of `kvolve_check_update_kv_pair`. -/
inductive UType
  | string | set | zset | hash | list
  deriving DecidableEq

def utypeOf : Val → UType
  | .str _ => .string
  | .list _ _ => .list
  | .set _ _ => .set
  | .hash _ _ => .hash
  | .zset _ _ => .zset

/-- An element object with what travels beside it: the score of a sorted set member, the
value of a hash field. -/
structure Elem where
  obj : Str
  vers : Int := 0
  score : Double := 0
  fval : Option Str := none
  -- the place at which the gathered object itself is held: in the container, or as a shared one
  own : Option Nat := none
  -- the table under the iterator that gathered it
  dict : Option Table := none

def Str.isShared : Str → Bool
  | .int _ shared => shared
  | .raw _ => false

def freshElem (o : Str) : Elem := { obj := o, own := if Str.isShared o then some 0 else none }

/-- The object or its value is still held elsewhere. -/
def Elem.held (e : Elem) : Bool := e.own.isSome || e.fval.any Str.isShared

/-! ## Gathering -/

variable (cfg : Cfg) (env : Env) (tbl : Table) (vers : Int) (b : Bytes) (key : Bytes) (loc : Bytes)
  (s : Store)

/-- The object made for an entry of a ziplist or an intset. -/
def ofZiplist : Str :=
  match string2ll b with
  | some n => createStringObjectFromLongLong n
  | none => .raw b

/-- `setTypeInitIterator` and its loop: the encoding decides, not the type. The members are
not freed afterwards. -/
def gatherSet : Val → Res (List Elem)
  | .set .intset ms => .ok (ms.items.map fun b => { obj := ofZiplist b })
  | .set .ht ms => .ok (ms.items.map fun b => { obj := tryObjectEncoding cfg b, dict := tbl })
  | .hash .ht fs => .ok (fs.keys.map fun b => { obj := tryObjectEncoding cfg b, dict := tbl })
  | _ => .error .panic

def ziplistEntries : Val → Option (List Bytes)
  | .list .ziplist xs => some xs.1
  | .hash .ziplist fs => some (fs.items.flatMap fun p => [p.1, p.2])
  | .zset .ziplist ms => some (ms.items.flatMap fun p => [p.1, cfg.d2string p.2])
  | _ => none

def gatherList (v : Val) : Res (List Elem) :=
  match v with
  | .list .linkedlist xs =>
    .ok (xs.1.mapIdx fun i b => { obj := tryObjectEncoding cfg b, own := some i })
  | v =>
    match ziplistEntries cfg v with
    | some l => .ok (l.map fun b => freshElem (ofZiplist b))
    | none => .error .panic

/-- Fields and values by position; an odd entry fails the assertion of `hashTypeNext`. -/
def gatherPairs : List Bytes → Res (List Elem)
  | [] => .ok []
  | [_] => .error .assertFail
  | f :: v :: rest => do
    let l ← gatherPairs rest
    .ok ({ freshElem (ofZiplist f) with fval := some (ofZiplist v) } :: l)

def gatherHash (v : Val) : Res (List Elem) :=
  match v with
  | .hash .ht fs => .ok (fs.items.map fun p =>
      { obj := tryObjectEncoding cfg p.1, fval := some (tryObjectEncoding cfg p.2), own := some 0,
        dict := tbl })
  -- the entries of a set have no value
  | .set .ht _ => .error .segv
  | v =>
    match ziplistEntries cfg v with
    | some l => gatherPairs l
    | none => .error .panic

def zzlGetScore : Double :=
  match string2ll b with
  | some n => cfg.ofInt n
  | none => cfg.strtod b

/-- The loop over a sorted set's ziplist: an integer entry is passed over, any other is
taken as a member and the entry after it as its score. -/
def gatherZiplist (cfg : Cfg) (vers : Int) : List Bytes → Res (List Elem)
  | [] => .ok []
  | e :: rest =>
    match string2ll e with
    | some _ => gatherZiplist cfg vers rest
    | none =>
      match rest with
      | [] => .error .assertFail
      | sc :: rest' => do
        let l ← gatherZiplist cfg vers rest'
        .ok ({ obj := .raw e, vers := vers, score := zzlGetScore cfg sc } :: l)

/-- `robj_array` of a sorted set, with the slots the loop left null. -/
def zsetSlots (entries : List Bytes) : Res (List (Option Elem)) := do
  let l ← gatherZiplist cfg vers entries
  .ok (l.map some ++ List.replicate (entries.length / 2 - l.length) none)

theorem gatherZiplist_raw {cfg : Cfg} {vers : Int} {entries : List Bytes} {l : List Elem}
    (h : gatherZiplist cfg vers entries = .ok l) :
    ∀ e ∈ l, ∃ b sc, e = { obj := .raw b, vers := vers, score := sc } ∧ string2ll b = none := by
  fun_induction gatherZiplist cfg vers entries generalizing l with
  | case1 =>
    cases h
    simp
  | case2 b rest n hn ih => exact ih h
  | case3 => cases h
  | case4 b hn sc rest ih =>
    obtain ⟨l', hl', h⟩ := bind_eq_ok.mp h
    cases h
    exact List.forall_mem_cons.mpr ⟨⟨b, _, rfl, hn⟩, ih hl'⟩

theorem gatherZiplist_pairs {ps : List (Bytes × Bytes)} (h : ∀ p ∈ ps, string2ll p.1 = none) :
    gatherZiplist cfg vers (ps.flatMap fun p => [p.1, p.2]) =
      .ok (ps.map fun p => { obj := .raw p.1, vers := vers, score := zzlGetScore cfg p.2 }) := by
  induction ps with
  | nil => rfl
  | cons p ps ih =>
    obtain ⟨hp, hps⟩ := List.forall_mem_cons.mp h
    rw [List.flatMap_cons, List.map_cons]
    simp only [List.cons_append, List.nil_append, gatherZiplist, hp, ih hps, ok_bind]

theorem zsetSlots_pairs (ps : List (Bytes × Bytes)) (h : ∀ p ∈ ps, string2ll p.1 = none) :
    zsetSlots cfg vers (ps.flatMap fun p => [p.1, p.2]) =
      .ok (ps.map fun p =>
        some { obj := .raw p.1, vers := vers, score := zzlGetScore cfg p.2 }) := by
  have hlen : (ps.flatMap fun p => [p.1, p.2]).length / 2 = ps.length := by
    simp [List.length_flatMap]
  unfold zsetSlots
  rw [gatherZiplist_pairs cfg vers h, ok_bind, hlen, List.length_map, Nat.sub_self,
    List.replicate_zero, List.append_nil, List.map_map]
  rfl

/-- **The loop over a sorted set's ziplist** takes exactly the members and scores, and fills
every slot, if and only if no member is stored as an integer; the scores may be. -/
theorem zset_gathered_iff (cfg : Cfg) (vers : Int) (ps : List (Bytes × Bytes)) :
    (∃ l : List Elem, zsetSlots cfg vers (ps.flatMap fun p => [p.1, p.2]) = .ok (l.map some) ∧
      l.map (fun e => (e.obj.bytes, e.score)) = ps.map fun p => (p.1, zzlGetScore cfg p.2)) ↔
    ∀ p ∈ ps, string2ll p.1 = none := by
  constructor
  · rintro ⟨l, hslots, hpairs⟩ p hp
    obtain ⟨l', hl', hslots⟩ := bind_eq_ok.mp hslots
    -- no slot is null, so the slots are what the loop took
    have hslots : l'.map some ++ List.replicate _ none = l.map some := Except.ok.inj hslots
    have hl : ∀ e ∈ l, e ∈ l' := fun e he => by
      have hmem : some e ∈ l.map some := List.mem_map_of_mem he
      rw [← hslots] at hmem
      simpa using hmem
    have hmem : (p.1, zzlGetScore cfg p.2) ∈ l.map fun e => (e.obj.bytes, e.score) := by
      rw [hpairs]
      exact List.mem_map_of_mem (f := fun p => (p.1, zzlGetScore cfg p.2)) hp
    obtain ⟨e, he, heq⟩ := List.mem_map.mp hmem
    obtain ⟨b, sc, rfl, hb⟩ := gatherZiplist_raw hl' e (hl e he)
    have hbytes : b = p.1 := (Prod.mk.inj heq).1
    rw [← hbytes]
    exact hb
  · intro h
    refine ⟨ps.map fun p => { obj := .raw p.1, vers := vers, score := zzlGetScore cfg p.2 },
      ?_, ?_⟩
    · rw [zsetSlots_pairs cfg vers ps h, List.map_map]
      rfl
    · rw [List.map_map]
      rfl

/-- The member `5` with the score `1.5`, and `a` with `2`: the score `1.5` is taken as a member,
and one slot stays null. -/
theorem zset_gather_slips : ∃ e, zsetSlots {} 0 [lit "5", lit "1.5", lit "a", lit "2"] =
    .ok [some e, none] ∧ e.obj = .raw (lit "1.5") := ⟨_, rfl, rfl⟩

/-! ## Writing an element back -/

/-- Run a command's procedure on the client's key in the client's database. -/
def runProc (p : KeyProc) (s : Store) : Store :=
  s.setDb env.d ((⟨key, 0, p⟩ : Step).exec env.now (s.dbs env.d)).2

def Store.val? (d : Nat) (k : Bytes) : Option Val := (s.get d k).map (·.obj.val)

/-- The container the element came from is read again after the element is done. -/
def deref : Res Entry :=
  match s.get env.d loc with
  | some e => .ok e
  | none => .error .freed

/-- `zfree` of an element and its value when their turn is over: what is held elsewhere is
left dangling there. -/
def Elem.free (e : Elem) : Res Unit :=
  if e.held then do
    let _ ← deref env loc s
    .error .useAfterFree
  else .ok ()

/-- The container is not about to be deleted by the lookup of the next command. -/
def derefLive : Res Entry := do
  let e ← deref env loc s
  if e.alive env.now then .ok e else .error .freed

/-- The new element object after a command that tries to encode it: a shared integer
takes its place and the object is freed. -/
def encodeNew : Res Str :=
  match tryObjectEncoding cfg b with
  | .int _ true => .error .useAfterFree
  | o => .ok o

/-- The C string of an object's `ptr`; an integer is no pointer. -/
def textOf : Str → Res Bytes
  | .raw b => .ok (cstr b)
  | .int _ _ => .error .segv

/-- The member object after `SADD`, which encodes it when it gets as far as a set. -/
def setElemObj (new : Bytes) : Option Val → Res Str
  | none | some (.set _ _) => encodeNew cfg new
  | some _ => .ok (.raw new)

def setUsed : Val → Option Nat
  | .set .ht ms => some ms.items.length
  | _ => none

def hashUsed : Val → Option Nat
  | .hash .ht fs => some fs.items.length
  | _ => none

/-- The table under the iterator stays as it is while an entry is added to the `n` there are and
one is taken out of the `n'` there are then. What happens to it otherwise is not undone before
`dictReleaseIterator`, which fails. -/
def Table.keeps (t : Table) (n n' left : Nat) : Bool :=
  t.addKeeps n && (left == n' || t.delKeeps left)

/-- The assertion fails when the iterator stands on a table that two commands do not leave as it
is. -/
def tableCheck (tbl : Option Table) (n n' left : Option Nat) : Res Unit :=
  if tbl.any fun t => n.any fun n => !t.keeps n (n'.getD 0) (left.getD 0) then .error .assertFail
  else .ok ()

def checkTable (used : Val → Option Nat) (e : Elem) (s s₁ s₂ : Store) : Res Unit :=
  let count (s : Store) : Option Nat := (s.val? env.d loc).bind used
  if key = loc then tableCheck e.dict (count s) (count s₁) (count s₂) else .ok ()

theorem checkTable_congr {env : Env} {key loc : Bytes} {used : Val → Option Nat} {e : Elem}
    {s s₁ s₂ t t₁ t₂ : Store} (h : t.val? env.d loc = s.val? env.d loc)
    (h₁ : t₁.val? env.d loc = s₁.val? env.d loc) (h₂ : t₂.val? env.d loc = s₂.val? env.d loc) :
    checkTable env key loc used e t t₁ t₂ = checkTable env key loc used e s s₁ s₂ := by
  simp only [checkTable, h, h₁, h₂]

def updateSetElem (b : Bytes) (e : Elem) (s : Store) : Res (Elem × Store) := do
  let _ ← derefLive env loc s
  let obj ← setElemObj env.cfg (cstr b) (s.val? env.d key)
  let s₁ := runProc env key (saddProc env.cfg [cstr b]) s
  let s₂ := runProc env key (sremProc [e.obj.bytes]) s₁
  let _ ← deref env loc s₂
  let _ ← checkTable env key loc setUsed e s s₁ s₂
  .ok ({ e with obj := obj }, s₂)

/-- `listTypeEqual` asserts that the pivot is raw when the list is a ziplist. -/
def checkPivot (new : Bytes) : Str → Option Val → Res Unit
  | .int _ _, some (.list .ziplist _) =>
    if listTypeTryConversion cfg .ziplist new = .ziplist then .error .assertFail else .ok ()
  | _, _ => .ok ()

/-- The place of the gathered object after `LINSERT` and `LREM`, which take the first equal
element: its own place is left when it is that element and the new one is not. -/
def listOwn (old new : Bytes) (own : Option Nat) : Option Val → Option Nat
  | some (.list _ xs) => if own = some (xs.1.idxOf old) ∧ new ≠ old then none else own
  | _ => own

def updateListElem (b : Bytes) (e : Elem) (s : Store) : Res (Elem × Store) := do
  let _ ← derefLive env loc s
  let obj ← encodeNew env.cfg (cstr b)
  let _ ← checkPivot env.cfg (cstr b) e.obj (s.val? env.d key)
  let own := listOwn e.obj.bytes (cstr b) e.own (s.val? env.d key)
  let s := runProc env key (linsertBeforeProc env.cfg e.obj.bytes (cstr b)) s
  let s := runProc env key (lremOneProc e.obj.bytes) s
  let _ ← deref env loc s
  .ok ({ e with obj := obj, own := own }, s)

def encodeField (enc : HashEnc) (f v : Bytes) : Res Str :=
  match hashTypeTryConversion cfg enc [f, v] with
  | .ht => encodeNew cfg f
  | .ziplist => .ok (.raw f)

/-- The field object after `HSET`: a hash table stores the encoded field, whose `ptr` is
compared after the command. -/
def hashElemObj (f v : Bytes) : Option Val → Res Str
  | some (.hash enc _) => encodeField cfg enc f v
  | none => encodeField cfg .ziplist f v
  | some _ => .ok (.raw f)

def updateHashElem (f v : Bytes) (e : Elem) (s : Store) : Res (Elem × Store) := do
  let _ ← derefLive env loc s
  let obj ← hashElemObj env.cfg (cstr f) (cstr v) (s.val? env.d key)
  let s₁ := runProc env key (hsetProc env.cfg [(cstr f, cstr v)] fun _ => ok) s
  let _ ← textOf obj
  let old ← textOf e.obj
  let s₂ := if old ≠ cstr f then runProc env key (hdelProc [e.obj.bytes]) s₁ else s₁
  let _ ← deref env loc s₂
  let _ ← checkTable env key loc hashUsed e s s₁ s₂
  .ok ({ e with obj := obj, own := if old ≠ cstr f then none else e.own }, s₂)

/-- The member object after `ZADD`, which encodes it for a skip list. -/
def zsetElemObj (m : Bytes) : Option Val → Res Str
  | some (.zset .skiplist _) => encodeNew cfg m
  | none =>
    if cfg.zsetMaxZiplistEntries = 0 ∨ cfg.zsetMaxZiplistValue < m.length then encodeNew cfg m
    else .ok (.raw m)
  | some _ => .ok (.raw m)

/-- The `ZADD` of a changed member; the score makes a detour through its text. -/
def zaddElem (m : Bytes) (score : Double) (s : Store) : Res (Str × Store) :=
  match env.cfg.getDouble (env.cfg.fmtF score) with
  | some d => do
    let obj ← zsetElemObj env.cfg m (s.val? env.d key)
    .ok (obj, runProc env key (zaddProc env.cfg [(m, d)]) s)
  | none => .ok (.raw m, s)

def updateZsetElem (m : Bytes) (score : Double) (e : Elem) (s : Store) : Res (Elem × Store) := do
  let _ ← derefLive env loc s
  let out ← zaddElem env key (cstr m) score s
  let s := if cstr e.obj.bytes ≠ cstr m then runProc env key (zremProc [e.obj.bytes]) out.2
    else out.2
  let _ ← deref env loc s
  .ok ({ e with obj := out.1 }, s)

end SchemaUpdate.KVolve
