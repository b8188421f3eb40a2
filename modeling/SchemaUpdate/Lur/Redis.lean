import SchemaUpdate.Lib.Bytes
import SchemaUpdate.Lib.Dict
import SchemaUpdate.Lib.Prog

/-! # Redis as the Python client uses it

String keys with expire times, the version list of each namespace and the hash of
the update texts, with the commands the client issues. The bookkeeping keys are kept
apart from the data. `WATCH` hands out the number of times its key was touched, and
a transaction carries those numbers: it is aborted exactly when one of them has
changed. -/

namespace SchemaUpdate.Lur

open SchemaUpdate.Lib

abbrev Ver := Bytes
abbrev Ns := Bytes

/-- A string value with the time in milliseconds at which it expires. -/
structure Item where
  val : Bytes
  expire : Option Int := none
  deriving DecidableEq

/-- `(version_from, version_to, oldns, ns)`. -/
structure UpdName where
  old : Ver
  new : Ver
  oldns : Ns
  ns : Ns
  deriving DecidableEq

/-- What can be watched: a data key, `UPDATE_VERSIONS_ns` or `UPDATE_DSL_STRINGS`. -/
inductive RKey
  | data (k : Bytes)
  | versions (ns : Ns)
  | dsl
  deriving DecidableEq

structure Redis where
  data : Dict Bytes Item
  -- newest first; a list without entries is no key
  versions : Ns → List (Ver × Ns)
  dsl : Dict UpdName Bytes
  touched : RKey → Nat
  now : Int

namespace Redis

def init (now : Int) : Redis := ⟨∅, fun _ => [], ∅, fun _ => 0, now⟩

variable (r : Redis) (k : Bytes)

/-- What is found under a key; an expired value is not. -/
def find : Option Item :=
  (r.data.lookup k).filter fun x => x.expire.all (r.now < ·)

def val? : Option Bytes := (r.find k).map (·.val)

def touch (k : RKey) : Redis :=
  { r with touched := Function.update r.touched k (r.touched k + 1) }

def put (x : Option Item) : Redis :=
  { r with data := r.data.put k x }.touch (.data k)

/-- `DEL` of one key; a key that is not there is not touched. -/
def del : Redis := if (r.find k).isSome then r.put k none else r

def setVersions (ns : Ns) (l : List (Ver × Ns)) : Redis :=
  { r with versions := Function.update r.versions ns l }.touch (.versions ns)

end Redis

/-! ## Transactions -/

/-- The commands that are queued in a pipeline. -/
inductive Write
  | set (k v : Bytes)
  | psetex (k : Bytes) (ms : Int) (v : Bytes)
  | del (k : Bytes)
  | rename (src dst : Bytes)
  | lpush (ns : Ns) (e : Ver × Ns)
  | rpush (ns : Ns) (l : List (Ver × Ns))
  | delVersions (ns : Ns)
  | hset (f : UpdName) (text : Bytes)

/-- The effect of a queued command; `false` is an error reply. -/
def Write.apply : Write → Redis → Bool × Redis
  | .set k v, r => (true, r.put k (some ⟨v, none⟩))
  | .psetex k ms v, r =>
    if ms ≤ 0 then (false, r) else (true, r.put k (some ⟨v, some (r.now + ms)⟩))
  | .del k, r => (true, r.del k)
  | .rename src dst, r =>
    match r.find src with
    | none => (false, r)
    | some x => if src = dst then (false, r) else (true, (r.put src none).put dst (some x))
  | .lpush ns e, r => (true, r.setVersions ns (e :: r.versions ns))
  | .rpush ns l, r => (true, r.setVersions ns (r.versions ns ++ l))
  | .delVersions ns, r => (true, if r.versions ns = [] then r else r.setVersions ns [])
  | .hset f text, r => (true, { r with dsl := r.dsl.put f (some text) }.touch .dsl)

/-- All queued commands are carried out, also after one that failed. -/
def applyAll : List Write → Redis → Bool × Redis
  | [], r => (true, r)
  | w :: ws, r =>
    let out := w.apply r
    let rest := applyAll ws out.2
    (out.1 && rest.1, rest.2)

/-- The watched keys of a pipeline, as they were when they were watched. -/
abbrev Watch := List (RKey × Nat)

def Redis.clean (r : Redis) (w : Watch) : Bool := w.all fun p => r.touched p.1 = p.2

/-! ## Commands -/

structure SetOpts where
  ex : Option Int := none
  px : Option Int := none
  nx : Bool := false
  xx : Bool := false
  deriving DecidableEq

/-- The expire time of a `SET`: the last of `EX` and `PX` counts, and what is not positive
is an error. -/
def SetOpts.expire (o : SetOpts) (now : Int) : Except Unit (Option Int) :=
  match o.px, o.ex with
  | some ms, _ => if ms ≤ 0 then .error () else .ok (some (now + ms))
  | none, some s => if s ≤ 0 then .error () else .ok (some (now + s * 1000))
  | none, none => .ok none

inductive Cmd
  | get (k : Bytes)
  | mget (ks : List Bytes)
  | setnx (k v : Bytes)
  | set (k v : Bytes) (o : SetOpts)
  | getset (k v : Bytes)
  | del (ks : List Bytes)
  | pttl (k : Bytes)
  | ttl (k : Bytes)
  -- the pattern, as the set of the keys it matches
  | keys (pattern : Bytes → Bool)
  | existsVersions (ns : Ns)
  | lrange (ns : Ns)
  | hget (f : UpdName)
  | hgetall
  | watch (k : RKey)
  | exec (w : Watch) (l : List Write)
  -- no command: time passes
  | tick (ms : Nat)

abbrev Cmd.Reply : Cmd → Type
  | .get _ | .getset _ _ | .hget _ => Option Bytes
  | .mget _ => List (Option Bytes)
  | .setnx _ _ | .existsVersions _ => Bool
  -- an error, or whether the key was set
  | .set _ _ _ => Except Unit Bool
  | .del _ => Nat
  | .pttl _ | .ttl _ => Int
  | .keys _ => List Bytes
  | .lrange _ => List (Ver × Ns)
  | .hgetall => List (UpdName × Bytes)
  | .watch _ => Nat
  -- aborted, or whether all commands succeeded
  | .exec _ _ => Option Bool
  | .tick _ => Unit

def Redis.pttl (r : Redis) (k : Bytes) : Int :=
  match r.find k with
  | none => -2
  | some ⟨_, none⟩ => -1
  | some ⟨_, some t⟩ => t - r.now

def serveSet (k v : Bytes) (o : SetOpts) (r : Redis) : Except Unit Bool × Redis :=
  match o.expire r.now with
  | .error e => (.error e, r)
  | .ok expire =>
    if (o.nx && (r.find k).isSome) || (o.xx && (r.find k).isNone) then (.ok false, r)
    else (.ok true, r.put k (some ⟨v, expire⟩))

/-- What a command answers and what it does. -/
def serve : (c : Cmd) → Redis → c.Reply × Redis
  | .get k, r => (r.val? k, r)
  | .mget ks, r => (ks.map r.val?, r)
  | .setnx k v, r =>
    if (r.find k).isSome then (false, r) else (true, r.put k (some ⟨v, none⟩))
  | .set k v o, r => serveSet k v o r
  | .getset k v, r => (r.val? k, r.put k (some ⟨v, none⟩))
  | .del ks, r => ((ks.dedup.filter fun k => (r.find k).isSome).length, ks.foldl Redis.del r)
  | .pttl k, r => (r.pttl k, r)
  | .ttl k, r => (if r.pttl k < 0 then r.pttl k else (r.pttl k + 500) / 1000, r)
  | .keys p, r => (r.data.keys.filter fun k => p k && (r.find k).isSome, r)
  | .existsVersions ns, r => (!(r.versions ns).isEmpty, r)
  | .lrange ns, r => (r.versions ns, r)
  | .hget f, r => (r.dsl.lookup f, r)
  | .hgetall, r => (r.dsl.entries.map fun p => (p.1, p.2), r)
  | .watch k, r => (r.touched k, r)
  | .exec w l, r =>
    if r.clean w then
      let out := applyAll l r
      (some out.1, out.2)
    else (none, r)
  | .tick ms, r => ((), { r with now := r.now + ms })

/-! ## What the commands change -/

namespace Redis

variable (r : Redis) (k j : Bytes) (x : Option Item) (ns : Ns) (l : List (Ver × Ns)) (y : RKey)

@[simp] theorem touch_find : (r.touch y).find k = r.find k := rfl
@[simp] theorem touch_versions : (r.touch y).versions = r.versions := rfl
@[simp] theorem touch_dsl : (r.touch y).dsl = r.dsl := rfl
@[simp] theorem touch_now : (r.touch y).now = r.now := rfl
@[simp] theorem put_versions : (r.put k x).versions = r.versions := rfl
@[simp] theorem put_dsl : (r.put k x).dsl = r.dsl := rfl
@[simp] theorem put_now : (r.put k x).now = r.now := rfl
@[simp] theorem setVersions_find : (r.setVersions ns l).find k = r.find k := rfl
@[simp] theorem setVersions_dsl : (r.setVersions ns l).dsl = r.dsl := rfl
@[simp] theorem setVersions_now : (r.setVersions ns l).now = r.now := rfl
@[simp] theorem setVersions_versions :
    (r.setVersions ns l).versions = Function.update r.versions ns l := rfl

@[simp]
theorem lookup_put_data :
    (r.put k x).data.lookup j = if j = k then x else r.data.lookup j := Dict.lookup_put ..

theorem find_put : (r.put k x).find j =
    if j = k then x.filter fun y => y.expire.all (r.now < ·) else r.find j := by
  unfold find put
  show Option.filter _ ((r.data.put k x).lookup j) = _
  rw [Dict.lookup_put]
  split <;> rfl

@[simp]
theorem find_put_none : (r.put k none).find j = if j = k then none else r.find j := find_put ..

@[simp]
theorem find_put_lasting (v : Bytes) :
    (r.put k (some ⟨v, none⟩)).find j = if j = k then some ⟨v, none⟩ else r.find j := find_put ..

theorem live_of_find {r : Redis} {k : Bytes} {x : Item} (h : r.find k = some x) :
    x.expire.all (r.now < ·) = true :=
  (Option.filter_eq_some_iff.mp h).2

theorem find_put_live {r : Redis} {x : Item} (h : x.expire.all (r.now < ·) = true)
    (k j : Bytes) : (r.put k (some x)).find j = if j = k then some x else r.find j := by
  rw [find_put, Option.filter_some, if_pos h]

@[simp]
theorem find_del : (r.del k).find j = if j = k then none else r.find j := by
  unfold del
  split
  · exact find_put_none r k j
  · rename_i hk
    split
    · rename_i hj
      rw [hj]
      simpa using hk
    · rfl

@[simp] theorem del_versions : (r.del k).versions = r.versions := by unfold del; split <;> rfl
@[simp] theorem del_dsl : (r.del k).dsl = r.dsl := by unfold del; split <;> rfl
@[simp] theorem del_now : (r.del k).now = r.now := by unfold del; split <;> rfl

theorem find_delAll (ks : List Bytes) :
    (ks.foldl Redis.del r).find j = if j ∈ ks then none else r.find j := by
  induction ks generalizing r with
  | nil => simp
  | cons k ks ih =>
    rw [List.foldl_cons, ih, find_del]
    by_cases hj : j ∈ ks <;> by_cases hk : j = k <;> simp [hj, hk]

end Redis

section Rel

variable {rel : Redis → Redis → Prop} (hrefl : ∀ r, rel r r)
  (htrans : ∀ {r s t}, rel r s → rel s t → rel r t) (hput : ∀ r k x, rel r (Redis.put r k x))
  (hversions : ∀ r ns l, rel r (Redis.setVersions r ns l))
  (hhset : ∀ r f text, rel r (Redis.touch { r with dsl := r.dsl.put f (some text) } .dsl))

include hrefl hput in
theorem Redis.del_rel (r : Redis) (k : Bytes) : rel r (r.del k) := by
  unfold Redis.del
  split
  · exact hput r k none
  · exact hrefl r

include hrefl htrans hput in
theorem Redis.delAll_rel (ks : List Bytes) (r : Redis) : rel r (ks.foldl Redis.del r) := by
  induction ks generalizing r with
  | nil => exact hrefl r
  | cons k ks ih => exact htrans (Redis.del_rel hrefl hput r k) (ih (r.del k))

include hrefl htrans hput hversions hhset

theorem Write.apply_rel (w : Write) (r : Redis) : rel r (w.apply r).2 := by
  cases w with
  | set k v => exact hput ..
  | psetex k ms v =>
    simp only [Write.apply]
    split
    · exact hrefl r
    · exact hput ..
  | del k => exact Redis.del_rel hrefl hput r k
  | rename src dst =>
    simp only [Write.apply]
    cases r.find src with
    | none => exact hrefl r
    | some x =>
      simp only
      split
      · exact hrefl r
      · exact htrans (hput ..) (hput ..)
  | lpush ns e => exact hversions ..
  | rpush ns l => exact hversions ..
  | delVersions ns =>
    simp only [Write.apply]
    split
    · exact hrefl r
    · exact hversions ..
  | hset f text => exact hhset ..

theorem applyAll_rel (l : List Write) (r : Redis) : rel r (applyAll l r).2 := by
  induction l generalizing r with
  | nil => exact hrefl r
  | cons w l ih => exact htrans (Write.apply_rel hrefl htrans hput hversions hhset w r) (ih _)

/-- What holds between a store and the store after each single write holds for every command. -/
theorem serve_rel {cmd : Cmd} (hcmd : ∀ ms, cmd ≠ .tick ms) (r : Redis) :
    rel r (serve cmd r).2 := by
  cases cmd with
  | setnx k v =>
    simp only [serve]
    split
    · exact hrefl r
    · exact hput ..
  | set k v o =>
    simp only [serve, serveSet]
    split
    · exact hrefl r
    · split
      · exact hrefl r
      · exact hput ..
  | getset k v => exact hput ..
  | del ks => exact Redis.delAll_rel hrefl htrans hput ks r
  | exec w l =>
    simp only [serve]
    split
    · exact applyAll_rel hrefl htrans hput hversions hhset l r
    · exact hrefl r
  | tick ms => exact absurd rfl (hcmd ms)
  | _ => exact hrefl r

end Rel

end SchemaUpdate.Lur
