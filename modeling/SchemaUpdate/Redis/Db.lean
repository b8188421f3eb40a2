import SchemaUpdate.Redis.Object

/-! # One key at a time

Every Redis command modelled here touches the keyspace through the slots of the
keys it names: it looks a key up, which first deletes it when it has expired,
computes a reply from the value alone, and then keeps, changes, replaces or
deletes the slot. Commands are therefore given as procedures on the value, and
neither a reply nor a new value can depend on a version field. -/

namespace SchemaUpdate.Redis

open SchemaUpdate.Lib

/-- What a command does to the slot of a key. -/
inductive Act
  | keep
  -- the stored object is changed in place
  | modify (v : Val)
  -- `dbAdd` of a new object
  | create (v : Val)
  -- `dbOverwrite` by a new object, the expire time stays
  | overwrite (v : Val)
  -- `setKey` of an argument object, the expire time is replaced
  | assign (v : Val) (expire : Option Int)
  | setExpire (w : Int)
  | delete

variable (now : Int) (db : Db) (k : Bytes) (tag : Int) (st : Step)

/-- The slot after a command; `tag` is the version field of the argument object
that `setKey` stores. Objects that Redis makes itself have version 0. -/
def Act.apply : Act → Option Entry → Option Entry
  | .keep, e => e
  | .modify v, e => e.map fun e => { e with obj := { e.obj with val := v } }
  | .create v, _ => some ⟨⟨0, v⟩, none⟩
  | .overwrite v, e => some ⟨⟨0, v⟩, e.bind (·.expire)⟩
  | .assign v x, _ => some ⟨⟨if v.isShared then 0 else tag, v⟩, x⟩
  | .setExpire w, e => e.map fun e => { e with expire := some w }
  | .delete, _ => none

def Entry.alive (e : Entry) : Bool :=
  match e.expire with
  | some w => w < 0 || now ≤ w
  | none => true

theorem Entry.alive_congr {e e' : Entry} (h : e.expire = e'.expire) (now : Int) :
    e'.alive now = e.alive now := by
  unfold Entry.alive
  rw [h]

def expireIfNeeded : Db :=
  match db.lookup k with
  | some e => if e.alive now then db else db.put k none
  | none => db

/-- `lookupKeyRead` and `lookupKeyWrite`. -/
def liveEntry : Option Entry :=
  (db.lookup k).filter (·.alive now)

theorem lookup_expireIfNeeded (j : Bytes) :
    (expireIfNeeded now db k).lookup j = if j = k then liveEntry now db k else db.lookup j := by
  unfold expireIfNeeded liveEntry
  by_cases hj : j = k
  · subst hj
    rw [if_pos rfl]
    cases h : db.lookup j with
    | none => simpa using h
    | some e =>
      by_cases ha : e.alive now = true
      · simp [ha, h, Option.filter]
      · simp [ha, Option.filter]
  · rw [if_neg hj]
    cases h : db.lookup k with
    | none => rfl
    | some e =>
      by_cases ha : e.alive now = true
      · simp [ha]
      · simp [ha, Dict.lookup_put_ne _ hj]

/-- The database after a command's effect on the slot of `k`. -/
def Act.run : Act → Db
  | .keep => expireIfNeeded now db k
  | a => db.put k (a.apply tag (liveEntry now db k))

theorem Act.lookup_run (a : Act) (j : Bytes) : (a.run now db k tag).lookup j =
      if j = k then a.apply tag (liveEntry now db k) else db.lookup j := by
  cases a with
  | keep => exact lookup_expireIfNeeded now db k j
  | _ => exact Dict.lookup_put _ _ _ _

/-! ## Procedures and plans -/

abbrev KeyProc := Option Val → Reply × Act

structure Step where
  key : Bytes
  tag : Int
  proc : KeyProc

def Step.outcome : Reply × Act :=
  st.proc ((liveEntry now db st.key).map (·.obj.val))

def Step.exec : Reply × Db :=
  ((st.outcome now db).1, (st.outcome now db).2.run now db st.key st.tag)

def execSteps (now : Int) : List Step → Db → List Reply × Db
  | [], db => ([], db)
  | st :: l, db =>
    let rest := execSteps now l (st.exec now db).2
    ((st.exec now db).1 :: rest.1, rest.2)

theorem Step.lookup_exec (j : Bytes) : (st.exec now db).2.lookup j =
      if j = st.key then (st.outcome now db).2.apply st.tag (liveEntry now db st.key)
      else db.lookup j :=
  Act.lookup_run ..

theorem execSteps_sim {now : Int} {R : Db → Db → Prop} {l l' : List Step}
    (h : List.Forall₂ (fun st st' => ∀ a b, R a b →
      (st.exec now a).1 = (st'.exec now b).1 ∧ R (st.exec now a).2 (st'.exec now b).2) l l')
    {a b : Db} (hR : R a b) :
    (execSteps now l a).1 = (execSteps now l' b).1 ∧
      R (execSteps now l a).2 (execSteps now l' b).2 := by
  induction h generalizing a b with
  | nil => exact ⟨rfl, hR⟩
  | cons hst _ ih =>
    obtain ⟨hr, hR'⟩ := hst a b hR
    obtain ⟨hrs, hend⟩ := ih hR'
    exact ⟨by rw [execSteps, execSteps, hr, hrs], hend⟩

/-- What a well-formed command sets out to do; a refused one answers at once. -/
inductive Plan
  | refuse (r : Reply)
  | run (steps : List Step) (combine : List Reply → Reply)
  | keys (pattern : Bytes)

def Plan.one (p : KeyProc) : Plan := .run [⟨k, tag, p⟩] List.flatten

/-- `KEYS`, over the keys in the order the iterator meets them. -/
def execKeys (cfg : Cfg) (now : Int) (pattern : Bytes) : List Bytes → Db → List Tok × Db
  | [], db => ([], db)
  | k :: ks, db =>
    if (db.lookup k).isSome && (cstr pattern == [42] || cfg.stringmatchlen pattern k) then
      let rest := execKeys cfg now pattern ks (expireIfNeeded now db k)
      (if (liveEntry now db k).isSome then .bulk k :: rest.1 else rest.1, rest.2)
    else execKeys cfg now pattern ks db

def Plan.exec (cfg : Cfg) (now : Int) (iter : Db → List Bytes) (db : Db) : Plan → Reply × Db
  | .refuse r => (r, db)
  | .run steps combine => (combine (execSteps now steps db).1, (execSteps now steps db).2)
  | .keys pattern =>
    let out := execKeys cfg now pattern (iter db) db
    (.multi out.1.length :: out.1, out.2)

end SchemaUpdate.Redis
