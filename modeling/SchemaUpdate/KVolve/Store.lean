import SchemaUpdate.KVolve.Registry

/-! # The state of the server

The numbered databases, the registry, the pending version tags (`tmp_store`) and
the version fields of the shared integer objects, with the accessors that read
and write one slot. -/

namespace SchemaUpdate.KVolve

open SchemaUpdate.Lib SchemaUpdate.Redis

structure Store where
  dbs : Nat → Db
  reg : Reg
  -- key ↦ the version to set and the database the key was written in
  tmp : Dict Bytes (Int × Nat)
  shared : Int → Int

/-- The hash table of a dictionary as an iterator finds it: the number of its buckets, whether it
is being rehashed, and `dict_can_resize`. -/
structure Table where
  size : Nat := 4
  rehashing : Bool := false
  resize : Bool := true

/-- `dictAdd` finds `used` entries: it moves none and does not expand the table. -/
def Table.addKeeps (t : Table) (used : Nat) : Bool :=
  !t.rehashing && t.size != 0 && !(decide (t.size ≤ used) && (t.resize || decide (5 < used / t.size)))

/-- `dictDelete` leaves `used` entries: it moves none, and `htNeedsResize` asks for no smaller
table. -/
def Table.delKeeps (t : Table) (used : Nat) : Bool :=
  !t.rehashing &&
    !(t.resize && used != 0 && decide (4 < t.size) && decide (used * 100 / t.size < 10))

/-- What a command runs against: the configuration, the clock, the selected database,
the choices of the random generator and of the dictionary iterators, and the hash table of
the set or hash that is found for a key. -/
structure Env where
  cfg : Cfg
  now : Int
  d : Nat
  rand : Nat
  iter : Db → List Bytes
  tables : Bytes → Table := fun _ => {}

namespace Store

/-- The state of a server that has just started. -/
def init : Store := ⟨fun _ => ∅, .empty, ∅, fun _ => 0⟩

def get (s : Store) (d : Nat) (k : Bytes) : Option Entry := (s.dbs d).lookup k

def setDb (s : Store) (d : Nat) (db : Db) : Store := { s with dbs := Function.update s.dbs d db }

def put (s : Store) (d : Nat) (k : Bytes) (x : Option Entry) : Store :=
  s.setDb d ((s.dbs d).put k x)

section Slots

variable (s : Store) (d : Nat) (db : Db) (k : Bytes) (x : Option Entry)

@[simp] theorem setDb_reg : (s.setDb d db).reg = s.reg := rfl
@[simp] theorem setDb_tmp : (s.setDb d db).tmp = s.tmp := rfl
@[simp] theorem setDb_shared : (s.setDb d db).shared = s.shared := rfl
@[simp] theorem put_reg : (s.put d k x).reg = s.reg := rfl
@[simp] theorem put_tmp : (s.put d k x).tmp = s.tmp := rfl
@[simp] theorem put_shared : (s.put d k x).shared = s.shared := rfl

@[simp] theorem setDb_dbs_self : (s.setDb d db).dbs d = db := Function.update_self ..

theorem setDb_dbs_ne {d' : Nat} (h : d' ≠ d) : (s.setDb d db).dbs d' = s.dbs d' :=
  Function.update_of_ne h ..

theorem put_dbs_ne {d' : Nat} (h : d' ≠ d) : (s.put d k x).dbs d' = s.dbs d' :=
  setDb_dbs_ne _ _ _ h

theorem get_put (d' : Nat) (j : Bytes) :
    (s.put d k x).get d' j = if d' = d ∧ j = k then x else s.get d' j := by
  unfold get
  by_cases hd : d' = d
  · subst hd
    simp only [put, setDb_dbs_self, Dict.lookup_put, true_and]
  · rw [put_dbs_ne _ _ _ _ hd, if_neg (fun h => hd h.1)]

@[simp] theorem get_put_self : (s.put d k x).get d k = x := by
  rw [get_put, if_pos ⟨rfl, rfl⟩]

theorem get_put_ne {j : Bytes} (h : j ≠ k) : (s.put d k x).get d j = s.get d j := by
  rw [get_put, if_neg (fun hj => h hj.2)]

end Slots

def vers (s : Store) (o : Robj) : Int :=
  match o.val with
  | .str (.int n true) => s.shared n
  | _ => o.vers

/-- Write the version field of the object held at `k`. -/
def setVers (s : Store) (d : Nat) (k : Bytes) (vers : Int) : Store :=
  match s.get d k with
  | none => s
  | some e =>
    match e.obj.val with
    | .str (.int n true) => { s with shared := Function.update s.shared n vers }
    | _ => s.put d k (some { e with obj := { e.obj with vers := vers } })

/-- Run a Redis command's plan in the selected database. -/
def call (env : Env) (s : Store) (p : Plan) : Reply × Store :=
  let out := p.exec env.cfg env.now env.iter (s.dbs env.d)
  (out.1, s.setDb env.d out.2)

@[simp] theorem setDb_self (s : Store) (d : Nat) : s.setDb d (s.dbs d) = s := by
  rw [setDb, Function.update_eq_self]

theorem setDb_dbs_put (s : Store) (d : Nat) (k : Bytes) (x : Option Entry) (f : Db → Db) :
    (s.put d k x).setDb d (f ((s.put d k x).dbs d)) = s.setDb d (f ((s.dbs d).put k x)) := by
  simp only [put, setDb, Function.update_self, Function.update_idem]

theorem call_refuse (env : Env) (s : Store) (r : Reply) : s.call env (.refuse r) = (r, s) := by
  simp only [call, Plan.exec, setDb_self]

/-- `renameCommand`, on the database a fresh client has selected: database 0. -/
def rename (now : Int) (s : Store) (src dst : Bytes) : Store :=
  if src = dst then s
  else
    match s.get 0 src with
    | none => s
    | some e =>
      if e.alive now then (s.put 0 dst (some e)).put 0 src none
      else s.put 0 src none

def renameDb (now : Int) (src dst : Bytes) (db : Db) : Db :=
  if src = dst then db
  else
    match db.lookup src with
    | none => db
    | some e => if e.alive now then (db.put dst (some e)).put src none else db.put src none

theorem rename_eq (now : Int) (s : Store) (src dst : Bytes) :
    s.rename now src dst = s.setDb 0 (renameDb now src dst (s.dbs 0)) := by
  unfold rename renameDb get
  split
  · simp
  · cases (s.dbs 0).lookup src with
    | none => simp
    | some e =>
      simp only
      split
      · exact setDb_dbs_put s 0 dst (some e) fun db => db.put src none
      · rfl

section Rename

variable (now : Int) (s : Store) (src dst : Bytes)

@[simp] theorem rename_reg : (s.rename now src dst).reg = s.reg := by
  unfold rename; repeat' split
  all_goals rfl

@[simp] theorem rename_tmp : (s.rename now src dst).tmp = s.tmp := by
  unfold rename; repeat' split
  all_goals rfl

@[simp] theorem rename_shared : (s.rename now src dst).shared = s.shared := by
  unfold rename; repeat' split
  all_goals rfl

variable {d : Nat}

theorem rename_dbs_ne (h : d ≠ 0) : (s.rename now src dst).dbs d = s.dbs d := by
  unfold rename; repeat' split
  all_goals simp [put_dbs_ne, h]

variable {now s src dst}

theorem get_rename_moved {e : Entry} (hne : src ≠ dst) (hsrc : s.get 0 src = some e)
    (ha : e.alive now) (d : Nat) (j : Bytes) :
    (s.rename now src dst).get d j =
      if d = 0 ∧ j = src then none else if d = 0 ∧ j = dst then some e else s.get d j := by
  simp only [rename, hne, hsrc, ha, if_true, if_false, get_put]

theorem get_rename_other {j : Bytes} (h : ¬ (d = 0 ∧ (j = src ∨ j = dst))) :
    (s.rename now src dst).get d j = s.get d j := by
  have hs : ¬ (d = 0 ∧ j = src) := fun hj => h ⟨hj.1, .inl hj.2⟩
  have hd : ¬ (d = 0 ∧ j = dst) := fun hj => h ⟨hj.1, .inr hj.2⟩
  unfold rename
  repeat' split
  all_goals simp [get_put, hs, hd]

theorem get_rename_free (hne : src ≠ dst) (hdst : s.get 0 dst = none) (j : Bytes) :
    (s.rename now src dst).get 0 j =
      if j = src then none else if j = dst then (s.get 0 src).filter (·.alive now)
      else s.get 0 j := by
  rw [rename, if_neg hne]
  cases hsrc : s.get 0 src with
  | none =>
    by_cases hj : j = src
    · rw [if_pos hj, hj, hsrc]
    · by_cases hj' : j = dst
      · rw [if_neg hj, if_pos hj', hj', hdst]
        rfl
      · rw [if_neg hj, if_neg hj']
  | some e =>
    by_cases ha : e.alive now = true
    · simp [ha, get_put, Option.filter]
    · by_cases hj : j = src
      · simp [ha, hj]
      · by_cases hj' : j = dst
        · simp [ha, get_put, hj', hdst, Ne.symm hne, Option.filter]
        · simp [ha, get_put, hj, hj']

theorem get_rename_none {j : Bytes} (hj : j ≠ dst) (h : s.get d j = none) :
    (s.rename now src dst).get d j = none := by
  unfold rename
  repeat' split
  all_goals simp [get_put, h, hj]

theorem get_rename_dst {e : Entry} (h : (s.rename now src dst).get 0 dst = some e)
    (hd : s.get 0 dst = none) : s.get 0 src = some e ∧ e.alive now ∧ src ≠ dst := by
  unfold rename at h
  split at h
  · rw [hd] at h
    cases h
  · rename_i hne
    split at h
    · rw [hd] at h
      cases h
    · rename_i e' hs
      split at h
      · rename_i ha
        rw [get_put_ne _ _ _ _ (Ne.symm hne), get_put_self] at h
        cases h
        exact ⟨hs, ha, hne⟩
      · rw [get_put_ne _ _ _ _ (Ne.symm hne), hd] at h
        cases h

end Rename

end Store

/-- The slots in `P` may have changed; nothing else of the keyspace or of the registry
has. -/
structure Within (P : Nat → Bytes → Prop) (s s' : Store) : Prop where
  reg : s'.reg = s.reg
  get : ∀ d k, ¬ P d k → s'.get d k = s.get d k

variable {P : Nat → Bytes → Prop}

theorem Within.refl (s : Store) : Within P s s := ⟨rfl, fun _ _ _ => rfl⟩

theorem Within.trans {s s' s'' : Store} (h : Within P s s') (h' : Within P s' s'') :
    Within P s s'' :=
  ⟨h'.reg.trans h.reg, fun d k hk => (h'.get d k hk).trans (h.get d k hk)⟩

theorem Within.put (s : Store) {d : Nat} {k : Bytes} (hP : P d k) (x : Option Entry) :
    Within P s (s.put d k x) := by
  refine ⟨rfl, fun d' k' h => ?_⟩
  rw [Store.get_put, if_neg]
  rintro ⟨rfl, rfl⟩
  exact h hP

theorem Within.rename (s : Store) (now : Int) {src dst : Bytes} (hsrc : P 0 src) (hdst : P 0 dst) :
    Within P s (s.rename now src dst) := by
  refine ⟨Store.rename_reg .., fun d k h => Store.get_rename_other ?_⟩
  rintro ⟨rfl, rfl | rfl⟩
  · exact h hsrc
  · exact h hdst

/-- The pending tags are the same as well. -/
structure Touches (P : Nat → Bytes → Prop) (s s' : Store) : Prop extends Within P s s' where
  tmp : s'.tmp = s.tmp

namespace Touches

variable {P : Nat → Bytes → Prop} {s s' s'' : Store}

theorem refl (s : Store) : Touches P s s := ⟨.refl s, rfl⟩

theorem trans (h : Touches P s s') (h' : Touches P s' s'') : Touches P s s'' :=
  ⟨h.toWithin.trans h'.toWithin, h'.tmp.trans h.tmp⟩

theorem put (s : Store) (d : Nat) (k : Bytes) (x : Option Entry) :
    Touches (fun d' k' => d' = d ∧ k' = k) s (s.put d k x) :=
  ⟨.put s ⟨rfl, rfl⟩ x, rfl⟩

end Touches

/-! ## Pending tags -/

/-- One turn of the loop of `kvolve_prevcall_check`. -/
def prevcallStep (s : Store) (k : Bytes) (t : Int × Nat) : Store :=
  match s.get t.2 k with
  | none => s
  | some _ => { s.setVers t.2 k t.1 with tmp := s.tmp.put k none }

def prevcallCheck (s : Store) : Store :=
  s.tmp.entries.foldl (fun s p => prevcallStep s p.1 p.2) s

theorem prevcallCheck_of_empty {s : Store} (h : s.tmp = ∅) : prevcallCheck s = s := by
  rw [prevcallCheck, h]
  rfl

/-- `kvolve_new_version`: the entry is found by the key alone, as a C string. -/
def newVersion (env : Env) (v : VersionHash) (key : Bytes) (s : Store) : Store :=
  { s with tmp := s.tmp.put (cstr key) (some (v.cur, env.d)) }

end SchemaUpdate.KVolve
