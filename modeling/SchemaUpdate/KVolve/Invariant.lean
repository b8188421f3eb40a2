import SchemaUpdate.KVolve.LocalHandlers

/-! # Relations and invariants of the whole store

A relation between stores that show the selected database alike, and that survives
every way in which KVolve writes, survives the data part of the hook with whatever
the update functions do. With both stores equal it is an invariant rule. -/

namespace SchemaUpdate.KVolve

open SchemaUpdate.Lib SchemaUpdate.Redis

/-- `R` survives the writes of a client in the database of `env`. -/
structure StoreRel (env : Env) (R : Store → Store → Prop) : Prop where
  db : ∀ {s t}, R s t → t.dbs env.d = s.dbs env.d
  reg : ∀ {s t}, R s t → t.reg = s.reg
  versions : ∀ {s t}, R s t → t.shared = s.shared
  setDb : ∀ {s t}, R s t → ∀ db, R (s.setDb env.d db) (t.setDb env.d db)
  shared : ∀ {s t}, R s t → ∀ f, R { s with shared := f } { t with shared := f }
  new : ∀ {s t}, R s t → ∀ v k, R (newVersion env v k s) (newVersion env v k t)
  move : ∀ {s t}, R s t → ∀ src dst, R (s.rename env.now src dst) (t.rename env.now src dst)

def NestedRel (nested : Nested) (R : Store → Store → Prop) : Prop :=
  ∀ s t argv, R s t → RelRes R (nested s argv) (nested t argv)

section Rules

variable {env : Env} {R : Store → Store → Prop} (hR : StoreRel env R) {v : VersionHash}
  {s t : Store}

include hR

variable (h : R s t)

include h

theorem StoreRel.get (k : Bytes) : t.get env.d k = s.get env.d k := by
  rw [Store.get, Store.get, hR.db h]

theorem StoreRel.has (k : Bytes) : t.has env.d k = s.has env.d k := by
  rw [Store.has, Store.has, hR.get h]

theorem StoreRel.put (k : Bytes) (x : Option Entry) : R (s.put env.d k x) (t.put env.d k x) := by
  rw [Store.put, Store.put, hR.db h]
  exact hR.setDb h _

theorem StoreRel.namespaceUpdate (v : VersionHash) (k : Bytes) :
    RelRes R (namespaceUpdate env v k s) (namespaceUpdate env v k t) := by
  unfold KVolve.namespaceUpdate
  rw [hR.has h]
  split
  · exact .ok h
  · split
    · exact .error _
    · exact .ok (hR.move h _ _)

theorem StoreRel.vers (o : Robj) : t.vers o = s.vers o := by
  unfold Store.vers
  rw [hR.versions h]

omit h

variable {nested : Nested} {cu : CheckUpdate}

theorem StoreRel.closed (v : VersionHash) (hn : NestedRel nested R) :
    Closed nested env v (fun _ => True) R R where
  weak h := h
  settle h _ _ := h
  get h _ := hR.get h _
  put₀ h _ x := hR.put h _ x
  put h _ e := hR.put h _ (some e)
  shared h n x := by rw [hR.versions h]; exact hR.shared h _
  walk {s t k} h _ := by
    have hhas : t.has env.d = s.has env.d := funext fun k => hR.has h k
    rw [getDbVal, getDbVal, hhas, hR.reg h]
  found _ _ _ := trivial
  vers h _ _ _ := hR.vers h _
  move h _ := hR.namespaceUpdate h v _
  keys := .inl fun _ => trivial
  calls := .inl fun h argv => hn _ _ argv h

theorem StoreRel.hclosed (v : VersionHash) (hn : NestedRel nested R)
    (hcu : CuClosed cu env v (fun _ => True) R) :
    HClosed cu nested env v (fun _ => True) R where
  toCarried := (hR.closed v hn).carried
  cu := hcu
  new h _ _ := hR.new h v _
  versAll h _ _ := hR.vers h _

theorem StoreRel.keysStep (h : R s t) (pattern k : Bytes) :
    RelRes R (keysStep env pattern s k) (keysStep env pattern t k) :=
  relRes_keysStep h (hR.reg h) (hR.has h) (hR.namespaceUpdate h) pattern k

theorem StoreRel.kvolveKeys (h : R s t) (args : List Arg) :
    RelRes (HRel R) (kvolveKeys env args s) (kvolveKeys env args t) := by
  unfold KVolve.kvolveKeys
  split
  · exact .error _
  · split
    · exact .ok (.mk h)
    · rw [hR.db h]
      refine (RelRes.foldlM (fun s t hst k _ => hR.keysStep hst _ k) h).bind fun s' t' h' => ?_
      exact .ok (.mk h')

theorem StoreRel.run (v : VersionHash) (hn : NestedRel nested R)
    (hcu : CuClosed cu env v (fun _ => True) R) (h : R s t) (hname : HName) (args : List Arg) :
    RelRes (HRel R) (hname.run cu env v args s) (hname.run cu env v args t) := by
  by_cases hk : hname = .keys
  · subst hk
    exact hR.kvolveKeys h args
  · exact (hR.hclosed v hn hcu).run hname hk (.inr fun hst _ => hR.put hst _ none) h
      fun _ _ => trivial

theorem StoreRel.processData (hn : NestedRel nested R)
    (hcu : ∀ v, CuClosed cu env v (fun _ => True) R) (h : R s t) (argv : List Arg) :
    RelRes (HRel R) (processData cu env argv s) (processData cu env argv t) :=
  relRes_processData h (hR.reg h) (fun _ _ _ _ => hR.kvolveKeys h _)
    fun _ _ _ v hname _ _ _ => hR.run v hn (hcu v) h hname _

theorem StoreRel.call (h : R s t) (p : Plan) :
    (t.call env p).1 = (s.call env p).1 ∧ R (s.call env p).2 (t.call env p).2 := by
  simp only [Store.call, hR.db h]
  exact ⟨trivial, hR.setDb h _⟩

end Rules

variable {env : Env}

/-- A command of an update function: the relation has to survive writes in database 0 and the
setting of pending tags. -/
theorem StoreRel.updRedisCall {R : Store → Store → Prop} (hR : StoreRel { env with d := 0 } R)
    (hprev : ∀ {s t}, R s t → R (prevcallCheck s) (prevcallCheck t)) :
    NestedRel (updRedisCall env) R := by
  intro s t argv h
  unfold KVolve.updRedisCall
  split
  · exact .error _
  · split
    · exact .error _
    · have hnone : NestedRel (fun s _ => .ok s) R := fun _ _ _ h => .ok h
      have hskip : ∀ v, CuClosed checkUpdateSkip { env with d := 0 } v (fun _ => True) R :=
        fun v => cuClosed_skip _ v fun h _ => by rw [deref, deref, Store.get, Store.get, hR.db h]
      refine (hR.processData hnone hskip (hprev h) _).bind fun p q hpq => ?_
      cases hpq with
      | mk h' =>
        simp only
        split
        · exact .ok (hR.call h' _).2
        · exact .error _

/-- **A relation that survives the writes of a client, and the writes in database 0 when a
function issues commands, survives the data part of the hook.** -/
theorem StoreRel.hook {R : Store → Store → Prop} (hR : StoreRel env R)
    (h0 : StoreRel { env with d := 0 } R)
    (hprev : ∀ {s t}, R s t → R (prevcallCheck s) (prevcallCheck t)) {s t : Store} (h : R s t)
    (argv : List Arg) :
    RelRes (HRel R) (KVolve.processData checkUpdateKvPair env argv s)
      (KVolve.processData checkUpdateKvPair env argv t) := by
  have hn := h0.updRedisCall hprev
  exact hR.processData hn (fun v => (hR.closed v hn).carried.checkUpdateKvPair) h argv

/-! ## Invariants -/

/-- `I` survives the writes of a client in the database of `env`. -/
structure StoreInv (env : Env) (I : Store → Prop) : Prop where
  setDb : ∀ {s}, I s → ∀ db, I (s.setDb env.d db)
  shared : ∀ {s}, I s → ∀ f, I { s with shared := f }
  new : ∀ {s}, I s → ∀ v k, I (newVersion env v k s)
  move : ∀ {s}, I s → ∀ src dst, I (s.rename env.now src dst)

def Same (I : Store → Prop) (s t : Store) : Prop := t = s ∧ I s

theorem relRes_same {I : Store → Prop} {x : Res Store} (h : ∀ s', x = .ok s' → I s') :
    RelRes (Same I) x x := by
  cases x with
  | error e => exact .error e
  | ok s => exact .ok ⟨rfl, h s rfl⟩

theorem StoreInv.rel {I : Store → Prop} (h : StoreInv env I) :
    StoreRel env (Same I) where
  db := by rintro s t ⟨rfl, -⟩; rfl
  reg := by rintro s t ⟨rfl, -⟩; rfl
  versions := by rintro s t ⟨rfl, -⟩; rfl
  setDb := by rintro s t ⟨rfl, hs⟩ db; exact ⟨rfl, h.setDb hs db⟩
  shared := by rintro s t ⟨rfl, hs⟩ f; exact ⟨rfl, h.shared hs f⟩
  new := by rintro s t ⟨rfl, hs⟩ v k; exact ⟨rfl, h.new hs v k⟩
  move := by rintro s t ⟨rfl, hs⟩ src dst; exact ⟨rfl, h.move hs src dst⟩

/-! ## The registry -/

theorem regInv (env : Env) (reg : Reg) : StoreInv env fun s => s.reg = reg where
  setDb h _ := h
  shared h _ := h
  new h _ _ := h
  move h _ _ := by rw [Store.rename_reg, h]

theorem Store.setVers_reg (s : Store) (d : Nat) (k : Bytes) (vers : Int) :
    (s.setVers d k vers).reg = s.reg := by
  unfold Store.setVers
  split
  · rfl
  · split <;> rfl

theorem Store.setVers_tmp (s : Store) (d : Nat) (k : Bytes) (vers : Int) :
    (s.setVers d k vers).tmp = s.tmp := by
  unfold Store.setVers
  split
  · rfl
  · split <;> rfl

theorem prevcallCheck_reg (s : Store) : (prevcallCheck s).reg = s.reg := by
  unfold prevcallCheck
  generalize s.tmp.entries = l
  induction l generalizing s with
  | nil => rfl
  | cons p l ih =>
    rw [List.foldl_cons, ih, prevcallStep]
    split
    · rfl
    · exact Store.setVers_reg ..

theorem getKey_reg {v : VersionHash} {k k' : Bytes} {s s' : Store}
    (h : getKey checkUpdateKvPair env v k s = .ok (k', s')) : s'.reg = s.reg := by
  have hrel := (regInv env s.reg).rel
  have hn : NestedRel (updRedisCall env) (Same fun t => t.reg = s.reg) :=
    (regInv { env with d := 0 } s.reg).rel.updRedisCall fun {a b} hab => by
      obtain ⟨rfl, ha⟩ := hab
      exact ⟨rfl, (prevcallCheck_reg _).trans ha⟩
  have hsame : Same (fun t => t.reg = s.reg) s s := ⟨rfl, rfl⟩
  obtain ⟨q, -, hpq⟩ := ((hrel.hclosed v hn (hrel.closed v hn).carried.checkUpdateKvPair).walks.getKey hsame
    trivial).of_ok h
  exact hpq.2.2

end SchemaUpdate.KVolve
