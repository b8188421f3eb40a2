import SchemaUpdate.KVolve.Local

/-! # What a handler reads and writes

The rules of `Local` carried from the check for updates to the containers and to
every handler of the table. -/

namespace SchemaUpdate.KVolve

open SchemaUpdate.Lib SchemaUpdate.Redis

/-- A relation that the migration keeps and in which the version of every object at a place
agrees. -/
structure AClosed (cu : CheckUpdate) (nested : Nested) (env : Env) (v : VersionHash)
    (L : Bytes → Prop) (R : Store → Store → Prop) : Prop extends
    Carried nested env v L R where
  cu : CuClosed cu env v L R
  versAll : ∀ {s t k e}, R s t → L k → s.get env.d k = some e → t.vers e.obj = s.vers e.obj

/-- A relation that the migration keeps, that looks at no pending tags, and in which the
version of every object at a place agrees. -/
structure HClosed (cu : CheckUpdate) (nested : Nested) (env : Env) (v : VersionHash)
    (L : Bytes → Prop) (R : Store → Store → Prop) : Prop extends
    Carried nested env v L R where
  cu : CuClosed cu env v L R
  new : ∀ {s t k}, R s t → L k → getDbVal env v k s = .ok none →
    R (newVersion env v k s) (newVersion env v k t)
  versAll : ∀ {s t k e}, R s t → L k → s.get env.d k = some e → t.vers e.obj = s.vers e.obj

theorem HClosed.walks {cu : CheckUpdate} {nested : Nested} {env : Env} {v : VersionHash}
    {L : Bytes → Prop} {R : Store → Store → Prop} (hR : HClosed cu nested env v L R) :
    AClosed cu nested env v L R :=
  { hR.toCarried with cu := hR.cu, versAll := hR.versAll }

/-- Two states of an element loop that differ in the store only. -/
inductive LRel (L : Bytes → Prop) (R : Store → Store → Prop) : LSt → LSt → Prop
  | mk {first : Bool} {key loc : Bytes} {s t : Store} : R s t → L key → L loc →
      LRel L R ⟨first, key, loc, s⟩ ⟨first, key, loc, t⟩

/-- The same result and key, and related stores; the result is 1 when nothing was found. -/
inductive ARel (env : Env) (v : VersionHash) (L : Bytes → Prop) (R : Store → Store → Prop) :
    Int × Bytes × Store → Int × Bytes × Store → Prop
  | mk {ret : Int} {key : Bytes} {s t : Store} : R s t → L key →
      (ret = 1 → getDbVal env v key s = .ok none) → ARel env v L R (ret, key, s) (ret, key, t)

/-- The loop of a container function leaves both sides alone, or keeps them related. -/
def LoopRel (L : Bytes → Prop) (R : Store → Store → Prop)
    (loop : Int → Val → LSt → Option (Res LSt)) : Prop :=
  ∀ vers val a b, LRel L R a b → (loop vers val a = none ∧ loop vers val b = none) ∨
    ∃ x y, loop vers val a = some x ∧ loop vers val b = some y ∧ RelRes (LRel L R) x y

inductive HRel (R : Store → Store → Prop) : List Arg × Store → List Arg × Store → Prop
  | mk {args : List Arg} {s t : Store} : R s t → HRel R (args, s) (args, t)

section Containers

variable {cu : CheckUpdate} {nested : Nested} {env : Env} {v : VersionHash} {L : Bytes → Prop}
  {R : Store → Store → Prop} (hR : AClosed cu nested env v L R) {s t : Store} {a b : LSt}

include hR

theorem AClosed.tagElem (h : R s t) (vers : Int) (e : Elem) :
    R (tagElem vers e s).2 (tagElem vers e t).2 := by
  unfold KVolve.tagElem
  split
  · exact hR.shared h _ _
  · exact h

theorem AClosed.elemStep (h : LRel L R a b) (type : UType) (e : Elem) :
    RelRes (LRel L R) (elemStep cu env v type a e) (elemStep cu env v type b e) := by
  cases h with
  | mk h hk hl =>
    unfold KVolve.elemStep
    refine RelRes.bind_same (hR.deref h hl) fun c hc => ?_
    rw [hR.versAll h hl (get_of_deref hc)]
    refine (hR.cu _ _ type (hR.tagElem h _ e) hl hk).bind fun p q hpq => ?_
    cases hpq with
    | mk h' hk' hl' => exact .ok (.mk h' hk' hl')

theorem AClosed.slotStep (h : LRel L R a b) (type : UType) (e : Option Elem) :
    RelRes (LRel L R) (slotStep cu env v type a e) (slotStep cu env v type b e) := by
  cases h with
  | mk h hk hl =>
    unfold KVolve.slotStep
    refine RelRes.bind_same (hR.deref h hl) fun c hc => ?_
    refine (hR.cu _ _ type h hl hk).bind fun p q hpq => ?_
    cases hpq with
    | mk h' hk' hl' => exact .ok (.mk h' hk' hl')

variable {key : Bytes}

theorem AClosed.updateAll (h : R s t) (hk : L key) {loop : Int → Val → LSt → Option (Res LSt)}
    (hloop : LoopRel L R loop) :
    RelRes (ARel env v L R) (updateAll env v key s loop) (updateAll env v key t loop) := by
  unfold KVolve.updateAll
  refine RelRes.bind_same (hR.walk h hk) fun found hfound => ?_
  cases found with
  | none => exact .ok (.mk h hk fun _ => hfound)
  | some loc =>
    have hl := hR.found h hk hfound
    have hret : (0 : Int) = 1 → getDbVal env v key s = .ok none := fun h => absurd h (by decide)
    refine RelRes.bind_same (hR.deref h hl) fun c hc => ?_
    rw [hR.versAll h hl (get_of_deref hc)]
    split
    · exact .ok (.mk h hk hret)
    · rcases hloop (s.vers c.obj) c.obj.val ⟨true, key, loc, s⟩ ⟨true, key, loc, t⟩
        (.mk h hk hl) with ⟨ha, hb⟩ | ⟨x, y, ha, hb, hxy⟩
      · rw [ha, hb]
        exact .ok (.mk h hk hret)
      · rw [ha, hb]
        refine hxy.bind fun a b hab => ?_
        cases hab with
        | mk h' hk' hl' =>
          refine RelRes.bind_same (hR.deref h' hl') fun _ _ => ?_
          exact .ok (.mk (hR.tag h' hl' _) hk' fun h => absurd h (by decide))

theorem AClosed.released {x y : Res LSt} (h : RelRes (LRel L R) x y) (val : Val) :
    RelRes (LRel L R) (released env val x) (released env val y) := by
  cases h with
  | error f =>
    obtain ⟨f', hf'⟩ := released_error env val f
    rw [hf']
    exact .error f'
  | ok hab =>
    obtain @⟨first, key, loc, s, t, h, hk, hl⟩ := hab
    have hval : t.val? env.d loc = s.val? env.d loc := by rw [Store.val?, Store.val?, hR.get h hl]
    unfold KVolve.released
    cases dictUsed val with
    | none => exact .ok (.mk h hk hl)
    | some n =>
      simp only [hval]
      split
      · exact .ok (.mk h hk hl)
      · exact .error _

theorem AClosed.elemsLoop (type : UType) (gather : Val → Res (List Elem)) :
    LoopRel L R (fun _ val st => some (elemsLoop cu env v type gather val st)) := by
  intro vers val a b hab
  refine .inr ⟨_, _, rfl, rfl, hR.released (RelRes.bind_same rfl fun l _ => ?_) val⟩
  refine RelRes.foldlM ?_ hab
  intro a b hab e _
  exact hR.elemStep hab type e

theorem AClosed.slotsLoop :
    LoopRel L R (fun vers val st => (ziplistEntries env.cfg val).map fun entries => do
      let l ← zsetSlots env.cfg vers entries
      l.foldlM (KVolve.slotStep cu env v (utypeOf val)) st) := by
  intro vers val a b hab
  simp only
  cases ziplistEntries env.cfg val with
  | none => exact .inl ⟨rfl, rfl⟩
  | some entries =>
    refine .inr ⟨_, _, rfl, rfl, RelRes.bind_same rfl fun l _ => ?_⟩
    refine RelRes.foldlM ?_ hab
    intro a b hab e _
    exact hR.slotStep hab _ e

theorem AClosed.updateAllZset (h : R s t) (hk : L key) :
    RelRes (ARel env v L R) (updateAllZset cu env v key s) (updateAllZset cu env v key t) :=
  hR.updateAll h hk hR.slotsLoop

end Containers

/-! ## Handlers -/

def evenArgs : List Arg → List Bytes
  | k :: _ :: rest => k.ptr :: evenArgs rest
  | _ => []

theorem short_of_not_pair {l : List Arg} (h : ∀ k b rest, l = k :: b :: rest → False) :
    l = [] ∨ ∃ k, l = [k] := by
  cases l with
  | nil => exact .inl rfl
  | cons k l =>
    cases l with
    | nil => exact .inr ⟨k, rfl⟩
    | cons b rest => exact (h k b rest rfl).elim

/-- The handlers of commands that may create a container. -/
def HName.creates : HName → Bool
  | .sadd | .zadd | .lpush | .rpush | .hset | .hmset => true
  | _ => false

def HName.keysOf (h : HName) (args : List Arg) : List Bytes :=
  match h with
  | .mset => evenArgs args
  | .mget | .del => args.map (·.ptr)
  | _ => (args.head?.map (·.ptr)).toList

section Handlers

variable {cu : CheckUpdate} {nested : Nested} {env : Env} {v : VersionHash} {L : Bytes → Prop}
  {R : Store → Store → Prop} (hR : AClosed cu nested env v L R) {s t : Store}

include hR

variable {key : Bytes} {args : List Arg}

theorem AClosed.setnxKey (h : R s t) (hk : L key) :
    RelRes R (setnxKey env v key s) (setnxKey env v key t) := by
  unfold KVolve.setnxKey
  rw [hR.has h hk]
  split
  · exact .ok h
  · refine RelRes.bind_same (hR.walk h hk) fun found _ => ?_
    cases found with
    | none => exact .ok h
    | some loc => exact hR.move h hk

theorem AClosed.incrKey (h : R s t) (hk : L key) :
    RelRes R (incrKey env v key s) (incrKey env v key t) := by
  unfold KVolve.incrKey
  split
  · exact .ok h
  · refine RelRes.bind_same (hR.walk h hk) fun found _ => ?_
    cases found with
    | none => exact .ok h
    | some loc => exact hR.move h hk

omit hR in
theorem setKeyOld_eq (env : Env) (v : VersionHash) (key : Bytes) (s : Store) :
    setKeyOld env v key s =
      if v.prevNs ≠ none ∧ ¬ s.has env.d key then
        getDbVal env v key s >>= fun found => match found with
          | none => .ok s
          | some old => .ok (s.put env.d old none)
      else .ok s := by
  unfold setKeyOld
  split
  · rename_i h
    have hget : getDbVal env v key s =
        prevWalk s.reg (s.has env.d) key (walkFuel s.reg) (some v) := if_neg h.2
    exact hget ▸ rfl
  · rfl

theorem AClosed.setKeyOld (hdel : ∀ {s t k}, R s t → L k →
      R (s.put env.d k none) (t.put env.d k none)) (h : R s t) (hk : L key) :
    RelRes R (setKeyOld env v key s) (setKeyOld env v key t) := by
  rw [setKeyOld_eq, setKeyOld_eq, hR.has h hk]
  split
  · refine RelRes.bind_same (hR.walk h hk) fun found hfound => ?_
    cases found with
    | none => exact .ok h
    | some old => exact .ok (hdel h (hR.found h hk hfound))
  · exact .ok h

theorem AClosed.getKey (h : R s t) (hk : L key) :
    RelRes (fun p q : Bytes × Store => q.1 = p.1 ∧ R p.2 q.2) (getKey cu env v key s)
      (getKey cu env v key t) := by
  unfold KVolve.getKey
  refine (hR.cu _ _ _ h hk hk).bind fun p q hpq => ?_
  cases hpq with
  | mk h' _ _ => exact .ok ⟨rfl, h'⟩

omit hR in
theorem relRes_onKey {f : Bytes → Store → Res (Bytes × Store)} (h : R s t)
    (hf : ∀ k ∈ (args.head?.map (·.ptr)).toList, ∀ {s t}, R s t →
      RelRes (fun p q : Bytes × Store => q.1 = p.1 ∧ R p.2 q.2) (f k s) (f k t)) :
    RelRes (HRel R) (onKey f args s) (onKey f args t) := by
  cases args with
  | nil => exact .error _
  | cons k rest =>
    unfold onKey
    refine (hf k.ptr (by simp) h).bind fun p q hpq => ?_
    obtain ⟨key, s'⟩ := p
    obtain ⟨key', t'⟩ := q
    obtain ⟨rfl, h'⟩ := hpq
    exact .ok (.mk h')

theorem AClosed.kvolveSet (hdel : ∀ {s t k}, R s t → L k →
      R (s.put env.d k none) (t.put env.d k none)) (h : R s t)
    (hL : ∀ k ∈ (args.head?.map (·.ptr)).toList, L k) :
    RelRes (HRel R) (kvolveSet cu env v args s) (kvolveSet cu env v args t) := by
  unfold KVolve.kvolveSet
  split
  · rename_i k val opts
    have hk : L k.ptr := hL k.ptr (by simp)
    split
    · exact (hR.setnxKey h hk).bind fun _ _ h' => .ok (.mk h')
    · split
      · exact (hR.setnxKey h hk).bind fun _ _ h' => .ok (.mk h')
      · exact (hR.setKeyOld hdel h hk).bind fun _ _ h' => .ok (.mk h')
  · exact .error _

omit hR in
theorem relRes_msetLoop (h : R s t) (hold : ∀ k ∈ evenArgs args, ∀ {s t}, R s t →
      RelRes R (KVolve.setKeyOld env v k s) (KVolve.setKeyOld env v k t)) :
    RelRes (HRel R) (msetLoop env v args s) (msetLoop env v args t) := by
  induction args using evenArgs.induct generalizing s t with
  | case1 k val rest ih =>
    rw [KVolve.msetLoop, KVolve.msetLoop]
    refine (hold k.ptr (by simp [evenArgs]) h).bind fun s₁ t₁ h₁ => ?_
    refine (ih h₁ fun j hj => hold j (by simp [evenArgs, hj])).bind fun p q hpq => ?_
    cases hpq with
    | mk h' => exact .ok (.mk h')
  | case2 args hne =>
    unfold KVolve.msetLoop
    split
    · exact absurd rfl (hne _ _ _)
    · exact .ok (.mk h)

omit hR in
theorem relRes_mgetLoop (h : R s t) (hget : ∀ k ∈ args.map (·.ptr), ∀ {s t}, R s t →
      RelRes (fun p q : Bytes × Store => q.1 = p.1 ∧ R p.2 q.2) (KVolve.getKey cu env v k s)
        (KVolve.getKey cu env v k t)) :
    RelRes (HRel R) (mgetLoop cu env v args s) (mgetLoop cu env v args t) := by
  induction args generalizing s t with
  | nil => exact .ok (.mk h)
  | cons k rest ih =>
    rw [KVolve.mgetLoop, KVolve.mgetLoop]
    refine (hget k.ptr (by simp) h).bind fun p q hpq => ?_
    obtain ⟨key, s'⟩ := p
    obtain ⟨key', t'⟩ := q
    obtain ⟨rfl, h'⟩ := hpq
    refine (ih h' fun j hj => hget j (List.mem_cons_of_mem _ hj)).bind fun p q hpq => ?_
    cases hpq with
    | mk h'' => exact .ok (.mk h'')

omit hR in
theorem relRes_migrating {all : UpdateAll} (h : R s t)
    (hL : ∀ k ∈ (args.head?.map (·.ptr)).toList, L k)
    (hall : ∀ {key s t}, R s t → L key → RelRes (ARel env v L R) (all cu env v key s) (all cu env v key t)) :
    RelRes (HRel R) (migrating all cu env v args s) (migrating all cu env v args t) := by
  refine relRes_onKey h fun k hk s t hst => ?_
  refine (hall hst (hL k hk)).bind fun p q hpq => ?_
  cases hpq with
  | mk h' _ _ => exact .ok ⟨rfl, h'⟩

/-- A handler keeps a relation that migrations keep. -/
theorem AClosed.run (hn : HName) (hkeys : hn ≠ .keys) (hcre : hn.creates = false)
    (hdel : (hn ≠ .set ∧ hn ≠ .mset) ∨ ∀ {s t k}, R s t → L k →
      R (s.put env.d k none) (t.put env.d k none)) (h : R s t) (hL : ∀ k ∈ hn.keysOf args, L k) :
    RelRes (HRel R) (hn.run cu env v args s) (hn.run cu env v args t) := by
  have hget : ∀ {s t}, R s t → (∀ k ∈ (args.head?.map (·.ptr)).toList, L k) →
      RelRes (HRel R) (onKey (KVolve.getKey cu env v) args s)
        (onKey (KVolve.getKey cu env v) args t) :=
    fun h hL => relRes_onKey h fun k hk _ _ hst => hR.getKey hst (hL k hk)
  have hincr : ∀ {s t}, R s t → (∀ k ∈ (args.head?.map (·.ptr)).toList, L k) →
      RelRes (HRel R) (kvolveIncr cu env v args s) (kvolveIncr cu env v args t) :=
    fun h hL => relRes_onKey h fun k hk _ _ hst =>
      (hR.incrKey hst (hL k hk)).bind fun _ _ h' => .ok ⟨rfl, h'⟩
  cases hn with
  | keys => exact absurd rfl hkeys
  | set =>
    rcases hdel with hdel | hdel
    · exact absurd rfl hdel.1
    · exact hR.kvolveSet hdel h hL
  | mset =>
    rcases hdel with hdel | hdel
    · exact absurd rfl hdel.2
    · simp only [HName.run, kvolveMset]
      split
      · exact .error _
      · exact relRes_msetLoop h fun k hk _ _ hst => hR.setKeyOld hdel hst (hL k hk)
  | get | getset | getrange => exact hget h hL
  | mget => exact relRes_mgetLoop h fun k hk _ _ hst => hR.getKey hst (hL k hk)
  | del => exact (hR.checkRename h hL).bind fun _ _ h' => .ok (.mk h')
  | incr | incrby => exact hincr h hL
  | setnx =>
    simp only [HName.run, kvolveSetnx]
    refine relRes_onKey h fun k hk s t hst => ?_
    exact (hR.setnxKey hst (hL k hk)).bind fun _ _ h' => .ok ⟨rfl, h'⟩
  | sadd | zadd | lpush | rpush | hset | hmset => cases hcre
  | hdel | hget | hgetall | hmget | lrange | lpop | llen | lset | rpop | scard | spop | smembers
  | sismember | srem =>
    exact relRes_migrating h hL fun h hk => hR.updateAll h hk (hR.elemsLoop _ _)
  | zcard | zscore | zrem | zrange | zrevrange => exact relRes_migrating h hL hR.updateAllZset

end Handlers

section Creating

variable {cu : CheckUpdate} {nested : Nested} {env : Env} {v : VersionHash} {L : Bytes → Prop}
  {R : Store → Store → Prop} (hR : HClosed cu nested env v L R) {s t : Store}

include hR

theorem HClosed.creating {all : UpdateAll} {args : List Arg} (h : R s t)
    (hL : ∀ k ∈ (args.head?.map (·.ptr)).toList, L k)
    (hall : ∀ {key s t}, R s t → L key → RelRes (ARel env v L R) (all cu env v key s) (all cu env v key t)) :
    RelRes (HRel R) (creating all cu env v args s) (creating all cu env v args t) := by
  refine relRes_onKey h fun k hk s t hst => ?_
  refine (hall hst (hL k hk)).bind fun p q hpq => ?_
  cases hpq with
  | mk h' hk' hret =>
    refine .ok ⟨rfl, ?_⟩
    simp only
    split
    · rename_i hone
      exact hR.new h' hk' (hret hone)
    · exact h'

/-- **A handler keeps every relation its migration keeps.** -/
theorem HClosed.run (hn : HName) (hkeys : hn ≠ .keys)
    (hdel : (hn ≠ .set ∧ hn ≠ .mset) ∨ ∀ {s t k}, R s t → L k →
      R (s.put env.d k none) (t.put env.d k none)) {args : List Arg} (h : R s t)
    (hL : ∀ k ∈ hn.keysOf args, L k) :
    RelRes (HRel R) (hn.run cu env v args s) (hn.run cu env v args t) := by
  cases hcre : hn.creates with
  | false => exact hR.walks.run hn hkeys hcre hdel h hL
  | true =>
    cases hn with
    | sadd | lpush | rpush | hset | hmset =>
      exact hR.creating h hL fun h hk => hR.walks.updateAll h hk (hR.walks.elemsLoop _ _)
    | zadd => exact hR.creating h hL hR.walks.updateAllZset
    | _ => cases hcre

end Creating

/-! ## The data part of the hook -/

section Data

variable {cu : CheckUpdate} {env : Env} {R : Store → Store → Prop} {s t : Store} (h : R s t)

include h

theorem relRes_keysStep (hreg : t.reg = s.reg) (hhas : ∀ k, t.has env.d k = s.has env.d k)
    (hmove : ∀ v k, RelRes R (namespaceUpdate env v k s) (namespaceUpdate env v k t))
    (pattern k : Bytes) : RelRes R (keysStep env pattern s k) (keysStep env pattern t k) := by
  unfold keysStep
  rw [hhas, hreg]
  split
  · split
    · exact .ok h
    · split
      · exact .error _
      · split
        · split
          · rw [hhas]
            split
            · exact .ok h
            · exact .error _
          · exact hmove _ _
        · exact .ok h
  · exact .ok h

theorem relRes_processData {argv : List Arg} (hreg : t.reg = s.reg)
    (hkeys : ∀ name p, argv = [name, p] → strcasecmp name.ptr (lit "keys") = true →
      RelRes (HRel R) (kvolveKeys env [p] s) (kvolveKeys env [p] t))
    (hrun : ∀ name k rest v hn, argv = name :: k :: rest → versionHashLookup s.reg k.ptr = some v →
      lookupKvCommand name.ptr argv.length = some hn →
      RelRes (HRel R) (hn.run cu env v (k :: rest) s) (hn.run cu env v (k :: rest) t)) :
    RelRes (HRel R) (processData cu env argv s) (processData cu env argv t) := by
  have hdisp : RelRes (HRel R) (dispatch cu env argv s) (dispatch cu env argv t) := by
    unfold dispatch
    rw [hreg]
    split
    · rename_i name k rest
      split
      · exact .ok (.mk h)
      · rename_i v hv
        split
        · exact .ok (.mk h)
        · rename_i hn hkv
          refine (hrun name k rest v hn rfl hv hkv).bind fun p q hpq => ?_
          cases hpq with
          | mk h' => exact .ok (.mk h')
    · exact .ok (.mk h)
  unfold processData
  split
  · rename_i name p
    split
    · rename_i hk
      refine (hkeys name p rfl hk).bind fun p q hpq => ?_
      cases hpq with
      | mk h' => exact .ok (.mk h')
    · exact hdisp
  · exact hdisp

end Data

end SchemaUpdate.KVolve
