import SchemaUpdate.Lib.Relational
import SchemaUpdate.KVolve.Chain
import SchemaUpdate.KVolve.Lazy

/-! # What a migration reads and writes

A relation between stores that is kept by writes to the places of a key, by the
move of a key between namespaces and by what update functions do is kept by the
whole migration. Taken with both stores equal it is an invariant rule; taken with
stores that agree on some slots it says that nothing else is looked at. -/

namespace SchemaUpdate.KVolve

open SchemaUpdate.Lib SchemaUpdate.Redis

def VersionHash.funs (v : VersionHash) : List UpdFun := v.hist.flatMap fun p => infoFuns p.2

variable {v : VersionHash} {env : Env} {L : Bytes → Prop} {R : Store → Store → Prop}

theorem VersionHash.mem_hist_of_pending {p : Int × Option UpdInfo} {vers : Int}
    (hp : p ∈ v.pending vers) : p ∈ v.hist := by
  rw [v.pending_eq] at hp
  exact (after_suffix vers v.hist).subset hp

/-- `R` is kept by the walk to a value, by moves and by what an update function does besides
changing the value, and it looks at no version field of a shared integer. -/
structure KeptAround (nested : Nested) (env : Env) (v : VersionHash) (L : Bytes → Prop)
    (R : Store → Store → Prop) : Prop where
  shared : ∀ {s t}, R s t → ∀ n x, R { s with shared := Function.update s.shared n x }
    { t with shared := Function.update t.shared n x }
  walk : ∀ {s t k}, R s t → L k → getDbVal env v k t = getDbVal env v k s
  found : ∀ {s t k loc}, R s t → L k → getDbVal env v k s = .ok (some loc) → L loc
  vers : ∀ {s t k e}, R s t → L k → s.get env.d k = some e → Val.isSmall e.obj.val = false →
    t.vers e.obj = s.vers e.obj
  move : ∀ {s t k}, R s t → L k →
    RelRes R (namespaceUpdate env v k s) (namespaceUpdate env v k t)
  keys : (∀ k, L k) ∨ ∀ f ∈ v.funs, ∀ key a, (f key a).key = none
  calls : (∀ {s t}, R s t → ∀ argv, RelRes R (nested s argv) (nested t argv)) ∨
    ∀ f ∈ v.funs, ∀ key a, (f key a).calls = []

/-- `R` relates stores between the steps of a migration and `R₀` inside a step, where a
container may be missing for a moment. Both are kept at the places `L` of the selected
database. -/
structure Closed (nested : Nested) (env : Env) (v : VersionHash) (L : Bytes → Prop)
    (R₀ R : Store → Store → Prop) : Prop extends KeptAround nested env v L R where
  weak : ∀ {s t}, R s t → R₀ s t
  settle : ∀ {s t loc}, R₀ s t → L loc → s.has env.d loc = true → R s t
  get : ∀ {s t k}, R₀ s t → L k → t.get env.d k = s.get env.d k
  put₀ : ∀ {s t k}, R₀ s t → L k → ∀ x, R₀ (s.put env.d k x) (t.put env.d k x)
  put : ∀ {s t k}, R s t → L k → ∀ e, R (s.put env.d k (some e)) (t.put env.d k (some e))

section Primitives

variable {nested : Nested} {env : Env} {v : VersionHash} {L : Bytes → Prop}
  {R₀ R : Store → Store → Prop} (hR : Closed nested env v L R₀ R) {s t : Store}

include hR

variable {k : Bytes}

omit hR in
theorem runProc_cases (env : Env) (key : Bytes) (p : KeyProc) (x : Option Entry) :
    (∀ s : Store, s.get env.d key = x → runProc env key p s = s) ∨
      ∃ y, ∀ s : Store, s.get env.d key = x → runProc env key p s = s.put env.d key y := by
  have hlive : ∀ s : Store, s.get env.d key = x →
      liveEntry env.now (s.dbs env.d) key = x.filter (·.alive env.now) := by
    rintro s rfl
    rfl
  cases ha : (p ((x.filter (·.alive env.now)).map (·.obj.val))).2 with
  | keep =>
    -- the lookup deletes the key when it has expired
    have hrun : ∀ s : Store, s.get env.d key = x →
        runProc env key p s = s.setDb env.d (expireIfNeeded env.now (s.dbs env.d) key) := by
      intro s hs
      simp only [runProc, Step.exec, Step.outcome, hlive s hs, ha, Act.run]
    have hlook : ∀ s : Store, s.get env.d key = x → (s.dbs env.d).lookup key = x :=
      fun _ hs => hs
    cases x with
    | none =>
      refine .inl fun s hs => ?_
      rw [hrun s hs, expireIfNeeded, hlook s hs, Store.setDb_self]
    | some e =>
      by_cases hal : e.alive env.now = true
      · refine .inl fun s hs => ?_
        simp only [hrun s hs, expireIfNeeded, hlook s hs, hal, if_true, Store.setDb_self]
      · refine .inr ⟨none, fun s hs => ?_⟩
        simp only [hrun s hs, expireIfNeeded, hlook s hs, hal, Bool.false_eq_true, if_false]
        rfl
  | _ =>
    refine .inr ⟨(p ((x.filter (·.alive env.now)).map (·.obj.val))).2.apply 0
      (x.filter (·.alive env.now)), fun s hs => ?_⟩
    simp only [runProc, Step.exec, Step.outcome, hlive s hs, ha, Act.run]
    rfl

theorem Closed.runProc {key : Bytes} (h : R₀ s t) (hk : L key) (p : KeyProc) :
    R₀ (runProc env key p s) (runProc env key p t) := by
  rcases runProc_cases env key p (s.get env.d key) with hp | ⟨y, hp⟩
  · rw [hp s rfl, hp t (hR.get h hk)]
    exact h
  · rw [hp s rfl, hp t (hR.get h hk)]
    exact hR.put₀ h hk y

theorem Closed.setVers (h : R s t) (hk : L k) (vers : Int) :
    R (s.setVers env.d k vers) (t.setVers env.d k vers) := by
  rw [Store.setVers, Store.setVers, hR.get (hR.weak h) hk]
  cases s.get env.d k with
  | none => exact h
  | some e =>
    simp only
    split
    · exact hR.shared h _ _
    · exact hR.put h hk _

end Primitives

/-! ## Commands on containers -/

section Tame

variable (cfg : Cfg) (vs : List Bytes) (cur : Option Val) (l : List Bytes)

/-- The act changes a value to one of its kind, or makes a container where there was
nothing. -/
def Tame : Act → Prop
  | .keep | .delete => True
  | .modify x => ∃ y, cur = some y ∧ utypeOf x = utypeOf y ∧ x.isShared = false
  | .create x => cur = none ∧ x.isShared = false
  | _ => False

theorem storeList_tame (enc : ListEnc) (xs : NEList Bytes) (l : ListEnc × List Bytes) :
    Tame (some (.list enc xs)) (storeList true l) := by
  unfold storeList
  split
  · trivial
  · exact ⟨_, rfl, rfl, rfl⟩

theorem saddProc_tame : Tame cur (saddProc cfg vs cur).2 := by
  unfold saddProc
  split
  · split
    · trivial
    · exact ⟨rfl, rfl⟩
  · exact ⟨_, rfl, rfl, rfl⟩
  · trivial

theorem sremProc_tame : Tame cur (sremProc vs cur).2 := by
  unfold sremProc onSet
  split
  · trivial
  · simp only [storeSet]
    split
    · trivial
    · exact ⟨_, rfl, rfl, rfl⟩
  · trivial

theorem linsertBeforeProc_tame (pivot x : Bytes) (cur : Option Val) :
    Tame cur (linsertBeforeProc cfg pivot x cur).2 := by
  unfold linsertBeforeProc onList
  split
  · trivial
  · simp only
    split
    · exact storeList_tame _ _ _
    · exact storeList_tame _ _ _
  · trivial

theorem lremOneProc_tame (x : Bytes) (cur : Option Val) : Tame cur (lremOneProc x cur).2 := by
  unfold lremOneProc onList
  split
  · trivial
  · simp only
    split
    · exact storeList_tame _ _ _
    · trivial
  · trivial

theorem hsetProc_tame (fvs : List (Bytes × Bytes)) (reply : Bool → Reply)
    (cur : Option Val) : Tame cur (hsetProc cfg fvs reply cur).2 := by
  unfold hsetProc
  simp only
  split
  · trivial
  · exact ⟨rfl, rfl⟩
  · exact ⟨_, rfl, rfl, rfl⟩
  · trivial

theorem hdelProc_tame (cur : Option Val) : Tame cur (hdelProc l cur).2 := by
  unfold hdelProc onHash
  split
  · trivial
  · simp only [storeHash]
    split
    · trivial
    · exact ⟨_, rfl, rfl, rfl⟩
  · trivial

theorem zaddProc_tame (l : List (Bytes × Double)) (cur : Option Val) :
    Tame cur (zaddProc cfg l cur).2 := by
  unfold zaddProc
  split
  · split
    · trivial
    · exact ⟨rfl, rfl⟩
  · exact ⟨_, rfl, rfl, rfl⟩
  · trivial

theorem zremProc_tame (cur : Option Val) : Tame cur (zremProc l cur).2 := by
  unfold zremProc onZset
  split
  · trivial
  · simp only [storeZset]
    split
    · trivial
    · exact ⟨_, rfl, rfl, rfl⟩
  · trivial

end Tame

/-! ## Elements -/

theorem get_of_deref {loc : Bytes} {s : Store} {e : Entry} (h : deref env loc s = .ok e) :
    s.get env.d loc = some e := by
  unfold deref at h
  split at h
  · rename_i e' he
    cases h
    exact he
  · cases h

theorem has_of_deref {loc : Bytes} {s : Store} {e : Entry} (h : deref env loc s = .ok e) :
    s.has env.d loc = true := Store.has_of_get (get_of_deref h)

def ElemRel (R : Store → Store → Prop) (a b : Elem × Store) : Prop := b.1 = a.1 ∧ R a.2 b.2

/-- Two states of the update loop at one place. -/
inductive SameAt (key loc : Bytes) (R : Store → Store → Prop) : MSt → MSt → Prop
  | mk {subj : Subject} {s t : Store} : R s t → SameAt key loc R ⟨key, loc, subj, s⟩ ⟨key, loc, subj, t⟩

/-- `R` holds before an element is written back to the container at `loc` and after it, and `R₀`
between the commands that do it, where the container may be missing. -/
structure ElemSteps (env : Env) (key loc : Bytes) (R₀ R : Store → Store → Prop) : Prop where
  same : ∀ {s t}, R s t → t.get env.d loc = s.get env.d loc
  start : ∀ {s t e}, R s t → derefLive env loc s = .ok e → R₀ s t
  get : ∀ {s t}, R₀ s t → t.get env.d key = s.get env.d key ∧ t.get env.d loc = s.get env.d loc
  add : ∀ {s t p}, R s t → R₀ s t → (∀ cur, Tame cur (p cur).2) →
    R₀ (runProc env key p s) (runProc env key p t)
  remove : ∀ {s t p}, R₀ s t → (∀ cur, Tame cur (p cur).2) → (p none).2 = .keep →
    R₀ (runProc env key p s) (runProc env key p t)
  settle : ∀ {s t}, R₀ s t → s.has env.d loc = true → R s t

section Elements

variable {env : Env} {key loc : Bytes} {R₀ R : Store → Store → Prop}
  (hE : ElemSteps env key loc R₀ R) {s t s₁ t₁ s₂ t₂ : Store}

include hE

theorem ElemSteps.derefLive (h : R s t) : derefLive env loc t = derefLive env loc s := by
  simp only [KVolve.derefLive, KVolve.deref, hE.same h]

theorem ElemSteps.deref (h : R₀ s t) : deref env loc t = deref env loc s := by
  rw [KVolve.deref, KVolve.deref, (hE.get h).2]

theorem ElemSteps.val? (h : R₀ s t) :
    t.val? env.d key = s.val? env.d key ∧ t.val? env.d loc = s.val? env.d loc := by
  simp only [Store.val?, hE.get h, and_self]

theorem ElemSteps.close (h : R₀ s t) (el : Elem) :
    RelRes (ElemRel R) (KVolve.deref env loc s >>= fun _ => .ok (el, s))
      (KVolve.deref env loc t >>= fun _ => .ok (el, t)) :=
  RelRes.bind_same (hE.deref h) fun _ he => .ok ⟨rfl, hE.settle h (has_of_deref he)⟩

/-- Behind a check that comes out the same on both sides. -/
theorem ElemSteps.closeTable {used : Val → Option Nat} (h : R₀ s t) (h₁ : R₀ s₁ t₁)
    (h₂ : R₀ s₂ t₂) (e el : Elem) :
    RelRes (ElemRel R)
      (KVolve.deref env loc s₂ >>= fun _ => checkTable env key loc used e s s₁ s₂ >>= fun _ =>
        .ok (el, s₂))
      (KVolve.deref env loc t₂ >>= fun _ => checkTable env key loc used e t t₁ t₂ >>= fun _ =>
        .ok (el, t₂)) := by
  refine RelRes.bind_same (hE.deref h₂) fun _ he => ?_
  refine RelRes.bind_same (checkTable_congr (hE.val? h).2 (hE.val? h₁).2 (hE.val? h₂).2)
    fun _ _ => ?_
  exact .ok ⟨rfl, hE.settle h₂ (has_of_deref he)⟩

variable (h : R s t)

include h

theorem ElemSteps.updateSetElem (b : Bytes) (e : Elem) :
    RelRes (ElemRel R) (updateSetElem env key loc b e s)
      (updateSetElem env key loc b e t) := by
  unfold KVolve.updateSetElem
  refine RelRes.bind_same (hE.derefLive h) fun _ he => ?_
  have h₀ := hE.start h he
  rw [(hE.val? h₀).1]
  refine RelRes.bind_same rfl fun obj _ => ?_
  have h₁ := hE.add h h₀ (saddProc_tame env.cfg [cstr b])
  exact hE.closeTable h₀ h₁ (hE.remove h₁ (sremProc_tame [e.obj.bytes]) rfl) e _

theorem ElemSteps.updateListElem (b : Bytes) (e : Elem) :
    RelRes (ElemRel R) (updateListElem env key loc b e s)
      (updateListElem env key loc b e t) := by
  unfold KVolve.updateListElem
  refine RelRes.bind_same (hE.derefLive h) fun _ he => ?_
  have h₀ := hE.start h he
  refine RelRes.bind_same rfl fun obj _ => ?_
  rw [(hE.val? h₀).1]
  refine RelRes.bind_same rfl fun _ _ => ?_
  have h₁ := hE.add h h₀ (linsertBeforeProc_tame env.cfg e.obj.bytes (cstr b))
  exact hE.close (hE.remove h₁ (lremOneProc_tame e.obj.bytes) rfl) _

theorem ElemSteps.updateHashElem (f b : Bytes) (e : Elem) :
    RelRes (ElemRel R) (updateHashElem env key loc f b e s)
      (updateHashElem env key loc f b e t) := by
  unfold KVolve.updateHashElem
  refine RelRes.bind_same (hE.derefLive h) fun _ he => ?_
  have h₀ := hE.start h he
  rw [(hE.val? h₀).1]
  refine RelRes.bind_same rfl fun obj _ => ?_
  refine RelRes.bind_same rfl fun _ _ => ?_
  refine RelRes.bind_same rfl fun old _ => ?_
  have h₁ := hE.add h h₀ (hsetProc_tame env.cfg [(cstr f, cstr b)] fun _ => ok)
  split
  · exact hE.closeTable h₀ h₁ (hE.remove h₁ (hdelProc_tame [e.obj.bytes]) rfl) e _
  · exact hE.closeTable h₀ h₁ h₁ e _

theorem ElemSteps.updateZsetElem (m : Bytes) (score : Double) (e : Elem) :
    RelRes (ElemRel R) (updateZsetElem env key loc m score e s)
      (updateZsetElem env key loc m score e t) := by
  unfold KVolve.updateZsetElem
  refine RelRes.bind_same (hE.derefLive h) fun _ he => ?_
  have h₀ := hE.start h he
  have hadd : RelRes (fun a b : Str × Store => b.1 = a.1 ∧ R₀ a.2 b.2)
      (zaddElem env key (cstr m) score s) (zaddElem env key (cstr m) score t) := by
    unfold zaddElem
    rw [(hE.val? h₀).1]
    split
    · refine RelRes.bind_same rfl fun obj _ => ?_
      exact .ok ⟨rfl, hE.add h h₀ (zaddProc_tame env.cfg _)⟩
    · exact .ok ⟨rfl, h₀⟩
  refine hadd.bind fun a b hab => ?_
  rw [hab.1]
  split
  · exact hE.close (hE.remove hab.2 (zremProc_tame [e.obj.bytes]) rfl) _
  · exact hE.close hab.2 _

theorem ElemSteps.changeElem (subj : Subject) (type : UType) (r : UpdRes) (e : Elem) :
    RelRes (SameAt key loc R) (changeElem env type r e ⟨key, loc, subj, s⟩)
      (changeElem env type r e ⟨key, loc, subj, t⟩) := by
  have hkept : SameAt key loc R ⟨key, loc, subj, s⟩ ⟨key, loc, subj, t⟩ := .mk h
  -- what is written back is related, whatever element comes with it
  have hdone : ∀ {x y : Res (Elem × Store)}, RelRes (ElemRel R) x y →
      RelRes (SameAt key loc R) ((fun p : Elem × Store => (⟨key, loc, .elem p.1, p.2⟩ : MSt)) <$> x)
        ((fun p : Elem × Store => (⟨key, loc, .elem p.1, p.2⟩ : MSt)) <$> y) := by
    intro x y hxy
    refine hxy.map fun p q hpq => ?_
    obtain ⟨e₁, s₁⟩ := p
    obtain ⟨e₂, s₂⟩ := q
    obtain ⟨rfl, hs⟩ := hpq
    exact .mk hs
  unfold KVolve.changeElem
  cases type with
  | string => exact .ok hkept
  | set =>
    simp only
    split
    · exact .ok hkept
    · exact hdone (hE.updateSetElem h _ _)
  | list =>
    simp only
    split
    · exact .ok hkept
    · exact hdone (hE.updateListElem h _ _)
  | zset =>
    simp only
    split
    · exact hdone (hE.updateZsetElem h _ _ _)
    · exact .ok hkept
  | hash =>
    simp only
    split
    · refine RelRes.bind_same rfl fun f _ => ?_
      refine RelRes.bind_same rfl fun w _ => ?_
      exact hdone (hE.updateHashElem h _ _ _)
    · exact .ok hkept

end Elements

/-- What a relation of a store to itself says about the store that is left. -/
theorem ElemSteps.left {env : Env} {R₀ R : Store → Store → Prop} {st st' : MSt} {type : UType}
    {r : UpdRes} {e : Elem} (hE : ElemSteps env st.key st.loc R₀ R) (h : R st.s st.s)
    (hok : KVolve.changeElem env type r e st = .ok st') :
    st'.key = st.key ∧ st'.loc = st.loc ∧ ∃ s, R st'.s s := by
  obtain ⟨_, -, hrel⟩ := (hE.changeElem h st.subj type r e).of_ok hok
  obtain ⟨h'⟩ := hrel
  exact ⟨rfl, rfl, _, h'⟩

theorem Closed.elems {nested : Nested} {R₀ : Store → Store → Prop}
    (hR : Closed nested env v L R₀ R) {key loc : Bytes} (hk : L key) (hl : L loc) :
    ElemSteps env key loc R₀ R where
  same h := hR.get (hR.weak h) hl
  start h _ := hR.weak h
  get h := ⟨hR.get h hk, hR.get h hl⟩
  add _ h _ := hR.runProc h hk _
  remove h _ _ := hR.runProc h hk _
  settle h hhas := hR.settle h hl hhas

/-! ## Relations carried through a migration -/

/-- `R` is kept by every step of a migration at the places `L` of the selected database. -/
structure Carried (nested : Nested) (env : Env) (v : VersionHash) (L : Bytes → Prop)
    (R : Store → Store → Prop) : Prop extends KeptAround nested env v L R where
  get : ∀ {s t k}, R s t → L k → t.get env.d k = s.get env.d k
  raw : ∀ {s t k e b}, R s t → L k → s.get env.d k = some e → e.obj.val = .str (.raw b) → ∀ c,
    R (s.put env.d k (some { e with obj := { e.obj with val := .str (.raw c) } }))
      (t.put env.d k (some { e with obj := { e.obj with val := .str (.raw c) } }))
  tag : ∀ {s t k}, R s t → L k → ∀ vers, R (s.setVers env.d k vers) (t.setVers env.d k vers)
  elems : ∀ {key loc}, L key → L loc → ∃ R₀, ElemSteps env key loc R₀ R

theorem Closed.carried {nested : Nested} {R₀ : Store → Store → Prop}
    (hR : Closed nested env v L R₀ R) :
    Carried nested env v L R where
  toKeptAround := hR.toKeptAround
  get h hk := hR.get (hR.weak h) hk
  raw h hk _ _ _ := hR.put h hk _
  tag h hk vers := hR.setVers h hk vers
  elems hk hl := ⟨R₀, hR.elems hk hl⟩

section Places

variable {nested : Nested} {env : Env} {v : VersionHash} {L : Bytes → Prop}
  {R : Store → Store → Prop} (hR : Carried nested env v L R) {s t : Store}

include hR

theorem Carried.has {k : Bytes} (h : R s t) (hk : L k) : t.has env.d k = s.has env.d k := by
  rw [Store.has, Store.has, hR.get h hk]

theorem Carried.deref {loc : Bytes} (h : R s t) (hl : L loc) :
    deref env loc t = deref env loc s := by
  rw [KVolve.deref, KVolve.deref, hR.get h hl]

end Places

/-! ## The update loop -/

/-- Two states of the update loop that differ in the store only. -/
inductive MRel (L : Bytes → Prop) (R : Store → Store → Prop) : MSt → MSt → Prop
  | mk {key loc : Bytes} {subj : Subject} {s t : Store} : R s t → L key → L loc →
      MRel L R ⟨key, loc, subj, s⟩ ⟨key, loc, subj, t⟩

section Loop

variable {nested : Nested} {env : Env} {v : VersionHash} {L : Bytes → Prop}
  {R : Store → Store → Prop} (hR : Carried nested env v L R) {s t : Store} {a b : MSt}

include hR

variable {f : UpdFun}

theorem Carried.runCalls {loc : Bytes} (h : R s t) (hl : L loc) (hf : f ∈ v.funs) (key : Bytes)
    (arg : UpdArg) :
    RelRes R (runCalls nested env (f key arg).calls loc s)
      (runCalls nested env (f key arg).calls loc t) := by
  rcases hR.calls with hc | hc
  · unfold KVolve.runCalls
    split
    · exact .ok h
    · refine (RelRes.foldlM (fun s t hst argv _ => hc hst argv) h).bind fun s' t' h' => ?_
      rw [hR.get h' hl, hR.get h hl]
      split
      · exact .ok h'
      · exact .error _
  · rw [hc f hf, KVolve.runCalls, KVolve.runCalls, if_pos rfl, if_pos rfl]
    exact .ok h

theorem Carried.track {key loc : Bytes} (h : R s t) (hk : L key) (hl : L loc) :
    track env key loc t = track env key loc s ∧ L (track env key loc s) := by
  rw [KVolve.track, KVolve.track, hR.has h hl]
  refine ⟨rfl, ?_⟩
  split
  · exact hl
  · exact hk

variable (h : MRel L R a b)

include h

theorem Carried.changeKey (checkKey : Bool) (hf : f ∈ v.funs) (key : Bytes) (arg : UpdArg) :
    RelRes (MRel L R) (changeKey env v checkKey (f key arg).key a)
      (changeKey env v checkKey (f key arg).key b) := by
  cases h with
  | mk h hk hl =>
    unfold KVolve.changeKey
    split
    · rename_i k hkey
      -- the function asks for another key: then every place is allowed
      have hall : ∀ k, L k := by
        rcases hR.keys with hall | hnone
        · exact hall
        · rw [hnone f hf] at hkey
          cases hkey
      refine (hR.move h (hall _)).bind fun s t hst => ?_
      obtain ⟨htr, hl'⟩ := hR.track hst (hall (cstr k)) hl
      simp only [htr]
      exact .ok (.mk hst (hall _) hl')
    · exact .ok (.mk h hk hl)

theorem Carried.changeStored (type : UType) (r : UpdRes) :
    RelRes (MRel L R) (changeStored env type r a) (changeStored env type r b) := by
  cases h with
  | mk h hk hl =>
    unfold KVolve.changeStored
    split
    · split
      · exact .ok (.mk h hk hl)
      · refine RelRes.bind_same (hR.deref h hl) fun c hc => ?_
        split
        · rename_i b' hraw
          exact .ok (.mk (hR.raw h hl (get_of_deref hc) hraw _) hk hl)
        · exact .error _
    · split
      · exact .error _
      · exact .ok (.mk h hk hl)

theorem Carried.changeElem (type : UType) (r : UpdRes) (e : Elem) :
    RelRes (MRel L R) (changeElem env type r e a) (changeElem env type r e b) := by
  cases h with
  | @mk key loc subj s t h hk hl =>
    obtain ⟨R₀, hE⟩ := hR.elems hk hl
    refine (hE.changeElem h subj type r e).mono ?_
    rintro _ _ ⟨h'⟩
    exact .mk h' hk hl

theorem Carried.argOf (type : UType) : argOf env type b = argOf env type a := by
  cases h with
  | mk h hk hl =>
    rw [KVolve.argOf, KVolve.argOf]
    simp only [hR.deref h hl]

theorem Carried.applyFun (checkKey : Bool) (type : UType) (hf : f ∈ v.funs) :
    RelRes (MRel L R) (applyFun nested env v checkKey type a f)
      (applyFun nested env v checkKey type b f) := by
  unfold KVolve.applyFun
  refine RelRes.bind_same (hR.argOf h type) fun arg _ => ?_
  cases h with
  | mk h hk hl =>
    refine (hR.runCalls h hl hf _ arg).bind fun s t hst => ?_
    refine (hR.changeKey (.mk hst hk hl) checkKey hf _ arg).bind fun a' b' h' => ?_
    cases h' with
    | @mk _ _ subj _ _ h' hk' hl' =>
      cases subj with
      | stored => exact hR.changeStored (.mk h' hk' hl') type _
      | elem e => exact hR.changeElem (.mk h' hk' hl') type _ e

theorem Carried.bump (vers : Int) : RelRes (MRel L R) (bump env vers a) (bump env vers b) := by
  cases h with
  | @mk _ _ subj _ _ h hk hl =>
    cases subj with
    | stored =>
      unfold KVolve.bump
      refine RelRes.bind_same (hR.deref h hl) fun c _ => ?_
      exact .ok (.mk (hR.tag h hl vers) hk hl)
    | elem e => exact .ok (.mk h hk hl)

theorem Carried.updateTo (checkKey : Bool) (type : UType)
    {p : Int × Option UpdInfo} (hp : p ∈ v.hist) :
    RelRes (MRel L R) (updateTo nested env v checkKey type a p)
      (updateTo nested env v checkKey type b p) := by
  unfold KVolve.updateTo
  refine (RelRes.foldlM (fun a b hab f hf => ?_) h).bind fun a b hab => hR.bump hab p.1
  exact hR.applyFun hab checkKey type (List.mem_flatMap.mpr ⟨p, hp, hf⟩)

omit h

theorem Carried.checkRenameOne {key : Bytes} (h : R s t) (hk : L key) :
    RelRes R (checkRenameOne env v key s) (checkRenameOne env v key t) := by
  unfold KVolve.checkRenameOne
  refine RelRes.bind_same (hR.walk h hk) fun loc hloc => ?_
  have hget : loc.bind (t.get env.d) = loc.bind (s.get env.d) := by
    cases loc with
    | none => rfl
    | some loc => exact hR.get h (hR.found h hk hloc)
  rw [hget]
  split
  · exact .ok h
  · split
    · exact hR.move h hk
    · rename_i e _ _ hint
      have hvers : t.vers e.obj = s.vers e.obj := by
        unfold Store.vers
        split
        · rename_i n heq
          exact absurd heq (hint n true)
        · rfl
      rw [hvers]
      split
      · exact hR.move h hk
      · exact .ok h

theorem Carried.checkRename {keys : List Bytes} (h : R s t) (hks : ∀ k ∈ keys, L k) :
    RelRes R (checkRename env v keys s) (checkRename env v keys t) := by
  unfold KVolve.checkRename
  split
  · exact .ok h
  · refine RelRes.foldlM ?_ h
    intro s t hst k hk
    exact hR.checkRenameOne hst (hks k hk)

theorem Carried.moveFirst (h : MRel L R a b) (checkKey : Bool) (vers : Int) :
    RelRes (MRel L R) (moveFirst env v checkKey vers a) (moveFirst env v checkKey vers b) := by
  cases h with
  | mk h hk hl =>
    unfold KVolve.moveFirst
    split
    · refine (hR.move h hk).bind fun s t hst => ?_
      obtain ⟨htr, hl'⟩ := hR.track hst hk hl
      simp only [htr]
      exact .ok (.mk hst hk hl')
    · exact .ok (.mk h hk hl)

theorem Carried.migrateSubject (h : MRel L R a b) (checkKey : Bool) (type : UType) (small : Bool)
    (vers : Int) :
    RelRes (MRel L R) (migrateSubject nested env v checkKey type small vers a)
      (migrateSubject nested env v checkKey type small vers b) := by
  unfold KVolve.migrateSubject
  split
  · cases h with
    | @mk key loc _ _ _ h hk hl =>
      refine (hR.checkRename h (by simpa using hk)).bind fun s t hst => ?_
      obtain ⟨htr, hl'⟩ := hR.track hst hk hl
      simp only [htr]
      exact .ok (.mk hst hk hl')
  · split
    · exact .ok h
    · refine (hR.moveFirst h checkKey vers).bind fun a b hab => ?_
      refine RelRes.foldlM ?_ hab
      intro a b hab p hp
      exact hR.updateTo hab checkKey type (VersionHash.mem_hist_of_pending hp)

end Loop

/-! ## Checks for updates -/

inductive KRel (L : Bytes → Prop) (R : Store → Store → Prop) :
    Bytes × Bytes × Store → Bytes × Bytes × Store → Prop
  | mk {key loc : Bytes} {s t : Store} : R s t → L key → L loc → KRel L R (key, loc, s) (key, loc, t)

def CuClosed (cu : CheckUpdate) (env : Env) (v : VersionHash) (L : Bytes → Prop)
    (R : Store → Store → Prop) : Prop :=
  ∀ (checkKey : Bool) {loc key : Bytes} (o : Option Elem) (type : UType) {s t : Store},
    R s t → L loc → L key →
      RelRes (KRel L R) (cu env v checkKey loc o type key s) (cu env v checkKey loc o type key t)

theorem MRel.free {env : Env} {L : Bytes → Prop} {R : Store → Store → Prop} {a b : MSt}
    (h : MRel L R a b)
    (hderef : ∀ {s t loc}, R s t → L loc → deref env loc t = deref env loc s) :
    b.free env = a.free env := by
  obtain @⟨key, loc, subj, s, t, h, hk, hl⟩ := h
  cases subj with
  | stored => rfl
  | elem e =>
    show e.free env loc t = e.free env loc s
    rw [Elem.free, Elem.free, hderef h hl]

theorem cuClosed_skip (env : Env) (v : VersionHash) {L : Bytes → Prop} {R : Store → Store → Prop}
    (hderef : ∀ {s t loc}, R s t → L loc → deref env loc t = deref env loc s) :
    CuClosed checkUpdateSkip env v L R :=
  fun _ _ _ _ _ _ _ h hl hk =>
    RelRes.bind_same ((MRel.mk h hk hl).free hderef) fun _ _ => .ok (.mk h hk hl)

/-- The whole migration keeps a relation that its steps keep. -/
theorem Carried.checkUpdate {nested : Nested} (hR : Carried nested env v L R) :
    CuClosed (checkUpdateWith nested) env v L R := by
  intro checkKey loc key o type s t h hl hk
  -- the state the loop ends in is handed back without its object
  have hend : ∀ {a b : MSt}, MRel L R a b →
      RelRes (KRel L R) (.ok (a.key, a.loc, a.s) : Res _) (.ok (b.key, b.loc, b.s)) := by
    intro a b hab
    cases hab with
    | mk h hk hl => exact .ok (.mk h hk hl)
  unfold checkUpdateWith
  cases o with
  | some e =>
    simp only
    refine (hR.migrateSubject (.mk h hk hl) checkKey type _ _).bind fun a b hab => ?_
    exact RelRes.bind_same (hab.free fun h hl => hR.deref h hl) fun _ _ => hend hab
  | none =>
    simp only
    refine RelRes.bind_same (hR.walk h hk) fun found hfound => ?_
    cases found with
    | none => exact .ok (.mk h hk hl)
    | some loc' =>
      have hl' := hR.found h hk hfound
      refine RelRes.bind_same (hR.deref h hl') fun c hc => ?_
      have hget := get_of_deref hc
      cases hsm : Val.isSmall c.obj.val with
      | true =>
        -- the version of a small integer is not looked at
        have hsame : ∀ vers vers' st,
            KVolve.migrateSubject nested env v checkKey type true vers st =
              KVolve.migrateSubject nested env v checkKey type true vers' st := fun _ _ _ => rfl
        rw [hsame (t.vers c.obj) (s.vers c.obj)]
        exact (hR.migrateSubject (.mk h hk hl') checkKey type _ _).bind fun a b hab => hend hab
      | false =>
        rw [hR.vers h hl' hget hsm]
        exact (hR.migrateSubject (.mk h hk hl') checkKey type _ _).bind fun a b hab => hend hab

theorem Carried.checkUpdateKvPair (hR : Carried (updRedisCall env) env v L R) :
    CuClosed checkUpdateKvPair env v L R :=
  fun checkKey _ _ o type _ _ h hl hk => hR.checkUpdate checkKey o type h hl hk

end SchemaUpdate.KVolve
