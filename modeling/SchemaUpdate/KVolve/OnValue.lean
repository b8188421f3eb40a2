import SchemaUpdate.KVolve.Texts

/-! # The migration of a container as a computation on its value

An element loop writes every change back by commands on the key it works for. As
long as the update functions leave the key alone, nothing but the value held there
has a part in it: the loop over the store follows a loop over the value, and fails
where that one fails. -/

namespace SchemaUpdate.KVolve

open SchemaUpdate.Lib SchemaUpdate.Redis

def HeldAs (env : Env) (key : Bytes) (t : Int) (x : Option Int) (val : Val) (s : Store) : Prop :=
  s.get env.d key = some ⟨⟨t, val⟩, x⟩

/-- The container asked for by `key` is found, and is under that name once the first element is
looked at. -/
structure Reached (env : Env) (v : VersionHash) (key : Bytes) (t : Int) (x : Option Int)
    (val : Val) (s : Store) : Prop where
  outdated : t ≠ v.cur
  alive : (⟨⟨t, val⟩, x⟩ : Entry).alive env.now = true
  found : ∃ loc s₁, getDbVal env v key s = .ok (some loc) ∧ HeldAs env loc t x val s ∧
    moved env v t ⟨true, key, loc, s⟩ = .ok ⟨false, key, key, s₁⟩ ∧ HeldAs env key t x val s₁

def PlainFun (f : UpdFun) : Prop := ∀ key a, (f key a).key = none ∧ (f key a).calls = []

/-! ## The loop over the value -/

section Loop

variable {α : Type} (env : Env) (type : UType) (key : Bytes)
  (upd : UpdRes → Elem → α → Res (Elem × α))

def funOn (q : Elem × α) (f : UpdFun) : Res (Elem × α) := do
  let arg ← elemArg env type q.1
  upd (f (cstr key) arg) q.1 q.2

def elemOn (funs : List UpdFun) (a : α) (e : Elem) : Res α := do
  let q ← funs.foldlM (funOn env type key upd) (e, a)
  if q.1.held then .error .useAfterFree else .ok q.2

/-- `dictReleaseIterator` on the value that the loop ends with. -/
def releasedOn (val : α → Val) (a : α) (r : Res α) : Res α :=
  match dictUsed (val a), r with
  | some _, .error .freed => .error .assertFail
  | some n, .ok b => if dictUsed (val b) = some n then .ok b else .error .assertFail
  | _, r => r

theorem releasedOn_ok {val : α → Val} {a b : α} {r : Res α} : releasedOn val a r = .ok b ↔
    r = .ok b ∧ ∀ n, dictUsed (val a) = some n → dictUsed (val b) = some n := by
  unfold releasedOn
  cases hval : dictUsed (val a) with
  | none => simp
  | some n =>
    cases r with
    | error f => cases f <;> simp
    | ok b' =>
      simp only [Option.some.injEq, forall_eq', Except.ok.injEq]
      split
      · rename_i hkept
        simp only [Except.ok.injEq, iff_self_and]
        rintro rfl
        exact hkept
      · rename_i hlost
        simp only [reduceCtorEq, false_iff, not_and]
        rintro rfl
        exact hlost

end Loop

section Updates

variable {α : Type} {env : Env} {type : UType} {key : Bytes} {t : Int} {x : Option Int}
  {val : α → Val} {upd : UpdRes → Elem → α → Res (Elem × α)}

/-- The state of an update loop whose object is the element of `q`, up to its tag, with the
value of `q` under the key. -/
structure On (env : Env) (k : Bytes) (t : Int) (x : Option Int) (val : α → Val) (st : MSt)
    (q : Elem × α) : Prop where
  key : st.key = k
  loc : st.loc = k
  subj : ∃ n, st.subj = .elem { q.1 with vers := n }
  held : HeldAs env k t x (val q.2) st.s

/-- `upd` is what the updater of the type does to the value. -/
def UpdatesAs (env : Env) (type : UType) (key : Bytes) (t : Int) (x : Option Int) (val : α → Val)
    (upd : UpdRes → Elem → α → Res (Elem × α)) : Prop :=
  ∀ r e n a s, HeldAs env key t x (val a) s →
    RelRes (On env key t x val)
      (changeElem env type r { e with vers := n } ⟨key, key, .elem { e with vers := n }, s⟩)
      (upd r e a)

variable (hupd : UpdatesAs env type key t x val upd) (nested : Nested) (v : VersionHash)
  (checkKey : Bool)

include hupd

theorem applyFun_on {f : UpdFun} (hf : PlainFun f) {st : MSt} {q : Elem × α}
    (h : On env key t x val st q) :
    RelRes (On env key t x val) (applyFun nested env v checkKey type st f)
      (funOn env type key upd q f) := by
  obtain ⟨stkey, stloc, subj, s⟩ := st
  obtain ⟨hkey, hloc, ⟨n, hsubj⟩, hheld⟩ := h
  cases hkey
  cases hloc
  cases hsubj
  unfold applyFun funOn
  rw [argOf_elem rfl]
  refine RelRes.bind_same rfl fun arg _ => ?_
  obtain ⟨hk, hcalls⟩ := hf (cstr stkey) arg
  simp only [hk, hcalls, runCalls, changeKey, if_true, ok_bind]
  exact hupd _ q.1 n q.2 s hheld

theorem updateTo_on {u : Int × Option UpdInfo} (hf : ∀ f ∈ infoFuns u.2, PlainFun f) {st : MSt}
    {q : Elem × α} (h : On env key t x val st q) :
    RelRes (On env key t x val) (updateTo nested env v checkKey type st u)
      ((infoFuns u.2).foldlM (funOn env type key upd) q) := by
  have hfold : RelRes (On env key t x val)
      ((infoFuns u.2).foldlM (applyFun nested env v checkKey type) st)
      ((infoFuns u.2).foldlM (funOn env type key upd) q) :=
    RelRes.foldlM (fun _ _ hst f hmem => applyFun_on hupd nested v checkKey (hf f hmem) hst) h
  have htag := hfold.bind (f := bump env u.1) (g := pure) (S := On env key t x val)
    fun st q hst => by
      obtain ⟨n, hsubj⟩ := hst.subj
      rw [bump, hsubj]
      exact .ok ⟨hst.key, hst.loc, ⟨u.1, rfl⟩, hst.held⟩
  rw [bind_pure] at htag
  exact htag

theorem pending_on (pend : List (Int × Option UpdInfo))
    (hf : ∀ f ∈ pend.flatMap fun u => infoFuns u.2, PlainFun f) {st : MSt} {q : Elem × α}
    (h : On env key t x val st q) :
    RelRes (On env key t x val) (pend.foldlM (updateTo nested env v checkKey type) st)
      ((pend.flatMap fun u => infoFuns u.2).foldlM (funOn env type key upd) q) := by
  induction pend generalizing st q with
  | nil => exact .ok h
  | cons u pend ih =>
    rw [List.flatMap_cons] at hf ⊢
    rw [List.foldlM_cons, List.foldlM_append]
    refine (updateTo_on hupd nested v checkKey
      (fun f hmem => hf f (List.mem_append_left _ hmem)) h).bind fun st' q' h' => ?_
    exact ih (fun f hmem => hf f (List.mem_append_right _ hmem)) h'

end Updates

/-! ## The loop over the store -/

section Elements

variable {α : Type} {env : Env} {type : UType} {key : Bytes} {t : Int} {x : Option Int}
  {val : α → Val} {upd : UpdRes → Elem → α → Res (Elem × α)} {v : VersionHash}
  (hupd : UpdatesAs env type key t x val upd) (hf : ∀ f ∈ v.funsFrom t, PlainFun f)
  (ht : t ≠ v.cur) (hval : ∀ a, utypeOf (val a) ≠ .string)
  (halive : ∀ a, (⟨⟨t, val a⟩, x⟩ : Entry).alive env.now = true)

/-- What an element loop leaves. -/
structure LoopOn (env : Env) (k : Bytes) (t : Int) (x : Option Int) (val : α → Val) (st : LSt)
    (a : α) : Prop where
  first : st.first = false
  key : st.key = k
  loc : st.loc = k
  held : HeldAs env k t x (val a) st.s

variable {a : α} {st : LSt}

theorem LoopOn.heldAtLoc (h : LoopOn env key t x val st a) :
    HeldAs env st.loc t x (val a) st.s := by
  rw [h.loc]
  exact h.held

theorem LoopOn.released {run : Res LSt} {r : Res α} (h : RelRes (LoopOn env key t x val) run r) :
    RelRes (LoopOn env key t x val) (released env (val a) run) (releasedOn val a r) := by
  unfold KVolve.released releasedOn
  cases dictUsed (val a) with
  | none => exact h
  | some n =>
    cases h with
    | error f => cases f <;> exact .error _
    | ok hst =>
      have hval := hst.heldAtLoc
      rw [HeldAs] at hval
      simp only [Store.val?, hval, Option.map_some, Option.bind_some]
      split
      · exact .ok hst
      · exact .error _

include hval halive in
theorem HeldAs.stands {loc : Bytes} {s : Store} (h : HeldAs env loc t x (val a) s) :
    Stands env t loc s := ⟨_, h, rfl, halive a, hval a⟩

include hupd hf ht hval halive

theorem elemStep_on {st₁ : LSt} (hst : HeldAs env st.loc t x (val a) st.s)
    (hmoved : moved env v t st = .ok st₁) (h : LoopOn env key t x val st₁ a) {e : Elem} {b : Bytes}
    (hobj : e.obj = .raw b) :
    RelRes (LoopOn env key t x val) (elemStep checkUpdateKvPair env v type st e)
      (elemOn env type key upd (v.funsFrom t) a e) := by
  rw [elemStep_text ht (hst.stands hval halive) hobj, hmoved, ok_bind]
  have hon : On env key t x val ⟨st₁.key, st₁.loc, .elem { e with vers := t }, st₁.s⟩ (e, a) :=
    ⟨h.key, h.loc, ⟨t, rfl⟩, h.held⟩
  have hpend := pending_on hupd (updRedisCall env) v st.first (v.pending t) hf hon
  refine hpend.bind fun st' q h' => ?_
  obtain ⟨n, hsubj⟩ := h'.subj
  have hfree : st'.free env = if q.1.held then .error .useAfterFree else .ok () := by
    have hheld : st'.s.get env.d st'.loc = some ⟨⟨t, val q.2⟩, x⟩ := by
      rw [h'.loc]
      exact h'.held
    simp only [MSt.free, hsubj, Elem.free, deref, hheld, ok_bind]
    rfl
  rw [hfree]
  split
  · exact .error _
  · exact .ok ⟨rfl, h'.key, h'.loc, h'.held⟩

theorem elemStep_stay (h : LoopOn env key t x val st a) {e : Elem} {b : Bytes}
    (hobj : e.obj = .raw b) :
    RelRes (LoopOn env key t x val) (elemStep checkUpdateKvPair env v type st e)
      (elemOn env type key upd (v.funsFrom t) a e) := by
  have hstay : moved env v t st = .ok st := by
    obtain ⟨first, stkey, stloc, s⟩ := st
    obtain ⟨hfirst, hkey, hloc, -⟩ := h
    cases hfirst
    rfl
  exact elemStep_on hupd hf ht hval halive h.heldAtLoc hstay h hobj

theorem elems_first {step : LSt → Elem → Res LSt} {l : List Elem} (hne : l ≠ [])
    (hraw : ∀ e ∈ l, ∃ b, e.obj = .raw b)
    (hstep : ∀ e ∈ l, ∀ st a, HeldAs env st.loc t x (val a) st.s →
      step st e = elemStep checkUpdateKvPair env v type st e)
    {st₁ : LSt} (hst : HeldAs env st.loc t x (val a) st.s)
    (hmoved : moved env v t st = .ok st₁) (h : LoopOn env key t x val st₁ a) :
    RelRes (LoopOn env key t x val) (l.foldlM step st)
      (l.foldlM (elemOn env type key upd (v.funsFrom t)) a) := by
  cases l with
  | nil => exact absurd rfl hne
  | cons e l =>
    obtain ⟨⟨b, hobj⟩, hraw⟩ := List.forall_mem_cons.mp hraw
    obtain ⟨hstep₁, hstep⟩ := List.forall_mem_cons.mp hstep
    rw [List.foldlM_cons, List.foldlM_cons, hstep₁ st a hst]
    refine (elemStep_on hupd hf ht hval halive hst hmoved h hobj).bind fun st b hst => ?_
    refine RelRes.foldlM (fun st a h e he => ?_) hst
    obtain ⟨b, hobj⟩ := hraw e he
    rw [hstep e he st a h.heldAtLoc]
    exact elemStep_stay hupd hf ht hval halive h hobj

omit hupd hf ht halive in
/-- **The frame of the container functions**, around a loop that follows the value: the value
the loop ends with is held under the key, and is current. -/
theorem updateAll_on {s : Store} (h : Reached env v key t x (val a) s)
    {loop : Int → Val → LSt → Option (Res LSt)} {r : Res α}
    (hloop : ∀ loc s₁, HeldAs env loc t x (val a) s →
      moved env v t ⟨true, key, loc, s⟩ = .ok ⟨false, key, key, s₁⟩ → HeldAs env key t x (val a) s₁ →
      ∃ run, loop t (val a) ⟨true, key, loc, s⟩ = some run ∧
        RelRes (LoopOn env key t x val) run r) :
    RelRes (fun out b => out.2.1 = key ∧ HeldAs env key v.cur x (val b) out.2.2)
      (updateAll env v key s loop) r := by
  obtain ⟨loc, s₁, hfound, hheld, hmoved, hheld₁⟩ := h.found
  obtain ⟨run, hloop, hrun⟩ := hloop loc s₁ hheld hmoved hheld₁
  have hvers : ∀ b (u : Store), u.vers ⟨t, val b⟩ = t := fun b u =>
    vers_of_kind (show utypeOf (Robj.val ⟨t, val b⟩) ≠ .string from hval b) u
  have hderef : deref env loc s = .ok ⟨⟨t, val a⟩, x⟩ := by rw [deref, hheld]
  unfold updateAll
  rw [hfound, ok_bind]
  simp only
  rw [hderef, ok_bind]
  simp only [hvers, if_neg h.outdated]
  rw [hloop]
  simp only
  have hmark := hrun.bind (f := fun st => deref env st.loc st.s >>= fun _ =>
      (Except.ok ((0 : Int), st.key, st.s.setVers env.d st.loc v.cur) : Res _)) (g := pure)
    (S := fun out b => out.2.1 = key ∧ HeldAs env key v.cur x (val b) out.2.2) fun st b hst => by
      have hd : deref env st.loc st.s = .ok ⟨⟨t, val b⟩, x⟩ := by rw [deref, hst.loc, hst.held]
      rw [hd, ok_bind]
      refine .ok ⟨hst.key, ?_⟩
      have hunshared : (val b).isShared = false := by
        have hkind := hval b
        cases hv : val b <;> rw [hv] at hkind <;> first | rfl | exact absurd rfl hkind
      rw [HeldAs, Store.get_setVers, hst.loc, if_pos ⟨rfl, rfl⟩, hst.held]
      simp only [Option.map_some, retag, hunshared]
      rfl
  rw [bind_pure] at hmark
  exact hmark

end Elements

/-! ## A container that waits for one update -/

def updatedOnce (funs : List UpdFun) : VersionHash :=
  { VersionHash.first (lit "a") 1 ∅ with
    hist := [(1, none), (2, some ⟨lit "a", lit "a", 1, 2, funs⟩)], ne := by simp,
    room := by simp [kvInitSz] }

def demoEnv (cfg : Cfg) : Env := ⟨cfg, 0, 0, 0, fun _ => [], fun _ => {}⟩

def heldOnce (val : Val) : Store := Store.init.put 0 (lit "a:s") (some ⟨⟨1, val⟩, none⟩)

theorem heldOnce_reached (cfg : Cfg) (funs : List UpdFun) (val : Val) :
    Reached (demoEnv cfg) (updatedOnce funs) (lit "a:s") 1 none val (heldOnce val) where
  outdated := show (1 : Int) ≠ 2 by decide
  alive := rfl
  found := ⟨lit "a:s", heldOnce val, rfl, rfl, rfl, rfl⟩

end SchemaUpdate.KVolve
