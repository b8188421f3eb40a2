import SchemaUpdate.KVolve.Links
import SchemaUpdate.KVolve.Logged
import SchemaUpdate.KVolve.Tags

/-! # What a migration without functions does to the memory

An assertion that fails and a panic take the server down; freed memory that is used may. The
functions of containers meet all three: a value that they cannot go through, an element
that they free while the container or the server still holds it, and an entry that has
expired under its previous name, which the rename deletes while it is being worked on. -/

namespace SchemaUpdate.KVolve

open SchemaUpdate.Lib SchemaUpdate.Redis

/-! ## Faults -/

/-- An assertion, a panic, or freed memory in use, after which neither can be ruled out. -/
@[simp] def Fault.aborts : Fault → Bool
  | .assertFail | .panic | .freed | .useAfterFree => true
  | _ => false

/-- No assertion fails, no panic is reached and no freed memory is used. -/
def NoAbort {α : Type} : Res α → Prop
  | .ok _ => True
  | .error f => f.aborts = false

section NoAbort

variable {α β σ : Type}

@[simp] theorem noAbort_ok (a : α) : NoAbort (.ok a : Res α) := trivial

@[simp] theorem noAbort_error {f : Fault} : NoAbort (.error f : Res α) ↔ f.aborts = false := .rfl

theorem noAbort_bind {x : Res α} {f : α → Res β} :
    NoAbort (x >>= f) ↔ NoAbort x ∧ ∀ a, x = .ok a → NoAbort (f a) := by
  cases x with
  | error e => simp
  | ok a => simp

theorem NoAbort.bind {x : Res α} {f : α → Res β} (h : NoAbort x)
    (hf : ∀ a, x = .ok a → NoAbort (f a)) : NoAbort (x >>= f) := noAbort_bind.mpr ⟨h, hf⟩

theorem noAbort_foldlM {f : σ → α → Res σ} {l : List α} (h : ∀ s, ∀ a ∈ l, NoAbort (f s a)) (s : σ) :
    NoAbort (l.foldlM f s) := by
  induction l generalizing s with
  | nil => exact noAbort_ok s
  | cons a l ih =>
    rw [List.foldlM_cons]
    exact (h s a (by simp)).bind fun s' _ => ih (fun s b hb => h s b (by simp [hb])) s'

end NoAbort

/-! ## Walks and moves -/

section Walk

variable (env : Env) (v : VersionHash) (key : Bytes) (s : Store)

theorem prevWalk_noAbort (reg : Reg) (here : Bytes → Bool) (n : Nat) (v : Option VersionHash) :
    NoAbort (prevWalk reg here key n v) := by
  induction n generalizing v with
  | zero => cases v <;> simp [prevWalk]
  | succ n ih =>
    cases v with
    | none => simp [prevWalk]
    | some tmp =>
      rw [prevWalk]
      split
      · exact noAbort_ok _
      · split
        · simp
        · split
          · exact noAbort_ok _
          · exact ih _

theorem getDbVal_noAbort : NoAbort (getDbVal env v key s) := by
  unfold getDbVal
  split
  · exact noAbort_ok _
  · exact prevWalk_noAbort ..

theorem namespaceUpdate_noAbort : NoAbort (namespaceUpdate env v key s) := by
  unfold namespaceUpdate
  split
  · exact noAbort_ok _
  · split
    · simp
    · exact noAbort_ok _

theorem setKeyOld_noAbort : NoAbort (setKeyOld env v key s) := by
  unfold setKeyOld
  split
  · refine (prevWalk_noAbort ..).bind fun found _ => ?_
    cases found <;> exact noAbort_ok _
  · exact noAbort_ok _

theorem setnxKey_noAbort : NoAbort (setnxKey env v key s) := by
  unfold setnxKey
  split
  · exact noAbort_ok _
  · refine (getDbVal_noAbort ..).bind fun found _ => ?_
    cases found with
    | none => exact noAbort_ok _
    | some loc => exact namespaceUpdate_noAbort ..

theorem incrKey_noAbort : NoAbort (incrKey env v key s) := by
  unfold incrKey
  split
  · exact noAbort_ok _
  · refine (getDbVal_noAbort ..).bind fun found _ => ?_
    cases found with
    | none => exact noAbort_ok _
    | some loc => exact namespaceUpdate_noAbort ..

theorem checkRenameOne_noAbort : NoAbort (checkRenameOne env v key s) := by
  unfold checkRenameOne
  refine (getDbVal_noAbort ..).bind fun found _ => ?_
  split
  · exact noAbort_ok _
  · split
    · exact namespaceUpdate_noAbort ..
    · split
      · exact namespaceUpdate_noAbort ..
      · exact noAbort_ok _

theorem checkRename_noAbort (keys : List Bytes) : NoAbort (checkRename env v keys s) := by
  unfold checkRename
  split
  · exact noAbort_ok _
  · exact noAbort_foldlM (fun s k _ => checkRenameOne_noAbort env v k s) s

theorem deref_noAbort {e : Entry} (h : s.get env.d key = some e) : NoAbort (deref env key s) := by
  simp only [deref, h, noAbort_ok]

theorem keysStep_noAbort (pattern : Bytes) : NoAbort (keysStep env pattern s key) := by
  unfold keysStep
  split
  · split
    · exact noAbort_ok _
    · split
      · simp
      · split
        · split
          · split
            · exact noAbort_ok _
            · simp
          · exact namespaceUpdate_noAbort ..
        · exact noAbort_ok _
  · exact noAbort_ok _

end Walk

/-! ## Updates without functions -/

def NoFuns (v : VersionHash) : Prop := ∀ p ∈ v.hist, infoFuns p.2 = []

variable {v : VersionHash} {env : Env} {s s' : Store}

theorem NoFuns.pending (h : NoFuns v) (t : Int) : ∀ p ∈ v.pending t, infoFuns p.2 = [] :=
  fun p hp => h p (v.pending_subset hp)

/-! ## An entry that has expired under its previous name -/

/-- The rename of the key finds the entry at its previous name expired, and deletes it. -/
structure Expiring (env : Env) (v : VersionHash) (key loc : Bytes) (e : Entry) : Prop where
  db : env.d = 0
  moved : loc ≠ key
  old : v.prevNs.bind (constructPrevName key) = some loc
  dead : e.alive env.now = false

structure Found (env : Env) (v : VersionHash) (key loc : Bytes) (e : Entry) (s : Store) : Prop where
  found : getDbVal env v key s = .ok (some loc)
  get : s.get env.d loc = some e

/-- What a rename, if there is one (`m`), makes of the entry that was found at `loc`: it is deleted,
or found where it is now. -/
def Tracked (m : Prop) (env : Env) (v : VersionHash) (key loc : Bytes) (e : Entry) (s' : Store) :
    Prop :=
  (m ∧ Expiring env v key loc e ∧ s'.get env.d (track env key loc s') = none) ∨
    (¬ (m ∧ Expiring env v key loc e) ∧ Found env v key (track env key loc s') e s' ∧
      (Expiring env v key (track env key loc s') e ↔ Expiring env v key loc e))

section Found

variable {key loc : Bytes} {e : Entry}

theorem Found.has (h : Found env v key loc e s) : s.has env.d loc = true := by
  rw [Store.has, h.get]
  rfl

theorem Found.track (h : Found env v key loc e s) : track env key loc s = loc := by
  rw [KVolve.track, if_pos h.has]

theorem Found.deref (h : Found env v key loc e s) : deref env loc s = .ok e := by
  simp only [KVolve.deref, h.get]

theorem Found.congr {t : Store} (h : Found env v key loc e s) (hreg : t.reg = s.reg)
    (hget : ∀ j, t.get env.d j = s.get env.d j) : Found env v key loc e t :=
  ⟨(getDbVal_congr hreg fun j _ => hget j).trans h.found, (hget loc).trans h.get⟩

/-- Nothing that is read of the keyspace has changed: the entry is where it was. -/
theorem Found.stay (h : Found env v key loc e s) {m : Prop} (hno : ¬ (m ∧ Expiring env v key loc e))
    (hreg : s'.reg = s.reg) (hget : ∀ j, s'.get env.d j = s.get env.d j) :
    Tracked m env v key loc e s' := by
  have h' := h.congr hreg hget
  refine .inr ⟨hno, ?_⟩
  rw [h'.track]
  exact ⟨h', .rfl⟩

/-- An absent key is found at the name that the rename starts from, if that is there at all. -/
theorem Found.old (h : Found env v key loc e s) (hk : s.has env.d key = false) :
    ∃ old, v.prevNs.bind (constructPrevName key) = some old ∧
      (loc = old ∨ s.get env.d old = none) := by
  have hfound := h.found
  rw [getDbVal, hk, walkFuel, prevWalk] at hfound
  simp only [Bool.false_eq_true, if_false] at hfound
  cases hp : v.prevNs with
  | none =>
    rw [hp] at hfound
    cases hfound
  | some p =>
    rw [hp] at hfound
    simp only at hfound
    cases hold : constructPrevName key p with
    | none =>
      rw [hold] at hfound
      cases hfound
    | some old =>
      rw [hold] at hfound
      refine ⟨old, hold, ?_⟩
      cases ho : s.has env.d old with
      | true =>
        simp only [ho, if_true] at hfound
        exact .inl (Option.some.inj (Except.ok.inj hfound)).symm
      | false => exact .inr (by simpa [Store.has] using ho)

/-- The rename before a migration either deletes what was found, because it has expired, or brings
it along. -/
theorem namespaceUpdate_found (h : Found env v key loc e s) :
    ∃ s', namespaceUpdate env v key s = .ok s' ∧ s'.shared = s.shared ∧
      Tracked True env v key loc e s' := by
  cases hk : s.has env.d key with
  | true =>
    obtain rfl : key = loc :=
      Option.some.inj (Except.ok.inj ((getDbVal_has hk).symm.trans h.found))
    exact ⟨s, namespaceUpdate_has hk, rfl, h.stay (fun hexp => hexp.2.moved rfl) rfl fun _ => rfl⟩
  | false =>
    obtain ⟨old, hold, hloc⟩ := h.old hk
    have hnone : s.get env.d key = none := by simpa [Store.has] using hk
    refine ⟨s.rename env.now old key, ?_, Store.rename_shared .., ?_⟩
    · simp [namespaceUpdate, hk, hold]
    · by_cases hd : env.d = 0
      · rcases hloc with rfl | habsent
        · have hne : loc ≠ key := by
            rintro rfl
            rw [h.get] at hnone
            cases hnone
          have hget := @Store.get_rename_free env.now s loc key hne (hd ▸ hnone)
          -- the old name is free afterwards, so what is left of the entry is under the key
          have htrack : track env key loc (s.rename env.now loc key) = key := by
            simp [track, Store.has, hd, hget]
          have hkey : (s.rename env.now loc key).get env.d key =
              if e.alive env.now then some e else none := by
            rw [hd, hget, if_neg (Ne.symm hne), if_pos rfl, ← hd, h.get]
            simp [Option.filter]
          cases ha : e.alive env.now with
          | true =>
            rw [ha, if_pos rfl] at hkey
            refine .inr ⟨fun hexp => ?_, ?_⟩
            · have hdead := hexp.2.dead
              rw [ha] at hdead
              cases hdead
            · rw [htrack]
              refine ⟨⟨getDbVal_has (Store.has_of_get hkey), hkey⟩, ?_⟩
              refine iff_of_false (fun hexp => hexp.moved rfl) fun hexp => ?_
              have hdead := hexp.dead
              rw [ha] at hdead
              cases hdead
          | false =>
            refine .inl ⟨trivial, ⟨hd, hne, hold, ha⟩, ?_⟩
            rw [htrack, hkey, ha]
            rfl
        · have hsame : s.rename env.now old key = s := by
            rw [hd] at habsent
            simp [Store.rename, habsent]
          rw [hsame]
          refine h.stay (fun hexp => ?_) rfl fun _ => rfl
          have hloc := hold.symm.trans hexp.2.old
          rw [Option.some.inj hloc, h.get] at habsent
          cases habsent
      · refine h.stay (fun hexp => hd hexp.2.db) (Store.rename_reg ..) fun j => ?_
        rw [Store.get, Store.rename_dbs_ne _ _ _ _ hd, Store.get]

/-- The rename that a shared integer among the elements of an outdated container brings about. -/
theorem checkRename_found (h : Found env v key loc e s) (hc : utypeOf e.obj.val ≠ .string)
    (ht : e.obj.vers ≠ v.cur) : checkRename env v [key] s = namespaceUpdate env v key s := by
  unfold checkRename
  split
  · rename_i hnone
    have hk : s.has env.d key = true := by
      cases hk : s.has env.d key with
      | true => rfl
      | false =>
        obtain ⟨old, hold, -⟩ := h.old hk
        rw [hnone] at hold
        cases hold
    exact (namespaceUpdate_has hk).symm
  · rw [List.foldlM_cons, checkRenameOne, h.found, ok_bind, Option.bind_some, h.get]
    simp only [vers_of_kind hc, ht, ne_eq, not_false_eq_true, if_true, List.foldlM_nil, pure_eq_ok]
    split
    · rename_i hval
      rw [hval] at hc
      exact absurd rfl hc
    · cases namespaceUpdate env v key s <;> rfl

end Found

/-! ## A turn without functions -/

section Turn

variable {key loc : Bytes} {e : Entry} {nested : Nested} {type : UType} {first : Bool} {x : Elem}

theorem updateTo_elem (v : VersionHash) (env : Env) (nested : Nested) (type : UType) (first : Bool)
    {pend : List (Int × Option UpdInfo)} (hpend : ∀ p ∈ pend, infoFuns p.2 = [])
    (st : MSt) (hx : st.subj = .elem x) :
    ∃ t, pend.foldlM (updateTo nested env v first type) st =
      .ok { st with subj := .elem { x with vers := t } } := by
  induction pend generalizing st x with
  | nil =>
    refine ⟨x.vers, ?_⟩
    rw [List.foldlM_nil, ← hx]
    rfl
  | cons p pend ih =>
    obtain ⟨hp, hpend⟩ := List.forall_mem_cons.mp hpend
    obtain ⟨t, ht⟩ := ih (x := { x with vers := p.1 }) hpend
      { st with subj := .elem { x with vers := p.1 } } rfl
    refine ⟨t, ?_⟩
    rw [List.foldlM_cons, updateTo, hp, List.foldlM_nil, pure_eq_ok, ok_bind]
    simp only [bump, hx, ok_bind]
    exact ht

/-- The turn of an element moves the container: the element is stored as a small integer, or it is
the first one and the pending updates begin with a rename. -/
def Elem.Moves (x : Elem) (v : VersionHash) (t : Int) (first : Bool) : Prop :=
  Str.isSmall x.obj = true ∨ (first = true ∧ renames v (v.pending t) = true)

theorem migrateSubject_elem (nested : Nested) (type : UType) (first : Bool) (hv : NoFuns v)
    (h : Found env v key loc e s) {t₀ : Int} (ht₀ : t₀ ≠ v.cur)
    (hc : Str.isSmall x.obj = true → utypeOf e.obj.val ≠ .string ∧ e.obj.vers ≠ v.cur) :
    ∃ s' t, migrateSubject nested env v first type (Str.isSmall x.obj) t₀
        ⟨key, loc, .elem x, s⟩ =
        .ok ⟨key, track env key loc s', .elem { x with vers := t }, s'⟩ ∧
      Tracked (x.Moves v t₀ first) env v key loc e s' := by
  obtain ⟨s₁, hs₁, -, hmoved⟩ := namespaceUpdate_found h
  have hyes : ∀ {m : Prop}, m → Tracked m env v key loc e s₁ := fun {m} hm => by
    simpa only [Tracked, hm] using hmoved
  unfold migrateSubject
  cases hsmall : Str.isSmall x.obj with
  | true =>
    refine ⟨s₁, x.vers, ?_, hyes (.inl hsmall)⟩
    simp only [if_true, checkRename_found h (hc hsmall).1 (hc hsmall).2, hs₁, ok_bind]
  | false =>
    simp only [Bool.false_eq_true, if_false, ht₀, moveFirst]
    by_cases hren : first = true ∧ renames v (v.pending t₀) = true
    · obtain ⟨t, hbump⟩ := updateTo_elem v env nested type first
        (hv.pending t₀) ⟨key, track env key loc s₁, .elem x, s₁⟩ rfl
      refine ⟨s₁, t, ?_, hyes (.inr hren)⟩
      rw [if_pos hren, hs₁]
      exact hbump
    · obtain ⟨t, hbump⟩ := updateTo_elem v env nested type first
        (hv.pending t₀) ⟨key, loc, .elem x, s⟩ rfl
      refine ⟨s, t, ?_, h.stay (fun hm => ?_) rfl fun _ => rfl⟩
      · rw [if_neg hren, ok_bind, hbump, h.track]
      · rcases hm.1 with hm | hm
        · rw [hsmall] at hm
          cases hm
        · exact hren hm

/-- One turn of an element loop without functions: an element that is held elsewhere is freed
there; otherwise the container is deleted, or found for the next turn. -/
theorem elemStep_turn (type : UType) (hv : NoFuns v) {st : LSt} (h : Found env v st.key st.loc e st.s)
    (hc : utypeOf e.obj.val ≠ .string) (ht : e.obj.vers ≠ v.cur) :
    (x.held = true ∧ ∃ f, f.aborts = true ∧
      elemStep checkUpdateKvPair env v type st x = .error f) ∨
    (x.held = false ∧ ∃ s', elemStep checkUpdateKvPair env v type st x =
        .ok ⟨false, st.key, track env st.key st.loc s', s'⟩ ∧
      Tracked (x.Moves v e.obj.vers st.first) env v st.key st.loc e s') := by
  -- the tag that is read may be written into a shared integer
  have htag : Found env v st.key st.loc e (tagElem e.obj.vers x st.s).2 := by
    refine h.congr ?_ fun j => ?_ <;> unfold tagElem <;> simp only <;> split <;> rfl
  obtain ⟨s', t, hmig, htrack⟩ := migrateSubject_elem (updRedisCall env) type
    st.first (x := { x with vers := e.obj.vers }) hv htag ht fun _ => ⟨hc, ht⟩
  have hrun : elemStep checkUpdateKvPair env v type st x =
      (Elem.free env (track env st.key st.loc s') s' { x with vers := t } >>= fun _ =>
        .ok ⟨false, st.key, track env st.key st.loc s', s'⟩) := by
    simp only [elemStep, deref, h.get, ok_bind, vers_of_kind hc, checkUpdateKvPair, checkUpdateWith]
    rw [show tagElem e.obj.vers x st.s = ({ x with vers := e.obj.vers }, (tagElem e.obj.vers x st.s).2)
      from rfl]
    simp only [hmig, ok_bind, MSt.free]
    cases Elem.free env (track env st.key st.loc s') s' { x with vers := t } <;> rfl
  have hheld : ({ x with vers := t } : Elem).held = x.held := rfl
  rw [hrun, Elem.free, hheld]
  cases hx : x.held with
  | true =>
    refine .inl ⟨rfl, ?_⟩
    simp only [if_true, deref]
    cases s'.get env.d (track env st.key st.loc s') with
    | none => exact ⟨.freed, rfl, rfl⟩
    | some _ => exact ⟨.useAfterFree, rfl, rfl⟩
  | false => exact .inr ⟨rfl, s', rfl, htrack⟩

/-- A container that is gone is read at the next turn, or when it is tagged. -/
theorem elems_gone (type : UType) (cu : CheckUpdate) {st : LSt} (h : st.s.get env.d st.loc = none)
    (l : List Elem) :
    (l.foldlM (elemStep cu env v type) st >>= fun st => deref env st.loc st.s) = .error .freed := by
  cases l with
  | nil => simp [deref, h, pure_eq_ok]
  | cons x l => simp [elemStep, deref, h]

def Movers (v : VersionHash) (t : Int) (first : Bool) (l : List Elem) : Prop :=
  (l ≠ [] ∧ first = true ∧ renames v (v.pending t) = true) ∨ ∃ x ∈ l, Str.isSmall x.obj = true

theorem movers_cons {t : Int} {l : List Elem} :
    Movers v t first (x :: l) ↔ x.Moves v t first ∨ Movers v t false l := by
  simp only [Movers, Elem.Moves, List.exists_mem_cons_iff]
  simp only [ne_eq, reduceCtorEq, not_false_eq_true, true_and, false_and, and_false, false_or]
  tauto

/-- **An element loop without functions** goes through and leaves the container standing exactly
when nothing it frees is held elsewhere and nothing deletes the container under it. -/
theorem elems_run (hv : NoFuns v) (l : List Elem) {st : LSt}
    (h : Found env v st.key st.loc e st.s) (hc : utypeOf e.obj.val ≠ .string)
    (ht : e.obj.vers ≠ v.cur) :
    NoAbort (l.foldlM (elemStep checkUpdateKvPair env v type) st >>= fun st =>
        deref env st.loc st.s) ↔
      (∀ x ∈ l, x.held = false) ∧
        ¬ (Expiring env v st.key st.loc e ∧ Movers v e.obj.vers st.first l) := by
  induction l generalizing st with
  | nil =>
    refine iff_of_true ?_ ⟨by simp, fun hlost => ?_⟩
    · simp only [List.foldlM_nil, pure_eq_ok, ok_bind]
      exact deref_noAbort env st.loc st.s h.get
    · simp [Movers] at hlost
  | cons x l ih =>
    rw [List.foldlM_cons, List.forall_mem_cons, movers_cons, bind_assoc]
    rcases elemStep_turn type (x := x) hv h hc ht with ⟨hx, f, hf, hrun⟩ | ⟨hx, s', hrun, htrack⟩
    · rw [hrun, error_bind, noAbort_error, hf, hx]
      simp
    · rw [hrun, ok_bind]
      rcases htrack with ⟨hm, hexp, hgone⟩ | ⟨hno, hfound, hsame⟩
      · rw [elems_gone type _ hgone]
        exact iff_of_false (by simp) fun hlost => hlost.2 ⟨hexp, .inl hm⟩
      · rw [ih hfound, hx]
        simp only [true_and, hsame]
        tauto

theorem elems_entry (hv : NoFuns v) {l : List Elem} {st st' : LSt}
    (h : Found env v st.key st.loc e st.s) (hc : utypeOf e.obj.val ≠ .string)
    (ht : e.obj.vers ≠ v.cur)
    (hrun : l.foldlM (elemStep checkUpdateKvPair env v type) st = .ok st') {e' : Entry}
    (he' : st'.s.get env.d st'.loc = some e') : e' = e := by
  induction l generalizing st with
  | nil =>
    cases hrun
    exact Option.some.inj (he'.symm.trans h.get)
  | cons x l ih =>
    rw [List.foldlM_cons] at hrun
    rcases elemStep_turn type (x := x) hv h hc ht with ⟨-, f, -, hx⟩ | ⟨-, s', hx, htrack⟩
    · rw [hx] at hrun
      cases hrun
    · rw [hx, ok_bind] at hrun
      rcases htrack with ⟨-, -, hgone⟩ | ⟨-, hfound, -⟩
      · have hfreed := elems_gone (v := v) type checkUpdateKvPair
          (show (⟨false, st.key, track env st.key st.loc s', s'⟩ : LSt).s.get _ _ = none from hgone) l
        rw [hrun, ok_bind, deref, he'] at hfreed
        cases hfreed
      · exact ih hfound hrun

end Turn

/-! ## Containers -/

/-- Every text that is taken as a member has an entry after it. -/
def Paired : List Bytes → Prop
  | [] => True
  | e :: rest =>
    match string2ll e, rest with
    | some _, rest => Paired rest
    | none, [] => False
    | none, _ :: rest => Paired rest

section Gather

variable (cfg : Cfg) (val : Val)

/-- The values that the function of a container can go through; those of sorted sets leave what is
no ziplist. -/
def Taken : UType → Val → Prop
  | .string, _ => True
  | .set, val =>
    match val with
    | .set _ _ | .hash .ht _ => True
    | _ => False
  | .list, val =>
    match val with
    | .list _ _ => True
    | val => (ziplistEntries cfg val).isSome
  | .hash, val =>
    match val with
    | .hash _ _ | .set .ht _ => True
    | val => ∃ l, ziplistEntries cfg val = some l ∧ l.length % 2 = 0
  | .zset, val => ∀ l, ziplistEntries cfg val = some l → Paired l

theorem gatherSet_noAbort (tbl : Table) :
    NoAbort (gatherSet cfg tbl val) ↔ Taken cfg .set val := by
  cases val with
  | set enc ms | hash enc fs => cases enc <;> simp [gatherSet, Taken]
  | _ => simp [gatherSet, Taken]

theorem gatherList_noAbort : NoAbort (gatherList cfg val) ↔ Taken cfg .list val := by
  cases val with
  | list enc xs | hash enc fs | zset enc ms =>
    cases enc <;> simp [gatherList, Taken, ziplistEntries]
  | _ => simp [gatherList, Taken, ziplistEntries]

theorem gatherPairs_noAbort (l : List Bytes) : NoAbort (gatherPairs l) ↔ l.length % 2 = 0 := by
  fun_induction gatherPairs l with
  | case1 => simp
  | case2 b => simp
  | case3 f v rest ih =>
    rw [noAbort_bind, ih]
    simp
    omega

theorem gatherHash_noAbort (tbl : Table) :
    NoAbort (gatherHash cfg tbl val) ↔ Taken cfg .hash val := by
  cases val with
  | list enc xs | hash enc fs | zset enc ms =>
    cases enc <;> simp [gatherHash, Taken, ziplistEntries, gatherPairs_noAbort]
  | set enc ms => cases enc <;> simp [gatherHash, Taken, ziplistEntries]
  | str o => simp [gatherHash, Taken, ziplistEntries]

theorem gatherZiplist_error {cfg : Cfg} {t : Int} {l : List Bytes} {f : Fault}
    (h : gatherZiplist cfg t l = .error f) : f = .assertFail := by
  fun_induction gatherZiplist cfg t l with
  | case1 => cases h
  | case2 b rest n hn ih => exact ih h
  | case3 b hn =>
    cases h
    rfl
  | case4 b hn sc rest ih =>
    cases hl : gatherZiplist cfg t rest with
    | ok l =>
      rw [hl] at h
      cases h
    | error g =>
      rw [hl] at h ih
      cases h
      exact ih rfl

theorem zsetSlots_noAbort (t : Int) (l : List Bytes) : NoAbort (zsetSlots cfg t l) ↔ Paired l := by
  unfold zsetSlots
  rw [noAbort_bind]
  simp only [noAbort_ok, implies_true, and_true]
  fun_induction gatherZiplist cfg t l with
  | case1 => simp [Paired]
  | case2 b rest n hn ih => simpa [Paired, hn] using ih
  | case3 b hn => simp [Paired, hn]
  | case4 b hn sc rest ih =>
    rw [noAbort_bind]
    simpa [Paired, hn] using ih

end Gather

/-- The entry that a migration is about to work on: found under a name of the key, and not
current. -/
structure Outlived (env : Env) (v : VersionHash) (key loc : Bytes) (e : Entry) (s : Store) : Prop
    extends Found env v key loc e s where
  old : s.vers e.obj ≠ v.cur

/-- What is found for a key is one entry. -/
theorem Found.forall_outlived {key loc : Bytes} {e : Entry} {G : Bytes → Entry → Prop}
    (h : Found env v key loc e s) :
    (∀ loc' e', Outlived env v key loc' e' s → G loc' e') ↔ (s.vers e.obj ≠ v.cur → G loc e) := by
  refine ⟨fun hall ht => hall loc e ⟨h, ht⟩, fun hone loc' e' ho => ?_⟩
  cases h.found.symm.trans ho.found
  cases h.get.symm.trans ho.get
  exact hone ho.old

theorem updateAll_noAbort {key : Bytes} {loop : Int → Val → LSt → Option (Res LSt)}
    {G : Bytes → Entry → Prop}
    (hloop : ∀ loc e, Outlived env v key loc e s →
      ((∀ r, loop (s.vers e.obj) e.obj.val ⟨true, key, loc, s⟩ = some r →
        NoAbort (r >>= fun st => deref env st.loc st.s)) ↔ G loc e)) :
    NoAbort (updateAll env v key s loop) ↔ ∀ loc e, Outlived env v key loc e s → G loc e := by
  unfold updateAll
  cases hfound : getDbVal env v key s with
  | error f =>
    refine iff_of_true ?_ fun loc e ho => ?_
    · have hnone := getDbVal_noAbort env v key s
      rw [hfound] at hnone
      exact noAbort_bind.mpr ⟨hnone, fun a ha => (nomatch ha)⟩
    · cases hfound.symm.trans ho.found
  | ok found =>
    rw [ok_bind]
    cases found with
    | none =>
      refine iff_of_true (noAbort_ok _) fun loc e ho => ?_
      cases hfound.symm.trans ho.found
    | some loc =>
      obtain ⟨e, he⟩ := Option.isSome_iff_exists.mp (getDbVal_alias hfound).2
      have h : Found env v key loc e s := ⟨hfound, he⟩
      simp only [h.forall_outlived, h.deref, ok_bind]
      by_cases ht : s.vers e.obj = v.cur
      · simp [ht]
      · rw [if_neg ht, imp_iff_right ht, ← hloop loc e ⟨h, ht⟩]
        cases hr : loop (s.vers e.obj) e.obj.val ⟨true, key, loc, s⟩ with
        | none => simp
        | some r =>
          simp only [Option.some.injEq, forall_eq', noAbort_bind]
          refine and_congr_right fun _ => forall_congr' fun st => forall_congr' fun _ => ?_
          exact and_iff_left fun _ _ => noAbort_ok _

/-! ## A stored object without functions -/

section Stored

variable {key loc : Bytes} {e : Entry} {nested : Nested} {type : UType} {first : Bool} {t : Int}

theorem Found.setVers (h : Found env v key loc e s) (k : Bytes) (t : Int) :
    ∃ e', Found env v key loc e' (s.setVers env.d k t) ∧ e'.obj.val = e.obj.val := by
  have hhas : ∀ j, (s.setVers env.d k t).has env.d j = s.has env.d j := fun j => by
    rw [Store.has, Store.get_setVers, Store.has]
    split
    · rename_i hj
      rw [hj.2, Option.isSome_map]
    · rfl
  have hfound : getDbVal env v key (s.setVers env.d k t) = .ok (some loc) := by
    rw [← h.found, getDbVal, getDbVal, hhas, Store.setVers_reg]
    congr 1
    exact congrArg (prevWalk s.reg · key (walkFuel s.reg) (some v)) (funext hhas)
  have hget := Store.get_setVers s env.d k t env.d loc
  split at hget
  · rename_i hk
    rw [← hk.2, h.get] at hget
    exact ⟨retag t e, ⟨hfound, hk.2 ▸ hget⟩, retag_val t e⟩
  · exact ⟨e, ⟨hfound, hget.trans h.get⟩, rfl⟩

theorem updateTo_stored (nested : Nested) (type : UType) (first : Bool)
    {pend : List (Int × Option UpdInfo)} (hpend : ∀ p ∈ pend, infoFuns p.2 = [])
    (h : Found env v key loc e s) :
    ∃ s' e', pend.foldlM (updateTo nested env v first type) ⟨key, loc, .stored, s⟩ =
      .ok ⟨key, loc, .stored, s'⟩ ∧ Found env v key loc e' s' ∧ e'.obj.val = e.obj.val := by
  induction pend generalizing s e with
  | nil => exact ⟨s, e, rfl, h, rfl⟩
  | cons p pend ih =>
    obtain ⟨hp, hpend⟩ := List.forall_mem_cons.mp hpend
    obtain ⟨e₁, h₁, hval₁⟩ := h.setVers loc p.1
    obtain ⟨s', e', hrun, h', hval⟩ := ih hpend h₁
    refine ⟨s', e', ?_, h', hval.trans hval₁⟩
    rw [List.foldlM_cons, updateTo, hp, List.foldlM_nil, pure_eq_ok, ok_bind]
    simp only [bump, deref, h.get, ok_bind]
    exact hrun

/-- An object that is still there, or was not moved, is tagged where it is found. -/
theorem migrateSubject_kept (nested : Nested) (type : UType) (hv : NoFuns v) (h : Found env v key loc e s)
    (hno : first = true → renames v (v.pending t) = true → ¬ Expiring env v key loc e) :
    ∃ loc' e' s', migrateSubject nested env v first type false t ⟨key, loc, .stored, s⟩ =
      .ok ⟨key, loc', .stored, s'⟩ ∧ Found env v key loc' e' s' ∧ e'.obj.val = e.obj.val := by
  unfold migrateSubject
  simp only [Bool.false_eq_true, if_false]
  split
  · exact ⟨loc, e, s, rfl, h, rfl⟩
  · unfold moveFirst
    split
    · rename_i hren
      obtain ⟨s₁, hs₁, -, hmoved⟩ := namespaceUpdate_found h
      rcases hmoved with ⟨-, hexp, -⟩ | ⟨-, hfound, -⟩
      · exact absurd hexp (hno hren.1 hren.2)
      · obtain ⟨s', e', hrun, h'⟩ := updateTo_stored nested type first (hv.pending t) hfound
        refine ⟨_, e', s', ?_, h'⟩
        rw [hs₁]
        exact hrun
    · obtain ⟨s', e', hrun, h'⟩ := updateTo_stored nested type first (hv.pending t) h
      exact ⟨loc, e', s', hrun, h'⟩

/-- An expired object that is moved first is gone when it is tagged. -/
theorem migrateSubject_lost (hv : NoFuns v) (h : Found env v key loc e s) (ht : t ≠ v.cur)
    (hren : renames v (v.pending t) = true) (hexp : Expiring env v key loc e) :
    migrateSubject nested env v true type false t ⟨key, loc, .stored, s⟩ = .error .freed := by
  obtain ⟨s₁, hs₁, -, hmoved⟩ := namespaceUpdate_found h
  rcases hmoved with ⟨-, -, hgone⟩ | ⟨hno, -⟩
  · simp only [migrateSubject, Bool.false_eq_true, if_false, ht, moveFirst, hren, and_self, if_true,
      hs₁, ok_bind]
    cases hpend : v.pending t with
    | nil => simp [renames, hpend] at hren
    | cons p pend =>
      have hp := hv.pending t p (by simp [hpend])
      rw [List.foldlM_cons, updateTo, hp, List.foldlM_nil, pure_eq_ok, ok_bind]
      simp [bump, deref, hgone]
  · exact absurd ⟨trivial, hexp⟩ hno

/-- What a string command needs of the entry it migrates: one that has expired under its previous
name must not be moved before it is tagged. -/
def StringKept (env : Env) (v : VersionHash) (s : Store) (key : Bytes) : Prop :=
  ∀ loc e, Outlived env v key loc e s → Expiring env v key loc e →
    Val.isSmall e.obj.val = true ∨ renames v (v.pending (s.vers e.obj)) = false

theorem getKey_found (h : Found env v key loc e s) :
    NoAbort (getKey checkUpdateKvPair env v key s) ↔
      NoAbort (migrateSubject (updRedisCall env) env v true .string (Val.isSmall e.obj.val)
        (s.vers e.obj) ⟨key, loc, .stored, s⟩) := by
  simp only [getKey, checkUpdateKvPair, checkUpdateWith, h.found, h.deref, ok_bind, noAbort_bind,
    noAbort_ok, implies_true, and_true]

/-- The lookup of a string goes wrong exactly when the string is not kept. -/
theorem getKey_noAbort (hv : NoFuns v) (env : Env) (key : Bytes) (s : Store) :
    NoAbort (getKey checkUpdateKvPair env v key s) ↔ StringKept env v s key := by
  cases hfound : getDbVal env v key s with
  | error f =>
    have hnone := getDbVal_noAbort env v key s
    rw [hfound] at hnone
    refine iff_of_true ?_ fun loc e ho => ?_
    · simpa [getKey, checkUpdateKvPair, checkUpdateWith, hfound] using hnone
    · cases hfound.symm.trans ho.found
  | ok found =>
    cases found with
    | none =>
      refine iff_of_true ?_ fun loc e ho => ?_
      · simp [getKey, checkUpdateKvPair, checkUpdateWith, hfound]
      · cases hfound.symm.trans ho.found
    | some loc =>
      obtain ⟨e, he⟩ := Option.isSome_iff_exists.mp (getDbVal_alias hfound).2
      have h : Found env v key loc e s := ⟨hfound, he⟩
      rw [getKey_found h, StringKept, h.forall_outlived]
      cases hsmall : Val.isSmall e.obj.val with
      | true =>
        refine iff_of_true ?_ fun _ _ => .inl rfl
        exact (checkRename_noAbort ..).bind fun _ _ => noAbort_ok _
      | false =>
        by_cases hlost : s.vers e.obj ≠ v.cur ∧ Expiring env v key loc e ∧
            renames v (v.pending (s.vers e.obj)) = true
        · rw [migrateSubject_lost hv h hlost.1 hlost.2.2 hlost.2.1]
          refine iff_of_false (by simp) fun hno => ?_
          simpa [hlost.2.2] using hno hlost.1 hlost.2.1
        · refine iff_of_true ?_ fun ht hexp => .inr ?_
          · by_cases ht : s.vers e.obj = v.cur
            · simp [migrateSubject, ht]
            · obtain ⟨loc', e', s', hrun, -⟩ := migrateSubject_kept (updRedisCall env) .string
                hv h fun _ hren hexp => hlost ⟨ht, hexp, hren⟩
              rw [hrun]
              exact noAbort_ok _
          · by_contra hren
            exact hlost ⟨ht, hexp, by simpa using hren⟩

end Stored

/-! ## Elements -/

/-- What is asked of the elements that are gathered: none is freed while it is held elsewhere, and
none moves a container that the move deletes. -/
structure Walked (env : Env) (v : VersionHash) (key loc : Bytes) (e : Entry) (l : List Elem) :
    Prop where
  loose : ∀ x ∈ l, x.held = false
  stands : Expiring env v key loc e → ¬ Movers v e.obj.vers true l

def WalkedThrough (env : Env) (v : VersionHash) (type : UType) (gather : Val → Res (List Elem))
    (key loc : Bytes) (e : Entry) : Prop :=
  Taken env.cfg type e.obj.val ∧ ∀ l, gather e.obj.val = .ok l → Walked env v key loc e l

section Containers

variable {v : VersionHash} (hv : NoFuns v) (env : Env) (key : Bytes) (s : Store)

omit hv in
/-- `dictReleaseIterator` finds the dictionary as it was when it is there at all. -/
theorem released_noAbort {env : Env} {val : Val} {r : Res LSt}
    (h : ∀ st, r = .ok st → ∀ e, st.s.get env.d st.loc = some e → e.obj.val = val) :
    NoAbort (released env val r >>= fun st => deref env st.loc st.s) ↔
      NoAbort (r >>= fun st => deref env st.loc st.s) := by
  unfold released
  cases hused : dictUsed val with
  | none => exact .rfl
  | some n =>
    cases r with
    | error f => cases f <;> simp
    | ok st =>
      cases hget : st.s.get env.d st.loc with
      | none => simp [Store.val?, deref, hget]
      | some e => simp [Store.val?, deref, hget, h st rfl e hget, hused]

include hv

theorem elems_noAbort {gather : Val → Res (List Elem)} {type : UType}
    (hg : ∀ val, NoAbort (gather val) ↔ Taken env.cfg type val)
    (hstr : ∀ o, ∀ l, gather (.str o) ≠ .ok l) :
    NoAbort (updateAll env v key s fun _ val st =>
      some (elemsLoop checkUpdateKvPair env v type gather val st)) ↔
    ∀ loc e, Outlived env v key loc e s → WalkedThrough env v type gather key loc e := by
  refine updateAll_noAbort fun loc e ho => ?_
  simp only [Option.some.injEq, forall_eq', elemsLoop, WalkedThrough, ← hg]
  cases hl : gather e.obj.val with
  | error f =>
    rw [error_bind, released_noAbort (r := .error f) (fun st h => by cases h), error_bind]
    simp
  | ok l =>
    have hc : utypeOf e.obj.val ≠ .string := by
      cases hval : e.obj.val with
      | str o =>
        rw [hval] at hl
        exact absurd hl (hstr o l)
      | _ => simp [utypeOf]
    have ht : e.obj.vers ≠ v.cur := vers_of_kind hc s ▸ ho.old
    rw [ok_bind, released_noAbort, elems_run hv l ho.toFound hc ht]
    · simp only [noAbort_ok, Except.ok.injEq, forall_eq', true_and]
      exact ⟨fun h => ⟨h.1, fun hexp hm => h.2 ⟨hexp, hm⟩⟩,
        fun h => ⟨h.loose, fun hm => h.stands hm.1 hm.2⟩⟩
    · intro st hrun e' he'
      rw [elems_entry hv ho.toFound hc ht hrun he']

/-! ### Sorted sets -/

variable {env key s} {type : UType} {st : LSt} {e : Entry} {t : Int}

omit hv in
/-- The members of a sorted set are gathered as texts of their own, two entries for a slot. -/
theorem zsetSlots_spec {cfg : Cfg} {entries : List Bytes} {l : List (Option Elem)}
    (h : zsetSlots cfg t entries = .ok l) :
    (∀ x, some x ∈ l → ∃ b sc, x = { obj := .raw b, vers := t, score := sc }) ∧
      (l ≠ [] → 2 ≤ entries.length) := by
  obtain ⟨els, hels, h⟩ := bind_eq_ok.mp h
  cases h
  constructor
  · intro x hx
    have hmem : x ∈ els := by simpa using hx
    obtain ⟨b, sc, rfl, -⟩ := gatherZiplist_raw hels x hmem
    exact ⟨b, sc, rfl⟩
  · intro hne
    match entries, hels, hne with
    | [], hels, hne =>
      cases hels
      exact absurd rfl hne
    | [b], hels, hne =>
      cases hb : string2ll b with
      | none => simp [gatherZiplist, hb] at hels
      | some n =>
        simp only [gatherZiplist, hb] at hels
        cases hels
        simp at hne
    | _ :: _ :: _, _, _ => simp

omit hv in
theorem slots_gone {cu : CheckUpdate} (h : st.s.get env.d st.loc = none) (l : List (Option Elem)) :
    (l.foldlM (slotStep cu env v type) st >>= fun st => deref env st.loc st.s) = .error .freed := by
  cases l with
  | nil => simp [deref, h, pure_eq_ok]
  | cons x l => simp [slotStep, deref, h]

/-- One turn over a slot: a sorted set that has expired under its previous name is gone after a
rename, or found missing when it is tagged itself; any other is found for the next turn. -/
theorem slotStep_turn (type : UType) (h : Found env v st.key st.loc e st.s) (hc : utypeOf e.obj.val ≠ .string)
    (ht : t ≠ v.cur) (hfirst : st.first = true → e.obj.vers = t) {x : Option Elem}
    (hx : ∀ y, x = some y → ∃ b sc, y = { obj := .raw b, vers := t, score := sc }) :
    let lost := st.first = true ∧ renames v (v.pending t) = true ∧ Expiring env v st.key st.loc e
    (lost ∧ (slotStep checkUpdateKvPair env v type st x = .error .freed ∨ ∃ st',
      slotStep checkUpdateKvPair env v type st x = .ok st' ∧ st'.s.get env.d st'.loc = none)) ∨
    (¬ lost ∧ ∃ loc' e' s', slotStep checkUpdateKvPair env v type st x =
        .ok ⟨false, st.key, loc', s'⟩ ∧ Found env v st.key loc' e' s' ∧
      utypeOf e'.obj.val ≠ .string) := by
  intro lost
  simp only [slotStep, h.deref, ok_bind, checkUpdateKvPair, checkUpdateWith]
  cases x with
  | none =>
    have hsmall : Val.isSmall e.obj.val = false := by
      cases hval : e.obj.val with
      | str o =>
        rw [hval] at hc
        exact absurd rfl hc
      | _ => rfl
    simp only [h.found, h.deref, ok_bind, hsmall, vers_of_kind hc]
    by_cases hlost : lost
    · obtain ⟨hf, hren, hexp⟩ := hlost
      refine .inl ⟨⟨hf, hren, hexp⟩, .inl ?_⟩
      rw [hf, hfirst hf, migrateSubject_lost hv h ht hren hexp]
      rfl
    · obtain ⟨loc', e', s', hrun, h', hval⟩ := migrateSubject_kept (updRedisCall env) type
        (t := e.obj.vers) hv h fun hf hren hexp => hlost ⟨hf, hfirst hf ▸ hren, hexp⟩
      refine .inr ⟨hlost, loc', e', s', ?_, h', hval ▸ hc⟩
      rw [hrun]
      rfl
  | some y =>
    obtain ⟨b, sc, rfl⟩ := hx y rfl
    obtain ⟨s', t', hrun, htrack⟩ := migrateSubject_elem (updRedisCall env) type st.first
      (x := { obj := .raw b, vers := t, score := sc }) hv h ht fun h => absurd h Bool.false_ne_true
    have hmoves : Elem.Moves { obj := .raw b, vers := t, score := sc } v t st.first ↔
        st.first = true ∧ renames v (v.pending t) = true := by
      simp [Elem.Moves, Str.isSmall]
    simp only [hrun]
    rcases htrack with ⟨hm, hexp, hgone⟩ | ⟨hno, hfound, -⟩
    · exact .inl ⟨⟨(hmoves.mp hm).1, (hmoves.mp hm).2, hexp⟩, .inr ⟨_, rfl, hgone⟩⟩
    · exact .inr ⟨fun hlost => hno ⟨hmoves.mpr ⟨hlost.1, hlost.2.1⟩, hlost.2.2⟩, _, e, s', rfl,
        hfound, hc⟩

theorem slots_noAbort (l : List (Option Elem)) (h : Found env v st.key st.loc e st.s)
    (hc : utypeOf e.obj.val ≠ .string) (ht : t ≠ v.cur) (hfirst : st.first = true → e.obj.vers = t)
    (hl : ∀ y, some y ∈ l → ∃ b sc, y = { obj := .raw b, vers := t, score := sc }) :
    NoAbort (l.foldlM (slotStep checkUpdateKvPair env v type) st >>= fun st =>
        deref env st.loc st.s) ↔
      ¬ (l ≠ [] ∧ st.first = true ∧ renames v (v.pending t) = true ∧
        Expiring env v st.key st.loc e) := by
  induction l generalizing st e with
  | nil =>
    refine iff_of_true ?_ (by simp)
    simp only [List.foldlM_nil, pure_eq_ok, ok_bind]
    exact deref_noAbort env st.loc st.s h.get
  | cons x l ih =>
    rw [List.foldlM_cons, bind_assoc]
    rcases slotStep_turn hv type h hc ht hfirst (x := x)
      (fun y hy => hl y (by simp [hy])) with ⟨hlost, hrun⟩ | ⟨hno, loc', e', s', hrun, hfound, hc'⟩
    · refine iff_of_false ?_ fun hno => hno ⟨by simp, hlost⟩
      rcases hrun with hrun | ⟨st', hrun, hgone⟩
      · simp [hrun]
      · rw [hrun, ok_bind, slots_gone hgone]
        simp
    · rw [hrun, ok_bind, ih hfound hc' (fun h => by cases h) fun y hy => hl y (by simp [hy])]
      exact iff_of_true (by simp) fun hlost => hno hlost.2

/-- What the function of sorted sets needs of an entry: its members have scores after them, and it
has not expired under a name that it is moved from. -/
def ZsetKept (env : Env) (v : VersionHash) (key loc : Bytes) (e : Entry) : Prop :=
  Taken env.cfg .zset e.obj.val ∧ (Expiring env v key loc e →
    ∀ l, ziplistEntries env.cfg e.obj.val = some l → 2 ≤ l.length →
      renames v (v.pending e.obj.vers) = false)

theorem updateAllZset_noAbort (env : Env) (key : Bytes) (s : Store) :
    NoAbort (updateAllZset checkUpdateKvPair env v key s) ↔
      ∀ loc e, Outlived env v key loc e s → ZsetKept env v key loc e := by
  refine updateAll_noAbort fun loc e ho => ?_
  cases hentries : ziplistEntries env.cfg e.obj.val with
  | none => simp [ZsetKept, Taken, hentries]
  | some entries =>
    have hc : utypeOf e.obj.val ≠ .string := by
      cases hval : e.obj.val with
      | str o =>
        rw [hval] at hentries
        cases hentries
      | _ => simp [utypeOf]
    have ht : e.obj.vers ≠ v.cur := vers_of_kind hc s ▸ ho.old
    simp only [Option.map_some, Option.some.injEq, forall_eq', ZsetKept, Taken, hentries,
      ← zsetSlots_noAbort env.cfg e.obj.vers entries, vers_of_kind hc]
    cases hl : zsetSlots env.cfg e.obj.vers entries with
    | error f =>
      have hf : f = .assertFail := by
        unfold zsetSlots at hl
        cases hgather : gatherZiplist env.cfg e.obj.vers entries with
        | ok l =>
          rw [hgather] at hl
          cases hl
        | error g =>
          rw [hgather] at hl
          cases hl
          exact gatherZiplist_error hgather
      subst hf
      simp
    | ok l =>
      obtain ⟨hraw, hne⟩ := zsetSlots_spec hl
      rw [ok_bind, slots_noAbort hv l ho.toFound hc ht (fun _ => rfl) hraw]
      simp only [noAbort_ok, true_and]
      constructor
      · intro hno hexp hlen
        by_contra hren
        exact hno ⟨zsetSlots_ne hl hlen, by simpa using hren, hexp⟩
      · rintro hkept ⟨hl, hren, hexp⟩
        rw [hkept hexp (hne hl)] at hren
        cases hren

end Containers

/-- What the check of a command for a type needs of the entry that is found for a key. -/
def EntryKept (env : Env) (v : VersionHash) (type : UType) (s : Store) (key : Bytes) : Prop :=
  match type with
  | .string => StringKept env v s key
  | .set => ∀ loc e, Outlived env v key loc e s →
      WalkedThrough env v .set (gatherSet env.cfg (env.tables key)) key loc e
  | .list => ∀ loc e, Outlived env v key loc e s →
      WalkedThrough env v .list (gatherList env.cfg) key loc e
  | .hash => ∀ loc e, Outlived env v key loc e s →
      WalkedThrough env v .hash (gatherHash env.cfg (env.tables key)) key loc e
  | .zset => ∀ loc e, Outlived env v key loc e s → ZsetKept env v key loc e

end SchemaUpdate.KVolve
