import SchemaUpdate.Lur.Alone
import SchemaUpdate.Lur.Methods

/-! # Connecting and loading alone

What `append_new_version`, the constructor and `do_upd` do when no other client
interferes. -/

namespace SchemaUpdate.Lur

open SchemaUpdate.Lib

/-! ## Methods run alone -/

section Methods

variable {J α β : Type}

/-- What a method returns, the client and the store after it. -/
def PyM.alone (m : PyM J α) (c : Client J) (r : Redis) : (Except PyErr α × Client J) × Redis :=
  (m c).run serve r

variable (c : Client J) (r : Redis)

@[simp]
theorem PyM.alone_pure (a : α) : (pure a : PyM J α).alone c r = ((.ok a, c), r) := rfl

theorem PyM.alone_bind (m : PyM J α) (f : α → PyM J β) :
    (m >>= f).alone c r =
      match m.alone c r with
      | ((.ok a, c'), r') => (f a).alone c' r'
      | ((.error e, c'), r') => ((.error e, c'), r') := by
  have hrun : (m >>= f).alone c r = _ := Prog.run_bind serve (m c) _ r
  rw [hrun]
  unfold PyM.alone
  obtain ⟨⟨x, c'⟩, r'⟩ := (m c).run serve r
  cases x <;> rfl

theorem PyM.alone_bind_ok {m : PyM J α} {a : α} {c c' : Client J} {r r' : Redis}
    (h : m.alone c r = ((.ok a, c'), r')) (f : α → PyM J β) :
    (m >>= f).alone c r = (f a).alone c' r' := by
  rw [PyM.alone_bind, h]

theorem PyM.alone_bind_error {m : PyM J α} {e : PyErr} {c c' : Client J} {r r' : Redis}
    (h : m.alone c r = ((.error e, c'), r')) (f : α → PyM J β) :
    (m >>= f).alone c r = ((.error e, c'), r') := by
  rw [PyM.alone_bind, h]

@[simp]
theorem PyM.alone_raise (e : PyErr) : (PyM.raise e : PyM J α).alone c r = ((.error e, c), r) := rfl

@[simp]
theorem PyM.alone_ofExcept (x : Except PyErr α) : (PyM.ofExcept x).alone c r = ((x, c), r) := rfl

theorem PyM.alone_send (cmd : Cmd) (f : cmd.Reply → PyM J β) :
    (PyM.send cmd >>= f).alone c r = (f (serve cmd r).1).alone c (serve cmd r).2 := rfl

theorem PyM.alone_watch (k : RKey) (f : Nat → PyM J β) :
    (PyM.send (.watch k) >>= f).alone c r = (f (r.touched k)).alone c r := rfl

theorem PyM.alone_lrange (ns : Ns) (f : List (Ver × Ns) → PyM J β) :
    (PyM.send (.lrange ns) >>= f).alone c r = (f (r.versions ns)).alone c r := rfl

theorem PyM.alone_existsVersions (ns : Ns) (f : Bool → PyM J β) :
    (PyM.send (.existsVersions ns) >>= f).alone c r = (f (!(r.versions ns).isEmpty)).alone c r := rfl

theorem PyM.alone_exec {w : Watch} {r : Redis} (h : r.clean w = true) (l : List Write)
    (f : Option Bool → PyM J β) :
    (PyM.send (.exec w l) >>= f).alone c r = (f (some (applyAll l r).1)).alone c (applyAll l r).2 := by
  have hserve : serve (.exec w l) r = (some (applyAll l r).1, (applyAll l r).2) := by
    simp only [serve, h, if_true]
  rw [PyM.alone_send, hserve]

theorem PyM.alone_modify (g : Client J → Client J) (f : Unit → PyM J β) :
    (PyM.modify g >>= f).alone c r = (f ()).alone (g c) r := rfl

theorem PyM.alone_client (f : Client J → PyM J β) :
    (PyM.client >>= f).alone c r = (f c).alone c r := rfl

theorem PyM.alone_lift (p : Client J → Prog Cmd.Reply (Except PyErr α)) :
    (PyM.lift p).alone c r = ((((p c).run serve r).1, c), ((p c).run serve r).2) :=
  Prog.run_bind serve (p c) _ r

end Methods

/-! ## Version lists -/

section Append

variable {J : Type} (c : Client J) (r : Redis)

theorem appendNewVersion_alone (v : Ver) (ns : Ns) (startup : Bool) :
    (appendNewVersion v ns startup).alone c r =
      if (r.versions ns).head?.map Prod.fst = some v then
        ((.ok (some ()), if startup then (c.setNsVersion ns v).setVersDict ns (some (r.versions ns))
          else c.setNsVersion ns v), r)
      else if startup && (inFlat v (r.versions ns) || !(r.versions ns).isEmpty) then
        ((.error .valueError, c.setNsVersion ns v), r)
      else ((.ok (some ()),
        (c.setNsVersion ns v).setVersDict ns (some ((v, ns) :: r.versions ns))),
        r.setVersions ns ((v, ns) :: r.versions ns)) := by
  have hclean : r.clean [(.versions ns, r.touched (.versions ns))] = true := by
    simp [Redis.clean]
  unfold appendNewVersion
  rw [PyM.alone_watch, PyM.alone_lrange, PyM.alone_modify]
  by_cases hhead : (r.versions ns).head?.map Prod.fst = some v
  · rw [if_pos hhead, if_pos hhead]
    cases startup <;> rfl
  · rw [if_neg hhead, if_neg hhead]
    have hpush : (do
        PyM.modify (·.setVersDict ns (some ((v, ns) :: r.versions ns)))
        let out : Option Bool ← PyM.send (.exec [(.versions ns, r.touched (.versions ns))]
          [.lpush ns (v, ns)])
        return out.map fun _ => () : PyM J (Option Unit)).alone (c.setNsVersion ns v) r = ((.ok (some ()),
        (c.setNsVersion ns v).setVersDict ns (some ((v, ns) :: r.versions ns))),
        r.setVersions ns ((v, ns) :: r.versions ns)) := by
      rw [PyM.alone_modify, PyM.alone_exec _ hclean]
      rfl
    cases startup with
    | false => exact hpush
    | true =>
      simp only [Bool.true_and]
      by_cases hflat : inFlat v (r.versions ns) = true
      · simp [hflat]
      · by_cases hempty : (r.versions ns).isEmpty = true
        · simp only [hflat, hempty, Bool.false_eq_true, if_false, Bool.not_true, Bool.or_self]
          exact hpush
        · simp [hflat, hempty]

theorem appendNewVersionUpdatedNs_alone (oldV v : Ver) {oldns ns : Ns} (hne : oldns ≠ ns) :
    (appendNewVersionUpdatedNs oldV v oldns ns).alone c r =
      if r.versions ns ≠ [] ∨ r.versions oldns = [] ∨ inFlat oldV (r.versions oldns) = false then
        ((.error .valueError, c), r)
      else if c.versDict oldns = none then
        ((.error .keyError, c.setVersDict ns (some ((v, ns) :: r.versions oldns))), r)
      else ((.ok (some ()),
        (c.setVersDict ns (some ((v, ns) :: r.versions oldns))).setVersDict oldns none),
        (r.setVersions ns ((v, ns) :: r.versions oldns)).setVersions oldns []) := by
  have hclean : r.clean [(.versions ns, r.touched (.versions ns)),
      (.versions oldns, r.touched (.versions oldns))] = true := by
    simp [Redis.clean]
  unfold appendNewVersionUpdatedNs
  rw [PyM.alone_existsVersions]
  by_cases hns : r.versions ns = []
  · simp only [hns, List.isEmpty_nil, Bool.not_true, Bool.false_eq_true, if_false, ne_eq,
      not_true_eq_false, false_or]
    rw [PyM.alone_watch, PyM.alone_watch, PyM.alone_lrange]
    by_cases hold : r.versions oldns = []
    · simp [hold]
    · cases hflat : inFlat oldV (r.versions oldns) with
      | false => simp [hold]
      | true =>
        simp only [List.isEmpty_iff, hold, if_false, Bool.not_true, Bool.false_eq_true,
          Bool.true_eq_false, or_self]
        rw [PyM.alone_modify, PyM.alone_client]
        have hdict : (c.setVersDict ns (some ((v, ns) :: r.versions oldns))).versDict oldns =
            c.versDict oldns := Function.update_of_ne hne ..
        rw [hdict]
        cases hknown : c.versDict oldns with
        | none => simp
        | some l =>
          simp only [reduceCtorEq, if_false]
          rw [PyM.alone_modify, PyM.alone_exec _ hclean]
          simp only [applyAll, Write.apply, hns, List.nil_append, Redis.setVersions_versions,
            Function.update_of_ne hne, hold, if_false]
          rfl
  · simp [hns]

end Append

/-! ## Invariants of methods

An invariant speaks of the client and the store together; when a method raises, the client
is given up and only the store counts. -/

section Keeps

variable {J α β : Type}

/-- Every command of the method, run alone, meets the condition. -/
def PyM.Along (cond : Cmd → Redis → Prop) (m : PyM J α) (c : Client J) (r : Redis) : Prop :=
  (m c).Along serve cond r

theorem PyM.along_bind {cond : Cmd → Redis → Prop} {m : PyM J α} {f : α → PyM J β} {c : Client J}
    {r : Redis} (h : (m >>= f).Along cond c r) : m.Along cond c r ∧
      ∀ a c' r', m.alone c r = ((.ok a, c'), r') → (f a).Along cond c' r' := by
  obtain ⟨hm, hf⟩ := (Prog.along_bind serve cond (m c) _ r).mp h
  refine ⟨hm, ?_⟩
  intro a c' r' hrun
  have hrun : (m c).run serve r = ((.ok a, c'), r') := hrun
  rw [hrun] at hf
  exact hf

section Commands

variable (cond : Cmd → Redis → Prop) (c : Client J) (r : Redis)

theorem PyM.along_watch (k : RKey) (f : Nat → PyM J β) :
    (PyM.send (.watch k) >>= f).Along cond c r =
      (cond (.watch k) r ∧ (f (r.touched k)).Along cond c r) := rfl

theorem PyM.along_lrange (ns : Ns) (f : List (Ver × Ns) → PyM J β) :
    (PyM.send (.lrange ns) >>= f).Along cond c r =
      (cond (.lrange ns) r ∧ (f (r.versions ns)).Along cond c r) := rfl

theorem PyM.along_existsVersions (ns : Ns) (f : Bool → PyM J β) :
    (PyM.send (.existsVersions ns) >>= f).Along cond c r =
      (cond (.existsVersions ns) r ∧ (f (!(r.versions ns).isEmpty)).Along cond c r) := rfl

theorem PyM.along_modify (g : Client J → Client J) (f : Unit → PyM J β) :
    (PyM.modify g >>= f).Along cond c r = (f ()).Along cond (g c) r := rfl

theorem PyM.along_client (f : Client J → PyM J β) :
    (PyM.client >>= f).Along cond c r = (f c).Along cond c r := rfl

end Commands

/-- What holds after a method. -/
def PyM.After (I : Client J → Redis → Prop) (E : Redis → Prop) :
    (Except PyErr α × Client J) × Redis → Prop
  | ((.ok _, c), r) => I c r
  | ((.error _, _), r) => E r

/-- The method keeps `I`, provided its commands meet the condition. -/
def PyM.Keeps (cond : Cmd → Redis → Prop) (I : Client J → Redis → Prop) (E : Redis → Prop)
    (m : PyM J α) : Prop :=
  ∀ c r, I c r → m.Along cond c r → PyM.After I E (m.alone c r)

variable {cond : Cmd → Redis → Prop} {I : Client J → Redis → Prop} {E : Redis → Prop}

theorem PyM.Keeps.pure (a : α) : PyM.Keeps cond I E (pure a : PyM J α) := fun _ _ h _ => h

theorem PyM.Keeps.bind {m : PyM J α} {f : α → PyM J β} (hm : PyM.Keeps cond I E m)
    (hf : ∀ a, PyM.Keeps cond I E (f a)) : PyM.Keeps cond I E (m >>= f) := by
  intro c r h halong
  obtain ⟨hfirst, hrest⟩ := PyM.along_bind halong
  have hmid := hm c r h hfirst
  cases hrun : m.alone c r with
  | mk out r' =>
    obtain ⟨x, c'⟩ := out
    rw [hrun] at hmid
    cases x with
    | error e =>
      rw [PyM.alone_bind_error hrun]
      exact hmid
    | ok a =>
      rw [PyM.alone_bind_ok hrun]
      exact hf a c' r' hmid (hrest a c' r' hrun)

theorem PyM.Keeps.raise (hE : ∀ c r, I c r → E r) (e : PyErr) :
    PyM.Keeps cond I E (PyM.raise e : PyM J α) := fun c r h _ => hE c r h

theorem PyM.Keeps.modify {g : Client J → Client J} (hg : ∀ c r, I c r → I (g c) r) :
    PyM.Keeps cond I E (PyM.modify g) := fun c r h _ => hg c r h

theorem PyM.Keeps.client : PyM.Keeps cond I E (PyM.client : PyM J (Client J)) := fun _ _ h _ => h

theorem PyM.Keeps.send {cmd : Cmd} (hcmd : ∀ c r, I c r → cond cmd r → I c (serve cmd r).2) :
    PyM.Keeps cond I E (PyM.send cmd : PyM J cmd.Reply) :=
  fun c r h halong => hcmd c r h halong.1

theorem PyM.Keeps.lift {p : Client J → Prog Cmd.Reply (Except PyErr α)} (hE : ∀ c r, I c r → E r)
    (hp : ∀ c r, I c r → I c ((p c).run serve r).2) : PyM.Keeps cond I E (PyM.lift p) := by
  intro c r h _
  rw [PyM.alone_lift]
  have hafter := hp c r h
  cases ((p c).run serve r).1 with
  | error e => exact hE _ _ hafter
  | ok a => exact hafter

end Keeps

/-! ## Invariants of connecting and loading -/

section Versions

variable {J : Type}

/-- An invariant of the version lists: what each way of changing the lists and the dictionaries
that follow them has to keep. -/
structure ListInv (cond : Cmd → Redis → Prop) (I : Client J → Redis → Prop) (E : Redis → Prop) :
    Prop where
  toStore : ∀ c r, I c r → E r
  setNsVersion : ∀ c r ns v, I c r → I (c.setNsVersion ns v) r
  adopt : ∀ c r ns, I c r → I (c.setVersDict ns (some (r.versions ns))) r
  push : ∀ c r ns v w, I c r → cond (.exec w [.lpush ns (v, ns)]) r →
    I (c.setVersDict ns (some ((v, ns) :: r.versions ns)))
      (r.setVersions ns ((v, ns) :: r.versions ns))
  move : ∀ c r oldns ns v w, oldns ≠ ns → r.versions ns = [] → r.versions oldns ≠ [] → I c r →
    cond (.exec w [.rpush ns ((v, ns) :: r.versions oldns), .delVersions oldns]) r →
    I ((c.setVersDict ns (some ((v, ns) :: r.versions oldns))).setVersDict oldns none)
      ((r.setVersions ns ((v, ns) :: r.versions oldns)).setVersions oldns [])

/-- An invariant of connecting and loading, which file update functions as well. -/
structure VersInv (cond : Cmd → Redis → Prop) (I : Client J → Redis → Prop) (E : Redis → Prop) :
    Prop extends ListInv cond I E where
  addRule : ∀ c r name rule, I c r → I (c.addRule name rule) r
  hset : ∀ c r f text, I c r → I c (Redis.touch { r with dsl := r.dsl.put f (some text) } .dsl)

variable {cond : Cmd → Redis → Prop} {I : Client J → Redis → Prop} {E : Redis → Prop} {ns : Ns}

theorem along_push {v : Ver} {startup : Bool} {c : Client J} {r : Redis}
    (h : (appendNewVersion v ns startup).Along cond c r)
    (hhead : (r.versions ns).head?.map Prod.fst ≠ some v)
    (hnew : ¬ (startup && (inFlat v (r.versions ns) || !(r.versions ns).isEmpty)) = true) :
    cond (.exec [(.versions ns, r.touched (.versions ns))] [.lpush ns (v, ns)]) r := by
  unfold appendNewVersion at h
  rw [PyM.along_watch, PyM.along_lrange, PyM.along_modify, if_neg hhead] at h
  simp only [Bool.and_or_distrib_left, Bool.or_eq_true, not_or] at hnew
  rw [if_neg hnew.1, if_neg hnew.2, PyM.along_modify] at h
  exact h.2.2.1

theorem ListInv.appendNewVersion (hI : ListInv cond I E) (v : Ver) (ns : Ns) (startup : Bool) :
    PyM.Keeps cond I E (appendNewVersion v ns startup) := by
  intro c r h halong
  have hset := hI.setNsVersion c r ns v h
  rw [appendNewVersion_alone]
  split
  · cases startup with
    | false => exact hset
    | true => exact hI.adopt _ _ _ hset
  · rename_i hhead
    split
    · exact hI.toStore _ _ hset
    · rename_i hnew
      exact hI.push _ _ _ _ _ hset (along_push halong hhead hnew)

theorem along_move {oldV v : Ver} {oldns : Ns} {c : Client J} {r : Redis}
    (h : (appendNewVersionUpdatedNs oldV v oldns ns).Along cond c r) (hne : oldns ≠ ns)
    (hns : r.versions ns = []) (hold : r.versions oldns ≠ [])
    (hflat : inFlat oldV (r.versions oldns) = true) (hknown : c.versDict oldns ≠ none) :
    cond (.exec [(.versions ns, r.touched (.versions ns)),
      (.versions oldns, r.touched (.versions oldns))]
      [.rpush ns ((v, ns) :: r.versions oldns), .delVersions oldns]) r := by
  unfold appendNewVersionUpdatedNs at h
  rw [PyM.along_existsVersions, hns] at h
  simp only [List.isEmpty_nil, Bool.not_true, Bool.false_eq_true, if_false] at h
  have h := h.2
  rw [PyM.along_watch, PyM.along_watch, PyM.along_lrange] at h
  have h := h.2.2.2
  rw [if_neg (by simpa using hold), if_neg (by simp [hflat]), PyM.along_modify, PyM.along_client]
    at h
  have hdict : (c.setVersDict ns (some ((v, ns) :: r.versions oldns))).versDict oldns =
      c.versDict oldns := Function.update_of_ne hne ..
  rw [hdict] at h
  cases hl : c.versDict oldns with
  | none => exact absurd hl hknown
  | some l =>
    simp only [hl] at h
    rw [PyM.along_modify] at h
    exact h.1

theorem ListInv.appendNewVersionUpdatedNs (hI : ListInv cond I E) (oldV v : Ver) {oldns : Ns}
    (hne : oldns ≠ ns) : PyM.Keeps cond I E (appendNewVersionUpdatedNs oldV v oldns ns) := by
  intro c r h halong
  rw [appendNewVersionUpdatedNs_alone c r oldV v hne]
  split
  · exact hI.toStore _ _ h
  · rename_i hthere
    split
    · exact hI.toStore _ _ h
    · rename_i hknown
      simp only [ne_eq, not_or, not_not, Bool.not_eq_false] at hthere
      obtain ⟨hns, hold, hflat⟩ := hthere
      exact hI.move _ _ _ _ _ _ hne hns hold h (along_move halong hne hns hold hflat hknown)

/-- Setting the keys of an `add` stanza keeps the invariant. -/
def KeepsSet (I : Client J → Redis → Prop) (k : Bytes) : Prop :=
  ∀ c r value, I c r → I c ((set c k value {}).run serve r).2

theorem ListInv.closed (hI : ListInv cond I E) :
    PyM.Closed (J := J) fun m => PyM.Keeps cond I E m where
  pure := PyM.Keeps.pure
  raise := PyM.Keeps.raise hI.toStore
  client := PyM.Keeps.client
  bind := PyM.Keeps.bind

theorem KeepsSet.lift (hI : ListInv cond I E) {k : Bytes} (hk : KeepsSet I k) (value : Bytes) :
    PyM.Keeps cond I E (PyM.lift fun c => set c k value {}) :=
  PyM.Keeps.lift hI.toStore fun c r h => hk c r value h

theorem ListInv.addLoop (hI : ListInv cond I E) (py : Py J) {adds : List (AddTuple J)}
    (hks : ∀ a ∈ adds, ∀ k ∈ a.keys, KeepsSet I k) : PyM.Keeps cond I E (addLoop py adds) :=
  hI.closed.addLoop py (fun v ns => hI.appendNewVersion v ns false) fun a ha k hk =>
    (hks a ha k hk).lift hI

theorem VersInv.execute (hI : VersInv cond I E) (w : Watch) (f : UpdName) (text : Bytes)
    (new : Prop) [Decidable new] :
    PyM.Keeps cond I E (execute (J := J) w (if new then [Write.hset f text] else [])) := by
  by_cases hnew : new
  · rw [if_pos hnew]
    refine PyM.Keeps.send ?_
    intro c r h _
    simp only [serve]
    split
    · exact hI.hset c r f text h
    · exact h
  · rw [if_neg hnew]
    exact PyM.Keeps.pure _

theorem ListInv.appendFor (hI : ListInv cond I E) (t : ForTuple J) :
    PyM.Keeps cond I E (appendFor t) := by
  unfold Lur.appendFor
  split
  · exact hI.appendNewVersion _ _ _
  · rename_i hne
    exact hI.appendNewVersionUpdatedNs _ _ hne

theorem VersInv.loads (hI : VersInv cond I E) :
    PyM.Loads (J := J) fun m => PyM.Keeps cond I E m where
  toClosed := hI.closed
  watch := PyM.Keeps.send fun _ _ h _ => h
  hget _ := PyM.Keeps.send fun _ _ h _ => h
  hgetall := PyM.Keeps.send fun _ _ h _ => h
  append := hI.appendNewVersion
  appendFor := hI.appendFor
  addRule name rule := PyM.Keeps.modify fun c r h => hI.addRule c r name rule h
  hset n := hI.execute [(.dsl, n)]

/-- The constructor keeps the invariant. -/
theorem VersInv.connect (hI : VersInv cond I E) (py : Py J) (nsVersions : List (Ns × Ver)) :
    PyM.Keeps cond I E (connect py nsVersions) :=
  hI.loads.connect py nsVersions

/-- `do_upd` keeps the invariant. -/
theorem VersInv.doUpd (hI : VersInv cond I E) (py : Py J) {d : Dsl J}
    (hks : ∀ a ∈ d.adds, ∀ k ∈ a.keys, KeepsSet I k) : PyM.Keeps cond I E (doUpd py d) :=
  hI.loads.doUpd py fun a ha k hk => (hks a ha k hk).lift hI.toListInv

end Versions

end SchemaUpdate.Lur
