import SchemaUpdate.Lur.Update

/-! # Properties of methods

Connecting and loading are put together from a few methods. A property of methods that
goes through sequences is proved for those, and holds of the constructor and of `do_upd`
then. -/

namespace SchemaUpdate.Lur

open SchemaUpdate.Lib

variable {J : Type}

/-- A property of methods that goes through sequences. -/
structure PyM.Closed (K : ∀ {α : Type}, PyM J α → Prop) : Prop where
  pure : ∀ {α : Type} (a : α), K (pure a : PyM J α)
  raise : ∀ {α : Type} (e : PyErr), K (PyM.raise e : PyM J α)
  client : K (PyM.client : PyM J (Client J))
  bind : ∀ {α β : Type} {m : PyM J α} {f : α → PyM J β}, K m → (∀ a, K (f a)) → K (m >>= f)

/-- A property that the commands but `HSET`, and the changes of the dictionaries of versions
have. -/
structure PyM.Parts (K : ∀ {α : Type}, PyM J α → Prop) : Prop extends PyM.Closed K where
  send : ∀ cmd, (∀ w l, cmd = .exec w l → ∀ f text, Write.hset f text ∉ l) → K (PyM.send cmd)
  setNsVersion : ∀ ns v, K (PyM.modify (·.setNsVersion ns v))
  setVersDict : ∀ ns l, K (PyM.modify (·.setVersDict ns l))

/-- A property that the parts of the constructor and of `do_upd` have. -/
structure PyM.Loads (K : ∀ {α : Type}, PyM J α → Prop) : Prop extends PyM.Closed K where
  watch : K (PyM.send (.watch .dsl))
  hget : ∀ name, K (PyM.send (.hget name))
  hgetall : K (PyM.send .hgetall)
  append : ∀ v ns startup, K (appendNewVersion v ns startup)
  appendFor : ∀ t, K (appendFor t)
  addRule : ∀ name rule, K (PyM.modify (·.addRule name rule))
  hset : ∀ (n : Nat) (name : UpdName) (text : Bytes) (new : Prop) [Decidable new],
    K (execute [(.dsl, n)] (if new then [Write.hset name text] else []))

/-- The keys an `add` stanza sets. -/
def AddTuple.keys (a : AddTuple J) : List Bytes := (a.func.map Prod.fst).getD []

namespace PyM

variable {K : ∀ {α : Type}, PyM J α → Prop} {α : Type}

section Closed

variable (hK : PyM.Closed K)

include hK

theorem Closed.ofExcept (x : Except PyErr α) : K (PyM.ofExcept x) := by
  cases x with
  | ok a => exact hK.pure a
  | error e => exact hK.raise e

theorem Closed.forM {l : List α} {f : α → PyM J PUnit} (hf : ∀ x ∈ l, K (f x)) : K (l.forM f) := by
  induction l with
  | nil => exact hK.pure _
  | cons x l ih =>
    rw [List.forall_mem_cons] at hf
    exact hK.bind hf.1 fun _ => ih hf.2

theorem Closed.checkVersions (texts : Texts) : K (checkVersions texts) := by
  induction texts with
  | nil => exact hK.pure _
  | cons p rest ih =>
    refine hK.bind hK.client fun c => hK.bind (hK.ofExcept _) fun cur => ?_
    split
    · exact hK.raise _
    · exact ih

theorem Closed.setKeys (py : Py J) (j : J) {ks : List Bytes}
    (hks : ∀ k ∈ ks, ∀ v, K (PyM.lift fun c => set c k v {})) : K (setKeys py j ks) := by
  induction ks with
  | nil => exact hK.pure _
  | cons k ks ih =>
    rw [List.forall_mem_cons] at hks
    exact hK.bind (hks.1 _) fun _ => ih hks.2

/-- The `add` stanzas. -/
theorem Closed.addLoop (py : Py J) (happend : ∀ v ns, K (appendNewVersion v ns false))
    {adds : List (AddTuple J)}
    (hks : ∀ a ∈ adds, ∀ k ∈ a.keys, ∀ v, K (PyM.lift fun c => set c k v {})) :
    K (addLoop py adds) := by
  induction adds with
  | nil => exact hK.pure _
  | cons a rest ih =>
    rw [List.forall_mem_cons] at hks
    refine hK.bind (happend _ _) fun _ => ?_
    have hkeys := hks.1
    cases hf : a.func with
    | none => exact ih hks.2
    | some p =>
      rw [AddTuple.keys, hf] at hkeys
      exact hK.bind (hK.setKeys py p.2 hkeys) fun _ => ih hks.2

end Closed

/-- The version list of one namespace is extended. -/
theorem Parts.append (hK : PyM.Parts K) (v : Ver) (ns : Ns) (startup : Bool) :
    K (appendNewVersion v ns startup) := by
  refine hK.bind (hK.send _ nofun) fun n => hK.bind (hK.send _ nofun) fun l => ?_
  refine hK.bind (hK.setNsVersion ns v) fun _ => ?_
  split
  · split
    · exact hK.bind (hK.setVersDict ns _) fun _ => hK.pure _
    · exact hK.pure _
  · split
    · exact hK.raise _
    · split
      · exact hK.raise _
      · refine hK.bind (hK.setVersDict ns _) fun _ => hK.bind (hK.send _ ?_) fun _ => hK.pure _
        rintro w l ⟨⟩
        simp

/-- The version list is extended, or handed over to another namespace. -/
theorem Parts.appendFor (hK : PyM.Parts K) (t : ForTuple J) : K (appendFor t) := by
  unfold Lur.appendFor
  split
  · exact hK.append _ _ _
  · refine hK.bind (hK.send _ nofun) fun there => ?_
    split
    · exact hK.raise _
    · refine hK.bind (hK.send _ nofun) fun n => hK.bind (hK.send _ nofun) fun n' =>
        hK.bind (hK.send _ nofun) fun l => ?_
      split
      · exact hK.raise _
      · split
        · exact hK.raise _
        · refine hK.bind (hK.setVersDict t.ns _) fun _ => hK.bind hK.client fun c => ?_
          split
          · exact hK.raise _
          · refine hK.bind (hK.setVersDict t.oldns _) fun _ =>
              hK.bind (hK.send _ ?_) fun _ => hK.pure _
            rintro w l ⟨⟩
            simp

section Loads

variable (hK : PyM.Loads K) (py : Py J)

include hK

/-- The `for` stanzas. -/
theorem Loads.forLoop (texts : Texts) (file : Option Bytes) (fors : List (ForTuple J)) :
    K (forLoop texts file fors) := by
  induction fors with
  | nil => exact hK.pure _
  | cons t rest ih =>
    refine hK.bind hK.watch fun n => ?_
    split
    · exact hK.raise _
    · refine hK.bind (hK.hget _) fun prev => hK.bind (hK.ofExcept _) fun joined => ?_
      split
      · exact hK.raise _
      · refine hK.bind (hK.appendFor t) fun out => ?_
        split
        · exact hK.pure _
        · split
          · exact hK.pure _
          · refine hK.bind (hK.addRule _ _) fun _ => hK.bind (hK.hset _ _ _ _) fun done => ?_
            split
            · exact hK.pure _
            · exact hK.raise _
            · exact ih

/-- **A property that the parts of a load have, the load has.** -/
theorem Loads.doUpd {d : Dsl J}
    (hks : ∀ a ∈ d.adds, ∀ k ∈ a.keys, ∀ v, K (PyM.lift fun c => set c k v {})) :
    K (doUpd py d) := by
  unfold Lur.doUpd
  split
  · exact hK.pure _
  · refine hK.bind (hK.checkVersions _) fun _ => ?_
    split
    · exact hK.raise _
    · refine hK.bind (hK.addLoop py (fun v ns => hK.append v ns false) hks) fun _ => ?_
      exact hK.bind (hK.forLoop _ _ _) fun _ => hK.pure _

theorem Loads.connect (nsVersions : List (Ns × Ver)) : K (connect py nsVersions) := by
  have hload : ∀ texts, K (loadUpdTuples py texts) := by
    intro texts
    induction texts with
    | nil => exact hK.pure _
    | cons p rest ih =>
      refine hK.bind (hK.ofExcept _) fun tups => hK.bind (hK.forM fun t _ => ?_) fun _ => ih
      split
      · exact hK.raise _
      · exact hK.addRule _ _
  refine hK.bind (hK.forM fun p _ => ?_) fun _ => hK.bind hK.hgetall hload
  exact hK.bind (hK.append _ _ _) fun _ => hK.pure _

end Loads

end PyM

end SchemaUpdate.Lur
