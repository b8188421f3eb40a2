import SchemaUpdate.Lib.Rely
import SchemaUpdate.Lur.Loads

/-! # Connecting among other clients

Clients connect and load updates at the same time, and their commands reach Redis in any
order. A constructor that returns is at the current version of every namespace, unless
its transaction was aborted or another client has moved the list on. -/

namespace SchemaUpdate.Lur

open SchemaUpdate.Lib

/-! ## Methods among others -/

section Methods

variable {J α β : Type}

/-- What the method achieves when it returns, whatever other clients do along `rely`. -/
def PyM.Sure (rely : Redis → Redis → Prop) (cond : Cmd → Redis → Prop)
    (guar : Redis → Redis → Prop) (post : α → Client J → Redis → Prop) (m : PyM J α)
    (c : Client J) (r : Redis) : Prop :=
  (m c).Sure serve rely cond guar (fun out s => ∀ a, out.1 = .ok a → post a out.2 s) r

variable {rely guar : Redis → Redis → Prop} {cond : Cmd → Redis → Prop}
  {post : α → Client J → Redis → Prop} {post' : β → Client J → Redis → Prop} {c : Client J}
  {r : Redis}

theorem PyM.Sure.pure {a : α} (h : ∀ r', rely r r' → post a c r') :
    PyM.Sure rely cond guar post (pure a) c r := by
  intro r' hr b hb
  cases hb
  exact h r' hr

theorem PyM.Sure.raise {e : PyErr} : PyM.Sure rely cond guar post (PyM.raise e) c r := by
  intro r' _ a ha
  cases ha

variable {m : PyM J α}

theorem PyM.Sure.bind [Std.Refl rely] {f : α → PyM J β} (hm : PyM.Sure rely cond guar post m c r)
    (hf : ∀ a c' r', post a c' r' → PyM.Sure rely cond guar post' (f a) c' r') :
    PyM.Sure rely cond guar post' (m >>= f) c r := by
  refine Prog.Sure.bind hm ?_
  rintro ⟨out, c'⟩ r' hpost
  cases out with
  | ok a => exact hf a c' r' (hpost a rfl)
  | error e => exact PyM.Sure.raise

theorem PyM.Sure.send {cmd : Cmd} {f : cmd.Reply → PyM J β}
    (h : ∀ r', rely r r' → cond cmd r' → guar r' (serve cmd r').2 ∧
      PyM.Sure rely cond guar post' (f (serve cmd r').1) c (serve cmd r').2) :
    PyM.Sure rely cond guar post' (PyM.send cmd >>= f) c r := h

theorem PyM.Sure.modify {g : Client J → Client J} {f : Unit → PyM J β}
    (h : PyM.Sure rely cond guar post' (f ()) (g c) r) :
    PyM.Sure rely cond guar post' (PyM.modify g >>= f) c r := h

theorem PyM.Sure.ofExcept {x : Except PyErr α} {f : α → PyM J β}
    (h : ∀ a, x = .ok a → PyM.Sure rely cond guar post' (f a) c r) :
    PyM.Sure rely cond guar post' (PyM.ofExcept x >>= f) c r := by
  cases x with
  | ok a => exact h a rfl
  | error e => exact PyM.Sure.raise

theorem PyM.Sure.mono {post' : α → Client J → Redis → Prop} (h : PyM.Sure rely cond guar post m c r)
    (hpost : ∀ a c r, post a c r → post' a c r) :
    PyM.Sure rely cond guar post' m c r :=
  Prog.Sure.mono h fun _ _ hout a ha => hpost _ _ _ (hout a ha)

/-- A method that keeps to what it relies on leaves Redis further along. -/
theorem PyM.Sure.frame [IsTrans Redis rely] {s : Redis} (h : PyM.Sure rely cond rely post m c r)
    (hr : rely s r) :
    PyM.Sure rely cond rely (fun a c' r' => post a c' r' ∧ rely s r') m c r :=
  (Prog.Sure.frame (fun _ _ h => h) h hr).mono fun _ _ hout a ha => ⟨hout.1 a ha, hout.2⟩

theorem PyM.Sure.forM [Std.Refl rely] {P : Client J → Redis → Prop} {l : List β}
    {f : β → PyM J PUnit} (hrely : ∀ c r r', rely r r' → P c r → P c r')
    (hf : ∀ x ∈ l, ∀ c r, P c r → PyM.Sure rely cond guar (fun _ => P) (f x) c r)
    (h : P c r) : PyM.Sure rely cond guar (fun _ => P) (l.forM f) c r := by
  induction l generalizing c r with
  | nil => exact PyM.Sure.pure fun r' hr => hrely c r r' hr h
  | cons x l ih =>
    show PyM.Sure rely cond guar (fun _ => P) (f x >>= fun _ => l.forM f) c r
    refine (hf x (by simp) c r h).bind fun _ c' r' h' => ?_
    exact ih (fun y hy => hf y (by simp [hy])) h'

theorem PyM.bind_assoc {γ : Type} (m : PyM J α) (f : α → PyM J β) (g : β → PyM J γ) :
    (m >>= f) >>= g = m >>= fun a => f a >>= g := by
  funext c
  refine (Prog.bind_assoc (m c) _ _).trans ?_
  show (m c).bind _ = (m c).bind _
  congr 1
  funext out
  obtain ⟨x, c'⟩ := out
  cases x <;> rfl

end Methods

/-! ## Counts of the version lists -/

/-- `r'` comes after `r`: a version list whose count is the same is the same. -/
structure Stamped (r r' : Redis) : Prop where
  touched : ∀ k, r.touched k ≤ r'.touched k
  versions : ∀ ns, r'.touched (.versions ns) = r.touched (.versions ns) →
    r'.versions ns = r.versions ns
  dsl : r'.touched .dsl = r.touched .dsl → r'.dsl = r.dsl

theorem Stamped.refl (r : Redis) : Stamped r r :=
  ⟨fun _ => Nat.le_refl _, fun _ _ => rfl, fun _ => rfl⟩

theorem Stamped.trans {r s t : Redis} (h : Stamped r s) (h' : Stamped s t) : Stamped r t where
  touched k := (h.touched k).trans (h'.touched k)
  versions ns hns := by
    have hle := h.touched (.versions ns)
    have hle' := h'.touched (.versions ns)
    rw [h'.versions ns (by omega), h.versions ns (by omega)]
  dsl hdsl := by
    have hle := h.touched .dsl
    have hle' := h'.touched .dsl
    rw [h'.dsl (by omega), h.dsl (by omega)]

instance : Std.Refl Stamped := ⟨Stamped.refl⟩
instance : IsTrans Redis Stamped := ⟨fun _ _ _ => Stamped.trans⟩

theorem Redis.touched_touch (r : Redis) (k j : RKey) :
    (r.touch k).touched j = if j = k then r.touched k + 1 else r.touched j := by
  show Function.update r.touched k (r.touched k + 1) j = _
  by_cases hj : j = k
  · subst hj
    simp
  · simp [hj]

theorem Redis.touched_le_touch (r : Redis) (k j : RKey) : r.touched j ≤ (r.touch k).touched j := by
  rw [Redis.touched_touch]
  split
  · rename_i hj
    rw [hj]
    omega
  · omega

theorem Stamped.put (r : Redis) (k : Bytes) (x : Option Item) : Stamped r (r.put k x) :=
  ⟨fun j => Redis.touched_le_touch { r with data := r.data.put k x } (.data k) j,
    fun _ _ => rfl, fun _ => rfl⟩

theorem Stamped.setVersions (r : Redis) (ns : Ns) (l : List (Ver × Ns)) :
    Stamped r (r.setVersions ns l) where
  touched j :=
    Redis.touched_le_touch { r with versions := Function.update r.versions ns l } (.versions ns) j
  versions m hm := by
    have hm : (Redis.touch { r with versions := Function.update r.versions ns l }
        (.versions ns)).touched (.versions m) = r.touched (.versions m) := hm
    rw [Redis.touched_touch] at hm
    have hne : m ≠ ns := by
      rintro rfl
      simp at hm
    rw [Redis.setVersions_versions, Function.update_of_ne hne]
  dsl _ := rfl

theorem Stamped.hset (r : Redis) (f : UpdName) (text : Bytes) :
    Stamped r (Redis.touch { r with dsl := r.dsl.put f (some text) } .dsl) where
  touched j := Redis.touched_le_touch { r with dsl := r.dsl.put f (some text) } .dsl j
  versions _ _ := rfl
  dsl h := by
    rw [Redis.touched_touch] at h
    simp at h

theorem serve_stamped (cmd : Cmd) (r : Redis) : Stamped r (serve cmd r).2 := by
  by_cases hcmd : ∃ ms, cmd = .tick ms
  · obtain ⟨ms, rfl⟩ := hcmd
    exact ⟨fun _ => Nat.le_refl _, fun _ _ => rfl, fun _ => rfl⟩
  · exact serve_rel Stamped.refl Stamped.trans Stamped.put Stamped.setVersions Stamped.hset
      (fun ms h => hcmd ⟨ms, h⟩) r

/-! ## The constructor -/

section Connect

variable {J : Type} (py : Py J) (rest : List (Ns × Ver)) (p : Ns × Ver)

def joining (nsVersions : List (Ns × Ver)) : PyM J (Option Bool) := do
  connect py nsVersions
  return none

theorem connect_cons (rest : List (Ns × Ver)) :
    connect py (p :: rest) = appendNewVersion p.2 p.1 true >>= fun _ => connect py rest := by
  show ((appendNewVersion p.2 p.1 true >>= fun _ => pure PUnit.unit) >>= fun _ =>
    rest.forM fun (p : Ns × Ver) => do
      let _ ← appendNewVersion p.2 p.1 true
      return) >>= (fun _ => PyM.send .hgetall >>= fun texts => loadUpdTuples py texts) = _
  rw [PyM.bind_assoc, PyM.bind_assoc]
  rfl

theorem joining_cons (rest : List (Ns × Ver)) :
    joining py (p :: rest) = appendNewVersion p.2 p.1 true >>= fun _ => joining py rest := by
  unfold joining
  rw [connect_cons, PyM.bind_assoc]

variable {r : Redis} {c : Client J} {P : Client J → Redis → Prop} {cond : Cmd → Redis → Prop}

theorem loadUpdTuples_sure {rely guar : Redis → Redis → Prop} [Std.Refl rely]
    (hrule : ∀ c r name rule, P c r → P (c.addRule name rule) r)
    (hrely : ∀ c r r', rely r r' → P c r → P c r') (py : Py J) (texts : List (UpdName × Bytes))
    (h : P c r) :
    PyM.Sure rely cond guar (fun _ => P) (loadUpdTuples py texts) c r := by
  induction texts generalizing c r with
  | nil => exact PyM.Sure.pure fun r' hr => hrely c r r' hr h
  | cons p rest ih =>
    refine PyM.Sure.ofExcept fun tups _ => ?_
    refine (PyM.Sure.forM hrely ?_ h).bind fun _ c' r' h' => ih h'
    intro t _ c r h
    cases t.funcs with
    | none => exact PyM.Sure.raise
    | some funcs => exact PyM.Sure.pure fun r' hr => hrely _ _ _ hr (hrule _ _ _ _ h)

variable {v : Ver} {ns : Ns}

/-- `append_new_version` by a client that connects: the list is adopted, or it was empty and a
transaction is sent that creates it; an aborted one goes unnoticed. -/
theorem appendNewVersion_sure {rely guar : Redis → Redis → Prop}
    [Std.Refl guar] (hrely : ∀ c r r', rely r r' → P c r → P c r')
    (hfound : ∀ r₁ r₂, rely r r₁ → rely r₁ r₂ → (r₂.versions ns).head?.map Prod.fst = some v →
      P ((c.setNsVersion ns v).setVersDict ns (some (r₂.versions ns))) r₂)
    (hpush : ∀ r₁ r₂ r₃, rely r r₁ → rely r₁ r₂ → r₂.versions ns = [] → rely r₂ r₃ →
      let cmd := Cmd.exec [(.versions ns, r₁.touched (.versions ns))] [.lpush ns (v, ns)]
      cond cmd r₃ → guar r₃ (serve cmd r₃).2 ∧
        P ((c.setNsVersion ns v).setVersDict ns (some [(v, ns)])) (serve cmd r₃).2) :
    PyM.Sure rely cond guar (fun _ => P) (appendNewVersion v ns true) c r := by
  unfold appendNewVersion
  refine PyM.Sure.send fun r₁ h₁ _ => ⟨Std.Refl.refl _, ?_⟩
  refine PyM.Sure.send fun r₂ h₂ _ => ⟨Std.Refl.refl _, ?_⟩
  refine PyM.Sure.modify ?_
  show PyM.Sure rely cond guar (fun _ => P) (if (r₂.versions ns).head?.map Prod.fst = some v then _
    else _) _ _
  by_cases hhead : (r₂.versions ns).head?.map Prod.fst = some v
  · rw [if_pos hhead]
    exact PyM.Sure.pure fun r' hr => hrely _ _ _ hr (hfound r₁ r₂ h₁ h₂ hhead)
  · rw [if_neg hhead]
    simp only [Bool.true_and]
    split
    · exact PyM.Sure.raise
    · split
      · exact PyM.Sure.raise
      · rename_i hempty
        have hempty : r₂.versions ns = [] := by simpa [serve] using hempty
        refine PyM.Sure.modify (PyM.Sure.send fun r₃ h₃ hcond => ?_)
        obtain ⟨hguar, hP⟩ := hpush r₁ r₂ r₃ h₁ h₂ hempty h₃ hcond
        refine ⟨hguar, PyM.Sure.pure fun r' hr => hrely _ _ _ hr ?_⟩
        show P ((c.setNsVersion ns v).setVersDict ns (some ((v, ns) :: r₂.versions ns))) _
        rw [hempty]
        exact hP

/-! ## The version of a namespace -/

def AtHead (ns : Ns) (v : Ver) (r : Redis) : Prop := (r.versions ns).head?.map Prod.fst = some v

/-- The client and Redis agree that the namespace is at the version. -/
structure Agreed (ns : Ns) (v : Ver) (c : Client J) (r : Redis) : Prop where
  client : c.nsVersions ns = some v
  dict : ∃ l, c.versDict ns = some l ∧ l.head?.map Prod.fst = some v
  redis : AtHead ns v r

/-- A version at the head stays there. -/
def KeepsHead (ns : Ns) (v : Ver) (r r' : Redis) : Prop := AtHead ns v r → AtHead ns v r'

/-- The transaction that creates the list is carried out, or the version is already there. -/
def Admitted (ns : Ns) (v : Ver) (cmd : Cmd) (r : Redis) : Prop :=
  ∀ w, cmd = .exec w [.lpush ns (v, ns)] → r.clean w = true ∨ AtHead ns v r

instance (ns : Ns) (v : Ver) : Std.Refl (KeepsHead ns v) := ⟨fun _ => id⟩
instance (ns : Ns) (v : Ver) : IsTrans Redis (KeepsHead ns v) := ⟨fun _ _ _ h h' => h' ∘ h⟩
instance : Std.Refl fun _ _ : Redis => True := ⟨fun _ => trivial⟩

theorem Agreed.keeps (c : Client J) (r r' : Redis) (hr : KeepsHead ns v r r')
    (h : Agreed ns v c r) : Agreed ns v c r' := ⟨h.client, h.dict, hr h.redis⟩

theorem agreed_set (c : Client J) {l : List (Ver × Ns)} (hl : l.head?.map Prod.fst = some v)
    (hr : AtHead ns v r) :
    Agreed ns v ((c.setNsVersion ns v).setVersDict ns (some l)) r where
  client := Function.update_self ..
  dict := ⟨l, Function.update_self .., hl⟩
  redis := hr

theorem Agreed.other {m : Ns} {u : Ver} (h : Agreed ns v c r) (hm : m ≠ ns)
    (l : Option (List (Ver × Ns))) :
    Agreed ns v ((c.setNsVersion m u).setVersDict m l) r where
  client := (Function.update_of_ne (Ne.symm hm) ..).trans h.client
  dict := by
    obtain ⟨l', hl', hhead⟩ := h.dict
    exact ⟨l', (Function.update_of_ne (Ne.symm hm) ..).trans hl', hhead⟩
  redis := h.redis

theorem serve_create (w : Watch) (ns : Ns) (v : Ver) (r : Redis) :
    (serve (.exec w [.lpush ns (v, ns)]) r).2 =
      if r.clean w then r.setVersions ns ((v, ns) :: r.versions ns) else r := by
  simp only [serve]
  split <;> rfl

theorem Redis.setVersions_self (r : Redis) (ns : Ns) (l : List (Ver × Ns)) :
    (r.setVersions ns l).versions ns = l := Function.update_self ..

theorem Redis.setVersions_of_ne (r : Redis) {m : Ns} (h : m ≠ ns) (l : List (Ver × Ns)) :
    (r.setVersions ns l).versions m = r.versions m := Function.update_of_ne h ..

theorem appendNewVersion_at (ns : Ns) (v : Ver) (c : Client J) (r : Redis) :
    PyM.Sure (KeepsHead ns v) (Admitted ns v) (fun _ _ => True) (fun _ => Agreed ns v)
      (appendNewVersion v ns true) c r := by
  refine appendNewVersion_sure Agreed.keeps ?_ ?_
  · intro r₁ r₂ _ _ hhead
    exact agreed_set c hhead hhead
  · intro r₁ r₂ r₃ _ _ _ _ cmd hcond
    refine ⟨trivial, agreed_set c rfl ?_⟩
    rw [serve_create]
    unfold AtHead
    split
    · rw [Redis.setVersions_self]
      rfl
    · rename_i hdirty
      exact (hcond _ rfl).resolve_left hdirty

theorem Agreed.appendNewVersion (m : Ns) (u : Ver) (h : Agreed ns v c r) :
    PyM.Sure (KeepsHead ns v) (Admitted ns v) (fun _ _ => True) (fun _ => Agreed ns v)
      (appendNewVersion u m true) c r := by
  by_cases hm : m = ns
  · subst hm
    refine appendNewVersion_sure Agreed.keeps ?_ ?_
    · intro r₁ r₂ h₁ h₂ hhead
      have hv : AtHead m v r₂ := h₂ (h₁ h.redis)
      obtain rfl : u = v := Option.some.inj (hhead.symm.trans hv)
      exact agreed_set c hhead hhead
    · intro r₁ r₂ r₃ h₁ h₂ hempty
      have hv : AtHead m v r₂ := h₂ (h₁ h.redis)
      rw [AtHead, hempty] at hv
      cases hv
  · refine appendNewVersion_sure Agreed.keeps ?_ ?_
    · intro r₁ r₂ h₁ h₂ _
      exact (Agreed.keeps c r₁ r₂ h₂ (Agreed.keeps c r r₁ h₁ h)).other hm _
    · intro r₁ r₂ r₃ h₁ h₂ _ h₃ cmd _
      have hbefore : Agreed ns v c r₃ := ⟨h.client, h.dict, h₃ (h₂ (h₁ h.redis))⟩
      have hkept := hbefore.other (u := u) hm (some [(u, m)])
      refine ⟨trivial, hkept.client, hkept.dict, ?_⟩
      rw [serve_create]
      unfold AtHead
      split
      · rw [Redis.setVersions_of_ne _ (Ne.symm hm)]
        exact hbefore.redis
      · exact hbefore.redis

theorem Agreed.joining (h : Agreed ns v c r) :
    PyM.Sure (KeepsHead ns v) (Admitted ns v) (fun _ _ => True) (fun _ => Agreed ns v)
      (joining py rest) c r := by
  induction rest generalizing c r with
  | nil =>
    have hload : PyM.Sure (KeepsHead ns v) (Admitted ns v) (fun _ _ => True)
        (fun _ => Agreed ns v) (connect py []) c r := by
      refine PyM.Sure.send fun r' hr _ => ⟨trivial, ?_⟩
      refine loadUpdTuples_sure ?_ Agreed.keeps py _ (Agreed.keeps c r r' hr h)
      exact fun c r name rule h => ⟨h.client, h.dict, h.redis⟩
    exact hload.bind fun _ c' r' h' =>
      PyM.Sure.pure fun r'' hr => Agreed.keeps c' r' r'' hr h'
  | cons p rest ih =>
    rw [joining_cons]
    exact (h.appendNewVersion p.1 p.2).bind fun _ c' r' h' => ih h'

theorem joining_at (ns : Ns) (v : Ver) (rest : List (Ns × Ver)) (c : Client J) (r : Redis) :
    PyM.Sure (KeepsHead ns v) (Admitted ns v) (fun _ _ => True) (fun _ => Agreed ns v)
      (joining py ((ns, v) :: rest)) c r := by
  rw [joining_cons]
  exact (appendNewVersion_at ns v c r).bind fun _ c' r' h' => h'.joining py rest

/-! ## What connecting changes -/

def CreatesOnly (r r' : Redis) : Prop := ∀ ns, r'.versions ns ≠ r.versions ns → r.versions ns = []

instance : Std.Refl CreatesOnly := ⟨fun _ _ h => absurd rfl h⟩

theorem appendNewVersion_creates (m : Ns) (u : Ver) (c : Client J) (r : Redis) :
    PyM.Sure Stamped (fun _ _ => True) CreatesOnly (fun _ _ _ => True)
      (appendNewVersion u m true) c r := by
  refine appendNewVersion_sure (P := fun _ _ => True) (fun _ _ _ _ h => h) (fun _ _ _ _ _ => trivial) ?_
  intro r₁ r₂ r₃ _ h₂ hempty h₃ cmd _
  refine ⟨?_, trivial⟩
  intro ns hne
  rw [serve_create] at hne
  split at hne
  · rename_i hclean
    have hclean : r₃.touched (.versions m) = r₁.touched (.versions m) := by
      simpa [Redis.clean] using hclean
    by_cases hns : ns = m
    · subst hns
      -- nothing was written to the list since it was found empty
      have hle₂ := h₂.touched (.versions ns)
      have hle₃ := h₃.touched (.versions ns)
      rw [h₃.versions ns (by omega), hempty]
    · rw [Redis.setVersions_of_ne _ hns] at hne
      exact absurd rfl hne
  · exact absurd rfl hne

theorem joining_creates (c : Client J) (r : Redis) :
    PyM.Sure Stamped (fun _ _ => True) CreatesOnly (fun _ _ _ => True) (joining py rest) c r := by
  induction rest generalizing c r with
  | nil =>
    have hload : PyM.Sure Stamped (fun _ _ => True) CreatesOnly (fun _ _ _ => True)
        (connect py []) c r := by
      refine PyM.Sure.send fun r' _ _ => ⟨Std.Refl.refl _, ?_⟩
      exact loadUpdTuples_sure (P := fun _ _ => True) (fun _ _ _ _ h => h) (fun _ _ _ _ h => h) py
        _ trivial
    exact hload.bind fun _ _ _ _ => PyM.Sure.pure fun _ _ => trivial
  | cons p rest ih =>
    rw [joining_cons]
    exact (appendNewVersion_creates p.1 p.2 c r).bind fun _ c' r' _ => ih c' r'

end Connect

/-! ## Clients at work -/

section Jobs

variable {J ι : Type} [DecidableEq ι]

/-- A call of one of the clients. -/
inductive Job (J : Type)
  | connect (nsVersions : List (Ns × Ver))
  | load (c : Client J) (d : Dsl J)

def Job.prog (py : Py J) : Job J → Prog Cmd.Reply (Except PyErr (Option Bool) × Client J)
  | .connect nsVersions => joining py nsVersions Client.empty
  | .load c d => doUpd py d c

def started (py : Py J) (jobs : ι → Job J) (r : Redis) :
    Pool Cmd.Reply ι (Except PyErr (Option Bool) × Client J) Redis :=
  ⟨r, fun i => (jobs i).prog py⟩

theorem joining_through (py : Py J) (before rest : List (Ns × Ver)) (p : Ns × Ver) (c : Client J) :
    (joining py (before ++ p :: rest) c).Through (fun q => ∃ c, q = joining py (p :: rest) c)
      fun out => ∃ a, out.1 = .ok a := by
  induction before generalizing c with
  | nil => exact Prog.Through.of_mem ⟨c, rfl⟩
  | cons q before ih =>
    rw [List.cons_append, joining_cons py q]
    refine Prog.Through.bind _ ?_
    rintro ⟨out, c'⟩
    cases out with
    | ok a => exact ih c'
    | error e =>
      refine .inr ?_
      rintro ⟨a, ha⟩
      cases ha

/-- **A constructor that has returned is at the current version.** A connect changes a version
list only where it is empty. For each requested namespace there is the moment at which the
constructor turns to it; if from then on nobody takes the version from the head of the list,
and the constructor's own transaction is not aborted before the version is there, the client
and Redis agree on the version. -/
theorem connected_at_head (py : Py J) (jobs : ι → Job J) (r : Redis) (sched : List ι) {i : ι}
    {nsVersions : List (Ns × Ver)} (hi : jobs i = .connect nsVersions) :
    (∀ s t, sched = s ++ i :: t → CreatesOnly ((started py jobs r).run serve s).server
      ((started py jobs r).run serve (s ++ [i])).server) ∧
    ∀ a c', ((started py jobs r).run serve sched).procs i = .ret (.ok a, c') →
      ∀ before ns v rest, nsVersions = before ++ (ns, v) :: rest →
        ∃ s t c, sched = s ++ t ∧
          ((started py jobs r).run serve s).procs i = joining py ((ns, v) :: rest) c ∧
          (((started py jobs r).run serve s).Along serve
            (Pool.Relies serve (KeepsHead ns v) (Admitted ns v) i) t →
            Agreed ns v c' ((started py jobs r).run serve sched).server) := by
  have hprog : (started py jobs r).procs i = joining py nsVersions Client.empty := by
    show (jobs i).prog py = _
    rw [hi]
    rfl
  refine ⟨?_, ?_⟩
  · intro s t _
    have hstart : ((started py jobs r).procs i).Sure serve Stamped (fun _ _ => True) CreatesOnly
        (fun out s => ∀ a, out.1 = .ok a → True) (started py jobs r).server := by
      rw [hprog]
      exact joining_creates py nsVersions _ _
    have hsteps : (started py jobs r).Along serve
        (Pool.Relies serve Stamped (fun _ _ => True) i) s := by
      refine Pool.along_of_forall serve (fun p j => ?_) _ _
      unfold Pool.Relies
      split
      · exact fun _ _ _ => trivial
      · exact Pool.step_rel serve Stamped.refl (fun c s => serve_stamped c s) p j
    rw [Pool.run_append]
    exact Pool.sure_own (Pool.sure_run hstart hsteps) fun _ _ _ => trivial
  · intro a c' hend before ns v rest hreq
    have hthrough : ((started py jobs r).procs i).Through
        (fun q => ∃ c, q = joining py ((ns, v) :: rest) c) fun out => ∃ a, out.1 = .ok a := by
      rw [hprog, hreq]
      exact joining_through py before rest (ns, v) _
    obtain ⟨s, t, rfl, c, hs⟩ := Pool.through_run hthrough hend ⟨a, rfl⟩
    refine ⟨s, t, c, rfl, hs, ?_⟩
    intro halong
    have hsure : (((started py jobs r).run serve s).procs i).Sure serve (KeepsHead ns v)
        (Admitted ns v) (fun _ _ => True) (fun out r => ∀ a, out.1 = .ok a →
          Agreed ns v out.2 r) ((started py jobs r).run serve s).server := by
      rw [hs]
      exact joining_at py ns v rest c _
    have hdone := Pool.sure_run hsure halong
    rw [← Pool.run_append, hend] at hdone
    exact hdone _ (Std.Refl.refl _) a rfl

def demoJoins (v : Ver) : Bool → Job Bytes
  | true => .connect [(lit "n", lit "v0")]
  | false => .connect [(lit "n", v)]

def demoRace : List Bool := [true, true, false, false, false, false, true, true]

theorem demo_connected : ∃ c, ((started demoPy (demoJoins (lit "v0")) (Redis.init 0)).run serve
      demoRace).procs true = .ret (.ok none, c) ∧
    Agreed (lit "n") (lit "v0") c
      ((started demoPy (demoJoins (lit "v0")) (Redis.init 0)).run serve demoRace).server := by
  have hsteps : (started demoPy (demoJoins (lit "v0")) (Redis.init 0)).Along serve
      (Pool.Relies serve (KeepsHead (lit "n") (lit "v0")) (Admitted (lit "n") (lit "v0")) true)
      demoRace := by
    refine ⟨Pool.relies_self rfl ?_, Pool.relies_self rfl ?_, ?_, ?_, ?_, ?_,
      Pool.relies_self rfl ?_, Pool.relies_self rfl ?_, trivial⟩
    · exact fun w hw => nomatch hw
    · exact fun w hw => nomatch hw
    · exact fun h => h
    · exact fun h => h
    · exact fun _ => rfl
    · exact fun h => h
    -- the transaction is aborted, but the other client has put the same version
    · exact fun _ _ => .inr rfl
    · exact fun w hw => nomatch hw
  refine ⟨_, rfl, ?_⟩
  obtain ⟨s, t, c, hsched, -, hat⟩ := (connected_at_head demoPy (demoJoins (lit "v0"))
    (Redis.init 0) demoRace (i := true) rfl).2 none _ rfl [] (lit "n") (lit "v0") [] rfl
  refine hat ?_
  rw [hsched, Pool.along_append] at hsteps
  exact hsteps.2

/-- Two first connects at different versions: the transaction of one is aborted, it returns
all the same, and nobody has loaded an update. -/
theorem connected_elsewhere :
    let q := (started demoPy (demoJoins (lit "v1")) (Redis.init 0)).run serve demoRace
    ∃ c, q.procs true = .ret (.ok none, c) ∧ c.nsVersions (lit "n") = some (lit "v0") ∧
      c.versDict (lit "n") = some [(lit "v0", lit "n")] ∧
      q.server.versions (lit "n") = [(lit "v1", lit "n")] :=
  ⟨_, rfl, rfl, rfl, rfl⟩

end Jobs

end SchemaUpdate.Lur
