import SchemaUpdate.Lur.Race

/-! # The results of the update functions

An update function maps a key and an object to a key and an object. `update` calls the
functions of a step one after the other, every one on the key that was asked for and on
one shared object, and keeps what the last one returns. Read as maps, the functions
compose: each is given the key and the object the one before returned, and the key
that comes out is where the entry belongs. -/

namespace SchemaUpdate.Lur

open SchemaUpdate.Lib

section

variable {J : Type}

/-- An update function that returns. -/
abbrev Total (J : Type) := Bytes → J → FunOut J

def Total.lift (f : Total J) : UpdFun J := fun key j => .ok (f key j)

/-- The functions after one another. `None` asks for the deletion of the entry, and there is
nothing left to update then. -/
def compose : List (Total J) → Bytes → J → Option Bytes × J
  | [], key, j => (some key, j)
  | f :: fs, key, j =>
    match (f key j).key with
    | none => (none, (f key j).ret)
    | some key' => compose fs key' (f key j).ret

def idle : Total J := fun key j => ⟨some key, j, j⟩

/-- The function keeps the key and makes its changes in the object it is given. -/
def InPlace (f : Total J) : Prop :=
  ∀ key j, (f key j).key = some key ∧ (f key j).obj = (f key j).ret

/-! ## `update` -/

variable {fs : List (Total J)} {name : Bytes} {j : J}

def changed (fs : List (Total J)) (name : Bytes) (j : J) : J :=
  fs.foldl (fun j f => (f name j).ret) j

theorem compose_inPlace (h : ∀ f ∈ fs, InPlace f) :
    compose fs name j = (some name, changed fs name j) := by
  induction fs generalizing j with
  | nil => rfl
  | cons f fs ih =>
    rw [List.forall_mem_cons] at h
    rw [compose, (h.1 name j).1]
    exact ih h.2

theorem applyFuncs_inPlace (h : ∀ f ∈ fs, InPlace f) (last : Option Bytes × J) :
    applyFuncs name (fs.map Total.lift) j last =
      .ok (if fs = [] then last else (some name, changed fs name j)) := by
  induction fs generalizing j last with
  | nil => rfl
  | cons f fs ih =>
    rw [List.forall_mem_cons] at h
    rw [List.map_cons, applyFuncs, Total.lift, ok_bind, ih h.2, (h.1 name j).1, (h.1 name j).2,
      if_neg (List.cons_ne_nil f fs)]
    cases fs <;> rfl

theorem update_inPlace {py : Py J} {val : Bytes} (hval : py.loads val = some j) (hne : fs ≠ [])
    (h : ∀ f ∈ fs, InPlace f) :
    update py name val (fs.map Total.lift) = .ok (some name, py.dumps (changed fs name j)) := by
  rw [update, hval]
  simp only [applyFuncs_inPlace h, if_neg hne, ok_bind]

theorem dumps_injective (py : Py J) {i : J} (h : py.dumps i = py.dumps j) : i = j := by
  have hi := py.loads_dumps i
  rw [h, py.loads_dumps] at hi
  exact (Option.some.inj hi).symm

/-- A function that is followed by one that does nothing has been heard only if it works in
place: the second is given the key asked for, and the object the first has left. -/
theorem inPlace_of_composes (py : Py J) {f : Total J}
    (h : ∀ name j, update py name (py.dumps j) ([f, idle].map Total.lift) =
      .ok ((compose [f, idle] name j).1, py.dumps (compose [f, idle] name j).2)) : InPlace f := by
  intro name j
  have hupd : update py name (py.dumps j) ([f, idle].map Total.lift) =
      .ok (some name, py.dumps (f name j).obj) := by
    rw [update, py.loads_dumps]
    rfl
  have heq := hupd.symm.trans (h name j)
  simp only [Except.ok.injEq, Prod.mk.injEq] at heq
  obtain ⟨hkey, hobj⟩ := heq
  have hobj := dumps_injective py hobj
  unfold compose at hkey hobj
  split at hkey
  · cases hkey
  · rename_i key heq
    simp only [heq] at hobj
    cases hkey
    exact ⟨heq, hobj⟩

/-! ## The walk -/

/-- The functions of the steps from the version `v` on, as the rules of the client have them. -/
def stepFuncs (py : Py J) (c : Client J) (name : Bytes) (prevNs ns : Ns) :
    Ver → List Ver → Option (List (List (UpdFun J)))
  | _, [] => some []
  | v, w :: ws =>
    match c.updDict ⟨v, w, prevNs, ns⟩ with
    | none => none
    | some rules =>
      match matching py name w rules with
      | .error _ => none
      | .ok fs => (stepFuncs py c name prevNs ns w ws).map (fs :: ·)

section Walk

variable {py : Py J} {c : Client J} {name : Bytes} {prevNs ns : Ns}

theorem stepFuncs_cons {v w : Ver} {ws : List Ver} {fss : List (List (UpdFun J))}
    (h : stepFuncs py c name prevNs ns v (w :: ws) = some fss) :
    ∃ rules fs rest, c.updDict ⟨v, w, prevNs, ns⟩ = some rules ∧
      matching py name w rules = .ok fs ∧
      stepFuncs py c name prevNs ns w ws = some rest ∧ fss = fs :: rest := by
  unfold stepFuncs at h
  split at h
  · cases h
  · rename_i rules hrules
    split at h
    · cases h
    · rename_i fs hfs
      obtain ⟨rest, hrest, rfl⟩ := Option.map_eq_some_iff.mp h
      exact ⟨rules, fs, rest, hrules, hfs, hrest, rfl⟩

theorem walk_inPlace {v : Ver} {ws : List Ver} {fss : List (List (Total J))}
    (h : stepFuncs py c name prevNs ns v ws = some (fss.map (·.map Total.lift)))
    (hfss : ∀ fs ∈ fss, ∀ f ∈ fs, InPlace f) {val : Bytes} {j : J} (hval : py.loads val = some j) :
    ∃ w val', ws.foldlM (walkStep py c name prevNs ns) (v, val) = .ok (w, val') ∧
      py.loads val' = some (changed fss.flatten name j) := by
  induction ws generalizing v val j fss with
  | nil =>
    have hnil : fss = [] := by simpa [stepFuncs] using h
    subst hnil
    exact ⟨v, val, rfl, hval⟩
  | cons w ws ih =>
    obtain ⟨rules, fs, rest, hrules, hfs, hrest, heq⟩ := stepFuncs_cons h
    cases fss with
    | nil => cases heq
    | cons gs fss =>
      obtain ⟨rfl, rfl⟩ := List.cons.inj heq
      rw [List.forall_mem_cons] at hfss
      have happend : changed (gs :: fss).flatten name j =
          changed fss.flatten name (changed gs name j) := by
        rw [List.flatten_cons, changed, List.foldl_append, changed, changed]
      rw [List.foldlM_cons, walkStep, hrules, happend]
      simp only [hfs, ok_bind]
      by_cases hgs : gs = []
      · subst hgs
        exact ih hrest hfss.2 hval
      · rw [if_neg (by simpa using hgs), update_inPlace hval hgs hfss.1, ok_bind]
        exact ih hrest hfss.2 (py.loads_dumps _)

end Walk

/-! ## `get` -/

/-- The newest copy of the key is at an older version. -/
structure OldCopy (r : Redis) (name : Bytes) (cur : Ver × Ns) (vl : List (Ver × Ns)) (k : Nat)
    (e : Ver × Ns) (x : Item) : Prop where
  entry : vl[k]? = some e
  here : r.find (nameAt name e) = some x
  found : firstFound ((potentialKeys name (cur :: vl)).map r.val?) = some (k + 1, x.val)
  new : r.find (versioned cur.1 name) = none

def target (c : Client J) (key : Bytes) : Option Bytes :=
  match c.currVersion (splitNamespaceKey key).1 with
  | .ok v => some (versioned v key)
  | .error _ => none

theorem Knows.target {c : Client J} {cur : Ver × Ns} {vl : List (Ver × Ns)}
    (hc : Knows c name (cur :: vl)) : target c name = some (versioned cur.1 name) := by
  rw [Lur.target, hc.currVersion]

/-- What the call should leave when the functions make `res` of the entry stored at `orig`: the
new object at the place of the new key and nowhere else, or nothing. -/
def Honoured (py : Py J) (c : Client J) (orig : Bytes) (res : Option Bytes × J) (r : Redis)
    (out : Except PyErr (Option Bytes) × Redis) : Prop :=
  match res.1 with
  | none => out.1 = .ok none ∧ ∀ p, out.2.find p = if p = orig then none else r.find p
  | some key => ∃ place text y, target c key = some place ∧ out.1 = .ok (some text) ∧
      py.loads text = some res.2 ∧ y.val = text ∧
      ∀ p, out.2.find p = if p = place then some y else if p = orig then none else r.find p

section Get

variable {py : Py J} {c : Client J} {name : Bytes} {cur : Ver × Ns} {vl : List (Ver × Ns)}
  {k : Nat} {e : Ver × Ns} {x : Item} {r : Redis} (h : OldCopy r name cur vl k e x)

include h

theorem OldCopy.ne : nameAt name e ≠ versioned cur.1 name := by
  intro heq
  have hhere := h.here
  rw [heq, h.new] at hhere
  cases hhere

theorem OldCopy.run_get (hc : Knows c name (cur :: vl)) (depth : Nat) :
    (get py c name (depth + 1)).run serve r =
      match migrate py c name (cur :: vl) (k + 1) e x.val with
      | .error err => (.error err, r)
      | .ok val => (.ok (some val), (moveAlone (nameAt name e) (versioned cur.1 name) x.val val r).2)
    := by
  have hnone : r.val? (versioned cur.1 name) = none := by rw [Redis.val?, h.new]; rfl
  rw [Lur.run_get py hc, getAlone, hnone]
  simp only [getAllAlone, h.found, h.entry]
  cases migrate py c name (cur :: vl) (k + 1) e x.val with
  | error err => rfl
  | ok val => simp only [moveAlone_ok h.here h.ne, if_true]

theorem OldCopy.moved (val : Bytes) : ∃ y, y.val = val ∧ ∀ p,
      (moveAlone (nameAt name e) (versioned cur.1 name) x.val val r).2.find p =
        if p = versioned cur.1 name then some y else if p = nameAt name e then none
        else r.find p := by
  have hlive := Redis.live_of_find h.here
  rw [moveAlone_store h.here h.ne]
  split
  · refine ⟨⟨val, x.expire⟩, rfl, fun p => ?_⟩
    have hput : (r.put (versioned cur.1 name) (some ⟨val, x.expire⟩)).find p =
        if p = versioned cur.1 name then some ⟨val, x.expire⟩ else r.find p :=
      @Redis.find_put_live r ⟨val, x.expire⟩ hlive _ _
    rw [Redis.find_del, hput]
    by_cases hp : p = versioned cur.1 name
    · rw [if_neg fun h' => h.ne (h'.symm.trans hp), if_pos hp, if_pos hp]
    · rw [if_neg hp, if_neg hp]
  · rename_i heq
    refine ⟨x, not_not.mp heq, fun p => ?_⟩
    have hlive' : x.expire.all ((r.del (nameAt name e)).now < ·) = true := by
      rwa [Redis.del_now]
    rw [Redis.find_put_live hlive', Redis.find_del]

omit h

/-- **`update` and `get` do with every list of functions of `F` what their results ask for.** -/
structure HonoursAll (py : Py J) (F : Set (Total J)) : Prop where
  update : ∀ fs, fs ≠ [] → (∀ f ∈ fs, f ∈ F) → ∀ name val j, py.loads val = some j →
    Lur.update py name val (fs.map Total.lift) =
      .ok ((compose fs name j).1, py.dumps (compose fs name j).2)
  get : ∀ {c : Client J} {name cur vl k e x r j} {fss : List (List (Total J))},
    OldCopy r name cur vl k e x → Knows c name (cur :: vl) → py.loads x.val = some j →
    stepFuncs py c name e.2 (splitNamespaceKey name).1 e.1
      (((cur :: vl).take (k + 1)).map Prod.fst).reverse = some (fss.map (·.map Total.lift)) →
    (∀ fs ∈ fss, ∀ f ∈ fs, f ∈ F) → ∀ depth,
    Honoured py c (nameAt name e) (compose fss.flatten name j) r
      ((Lur.get py c name (depth + 1)).run serve r)

end Get

end

/-! ## Functions of one step -/

def oldStore : Redis := (Redis.init 0).put (lit "v0|n:k") (some ⟨lit "\"x\"", none⟩)

variable (fs : List (Total Bytes))

def demoStep : Client Bytes :=
  { demoClient Bytes with
    updDict := fun u => if u = ⟨lit "v0", lit "v1", lit "n", lit "n"⟩ then
      some [⟨lit "*", fs.map Total.lift, lit "v1"⟩] else none }

theorem oldStore_copy : OldCopy oldStore (lit "n:k") demoV1 [demoV0] 0 demoV0 ⟨lit "\"x\"", none⟩ :=
  ⟨rfl, by decide, by decide, by decide⟩

theorem demoStep_knows : Knows (demoStep fs) (lit "n:k") [demoV1, demoV0] :=
  demoClient_knows Bytes

def appending (b : Bytes) : Total Bytes := fun key j => ⟨some key, j ++ b, j ++ b⟩

def rebinding (b : Bytes) : Total Bytes := fun key j => ⟨some key, j ++ b, j⟩

theorem appending_inPlace (b : Bytes) : InPlace (appending b) := fun _ _ => ⟨rfl, rfl⟩

end SchemaUpdate.Lur
