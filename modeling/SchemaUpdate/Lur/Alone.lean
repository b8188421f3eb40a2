import SchemaUpdate.Lur.Update

/-! # Calls that run alone

What `get`, `set` and `delete` answer and do when no other client's command comes in
between: no transaction is aborted, and a call is one step. -/

namespace SchemaUpdate.Lur

open SchemaUpdate.Lib

variable {J : Type}

/-- The client knows the version list `vl` for the namespace of the key. -/
def Knows (c : Client J) (name : Bytes) (vl : List (Ver × Ns)) : Prop :=
  c.versDict (splitNamespaceKey name).1 = some vl

variable {c : Client J} {name : Bytes} {vl : List (Ver × Ns)} {cur : Ver × Ns}

theorem Knows.versions (h : Knows c name vl) : c.versions (splitNamespaceKey name).1 = .ok vl := by
  rw [Client.versions, h]

theorem Knows.currVersion {e : Ver × Ns} (h : Knows c name (e :: vl)) :
    c.currVersion (splitNamespaceKey name).1 = .ok e.1 := by
  rw [Client.currVersion, h.versions]
  rfl

/-! ## `get` -/

/-- The value found at an older version is moved to the current one. -/
def moveAlone (orig new found val : Bytes) (r : Redis) : Bool × Redis :=
  if found ≠ val then
    applyAll [if r.pttl orig < 0 then .set new val else .psetex new (r.pttl orig) val, .del orig] r
  else applyAll [.rename orig new] r

variable (py : Py J)

/-- The part of `get` behind the express route. -/
def getAllAlone (c : Client J) (name : Bytes) (cur : Ver × Ns) (vl : List (Ver × Ns))
    (r : Redis) : Except PyErr (Option Bytes) × Redis :=
  match firstFound ((potentialKeys name (cur :: vl)).map r.val?) with
  | none =>
    (.ok none, r.put (nameAt name cur)
      (some ⟨placeholder, none⟩))
  | some (0, v) => (.ok (some v), r)
  | some (idx + 1, v) =>
    match vl[idx]? with
    | none => (.error .indexError, r)
    | some e =>
      match migrate py c name (cur :: vl) (idx + 1) e v with
      | .error err => (.error err, r)
      | .ok val =>
        let out := moveAlone (nameAt name e)
          (versioned cur.1 name) v val r
        (if out.1 then .ok (some val) else .error .responseError, out.2)

def getAlone (c : Client J) (name : Bytes) (cur : Ver × Ns) (vl : List (Ver × Ns))
    (r : Redis) : Except PyErr (Option Bytes) × Redis :=
  match r.val? (versioned cur.1 name) with
  | none => getAllAlone py c name cur vl r
  | some v =>
    if v = placeholder then (.ok none, r)
    else if v ≠ [] then (.ok (some v), r)
    else getAllAlone py c name cur vl r

theorem firstFound_none {vals : List (Option Bytes)} :
    firstFound vals = none ↔ vals.all Option.isNone = true := by
  induction vals with
  | nil => simp [firstFound]
  | cons v vals ih =>
    cases v with
    | none => simpa [firstFound] using ih
    | some x => simp [firstFound]

theorem run_getWatch (c : Client J) (name : Bytes) (vl : List (Ver × Ns))
    (again : GetProg) (ks : List RKey) (w : Watch) (r : Redis) :
    (getWatch py c name vl again ks w).run serve r =
      (getLook py c name vl again (w ++ ks.map fun k => (k, r.touched k))).run serve r := by
  induction ks generalizing w with
  | nil => simp [getWatch]
  | cons k ks ih =>
    rw [getWatch, Prog.run_call]
    have hserve : serve (.watch k) r = (r.touched k, r) := rfl
    rw [hserve]
    simp only
    rw [ih, List.append_assoc]
    rfl

theorem clean_watched (r : Redis) (ks : List RKey) :
    r.clean (ks.map fun k => (k, r.touched k)) = true := by
  simp [Redis.clean]

theorem run_exec {w : Watch} {r : Redis} (h : r.clean w = true) (l : List Write)
    (k : Option Bool → GetProg) :
    (Prog.call (.exec w l) k).run serve r = (k (some (applyAll l r).1)).run serve (applyAll l r).2 := by
  have hserve : serve (.exec w l) r = (some (applyAll l r).1, (applyAll l r).2) := by
    simp only [serve, h, if_true]
  rw [Prog.run_call, hserve]

theorem run_getWrite (again : GetProg) {w : Watch} {r : Redis} (h : r.clean w = true)
    (orig new found val : Bytes) :
    (getWrite again w orig new found val).run serve r =
      (if (moveAlone orig new found val r).1 then .ok (some val) else .error .responseError,
        (moveAlone orig new found val r).2) := by
  have hdone : ∀ (b : Bool) (s : Redis), (getDone again val (some b)).run serve s =
      (if b then .ok (some val) else .error .responseError, s) := by
    intro b s
    cases b <;> rfl
  unfold getWrite moveAlone
  split
  · have hserve : serve (.pttl orig) r = (r.pttl orig, r) := rfl
    rw [Prog.run_call, hserve, run_exec h, hdone]
  · rw [run_exec h, hdone]

/-- **`get` alone.** -/
theorem run_get (h : Knows c name (cur :: vl)) (depth : Nat) (r : Redis) :
    (get py c name (depth + 1)).run serve r = getAlone py c name cur vl r := by
  have hall : (getAll py c name (cur :: vl) (get py c name depth)).run serve r =
      getAllAlone py c name cur vl r := by
    have hserve : serve (.mget (potentialKeys name (cur :: vl))) r =
      ((potentialKeys name (cur :: vl)).map r.val?, r) := rfl
    rw [getAll, Prog.run_call, hserve]
    simp only
    unfold getAllAlone
    cases hfound : firstFound ((potentialKeys name (cur :: vl)).map r.val?) with
    | none =>
      have hnone := firstFound_none.mp hfound
      have hfree : r.find (nameAt name cur) =
          none := by
        simp only [potentialKeys, List.map_cons, List.all_cons, Bool.and_eq_true] at hnone
        simpa [Redis.val?] using hnone.1
      rw [if_pos hnone]
      simp only [potentialKeys, List.map_cons, List.getElem?_cons_zero, Prog.run_call, serve, hfree,
        Option.isSome_none, Bool.false_eq_true, if_false, Prog.run_ret]
    | some p =>
      have hsome : ¬ ((potentialKeys name (cur :: vl)).map r.val?).all Option.isNone = true := by
        intro hall
        rw [firstFound_none.mpr hall] at hfound
        cases hfound
      rw [if_neg hsome, run_getWatch, List.nil_append, getLook, Prog.run_call, hserve]
      simp only [hfound]
      obtain ⟨idx, v⟩ := p
      cases idx with
      | zero => rfl
      | succ idx =>
        simp only [List.getElem?_cons_zero, List.getElem?_cons_succ]
        cases vl[idx]? with
        | none => rfl
        | some e =>
          simp only
          cases migrate py c name (cur :: vl) (idx + 1) e v with
          | error err => rfl
          | ok val => exact run_getWrite _ (clean_watched r _) _ _ _ _
  rw [get, getOnce, h.versions, h.currVersion]
  have hserve : serve (.get (versioned cur.1 name)) r = (r.val? (versioned cur.1 name), r) := rfl
  simp only [Prog.run_call, hserve]
  unfold getAlone
  cases r.val? (versioned cur.1 name) with
  | none => exact hall
  | some v =>
    simp only
    split
    · rfl
    · split
      · rfl
      · exact hall

/-! ## `set` and `delete` -/

theorem run_delOlder {α : Type} (name : Bytes) (vl : List (Ver × Ns)) (a : α) (r : Redis) :
    (delOlder name vl a).run serve r = (a, (keysToDel name vl).foldl Redis.del r) := by
  unfold delOlder
  split
  · rename_i h
    rw [List.isEmpty_iff.mp h]
    rfl
  · rfl

def setAlone (name value : Bytes) (o : SetOpts) (cur : Ver × Ns) (vl : List (Ver × Ns)) (r : Redis) :
    Except PyErr (Option Bool) × Redis :=
  if o.flagged then
    let out := serveSet (versioned cur.1 name) value { o with ex := truthy o.ex, px := truthy o.px } r
    (setReply out.1, (potentialKeys name vl).foldl Redis.del out.2)
  else
    let r' := r.put (versioned cur.1 name) (some ⟨value, none⟩)
    match r.find (versioned cur.1 name) with
    | some _ => (.ok (some true), r')
    | none => (.ok (some true), (potentialKeys name vl).foldl Redis.del r')

theorem run_set (h : Knows c name (cur :: vl)) (value : Bytes) (o : SetOpts) (r : Redis) :
    (set c name value o).run serve r = setAlone name value o cur vl r := by
  rw [set, h.versions, h.currVersion]
  simp only
  unfold setAlone
  split
  · exact run_delOlder _ _ _ _
  · have hserve : serve (.getset (versioned cur.1 name) value) r =
        (r.val? (versioned cur.1 name), r.put (versioned cur.1 name) (some ⟨value, none⟩)) := rfl
    rw [Prog.run_call, hserve, Redis.val?]
    cases r.find (versioned cur.1 name) with
    | none => exact run_delOlder _ _ _ _
    | some x => rfl

theorem run_delete (h : Knows c name (cur :: vl)) (r : Redis) :
    (delete c [name]).run serve r =
      (.ok ((potentialKeys name (cur :: vl)).dedup.filter fun k => (r.find k).isSome).length,
        (potentialKeys name (cur :: vl)).foldl Redis.del r) := by
  have hnames : deleteNames c [name] = .ok (potentialKeys name (cur :: vl)) := by
    simp only [deleteNames, h.versions]
    exact congrArg Except.ok (List.append_nil _)
  rw [delete, hnames]
  rfl

/-! ## A small namespace -/

/-- Objects are strings, written between quotes; every glob matches. -/
def demoPy : Py Bytes where
  loads b := if b.head? = some 34 ∧ b.tail.getLast? = some 34 then some b.tail.dropLast else none
  dumps j := 34 :: (j ++ [34])
  loads_dumps _ := by simp
  loads_nil := rfl
  loads_placeholder := by decide
  fnmatch _ _ := true
  stringmatch _ _ := true
  compile _ _ := .ok []

def demoV0 : Ver × Ns := (lit "v0", lit "n")
def demoV1 : Ver × Ns := (lit "v1", lit "n")

def demoClient (J : Type) : Client J :=
  ⟨fun ns => if ns = lit "n" then some (lit "v1") else none,
    fun ns => if ns = lit "n" then some [demoV1, demoV0] else none, fun _ => none⟩

theorem demoClient_knows (J : Type) : Knows (demoClient J) (lit "n:k") [demoV1, demoV0] := by
  have hsplit : (splitNamespaceKey (lit "n:k")).1 = lit "n" := by decide
  rw [Knows, hsplit]
  simp [demoClient]

end SchemaUpdate.Lur
