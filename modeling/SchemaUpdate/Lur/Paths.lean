import Mathlib.Data.List.Count
import SchemaUpdate.Lib.Bytes

/-! # The traversal of a path

A rule of an update file names the place it is about by a path: field names and array
segments. `generate_upd` turns all of the path but its last segment into lines of Python,
with one loop for every array segment and variables named by successive letters. -/

namespace SchemaUpdate.Lur

open SchemaUpdate.Lib

/-- A segment of a path: a field, or the elements of the array at a field. -/
inductive Seg
  | field (k : Bytes)
  | array (k : Bytes)
  deriving DecidableEq

def Seg.name : Seg → Bytes
  | .field k => k
  | .array k => k

def Seg.isArray : Seg → Bool
  | .field _ => false
  | .array _ => true

/-! ## Objects -/

inductive Json
  | null
  | atom (text : Bytes)
  | arr (xs : List Json)
  | obj (fields : List (Bytes × Json))

def Json.field? (k : Bytes) : Json → Option Json
  | .obj fields => (fields.find? fun p => p.1 == k).map Prod.snd
  | _ => none

def Json.get (k : Bytes) : Json → Option Json
  | .obj fields => some ((Json.field? k (.obj fields)).getD .null)
  | _ => none

/-- What a loop over a value runs through. -/
def Json.items : Json → Option (List Json)
  | .arr xs => some xs
  | .obj fields => some (fields.map fun p => .atom p.1)
  | .atom text => some (text.map fun c => .atom [c])
  | .null => none

def Json.elems? : Json → Option (List Json)
  | .arr xs => some xs
  | _ => none

/-- What `f` gives for the members of a list, one after the other. -/
def concatM (f : Json → Option (List Json)) : List Json → Option (List Json)
  | [] => some []
  | x :: xs => (f x).bind fun os => (concatM f xs).map (os ++ ·)

/-- The objects a path leads to, or `none` when a segment does not resolve. -/
def denote : List Seg → Json → Option (List Json)
  | [], v => some [v]
  | .field k :: rest, v => (v.field? k).bind (denote rest)
  | .array k :: rest, v => ((v.field? k).bind Json.elems?).bind (concatM (denote rest))

/-! ## Lines of code -/

/-- Variables go by the codes of their letters; `none` stands for `jsonobj`. -/
inductive Stmt
  | assign (x : Nat) (src : Option Nat)
  | assertSome (x : Nat)
  | loop (x y : Nat)
  -- the statement of the rule, with its base variable
  | rule (base : Nat)
  deriving DecidableEq

/-- A line with its indentation, and the names of the `.get('…')` written behind it. -/
structure Line where
  tab : Nat
  stmt : Stmt
  gets : List Bytes
  deriving DecidableEq

def Line.addGet (l : Line) (k : Bytes) : Line := { l with gets := l.gets ++ [k] }

/-- The loop of `generate_upd` over the segments before the last one. `cur` is the line that
is being written, `leaf` is `keys[len(keys)-2]`. -/
def codeLines (leaf : Option Seg) (cur : Line) (tab pos : Nat) : List Seg → List Line
  | [] => [cur, ⟨tab, .assertSome pos, []⟩, ⟨tab, .rule pos, []⟩]
  | .field k :: rest => codeLines leaf (cur.addGet k) tab pos rest
  | .array k :: rest =>
    cur.addGet k :: ⟨tab, .assertSome pos, []⟩ ::
      if some (.array k) ≠ leaf then
        ⟨tab, .loop (pos + 1) pos, []⟩ ::
          codeLines leaf ⟨tab + 1, .assign (pos + 2) (some (pos + 1)), []⟩ (tab + 1) (pos + 2) rest
      else codeLines leaf ⟨tab, .loop (pos + 1) pos, []⟩ (tab + 1) (pos + 1) rest

def firstVar : Nat := 101

def firstLine : Line := ⟨1, .assign firstVar none, []⟩

/-- The lines written for a rule with the path `keys`. -/
def traversal (keys : List Seg) : List Line :=
  match keys with
  | [.array _] => [firstLine, ⟨1, .loop (firstVar + 1) firstVar, []⟩,
      ⟨2, .assertSome (firstVar + 1), []⟩, ⟨2, .rule (firstVar + 1), []⟩]
  | _ => codeLines keys.dropLast.getLast? firstLine 1 firstVar keys.dropLast

/-! ## Python

`quoted k` is the string Python reads between quotes where `k` stands, if it is one. -/

section

variable (quoted : Bytes → Option Bytes)

def Stmt.vars : Stmt → List Nat
  | .assign x src => x :: src.toList
  | .assertSome x => [x]
  | .loop x y => [x, y]
  | .rule base => [base]

/-- Variables are letters up to `z`, nothing stands behind the colon of a loop. -/
def Line.Valid (l : Line) : Prop :=
  (∀ x ∈ l.stmt.vars, x ≤ 122) ∧ (∀ k ∈ l.gets, (quoted k).isSome) ∧
    ∀ x y, l.stmt = .loop x y → l.gets = []

/-- How deep the line after it has to stand. -/
def Line.bodyTab (l : Line) : Nat :=
  match l.stmt with
  | .loop _ _ => l.tab + 1
  | _ => l.tab

def WellFormed : Nat → List Line → Prop
  | _, [] => True
  | tab, l :: ls => l.Valid quoted ∧ l.tab = tab ∧ WellFormed l.bodyTab ls

abbrev Locals := Nat → Option Json

def evalGets (gets : List Bytes) (v : Json) : Option Json :=
  gets.foldlM (fun v k => (quoted k).bind fun k' => v.get k') v

/-- The run of well-formed lines: the local variables and the base objects the statement of
the rule has been executed for. What follows a loop is its body. -/
def exec (root : Json) : List Line → Locals × List Json → Option (Locals × List Json)
  | [], st => some st
  | l :: ls, st =>
    match l.stmt with
    | .assign x src => do
      let v ← src.elim (some root) st.1
      let w ← evalGets quoted l.gets v
      exec root ls (Function.update st.1 x (some w), st.2)
    | .assertSome x =>
      match st.1 x with
      | none | some .null => none
      | some _ => exec root ls st
    | .loop x y => do
      let v ← st.1 y
      let items ← v.items
      items.foldlM (fun st item => exec root ls (Function.update st.1 x (some item), st.2)) st
    | .rule base => do
      let v ← st.1 base
      exec root ls (st.1, st.2 ++ [v])

/-- The base objects of a whole run. -/
def visits (root : Json) (ls : List Line) : Option (List Json) :=
  (exec quoted root ls (fun _ => none, [])).map Prod.snd

/-- The code for a path is well-formed and runs the rule once for every object the segments
before the last one lead to. -/
def Compiled (pre : List Seg) (name : Bytes) : Prop :=
  WellFormed quoted 1 (traversal (pre ++ [.field name])) ∧
    ∀ v os, denote pre v = some os → (∀ o ∈ os, (o.field? name).isSome) →
      visits quoted v (traversal (pre ++ [.field name])) = some os

/-! ## Well-formed code -/

/-- The loop that makes the last array segment has nothing behind it, and the letters last. -/
def Fits (leaf : Option Seg) : Nat → List Seg → Prop
  | pos, [] => pos ≤ 122
  | pos, .field k :: rest => (quoted k).isSome ∧ Fits leaf pos rest
  | pos, .array k :: rest => (quoted k).isSome ∧
    if some (.array k) ≠ leaf then Fits leaf (pos + 2) rest else rest = [] ∧ pos + 1 ≤ 122

variable {quoted} {leaf : Option Seg}
  {pos : Nat} {segs : List Seg} {t : Nat} {src : Option Nat} {gs : List Bytes}
    {g : Json → Option (List Json)} {k name : Bytes}

theorem Fits.le (h : Fits quoted leaf pos segs) : pos ≤ 122 := by
  induction segs generalizing pos with
  | nil => exact h
  | cons s rest ih =>
    cases s with
    | field k => exact ih h.2
    | array k =>
      have h' := h.2
      split at h'
      · have := ih h'
        omega
      · omega

theorem codeLines_cons (leaf : Option Seg) (cur : Line) (tab pos : Nat) (s : Seg) (rest : List Seg) :
    ∃ g ls, codeLines leaf cur tab pos (s :: rest) = { cur with gets := cur.gets ++ g } :: ls ∧
      g ≠ [] := by
  induction rest generalizing cur tab pos s with
  | nil => cases s <;> exact ⟨[_], _, rfl, by simp⟩
  | cons s' rest ih =>
    cases s with
    | field k =>
      obtain ⟨g, ls, h, -⟩ := ih (cur.addGet k) tab pos s'
      refine ⟨k :: g, ls, ?_, by simp⟩
      rw [codeLines, h]
      simp [Line.addGet]
    | array k => exact ⟨[k], _, rfl, by simp⟩

theorem wellFormed_loop :
    WellFormed quoted t (codeLines leaf ⟨t, .loop (pos + 1) pos, []⟩ (t + 1) (pos + 1) segs) ↔
      segs = [] ∧ pos + 1 ≤ 122 := by
  cases segs with
  | nil =>
    simp [codeLines, WellFormed, Line.Valid, Stmt.vars, Line.bodyTab]
    omega
  | cons s rest =>
    obtain ⟨g, ls, h, hg⟩ := codeLines_cons leaf ⟨t, .loop (pos + 1) pos, []⟩ (t + 1) (pos + 1) s
      rest
    simp [h, WellFormed, Line.Valid, hg]

theorem valid_assign (hsrc : ∀ x, src = some x → x ≤ pos) :
    Line.Valid quoted ⟨t, .assign pos src, gs⟩ ↔ pos ≤ 122 ∧ ∀ k ∈ gs, (quoted k).isSome := by
  simp only [Line.Valid, Stmt.vars, List.mem_cons, forall_eq_or_imp, Option.mem_toList]
  constructor
  · intro h
    exact ⟨h.1.1, h.2.1⟩
  · intro h
    refine ⟨⟨h.1, fun x hx => (hsrc x hx).trans h.1⟩, h.2, ?_⟩
    simp

theorem wellFormed_codeLines (hsrc : ∀ x, src = some x → x ≤ pos) :
    WellFormed quoted t (codeLines leaf ⟨t, .assign pos src, gs⟩ t pos segs) ↔
      (∀ k ∈ gs, (quoted k).isSome) ∧ Fits quoted leaf pos segs := by
  induction segs generalizing t pos src gs with
  | nil =>
    simp only [codeLines, WellFormed, valid_assign hsrc, Fits]
    simp [Line.Valid, Stmt.vars, Line.bodyTab, and_comm]
  | cons s rest ih =>
    cases s with
    | field k =>
      rw [codeLines, Line.addGet, ih hsrc, Fits]
      simp [or_imp, forall_and, and_assoc]
    | array k =>
      have hnext : Fits quoted leaf (pos + 2) rest → pos + 2 ≤ 122 := Fits.le
      simp only [codeLines, Fits, Line.addGet]
      split
      · simp only [WellFormed, valid_assign hsrc]
        simp only [Line.Valid, Stmt.vars, Line.bodyTab]
        rw [ih (by simp)]
        grind
      · simp only [WellFormed, valid_assign hsrc]
        simp only [Line.Valid, Stmt.vars, Line.bodyTab]
        rw [wellFormed_loop]
        grind

theorem fits_append {init : List Seg} {s : Seg} :
    Fits quoted (some s) pos (init ++ [s]) ↔
      (∀ seg ∈ init ++ [s], (quoted seg.name).isSome) ∧
        (∀ seg ∈ init, seg.isArray = true → seg ≠ s) ∧
        pos + 2 * init.countP Seg.isArray + (if s.isArray then 1 else 0) ≤ 122 := by
  induction init generalizing pos with
  | nil => cases s <;> simp [Fits, Seg.name, Seg.isArray]
  | cons seg init ih =>
    cases seg with
    | field k =>
      simp only [List.cons_append, Fits, ih]
      simp [Seg.name, Seg.isArray, and_assoc]
    | array k =>
      rw [List.cons_append, List.forall_mem_cons, List.forall_mem_cons,
        List.countP_cons_of_pos (show (Seg.array k).isArray = true from rfl), Fits]
      split
      · rename_i hk
        have hne : Seg.array k ≠ s := fun e => hk (congrArg some e)
        rw [ih]
        simp only [Seg.name, Seg.isArray, hne, ne_eq, not_false_eq_true, true_and, and_assoc,
          forall_const]
        refine and_congr_right' (and_congr_right' (and_congr_right' ?_))
        omega
      · rename_i hk
        simp_all [Seg.isArray]

/-! ## What the code does -/

variable (quoted) in
def found : List Seg → Json → Option (List Json)
  | [], .null => none
  | [], v => some [v]
  | .field k :: rest, v => ((quoted k).bind v.get).bind (found rest)
  | .array k :: rest, v => (((quoted k).bind v.get).bind Json.items).bind (concatM (found rest))

theorem foldlM_visits {f : Locals × List Json → Json → Option (Locals × List Json)}
    (h : ∀ st x, (f st x).map Prod.snd = (g x).map (st.2 ++ ·)) (xs : List Json)
    (st : Locals × List Json) :
    (xs.foldlM f st).map Prod.snd = (concatM g xs).map (st.2 ++ ·) := by
  induction xs generalizing st with
  | nil => simp [concatM]
  | cons x xs ih =>
    have hx := h st x
    rw [List.foldlM_cons, concatM]
    cases hf : f st x with
    | none =>
      rw [hf] at hx
      cases hg : g x with
      | none => rfl
      | some os => simp [hg] at hx
    | some st' =>
      rw [hf] at hx
      cases hg : g x with
      | none => simp [hg] at hx
      | some os =>
        simp [hg] at hx
        simp [ih, hx, Function.comp_def]

theorem exec_loop {root : Json} {ls : List Line} (h : ∀ (st : Locals × List Json) x,
      (exec quoted root ls (Function.update st.1 (pos + 1) (some x), st.2)).map Prod.snd =
        (g x).map (st.2 ++ ·)) (st : Locals × List Json) :
    (exec quoted root (⟨t, .assign pos src, gs ++ [k]⟩ :: ⟨t, .assertSome pos, []⟩ ::
      ⟨t, .loop (pos + 1) pos, []⟩ :: ls) st).map Prod.snd =
      (((((src.elim (some root) st.1).bind (evalGets quoted gs)).bind fun w =>
        (quoted k).bind w.get).bind Json.items).bind (concatM g)).map (st.2 ++ ·) := by
  have hgets (v : Json) : evalGets quoted (gs ++ [k]) v =
      (evalGets quoted gs v).bind fun w => (quoted k).bind w.get := by
    simp [evalGets, List.foldlM_append]
  cases hv : src.elim (some root) st.1 with
  | none => simp [exec, hv]
  | some v =>
    rw [Option.bind_some, ← hgets]
    cases hw : evalGets quoted (gs ++ [k]) v with
    | none => simp [exec, hv, hw]
    | some w =>
      -- `assert` stops at `None`, over which a loop cannot run
      cases w with
      | null => simp [exec, hv, hw, Json.items]
      | _ =>
        simp only [exec, hv, hw, Option.bind_eq_bind, Option.bind_some, Function.update_self,
          Json.items]
        exact foldlM_visits h _ _

theorem exec_codeLines {root : Json} (hfits : Fits quoted leaf pos segs) (st : Locals × List Json) :
    (exec quoted root (codeLines leaf ⟨t, .assign pos src, gs⟩ t pos segs) st).map Prod.snd =
      (((src.elim (some root) st.1).bind (evalGets quoted gs)).bind (found quoted segs)).map
        (st.2 ++ ·) := by
  induction segs generalizing t pos src gs st with
  | nil =>
    cases hv : src.elim (some root) st.1 with
    | none => simp [codeLines, exec, hv]
    | some v =>
      cases hw : evalGets quoted gs v with
      | none => simp [codeLines, exec, hv, hw]
      | some w => cases w <;> simp [codeLines, exec, hv, hw, found]
  | cons s rest ih =>
    cases s with
    | field k =>
      rw [codeLines, Line.addGet, ih hfits.2]
      cases src.elim (some root) st.1 with
      | none => rfl
      | some v => simp [evalGets, List.foldlM_append, found, Option.bind_assoc]
    | array k =>
      have hbody := hfits.2
      rw [codeLines, Line.addGet]
      split at hbody
      · rename_i hk
        rw [if_pos hk, exec_loop (g := found quoted rest)]
        · simp [found, Option.bind_assoc]
        · intro st x
          rw [ih hbody]
          simp [evalGets]
      · rename_i hk
        rw [if_neg hk, hbody.1, codeLines, exec_loop (g := found quoted [])]
        · simp [found, Option.bind_assoc]
        · intro st x
          cases x <;> simp [exec, found]

/-! ## Names that are read as they stand -/

theorem concatM_of_denote {f : Json → Option (List Json)} {xs os : List Json}
    (h : ∀ x os, f x = some os → (∀ o ∈ os, (o.field? name).isSome) → g x = some os)
    (hos : ∀ o ∈ os, (o.field? name).isSome) (hf : concatM f xs = some os) :
    concatM g xs = some os := by
  induction xs generalizing os with
  | nil => exact hf
  | cons x xs ih =>
    simp only [concatM, Option.bind_eq_some_iff, Option.map_eq_some_iff] at hf
    obtain ⟨here, hx, rest, hxs, rfl⟩ := hf
    rw [List.forall_mem_append] at hos
    rw [concatM, h x here hx hos.1, Option.bind_some, ih hos.2 hxs, Option.map_some]

theorem get_of_field? {v w : Json} (h : v.field? k = some w) : v.get k = some w := by
  cases v with
  | obj fields => simp [Json.get, h]
  | _ => cases h

theorem found_of_denote (hq : ∀ seg ∈ segs, quoted seg.name = some seg.name) {v : Json}
    {os : List Json} (h : denote segs v = some os) (hos : ∀ o ∈ os, (o.field? name).isSome) :
    found quoted segs v = some os := by
  induction segs generalizing v os with
  | nil =>
    obtain rfl : [v] = os := Option.some.inj h
    cases v with
    | null => simp [Json.field?] at hos
    | _ => rfl
  | cons s rest ih =>
    rw [List.forall_mem_cons] at hq
    cases s with
    | field k =>
      obtain ⟨w, hw, h⟩ := Option.bind_eq_some_iff.mp h
      have hk : quoted k = some k := hq.1
      rw [found, hk, Option.bind_some, get_of_field? hw, Option.bind_some]
      exact ih hq.2 h hos
    | array k =>
      obtain ⟨xs, hxs, h⟩ := Option.bind_eq_some_iff.mp h
      obtain ⟨w, hw, hxs⟩ := Option.bind_eq_some_iff.mp hxs
      have hk : quoted k = some k := hq.1
      have hitems : w.items = some xs := by
        cases w with
        | arr ys => exact hxs
        | _ => cases hxs
      rw [found, hk, Option.bind_some, get_of_field? hw, Option.bind_some, hitems, Option.bind_some]
      exact concatM_of_denote (fun x os hx ho => ih hq.2 hx ho) hos h

/-- The object that has nothing but what a path needs. -/
def only (name : Bytes) : List Seg → Json
  | [] => .obj [(name, .null)]
  | .field k :: rest => .obj [(k, only name rest)]
  | .array k :: rest => .obj [(k, .arr [only name rest])]

theorem denote_only (name : Bytes) (segs : List Seg) :
    denote segs (only name segs) = some [.obj [(name, .null)]] := by
  induction segs with
  | nil => rfl
  | cons s rest ih =>
    cases s <;> simp [denote, only, Json.field?, Json.elems?, concatM, ih]

theorem get_only {k' : Bytes} {w : Json} (h : k' ≠ k) :
    (Json.obj [(k, w)]).get k' = some .null := by
  simp [Json.get, Json.field?, Ne.symm h]

theorem found_null (segs : List Seg) : found quoted segs .null = none := by
  rcases segs with _ | ⟨_ | _, rest⟩
  · rfl
  all_goals
    rename_i k
    cases hk : quoted k <;> simp [found, hk, Json.get]

theorem quoted_of_found (h : (found quoted segs (only name segs)).isSome) :
    ∀ seg ∈ segs, quoted seg.name = some seg.name := by
  induction segs with
  | nil => simp
  | cons s rest ih =>
    rw [List.forall_mem_cons]
    cases s with
    | field k =>
      cases hk : quoted k with
      | none => simp [found, hk] at h
      | some k' =>
        by_cases he : k' = k
        · subst he
          refine ⟨hk, ih ?_⟩
          simpa [found, hk, only, Json.get, Json.field?] using h
        · simp [found, hk, only, get_only he, found_null] at h
    | array k =>
      cases hk : quoted k with
      | none => simp [found, hk] at h
      | some k' =>
        by_cases he : k' = k
        · subst he
          refine ⟨hk, ih ?_⟩
          simpa [found, hk, only, Json.get, Json.field?, Json.items, concatM] using h
        · simp [found, hk, only, get_only he, Json.items] at h

variable (quoted)

/-- **A path compiles** exactly when its names are read as they stand, no array segment before
the last one of its prefix equals that one, and there are letters enough from `e` on. -/
theorem path_compiled_iff (init : List Seg) (s : Seg) (name : Bytes) :
    Compiled quoted (init ++ [s]) name ↔
      (∀ seg ∈ init ++ [s], quoted seg.name = some seg.name) ∧
        (∀ seg ∈ init, seg.isArray = true → seg ≠ s) ∧
        2 * init.countP Seg.isArray + (if s.isArray then 1 else 0) ≤ 21 := by
  have hlines : traversal (init ++ [s] ++ [.field name]) =
      codeLines (some s) ⟨1, .assign firstVar none, []⟩ 1 firstVar (init ++ [s]) := by
    unfold traversal
    split
    · rename_i heq
      simpa using congrArg List.length heq
    · rw [List.dropLast_concat, List.getLast?_concat, firstLine]
  have hwf : WellFormed quoted 1 (traversal (init ++ [s] ++ [.field name])) ↔
      Fits quoted (some s) firstVar (init ++ [s]) := by
    rw [hlines, wellFormed_codeLines (by simp)]
    simp
  have hvisits (h : Fits quoted (some s) firstVar (init ++ [s])) (v : Json) :
      visits quoted v (traversal (init ++ [s] ++ [.field name])) = found quoted (init ++ [s]) v := by
    rw [visits, hlines, exec_codeLines h]
    simp [evalGets]
  constructor
  · rintro ⟨h, hall⟩
    obtain ⟨-, hne, hle⟩ := fits_append.mp (hwf.mp h)
    have hrun := hall _ _ (denote_only name (init ++ [s])) (by simp [Json.field?])
    rw [hvisits (hwf.mp h)] at hrun
    refine ⟨quoted_of_found (Option.isSome_of_eq_some hrun), hne, ?_⟩
    simp only [firstVar] at hle
    omega
  · rintro ⟨hq, hne, hle⟩
    have hfits : Fits quoted (some s) firstVar (init ++ [s]) := by
      refine fits_append.mpr ⟨fun seg hseg => by simp [hq seg hseg], hne, ?_⟩
      simp only [firstVar]
      omega
    refine ⟨hwf.mpr hfits, fun v os h hos => ?_⟩
    rw [hvisits hfits]
    exact found_of_denote hq h hos

/-- `[["a"], ["a"], "x"]`: the second loop is written behind the colon of the first. -/
theorem path_not_compiled :
    ¬ Compiled some ([.array (lit "a")] ++ [.array (lit "a")]) (lit "x") := by
  intro h
  have hloop := h.1
  simp [traversal, codeLines, WellFormed, Line.Valid, Line.addGet] at hloop

end

end SchemaUpdate.Lur
