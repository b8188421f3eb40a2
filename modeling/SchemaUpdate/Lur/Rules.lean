import Mathlib.Data.List.Infix
import Mathlib.Data.List.Dedup
import Mathlib.Data.List.SplitBy
import Mathlib.Data.Set.Defs
import SchemaUpdate.Lur.Paths

/-! # The rules of a stanza

`parse_dslfile_inner` files the rules of a stanza under the first segment of their paths, and
`generate_upd` writes a function for every entry of that dictionary, in whatever order the
dictionary is iterated. -/

namespace SchemaUpdate.Lur

open SchemaUpdate.Lib

inductive DslCmd
  | init | upd | ren | del
  deriving DecidableEq

/-- A rule as it was matched: `code` is the text in braces, `newPath` what a `REN` has instead. -/
structure DslRule where
  cmd : DslCmd
  path : List Seg
  code : Bytes
  newPath : List Seg
  deriving DecidableEq

/-! ## The dictionary -/

def DslRule.key (r : DslRule) : Bytes :=
  match r.path with
  | [] => lit "ALL_VALUES"
  | s :: _ => s.name

/-- Rules for the whole object or for an array are stored without a look at the entry. -/
def DslRule.replaces (r : DslRule) : Bool :=
  match r.path with
  | [] => true
  | s :: _ => s.isArray

def DslRule.file (d : Bytes → Option (List DslRule)) (r : DslRule) :
    Bytes → Option (List DslRule) :=
  Function.update d r.key (some ((if r.replaces then [] else (d r.key).getD []) ++ [r]))

/-- `parse_dslfile_inner`, behind the matching of the rules. -/
def dslDict (rules : List DslRule) : Bytes → Option (List DslRule) :=
  rules.foldl DslRule.file fun _ => none

/-- `cmddict.get(entry)`. -/
def groups (rules : List DslRule) (entry : Bytes) : List DslRule := (dslDict rules entry).getD []

def rulesOf (rules : List DslRule) (k : Bytes) : List DslRule := rules.filter fun r => r.key = k

/-- No rule takes the place of an earlier one. -/
def NoneLost (rules : List DslRule) : Prop :=
  rules.Pairwise fun a b => b.replaces = true → a.key ≠ b.key

section Dictionary

variable {rules : List DslRule} {r : DslRule} {k : Bytes} {order : List Bytes}

theorem dslDict_concat : dslDict (rules ++ [r]) = r.file (dslDict rules) := by
  rw [dslDict, List.foldl_append, List.foldl_cons, List.foldl_nil, dslDict]

theorem groups_concat : groups (rules ++ [r]) k =
    if r.key = k then (if r.replaces then [] else groups rules k) ++ [r] else groups rules k := by
  rw [groups, dslDict_concat, DslRule.file]
  by_cases h : r.key = k
  · rw [if_pos h, h, Function.update_self, Option.getD_some, groups]
  · rw [if_neg h, Function.update_of_ne (Ne.symm h), groups]

theorem rulesOf_concat : rulesOf (rules ++ [r]) k =
    if r.key = k then rulesOf rules k ++ [r] else rulesOf rules k := by
  unfold rulesOf
  by_cases h : r.key = k <;> simp [h]

theorem dslDict_isSome : (dslDict rules k).isSome ↔ ∃ r ∈ rules, r.key = k := by
  induction rules using List.reverseRecOn with
  | nil => simp [dslDict]
  | append_singleton rules r ih =>
    rw [dslDict_concat, DslRule.file]
    by_cases h : r.key = k
    · simp [h]
    · rw [Function.update_of_ne (Ne.symm h), ih]
      simp [or_and_right, exists_or, h]

theorem groups_sublist : (groups rules k).Sublist (rulesOf rules k) := by
  induction rules using List.reverseRecOn with
  | nil => simp [groups, dslDict]
  | append_singleton rules r ih =>
    rw [groups_concat, rulesOf_concat]
    split
    · refine List.Sublist.append ?_ (List.Sublist.refl _)
      split
      · exact List.nil_sublist _
      · exact ih
    · exact ih

theorem mem_groups (h : r ∈ groups rules k) : r ∈ rules ∧ r.key = k := by
  simpa [rulesOf] using groups_sublist.subset h

theorem kept_iff : NoneLost rules ↔ ∀ k, (rulesOf rules k).length ≤ (groups rules k).length := by
  induction rules using List.reverseRecOn with
  | nil => simp [NoneLost, rulesOf]
  | append_singleton rules r ih =>
    have hlast : NoneLost (rules ++ [r]) ↔
        NoneLost rules ∧ (r.replaces = true → ∀ a ∈ rules, a.key ≠ r.key) := by
      rw [NoneLost, List.pairwise_append]
      simp only [List.pairwise_singleton, true_and, List.mem_singleton, forall_eq]
      exact and_congr_right fun _ => ⟨fun h hr a ha => h a ha hr, fun h a ha hr => h hr a ha⟩
    have hlen : ∀ k, (rulesOf (rules ++ [r]) k).length ≤ (groups (rules ++ [r]) k).length ↔
        (rulesOf rules k).length ≤ (groups rules k).length ∧
          (r.key = k → r.replaces = true → ∀ a ∈ rules, a.key ≠ k) := by
      intro k
      have hnone : (∀ a ∈ rules, a.key ≠ k) ↔ (rulesOf rules k).length = 0 := by simp [rulesOf]
      rw [groups_concat, rulesOf_concat, hnone]
      by_cases hr : r.key = k
      · by_cases hrep : r.replaces = true
        · simp only [hr, hrep, if_true, List.length_append, List.length_nil, forall_const]
          omega
        · simp [hr, hrep]
      · simp [hr]
    rw [hlast, ih, forall_congr' hlen, forall_and, forall_eq']

theorem NoneLost.groups (h : NoneLost rules) (k : Bytes) : groups rules k = rulesOf rules k :=
  groups_sublist.eq_of_length (le_antisymm groups_sublist.length_le (kept_iff.mp h k))

theorem rulesOf_flatten (hnd : order.Nodup) : rulesOf (order.map (Lur.groups rules)).flatten k =
    if k ∈ order then Lur.groups rules k else [] := by
  induction order with
  | nil => rfl
  | cons j order ih =>
    obtain ⟨hj, hnd⟩ := List.nodup_cons.mp hnd
    rw [List.map_cons, List.flatten_cons, rulesOf, List.filter_append, ← rulesOf, ← rulesOf, ih hnd]
    by_cases h : k = j
    · subst h
      have hown : rulesOf (Lur.groups rules k) k = Lur.groups rules k :=
        List.filter_eq_self.mpr fun r hr => decide_eq_true (mem_groups hr).2
      simp [hown, hj]
    · have hother : rulesOf (Lur.groups rules j) k = [] :=
        List.filter_eq_nil_iff.mpr fun r hr => by simpa [(mem_groups hr).2] using Ne.symm h
      simp [hother, h]

/-- The keys of the rules, each once. -/
def KeyOrder (rules : List DslRule) (order : List Bytes) : Prop :=
  order.Nodup ∧ ∀ k, k ∈ order ↔ ∃ r ∈ rules, r.key = k

theorem KeyOrder.reverse (h : KeyOrder rules order) : KeyOrder rules order.reverse :=
  ⟨List.nodup_reverse.mpr h.1, fun k => List.mem_reverse.trans (h.2 k)⟩

theorem keyOrder_dedup (rules : List DslRule) : KeyOrder rules (rules.map DslRule.key).dedup :=
  ⟨List.nodup_dedup _, fun _ => List.mem_dedup.trans List.mem_map⟩

theorem KeyOrder.perm_iff (h : KeyOrder rules order) :
    (order.map (Lur.groups rules)).flatten.Perm rules ↔ NoneLost rules := by
  have hpart : ∀ k, rulesOf (order.map (Lur.groups rules)).flatten k = Lur.groups rules k := by
    intro k
    rw [rulesOf_flatten h.1]
    split
    · rfl
    · rename_i hk
      refine (List.eq_nil_iff_forall_not_mem.mpr fun r hr => hk ?_).symm
      exact (h.2 k).mpr ⟨r, mem_groups hr⟩
  constructor
  · intro hperm
    refine kept_iff.mpr fun k => ?_
    rw [← hpart k]
    exact (hperm.filter _).length_eq.ge
  · intro hkept
    refine List.perm_iff_count.mpr fun r => ?_
    have hcount : ∀ l : List DslRule, l.count r = (rulesOf l r.key).count r := fun l => by
      rw [rulesOf, List.count_filter (by simp)]
    rw [hcount, hpart, hkept.groups, ← hcount]

end Dictionary

/-! ## The functions -/

def isAscii (b : Bytes) : Bool := b.all fun c => c < 128

def isWord (c : UInt8) : Bool :=
  (48 ≤ c && c ≤ 57) || (65 ≤ c && c ≤ 90) || c == 95 || (97 ≤ c && c ≤ 122)

/-- `re.sub(r'\W+', '', str(prefix + entry))`. -/
def funName (pre entry : Bytes) : Bytes := (pre ++ entry).filter isWord

/-- A last segment that is put between quotes: an array has no text. -/
def quotable : Option Seg → Bool
  | some (.field k) => isAscii k
  | _ => false

/-- Whether the rule is written without an exception. Names are `unicode` objects, so that
writing one, or replacing by one in the code, takes it through ASCII. -/
def DslRule.emits (r : DslRule) : Bool :=
  (r.path.dropLast.all fun s => isAscii s.name) &&
    match r.cmd with
    | .ren => quotable r.path.getLast? && quotable r.newPath.getLast?
    | .del => r.path.isEmpty || (quotable r.path.getLast? && isAscii r.code)
    | .upd => r.path.isEmpty || ((r.path.all fun s => isAscii s.name) && isAscii r.code)
    | .init => r.path.isEmpty || (isAscii r.code &&
      (!decide (lit "$out" <:+: r.code) || r.path.all fun s => isAscii s.name))

/-- The entries that begin a function: those that differ from the entry before. -/
def begun : Bytes → List Bytes → List Bytes
  | _, [] => []
  | function, entry :: order =>
    if entry ≠ function then entry :: begun entry order else begun function order

/-- `generate_upd` on a dictionary that is iterated in the order `order`, with the entries of the
functions in the order of `funname_list`. The rules are all written, and the names of the
functions are taken through ASCII. -/
def generateUpd (cmddict : Bytes → List DslRule) (order : List Bytes) : Option (List Bytes) :=
  if (order.all fun k => (cmddict k).all DslRule.emits) && (begun [] order).all isAscii then
    some (begun [] order).reverse
  else none

/-- The entry whose function a name of the tuple stands for: the last one that was defined. -/
def defined (pre : Bytes) (ks : List Bytes) (k : Bytes) : Bytes :=
  (ks.find? fun j => funName pre j = funName pre k).getD k

section Functions

variable {pre : Bytes} {order ks : List Bytes} {k : Bytes}

theorem begun_eq {function : Bytes} (h : (function :: order).Nodup) : begun function order = order := by
  induction order generalizing function with
  | nil => rfl
  | cons entry order ih =>
    have hne : entry ≠ function := fun heq => (List.nodup_cons.mp h).1 (by simp [heq])
    rw [begun, if_pos hne, ih (List.nodup_cons.mp h).2]

theorem defined_spec (hk : k ∈ ks) :
    defined pre ks k ∈ ks ∧ funName pre (defined pre ks k) = funName pre k := by
  unfold defined
  cases hf : ks.find? fun j => funName pre j = funName pre k with
  | none => exact ⟨hk, rfl⟩
  | some j => exact ⟨List.mem_of_find?_eq_some hf, of_decide_eq_true (List.find?_some hf :)⟩

end Functions

/-! ## Effects -/

/-- What there is to know of Python: the strings it reads between quotes, whether it accepts
the statements of a rule, and what a traversal with the statements of some rules in its body
does to key and object. -/
structure Python (S : Type) where
  quoted : Bytes → Option Bytes
  accepts : DslRule → Prop
  run : List DslRule → S → Option S

section Effects

variable {S : Type} (py : Python S) (pre : Bytes) (rules : List DslRule)

def Python.Loads (r : DslRule) : Prop := WellFormed py.quoted 1 (traversal r.path) ∧ py.accepts r

/-- A call of the function with these rules: a traversal that is the one written last is not
written again. -/
def Python.call (s : S) (rs : List DslRule) : Option S :=
  (rs.splitBy fun a b => traversal a.path == traversal b.path).foldlM (fun s block => py.run block s) s

def Python.fileOrder (s : S) : Option S := rules.foldlM (fun s r => py.run [r] s) s

/-- The functions called, in the order of the tuple. -/
def called (ks : List Bytes) : List (List DslRule) := ks.map fun k => groups rules (defined pre ks k)

/-- For a dictionary in this order the functions of `ks` are there and hold each rule once. -/
def Compiles (order ks : List Bytes) : Prop :=
  generateUpd (groups rules) order = some ks ∧ (∀ k ∈ order, ∀ r ∈ groups rules k, py.Loads r) ∧
    (called pre rules ks).flatten.Perm rules

/-- Every rule is compiled once, whatever the order of the dictionary. -/
def AllCompiled : Prop :=
  ∀ order : List Bytes, order.Nodup → (∀ k, k ∈ order ↔ (dslDict rules k).isSome) →
    ∃ ks, Compiles py pre rules order ks

/-- Besides, the functions do what the rules do in the order of the file. -/
def FileOrder : Prop :=
  ∀ order : List Bytes, order.Nodup → (∀ k, k ∈ order ↔ (dslDict rules k).isSome) →
    ∃ ks, Compiles py pre rules order ks ∧
      ∀ s, (called pre rules ks).foldlM py.call s = py.fileOrder rules s

structure Orderly : Prop where
  kept : NoneLost rules
  named : ∀ r ∈ rules, r.key ≠ [] ∧ isAscii r.key = true
  emits : ∀ r ∈ rules, r.emits = true ∧ py.Loads r
  names : ∀ r ∈ rules, ∀ q ∈ rules, r.key.filter isWord = q.key.filter isWord → r.key = q.key

/-- Rules of different keys commute, and rules that share a traversal may be written below one.
Only rules that are compiled together need to be looked at. -/
structure Independent (R : Set DslRule) : Prop where
  commute : ∀ a ∈ R, ∀ b ∈ R, a.key ≠ b.key → Orderly py [a, b] → ∀ s,
    (py.run [a] s).bind (py.run [b]) = (py.run [b] s).bind (py.run [a])
  share : ∀ block, block ≠ [] → (∀ r ∈ block, r ∈ R) → (∀ r ∈ block, ∀ q ∈ block, r.key = q.key) →
    block.IsChain (fun a b => traversal a.path = traversal b.path) → Orderly py block → ∀ s,
    py.run block s = py.fileOrder block s

variable {py pre rules} {order : List Bytes}

theorem AllCompiled.of_order (h : AllCompiled py pre rules) (ho : KeyOrder rules order) :
    ∃ ks, ((order.all fun k => (groups rules k).all DslRule.emits) = true ∧
      (begun [] order).all isAscii = true ∧ ks = (begun [] order).reverse) ∧
      (∀ k ∈ order, ∀ r ∈ groups rules k, py.Loads r) ∧
      (called pre rules ks).flatten.Perm rules := by
  obtain ⟨ks, hgen, hrest⟩ := h order ho.1 fun k => (ho.2 k).trans dslDict_isSome.symm
  unfold generateUpd at hgen
  split at hgen
  · rename_i hall
    cases hgen
    obtain ⟨hw, ha⟩ := (Bool.and_eq_true _ _).mp hall
    exact ⟨_, ⟨hw, ha, rfl⟩, hrest⟩
  · cases hgen

theorem FileOrder.compiled (h : FileOrder py pre rules) : AllCompiled py pre rules := by
  intro order hnd hmem
  obtain ⟨ks, hks, -⟩ := h order hnd hmem
  exact ⟨ks, hks⟩

theorem mem_called {ks : List Bytes} {r : DslRule} (h : r ∈ (called pre rules ks).flatten) :
    ∃ k ∈ ks, defined pre ks k = r.key := by
  obtain ⟨rs, hrs, hr⟩ := List.mem_flatten.mp h
  obtain ⟨k, hk, rfl⟩ := List.mem_map.mp hrs
  exact ⟨k, hk, (mem_groups hr).2.symm⟩

/-- An empty key may come first, and then its rules are in no function. -/
theorem AllCompiled.key_ne_nil (h : AllCompiled py pre rules) {r : DslRule} (hr : r ∈ rules) :
    r.key ≠ [] := by
  intro hnil
  have hmem := ((keyOrder_dedup rules).2 []).mpr ⟨r, hr, hnil⟩
  have hperm := List.perm_cons_erase hmem
  have hfirst : KeyOrder rules ([] :: (rules.map DslRule.key).dedup.erase []) :=
    ⟨hperm.nodup_iff.mp (keyOrder_dedup rules).1, fun k =>
      hperm.mem_iff.symm.trans ((keyOrder_dedup rules).2 k)⟩
  obtain ⟨ks, ⟨-, -, rfl⟩, -, hcalled⟩ := h.of_order hfirst
  obtain ⟨k, hk, hkey⟩ := mem_called (hcalled.mem_iff.mpr hr)
  have hdef : defined pre _ k ∈ _ := (defined_spec hk).1
  rw [hkey, hnil, List.mem_reverse, begun, if_neg (not_not.mpr rfl), begun_eq hfirst.1] at hdef
  exact (List.nodup_cons.mp hfirst.1).1 hdef

theorem AllCompiled.names (h : AllCompiled py pre rules) {r q : DslRule} (hr : r ∈ rules) (hq : q ∈ rules)
    (heq : r.key.filter isWord = q.key.filter isWord) : r.key = q.key := by
  obtain ⟨ks, -, -, hcalled⟩ := h.of_order (keyOrder_dedup rules)
  obtain ⟨k, hk, hkr⟩ := mem_called (hcalled.mem_iff.mpr hr)
  obtain ⟨j, hj, hjq⟩ := mem_called (hcalled.mem_iff.mpr hq)
  have hname : funName pre k = funName pre j := by
    rw [← (defined_spec hk).2, ← (defined_spec hj).2, hkr, hjq]
    simpa [funName] using heq
  have hsome : ∀ i ∈ ks, (ks.find? fun i' => funName pre i' = funName pre i).isSome := fun i hi =>
    List.find?_isSome.mpr ⟨i, hi, by simp⟩
  obtain ⟨i, hi⟩ := Option.isSome_iff_exists.mp (hsome j hj)
  rw [defined, hname, hi] at hkr
  rw [defined, hi] at hjq
  exact hkr.symm.trans hjq

theorem KeyOrder.called_eq (ho : KeyOrder rules order) (hnil : ∀ r ∈ rules, r.key ≠ [])
    (hnames : ∀ r ∈ rules, ∀ q ∈ rules, r.key.filter isWord = q.key.filter isWord →
      r.key = q.key) (pre : Bytes) : begun [] order = order ∧
      called pre rules order.reverse = order.reverse.map (groups rules) := by
  constructor
  · refine begun_eq (List.nodup_cons.mpr ⟨fun hmem => ?_, ho.1⟩)
    obtain ⟨r, hr, hkey⟩ := (ho.2 []).mp hmem
    exact hnil r hr hkey
  · refine List.map_congr_left fun k hk => congrArg (groups rules) ?_
    obtain ⟨hmem, hname⟩ : defined pre _ k ∈ _ ∧ _ := defined_spec hk
    obtain ⟨r, hr, hrk⟩ := (ho.reverse.2 _).mp hmem
    obtain ⟨q, hq, rfl⟩ := (ho.reverse.2 k).mp hk
    rw [← hrk] at hname ⊢
    exact hnames r hr q hq (by simpa [funName] using hname)

theorem AllCompiled.orderly (h : AllCompiled py pre rules) : Orderly py rules := by
  have ho := keyOrder_dedup rules
  obtain ⟨hbegun, hcalled⟩ := ho.called_eq (fun r hr => h.key_ne_nil hr)
    (fun r hr q hq => h.names hr hq) pre
  obtain ⟨ks, ⟨hall, hascii, hks⟩, hloads, hperm⟩ := h.of_order ho
  rw [hbegun] at hascii hks
  rw [hks, hcalled] at hperm
  have hkept := ho.reverse.perm_iff.mp hperm
  have hown : ∀ r ∈ rules, r.key ∈ (rules.map DslRule.key).dedup ∧ r ∈ groups rules r.key := by
    refine fun r hr => ⟨(ho.2 _).mpr ⟨r, hr, rfl⟩, ?_⟩
    rw [hkept.groups]
    simpa [rulesOf] using hr
  refine ⟨hkept, fun r hr => ⟨h.key_ne_nil hr, ?_⟩, fun r hr => ⟨?_, ?_⟩,
    fun r hr q hq => h.names hr hq⟩
  · exact List.all_eq_true.mp hascii _ (hown r hr).1
  · exact List.all_eq_true.mp (List.all_eq_true.mp hall _ (hown r hr).1) r (hown r hr).2
  · exact hloads _ (hown r hr).1 r (hown r hr).2

/-- The functions that are called, for a dictionary in this order. -/
theorem Orderly.compiles (h : Orderly py rules) (ho : KeyOrder rules order) (pre : Bytes) :
    Compiles py pre rules order order.reverse ∧
      called pre rules order.reverse = order.reverse.map (rulesOf rules) := by
  obtain ⟨hbegun, hcalled⟩ := ho.called_eq (fun r hr => (h.named r hr).1) h.names pre
  refine ⟨⟨?_, fun k _ r hr => (h.emits r (mem_groups hr).1).2, ?_⟩, ?_⟩
  · rw [generateUpd, hbegun, if_pos]
    refine (Bool.and_eq_true _ _).mpr ⟨?_, ?_⟩
    · refine List.all_eq_true.mpr fun k _ => List.all_eq_true.mpr fun r hr => ?_
      exact (h.emits r (mem_groups hr).1).1
    · refine List.all_eq_true.mpr fun k hk => ?_
      obtain ⟨r, hr, rfl⟩ := (ho.2 k).mp hk
      exact (h.named r hr).2
  · rw [hcalled]
    exact ho.reverse.perm_iff.mpr h.kept
  · rw [hcalled, funext h.kept.groups]

theorem Orderly.of_subset {rs : List DslRule} (h : Orderly py rules) (hkept : NoneLost rs)
    (hsub : ∀ r ∈ rs, r ∈ rules) : Orderly py rs :=
  ⟨hkept, fun r hr => h.named r (hsub r hr), fun r hr => h.emits r (hsub r hr),
    fun r hr q hq => h.names r (hsub r hr) q (hsub q hq)⟩

/-- What the functions do for a dictionary in this order. -/
theorem FileOrder.effect (h : FileOrder py pre rules) (ho : KeyOrder rules order) (s : S) :
    (order.reverse.map (rulesOf rules)).foldlM py.call s = py.fileOrder rules s := by
  obtain ⟨hcomp, hcalled⟩ := h.compiled.orderly.compiles ho pre
  obtain ⟨ks, hks, heff⟩ := h order ho.1 fun k => (ho.2 k).trans dslDict_isSome.symm
  have hsame : ks = order.reverse := Option.some.inj (hks.1.symm.trans hcomp.1)
  rw [← heff s, hsame, hcalled]

theorem foldlM_fileOrder {f : S → List DslRule → Option S} {ls : List (List DslRule)}
    (h : ∀ b ∈ ls, ∀ s, f s b = py.fileOrder b s) (s : S) :
    ls.foldlM f s = py.fileOrder ls.flatten s := by
  induction ls generalizing s with
  | nil => rfl
  | cons b ls ih =>
    rw [List.forall_mem_cons] at h
    rw [List.foldlM_cons, h.1, List.flatten_cons, Python.fileOrder, Python.fileOrder,
      List.foldlM_append]
    exact congrArg _ (funext fun s => ih h.2 s)

theorem fileOrder_swap (rs : List DslRule) (r : DslRule)
    (h : ∀ a ∈ rs, ∀ s, (py.run [a] s).bind (py.run [r]) = (py.run [r] s).bind (py.run [a]))
    (s : S) :
    (py.fileOrder rs s).bind (py.run [r]) = (py.run [r] s).bind (py.fileOrder rs) := by
  induction rs generalizing s with
  | nil => exact (Option.bind_fun_some _).symm
  | cons a rs ih =>
    rw [List.forall_mem_cons] at h
    calc (py.fileOrder (a :: rs) s).bind (py.run [r])
        = (py.run [a] s).bind fun s => (py.fileOrder rs s).bind (py.run [r]) :=
          Option.bind_assoc ..
      _ = (py.run [a] s).bind fun s => (py.run [r] s).bind (py.fileOrder rs) :=
          congrArg _ (funext (ih h.2))
      _ = ((py.run [a] s).bind (py.run [r])).bind (py.fileOrder rs) := (Option.bind_assoc ..).symm
      _ = ((py.run [r] s).bind (py.run [a])).bind (py.fileOrder rs) := by rw [h.1]
      _ = (py.run [r] s).bind (py.fileOrder (a :: rs)) := Option.bind_assoc ..

/-- The first rule of the file may be brought to the front of the groups. -/
theorem fileOrder_first (r : DslRule) (rest : List DslRule)
    (h : ∀ a ∈ rest, a.key ≠ r.key → ∀ s,
      (py.run [a] s).bind (py.run [r]) = (py.run [r] s).bind (py.run [a]))
    (hnd : order.Nodup) (hr : r.key ∈ order) (s : S) :
    py.fileOrder (order.map (rulesOf (r :: rest))).flatten s =
      (py.run [r] s).bind (py.fileOrder (order.map (rulesOf rest)).flatten) := by
  induction order generalizing s with
  | nil => cases hr
  | cons k order ih =>
    obtain ⟨hk, hnd⟩ := List.nodup_cons.mp hnd
    rw [List.map_cons, List.map_cons, List.flatten_cons, List.flatten_cons]
    by_cases hrk : r.key = k
    · have hown : rulesOf (r :: rest) k = r :: rulesOf rest k := List.filter_cons_of_pos (by simp [hrk])
      have hother : order.map (rulesOf (r :: rest)) = order.map (rulesOf rest) := by
        refine List.map_congr_left fun j hj => List.filter_cons_of_neg ?_
        have hne : r.key ≠ j := fun heq => hk (hrk ▸ heq ▸ hj)
        simpa using hne
      rw [hown, hother]
      rfl
    · have hown : rulesOf (r :: rest) k = rulesOf rest k := List.filter_cons_of_neg (by simpa using hrk)
      have hr : r.key ∈ order := (List.mem_cons.mp hr).resolve_left hrk
      have happ : ∀ (l l' : List DslRule) s,
          py.fileOrder (l ++ l') s = (py.fileOrder l s).bind (py.fileOrder l') :=
        fun _ _ _ => List.foldlM_append
      have hswap := fileOrder_swap (rulesOf rest k) r (fun a ha => by
        obtain ⟨ha, hak⟩ : a ∈ rest ∧ a.key = k := by simpa [rulesOf] using ha
        exact h a ha fun heq => hrk (heq.symm.trans hak)) s
      rw [hown, happ, funext (ih hnd hr), ← Option.bind_assoc, hswap, Option.bind_assoc]
      exact congrArg _ (funext fun s => (happ _ _ s).symm)

/-- Working off the groups of the keys, in any order, is working off the rules. -/
theorem fileOrder_groups (h : ∀ a ∈ rules, ∀ b ∈ rules, a.key ≠ b.key → ∀ s,
      (py.run [a] s).bind (py.run [b]) = (py.run [b] s).bind (py.run [a]))
    (hnd : order.Nodup) (hmem : ∀ r ∈ rules, r.key ∈ order) (s : S) :
    py.fileOrder (order.map (rulesOf rules)).flatten s = py.fileOrder rules s := by
  induction rules generalizing s with
  | nil =>
    rw [List.flatten_eq_nil_iff.mpr]
    intro l hl
    obtain ⟨k, -, rfl⟩ := List.mem_map.mp hl
    rfl
  | cons r rest ih =>
    have hfirst := fileOrder_first r rest (fun a ha hne =>
      h a (by simp [ha]) r (by simp) hne) hnd (hmem r (by simp)) s
    have hrest : ∀ s, py.fileOrder (order.map (rulesOf rest)).flatten s = py.fileOrder rest s :=
      ih (fun a ha b hb => h a (by simp [ha]) b (by simp [hb])) fun q hq => hmem q (by simp [hq])
    rw [hfirst, funext hrest]
    rfl

variable {R : Set DslRule}

/-- A function does what its rules do one after the other. -/
theorem Independent.call (h : Independent py R) (hR : ∀ r ∈ rules, r ∈ R)
    (hkey : ∀ r ∈ rules, ∀ q ∈ rules, r.key = q.key) (ho : Orderly py rules) (s : S) :
    py.call s rules = py.fileOrder rules s := by
  have hflat := List.flatten_splitBy (fun a b => traversal a.path == traversal b.path) rules
  rw [Python.call, foldlM_fileOrder (fun block hblock s => ?_), hflat]
  have hsub := List.sublist_flatten_of_mem hblock
  rw [hflat] at hsub
  refine h.share block (List.ne_nil_of_mem_splitBy hblock) (fun r hr => hR r (hsub.subset hr))
    (fun r hr q hq => hkey r (hsub.subset hr) q (hsub.subset hq)) ?_
    (ho.of_subset (ho.kept.sublist hsub) fun r hr => hsub.subset hr) s
  exact (List.isChain_of_mem_splitBy hblock).imp fun _ _ heq => eq_of_beq heq

theorem Independent.fileOrder (h : Independent py R) (hR : ∀ r ∈ rules, r ∈ R)
    (ho : Orderly py rules) (pre : Bytes) : FileOrder py pre rules := by
  intro order hnd hmem
  have hkeys : KeyOrder rules order := ⟨hnd, fun k => (hmem k).trans dslDict_isSome⟩
  obtain ⟨hcomp, hcalled⟩ := ho.compiles hkeys pre
  refine ⟨order.reverse, hcomp, fun s => ?_⟩
  rw [hcalled, foldlM_fileOrder (fun rs hrs s => ?_), fileOrder_groups ?_ hkeys.reverse.1
    fun r hr => (hkeys.reverse.2 _).mpr ⟨r, hr, rfl⟩]
  · intro a ha b hb hne
    refine h.commute a (hR a ha) b (hR b hb) hne (ho.of_subset ?_ (by simp [ha, hb]))
    exact List.pairwise_pair.mpr fun _ => hne
  · obtain ⟨k, -, rfl⟩ := List.mem_map.mp hrs
    have hof : ∀ r ∈ rulesOf rules k, r ∈ rules ∧ r.key = k := fun r hr => by
      simpa [rulesOf] using hr
    exact h.call (fun r hr => hR r (hof r hr).1)
      (fun r hr q hq => (hof r hr).2.trans (hof q hq).2.symm)
      (ho.of_subset (ho.kept.sublist List.filter_sublist) fun r hr => (hof r hr).1) s

/-- Two rules, or one block, make a stanza that shows what they need. -/
theorem independent_of_fileOrder (h : ∀ rules, (∀ r ∈ rules, r ∈ R) → Orderly py rules →
    FileOrder py pre rules) : Independent py R where
  commute := by
    intro a ha b hb hne ho s
    have horder : KeyOrder [a, b] [a.key, b.key] := ⟨by simpa using hne, fun k => by simp [eq_comm]⟩
    have heff := (h [a, b] (by simp [ha, hb]) ho).effect horder s
    have hgroups : [a.key, b.key].reverse.map (rulesOf [a, b]) = [[b], [a]] := by
      simp [rulesOf, hne, hne.symm]
    rw [hgroups] at heff
    have hcalls : [[b], [a]].foldlM py.call s = (py.run [b] s).bind (py.run [a]) := by
      simp [Python.call, List.splitBy, List.splitBy.loop]
    have hfile : py.fileOrder [a, b] s = (py.run [a] s).bind (py.run [b]) := by
      simp [Python.fileOrder]
    rw [← hfile, ← heff, hcalls]
  share := by
    intro block hne hR hkey hchain ho s
    obtain ⟨r, hr⟩ := List.exists_mem_of_ne_nil block hne
    have horder : KeyOrder block [r.key] := by
      refine ⟨List.nodup_singleton _, fun k => List.mem_singleton.trans ⟨?_, ?_⟩⟩
      · rintro rfl
        exact ⟨r, hr, rfl⟩
      · rintro ⟨q, hq, rfl⟩
        exact hkey q hq r hr
    have heff := (h block hR ho).effect horder s
    have hgroups : [r.key].reverse.map (rulesOf block) = [block] := by
      have hall : rulesOf block r.key = block :=
        List.filter_eq_self.mpr fun q hq => decide_eq_true (hkey q hq r hr)
      simp [hall]
    have hsplit := List.splitBy_of_isChain hne (r := fun a b => traversal a.path == traversal b.path)
      (hchain.imp fun _ _ heq => beq_iff_eq.mpr heq)
    rw [hgroups] at heff
    rw [← heff]
    simp [Python.call, hsplit]

end Effects

end SchemaUpdate.Lur
