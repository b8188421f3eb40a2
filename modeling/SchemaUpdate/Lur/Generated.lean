import SchemaUpdate.Lib.Decimal
import SchemaUpdate.Lur.Rules

/-! # The generated module

`process_dsl` writes a function for every key of a `for` stanza and one for every `add` stanza,
under a name made from the number of the stanza and the word characters of the key or glob. -/

namespace SchemaUpdate.Lur

open SchemaUpdate.Lib

/-! ## Names -/

/-- A stanza of the file: the rules of a `for`, with the order in which the dictionary of their keys
is iterated, or the glob of an `add`. -/
inductive Stanza
  | forKeys (rules : List DslRule) (order : List Bytes) (ho : KeyOrder rules order)
  | add (glob : Bytes)

/-- A function of the module: its name, and the stanza and the key or glob it was made for. -/
structure Func where
  name : Bytes
  stanza : Nat
  entry : Bytes
  deriving DecidableEq

/-- `"group_" + str(idx) + kind`. -/
def groupPre (idx : Nat) (kind : Bytes) : Bytes := lit "group_" ++ (decDigits idx ++ 95 :: kind)

def Stanza.funcs (idx : Nat) : Stanza → Option (List Func)
  | .forKeys rules order _ => (generateUpd (groups rules) order).map fun ks =>
      ks.reverse.map fun k => ⟨funName (groupPre idx (lit "update_")) k, idx, k⟩
  | .add glob => some [⟨funName (groupPre idx (lit "adder_")) glob, idx, glob⟩]

/-- The functions that `process_dsl` writes from stanza number `idx` on, in this order. -/
def processStanzas : Nat → List Stanza → Option (List Func)
  | _, [] => some []
  | idx, st :: rest => do
    let fs ← st.funcs idx
    let more ← processStanzas (idx + 1) rest
    some (fs ++ more)

/-- What a name stands for in the module: the last function defined under it. -/
def denotes (fs : List Func) (name : Bytes) : Option Func := fs.reverse.find? fun f => f.name = name

/-- No definition overrides another, and every name stands for the function it was made for. -/
def OwnNames (fs : List Func) : Prop :=
  (fs.map Func.name).Nodup ∧ ∀ f ∈ fs, denotes fs f.name = some f

/-- The keys of a stanza differ in their word characters; an empty key that comes first has no
function. -/
def Stanza.Clear : Stanza → Prop
  | .forKeys _ order _ => ∀ k ∈ order.dropWhile (· = []), ∀ j ∈ order.dropWhile (· = []),
      k.filter isWord = j.filter isWord → k = j
  | .add _ => True

section Names

variable {idx : Nat} {kind entry : Bytes} {fs : List Func} {st : Stanza} {stanzas : List Stanza}

theorem isWord_of_isDigit {c : UInt8} (h : isDigit c = true) : isWord c = true := by
  unfold isDigit at h
  simp [isWord, h]

theorem funName_groupPre (hkind : kind.all isWord = true) :
    funName (groupPre idx kind) entry = groupPre idx kind ++ entry.filter isWord := by
  rw [funName, List.filter_append, List.filter_eq_self.mpr]
  intro c hc
  simp only [groupPre, List.mem_append, List.mem_cons] at hc
  obtain hc | hc | rfl | hc := hc
  · exact List.all_eq_true.mp (by decide : (lit "group_").all isWord = true) c hc
  · exact isWord_of_isDigit (List.all_eq_true.mp (decDigits_spec idx).all c hc)
  · decide
  · exact List.all_eq_true.mp hkind c hc

/-- The number of the stanza can be read off the name. -/
theorem stanza_of_name {i j : Nat} {a b : Bytes} (h : groupPre i a = groupPre j b) : i = j := by
  have htake : ∀ n (t : Bytes), (decDigits n ++ 95 :: t).takeWhile isDigit = decDigits n := by
    intro n t
    rw [List.takeWhile_append_of_pos (List.all_eq_true.mp (decDigits_spec n).all)]
    exact List.append_nil _
  have heq := congrArg (List.takeWhile isDigit) (List.append_cancel_left h)
  rw [htake, htake] at heq
  rw [← (decDigits_spec i).val, ← (decDigits_spec j).val, heq]

theorem begun_nil {order : List Bytes} (h : order.Nodup) :
    begun [] order = order.dropWhile (· = []) := by
  cases order with
  | nil => rfl
  | cons k order =>
    obtain ⟨hk, hnd⟩ := List.nodup_cons.mp h
    by_cases hnil : k = []
    · subst hnil
      rw [begun, if_neg (not_not.mpr rfl), begun_eq h]
      cases order with
      | nil => rfl
      | cons j order => simp [Ne.symm (List.ne_of_not_mem_cons hk)]
    · rw [begun, if_pos hnil, begun_eq h]
      simp [hnil]

/-- The functions of a stanza have names that begin with its number. -/
theorem Stanza.funcs_stanza (h : st.funcs idx = some fs) :
    ∀ f ∈ fs, f.stanza = idx ∧ ∃ a, f.name = groupPre idx a := by
  have hname : ∀ {kind : Bytes} (entry : Bytes), kind.all isWord = true →
      ∃ a, funName (groupPre idx kind) entry = groupPre idx a :=
    fun {kind} entry hkind => ⟨kind ++ entry.filter isWord, by
      rw [funName_groupPre hkind]
      simp [groupPre]⟩
  cases st with
  | forKeys rules order ho =>
    obtain ⟨ks, -, rfl⟩ := Option.map_eq_some_iff.mp h
    intro f hf
    obtain ⟨k, -, rfl⟩ := List.mem_map.mp hf
    exact ⟨rfl, hname k (by decide)⟩
  | add glob =>
    cases h
    intro f hf
    rw [List.mem_singleton.mp hf]
    exact ⟨rfl, hname glob (by decide)⟩

theorem Stanza.funcs_nodup_iff (h : st.funcs idx = some fs) :
    (fs.map Func.name).Nodup ↔ st.Clear := by
  cases st with
  | add glob =>
    cases h
    simp [Stanza.Clear]
  | forKeys rules order ho =>
    obtain ⟨ks, hks, rfl⟩ := Option.map_eq_some_iff.mp h
    obtain rfl : ks = (begun [] order).reverse := by
      unfold generateUpd at hks
      split at hks
      · exact (Option.some.inj hks).symm
      · cases hks
    rw [List.reverse_reverse, begun_nil ho.1, List.map_map, Stanza.Clear,
      List.nodup_map_iff_inj_on (ho.1.sublist (List.dropWhile_sublist _))]
    refine forall₄_congr fun k _ j _ => ?_
    simp only [Function.comp_apply, funName_groupPre (by decide : (lit "update_").all isWord = true),
      List.append_cancel_left_eq]

theorem processStanzas_stanza (h : processStanzas idx stanzas = some fs) :
    ∀ f ∈ fs, idx ≤ f.stanza ∧ ∃ a, f.name = groupPre f.stanza a := by
  induction stanzas generalizing idx fs with
  | nil =>
    cases h
    simp
  | cons st rest ih =>
    obtain ⟨own, hown, h⟩ := Option.bind_eq_some_iff.mp h
    obtain ⟨more, hmore, h⟩ := Option.bind_eq_some_iff.mp h
    cases h
    intro f hf
    obtain hf | hf := List.mem_append.mp hf
    · obtain ⟨rfl, hname⟩ := Stanza.funcs_stanza hown f hf
      exact ⟨le_refl _, hname⟩
    · obtain ⟨hle, hname⟩ := ih hmore f hf
      exact ⟨by omega, hname⟩

theorem processStanzas_nodup_iff (h : processStanzas idx stanzas = some fs) :
    (fs.map Func.name).Nodup ↔ ∀ st ∈ stanzas, st.Clear := by
  induction stanzas generalizing idx fs with
  | nil =>
    cases h
    simp
  | cons st rest ih =>
    obtain ⟨own, hown, h⟩ := Option.bind_eq_some_iff.mp h
    obtain ⟨more, hmore, h⟩ := Option.bind_eq_some_iff.mp h
    cases h
    have hapart : List.Disjoint (own.map Func.name) (more.map Func.name) := by
      intro n hn hn'
      obtain ⟨f, hf, rfl⟩ := List.mem_map.mp hn
      obtain ⟨g, hg, hname⟩ := List.mem_map.mp hn'
      obtain ⟨-, a, ha⟩ := Stanza.funcs_stanza hown f hf
      obtain ⟨hle, b, hb⟩ := processStanzas_stanza hmore g hg
      have hsame := stanza_of_name ((hb.symm.trans hname).trans ha)
      omega
    rw [List.map_append, List.nodup_append', Stanza.funcs_nodup_iff hown, ih hmore,
      List.forall_mem_cons]
    exact ⟨fun h => ⟨h.1, h.2.1⟩, fun h => ⟨h.1, h.2, hapart⟩⟩

theorem denotes_own (h : (fs.map Func.name).Nodup) : ∀ f ∈ fs, denotes fs f.name = some f := by
  intro f hf
  unfold denotes
  cases hfind : fs.reverse.find? fun g => g.name = f.name with
  | none => exact absurd (List.find?_eq_none.mp hfind f (by simpa using hf)) (by simp)
  | some g =>
    have hg : g ∈ fs := by simpa using List.mem_of_find?_eq_some hfind
    have hname : g.name = f.name := of_decide_eq_true (List.find?_some hfind :)
    rw [List.inj_on_of_nodup_map h hg hf hname]

/-- **The functions of a module have names of their own exactly when no two keys of one stanza are
spelled with the same word characters.** Functions of different stanzas never share a name. -/
theorem names_distinct_iff (stanzas : List Stanza) (fs : List Func)
    (h : processStanzas 0 stanzas = some fs) : OwnNames fs ↔ ∀ st ∈ stanzas, st.Clear := by
  rw [← processStanzas_nodup_iff h]
  exact ⟨fun hown => hown.1, fun hnd => ⟨hnd, denotes_own hnd⟩⟩

end Names

def twoFields (k j : String) (h : lit k ≠ lit j) : Stanza :=
  .forKeys [⟨.upd, [.field (lit k)], lit "$out = 1", []⟩,
    ⟨.upd, [.field (lit j)], lit "$out = 2", []⟩]
    [lit k, lit j] ⟨by simpa using h, fun i => by simp [DslRule.key, Seg.name, eq_comm]⟩

/-- The keys `a` and `b`. -/
theorem names_distinct_fields :
    ∃ fs, processStanzas 0 [twoFields "a" "b" (by decide)] = some fs ∧ OwnNames fs :=
  ⟨_, rfl, (names_distinct_iff [twoFields "a" "b" (by decide)] _ rfl).mpr (by
    intro st hst
    rw [List.mem_singleton.mp hst]
    unfold twoFields Stanza.Clear
    decide)⟩

/-- The keys `a.b` and `ab`: one function is overridden. -/
theorem names_clash :
    ∃ fs, processStanzas 0 [twoFields "a.b" "ab" (by decide)] = some fs ∧ ¬ OwnNames fs := by
  refine ⟨_, rfl, fun h => absurd h.1 ?_⟩
  decide

end SchemaUpdate.Lur
