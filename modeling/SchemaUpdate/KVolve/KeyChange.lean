import SchemaUpdate.KVolve.Keys
import SchemaUpdate.KVolve.Tags

/-! # Keys that an update function renames

An update function may ask for another key. `kvolve_namespace_update` is then called
with the new key, and takes the name to move from what the new key would be called in
the predecessor namespace: the object is moved only when it happens to be stored there. -/

namespace SchemaUpdate.KVolve

open SchemaUpdate.Lib SchemaUpdate.Redis

/-! ## What functions make of a string -/

def strArg : Str → UpdArg
  | .raw b => .str b
  | .int _ _ => .wild

def newStr (o : Str) : Option Bytes → Str
  | none => o
  | some b => .raw b

/-- The functions, called with the key, ask for no other key and issue no commands; they turn the
string into another. -/
inductive Passes (key : Bytes) : List UpdFun → Str → Str → Prop
  | nil (o : Str) : Passes key [] o o
  | cons {f : UpdFun} {fs : List UpdFun} {o o' : Str} : (f (cstr key) (strArg o)).key = none →
      (f (cstr key) (strArg o)).calls = [] →
      Passes key fs (newStr o (f (cstr key) (strArg o)).val) o' → Passes key (f :: fs) o o'

/-- What a string can become: it stays, or its bytes are new. -/
def Becomes (o o' : Str) : Prop := o' = o ∨ ∃ b, o' = .raw b

def Replaceable (o o' : Str) : Prop := (∃ b, o = .raw b) ∨ o' = o

theorem becomes_newStr (o : Str) (x : Option Bytes) : Becomes o (newStr o x) := by
  cases x with
  | none => exact .inl rfl
  | some b => exact .inr ⟨b, rfl⟩

variable {o o' : Str}

theorem Becomes.trans {o₁ : Str} (h : Becomes o o₁) (h' : Becomes o₁ o') : Becomes o o' := by
  obtain rfl | h' := h'
  · exact h
  · exact .inr h'

theorem Passes.becomes {key : Bytes} {fs : List UpdFun} (h : Passes key fs o o') :
    Becomes o o' := by
  induction h with
  | nil o => exact .inl rfl
  | cons _ _ _ ih => exact (becomes_newStr _ _).trans ih

theorem replaceable_newStr {x : Option Bytes} :
    Replaceable o (newStr o x) ↔ (∃ b, o = .raw b) ∨ x = none := by
  cases x with
  | none => exact iff_of_true (.inr rfl) (.inr rfl)
  | some b =>
    constructor
    · rintro (h | h)
      · exact .inl h
      · exact .inl ⟨b, h.symm⟩
    · rintro (h | h)
      · exact .inl h
      · cases h

theorem replaceable_trans {o₁ : Str} (h : Becomes o o₁) (h' : Becomes o₁ o') :
    Replaceable o o' ↔ Replaceable o o₁ ∧ Replaceable o₁ o' := by
  constructor
  · rintro (⟨b, rfl⟩ | rfl)
    · refine ⟨.inl ⟨b, rfl⟩, .inl ?_⟩
      obtain rfl | h := h
      · exact ⟨b, rfl⟩
      · exact h
    · obtain rfl | hraw := h
      · exact ⟨.inr rfl, .inr rfl⟩
      · refine ⟨?_, .inl hraw⟩
        obtain rfl | hraw' := h'
        · exact .inr rfl
        · exact .inl hraw'
  · rintro ⟨hraw | rfl, h₂⟩
    · exact .inl hraw
    · exact h₂

/-! ## The turns of the update loop -/

abbrev Turn := UpdFun ⊕ Int

variable (pend : List (Int × Option UpdInfo))

def turns : List Turn :=
  pend.flatMap fun p => (infoFuns p.2).map .inl ++ [.inr p.1]

def turnStep (nested : Nested) (env : Env) (v : VersionHash) (st : MSt) : Turn → Res MSt
  | .inl f => applyFun nested env v true .string st f
  | .inr t => bump env t st

theorem foldlM_updateTo (nested : Nested) (env : Env) (v : VersionHash)
    (pend : List (Int × Option UpdInfo)) (st : MSt) :
    pend.foldlM (updateTo nested env v true .string) st =
      (turns pend).foldlM (turnStep nested env v) st := by
  induction pend generalizing st with
  | nil => rfl
  | cons p pend ih =>
    have hp : updateTo nested env v true .string st p =
        ((infoFuns p.2).map Sum.inl ++ [Sum.inr p.1]).foldlM (turnStep nested env v) st := by
      rw [updateTo, List.foldlM_append, List.foldlM_map]
      refine bind_congr fun st' => ?_
      rw [List.foldlM_cons]
      exact (bind_pure _).symm
    rw [List.foldlM_cons, turns, List.flatMap_cons, List.foldlM_append, hp]
    exact bind_congr fun st' => ih st'

theorem turns_funs : (turns pend).filterMap Sum.getLeft? = pend.flatMap fun p => infoFuns p.2 := by
  rw [turns, List.filterMap_flatMap]
  congr 1
  funext p
  rw [List.filterMap_append, List.filterMap_map]
  simp [Function.comp_def]

theorem turns_last {pend : List (Int × Option UpdInfo)} {p : Int × Option UpdInfo}
    (h : pend.getLast? = some p) : (turns pend).getLast? = some (.inr p.1) := by
  obtain ⟨init, rfl⟩ := List.getLast?_eq_some_iff.mp h
  simp [turns]

/-! ## Turns that keep the key -/

section Hold

variable {env : Env} {x : Option Int} {key loc : Bytes} {o : Str} {s : Store} {st : MSt}

/-- The update loop works for the key `k` on the string `o` at `l`, and has changed that slot of
`s` only. -/
structure Holding (env : Env) (x : Option Int) (k l : Bytes) (o : Str) (s : Store)
    (st : MSt) : Prop where
  key : st.key = k
  loc : st.loc = l
  subj : st.subj = .stored
  held : ∃ e, st.s.get env.d l = some e ∧ e.obj.val = .str o ∧ e.expire = x
  within : Within (SlotOf env l) s st.s

theorem vers_setVers {d : Nat} {k : Bytes} {t : Int} {e : Entry}
    (h : (s.setVers d k t).get d k = some e) : (s.setVers d k t).vers e.obj = t := by
  unfold Store.setVers at h ⊢
  cases hs : s.get d k with
  | none =>
    simp only [hs] at h
    cases h
  | some e₀ =>
    simp only [hs] at h ⊢
    split
    · rename_i n hn
      simp only [hn] at h
      obtain rfl : e₀ = e := Option.some.inj (hs.symm.trans h)
      simp [Store.vers, hn]
    · rename_i hne
      split at h
      · rename_i n hn
        exact absurd hn (hne n)
      · rw [Store.get_put_self] at h
        cases h
        unfold Store.vers
        split
        · rename_i n hn
          exact absurd hn (hne n)
        · rfl

theorem bump_vers {t : Int} {st' : MSt} (h : KVolve.bump env t st = .ok st')
    (hsubj : st'.subj = .stored) {e : Entry} (he : st'.s.get env.d st'.loc = some e) :
    st'.s.vers e.obj = t := by
  unfold KVolve.bump at h
  split at h
  · obtain ⟨e₀, -, h⟩ := bind_eq_ok.mp h
    cases h
    exact vers_setVers he
  · cases h
    cases hsubj

variable (h : Holding env x key loc o s st)

include h

theorem Holding.bump (t : Int) :
    ∃ st', bump env t st = .ok st' ∧ Holding env x key loc o s st' := by
  obtain ⟨hkey, hloc, hsubj, ⟨e, he, hval, hx⟩, hw⟩ := h
  refine ⟨{ st with s := st.s.setVers env.d loc t }, ?_, hkey, hloc, hsubj, ?_, hw.trans ?_⟩
  · simp only [KVolve.bump, hsubj, hloc, deref, he, ok_bind]
  · rw [Store.get_setVers, if_pos ⟨rfl, rfl⟩, he]
    exact ⟨retag t e, rfl, (retag_val t e).trans hval, (retag_expire t e).trans hx⟩
  · refine ⟨Store.setVers_reg .., fun d j hj => ?_⟩
    rw [Store.get_setVers, if_neg hj]

theorem Holding.changeStored (r : UpdRes) :
    ((∃ st', changeStored env .string r st = .ok st') ↔ Replaceable o (newStr o r.val)) ∧
      ∀ st', changeStored env .string r st = .ok st' →
        Holding env x key loc (newStr o r.val) s st' := by
  obtain ⟨hkey, hloc, hsubj, ⟨e, he, hval, hx⟩, hw⟩ := h
  rw [replaceable_newStr]
  unfold KVolve.changeStored
  cases hr : r.val with
  | none =>
    refine ⟨iff_of_true ⟨st, rfl⟩ (.inr rfl), fun st' h => ?_⟩
    cases h
    exact ⟨hkey, hloc, hsubj, ⟨e, he, hval, hx⟩, hw⟩
  | some b =>
    simp only [hloc, deref, he, ok_bind, hval]
    cases o with
    | int n sh =>
      refine ⟨iff_of_false (by simp) (by simp), fun st' h => ?_⟩
      cases h
    | raw b₀ =>
      refine ⟨iff_of_true ⟨_, rfl⟩ (.inl ⟨b₀, rfl⟩), fun st' h => ?_⟩
      cases h
      exact ⟨hkey, rfl, hsubj, ⟨_, Store.get_put_self .., rfl, hx⟩, hw.trans (.put _ ⟨rfl, rfl⟩ _)⟩

theorem Holding.applyFun (nested : Nested) (v : VersionHash)
    {f : UpdFun} (hcalls : (f (cstr key) (strArg o)).calls = []) :
    applyFun nested env v true .string st f =
      changeKey env v true (f (cstr key) (strArg o)).key st >>= fun st' => match st'.subj with
        | .stored => KVolve.changeStored env .string (f (cstr key) (strArg o)) st'
        | .elem e => changeElem env .string (f (cstr key) (strArg o)) e st' := by
  obtain ⟨hkey, hloc, hsubj, ⟨e, he, hval, -⟩, -⟩ := h
  have harg : argOf env .string st = .ok (strArg o) := by
    cases o <;> simp only [argOf, hsubj, hloc, deref, he, ok_bind, hval, strArg]
  obtain ⟨stkey, stloc, stsubj, sts⟩ := st
  cases hkey
  unfold KVolve.applyFun
  rw [harg, ok_bind]
  simp only [hcalls]
  exact ok_bind _ _

omit h

theorem Holding.pass (nested : Nested) (v : VersionHash) {ts : List Turn} {o' : Str}
    (hp : Passes key (ts.filterMap Sum.getLeft?) o o') (h : Holding env x key loc o s st) :
    ((∃ st', ts.foldlM (turnStep nested env v) st = .ok st') ↔ Replaceable o o') ∧
      ∀ st', ts.foldlM (turnStep nested env v) st = .ok st' → Holding env x key loc o' s st' := by
  induction ts generalizing o st with
  | nil =>
    cases hp
    refine ⟨iff_of_true ⟨st, rfl⟩ (.inr rfl), fun st' hst => ?_⟩
    cases hst
    exact h
  | cons t ts ih =>
    rw [List.foldlM_cons]
    cases t with
    | inr t =>
      obtain ⟨st₁, hst₁, h₁⟩ := h.bump t
      rw [show turnStep nested env v st (.inr t) = .ok st₁ from hst₁, ok_bind]
      exact ih hp h₁
    | inl f =>
      cases hp with
      | cons hkey hcalls hp =>
        have hstep : turnStep nested env v st (.inl f) =
            KVolve.changeStored env .string (f (cstr key) (strArg o)) st := by
          rw [turnStep, h.applyFun nested v hcalls, hkey]
          simp only [changeKey, ok_bind, h.subj]
        obtain ⟨hiff, hhold⟩ := h.changeStored (f (cstr key) (strArg o))
        rw [hstep, replaceable_trans (becomes_newStr o _) hp.becomes, ← hiff]
        exact bind_ok_spec fun st₁ hst₁ => ih hp (hhold st₁ hst₁)

end Hold

/-! ## The turn that changes the key -/

section Change

variable {env : Env} {v : VersionHash} {k k' loc : Bytes} {o : Str} {e : Entry} {s : Store}
  {st : MSt}

theorem Holding.changeKey_moves (h : Holding env e.expire k loc o s st)
    (ha : e.alive env.now = true) (hd : env.d = 0) {p : Bytes} (hprev : v.prevNs = some p)
    (hname : constructPrevName k' p = some loc) (hnul : NulFree k')
    (habs : st.s.get env.d k' = none) :
    ∃ st', changeKey env v true (some k') st = .ok st' ∧
      st'.s = st.s.rename env.now loc k' ∧ Holding env e.expire k' k' o st'.s st' := by
  obtain ⟨hkey, hloc, hsubj, ⟨e', he', hval, hx⟩, hw⟩ := h
  have hne : loc ≠ k' := by
    rintro rfl
    rw [he'] at habs
    cases habs
  have hget := Store.get_rename_moved hne (hd ▸ he') ((Entry.alive_congr hx.symm _).trans ha)
  have hgone : (st.s.rename env.now loc k').has env.d loc = false := by
    rw [Store.has, hget, if_pos ⟨hd, rfl⟩]
    rfl
  have hup : namespaceUpdate env v k' st.s = .ok (st.s.rename env.now loc k') := by
    rw [namespaceUpdate, if_neg (by simp [Store.has, habs]), hprev, Option.bind_some, hname]
  refine ⟨⟨k', k', .stored, st.s.rename env.now loc k'⟩, ?_, rfl, rfl, rfl, rfl, ⟨e', ?_, hval, hx⟩,
    .refl _⟩
  · simp only [changeKey, cstr_eq_self hnul, hup, ok_bind, track, hloc, hgone, hsubj]
    rfl
  · rw [hget, if_neg (fun h => hne h.2.symm), if_pos ⟨hd, rfl⟩]

variable {x : Option Int}

theorem Holding.changeKey_stays (h : Holding env x k loc o s st) (hnul : NulFree k')
    (habs : st.s.get env.d k' = none)
    (hno : ∀ p, v.prevNs = some p → constructPrevName k' p = some loc → env.d ≠ 0) {st' : MSt}
    (hst' : changeKey env v true (some k') st = .ok st') :
    Holding env x k' loc o st'.s st' := by
  obtain ⟨hkey, hloc, hsubj, ⟨e, he, hval, hx⟩, hw⟩ := h
  simp only [changeKey, cstr_eq_self hnul] at hst'
  obtain ⟨s₁, hs₁, hst'⟩ := bind_eq_ok.mp hst'
  rw [namespaceUpdate, if_neg (by simp [Store.has, habs])] at hs₁
  cases hold : v.prevNs.bind (constructPrevName k') with
  | none =>
    rw [hold] at hs₁
    cases hs₁
  | some old =>
    rw [hold] at hs₁
    cases hs₁
    obtain ⟨p, hp, hname⟩ := Option.bind_eq_some_iff.mp hold
    have hstill : (st.s.rename env.now old k').get env.d loc = some e := by
      rw [Store.get_rename_other, he]
      rintro ⟨hd, rfl | rfl⟩
      · exact hno p hp hname hd
      · rw [he] at habs
        cases habs
    cases hst'
    refine ⟨rfl, ?_, hsubj, ⟨e, hstill, hval, hx⟩, .refl _⟩
    simp only [track, hloc, Store.has, hstill, Option.isSome_some, if_true]

theorem moveFirst_holding {t : Int} (hren : renames v (v.pending t) = true)
    (he : s.get env.d loc = some e) (ho : e.obj.val = .str o) (ha : e.alive env.now = true)
    (habs : loc ≠ k → s.get env.d k = none) {st : MSt}
    (hst : moveFirst env v true t ⟨k, loc, .stored, s⟩ = .ok st) :
    ∃ l, Holding env e.expire k l o st.s st ∧
      (l = k ∨ l = loc ∧ ∀ p, v.prevNs = some p → constructPrevName k p = some loc → env.d ≠ 0) ∧
      ∀ j, j ≠ k → s.get env.d j = none → st.s.get env.d j = none := by
  simp only [moveFirst, hren, and_self, if_true] at hst
  obtain ⟨s₁, hs₁, hst⟩ := bind_eq_ok.mp hst
  cases hst
  by_cases hloc : loc = k
  · have hhas : s.has env.d k = true := by rw [Store.has, ← hloc, he]; rfl
    rw [namespaceUpdate, if_pos hhas] at hs₁
    cases hs₁
    refine ⟨k, ⟨rfl, ?_, rfl, ⟨e, hloc ▸ he, ho, rfl⟩, .refl _⟩, .inl rfl, fun _ _ h => h⟩
    simp only [track, hloc, ite_self]
  · have hnone := habs hloc
    rw [namespaceUpdate, if_neg (by simp [Store.has, hnone])] at hs₁
    cases hold : v.prevNs.bind (constructPrevName k) with
    | none =>
      rw [hold] at hs₁
      cases hs₁
    | some old =>
      rw [hold] at hs₁
      cases hs₁
      obtain ⟨p, hp, hname⟩ := Option.bind_eq_some_iff.mp hold
      have hframe : ∀ j, j ≠ k → s.get env.d j = none →
          (s.rename env.now old k).get env.d j = none := fun j hj h => Store.get_rename_none hj h
      by_cases hmoves : env.d = 0 ∧ old = loc
      · obtain ⟨hd, rfl⟩ := hmoves
        have hget := Store.get_rename_moved hloc (hd ▸ he) ha
        refine ⟨k, ⟨rfl, ?_, rfl, ⟨e, ?_, ho, rfl⟩, .refl _⟩, .inl rfl, hframe⟩
        · simp only [track, Store.has, hget, hd, and_self, if_true, Option.isSome_none,
            Bool.false_eq_true, if_false]
        · rw [hget, if_neg (fun h => hloc h.2.symm), if_pos ⟨hd, rfl⟩]
      · have hstill : (s.rename env.now old k).get env.d loc = some e := by
          rw [Store.get_rename_other, he]
          rintro ⟨hd, rfl | rfl⟩
          · exact hmoves ⟨hd, rfl⟩
          · exact hloc rfl
        refine ⟨loc, ⟨rfl, ?_, rfl, ⟨e, hstill, ho, rfl⟩, .refl _⟩, .inr ⟨rfl, ?_⟩, hframe⟩
        · simp only [track, Store.has, hstill, Option.isSome_some, if_true]
        · intro q hq hqname hd
          cases hp.symm.trans hq
          exact hmoves ⟨hd, Option.some.inj (hname.symm.trans hqname)⟩

/-! ## All turns -/

theorem turnStep_change (nested : Nested) {f : UpdFun} (h : Holding env x k loc o s st)
    (hkey : (f (cstr k) (strArg o)).key = some k') (hcalls : (f (cstr k) (strArg o)).calls = []) :
    turnStep nested env v st (.inl f) =
      changeKey env v true (some k') st >>= fun st' => match st'.subj with
        | .stored => changeStored env .string (f (cstr k) (strArg o)) st'
        | .elem e => changeElem env .string (f (cstr k) (strArg o)) e st' := by
  rw [turnStep, h.applyFun nested v hcalls, hkey]

variable (nested : Nested) {f : UpdFun} {before behind : List Turn} {o₁ o' : Str}
  (hpre : Passes k (before.filterMap Sum.getLeft?) o o₁)
  (hkey : (f (cstr k) (strArg o₁)).key = some k') (hcalls : (f (cstr k) (strArg o₁)).calls = [])
  (hpost : Passes k' (behind.filterMap Sum.getLeft?)
    (newStr o₁ (f (cstr k) (strArg o₁)).val) o')
  (hnul : NulFree k')

include hpre hkey hcalls hpost hnul

/-- Where the mover finds the object, the turns go through when the string can be replaced, and
leave it under the new key. -/
theorem Holding.run_moves (h : Holding env e.expire k loc o s st) (ha : e.alive env.now = true)
    (hd : env.d = 0) {p : Bytes} (hprev : v.prevNs = some p)
    (hname : constructPrevName k' p = some loc) (habs : s.get env.d k' = none) (hne : k' ≠ loc) :
    ((∃ st', (before ++ .inl f :: behind).foldlM (turnStep nested env v) st = .ok st') ↔
      Replaceable o o') ∧
    ∀ st', (before ++ .inl f :: behind).foldlM (turnStep nested env v) st = .ok st' →
      Holding env e.expire k' k' o' st'.s st' ∧ st'.s.get env.d loc = none ∧
        ∀ j, j ≠ loc → j ≠ k' → st'.s.get env.d j = s.get env.d j := by
  obtain ⟨hbefore, hhold⟩ := h.pass nested v hpre
  rw [replaceable_trans hpre.becomes ((becomes_newStr o₁ _).trans hpost.becomes),
    replaceable_trans (becomes_newStr o₁ _) hpost.becomes, ← hbefore, List.foldlM_append]
  -- what the rest of the turns does to a state that the first ones lead to
  have hrest : ∀ st₁, Holding env e.expire k loc o₁ s st₁ →
      ((∃ st', (.inl f :: behind).foldlM (turnStep nested env v) st₁ = .ok st') ↔
        Replaceable o₁ (newStr o₁ (f (cstr k) (strArg o₁)).val) ∧
          Replaceable (newStr o₁ (f (cstr k) (strArg o₁)).val) o') ∧
      ∀ st', (.inl f :: behind).foldlM (turnStep nested env v) st₁ = .ok st' →
        Holding env e.expire k' k' o' st'.s st' ∧ st'.s.get env.d loc = none ∧
          ∀ j, j ≠ loc → j ≠ k' → st'.s.get env.d j = s.get env.d j := by
    intro st₁ h₁
    have habs₁ : st₁.s.get env.d k' = none := by
      rw [h₁.within.get _ _ (fun hslot => hne hslot.2), habs]
    obtain ⟨e₁, he₁, -, hx₁⟩ := h₁.held
    obtain ⟨st₂, hst₂, hs₂, h₂⟩ := h₁.changeKey_moves ha hd hprev hname hnul habs₁
    have hget := Store.get_rename_moved (Ne.symm hne) (hd ▸ he₁) ((Entry.alive_congr hx₁.symm _).trans ha)
    rw [List.foldlM_cons, turnStep_change nested h₁ hkey hcalls, hst₂, ok_bind, h₂.subj]
    obtain ⟨hchange, hhold₃⟩ := h₂.changeStored (f (cstr k) (strArg o₁))
    simp only [← hchange]
    refine bind_ok_spec fun st₃ hst₃ => ?_
    obtain ⟨hpass, hheld⟩ := (hhold₃ st₃ hst₃).pass nested v hpost
    refine ⟨hpass, fun st' hst' => ?_⟩
    have h' := hheld st' hst'
    have hframe : ∀ j, j ≠ k' → st'.s.get env.d j = (st₁.s.rename env.now loc k').get env.d j :=
      fun j hj => by rw [h'.within.get _ _ (fun hslot => hj hslot.2), hs₂]
    refine ⟨⟨h'.key, h'.loc, h'.subj, h'.held, .refl _⟩, ?_, fun j hj hj' => ?_⟩
    · rw [hframe loc (Ne.symm hne), hget, if_pos ⟨hd, rfl⟩]
    · rw [hframe j hj', hget, if_neg (fun h => hj h.2), if_neg (fun h => hj' h.2),
        h₁.within.get _ _ (fun hslot => hj hslot.2)]
  exact bind_ok_spec fun st₁ hst₁ => hrest st₁ (hhold st₁ hst₁)

/-- A string that cannot be moved stays where it is, whatever functions come after. -/
theorem Holding.run_stays (h : Holding env x k loc o s st) (habs : s.get env.d k' = none)
    (hne : k' ≠ loc) (hno : ∀ p, v.prevNs = some p → constructPrevName k' p = some loc → env.d ≠ 0)
    {st' : MSt} (hst' : (before ++ .inl f :: behind).foldlM (turnStep nested env v) st = .ok st') :
    st'.s.get env.d loc ≠ none := by
  rw [List.foldlM_append] at hst'
  obtain ⟨st₁, hst₁, hst'⟩ := bind_eq_ok.mp hst'
  have h₁ := (h.pass nested v hpre).2 st₁ hst₁
  rw [List.foldlM_cons, turnStep_change nested h₁ hkey hcalls] at hst'
  obtain ⟨st₃, hst₃, hst'⟩ := bind_eq_ok.mp hst'
  obtain ⟨st₂, hst₂, hst₃⟩ := bind_eq_ok.mp hst₃
  have habs₁ : st₁.s.get env.d k' = none := by
    rw [h₁.within.get _ _ (fun hslot => hne hslot.2), habs]
  have h₂ := h₁.changeKey_stays hnul habs₁ hno hst₂
  simp only [h₂.subj] at hst₃
  have h₃ := (h₂.changeStored _).2 st₃ hst₃
  obtain ⟨e', he', -⟩ := ((h₃.pass nested v hpost).2 st' hst').held
  rw [he']
  exact Option.some_ne_none e'

end Change

/-! ## A GET whose key is changed -/

/-- The names of a key: itself, and what it is called in the namespaces before, those that the
walk goes through and those that the links lead to. -/
def NameOf (reg : Reg) (v : VersionHash) (k j : Bytes) : Prop :=
  AliasOf reg v k j ∨
    ∃ m, Relation.TransGen (PrevLink reg) m v.ns ∧ constructPrevName k m = some j

/-- What a GET of `a` should come to when the pending functions rename the key to `k'` and make
`o'` of its string: the string is stored under the new key and under no other name of the old
one, and the command is answered from there. -/
structure GetFollows (env : Env) (v : VersionHash) (a : Arg) (k' : Bytes) (x : Option Int)
    (o' : Str) (s s' : Store) : Prop where
  stored : ∃ e', s'.get env.d k' = some e' ∧ e'.obj.val = .str o' ∧ e'.expire = x ∧
    s'.vers e'.obj = v.cur
  gone : ∀ j, NameOf s.reg v a.ptr j → j = k' ∨ s'.get env.d j = none
  answered : (s'.call env (getCommand { a with ptr := k' })).1 = [.bulk o'.bytes]

/-- The functions pending for the key: those before the one that renames it, that one, and those
behind it. -/
structure RenamesKey (funs : List UpdFun) (k k' : Bytes) (o o' : Str) : Prop where
  split : ∃ pre f post o₁, funs = pre ++ f :: post ∧ Passes k pre o o₁ ∧
    (f (cstr k) (strArg o₁)).key = some k' ∧ (f (cstr k) (strArg o₁)).calls = [] ∧
    Passes k' post (newStr o₁ (f (cstr k) (strArg o₁)).val) o'
  nulFree : NulFree k'
  new : k' ≠ k

/-- The object is moved: it stands, in database 0 and before any change of namespace is made up
for, under the name that the new key would have had in the namespace before, and no other name of
the old key is in use; a string that is stored as an integer is large, and stays as it is. -/
structure MoverFinds (env : Env) (v : VersionHash) (k k' loc : Bytes) (t : Int) (o o' : Str)
    (s : Store) : Prop where
  db : env.d = 0
  found : ∃ p, v.prevNs = some p ∧ constructPrevName k' p = some loc
  still : renames v (v.pending t) = false
  alone : ∀ j, NameOf s.reg v k j → j ≠ loc → s.get env.d j = none
  large : Str.isSmall o = false
  replaceable : Replaceable o o'

theorem prevName_ne_key {reg : Reg} (hc : Chained reg) {v : VersionHash} {k k' p : Bytes}
    (hv : versionHashLookup reg k = some v) (hp : v.prevNs = some p) :
    constructPrevName k' p ≠ some k := by
  intro hname
  obtain ⟨⟨a, q⟩, hsplit, rfl⟩ := Option.map_eq_some_iff.mp hname
  have hq := (rsplit_sound hsplit).2
  obtain ⟨rank, bound, hr⟩ := hc.ranked
  have hlink : PrevLink reg p v.ns := by
    rw [PrevLink, versionHashLookup_find hv]
    exact hp
  obtain ⟨w, hw⟩ := Option.isSome_iff_exists.mp ((Reg.core_isSome reg p).symm.trans (hr.closed hlink))
  cases (versionHashLookup_keyName hw (colon_not_mem_cstr hq)).symm.trans hv
  rw [Reg.find_ns hw] at hlink
  exact absurd (hr.grows hlink) (lt_irrefl _)

theorem constructPrevName_eq {key p loc : Bytes} (h : constructPrevName key p = some loc)
    {key' q : Bytes} (h' : constructPrevName key' q = some loc) :
    p = q ∧ constructPrevName key' p = some loc := by
  obtain ⟨⟨a, x⟩, hsplit, rfl⟩ := Option.map_eq_some_iff.mp h
  obtain ⟨⟨b, y⟩, hsplit', hname⟩ := Option.map_eq_some_iff.mp h'
  obtain ⟨rfl, -⟩ := keyName_split (rsplit_sound hsplit').2 (rsplit_sound hsplit).2 hname
  exact ⟨rfl, h'⟩

section Get

variable {env : Env} {v : VersionHash} {a : Arg} {k' loc : Bytes} {o o' : Str} {e : Entry}
  {s : Store}

theorem kvolveGet_found (hloc : getDbVal env v a.ptr s = .ok (some loc))
    (he : s.get env.d loc = some e) (ho : e.obj.val = .str o) (ht : s.vers e.obj ≠ v.cur) :
    kvolveGet checkUpdateKvPair env v [a] s =
      if Str.isSmall o then checkRename env v [a.ptr] s >>= fun s' => .ok ([a], s')
      else moveFirst env v true (s.vers e.obj) ⟨a.ptr, loc, .stored, s⟩ >>= fun st =>
        (turns (v.pending (s.vers e.obj))).foldlM (turnStep (updRedisCall env) env v) st >>=
          fun st' => .ok ([{ a with ptr := st'.key }], st'.s) := by
  simp only [kvolveGet, onKey, getKey, checkUpdateKvPair, checkUpdateWith, hloc, ok_bind, deref, he,
    ho, Val.isSmall, migrateSubject, if_neg ht]
  split
  · simp only [bind_assoc, ok_bind]
  · simp only [bind_assoc, ok_bind, foldlM_updateTo]

theorem turns_split {pend : List (Int × Option UpdInfo)} {pre post : List UpdFun} {f : UpdFun}
    (h : (pend.flatMap fun p => infoFuns p.2) = pre ++ f :: post) :
    ∃ before behind, turns pend = before ++ .inl f :: behind ∧
      before.filterMap Sum.getLeft? = pre ∧ behind.filterMap Sum.getLeft? = post := by
  rw [← turns_funs] at h
  obtain ⟨l₁, l₂, hl, rfl, hl₂⟩ := List.filterMap_eq_append_iff.mp h
  obtain ⟨skip, t, behind, rfl, hskip, ht, rfl⟩ := List.filterMap_eq_cons_iff.mp hl₂
  obtain rfl : t = .inl f := Sum.getLeft?_eq_some_iff.mp ht
  refine ⟨l₁ ++ skip, behind, by rw [hl, List.append_assoc], ?_, rfl⟩
  rw [List.filterMap_append, List.filterMap_eq_nil_iff.mpr hskip, List.append_nil]

theorem turns_end {ts : List Turn} {nested : Nested} {st st' : MSt} {t : Int}
    (hlast : ts.getLast? = some (.inr t)) (h : ts.foldlM (turnStep nested env v) st = .ok st')
    (hsubj : st'.subj = .stored) (he : st'.s.get env.d st'.loc = some e) :
    st'.s.vers e.obj = t := by
  obtain ⟨init, rfl⟩ := List.getLast?_eq_some_iff.mp hlast
  rw [List.foldlM_append] at h
  obtain ⟨st₁, -, h⟩ := bind_eq_ok.mp h
  rw [List.foldlM_cons] at h
  obtain ⟨st₂, hst₂, h⟩ := bind_eq_ok.mp h
  cases h
  exact bump_vers hst₂ hsubj he

theorem call_get {k : Arg} (he : s.get env.d k.ptr = some e) (ho : e.obj.val = .str o)
    (ha : e.alive env.now = true) : (s.call env (getCommand k)).1 = [.bulk o.bytes] := by
  have hlive : liveEntry env.now (s.dbs env.d) k.ptr = some e := by
    rw [liveEntry, show (s.dbs env.d).lookup k.ptr = some e from he]
    simp [Option.filter, ha]
  simp [Store.call, getCommand, Plan.one, Plan.exec, execSteps, Step.exec, Step.outcome, hlive, ho,
    getProc]

variable {evs : List RegEvent} (hreg : evs.foldlM Reg.step Reg.empty = .ok s.reg)
  (hv : versionHashLookup s.reg a.ptr = some v)
  (hloc : getDbVal env v a.ptr s = .ok (some loc)) (he : s.get env.d loc = some e)
  (ho : e.obj.val = .str o) (ha : e.alive env.now = true) (hold : s.vers e.obj ∈ v.versions)
  (ht : s.vers e.obj ≠ v.cur)
  (hfuns : RenamesKey ((v.pending (s.vers e.obj)).flatMap fun p => infoFuns p.2) a.ptr k' o o')
  (habs : s.get env.d k' = none)

include hreg hv hloc he ho ha hold ht hfuns habs

/-- **A string follows the key that an update function gives it exactly when the mover finds it
under the name that the new key would have had in the namespace before.** -/
theorem renamed_key_iff :
    (∃ s', kvolveGet checkUpdateKvPair env v [a] s = .ok ([{ a with ptr := k' }], s') ∧
      GetFollows env v a k' e.expire o' s s') ↔
    MoverFinds env v a.ptr k' loc (s.vers e.obj) o o' s := by
  have hc := chained_run hreg
  obtain ⟨⟨pre, f, post, o₁, hsplit, hpre, hkey, hcalls, hpost⟩, hnul, hnew⟩ := hfuns
  obtain ⟨before, behind, hturns, rfl, rfl⟩ := turns_split hsplit
  have hlast : (turns (v.pending (s.vers e.obj))).getLast? = some (.inr v.cur) := by
    rw [v.pending_eq]
    exact turns_last (after_getLast? hold v.getLast?_hist ht)
  have hne : k' ≠ loc := by
    rintro rfl
    rw [he] at habs
    cases habs
  have halias := (getDbVal_alias hloc).1
  have hkabs : loc ≠ a.ptr → s.get env.d a.ptr = none := by
    intro hne
    by_contra hsome
    have hhas : s.has env.d a.ptr = true := Option.isSome_iff_ne_none.mpr hsome
    rw [getDbVal, if_pos hhas] at hloc
    cases hloc
    exact hne rfl
  rw [kvolveGet_found hloc he ho ht]
  have hstart : Holding env e.expire a.ptr loc o s ⟨a.ptr, loc, .stored, s⟩ :=
    ⟨rfl, rfl, rfl, ⟨e, he, ho, rfl⟩, .refl s⟩
  constructor
  · rintro ⟨s', hs', hget⟩
    split at hs'
    · -- no function is called for a small integer, and the key stays
      obtain ⟨s₁, -, hs'⟩ := bind_eq_ok.mp hs'
      have hsame := congrArg Arg.ptr (List.cons.inj (Prod.mk.inj (Except.ok.inj hs')).1).1
      exact absurd hsame.symm hnew
    · rename_i hlarge
      obtain ⟨st, hst, hs'⟩ := bind_eq_ok.mp hs'
      obtain ⟨st', hst', hs'⟩ := bind_eq_ok.mp hs'
      obtain rfl : st'.s = s' := (Prod.mk.inj (Except.ok.inj hs')).2
      rw [hturns] at hst'
      by_cases hren : renames v (v.pending (s.vers e.obj)) = true
      · -- the object was moved to the key, or stands where the mover does not look
        exfalso
        obtain ⟨l, hhold, hl, hframe⟩ := moveFirst_holding hren he ho ha hkabs hst
        have hlname : NameOf s.reg v a.ptr l := by
          obtain rfl | ⟨rfl, -⟩ := hl
          · exact .inl (.inl rfl)
          · exact .inl halias
        have hlne : k' ≠ l := by
          obtain rfl | ⟨rfl, -⟩ := hl
          · exact hnew
          · exact hne
        refine hhold.run_stays (updRedisCall env) hpre hkey hcalls hpost hnul
          (hframe k' hnew habs) hlne ?_ hst' ((hget.gone l hlname).resolve_left (Ne.symm hlne))
        intro p hp hname hd
        obtain rfl | ⟨rfl, hno⟩ := hl
        · exact prevName_ne_key hc hv hp hname
        · obtain rfl | ⟨q, -, hq⟩ := halias
          · exact prevName_ne_key hc hv hp hname
          · exact hno p hp (constructPrevName_eq hname hq).2 hd
      · have hsame : st = ⟨a.ptr, loc, .stored, s⟩ := by
          rw [moveFirst, if_neg (fun h => hren h.2)] at hst
          exact (Except.ok.inj hst).symm
        subst hsame
        by_cases hfinds : ∃ p, v.prevNs = some p ∧ constructPrevName k' p = some loc ∧ env.d = 0
        · obtain ⟨p, hp, hname, hd⟩ := hfinds
          obtain ⟨hgoes, hend⟩ := hstart.run_moves (updRedisCall env) hpre hkey hcalls hpost hnul
            ha hd hp hname habs hne
          refine ⟨hd, ⟨p, hp, hname⟩, Bool.eq_false_iff.mpr hren, fun j hj hjl => ?_,
            Bool.eq_false_iff.mpr hlarge, hgoes.mp ⟨st', hst'⟩⟩
          by_cases hjk : j = k'
          · rw [hjk, habs]
          · rw [← (hend st' hst').2.2 j hjl hjk]
            exact (hget.gone j hj).resolve_left hjk
        · refine absurd ((hget.gone loc (.inl halias)).resolve_left (Ne.symm hne))
            (hstart.run_stays (updRedisCall env) hpre hkey hcalls hpost hnul habs hne ?_ hst')
          exact fun p hp hname hd => hfinds ⟨p, hp, hname, hd⟩
  · rintro ⟨hd, ⟨p, hp, hname⟩, hstill, halone, hlarge, hrep⟩
    obtain ⟨hgoes, hend⟩ := hstart.run_moves (updRedisCall env) hpre hkey hcalls hpost hnul ha hd
      hp hname habs hne
    obtain ⟨st', hst'⟩ := hgoes.mpr hrep
    obtain ⟨hhold, hgone, hframe⟩ := hend st' hst'
    obtain ⟨e', he', ho', hx'⟩ := hhold.held
    refine ⟨st'.s, ?_, ⟨e', he', ho', hx', ?_⟩, fun j hj => ?_, ?_⟩
    · rw [hlarge, moveFirst, hstill]
      simp only [Bool.false_eq_true, and_false, if_false, ok_bind, hturns, hst', hhold.key]
    · rw [← hturns] at hst'
      exact turns_end hlast hst' hhold.subj (hhold.loc.symm ▸ he')
    · by_cases hjk : j = k'
      · exact .inl hjk
      · by_cases hjl : j = loc
        · exact .inr (hjl ▸ hgone)
        · exact .inr ((hframe j hjl hjk).trans (halone j hj hjl))
    · exact call_get he' ho' ((Entry.alive_congr hx'.symm _).trans ha)

end Get

def toKey (k : Bytes) : UpdFun := fun _ _ => { key := some k }

theorem renamesKey_toKey {k k' : Bytes} (o : Str) (hnul : NulFree k') (hnew : k' ≠ k) :
    RenamesKey [toKey k'] k k' o o :=
  ⟨⟨[], toKey k', [], o, rfl, .nil o, rfl, rfl, .nil o⟩, hnul, hnew⟩

def lateRun : List RegEvent :=
  renameOnce ++ [.load 1 (fun _ => 0) ⟨lit "b", lit "b", 2, 3, [toKey (lit "c:s")]⟩]

def lateStore (reg : Reg) : Store :=
  { Store.init with reg := reg }.put 0 (lit "a:s") (some ⟨⟨2, .str (.raw (lit "hello"))⟩, none⟩)

theorem renamed_key_late :
    ∃ reg v s', lateRun.foldlM Reg.step Reg.empty = .ok reg ∧
      kvolveGet checkUpdateKvPair plainEnv v [⟨lit "b:s", 0⟩] (lateStore reg) =
        .ok ([⟨lit "c:s", 0⟩], s') ∧
      GetFollows plainEnv v ⟨lit "b:s", 0⟩ (lit "c:s") none (.raw (lit "hello")) (lateStore reg)
        s' := by
  obtain ⟨reg, v, hreg, hv, hprev, hfuns, hren, hold, hcur⟩ : ∃ reg v,
      lateRun.foldlM Reg.step Reg.empty = .ok reg ∧
      versionHashLookup reg (lit "b:s") = some v ∧ v.prevNs = some (lit "a") ∧
      ((v.pending 2).flatMap fun p => infoFuns p.2) = [toKey (lit "c:s")] ∧
      renames v (v.pending 2) = false ∧ 2 ∈ v.versions ∧ (2 : Int) ≠ v.cur :=
    ⟨_, _, rfl, rfl, rfl, rfl, rfl, by decide, by decide⟩
  have hget : (lateStore reg).get 0 (lit "a:s") =
      some ⟨⟨2, .str (.raw (lit "hello"))⟩, none⟩ := Store.get_put_self ..
  have hnone : ∀ j, j ≠ lit "a:s" → (lateStore reg).get 0 j = none :=
    fun j hj => Store.get_put_ne _ _ _ _ hj
  have hloc : getDbVal plainEnv v (lit "b:s") (lateStore reg) = .ok (some (lit "a:s")) := by
    refine getDbVal_previous (by rw [hprev]; rfl) ?_ (Store.has_of_get hget)
    rw [Store.has, show plainEnv.d = 0 from rfl, hnone _ (by decide)]
    rfl
  obtain ⟨s', hs', hfollows⟩ := (renamed_key_iff (a := ⟨lit "b:s", 0⟩) (s := lateStore reg) hreg hv
    hloc hget rfl rfl hold hcur
    (by rw [show (lateStore reg).vers _ = 2 from rfl, hfuns]
        exact renamesKey_toKey _ (by decide) (by decide))
    (hnone _ (by decide))).mpr
    ⟨rfl, ⟨lit "a", hprev, by decide⟩, hren, fun j _ hj => hnone j hj, rfl, .inr rfl⟩
  exact ⟨reg, v, s', hreg, hs', hfollows⟩

/-- A namespace without a predecessor: the mover follows a null pointer. -/
theorem renamed_key_lost :
    ∃ reg v, [RegEvent.connect 1 (lit "a@1"), .load 1 (fun _ => 0)
          ⟨lit "a", lit "a", 1, 2, [toKey (lit "a:t")]⟩].foldlM Reg.step Reg.empty = .ok reg ∧
      versionHashLookup reg (lit "a:s") = some v ∧
      (leftBehind reg).get 0 (lit "a:s") = some hello ∧ (leftBehind reg).get 0 (lit "a:t") = none ∧
      RenamesKey ((v.pending 1).flatMap fun p => infoFuns p.2) (lit "a:s") (lit "a:t")
        (.raw (lit "hello")) (.raw (lit "hello")) ∧
      kvolveGet checkUpdateKvPair plainEnv v [⟨lit "a:s", 0⟩] (leftBehind reg) = .error .segv :=
  ⟨_, _, rfl, rfl, rfl, rfl, renamesKey_toKey _ (by decide) (by decide), rfl⟩

end SchemaUpdate.KVolve
