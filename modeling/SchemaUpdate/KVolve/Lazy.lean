import SchemaUpdate.KVolve.History
import SchemaUpdate.KVolve.Names
import SchemaUpdate.KVolve.Spelled

/-! # Lazy and eager updates of strings

Within one namespace an update is applied to a string when the string is read. The
server answers as a plain Redis would whose strings were all updated at the moment
of each load: the tag of a string says which functions it has been through, and the
eager value is the stored one sent through the rest. -/

namespace SchemaUpdate.KVolve

open SchemaUpdate.Lib SchemaUpdate.Redis

/-! ## Pure update functions -/

/-- The function looks at the bytes of the value and changes nothing else. -/
def PureFun (f : UpdFun) : Prop := ∀ key b, f key (.str b) = { val := (f [] (.str b)).val }

def onBytes (f : UpdFun) (b : Bytes) : Bytes := ((f [] (.str b)).val).getD b

def allOnBytes (funs : List UpdFun) (b : Bytes) : Bytes := funs.foldl (fun b f => onBytes f b) b

def infoOnBytes : Option UpdInfo → Bytes → Bytes
  | none, b => b
  | some i, b => allOnBytes i.funs b

def migrated (pend : List (Int × Option UpdInfo)) (b : Bytes) : Bytes :=
  pend.foldl (fun b p => infoOnBytes p.2 b) b

theorem migrated_append (p q : List (Int × Option UpdInfo)) (b : Bytes) :
    migrated (p ++ q) b = migrated q (migrated p b) := List.foldl_append ..

/-- A history without a change of namespace, whose functions are pure. -/
def PureHist (n : Bytes) (hist : List (Int × Option UpdInfo)) : Prop :=
  ∀ p ∈ hist, ∀ i, p.2 = some i → i.fromNs = n ∧ ∀ f ∈ i.funs, PureFun f

/-! ## The migration of a raw string -/

def rawEntry (tag : Int) (b : Bytes) : Entry := ⟨⟨tag, .str (.raw b)⟩, none⟩

section Migrate

variable (nested : Nested) {env : Env} (v : VersionHash) {k : Bytes}

def at' (k : Bytes) (s : Store) : MSt := ⟨k, k, .stored, s⟩

/-- The slot of `k` in the selected database. -/
abbrev SlotOf (env : Env) (k : Bytes) (d : Nat) (j : Bytes) : Prop := d = env.d ∧ j = k

def Leaves (env : Env) (k : Bytes) (s : Store) (tag : Int) (b : Bytes) (r : Res MSt) : Prop :=
  ∃ s', r = .ok (at' k s') ∧ s'.get env.d k = some (rawEntry tag b) ∧
    Touches (SlotOf env k) s s'

variable {s : Store} {tag : Int} {b : Bytes}

theorem applyFun_raw {f : UpdFun} (hf : PureFun f) (he : s.get env.d k = some (rawEntry tag b)) :
    Leaves env k s tag (onBytes f b) (applyFun nested env v true .string (at' k s) f) := by
  have harg : argOf env .string (at' k s) = .ok (.str b) := by
    simp only [argOf, at', deref, he, ok_bind, rawEntry]
  simp only [applyFun, harg, ok_bind, hf (cstr (at' k s).key) b, runCalls, if_true, changeKey]
  simp only [at', changeStored, onBytes]
  cases hval : (f [] (.str b)).val with
  | none => exact ⟨s, rfl, he, Touches.refl s⟩
  | some b' =>
    simp only [deref, he, ok_bind, rawEntry]
    exact ⟨_, rfl, Store.get_put_self .., Touches.put ..⟩

theorem foldl_applyFun_raw {funs : List UpdFun} (hf : ∀ f ∈ funs, PureFun f)
    (he : s.get env.d k = some (rawEntry tag b)) :
    Leaves env k s tag (allOnBytes funs b)
      (funs.foldlM (applyFun nested env v true .string) (at' k s)) := by
  induction funs generalizing s b with
  | nil => exact ⟨s, rfl, he, Touches.refl s⟩
  | cons f funs ih =>
    obtain ⟨s₁, h₁, he₁, ht₁⟩ := applyFun_raw nested v (hf f (by simp)) he
    obtain ⟨s₂, h₂, he₂, ht₂⟩ := ih (fun g hg => hf g (by simp [hg])) he₁
    exact ⟨s₂, by rw [List.foldlM_cons, h₁, ok_bind, h₂], he₂, ht₁.trans ht₂⟩

theorem bump_raw (he : s.get env.d k = some (rawEntry tag b)) (x : Int) :
    Leaves env k s x b (bump env x (at' k s)) := by
  refine ⟨s.put env.d k (some (rawEntry x b)), ?_, Store.get_put_self .., Touches.put ..⟩
  simp only [bump, at', deref, he, ok_bind, Store.setVers, rawEntry]

theorem updateTo_raw {p : Int × Option UpdInfo} (hp : ∀ i, p.2 = some i → ∀ f ∈ i.funs, PureFun f)
    (he : s.get env.d k = some (rawEntry tag b)) :
    Leaves env k s p.1 (infoOnBytes p.2 b) (updateTo nested env v true .string (at' k s) p) := by
  obtain ⟨x, info⟩ := p
  cases info with
  | none => exact bump_raw he x
  | some i =>
    obtain ⟨s₁, h₁, he₁, ht₁⟩ := foldl_applyFun_raw nested v (hp i rfl) he
    obtain ⟨s₂, h₂, he₂, ht₂⟩ := bump_raw he₁ x
    refine ⟨s₂, ?_, he₂, ht₁.trans ht₂⟩
    simp only [updateTo, infoFuns]
    rw [h₁, ok_bind, h₂]

def lastTag (tag : Int) (pend : List (Int × Option UpdInfo)) : Int :=
  match pend.getLast? with
  | none => tag
  | some p => p.1

theorem foldl_updateTo_raw {pend : List (Int × Option UpdInfo)} {n : Bytes} (hp : PureHist n pend)
    (he : s.get env.d k = some (rawEntry tag b)) :
    Leaves env k s (lastTag tag pend) (migrated pend b)
      (pend.foldlM (updateTo nested env v true .string) (at' k s)) := by
  induction pend generalizing s tag b with
  | nil => exact ⟨s, rfl, he, Touches.refl s⟩
  | cons p pend ih =>
    obtain ⟨s₁, h₁, he₁, ht₁⟩ :=
      updateTo_raw nested v (fun i hi => (hp p (by simp) i hi).2) he
    obtain ⟨s₂, h₂, he₂, ht₂⟩ := ih (fun q hq => hp q (by simp [hq])) he₁
    refine ⟨s₂, by rw [List.foldlM_cons, h₁, ok_bind, h₂], ?_, ht₁.trans ht₂⟩
    rw [he₂]
    simp only [lastTag, List.getLast?_cons]
    cases pend.getLast? <;> rfl

end Migrate

theorem VersionHash.getLast?_hist (v : VersionHash) :
    v.hist.getLast? = some (v.hist.getLast v.ne) := List.getLast?_eq_some_getLast v.ne

variable {v : VersionHash}

theorem VersionHash.pending_cur (hn : v.versions.Nodup) : v.pending v.cur = [] := by
  rw [v.pending_eq]
  exact after_last hn v.getLast?_hist

theorem VersionHash.lastTag_pending {tag : Int} (h : tag ∈ v.versions) (hne : tag ≠ v.cur) :
    lastTag tag (v.pending tag) = v.cur := by
  rw [lastTag, v.pending_eq, after_getLast? h v.getLast?_hist hne]
  rfl

theorem PureHist.pending {n : Bytes} (h : PureHist n v.hist) (tag : Int) :
    PureHist n (v.pending tag) := by
  intro p hp
  rw [v.pending_eq] at hp
  exact h p ((after_suffix tag v.hist).subset hp)

theorem PureHist.renames (h : PureHist v.ns v.hist) (tag : Int) :
    renames v (v.pending tag) = false := by
  unfold KVolve.renames
  split
  · rename_i x i hhead
    have hmem := List.mem_of_mem_head? (Option.mem_def.mpr hhead)
    simp [(h.pending tag _ hmem i rfl).1]
  · rfl

/-- **A read brings the string to the current version.** -/
theorem getKey_raw {env : Env} {k : Bytes} {s : Store} {tag : Int} {b : Bytes}
    (hn : v.versions.Nodup) (hh : PureHist v.ns v.hist) (ht : tag ∈ v.versions)
    (he : s.get env.d k = some (rawEntry tag b)) :
    ∃ s', getKey checkUpdateKvPair env v k s = .ok (k, s') ∧
      s'.get env.d k = some (rawEntry v.cur (migrated (v.pending tag) b)) ∧
      Touches (SlotOf env k) s s' := by
  have hdb : getDbVal env v k s = .ok (some k) := by
    rw [getDbVal, if_pos (by simp [Store.has, he])]
  simp only [getKey, checkUpdateKvPair, checkUpdateWith, hdb, ok_bind, deref, he]
  have hvers : s.vers (rawEntry tag b).obj = tag := rfl
  have hsmall : Val.isSmall (rawEntry tag b).obj.val = false := rfl
  rw [hvers, hsmall]
  by_cases hcur : tag = v.cur
  · refine ⟨s, ?_, ?_, Touches.refl s⟩
    · simp [migrateSubject, hcur]
    · rw [hcur, VersionHash.pending_cur hn, he, hcur]
      rfl
  · obtain ⟨s', h', he', ht'⟩ := foldl_updateTo_raw (updRedisCall env) v (hh.pending tag) he
    refine ⟨s', ?_, ?_, ht'⟩
    · rw [at'] at h'
      simp [migrateSubject, hcur, moveFirst, hh.renames tag, h', at']
    · rw [he', VersionHash.lastTag_pending ht hcur]

end SchemaUpdate.KVolve
