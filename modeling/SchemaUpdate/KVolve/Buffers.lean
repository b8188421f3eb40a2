import SchemaUpdate.Lib.Decimal
import SchemaUpdate.KVolve.Kills
import SchemaUpdate.KVolve.Watch

/-! # Buffers of fixed size

A load prints the command that kills a client into an array of 24 bytes, and the updaters of
elements fill the argument vectors of fake clients. How long the printed command gets depends
on the client ids, and these come from a counter that every fake client advances. -/

namespace SchemaUpdate.KVolve

open SchemaUpdate.Lib SchemaUpdate.Redis

structure BufWrite where
  size : Nat
  reach : Nat

abbrev BufWrite.Within (w : BufWrite) : Prop := w.reach ≤ w.size

/-- `sprintf(q, "%s%ld\r\n", kill, k)` into `char q[24]`, with the zero at the end. -/
def killWrite (k : Nat) : BufWrite :=
  ⟨24, (lit "client kill id " ++ ll2string k ++ lit "\r\n").length + 1⟩

/-- The pointers that `zmalloc` makes room for in the vector of a fake client. -/
def argvRoom : UType → Nat
  | .string => 0
  | .set => 3
  | .hash => 4
  | .list => 5
  | .zset => 3

/-- The indices that are written; `other` says that the old element goes by another name, and is
deleted. -/
def argvWritten (other : Bool) : UType → List Nat
  | .string => []
  | .set => [1, 2, 2]
  | .hash | .zset => [1, 2, 3] ++ if other then [2] else []
  | .list => [1, 2, 3, 4, 2, 3]

def scoreWrite (cfg : Cfg) (score : Double) : BufWrite :=
  ⟨50, min 50 ((cfg.fmtF score).length + 1)⟩

/-- What happens to the client ids and the registry, as far as buffers are concerned. -/
inductive Happening
  -- `createClient`, for a connection or for a command of KVolve's own
  | client
  -- a client registers for namespaces
  | join (id : Nat)
  | load (loading : Nat) (killed : List Nat)
  -- an updater writes an element back
  | writeBack (type : UType) (other : Bool) (score : Double)

def Happening.writes (cfg : Cfg) : Happening → List BufWrite
  | .client | .join _ => []
  | .load _ killed => killed.map killWrite
  | .writeBack type other score =>
    (argvWritten other type).map (fun i => ⟨argvRoom type, i + 1⟩) ++
      if type = .zset then [scoreWrite cfg score] else []

/-- The next client id and the registry. A load, whether it returns or not, registers the loader
and kills registered clients, with a fake client for every one; an updater makes one as well. -/
inductive Happens : Nat × Reg → Happening → Nat × Reg → Prop
  | client {n : Nat} {reg : Reg} : Happens (n, reg) .client (n + 1, reg)
  | join {n id : Nat} {reg reg' : Reg} : id < n → (∀ m, ids reg' m ⊆ insert id (ids reg m)) →
      Happens (n, reg) (.join id) (n, reg')
  | load {n loading : Nat} {killed : List Nat} {reg reg' : Reg} : loading < n →
      (∀ m, ids reg' m ⊆ insert loading (ids reg m)) →
      (∀ k ∈ killed, ∃ m, k ∈ insert loading (ids reg m)) →
      Happens (n, reg) (.load loading killed) (n + killed.length, reg')
  | writeBack {n : Nat} {reg : Reg} (type : UType) (other : Bool) (score : Double) :
      Happens (n, reg) (.writeBack type other score) (n + 1, reg)

inductive Passed : Nat × Reg → List Happening → Nat × Reg → Prop
  | nil {st : Nat × Reg} : Passed st [] st
  | cons {st st₁ st' : Nat × Reg} {ev : Happening} {evs : List Happening} : Happens st ev st₁ →
      Passed st₁ evs st' → Passed st (ev :: evs) st'

/-- No client with an id of seven digits is killed, and no member of a sorted set is written. -/
def Happening.Roomy : Happening → Prop
  | .client | .join _ => True
  | .load _ killed => ∀ k ∈ killed, k < 10 ^ 6
  | .writeBack type _ _ => type ≠ .zset

theorem killWrite_within {k : Nat} : (killWrite k).Within ↔ k < 10 ^ 6 := by
  have hlen : (killWrite k).reach = (Nat.toDigits 10 k).length + 18 := by
    simp [killWrite, ll2string, lit]
  rw [← Nat.length_toDigits_le_iff (b := 10) (k := 6) (by omega) (by omega), BufWrite.Within, hlen]
  simp [killWrite]

theorem Happening.within_iff (cfg : Cfg) (ev : Happening) :
    (∀ w ∈ ev.writes cfg, w.Within) ↔ ev.Roomy := by
  cases ev with
  | client => simp [writes, Roomy]
  | join id => simp [writes, Roomy]
  | load loading killed => simp [writes, Roomy, killWrite_within]
  | writeBack type other score =>
    cases type <;> cases other <;>
      simp [writes, argvWritten, argvRoom, Roomy, BufWrite.Within]

/-! ## Ids that the counter has given out -/

/-- Every registered client got its id from the counter. -/
def GivenOut (st : Nat × Reg) : Prop := ∀ m, ∀ k ∈ ids st.2 m, k < st.1

section Load

variable {loading : Nat} {reg reg' : Reg} {sp : Spec} {ks : List Nat}

theorem KillWalk.ids_subset {v : VersionHash} (h : KillWalk loading v reg ks reg')
    (hv : reg.find v.ns = some v) :
    (∀ m, ids reg' m ⊆ ids reg m) ∧ ∀ k ∈ ks, ∃ m, k ∈ ids reg m := by
  obtain ⟨l, f, -, rfl, hloops, hother, -⟩ := h.spec hv
  refine ⟨fun m => ?_, fun k hk => ?_⟩
  · by_cases hm : m ∈ l
    · exact (hloops m hm).sub
    · rw [hother m hm]
  · obtain ⟨m, hm, hk⟩ := List.mem_flatMap.mp hk
    exact ⟨m, (((hloops m hm).mem k).mp hk).1⟩

/-- The loads that return are among the steps. -/
theorem SpecRun.happens {n : Nat} (hn : loading < n) (h : SpecRun loading reg sp ks reg') :
    Happens (n, reg) (.load loading ks) (n + ks.length, reg') := by
  cases h with
  | @renamed reg₁ _ v _ _ hc hv hwalk =>
    obtain ⟨hsub, hks⟩ := hwalk.ids_subset (by rw [Reg.find_ns hv]; exact hv)
    have hmade : ∀ m, ids reg₁ m ⊆ insert loading (ids reg m) := by
      intro m
      rw [createNs_ids hc]
      split
      · split <;> simp
      · exact Finset.subset_insert _ _
    exact .load hn (fun m => (hsub m).trans (hmade m)) fun k hk => (hks k hk).imp fun m hm =>
      hmade m hm
  | @appended reg₁ v v₁ v₂ _ _ hv hwalk hv₁ happ =>
    obtain ⟨hsub, hks⟩ := hwalk.ids_subset (by rw [Reg.find_ns hv]; exact hv)
    refine .load hn (fun m => ?_) fun k hk => (hks k hk).imp fun m hm =>
      Finset.mem_insert_of_mem hm
    obtain ⟨hns, his⟩ := appendVersion_ids happ
    rw [ids_set, hns, his]
    split
    · rename_i hm
      have hm' : m = v₁.ns := hm
      have hids : ids reg₁ m = v₁.is := by
        rw [ids, hm', Reg.find_ns hv₁, hv₁]
        rfl
      exact Finset.insert_subset_insert _ (by rw [← hids]; exact hsub m)
    · exact (hsub m).trans (Finset.subset_insert _ _)

end Load

/-- The connects that return are among the steps. -/
theorem checkVersion_happens {n id : Nat} {name : Bytes} {reg reg' : Reg} {quit : Bool} (hid : id < n)
    (h : checkVersion id name reg = .ok (reg', quit)) : Happens (n, reg) (.join id) (n, reg') := by
  refine .join hid (checkVersion_rel (R := fun a b => ∀ m, ids b m ⊆ insert id (ids a m)) ?_ ?_ ?_ ?_ h)
  · exact fun reg m => Finset.subset_insert _ _
  · intro a b c hab hbc m
    refine (hbc m).trans (Finset.insert_subset (Finset.mem_insert_self _ _) (hab m))
  · intro reg ns v0 _ _ m
    rw [ids_set]
    split
    · exact Finset.insert_subset_insert _ (Finset.empty_subset _)
    · exact Finset.subset_insert _ _
  · intro reg v hv m
    rw [ids_set]
    split
    · rename_i hm
      rw [hm, ids, hv]
      exact Finset.Subset.refl _
    · exact Finset.subset_insert _ _

/-- What an update function makes an updater do: a function that changes no element of the kind
has none written back. -/
def UpdRes.writesBack (r : UpdRes) (e : Elem) : UType → List Happening
  | .string => []
  | .set => r.val.toList.map fun _ => .writeBack .set true e.score
  | .list => r.val.toList.map fun _ => .writeBack .list true e.score
  | .zset =>
    if r.val.isSome ∨ r.score.isSome then
      [.writeBack .zset (cstr e.obj.bytes ≠ cstr (r.val.getD e.obj.bytes)) (r.score.getD e.score)]
    else []
  | .hash =>
    if r.val.isSome ∨ r.fval.isSome then
      onOk (newField r e) fun f => [.writeBack .hash (cstr e.obj.bytes ≠ cstr f) e.score]
    else []

theorem runProcs_reg (env : Env) (key : Bytes) (l : List SigProc) (s : Store) :
    (runProcs env key l s).reg = s.reg := by
  induction l generalizing s with
  | nil => rfl
  | cons p l ih =>
    refine (ih (runProc env key p.proc s)).trans ?_
    obtain hsame | ⟨y, hput⟩ := runProc_cases env key p.proc (s.get env.d key)
    · rw [hsame s rfl]
    · rw [hput s rfl]
      rfl

/-- The updaters that return are among the steps. -/
theorem changeElem_happens (n : Nat) {env : Env} {type : UType} {r : UpdRes} {e : Elem}
    {st st' : MSt} (hst : st.subj = .elem e) (h : changeElem env type r e st = .ok st') :
    Passed (n, st.s.reg) (r.writesBack e type) (n + (r.writesBack e type).length, st'.s.reg) := by
  have hone : ∀ (type : UType) other score, Passed (n, st.s.reg) [.writeBack type other score]
      (n + 1, st.s.reg) := fun type other score => .cons (.writeBack type other score) .nil
  rw [(changeElem_procs hst h).1, runProcs_reg]
  cases type with
  | string => exact .nil
  | set | list =>
    cases hr : r.val <;> simp only [UpdRes.writesBack, hr]
    · exact .nil
    · exact hone _ _ _
  | zset =>
    simp only [UpdRes.writesBack]
    split
    · exact hone _ _ _
    · exact .nil
  | hash =>
    simp only [UpdRes.writesBack]
    split
    · cases newField r e with
      | ok f => exact hone _ _ _
      | error _ => exact .nil
    · exact .nil

/-- A step hands out ids from the counter and kills only ids it gave out. -/
theorem GivenOut.step {st st' : Nat × Reg} {ev : Happening} (h : GivenOut st)
    (hstep : Happens st ev st') : GivenOut st' ∧ st.1 ≤ st'.1 ∧
      ∀ loading killed, ev = .load loading killed → ∀ k ∈ killed, k < st.1 := by
  have hadded : ∀ {n id : Nat} {reg : Reg} {m : Bytes} {k : Nat}, id < n → GivenOut (n, reg) →
      k ∈ insert id (ids reg m) → k < n := by
    intro n id reg m k hid h hk
    obtain rfl | hk := Finset.mem_insert.mp hk
    · exact hid
    · exact h m k hk
  cases hstep with
  | client => exact ⟨fun m k hk => Nat.lt_succ_of_lt (h m k hk), Nat.le_succ _, by rintro _ _ ⟨⟩⟩
  | join hid hsub =>
    exact ⟨fun m k hk => hadded hid h (hsub m hk), Nat.le_refl _, by rintro _ _ ⟨⟩⟩
  | load hid hsub hks =>
    refine ⟨fun m k hk => Nat.lt_add_right _ (hadded hid h (hsub m hk)), Nat.le_add_right _ _, ?_⟩
    rintro _ _ ⟨⟩ k hk
    obtain ⟨m, hm⟩ := hks k hk
    exact hadded hid h hm
  | writeBack =>
    exact ⟨fun m k hk => Nat.lt_succ_of_lt (h m k hk), Nat.le_succ _, by rintro _ _ ⟨⟩⟩

theorem Passed.roomy {st st' : Nat × Reg} {evs : List Happening} (hrun : Passed st evs st')
    (h : GivenOut st) (hnext : st'.1 ≤ 10 ^ 6)
    (hz : ∀ type other score, .writeBack type other score ∈ evs → type ≠ .zset) :
    st.1 ≤ st'.1 ∧ ∀ ev ∈ evs, ev.Roomy := by
  induction hrun with
  | nil => exact ⟨Nat.le_refl _, by simp⟩
  | @cons st st₁ st' ev evs hstep hrun ih =>
    obtain ⟨h₁, hle, hkilled⟩ := h.step hstep
    obtain ⟨hle', hall⟩ := ih h₁ hnext fun type other score hm =>
      hz type other score (List.mem_cons_of_mem _ hm)
    refine ⟨hle.trans hle', List.forall_mem_cons.mpr ⟨?_, hall⟩⟩
    cases ev with
    | client => trivial
    | join id => trivial
    | load loading killed =>
      intro k hk
      have := hkilled loading killed rfl k hk
      omega
    | writeBack type other score => exact hz type other score (by simp)

/-- **Writes stay within their buffers** in a run exactly when no member of a sorted set is
written back and every client killed has an id of at most six digits; the latter holds as long
as the counter has not passed a million. -/
theorem writes_within_iff (cfg : Cfg) {n : Nat} {evs : List Happening} {st : Nat × Reg}
    (hrun : Passed (n, Reg.empty) evs st) :
    ((∀ ev ∈ evs, ∀ w ∈ ev.writes cfg, w.Within) ↔ ∀ ev ∈ evs, ev.Roomy) ∧
      (st.1 ≤ 10 ^ 6 → (∀ type other score, .writeBack type other score ∈ evs → type ≠ .zset) →
        ∀ ev ∈ evs, ∀ w ∈ ev.writes cfg, w.Within) := by
  have hiff : (∀ ev ∈ evs, ∀ w ∈ ev.writes cfg, w.Within) ↔ ∀ ev ∈ evs, ev.Roomy :=
    forall₂_congr fun ev _ => ev.within_iff cfg
  have hinit : GivenOut (n, Reg.empty) := by
    intro m k hk
    exact absurd hk (Finset.notMem_empty k)
  exact ⟨hiff, fun hnext hz => hiff.mpr (hrun.roomy hinit hnext hz).2⟩

/-- Two clients connect, the first loads an update and kills the second, and an element of a set
is written back. -/
theorem writes_within_set : ∃ st, Passed (1, Reg.empty) [.client, .client, .join 1, .join 2,
      .load 1 [2], .writeBack .set true 0] st ∧
    ∀ ev ∈ [Happening.client, .client, .join 1, .join 2, .load 1 [2], .writeBack .set true 0],
      ∀ w ∈ ev.writes {}, w.Within := by
  have hloop : KillLoop 1 (insert 2 {1}) [2] {1} :=
    .kill (by decide) (by decide) (by decide) (.stop (by decide))
  have hrun : Passed (1, Reg.empty) [.client, .client, .join 1, .join 2, .load 1 [2],
      .writeBack .set true 0] _ :=
    .cons .client <| .cons .client <|
      .cons (checkVersion_happens (by decide) (rfl : checkVersion 1 (lit "a@1") _ = _)) <|
      .cons (checkVersion_happens (by decide) (rfl : checkVersion 2 (lit "a@1") _ = _)) <|
      .cons (SpecRun.happens (by decide) (show SpecRun 1 _ firstUpdate _ _ from
        .appended (by decide) rfl (.last hloop rfl) rfl rfl)) <|
      .cons (.writeBack .set true 0) .nil
  refine ⟨_, hrun, (writes_within_iff {} hrun).2 (by decide) fun type other score hm => ?_⟩
  simp only [List.mem_cons, reduceCtorEq, false_or, List.not_mem_nil, or_false] at hm
  cases hm
  decide

/-- The vector for `ZADD` has three places, and the member goes to the fourth. -/
theorem zset_write_overruns :
    Passed (1, Reg.empty) [.writeBack .zset false 0] (2, Reg.empty) ∧
      ⟨3, 4⟩ ∈ (Happening.writeBack .zset false 0).writes {} ∧ ¬ (⟨3, 4⟩ : BufWrite).Within :=
  ⟨.cons (.writeBack .zset false 0) .nil, by simp [Happening.writes, argvWritten, argvRoom],
    by decide⟩

end SchemaUpdate.KVolve
