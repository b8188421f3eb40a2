import SchemaUpdate.Redis.Gentle
import SchemaUpdate.KVolve.Trace

/-! # Who gets a pending tag

`kvolve_new_version` registers a tag before the container exists, under the name of
the key alone, and `kvolve_prevcall_check` sets it on whatever stands under that name
later. Followed through a run: which requests registered an entry, which command made
the object, and when the two are the same. -/

namespace SchemaUpdate.KVolve

open SchemaUpdate.Lib SchemaUpdate.Redis

/-! ## The loop over the pending tags -/

section Loop

variable {l : List (Sigma fun _ : Bytes => Int × Nat)} {s : Store} {k : Bytes}

theorem prevcallStep_lookup (s : Store) (j : Bytes) (t : Int × Nat) :
    (prevcallStep s j t).tmp.lookup k =
      if s.has t.2 j = true ∧ k = j then none else s.tmp.lookup k := by
  unfold prevcallStep Store.has
  cases s.get t.2 j with
  | none => simp
  | some e => simp [Dict.lookup_put]

theorem prevcall_get_none (d : Nat) :
    (l.foldl (fun s p => prevcallStep s p.1 p.2) s).get d k = none ↔ s.get d k = none := by
  induction l generalizing s with
  | nil => rfl
  | cons p l ih =>
    rw [List.foldl_cons, ih, get_prevcallStep]
    split
    · rename_i h
      rw [h.1, h.2]
      simp
    · rfl

theorem prevcall_lookup {t : Int × Nat}
    (h : (l.foldl (fun s p => prevcallStep s p.1 p.2) s).tmp.lookup k = some t) :
    s.tmp.lookup k = some t := by
  induction l generalizing s with
  | nil => exact h
  | cons p l ih =>
    have h' := ih h
    rw [prevcallStep_lookup] at h'
    split at h'
    · cases h'
    · exact h'

theorem prevcall_removes {t : Int × Nat} (hmem : ⟨k, t⟩ ∈ l) (hhas : s.get t.2 k ≠ none) :
    (l.foldl (fun s p => prevcallStep s p.1 p.2) s).tmp.lookup k = none := by
  induction l generalizing s with
  | nil => cases hmem
  | cons p l ih =>
    rw [List.foldl_cons]
    rcases List.mem_cons.mp hmem with rfl | hmem
    · have hgone : (prevcallStep s k t).tmp.lookup k = none := by
        rw [prevcallStep_lookup, if_pos ⟨by simpa [Store.has, Option.isSome_iff_ne_none] using hhas,
          rfl⟩]
      cases hl : (l.foldl (fun s p => prevcallStep s p.1 p.2)
          (prevcallStep s k t)).tmp.lookup k with
      | none => rfl
      | some u =>
        rw [prevcall_lookup hl] at hgone
        cases hgone
    · refine ih hmem fun hnone => hhas ?_
      rw [← prevcall_get_none (l := [p])]
      exact hnone

/-- **What is left after the loop is not due.** -/
theorem prevcallCheck_due (s : Store) : NoneDue (prevcallCheck s) := by
  intro k t h
  have hmem := AList.mem_lookup_iff.mp (prevcall_lookup h)
  by_contra hne
  have hs : s.get t.2 k ≠ none := fun hnone => hne ((prevcall_get_none t.2).mpr hnone)
  have hgone : (prevcallCheck s).tmp.lookup k = none := prevcall_removes hmem hs
  rw [hgone] at h
  cases h

theorem prevcall_untouched {d : Nat} (h : ∀ w, ⟨k, (w, d)⟩ ∉ l) :
    (l.foldl (fun s p => prevcallStep s p.1 p.2) s).get d k = s.get d k := by
  induction l generalizing s with
  | nil => rfl
  | cons p l ih =>
    rw [List.foldl_cons, ih fun w hw => h w (List.mem_cons_of_mem _ hw), get_prevcallStep, if_neg]
    intro hp
    obtain ⟨j, w, d'⟩ := p
    obtain ⟨rfl, rfl⟩ := hp
    exact h w (by simp)

/-- **A tag that is due is set.** -/
theorem prevcallCheck_other {d : Nat} (h : ∀ w, s.tmp.lookup k ≠ some (w, d)) :
    (prevcallCheck s).get d k = s.get d k :=
  prevcall_untouched fun w hw => h w (AList.mem_lookup_iff.mpr hw)

theorem prevcallCheck_sets {w : Int} {d : Nat} {e : Entry} (h : s.tmp.lookup k = some (w, d))
    (he : s.get d k = some e) : (prevcallCheck s).get d k = some (retag w e) := by
  have hmem := AList.mem_lookup_iff.mp h
  have hnd := s.tmp.nodupKeys
  have hstep : ∀ (l : List (Sigma fun _ : Bytes => Int × Nat)) (s : Store), l.NodupKeys →
      ⟨k, (w, d)⟩ ∈ l → s.get d k = some e →
      (l.foldl (fun s p => prevcallStep s p.1 p.2) s).get d k = some (retag w e) := by
    intro l
    induction l with
    | nil =>
      intro s _ hmem
      cases hmem
    | cons p l ih =>
      intro s hnd hmem he
      rw [List.foldl_cons]
      have hnd' := List.nodupKeys_cons.mp hnd
      rcases List.mem_cons.mp hmem with rfl | hmem
      · have hrest : ∀ w, ⟨k, (w, d)⟩ ∉ l := by
          intro w' hw
          have hkey := List.mem_keys_of_mem hw
          exact hnd'.1 hkey
        rw [prevcall_untouched hrest, get_prevcallStep, if_pos ⟨rfl, rfl⟩, he]
        rfl
      · refine ih _ hnd'.2 hmem ?_
        rw [get_prevcallStep, if_neg, he]
        intro hp
        exact hnd'.1 (List.mem_keys.mpr ⟨(w, d), hp.2 ▸ hmem⟩)
  exact hstep _ s hnd hmem he

end Loop

/-! ## The property -/

/-- **Pending tags reach the object they were made for.** An entry that is due was registered by
the request that made the object, with the version that is current for the key; and a container
just made, of a key of a registered namespace, has that version once the pending tags are set. -/
structure TagsReach (z : System × Trace) : Prop where
  own : ∀ k w d e, z.1.s.tmp.lookup k = some (w, d) → z.1.s.get d k = some e →
    ∃ r v, r ∈ z.2.owners k ∧ z.2.made d k = some r ∧ versionHashLookup z.1.s.reg k = some v ∧
      w = v.cur
  reach : ∀ d k e r v, z.2.made d k = some r → z.1.s.get d k = some e →
    utypeOf e.obj.val ≠ .string → versionHashLookup z.1.s.reg k = some v →
    ∃ e', (prevcallCheck z.1.s).get d k = some e' ∧ e'.obj.vers = v.cur

/-- The entries and the makers fit in the middle of a request. -/
structure Attributed (owners : Bytes → List Nat) (m : Makers) (s : Store) : Prop where
  own : ∀ {k w d e}, s.tmp.lookup k = some (w, d) → s.get d k = some e →
    ∃ r v, r ∈ owners k ∧ m d k = some r ∧ versionHashLookup s.reg k = some v ∧ w = v.cur
  tag : ∀ {d k e r v}, m d k = some r → s.get d k = some e → versionHashLookup s.reg k = some v →
    s.tmp.lookup k = some (v.cur, d)
  whole : ∀ {d k e r}, m d k = some r → s.get d k = some e → e.obj.val.isShared = false

theorem Attributed.tagsReach {z : System × Trace}
    (h : Attributed z.2.owners z.2.made z.1.s) : TagsReach z where
  own _ _ _ _ htmp hget := h.own htmp hget
  reach d k e r v hmade hget hkind hv := by
    refine ⟨_, prevcallCheck_sets (h.tag hmade hget hv) hget, ?_⟩
    rw [retag, isShared_of_kind hkind]
    rfl

variable {s : Store} {owners : Bytes → List Nat} {m : Makers} {now : Int} {cfg : Cfg} {a : List Arg}

theorem NoneDue.attributed (h : NoneDue s) (owners : Bytes → List Nat) :
    Attributed owners (fun _ _ => none) s where
  own htmp hget := by
    rw [h _ _ htmp] at hget
    cases hget
  tag hmade := by cases hmade
  whole hmade := by cases hmade

theorem Attributed.shrink {s' : Store} (h : Attributed owners m s) (htmp : s'.tmp = s.tmp)
    (hreg : s'.reg = s.reg) (hget : ∀ d k e, s'.get d k = some e → s.get d k = some e) :
    Attributed owners m s' where
  own hl hs := by
    rw [hreg]
    exact h.own (htmp ▸ hl) (hget _ _ _ hs)
  tag hm hs hv := by
    rw [htmp]
    exact h.tag hm (hget _ _ _ hs) (hreg ▸ hv)
  whole hm hs := h.whole hm (hget _ _ _ hs)

/-! ## One command -/

/-- What a step may do in a slot with a pending tag, and what it needs to create a container. -/
structure StepFits (owners : Bytes → List Nat) (id : Option Nat) (now : Int) (d : Nat) (st : Step)
    (s : Store) : Prop where
  own : ∀ w, Renews (st.outcome now (s.dbs d)).2 = true → s.tmp.lookup st.key = some (w, d) →
    ∃ x r v, (st.outcome now (s.dbs d)).2 = .create x ∧ id = some r ∧ r ∈ owners st.key ∧
      versionHashLookup s.reg st.key = some v ∧ w = v.cur
  tag : ∀ x r v, (st.outcome now (s.dbs d)).2 = .create x → id = some r →
    versionHashLookup s.reg st.key = some v → s.tmp.lookup st.key = some (v.cur, d)
  modified : ∀ x, (st.outcome now (s.dbs d)).2 = .modify x → x.isShared = false
  created : ∀ x r, (st.outcome now (s.dbs d)).2 = .create x → id = some r → x.isShared = false

section Step

variable {owners : Bytes → List Nat} {m : Makers} {s : Store} {id : Option Nat} {now : Int}
  {d : Nat} {st : Step}

theorem get_step (d' : Nat) (k : Bytes) :
    (s.setDb d (st.exec now (s.dbs d)).2).get d' k =
      if d' = d ∧ k = st.key then
        (st.outcome now (s.dbs d)).2.apply st.tag (liveEntry now (s.dbs d) st.key)
      else s.get d' k := by
  unfold Store.get
  by_cases hd : d' = d
  · subst hd
    rw [Store.setDb_dbs_self, Step.lookup_exec]
    simp only [true_and]
  · rw [if_neg (fun h => hd h.1)]
    simp [Store.setDb, hd]

theorem update_step (f : Option Nat) (d' : Nat) (k : Bytes) :
    Function.update m d (Function.update (m d) st.key f) d' k =
      if d' = d ∧ k = st.key then f else m d' k := by
  by_cases hd : d' = d
  · subst hd
    rw [Function.update_self, Function.update_apply]
    simp only [true_and]
  · rw [Function.update_of_ne hd, if_neg (fun h => hd h.1)]

variable (h : Renews (st.outcome now (s.dbs d)).2 = false)

include h

theorem maker_of_gentle {e : Entry}
    (he : (st.outcome now (s.dbs d)).2.apply st.tag (liveEntry now (s.dbs d) st.key) = some e)
    (id f : Option Nat) :
    Step.maker now (s.dbs d) st id f = f ∧ ∃ e', s.get d st.key = some e' := by
  have hlive : ∀ e', liveEntry now (s.dbs d) st.key = some e' → s.get d st.key = some e' := by
    intro e' hl
    exact (Option.filter_eq_some_iff.mp hl).1
  unfold Step.maker
  cases hact : (st.outcome now (s.dbs d)).2 with
  | keep =>
    rw [hact] at he
    have hl : liveEntry now (s.dbs d) st.key = some e := he
    rw [hl]
    exact ⟨rfl, _, hlive _ hl⟩
  | modify x | setExpire w =>
    rw [hact] at he
    obtain ⟨e', hl, -⟩ := Option.map_eq_some_iff.mp he
    rw [hl]
    exact ⟨rfl, _, hlive _ hl⟩
  | delete =>
    rw [hact] at he
    cases he
  | create x | overwrite x | assign x y => rw [hact] at h; cases h

theorem shared_of_gentle {e e' : Entry}
    (hmod : ∀ x, (st.outcome now (s.dbs d)).2 = .modify x → x.isShared = false)
    (hs : s.get d st.key = some e') (hsh : e'.obj.val.isShared = false)
    (he : (st.outcome now (s.dbs d)).2.apply st.tag (liveEntry now (s.dbs d) st.key) = some e) :
    e.obj.val.isShared = false := by
  have hlive : ∀ e₁, liveEntry now (s.dbs d) st.key = some e₁ → e₁ = e' := by
    intro e₁ hl
    exact Option.some.inj ((Option.filter_eq_some_iff.mp hl).1.symm.trans hs)
  cases hact : (st.outcome now (s.dbs d)).2 with
  | keep =>
    rw [hact] at he
    rw [hlive e he]
    exact hsh
  | modify x =>
    rw [hact] at he
    obtain ⟨e₁, -, rfl⟩ := Option.map_eq_some_iff.mp he
    exact hmod x hact
  | setExpire w =>
    rw [hact] at he
    obtain ⟨e₁, hl, rfl⟩ := Option.map_eq_some_iff.mp he
    rw [hlive e₁ hl]
    exact hsh
  | delete => rw [hact] at he; cases he
  | create x | overwrite x | assign x y => rw [hact] at h; cases h

omit h

theorem maker_of_renews (h : Renews (st.outcome now (s.dbs d)).2 = true) (f : Option Nat)
    {r : Nat} (hr : Step.maker now (s.dbs d) st id f = some r) :
    ∃ x, (st.outcome now (s.dbs d)).2 = .create x ∧ id = some r := by
  unfold Step.maker at hr
  cases hact : (st.outcome now (s.dbs d)).2 with
  | create x =>
    rw [hact] at hr
    exact ⟨x, rfl, hr⟩
  | overwrite x | assign x y => rw [hact] at hr; cases hr
  | keep | modify x | setExpire w | delete => rw [hact] at h; cases h

/-- One command keeps up who made each object. -/
theorem Attributed.step (h : Attributed owners m s) (hfit : StepFits owners id now d st s) :
    Attributed owners
      (Function.update m d (Function.update (m d) st.key
        (Step.maker now (s.dbs d) st id (m d st.key))))
      (s.setDb d (st.exec now (s.dbs d)).2) := by
  constructor
  · intro k w d' e htmp hget
    rw [get_step] at hget
    rw [update_step]
    split at hget
    · rename_i hslot
      obtain ⟨rfl, rfl⟩ := hslot
      rw [if_pos ⟨rfl, rfl⟩]
      cases hnew : Renews (st.outcome now (s.dbs d')).2 with
      | true =>
        obtain ⟨x, r, v, hact, hid, hr, hv, hw⟩ := hfit.own w hnew htmp
        refine ⟨r, v, hr, ?_, hv, hw⟩
        rw [Step.maker, hact]
        exact hid
      | false =>
        obtain ⟨hmaker, e', he'⟩ := maker_of_gentle hnew hget id (m d' st.key)
        rw [hmaker]
        exact h.own htmp he'
    · rename_i hslot
      rw [if_neg hslot]
      exact h.own htmp hget
  · intro d' k e r v hmade hget hv
    rw [get_step] at hget
    rw [update_step] at hmade
    split at hget
    · rename_i hslot
      obtain ⟨rfl, rfl⟩ := hslot
      rw [if_pos ⟨rfl, rfl⟩] at hmade
      cases hnew : Renews (st.outcome now (s.dbs d')).2 with
      | true =>
        obtain ⟨x, hact, hid⟩ := maker_of_renews hnew _ hmade
        exact hfit.tag x r v hact hid hv
      | false =>
        obtain ⟨hmaker, e', he'⟩ := maker_of_gentle hnew hget id (m d' st.key)
        rw [hmaker] at hmade
        exact h.tag hmade he' hv
    · rename_i hslot
      rw [if_neg hslot] at hmade
      exact h.tag hmade hget hv
  · intro d' k e r hmade hget
    rw [get_step] at hget
    rw [update_step] at hmade
    split at hget
    · rename_i hslot
      obtain ⟨rfl, rfl⟩ := hslot
      rw [if_pos ⟨rfl, rfl⟩] at hmade
      cases hnew : Renews (st.outcome now (s.dbs d')).2 with
      | true =>
        obtain ⟨x, hact, hid⟩ := maker_of_renews hnew _ hmade
        rw [hact] at hget
        cases hget
        exact hfit.created x r hact hid
      | false =>
        obtain ⟨hmaker, e', he'⟩ := maker_of_gentle hnew hget id (m d' st.key)
        rw [hmaker] at hmade
        have hwhole := h.whole hmade he'
        exact shared_of_gentle hnew hfit.modified he' hwhole hget
    · rename_i hslot
      rw [if_neg hslot] at hmade
      exact h.whole hmade hget

end Step

/-- The steps of a command, each in the store the ones before it leave. -/
def StepsFit (owners : Bytes → List Nat) (id : Option Nat) (now : Int) (d : Nat) :
    List Step → Store → Prop
  | [], _ => True
  | st :: l, s =>
    StepFits owners id now d st s ∧ StepsFit owners id now d l (s.setDb d (st.exec now (s.dbs d)).2)

theorem Attributed.steps {id : Option Nat} {d : Nat} {l : List Step} (h : Attributed owners m s)
    (hfit : StepsFit owners id now d l s) :
    Attributed owners (Function.update m d (stepsMakers now id l (s.dbs d) (m d)))
      (s.setDb d (execSteps now l (s.dbs d)).2) := by
  induction l generalizing m s with
  | nil =>
    rw [stepsMakers, execSteps, Function.update_eq_self, Store.setDb_self]
    exact h
  | cons st l ih =>
    have hl := ih (h.step hfit.1) hfit.2
    simp only [Function.update_self, Function.update_idem, Store.setDb, Function.update_self]
      at hl
    exact hl

theorem stepsFit_of_free {d : Nat} {l : List Step}
    (h : ∀ st ∈ l, Gentle st.proc ∨ ((∀ cur x, (st.proc cur).2 ≠ .modify x) ∧
      ∀ w, s.tmp.lookup st.key ≠ some (w, d))) : StepsFit owners none now d l s := by
  induction l generalizing s with
  | nil => trivial
  | cons st l ih =>
    refine ⟨⟨fun w hnew htmp => ?_, fun x r v _ hid => (by cases hid), fun x hact => ?_,
      fun x r _ hid => (by cases hid)⟩, ih fun st' hst' => h st' (List.mem_cons_of_mem _ hst')⟩
    · rcases h st (by simp) with hgentle | ⟨-, hfree⟩
      · rw [Step.outcome, (hgentle _).not_renews] at hnew
        cases hnew
      · exact absurd htmp (hfree w)
    · rcases h st (by simp) with hgentle | ⟨hmod, -⟩
      · have hmild := hgentle ((liveEntry now (s.dbs d) st.key).map (·.obj.val))
        rw [← Step.outcome, hact] at hmild
        exact hmild
      · exact absurd hact (hmod _ x)

/-! ## The commands of a request -/

theorem storesCmd_cmd (h : HName) : storesCmd h.cmd = h.stores := by
  cases h <;> rfl

theorem exists_hname {cmd : Cmd} (h : storesCmd cmd = true) : ∃ h : HName, h.cmd = cmd := by
  cases cmd with
  | set => exact ⟨.set, rfl⟩
  | setnx => exact ⟨.setnx, rfl⟩
  | mset => exact ⟨.mset, rfl⟩
  | getset => exact ⟨.getset, rfl⟩
  | incr => exact ⟨.incr, rfl⟩
  | incrby => exact ⟨.incrby, rfl⟩
  | sadd => exact ⟨.sadd, rfl⟩
  | zadd => exact ⟨.zadd, rfl⟩
  | lpush => exact ⟨.lpush, rfl⟩
  | rpush => exact ⟨.rpush, rfl⟩
  | hset => exact ⟨.hset, rfl⟩
  | hmset => exact ⟨.hmset, rfl⟩
  | _ => cases h

/-- A command about to be carried out stores into no slot with a pending tag, unless it creates
the container the tag is for; and it creates no container without a tag in a registered
namespace. -/
def JobFits (rq : Request) (owners : Bytes → List Nat) (j : Job) (c : Client) (s : Store) : Prop :=
  ∀ h : HName, h.cmd = j.cmd → h.stores = true →
    if h.creates then ∀ k rest, j.args = k :: rest →
      match versionHashLookup s.reg k.ptr with
      | some v => (∃ e, s.get c.db k.ptr = some e ∧ e.alive rq.now = true) ∨
          (s.tmp.lookup k.ptr = some (v.cur, c.db) ∧ j.id ∈ owners k.ptr)
      | none => ∀ w, s.tmp.lookup k.ptr ≠ some (w, c.db)
    else ∀ k ∈ h.keysOf j.args, ∀ w, s.tmp.lookup k ≠ some (w, c.db)

def JobsFit (cfg : Cfg) (rq : Request) (owners : Bytes → List Nat) :
    List Job → Client → Store → Prop
  | [], _, _ => True
  | j :: l, c, s => JobFits rq owners j c s ∧
      JobsFit cfg rq owners l (call cfg rq c s j.cmd j.args).2.1 (call cfg rq c s j.cmd j.args).2.2

theorem execKeys_shrinks {pattern : Bytes} {l : List Bytes} {db : Db} {k : Bytes} {e : Entry}
    (h : (execKeys cfg now pattern l db).2.lookup k = some e) :
    db.lookup k = some e := by
  induction l generalizing db with
  | nil => exact h
  | cons j l ih =>
    unfold execKeys at h
    split at h
    · have h' := ih h
      rw [lookup_expireIfNeeded] at h'
      split at h'
      · rename_i hk
        rw [hk]
        exact (Option.filter_eq_some_iff.mp h').1
      · exact h'
    · exact ih h

theorem msetSteps_proc {l : List Arg} {st : Step} (h : st ∈ msetSteps cfg l) :
    ∃ b, st.proc = setProc false false b none ok ok := by
  fun_induction msetSteps cfg l with
  | case1 k v rest ih =>
    rcases List.mem_cons.mp h with rfl | h
    · exact ⟨_, rfl⟩
    · exact ih h
  | case2 l => cases h

section Job

variable {cfg : Cfg} {rq : Request} {owners : Bytes → List Nat} {m : Makers} {s : Store}
  {c : Client} {j : Job} {steps : List Step} {combine : List Reply → Reply}

theorem JobFits.creates {h : HName} (hfit : JobFits rq owners j c s) (hcmd : h.cmd = j.cmd)
    (hst : h.stores = true) (hc : h.creates = true)
    (hplan : plan cfg rq.now rq.rand j.cmd j.args = some (.run steps combine)) :
    StepsFit owners (some j.id) rq.now c.db steps s := by
  have hf := hfit h hcmd hst
  rw [if_pos hc] at hf
  rw [← hcmd] at hplan
  obtain ⟨k, rest, hargs⟩ : ∃ k rest, j.args = k :: rest := by
    cases hj : j.args with
    | cons k rest => exact ⟨k, rest, rfl⟩
    | nil =>
      rw [hj] at hplan
      cases h <;> cases hplan
  rw [hargs] at hplan
  obtain ⟨p, rfl, htame, -⟩ := plan_creates hc hplan
  have hk := hf k rest hargs
  refine ⟨⟨fun w hnew htmp => ?_, fun x r v hact hid hv => ?_, fun x hact => ?_,
    fun x r hact _ => ?_⟩, trivial⟩
  · simp only at htmp ⊢
    cases hcur : liveEntry rq.now (s.dbs c.db) k.ptr with
    | some e =>
      -- a live value is changed in place
      have hact := htame (some e.obj.val)
      simp only [Step.outcome, hcur, Option.map_some] at hnew
      cases hx : (p (some e.obj.val)).2 with
      | create x => rw [hx] at hact; cases hact.1
      | overwrite x | assign x y => rw [hx] at hact; exact hact.elim
      | _ => rw [hx] at hnew; cases hnew
    | none =>
      have hact := htame none
      simp only [Step.outcome, hcur, Option.map_none] at hnew ⊢
      cases hx : (p none).2 with
      | create x =>
        cases hv : versionHashLookup s.reg k.ptr with
        | none =>
          rw [hv] at hk
          exact absurd htmp (hk w)
        | some v =>
          rw [hv] at hk
          rcases hk with ⟨e, he, ha⟩ | ⟨htag, hid⟩
          · rw [liveEntry_alive he ha] at hcur
            cases hcur
          · rw [htag] at htmp
            cases htmp
            exact ⟨x, j.id, v, rfl, rfl, hid, rfl, rfl⟩
      | overwrite x | assign x y => rw [hx] at hact; exact hact.elim
      | _ => rw [hx] at hnew; cases hnew
  · simp only at hv ⊢
    rw [hv] at hk
    rcases hk with ⟨e, he, ha⟩ | ⟨htag, -⟩
    · simp only [Step.outcome, liveEntry_alive he ha, Option.map_some] at hact
      have hno := htame (some e.obj.val)
      rw [hact] at hno
      cases hno.1
    · exact htag
  · have hmod := htame ((liveEntry rq.now (s.dbs c.db) k.ptr).map (·.obj.val))
    simp only [Step.outcome] at hact
    rw [hact] at hmod
    obtain ⟨y, -, -, hsh⟩ := hmod
    exact hsh
  · have hmod := htame ((liveEntry rq.now (s.dbs c.db) k.ptr).map (·.obj.val))
    simp only [Step.outcome] at hact
    rw [hact] at hmod
    exact hmod.2

/-- What stores without creating replaces the object. -/
theorem plan_not_modify {h : HName} (hst : h.stores = true) (hc : h.creates = false) {cfg : Cfg}
    {now : Int} {rand : Nat} {args : List Arg}
    (hplan : plan cfg now rand h.cmd args = some (.run steps combine)) {st : Step}
    (hmem : st ∈ steps) (cur : Option Val) (x : Val) : (st.proc cur).2 ≠ .modify x := by
  intro hact
  have hstores : Stores (st.proc cur).2 = true := by rw [hact]; rfl
  have hset : ∀ {nx xx : Bool} {b : Str} {when : Option Int} {r r' : Reply},
      st.proc = setProc nx xx b when r r' → False := by
    intro nx xx b when r r' hp
    rw [hp] at hstores hact
    rw [(setProc_stores hstores).1] at hact
    cases hact
  have hincr : ∀ n, st.proc = incrDecrProc n → False := by
    intro n hp
    rw [hp] at hstores hact
    obtain ⟨y, hy | hy⟩ := incrDecrProc_stores hstores
    · rw [hy] at hact
      cases hact
    · rw [hy] at hact
      cases hact
  cases h with
  | set =>
    match args, hplan with
    | k :: b :: opts, hplan =>
      obtain ⟨o, when, -, rfl⟩ := setCommand_run (Option.some.inj hplan)
      rw [List.mem_singleton] at hmem
      exact hset (by rw [hmem])
  | setnx =>
    match args, hplan with
    | [k, b], hplan =>
      cases hplan
      rw [List.mem_singleton] at hmem
      exact hset (by rw [hmem])
  | getset =>
    match args, hplan with
    | [k, b], hplan =>
      obtain ⟨p, rfl, hp⟩ := getsetCommand_stores cur (Option.some.inj hplan)
      rw [List.mem_singleton] at hmem
      rw [hmem] at hstores hact
      rw [(hp hstores).1] at hact
      cases hact
  | incr =>
    match args, hplan with
    | [k], hplan =>
      cases hplan
      rw [List.mem_singleton] at hmem
      exact hincr 1 (by rw [hmem])
  | incrby =>
    match args, hplan with
    | [k, n], hplan =>
      have hplan := Option.some.inj hplan
      unfold incrbyCommand withLongLong at hplan
      split at hplan
      · rename_i i _
        cases hplan
        rw [List.mem_singleton] at hmem
        exact hincr i (by rw [hmem])
      · cases hplan
  | mset =>
    match args, hplan with
    | k :: b :: rest, hplan =>
      have hplan := Option.some.inj hplan
      unfold msetCommand at hplan
      split at hplan
      · cases hplan
      · cases hplan
        obtain ⟨b', hb⟩ := msetSteps_proc hmem
        exact hset hb
  | sadd | zadd | lpush | rpush | hset | hmset => cases hc
  | _ => cases hst

theorem JobFits.others (hfit : JobFits rq owners j c s) (hc : createsCmd j.cmd = false)
    (hplan : plan cfg rq.now rq.rand j.cmd j.args = some (.run steps combine)) :
    StepsFit owners none rq.now c.db steps s := by
  refine stepsFit_of_free fun st hst => ?_
  cases hs : storesCmd j.cmd with
  | false => exact .inl (plan_gentle hs hplan steps combine rfl st hst)
  | true =>
    obtain ⟨h, hcmd⟩ := exists_hname hs
    have hstores : h.stores = true := by rw [← storesCmd_cmd, hcmd, hs]
    have hcre : h.creates = false := by rw [← createsCmd_cmd, hcmd, hc]
    have hf := hfit h hcmd hstores
    rw [if_neg (by simp [hcre])] at hf
    rw [← hcmd] at hplan
    have hmem : st.key ∈ h.keysOf j.args := by
      have hkey := List.mem_map_of_mem (f := Step.key) hst
      by_cases hm : h = .mset
      · subst hm
        rwa [plan_mset_keys hplan] at hkey
      · cases hj : j.args with
        | nil =>
          rw [hj] at hplan
          cases h <;> cases hplan
        | cons k rest =>
          rw [hj] at hplan
          rw [keysOf_one hstores hm]
          rwa [plan_one_key hstores hm hplan] at hkey
    exact .inr ⟨plan_not_modify hstores hcre hplan hst, hf st.key hmem⟩

theorem Attributed.job (h : Attributed owners m s) (hfit : JobFits rq owners j c s) :
    Attributed owners (j.makers cfg rq c s m) (call cfg rq c s j.cmd j.args).2.2 := by
  unfold Job.makers
  cases hplan : plan cfg rq.now rq.rand j.cmd j.args with
  | none =>
    rw [call_conn hplan s s]
    exact h
  | some p =>
    simp only [call, hplan]
    cases p with
    | refuse r =>
      rw [Store.call_refuse]
      exact h
    | keys pattern =>
      refine h.shrink rfl rfl fun d k e he => ?_
      simp only [Store.call, Store.get, Store.setDb, Function.update_apply, Plan.exec] at he
      split at he
      · rename_i hd
        rw [hd]
        exact execKeys_shrinks he
      · exact he
    | run steps combine =>
      cases hc : createsCmd j.cmd with
      | false => exact h.steps (hfit.others hc hplan)
      | true =>
        have hs : storesCmd j.cmd = true := by
          cases hj : j.cmd <;> first | rfl | (rw [hj] at hc; cases hc)
        obtain ⟨hn, hcmd⟩ := exists_hname hs
        have hcre : hn.creates = true := by rw [← createsCmd_cmd, hcmd, hc]
        have hstores : hn.stores = true := by rw [← storesCmd_cmd, hcmd, hs]
        exact h.steps (hfit.creates hcmd hstores hcre hplan)

end Job

theorem Attributed.jobs {rq : Request} {c : Client} {l : List Job} (h : Attributed owners m s)
    (hfit : JobsFit cfg rq owners l c s) :
    Attributed owners (jobsMakers cfg rq l c s m) (runJobs cfg rq l c s).2 := by
  induction l generalizing m s c with
  | nil => exact h
  | cons j l ih => exact ih (h.job hfit.1) hfit.2

/-! ## The hook and the pending tags -/

section Hook

variable {env : Env} {v : VersionHash} {h : HName} {s : Store}

theorem updateAll_found {k : Bytes} {loop : Int → Val → LSt → Option (Res LSt)}
    {out : Int × Bytes × Store} (hk : ¬ Absent env v k s)
    (hok : updateAll env v k s loop = .ok out) : out.1 = 0 := by
  unfold updateAll at hok
  obtain ⟨found, hfound, hok⟩ := bind_eq_ok.mp hok
  cases found with
  | none => exact absurd hfound hk
  | some loc =>
    obtain ⟨e, -, hok⟩ := bind_eq_ok.mp hok
    split at hok
    · cases hok
      rfl
    · split at hok
      · cases hok
        rfl
      · obtain ⟨st, -, hok⟩ := bind_eq_ok.mp hok
        obtain ⟨-, -, hok⟩ := bind_eq_ok.mp hok
        cases hok
        rfl

/-- **A handler with quiet functions leaves the pending tags, unless it registers one for a
missing container.** -/
theorem Quiet.run_tmp (hq : Quiet v) (hk : h ≠ .keys) {k : Arg} {rest : List Arg}
    {out : List Arg × Store} (hno : h.creates = true → ¬ Absent env v k.ptr s)
    (hok : h.run checkUpdateKvPair env v (k :: rest) s = .ok out) : out.2.tmp = s.tmp := by
  have hcl := hq.tmp_closed env s.tmp
  have hsame : Same (fun t : Store => t.tmp = s.tmp) s s := ⟨rfl, rfl⟩
  cases hc : h.creates with
  | false =>
    have hdel : ∀ {s₁ t : Store} {k : Bytes}, Same (fun t => t.tmp = s.tmp) s₁ t → True →
        Same (fun t => t.tmp = s.tmp) (s₁.put env.d k none) (t.put env.d k none) := by
      intro s₁ t k hst _
      obtain ⟨rfl, hs⟩ := hst
      exact ⟨rfl, hs⟩
    obtain ⟨q, -, hpq⟩ := (hcl.run h hk hc (.inr hdel) hsame fun _ _ => trivial).of_ok hok
    cases hpq with
    | mk hst => exact hst.2
  | true =>
    obtain ⟨all, hrun, hall⟩ := creates_all hc
    obtain ⟨loop, hloop, -, -, hrel⟩ := hall (v := v) (k := k.ptr) (s := s)
    rw [hrun] at hok
    obtain ⟨p, hp, hok⟩ := bind_eq_ok.mp hok
    obtain ⟨r, hr, hp⟩ := bind_eq_ok.mp hp
    cases hok
    cases hp
    rw [hloop] at hr
    have hzero : r.1 = 0 := updateAll_found (hno hc) hr
    obtain ⟨q, -, hrq⟩ := (hcl.updateAll hsame trivial (hrel _ _ hcl)).of_ok hr
    cases hrq with
    | mk hst =>
      simp only at hzero ⊢
      rw [if_neg (by rw [hzero]; decide)]
      exact hst.2

theorem keysStep_tmp {pattern k : Bytes} {s' : Store} (h : keysStep env pattern s k = .ok s') :
    s'.tmp = s.tmp := by
  rcases keysStep_ok h with rfl | ⟨v, new, h⟩
  · rfl
  · exact (namespaceUpdate_kept h).2

theorem kvolveKeys_tmp {args a : List Arg} {s' : Store} (h : kvolveKeys env args s = .ok (a, s')) :
    s'.tmp = s.tmp := by
  unfold kvolveKeys at h
  split at h
  · cases h
  · split at h
    · cases h
      rfl
    · obtain ⟨s'', hs, h⟩ := bind_eq_ok.mp h
      cases h
      exact foldlM_rel (R := fun s s' : Store => s'.tmp = s.tmp) (fun _ => rfl)
        (fun _ _ _ h₁ h₂ => h₂.trans h₁) (fun _ _ _ _ hst => keysStep_tmp hst) hs

end Hook

/-! ## The condition -/

/-- What a request may do when the pending tags that are left after the loop are in `s`. It is one
whose effect on the database is modelled. A `KEYS` brings no key to a new name while tags are
pending. The functions of the record a handler works with are quiet, a tag is registered under the
whole name of the key, and a name with a pending tag is touched only when all keys are missing. A
store command of its own meets no pending tag, and one that creates a container goes through its
handler and finds the key missing or alive. The commands of a queue are the ones that registered the
tags they meet. -/
structure PendingFits (cfg : Cfg) (c : Client) (rq : Request) (s : Store)
    (owners : Bytes → List Nat) (ids : List Nat) : Prop where
  modelled : ∀ name ∈ rq.argv.head?, ∀ t ∈ otherWrites, name.map lower ≠ lit t
  keys : ∀ name k rest, rq.argv = name :: k :: rest → strcasecmp name (lit "keys") = true →
    (∀ j, s.tmp.lookup j = none) ∨ KeysIdle (rq.env cfg c.db) k s
  handler : ∀ name k rest v h, rq.argv = name :: k :: rest → versionHashLookup s.reg k = some v →
    lookupKvCommand name rq.argv.length = some h → h ≠ .keys → Quiet v ∧
      (h.creates = true → Absent (rq.env cfg c.db) v k s → NulFree k) ∧
      ((∀ j ∈ h.keysOf (args (k :: rest)), Absent (rq.env cfg c.db) v j s) ∨
        ∀ j w d, s.tmp.lookup j = some (w, d) →
          ¬ SlotsOf (rq.env cfg c.db) s.reg v (h.keysOf (args (k :: rest))) d j)
  direct : ∀ h name k rest, rq.argv = name :: k :: rest → h.stores = true →
    route cfg rq c (args rq.argv) = .direct h.cmd (args (k :: rest)) →
    if h.creates then
      match versionHashLookup s.reg k with
      | some v => lookupKvCommand name rq.argv.length = some h ∧
          (Absent (rq.env cfg c.db) v k s ∨ Held h (rq.env cfg c.db) v k rest s fun _ => True)
      | none => ∀ w, s.tmp.lookup k ≠ some (w, c.db)
    else ∀ j ∈ h.keysOf (args (k :: rest)), ∀ w, s.tmp.lookup j ≠ some (w, c.db)
  exec : route cfg rq c (args rq.argv) = .exec → c.multi = true → c.dirtyExec = false →
    c.dirtyCas = false → JobsFit cfg rq owners (queueJobs ids c.queue) c s

/-! ## Routes -/

section Route

variable {cfg : Cfg} {rq : Request} {c : Client} {name : Arg} {a : List Arg} {cmd : Cmd}

theorem route_direct {a' : List Arg} (h : route cfg rq c (name :: a) = .direct cmd a') :
    a' = a ∧ ∃ cname arity, lookupCommand name.ptr = some (cname, cmd, arity) := by
  unfold route at h
  simp only at h
  split at h
  · cases h
  · split at h
    · cases h
    · rename_i cname cmd' arity hcmd
      repeat' split at h
      all_goals cases h
      exact ⟨rfl, cname, arity, hcmd⟩

theorem route_exec (h : route cfg rq c (name :: a) = .exec) :
    ∃ cname arity, lookupCommand name.ptr = some (cname, .exec, arity) ∧
      arityOk arity (a.length + 1) = true := by
  unfold route at h
  simp only at h
  split at h
  · cases h
  · split at h
    · cases h
    · rename_i cname cmd' arity hcmd
      split at h
      · cases h
      · rename_i har
        repeat' split at h
        all_goals cases h
        rename_i hexec
        subst hexec
        exact ⟨cname, arity, hcmd, by simpa using har⟩

theorem route_length {b : List Arg} (hlen : b.length = a.length)
    (h : route cfg rq c (name :: a) = .direct cmd a) :
    route cfg rq c (name :: b) = .direct cmd b := by
  unfold route at h ⊢
  simp only [List.length_cons, hlen] at h ⊢
  split at h
  · cases h
  · rename_i hquit
    rw [if_neg hquit]
    cases hrow : lookupCommand name.ptr with
    | none =>
      rw [hrow] at h
      cases h
    | some row =>
      rw [hrow] at h
      simp only at h ⊢
      split at h
      · cases h
      · rename_i harity
        rw [if_neg harity]
        split at h
        · cases h
        · rename_i hauth
          rw [if_neg hauth]
          split at h
          · cases h
          · rename_i hrefuse
            rw [if_neg hrefuse]
            split at h
            · cases h
            · rename_i hqueue
              rw [if_neg hqueue]
              split at h
              · cases h
              · rename_i hexec
                rw [if_neg hexec]
                cases h
                rfl

theorem route_quit (hq : strcasecmp name.ptr (lit "quit") = true) :
    route cfg rq c (name :: a) = .refused := by
  unfold route
  simp only [hq, if_true]

end Route

theorem jobsFit_other {rq : Request} {c : Client} {name : Arg} {n : Nat} {ids : List Nat}
    (cmd : Cmd) (hname : ∀ row, lookupCommand name.ptr = some row → row.2.1 = cmd)
    (hcmd : cmd ≠ .exec ∧ storesCmd cmd = false) :
    JobsFit cfg rq owners (jobs cfg rq c (name :: a) n ids) c s := by
  unfold jobs
  cases hr : route cfg rq c (name :: a) with
  | refused | queued => trivial
  | exec =>
    obtain ⟨cname, arity, hrow, -⟩ := route_exec hr
    exact absurd (hname _ hrow).symm hcmd.1
  | direct cmd' a' =>
    obtain ⟨-, cname, arity, hrow⟩ := route_direct hr
    refine ⟨fun h hh hst => ?_, trivial⟩
    have heq : cmd' = cmd := hname _ hrow
    simp only at hh
    rw [← storesCmd_cmd, hh, heq, hcmd.2] at hst
    cases hst

/-! ## One request -/

theorem Held.alive_after {h : HName} {env : Env} {v : VersionHash} {k : Bytes} {rest : List Bytes}
    {s' : Store} {P : Entry → Prop} (hh : Held h env v k rest s P) (hc : h.creates = true)
    (hok : h.run checkUpdateKvPair env v (args (k :: rest)) s = .ok (a, s')) :
    ∃ e, s'.get env.d k = some e ∧ e.alive env.now = true := by
  obtain ⟨hname, hkeys, -⟩ := HName.of_creates hc
  have hks : ∀ j ∈ h.keysOf (args (k :: rest)), j = k := fun j hj =>
    List.mem_singleton.mp (hkeys ⟨k, 0⟩ (args rest) ▸ hj)
  have hq := hh.1
  obtain ⟨s₁, e, he, ha, -, -, hsame⟩ := hh.own
  rw [hsame] at hok
  by_cases hstr : utypeOf e.obj.val = .string
  · obtain rfl := creates_string hc he hstr hok
    exact ⟨e, he, ha⟩
  · obtain ⟨e', he', hx, -, -⟩ := hq.run_keeps hname hks he (isShared_of_kind hstr) hok
    exact ⟨e', he', (Entry.alive_congr hx.symm _).trans ha⟩

theorem HName.keysOf_ptr (h : HName) {b : List Arg} (hab : a.map (·.ptr) = b.map (·.ptr)) :
    h.keysOf a = h.keysOf b := by
  have heven : ∀ a : List Arg, evenArgs (args (a.map (·.ptr))) = evenArgs a := by
    intro a
    induction a using evenArgs.induct with
    | case1 k val rest ih => exact congrArg (k.ptr :: ·) ih
    | case2 a hne =>
      obtain rfl | ⟨k, rfl⟩ := short_of_not_pair hne <;> rfl
  have hhead : a.head?.map (·.ptr) = b.head?.map (·.ptr) := by
    rw [← List.head?_map, ← List.head?_map, hab]
  cases h with
  | mset =>
    have hsame := heven a
    rw [hab, heven b] at hsame
    exact hsame.symm
  | mget | del => exact hab
  | _ => exact congrArg Option.toList hhead

section Request

variable {cfg : Cfg} {c : Client} {rq : Request} {s : Store} {owners : Bytes → List Nat}
  {ids : List Nat} {out : HookOut} {n : Nat} (hfit : PendingFits cfg c rq s owners ids)

include hfit

theorem PendingFits.plain (hno : ∀ name k rest v h, args rq.argv = name :: k :: rest →
      versionHashLookup s.reg k.ptr = some v →
      lookupKvCommand name.ptr (args rq.argv).length ≠ some h) :
    JobsFit cfg rq (ownersAfter (rq.env cfg c.db) rq.argv n s s owners)
      (jobs cfg rq c (args rq.argv) n ids) c s := by
  have hlen : (args rq.argv).length = rq.argv.length := List.length_map _
  unfold jobs
  cases hr : route cfg rq c (args rq.argv) with
  | refused | queued => trivial
  | exec =>
    -- `EXEC` has no arguments, so it registers nothing
    have hshort : ∃ name, rq.argv = [name] := by
      cases hargv : rq.argv with
      | nil => rw [hargv] at hr; cases hr
      | cons name l =>
        rw [hargv] at hr
        obtain ⟨cname, arity, hrow, har⟩ := route_exec hr
        have hone : ∀ c ∈ redisCommandTable, c.2.1 = .exec → c.2.2 = 1 := by decide
        have harity : arity = 1 := hone _ (List.mem_of_find?_eq_some hrow) rfl
        subst harity
        have hl : l = [] := by
          cases l with
          | nil => rfl
          | cons k rest => simp [arityOk, List.length_map] at har; omega
        exact ⟨name, by rw [hl]⟩
    obtain ⟨name, hargv⟩ := hshort
    have howners : ownersAfter (rq.env cfg c.db) rq.argv n s s owners = owners := by
      funext k
      simp [ownersAfter, registers, hargv]
    rw [howners]
    simp only
    split
    · rename_i hm
      simp only [Bool.and_eq_true, Bool.not_eq_true'] at hm
      exact hfit.exec hr hm.1.1 hm.1.2 hm.2
    · trivial
  | direct cmd a' =>
    refine ⟨fun h hh hst => ?_, trivial⟩
    simp only at hh ⊢
    cases hargv : rq.argv with
    | nil => rw [hargv] at hr; cases hr
    | cons name l =>
      rw [hargv] at hr
      obtain ⟨rfl, -⟩ := route_direct hr
      cases l with
      | nil =>
        split
        · intro k rest hnil
          cases hnil
        · intro k hk
          cases h <;> cases hk
      | cons k rest =>
        have hd := hfit.direct h name k rest hargv hst (by rw [hargv, hr, hh]; rfl)
        split
        · rename_i hc
          rw [if_pos hc] at hd
          intro k' rest' heq
          obtain ⟨rfl, rfl⟩ := List.cons.inj heq
          simp only
          cases hv : versionHashLookup s.reg k with
          | none =>
            rw [hv] at hd
            exact hd
          | some v =>
            rw [hv] at hd
            exact absurd (hlen ▸ hd.1) (hno ⟨name, 0⟩ ⟨k, 0⟩ (args rest) v h (by rw [hargv]; rfl) hv)
        · rename_i hc
          rw [if_neg hc] at hd
          exact hd

section Handled

variable {name k : Bytes} {rest : List Bytes} {v : VersionHash} {h : HName} {a : List Arg}
  {s' : Store} (hargv : rq.argv = name :: k :: rest) (hv : versionHashLookup s.reg k = some v)
  (hkv : lookupKvCommand name rq.argv.length = some h) (hk : h ≠ .keys)
  (hok : h.run checkUpdateKvPair (rq.env cfg c.db) v (args (k :: rest)) s = .ok (a, s'))

include hargv hv hkv hk hok

/-- The tags that the handler leaves are of keys that are missing. -/
theorem PendingFits.handled_due (hs : NoneDue s) : NoneDue s' := by
  obtain ⟨hq, hnul, htouch⟩ := hfit.handler name k rest v h hargv hv hkv hk
  intro j t hj
  by_cases hreg : h.creates = true ∧ Absent (rq.env cfg c.db) v k s
  · obtain ⟨-, rfl⟩ := run_creates_absent (k := ⟨k, 0⟩) hreg.1 hreg.2 hok
    simp only [newVersion, cstr_eq_self (hnul hreg.1 hreg.2), Dict.lookup_put] at hj
    split at hj
    · rename_i hjk
      cases hj
      rw [hjk]
      exact Store.get_of_has hreg.2.has
    · exact hs j t hj
  · rw [hq.run_tmp hk (fun hc habs => hreg ⟨hc, habs⟩) hok] at hj
    rcases htouch with hall | hfree
    · -- nothing is stored under any name of the keys
      have hidle := run_idle (k := ⟨k, 0⟩) hk (argsOk_of_run hok) fun i hi => .inl (hall i hi)
      have hstore : s' = idleStore h (rq.env cfg c.db) v k s :=
        congrArg Prod.snd (Except.ok.inj (hok.symm.trans hidle))
      have hdbs : s'.get t.2 j = s.get t.2 j := by
        rw [hstore, idleStore]
        split <;> rfl
      rw [hdbs]
      exact hs j t hj
    · rw [(hq.within hk hok).get t.2 j (hfree j t.1 t.2 hj)]
      exact hs j t hj

/-- The command that follows the handler fits. -/
theorem PendingFits.handled_jobs :
    JobsFit cfg rq (ownersAfter (rq.env cfg c.db) rq.argv n s s' owners)
      (jobs cfg rq c (⟨name, 0⟩ :: a) n ids) c s' := by
  obtain ⟨hq, hnul, -⟩ := hfit.handler name k rest v h hargv hv hkv hk
  have hargs : a = h.tagged v.cur (args (k :: rest)) := hq.run_args hk hok
  have hptr : a.map (·.ptr) = (args (k :: rest)).map (·.ptr) := by
    rw [hargs, HName.tagged_ptr]
  have hlen : (args (k :: rest)).length = a.length := by
    rw [← List.length_map (f := (·.ptr)), ← hptr, List.length_map]
  unfold jobs
  cases hr : route cfg rq c (⟨name, 0⟩ :: a) with
  | refused | queued => trivial
  | exec =>
    obtain ⟨cname, arity, hrow, -⟩ := route_exec hr
    have hsp := (spelled_of_lookups hkv hrow).redis
    rw [hrow] at hsp
    exact absurd (congrArg (·.2.1) (Option.some.inj hsp)).symm h.cmd_ne.1
  | direct cmd a' =>
    obtain ⟨rfl, cname, arity, hrow⟩ := route_direct hr
    have hsp := (spelled_of_lookups hkv hrow).redis
    rw [hrow] at hsp
    have hcmd : cmd = h.cmd := congrArg (·.2.1) (Option.some.inj hsp)
    refine ⟨fun h' hh hst => ?_, trivial⟩
    obtain rfl : h' = h := HName.cmd_injective (hh.trans hcmd)
    have hroute := route_length (b := args (k :: rest)) hlen hr
    have hd := hfit.direct h' name k rest hargv hst (by rw [hargv]; exact hcmd ▸ hroute)
    rw [hv] at hd
    simp only
    split
    · rename_i hc
      rw [if_pos hc] at hd
      intro k' rest' heq
      have hk' : k'.ptr = k := by
        rw [heq] at hptr
        exact (List.cons.inj hptr).1
      rw [(hq.within hk hok).reg, hk', hv]
      simp only
      rcases hd.2 with habs | hheld
      · obtain ⟨-, rfl⟩ := run_creates_absent (k := ⟨k, 0⟩) hc habs hok
        have hself := cstr_eq_self (hnul hc habs)
        refine .inr ⟨by simp [newVersion, hself, Request.env], ?_⟩
        have hregs : registers (rq.env cfg c.db) rq.argv s = some k := by
          have hkv' : lookupKvCommand name (rest.length + 2) = some h' := by
            rw [← hkv, hargv]
            rfl
          unfold Absent at habs
          simp only [registers, hargv, hv, hkv', hc, habs, hself]
        simp [ownersAfter, hregs]
      · exact .inl (hheld.alive_after hc hok)
    · rename_i hc
      rw [if_neg hc] at hd
      rw [h'.keysOf_ptr hptr, hq.run_tmp hk (fun hcre => absurd hcre hc) hok]
      exact hd

end Handled

/-- **A request that fits leaves the hook with no tag due, and its commands fit.** -/
theorem PendingFits.hook (hs : NoneDue s)
    (hcase : HookCase (rq.env cfg c.db) (args rq.argv) s out) :
    NoneDue out.s ∧ JobsFit cfg rq (ownersAfter (rq.env cfg c.db) rq.argv n s out.s owners)
      (jobs cfg rq c out.argv n ids) c out.s := by
  cases hcase with
  | setname hset hstore hargv =>
    constructor
    · rw [hstore]
      exact hs
    · rcases hargv with hargv | hargv
      · rw [hargv]
        unfold isSetname at hset
        split at hset
        · rename_i cl sub nm' heq
          split at hset
          · rename_i hcl
            rw [heq]
            refine jobsFit_other .client (fun row hrow => ?_) (by decide)
            simp only [Bool.and_eq_true] at hcl
            rw [lookupCommand_casecmp client_mem_redis hcl.1 hrow]
          · cases hset
        · cases hset
      · rw [hargv]
        unfold jobs
        rw [route_quit (by decide)]
        trivial
  | @keys name k rest a heq hname hkeys hargv =>
    obtain ⟨nm, p, more, hrq, rfl, rfl, rfl⟩ := args_eq_cons heq
    have hcase : strcasecmp nm (lit "keys") = true := by
      rcases hname with hname | hname
      · exact hname
      · exact lookupKvCommand_keys hname
    constructor
    · rcases hfit.keys nm p more hrq hcase with hnone | hidle
      · intro j t hj
        rw [kvolveKeys_tmp hkeys, hnone j] at hj
        cases hj
      · rw [kvolveKeys_idle (p := ⟨p, 0⟩) hidle] at hkeys
        have hsame : s = out.s := congrArg Prod.snd (Except.ok.inj hkeys)
        rw [← hsame]
        exact hs
    · rw [hargv]
      refine jobsFit_other .keys (fun row hrow => ?_) (by decide)
      rw [lookupCommand_casecmp (HName.mem_redis .keys) hcase hrow]
      rfl
  | plain hno hargv hstore =>
    rw [hstore, hargv]
    exact ⟨hs, hfit.plain hno⟩
  | @handler name k rest a v h heq hv hkv hk hok hargv =>
    obtain ⟨nm, p, more, hrq, rfl, rfl, rfl⟩ := args_eq_cons heq
    have hlen : (args rq.argv).length = rq.argv.length := List.length_map _
    rw [hargv]
    exact ⟨hfit.handled_due hrq hv (hlen ▸ hkv) hk hok hs,
      hfit.handled_jobs hrq hv (hlen ▸ hkv) hk hok⟩

end Request

def traceStart : System × Trace :=
  (⟨atVersionOne, fun _ => plainClient⟩, ⟨0, fun _ => [], fun _ => [], fun _ _ => none⟩)

theorem tagsReach_start : TagsReach traceStart where
  own _ _ _ _ htmp := by cases htmp
  reach _ _ _ _ _ hmade := by cases hmade

def saddRequest (iter : Db → List Bytes) : Request :=
  { request [lit "sadd", lit "a:s", lit "x"] with iter := iter }

theorem sadd_fits (hpass : cfg.requirepass = none) (iter : Db → List Bytes) :
    PendingFits cfg plainClient (saddRequest iter) atVersionOne (fun _ => []) [] := by
  have hroute : route cfg (saddRequest iter) plainClient (args (saddRequest iter).argv) =
      .direct .sadd (args [lit "a:s", lit "x"]) := by
    have hauth : (cfg.requirepass.isSome && !plainClient.authenticated && Cmd.sadd != .auth) =
        false := by
      rw [hpass]
      rfl
    have hrow : lookupCommand (lit "sadd") = some ("sadd", .sadd, -3) := by decide
    simp only [saddRequest, request, args, List.map_cons, List.map_nil, route, hrow, hauth]
    rfl
  constructor
  · rintro _ ⟨⟩
    decide +kernel
  · intro name k rest hargv hkeys
    cases hargv
    exact absurd hkeys (by decide)
  · intro name k rest v h hargv hv hkv _
    cases hargv
    obtain rfl : HName.sadd = h := Option.some.inj (Eq.trans (by rfl) hkv)
    have hrec : ((registered "a" 1).find (lit "a")).get (by decide) = v :=
      Option.some.inj (Eq.trans (by rfl) hv)
    subst hrec
    refine ⟨fun f hf => ?_, fun _ _ => by decide, .inl fun j hj => ?_⟩
    · cases hf
    · cases List.mem_singleton.mp hj
      rfl
  · intro h name k rest hargv _ hdirect
    cases hargv
    rw [hroute] at hdirect
    obtain rfl : HName.sadd = h := HName.cmd_injective (Route.direct.inj hdirect).1
    exact ⟨rfl, .inl rfl⟩
  · intro hexec
    rw [hroute] at hexec
    cases hexec

end SchemaUpdate.KVolve
