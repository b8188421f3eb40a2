import SchemaUpdate.Lib.Run
import SchemaUpdate.KVolve.Moved
import SchemaUpdate.KVolve.OneKey
import SchemaUpdate.KVolve.SameKey
import SchemaUpdate.KVolve.System

/-! # The version of a stored value

Which version an object has once the command that stored it is done and the pending
tags are set. The handlers tag the argument object, register a tag for later, or
leave the tag as Redis makes it; where one of these is the current version of the
namespace, the object counts as new. -/

namespace SchemaUpdate.KVolve

open SchemaUpdate.Lib SchemaUpdate.Redis

/-! ## Pending tags -/

def Tagged (d : Nat) (j : Bytes) (w : Int) (s : Store) : Prop :=
  ∃ e, s.get d j = some e ∧ (e.obj.val.isShared = true ∨ e.obj.vers = w)

def NoStale (d : Nat) (j : Bytes) (w : Int) (s : Store) : Prop :=
  ∀ t, s.tmp.lookup j = some (t, d) → t = w

/-- The object has the version, or a pending tag will set it. -/
def WillTag (d : Nat) (j : Bytes) (w : Int) (s : Store) : Prop :=
  ∃ e, s.get d j = some e ∧ (e.obj.val.isShared = true ∨
    ((e.obj.vers = w ∨ s.tmp.lookup j = some (w, d)) ∧ NoStale d j w s))

/-- An entry with another version; a shared integer has none of its own. -/
def retag (vers : Int) (e : Entry) : Entry :=
  if e.obj.val.isShared then e else { e with obj := { e.obj with vers := vers } }

theorem retag_expire (t : Int) (e : Entry) : (retag t e).expire = e.expire := by
  unfold retag
  split <;> rfl

theorem retag_val (t : Int) (e : Entry) : (retag t e).obj.val = e.obj.val := by
  unfold retag
  split <;> rfl

theorem Store.get_setVers (s : Store) (d : Nat) (k : Bytes) (vers : Int) (d' : Nat) (j : Bytes) :
    (s.setVers d k vers).get d' j =
      if d' = d ∧ j = k then (s.get d k).map (retag vers) else s.get d' j := by
  have hsame : s.get d' j = if d' = d ∧ j = k then s.get d k else s.get d' j := by
    split
    · rename_i h
      rw [h.1, h.2]
    · rfl
  unfold Store.setVers
  cases hs : s.get d k with
  | none =>
    rw [hs] at hsame
    exact hsame
  | some e =>
    rw [hs] at hsame
    simp only [Option.map_some, retag]
    split
    · rename_i n hval
      rw [hval]
      exact hsame
    · rename_i hval
      have hsh : e.obj.val.isShared = false := by
        unfold Val.isShared
        split
        · rename_i n heq
          exact absurd heq (hval n)
        · rfl
      rw [Store.get_put, hsh]
      rfl

theorem get_prevcallStep (s : Store) (k : Bytes) (t : Int × Nat) (d : Nat) (j : Bytes) :
    (prevcallStep s k t).get d j =
      if d = t.2 ∧ j = k then (s.get t.2 k).map (retag t.1) else s.get d j := by
  rw [← Store.get_setVers]
  unfold prevcallStep Store.setVers
  cases s.get t.2 k <;> rfl

variable {d : Nat} {j : Bytes} {s : Store} {now : Int} {k : Arg} {steps : List Step}
    {combine : List Reply → Reply}

theorem Tagged.foldl {w : Int} {l : List (Sigma fun _ : Bytes => Int × Nat)} {e : Entry}
    (he : s.get d j = some e) (h : e.obj.val.isShared = true ∨ ((e.obj.vers = w ∨ ⟨j, (w, d)⟩ ∈ l) ∧
      ∀ t, ⟨j, (t, d)⟩ ∈ l → t = w)) :
    Tagged d j w (l.foldl (fun s p => prevcallStep s p.1 p.2) s) := by
  induction l generalizing s e with
  | nil =>
    refine ⟨e, he, h.imp_right fun h => ?_⟩
    rcases h.1 with hv | hmem
    · exact hv
    · cases hmem
  | cons p l ih =>
    obtain ⟨k, t, d'⟩ := p
    rw [List.foldl_cons]
    have hget := get_prevcallStep s k (t, d') d j
    by_cases hslot : d = d' ∧ j = k
    · obtain ⟨rfl, rfl⟩ := hslot
      rw [if_pos ⟨rfl, rfl⟩] at hget
      simp only [he, Option.map_some] at hget
      refine ih hget ?_
      unfold retag
      split
      · rename_i hsh
        exact .inl hsh
      · rename_i hsh
        have hall := (h.resolve_left hsh).2
        exact .inr ⟨.inl (hall t (by simp)), fun t' ht' => hall t' (List.mem_cons_of_mem _ ht')⟩
    · rw [if_neg hslot] at hget
      refine ih (hget.trans he) (h.imp_right fun h => ⟨h.1.imp_right fun hmem => ?_, fun t' ht' =>
        h.2 t' (List.mem_cons_of_mem _ ht')⟩)
      rcases List.mem_cons.mp hmem with heq | hmem
      · cases heq
        exact absurd ⟨rfl, rfl⟩ hslot
      · exact hmem

theorem WillTag.prevcall {w : Int} (h : WillTag d j w s) : Tagged d j w (prevcallCheck s) := by
  obtain ⟨e, he, h⟩ := h
  refine Tagged.foldl he (h.imp_right fun h => ?_)
  exact ⟨h.1.imp_right fun hl => AList.mem_lookup_iff.mp hl,
    fun t ht => h.2 t (AList.mem_lookup_iff.mpr ht)⟩

/-! ## Where a command stores -/

/-- The supported commands that store a value. -/
def HName.stores : HName → Bool
  | .set | .setnx | .mset | .getset | .incr | .incrby => true
  | .sadd | .zadd | .lpush | .rpush | .hset | .hmset => true
  | _ => false

def Stores : Act → Bool
  | .modify _ | .create _ | .overwrite _ | .assign _ _ => true
  | _ => false

/-- The keys at which the steps of a command store a value. -/
def storedKeys (now : Int) : List Step → Db → List Bytes
  | [], _ => []
  | st :: l, db =>
    let rest := storedKeys now l (st.exec now db).2
    if Stores (st.outcome now db).2 then st.key :: rest else rest

theorem storedKeys_one {st : Step} {db : Db} (hj : j ∈ storedKeys now [st] db) :
    j = st.key ∧ Stores (st.outcome now db).2 = true := by
  simp only [storedKeys] at hj
  split at hj
  · rename_i h
    exact ⟨List.mem_singleton.mp hj, h⟩
  · cases hj

/-! ## Moving a string -/

/-- What stands under the key once a value under its previous name has been moved. -/
def brought (env : Env) (v : VersionHash) (k : Bytes) (s : Store) : Option Entry :=
  if s.has env.d k then s.get env.d k
  else if env.d = 0 then
    ((v.prevNs.bind (constructPrevName k)).bind (s.get 0)).filter (·.alive env.now)
  else none

section Brought

variable {env : Env} {v : VersionHash} {k : Bytes} {s s' : Store}

theorem Store.get_of_has (h : s.has env.d k = false) : s.get env.d k = none := by
  simpa [Store.has] using h

theorem brought_has (h : s.has env.d k = true) : brought env v k s = s.get env.d k := by
  rw [brought, if_pos h]

theorem brought_absent (h : Absent env v k s) : brought env v k s = none := by
  unfold brought
  rw [if_neg (by simp [h.has])]
  split
  · rename_i hd
    cases hprev : v.prevNs.bind (constructPrevName k) with
    | none => rfl
    | some old =>
      cases hold : s.get 0 old with
      | none => rw [Option.bind_some, hold]; rfl
      | some e =>
        -- a value under the previous name would have been found
        have hhas : s.has env.d old = true := by
          rw [Store.has, hd, hold]
          rfl
        have hfound := getDbVal_previous hprev h.has hhas
        unfold Absent at h
        rw [h] at hfound
        cases hfound
  · rfl

theorem namespaceUpdate_brought (hk : s.has env.d k = false)
    (h : namespaceUpdate env v k s = .ok s') :
    s'.get env.d k = brought env v k s ∧ s'.tmp = s.tmp := by
  have hnone := Store.get_of_has hk
  unfold namespaceUpdate at h
  rw [if_neg (by simp [hk])] at h
  split at h
  · cases h
  · rename_i old hprev
    cases h
    refine ⟨?_, Store.rename_tmp ..⟩
    unfold brought
    rw [if_neg (by simp [hk]), hprev, Option.bind_some]
    split
    · rename_i hd
      rw [hd] at hnone ⊢
      unfold Store.rename
      split
      · rename_i heq
        rw [heq, hnone]
        rfl
      · rename_i hne
        cases hold : s.get 0 old with
        | none => exact hnone
        | some e =>
          simp only [Option.filter]
          split
          · rw [Store.get_put_ne _ _ _ _ (Ne.symm hne), Store.get_put_self]
          · rw [Store.get_put_ne _ _ _ _ (Ne.symm hne), hnone]
    · rename_i hd
      rw [Store.get, Store.rename_dbs_ne _ _ _ _ hd]
      exact hnone

theorem setnxKey_brought (h : setnxKey env v k s = .ok s') :
    s'.get env.d k = brought env v k s ∧ s'.tmp = s.tmp := by
  unfold setnxKey at h
  split at h
  · rename_i hk
    cases h
    exact ⟨(brought_has hk).symm, rfl⟩
  · rename_i hk
    have hk : s.has env.d k = false := by simpa using hk
    obtain ⟨found, hfound, h⟩ := bind_eq_ok.mp h
    cases found with
    | none =>
      cases h
      rw [brought_absent hfound]
      exact ⟨Store.get_of_has hk, rfl⟩
    | some loc => exact namespaceUpdate_brought hk h

theorem incrKey_brought (h : incrKey env v k s = .ok s') :
    s'.get env.d k = brought env v k s ∧ s'.tmp = s.tmp := by
  unfold incrKey at h
  split at h
  · rename_i hprev
    cases h
    refine ⟨?_, rfl⟩
    cases hk : s.has env.d k with
    | true => exact (brought_has hk).symm
    | false => simp [brought, hk, hprev, Store.get_of_has hk]
  · obtain ⟨found, hfound, h⟩ := bind_eq_ok.mp h
    cases hk : s.has env.d k with
    | true =>
      rw [getDbVal_has hk] at hfound
      cases hfound
      rw [namespaceUpdate_has hk] at h
      cases h
      exact ⟨(brought_has hk).symm, rfl⟩
    | false =>
      cases found with
      | none =>
        cases h
        rw [brought_absent hfound]
        exact ⟨Store.get_of_has hk, rfl⟩
      | some loc => exact namespaceUpdate_brought hk h

theorem setKeyOld_tmp (h : setKeyOld env v k s = .ok s') : s'.tmp = s.tmp := by
  rw [setKeyOld_eq] at h
  split at h
  · obtain ⟨found, -, h⟩ := bind_eq_ok.mp h
    cases found <;> cases h <;> rfl
  · cases h
    rfl

variable {out : List Arg × Store} {l : List Arg}

theorem msetLoop_tmp (h : msetLoop env v l s = .ok out) : out.2.tmp = s.tmp := by
  induction l using evenArgs.induct generalizing s out with
  | case1 k val rest ih =>
    rw [msetLoop] at h
    obtain ⟨s₁, hs₁, h⟩ := bind_eq_ok.mp h
    obtain ⟨p, hp, h⟩ := bind_eq_ok.mp h
    cases h
    exact (ih hp).trans (setKeyOld_tmp hs₁)
  | case2 l hne =>
    unfold msetLoop at h
    split at h
    · exact absurd rfl (hne _ _ _)
    · cases h
      rfl

theorem set_tmp {h : HName} (hset : h = .set ∨ h = .mset) {cu : CheckUpdate}
    (hok : h.run cu env v l s = .ok out) : out.2.tmp = s.tmp := by
  rcases hset with rfl | rfl
  · simp only [HName.run, kvolveSet] at hok
    split at hok
    · split at hok
      · obtain ⟨s', hs', hok⟩ := bind_eq_ok.mp hok
        cases hok
        exact (setnxKey_brought hs').2
      · split at hok
        · obtain ⟨s', hs', hok⟩ := bind_eq_ok.mp hok
          cases hok
          exact (setnxKey_brought hs').2
        · obtain ⟨s', hs', hok⟩ := bind_eq_ok.mp hok
          cases hok
          exact setKeyOld_tmp hs'
    · cases hok
  · simp only [HName.run, kvolveMset] at hok
    split at hok
    · cases hok
    · exact msetLoop_tmp hok

end Brought

/-! ## When the version fits -/

/-- The value is stored as a shared integer. -/
def SharesInt (cfg : Cfg) (b : Bytes) : Prop := (Val.str (tryObjectEncoding cfg b)).isShared = true

/-- The counter is stored, if at all, as a shared integer. -/
def CountsShared (n : Int) (cur : Option Val) : Prop :=
  ∀ x, (incrDecrProc n cur).2 = .create x ∨ (incrDecrProc n cur).2 = .overwrite x →
    x.isShared = true

def liveVal (now : Int) (o : Option Entry) : Option Val :=
  (o.filter (·.alive now)).map (·.obj.val)

/-- The kind of container a command is for. -/
def HName.kind : HName → UType
  | .sadd => .set
  | .zadd => .zset
  | .lpush | .rpush => .list
  | .hset | .hmset => .hash
  | _ => .string

/-- A live value of the key, under its own name or behind a change of namespace, which the
handler `h` brings to the key and leaves with the property `P`. -/
def Held (h : HName) (env : Env) (v : VersionHash) (k : Bytes) (rest : List Bytes) (s : Store)
    (P : Entry → Prop) : Prop :=
  Quiet v ∧ ((∃ e, s.get env.d k = some e ∧ e.alive env.now = true ∧ P e) ∨
    ∃ old e, Behind env v k old e s ∧ Moves h env v (args rest) e s ∧ P e)

/-- Sorted sets that are no ziplists are passed over by the migration. -/
def PassedOver (cfg : Cfg) (v : VersionHash) (e : Entry) : Prop :=
  utypeOf e.obj.val = .zset ∧ ziplistEntries cfg e.obj.val = none ∧ e.obj.vers ≠ v.cur

/-- What the command `h` stores at `k`, if anything, is a shared integer or gets the current
version: the handler tags it, or the version Redis gives it happens to be the current one, or a
tag is registered for a container that is new, or the container is there and is migrated. -/
def Fits (h : HName) (env : Env) (v : VersionHash) (k : Bytes) (rest : List Bytes) (s : Store) :
    Prop :=
  let zero := v.cur = 0 ∧ NoStale env.d k v.cur s
  match h, rest with
  | .set, b :: opts =>
    SharesInt env.cfg b ∨
      if getFlags (args opts) = (true, false) then
        zero ∨ ((liveVal env.now (brought env v k s)).isSome = true ∧
          ∀ o, parseSetOpts {} opts = some o → o.nx = true)
      else NoStale env.d k v.cur s
  | .setnx, b :: _ =>
    SharesInt env.cfg b ∨ zero ∨ (liveVal env.now (brought env v k s)).isSome = true
  | .getset, b :: _ =>
    SharesInt env.cfg b ∨ (Quiet v ∧ zero) ∨
      Held h env v k rest s fun e => utypeOf e.obj.val ≠ .string
  | .incr, _ => zero ∨ CountsShared 1 (liveVal env.now (brought env v k s))
  | .incrby, n :: _ =>
    zero ∨ ∀ i, strtoll n = some i → CountsShared i (liveVal env.now (brought env v k s))
  | _, _ =>
    h.creates = true → (Absent env v k s ∧ NulFree k) ∨
      (NoStale env.d k v.cur s ∧ Held h env v k rest s fun e => ¬ PassedOver env.cfg v e)

def PairsFit (cfg : Cfg) (d : Nat) (vers : Int) (s : Store) : List Bytes → Prop
  | k :: b :: rest =>
    (SharesInt cfg b ∨ ∀ w, versionHashLookup s.reg k = some w →
      w.cur = vers ∧ NoStale d k vers s) ∧ PairsFit cfg d vers s rest
  | _ => True

/-! ## One step -/

section Step

variable {now : Int} {d : Nat} {st : Step} {s : Store} {w : Int}

theorem willTag_one {e : Entry}
    (he : (st.outcome now (s.dbs d)).2.apply st.tag (liveEntry now (s.dbs d) st.key) = some e)
    (h : e.obj.val.isShared = true ∨
      ((e.obj.vers = w ∨ s.tmp.lookup st.key = some (w, d)) ∧ NoStale d st.key w s)) :
    WillTag d st.key w (s.setDb d (execSteps now [st] (s.dbs d)).2) := by
  refine ⟨e, ?_, h⟩
  rw [Store.get, Store.setDb_dbs_self, execSteps, execSteps, Step.lookup_exec, if_pos rfl, he]

theorem willTag_assign {x : Str} {y : Option Int}
    (hact : (st.outcome now (s.dbs d)).2 = .assign (.str x) y)
    (h : (Val.str x).isShared = true ∨ (st.tag = w ∧ NoStale d st.key w s)) :
    WillTag d st.key w (s.setDb d (execSteps now [st] (s.dbs d)).2) := by
  refine willTag_one (by rw [hact]; rfl) ?_
  simp only
  by_cases hsh : (Val.str x).isShared = true
  · exact .inl hsh
  · rw [if_neg hsh]
    exact .inr ⟨.inl (h.resolve_left hsh).1, (h.resolve_left hsh).2⟩

theorem willTag_made {x : Val} (hact : (st.outcome now (s.dbs d)).2 = .create x ∨
      (st.outcome now (s.dbs d)).2 = .overwrite x)
    (h : x.isShared = true ∨
      ((w = 0 ∨ s.tmp.lookup st.key = some (w, d)) ∧ NoStale d st.key w s)) :
    WillTag d st.key w (s.setDb d (execSteps now [st] (s.dbs d)).2) := by
  rcases hact with hact | hact
  · refine willTag_one (by rw [hact]; rfl) ?_
    exact h.imp_right fun h => ⟨h.1.imp_left Eq.symm, h.2⟩
  · refine willTag_one (by rw [hact]; rfl) ?_
    exact h.imp_right fun h => ⟨h.1.imp_left Eq.symm, h.2⟩

theorem liveEntry_eq (o : Option Entry) (ho : s.get d st.key = o) :
    (liveEntry now (s.dbs d) st.key).map (·.obj.val) = liveVal now o := by
  rw [liveVal, ← ho]
  rfl

end Step

/-! ## Strings -/

theorem setProc_stores {nx xx : Bool} {x : Str} {when : Option Int} {r r' : Reply}
    {cur : Option Val} (h : Stores (setProc nx xx x when r r' cur).2 = true) :
    (setProc nx xx x when r r' cur).2 = .assign (.str x) when ∧ (nx = true → cur = none) := by
  unfold setProc at h ⊢
  split
  · rename_i hc
    rw [if_pos hc] at h
    cases h
  · rename_i hc
    refine ⟨rfl, fun hnx => ?_⟩
    simp only [hnx, Bool.true_and, Bool.or_eq_true, not_or] at hc
    simpa using hc.1

variable {cfg : Cfg}

theorem setCommand_run {b : Arg} {opts : List Arg}
    (h : setCommand cfg now k b opts = .run steps combine) :
    ∃ o when, parseSetOpts {} (opts.map (·.ptr)) = some o ∧ steps = [⟨k.ptr, b.vers,
      setProc o.nx o.xx (tryObjectEncoding cfg b.ptr) when ok [.nullBulk]⟩] := by
  unfold setCommand at h
  split at h
  · cases h
  · rename_i o ho
    simp only at h
    split at h
    · cases h
      exact ⟨o, none, ho, rfl⟩
    · unfold withLongLong at h
      split at h
      · rename_i ms _
        by_cases hms : ms ≤ 0
        · simp only [if_pos hms] at h
          cases h
        · simp only [if_neg hms] at h
          cases h
          exact ⟨o, _, ho, rfl⟩
      · cases h

theorem getsetCommand_stores (cur : Option Val) {b : Arg}
    (h : getsetCommand cfg k b = .run steps combine) :
    ∃ p, steps = [⟨k.ptr, b.vers, p⟩] ∧ (Stores (p cur).2 = true →
      (p cur).2 = .assign (.str (tryObjectEncoding cfg b.ptr)) none ∧
        ∀ x, cur = some x → utypeOf x = .string) := by
  cases h
  refine ⟨_, rfl, fun hst => ?_⟩
  simp only at hst ⊢
  cases cur with
  | none => exact ⟨rfl, fun _ h => by cases h⟩
  | some x =>
    cases x with
    | str o => exact ⟨by simp [getProc, wrongtypeerr], fun _ h => by cases h; rfl⟩
    | _ => simp [getProc, Stores] at hst

theorem incrDecrProc_stores {n : Int} {cur : Option Val}
    (h : Stores (incrDecrProc n cur).2 = true) :
    ∃ x, (incrDecrProc n cur).2 = .create x ∨ (incrDecrProc n cur).2 = .overwrite x := by
  unfold incrDecrProc at h ⊢
  split at h
  · cases h
  · cases h
  · cases h
  · cases h
  · exact ⟨_, .inl rfl⟩
  · split at h
    · cases h
    · split at h
      · cases h
      · rename_i hov
        rw [if_neg hov]
        exact ⟨_, .inr rfl⟩

section Strings

variable {env : Env} {v : VersionHash} {k : Bytes} {rest : List Bytes} {s : Store} {a : List Arg}
  {s' : Store} {steps : List Step} {combine : List Reply → Reply} {j : Bytes}

theorem args_ptr (l : List Bytes) : (args l).map (·.ptr) = l := by simp [args, Function.comp_def]

theorem NoStale.congr {d : Nat} {j : Bytes} {w : Int} {s s' : Store} (h : NoStale d j w s)
    (htmp : s'.tmp = s.tmp) : NoStale d j w s' := by
  unfold NoStale
  rw [htmp]
  exact h

/-- What is stored under a key by one step is tagged, as far as the key is concerned. -/
def TagsKey (env : Env) (k : Bytes) (w : Int) (steps : List Step) (s' : Store) : Prop :=
  ∀ j ∈ storedKeys env.now steps (s'.dbs env.d), j = k ∧
    WillTag env.d k w (s'.setDb env.d (execSteps env.now steps (s'.dbs env.d)).2)

/-- `SET` tags the key with the current version. -/
theorem set_fits (hok : HName.set.run checkUpdateKvPair env v (args (k :: rest)) s = .ok (a, s'))
    (hfit : Fits .set env v k rest s)
    (hplan : plan env.cfg env.now env.rand .set a = some (.run steps combine)) :
    TagsKey env k v.cur steps s' := by
  intro j hj
  have ha := set_args (.inl rfl) hok
  have htmp : s'.tmp = s.tmp := set_tmp (.inl rfl) hok
  cases rest with
  | nil => cases hok
  | cons b opts =>
    change a = if (getFlags (args opts)).1 && !(getFlags (args opts)).2 then
      args (k :: b :: opts) else ⟨k, 0⟩ :: ⟨b, v.cur⟩ :: args opts at ha
    by_cases hnx : getFlags (args opts) = (true, false)
    · rw [hnx] at ha
      subst ha
      obtain ⟨o, when, ho, rfl⟩ := setCommand_run (Option.some.inj hplan)
      rw [← args, args_ptr] at ho
      obtain ⟨hjk, hst⟩ := storedKeys_one hj
      obtain ⟨hact, hcur⟩ := setProc_stores hst
      refine ⟨hjk, willTag_assign hact ?_⟩
      refine hfit.imp_right fun hfit => ?_
      rw [if_pos hnx] at hfit
      rcases hfit with ⟨hzero, hclear⟩ | ⟨hlive, hopt⟩
      · exact ⟨hzero.symm, hclear.congr htmp⟩
      · -- the key is there, so `NX` stores nothing
        have hmove : setnxKey env v k s = .ok s' := by
          simp only [HName.run, kvolveSet, args, List.map_cons] at hok
          rw [← args, hnx] at hok
          obtain ⟨s₁, hs₁, hok⟩ := bind_eq_ok.mp hok
          cases hok
          exact hs₁
        have hnone := hcur (hopt o ho)
        rw [liveEntry_eq _ (setnxKey_brought hmove).1] at hnone
        rw [hnone] at hlive
        cases hlive
    · have hflags : ((getFlags (args opts)).1 && !(getFlags (args opts)).2) = false := by
        cases h₁ : (getFlags (args opts)).1 <;> cases h₂ : (getFlags (args opts)).2 <;>
          first | rfl | exact absurd (Prod.ext h₁ h₂) hnx
      rw [hflags] at ha
      subst ha
      obtain ⟨o, when, -, rfl⟩ := setCommand_run (Option.some.inj hplan)
      obtain ⟨hjk, hst⟩ := storedKeys_one hj
      refine ⟨hjk, willTag_assign (setProc_stores hst).1 ?_⟩
      refine hfit.imp_right fun hfit => ?_
      rw [if_neg hnx] at hfit
      exact ⟨rfl, hfit.congr htmp⟩

theorem setnx_fits
    (hok : HName.setnx.run checkUpdateKvPair env v (args (k :: rest)) s = .ok (a, s'))
    (hfit : Fits .setnx env v k rest s)
    (hplan : plan env.cfg env.now env.rand .setnx a = some (.run steps combine)) :
    TagsKey env k v.cur steps s' := by
  intro j hj
  obtain ⟨p, hp, hok⟩ := bind_eq_ok.mp hok
  obtain ⟨s₁, hs₁, hp⟩ := bind_eq_ok.mp hp
  cases hp
  cases hok
  obtain ⟨hget, htmp⟩ := setnxKey_brought hs₁
  match rest, hplan with
  | [b], hplan =>
    cases hplan
    obtain ⟨hjk, hst⟩ := storedKeys_one hj
    obtain ⟨hact, hcur⟩ := setProc_stores hst
    refine ⟨hjk, willTag_assign hact ?_⟩
    refine hfit.imp_right fun hfit => ?_
    rcases hfit with ⟨hzero, hclear⟩ | hlive
    · exact ⟨hzero.symm, hclear.congr htmp⟩
    · have hnone := hcur rfl
      rw [liveEntry_eq _ hget] at hnone
      rw [hnone] at hlive
      cases hlive

theorem incr_fits {h : HName} (hn : h = .incr ∨ h = .incrby)
    (hok : h.run checkUpdateKvPair env v (args (k :: rest)) s = .ok (a, s'))
    (hfit : Fits h env v k rest s)
    (hplan : plan env.cfg env.now env.rand h.cmd a = some (.run steps combine)) :
    TagsKey env k v.cur steps s' := by
  intro j hj
  have hrun : kvolveIncr checkUpdateKvPair env v (args (k :: rest)) s = .ok (a, s') := by
    rcases hn with rfl | rfl
    · exact hok
    · exact hok
  obtain ⟨p, hp, hrun⟩ := bind_eq_ok.mp hrun
  obtain ⟨s₁, hs₁, hp⟩ := bind_eq_ok.mp hp
  cases hp
  cases hrun
  obtain ⟨hget, htmp⟩ := incrKey_brought hs₁
  have hone : ∃ n, steps = [⟨k, 0, incrDecrProc n⟩] ∧
      ((v.cur = 0 ∧ NoStale env.d k v.cur s) ∨
        CountsShared n (liveVal env.now (brought env v k s))) := by
    rcases hn with rfl | rfl
    · match rest, hplan with
      | [], hplan =>
        cases hplan
        exact ⟨1, rfl, hfit⟩
    · match rest, hplan with
      | [n], hplan =>
        have hplan := Option.some.inj hplan
        unfold incrbyCommand withLongLong at hplan
        split at hplan
        · rename_i i hi
          cases hplan
          exact ⟨i, rfl, Or.imp_right (fun hall => hall i hi) hfit⟩
        · cases hplan
  obtain ⟨n, rfl, hfit⟩ := hone
  obtain ⟨hjk, hst⟩ := storedKeys_one hj
  obtain ⟨x, hact⟩ := incrDecrProc_stores hst
  refine ⟨hjk, willTag_made hact ?_⟩
  rcases hfit with ⟨hzero, hclear⟩ | hshared
  · exact .inr ⟨.inl hzero, hclear.congr htmp⟩
  · rw [liveEntry_eq _ hget] at hact
    exact .inl (hshared x hact)

end Strings

/-! ## Values that are there -/

section Held

variable {env : Env} {v : VersionHash} {k : Bytes} {rest : List Bytes} {s : Store} {h : HName}
  {P : Entry → Prop} {s' : Store}

theorem Held.own (hh : Held h env v k rest s P) :
    ∃ s₁ e, s₁.get env.d k = some e ∧ e.alive env.now = true ∧ P e ∧ s₁.tmp = s.tmp ∧
      h.run checkUpdateKvPair env v (args (k :: rest)) s =
        h.run checkUpdateKvPair env v (args (k :: rest)) s₁ := by
  obtain ⟨-, ⟨e, he, ha, hP⟩ | ⟨old, e, hb, hm, hP⟩⟩ := hh
  · exact ⟨s, e, he, ha, hP, rfl, rfl⟩
  · exact ⟨s.rename env.now old k, e, hb.get_moved, hb.alive, hP, Store.rename_tmp ..,
      Behind.run (k := ⟨k, 0⟩) hb hm⟩

theorem isShared_of_kind {x : Val} (h : utypeOf x ≠ .string) : x.isShared = false := by
  cases x with
  | str o => exact absurd rfl h
  | _ => rfl

theorem Quiet.run_keeps (hq : Quiet v) {e : Entry} {l : List Arg} {out : List Arg × Store}
    (hname : h ≠ .keys ∧ h ≠ .set ∧ h ≠ .mset) (hks : ∀ j ∈ h.keysOf l, j = k)
    (hs : s.get env.d k = some e) (hsh : e.obj.val.isShared = false)
    (hok : h.run checkUpdateKvPair env v l s = .ok out) :
    ∃ e', out.2.get env.d k = some e' ∧ e'.expire = e.expire ∧
      utypeOf e'.obj.val = utypeOf e.obj.val ∧ out.2.tmp = s.tmp := by
  obtain ⟨out', hok', hrel⟩ := (hq.run_oneKey hname hks hs hs hsh).of_ok hok
  cases hrel with
  | mk hone =>
    obtain ⟨e', he', -, hkeeps⟩ := hone.entry
    obtain ⟨hx, hkind, -⟩ := hkeeps e' rfl
    exact ⟨e', he', hx, hkind, hone.left.tmp⟩

theorem liveEntry_alive {now : Int} {d : Nat} {e : Entry} (he : s.get d k = some e)
    (ha : e.alive now = true) : liveEntry now (s.dbs d) k = some e := by
  rw [liveEntry, ← Store.get, he, Option.filter, if_pos ha]

theorem Quiet.tmp_closed (hq : Quiet v) (env : Env)
    (tmp : AList fun _ : Bytes => Int × Nat) :
    AClosed checkUpdateKvPair (updRedisCall env) env v (fun _ => True)
      (Same fun t => t.tmp = tmp) := by
  have hcl : Closed (updRedisCall env) env v (fun _ => True) (Same fun t => t.tmp = tmp)
      (Same fun t => t.tmp = tmp) :=
    { weak := fun h => h
      settle := fun h _ _ => h
      get := by rintro s t k ⟨rfl, -⟩ -; rfl
      put₀ := by rintro s t k ⟨rfl, hs⟩ - x; exact ⟨rfl, hs⟩
      put := by rintro s t k ⟨rfl, hs⟩ - e; exact ⟨rfl, hs⟩
      shared := by rintro s t ⟨rfl, hs⟩ n x; exact ⟨rfl, hs⟩
      walk := by rintro s t k ⟨rfl, -⟩ -; rfl
      found := fun _ _ _ => trivial
      vers := by rintro s t k e ⟨rfl, -⟩ - - -; rfl
      move := by
        rintro s₁ t k ⟨rfl, hs⟩ -
        exact relRes_same fun s₂ hok => (namespaceUpdate_kept hok).2.trans hs
      keys := .inl fun _ => trivial
      calls := .inr fun f hf key a => (hq f hf key a).2 }
  exact
    { toCarried := hcl.carried
      cu := hcl.carried.checkUpdateKvPair
      versAll := by rintro s t k e ⟨rfl, -⟩ - -; rfl }

theorem Quiet.getKey_tmp (hq : Quiet v) {out : Bytes × Store}
    (hok : getKey checkUpdateKvPair env v k s = .ok out) : out.2.tmp = s.tmp := by
  have hsame : Same (fun t : Store => t.tmp = s.tmp) s s := ⟨rfl, rfl⟩
  obtain ⟨q, -, -, hpq⟩ := ((hq.tmp_closed env s.tmp).getKey hsame trivial).of_ok hok
  exact hpq.2

end Held

theorem getset_fits {env : Env} {v : VersionHash} {k : Bytes} {rest : List Bytes} {s' : Store}
    {a : List Arg}
    (hok : HName.getset.run checkUpdateKvPair env v (args (k :: rest)) s = .ok (a, s'))
    (hfit : Fits .getset env v k rest s)
    (hplan : plan env.cfg env.now env.rand .getset a = some (.run steps combine)) :
    TagsKey env k v.cur steps s' ∨ ∀ j ∈ storedKeys env.now steps (s'.dbs env.d), ∀ w,
      WillTag env.d j w (s'.setDb env.d (execSteps env.now steps (s'.dbs env.d)).2) := by
  have hrun := hok
  obtain ⟨⟨k', s₁⟩, hkey, hok⟩ := bind_eq_ok.mp hok
  cases hok
  match rest, hplan with
  | [b], hplan =>
    obtain ⟨p, rfl, hstores⟩ := getsetCommand_stores
      ((liveEntry env.now (s'.dbs env.d) k').map (·.obj.val)) (Option.some.inj hplan)
    rcases hfit with hsh | ⟨hq, hzero, hclear⟩ | hheld
    · refine .inr fun j hj w => ?_
      obtain ⟨rfl, hst⟩ := storedKeys_one hj
      exact willTag_assign (hstores hst).1 (.inl hsh)
    · refine .inl fun j hj => ?_
      obtain ⟨hjk, hst⟩ := storedKeys_one hj
      obtain rfl : k' = k := hq.getKey_key hkey
      exact ⟨hjk, willTag_assign (hstores hst).1
        (.inr ⟨hzero.symm, hclear.congr (hq.getKey_tmp hkey)⟩)⟩
    · -- the value is a container, which `GETSET` refuses
      refine .inl fun j hj => ?_
      obtain ⟨hjk, hst⟩ := storedKeys_one hj
      have hq := hheld.1
      obtain rfl : k' = k := hq.getKey_key hkey
      obtain ⟨s₁, e, he, ha, hkind, -, hsame⟩ := hheld.own
      rw [hsame] at hrun
      obtain ⟨e', he', hx, hkind', -⟩ := hq.run_keeps (by decide)
        (fun j hj => by simpa [HName.keysOf, args] using hj) he (isShared_of_kind hkind) hrun
      have hlive := liveEntry_alive he' ((Entry.alive_congr hx.symm _).trans ha)
      rw [hlive] at hstores
      exact absurd ((hstores (by rw [← hlive]; exact hst)).2 _ rfl) (hkind' ▸ hkind)

/-! ## Containers -/

theorem pushProc_tame (cfg : Cfg) (head : Bool) (vs : List Bytes) (cur : Option Val) :
    Tame cur (pushProc cfg head vs cur).2 := by
  unfold pushProc
  split
  · simp only [storeList]
    split
    · trivial
    · exact ⟨rfl, rfl⟩
  · exact storeList_tame _ _ _
  · trivial

theorem plan_creates {h : HName} (hc : h.creates = true) {rand : Nat} {rest : List Arg}
    (hplan : plan cfg now rand h.cmd (k :: rest) = some (.run steps combine)) :
    ∃ p, steps = [⟨k.ptr, 0, p⟩] ∧ (∀ cur, Tame cur (p cur).2) ∧
      ∀ y, utypeOf y ≠ h.kind → (p (some y)).2 = .keep := by
  have hset : ∀ vs y, utypeOf y ≠ .set → (saddProc cfg vs (some y)).2 = .keep := by
    intro vs y hy
    cases y <;> first | rfl | exact absurd rfl hy
  have hlist : ∀ head vs y, utypeOf y ≠ .list → (pushProc cfg head vs (some y)).2 = .keep := by
    intro head vs y hy
    cases y <;> first | rfl | exact absurd rfl hy
  have hhash : ∀ fvs reply y, utypeOf y ≠ .hash → (hsetProc cfg fvs reply (some y)).2 = .keep := by
    intro fvs reply y hy
    cases fvs <;> cases y <;> first | rfl | exact absurd rfl hy
  have hzset : ∀ l y, utypeOf y ≠ .zset → (zaddProc cfg l (some y)).2 = .keep := by
    intro l y hy
    cases y <;> first | rfl | exact absurd rfl hy
  cases h with
  | sadd =>
    match rest, hplan with
    | v :: vs, hplan =>
      cases hplan
      exact ⟨_, rfl, saddProc_tame _ _, hset _⟩
  | lpush | rpush =>
    match rest, hplan with
    | v :: vs, hplan =>
      cases hplan
      exact ⟨_, rfl, pushProc_tame _ _ _, hlist _ _⟩
  | hset =>
    match rest, hplan with
    | [f, b], hplan =>
      cases hplan
      exact ⟨_, rfl, hsetProc_tame _ _ _, hhash _ _⟩
  | hmset =>
    match rest, hplan with
    | f :: b :: more, hplan =>
      have hplan := Option.some.inj hplan
      unfold hmsetCommand at hplan
      split at hplan
      · cases hplan
      · cases hplan
        exact ⟨_, rfl, hsetProc_tame _ _ _, hhash _ _⟩
  | zadd =>
    match rest, hplan with
    | f :: b :: more, hplan =>
      have hplan := Option.some.inj hplan
      unfold zaddCommand at hplan
      split at hplan
      · cases hplan
      · split at hplan
        · cases hplan
        · cases hplan
          exact ⟨_, rfl, zaddProc_tame _ _, hzset _⟩
  | _ => cases hc

section Containers

variable {env : Env} {v : VersionHash} {k : Bytes} {rest : List Bytes} {s s' : Store} {h : HName}
  {a : List Arg} {e : Entry}

theorem updateAll_string {loop : Int → Val → LSt → Option (Res LSt)} {o : Str}
    (hs : s.get env.d k = some e) (ho : e.obj.val = .str o)
    (hloop : ∀ vers st, loop vers (.str o) st = none ∨ loop vers (.str o) st = some (.error .panic))
    {out : Int × Bytes × Store} (hok : updateAll env v k s loop = .ok out) :
    out = (0, k, s) := by
  unfold updateAll at hok
  simp only [getDbVal_has (Store.has_of_get hs), ok_bind, deref, hs, ho] at hok
  split at hok
  · cases hok
    rfl
  · rcases hloop (s.vers e.obj) ⟨true, k, k, s⟩ with hnone | herr
    · simp only [hnone] at hok
      cases hok
      rfl
    · simp only [herr] at hok
      cases hok

theorem creates_all (hc : h.creates = true) :
    ∃ all, h.run = creating all ∧ ∀ {env : Env} {v : VersionHash} {k : Bytes} {s : Store},
      ∃ loop, all checkUpdateKvPair env v k s = updateAll env v k s loop ∧
        (∀ o vers st, loop vers (.str o) st = none ∨ loop vers (.str o) st = some (.error .panic)) ∧
        (∀ vers x st, loop vers x st = none → h = .zadd ∧ ziplistEntries env.cfg x = none) ∧
        ∀ L R, AClosed checkUpdateKvPair (updRedisCall env) env v L R → LoopRel L R loop := by
  have helems : ∀ (type : UType) (gather : Val → Res (List Elem))
      (_ : ∀ o, gather (.str o) = .error .panic) (env : Env) (v : VersionHash),
      let loop : Int → Val → LSt → Option (Res LSt) := fun _ val st =>
        some (elemsLoop checkUpdateKvPair env v type gather val st)
      (∀ o vers st, loop vers (.str o) st = none ∨ loop vers (.str o) st = some (.error .panic)) ∧
        (∀ vers x st, loop vers x st = none → h = .zadd ∧ ziplistEntries env.cfg x = none) ∧
        ∀ L R, AClosed checkUpdateKvPair (updRedisCall env) env v L R → LoopRel L R loop := by
    intro type gather hstr env v
    refine ⟨fun o vers st => .inr ?_, fun vers x st hn => by simp at hn, fun L R hR =>
      hR.elemsLoop type gather⟩
    simp only [elemsLoop, hstr]
    rfl
  cases h with
  | sadd => exact ⟨updateAllSet, rfl, ⟨_, rfl, helems .set _ (fun _ => rfl) _ _⟩⟩
  | lpush | rpush =>
    exact ⟨updateAllList, rfl, ⟨_, rfl, helems .list _ (fun _ => rfl) _ _⟩⟩
  | hset | hmset =>
    exact ⟨updateAllHash, rfl, ⟨_, rfl, helems .hash _ (fun _ => rfl) _ _⟩⟩
  | zadd =>
    refine ⟨updateAllZset, rfl, ⟨_, rfl, fun o vers st => .inl rfl, fun vers x st hn => ?_,
      fun L R hR => hR.slotsLoop⟩⟩
    exact ⟨rfl, Option.map_eq_none_iff.mp hn⟩
  | _ => cases hc

theorem Quiet.creates_cur (hq : Quiet v) (hc : h.creates = true) (hs : s.get env.d k = some e)
    (hkind : utypeOf e.obj.val = h.kind) (hpass : ¬ PassedOver env.cfg v e)
    (hok : h.run checkUpdateKvPair env v (args (k :: rest)) s = .ok (a, s')) :
    ∃ e', s'.get env.d k = some e' ∧ e'.obj.vers = v.cur := by
  have hne : utypeOf e.obj.val ≠ .string := by
    rw [hkind]
    cases h <;> first | decide | cases hc
  obtain ⟨all, hrun, hall⟩ := creates_all hc
  obtain ⟨loop, hloop, -, hnone, hrel⟩ := hall (v := v) (k := k) (s := s)
  rw [hrun] at hok
  obtain ⟨p, hp, hok⟩ := bind_eq_ok.mp hok
  obtain ⟨out, hout, hp⟩ := bind_eq_ok.mp hp
  rw [hloop] at hout
  obtain ⟨e', he', hv⟩ := updateAll_cur
    (hrel _ _ (hq.oneKey_handlers env k e.expire (utypeOf e.obj.val) s s).walks) hs (isShared_of_kind hne)
    (by
      by_cases hv : e.obj.vers = v.cur
      · exact .inl hv
      · refine .inr fun vers st hl => ?_
        obtain ⟨rfl, hz⟩ := hnone _ _ _ hl
        exact hpass ⟨hkind, hz, hv⟩) hout
  cases hp
  cases hok
  refine ⟨e', ?_, hv⟩
  split
  · exact he'
  · exact he'

theorem creates_string (hc : h.creates = true) (hs : s.get env.d k = some e)
    (hstr : utypeOf e.obj.val = .string)
    (hok : h.run checkUpdateKvPair env v (args (k :: rest)) s = .ok (a, s')) : s' = s := by
  obtain ⟨o, ho⟩ : ∃ o, e.obj.val = .str o := by
    cases hval : e.obj.val with
    | str o => exact ⟨o, rfl⟩
    | _ => rw [hval] at hstr; cases hstr
  obtain ⟨all, hrun, hall⟩ := creates_all hc
  obtain ⟨loop, hloop, hstring, -⟩ := hall (v := v) (k := k) (s := s)
  rw [hrun] at hok
  obtain ⟨p, hp, hok⟩ := bind_eq_ok.mp hok
  obtain ⟨out, hout, hp⟩ := bind_eq_ok.mp hp
  rw [hloop] at hout
  rw [updateAll_string hs ho (hstring o) hout] at hp
  cases hp
  cases hok
  rfl

/-- The container that is made gets the tag that has been registered for its key. -/
theorem tagsKey_registered {p : KeyProc} (htame : ∀ cur, Tame cur (p cur).2)
    (habs : Absent env v k s) (hnul : NulFree k) :
    TagsKey env k v.cur [⟨k, 0, p⟩] (newVersion env v k s) := by
  intro j hj
  obtain ⟨hjk, hst⟩ := storedKeys_one hj
  have hcur : (liveEntry env.now ((newVersion env v k s).dbs env.d) k).map (·.obj.val) = none := by
    have hnone : (newVersion env v k s).get env.d k = none := Store.get_of_has habs.has
    rw [liveEntry, ← Store.get, hnone]
    rfl
  have hact := htame none
  simp only [Step.outcome] at hst
  rw [hcur] at hst
  cases hx : (p none).2 with
  | create x =>
    have hmade : ((⟨k, 0, p⟩ : Step).outcome env.now ((newVersion env v k s).dbs env.d)).2 =
        .create x := by
      simp only [Step.outcome]
      rw [hcur, hx]
    refine ⟨hjk, willTag_made (.inl hmade) (.inr ⟨.inr ?_, ?_⟩)⟩
    · simp [newVersion, cstr_eq_self hnul]
    · intro t ht
      simp [newVersion, cstr_eq_self hnul] at ht
      exact ht.symm
  | modify x =>
    rw [hx] at hact
    obtain ⟨y, hy, -⟩ := hact
    cases hy
  | overwrite x | assign x y => rw [hx] at hact; exact hact.elim
  | _ => rw [hx] at hst; cases hst

/-- A container that has been brought to the current version keeps it. -/
theorem tagsKey_held {p : KeyProc} (hc : h.creates = true)
    (htame : ∀ cur, Tame cur (p cur).2) (hwrong : ∀ y, utypeOf y ≠ h.kind → (p (some y)).2 = .keep)
    (hok : h.run checkUpdateKvPair env v (args (k :: rest)) s = .ok (a, s'))
    (hclear : NoStale env.d k v.cur s)
    (hheld : Held h env v k rest s fun e => ¬ PassedOver env.cfg v e) :
    TagsKey env k v.cur [⟨k, 0, p⟩] s' := by
  obtain ⟨hname, hks, -⟩ := HName.of_creates hc
  intro j hj
  have hq := hheld.1
  obtain ⟨s₁, e, he, ha, hpass, htmp, hsame⟩ := hheld.own
  rw [hsame] at hok
  obtain ⟨hjk, hst⟩ := storedKeys_one hj
  simp only [Step.outcome] at hst
  by_cases hstr : utypeOf e.obj.val = .string
  · -- the command is refused
    obtain rfl := creates_string hc he hstr hok
    have hkind : utypeOf e.obj.val ≠ h.kind := by
      rw [hstr]
      cases h <;> first | decide | cases hc
    rw [liveEntry_alive he ha, Option.map_some, hwrong _ hkind] at hst
    cases hst
  · obtain ⟨e', he', hx, hkind', htmp'⟩ := hq.run_keeps hname
      (fun i hi => List.mem_singleton.mp (hks ⟨k, 0⟩ (args rest) ▸ hi)) he (isShared_of_kind hstr) hok
    have hlive := liveEntry_alive he' ((Entry.alive_congr hx.symm _).trans ha)
    rw [hlive, Option.map_some] at hst
    by_cases hkind : utypeOf e.obj.val = h.kind
    · obtain ⟨e'', he'', hv⟩ := hq.creates_cur hc he hkind hpass hok
      obtain rfl : e'' = e' := Option.some.inj (he''.symm.trans he')
      have hact := htame (some e''.obj.val)
      cases hact' : (p (some e''.obj.val)).2 with
      | modify x =>
        refine ⟨hjk, willTag_one (e := { e'' with obj := { e''.obj with val := x } }) ?_
          (.inr ⟨.inl hv, hclear.congr (htmp'.trans htmp)⟩)⟩
        simp only [Step.outcome, hlive, Option.map_some, hact']
        rfl
      | create x =>
        rw [hact'] at hact
        cases hact.1
      | overwrite x | assign x y => rw [hact'] at hact; exact hact.elim
      | _ => rw [hact'] at hst; cases hst
    · rw [hwrong _ (hkind' ▸ hkind)] at hst
      cases hst

theorem creates_fits {steps : List Step} {combine : List Reply → Reply} (hc : h.creates = true)
    (hok : h.run checkUpdateKvPair env v (args (k :: rest)) s = .ok (a, s'))
    (hfit : (Absent env v k s ∧ NulFree k) ∨
      (NoStale env.d k v.cur s ∧ Held h env v k rest s fun e => ¬ PassedOver env.cfg v e))
    (hplan : plan env.cfg env.now env.rand h.cmd a = some (.run steps combine)) :
    TagsKey env k v.cur steps s' := by
  rcases hfit with ⟨habs, hnul⟩ | ⟨hclear, hheld⟩
  · -- nothing is stored under any name: the tag is registered
    obtain ⟨rfl, rfl⟩ := run_creates_absent (k := ⟨k, 0⟩) hc habs hok
    obtain ⟨p, rfl, htame, -⟩ := plan_creates hc hplan
    exact tagsKey_registered htame habs hnul
  · obtain ⟨hname, -, htagged⟩ := HName.of_creates hc
    obtain rfl : a = args (k :: rest) := (hheld.1.run_args hname.1 hok).trans (htagged ..)
    obtain ⟨p, rfl, htame, hwrong⟩ := plan_creates hc hplan
    exact tagsKey_held hc htame hwrong hok hclear hheld

end Containers

/-! ## Several keys -/

/-- The object at a key is a shared integer, or has the current version of the key's namespace
and will keep it. -/
def GoodAt (reg : Reg) (d : Nat) (s : Store) (db : Db) (j : Bytes) : Prop :=
  ∃ e, db.lookup j = some e ∧ (e.obj.val.isShared = true ∨
    ∀ w, versionHashLookup reg j = some w → e.obj.vers = w.cur ∧ NoStale d j w.cur s)

theorem mset_good {vers : Int} {l : List Bytes} (hfit : PairsFit cfg d vers s l) {db : Db}
    (hj : j ∈ storedKeys now (msetSteps cfg (tagPairs vers (args l))) db ∨ GoodAt s.reg d s db j) :
    GoodAt s.reg d s (execSteps now (msetSteps cfg (tagPairs vers (args l))) db).2 j := by
  induction l using pairs.induct generalizing db with
  | case1 k b rest ih =>
    obtain ⟨hpair, hrest⟩ := hfit
    refine ih hrest ?_
    -- the step of the first pair always stores
    have hstep : ((⟨k, vers, setProc false false (tryObjectEncoding cfg b) none ok ok⟩ : Step).exec
        now db).2.lookup k = some ⟨⟨if (Val.str (tryObjectEncoding cfg b)).isShared then 0 else vers,
          .str (tryObjectEncoding cfg b)⟩, none⟩ := by
      rw [Step.lookup_exec, if_pos rfl]
      rfl
    by_cases hjk : j = k
    · subst hjk
      refine .inr ⟨_, hstep, ?_⟩
      by_cases hsh : (Val.str (tryObjectEncoding cfg b)).isShared = true
      · exact .inl hsh
      · refine .inr fun w hw => ?_
        obtain ⟨hcur, hclear⟩ := hpair.resolve_left hsh w hw
        simp only [if_neg hsh]
        exact ⟨hcur.symm, hcur ▸ hclear⟩
    · rcases hj with hj | ⟨e, he, hgood⟩
      · refine .inl ?_
        have hmem : j = k ∨ j ∈ storedKeys now (msetSteps cfg (tagPairs vers (args rest)))
            ((⟨k, vers, setProc false false (tryObjectEncoding cfg b) none ok ok⟩ : Step).exec
              now db).2 := List.mem_cons.mp hj
        exact hmem.resolve_left hjk
      · refine .inr ⟨e, ?_, hgood⟩
        rw [Step.lookup_exec, if_neg hjk]
        exact he
  | case2 l hne =>
    have hsteps : msetSteps cfg (tagPairs vers (args l)) = [] := by
      match l, hne with
      | [], _ => rfl
      | [k], _ => rfl
      | k :: b :: rest, hne => exact absurd rfl (hne k b rest)
    rw [hsteps] at hj ⊢
    rcases hj with hj | hj
    · cases hj
    · exact hj

theorem tagPairs_zero (l : List Bytes) : tagPairs 0 (args l) = args l := by
  induction l using pairs.induct with
  | case1 k b rest ih =>
    change (⟨k, 0⟩ :: ⟨b, 0⟩ :: tagPairs 0 (args rest) : List Arg) = _
    rw [ih]
    rfl
  | case2 l hne =>
    match l, hne with
    | [], _ => rfl
    | [k], _ => rfl
    | k :: b :: rest, hne => exact absurd rfl (hne k b rest)

theorem mset_fits {env : Env} {vers : Int} {l : List Bytes} {s' : Store} (htmp : s'.tmp = s.tmp)
    (hfit : PairsFit env.cfg env.d vers s l)
    (hplan : plan env.cfg env.now env.rand .mset (tagPairs vers (args l)) =
      some (.run steps combine)) (hj : j ∈ storedKeys env.now steps (s'.dbs env.d))
    {w : VersionHash} (hw : versionHashLookup s.reg j = some w) :
    WillTag env.d j w.cur (s'.setDb env.d (execSteps env.now steps (s'.dbs env.d)).2) := by
  match l, hfit, hplan with
  | k :: b :: rest, hfit, hplan =>
    have hplan := Option.some.inj hplan
    unfold msetCommand at hplan
    split at hplan
    · cases hplan
    · cases hplan
      obtain ⟨e, he, hgood⟩ := mset_good hfit (.inl hj)
      refine ⟨e, ?_, hgood.imp_right fun hgood => ?_⟩
      · rw [Store.get, Store.setDb_dbs_self]
        exact he
      · obtain ⟨hcur, hclear⟩ := hgood w hw
        exact ⟨.inl hcur, hclear.congr htmp⟩

end SchemaUpdate.KVolve
