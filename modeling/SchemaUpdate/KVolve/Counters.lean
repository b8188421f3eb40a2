import SchemaUpdate.KVolve.Aborts
import SchemaUpdate.KVolve.LazyRun
import SchemaUpdate.KVolve.Snapshot

/-! # Counters and a change of namespace

`INCR` and `INCRBY` store integers that carry no version. After a rename the first
command on the new name finds the counter under the old one; whether it is moved
depends on the command, on the size of the integer, and on whether version 0 happens to
be the last one before the rename. -/

namespace SchemaUpdate.KVolve

open SchemaUpdate.Lib SchemaUpdate.Redis

/-! ## Counting -/

/-- What the counting commands store: an object that Redis made itself. -/
def counterEntry (n : Int) : Entry := ⟨⟨0, .str (createStringObjectFromLongLong n)⟩, none⟩

inductive Counts (k : Bytes) : List Bytes → Prop
  | incr {name : Bytes} : Spelled .incr name → Counts k [name, k]
  | incrby {name b : Bytes} : Spelled .incrby name → Counts k [name, k, b]

def serveAll (cfg : Cfg) (s : Store) (l : List (Client × Request)) : Res Store :=
  l.foldlM (fun s p => (·.s) <$> serve cfg p.1 p.2 s) s

/-- The slot is empty or holds a counter, and no tag is about to be set on it. -/
structure Counting (d : Nat) (k : Bytes) (reg : Reg) (s : Store) : Prop where
  reg : s.reg = reg
  untagged : ∀ t, s.tmp.lookup k ≠ some (t, d)
  slot : s.get d k = none ∨ ∃ n, s.get d k = some (counterEntry n)

variable {d : Nat} {k : Bytes} {s : Store} {env : Env} {n : Int}

theorem Counting.prevcall {reg : Reg} (h : Counting d k reg s) :
    Counting d k reg (prevcallCheck s) := by
  refine ⟨(prevcallCheck_reg s).trans h.reg, fun t ht => ?_, ?_⟩
  · exact h.untagged t (prevcall_lookup ht)
  · rw [prevcallCheck_other h.untagged]
    exact h.slot

theorem incrDecr_counter (incr : Int) (k : Bytes) {now : Int} {db : Db}
    (h : db.lookup k = none ∨ ∃ n, db.lookup k = some (counterEntry n)) :
    let db' := (Step.exec now db ⟨k, 0, incrDecrProc incr⟩).2
    db'.lookup k = none ∨ ∃ n, db'.lookup k = some (counterEntry n) := by
  simp only [Step.lookup_exec, if_true, Step.outcome, liveEntry]
  rcases h with h | ⟨n, h⟩
  · rw [h]
    exact .inr ⟨incr, rfl⟩
  · have hal : (counterEntry n).alive now = true := rfl
    simp only [h, Option.filter, hal, if_true, Option.map_some]
    simp only [counterEntry, incrDecrProc, createStringObjectFromLongLong, Str.getLongLong]
    split
    · exact .inr ⟨n, rfl⟩
    · exact .inr ⟨n + incr, rfl⟩

theorem Counting.call {reg : Reg} (h : Counting d k reg s) (env : Env) (hd : env.d = d)
    (incr : Int) :
    Counting d k reg (s.call env (.one k 0 (incrDecrProc incr))).2 := by
  subst hd
  refine ⟨h.reg, h.untagged, ?_⟩
  rw [Store.call, Store.get, Store.setDb_dbs_self]
  exact incrDecr_counter incr k h.slot

theorem incrKey_first {v : VersionHash} (hprev : v.prevNs = none) (k : Bytes) (s : Store) :
    incrKey env v k s = .ok s := by
  rw [incrKey, if_pos hprev]

section Step

variable {cfg : Cfg} {d : Nat} {k : Bytes} {reg : Reg} {s : Store} {v : VersionHash}
  (hv : versionHashLookup reg k = some v) (hprev : v.prevNs = none)

include hv hprev

theorem handle_counts {h : HName} (hh : h = .incr ∨ h = .incrby) (hreg : s.reg = reg) (env : Env)
    (rest : List Arg) : handle h env ⟨k, 0⟩ rest s = .ok (⟨k, 0⟩ :: rest, s) := by
  rw [handle, hreg, hv]
  rcases hh with rfl | rfl
  · simp only [HName.run, kvolveIncr, onKey, incrKey_first hprev, ok_bind]
  · simp only [HName.run, kvolveIncrby, kvolveIncr, onKey, incrKey_first hprev, ok_bind]

theorem Counting.command (h : Counting d k reg s) {hn : HName} (hh : hn = .incr ∨ hn = .incrby)
    {name : Bytes} (hs : Spelled hn name) (rest : List Bytes) (hargc : hn.least ≤ rest.length + 2)
    {c : Client} {rq : Request} (hc : c.multi = false) (hargv : rq.argv = name :: k :: rest)
    (hcall : ∀ t, Counting d k reg t →
      Counting d k reg (KVolve.call cfg rq c t hn.cmd (⟨k, 0⟩ :: args rest)).2.2) {out : Served}
    (hok : KVolve.serve cfg c rq s = .ok out) : Counting d k reg out.s := by
  have hpre := h.prevcall
  have hkeys : hn ≠ .keys := by
    rcases hh with rfl | rfl <;> rintro ⟨⟩
  rw [serve_spelled hs hkeys hargc cfg c rq hargv, handle_counts hv hprev hh hpre.reg, ok_bind] at hok
  cases hok
  rcases redisProcessCommand_spelled hs cfg rq hc (rest.length + 1) with ⟨r, hr⟩ | hr
  · rw [hr _ _ (by simp [args])]
    exact hpre
  · rw [hr _ _ (by simp [args])]
    exact hcall _ hpre

theorem Counting.serve (h : Counting d k reg s) {c : Client} {rq : Request} (hc : c.multi = false)
    (hd : c.db = d) (hcount : Counts k rq.argv) {out : Served}
    (hok : KVolve.serve cfg c rq s = .ok out) : Counting d k reg out.s := by
  generalize hargv : rq.argv = argv at hcount
  cases hcount with
  | incr hs =>
    refine h.command hv hprev (.inl rfl) hs [] (by decide) hc hargv (fun t ht => ?_) hok
    exact ht.call (rq.env cfg c.db) hd 1
  | @incrby name b hs =>
    refine h.command hv hprev (.inr rfl) hs [b] (by decide : HName.incrby.least ≤ 3) hc
      hargv (fun t ht => ?_) hok
    simp only [KVolve.call, HName.cmd, args, List.map_cons, List.map_nil, plan, incrbyCommand,
      withLongLong]
    cases strtoll b with
    | none =>
      rw [Store.call_refuse]
      exact ht
    | some n => exact ht.call (rq.env cfg c.db) hd n

/-- **Whatever is counted, a counter it is.** -/
theorem Counting.run {l : List (Client × Request)}
    (hl : ∀ p ∈ l, p.1.multi = false ∧ p.1.db = d ∧ Counts k p.2.argv) {s' : Store}
    (h : Counting d k reg s) (hrun : serveAll cfg s l = .ok s') : Counting d k reg s' := by
  refine foldlM_rel (R := fun a b => Counting d k reg a → Counting d k reg b) (fun _ => id)
    (fun _ _ _ hab hbc => hbc ∘ hab) (fun a p hp b hstep ha => ?_) hrun h
  obtain ⟨out, hout, rfl⟩ := map_eq_ok.mp hstep
  obtain ⟨hc, hd, hcount⟩ := hl p hp
  exact ha.serve hv hprev hc hd hcount hout

end Step

/-! ## Migrations without functions -/

section Bumps

variable (nested : Nested) (env : Env) (v : VersionHash) (checkKey : Bool) (type : UType)

theorem updateTo_noFuns {p : Int × Option UpdInfo} (hp : infoFuns p.2 = []) (st : MSt) :
    updateTo nested env v checkKey type st p = bump env p.1 st := by
  simp only [updateTo, hp, List.foldlM_nil, pure_eq_ok, ok_bind]

theorem updateTos_noFuns {pend : List (Int × Option UpdInfo)}
    (hp : ∀ p ∈ pend, infoFuns p.2 = []) (key : Bytes) {loc : Bytes} {s : Store} {e : Entry}
    (he : s.get env.d loc = some e) :
    ∃ s' e', pend.foldlM (updateTo nested env v checkKey type) ⟨key, loc, .stored, s⟩ =
        .ok ⟨key, loc, .stored, s'⟩ ∧
      s'.get env.d loc = some e' ∧ e'.obj.val = e.obj.val ∧ e'.expire = e.expire ∧
      ∀ d j, ¬ (d = env.d ∧ j = loc) → s'.get d j = s.get d j := by
  induction pend generalizing s e with
  | nil => exact ⟨s, e, rfl, he, rfl, rfl, fun _ _ _ => rfl⟩
  | cons p pend ih =>
    have hget : (s.setVers env.d loc p.1).get env.d loc = some (retag p.1 e) := by
      rw [Store.get_setVers, if_pos ⟨rfl, rfl⟩, he]
      rfl
    obtain ⟨s', e', hrun, he', hval, hexp, hother⟩ :=
      ih (fun q hq => hp q (List.mem_cons_of_mem p hq)) hget
    refine ⟨s', e', ?_, he', ?_, ?_, fun d j hj => ?_⟩
    · rw [List.foldlM_cons, updateTo_noFuns _ _ _ _ _ (hp p (by simp))]
      simp only [bump, deref, he, ok_bind]
      exact hrun
    · rw [hval, retag]
      split <;> rfl
    · rw [hexp, retag]
      split <;> rfl
    · rw [hother d j hj, Store.get_setVers, if_neg hj]

end Bumps

/-! ## The first command -/

/-- The commands on the counter under its new name. -/
inductive Probe
  | get
  | incr
  | getset (w : Bytes)
  | del

def Probe.handler : Probe → HName
  | .get => .get
  | .incr => .incr
  | .getset _ => .getset
  | .del => .del

def Probe.rest : Probe → List Bytes
  | .getset w => [w]
  | _ => []

def Probe.reply (n : Int) : Probe → Reply
  | .get | .getset _ => [.bulk (ll2string n)]
  | .incr => [.int (n + 1)]
  | .del => [.int 1]

/-- The counter under `old` is found and moved by a command on `k`: always by one that writes, and
by one that reads if the integer is small or its missing tag is read as the version before the
rename, and no function gets to see the integer. -/
structure Reaches (p : Probe) (d : Nat) (v : VersionHash) (k old : Bytes) (n : Int) (s : Store) :
    Prop where
  db : d = 0
  absent : s.get 0 k = none
  prev : v.prevNs.bind (constructPrevName k) = some old
  outdated : p.handler.reads = true → n < sharedIntegers ∨
    (Outdated v 0 ∧ ∀ q ∈ v.pending 0, infoFuns q.2 = [])

theorem isSmall_counter (n : Int) :
    Val.isSmall (counterEntry n).obj.val = decide (n < sharedIntegers) := rfl

theorem vers_counter (h : ¬ n < sharedIntegers) (s : Store) : s.vers (counterEntry n).obj = 0 := by
  have hsh : (decide (0 ≤ n) && decide (n < (sharedIntegers : Int))) = false := by simp [h]
  simp only [counterEntry, createStringObjectFromLongLong, hsh, Store.vers]

structure AtKey (k old : Bytes) (n : Int) (s : Store) : Prop where
  entry : ∃ e, s.get 0 k = some e ∧ e.obj.val = (counterEntry n).obj.val ∧ e.expire = none
  gone : s.get 0 old = none

section Hook

variable {env : Env} {v : VersionHash} {k old : Bytes} {n : Int} {s : Store}
  (hb : Behind env v k old (counterEntry n) s)

include hb

theorem Behind.atKey : AtKey k old n (s.rename env.now old k) := by
  have hget := hb.get_moved
  have hgone := hb.gone_moved
  rw [hb.db] at hget hgone
  exact ⟨⟨_, hget, rfl, rfl⟩, hgone⟩

theorem Behind.getKey_counter
    (hout : n < sharedIntegers ∨ (Outdated v 0 ∧ ∀ q ∈ v.pending 0, infoFuns q.2 = [])) :
    ∃ s', KVolve.getKey checkUpdateKvPair env v k s = .ok (k, s') ∧ AtKey k old n s' := by
  by_cases hn : n < sharedIntegers
  · refine ⟨s.rename env.now old k, ?_, hb.atKey⟩
    have hsmall : Val.isSmall (counterEntry n).obj.val = true := by
      rw [isSmall_counter]
      exact decide_eq_true hn
    rw [hb.getKey (.inl hsmall)]
    exact getKey_idle (h := .get) rfl
      (.inr ⟨counterEntry n, hb.get_moved, .inr (.inl ⟨rfl, hsmall⟩)⟩)
  · obtain ⟨hold, hfuns⟩ := hout.resolve_left hn
    have hvers := vers_counter hn s
    rw [hb.getKey (.inr (by rw [hvers]; exact hold))]
    have hbig : Val.isSmall (counterEntry n).obj.val = false := by
      rw [isSmall_counter]
      exact decide_eq_false hn
    obtain ⟨s', e', hrun, he', hval, hexp, hother⟩ := updateTos_noFuns
      (updRedisCall env) env v true .string hfuns k hb.get_moved
    refine ⟨s', ?_, ?_⟩
    · unfold KVolve.getKey checkUpdateKvPair checkUpdateWith
      simp only [getDbVal_has hb.has_moved, ok_bind, hb.deref_moved, Store.vers_rename, hvers, hbig,
        KVolve.migrateSubject, Bool.false_eq_true, if_false, if_neg hold.1, moveFirst, hold.2,
        and_self, if_true, namespaceUpdate_has hb.has_moved, track, hb.has_moved, hrun]
    · rw [hb.db] at he' hother
      refine ⟨⟨e', he', hval, hexp⟩, ?_⟩
      rw [hother 0 old (fun h => hb.ne h.2)]
      exact hb.atKey.gone

theorem Behind.handle (hv : versionHashLookup s.reg k = some v) {p : Probe}
    (hout : p.handler.reads = true → n < sharedIntegers ∨
      (Outdated v 0 ∧ ∀ q ∈ v.pending 0, infoFuns q.2 = [])) :
    ∃ s', KVolve.handle p.handler env ⟨k, 0⟩ (args p.rest) s = .ok (⟨k, 0⟩ :: args p.rest, s') ∧
      AtKey k old n s' := by
  rw [KVolve.handle, hv]
  cases p with
  | get =>
    obtain ⟨s', hs', hat⟩ := hb.getKey_counter (hout rfl)
    refine ⟨s', ?_, hat⟩
    simp only [Probe.handler, HName.run, kvolveGet, onKey, hs', ok_bind]
  | getset w =>
    obtain ⟨s', hs', hat⟩ := hb.getKey_counter (hout rfl)
    refine ⟨s', ?_, hat⟩
    simp only [Probe.handler, HName.run, kvolveGetset, kvolveGet, onKey, hs', ok_bind]
  | incr =>
    refine ⟨s.rename env.now old k, ?_, hb.atKey⟩
    simp only [Probe.handler, HName.run, kvolveIncr, onKey, hb.incrKey,
      incrKey_idle (.inr hb.has_moved), ok_bind]
  | del =>
    refine ⟨s.rename env.now old k, ?_, hb.atKey⟩
    have hren := hb.checkRename (.inl ⟨n, _, rfl⟩)
    simp only [Probe.handler, Probe.rest, HName.run, kvolveDel, args, List.map_nil, List.map_cons,
      hren, ok_bind]

end Hook

/-! ## Redis -/

structure Admits (cfg : Cfg) (c : Client) (rq : Request) (h : HName) : Prop where
  multi : c.multi = false
  auth : cfg.requirepass.isSome = true → c.authenticated = true
  refuse : rq.refuse h.cmd = none

theorem redisProcessCommand_admitted {h : HName} {name : Bytes} (hs : Spelled h name) {cfg : Cfg}
    {c : Client} {rq : Request} (ha : Admits cfg c rq h) {a : List Arg}
    (har : arityOk h.arity (a.length + 1) = true) (s : Store) :
    redisProcessCommand cfg rq c (⟨name, 0⟩ :: a) s = call cfg rq c s h.cmd a := by
  have hauth : (cfg.requirepass.isSome && !c.authenticated && h.cmd != .auth) = false := by
    cases hp : cfg.requirepass.isSome with
    | false => rfl
    | true => simp [ha.auth hp]
  simp only [redisProcessCommand, hs.not_quit, hs.redis, List.length_cons, har, hauth, ha.refuse,
    ha.multi, Bool.false_and, Bool.not_true, Bool.false_eq_true, if_false, h.cmd_ne.1]

def Probe.proc (cfg : Cfg) : Probe → KeyProc
  | .get => getProc
  | .incr => incrDecrProc 1
  | .getset w => fun cur =>
    match getProc cur with
    | (r, a) => if r = wrongtypeerr then (r, a)
      else (r, .assign (.str (tryObjectEncoding cfg w)) none)
  | .del => delProc

def Probe.combine : Probe → List Reply → Reply
  | .del => fun rs => [.int (rs.count [.int 1])]
  | _ => List.flatten

theorem Probe.call (p : Probe) (cfg : Cfg) (rq : Request) (c : Client) (k : Bytes) (s : Store) :
    call cfg rq c s p.handler.cmd (⟨k, 0⟩ :: args p.rest) =
      let out := s.call (rq.env cfg c.db) (.run [⟨k, 0, p.proc cfg⟩] p.combine)
      (out.1, c, out.2) := by
  cases p <;> rfl

theorem call_one_get (env : Env) (s : Store) (k : Bytes) (t : Int) (q : KeyProc)
    (combine : List Reply → Reply) {j : Bytes} (hj : j ≠ k) :
    (s.call env (.run [⟨k, t, q⟩] combine)).2.get d j = s.get d j := by
  rw [Store.call, Store.get]
  by_cases hd : d = env.d
  · subst hd
    rw [Store.setDb_dbs_self]
    simp only [Plan.exec, execSteps, Step.lookup_exec, if_neg hj]
    rfl
  · rw [Store.setDb_dbs_ne _ _ _ hd]
    rfl

theorem AtKey.reply (hd : env.d = 0) {old : Bytes} (h : AtKey k old n s) (p : Probe)
    (hover : p = .incr → n < 2 ^ 63 - 1) :
    (s.call env (.run [⟨k, 0, p.proc env.cfg⟩] p.combine)).1 = p.reply n := by
  obtain ⟨e, he, hval, hexp⟩ := h.entry
  have hlive : liveEntry env.now (s.dbs env.d) k = some e := by
    have hal : e.alive env.now = true := by rw [Entry.alive, hexp]
    rw [hd, liveEntry, show (s.dbs 0).lookup k = some e from he]
    simp [Option.filter, hal]
  simp only [Store.call, Plan.exec, execSteps, Step.exec, Step.outcome, hlive, Option.map_some, hval]
  cases p with
  | get => rfl
  | getset w => rfl
  | del => rfl
  | incr =>
    have hno : ¬ ((1 : Int) < 0 ∧ n < 0 ∧ (1 : Int) < -(2 ^ 63) - n ∨
        (1 : Int) > 0 ∧ n > 0 ∧ (1 : Int) > 2 ^ 63 - 1 - n) := by
      have := hover rfl
      omega
    simp only [Probe.proc, Probe.combine, counterEntry, incrDecrProc, createStringObjectFromLongLong,
      Str.getLongLong, if_neg hno]
    rfl

/-! ## Counters that stay behind -/

theorem bump_keeps {t : Int} {st st' : MSt} (h : bump env t st = .ok st') {j : Bytes}
    (hnone : st'.s.get d j = none) : st.s.get d j = none := by
  unfold bump at h
  split at h
  · obtain ⟨c, -, h⟩ := bind_eq_ok.mp h
    cases h
    rw [Store.get_setVers] at hnone
    split at hnone
    · rename_i hslot
      rw [hslot.1, hslot.2]
      exact Option.map_eq_none_iff.mp hnone
    · exact hnone
  · cases h
    exact hnone

section Stays

variable {env : Env} {v : VersionHash} {k old : Bytes} {s s' : Store} (hne : old ≠ k)
  (hhas : s.get env.d old ≠ none) (hgone : s'.get env.d old = none)

include hne hhas hgone

theorem namespaceUpdate_takes (h : namespaceUpdate env v k s = .ok s') :
    env.d = 0 ∧ s.get 0 k = none ∧ v.prevNs.bind (constructPrevName k) = some old := by
  unfold namespaceUpdate at h
  split at h
  · cases h
    exact absurd hgone hhas
  · rename_i hfree
    cases hprev : v.prevNs.bind (constructPrevName k) with
    | none =>
      rw [hprev] at h
      cases h
    | some prev =>
      rw [hprev] at h
      cases h
      have hslot : env.d = 0 ∧ (old = prev ∨ old = k) := by
        by_contra hother
        exact hhas ((Store.get_rename_other hother).symm.trans hgone)
      obtain rfl := hslot.2.resolve_right hne
      rw [hslot.1] at hfree
      exact ⟨hslot.1, by simpa [Store.has] using hfree, rfl⟩

theorem checkRenameOne_takes (h : checkRenameOne env v k s = .ok s') :
    env.d = 0 ∧ s.get 0 k = none ∧ v.prevNs.bind (constructPrevName k) = some old := by
  rcases checkRenameOne_ok h with rfl | h
  · exact absurd hgone hhas
  · exact namespaceUpdate_takes hne hhas hgone h

theorem checkRename_takes (h : checkRename env v [k] s = .ok s') :
    env.d = 0 ∧ s.get 0 k = none ∧ v.prevNs.bind (constructPrevName k) = some old := by
  unfold checkRename at h
  split at h
  · cases h
    exact absurd hgone hhas
  · obtain ⟨s₁, hs₁, h⟩ := bind_eq_ok.mp h
    cases h
    exact checkRenameOne_takes hne hhas hgone hs₁

theorem incrKey_takes (h : incrKey env v k s = .ok s') :
    env.d = 0 ∧ s.get 0 k = none ∧ v.prevNs.bind (constructPrevName k) = some old := by
  unfold incrKey at h
  split at h
  · cases h
    exact absurd hgone hhas
  · obtain ⟨found, -, h⟩ := bind_eq_ok.mp h
    split at h
    · cases h
      exact absurd hgone hhas
    · exact namespaceUpdate_takes hne hhas hgone h

theorem getKey_takes (hv : NoFuns v) {k' : Bytes}
    (h : getKey checkUpdateKvPair env v k s = .ok (k', s')) :
    (env.d = 0 ∧ s.get 0 k = none ∧ v.prevNs.bind (constructPrevName k) = some old) ∧
      ∀ e, s.get env.d old = some e →
        Val.isSmall e.obj.val = true ∨ Outdated v (s.vers e.obj) := by
  obtain ⟨⟨key, loc, s₁⟩, hcu, h⟩ := bind_eq_ok.mp h
  cases h
  unfold checkUpdateKvPair checkUpdateWith at hcu
  obtain ⟨found, hfound, hcu⟩ := bind_eq_ok.mp hcu
  cases found with
  | none =>
    cases hcu
    exact absurd hgone hhas
  | some at' =>
    obtain ⟨c, hc, hcu⟩ := bind_eq_ok.mp hcu
    obtain ⟨st, hst, hcu⟩ := bind_eq_ok.mp hcu
    cases hcu
    have hat : s.get env.d at' = some c := get_of_deref hc
    -- where the value is taken away, it is the one that was found
    have hsame : env.d = 0 ∧ s.get 0 k = none ∧ v.prevNs.bind (constructPrevName k) = some old →
        ∀ e, s.get env.d old = some e → e = c := by
      rintro ⟨hd, habs, hprev⟩ e he
      have hprevious : getDbVal env v k s = .ok (some old) :=
        getDbVal_previous hprev (by rw [Store.has, hd, habs]; rfl) (Store.has_of_get he)
      rw [hfound] at hprevious
      cases hprevious
      exact Option.some.inj (he.symm.trans hat)
    rcases migrateSubject_ok hst with ⟨hsmall, s₂, hs₂, rfl⟩ | ⟨-, -, rfl⟩ | ⟨-, hcur, st₁, hst₁, hst⟩
    · have htakes := checkRename_takes hne hhas hgone hs₂
      refine ⟨htakes, fun e he => .inl ?_⟩
      rw [hsame htakes e he]
      exact hsmall
    · exact absurd hgone hhas
    · have hgone₁ : st₁.s.get env.d old = none := by
        refine foldlM_rel (R := fun a b : MSt => b.s.get env.d old = none → a.s.get env.d old = none)
          (fun _ => id) (fun _ _ _ hab hbc => hab ∘ hbc) (fun a q hq b hab hb => ?_) hst hgone
        rw [updateTo_noFuns _ _ _ _ _ (hv.pending _ q hq)] at hab
        exact bump_keeps hab hb
      rcases moveFirst_ok hst₁ with ⟨hren, s₂, hs₂, rfl⟩ | ⟨-, rfl⟩
      · have htakes := namespaceUpdate_takes hne hhas hgone₁ hs₂
        refine ⟨htakes, fun e he => .inr ?_⟩
        rw [hsame htakes e he]
        exact ⟨hcur, hren.2⟩
      · exact absurd hgone₁ hhas

end Stays

/-- A handler that has moved a counter was able to reach it. -/
theorem Reaches.of_handle {p : Probe} {v : VersionHash} {old : Bytes} (hne : old ≠ k)
    (hv : versionHashLookup s.reg k = some v) (hfuns : NoFuns v)
    (hget : s.get env.d old = some (counterEntry n)) {out : List Arg × Store}
    (h : handle p.handler env ⟨k, 0⟩ (args p.rest) s = .ok out)
    (hgone : out.2.get env.d old = none) : Reaches p env.d v k old n s := by
  have hhas : s.get env.d old ≠ none := by
    rw [hget]
    rintro ⟨⟩
  rw [handle, hv] at h
  have hread : onKey (getKey checkUpdateKvPair env v) (⟨k, 0⟩ :: args p.rest) s = .ok out →
      Reaches p env.d v k old n s := by
    intro h
    obtain ⟨⟨k', s'⟩, hs', h⟩ := bind_eq_ok.mp h
    cases h
    obtain ⟨⟨hd, habs, hprev⟩, hout⟩ := getKey_takes hne hhas hgone hfuns hs'
    refine ⟨hd, habs, hprev, fun _ => ?_⟩
    by_cases hn : n < sharedIntegers
    · exact .inl hn
    · refine .inr ⟨?_, hfuns.pending 0⟩
      have hold := (hout _ hget).resolve_left (by rw [isSmall_counter]; simpa using hn)
      rwa [vers_counter hn] at hold
  cases p with
  | get => exact hread h
  | getset w => exact hread h
  | incr =>
    obtain ⟨⟨k', s'⟩, hs', h⟩ := bind_eq_ok.mp h
    cases h
    obtain ⟨s₁, hs₁, hs'⟩ := bind_eq_ok.mp hs'
    cases hs'
    obtain ⟨hd, habs, hprev⟩ := incrKey_takes hne hhas hgone hs₁
    exact ⟨hd, habs, hprev, by rintro ⟨⟩⟩
  | del =>
    obtain ⟨s₁, hs₁, h⟩ := bind_eq_ok.mp h
    cases h
    obtain ⟨hd, habs, hprev⟩ := checkRename_takes hne hhas hgone hs₁
    exact ⟨hd, habs, hprev, by rintro ⟨⟩⟩

/-! ## Runs -/

/-- The command answers with the counter, and its old name is gone. -/
def Survives (cfg : Cfg) (c : Client) (rq : Request) (p : Probe) (old : Bytes) (n : Int)
    (s : Store) : Prop :=
  ∃ out, serve cfg c rq s = .ok out ∧ out.reply = p.reply n ∧ out.s.get c.db old = none

theorem Probe.arity (p : Probe) : arityOk p.handler.arity (p.rest.length + 2) = true := by
  cases p with
  | getset w => exact (by decide +kernel : arityOk HName.getset.arity 3 = true)
  | _ => decide +kernel

theorem Probe.least (p : Probe) : p.handler.least ≤ p.rest.length + 2 := by
  cases p with
  | getset w => exact (by decide : HName.getset.least ≤ 3)
  | _ => decide

section Probe

variable {cfg : Cfg} {c : Client} {rq : Request} {p : Probe} {name k old : Bytes} {n : Int}
  {s : Store} {v : VersionHash} (hs : Spelled p.handler name)
  (hargv : rq.argv = name :: k :: p.rest) (ha : Admits cfg c rq p.handler) (hne : old ≠ k)
  (hv : versionHashLookup s.reg k = some v) (hget : s.get c.db old = some (counterEntry n))
  (htag : ∀ t, s.tmp.lookup old ≠ some (t, c.db))

include hs hargv ha

theorem serve_probe (s : Store) : serve cfg c rq s =
    handle p.handler (rq.env cfg c.db) ⟨k, 0⟩ (args p.rest) (prevcallCheck s) >>= fun out =>
      let r := redisProcessCommand cfg rq c (⟨name, 0⟩ :: out.1) out.2
      .ok ⟨r.1, r.2.1, r.2.2, ∅⟩ := by
  have hkeys : p.handler ≠ .keys := by cases p <;> rintro ⟨⟩
  exact serve_spelled hs hkeys p.least cfg c rq hargv s

include hne hv hget htag

theorem survives_of_reaches (hover : p = .incr → n < 2 ^ 63 - 1)
    (h : Reaches p c.db v k old n s) : Survives cfg c rq p old n s := by
  have hpre : (prevcallCheck s).get 0 old = some (counterEntry n) := by
    rw [← h.db, prevcallCheck_other htag, hget]
  have hb : Behind (rq.env cfg c.db) v k old (counterEntry n) (prevcallCheck s) :=
    ⟨h.db, h.prev, (prevcall_get_none 0).mpr h.absent, hpre, rfl⟩
  obtain ⟨s', hs', hat⟩ := hb.handle (by rw [prevcallCheck_reg]; exact hv) h.outdated
  have hred := redisProcessCommand_admitted hs ha (a := ⟨k, 0⟩ :: args p.rest)
    (by simpa [args] using p.arity) s'
  rw [p.call cfg rq c k s'] at hred
  refine ⟨_, by rw [serve_probe hs hargv ha, hs', ok_bind, hred], ?_, ?_⟩
  · exact AtKey.reply h.db hat p hover
  · rw [call_one_get _ _ _ _ _ _ hne, h.db]
    exact hat.gone

theorem reaches_of_survives (hfuns : NoFuns v) (h : Survives cfg c rq p old n s) :
    Reaches p c.db v k old n s := by
  obtain ⟨out, hout, -, hgone⟩ := h
  rw [serve_probe hs hargv ha] at hout
  obtain ⟨⟨a, s'⟩, hs', hout⟩ := bind_eq_ok.mp hout
  cases hout
  have hv' : versionHashLookup (prevcallCheck s).reg k = some v := by
    rw [prevcallCheck_reg]
    exact hv
  have hpre : (prevcallCheck s).get c.db old = some (counterEntry n) := by
    rw [prevcallCheck_other htag, hget]
  have hargs : a = ⟨k, 0⟩ :: args p.rest := by
    have hrun := hs'
    rw [handle, hv'] at hrun
    have hquiet : Quiet v := by
      intro f hf
      obtain ⟨q, hq, hf⟩ := List.mem_flatMap.mp hf
      rw [hfuns q hq] at hf
      cases hf
    have hkeys : p.handler ≠ .keys := by cases p <;> rintro ⟨⟩
    have htagged := hquiet.run_args hkeys hrun
    cases p <;> exact htagged
  subst hargs
  rw [redisProcessCommand_admitted hs ha (by simpa [args] using p.arity), p.call] at hgone
  rw [call_one_get _ _ _ _ _ _ hne] at hgone
  obtain ⟨hd, habs, hprev, hold⟩ := Reaches.of_handle hne hv' hfuns hpre hs' hgone
  exact ⟨hd, (prevcall_get_none 0).mp habs, hprev, hold⟩

end Probe

/-- **Counters across a rename.** A counter of the namespace `old` reaches `n`, and `old` is
renamed. The first command on the new name answers with the counter and leaves nothing under the
old one when the command reaches it; without update functions it does so in no other case. -/
theorem counter_survives (cfg : Cfg) {d : Nat} {old new x : Bytes} {v : VersionHash}
    {s₀ s₁ : Store} (hv : s₀.reg.find old = some v) (hprev : v.prevNs = none)
    (hkey : IsKey s₀.reg old (keyName old x)) (habs : s₀.get d (keyName old x) = none)
    (htag : ∀ t, s₀.tmp.lookup (keyName old x) ≠ some (t, d)) {l : List (Client × Request)}
    (hl : ∀ p ∈ l, p.1.multi = false ∧ p.1.db = d ∧ Counts (keyName old x) p.2.argv)
    (hrun : serveAll cfg s₀ l = .ok s₁) {e : Entry} {n : Int} {b : Bool}
    (hget : s₁.get d (keyName old x) = some e) (hval : e.obj.val = .str (.int n b)) {id : Nat}
    {pick : Finset Nat → Nat} {sp : Spec} {reg : Reg} {killed : Finset Nat}
    (hacc : specAccepts s₁.reg sp = some true)
    (hload : updSpec id pick s₁.reg sp = .ok (reg, killed)) (hfrom : cstr sp.fromNs = old)
    (hto : cstr sp.toNs = new) (hnew : IsKey reg new (keyName new x)) {p : Probe} {name : Bytes}
    (hs : Spelled p.handler name) {c : Client} (hd : c.db = d) {rq : Request}
    (hargv : rq.argv = name :: keyName new x :: p.rest) (ha : Admits cfg c rq p.handler)
    (hover : p = .incr → n < 2 ^ 63 - 1) :
    ∃ w, reg.find new = some w ∧ w.prevNs = some old ∧
      w.hist = v.hist ++ [(sp.toVers, some sp.info)] ∧
      (Reaches p d w (keyName new x) (keyName old x) n { s₁ with reg := reg } →
        Survives cfg c rq p (keyName old x) n { s₁ with reg := reg }) ∧
      (NoFuns w → Survives cfg c rq p (keyName old x) n { s₁ with reg := reg } →
        Reaches p d w (keyName new x) (keyName old x) n { s₁ with reg := reg }) := by
  subst hd
  have hlook : versionHashLookup s₀.reg (keyName old x) = some v := by
    obtain ⟨u, hu, hns⟩ := Option.map_eq_some_iff.mp hkey
    have hfind := versionHashLookup_find hu
    rw [hns, hv] at hfind
    rw [hu, Option.some.inj hfind]
  have hcount : Counting c.db (keyName old x) s₀.reg s₁ :=
    Counting.run hlook hprev hl ⟨rfl, htag, .inl habs⟩ hrun
  -- what is stored is the counter `n`
  have hentry : s₁.get c.db (keyName old x) = some (counterEntry n) := by
    rcases hcount.slot with hnone | ⟨m, hm⟩
    · rw [hnone] at hget
      cases hget
    · rw [hm] at hget ⊢
      cases hget
      cases hval
      rfl
  obtain ⟨w, hw, hns⟩ := Option.map_eq_some_iff.mp hnew
  have hfind := versionHashLookup_find hw
  rw [hns] at hfind
  have hne : keyName old x ≠ keyName new x := by
    intro heq
    have hnames : old = new := by simpa [keyName] using heq
    exact (specAccepts_true hacc).1 (by rw [hfrom, hto, hnames])
  have hcore : reg.core new = some ⟨some old, none, v.hist ++ [(sp.toVers, some sp.info)]⟩ := by
    obtain ⟨u, hu, hcore⟩ := updSpec_rename hacc hload
    rw [hfrom, hcount.reg, hv] at hu
    rw [hcore, hto, hfrom, if_pos rfl, Option.some.inj hu]
  rw [core_of_find hfind] at hcore
  have hw' := Option.some.inj hcore
  refine ⟨w, hfind, congrArg Core.prevNs hw', congrArg Core.hist hw', fun hreach => ?_,
    fun hfuns hsurv => ?_⟩
  · exact survives_of_reaches (s := { s₁ with reg := reg }) hs hargv ha hne hw hentry
      hcount.untagged hover hreach
  · exact reaches_of_survives (s := { s₁ with reg := reg }) hs hargv ha hne hw hentry
      hcount.untagged hfuns hsurv

def registeredA : Store := { Store.init with reg := registered "a" 1 }

def renameToB : Spec := ⟨lit "a", lit "b", 1, 2, []⟩

def ask (argv : List Bytes) : Client × Request := ({ id := 1 }, { argv := argv, now := 0 })

def getB : Request := { argv := [lit "get", keyName (lit "b") (lit "s")], now := 0 }

def CountedTo (n : Int) (after : Reg → Store → Bool) (s : Store) : Prop :=
  s.get 0 (keyName (lit "a") (lit "s")) = some (counterEntry n) ∧
    s.get 0 (keyName (lit "b") (lit "s")) = none ∧ specAccepts s.reg renameToB = some true ∧
    ((updSpec 1 (fun _ => 0) s.reg renameToB).toOption.any fun out =>
      decide (after out.1 s = true)) = true

instance (n : Int) (after : Reg → Store → Bool) : DecidablePred (CountedTo n after) := fun _ =>
  inferInstanceAs (Decidable (_ ∧ _))

theorem counter_survives_one :
    ∃ s reg killed,
      serveAll {} registeredA [ask [lit "incr", keyName (lit "a") (lit "s")]] = .ok s ∧
        updSpec 1 (fun _ => 0) s.reg renameToB = .ok (reg, killed) ∧
        Survives {} { id := 1 } getB .get (keyName (lit "a") (lit "s")) 1 { s with reg := reg } := by
  obtain ⟨s, hrun, hget, habs, hacc, hload⟩ := ok_of_any
    (x := serveAll {} registeredA [ask [lit "incr", keyName (lit "a") (lit "s")]])
    (p := CountedTo 1 fun reg _ => decide (IsKey reg (lit "b") (keyName (lit "b") (lit "s"))))
    (by decide +kernel)
  obtain ⟨⟨reg, killed⟩, hload, hkey⟩ := ok_of_any hload
  have hrequests : ∀ p ∈ [ask [lit "incr", keyName (lit "a") (lit "s")]],
      p.1.multi = false ∧ p.1.db = 0 ∧ Counts (keyName (lit "a") (lit "s")) p.2.argv := by
    intro p hp
    obtain rfl := List.mem_singleton.mp hp
    exact ⟨rfl, rfl, .incr (by decide)⟩
  have hempty : ∀ t, registeredA.tmp.lookup (keyName (lit "a") (lit "s")) ≠ some (t, 0) := by
    rintro t ⟨⟩
  have hadmits : Admits {} { id := 1 } getB Probe.get.handler := by
    refine ⟨rfl, ?_, rfl⟩
    rintro ⟨⟩
  obtain ⟨w, -, hprev, -, hsurv, -⟩ := counter_survives {} (v := .first (lit "a") 1 ∅) rfl rfl
    (by decide) rfl hempty hrequests hrun hget rfl hacc hload (by decide) (by decide)
    (of_decide_eq_true hkey)
    (p := .get) (by decide : Spelled .get (lit "get")) (c := { id := 1 }) rfl rfl
    hadmits (by rintro ⟨⟩)
  refine ⟨s, reg, killed, hrun, hload, hsurv ⟨rfl, habs, ?_, fun _ => .inl (by decide)⟩⟩
  rw [hprev]
  decide

/-- A counter at the limit of the shared integers is not found under the new name. -/
theorem counter_lost :
    ∃ s reg killed,
      serveAll {} registeredA
          [ask [lit "incrby", keyName (lit "a") (lit "s"), lit "10000"]] = .ok s ∧
        s.get 0 (keyName (lit "a") (lit "s")) = some (counterEntry 10000) ∧
        s.get 0 (keyName (lit "b") (lit "s")) = none ∧
        specAccepts s.reg renameToB = some true ∧
        updSpec 1 (fun _ => 0) s.reg renameToB = .ok (reg, killed) ∧
        (∃ out, serve {} { id := 1 } getB { s with reg := reg } = .ok out ∧
          out.reply = [.nullBulk] ∧
          out.s.get 0 (keyName (lit "a") (lit "s")) ≠ none) ∧
        ¬ Survives {} { id := 1 } getB .get (keyName (lit "a") (lit "s")) 10000
          { s with reg := reg } := by
  obtain ⟨s, hrun, hget, habs, hacc, hload⟩ := ok_of_any
    (x := serveAll {} registeredA [ask [lit "incrby", keyName (lit "a") (lit "s"), lit "10000"]])
    (p := CountedTo 10000 fun reg s =>
      (serve {} { id := 1 } getB { s with reg := reg }).toOption.any fun out : Served =>
        decide (out.reply = [.nullBulk] ∧ out.s.get 0 (keyName (lit "a") (lit "s")) ≠ none))
    (by decide +kernel)
  obtain ⟨⟨reg, killed⟩, hload, hserve⟩ := ok_of_any hload
  obtain ⟨out, hout, hreply, hleft⟩ := ok_of_any hserve
  refine ⟨s, reg, killed, hrun, hget, habs, hacc, hload, ⟨out, hout, hreply, hleft⟩, ?_⟩
  rintro ⟨out', hout', -, hgone⟩
  cases hout.symm.trans hout'
  exact hleft hgone

end SchemaUpdate.KVolve
