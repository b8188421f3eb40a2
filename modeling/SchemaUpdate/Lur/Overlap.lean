import SchemaUpdate.Lur.FirstRead

/-! # Calls that overlap

Clients at the current version read, set and delete a key at the same time while its
only copy is at an older version. Each command of a call either settles the answer of
the call or changes nothing that another call could see. After a namespace change the
name of the copy is not among those that `get` watches: a `delete` that comes between
its second look and its transaction is undone. -/

namespace SchemaUpdate.Lur

open SchemaUpdate.Lib

/-- The calls. -/
inductive Op
  | get
  | set (value : Bytes) (o : SetOpts)
  | delete

inductive Ans
  | got (a : Except PyErr (Option Bytes))
  | wrote (a : Except PyErr (Option Bool))
  | deleted (a : Except PyErr Nat)

def Op.prog {J : Type} (py : Py J) (c : Client J) (name : Bytes) (depth : Nat) :
    Op → Prog Cmd.Reply Ans
  | .get => (Lur.get py c name depth).bind fun a => .ret (.got a)
  | .set value o => (Lur.set c name value o).bind fun a => .ret (.wrote a)
  | .delete => (Lur.delete c [name]).bind fun a => .ret (.deleted a)

namespace OldKey

section

variable {J : Type} (py : Py J) (g : OldKey) (c : Client J)

/-- The stages of a call, with its answer once that is settled. -/
inductive Stage (r : Redis) : Op → Option Ans → Prog Cmd.Reply Ans → Prop
  | asking {P : GetProg} (h : g.Asking py c r P) :
    Stage r .get none (P.bind fun a => .ret (.got a))
  | planting (h : ¬ g.Old r) :
    Stage r .get (some (.got (.ok none))) (g.plant.bind fun a => .ret (.got a))
  | got {a : Except PyErr (Option Bytes)} : Stage r .get (some (.got a)) (.ret (.got a))
  | setting {value : Bytes} {o : SetOpts} :
    Stage r (.set value o) none ((set c g.name value o).bind fun a => .ret (.wrote a))
  | clearing {value : Bytes} {o : SetOpts} {a : Except PyErr (Option Bool)}
    (h : o.flagged = false → ¬ g.Old r) :
    Stage r (.set value o) (some (.wrote a))
      ((delOlder g.name g.vl a).bind fun a => .ret (.wrote a))
  | wrote {value : Bytes} {o : SetOpts} {a : Except PyErr (Option Bool)} (h : ¬ g.Old r) :
    Stage r (.set value o) (some (.wrote a)) (.ret (.wrote a))
  | deleting : Stage r .delete none ((delete c [g.name]).bind fun a => .ret (.deleted a))
  | deleted {a : Except PyErr Nat} (h : ¬ g.Old r) :
    Stage r .delete (some (.deleted a)) (.ret (.deleted a))

/-- A command settles the answer of its call. -/
inductive Effect (P : Prog Cmd.Reply Ans) (r : Redis) : Op → Ans → Redis → Prop
  | sees {y : Item} (h : r.find g.new = some y) (hy : y.val ≠ placeholder) :
    Effect P r .get (.got (.ok (some y.val))) r
  | hidden {y : Item} (h : r.find g.new = some y) (hy : y.val = placeholder) :
    Effect P r .get (.got (.ok none)) r
  | mark {y : Item} (hlook : ∃ again w,
      P = (getLook py c g.name g.vl again w).bind fun a => .ret (.got a))
    (h : r.find g.new = some y) (hy : y.val = placeholder) :
    Effect P r .get (.got (.ok (some y.val))) r
  | nothing (h : g.Gone r) : Effect P r .get (.got (.ok none)) r
  | raises {err : PyErr} (hold : g.Old r)
    (hm : migrate py c g.name g.vl (g.index + 1) g.entry g.item.val = .error err) :
    Effect P r .get (.got (.error err)) r
  | moves {val : Bytes} (hold : g.Old r)
    (hm : migrate py c g.name g.vl (g.index + 1) g.entry g.item.val = .ok val) :
    Effect P r .get (.got (.ok (some val))) (moveAlone g.orig g.new g.item.val val r).2
  | sets {value : Bytes} {o : SetOpts} (ho : o.flagged = false) :
    Effect P r (.set value o) (.wrote (.ok (some true))) (r.put g.new (some ⟨value, none⟩))
  | setsIf {value : Bytes} {o : SetOpts} {a : Ans} {r' : Redis} (ho : o.flagged = true) :
    Effect P r (.set value o) a r'
  | deletes (hP : P = (delete c [g.name]).bind fun a => .ret (.deleted a)) :
    Effect P r .delete
      (.deleted (.ok ((potentialKeys g.name g.vl).dedup.filter fun k => (r.find k).isSome).length))
      ((potentialKeys g.name g.vl).foldl Redis.del r)

/-- A command that settles no answer. -/
inductive Aside (r : Redis) : Op → Redis → Prop
  | same {op : Op} : Aside r op r
  | planted (h : ¬ g.Old r) (hnew : r.find g.new = none) :
    Aside r .get (r.put g.new (some ⟨placeholder, none⟩))
  | cleared {value : Bytes} {o : SetOpts} (h : o.flagged = false → ¬ g.Old r) :
    Aside r (.set value o) ((potentialKeys g.name g.older).foldl Redis.del r)

def Owes (op : Op) (o : Option Ans) (P : Prog Cmd.Reply Ans) : Prop :=
  op ≠ .get ∧ o ≠ none ∧ P.Busy

def Both (r : Redis) : Prop := r.find g.new ≠ none ∧ r.find g.orig ≠ none

/-- The call goes on with what is left of it, and its answer is settled or not. -/
structure Goes (P : Prog Cmd.Reply Ans) (r : Redis) (op : Op) (o : Option Ans)
    (out : Prog Cmd.Reply Ans × Redis) (o' : Option Ans) : Prop where
  later : g.Later r out.2
  stage : g.Stage py c out.2 op o' out.1
  effect : (o' = o ∧ g.Aside r op out.2) ∨
    (o = none ∧ ∃ a, o' = some a ∧ g.Effect py c P r op a out.2)
  both : g.Both out.2 → Owes op o' out.1 ∨ (g.Both r ∧ ¬ Owes op o P)

/-- The call goes on, and a transaction of it that goes through moves the old copy. -/
def Advances (P : Prog Cmd.Reply Ans) (r : Redis) (op : Op) (o : Option Ans) : Prop :=
  (∃ o', g.Goes py c P r op o (P.next serve r) o') ∧
    (commits P r = true → g.Old r ∧ ¬ g.Old (P.next serve r).2)

end

variable {J : Type} {py : Py J} {g : OldKey} {c : Client J} {r r' : Redis} {op : Op}
  {o : Option Ans} {P : Prog Cmd.Reply Ans}

theorem Stage.later (h : g.Stage py c r op o P) (hr : g.Later r r') : g.Stage py c r' op o P := by
  cases h with
  | asking h => exact .asking (h.later hr)
  | planting h => exact .planting fun h' => h (hr.old h')
  | got => exact .got
  | setting => exact .setting
  | clearing h => exact .clearing fun ho h' => h ho (hr.old h')
  | wrote h => exact .wrote fun h' => h (hr.old h')
  | deleting => exact .deleting
  | deleted h => exact .deleted fun h' => h (hr.old h')

theorem commits_bind {α β : Type} {Q : Prog Cmd.Reply α} (h : Q.Busy) (f : α → Prog Cmd.Reply β)
    (r : Redis) : commits (Q.bind f) r = commits Q r := by
  obtain ⟨cmd, k, rfl⟩ := h
  cases cmd <;> rfl

theorem put_not_old {y : Item} (hy : y.expire.all (r.now < ·) = true) :
    ¬ g.Old (r.put g.new (some y)) := by
  rintro ⟨hnew, -⟩
  rw [Redis.find_put_live hy, if_pos rfl] at hnew
  cases hnew

theorem delAll_not_old {ks : List Bytes} (hks : g.orig ∈ ks) :
    ¬ g.Old (ks.foldl Redis.del r) := by
  rintro ⟨-, horig⟩
  rw [Redis.find_delAll, if_pos hks] at horig
  cases horig

/-! ## The calls, command by command -/

theorem serveSet_later (value : Bytes) (o : SetOpts) (r : Redis) :
    g.Later r (serveSet g.new value o r).2 := by
  unfold serveSet
  cases he : o.expire r.now with
  | error e => exact Later.refl r
  | ok expire =>
    simp only
    split
    · exact Later.refl r
    · refine Later.put r ?_
      unfold SetOpts.expire at he
      split at he
      · split at he
        · cases he
        · cases he
          exact decide_eq_true (by omega)
      · split at he
        · cases he
        · cases he
          exact decide_eq_true (by omega)
      · cases he
        rfl

theorem delOlder_eq (a : Except PyErr (Option Bool)) : delOlder g.name g.vl a =
    .call (.del (potentialKeys g.name g.older)) fun _ => .ret a := by
  unfold delOlder
  have hkeys : keysToDel g.name g.vl = potentialKeys g.name g.older := rfl
  have hne : (potentialKeys g.name g.older).isEmpty = false := by
    cases hl : potentialKeys g.name g.older with
    | nil =>
      have hmem := g.orig_mem
      rw [hl] at hmem
      cases hmem
    | cons k ks => rfl
  rw [hkeys, hne]
  rfl

/-- A `get` owes nothing. -/
theorem get_both {o' : Option Ans} {P' : Prog Cmd.Reply Ans} (hr : g.Both r' → g.Both r)
    (hboth : g.Both r') : Owes .get o' P' ∨ (g.Both r ∧ ¬ Owes .get o P) :=
  .inr ⟨hr hboth, fun h => h.1 rfl⟩

theorem Stage.answer {a b : Ans} (h : g.Stage py c r op (some b) (.ret a)) : a = b := by
  generalize hP : (Prog.ret a : Prog Cmd.Reply Ans) = P at h
  generalize hb : some b = o at h
  cases h with
  | asking _ | setting | deleting => cases hb
  | planting _ => cases hP
  | clearing _ =>
    rw [delOlder_eq] at hP
    cases hP
  | got | wrote _ | deleted _ =>
    cases hb
    cases hP
    rfl

/-- A placeholder is left if there is still nothing under the new name. -/
theorem plant_advances (ht : g.Tame r) (hgone : ¬ g.Old r) :
    g.Advances py c (g.plant.bind fun a => .ret (.got a)) r .get (some (.got (.ok none))) := by
  refine ⟨?_, by simp [plant, commits]⟩
  cases hnew : r.find g.new with
  | some y =>
    have hnext : (g.plant.bind fun a => .ret (Ans.got a)).next serve r =
        (.ret (.got (.ok none)), r) := by
      simp [plant, Prog.next, serve, hnew]
    rw [hnext]
    exact ⟨_, Later.refl r, .got, .inl ⟨rfl, .same⟩, get_both id⟩
  | none =>
    have hnext : (g.plant.bind fun a => .ret (Ans.got a)).next serve r =
        (.ret (.got (.ok none)), r.put g.new (some ⟨placeholder, none⟩)) := by
      simp [plant, Prog.next, serve, hnew]
    rw [hnext]
    refine ⟨_, Later.put r rfl, .got, .inl ⟨rfl, .planted hgone hnew⟩, fun h => ?_⟩
    have horig := h.2
    rw [Redis.find_put_lasting, if_neg g.orig_ne_new] at horig
    obtain hsome | hnone := ht.orig
    · exact absurd ⟨hnew, hsome⟩ hgone
    · exact absurd hnone horig

variable (hc : Knows c g.name g.vl)

include hc

theorem set_flagged {value : Bytes} {o : SetOpts} (ho : o.flagged = true) :
    set c g.name value o =
      .call (.set g.new value { o with ex := truthy o.ex, px := truthy o.px })
        fun (r : Except Unit Bool) => delOlder g.name g.vl (setReply r) := by
  have hc : Knows c g.name (g.cur :: g.older) := hc
  rw [set, hc.versions, hc.currVersion]
  simp only [ho, if_true]
  rfl

theorem set_plain {value : Bytes} {o : SetOpts} (ho : o.flagged = false) :
    set c g.name value o = .call (.getset g.new value) fun (r : Option Bytes) =>
      match r with
      | some _ => .ret (.ok (some true))
      | none => delOlder g.name g.vl (.ok (some true)) := by
  have hc : Knows c g.name (g.cur :: g.older) := hc
  rw [set, hc.versions, hc.currVersion]
  simp only [ho, Bool.false_eq_true, if_false]
  rfl

theorem delete_eq : delete c [g.name] =
    .call (.del (potentialKeys g.name g.vl)) fun (n : Nat) => .ret (.ok n) := by
  have hnames : deleteNames c [g.name] = .ok (potentialKeys g.name g.vl) := by
    simp only [deleteNames, hc.versions]
    exact congrArg Except.ok (List.append_nil _)
  rw [delete, hnames]
  rfl

theorem Stage.busy (h : g.Stage py c r op none P) : P.Busy := by
  cases h with
  | asking h => exact (h.busy hc).bind _
  | @setting value o =>
    cases ho : o.flagged with
    | true =>
      rw [set_flagged hc ho]
      exact ⟨_, _, rfl⟩
    | false =>
      rw [set_plain hc ho]
      exact ⟨_, _, rfl⟩
  | deleting =>
    rw [delete_eq hc]
    exact ⟨_, _, rfl⟩

theorem Asking.advances (ht : g.Tame r) {Q : GetProg} (hask : g.Asking py c r Q)
    (hlate : commits Q r = true → r.find g.orig ≠ none) :
    g.Advances py c (Q.bind fun a => .ret (.got a)) r .get none := by
  have hbusy := hask.busy hc
  have hstep := hask.next hc ht
  rw [Advances, commits_bind hbusy, hbusy.next_bind]
  generalize commits Q r = b at hstep hlate ⊢
  generalize (Q.next serve r).1 = Q' at hstep ⊢
  generalize (Q.next serve r).2 = r' at hstep ⊢
  cases hstep with
  | on h => exact ⟨⟨_, Later.refl r, .asking h, .inl ⟨rfl, .same⟩, get_both id⟩, by simp⟩
  | sees h hy =>
    exact ⟨⟨_, Later.refl r, .got, .inr ⟨rfl, _, rfl, .sees h hy⟩, get_both id⟩, by simp⟩
  | hidden h hy =>
    exact ⟨⟨_, Later.refl r, .got, .inr ⟨rfl, _, rfl, .hidden h hy⟩, get_both id⟩, by simp⟩
  | mark hlook h hy =>
    obtain ⟨again, w, rfl⟩ := hlook
    exact ⟨⟨_, Later.refl r, .got, .inr ⟨rfl, _, rfl, .mark ⟨again, w, rfl⟩ h hy⟩, get_both id⟩,
      by simp⟩
  | nothing h =>
    exact ⟨⟨_, Later.refl r, .got, .inr ⟨rfl, _, rfl, .nothing h⟩, get_both id⟩, by simp⟩
  | plants h =>
    exact ⟨⟨_, Later.refl r, .planting h.not_old, .inr ⟨rfl, _, rfl, .nothing h⟩, get_both id⟩,
      by simp⟩
  | raises hold hm =>
    exact ⟨⟨_, Later.refl r, .got, .inr ⟨rfl, _, rfl, .raises hold hm⟩, get_both id⟩, by simp⟩
  | moves hold hm =>
    exact ⟨⟨_, Later.move hold.2 _, .got, .inr ⟨rfl, _, rfl, .moves hold hm⟩,
      fun h => absurd (moved hold.2).2 h.2⟩, fun _ => ⟨hold, (moved hold.2).not_old⟩⟩
  | late _ horig _ => exact absurd horig (hlate rfl)

/-- A `set` writes the value first; without flags it owes the older copies if there was no
current one. -/
theorem set_advances (value : Bytes) (o : SetOpts) :
    g.Advances py c ((set c g.name value o).bind fun a => .ret (.wrote a)) r (.set value o) none := by
  have howes : ∀ {a : Except PyErr (Option Bool)}, Owes (.set value o) (some (.wrote a))
      ((delOlder g.name g.vl a).bind fun a => .ret (.wrote a)) := by
    intro a
    rw [delOlder_eq]
    exact ⟨by simp, by simp, _, _, rfl⟩
  cases ho : o.flagged with
  | true =>
    rw [set_flagged hc ho]
    refine ⟨⟨_, serveSet_later value _ r, .clearing fun h => ?_, .inr ⟨rfl, _, rfl, .setsIf ho⟩,
      fun _ => .inl howes⟩, by simp [commits]⟩
    rw [ho] at h
    cases h
  | false =>
    rw [set_plain hc ho]
    refine ⟨?_, by simp [commits]⟩
    have hlater : g.Later r (r.put g.new (some ⟨value, none⟩)) := Later.put r rfl
    have hnot : ¬ g.Old (r.put g.new (some ⟨value, none⟩)) := put_not_old rfl
    cases hnew : r.find g.new with
    | some y =>
      simp only [Prog.call_bind, Prog.next, serve, Redis.val?, hnew, Option.map_some,
        Prog.ret_bind]
      refine ⟨_, hlater, .wrote hnot, .inr ⟨rfl, _, rfl, .sets ho⟩, fun h => .inr ⟨⟨?_, ?_⟩, ?_⟩⟩
      · rw [hnew]
        simp
      · have horig := h.2
        rwa [Redis.find_put_lasting, if_neg g.orig_ne_new] at horig
      · exact fun h => h.2.1 rfl
    | none =>
      simp only [Prog.call_bind, Prog.next, serve, Redis.val?, hnew, Option.map_none]
      exact ⟨_, hlater, .clearing fun _ => hnot, .inr ⟨rfl, _, rfl, .sets ho⟩, fun _ => .inl howes⟩

theorem delete_advances :
    g.Advances py c ((delete c [g.name]).bind fun a => .ret (.deleted a)) r .delete none := by
  have hmem : g.orig ∈ potentialKeys g.name g.vl := List.mem_cons_of_mem _ g.orig_mem
  have horig : ((potentialKeys g.name g.vl).foldl Redis.del r).find g.orig = none := by
    rw [Redis.find_delAll, if_pos hmem]
  refine ⟨?_, by rw [delete_eq hc]; simp [commits]⟩
  have hnext : ((delete c [g.name]).bind fun a => .ret (Ans.deleted a)).next serve r =
      (.ret (.deleted (.ok
        ((potentialKeys g.name g.vl).dedup.filter fun k => (r.find k).isSome).length)),
        (potentialKeys g.name g.vl).foldl Redis.del r) := by
    rw [delete_eq hc]
    rfl
  rw [hnext]
  exact ⟨_, Later.delAll r hmem, .deleted (delAll_not_old hmem),
    .inr ⟨rfl, _, rfl, .deletes rfl⟩, fun h => absurd horig h.2⟩

/-- **The next command of a call**, when no transaction goes through after the copy is gone. -/
theorem Stage.next (ht : g.Tame r) (h : g.Stage py c r op o P)
    (hlate : commits P r = true → r.find g.orig ≠ none) : g.Advances py c P r op o := by
  cases h with
  | asking hask =>
    rw [commits_bind (hask.busy hc)] at hlate
    exact hask.advances hc ht hlate
  | planting hgone => exact plant_advances ht hgone
  | got => exact ⟨⟨_, Later.refl r, .got, .inl ⟨rfl, .same⟩, get_both id⟩, by simp [commits]⟩
  | setting => exact set_advances hc _ _
  | clearing hgone =>
    rw [delOlder_eq]
    have horig : ((potentialKeys g.name g.older).foldl Redis.del r).find g.orig = none := by
      rw [Redis.find_delAll, if_pos g.orig_mem]
    exact ⟨⟨_, Later.delAll r g.orig_mem, .wrote (delAll_not_old g.orig_mem),
      .inl ⟨rfl, .cleared hgone⟩, fun h => absurd horig h.2⟩, by simp [commits]⟩
  | wrote hgone =>
    exact ⟨⟨_, Later.refl r, .wrote hgone, .inl ⟨rfl, .same⟩,
      fun h => .inr ⟨h, fun h' => Prog.not_busy_ret _ h'.2.2⟩⟩, by simp [commits]⟩
  | deleting => exact delete_advances hc
  | deleted hgone =>
    exact ⟨⟨_, Later.refl r, .deleted hgone, .inl ⟨rfl, .same⟩,
      fun h => .inr ⟨h, fun h' => Prog.not_busy_ret _ h'.2.2⟩⟩, by simp [commits]⟩

omit hc in
theorem Stage.ended {a : Ans} (h : g.Stage py c r op o (.ret a)) (hop : op ≠ .get)
    (hc : Knows c g.name g.vl) : ¬ g.Old r := by
  generalize hP : (Prog.ret a : Prog Cmd.Reply Ans) = P at h
  have hend : ¬ P.Busy := by
    rw [← hP]
    exact Prog.not_busy_ret a
  cases h with
  | asking _ | planting _ | got => exact absurd rfl hop
  | setting => exact absurd (Stage.busy hc (show g.Stage py c r _ none _ from .setting)) hend
  | clearing _ =>
    rw [delOlder_eq] at hend
    exact absurd ⟨_, _, rfl⟩ hend
  | wrote h => exact h
  | deleting => exact absurd (Stage.busy hc (show g.Stage py c r _ none _ from .deleting)) hend
  | deleted h => exact h

end OldKey

/-! ## Any number of calls -/

section

variable {J ι : Type} [DecidableEq ι] (py : Py J) (g : OldKey) (clients : ι → Client J)
  (calls : ι → Op)

/-- Each client is about to make its call, with room for two attempts and more. -/
def callers (depth : ι → Nat) : Pool Cmd.Reply ι Ans Redis :=
  ⟨g.store, fun i => (calls i).prog py (clients i) g.name (depth i + 2)⟩

/-- If the next command is a transaction that goes through, the copy is still there. -/
def OldKey.CopyThere (p : Pool Cmd.Reply ι Ans Redis) (i : ι) : Prop :=
  commits (p.procs i) p.server = true → p.server.find g.orig ≠ none

/-- Every call is at one of its stages; a transaction goes through at most once. -/
structure OldKey.Racing (p : Pool Cmd.Reply ι Ans Redis) (n : Nat) : Prop where
  tame : g.Tame p.server
  procs : ∀ i, ∃ o, g.Stage py (clients i) p.server (calls i) o (p.procs i)
  count : n = 0 ∨ (n = 1 ∧ ¬ g.Old p.server)

variable {py g clients calls}

omit [DecidableEq ι] in
theorem OldKey.callers_stage (depth : ι → Nat) (i : ι) :
    g.Stage py (clients i) g.store (calls i) none
      ((callers py g clients calls depth).procs i) := by
  show g.Stage py (clients i) g.store (calls i) none
    ((calls i).prog py (clients i) g.name (depth i + 2))
  cases calls i with
  | get => exact .asking (.start (by omega) fun _ => by omega)
  | set value o => exact .setting
  | delete => exact .deleting

/-- One command of any caller whose copy is still there. -/
theorem OldKey.Racing.step (hc : ∀ i, Knows (clients i) g.name g.vl)
    (p : Pool Cmd.Reply ι Ans Redis) (n : Nat) (i : ι) (h : g.Racing py clients calls p n)
    (hcond : g.CopyThere p i) :
    g.Racing py clients calls (p.step serve i)
      (n + if commits (p.procs i) p.server then 1 else 0) := by
  obtain ⟨ht, hprocs, hcount⟩ := h
  obtain ⟨o, hstage⟩ := hprocs i
  obtain ⟨⟨o', hlater, hstage', -, -⟩, hold⟩ := hstage.next (hc i) ht hcond
  rw [Pool.step_next]
  refine ⟨hlater.tame ht, fun j => ?_, ?_⟩
  · by_cases hj : j = i
    · subst hj
      exact ⟨o', by simpa using hstage'⟩
    · obtain ⟨oj, hj'⟩ := hprocs j
      exact ⟨oj, by simpa [Function.update_of_ne hj] using hj'.later hlater⟩
  · cases hcommits : commits (p.procs i) p.server with
    | false =>
      obtain rfl | ⟨rfl, hnot⟩ := hcount
      · exact .inl rfl
      · exact .inr ⟨rfl, fun h => hnot (hlater.old h)⟩
    | true =>
      obtain rfl | ⟨rfl, hnot⟩ := hcount
      · exact .inr ⟨rfl, (hold hcommits).2⟩
      · exact absurd (hold hcommits).1 hnot

theorem OldKey.callers_racing (hc : ∀ i, Knows (clients i) g.name g.vl) (depth : ι → Nat)
    {cond : Pool Cmd.Reply ι Ans Redis → ι → Prop}
    (hcond : ∀ p n i, g.Racing py clients calls p n → cond p i → g.CopyThere p i)
    {sched : List ι} (h : (callers py g clients calls depth).Along serve cond sched) :
    g.Racing py clients calls ((callers py g clients calls depth).run serve sched)
      (execs (callers py g clients calls depth) sched) := by
  have hstart : g.Racing py clients calls (callers py g clients calls depth) 0 :=
    ⟨g.store_tame, fun i => ⟨none, OldKey.callers_stage depth i⟩, .inl rfl⟩
  have hrun : g.Racing py clients calls ((callers py g clients calls depth).run serve sched)
      (0 + execs (callers py g clients calls depth) sched) :=
    Pool.Along.inv_tally (I := g.Racing py clients calls)
      (fun p n i hp hi => OldKey.Racing.step hc p n i hp (hcond p n i hp hi)) hstart h
  rw [Nat.zero_add] at hrun
  exact hrun

/-- **A `set` or `delete` that has returned is not undone**: the transaction of a `get` changes
nothing any more, and at most one goes through, as long as none goes through after the copy is
gone. -/
theorem returned_never_undone (py : Py J) (g : OldKey) {clients : ι → Client J}
    (hclients : ∀ i, Knows (clients i) g.name g.vl) (calls : ι → Op) (depth : ι → Nat)
    (sched : List ι)
    (hcond : (callers py g clients calls depth).Along serve g.CopyThere sched) :
    let p := callers py g clients calls depth
    (∀ s i t j a w l k, sched = s ++ i :: t → calls j ≠ .get →
        (p.run serve s).procs j = .ret a → (p.run serve s).procs i = .call (.exec w l) k →
        (p.run serve (s ++ [i])).server = (p.run serve s).server) ∧
      execs p sched ≤ 1 := by
  intro p
  constructor
  · rintro s i t j a w l k rfl hj hret hexec
    obtain ⟨hbefore, hat, -⟩ := (Pool.along_append serve).mp hcond
    have hracing := OldKey.callers_racing hclients depth (fun _ _ _ _ h => h) hbefore
    obtain ⟨oj, hstagej⟩ := hracing.procs j
    rw [hret] at hstagej
    have hnot := hstagej.ended hj (hclients j)
    obtain ⟨o, hstage⟩ := hracing.procs i
    have hcommits := (hstage.next (hclients i) hracing.tame hat).2
    cases hclean : (p.run serve s).server.clean w with
    | true =>
      rw [hexec] at hcommits
      exact absurd (hcommits hclean).1 hnot
    | false =>
      rw [Pool.run_append]
      show ((p.run serve s).step serve i).server = (p.run serve s).server
      rw [Pool.step_call serve hexec]
      simp [serve, hclean]
  · have hcount : execs p sched = 0 ∨ (execs p sched = 1 ∧ _) :=
      (OldKey.callers_racing hclients depth (fun _ _ _ _ h => h) hcond).count
    omega

end

/-! ## A key from before a rename -/

def demoMover : Client Bytes :=
  ⟨fun ns => if ns = lit "b" then some (lit "v1") else none,
    fun ns => if ns = lit "b" then some [(lit "v1", lit "b"), (lit "v0", lit "a")] else none,
    fun n => if n = ⟨lit "v0", lit "v1", lit "a", lit "b"⟩ then some [demoRule] else none⟩

def demoMoved : OldKey where
  name := lit "b:s"
  cur := (lit "v1", lit "b")
  older := [(lit "v0", lit "a")]
  store := (Redis.init 0).put (lit "v0|a:s") (some ⟨lit "\"0\"", none⟩)
  index := 0
  entry := (lit "v0", lit "a")
  item := ⟨lit "\"0\"", none⟩
  current := by decide
  entry_eq := rfl
  first j d hj hd := by
    obtain rfl : j = 0 := by omega
    cases hd
    decide
  here := by decide
  only := by decide

def demoCalls : Bool → Op
  | true => .get
  | false => .delete

theorem demoMover_knows : Knows demoMover demoMoved.name demoMoved.vl := by
  have hsplit : (splitNamespaceKey demoMoved.name).1 = lit "b" := by decide
  rw [Knows, hsplit]
  rfl

def demoOrder : List Bool := [true, false, true, true, true, true, true]

theorem demo_not_undone : execs (callers demoPy demoMoved (fun _ => demoMover) demoCalls
    fun _ => 0) demoOrder ≤ 1 := by
  have hcond : (callers demoPy demoMoved (fun _ => demoMover) demoCalls fun _ => 0).Along serve
      demoMoved.CopyThere demoOrder := by
    refine ⟨?_, ?_, ?_, ?_, ?_, ?_, ?_, trivial⟩ <;>
      · intro h
        cases h
  exact (returned_never_undone demoPy demoMoved (fun _ => demoMover_knows) demoCalls (fun _ => 0)
    demoOrder hcond).2

/-- Without the condition two transactions can go through: the functions leave the value as it
is, and each `RENAME` finds the copy deleted and changes nothing. -/
example :
    let keep : Rule Bytes := ⟨lit "*", [fun k j => .ok ⟨some k, j, j⟩], lit "v1"⟩
    let calls : Fin 3 → Op := fun i => if i = 2 then .delete else .get
    execs (callers demoPy demoMoved (fun _ => { demoMover with updDict := fun _ => some [keep] })
      calls fun _ => 0) (List.replicate 6 0 ++ List.replicate 6 1 ++ [2, 0, 1]) = 2 := rfl

/-- The `delete` comes between the second look and the transaction: it returns 1, and then the
key is back. The name of the copy is not watched. -/
theorem deleted_comes_back :
    let p := callers demoPy demoMoved (fun _ => demoMover) demoCalls fun _ => 0
    let s := List.replicate 7 true ++ [false]
    (p.run serve s).procs false = .ret (.deleted (.ok 1)) ∧
      (∀ n ∈ potentialKeys demoMoved.name demoMoved.vl, (p.run serve s).server.find n = none) ∧
      (p.run serve (s ++ [true])).server.find demoMoved.new = some ⟨lit "\"01\"", none⟩ ∧
      RKey.data demoMoved.orig ∉ watchedKeys demoMoved.name demoMoved.vl := by
  refine ⟨rfl, by decide, rfl, by decide⟩

end SchemaUpdate.Lur
