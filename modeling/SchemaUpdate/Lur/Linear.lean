import SchemaUpdate.Lur.Overlap
import SchemaUpdate.Lur.Single
import Mathlib.Data.List.Dedup
import Mathlib.Data.List.Nodup
import Mathlib.Data.List.Induction

/-! # Migration within a namespace is linearizable

As long as the namespace has kept its name, every name a `get` reads is also watched.
The calls then answer as if they had been made one after the other: each takes effect
with one of its commands. Two things break this: a `delete` that finds the old copy
next to the value of a `set` counts both, and the second look of a `get` takes a
placeholder for a value. -/

namespace SchemaUpdate.Lur

open SchemaUpdate.Lib

/-! ## One call after the other -/

/-- What is found under a name; a placeholder counts as nothing. -/
def shown (r : Redis) (n : Bytes) : Option Item := (r.find n).filter (·.val ≠ placeholder)

theorem shown_none {r : Redis} {n : Bytes} (h : r.find n = none) : shown r n = none := by
  rw [shown, h]
  rfl

theorem shown_placeholder {r : Redis} {n : Bytes} {y : Item} (h : r.find n = some y)
    (hy : y.val = placeholder) : shown r n = none := by
  rw [shown, h, Option.filter_some, if_neg (by simp [hy])]

namespace OldKey

def SameCopies (g : OldKey) (r r' : Redis) : Prop :=
  r'.now = r.now ∧ ∀ n ∈ potentialKeys g.name g.vl, shown r' n = shown r n

variable {g : OldKey}

theorem SameCopies.refl (r : Redis) : g.SameCopies r r := ⟨rfl, fun _ _ => rfl⟩

theorem SameCopies.symm {r r' : Redis} (h : g.SameCopies r r') : g.SameCopies r' r :=
  ⟨h.1.symm, fun n hn => (h.2 n hn).symm⟩

theorem SameCopies.trans {r s t : Redis} (h : g.SameCopies r s) (h' : g.SameCopies s t) :
    g.SameCopies r t := ⟨h'.1.trans h.1, fun n hn => (h'.2 n hn).trans (h.2 n hn)⟩

end OldKey

section

variable {J ι : Type} (py : Py J) (g : OldKey) (clients : ι → Client J) (calls : ι → Op)
  (depth : ι → Nat)

/-- The calls are made one after the other, each alone, with these answers. There is never more
than one copy, and between the calls a placeholder may come or go. -/
inductive Sequential : Redis → List (ι × Ans) → Redis → Prop
  | nil {r r' : Redis} (h : g.SameCopies r r') : Sequential r [] r'
  | call {r s t : Redis} {i : ι} {a : Ans} {log : List (ι × Ans)} (h : g.SameCopies r s)
    (hone : OneCopy s g.name g.vl)
    (hans : (((calls i).prog py (clients i) g.name (depth i + 2)).run serve s).1 = a)
    (hrest : Sequential (((calls i).prog py (clients i) g.name (depth i + 2)).run serve s).2 log t) :
    Sequential r ((i, a) :: log) t

variable {py g clients calls depth}

theorem Sequential.same {r s t : Redis} {log : List (ι × Ans)}
    (h : Sequential py g clients calls depth r log s) (hst : g.SameCopies s t) :
    Sequential py g clients calls depth r log t := by
  induction h with
  | nil h => exact .nil (h.trans hst)
  | call h hone hans _ ih => exact .call h hone hans (ih hst)

theorem Sequential.snoc {r s t : Redis} {log : List (ι × Ans)} {i : ι} {a : Ans}
    (h : Sequential py g clients calls depth r log s) (hone : OneCopy s g.name g.vl)
    (hans : (((calls i).prog py (clients i) g.name (depth i + 2)).run serve s).1 = a)
    (hst : g.SameCopies
      (((calls i).prog py (clients i) g.name (depth i + 2)).run serve s).2 t) :
    Sequential py g clients calls depth r (log ++ [(i, a)]) t := by
  induction h with
  | nil h => exact .call h hone hans (.nil hst)
  | call h hone' hans' _ ih => exact .call h hone' hans' (ih hone hans hst)

end

/-! ## The store between two effects -/

namespace OldKey

variable {J : Type} {py : Py J} {g : OldKey} {c : Client J} {r r' : Redis}

/-- The store without the older copies, if there is a current one. -/
def settle (g : OldKey) (r : Redis) : Redis :=
  if (r.find g.new).isSome then (potentialKeys g.name g.older).foldl Redis.del r else r

theorem settle_now : (g.settle r).now = r.now := by
  unfold settle
  split
  · exact (Since.delAll r _).now
  · rfl

theorem settle_none (h : r.find g.new = none) : g.settle r = r := by
  rw [settle, h]
  rfl

theorem mem_names {n : Bytes} : n ∈ potentialKeys g.name g.vl ↔
    n = g.new ∨ n ∈ potentialKeys g.name g.older := by
  have hcons : potentialKeys g.name g.vl = nameAt g.name g.cur :: potentialKeys g.name g.older := rfl
  rw [hcons, g.current, List.mem_cons]
  rfl

theorem settle_older {y : Item} (hnew : r.find g.new = some y) {n : Bytes}
    (hn : n ∈ potentialKeys g.name g.older) : (g.settle r).find n = none := by
  rw [settle, hnew, Option.isSome_some, if_pos rfl, Redis.find_delAll, if_pos hn]

theorem sameCopies_current {s t : Redis} (hnow : t.now = s.now) (hnew : shown t g.new = shown s g.new)
    (hs : ∀ n ∈ potentialKeys g.name g.older, s.find n = none)
    (ht : ∀ n ∈ potentialKeys g.name g.older, t.find n = none) : g.SameCopies s t := by
  refine ⟨hnow, fun n hn => ?_⟩
  obtain rfl | hn := mem_names.mp hn
  · exact hnew
  · rw [shown_none (hs n hn), shown_none (ht n hn)]

theorem getAlone_sees (py : Py J) (c : Client J) {y : Item} (h : r.find g.new = some y)
    (hy : y.val ≠ placeholder) :
    getAlone py c g.name g.cur g.older r = (.ok (some y.val), r) := by
  have hfound := Tame.found_new h
  rw [vl] at hfound
  unfold getAlone
  rw [g.val?_new, h]
  simp only [Option.map_some, hy, if_false]
  split
  · rfl
  · rw [getAllAlone, hfound]

theorem getAlone_none (py : Py J) (c : Client J) (h : r.find g.new = none) :
    getAlone py c g.name g.cur g.older r = getAllAlone py c g.name g.cur g.older r := by
  unfold getAlone
  rw [g.val?_new, h]
  rfl

section

variable (hrep : g.new ∉ potentialKeys g.name g.older)

include hrep

theorem settle_new : (g.settle r).find g.new = r.find g.new := by
  unfold settle
  split
  · rw [Redis.find_delAll, if_neg hrep]
  · rfl

variable (ht : g.Tame r)

include ht

theorem Tame.older_gone (horig : r.find g.orig = none) {n : Bytes}
    (hn : n ∈ potentialKeys g.name g.older) : r.find n = none := by
  obtain ⟨d, hd, rfl⟩ := List.mem_map.mp hn
  by_cases ho : nameAt g.name d = g.orig
  · rw [ho, horig]
  · refine ht.others d hd ho fun h => hrep ?_
    rw [← h]
    exact hn

theorem Tame.settled (h : r.find g.new = none ∨ r.find g.orig = none) :
    ∀ n ∈ potentialKeys g.name g.vl, (g.settle r).find n = r.find n := by
  intro n hn
  cases hnew : r.find g.new with
  | none => rw [settle_none hnew]
  | some y =>
    have horig : r.find g.orig = none := by
      obtain h | h := h
      · rw [h] at hnew
        cases hnew
      · exact h
    obtain rfl | hn := mem_names.mp hn
    · exact settle_new hrep
    · rw [settle_older hnew hn, ht.older_gone hrep horig hn]

theorem Tame.same_settle (h : r.find g.new = none ∨ r.find g.orig = none) :
    g.SameCopies (g.settle r) r :=
  ⟨settle_now.symm, fun n hn => by rw [shown, shown, ht.settled hrep h n hn]⟩

theorem Tame.settle_one : OneCopy (g.settle r) g.name g.vl := by
  -- whatever is found is the current name, or the copy if there is no current one
  have hname : ∀ p ∈ copies g.name g.vl, ((g.settle r).find p).isSome →
      p = if (r.find g.new).isSome then g.new else g.orig := by
    intro p hp hsome
    cases hnew : r.find g.new with
    | some y =>
      obtain rfl | rfl | hp := mem_copies_cons.mp hp
      · rfl
      · exact g.current
      · rw [settle_older hnew hp] at hsome
        cases hsome
    | none =>
      rw [settle_none hnew] at hsome
      obtain rfl | rfl | hp := mem_copies_cons.mp hp
      · have hnew : r.find (versioned g.cur.1 g.name) = none := hnew
        rw [hnew] at hsome
        cases hsome
      · have hnew : r.find (versioned g.cur.1 g.name) = none := hnew
        rw [g.current, hnew] at hsome
        cases hsome
      · obtain ⟨d, hd, rfl⟩ := List.mem_map.mp hp
        by_contra ho
        rw [ht.others d hd ho fun h => hrep (by rw [← h]; exact hp)] at hsome
        cases hsome
  intro p hp p' hp' hsome hsome'
  rw [hname p hp hsome, hname p' hp' hsome']

theorem Aside.sameCopies {op : Op}
    (hflag : ∀ value o, op = .set value o → o.flagged = false) (h : g.Aside r op r') :
    g.SameCopies (g.settle r) (g.settle r') := by
  cases h with
  | same => exact SameCopies.refl _
  | planted hnot hnew =>
    have hgone : g.Gone r := by
      obtain ⟨y, hy⟩ | hold | hgone := ht.cases
      · rw [hnew] at hy
        cases hy
      · exact absurd hold hnot
      · exact hgone
    have hput : (r.put g.new (some ⟨placeholder, none⟩)).find g.new =
        some ⟨placeholder, none⟩ := by rw [Redis.find_put_lasting, if_pos rfl]
    have holder : ∀ n ∈ potentialKeys g.name g.older, r.find n = none :=
      fun n hn => hgone n (mem_names.mpr (.inr hn))
    rw [settle_none hnew]
    refine sameCopies_current settle_now ?_ holder fun n hn => settle_older hput hn
    rw [shown_none hnew]
    exact shown_placeholder ((settle_new hrep).trans hput) rfl
  | @cleared value o hnot =>
    have hnot := hnot (hflag value o rfl)
    have hnow := (Since.delAll r (potentialKeys g.name g.older)).now
    have hnew : ((potentialKeys g.name g.older).foldl Redis.del r).find g.new = r.find g.new := by
      rw [Redis.find_delAll, if_neg hrep]
    have holder : ∀ n ∈ potentialKeys g.name g.older,
        ((potentialKeys g.name g.older).foldl Redis.del r).find n = none := by
      intro n hn
      rw [Redis.find_delAll, if_pos hn]
    obtain ⟨y, hy⟩ | hold | hgone := ht.cases
    · refine sameCopies_current ?_ ?_ (fun n hn => settle_older hy hn)
        (fun n hn => settle_older (hnew.trans hy) hn)
      · rw [settle_now, settle_now, hnow]
      · rw [shown, shown, settle_new hrep, settle_new hrep, hnew]
    · exact absurd hold hnot
    · rw [settle_none hgone.new, settle_none (hnew.trans hgone.new)]
      refine sameCopies_current hnow ?_ (fun n hn => hgone n (mem_names.mpr (.inr hn))) holder
      rw [shown, shown, hnew]

end

/-! ## A call alone -/

/-- Alone, the call answers `a` and leaves the copies that there are in `r'`. -/
def AnswersAlone (g : OldKey) (py : Py J) (c : Client J) (depth : Nat) (r : Redis) (op : Op)
    (a : Ans) (r' : Redis) : Prop :=
  ((op.prog py c g.name (depth + 2)).run serve (g.settle r)).1 = a ∧
    g.SameCopies ((op.prog py c g.name (depth + 2)).run serve (g.settle r)).2 (g.settle r')

section

variable (hc : Knows c g.name g.vl) (depth : Nat)

include hc

theorem answersAlone_get {a : Except PyErr (Option Bytes)} {s : Redis}
    (hrun : getAlone py c g.name g.cur g.older (g.settle r) = (a, s))
    (hsame : g.SameCopies s (g.settle r')) : g.AnswersAlone py c depth r .get (.got a) r' := by
  have hc : Knows c g.name (g.cur :: g.older) := hc
  have hget : (Op.get.prog py c g.name (depth + 2)).run serve (g.settle r) = (.got a, s) := by
    rw [Op.prog, Prog.run_bind, run_get py hc, hrun]
    rfl
  rw [AnswersAlone, hget]
  exact ⟨rfl, hsame⟩

/-- A `get` that finds nothing leaves a placeholder. -/
theorem answersAlone_nothing (h : g.Gone r) :
    g.AnswersAlone py c depth r .get (.got (.ok none)) r := by
  have hfound := h.found
  rw [vl] at hfound
  refine answersAlone_get hc depth (s := r.put g.new (some ⟨placeholder, none⟩)) ?_ ?_
  · rw [settle_none h.new, getAlone_none py c h.new, getAllAlone, hfound, g.current]
    rfl
  · rw [settle_none h.new]
    refine ⟨rfl, fun n hn => ?_⟩
    have hput : (r.put g.new (some ⟨placeholder, none⟩)).find n =
        if n = g.new then some ⟨placeholder, none⟩ else r.find n := Redis.find_put_lasting ..
    rw [shown_none (h n hn)]
    split at hput
    · exact (shown_placeholder hput rfl).symm
    · exact (shown_none (hput.trans (h n hn))).symm

/-- A `get` that finds the old copy moves it. -/
theorem answersAlone_moves (hrep : g.new ∉ potentialKeys g.name g.older) (ht : g.Tame r)
    {val : Bytes} (hold : g.Old r)
    (hm : migrate py c g.name g.vl (g.index + 1) g.entry g.item.val = .ok val) :
    g.AnswersAlone py c depth r .get (.got (.ok (some val)))
      (moveAlone g.orig g.new g.item.val val r).2 := by
  have hfound := ht.found_old hold
  rw [vl] at hfound hm
  have hmoved : g.Moved val (moveAlone g.orig g.new g.item.val val r).2 := moved hold.2
  have hmove : (moveAlone (nameAt g.name g.entry) (versioned g.cur.1 g.name) g.item.val val
      r).1 = true := moveAlone_ok hold.2 g.orig_ne_new
  refine answersAlone_get hc depth ?_
    (((Later.move hold.2 val).tame ht).same_settle hrep (.inr hmoved.2)).symm
  rw [settle_none hold.1, getAlone_none py c hold.1, getAllAlone, hfound]
  simp only [g.entry_eq, hm, hmove, if_true]
  rfl

/-- A `set` deletes the older copies only if there was no current one. -/
theorem answersAlone_sets (hrep : g.new ∉ potentialKeys g.name g.older) (value : Bytes)
    {o : SetOpts} (ho : o.flagged = false) :
    g.AnswersAlone py c depth r (.set value o) (.wrote (.ok (some true)))
      (r.put g.new (some ⟨value, none⟩)) := by
  have hc : Knows c g.name (g.cur :: g.older) := hc
  have hput : (r.put g.new (some ⟨value, none⟩)).find g.new = some ⟨value, none⟩ := by
    rw [Redis.find_put_lasting, if_pos rfl]
  -- enough that the call leaves the value under the current name, and nothing under the older ones
  have hsame : ∀ s : Redis, s.now = r.now → s.find g.new = some ⟨value, none⟩ →
      (∀ n ∈ potentialKeys g.name g.older, s.find n = none) →
      g.SameCopies s (g.settle (r.put g.new (some ⟨value, none⟩))) := by
    intro s hnow hs holder
    refine sameCopies_current (settle_now.trans hnow.symm) ?_ holder fun n hn => settle_older hput hn
    rw [shown, settle_new hrep, hput, shown, hs]
  rw [AnswersAlone, Op.prog, Prog.run_bind, run_set hc, setAlone, if_neg (by simp [ho])]
  cases hr : (g.settle r).find (versioned g.cur.1 g.name) with
  | some y =>
    refine ⟨rfl, hsame _ settle_now ((Redis.find_put_lasting ..).trans (if_pos rfl)) fun n hn => ?_⟩
    have hne : n ≠ g.new := fun h => hrep (by rw [← h]; exact hn)
    refine (Redis.find_put_lasting ..).trans ((if_neg hne).trans ?_)
    exact settle_older ((settle_new hrep).symm.trans hr) hn
  | none =>
    refine ⟨rfl, hsame _ ((Since.delAll ..).now.trans settle_now) ?_ fun n hn => ?_⟩
    · refine (Redis.find_delAll ..).trans ((if_neg hrep).trans ?_)
      exact (Redis.find_put_lasting ..).trans (if_pos rfl)
    · exact (Redis.find_delAll ..).trans (if_pos hn)

/-- A `delete` counts the copies that are found. -/
theorem answersAlone_deletes (hsame : ∀ n ∈ potentialKeys g.name g.vl,
      (g.settle r).find n = r.find n) :
    g.AnswersAlone py c depth r .delete
      (.deleted (.ok ((potentialKeys g.name g.vl).dedup.filter fun k => (r.find k).isSome).length))
      ((potentialKeys g.name g.vl).foldl Redis.del r) := by
  have hgone : ∀ s : Redis, ∀ n ∈ potentialKeys g.name g.vl,
      ((potentialKeys g.name g.vl).foldl Redis.del s).find n = none := by
    intro s n hn
    rw [Redis.find_delAll, if_pos hn]
  rw [AnswersAlone, Op.prog, Prog.run_bind, run_delete hc]
  constructor
  · have hcount : ((potentialKeys g.name g.vl).dedup.filter fun k => ((g.settle r).find k).isSome) =
        (potentialKeys g.name g.vl).dedup.filter fun k => (r.find k).isSome := by
      refine List.filter_congr fun k hk => ?_
      rw [hsame k (List.mem_dedup.mp hk)]
    rw [← hcount]
    rfl
  · rw [settle_none (hgone r _ (mem_names.mpr (.inl rfl)))]
    refine ⟨?_, fun n hn => ?_⟩
    · rw [(Since.delAll r _).now]
      exact (((Since.delAll (g.settle r) _).now).trans settle_now).symm
    · rw [shown_none (hgone r n hn)]
      exact (shown_none (hgone (g.settle r) n hn)).symm

end

/-- **A command that settles an answer does to the copies what the whole call does alone**, with
the same answer. -/
theorem Effect.alone (hrep : g.new ∉ potentialKeys g.name g.older) (ht : g.Tame r)
    (hc : Knows c g.name g.vl) {op : Op} {a : Ans} {P : Prog Cmd.Reply Ans}
    (hflag : ∀ value o, op = .set value o → o.flagged = false)
    (hlook : (∃ again w, P = (getLook py c g.name g.vl again w).bind fun a => .ret (.got a)) →
      ∀ y, r.find g.new = some y → y.val ≠ placeholder)
    (hdel : P = ((delete c [g.name]).bind fun a => .ret (.deleted a)) →
      r.find g.new = none ∨ r.find g.orig = none)
    (h : g.Effect py c P r op a r') (depth : Nat) : g.AnswersAlone py c depth r op a r' := by
  cases h with
  | sees h hy =>
    exact answersAlone_get hc depth (getAlone_sees py c ((settle_new hrep).trans h) hy) (.refl _)
  | hidden h hy =>
    refine answersAlone_get hc depth ?_ (.refl _)
    unfold getAlone
    rw [g.val?_new, settle_new hrep, h]
    simp only [Option.map_some, hy, if_true]
  | mark hl h hy => exact absurd hy (hlook hl _ h)
  | nothing h => exact answersAlone_nothing hc depth h
  | raises hold hm =>
    have hfound := ht.found_old hold
    rw [vl] at hfound hm
    refine answersAlone_get hc depth ?_ (.refl _)
    rw [settle_none hold.1, getAlone_none py c hold.1, getAllAlone, hfound]
    simp only [g.entry_eq, hm]
  | moves hold hm => exact answersAlone_moves hc depth hrep ht hold hm
  | sets ho => exact answersAlone_sets hc depth hrep _ ho
  | @setsIf value o _ _ ho =>
    rw [hflag value o rfl] at ho
    cases ho
  | deletes hP => exact answersAlone_deletes hc depth (ht.settled hrep (hdel hP))

theorem Stage.copy_there (hwatch : RKey.data g.orig ∈ watchedKeys g.name g.vl)
    (hc : Knows c g.name g.vl) (ht : g.Tame r) {op : Op} {o : Option Ans}
    {P : Prog Cmd.Reply Ans} (h : g.Stage py c r op o P) (hcommits : commits P r = true) :
    r.find g.orig ≠ none := by
  cases h with
  | @asking Q hask =>
    have hstep := hask.next hc ht
    rw [commits_bind (hask.busy hc)] at hcommits
    rw [hcommits] at hstep
    generalize (Q.next serve r).1 = Q' at hstep
    generalize (Q.next serve r).2 = r' at hstep
    cases hstep with
    | moves hold _ =>
      rw [hold.2]
      simp
    | late _ _ hnot => exact absurd hwatch hnot
  | planting _ | got | wrote _ | deleted _ => cases hcommits
  | @setting value o =>
    cases ho : o.flagged with
    | true =>
      rw [set_flagged hc ho] at hcommits
      cases hcommits
    | false =>
      rw [set_plain hc ho] at hcommits
      cases hcommits
  | clearing _ =>
    rw [delOlder_eq] at hcommits
    cases hcommits
  | deleting =>
    rw [delete_eq hc] at hcommits
    cases hcommits

end OldKey

/-! ## Any number of calls -/

section Grows

variable {ι : Type} {x : ι} {log log' : List (ι × Ans)}

/-- The log is as it was, or with an answer of `x`, which had none in it. -/
def Grows (x : ι) (log log' : List (ι × Ans)) : Prop :=
  log' = log ∨ ∃ a, log' = log ++ [(x, a)] ∧ x ∉ log.map Prod.fst

variable (h : Grows x log log')

include h

theorem Grows.keep {q : ι × Ans} (hq : q ∈ log) : q ∈ log' := by
  obtain rfl | ⟨a, rfl, -⟩ := h
  · exact hq
  · exact List.mem_append_left _ hq

theorem Grows.order : log'.map Prod.fst = log.map Prod.fst ∨
    log'.map Prod.fst = log.map Prod.fst ++ [x] := by
  obtain rfl | ⟨a, rfl, -⟩ := h
  · exact .inl rfl
  · exact .inr List.map_append

theorem Grows.made {i : ι} (hi : i ∈ log'.map Prod.fst) : i ∈ log.map Prod.fst ∨ i = x := by
  obtain horder | horder := h.order
  · exact .inl (horder ▸ hi)
  · rw [horder, List.mem_append, List.mem_singleton] at hi
    exact hi

theorem Grows.nodup (hnodup : (log.map Prod.fst).Nodup) : (log'.map Prod.fst).Nodup := by
  obtain rfl | ⟨a, rfl, hnew⟩ := h
  · exact hnodup
  · rw [List.map_append]
    refine hnodup.append (List.nodup_singleton x) fun i hi hi' => hnew ?_
    rwa [List.mem_singleton.mp hi'] at hi

end Grows

section

variable {J ι : Type} [DecidableEq ι] (py : Py J) (g : OldKey) (clients : ι → Client J)
  (calls : ι → Op) (depth : ι → Nat) (p : Pool Cmd.Reply ι Ans Redis)

/-- A `delete` finds at most one copy, and the second look of a `get` finds no placeholder. -/
def OldKey.Fair (i : ι) : Prop :=
  (p.procs i = ((delete (clients i) [g.name]).bind fun a => .ret (.deleted a)) →
      p.server.find g.new = none ∨ p.server.find g.orig = none) ∧
    ((∃ again w, p.procs i =
        (getLook py (clients i) g.name g.vl again w).bind fun a => .ret (.got a)) →
      ∀ y, p.server.find g.new = some y → y.val ≠ placeholder)

/-- The calls in the order in which they take effect: one that has returned comes before one that
starts later. -/
def InOrder (sched : List ι) (order : List ι) : Prop :=
  ∀ s t, sched = s ++ t → ∀ i j a, (p.run serve s).procs i = .ret a → j ∉ s → j ∈ order →
    [i, j].Sublist order

/-- The answers that are settled after the schedule, in their order. -/
structure OldKey.Settled (sched : List ι) (log : List (ι × Ans)) : Prop where
  tame : g.Tame ((callers py g clients calls depth).run serve sched).server
  stage : ∀ i, (∃ a, (i, a) ∈ log ∧ g.Stage py (clients i)
      ((callers py g clients calls depth).run serve sched).server (calls i) (some a)
      (((callers py g clients calls depth).run serve sched).procs i)) ∨
    (i ∉ log.map Prod.fst ∧ g.Stage py (clients i)
      ((callers py g clients calls depth).run serve sched).server (calls i) none
      (((callers py g clients calls depth).run serve sched).procs i))
  nodup : (log.map Prod.fst).Nodup
  made : ∀ i ∈ log.map Prod.fst, i ∈ sched
  order : InOrder (callers py g clients calls depth) sched (log.map Prod.fst)
  seq : Sequential py g clients calls depth g.store log
    (g.settle ((callers py g clients calls depth).run serve sched).server)
  -- as long as there are two copies, some `set` has still to delete the older one
  owed : g.Both ((callers py g clients calls depth).run serve sched).server →
    ∃ i a, (i, a) ∈ log ∧ OldKey.Owes (calls i) (some a)
      (((callers py g clients calls depth).run serve sched).procs i)

variable {py g clients calls depth} {sched : List ι} {log : List (ι × Ans)}

theorem InOrder.snoc {p : Pool Cmd.Reply ι Ans Redis} {order order' : List ι} {x : ι}
    (h : InOrder p sched order) (hended : ∀ i a, (p.run serve sched).procs i = .ret a → i ∈ order)
    (hmade : ∀ i ∈ order', i ∈ sched ++ [x]) (hgrow : order' = order ∨ order' = order ++ [x]) :
    InOrder p (sched ++ [x]) order' := by
  intro s t hst i j a hi hj hjo
  obtain rfl | ⟨t', y, rfl⟩ := List.eq_nil_or_concat t
  · rw [List.append_nil] at hst
    rw [← hst] at hj
    exact absurd (hmade j hjo) hj
  · rw [List.concat_eq_append, ← List.append_assoc] at hst
    obtain ⟨hsched, -⟩ := List.append_inj' hst rfl
    have hlater : (p.run serve sched).procs i = .ret a := by
      rw [hsched, Pool.run_append]
      exact Pool.run_ended serve hi t'
    obtain rfl | rfl := hgrow
    · exact h s t' hsched i j a hi hj hjo
    · obtain hjo | hjo := List.mem_append.mp hjo
      · exact (h s t' hsched i j a hi hj hjo).trans (List.sublist_append_left _ _)
      · rw [List.mem_singleton.mp hjo]
        exact (List.singleton_sublist.mpr (hended i a hlater)).append (List.Sublist.refl [x])

theorem OldKey.Settled.start : g.Settled py clients calls depth [] [] where
  tame := g.store_tame
  stage i := .inr ⟨List.not_mem_nil, OldKey.callers_stage depth i⟩
  nodup := List.nodup_nil
  made i hi := absurd hi List.not_mem_nil
  order _ _ _ _ j _ _ _ hj := absurd hj List.not_mem_nil
  seq := by
    refine .nil ?_
    show g.SameCopies g.store (g.settle g.store)
    rw [OldKey.settle_none g.store_old.1]
    exact OldKey.SameCopies.refl _
  owed h := absurd g.store_old.1 h.1

variable (h : g.Settled py clients calls depth sched log)

include h

theorem OldKey.Settled.ended (hc : ∀ i, Knows (clients i) g.name g.vl) {i : ι} {a : Ans}
    (hi : ((callers py g clients calls depth).run serve sched).procs i = .ret a) :
    (i, a) ∈ log := by
  obtain ⟨b, hb, hstage⟩ | ⟨-, hstage⟩ := h.stage i
  · rw [hi] at hstage
    rwa [hstage.answer]
  · have hbusy := hstage.busy (hc i)
    rw [hi] at hbusy
    exact absurd hbusy (Prog.not_busy_ret a)

/-- The log after the next command of `x`: with its answer, if the command has settled it. -/
theorem OldKey.Settled.goes {x : ι} {o o' : Option Ans} {log' : List (ι × Ans)}
    (hc : ∀ i, Knows (clients i) g.name g.vl)
    (hgoes : let p := (callers py g clients calls depth).run serve sched
      g.Goes py (clients x) (p.procs x) p.server (calls x) o ((p.procs x).next serve p.server) o')
    (hgrow : Grows x log log')
    (hx : (∃ a, o' = some a ∧ (x, a) ∈ log') ∨ (o' = none ∧ x ∉ log'.map Prod.fst))
    (ho : ∀ a, (x, a) ∈ log → o = some a)
    (hseq : let p := (callers py g clients calls depth).run serve sched
      Sequential py g clients calls depth g.store log'
        (g.settle ((p.procs x).next serve p.server).2)) :
    g.Settled py clients calls depth (sched ++ [x]) log' := by
  have hrun : (callers py g clients calls depth).run serve (sched ++ [x]) =
      ((callers py g clients calls depth).run serve sched).step serve x :=
    Pool.run_append ..
  rw [Pool.step_next] at hrun
  have hmade : ∀ i ∈ log'.map Prod.fst, i ∈ sched ++ [x] := by
    intro i hi
    obtain hi | rfl := hgrow.made hi
    · exact List.mem_append_left _ (h.made i hi)
    · exact List.mem_append_right _ (List.mem_singleton_self i)
  have horder := h.order.snoc (fun i a hi => List.mem_map_of_mem (f := Prod.fst) (h.ended hc hi))
    hmade hgrow.order
  obtain ⟨htame, hstages, hnodup, -, -, -, howed⟩ := h
  generalize (callers py g clients calls depth).run serve sched = p at *
  refine ⟨?_, fun j => ?_, hgrow.nodup hnodup, hmade, horder, ?_, fun hboth => ?_⟩ <;>
    rw [hrun] at *
  · exact hgoes.later.tame htame
  · by_cases hj : j = x
    · subst hj
      simp only [Function.update_self]
      obtain ⟨a, rfl, hmem⟩ | ⟨rfl, hnot⟩ := hx
      · exact .inl ⟨a, hmem, hgoes.stage⟩
      · exact .inr ⟨hnot, hgoes.stage⟩
    · simp only [Function.update_of_ne hj]
      obtain ⟨a, hmem, hstage⟩ | ⟨hnot, hstage⟩ := hstages j
      · exact .inl ⟨a, hgrow.keep hmem, hstage.later hgoes.later⟩
      · exact .inr ⟨fun hi => (hgrow.made hi).elim hnot hj, hstage.later hgoes.later⟩
  · exact hseq
  · obtain hx' | ⟨hbefore, hnot⟩ := hgoes.both hboth
    · obtain ⟨a, rfl, hmem⟩ | ⟨hnone, -⟩ := hx
      · exact ⟨x, a, hmem, by simpa using hx'⟩
      · exact absurd hnone hx'.2.1
    · obtain ⟨i, a, hmem, hi⟩ := howed hbefore
      refine ⟨i, a, hgrow.keep hmem, ?_⟩
      by_cases hix : i = x
      · subst hix
        rw [ho a hmem] at hnot
        exact absurd hi hnot
      · simpa [Function.update_of_ne hix] using hi

/-- **Every command leaves a log of settled answers.** -/
theorem OldKey.Settled.step {x : ι}
    (hc : ∀ i, Knows (clients i) g.name g.vl) (hrep : g.new ∉ potentialKeys g.name g.older)
    (hwatch : RKey.data g.orig ∈ watchedKeys g.name g.vl)
    (hflag : ∀ i value o, calls i = .set value o → o.flagged = false)
    (hfair : g.Fair py clients ((callers py g clients calls depth).run serve sched) x) :
    ∃ log', g.Settled py clients calls depth (sched ++ [x]) log' := by
  obtain ⟨a, hmem, hstage⟩ | ⟨hnot, hstage⟩ := h.stage x
  · obtain ⟨⟨o', hgoes⟩, -⟩ := hstage.next (hc x) h.tame (hstage.copy_there hwatch (hc x) h.tame)
    obtain ⟨rfl, haside⟩ | ⟨hnone, -⟩ := hgoes.effect
    · refine ⟨log, h.goes hc hgoes (.inl rfl) (.inl ⟨a, rfl, hmem⟩) (fun b hb => ?_) ?_⟩
      · cases List.inj_on_of_nodup_map h.nodup hmem hb rfl
        rfl
      · exact h.seq.same (haside.sameCopies hrep h.tame (hflag x))
    · cases hnone
  · obtain ⟨⟨o', hgoes⟩, -⟩ := hstage.next (hc x) h.tame (hstage.copy_there hwatch (hc x) h.tame)
    have hfresh : ∀ b, (x, b) ∈ log → (none : Option Ans) = some b :=
      fun b hb => absurd (List.mem_map_of_mem (f := Prod.fst) hb) hnot
    obtain ⟨rfl, haside⟩ | ⟨-, a, rfl, heffect⟩ := hgoes.effect
    · exact ⟨log, h.goes hc hgoes (.inl rfl) (.inr ⟨rfl, hnot⟩) hfresh
        (h.seq.same (haside.sameCopies hrep h.tame (hflag x)))⟩
    · obtain ⟨hans, hsame⟩ :=
        heffect.alone hrep h.tame (hc x) (hflag x) hfair.2 hfair.1 (depth x)
      exact ⟨log ++ [(x, a)], h.goes hc hgoes (.inr ⟨a, rfl, hnot⟩) (.inl ⟨a, rfl, by simp⟩) hfresh
        (h.seq.snoc (h.tame.settle_one hrep) hans hsame)⟩

omit h

/-- **Within a namespace the calls are linearizable**: they answer, and leave the copies, as if
each had been made alone, in an order in which a call that has returned comes before one that
starts later; and the copy is migrated at most once. -/
theorem migration_linearizable (py : Py J) (g : OldKey) {clients : ι → Client J}
    (hclients : ∀ i, Knows (clients i) g.name g.vl) (calls : ι → Op) (depth : ι → Nat)
    (hns : ∀ d ∈ g.vl, d.2 = (splitNamespaceKey g.name).1) (hname : Plain g.name)
    (hflag : ∀ i value o, calls i = .set value o → o.flagged = false)
    (hrep : g.new ∉ potentialKeys g.name g.older) (sched : List ι)
    (hfair : (callers py g clients calls depth).Along serve (g.Fair py clients) sched)
    (hdone : ∀ i ∈ sched,
      ∃ a, ((callers py g clients calls depth).run serve sched).procs i = .ret a) :
    let p := callers py g clients calls depth
    (∃ log : List (ι × Ans),
      (∀ i a, (i, a) ∈ log ↔ i ∈ sched ∧ (p.run serve sched).procs i = .ret a) ∧
      (log.map Prod.fst).Nodup ∧ InOrder p sched (log.map Prod.fst) ∧
      Sequential py g clients calls depth g.store log (p.run serve sched).server) ∧
    execs p sched ≤ 1 := by
  intro p
  have hwatch : RKey.data g.orig ∈ watchedKeys g.name g.vl := by
    have hmem : g.entry ∈ g.vl := List.mem_cons_of_mem _ g.entry_mem
    have horig : g.orig = versioned g.entry.1 g.name := by
      rw [OldKey.orig, ← nameAt_current hname g.entry.1, ← hns g.entry hmem]
    rw [horig]
    exact List.mem_append_left _ (List.mem_map_of_mem hmem)
  constructor
  · obtain ⟨log, hlog⟩ : ∃ log, g.Settled py clients calls depth sched log := by
      clear hdone
      induction sched using List.reverseRecOn with
      | nil => exact ⟨[], OldKey.Settled.start⟩
      | append_singleton sched x ih =>
        obtain ⟨hbefore, hx, -⟩ := (Pool.along_append serve).mp hfair
        obtain ⟨log, hlog⟩ := ih hbefore
        exact hlog.step hclients hrep hwatch hflag hx
    refine ⟨log, fun i a => ⟨fun hmem => ?_, fun ⟨_, hi⟩ => hlog.ended hclients hi⟩, hlog.nodup,
      hlog.order, hlog.seq.same ?_⟩
    · have hi := hlog.made i (List.mem_map_of_mem (f := Prod.fst) hmem)
      obtain ⟨b, hb⟩ := hdone i hi
      cases List.inj_on_of_nodup_map hlog.nodup hmem (hlog.ended hclients hb) rfl
      exact ⟨hi, hb⟩
    · -- every `set` has returned, so no older copy is left next to a current one
      refine hlog.tame.same_settle hrep ?_
      by_contra hboth
      rw [not_or] at hboth
      obtain ⟨i, a, hmem, -, -, hbusy⟩ := hlog.owed hboth
      obtain ⟨b, hb⟩ := hdone i (hlog.made i (List.mem_map_of_mem (f := Prod.fst) hmem))
      rw [hb] at hbusy
      exact absurd hbusy (Prog.not_busy_ret b)
  · have hcount : execs p sched = 0 ∨ (execs p sched = 1 ∧ _) :=
      (OldKey.callers_racing hclients depth (fun p n i hp _ => by
        obtain ⟨o, hstage⟩ := hp.procs i
        exact hstage.copy_there hwatch (hclients i) hp.tame) hfair).count
    omega

omit [DecidableEq ι] in
theorem Sequential.deleted_le_one {r t : Redis} {i : ι} {n : Nat}
    (hclients : ∀ i, Knows (clients i) g.name g.vl) (hcall : calls i = .delete)
    (h : Sequential py g clients calls depth r log t) (hmem : (i, .deleted (.ok n)) ∈ log) :
    n ≤ 1 := by
  induction h with
  | nil _ => cases hmem
  | @call r s t j a log _ hone hans _ ih =>
    obtain heq | hmem := List.mem_cons.mp hmem
    · cases heq
      have hc : Knows (clients i) g.name (g.cur :: g.older) := hclients i
      rw [hcall, Op.prog, Prog.run_bind, run_delete hc] at hans
      cases hans
      have hnodup := (List.nodup_dedup (potentialKeys g.name g.vl)).filter
        fun k => (s.find k).isSome
      match hl : (potentialKeys g.name g.vl).dedup.filter fun k => (s.find k).isSome with
      | [] | [k] => simp
      | k :: k' :: ks =>
        have hin : ∀ m ∈ k :: k' :: ks, m ∈ copies g.name g.vl ∧ (s.find m).isSome := by
          intro m hm
          rw [← hl, List.mem_filter, List.mem_dedup] at hm
          exact ⟨potential_mem_copies hm.1, hm.2⟩
        rw [hl] at hnodup
        have hsame := hone k (hin k (by simp)).1 k' (hin k' (by simp)).1 (hin k (by simp)).2
          (hin k' (by simp)).2
        simp [hsame] at hnodup
    · exact ih hmem

end

/-! ## A `set` and a `delete` at once -/

def demoStayed : OldKey := (demoOld_stored (lit "\"0\"")).oldKey rfl (by decide)

def demoWrites : Bool → Op
  | true => .set (lit "\"1\"") {}
  | false => .delete

def demoInTurn : List Bool := [false, true, true]

theorem demoStayed_knows : Knows (demoReader [demoRule]) demoStayed.name demoStayed.vl :=
  demoClient_knows Bytes

theorem demo_linearizable : ∃ log : List (Bool × Ans),
    (false, .deleted (.ok 1)) ∈ log ∧
    Sequential demoPy demoStayed (fun _ => demoReader [demoRule]) demoWrites (fun _ => 0)
      demoStayed.store log ((callers demoPy demoStayed (fun _ => demoReader [demoRule]) demoWrites
        fun _ => 0).run serve demoInTurn).server := by
  have hfair : (callers demoPy demoStayed (fun _ => demoReader [demoRule]) demoWrites
      fun _ => 0).Along serve (demoStayed.Fair demoPy fun _ => demoReader [demoRule]) demoInTurn := by
    refine ⟨⟨fun _ => .inl rfl, fun _ y hy => ?_⟩, ⟨fun _ => .inl rfl, fun _ y hy => ?_⟩,
      ⟨fun _ => .inr rfl, fun _ y hy => ?_⟩, trivial⟩
    · cases hy
    · cases hy
    · cases hy
      decide
  obtain ⟨⟨log, hlog, -, -, hseq⟩, -⟩ := migration_linearizable demoPy demoStayed
    (fun _ => demoStayed_knows) demoWrites (fun _ => 0) (by decide) (by unfold Plain; decide) (by
      intro i value o h
      cases i with
      | true =>
        cases h
        rfl
      | false => cases h) (by decide) demoInTurn hfair (by
      intro i _
      cases i with
      | true => exact ⟨_, rfl⟩
      | false => exact ⟨_, rfl⟩)
  exact ⟨log, (hlog false _).mpr ⟨by decide, rfl⟩, hseq⟩

/-- The `delete` comes between the two commands of the `set`: it counts two copies, which it does
in no sequence of the calls. -/
theorem deleted_two :
    let p := callers demoPy demoStayed (fun _ => demoReader [demoRule]) demoWrites fun _ => 0
    let q := p.run serve [true, false, true]
    q.procs true = .ret (.wrote (.ok (some true))) ∧ q.procs false = .ret (.deleted (.ok 2)) ∧
      ¬ ∃ log, (false, .deleted (.ok 2)) ∈ log ∧ Sequential demoPy demoStayed
        (fun _ => demoReader [demoRule]) demoWrites (fun _ => 0) demoStayed.store log q.server := by
  refine ⟨rfl, rfl, ?_⟩
  rintro ⟨log, hmem, hseq⟩
  have := hseq.deleted_le_one (fun _ => demoStayed_knows) rfl hmem
  omega

end SchemaUpdate.Lur
