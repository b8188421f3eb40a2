import SchemaUpdate.Lur.Handover
import SchemaUpdate.Lur.Linked

/-! # Clients around an update

A client loads the update, some are at the new version already, others have not noticed
it yet. The copies of the key stay in order unless a write at the old version comes too
late, or a call at the new version is overtaken by one. -/

namespace SchemaUpdate.Lur

open SchemaUpdate.Lib

/-- A client at work: it loads an update, still is at the old version and sets the key, or is at
the new version. -/
inductive Party (J : Type)
  | load (c : Client J) (d : Dsl J)
  | late (c : Client J) (value : Bytes) (o : SetOpts)
  | new (c : Client J) (op : Op) (depth : Nat)

section Parties

variable {J ι : Type}

abbrev Outcome := Except PyErr (Option Bool) ⊕ Ans

def Party.prog (py : Py J) (name : Bytes) : Party J → Prog Cmd.Reply Outcome
  | .load c d => (doUpd py d c).bind fun out => .ret (.inl out.1)
  | .late c value o => (set c name value o).bind fun a => .ret (.inr (.wrote a))
  | .new c op depth => (op.prog py c name depth).bind fun a => .ret (.inr a)

/-- The client knows the version list it works with. -/
def Party.Fits (g : Handover) : Party J → Prop
  | .load _ _ => True
  | .late c _ _ => Knows c g.name g.before
  | .new c _ _ => Knows c g.name g.after

/-- When the commands of the client come at the right time. -/
def Party.Timely (g : Handover) : Party J → Cmd → Redis × Handover.Note → Prop
  | .load _ _, cmd, _ => g.Elsewhere cmd
  | .late _ _ _, cmd, s => g.Timely cmd s
  | .new _ _ _, cmd, s => g.Timely cmd s

def working (py : Py J) (g : Handover) (parties : ι → Party J) (s : Redis × Handover.Note) :
    Pool Cmd.Reply ι Outcome (Redis × Handover.Note) :=
  ⟨s, fun i => (parties i).prog py g.name⟩

/-- One of the clients at the new version makes `val` of a text at the old one. -/
def Migrates (py : Py J) (g : Handover) (parties : ι → Party J) (value val : Bytes) : Prop :=
  ∃ i c op depth, parties i = .new c op depth ∧
    migrate py c g.name g.after 1 (g.old, (splitNamespaceKey g.name).1) value = .ok val

/-- The client is at the new version and sets the key. -/
def Party.SetsNew : Party J → Prop
  | .new _ (.set _ _) _ => True
  | _ => False

/-- What the commands of a client keep to. -/
def Party.guar (g : Handover) (mig : Bytes → Bytes → Prop) (party : Party J)
    (s s' : Redis × Handover.Note) : Prop :=
  g.Onward mig s s' ∧ (¬ party.SetsNew → g.Both s'.1 → g.Both s.1)

instance (g : Handover) (mig : Bytes → Bytes → Prop) (party : Party J) :
    Std.Refl (party.guar g mig) := ⟨fun s => ⟨Std.Refl.refl s, fun _ h => h⟩⟩

def Handover.owes (g : Handover) (a : Outcome) : Prog Cmd.Reply Outcome :=
  .call (.del (g.oldName :: g.olderNames)) fun _ => .ret a

theorem Party.sure {py : Py J} {g : Handover} {parties : ι → Party J}
    (hfits : ∀ i, (parties i).Fits g) {s : Redis × Handover.Note} (hclear : g.Clear s.1) (i : ι) :
    ((parties i).prog py g.name).Sure g.serveNoted (g.Onward (Migrates py g parties))
      ((parties i).Timely g) ((parties i).guar g (Migrates py g parties)) (fun _ _ => True) s := by
  have hquiet : ∀ {party : Party J} s s', g.Quiet (Migrates py g parties) s s' →
      party.guar g (Migrates py g parties) s s' := fun s s' h => ⟨h.toOnward, fun _ => h.both⟩
  have hi := hfits i
  cases hp : parties i with
  | load c d =>
    refine Prog.Sure.of_issues (fun cmd s _ hcond => hquiet _ _ ?_) s
    exact Handover.elsewhere_quiet hcond s
  | late c value o =>
    rw [hp] at hi
    exact ((Handover.setOld_safe hi value o).weaken hquiet).bind _
  | new c op depth =>
    rw [hp] at hi
    cases op with
    | get =>
      have hmig : ∀ v val, migrate py c g.name g.after 1 (g.old, (splitNamespaceKey g.name).1) v =
          .ok val → Migrates py g parties v val :=
        fun v val h => ⟨i, c, .get, depth, hp, h⟩
      exact (((Handover.get_safe hi hmig depth hclear).weaken hquiet).bind _).bind _
    | set value o =>
      refine (((Handover.setNew_safe hi value o).weaken fun s s' h => ⟨h, ?_⟩).bind _).bind _
      exact fun hnot => absurd trivial hnot
    | delete => exact (((Handover.delete_safe hi).weaken hquiet).bind _).bind _

theorem setsNew_prog {g : Handover} {c : Client J} (hc : Knows c g.name g.after) (py : Py J)
    (value : Bytes) (o : SetOpts) (depth : Nat) :
    ((Party.new c (.set value o) depth).prog py g.name =
      .call (.set g.newName value { o with ex := truthy o.ex, px := truthy o.px })
        fun (r : Except Unit Bool) => g.owes (.inr (.wrote (setReply r)))) ∨
    ((Party.new c (.set value o) depth).prog py g.name =
      .call (.getset g.newName value) fun (r : Option Bytes) =>
        match r with
        | some _ => .ret (.inr (.wrote (.ok (some true))))
        | none => g.owes (.inr (.wrote (.ok (some true))))) := by
  have hkeys : keysToDel g.name g.after = g.oldName :: g.olderNames := g.potentialKeys_before
  have hdel : ∀ a : Except PyErr (Option Bool), delOlder g.name g.after a =
      .call (.del (g.oldName :: g.olderNames)) fun _ => .ret a := by
    intro a
    rw [delOlder, hkeys]
    rfl
  have hc : Knows c g.name ((g.new, (splitNamespaceKey g.name).1) :: g.before) := hc
  have hvl : (g.new, (splitNamespaceKey g.name).1) :: g.before = g.after := rfl
  show ((Lur.set c g.name value o).bind _).bind _ = _ ∨ ((Lur.set c g.name value o).bind _).bind _ = _
  rw [Lur.set, hc.versions, hc.currVersion, hvl]
  cases o.flagged with
  | true =>
    refine .inl ?_
    simp only [if_true, Prog.call_bind, hdel]
    rfl
  | false =>
    refine .inr ?_
    simp only [Bool.false_eq_true, if_false, Prog.call_bind, hdel, Handover.newName]
    congr 1
    funext r
    cases r <;> rfl

variable [DecidableEq ι]

def Handover.SetStage (g : Handover) (start P : Prog Cmd.Reply Outcome) : Prop :=
  P = start ∨ (∃ a, P = g.owes a) ∨ ∃ a, P = .ret a

/-- In the course of the run: a `set` at the new version is at one of its stages, and where there
are two copies one of them is still to be deleted. -/
structure Handover.Ordered (g : Handover) (py : Py J) (parties : ι → Party J)
    (p : Pool Cmd.Reply ι Outcome (Redis × Handover.Note)) : Prop where
  sure : ∀ i, (p.procs i).Sure g.serveNoted (g.Onward (Migrates py g parties))
    ((parties i).Timely g) ((parties i).guar g (Migrates py g parties)) (fun _ _ => True) p.server
  content : g.Content (Migrates py g parties) p.server
  stage : ∀ i, (parties i).SetsNew → g.SetStage ((parties i).prog py g.name) (p.procs i)
  both : g.Both p.server.1 → ∃ i a, (parties i).SetsNew ∧ p.procs i = g.owes a

variable {g : Handover} {py : Py J} {parties : ι → Party J}

omit [DecidableEq ι] in
theorem Handover.setStage_next (hfits : ∀ i, (parties i).Fits g) {i : ι}
    (hi : (parties i).SetsNew) {P : Prog Cmd.Reply Outcome}
    (h : g.SetStage ((parties i).prog py g.name) P) (s : Redis × Handover.Note) :
    g.SetStage ((parties i).prog py g.name) (P.next g.serveNoted s).1 ∧
      (g.Both (P.next g.serveNoted s).2.1 → (∃ a, (P.next g.serveNoted s).1 = g.owes a) ∨
        (g.Both s.1 ∧ ∀ a, P ≠ g.owes a)) := by
  obtain ⟨r, l⟩ := s
  obtain rfl | ⟨a, rfl⟩ | ⟨a, rfl⟩ := h
  · have hfit := hfits i
    cases hp : parties i with
    | load c d | late c value o =>
      rw [hp] at hi
      exact absurd hi id
    | new c op depth =>
      rw [hp] at hi hfit
      cases op with
      | get => exact absurd hi id
      | delete => exact absurd hi id
      | set value o =>
        obtain hprog | hprog := setsNew_prog hfit py value o depth
        · rw [hprog]
          exact ⟨.inr (.inl ⟨_, rfl⟩), fun _ => .inl ⟨_, rfl⟩⟩
        · rw [hprog]
          have hnext : ∀ k : Option Bytes → Prog Cmd.Reply Outcome,
              (Prog.call (.getset g.newName value) k).next g.serveNoted (r, l) =
                (k (r.val? g.newName), r.put g.newName (some ⟨value, none⟩),
                  g.wrote g.newName value l) := fun _ => rfl
          rw [hnext]
          cases hval : r.val? g.newName with
          | none => exact ⟨.inr (.inl ⟨_, rfl⟩), fun _ => .inl ⟨_, rfl⟩⟩
          | some v =>
            refine ⟨.inr (.inr ⟨_, rfl⟩), fun hboth => .inr ⟨⟨?_, ?_⟩, by rintro a ⟨⟩⟩⟩
            · intro hnone
              rw [Redis.val?, hnone] at hval
              cases hval
            · intro hnone
              refine hboth.2 ?_
              rw [Redis.find_put_lasting, if_neg g.oldName_ne_newName]
              exact hnone
  · refine ⟨.inr (.inr ⟨a, rfl⟩), fun hboth => absurd ?_ hboth.2⟩
    show ((g.oldName :: g.olderNames).foldl Redis.del r).find g.oldName = none
    rw [Redis.find_delAll, if_pos (by simp)]
  · exact ⟨.inr (.inr ⟨a, rfl⟩), fun hboth => .inr ⟨hboth, by rintro a ⟨⟩⟩⟩

/-- One command of any party that comes in time. -/
theorem Handover.Ordered.step (hfits : ∀ i, (parties i).Fits g)
    (p : Pool Cmd.Reply ι Outcome (Redis × Handover.Note)) (i : ι) (h : g.Ordered py parties p)
    (hcond : ∀ cmd k, p.procs i = .call cmd k → (parties i).Timely g cmd p.server) :
    g.Ordered py parties (p.step g.serveNoted i) := by
  have hguar := Pool.sure_own (h.sure i) hcond
  have hnext := Pool.step_next g.serveNoted p i
  refine ⟨fun j => Pool.sure_step (h.sure j) ?_, hguar.1.content h.content, fun j hj => ?_,
    fun hboth => ?_⟩
  · unfold Pool.Relies
    split
    · rename_i hij
      subst hij
      exact hcond
    · exact hguar.1
  · by_cases hij : j = i
    · subst hij
      rw [hnext]
      simp only [Function.update_self]
      exact (setStage_next hfits hj (h.stage j hj) p.server).1
    · rw [Pool.step_ne g.serveNoted p hij]
      exact h.stage j hj
  · -- another call that owes a deletion still does
    have hother : g.Both p.server.1 → (∀ a, (parties i).SetsNew → p.procs i ≠ g.owes a) →
        ∃ j a, (parties j).SetsNew ∧ (p.step g.serveNoted i).procs j = g.owes a := by
      intro hbefore hnot
      obtain ⟨j, a, hj, howes⟩ := h.both hbefore
      have hij : j ≠ i := by
        rintro rfl
        exact hnot a hj howes
      refine ⟨j, a, hj, ?_⟩
      rw [Pool.step_ne g.serveNoted p hij]
      exact howes
    by_cases hi : (parties i).SetsNew
    · rw [hnext] at hboth
      obtain ⟨a, howes⟩ | ⟨hbefore, hnot⟩ :=
        (setStage_next hfits hi (h.stage i hi) p.server).2 hboth
      · refine ⟨i, a, hi, ?_⟩
        rw [hnext]
        simp only [Function.update_self]
        exact howes
      · exact hother hbefore fun a _ => hnot a
    · exact hother (hguar.2 hi hboth) fun a hi' => absurd hi' hi

/-- **No write is lost around an update** as long as the commands come at the right time: once no
call is in progress there is at most one copy of the key, and it comes from the last write. -/
theorem writes_kept (py : Py J) (g : Handover) (parties : ι → Party J)
    (hfits : ∀ i, (parties i).Fits g) {s : Redis × Handover.Note} (hclear : g.Clear s.1)
    (hone : ¬ g.Both s.1) (hcontent : g.Content (Migrates py g parties) s) {sched : List ι}
    (h : (working py g parties s).Along g.serveNoted (fun p i => ∀ cmd k, p.procs i = .call cmd k →
      (parties i).Timely g cmd p.server) sched)
    (hidle : ∀ i, ((working py g parties s).run g.serveNoted sched).procs i =
        (parties i).prog py g.name ∨
      ∃ a, ((working py g parties s).run g.serveNoted sched).procs i = .ret a) :
    let q := (working py g parties s).run g.serveNoted sched
    ¬ g.Both q.server.1 ∧ g.Content (Migrates py g parties) q.server := by
  intro q
  have hstart : g.Ordered py parties (working py g parties s) :=
    ⟨Party.sure hfits hclear, hcontent, fun i _ => .inl rfl, fun hboth => absurd hboth hone⟩
  have hend : g.Ordered py parties q :=
    h.inv (I := g.Ordered py parties) (Handover.Ordered.step hfits) hstart
  refine ⟨fun hboth => ?_, hend.content⟩
  obtain ⟨i, a, hi, howes⟩ := hend.both hboth
  obtain hbegin | ⟨b, hb⟩ := hidle i
  · have hbegin : (parties i).prog py g.name = g.owes a := hbegin.symm.trans howes
    have hfit := hfits i
    cases hp : parties i with
    | load c d | late c value o =>
      rw [hp] at hi
      exact hi
    | new c op depth =>
      rw [hp] at hi hfit hbegin
      cases op with
      | get => exact hi
      | delete => exact hi
      | set value o =>
        obtain hprog | hprog := setsNew_prog hfit py value o depth
        · rw [hprog] at hbegin
          cases hbegin
        · rw [hprog] at hbegin
          cases hbegin
  · have hb : q.procs i = .ret b := hb
    rw [howes] at hb
    cases hb

/-! ## Late writes -/

def demoKey : Handover where
  name := lit "n:k"
  old := lit "v0"
  new := lit "v1"
  older := []
  ne := by decide
  plain := by decide
  apart := by decide

def demoParties (op : Op) : Option Bool → Party Bytes
  | none => .load (demoAt (lit "v0")) (demoLoad (lit "v0") (lit "v1"))
  | some false => .late (demoAt (lit "v0")) (lit "\"0\"") {}
  | some true => .new (demoReader [demoRule]) op 1

def demoWork (op : Op) : Pool Cmd.Reply (Option Bool) Outcome (Redis × Handover.Note) :=
  working demoPy demoKey (demoParties op) (demoFirst, .nothing)

theorem demoParties_fit (op : Op) (i : Option Bool) : (demoParties op i).Fits demoKey := by
  have hsplit : (splitNamespaceKey (lit "n:k")).1 = lit "n" := by decide
  match i with
  | none => trivial
  | some false =>
    show Knows (demoAt (lit "v0")) (lit "n:k") [(lit "v0", (splitNamespaceKey (lit "n:k")).1)]
    rw [Knows, hsplit]
    rfl
  | some true =>
    show Knows (demoReader [demoRule]) (lit "n:k")
      [(lit "v1", (splitNamespaceKey (lit "n:k")).1), (lit "v0", (splitNamespaceKey (lit "n:k")).1)]
    rw [Knows, hsplit]
    rfl

def demoInTime : List (Option Bool) :=
  List.replicate 6 none ++ [some false] ++ List.replicate 8 (some true)

theorem demo_kept : demoKey.Content (Migrates demoPy demoKey (demoParties .get))
      ((demoWork .get).run demoKey.serveNoted demoInTime).server ∧
    ((demoWork .get).run demoKey.serveNoted demoInTime).server.2 = .atOld (lit "\"0\"") ∧
    ((demoWork .get).run demoKey.serveNoted demoInTime).server.1.find (lit "v1|n:k") =
      some ⟨lit "\"01\"", none⟩ := by
  have hload : ∀ cmd : Cmd, cmd.dataKeys = [] → (∀ ms, cmd ≠ .tick ms) → demoKey.Elsewhere cmd :=
    fun cmd hkeys htick => ⟨htick, fun p hp => by rw [hkeys] at hp; cases hp⟩
  have hsteps : (demoWork .get).Along demoKey.serveNoted (fun p i => ∀ cmd k,
      p.procs i = .call cmd k → (demoParties .get i).Timely demoKey cmd p.server) demoInTime := by
    refine ⟨Prog.of_call rfl (hload _ rfl nofun), Prog.of_call rfl (hload _ rfl nofun),
      Prog.of_call rfl (hload _ rfl nofun), Prog.of_call rfl (hload _ rfl nofun),
      Prog.of_call rfl (hload _ rfl nofun), Prog.of_call rfl (hload _ rfl nofun),
      Prog.of_call rfl fun _ => rfl, Prog.of_call rfl trivial, Prog.of_call rfl trivial,
      Prog.of_call rfl trivial, Prog.of_call rfl trivial, Prog.of_call rfl trivial,
      Prog.of_call rfl trivial, Prog.of_call rfl trivial, Prog.of_call rfl trivial, trivial⟩
  have hclear : demoKey.Clear demoFirst := fun p hp => absurd hp List.not_mem_nil
  have hone : ¬ demoKey.Both demoFirst := fun hboth => hboth.1 rfl
  have hcontent : demoKey.Content (Migrates demoPy demoKey (demoParties .get))
      (demoFirst, .nothing) := ⟨rfl, nofun⟩
  refine ⟨(writes_kept demoPy demoKey (demoParties .get) (demoParties_fit .get) hclear hone
    hcontent hsteps ?_).2, rfl, rfl⟩
  intro i
  match i with
  | none => exact .inr ⟨_, rfl⟩
  | some false => exact .inr ⟨_, rfl⟩
  | some true => exact .inr ⟨_, rfl⟩

/-- The update is loaded, a client at the new version sets the key, then the client that still is
at the old version: all calls have returned, there are two copies, and the last write is not
found. -/
theorem late_write_lost :
    let q := (demoWork (.set (lit "\"1\"") {})).run demoKey.serveNoted
      (List.replicate 6 none ++ [some true, some true, some false])
    q.procs none = .ret (.inl (.ok (some true))) ∧
      q.procs (some true) = .ret (.inr (.wrote (.ok (some true)))) ∧
      q.procs (some false) = .ret (.inr (.wrote (.ok (some true)))) ∧
      q.server.2 = .atOld (lit "\"0\"") ∧
      q.server.1.find (lit "v0|n:k") = some ⟨lit "\"0\"", none⟩ ∧
      q.server.1.find (lit "v1|n:k") = some ⟨lit "\"1\"", none⟩ ∧
      ((get demoPy (demoReader [demoRule]) (lit "n:k") 1).run serve q.server.1).1 =
        .ok (some (lit "\"1\"")) :=
  ⟨rfl, rfl, rfl, rfl, rfl, rfl, rfl⟩

end Parties

end SchemaUpdate.Lur
