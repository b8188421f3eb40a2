import Mathlib.Data.List.Chain
import Mathlib.Logic.Relation
import SchemaUpdate.Lib.Run
import SchemaUpdate.KVolve.History

/-! # The history of the registry

Connects and loads, one after the other, from the empty registry. The version list of
a record is a chain of loads and the links between renamed namespaces are inverse to
each other exactly as long as every accepted load starts from where its namespace
stands. -/

namespace SchemaUpdate.KVolve

open SchemaUpdate.Lib SchemaUpdate.Redis

inductive RegEvent
  | connect (id : Nat) (name : Bytes)
  | load (id : Nat) (pick : Finset Nat → Nat) (sp : Spec)

def Reg.step (reg : Reg) : RegEvent → Res Reg
  | .connect id name => Prod.fst <$> checkVersion id name reg
  | .load id pick sp => Prod.fst <$> updSpec id pick reg sp

/-! ## What a step does to the records -/

variable {b : Bytes} {id n : Nat} {v : VersionHash} {a : Bytes} {f : Fault} {loading : Nat}
    {pick : Finset Nat → Nat} {reg reg' : Reg} {ev : RegEvent} {rank : Bytes → Nat} {bound : Nat}

/-- The three things a step does to the records: it registers namespaces, extends the history
of a namespace, or makes a successor of a namespace. -/
inductive StepDoes (reg reg' : Reg) : RegEvent → Prop
  | registers {ev : RegEvent} : Registers reg reg' →
      (∀ id pick sp, ev = .load id pick sp → specAccepts reg sp = none) → StepDoes reg reg' ev
  | appends {id : Nat} {pick : Finset Nat → Nat} {sp : Spec} {v : VersionHash} :
      specAccepts reg sp = some false → reg.find (cstr sp.fromNs) = some v →
      (∀ n, reg'.core n = if n = cstr sp.fromNs then
        some ⟨v.prevNs, v.nextNs, v.hist ++ [(sp.toVers, some sp.info)]⟩ else reg.core n) →
      StepDoes reg reg' (.load id pick sp)
  | renames {id : Nat} {pick : Finset Nat → Nat} {sp : Spec} {v : VersionHash} :
      specAccepts reg sp = some true → reg.find (cstr sp.fromNs) = some v →
      cstr sp.fromNs ≠ cstr sp.toNs → reg.core (cstr sp.toNs) = none →
      (∀ n, reg'.core n = if n = cstr sp.toNs then
          some ⟨some (cstr sp.fromNs), none, v.hist ++ [(sp.toVers, some sp.info)]⟩
        else if n = cstr sp.fromNs then some ⟨v.prevNs, some (cstr sp.toNs), v.hist⟩
        else reg.core n) →
      StepDoes reg reg' (.load id pick sp)

theorem Reg.step_does (h : reg.step ev = .ok reg') : StepDoes reg reg' ev := by
  cases ev with
  | connect id name =>
    obtain ⟨⟨reg₁, quit⟩, hconn, rfl⟩ := map_eq_ok.mp h
    exact .registers (checkVersion_registers hconn) fun _ _ _ hev => by cases hev
  | load id pick sp =>
    obtain ⟨⟨reg₁, killed⟩, hload, rfl⟩ := map_eq_ok.mp h
    rcases updSpec_cases hload with ⟨ha, rfl⟩ | ha | ha
    · refine .registers (.refl _) fun _ _ _ hev => ?_
      cases hev
      exact ha
    · obtain ⟨v, hv, hcore⟩ := updSpec_append ha hload
      have hns := (specAccepts_false ha).1
      rw [← hns] at hv hcore
      exact .appends ha hv hcore
    · obtain ⟨v, hv, hcore⟩ := updSpec_rename ha hload
      obtain ⟨hne, -, hnone⟩ := specAccepts_true ha
      refine .renames ha hv hne ?_ hcore
      rw [Reg.core, hnone]
      rfl

theorem Reg.step_extends (h : reg.step ev = .ok reg') : Extends reg reg' := by
  cases ev with
  | connect id name =>
    obtain ⟨p, hconn, rfl⟩ := map_eq_ok.mp h
    exact (checkVersion_registers hconn).extends
  | load id pick sp =>
    obtain ⟨p, hload, rfl⟩ := map_eq_ok.mp h
    exact updSpec_extends hload

/-- **What an object has still to go through is never taken back or reordered.** Whatever is loaded
and whoever connects, the versions after its own stay, in their order, and new ones come last. -/
theorem pending_only_grows (evs : List RegEvent) (hrun : evs.foldlM Reg.step reg = .ok reg')
    (hv : reg.find a = some v) : ∃ v', reg'.find a = some v' ∧ v'.prevNs = v.prevNs ∧
      ∀ vers ∈ v.versions, v.pending vers <+: v'.pending vers := by
  have hext : Extends reg reg' :=
    foldlM_rel Extends.refl (fun _ _ _ => Extends.trans) (fun _ _ _ _ => Reg.step_extends) hrun
  obtain ⟨c, hc, hprev, more, hmore⟩ := hext a v.core (by rw [Reg.core, hv]; rfl)
  obtain ⟨v', hv', rfl⟩ := Reg.core_eq_some hc
  refine ⟨v', hv', hprev, fun vers hvers => ⟨more, ?_⟩⟩
  rw [v.pending_eq, v'.pending_eq, ← after_append hvers]
  exact congrArg (after vers) hmore

/-- An object at version 1 has one update to go through, and a load adds another. -/
theorem pending_only_grows_load : ∃ reg v reg' v',
    (registered "a" 1).step (.load 1 (fun _ => 0) ⟨lit "a", lit "a", 1, 2, []⟩) = .ok reg ∧
      reg.find (lit "a") = some v ∧ (v.pending 1).map (·.1) = [2] ∧
      reg.step (.load 1 (fun _ => 0) ⟨lit "a", lit "a", 2, 3, []⟩) = .ok reg' ∧
      reg'.find (lit "a") = some v' ∧ v.pending 1 <+: v'.pending 1 := by
  have hloads : ∃ reg v reg',
      (registered "a" 1).step (.load 1 (fun _ => 0) ⟨lit "a", lit "a", 1, 2, []⟩) = .ok reg ∧
      reg.find (lit "a") = some v ∧ ((v.pending 1).map (·.1) = [2] ∧ v.versions = [1, 2]) ∧
      reg.step (.load 1 (fun _ => 0) ⟨lit "a", lit "a", 2, 3, []⟩) = .ok reg' :=
    ⟨_, _, _, rfl, rfl, ⟨rfl, rfl⟩, rfl⟩
  obtain ⟨reg, v, reg', hfirst, hv, ⟨hone, hvers⟩, hsecond⟩ := hloads
  obtain ⟨v', hv', -, hpending⟩ := pending_only_grows [.load 1 _ ⟨lit "a", lit "a", 2, 3, []⟩]
    (bind_eq_ok.mpr ⟨reg', hsecond, rfl⟩) hv
  exact ⟨reg, v, reg', v', hfirst, hv, hone, hsecond, hv', hpending 1 (by simp [hvers])⟩

/-! ## The version list -/

/-- The load that brought `q` starts from `p`. -/
def Follows (p q : Int × Option UpdInfo) : Prop :=
  ∃ i, q.2 = some i ∧ i.fromVers = p.1 ∧ i.toVers = q.1

/-- The versions of a record are distinct, and each but the first came with a load from the
one before it. -/
structure HistoryChain (hist : List (Int × Option UpdInfo)) : Prop where
  distinct : (hist.map (·.1)).Nodup
  linked : hist.IsChain Follows

def AllChains (reg : Reg) : Prop := ∀ n v, reg.find n = some v → HistoryChain v.hist

/-- An accepted load starts from the current version of its source and leads to a new one. -/
def FromCurrent (reg : Reg) : RegEvent → Prop
  | .connect _ _ => True
  | .load _ _ sp => specAccepts reg sp ≠ none → ∀ v, reg.find (cstr sp.fromNs) = some v →
      sp.fromVers = v.cur ∧ sp.toVers ∉ v.versions

theorem historyChain_append (sp : Spec) (hv : HistoryChain v.hist) :
    HistoryChain (v.hist ++ [(sp.toVers, some sp.info)]) ↔
      sp.fromVers = v.cur ∧ sp.toVers ∉ v.versions := by
  have hlast : v.hist.getLast? = some (v.hist.getLast v.ne) := List.getLast?_eq_some_getLast v.ne
  constructor
  · intro h
    constructor
    · have hlink := (List.isChain_append.mp h.linked).2.2 _ hlast _ rfl
      obtain ⟨i, hi, hfrom, -⟩ := hlink
      cases hi
      exact hfrom
    · intro hmem
      have hnd := h.distinct
      rw [List.map_append, List.nodup_append] at hnd
      exact hnd.2.2 _ hmem _ (by simp) rfl
  · rintro ⟨hfrom, hnew⟩
    constructor
    · rw [List.map_append, List.nodup_append]
      refine ⟨hv.distinct, by simp, ?_⟩
      intro x hx y hy hxy
      rw [hxy] at hx
      simp only [List.map_cons, List.map_nil, List.mem_singleton] at hy
      exact hnew (hy ▸ hx)
    · refine List.isChain_append.mpr ⟨hv.linked, by simp, ?_⟩
      intro p hp q hq
      rw [hlast] at hp
      cases hp
      cases hq
      exact ⟨_, rfl, hfrom, rfl⟩

theorem AllChains.core : AllChains reg ↔ ∀ n c, reg.core n = some c → HistoryChain c.hist := by
  constructor
  · intro h n c hc
    obtain ⟨v, hv, rfl⟩ := Reg.core_eq_some hc
    exact h n v hv
  · intro h n v hv
    exact h n v.core (by rw [Reg.core, hv]; rfl)

/-- The histories stay chains exactly when a load starts from the current version. -/
theorem AllChains.step (h : AllChains reg) (hstep : reg.step ev = .ok reg') :
    AllChains reg' ↔ FromCurrent reg ev := by
  have hcores := AllChains.core.mp h
  cases Reg.step_does hstep with
  | registers hreg hnone =>
    refine ⟨fun _ => ?_, fun _ => AllChains.core.mpr ?_⟩
    · cases ev with
      | connect id name => trivial
      | load id pick sp => exact fun hacc => absurd (hnone id pick sp rfl) hacc
    · intro n c hc
      rcases hreg n with hsame | ⟨-, v0, hnew⟩
      · exact hcores n c (hsame ▸ hc)
      · rw [hnew] at hc
        cases hc
        exact ⟨by simp, by simp⟩
  | @appends id pick sp v hacc hv hcore =>
    have hone := historyChain_append sp (h _ v hv)
    constructor
    · intro h' _ w hw
      obtain rfl : w = v := Option.some.inj (hw.symm.trans hv)
      exact hone.mp (AllChains.core.mp h' (cstr sp.fromNs) _ (by rw [hcore, if_pos rfl]))
    · intro hcur
      have hchain := hone.mpr (hcur (by rw [hacc]; simp) v hv)
      refine AllChains.core.mpr fun n c hc => ?_
      rw [hcore] at hc
      split at hc
      · cases hc
        exact hchain
      · exact hcores n c hc
  | @renames id pick sp v hacc hv hne hto hcore =>
    have hone := historyChain_append sp (h _ v hv)
    constructor
    · intro h' _ w hw
      obtain rfl : w = v := Option.some.inj (hw.symm.trans hv)
      exact hone.mp (AllChains.core.mp h' (cstr sp.toNs) _ (by rw [hcore, if_pos rfl]))
    · intro hcur
      have hchain := hone.mpr (hcur (by rw [hacc]; simp) v hv)
      refine AllChains.core.mpr fun n c hc => ?_
      rw [hcore] at hc
      split at hc
      · cases hc
        exact hchain
      · split at hc
        · cases hc
          exact h _ v hv
        · exact hcores n c hc

/-- **Histories are chains exactly as long as every accepted load is from the current version.**
For the second half the run has to get through: a load that takes the server down leaves no state
behind. -/
theorem histories_chain (evs : List RegEvent) :
    (Along Reg.step FromCurrent Reg.empty evs →
      Along Reg.step (fun reg ev => ∀ reg', reg.step ev = .ok reg' → AllChains reg')
        Reg.empty evs) ∧
    (∀ reg, evs.foldlM Reg.step Reg.empty = .ok reg →
      Along Reg.step (fun reg ev => ∀ reg', reg.step ev = .ok reg' → AllChains reg')
        Reg.empty evs → Along Reg.step FromCurrent Reg.empty evs) :=
  Along.decides (P := fun _ reg' => AllChains reg') (I := AllChains)
    (fun h hstep => h.step hstep) (fun _ _ h => h) (fun n v hv => by cases hv)

def orderlyRun : List RegEvent :=
  [.connect 1 (lit "a@1"), .load 1 (fun _ => 0) ⟨lit "a", lit "b", 1, 2, []⟩,
    .load 1 (fun _ => 0) ⟨lit "b", lit "b", 2, 3, []⟩]

theorem histories_chain_orderly :
    Along Reg.step (fun reg ev => ∀ reg', reg.step ev = .ok reg' → AllChains reg')
      Reg.empty orderlyRun := by
  refine (histories_chain orderlyRun).1 ⟨trivial, fun reg₁ h₁ => ?_⟩
  cases h₁
  refine ⟨fun _ v hv => ?_, fun reg₂ h₂ => ?_⟩
  · cases hv
    decide
  · cases h₂
    refine ⟨fun _ v hv => ?_, fun _ _ => trivial⟩
    cases hv
    decide

/-- A rename from a version the namespace is not at, to a version it has had. -/
theorem history_not_chain :
    ∃ reg v, [RegEvent.connect 1 (lit "a@1"), .load 1 (fun _ => 0) ⟨lit "a", lit "b", 7, 1, []⟩].foldlM
        Reg.step Reg.empty = .ok reg ∧ reg.find (lit "b") = some v ∧
      ¬ v.versions.Nodup ∧ ¬ v.hist.IsChain Follows := by
  refine ⟨_, _, rfl, rfl, by decide, fun hchain => ?_⟩
  obtain ⟨i, hi, hfrom, -⟩ := (List.isChain_cons_cons.mp hchain).1
  cases hi
  exact absurd hfrom (by decide)

/-! ## The links -/

/-- The record of `b` names `a` as the namespace before it. -/
def PrevLink (reg : Reg) (a b : Bytes) : Prop := (reg.find b).bind (·.prevNs) = some a

/-- The record of `a` names `b` as the namespace after it. -/
def NextLink (reg : Reg) (a b : Bytes) : Prop := (reg.find a).bind (·.nextNs) = some b

/-- The links lead nowhere in a circle, forward and backward links are the same, and from every
namespace they lead to one that is current, and to one only. -/
structure ExactLinks (reg : Reg) : Prop where
  acyclic : ∀ n, ¬ Relation.TransGen (PrevLink reg) n n
  inverse : ∀ a b, PrevLink reg a b ↔ NextLink reg a b
  current : ∀ a v, reg.find a = some v →
    ∃! m, Relation.ReflTransGen (PrevLink reg) a m ∧ ∀ b, ¬ PrevLink reg m b

/-- A namespace that has a successor gets no version and no other successor. -/
structure Frozen (reg reg' : Reg) : Prop where
  record : ∀ a v, reg.find a = some v → v.nextNs ≠ none →
    ∃ v', reg'.find a = some v' ∧ v'.hist = v.hist ∧ v'.nextNs = v.nextNs
  successor : ∀ a v, reg.find a = some v → v.nextNs ≠ none →
    ∀ b, PrevLink reg' a b → PrevLink reg a b

def FromOpen (reg : Reg) : RegEvent → Prop
  | .connect _ _ => True
  | .load _ _ sp => specAccepts reg sp ≠ none → ∀ v, reg.find (cstr sp.fromNs) = some v →
      v.nextNs = none

theorem prevLink_core : PrevLink reg a b ↔ (reg.core b).bind (·.prevNs) = some a := by
  unfold PrevLink Reg.core
  cases reg.find b <;> rfl

theorem nextLink_core : NextLink reg a b ↔ (reg.core a).bind (·.nextNs) = some b := by
  unfold NextLink Reg.core
  cases reg.find a <;> rfl

theorem core_of_find (h : reg.find a = some v) : reg.core a = some v.core := by
  rw [Reg.core, h]
  rfl

theorem PrevLink.registered (h : PrevLink reg a b) : (reg.core b).isSome := by
  rw [prevLink_core] at h
  obtain ⟨c, hc, -⟩ := Option.bind_eq_some_iff.mp h
  rw [hc]
  rfl

/-- No name is dropped and no link is set. -/
structure SameLinks (reg reg' : Reg) : Prop where
  kept : ∀ {n}, (reg.core n).isSome → (reg'.core n).isSome
  prev : ∀ {a b}, PrevLink reg' a b ↔ PrevLink reg a b
  next : ∀ {a b}, NextLink reg' a b ↔ NextLink reg a b

/-- A new name is linked to one that is there, and nothing else is. -/
structure LinksNew (reg reg' : Reg) (src dst : Bytes) : Prop where
  source : (reg.core src).isSome
  fresh : ∀ {n}, (reg.core n).isSome → n ≠ dst
  names : ∀ {n}, (reg'.core n).isSome ↔ n = dst ∨ (reg.core n).isSome
  prev : ∀ {a b}, PrevLink reg' a b ↔ if b = dst then a = src else PrevLink reg a b
  next : ∀ {a b}, NextLink reg' a b ↔ a ≠ dst ∧ if a = src then b = dst else NextLink reg a b

/-- A record that replaces one with the same links. -/
theorem SameLinks.of_core (h : ∀ n, reg'.core n = reg.core n ∨ ∃ c, reg'.core n = some c ∧
    (reg.core n).bind (·.prevNs) = c.prevNs ∧ (reg.core n).bind (·.nextNs) = c.nextNs) :
    SameLinks reg reg' := by
  refine ⟨fun {n} hn => ?_, fun {a b} => ?_, fun {a b} => ?_⟩
  · rcases h n with hsame | ⟨c, hc, -⟩
    · rwa [hsame]
    · rw [hc]
      rfl
  · rw [prevLink_core, prevLink_core]
    rcases h b with hsame | ⟨c, hc, hprev, -⟩
    · rw [hsame]
    · rw [hc, hprev]
      rfl
  · rw [nextLink_core, nextLink_core]
    rcases h a with hsame | ⟨c, hc, -, hnext⟩
    · rw [hsame]
    · rw [hc, hnext]
      rfl

/-- What an event does to the links. -/
theorem StepDoes.links (h : StepDoes reg reg' ev) : SameLinks reg reg' ∨ ∃ id pick sp,
    ev = .load id pick sp ∧ specAccepts reg sp ≠ none ∧
      LinksNew reg reg' (cstr sp.fromNs) (cstr sp.toNs) := by
  cases h with
  | registers hreg _ =>
    refine .inl (.of_core fun n => (hreg n).imp_right ?_)
    rintro ⟨hnone, v0, hnew⟩
    exact ⟨_, hnew, by rw [hnone]; rfl, by rw [hnone]; rfl⟩
  | @appends id pick sp v hacc hv hcore =>
    refine .inl (.of_core fun n => ?_)
    rw [hcore]
    split
    · rename_i hn
      rw [hn, core_of_find hv]
      exact .inr ⟨_, rfl, rfl, rfl⟩
    · exact .inl rfl
  | @renames id pick sp v hacc hv hne hto hcore =>
    have hfrom := core_of_find hv
    refine .inr ⟨id, pick, sp, rfl, by rw [hacc]; simp, by rw [hfrom]; rfl, ?_, ?_, ?_, ?_⟩
    · rintro n hn rfl
      rw [hto] at hn
      cases hn
    · intro n
      rw [hcore]
      split
      · rename_i hn
        exact ⟨fun _ => .inl hn, fun _ => rfl⟩
      · rename_i hn
        rw [or_iff_right hn]
        split
        · rename_i hsrc
          rw [hsrc, hfrom]
          rfl
        · rfl
    · intro a b
      rw [prevLink_core, prevLink_core, hcore]
      split
      · exact Option.some_inj.trans eq_comm
      · split
        · rename_i hb
          rw [hb, hfrom]
          rfl
        · rfl
    · intro a b
      rw [nextLink_core, nextLink_core, hcore]
      split
      · rename_i ha
        exact iff_of_false nofun fun h => h.1 ha
      · rename_i ha
        rw [and_iff_right ha]
        split
        · exact Option.some_inj.trans eq_comm
        · rfl

/-- Predecessors are registered, and a rank grows along the links; it is bounded. -/
structure Ranked (reg : Reg) (rank : Bytes → Nat) (bound : Nat) : Prop where
  closed : ∀ {a b}, PrevLink reg a b → (reg.core a).isSome
  grows : ∀ {a b}, PrevLink reg a b → rank a < rank b
  below : ∀ {n}, (reg.core n).isSome → rank n < bound

theorem ranked_empty : Ranked Reg.empty (fun _ => 0) 0 := by
  constructor
  · intro a b h
    cases h
  · intro a b h
    cases h
  · intro n h
    cases h

theorem Ranked.acyclic (h : Ranked reg rank bound) (n : Bytes) :
    ¬ Relation.TransGen (PrevLink reg) n n := by
  have hlt : ∀ {a b}, Relation.TransGen (PrevLink reg) a b → rank a < rank b := by
    intro a b hab
    induction hab with
    | single hab => exact h.grows hab
    | tail _ hbc ih => exact ih.trans (h.grows hbc)
  intro hn
  exact absurd (hlt hn) (lt_irrefl _)

theorem Ranked.current (h : Ranked reg rank bound)
    (hinv : ∀ a b, PrevLink reg a b ↔ NextLink reg a b) (ha : (reg.core a).isSome) :
    ∃! m, Relation.ReflTransGen (PrevLink reg) a m ∧ ∀ b, ¬ PrevLink reg m b := by
  -- the rank can grow only so often
  have hexists : ∀ n a, (reg.core a).isSome → bound - rank a = n →
      ∃ m, Relation.ReflTransGen (PrevLink reg) a m ∧ ∀ b, ¬ PrevLink reg m b := by
    intro n
    induction n using Nat.strong_induction_on with
    | _ n ih =>
      intro a ha hn
      by_cases hlast : ∃ b, PrevLink reg a b
      · obtain ⟨b, hb⟩ := hlast
        have hgrow := h.grows hb
        have hbelow := h.below hb.registered
        obtain ⟨m, hm, hend⟩ := ih (bound - rank b) (by omega) b hb.registered rfl
        exact ⟨m, .head hb hm, hend⟩
      · exact ⟨a, .refl, fun b hb => hlast ⟨b, hb⟩⟩
  obtain ⟨m, hm, hend⟩ := hexists _ a ha rfl
  refine ⟨m, ⟨hm, hend⟩, ?_⟩
  rintro m' ⟨hm', hend'⟩
  have hunique : Relator.RightUnique (PrevLink reg) := by
    intro x y z hy hz
    have hy := (hinv x y).mp hy
    rw [NextLink, (hinv x z).mp hz] at hy
    exact (Option.some.inj hy).symm
  rcases Relation.ReflTransGen.total_of_right_unique hunique hm hm' with hmm | hmm
  · rcases Relation.ReflTransGen.cases_head hmm with heq | ⟨b, hb, -⟩
    · exact heq.symm
    · exact absurd hb (hend b)
  · rcases Relation.ReflTransGen.cases_head hmm with heq | ⟨b, hb, -⟩
    · exact heq
    · exact absurd hb (hend' b)

/-- **Some rank always grows along the links.** Names that come without a link get the least
rank, and a name that a load makes gets one above all. -/
theorem Ranked.step (h : Ranked reg rank bound) (hstep : reg.step ev = .ok reg') :
    ∃ rank' bound', Ranked reg' rank' bound' := by
  rcases (Reg.step_does hstep).links with hsame | ⟨id, pick, sp, -, -, hnew⟩
  · refine ⟨fun n => if (reg.core n).isSome then rank n else 0, bound + 1, fun hab => ?_,
      fun hab => ?_, fun {n} _ => ?_⟩
    · exact hsame.kept (h.closed (hsame.prev.mp hab))
    · have hab := hsame.prev.mp hab
      simp only [if_pos (h.closed hab), if_pos hab.registered]
      exact h.grows hab
    · split
      · rename_i hold
        exact Nat.lt_succ_of_lt (h.below hold)
      · exact Nat.succ_pos _
  · refine ⟨fun n => if n = cstr sp.toNs then bound else rank n, bound + 1, fun {a b} hab => ?_,
      fun {a b} hab => ?_, fun {n} hn => ?_⟩
    · have hab := hnew.prev.mp hab
      split at hab
      · exact hnew.names.mpr (.inr (hab ▸ hnew.source))
      · exact hnew.names.mpr (.inr (h.closed hab))
    · have hab := hnew.prev.mp hab
      split at hab
      · rename_i hb
        rw [if_neg (hab ▸ hnew.fresh hnew.source), if_pos hb, hab]
        exact h.below hnew.source
      · rename_i hb
        rw [if_neg (hnew.fresh (h.closed hab)), if_neg hb]
        exact h.grows hab
    · rcases hnew.names.mp hn with hdst | hold
      · rw [if_pos hdst]
        exact Nat.lt_succ_self _
      · rw [if_neg (hnew.fresh hold)]
        exact Nat.lt_succ_of_lt (h.below hold)

section LinkStep

variable {reg reg' : Reg} {ev : RegEvent} {rank : Bytes → Nat} {bound : Nat}

/-- **Forward and backward links stay the same**, if the source of a load has no successor. -/
theorem inverse_step (hinv : ∀ a b, PrevLink reg a b ↔ NextLink reg a b)
    (hr : Ranked reg rank bound) (hstep : reg.step ev = .ok reg') (hopen : FromOpen reg ev)
    (a b : Bytes) : PrevLink reg' a b ↔ NextLink reg' a b := by
  rcases (Reg.step_does hstep).links with hsame | ⟨id, pick, sp, rfl, hacc, hnew⟩
  · rw [hsame.prev, hsame.next]
    exact hinv a b
  · rw [hnew.prev, hnew.next]
    by_cases hb : b = cstr sp.toNs
    · rw [if_pos hb]
      by_cases ha : a = cstr sp.fromNs
      · rw [if_pos ha]
        exact ⟨fun _ => ⟨ha ▸ hnew.fresh hnew.source, hb⟩, fun _ => ha⟩
      · rw [if_neg ha]
        refine iff_of_false ha fun h => hnew.fresh ((hinv a b).mpr h.2).registered hb
    · rw [if_neg hb]
      by_cases ha : a = cstr sp.fromNs
      · -- the source had no successor
        rw [if_pos ha]
        refine iff_of_false (fun h => ?_) fun h => hb h.2
        have hnext := (hinv a b).mp h
        obtain ⟨v, hv, hvnext⟩ := Option.bind_eq_some_iff.mp hnext
        rw [hopen hacc v (ha ▸ hv)] at hvnext
        cases hvnext
      · rw [if_neg ha, ← hinv a b]
        exact ⟨fun h => ⟨hnew.fresh (hr.closed h), h⟩, fun h => h.2⟩

/-- A load from a namespace without successor freezes those that have one. -/
theorem frozen_step (hstep : reg.step ev = .ok reg') (hopen : FromOpen reg ev) :
    Frozen reg reg' := by
  -- enough to look at the cores
  have hcores : (∀ a c, reg.core a = some c → c.nextNs ≠ none →
      reg'.core a = some c ∧ ∀ b, PrevLink reg' a b → PrevLink reg a b) → Frozen reg reg' := by
    intro h
    refine ⟨fun a v hv hnext => ?_, fun a v hv hnext => (h a _ (core_of_find hv) hnext).2⟩
    obtain ⟨v', hv', hcore⟩ := Reg.core_eq_some (h a _ (core_of_find hv) hnext).1
    refine ⟨v', hv', ?_, ?_⟩
    · exact congrArg Core.hist hcore
    · exact congrArg Core.nextNs hcore
  refine hcores fun a c hc hnext => ?_
  have hsource : ∀ id pick sp, ev = .load id pick sp → specAccepts reg sp ≠ none →
      a ≠ cstr sp.fromNs := by
    rintro id pick sp rfl hacc rfl
    obtain ⟨v, hv, rfl⟩ := Reg.core_eq_some hc
    exact hnext (hopen hacc v hv)
  constructor
  · cases Reg.step_does hstep with
    | registers hreg hnone =>
      rcases hreg a with hsame | ⟨hn, -⟩
      · rw [hsame, hc]
      · rw [hc] at hn
        cases hn
    | @appends id pick sp v hacc hv hcore =>
      rw [hcore, if_neg (hsource id pick sp rfl (by rw [hacc]; simp)), hc]
    | @renames id pick sp v hacc hv hne hto hcore =>
      have hfresh : a ≠ cstr sp.toNs := by
        rintro rfl
        rw [hto] at hc
        cases hc
      rw [hcore, if_neg hfresh, if_neg (hsource id pick sp rfl (by rw [hacc]; simp)), hc]
  · intro b hb
    rcases (Reg.step_does hstep).links with hsame | ⟨id, pick, sp, hev, hacc, hnew⟩
    · exact hsame.prev.mp hb
    · have hb := hnew.prev.mp hb
      split at hb
      · exact absurd hb (hsource id pick sp hev hacc)
      · exact hb

/-- An accepted load of a namespace with a successor gives it a version or another successor. -/
theorem Frozen.open (hstep : reg.step ev = .ok reg') (hf : Frozen reg reg') : FromOpen reg ev := by
  cases ev with
  | connect id name => trivial
  | load id pick sp =>
    intro hacc w hw
    by_contra hnext
    cases Reg.step_does hstep with
    | registers hreg hnone => exact hacc (hnone id pick sp rfl)
    | @appends _ _ _ v _ hv hcore =>
      obtain rfl : w = v := Option.some.inj (hw.symm.trans hv)
      obtain ⟨v', hv', hhist, -⟩ := hf.record _ w hw hnext
      have hcore' := hcore (cstr sp.fromNs)
      rw [if_pos rfl, core_of_find hv'] at hcore'
      have hlong := congrArg Core.hist (Option.some.inj hcore')
      change v'.hist = _ at hlong
      rw [hhist] at hlong
      simp at hlong
    | @renames _ _ _ v _ hv hne hto hcore =>
      have hlink : PrevLink reg' (cstr sp.fromNs) (cstr sp.toNs) := by
        rw [prevLink_core, hcore, if_pos rfl]
        rfl
      have hreg := (hf.successor _ w hw hnext _ hlink).registered
      rw [hto] at hreg
      cases hreg

end LinkStep

/-- **Links are exact exactly as long as every accepted load is of a namespace without a
successor.** For the second half the run has to get through. -/
theorem links_exact (evs : List RegEvent) :
    (Along Reg.step FromOpen Reg.empty evs →
      Along Reg.step (fun reg ev => ∀ reg', reg.step ev = .ok reg' →
        ExactLinks reg' ∧ Frozen reg reg') Reg.empty evs) ∧
    (∀ reg, evs.foldlM Reg.step Reg.empty = .ok reg →
      Along Reg.step (fun reg ev => ∀ reg', reg.step ev = .ok reg' →
        ExactLinks reg' ∧ Frozen reg reg') Reg.empty evs →
      Along Reg.step FromOpen Reg.empty evs) := by
  refine Along.decides (P := fun reg reg' => ExactLinks reg' ∧ Frozen reg reg')
    (I := fun reg => (∀ a b, PrevLink reg a b ↔ NextLink reg a b) ∧ ∃ rank bound,
      Ranked reg rank bound) ?_ ?_ ?_
  · intro reg ev reg' hI hstep
    obtain ⟨hinv, rank, bound, hr⟩ := hI
    refine ⟨fun h => h.2.open hstep, fun hopen => ⟨?_, frozen_step hstep hopen⟩⟩
    have hinv' := inverse_step hinv hr hstep hopen
    obtain ⟨rank', bound', hr'⟩ := hr.step hstep
    refine ⟨hr'.acyclic, hinv', fun a v hv => hr'.current hinv' ?_⟩
    rw [core_of_find hv]
    rfl
  · intro reg ev reg' hI hstep hP
    obtain ⟨-, rank, bound, hr⟩ := hI
    exact ⟨hP.1.inverse, hr.step hstep⟩
  · exact ⟨fun a b => iff_of_false (fun h => by cases h) (fun h => by cases h), _, _, ranked_empty⟩

theorem links_exact_orderly :
    Along Reg.step (fun reg ev => ∀ reg', reg.step ev = .ok reg' →
      ExactLinks reg' ∧ Frozen reg reg') Reg.empty orderlyRun := by
  refine (links_exact orderlyRun).1 ⟨trivial, fun reg₁ h₁ => ?_⟩
  cases h₁
  refine ⟨fun _ v hv => ?_, fun reg₂ h₂ => ?_⟩
  · cases hv
    rfl
  · cases h₂
    refine ⟨fun _ v hv => ?_, fun _ _ => trivial⟩
    cases hv
    rfl

/-- Two renames of one namespace: both names link back to it, it links forward to the second
only. -/
theorem links_forked :
    ∃ reg, [RegEvent.connect 1 (lit "a@1"), .load 1 (fun _ => 0) ⟨lit "a", lit "b", 1, 2, []⟩,
        .load 1 (fun _ => 0) ⟨lit "a", lit "c", 1, 2, []⟩].foldlM Reg.step Reg.empty = .ok reg ∧
      PrevLink reg (lit "a") (lit "b") ∧ ¬ NextLink reg (lit "a") (lit "b") ∧
      PrevLink reg (lit "a") (lit "c") := by
  refine ⟨_, rfl, rfl, ?_, rfl⟩
  intro h
  exact absurd (Option.some.inj h) (by decide)

/-! ## Room in the arrays -/

def RoomLeft (reg : Reg) : RegEvent → Prop
  | .connect _ _ => True
  | .load _ _ sp => specAccepts reg sp ≠ none → ∀ v, reg.find (cstr sp.fromNs) = some v →
      v.hist.length < kvInitSz

/-- A step writes inside of the arrays, and a load that would need another slot is refused: no
record, id set or connection is changed. -/
def InBounds (reg : Reg) : RegEvent → Prop
  | .connect id name => checkVersion id name reg ≠ .error .overflow
  | .load id pick sp => updSpec id pick reg sp ≠ .error .overflow ∧
      (specAccepts reg sp ≠ none →
        (∃ v, reg.find (cstr sp.fromNs) = some v ∧ kvInitSz ≤ v.hist.length) →
        updSpec id pick reg sp = .ok (reg, ∅))

theorem checkVersionLoop_faults (h : checkVersionLoop id n b reg = .error f) :
    f = .segv ∨ f = .diverge := by
  induction n generalizing b reg with
  | zero =>
    cases h
    exact .inr rfl
  | succ n ih =>
    rw [checkVersionLoop] at h
    cases h₁ : strtok 64 b with
    | none =>
      rw [h₁] at h
      cases h
      exact .inl rfl
    | some p =>
      obtain ⟨ns, b₁, l⟩ := p
      simp only [h₁] at h
      cases h₂ : strtok 44 b₁ with
      | none =>
        simp only [h₂] at h
        cases h
        exact .inl rfl
      | some q =>
        obtain ⟨vers, b₂, last⟩ := q
        have hnext : ∀ reg₁ : Reg, (if last = true then Except.ok (reg₁, false)
            else checkVersionLoop id n b₂ reg₁) = Except.error f → f = .segv ∨ f = .diverge := by
          intro reg₁ h
          split at h
          · cases h
          · exact ih h
        simp only [h₂] at h
        cases hf : reg.find ns with
        | none =>
          simp only [hf] at h
          exact hnext _ h
        | some v =>
          simp only [hf] at h
          split at h
          · cases h
          · exact hnext _ h

theorem checkVersion_faults {name : Bytes} (h : checkVersion id name reg = .error f) :
    f = .segv ∨ f = .diverge := by
  unfold checkVersion at h
  split at h
  · exact checkVersionLoop_faults h
  · cases h

theorem killChain_faults {tmp : VersionHash} (h : killChain loading pick n tmp reg = .error f) :
    f = .diverge := by
  induction n generalizing tmp reg with
  | zero =>
    cases h
    rfl
  | succ n ih =>
    simp only [killChain] at h
    split at h
    · cases h
    · obtain hk | ⟨p, -, hp⟩ := bind_eq_error.mp h
      · exact ih hk
      · cases hp

theorem appendVersion_in_bounds (n : Int) (info : UpdInfo) :
    (∃ v', appendVersion v n info = .ok v') ↔ v.hist.length < kvInitSz := by
  have hroom := v.room
  unfold appendVersion
  rw [if_neg (by omega)]
  split
  · rename_i h
    exact iff_of_true ⟨_, rfl⟩ h
  · rename_i h
    refine iff_of_false ?_ h
    rintro ⟨v', h'⟩
    cases h'

theorem updSpec_append_room {sp : Spec} (ha : specAccepts reg sp = some false)
    (hv : reg.find (cstr sp.fromNs) = some v) :
    (v.hist.length < kvInitSz → updSpec loading pick reg sp ≠ .error .overflow) ∧
      (kvInitSz ≤ v.hist.length → ∀ r, updSpec loading pick reg sp ≠ .ok r) := by
  have hns : cstr sp.fromNs = cstr sp.toNs := (specAccepts_false ha).1
  rw [hns] at hv
  have hname := Reg.find_ns hv
  simp only [updSpec, ha, Bool.false_eq_true, if_false, ok_bind, hv]
  cases hk : killChain loading pick (reg.size + 1) v reg with
  | error e =>
    refine ⟨fun _ h => ?_, fun _ r h => ?_⟩
    · cases h
      cases killChain_faults hk
    · cases h
  | ok p =>
    obtain ⟨reg₁, killed⟩ := p
    have hcore := killChain_core (by rw [hname]; exact hv) hk (cstr sp.toNs)
    rw [Reg.core, Reg.core, hv] at hcore
    obtain ⟨v₁, hv₁, hc₁⟩ := Option.map_eq_some_iff.mp hcore
    have hhist : v₁.hist = v.hist := congrArg Core.hist hc₁
    simp only [ok_bind, hv₁]
    have happ := appendVersion_in_bounds (v := { v₁ with is := insert loading v₁.is }) sp.toVers
      ⟨cstr sp.fromNs, cstr sp.toNs, sp.fromVers, sp.toVers, sp.funs⟩
    rw [← hhist]
    refine ⟨fun hroom h => ?_, fun hfull r h => ?_⟩
    · obtain ⟨v₂, hv₂⟩ := happ.mpr hroom
      rw [hv₂] at h
      cases h
    · obtain ⟨v₂, hv₂, -⟩ := bind_eq_ok.mp h
      exact absurd (happ.mp ⟨v₂, hv₂⟩) (Nat.not_lt.mpr hfull)

/-- A rename copies the history and writes the slot behind it, before any client is killed. -/
theorem updSpec_rename_room {sp : Spec} (ha : specAccepts reg sp = some true)
    (hv : reg.find (cstr sp.fromNs) = some v) :
    (v.hist.length < kvInitSz → updSpec loading pick reg sp ≠ .error .overflow) ∧
      (kvInitSz ≤ v.hist.length → ∀ r, updSpec loading pick reg sp ≠ .ok r) := by
  simp only [updSpec, ha, if_true, createNs, hv]
  split
  · rename_i hroom
    refine ⟨fun _ => ?_, fun hfull => absurd hroom (Nat.not_lt.mpr hfull)⟩
    simp only [ok_bind]
    split
    · intro h
      cases h
    · intro h
      obtain hk | ⟨p, -, hp⟩ := bind_eq_error.mp h
      · cases killChain_faults hk
      · cases hp
  · rename_i hfull
    refine ⟨fun hroom => absurd hroom hfull, fun _ r h => ?_⟩
    cases h

theorem inBounds_iff (reg : Reg) (ev : RegEvent) : InBounds reg ev ↔ RoomLeft reg ev := by
  cases ev with
  | connect id name =>
    refine iff_of_true (fun h => ?_) trivial
    obtain h | h := checkVersion_faults h <;> cases h
  | load id pick sp =>
    cases ha : specAccepts reg sp with
    | none =>
      have hload : updSpec id pick reg sp = .ok (reg, ∅) := by simp only [updSpec, ha]
      refine iff_of_true ⟨?_, fun h => absurd ha h⟩ fun h => absurd ha h
      rw [hload]
      intro h
      cases h
    | some created =>
      have hacc : specAccepts reg sp ≠ none := by rw [ha]; exact Option.some_ne_none _
      have hroom : ∀ v, reg.find (cstr sp.fromNs) = some v →
          (v.hist.length < kvInitSz → updSpec id pick reg sp ≠ .error .overflow) ∧
            (kvInitSz ≤ v.hist.length → ∀ r, updSpec id pick reg sp ≠ .ok r) := by
        intro v hv
        cases created with
        | false => exact updSpec_append_room ha hv
        | true => exact updSpec_rename_room ha hv
      constructor
      · intro h _ v hv
        by_contra hfull
        have hfull := Nat.not_lt.mp hfull
        exact (hroom v hv).2 hfull _ (h.2 hacc ⟨v, hv, hfull⟩)
      · intro h
        obtain ⟨v, hv⟩ : ∃ v, reg.find (cstr sp.fromNs) = some v := by
          cases created with
          | false =>
            obtain ⟨hns, v, hv, -⟩ := specAccepts_false ha
            exact ⟨v, hns ▸ hv⟩
          | true => exact (specAccepts_true ha).2.1
        refine ⟨(hroom v hv).1 (h hacc v hv), fun _ hfull => ?_⟩
        obtain ⟨w, hw, hlong⟩ := hfull
        exact absurd (h hacc w hw) (Nat.not_lt.mpr hlong)

/-- **The arrays are never overrun exactly as long as every accepted load finds a history of
fewer than `KV_INIT_SZ` versions.** -/
theorem arrays_in_bounds (evs : List RegEvent) :
    Along Reg.step InBounds Reg.empty evs ↔ Along Reg.step RoomLeft Reg.empty evs := by
  have hsame : InBounds = RoomLeft :=
    funext fun reg => funext fun ev => propext (inBounds_iff reg ev)
  rw [hsame]

def climb (n : Nat) : List RegEvent :=
  .connect 1 (lit "a@1") :: (List.range n).map fun i =>
    .load 1 (fun _ => 0) ⟨lit "a", lit "a", i + 1, i + 2, []⟩

/-- The load behind twenty versions is accepted, and written behind the array. -/
theorem arrays_overrun : ∃ reg, (climb 19).foldlM Reg.step Reg.empty = .ok reg ∧
    specAccepts reg ⟨lit "a", lit "a", 20, 21, []⟩ = some false ∧
    updSpec 1 (fun _ => 0) reg ⟨lit "a", lit "a", 20, 21, []⟩ = .error .overflow := by
  obtain ⟨reg, hreg, hacc, hover⟩ := ok_of_any (x := (climb 19).foldlM Reg.step Reg.empty)
    (p := fun reg => specAccepts reg ⟨lit "a", lit "a", 20, 21, []⟩ = some false ∧
      error? (updSpec 1 (fun _ => 0) reg ⟨lit "a", lit "a", 20, 21, []⟩) = some .overflow)
    (by decide +kernel)
  exact ⟨reg, hreg, hacc, error?_eq_some.mp hover⟩

end SchemaUpdate.KVolve
