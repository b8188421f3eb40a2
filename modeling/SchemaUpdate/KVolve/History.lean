import SchemaUpdate.Lib.Log
import SchemaUpdate.KVolve.Registry

/-! # What a load does to the registry

Killing clients touches only the id sets. An accepted load within a namespace
appends one version to its record; an accepted rename adds the record of the new
namespace, with the history of the old one and a link back to it. -/

namespace SchemaUpdate.KVolve

open SchemaUpdate.Lib SchemaUpdate.Redis

/-- A record without its id set: the links and the history. -/
structure Core where
  prevNs : Option Bytes
  nextNs : Option Bytes
  hist : List (Int × Option UpdInfo)

def VersionHash.core (v : VersionHash) : Core := ⟨v.prevNs, v.nextNs, v.hist⟩

def Reg.core (reg : Reg) (n : Bytes) : Option Core := (reg.find n).map (·.core)

variable {reg : Reg} {v : VersionHash} {loading : Nat} {pick : Finset Nat → Nat} {reg' : Reg}
    {killed : Finset Nat} {sp : Spec}

theorem VersionHash.pending_eq (v : VersionHash) (vers : Int) :
    v.pending vers = after vers v.hist := by
  unfold VersionHash.pending after
  cases v.hist.dropWhile fun p => p.1 ≠ vers <;> rfl

theorem Reg.core_eq_some {n : Bytes} {c : Core} (h : reg.core n = some c) :
    ∃ v, reg.find n = some v ∧ v.core = c :=
  Option.map_eq_some_iff.mp h

theorem Reg.core_set (reg : Reg) (v : VersionHash) (n : Bytes) :
    (reg.set v).core n = if n = v.ns then some v.core else reg.core n := by
  unfold Reg.core
  rw [Reg.find_set]
  split <;> rfl

theorem Reg.core_isSome (reg : Reg) (n : Bytes) : (reg.core n).isSome = (reg.find n).isSome := by
  unfold Reg.core
  cases reg.find n <;> rfl

theorem Reg.core_set_ids (h : reg.find v.ns = some v) (is : Finset Nat) (n : Bytes) :
    (reg.set { v with is := is }).core n = reg.core n := by
  rw [Reg.core_set]
  split
  · rename_i hn
    rw [hn, Reg.core, h]
    rfl
  · rfl

theorem killChain_core {n : Nat} {tmp : VersionHash} (htmp : reg.find tmp.ns = some tmp)
    (h : killChain loading pick n tmp reg = .ok (reg', killed)) (m : Bytes) :
    reg'.core m = reg.core m := by
  induction n generalizing tmp reg reg' killed with
  | zero => cases h
  | succ n ih =>
    simp only [killChain] at h
    have hset := Reg.core_set_ids htmp (survivors loading pick tmp.is)
    split at h
    · cases h
      exact hset m
    · rename_i t ht
      obtain ⟨⟨reg₁, killed₁⟩, h₁, h₂⟩ := bind_eq_ok.mp h
      cases h₂
      obtain ⟨p, -, hp⟩ := Option.bind_eq_some_iff.mp ht
      have hns := Reg.find_ns hp
      rw [← hns] at hp
      rw [ih hp h₁, hset]

theorem killChain_ok (loading : Nat) (pick : Finset Nat → Nat) (n : Nat) {tmp : VersionHash}
    (reg : Reg) (h : tmp.prevNs = none) :
    ∃ reg' killed, killChain loading pick (n + 1) tmp reg = .ok (reg', killed) := by
  simp only [killChain, h, Option.bind_none]
  exact ⟨_, _, rfl⟩

/-! ## Loads within a namespace -/

def Spec.info (sp : Spec) : UpdInfo :=
  ⟨cstr sp.fromNs, cstr sp.toNs, sp.fromVers, sp.toVers, sp.funs⟩

theorem specAccepts_false (h : specAccepts reg sp = some false) :
    cstr sp.fromNs = cstr sp.toNs ∧ ∃ v, reg.find (cstr sp.toNs) = some v ∧
      sp.toVers ∉ v.versions ∧ (v.prevNs = none → v.cur = sp.fromVers) := by
  unfold specAccepts at h
  split at h
  · cases h
  · rename_i v hv
    split at h
    · split at h <;> cases h
    · rename_i heq
      have heq : cstr sp.fromNs = cstr sp.toNs := not_not.mp heq
      split at h
      · cases h
      · rename_i hmem
        split at h
        · cases h
        · rename_i hcur
          refine ⟨heq, v, heq ▸ hv, hmem, fun hp => ?_⟩
          by_contra hne
          exact hcur ⟨hp, hne⟩

theorem specAccepts_true (h : specAccepts reg sp = some true) :
    cstr sp.fromNs ≠ cstr sp.toNs ∧ (∃ v, reg.find (cstr sp.fromNs) = some v) ∧
      reg.find (cstr sp.toNs) = none := by
  unfold specAccepts at h
  split at h
  · cases h
  · rename_i v hv
    split at h
    · rename_i hne
      split at h
      · cases h
      · rename_i hn
        exact ⟨hne, ⟨v, hv⟩, by simpa using hn⟩
    · split at h
      · cases h
      · split at h <;> cases h

theorem appendVersion_ok {v' : VersionHash} {to' : Int} {info : UpdInfo}
    (h : appendVersion v to' info = .ok v') :
    v'.ns = v.ns ∧ v'.core = ⟨v.prevNs, v.nextNs, v.hist ++ [(to', some info)]⟩ := by
  unfold appendVersion at h
  split at h
  · rename_i hgt
    have := v.room
    omega
  · split at h
    · cases h
      exact ⟨rfl, rfl⟩
    · cases h

/-- **An accepted load within a namespace appends its version, and nothing else.** -/
theorem updSpec_append (ha : specAccepts reg sp = some false)
    (h : updSpec loading pick reg sp = .ok (reg', killed)) :
    ∃ v, reg.find (cstr sp.toNs) = some v ∧ ∀ n, reg'.core n =
      if n = cstr sp.toNs then
        some ⟨v.prevNs, v.nextNs, v.hist ++ [(sp.toVers, some sp.info)]⟩
      else reg.core n := by
  obtain ⟨-, v, hv, -, -⟩ := specAccepts_false ha
  refine ⟨v, hv, ?_⟩
  simp only [updSpec, ha, Bool.false_eq_true, if_false, ok_bind, hv] at h
  obtain ⟨⟨reg₁, killed₁⟩, h₁, h⟩ := bind_eq_ok.mp h
  have hns := Reg.find_ns hv
  have hcore := killChain_core (by rw [hns]; exact hv) h₁
  simp only at h
  split at h
  · cases h
  · rename_i v₁ hv₁
    obtain ⟨v₂, h₂, h⟩ := bind_eq_ok.mp h
    cases h
    obtain ⟨hns₂, hc₂⟩ := appendVersion_ok h₂
    have hsame : v₁.core = v.core := by
      have := hcore (cstr sp.toNs)
      rw [Reg.core, Reg.core, hv₁, hv] at this
      exact Option.some.inj this
    have hc : v₂.core = ⟨v.prevNs, v.nextNs, v.hist ++ [(sp.toVers, some sp.info)]⟩ := by
      simp only [VersionHash.core, Core.mk.injEq] at hsame hc₂ ⊢
      obtain ⟨hp, hn, hh⟩ := hsame
      rw [← hp, ← hn, ← hh]
      exact hc₂
    intro n
    have hns₁ : v₂.ns = v₁.ns := hns₂
    rw [Reg.find_ns hv₁] at hns₁
    rw [Reg.core_set, hns₁]
    split
    · rw [hc]
    · exact hcore n

theorem updSpec_append_ok (loading : Nat) (pick : Finset Nat → Nat)
    (ha : specAccepts reg sp = some false) (hv : reg.find (cstr sp.toNs) = some v)
    (hprev : v.prevNs = none) (hroom : v.hist.length < kvInitSz) :
    ∃ reg' killed, updSpec loading pick reg sp = .ok (reg', killed) := by
  obtain ⟨reg₁, killed, h₁⟩ := killChain_ok loading pick reg.size reg hprev
  have hns := Reg.find_ns hv
  have hcore := killChain_core (by rw [hns]; exact hv) h₁ (cstr sp.toNs)
  rw [Reg.core, Reg.core, hv] at hcore
  obtain ⟨v₁, hv₁, hc₁⟩ := Option.map_eq_some_iff.mp hcore
  have hlen : v₁.hist.length < kvInitSz := by
    have hh : v₁.hist = v.hist := congrArg Core.hist hc₁
    rw [hh]
    exact hroom
  simp only [updSpec, ha, Bool.false_eq_true, if_false, ok_bind, hv, h₁, hv₁, appendVersion,
    Nat.not_lt.mpr (Nat.le_of_lt hlen), gt_iff_lt, dif_pos hlen]
  exact ⟨_, _, rfl⟩

/-! ## Renames -/

theorem createNs_some_ok {owner : Option Nat} {ns p : Bytes} {v0 : Int} {list : Option UpdInfo}
    (hv : reg.find (cstr p) = some v) (h : createNs reg owner ns (some p) v0 list = .ok reg')
    (n : Bytes) :
    reg'.core n =
      if n = cstr ns then some ⟨some (cstr p), none, v.hist ++ [(v0, list)]⟩
      else if n = cstr p then some ⟨v.prevNs, some (cstr ns), v.hist⟩
      else reg.core n := by
  simp only [createNs, hv] at h
  split at h
  · cases h
    rw [Reg.core_set]
    simp only [Reg.core_set, Reg.find_ns hv]
    split
    · rfl
    · split <;> rfl
  · cases h

/-- **An accepted rename adds the new record behind the old one.** -/
theorem updSpec_rename (ha : specAccepts reg sp = some true)
    (h : updSpec loading pick reg sp = .ok (reg', killed)) :
    ∃ v, reg.find (cstr sp.fromNs) = some v ∧ ∀ n, reg'.core n =
      if n = cstr sp.toNs then
        some ⟨some (cstr sp.fromNs), none, v.hist ++ [(sp.toVers, some sp.info)]⟩
      else if n = cstr sp.fromNs then some ⟨v.prevNs, some (cstr sp.toNs), v.hist⟩
      else reg.core n := by
  obtain ⟨-, ⟨v, hv⟩, -⟩ := specAccepts_true ha
  refine ⟨v, hv, ?_⟩
  simp only [updSpec, ha, if_true] at h
  obtain ⟨reg₁, h₁, h⟩ := bind_eq_ok.mp h
  have hcore := createNs_some_ok hv h₁
  split at h
  · cases h
  · rename_i v₁ hv₁
    obtain ⟨⟨reg₂, killed₂⟩, h₂, h⟩ := bind_eq_ok.mp h
    cases h
    intro n
    rw [killChain_core (by rw [Reg.find_ns hv₁]; exact hv₁) h₂, hcore]
    rfl

theorem updSpec_cases (h : updSpec loading pick reg sp = .ok (reg', killed)) :
    (specAccepts reg sp = none ∧ reg' = reg) ∨ specAccepts reg sp = some false ∨
      specAccepts reg sp = some true := by
  cases ha : specAccepts reg sp with
  | none =>
    simp only [updSpec, ha] at h
    cases h
    exact .inl ⟨rfl, rfl⟩
  | some b => cases b <;> simp

def loaded (reg : Reg) (sp : Spec) : Reg :=
  match updSpec 0 (fun _ => 0) reg sp with
  | .ok p => p.1
  | .error _ => reg

theorem updSpec_loaded (h : (updSpec 0 (fun _ => 0) reg sp).isOk = true) :
    ∃ killed, updSpec 0 (fun _ => 0) reg sp = .ok (loaded reg sp, killed) := by
  unfold loaded
  cases hu : updSpec 0 (fun _ => 0) reg sp with
  | ok p => exact ⟨p.2, rfl⟩
  | error e => rw [hu] at h; cases h

/-! ## Records only grow -/

/-- Every record is still there, with the same predecessor and a longer history. -/
def Extends (reg reg' : Reg) : Prop :=
  ∀ n c, reg.core n = some c →
    ∃ c', reg'.core n = some c' ∧ c'.prevNs = c.prevNs ∧ c.hist <+: c'.hist

theorem Extends.refl (reg : Reg) : Extends reg reg :=
  fun _ c h => ⟨c, h, rfl, List.prefix_refl _⟩

theorem Extends.trans {a b c : Reg} (h₁ : Extends a b) (h₂ : Extends b c) : Extends a c := by
  intro n x hx
  obtain ⟨y, hy, hp, hh⟩ := h₁ n x hx
  obtain ⟨z, hz, hp', hh'⟩ := h₂ n y hy
  exact ⟨z, hz, hp'.trans hp, hh.trans hh'⟩

theorem updSpec_extends (h : updSpec loading pick reg sp = .ok (reg', killed)) :
    Extends reg reg' := by
  rcases updSpec_cases h with ⟨-, rfl⟩ | ha | ha
  · exact Extends.refl _
  · obtain ⟨v, hv, hcore⟩ := updSpec_append ha h
    intro n c hc
    rw [hcore]
    split
    · rename_i hn
      rw [hn, Reg.core, hv] at hc
      cases hc
      exact ⟨_, rfl, rfl, List.prefix_append _ _⟩
    · exact ⟨c, hc, rfl, List.prefix_refl _⟩
  · obtain ⟨-, -, hnew⟩ := specAccepts_true ha
    obtain ⟨v, hv, hcore⟩ := updSpec_rename ha h
    intro n c hc
    rw [hcore]
    split
    · rename_i hn
      rw [hn, Reg.core, hnew] at hc
      cases hc
    · split
      · rename_i hn
        rw [hn, Reg.core, hv] at hc
        cases hc
        exact ⟨_, rfl, rfl, List.prefix_refl _⟩
      · exact ⟨c, hc, rfl, List.prefix_refl _⟩

/-! ## Connecting -/

theorem Reg.core_first (reg : Reg) (ns : Bytes) (v0 : Int) (is : Finset Nat) (n : Bytes) :
    (reg.set (.first ns v0 is)).core n =
      if n = cstr ns then some ⟨none, none, [(v0, none)]⟩ else reg.core n := by
  rw [Reg.core_set]
  rfl

theorem strtok_nulFree {delim : UInt8} {b t rest : Bytes} {last : Bool} (hb : NulFree b)
    (h : strtok delim b = some (t, rest, last)) : NulFree t ∧ NulFree rest := by
  unfold strtok at h
  simp only at h
  split at h
  · cases h
  · simp only [Option.some.injEq, Prod.mk.injEq] at h
    obtain ⟨rfl, rfl, -⟩ := h
    refine ⟨fun h0 => hb ?_, fun h0 => hb ?_⟩
    · exact (List.dropWhile_sublist _).mem ((List.takeWhile_sublist _).mem h0)
    · exact (List.dropWhile_sublist _).mem
        ((List.dropWhile_sublist _).mem ((List.drop_sublist _ _).mem h0))

/-- Some namespaces were registered anew; every other record is as it was. -/
def Registers (reg reg' : Reg) : Prop :=
  ∀ n, reg'.core n = reg.core n ∨
    (reg.core n = none ∧ ∃ v0, reg'.core n = some ⟨none, none, [(v0, none)]⟩)

theorem Registers.refl (reg : Reg) : Registers reg reg := fun _ => .inl rfl

theorem Registers.trans {a b c : Reg} (h₁ : Registers a b) (h₂ : Registers b c) :
    Registers a c := by
  intro n
  rcases h₂ n with h₂ | ⟨hnone, v0, h₂⟩
  · rw [h₂]
    exact h₁ n
  · rcases h₁ n with h₁ | ⟨-, w, h₁⟩
    · exact .inr ⟨h₁ ▸ hnone, v0, h₂⟩
    · rw [h₁] at hnone
      cases hnone

/-- A client that connects is the first of a new namespace, or joins one. What holds over both,
holds over the connect. -/
theorem checkVersion_rel {R : Reg → Reg → Prop} {id : Nat} {name : Bytes} {quit : Bool}
    (hrefl : ∀ reg, R reg reg) (htrans : ∀ {a b c}, R a b → R b c → R a c)
    (hnew : ∀ {reg ns} v0, reg.find ns = none → NulFree ns → R reg (reg.set (.first ns v0 {id})))
    (hjoin : ∀ {reg v}, reg.find v.ns = some v → R reg (reg.set { v with is := insert id v.is }))
    (h : checkVersion id name reg = .ok (reg', quit)) : R reg reg' := by
  have hloop : ∀ {n : Nat} {b : Bytes} {reg : Reg}, NulFree b →
      checkVersionLoop id n b reg = .ok (reg', quit) → R reg reg' := by
    intro n
    induction n with
    | zero =>
      intro b reg _ h
      cases h
    | succ n ih =>
      intro b reg hb h
      simp only [checkVersionLoop] at h
      split at h
      · cases h
      · rename_i ns b₁ _ h₁
        obtain ⟨hns, hb₁⟩ := strtok_nulFree hb h₁
        split at h
        · cases h
        · rename_i vers b₂ last h₂
          obtain ⟨-, hb₂⟩ := strtok_nulFree hb₁ h₂
          -- what the rest of the loop does to a registry that was extended here
          have next : ∀ reg₁, R reg reg₁ →
              (if last = true then Except.ok (reg₁, false) else checkVersionLoop id n b₂ reg₁) =
                Except.ok (reg', quit) → R reg reg' := by
            intro reg₁ hreg h
            split at h
            · cases h
              exact hreg
            · exact htrans hreg (ih hb₂ h)
          split at h
          · rename_i hnone
            exact next _ (hnew _ hnone hns) h
          · rename_i v hv
            split at h
            · cases h
              exact hrefl _
            · exact next _ (hjoin (by rw [Reg.find_ns hv]; exact hv)) h
  unfold checkVersion at h
  split at h
  · exact hloop (cstr_nulFree _) h
  · cases h
    exact hrefl _

theorem checkVersion_registers {id : Nat} {name : Bytes} {quit : Bool}
    (h : checkVersion id name reg = .ok (reg', quit)) : Registers reg reg' := by
  refine checkVersion_rel Registers.refl Registers.trans (fun {reg ns} v0 hnone hns m => ?_)
    (fun hv m => .inl (Reg.core_set_ids hv _ m)) h
  rw [Reg.core_first, cstr_eq_self hns]
  split
  · rename_i hm
    refine .inr ⟨?_, _, rfl⟩
    rw [hm, Reg.core, hnone]
    rfl
  · exact .inl rfl

theorem Registers.extends (h : Registers reg reg') : Extends reg reg' := by
  intro m c hm
  rcases h m with hsame | ⟨hnone, -⟩
  · exact ⟨c, hsame.trans hm, rfl, List.prefix_refl _⟩
  · rw [hm] at hnone
    cases hnone

/-- A step of the registry: a load, accepted or refused, or a client that connects. -/
inductive RegStep : Reg → Reg → Prop
  | load {id : Nat} {pick : Finset Nat → Nat} {reg reg' : Reg} {sp : Spec} {killed : Finset Nat} :
      updSpec id pick reg sp = .ok (reg', killed) → RegStep reg reg'
  | connect {id : Nat} {name : Bytes} {reg reg' : Reg} {quit : Bool} :
      checkVersion id name reg = .ok (reg', quit) → RegStep reg reg'

theorem RegStep.extends (h : RegStep reg reg') : Extends reg reg' := by
  cases h with
  | load h => exact updSpec_extends h
  | connect h => exact (checkVersion_registers h).extends

end SchemaUpdate.KVolve
