import SchemaUpdate.KVolve.History

/-! # Connect strings

A client that connects names its namespaces and their versions, `ns@v,ns@v`. The loop of
`kvolve_check_version` reads one pair after the other and applies each as it is read, so the
result is said in two parts: the pairs a text begins with, and what taking up the pairs does
to the registry. -/

namespace SchemaUpdate.KVolve

open SchemaUpdate.Lib SchemaUpdate.Redis

/-! ## Tokens -/

def Token (d : UInt8) (t : Bytes) : Prop := t ≠ [] ∧ d ∉ t

variable {t : Bytes} {d : UInt8} {b ns v : Bytes} {r : Option Bytes} {ps : List (Bytes × Bytes)}
    {id : Nat} {reg reg' : Reg} {n : Int}

theorem dropWhile_delims (d : UInt8) (i : Nat) (ht : t.head? ≠ some d) :
    (List.replicate i d ++ t).dropWhile (· == d) = t := by
  induction i with
  | zero =>
    cases t with
    | nil => rfl
    | cons x t =>
      have hx : x ≠ d := fun h => ht (by rw [h]; rfl)
      simp [hx]
  | succ i ih => simpa [List.replicate_succ] using ih

theorem takeWhile_token (ht : d ∉ t) (rest : Bytes) :
    (t ++ d :: rest).takeWhile (· != d) = t ∧ (t ++ d :: rest).dropWhile (· != d) = d :: rest := by
  have hall : ∀ x ∈ t, (x != d) = true := fun x hx => by
    rw [bne_iff_ne]
    rintro rfl
    exact ht hx
  rw [List.takeWhile_append_of_pos hall, List.dropWhile_append_of_pos hall]
  simp

theorem Token.head_ne (h : Token d t) (rest : Bytes) : (t ++ rest).head? ≠ some d := by
  obtain ⟨hne, hd⟩ := h
  obtain ⟨x, t, rfl⟩ := List.exists_cons_of_ne_nil hne
  intro hx
  cases hx
  exact hd List.mem_cons_self

theorem strtok_last (ht : Token d t) (i : Nat) :
    strtok d (List.replicate i d ++ t) = some (t, [], true) := by
  have hall : ∀ x ∈ t, (x != d) = true := fun x hx => by
    rw [bne_iff_ne]
    rintro rfl
    exact ht.2 hx
  have hdrop := dropWhile_delims d i (by simpa using ht.head_ne [])
  have hrest : t.dropWhile (· != d) = [] := List.dropWhile_eq_nil_iff.mpr hall
  simp only [strtok, hdrop, if_neg ht.1, hrest, List.takeWhile_eq_self_iff.mpr hall, List.drop_nil,
    decide_true]

theorem strtok_delim (ht : Token d t) (i : Nat) (rest : Bytes) :
    strtok d (List.replicate i d ++ (t ++ d :: rest)) = some (t, rest, false) := by
  have hdrop := dropWhile_delims d i (ht.head_ne (d :: rest))
  have hne : t ++ d :: rest ≠ [] := by simp
  obtain ⟨htake, hrest⟩ := takeWhile_token ht.2 rest
  simp only [strtok, hdrop, if_neg hne, htake, hrest, List.drop_succ_cons, List.drop_zero,
    reduceCtorEq, decide_false]

theorem strtok_eq_some {rest : Bytes} {last : Bool} (h : strtok d b = some (t, rest, last)) :
    Token d t ∧ ∃ i,
      (last = true ∧ rest = [] ∧ b = List.replicate i d ++ t) ∨
        (last = false ∧ b = List.replicate i d ++ (t ++ d :: rest)) := by
  unfold strtok at h
  simp only at h
  split at h
  · cases h
  · rename_i hne
    simp only [Option.some.injEq, Prod.mk.injEq] at h
    obtain ⟨rfl, rfl, rfl⟩ := h
    generalize hu : b.dropWhile (· == d) = u at hne ⊢
    have hb : b = List.replicate (b.takeWhile (· == d)).length d ++ u := by
      conv_lhs => rw [← List.takeWhile_append_dropWhile (p := (· == d)) (l := b), hu]
      congr 1
      refine List.eq_replicate_of_mem fun x hx => ?_
      simpa using List.mem_takeWhile_imp hx
    have hhead : u.head? ≠ some d := by
      intro hd
      have := List.head?_dropWhile_not (· == d) b
      rw [hu, hd] at this
      simp at this
    have hsplit := List.takeWhile_append_dropWhile (p := (· != d)) (l := u)
    have hfree : d ∉ u.takeWhile (· != d) := fun hx => by simpa using List.mem_takeWhile_imp hx
    refine ⟨⟨?_, hfree⟩, (b.takeWhile (· == d)).length, ?_⟩
    · obtain ⟨x, u, rfl⟩ := List.exists_cons_of_ne_nil hne
      have hx : x ≠ d := fun hx => hhead (by rw [hx]; rfl)
      simp [hx]
    · cases hr : u.dropWhile (· != d) with
      | nil =>
        rw [hr, List.append_nil] at hsplit
        exact .inl ⟨by simp, by simp, by rw [hsplit]; exact hb⟩
      | cons x rest =>
        have hx : x = d := by
          have := List.head?_dropWhile_not (· != d) u
          rw [hr] at this
          simpa using this
        rw [hr, hx] at hsplit
        refine .inr ⟨by simp, ?_⟩
        rw [List.drop_succ_cons, List.drop_zero, hsplit]
        exact hb

/-! ## The pairs a text begins with -/

/-- The text begins with a pair: more `@` before the namespace and more commas before the
version are skipped. What follows the version's comma is left, nothing when the text ends with
the version. -/
inductive PairFirst : Bytes → Bytes → Bytes → Option Bytes → Prop
  | ends (i j : Nat) {ns v : Bytes} : Token 64 ns → Token 44 v →
      PairFirst (List.replicate i 64 ++ (ns ++ 64 :: (List.replicate j 44 ++ v))) ns v none
  | goes (i j : Nat) {ns v : Bytes} (rest : Bytes) : Token 64 ns → Token 44 v →
      PairFirst (List.replicate i 64 ++ (ns ++ 64 :: (List.replicate j 44 ++ (v ++ 44 :: rest))))
        ns v (some rest)

/-- The text begins with the pairs `ps`; it ends with the last of them when nothing is left. -/
inductive ReadsPairs : Bytes → List (Bytes × Bytes) → Option Bytes → Prop
  | start (b : Bytes) : ReadsPairs b [] (some b)
  | last {b ns v : Bytes} : PairFirst b ns v none → ReadsPairs b [(ns, v)] none
  | more {b b' ns v : Bytes} {ps : List (Bytes × Bytes)} {r : Option Bytes} :
      PairFirst b ns v (some b') → ReadsPairs b' ps r → ReadsPairs b ((ns, v) :: ps) r

theorem pairFirst_iff :
    PairFirst b ns v r ↔ ∃ b₁ l b₂ last, strtok 64 b = some (ns, b₁, l) ∧
      strtok 44 b₁ = some (v, b₂, last) ∧ r = if last then none else some b₂ := by
  constructor
  · rintro (⟨i, j, hns, hv⟩ | ⟨i, j, rest, hns, hv⟩)
    · exact ⟨_, _, _, _, strtok_delim hns i _, strtok_last hv j, rfl⟩
    · exact ⟨_, _, _, _, strtok_delim hns i _, strtok_delim hv j rest, rfl⟩
  · rintro ⟨b₁, l, b₂, last, h₁, h₂, rfl⟩
    obtain ⟨hns, i, ⟨-, rfl, -⟩ | ⟨-, rfl⟩⟩ := strtok_eq_some h₁
    · cases h₂
    · obtain ⟨hv, j, ⟨rfl, -, rfl⟩ | ⟨rfl, rfl⟩⟩ := strtok_eq_some h₂
      · exact .ends i j hns hv
      · exact .goes i j b₂ hns hv

theorem PairFirst.shorter {b' : Bytes} (h : PairFirst b ns v (some b')) : b'.length < b.length := by
  cases h
  simp only [List.length_append, List.length_cons]
  omega

theorem PairFirst.nulFree (hb : NulFree b) (h : PairFirst b ns v r) :
    NulFree ns ∧ ∀ b', r = some b' → NulFree b' := by
  obtain ⟨b₁, l, b₂, last, h₁, h₂, rfl⟩ := pairFirst_iff.mp h
  obtain ⟨hns, hb₁⟩ := strtok_nulFree hb h₁
  refine ⟨hns, fun b' hb' => ?_⟩
  cases last with
  | true => cases hb'
  | false =>
    cases hb'
    exact (strtok_nulFree hb₁ h₂).2

/-! ## Taking up a pair -/

def firstRecord (id : Nat) (ns : Bytes) (n : Int) : VersionHash :=
  .first ns n {id}

def VersionHash.join (v : VersionHash) (id : Nat) : VersionHash := { v with is := insert id v.is }

/-- A pair creates its namespace or adds the client to it; `none` makes the client quit. -/
def enrol (id : Nat) (reg : Reg) (ns : Bytes) (n : Int) : Option Reg :=
  match reg.find ns with
  | none => some (reg.set (firstRecord id ns n))
  | some v => if v.cur ≠ n ∨ v.nextNs.isSome then none else some (reg.set (v.join id))

def enrolAll (id : Nat) : List (Bytes × Int) → Reg → Reg × Bool
  | [], reg => (reg, false)
  | (ns, n) :: ps, reg =>
    match enrol id reg ns n with
    | none => (reg, true)
    | some reg' => enrolAll id ps reg'

def numbered (ps : List (Bytes × Bytes)) : List (Bytes × Int) := ps.map fun p => (p.1, atoi p.2)

theorem checkVersionLoop_pair (id n : Nat) (reg : Reg) (h : PairFirst b ns v r) :
    checkVersionLoop id (n + 1) b reg =
      match enrol id reg ns (atoi v) with
      | none => .ok (reg, true)
      | some reg' =>
        match r with
        | none => .ok (reg', false)
        | some b' => checkVersionLoop id n b' reg' := by
  obtain ⟨b₁, l, b₂, last, h₁, h₂, rfl⟩ := pairFirst_iff.mp h
  simp only [checkVersionLoop, h₁, h₂, enrol]
  cases hf : reg.find ns with
  | none => cases last <;> rfl
  | some w =>
    simp only
    split
    · rfl
    · cases last <;> rfl

theorem checkVersionLoop_stuck (id n : Nat) (reg : Reg) (h : ∀ ns v r, ¬ PairFirst b ns v r) :
    checkVersionLoop id (n + 1) b reg = .error .segv := by
  rw [checkVersionLoop]
  cases h₁ : strtok 64 b with
  | none => rfl
  | some p =>
    obtain ⟨ns, b₁, l⟩ := p
    cases h₂ : strtok 44 b₁ with
    | none => simp only [h₂]
    | some q => exact absurd (pairFirst_iff.mpr ⟨b₁, l, q.2.1, q.2.2, h₁, h₂, rfl⟩) (h _ _ _)

/-- The loop takes up the pairs the text begins with. It is left when one is refused or the text
ends with the last of them; otherwise it goes on with what is left. -/
theorem checkVersionLoop_reads (id : Nat) (h : ReadsPairs b ps r) (n : Nat) (reg : Reg) :
    checkVersionLoop id (ps.length + n) b reg =
      if (enrolAll id (numbered ps) reg).2 then .ok (enrolAll id (numbered ps) reg)
      else r.elim (.ok (enrolAll id (numbered ps) reg))
        fun b' => checkVersionLoop id n b' (enrolAll id (numbered ps) reg).1 := by
  induction h generalizing reg with
  | start b =>
    rw [List.length_nil, Nat.zero_add]
    rfl
  | @last b ns v hp =>
    rw [List.length_singleton, Nat.add_comm, checkVersionLoop_pair id n reg hp]
    simp only [numbered, List.map_cons, List.map_nil, enrolAll]
    cases enrol id reg ns (atoi v) <;> rfl
  | @more b b' ns v ps r hp hps ih =>
    rw [List.length_cons, Nat.add_right_comm, checkVersionLoop_pair id _ reg hp]
    simp only [numbered, List.map_cons, enrolAll]
    cases enrol id reg ns (atoi v) with
    | none => rfl
    | some reg' => exact ih reg'

/-! ## When the pairs are taken up -/

/-- The namespace of a pair is not registered, or it stands at the version of the pair and was
not renamed. -/
def PairFits (reg : Reg) (p : Bytes × Int) : Prop :=
  ∀ v, reg.find p.1 = some v → v.cur = p.2 ∧ v.nextNs = none

/-- Every pair fits, and the pairs of a namespace that is not registered agree. -/
structure Admissible (reg : Reg) (ps : List (Bytes × Int)) : Prop where
  fits : ∀ p ∈ ps, PairFits reg p
  agree : ∀ p ∈ ps, ∀ q ∈ ps, reg.find p.1 = none → p.1 = q.1 → p.2 = q.2

theorem enrol_eq_some (hns : NulFree ns) (h : enrol id reg ns n = some reg') :
    ∃ v, v.cur = n ∧ v.nextNs = none ∧ id ∈ v.is ∧
      (∀ m, reg'.find m = if m = ns then some v else reg.find m) ∧
      ((reg.find ns = none ∧ v.core = ⟨none, none, [(n, none)]⟩) ∨
        ∃ w, reg.find ns = some w ∧ v = w.join id) := by
  unfold enrol at h
  split at h
  · rename_i hnone
    cases h
    refine ⟨firstRecord id ns n, rfl, rfl, Finset.mem_singleton_self id, fun m => ?_,
      .inl ⟨hnone, rfl⟩⟩
    have hname : (firstRecord id ns n).ns = ns := cstr_eq_self hns
    rw [Reg.find_set, hname]
  · rename_i w hw
    split at h
    · cases h
    · rename_i hfit
      cases h
      obtain ⟨hcur, hnext⟩ := not_or.mp hfit
      have hnext : (w.join id).nextNs = none := Option.not_isSome_iff_eq_none.mp hnext
      have hname : (w.join id).ns = ns := show w.ns = ns from Reg.find_ns hw
      refine ⟨w.join id, not_not.mp hcur, hnext, Finset.mem_insert_self id w.is, fun m => ?_,
        .inr ⟨w, hw, rfl⟩⟩
      rw [Reg.find_set, hname]

theorem enrol_isSome (id : Nat) :
    (∃ reg', enrol id reg ns n = some reg') ↔ PairFits reg (ns, n) := by
  unfold enrol PairFits
  cases hf : reg.find ns with
  | none => simp
  | some v =>
    simp only [Option.some.injEq, forall_eq']
    by_cases hfit : v.cur = n ∧ v.nextNs = none
    · rw [if_neg (by simp [hfit.1, hfit.2])]
      simp [hfit.1, hfit.2]
    · rw [if_pos (by
        by_contra hno
        obtain ⟨hcur, hnext⟩ := not_or.mp hno
        exact hfit ⟨not_not.mp hcur, by simpa using hnext⟩)]
      simp [hfit]

theorem fits_enrol (hns : NulFree ns) (h : enrol id reg ns n = some reg') (q : Bytes × Int) :
    PairFits reg' q ↔ if q.1 = ns then q.2 = n else PairFits reg q := by
  obtain ⟨v, hcur, hnext, -, hfind, -⟩ := enrol_eq_some hns h
  unfold PairFits
  rw [hfind]
  by_cases hq : q.1 = ns
  · simp [hq, hcur, hnext, eq_comm]
  · simp [hq]

theorem admissible_cons (hns : NulFree ns) (h : enrol id reg ns n = some reg')
    (ps : List (Bytes × Int)) :
    Admissible reg ((ns, n) :: ps) ↔ Admissible reg' ps := by
  have hfirst : PairFits reg (ns, n) := (enrol_isSome id).mp ⟨reg', h⟩
  have hfits := fits_enrol hns h
  obtain ⟨v, -, -, -, hfind, hwas⟩ := enrol_eq_some hns h
  constructor
  · rintro ⟨hall, hagree⟩
    refine ⟨fun p hp => (hfits p).mpr ?_, fun p hp q hq hnone => ?_⟩
    · split
      · rename_i hpn
        obtain ⟨hnone, -⟩ | ⟨w, hw, -⟩ := hwas
        · exact hagree p (by simp [hp]) (ns, n) (by simp) (hpn ▸ hnone) hpn
        · exact ((hall p (by simp [hp])) w (hpn ▸ hw)).1.symm.trans (hfirst w hw).1
      · exact hall p (by simp [hp])
    · rw [hfind] at hnone
      split at hnone
      · cases hnone
      · exact hagree p (by simp [hp]) q (by simp [hq]) hnone
  · rintro ⟨hall, hagree⟩
    have hsame : ∀ p ∈ ps, p.1 = ns → p.2 = n := fun p hp hpn => by
      simpa [hpn] using (hfits p).mp (hall p hp)
    have hrest : ∀ p ∈ ps, p.1 ≠ ns → PairFits reg p := fun p hp hpn => by
      simpa [hpn] using (hfits p).mp (hall p hp)
    refine ⟨List.forall_mem_cons.mpr ⟨hfirst, fun p hp => ?_⟩, ?_⟩
    · by_cases hpn : p.1 = ns
      · intro w hw
        rw [hsame p hp hpn]
        exact hfirst w (hpn ▸ hw)
      · exact hrest p hp hpn
    · intro p hp q hq hnone hpq
      by_cases hpn : p.1 = ns
      · have hpv : p.2 = n := by
          obtain rfl | hp := List.mem_cons.mp hp
          · rfl
          · exact hsame p hp hpn
        obtain rfl | hq := List.mem_cons.mp hq
        · exact hpv
        · rw [hpv, hsame q hq (hpq ▸ hpn)]
      · have hp : p ∈ ps := by
          obtain rfl | hp := List.mem_cons.mp hp
          · exact absurd rfl hpn
          · exact hp
        have hq : q ∈ ps := by
          obtain rfl | hq := List.mem_cons.mp hq
          · exact absurd hpq hpn
          · exact hq
        exact hagree p hp q hq (by rw [hfind, if_neg hpn]; exact hnone) hpq

theorem enrolAll_accepts (id : Nat) {ps : List (Bytes × Int)} (hps : ∀ p ∈ ps, NulFree p.1)
    (reg : Reg) : (enrolAll id ps reg).2 = false ↔ Admissible reg ps := by
  induction ps generalizing reg with
  | nil => exact ⟨fun _ => ⟨by simp, by simp⟩, fun _ => rfl⟩
  | cons p ps ih =>
    obtain ⟨ns, n⟩ := p
    obtain ⟨hns, hps⟩ := List.forall_mem_cons.mp hps
    simp only [enrolAll]
    cases ha : enrol id reg ns n with
    | none =>
      refine ⟨fun h => (nomatch h), fun h => ?_⟩
      obtain ⟨reg', hreg'⟩ := (enrol_isSome id).mpr (h.fits (ns, n) (by simp))
      rw [ha] at hreg'
      cases hreg'
    | some reg' =>
      rw [admissible_cons hns ha ps]
      exact ih hps reg'

/-! ## Connect strings as texts -/

theorem ReadsPairs.nulFree (hb : NulFree b) (h : ReadsPairs b ps r) :
    ∀ p ∈ numbered ps, NulFree p.1 := by
  induction h with
  | start b => simp [numbered]
  | @last b ns v hp =>
    intro p hmem
    obtain rfl := List.mem_singleton.mp hmem
    exact (hp.nulFree hb).1
  | @more b b' ns v ps r hp hps ih =>
    obtain ⟨hns, hrest⟩ := hp.nulFree hb
    exact List.forall_mem_cons.mpr ⟨hns, ih (hrest b' rfl)⟩

theorem PairFirst.pos (h : PairFirst b ns v r) : 0 < b.length := by
  cases h <;> simp only [List.length_append, List.length_cons] <;> omega

theorem ReadsPairs.length_le (h : ReadsPairs b ps r) : ps.length ≤ b.length := by
  induction h with
  | start b => exact Nat.zero_le _
  | last hp => exact hp.pos
  | more hp _ ih => exact Nat.lt_of_le_of_lt ih hp.shorter

theorem reads_all (b : Bytes) : ∃ ps r, ReadsPairs b ps r ∧
    ∀ b', r = some b' → ∀ ns v r', ¬ PairFirst b' ns v r' := by
  by_cases hb : ∃ ns v r, PairFirst b ns v r
  · obtain ⟨ns, v, r, hp⟩ := hb
    cases r with
    | none => exact ⟨_, none, .last hp, fun b' h => (nomatch h)⟩
    | some b' =>
      have := hp.shorter
      obtain ⟨ps, r, hps, hend⟩ := reads_all b'
      exact ⟨_, r, .more hp hps, hend⟩
  · refine ⟨[], some b, .start b, fun b' h => ?_⟩
    cases h
    exact fun ns v r hp => hb ⟨ns, v, r, hp⟩
termination_by b.length

theorem checkVersion_of_at (id : Nat) (reg : Reg) (h : 64 ∈ cstr b) :
    checkVersion id b reg = checkVersionLoop id ((cstr b).length + 1) (cstr b) reg := by
  rw [checkVersion, if_pos h]

theorem PairFirst.mem_at (h : PairFirst b ns v r) : 64 ∈ b := by
  cases h <;> simp

theorem ReadsPairs.mem_at (h : ReadsPairs b ps r) (hne : ps ≠ []) : 64 ∈ b := by
  cases h with
  | start => exact absurd rfl hne
  | last hp => exact hp.mem_at
  | more hp _ => exact hp.mem_at

theorem checkVersion_reads (id : Nat) (h : ReadsPairs (cstr b) ps r)
    (hend : r = none ∨ (enrolAll id (numbered ps) reg).2 = true) :
    checkVersion id b reg = .ok (enrolAll id (numbered ps) reg) := by
  have hne : ps ≠ [] := by
    rintro rfl
    cases h
    obtain hend | hend := hend <;> cases hend
  rw [checkVersion_of_at id reg (h.mem_at hne)]
  obtain ⟨k, hk⟩ := Nat.exists_eq_add_of_le (Nat.le_succ_of_le h.length_le)
  rw [← Nat.succ_eq_add_one, hk, checkVersionLoop_reads id h]
  split
  · rfl
  · rename_i hno
    rw [hend.resolve_right hno]
    rfl

theorem checkVersion_stuck (id : Nat) {b' : Bytes} (hat : 64 ∈ cstr b)
    (h : ReadsPairs (cstr b) ps (some b')) (hstuck : ∀ ns v r, ¬ PairFirst b' ns v r)
    (hok : (enrolAll id (numbered ps) reg).2 = false) : checkVersion id b reg = .error .segv := by
  rw [checkVersion_of_at id reg hat]
  obtain ⟨k, hk⟩ := Nat.exists_eq_add_of_le h.length_le
  rw [hk, Nat.add_assoc, checkVersionLoop_reads id h, hok]
  exact checkVersionLoop_stuck id k _ hstuck

/-! ## Well-formed connect strings -/

/-- A pair as it may stand in a connect string. -/
structure ConnectPair (p : Bytes × Bytes) : Prop where
  ns_ne : p.1 ≠ []
  ns_at : 64 ∉ p.1
  ns_comma : 44 ∉ p.1
  vers_ne : p.2 ≠ []
  vers_comma : 44 ∉ p.2
  ns_nul : NulFree p.1
  vers_nul : NulFree p.2

def connectText : List (Bytes × Bytes) → Bytes
  | [] => []
  | [p] => p.1 ++ 64 :: p.2
  | p :: q :: ps => p.1 ++ 64 :: (p.2 ++ 44 :: connectText (q :: ps))

theorem connectText_nulFree (h : ∀ p ∈ ps, ConnectPair p) : NulFree (connectText ps) := by
  induction ps using connectText.induct with
  | case1 => exact List.not_mem_nil
  | case2 p =>
    obtain ⟨hp, -⟩ := List.forall_mem_cons.mp h
    exact nulFree_append.mpr ⟨hp.ns_nul, nulFree_cons.mpr ⟨by decide, hp.vers_nul⟩⟩
  | case3 p q ps ih =>
    obtain ⟨hp, hps⟩ := List.forall_mem_cons.mp h
    refine nulFree_append.mpr ⟨hp.ns_nul, nulFree_cons.mpr ⟨by decide, ?_⟩⟩
    exact nulFree_append.mpr ⟨hp.vers_nul, nulFree_cons.mpr ⟨by decide, ih hps⟩⟩

theorem connectText_reads (h : ∀ p ∈ ps, ConnectPair p) (hne : ps ≠ []) :
    ReadsPairs (connectText ps) ps none := by
  induction ps using connectText.induct with
  | case1 => exact absurd rfl hne
  | case2 p =>
    obtain ⟨hp, -⟩ := List.forall_mem_cons.mp h
    exact .last (.ends 0 0 ⟨hp.ns_ne, hp.ns_at⟩ ⟨hp.vers_ne, hp.vers_comma⟩)
  | case3 p q ps ih =>
    obtain ⟨hp, hps⟩ := List.forall_mem_cons.mp h
    refine .more ?_ (ih hps (List.cons_ne_nil q ps))
    exact .goes 0 0 _ ⟨hp.ns_ne, hp.ns_at⟩ ⟨hp.vers_ne, hp.vers_comma⟩

theorem checkVersion_connectText (id : Nat) (h : ∀ p ∈ ps, ConnectPair p) (reg : Reg) :
    checkVersion id (connectText ps) reg = .ok (enrolAll id (numbered ps) reg) := by
  by_cases hne : ps = []
  · rw [hne]
    rfl
  · refine checkVersion_reads id ?_ (.inl rfl)
    rw [cstr_eq_self (connectText_nulFree h)]
    exact connectText_reads h hne

/-- **A connect string is read to its end exactly when its pairs go on to the end of the text,
or one of them is refused before.** Otherwise the loop uses a null token; in no case does it run
on. The pairs of a well-formed string are taken up in order. -/
theorem connect_string_iff (id : Nat) (reg : Reg) :
    (∀ b : Bytes, ((∃ r, checkVersion id b reg = .ok r) ↔ 64 ∉ cstr b ∨
      (∃ ps, ReadsPairs (cstr b) ps none) ∨
        ∃ ps r, ReadsPairs (cstr b) ps r ∧ ¬ Admissible reg (numbered ps)) ∧
      checkVersion id b reg ≠ .error .diverge) ∧
    ∀ ps : List (Bytes × Bytes), (∀ p ∈ ps, ConnectPair p) →
      checkVersion id (connectText ps) reg = .ok (enrolAll id (numbered ps) reg) := by
  refine ⟨fun b => ?_, fun ps hps => checkVersion_connectText id hps reg⟩
  by_cases hat : 64 ∈ cstr b
  · obtain ⟨ps, r, hps, hend⟩ := reads_all (cstr b)
    have hadm := fun {ps : List (Bytes × Bytes)} {r : Option Bytes} (h : ReadsPairs (cstr b) ps r) =>
      enrolAll_accepts id (h.nulFree (cstr_nulFree b)) reg
    by_cases hok : r = none ∨ (enrolAll id (numbered ps) reg).2 = true
    · rw [checkVersion_reads id hps hok]
      refine ⟨⟨fun _ => .inr ?_, fun _ => ⟨_, rfl⟩⟩, fun h => (nomatch h)⟩
      obtain rfl | hrefused := hok
      · exact .inl ⟨ps, hps⟩
      · refine .inr ⟨ps, r, hps, fun h => ?_⟩
        rw [(hadm hps).mpr h] at hrefused
        cases hrefused
    · obtain ⟨hr, hacc⟩ := not_or.mp hok
      obtain ⟨b', rfl⟩ := Option.ne_none_iff_exists'.mp hr
      have hstuck := checkVersion_stuck id hat hps (hend b' rfl) (Bool.eq_false_iff.mpr hacc)
      refine ⟨⟨?_, ?_⟩, by rw [hstuck]; exact fun h => (nomatch h)⟩
      · rintro ⟨x, hx⟩
        rw [hstuck] at hx
        cases hx
      · -- any other reading of the text would have made the loop return
        rintro (hno | ⟨qs, hqs⟩ | ⟨qs, q, hqs, hbad⟩)
        · exact absurd hat hno
        · exact ⟨_, checkVersion_reads id hqs (.inl rfl)⟩
        · refine ⟨_, checkVersion_reads id hqs (.inr ?_)⟩
          exact Bool.eq_true_of_not_eq_false (mt (hadm hqs).mp hbad)
  · rw [checkVersion, if_neg hat]
    exact ⟨⟨fun _ => .inl hat, fun _ => ⟨_, rfl⟩⟩, fun h => (nomatch h)⟩

theorem connect_string_two :
    checkVersion 1 (connectText [(lit "a", lit "1"), (lit "b", lit "02")]) Reg.empty =
      .ok (enrolAll 1 [(lit "a", 1), (lit "b", 2)] Reg.empty) :=
  (connect_string_iff 1 Reg.empty).2 [(lit "a", lit "1"), (lit "b", lit "02")] (by
    intro p hp
    obtain rfl | rfl : p = (lit "a", lit "1") ∨ p = (lit "b", lit "02") := by simpa using hp
    all_goals constructor <;> decide)

/-- A comma after the last version: the loop goes on and finds no token. -/
theorem connect_string_comma :
    64 ∈ lit "a@1," ∧ checkVersion 1 (lit "a@1,") Reg.empty = .error .segv :=
  ⟨by decide, rfl⟩

/-! ## Accepted and refused clients -/

theorem enrol_core (hns : NulFree ns) (h : enrol id reg ns n = some reg') (m : Bytes) :
    reg'.core m =
      (reg.core m).or (if m = ns then some ⟨none, none, [(n, none)]⟩ else none) := by
  obtain ⟨v, -, -, -, hfind, hwas⟩ := enrol_eq_some hns h
  unfold Reg.core
  rw [hfind]
  by_cases hm : m = ns
  · obtain ⟨hnone, hcore⟩ | ⟨w, hw, rfl⟩ := hwas
    · rw [if_pos hm, if_pos hm, hm, hnone, ← hcore]
      rfl
    · rw [if_pos hm, hm, hw]
      rfl
  · rw [if_neg hm, if_neg hm, Option.or_none]

theorem enrolAll_core {ps : List (Bytes × Int)} (hps : ∀ p ∈ ps, NulFree p.1)
    (h : (enrolAll id ps reg).2 = false) (m : Bytes) :
    (enrolAll id ps reg).1.core m = (reg.core m).or
      ((ps.find? (·.1 = m)).map fun p => ⟨none, none, [(p.2, none)]⟩) := by
  induction ps generalizing reg with
  | nil => simp [enrolAll]
  | cons p ps ih =>
    obtain ⟨ns, n⟩ := p
    obtain ⟨hns, hps⟩ := List.forall_mem_cons.mp hps
    cases ha : enrol id reg ns n with
    | none =>
      rw [enrolAll, ha] at h
      cases h
    | some reg' =>
      simp only [enrolAll, ha] at h ⊢
      rw [ih hps h, enrol_core hns ha, Option.or_assoc]
      congr 1
      by_cases hm : m = ns
      · simp [hm]
      · simp [hm, Ne.symm hm]

def InIds (id : Nat) (reg : Reg) (ns : Bytes) : Prop := ∃ v, reg.find ns = some v ∧ id ∈ v.is

theorem InIds.enrolAll {ps : List (Bytes × Int)} (hps : ∀ p ∈ ps, NulFree p.1) {m : Bytes}
    (h : InIds id reg m) : InIds id (KVolve.enrolAll id ps reg).1 m := by
  induction ps generalizing reg with
  | nil => exact h
  | cons p ps ih =>
    obtain ⟨ns, n⟩ := p
    obtain ⟨hns, hps⟩ := List.forall_mem_cons.mp hps
    rw [KVolve.enrolAll]
    cases ha : enrol id reg ns n with
    | none => exact h
    | some reg' =>
      obtain ⟨v, -, -, hid, hfind, -⟩ := enrol_eq_some hns ha
      refine ih hps ?_
      by_cases hm : m = ns
      · exact ⟨v, by rw [hfind, if_pos hm], hid⟩
      · obtain ⟨w, hw, hwid⟩ := h
        exact ⟨w, by rw [hfind, if_neg hm, hw], hwid⟩

theorem enrolAll_ids {ps : List (Bytes × Int)} (hps : ∀ p ∈ ps, NulFree p.1)
    (h : (enrolAll id ps reg).2 = false) :
    ∀ p ∈ ps, InIds id (enrolAll id ps reg).1 p.1 := by
  induction ps generalizing reg with
  | nil => simp
  | cons p ps ih =>
    obtain ⟨ns, n⟩ := p
    obtain ⟨hns, hps⟩ := List.forall_mem_cons.mp hps
    cases ha : enrol id reg ns n with
    | none =>
      rw [enrolAll, ha] at h
      cases h
    | some reg' =>
      simp only [enrolAll, ha] at h ⊢
      obtain ⟨v, -, -, hid, hfind, -⟩ := enrol_eq_some hns ha
      refine List.forall_mem_cons.mpr ⟨InIds.enrolAll hps ⟨v, ?_, hid⟩, ih hps h⟩
      rw [hfind, if_pos rfl]

/-- A refused client stops at the first pair that does not fit the registry as the pairs before
it left it. -/
theorem enrolAll_refused {ps : List (Bytes × Int)} (h : (enrolAll id ps reg).2 = true) :
    ∃ pre p post, ps = pre ++ p :: post ∧
      enrolAll id pre reg = ((enrolAll id ps reg).1, false) ∧ ¬ PairFits (enrolAll id ps reg).1 p := by
  induction ps generalizing reg with
  | nil => cases h
  | cons p ps ih =>
    obtain ⟨ns, n⟩ := p
    cases ha : enrol id reg ns n with
    | none =>
      refine ⟨[], (ns, n), ps, rfl, by simp only [enrolAll, ha], fun hfit => ?_⟩
      simp only [enrolAll, ha] at hfit
      obtain ⟨reg', hreg'⟩ := (enrol_isSome id).mpr hfit
      rw [ha] at hreg'
      cases hreg'
    | some reg' =>
      simp only [enrolAll, ha] at h ⊢
      obtain ⟨pre, p, post, rfl, hpre, hfit⟩ := ih h
      refine ⟨(ns, n) :: pre, p, post, rfl, ?_, hfit⟩
      simp only [enrolAll, ha]
      exact hpre

def Settled (id : Nat) (reg : Reg) (p : Bytes × Int) : Prop := PairFits reg p ∧ InIds id reg p.1

theorem enrol_settled {p : Bytes × Int} (hns : NulFree p.1) (h : Settled id reg p) :
    ∃ reg', enrol id reg p.1 p.2 = some reg' ∧ ∀ m, reg'.find m = reg.find m := by
  obtain ⟨hfit, w, hw, hid⟩ := h
  obtain ⟨reg', hreg'⟩ := (enrol_isSome id).mpr hfit
  refine ⟨reg', hreg', fun m => ?_⟩
  obtain ⟨v, -, -, -, hfind, ⟨hnone, -⟩ | ⟨w', hw', rfl⟩⟩ := enrol_eq_some hns hreg'
  · rw [hw] at hnone
    cases hnone
  · cases hw.symm.trans hw'
    have hsame : w.join id = w := by
      rw [VersionHash.join]
      simp only [Finset.insert_eq_of_mem hid]
    rw [hfind]
    split
    · rename_i hm
      rw [hm, hw, hsame]
    · rfl

theorem enrolAll_settled {pre : List (Bytes × Int)} (hps : ∀ p ∈ pre, NulFree p.1)
    (h : ∀ p ∈ pre, Settled id reg p) {p : Bytes × Int} (hp : ¬ PairFits reg p)
    (post : List (Bytes × Int)) : (enrolAll id (pre ++ p :: post) reg).2 = true ∧
      ∀ m, (enrolAll id (pre ++ p :: post) reg).1.find m = reg.find m := by
  induction pre generalizing reg with
  | nil =>
    obtain ⟨ns, n⟩ := p
    cases ha : enrol id reg ns n with
    | none => simp [enrolAll, ha]
    | some reg' => exact absurd ((enrol_isSome id).mp ⟨reg', ha⟩) hp
  | cons q pre ih =>
    obtain ⟨hq, hpre⟩ := List.forall_mem_cons.mp h
    obtain ⟨hqn, hps⟩ := List.forall_mem_cons.mp hps
    obtain ⟨reg', ha, hfind⟩ := enrol_settled hqn hq
    have hfits : ∀ r, PairFits reg' r ↔ PairFits reg r := fun r => by simp only [PairFits, hfind]
    have hsettled : ∀ r, Settled id reg' r ↔ Settled id reg r := fun r => by
      simp only [Settled, hfits, InIds, hfind]
    obtain ⟨hrefused, hkept⟩ := ih hps (fun r hr => (hsettled r).mpr (hpre r hr))
      (mt (hfits p).mp hp)
    rw [List.cons_append, enrolAll, ha]
    exact ⟨hrefused, fun m => (hkept m).trans (hfind m)⟩

/-- What a client that connects should see: it is accepted when every pair fits, then exactly the
namespaces that were not registered are new and the client is in all id sets; a refused one
leaves the registry as it was. -/
structure Connects (id : Nat) (ps : List (Bytes × Int)) (reg reg' : Reg) (quit : Bool) : Prop where
  accepts : quit = false ↔ ∀ p ∈ ps, PairFits reg p
  creates : quit = false → ∀ m, reg'.core m = (reg.core m).or
    ((ps.find? (·.1 = m)).map fun p => ⟨none, none, [(p.2, none)]⟩)
  joins : quit = false → ∀ p ∈ ps, InIds id reg' p.1
  refuses : quit = true → ∀ m, reg'.find m = reg.find m

theorem enrolAll_connects {ps : List (Bytes × Int)} (hps : ∀ p ∈ ps, NulFree p.1) (reg : Reg) :
    Connects id ps reg (enrolAll id ps reg).1 (enrolAll id ps reg).2 ↔
      Admissible reg ps ∨ ∃ pre p post, ps = pre ++ p :: post ∧ ¬ PairFits reg p ∧
        ∀ q ∈ pre, Settled id reg q := by
  have hacc := enrolAll_accepts id hps reg
  constructor
  · intro h
    by_cases hadm : Admissible reg ps
    · exact .inl hadm
    · have hquit : (enrolAll id ps reg).2 = true :=
        Bool.eq_true_of_not_eq_false (mt hacc.mp hadm)
      have hsame := h.refuses hquit
      obtain ⟨pre, p, post, rfl, hpre, hfit⟩ := enrolAll_refused hquit
      have hpre_nul : ∀ q ∈ pre, NulFree q.1 := fun q hq => hps q (by simp [hq])
      have haccepted : (enrolAll id pre reg).2 = false := by rw [hpre]
      refine .inr ⟨pre, p, post, rfl, ?_, fun q hq => ⟨?_, ?_⟩⟩
      · simpa only [PairFits, hsame] using hfit
      · exact ((enrolAll_accepts id hpre_nul reg).mp haccepted).fits q hq
      · have hid := enrolAll_ids hpre_nul haccepted q hq
        rw [hpre] at hid
        simpa only [InIds, hsame] using hid
  · rintro (hadm | ⟨pre, p, post, rfl, hp, hpre⟩)
    · have hquit := hacc.mpr hadm
      refine ⟨⟨fun _ => hadm.fits, fun _ => hquit⟩, fun _ => enrolAll_core hps hquit,
        fun _ => enrolAll_ids hps hquit, fun h => ?_⟩
      rw [hquit] at h
      cases h
    · obtain ⟨hquit, hkept⟩ := enrolAll_settled (fun q hq => hps q (by simp [hq])) hpre hp post
      have hno : ∀ {P : Prop}, (enrolAll id (pre ++ p :: post) reg).2 = false → P := fun h => by
        rw [hquit] at h
        cases h
      exact ⟨⟨hno, fun h => absurd (h p (by simp)) hp⟩, hno, hno, fun _ => hkept⟩

/-- **A client is treated as it should be exactly when its pairs are admissible, or the first one
that does not fit comes after pairs that the client has already.** -/
theorem connects_iff (id : Nat) (reg : Reg) (ps : List (Bytes × Bytes))
    (h : ∀ p ∈ ps, ConnectPair p) :
    (∃ reg' quit, checkVersion id (connectText ps) reg = .ok (reg', quit) ∧
      Connects id (numbered ps) reg reg' quit) ↔
    Admissible reg (numbered ps) ∨ ∃ pre p post, numbered ps = pre ++ p :: post ∧
      ¬ PairFits reg p ∧ ∀ q ∈ pre, Settled id reg q := by
  have hnul : ∀ p ∈ numbered ps, NulFree p.1 := by
    intro p hp
    obtain ⟨q, hq, rfl⟩ := List.mem_map.mp hp
    exact (h q hq).ns_nul
  rw [checkVersion_connectText id h, ← enrolAll_connects hnul]
  constructor
  · rintro ⟨reg', quit, heq, hc⟩
    rw [Except.ok.injEq] at heq
    rw [heq]
    exact hc
  · intro hc
    exact ⟨_, _, rfl, hc⟩

/-- A client joins a namespace that is there and is the first of another. -/
theorem connects_current :
    ∃ reg' quit, checkVersion 1 (connectText [(lit "a", lit "1"), (lit "b", lit "3")])
        (registered "a" 1) = .ok (reg', quit) ∧
      Connects 1 [(lit "a", 1), (lit "b", 3)] (registered "a" 1) reg' quit := by
  refine (connects_iff 1 (registered "a" 1) [(lit "a", lit "1"), (lit "b", lit "3")] ?_).mpr
    (.inl ⟨?_, ?_⟩)
  · simp only [List.forall_mem_cons]
    exact ⟨by constructor <;> decide, by constructor <;> decide, nofun⟩
  · refine List.forall_mem_cons.mpr ⟨fun v hv => ?_, List.forall_mem_cons.mpr ⟨nofun, nofun⟩⟩
    cases hv
    exact ⟨rfl, rfl⟩
  · decide

/-- The second pair is refused after the first one has created its namespace. -/
theorem refused_created :
    ∃ reg', checkVersion 1 (connectText [(lit "a", lit "1"), (lit "b", lit "1")])
        (registered "b" 2) = .ok (reg', true) ∧
      (registered "b" 2).find (lit "a") = none ∧ (reg'.find (lit "a")).isSome = true :=
  ⟨_, rfl, rfl, rfl⟩

end SchemaUpdate.KVolve
