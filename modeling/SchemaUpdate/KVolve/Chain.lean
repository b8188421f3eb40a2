import SchemaUpdate.KVolve.History
import SchemaUpdate.KVolve.Names
import SchemaUpdate.KVolve.Handlers

/-! # Values behind a chain of renames

A namespace that was renamed several times leaves values behind under each of its
names. The walk of `kvolve_get_db_val` resolves a predecessor as if its name were a
key, and `kvolve_namespace_update` knows the immediate predecessor only, so what is
found and moved is exactly what stands under the current or the previous name. -/

namespace SchemaUpdate.KVolve

open SchemaUpdate.Lib SchemaUpdate.Redis

/-- The names a namespace has had, the newest first, after accepted renames with any
other loads and connects between them. -/
inductive Renamed : Reg → List Bytes → Prop
  | start {reg : Reg} {n : Bytes} {v : VersionHash} : reg.find n = some v → Renamed reg [n]
  | rename {reg reg' : Reg} {a : Bytes} {names : List Bytes} {id : Nat}
      {pick : Finset Nat → Nat} {sp : Spec} {killed : Finset Nat} :
      Renamed reg (a :: names) → cstr sp.fromNs = a → specAccepts reg sp = some true →
      updSpec id pick reg sp = .ok (reg', killed) → Renamed reg' (cstr sp.toNs :: a :: names)
  | other {reg reg' : Reg} {names : List Bytes} :
      Renamed reg names → RegStep reg reg' → Renamed reg' names

variable {reg : Reg} {e : Entry}

theorem Renamed.link {names : List Bytes} (h : Renamed reg names) :
    ∀ {n a : Bytes} {rest : List Bytes}, names = n :: a :: rest →
      ∃ c, reg.core n = some c ∧ c.prevNs = some a := by
  induction h with
  | start _ => intro n a rest hl; cases hl
  | rename _ hfrom hacc hupd _ =>
    intro n a rest hl
    cases hl
    obtain ⟨w, -, hcore⟩ := updSpec_rename hacc hupd
    exact ⟨_, by rw [hcore, if_pos rfl], by rw [hfrom]⟩
  | other _ hstep ih =>
    intro n a rest hl
    obtain ⟨c, hc, hp⟩ := ih hl
    obtain ⟨c', hc', hp', -⟩ := hstep.extends n c hc
    exact ⟨c', hc', hp'.trans hp⟩

variable {n a : Bytes} {v : VersionHash} {x : Bytes} {s : Store}

theorem Renamed.prevNs {rest : List Bytes} (h : Renamed reg (n :: a :: rest))
    (hv : reg.find n = some v) :
    v.prevNs = some a := by
  obtain ⟨c, hc, hp⟩ := h.link rfl
  rw [Reg.core, hv] at hc
  cases hc
  exact hp

theorem Renamed.loaded {names : List Bytes} {sp : Spec} (h : Renamed reg (a :: names))
    (hfrom : cstr sp.fromNs = a) (hacc : specAccepts reg sp = some true)
    (hok : (updSpec 0 (fun _ => 0) reg sp).isOk = true) :
    Renamed (KVolve.loaded reg sp) (cstr sp.toNs :: a :: names) := by
  obtain ⟨killed, hu⟩ := updSpec_loaded hok
  exact h.rename hfrom hacc hu

/-- The slots of a chain: `x` under each of its names in database `d`. -/
def ChainSlot (chain : List Bytes) (x : Bytes) (d d' : Nat) (j : Bytes) : Prop :=
  d' = d ∧ ∃ m ∈ chain, j = keyName m x

/-- Nothing outside the chain is moved or deleted. -/
def OffChainSame (chain : List Bytes) (x : Bytes) (d : Nat) (s s' : Store) : Prop :=
  ∀ d' j, ¬ ChainSlot chain x d d' j → s'.get d' j = s.get d' j

/-- What a client of the newest name `n` expects of the value `e` stored as `x` under the
name `i` of the chain: it is found, a namespace update moves it to the newest name, and a
`SET` of the newest name leaves no copy of it behind. -/
structure Followed (env : Env) (v : VersionHash) (chain : List Bytes) (n i x : Bytes) (e : Entry)
    (s : Store) : Prop where
  found : getDbVal env v (keyName n x) s = .ok (some (keyName i x))
  looked : ∀ t : Store, t.reg = s.reg →
    (∀ m ∈ chain, t.get env.d (keyName m x) = s.get env.d (keyName m x)) →
    getDbVal env v (keyName n x) t = .ok (some (keyName i x))
  moved : ∃ s', namespaceUpdate env v (keyName n x) s = .ok s' ∧
    s'.get env.d (keyName n x) = some e ∧ (i ≠ n → s'.get env.d (keyName i x) = none) ∧
    OffChainSame chain x env.d s s'
  deleted : ∃ s', setKeyOld env v (keyName n x) s = .ok s' ∧
    (i ≠ n → s'.get env.d (keyName i x) = none) ∧ OffChainSame chain x env.d s s'

theorem keyName_left {i : Bytes} (h : keyName i x = keyName n x) : i = n :=
  List.append_cancel_right h

theorem Store.has_of_get {d : Nat} {k : Bytes} (h : s.get d k = some e) : s.has d k = true := by
  simp [Store.has, h]

section Steps

variable {env : Env} {v : VersionHash} {s : Store} {n a x : Bytes}

theorem getDbVal_prev (hn : NulFree n) (hp : v.prevNs = some a)
    (hkey : s.get env.d (keyName n x) = none) {e : Entry}
    (hold : s.get env.d (keyName a (lastSegment (cstr x))) = some e) :
    getDbVal env v (keyName n x) s = .ok (some (keyName a (lastSegment (cstr x)))) := by
  rw [getDbVal, if_neg (by simp [Store.has, hkey]), walkFuel, prevWalk]
  simp only [hp, constructPrevName_keyName hn, Store.has_of_get hold, if_true]

theorem namespaceUpdate_absent (hn : NulFree n) (hp : v.prevNs = some a)
    (hkey : s.get env.d (keyName n x) = none) :
    namespaceUpdate env v (keyName n x) s =
      .ok (s.rename env.now (keyName a (lastSegment (cstr x))) (keyName n x)) := by
  rw [namespaceUpdate, if_neg (by simp [Store.has, hkey]), hp, Option.bind_some,
    constructPrevName_keyName hn]

theorem checkdelOld_prev (hn : NulFree n) (hp : v.prevNs = some a) {e : Entry}
    (hold : s.get env.d (keyName a (lastSegment (cstr x))) = some e) :
    checkdelOld env v (keyName n x) s =
      .ok (s.put env.d (keyName a (lastSegment (cstr x))) none) := by
  rw [checkdelOld, walkFuel, prevWalk]
  simp only [hp, constructPrevName_keyName hn, Store.has_of_get hold, if_true, ok_bind]

end Steps

theorem followed_current {env : Env} {chain : List Bytes} (hn : n ∈ chain)
    (he : s.get env.d (keyName n x) = some e) :
    Followed env v chain n n x e s := by
  have hhas := Store.has_of_get he
  refine ⟨by rw [getDbVal, if_pos hhas], ?_, ?_, ?_⟩
  · intro t _ ht
    rw [getDbVal, if_pos (Store.has_of_get ((ht n hn).trans he))]
  · exact ⟨s, by rw [namespaceUpdate, if_pos hhas], he, fun h => absurd rfl h, fun _ _ _ => rfl⟩
  · exact ⟨s, by rw [setKeyOld, if_neg (by simp [hhas])], fun h => absurd rfl h, fun _ _ _ => rfl⟩

theorem followed_previous {env : Env} {chain : List Bytes} {i : Bytes} (hn : NulFree n)
    (hp : v.prevNs = some a) (hni : i ≠ n) (hnc : n ∈ chain) (hic : i ∈ chain) (hd : env.d = 0)
    (ha : e.alive env.now = true) (hname : keyName a (lastSegment (cstr x)) = keyName i x)
    (he : s.get env.d (keyName i x) = some e) (hkey : s.get env.d (keyName n x) = none) :
    Followed env v chain n i x e s := by
  have hne : keyName i x ≠ keyName n x := fun h => hni (keyName_left h)
  refine ⟨?_, ?_, ?_, ?_⟩
  · rw [getDbVal_prev hn hp hkey (hname ▸ he), hname]
  · intro t _ ht
    rw [getDbVal_prev hn hp ((ht n hnc).trans hkey) (hname ▸ (ht i hic).trans he), hname]
  · refine ⟨_, namespaceUpdate_absent hn hp hkey, ?_, fun _ => ?_, ?_⟩
    · rw [hname, Store.get_rename_moved hne (hd ▸ he) ha, if_neg (fun h => hne h.2.symm),
        if_pos ⟨hd, rfl⟩]
    · rw [hname, Store.get_rename_moved hne (hd ▸ he) ha, if_pos ⟨hd, rfl⟩]
    · intro d' j hj
      rw [hname]
      apply Store.get_rename_other
      rintro ⟨rfl, rfl | rfl⟩
      · exact hj ⟨hd.symm, i, hic, rfl⟩
      · exact hj ⟨hd.symm, n, hnc, rfl⟩
  · refine ⟨s.put env.d (keyName i x) none, ?_, fun _ => Store.get_put_self .., ?_⟩
    · rw [setKeyOld, if_pos ⟨by simp [hp], by simp [Store.has, hkey]⟩,
        checkdelOld_prev hn hp (hname ▸ he), hname]
    · intro d' j hj
      rw [Store.get_put, if_neg]
      rintro ⟨rfl, rfl⟩
      exact hj ⟨rfl, i, hic, rfl⟩

/-- **A value behind a chain of renames is followed to the newest name exactly when it is
already there, or stands live in database 0 under the key that is made of the previous
name and the last segment of the suffix.** -/
theorem chain_followed_iff {env : Env} {s : Store} {n a i x : Bytes} {rest : List Bytes}
    {v : VersionHash} {e : Entry} (hchain : Renamed s.reg (n :: a :: rest))
    (hv : s.reg.find n = some v) (hi : i ∈ n :: a :: rest)
    (he : s.get env.d (keyName i x) = some e)
    (hone : ∀ m ∈ n :: a :: rest, m ≠ i → s.get env.d (keyName m x) = none) :
    Followed env v (n :: a :: rest) n i x e s ↔
      i = n ∨ (env.d = 0 ∧ e.alive env.now = true ∧
        keyName a (lastSegment (cstr x)) = keyName i x) := by
  have hp := hchain.prevNs hv
  have hn : NulFree n := Reg.find_ns hv ▸ v.nsC
  constructor
  · intro h
    by_cases hni : i = n
    · exact .inl hni
    · right
      have hkey : s.get env.d (keyName n x) = none := hone n (by simp) (Ne.symm hni)
      have hne : keyName i x ≠ keyName n x := fun h => hni (keyName_left h)
      obtain ⟨s', hs', hget, hgone, -⟩ := h.moved
      rw [namespaceUpdate_absent hn hp hkey] at hs'
      cases hs'
      -- a rename in database 0 is what brought the value there
      have hd : env.d = 0 := by
        by_contra hd
        rw [Store.get_rename_other (fun h => hd h.1), hkey] at hget
        cases hget
      rw [hd] at hget hgone hkey he
      obtain ⟨hsrc, ha, -⟩ := Store.get_rename_dst hget hkey
      refine ⟨hd, ha, ?_⟩
      by_contra hold
      have hstay := hgone hni
      rw [Store.get_rename_other, he] at hstay
      · cases hstay
      · rintro ⟨-, h | h⟩
        · exact hold h.symm
        · exact hne h
  · rintro (rfl | ⟨hd, ha, hname⟩)
    · exact followed_current hi he
    · by_cases hni : i = n
      · subst hni
        exact followed_current hi he
      · exact followed_previous hn hp hni (by simp) hi hd ha hname he
          (hone n (by simp) (Ne.symm hni))

/-! ## A chain of one and a chain of two -/

def regAB : Reg := loaded (registered "a" 1) ⟨lit "a", lit "b", 1, 2, []⟩

def regABC : Reg := loaded regAB ⟨lit "b", lit "c", 2, 3, []⟩

theorem renamed_regAB : Renamed regAB [lit "b", lit "a"] :=
  (Renamed.start (by rfl : (registered "a" 1).find (lit "a") = some _)).loaded (by decide) (by decide) (by decide)

theorem renamed_regABC : Renamed regABC [lit "c", lit "b", lit "a"] :=
  renamed_regAB.loaded (by decide) (by decide) (by decide)

def plainEnv : Env := ⟨{}, 0, 0, 0, fun db => db.keys, fun _ => {}⟩

def hello : Entry := ⟨⟨1, .str (.raw (lit "hello"))⟩, none⟩

def leftBehindAt (reg : Reg) (k : Bytes) : Store := { Store.init with reg := reg }.put 0 k (some hello)

def leftBehind (reg : Reg) : Store := leftBehindAt reg (lit "a:s")

theorem chain_followed_previous :
    ∃ v, (leftBehind regAB).reg.find (lit "b") = some v ∧
      Followed plainEnv v [lit "b", lit "a"] (lit "b") (lit "a") (lit "s") hello
        (leftBehind regAB) := by
  obtain ⟨v, hv⟩ : ∃ v, (leftBehind regAB).reg.find (lit "b") = some v :=
    Option.isSome_iff_exists.mp (by decide)
  exact ⟨v, hv, (chain_followed_iff renamed_regAB hv (by decide) (by decide) (by decide)).mpr
    (.inr (by decide))⟩

/-- A value two renames back is not found under the newest name. -/
theorem chain_of_two_not_followed :
    Renamed (leftBehind regABC).reg [lit "c", lit "b", lit "a"] ∧
      (leftBehind regABC).get plainEnv.d (keyName (lit "a") (lit "s")) = some hello ∧
      (∀ m ∈ [lit "c", lit "b"],
        (leftBehind regABC).get plainEnv.d (keyName m (lit "s")) = none) ∧
      ∃ v, (leftBehind regABC).reg.find (lit "c") = some v ∧
        getDbVal plainEnv v (keyName (lit "c") (lit "s")) (leftBehind regABC) = .ok none ∧
        ¬ Followed plainEnv v [lit "c", lit "b", lit "a"] (lit "c") (lit "a") (lit "s") hello
          (leftBehind regABC) := by
  refine ⟨renamed_regABC, by decide, by decide, (regABC.find (lit "c")).get (by decide),
    (Option.some_get _).symm, by rfl, fun h => ?_⟩
  have hfound := h.found
  cases hfound

end SchemaUpdate.KVolve
