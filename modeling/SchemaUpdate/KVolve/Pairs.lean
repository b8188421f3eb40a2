import SchemaUpdate.Lib.Turns
import SchemaUpdate.KVolve.Image

/-! # Hashes and sorted sets under several update functions

Each function should get the field and the value, or the member and the score, that the
one before it made. The loop hands the field or the member on, but keeps the value and
the score in an argument of its own, which no function's result ever reaches. The pairs
end as they should all the same where no function notices. -/

namespace SchemaUpdate.KVolve

open SchemaUpdate.Lib SchemaUpdate.Redis

/-! ## Functions of a name and what stands beside it -/

abbrev PairFun (β : Type) := Bytes → β → Option Bytes × Option β

section Functions

variable {β : Type} (norm : β → β)

def PairFun.next (ψ : PairFun β) (p : Bytes × β) : Bytes × β :=
  (((ψ p.1 p.2).1.map cstr).getD p.1, ((ψ p.1 p.2).2.map norm).getD p.2)

/-- What a pair should become: each function gets what the one before made. -/
def composed (ψs : List (PairFun β)) (p : Bytes × β) : Bytes × β :=
  ψs.foldl (fun p ψ => ψ.next norm p) p

/-- `C` holds of every function and the pair it should get. -/
def AtEach (C : PairFun β → Bytes × β → Prop) : List (PairFun β) → Bytes × β → Prop
  | [], _ => True
  | ψ :: ψs, p => C ψ p ∧ AtEach C ψs (ψ.next norm p)

def PairFun.Changes (ψ : PairFun β) (p : Bytes × β) : Prop :=
  (ψ p.1 p.2).1.isSome ∨ (ψ p.1 p.2).2.isSome

/-- The function does not notice that it gets `b` for the second of the pair: that is what the pair
has, or the function answers the same, and gives a second whenever it gives a name. -/
def PairFun.Unaware (b : β) (ψ : PairFun β) (p : Bytes × β) : Prop :=
  p.2 = b ∨ (ψ p.1 b = ψ p.1 p.2 ∧ ((ψ p.1 p.2).1.isSome → (ψ p.1 p.2).2.isSome))

/-- No name that the pairs go through is the first or the last name of another one. -/
def Apart (ψs : List (PairFun β)) (ps : List (Bytes × β)) : Prop :=
  ∀ p ∈ ps, AtEach norm (fun ψ q => ∀ p' ∈ ps, p' ≠ p →
    (ψ.next norm q).1 ≠ p'.1 ∧ (ψ.next norm q).1 ≠ (composed norm ψs p').1) ψs p

variable {norm} {ψ : PairFun β} {ψs : List (PairFun β)} {p : Bytes × β} {b : β}

theorem AtEach.and {C D : PairFun β → Bytes × β → Prop} (hC : AtEach norm C ψs p)
    (hD : AtEach norm D ψs p) : AtEach norm (fun ψ q => C ψ q ∧ D ψ q) ψs p := by
  induction ψs generalizing p with
  | nil => trivial
  | cons ψ ψs ih => exact ⟨⟨hC.1, hD.1⟩, ih hC.2 hD.2⟩

theorem AtEach.mono {C D : PairFun β → Bytes × β → Prop} (h : ∀ ψ q, C ψ q → D ψ q)
    (hC : AtEach norm C ψs p) : AtEach norm D ψs p := by
  induction ψs generalizing p with
  | nil => trivial
  | cons ψ ψs ih => exact ⟨h _ _ hC.1, ih hC.2⟩

/-- A function that does not notice answers as if it had been given the pair. -/
theorem PairFun.Unaware.same (h : ψ.Unaware b p) : ψ p.1 b = ψ p.1 p.2 := by
  obtain h | h := h
  · rw [h]
  · exact h.1

theorem PairFun.Unaware.kept (h : ψ.Unaware b p) (hc : ψ.Changes p) (hnone : (ψ p.1 p.2).2 = none) :
    p.2 = b := by
  obtain h | ⟨-, h⟩ := h
  · exact h
  · obtain hc | hc := hc
    · have hsome := h hc
      rw [hnone] at hsome
      cases hsome
    · rw [hnone] at hc
      cases hc

/-- An unchanged pair is the next one. -/
theorem PairFun.next_of_not_changes (h : ¬ ψ.Changes p) : ψ.next norm p = p := by
  obtain ⟨hname, hsecond⟩ := not_or.mp h
  rw [PairFun.next, Option.not_isSome_iff_eq_none.mp hname,
    Option.not_isSome_iff_eq_none.mp hsecond]
  rfl

/-- A name without a NUL byte is written as the one the next pair has. -/
theorem PairFun.next_name (h : NulFree p.1) : cstr ((ψ p.1 p.2).1.getD p.1) = (ψ.next norm p).1 := by
  unfold PairFun.next
  cases (ψ p.1 p.2).1 with
  | none => exact cstr_eq_self h
  | some f => rfl

/-- **The functions of a pair, one after the other**: what every step keeps up for the functions
that are left and the pair they should get holds of the composed pair in the end. -/
theorem foldlM_composed {σ : Type} (step : σ → PairFun β → Res σ)
    {R : List (PairFun β) → Bytes × β → σ → Prop} {C : PairFun β → Bytes × β → Prop}
    (hstep : ∀ ψ ψs q s, C ψ q → R (ψ :: ψs) q s →
      ∃ s', step s ψ = .ok s' ∧ R ψs (ψ.next norm q) s')
    (hC : AtEach norm C ψs p) {s : σ} (hs : R ψs p s) :
    ∃ s', ψs.foldlM step s = .ok s' ∧ R [] (composed norm ψs p) s' := by
  induction ψs generalizing p s with
  | nil => exact ⟨s, rfl, hs⟩
  | cons ψ ψs ih =>
    obtain ⟨s₁, h₁, hs₁⟩ := hstep ψ ψs p s hC.1 hs
    obtain ⟨s', h', hs'⟩ := ih hC.2 hs₁
    exact ⟨s', by rw [List.foldlM_cons, h₁, ok_bind, h'], hs'⟩

/-- The names of a pair stay off those of the others, wherever the loop stands. -/
theorem Apart.others {pre post : List (Bytes × β)} (h : Apart norm ψs (pre ++ p :: post))
    (hnodup : (pre ++ p :: post).Nodup) :
    AtEach norm (fun ψ q => ∀ p' ∈ pre.map (composed norm ψs) ++ post,
      p'.1 ≠ (ψ.next norm q).1) ψs p := by
  rw [List.nodup_middle, List.nodup_cons] at hnodup
  refine (h p (by simp)).mono fun ψ q hq p' hp' => ?_
  obtain hp' | hp' := List.mem_append.mp hp'
  · obtain ⟨p'', hp'', rfl⟩ := List.mem_map.mp hp'
    have hne : p'' ≠ p := by
      rintro rfl
      exact hnodup.1 (by simp [hp''])
    exact (hq p'' (by simp [hp'']) hne).2.symm
  · have hne : p' ≠ p := by
      rintro rfl
      exact hnodup.1 (by simp [hp'])
    exact (hq p' (by simp [hp']) hne).1.symm

theorem apart_single (ψs : List (PairFun β)) (p : Bytes × β) : Apart norm ψs [p] := by
  have hC : ∀ ψs q, AtEach norm (fun _ _ => True) ψs q := fun ψs => by
    induction ψs with
    | nil => exact fun _ => trivial
    | cons _ _ ih => exact fun _ => ⟨trivial, ih _⟩
  intro p₁ h₁
  refine (hC ψs p₁).mono fun ψ q _ p₂ h₂ hne => absurd ?_ hne
  rw [List.mem_singleton.mp h₁, List.mem_singleton.mp h₂]

end Functions

abbrev Named (β : Type) := Coll (Prod.fst : Bytes × β → Bytes)

/-- Remove an item by its name, if there is one to remove; nothing may be left of the container. -/
def dropName {E β : Type} (a : E × Named β) :
    Option Bytes → Res (E × Named β)
  | none => .ok a
  | some g =>
    match a.2.remove g with
    | none => .error .freed
    | some c => .ok (a.1, c)

/-- After a pair was put under its name, the old name is dropped when it is another one. -/
theorem dropName_takes {E β : Type} (enc : E) {c set : Named β}
    {x y : Bytes × β} (hset : ∀ k, set.find? k = if k = y.1 then some y else c.find? k) :
    ∃ c', dropName (enc, set) (if x.1 ≠ y.1 then some x.1 else none) = .ok (enc, c') ∧
      Coll.Takes x y c c' := by
  by_cases hne : x.1 ≠ y.1
  · obtain ⟨c', hc', htakes⟩ := Coll.takes_of_put hset hne
    exact ⟨c', by simp only [if_pos hne, dropName, hc'], htakes⟩
  · refine ⟨set, by rw [if_neg hne, dropName], fun k => ?_⟩
    rw [hset, not_not.mp hne]
    split
    · rfl
    · rfl

/-- The command removes an item, and the container with the last one. -/
def Drops {E β : Type} (val : E × Named β → Val) (p : KeyProc)
    (g : Bytes) : Prop :=
  ∀ b, (p (some (val b))).2 = match b.2.remove g with
    | none => .delete
    | some c => .modify (val (b.1, c))

theorem HeldAs.drop {E β : Type} {val : E × Named β → Val}
    {b : E × Named β} {env : Env} {key g : Bytes} {t : Int}
    {x : Option Int} {s : Store} {p : KeyProc} (h : HeldAs env key t x (val b) s)
    (ha : ∀ val, (⟨⟨t, val⟩, x⟩ : Entry).alive env.now = true) (hp : Drops val p g) (drop : Prop)
    [Decidable drop] :
    RelRes (fun _ rest => HeldAs env key t x (val rest) (if drop then runProc env key p s else s))
      (KVolve.deref env key (if drop then runProc env key p s else s))
      (dropName b (if drop then some g else none)) := by
  have hact := hp b
  by_cases hdrop : drop
  · simp only [if_pos hdrop, dropName]
    cases hrem : b.2.remove g with
    | none =>
      rw [hrem] at hact
      rw [h.delete (ha _) hact]
      exact .error _
    | some c =>
      rw [hrem] at hact
      have hrest := h.modify (ha _) hact
      rw [hrest.deref]
      exact .ok hrest
  · simp only [if_neg hdrop, dropName]
    rw [h.deref]
    exact .ok h

/-! ## The loop over the pairs -/

section Loop

variable {β E : Type} {norm : β → β} {env : Env} {type : UType} {key : Bytes}
  {upd : UpdRes → Elem → E × Named β →
    Res (Elem × (E × Named β))}
  {mk : PairFun β → UpdFun} {elem : Bytes × β → Elem} {I : E → Prop}
  {C : β → PairFun β → Bytes × β → Prop} {ψs : List (PairFun β)} {enc : E}
  {c : Named β}
  {T : β → List (Bytes × β) → List (Bytes × β) → List (PairFun β) → Bytes × β →
    Elem × (E × Named β) → Prop}

theorem map_plain {l : List UpdFun} (hmk : ∀ ψ, PlainFun (mk ψ)) (h : l = ψs.map mk) :
    ∀ f ∈ l, PlainFun f := by
  subst h
  intro f hf
  obtain ⟨ψ, -, rfl⟩ := List.mem_map.mp hf
  exact hmk ψ

/-- **A loop over pairs** takes every pair to the composed one, when its turn `T`, with the second
of the start and the pairs before and after it, is kept up by each function that is left. -/
theorem pairs_composed
    (hstart : ∀ pre q post a, q ∈ c.items → I a.1 → a.2.items.Perm (pre ++ q :: post) →
      T q.2 pre post ψs q (elem q, a))
    (hstep : ∀ b pre post ψ ψs q s, (pre ++ q :: post).length = c.items.length → C b ψ q →
      (∀ p ∈ pre ++ post, p.1 ≠ (ψ.next norm q).1) → T b pre post (ψ :: ψs) q s →
      ∃ s', funOn env type key upd s (mk ψ) = .ok s' ∧ T b pre post ψs (ψ.next norm q) s')
    (hend : ∀ b pre post q s, T b pre post [] q s →
      s.1.held = false ∧ I s.2.1 ∧ s.2.2.items.Perm (pre ++ q :: post))
    (hI : I enc) (hC : ∀ p ∈ c.items, AtEach norm (C p.2) ψs p) (hapart : Apart norm ψs c.items) :
    ∃ a, (c.items.map elem).foldlM (elemOn env type key upd (ψs.map mk)) (enc, c) = .ok a ∧
      I a.1 ∧ a.2.items.Perm (c.items.map (composed norm ψs)) := by
  rw [List.foldlM_map]
  refine foldlM_turns (fun a : E × Named β => a.2.items) (I := fun a => I a.1)
    (fun pre q post a hsplit hI hperm => ?_) hI (List.Perm.refl _)
  have hmem : q ∈ c.items := by simp [hsplit]
  have hothers := (hsplit ▸ hapart).others (hsplit ▸ c.nodup.of_map)
  have hlen : (pre.map (composed norm ψs) ++ q :: post).length = c.items.length := by
    rw [hsplit]
    simp
  obtain ⟨s', hs', -, hT⟩ := foldlM_composed (fun s ψ => funOn env type key upd s (mk ψ))
    (R := fun l r s => (pre.map (composed norm ψs) ++ r :: post).length = c.items.length ∧
      T q.2 (pre.map (composed norm ψs)) post l r s)
    (fun ψ ψs r s hC hR => by
      obtain ⟨s', hs', hT⟩ := hstep _ _ _ _ _ _ _ hR.1 hC.1 hC.2 hR.2
      exact ⟨s', hs', by simpa using hR.1, hT⟩)
    ((hC q hmem).and hothers) ⟨hlen, hstart _ q _ a hmem hI hperm⟩
  obtain ⟨hfree, hI', hperm'⟩ := hend _ _ _ _ _ hT
  refine ⟨s'.2, ?_, hI', hperm'⟩
  rw [elemOn, List.foldlM_map, hs', ok_bind, hfree]
  rfl

end Loop

/-! ## Hashes on the value -/

section Hash

variable (cfg : Cfg)

def hsetVal (a : HashEnc × Fields) (f b : Bytes) : HashEnc × Fields :=
  hsetAll cfg [(f, b)] (hashTypeTryConversion cfg a.1 [f, b], a.2)

/-- What `kvolve_update_hash_elem` does to the value. -/
def hashUpd (r : UpdRes) (e : Elem) (a : HashEnc × Fields) : Res (Elem × (HashEnc × Fields)) :=
  if r.val.isSome ∨ r.fval.isSome then do
    let f ← newField r e
    let b ← newFieldVal r e
    let obj ← hashElemObj cfg (cstr f) (cstr b) (some (.hash a.1 a.2))
    let _ ← textOf obj
    let old ← textOf e.obj
    let set := hsetVal cfg a (cstr f) (cstr b)
    let rest ← dropName set (if old ≠ cstr f then some e.obj.bytes else none)
    let _ ← tableCheck e.dict (hashUsed (.hash a.1 a.2)) (hashUsed (.hash set.1 set.2))
      (hashUsed (.hash rest.1 rest.2))
    .ok ({ e with obj := obj, own := if old ≠ cstr f then none else e.own }, rest)
  else .ok (e, a)

theorem hdelAll_remove (fs : Fields) (f : Bytes) : (hdelAll [f] fs 0).1 = fs.remove f := by
  unfold hdelAll
  split
  · cases fs.remove f <;> rfl
  · rename_i hf
    exact (Coll.remove_of_not_mem hf).symm

theorem hdelProc_drops (f : Bytes) : Drops (fun a => Val.hash a.1 a.2) (hdelProc [f]) f := by
  intro b
  simp only [hdelProc, onHash, hdelAll_remove, storeHash]
  cases b.2.remove f <;> rfl

theorem hashUpd_updates (env : Env) (key : Bytes) (t : Int) {x : Option Int}
    (ha : ∀ val, (⟨⟨t, val⟩, x⟩ : Entry).alive env.now = true) :
    UpdatesAs env .hash key t x (fun a => Val.hash a.1 a.2) (hashUpd env.cfg) := by
  intro r e n a s h
  simp only [changeElem, hashUpd]
  split
  · refine RelRes.bind_same rfl fun f _ => RelRes.bind_same rfl fun b _ => ?_
    simp only [updateHashElem]
    rw [h.derefLive (ha _), ok_bind, h.val?]
    have hset : HeldAs env key t x
        (.hash (hsetVal env.cfg a (cstr f) (cstr b)).1 (hsetVal env.cfg a (cstr f) (cstr b)).2)
        (runProc env key (hsetProc env.cfg [(cstr f, cstr b)] fun _ => ok) s) :=
      h.modify (ha _) rfl
    cases hashElemObj env.cfg (cstr f) (cstr b) (some (.hash a.1 a.2)) with
    | error c => exact .error c
    | ok obj =>
      cases htext : textOf obj with
      | error c => simpa [htext] using RelRes.error c
      | ok b' =>
        cases hold : textOf e.obj with
        | error c => simpa [htext, hold] using RelRes.error c
        | ok old =>
          simp only [ok_bind, htext]
          rw [map_bind]
          refine (HeldAs.drop (b := hsetVal env.cfg a (cstr f) (cstr b)) hset ha
            (hdelProc_drops e.obj.bytes) (old ≠ cstr f)).bind fun _ rest hrest => ?_
          rw [h.checkTable hset hrest]
          cases tableCheck e.dict (hashUsed (.hash a.1 a.2)) _ (hashUsed (.hash rest.1 rest.2)) with
          | error c => exact .error c
          | ok _ => exact .ok ⟨rfl, rfl, ⟨n, rfl⟩, hrest⟩
  · exact .ok ⟨rfl, rfl, ⟨n, rfl⟩, h⟩

variable {cfg} {enc : HashEnc} {n : Nat} {tbl : Table} {I : HashEnc → Prop}
  {W : Bytes × Bytes → Prop}

theorem find?_hsetVal (a : HashEnc × Fields) (f b g : Bytes) :
    (hsetVal cfg a f b).2.find? g = if g = f then some (f, b) else a.2.find? g := by
  rw [hsetVal, hsetAll, hsetAll]
  exact find?_hashTypeSet ..

/-- The update of a field that stays a text. -/
theorem hashUpd_eq {r : UpdRes} {e : Elem} {a rest : HashEnc × Fields} {f b f' v : Bytes}
    (hr : r.val.isSome ∨ r.fval.isSome) (he : IsField e f b) (hf : NulFree f)
    (hfield : cstr (r.val.getD f) = f') (hval : cstr (r.fval.getD b) = v)
    (hobj : hashElemObj cfg f' v (some (.hash a.1 a.2)) = .ok (.raw f'))
    (hdrop : dropName (hsetVal cfg a f' v) (if f ≠ f' then some f else none) = .ok rest)
    (hcheck : tableCheck e.dict (hashUsed (.hash a.1 a.2))
      (hashUsed (.hash (hsetVal cfg a f' v).1 (hsetVal cfg a f' v).2))
      (hashUsed (.hash rest.1 rest.2)) = .ok ()) :
    hashUpd cfg r e a =
      .ok ({ e with obj := .raw f', own := if f ≠ f' then none else e.own }, rest) := by
  obtain ⟨x, hx, hxf⟩ := newField_text (r := r) he.1
  obtain ⟨y, hy, hyb⟩ := newFieldVal_text (r := r) he.2
  have hold : textOf e.obj = .ok f := by rw [he.1, textOf, cstr_eq_self hf]
  have hbytes : e.obj.bytes = f := by rw [he.1]; rfl
  rw [hashUpd, if_pos hr, hx, ok_bind, hy, ok_bind, hxf.trans hfield, hyb.trans hval, hobj, ok_bind,
    textOf, ok_bind, hold, ok_bind, hbytes]
  simp only [hdrop, ok_bind, hcheck]

/-- A hash of `n` fields that is in an encoding `I`, and was `enc` at first, takes in every pair of
`W` with the field as a text. -/
structure Room (cfg : Cfg) (enc : HashEnc) (n : Nat) (I : HashEnc → Prop)
    (W : Bytes × Bytes → Prop) : Prop where
  start : I enc
  obj : ∀ a : HashEnc × Fields, I a.1 → ∀ q, W q →
    hashElemObj cfg q.1 q.2 (some (.hash a.1 a.2)) = .ok (.raw q.1)
  set : ∀ a : HashEnc × Fields, I a.1 → a.2.items.length = n → ∀ q, W q →
    I (hsetVal cfg a q.1 q.2).1
  ht : ∀ e, I e → enc = .ht → e = .ht

theorem hsetVal_ht {a : HashEnc × Fields} (ha : a.1 = .ht) (f b : Bytes) :
    (hsetVal cfg a f b).1 = .ht := by
  have hconv : hashTypeTryConversion cfg a.1 [f, b] = .ht := by simp [hashTypeTryConversion, ha]
  simp only [hsetVal, hsetAll, hconv, hashTypeSet]
  split <;> simp

/-- A field that does not read as an integer is a text in any encoding. -/
theorem room_text (cfg : Cfg) (enc : HashEnc) (n : Nat) :
    Room cfg enc n (fun e => enc = .ht → e = .ht) (fun q => encInt q.1 = none) where
  start h := h
  obj _ _ _ hq := hashElemObj_text hq _
  set _ ha _ q _ h := hsetVal_ht (ha h) q.1 q.2
  ht _ he := he

def ZiplistTakes (cfg : Cfg) (q : Bytes × Bytes) : Prop :=
  q.1.length ≤ cfg.hashMaxZiplistValue ∧ q.2.length ≤ cfg.hashMaxZiplistValue

/-- A ziplist with room for one more keeps every field as a text. -/
theorem room_ziplist (hn : n < cfg.hashMaxZiplistEntries) :
    Room cfg .ziplist n (· = .ziplist) (ZiplistTakes cfg) := by
  have hconv : ∀ q : Bytes × Bytes, ZiplistTakes cfg q →
      hashTypeTryConversion cfg .ziplist [q.1, q.2] = .ziplist := by
    rintro q ⟨h₁, h₂⟩
    simp [hashTypeTryConversion, Nat.not_lt.mpr h₁, Nat.not_lt.mpr h₂]
  refine ⟨rfl, ?_, ?_, fun _ _ h => (nomatch h)⟩
  · rintro ⟨_, fs⟩ rfl q hq
    simp only [hashElemObj, encodeField, hconv q hq]
  · rintro ⟨_, fs⟩ rfl hlen q hq
    simp only [hsetVal, hsetAll, hconv q hq, hashTypeSet]
    split
    · rfl
    · rename_i hnew
      have hlen' : (fs.insertAt fs.length (q.1, q.2) hnew).length = n + 1 := by
        rw [← hlen, Coll.length, (fs.insertAt_perm _ _ hnew).length_eq, List.length_append]
        rfl
      simp only [hlen', gt_iff_lt]
      rw [if_neg (by omega)]

end Hash

/-! ## The loop over the fields -/

def pairFun (ψ : PairFun Bytes) : UpdFun := fun _ arg =>
  match arg with
  | .hash f (some b) => { val := (ψ f b).1, fval := (ψ f b).2 }
  | _ => {}

theorem pairFun_plain (ψ : PairFun Bytes) : PlainFun (pairFun ψ) := by
  intro key a
  unfold pairFun
  split <;> exact ⟨rfl, rfl⟩

/-- The texts that the write of a changed pair takes from the old one have no NUL byte. -/
def PairFun.NulSafe (ψ : PairFun Bytes) (p : Bytes × Bytes) : Prop :=
  ψ.Changes p → NulFree p.1 ∧ ((ψ p.1 p.2).2 = none → NulFree p.2)

def PairFun.KeepsName (ψ : PairFun Bytes) (p : Bytes × Bytes) : Prop := (ψ.next cstr p).1 = p.1

section Fields

variable {env : Env} {key : Bytes} {enc : HashEnc} {n : Nat} {tbl : Table} {I : HashEnc → Prop}
  {W : Bytes × Bytes → Prop} {b : Bytes} {pre post : List (Bytes × Bytes)} {ψ : PairFun Bytes}
  {ψs : List (PairFun Bytes)} {q : Bytes × Bytes}

/-- A field in its turn: the element has the field of the pair and the value of the start, the hash
has the pair, and a field object the table holds will be given up by one of the functions left. -/
structure FieldTurn (enc : HashEnc) (tbl : Table) (I : HashEnc → Prop) (b : Bytes)
    (pre post : List (Bytes × Bytes)) (ψs : List (PairFun Bytes)) (q : Bytes × Bytes)
    (s : Elem × (HashEnc × Fields)) : Prop where
  field : IsField s.1 q.1 b
  dict : s.1.dict = if enc = .ht then some tbl else none
  own : s.1.own = none ∨ ¬ AtEach cstr PairFun.KeepsName ψs q
  encoding : I s.2.1
  perm : s.2.2.items.Perm (pre ++ q :: post)

/-- The check of the table goes through when it takes one more field and gives one back. -/
theorem tableCheck_ok {d : Option Table} (hd : d = if enc = .ht then some tbl else none)
    (htable : enc = .ht → tbl.addKeeps n ∧ tbl.delKeeps n) {x y z : HashEnc × Fields}
    (hht : enc = .ht → x.1 = .ht ∧ z.1 = .ht) (hx : x.2.items.length = n)
    (hz : z.2.items.length = n) :
    tableCheck d (hashUsed (.hash x.1 x.2)) (hashUsed (.hash y.1 y.2))
      (hashUsed (.hash z.1 z.2)) = .ok () := by
  cases enc with
  | ziplist =>
    rw [hd]
    rfl
  | ht =>
    obtain ⟨hx₁, hz₁⟩ := hht rfl
    obtain ⟨hadd, hdel⟩ := htable rfl
    rw [hd, hx₁, hz₁]
    simp [tableCheck, hashUsed, Table.keeps, hx, hz, hadd, hdel]

/-- One function of a field in its turn, unless it would notice that the value is that of the
start, moves the pair on. -/
theorem FieldTurn.step (hroom : Room env.cfg enc n I W)
    (htable : enc = .ht → tbl.addKeeps n ∧ tbl.delKeeps n)
    (hn : (pre ++ q :: post).length = n) {s : Elem × (HashEnc × Fields)}
    (h : FieldTurn enc tbl I b pre post (ψ :: ψs) q s) (hunaware : ψ.Unaware b q)
    (hnul : ψ.NulSafe q) (hW : W (ψ.next cstr q))
    (hothers : ∀ p ∈ pre ++ post, p.1 ≠ (ψ.next cstr q).1) :
    ∃ s', funOn env .hash key (hashUpd env.cfg) s (pairFun ψ) = .ok s' ∧
      FieldTurn enc tbl I b pre post ψs (ψ.next cstr q) s' := by
  obtain ⟨e, a⟩ := s
  obtain ⟨⟨hobj, hfval⟩, hdict, hown, hI, hperm⟩ := h
  simp only at hobj hfval hdict hown hI hperm
  have hlen : a.2.items.length = n := by rw [hperm.length_eq, hn]
  have harg : elemArg env .hash e = .ok (.hash q.1 (some b)) := by
    simp only [elemArg, argOf, hobj, hfval]
  rw [funOn, harg, ok_bind, pairFun, hunaware.same]
  by_cases hc : ψ.Changes q
  · -- the pair that is written is the next one
    obtain ⟨hname, hvalue⟩ := hnul hc
    have hval : cstr ((ψ q.1 q.2).2.getD b) = (ψ.next cstr q).2 := by
      rw [PairFun.next]
      cases hsnd : (ψ q.1 q.2).2 with
      | none =>
        rw [Option.getD_none, ← hunaware.kept hc hsnd]
        exact cstr_eq_self (hvalue hsnd)
      | some b' => rfl
    obtain ⟨c, hdrop, htakes⟩ := dropName_takes (hsetVal env.cfg a (ψ.next cstr q).1
      (ψ.next cstr q).2).1 (x := q) (find?_hsetVal a (ψ.next cstr q).1 (ψ.next cstr q).2)
    have hperm' := htakes.perm hperm hothers
    have hlen' : c.items.length = n := by
      rw [hperm'.length_eq, ← hn, List.length_append, List.length_append]
      rfl
    have hI' : I (hsetVal env.cfg a (ψ.next cstr q).1 (ψ.next cstr q).2).1 :=
      hroom.set a hI hlen _ hW
    have hcheck := tableCheck_ok (x := a) (y := hsetVal env.cfg a (ψ.next cstr q).1
      (ψ.next cstr q).2) (z := (_, c)) hdict htable
      (fun henc => ⟨hroom.ht _ hI henc, hroom.ht _ hI' henc⟩) hlen hlen'
    refine ⟨_, hashUpd_eq hc ⟨hobj, hfval⟩ hname (PairFun.next_name hname) hval
      (hroom.obj a hI _ hW) hdrop hcheck, ⟨rfl, hfval⟩, hdict, ?_, hI', hperm'⟩
    by_cases hkeeps : q.1 ≠ (ψ.next cstr q).1
    · exact .inl (if_pos hkeeps)
    · simp only [if_neg hkeeps]
      refine hown.imp_right fun hnot hrest => hnot ⟨?_, hrest⟩
      exact (not_not.mp hkeeps).symm
  · have hnext : ψ.next cstr q = q := PairFun.next_of_not_changes hc
    refine ⟨(e, a), if_neg hc, ?_⟩
    rw [hnext]
    refine ⟨⟨hobj, hfval⟩, hdict, hown.imp_right fun hnot hrest => hnot ⟨?_, ?_⟩, hI, hperm⟩
    · rw [PairFun.KeepsName, hnext]
    · rw [hnext]
      exact hrest

def FieldFits (W : Bytes × Bytes → Prop) (b : Bytes) (ψ : PairFun Bytes) (q : Bytes × Bytes) : Prop :=
  (ψ.Unaware b q ∧ ψ.NulSafe q) ∧ W (ψ.next cstr q)

end Fields

/-- The pairs of a hash, and the functions for them, for which it makes no difference that every
function gets the value of the start. -/
structure HashFits (cfg : Cfg) (tbl : Table) (enc : HashEnc) (fs : Fields)
    (ψs : List (PairFun Bytes)) : Prop where
  unaware : ∀ p ∈ fs.items, AtEach cstr (fun ψ q => ψ.Unaware p.2 q ∧ ψ.NulSafe q) ψs p
  -- no field reads as an integer, or the hash is a ziplist that stays one
  text : (∀ p ∈ fs.items, AtEach cstr (fun ψ q => encInt (ψ.next cstr q).1 = none) ψs p) ∨
    enc = .ziplist ∧ fs.items.length < cfg.hashMaxZiplistEntries ∧
      ∀ p ∈ fs.items, AtEach cstr (fun ψ q => ZiplistTakes cfg (ψ.next cstr q)) ψs p
  -- a table under the iterator must stay as it is, and give up every field object
  table : enc = .ht → (tbl.addKeeps fs.items.length ∧ tbl.delKeeps fs.items.length) ∧
    ∀ p ∈ fs.items, ¬ AtEach cstr PairFun.KeepsName ψs p

section Compose

variable {env : Env} {v : VersionHash} {key : Bytes} {t : Int} {x : Option Int} {fs : Fields}
  {enc : HashEnc} {s : Store} {ψs : List (PairFun Bytes)}

theorem updateAllHash_on (h : Reached env v key t x (.hash enc fs) s)
    (htext : ∀ p ∈ fs.items, string2ll p.1 = none ∧ string2ll p.2 = none)
    (hplain : ∀ f ∈ v.funsFrom t, PlainFun f) :
    RelRes (fun out a => out.2.1 = key ∧ HeldAs env key v.cur x (.hash a.1 a.2) out.2.2)
      (updateAllHash checkUpdateKvPair env v key s)
      (releasedOn (fun a : HashEnc × Fields => .hash a.1 a.2) (enc, fs)
        ((fs.items.map (fieldElem enc (env.tables key))).foldlM
          (elemOn env .hash key (hashUpd env.cfg) (v.funsFrom t)) (enc, fs))) := by
  refine updateAll_on (a := (enc, fs)) (fun _ => by simp [utypeOf]) h
    fun loc s₁ hheld hmoved hheld₁ => ⟨_, rfl, LoopOn.released ?_⟩
  rw [gatherHash_text htext, ok_bind]
  refine elems_first (a := (enc, fs)) (hashUpd_updates env key t fun _ => h.alive) hplain h.outdated
    (fun _ => by simp [utypeOf]) (fun _ => h.alive) (by simpa using fs.ne) ?_
    (fun _ _ _ _ _ => rfl) hheld hmoved ⟨rfl, rfl, rfl, hheld₁⟩
  intro e he
  obtain ⟨p, -, rfl⟩ := List.mem_map.mp he
  exact ⟨p.1, rfl⟩

/-- The loop over the fields takes every pair to the composed one. -/
theorem fields_composed {tbl : Table} {I : HashEnc → Prop} {W : Bytes × Bytes → Prop}
    (hroom : Room env.cfg enc fs.items.length I W)
    (hfits : ∀ p ∈ fs.items, AtEach cstr (FieldFits W p.2) ψs p)
    (htable : enc = .ht → (tbl.addKeeps fs.items.length ∧ tbl.delKeeps fs.items.length) ∧
      ∀ p ∈ fs.items, ¬ AtEach cstr PairFun.KeepsName ψs p)
    (hapart : Apart cstr ψs fs.items) :
    ∃ a, (fs.items.map (fieldElem enc tbl)).foldlM
        (elemOn env .hash key (hashUpd env.cfg) (ψs.map pairFun)) (enc, fs) = .ok a ∧
      I a.1 ∧ a.2.items.Perm (fs.items.map (composed cstr ψs)) := by
  refine pairs_composed (T := FieldTurn enc tbl I) (fun pre q post a hmem hI hperm => ?_)
    (fun b pre post ψ ψs q s hn hfit hothers h => ?_) (fun b pre post q s h => ?_) hroom.start hfits
    hapart
  · refine ⟨⟨rfl, rfl⟩, rfl, ?_, hI, hperm⟩
    cases enc with
    | ziplist => exact .inl rfl
    | ht => exact .inr ((htable rfl).2 q hmem)
  · exact h.step hroom (fun henc => (htable henc).1) hn hfit.1.1 hfit.1.2 hfit.2 hothers
  · have hown : s.1.own = none := h.own.resolve_right fun hnot => hnot trivial
    exact ⟨by rw [Elem.held, hown, h.field.2]; rfl, h.encoding, h.perm⟩

end Compose

def oneField : Fields := .single (lit "f", lit "v")

def renameThenSet : List (PairFun Bytes) :=
  [fun f _ => (some (f ++ [33]), none), fun _ _ => (none, some (lit "w"))]

section Zset

variable (cfg : Cfg)

/-- `ZADD` of one member, unless its score is no number. -/
def zaddVal (a : ZsetEnc × Scored) (m : Bytes) (d : Option Double) : ZsetEnc × Scored :=
  match d with
  | some d => ((zaddOne cfg a.1 a.2 m d).1, (zaddOne cfg a.1 a.2 m d).2.1)
  | none => a

/-- What `kvolve_update_zset_elem` does to the value. -/
def zsetUpd (r : UpdRes) (e : Elem) (a : ZsetEnc × Scored) : Res (Elem × (ZsetEnc × Scored)) :=
  if r.val.isSome ∨ r.score.isSome then do
    let m := cstr (r.val.getD e.obj.bytes)
    let d := cfg.getDouble (cfg.fmtF (r.score.getD e.score))
    let obj ← match d with
      | some _ => zsetElemObj cfg m (some (.zset a.1 a.2))
      | none => .ok (.raw m)
    let rest ← dropName (zaddVal cfg a m d) (if cstr e.obj.bytes ≠ m then some e.obj.bytes else none)
    .ok ({ e with obj := obj }, rest)
  else .ok (e, a)

theorem zremAll_remove (ms : Scored) (m : Bytes) : (zremAll [m] ms 0).1 = ms.remove m := by
  unfold zremAll
  split
  · cases ms.remove m <;> rfl
  · rename_i hm
    exact (Coll.remove_of_not_mem hm).symm

theorem zremProc_drops (m : Bytes) : Drops (fun a => Val.zset a.1 a.2) (zremProc [m]) m := by
  intro b
  simp only [zremProc, onZset, zremAll_remove, storeZset]
  cases b.2.remove m <;> rfl

theorem zsetUpd_updates (env : Env) (key : Bytes) (t : Int) {x : Option Int}
    (ha : ∀ val, (⟨⟨t, val⟩, x⟩ : Entry).alive env.now = true) :
    UpdatesAs env .zset key t x (fun a => Val.zset a.1 a.2) (zsetUpd env.cfg) := by
  intro r e n a s h
  simp only [changeElem, zsetUpd]
  split
  · simp only [updateZsetElem, zaddElem]
    rw [h.derefLive (ha _), ok_bind, h.val?]
    cases hd : env.cfg.getDouble (env.cfg.fmtF (r.score.getD e.score)) with
    | none =>
      simp only [ok_bind, map_bind]
      exact (HeldAs.drop (b := a) h ha (zremProc_drops e.obj.bytes) _).bind fun _ _ hheld =>
        .ok ⟨rfl, rfl, ⟨n, rfl⟩, hheld⟩
    | some d =>
      simp only
      cases hobj : zsetElemObj env.cfg (cstr (r.val.getD e.obj.bytes)) (some (.zset a.1 a.2)) with
      | error c => exact .error c
      | ok obj =>
        have hadd : HeldAs env key t x
            (.zset (zaddVal env.cfg a (cstr (r.val.getD e.obj.bytes)) (some d)).1
              (zaddVal env.cfg a (cstr (r.val.getD e.obj.bytes)) (some d)).2)
            (runProc env key (zaddProc env.cfg [(cstr (r.val.getD e.obj.bytes), d)]) s) :=
          HeldAs.modify h (ha _) rfl
        simp only [ok_bind, map_bind]
        exact (HeldAs.drop (b := zaddVal _ _ _ _) hadd ha (zremProc_drops e.obj.bytes) _).bind
          fun _ _ hheld => .ok ⟨rfl, rfl, ⟨n, rfl⟩, hheld⟩
  · exact .ok ⟨rfl, rfl, ⟨n, rfl⟩, h⟩

variable {cfg} {n : Nat} {I : ZsetEnc → Prop} {W : Bytes → Prop}

/-- A score that counts as equal to the one there is left alone; where that makes no difference, the
member ends up with the score it is added with. -/
theorem find?_zaddOne (enc : ZsetEnc) (ms : Scored) (m : Bytes) (d : Double)
    (hsame : ∀ x, ms.find? m = some x → cfg.deq d x.2 = true → x = (m, d)) (g : Bytes) :
    (zaddOne cfg enc ms m d).2.1.find? g = if g = m then some (m, d) else ms.find? g := by
  unfold zaddOne
  by_cases hm : m ∈ ms.keys
  · obtain ⟨x, hx⟩ := Coll.mem_keys.mp hm
    simp only [dif_pos hm, hx, Option.map_some, Option.some.injEq]
    by_cases hd : cfg.deq d x.2 = true
    · rw [if_pos hd]
      by_cases hg : g = m
      · rw [if_pos hg, hg, hx, hsame x hx hd]
      · rw [if_neg hg]
    · rw [if_neg hd]
      have hrem := ms.find?_remove m
      cases hr : ms.remove m with
      | none =>
        rw [hr] at hrem
        simp only [Coll.find?_single]
        by_cases hg : g = m
        · rw [if_pos hg, if_pos hg]
        · rw [if_neg hg, if_neg hg, hrem g hg]
      | some ms' =>
        rw [hr] at hrem
        have hm' : m ∉ ms'.keys := by
          intro hk
          obtain ⟨y, hy⟩ := Coll.mem_keys.mp hk
          rw [hrem m, if_pos rfl] at hy
          cases hy
        simp only [dif_neg hm', Coll.find?_insertAt]
        by_cases hg : g = m
        · rw [if_pos hg, if_pos hg]
        · rw [if_neg hg, if_neg hg, hrem g, if_neg hg]
  · simp only [dif_neg hm, Coll.find?_insertAt]

/-- A sorted set of `n` members in an encoding `I` takes in every member of `W` as a text. -/
structure ZRoom (cfg : Cfg) (n : Nat) (I : ZsetEnc → Prop) (W : Bytes → Prop) : Prop where
  start : I .ziplist
  obj : ∀ a : ZsetEnc × Scored, I a.1 → ∀ m, W m →
    zsetElemObj cfg m (some (.zset a.1 a.2)) = .ok (.raw m)
  add : ∀ a : ZsetEnc × Scored, I a.1 → a.2.items.length = n → ∀ m, W m → ∀ d,
    I (zaddOne cfg a.1 a.2 m d).1

theorem zroom_text (cfg : Cfg) (n : Nat) : ZRoom cfg n (fun _ => True) (fun m => encInt m = none) where
  start := trivial
  obj a _ m hm := by
    cases henc : a.1 with
    | ziplist => rfl
    | skiplist => exact encodeNew_of_text hm
  add _ _ _ _ _ _ := trivial

theorem zroom_ziplist (hn : n < cfg.zsetMaxZiplistEntries) :
    ZRoom cfg n (· = .ziplist) (fun m => m.length ≤ cfg.zsetMaxZiplistValue) where
  start := rfl
  obj a ha m _ := by
    rw [ha]
    rfl
  add a ha hlen m hm d := by
    unfold zaddOne
    split
    · split
      · exact ha
      · split
        · exact ha
        · split <;> exact ha
    · rename_i hnew
      have hlen' : ∀ i, (a.2.insertAt i (m, d) hnew).length = n + 1 := fun i => by
        rw [← hlen, Coll.length, (a.2.insertAt_perm _ _ hnew).length_eq, List.length_append]
        rfl
      simp only [hlen', gt_iff_lt, Nat.not_lt.mpr hm, or_false]
      rw [if_neg (by omega)]
      exact ha

end Zset

/-! ## The loop over the members -/

def scoreFun (ψ : PairFun Double) : UpdFun := fun _ arg =>
  match arg with
  | .zset m sc => { val := (ψ m sc).1, score := (ψ m sc).2 }
  | _ => {}

theorem scoreFun_plain (ψ : PairFun Double) : PlainFun (scoreFun ψ) := by
  intro key a
  unfold scoreFun
  split <;> exact ⟨rfl, rfl⟩

/-- The score of a changed member comes back from its text and is not taken for the one there is,
and the member has no NUL byte. -/
def PairFun.ScoreSafe (cfg : Cfg) (ψ : PairFun Double) (p : Bytes × Double) : Prop :=
  ψ.Changes p → NulFree p.1 ∧ cfg.getDouble (cfg.fmtF (ψ.next id p).2) = some (ψ.next id p).2 ∧
    (cfg.deq (ψ.next id p).2 p.2 = true → (ψ.next id p).2 = p.2)

def memberElem (t : Int) (p : Bytes × Double) : Elem := { obj := .raw p.1, vers := t, score := p.2 }

section Members

variable {env : Env} {key : Bytes} {n : Nat} {I : ZsetEnc → Prop} {W : Bytes → Prop} {b : Double}
  {pre post : List (Bytes × Double)} {ψ : PairFun Double} {ψs : List (PairFun Double)}
  {q : Bytes × Double}

/-- A member in its turn: the element has the member of the pair and the score of the start, and the
sorted set has the pair. -/
structure MemberTurn (I : ZsetEnc → Prop) (b : Double) (pre post : List (Bytes × Double))
    (q : Bytes × Double) (s : Elem × (ZsetEnc × Scored)) : Prop where
  obj : s.1.obj = .raw q.1
  score : s.1.score = b
  free : s.1.held = false
  encoding : I s.2.1
  perm : s.2.2.items.Perm (pre ++ q :: post)

/-- One function of a member in its turn, unless it would notice that the score is that of the
start, moves the pair on. -/
theorem MemberTurn.step (hroom : ZRoom env.cfg n I W) (hn : (pre ++ q :: post).length = n)
    {s : Elem × (ZsetEnc × Scored)} (h : MemberTurn I b pre post q s) (hunaware : ψ.Unaware b q)
    (hsafe : ψ.ScoreSafe env.cfg q) (hW : W (ψ.next id q).1)
    (hothers : ∀ p ∈ pre ++ post, p.1 ≠ (ψ.next id q).1) :
    ∃ s', funOn env .zset key (zsetUpd env.cfg) s (scoreFun ψ) = .ok s' ∧
      MemberTurn I b pre post (ψ.next id q) s' := by
  obtain ⟨e, a⟩ := s
  obtain ⟨hobj, rfl, hfree, hI, hperm⟩ := h
  simp only at hobj hfree hI hperm hunaware
  have hlen : a.2.items.length = n := by rw [hperm.length_eq, hn]
  have harg : elemArg env .zset e = .ok (.zset q.1 e.score) := by
    simp only [elemArg, argOf, hobj]
  rw [funOn, harg, ok_bind, scoreFun, hunaware.same]
  by_cases hc : ψ.Changes q
  · -- the pair that is written is the next one
    obtain ⟨hname, hexact, hequal⟩ := hsafe hc
    have hscore : (ψ q.1 q.2).2.getD e.score = (ψ.next id q).2 := by
      rw [PairFun.next]
      cases hsnd : (ψ q.1 q.2).2 with
      | none => exact (hunaware.kept hc hsnd).symm
      | some d => rfl
    have hsame : ∀ y, a.2.find? (ψ.next id q).1 = some y →
        env.cfg.deq (ψ.next id q).2 y.2 = true → y = ψ.next id q := by
      intro y hy hd
      obtain ⟨hmem, hkey⟩ := Coll.find?_eq_some.mp hy
      have hmem' : y ∈ q :: (pre ++ post) := List.perm_middle.mem_iff.mp (hperm.mem_iff.mp hmem)
      obtain rfl | hmem' := List.mem_cons.mp hmem'
      · exact Prod.ext hkey (hequal hd).symm
      · exact absurd hkey (hothers y hmem')
    obtain ⟨c, hdrop, htakes⟩ := dropName_takes
      (zaddOne env.cfg a.1 a.2 (ψ.next id q).1 (ψ.next id q).2).1 (x := q)
      (find?_zaddOne a.1 a.2 (ψ.next id q).1 (ψ.next id q).2 hsame)
    have hbytes : e.obj.bytes = q.1 := by rw [hobj]; rfl
    refine ⟨({ e with obj := .raw (ψ.next id q).1 }, (_, c)), ?_, rfl, rfl, hfree,
      hroom.add a hI hlen _ hW (ψ.next id q).2, htakes.perm hperm hothers⟩
    refine (if_pos hc).trans ?_
    simp only [hbytes, (PairFun.next_name hname : _ = (ψ.next id q).1), cstr_eq_self hname, hscore,
      hexact, hroom.obj a hI _ hW, ok_bind, zaddVal, hdrop]
  · have hnext : ψ.next id q = q := PairFun.next_of_not_changes hc
    refine ⟨(e, a), if_neg hc, ?_⟩
    rw [hnext]
    exact ⟨hobj, rfl, hfree, hI, hperm⟩

def MemberFits (cfg : Cfg) (W : Bytes → Prop) (b : Double) (ψ : PairFun Double) (q : Bytes × Double) :
    Prop :=
  (ψ.Unaware b q ∧ ψ.ScoreSafe cfg q) ∧ W (ψ.next id q).1

theorem slotStep_elem {v : VersionHash} {t : Int} {st : LSt} (h : Stands env t st.loc st.s) {e : Elem}
    {b : Bytes} (hobj : e.obj = .raw b) (ht : e.vers = t) (type : UType) :
    slotStep checkUpdateKvPair env v type st (some e) =
      elemStep checkUpdateKvPair env v type st e := by
  obtain ⟨c, hc, -, hw⟩ := h.deref
  have htag : tagElem (st.s.vers c.obj) e st.s = (e, st.s) := by
    obtain ⟨obj, vers, score, fval⟩ := e
    cases hobj
    cases ht
    simp only [tagElem, hw.vers st.s]
  unfold slotStep elemStep
  rw [hc, ok_bind, ok_bind, htag]

end Members

/-- The pairs of a sorted set, and the functions for them, for which it makes no difference that
every function gets the score of the start. -/
structure ZsetFits (cfg : Cfg) (ms : Scored) (ψs : List (PairFun Double)) : Prop where
  unaware : ∀ p ∈ ms.items, AtEach id (fun ψ q => ψ.Unaware p.2 q ∧ ψ.ScoreSafe cfg q) ψs p
  -- no member reads as an integer, or the sorted set stays a ziplist
  text : (∀ p ∈ ms.items, AtEach id (fun ψ q => encInt (ψ.next id q).1 = none) ψs p) ∨
    ms.items.length < cfg.zsetMaxZiplistEntries ∧ ∀ p ∈ ms.items,
      AtEach id (fun ψ q => (ψ.next id q).1.length ≤ cfg.zsetMaxZiplistValue) ψs p

section ComposeScore

variable {env : Env} {v : VersionHash} {key : Bytes} {t : Int} {x : Option Int} {ms : Scored}
  {s : Store} {ψs : List (PairFun Double)}

theorem gatherZset_text {cfg : Cfg} (t : Int) (hms : ∀ p ∈ ms.items, string2ll p.1 = none ∧
    zzlGetScore cfg (cfg.d2string p.2) = p.2) :
    zsetSlots cfg t (ms.items.flatMap fun p => [p.1, cfg.d2string p.2]) =
      .ok ((ms.items.map (memberElem t)).map some) := by
  have hslots := zsetSlots_pairs cfg t (ms.items.map fun p => (p.1, cfg.d2string p.2)) (by
    intro q hq
    obtain ⟨p, hp, rfl⟩ := List.mem_map.mp hq
    exact (hms p hp).1)
  rw [List.flatMap_map] at hslots
  rw [hslots, List.map_map, List.map_map]
  refine congrArg Except.ok (List.map_congr_left fun p hp => ?_)
  simp only [Function.comp, memberElem, (hms p hp).2]

theorem updateAllZset_on (h : Reached env v key t x (.zset .ziplist ms) s)
    (hms : ∀ p ∈ ms.items, string2ll p.1 = none ∧
      zzlGetScore env.cfg (env.cfg.d2string p.2) = p.2)
    (hplain : ∀ f ∈ v.funsFrom t, PlainFun f) :
    RelRes (fun out a => out.2.1 = key ∧ HeldAs env key v.cur x (.zset a.1 a.2) out.2.2)
      (updateAllZset checkUpdateKvPair env v key s)
      ((ms.items.map (memberElem t)).foldlM
        (elemOn env .zset key (zsetUpd env.cfg) (v.funsFrom t)) (.ziplist, ms)) := by
  have hval : ∀ a : ZsetEnc × Scored, utypeOf (.zset a.1 a.2) ≠ .string := fun _ => by
    simp [utypeOf]
  have hraw : ∀ e ∈ ms.items.map (memberElem t), (∃ b, e.obj = .raw b) ∧ e.vers = t := by
    intro e he
    obtain ⟨p, -, rfl⟩ := List.mem_map.mp he
    exact ⟨⟨p.1, rfl⟩, rfl⟩
  refine updateAll_on (a := (.ziplist, ms)) hval h fun loc s₁ hheld hmoved hheld₁ => ⟨_, rfl, ?_⟩
  show RelRes _ (do
    let l ← zsetSlots env.cfg t (ms.items.flatMap fun p => [p.1, env.cfg.d2string p.2])
    l.foldlM (slotStep checkUpdateKvPair env v .zset) ⟨true, key, loc, s⟩) _
  rw [gatherZset_text t hms, ok_bind, List.foldlM_map]
  refine elems_first (a := (.ziplist, ms)) (zsetUpd_updates env key t fun _ => h.alive) hplain
    h.outdated hval (fun _ => h.alive) (by simpa using ms.ne) (fun e he => (hraw e he).1) ?_ hheld
    hmoved ⟨rfl, rfl, rfl, hheld₁⟩
  intro e he st a hst
  obtain ⟨⟨b, hobj⟩, ht⟩ := hraw e he
  exact slotStep_elem (HeldAs.stands hval (fun _ => h.alive) hst) hobj ht .zset

/-- The loop over the members takes every pair to the composed one. -/
theorem members_composed {I : ZsetEnc → Prop} {W : Bytes → Prop} (t : Int)
    (hroom : ZRoom env.cfg ms.items.length I W)
    (hfits : ∀ p ∈ ms.items, AtEach id (MemberFits env.cfg W p.2) ψs p)
    (hapart : Apart id ψs ms.items) :
    ∃ a, (ms.items.map (memberElem t)).foldlM
        (elemOn env .zset key (zsetUpd env.cfg) (ψs.map scoreFun)) (.ziplist, ms) = .ok a ∧
      I a.1 ∧ a.2.items.Perm (ms.items.map (composed id ψs)) := by
  refine pairs_composed (T := fun b pre post _ => MemberTurn I b pre post)
    (fun pre q post a _ hI hperm => ⟨rfl, rfl, rfl, hI, hperm⟩)
    (fun b pre post ψ ψs q s hn hfit hothers h => ?_)
    (fun b pre post q s h => ⟨h.free, h.encoding, h.perm⟩) hroom.start hfits hapart
  exact h.step hroom hn hfit.1.1 hfit.1.2 hfit.2 hothers

end ComposeScore

def integerScores : Cfg where
  ofInt n := UInt64.ofInt n
  d2string d := ll2string d.toNat
  fmtF d := ll2string d.toNat ++ lit ".000000"
  getDouble b := (string2ll (b.takeWhile (· ≠ 46))).map UInt64.ofInt

def oneMember : Scored := .single (lit "m", 1)

def renameThenScore : List (PairFun Double) :=
  [fun m _ => (some (m ++ [33]), none), fun _ _ => (none, some 2)]

end SchemaUpdate.KVolve
