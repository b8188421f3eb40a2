import SchemaUpdate.Lib.Iterate
import SchemaUpdate.KVolve.Walk

/-! # Keys, namespaces and predecessor names

What `kvolve_version_hash_lookup` and `kvolve_construct_prev_name` compute for a key
of the form `ns:suffix`, and that the bound on the walk over the predecessors is only
exceeded by a walk that never ends. -/

namespace SchemaUpdate.KVolve

open SchemaUpdate.Lib SchemaUpdate.Redis

def keyName (ns suffix : Bytes) : Bytes := ns ++ colon :: suffix

theorem colon_ne_zero : colon ≠ 0 := by decide

variable {ns x : Bytes} {reg : Reg} {v : VersionHash} {key : Bytes}

theorem cstr_keyName (h : NulFree ns) (x : Bytes) : cstr (keyName ns x) = keyName ns (cstr x) := by
  have hc : NulFree (ns ++ [colon]) :=
    nulFree_append.mpr ⟨h, nulFree_cons.mpr ⟨colon_ne_zero, by simp [NulFree]⟩⟩
  have := cstr_append hc x
  simpa [keyName] using this

theorem keyName_injective {y : Bytes} (h : keyName ns x = keyName ns y) : x = y := by
  have := List.append_cancel_left h
  exact (List.cons.inj this).2

/-! ## Looking a key up -/

theorem lookupFrom_fuel (reg : Reg) {m n : Nat} {l : Bytes} (hm : l.length < m)
    (hn : l.length < n) : lookupFrom reg m l = lookupFrom reg n l := by
  induction m generalizing n l with
  | zero => omega
  | succ m ih =>
    cases n with
    | zero => omega
    | succ n =>
      simp only [lookupFrom]
      cases hs : rsplit colon l with
      | none => rfl
      | some pq =>
        have hlt := rsplit_length_lt hs
        simp only
        rw [ih (l := pq.1) (by omega) (by omega : pq.1.length < n)]

theorem versionHashLookup_eq (reg : Reg) (key : Bytes) :
    versionHashLookup reg key =
      match rsplit colon (cstr key) with
      | none => reg.find [42]
      | some (p, _) =>
        match reg.find p with
        | some v => some v
        | none => if colon ∈ p then versionHashLookup reg p else none := by
  unfold versionHashLookup
  rw [lookupFrom]
  cases hs : rsplit colon (cstr key) with
  | none => rfl
  | some pq =>
    have hlt := rsplit_length_lt hs
    have hp : cstr pq.1 = pq.1 := by
      apply cstr_eq_self
      have := cstr_nulFree key
      rw [(rsplit_sound hs).1] at this
      exact (nulFree_append.mp this).1
    simp only [hp]
    have hfuel := lookupFrom_fuel reg hlt (by omega : pq.1.length < pq.1.length + 1)
    cases reg.find pq.1 with
    | none => simp only [hfuel]
    | some v => rfl

theorem versionHashLookup_keyName (hv : reg.find ns = some v) (hx : colon ∉ cstr x) :
    versionHashLookup reg (keyName ns x) = some v := by
  have hns : NulFree ns := by
    have := v.nsC
    rwa [Reg.find_ns hv] at this
  rw [versionHashLookup_eq, cstr_keyName hns, keyName, rsplit_append hx]
  simp only [hv]

theorem lookupFrom_dom {reg' : Reg} (h : ∀ k, (reg.find k).isSome = (reg'.find k).isSome) (n : Nat)
    (l : Bytes) :
    lookupFrom reg' n l = (lookupFrom reg n l).bind fun v => reg'.find v.ns := by
  have hfind : ∀ k, reg'.find k = (reg.find k).bind fun v => reg'.find v.ns := by
    intro k
    cases hk : reg.find k with
    | none =>
      have := h k
      rw [hk] at this
      simpa using this.symm
    | some v => rw [Option.bind_some, Reg.find_ns hk]
  induction n generalizing l with
  | zero => rfl
  | succ n ih =>
    simp only [lookupFrom]
    cases rsplit colon l with
    | none => exact hfind _
    | some pq =>
      simp only
      rw [hfind pq.1]
      cases hk : reg.find pq.1 with
      | none =>
        simp only [Option.bind_none]
        split
        · exact ih pq.1
        · rfl
      | some v =>
        obtain ⟨w, hw⟩ := Option.isSome_iff_exists.mp (by rw [← h pq.1, hk]; rfl :
          (reg'.find pq.1).isSome = true)
        simp only [Option.bind_some, Reg.find_ns hk, hw]

theorem versionHashLookup_dom {reg' : Reg} (h : ∀ k, (reg.find k).isSome = (reg'.find k).isSome)
    (key : Bytes) :
    versionHashLookup reg' key = (versionHashLookup reg key).bind fun v => reg'.find v.ns :=
  lookupFrom_dom h _ _

theorem versionHashLookup_find (h : versionHashLookup reg key = some v) :
    reg.find v.ns = some v := by
  have : versionHashLookup reg key = _ := versionHashLookup_dom (fun _ => rfl) key
  rw [h] at this
  exact this.symm

/-! ## The buffer of the key -/

/-- `kvolve_version_hash_lookup` with the buffer it works in: the string is cut at its last colon
for the recursive call, and the colon is put back behind it. `none` is a recursion that has not
ended after `n` calls. -/
def lookupIn (reg : Reg) : Nat → Bytes → Option (Option VersionHash × Bytes)
  | 0, _ => none
  | n + 1, buf =>
    if reg.size = 0 then some (none, buf)
    else
      match rsplit colon (cstr buf) with
      | none => some (reg.find (lit "*"), buf)
      | some (p, _) =>
        match reg.find p with
        | some v => some (some v, buf)
        | none =>
          let cut := buf.set p.length 0
          if colon ∈ cstr cut then
            (lookupIn reg n cut).map fun out => (out.1, out.2.set p.length colon)
          else some (none, cut.set p.length colon)

theorem versionHashLookup_empty (h : reg.size = 0) (key : Bytes) :
    versionHashLookup reg key = none := by
  refine Option.eq_none_iff_forall_ne_some.mpr fun v hv => ?_
  have hmem : v.ns ∈ reg.tbl.keys :=
    AList.lookup_isSome.mp (by rw [show reg.tbl.lookup v.ns = _ from versionHashLookup_find hv]; rfl)
  rw [List.length_eq_zero_iff.mp h] at hmem
  cases hmem

/-- The recursion ends, with the record the key resolves to, and restores what it has cut. -/
theorem lookupIn_eq {n : Nat} (hkey : NulFree key) (hn : key.length < n) (rest : Bytes) :
    lookupIn reg n (key ++ 0 :: rest) = some (versionHashLookup reg key, key ++ 0 :: rest) := by
  induction n generalizing key rest with
  | zero => omega
  | succ n ih =>
    have hbuf : ∀ {k : Bytes} (r : Bytes), NulFree k → cstr (k ++ 0 :: r) = k := fun r hk => by
      rw [cstr_append hk]
      exact List.append_nil _
    rw [lookupIn, hbuf rest hkey]
    split
    · rename_i hsize
      rw [versionHashLookup_empty hsize]
    · rw [versionHashLookup_eq, cstr_eq_self hkey]
      cases hs : rsplit colon key with
      | none => rfl
      | some pq =>
        obtain ⟨p, q⟩ := pq
        obtain ⟨rfl, -⟩ := rsplit_sound hs
        have hp : NulFree p := (nulFree_append.mp hkey).1
        have hset : ∀ x y r, (p ++ x :: r).set p.length y = p ++ y :: r := fun x y r => by simp
        simp only
        cases reg.find p with
        | some v => rfl
        | none =>
          rw [List.append_assoc, List.cons_append, hset, hbuf _ hp]
          simp only
          have hlt : p.length < n := by
            simp only [List.length_append, List.length_cons] at hn
            omega
          split
          · rw [ih hp hlt, Option.map_some, hset]
          · rw [hset]

/-- The record is that of the longest registered name which the key has, with a colon behind it,
as its beginning. -/
def LongestMatch (reg : Reg) (key : Bytes) : Option VersionHash → Prop
  | none => ∀ p, p ++ [colon] <+: key → reg.find p = none
  | some v => v.ns ++ [colon] <+: key ∧ reg.find v.ns = some v ∧
      ∀ p, p ++ [colon] <+: key → reg.find p ≠ none → p.length ≤ v.ns.length

/-- A name before a colon stands before the last one or is what stands there. -/
theorem before_colon {p q p' : Bytes} (hq : colon ∉ q) (h : p' ++ [colon] <+: p ++ colon :: q) :
    p' = p ∨ p' ++ [colon] <+: p := by
  obtain ⟨t, ht⟩ := h
  rw [List.append_assoc, List.singleton_append] at ht
  obtain ⟨a, rfl, ha⟩ | ⟨a, rfl, ha⟩ := List.append_eq_append_iff.mp ht
  · cases a with
    | nil => exact .inl (List.append_nil _).symm
    | cons x a =>
      obtain ⟨rfl, -⟩ := List.cons.inj ha
      exact .inr ⟨a, by simp⟩
  · cases a with
    | nil => exact .inl (List.append_nil _)
    | cons x a =>
      obtain ⟨-, rfl⟩ := List.cons.inj ha
      exact absurd (by simp) hq

/-- The lookup finds the record of the longest namespace of the key. -/
theorem versionHashLookup_longest (hkey : NulFree key) (hcolon : colon ∈ key) :
    LongestMatch reg key (versionHashLookup reg key) := by
  induction hlen : key.length using Nat.strongRecOn generalizing key with
  | _ n ih =>
    rw [versionHashLookup_eq, cstr_eq_self hkey]
    cases hs : rsplit colon key with
    | none => exact absurd hcolon (rsplit_eq_none.mp hs)
    | some pq =>
      obtain ⟨p, q⟩ := pq
      have hlt := rsplit_length_lt hs
      obtain ⟨rfl, hq⟩ := rsplit_sound hs
      simp only
      cases hp : reg.find p with
      | some v =>
        have hns := Reg.find_ns hp
        refine ⟨⟨q, by simp [hns]⟩, by rw [hns]; exact hp, fun p' hp' _ => ?_⟩
        obtain rfl | ⟨t, rfl⟩ := before_colon hq hp'
        · rw [hns]
        · simp [hns]
      | none =>
        -- what stands before the last colon is not registered
        have hrest : ∀ {r}, LongestMatch reg p r → LongestMatch reg (p ++ colon :: q) r := by
          intro r hr
          cases r with
          | none =>
            intro p' hp'
            obtain rfl | hin := before_colon hq hp'
            · exact hp
            · exact hr p' hin
          | some v =>
            refine ⟨hr.1.trans (List.prefix_append _ _), hr.2.1, fun p' hp' hreg => ?_⟩
            obtain rfl | hin := before_colon hq hp'
            · exact absurd hp hreg
            · exact hr.2.2 p' hin hreg
        refine hrest ?_
        by_cases hin : colon ∈ p
        · rw [if_pos hin]
          exact ih _ (hlen ▸ hlt) (nulFree_append.mp hkey).1 hin rfl
        · rw [if_neg hin]
          exact fun p' hp' => absurd (hp'.subset (by simp)) hin

/-- **A key resolves to the record of its longest registered beginning, and its buffer is left as
it was.** -/
theorem lookup_longest_match (reg : Reg) (key rest : Bytes) (hkey : NulFree key) :
    ∃ r, (∀ n, key.length < n →
        lookupIn reg n (key ++ 0 :: rest) = some (r, key ++ 0 :: rest)) ∧
      (colon ∉ key → r = reg.find (lit "*")) ∧ (colon ∈ key → LongestMatch reg key r) := by
  refine ⟨versionHashLookup reg key, fun n hn => lookupIn_eq hkey hn rest, fun hno => ?_,
    versionHashLookup_longest hkey⟩
  rw [versionHashLookup_eq, cstr_eq_self hkey, rsplit_eq_none.mpr hno]
  rfl

/-- `a:b:c` when `a` is registered: two calls. -/
theorem lookup_longest_match_a : ∃ r, lookupIn (registered "a" 1) 6 (lit "a:b:c" ++ [0]) =
      some (r, lit "a:b:c" ++ [0]) ∧ LongestMatch (registered "a" 1) (lit "a:b:c") r := by
  obtain ⟨r, hrun, -, hlong⟩ := lookup_longest_match (registered "a" 1) (lit "a:b:c") [] (by decide)
  exact ⟨r, hrun 6 (by decide), hlong (by decide)⟩

/-! ## Predecessor names -/

def lastSegment (x : Bytes) : Bytes :=
  match rsplit colon x with
  | some (_, q) => q
  | none => x

theorem lastSegment_eq_self (h : colon ∉ x) : lastSegment x = x := by
  rw [lastSegment, rsplit_eq_none.mpr h]

theorem rsplit_keyName (ns x : Bytes) :
    ∃ p, rsplit colon (keyName ns x) = some (p, lastSegment x) := by
  unfold lastSegment
  cases hs : rsplit colon x with
  | none => exact ⟨ns, rsplit_append (rsplit_eq_none.mp hs) ns⟩
  | some pq =>
    obtain ⟨hx, hq⟩ := rsplit_sound hs
    refine ⟨ns ++ colon :: pq.1, ?_⟩
    have := rsplit_append hq (ns ++ colon :: pq.1)
    rwa [List.append_assoc, List.cons_append, ← hx] at this

/-- Only the last segment of a key is carried over to the name of a predecessor. -/
theorem constructPrevName_keyName (h : NulFree ns) (x p : Bytes) :
    constructPrevName (keyName ns x) p = some (keyName p (lastSegment (cstr x))) := by
  obtain ⟨q, hq⟩ := rsplit_keyName ns (cstr x)
  rw [constructPrevName, cstr_keyName h, hq]
  rfl

theorem lastSegment_cstr_eq_self : lastSegment (cstr x) = x ↔ colon ∉ x ∧ NulFree x := by
  have hshort : ∀ y : Bytes, (lastSegment y).length ≤ y.length := by
    intro y
    unfold lastSegment
    split
    · rename_i p q hs
      rw [(rsplit_sound hs).1, List.length_append, List.length_cons]
      omega
    · exact Nat.le_refl _
  have hplain : ∀ y : Bytes, colon ∉ lastSegment y := by
    intro y
    unfold lastSegment
    split
    · rename_i p q hs
      exact (rsplit_sound hs).2
    · rename_i hs
      exact rsplit_eq_none.mp hs
  constructor
  · intro h
    have hlen : x.length ≤ (cstr x).length := by
      have hle := hshort (cstr x)
      rwa [h] at hle
    have hcstr : cstr x = x := ( cstr_prefix x).eq_of_length_le hlen
    refine ⟨?_, ?_⟩
    · rw [← h]
      exact hplain _
    · rw [← hcstr]
      exact cstr_nulFree x
  · rintro ⟨hcolon, hnul⟩
    rw [cstr_eq_self hnul, lastSegment_eq_self hcolon]

/-- **Old and new names correspond** exactly when the rest of the key is one segment of text:
then each name is constructed from the other, and no two new names have the same old one. -/
theorem prev_names_correspond (a b : VersionHash) (x : Bytes) :
    ((constructPrevName (keyName b.ns x) a.ns = some (keyName a.ns x) ∧
      constructPrevName (keyName a.ns x) b.ns = some (keyName b.ns x)) ↔
        colon ∉ x ∧ NulFree x) ∧
    ∀ y, (colon ∉ x ∧ NulFree x) → (colon ∉ y ∧ NulFree y) →
      constructPrevName (keyName b.ns x) a.ns = constructPrevName (keyName b.ns y) a.ns →
        x = y := by
  have hname : ∀ ns p : VersionHash, ∀ z, constructPrevName (keyName ns.ns z) p.ns =
      some (keyName p.ns z) ↔ colon ∉ z ∧ NulFree z := by
    intro ns p z
    rw [constructPrevName_keyName ns.nsC, ← lastSegment_cstr_eq_self, Option.some.injEq]
    exact ⟨keyName_injective, congrArg _⟩
  refine ⟨by rw [hname b a, hname a b, and_self_iff], fun y hx hy heq => ?_⟩
  rw [(hname b a x).mpr hx, (hname b a y).mpr hy] at heq
  exact keyName_injective (Option.some.inj heq)

/-- After a namespace change, for a key of several segments: the keys resolve to the two
namespaces, and two new names have the same old one. -/
theorem prev_names_collide :
    ∃ reg a b, (updSpec 1 (fun _ => 0) (registered "skx" 5)
        ⟨lit "skx", lit "sky", 5, 6, []⟩).toOption.map Prod.fst = some reg ∧
      versionHashLookup reg (keyName a.ns (lit "INODE:5:DATA")) = some a ∧
      versionHashLookup reg (keyName b.ns (lit "INODE:5:DATA")) = some b ∧
      b.prevNs = some a.ns ∧
      constructPrevName (keyName b.ns (lit "INODE:5:DATA")) a.ns = some (lit "skx:DATA") ∧
      constructPrevName (keyName b.ns (lit "INODE:7:DATA")) a.ns = some (lit "skx:DATA") := by
  obtain ⟨reg, hreg, ⟨a, ha, hans⟩, b, hb, hbns, hprev⟩ := ok_of_any (p := fun reg : Reg × Finset Nat =>
    (∃ a ∈ versionHashLookup reg.1 (lit "skx:INODE:5:DATA"), a.ns = lit "skx") ∧
      ∃ b ∈ versionHashLookup reg.1 (lit "sky:INODE:5:DATA"),
        b.ns = lit "sky" ∧ b.prevNs = some (lit "skx")) (show
    (updSpec 1 (fun _ => 0) (registered "skx" 5)
      ⟨lit "skx", lit "sky", 5, 6, []⟩).toOption.any _ by decide +kernel)
  refine ⟨reg.1, a, b, by rw [hreg]; rfl, ?_⟩
  rw [hans, hbns, hprev]
  exact ⟨ha, hb, rfl, by decide, by decide⟩

/-! ## The bound on the walk -/

def walkNext (reg : Reg) (here : Bytes → Bool) (key : Bytes) (t : VersionHash) :
    Option VersionHash :=
  match t.prevNs with
  | none => none
  | some p =>
    match constructPrevName key p with
    | none => none
    | some old => if here old then none else versionHashLookup reg p

theorem prevWalk_diverge_iff (reg : Reg) (here : Bytes → Bool) (key : Bytes) (n : Nat)
    (t : VersionHash) :
    prevWalk reg here key n (some t) = .error .diverge ↔
      (iter (walkNext reg here key) n t).isSome := by
  induction n generalizing t with
  | zero => simp [prevWalk, iter]
  | succ n ih =>
    simp only [prevWalk, iter, walkNext]
    cases t.prevNs with
    | none => simp
    | some p =>
      simp only
      cases constructPrevName key p with
      | none => simp
      | some old =>
        simp only
        by_cases hh : here old = true
        · simp [hh]
        · simp only [hh, Bool.false_eq_true, if_false]
          cases versionHashLookup reg p with
          | none => cases n <;> simp [prevWalk]
          | some t' => simpa using ih t'

theorem walkNext_find {here : Bytes → Bool} {t t' : VersionHash}
    (h : walkNext reg here key t = some t') : reg.find t'.ns = some t' := by
  unfold walkNext at h
  split at h
  · cases h
  · split at h
    · cases h
    · split at h
      · cases h
      · exact versionHashLookup_find h

theorem Reg.mem_records (h : reg.find v.ns = some v) : v ∈ reg.tbl.entries.map Sigma.snd :=
  List.mem_map.mpr ⟨⟨v.ns, v⟩, AList.mem_lookup_iff.mp h, rfl⟩

/-- **The walk runs out of its bound only when it never ends.** -/
theorem prevWalk_diverge {here : Bytes → Bool}
    (h : prevWalk reg here key (walkFuel reg) (some v) = .error .diverge) (n : Nat) :
    prevWalk reg here key n (some v) = .error .diverge := by
  rw [prevWalk_diverge_iff] at h ⊢
  cases n with
  | zero => rfl
  | succ n =>
    rw [walkFuel, iter] at h
    rw [iter]
    cases hs : walkNext reg here key v with
    | none => rw [hs] at h; cases h
    | some t =>
      rw [hs, Option.bind_some] at h
      rw [Option.bind_some]
      -- from the second record on, the walk stays among the registered records
      have hin : ∀ m u, iter (walkNext reg here key) m t = some u →
          u ∈ reg.tbl.entries.map Sigma.snd := by
        intro m u hu
        apply Reg.mem_records
        cases m with
        | zero => cases hu; exact walkNext_find hs
        | succ m =>
          rw [iter_add, Option.bind_eq_some_iff] at hu
          obtain ⟨w, -, hw⟩ := hu
          simp only [iter] at hw
          cases hs' : walkNext reg here key w with
          | none => rw [hs'] at hw; cases hw
          | some w' =>
            rw [hs'] at hw
            cases hw
            exact walkNext_find hs'
      refine iter_forever hin (iter_isSome_le h ?_) n
      simp [Reg.size, AList.keys, List.keys]

/-- The key is absent under its name in the namespace before, so that the walk goes on. -/
def GoesOn (here : Bytes → Bool) (key : Bytes) (t : VersionHash) : Prop :=
  ∃ p, t.prevNs = some p ∧ (constructPrevName key p).any fun old => !here old

theorem walkNext_eq {here : Bytes → Bool} {t t' : VersionHash}
    (ht : ∀ p, t.prevNs = some p → colon ∉ p) :
    walkNext reg here key t = some t' ↔ GoesOn here key t ∧ reg.find [42] = some t' := by
  unfold walkNext GoesOn
  cases hp : t.prevNs with
  | none => simp
  | some p =>
    have hstar : versionHashLookup reg p = reg.find [42] := by
      rw [versionHashLookup_eq, cstr_eq_self (t.prevC p hp), rsplit_eq_none.mpr (ht p hp)]
    cases hc : constructPrevName key p with
    | none => simp [hc]
    | some old => cases hh : here old <;> simp [hc, hh, hstar]

/-- **When the search for a value never ends.** The name of a predecessor is looked up as if it were
a key. Without a colon in it that leads to `*`, and from there to `*` again. -/
theorem walk_hangs_iff (reg : Reg) (here : Bytes → Bool) (key : Bytes) (v : VersionHash)
    (hplain : ∀ t p, t = v ∨ reg.find [42] = some t → t.prevNs = some p → colon ∉ p) :
    (∀ n, prevWalk reg here key n (some v) = .error .diverge) ↔
      GoesOn here key v ∧ ∃ star, reg.find [42] = some star ∧ GoesOn here key star := by
  simp only [prevWalk_diverge_iff]
  have hnext : ∀ {t}, walkNext reg here key v = some t ↔ _ := walkNext_eq fun p => hplain v p (.inl rfl)
  constructor
  · intro h
    have h₂ := h 2
    cases hs : walkNext reg here key v with
    | none => simp [iter, hs] at h₂
    | some star =>
      obtain ⟨hv, hstar⟩ := hnext.mp hs
      obtain ⟨u, hu⟩ := Option.isSome_iff_exists.mp (show (walkNext reg here key star).isSome by
        cases hw : walkNext reg here key star <;> simp [iter, hs, hw] at h₂ ⊢)
      exact ⟨hv, star, hstar, ((walkNext_eq fun p => hplain star p (.inr hstar)).mp hu).1⟩
  · rintro ⟨hv, star, hstar, hpass⟩ n
    have hloop : ∀ n, iter (walkNext reg here key) n star = some star := by
      intro n
      induction n with
      | zero => rfl
      | succ n ih =>
        rw [iter, (walkNext_eq fun p => hplain star p (.inr hstar)).mpr ⟨hpass, hstar⟩]
        exact ih
    cases n with
    | zero => rfl
    | succ n => rw [iter, hnext.mpr ⟨hv, hstar⟩, Option.bind_some, hloop n]; rfl

def madeOf (ns old : String) (h : NulFree (lit old)) : VersionHash :=
  { VersionHash.first (lit ns) 1 ∅ with
    prevNs := some (lit old)
    prevC := fun _ hp => Option.some.inj hp ▸ h }

/-- `b` was made of `a`, and `*` of `x`: the absent key `b:k`. -/
theorem walk_hangs_star : prevWalk (Reg.empty.set (madeOf "*" "x" (by decide))) (fun _ => false)
    (lit "b:k") 9 (some (madeOf "b" "a" (by decide))) = .error .diverge := by
  refine (walk_hangs_iff _ _ _ _ ?_).mpr ⟨⟨_, rfl, by decide⟩, _, rfl, _, rfl, by decide⟩ 9
  rintro t p (rfl | ht) hp
  · cases hp
    decide
  · cases ht
    cases hp
    decide

end SchemaUpdate.KVolve
