import SchemaUpdate.Lur.Entries

/-! # One copy of each key

`set` deletes older copies only when the current name was free, so that it relies on
there being no second copy in the first place. Every call keeps that, and so do loads
as long as no namespace comes back under a name that was renamed away. -/

namespace SchemaUpdate.Lur

open SchemaUpdate.Lib

/-! ## One call -/

def OneCopy (r : Redis) (name : Bytes) (vl : List (Ver × Ns)) : Prop :=
  ∀ p ∈ copies name vl, ∀ p' ∈ copies name vl, (r.find p).isSome → (r.find p').isSome → p = p'

/-- What a call on a key may do: it makes no name but the current one, and no second copy. -/
structure CallEffect (name : Bytes) (cur : Ver × Ns) (vl : List (Ver × Ns)) (r r' : Redis) :
    Prop where
  grows : ∀ p, (r'.find p).isSome → (r.find p).isSome ∨ p = versioned cur.1 name
  oneCopy : OneCopy r name (cur :: vl) → OneCopy r' name (cur :: vl)

section

variable {J : Type} {py : Py J} {c : Client J} {name : Bytes} {cur : Ver × Ns}
  {vl : List (Ver × Ns)} {r r' : Redis}

theorem CallEffect.refl : CallEffect name cur vl r r := ⟨fun _ h => .inl h, id⟩

theorem CallEffect.of_current
    (hgrows : ∀ p, (r'.find p).isSome → (r.find p).isSome ∨ p = versioned cur.1 name)
    (hone : OneCopy r name (cur :: vl) → ∀ p ∈ copies name (cur :: vl), (r'.find p).isSome →
      p = versioned cur.1 name) : CallEffect name cur vl r r' := by
  refine ⟨hgrows, fun h p hp p' hp' hf hf' => ?_⟩
  rw [hone h p hp hf, hone h p' hp' hf']

theorem Redis.isSome_find_put {k p : Bytes} {x : Option Item}
    (h : ((r.put k x).find p).isSome) : p = k ∨ (r.find p).isSome := by
  rw [Redis.find_put] at h
  split at h
  · exact .inl ‹_›
  · exact .inr h

theorem isSome_find_write {new val p : Bytes} {ms : Int} (h : (((if ms < 0 then Write.set new val
    else .psetex new ms val).apply r).2.find p).isSome) : p = new ∨ (r.find p).isSome := by
  split at h
  · exact Redis.isSome_find_put h
  · simp only [Write.apply] at h
    split at h
    · exact .inr h
    · exact Redis.isSome_find_put h

theorem callEffect_move {orig found val : Bytes} (hmem : orig ∈ copies name (cur :: vl))
    (hthere : (r.find orig).isSome) :
    CallEffect name cur vl r (moveAlone orig (versioned cur.1 name) found val r).2 := by
  -- every name that is there afterwards was there and is not the old one, or is the current one
  have hfind : ∀ p, ((moveAlone orig (versioned cur.1 name) found val r).2.find p).isSome →
      ((r.find p).isSome ∧ p ≠ orig) ∨ p = versioned cur.1 name ∨
        (moveAlone orig (versioned cur.1 name) found val r).2 = r := by
    intro p hp
    unfold moveAlone at hp ⊢
    split at hp
    · rename_i hchanged
      rw [if_pos hchanged]
      simp only [applyAll] at hp
      have hdel : ∀ s : Redis, (Write.apply (.del orig) s).2 = s.del orig := fun _ => rfl
      rw [hdel, Redis.find_del] at hp
      split at hp
      · cases hp
      · rename_i hne
        obtain h | h := isSome_find_write hp
        · exact .inr (.inl h)
        · exact .inl ⟨h, hne⟩
    · rename_i hsame
      rw [if_neg hsame]
      simp only [applyAll, Write.apply] at hp ⊢
      split at hp
      · exact .inr (.inr rfl)
      · split at hp
        · rename_i heq
          rw [if_pos heq]
          exact .inr (.inr rfl)
        · obtain h | h := Redis.isSome_find_put hp
          · exact .inr (.inl h)
          · rw [Redis.find_put_none] at h
            split at h
            · cases h
            · exact .inl ⟨h, ‹_›⟩
  by_cases hr : (moveAlone orig (versioned cur.1 name) found val r).2 = r
  · rw [hr]
    exact CallEffect.refl
  · refine CallEffect.of_current ?_ ?_
    · intro p hp
      obtain h | h | h := hfind p hp
      · exact .inl h.1
      · exact .inr h
      · exact absurd h hr
    · intro hone p hmem' hp
      obtain h | h | h := hfind p hp
      · exact absurd (hone p hmem' orig hmem h.1 hthere) h.2
      · exact h
      · exact absurd h hr

theorem firstFound_some {vals : List (Option Bytes)} {i : Nat} {v : Bytes}
    (h : firstFound vals = some (i, v)) : vals[i]? = some (some v) := by
  induction vals generalizing i with
  | nil => cases h
  | cons x vals ih =>
    cases x with
    | some y =>
      simp only [firstFound, Option.some.injEq, Prod.mk.injEq] at h
      rw [← h.1, ← h.2]
      rfl
    | none =>
      simp only [firstFound, Option.map_eq_some_iff] at h
      obtain ⟨⟨j, w⟩, hj, hp⟩ := h
      cases hp
      exact ih hj

theorem found_at {i : Nat} {v : Bytes} {e : Ver × Ns}
    (h : firstFound ((potentialKeys name vl).map r.val?) = some (i, v)) (he : vl[i]? = some e) :
    r.val? (nameAt name e) = some v := by
  have hi := firstFound_some h
  simpa [potentialKeys, he] using hi

theorem callEffect_getAll (hcur : nameAt name cur = versioned cur.1 name) :
    CallEffect name cur vl r (getAllAlone py c name cur vl r).2 := by
  unfold getAllAlone
  split
  · rename_i hnone
    rw [hcur]
    refine CallEffect.of_current ?_ ?_
    · intro p hp
      obtain h | h := Redis.isSome_find_put hp
      · exact .inr h
      · exact .inl h
    · intro _ p hmem hp
      obtain h | h := Redis.isSome_find_put hp
      · exact h
      · -- no name of the key was there
        exfalso
        have hall := firstFound_none.mp hnone
        have hmem : p ∈ potentialKeys name (cur :: vl) := by
          obtain hm | hm | hm := mem_copies_cons.mp hmem
          · rw [hm, ← hcur]
            exact List.mem_cons_self
          · rw [hm]
            exact List.mem_cons_self
          · exact List.mem_cons_of_mem _ hm
        have hp := List.all_eq_true.mp hall (r.val? p) (List.mem_map_of_mem hmem)
        rw [Redis.val?, Option.isNone_map, Option.isNone_iff_eq_none] at hp
        rw [hp] at h
        cases h
  · exact CallEffect.refl
  · rename_i idx v hfound
    split
    · exact CallEffect.refl
    · rename_i e he
      split
      · exact CallEffect.refl
      · refine callEffect_move (nameAt_mem_copies name ?_) ?_
        · exact List.mem_cons_of_mem _ (List.mem_of_getElem? he)
        · have hval := found_at hfound (show (cur :: vl)[idx + 1]? = some e by simpa using he)
          rw [Redis.val?, Option.map_eq_some_iff] at hval
          obtain ⟨x, hx, -⟩ := hval
          rw [hx]
          rfl

theorem callEffect_get (hc : Knows c name (cur :: vl))
    (hcur : nameAt name cur = versioned cur.1 name) (depth : Nat) :
    CallEffect name cur vl r ((get py c name depth).run serve r).2 := by
  cases depth with
  | zero => exact CallEffect.refl
  | succ depth =>
    rw [run_get py hc, getAlone]
    split
    · exact callEffect_getAll hcur
    · split
      · exact CallEffect.refl
      · split
        · exact CallEffect.refl
        · exact callEffect_getAll hcur

theorem callEffect_delOlder (hcur : nameAt name cur = versioned cur.1 name)
    (hgrows : ∀ p, (r'.find p).isSome → (r.find p).isSome ∨ p = versioned cur.1 name) :
    CallEffect name cur vl r ((potentialKeys name vl).foldl Redis.del r') := by
  have hfind : ∀ p, (((potentialKeys name vl).foldl Redis.del r').find p).isSome →
      p ∉ potentialKeys name vl ∧ (r'.find p).isSome := by
    intro p hp
    rw [Redis.find_delAll] at hp
    split at hp
    · cases hp
    · exact ⟨‹_›, hp⟩
  refine CallEffect.of_current (fun p hp => hgrows p (hfind p hp).2) ?_
  intro _ p hmem hp
  obtain h | h | h := mem_copies_cons.mp hmem
  · exact h
  · rw [h, hcur]
  · exact absurd h (hfind p hp).1

variable (hc : Knows c name (cur :: vl))

include hc

theorem callEffect_set
    (hcur : nameAt name cur = versioned cur.1 name) (value : Bytes) (o : SetOpts) :
    CallEffect name cur vl r ((set c name value o).run serve r).2 := by
  have hput : ∀ x p, ((r.put (versioned cur.1 name) x).find p).isSome →
      (r.find p).isSome ∨ p = versioned cur.1 name := by
    intro x p hp
    obtain h | h := Redis.isSome_find_put hp
    · exact .inr h
    · exact .inl h
  rw [run_set hc, setAlone]
  split
  · refine callEffect_delOlder hcur ?_
    intro p hp
    unfold serveSet at hp
    split at hp
    · exact .inl hp
    · split at hp
      · exact .inl hp
      · exact hput _ p hp
  · split
    · rename_i x hx
      refine CallEffect.of_current (hput _) ?_
      intro hone p hmem hp
      obtain h | h := hput _ p hp
      · exact hone p hmem _ current_mem_copies h (by rw [hx]; rfl)
      · exact h
    · exact callEffect_delOlder hcur (hput _)

theorem callEffect_delete (hcur : nameAt name cur = versioned cur.1 name) :
    CallEffect name cur vl r ((delete c [name]).run serve r).2 := by
  rw [run_delete hc]
  have hfind : ∀ p, (((potentialKeys name (cur :: vl)).foldl Redis.del r).find p).isSome →
      p ∉ potentialKeys name (cur :: vl) ∧ (r.find p).isSome := by
    intro p hp
    rw [Redis.find_delAll] at hp
    split at hp
    · cases hp
    · exact ⟨‹_›, hp⟩
  refine CallEffect.of_current (fun p hp => .inl (hfind p hp).2) ?_
  intro _ p hmem hp
  obtain h | h | h := mem_copies_cons.mp hmem
  · exact h
  · rw [h, hcur]
  · exact absurd (List.mem_cons_of_mem _ h) (hfind p hp).1

/-- **Every call on a key keeps a single copy of it.** -/
theorem KeyCall.effect
    (hcur : nameAt name cur = versioned cur.1 name) (depth : Nat) (call : KeyCall) :
    CallEffect name cur vl r ((call.prog py c name depth).run serve r).2 := by
  cases call with
  | get =>
    rw [KeyCall.prog, Prog.run_bind]
    exact callEffect_get hc hcur depth
  | set value o =>
    rw [KeyCall.prog, Prog.run_bind]
    exact callEffect_set hc hcur value o
  | delete =>
    rw [KeyCall.prog, Prog.run_bind]
    exact callEffect_delete hc hcur
  | ttl =>
    rw [KeyCall.prog, Prog.run_bind, Lur.ttl, hc.currVersion]
    exact CallEffect.refl
  | pttl =>
    rw [KeyCall.prog, Prog.run_bind, Lur.pttl, hc.currVersion]
    exact CallEffect.refl

end

/-! ## The invariant -/

/-- A namespace name stands in the list of one namespace only. -/
def Owned (L : VersionLists) : Prop := ∀ n m e e', e ∈ L n → e' ∈ L m → e.2 = e'.2 → n = m

/-- Every key is where a client put it, once. The keys of the default namespace and those of
the others have different families of names, and each family has one member at most. -/
structure Single (r : Redis) : Prop where
  ownHead : OwnHead r.versions
  barFree : BarFree r.versions
  owned : Owned r.versions
  written : ∀ p, (r.find p).isSome → ∃ m e s, e ∈ r.versions m ∧ colon ∉ s ∧ p = writtenAt e s
  single : ∀ m e e' s, e ∈ r.versions m → e' ∈ r.versions m → (e.2 = star ↔ e'.2 = star) →
    colon ∉ s → (r.find (writtenAt e s)).isSome → (r.find (writtenAt e' s)).isSome →
    writtenAt e s = writtenAt e' s

variable {e : Ver × Ns}

theorem writtenAt_inj {e' : Ver × Ns} {s s' : Bytes} (he : bar ∉ e.1) (he' : bar ∉ e'.1)
    (hs : colon ∉ s) (hs' : colon ∉ s') (h : writtenAt e s = writtenAt e' s') :
    e = e' ∧ s = s' := by
  obtain ⟨hv, hrest⟩ := versioned_inj he he' h
  unfold logicalName at hrest
  by_cases hn : e.2 = star
  · by_cases hn' : e'.2 = star
    · rw [if_pos hn, if_pos hn'] at hrest
      exact ⟨Prod.ext hv (hn.trans hn'.symm), hrest⟩
    · rw [if_pos hn, if_neg hn'] at hrest
      exact absurd (by rw [hrest]; simp) hs
  · by_cases hn' : e'.2 = star
    · rw [if_neg hn, if_pos hn'] at hrest
      exact absurd (by rw [← hrest]; simp) hs'
    · rw [if_neg hn, if_neg hn'] at hrest
      obtain ⟨hns, hsuf⟩ := join_inj hs hs' hrest
      exact ⟨Prod.ext hv hns, hsuf⟩

theorem nameAt_eq_writtenAt {name : Bytes} (hns : (splitNamespaceKey name).1 ≠ star)
    (he : e.2 ≠ star) : nameAt name e = writtenAt e (splitNamespaceKey name).2 := by
  rw [nameAt, physical, if_pos hns, writtenAt, logicalName, if_neg he]

theorem nameAt_eq_writtenAt_star {name : Bytes} (hns : (splitNamespaceKey name).1 = star) :
    nameAt name e = writtenAt (e.1, star) (splitNamespaceKey name).2 := by
  rw [nameAt, physical, if_neg (by simp [hns]), writtenAt, logicalName, if_pos rfl]

section

variable {r r' : Redis} {name : Bytes} {e : Ver × Ns} {m : Ns} (h : Single r)

include h

theorem Single.own {n : Ns} (hn : r.versions n ≠ []) (he : e ∈ r.versions m)
    (hns : e.2 = n) : m = n := by
  obtain ⟨cur, vl, hvl⟩ := List.exists_cons_of_ne_nil hn
  have hcur : cur.2 = n := h.ownHead n cur (by rw [hvl]; rfl)
  exact h.owned m n e cur he (by rw [hvl]; simp) (hns.trans hcur.symm)

theorem Single.nameAt_written {e' : Ver × Ns} {s : Bytes}
    (he : e ∈ r.versions (splitNamespaceKey name).1) (he' : e' ∈ r.versions m) (hs : colon ∉ s)
    (heq : nameAt name e = writtenAt e' s) :
    m = (splitNamespaceKey name).1 ∧ s = (splitNamespaceKey name).2 ∧
      (e'.2 = star ↔ (splitNamespaceKey name).1 = star) := by
  have hbar := h.barFree _ e he
  have hbar' := h.barFree m e' he'
  have hsuf := colon_not_mem_suffix name
  by_cases hns : (splitNamespaceKey name).1 = star
  · rw [nameAt_eq_writtenAt_star hns] at heq
    obtain ⟨hee, hss⟩ := writtenAt_inj (e := (e.1, star)) hbar hbar' hsuf hs heq
    have hstar : e'.2 = star := by rw [← hee]
    refine ⟨h.own ?_ he' (hstar.trans hns.symm), hss.symm, by simp [hns, hstar]⟩
    exact List.ne_nil_of_mem he
  · obtain ⟨hv, hrest⟩ := versioned_inj hbar hbar' (by
      simpa only [nameAt, physical, if_pos hns, writtenAt] using heq)
    unfold logicalName at hrest
    by_cases hstar : e'.2 = star
    · rw [if_pos hstar] at hrest
      exact absurd (by rw [← hrest]; simp) hs
    · rw [if_neg hstar] at hrest
      obtain ⟨hn, hss⟩ := join_inj hsuf hs hrest
      refine ⟨h.owned m _ e' e he' he hn.symm, hss.symm, by simp [hns, hstar]⟩

/-- **What the invariant says of a key**: at most one of its names is there. -/
theorem Single.oneName {p p' : Bytes}
    (hp : p ∈ potentialKeys name (r.versions (splitNamespaceKey name).1))
    (hp' : p' ∈ potentialKeys name (r.versions (splitNamespaceKey name).1))
    (hf : (r.find p).isSome) (hf' : (r.find p').isSome) : p = p' := by
  obtain ⟨e, he, rfl⟩ := List.mem_map.mp hp
  obtain ⟨e', he', rfl⟩ := List.mem_map.mp hp'
  obtain ⟨m, d, s, hd, hs, heq⟩ := h.written _ hf
  obtain ⟨m', d', s', hd', hs', heq'⟩ := h.written _ hf'
  obtain ⟨rfl, rfl, hstar⟩ := h.nameAt_written he hd hs heq
  obtain ⟨rfl, rfl, hstar'⟩ := h.nameAt_written he' hd' hs' heq'
  rw [heq] at hf ⊢
  rw [heq'] at hf' ⊢
  exact h.single _ d d' _ hd hd' (hstar.trans hstar'.symm) hs hf hf'

/-! ## Calls and time -/

theorem Single.copies_closed (hname : Plain name) {e' : Ver × Ns} {s : Bytes}
    (he : e ∈ r.versions m) (he' : e' ∈ r.versions m) (hstar : e.2 = star ↔ e'.2 = star)
    (hs : colon ∉ s) (hp : writtenAt e s ∈ copies name (r.versions (splitNamespaceKey name).1)) :
    writtenAt e' s ∈ copies name (r.versions (splitNamespaceKey name).1) := by
  obtain ⟨d, hd, heq⟩ := mem_copies h.ownHead hname hp
  obtain ⟨rfl, rfl, hns⟩ := h.nameAt_written hd he hs heq.symm
  by_cases hn : (splitNamespaceKey name).1 = star
  · have he's : e' = (e'.1, star) := Prod.ext rfl (hstar.mp (hns.mpr hn))
    rw [he's, ← nameAt_eq_writtenAt_star hn]
    exact nameAt_mem_copies name he'
  · have hne : e'.2 ≠ star := fun h' => hn (hns.mp (hstar.mpr h'))
    rw [← nameAt_eq_writtenAt hn hne]
    exact nameAt_mem_copies name he'

theorem Single.oneCopy (hname : Plain name) {vl : List (Ver × Ns)}
    (hvl : r.versions (splitNamespaceKey name).1 = vl) : OneCopy r name vl := by
  intro p hp p' hp' hf hf'
  rw [← hvl] at hp hp'
  obtain ⟨e, he, rfl⟩ := mem_copies h.ownHead hname hp
  obtain ⟨e', he', rfl⟩ := mem_copies h.ownHead hname hp'
  exact h.oneName (List.mem_map_of_mem he) (List.mem_map_of_mem he') hf hf'

theorem Single.call (hname : Plain name) {cur : Ver × Ns} {vl : List (Ver × Ns)}
    (hvl : r.versions (splitNamespaceKey name).1 = cur :: vl)
    (hout : Outside (copies name (cur :: vl)) r r') (heff : CallEffect name cur vl r r') :
    Single r' := by
  have hcur : cur.2 = (splitNamespaceKey name).1 := h.ownHead _ cur (by rw [hvl]; rfl)
  have hmem : cur ∈ r.versions (splitNamespaceKey name).1 := by rw [hvl]; simp
  -- the current name is the one the key is written under
  have hnew : versioned cur.1 name = writtenAt cur (splitNamespaceKey name).2 := by
    rw [writtenAt, hcur, logicalName, ← hname.eq_join]
  have hone' := heff.oneCopy (h.oneCopy hname hvl)
  rw [← hvl] at hone' hout
  refine ⟨hout.versions ▸ h.ownHead, hout.versions ▸ h.barFree, hout.versions ▸ h.owned, ?_, ?_⟩
  · intro p hp
    rw [hout.versions]
    obtain hp | rfl := heff.grows p hp
    · exact h.written p hp
    · exact ⟨_, cur, _, hmem, colon_not_mem_suffix name, hnew⟩
  · intro m e e' s he he' hstar hs hf hf'
    rw [hout.versions] at he he'
    by_cases hin : writtenAt e s ∈ copies name (r.versions (splitNamespaceKey name).1)
    · exact hone' _ hin _ (h.copies_closed hname he he' hstar hs hin) hf hf'
    · by_cases hin' : writtenAt e' s ∈ copies name (r.versions (splitNamespaceKey name).1)
      · exact hone' _ (h.copies_closed hname he' he hstar.symm hs hin') _ hin' hf hf'
      · rw [hout.find hin] at hf
        rw [hout.find hin'] at hf'
        exact h.single m e e' s he he' hstar hs hf hf'

theorem Single.fewer (hv : r'.versions = r.versions)
    (hf : ∀ p, (r'.find p).isSome → (r.find p).isSome) : Single r' := by
  refine ⟨hv ▸ h.ownHead, hv ▸ h.barFree, hv ▸ h.owned, fun p hp => ?_, ?_⟩
  · rw [hv]
    exact h.written p (hf p hp)
  · intro m e e' s he he' hstar hs hp hp'
    rw [hv] at he he'
    exact h.single m e e' s he he' hstar hs (hf _ hp) (hf _ hp')

theorem Single.tick (ms : Nat) : Single (serve (.tick ms) r).2 := by
  refine h.fewer rfl fun p hp => ?_
  obtain ⟨x, hx⟩ := Option.isSome_iff_exists.mp hp
  obtain ⟨hlook, hlive⟩ := Option.filter_eq_some_iff.mp hx
  have hr : r.find p = some x := by
    refine Option.filter_eq_some_iff.mpr ⟨hlook, ?_⟩
    obtain ⟨v, expire⟩ := x
    cases expire with
    | none => rfl
    | some t =>
      have hlive : r.now + ms < t := of_decide_eq_true hlive
      simp only [Option.all_some, decide_eq_true_eq]
      omega
  rw [hr]
  rfl

/-! ## Loads -/

omit h

/-- No list has an entry with the name that a list is made for. -/
def NewName : Cmd → Redis → Prop
  | .exec _ [.lpush ns _], r => r.versions ns = [] → ∀ m, ∀ e ∈ r.versions m, e.2 ≠ ns
  | .exec _ [.rpush ns _, .delVersions _], r => ∀ m, ∀ e ∈ r.versions m, e.2 ≠ ns
  | _, _ => True

theorem Single.push (h : Single r) {v : Ver} {ns : Ns} (hv : bar ∉ v)
    (hnew : r.versions ns = [] → ∀ m, ∀ e ∈ r.versions m, e.2 ≠ ns) :
    Single (r.setVersions ns ((v, ns) :: r.versions ns)) := by
  have hvers : (r.setVersions ns ((v, ns) :: r.versions ns)).versions =
      pushed r.versions v ns := rfl
  have hown : ∀ m e, e ∈ r.versions m → e.2 = ns → m = ns := by
    intro m e he hns
    by_cases hempty : r.versions ns = []
    · exact absurd hns (hnew hempty m e he)
    · exact h.own hempty he hns
  have hold : ∀ m e s, e ∈ pushed r.versions v ns m → colon ∉ s →
      (r.find (writtenAt e s)).isSome → e ∈ r.versions m := by
    intro m e s he hs hf
    rw [mem_pushed] at he
    obtain ⟨rfl, rfl⟩ | he := he
    · obtain ⟨m', e', s', he', hs', heq⟩ := h.written _ hf
      obtain ⟨rfl, -⟩ := writtenAt_inj hv (h.barFree m' e' he') hs hs' heq
      have hm := hown m' _ he' rfl
      rw [hm] at he'
      exact he'
    · exact he
  refine ⟨head_pushed h.ownHead v ns, ?_, ?_, ?_, ?_⟩
  · intro n e he
    rw [hvers, mem_pushed] at he
    obtain ⟨-, rfl⟩ | he := he
    · exact hv
    · exact h.barFree n e he
  · intro n m e e' he he' hee
    rw [hvers, mem_pushed] at he he'
    obtain ⟨rfl, rfl⟩ | he := he
    · obtain ⟨rfl, -⟩ | he' := he'
      · rfl
      · exact (hown m e' he' hee.symm).symm
    · obtain ⟨rfl, rfl⟩ | he' := he'
      · exact hown n e he hee
      · exact h.owned n m e e' he he' hee
  · intro p hp
    obtain ⟨m, e, s, he, hs, rfl⟩ := h.written p hp
    exact ⟨m, e, s, mem_pushed.mpr (.inr he), hs, rfl⟩
  · intro m e e' s he he' hstar hs hf hf'
    exact h.single m e e' s (hold m e s he hs hf) (hold m e' s he' hs hf') hstar hs hf hf'

theorem Single.move (h : Single r) {oldns ns : Ns} {v : Ver} (hne : oldns ≠ ns)
    (hns : r.versions ns = []) (hv : bar ∉ v) (hnew : ∀ m, ∀ e ∈ r.versions m, e.2 ≠ ns) :
    Single ((r.setVersions ns ((v, ns) :: r.versions oldns)).setVersions oldns []) := by
  have hvers : ((r.setVersions ns ((v, ns) :: r.versions oldns)).setVersions oldns []).versions =
      moved r.versions oldns ns v := rfl
  -- a name that is there belongs to an entry that was there
  have hold : ∀ m e s, e ∈ moved r.versions oldns ns v m → colon ∉ s →
      (r.find (writtenAt e s)).isSome →
      e ∈ r.versions (if m = ns then oldns else m) := by
    intro m e s he hs hf
    rw [mem_moved hne hns] at he
    obtain ⟨rfl, rfl | he⟩ | ⟨-, he⟩ := he
    · obtain ⟨m', e', s', he', hs', heq⟩ := h.written _ hf
      obtain ⟨rfl, -⟩ := writtenAt_inj hv (h.barFree m' e' he') hs hs' heq
      exact absurd rfl (hnew m' _ he')
    · rw [if_pos rfl]
      exact he
    · rw [if_neg]
      · exact he
      · rintro rfl
        rw [hns] at he
        cases he
  refine ⟨head_moved h.ownHead oldns ns v, ?_, ?_, ?_, ?_⟩
  · intro n e he
    rw [hvers, mem_moved hne hns] at he
    obtain ⟨-, rfl | he⟩ | ⟨-, he⟩ := he
    · exact hv
    · exact h.barFree oldns e he
    · exact h.barFree n e he
  · intro n m e e' he he' hee
    rw [hvers, mem_moved hne hns] at he he'
    obtain ⟨rfl, he⟩ | ⟨hn, he⟩ := he
    · obtain ⟨rfl, -⟩ | ⟨hm, he'⟩ := he'
      · rfl
      · obtain rfl | he := he
        · exact absurd hee.symm (hnew m e' he')
        · exact absurd (h.owned oldns m e e' he he' hee).symm hm
    · obtain ⟨rfl, he'⟩ | ⟨hm, he'⟩ := he'
      · obtain rfl | he' := he'
        · exact absurd hee (hnew n e he)
        · exact absurd (h.owned n oldns e e' he he' hee) hn
      · exact h.owned n m e e' he he' hee
  · intro p hp
    obtain ⟨m, e, s, he, hs, rfl⟩ := h.written p hp
    refine ⟨if m = oldns then ns else m, e, s, ?_, hs, rfl⟩
    rw [hvers, mem_moved hne hns]
    by_cases hm : m = oldns
    · subst hm
      exact .inl ⟨by simp, .inr he⟩
    · rw [if_neg hm]
      exact .inr ⟨hm, he⟩
  · intro m e e' s he he' hstar hs hf hf'
    exact h.single _ e e' s (hold m e s he hs hf) (hold m e' s he' hs hf') hstar hs hf hf'

theorem single_init (now : Int) : Single (Redis.init now) := by
  refine ⟨fun _ _ h => by simp [Redis.init] at h, fun _ _ h => absurd h List.not_mem_nil,
    fun _ _ _ _ h => absurd h List.not_mem_nil, fun p hp => ?_,
    fun _ _ _ _ h => absurd h List.not_mem_nil⟩
  simp [Redis.init, Redis.find] at hp

end

/-! ## Runs -/

section

variable {J : Type}

/-- The version names have no bar, and no namespace comes back under a name that was renamed
away. -/
def GoodName (cmd : Cmd) (r : Redis) : Prop := PlainVersion cmd ∧ NewName cmd r

/-- A client at the current versions loads updates, and every key has one copy. -/
structure Sound (c : Client J) (r : Redis) : Prop where
  single : Single r
  current : AtCurrent c r

theorem sound_versInv : VersInv (J := J) GoodName Sound Single where
  toStore _ _ h := h.single
  setNsVersion _ _ _ _ h := ⟨h.single, h.current⟩
  adopt _ _ ns h := ⟨h.single, h.current.adopt ns⟩
  push _ _ ns _ _ h hcond := ⟨h.single.push hcond.1 hcond.2, h.current.setVersDict ns _⟩
  move _ _ oldns ns _ _ hne hns _ h hcond :=
    ⟨h.single.move hne hns hcond.1 hcond.2, (h.current.setVersDict ns _).forget oldns []⟩
  addRule _ _ _ _ h := ⟨h.single, h.current⟩
  hset _ _ _ _ h := ⟨h.single.fewer rfl fun _ hp => hp, h.current⟩

theorem Sound.call (py : Py J) {c : Client J} {r : Redis} (h : Sound c r) {name : Bytes}
    (hname : Plain name) (depth : Nat) (call : KeyCall) :
    Sound c ((call.prog py c name depth).run serve r).2 := by
  by_cases hknown : ∃ cur vl, Knows c name (cur :: vl)
  · obtain ⟨cur, vl, hc⟩ := hknown
    have hl := h.current _ _ hc
    have hcur := current_name h.single.ownHead hname hl.symm
    have hout := Outside.run (call.within py hc depth) r
    refine ⟨h.single.call hname hl.symm hout (call.effect hc hcur depth), ?_⟩
    intro ns l hnl
    rw [hout.versions]
    exact h.current ns l hnl
  · simp only [not_exists] at hknown
    rw [call.unknown hknown]
    exact h

/-- What may happen: a connect, a load, a call on a key, or time passes. -/
inductive Use (J : Type)
  | admin (a : Admin J)
  | call (c : Client J) (name : Bytes) (which : KeyCall) (depth : Nat)
  | tick (ms : Nat)

def Use.step (py : Py J) (r : Redis) : Use J → Except Unit Redis
  | .admin a => a.step py r
  | .call c name which depth => .ok ((which.prog py c name depth).run serve r).2
  | .tick ms => .ok (serve (.tick ms) r).2

/-- The clients are at the current versions, no version name has a bar, no namespace comes back
under a name that was renamed away, and no key is spelled with the default namespace. -/
def Use.Proper (py : Py J) (r : Redis) : Use J → Prop
  | .admin (.connect nsVersions) => (Admin.connect nsVersions).Along py GoodName r
  | .admin (.load c d) => (Admin.load c d).Along py GoodName r ∧ AtCurrent c r ∧
      ∀ a ∈ d.adds, ∀ k ∈ a.keys, Plain k
  | .call c name _ _ => AtCurrent c r ∧ Plain name
  | .tick _ => True

/-- A call or a load leaves at most one copy of each key. -/
theorem Single.step {py : Py J} {r r' : Redis} {u : Use J} (h : Single r) (hu : u.Proper py r)
    (hstep : u.step py r = .ok r') : Single r' := by
  match u with
  | .tick ms =>
    cases hstep
    exact h.tick ms
  | .call c name which depth =>
    cases hstep
    exact (Sound.call py ⟨h, hu.1⟩ hu.2 depth which).single
  | .admin (.connect nsVersions) =>
    have hempty : Sound (J := J) Client.empty r := ⟨h, fun ns l hl => by cases hl⟩
    have hkeep := sound_versInv.connect py nsVersions Client.empty r hempty hu
    cases hstep
    revert hkeep
    cases (connect py nsVersions).alone Client.empty r with
    | mk out s =>
      obtain ⟨x, c⟩ := out
      cases x with
      | error e => exact id
      | ok x => exact Sound.single
  | .admin (.load c d) =>
    have hset : ∀ a ∈ d.adds, ∀ k ∈ a.keys, KeepsSet (J := J) Sound k := by
      intro a ha k hk c r value h
      have hcall := h.call py (hu.2.2 a ha k hk) 0 (.set value {})
      rw [KeyCall.prog, Prog.run_bind] at hcall
      exact hcall
    have hkeep := sound_versInv.doUpd py hset c r ⟨h, hu.2.1⟩ hu.1
    simp only [Use.step, Admin.step] at hstep
    split at hstep
    · rename_i hrun
      rw [hrun] at hkeep
      cases hstep
      exact hkeep.single
    · cases hstep

/-- **A single physical copy.** In every run of connects, calls and successful loads that is
proper, each key has at most one of its names in the store. -/
theorem single_copy (py : Py J) {now : Int} {us : List (Use J)} {r : Redis}
    (hrun : us.foldlM (Use.step py) (Redis.init now) = .ok r)
    (hproper : Along (Use.step py) (Use.Proper py) (Redis.init now) us) (name : Bytes) :
    ∀ p ∈ potentialKeys name (r.versions (splitNamespaceKey name).1),
      ∀ p' ∈ potentialKeys name (r.versions (splitNamespaceKey name).1),
        (r.find p).isSome → (r.find p').isSome → p = p' := by
  have h := Along.inv Single.step (single_init now) hproper hrun
  intro p hp p' hp'
  exact h.oneName hp hp'

end

theorem demoOwner_current : AtCurrent demoOwner demoMade := by
  intro ns l hl
  have hl : Function.update (fun _ => none) (lit "a") (some [(lit "v0", lit "a")]) ns = some l := hl
  rw [demoMade_versions]
  by_cases hns : ns = lit "a"
  · rw [hns, Function.update_self] at hl ⊢
    exact (Option.some.inj hl).symm
  · rw [Function.update_of_ne hns] at hl
    cases hl

theorem demo_single : ∃ r, [Use.admin (.connect demoConnect),
      .call demoOwner (lit "a:k") (.set (lit "1") {}) 0].foldlM (Use.step demoPy) (Redis.init 0) =
        .ok r ∧
    ∀ p ∈ potentialKeys (lit "a:k") (r.versions (splitNamespaceKey (lit "a:k")).1),
      ∀ p' ∈ potentialKeys (lit "a:k") (r.versions (splitNamespaceKey (lit "a:k")).1),
        (r.find p).isSome → (r.find p').isSome → p = p' := by
  obtain ⟨r, hr⟩ : ∃ r, [Use.admin (.connect demoConnect),
      .call demoOwner (lit "a:k") (.set (lit "1") {}) 0].foldlM (Use.step demoPy) (Redis.init 0) =
        .ok r := ⟨_, rfl⟩
  refine ⟨r, hr, single_copy demoPy hr ⟨?_, fun s hs => ⟨?_, fun _ _ => trivial⟩⟩ _⟩
  · refine And.intro ⟨trivial, trivial⟩ (And.intro ⟨trivial, trivial⟩ (And.intro ⟨?_, ?_⟩
      (And.intro ⟨trivial, trivial⟩ trivial)))
    · show bar ∉ lit "v0"
      decide
    · exact fun _ m e he => absurd he List.not_mem_nil
  · cases hs
    refine ⟨demoOwner_current, ?_⟩
    show lit "a:k" ≠ _
    decide

/-! ## Bars in version names -/

def barConnect : List (Ns × Ver) := [(lit "b", lit "v0|v1"), (lit "v1|b", lit "v0")]

def barLoad : Dsl Bytes where
  texts := some [(⟨lit "v0|v1", lit "w", lit "b", lit "b"⟩, .ok (lit "for b:*"))]
  adds := []
  fors := [⟨lit "b:*", some [], lit "b", lit "b", lit "v0|v1", lit "w"⟩]

def barMade : (Except PyErr Unit × Client Bytes) × Redis :=
  (connect demoPy barConnect).alone Client.empty (Redis.init 0)

def barClient : Client Bytes := ((doUpd demoPy barLoad).alone barMade.1.2 barMade.2).1.2

/-- A key of the one namespace is stored under an older name of a key of the other: `b:s` has
two names in the store. -/
theorem bar_second_copy : ∃ r, [Use.admin (.connect barConnect),
      .admin (.load barMade.1.2 barLoad), .call barClient (lit "b:s") (.set (lit "1") {}) 0,
      .call barClient (lit "v1|b:s") (.set (lit "2") {}) 0].foldlM (Use.step demoPy)
        (Redis.init 0) = .ok r ∧
    ∃ p ∈ potentialKeys (lit "b:s") (r.versions (lit "b")),
      ∃ p' ∈ potentialKeys (lit "b:s") (r.versions (lit "b")),
        (r.find p).isSome ∧ (r.find p').isSome ∧ p ≠ p' := by
  refine ⟨_, rfl, lit "w|b:s", by decide, lit "v0|v1|b:s", by decide, by decide, by decide, by decide⟩

end SchemaUpdate.Lur
