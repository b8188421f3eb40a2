import Mathlib.Data.Multiset.Defs
import SchemaUpdate.Lur.Veil

/-! # Looking up a missing key

A `get` of a key without a value leaves a placeholder. Two runs, one with and one
without such a `get`, have the same replies as long as nothing is asked that shows the
placeholder; a `set` of the key, or a `get` in the other run, makes the two stores meet
again. -/

namespace SchemaUpdate.Lur

open SchemaUpdate.Lib

/-! ## A hidden placeholder -/

/-- The second store has a placeholder under a name where the first has nothing. -/
structure Hidden (p : Bytes) (r r' : Redis) : Prop extends Agree (· = p) r r' where
  absent : r.find p = none
  there : ∀ d, (r'.later d).find p = some ⟨placeholder, none⟩

/-- The stores agree, or there is a hidden placeholder. -/
def Veiled (p : Bytes) (r r' : Redis) : Prop := Agree (fun _ => False) r r' ∨ Hidden p r r'

/-- The versions of every list are different. -/
def NoRepeat (L : VersionLists) : Prop := ∀ ns, ((L ns).map Prod.fst).Nodup

section

variable {p name : Bytes} {r r' s s' : Redis} {cur : Ver × Ns} {vl : List (Ver × Ns)}

theorem Agree.meet (h : Agree (· = p) r r') (hp : ∀ d, (r'.later d).find p = (r.later d).find p) :
    Agree (fun _ => False) r r' := by
  refine ⟨h.toSameBooks, fun d q _ => ?_⟩
  by_cases hq : q = p
  · rw [hq]
    exact hp d
  · exact h.find d q hq

theorem Hidden.call (h : Hidden p r r') {names : List Bytes} (hp : p ∉ names)
    (hagree : Agree (· = p) s s') (hout : Outside names r s) (hout' : Outside names r' s') :
    Hidden p s s' := by
  refine ⟨hagree, ?_, fun d => ?_⟩
  · rw [hout.find hp]
    exact h.absent
  · have hd := h.there d
    simp only [Redis.find, Redis.later, hout'.lookup p hp, hout'.now] at hd ⊢
    exact hd

theorem Hidden.others (h : Hidden p r r') (hone : OneCopy r' name (cur :: vl))
    (hp : p ∈ copies name (cur :: vl)) :
    ∀ q ∈ copies name (cur :: vl), r.find q = none ∧ (q ≠ p → r'.find q = none) := by
  have hthere : (r'.find p).isSome := by
    rw [← Redis.find_later_zero, h.there 0]
    rfl
  intro q hq
  by_cases hqp : q = p
  · rw [hqp]
    exact ⟨h.absent, fun hne => absurd rfl hne⟩
  · have hnone : r'.find q = none := by
      by_contra hsome
      exact hqp (hone q hq p hp (Option.isSome_iff_ne_none.mpr hsome) hthere)
    rw [← h.find_now hqp]
    exact ⟨hnone, fun _ => hnone⟩

theorem current_not_older {L : VersionLists} (hbar : BarFree L) (hrep : NoRepeat L)
    (hvl : L (splitNamespaceKey name).1 = cur :: vl) :
    versioned cur.1 name ∉ potentialKeys name vl := by
  intro hmem
  obtain ⟨e, he, heq⟩ := List.mem_map.mp hmem
  have hnodup := hrep (splitNamespaceKey name).1
  rw [hvl, List.map_cons, List.nodup_cons] at hnodup
  have hver : e.1 = cur.1 := by
    have hbe : bar ∉ e.1 := hbar _ e (by rw [hvl]; simp [he])
    have hbc : bar ∉ cur.1 := hbar _ cur (by rw [hvl]; simp)
    rw [nameAt, physical] at heq
    split at heq
    · exact (versioned_inj hbe hbc heq).1
    · exact (versioned_inj hbe hbc heq).1
  exact hnodup.1 (hver ▸ List.mem_map_of_mem he)

variable {J : Type} {py : Py J} {c : Client J}

theorem Hidden.get_current (py : Py J) (h : Hidden p r r') (hc : Knows c name (cur :: vl))
    (hone : OneCopy r' name (cur :: vl)) (hcur : nameAt name cur = versioned cur.1 name)
    (hp : p = versioned cur.1 name) (depth : Nat) :
    ((get py c name (depth + 1)).run serve r').1 = ((get py c name (depth + 1)).run serve r).1 ∧
      Agree (fun _ => False) ((get py c name (depth + 1)).run serve r).2
        ((get py c name (depth + 1)).run serve r').2 := by
  have hothers := h.others hone (by rw [hp]; exact current_mem_copies)
  have hnow : r'.val? (versioned cur.1 name) = some placeholder := by
    rw [Redis.val?, ← hp, ← Redis.find_later_zero, h.there 0]
    rfl
  have hnone : ∀ q ∈ copies name (cur :: vl), r.val? q = none := by
    intro q hq
    rw [Redis.val?, (hothers q hq).1]
    rfl
  have hfound : firstFound ((potentialKeys name (cur :: vl)).map r.val?) = none := by
    rw [firstFound_none, List.all_eq_true]
    intro v hv
    obtain ⟨q, hq, rfl⟩ := List.mem_map.mp hv
    rw [hnone q (potential_mem_copies hq)]
    rfl
  have hrun' : (get py c name (depth + 1)).run serve r' = (.ok none, r') := by
    rw [run_get py hc, getAlone, hnow]
    simp
  have hrun : (get py c name (depth + 1)).run serve r =
      (.ok none, r.put p (some ⟨placeholder, none⟩)) := by
    rw [run_get py hc, getAlone, hnone _ current_mem_copies]
    simp only [getAllAlone, hfound]
    rw [hcur, hp]
  rw [hrun, hrun']
  refine ⟨rfl, ⟨?_, fun d q _ => ?_⟩⟩
  · exact h.toSameBooks.both (sameBooks_put r p _) (SameBooks.refl r')
  · rw [Redis.find_later_put]
    by_cases hq : q = p
    · rw [hq, if_pos rfl, h.there d]
      rfl
    · rw [if_neg hq]
      exact h.find d q hq

theorem Hidden.set_current (h : Hidden p r r') (hc : Knows c name (cur :: vl))
    (hone : OneCopy r' name (cur :: vl)) (hold : versioned cur.1 name ∉ potentialKeys name vl)
    (hp : p = versioned cur.1 name) (value : Bytes) {o : SetOpts} (ho : o.nx = o.xx ∨
      ∃ e, ({ o with ex := truthy o.ex, px := truthy o.px } : SetOpts).expire r.now = .error e) :
    ((set c name value o).run serve r').1 = ((set c name value o).run serve r).1 ∧
      Veiled p ((set c name value o).run serve r).2 ((set c name value o).run serve r').2 := by
  have hothers := h.others hone (by rw [hp]; exact current_mem_copies)
  have hthere : r'.find (versioned cur.1 name) = some ⟨placeholder, none⟩ := by
    rw [← hp, ← Redis.find_later_zero, h.there 0]
  have habsent : r.find (versioned cur.1 name) = none := by rw [← hp]; exact h.absent
  -- deleting the older names changes nothing, on either side
  have hdel : ∀ x x', Agree (fun _ => False) (r.put p x) (r'.put p x') →
      Agree (fun _ => False) ((potentialKeys name vl).foldl Redis.del (r.put p x)) (r'.put p x') := by
    intro x x' hput
    refine ⟨hput.toSameBooks.both (sameBooks_delAll _ _) (SameBooks.refl _), fun d q _ => ?_⟩
    rw [Redis.find_later_delAll]
    split
    · rename_i hq
      have hqp : q ≠ p := fun heq => hold (by rw [← hp, ← heq]; exact hq)
      rw [Redis.find_later_put, if_neg hqp]
      exact Redis.find_later_none ((hothers q (mem_copies_cons.mpr (.inr (.inr hq)))).2 hqp) d
    · exact hput.find d q id
  have hput : ∀ x, Agree (fun _ => False) (r.put p x) (r'.put p x) := by
    intro x
    refine (h.toAgree.put p x).meet fun d => ?_
    rw [Redis.find_later_put, Redis.find_later_put, if_pos rfl, if_pos rfl, h.now]
  rw [run_set hc, run_set hc]
  unfold setAlone
  split
  · -- with options
    have hstay : Veiled p ((potentialKeys name vl).foldl Redis.del r)
        ((potentialKeys name vl).foldl Redis.del r') := by
      have hout : Outside (potentialKeys name vl) r ((potentialKeys name vl).foldl Redis.del r) :=
        Outside.delAll r fun k hk => hk
      have hout' : Outside (potentialKeys name vl) r' ((potentialKeys name vl).foldl Redis.del r') :=
        Outside.delAll r' fun k hk => hk
      exact .inr (h.call (by rw [hp]; exact hold) (h.toAgree.delAll _) hout hout')
    unfold serveSet
    rw [h.now]
    cases hexp : ({ o with ex := truthy o.ex, px := truthy o.px } : SetOpts).expire r.now with
    | error e => exact ⟨rfl, hstay⟩
    | ok expire =>
      have hflags : o.nx = o.xx := by
        obtain ho | ⟨e, he⟩ := ho
        · exact ho
        · rw [hexp] at he
          cases he
      simp only [habsent, hthere, hflags]
      cases o.xx with
      | true => exact ⟨rfl, hstay⟩
      | false =>
        simp only [Bool.false_and, Bool.or_self, Bool.false_eq_true, if_false, ← hp]
        exact ⟨trivial, .inl ((hput _).delAll _)⟩
  · rw [habsent, hthere]
    simp only [← hp]
    exact ⟨trivial, .inl (hdel _ _ (hput _))⟩

theorem Hidden.set_older (h : Hidden p r r') (hc : Knows c name (cur :: vl))
    (hone : OneCopy r' name (cur :: vl)) (hold : p ∈ potentialKeys name vl)
    (hp : p ≠ versioned cur.1 name) (value : Bytes) (o : SetOpts) :
    ((set c name value o).run serve r').1 = ((set c name value o).run serve r).1 ∧
      Veiled p ((set c name value o).run serve r).2 ((set c name value o).run serve r').2 := by
  obtain ⟨hreply, hagree⟩ := h.toAgree.set hc (Ne.symm hp) value o
  refine ⟨hreply, .inl (hagree.meet fun d => ?_)⟩
  have hmem : p ∈ copies name (cur :: vl) := mem_copies_cons.mpr (.inr (.inr hold))
  have hnone := (h.others hone hmem _ current_mem_copies).2 (Ne.symm hp)
  -- on either side the older names are deleted
  have hgone : ∀ t : Redis, t.find (versioned cur.1 name) = none →
      (((set c name value o).run serve t).2.later d).find p = none := by
    intro t ht
    rw [run_set hc]
    unfold setAlone
    split
    · simp only
      rw [Redis.find_later_delAll, if_pos hold]
    · rw [ht]
      simp only
      rw [Redis.find_later_delAll, if_pos hold]
  rw [hgone r' hnone, hgone r]
  rw [← h.find_now (Ne.symm hp)]
  exact hnone

end

/-! ## Loads -/

section Loads

variable {J α β : Type}

/-- The method has the same result from related stores, and keeps them related. -/
def PyM.Twin (cond : Cmd → Redis → Prop) (R : Client J → Redis → Redis → Prop)
    (E : Redis → Redis → Prop) (m : PyM J α) : Prop :=
  ∀ c r r', R c r r' → m.Along cond c r' → (m.alone c r').1 = (m.alone c r).1 ∧
    PyM.After (fun c' s' => R c' (m.alone c r).2 s') (fun s' => E (m.alone c r).2 s') (m.alone c r')

variable {cond : Cmd → Redis → Prop} {R : Client J → Redis → Redis → Prop}
  {E : Redis → Redis → Prop}

theorem PyM.Twin.pure (a : α) : PyM.Twin cond R E (pure a : PyM J α) := fun _ _ _ h _ => ⟨rfl, h⟩

theorem PyM.Twin.raise (hE : ∀ c r r', R c r r' → E r r') (e : PyErr) :
    PyM.Twin cond R E (PyM.raise e : PyM J α) := fun c r r' h _ => ⟨rfl, hE c r r' h⟩

theorem PyM.Twin.client : PyM.Twin cond R E (PyM.client : PyM J (Client J)) :=
  fun _ _ _ h _ => ⟨rfl, h⟩

theorem PyM.Twin.modify {g : Client J → Client J} (hg : ∀ c r r', R c r r' → R (g c) r r') :
    PyM.Twin cond R E (PyM.modify g) := fun c r r' h _ => ⟨rfl, hg c r r' h⟩

theorem PyM.Twin.send {cmd : Cmd} (hcmd : ∀ c r r', R c r r' → cond cmd r' →
      (serve cmd r').1 = (serve cmd r).1 ∧ R c (serve cmd r).2 (serve cmd r').2) :
    PyM.Twin cond R E (PyM.send cmd : PyM J cmd.Reply) := by
  intro c r r' h halong
  obtain ⟨hreply, hR⟩ := hcmd c r r' h halong.1
  refine ⟨?_, hR⟩
  show (Except.ok (serve cmd r').1, c) = (Except.ok (serve cmd r).1, c)
  rw [hreply]

theorem PyM.Twin.bind {m : PyM J α} {f : α → PyM J β} (hm : PyM.Twin cond R E m)
    (hf : ∀ a, PyM.Twin cond R E (f a)) : PyM.Twin cond R E (m >>= f) := by
  intro c r r' h halong
  obtain ⟨hfirst, hrest⟩ := PyM.along_bind halong
  obtain ⟨hsame, hmid⟩ := hm c r r' h hfirst
  cases hrun : m.alone c r with
  | mk out s =>
    cases hrun' : m.alone c r' with
    | mk out' s' =>
      rw [hrun, hrun'] at hsame
      have hsame : out' = out := hsame
      subst hsame
      rw [hrun, hrun'] at hmid
      obtain ⟨x, c'⟩ := out'
      cases x with
      | error e =>
        rw [PyM.alone_bind_error hrun, PyM.alone_bind_error hrun']
        exact ⟨rfl, hmid⟩
      | ok a =>
        rw [PyM.alone_bind_ok hrun, PyM.alone_bind_ok hrun']
        exact hf a c' s s' hmid (hrest a c' s' hrun')

theorem PyM.Twin.of_keeps {V : Redis → Redis → Prop} {I : Client J → Redis → Prop}
    {D : Redis → Prop} {m : PyM J α} (hm : PyM.Keeps cond I D m)
    (hV : ∀ c r r', V r r' → I c r' →
      (m.alone c r').1 = (m.alone c r).1 ∧ V (m.alone c r).2 (m.alone c r').2) :
    PyM.Twin cond (fun c r r' => V r r' ∧ I c r') (fun r r' => V r r' ∧ D r') m := by
  intro c r r' h halong
  obtain ⟨hsame, hrel⟩ := hV c r r' h.1 h.2
  have hkeep := hm c r' h.2 halong
  refine ⟨hsame, ?_⟩
  cases hrun : m.alone c r' with
  | mk out s' =>
    rw [hrun] at hrel hkeep
    obtain ⟨x, c'⟩ := out
    cases x with
    | error e => exact ⟨hrel, hkeep⟩
    | ok a => exact ⟨hrel, hkeep⟩

/-! ### Version lists and update texts -/

variable {S : Bytes → Prop} {p : Bytes} {r r' : Redis}

theorem Agree.setVersions (h : Agree S r r') (ns : Ns) (l : List (Ver × Ns)) :
    Agree S (r.setVersions ns l) (r'.setVersions ns l) := by
  refine ⟨⟨?_, h.dsl, h.now, fun m => ?_, ?_⟩, h.find⟩
  · rw [Redis.setVersions_versions, Redis.setVersions_versions, h.versions]
  · simp only [Redis.setVersions, Redis.touch, Function.update_apply, h.watched]
  · simp only [Redis.setVersions, Redis.touch, Function.update_of_ne, ne_eq, reduceCtorEq,
      not_false_eq_true, h.watchedDsl]

theorem Agree.hset (h : Agree S r r') (f : UpdName) (text : Bytes) :
    Agree S (Redis.touch { r with dsl := r.dsl.put f (some text) } .dsl)
      (Redis.touch { r' with dsl := r'.dsl.put f (some text) } .dsl) := by
  refine ⟨⟨h.versions, ?_, h.now, fun m => ?_, ?_⟩, h.find⟩
  · simp only [Redis.touch, h.dsl]
  · simp only [Redis.touch, Function.update_of_ne, ne_eq, reduceCtorEq, not_false_eq_true, h.watched]
  · simp only [Redis.touch, Function.update_self, h.watchedDsl]

variable (h : Veiled p r r')

include h

theorem Veiled.books : SameBooks r r' := by
  obtain h | h := h
  · exact h.toSameBooks
  · exact h.toSameBooks

theorem Veiled.setVersions (ns : Ns) (l : List (Ver × Ns)) :
    Veiled p (r.setVersions ns l) (r'.setVersions ns l) := by
  obtain h | h := h
  · exact .inl (h.setVersions ns l)
  · exact .inr ⟨h.toAgree.setVersions ns l, h.absent, h.there⟩

theorem Veiled.hset (f : UpdName) (text : Bytes) :
    Veiled p (Redis.touch { r with dsl := r.dsl.put f (some text) } .dsl)
      (Redis.touch { r' with dsl := r'.dsl.put f (some text) } .dsl) := by
  obtain h | h := h
  · exact .inl (h.hset f text)
  · exact .inr ⟨h.toAgree.hset f text, h.absent, h.there⟩

theorem Veiled.appendNewVersion (v : Ver) (ns : Ns) (startup : Bool) (c : Client J) :
    ((appendNewVersion v ns startup).alone c r').1 = ((appendNewVersion v ns startup).alone c r).1 ∧
      Veiled p ((appendNewVersion v ns startup).alone c r).2
        ((appendNewVersion v ns startup).alone c r').2 := by
  rw [appendNewVersion_alone, appendNewVersion_alone, h.books.versions]
  split
  · exact ⟨rfl, h⟩
  · split
    · exact ⟨rfl, h⟩
    · exact ⟨rfl, h.setVersions _ _⟩

theorem Veiled.appendFor (t : ForTuple J) (c : Client J) :
    ((appendFor t).alone c r').1 = ((appendFor t).alone c r).1 ∧
      Veiled p ((appendFor t).alone c r).2 ((appendFor t).alone c r').2 := by
  unfold Lur.appendFor
  split
  · exact h.appendNewVersion _ _ _ c
  · rename_i hne
    rw [appendNewVersionUpdatedNs_alone c r _ _ hne, appendNewVersionUpdatedNs_alone c r' _ _ hne,
      h.books.versions]
    split
    · exact ⟨rfl, h⟩
    · split
      · exact ⟨rfl, h⟩
      · exact ⟨rfl, (h.setVersions _ _).setVersions _ _⟩

omit h

theorem Veiled.execute (h : Veiled p r r') (n : Nat) (f : UpdName) (text : Bytes) (new : Prop)
    [Decidable new] (c : Client J) :
    ((Lur.execute [(.dsl, n)] (if new then [Write.hset f text] else [])).alone c r').1 =
      ((Lur.execute [(.dsl, n)] (if new then [Write.hset f text] else [])).alone c r).1 ∧
    Veiled p ((Lur.execute [(.dsl, n)] (if new then [Write.hset f text] else [])).alone c r).2
      ((Lur.execute [(.dsl, n)] (if new then [Write.hset f text] else [])).alone c r').2 := by
  by_cases hnew : new
  · rw [if_pos hnew]
    have halone : ∀ s : Redis, (Lur.execute [(.dsl, n)] [Write.hset f text]).alone c s =
        ((Except.ok (serve (.exec [(.dsl, n)] [.hset f text]) s).1, c),
          (serve (.exec [(.dsl, n)] [.hset f text]) s).2) := fun _ => rfl
    have hclean : r'.clean [(.dsl, n)] = r.clean [(.dsl, n)] := by
      simp only [Redis.clean, List.all_cons, List.all_nil, h.books.watchedDsl]
    rw [halone, halone]
    simp only [serve, hclean]
    split
    · exact ⟨rfl, h.hset f text⟩
    · exact ⟨rfl, h⟩
  · rw [if_neg hnew]
    exact ⟨rfl, h⟩

/-! ### The invariant of the second store -/

/-- No version is put in a list that has it already. -/
def NewVersion : Cmd → Redis → Prop
  | .exec _ [.lpush ns e], r => e.1 ∉ (r.versions ns).map Prod.fst
  | .exec _ [.rpush _ (e :: l), .delVersions _], _ => e.1 ∉ l.map Prod.fst
  | _, _ => True

def GoodLoad (cmd : Cmd) (r : Redis) : Prop := GoodName cmd r ∧ NewVersion cmd r

/-- Every key has one copy and every list different versions. -/
structure Tidy (r : Redis) : Prop where
  single : Single r
  noRepeat : NoRepeat r.versions

structure TidyFor (c : Client J) (r : Redis) : Prop where
  sound : Sound c r
  noRepeat : NoRepeat r.versions

theorem TidyFor.tidy {c : Client J} (h : TidyFor c r) : Tidy r := ⟨h.sound.single, h.noRepeat⟩

theorem NoRepeat.setVersions (h : NoRepeat r.versions) (ns : Ns) {l : List (Ver × Ns)}
    (hl : (l.map Prod.fst).Nodup) : NoRepeat (r.setVersions ns l).versions := by
  intro m
  by_cases hm : m = ns
  · subst hm
    simpa using hl
  · rw [Redis.setVersions_versions, Function.update_of_ne hm]
    exact h m

theorem tidy_versInv : VersInv (J := J) GoodLoad TidyFor Tidy where
  toStore _ _ h := h.tidy
  setNsVersion c r ns v h := ⟨sound_versInv.setNsVersion c r ns v h.sound, h.noRepeat⟩
  adopt c r ns h := ⟨sound_versInv.adopt c r ns h.sound, h.noRepeat⟩
  push c r ns v w h hcond := by
    refine ⟨sound_versInv.push c r ns v w h.sound hcond.1, h.noRepeat.setVersions ns ?_⟩
    exact List.nodup_cons.mpr ⟨hcond.2, h.noRepeat ns⟩
  move c r oldns ns v w hne hns hold h hcond := by
    refine ⟨sound_versInv.move c r oldns ns v w hne hns hold h.sound hcond.1, ?_⟩
    refine (h.noRepeat.setVersions ns ?_).setVersions oldns (by simp)
    exact List.nodup_cons.mpr ⟨hcond.2, h.noRepeat oldns⟩
  addRule c r name rule h := ⟨sound_versInv.addRule c r name rule h.sound, h.noRepeat⟩
  hset c r f text h := ⟨sound_versInv.hset c r f text h.sound, h.noRepeat⟩

theorem Veiled.set (h : Veiled p r r') {c : Client J} (hI : TidyFor c r') {name : Bytes}
    (hname : Plain name) (value : Bytes) {o : SetOpts}
    (ho : Hidden p r r' → ∀ cur vl, Knows c name (cur :: vl) → p = versioned cur.1 name →
      o.nx = o.xx ∨
        ∃ e, ({ o with ex := truthy o.ex, px := truthy o.px } : SetOpts).expire r.now = .error e) :
    ((set c name value o).run serve r').1 = ((set c name value o).run serve r).1 ∧
      Veiled p ((set c name value o).run serve r).2 ((set c name value o).run serve r').2 := by
  by_cases hknown : ∃ cur vl, Knows c name (cur :: vl)
  · obtain ⟨cur, vl, hc⟩ := hknown
    obtain h | h := h
    · obtain ⟨hreply, hagree⟩ := h.set hc (fun h => h) value o
      exact ⟨hreply, .inl hagree⟩
    · have hl : cur :: vl = r'.versions _ := hI.sound.current _ _ hc
      have hone := hI.sound.single.oneCopy hname hl.symm
      by_cases hcur : p = versioned cur.1 name
      · refine h.set_current hc hone ?_ hcur value (ho h cur vl hc hcur)
        exact current_not_older hI.sound.single.barFree hI.noRepeat hl.symm
      · by_cases hold : p ∈ potentialKeys name vl
        · exact h.set_older hc hone hold hcur value o
        · obtain ⟨hreply, hagree⟩ := h.toAgree.set hc (Ne.symm hcur) value o
          refine ⟨hreply, .inr (h.call ?_ hagree (Outside.run (within_set hc value o) r)
            (Outside.run (within_set hc value o) r'))⟩
          intro hmem
          obtain hm | hm | hm := mem_copies_cons.mp hmem
          · exact hcur hm
          · rw [current_name hI.sound.single.ownHead hname hl.symm] at hm
            exact hcur hm
          · exact hold hm
  · simp only [not_exists] at hknown
    obtain ⟨e, he⟩ := set_unknown hknown value o
    rw [he]
    exact ⟨rfl, h⟩

/-- The relation between the stores, for a client that works on both. -/
abbrev Twins (p : Bytes) (c : Client J) (r r' : Redis) : Prop := Veiled p r r' ∧ TidyFor c r'

theorem keepsSet_tidy (py : Py J) {k : Bytes} (hk : Plain k) : KeepsSet (J := J) TidyFor k := by
  intro c r value h
  have hcall := h.sound.call py hk 0 (.set value {})
  rw [KeyCall.prog, Prog.run_bind] at hcall
  refine ⟨hcall, ?_⟩
  rw [set_versions]
  exact h.noRepeat

theorem twin_set (py : Py J) (p : Bytes) {k : Bytes} (hk : Plain k) (value : Bytes) :
    PyM.Twin GoodLoad (Twins p) (fun r r' => Veiled p r r' ∧ Tidy r')
      (PyM.lift fun c : Client J => set c k value {}) := by
  refine PyM.Twin.of_keeps ((keepsSet_tidy py hk).lift tidy_versInv.toListInv value) ?_
  intro c r r' h hI
  rw [PyM.alone_lift, PyM.alone_lift]
  obtain ⟨hreply, hveil⟩ := h.set hI hk value (o := {}) fun _ _ _ _ _ => .inl rfl
  exact ⟨by simp only [hreply], hveil⟩

theorem twin_loads (p : Bytes) : PyM.Loads (J := J) fun m =>
    PyM.Twin GoodLoad (Twins p) (fun r r' => Veiled p r r' ∧ Tidy r') m where
  pure := PyM.Twin.pure
  raise := PyM.Twin.raise fun _ _ _ h => ⟨h.1, h.2.tidy⟩
  client := PyM.Twin.client
  bind := PyM.Twin.bind
  watch := PyM.Twin.send fun _ _ _ h _ => ⟨h.1.books.watchedDsl, h⟩
  hget _ := PyM.Twin.send fun _ _ _ h _ => ⟨by simp only [serve, h.1.books.dsl], h⟩
  hgetall := PyM.Twin.send fun _ _ _ h _ => ⟨by simp only [serve, h.1.books.dsl], h⟩
  append v ns startup := PyM.Twin.of_keeps (tidy_versInv.appendNewVersion v ns startup)
    fun c _ _ h _ => h.appendNewVersion v ns startup c
  appendFor t := PyM.Twin.of_keeps (tidy_versInv.appendFor t) fun c _ _ h _ => h.appendFor t c
  addRule name rule :=
    PyM.Twin.modify fun _ _ _ h => ⟨h.1, tidy_versInv.addRule _ _ name rule h.2⟩
  hset n _ _ _ := PyM.Twin.of_keeps (tidy_versInv.execute _ _ _ _)
    fun c _ _ h _ => h.execute n _ _ _ c

/-- **A load has the same result on both stores.** -/
theorem twin_doUpd (py : Py J) (p : Bytes) {d : Dsl J}
    (hks : ∀ a ∈ d.adds, ∀ k ∈ a.keys, Plain k) :
    PyM.Twin GoodLoad (Twins p) (fun r r' => Veiled p r r' ∧ Tidy r') (doUpd py d) :=
  (twin_loads p).doUpd py fun a ha k hk value => twin_set py p (hks a ha k hk) value

theorem twin_connect (py : Py J) (p : Bytes) (nsVersions : List (Ns × Ver)) :
    PyM.Twin GoodLoad (Twins p) (fun r r' => Veiled p r r' ∧ Tidy r') (connect py nsVersions) :=
  (twin_loads p).connect py nsVersions

end Loads

/-! ## Runs -/

section Runs

variable {J : Type}

/-- The calls of a run, with the client that makes them. -/
inductive Req (J : Type)
  | connect (nsVersions : List (Ns × Ver))
  | get (c : Client J) (name : Bytes) (depth : Nat)
  | set (c : Client J) (name value : Bytes) (o : SetOpts)
  | setnx (c : Client J) (name value : Bytes)
  | delete (c : Client J) (names : List Bytes)
  | keys (pattern : Bytes)
  | load (c : Client J) (d : Dsl J)
  | wait (ms : Nat)

/-- What is seen of a call: its reply or exception, the keys in any order, and after a connect or
a load the dictionaries of the client. -/
inductive Seen (J : Type)
  | value (x : Except PyErr (Option Bytes))
  | done (x : Except PyErr (Option Bool))
  | flag (x : Except PyErr Bool)
  | count (x : Except PyErr Nat)
  | keys (ks : Multiset Bytes)
  | connected (x : Except PyErr Unit) (c : Client J)
  | loaded (x : Except PyErr (Option Bool)) (c : Client J)
  | waited

def Req.run (py : Py J) : Req J → Redis → Seen J × Redis
  | .connect nsVersions, r =>
    let out := (Lur.connect py nsVersions).alone Client.empty r
    (.connected out.1.1 out.1.2, out.2)
  | .get c name depth, r =>
    let out := (Lur.get py c name depth).run serve r
    (.value out.1, out.2)
  | .set c name value o, r =>
    let out := (Lur.set c name value o).run serve r
    (.done out.1, out.2)
  | .setnx c name value, r =>
    let out := (Lur.setnx c name value).run serve r
    (.flag out.1, out.2)
  | .delete c names, r =>
    let out := (Lur.delete c names).run serve r
    (.count out.1, out.2)
  | .keys pattern, r =>
    let out := (Lur.keys py pattern).run serve r
    (.keys out.1, out.2)
  | .load c d, r =>
    let out := (doUpd py d).alone c r
    (.loaded out.1.1 out.1.2, out.2)
  | .wait ms, r => (.waited, r.later ms)

def Req.replies (py : Py J) : List (Req J) → Redis → List (Seen J)
  | [], _ => []
  | u :: us, r => (u.run py r).1 :: Req.replies py us (u.run py r).2

/-- The clients are at the current versions, keys are not spelled with the default namespace,
and loads bring new versions without bars and do not bring back a name that was renamed away. -/
def Req.Proper (py : Py J) (r : Redis) : Req J → Prop
  | .connect nsVersions => (Lur.connect py nsVersions).Along GoodLoad Client.empty r
  | .get c name _ | .set c name _ _ | .setnx c name _ => AtCurrent c r ∧ Plain name
  | .load c d => (doUpd py d).Along GoodLoad c r ∧ AtCurrent c r ∧
      ∀ a ∈ d.adds, ∀ k ∈ a.keys, Plain k
  | .delete _ _ | .keys _ | .wait _ => True

/-- The call does not show the placeholder under the name: it is no `get` of the key when the
placeholder is at an older version, no conditional `set` of it when the placeholder is at the
current version, no `delete` of it and no `keys` with a pattern that matches it. -/
def Req.Quiet (py : Py J) (p : Bytes) (r : Redis) : Req J → Prop
  | .get c name _ => ∀ cur vl, Knows c name (cur :: vl) → p ∈ copies name (cur :: vl) →
      p = versioned cur.1 name
  | .set c name _ o => ∀ cur vl, Knows c name (cur :: vl) → p = versioned cur.1 name →
      o.nx = o.xx ∨
        ∃ e, ({ o with ex := truthy o.ex, px := truthy o.px } : SetOpts).expire r.now = .error e
  | .setnx c name _ => ∀ cur vl, Knows c name (cur :: vl) → p ≠ versioned cur.1 name
  | .delete c names => ∀ ks, deleteNames c names = .ok ks → p ∉ ks
  | .keys pattern => py.stringmatch (star ++ bar :: pattern) p = false
  | .connect _ | .load _ _ | .wait _ => True

variable {py : Py J} {p : Bytes} {r r' : Redis}

theorem Veiled.get (h : Veiled p r r') {c : Client J} (hI : TidyFor c r') {name : Bytes}
    (hname : Plain name) (depth : Nat)
    (hquiet : Hidden p r r' → (Req.get c name depth).Quiet py p r) :
    ((get py c name depth).run serve r').1 = ((get py c name depth).run serve r).1 ∧
      Veiled p ((get py c name depth).run serve r).2 ((get py c name depth).run serve r').2 := by
  by_cases hknown : ∃ cur vl, Knows c name (cur :: vl)
  · obtain ⟨cur, vl, hc⟩ := hknown
    obtain h | h := h
    · obtain ⟨hreply, hagree⟩ := h.get py hc (fun _ _ h => h) depth
      exact ⟨hreply, .inl hagree⟩
    · have hl : cur :: vl = r'.versions _ := hI.sound.current _ _ hc
      by_cases hmem : p ∈ copies name (cur :: vl)
      · cases depth with
        | zero => exact ⟨rfl, .inr h⟩
        | succ depth =>
          obtain ⟨hreply, hagree⟩ := h.get_current py hc
            (hI.sound.single.oneCopy hname hl.symm)
            (current_name hI.sound.single.ownHead hname hl.symm) (hquiet h cur vl hc hmem) depth
          exact ⟨hreply, .inl hagree⟩
      · obtain ⟨hreply, hagree⟩ := h.toAgree.get py hc
          (fun q hq heq => hmem (heq ▸ hq)) depth
        exact ⟨hreply, .inr (h.call hmem hagree (Outside.run (within_get hc depth) r)
          (Outside.run (within_get hc depth) r'))⟩
  · simp only [not_exists] at hknown
    obtain ⟨e, he⟩ := get_unknown py hknown depth
    rw [he]
    exact ⟨rfl, h⟩

theorem Veiled.delete (py : Py J) (h : Veiled p r r') (c : Client J) (names : List Bytes)
    (hquiet : Hidden p r r' → (Req.delete c names).Quiet py p r) :
    ((delete c names).run serve r').1 = ((delete c names).run serve r).1 ∧
      Veiled p ((delete c names).run serve r).2 ((delete c names).run serve r').2 := by
  obtain h | h := h
  · obtain ⟨hreply, hagree⟩ := h.delete c names fun _ _ _ _ h => h
    exact ⟨hreply, .inl hagree⟩
  · have hnames := hquiet h
    obtain ⟨hreply, hagree⟩ := h.toAgree.delete c names fun ks hks k hk heq =>
      hnames ks hks (heq ▸ hk)
    refine ⟨hreply, .inr ?_⟩
    match hks : deleteNames c names with
    | .error e =>
      rw [Lur.delete, hks]
      exact h
    | .ok [] =>
      rw [Lur.delete, hks]
      exact h
    | .ok (k :: ks) =>
      have hrun : ∀ s : Redis, ((Lur.delete c names).run serve s).2 =
          (k :: ks).foldl Redis.del s := by
        intro s
        rw [Lur.delete, hks]
        rfl
      rw [hrun, hrun] at hagree ⊢
      exact h.call (hnames _ hks) hagree (Outside.delAll r fun _ hq => hq)
        (Outside.delAll r' fun _ hq => hq)

theorem Veiled.keys (h : Veiled p r r') (pattern : Bytes)
    (hquiet : Hidden p r r' → (Req.keys (J := J) pattern).Quiet py p r) :
    ((keys py pattern).run serve r').1.Perm ((keys py pattern).run serve r).1 := by
  have hperm : ∀ P : Bytes → Bool, ((serve (.keys P) r').1).Perm (serve (.keys P) r).1 →
      ((serve (.keys P) r').1.map afterBar).Perm ((serve (.keys P) r).1.map afterBar) :=
    fun _ hp => hp.map afterBar
  refine hperm (py.stringmatch (star ++ bar :: pattern)) ?_
  obtain h | h := h
  · exact h.keys fun _ hq => hq.elim
  · refine h.toAgree.keys fun q hq => ?_
    rw [hq]
    exact hquiet h

/-- **One call on both stores.** -/
theorem Veiled.step {u : Req J} (h : Veiled p r r') (hI : Tidy r') (hproper : u.Proper py r')
    (hquiet : Hidden p r r' → u.Quiet py p r) :
    (u.run py r').1 = (u.run py r).1 ∧ Veiled p (u.run py r).2 (u.run py r').2 ∧
      Tidy (u.run py r').2 := by
  -- a call on a key keeps the second store tidy
  have htidy : ∀ c name depth (call : KeyCall), AtCurrent c r' → Plain name →
      Tidy ((call.prog py c name depth).run serve r').2 := by
    intro c name depth call hc hname
    refine ⟨(Sound.call py ⟨hI.single, hc⟩ hname depth call).single, ?_⟩
    rw [call.run_versions]
    exact hI.noRepeat
  -- a method on the bookkeeping
  have hmethod : ∀ {α : Type} {m : PyM J α} {c : Client J}, PyM.Twin GoodLoad (Twins p)
      (fun r r' => Veiled p r r' ∧ Tidy r') m → AtCurrent c r' → m.Along GoodLoad c r' →
      (m.alone c r').1 = (m.alone c r).1 ∧ Veiled p (m.alone c r).2 (m.alone c r').2 ∧
        Tidy (m.alone c r').2 := by
    intro α m c hm hc halong
    obtain ⟨hsame, hafter⟩ := hm c r r' ⟨h, ⟨hI.single, hc⟩, hI.noRepeat⟩ halong
    refine ⟨hsame, ?_⟩
    revert hafter
    cases m.alone c r' with
    | mk out s' =>
      obtain ⟨x, c'⟩ := out
      cases x with
      | error e => exact id
      | ok a => exact fun hafter => ⟨hafter.1, hafter.2.tidy⟩
  cases u with
  | connect nsVersions =>
    obtain ⟨hsame, hafter⟩ := hmethod (twin_connect py p nsVersions)
      (fun ns l hl => by cases hl) hproper
    exact ⟨by simp only [Req.run, hsame], hafter⟩
  | get c name depth =>
    obtain ⟨hreply, hveil⟩ := h.get ⟨⟨hI.single, hproper.1⟩, hI.noRepeat⟩ hproper.2 depth hquiet
    have ht := htidy c name depth .get hproper.1 hproper.2
    rw [KeyCall.prog, Prog.run_bind] at ht
    exact ⟨by simp only [Req.run, hreply], hveil, ht⟩
  | set c name value o =>
    obtain ⟨hreply, hveil⟩ := h.set ⟨⟨hI.single, hproper.1⟩, hI.noRepeat⟩ hproper.2 value hquiet
    have ht := htidy c name 0 (.set value o) hproper.1 hproper.2
    rw [KeyCall.prog, Prog.run_bind] at ht
    exact ⟨by simp only [Req.run, hreply], hveil, ht⟩
  | setnx c name value =>
    obtain ⟨hreply, hveil⟩ := h.set ⟨⟨hI.single, hproper.1⟩, hI.noRepeat⟩ hproper.2 value
      (o := { nx := true }) fun hh cur vl hc heq => absurd heq (hquiet hh cur vl hc)
    have ht := htidy c name 0 (.set value { nx := true }) hproper.1 hproper.2
    rw [KeyCall.prog, Prog.run_bind] at ht
    have hrun : ∀ s : Redis, (Req.setnx c name value).run py s =
        (.flag (((Lur.set c name value { nx := true }).run serve s).1.map Option.isSome),
          ((Lur.set c name value { nx := true }).run serve s).2) := by
      intro s
      simp only [Req.run, Lur.setnx, Prog.run_bind]
      rfl
    rw [hrun, hrun, hreply]
    exact ⟨rfl, hveil, ht⟩
  | delete c names =>
    obtain ⟨hreply, hveil⟩ := h.delete py c names hquiet
    refine ⟨by simp only [Req.run, hreply], hveil, ?_⟩
    have hrun : ((Lur.delete c names).run serve r').2 = r' ∨
        ∃ ks : List Bytes, ((Lur.delete c names).run serve r').2 = ks.foldl Redis.del r' := by
      cases hks : deleteNames c names with
      | error e => exact .inl (by rw [Lur.delete, hks]; rfl)
      | ok ks =>
        cases ks with
        | nil => exact .inl (by rw [Lur.delete, hks]; rfl)
        | cons k ks => exact .inr ⟨k :: ks, by rw [Lur.delete, hks]; rfl⟩
    simp only [Req.run]
    obtain hrun | ⟨ks, hrun⟩ := hrun
    · rw [hrun]
      exact hI
    · rw [hrun]
      have hv := (sameBooks_delAll r' ks).versions
      refine ⟨hI.single.fewer hv fun q hq => ?_, by rw [hv]; exact hI.noRepeat⟩
      rw [Redis.find_delAll] at hq
      split at hq
      · cases hq
      · exact hq
  | keys pattern =>
    refine ⟨?_, h, hI⟩
    simp only [Req.run]
    rw [Multiset.coe_eq_coe.mpr (h.keys pattern hquiet)]
  | load c d =>
    obtain ⟨hsame, hafter⟩ := hmethod (twin_doUpd py p hproper.2.2) hproper.2.1 hproper.1
    exact ⟨by simp only [Req.run, hsame], hafter⟩
  | wait ms =>
    refine ⟨rfl, ?_, hI.single.tick ms, hI.noRepeat⟩
    obtain h | h := h
    · exact .inl (h.later ms)
    · refine .inr ⟨h.toAgree.later ms, Redis.find_later_none h.absent ms, fun d => ?_⟩
      rw [Req.run, Redis.later_later]
      exact h.there (ms + d)

/-- Both runs go on, with calls that are proper and do not show a hidden placeholder. -/
def Req.Unshown (py : Py J) (p : Bytes) : List (Req J) → Redis → Redis → Prop
  | [], _, _ => True
  | u :: us, r, r' => u.Proper py r' ∧ (r.find p = none → (r'.find p).isSome → u.Quiet py p r) ∧
      Req.Unshown py p us (u.run py r).2 (u.run py r').2

theorem Veiled.replies {us : List (Req J)} (h : Veiled p r r') (hI : Tidy r')
    (hus : Req.Unshown py p us r r') : Req.replies py us r' = Req.replies py us r := by
  induction us generalizing r r' with
  | nil => rfl
  | cons u us ih =>
    have hquiet : Hidden p r r' → u.Quiet py p r := by
      intro hh
      refine hus.2.1 hh.absent ?_
      rw [← Redis.find_later_zero, hh.there 0]
      rfl
    obtain ⟨hreply, hveil, htidy⟩ := h.step hI hus.1 hquiet
    rw [Req.replies, Req.replies, hreply, ih hveil htidy hus.2.2]

def Req.AllProper (py : Py J) : List (Req J) → Redis → Prop
  | [], _ => True
  | u :: us, r => u.Proper py r ∧ Req.AllProper py us (u.run py r).2

def Req.after (py : Py J) (us : List (Req J)) (r : Redis) : Redis :=
  us.foldl (fun r u => (u.run py r).2) r

theorem Tidy.after {us : List (Req J)} (h : Tidy r) (hus : Req.AllProper py us r) :
    Tidy (Req.after py us r) := by
  induction us generalizing r with
  | nil => exact h
  | cons u us ih =>
    -- a store agrees with itself
    have hself : Veiled [] r r :=
      .inl ⟨SameBooks.refl r, fun _ _ _ => rfl⟩
    have hstep := hself.step h hus.1 fun hh => by
      have hsome := hh.there 0
      rw [Redis.find_later_zero, hh.absent] at hsome
      cases hsome
    exact ih hstep.2.2 hus.2

theorem tidy_init (now : Int) : Tidy (Redis.init now) := ⟨single_init now, fun _ => List.nodup_nil⟩

/-- **Looking up a missing key is not seen**, in a run that goes on with calls that do not show
the placeholder: all later replies are those of the run without the `get`. -/
theorem lookup_unseen (py : Py J) (now : Int) {before us : List (Req J)} {c : Client J}
    {name : Bytes} {cur : Ver × Ns} {vl : List (Ver × Ns)} (depth : Nat)
    (hbefore : Req.AllProper py before (Redis.init now))
    (hc : AtCurrent c (Req.after py before (Redis.init now))) (hname : Plain name)
    (hknown : Knows c name (cur :: vl))
    (hnone : ∀ q ∈ copies name (cur :: vl), (Req.after py before (Redis.init now)).find q = none)
    (hus : Req.Unshown py (versioned cur.1 name) us (Req.after py before (Redis.init now))
      ((Req.get c name (depth + 1)).run py (Req.after py before (Redis.init now))).2) :
    ((Req.get c name (depth + 1)).run py (Req.after py before (Redis.init now))).1 =
        .value (.ok none) ∧
      Req.replies py us ((Req.get c name (depth + 1)).run py
        (Req.after py before (Redis.init now))).2 =
      Req.replies py us (Req.after py before (Redis.init now)) := by
  have hI := (tidy_init now).after hbefore
  generalize Req.after py before (Redis.init now) = r at *
  have hl : cur :: vl = r.versions _ := hc _ _ hknown
  have hcur := current_name hI.single.ownHead hname hl.symm
  -- the call leaves a placeholder
  have hfound : firstFound ((potentialKeys name (cur :: vl)).map r.val?) = none := by
    rw [firstFound_none, List.all_eq_true]
    intro v hv
    obtain ⟨q, hq, rfl⟩ := List.mem_map.mp hv
    rw [Redis.val?, hnone q (potential_mem_copies hq)]
    rfl
  have hrun : (get py c name (depth + 1)).run serve r =
      (.ok none, r.put (versioned cur.1 name) (some ⟨placeholder, none⟩)) := by
    rw [run_get py hknown, getAlone, Redis.val?, hnone _ current_mem_copies]
    simp only [Option.map_none, getAllAlone, hfound, hcur]
  have hhidden : Hidden (versioned cur.1 name) r
      (r.put (versioned cur.1 name) (some ⟨placeholder, none⟩)) := by
    refine ⟨⟨sameBooks_put r _ _, fun d q hq => ?_⟩, hnone _ current_mem_copies, fun d => ?_⟩
    · rw [Redis.find_later_put, if_neg hq]
    · rw [Redis.find_later_put, if_pos rfl]
      rfl
  have htidy : Tidy (r.put (versioned cur.1 name) (some ⟨placeholder, none⟩)) := by
    have hcall := Sound.call py ⟨hI.single, hc⟩ hname (depth + 1) .get
    rw [KeyCall.prog, Prog.run_bind, hrun] at hcall
    exact ⟨hcall.single, hI.noRepeat⟩
  simp only [Req.run, hrun] at hus ⊢
  exact ⟨trivial, Veiled.replies (.inr hhidden) htidy hus⟩

end Runs

/-- A client that has just made the namespace `a`. -/
theorem demo_proper : Req.AllProper demoPy [.connect demoConnect] (Redis.init 0) := by
  refine ⟨And.intro ⟨⟨trivial, trivial⟩, trivial⟩ (And.intro ⟨⟨trivial, trivial⟩, trivial⟩
    (And.intro ⟨⟨?_, ?_⟩, ?_⟩ (And.intro ⟨⟨trivial, trivial⟩, trivial⟩ trivial))), trivial⟩
  · show bar ∉ lit "v0"
    decide
  · exact fun _ m e he => absurd he List.not_mem_nil
  · show lit "v0" ∉ []
    simp

theorem demo_knows : Knows demoOwner (lit "a:k") [(lit "v0", lit "a")] := by
  have hsplit : (splitNamespaceKey (lit "a:k")).1 = lit "a" := by decide
  rw [Knows, hsplit]
  rfl

theorem demo_unseen : Req.replies demoPy [.set demoOwner (lit "a:k") (lit "1") {}]
      ((Req.get demoOwner (lit "a:k") 1).run demoPy
        (Req.after demoPy [.connect demoConnect] (Redis.init 0))).2 =
    Req.replies demoPy [.set demoOwner (lit "a:k") (lit "1") {}]
      (Req.after demoPy [.connect demoConnect] (Redis.init 0)) := by
  refine (lookup_unseen demoPy 0 0 demo_proper demoOwner_current ?_ demo_knows ?_ ?_).2
  · show lit "a:k" ≠ _
    decide
  · decide
  · refine ⟨⟨demoOwner_current, ?_⟩, fun _ _ cur vl _ _ => .inl rfl, trivial⟩
    show lit "a:k" ≠ _
    decide

/-- `setnx` of the key sees the placeholder. -/
theorem setnx_sees : Req.replies demoPy [.setnx demoOwner (lit "a:k") (lit "1")]
      (Req.after demoPy [.connect demoConnect] (Redis.init 0)) = [.flag (.ok true)] ∧
    Req.replies demoPy [.setnx demoOwner (lit "a:k") (lit "1")]
      ((Req.get demoOwner (lit "a:k") 1).run demoPy
        (Req.after demoPy [.connect demoConnect] (Redis.init 0))).2 = [.flag (.ok false)] :=
  ⟨rfl, rfl⟩

end SchemaUpdate.Lur
