import SchemaUpdate.Lur.History

/-! # Which stored keys can be read

`get` walks from the version of a key to the current one and looks up the update of
every step under the namespace the key was stored in. The updates are filed under the
namespaces of the load, so that a key can be read exactly when every step was loaded
for just these two namespaces. -/

namespace SchemaUpdate.Lur

open SchemaUpdate.Lib

section

variable {J : Type}

/-! ## The walk -/

/-- An update function that always returns, and returns the key it was given. -/
def KeepsKey (f : UpdFun J) : Prop := ∀ name j, ∃ out, f name j = .ok out ∧ out.key = some name

/-- The rules of the client are filed under the version they lead to and keep keys. -/
def GoodRules (c : Client J) : Prop :=
  ∀ name rules, c.updDict name = some rules → ∀ rule ∈ rules, rule.newVer = name.new ∧
    ∀ f ∈ rule.funcs, KeepsKey f

theorem applyFuncs_ok (name : Bytes) {fs : List (UpdFun J)} (h : ∀ f ∈ fs, KeepsKey f) (j : J)
    (last : Option Bytes × J) (hlast : last.1 = some name ∨ fs ≠ []) :
    ∃ j', applyFuncs name fs j last = .ok (some name, j') := by
  induction fs generalizing j last with
  | nil =>
    obtain hlast | hne := hlast
    · exact ⟨last.2, by rw [applyFuncs, ← hlast]⟩
    · exact absurd rfl hne
  | cons f fs ih =>
    obtain ⟨out, hout, hkey⟩ := h f (by simp) name j
    rw [applyFuncs, hout]
    exact ih (fun f' hf' => h f' (by simp [hf'])) out.obj (out.key, out.ret) (.inl hkey)

variable {val : Bytes} {j : J}

theorem update_ok (py : Py J) (name : Bytes) (hval : py.loads val = some j) {fs : List (UpdFun J)}
    (h : ∀ f ∈ fs, KeepsKey f) (hne : fs ≠ []) :
    ∃ j', update py name val fs = .ok (some name, py.dumps j') := by
  obtain ⟨j', hj'⟩ := applyFuncs_ok name h j (none, j) (.inr hne)
  refine ⟨j', ?_⟩
  rw [update, hval]
  simp only [hj']
  rfl

theorem matching_ok (py : Py J) (name : Bytes) (updV : Ver) {rules : List (Rule J)}
    (h : ∀ rule ∈ rules, rule.newVer = updV) :
    ∃ fs, matching py name updV rules = .ok fs ∧ ∀ f ∈ fs, ∃ rule ∈ rules, f ∈ rule.funcs := by
  induction rules with
  | nil => exact ⟨[], rfl, fun f hf => by cases hf⟩
  | cons rule rules ih =>
    obtain ⟨fs, hfs, hmem⟩ := ih fun r' hr' => h r' (by simp [hr'])
    have hnew := h rule (by simp)
    refine ⟨if py.fnmatch rule.glob name then rule.funcs ++ fs else fs, ?_, ?_⟩
    · rw [matching, if_neg (by simp [hnew]), hfs]
      rfl
    · intro f hf
      have hf : f ∈ rule.funcs ∨ f ∈ fs := by
        split at hf
        · exact List.mem_append.mp hf
        · exact .inr hf
      obtain hf | hf := hf
      · exact ⟨rule, by simp, hf⟩
      · obtain ⟨r', hr', hf'⟩ := hmem f hf
        exact ⟨r', by simp [hr'], hf'⟩

theorem walkStep_ok {py : Py J} {c : Client J} (hc : GoodRules c) (name : Bytes) (prevNs ns : Ns)
    {v updV : Ver} (hval : py.loads val = some j)
    (hfiled : c.updDict ⟨v, updV, prevNs, ns⟩ ≠ none) :
    ∃ val' j', walkStep py c name prevNs ns (v, val) updV = .ok (updV, val') ∧
      py.loads val' = some j' := by
  obtain ⟨rules, hrules⟩ := Option.ne_none_iff_exists'.mp hfiled
  have hgood := hc _ rules hrules
  obtain ⟨fs, hfs, hmem⟩ := matching_ok py name updV fun rule hr => (hgood rule hr).1
  have hkeeps : ∀ f ∈ fs, KeepsKey f := by
    intro f hf
    obtain ⟨rule, hr, hf'⟩ := hmem f hf
    exact (hgood rule hr).2 f hf'
  rw [walkStep, hrules]
  simp only [hfs, ok_bind]
  by_cases hempty : fs = []
  · refine ⟨val, j, ?_, hval⟩
    rw [hempty]
    rfl
  · obtain ⟨j', hj'⟩ := update_ok py name hval hkeeps hempty
    refine ⟨py.dumps j', j', ?_, py.loads_dumps j'⟩
    rw [if_neg (by simpa using hempty), hj']
    rfl

theorem walkStep_missing {py : Py J} {c : Client J} {name : Bytes} {prevNs ns : Ns} {v updV : Ver}
    (val : Bytes) (h : c.updDict ⟨v, updV, prevNs, ns⟩ = none) :
    walkStep py c name prevNs ns (v, val) updV = .error .keyError := by
  rw [walkStep, h]

def steps (l : List Ver) : List (Ver × Ver) := l.zip l.tail

theorem walk_ok_iff {py : Py J} {c : Client J} (hc : GoodRules c) (name : Bytes) (prevNs ns : Ns)
    (v : Ver) (ws : List Ver) (hval : py.loads val = some j) :
    (∃ out, ws.foldlM (walkStep py c name prevNs ns) (v, val) = .ok out) ↔
      ∀ p ∈ steps (v :: ws), c.updDict ⟨p.1, p.2, prevNs, ns⟩ ≠ none := by
  induction ws generalizing v val j with
  | nil => simp [steps, pure, Except.pure]
  | cons w ws ih =>
    have hsteps : steps (v :: w :: ws) = (v, w) :: steps (w :: ws) := rfl
    rw [hsteps, List.forall_mem_cons, List.foldlM_cons]
    by_cases hfiled : c.updDict ⟨v, w, prevNs, ns⟩ = none
    · rw [walkStep_missing val hfiled]
      constructor
      · rintro ⟨out, hout⟩
        cases hout
      · intro h
        exact absurd hfiled h.1
    · obtain ⟨val', j', hstep, hval'⟩ := walkStep_ok hc name prevNs ns hval hfiled
      rw [hstep, ok_bind, ih w hval']
      exact ⟨fun h => ⟨hfiled, h⟩, fun h => h.2⟩

/-- The versions from the entry with the index to the current one. -/
def walk (vl : List (Ver × Ns)) (i : Nat) : List Ver := ((vl.take (i + 1)).map Prod.fst).reverse

theorem walk_eq {vl : List (Ver × Ns)} {i : Nat} {e : Ver × Ns} (h : vl[i]? = some e) :
    walk vl i = e.1 :: ((vl.take i).map Prod.fst).reverse := by
  rw [walk, List.take_add_one, h]
  simp

theorem migrate_ok_iff {py : Py J} {c : Client J} (hc : GoodRules c) (name : Bytes)
    {vl : List (Ver × Ns)} {i : Nat} {e : Ver × Ns} (he : vl[i]? = some e)
    (hval : py.loads val = some j) :
    (∃ out, migrate py c name vl i e val = .ok out) ↔
      ∀ p ∈ steps (walk vl i), c.updDict ⟨p.1, p.2, e.2, (splitNamespaceKey name).1⟩ ≠ none := by
  rw [walk_eq he, ← walk_ok_iff hc name _ _ _ _ hval]
  unfold migrate
  constructor
  · rintro ⟨out, hout⟩
    obtain ⟨st, hst, -⟩ := bind_eq_ok.mp hout
    exact ⟨st, hst⟩
  · rintro ⟨st, hst⟩
    exact ⟨st.2, by rw [hst]; rfl⟩

/-! ## Reading the only copy -/

theorem firstFound_eq {vals : List (Option Bytes)} {i : Nat} {v : Bytes}
    (hi : vals[i]? = some (some v)) (hbefore : ∀ j < i, vals[j]? = some none) :
    firstFound vals = some (i, v) := by
  induction i generalizing vals with
  | zero =>
    cases vals with
    | nil => cases hi
    | cons x vals =>
      simp only [List.getElem?_cons_zero, Option.some.injEq] at hi
      rw [hi]
      rfl
  | succ i ih =>
    cases vals with
    | nil => cases hi
    | cons x vals =>
      have hx := hbefore 0 (by omega)
      simp only [List.getElem?_cons_zero, Option.some.injEq] at hx
      rw [hx, firstFound, ih hi fun j hj => hbefore (j + 1) (by omega)]
      rfl

theorem firstFound_names {r : Redis} {name : Bytes} {vl : List (Ver × Ns)} {i : Nat} {e : Ver × Ns}
    {v : Bytes} (hi : vl[i]? = some e) (hv : r.val? (nameAt name e) = some v)
    (hbefore : ∀ j d, j < i → vl[j]? = some d → r.val? (nameAt name d) = none) :
    firstFound ((potentialKeys name vl).map r.val?) = some (i, v) := by
  refine firstFound_eq ?_ ?_
  · rw [List.getElem?_map, potentialKeys, List.getElem?_map, hi]
    exact congrArg some hv
  · intro j hj
    obtain ⟨d, hd⟩ : ∃ d, vl[j]? = some d := by
      have hlen := (List.getElem?_eq_some_iff.mp hi).1
      exact ⟨_, List.getElem?_eq_getElem (by omega)⟩
    rw [List.getElem?_map, potentialKeys, List.getElem?_map, hd]
    exact congrArg some (hbefore j d hj hd)

/-- A move of a value that is found gets through, and the time it has to live goes with it. -/
theorem moveAlone_eq {orig new found : Bytes} {r : Redis} {x : Item} (hx : r.find orig = some x)
    (hne : orig ≠ new) : moveAlone orig new found val r =
      (true, if found ≠ val then (r.put new (some ⟨val, x.expire⟩)).del orig
        else (r.del orig).put new (some x)) := by
  have hlive := Redis.live_of_find hx
  unfold moveAlone
  split
  · have hwrite : (if r.pttl orig < 0 then Write.set new val
        else .psetex new (r.pttl orig) val).apply r = (true, r.put new (some ⟨val, x.expire⟩)) := by
      rw [Redis.pttl, hx]
      obtain ⟨v, expire⟩ := x
      cases expire with
      | none => rfl
      | some t =>
        have hlive : r.now < t := of_decide_eq_true hlive
        have hback : r.now + (t - r.now) = t := by omega
        simp only
        rw [if_neg (by omega), Write.apply, if_neg (by omega), hback]
    simp only [applyAll, hwrite]
    rfl
  · simp [applyAll, Write.apply, hx, hne, Redis.del]

theorem moveAlone_ok {orig new found : Bytes} {r : Redis} {x : Item} (hx : r.find orig = some x)
    (hne : orig ≠ new) : (moveAlone orig new found val r).1 = true :=
  congrArg Prod.fst (moveAlone_eq hx hne)

theorem moveAlone_store {orig new found : Bytes} {r : Redis} {x : Item} (hx : r.find orig = some x)
    (hne : orig ≠ new) : (moveAlone orig new found val r).2 =
      if found ≠ val then (r.put new (some ⟨val, x.expire⟩)).del orig
      else (r.del orig).put new (some x) :=
  congrArg Prod.snd (moveAlone_eq hx hne)

/-- A key of the namespace `ns` with its only copy at the entry with the index, where it was
written by a client that was at that entry. -/
structure StoredAt (r : Redis) (ns : Ns) (vl : List (Ver × Ns)) (i : Nat) (e : Ver × Ns)
    (suffix : Bytes) (x : Item) : Prop where
  colon : colon ∉ suffix
  entry : vl[i]? = some e
  -- the entry is the newest with this name
  first : ∀ j d, j < i → vl[j]? = some d →
    nameAt (logicalName ns suffix) d ≠ nameAt (logicalName ns suffix) e
  here : r.find (writtenAt e suffix) = some x
  only : ∀ p ∈ copies (logicalName ns suffix) vl, p ≠ writtenAt e suffix → r.find p = none

theorem versioned_colon_ne (v w : Ver) (y s : Bytes) :
    versioned v (y ++ colon :: s) ≠ versioned w s := by
  intro h
  have h : (v ++ bar :: y ++ [colon]) ++ s = (w ++ [bar]) ++ s := by
    simpa [versioned] using h
  have hlast := (List.append_inj' (List.append_cancel_right h) rfl).2
  exact absurd hlast (by decide)

variable {py : Py J} {c : Client J} {r : Redis} {ns : Ns} {cur : Ver × Ns} {vl : List (Ver × Ns)}
  {i : Nat} {e : Ver × Ns} {suffix : Bytes} {x : Item}

theorem StoredAt.nameAt_eq (h : StoredAt r ns vl i e suffix x) (d : Ver × Ns) :
    nameAt (logicalName ns suffix) d =
      if ns = star then versioned d.1 suffix else versioned d.1 (d.2 ++ Lib.colon :: suffix) := by
  rw [nameAt, splitNamespaceKey_logicalName h.colon, physical]
  split <;> simp_all

theorem StoredAt.name (h : StoredAt r ns vl i e suffix x) :
    ((ns = star ↔ e.2 = star) → nameAt (logicalName ns suffix) e = writtenAt e suffix) ∧
      (¬ (ns = star ↔ e.2 = star) →
        ∀ d, nameAt (logicalName ns suffix) d ≠ writtenAt e suffix) := by
  constructor
  · intro hiff
    rw [h.nameAt_eq, writtenAt, logicalName]
    by_cases hns : ns = star
    · rw [if_pos hns, if_pos (hiff.mp hns)]
    · rw [if_neg hns, if_neg fun h' => hns (hiff.mpr h')]
  · intro hiff d heq
    rw [h.nameAt_eq, writtenAt, logicalName] at heq
    by_cases hns : ns = star
    · have he : e.2 ≠ star := fun h' => hiff (by simp [hns, h'])
      rw [if_pos hns, if_neg he] at heq
      exact versioned_colon_ne _ _ _ _ heq.symm
    · have he : e.2 = star := by
        by_contra h'
        exact hiff (by simp [hns, h'])
      rw [if_neg hns, if_pos he] at heq
      exact versioned_colon_ne _ _ _ _ heq

variable (h : StoredAt r ns (cur :: vl) i e suffix x)

include h

theorem StoredAt.current (hcur : cur.2 = ns) :
    nameAt (logicalName ns suffix) cur = versioned cur.1 (logicalName ns suffix) := by
  rw [h.nameAt_eq, logicalName, hcur]
  split <;> rfl

/-- **A stored key can be read exactly when its walk is filed.** -/
theorem StoredAt.readable_iff (hcur : cur.2 = ns)
    (hc : Knows c (logicalName ns suffix) (cur :: vl)) (hrules : GoodRules c)
    (hval : py.loads x.val = some j) (depth : Nat) :
    (∃ val, ((get py c (logicalName ns suffix) (depth + 1)).run serve r).1 = .ok (some val)) ↔
      (ns = star ↔ e.2 = star) ∧ ∀ p ∈ steps (walk (cur :: vl) i),
        c.updDict ⟨p.1, p.2, e.2, ns⟩ ≠ none := by
  have hnew := h.current hcur
  have hns : (splitNamespaceKey (logicalName ns suffix)).1 = ns := by
    rw [splitNamespaceKey_logicalName h.colon]
  rw [run_get py hc, getAlone]
  by_cases hstar : ns = star ↔ e.2 = star
  · have hname := h.name.1 hstar
    have hbefore : ∀ k d, k < i → (cur :: vl)[k]? = some d →
        r.val? (nameAt (logicalName ns suffix) d) = none := by
      intro k d hk hd
      have hne := h.first k d hk hd
      rw [hname] at hne
      rw [Redis.val?, h.only _ (nameAt_mem_copies _ (List.mem_of_getElem? hd)) hne]
      rfl
    cases i with
    | zero =>
      -- the express route
      have hhere : r.val? (versioned cur.1 (logicalName ns suffix)) = some x.val := by
        have he : cur = e := by simpa using h.entry
        rw [Redis.val?, ← hnew, he, hname, h.here]
        rfl
      have hplace : x.val ≠ placeholder := by
        intro heq
        rw [heq, py.loads_placeholder] at hval
        cases hval
      have hnil : x.val ≠ [] := by
        intro heq
        rw [heq, py.loads_nil] at hval
        cases hval
      simp [hhere, hplace, hnil, hstar, walk, steps]
    | succ k =>
      have he : vl[k]? = some e := by simpa using h.entry
      have hcurnone : r.val? (versioned cur.1 (logicalName ns suffix)) = none := by
        rw [← hnew]
        exact hbefore 0 cur (by omega) rfl
      have hfound : firstFound ((potentialKeys (logicalName ns suffix) (cur :: vl)).map r.val?) =
          some (k + 1, x.val) :=
        firstFound_names h.entry (by simp [hname, Redis.val?, h.here]) hbefore
      have hmig := migrate_ok_iff hrules (logicalName ns suffix) h.entry hval
      rw [hns] at hmig
      simp only [hcurnone, getAllAlone, hfound, he]
      rw [← hmig]
      cases migrate py c (logicalName ns suffix) (cur :: vl) (k + 1) e x.val with
      | error err => simp
      | ok val =>
        have hne : nameAt (logicalName ns suffix) e ≠ versioned cur.1 (logicalName ns suffix) := by
          rw [← hnew]
          exact (h.first 0 cur (by omega) rfl).symm
        have hthere : r.find (nameAt (logicalName ns suffix) e) = some x := by rw [hname, h.here]
        simp [moveAlone_ok hthere hne, hstar]
  · -- the stored name is none of the names of the key
    have hnone : ∀ d ∈ cur :: vl, r.val? (nameAt (logicalName ns suffix) d) = none := by
      intro d hd
      rw [Redis.val?, h.only _ (nameAt_mem_copies _ hd) (h.name.2 hstar d)]
      rfl
    have hcurnone : r.val? (versioned cur.1 (logicalName ns suffix)) = none := by
      rw [← hnew]
      exact hnone cur (by simp)
    have hfound : firstFound ((potentialKeys (logicalName ns suffix) (cur :: vl)).map r.val?) =
        none := by
      rw [firstFound_none]
      simp only [List.all_eq_true, potentialKeys, List.map_map]
      intro v hv
      obtain ⟨d, hd, rfl⟩ := List.mem_map.mp hv
      simp [hnone d hd]
    simp [hcurnone, getAllAlone, hfound, hstar]

/-! ## Keys after a history of loads -/

omit h

/-- **Every stored key stays readable exactly when every step of its walk was loaded for its
namespaces**: some `for` stanza leads from each version of the walk to the next, from the
namespace the key is stored in to the one it is read in; and only both or neither of these are
the default namespace. -/
theorem stored_readable_iff {py : Py J} {now : Int} {nsVersions : List (Ns × Ver)}
    {ds : List (Dsl J)} {s : Redis} {vers : List (Ver × Ns)}
    (hist : history py now nsVersions ds = some (c, s))
    (hfuns : ∀ d ∈ ds, ∀ t ∈ d.fors, ∀ fs, t.funcs = some fs → ∀ f ∈ fs, KeepsKey f)
    (hknown : c.versDict ns = some vers) (h : StoredAt r ns vers i e suffix x) {j : J}
    (hval : py.loads x.val = some j) (depth : Nat) :
    (∃ val, ((get py c (logicalName ns suffix) (depth + 1)).run serve r).1 = .ok (some val)) ↔
      (ns = star ↔ e.2 = star) ∧ ∀ p ∈ steps (walk vers i),
        ∃ d ∈ ds, ∃ t ∈ d.fors, t.name = ⟨p.1, p.2, e.2, ns⟩ := by
  obtain ⟨htracks, hrules⟩ := history_spec hist
  have hgood : GoodRules c := by
    intro name rules hn rule hmem
    obtain ⟨t, ht, rfl, funcs, hf, rfl⟩ := hrules.mem hn hmem
    obtain ⟨d, hd, ht⟩ := List.mem_flatMap.mp ht
    exact ⟨rfl, hfuns d hd t ht funcs hf⟩
  have hfiled : ∀ p : Ver × Ver, c.updDict ⟨p.1, p.2, e.2, ns⟩ ≠ none ↔
      ∃ d ∈ ds, ∃ t ∈ d.fors, t.name = ⟨p.1, p.2, e.2, ns⟩ := by
    intro p
    rw [hrules.ne_none_iff]
    simp only [List.mem_flatMap]
    constructor
    · rintro ⟨t, ⟨d, hd, ht⟩, hname⟩
      exact ⟨d, hd, t, ht, hname⟩
    · rintro ⟨d, hd, t, ht, hname⟩
      exact ⟨t, ⟨d, hd, ht⟩, hname⟩
  cases vers with
  | nil =>
    have hentry := h.entry
    cases hentry
  | cons cur vl =>
    have hcur : cur.2 = ns :=
      htracks.ownHead ns cur (by rw [← htracks.current ns _ hknown]; rfl)
    have hc : Knows c (logicalName ns suffix) (cur :: vl) := by
      rw [Knows, splitNamespaceKey_logicalName h.colon]
      exact hknown
    rw [h.readable_iff hcur hc hgood hval depth]
    simp only [hfiled]

end

def demoStore (r : Redis) : Redis := r.put (lit "v0|a:s") (some ⟨lit "\"1\"", none⟩)

theorem demo_readable : ∃ c s, history demoPy 0 demoConnect [demoRename] = some (c, s) ∧
    ∃ val, ((get demoPy c (lit "b:s") 1).run serve (demoStore s)).1 = .ok (some val) := by
  obtain ⟨c, s, hist, hknown, hstored⟩ : ∃ c s, history demoPy 0 demoConnect [demoRename] =
      some (c, s) ∧ c.versDict (lit "b") = some [(lit "v1", lit "b"), (lit "v0", lit "a")] ∧
      StoredAt (demoStore s) (lit "b") [(lit "v1", lit "b"), (lit "v0", lit "a")] 1
        (lit "v0", lit "a") (lit "s") ⟨lit "\"1\"", none⟩ := by
    refine ⟨_, _, rfl, rfl, by decide, rfl, ?_, by decide, by decide⟩
    intro j d hj hd
    obtain rfl : j = 0 := by omega
    cases hd
    decide
  have hval : demoPy.loads (lit "\"1\"") = some (lit "1") := by decide
  refine ⟨c, s, hist, (stored_readable_iff hist ?_ hknown hstored hval 0).mpr ⟨by decide, ?_⟩⟩
  · intro d hd t ht fs hf f hmem
    rw [List.mem_singleton.mp hd] at ht
    rw [List.mem_singleton.mp ht] at hf
    cases hf
    cases hmem
  · intro p hp
    rw [show p = (lit "v0", lit "v1") from List.mem_singleton.mp hp]
    exact ⟨demoRename, by simp, _, List.mem_singleton.mpr rfl, rfl⟩

def demoNext : Dsl Bytes where
  texts := some [(⟨lit "v1", lit "v2", lit "b", lit "b"⟩, .ok (lit "for b:*"))]
  adds := []
  fors := [⟨lit "*", some [], lit "b", lit "b", lit "v1", lit "v2"⟩]

/-- After a rename and one more load, a key from before the rename cannot be read. -/
theorem renamed_unreadable : ∃ c s, history demoPy 0 demoConnect [demoRename, demoNext] =
      some (c, s) ∧
    ((get demoPy c (lit "b:s") 1).run serve (demoStore s)).1 = .error .keyError :=
  ⟨_, _, rfl, rfl⟩

end SchemaUpdate.Lur
