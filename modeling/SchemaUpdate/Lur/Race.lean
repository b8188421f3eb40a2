import SchemaUpdate.Lur.Readable

/-! # A `get` among other commands

The only copy of a key is at an older version, and clients at the current version work
on the key at the same time. The stages of a `get` are listed with what is known at
each of them, whatever commands come in between, and what its next command does. -/

namespace SchemaUpdate.Lur

open SchemaUpdate.Lib

/-! ## Counts of touches -/

/-- `r'` comes after `r`, and no time has passed: a key whose count is the same holds the same. -/
structure Since (r r' : Redis) : Prop where
  touched : ∀ k, r.touched k ≤ r'.touched k
  find : ∀ k, r'.touched (.data k) = r.touched (.data k) → r'.find k = r.find k
  now : r'.now = r.now

theorem Since.refl (r : Redis) : Since r r := ⟨fun _ => Nat.le_refl _, fun _ _ => rfl, rfl⟩

theorem Since.trans {r s t : Redis} (h : Since r s) (h' : Since s t) : Since r t where
  touched k := (h.touched k).trans (h'.touched k)
  find k hk := by
    have hle := h.touched (.data k)
    have hle' := h'.touched (.data k)
    rw [h'.find k (by omega), h.find k (by omega)]
  now := h'.now.trans h.now

theorem Since.put (r : Redis) (k : Bytes) (x : Option Item) : Since r (r.put k x) where
  touched j := by
    show r.touched j ≤ Function.update r.touched (.data k) (r.touched (.data k) + 1) j
    by_cases hj : j = .data k
    · subst hj
      simp
    · simp [Function.update_of_ne hj]
  find j hj := by
    have hj : Function.update r.touched (.data k) (r.touched (.data k) + 1) (.data j) =
        r.touched (.data j) := hj
    have hne : j ≠ k := by
      rintro rfl
      simp at hj
    rw [Redis.find_put, if_neg hne]
  now := rfl

theorem Since.delAll (r : Redis) (ks : List Bytes) : Since r (ks.foldl Redis.del r) :=
  Redis.delAll_rel Since.refl Since.trans Since.put ks r

/-! ## The writes of a migration -/

/-- The transaction of a `get` that has found `found` at `orig`. -/
def moveWrites (orig new found val : Bytes) (pttl : Int) : List Write :=
  if found ≠ val then [if pttl < 0 then .set new val else .psetex new pttl val, .del orig]
  else [.rename orig new]

theorem moveAlone_eq_applyAll (orig new found val : Bytes) (r : Redis) :
    moveAlone orig new found val r =
      applyAll (moveWrites orig new found val (r.pttl orig)) r := by
  unfold moveAlone moveWrites
  split <;> rfl

/-! ## The key -/

/-- A key whose only copy is at an older version. -/
structure OldKey where
  name : Bytes
  cur : Ver × Ns
  older : List (Ver × Ns)
  store : Redis
  index : Nat
  entry : Ver × Ns
  item : Item
  current : nameAt name cur = versioned cur.1 name
  entry_eq : older[index]? = some entry
  -- the entry is the newest with this name
  first : ∀ j d, j < index + 1 → (cur :: older)[j]? = some d → nameAt name d ≠ nameAt name entry
  here : store.find (nameAt name entry) = some item
  only : ∀ d ∈ cur :: older, nameAt name d ≠ nameAt name entry → store.find (nameAt name d) = none

namespace OldKey

variable (g : OldKey)

def vl : List (Ver × Ns) := g.cur :: g.older

def orig : Bytes := nameAt g.name g.entry

def new : Bytes := versioned g.cur.1 g.name

theorem val?_new (r : Redis) :
    r.val? (versioned g.cur.1 g.name) = (r.find g.new).map (·.val) := rfl

theorem orig_ne_new : g.orig ≠ g.new := by
  intro h
  refine g.first 0 g.cur (by omega) rfl ?_
  rw [g.current]
  exact h.symm

theorem entry_mem : g.entry ∈ g.older := List.mem_of_getElem? g.entry_eq

theorem orig_mem : g.orig ∈ potentialKeys g.name g.older := List.mem_map_of_mem g.entry_mem

def Old (r : Redis) : Prop := r.find g.new = none ∧ r.find g.orig = some g.item

theorem store_old : g.Old g.store := by
  refine ⟨?_, g.here⟩
  rw [new, ← g.current]
  exact g.only g.cur (by simp) (g.first 0 g.cur (by omega) rfl)

/-- What can be found of the key in the course of the race. -/
structure Tame (r : Redis) : Prop where
  since : Since g.store r
  orig : r.find g.orig = some g.item ∨ r.find g.orig = none
  others : ∀ d ∈ g.older, nameAt g.name d ≠ g.orig → nameAt g.name d ≠ g.new →
    r.find (nameAt g.name d) = none
  -- nothing at all has been written as long as the copy is there alone
  old : g.Old r → r = g.store

theorem store_tame : g.Tame g.store where
  since := Since.refl _
  orig := .inl g.here
  others d hd hne _ := g.only d (by simp [hd]) hne
  old _ := rfl

variable {g} {r : Redis}

theorem Tame.found_new {y : Item} (h : r.find g.new = some y) :
    firstFound ((potentialKeys g.name g.vl).map r.val?) = some (0, y.val) := by
  refine firstFound_names (e := g.cur) rfl ?_ (fun j d hj _ => by omega)
  rw [Redis.val?, g.current]
  exact congrArg (Option.map (·.val)) h

theorem Tame.found_old (ht : g.Tame r) (h : g.Old r) :
    firstFound ((potentialKeys g.name g.vl).map r.val?) = some (g.index + 1, g.item.val) := by
  refine firstFound_names (e := g.entry) g.entry_eq ?_ fun j d hj hd => ?_
  · rw [Redis.val?]
    exact congrArg (Option.map (·.val)) h.2
  · rw [ht.old h, Redis.val?, g.only d (List.mem_of_getElem? hd) (g.first j d hj hd)]
    rfl

def Gone (g : OldKey) (r : Redis) : Prop := ∀ p ∈ potentialKeys g.name g.vl, r.find p = none

theorem Tame.gone (ht : g.Tame r) (hnew : r.find g.new = none) (horig : r.find g.orig = none) :
    g.Gone r := by
  intro p hp
  obtain ⟨d, hd, rfl⟩ := List.mem_map.mp hp
  by_cases hdo : nameAt g.name d = g.orig
  · rw [hdo, horig]
  · by_cases hdn : nameAt g.name d = g.new
    · rw [hdn, hnew]
    · obtain rfl | hd := List.mem_cons.mp hd
      · exact absurd g.current hdn
      · exact ht.others d hd hdo hdn

theorem Gone.found (h : g.Gone r) : firstFound ((potentialKeys g.name g.vl).map r.val?) = none := by
  rw [firstFound_none]
  simp only [List.all_eq_true, List.mem_map, forall_exists_index, and_imp]
  rintro v p hp rfl
  simp [Redis.val?, h p hp]

theorem Gone.new (h : g.Gone r) : r.find g.new = none := by
  refine h _ (List.mem_map.mpr ⟨g.cur, by simp [vl], g.current⟩)

theorem Gone.not_old (h : g.Gone r) : ¬ g.Old r := by
  rintro ⟨-, horig⟩
  have hnone : r.find g.orig = none :=
    h _ (List.mem_map_of_mem (List.mem_cons_of_mem _ g.entry_mem))
  rw [hnone] at horig
  cases horig

theorem Tame.cases (ht : g.Tame r) : (∃ y, r.find g.new = some y) ∨ g.Old r ∨ g.Gone r := by
  cases hnew : r.find g.new with
  | some y => exact .inl ⟨y, rfl⟩
  | none =>
    obtain horig | horig := ht.orig
    · exact .inr (.inl ⟨hnew, horig⟩)
    · exact .inr (.inr (ht.gone hnew horig))

/-! ## What others do meanwhile -/

variable (g) in
/-- The store after some commands on the key. -/
structure Later (r r' : Redis) : Prop where
  since : Since r r'
  orig : r'.find g.orig = some g.item → r.find g.orig = some g.item
  old : g.Old r' → g.Old r
  tame : g.Tame r → g.Tame r'

theorem Later.refl (r : Redis) : g.Later r r := ⟨Since.refl r, id, id, id⟩

theorem Later.trans {s t : Redis} (h : g.Later r s) (h' : g.Later s t) : g.Later r t :=
  ⟨h.since.trans h'.since, fun ht => h.orig (h'.orig ht), fun ht => h.old (h'.old ht),
    fun ht => h'.tame (h.tame ht)⟩

theorem Later.put (r : Redis) {y : Item} (hy : y.expire.all (r.now < ·) = true) :
    g.Later r (r.put g.new (some y)) := by
  have hnew : (r.put g.new (some y)).find g.new = some y := by
    rw [Redis.find_put_live hy, if_pos rfl]
  have hother : ∀ p, p ≠ g.new → (r.put g.new (some y)).find p = r.find p := by
    intro p hp
    rw [Redis.find_put_live hy, if_neg hp]
  have hnot : ¬ g.Old (r.put g.new (some y)) := by
    rintro ⟨hnone, -⟩
    rw [hnew] at hnone
    cases hnone
  have hsince := Since.put r g.new (some y)
  refine ⟨hsince, ?_, fun h => absurd h hnot, fun ht => ⟨ht.since.trans hsince, ?_, ?_, ?_⟩⟩
  · rw [hother _ g.orig_ne_new]
    exact id
  · rw [hother _ g.orig_ne_new]
    exact ht.orig
  · intro d hd hdo hdn
    rw [hother _ hdn]
    exact ht.others d hd hdo hdn
  · exact fun h => absurd h hnot

theorem Later.delAll (r : Redis) {ks : List Bytes} (hks : g.orig ∈ ks) :
    g.Later r (ks.foldl Redis.del r) := by
  have horig : (ks.foldl Redis.del r).find g.orig = none := by
    rw [Redis.find_delAll, if_pos hks]
  have hnot : ¬ g.Old (ks.foldl Redis.del r) := by
    rintro ⟨-, hsome⟩
    rw [horig] at hsome
    cases hsome
  have hsince := Since.delAll r ks
  refine ⟨hsince, ?_, fun h => absurd h hnot, fun ht => ⟨ht.since.trans hsince, .inr horig, ?_, ?_⟩⟩
  · intro hsome
    rw [horig] at hsome
    cases hsome
  · intro d hd hdo hdn
    rw [Redis.find_delAll]
    split
    · rfl
    · exact ht.others d hd hdo hdn
  · exact fun h => absurd h hnot

theorem Later.del (r : Redis) : g.Later r (r.del g.orig) := by
  show g.Later r ([g.orig].foldl Redis.del r)
  exact Later.delAll r (by simp)

theorem Later.move (h : r.find g.orig = some g.item) (val : Bytes) :
    g.Later r (moveAlone g.orig g.new g.item.val val r).2 := by
  have hlive := Redis.live_of_find h
  rw [moveAlone_store h g.orig_ne_new]
  split
  · exact (Later.put r (y := ⟨val, g.item.expire⟩) hlive).trans (Later.del _)
  · refine (Later.del r).trans (Later.put (r.del g.orig) ?_)
    rw [Redis.del_now]
    exact hlive

theorem move_find_new (h : r.find g.orig = some g.item) (val : Bytes) :
    (moveAlone g.orig g.new g.item.val val r).2.find g.new = some ⟨val, g.item.expire⟩ := by
  have hlive := Redis.live_of_find h
  rw [moveAlone_store h g.orig_ne_new]
  split
  · rw [Redis.find_del, if_neg g.orig_ne_new.symm,
      Redis.find_put_live (x := ⟨val, g.item.expire⟩) hlive, if_pos rfl]
  · rename_i hval
    rw [Redis.find_put_live (by rw [Redis.del_now]; exact hlive), if_pos rfl]
    rw [← not_not.mp hval]

/-! ## The stages of a `get` -/

section

variable {J : Type} (py : Py J) (g) (c : Client J)

/-- The counts were read in the course of the race, up to the state `s`. -/
def Counted (w : Watch) (s : Redis) : Prop :=
  ∀ q ∈ w, g.store.touched q.1 ≤ q.2 ∧ q.2 ≤ s.touched q.1

/-- The `get` has watched its keys and then found the copy, which becomes `val`. -/
structure Looked (w : Watch) (val : Bytes) (r : Redis) : Prop where
  keys : w.map Prod.fst = watchedKeys g.name g.vl
  migrate : migrate py c g.name g.vl (g.index + 1) g.entry g.item.val = .ok val
  look : ∃ s, g.Old s ∧ Since s r ∧ g.Counted w s

/-- The stages of a `get` before its answer is settled. The first attempt may be repeated once the
copy is no longer there alone. -/
inductive Asking (r : Redis) : GetProg → Prop
  | start {d : Nat} (hd : 1 ≤ d) (hold : g.Old r → 2 ≤ d) : Asking r (get py c g.name d)
  | all {d : Nat} (hold : g.Old r → 1 ≤ d) :
    Asking r (getAll py c g.name g.vl (get py c g.name d))
  | watch {d : Nat} {left : List RKey} {w : Watch} (hold : g.Old r → 1 ≤ d)
    (hkeys : w.map Prod.fst ++ left = watchedKeys g.name g.vl) (hw : g.Counted w r) :
    Asking r (getWatch py c g.name g.vl (get py c g.name d) left w)
  | write {d : Nat} {w : Watch} {val : Bytes} (hd : 1 ≤ d) (h : g.Looked py c w val r) :
    Asking r (getWrite (get py c g.name d) w g.orig g.new g.item.val val)
  | exec {d : Nat} {w : Watch} {val : Bytes} {l : List Write} (hd : 1 ≤ d)
    (h : g.Looked py c w val r)
    (hl : r.find g.orig = some g.item →
      l = moveWrites g.orig g.new g.item.val val (r.pttl g.orig)) :
    Asking r (.call (.exec w l) (getDone (get py c g.name d) val))

def plant : GetProg := .call (.setnx g.new placeholder) fun _ => .ret (.ok none)

/-- What the next command of a `get` does: whether it is a transaction that goes through, what is
left of the `get`, and the store. -/
inductive GetStep (P : GetProg) (r : Redis) : Bool → GetProg → Redis → Prop
  | on {Q : GetProg} (h : g.Asking py c r Q) : GetStep P r false Q r
  | sees {y : Item} (h : r.find g.new = some y) (hy : y.val ≠ placeholder) :
    GetStep P r false (.ret (.ok (some y.val))) r
  | hidden {y : Item} (h : r.find g.new = some y) (hy : y.val = placeholder) :
    GetStep P r false (.ret (.ok none)) r
  -- the second look takes the placeholder for a value
  | mark {y : Item} (hlook : ∃ again w, P = getLook py c g.name g.vl again w)
    (h : r.find g.new = some y) (hy : y.val = placeholder) :
    GetStep P r false (.ret (.ok (some y.val))) r
  | nothing (h : g.Gone r) : GetStep P r false (.ret (.ok none)) r
  | plants (h : g.Gone r) : GetStep P r false g.plant r
  | raises {err : PyErr} (hold : g.Old r)
    (hm : migrate py c g.name g.vl (g.index + 1) g.entry g.item.val = .error err) :
    GetStep P r false (.ret (.error err)) r
  | moves {val : Bytes} (hold : g.Old r)
    (hm : migrate py c g.name g.vl (g.index + 1) g.entry g.item.val = .ok val) :
    GetStep P r true (.ret (.ok (some val))) (moveAlone g.orig g.new g.item.val val r).2
  -- the copy is gone, but its name was not watched
  | late {Q : GetProg} {r' : Redis} (hnew : r.find g.new = none) (horig : r.find g.orig = none)
    (hwatch : RKey.data g.orig ∉ watchedKeys g.name g.vl) : GetStep P r true Q r'

end

/-- The next command is a transaction that is carried out. -/
def commits {α : Type} (P : Prog Cmd.Reply α) (r : Redis) : Bool :=
  match P with
  | .call (.exec w _) _ => r.clean w
  | _ => false

section

variable {J : Type} {py : Py J} {c : Client J} {r r' : Redis} {P : GetProg}
  {val : Bytes} {w : Watch}

theorem Looked.later (h : g.Looked py c w val r) (hr : g.Later r r') : g.Looked py c w val r' := by
  obtain ⟨hkeys, hmig, s, hold, hsince, hw⟩ := h
  exact ⟨hkeys, hmig, s, hold, hsince.trans hr.since, hw⟩

theorem Asking.later (h : g.Asking py c r P) (hr : g.Later r r') : g.Asking py c r' P := by
  cases h with
  | start hd hold => exact .start hd fun h => hold (hr.old h)
  | all hold => exact .all fun h => hold (hr.old h)
  | watch hold hkeys hw =>
    refine .watch (fun h => hold (hr.old h)) hkeys fun q hq => ?_
    exact ⟨(hw q hq).1, (hw q hq).2.trans (hr.since.touched q.1)⟩
  | write hd h => exact .write hd (h.later hr)
  | exec hd h hl =>
    refine .exec hd (h.later hr) fun horig => ?_
    have hpttl : r'.pttl g.orig = r.pttl g.orig := by
      rw [Redis.pttl, Redis.pttl, horig, hr.orig horig, hr.since.now]
    rw [hpttl]
    exact hl (hr.orig horig)

theorem Looked.unchanged (h : g.Looked py c w val r) (hclean : r.clean w = true) :
    r.find g.new = none ∧
      (RKey.data g.orig ∈ watchedKeys g.name g.vl → r.find g.orig = some g.item) := by
  obtain ⟨hkeys, -, s, hold, hsince, hw⟩ := h
  have hsame : ∀ k, RKey.data k ∈ watchedKeys g.name g.vl → r.find k = s.find k := by
    intro k hk
    rw [← hkeys] at hk
    obtain ⟨q, hq, hqk⟩ := List.mem_map.mp hk
    have hcount := of_decide_eq_true (List.all_eq_true.mp hclean q hq)
    have hle := (hw q hq).2
    have hle' := hsince.touched q.1
    rw [hqk] at hcount hle hle'
    exact hsince.find k (by omega)
  refine ⟨?_, fun hk => (hsame _ hk).trans hold.2⟩
  refine (hsame _ ?_).trans hold.1
  simp [watchedKeys, vl, OldKey.new]

theorem Looked.clean (ht : g.Tame r) (h : g.Looked py c w val r) (hold : g.Old r) :
    r.clean w = true := by
  obtain ⟨-, -, s, -, hsince, hw⟩ := h
  refine List.all_eq_true.mpr fun q hq => decide_eq_true ?_
  have hle := hsince.touched q.1
  have hbounds := hw q hq
  rw [ht.old hold] at hle ⊢
  omega

variable (hc : Knows c g.name g.vl) (ht : g.Tame r)

include hc in
theorem get_eq (d : Nat) : get py c g.name (d + 1) = .call (.get g.new) fun (val : Option Bytes) =>
    match val with
    | none => getAll py c g.name g.vl (get py c g.name d)
    | some v =>
      if v = placeholder then .ret (.ok none)
      else if v ≠ [] then .ret (.ok (some v))
      else getAll py c g.name g.vl (get py c g.name d) := by
  have hc : Knows c g.name (g.cur :: g.older) := hc
  rw [get, getOnce, hc.versions, hc.currVersion]
  rfl

include hc in
theorem Asking.busy (h : g.Asking py c r P) : P.Busy := by
  cases h with
  | @start d hd _ =>
    obtain ⟨d, rfl⟩ : ∃ m, d = m + 1 := ⟨d - 1, by omega⟩
    rw [get_eq hc]
    exact ⟨_, _, rfl⟩
  | all _ => exact ⟨_, _, rfl⟩
  | @watch d left w _ _ _ =>
    cases left with
    | nil => exact ⟨_, _, rfl⟩
    | cons k ks => exact ⟨_, _, rfl⟩
  | write _ _ =>
    unfold getWrite
    split
    · exact ⟨_, _, rfl⟩
    · exact ⟨_, _, rfl⟩
  | exec _ _ _ => exact ⟨_, _, rfl⟩

include ht in
/-- The transaction goes through, or the call begins anew. -/
theorem exec_step {d : Nat} {l : List Write} (hd : 1 ≤ d) (h : g.Looked py c w val r)
    (hl : r.find g.orig = some g.item →
      l = moveWrites g.orig g.new g.item.val val (r.pttl g.orig)) (P : GetProg) :
    let Q : GetProg := .call (.exec w l) (getDone (get py c g.name d) val)
    g.GetStep py c P r (commits Q r) (Q.next serve r).1 (Q.next serve r).2 := by
  intro Q
  cases hclean : r.clean w with
  | false =>
    have hcommits : commits Q r = false := hclean
    have hnext : Q.next serve r = (get py c g.name d, r) := by
      simp [Q, Prog.next, serve, hclean, getDone]
    rw [hcommits, hnext]
    refine .on (.start hd fun hold => ?_)
    rw [h.clean ht hold] at hclean
    cases hclean
  | true =>
    have hcommits : commits Q r = true := hclean
    have hnext : Q.next serve r =
        (getDone (get py c g.name d) val (some (applyAll l r).1), (applyAll l r).2) := by
      simp [Q, Prog.next, serve, hclean]
    obtain ⟨hnew, hwatch⟩ := h.unchanged hclean
    rw [hcommits, hnext]
    obtain horig | horig := ht.orig
    · have hmove : (moveAlone g.orig g.new g.item.val val r).1 = true :=
        moveAlone_ok horig g.orig_ne_new
      rw [hl horig, ← moveAlone_eq_applyAll, hmove]
      exact .moves ⟨hnew, horig⟩ h.migrate
    · refine .late hnew horig fun hk => ?_
      rw [hwatch hk] at horig
      cases horig

include hc ht in
/-- **The next command of a `get`.** -/
theorem Asking.next (h : g.Asking py c r P) :
    g.GetStep py c P r (commits P r) (P.next serve r).1 (P.next serve r).2 := by
  cases h with
  | @start d hd hold =>
    obtain ⟨d, rfl⟩ : ∃ m, d = m + 1 := ⟨d - 1, by omega⟩
    have hagain : g.Asking py c r (getAll py c g.name g.vl (get py c g.name d)) :=
      .all fun h => by have := hold h; omega
    rw [get_eq hc]
    simp only [commits, Prog.next, serve, Redis.val?]
    cases hnew : r.find g.new with
    | none => exact .on hagain
    | some y =>
      simp only [Option.map_some]
      split
      · rename_i hy
        exact .hidden hnew hy
      · rename_i hy
        split
        · exact .sees hnew hy
        · exact .on hagain
  | @all d hold =>
    have hwatch : g.Asking py c r (getWatch py c g.name g.vl (get py c g.name d)
        (watchedKeys g.name g.vl) []) := .watch hold rfl fun q hq => absurd hq List.not_mem_nil
    have hplant : (potentialKeys g.name g.vl)[0]? = some g.new := congrArg some g.current
    have hnext : (getAll py c g.name g.vl (get py c g.name d)).next serve r =
        (if ((potentialKeys g.name g.vl).map r.val?).all Option.isNone then
          ((potentialKeys g.name g.vl)[0]?).elim (.ret (.error .indexError)) fun k =>
            .call (.setnx k placeholder) fun _ => .ret (.ok none)
        else getWatch py c g.name g.vl (get py c g.name d) (watchedKeys g.name g.vl) [], r) := rfl
    have hcommits : commits (getAll py c g.name g.vl (get py c g.name d)) r = false := rfl
    rw [hnext, hcommits]
    cases hfound : firstFound ((potentialKeys g.name g.vl).map r.val?) with
    | some p =>
      rw [if_neg]
      · exact .on hwatch
      · intro hall
        rw [firstFound_none.mpr hall] at hfound
        cases hfound
    | none =>
      rw [if_pos (firstFound_none.mp hfound), hplant]
      obtain ⟨y, hnew⟩ | hr | hgone := ht.cases
      · rw [Tame.found_new hnew] at hfound
        cases hfound
      · rw [ht.found_old hr] at hfound
        cases hfound
      · exact .plants hgone
  | @watch d left w hold hkeys hw =>
    cases left with
    | cons k ks =>
      refine .on (.watch hold ?_ ?_)
      · rw [List.map_append, List.append_assoc]
        exact hkeys
      · intro q hq
        obtain hq | hq := List.mem_append.mp hq
        · exact hw q hq
        · rw [List.mem_singleton.mp hq]
          exact ⟨ht.since.touched k, Nat.le_refl _⟩
    | nil =>
      rw [List.append_nil] at hkeys
      simp only [getWatch, getLook, commits, Prog.next, serve]
      obtain ⟨y, hnew⟩ | hr | hgone := ht.cases
      · rw [Tame.found_new hnew]
        by_cases hy : y.val = placeholder
        · exact .mark ⟨_, _, rfl⟩ hnew hy
        · exact .sees hnew hy
      · rw [ht.found_old hr]
        have hentry : g.vl[g.index + 1]? = some g.entry := g.entry_eq
        simp only [hentry]
        have hcur : g.vl[0]? = some g.cur := rfl
        simp only [hcur]
        cases hm : migrate py c g.name g.vl (g.index + 1) g.entry g.item.val with
        | error err => exact .raises hr hm
        | ok val => exact .on (.write (hold hr) ⟨hkeys, hm, r, hr, Since.refl r, hw⟩)
      · rw [hgone.found]
        exact .nothing hgone
  | @write d w val hd hlook =>
    unfold getWrite
    split
    · rename_i hval
      refine .on (.exec hd hlook fun _ => ?_)
      rw [moveWrites, if_pos hval]
      rfl
    · rename_i hval
      refine exec_step ht hd hlook (fun _ => ?_) _
      rw [moveWrites, if_neg hval]
  | exec hd hlook hl => exact exec_step ht hd hlook hl _

end

end OldKey

end SchemaUpdate.Lur
