import Mathlib.Data.List.Dedup
import SchemaUpdate.Lur.Single

/-! # Two stores that differ under some names

The same call on two stores that agree on the names of its key, now and from now on,
has the same reply and leaves stores that agree where the two did before. -/

namespace SchemaUpdate.Lur

open SchemaUpdate.Lib

/-! ## Stores as time passes -/

def Redis.later (r : Redis) (d : Nat) : Redis := { r with now := r.now + d }

theorem Redis.later_later (r : Redis) (m d : Nat) : (r.later m).later d = r.later (m + d) := by
  simp [Redis.later, Int.add_assoc]

theorem Redis.find_later_zero (r : Redis) (q : Bytes) : (r.later 0).find q = r.find q := by
  rw [Redis.find, Redis.find, Redis.later]
  simp

variable {r : Redis}

theorem Redis.find_later_none {q : Bytes} (h : r.find q = none) (d : Nat) :
    (r.later d).find q = none := by
  rw [Redis.find, Option.filter_eq_none_iff] at h ⊢
  intro x hx hlive
  refine h x hx ?_
  obtain ⟨v, expire⟩ := x
  cases expire with
  | none => rfl
  | some t =>
    have hlive : r.now + d < t := of_decide_eq_true hlive
    simp only [Option.all_some, decide_eq_true_eq]
    omega

theorem Redis.find_later_put (r : Redis) (k q : Bytes) (x : Option Item) (d : Nat) :
    ((r.put k x).later d).find q =
      if q = k then x.filter fun y => y.expire.all (r.now + d < ·) else (r.later d).find q := by
  exact Redis.find_put (r.later d) k q x

theorem Redis.find_later_del (r : Redis) (k q : Bytes) (d : Nat) :
    ((r.del k).later d).find q = if q = k then none else (r.later d).find q := by
  unfold Redis.del
  split
  · exact Redis.find_later_put r k q none d
  · rename_i hk
    split
    · rename_i hq
      rw [hq]
      exact Redis.find_later_none (by simpa using hk) d
    · rfl

theorem Redis.find_later_delAll (r : Redis) (ks : List Bytes) (q : Bytes) (d : Nat) :
    ((ks.foldl Redis.del r).later d).find q = if q ∈ ks then none else (r.later d).find q := by
  induction ks generalizing r with
  | nil => simp
  | cons k ks ih =>
    rw [List.foldl_cons, ih, Redis.find_later_del]
    by_cases hq : q ∈ ks <;> by_cases hk : q = k <;> simp [hq, hk]

/-! ## Agreement -/

/-- The bookkeeping of the two stores is the same. -/
structure SameBooks (r r' : Redis) : Prop where
  versions : r'.versions = r.versions
  dsl : r'.dsl = r.dsl
  now : r'.now = r.now
  watched : ∀ ns, r'.touched (.versions ns) = r.touched (.versions ns)
  watchedDsl : r'.touched .dsl = r.touched .dsl

/-- The two stores agree on the names outside the set, now and from now on. -/
structure Agree (S : Bytes → Prop) (r r' : Redis) : Prop extends SameBooks r r' where
  find : ∀ d q, ¬ S q → (r'.later d).find q = (r.later d).find q

theorem SameBooks.refl (r : Redis) : SameBooks r r := ⟨rfl, rfl, rfl, fun _ => rfl, rfl⟩

variable {s : Redis}

theorem SameBooks.trans {t : Redis} (h : SameBooks r s) (h' : SameBooks s t) : SameBooks r t :=
  ⟨h'.versions.trans h.versions, h'.dsl.trans h.dsl, h'.now.trans h.now,
    fun ns => (h'.watched ns).trans (h.watched ns), h'.watchedDsl.trans h.watchedDsl⟩

theorem SameBooks.symm (h : SameBooks r s) : SameBooks s r :=
  ⟨h.versions.symm, h.dsl.symm, h.now.symm, fun ns => (h.watched ns).symm, h.watchedDsl.symm⟩

theorem sameBooks_put (r : Redis) (k : Bytes) (x : Option Item) : SameBooks r (r.put k x) := by
  refine ⟨rfl, rfl, rfl, fun ns => ?_, ?_⟩ <;>
    simp [Redis.put, Redis.touch, Function.update_of_ne]

theorem sameBooks_del (r : Redis) (k : Bytes) : SameBooks r (r.del k) := by
  unfold Redis.del
  split
  · exact sameBooks_put r k none
  · exact SameBooks.refl r

theorem sameBooks_delAll (r : Redis) (ks : List Bytes) : SameBooks r (ks.foldl Redis.del r) := by
  induction ks generalizing r with
  | nil => exact SameBooks.refl r
  | cons k ks ih => exact (sameBooks_del r k).trans (ih _)

theorem SameBooks.both {r' s' : Redis} (h : SameBooks r r') (hs : SameBooks r s)
    (hs' : SameBooks r' s') : SameBooks s s' := (hs.symm.trans h).trans hs'

section

variable {S : Bytes → Prop} {r r' : Redis} {q : Bytes} (h : Agree S r r')

include h

theorem Agree.find_now (hq : ¬ S q) : r'.find q = r.find q := by
  rw [← Redis.find_later_zero r' q, ← Redis.find_later_zero r q]
  exact h.find 0 q hq

theorem Agree.val? (hq : ¬ S q) : r'.val? q = r.val? q := by
  rw [Redis.val?, Redis.val?, h.find_now hq]

theorem Agree.put (k : Bytes) (x : Option Item) : Agree S (r.put k x) (r'.put k x) := by
  refine ⟨h.both (sameBooks_put r k x) (sameBooks_put r' k x), fun d q hq => ?_⟩
  rw [Redis.find_later_put, Redis.find_later_put, h.now, h.find d q hq]

theorem Agree.del (k : Bytes) : Agree S (r.del k) (r'.del k) := by
  refine ⟨h.both (sameBooks_del r k) (sameBooks_del r' k), fun d q hq => ?_⟩
  rw [Redis.find_later_del, Redis.find_later_del, h.find d q hq]

theorem Agree.delAll (ks : List Bytes) :
    Agree S (ks.foldl Redis.del r) (ks.foldl Redis.del r') := by
  refine ⟨h.both (sameBooks_delAll r ks) (sameBooks_delAll r' ks), fun d q hq => ?_⟩
  rw [Redis.find_later_delAll, Redis.find_later_delAll, h.find d q hq]

theorem Agree.later (m : Nat) : Agree S (r.later m) (r'.later m) := by
  refine ⟨⟨h.versions, h.dsl, ?_, h.watched, h.watchedDsl⟩, fun d q hq => ?_⟩
  · show r'.now + m = r.now + m
    rw [h.now]
  · rw [Redis.later_later, Redis.later_later]
    exact h.find (m + d) q hq

theorem Agree.pttl (hq : ¬ S q) : r'.pttl q = r.pttl q := by
  rw [Redis.pttl, Redis.pttl, h.find_now hq, h.now]

theorem Agree.write {w : Write} (hdata : w.onData = true) (hkeys : ∀ q ∈ w.dataKeys, ¬ S q) :
    (w.apply r').1 = (w.apply r).1 ∧ Agree S (w.apply r).2 (w.apply r').2 := by
  cases w with
  | set k v => exact ⟨rfl, h.put k _⟩
  | psetex k ms v =>
    simp only [Write.apply, h.now]
    split
    · exact ⟨rfl, h⟩
    · exact ⟨rfl, h.put k _⟩
  | del k => exact ⟨rfl, h.del k⟩
  | rename src dst =>
    simp only [Write.apply, h.find_now (hkeys src (by simp [Write.dataKeys]))]
    split
    · exact ⟨rfl, h⟩
    · split
      · exact ⟨rfl, h⟩
      · exact ⟨rfl, (h.put src none).put dst _⟩
  | lpush | rpush | delVersions | hset => cases hdata

theorem Agree.applyAll {l : List Write} (hdata : ∀ w ∈ l, w.onData = true)
    (hkeys : ∀ w ∈ l, ∀ q ∈ w.dataKeys, ¬ S q) :
    (applyAll l r').1 = (applyAll l r).1 ∧ Agree S (applyAll l r).2 (applyAll l r').2 := by
  induction l generalizing r r' with
  | nil => exact ⟨rfl, h⟩
  | cons w ws ih =>
    obtain ⟨hone, hw⟩ := h.write (hdata w (by simp)) (hkeys w (by simp))
    obtain ⟨hrest, hws⟩ := ih hw (fun w' hw' => hdata w' (by simp [hw']))
      (fun w' hw' => hkeys w' (by simp [hw']))
    simp only [Lur.applyAll]
    rw [hone, hrest]
    exact ⟨rfl, hws⟩

/-- A move sees nothing of the names outside. -/
theorem Agree.moveAlone {orig new : Bytes} (horig : ¬ S orig) (hnew : ¬ S new)
    (found val : Bytes) : (moveAlone orig new found val r').1 = (moveAlone orig new found val r).1 ∧
      Agree S (moveAlone orig new found val r).2 (moveAlone orig new found val r').2 := by
  unfold Lur.moveAlone
  rw [h.pttl horig]
  split
  · refine h.applyAll ?_ ?_
    · intro w hw
      simp only [List.mem_cons, List.not_mem_nil, or_false] at hw
      obtain rfl | rfl := hw
      · split <;> rfl
      · rfl
    · intro w hw q hq
      simp only [List.mem_cons, List.not_mem_nil, or_false] at hw
      obtain rfl | rfl := hw
      · have hq : q = new := by
          split at hq <;> simpa [Write.dataKeys] using hq
        rw [hq]
        exact hnew
      · rw [List.mem_singleton.mp hq]
        exact horig
  · refine h.applyAll ?_ ?_
    · intro w hw
      rw [List.mem_singleton.mp hw]
      rfl
    · intro w hw q hq
      rw [List.mem_singleton.mp hw] at hq
      have hq : q = orig ∨ q = new := by simpa [Write.dataKeys] using hq
      obtain rfl | rfl := hq
      · exact horig
      · exact hnew

theorem Agree.serveSet {k : Bytes} (hk : ¬ S k) (v : Bytes) (o : SetOpts) :
    (serveSet k v o r').1 = (serveSet k v o r).1 ∧
      Agree S (serveSet k v o r).2 (serveSet k v o r').2 := by
  unfold Lur.serveSet
  rw [h.now, h.find_now hk]
  split
  · exact ⟨rfl, h⟩
  · split
    · exact ⟨rfl, h⟩
    · exact ⟨rfl, h.put k _⟩

/-! ## Calls -/

omit h

variable {J : Type} {py : Py J} {c : Client J} {name : Bytes} {cur : Ver × Ns}
  {vl : List (Ver × Ns)}

theorem Agree.getAllAlone (h : Agree S r r') (hnames : ∀ q ∈ copies name (cur :: vl), ¬ S q) :
    (getAllAlone py c name cur vl r').1 = (getAllAlone py c name cur vl r).1 ∧
      Agree S (getAllAlone py c name cur vl r).2 (getAllAlone py c name cur vl r').2 := by
  have hvals : (potentialKeys name (cur :: vl)).map r'.val? =
      (potentialKeys name (cur :: vl)).map r.val? :=
    List.map_congr_left fun q hq => h.val? (hnames q (potential_mem_copies hq))
  unfold Lur.getAllAlone
  rw [hvals]
  split
  · exact ⟨rfl, h.put _ _⟩
  · exact ⟨rfl, h⟩
  · split
    · exact ⟨rfl, h⟩
    · rename_i e he
      split
      · exact ⟨rfl, h⟩
      · have horig := hnames _ (nameAt_mem_copies name
          (List.mem_cons_of_mem cur (List.mem_of_getElem? he)))
        obtain ⟨hone, hmove⟩ := h.moveAlone horig (hnames _ current_mem_copies) _ _
        exact ⟨by simp only [hone], hmove⟩

/-- **`get` on names on which the stores agree.** -/
theorem Agree.get (py : Py J) (h : Agree S r r') (hc : Knows c name (cur :: vl))
    (hnames : ∀ q ∈ copies name (cur :: vl), ¬ S q) (depth : Nat) :
    ((get py c name depth).run serve r').1 = ((get py c name depth).run serve r).1 ∧
      Agree S ((get py c name depth).run serve r).2 ((get py c name depth).run serve r').2 := by
  cases depth with
  | zero => exact ⟨rfl, h⟩
  | succ depth =>
    rw [run_get py hc, run_get py hc]
    unfold getAlone
    rw [h.val? (hnames _ current_mem_copies)]
    split
    · exact h.getAllAlone hnames
    · split
      · exact ⟨rfl, h⟩
      · split
        · exact ⟨rfl, h⟩
        · exact h.getAllAlone hnames

variable (h : Agree S r r')

include h

theorem Agree.set (hc : Knows c name (cur :: vl))
    (hcur : ¬ S (versioned cur.1 name)) (value : Bytes) (o : SetOpts) :
    ((set c name value o).run serve r').1 = ((set c name value o).run serve r).1 ∧
      Agree S ((set c name value o).run serve r).2 ((set c name value o).run serve r').2 := by
  rw [run_set hc, run_set hc]
  unfold setAlone
  rw [h.find_now hcur]
  split
  · obtain ⟨hone, hset⟩ := h.serveSet hcur value { o with ex := truthy o.ex, px := truthy o.px }
    exact ⟨by simp only [hone], hset.delAll _⟩
  · split
    · exact ⟨rfl, h.put _ _⟩
    · exact ⟨rfl, (h.put _ _).delAll _⟩

theorem Agree.del_reply {ks : List Bytes} (hks : ∀ k ∈ ks, ¬ S k) :
    (ks.dedup.filter fun k => (r'.find k).isSome).length =
      (ks.dedup.filter fun k => (r.find k).isSome).length := by
  refine congrArg List.length (List.filter_congr fun k hk => ?_)
  rw [h.find_now (hks k (List.mem_dedup.mp hk))]

theorem Agree.delete (c : Client J) (names : List Bytes)
    (hnames : ∀ ks, deleteNames c names = .ok ks → ∀ k ∈ ks, ¬ S k) :
    ((delete c names).run serve r').1 = ((delete c names).run serve r).1 ∧
      Agree S ((delete c names).run serve r).2 ((delete c names).run serve r').2 := by
  unfold Lur.delete
  match hks : deleteNames c names with
  | .error e => exact ⟨rfl, h⟩
  | .ok [] => exact ⟨rfl, h⟩
  | .ok (k :: ks) =>
    simp only [Prog.run_call, Prog.run_ret, serve]
    rw [h.del_reply (hnames _ hks)]
    exact ⟨rfl, h.delAll _⟩

theorem Agree.keys {pattern : Bytes → Bool} (hpattern : ∀ q, S q → pattern q = false) :
    ((serve (.keys pattern) r').1).Perm (serve (.keys pattern) r).1 := by
  have hmem : ∀ (s : Redis) q, q ∈ s.data.keys.filter (fun k => pattern k && (s.find k).isSome) ↔
      pattern q = true ∧ (s.find q).isSome := by
    intro s q
    simp only [List.mem_filter, Bool.and_eq_true]
    constructor
    · exact fun hq => hq.2
    · intro hq
      refine ⟨?_, hq⟩
      obtain ⟨x, hx⟩ := Option.isSome_iff_exists.mp hq.2
      have hlook := (Option.filter_eq_some_iff.mp hx).1
      exact AList.lookup_isSome.mp (by rw [hlook]; rfl)
  refine (List.perm_ext_iff_of_nodup ?_ ?_).mpr ?_
  · exact (AList.keys_nodup _).filter _
  · exact (AList.keys_nodup _).filter _
  · intro q
    show q ∈ r'.data.keys.filter _ ↔ q ∈ r.data.keys.filter _
    rw [hmem, hmem]
    by_cases hq : S q
    · simp [hpattern q hq]
    · rw [h.find_now hq]

end

end SchemaUpdate.Lur
