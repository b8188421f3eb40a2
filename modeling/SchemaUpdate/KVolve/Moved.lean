import SchemaUpdate.KVolve.Idle

/-! # Values behind a change of namespace

A value that stands live under the previous name of its key is moved by the first
thing a handler does with it. From there on the handler acts as if the value had
been moved before. -/

namespace SchemaUpdate.KVolve

open SchemaUpdate.Lib SchemaUpdate.Redis

variable {s : Store}

theorem getDbVal_previous {env : Env} {v : VersionHash} {k old : Bytes}
    (hprev : v.prevNs.bind (constructPrevName k) = some old) (habs : s.has env.d k = false)
    (hold : s.has env.d old = true) : getDbVal env v k s = .ok (some old) := by
  obtain ⟨p, hp, hname⟩ := Option.bind_eq_some_iff.mp hprev
  rw [getDbVal, if_neg (by simp [habs])]
  simp only [walkFuel, prevWalk, hp, hname, hold, if_true]

/-- The value of `k` stands live in database 0, under the previous name of the key. -/
structure Behind (env : Env) (v : VersionHash) (k old : Bytes) (e : Entry) (s : Store) : Prop where
  db : env.d = 0
  prev : v.prevNs.bind (constructPrevName k) = some old
  absent : s.get 0 k = none
  entry : s.get 0 old = some e
  alive : e.alive env.now = true

namespace Behind

variable {env : Env} {v : VersionHash} {k old : Bytes} {e : Entry} {s : Store}
  (hb : Behind env v k old e s)

include hb

theorem ne : old ≠ k := by
  rintro rfl
  have h := hb.absent
  rw [hb.entry] at h
  cases h

theorem hasNot : s.has env.d k = false := by
  rw [Store.has, hb.db, hb.absent]
  rfl

theorem prevNs_ne : v.prevNs ≠ none := by
  intro h
  have hp := hb.prev
  rw [h] at hp
  cases hp

theorem getDbVal : getDbVal env v k s = .ok (some old) := by
  have hhas : s.has env.d old = true := by
    rw [Store.has, hb.db, hb.entry]
    rfl
  exact getDbVal_previous hb.prev hb.hasNot hhas

theorem namespaceUpdate :
    namespaceUpdate env v k s = .ok (s.rename env.now old k) := by
  rw [KVolve.namespaceUpdate, if_neg (by simp [hb.hasNot]), hb.prev]

theorem get_moved : (s.rename env.now old k).get env.d k = some e := by
  rw [hb.db, Store.get_rename_moved hb.ne hb.entry hb.alive, if_neg (fun h => hb.ne h.2.symm),
    if_pos ⟨rfl, rfl⟩]

theorem has_moved : (s.rename env.now old k).has env.d k = true := Store.has_of_get hb.get_moved

theorem gone_moved : (s.rename env.now old k).get env.d old = none := by
  rw [hb.db, Store.get_rename_moved hb.ne hb.entry hb.alive, if_pos ⟨rfl, rfl⟩]

theorem track_moved : track env k old (s.rename env.now old k) = k := by
  rw [track, Store.has, hb.gone_moved]
  rfl

theorem deref_old : deref env old s = .ok e := by
  rw [deref, hb.db, hb.entry]

theorem deref_moved : deref env k (s.rename env.now old k) = .ok e := by
  rw [deref, hb.get_moved]

theorem setShared (f : Int → Int) : Behind env v k old e { s with shared := f } :=
  ⟨hb.db, hb.prev, hb.absent, hb.entry, hb.alive⟩

end Behind

theorem Store.rename_setShared (now : Int) (s : Store) (src dst : Bytes) (f : Int → Int) :
    Store.rename now { s with shared := f } src dst = { s.rename now src dst with shared := f } := by
  rw [Store.rename_eq, Store.rename_eq]
  rfl

theorem Store.vers_rename (now : Int) (s : Store) (src dst : Bytes) (o : Robj) :
    (s.rename now src dst).vers o = s.vers o := by
  unfold Store.vers
  rw [Store.rename_shared]

/-! ## One key -/

def Outdated (v : VersionHash) (vers : Int) : Prop :=
  vers ≠ v.cur ∧ renames v (v.pending vers) = true

section Key

variable {env : Env} {v : VersionHash} {k old : Bytes} {e : Entry} {s : Store}
  (hb : Behind env v k old e s)

include hb

theorem Behind.setnxKey :
    setnxKey env v k s = setnxKey env v k (s.rename env.now old k) := by
  rw [KVolve.setnxKey, if_neg (by simp [hb.hasNot]), hb.getDbVal, ok_bind]
  rw [KVolve.setnxKey, if_pos hb.has_moved]
  exact hb.namespaceUpdate

theorem Behind.incrKey : incrKey env v k s = incrKey env v k (s.rename env.now old k) := by
  rw [KVolve.incrKey, if_neg hb.prevNs_ne, hb.getDbVal, ok_bind]
  rw [incrKey_idle (.inr hb.has_moved)]
  exact hb.namespaceUpdate

theorem Behind.checkRename
    (hout : (∃ n sh, e.obj.val = .str (.int n sh)) ∨ s.vers e.obj ≠ v.cur) :
    checkRename env v [k] s = .ok (s.rename env.now old k) := by
  have hone : checkRenameOne env v k s = .ok (s.rename env.now old k) := by
    rw [checkRenameOne, hb.getDbVal, ok_bind]
    simp only [Option.bind_some, hb.db, hb.entry]
    split
    · exact hb.namespaceUpdate
    · rename_i hint
      rw [if_pos]
      · exact hb.namespaceUpdate
      · rcases hout with ⟨n, sh, hval⟩ | hne
        · exact absurd hval (hint n sh)
        · exact hne
  rw [KVolve.checkRename, if_neg hb.prevNs_ne]
  simp only [List.foldlM_cons, List.foldlM_nil, hone, ok_bind]
  rfl

theorem Behind.checkRename_moved :
    KVolve.checkRename env v [k] (s.rename env.now old k) = .ok (s.rename env.now old k) :=
  checkRename_idle fun j hj => .inr (by rw [List.mem_singleton.mp hj]; exact hb.has_moved)

theorem Behind.migrateSubject (nested : Nested) (type : UType) {small : Bool} {vers : Int}
    (hsmall : small = true → (∃ n sh, e.obj.val = .str (.int n sh)) ∨ s.vers e.obj ≠ v.cur)
    (hout : small = false → Outdated v vers) (subj : Subject) :
    migrateSubject nested env v true type small vers ⟨k, old, subj, s⟩ =
      migrateSubject nested env v true type small vers ⟨k, k, subj, s.rename env.now old k⟩ := by
  have htrack : track env k k (s.rename env.now old k) = k := by
    rw [track, hb.has_moved]
    rfl
  unfold KVolve.migrateSubject
  cases small with
  | true =>
    simp only [if_true, hb.checkRename (hsmall rfl), hb.checkRename_moved, ok_bind,
      hb.track_moved, htrack]
  | false =>
    obtain ⟨hne, hren⟩ := hout rfl
    simp only [Bool.false_eq_true, if_false, if_neg hne, moveFirst, hren, and_self, if_true,
      hb.namespaceUpdate, namespaceUpdate_has hb.has_moved, ok_bind, hb.track_moved, htrack]

omit hb in
theorem Val.int_of_isSmall {x : Val} (h : Val.isSmall x = true) :
    ∃ n sh, x = .str (.int n sh) := by
  cases x with
  | str o =>
    cases o with
    | raw b => cases h
    | int n sh => exact ⟨n, sh, rfl⟩
  | _ => cases h

theorem Behind.checkUpdate (nested : Nested) (type : UType)
    (hout : Val.isSmall e.obj.val = true ∨ Outdated v (s.vers e.obj)) (loc loc' : Bytes) :
    checkUpdateWith nested env v true loc none type k s =
      checkUpdateWith nested env v true loc' none type k (s.rename env.now old k) := by
  simp only [checkUpdateWith, hb.getDbVal, getDbVal_has hb.has_moved, ok_bind, hb.deref_old,
    hb.deref_moved, Store.vers_rename]
  rw [hb.migrateSubject nested type (fun h => .inl (Val.int_of_isSmall h)) fun h => ?_]
  rcases hout with hsm | hout
  · rw [h] at hsm
    cases hsm
  · exact hout

theorem Behind.getKey (hout : Val.isSmall e.obj.val = true ∨ Outdated v (s.vers e.obj)) :
    getKey checkUpdateKvPair env v k s =
      getKey checkUpdateKvPair env v k (s.rename env.now old k) := by
  unfold KVolve.getKey checkUpdateKvPair
  rw [hb.checkUpdate _ _ hout k k]

end Key

/-! ## Containers -/

section Containers

variable {env : Env} {v : VersionHash} {k old : Bytes} {e : Entry} {s : Store}
  (hb : Behind env v k old e s)

theorem foldlM_first {σ α : Type} {f : σ → α → Res σ} {l : List α} (hl : l ≠ []) {a b : σ}
    (h : ∀ x ∈ l, f a x = f b x) : l.foldlM f a = l.foldlM f b := by
  cases l with
  | nil => exact absurd rfl hl
  | cons x l => rw [List.foldlM_cons, List.foldlM_cons, h x (by simp)]

include hb

theorem Behind.tagElem (vers : Int) (el : Elem) :
    tagElem vers el (s.rename env.now old k) =
      ((tagElem vers el s).1, (tagElem vers el s).2.rename env.now old k) ∧
      Behind env v k old e (tagElem vers el s).2 ∧
      ((∃ n sh, e.obj.val = .str (.int n sh)) ∨ (tagElem vers el s).2.vers e.obj = s.vers e.obj) := by
  unfold KVolve.tagElem
  split
  · refine ⟨?_, hb.setShared _, ?_⟩
    · simp only [Store.rename_setShared, Store.rename_shared]
    · unfold Store.vers
      split
      · rename_i n hval
        exact .inl ⟨n, true, hval⟩
      · exact .inr rfl
  · exact ⟨rfl, hb, .inr rfl⟩

variable (type : UType)

theorem Behind.elemStep (hout : Outdated v (s.vers e.obj)) (el : Elem) :
    elemStep checkUpdateKvPair env v type ⟨true, k, old, s⟩ el =
      elemStep checkUpdateKvPair env v type ⟨true, k, k, s.rename env.now old k⟩ el := by
  obtain ⟨htag, hb', hvers⟩ := hb.tagElem (s.vers e.obj) el
  have hsmall : Str.isSmall el.obj = true → (∃ n sh, e.obj.val = .str (.int n sh)) ∨
      (KVolve.tagElem (s.vers e.obj) el s).2.vers e.obj ≠ v.cur :=
    fun _ => hvers.imp_right fun h => by rw [h]; exact hout.1
  have hsubj := hb'.migrateSubject (updRedisCall env) type hsmall (fun _ => hout)
    (.elem { el with vers := s.vers e.obj })
  unfold KVolve.elemStep
  simp only [hb.deref_old, hb.deref_moved, ok_bind, Store.vers_rename, htag]
  simp only [checkUpdateKvPair, checkUpdateWith]
  exact congrArg (· >>= _) (congrArg (· >>= _) hsubj)

variable {l : List Elem} {cfg : Cfg} {entries : List Bytes} {val : Val}

omit hb in
theorem zsetSlots_ne {vers : Int} {l : List (Option Elem)} (h : zsetSlots cfg vers entries = .ok l)
    (hlen : 2 ≤ entries.length) : l ≠ [] := by
  obtain ⟨els, -, h⟩ := bind_eq_ok.mp h
  cases h
  cases els with
  | nil =>
    have hpos : entries.length / 2 ≠ 0 := by omega
    simpa using hpos
  | cons el els => simp

theorem Behind.slotStep (hout : Outdated v (s.vers e.obj)) {slot : Option Elem}
    (hslot : ∀ el, slot = some el → el.vers = s.vers e.obj ∧ Str.isSmall el.obj = false) :
    slotStep checkUpdateKvPair env v type ⟨true, k, old, s⟩ slot =
      slotStep checkUpdateKvPair env v type ⟨true, k, k, s.rename env.now old k⟩ slot := by
  have hcu : checkUpdateKvPair env v true old slot type k s =
      checkUpdateKvPair env v true k slot type k (s.rename env.now old k) := by
    cases slot with
    | none => exact hb.checkUpdate _ _ (.inr hout) _ _
    | some el =>
      obtain ⟨hvers, hsm⟩ := hslot el rfl
      have hsubj := hb.migrateSubject (updRedisCall env) type
        (fun hs : Str.isSmall el.obj = true => by rw [hsm] at hs; cases hs)
        (fun _ => hvers ▸ hout) (.elem el)
      exact congrArg (· >>= _) hsubj
  unfold KVolve.slotStep
  simp only [hb.deref_old, hb.deref_moved, ok_bind, hcu]

theorem Behind.updateAll {loop : Int → Val → LSt → Option (Res LSt)}
    (hne : s.vers e.obj ≠ v.cur)
    (hloop : loop (s.vers e.obj) e.obj.val ⟨true, k, old, s⟩ =
      loop (s.vers e.obj) e.obj.val ⟨true, k, k, s.rename env.now old k⟩)
    (hsome : loop (s.vers e.obj) e.obj.val ⟨true, k, k, s.rename env.now old k⟩ ≠ none) :
    updateAll env v k s loop = updateAll env v k (s.rename env.now old k) loop := by
  unfold KVolve.updateAll
  simp only [hb.getDbVal, getDbVal_has hb.has_moved, ok_bind, hb.deref_old, hb.deref_moved,
    Store.vers_rename, if_neg hne, hloop]
  split
  · rename_i hnone
    exact absurd hnone hsome
  · rfl

theorem Behind.updateAllElems (hout : Outdated v (s.vers e.obj))
    {gather : Val → Res (List Elem)} (hgather : ∀ val l, gather val = .ok l → l ≠ []) :
    (KVolve.updateAll env v k s fun _ val st =>
        some (elemsLoop checkUpdateKvPair env v type gather val st)) =
      (KVolve.updateAll env v k (s.rename env.now old k) fun _ val st =>
        some (elemsLoop checkUpdateKvPair env v type gather val st)) := by
  refine hb.updateAll hout.1 (congrArg some (congrArg (released env e.obj.val) ?_)) (by simp)
  cases hl : gather e.obj.val with
  | error f => rfl
  | ok l => exact foldlM_first (hgather _ _ hl) fun el _ => hb.elemStep type hout el

omit hb in
theorem gatherSet_ne {tbl : Table} (h : gatherSet cfg tbl val = .ok l) : l ≠ [] := by
  unfold gatherSet at h
  split at h
  · rename_i ms
    cases h
    simpa using ms.ne
  · rename_i ms
    cases h
    simpa using ms.ne
  · rename_i fs
    cases h
    simpa [Coll.keys] using fs.ne
  · cases h

omit hb in
theorem ziplistEntries_ne {l : List Bytes} (h : ziplistEntries cfg val = some l) : l ≠ [] := by
  unfold ziplistEntries at h
  split at h
  · rename_i xs
    cases h
    exact xs.2
  · rename_i fs
    cases h
    cases hi : fs.items with
    | nil => exact absurd hi fs.ne
    | cons p ps => simp
  · rename_i ms
    cases h
    cases hi : ms.items with
    | nil => exact absurd hi ms.ne
    | cons p ps => simp
  · cases h

omit hb in
theorem gatherList_ne (h : gatherList cfg val = .ok l) : l ≠ [] := by
  unfold gatherList at h
  split at h
  · rename_i xs
    cases h
    simpa using xs.2
  · split at h
    · rename_i entries hentries
      cases h
      simpa using ziplistEntries_ne hentries
    · cases h

omit hb in
theorem gatherPairs_ne (hne : entries ≠ []) (h : gatherPairs entries = .ok l) : l ≠ [] := by
  unfold gatherPairs at h
  split at h
  · exact absurd rfl hne
  · cases h
  · obtain ⟨l', -, h⟩ := bind_eq_ok.mp h
    cases h
    simp

omit hb in
theorem gatherHash_ne {tbl : Table} (h : gatherHash cfg tbl val = .ok l) : l ≠ [] := by
  unfold gatherHash at h
  split at h
  · rename_i fs
    cases h
    simpa using fs.ne
  · cases h
  · split at h
    · rename_i entries hentries
      exact gatherPairs_ne (ziplistEntries_ne hentries) h
    · cases h

theorem Behind.updateAllZset (hout : Outdated v (s.vers e.obj))
    (hzip : ∃ l, ziplistEntries env.cfg e.obj.val = some l ∧ 2 ≤ l.length) :
    updateAllZset checkUpdateKvPair env v k s =
      updateAllZset checkUpdateKvPair env v k (s.rename env.now old k) := by
  obtain ⟨entries, hentries, hlen⟩ := hzip
  refine hb.updateAll hout.1 ?_ (by simp [hentries])
  simp only [hentries, Option.map_some]
  refine congrArg some ?_
  cases hl : zsetSlots env.cfg (s.vers e.obj) entries with
  | error f => rfl
  | ok l =>
    refine foldlM_first (zsetSlots_ne hl hlen) fun slot hslot => ?_
    refine hb.slotStep _ hout ?_
    rintro el rfl
    obtain ⟨els, hels, hl⟩ := bind_eq_ok.mp hl
    cases hl
    have hel : el ∈ els := by simpa [List.mem_replicate] using hslot
    obtain ⟨b, sc, rfl, -⟩ := gatherZiplist_raw hels el hel
    exact ⟨rfl, rfl⟩

end Containers

/-! ## Handlers -/

/-- The handler, on one key, is one that moves the value `e` before it goes on. -/
def Moves (h : HName) (env : Env) (v : VersionHash) (rest : List Arg) (e : Entry) (s : Store) :
    Prop :=
  match h with
  | .set => getFlags rest.tail ≠ (false, false)
  | .setnx | .incr | .incrby => True
  | .mset | .keys => False
  | .del => rest = [] ∧ ((∃ n sh, e.obj.val = .str (.int n sh)) ∨ s.vers e.obj ≠ v.cur)
  | .mget => rest = [] ∧ (Val.isSmall e.obj.val = true ∨ Outdated v (s.vers e.obj))
  | .get | .getset | .getrange => Val.isSmall e.obj.val = true ∨ Outdated v (s.vers e.obj)
  | .zadd | .zcard | .zscore | .zrem | .zrange | .zrevrange =>
    Outdated v (s.vers e.obj) ∧ ∃ l, ziplistEntries env.cfg e.obj.val = some l ∧ 2 ≤ l.length
  | _ => Outdated v (s.vers e.obj)

theorem onKey_congr {f : Bytes → Store → Res (Bytes × Store)} {k : Arg} {rest : List Arg}
    {t : Store} (h : f k.ptr s = f k.ptr t) :
    onKey f (k :: rest) s = onKey f (k :: rest) t := by
  unfold onKey
  simp only [h]

/-- **A handler does with a value behind a change of namespace what it does with the value
after the move.** -/
theorem Behind.run {env : Env} {v : VersionHash} {k : Arg} {old : Bytes} {e : Entry}
    (hb : Behind env v k.ptr old e s) {h : HName} {rest : List Arg} (hm : Moves h env v rest e s) :
    h.run checkUpdateKvPair env v (k :: rest) s =
      h.run checkUpdateKvPair env v (k :: rest) (s.rename env.now old k.ptr) := by
  have hget : (Val.isSmall e.obj.val = true ∨ Outdated v (s.vers e.obj)) →
      onKey (KVolve.getKey checkUpdateKvPair env v) (k :: rest) s =
        onKey (KVolve.getKey checkUpdateKvPair env v) (k :: rest) (s.rename env.now old k.ptr) :=
    fun hout => onKey_congr (hb.getKey hout)
  have hincr : kvolveIncr checkUpdateKvPair env v (k :: rest) s =
      kvolveIncr checkUpdateKvPair env v (k :: rest) (s.rename env.now old k.ptr) :=
    onKey_congr (by rw [hb.incrKey])
  have hmig : ∀ all : UpdateAll,
      all checkUpdateKvPair env v k.ptr s =
        all checkUpdateKvPair env v k.ptr (s.rename env.now old k.ptr) →
      migrating all checkUpdateKvPair env v (k :: rest) s =
        migrating all checkUpdateKvPair env v (k :: rest) (s.rename env.now old k.ptr) ∧
      creating all checkUpdateKvPair env v (k :: rest) s =
        creating all checkUpdateKvPair env v (k :: rest) (s.rename env.now old k.ptr) :=
    fun _ hall => ⟨onKey_congr (by rw [hall]), onKey_congr (by rw [hall])⟩
  have hset : Outdated v (s.vers e.obj) → _ := fun hout =>
    hmig updateAllSet (hb.updateAllElems .set hout fun _ _ => gatherSet_ne)
  have hlist : Outdated v (s.vers e.obj) → _ := fun hout =>
    hmig updateAllList (hb.updateAllElems .list hout fun _ _ => gatherList_ne)
  have hhash : Outdated v (s.vers e.obj) → _ := fun hout =>
    hmig updateAllHash (hb.updateAllElems .hash hout fun _ _ => gatherHash_ne)
  have hzset : Outdated v (s.vers e.obj) ∧
      (∃ l, ziplistEntries env.cfg e.obj.val = some l ∧ 2 ≤ l.length) → _ := fun hout =>
    hmig KVolve.updateAllZset (hb.updateAllZset hout.1 hout.2)
  cases h with
  | set =>
    cases rest with
    | nil => rfl
    | cons val opts =>
      simp only [HName.run, kvolveSet, hb.setnxKey]
      cases hx : (getFlags opts).2 with
      | true => rfl
      | false =>
        cases hn : (getFlags opts).1 with
        | true => rfl
        | false => exact absurd (Prod.ext hn hx) hm
  | setnx =>
    simp only [HName.run, kvolveSetnx]
    exact onKey_congr (by rw [hb.setnxKey])
  | incr | incrby => exact hincr
  | mset | keys => exact hm.elim
  | del =>
    obtain ⟨rfl, hout⟩ := hm
    simp only [HName.run, kvolveDel, List.map_cons, List.map_nil, hb.checkRename hout,
      hb.checkRename_moved]
  | mget =>
    obtain ⟨rfl, hout⟩ := hm
    simp only [HName.run, kvolveMget, mgetLoop, hb.getKey hout]
  | get | getset | getrange => exact hget hm
  | sadd => exact (hset hm).2
  | scard | spop | smembers | sismember | srem => exact (hset hm).1
  | lpush | rpush => exact (hlist hm).2
  | lrange | lpop | llen | lset | rpop => exact (hlist hm).1
  | hset | hmset => exact (hhash hm).2
  | hdel | hget | hgetall | hmget => exact (hhash hm).1
  | zadd => exact (hzset hm).2
  | zcard | zscore | zrem | zrange | zrevrange => exact (hzset hm).1

end SchemaUpdate.KVolve
