import SchemaUpdate.Lib.Emit
import SchemaUpdate.Redis.Signals
import SchemaUpdate.KVolve.Aborts
import SchemaUpdate.KVolve.Keys

/-! # Watched keys

A client that watches a key is marked when the key is signalled as modified. What a
migration changes through Redis commands and renames is signalled by these; a string that
is changed in place is signalled by hand, under its new value instead of its key. -/

namespace SchemaUpdate.KVolve

open SchemaUpdate.Lib SchemaUpdate.Redis

/-- A call of `signalModifiedKey`: the database and the key. -/
abbrev Signal := Nat × Bytes

/-- The watched keys of the databases with the clients that watch them, and the clients marked
`REDIS_DIRTY_CAS`. -/
structure Watching where
  watchedKeys : Nat → Dict Bytes (List Nat)
  dirtyCas : Finset Nat

variable (w : Watching) (cfg : Cfg) (sig : Signal) (vs : List Bytes)

def Watching.touchWatchedKey : Watching :=
  match (w.watchedKeys sig.1).lookup sig.2 with
  | none => w
  | some clients => { w with dirtyCas := w.dirtyCas ∪ clients.toFinset }

def Watching.touchAll (l : List Signal) : Watching :=
  l.foldl Watching.touchWatchedKey w

theorem Watching.touch_watched : (w.touchWatchedKey sig).watchedKeys = w.watchedKeys := by
  unfold touchWatchedKey
  split <;> rfl

theorem Watching.touch_dirty : w.dirtyCas ⊆ (w.touchWatchedKey sig).dirtyCas := by
  unfold touchWatchedKey
  split
  · exact Finset.Subset.refl _
  · exact Finset.subset_union_left

theorem Watching.touchAll_dirty (l : List Signal) : w.dirtyCas ⊆ (w.touchAll l).dirtyCas := by
  induction l generalizing w with
  | nil => exact Finset.Subset.refl _
  | cons sig l ih => exact (w.touch_dirty sig).trans (ih _)

theorem Watching.touchAll_marks {l : List Signal} {d : Nat} {k : Bytes} {c : Nat}
    {clients : List Nat} (hw : (w.watchedKeys d).lookup k = some clients) (hc : c ∈ clients)
    (hl : (d, k) ∈ l) : c ∈ (w.touchAll l).dirtyCas := by
  induction l generalizing w with
  | nil => cases hl
  | cons sig l ih =>
    obtain rfl | hl := List.mem_cons.mp hl
    · refine (w.touchWatchedKey (d, k)).touchAll_dirty l ?_
      rw [touchWatchedKey, hw]
      exact Finset.mem_union_right _ (List.mem_toFinset.mpr hc)
    · exact ih _ (by rw [w.touch_watched sig]; exact hw) hl

/-! ## What can be read under a key -/

def shown (now : Int) (s : Store) (d : Nat) (k : Bytes) : Option Content := shownIn now (s.dbs d) k

theorem shown_eq (now : Int) (s : Store) (d : Nat) (k : Bytes) :
    shown now s d k = ((s.get d k).filter (·.alive now)).map (·.obj.val.content) := rfl

variable {now : Int} {s s' : Store} {env : Env} {v : VersionHash} {loc : Bytes}
    {P : Bytes → Bytes → Bytes → Prop}

theorem shown_congr {d : Nat} {k : Bytes} (h : s'.get d k = s.get d k) :
    shown now s' d k = shown now s d k := by
  rw [shown_eq, shown_eq, h]

theorem shown_retag (now : Int) (t : Int) (o : Option Entry) :
    ((o.map (retag t)).filter (·.alive now)).map (·.obj.val.content) =
      (o.filter (·.alive now)).map (·.obj.val.content) := by
  cases o with
  | none => rfl
  | some e =>
    simp only [Option.map_some, Option.filter, Entry.alive_congr (retag_expire t e).symm]
    split
    · simp only [Option.map_some, retag_val]
    · rfl

theorem shown_setVers (now : Int) (s : Store) (d : Nat) (k : Bytes) (t : Int) (d' : Nat)
    (j : Bytes) : shown now (s.setVers d k t) d' j = shown now s d' j := by
  rw [shown_eq, shown_eq, Store.get_setVers]
  split
  · rename_i h
    rw [h.1, h.2, shown_retag]
  · rfl

theorem shown_prevcallCheck (now : Int) (s : Store) (d : Nat) (k : Bytes) :
    shown now (prevcallCheck s) d k = shown now s d k := by
  unfold prevcallCheck
  generalize s.tmp.entries = l
  induction l generalizing s with
  | nil => rfl
  | cons p l ih =>
    rw [List.foldl_cons, ih]
    unfold prevcallStep
    split
    · rfl
    · exact shown_setVers ..

/-- The registry stays, and what changes for a reader of the keys `C` is signalled; which keys
these are may depend on the registry. -/
structure Covers (now : Int) (C : Reg → Nat → Bytes → Prop) (l : List Signal) (s s' : Store) : Prop where
  reg : s'.reg = s.reg
  told : ∀ d k, C s.reg d k → shown now s' d k ≠ shown now s d k → (d, k) ∈ l

section Covers

variable {now : Int} {C : Reg → Nat → Bytes → Prop} {l l' : List Signal} {s t u : Store}

theorem Covers.silent (hreg : t.reg = s.reg) (h : ∀ d k, shown now t d k = shown now s d k) :
    Covers now C l s t := ⟨hreg, fun d k _ hne => absurd (h d k) hne⟩

theorem Covers.refl (s : Store) : Covers now C l s s := .silent rfl fun _ _ => rfl

theorem Covers.trans (h : Covers now C l s t) (h' : Covers now C l' t u) :
    Covers now C (l ++ l') s u := by
  refine ⟨h'.reg.trans h.reg, fun d k hC hne => List.mem_append.mpr ?_⟩
  by_cases ht : shown now t d k = shown now s d k
  · exact .inr (h'.told d k (by rw [h.reg]; exact hC) (by rw [ht]; exact hne))
  · exact .inl (h.told d k hC ht)

theorem Covers.mono {C' : Reg → Nat → Bytes → Prop} (h : Covers now C l s t)
    (hC : ∀ reg d k, C' reg d k → C reg d k) : Covers now C' l s t :=
  ⟨h.reg, fun d k hk => h.told d k (hC s.reg d k hk)⟩

theorem Covers.put_unread {d : Nat} {k : Bytes} (h : ¬ C s.reg d k) (x : Option Entry) :
    Covers now C l s (s.put d k x) := by
  refine ⟨rfl, fun d' j hC hne => absurd (shown_congr ?_) hne⟩
  rw [Store.get_put, if_neg]
  rintro ⟨rfl, rfl⟩
  exact h hC

theorem Covers.setVers (d : Nat) (k : Bytes) (t : Int) : Covers now C l s (s.setVers d k t) :=
  .silent (Store.setVers_reg ..) fun _ _ => shown_setVers ..

theorem Covers.shared (f : Int → Int) : Covers now C l s { s with shared := f } :=
  .silent rfl fun _ _ => rfl

end Covers

/-! ## Renames -/

/-- `renameGenericCommand` signals both names. -/
def renameSignals (now : Int) (s : Store) (src dst : Bytes) : List Signal :=
  if src = dst then []
  else
    match s.get 0 src with
    | none => []
    | some e => if e.alive now then [(0, src), (0, dst)] else []

theorem rename_covers (now : Int) (C : Reg → Nat → Bytes → Prop) (s : Store) (src dst : Bytes) :
    Covers now C (renameSignals now s src dst) s (s.rename now src dst) := by
  unfold renameSignals Store.rename
  split
  · exact .refl s
  · cases hsrc : s.get 0 src with
    | none => exact .refl s
    | some e =>
      simp only
      split
      · refine ⟨rfl, fun d k _ hne => ?_⟩
        by_contra hnot
        refine hne (shown_congr ?_)
        rw [Store.get_put, if_neg, Store.get_put, if_neg]
        · rintro ⟨rfl, rfl⟩
          exact hnot (by simp)
        · rintro ⟨rfl, rfl⟩
          exact hnot (by simp)
      · rename_i hdead
        refine .silent rfl fun d k => ?_
        rw [shown_eq, shown_eq, Store.get_put]
        split
        · rename_i h
          rw [h.1, h.2, hsrc]
          simp [Option.filter, hdead]
        · rfl

def namespaceSignals (env : Env) (v : VersionHash) (key : Bytes) (s : Store) : List Signal :=
  if s.has env.d key then []
  else
    match v.prevNs.bind (constructPrevName key) with
    | none => []
    | some old => renameSignals env.now s old key

theorem namespaceUpdate_covers {key : Bytes} (C : Reg → Nat → Bytes → Prop)
    (h : namespaceUpdate env v key s = .ok s') :
    Covers env.now C (namespaceSignals env v key s) s s' := by
  unfold namespaceUpdate at h
  unfold namespaceSignals
  split at h
  · rename_i hhas
    cases h
    exact .refl s
  · rename_i hhas
    rw [if_neg hhas]
    cases hold : v.prevNs.bind (constructPrevName key) with
    | none =>
      rw [hold] at h
      cases h
    | some old =>
      rw [hold] at h
      cases h
      exact rename_covers ..

def checkRenameSignals (env : Env) (v : VersionHash) (s : Store) (key : Bytes) : List Signal :=
  onOk (getDbVal env v key s) fun found =>
    match found.bind (s.get env.d) with
    | none => []
    | some e =>
      match e.obj.val with
      | .str (.int _ _) => namespaceSignals env v key s
      | _ => if s.vers e.obj ≠ v.cur then namespaceSignals env v key s else []

theorem checkRenameOne_covers {key : Bytes} (C : Reg → Nat → Bytes → Prop)
    (h : checkRenameOne env v key s = .ok s') :
    Covers env.now C (checkRenameSignals env v s key) s s' := by
  obtain ⟨found, hfound, h⟩ := bind_eq_ok.mp h
  cases he : found.bind (s.get env.d) with
  | none =>
    rw [he] at h
    cases h
    exact .refl s
  | some e =>
    simp only [he] at h
    split at h
    · rename_i n sh hval
      simp only [checkRenameSignals, hfound, onOk_ok, he, hval]
      exact namespaceUpdate_covers C h
    · split at h
      · rename_i hv
        simp only [checkRenameSignals, hfound, onOk_ok, he, if_pos hv]
        exact namespaceUpdate_covers C h
      · cases h
        exact .refl s

/-- `kvolve_check_rename` on several keys. -/
def checkRenameAll (env : Env) (v : VersionHash) (keys : List Bytes) (s : Store) : List Signal :=
  if v.prevNs = none then []
  else emitted (fun s k => checkRenameOne env v k s) (checkRenameSignals env v) s keys

theorem checkRename_covers {keys : List Bytes} (C : Reg → Nat → Bytes → Prop)
    (h : checkRename env v keys s = .ok s') :
    Covers env.now C (checkRenameAll env v keys s) s s' := by
  unfold checkRename at h
  unfold checkRenameAll
  split at h
  · cases h
    exact .refl s
  · rename_i hprev
    rw [if_neg hprev]
    exact emitted_rel Covers.refl Covers.trans (fun _ _ _ _ h => checkRenameOne_covers C h) h

/-! ## Commands on one key -/

/-- A command's procedure with the test before its call of `signalModifiedKey`; without the call
nothing changes for a reader. -/
structure SigProc where
  proc : KeyProc
  touch : Option Val → Reply × Act → Bool
  sound : ∀ cur, touch cur (proc cur) = false → (proc cur).2.Silent cur

def sigSadd : SigProc :=
  ⟨saddProc cfg vs, fun _ out => counted out.1, sadd_silent cfg vs⟩

def sigSrem : SigProc :=
  ⟨sremProc vs, fun _ out => counted out.1, srem_silent vs⟩

def sigLinsert (pivot b : Bytes) : SigProc :=
  ⟨linsertBeforeProc cfg pivot b, fun _ out => counted out.1, linsert_silent cfg pivot b⟩

def sigLrem (b : Bytes) : SigProc :=
  ⟨lremOneProc b, fun _ out => counted out.1, lrem_silent b⟩

def sigHset (f b : Bytes) : SigProc :=
  ⟨hsetProc cfg [(f, b)] fun _ => ok, fun _ out => out.2.stores,
    fun cur h => Act.silent_of_not_stores h cur⟩

def sigHdel (l : List Bytes) : SigProc :=
  ⟨hdelProc l, fun _ out => counted out.1, hdel_silent l⟩

def sigZadd (l : List (Bytes × Double)) : SigProc :=
  ⟨zaddProc cfg l, fun cur _ => zaddSignals cfg l cur, zadd_silent cfg l⟩

def sigZrem (l : List Bytes) : SigProc :=
  ⟨zremProc l, fun _ out => counted out.1, zrem_silent l⟩

section Procs

variable (env : Env) (key : Bytes)

def SigProc.signals (p : SigProc) (s : Store) : List Signal :=
  let cur := (liveEntry env.now (s.dbs env.d) key).map (·.obj.val)
  if p.touch cur (p.proc cur) then [(env.d, key)] else []

theorem SigProc.covers (p : SigProc) (C : Reg → Nat → Bytes → Prop) (s : Store) :
    Covers env.now C (p.signals env key s) s (runProc env key p.proc s) := by
  have hother : ∀ d k, ¬ (d = env.d ∧ k = key) →
      shown env.now (runProc env key p.proc s) d k = shown env.now s d k := by
    intro d k hne
    by_cases hd : d = env.d
    · subst hd
      rw [shown, shown, runProc, Store.setDb_dbs_self]
      exact Act.shown_run_ne _ _ _ _ fun hk => hne ⟨rfl, hk⟩
    · rw [shown, runProc, Store.setDb_dbs_ne _ _ _ hd, shown]
  unfold SigProc.signals
  refine ⟨rfl, fun d k _ hne => ?_⟩
  by_cases hk : d = env.d ∧ k = key
  · obtain ⟨rfl, rfl⟩ := hk
    cases ht : p.touch ((liveEntry env.now (s.dbs env.d) k).map (·.obj.val))
        (p.proc ((liveEntry env.now (s.dbs env.d) k).map (·.obj.val))) with
    | true => simp [ht]
    | false =>
      refine absurd ?_ hne
      rw [shown, shown, runProc, Store.setDb_dbs_self]
      exact (p.sound _ ht).shown k
  · exact absurd (hother d k hk) hne

def runProcs (ps : List SigProc) (s : Store) : Store :=
  ps.foldl (fun s p => runProc env key p.proc s) s

def procsSignals : List SigProc → Store → List Signal
  | [], _ => []
  | p :: ps, s => p.signals env key s ++ procsSignals ps (runProc env key p.proc s)

theorem procs_cover (C : Reg → Nat → Bytes → Prop) (ps : List SigProc) (s : Store) :
    Covers env.now C (procsSignals env key ps s) s (runProcs env key ps s) := by
  induction ps generalizing s with
  | nil => exact .refl s
  | cons p ps ih => exact (p.covers env key C s).trans (ih _)

end Procs

/-! ## Elements -/

def hashProcs (f b : Bytes) (e : Elem) : List SigProc :=
  sigHset cfg (cstr f) (cstr b) ::
    if cstr e.obj.bytes ≠ cstr f then [sigHdel [e.obj.bytes]] else []

def zsetProcs (m : Bytes) (score : Double) (e : Elem) : List SigProc :=
  (match cfg.getDouble (cfg.fmtF score) with
    | some d => [sigZadd cfg [(cstr m, d)]]
    | none => []) ++
    if cstr e.obj.bytes ≠ cstr m then [sigZrem [e.obj.bytes]] else []

/-- The commands that write an element back. -/
def elemProcs (type : UType) (r : UpdRes) (e : Elem) : List SigProc :=
  match type with
  | .string => []
  | .set =>
    match r.val with
    | none => []
    | some b => [sigSadd cfg [cstr b], sigSrem [e.obj.bytes]]
  | .list =>
    match r.val with
    | none => []
    | some b => [sigLinsert cfg e.obj.bytes (cstr b), sigLrem e.obj.bytes]
  | .zset =>
    if r.val.isSome ∨ r.score.isSome then
      zsetProcs cfg (r.val.getD e.obj.bytes) (r.score.getD e.score) e
    else []
  | .hash =>
    if r.val.isSome ∨ r.fval.isSome then
      onOk (newField r e) fun f => onOk (newFieldVal r e) fun b => hashProcs cfg f b e
    else []

section Elements

variable {env : Env} {key loc : Bytes} {e : Elem} {s : Store} {out : Elem × Store} {b : Bytes}

theorem updateSetElem_procs (h : updateSetElem env key loc b e s = .ok out) :
    out.2 = runProcs env key [sigSadd env.cfg [cstr b], sigSrem [e.obj.bytes]] s := by
  obtain ⟨_, -, h⟩ := bind_eq_ok.mp h
  obtain ⟨_, -, h⟩ := bind_eq_ok.mp h
  obtain ⟨_, -, h⟩ := bind_eq_ok.mp h
  obtain ⟨_, -, h⟩ := bind_eq_ok.mp h
  cases h
  rfl

theorem updateListElem_procs (h : updateListElem env key loc b e s = .ok out) :
    out.2 = runProcs env key [sigLinsert env.cfg e.obj.bytes (cstr b), sigLrem e.obj.bytes] s := by
  obtain ⟨_, -, h⟩ := bind_eq_ok.mp h
  obtain ⟨_, -, h⟩ := bind_eq_ok.mp h
  obtain ⟨_, -, h⟩ := bind_eq_ok.mp h
  obtain ⟨_, -, h⟩ := bind_eq_ok.mp h
  cases h
  rfl

theorem updateHashElem_procs {f : Bytes} (h : updateHashElem env key loc f b e s = .ok out) :
    out.2 = runProcs env key (hashProcs env.cfg f b e) s := by
  obtain ⟨_, -, h⟩ := bind_eq_ok.mp h
  obtain ⟨_, -, h⟩ := bind_eq_ok.mp h
  obtain ⟨_, -, h⟩ := bind_eq_ok.mp h
  obtain ⟨old, hold, h⟩ := bind_eq_ok.mp h
  obtain ⟨_, -, h⟩ := bind_eq_ok.mp h
  obtain ⟨_, -, h⟩ := bind_eq_ok.mp h
  cases h
  -- the field's text is read from a raw object
  have hraw : old = cstr e.obj.bytes := by
    cases hobj : e.obj with
    | raw x =>
      rw [hobj] at hold
      cases hold
      rfl
    | int n sh =>
      rw [hobj] at hold
      cases hold
  subst hraw
  simp only [hashProcs]
  split <;> rfl

theorem updateZsetElem_procs {m : Bytes} {score : Double}
    (h : updateZsetElem env key loc m score e s = .ok out) :
    out.2 = runProcs env key (zsetProcs env.cfg m score e) s := by
  obtain ⟨_, -, h⟩ := bind_eq_ok.mp h
  obtain ⟨p, hp, h⟩ := bind_eq_ok.mp h
  obtain ⟨_, -, h⟩ := bind_eq_ok.mp h
  cases h
  unfold zaddElem at hp
  unfold zsetProcs
  cases hd : env.cfg.getDouble (env.cfg.fmtF score) with
  | none =>
    rw [hd] at hp
    cases hp
    simp only [List.nil_append]
    split <;> rfl
  | some d =>
    rw [hd] at hp
    obtain ⟨_, -, hp⟩ := bind_eq_ok.mp hp
    cases hp
    simp only [List.cons_append, List.nil_append]
    split <;> rfl

end Elements

theorem changeElem_procs {type : UType} {r : UpdRes} {e : Elem} {st st' : MSt}
    (hst : st.subj = .elem e) (h : changeElem env type r e st = .ok st') :
    st'.s = runProcs env st.key (elemProcs env.cfg type r e) st.s ∧ st'.subj ≠ .stored := by
  have hkept : st.subj ≠ .stored := by
    rw [hst]
    rintro ⟨⟩
  unfold changeElem at h
  unfold elemProcs
  cases type with
  | string =>
    cases h
    exact ⟨rfl, hkept⟩
  | set =>
    cases hr : r.val with
    | none =>
      rw [hr] at h
      cases h
      exact ⟨rfl, hkept⟩
    | some b =>
      rw [hr] at h
      obtain ⟨p, hp, rfl⟩ := map_eq_ok.mp h
      exact ⟨updateSetElem_procs hp, by rintro ⟨⟩⟩
  | list =>
    cases hr : r.val with
    | none =>
      rw [hr] at h
      cases h
      exact ⟨rfl, hkept⟩
    | some b =>
      rw [hr] at h
      obtain ⟨p, hp, rfl⟩ := map_eq_ok.mp h
      exact ⟨updateListElem_procs hp, by rintro ⟨⟩⟩
  | zset =>
    simp only at h ⊢
    split at h
    · rename_i hr
      rw [if_pos hr]
      obtain ⟨p, hp, rfl⟩ := map_eq_ok.mp h
      exact ⟨updateZsetElem_procs hp, by rintro ⟨⟩⟩
    · rename_i hr
      rw [if_neg hr]
      cases h
      exact ⟨rfl, hkept⟩
  | hash =>
    simp only at h ⊢
    split at h
    · rename_i hr
      rw [if_pos hr]
      obtain ⟨f, hf, h⟩ := bind_eq_ok.mp h
      obtain ⟨b, hb, h⟩ := bind_eq_ok.mp h
      obtain ⟨p, hp, rfl⟩ := map_eq_ok.mp h
      rw [hf, onOk_ok, hb, onOk_ok]
      exact ⟨updateHashElem_procs hp, by rintro ⟨⟩⟩
    · rename_i hr
      rw [if_neg hr]
      cases h
      exact ⟨rfl, hkept⟩

/-! ## One update function -/

section Loop

variable (nested : Nested) (calls : Store → List Bytes → List Signal) (env : Env) (v : VersionHash)
  (checkKey : Bool) (type : UType)

def changeKeySignals (k : Option Bytes) (st : MSt) : List Signal :=
  match checkKey, k with
  | true, some k => namespaceSignals env v (cstr k) st.s
  | _, _ => []

/-- `signalModifiedKey(c->db, o)`, with the new value in the place of the key. -/
def storedSignals (r : UpdRes) : List Signal :=
  match type, r.val with
  | .string, some b => [(env.d, b)]
  | _, _ => []

def changeSignals (r : UpdRes) (st : MSt) : List Signal :=
  match st.subj with
  | .stored => storedSignals env type r
  | .elem e => procsSignals env st.key (elemProcs env.cfg type r e) st.s

def applySignals (st : MSt) (f : UpdFun) : List Signal :=
  onOk (argOf env type st) fun arg =>
    let r := f (cstr st.key) arg
    emitted nested calls st.s r.calls ++
      onOk (runCalls nested env r.calls st.loc st.s) fun s =>
        changeKeySignals env v checkKey r.key { st with s := s } ++
          onOk (changeKey env v checkKey r.key { st with s := s }) fun st =>
            changeSignals env type r st

def updateToSignals (st : MSt) (p : Int × Option UpdInfo) : List Signal :=
  emitted (applyFun nested env v checkKey type) (applySignals nested calls env v checkKey type) st
    (infoFuns p.2)

def moveSignals (vers : Int) (st : MSt) : List Signal :=
  if checkKey ∧ renames v (v.pending vers) then namespaceSignals env v st.key st.s else []

def migrateSignals (small : Bool) (vers : Int) (st : MSt) : List Signal :=
  if small then checkRenameAll env v [st.key] st.s
  else if vers = v.cur then []
  else moveSignals env v checkKey vers st ++
    onOk (moveFirst env v checkKey vers st) fun st =>
      emitted (updateTo nested env v checkKey type)
        (updateToSignals nested calls env v checkKey type) st (v.pending vers)

end Loop

/-- The signals of `kvolve_check_update_kv_pair`, with the arguments it has. -/
abbrev CheckSignals :=
  Env → VersionHash → Bool → Bytes → Option Elem → UType → Bytes → Store → List Signal

def checkUpdateSignals (nested : Nested) (calls : Store → List Bytes → List Signal) :
    CheckSignals := fun env v checkKey loc o type key s =>
  match o with
  | none =>
    onOk (getDbVal env v key s) fun found =>
      match found with
      | none => []
      | some loc =>
        onOk (deref env loc s) fun c =>
          migrateSignals nested calls env v checkKey type (Val.isSmall c.obj.val) (s.vers c.obj)
            ⟨key, loc, .stored, s⟩
  | some e =>
    migrateSignals nested calls env v checkKey type (Str.isSmall e.obj) e.vers
      ⟨key, loc, .elem e, s⟩

/-! ## Elements, and containers in the place of elements -/

section Loose

variable {nested : Nested} {calls : Store → List Bytes → List Signal} {env : Env} {v : VersionHash}
  {C : Reg → Nat → Bytes → Prop} (hcalls : ∀ s argv s', nested s argv = .ok s' →
    Covers env.now C (calls s argv) s s') {checkKey : Bool} {type : UType}

include hcalls

theorem runCalls_covers {l : List (List Bytes)} {loc : Bytes} {s s' : Store}
    (h : runCalls nested env l loc s = .ok s') :
    Covers env.now C (emitted nested calls s l) s s' ∧ s'.get env.d loc = s.get env.d loc := by
  unfold runCalls at h
  split at h
  · rename_i hnil
    cases h
    exact ⟨.refl s, rfl⟩
  · obtain ⟨s₁, hs₁, h⟩ := bind_eq_ok.mp h
    split at h
    · rename_i hsame
      cases h
      exact ⟨emitted_rel Covers.refl Covers.trans (fun s argv _ s' => hcalls s argv s') hs₁, hsame⟩
    · cases h

variable {st' : MSt} {st : MSt}

omit hcalls in
theorem changeKey_covers {k : Option Bytes} (h : changeKey env v checkKey k st = .ok st') :
    Covers env.now C (changeKeySignals env v checkKey k st) st.s st'.s ∧ st'.subj = st.subj := by
  unfold changeKey at h
  unfold changeKeySignals
  split at h
  · obtain ⟨s', hs', h⟩ := bind_eq_ok.mp h
    cases h
    exact ⟨namespaceUpdate_covers C hs', rfl⟩
  · cases h
    exact ⟨.refl _, rfl⟩

omit hcalls in
theorem bump_covers {t : Int} {l : List Signal} (h : bump env t st = .ok st') :
    Covers env.now C l st.s st'.s ∧ (st'.subj = .stored ↔ st.subj = .stored) := by
  unfold bump at h
  split at h
  · rename_i hsubj
    obtain ⟨_, -, h⟩ := bind_eq_ok.mp h
    cases h
    exact ⟨.setVers .., Iff.rfl⟩
  · rename_i e hsubj
    cases h
    refine ⟨.refl _, iff_of_false ?_ ?_⟩
    · rintro ⟨⟩
    · rw [hsubj]
      rintro ⟨⟩

def Loose (type : UType) (st : MSt) : Prop := type = .string → st.subj ≠ .stored

variable (hst : Loose type st)

include hst

/-- What an update function changes is signalled. -/
theorem applyFun_covers {f : UpdFun} (h : applyFun nested env v checkKey type st f = .ok st') :
    Covers env.now C (applySignals nested calls env v checkKey type st f) st.s st'.s ∧
      Loose type st' := by
  obtain ⟨arg, harg, h⟩ := bind_eq_ok.mp h
  obtain ⟨s₁, hs₁, h⟩ := bind_eq_ok.mp h
  obtain ⟨st₂, hst₂, h⟩ := bind_eq_ok.mp h
  obtain ⟨hran, -⟩ := runCalls_covers hcalls hs₁
  obtain ⟨hmoved, hsubj⟩ := changeKey_covers (C := C) hst₂
  simp only [applySignals, harg, onOk_ok, hs₁, hst₂]
  suffices hlast : Covers env.now C (changeSignals env type (f (cstr st.key) arg) st₂) st₂.s st'.s ∧
      Loose type st' from ⟨hran.trans (hmoved.trans hlast.1), hlast.2⟩
  unfold changeSignals
  cases hs : st₂.subj with
  | stored =>
    rw [hs] at h
    have htype : type ≠ .string := by
      intro htype
      refine hst htype ?_
      rw [← hs, hsubj]
    have hsame : st' = st₂ := by
      unfold changeStored at h
      cases type with
      | string => exact absurd rfl htype
      | _ =>
        simp only at h
        split at h
        · cases h
        · exact (Except.ok.inj h).symm
    rw [hsame]
    exact ⟨.refl _, fun heq => absurd heq htype⟩
  | elem e =>
    rw [hs] at h
    obtain ⟨hprocs, hsub⟩ := changeElem_procs hs h
    rw [hprocs]
    exact ⟨procs_cover .., fun _ => hsub⟩

theorem updateTo_covers {p : Int × Option UpdInfo}
    (h : updateTo nested env v checkKey type st p = .ok st') :
    Covers env.now C (updateToSignals nested calls env v checkKey type st p) st.s st'.s ∧
      Loose type st' := by
  obtain ⟨st₁, hst₁, h⟩ := bind_eq_ok.mp h
  have hfuns := emitted_rel
    (R := fun l a b => Loose type a → Covers env.now C l a.s b.s ∧ Loose type b)
    (fun a ha => ⟨.refl _, ha⟩)
    (fun h h' ha => ⟨(h ha).1.trans (h' (h ha).2).1, (h' (h ha).2).2⟩)
    (g := applySignals nested calls env v checkKey type)
    (fun a f _ b hb ha => applyFun_covers hcalls ha hb) hst₁ hst
  obtain ⟨hbump, hsubj⟩ := bump_covers (C := C) (l := []) h
  refine ⟨?_, fun htype => mt hsubj.mp (hfuns.2 htype)⟩
  have hall := hfuns.1.trans hbump
  rwa [List.append_nil] at hall

theorem migrateSubject_covers {small : Bool} {vers : Int}
    (h : migrateSubject nested env v checkKey type small vers st = .ok st') :
    Covers env.now C (migrateSignals nested calls env v checkKey type small vers st) st.s st'.s := by
  rcases migrateSubject_ok h with ⟨hsmall, s', hs', rfl⟩ | ⟨-, -, rfl⟩ | ⟨hsmall, hvers, st₁, hst₁, h⟩
  · rw [migrateSignals, if_pos hsmall]
    exact checkRename_covers C hs'
  · exact .refl _
  · rw [migrateSignals, hsmall, if_neg Bool.false_ne_true, if_neg hvers, hst₁, onOk_ok]
    have hmove : Covers env.now C (moveSignals env v checkKey vers st) st.s st₁.s ∧
        Loose type st₁ := by
      rcases moveFirst_ok hst₁ with ⟨hren, s', hs', rfl⟩ | ⟨-, rfl⟩
      · rw [moveSignals, if_pos hren]
        exact ⟨namespaceUpdate_covers C hs', hst⟩
      · exact ⟨.refl _, hst⟩
    have hloop := emitted_rel
      (R := fun l a b => Loose type a → Covers env.now C l a.s b.s ∧ Loose type b)
      (fun a ha => ⟨.refl _, ha⟩)
      (fun h h' ha => ⟨(h ha).1.trans (h' (h ha).2).1, (h' (h ha).2).2⟩)
      (g := updateToSignals nested calls env v checkKey type)
      (fun a f _ b hb ha => updateTo_covers hcalls ha hb) h hmove.2
    exact hmove.1.trans hloop.1

end Loose

/-! ## Strings changed in place -/

/-- What is left of the update functions leaves the bytes as they were at first, or stores the
name of the key itself on the way: the signal of that change is the only one that reaches the
watchers of the key. -/
def Settles (loc b₀ : Bytes) : List UpdFun → Bytes → Bytes → Prop
  | [], _, b => b = b₀
  | f :: fs, key, b =>
    let r := f (cstr key) (.str b)
    let key := (r.key.map cstr).getD key
    match r.val with
    | none => Settles loc b₀ fs key b
    | some b => b = loc ∨ Settles loc b₀ fs key b

/-- A slot during the update of its string, against the slot at first; `P` is about the name, the
bytes at first and the bytes now. -/
inductive SlotHeld (now : Int) (P : Bytes → Bytes → Bytes → Prop) (loc : Bytes) :
    Option Entry → Option Entry → Prop
  | gone {o : Option Entry} : o.filter (·.alive now) = none → SlotHeld now P loc o none
  | other {e₀ e : Entry} : e.expire = e₀.expire → e.obj.val = e₀.obj.val →
      (∀ b, e.obj.val ≠ .str (.raw b)) → SlotHeld now P loc (some e₀) (some e)
  | raw {e₀ e : Entry} {b₀ b : Bytes} : e.expire = e₀.expire → e₀.obj.val = .str (.raw b₀) →
      e.obj.val = .str (.raw b) → (e₀.alive now → P loc b₀ b) → SlotHeld now P loc (some e₀) (some e)

variable {o₀ o : Option Entry}

theorem SlotHeld.imp {Q : Bytes → Bytes → Bytes → Prop} (h : SlotHeld now P loc o₀ o)
    (hPQ : ∀ b₀ b, P loc b₀ b → Q loc b₀ b) :
    SlotHeld now Q loc o₀ o := by
  cases h with
  | gone hdead => exact .gone hdead
  | other hexp hval hraw => exact .other hexp hval hraw
  | raw hexp hval₀ hval hP => exact .raw hexp hval₀ hval fun hal => hPQ _ _ (hP hal)

theorem SlotHeld.retag {e : Entry} (h : SlotHeld now P loc o₀ (some e)) (t : Int) :
    SlotHeld now P loc o₀ (some (retag t e)) := by
  have hexp := retag_expire t e
  have hval := retag_val t e
  cases h with
  | other hexp' hval' hraw =>
    exact .other (hexp.trans hexp') (hval.trans hval') (by rw [hval]; exact hraw)
  | raw hexp' hval₀ hval' hP => exact .raw (hexp.trans hexp') hval₀ (hval.trans hval') hP

theorem SlotHeld.dead (h : SlotHeld now P loc o₀ o) (hdead : o.filter (·.alive now) = none) :
    o₀.filter (·.alive now) = none := by
  cases h with
  | gone h => exact h
  | other hexp _ _ => simpa [Option.filter, Entry.alive_congr hexp.symm] using hdead
  | raw hexp _ _ _ => simpa [Option.filter, Entry.alive_congr hexp.symm] using hdead

theorem SlotHeld.shown (h : SlotHeld now P loc o₀ o) (hP : ∀ b₀ b, P loc b₀ b → b = b₀) :
    (o.filter (·.alive now)).map (·.obj.val.content) =
      (o₀.filter (·.alive now)).map (·.obj.val.content) := by
  cases h with
  | gone h =>
    rw [h]
    rfl
  | other hexp hval _ =>
    simp only [Option.filter, Entry.alive_congr hexp.symm]
    split
    · rw [Option.map_some, Option.map_some, hval]
    · rfl
  | raw hexp hval₀ hval hs =>
    simp only [Option.filter, Entry.alive_congr hexp.symm]
    split
    · rename_i hal
      rw [Option.map_some, Option.map_some, hval, hval₀, hP _ _ (hs hal)]
    · rfl

/-- The update of a stored string under way: what it changed elsewhere is signalled, and its own
slot is followed. -/
structure Patching (env : Env) (C : Reg → Nat → Bytes → Prop) (s₀ : Store)
    (P : Bytes → Bytes → Bytes → Prop) (l : List Signal) (st : MSt) : Prop where
  subj : st.subj = .stored
  off : Covers env.now (fun reg d k => C reg d k ∧ ¬ (d = env.d ∧ k = st.loc)) l s₀ st.s
  here : C s₀.reg env.d st.loc → (env.d, st.loc) ∈ l ∨
    SlotHeld env.now P st.loc (s₀.get env.d st.loc) (st.s.get env.d st.loc)

section Patching

variable {env : Env} {C : Reg → Nat → Bytes → Prop} {s₀ : Store} {P Q : Bytes → Bytes → Bytes → Prop}
  {l l' : List Signal} {st : MSt} (h : Patching env C s₀ P l st)

include h

theorem Patching.imp (hPQ : ∀ loc b₀ b, P loc b₀ b → Q loc b₀ b) : Patching env C s₀ Q l st := by
  refine ⟨h.subj, h.off, fun hC => (h.here hC).imp id fun hheld => ?_⟩
  exact hheld.imp (hPQ st.loc)

theorem Patching.known {e : Entry} (hget : st.s.get env.d st.loc = some e) :
    Patching env C s₀ (fun loc b₀ b => P loc b₀ b ∧ e.obj.val = .str (.raw b)) l st := by
  refine ⟨h.subj, h.off, fun hC => (h.here hC).imp id fun hheld => ?_⟩
  rw [hget] at hheld ⊢
  generalize s₀.get env.d st.loc = o₀ at hheld ⊢
  cases hheld with
  | other hexp hval hraw => exact .other hexp hval hraw
  | raw hexp hval₀ hval hP => exact .raw hexp hval₀ hval fun hal => ⟨hP hal, hval⟩

theorem Patching.covers (hP : ∀ loc b₀ b, P loc b₀ b → b = b₀) : Covers env.now C l s₀ st.s := by
  refine ⟨h.off.reg, fun d k hC hne => ?_⟩
  by_cases hslot : d = env.d ∧ k = st.loc
  · obtain ⟨rfl, rfl⟩ := hslot
    refine (h.here hC).resolve_right fun hheld => hne ?_
    rw [shown_eq, shown_eq]
    exact hheld.shown (hP _)
  · exact h.off.told d k ⟨hC, hslot⟩ hne

omit h

variable {s' : Store} (h : Patching env C s₀ P l st)

include h

theorem Patching.step (hcov : Covers env.now C l' st.s s')
    (hslot : s'.get env.d st.loc = st.s.get env.d st.loc) :
    Patching env C s₀ P (l ++ l') { st with s := s' } := by
  refine ⟨h.subj, h.off.trans (hcov.mono fun _ _ _ hC => hC.1), fun hC => ?_⟩
  refine (h.here hC).imp (List.mem_append_left l') fun hheld => ?_
  change SlotHeld _ _ _ _ (s'.get env.d st.loc)
  rw [hslot]
  exact hheld

theorem Patching.bump {t : Int} {st' : MSt}
    (hb : bump env t st = .ok st') : Patching env C s₀ P l st' := by
  unfold KVolve.bump at hb
  rw [h.subj] at hb
  obtain ⟨e, he, hb⟩ := bind_eq_ok.mp hb
  cases hb
  have hget := get_of_deref he
  refine ⟨rfl, ?_, fun hC => (h.here hC).imp id fun hheld => ?_⟩
  · have hall := h.off.trans (Covers.setVers (l := []) env.d st.loc t)
    rwa [List.append_nil] at hall
  · change SlotHeld _ _ _ _ ((st.s.setVers env.d st.loc t).get env.d st.loc)
    rw [Store.get_setVers, if_pos ⟨rfl, rfl⟩, hget]
    rw [hget] at hheld
    exact hheld.retag t

theorem Patching.moved {k k' : Bytes}
    (hcov : Covers env.now C l' st.s s') (hempty : st.s.get env.d k = none) (hne : k ≠ st.loc)
    (hold : s'.get env.d st.loc = none) (hsig : ((env.d, st.loc) ∈ l' ∧ (env.d, k) ∈ l') ∨
      ((st.s.get env.d st.loc).filter (·.alive env.now) = none ∧ s'.get env.d k = none)) :
    Patching env C s₀ P (l ++ l') { st with key := k', loc := k, s := s' } := by
  have hother : ∀ d j, C s₀.reg d j → (d = env.d ∧ j = st.loc) ∨ (d, j) ∈ l ++ l' ∨
      shown env.now s' d j = shown env.now s₀ d j := by
    intro d j hC
    by_cases hslot : d = env.d ∧ j = st.loc
    · exact .inl hslot
    · refine .inr (or_iff_not_imp_right.mpr fun hshown => ?_)
      exact (h.off.trans (hcov.mono fun _ _ _ hC => hC.1)).told d j ⟨hC, hslot⟩ hshown
  refine ⟨h.subj, ⟨hcov.reg.trans h.off.reg, ?_⟩, ?_⟩
  · rintro d j ⟨hC, -⟩ hshown
    rcases hother d j hC with ⟨rfl, rfl⟩ | hin | hsame
    · rcases hsig with ⟨hl, -⟩ | ⟨hdead, -⟩
      · exact List.mem_append_right l hl
      · refine List.mem_append_left l' ((h.here hC).resolve_right fun hheld => hshown ?_)
        rw [shown_eq, shown_eq, hold, hheld.dead hdead]
        rfl
    · exact hin
    · exact absurd hsame hshown
  · intro hC
    rcases hsig with ⟨-, hl⟩ | ⟨-, hnone⟩
    · exact .inl (List.mem_append_right l hl)
    · rcases hother env.d k hC with ⟨-, rfl⟩ | hin | hsame
      · exact absurd rfl hne
      · exact .inl hin
      · refine .inr ?_
        change SlotHeld _ _ _ _ (s'.get env.d k)
        rw [hnone]
        refine .gone ?_
        rw [shown_eq, shown_eq, hnone] at hsame
        exact Option.map_eq_none_iff.mp hsame.symm

theorem Patching.move {v : VersionHash} {k k' : Bytes}
    (hhas : st.s.has env.d st.loc = true) (hu : namespaceUpdate env v k st.s = .ok s') :
    Patching env C s₀ P (l ++ namespaceSignals env v k st.s)
      { st with key := k', loc := track env k st.loc s', s := s' } := by
  have hcov := namespaceUpdate_covers C hu
  -- as long as the value stays, its slot has to be the same
  have hstay : s'.get env.d st.loc = st.s.get env.d st.loc →
      Patching env C s₀ P (l ++ namespaceSignals env v k st.s)
        { st with key := k', loc := track env k st.loc s', s := s' } := by
    intro hslot
    have hhas' : s'.has env.d st.loc = true := by rw [Store.has, hslot]; exact hhas
    rw [track, if_pos hhas']
    obtain ⟨hsubj, hoff, hhere⟩ := h.step hcov hslot
    exact ⟨hsubj, hoff, hhere⟩
  unfold namespaceUpdate at hu
  unfold namespaceSignals at hcov hstay ⊢
  split at hu
  · cases hu
    exact hstay rfl
  · rename_i hfree
    rw [if_neg hfree] at hcov hstay ⊢
    cases hprev : v.prevNs.bind (constructPrevName k) with
    | none =>
      rw [hprev] at hu
      cases hu
    | some old =>
      simp only [hprev] at hu hcov hstay ⊢
      cases hu
      have hempty : st.s.get env.d k = none := by simpa [Store.has] using hfree
      have hne : k ≠ st.loc := fun heq => by
        rw [heq] at hfree
        exact hfree hhas
      unfold renameSignals Store.rename at hcov hstay ⊢
      by_cases hsame : old = k
      · simp only [if_pos hsame] at hstay ⊢
        exact hstay trivial
      · simp only [if_neg hsame] at hcov hstay ⊢
        cases hsrc : st.s.get 0 old with
        | none =>
          simp only [hsrc] at hstay ⊢
          exact hstay trivial
        | some e =>
          simp only [hsrc] at hcov hstay ⊢
          by_cases hslot : env.d = 0 ∧ st.loc = old
          · obtain ⟨hd, hloc⟩ := hslot
            cases hal : e.alive env.now with
            | true =>
              simp only [hal, if_true] at hcov ⊢
              have hgone : ((st.s.put 0 k (some e)).put 0 old none).get env.d st.loc = none := by
                rw [hd, hloc, Store.get_put, if_pos ⟨rfl, rfl⟩]
              rw [track, if_neg (by rw [Store.has, hgone]; simp)]
              exact h.moved hcov hempty hne hgone (.inl (by simp [hd, hloc]))
            | false =>
              simp only [hal, Bool.false_eq_true, if_false] at hcov ⊢
              have hgone : (st.s.put 0 old none).get env.d st.loc = none := by
                rw [hd, hloc, Store.get_put, if_pos ⟨rfl, rfl⟩]
              rw [track, if_neg (by rw [Store.has, hgone]; simp)]
              refine h.moved hcov hempty hne hgone (.inr ⟨?_, ?_⟩)
              · rw [hd, hloc, hsrc]
                simp [Option.filter, hal]
              · rw [Store.get_put, if_neg (fun h => hsame h.2.symm)]
                exact hempty
          · refine hstay ?_
            split
            · rw [Store.get_put, if_neg hslot, Store.get_put, if_neg (fun h => hne h.2.symm)]
            · rw [Store.get_put, if_neg hslot]

theorem Patching.store {r : UpdRes} {st' : MSt} (hP : ∀ loc b₀ b, P loc b₀ b → match r.val with
      | none => Q loc b₀ b
      | some b' => b' = loc ∨ Q loc b₀ b')
    (hs : changeStored env .string r st = .ok st') :
    Patching env C s₀ Q (l ++ storedSignals env .string r) st' := by
  unfold changeStored at hs
  unfold storedSignals
  cases hval : r.val with
  | none =>
    simp only [hval] at hs hP ⊢
    cases hs
    rw [List.append_nil]
    exact h.imp hP
  | some b' =>
    simp only [hval] at hs hP ⊢
    obtain ⟨e, he, hs⟩ := bind_eq_ok.mp hs
    have hget := get_of_deref he
    split at hs
    · rename_i b hraw
      cases hs
      refine ⟨h.subj, ?_, fun hC => ?_⟩
      · exact h.off.trans (Covers.put_unread (fun hC => hC.2 ⟨rfl, rfl⟩) _)
      · rcases h.here hC with hin | hheld
        · exact .inl (List.mem_append_left _ hin)
        · by_cases hb : b' = st.loc
          · exact .inl (by simp [hb])
          · refine .inr ?_
            change SlotHeld _ _ _ _ ((st.s.put env.d st.loc _).get env.d st.loc)
            rw [Store.get_put, if_pos ⟨rfl, rfl⟩]
            rw [hget] at hheld
            generalize s₀.get env.d st.loc = o₀ at hheld ⊢
            cases hheld with
            | other _ _ hnot => exact absurd hraw (hnot b)
            | raw hexp hval₀ hval' hPb =>
              refine .raw (b := b') hexp hval₀ rfl fun hal => ?_
              exact (hP _ _ _ (hPb hal)).resolve_left hb
    · cases hs

omit h

section

variable {nested : Nested} {calls : Store → List Bytes → List Signal} {v : VersionHash}
  (hcalls : ∀ s argv s', nested s argv = .ok s' → Covers env.now C (calls s argv) s s')

include hcalls

omit hcalls in
theorem argOf_stored {st : MSt} {arg : UpdArg} (hst : st.subj = .stored)
    (h : argOf env .string st = .ok arg) : ∃ e, st.s.get env.d st.loc = some e ∧
      ∀ b, e.obj.val = .str (.raw b) → arg = .str b := by
  unfold argOf at h
  simp only [hst] at h
  obtain ⟨e, he, h⟩ := bind_eq_ok.mp h
  refine ⟨e, get_of_deref he, fun b hb => ?_⟩
  simp only [hb] at h
  exact (Except.ok.inj h).symm

variable {st' : MSt}

theorem Patching.applyFun {f : UpdFun} {fs : List UpdFun}
    (h : Patching env C s₀ (fun loc b₀ => Settles loc b₀ (f :: fs) st.key) l st)
    (ha : applyFun nested env v true .string st f = .ok st') :
    Patching env C s₀ (fun loc b₀ => Settles loc b₀ fs st'.key)
      (l ++ applySignals nested calls env v true .string st f) st' := by
  obtain ⟨arg, harg, ha⟩ := bind_eq_ok.mp ha
  obtain ⟨s₁, hs₁, ha⟩ := bind_eq_ok.mp ha
  obtain ⟨st₂, hst₂, ha⟩ := bind_eq_ok.mp ha
  simp only [applySignals, harg, onOk_ok, hs₁, hst₂]
  obtain ⟨hran, hslot⟩ := runCalls_covers hcalls hs₁
  obtain ⟨e, hget, harg⟩ := argOf_stored h.subj harg
  have hran := (h.known hget).step hran hslot
  have hhas : s₁.has env.d st.loc = true := by
    rw [Store.has, hslot, hget]
    rfl
  have hmoved : Patching env C s₀ (fun loc b₀ b => Settles loc b₀ (f :: fs) st.key b ∧
      e.obj.val = .str (.raw b)) (l ++ emitted nested calls st.s (f (cstr st.key) arg).calls ++
        changeKeySignals env v true (f (cstr st.key) arg).key { st with s := s₁ }) st₂ ∧
      st₂.key = ((f (cstr st.key) arg).key.map cstr).getD st.key := by
    unfold changeKey at hst₂
    unfold changeKeySignals
    cases hkey : (f (cstr st.key) arg).key with
    | none =>
      simp only [hkey] at hst₂ ⊢
      cases hst₂
      rw [List.append_nil]
      exact ⟨hran, rfl⟩
    | some k =>
      simp only [hkey] at hst₂ ⊢
      obtain ⟨s₂, hs₂, hst₂⟩ := bind_eq_ok.mp hst₂
      cases hst₂
      exact ⟨hran.move hhas hs₂, rfl⟩
  obtain ⟨hmoved, hkey⟩ := hmoved
  rw [hmoved.subj] at ha
  have hsame : st'.key = st₂.key := changeStored_key ha
  have hstored : changeSignals env .string (f (cstr st.key) arg) st₂ =
      storedSignals env .string (f (cstr st.key) arg) := by rw [changeSignals, hmoved.subj]
  rw [hstored, hsame, ← List.append_assoc, ← List.append_assoc]
  refine hmoved.store ?_ ha
  rintro loc b₀ b ⟨hset, hraw⟩
  rw [harg b hraw] at hkey ⊢
  rw [hkey]
  exact hset

theorem Patching.applyFuns {fs rest : List UpdFun}
    (h : Patching env C s₀ (fun loc b₀ => Settles loc b₀ (fs ++ rest) st.key) l st)
    (ha : fs.foldlM (KVolve.applyFun nested env v true .string) st = .ok st') :
    Patching env C s₀ (fun loc b₀ => Settles loc b₀ rest st'.key)
      (l ++ emitted (KVolve.applyFun nested env v true .string)
        (applySignals nested calls env v true .string) st fs) st' := by
  induction fs generalizing st l with
  | nil =>
    cases ha
    rw [emitted, List.append_nil]
    exact h
  | cons f fs ih =>
    rw [List.foldlM_cons] at ha
    obtain ⟨st₁, hst₁, ha⟩ := bind_eq_ok.mp ha
    rw [emitted, hst₁, onOk_ok, ← List.append_assoc]
    exact ih (h.applyFun hcalls hst₁) ha

theorem Patching.updateTos {pend : List (Int × Option UpdInfo)} (h : Patching env C s₀
      (fun loc b₀ => Settles loc b₀ (pend.flatMap (infoFuns ·.2)) st.key) l st)
    (ha : pend.foldlM (updateTo nested env v true .string) st = .ok st') :
    Patching env C s₀ (fun loc b₀ => Settles loc b₀ [] st'.key)
      (l ++ emitted (updateTo nested env v true .string)
        (updateToSignals nested calls env v true .string) st pend) st' := by
  induction pend generalizing st l with
  | nil =>
    cases ha
    rw [emitted, List.append_nil]
    exact h
  | cons p pend ih =>
    rw [List.foldlM_cons] at ha
    obtain ⟨st₁, hst₁, ha⟩ := bind_eq_ok.mp ha
    rw [emitted, hst₁, onOk_ok, ← List.append_assoc]
    refine ih ?_ ha
    obtain ⟨st₂, hst₂, hbump⟩ := bind_eq_ok.mp hst₁
    have hfuns := (h.applyFuns hcalls hst₂).bump hbump
    rw [← bump_key hbump] at hfuns
    exact hfuns

/-- **A stored string.** The migration signals what it changes when the functions settle. -/
theorem migrateString_covers {key loc : Bytes} {small : Bool} {e : Entry} {s : Store}
    (hget : s.get env.d loc = some e)
    (hset : C s.reg env.d loc → e.alive env.now → ∀ b, e.obj.val = .str (.raw b) → s.vers e.obj ≠ v.cur →
      Settles loc b ((v.pending (s.vers e.obj)).flatMap (infoFuns ·.2)) key b)
    (h : migrateSubject nested env v true .string small (s.vers e.obj) ⟨key, loc, .stored, s⟩ =
      .ok st') :
    Covers env.now C (migrateSignals nested calls env v true .string small (s.vers e.obj)
      ⟨key, loc, .stored, s⟩) s st'.s := by
  rcases migrateSubject_ok h with ⟨hsmall, s', hs', rfl⟩ | ⟨-, -, rfl⟩ | ⟨hsmall, hvers, st₁, hst₁, h⟩
  · rw [migrateSignals, if_pos hsmall]
    exact checkRename_covers C hs'
  · exact .refl _
  · rw [migrateSignals, hsmall, if_neg Bool.false_ne_true, if_neg hvers, hst₁, onOk_ok]
    have hstart : Patching env C s (fun loc b₀ => Settles loc b₀
        ((v.pending (s.vers e.obj)).flatMap (infoFuns ·.2)) key) []
        ⟨key, loc, .stored, s⟩ := by
      refine ⟨rfl, .refl _, fun hC => .inr ?_⟩
      rw [hget]
      by_cases hraw : ∃ b, e.obj.val = .str (.raw b)
      · obtain ⟨b, hb⟩ := hraw
        exact .raw rfl hb hb fun hal => hset hC hal b hb hvers
      · exact .other rfl rfl (not_exists.mp hraw)
    have hmove : Patching env C s (fun loc b₀ => Settles loc b₀
        ((v.pending (s.vers e.obj)).flatMap (infoFuns ·.2)) st₁.key)
        (moveSignals env v true (s.vers e.obj) ⟨key, loc, .stored, s⟩) st₁ := by
      rcases moveFirst_ok hst₁ with ⟨hren, s', hs', rfl⟩ | ⟨hren, rfl⟩
      · rw [moveSignals, if_pos hren]
        exact hstart.move (Store.has_of_get hget) hs'
      · rw [moveSignals, if_neg hren]
        exact hstart
    exact (hmove.updateTos hcalls h).covers fun _ _ _ hdone => hdone

end

end Patching

end SchemaUpdate.KVolve
