import SchemaUpdate.KVolve.Image
import SchemaUpdate.KVolve.Watch

/-! # The watchers of a migrated key

The signals of the handlers and of the commands that update functions issue. A command
marks the watchers of every current name it changes the value of, unless the value is a
string that the update functions change in place. -/

namespace SchemaUpdate.KVolve

open SchemaUpdate.Lib SchemaUpdate.Redis

/-! ## Names that are no longer current -/

/-- A namespace that is named as the one before another has one after it. -/
def Superseded (reg : Reg) : Prop := ∀ {a b}, PrevLink reg a b → ∃ n, NextLink reg a n

variable {reg : Reg} {argv : List Arg}

theorem Superseded.step {reg' : Reg} {ev : RegEvent} (h : Superseded reg)
    (hstep : reg.step ev = .ok reg') : Superseded reg' := by
  intro a b hab
  rcases (Reg.step_does hstep).links with hsame | ⟨id, pick, sp, -, -, hnew⟩
  · exact (h (hsame.prev.mp hab)).imp fun n hn => hsame.next.mpr hn
  · by_cases ha : a = cstr sp.fromNs
    · refine ⟨cstr sp.toNs, hnew.next.mpr ⟨ha ▸ hnew.fresh hnew.source, ?_⟩⟩
      rw [if_pos ha]
    · have hab := hnew.prev.mp hab
      split at hab
      · exact absurd hab ha
      · obtain ⟨n, hn⟩ := h hab
        obtain ⟨v, hv, -⟩ := Option.bind_eq_some_iff.mp hn
        refine ⟨n, hnew.next.mpr ⟨hnew.fresh (by rw [core_of_find hv]; rfl), ?_⟩⟩
        rw [if_neg ha]
        exact hn

theorem superseded_run {evs : List RegEvent} (h : evs.foldlM Reg.step Reg.empty = .ok reg) :
    Superseded reg := by
  refine foldlM_rel (R := fun a b => Superseded a → Superseded b) (fun _ => id)
    (fun _ _ _ hab hbc => hbc ∘ hab) (fun _ _ _ _ hstep hs => hs.step hstep) h ?_
  intro a b hab
  cases hab

def LastName (reg : Reg) (k : Bytes) : Prop := ∀ k', ¬ Forward reg k k'

/-- The keys whose watchers are to be told, in registries as loads leave them. -/
def Watchable (reg : Reg) (_ : Nat) (k : Bytes) : Prop := Superseded reg ∧ LastName reg k

theorem PredNs.superseded (hsup : Superseded reg) {v : VersionHash} {p : Bytes} (h : PredNs reg v p)
    (hv : reg.find v.ns = some v) : ∃ n, NextLink reg p n := by
  induction h with
  | @here v p hp => exact hsup (by rw [PrevLink, hv]; exact hp)
  | next _ hw _ ih => exact ih (versionHashLookup_find hw)

theorem not_watchable {v : VersionHash} {key p j : Bytes} (hv : reg.find v.ns = some v)
    (hp : PredNs reg v p) (hj : constructPrevName key p = some j) (d : Nat) :
    ¬ Watchable reg d j := by
  rintro ⟨hsup, hlast⟩
  obtain ⟨n, hn⟩ := hp.superseded hsup hv
  obtain ⟨⟨a, x⟩, hsplit, rfl⟩ := Option.map_eq_some_iff.mp hj
  exact hlast (keyName n x) ⟨p, n, x, hn, (rsplit_sound hsplit).2, rfl, rfl⟩

/-! ## Checks -/

/-- The string under the key itself, if it is still to be updated, comes out of its functions as
it went in, or with the name of the key on the way. -/
def Told (env : Env) (v : VersionHash) (s : Store) (key : Bytes) : Prop :=
  ∀ e b, s.get env.d key = some e → e.alive env.now → e.obj.val = .str (.raw b) →
    s.vers e.obj ≠ v.cur →
    Settles key b ((v.pending (s.vers e.obj)).flatMap (infoFuns ·.2)) key b

/-- A check signals what it changes; strings have to meet a condition. -/
structure CheckTells (env : Env) (cu : CheckUpdate) (cs : CheckSignals)
    (pre : VersionHash → Store → Bytes → Prop) : Prop where
  covers : ∀ {v checkKey loc o type key s out}, s.reg.find v.ns = some v →
    (o = none → type = .string → checkKey = true ∧ pre v s key) →
    cu env v checkKey loc o type key s = .ok out →
    Covers env.now Watchable (cs env v checkKey loc o type key s) s out.2.2

theorem tells_skip (env : Env) :
    CheckTells env checkUpdateSkip (fun _ _ _ _ _ _ _ _ => []) fun _ _ _ => True := by
  refine ⟨fun _ _ h => ?_⟩
  obtain ⟨-, -, h⟩ := bind_eq_ok.mp h
  cases h
  exact .refl _

variable {env : Env} {s : Store}

theorem tells_with {nested : Nested} {calls : Store → List Bytes → List Signal}
    (hcalls : ∀ s argv s', nested s argv = .ok s' → Covers env.now Watchable (calls s argv) s s') :
    CheckTells env (checkUpdateWith nested) (checkUpdateSignals nested calls) (Told env) := by
  refine ⟨fun {v checkKey loc o type key s out} hv hpre h => ?_⟩
  unfold checkUpdateWith at h
  unfold checkUpdateSignals
  cases o with
  | some e =>
    obtain ⟨st, hst, h⟩ := bind_eq_ok.mp h
    obtain ⟨-, -, h⟩ := bind_eq_ok.mp h
    cases h
    exact migrateSubject_covers hcalls (fun _ => by rintro ⟨⟩) hst
  | none =>
    simp only at h ⊢
    obtain ⟨found, hfound, h⟩ := bind_eq_ok.mp h
    rw [hfound, onOk_ok]
    cases found with
    | none =>
      cases h
      exact .refl _
    | some at_ =>
      obtain ⟨e, he, h⟩ := bind_eq_ok.mp h
      obtain ⟨st, hst, h⟩ := bind_eq_ok.mp h
      cases h
      simp only [he, onOk_ok]
      by_cases htype : type = .string
      · obtain ⟨rfl, htold⟩ := hpre rfl htype
        subst htype
        have hget := get_of_deref he
        refine migrateString_covers hcalls hget (fun hC hal b hb hvers => ?_) hst
        -- the watchers of an earlier name are not in question
        rcases (getDbVal_alias hfound).1 with rfl | ⟨p, hp, hj⟩
        · exact htold e b hget hal hb hvers
        · exact absurd hC (not_watchable hv hp hj env.d)
      · exact migrateSubject_covers hcalls (fun heq => absurd heq htype) hst

/-! ## Containers -/

section Containers

variable (cs : CheckSignals) (cu : CheckUpdate) (env : Env) (v : VersionHash) (type : UType)

def elemSignals (st : LSt) (e : Elem) : List Signal :=
  onOk (deref env st.loc st.s) fun c =>
    cs env v st.first st.loc (some (tagElem (st.s.vers c.obj) e st.s).1) type st.key
      (tagElem (st.s.vers c.obj) e st.s).2

def slotSignals (st : LSt) (e : Option Elem) : List Signal :=
  onOk (deref env st.loc st.s) fun _ => cs env v st.first st.loc e type st.key st.s

def updateAllSignals (key : Bytes) (s : Store) (loop : Int → Val → LSt → List Signal) :
    List Signal :=
  onOk (getDbVal env v key s) fun found =>
    match found with
    | none => []
    | some loc =>
      onOk (deref env loc s) fun c =>
        if s.vers c.obj = v.cur then [] else loop (s.vers c.obj) c.obj.val ⟨true, key, loc, s⟩

def elemsSignals (gather : Val → Res (List Elem)) (val : Val) (st : LSt) : List Signal :=
  onOk (gather val) fun l => emitted (elemStep cu env v type) (elemSignals cs env v type) st l

def slotsSignals (vers : Int) (val : Val) (st : LSt) : List Signal :=
  match ziplistEntries env.cfg val with
  | none => []
  | some entries =>
    onOk (zsetSlots env.cfg vers entries) fun l =>
      emitted (slotStep cu env v (utypeOf val)) (slotSignals cs env v (utypeOf val)) st l

def containerSignals (key : Bytes) (s : Store) : List Signal :=
  updateAllSignals env v key s fun vers val st =>
    match type with
    | .string => []
    | .set => elemsSignals cs cu env v .set (gatherSet env.cfg (env.tables key)) val st
    | .list => elemsSignals cs cu env v .list (gatherList env.cfg) val st
    | .hash => elemsSignals cs cu env v .hash (gatherHash env.cfg (env.tables key)) val st
    | .zset => slotsSignals cs cu env v vers val st

end Containers

section Containers

variable {env : Env} {cu : CheckUpdate} {cs : CheckSignals}
  {pre : VersionHash → Store → Bytes → Prop} (hcs : CheckTells env cu cs pre) {v : VersionHash}

include hcs

omit hcs in
theorem tagElem_covers {now : Int} {C : Reg → Nat → Bytes → Prop} {l : List Signal} (t : Int)
    (e : Elem) (s : Store) : Covers now C l s (tagElem t e s).2 := by
  unfold tagElem
  cases e.obj with
  | raw b => exact .refl s
  | int n shared =>
    cases shared with
    | true => exact .shared _
    | false => exact .refl s

variable {type : UType} {st st' : LSt}

theorem elemStep_covers {e : Elem} (hv : st.s.reg.find v.ns = some v)
    (h : elemStep cu env v type st e = .ok st') :
    Covers env.now Watchable (elemSignals cs env v type st e) st.s st'.s := by
  obtain ⟨c, hc, h⟩ := bind_eq_ok.mp h
  obtain ⟨out, hout, h⟩ := bind_eq_ok.mp h
  cases h
  rw [elemSignals, hc, onOk_ok]
  have htag : Covers env.now Watchable [] st.s (tagElem (st.s.vers c.obj) e st.s).2 :=
    tagElem_covers ..
  refine htag.trans (hcs.covers ?_ (fun hnone => by cases hnone) hout)
  rw [htag.reg]
  exact hv

theorem slotStep_covers (htype : type ≠ .string) {e : Option Elem}
    (hv : st.s.reg.find v.ns = some v) (h : slotStep cu env v type st e = .ok st') :
    Covers env.now Watchable (slotSignals cs env v type st e) st.s st'.s := by
  obtain ⟨c, hc, h⟩ := bind_eq_ok.mp h
  obtain ⟨out, hout, h⟩ := bind_eq_ok.mp h
  cases h
  rw [slotSignals, hc, onOk_ok]
  exact hcs.covers hv (fun _ heq => absurd heq htype) hout

omit hcs in
theorem loop_covers {α : Type} {step : LSt → α → Res LSt} {out : LSt → α → List Signal}
    (hstep : ∀ st a st', st.s.reg.find v.ns = some v → step st a = .ok st' →
      Covers env.now Watchable (out st a) st.s st'.s) {l : List α}
    (hv : st.s.reg.find v.ns = some v) (h : l.foldlM step st = .ok st') :
    Covers env.now Watchable (emitted step out st l) st.s st'.s := by
  refine emitted_rel (R := fun l (a b : LSt) => a.s.reg.find v.ns = some v →
    Covers env.now Watchable l a.s b.s) (fun _ _ => .refl _) (fun h h' hv => ?_)
    (fun st a _ st' h hv => hstep st a st' hv h) h hv
  exact (h hv).trans (h' (by rw [(h hv).reg]; exact hv))

theorem elemsLoop_covers {gather : Val → Res (List Elem)} {val : Val}
    (hv : st.s.reg.find v.ns = some v)
    (h : elemsLoop cu env v type gather val st = .ok st') :
    Covers env.now Watchable (elemsSignals cs cu env v type gather val st) st.s st'.s := by
  obtain ⟨l, hl, h⟩ := elemsLoop_ok h
  rw [elemsSignals, hl, onOk_ok]
  exact loop_covers (fun _ _ _ hv h => elemStep_covers hcs hv h) hv h

theorem slotsLoop_covers {vers : Int} {val : Val} {r : Res LSt} (hv : st.s.reg.find v.ns = some v)
    (hr : ((ziplistEntries env.cfg val).map fun entries => do
      let l ← zsetSlots env.cfg vers entries
      l.foldlM (slotStep cu env v (utypeOf val)) st) = some r) (h : r = .ok st') :
    Covers env.now Watchable (slotsSignals cs cu env v vers val st) st.s st'.s := by
  obtain ⟨entries, hentries, rfl⟩ := Option.map_eq_some_iff.mp hr
  obtain ⟨l, hl, h⟩ := bind_eq_ok.mp h
  rw [slotsSignals, hentries]
  simp only [hl, onOk_ok]
  have htype : utypeOf val ≠ .string := by
    cases val with
    | str o => cases hentries
    | _ => rintro ⟨⟩
  exact loop_covers (fun _ _ _ hv h => slotStep_covers hcs htype hv h) hv h

omit hcs in
theorem updateAll_covers {key : Bytes} {s : Store} {out : Int × Bytes × Store}
    {loop : Int → Val → LSt → Option (Res LSt)} {sigs : Int → Val → LSt → List Signal}
    (hloop : ∀ t val st st' r, st.s.reg.find v.ns = some v → loop t val st = some r →
      r = .ok st' → Covers env.now Watchable (sigs t val st) st.s st'.s)
    (hv : s.reg.find v.ns = some v) (h : updateAll env v key s loop = .ok out) :
    Covers env.now Watchable (updateAllSignals env v key s sigs) s out.2.2 := by
  obtain ⟨found, hfound, h⟩ := bind_eq_ok.mp h
  rw [updateAllSignals, hfound, onOk_ok]
  cases found with
  | none =>
    cases h
    exact .refl _
  | some loc =>
    obtain ⟨c, hc, h⟩ := bind_eq_ok.mp h
    simp only [hc, onOk_ok]
    split at h
    · cases h
      exact .refl _
    · rename_i hvers
      rw [if_neg hvers]
      cases hr : loop (s.vers c.obj) c.obj.val ⟨true, key, loc, s⟩ with
      | none =>
        rw [hr] at h
        cases h
        exact .refl _
      | some r =>
        simp only [hr] at h
        obtain ⟨st, hst, h⟩ := bind_eq_ok.mp h
        obtain ⟨_, -, h⟩ := bind_eq_ok.mp h
        cases h
        have hall := (hloop _ _ _ st r hv hr hst).trans (Covers.setVers (l := []) env.d st.loc v.cur)
        rwa [List.append_nil] at hall

end Containers

/-! ## Handlers -/

section Handlers

variable (cs : CheckSignals) (cu : CheckUpdate) (env : Env) (v : VersionHash)
  (key : Bytes) (args : List Arg)

/-- The value is brought to the current name if it is found under an earlier one. -/
def bringSignals (s : Store) : List Signal :=
  onOk (getDbVal env v key s) fun found =>
    match found with
    | none => []
    | some _ => namespaceSignals env v key s

def setnxSignals (s : Store) : List Signal :=
  if s.has env.d key then [] else bringSignals env v key s

def incrSignals (s : Store) : List Signal :=
  if v.prevNs = none then [] else bringSignals env v key s

/-- Without `NX` and `XX` the old name is deleted, which is not signalled. -/
def setSignals (s : Store) : List Signal :=
  match args with
  | k :: _ :: opts =>
    if (getFlags opts).2 ∨ (getFlags opts).1 then setnxSignals env v k.ptr s else []
  | _ => []

def getSignals (s : Store) : List Signal := cs env v true key none .string key s

def mgetSignals : List Arg → Store → List Signal
  | [], _ => []
  | k :: ks, s =>
    getSignals cs env v k.ptr s ++ onOk (getKey cu env v k.ptr s) fun p => mgetSignals ks p.2

def keysStepSignals (pattern : Bytes) (s : Store) (key : Bytes) : List Signal :=
  if s.has env.d key then
    match (versionHashLookup s.reg key).bind (·.nextNs) with
    | none => []
    | some next =>
      match constructPrevName key next with
      | none => []
      | some new =>
        if env.cfg.stringmatchlen pattern new then
          match versionHashLookup s.reg new with
          | none => []
          | some v => namespaceSignals env v new s
        else []
  else []

def keysSignals (s : Store) : List Signal :=
  match args with
  | [] => []
  | p :: _ =>
    if cstr p.ptr = lit "kvolve" then []
    else emitted (keysStep env p.ptr) (keysStepSignals env p.ptr) s (env.iter (s.dbs env.d))

def onKeySignals (f : Bytes → Store → List Signal) (args : List Arg) (s : Store) : List Signal :=
  match args with
  | [] => []
  | k :: _ => f k.ptr s

def HName.signals (h : HName) (args : List Arg) (s : Store) : List Signal :=
  match h.checks with
  | some .string =>
    if h = .mget then mgetSignals cs cu env v args s else onKeySignals (getSignals cs env v) args s
  | some type => onKeySignals (containerSignals cs cu env v type) args s
  | none =>
    match h with
    | .set => setSignals env v args s
    | .setnx => onKeySignals (setnxSignals env v) args s
    | .incr | .incrby => onKeySignals (incrSignals env v) args s
    | .del => checkRenameAll env v (args.map (·.ptr)) s
    | .keys => keysSignals env args s
    | _ => []

end Handlers

section Handlers

variable {env : Env} {cu : CheckUpdate} {cs : CheckSignals}
  {pre : VersionHash → Store → Bytes → Prop} (hcs : CheckTells env cu cs pre) {v : VersionHash}
  {s : Store}

/-- The condition on strings, for each key when its turn comes. -/
def HName.Asks (h : HName) (cu : CheckUpdate) (env : Env) (v : VersionHash)
    (pre : VersionHash → Store → Bytes → Prop) (args : List Arg) (s : Store) : Prop :=
  h.checks = some .string →
    Along (fun s k => Prod.snd <$> getKey cu env v k s) (pre v) s (h.keysOf args)

variable {key : Bytes} {C : Reg → Nat → Bytes → Prop} {s' : Store} {out : List Arg × Store}
    {args : List Arg}

theorem bring_covers (h : (do match ← getDbVal env v key s with
      | none => .ok s
      | some _ => namespaceUpdate env v key s) = .ok s') :
    Covers env.now C (bringSignals env v key s) s s' := by
  obtain ⟨found, hfound, h⟩ := bind_eq_ok.mp h
  rw [bringSignals, hfound, onOk_ok]
  cases found with
  | none =>
    cases h
    exact .refl _
  | some loc => exact namespaceUpdate_covers C h

theorem setnxKey_covers (h : setnxKey env v key s = .ok s') :
    Covers env.now C (setnxSignals env v key s) s s' := by
  unfold setnxKey at h
  unfold setnxSignals
  split at h
  · rename_i hhas
    rw [if_pos hhas]
    cases h
    exact .refl _
  · rename_i hhas
    rw [if_neg hhas]
    exact bring_covers h

theorem incrKey_covers (h : incrKey env v key s = .ok s') :
    Covers env.now C (incrSignals env v key s) s s' := by
  unfold incrKey at h
  unfold incrSignals
  split at h
  · rename_i hprev
    rw [if_pos hprev]
    cases h
    exact .refl _
  · rename_i hprev
    rw [if_neg hprev]
    exact bring_covers h

theorem setKeyOld_covers (hv : s.reg.find v.ns = some v) (h : setKeyOld env v key s = .ok s') :
    Covers env.now Watchable [] s s' := by
  unfold setKeyOld checkdelOld at h
  split at h
  · obtain ⟨found, hfound, h⟩ := bind_eq_ok.mp h
    cases found with
    | none =>
      cases h
      exact .refl _
    | some old =>
      cases h
      obtain ⟨⟨p, hp, hj⟩, -⟩ := prevWalk_alias hfound
      exact .put_unread (not_watchable hv hp hj env.d) none
  · cases h
    exact .refl _

theorem keysStep_covers {pattern : Bytes} (h : keysStep env pattern s key = .ok s') :
    Covers env.now C (keysStepSignals env pattern s key) s s' := by
  unfold keysStep at h
  split at h
  · rename_i hhas
    split at h
    · cases h
      exact .refl _
    · rename_i next hnext
      split at h
      · cases h
      · rename_i new hnew
        split at h
        · rename_i hm
          split at h
          · split at h
            · cases h
              exact .refl _
            · cases h
          · rename_i w hw
            simp only [keysStepSignals, hhas, hnext, hnew, hm, hw, if_true]
            exact namespaceUpdate_covers C h
        · cases h
          exact .refl _
  · cases h
    exact .refl _

theorem kvolveKeys_covers (h : kvolveKeys env args s = .ok out) :
    Covers env.now C (keysSignals env args s) s out.2 := by
  unfold kvolveKeys at h
  unfold keysSignals
  split at h
  · cases h
  · split at h
    · cases h
      exact .refl _
    · rename_i p rest hp
      simp only [if_neg hp]
      obtain ⟨s', hs', h⟩ := bind_eq_ok.mp h
      cases h
      exact emitted_rel Covers.refl Covers.trans (fun _ _ _ _ h => keysStep_covers h) hs'

theorem onKey_covers {f : Bytes → Store → Res (Bytes × Store)} {g : Bytes → Store → List Signal}
    (hf : ∀ k ∈ args.head?, ∀ p, f k.ptr s = .ok p →
      Covers env.now Watchable (g k.ptr s) s p.2) (h : onKey f args s = .ok out) :
    Covers env.now Watchable (onKeySignals g args s) s out.2 := by
  cases args with
  | nil => cases h
  | cons k rest =>
    obtain ⟨p, hp, h⟩ := bind_eq_ok.mp h
    cases h
    exact hf k rfl p hp

theorem newVersion_covers {l : List Signal} (key : Bytes) :
    Covers env.now C l s (newVersion env v key s) := .silent rfl fun _ _ => rfl

include hcs

variable (hv : s.reg.find v.ns = some v)

include hv

theorem getKey_covers {p : Bytes × Store} (hpre : pre v s key) (h : getKey cu env v key s = .ok p) :
    Covers env.now Watchable (getSignals cs env v key s) s p.2 := by
  obtain ⟨out, hout, h⟩ := bind_eq_ok.mp h
  cases h
  exact hcs.covers hv (fun _ _ => ⟨rfl, hpre⟩) hout

theorem mgetLoop_covers
    (hpre : Along (fun s k => Prod.snd <$> getKey cu env v k s) (pre v) s (args.map (·.ptr)))
    (h : mgetLoop cu env v args s = .ok out) :
    Covers env.now Watchable (mgetSignals cs cu env v args s) s out.2 := by
  induction args generalizing s out with
  | nil =>
    cases h
    exact .refl _
  | cons k ks ih =>
    obtain ⟨⟨key, s₁⟩, hs₁, h⟩ := bind_eq_ok.mp h
    obtain ⟨rest, hrest, h⟩ := bind_eq_ok.mp h
    cases h
    obtain ⟨hk, hks⟩ := hpre
    have hone := getKey_covers hcs hv hk hs₁
    rw [mgetSignals, hs₁, onOk_ok]
    have hturn : Prod.snd <$> getKey cu env v k.ptr s = .ok s₁ := by
      rw [hs₁]
      rfl
    have hrest := ih (by rw [hone.reg]; exact hv) (hks s₁ hturn) hrest
    exact hone.trans hrest

theorem elems_covers {type : UType} {gather : Bytes → Val → Res (List Elem)}
    (key : Bytes) (out : Int × Bytes × Store)
    (h : (updateAll env v key s fun _ val st =>
      some (elemsLoop cu env v type (gather key) val st)) = .ok out) :
    Covers env.now Watchable (updateAllSignals env v key s fun _ val st =>
      elemsSignals cs cu env v type (gather key) val st) s out.2.2 := by
  refine updateAll_covers (fun t val st st' r hv hr h => ?_) hv h
  cases hr
  exact elemsLoop_covers hcs hv h

theorem updateAllZset_covers (key : Bytes)
    (out : Int × Bytes × Store) (h : updateAllZset cu env v key s = .ok out) :
    Covers env.now Watchable (containerSignals cs cu env v .zset key s) s out.2.2 :=
  updateAll_covers (fun _ _ _ _ _ hv hr h => slotsLoop_covers hcs hv hr h) hv h

omit hv

variable {sigs : Bytes → Store → List Signal} {all : UpdateAll}

omit hcs in
theorem migrating_covers (hall : ∀ key out, all cu env v key s = .ok out →
      Covers env.now Watchable (sigs key s) s out.2.2)
    (h : migrating all cu env v args s = .ok out) :
    Covers env.now Watchable (onKeySignals sigs args s) s out.2 := by
  refine onKey_covers (fun k _ p hp => ?_) h
  obtain ⟨⟨ret, key, s'⟩, hs', hp⟩ := bind_eq_ok.mp hp
  cases hp
  exact hall k.ptr _ hs'

omit hcs in
theorem creating_covers (hall : ∀ key out, all cu env v key s = .ok out →
      Covers env.now Watchable (sigs key s) s out.2.2)
    (h : creating all cu env v args s = .ok out) :
    Covers env.now Watchable (onKeySignals sigs args s) s out.2 := by
  refine onKey_covers (fun k _ p hp => ?_) h
  obtain ⟨⟨ret, key, s'⟩, hs', hp⟩ := bind_eq_ok.mp hp
  cases hp
  have hmig := hall k.ptr _ hs'
  split
  · have hnew : Covers env.now Watchable [] s' (newVersion env v key s') := newVersion_covers key
    have hall := hmig.trans hnew
    rwa [List.append_nil] at hall
  · exact hmig

omit hcs in
theorem kvolveSet_covers (hv : s.reg.find v.ns = some v) (h : kvolveSet cu env v args s = .ok out) :
    Covers env.now Watchable (setSignals env v args s) s out.2 := by
  unfold kvolveSet at h
  split at h
  · rename_i k val opts
    rw [setSignals]
    split at h
    · rename_i hxx
      rw [if_pos (.inl hxx)]
      obtain ⟨s', hs', h⟩ := bind_eq_ok.mp h
      cases h
      exact setnxKey_covers hs'
    · rename_i hxx
      split at h
      · rename_i hnx
        rw [if_pos (.inr hnx)]
        obtain ⟨s', hs', h⟩ := bind_eq_ok.mp h
        cases h
        exact setnxKey_covers hs'
      · rename_i hnx
        rw [if_neg (not_or.mpr ⟨hxx, hnx⟩)]
        obtain ⟨s', hs', h⟩ := bind_eq_ok.mp h
        cases h
        exact setKeyOld_covers hv hs'
  · cases h

omit hcs in
theorem msetLoop_covers (hv : s.reg.find v.ns = some v) (h : msetLoop env v args s = .ok out) :
    Covers env.now Watchable [] s out.2 := by
  induction args using evenArgs.induct generalizing s out with
  | case1 k val rest ih =>
    rw [msetLoop] at h
    obtain ⟨s₁, hs₁, h⟩ := bind_eq_ok.mp h
    obtain ⟨p, hp, h⟩ := bind_eq_ok.mp h
    cases h
    have hone := setKeyOld_covers hv hs₁
    have hrest := ih (by rw [hone.reg]; exact hv) hp
    exact hone.trans hrest
  | case2 args hne =>
    unfold msetLoop at h
    split at h
    · exact absurd rfl (hne _ _ _)
    · cases h
      exact .refl _

/-- **A handler signals what it changes under the last name of a key.** -/
theorem HName.run_covers (h : HName) (hv : s.reg.find v.ns = some v)
    (hpre : h.Asks cu env v pre args s) (hrun : h.run cu env v args s = .ok out) :
    Covers env.now Watchable (h.signals cs cu env v args s) s out.2 := by
  have hget : ∀ {out}, (args.head?.map (·.ptr)).toList = h.keysOf args → h.checks = some .string →
      onKey (getKey cu env v) args s = .ok out →
      Covers env.now Watchable (onKeySignals (getSignals cs env v) args s) s out.2 := by
    intro out hkeys hchecks hrun
    refine onKey_covers (fun k hk p hp => getKey_covers hcs hv ?_ hp) hrun
    have hall := hpre hchecks
    rw [← hkeys, hk] at hall
    exact hall.1
  have hincr : ∀ {out}, kvolveIncr cu env v args s = .ok out →
      Covers env.now Watchable (onKeySignals (incrSignals env v) args s) s out.2 := by
    intro out hrun
    refine onKey_covers (fun k _ p hp => ?_) hrun
    obtain ⟨s', hs', hp⟩ := bind_eq_ok.mp hp
    cases hp
    exact incrKey_covers hs'
  cases h with
  | keys => exact kvolveKeys_covers hrun
  | set =>
    have hrun : kvolveSet cu env v args s = .ok out := hrun
    exact kvolveSet_covers hv hrun
  | mset =>
    simp only [HName.run, kvolveMset] at hrun
    split at hrun
    · cases hrun
    · exact msetLoop_covers hv hrun
  | get | getset | getrange => exact hget rfl rfl hrun
  | mget => exact mgetLoop_covers hcs hv (hpre rfl) hrun
  | del =>
    obtain ⟨s', hs', hrun⟩ := bind_eq_ok.mp hrun
    cases hrun
    exact checkRename_covers _ hs'
  | incr | incrby => exact hincr hrun
  | setnx =>
    simp only [HName.run, kvolveSetnx] at hrun
    refine onKey_covers (fun k _ p hp => ?_) hrun
    obtain ⟨s', hs', hp⟩ := bind_eq_ok.mp hp
    cases hp
    exact setnxKey_covers hs'
  | sadd | lpush | rpush | hset | hmset => exact creating_covers (elems_covers hcs hv) hrun
  | zadd => exact creating_covers (updateAllZset_covers hcs hv) hrun
  | hdel | hget | hgetall | hmget | lrange | lpop | llen | lset | rpop | scard | spop | smembers
  | sismember | srem => exact migrating_covers (elems_covers hcs hv) hrun
  | zcard | zscore | zrem | zrange | zrevrange =>
    exact migrating_covers (updateAllZset_covers hcs hv) hrun

end Handlers

/-! ## Commands -/

def stepsSignals (env : Env) (cmd : Cmd) (args : List Arg) : List Step → Db → List Signal
  | [], _ => []
  | st :: l, db =>
    let cur := (liveEntry env.now db st.key).map (·.obj.val)
    (if signals env.cfg cmd args cur (st.proc cur) then [(env.d, st.key)] else []) ++
      stepsSignals env cmd args l (st.exec env.now db).2

def planSignals (env : Env) (cmd : Cmd) (args : List Arg) (p : Plan) (s : Store) : List Signal :=
  match p with
  | .run steps _ => stepsSignals env cmd args steps (s.dbs env.d)
  | _ => []

theorem stepsSignals_told {cmd : Cmd} {args : List Arg} {steps : List Step}
    (hsound : ∀ st ∈ steps, ∀ cur, signals env.cfg cmd args cur (st.proc cur) = false →
      (st.proc cur).2.Silent cur) (db : Db) (k : Bytes)
    (h : shownIn env.now (execSteps env.now steps db).2 k ≠ shownIn env.now db k) :
    (env.d, k) ∈ stepsSignals env cmd args steps db := by
  induction steps generalizing db with
  | nil => exact absurd rfl h
  | cons st l ih =>
    rw [stepsSignals, List.mem_append]
    by_cases hone : shownIn env.now (st.exec env.now db).2 k = shownIn env.now db k
    · refine .inr (ih (fun st hst => hsound st (List.mem_cons_of_mem _ hst)) _ ?_)
      rw [hone]
      exact h
    · refine .inl ?_
      have hk : k = st.key := by
        by_contra hne
        exact hone (Act.shown_run_ne _ _ _ _ hne)
      cases hsig : signals env.cfg cmd args ((liveEntry env.now db st.key).map (·.obj.val))
          (st.proc ((liveEntry env.now db st.key).map (·.obj.val))) with
      | true => simp [hk]
      | false => exact absurd ((hsound st (by simp) _ hsig).shown k) hone

theorem shownIn_expireIfNeeded (now : Int) (db : Db) (k j : Bytes) :
    shownIn now (expireIfNeeded now db k) j = shownIn now db j := by
  unfold shownIn
  rw [liveEntry, liveEntry, lookup_expireIfNeeded]
  split
  · rename_i h
    subst h
    rw [liveEntry_live]
    rfl
  · rfl

theorem shownIn_execKeys (cfg : Cfg) (now : Int) (pattern : Bytes) (l : List Bytes) (db : Db)
    (j : Bytes) : shownIn now (execKeys cfg now pattern l db).2 j = shownIn now db j := by
  induction l generalizing db with
  | nil => rfl
  | cons k l ih =>
    unfold execKeys
    split
    · exact (ih _).trans (shownIn_expireIfNeeded ..)
    · exact ih db

theorem call_covers (env : Env) {C : Reg → Nat → Bytes → Prop} {cmd : Cmd} {args : List Arg}
    {p : Plan} (hplan : plan env.cfg env.now env.rand cmd args = some p) (s : Store) :
    Covers env.now C (planSignals env cmd args p s) s (s.call env p).2 := by
  have hother : ∀ d k, d ≠ env.d → shown env.now (s.call env p).2 d k = shown env.now s d k := by
    intro d k hd
    rw [shown, Store.call, Store.setDb_dbs_ne _ _ _ hd, shown]
  have hself : ∀ k, shown env.now (s.call env p).2 env.d k =
      shownIn env.now (p.exec env.cfg env.now env.iter (s.dbs env.d)).2 k := by
    intro k
    rw [shown, Store.call, Store.setDb_dbs_self]
  refine ⟨rfl, fun d k _ hne => ?_⟩
  by_cases hd : d = env.d
  · subst hd
    rw [hself] at hne
    cases p with
    | refuse r => exact absurd rfl hne
    | run steps combine =>
      exact stepsSignals_told (fun st hst cur h => signals_sound hplan hst h) _ k hne
    | keys pattern => exact absurd (shownIn_execKeys ..) hne
  · exact absurd (hother d k hd) hne

/-! ## The hook -/

def dispatchSignals (cs : CheckSignals) (cu : CheckUpdate) (env : Env) (argv : List Arg)
    (s : Store) : List Signal :=
  match argv with
  | name :: k :: rest =>
    match versionHashLookup s.reg k.ptr with
    | none => []
    | some v =>
      match lookupKvCommand name.ptr argv.length with
      | none => []
      | some h => h.signals cs cu env v (k :: rest) s
  | _ => []

def dataSignals (cs : CheckSignals) (cu : CheckUpdate) (env : Env) (argv : List Arg) (s : Store) :
    List Signal :=
  match argv with
  | [name, p] =>
    if strcasecmp name.ptr (lit "keys") then keysSignals env [p] s
    else dispatchSignals cs cu env argv s
  | _ => dispatchSignals cs cu env argv s

theorem dispatch_covers {cu : CheckUpdate} {cs : CheckSignals}
    {pre : VersionHash → Store → Bytes → Prop} (hcs : CheckTells env cu cs pre)
    {out : List Arg × Store}
    (hpre : ∀ name k rest v h, argv = name :: k :: rest → versionHashLookup s.reg k.ptr = some v →
      lookupKvCommand name.ptr argv.length = some h → h.Asks cu env v pre (k :: rest) s)
    (h : dispatch cu env argv s = .ok out) :
    Covers env.now Watchable (dispatchSignals cs cu env argv s) s out.2 := by
  unfold dispatch at h
  split at h
  · rename_i name k rest
    split at h
    · cases h
      exact .refl _
    · rename_i v hv
      split at h
      · cases h
        exact .refl _
      · rename_i hn hhn
        obtain ⟨p, hp, h⟩ := bind_eq_ok.mp h
        cases h
        simp only [dispatchSignals, hv, hhn]
        exact hn.run_covers hcs (versionHashLookup_find hv) (hpre name k rest v hn rfl hv hhn) hp
  · cases h
    exact .refl _

/-- What a handler changes is signalled. -/
theorem processData_covers {cu : CheckUpdate} {cs : CheckSignals}
    {pre : VersionHash → Store → Bytes → Prop} (hcs : CheckTells env cu cs pre)
    {out : List Arg × Store} (hpre : ∀ name k rest v h, argv = name :: k :: rest →
      (rest = [] → strcasecmp name.ptr (lit "keys") = false) →
      versionHashLookup s.reg k.ptr = some v →
      lookupKvCommand name.ptr argv.length = some h → h.Asks cu env v pre (k :: rest) s)
    (h : processData cu env argv s = .ok out) :
    Covers env.now Watchable (dataSignals cs cu env argv s) s out.2 := by
  unfold processData at h
  split at h
  · rename_i name p
    rw [dataSignals]
    split at h
    · rename_i hkeys
      rw [if_pos hkeys]
      obtain ⟨out, hout, h⟩ := bind_eq_ok.mp h
      cases h
      have hrun := kvolveKeys_covers (C := Watchable) hout
      exact hrun
    · rename_i hkeys
      rw [if_neg hkeys]
      refine dispatch_covers hcs (fun name' k rest v hn heq => ?_) h
      cases heq
      exact hpre _ _ _ v hn rfl fun _ => by simpa using hkeys
  · rename_i hne
    unfold dataSignals
    split
    · exact absurd rfl (hne _ _)
    · refine dispatch_covers hcs (fun name' k rest v hn heq => ?_) h
      refine hpre _ _ _ v hn heq fun hrest => ?_
      rw [heq, hrest] at hne
      exact absurd rfl (hne _ _)

def callSignals (env : Env) (s : Store) (argv : List Bytes) : List Signal :=
  match argv with
  | [] => []
  | name :: args =>
    match lookupCommand name with
    | none => []
    | some (_, cmd, _) =>
      let env := { env with d := 0 }
      let argv : List Arg := ⟨name, 0⟩ :: args.map (⟨·, 0⟩)
      dataSignals (fun _ _ _ _ _ _ _ _ => []) checkUpdateSkip env argv (prevcallCheck s) ++
        onOk (processData checkUpdateSkip env argv (prevcallCheck s)) fun out =>
          match plan env.cfg env.now env.rand cmd out.1.tail with
          | some p => planSignals env cmd out.1.tail p out.2
          | none => []

theorem prevcallCheck_covers {now : Int} {C : Reg → Nat → Bytes → Prop} {l : List Signal}
    (s : Store) : Covers now C l s (prevcallCheck s) :=
  .silent (prevcallCheck_reg s) fun _ _ => shown_prevcallCheck ..

theorem updRedisCall_covers (env : Env) (s : Store) (argv : List Bytes) (s' : Store)
    (h : updRedisCall env s argv = .ok s') :
    Covers env.now Watchable (callSignals env s argv) s s' := by
  unfold updRedisCall at h
  split at h
  · cases h
  · rename_i name args
    split at h
    · cases h
    · rename_i cname cmd arity hcmd
      simp only [callSignals, hcmd]
      obtain ⟨⟨argv', s₁⟩, hs₁, h⟩ := bind_eq_ok.mp h
      have hdata := processData_covers (tells_skip { env with d := 0 })
        (fun _ _ _ _ _ _ _ _ _ _ => along_iff_split.mpr fun _ _ _ _ _ _ => trivial) hs₁
      rw [hs₁, onOk_ok]
      cases hp : plan env.cfg env.now env.rand cmd argv'.tail with
      | none =>
        simp only [hp] at h
        cases h
      | some p =>
        simp only [hp] at h ⊢
        cases h
        have hcall : Covers env.now Watchable
            (planSignals { env with d := 0 } cmd argv'.tail p s₁) s₁
            (s₁.call { env with d := 0 } p).2 := call_covers { env with d := 0 } hp s₁
        exact (prevcallCheck_covers s (l := [])).trans (hdata.trans hcall)

def checkKvSignals : CheckSignals := fun env =>
  checkUpdateSignals (updRedisCall env) (callSignals env) env

theorem tells_checkUpdate (env : Env) :
    CheckTells env checkUpdateKvPair checkKvSignals (Told env) :=
  ⟨fun hv hpre h => (tells_with (updRedisCall_covers env)).covers hv hpre h⟩

def hookSignals (env : Env) (argv : List Arg) (s : Store) : List Signal :=
  match isSetname argv with
  | some _ => []
  | none => dataSignals checkKvSignals checkUpdateKvPair env argv (prevcallCheck s)

def StringsTold (env : Env) (argv : List Arg) (s : Store) : Prop :=
  OnHandler s.reg argv (fun _ => True) fun h v args =>
    h.Asks checkUpdateKvPair env v (Told env) args (prevcallCheck s)

theorem hook_told {ld : Loader} {id : Nat} {out : HookOut} (hsup : Superseded s.reg)
    (htold : StringsTold env argv s) (h : processCommand ld env id argv s = .ok out) {d : Nat}
    {k : Bytes} (hk : LastName s.reg k) (hne : shown env.now out.s d k ≠ shown env.now s d k) :
    (d, k) ∈ hookSignals env argv s := by
  unfold processCommand hookBody at h
  unfold hookSignals
  rw [← shown_prevcallCheck env.now s d k] at hne
  cases hset : isSetname argv with
  | some name =>
    refine absurd ?_ hne
    simp only [hset] at h
    split at h
    · obtain ⟨p, -, h⟩ := bind_eq_ok.mp h
      cases h
      rfl
    · obtain ⟨p, -, h⟩ := bind_eq_ok.mp h
      cases h
      rfl
  | none =>
    simp only [hset] at h ⊢
    obtain ⟨p, hp, h⟩ := bind_eq_ok.mp h
    cases h
    have hreg := prevcallCheck_reg s
    have hcov := processData_covers (tells_checkUpdate env)
      (fun name k rest v hn heq hkeys hv hhn =>
        (htold hset).2 name k rest heq hkeys v hn (by rw [← hreg]; exact hv) hhn) hp
    exact hcov.told d k (by rw [hreg]; exact ⟨hsup, hk⟩) hne

/-! ## Marked clients -/

theorem execCommand_dirty (cfg : Cfg) (rq : Request) {cl : Client} (s : Store)
    (hm : cl.multi = true) (hd : cl.dirtyCas = true) :
    (execCommand cfg rq cl s).2.2 = s ∧
      (execCommand cfg rq cl s).1 ∈ [execaborterr, [.nullMulti]] := by
  unfold execCommand
  simp only [hm, hd, Bool.not_true, Bool.false_eq_true, if_false, if_true]
  split
  · exact ⟨rfl, by simp⟩
  · exact ⟨rfl, by simp⟩

/-- **Watchers of what a migration changes are marked.** The value under the last name of a
watched key changes in a command: the watchers are marked, and their transactions are aborted,
provided that the strings it updates in place come out of the functions as they went in. -/
theorem watchers_marked {evs : List RegEvent} {ld : Loader} {env : Env} {id : Nat} {argv : List Arg}
    {s : Store} {out : HookOut} (hreg : evs.foldlM Reg.step Reg.empty = .ok s.reg)
    (hok : processCommand ld env id argv s = .ok out) (htold : StringsTold env argv s)
    {w : Watching} {d : Nat} {k : Bytes} {clients : List Nat} {c : Nat}
    (hw : (w.watchedKeys d).lookup k = some clients) (hc : c ∈ clients) (hk : LastName s.reg k)
    (hne : shown env.now out.s d k ≠ shown env.now s d k) :
    c ∈ (w.touchAll (hookSignals env argv s)).dirtyCas ∧
      ∀ cfg rq (cl : Client) t, cl.multi = true →
        (cl.dirtyCas = true ↔ c ∈ (w.touchAll (hookSignals env argv s)).dirtyCas) →
        (execCommand cfg rq cl t).2.2 = t ∧
          (execCommand cfg rq cl t).1 ∈ [execaborterr, [.nullMulti]] := by
  have hmark : c ∈ (w.touchAll (hookSignals env argv s)).dirtyCas :=
    w.touchAll_marks hw hc (hook_told (superseded_run hreg) htold hok hk hne)
  exact ⟨hmark, fun cfg rq cl t hm hd => execCommand_dirty cfg rq t hm (hd.mpr hmark)⟩

def watching (k : Bytes) : Watching := ⟨fun d => if d = 0 then Dict.put ∅ k (some [7]) else ∅, ∅⟩

theorem watching_lookup (k : Bytes) : ((watching k).watchedKeys 0).lookup k = some [7] := by
  simp only [watching, if_true]
  rw [Dict.lookup_put, if_pos rfl]

theorem lastName_keyName {n x : Bytes} (hx : colon ∉ x) (h : (reg.find n).bind (·.nextNs) = none) :
    LastName reg (keyName n x) := by
  refine (currentName_keyName hx fun m hm => ?_).2
  rw [NextLink, h] at hm
  cases hm

theorem watcher_marked_by_move :
    ∃ reg out, renameOnce.foldlM Reg.step Reg.empty = .ok reg ∧
      processCommand ⟨fun _ => none, fun _ => 0⟩ plainEnv 1 [⟨lit "get", 0⟩, ⟨lit "b:s", 0⟩]
        (leftBehind reg) = .ok out ∧
      7 ∈ ((watching (lit "b:s")).touchAll
        (hookSignals plainEnv [⟨lit "get", 0⟩, ⟨lit "b:s", 0⟩] (leftBehind reg))).dirtyCas := by
  obtain ⟨reg, hreg, hrun, hb⟩ := ok_of_any (x := renameOnce.foldlM Reg.step Reg.empty)
    (p := fun reg => ((processCommand ⟨fun _ => none, fun _ => 0⟩ plainEnv 1
        [⟨lit "get", 0⟩, ⟨lit "b:s", 0⟩] (leftBehind reg)).toOption.any fun out =>
          decide (shown 0 out.s 0 (lit "b:s") ≠ shown 0 (leftBehind reg) 0 (lit "b:s"))) = true ∧
      (reg.find (lit "b")).bind (·.nextNs) = none) (by decide +kernel)
  obtain ⟨out, hout, hne⟩ := ok_of_any hrun
  have hclean : prevcallCheck (leftBehind reg) = leftBehind reg := prevcallCheck_of_empty rfl
  refine ⟨reg, out, hreg, hout, (watchers_marked hreg hout ?_ (watching_lookup _) (by simp)
    (lastName_keyName (n := lit "b") (x := lit "s") (by decide) hb) hne).1⟩
  refine fun _ => ⟨fun _ _ _ _ => trivial, ?_⟩
  rintro name k rest heq - v h - hh
  cases heq
  cases hh
  intro _
  refine ⟨fun e b he => ?_, fun _ _ => trivial⟩
  rw [hclean, show (leftBehind reg).get plainEnv.d (lit "b:s") = none from rfl] at he
  cases he

def appendOnce : List RegEvent :=
  [.connect 1 (lit "a@1"),
    .load 1 (fun _ => 0) ⟨lit "a", lit "a", 1, 2, [textFun fun b => some (b ++ lit "!")]⟩]

/-- The string is changed in place, and the change is signalled for a key named like the new
value. -/
theorem watcher_missed :
    ∃ reg out, appendOnce.foldlM Reg.step Reg.empty = .ok reg ∧ LastName reg (lit "a:s") ∧
      ((watching (lit "a:s")).watchedKeys 0).lookup (lit "a:s") = some [7] ∧
      processCommand ⟨fun _ => none, fun _ => 0⟩ plainEnv 1 [⟨lit "get", 0⟩, ⟨lit "a:s", 0⟩]
        (leftBehind reg) = .ok out ∧
      shown 0 out.s 0 (lit "a:s") ≠ shown 0 (leftBehind reg) 0 (lit "a:s") ∧
      hookSignals plainEnv [⟨lit "get", 0⟩, ⟨lit "a:s", 0⟩] (leftBehind reg) =
        [(0, lit "hello!")] ∧
      7 ∉ ((watching (lit "a:s")).touchAll
        (hookSignals plainEnv [⟨lit "get", 0⟩, ⟨lit "a:s", 0⟩] (leftBehind reg))).dirtyCas := by
  obtain ⟨reg, hreg, hrun, ha, hsig⟩ := ok_of_any (x := appendOnce.foldlM Reg.step Reg.empty)
    (p := fun reg => ((processCommand ⟨fun _ => none, fun _ => 0⟩ plainEnv 1
        [⟨lit "get", 0⟩, ⟨lit "a:s", 0⟩] (leftBehind reg)).toOption.any fun out =>
          decide (shown 0 out.s 0 (lit "a:s") ≠ shown 0 (leftBehind reg) 0 (lit "a:s"))) = true ∧
      (reg.find (lit "a")).bind (·.nextNs) = none ∧
      hookSignals plainEnv [⟨lit "get", 0⟩, ⟨lit "a:s", 0⟩] (leftBehind reg) =
        [(0, lit "hello!")]) (by decide +kernel)
  obtain ⟨out, hout, hne⟩ := ok_of_any hrun
  refine ⟨reg, out, hreg, lastName_keyName (n := lit "a") (x := lit "s") (by decide) ha,
    watching_lookup _, hout, hne, hsig, ?_⟩
  rw [hsig]
  decide

end SchemaUpdate.KVolve
