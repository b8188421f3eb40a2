import SchemaUpdate.Lur.Join
import SchemaUpdate.Lur.Overlap

/-! # Writes around an update

A namespace goes from one version to the next. Clients at the new version read, set and
delete a key while clients that still are at the old version set it. A write at the old
version is found by the others only as long as there is nothing at the new one. -/

namespace SchemaUpdate.Lur

open SchemaUpdate.Lib

/-! ## What a command leaves alone -/

variable {p : Bytes}

theorem Write.apply_find {w : Write} (hp : p ∉ w.dataKeys) (r : Redis) :
    (w.apply r).2.find p = r.find p := by
  have hput : ∀ (r : Redis) (k : Bytes) (x : Option Item), p ≠ k → (r.put k x).find p = r.find p :=
    fun r k x hne => by rw [Redis.find_put, if_neg hne]
  cases w with
  | set k v => exact hput r k _ (by simpa [Write.dataKeys] using hp)
  | psetex k ms v =>
    simp only [Write.apply]
    split
    · rfl
    · exact hput r k _ (by simpa [Write.dataKeys] using hp)
  | del k =>
    simp only [Write.apply]
    rw [Redis.find_del, if_neg (by simpa [Write.dataKeys] using hp)]
  | rename src dst =>
    simp only [Write.dataKeys, List.mem_cons, List.not_mem_nil, or_false, not_or] at hp
    simp only [Write.apply]
    cases r.find src with
    | none => rfl
    | some x =>
      simp only
      split
      · rfl
      · rw [hput _ _ _ hp.2, hput _ _ _ hp.1]
  | delVersions ns =>
    simp only [Write.apply]
    split <;> rfl
  | _ => rfl

theorem applyAll_find {l : List Write} (hp : p ∉ l.flatMap Write.dataKeys) (r : Redis) :
    (applyAll l r).2.find p = r.find p := by
  induction l generalizing r with
  | nil => rfl
  | cons w l ih =>
    rw [List.flatMap_cons, List.mem_append, not_or] at hp
    exact (ih hp.2 _).trans (Write.apply_find hp.1 r)

theorem serve_find {cmd : Cmd} (hcmd : ∀ ms, cmd ≠ .tick ms) (hp : p ∉ cmd.dataKeys) (r : Redis) :
    (serve cmd r).2.find p = r.find p := by
  have hput : ∀ (k : Bytes) (x : Option Item), p ≠ k → (r.put k x).find p = r.find p :=
    fun k x hne => by rw [Redis.find_put, if_neg hne]
  cases cmd with
  | setnx k v =>
    simp only [serve]
    split
    · rfl
    · exact hput k _ (by simpa [Cmd.dataKeys] using hp)
  | set k v o =>
    simp only [serve, serveSet]
    split
    · rfl
    · split
      · rfl
      · exact hput k _ (by simpa [Cmd.dataKeys] using hp)
  | getset k v => exact hput k _ (by simpa [Cmd.dataKeys] using hp)
  | del ks => exact (Redis.find_delAll r p ks).trans (if_neg hp)
  | exec w l =>
    simp only [serve]
    split
    · exact applyAll_find hp r
    · rfl
  | tick ms => exact absurd rfl (hcmd ms)
  | _ => rfl

theorem Since.setVersions (r : Redis) (ns : Ns) (l : List (Ver × Ns)) :
    Since r (r.setVersions ns l) :=
  ⟨(Stamped.setVersions r ns l).touched, fun _ _ => rfl, rfl⟩

theorem Since.hset (r : Redis) (f : UpdName) (text : Bytes) :
    Since r (Redis.touch { r with dsl := r.dsl.put f (some text) } .dsl) :=
  ⟨(Stamped.hset r f text).touched, fun _ _ => rfl, rfl⟩

/-! ## The key -/

/-- A key of a namespace that goes from the version `old` to the version `new`. -/
structure Handover where
  name : Bytes
  old : Ver
  new : Ver
  older : List (Ver × Ns)
  ne : old ≠ new
  -- not spelled with the default namespace
  plain : name ≠ star ++ colon :: (splitNamespaceKey name).2
  apart : ∀ d ∈ older, nameAt name d ≠ versioned new name ∧ nameAt name d ≠ versioned old name

namespace Handover

variable (g : Handover)

def before : List (Ver × Ns) := (g.old, (splitNamespaceKey g.name).1) :: g.older

def after : List (Ver × Ns) := (g.new, (splitNamespaceKey g.name).1) :: g.before

def oldName : Bytes := versioned g.old g.name

def newName : Bytes := versioned g.new g.name

def olderNames : List Bytes := potentialKeys g.name g.older

theorem oldName_ne_newName : g.oldName ≠ g.newName := by
  intro h
  exact g.ne (List.append_cancel_right h)

theorem potentialKeys_before : potentialKeys g.name g.before = g.oldName :: g.olderNames := by
  rw [before, potentialKeys, List.map_cons, nameAt_current g.plain]
  rfl

theorem potentialKeys_after :
    potentialKeys g.name g.after = g.newName :: g.oldName :: g.olderNames := by
  rw [after, potentialKeys, List.map_cons, nameAt_current g.plain]
  exact congrArg _ g.potentialKeys_before

theorem newName_not_older : g.newName ∉ g.olderNames := by
  intro h
  obtain ⟨d, hd, hname⟩ := List.mem_map.mp h
  exact (g.apart d hd).1 hname

theorem oldName_not_older : g.oldName ∉ g.olderNames := by
  intro h
  obtain ⟨d, hd, hname⟩ := List.mem_map.mp h
  exact (g.apart d hd).2 hname

/-- There is no copy from before the old version. -/
def Clear (r : Redis) : Prop := ∀ p ∈ g.olderNames, r.find p = none

/-! ## The last write -/

/-- The last write to the key that was carried out; a `delete` leaves nothing. -/
inductive Note
  | nothing
  | atOld (value : Bytes)
  | atNew (value : Bytes)
  deriving DecidableEq

def wrote (n value : Bytes) (l : Note) : Note :=
  if n = g.newName then .atNew value else if n = g.oldName then .atOld value else l

def noted : Cmd → Redis → Note → Note
  | .getset n value, _, l => g.wrote n value l
  | .set n value o, r, l =>
    match (serveSet n value o r).1 with
    | .ok true => g.wrote n value l
    | _ => l
  | .del ks, _, l => if g.newName ∈ ks then .nothing else l
  | _, _, l => l

/-- Redis together with a note of the last write. -/
def serveNoted (cmd : Cmd) (s : Redis × Note) : cmd.Reply × (Redis × Note) :=
  ((serve cmd s.1).1, (serve cmd s.1).2, g.noted cmd s.1 s.2)

/-- What is found of the key comes from the last write: it was written at the new version, or at
the old one and migrated since. Without a write there is at most a placeholder. -/
def Content (mig : Bytes → Bytes → Prop) : Redis × Note → Prop
  | (r, .nothing) => r.find g.oldName = none ∧ ∀ y, r.find g.newName = some y → y.val = placeholder
  | (r, .atNew value) => r.val? g.newName = some value
  | (r, .atOld value) => (r.find g.newName = none ∧ r.val? g.oldName = some value) ∨
    (r.find g.oldName = none ∧ ∃ val, mig value val ∧ r.val? g.newName = some val)

/-- What every command leads to. -/
structure Onward (mig : Bytes → Bytes → Prop) (s s' : Redis × Note) : Prop where
  since : Since s.1 s'.1
  clear : g.Clear s.1 → g.Clear s'.1
  content : g.Content mig s → g.Content mig s'

instance (mig : Bytes → Bytes → Prop) : Std.Refl (g.Onward mig) :=
  ⟨fun s => ⟨Since.refl s.1, id, id⟩⟩

instance (mig : Bytes → Bytes → Prop) : IsTrans (Redis × Note) (g.Onward mig) :=
  ⟨fun _ _ _ h h' => ⟨h.since.trans h'.since, h'.clear ∘ h.clear, h'.content ∘ h.content⟩⟩

def Both (r : Redis) : Prop := r.find g.newName ≠ none ∧ r.find g.oldName ≠ none

/-- A command that does not make a second copy. -/
structure Quiet (mig : Bytes → Bytes → Prop) (s s' : Redis × Note) : Prop
    extends g.Onward mig s s' where
  both : g.Both s'.1 → g.Both s.1

instance (mig : Bytes → Bytes → Prop) : Std.Refl (g.Quiet mig) :=
  ⟨fun s => ⟨Std.Refl.refl s, id⟩⟩

variable {g} {mig : Bytes → Bytes → Prop} {r : Redis} {l : Note}

/-! ## What the writes do -/

variable {n : Bytes} {y : Item} {ks : List Bytes} {cmd : Cmd}

theorem clear_put (x : Option Item) (hn : n ∉ g.olderNames) (h : g.Clear r) :
    g.Clear (r.put n x) := by
  intro p hp
  have hne : p ≠ n := fun hpn => hn (hpn ▸ hp)
  rw [Redis.find_put, if_neg hne]
  exact h p hp

theorem clear_delAll (ks : List Bytes) (h : g.Clear r) : g.Clear (ks.foldl Redis.del r) := by
  intro p hp
  rw [Redis.find_delAll]
  split
  · rfl
  · exact h p hp

variable (hy : y.expire.all (r.now < ·) = true)

include hy

theorem val?_put (n : Bytes) : (r.put n (some y)).val? n = some y.val := by
  rw [Redis.val?, Redis.find_put_live hy, if_pos rfl]
  rfl

theorem Onward.putNew : g.Onward mig (r, l) (r.put g.newName (some y), .atNew y.val) where
  since := Since.put ..
  clear := clear_put _ g.newName_not_older
  content _ := val?_put hy _

theorem Onward.putOld (hnew : r.find g.newName = none) :
    g.Onward mig (r, l) (r.put g.oldName (some y), .atOld y.val) where
  since := Since.put ..
  clear := clear_put _ g.oldName_not_older
  content _ := by
    refine .inl ⟨?_, val?_put hy _⟩
    rw [Redis.find_put, if_neg g.oldName_ne_newName.symm]
    exact hnew

omit hy

theorem content_absent (hold : r.find g.oldName = none) (hnew : r.find g.newName = none)
    (h : g.Content mig (r, l)) : l = .nothing := by
  cases l with
  | nothing => rfl
  | atNew value =>
    have h : r.val? g.newName = some value := h
    rw [Redis.val?, hnew] at h
    cases h
  | atOld value =>
    obtain ⟨-, h⟩ | ⟨-, val, -, h⟩ := h
    · rw [Redis.val?, hold] at h
      cases h
    · rw [Redis.val?, hnew] at h
      cases h

theorem Onward.plant (hold : r.find g.oldName = none) (hnew : r.find g.newName = none) :
    g.Onward mig (r, l) (r.put g.newName (some ⟨placeholder, none⟩), l) where
  since := Since.put ..
  clear := clear_put _ g.newName_not_older
  content h := by
    rw [content_absent hold hnew h]
    refine ⟨?_, fun y hy => ?_⟩
    · rw [Redis.find_put_lasting, if_neg g.oldName_ne_newName]
      exact hold
    · rw [Redis.find_put_lasting, if_pos rfl] at hy
      cases hy
      rfl

theorem Onward.delOthers (hks : g.newName ∉ ks)
    (h : g.oldName ∈ ks → r.find g.newName ≠ none ∨ r.find g.oldName = none) :
    g.Onward mig (r, l) (ks.foldl Redis.del r, l) where
  since := Since.delAll r ks
  clear := clear_delAll ks
  content hcontent := by
    have hnew : (ks.foldl Redis.del r).find g.newName = r.find g.newName := by
      rw [Redis.find_delAll, if_neg hks]
    have hold : r.find g.oldName = none → (ks.foldl Redis.del r).find g.oldName = none := by
      intro hnone
      rw [Redis.find_delAll, hnone]
      split <;> rfl
    cases l with
    | nothing =>
      refine ⟨hold hcontent.1, ?_⟩
      rw [hnew]
      exact hcontent.2
    | atNew value =>
      show (ks.foldl Redis.del r).val? g.newName = some value
      rw [Redis.val?, hnew]
      exact hcontent
    | atOld value =>
      obtain ⟨hnone, hthere⟩ | ⟨hnone, val, hmig, hthere⟩ := hcontent
      · have hkeep : g.oldName ∉ ks := by
          intro hmem
          obtain hsome | hgone := h hmem
          · exact hsome hnone
          · rw [Redis.val?, hgone] at hthere
            cases hthere
        refine .inl ⟨hnew.trans hnone, ?_⟩
        rw [Redis.val?, Redis.find_delAll, if_neg hkeep]
        exact hthere
      · refine .inr ⟨hold hnone, val, hmig, ?_⟩
        rw [Redis.val?, hnew]
        exact hthere

theorem Onward.delBoth (hnew : g.newName ∈ ks) (hold : g.oldName ∈ ks) :
    g.Onward mig (r, l) (ks.foldl Redis.del r, .nothing) where
  since := Since.delAll r ks
  clear := clear_delAll ks
  content _ := by
    refine ⟨?_, fun y hy => ?_⟩
    · rw [Redis.find_delAll, if_pos hold]
    · rw [Redis.find_delAll, if_pos hnew] at hy
      cases hy

/-- The move of the old copy hands the content on. -/
theorem Quiet.move {x : Item} {val : Bytes} (hnew : r.find g.newName = none)
    (hold : r.find g.oldName = some x) (hmig : mig x.val val) :
    g.Quiet mig (r, l) ((moveAlone g.oldName g.newName x.val val r).2, l) := by
  have hlive := Redis.live_of_find hold
  have hlive' : x.expire.all ((r.del g.oldName).now < ·) = true := by
    rw [Redis.del_now]
    exact hlive
  have hstore : (moveAlone g.oldName g.newName x.val val r).2 =
      if x.val ≠ val then (r.put g.newName (some ⟨val, x.expire⟩)).del g.oldName
      else (r.del g.oldName).put g.newName (some x) :=
    moveAlone_store hold g.oldName_ne_newName
  have hthere : (moveAlone g.oldName g.newName x.val val r).2.val? g.newName = some val := by
    rw [hstore, Redis.val?]
    split
    · rw [Redis.find_del, if_neg g.oldName_ne_newName.symm,
        Redis.find_put_live (x := ⟨val, x.expire⟩) hlive, if_pos rfl]
      rfl
    · rename_i hsame
      rw [Redis.find_put_live hlive', if_pos rfl]
      exact congrArg some (not_not.mp hsame)
  have hgone : (moveAlone g.oldName g.newName x.val val r).2.find g.oldName = none := by
    rw [hstore]
    split
    · rw [Redis.find_del, if_pos rfl]
    · rw [Redis.find_put_live hlive', if_neg g.oldName_ne_newName, Redis.find_del, if_pos rfl]
  have hdel : ∀ r : Redis, Since r (r.del g.oldName) := fun r =>
    Redis.del_rel Since.refl Since.put r _
  refine ⟨⟨?_, fun hclear => ?_, fun hcontent => ?_⟩, fun hboth => absurd hgone hboth.2⟩
  · show Since r (moveAlone g.oldName g.newName x.val val r).2
    rw [hstore]
    split
    · exact (Since.put ..).trans (hdel _)
    · exact (hdel _).trans (Since.put ..)
  · show g.Clear (moveAlone g.oldName g.newName x.val val r).2
    rw [hstore]
    split
    · exact clear_delAll [g.oldName] (clear_put _ g.newName_not_older hclear)
    · exact clear_put _ g.newName_not_older (clear_delAll [g.oldName] hclear)
  · cases l with
    | nothing =>
      have hnone := hcontent.1
      rw [hold] at hnone
      cases hnone
    | atNew value =>
      have hsome : r.val? g.newName = some value := hcontent
      rw [Redis.val?, hnew] at hsome
      cases hsome
    | atOld value =>
      obtain ⟨-, hvalue⟩ | ⟨hnone, -⟩ := hcontent
      · rw [Redis.val?, hold] at hvalue
        obtain rfl : x.val = value := Option.some.inj hvalue
        exact .inr ⟨hgone, val, hmig, hthere⟩
      · rw [hold] at hnone
        cases hnone

/-! ## The calls -/

variable (g) in
/-- A command comes at the right time: a write at the old version finds nothing at the new one;
the older copies are deleted, and the placeholder is left, only if the copy at the old version
is not there alone. -/
def Timely : Cmd → Redis × Note → Prop
  | .getset n _, s => n = g.oldName → s.1.find g.newName = none
  | .set n value o, s => n = g.oldName → (serveSet n value o s.1).1 = .ok true →
    s.1.find g.newName = none
  | .del ks, s => g.oldName ∈ ks → g.newName ∉ ks →
    s.1.find g.newName ≠ none ∨ s.1.find g.oldName = none
  | .setnx n _, s => n = g.newName → s.1.find g.newName ≠ none ∨ s.1.find g.oldName = none
  | _, _ => True

variable (g mig) in
/-- The program keeps what is found of the key in order, and its commands keep to `guar`. -/
def Safe {α : Type} (guar : Redis × Note → Redis × Note → Prop) (P : Prog Cmd.Reply α)
    (s : Redis × Note) : Prop :=
  P.Sure g.serveNoted (g.Onward mig) g.Timely guar (fun _ _ => True) s

variable {α : Type} {s : Redis × Note} {guar : Redis × Note → Redis × Note → Prop}

theorem Safe.ret (a : α) : g.Safe mig guar (.ret a) s := Prog.Sure.ret fun _ _ => trivial

theorem Safe.read [Std.Refl guar] {k : cmd.Reply → Prog Cmd.Reply α}
    (hcmd : ∀ s, (g.serveNoted cmd s).2 = s)
    (h : ∀ s', g.Onward mig s s' → g.Safe mig guar (k (serve cmd s'.1).1) s') :
    g.Safe mig guar (.call cmd k) s := by
  refine Prog.Sure.call fun s' hs _ => ?_
  rw [hcmd]
  exact ⟨Std.Refl.refl _, h s' hs⟩

theorem Safe.weaken {P : Prog Cmd.Reply α} {guar' : Redis × Note → Redis × Note → Prop}
    (h : g.Safe mig guar P s) (hguar : ∀ s s', guar s s' → guar' s s') : g.Safe mig guar' P s :=
  Prog.Sure.weaken h hguar

theorem Safe.bind {β : Type} {P : Prog Cmd.Reply α} (h : g.Safe mig guar P s) (f : α → β) :
    g.Safe mig guar (P.bind fun a => .ret (f a)) s :=
  Prog.Sure.bind h fun _ _ _ => Safe.ret _

theorem serveSet_ok {value : Bytes} {o : SetOpts} {r : Redis}
    (h : (serveSet n value o r).1 = .ok true) :
    ∃ y : Item, y.val = value ∧ y.expire.all (r.now < ·) = true ∧
      (serveSet n value o r).2 = r.put n (some y) := by
  unfold serveSet at h ⊢
  cases hexpire : o.expire r.now with
  | error e =>
    rw [hexpire] at h
    cases h
  | ok expire =>
    rw [hexpire] at h
    simp only at h ⊢
    split at h
    · cases h
    · rename_i hcond
      rw [if_neg hcond]
      refine ⟨⟨value, expire⟩, rfl, ?_, rfl⟩
      unfold SetOpts.expire at hexpire
      split at hexpire
      · split at hexpire
        · cases hexpire
        · cases hexpire
          simp only [Option.all_some, decide_eq_true_eq]
          omega
      · split at hexpire
        · cases hexpire
        · cases hexpire
          simp only [Option.all_some, decide_eq_true_eq]
          omega
      · cases hexpire
        rfl

theorem serveSet_failed {value : Bytes} {o : SetOpts} {r : Redis}
    (h : (serveSet n value o r).1 ≠ .ok true) : (serveSet n value o r).2 = r := by
  unfold serveSet at h ⊢
  split
  · rfl
  · rename_i hexpire
    rw [hexpire] at h
    simp only at h
    split
    · rfl
    · rename_i hcond
      rw [if_neg hcond] at h
      exact absurd rfl h

variable (value : Bytes)

theorem wrote_new (l : Note) : g.wrote g.newName value l = .atNew value := if_pos rfl

theorem wrote_old (l : Note) : g.wrote g.oldName value l = .atOld value := by
  rw [wrote, if_neg g.oldName_ne_newName, if_pos rfl]

theorem getset_onward (s : Redis × Note) :
    g.Onward mig s (g.serveNoted (.getset g.newName value) s).2 := by
  obtain ⟨r, l⟩ := s
  show g.Onward mig (r, l) (r.put g.newName (some ⟨value, none⟩), g.wrote g.newName value l)
  rw [wrote_new]
  exact Onward.putNew rfl

theorem Quiet.putOld (hy : y.expire.all (r.now < ·) = true) (hnew : r.find g.newName = none) :
    g.Quiet mig (r, l) (r.put g.oldName (some y), .atOld y.val) := by
  refine ⟨Onward.putOld hy hnew, fun hboth => absurd ?_ hboth.1⟩
  rw [Redis.find_put, if_neg g.oldName_ne_newName.symm]
  exact hnew

theorem getset_quiet (h : g.Timely (.getset g.oldName value) s) :
    g.Quiet mig s (g.serveNoted (.getset g.oldName value) s).2 := by
  obtain ⟨r, l⟩ := s
  show g.Quiet mig (r, l) (r.put g.oldName (some ⟨value, none⟩), g.wrote g.oldName value l)
  rw [wrote_old]
  exact Quiet.putOld rfl (h rfl)

theorem set_cases (n value : Bytes) (o : SetOpts) (r : Redis) (l : Note) :
    (∃ y : Item, y.expire.all (r.now < ·) = true ∧ (serveSet n value o r).1 = .ok true ∧
      (g.serveNoted (.set n value o) (r, l)).2 = (r.put n (some y), g.wrote n y.val l)) ∨
    (g.serveNoted (.set n value o) (r, l)).2 = (r, l) := by
  have hserve : (g.serveNoted (.set n value o) (r, l)).2 = ((serveSet n value o r).2,
      match (serveSet n value o r).1 with
      | .ok true => g.wrote n value l
      | _ => l) := rfl
  rw [hserve]
  by_cases hok : (serveSet n value o r).1 = .ok true
  · obtain ⟨y, rfl, hy, hstore⟩ := serveSet_ok hok
    refine .inl ⟨y, hy, hok, ?_⟩
    rw [hok, hstore]
  · refine .inr ?_
    rw [serveSet_failed hok]
    split
    · rename_i hok'
      exact absurd hok' hok
    · rfl

theorem set_onward (o : SetOpts) (s : Redis × Note) :
    g.Onward mig s (g.serveNoted (.set g.newName value o) s).2 := by
  obtain ⟨y, hy, -, hserve⟩ | hserve := set_cases (g := g) g.newName value o s.1 s.2
  · rw [hserve, wrote_new]
    exact Onward.putNew hy
  · rw [hserve]
    exact Std.Refl.refl _

theorem set_quiet (o : SetOpts) (h : g.Timely (.set g.oldName value o) s) :
    g.Quiet mig s (g.serveNoted (.set g.oldName value o) s).2 := by
  obtain ⟨y, hy, hok, hserve⟩ | hserve := set_cases (g := g) g.oldName value o s.1 s.2
  · rw [hserve, wrote_old]
    exact Quiet.putOld hy (h rfl hok)
  · rw [hserve]
    exact Std.Refl.refl _

theorem del_quiet (hks : g.newName ∈ ks → g.oldName ∈ ks) (h : g.Timely (.del ks) s) :
    g.Quiet mig s (g.serveNoted (.del ks) s).2 := by
  obtain ⟨r, l⟩ := s
  show g.Quiet mig (r, l) (ks.foldl Redis.del r, if g.newName ∈ ks then .nothing else l)
  have hboth : g.Both (ks.foldl Redis.del r) → g.Both r := by
    rintro ⟨hnew, hold⟩
    rw [Redis.find_delAll] at hnew hold
    refine ⟨fun hnone => hnew ?_, fun hnone => hold ?_⟩
    · rw [hnone]
      split <;> rfl
    · rw [hnone]
      split <;> rfl
  by_cases hmem : g.newName ∈ ks
  · rw [if_pos hmem]
    exact ⟨Onward.delBoth hmem (hks hmem), hboth⟩
  · rw [if_neg hmem]
    exact ⟨Onward.delOthers hmem fun hold => h hold hmem, hboth⟩

theorem setnx_quiet (h : g.Timely (.setnx g.newName placeholder) s) :
    g.Quiet mig s (g.serveNoted (.setnx g.newName placeholder) s).2 := by
  obtain ⟨r, l⟩ := s
  show g.Quiet mig (r, l) ((serve (.setnx g.newName placeholder) r).2, l)
  simp only [serve]
  split
  · exact Std.Refl.refl _
  · rename_i hnone
    have hnone : r.find g.newName = none := by simpa using hnone
    have hold : r.find g.oldName = none := (h rfl).resolve_left fun hsome => hsome hnone
    refine ⟨Onward.plant hold hnone, fun hboth => absurd ?_ hboth.2⟩
    rw [Redis.find_put_lasting, if_neg g.oldName_ne_newName]
    exact hold

section Calls

variable {J : Type} {py : Py J} {c : Client J}

theorem delOlder_safe {vl : List (Ver × Ns)}
    (hdel : ∀ s, g.Timely (.del (keysToDel g.name vl)) s →
      guar s (g.serveNoted (.del (keysToDel g.name vl)) s).2) (a : α) :
    g.Safe mig guar (delOlder g.name vl a) s := by
  unfold delOlder
  split
  · exact Safe.ret a
  · exact Prog.Sure.call fun s' _ hcond => ⟨hdel s' hcond, Safe.ret a⟩

theorem set_safe {cur : Ver × Ns} {vl : List (Ver × Ns)} (hc : Knows c g.name (cur :: vl))
    (hset : ∀ value o s, g.Timely (.set (versioned cur.1 g.name) value o) s →
      guar s (g.serveNoted (.set (versioned cur.1 g.name) value o) s).2)
    (hgetset : ∀ value s, g.Timely (.getset (versioned cur.1 g.name) value) s →
      guar s (g.serveNoted (.getset (versioned cur.1 g.name) value) s).2)
    (hdel : ∀ s, g.Timely (.del (potentialKeys g.name vl)) s →
      guar s (g.serveNoted (.del (potentialKeys g.name vl)) s).2)
    (value : Bytes) (o : SetOpts) : g.Safe mig guar (set c g.name value o) s := by
  have hdel : ∀ s, g.Timely (.del (keysToDel g.name (cur :: vl))) s →
      guar s (g.serveNoted (.del (keysToDel g.name (cur :: vl))) s).2 := hdel
  rw [Lur.set, hc.versions, hc.currVersion]
  cases ho : o.flagged with
  | true =>
    simp only [if_true]
    refine Prog.Sure.call fun s' _ hcond => ⟨hset value _ s' hcond, ?_⟩
    exact delOlder_safe hdel _
  | false =>
    simp only [Bool.false_eq_true, if_false]
    refine Prog.Sure.call fun s' _ hcond => ⟨hgetset value s' hcond, ?_⟩
    split
    · exact Safe.ret _
    · exact delOlder_safe hdel _

theorem setNew_safe (hc : Knows c g.name g.after) (value : Bytes) (o : SetOpts) :
    g.Safe mig (g.Onward mig) (set c g.name value o) s := by
  refine set_safe hc (fun value o s _ => set_onward value o s)
    (fun value s _ => getset_onward value s) (fun s hcond => ?_) value o
  refine (del_quiet ?_ hcond).toOnward
  rw [potentialKeys_before]
  simp

theorem setOld_safe (hc : Knows c g.name g.before) (value : Bytes) (o : SetOpts) :
    g.Safe mig (g.Quiet mig) (set c g.name value o) s := by
  refine set_safe hc (fun value o s hcond => set_quiet value o hcond)
    (fun value s hcond => getset_quiet value hcond) (fun s hcond => del_quiet ?_ hcond) value o
  exact fun h => absurd h g.newName_not_older

theorem delete_safe (hc : Knows c g.name g.after) :
    g.Safe mig (g.Quiet mig) (delete c [g.name]) s := by
  have hnames : deleteNames c [g.name] = .ok (potentialKeys g.name g.after) := by
    simp only [deleteNames, hc.versions]
    exact congrArg Except.ok (List.append_nil _)
  rw [delete, hnames, potentialKeys_after]
  refine Prog.Sure.call fun s' _ hcond => ⟨del_quiet ?_ hcond, Safe.ret _⟩
  simp

theorem found_eq (hclear : g.Clear r) :
    firstFound ((potentialKeys g.name g.after).map r.val?) =
      match r.find g.newName, r.find g.oldName with
      | some y, _ => some (0, y.val)
      | none, some x => some (1, x.val)
      | none, none => none := by
  have hnone : firstFound (g.olderNames.map r.val?) = none := by
    rw [firstFound_none]
    simp only [List.all_eq_true, List.mem_map, forall_exists_index, and_imp]
    rintro v p hp rfl
    simp [Redis.val?, hclear p hp]
  rw [potentialKeys_after, List.map_cons, List.map_cons, Redis.val?, Redis.val?]
  cases r.find g.newName with
  | some y => rfl
  | none =>
    cases r.find g.oldName with
    | some x => rfl
    | none => simp [firstFound, hnone]

/-- The counts in the watch list are not newer than `r`. -/
def CountedBy (w : Watch) (r : Redis) : Prop := ∀ q ∈ w, q.2 ≤ r.touched q.1

theorem unchanged {w : Watch} {r₁ : Redis} (hkeys : w.map Prod.fst = watchedKeys g.name g.after)
    (hw : CountedBy w r₁) (hs : Since r₁ r) (hclean : r.clean w = true) {n : Bytes}
    (hn : n = g.newName ∨ n = g.oldName) : r.find n = r₁.find n := by
  have hmem : RKey.data n ∈ w.map Prod.fst := by
    rw [hkeys]
    obtain rfl | rfl := hn
    · simp [watchedKeys, after, newName]
    · simp [watchedKeys, after, before, oldName]
  obtain ⟨q, hq, hqn⟩ := List.mem_map.mp hmem
  have hcount := of_decide_eq_true (List.all_eq_true.mp hclean q hq)
  have hle := hw q hq
  have hle' := hs.touched q.1
  rw [hqn] at hcount hle hle'
  exact hs.find n (by omega)

section Get

variable {w : Watch} {r₁ : Redis} {x : Item} {val : Bytes} {again : GetProg}
  (hkeys : w.map Prod.fst = watchedKeys g.name g.after) (hw : CountedBy w r₁)
  (hnew : r₁.find g.newName = none) (hold : r₁.find g.oldName = some x) (hmig : mig x.val val)
  (hagain : ∀ s, g.Clear s.1 → g.Safe mig (g.Quiet mig) again s)

include hkeys hw hnew hold hmig hagain

theorem getExec_safe {l : List Write} (hs : Since r₁ s.1) (hclear : g.Clear s.1)
    (hl : s.1.find g.oldName = some x →
      l = moveWrites g.oldName g.newName x.val val (s.1.pttl g.oldName)) :
    g.Safe mig (g.Quiet mig) (.call (.exec w l) (getDone again val)) s := by
  refine Prog.Sure.call fun s' hs' _ => ?_
  obtain ⟨r, note⟩ := s'
  have hsince := hs.trans hs'.since
  cases hclean : r.clean w with
  | false =>
    have hserve : g.serveNoted (.exec w l) (r, note) = (none, (r, note)) := by
      simp [serveNoted, serve, hclean, noted]
    rw [hserve]
    exact ⟨Std.Refl.refl _, hagain _ (hs'.clear hclear)⟩
  | true =>
    have hserve : g.serveNoted (.exec w l) (r, note) =
        (some (applyAll l r).1, ((applyAll l r).2, note)) := by
      simp [serveNoted, serve, hclean, noted]
    have hnew' : r.find g.newName = none :=
      (unchanged hkeys hw hsince hclean (.inl rfl)).trans hnew
    have hold' : r.find g.oldName = some x :=
      (unchanged hkeys hw hsince hclean (.inr rfl)).trans hold
    -- the copy was also there when its time to live was asked for
    have hmid : s.1.find g.oldName = some x := by
      have hle := hs.touched (.data g.oldName)
      have hle' := hs'.since.touched (.data g.oldName)
      have hcount : r.touched (.data g.oldName) ≤ r₁.touched (.data g.oldName) := by
        have hmem : RKey.data g.oldName ∈ w.map Prod.fst := by
          rw [hkeys]
          simp [watchedKeys, after, before, oldName]
        obtain ⟨q, hq, hqn⟩ := List.mem_map.mp hmem
        have heq := of_decide_eq_true (List.all_eq_true.mp hclean q hq)
        have hcounted := hw q hq
        rw [hqn] at heq hcounted
        omega
      have hle'' : s.1.touched (.data g.oldName) ≤ r.touched (.data g.oldName) := hle'
      exact (hs.find g.oldName (by omega)).trans hold
    have hpttl : s.1.pttl g.oldName = r.pttl g.oldName := by
      rw [Redis.pttl, Redis.pttl, hmid, hold', ← hs'.since.now]
    rw [hserve, hl hmid, hpttl, ← moveAlone_eq_applyAll]
    refine ⟨Quiet.move hnew' hold' hmig, ?_⟩
    rw [moveAlone_ok hold' g.oldName_ne_newName]
    exact Safe.ret _

theorem getWrite_safe (hs : Since r₁ s.1) (hclear : g.Clear s.1) :
    g.Safe mig (g.Quiet mig) (getWrite again w g.oldName g.newName x.val val) s := by
  unfold getWrite
  split
  · rename_i hval
    refine Safe.read (fun _ => rfl) fun s' hs' => ?_
    refine getExec_safe hkeys hw hnew hold hmig hagain (hs.trans hs'.since) (hs'.clear hclear) ?_
    intro _
    rw [moveWrites, if_pos hval]
    rfl
  · rename_i hval
    refine getExec_safe hkeys hw hnew hold hmig hagain hs hclear fun _ => ?_
    rw [moveWrites, if_neg hval]

end Get

theorem getLook_safe {w : Watch} {again : GetProg}
    (hmig : ∀ v val, migrate py c g.name g.after 1 (g.old, (splitNamespaceKey g.name).1) v =
      .ok val → mig v val)
    (hagain : ∀ s, g.Clear s.1 → g.Safe mig (g.Quiet mig) again s)
    (hkeys : w.map Prod.fst = watchedKeys g.name g.after) (hw : CountedBy w s.1)
    (hclear : g.Clear s.1) : g.Safe mig (g.Quiet mig) (getLook py c g.name g.after again w) s := by
  refine Safe.read (fun _ => rfl) fun s' hs' => ?_
  have hclear' := hs'.clear hclear
  have hfound := found_eq hclear'
  have hw' : CountedBy w s'.1 := fun q hq => (hw q hq).trans (hs'.since.touched q.1)
  have hnext : (serve (.mget (potentialKeys g.name g.after)) s'.1).1 =
      (potentialKeys g.name g.after).map s'.1.val? := rfl
  rw [hnext]
  cases hnew : s'.1.find g.newName with
  | some y =>
    rw [hnew] at hfound
    simp only at hfound
    rw [hfound]
    exact Safe.ret _
  | none =>
    cases hold : s'.1.find g.oldName with
    | none =>
      rw [hnew, hold] at hfound
      simp only at hfound
      rw [hfound]
      exact Safe.ret _
    | some x =>
      rw [hnew, hold] at hfound
      simp only at hfound
      rw [hfound]
      have hcur : g.after[0]? = some (g.new, (splitNamespaceKey g.name).1) := rfl
      have hentry : g.after[0 + 1]? = some (g.old, (splitNamespaceKey g.name).1) := rfl
      simp only [hcur, hentry]
      cases hval : migrate py c g.name g.after (0 + 1) (g.old, (splitNamespaceKey g.name).1) x.val with
      | error err => exact Safe.ret _
      | ok val =>
        simp only [nameAt_current g.plain]
        exact getWrite_safe hkeys hw' hnew hold (hmig _ _ hval) hagain (Since.refl _) hclear'

/-- **A `get` at the new version**, whatever else is written meanwhile. -/
theorem get_safe (hc : Knows c g.name g.after)
    (hmig : ∀ v val, migrate py c g.name g.after 1 (g.old, (splitNamespaceKey g.name).1) v =
      .ok val → mig v val) (depth : Nat) (hclear : g.Clear s.1) :
    g.Safe mig (g.Quiet mig) (get py c g.name depth) s := by
  induction depth generalizing s with
  | zero => exact Safe.ret _
  | succ depth ih =>
    have hagain : ∀ s : Redis × Note, g.Clear s.1 → g.Safe mig (g.Quiet mig) (get py c g.name depth) s :=
      fun s hs => ih hs
    have hwatch : ∀ (left : List RKey) (w : Watch) (s : Redis × Note),
        w.map Prod.fst ++ left = watchedKeys g.name g.after → CountedBy w s.1 → g.Clear s.1 →
        g.Safe mig (g.Quiet mig) (getWatch py c g.name g.after (get py c g.name depth) left w) s := by
      intro left
      induction left with
      | nil =>
        intro w s hkeys hw hclear
        rw [List.append_nil] at hkeys
        exact getLook_safe hmig hagain hkeys hw hclear
      | cons k left ihl =>
        intro w s hkeys hw hclear
        refine Safe.read (fun _ => rfl) fun s' hs' => ihl _ _ ?_ ?_ (hs'.clear hclear)
        · rw [← hkeys]
          simp
        · intro q hq
          obtain hq | hq := List.mem_append.mp hq
          · exact (hw q hq).trans (hs'.since.touched q.1)
          · rw [List.mem_singleton.mp hq]
            exact Nat.le_refl _
    have hall : ∀ s : Redis × Note, g.Clear s.1 →
        g.Safe mig (g.Quiet mig) (getAll py c g.name g.after (get py c g.name depth)) s := by
      intro s hclear
      refine Safe.read (fun _ => rfl) fun s' hs' => ?_
      split
      · rw [potentialKeys_after]
        exact Prog.Sure.call fun s'' _ hcond => ⟨setnx_quiet hcond, Safe.ret _⟩
      · exact hwatch _ _ _ rfl (fun q hq => absurd hq List.not_mem_nil) (hs'.clear hclear)
    have hc : Knows c g.name ((g.new, (splitNamespaceKey g.name).1) :: g.before) := hc
    rw [Lur.get, getOnce, hc.versions, hc.currVersion]
    refine Safe.read (fun _ => rfl) fun s' hs' => ?_
    split
    · exact hall _ (hs'.clear hclear)
    · split
      · exact Safe.ret _
      · split
        · exact Safe.ret _
        · exact hall _ (hs'.clear hclear)

end Calls

/-! ## Loads -/

variable (g) in
/-- The command of a load works on other keys, and takes no time. -/
def Elsewhere (cmd : Cmd) : Prop :=
  (∀ ms, cmd ≠ .tick ms) ∧ ∀ p ∈ cmd.dataKeys, p ∉ potentialKeys g.name g.after

theorem noted_elsewhere (h : g.Elsewhere cmd) (r : Redis) (l : Note) : g.noted cmd r l = l := by
  have hnames := h.2
  rw [potentialKeys_after] at hnames
  have hwrote : ∀ n value, n ∈ cmd.dataKeys → g.wrote n value l = l := by
    intro n value hn
    have hn := hnames n hn
    simp only [List.mem_cons, not_or] at hn
    rw [wrote, if_neg hn.1, if_neg hn.2.1]
  cases cmd with
  | getset n value => exact hwrote n value (by simp [Cmd.dataKeys])
  | set n value o =>
    show (match (serveSet n value o r).1 with
      | .ok true => g.wrote n value l
      | _ => l) = l
    split
    · exact hwrote n value (by simp [Cmd.dataKeys])
    · rfl
  | del ks => exact if_neg fun hmem => hnames g.newName hmem (by simp)
  | _ => rfl

theorem elsewhere_quiet (h : g.Elsewhere cmd) (s : Redis × Note) :
    g.Quiet mig s (g.serveNoted cmd s).2 := by
  obtain ⟨r, l⟩ := s
  show g.Quiet mig (r, l) ((serve cmd r).2, g.noted cmd r l)
  rw [noted_elsewhere h]
  have hfind : ∀ p ∈ potentialKeys g.name g.after, (serve cmd r).2.find p = r.find p :=
    fun p hp => serve_find h.1 (fun hk => h.2 p hk hp) r
  rw [potentialKeys_after] at hfind
  have hnew := hfind g.newName (by simp)
  have hold := hfind g.oldName (by simp)
  refine ⟨⟨?_, fun hclear p hp => ?_, fun hcontent => ?_⟩, fun hboth => ?_⟩
  · exact serve_rel Since.refl Since.trans Since.put Since.setVersions Since.hset h.1 r
  · exact (hfind p (by simp [hp])).trans (hclear p hp)
  · cases l with
    | nothing =>
      have hcontent : r.find g.oldName = none ∧ _ := hcontent
      rw [← hold, ← hnew] at hcontent
      exact hcontent
    | atNew value =>
      have hcontent : (r.find g.newName).map _ = some value := hcontent
      rw [← hnew] at hcontent
      exact hcontent
    | atOld value =>
      have hcontent : (r.find g.newName = none ∧ (r.find g.oldName).map _ = some value) ∨
        (r.find g.oldName = none ∧ ∃ val, mig value val ∧ (r.find g.newName).map _ = some val) :=
        hcontent
      rw [← hnew, ← hold] at hcontent
      exact hcontent
  · have hboth : (serve cmd r).2.find g.newName ≠ none ∧ (serve cmd r).2.find g.oldName ≠ none :=
      hboth
    rw [hnew, hold] at hboth
    exact hboth

end Handover

end SchemaUpdate.Lur
