import Mathlib.Data.List.Chain
import SchemaUpdate.Lur.Join
import SchemaUpdate.Lur.Trace

/-! # Loads among loads

Any number of clients load updates at the same time. What a load that reports success has
stored in `UPDATE_DSL_STRINGS` stays there, so the version list stays linked as long as each
step of it is the step of such a load. -/

namespace SchemaUpdate.Lur

open SchemaUpdate.Lib

/-! ## Texts once stored -/

/-- `r'` comes after `r`, and the texts in `r` are still there. -/
structure Kept (r r' : Redis) : Prop extends Stamped r r' where
  entries : ∀ f x, r.dsl.lookup f = some x → r'.dsl.lookup f = some x

instance : Std.Refl Kept := ⟨fun r => ⟨Stamped.refl r, fun _ _ h => h⟩⟩

instance : IsTrans Redis Kept :=
  ⟨fun _ _ _ h h' => ⟨h.toStamped.trans h'.toStamped, fun f x hx => h'.entries f x (h.entries f x hx)⟩⟩

theorem Kept.of_dsl {r r' : Redis} (h : Stamped r r') (hdsl : r'.dsl = r.dsl) : Kept r r' := by
  refine ⟨h, fun f x hx => ?_⟩
  rw [hdsl]
  exact hx

/-- The namespace whose version list the command changes. -/
def Write.lists : Write → Option Ns
  | .lpush ns _ | .rpush ns _ | .delVersions ns => some ns
  | _ => none

/-- What a queued command leaves of the texts and of the version lists. -/
theorem Write.apply_books (w : Write) (r : Redis) :
    ((∀ f text, w ≠ .hset f text) → (w.apply r).2.dsl = r.dsl) ∧
      ∀ ns, w.lists ≠ some ns → (w.apply r).2.versions ns = r.versions ns := by
  have hlist : ∀ m vs, (r.setVersions m vs).dsl = r.dsl ∧
      ∀ ns, some m ≠ some ns → (r.setVersions m vs).versions ns = r.versions ns := by
    refine fun m vs => ⟨rfl, fun ns hns => ?_⟩
    rw [Redis.setVersions_versions, Function.update_of_ne fun heq => hns (congrArg some heq.symm)]
  cases w with
  | hset f text => exact ⟨fun h => absurd rfl (h f text), fun _ _ => rfl⟩
  | psetex k ms v =>
    simp only [Write.apply]
    split <;> exact ⟨fun _ => rfl, fun _ _ => rfl⟩
  | del k => exact ⟨fun _ => Redis.del_dsl .., fun ns _ => congrFun (Redis.del_versions ..) ns⟩
  | rename src dst =>
    simp only [Write.apply]
    cases r.find src with
    | none => exact ⟨fun _ => rfl, fun _ _ => rfl⟩
    | some x =>
      simp only
      split <;> exact ⟨fun _ => rfl, fun _ _ => rfl⟩
  | lpush m e => exact ⟨fun _ => (hlist m _).1, (hlist m _).2⟩
  | rpush m vs => exact ⟨fun _ => (hlist m _).1, (hlist m _).2⟩
  | delVersions m =>
    simp only [Write.apply]
    split
    · exact ⟨fun _ => rfl, fun _ _ => rfl⟩
    · exact ⟨fun _ => (hlist m _).1, (hlist m _).2⟩
  | _ => exact ⟨fun _ => rfl, fun _ _ => rfl⟩

theorem applyAll_same {β : Type} (f : Redis → β) {l : List Write}
    (h : ∀ w ∈ l, ∀ r, f (w.apply r).2 = f r) (r : Redis) : f (applyAll l r).2 = f r := by
  induction l generalizing r with
  | nil => rfl
  | cons w l ih =>
    rw [List.forall_mem_cons] at h
    exact (ih h.2 _).trans (h.1 r)

theorem exec_kept (w : Watch) {l : List Write} (h : ∀ f text, Write.hset f text ∉ l) (r : Redis) :
    Kept r (serve (.exec w l) r).2 := by
  refine Kept.of_dsl (serve_stamped _ r) ?_
  simp only [serve]
  split
  · refine applyAll_same Redis.dsl (fun x hx r => (x.apply_books r).1 fun f text heq => ?_) r
    exact h f text (heq ▸ hx)
  · rfl

/-- Only a transaction changes the texts and the version lists. -/
theorem serve_books {cmd : Cmd} (h : ∀ w l, cmd ≠ .exec w l) (r : Redis) :
    (serve cmd r).2.dsl = r.dsl ∧ (serve cmd r).2.versions = r.versions := by
  cases cmd with
  | exec w l => exact absurd rfl (h w l)
  | setnx k v =>
    simp only [serve]
    split <;> exact ⟨rfl, rfl⟩
  | set k v o =>
    simp only [serve, serveSet]
    split
    · exact ⟨rfl, rfl⟩
    · split <;> exact ⟨rfl, rfl⟩
  | del ks =>
    exact @Redis.delAll_rel (fun r s => s.dsl = r.dsl ∧ s.versions = r.versions)
      (fun _ => ⟨rfl, rfl⟩) (fun h h' => ⟨h'.1.trans h.1, h'.2.trans h.2⟩)
      (fun _ _ _ => ⟨rfl, rfl⟩) ks r
  | _ => exact ⟨rfl, rfl⟩

theorem serve_kept {cmd : Cmd} (h : ∀ w l, cmd ≠ .exec w l) (r : Redis) :
    Kept r (serve cmd r).2 :=
  Kept.of_dsl (serve_stamped cmd r) (serve_books h r).1

/-! ## Loads -/

section Loads

variable {J : Type}

/-- What a load is sure of among loads. -/
abbrev PyM.AmongLoads {α : Type} (post : α → Client J → Redis → Prop) (m : PyM J α) (c : Client J)
    (r : Redis) : Prop :=
  PyM.Sure Kept (fun _ _ => True) Kept post m c r

variable {r : Redis} {name : UpdName}

theorem PyM.Sure.read {β : Type} {cmd : Cmd} {f : cmd.Reply → PyM J β}
    {post : β → Client J → Redis → Prop} {c : Client J} (hcmd : ∀ r', Kept r' (serve cmd r').2)
    (h : ∀ r', Kept r r' → PyM.AmongLoads post (f (serve cmd r').1) c (serve cmd r').2) :
    PyM.AmongLoads post (PyM.send cmd >>= f) c r :=
  PyM.Sure.send fun r' hr _ => ⟨hcmd r', h r' hr⟩

/-- The parts of a load, but for the filing of its texts. -/
theorem parts_among :
    PyM.Parts (J := J) fun m => ∀ c r, PyM.AmongLoads (fun _ _ _ => True) m c r where
  pure _ _ _ := PyM.Sure.pure fun _ _ => trivial
  raise _ _ _ := PyM.Sure.raise
  client _ _ := Prog.Sure.ret fun _ _ _ _ => trivial
  bind hm hf c r := (hm c r).bind fun a c' r' _ => hf a c' r'
  send cmd hcmd c r := by
    refine Prog.Sure.call fun r' _ _ => ⟨?_, Prog.Sure.ret fun _ _ _ _ => trivial⟩
    cases cmd with
    | exec w l => exact exec_kept w (hcmd w l rfl) r'
    | _ => exact serve_kept (by rintro w l ⟨⟩) r'
  setNsVersion _ _ _ _ := Prog.Sure.ret fun _ _ _ _ => trivial
  setVersDict _ _ _ _ := Prog.Sure.ret fun _ _ _ _ => trivial

theorem set_among (k value : Bytes) (c : Client J) (r : Redis) :
    PyM.AmongLoads (fun _ _ _ => True) (PyM.lift fun c => set c k value {}) c r := by
  refine Prog.Sure.bind (Prog.Sure.of_issues ?_ r) fun _ _ _ => Prog.Sure.ret ?_
  · intro cmd s hcmd _
    exact serve_kept ((set_no_exec ..).issues hcmd) s
  · exact fun _ _ _ _ => trivial

variable (texts : Texts) (file : Option Bytes) (py : Py J)

/-- The text that is stored is the one of the stanza, or the name of the file that holds it. -/
def TextOf (name : UpdName) (x : Bytes) : Prop :=
  ∃ joined, texts.find name = some (.ok joined) ∧ (x = joined ∨ file = some x)

def HasText (name : UpdName) (r : Redis) : Prop :=
  ∃ x, r.dsl.lookup name = some x ∧ TextOf texts file name x

theorem HasText.kept {texts : Texts} {file : Option Bytes} {r' : Redis}
    (h : HasText texts file name r) (hr : Kept r r') : HasText texts file name r' := by
  obtain ⟨x, hx, htext⟩ := h
  exact ⟨x, hr.entries _ _ hx, htext⟩

theorem serve_hset (w : Watch) (name : UpdName) (text : Bytes) (r : Redis) :
    serve (.exec w [.hset name text]) r =
      if r.clean w then (some true, Redis.touch { r with dsl := r.dsl.put name (some text) } .dsl)
      else (none, r) := by
  simp only [serve]
  split <;> rfl

theorem hset_kept (h : r.dsl.lookup name = none) (text : Bytes) :
    Kept r (Redis.touch { r with dsl := r.dsl.put name (some text) } .dsl) := by
  refine ⟨Stamped.hset r name text, fun f x hx => ?_⟩
  rw [Redis.touch_dsl]
  show (r.dsl.put name (some text)).lookup f = some x
  rw [Dict.lookup_put, if_neg ?_]
  · exact hx
  · rintro rfl
    rw [h] at hx
    cases hx

theorem execute_among {texts : Texts} {file : Option Bytes} {joined : Bytes}
    (htext : texts.find name = some (.ok joined)) {r₁ r₂ : Redis} (h₁ : Kept r₁ r₂) (h₂ : Kept r₂ r)
    (hprev : ¬ (r₂.dsl.lookup name ≠ none ∧ r₂.dsl.lookup name ≠ some joined)) (c : Client J) :
    PyM.AmongLoads (fun out _ r' => out = some true → HasText texts file name r')
      (execute [(.dsl, r₁.touched .dsl)] (if r₂.dsl.lookup name ≠ some joined then
        [Write.hset name (file.getD joined)] else [])) c r := by
  by_cases hsame : r₂.dsl.lookup name = some joined
  · rw [if_neg (not_not.mpr hsame)]
    refine PyM.Sure.pure fun r' hr _ => ?_
    exact ⟨joined, hr.entries _ _ (h₂.entries _ _ hsame), joined, htext, .inl rfl⟩
  · have hnone : r₂.dsl.lookup name = none := by
      by_contra hsome
      exact hprev ⟨hsome, hsame⟩
    rw [if_pos hsame]
    refine Prog.Sure.call fun r' hr _ => ?_
    rw [serve_hset]
    split
    · rename_i hclean
      have hclean : r'.touched .dsl = r₁.touched .dsl := by simpa [Redis.clean] using hclean
      -- nothing was filed since the stanza was found to be new
      have hle := h₁.touched .dsl
      have hle' := (h₂.toStamped.trans hr.toStamped).touched .dsl
      have hdsl : r'.dsl = r₂.dsl := (h₂.toStamped.trans hr.toStamped).dsl (by omega)
      have hstill : r'.dsl.lookup name = none := by rw [hdsl, hnone]
      refine ⟨hset_kept hstill _, Prog.Sure.ret fun r'' hr' a ha _ => ?_⟩
      refine ⟨file.getD joined, hr'.entries _ _ ?_, joined, htext, ?_⟩
      · exact (Dict.lookup_put ..).trans (if_pos rfl)
      · cases file with
        | none => exact .inl rfl
        | some f => exact .inr rfl
    · refine ⟨Std.Refl.refl _, Prog.Sure.ret fun r'' hr' a ha htrue => ?_⟩
      cases ha
      cases htrue

/-- Among other loads a loop that returns `True` has stored all its texts. -/
theorem forLoop_among (fors : List (ForTuple J)) (c : Client J) (r : Redis) :
    PyM.AmongLoads (fun out _ r' => out = true → ∀ t ∈ fors, HasText texts file t.name r')
      (forLoop texts file fors) c r := by
  induction fors generalizing c r with
  | nil => exact PyM.Sure.pure fun _ _ _ _ ht => absurd ht (by simp)
  | cons t rest ih =>
    have hfail : ∀ (c : Client J) r, PyM.AmongLoads
        (fun out _ r' => out = true → ∀ t' ∈ t :: rest, HasText texts file t'.name r')
        (pure false) c r :=
      fun c r => PyM.Sure.pure fun _ _ h => absurd h Bool.false_ne_true
    unfold forLoop
    refine PyM.Sure.read (serve_kept (by rintro w l ⟨⟩)) fun r₁ _ => ?_
    cases htext : texts.find t.name with
    | none => exact PyM.Sure.raise
    | some text =>
      refine PyM.Sure.read (serve_kept (by rintro w l ⟨⟩)) fun r₂ h₂ => ?_
      refine PyM.Sure.ofExcept fun joined hjoined => ?_
      rw [hjoined] at htext
      simp only
      split
      · exact PyM.Sure.raise
      · rename_i hprev
        have happend := PyM.Sure.frame (parts_among.appendFor t c r₂) (Std.Refl.refl r₂)
        refine happend.bind fun out c₃ r₃ h₃ => ?_
        cases out with
        | none => exact hfail c₃ r₃
        | some u =>
          cases t.funcs with
          | none => exact hfail c₃ r₃
          | some funcs =>
            refine PyM.Sure.modify ((execute_among htext h₂ h₃.2 hprev _).bind fun done c₄ r₄ h₄ => ?_)
            cases done with
            | none => exact hfail c₄ r₄
            | some ran =>
              cases ran with
              | false => exact PyM.Sure.raise
              | true =>
                have hfiled := h₄ rfl
                refine PyM.Sure.mono (PyM.Sure.frame (ih c₄ r₄) (Std.Refl.refl r₄)) ?_
                rintro out c' r' ⟨hrest, hkept⟩ htrue t' ht'
                obtain rfl | ht' := List.mem_cons.mp ht'
                · exact hfiled.kept hkept
                · exact hrest htrue t' ht'

/-- **Among loads.** A load only adds texts, and one that reports success has its texts stored. -/
theorem doUpd_among (d : Dsl J) (c : Client J) (r : Redis) :
    PyM.AmongLoads (fun out _ r' => out = some true → ∃ texts, d.texts = some texts ∧
      ∀ t ∈ d.fors, HasText texts d.file t.name r') (doUpd py d) c r := by
  unfold doUpd
  cases hd : d.texts with
  | none => exact PyM.Sure.pure fun _ _ h => nomatch h
  | some texts =>
    refine (parts_among.checkVersions texts c r).bind fun _ c₁ r₁ _ => ?_
    cases d.broken with
    | some e => exact PyM.Sure.raise
    | none =>
      have hadds : ∀ c r, PyM.AmongLoads (fun _ _ _ => True) (addLoop py d.adds) c r :=
        parts_among.addLoop py (fun v ns => parts_among.append v ns false)
          fun _ _ k _ value => set_among k value
      refine (hadds c₁ r₁).bind fun _ c₂ r₂ _ => ?_
      refine (forLoop_among texts d.file d.fors c₂ r₂).bind fun done c₃ r₃ h₃ => ?_
      refine PyM.Sure.pure fun r' hr hdone => ⟨texts, rfl, fun t ht => ?_⟩
      exact (h₃ (Option.some.inj hdone) t ht).kept hr

end Loads

/-! ## Loads that nothing stops -/

section Steady

variable {J α β : Type} {cond : Cmd → Redis → Prop}

/-- Whatever other clients do, the method returns if each of its commands finds Redis as `cond`
has it. -/
def PyM.Returns (cond : Cmd → Redis → Prop) (post : α → Prop) (m : PyM J α) (c : Client J) :
    Prop :=
  ∀ r, (m c).Sure serve (fun _ _ => True) cond (fun _ _ => True)
    (fun out _ => ∃ a, out.1 = .ok a ∧ post a) r

theorem PyM.Returns.pure {post : α → Prop} {a : α} (c : Client J) (h : post a) :
    PyM.Returns cond post (pure a) c := fun _ _ _ => ⟨a, rfl, h⟩

theorem PyM.Returns.send {cmd : Cmd} {f : cmd.Reply → PyM J β} {post : β → Prop} {c : Client J}
    (h : ∀ r, cond cmd r → PyM.Returns cond post (f (serve cmd r).1) c) :
    PyM.Returns cond post (PyM.send cmd >>= f) c :=
  fun _ r' _ hr => ⟨trivial, h r' hr _⟩

theorem PyM.Returns.bind {m : PyM J α} {f : α → PyM J β} {post : α → Prop} {post' : β → Prop}
    {c : Client J} (hm : PyM.Returns cond post m c)
    (hf : ∀ a c', post a → PyM.Returns cond post' (f a) c') :
    PyM.Returns cond post' (m >>= f) c := by
  intro r
  have hrefl : Std.Refl (fun _ _ : Redis => True) := ⟨fun _ => trivial⟩
  refine Prog.Sure.bind (hm r) ?_
  rintro ⟨out, c'⟩ r' ⟨a, ha, hpost⟩
  cases ha
  exact hf a c' hpost r'

/-- A load is not disturbed: its transactions find no watched key changed, and a text that is
there already is the one of the stanza. -/
def Undisturbed (texts : Texts) : Cmd → Redis → Prop
  | .exec w _, r => r.clean w = true
  | .hget name, r => ∀ x, r.dsl.lookup name = some x → texts.find name = some (.ok x)
  | _, _ => True

/-- A file that can be loaded by the client: it has no `add` stanza, renames no namespace, and
its stanzas are complete and start from the versions the client is at. -/
structure Dsl.Loadable (d : Dsl J) (c : Client J) (texts : Texts) : Prop where
  parsed : d.texts = some texts
  broken : d.broken = none
  adds : d.adds = []
  start : ∀ p ∈ texts, c.currVersion p.1.oldns = .ok p.1.old
  fors : ∀ t ∈ d.fors, t.oldns = t.ns ∧ t.funcs ≠ none ∧
    ∃ joined, texts.find t.name = some (.ok joined)

variable {texts : Texts} {c : Client J}

theorem checkVersions_returns (h : ∀ p ∈ texts, c.currVersion p.1.oldns = .ok p.1.old) :
    checkVersions texts c = .ret (.ok (), c) := by
  induction texts with
  | nil => rfl
  | cons p rest ih =>
    rw [List.forall_mem_cons] at h
    have hstep : checkVersions (p :: rest) c = (PyM.ofExcept (c.currVersion p.1.oldns) >>=
      fun cur => if p.1.old ≠ cur then PyM.raise .keyError else checkVersions rest) c := rfl
    rw [hstep, h.1]
    show (if p.1.old ≠ p.1.old then PyM.raise .keyError else checkVersions rest) c = _
    rw [if_neg (not_not.mpr rfl)]
    exact ih h.2

theorem serve_exec_clean {w : Watch} {l : List Write} {r : Redis} (h : r.clean w = true) :
    serve (.exec w l) r = (some (applyAll l r).1, (applyAll l r).2) := by
  rw [serve, if_pos h]

theorem appendNewVersion_returns (v : Ver) (ns : Ns) (c : Client J) :
    PyM.Returns (Undisturbed texts) (· = some ()) (appendNewVersion v ns false) c := by
  unfold appendNewVersion
  refine PyM.Returns.send fun r₁ _ => PyM.Returns.send fun r₂ _ => ?_
  show PyM.Returns _ _ (if _ then _ else _) _
  split
  · exact PyM.Returns.pure _ rfl
  · refine PyM.Returns.send fun r₃ hclean => ?_
    rw [serve_exec_clean hclean]
    exact PyM.Returns.pure _ rfl

theorem execute_returns (w : Watch) {prev : Option Bytes} {joined : Bytes} (name : UpdName)
    (text : Bytes) (c : Client J) :
    PyM.Returns (Undisturbed texts) (· = some true)
      (execute w (if prev ≠ some joined then [Write.hset name text] else [])) c := by
  split
  · intro r r' _ hclean
    refine ⟨trivial, ?_⟩
    rw [serve_exec_clean hclean]
    exact fun _ _ => ⟨_, rfl, rfl⟩
  · exact PyM.Returns.pure _ rfl

theorem forLoop_returns (file : Option Bytes) {fors : List (ForTuple J)}
    (h : ∀ t ∈ fors, t.oldns = t.ns ∧ t.funcs ≠ none ∧
      ∃ joined, texts.find t.name = some (.ok joined)) (c : Client J) :
    PyM.Returns (Undisturbed texts) (· = true) (forLoop texts file fors) c := by
  induction fors generalizing c with
  | nil => exact PyM.Returns.pure _ rfl
  | cons t rest ih =>
    rw [List.forall_mem_cons] at h
    obtain ⟨⟨hns, hfuncs, joined, htext⟩, hrest⟩ := h
    obtain ⟨funcs, hfuncs⟩ := Option.ne_none_iff_exists'.mp hfuncs
    unfold forLoop
    refine PyM.Returns.send fun r₁ _ => ?_
    rw [htext]
    refine PyM.Returns.send fun r₂ hget => ?_
    have hprev : ¬ (r₂.dsl.lookup t.name ≠ none ∧ r₂.dsl.lookup t.name ≠ some joined) := by
      rintro ⟨hsome, hother⟩
      obtain ⟨x, hx⟩ := Option.ne_none_iff_exists'.mp hsome
      have hfound := hget x hx
      rw [htext] at hfound
      cases hfound
      exact hother hx
    show PyM.Returns _ _ (if r₂.dsl.lookup t.name ≠ none ∧ r₂.dsl.lookup t.name ≠ some joined then _
      else _) _
    rw [if_neg hprev, appendFor, if_pos hns]
    refine (appendNewVersion_returns t.verTo t.ns c).bind fun out c₃ hout => ?_
    subst hout
    simp only [hfuncs]
    refine (execute_returns _ _ _ _).bind fun done c₄ hdone => ?_
    subst hdone
    exact ih hrest c₄

/-- **A load that is not disturbed succeeds.** -/
theorem doUpd_returns (py : Py J) {d : Dsl J} (h : d.Loadable c texts) :
    PyM.Returns (Undisturbed texts) (· = some true) (doUpd py d) c := by
  have hloop : doUpd py d c = (forLoop texts d.file d.fors >>= fun done =>
      (pure (some done) : PyM J (Option Bool))) c := by
    have hstart : doUpd py d = (checkVersions texts >>= fun _ => forLoop texts d.file d.fors >>=
        fun done => (pure (some done) : PyM J (Option Bool))) := by
      unfold doUpd
      rw [h.parsed, h.broken, h.adds]
      rfl
    rw [hstart]
    show (checkVersions texts c).bind _ = _
    rw [checkVersions_returns h.start]
    rfl
  intro r
  rw [hloop]
  exact ((forLoop_returns d.file h.fors c).bind fun done c' hdone => by
    subst hdone
    exact PyM.Returns.pure c' rfl) r

end Steady

/-! ## The list stays linked -/

section Linked

variable {J ι : Type}

/-- The name an update from one entry of a version list to the next is stored under. -/
def linkName (new old : Ver × Ns) : UpdName := ⟨old.1, new.1, old.2, new.2⟩

/-- The file has a stanza for the step, and `x` is what is stored for it. -/
def Dsl.Stores (d : Dsl J) (name : UpdName) (x : Bytes) : Prop :=
  ∃ texts, d.texts = some texts ∧ (∃ t ∈ d.fors, t.name = name) ∧ TextOf texts d.file name x

abbrev LoadPool (ι J : Type) := Pool Cmd.Reply ι (Except PyErr (Option Bool) × Client J) Redis

def Succeeded (q : LoadPool ι J) (i : ι) : Prop := ∃ c, q.procs i = .ret (.ok (some true), c)

/-- The transaction `i` is about to send leaves the list of the namespace, or puts a version in
front of it; the step from the head to that version is a stanza of one of the `steady` loads. -/
def Extends (ns : Ns) (files : ι → Dsl J) (steady : ι → Prop) (p : LoadPool ι J) (i : ι) : Prop :=
  ∀ w l k, p.procs i = .call (.exec w l) k → p.server.clean w = true →
    (∀ x ∈ l, x.lists ≠ some ns) ∨ ∃ v, l = [.lpush ns (v, ns)] ∧
      ∀ old ∈ (p.server.versions ns).head?, ∃ j, steady j ∧
        ∃ t ∈ (files j).fors, t.name = linkName (v, ns) old

def loading (py : Py J) (clients : ι → Client J) (files : ι → Dsl J) (r : Redis) :
    LoadPool ι J :=
  started py (fun i => .load (clients i) (files i)) r

structure InTurn (ns : Ns) (files : ι → Dsl J) (texts : ι → Texts) (steady : ι → Prop)
    (p : LoadPool ι J) (i : ι) : Prop where
  undisturbed : steady i → ∀ cmd k, p.procs i = .call cmd k → Undisturbed (texts i) cmd p.server
  extends_ : Extends ns files steady p i

variable {ns : Ns} {files : ι → Dsl J} {texts : ι → Texts} {steady : ι → Prop} {p : LoadPool ι J}
  {i : ι} {sched : List ι}

theorem InTurn.read {cmd : Cmd} {k : cmd.Reply → Prog Cmd.Reply _}
    (hp : p.procs i = .call cmd k) (hcmd : ∀ w l, cmd ≠ .exec w l)
    (h : Undisturbed (texts i) cmd p.server) : InTurn ns files texts steady p i where
  undisturbed := fun _ => Prog.of_call hp h
  extends_ := by
    intro w l k' hp'
    rw [hp] at hp'
    cases hp'
    exact absurd rfl (hcmd w l)

theorem InTurn.exec {w : Watch} {l : List Write} {k : Option Bool → Prog Cmd.Reply _}
    (hp : p.procs i = .call (.exec w l) k) (hclean : p.server.clean w = true)
    (h : (∀ x ∈ l, x.lists ≠ some ns) ∨ ∃ v, l = [.lpush ns (v, ns)] ∧
      ∀ old ∈ (p.server.versions ns).head?, ∃ j, steady j ∧
        ∃ t ∈ (files j).fors, t.name = linkName (v, ns) old) :
    InTurn ns files texts steady p i where
  undisturbed := fun _ => Prog.of_call hp hclean
  extends_ := by
    intro w' l' k' hp' _
    rw [hp] at hp'
    cases hp'
    exact h

variable [DecidableEq ι]

/-- A command leaves the list, or it is a transaction that extends it. -/
theorem Extends.step (h : Extends ns files steady p i) :
    (p.step serve i).server.versions ns = p.server.versions ns ∨
      ∃ v, (p.step serve i).server.versions ns = (v, ns) :: p.server.versions ns ∧
        ∀ old ∈ (p.server.versions ns).head?, ∃ j, steady j ∧
          ∃ t ∈ (files j).fors, t.name = linkName (v, ns) old := by
  cases hprog : p.procs i with
  | ret a => exact .inl (by rw [Pool.step_ret serve hprog])
  | call cmd k =>
    rw [Pool.step_call serve hprog]
    by_cases hcmd : ∀ w l, cmd ≠ .exec w l
    · exact .inl (congrFun (serve_books hcmd _).2 ns)
    · simp only [ne_eq, not_forall, not_not] at hcmd
      obtain ⟨w, l, rfl⟩ := hcmd
      by_cases hclean : p.server.clean w = true
      · simp only [serve_exec_clean hclean]
        obtain hother | ⟨v, rfl, hhead⟩ := h w l k hprog hclean
        · exact .inl (applyAll_same (fun r => r.versions ns)
            (fun x hx r => (x.apply_books r).2 ns (hother x hx)) _)
        · exact .inr ⟨v, Function.update_self .., hhead⟩
      · exact .inl (by simp [serve, hclean])

/-- The step had its text before, or is one of a steady load. -/
def Linked (files : ι → Dsl J) (steady : ι → Prop) (r : Redis) (new old : Ver × Ns) : Prop :=
  (∃ x, r.dsl.lookup (linkName new old) = some x) ∨
    ∃ i, steady i ∧ ∃ t ∈ (files i).fors, t.name = linkName new old

/-- One command keeps the list linked and its versions in order. -/
theorem Extends.linked {r : Redis} {age : Ver → Nat} (h : Extends ns files steady p i)
    (hnewer : ∀ i, ∀ t ∈ (files i).fors, t.ns = ns → age t.verFrom < age t.verTo)
    (hp : (p.server.versions ns).IsChain (Linked files steady r) ∧
      (p.server.versions ns).IsChain fun new old => age old.1 < age new.1) :
    ((p.step serve i).server.versions ns).IsChain (Linked files steady r) ∧
      ((p.step serve i).server.versions ns).IsChain fun new old => age old.1 < age new.1 := by
  obtain hsame | ⟨v, hpush, hhead⟩ := h.step
  · rw [hsame]
    exact hp
  · rw [hpush]
    refine ⟨List.isChain_cons.mpr ⟨fun old hold => .inr (hhead old hold), hp.1⟩,
      List.isChain_cons.mpr ⟨fun old hold => ?_, hp.2⟩⟩
    obtain ⟨j, -, t, ht, hname⟩ := hhead old hold
    have hfrom : t.verFrom = old.1 := congrArg UpdName.old hname
    have hto : t.verTo = v := congrArg UpdName.new hname
    have hns : t.ns = ns := congrArg UpdName.ns hname
    have hlt := hnewer j t ht hns
    rw [hfrom, hto] at hlt
    exact hlt

theorem nodup_of_newer {age : Ver → Nat} {l : List (Ver × Ns)}
    (h : l.IsChain fun new old => age old.1 < age new.1) : (l.map Prod.fst).Nodup := by
  have htrans : IsTrans (Ver × Ns) fun new old => age old.1 < age new.1 :=
    ⟨fun _ _ _ h h' => Nat.lt_trans h' h⟩
  refine List.Pairwise.map _ (fun new old hlt heq => ?_) (List.isChain_iff_pairwise.mp h)
  rw [heq] at hlt
  exact Nat.lt_irrefl _ hlt

/-- A steady load that has ended has succeeded. -/
theorem steady_succeeded {py : Py J} {clients : ι → Client J} {r : Redis}
    (hload : (files i).Loadable (clients i) (texts i)) (hi : steady i)
    (h : (loading py clients files r).Along serve (InTurn ns files texts steady) sched)
    (hend : ¬ (((loading py clients files r).run serve sched).procs i).Busy) :
    Succeeded ((loading py clients files r).run serve sched) i := by
  have hrefl : Std.Refl (fun _ _ : Redis => True) := ⟨fun _ => trivial⟩
  have htrans : IsTrans Redis (fun _ _ => True) := ⟨fun _ _ _ _ _ => trivial⟩
  have hsure := Pool.sure_run (doUpd_returns py hload r) (h.imp (fun p j hj => by
    unfold Pool.Relies
    split
    · subst j
      exact hj.undisturbed hi
    · trivial))
  generalize (loading py clients files r).run serve sched = q at hsure hend
  unfold Succeeded
  cases hprog : q.procs i with
  | ret out =>
    rw [hprog] at hsure
    obtain ⟨a, ha, rfl⟩ := hsure q.server trivial
    obtain ⟨x, c⟩ := out
    cases ha
    exact ⟨c, rfl⟩
  | call cmd k => exact absurd ⟨cmd, k, hprog⟩ hend

/-- **Concurrent loads keep the version list linked** when their transactions are not aborted and
each version is put in front of the one its update starts from: two neighbours of the list have
an entry in `UPDATE_DSL_STRINGS`, which was there before or is the one of a load that reported
success. When the updates lead to newer versions only, no version is there twice. -/
theorem loads_keep_linked (py : Py J) (clients : ι → Client J) {r : Redis} (age : Ver → Nat)
    (hlinked : (r.versions ns).IsChain fun new old =>
      ∃ x, r.dsl.lookup (linkName new old) = some x)
    (hsorted : (r.versions ns).IsChain fun new old => age old.1 < age new.1)
    (hnewer : ∀ i, ∀ t ∈ (files i).fors, t.ns = ns → age t.verFrom < age t.verTo)
    (hload : ∀ i, steady i → (files i).Loadable (clients i) (texts i))
    (h : (loading py clients files r).Along serve (InTurn ns files texts steady) sched)
    (hend : ∀ i, steady i → ¬ (((loading py clients files r).run serve sched).procs i).Busy) :
    let q := (loading py clients files r).run serve sched
    ((q.server.versions ns).IsChain fun new old =>
      ∃ x, q.server.dsl.lookup (linkName new old) = some x ∧
        (r.dsl.lookup (linkName new old) = some x ∨
          ∃ i, Succeeded q i ∧ (files i).Stores (linkName new old) x)) ∧
      ((q.server.versions ns).map Prod.fst).Nodup := by
  intro q
  have hstart : ∀ i, ((loading py clients files r).procs i).Sure serve Kept (fun _ _ => True) Kept
      (fun out r' => ∀ a, out.1 = .ok a → a = some true → ∃ texts, (files i).texts = some texts ∧
        ∀ t ∈ (files i).fors, HasText texts (files i).file t.name r') r :=
    fun i => doUpd_among py (files i) (clients i) r
  obtain ⟨hsure, hkept⟩ := Pool.sure_all hstart (fun _ _ _ h => h)
    (Pool.along_of_forall serve (fun _ _ _ _ _ => trivial) _ sched)
  have hlist := h.inv (I := fun p => ((p.server.versions ns).IsChain (Linked files steady r)) ∧
    (p.server.versions ns).IsChain fun new old => age old.1 < age new.1)
    (fun _ _ hp hi => hi.extends_.linked hnewer hp) ⟨hlinked.imp fun _ _ h => .inl h, hsorted⟩
  refine ⟨hlist.1.imp fun new old hstep => ?_, nodup_of_newer hlist.2⟩
  obtain ⟨x, hx⟩ | ⟨i, hi, t, ht, hname⟩ := hstep
  · exact ⟨x, hkept.entries _ _ hx, .inl hx⟩
  · have hsucceeded := steady_succeeded (hload i hi) hi h (hend i hi)
    obtain ⟨c, hc⟩ := hsucceeded
    have hdone := hsure i
    rw [hc] at hdone
    obtain ⟨texts, htexts, hstored⟩ := hdone _ (Std.Refl.refl _) _ rfl rfl
    obtain ⟨x, hx, htext⟩ := hstored t ht
    rw [hname] at hx htext
    exact ⟨x, hx, .inr ⟨i, ⟨c, hc⟩, texts, htexts, ⟨t, ht, hname⟩, htext⟩⟩

variable (old : Ver)

def demoLoad (new : Ver) : Dsl Bytes where
  texts := some [(⟨old, new, lit "n", lit "n"⟩, .ok (old ++ new))]
  adds := []
  fors := [⟨lit "*", some [], lit "n", lit "n", old, new⟩]

def demoAt (v : Ver) : Client Bytes :=
  (Client.empty.setNsVersion (lit "n") v).setVersDict (lit "n") (some [(v, lit "n")])

def demoFirst : Redis := (Redis.init 0).setVersions (lit "n") [demoV0]

/-- One client after the other, before the first has closed the connections of the others. -/
def demoTurns : List Bool := List.replicate 6 true ++ List.replicate 6 false

def demoFiles : Bool → Dsl Bytes
  | true => demoLoad (lit "v0") (lit "v1")
  | false => demoLoad old (lit "v2")

def demoClients : Bool → Client Bytes
  | true => demoAt (lit "v0")
  | false => demoAt old

def demoLoads : Pool Cmd.Reply Bool (Except PyErr (Option Bool) × Client Bytes) Redis :=
  loading demoPy (demoClients old) (demoFiles old) demoFirst

def demoTexts : Bool → Texts
  | true => [(⟨lit "v0", lit "v1", lit "n", lit "n"⟩, .ok (lit "v0" ++ lit "v1"))]
  | false => [(⟨old, lit "v2", lit "n", lit "n"⟩, .ok (old ++ lit "v2"))]

theorem demoFiles_loadable (i : Bool) :
    (demoFiles old i).Loadable (demoClients old i) (demoTexts old i) := by
  have hfind : ∀ (name : UpdName) (text : Bytes), Texts.find [(name, .ok text)] name =
      some (.ok text) := fun name text => by simp [Texts.find]
  cases i <;> refine ⟨rfl, rfl, rfl, ?_, ?_⟩ <;> intro x hx <;> rw [List.mem_singleton.mp hx]
  · rfl
  · exact ⟨rfl, nofun, _, hfind _ _⟩
  · rfl
  · exact ⟨rfl, nofun, _, hfind _ _⟩

/-- The second load starts from the version of the first. -/
theorem demo_inTurn : (demoLoads (lit "v1")).Along serve (InTurn (lit "n") (demoFiles (lit "v1"))
    (demoTexts (lit "v1")) fun _ => True) demoTurns := by
  refine ⟨.read rfl nofun trivial, .read rfl nofun nofun, .read rfl nofun trivial,
    .read rfl nofun trivial, .exec rfl rfl (.inr ⟨lit "v1", rfl, ?_⟩), .exec rfl rfl (.inl (by decide)),
    .read rfl nofun trivial, .read rfl nofun nofun, .read rfl nofun trivial,
    .read rfl nofun trivial, .exec rfl rfl (.inr ⟨lit "v2", rfl, ?_⟩), .exec rfl rfl (.inl (by decide)),
    trivial⟩
  · rintro old hold
    cases hold
    exact ⟨true, trivial, _, List.mem_singleton.mpr rfl, rfl⟩
  · rintro old hold
    cases hold
    exact ⟨false, trivial, _, List.mem_singleton.mpr rfl, rfl⟩

theorem demo_linked : ∃ x i, ((demoLoads (lit "v1")).run serve demoTurns).server.dsl.lookup
      (linkName (lit "v2", lit "n") demoV1) = some x ∧
    Succeeded ((demoLoads (lit "v1")).run serve demoTurns) i := by
  have hnewer : ∀ i, ∀ t ∈ (demoFiles (lit "v1") i).fors, t.ns = lit "n" →
      (t.verFrom.getLastD 0).toNat < (t.verTo.getLastD 0).toNat := by
    intro i t ht _
    cases i <;> rw [List.mem_singleton.mp ht] <;> decide
  have hlinked := (loads_keep_linked demoPy (demoClients (lit "v1")) (r := demoFirst)
    (fun v => (v.getLastD 0).toNat) (List.isChain_singleton _) (List.isChain_singleton _)
    hnewer (fun i _ => demoFiles_loadable (lit "v1") i) demo_inTurn
    (fun i _ => by cases i <;> exact Prog.not_busy_ret _)).1
  have hlist : ((loading demoPy (demoClients (lit "v1")) (demoFiles (lit "v1")) demoFirst).run serve
      demoTurns).server.versions (lit "n") = [(lit "v2", lit "n"), demoV1, demoV0] := rfl
  rw [hlist] at hlinked
  obtain ⟨x, hx, hold | ⟨i, hi, -⟩⟩ := hlinked.rel
  · cases hold
  · exact ⟨x, i, hx, hi⟩

/-- Both clients are at `v0`, and both loads report success: there is no way from `v1` to `v2`. -/
theorem loads_unlinked : let q := (demoLoads (lit "v0")).run serve demoTurns
    Succeeded q true ∧ Succeeded q false ∧
      q.server.versions (lit "n") = [(lit "v2", lit "n"), demoV1, demoV0] ∧
      q.server.dsl.lookup (linkName (lit "v2", lit "n") demoV1) = none :=
  ⟨⟨_, rfl⟩, ⟨_, rfl⟩, rfl, rfl⟩

end Linked

end SchemaUpdate.Lur
