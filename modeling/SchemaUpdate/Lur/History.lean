import SchemaUpdate.Lur.Entries

/-! # Loads of one client

What a client has in its dictionaries after it made its namespaces and loaded updates
one after the other: the version lists that Redis has, and under each name the rules of
the `for` stanzas loaded under it, in order. -/

namespace SchemaUpdate.Lur

open SchemaUpdate.Lib

section

variable {J : Type}

/-! ## Rules in the order of loading -/

def ForTuple.rule (t : ForTuple J) (funcs : List (UpdFun J)) : Rule J := ⟨t.glob, funcs, t.verTo⟩

/-- The rules of the stanzas with the name. -/
def rulesFor (ts : List (ForTuple J)) (name : UpdName) : List (Rule J) :=
  ts.filterMap fun t => if t.name = name then t.funcs.map t.rule else none

/-- The client has filed the rules of the stanzas, all of which have their functions. -/
structure HasRules (c : Client J) (ts : List (ForTuple J)) : Prop where
  complete : ∀ t ∈ ts, t.funcs ≠ none
  filed : ∀ name, c.updDict name =
    if rulesFor ts name = [] then none else some (rulesFor ts name)

theorem rulesFor_append (ts us : List (ForTuple J)) (name : UpdName) :
    rulesFor (ts ++ us) name = rulesFor ts name ++ rulesFor us name := List.filterMap_append

variable {c : Client J} {ts : List (ForTuple J)} {c' : Client J} {α : Type} {r r' : Redis}
    {py : Py J} {d : Dsl J}
  {nsVersions : List (Ns × Ver)} {file : Option Bytes} {t : ForTuple J} {texts : Texts} {m : PyM J α}
  (h : HasRules c ts)

include h

theorem HasRules.addRule {funcs : List (UpdFun J)} (ht : t.funcs = some funcs) :
    HasRules (c.addRule t.name (t.rule funcs)) (ts ++ [t]) := by
  refine ⟨?_, fun name => ?_⟩
  · intro u hu
    obtain hu | hu := List.mem_append.mp hu
    · exact h.complete u hu
    · rw [List.mem_singleton.mp hu, ht]
      exact Option.some_ne_none _
  have hone : rulesFor [t] name = if t.name = name then [t.rule funcs] else [] := by
    unfold rulesFor
    split <;> simp [*]
  rw [rulesFor_append, hone]
  by_cases hname : t.name = name
  · subst hname
    have hget : (c.updDict t.name).getD [] = rulesFor ts t.name := by
      rw [h.filed t.name]
      split <;> simp [*]
    simp [Client.addRule, hget]
  · simp only [Client.addRule, Function.update_of_ne (Ne.symm hname), hname, if_false,
      List.append_nil]
    exact h.filed name

theorem HasRules.congr (hsame : c'.updDict = c.updDict) : HasRules c' ts :=
  ⟨h.complete, fun name => by rw [hsame]; exact h.filed name⟩

theorem HasRules.ne_none_iff (name : UpdName) :
    c.updDict name ≠ none ↔ ∃ t ∈ ts, t.name = name := by
  have hempty : rulesFor ts name = [] ↔ ∀ t ∈ ts, t.name ≠ name := by
    rw [rulesFor, List.filterMap_eq_nil_iff]
    constructor
    · intro hall t ht hname
      have hnone := hall t ht
      rw [if_pos hname, Option.map_eq_none_iff] at hnone
      exact h.complete t ht hnone
    · intro hall t ht
      rw [if_neg (hall t ht)]
  rw [h.filed name]
  by_cases hnil : rulesFor ts name = []
  · rw [if_pos hnil]
    simpa using hempty.mp hnil
  · rw [if_neg hnil]
    have hex := mt hempty.mpr hnil
    push Not at hex
    simpa using hex

theorem HasRules.mem {name : UpdName} {rules : List (Rule J)}
    (hrules : c.updDict name = some rules) {rule : Rule J} (hmem : rule ∈ rules) :
    ∃ t ∈ ts, t.name = name ∧ ∃ funcs, t.funcs = some funcs ∧ rule = t.rule funcs := by
  rw [h.filed name] at hrules
  split at hrules
  · cases hrules
  · cases hrules
    obtain ⟨t, ht, hrule⟩ := List.mem_filterMap.mp hmem
    split at hrule
    · obtain ⟨funcs, hf, rfl⟩ := Option.map_eq_some_iff.mp hrule
      exact ⟨t, ht, ‹_›, funcs, hf, rfl⟩
    · cases hrule

omit h

theorem updDict_listInv (D : UpdName → Option (List (Rule J))) :
    ListInv (J := J) (fun _ _ => True) (fun c _ => c.updDict = D) (fun _ => True) where
  toStore _ _ _ := trivial
  setNsVersion _ _ _ _ h := h
  adopt _ _ _ h := h
  push _ _ _ _ _ h _ := h
  move _ _ _ _ _ _ _ _ _ h _ := h

theorem PyM.along_true (m : PyM J α) (c : Client J) (r : Redis) :
    m.Along (fun _ _ => True) c r := by
  unfold PyM.Along
  generalize m c = p
  induction p generalizing r with
  | ret a => trivial
  | call cmd k ih => exact ⟨trivial, ih _ _⟩

theorem PyM.Keeps.returns {I : Client J → Redis → Prop} {E : Redis → Prop}
    (hm : PyM.Keeps (fun _ _ => True) I E m) {a : α} (h : I c r)
    (hrun : m.alone c r = ((.ok a, c'), r')) : I c' r' := by
  have hafter := hm c r h (PyM.along_true m c r)
  rw [hrun] at hafter
  exact hafter

/-! ## A successful load -/

theorem PyM.alone_ok {β : Type} {f : α → PyM J β} {b : β}
    (h : (m >>= f).alone c r = ((.ok b, c'), r')) :
    ∃ a c₁ r₁, m.alone c r = ((.ok a, c₁), r₁) ∧ (f a).alone c₁ r₁ = ((.ok b, c'), r') := by
  cases hm : m.alone c r with
  | mk out r₁ =>
    obtain ⟨x, c₁⟩ := out
    cases x with
    | error e =>
      rw [PyM.alone_bind_error hm] at h
      cases h
    | ok a =>
      rw [PyM.alone_bind_ok hm] at h
      exact ⟨a, c₁, r₁, rfl, h⟩

theorem execute_alone {w : Watch} {f : UpdName} {text : Bytes} {new : Prop} [Decidable new]
    (h : (execute w (if new then [Write.hset f text] else [])).alone c r =
      ((.ok (some true), c'), r')) :
    c' = c ∧ r'.dsl = if new then r.dsl.put f (some text) else r.dsl := by
  by_cases hnew : new
  · rw [if_pos hnew] at h ⊢
    have h : ((Except.ok (serve (.exec w [.hset f text]) r).1, c),
      (serve (.exec w [.hset f text]) r).2) = ((Except.ok (some true), c'), r') := h
    simp only [serve] at h
    split at h
    · cases h
      exact ⟨rfl, rfl⟩
    · cases h
  · rw [if_neg hnew] at h ⊢
    cases h
    exact ⟨rfl, rfl⟩

theorem forLoop_cons_ok {rest : List (ForTuple J)}
    (h : (forLoop texts file (t :: rest)).alone c r = ((.ok true, c'), r')) :
    ∃ joined funcs c₁ r₁ r₂, texts.find t.name = some (.ok joined) ∧
      (r.dsl.lookup t.name = none ∨ r.dsl.lookup t.name = some joined) ∧ t.funcs = some funcs ∧
      (appendFor t).alone c r = ((.ok (some ()), c₁), r₁) ∧
      (r₂.dsl = if r.dsl.lookup t.name ≠ some joined then
        r₁.dsl.put t.name (some (file.getD joined)) else r₁.dsl) ∧
      (forLoop texts file rest).alone (c₁.addRule t.name (t.rule funcs)) r₂ =
        ((.ok true, c'), r') := by
  unfold forLoop at h
  rw [PyM.alone_watch] at h
  cases htext : texts.find t.name with
  | none =>
    rw [htext] at h
    cases h
  | some text =>
    simp only [htext] at h
    obtain ⟨prev, c₀, r₀, hget, h⟩ := PyM.alone_ok h
    have hget : ((Except.ok (r.dsl.lookup t.name), c), r) = ((Except.ok prev, c₀), r₀) := hget
    cases hget
    obtain ⟨joined, c₀, r₀, htxt, h⟩ := PyM.alone_ok h
    rw [PyM.alone_ofExcept] at htxt
    cases htxt
    split at h
    · cases h
    · rename_i hprev
      obtain ⟨out, c₁, r₁, happ, h⟩ := PyM.alone_ok h
      cases out with
      | none => cases h
      | some u =>
        cases hf : t.funcs with
        | none =>
          simp only [hf] at h
          cases h
        | some funcs =>
          simp only [hf] at h
          rw [PyM.alone_modify] at h
          obtain ⟨done, c₂, r₂, hexec, h⟩ := PyM.alone_ok h
          cases done with
          | none => cases h
          | some b =>
            cases b with
            | false => cases h
            | true =>
              obtain ⟨rfl, hdsl⟩ := execute_alone hexec
              refine ⟨joined, funcs, c₁, r₁, r₂, rfl, ?_, rfl, happ, hdsl, h⟩
              rw [← or_iff_not_and_not] at hprev
              exact hprev

theorem HasRules.forLoop {fors : List (ForTuple J)}
    (h : HasRules c ts) (hrun : (forLoop texts file fors).alone c r = ((.ok true, c'), r')) :
    HasRules c' (ts ++ fors) := by
  induction fors generalizing ts c r with
  | nil =>
    cases hrun
    rw [List.append_nil]
    exact h
  | cons t rest ih =>
    obtain ⟨-, funcs, c₁, r₁, r₂, -, -, hf, happ, -, hrest⟩ := forLoop_cons_ok hrun
    have hsame : c₁.updDict = c.updDict :=
      ((updDict_listInv c.updDict).appendFor t).returns (c := c) (r := r) rfl happ
    have hall := ih ((h.congr hsame).addRule hf) hrest
    rw [List.append_assoc] at hall
    exact hall

theorem checkVersions_alone (l : Texts) (c : Client J) (r : Redis) :
    ∃ x, (checkVersions l).alone c r = ((x, c), r) := by
  induction l with
  | nil => exact ⟨_, rfl⟩
  | cons p rest ih =>
    unfold checkVersions
    rw [PyM.alone_client]
    cases hcur : c.currVersion p.1.oldns with
    | error e => exact ⟨_, rfl⟩
    | ok cur =>
      rw [PyM.alone_bind_ok (PyM.alone_ofExcept c r (.ok cur))]
      split
      · exact ⟨_, rfl⟩
      · exact ih

theorem doUpd_ok (h : (doUpd py d).alone c r = ((.ok (some true), c'), r')) :
    ∃ texts c₁ r₁, d.texts = some texts ∧ (checkVersions texts).alone c r = ((.ok (), c), r) ∧
      (addLoop py d.adds).alone c r = ((.ok (), c₁), r₁) ∧
      (forLoop texts d.file d.fors).alone c₁ r₁ = ((.ok true, c'), r') := by
  unfold doUpd at h
  cases htexts : d.texts with
  | none =>
    rw [htexts] at h
    cases h
  | some texts =>
    simp only [htexts] at h
    obtain ⟨u, c₀, r₀, hcheck, h⟩ := PyM.alone_ok h
    obtain ⟨x, hsame⟩ := checkVersions_alone texts c r
    rw [hsame] at hcheck
    cases hcheck
    cases hbroken : d.broken with
    | some e =>
      simp only [hbroken] at h
      cases h
    | none =>
      simp only [hbroken] at h
      obtain ⟨u', c₁, r₁, hadds, h⟩ := PyM.alone_ok h
      obtain ⟨done, c₂, r₂, hfors, h⟩ := PyM.alone_ok h
      cases h
      exact ⟨texts, c₁, r₁, rfl, hsame, hadds, hfors⟩

theorem HasRules.doUpd (h : HasRules c ts)
    (hrun : (doUpd py d).alone c r = ((.ok (some true), c'), r')) : HasRules c' (ts ++ d.fors) := by
  obtain ⟨texts, c₁, r₁, -, -, hadds, hfors⟩ := doUpd_ok hrun
  have hsame : c₁.updDict = c.updDict := ((updDict_listInv c.updDict).addLoop py
    fun _ _ _ _ _ _ _ h => h).returns (c := c) (r := r) rfl hadds
  exact (h.congr hsame).forLoop hfors

/-! ## Histories -/

/-- The client makes its namespaces in an empty server and loads the updates; nothing, if the
connect or one of the loads does not succeed. -/
def history (py : Py J) (now : Int) (nsVersions : List (Ns × Ver)) (ds : List (Dsl J)) :
    Option (Client J × Redis) :=
  match (connect py nsVersions).alone Client.empty (Redis.init now) with
  | ((.ok (), c), r) => ds.foldlM (fun s d =>
      match (doUpd py d).alone s.1 s.2 with
      | ((.ok (some true), c), r) => some (c, r)
      | _ => none) (c, r)
  | _ => none

/-- The client is at the current versions, and the newest entries of the lists carry the names
of their namespaces. -/
structure Tracks (c : Client J) (r : Redis) : Prop where
  current : AtCurrent c r
  ownHead : OwnHead r.versions

theorem tracks_versInv : VersInv (J := J) (fun _ _ => True) Tracks (fun _ => True) where
  toStore _ _ _ := trivial
  setNsVersion _ _ _ _ h := ⟨h.current, h.ownHead⟩
  adopt _ _ ns h := ⟨h.current.adopt ns, h.ownHead⟩
  push _ _ ns v _ h _ := ⟨h.current.setVersDict ns _, head_pushed h.ownHead v ns⟩
  move _ _ oldns ns v _ _ _ _ h _ :=
    ⟨(h.current.setVersDict ns _).forget oldns [], head_moved h.ownHead oldns ns v⟩
  addRule _ _ _ _ h := ⟨h.current, h.ownHead⟩
  hset _ _ _ _ h := ⟨h.current, h.ownHead⟩

theorem Tracks.doUpd {out : Option Bool} (h : Tracks c r)
    (hrun : (doUpd py d).alone c r = ((.ok out, c'), r')) : Tracks c' r' := by
  refine (tracks_versInv.doUpd py ?_).returns h hrun
  intro a _ k _ c r value h
  refine ⟨fun ns l hl => ?_, ?_⟩
  · rw [set_versions]
    exact h.current ns l hl
  · rw [set_versions]
    exact h.ownHead

theorem connect_rules {now : Int}
    (h : (connect py nsVersions).alone Client.empty (Redis.init now) = ((.ok (), c), r)) :
    Tracks c r ∧ HasRules c [] := by
  have hempty : Tracks (J := J) Client.empty (Redis.init now) := by
    refine ⟨?_, ?_⟩
    · intro ns l hl
      cases hl
    · intro ns e he
      cases he
  refine ⟨(tracks_versInv.connect py nsVersions).returns hempty h, ?_⟩
  have hI : ListInv (J := J) (fun _ _ => True)
      (fun c r => c.updDict = (fun _ => none) ∧ r.dsl = ∅) (fun _ => True) := {
    toStore := fun _ _ _ => trivial
    setNsVersion := fun _ _ _ _ h => h
    adopt := fun _ _ _ h => h
    push := fun _ _ _ _ _ h _ => h
    move := fun _ _ _ _ _ _ _ _ _ h _ => h }
  unfold connect at h
  obtain ⟨u, c₁, r₁, happ, h⟩ := PyM.alone_ok h
  have hkeep := (hI.closed.forM fun p _ => (hI.appendNewVersion p.2 p.1 true).bind
    fun _ => PyM.Keeps.pure _).returns (c := Client.empty) (r := Redis.init now) ⟨rfl, rfl⟩ happ
  obtain ⟨texts, c₂, r₂, htexts, h⟩ := PyM.alone_ok h
  have htexts : ((Except.ok (r₁.dsl.entries.map fun p => (p.1, p.2)), c₁), r₁) =
    ((Except.ok texts, c₂), r₂) := htexts
  rw [hkeep.2] at htexts
  cases htexts
  cases h
  refine ⟨fun t ht => (by cases ht), fun name => ?_⟩
  rw [hkeep.1]
  rfl

/-- **What a history leaves behind**: the current lists, and the rules of all `for` stanzas in
the order of loading. -/
theorem history_spec {now : Int} {ds : List (Dsl J)}
    (h : history py now nsVersions ds = some (c, r)) :
    Tracks c r ∧ HasRules c (ds.flatMap (·.fors)) := by
  unfold history at h
  split at h
  · rename_i c₀ r₀ hconnect
    obtain ⟨ht, hr⟩ := connect_rules hconnect
    rw [← List.nil_append (ds.flatMap _)]
    clear hconnect
    generalize ([] : List (ForTuple J)) = ts at hr ⊢
    induction ds generalizing c₀ r₀ ts with
    | nil =>
      cases h
      simpa using ⟨ht, hr⟩
    | cons d ds ih =>
      rw [List.foldlM_cons] at h
      obtain ⟨⟨c₁, r₁⟩, hd, hrest⟩ := Option.bind_eq_some_iff.mp h
      simp only at hd
      split at hd
      · rename_i hrun
        cases hd
        rw [List.flatMap_cons, ← List.append_assoc]
        exact ih _ _ hrest (ht.doUpd hrun) _ (hr.doUpd hrun)
      · cases hd
  · cases h

end

end SchemaUpdate.Lur
