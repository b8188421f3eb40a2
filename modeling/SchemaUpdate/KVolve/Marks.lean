import SchemaUpdate.KVolve.Logged
import SchemaUpdate.KVolve.Pending

/-! # No mark without a migration

When a container is marked current, every pending update function should have been
called for every element it held: the first with the element, each other with what
the one before made of it. -/

namespace SchemaUpdate.KVolve

open SchemaUpdate.Lib SchemaUpdate.Redis

/-- The functions an object tagged `vers` still has to go through. -/
def VersionHash.funsFrom (v : VersionHash) (vers : Int) : List UpdFun :=
  (v.pending vers).flatMap fun p => infoFuns p.2

variable (cfg : Cfg)

def contents : Val → List UpdArg
  | .str o => [.str o.bytes]
  | .list _ xs => xs.1.map .str
  | .set _ ms => ms.items.map .str
  | .hash _ fs => fs.items.map fun p => .hash p.1 (some p.2)
  | .zset _ ms => ms.items.map fun p => .zset p.1 (zzlGetScore cfg (cfg.d2string p.2))

/-! ## The intended calls -/

def UpdArg.next (r : UpdRes) : UpdArg → UpdArg
  | .str b => .str ((r.val.map cstr).getD b)
  | .zset m score => .zset ((r.val.map cstr).getD m) (r.score.getD score)
  | .hash f b => .hash ((r.val.map cstr).getD f) ((r.fval.map cstr).or b)
  | .wild => .wild

def nextKey (checkKey : Bool) (r : UpdRes) (key : Bytes) : Bytes :=
  match checkKey, r.key with
  | true, some k => cstr k
  | _, _ => key

def chain (checkKey : Bool) : Bytes → List UpdFun → UpdArg → List Call
  | _, [], _ => []
  | key, f :: funs, x =>
    let r := f (cstr key) x
    ⟨f, x⟩ :: chain checkKey (nextKey checkKey r key) funs (x.next r)

def chainKey (checkKey : Bool) : Bytes → List UpdFun → UpdArg → Bytes
  | key, [], _ => key
  | key, f :: funs, x =>
    let r := f (cstr key) x
    chainKey checkKey (nextKey checkKey r key) funs (x.next r)

/-- Every pending function was called for every element, each element in a turn of its
own. -/
def Migrated (v : VersionHash) (m : Mark) : Prop :=
  v.funsFrom m.old = [] ∨ ∃ ts, ts.Sublist m.turns ∧
    List.Forall₂ (fun x calls => ∃ checkKey key, calls = chain checkKey key (v.funsFrom m.old) x)
      (contents cfg m.entry.obj.val) ts

/-! ## The condition -/

def Str.isRaw : Str → Bool
  | .raw _ => true
  | .int _ _ => false

/-- No element, field, field value or member reads as an integer. -/
def Textual : Val → Prop
  | .str o => Str.isRaw o
  | .list .ziplist xs => ∀ b ∈ xs.1, Str.isRaw (ofZiplist b)
  | .list .linkedlist xs => ∀ b ∈ xs.1, Str.isRaw (tryObjectEncoding cfg b)
  | .set .intset ms => ∀ b ∈ ms.items, Str.isRaw (ofZiplist b)
  | .set .ht ms => ∀ b ∈ ms.items, Str.isRaw (tryObjectEncoding cfg b)
  | .hash .ziplist fs => ∀ p ∈ fs.items, Str.isRaw (ofZiplist p.1) ∧ Str.isRaw (ofZiplist p.2)
  | .hash .ht fs => ∀ p ∈ fs.items,
      Str.isRaw (tryObjectEncoding cfg p.1) ∧ Str.isRaw (tryObjectEncoding cfg p.2)
  | .zset _ ms => ∀ p ∈ ms.items, Str.isRaw (ofZiplist p.1)

/-- The next function gets to see what this one made: no integer, and neither a new score
nor a new field value. -/
def Carries (r : UpdRes) : UpdArg → Prop
  | .str _ => ∀ b, r.val = some b → encInt (cstr b) = none
  | .zset _ _ => r.score = none ∧ ∀ b, r.val = some b → encInt (cstr b) = none
  | .hash _ _ => r.fval = none ∧ ∀ b, r.val = some b → encInt (cstr b) = none
  | .wild => False

def ChainFits (checkKey : Bool) : Bytes → List UpdFun → UpdArg → Prop
  | _, [], _ => True
  | key, f :: funs, x =>
    let r := f (cstr key) x
    (funs ≠ [] → Carries r x) ∧ ChainFits checkKey (nextKey checkKey r key) funs (x.next r)

/-- The same for all elements; only the first may change the key. -/
def ChainsFit (key : Bytes) (funs : List UpdFun) : List UpdArg → Prop
  | [] => True
  | x :: xs => ChainFits true key funs x ∧
      ∀ y ∈ xs, ChainFits false (chainKey true key funs x) funs y

/-- There is nothing to call, or a client's command for containers of this kind finds
elements that are texts and stay texts. -/
def MarkFits (v : VersionHash) (h : HName) (mode : Mode) (m : Mark) : Prop :=
  v.funsFrom m.old = [] ∨
    (mode = .command ∧ h.checks = some (utypeOf m.entry.obj.val) ∧ Textual cfg m.entry.obj.val ∧
      ChainsFit m.key (v.funsFrom m.old) (contents cfg m.entry.obj.val))

/-! ## The container under its elements -/

def Waits (env : Env) (t : Int) (e : Entry) : Prop :=
  e.obj.vers = t ∧ e.alive env.now = true ∧ utypeOf e.obj.val ≠ .string

def Stands (env : Env) (t : Int) (loc : Bytes) (s : Store) : Prop :=
  ∃ e, s.get env.d loc = some e ∧ Waits env t e

section Container

variable {env : Env} {v : VersionHash} {t : Int} {key loc : Bytes} {s s' : Store}

theorem Waits.vers {e : Entry} (h : Waits env t e) (s : Store) : s.vers e.obj = t :=
  (vers_of_kind h.2.2 s).trans h.1

theorem Stands.move (h : Stands env t loc s) (hok : namespaceUpdate env v key s = .ok s') :
    Stands env t (track env key loc s') s' := by
  obtain ⟨e, he, hw⟩ := h
  have hstay : s'.get env.d loc = some e → Stands env t (track env key loc s') s' := by
    intro he'
    rw [track, if_pos (Store.has_of_get he')]
    exact ⟨e, he', hw⟩
  unfold namespaceUpdate at hok
  split at hok
  · cases hok
    exact hstay he
  · rename_i hkey
    have hne : loc ≠ key := by
      intro hk
      rw [← hk] at hkey
      exact hkey (Store.has_of_get he)
    split at hok
    · cases hok
    · rename_i old _
      cases hok
      by_cases hmoved : env.d = 0 ∧ loc = old
      · obtain ⟨hd, hold⟩ := hmoved
        subst hold
        rw [hd] at he
        have hget := Store.get_rename_moved hne he hw.2.1
        have hgone : (s.rename env.now loc key).has env.d loc = false := by
          rw [Store.has, hget, if_pos ⟨hd, rfl⟩]
          rfl
        rw [track, if_neg (by simp [hgone])]
        exact ⟨e, by rw [hget, if_neg (fun h => hne h.2.symm), if_pos ⟨hd, rfl⟩], hw⟩
      · refine hstay ?_
        rw [Store.get_rename_other]
        · exact he
        · rintro ⟨hd, hloc | hloc⟩
          · exact hmoved ⟨hd, hloc⟩
          · exact hne hloc

def Slotted (env : Env) (t : Int) (loc : Bytes) (s : Store) : Prop :=
  ∀ e, s.get env.d loc = some e → Waits env t e

theorem Slotted.runProc (h : Slotted env t loc s) (key : Bytes) {p : KeyProc}
    (hp : ∀ cur, Tame cur (p cur).2) (hnew : s.get env.d loc = none → (p none).2 = .keep) :
    Slotted env t loc (runProc env key p s) := by
  by_cases hk : loc = key
  · subst hk
    refine runProc_slot (fun e w hw hkind _ => ?_) (fun _ hw => hw.2.1) h hp hnew
    exact ⟨hw.1, hw.2.1, fun hstring => hw.2.2 (hkind.symm.trans hstring)⟩
  · intro e he
    rw [get_runProc, if_neg hk] at he
    exact h e he

theorem Stands.slotted (h : Stands env t loc s) : Slotted env t loc s := by
  obtain ⟨e, he, hw⟩ := h
  intro e' he'
  rw [he] at he'
  cases he'
  exact hw

theorem Stands.not_none (h : Stands env t loc s) {P : Prop} : s.get env.d loc = none → P := by
  obtain ⟨e, he, -⟩ := h
  intro hnone
  rw [hnone] at he
  cases he

variable {b : Bytes}

theorem encodeNew_text {cfg : Cfg} {o : Str} (hb : encInt b = none)
    (hok : encodeNew cfg b = .ok o) : o = .raw b := by
  unfold encodeNew tryObjectEncoding at hok
  rw [hb] at hok
  cases hok
  rfl

/-- The commands that write an element back leave the container standing. -/
theorem Stands.elems : ElemSteps env key loc (fun s s' => s' = s ∧ Slotted env t loc s)
    (fun s s' => s' = s ∧ Stands env t loc s) where
  same h := by rw [h.1]
  start h _ := ⟨h.1, h.2.slotted⟩
  get h := by
    rw [h.1]
    exact ⟨rfl, rfl⟩
  add h h₀ hp := ⟨by rw [h₀.1], h₀.2.runProc key hp h.2.not_none⟩
  remove h₀ hp hnew := ⟨by rw [h₀.1], h₀.2.runProc key hp fun _ => hnew⟩
  settle h hhas := by
    obtain ⟨e, he⟩ := Option.isSome_iff_exists.mp hhas
    exact ⟨h.1, e, he, h.2 e he⟩

theorem Stands.changeElem {st st' : MSt} {type : UType} {r : UpdRes} {e : Elem}
    (h : Stands env t st.loc st.s) (hok : changeElem env type r e st = .ok st') :
    Stands env t st'.loc st'.s ∧ st'.key = st.key := by
  obtain ⟨hkey, hloc, _, -, hstands⟩ := Stands.elems.left ⟨rfl, h⟩ hok
  rw [hloc]
  exact ⟨hstands, hkey⟩

/-! ## What the updaters make of a text -/

variable {e : Elem} {out : Elem × Store}

theorem updateSetElem_text (hok : updateSetElem env key loc b e s = .ok out)
    (hb : encInt (cstr b) = none) : out.1.obj = .raw (cstr b) := by
  unfold updateSetElem at hok
  obtain ⟨_, -, hok⟩ := bind_eq_ok.mp hok
  obtain ⟨obj, hobj, hok⟩ := bind_eq_ok.mp hok
  obtain ⟨_, -, hok⟩ := bind_eq_ok.mp hok
  obtain ⟨_, -, hok⟩ := bind_eq_ok.mp hok
  cases hok
  unfold setElemObj at hobj
  split at hobj
  · exact encodeNew_text hb hobj
  · exact encodeNew_text hb hobj
  · cases hobj
    rfl

theorem updateListElem_text (hok : updateListElem env key loc b e s = .ok out)
    (hb : encInt (cstr b) = none) : out.1.obj = .raw (cstr b) := by
  unfold updateListElem at hok
  obtain ⟨_, -, hok⟩ := bind_eq_ok.mp hok
  obtain ⟨obj, hobj, hok⟩ := bind_eq_ok.mp hok
  obtain ⟨_, -, hok⟩ := bind_eq_ok.mp hok
  obtain ⟨_, -, hok⟩ := bind_eq_ok.mp hok
  cases hok
  exact encodeNew_text hb hobj

theorem updateHashElem_text {f : Bytes} (hok : updateHashElem env key loc f b e s = .ok out)
    (hf : encInt (cstr f) = none) : out.1 = { e with obj := .raw (cstr f), own := out.1.own } := by
  unfold updateHashElem at hok
  obtain ⟨_, -, hok⟩ := bind_eq_ok.mp hok
  obtain ⟨obj, hobj, hok⟩ := bind_eq_ok.mp hok
  obtain ⟨_, -, hok⟩ := bind_eq_ok.mp hok
  obtain ⟨old, -, hok⟩ := bind_eq_ok.mp hok
  obtain ⟨_, -, hok⟩ := bind_eq_ok.mp hok
  obtain ⟨_, -, hok⟩ := bind_eq_ok.mp hok
  cases hok
  have hfield : ∀ enc, encodeField env.cfg enc (cstr f) (cstr b) = .ok obj →
      obj = .raw (cstr f) := by
    intro enc hfield
    unfold encodeField at hfield
    split at hfield
    · exact encodeNew_text hf hfield
    · cases hfield
      rfl
  have hraw : obj = .raw (cstr f) := by
    unfold hashElemObj at hobj
    split at hobj
    · exact hfield _ hobj
    · exact hfield _ hobj
    · cases hobj
      rfl
  rw [hraw]

theorem zaddElem_text {m : Bytes} {score : Double} {out : Str × Store}
    (hok : zaddElem env key m score s = .ok out) (hm : encInt m = none) : out.1 = .raw m := by
  unfold zaddElem at hok
  split at hok
  · obtain ⟨obj, hobj, hok⟩ := bind_eq_ok.mp hok
    cases hok
    unfold zsetElemObj at hobj
    split at hobj
    · exact encodeNew_text hm hobj
    · split at hobj
      · exact encodeNew_text hm hobj
      · cases hobj
        rfl
    · cases hobj
      rfl
  · cases hok
    rfl

theorem updateZsetElem_text {m : Bytes} {score : Double}
    (hok : updateZsetElem env key loc m score e s = .ok out) (hm : encInt (cstr m) = none) :
    out.1 = { e with obj := .raw (cstr m) } := by
  unfold updateZsetElem at hok
  obtain ⟨_, -, hok⟩ := bind_eq_ok.mp hok
  obtain ⟨added, hadd, hok⟩ := bind_eq_ok.mp hok
  obtain ⟨_, -, hok⟩ := bind_eq_ok.mp hok
  cases hok
  rw [zaddElem_text hadd hm]

end Container

/-! ## One element -/

/-- The argument made of an element object; the rest of the state has no part in it. -/
def elemArg (env : Env) (type : UType) (e : Elem) : Res UpdArg :=
  argOf env type ⟨[], [], .elem e, .init⟩

section Element

variable {nested : Nested} {env : Env} {v : VersionHash} {checkKey : Bool} {type : UType} {t : Int}
  {st st' : MSt} {x : UpdArg} {p : MSt × List Call} {rest : List UpdFun}
    {p' : MSt × List Call}

theorem argOf_elem {e : Elem} (he : st.subj = .elem e) :
    argOf env type st = elemArg env type e := by
  simp only [argOf, elemArg, he]

theorem Stands.runCalls {loc : Bytes} {s s' : Store} (h : Stands env t loc s)
    {calls : List (List Bytes)} (hok : runCalls nested env calls loc s = .ok s') :
    Stands env t loc s' := by
  unfold KVolve.runCalls at hok
  split at hok
  · cases hok
    exact h
  · obtain ⟨s₁, -, hok⟩ := bind_eq_ok.mp hok
    split at hok
    · rename_i hsame
      cases hok
      obtain ⟨e, he, hw⟩ := h
      exact ⟨e, hsame.trans he, hw⟩
    · cases hok

theorem changeKey_stands {k : Option Bytes} (hok : changeKey env v checkKey k st = .ok st')
    (h : Stands env t st.loc st.s) :
    Stands env t st'.loc st'.s ∧ st'.subj = st.subj ∧
      st'.key = nextKey checkKey { key := k } st.key := by
  unfold changeKey at hok
  split at hok
  · obtain ⟨s, hs, hok⟩ := bind_eq_ok.mp hok
    cases hok
    exact ⟨h.move hs, rfl, rfl⟩
  · rename_i hno
    cases hok
    refine ⟨h, rfl, ?_⟩
    unfold nextKey
    split
    · rename_i k hk
      exact (hno k rfl hk).elim
    · rfl

theorem elemArg_text {e : Elem} (htype : type = .set ∨ type = .list)
    (hx : elemArg env type e = .ok x) (hw : x ≠ .wild) : ∃ b, x = .str b := by
  obtain ⟨obj, vers, score, fval⟩ := e
  obtain rfl | rfl := htype <;> cases obj with
  | int n sh =>
    cases hx
    exact absurd rfl hw
  | raw b =>
    cases hx
    exact ⟨b, rfl⟩

theorem elemArg_zset {e : Elem} (hx : elemArg env .zset e = .ok x) (hw : x ≠ .wild) :
    ∃ m, x = .zset m e.score := by
  obtain ⟨obj, vers, score, fval⟩ := e
  cases obj with
  | int n sh =>
    cases hx
    exact absurd rfl hw
  | raw b =>
    cases hx
    exact ⟨b, rfl⟩

theorem elemArg_hash {e : Elem} (hx : elemArg env .hash e = .ok x) (hw : x ≠ .wild) :
    ∃ f w, x = .hash f w ∧ ∀ g own,
      elemArg env .hash { e with obj := .raw g, own := own } = .ok (.hash g w) := by
  obtain ⟨obj, vers, score, fval⟩ := e
  cases fval with
  | none => cases hx
  | some o =>
    cases obj with
    | int n sh =>
      cases o <;> cases hx <;> exact absurd rfl hw
    | raw f =>
      cases o with
      | int n sh =>
        cases hx
        exact ⟨f, none, rfl, fun _ _ => rfl⟩
      | raw b =>
        cases hx
        exact ⟨f, some b, rfl, fun _ _ => rfl⟩

/-- A set or a list: the function left the element alone, or the updater is run. -/
theorem changeText_next {upd : Bytes → Res (Elem × Store)} {r : UpdRes} {e : Elem}
    (hsubj : st.subj = .elem e) (htype : type = .set ∨ type = .list)
    (hx : elemArg env type e = .ok x)
    (hupd : ∀ b out, upd b = .ok out → encInt (cstr b) = none → out.1.obj = .raw (cstr b))
    (hok : (match r.val with
      | none => Except.ok st
      | some b => (fun p : Elem × Store => { st with subj := .elem p.1, s := p.2 }) <$> upd b) =
      (.ok st' : Res MSt)) :
    ∃ e', st'.subj = .elem e' ∧ (Carries r x → elemArg env type e' = .ok (x.next r)) := by
  have htext : Carries r x → ∃ b, x = .str b := by
    intro hc
    refine elemArg_text htype hx ?_
    rintro rfl
    exact hc
  cases hval : r.val with
  | none =>
    rw [hval] at hok
    cases hok
    refine ⟨e, hsubj, fun hc => ?_⟩
    obtain ⟨b, rfl⟩ := htext hc
    simp only [UpdArg.next, hval, Option.map_none, Option.getD_none, hx]
  | some b =>
    rw [hval] at hok
    obtain ⟨out, hout, rfl⟩ := map_eq_ok.mp hok
    refine ⟨out.1, rfl, fun hc => ?_⟩
    obtain ⟨b', rfl⟩ := htext hc
    rw [UpdArg.next, hval]
    obtain rfl | rfl := htype <;> simp only [elemArg, argOf, hupd b out hout (hc b hval)] <;> rfl

/-- The next function gets what this one made of the element. -/
theorem changeElem_next {r : UpdRes} {e : Elem} (hsubj : st.subj = .elem e) (htype : type ≠ .string)
    (hx : elemArg env type e = .ok x) (hok : changeElem env type r e st = .ok st') :
    ∃ e', st'.subj = .elem e' ∧ (Carries r x → elemArg env type e' = .ok (x.next r)) := by
  have hwild : Carries r x → x ≠ .wild := by
    rintro hc rfl
    exact hc
  cases type with
  | string => exact absurd rfl htype
  | set => exact changeText_next hsubj (.inl rfl) hx (fun _ _ h => updateSetElem_text h) hok
  | list => exact changeText_next hsubj (.inr rfl) hx (fun _ _ h => updateListElem_text h) hok
  | zset =>
    simp only [changeElem] at hok
    split at hok
    · rename_i hany
      obtain ⟨out, hout, rfl⟩ := map_eq_ok.mp hok
      refine ⟨out.1, rfl, fun hc => ?_⟩
      obtain ⟨m, rfl⟩ := elemArg_zset hx (hwild hc)
      obtain ⟨hscore, hval⟩ := hc
      rw [hscore] at hany
      obtain ⟨b, hb⟩ := Option.isSome_iff_exists.mp (hany.resolve_right (by simp))
      rw [hb] at hout
      rw [updateZsetElem_text hout (hval b hb), UpdArg.next, hscore, hb]
      rfl
    · rename_i hno
      cases hok
      refine ⟨e, hsubj, fun hc => ?_⟩
      obtain ⟨m, rfl⟩ := elemArg_zset hx (hwild hc)
      obtain ⟨hval, hscore⟩ := not_or.mp hno
      rw [hx, UpdArg.next, Option.not_isSome_iff_eq_none.mp hval,
        Option.not_isSome_iff_eq_none.mp hscore]
      rfl
  | hash =>
    simp only [changeElem] at hok
    split at hok
    · rename_i hany
      obtain ⟨f, hf, hok⟩ := bind_eq_ok.mp hok
      obtain ⟨w, -, hok⟩ := bind_eq_ok.mp hok
      obtain ⟨out, hout, rfl⟩ := map_eq_ok.mp hok
      refine ⟨out.1, rfl, fun hc => ?_⟩
      obtain ⟨g, w, rfl, hg⟩ := elemArg_hash hx (hwild hc)
      obtain ⟨hfval, hval⟩ := hc
      rw [hfval] at hany
      obtain ⟨b, hb⟩ := Option.isSome_iff_exists.mp (hany.resolve_right (by simp))
      rw [newField, hb] at hf
      cases hf
      rw [updateHashElem_text hout (hval f hb), hg, UpdArg.next, hfval, hb]
      rfl
    · rename_i hno
      cases hok
      refine ⟨e, hsubj, fun hc => ?_⟩
      obtain ⟨g, w, rfl, -⟩ := elemArg_hash hx (hwild hc)
      obtain ⟨hval, hfval⟩ := not_or.mp hno
      rw [hx, UpdArg.next, Option.not_isSome_iff_eq_none.mp hval,
        Option.not_isSome_iff_eq_none.mp hfval]
      simp

theorem Stands.applyFun {e : Elem} {f : UpdFun} (h : Stands env t st.loc st.s)
    (hsubj : st.subj = .elem e) (htype : type ≠ .string) (hx : elemArg env type e = .ok x)
    (hok : applyFun nested env v checkKey type st f = .ok st') :
    Stands env t st'.loc st'.s ∧ st'.key = nextKey checkKey (f (cstr st.key) x) st.key ∧
      ∃ e', st'.subj = .elem e' ∧ (Carries (f (cstr st.key) x) x →
        elemArg env type e' = .ok (x.next (f (cstr st.key) x))) := by
  unfold KVolve.applyFun at hok
  rw [argOf_elem hsubj, hx, ok_bind] at hok
  obtain ⟨s₁, hs₁, hok⟩ := bind_eq_ok.mp hok
  obtain ⟨st₂, hst₂, hok⟩ := bind_eq_ok.mp hok
  obtain ⟨h₂, hsubj₂, hkey₂⟩ := changeKey_stands hst₂ (h.runCalls hs₁)
  rw [hsubj₂, hsubj] at hok
  obtain ⟨h', hkey'⟩ := h₂.changeElem hok
  obtain ⟨e', he', hnext⟩ := changeElem_next (hsubj₂.trans hsubj) htype hx hok
  refine ⟨h', hkey'.trans (hkey₂.trans ?_), e', he', hnext⟩
  rfl

/-- With the functions `funs` still to come, the element is at hand as `x`. -/
structure Ready (env : Env) (checkKey : Bool) (type : UType) (t : Int) (funs : List UpdFun)
    (x : UpdArg) (st : MSt) : Prop where
  stands : Stands env t st.loc st.s
  elem : ∃ e, st.subj = .elem e ∧
    (funs ≠ [] → elemArg env type e = .ok x ∧ ChainFits checkKey st.key funs x)

/-- From one point of the chain to a later one: the log has grown by what lies between. -/
def Advances (env : Env) (checkKey : Bool) (type : UType) (t : Int) (funs rest : List UpdFun)
    (x : UpdArg) (p p' : MSt × List Call) : Prop :=
  ∃ x' cs, Ready env checkKey type t rest x' p'.1 ∧ p'.2 = p.2 ++ cs ∧
    chain checkKey p.1.key funs x = cs ++ chain checkKey p'.1.key rest x' ∧
    chainKey checkKey p.1.key funs x = chainKey checkKey p'.1.key rest x'

theorem Advances.refl {funs : List UpdFun} (h : Ready env checkKey type t funs x p.1) :
    Advances env checkKey type t funs funs x p p :=
  ⟨x, [], h, (List.append_nil _).symm, rfl, rfl⟩

theorem Advances.trans {funs mid : List UpdFun} {q r : MSt × List Call}
    (h : Advances env checkKey type t funs mid x p q)
    (h' : ∀ y, Ready env checkKey type t mid y q.1 → Advances env checkKey type t mid rest y q r) :
    Advances env checkKey type t funs rest x p r := by
  obtain ⟨y, cs, hy, hlog, hchain, hkey⟩ := h
  obtain ⟨z, ds, hz, hlog', hchain', hkey'⟩ := h' y hy
  refine ⟨z, cs ++ ds, hz, ?_, ?_, hkey.trans hkey'⟩
  · rw [hlog', hlog, List.append_assoc]
  · rw [hchain, hchain', List.append_assoc]

variable (htype : type ≠ .string)

include htype

theorem Ready.applyFunL {f : UpdFun} {funs : List UpdFun}
    (h : Ready env checkKey type t (f :: funs) x p.1)
    (hok : applyFunL nested env v checkKey type p f = .ok p') :
    Advances env checkKey type t (f :: funs) funs x p p' := by
  obtain ⟨e, hsubj, hrest⟩ := h.elem
  obtain ⟨hx, hcarry, hfits⟩ := hrest (List.cons_ne_nil f funs)
  unfold KVolve.applyFunL at hok
  rw [argOf_elem hsubj, hx, ok_bind] at hok
  obtain ⟨st', hst', hok⟩ := bind_eq_ok.mp hok
  cases hok
  obtain ⟨hstands, hkey, e', he', hnext⟩ := h.stands.applyFun hsubj htype hx hst'
  refine ⟨x.next (f (cstr p.1.key) x), [⟨f, x⟩], ⟨hstands, e', he', fun hne => ?_⟩, rfl, ?_, ?_⟩
  · refine ⟨hnext (hcarry hne), ?_⟩
    rw [hkey]
    exact hfits
  · rw [chain, ← hkey]
    rfl
  · rw [chainKey, ← hkey]

theorem Ready.funs (l : List UpdFun) (h : Ready env checkKey type t (l ++ rest) x p.1)
    (hok : l.foldlM (KVolve.applyFunL nested env v checkKey type) p = .ok p') :
    Advances env checkKey type t (l ++ rest) rest x p p' := by
  induction l generalizing p x with
  | nil =>
    cases hok
    exact Advances.refl h
  | cons f l ih =>
    rw [List.foldlM_cons] at hok
    obtain ⟨q, hq, hok⟩ := bind_eq_ok.mp hok
    exact Advances.trans (h.applyFunL htype hq) fun y hy => ih hy hok

theorem Ready.updateToL (u : Int × Option UpdInfo)
    (h : Ready env checkKey type t (infoFuns u.2 ++ rest) x p.1)
    (hok : updateToL nested env v checkKey type p u = .ok p') :
    Advances env checkKey type t (infoFuns u.2 ++ rest) rest x p p' := by
  unfold KVolve.updateToL at hok
  obtain ⟨q, hq, hok⟩ := bind_eq_ok.mp hok
  obtain ⟨st', hbump, hok⟩ := bind_eq_ok.mp hok
  cases hok
  refine Advances.trans (h.funs htype _ hq) fun y hy => ?_
  obtain ⟨e, hsubj, hrest⟩ := hy.elem
  -- the tag of an element is no part of what a function sees
  rw [bump, hsubj] at hbump
  cases hbump
  exact ⟨y, [], ⟨hy.stands, _, rfl, hrest⟩, (List.append_nil _).symm, rfl, rfl⟩

theorem Ready.pending (pend : List (Int × Option UpdInfo))
    (h : Ready env checkKey type t (pend.flatMap fun u => infoFuns u.2) x p.1)
    (hok : pend.foldlM (KVolve.updateToL nested env v checkKey type) p = .ok p') :
    Advances env checkKey type t (pend.flatMap fun u => infoFuns u.2) [] x p p' := by
  induction pend generalizing p x with
  | nil =>
    cases hok
    exact Advances.refl h
  | cons u pend ih =>
    rw [List.foldlM_cons] at hok
    obtain ⟨q, hq, hok⟩ := bind_eq_ok.mp hok
    rw [List.flatMap_cons] at h ⊢
    exact Advances.trans (h.updateToL htype u hq) fun y hy => ih hy hok

theorem Stands.turn (ht : t ≠ v.cur) {e : Elem} {key loc : Bytes}
    {s : Store} {q : (Bytes × Bytes × Store) × List Call} (h : Stands env t loc s)
    (hvers : e.vers = t) (hraw : Str.isRaw e.obj = true) (hx : elemArg env type e = .ok x)
    (hfits : ChainFits checkKey key (v.funsFrom t) x)
    (hok : Mode.checkL .command env v checkKey loc (some e) type key s = .ok q) :
    q.2 = chain checkKey key (v.funsFrom t) x ∧ Stands env t q.1.2.1 q.1.2.2 ∧
      q.1.1 = chainKey checkKey key (v.funsFrom t) x := by
  obtain ⟨p, hp, hok⟩ := bind_eq_ok.mp hok
  obtain ⟨_, -, hok⟩ := bind_eq_ok.mp hok
  cases hok
  have hsmall : Str.isSmall e.obj = false := by
    cases hobj : e.obj with
    | raw b => rfl
    | int n sh =>
      rw [hobj] at hraw
      cases hraw
  rw [migrateSubjectL, hsmall, hvers, if_neg (by simp [ht])] at hp
  obtain ⟨st, hst, hp⟩ := bind_eq_ok.mp hp
  have hmoved : Stands env t st.loc st.s ∧ st.subj = .elem e ∧ st.key = key := by
    rcases moveFirst_ok hst with ⟨-, s', hs', rfl⟩ | ⟨-, rfl⟩
    · exact ⟨h.move hs', rfl, rfl⟩
    · exact ⟨h, rfl, rfl⟩
  obtain ⟨hstands, hsubj, hkey⟩ := hmoved
  rw [← hkey] at hfits ⊢
  have hready : Ready env checkKey type t (v.funsFrom t) x st :=
    ⟨hstands, e, hsubj, fun _ => ⟨hx, hfits⟩⟩
  obtain ⟨y, cs, hy, hlog, hchain, hlast⟩ := hready.pending htype _ hp
  refine ⟨?_, hy.stands, hlast.symm⟩
  rw [hlog, List.nil_append]
  exact ((List.append_nil cs).symm.trans hchain.symm)

end Element

/-! ## All elements -/

section Loop

variable {env : Env} {v : VersionHash} {type : UType} {t : Int}

/-- An element object that shows the element `x` as a text. -/
def Faithful (env : Env) (type : UType) (e : Elem) (x : UpdArg) : Prop :=
  Str.isRaw e.obj = true ∧ elemArg env type e = .ok x

/-- One turn of either loop; `key` is the key it starts from. -/
def TurnsTo (env : Env) (v : VersionHash) (t : Int) (x : UpdArg) (p p' : LSt × List (List Call)) :
    Prop :=
  p'.2 = p.2 ++ [chain p.1.first p.1.key (v.funsFrom t) x] ∧ Stands env t p'.1.loc p'.1.s ∧
    p'.1.key = chainKey p.1.first p.1.key (v.funsFrom t) x ∧ p'.1.first = false

variable {p p' : LSt × List (List Call)}

theorem elemStepL_turn (htype : type ≠ .string) (ht : t ≠ v.cur) {x : UpdArg} {e : Elem}
    (h : Stands env t p.1.loc p.1.s) (he : Faithful env type e x)
    (hfits : ChainFits p.1.first p.1.key (v.funsFrom t) x)
    (hok : elemStepL .command env v type p e = .ok p') : TurnsTo env v t x p p' := by
  obtain ⟨c, hc, hok⟩ := bind_eq_ok.mp hok
  have hw := h.slotted c (get_of_deref hc)
  -- a text is no shared integer, so nothing but the element is tagged
  have htag : tagElem (p.1.s.vers c.obj) e p.1.s =
      ({ e with vers := p.1.s.vers c.obj }, p.1.s) := by
    cases hobj : e.obj with
    | raw b => simp only [tagElem, hobj]
    | int n sh =>
      have hraw := he.1
      rw [hobj] at hraw
      cases hraw
  rw [htag] at hok
  obtain ⟨q, hq, hok⟩ := bind_eq_ok.mp hok
  cases hok
  obtain ⟨hlog, hstands, hkey⟩ := h.turn (e := { e with vers := p.1.s.vers c.obj }) htype ht
    (hw.vers p.1.s) he.1 he.2 hfits hq
  exact ⟨by rw [hlog], hstands, hkey, rfl⟩

theorem slotStepL_turn (htype : type ≠ .string) (ht : t ≠ v.cur) {x : UpdArg} {e : Elem}
    (h : Stands env t p.1.loc p.1.s) (he : Faithful env type e x) (hvers : e.vers = t)
    (hfits : ChainFits p.1.first p.1.key (v.funsFrom t) x)
    (hok : slotStepL .command env v type p (some e) = .ok p') : TurnsTo env v t x p p' := by
  obtain ⟨c, hc, hok⟩ := bind_eq_ok.mp hok
  obtain ⟨q, hq, hok⟩ := bind_eq_ok.mp hok
  cases hok
  obtain ⟨hlog, hstands, hkey⟩ := h.turn htype ht hvers he.1 he.2 hfits hq
  exact ⟨by rw [hlog], hstands, hkey, rfl⟩

theorem chainKey_false (key : Bytes) (funs : List UpdFun) (x : UpdArg) :
    chainKey false key funs x = key := by
  induction funs generalizing x with
  | nil => rfl
  | cons f funs ih => exact ih _

/-- The loop gives every element a turn with all its functions. -/
theorem turns_of_steps {α : Type} {f : LSt × List (List Call) → α → Res (LSt × List (List Call))}
    {P : α → UpdArg → Prop} (hstep : ∀ p p' a x, Stands env t p.1.loc p.1.s → P a x →
      ChainFits p.1.first p.1.key (v.funsFrom t) x → f p a = .ok p' → TurnsTo env v t x p p')
    {l : List α} {xs : List UpdArg} (hl : List.Forall₂ P l xs) (h : Stands env t p.1.loc p.1.s)
    (hfits : (p.1.first = true ∧ ChainsFit p.1.key (v.funsFrom t) xs) ∨
      (p.1.first = false ∧ ∀ x ∈ xs, ChainFits false p.1.key (v.funsFrom t) x))
    (hok : l.foldlM f p = .ok p') :
    ∃ ts, p'.2 = p.2 ++ ts ∧ List.Forall₂ (fun x calls => ∃ checkKey key,
      calls = chain checkKey key (v.funsFrom t) x) xs ts := by
  induction hl generalizing p with
  | nil =>
    cases hok
    exact ⟨[], (List.append_nil _).symm, .nil⟩
  | @cons a x l xs ha _ ih =>
    rw [List.foldlM_cons] at hok
    obtain ⟨q, hq, hok⟩ := bind_eq_ok.mp hok
    -- the first element may change the key; for the others it is settled
    have hhead : ChainFits p.1.first p.1.key (v.funsFrom t) x := by
      obtain ⟨hf, hc⟩ | ⟨hf, hc⟩ := hfits
      · rw [hf]
        exact hc.1
      · rw [hf]
        exact hc x (by simp)
    obtain ⟨hlog, hstands, hkey, hfirst⟩ := hstep p q a x h ha hhead hq
    have htail : ∀ y ∈ xs, ChainFits false q.1.key (v.funsFrom t) y := by
      intro y hy
      rw [hkey]
      obtain ⟨hf, hc⟩ | ⟨hf, hc⟩ := hfits
      · rw [hf]
        exact hc.2 y hy
      · rw [hf, chainKey_false]
        exact hc y (by simp [hy])
    obtain ⟨ts, hts, hall⟩ := ih hstands (.inr ⟨hfirst, htail⟩) hok
    refine ⟨chain p.1.first p.1.key (v.funsFrom t) x :: ts, ?_, .cons ⟨_, _, rfl⟩ hall⟩
    rw [hts, hlog, List.append_assoc]
    rfl

end Loop

/-! ## Gathering -/

section Gather

variable {env : Env} {b : Bytes} {l : List Elem} {val : Val}

theorem string2ll_none_of_raw (h : Str.isRaw (ofZiplist b) = true) : string2ll b = none := by
  unfold ofZiplist at h
  cases hb : string2ll b with
  | none => rfl
  | some n =>
    rw [hb] at h
    cases h

theorem text_of_ofZiplist (h : Str.isRaw (ofZiplist b) = true) : ofZiplist b = .raw b := by
  rw [ofZiplist, string2ll_none_of_raw h]

theorem text_of_tryObjectEncoding {cfg : Cfg} (h : Str.isRaw (tryObjectEncoding cfg b) = true) :
    tryObjectEncoding cfg b = .raw b := by
  unfold tryObjectEncoding at h ⊢
  cases hb : encInt b with
  | none => rfl
  | some n =>
    rw [hb] at h
    cases h

theorem faithful_map {α : Type} {type : UType} {f : α → Elem} {g : α → UpdArg} {l : List α}
    (h : ∀ a ∈ l, Faithful env type (f a) (g a)) :
    List.Forall₂ (Faithful env type) (l.map f) (l.map g) := by
  rw [List.forall₂_map_left_iff, List.forall₂_map_right_iff]
  exact List.forall₂_same.mpr h

theorem faithful_mapIdx {α : Type} {type : UType} {f : Nat → α → Elem} {g : α → UpdArg}
    {l : List α} (h : ∀ i, ∀ a ∈ l, Faithful env type (f i a) (g a)) :
    List.Forall₂ (Faithful env type) (l.mapIdx f) (l.map g) := by
  rw [List.forall₂_iff_get]
  refine ⟨by simp, fun i h₁ h₂ => ?_⟩
  simpa using h i _ (List.getElem_mem _)

theorem faithful_str {type : UType} (htype : type = .set ∨ type = .list) {e : Elem}
    (he : e.obj = .raw b) : Faithful env type e (.str b) := by
  obtain rfl | rfl := htype <;> simp [Faithful, elemArg, argOf, he, Str.isRaw]

theorem faithful_hash {e : Elem} {f : Bytes} (he : e.obj = .raw f) (hw : e.fval = some (.raw b)) :
    Faithful env .hash e (.hash f (some b)) := by
  simp [Faithful, elemArg, argOf, he, hw, Str.isRaw]

theorem gatherSet_faithful {tbl : Table} (hkind : utypeOf val = .set) (ht : Textual env.cfg val)
    (hok : gatherSet env.cfg tbl val = .ok l) :
    List.Forall₂ (Faithful env .set) l (contents env.cfg val) := by
  cases val with
  | set enc ms =>
    cases enc with
    | intset =>
      cases hok
      exact faithful_map fun b hb => faithful_str (.inl rfl) (text_of_ofZiplist (ht b hb))
    | ht =>
      cases hok
      exact faithful_map fun b hb => faithful_str (.inl rfl) (text_of_tryObjectEncoding (ht b hb))
  | _ => cases hkind

theorem gatherList_faithful (hkind : utypeOf val = .list) (ht : Textual env.cfg val)
    (hok : gatherList env.cfg val = .ok l) :
    List.Forall₂ (Faithful env .list) l (contents env.cfg val) := by
  cases val with
  | list enc xs =>
    cases enc with
    | ziplist =>
      cases hok
      exact faithful_map fun b hb => faithful_str (.inr rfl) (text_of_ofZiplist (ht b hb))
    | linkedlist =>
      cases hok
      exact faithful_mapIdx fun _ b hb => faithful_str (.inr rfl) (text_of_tryObjectEncoding (ht b hb))
  | _ => cases hkind

theorem gatherPairs_pairs (ps : List (Bytes × Bytes)) :
    gatherPairs (ps.flatMap fun p => [p.1, p.2]) =
      .ok (ps.map fun p => { freshElem (ofZiplist p.1) with fval := some (ofZiplist p.2) }) := by
  induction ps with
  | nil => rfl
  | cons p ps ih =>
    rw [List.flatMap_cons, List.map_cons]
    simp only [List.cons_append, List.nil_append, gatherPairs, ih, ok_bind]

theorem gatherHash_faithful {tbl : Table} (hkind : utypeOf val = .hash) (ht : Textual env.cfg val)
    (hok : gatherHash env.cfg tbl val = .ok l) :
    List.Forall₂ (Faithful env .hash) l (contents env.cfg val) := by
  cases val with
  | hash enc fs =>
    cases enc with
    | ziplist =>
      have hl := (gatherPairs_pairs fs.items).symm.trans hok
      cases hl
      exact faithful_map fun p hp =>
        faithful_hash (text_of_ofZiplist (ht p hp).1) (congrArg some (text_of_ofZiplist (ht p hp).2))
    | ht =>
      cases hok
      exact faithful_map fun p hp =>
        faithful_hash (text_of_tryObjectEncoding (ht p hp).1)
          (congrArg some (text_of_tryObjectEncoding (ht p hp).2))
  | _ => cases hkind

theorem zsetSlots_faithful {vers : Int} {entries : List Bytes} {l : List (Option Elem)}
    (hkind : utypeOf val = .zset) (ht : Textual env.cfg val)
    (hentries : ziplistEntries env.cfg val = some entries)
    (hok : zsetSlots env.cfg vers entries = .ok l) :
    List.Forall₂ (fun o x => ∃ e, o = some e ∧ Faithful env .zset e x ∧ e.vers = vers) l
      (contents env.cfg val) := by
  cases val with
  | zset enc ms =>
    cases enc with
    | skiplist => cases hentries
    | ziplist =>
      cases hentries
      have htexts : ∀ q ∈ ms.items.map fun p => (p.1, env.cfg.d2string p.2),
          string2ll q.1 = none := fun q hq => by
        obtain ⟨p, hp, rfl⟩ := List.mem_map.mp hq
        exact string2ll_none_of_raw (ht p hp)
      have hpairs := zsetSlots_pairs env.cfg vers _ htexts
      rw [List.flatMap_map, List.map_map] at hpairs
      rw [hpairs] at hok
      cases hok
      rw [contents, List.forall₂_map_left_iff, List.forall₂_map_right_iff]
      exact List.forall₂_same.mpr fun p _ => ⟨_, rfl, ⟨rfl, rfl⟩, rfl⟩
  | _ => cases hkind

end Gather

/-! ## Marks -/

section Marks

variable {env : Env} {v : VersionHash} {s : Store} {m : Mark} {marks : List Mark}
  {out : (Int × Bytes × Store)} {key : Bytes}

theorem updateAllL_mark {loop : LoopL}
    (hok : updateAllL env v key s loop = .ok (out, marks)) (hm : m ∈ marks) :
    m.key = key ∧ m.old ≠ v.cur ∧ m.old = s.vers m.entry.obj ∧
      ∃ loc st, s.get env.d loc = some m.entry ∧
        loop m.old m.entry.obj.val ⟨true, key, loc, s⟩ = some (.ok (st, m.turns)) := by
  unfold updateAllL at hok
  obtain ⟨found, -, hok⟩ := bind_eq_ok.mp hok
  cases found with
  | none =>
    cases hok
    cases hm
  | some loc =>
    obtain ⟨c, hc, hok⟩ := bind_eq_ok.mp hok
    split at hok
    · cases hok
      cases hm
    · rename_i hold
      cases hloop : loop (s.vers c.obj) c.obj.val ⟨true, key, loc, s⟩ with
      | none =>
        rw [hloop] at hok
        cases hok
        cases hm
      | some r =>
        rw [hloop] at hok
        obtain ⟨p, hp, hok⟩ := bind_eq_ok.mp hok
        obtain ⟨_, -, hok⟩ := bind_eq_ok.mp hok
        cases hok
        rw [List.mem_singleton] at hm
        subst hm
        exact ⟨rfl, hold, rfl, loc, p.1, get_of_deref hc, by rw [hloop, hp]⟩

theorem containerL_marks {creates : Bool} {allL : UpdateAllL} {mode : Mode} {args : List Arg}
    {out : List Arg × Store} (hok : containerL creates allL mode env v args s = .ok (out, marks)) :
    ∃ key out', allL mode env v key s = .ok (out', marks) := by
  cases args with
  | nil => cases hok
  | cons k rest =>
    obtain ⟨p, hp, hok⟩ := bind_eq_ok.mp hok
    obtain ⟨q, hq, hp⟩ := bind_eq_ok.mp hp
    cases hp
    cases hok
    exact ⟨k.ptr, q.1, hq⟩

theorem migrated_elems {gather : Val → Res (List Elem)} {type : UType}
    (htype : type ≠ .string) (hgather : ∀ l, gather m.entry.obj.val = .ok l →
      List.Forall₂ (Faithful env type) l (contents env.cfg m.entry.obj.val))
    (hok : updateAllL env v key s (elemsLoopL gather type .command env v) = .ok (out, marks))
    (hm : m ∈ marks) (hkind : utypeOf m.entry.obj.val ≠ .string)
    (hlive : m.entry.alive env.now = true)
    (hfits : ChainsFit m.key (v.funsFrom m.old) (contents env.cfg m.entry.obj.val)) :
    Migrated env.cfg v m := by
  obtain ⟨hkey, hcur, hold, loc, st, hget, hloop⟩ := updateAllL_mark hok hm
  have hw : Waits env m.entry.obj.vers m.entry := ⟨rfl, hlive, hkind⟩
  have hstands : Stands env m.old loc s := by
    rw [hold, hw.vers s]
    exact ⟨m.entry, hget, hw⟩
  obtain ⟨_, -, hloop⟩ := bind_eq_ok.mp (Option.some.inj hloop)
  obtain ⟨l, hl, hloop⟩ := bind_eq_ok.mp hloop
  rw [hkey] at hfits
  obtain ⟨ts, hts, hall⟩ := turns_of_steps (f := elemStepL .command env v type)
    (fun p p' a x h ha hf hok => elemStepL_turn htype hcur h ha hf hok) (hgather l hl) hstands
    (.inl ⟨rfl, hfits⟩) hloop
  refine .inr ⟨ts, ?_, hall⟩
  have hturns : m.turns = ts := hts
  rw [hturns]

theorem migrated_slots
    (hok : updateAllL env v key s (slotsLoopL .command env v) = .ok (out, marks)) (hm : m ∈ marks)
    (hkind : utypeOf m.entry.obj.val = .zset) (hlive : m.entry.alive env.now = true)
    (ht : Textual env.cfg m.entry.obj.val)
    (hfits : ChainsFit m.key (v.funsFrom m.old) (contents env.cfg m.entry.obj.val)) :
    Migrated env.cfg v m := by
  obtain ⟨hkey, hcur, hold, loc, st, hget, hloop⟩ := updateAllL_mark hok hm
  have hw : Waits env m.entry.obj.vers m.entry := ⟨rfl, hlive, by rw [hkind]; decide⟩
  have hstands : Stands env m.old loc s := by
    rw [hold, hw.vers s]
    exact ⟨m.entry, hget, hw⟩
  unfold slotsLoopL at hloop
  obtain ⟨entries, hentries, hloop⟩ := Option.map_eq_some_iff.mp hloop
  obtain ⟨l, hl, hloop⟩ := bind_eq_ok.mp hloop
  rw [hkey] at hfits
  rw [hkind] at hloop
  obtain ⟨ts, hts, hall⟩ := turns_of_steps (f := slotStepL .command env v .zset)
    (fun p p' a x h ha hf hok => by
      obtain ⟨e, rfl, he, hvers⟩ := ha
      exact slotStepL_turn (by decide) hcur h he hvers hf hok)
    (zsetSlots_faithful hkind ht hentries hl) hstands (.inl ⟨rfl, hfits⟩) hloop
  refine .inr ⟨ts, ?_, hall⟩
  have hturns : m.turns = ts := hts
  rw [hturns]

/-- What moves a tag: a handler that marks the object, for a client or for an update function, or
`kvolve_prevcall_check`, which calls no function, from a version of the namespace. -/
inductive TagMove (env : Env) (v : VersionHash) (s : Store) : Option (HName × Mode) → Mark → Prop
  | marked {h : HName} {mode : Mode} {args : List Arg} {out : List Arg × Store} {marks : List Mark}
      {m : Mark} (hrun : h.runL mode env v args s = .ok (out, marks)) (hm : m ∈ marks) :
      TagMove env v s (some (h, mode)) m
  | pending {d : Nat} {k : Bytes} {e e' : Entry} (hget : s.get d k = some e)
      (hset : (prevcallCheck s).get d k = some e') (hmoved : e'.obj.vers ≠ e.obj.vers)
      (hold : e.obj.vers ∈ v.hist.map Prod.fst) : TagMove env v s none ⟨k, e.obj.vers, e, []⟩

/-- The entries of `tmp_store` that are due stand for containers that have no version of the
namespace yet, or the very one of the entry, or one with nothing to call behind it. -/
def PendingFresh (v : VersionHash) (s : Store) : Prop :=
  ∀ k t d e, s.tmp.lookup k = some (t, d) → s.get d k = some e → utypeOf e.obj.val ≠ .string →
    e.obj.vers ∈ v.hist.map Prod.fst → t = e.obj.vers ∨ v.funsFrom e.obj.vers = []

def MoveFits (cfg : Cfg) (v : VersionHash) (s : Store) : Option (HName × Mode) → Mark → Prop
  | some (h, mode), m => MarkFits cfg v h mode m
  | none, _ => PendingFresh v s

theorem pending_migrated {d : Nat} {k : Bytes} {e e' : Entry} (hget : s.get d k = some e)
    (hset : (prevcallCheck s).get d k = some e') (hmoved : e'.obj.vers ≠ e.obj.vers)
    (hold : e.obj.vers ∈ v.hist.map Prod.fst) (hkind : utypeOf e.obj.val ≠ .string)
    (hfresh : PendingFresh v s) : v.funsFrom e.obj.vers = [] := by
  by_cases hentry : ∃ t, s.tmp.lookup k = some (t, d)
  · obtain ⟨t, ht⟩ := hentry
    refine (hfresh k t d e ht hget hkind hold).resolve_left fun heq => hmoved ?_
    cases (prevcallCheck_sets ht hget).symm.trans hset
    unfold retag
    split
    · rfl
    · exact heq
  · refine absurd ?_ hmoved
    rw [prevcallCheck_other fun t ht => hentry ⟨t, ht⟩, hget] at hset
    cases hset
    rfl

theorem handler_migrated {h : HName} {mode : Mode} {args : List Arg} {out : List Arg × Store}
    {marks : List Mark} (hrun : h.runL mode env v args s = .ok (out, marks)) (hm : m ∈ marks)
    (hkind : utypeOf m.entry.obj.val ≠ .string) (hlive : m.entry.alive env.now = true)
    (hfits : MarkFits env.cfg v h mode m) : Migrated env.cfg v m := by
  obtain hnone | ⟨rfl, hchecks, ht, hchains⟩ := hfits
  · exact .inl hnone
  unfold HName.runL at hrun
  rw [hchecks] at hrun
  cases hval : utypeOf m.entry.obj.val with
  | string => exact absurd hval hkind
  | set =>
    rw [hval] at hrun
    obtain ⟨key, out', hall⟩ := containerL_marks hrun
    exact migrated_elems (by decide) (fun l hl => gatherSet_faithful hval ht hl) hall hm hkind hlive
      hchains
  | list =>
    rw [hval] at hrun
    obtain ⟨key, out', hall⟩ := containerL_marks hrun
    exact migrated_elems (by decide) (fun l hl => gatherList_faithful hval ht hl) hall hm hkind
      hlive hchains
  | hash =>
    rw [hval] at hrun
    obtain ⟨key, out', hall⟩ := containerL_marks hrun
    exact migrated_elems (by decide) (fun l hl => gatherHash_faithful hval ht hl) hall hm hkind
      hlive hchains
  | zset =>
    rw [hval] at hrun
    obtain ⟨key, out', hall⟩ := containerL_marks hrun
    exact migrated_slots hall hm hval hlive ht hchains

/-- **A container whose tag is moved to the current version has been migrated**, in any state of
the server, whatever moves it. -/
theorem marked_migrated {src : Option (HName × Mode)} (hmove : TagMove env v s src m)
    (hkind : utypeOf m.entry.obj.val ≠ .string) (hlive : m.entry.alive env.now = true)
    (hfits : MoveFits env.cfg v s src m) : Migrated env.cfg v m := by
  cases hmove with
  | marked hrun hm => exact handler_migrated hrun hm hkind hlive hfits
  | pending hget hset hmoved hold =>
    exact .inl (pending_migrated hget hset hmoved hold hkind hfits)

end Marks

/-! ## A set across one update -/

def exclaim : UpdFun := fun _ arg =>
  match arg with
  | .str b => { val := some (b ++ [33]) }
  | _ => {}

def exclaimRequest : Request :=
  { request [lit "client", lit "setname", lit "update/a2.so"] with
    ld := ⟨fun _ => some [⟨lit "a", lit "a", 1, 2, [exclaim]⟩], fun _ => 0⟩ }

def smembersAfterLoad (b : Bytes) : Res (VersionHash × List Mark) := do
  let out ← serve {} plainClient (request [lit "sadd", lit "a:s", b]) atVersionOne
  let out ← serve {} plainClient exclaimRequest out.s
  match versionHashLookup out.s.reg (lit "a:s") with
  | none => .error .segv
  | some v => do
    let p ← HName.smembers.runL .command ((request []).env {} 0) v [⟨lit "a:s", 0⟩]
      (prevcallCheck out.s)
    .ok (v, p.2)

def summary (p : VersionHash × List Mark) : List (Entry × Nat × List Nat) :=
  p.2.map fun m => (m.entry, (p.1.funsFrom m.old).length, m.turns.map List.length)

theorem marks_of_summary {r : Res (VersionHash × List Mark)} {x : Entry × Nat × List Nat}
    (h : summary <$> r = .ok [x]) : ∃ v m, r = .ok (v, [m]) ∧ m.entry = x.1 ∧
      (v.funsFrom m.old).length = x.2.1 ∧ m.turns.map List.length = x.2.2 := by
  obtain ⟨⟨v, marks⟩, rfl, hp⟩ := map_eq_ok.mp h
  obtain ⟨m, rfl, hm⟩ := List.map_eq_singleton_iff.mp hp
  subst hm
  exact ⟨v, m, rfl, rfl, rfl, rfl⟩

theorem marked_migrated_smembers :
    ∃ v m, smembersAfterLoad (lit "x") = .ok (v, [m]) ∧ Migrated {} v m := by
  obtain ⟨v, m, hrun, hentry, hfuns, -⟩ := marks_of_summary
    (x := (⟨⟨1, .set .ht (.single (lit "x"))⟩, none⟩, 1, [1])) (r := smembersAfterLoad (lit "x"))
    (by rfl)
  refine ⟨v, m, hrun, ?_⟩
  obtain ⟨f, hf⟩ := List.length_eq_one_iff.mp hfuns
  obtain ⟨out₁, -, hrun⟩ := bind_eq_ok.mp hrun
  obtain ⟨out₂, -, hrun⟩ := bind_eq_ok.mp hrun
  split at hrun
  · cases hrun
  · obtain ⟨⟨out, marks⟩, hp, hrun⟩ := bind_eq_ok.mp hrun
    cases hrun
    refine marked_migrated (.marked hp (List.mem_singleton.mpr rfl)) ?_ ?_ (.inr ⟨rfl, ?_, ?_, ?_⟩)
    · rw [hentry]
      decide
    · rw [hentry]
      rfl
    · rw [hentry]
      rfl
    · rw [hentry]
      intro b hb
      cases List.mem_singleton.mp hb
      rfl
    · rw [hentry, hf]
      exact ⟨⟨fun h => absurd rfl h, trivial⟩, fun _ h => by cases h⟩

/-- `SMEMBERS` marks the set of the one member 5 current, though the function was never
called: a small integer is turned away before its version is looked at. -/
theorem integer_member_marked :
    ∃ v m, smembersAfterLoad (lit "5") = .ok (v, [m]) ∧ utypeOf m.entry.obj.val = .set ∧
      m.entry.alive 0 = true ∧ ¬ Migrated {} v m := by
  obtain ⟨v, m, hrun, hentry, hfuns, hturns⟩ := marks_of_summary
    (x := (⟨⟨1, .set .intset (.single (lit "5"))⟩, none⟩, 1, [0]))
    (r := smembersAfterLoad (lit "5")) (by rfl)
  refine ⟨v, m, hrun, by rw [hentry]; rfl, by rw [hentry]; rfl, ?_⟩
  obtain ⟨f, hf⟩ := List.length_eq_one_iff.mp hfuns
  obtain ⟨calls, hcalls, hlen⟩ := List.map_eq_singleton_iff.mp hturns
  rintro (hnone | ⟨ts, hsub, hall⟩)
  · rw [hf] at hnone
    cases hnone
  · -- the one member has a turn, and the one turn has no calls
    rw [hentry] at hall
    cases hall with
    | cons hx hnil =>
      cases hnil
      rw [hcalls] at hsub
      obtain ⟨checkKey, key, hchain⟩ := hx
      have hmem := hsub.subset (List.mem_singleton.mpr rfl)
      rw [List.mem_singleton.mp hmem, List.length_eq_zero_iff.mp hlen, hf] at hchain
      cases hchain

end SchemaUpdate.KVolve
