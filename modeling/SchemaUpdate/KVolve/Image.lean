import SchemaUpdate.Lib.Replace
import SchemaUpdate.KVolve.OnValue

/-! # Sets and lists under update functions

A set should become the image of its members, and a list the list of the images, under
the functions that are pending. The loop goes through the elements it gathered at the
start, and each function that returns a new buffer has the element replaced by value. -/

namespace SchemaUpdate.KVolve

open SchemaUpdate.Lib SchemaUpdate.Redis

/-! ## Functions of the bytes of an element -/

variable (cfg : Cfg) (φ : Bytes → Option Bytes) (ms : Members) (b : Bytes)
  (R : List (Bytes × Bytes)) (a : ListEnc × NEList Bytes)

/-- An update function that looks at the bytes of an element only: it leaves the pointer alone
or returns a buffer. -/
def textFun : UpdFun := fun _ arg =>
  match arg with
  | .str b => { val := φ b }
  | _ => {}

def image (φs : List (Bytes → Option Bytes)) (x : Bytes) : Bytes :=
  φs.foldl (fun x φ => ((φ x).map cstr).getD x) x

/-- The replacements the functions ask for, from the element `x` on. -/
def trail : List (Bytes → Option Bytes) → Bytes → List (Bytes × Bytes)
  | [], _ => []
  | φ :: φs, x =>
    match φ x with
    | none => trail φs x
    -- what is encoded as an integer is no text for the functions after it
    | some y => (x, cstr y) :: if (encInt (cstr y)).isSome then [] else trail φs (cstr y)

theorem textFun_plain : PlainFun (textFun φ) := by
  intro key a
  cases a <;> exact ⟨rfl, rfl⟩

variable {φs : List (Bytes → Option Bytes)}

theorem textFuns_plain {l : List UpdFun} (h : l = φs.map textFun) : ∀ f ∈ l, PlainFun f := by
  subst h
  intro f hf
  obtain ⟨φ, -, rfl⟩ := List.mem_map.mp hf
  exact textFun_plain φ

section Text

variable {α : Type} (env : Env) {type : UType} (key : Bytes)
  (rep : Option Table → α → Bytes × Bytes → Res α) (own : α → Bytes × Bytes → Option Nat → Option Nat)
  (check : Bytes → Str → α → Res Unit)

/-- One replacement: the new element is encoded and the value written; `own` is what becomes of the
place that the gathered object itself is held at. -/
def replaceOn (tbl : Option Table) (cfg : Cfg) (q : Option Nat × α) (p : Bytes × Bytes) :
    Res (Option Nat × α) := do
  let _ ← encodeNew cfg p.2
  let a ← rep tbl q.2 p
  .ok (own q.2 p q.1, a)

def turnOn (cfg : Cfg) (R : List (Bytes × Bytes)) (e : Elem) (a : α) : Res α := do
  let q ← R.foldlM (replaceOn rep own e.dict cfg) (e.own, a)
  if q.1.isSome then .error .useAfterFree else .ok q.2

/-- What the updater does with a new buffer; `check` is what the commands demand of the old
element. -/
def textUpd (cfg : Cfg) (r : UpdRes) (e : Elem) (a : α) : Res (Elem × α) :=
  match r.val with
  | none => .ok (e, a)
  | some b => do
    let obj ← encodeNew cfg (cstr b)
    let _ ← check (cstr b) e.obj a
    let a' ← rep e.dict a (e.obj.bytes, cstr b)
    .ok ({ e with obj := obj, own := own a (e.obj.bytes, cstr b) e.own }, a')

variable {e : Elem} {n : Int} (htype : type = .set ∨ type = .list)

include htype

theorem elemArg_raw {b : Bytes} (hobj : e.obj = .raw b) : elemArg env type e = .ok (.str b) := by
  obtain rfl | rfl := htype <;> simp only [elemArg, argOf, hobj]

theorem elemArg_int {sh : Bool} (hobj : e.obj = .int n sh) : elemArg env type e = .ok .wild := by
  obtain rfl | rfl := htype <;> simp only [elemArg, argOf, hobj]

theorem foldlM_funOn_int {sh : Bool} (hobj : e.obj = .int n sh)
    (φs : List (Bytes → Option Bytes)) (a : α) :
    (φs.map textFun).foldlM (funOn env type key (textUpd rep own check env.cfg)) (e, a) =
      .ok (e, a) := by
  induction φs with
  | nil => rfl
  | cons φ φs ih =>
    rw [List.map_cons, List.foldlM_cons, funOn, elemArg_int env htype hobj, ok_bind]
    exact ih

omit htype

theorem encodeNew_int {cfg : Cfg} {b : Bytes} (hb : encInt b = some n) {o : Str}
    (h : encodeNew cfg b = .ok o) : o = .int n false := by
  unfold encodeNew tryObjectEncoding at h
  rw [hb] at h
  simp only at h
  cases hsh : (!cfg.lruPolicy && (decide (0 ≤ n) && decide (n < sharedIntegers))) with
  | true =>
    rw [hsh] at h
    cases h
  | false =>
    rw [hsh] at h
    cases h
    rfl

/-- **One element**: the replacements of its trail, one after the other. -/
theorem elemOn_trail (hcheck : ∀ b x a, check b (.raw x) a = .ok ())
    (htype : type = .set ∨ type = .list) (φs : List (Bytes → Option Bytes)) {x : Bytes}
    (hobj : e.obj = .raw x) (hfval : e.fval = none) (a : α) :
    elemOn env type key (textUpd rep own check env.cfg) (φs.map textFun) a e =
      turnOn rep own env.cfg (trail φs x) e a := by
  have hheld : ∀ e : Elem, e.fval = none → e.held = e.own.isSome := fun e he => by
    simp [Elem.held, he]
  unfold elemOn turnOn
  induction φs generalizing e x a with
  | nil => simp only [List.map_nil, List.foldlM_nil, pure_eq_ok, ok_bind, trail, hheld e hfval]
  | cons φ φs ih =>
    rw [List.map_cons, List.foldlM_cons, funOn, elemArg_raw env htype hobj, ok_bind, trail, textUpd]
    simp only [textFun]
    cases hφ : φ x with
    | none => exact ih hobj hfval a
    | some y =>
      simp only [hobj, Str.bytes]
      rw [List.foldlM_cons, replaceOn]
      cases hnew : encodeNew env.cfg (cstr y) with
      | error f => rfl
      | ok o =>
        simp only [ok_bind, hcheck]
        cases hrep : rep e.dict a (x, cstr y) with
        | error f => rfl
        | ok a' =>
          simp only [ok_bind]
          cases henc : encInt (cstr y) with
          | some n =>
            cases encodeNew_int henc hnew
            rw [foldlM_funOn_int env key rep own check htype rfl]
            simp only [ok_bind, Option.isSome_some, if_true, List.foldlM_nil, pure_eq_ok]
            rw [hheld _ (by exact hfval)]
          | none =>
            rw [encodeNew_of_text henc] at hnew
            cases hnew
            exact ih rfl (by exact hfval) a'

/-- Elements that are held nowhere else just have their replacements carried out. -/
theorem turns_free {tbl : Option Table} (hown : ∀ a p, own a p none = none) {cfg : Cfg}
    (φs : List (Bytes → Option Bytes)) (xs : List Bytes) (a : α) :
    xs.foldlM (fun a x => turnOn rep own cfg (trail φs x) { obj := .raw x, dict := tbl } a) a =
      (xs.flatMap (trail φs)).foldlM (fun a p => do
        let _ ← encodeNew cfg p.2
        rep tbl a p) a := by
  have hone : ∀ (R : List (Bytes × Bytes)) a, R.foldlM (replaceOn rep own tbl cfg) (none, a) =
      (Prod.mk none) <$> R.foldlM (fun a p => do
        let _ ← encodeNew cfg p.2
        rep tbl a p) a := by
    intro R
    induction R with
    | nil => exact fun _ => rfl
    | cons p R ih =>
      intro a
      simp only [List.foldlM_cons, replaceOn, hown]
      cases encodeNew cfg p.2 with
      | error f => rfl
      | ok o =>
        simp only [ok_bind]
        cases rep tbl a p with
        | error f => rfl
        | ok a' => exact ih a'
  induction xs generalizing a with
  | nil => rfl
  | cons x xs ih =>
    rw [List.foldlM_cons, List.flatMap_cons, List.foldlM_append, turnOn, hone]
    cases (trail φs x).foldlM (fun a p => do
        let _ ← encodeNew cfg p.2
        rep tbl a p) a with
    | error f => rfl
    | ok a' => exact ih a'

end Text

/-! ## Commands on a value -/

section Commands

variable {env : Env} {key : Bytes} {t : Int} {x : Option Int} {val : Val} {s : Store} {p : KeyProc}
  (h : HeldAs env key t x val s)

include h

theorem HeldAs.modify (ha : (⟨⟨t, val⟩, x⟩ : Entry).alive env.now = true) {w : Val}
    (hp : (p (some val)).2 = .modify w) : HeldAs env key t x w (runProc env key p s) := by
  rw [HeldAs, get_runProc_live p h ha, hp]
  rfl

theorem HeldAs.keep
    (ha : (⟨⟨t, val⟩, x⟩ : Entry).alive env.now = true) (hp : (p (some val)).2 = .keep) :
    HeldAs env key t x val (runProc env key p s) := by
  rw [HeldAs, get_runProc_live p h ha, hp]
  rfl

theorem HeldAs.delete
    (ha : (⟨⟨t, val⟩, x⟩ : Entry).alive env.now = true) (hp : (p (some val)).2 = .delete) :
    deref env key (runProc env key p s) = .error .freed := by
  rw [deref, get_runProc_live p h ha, hp]
  rfl

theorem HeldAs.deref : deref env key s = .ok ⟨⟨t, val⟩, x⟩ := by
  rw [KVolve.deref, h]

theorem HeldAs.derefLive (ha : (⟨⟨t, val⟩, x⟩ : Entry).alive env.now = true) :
    derefLive env key s = .ok ⟨⟨t, val⟩, x⟩ := by
  rw [KVolve.derefLive, h.deref, ok_bind, if_pos ha]

theorem HeldAs.val? : s.val? env.d key = some val := by
  rw [Store.val?, h]
  rfl

theorem HeldAs.checkTable {val₁ val₂ : Val} {s₁ s₂ : Store} (h₁ : HeldAs env key t x val₁ s₁)
    (h₂ : HeldAs env key t x val₂ s₂) (used : Val → Option Nat) (e : Elem) :
    checkTable env key key used e s s₁ s₂ =
      tableCheck e.dict (used val) (used val₁) (used val₂) := by
  simp only [KVolve.checkTable, h.val?, h₁.val?, h₂.val?, Option.bind_some, if_true]

end Commands

/-! ## Sets -/

/-- `SADD` of the new member and then `SREM` of the old one, on a hash table that an iterator
stands on. -/
def replaceMember (tbl : Option Table) (ms : Members) (p : Bytes × Bytes) : Res Members :=
  let add := (setTypeAdd cfg .ht ms p.2).2.1
  match add.remove p.1 with
  | none => .error .freed
  | some ms' => do
    let _ ← tableCheck tbl (some ms.items.length) (some add.items.length) (some ms'.items.length)
    .ok ms'

theorem setTypeAdd_ht : (setTypeAdd cfg .ht ms b).1 = .ht := by
  by_cases hb : b ∈ ms.keys <;> simp [setTypeAdd, hb]

theorem mem_setTypeAdd (enc : SetEnc) (ms : Members) (b y : Bytes) :
    y ∈ (setTypeAdd cfg enc ms b).2.1.items ↔ y = b ∨ y ∈ ms.items := by
  unfold setTypeAdd
  simp only
  split
  · rename_i hb
    have hb' : b ∈ ms.items := by simpa [Coll.keys] using hb
    constructor
    · exact .inr
    · rintro (rfl | hy)
      · exact hb'
      · exact hy
  · rw [(ms.insertAt_perm _ b _).mem_iff, List.mem_append, List.mem_singleton]
    exact or_comm

theorem sremAll_one : (sremAll [b] ms 0).1 = ms.remove b := by
  unfold sremAll
  split
  · cases ms.remove b <;> rfl
  · rename_i hb
    exact (Coll.remove_of_not_mem hb).symm

variable {x : Option Int}

theorem setUpd_updates (env : Env) (key : Bytes) (t : Int)
    (ha : ∀ val, (⟨⟨t, val⟩, x⟩ : Entry).alive env.now = true) :
    UpdatesAs env .set key t x (Val.set .ht)
      (textUpd (replaceMember env.cfg) (fun _ _ own => own) (fun _ _ _ => .ok ()) env.cfg) := by
  intro r e n ms s h
  simp only [changeElem, textUpd]
  cases hval : r.val with
  | none => exact .ok ⟨rfl, rfl, ⟨n, rfl⟩, h⟩
  | some b =>
    simp only [updateSetElem, replaceMember]
    rw [h.derefLive (ha _), ok_bind, h.val?]
    simp only [setElemObj]
    have hadd : HeldAs env key t x (.set .ht (setTypeAdd env.cfg .ht ms (cstr b)).2.1)
        (runProc env key (saddProc env.cfg [cstr b]) s) := by
      refine h.modify (ha _) ?_
      simp only [saddProc, saddAll, setTypeAdd_ht]
    cases hnew : encodeNew env.cfg (cstr b) with
    | error f => exact .error f
    | ok o =>
      simp only [ok_bind]
      cases hrem : (setTypeAdd env.cfg .ht ms (cstr b)).2.1.remove e.obj.bytes with
      | none =>
        have hdel := hadd.delete (ha _) (p := sremProc [e.obj.bytes]) (by
          simp only [sremProc, onSet, sremAll_one, hrem, storeSet])
        rw [hdel]
        exact .error _
      | some ms' =>
        have hrest := hadd.modify (ha _) (p := sremProc [e.obj.bytes]) (w := .set .ht ms') (by
          simp only [sremProc, onSet, sremAll_one, hrem, storeSet])
        rw [hrest.deref, ok_bind, h.checkTable hadd hrest]
        simp only [setUsed]
        cases tableCheck e.dict (some ms.items.length)
            (some (setTypeAdd env.cfg .ht ms (cstr b)).2.1.items.length)
            (some ms'.items.length) with
        | error f => exact .error f
        | ok _ => exact .ok ⟨rfl, rfl, ⟨n, rfl⟩, hrest⟩

/-- No replacement empties the set or moves the table that the iterator stands on. -/
def SetFits (tbl : Table) : Finset Bytes → List (Bytes × Bytes) → Prop
  | _, [] => True
  | S, p :: R => (replaced S p).Nonempty ∧
      tbl.keeps S.card (insert p.2 S).card (replaced S p).card = true ∧
      SetFits tbl (replaced S p) R

theorem Members.card (ms : Members) : ms.items.toFinset.card = ms.items.length :=
  List.toFinset_card_of_nodup (by simpa using ms.nodup)

/-- The replacements are carried out on the members, or fail, as they are on a plain set. -/
theorem replaceMember_eq (tbl : Table) (p : Bytes × Bytes) :
    (∃ ms', replaceMember cfg tbl ms p = .ok ms' ∧
      ms'.items.toFinset = replaced ms.items.toFinset p ∧
      (replaced ms.items.toFinset p).Nonempty ∧
      tbl.keeps ms.items.toFinset.card (insert p.2 ms.items.toFinset).card
        (replaced ms.items.toFinset p).card = true) ∨
    ((∃ f, replaceMember cfg tbl ms p = .error f) ∧
      ¬ ((replaced ms.items.toFinset p).Nonempty ∧
        tbl.keeps ms.items.toFinset.card (insert p.2 ms.items.toFinset).card
          (replaced ms.items.toFinset p).card = true)) := by
  have hadd : (setTypeAdd cfg .ht ms p.2).2.1.items.toFinset = insert p.2 ms.items.toFinset := by
    ext y
    simp only [List.mem_toFinset, mem_setTypeAdd, Finset.mem_insert]
  simp only [replaceMember]
  cases hrem : (setTypeAdd cfg .ht ms p.2).2.1.remove p.1 with
  | none =>
    refine .inr ⟨⟨.freed, rfl⟩, fun h => ?_⟩
    obtain ⟨y, hy⟩ := h.1
    rw [replaced, ← hadd, Finset.mem_erase, List.mem_toFinset] at hy
    exact hy.1 (Coll.remove_eq_none hrem hy.2)
  | some ms' =>
    have hset : ms'.items.toFinset = replaced ms.items.toFinset p := by
      ext y
      rw [replaced, ← hadd, Finset.mem_erase, List.mem_toFinset, List.mem_toFinset,
        Coll.mem_of_remove hrem, and_comm]
      rfl
    rw [← hset, ← hadd, Members.card, Members.card, Members.card]
    cases hkeeps : tbl.keeps ms.items.length (setTypeAdd cfg .ht ms p.2).2.1.items.length
        ms'.items.length with
    | true => exact .inl ⟨ms', by simp [tableCheck, hkeeps], rfl,
        List.toFinset_nonempty_iff _ |>.mpr ms'.ne, rfl⟩
    | false => exact .inr ⟨⟨.assertFail, by simp [tableCheck, hkeeps]⟩, fun h => Bool.false_ne_true h.2⟩

theorem replaceMembers_iff (tbl : Table) (T : Finset Bytes) :
    (∃ ns, R.foldlM (fun ms p => do
        let _ ← encodeNew cfg p.2
        replaceMember cfg tbl ms p) ms = .ok ns ∧ ns.items.toFinset = T) ↔
      (∀ p ∈ R, ∃ o, encodeNew cfg p.2 = .ok o) ∧ SetFits tbl ms.items.toFinset R ∧
        R.foldl replaced ms.items.toFinset = T := by
  induction R generalizing ms with
  | nil => simp [SetFits, pure_eq_ok]
  | cons p R ih =>
    rw [List.foldlM_cons, List.forall_mem_cons, SetFits, List.foldl_cons]
    cases encodeNew cfg p.2 with
    | error f => simp
    | ok o =>
      simp only [ok_bind]
      rcases replaceMember_eq cfg ms tbl p with ⟨ms', hms', hset, hne, hkeeps⟩ | ⟨⟨f, hf⟩, hno⟩
      · rw [hms', ok_bind, ih ms', hset]
        simp [hne, hkeeps]
      · rw [hf]
        simp only [error_bind, reduceCtorEq, false_and, exists_false, false_iff, not_and]
        exact fun _ hfits => absurd ⟨hfits.1, hfits.2.1⟩ hno

theorem gatherSet_text {cfg : Cfg} {tbl : Table} {ms : Members}
    (h : ∀ b ∈ ms.items, string2ll b = none) :
    gatherSet cfg tbl (.set .ht ms) =
      .ok (ms.items.map fun b => { obj := .raw b, dict := some tbl }) := by
  refine congrArg Except.ok (List.map_congr_left fun b hb => ?_)
  rw [tryObjectEncoding_text (h b hb)]

theorem encodeNew_ok_iff :
    (∃ o, encodeNew cfg b = .ok o) ↔ (Val.str (tryObjectEncoding cfg b)).isShared = false := by
  unfold encodeNew
  cases tryObjectEncoding cfg b with
  | raw b => simp [Val.isShared]
  | int n sh => cases sh <;> simp [Val.isShared]

theorem updateAllSet_trail {env : Env} {v : VersionHash} {key : Bytes} {t : Int} {ms : Members}
    {s : Store} (h : Reached env v key t x (.set .ht ms) s)
    (hms : ∀ b ∈ ms.items, string2ll b = none) (hfuns : v.funsFrom t = φs.map textFun) :
    RelRes (fun out ns => out.2.1 = key ∧ HeldAs env key v.cur x (.set .ht ns) out.2.2)
      (updateAllSet checkUpdateKvPair env v key s)
      (releasedOn (Val.set .ht) ms ((ms.items.flatMap (trail φs)).foldlM (fun ms p => do
        let _ ← encodeNew env.cfg p.2
        replaceMember env.cfg (env.tables key) ms p) ms)) := by
  refine updateAll_on (fun _ => by simp [utypeOf]) h fun loc s₁ hheld hmoved hheld₁ =>
    ⟨_, rfl, LoopOn.released ?_⟩
  rw [gatherSet_text hms, ok_bind]
  have hrun := elems_first (setUpd_updates env key t fun _ => h.alive) (textFuns_plain hfuns)
    h.outdated (fun _ => by simp [utypeOf]) (fun _ => h.alive)
    (l := ms.items.map fun b => { obj := .raw b, dict := some (env.tables key) })
    (by simpa using ms.ne) (by simp) (fun _ _ _ _ _ => rfl) hheld hmoved ⟨rfl, rfl, rfl, hheld₁⟩
  have hvalue : (ms.items.map fun b => { obj := .raw b, dict := some (env.tables key) }).foldlM
      (elemOn env .set key (textUpd (replaceMember env.cfg) (fun _ _ own => own)
        (fun _ _ _ => .ok ()) env.cfg) (φs.map textFun)) ms =
      (ms.items.flatMap (trail φs)).foldlM (fun ms p => do
        let _ ← encodeNew env.cfg p.2
        replaceMember env.cfg (env.tables key) ms p) ms := by
    rw [List.foldlM_map]
    exact (foldlM_congr fun a b _ => elemOn_trail env key _ _ _ (fun _ _ _ => rfl) (.inl rfl) φs
      rfl rfl a).trans (turns_free _ _ (fun _ _ => rfl) φs ms.items ms)
  rw [hfuns, hvalue] at hrun
  exact hrun

def twoMembers : Members := ⟨[lit "x", lit "y"], by decide, by decide⟩

def shift : Option Bytes :=
  if b = lit "x" then some (lit "y") else if b = lit "y" then some (lit "z") else none

/-- `LINSERT` of the new element before the old one and then `LREM` of the old one. -/
def replaceElem (p : Bytes × Bytes) : Res (ListEnc × NEList Bytes) :=
  let enc := listTypeTryConversion cfg a.1 p.2
  .ok (if p.1 ∈ a.2.1 ∧ a.2.1.length + 1 > cfg.listMaxZiplistEntries then .linkedlist else enc,
    ⟨a.2.1.replace p.1 p.2, replace_ne_nil a.2.2 _ _⟩)

theorem storeList_cons (enc : ListEnc) {l : List Bytes} (h : l ≠ []) :
    storeList true (enc, l) = .modify (.list enc ⟨l, h⟩) := by
  simp only [storeList, NEList.ofList?, dif_pos h, if_true]

section List

variable {env : Env} {key : Bytes} {t : Int} {x : Option Int} {enc : ListEnc} {xs : NEList Bytes}
  {s : Store}

theorem HeldAs.replaceElem (h : HeldAs env key t x (.list enc xs) s)
    (ha : ∀ val, (⟨⟨t, val⟩, x⟩ : Entry).alive env.now = true) (old new : Bytes) :
    ∃ a, KVolve.replaceElem env.cfg (enc, xs) (old, new) = .ok a ∧
      HeldAs env key t x (.list a.1 a.2)
        (runProc env key (lremOneProc old)
          (runProc env key (linsertBeforeProc env.cfg old new) s)) := by
  refine ⟨_, rfl, ?_⟩
  by_cases hold : old ∈ xs.1
  · have hne : xs.1.takeWhile (· ≠ old) ++ new :: xs.1.dropWhile (· ≠ old) ≠ [] := by simp
    have hin := h.modify (ha _) (p := linsertBeforeProc env.cfg old new)
      (by simp only [linsertBeforeProc, onList, if_pos hold, length_insert_before,
        storeList_cons _ hne]; rfl)
    refine hin.modify (ha _) ?_
    simp only [lremOneProc, onList, if_pos (mem_insert_before new hold),
      erase_insert_before new hold, storeList_cons _ (replace_ne_nil xs.2 old new), hold, true_and]
  · have hin := h.modify (ha _) (p := linsertBeforeProc env.cfg old new)
      (by simp only [linsertBeforeProc, onList, if_neg hold, storeList_cons _ xs.2]; rfl)
    have hout := hin.keep (ha _) (p := lremOneProc old)
      (by simp only [lremOneProc, onList, if_neg hold])
    simpa only [hold, false_and, if_false, List.replace_of_not_mem hold] using hout

end List

theorem listUpd_updates (env : Env) (key : Bytes) (t : Int)
    (ha : ∀ val, (⟨⟨t, val⟩, x⟩ : Entry).alive env.now = true) :
    UpdatesAs env .list key t x (fun a => Val.list a.1 a.2)
      (textUpd (fun _ => replaceElem env.cfg)
        (fun a p own => listOwn p.1 p.2 own (some (.list a.1 a.2)))
        (fun b o a => checkPivot env.cfg b o (some (.list a.1 a.2))) env.cfg) := by
  intro r e n a s h
  simp only [changeElem, textUpd]
  cases hval : r.val with
  | none => exact .ok ⟨rfl, rfl, ⟨n, rfl⟩, h⟩
  | some b =>
    simp only [updateListElem]
    rw [h.derefLive (ha _), ok_bind, h.val?]
    cases hnew : encodeNew env.cfg (cstr b) with
    | error f => exact .error f
    | ok o =>
      simp only [ok_bind]
      cases hpivot : checkPivot env.cfg (cstr b) e.obj (some (.list a.1 a.2)) with
      | error f => exact .error f
      | ok u =>
        obtain ⟨a', ha', hheld⟩ := h.replaceElem ha e.obj.bytes (cstr b)
        simp only [ok_bind]
        rw [hheld.deref, ha']
        exact .ok ⟨rfl, rfl, ⟨n, rfl⟩, hheld⟩

/-- The object at the place `i` is taken out by one of the replacements. -/
def Loosened (i : Nat) : List Bytes → List (Bytes × Bytes) → Prop
  | _, [] => False
  | l, p :: R => (i = l.idxOf p.1 ∧ p.2 ≠ p.1) ∨ Loosened i (l.replace p.1 p.2) R

/-- Each element's own object, from the place `n` on, is taken out by its own replacements. -/
def AllLoosened (φs : List (Bytes → Option Bytes)) : Nat → List Bytes → List Bytes → Prop
  | _, [], _ => True
  | n, x :: xs, l => Loosened n l (trail φs x) ∧
      AllLoosened φs (n + 1) xs ((trail φs x).foldl (fun l p => l.replace p.1 p.2) l)

def ownPlace (a : ListEnc × NEList Bytes) (p : Bytes × Bytes) (own : Option Nat) : Option Nat :=
  listOwn p.1 p.2 own (some (.list a.1 a.2))

/-- The replacements of one element end with the list they make of a plain one, and leave the
element's own object in it unless one of them takes it out. -/
theorem replaceElems_eq (own : Option Nat) (tbl : Option Table)
    (hR : ∀ p ∈ R, ∃ o, encodeNew cfg p.2 = .ok o) :
    ∃ q, R.foldlM (replaceOn (fun _ => replaceElem cfg) ownPlace tbl cfg) (own, a) = .ok q ∧
      q.2.2.1 = R.foldl (fun l p => l.replace p.1 p.2) a.2.1 ∧
      (q.1 = none ↔ ∀ i, own = some i → Loosened i a.2.1 R) := by
  induction R generalizing a own with
  | nil =>
    refine ⟨(own, a), rfl, rfl, ?_⟩
    cases own <;> simp [Loosened]
  | cons p R ih =>
    obtain ⟨⟨o, ho⟩, hR⟩ := List.forall_mem_cons.mp hR
    obtain ⟨a', ha', hlist⟩ : ∃ a', replaceElem cfg a p = .ok a' ∧
        a'.2.1 = a.2.1.replace p.1 p.2 := ⟨_, rfl, rfl⟩
    obtain ⟨q, hq, hqlist, hown⟩ := ih a' (ownPlace a p own) hR
    refine ⟨q, ?_, by rw [hqlist, hlist, List.foldl_cons], hown.trans ?_⟩
    · rw [List.foldlM_cons, replaceOn, ho, ok_bind]
      simp only [ha', ok_bind]
      exact hq
    · rw [hlist]
      cases own with
      | none => simp [ownPlace, listOwn]
      | some i =>
        by_cases hout : i = a.2.1.idxOf p.1 ∧ p.2 ≠ p.1
        · simp [ownPlace, listOwn, Loosened, hout]
        · simp [ownPlace, listOwn, Loosened, hout]

theorem turnOn_error {e : Elem} (hR : ¬ ∀ p ∈ R, ∃ o, encodeNew cfg p.2 = .ok o) :
    ∃ f, turnOn (fun _ => replaceElem cfg) ownPlace cfg R e a = .error f := by
  have hfold : ∀ own a, ∃ f, R.foldlM (replaceOn (fun _ => replaceElem cfg) ownPlace e.dict cfg)
      (own, a) = .error f := by
    induction R with
    | nil => simp at hR
    | cons p R ih =>
      intro own a
      rw [List.foldlM_cons, replaceOn]
      cases ho : encodeNew cfg p.2 with
      | error f => exact ⟨f, rfl⟩
      | ok o =>
        refine ih (fun h => hR ?_) _ _
        exact List.forall_mem_cons.mpr ⟨⟨o, ho⟩, h⟩
  obtain ⟨f, hf⟩ := hfold e.own a
  exact ⟨f, by rw [turnOn, hf, error_bind]⟩

theorem replaceElems_iff (enc : ListEnc) (φs : List (Bytes → Option Bytes)) (xs : List Bytes)
    (n : Nat) (T : List Bytes) :
    (∃ b, (xs.mapIdx fun i => listElem enc (i + n)).foldlM (fun a e =>
        turnOn (fun _ => replaceElem cfg) ownPlace cfg (trail φs e.obj.bytes) e a) a = .ok b ∧
      b.2.1 = T) ↔
    (∀ p ∈ xs.flatMap (trail φs), ∃ o, encodeNew cfg p.2 = .ok o) ∧
      (xs.flatMap (trail φs)).foldl (fun l p => l.replace p.1 p.2) a.2.1 = T ∧
      (enc = .linkedlist → AllLoosened φs n xs a.2.1) := by
  induction xs generalizing a n with
  | nil => simp [AllLoosened, pure_eq_ok]
  | cons x xs ih =>
    rw [List.mapIdx_cons, List.foldlM_cons, List.flatMap_cons, List.foldl_append]
    simp only [List.forall_mem_append, AllLoosened]
    by_cases hR : ∀ p ∈ trail φs x, ∃ o, encodeNew cfg p.2 = .ok o
    · obtain ⟨q, hq, hlist, hown⟩ := replaceElems_eq cfg (trail φs x) a
        (listElem enc (0 + n) x).own (listElem enc (0 + n) x).dict hR
      have hturn : turnOn (fun _ => replaceElem cfg) ownPlace cfg
          (trail φs (listElem enc (0 + n) x).obj.bytes) (listElem enc (0 + n) x) a =
          if q.1.isSome then .error .useAfterFree else .ok q.2 := by
        rw [turnOn]
        exact congrArg (· >>= _) hq
      have hown' : q.1 = none ↔ (enc = .linkedlist → Loosened n a.2.1 (trail φs x)) := by
        rw [hown]
        simp [listElem]
      rw [hturn]
      cases hq1 : q.1 with
      | some i =>
        rw [hq1] at hown'
        simp only [reduceCtorEq, false_iff, Classical.not_imp] at hown'
        simp [hown'.1, hown'.2]
      | none =>
        have hloose := hown'.mp hq1
        simp only [Option.isSome_none, Bool.false_eq_true, if_false, ok_bind]
        have hplace : (fun i => listElem enc (i + 1 + n)) = fun i => listElem enc (i + (n + 1)) := by
          funext i
          rw [Nat.add_assoc, Nat.add_comm 1 n]
        rw [hplace, ih q.2 (n + 1), hlist, and_iff_right hR]
        refine and_congr_right fun _ => and_congr_right fun _ => forall_congr' fun henc => ?_
        exact (and_iff_right (hloose henc)).symm
    · obtain ⟨f, hf⟩ := turnOn_error cfg (trail φs x) a (e := listElem enc (0 + n) x) hR
      refine iff_of_false ?_ fun h => hR h.1.1
      rintro ⟨b, hb, -⟩
      rw [show (trail φs (listElem enc (0 + n) x).obj.bytes) = trail φs x from rfl, hf] at hb
      cases hb

theorem updateAllList_trail {env : Env} {v : VersionHash} {key : Bytes} {t : Int} {enc : ListEnc}
    {xs : NEList Bytes} {s : Store} (h : Reached env v key t x (.list enc xs) s)
    (hxs : ∀ b ∈ xs.1, string2ll b = none) (hfuns : v.funsFrom t = φs.map textFun) :
    RelRes (fun out a => out.2.1 = key ∧ HeldAs env key v.cur x (.list a.1 a.2) out.2.2)
      (updateAllList checkUpdateKvPair env v key s)
      ((xs.1.mapIdx (listElem enc)).foldlM (fun a e =>
        turnOn (fun _ => replaceElem env.cfg) ownPlace env.cfg (trail φs e.obj.bytes) e a)
        (enc, xs)) := by
  have hraw : ∀ e ∈ xs.1.mapIdx (listElem enc), (∃ b, e.obj = .raw b) ∧ e.fval = none := by
    intro e he
    obtain ⟨i, hi, rfl⟩ := List.mem_mapIdx.mp he
    exact ⟨⟨_, rfl⟩, rfl⟩
  refine updateAll_on (a := (enc, xs)) (fun _ => by simp [utypeOf]) h
    fun loc s₁ hheld hmoved hheld₁ => ⟨_, rfl, ?_⟩
  rw [elemsLoop, gatherList_text hxs, ok_bind]
  have hrun := elems_first (a := (enc, xs)) (listUpd_updates env key t fun _ => h.alive)
    (textFuns_plain hfuns) h.outdated (fun _ => by simp [utypeOf]) (fun _ => h.alive)
    (l := xs.1.mapIdx (listElem enc)) (by simpa using xs.2) (fun e he => (hraw e he).1)
    (fun _ _ _ _ _ => rfl) hheld hmoved ⟨rfl, rfl, rfl, hheld₁⟩
  have hvalue : (xs.1.mapIdx (listElem enc)).foldlM (elemOn env .list key
      (textUpd (fun _ => replaceElem env.cfg) ownPlace
        (fun b o a => checkPivot env.cfg b o (some (.list a.1 a.2))) env.cfg) (φs.map textFun))
      (enc, xs) = (xs.1.mapIdx (listElem enc)).foldlM (fun a e =>
        turnOn (fun _ => replaceElem env.cfg) ownPlace env.cfg (trail φs e.obj.bytes) e a)
        (enc, xs) := foldlM_congr fun a e he => by
    obtain ⟨⟨b, hobj⟩, hfval⟩ := hraw e he
    rw [elemOn_trail env key _ _ _ (fun _ _ _ => rfl) (.inr rfl) φs hobj hfval]
    exact (congrArg (fun b => turnOn (fun _ => replaceElem env.cfg) ownPlace env.cfg (trail φs b) e a)
      (show b = e.obj.bytes by rw [hobj]; rfl))
  rw [hfuns] at hrun
  exact hvalue ▸ hrun

def twoElements : NEList Bytes := ⟨[lit "x", lit "y"], by decide⟩

end SchemaUpdate.KVolve
