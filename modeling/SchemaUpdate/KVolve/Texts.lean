import SchemaUpdate.KVolve.Alike
import SchemaUpdate.KVolve.Marks

/-! # Elements that are texts

An element that does not read as an integer is handed to the update functions as a
text in every encoding of its container. What one such element does in the loop over
a container, and what the update of a field amounts to. -/

namespace SchemaUpdate.KVolve

open SchemaUpdate.Lib SchemaUpdate.Redis

/-! ## A changed field -/

theorem find?_hashTypeSet (cfg : Cfg) (enc : HashEnc) (fs : Fields) (f b g : Bytes) :
    (hashTypeSet cfg enc fs f b).2.1.find? g = if g = f then some (f, b) else fs.find? g := by
  unfold hashTypeSet
  split
  · rename_i hf
    exact fs.find?_replace (f, b) hf g
  · rename_i hf
    exact fs.find?_insertAt _ (f, b) hf g

theorem get_runProc_live {env : Env} {key : Bytes} {s : Store} {e : Entry} (p : KeyProc)
    (hs : s.get env.d key = some e) (ha : e.alive env.now = true) :
    (runProc env key p s).get env.d key = (p (some e.obj.val)).2.apply 0 (some e) := by
  rw [get_runProc, if_pos rfl, hs]
  simp only [Option.filter, ha, if_true, Option.map_some]

theorem cstr_cstr (b : Bytes) : cstr (cstr b) = cstr b := cstr_eq_self (cstr_nulFree b)

section Hash

variable {env : Env} {t : Int} {loc : Bytes} {s : Store}

theorem Stands.deref (h : Stands env t loc s) :
    ∃ e, deref env loc s = .ok e ∧ derefLive env loc s = .ok e ∧ Waits env t e := by
  obtain ⟨e, he, hw⟩ := h
  have hd : KVolve.deref env loc s = .ok e := by rw [KVolve.deref, he]
  refine ⟨e, hd, ?_, hw⟩
  rw [derefLive, hd, ok_bind, if_pos hw.2.1]

variable {b : Bytes}

theorem encodeNew_of_text {cfg : Cfg} (hb : encInt b = none) : encodeNew cfg b = .ok (.raw b) := by
  unfold encodeNew tryObjectEncoding
  rw [hb]

theorem hashElemObj_text {cfg : Cfg} {f : Bytes} (hf : encInt f = none) (o : Option Val) :
    hashElemObj cfg f b o = .ok (.raw f) := by
  have hfield : ∀ enc, encodeField cfg enc f b = .ok (.raw f) := by
    intro enc
    unfold encodeField
    split
    · exact encodeNew_of_text hf
    · rfl
  unfold hashElemObj
  split
  · exact hfield _
  · exact hfield _
  · rfl

theorem newField_text {r : UpdRes} {e : Elem} {f : Bytes} (hobj : e.obj = .raw f) :
    ∃ x, newField r e = .ok x ∧ cstr x = cstr (r.val.getD f) := by
  unfold newField
  cases r.val with
  | some x => exact ⟨x, rfl, rfl⟩
  | none =>
    rw [hobj]
    exact ⟨cstr f, rfl, cstr_cstr f⟩

theorem newFieldVal_text {r : UpdRes} {e : Elem} (hfval : e.fval = some (.raw b)) :
    ∃ y, newFieldVal r e = .ok y ∧ cstr y = cstr (r.fval.getD b) := by
  unfold newFieldVal
  rw [hfval]
  cases r.fval with
  | some y => exact ⟨y, rfl, rfl⟩
  | none => exact ⟨cstr b, rfl, cstr_cstr b⟩

def IsField (e : Elem) (f b : Bytes) : Prop := e.obj = .raw f ∧ e.fval = some (.raw b)

end Hash

/-! ## The loop -/

section Loop

variable {env : Env} {v : VersionHash} {t : Int} {key loc : Bytes} {s : Store}

def moved (env : Env) (v : VersionHash) (t : Int) (st : LSt) : Res LSt := do
  let st' ← moveFirst env v st.first t ⟨st.key, st.loc, .stored, st.s⟩
  .ok ⟨false, st'.key, st'.loc, st'.s⟩

theorem moveFirst_moved (first : Bool) (e : Elem) :
    moveFirst env v first t ⟨key, loc, .elem e, s⟩ = (do
      let st ← moved env v t ⟨first, key, loc, s⟩
      .ok ⟨st.key, st.loc, .elem e, st.s⟩) := by
  unfold moved moveFirst
  split
  · cases namespaceUpdate env v key s <;> rfl
  · rfl

theorem elemStep_text (ht : t ≠ v.cur) {a : LSt} (h : Stands env t a.loc a.s) {e : Elem} {x : Bytes}
    (hobj : e.obj = .raw x) (type : UType) :
    elemStep checkUpdateKvPair env v type a e = (do
      let m ← moved env v t a
      let n ← (v.pending t).foldlM (updateTo (updRedisCall env) env v a.first type)
        ⟨m.key, m.loc, .elem { e with vers := t }, m.s⟩
      let _ ← n.free env
      .ok ⟨false, n.key, n.loc, n.s⟩) := by
  obtain ⟨c, hc, -, hw⟩ := h.deref
  have htag : tagElem (a.s.vers c.obj) e a.s = ({ e with vers := t }, a.s) := by
    simp only [tagElem, hobj, hw.vers a.s]
  unfold elemStep
  rw [hc, ok_bind, htag]
  simp only [checkUpdateKvPair, checkUpdateWith, migrateSubject, hobj, Str.isSmall, if_neg ht,
    Bool.false_eq_true, if_false, moveFirst_moved]
  cases hm : moved env v t a with
  | error x => rfl
  | ok m => simp only [ok_bind, bind_assoc]

end Loop

/-! ## Containers -/

theorem ofZiplist_text {b : Bytes} (hb : string2ll b = none) : ofZiplist b = .raw b := by
  rw [ofZiplist, hb]

theorem tryObjectEncoding_text {b : Bytes} (hb : string2ll b = none) (cfg : Cfg) :
    tryObjectEncoding cfg b = .raw b := by
  have henc : encInt b = none := by
    unfold encInt
    split
    · exact hb
    · rfl
  rw [tryObjectEncoding, henc]

/-- The element object of a text in a list; a linked list hands out its own objects. -/
def listElem (enc : ListEnc) (i : Nat) (b : Bytes) : Elem :=
  { obj := .raw b, own := if enc = .linkedlist then some i else none }

theorem gatherList_text {cfg : Cfg} {enc : ListEnc} {xs : NEList Bytes}
    (h : ∀ b ∈ xs.1, string2ll b = none) :
    gatherList cfg (.list enc xs) = .ok (xs.1.mapIdx (listElem enc)) := by
  cases enc with
  | ziplist =>
    refine congrArg Except.ok (List.ext_getElem (by simp) fun i h₁ h₂ => ?_)
    simp only [List.getElem_map, List.getElem_mapIdx, ofZiplist_text (h _ (List.getElem_mem _))]
    rfl
  | linkedlist =>
    refine congrArg Except.ok (List.ext_getElem (by simp) fun i h₁ h₂ => ?_)
    simp only [List.getElem_mapIdx, tryObjectEncoding_text (h _ (List.getElem_mem _))]
    rfl

/-- The element object of a field and its value that are texts; a hash table hands out its own
objects. -/
def fieldElem (enc : HashEnc) (tbl : Table) (p : Bytes × Bytes) : Elem :=
  { obj := .raw p.1, fval := some (.raw p.2), own := if enc = .ht then some 0 else none,
    dict := if enc = .ht then some tbl else none }

theorem gatherHash_text {cfg : Cfg} {tbl : Table} {enc : HashEnc} {fs : Fields}
    (h : ∀ p ∈ fs.items, string2ll p.1 = none ∧ string2ll p.2 = none) :
    gatherHash cfg tbl (.hash enc fs) = .ok (fs.items.map (fieldElem enc tbl)) := by
  cases enc with
  | ziplist =>
    refine (gatherPairs_pairs fs.items).trans (congrArg Except.ok (List.map_congr_left ?_))
    intro p hp
    rw [ofZiplist_text (h p hp).1, ofZiplist_text (h p hp).2]
    rfl
  | ht =>
    refine congrArg Except.ok (List.map_congr_left fun p hp => ?_)
    rw [tryObjectEncoding_text (h p hp).1, tryObjectEncoding_text (h p hp).2]
    rfl

end SchemaUpdate.KVolve
