import SchemaUpdate.Lib.Decimal
import SchemaUpdate.KVolve.Rdb

/-! # What a dump restores

The round trip of `rdbSave` and `rdbLoad`, from lengths and strings up to the
whole file, and what becomes of the version fields on the way. -/

namespace SchemaUpdate.KVolve

open SchemaUpdate.Lib SchemaUpdate.Redis

/-! ## Lengths and integers -/

theorem len6 : ∀ n < 64, (UInt8.ofNat n &&& 0xC0) >>> 6 = 0 ∧ (UInt8.ofNat n &&& 0x3F).toNat = n := by
  decide

theorem len14 : ∀ n < 64, ((UInt8.ofNat n ||| 0x40) &&& 0xC0) >>> 6 = 1 ∧
    ((UInt8.ofNat n ||| 0x40) &&& 0x3F).toNat = n := by
  decide

theorem rdbLoadLen_save {n : Nat} (h : n < lenErr) : Reads rdbLoadLen (rdbSaveLen n) (false, n) := by
  have hmod : n % 2 ^ 32 = n := Nat.mod_eq_of_lt (lt_of_lt_of_le h (by decide))
  unfold rdbSaveLen rdbLoadLen
  simp only [hmod]
  split
  · rename_i h6
    obtain ⟨ht, hv⟩ := len6 n h6
    refine .cons ?_
    rw [ht, if_neg (by decide), if_pos rfl, hv]
    exact .pure _
  · split
    · rename_i h14
      obtain ⟨ht, hv⟩ := len14 (n / 2 ^ 8) (by omega)
      refine .cons ?_
      rw [ht, if_neg (by decide), if_neg (by decide), if_pos rfl]
      refine .cons ?_
      rw [hv, UInt8.toNat_ofNat', Nat.div_add_mod']
      exact .pure _
    · refine .cons ?_
      rw [if_neg (by decide), if_neg (by decide), if_neg (by decide)]
      refine (Reads.bytes (by simp)).andThen ?_
      have hval : leNat (leBytes 4 n) = n := by
        have hmod' := leNat_leBytes 4 n
        omega
      rw [List.reverse_reverse, hval, if_neg (Nat.ne_of_lt h)]
      exact .pure _

theorem rdbLoadLen_special {x : UInt8} (h : (x &&& 0xC0) >>> 6 = 3) :
    Reads rdbLoadLen [x] (true, (x &&& 0x3F).toNat) := by
  unfold rdbLoadLen
  refine .cons ?_
  rw [if_pos h]
  exact .pure _

def smallInt (b : Bytes) : Option Int := (string2ll b).filter fun n => 0 ≤ n && n < sharedIntegers

variable {n : Int} {v : Val}

theorem smallInt_eq_some {b : Bytes} :
    smallInt b = some n ↔ ll2string n = b ∧ 0 ≤ n ∧ n < sharedIntegers := by
  rw [smallInt, Option.filter_eq_some_iff]
  constructor
  · rintro ⟨h, hn⟩
    simp only [Bool.and_eq_true, decide_eq_true_eq] at hn
    exact ⟨ll2string_of_string2ll h, hn⟩
  · rintro ⟨rfl, h0, h1⟩
    have hhi : n < 2 ^ 63 := lt_of_lt_of_le h1 (by decide)
    refine ⟨string2ll_ll2string (by omega) hhi, ?_⟩
    simp [h0, h1]

def intObject (encode : Bool) (n : Int) : Str :=
  if encode then createStringObjectFromLongLong n else .raw (ll2string n)

theorem intObject_bytes (encode : Bool) (n : Int) : (intObject encode n).bytes = ll2string n := by
  cases encode <;> rfl

section Strings

variable {cfg : Cfg} (lib : RdbLib cfg) (encode : Bool)

theorem load_width {x : UInt8} {w : Nat} {v : Int} (hx : (x &&& 0xC0) >>> 6 = 3)
    (hk : (x &&& 0x3F).toNat ≤ 2)
    (hw : (if (x &&& 0x3F).toNat = 0 then 1 else if (x &&& 0x3F).toNat = 1 then 2 else 4) = w + 1)
    (hlo : -(256 ^ (w + 1) / 2) ≤ v) (hhi : v < 256 ^ (w + 1) / 2) :
    Reads (rdbGenericLoadStringObject lib encode) (x :: leBytes (w + 1) v) (intObject encode v) := by
  unfold rdbGenericLoadStringObject
  rw [← List.singleton_append]
  refine (rdbLoadLen_special hx).bind ?_
  rw [if_pos rfl, if_pos hk]
  unfold rdbLoadIntegerObject
  simp only [hw]
  refine (Reads.bytes (leBytes_length _ _)).andThen ?_
  rw [leInt_leBytes hlo hhi]
  exact .pure _

variable {enc : Bytes} {n : Int} {o : Str}

theorem load_integer {v : Int} (h : rdbEncodeInteger v = some enc) :
    Reads (rdbGenericLoadStringObject lib encode) enc (intObject encode v) := by
  unfold rdbEncodeInteger at h
  split at h
  · cases h
    exact load_width lib encode (by decide) (by decide) rfl (by omega) (by omega)
  · split at h
    · cases h
      exact load_width lib encode (by decide) (by decide) rfl (by omega) (by omega)
    · split at h
      · cases h
        exact load_width lib encode (by decide) (by decide) rfl (by omega) (by omega)
      · cases h

variable {b : Bytes}

theorem load_verbatim (h : b.length < lenErr) :
    Reads (rdbGenericLoadStringObject lib encode) (rdbSaveLen b.length ++ b) (.raw b) := by
  unfold rdbGenericLoadStringObject
  refine (rdbLoadLen_save h).bind ?_
  rw [if_neg (by simp)]
  exact (Reads.bytes rfl).andThen (.pure _)

theorem load_lzf (hlen : b.length < lenErr) (h : lzfForm lib b = some enc) :
    Reads (rdbGenericLoadStringObject lib encode) enc (.raw b) := by
  unfold lzfForm rdbSaveLzfStringObject at h
  split at h
  · split at h
    · cases h
    · obtain ⟨c, hc, rfl⟩ := Option.map_eq_some_iff.mp h
      have hshort := lib.lzf_short b c hc
      unfold rdbGenericLoadStringObject
      rw [List.append_assoc, List.cons_append, ← List.singleton_append]
      refine (rdbLoadLen_special (by decide)).bind ?_
      rw [if_pos rfl, if_neg (by decide), if_pos (by decide)]
      unfold rdbLoadLzfStringObject
      refine (rdbLoadLen_save (lt_of_le_of_lt hshort hlen)).bind ?_
      refine (rdbLoadLen_save hlen).bind ?_
      refine (Reads.bytes rfl).andThen ?_
      simp only [lib.lzf_back b c hc]
      exact .pure _
  · cases h

def readText (b : Bytes) : Str :=
  match intForm b with
  | some _ => intObject encode (strtollAt b).1
  | none => .raw b

theorem intForm_text (h : intForm b = some enc) :
    ll2string (strtollAt b).1 = b ∧ rdbEncodeInteger (strtollAt b).1 = some enc := by
  unfold intForm rdbTryIntegerEncoding at h
  split at h
  · split at h
    · cases h
    · split at h
      · cases h
      · rename_i _ heq
        exact ⟨not_not.mp heq, h⟩
  · cases h

theorem readText_bytes (b : Bytes) : (readText encode b).bytes = b := by
  unfold readText
  split
  · rename_i enc h
    rw [intObject_bytes]
    exact (intForm_text h).1
  · rfl

/-- **A text is read back.** -/
theorem load_rawString (h : b.length < lenErr) :
    Reads (rdbGenericLoadStringObject lib encode) (rdbSaveRawString lib b) (readText encode b) := by
  unfold rdbSaveRawString readText
  cases hint : intForm b with
  | some enc => exact load_integer lib encode (intForm_text hint).2
  | none =>
    cases hlzf : lzfForm lib b with
    | some enc => exact load_lzf lib encode h hlzf
    | none => exact load_verbatim lib encode h

theorem isspace_of_isDigit {c : UInt8} (h : isDigit c = true) : isspace c = false := by
  obtain ⟨hlo, -⟩ := isDigit_iff.mp h
  simp only [isspace, Bool.or_eq_false_iff, Bool.and_eq_false_iff, beq_eq_false_iff_ne,
    decide_eq_false_iff_not, UInt8.le_iff_toNat_le]
  refine ⟨?_, .inr fun h => ?_⟩
  · rintro rfl
    exact absurd hlo (by decide)
  · have : c.toNat ≤ 13 := h
    omega

theorem digit_ne {c x : UInt8} (h : isDigit c = true) (hx : x.toNat < 48) : c ≠ x := by
  rintro rfl
  have := (isDigit_iff.mp h).1
  omega

theorem strtollAt_ll2string (h0 : 0 ≤ n) (h : n < 2 ^ 63) : strtollAt (ll2string n) = (n, []) := by
  have hspec := decDigits_spec n.natAbs
  have htext : ll2string n = decDigits n.natAbs := by
    rw [ll2string_eq, if_neg (by omega), List.nil_append]
  rw [htext]
  cases hb : decDigits n.natAbs with
  | nil => exact absurd hb hspec.ne
  | cons c t =>
    rw [hb] at hspec
    have hall : ∀ x ∈ c :: t, isDigit x = true := List.all_eq_true.mp hspec.all
    have hc := hall c List.mem_cons_self
    have hnul : NulFree (c :: t) := fun hz => digit_ne (hall 0 hz) (by decide) rfl
    have htake : (c :: t).takeWhile isDigit = c :: t := List.takeWhile_eq_self_iff.mpr hall
    have hdrop : (c :: t).dropWhile isDigit = [] := List.dropWhile_eq_nil_iff.mpr hall
    have h45 : (some c == some (45 : UInt8)) = false := by
      simpa using digit_ne hc (by decide)
    have h43 : (some c == some (43 : UInt8)) = false := by
      simpa using digit_ne hc (by decide)
    simp only [strtollAt, cstr_eq_self hnul, List.dropWhile_cons, isspace_of_isDigit hc,
      Bool.false_eq_true, if_false, List.head?_cons, h45, h43, Bool.or_self]
    rw [← List.dropWhile_cons, htake, hdrop, if_neg (List.cons_ne_nil c t), hspec.val]
    congr 1
    omega

theorem intForm_small (h : smallInt b = some n) : intForm b ≠ none := by
  obtain ⟨rfl, h0, h1⟩ := smallInt_eq_some.mp h
  have h1' : n < 10000 := h1
  have hlen : (ll2string n).length ≤ 11 := by
    rw [ll2string_eq, if_neg (by omega), List.nil_append, decDigits, List.length_map,
      Nat.length_toDigits_le_iff (by omega) (by omega)]
    omega
  rw [intForm, if_pos hlen, rdbTryIntegerEncoding, strtollAt_ll2string h0 (by omega)]
  simp only [ne_eq, not_true_eq_false, if_false, rdbEncodeInteger]
  split
  · simp
  · rw [if_pos (by omega)]
    simp

/-- **A string object is read back**, with its integer when it has one. -/
theorem load_stringObject (h : o.bytes.length < lenErr) :
    ∃ o', Reads (rdbGenericLoadStringObject lib encode) (rdbSaveStringObject lib o) o' ∧
      ((o' = .raw o.bytes ∧ smallInt o.bytes = none) ∨
        ∃ n, ll2string n = o.bytes ∧ o' = intObject encode n) := by
  cases o with
  | raw b =>
    refine ⟨readText encode b, load_rawString lib encode h, ?_⟩
    unfold readText
    split
    · rename_i henc
      exact .inr ⟨_, (intForm_text henc).1, rfl⟩
    · rename_i hnone
      refine .inl ⟨rfl, Option.eq_none_iff_forall_ne_some.mpr fun n hn => ?_⟩
      exact intForm_small hn hnone
  | int n shared =>
    unfold rdbSaveStringObject rdbSaveLongLongAsStringObject
    simp only
    split
    · rename_i henc
      exact ⟨_, load_integer lib encode henc, .inr ⟨n, rfl, rfl⟩⟩
    · rename_i hnone
      refine ⟨_, load_verbatim lib encode h, .inl ⟨rfl, ?_⟩⟩
      refine Option.eq_none_iff_forall_ne_some.mpr fun m hm => ?_
      obtain ⟨heq, h0, h1⟩ := smallInt_eq_some.mp hm
      obtain rfl := ll2string_injective heq
      have h1' : m < 10000 := h1
      unfold rdbEncodeInteger at hnone
      split at hnone
      · cases hnone
      · rw [if_pos (by omega)] at hnone
        cases hnone

theorem load_stringObject_bytes (h : o.bytes.length < lenErr) :
    ∃ o', Reads (rdbGenericLoadStringObject lib encode) (rdbSaveStringObject lib o) o' ∧
      o'.bytes = o.bytes := by
  obtain ⟨o', hread, hform⟩ := load_stringObject lib encode h
  refine ⟨o', hread, ?_⟩
  rcases hform with ⟨rfl, -⟩ | ⟨n, hn, rfl⟩
  · rfl
  · rw [intObject_bytes, hn]

theorem tryObjectEncoding_bytes (cfg : Cfg) (b : Bytes) : (tryObjectEncoding cfg b).bytes = b := by
  unfold tryObjectEncoding
  split
  · rename_i n hn
    unfold encInt at hn
    split at hn
    · exact ll2string_of_string2ll hn
    · cases hn
  · rfl

theorem load_element (h : b.length < lenErr) :
    ∃ o, Reads (rdbGenericLoadStringObject lib encode) (saveElement lib b) o ∧ o.bytes = b := by
  have hb := tryObjectEncoding_bytes cfg b
  obtain ⟨o, hread, ho⟩ := load_stringObject_bytes lib encode (by rw [hb]; exact h)
  exact ⟨o, hread, ho.trans hb⟩

theorem encInt_small (h : encInt b = some n) (hb : smallInt b = none) :
    ¬ (0 ≤ n ∧ n < sharedIntegers) := by
  unfold encInt at h
  split at h
  · intro hr
    rw [smallInt_eq_some.mpr ⟨ll2string_of_string2ll h, hr⟩] at hb
    cases hb
  · cases h

/-- **A string value is read back**; a small number becomes a shared integer. -/
theorem load_string (h : o.bytes.length < lenErr) :
    ∃ o', Reads (rdbLoadObject lib 0) (rdbSaveObject lib (.str o)) (.str o') ∧
      o'.bytes = o.bytes ∧ (∀ n, smallInt o.bytes = some n → o' = .int n true) ∧
      (smallInt o.bytes = none → (Val.str o').isShared = false) := by
  obtain ⟨o', hread, hform⟩ := load_stringObject lib true h
  refine ⟨encodeLoaded cfg o', ?_, ?_⟩
  · rw [rdbLoadObject, if_pos rfl]
    exact hread.andThen (.pure _)
  · rcases hform with ⟨rfl, hnone⟩ | ⟨n, hn, rfl⟩
    · refine ⟨tryObjectEncoding_bytes cfg _, fun n hn => ?_, fun _ => ?_⟩
      · rw [hnone] at hn
        cases hn
      · simp only [encodeLoaded, tryObjectEncoding]
        split
        · rename_i n hn
          have hbig : ((0 : Int) ≤ n && n < sharedIntegers) = false := by
            have := encInt_small hn hnone
            simpa using this
          rw [hbig, Bool.and_false]
          rfl
        · rfl
    · refine ⟨hn, fun m hm => ?_, fun hnone => ?_⟩
      · obtain ⟨heq, h0, h1⟩ := smallInt_eq_some.mp hm
        obtain rfl := ll2string_injective (heq.trans hn.symm)
        simp [intObject, encodeLoaded, createStringObjectFromLongLong, h0, h1]
      · have hbig : ((0 : Int) ≤ n && n < sharedIntegers) = false := by
          by_contra hsmall
          have hr : 0 ≤ n ∧ n < sharedIntegers := by simpa using hsmall
          rw [smallInt_eq_some.mpr ⟨hn, hr⟩] at hnone
          cases hnone
        simp only [intObject, encodeLoaded, createStringObjectFromLongLong, hbig]
        rfl

end Strings

/-! ## Scores -/

/-- The sign of a zero is lost. -/
def scoreBack (d : Double) : Double := if d = negZero then 0 else d

def scoredBack (p : Bytes × Double) : Bytes × Double := (p.1, scoreBack p.2)

theorem ll2string_length (h : n.natAbs < 2 ^ 53) : (ll2string n).length < 253 := by
  have hd : (decDigits n.natAbs).length ≤ 16 := by
    rw [decDigits, List.length_map, Nat.length_toDigits_le_iff (by omega) (by omega)]
    omega
  rw [ll2string_eq, List.length_append]
  split <;> simp <;> omega

theorem infinite_cases {d : Double} (hnan : isNan d = false) (hfin : isFinite d = false) :
    d = posInf ∨ d = negInf := by
  simp only [isNan, isFinite, decide_eq_false_iff_not] at hnan hfin
  have hlt := UInt64.toNat_lt d
  by_cases hsign : d.toNat < 2 ^ 63
  · refine .inl (UInt64.toNat_inj.mp ?_)
    change d.toNat = 0x7FF0000000000000
    omega
  · refine .inr (UInt64.toNat_inj.mp ?_)
    change d.toNat = 0xFFF0000000000000
    omega

section Scores

variable {cfg : Cfg} (lib : RdbLib cfg)

theorem doubleText_length (d : Double) : (doubleText lib d).length < 253 := by
  unfold doubleText
  split
  · rename_i n hn
    exact ll2string_length (lib.doubleLong_range d n hn)
  · exact lib.fmtG_short d

theorem scan_doubleText {d : Double} (hfin : isFinite d = true) :
    lib.scanG (doubleText lib d) = scoreBack d := by
  unfold doubleText scoreBack
  by_cases hz : d = negZero
  · subst hz
    rw [if_pos rfl]
    simp only [lib.doubleLong_negZero]
    exact lib.scan_long 0 0 lib.doubleLong_zero (by decide)
  · rw [if_neg hz]
    split
    · rename_i n hn
      exact lib.scan_long d n hn hz
    · rename_i hn
      exact lib.scan_fmtG d hfin hn

/-- **A score is read back**, up to the sign of zero. -/
theorem load_double {d : Double} (hnan : isNan d = false) :
    Reads (rdbLoadDoubleValue lib) (rdbSaveDoubleValue lib d) (scoreBack d) := by
  unfold rdbSaveDoubleValue rdbLoadDoubleValue
  rw [if_neg (by simp [hnan])]
  cases hfin : isFinite d with
  | false =>
    rw [if_pos (by decide)]
    refine .cons ?_
    rcases infinite_cases hnan hfin with rfl | rfl
    · exact .pure _
    · exact .pure _
  | true =>
    rw [if_neg (by decide)]
    have hlen := doubleText_length lib d
    have hbyte : (UInt8.ofNat (doubleText lib d).length).toNat = (doubleText lib d).length :=
      UInt8.toNat_ofNat_of_lt (lt_trans hlen (by decide))
    have hne : ∀ x : UInt8, 253 ≤ x.toNat → UInt8.ofNat (doubleText lib d).length ≠ x := by
      rintro x hx rfl
      omega
    refine .cons ?_
    rw [if_neg (hne 255 (by decide)), if_neg (hne 254 (by decide)), if_neg (hne 253 (by decide)),
      hbyte, ← scan_doubleText lib hfin]
    exact (Reads.bytes rfl).andThen (.pure _)

end Scores

/-! ## Containers -/

/-- What a value becomes: the same contents, but for the sign of the zero scores of a skip
list; a small number becomes a shared integer and nothing else does. -/
def LoadsAs : Val → Val → Prop
  | .str o, .str o' => o'.bytes = o.bytes ∧ (∀ n, smallInt o.bytes = some n → o' = .int n true) ∧
      (smallInt o.bytes = none → (Val.str o').isShared = false)
  | .list _ xs, .list _ ys => ys.1 = xs.1
  | .set _ ms, .set _ ms' => ms'.items.Perm ms.items
  | .hash _ fs, .hash _ fs' => fs'.items.Perm fs.items
  | .zset .skiplist ms, .zset _ ms' =>
    ms'.items.Perm (ms.items.map scoredBack)
  | .zset .ziplist ms, .zset _ ms' => ms'.items.Perm ms.items
  | _, _ => False

/-- The lengths and numbers of a value are those of the C types, and no score is a NaN. -/
def Storable {cfg : Cfg} (lib : RdbLib cfg) : Val → Prop
  | .str o => o.bytes.length < lenErr
  | .list .linkedlist xs => xs.1.length < lenErr ∧ ∀ b ∈ xs.1, b.length < lenErr
  | .list .ziplist xs => (lib.ziplistBlob xs.1).length < lenErr
  | .set .ht ms => ms.length < lenErr ∧ ∀ b ∈ ms.items, b.length < lenErr
  | .set .intset ms => (lib.intsetBlob (ms.items.filterMap string2ll)).length < lenErr ∧
      ∀ b ∈ ms.items, (string2ll b).isSome
  | .hash .ht fs => fs.length < lenErr ∧
      ∀ p ∈ fs.items, p.1.length < lenErr ∧ p.2.length < lenErr
  | .hash .ziplist fs => (lib.ziplistBlob (fs.items.flatMap fun p => [p.1, p.2])).length < lenErr
  | .zset .skiplist ms => ms.length < lenErr ∧
      ∀ p ∈ ms.items, p.1.length < lenErr ∧ isNan p.2 = false
  | .zset .ziplist ms =>
    (lib.ziplistBlob (ms.items.flatMap fun p => [p.1, cfg.d2string p.2])).length < lenErr ∧
      ∀ p ∈ ms.items, isNan p.2 = false

section Containers

variable {cfg : Cfg} (lib : RdbLib cfg)

theorem load_list {xs : NEList Bytes} (h : Storable lib (.list .linkedlist xs)) :
    ∃ w, Reads (rdbLoadObject lib 1) (rdbSaveObject lib (.list .linkedlist xs)) w ∧
      LoadsAs (.list .linkedlist xs) w := by
  have hloop : ∀ enc, ∃ l, Reads (times (loadListElement lib) xs.1.length (enc, []))
      (xs.1.flatMap (saveElement lib)) l ∧ l.2 = xs.1 := by
    intro enc
    refine Reads.times (I := fun done (l : ListEnc × List Bytes) => l.2 = done)
      (fun done x l hpre hl => ?_) rfl
    have hx : x ∈ xs.1 := hpre.subset (by simp)
    obtain ⟨o, hread, ho⟩ := load_element lib true (h.2 x hx)
    exact ⟨_, hread.andThen (.pure _), by simp only [hl, ho]⟩
  rw [rdbLoadObject, if_neg (by decide), if_pos rfl, rdbSaveObject]
  obtain ⟨l, hread, hl⟩ := hloop (if xs.1.length > cfg.listMaxZiplistEntries then .linkedlist
    else .ziplist)
  refine ⟨.list l.1 xs, (rdbLoadLen_save h.1).bind (hread.andThen (.ofOption ?_)), rfl⟩
  rw [hl, NEList.ofList?, dif_pos xs.2]
  rfl

theorem load_set {ms : Members} (h : Storable lib (.set .ht ms)) :
    ∃ w, Reads (rdbLoadObject lib 2) (rdbSaveObject lib (.set .ht ms)) w ∧
      LoadsAs (.set .ht ms) w := by
  have hloop : ∀ enc, ∃ s, Reads (times (loadSetMember lib) ms.length (enc, none))
      (ms.items.flatMap (saveElement lib)) s ∧ Coll.Filled ms.items s.2 := by
    intro enc
    refine Reads.times (I := fun done (s : SetEnc × Option Members) => Coll.Filled done s.2)
      (fun done x s hpre hs => ?_) rfl
    have hx : x ∈ ms.items := hpre.subset (by simp)
    obtain ⟨o, hread, rfl⟩ := load_element lib true (h.2 x hx)
    exact ⟨_, hread.andThen (.pure _), hs.add (hs.fresh ms.nodup hpre) _⟩
  rw [rdbLoadObject, if_neg (by decide), if_neg (by decide), if_pos rfl, rdbSaveObject]
  obtain ⟨s, hread, hs⟩ := hloop (if ms.length > cfg.setMaxIntsetEntries then .ht else .intset)
  obtain ⟨ms', hms, hperm⟩ := hs.exists_some ms.ne
  refine ⟨.set s.1 ms', (rdbLoadLen_save h.1).bind (hread.andThen (.ofOption ?_)), hperm⟩
  rw [hms]
  rfl

theorem loadScored_turn {z : Nat × Option Scored} {x : Bytes × Double} (hlen : x.1.length < lenErr)
    (hnan : isNan x.2 = false) (hfresh : ¬ Coll.Has z.2 x.1) :
    ∃ n slot, Reads (loadScored lib z) (saveElement lib x.1 ++ rdbSaveDoubleValue lib x.2)
      (n, some (Coll.add z.2 slot (scoredBack x))) := by
  obtain ⟨m, d⟩ := x
  obtain ⟨o, hread, rfl⟩ := load_element lib true hlen
  exact ⟨_, _, hread.bind ((load_double lib hnan).andThen (.passed hfresh _))⟩

theorem load_skiplist {ms : Scored} (h : Storable lib (.zset .skiplist ms)) :
    ∃ w, Reads (rdbLoadObject lib 3) (rdbSaveObject lib (.zset .skiplist ms)) w ∧
      LoadsAs (.zset .skiplist ms) w := by
  have hkeys : ((ms.items.map scoredBack).map Prod.fst).Nodup := by
    rw [List.map_map]
    exact ms.nodup
  have hloop : ∃ z, Reads (times (loadScored lib) ms.length (0, none))
      (ms.items.flatMap fun p => saveElement lib p.1 ++ rdbSaveDoubleValue lib p.2) z ∧
      Coll.Filled (ms.items.map scoredBack) z.2 := by
    refine Reads.times (I := fun done (z : Nat × Option Scored) =>
      Coll.Filled (done.map scoredBack) z.2) (fun done x z hpre hz => ?_) rfl
    have hx : x ∈ ms.items := hpre.subset (by simp)
    have hpre' := hpre.map scoredBack
    rw [List.map_append] at hpre' ⊢
    have hfresh := hz.fresh hkeys hpre'
    obtain ⟨n, slot, hread⟩ := loadScored_turn lib (h.2 x hx).1 (h.2 x hx).2 hfresh
    exact ⟨_, hread, hz.add hfresh slot⟩
  obtain ⟨z, hread, hz⟩ := hloop
  obtain ⟨ms', hms, hperm⟩ := hz.exists_some (by simpa using ms.ne)
  rw [rdbLoadObject, if_neg (by decide), if_neg (by decide), if_neg (by decide), if_pos rfl,
    rdbSaveObject]
  refine ⟨.zset (if ms.length ≤ cfg.zsetMaxZiplistEntries ∧ z.1 ≤ cfg.zsetMaxZiplistValue
      then .ziplist else .skiplist) ms',
    (rdbLoadLen_save h.1).bind (hread.andThen (.ofOption ?_)), hperm⟩
  rw [hms]
  rfl

theorem loadField_turn {z : HashEnc × Option Fields} {x : Bytes × Bytes}
    (hf : x.1.length < lenErr) (hv : x.2.length < lenErr) (hfresh : ¬ Coll.Has z.2 x.1) :
    ∃ enc slot, Reads (loadField lib z) (saveElement lib x.1 ++ saveElement lib x.2)
      (enc, some (Coll.add z.2 slot x)) := by
  obtain ⟨f, v⟩ := x
  obtain ⟨o, hread, rfl⟩ := load_element lib true hf
  obtain ⟨o', hread', rfl⟩ := load_element lib true hv
  exact ⟨_, _, hread.bind (hread'.andThen (.passed hfresh _))⟩

theorem load_hash {fs : Fields} (h : Storable lib (.hash .ht fs)) :
    ∃ w, Reads (rdbLoadObject lib 4) (rdbSaveObject lib (.hash .ht fs)) w ∧
      LoadsAs (.hash .ht fs) w := by
  have hloop : ∀ enc, ∃ z, Reads (times (loadField lib) fs.length (enc, none))
      (fs.items.flatMap fun p => saveElement lib p.1 ++ saveElement lib p.2) z ∧
      Coll.Filled fs.items z.2 := by
    intro enc
    refine Reads.times (I := fun done (z : HashEnc × Option Fields) => Coll.Filled done z.2)
      (fun done x z hpre hz => ?_) rfl
    have hx : x ∈ fs.items := hpre.subset (by simp)
    have hfresh := hz.fresh fs.nodup hpre
    obtain ⟨enc, slot, hread⟩ := loadField_turn lib (h.2 x hx).1 (h.2 x hx).2 hfresh
    exact ⟨_, hread, hz.add hfresh slot⟩
  obtain ⟨z, hread, hz⟩ := hloop (if fs.length > cfg.hashMaxZiplistEntries then .ht else .ziplist)
  obtain ⟨fs', hfs, hperm⟩ := hz.exists_some fs.ne
  rw [rdbLoadObject, if_neg (by decide), if_neg (by decide), if_neg (by decide),
    if_neg (by decide), if_pos rfl, rdbSaveObject]
  refine ⟨.hash z.1 fs', (rdbLoadLen_save h.1).bind (hread.andThen (.ofOption ?_)), hperm⟩
  rw [hfs]
  rfl

theorem load_blob {type : UInt8} {b : Bytes} {w : Val} (htype : 4 < type) (h : b.length < lenErr)
    (hw : loadBlob lib type b = some w) :
    Reads (rdbLoadObject lib type) (rdbSaveRawString lib b) w := by
  have hne : ∀ t : UInt8, t ≤ 4 → type ≠ t := by
    rintro t ht rfl
    exact absurd htype (UInt8.not_lt.mpr ht)
  rw [rdbLoadObject, if_neg (hne 0 (by decide)), if_neg (hne 1 (by decide)),
    if_neg (hne 2 (by decide)), if_neg (hne 3 (by decide)), if_neg (hne 4 (by decide))]
  refine (load_rawString lib false h).andThen (.ofOption ?_)
  rw [readText_bytes]
  exact hw

theorem pairUp_flatMap {α : Type} (l : List α) (f g : α → Bytes) :
    pairUp (l.flatMap fun x => [f x, g x]) = some (l.map fun x => (f x, g x)) := by
  induction l with
  | nil => rfl
  | cons x l ih =>
    change (pairUp (l.flatMap fun x => [f x, g x])).map ((f x, g x) :: ·) = _
    rw [ih]
    rfl

theorem intset_texts {l : List Bytes} (h : ∀ b ∈ l, (string2ll b).isSome) :
    (l.filterMap string2ll).map ll2string = l := by
  induction l with
  | nil => rfl
  | cons b l ih =>
    obtain ⟨n, hn⟩ := Option.isSome_iff_exists.mp (h b List.mem_cons_self)
    rw [List.filterMap_cons_some hn, List.map_cons, ll2string_of_string2ll hn,
      ih fun b hb => h b (List.mem_cons_of_mem _ hb)]

theorem load_ziplist {xs : NEList Bytes} (h : Storable lib (.list .ziplist xs)) :
    ∃ w, Reads (rdbLoadObject lib 10) (rdbSaveObject lib (.list .ziplist xs)) w ∧
      LoadsAs (.list .ziplist xs) w := by
  have hblob : loadBlob lib 10 (lib.ziplistBlob xs.1) = some
      (.list (if xs.1.length > cfg.listMaxZiplistEntries then .linkedlist else .ziplist) xs) := by
    rw [loadBlob, if_pos rfl, lib.ziplist_back, Option.bind_eq_bind, Option.bind_some,
      NEList.ofList?, dif_pos xs.2]
    rfl
  exact ⟨_, load_blob lib (by decide) h hblob, rfl⟩

theorem load_intset {ms : Members} (h : Storable lib (.set .intset ms)) :
    ∃ w, Reads (rdbLoadObject lib 11) (rdbSaveObject lib (.set .intset ms)) w ∧
      LoadsAs (.set .intset ms) w := by
  have hblob : loadBlob lib 11 (lib.intsetBlob (ms.items.filterMap string2ll)) = some
      (.set (if (ms.items.filterMap string2ll).length > cfg.setMaxIntsetEntries then .ht
        else .intset) ms) := by
    have hrange : ∀ n ∈ ms.items.filterMap string2ll, -2 ^ 63 ≤ n ∧ n < 2 ^ 63 := by
      intro n hn
      obtain ⟨b, -, hb⟩ := List.mem_filterMap.mp hn
      exact string2ll_range hb
    rw [loadBlob, if_neg (by decide), if_pos rfl, lib.intset_back _ hrange, Option.bind_eq_bind,
      Option.bind_some, intset_texts h.2, Coll.ofList?_items]
    rfl
  exact ⟨_, load_blob lib (by decide) h.1 hblob, List.Perm.refl _⟩

theorem load_zset {ms : Scored} (h : Storable lib (.zset .ziplist ms)) :
    ∃ w, Reads (rdbLoadObject lib 12) (rdbSaveObject lib (.zset .ziplist ms)) w ∧
      LoadsAs (.zset .ziplist ms) w := by
  have hscores : (ms.items.map fun p => (p.1, cfg.d2string p.2)).map
      (fun p => (p.1, zzlGetScore cfg p.2)) = ms.items := by
    rw [List.map_map]
    conv_rhs => rw [← List.map_id ms.items]
    refine List.map_congr_left fun p hp => ?_
    simp only [Function.comp, lib.score_text p.2 (h.2 p hp), id]
  have hblob : ∃ enc, loadBlob lib 12
      (lib.ziplistBlob (ms.items.flatMap fun p => [p.1, cfg.d2string p.2])) =
        some (.zset enc ms) := by
    rw [loadBlob, if_neg (by decide), if_neg (by decide), if_pos rfl, lib.ziplist_back,
      Option.bind_some, pairUp_flatMap, Option.bind_eq_bind, Option.bind_some, hscores,
      Coll.ofList?_items]
    exact ⟨_, rfl⟩
  obtain ⟨enc, hblob⟩ := hblob
  exact ⟨_, load_blob lib (by decide) h.1 hblob, List.Perm.refl _⟩

theorem load_hash_ziplist {fs : Fields} (h : Storable lib (.hash .ziplist fs)) :
    ∃ w, Reads (rdbLoadObject lib 13) (rdbSaveObject lib (.hash .ziplist fs)) w ∧
      LoadsAs (.hash .ziplist fs) w := by
  have hblob : ∃ enc, loadBlob lib 13
      (lib.ziplistBlob (fs.items.flatMap fun p => [p.1, p.2])) = some (.hash enc fs) := by
    rw [loadBlob, if_neg (by decide), if_neg (by decide), if_neg (by decide), if_pos rfl,
      lib.ziplist_back, Option.bind_some, pairUp_flatMap, Option.bind_eq_bind, Option.bind_some,
      List.map_id', Coll.ofList?_items]
    exact ⟨_, rfl⟩
  obtain ⟨enc, hblob⟩ := hblob
  exact ⟨_, load_blob lib (by decide) h hblob, List.Perm.refl _⟩

/-- **Every value is read back.** -/
theorem load_object {v : Val} (h : Storable lib v) :
    ∃ w, Reads (rdbLoadObject lib (rdbObjectType v)) (rdbSaveObject lib v) w ∧ LoadsAs v w := by
  cases v with
  | str o =>
    obtain ⟨o', hread, hform⟩ := load_string lib h
    exact ⟨_, hread, hform⟩
  | list enc xs =>
    cases enc with
    | linkedlist => exact load_list lib h
    | ziplist => exact load_ziplist lib h
  | set enc ms =>
    cases enc with
    | ht => exact load_set lib h
    | intset => exact load_intset lib h
  | hash enc fs =>
    cases enc with
    | ht => exact load_hash lib h
    | ziplist => exact load_hash_ziplist lib h
  | zset enc ms =>
    cases enc with
    | skiplist => exact load_skiplist lib h
    | ziplist => exact load_zset lib h

end Containers

/-! ## Turns of the loop -/

def Expired (now : Int) (e : Entry) : Prop := getExpire e ≠ -1 ∧ getExpire e < now

instance (now : Int) (e : Entry) : Decidable (Expired now e) := inferInstanceAs (Decidable (_ ∧ _))

def tagByte (vers : Int) : Int := vers % 256

section Turns

variable {cfg : Cfg} (lib : RdbLib cfg) (now : Int) (slave : Bool)

/-- The loop works `b` off and goes on in another database with another store. -/
def Works (b : Bytes) (p q : Nat × Store) : Prop :=
  ∃ m ≤ b.length, ∀ n rest, rdbLoadLoop lib now slave (m + n) p.1 p.2 (b ++ rest) =
    rdbLoadLoop lib now slave n q.1 q.2 rest

variable {lib now slave} {b b' : Bytes} {p q r : Nat × Store}

theorem Works.refl (p : Nat × Store) : Works lib now slave [] p p :=
  ⟨0, Nat.le_refl 0, fun n rest => by rw [Nat.zero_add, List.nil_append]⟩

theorem Works.trans (h : Works lib now slave b p q) (h' : Works lib now slave b' q r) :
    Works lib now slave (b ++ b') p r := by
  obtain ⟨m, hm, hrun⟩ := h
  obtain ⟨m', hm', hrun'⟩ := h'
  refine ⟨m + m', by rw [List.length_append]; omega, fun n rest => ?_⟩
  rw [List.append_assoc, Nat.add_assoc, hrun, hrun']

theorem Works.turn {db : Nat} {s : Store}
    (h : Reads (rdbLoadTurn lib now slave p.1 p.2) b (some db, s)) (hne : b ≠ []) :
    Works lib now slave b p (db, s) := by
  refine ⟨1, List.length_pos_iff.mpr hne, fun n rest => ?_⟩
  rw [Nat.add_comm 1 n]
  exact h.run_bind _ rest

variable (lib now slave)

theorem load_select {d : Nat} (hd : d < cfg.dbnum) (hlen : cfg.dbnum < lenErr) (p : Nat × Store) :
    Works lib now slave (selectdb :: rdbSaveLen d) p (d, p.2) := by
  refine .turn ?_ (List.cons_ne_nil _ _)
  unfold rdbLoadTurn
  refine .cons ?_
  rw [← List.nil_append (rdbSaveLen d)]
  refine Reads.bind (a := ((-1 : Int), selectdb)) (Reads.pure _) ?_
  rw [if_neg (by decide), if_pos rfl]
  exact (rdbLoadLen_save (lt_trans hd hlen)).andThen (.passed (Nat.not_le.mpr hd) _)

theorem load_eof (db : Nat) (s : Store) : Reads (rdbLoadTurn lib now slave db s) [eof] (none, s) := by
  unfold rdbLoadTurn
  refine .cons ?_
  exact (Reads.pure ((-1 : Int), eof)).andThen (.pure _)

theorem rdbObjectType_lt (v : Val) : (rdbObjectType v).toNat ≤ 13 := by
  unfold rdbObjectType
  split <;> decide

theorem rdbObjectType_ne (v : Val) {x : UInt8} (hx : 13 < x.toNat) : rdbObjectType v ≠ x := by
  rintro rfl
  exact absurd (rdbObjectType_lt v) (Nat.not_le.mpr hx)

theorem load_head {expire : Int} (hlo : -2 ^ 63 ≤ expire) (hhi : expire < 2 ^ 63) (v : Val) :
    Reads (rdbLoadType >>= loadExpire)
      ((if expire ≠ -1 then expiretimeMs :: rdbSaveMillisecondTime expire else []) ++
        [rdbObjectType v]) (expire, rdbObjectType v) := by
  by_cases hexp : expire = -1
  · rw [if_neg (not_not.mpr hexp), List.nil_append, hexp]
    refine .cons ?_
    rw [loadExpire, if_neg (rdbObjectType_ne v (by decide)),
      if_neg (rdbObjectType_ne v (by decide))]
    exact .pure _
  · rw [if_pos hexp, List.cons_append]
    refine .cons ?_
    rw [loadExpire, if_neg (by decide), if_pos rfl]
    have htime : Reads rdbLoadMillisecondTime (rdbSaveMillisecondTime expire) expire := by
      refine (Reads.bytes (leBytes_length 8 expire)).andThen ?_
      rw [leInt_leBytes (by omega) (by omega)]
      exact .pure _
    refine htime.bind ?_
    rw [if_neg hexp]
    exact .cons (.pure _)

theorem load_pair {key : Bytes} {v : Val} (vers : Int) {expire saved : Int} {db : Nat} {s : Store}
    (hkey : key.length < lenErr) (hv : Storable lib v) (hlo : -2 ^ 63 ≤ expire)
    (hhi : expire < 2 ^ 63) (hsaved : ¬ (expire ≠ -1 ∧ expire < saved))
    (hnew : s.has db key = false) :
    ∃ w, LoadsAs v w ∧ Works lib now slave (rdbSaveKeyValuePair lib key v vers expire saved) (db, s)
      (db, if slave = false ∧ expire ≠ -1 ∧ expire < now then s
        else loadEntry db key w (tagByte vers) expire s) := by
  obtain ⟨w, hread, hw⟩ := load_object lib hv
  have hbytes : rdbSaveKeyValuePair lib key v vers expire saved =
      ((if expire ≠ -1 then expiretimeMs :: rdbSaveMillisecondTime expire else []) ++
        [rdbObjectType v]) ++
        (UInt8.ofInt vers :: (rdbSaveRawString lib key ++ rdbSaveObject lib v)) := by
    rw [rdbSaveKeyValuePair, if_neg hsaved]
    simp [rdbSaveType]
  have htag : ((UInt8.ofInt vers).toNat : Int) = tagByte vers := ofInt_toNat vers
  refine ⟨w, hw, .turn ?_ (by rw [hbytes]; simp)⟩
  rw [hbytes, rdbLoadTurn, ← bind_assoc]
  refine (load_head hlo hhi v).bind ?_
  rw [if_neg (rdbObjectType_ne v (by decide)), if_neg (rdbObjectType_ne v (by decide))]
  refine .cons ((load_rawString lib false hkey).bind (hread.andThen ?_))
  rw [readText_bytes, htag]
  by_cases hexp : slave = false ∧ expire ≠ -1 ∧ expire < now
  · rw [if_pos hexp, if_pos (by simpa using hexp)]
    exact .pure _
  · rw [if_neg hexp, if_neg (by simpa using hexp), if_neg (by simp [hnew])]
    exact .pure _

end Turns

/-! ## The whole file -/

structure Rec where
  d : Nat
  k : Bytes
  e : Entry

def Kept (saved now : Int) (slave : Bool) (e : Entry) : Prop :=
  ¬ Expired saved e ∧ ¬ (slave = false ∧ Expired now e)

def sharedOf : Val → Option Int
  | .str o => smallInt o.bytes
  | _ => none

variable {w : Val}

theorem LoadsAs.shared (h : LoadsAs v w) (hn : sharedOf v = some n) : w = .str (.int n true) := by
  cases v with
  | str o =>
    cases w with
    | str o' => rw [h.2.1 n hn]
    | _ => exact h.elim
  | _ => cases hn

theorem LoadsAs.unshared (h : LoadsAs v w) (hn : sharedOf v = none) : w.isShared = false := by
  cases v with
  | str o =>
    cases w with
    | str o' => exact h.2.2 hn
    | _ => exact h.elim
  | _ =>
    cases w with
    | str o' => first | exact h.elim | (cases ‹ZsetEnc› <;> exact h.elim)
    | _ => rfl

section LoadEntry

variable (d : Nat) (key : Bytes) (w : Val) (vers expire : Int) (s : Store)

def entryOf (w : Val) (vers expire : Int) : Entry :=
  ⟨⟨if w.isShared then 0 else vers, w⟩, if expire = -1 then none else some expire⟩

theorem get_loadEntry (d' : Nat) (k : Bytes) : (loadEntry d key w vers expire s).get d' k =
    if d' = d ∧ k = key then some (entryOf w vers expire) else s.get d' k := by
  unfold loadEntry
  rw [Store.get_put]
  split
  · rfl
  · split <;> rfl

theorem shared_loadEntry_of {n : Int} (h : w = .str (.int n true)) :
    (loadEntry d key w vers expire s).shared = Function.update s.shared n vers := by
  subst h
  rfl

theorem shared_loadEntry (h : w.isShared = false) :
    (loadEntry d key w vers expire s).shared = s.shared := by
  unfold loadEntry
  split
  · cases h
  · rfl

end LoadEntry

/-- What the store holds once the records `done` are read. -/
structure Loaded (src : Store) (saved now : Int) (slave : Bool) (done : List Rec) (t : Store) :
    Prop where
  found : ∀ r ∈ done, Kept saved now slave r.e → ∃ w, LoadsAs r.e.obj.val w ∧
    t.get r.d r.k = some (entryOf w (tagByte (src.vers r.e.obj)) (getExpire r.e))
  only : ∀ d k, (∀ r ∈ done, r.d = d → r.k ≠ k) → t.get d k = none
  tags : ∀ n, ∀ r ∈ done, Kept saved now slave r.e → sharedOf r.e.obj.val = some n →
    ∃ r' ∈ done, Kept saved now slave r'.e ∧ sharedOf r'.e.obj.val = some n ∧
      t.shared n = tagByte (src.vers r'.e.obj)

section Loaded

variable {src t : Store} {saved now : Int} {slave : Bool} {done : List Rec} {r : Rec}
  (h : Loaded src saved now slave done t)

include h

theorem Loaded.skip (hr : ¬ Kept saved now slave r.e) :
    Loaded src saved now slave (done ++ [r]) t := by
  have hin : ∀ r' ∈ done ++ [r], Kept saved now slave r'.e → r' ∈ done := by
    intro r' hr' hkept
    rcases List.mem_append.mp hr' with hmem | hmem
    · exact hmem
    · cases List.mem_singleton.mp hmem
      exact absurd hkept hr
  refine ⟨fun r' hr' hk => h.found r' (hin r' hr' hk) hk, fun d k hnot => ?_, ?_⟩
  · exact h.only d k fun r' hr' => hnot r' (List.mem_append_left _ hr')
  · intro n r' hr' hk hn
    obtain ⟨r'', hr'', hrest⟩ := h.tags n r' (hin r' hr' hk) hk hn
    exact ⟨r'', List.mem_append_left _ hr'', hrest⟩

/-- One more record is loaded. -/
theorem Loaded.add {w : Val} (hr : Kept saved now slave r.e)
    (hw : LoadsAs r.e.obj.val w) (hnew : ∀ r' ∈ done, r'.d = r.d → r'.k ≠ r.k) :
    Loaded src saved now slave (done ++ [r])
      (loadEntry r.d r.k w (tagByte (src.vers r.e.obj)) (getExpire r.e) t) := by
  refine ⟨fun r' hr' hk => ?_, fun d k hnot => ?_, fun n r' hr' hk hn => ?_⟩
  · rw [get_loadEntry]
    rcases List.mem_append.mp hr' with hmem | hmem
    · rw [if_neg fun hsame => hnew r' hmem hsame.1 hsame.2]
      exact h.found r' hmem hk
    · cases List.mem_singleton.mp hmem
      exact ⟨w, hw, if_pos ⟨rfl, rfl⟩⟩
  · have hne : ¬ (d = r.d ∧ k = r.k) := fun hsame =>
      hnot r (by simp) hsame.1.symm hsame.2.symm
    rw [get_loadEntry, if_neg hne]
    exact h.only d k fun r' hr' => hnot r' (List.mem_append_left _ hr')
  · -- the record sets the field of its own shared integer, if it becomes one
    by_cases hrn : sharedOf r.e.obj.val = some n
    · refine ⟨r, by simp, hr, hrn, ?_⟩
      rw [shared_loadEntry_of _ _ _ _ _ _ (hw.shared hrn), Function.update_self]
    · have hmem : r' ∈ done := by
        rcases List.mem_append.mp hr' with hmem | hmem
        · exact hmem
        · cases List.mem_singleton.mp hmem
          exact absurd hn hrn
      obtain ⟨r'', hr'', hk'', hn'', htag⟩ := h.tags n r' hmem hk hn
      refine ⟨r'', List.mem_append_left _ hr'', hk'', hn'', ?_⟩
      rw [← htag]
      cases hother : sharedOf r.e.obj.val with
      | none => rw [shared_loadEntry _ _ _ _ _ _ (hw.unshared hother)]
      | some m =>
        have hnm : n ≠ m := fun heq => hrn (heq ▸ hother)
        rw [shared_loadEntry_of _ _ _ _ _ _ (hw.shared hother), Function.update_of_ne hnm]

end Loaded

/-- What the C types guarantee of a store: lengths of 32 bits, expire times of 64 bits. -/
structure Dumpable {cfg : Cfg} (lib : RdbLib cfg) (s : Store) : Prop where
  dbnum : cfg.dbnum < lenErr
  keys : ∀ d k e, s.get d k = some e → k.length < lenErr
  vals : ∀ d k e, s.get d k = some e → Storable lib e.obj.val
  times : ∀ d k e, s.get d k = some e → -2 ^ 63 ≤ getExpire e ∧ getExpire e < 2 ^ 63

def recsOf (s : Store) (d : Nat) : List Rec := (s.dbs d).entries.map fun p => ⟨d, p.1, p.2⟩

theorem mem_recsOf {s : Store} {d : Nat} {r : Rec} :
    r ∈ recsOf s d ↔ r.d = d ∧ s.get d r.k = some r.e := by
  unfold recsOf Store.get
  rw [List.mem_map]
  constructor
  · rintro ⟨p, hp, rfl⟩
    exact ⟨rfl, AList.mem_lookup_iff.mpr hp⟩
  · rintro ⟨rfl, hget⟩
    exact ⟨⟨r.k, r.e⟩, AList.mem_lookup_iff.mp hget, rfl⟩

section Whole

variable {cfg : Cfg} {lib : RdbLib cfg} {s t : Store} (saved now : Int) (slave : Bool)
  {done : List Rec} (hs : Dumpable lib s)

include hs

theorem load_record {r : Rec} (hr : s.get r.d r.k = some r.e)
    (hnew : ∀ r' ∈ done, r'.d = r.d → r'.k ≠ r.k) (h : Loaded s saved now slave done t) :
    ∃ t', Works lib now slave (rdbSaveKeyValuePair lib r.k r.e.obj.val (s.vers r.e.obj)
      (getExpire r.e) saved) (r.d, t) (r.d, t') ∧ Loaded s saved now slave (done ++ [r]) t' := by
  by_cases hsaved : getExpire r.e ≠ -1 ∧ getExpire r.e < saved
  · rw [rdbSaveKeyValuePair, if_pos hsaved]
    exact ⟨t, .refl _, h.skip fun hk => hk.1 hsaved⟩
  · obtain ⟨hlo, hhi⟩ := hs.times _ _ _ hr
    have hgone : t.has r.d r.k = false := by
      rw [Store.has, h.only r.d r.k hnew]
      rfl
    obtain ⟨w, hw, hworks⟩ := load_pair lib now slave (s.vers r.e.obj) (hs.keys _ _ _ hr)
      (hs.vals _ _ _ hr) hlo hhi hsaved hgone
    refine ⟨_, hworks, ?_⟩
    by_cases hexp : slave = false ∧ getExpire r.e ≠ -1 ∧ getExpire r.e < now
    · rw [if_pos hexp]
      exact h.skip fun hk => hk.2 hexp
    · rw [if_neg hexp]
      exact h.add ⟨hsaved, hexp⟩ hw hnew

theorem load_entries (d : Nat) {l : List (Sigma fun _ : Bytes => Entry)}
    (hl : ∀ p ∈ l, s.get d p.1 = some p.2) (hnd : l.NodupKeys)
    (hnew : ∀ r ∈ done, r.d = d → ∀ p ∈ l, r.k ≠ p.1) (h : Loaded s saved now slave done t) :
    ∃ t', Works lib now slave (l.flatMap fun p => rdbSaveKeyValuePair lib p.1 p.2.obj.val
      (s.vers p.2.obj) (getExpire p.2) saved) (d, t) (d, t') ∧
      Loaded s saved now slave (done ++ l.map fun p => ⟨d, p.1, p.2⟩) t' := by
  induction l generalizing done t with
  | nil => exact ⟨t, .refl _, by simpa using h⟩
  | cons p l ih =>
    rw [List.nodupKeys_cons] at hnd
    obtain ⟨t₁, hworks, h₁⟩ := load_record saved now slave hs (r := ⟨d, p.1, p.2⟩)
      (hl p List.mem_cons_self) (fun r hr hd => hnew r hr hd p List.mem_cons_self) h
    have hnew' : ∀ r ∈ done ++ [⟨d, p.1, p.2⟩], r.d = d → ∀ q ∈ l, r.k ≠ q.1 := by
      intro r hr hd q hq
      rcases List.mem_append.mp hr with hmem | hmem
      · exact hnew r hmem hd q (List.mem_cons_of_mem _ hq)
      · cases List.mem_singleton.mp hmem
        intro heq
        have heq' : p.1 = q.1 := heq
        exact hnd.1 (heq' ▸ List.mem_keys_of_mem hq)
    obtain ⟨t₂, hworks', h₂⟩ := ih (fun q hq => hl q (List.mem_cons_of_mem _ hq)) hnd.2 hnew' h₁
    refine ⟨t₂, hworks.trans hworks', ?_⟩
    rw [List.map_cons, ← List.singleton_append, ← List.append_assoc]
    exact h₂

/-- The databases are loaded one after the other. -/
theorem load_dbs {js : List Nat} (hjs : js.Nodup)
    (hlt : ∀ j ∈ js, j < cfg.dbnum) (hnew : ∀ r ∈ done, r.d ∉ js) (db : Nat)
    (h : Loaded s saved now slave done t) :
    ∃ q, Works lib now slave (js.flatMap (rdbSaveDb lib saved s)) (db, t) q ∧
      Loaded s saved now slave (done ++ js.flatMap (recsOf s)) q.2 := by
  induction js generalizing done db t with
  | nil => exact ⟨(db, t), .refl _, by simpa using h⟩
  | cons j js ih =>
    obtain ⟨hj, hjs⟩ := List.nodup_cons.mp hjs
    have hone : ∃ q, Works lib now slave (rdbSaveDb lib saved s j) (db, t) q ∧
        Loaded s saved now slave (done ++ recsOf s j) q.2 := by
      unfold rdbSaveDb
      split
      · rename_i hempty
        exact ⟨(db, t), .refl _, by simpa [recsOf, hempty] using h⟩
      · obtain ⟨t', hworks, h'⟩ := load_entries saved now slave hs j
          (fun p hp => AList.mem_lookup_iff.mpr hp) (s.dbs j).nodupKeys
          (fun r hr hd => absurd List.mem_cons_self (hd ▸ hnew r hr)) h
        exact ⟨(j, t'), (load_select lib now slave (hlt j List.mem_cons_self) hs.dbnum _).trans
          hworks, h'⟩
    obtain ⟨q, hworks, hq⟩ := hone
    have hnew' : ∀ r ∈ done ++ recsOf s j, r.d ∉ js := by
      intro r hr
      rcases List.mem_append.mp hr with hmem | hmem
      · exact fun hin => hnew r hmem (List.mem_cons_of_mem _ hin)
      · rw [(mem_recsOf.mp hmem).1]
        exact hj
    obtain ⟨q', hworks', hq'⟩ := ih hjs (fun i hi => hlt i (List.mem_cons_of_mem _ hi)) hnew' q.1 hq
    refine ⟨q', hworks.trans hworks', ?_⟩
    rw [List.flatMap_cons, ← List.append_assoc]
    exact hq'

/-- **What was saved can be loaded**, and the store then holds what the records say. -/
theorem load_save {s₀ : Store} (hempty : ∀ d k, s₀.get d k = none) :
    ∃ t, rdbLoad lib now slave (rdbSave lib saved s) s₀ = some t ∧
      Loaded s saved now slave ((List.range cfg.dbnum).flatMap (recsOf s)) t := by
  have hstart : Loaded s saved now slave [] s₀ :=
    ⟨fun r hr => absurd hr List.not_mem_nil, fun d k _ => hempty d k,
      fun n r hr => absurd hr List.not_mem_nil⟩
  obtain ⟨⟨db, t⟩, ⟨m, hm, hloop⟩, hq⟩ := load_dbs saved now slave hs List.nodup_range
    (fun j hj => List.mem_range.mp hj) (fun r hr => absurd hr List.not_mem_nil) 0 hstart
  rw [List.nil_append] at hq
  refine ⟨t, ?_, hq⟩
  generalize hdbs : (List.range cfg.dbnum).flatMap (rdbSaveDb lib saved s) = dbs at hm hloop
  generalize hsum : leBytes 8 (if lib.checksum then lib.crc64 (magic ++ dbs ++ [eof]) else 0) = sum
  have hfile : rdbSave lib saved s = magic ++ (dbs ++ ([eof] ++ sum)) := by
    rw [rdbSave]
    simp only [hdbs, hsum]
    simp only [List.append_assoc]
  have hsumlen : sum.length = 8 := by rw [← hsum, leBytes_length]
  have hmagic : readBytes 9 (rdbSave lib saved s) = some (magic, dbs ++ ([eof] ++ sum)) := by
    rw [hfile]
    exact Reads.bytes (show magic.length = 9 by decide) _
  -- the turns for the databases, and one more for the end
  have hturns : rdbLoadLoop lib now slave ((dbs ++ ([eof] ++ sum)).length + 1) 0 s₀
      (dbs ++ ([eof] ++ sum)) = some (t, sum) := by
    obtain ⟨n, hn⟩ : ∃ n, (dbs ++ ([eof] ++ sum)).length + 1 = m + (n + 1) :=
      ⟨(dbs ++ ([eof] ++ sum)).length - m, by simp; omega⟩
    rw [hn, hloop]
    exact (load_eof lib now slave db t).run_bind _ sum
  have hbody : (rdbSave lib saved s).take ((rdbSave lib saved s).length - sum.length) =
      magic ++ dbs ++ [eof] := by
    rw [hfile, ← List.append_assoc, ← List.append_assoc, List.length_append, Nat.add_sub_cancel,
      List.take_left]
  have hversion : atoi (magic.drop 5) = 6 := by decide
  have hread : readBytes 8 sum = some (sum, []) := by
    have := Reads.bytes hsumlen []
    rwa [List.append_nil] at this
  rw [rdbLoad, hmagic]
  simp only [Option.bind_eq_bind, Option.bind_some, hversion, hturns]
  rw [if_neg (by decide), if_neg (by decide)]
  cases hck : lib.checksum with
  | false => rfl
  | true =>
    rw [if_pos ⟨by decide, rfl⟩, hread]
    simp only [Option.bind_some, hbody]
    rw [if_pos (.inr (by rw [← hsum, hck, if_pos rfl]))]
    rfl

end Whole

/-! ## The round trip -/

def SameContents : Val → Val → Prop
  | .str o, .str o' => o'.bytes = o.bytes
  | .list _ xs, .list _ ys => ys.1 = xs.1
  | .set _ ms, .set _ ms' => ms'.items.Perm ms.items
  | .hash _ fs, .hash _ fs' => fs'.items.Perm fs.items
  | .zset _ ms, .zset _ ms' => ms'.items.Perm ms.items
  | _, _ => False

/-- Every key that is not expired is there again with its value, its expire time and its tag,
and no other key is. -/
structure Restored (cfg : Cfg) (saved now : Int) (slave : Bool) (s t : Store) : Prop where
  found : ∀ d < cfg.dbnum, ∀ k e, s.get d k = some e → Kept saved now slave e →
    ∃ e', t.get d k = some e' ∧ SameContents e.obj.val e'.obj.val ∧
      getExpire e' = getExpire e ∧ t.vers e'.obj = s.vers e.obj
  only : ∀ d < cfg.dbnum, ∀ k, s.get d k = none → t.get d k = none

def HoldsNegZero : Val → Prop
  | .zset .skiplist ms => ∃ p ∈ ms.items, p.2 = negZero
  | _ => False

/-- The tags fit into a byte, equal numbers carry equal tags, and no skip list has a negative
zero among its scores. -/
structure Restorable (cfg : Cfg) (saved now : Int) (slave : Bool) (s : Store) : Prop where
  byte : ∀ d < cfg.dbnum, ∀ k e, s.get d k = some e → Kept saved now slave e →
    0 ≤ s.vers e.obj ∧ s.vers e.obj < 256
  numbers : ∀ d < cfg.dbnum, ∀ k e, s.get d k = some e → Kept saved now slave e →
    ∀ d' < cfg.dbnum, ∀ k' e', s.get d' k' = some e' → Kept saved now slave e' →
    ∀ n, sharedOf e.obj.val = some n → sharedOf e'.obj.val = some n →
      s.vers e.obj = s.vers e'.obj
  scores : ∀ d < cfg.dbnum, ∀ k e, s.get d k = some e → Kept saved now slave e →
    ¬ HoldsNegZero e.obj.val

theorem mem_scoredBack {ms : Scored} {l : List (Bytes × Double)}
    (h : l.Perm (ms.items.map scoredBack)) (h' : l.Perm ms.items) :
    ∀ p ∈ ms.items, p.2 ≠ negZero := by
  intro p hp hz
  -- the score of the member would be both zeros
  have hmem : p ∈ ms.items.map scoredBack := h.mem_iff.mp (h'.mem_iff.mpr hp)
  obtain ⟨q, -, hq⟩ := List.mem_map.mp hmem
  have hback : scoreBack q.2 = negZero := by rw [← hz, ← hq]; rfl
  unfold scoreBack at hback
  split at hback
  · cases hback
  · rename_i hne
    exact hne hback

theorem LoadsAs.sameContents_iff (h : LoadsAs v w) : SameContents v w ↔ ¬ HoldsNegZero v := by
  cases v with
  | str o =>
    cases w with
    | str o' => exact ⟨fun _ hf => hf, fun _ => h.1⟩
    | _ => exact h.elim
  | list enc xs =>
    cases w with
    | list enc' ys => exact ⟨fun _ hf => hf, fun _ => h⟩
    | _ => exact h.elim
  | set enc ms =>
    cases w with
    | set enc' ms' => exact ⟨fun _ hf => hf, fun _ => h⟩
    | _ => exact h.elim
  | hash enc fs =>
    cases w with
    | hash enc' fs' => exact ⟨fun _ hf => hf, fun _ => h⟩
    | _ => exact h.elim
  | zset enc ms =>
    cases enc with
    | ziplist =>
      cases w with
      | zset enc' ms' => exact ⟨fun _ hf => hf, fun _ => h⟩
      | _ => exact h.elim
    | skiplist =>
      cases w with
      | zset enc' ms' =>
        constructor
        · rintro hsame ⟨p, hp, hz⟩
          exact mem_scoredBack h hsame p hp hz
        · intro hno
          have hid : ms.items.map scoredBack = ms.items := by
            conv_rhs => rw [← List.map_id ms.items]
            refine List.map_congr_left fun p hp => ?_
            have hne : p.2 ≠ negZero := fun hz => hno ⟨p, hp, hz⟩
            rw [scoredBack, scoreBack, if_neg hne, id]
          have hperm : ms'.items.Perm (ms.items.map scoredBack) := h
          rw [hid] at hperm
          exact hperm
      | _ => exact h.elim

theorem getExpire_entryOf (w : Val) (vers : Int) (expire : Int) :
    getExpire (entryOf w vers expire) = expire := by
  change (if expire = -1 then none else some expire).getD (-1) = expire
  split
  · rename_i h
    exact h.symm
  · rfl

theorem vers_entryOf {t : Store} (hw : LoadsAs v w) (vers expire : Int) :
    t.vers (entryOf w vers expire).obj =
      match sharedOf v with
      | some n => t.shared n
      | none => vers := by
  cases hn : sharedOf v with
  | some n =>
    rw [hw.shared hn]
    rfl
  | none =>
    have hsh := hw.unshared hn
    have htag : (entryOf w vers expire).obj = ⟨vers, w⟩ := by
      simp only [entryOf, hsh, Bool.false_eq_true, if_false]
    rw [htag, Store.vers]
    split
    · rename_i m hm
      have hm' : w = .str (.int m true) := hm
      rw [hm'] at hsh
      cases hsh
    · rfl

section RoundTrip

variable {cfg : Cfg} {s t : Store} {saved now : Int} {slave : Bool}

theorem mem_records {d : Nat} {k : Bytes} {e : Entry} (hd : d < cfg.dbnum)
    (hget : s.get d k = some e) : (⟨d, k, e⟩ : Rec) ∈ (List.range cfg.dbnum).flatMap (recsOf s) :=
  List.mem_flatMap.mpr ⟨d, List.mem_range.mpr hd, mem_recsOf.mpr ⟨rfl, hget⟩⟩

theorem of_mem_records {r : Rec} (h : r ∈ (List.range cfg.dbnum).flatMap (recsOf s)) :
    r.d < cfg.dbnum ∧ s.get r.d r.k = some r.e := by
  obtain ⟨d, hd, hr⟩ := List.mem_flatMap.mp h
  obtain ⟨rfl, hget⟩ := mem_recsOf.mp hr
  exact ⟨List.mem_range.mp hd, hget⟩

theorem tagByte_eq_iff {v : Int} : tagByte v = v ↔ 0 ≤ v ∧ v < 256 := by
  unfold tagByte
  omega

/-- **The store comes back exactly when it can.** -/
theorem Loaded.restored_iff
    (h : Loaded s saved now slave ((List.range cfg.dbnum).flatMap (recsOf s)) t) :
    Restored cfg saved now slave s t ↔ Restorable cfg saved now slave s := by
  constructor
  · intro hres
    -- the tag read for a kept entry is the byte of a kept entry
    have hkept : ∀ d < cfg.dbnum, ∀ k e, s.get d k = some e → Kept saved now slave e →
        ∃ w, LoadsAs e.obj.val w ∧ SameContents e.obj.val w ∧
          s.vers e.obj = (match sharedOf e.obj.val with
            | some n => t.shared n
            | none => tagByte (s.vers e.obj)) := by
      intro d hd k e hget hk
      obtain ⟨w, hw, hwget⟩ := h.found ⟨d, k, e⟩ (mem_records hd hget) hk
      obtain ⟨e', he', hsame, -, hvers⟩ := hres.found d hd k e hget hk
      obtain rfl := Option.some.inj (hwget.symm.trans he')
      exact ⟨w, hw, hsame, hvers.symm.trans (vers_entryOf hw _ _)⟩
    refine ⟨fun d hd k e hget hk => ?_, ?_, fun d hd k e hget hk => ?_⟩
    · obtain ⟨w, hw, -, hvers⟩ := hkept d hd k e hget hk
      cases hn : sharedOf e.obj.val with
      | none =>
        rw [hn] at hvers
        exact tagByte_eq_iff.mp hvers.symm
      | some n =>
        rw [hn] at hvers
        obtain ⟨r, -, -, -, htag⟩ := h.tags n ⟨d, k, e⟩ (mem_records hd hget) hk hn
        have hbyte : s.vers e.obj = tagByte (s.vers r.e.obj) := hvers.trans htag
        unfold tagByte at hbyte
        omega
    · intro d hd k e hget hk d' hd' k' e' hget' hk' n hn hn'
      obtain ⟨-, -, -, hvers⟩ := hkept d hd k e hget hk
      obtain ⟨-, -, -, hvers'⟩ := hkept d' hd' k' e' hget' hk'
      rw [hn] at hvers
      rw [hn'] at hvers'
      exact hvers.trans hvers'.symm
    · obtain ⟨w, hw, hsame, -⟩ := hkept d hd k e hget hk
      exact hw.sameContents_iff.mp hsame
  · intro hcan
    refine ⟨fun d hd k e hget hk => ?_, fun d hd k hnone => ?_⟩
    · obtain ⟨w, hw, hwget⟩ := h.found ⟨d, k, e⟩ (mem_records hd hget) hk
      refine ⟨_, hwget, hw.sameContents_iff.mpr (hcan.scores d hd k e hget hk),
        getExpire_entryOf _ _ _, ?_⟩
      rw [vers_entryOf hw]
      cases hn : sharedOf e.obj.val with
      | none => exact tagByte_eq_iff.mpr (hcan.byte d hd k e hget hk)
      | some n =>
        obtain ⟨r, hr, hrk, hrn, htag⟩ := h.tags n ⟨d, k, e⟩ (mem_records hd hget) hk hn
        obtain ⟨hrd, hrget⟩ := of_mem_records hr
        have hbyte := tagByte_eq_iff.mpr (hcan.byte r.d hrd r.k r.e hrget hrk)
        have hsame := hcan.numbers d hd k e hget hk r.d hrd r.k r.e hrget hrk n hn hrn
        exact htag.trans (hbyte.trans hsame.symm)
    · refine h.only d k fun r hr hrd hrk => ?_
      obtain ⟨-, hrget⟩ := of_mem_records hr
      rw [hrd, hrk, hnone] at hrget
      cases hrget

end RoundTrip

/-- **What `rdbSave` writes, `rdbLoad` reads; and it restores the store exactly when every tag is
a byte, equal numbers carry equal tags and no skip list holds a negative zero.** -/
theorem dump_round_trip {cfg : Cfg} (lib : RdbLib cfg) {s s₀ : Store} (hs : Dumpable lib s)
    (hempty : ∀ d k, s₀.get d k = none) (saved now : Int) (slave : Bool) :
    ∃ t, rdbLoad lib now slave (rdbSave lib saved s) s₀ = some t ∧
      (Restored cfg saved now slave s t ↔ Restorable cfg saved now slave s) := by
  obtain ⟨t, hload, hloaded⟩ := load_save saved now slave hs hempty
  exact ⟨t, hload, hloaded.restored_iff⟩

/-! ## Runs -/

def markEntry (b : Bytes) : Bytes := b.flatMap (fun x => [1, x]) ++ [0]

def unmark : Bytes → Option (List Bytes)
  | [] => some []
  | [x] => if x = 0 then some [[]] else none
  | x :: y :: rest =>
    if x = 0 then (unmark (y :: rest)).map ([] :: ·)
    else
      match unmark rest with
      | some (b :: l) => some ((y :: b) :: l)
      | _ => none

theorem unmark_end (l : Bytes) : unmark (0 :: l) = (unmark l).map ([] :: ·) := by
  cases l with
  | nil => rfl
  | cons y l => rw [unmark, if_pos rfl]

theorem unmark_mark (l : List Bytes) : unmark (l.flatMap markEntry) = some l := by
  induction l with
  | nil => rfl
  | cons b l ih =>
    rw [List.flatMap_cons, markEntry, List.append_assoc, List.singleton_append]
    induction b with
    | nil =>
      rw [List.flatMap_nil, List.nil_append, unmark_end, ih]
      rfl
    | cons x b ihb =>
      rw [List.flatMap_cons, List.append_assoc]
      change unmark (1 :: x :: (b.flatMap (fun x => [1, x]) ++ 0 :: l.flatMap markEntry)) = _
      rw [unmark, if_neg (by decide), ihb]

theorem mapM_string2ll {l : List Int} (h : ∀ n ∈ l, -2 ^ 63 ≤ n ∧ n < 2 ^ 63) :
    (l.map ll2string).mapM string2ll = some l := by
  induction l with
  | nil => rfl
  | cons n l ih =>
    have hn := h n List.mem_cons_self
    rw [List.map_cons, List.mapM_cons, string2ll_ll2string hn.1 hn.2,
      ih fun m hm => h m (List.mem_cons_of_mem _ hm)]
    rfl

def doubleBytes (d : Double) : Bytes := leBytes 8 d.toNat

def doubleOf (b : Bytes) : Double := UInt64.ofNat (leNat b)

theorem doubleOf_bytes (d : Double) : doubleOf (doubleBytes d) = d := by
  have hval := leNat_leBytes 8 (d.toNat : Int)
  have hlt := UInt64.toNat_lt d
  have heq : leNat (leBytes 8 (d.toNat : Int)) = d.toNat := by omega
  rw [doubleOf, doubleBytes, heq, UInt64.ofNat_toNat]

def plainCfg : Cfg where
  d2string d := 0 :: doubleBytes d
  strtod b := doubleOf b.tail

def plainLib : RdbLib plainCfg where
  compression := false
  checksum := false
  crc64 _ := 0
  lzfCompress _ := none
  lzfDecompress _ _ := none
  lzf_back _ _ h := nomatch h
  lzf_short _ _ h := nomatch h
  ziplistBlob l := l.flatMap markEntry
  ziplistRead := unmark
  ziplist_back := unmark_mark
  intsetBlob l := (l.map ll2string).flatMap markEntry
  intsetRead b := (unmark b).bind (·.mapM string2ll)
  intset_back l h := by rw [unmark_mark, Option.bind_some, mapM_string2ll h]
  doubleLong d := if d = 0 ∨ d = negZero then some 0 else none
  doubleLong_range d n h := by
    split at h <;> cases h
    decide
  doubleLong_zero := rfl
  doubleLong_negZero := rfl
  fmtG := doubleBytes
  scanG b := if b = [48] then 0 else doubleOf b
  fmtG_short d := by rw [doubleBytes, leBytes_length]; decide
  scan_fmtG d _ _ := by
    have hne : doubleBytes d ≠ [48] := by
      intro h
      have := leBytes_length 8 (d.toNat : Int)
      rw [show leBytes 8 (d.toNat : Int) = [48] from h] at this
      cases this
    rw [if_neg hne, doubleOf_bytes]
  scan_long d n h hz := by
    split at h
    · rename_i hd
      cases h
      rw [if_pos (by decide)]
      exact (hd.resolve_right hz).symm
    · cases h
  rNan := 0x7FF8000000000000
  score_text d _ := doubleOf_bytes d

def taggedStore (vers : Int) : Store :=
  Store.init.put 0 (lit "a:s") (some ⟨⟨vers, .str (.raw (lit "hello"))⟩, none⟩)

theorem get_taggedStore {vers : Int} {d : Nat} {k : Bytes} {e : Entry}
    (h : (taggedStore vers).get d k = some e) :
    d = 0 ∧ k = lit "a:s" ∧ e = ⟨⟨vers, .str (.raw (lit "hello"))⟩, none⟩ := by
  rw [taggedStore, Store.get_put] at h
  split at h
  · rename_i hdk
    exact ⟨hdk.1, hdk.2, (Option.some.inj h).symm⟩
  · cases h

theorem dumpable_taggedStore (vers : Int) : Dumpable plainLib (taggedStore vers) := by
  refine ⟨by decide, fun d k e h => ?_, fun d k e h => ?_, fun d k e h => ?_⟩
  · obtain ⟨-, rfl, -⟩ := get_taggedStore h
    decide
  · obtain ⟨-, -, rfl⟩ := get_taggedStore h
    change (lit "hello").length < lenErr
    decide
  · obtain ⟨-, -, rfl⟩ := get_taggedStore h
    change -2 ^ 63 ≤ (-1 : Int) ∧ (-1 : Int) < 2 ^ 63
    omega

/-- A tag of one byte. -/
theorem dump_round_trip_byte : Dumpable plainLib (taggedStore 1) ∧
    ∃ t, rdbLoad plainLib 0 false (rdbSave plainLib 0 (taggedStore 1)) Store.init = some t ∧
      (Restored plainCfg 0 0 false (taggedStore 1) t ↔
        Restorable plainCfg 0 0 false (taggedStore 1)) :=
  ⟨dumpable_taggedStore 1, dump_round_trip plainLib (dumpable_taggedStore 1) (fun _ _ => rfl) 0 0 false⟩

/-- A tag of two bytes does not survive. -/
theorem dump_loses_tag : Dumpable plainLib (taggedStore 300) ∧
    ∃ t, rdbLoad plainLib 0 false (rdbSave plainLib 0 (taggedStore 300)) Store.init = some t ∧
      ¬ Restored plainCfg 0 0 false (taggedStore 300) t := by
  refine ⟨dumpable_taggedStore 300, ?_⟩
  obtain ⟨t, hload, hloaded⟩ := load_save 0 0 false (dumpable_taggedStore 300)
    (fun d k => (rfl : Store.init.get d k = none))
  refine ⟨t, hload, fun hres => ?_⟩
  have hbyte := (hloaded.restored_iff.mp hres).byte 0 (by decide) (lit "a:s") _ (Store.get_put_self ..)
    ⟨fun h => h.1 rfl, fun h => h.2.1 rfl⟩
  exact absurd hbyte.2 (by decide)

end SchemaUpdate.KVolve
