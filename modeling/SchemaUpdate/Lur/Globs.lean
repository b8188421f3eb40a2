import Mathlib.Data.List.DropRight
import SchemaUpdate.Lib.Decimal

/-! # The keys of an `add` stanza

`generate_add_key` expands the ranges of a key glob. The splitting of the glob into literals and
bracketed groups, which a parsing library does, is taken for granted. -/

namespace SchemaUpdate.Lur

open SchemaUpdate.Lib

/-! ## Globs -/

/-- An integer as it is written in a range. -/
structure Numeral where
  neg : Bool
  digits : Bytes
  ne : digits ≠ []
  all : digits.all isDigit = true

@[simp]
def Numeral.val (n : Numeral) : Int := if n.neg then -digitsVal n.digits else digitsVal n.digits

@[simp]
def Numeral.pieces (n : Numeral) : List Bytes := if n.neg then [[], n.digits] else [n.digits]

inductive Span
  | one (n : Numeral)
  | interval (lo hi : Numeral)

def pyRange (l h : Int) : List Int := (List.range (h + 1 - l).toNat).map fun (i : Nat) => l + i

namespace Span

@[simp]
def numerals : Span → List Numeral
  | one n => [n]
  | interval lo hi => [lo, hi]

def text (i : Span) : Bytes := [45].intercalate (i.numerals.flatMap Numeral.pieces)

@[simp]
def values : Span → List Int
  | one n => [n.val]
  | interval lo hi => pyRange lo.val hi.val

def unsigned (i : Span) : Bool := i.numerals.all fun n => !n.neg

end Span

/-- A literal, free of blanks and brackets, or the items of a range. -/
inductive Chunk
  | lit (t : Bytes) (ht : t ≠ [] ∧ ∀ c ∈ t, c ∉ lit " []")
  | range (items : List Span) (hi : items ≠ [])

namespace Chunk

def isRange : Chunk → Bool
  | lit .. => false
  | range .. => true

def text : Chunk → Bytes
  | lit t _ => t
  | range items _ => 91 :: ([44].intercalate (items.map Span.text) ++ [93])

def texts : Chunk → List Bytes
  | lit t _ => [t]
  | range items _ => (items.flatMap Span.values).map ll2string

def unsigned : Chunk → Bool
  | lit .. => true
  | range items _ => items.all Span.unsigned

end Chunk

def cross (a b : List Bytes) : List Bytes := a.flatMap fun x => b.map (x ++ ·)

/-- The keys a glob stands for, from left to right. -/
def choices : List Chunk → List Bytes
  | [] => [[]]
  | c :: rest => cross c.texts (choices rest)

/-! ## `generate_add_key` -/

/-- `int` of a text without a sign. -/
def pyInt (b : Bytes) : Option Int := if b ≠ [] ∧ b.all isDigit then some (digitsVal b) else none

def mixrangeItem (i : Bytes) : Option (List Int) :=
  if 45 ∉ i then (pyInt i).map ([·])
  else
    match i.splitOn 45 with
    | [l, h] => do some (pyRange (← pyInt l) (← pyInt h))
    | _ => none

def mixrange (s : Bytes) : Option (List Int) := ((s.splitOn 44).mapM mixrangeItem).map List.flatten

/-- One turn of the loop over the chunks. -/
def addChunk (app : List Bytes) : Chunk → Option (List Bytes)
  | .lit t _ => some (if app = [] then [t] else app.map (· ++ t))
  | .range items _ => (mixrange ([44].intercalate (items.map Span.text))).map fun r =>
      app.flatMap fun i => r.map fun j => i ++ ll2string j

/-- The list of keys that is written to the generated function. -/
def generateAddKey (glob : List Chunk) : Option (List Bytes) :=
  if glob.any Chunk.isRange then glob.foldlM addChunk []
  else some ((glob.flatMap Chunk.text).map ([·]))

/-- Without a range the glob is one character. Otherwise no number has a sign, and a range after the
last literal is empty or the glob starts with a literal and no range is empty. -/
def Expands (glob : List Chunk) : Prop :=
  if glob.any Chunk.isRange then
    glob.all Chunk.unsigned ∧ ((∃ c ∈ glob.rtakeWhile Chunk.isRange, c.texts = []) ∨
      (∀ c ∈ glob, c.texts ≠ []) ∧ ∃ c ∈ glob.head?, c.isRange = false)
  else (glob.flatMap Chunk.text).length = 1

/-! ## Reading a range -/

section Ranges

variable {items : List Span}

theorem Numeral.free (n : Numeral) {d : UInt8} (hd : isDigit d = false) : d ∉ n.digits := by
  intro h
  rw [List.all_eq_true.mp n.all d h] at hd
  cases hd

theorem pyInt_digits (n : Numeral) : pyInt n.digits = some (digitsVal n.digits : Int) :=
  if_pos ⟨n.ne, n.all⟩

theorem Span.splitOn_text (i : Span) : i.text.splitOn 45 = i.numerals.flatMap Numeral.pieces := by
  refine List.splitOn_intercalate 45 (fun p hp => ?_) ?_
  · obtain ⟨n, -, hp⟩ := List.mem_flatMap.mp hp
    obtain rfl | rfl : p = [] ∨ p = n.digits := by
      unfold Numeral.pieces at hp
      split at hp <;> simp_all
    · exact List.not_mem_nil
    · exact n.free (by decide)
  · cases i <;> simp <;> split <;> simp

theorem Span.comma_free (i : Span) : 44 ∉ i.text := by
  have hfree : ∀ n : Numeral, 44 ∉ n.digits := fun n => n.free (by decide)
  cases i <;> simp only [text, numerals, Numeral.pieces, List.flatMap_cons, List.flatMap_nil] <;>
    split <;> simp [List.intercalate, hfree] <;> split <;> simp [hfree]

theorem mixrangeItem_text (i : Span) :
    mixrangeItem i.text = if i.unsigned then some i.values else none := by
  have hsplit := i.splitOn_text
  cases i with
  | one n =>
    cases hn : n.neg with
    | false =>
      have htext : (Span.one n).text = n.digits := by simp [Span.text, hn, List.intercalate]
      have hfree : 45 ∉ n.digits := n.free (by decide)
      simp [mixrangeItem, htext, hfree, pyInt_digits, Span.unsigned, hn]
    | true =>
      have htext : 45 ∈ (Span.one n).text := by simp [Span.text, hn, List.intercalate]
      simp [mixrangeItem, htext, hsplit, pyInt, Span.unsigned, hn]
  | interval lo hi =>
    have htext : 45 ∈ (Span.interval lo hi).text := by
      simp only [Span.text, Span.numerals, Numeral.pieces, List.flatMap_cons, List.flatMap_nil]
      split <;> split <;> simp [List.intercalate]
    cases hl : lo.neg <;> cases hh : hi.neg <;>
      simp [mixrangeItem, htext, hsplit, pyInt_digits, Span.unsigned, hl, hh]

theorem mapM_mixrangeItem : ((items.map Span.text).mapM mixrangeItem).map List.flatten =
    if items.all Span.unsigned then some (items.flatMap Span.values) else none := by
  induction items with
  | nil => rfl
  | cons i rest ih =>
    rw [List.map_cons, List.mapM_cons, mixrangeItem_text]
    cases hu : i.unsigned <;> cases hm : (rest.map Span.text).mapM mixrangeItem <;> rw [hm] at ih <;>
      cases hr : rest.all Span.unsigned <;> simp_all

theorem mixrange_items (hi : items ≠ []) : mixrange ([44].intercalate (items.map Span.text)) =
    if items.all Span.unsigned then some (items.flatMap Span.values) else none := by
  rw [mixrange, List.splitOn_intercalate 44 _ (by simpa using hi), mapM_mixrangeItem]
  intro p hp
  obtain ⟨i, -, rfl⟩ := List.mem_map.mp hp
  exact i.comma_free

end Ranges

/-! ## The loop -/

/-- A turn of the loop when the numbers can be read: the first literal that finds no key starts a
new list. -/
def stepTexts (app : List Bytes) (c : Chunk) : List Bytes :=
  if app = [] ∧ c.isRange = false then c.texts else cross app c.texts

section Loop

variable {app a b : List Bytes} {c : Chunk} {glob pre rest : List Chunk}

theorem addChunk_eq : addChunk app c = if c.unsigned then some (stepTexts app c) else none := by
  cases c with
  | lit t ht =>
    by_cases happ : app = []
    · simp [addChunk, stepTexts, Chunk.unsigned, Chunk.texts, Chunk.isRange, happ]
    · simp [addChunk, stepTexts, Chunk.unsigned, Chunk.texts, happ, cross, List.map_eq_flatMap]
  | range items hi =>
    rw [addChunk, mixrange_items hi, Chunk.unsigned]
    split
    · simp [stepTexts, Chunk.isRange, Chunk.texts, cross, Function.comp_def]
    · rfl

theorem foldlM_addChunk : glob.foldlM addChunk app =
    if glob.all Chunk.unsigned then some (glob.foldl stepTexts app) else none := by
  induction glob generalizing app with
  | nil => rfl
  | cons c rest ih =>
    rw [List.foldlM_cons, addChunk_eq]
    cases hc : c.unsigned <;> simp [ih, hc]

theorem cross_assoc (d : List Bytes) : cross (cross a b) d = cross a (cross b d) := by
  simp [cross, List.flatMap_assoc, List.map_flatMap, List.flatMap_map, Function.comp_def]

theorem cross_eq_nil : cross a b = [] ↔ a = [] ∨ b = [] := by
  cases a <;> simp +contextual [cross]

theorem choices_append (g : List Chunk) : choices (pre ++ g) = cross (choices pre) (choices g) := by
  induction pre with
  | nil => simp [choices, cross]
  | cons c rest ih => rw [List.cons_append, choices, ih, choices, cross_assoc]

theorem choices_eq_nil : choices glob = [] ↔ ∃ c ∈ glob, c.texts = [] := by
  induction glob with
  | nil => simp [choices]
  | cons c rest ih => rw [choices, cross_eq_nil, ih, List.exists_mem_cons_iff]

theorem foldl_started (happ : app ≠ []) (h : ∀ c ∈ glob, c.texts ≠ []) :
    glob.foldl stepTexts app = cross app (choices glob) := by
  induction glob generalizing app with
  | nil => simp [choices, cross]
  | cons c rest ih =>
    obtain ⟨hc, hrest⟩ := List.forall_mem_cons.mp h
    rw [List.foldl_cons, stepTexts, if_neg fun h => happ h.1, ih _ hrest, cross_assoc, choices]
    exact fun hnil => (cross_eq_nil.mp hnil).elim happ hc

theorem Chunk.texts_ne {x : Bytes} (hx : x ∈ c.texts) : x ≠ [] := by
  cases c with
  | lit t ht => rw [List.mem_singleton.mp hx]; exact ht.1
  | range items _ =>
    obtain ⟨n, -, rfl⟩ := List.mem_map.mp hx
    rw [ll2string_eq]
    simp [(decDigits_spec n.natAbs).ne]

theorem stepTexts_literal (h : c.isRange = false) : stepTexts app c ≠ [] := by
  cases c with
  | lit t ht =>
    unfold stepTexts
    split
    · simp [Chunk.texts]
    · rw [Ne, cross_eq_nil]
      simp_all [Chunk.texts, Chunk.isRange]
  | range => cases h

theorem foldl_literal (hr : c.isRange = false) (h : ∀ d ∈ c :: rest, d.texts ≠ []) :
    (c :: rest).foldl stepTexts [] = choices (c :: rest) := by
  obtain ⟨hc, hrest⟩ := List.forall_mem_cons.mp h
  rw [List.foldl_cons, stepTexts, if_pos ⟨rfl, hr⟩, foldl_started hc hrest, choices]

theorem foldl_range (hr : c.isRange = true) :
    (c :: rest).foldl stepTexts [] = rest.foldl stepTexts [] := by
  rw [List.foldl_cons, stepTexts, if_neg (by simp [hr])]
  rfl

/-- Ranges that come before the first literal are dropped. -/
theorem foldl_dropped (h : ∀ c ∈ glob, c.texts ≠ []) : glob.foldl stepTexts [] = [] ∨
    ∃ pre post, glob = pre ++ post ∧ glob.foldl stepTexts [] = choices post := by
  induction glob with
  | nil => exact .inl rfl
  | cons c rest ih =>
    cases hr : c.isRange with
    | false => exact .inr ⟨[], c :: rest, rfl, foldl_literal hr h⟩
    | true =>
      rw [foldl_range hr]
      obtain h | ⟨pre, post, hsplit, heq⟩ := ih (List.forall_mem_cons.mp h).2
      · exact .inl h
      · exact .inr ⟨c :: pre, post, by rw [hsplit]; rfl, heq⟩

/-- A glob that starts with a range loses it, so that its first key is too short. -/
theorem foldl_ne_choices (hr : c.isRange = true) (h : ∀ d ∈ c :: rest, d.texts ≠ []) :
    (c :: rest).foldl stepTexts [] ≠ choices (c :: rest) := by
  obtain ⟨hc, hrest⟩ := List.forall_mem_cons.mp h
  have hne : ∀ {g : List Chunk}, (∀ d ∈ g, d ∈ rest) → choices g ≠ [] := fun hg hnil =>
    have ⟨d, hd, hd'⟩ := choices_eq_nil.mp hnil
    hrest d (hg d hd) hd'
  obtain ⟨x, xs, hx⟩ := List.exists_cons_of_ne_nil hc
  rw [foldl_range hr]
  intro heq
  obtain hnil | ⟨pre, post, rfl, hpost⟩ := foldl_dropped hrest
  · rw [hnil, eq_comm, choices, cross_eq_nil] at heq
    exact heq.elim hc (hne fun _ => id)
  · obtain ⟨p, ps, hp⟩ := List.exists_cons_of_ne_nil (hne fun d => List.mem_append_left post)
    obtain ⟨q, qs, hq⟩ := List.exists_cons_of_ne_nil (hne fun d => List.mem_append_right pre)
    rw [hpost, choices, choices_append, hx, hp, hq] at heq
    have hhead := congrArg List.length (List.cons.inj heq).1
    simp only [List.length_append] at hhead
    exact Chunk.texts_ne (hx ▸ List.mem_cons_self) (List.length_eq_zero_iff.mp (by omega))

theorem foldl_eq_nil_iff : glob.foldl stepTexts [] = [] ↔
    (∀ c ∈ glob, c.isRange = true) ∨ ∃ c ∈ glob.rtakeWhile Chunk.isRange, c.texts = [] := by
  induction glob using List.reverseRecOn with
  | nil => simp
  | append_singleton g c ih =>
    rw [List.foldl_append, List.foldl_cons, List.foldl_nil]
    cases hr : c.isRange with
    | false => simp [stepTexts_literal hr, hr, List.rtakeWhile_concat_neg]
    | true =>
      rw [stepTexts, if_neg (by simp [hr]), cross_eq_nil, ih, List.rtakeWhile_concat_pos _ _ _ hr]
      simp [or_imp, forall_and, hr, or_and_right, exists_or, or_assoc]

theorem foldl_eq_choices_iff (hne : glob ≠ []) : glob.foldl stepTexts [] = choices glob ↔
    (∃ c ∈ glob.rtakeWhile Chunk.isRange, c.texts = []) ∨
      (∀ c ∈ glob, c.texts ≠ []) ∧ ∃ c ∈ glob.head?, c.isRange = false := by
  by_cases hall : ∀ c ∈ glob, c.texts ≠ []
  · have hlate : ¬ ∃ c ∈ glob.rtakeWhile Chunk.isRange, c.texts = [] := fun ⟨c, hc, hnil⟩ =>
      hall c ((List.rtakeWhile_suffix _ _).subset hc) hnil
    rw [or_iff_right hlate, and_iff_right hall]
    obtain ⟨c, rest, rfl⟩ := List.exists_cons_of_ne_nil hne
    cases hr : c.isRange with
    | false => exact iff_of_true (foldl_literal hr hall) (by simp [hr])
    | true => exact iff_of_false (foldl_ne_choices hr hall) (by simp [hr])
  · -- the product is empty
    have hnil : ∃ c ∈ glob, c.texts = [] := by simpa using hall
    rw [choices_eq_nil.mpr hnil, foldl_eq_nil_iff, or_iff_right_of_imp fun hranges => ?_]
    · exact (or_iff_left fun h => hall h.1).symm
    · rwa [List.rtakeWhile_eq_self_iff.mpr hranges]

theorem choices_literals (h : glob.any Chunk.isRange = false) :
    choices glob = [glob.flatMap Chunk.text] := by
  induction glob with
  | nil => rfl
  | cons c rest ih =>
    obtain ⟨hc, hrest⟩ := Bool.or_eq_false_iff.mp h
    cases c with
    | lit t ht => rw [choices, ih hrest, List.flatMap_cons]; rfl
    | range => cases hc

end Loop

/-- **The keys written for a glob are those it stands for, once each and in order, exactly when the
loop starts at a literal, or nothing is left of it, and the numbers have no sign.** -/
theorem keys_expand_iff (glob : List Chunk) :
    generateAddKey glob = some (choices glob) ↔ Expands glob := by
  unfold generateAddKey Expands
  split
  · rename_i hrange
    have hne : glob ≠ [] := by
      rintro rfl
      cases hrange
    rw [foldlM_addChunk, ← foldl_eq_choices_iff hne]
    cases glob.all Chunk.unsigned <;> simp
  · rename_i hrange
    rw [choices_literals (Bool.eq_false_iff.mpr hrange)]
    cases hl : glob.flatMap Chunk.text with
    | nil => simp
    | cons c l => simp

/-- `abc`: a key for every character. -/
theorem plain_glob_split : ∃ glob, glob.flatMap Chunk.text = lit "abc" ∧
    generateAddKey glob = some [lit "a", lit "b", lit "c"] ∧ choices glob = [lit "abc"] :=
  ⟨[.lit (lit "abc") (by decide +kernel)], by decide⟩

end SchemaUpdate.Lur
