import Mathlib.Data.List.Induction
import Mathlib.Tactic.IntervalCases
import SchemaUpdate.Lib.Bytes

/-! # Decimal texts

`ll2string` and `string2ll` are inverse to each other: a canonical text is the
text of the integer it denotes, and the text of a 64-bit integer is canonical. -/

namespace SchemaUpdate.Lib

/-- The decimal digits of a natural number, as `ll2string` writes them. -/
def decDigits (n : Nat) : Bytes := (Nat.toDigits 10 n).map fun ch => ch.toNat.toUInt8

def digit (n : Nat) : UInt8 := n.digitChar.toNat.toUInt8

theorem ll2string_eq (n : Int) :
    ll2string n = (if n < 0 then [45] else []) ++ decDigits n.natAbs := rfl

/-! ## One digit -/

theorem digit_toNat {n : Nat} (h : n < 10) : (digit n).toNat = n + 48 := by
  interval_cases n <;> rfl

variable {c : UInt8} {n : Int} {neg : Bool}

theorem isDigit_iff : isDigit c = true ↔ 48 ≤ c.toNat ∧ c.toNat ≤ 57 := by
  simp [isDigit, UInt8.le_iff_toNat_le]

theorem isDigit_digit {n : Nat} (h : n < 10) : isDigit (digit n) = true := by
  rw [isDigit_iff, digit_toNat h]
  omega

theorem digit_of_isDigit (h : isDigit c = true) : digit (c.toNat - 48) = c := by
  obtain ⟨hlo, hhi⟩ := isDigit_iff.mp h
  apply UInt8.toNat_inj.mp
  rw [digit_toNat (by omega)]
  omega

/-! ## Runs of digits -/

theorem decDigits_of_lt {n : Nat} (h : n < 10) : decDigits n = [digit n] := by
  rw [decDigits, Nat.toDigits_of_lt_base h]
  rfl

theorem decDigits_of_ge {n : Nat} (h : 10 ≤ n) :
    decDigits n = decDigits (n / 10) ++ [digit (n % 10)] := by
  rw [decDigits, Nat.toDigits_of_base_le (by omega) h, List.map_append]
  rfl

theorem digitsVal_append (l : Bytes) (c : UInt8) :
    digitsVal (l ++ [c]) = digitsVal l * 10 + (c.toNat - 48) := by
  simp [digitsVal]

/-- What the digits of a number look like. -/
structure Digits (n : Nat) (b : Bytes) : Prop where
  ne : b ≠ []
  all : b.all isDigit = true
  val : digitsVal b = n
  head : 0 < n → ∃ c t, b = c :: t ∧ 49 ≤ c ∧ c ≤ 57

theorem decDigits_spec (n : Nat) : Digits n (decDigits n) := by
  induction n using Nat.strongRecOn with
  | _ n ih =>
    rcases Nat.lt_or_ge n 10 with hlt | hge
    · rw [decDigits_of_lt hlt]
      refine ⟨by simp, by simp [isDigit_digit hlt], ?_, fun hpos => ⟨_, _, rfl, ?_, ?_⟩⟩
      · simp [digitsVal, digit_toNat hlt]
      · rw [UInt8.le_iff_toNat_le, digit_toNat hlt]
        change 49 ≤ n + 48
        omega
      · rw [UInt8.le_iff_toNat_le, digit_toNat hlt]
        change n + 48 ≤ 57
        omega
    · rw [decDigits_of_ge hge]
      have hq := ih (n / 10) (by omega)
      have hr : n % 10 < 10 := Nat.mod_lt _ (by omega)
      refine ⟨by simp, ?_, ?_, fun _ => ?_⟩
      · rw [List.all_append, hq.all]
        simp [isDigit_digit hr]
      · rw [digitsVal_append, hq.val, digit_toNat hr]
        omega
      · obtain ⟨c, t, hct, hc⟩ := hq.head (by omega)
        exact ⟨c, t ++ [digit (n % 10)], by rw [hct]; rfl, hc⟩

theorem decDigits_digitsVal (hc : 49 ≤ c) (t : Bytes) (hall : (c :: t).all isDigit = true) :
    0 < digitsVal (c :: t) ∧ decDigits (digitsVal (c :: t)) = c :: t := by
  induction t using List.reverseRecOn with
  | nil =>
    have hd : isDigit c = true := by simpa using hall
    obtain ⟨-, hhi⟩ := isDigit_iff.mp hd
    have hlo : 49 ≤ c.toNat := UInt8.le_iff_toNat_le.mp hc
    have hval : digitsVal [c] = c.toNat - 48 := by simp [digitsVal]
    rw [hval, decDigits_of_lt (by omega), digit_of_isDigit hd]
    exact ⟨by omega, rfl⟩
  | append_singleton t d ih =>
    rw [← List.cons_append, List.all_append, Bool.and_eq_true] at hall
    obtain ⟨hpos, heq⟩ := ih hall.1
    have hd : isDigit d = true := by simpa using hall.2
    obtain ⟨hlo, hhi⟩ := isDigit_iff.mp hd
    rw [← List.cons_append, digitsVal_append]
    refine ⟨by omega, ?_⟩
    rw [decDigits_of_ge (by omega)]
    have hdiv : (digitsVal (c :: t) * 10 + (d.toNat - 48)) / 10 = digitsVal (c :: t) := by omega
    have hmod : (digitsVal (c :: t) * 10 + (d.toNat - 48)) % 10 = d.toNat - 48 := by omega
    rw [hdiv, hmod, heq, digit_of_isDigit hd]

theorem parseDigits_decDigits (n : Nat) : parseDigits (decDigits n) = some n := by
  have h := decDigits_spec n
  rw [parseDigits, if_pos ⟨h.ne, h.all⟩, h.val]

/-! ## Signed texts -/

theorem signed64_eq_some {v : Nat} (h : signed64 neg v = some n) :
    n = if neg then -(v : Int) else v := by
  unfold signed64 at h
  cases neg with
  | true =>
    simp only [if_true] at h ⊢
    split at h <;> cases h
    rfl
  | false =>
    simp only [Bool.false_eq_true, if_false] at h ⊢
    split at h <;> cases h
    rfl

theorem signed64_range {v : Nat} (h : signed64 neg v = some n) : -2 ^ 63 ≤ n ∧ n < 2 ^ 63 := by
  unfold signed64 at h
  split at h
  · split at h <;> cases h
    omega
  · split at h <;> cases h
    omega

theorem string2ll_range {b : Bytes} (h : string2ll b = some n) : -2 ^ 63 ≤ n ∧ n < 2 ^ 63 := by
  unfold string2ll at h
  split at h
  · cases h
    omega
  · simp only at h
    split at h
    · split at h
      · obtain ⟨v, -, hs⟩ := Option.bind_eq_some_iff.mp h
        exact signed64_range hs
      · cases h
    · cases h

theorem parsed_digits {t : Bytes} (hc : 49 ≤ c)
    (h : (parseDigits (c :: t)).bind (signed64 neg) = some n) :
    decDigits n.natAbs = c :: t ∧ (n < 0 ↔ neg = true) := by
  obtain ⟨v, hv, hs⟩ := Option.bind_eq_some_iff.mp h
  unfold parseDigits at hv
  split at hv
  · rename_i hds
    cases hv
    obtain ⟨hpos, heq⟩ := decDigits_digitsVal hc t hds.2
    have hn := signed64_eq_some hs
    cases neg with
    | true =>
      simp only [if_true] at hn
      exact ⟨by rw [show n.natAbs = digitsVal (c :: t) by omega, heq], by simp; omega⟩
    | false =>
      simp only [Bool.false_eq_true, if_false] at hn
      exact ⟨by rw [show n.natAbs = digitsVal (c :: t) by omega, heq], by simp; omega⟩
  · cases hv

/-- **A canonical text is the text of its integer.** -/
theorem ll2string_of_string2ll {b : Bytes} (h : string2ll b = some n) : ll2string n = b := by
  unfold string2ll at h
  split at h
  · rename_i hb
    cases h
    rw [hb]
    rfl
  · cases b with
    | nil => cases h
    | cons x t =>
      by_cases hneg : x = 45
      · subst hneg
        simp only [List.head?_cons, beq_self_eq_true, if_true, List.tail_cons] at h
        cases t with
        | nil => cases h
        | cons c t =>
          simp only [List.head?_cons] at h
          split at h
          · rename_i hc
            obtain ⟨heq, hsign⟩ := parsed_digits hc.1 h
            rw [ll2string_eq, if_pos (hsign.mpr rfl), heq]
            rfl
          · cases h
      · have hhead : (some x == some (45 : UInt8)) = false := by simpa using hneg
        simp only [List.head?_cons, hhead, Bool.false_eq_true, if_false] at h
        split at h
        · rename_i hc
          obtain ⟨heq, hsign⟩ := parsed_digits hc.1 h
          rw [ll2string_eq, if_neg (by simp [hsign]), heq]
          rfl
        · cases h

/-- **The text of a 64-bit integer is canonical.** -/
theorem string2ll_ll2string (hlo : -2 ^ 63 ≤ n) (hhi : n < 2 ^ 63) :
    string2ll (ll2string n) = some n := by
  have hd := decDigits_spec n.natAbs
  have hparse := parseDigits_decDigits n.natAbs
  by_cases hz : n = 0
  · subst hz
    rfl
  obtain ⟨c, t, hct, hc, hc'⟩ := hd.head (by omega)
  rw [ll2string_eq, string2ll]
  by_cases hneg : n < 0
  · rw [if_pos hneg, if_neg (by simp [hct])]
    simp only [List.cons_append, List.nil_append, List.head?_cons, beq_self_eq_true, if_true,
      List.tail_cons]
    rw [hct] at hparse ⊢
    simp only [List.head?_cons, if_pos (And.intro hc hc'), hparse, Option.bind_some, signed64,
      if_true]
    rw [if_pos (by omega)]
    congr 1
    omega
  · have hne : (c :: t) ≠ [48] := by
      intro h
      cases h
      exact absurd hc (by decide)
    have hhead : (some c == some (45 : UInt8)) = false := by
      simp only [beq_eq_false_iff_ne, ne_eq, Option.some.injEq]
      rintro rfl
      exact absurd hc (by decide)
    rw [if_neg hneg, List.nil_append]
    rw [hct] at hparse ⊢
    rw [if_neg hne]
    simp only [List.head?_cons, hhead, Bool.false_eq_true, if_false, if_pos (And.intro hc hc'),
      hparse, Option.bind_some, signed64]
    rw [if_pos (by omega)]
    congr 1
    omega

theorem ll2string_injective : Function.Injective ll2string := by
  intro m n h
  rw [ll2string_eq, ll2string_eq] at h
  have hhead : ∀ k : Nat, (decDigits k).head? ≠ some 45 := by
    intro k hk
    have hs := decDigits_spec k
    have hmem : (45 : UInt8) ∈ decDigits k := List.mem_of_mem_head? hk
    have := List.all_eq_true.mp hs.all 45 hmem
    exact absurd this (by decide)
  have hinj : ∀ a b : Nat, decDigits a = decDigits b → a = b := by
    intro a b hab
    rw [← (decDigits_spec a).val, ← (decDigits_spec b).val, hab]
  by_cases hm : m < 0 <;> by_cases hn : n < 0
  · rw [if_pos hm, if_pos hn] at h
    have := hinj _ _ (List.append_cancel_left h)
    omega
  · rw [if_pos hm, if_neg hn] at h
    exact absurd (by rw [← List.nil_append (decDigits _), ← h]; rfl) (hhead n.natAbs)
  · rw [if_neg hm, if_pos hn] at h
    exact absurd (by rw [← List.nil_append (decDigits _), h]; rfl) (hhead m.natAbs)
  · rw [if_neg hm, if_neg hn] at h
    have := hinj _ _ (List.append_cancel_left h)
    omega

end SchemaUpdate.Lib
