import Mathlib.Algebra.Group.Int.Defs
import Mathlib.Algebra.Group.Nat.Defs
import Mathlib.Data.List.Basic
import Mathlib.Data.List.TakeWhile

/-! # Byte strings and the C string functions

Byte strings as lists, with the operations of the C library that code over
NUL-terminated strings relies on: the C string of a buffer, the last occurrence
of a character (`strrchr`), case-insensitive comparison, and the decimal
conversions. The last-occurrence split is stated over an arbitrary alphabet. -/

namespace SchemaUpdate.Lib

abbrev Bytes := List UInt8

instance instLawfulBEqBytes : LawfulBEq Bytes := inferInstance

def lit (s : String) : Bytes := s.toList.map fun ch => ch.toNat.toUInt8

/-! ## Splitting at the last occurrence -/

section Split

variable {α : Type} [DecidableEq α]

/-- What stands before and after the last `c`, as `strrchr` finds it. -/
def rsplit (c : α) : List α → Option (List α × List α)
  | [] => none
  | x :: xs =>
    match rsplit c xs with
    | some (p, q) => some (x :: p, q)
    | none => if x = c then some ([], xs) else none

variable {c : α} {l q : List α}

theorem rsplit_eq_none : rsplit c l = none ↔ c ∉ l := by
  induction l with
  | nil => simp [rsplit]
  | cons x xs ih =>
    simp only [rsplit, List.mem_cons, not_or]
    cases h : rsplit c xs with
    | some pq =>
      have hc : c ∈ xs := by
        by_contra hn
        rw [ih.mpr hn] at h
        cases h
      simp [hc]
    | none =>
      have hc := ih.mp h
      by_cases hx : x = c
      · simp [hx]
      · simp [hx, hc, Ne.symm hx]

theorem rsplit_sound {p : List α} (h : rsplit c l = some (p, q)) : l = p ++ c :: q ∧ c ∉ q := by
  induction l generalizing p with
  | nil => cases h
  | cons x xs ih =>
    simp only [rsplit] at h
    split at h
    · rename_i p' q' hx
      cases h
      obtain ⟨rfl, hq⟩ := ih hx
      exact ⟨rfl, hq⟩
    · rename_i hx
      split at h
      · cases h
        rename_i hxc
        exact ⟨by rw [hxc]; rfl, rsplit_eq_none.mp hx⟩
      · cases h

theorem rsplit_append (hq : c ∉ q) (p : List α) : rsplit c (p ++ c :: q) = some (p, q) := by
  induction p with
  | nil => simp [rsplit, rsplit_eq_none.mpr hq]
  | cons x p ih => simp [rsplit, ih]

theorem rsplit_length_lt {p : List α} (h : rsplit c l = some (p, q)) : p.length < l.length := by
  rw [(rsplit_sound h).1, List.length_append, List.length_cons]
  omega

end Split

/-! ## C strings -/

/-- The bytes up to the first NUL: what a `char *` into the buffer denotes. -/
def cstr (b : Bytes) : Bytes := b.takeWhile (· != 0)

/-- No NUL inside: the buffer and the C string agree. -/
def NulFree (b : Bytes) : Prop := (0 : UInt8) ∉ b

instance (b : Bytes) : Decidable (NulFree b) := inferInstanceAs (Decidable (_ ∉ _))

theorem cstr_nulFree (b : Bytes) : NulFree (cstr b) := by
  intro h
  simpa using List.mem_takeWhile_imp h

variable {b : Bytes}

theorem cstr_eq_self (h : NulFree b) : cstr b = b := by
  apply List.takeWhile_eq_self_iff.mpr
  intro x hx
  simp only [bne_iff_ne]
  rintro rfl
  exact h hx

theorem nulFree_append {a : Bytes} : NulFree (a ++ b) ↔ NulFree a ∧ NulFree b := by
  simp [NulFree, not_or]

theorem nulFree_cons {x : UInt8} : NulFree (x :: b) ↔ x ≠ 0 ∧ NulFree b := by
  simp [NulFree, not_or, eq_comm]

theorem cstr_append {a : Bytes} (h : NulFree a) (b : Bytes) : cstr (a ++ b) = a ++ cstr b := by
  induction a with
  | nil => rfl
  | cons x a ih =>
    obtain ⟨hx, ha⟩ := nulFree_cons.mp h
    have hx' : (x != 0) = true := by simpa using hx
    simp only [cstr, List.cons_append, List.takeWhile_cons, hx', if_true] at *
    rw [ih ha]

theorem cstr_prefix (b : Bytes) : cstr b <+: b := List.takeWhile_prefix _

/-! ## Characters -/

def colon : UInt8 := 58

def lower (c : UInt8) : UInt8 := if 65 ≤ c ∧ c ≤ 90 then c + 32 else c

def upper (c : UInt8) : UInt8 := if 97 ≤ c ∧ c ≤ 122 then c - 32 else c

def strcasecmp (a b : Bytes) : Bool := (cstr a).map lower == (cstr b).map lower

def isspace (c : UInt8) : Bool := c == 32 || (9 ≤ c && c ≤ 13)

/-! ## Decimal conversions -/

def isDigit (c : UInt8) : Bool := 48 ≤ c && c ≤ 57

def digitsVal (b : Bytes) : Nat := b.foldl (fun n c => n * 10 + (c.toNat - 48)) 0

/-- The value of a non-empty run of digits. -/
def parseDigits (b : Bytes) : Option Nat :=
  if b ≠ [] ∧ b.all isDigit then some (digitsVal b) else none

def ll2string (n : Int) : Bytes :=
  (if n < 0 then [45] else []) ++ (Nat.toDigits 10 n.natAbs).map fun ch => ch.toNat.toUInt8

def signed64 (neg : Bool) (v : Nat) : Option Int :=
  if neg then (if v ≤ 2 ^ 63 then some (-(v : Int)) else none)
  else if v < 2 ^ 63 then some (v : Int) else none

/-- `string2ll`: canonical decimal texts of 64-bit integers only. -/
def string2ll (b : Bytes) : Option Int :=
  if b = [48] then some 0
  else
    let neg := b.head? == some 45
    let ds := if neg then b.tail else b
    match ds.head? with
    | some c => if 49 ≤ c ∧ c ≤ 57 then (parseDigits ds).bind (signed64 neg) else none
    | none => none

/-- `strtoll(s, &eptr, 10)` as the callers use it: a leading blank, trailing text
and values out of range are refused, and the empty text is 0. -/
def strtoll (b : Bytes) : Option Int :=
  match cstr b with
  | [] => some 0
  | c :: t =>
    if c = 45 then (parseDigits t).bind (signed64 true)
    else if c = 43 then (parseDigits t).bind (signed64 false)
    else (parseDigits (c :: t)).bind (signed64 false)

/-- `atoi`: blanks, a sign, then the digits that follow. -/
def atoi (b : Bytes) : Int :=
  let t := (cstr b).dropWhile isspace
  match t with
  | 45 :: r => -(digitsVal (r.takeWhile isDigit) : Int)
  | 43 :: r => digitsVal (r.takeWhile isDigit)
  | _ => digitsVal (t.takeWhile isDigit)

end SchemaUpdate.Lib
