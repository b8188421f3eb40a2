import Mathlib.Data.List.Basic
import Mathlib.Tactic.Ring
import SchemaUpdate.Lib.Bytes

/-! # Reading what was written

A reader consumes a prefix of a byte stream. `Reads r b a` says that `r` takes
exactly the bytes `b` and yields `a`, whatever follows; it composes along the
reader, so the round trip of a format is put together from those of its parts. -/

namespace SchemaUpdate.Lib

abbrev Reader := StateT Bytes Option

def fail {α : Type} : Reader α := fun _ => none

def readByte : Reader UInt8
  | [] => none
  | x :: rest => some (x, rest)

def readBytes (n : Nat) : Reader Bytes := fun b =>
  if n ≤ b.length then some (b.take n, b.drop n) else none

def times {σ : Type} (f : σ → Reader σ) : Nat → σ → Reader σ
  | 0, s => pure s
  | n + 1, s => f s >>= times f n

def Reads {α : Type} (r : Reader α) (b : Bytes) (a : α) : Prop :=
  ∀ rest, r (b ++ rest) = some (a, rest)

namespace Reads

variable {α β : Type} {r : Reader α} {f : α → Reader β} {b b' : Bytes} {a : α} {c : β}

theorem pure (a : α) : Reads (pure a : Reader α) [] a := fun _ => rfl

/-- What follows takes over at the bytes that were not read. -/
theorem run_bind (h : Reads r b a) (f : α → Reader β) (rest : Bytes) :
    (r >>= f) (b ++ rest) = f a rest := by
  change (r (b ++ rest)).bind (fun p => f p.1 p.2) = _
  rw [h rest]
  rfl

theorem bind (h : Reads r b a) (h' : Reads (f a) b' c) : Reads (r >>= f) (b ++ b') c := by
  intro rest
  rw [List.append_assoc, h.run_bind]
  exact h' rest

theorem andThen (h : Reads r b a) (h' : Reads (f a) [] c) : Reads (r >>= f) b c := by
  rw [← List.append_nil b]
  exact h.bind h'

theorem ofOption {x : Option β} (h : x = some c) : Reads (x : Reader β) [] c := by
  intro rest
  rw [h]
  rfl

theorem passed {p : Prop} [Decidable p] (h : ¬ p) (a : α) :
    Reads (if p then fail else Pure.pure a) [] a := by
  rw [if_neg h]
  exact .pure a

theorem byte (x : UInt8) : Reads readByte [x] x := fun _ => rfl

theorem cons {f : UInt8 → Reader β} {x : UInt8} (h : Reads (f x) b c) :
    Reads (readByte >>= f) (x :: b) c :=
  (Reads.byte x).bind h

theorem bytes {n : Nat} (h : b.length = n) : Reads (readBytes n) b b := by
  intro rest
  simp [readBytes, ← h]

/-- **The invariant rule of a counted loop.** -/
theorem times {σ ι : Type} {f : σ → Reader σ} {enc : ι → Bytes} {xs : List ι}
    {I : List ι → σ → Prop}
    (hstep : ∀ done x s, (done ++ [x]) <+: xs → I done s →
      ∃ s', Reads (f s) (enc x) s' ∧ I (done ++ [x]) s')
    {s : σ} (h0 : I [] s) :
    ∃ s', Reads (times f xs.length s) (xs.flatMap enc) s' ∧ I xs s' := by
  suffices haux : ∀ todo done s, done ++ todo = xs → I done s →
      ∃ s', Reads (Lib.times f todo.length s) (todo.flatMap enc) s' ∧ I xs s' from
    haux xs [] s rfl h0
  intro todo
  induction todo with
  | nil =>
    intro done s hxs hI
    rw [List.append_nil] at hxs
    exact ⟨s, .pure s, hxs ▸ hI⟩
  | cons x todo ih =>
    intro done s hxs hI
    have hxs' : (done ++ [x]) ++ todo = xs := by rw [List.append_assoc]; exact hxs
    obtain ⟨s₁, hread, hI₁⟩ := hstep done x s ⟨todo, hxs'⟩ hI
    obtain ⟨s₂, hrest, hI₂⟩ := ih (done ++ [x]) s₁ hxs' hI₁
    exact ⟨s₂, hread.bind hrest, hI₂⟩

end Reads

/-! ## Little-endian integers -/

/-- The `w` low bytes of an integer in two's complement, the lowest first. -/
def leBytes : Nat → Int → Bytes
  | 0, _ => []
  | w + 1, v => UInt8.ofInt v :: leBytes w (v >>> (8 : Nat))

def leNat : Bytes → Nat
  | [] => 0
  | x :: t => x.toNat + 256 * leNat t

/-- The bytes as a signed integer of their width. -/
def leInt (b : Bytes) : Int := Int.bmod (leNat b) (256 ^ b.length)

@[simp] theorem leBytes_length (w : Nat) (v : Int) : (leBytes w v).length = w := by
  induction w generalizing v with
  | zero => rfl
  | succ w ih => rw [leBytes, List.length_cons, ih]

theorem ofInt_toNat (v : Int) : ((UInt8.ofInt v).toNat : Int) = v % 256 := by
  have h : (UInt8.ofInt v).toNat = (v % 256).toNat % 256 := by
    simp [UInt8.ofInt, UInt8.toNat_ofNat']
  rw [h]
  omega

theorem emod_split (v : Int) {m : Int} (hm : 0 < m) :
    v % (256 * m) = v % 256 + 256 * (v / 256 % m) := by
  have hr : v = v % 256 + 256 * (v / 256 % m) + 256 * m * (v / 256 / m) := by
    have h₁ := Int.emod_add_mul_ediv v 256
    have h₂ := Int.emod_add_mul_ediv (v / 256) m
    rw [Int.mul_assoc, Int.add_assoc, ← Int.mul_add, h₂, h₁]
  have h0 := Int.emod_nonneg (v / 256) (ne_of_gt hm)
  have hlt := Int.emod_lt_of_pos (v / 256) hm
  conv_lhs => rw [hr]
  rw [Int.add_mul_emod_self_left]
  exact Int.emod_eq_of_lt (by omega) (by omega)

theorem leNat_leBytes (w : Nat) (v : Int) : (leNat (leBytes w v) : Int) = v % 256 ^ w := by
  induction w generalizing v with
  | zero => simp [leBytes, leNat]
  | succ w ih =>
    have hshift : v >>> (8 : Nat) = v / 256 := Int.shiftRight_eq_div_pow v 8
    rw [leBytes, leNat]
    push_cast
    rw [ofInt_toNat, ih, hshift, pow_succ, Int.mul_comm (256 ^ w) 256]
    exact (emod_split v (Int.pow_pos (by omega))).symm

theorem leInt_leBytes {w : Nat} {v : Int} (hlo : -(256 ^ (w + 1) / 2) ≤ v)
    (hhi : v < 256 ^ (w + 1) / 2) : leInt (leBytes (w + 1) v) = v := by
  have hcast : ((256 ^ (w + 1) : Nat) : Int) = 256 ^ (w + 1) := by push_cast; rfl
  rw [leInt, leBytes_length, leNat_leBytes, ← hcast, Int.emod_bmod]
  refine Int.bmod_eq_of_le ?_ ?_
  · rw [hcast]
    exact hlo
  · rw [hcast]
    omega

end SchemaUpdate.Lib
