import Mathlib.Algebra.Order.Ring.Int
import Mathlib.Tactic.Ring
import DynamicRange.Proofs.Result
import DynamicRange.Wav.Header

/-!
# Bytes and what is read of them

A number that fits into its bytes is read back from them, and so is an integer in two's complement.
A computation that takes bytes off the front of a file reads a list of bytes as a value when it
takes just these bytes, whatever follows; computations one after the other read their bytes one
after the other.

## Key results

- `Bytes.toNat_ofNat`, `Bytes.toNat_lt`, `Bytes.signed_emod`, `Bytes.signed_mem`: numbers in bytes
- `ByteReader.Reads.bind`, `Reads.number`, `Reads.require_bind`: what computations read
-/

namespace DynamicRange

namespace Bytes

/-- A number takes as many bytes as it is given. -/
@[simp] theorem length_ofNat (count n : ℕ) : (ofNat count n).length = count := by
  induction count generalizing n with
  | zero => rfl
  | succ count ih => rw [ofNat, List.length_cons, ih]

/-- What does not fit into the bytes is lost. -/
theorem toNat_ofNat (count n : ℕ) : toNat (ofNat count n) = n % 256 ^ count := by
  induction count generalizing n with
  | zero => exact (Nat.mod_one n).symm
  -- the first byte is the remainder by 256, and the others keep the quotient
  | succ count ih =>
    have hcons : toNat (ofNat (count + 1) n) =
        n.toUInt8.toNat + 256 * toNat (ofNat count (n / 256)) := rfl
    have hbyte : n.toUInt8.toNat = n % 256 := rfl
    rw [hcons, hbyte, ih, pow_succ, Nat.mul_comm (256 ^ count), Nat.mod_mul]

/-- Bytes hold no number beyond their count. -/
theorem toNat_lt (bytes : List UInt8) : toNat bytes < 256 ^ bytes.length := by
  induction bytes with
  | nil => exact Nat.one_pos
  | cons byte bytes ih =>
    have hcons : toNat (byte :: bytes) = byte.toNat + 256 * toNat bytes := rfl
    have hbyte := byte.toNat_lt
    rw [hcons, List.length_cons, pow_succ]
    omega

variable {n : ℕ} {k : ℤ}

/-- The width of two's complement, as a power of two. -/
private theorem shiftLeft_succ (n : ℕ) : ((1 <<< (n + 1) : ℕ) : ℤ) = 2 * 2 ^ n := by
  rw [Nat.shiftLeft_eq, one_mul, pow_succ]
  push_cast
  ring

/-- What two's complement keeps in `n + 1` bits. -/
theorem signed_mem (n m : ℕ) : -2 ^ n ≤ signed (n + 1) m ∧ signed (n + 1) m ≤ 2 ^ n - 1 := by
  -- both halves of the range are one half of the width
  have hwidth := shiftLeft_succ n
  have hpos : 0 < 1 <<< (n + 1) := by
    rw [Nat.shiftLeft_eq, one_mul]
    exact Nat.two_pow_pos _
  have hlt := Nat.mod_lt m hpos
  unfold signed
  simp only
  split <;> omega

/-- An integer that two's complement can keep comes back. -/
theorem signed_emod (hlo : -2 ^ n ≤ k) (hhi : k ≤ 2 ^ n - 1) :
    signed (n + 1) (k % (1 <<< (n + 1) : ℕ)).toNat = k := by
  have hwidth := shiftLeft_succ n
  -- the range lies around zero, half of it on either side
  have hpow : (0 : ℤ) < 2 ^ n := pow_pos two_pos n
  unfold signed
  generalize 1 <<< (n + 1) = w at hwidth
  -- a negative integer is kept as the number that lies one turn above it
  have hmod : k % w = if 0 ≤ k then k else k + w := by
    split
    · exact Int.emod_eq_of_lt ‹_› (by omega)
    · rw [← Int.add_emod_right, Int.emod_eq_of_lt (by omega) (by omega)]
  have hlow : (k % w).toNat % w = (k % w).toNat := Nat.mod_eq_of_lt (by omega)
  simp only [hlow]
  split <;> split at hmod <;> omega

end Bytes

namespace ByteReader

variable {α β : Type} {r : ByteReader α} {a : α} {b : β} {xs ys : List UInt8}

/-- Two computations succeed one after the other when the second succeeds on what the first one
leaves. -/
theorem bind_eq_ok_iff {f : α → ByteReader β} {file rest : List UInt8} :
    (r >>= f).run file = .ok (b, rest) ↔
      ∃ a left, r.run file = .ok (a, left) ∧ (f a).run left = .ok (b, rest) := by
  rw [StateT.run_bind, Result.bind_eq_ok_iff, Prod.exists]

/-- A computation behind a condition succeeds only if the condition holds. -/
theorem require_bind_eq_ok {condition : Bool} {flaw : WavFlaw} {f : PUnit → ByteReader β}
    {file rest : List UInt8} (h : (require condition flaw >>= f).run file = .ok (b, rest)) :
    condition = true ∧ (f ⟨⟩).run file = .ok (b, rest) := by
  cases condition with
  | false => exact nomatch h
  | true => exact ⟨rfl, h⟩

/-- Whatever follows, just these bytes are taken, and the value is read of them. -/
def Reads (r : ByteReader α) (xs : List UInt8) (a : α) : Prop :=
  ∀ rest, r.run (xs ++ rest) = .ok (a, rest)

namespace Reads

/-- A value that is at hand takes no bytes. -/
theorem pure (a : α) : Reads (Pure.pure a) [] a := fun _ => rfl

/-- One computation after the other. -/
theorem bind {f : α → ByteReader β} (hr : Reads r xs a) (hf : Reads (f a) ys b) :
    Reads (r >>= f) (xs ++ ys) b := by
  intro rest
  rw [StateT.run_bind, List.append_assoc, hr (ys ++ rest)]
  exact hf rest

/-- A condition that holds takes no bytes. -/
theorem require_bind {condition : Bool} {flaw : WavFlaw} {f : PUnit → ByteReader β}
    (h : condition = true) (hf : Reads (f ⟨⟩) ys b) :
    Reads (require condition flaw >>= f) ys b := by
  subst h
  exact hf

/-- Bytes are read as they are, if there are as many as wanted. -/
theorem bytes {count : ℕ} (h : xs.length = count) : Reads (ByteReader.bytes count) xs xs := by
  subst h
  intro rest
  show (if ((xs ++ rest).take xs.length).length < xs.length then _ else _) = _
  -- exactly as many bytes are there, so the file is not too short
  rw [List.take_left, List.drop_left, if_neg (Nat.lt_irrefl _)]

/-- A number is read of its own bytes. -/
theorem number {count n : ℕ} (h : n < 256 ^ count) :
    Reads (ByteReader.number count) (Bytes.ofNat count n) n := by
  intro rest
  have hbytes := bytes (Bytes.length_ofNat count n) rest
  rw [ByteReader.number, StateT.run_map, hbytes]
  show Except.ok (Bytes.toNat (Bytes.ofNat count n), rest) = _
  -- the number fits into its bytes, so nothing of it is lost
  rw [Bytes.toNat_ofNat, Nat.mod_eq_of_lt h]

end Reads

end ByteReader

end DynamicRange
