import DynamicRange.Proofs.Scalar.Value

/-!
# Sums that are rounded after each addition

A sum of many floats is rounded after each addition. Of terms that lie between two numbers the sum
lies between what the same additions make of these numbers alone. The error of a few equal terms is
a share of their sum that grows with their number. But the spacing of the numbers of a format grows
with them, and once it is twice a term or more, adding the term changes nothing: the sum stands
still at a power of two, however many terms follow.

## Key results

- `accumulated_zpow`, `abs_accumulated_sub_le`: few equal terms
- `accumulated_le_zpow`: any number of them
- `foldl_add_mem`: terms between two numbers
-/

namespace DynamicRange.Binary

/-! ### Equal terms -/

/-- A value added to zero so many times, rounded after each addition. -/
def accumulated (f : Float.Model.Format) (q : ℚ) : ℕ → ℚ
  | 0 => 0
  | n + 1 => nearest f (accumulated f q n + q)

variable {f : Float.Model.Format} {q : ℚ} {k : ℤ}

/-- A sum that is rounded after each addition is a number of the format. -/
theorem isNumber_accumulated (f : Float.Model.Format) (q : ℚ) (n : ℕ) :
    IsNumber f (accumulated f q n) := by
  cases n with
  | zero => exact isNumber_zero
  | succ n => exact isNumber_nearest f _

/-- Adding what is not negative does not make the sum smaller. -/
theorem accumulated_le_succ (hq : 0 ≤ q) (n : ℕ) : accumulated f q n ≤ accumulated f q (n + 1) :=
  le_nearest (isNumber_accumulated f q n) (le_add_of_nonneg_right hq)

/-- A sum of terms that are not negative is not negative. -/
theorem accumulated_nonneg (hq : 0 ≤ q) (n : ℕ) : 0 ≤ accumulated f q n := by
  induction n with
  | zero => exact le_rfl
  | succ n ih => exact ih.trans (accumulated_le_succ hq n)

/-- The sum stands still at a power of two from which the next number is too far. -/
theorem accumulated_le_zpow (hk : f.minExponent ≤ k + 1 - f.mantissaBits)
    (hq : q ≤ 2 ^ (k - f.mantissaBits)) (n : ℕ) : accumulated f q n ≤ 2 ^ k := by
  induction n with
  | zero => exact (zpow_pos two_pos k).le
  | succ n ih => exact (nearest_mono (add_le_add ih hq)).trans_eq (nearest_zpow_add hk)

/-- Powers of two are added exactly until the sum stands still. -/
theorem accumulated_zpow (hk : f.minExponent ≤ k) {n : ℕ} (hn : n ≤ 2 ^ f.mantissaBits) :
    accumulated f (2 ^ k) n = n * 2 ^ k := by
  induction n with
  | zero => rw [accumulated, Nat.cast_zero, zero_mul]
  | succ n ih =>
    -- the exact sum has a mantissa of few bits, so it is not rounded
    have hnumber : IsNumber f ((n + 1 : ℕ) * 2 ^ k) := by
      refine ⟨(n + 1 : ℕ), k, ?_, hk, by push_cast; rfl⟩
      rw [Nat.abs_cast]
      exact_mod_cast hn
    rw [accumulated, ih (Nat.le_of_succ_le hn), ← add_one_mul, ← Nat.cast_add_one,
      nearest_of_isNumber hnumber]

/-- What one more addition is off by, next to what the sum is off by. -/
private theorem add_div_le {a N : ℚ} {n : ℕ} (hN : 0 < N) (hq : 0 ≤ q) (hshare : n / N ≤ 1 / 32)
    (ha : a ≤ n * q + 33 / 64 * (n * (n + 1)) * (q / N)) :
    (a + q) / N ≤ (n + 1) * (q / N) * (1 + 33 / 2048) := by
  have hterms : 0 ≤ (n + 1) * (q / N) := by positivity
  -- the error of the sum so far is a share of the share, which the bound on `n / N` makes small
  calc (a + q) / N
      ≤ (n * q + 33 / 64 * (n * (n + 1)) * (q / N) + q) / N := by gcongr
    _ = (n + 1) * (q / N) * (1 + 33 / 64 * (n / N)) := by
        field_simp
        ring
    _ ≤ (n + 1) * (q / N) * (1 + 33 / 2048) := by
        refine mul_le_mul_of_nonneg_left ?_ hterms
        linarith

/-- Each addition is off by a share of the sum so far, so the error of a sum grows with the square
of the number of terms. -/
theorem abs_accumulated_sub_le (hbits : 5 ≤ f.mantissaBits)
    (hq : 2 ^ (f.minExponent + f.mantissaBits - 1) ≤ q) {n : ℕ}
    (hn : n ≤ 2 ^ (f.mantissaBits - 5)) :
    |accumulated f q n - n * q| ≤ 33 / 64 * (n * (n + 1)) * (q / 2 ^ f.mantissaBits) := by
  have hpos : 0 < q := (zpow_pos two_pos _).trans_le hq
  have hN : (0 : ℚ) < 2 ^ f.mantissaBits := by positivity
  induction n with
  | zero => simp [accumulated]
  | succ n ih =>
    -- the induction carries the error of the sum; one more addition is rounded by a share of the
    -- new sum
    have hsum := ih (Nat.le_of_succ_le hn)
    have hnonneg := accumulated_nonneg (f := f) hpos.le n
    have hlarge : 2 ^ (f.minExponent + f.mantissaBits - 1) ≤ |accumulated f q n + q| := by
      rw [abs_of_nonneg (by linarith)]
      linarith
    -- the new sum has a full mantissa, so its rounding is a share of it
    have hround : |accumulated f q (n + 1) - (accumulated f q n + q)| ≤
        (accumulated f q n + q) / 2 ^ f.mantissaBits := by
      refine (abs_nearest_sub_le_div hlarge).trans ?_
      rw [abs_of_nonneg (by linarith)]
      gcongr
      exact le_add_of_nonneg_right zero_le_one
    -- the number of terms is small beside the mantissa
    have hshare : (n : ℚ) / 2 ^ f.mantissaBits ≤ 1 / 32 := by
      have hle : n * 2 ^ 5 ≤ 2 ^ f.mantissaBits := by
        rw [← Nat.sub_add_cancel hbits, pow_add]
        exact Nat.mul_le_mul_right _ (Nat.le_of_succ_le hn)
      rw [div_le_div_iff₀ hN (by norm_num), one_mul]
      exact_mod_cast hle
    have hrelative := add_div_le (a := accumulated f q n) hN hpos.le hshare
      (by linarith [(abs_le.mp hsum).2])
    have hterms : 0 ≤ (n + 1) * (q / 2 ^ f.mantissaBits) := by positivity
    have htri := abs_sub_le (accumulated f q (n + 1)) (accumulated f q n + q) ((n + 1) * q)
    have hsame : accumulated f q n + q - (n + 1) * q = accumulated f q n - n * q := by ring
    rw [hsame] at htri
    push_cast
    calc |accumulated f q (n + 1) - (n + 1) * q|
        ≤ (n + 1) * (q / 2 ^ f.mantissaBits) * (1 + 33 / 2048) +
            33 / 64 * (n * (n + 1)) * (q / 2 ^ f.mantissaBits) := by linarith
      _ ≤ 33 / 64 * ((n + 1) * (n + 1 + 1)) * (q / 2 ^ f.mantissaBits) := by linarith

/-! ### Terms between two numbers -/

section Packed

variable {α β : Type} [Add α] [Sub α] [Mul α] [Div α] [Neg α] [LT α] [LE α] [Packed α f]
  {g : β → α} {start : α} {xs : List β} {lo hi : ℚ}

/-- The sum of terms between two numbers lies between the sums of equal terms. It is finite if the
power of two at which those stand still is. -/
theorem foldl_add_mem (hstart : Finite start) (hzero : value start = 0) (hlo : 0 ≤ lo)
    (hhi : hi ≤ 2 ^ (k - f.mantissaBits)) (hk : f.minExponent ≤ k + 1 - f.mantissaBits)
    (hmax : k < overflow f)
    (h : ∀ x ∈ xs, Finite (g x) ∧ lo ≤ value (g x) ∧ value (g x) ≤ hi) :
    Finite (xs.foldl (fun sum x => sum + g x) start) ∧
      accumulated f lo xs.length ≤ value (xs.foldl (fun sum x => sum + g x) start) ∧
      value (xs.foldl (fun sum x => sum + g x) start) ≤ accumulated f hi xs.length := by
  -- from the end, where the last addition is
  induction xs using List.reverseRecOn with
  | nil => exact ⟨hstart, hzero.ge, hzero.le⟩
  | append_singleton xs x ih =>
    obtain ⟨hx, hge, hle⟩ := h x (List.mem_append_right _ List.mem_cons_self)
    obtain ⟨hsum, hsum_ge, hsum_le⟩ := ih fun y hy => h y (List.mem_append_left _ hy)
    rw [List.foldl_append, List.length_append]
    show Finite (xs.foldl (fun sum x => sum + g x) start + g x) ∧ _ ≤ value (_ + g x) ∧
      value (_ + g x) ≤ _
    -- rounding keeps the order, so the bounds on the sum so far and on the term pass on
    have hlow := nearest_mono (f := f) (add_le_add hsum_ge hge)
    have hhigh := nearest_mono (f := f) (add_le_add hsum_le hle)
    have hnonneg := accumulated_nonneg (f := f) hlo (xs.length + 1)
    have hbound := accumulated_le_zpow hk hhi (xs.length + 1)
    have hlt : |nearest f (value (xs.foldl (fun sum x => sum + g x) start) + value (g x))| <
        2 ^ overflow f := by
      rw [abs_of_nonneg (hnonneg.trans hlow)]
      exact (hhigh.trans hbound).trans_lt (zpow_lt_zpow_right₀ one_lt_two hmax)
    have hrounds := add_rounds hsum hx hlt
    exact ⟨hrounds.finite, hrounds.value_eq ▸ hlow, hrounds.value_eq ▸ hhigh⟩

end Packed

end DynamicRange.Binary
