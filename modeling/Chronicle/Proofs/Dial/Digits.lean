import Chronicle.Proofs.Completion.Model
import Mathlib.Algebra.Group.Nat.Defs

/-!
# Digits

A dial whose bits read the binary digits of a number stands for that number, as long as there is a
bit for every digit (`value_of_testBit`).  In the range there is (`value_of_digits`): a dial has as
many bits as the maximum has digits.
-/

namespace Chronicle.Dial

variable {d : Dial} {s : Valuation} {x k n : Nat}

theorem bits_names (d : Dial) : d.bits.map Symbol.name = (List.range' 0 d.width).map d.bitName := by
  rw [bits, List.map_map, List.range_eq_range']
  rfl

theorem mod_pow_succ (y n : Nat) : y % 2 ^ (n + 1) = y % 2 + 2 * (y / 2 % 2 ^ n) := by
  rw [Nat.pow_succ', Nat.mod_mul]

/-- What names that read the digits of `x` from the `k`-th on sum up to. -/
theorem sumBits_of_digits (h : ∀ i, k ≤ i → i < k + n → s.get? (d.bitName i) = some (x.testBit i)) :
    sumBits s k ((List.range' k n).map d.bitName) = .ok (2 ^ k * (x / 2 ^ k % 2 ^ n)) := by
  induction n generalizing k with
  | zero => simp [sumBits, Nat.mod_one]
  | succ n ih =>
    have hrest := ih (k := k + 1) fun i hk hi => h i (by omega) (by omega)
    have hread : s.read (d.bitName k) = .ok (x.testBit k) :=
      Valuation.read_eq_ok_iff.mpr (h k (Nat.le_refl k) (by omega))
    have hdigit : (if x.testBit k then Nat.pow 2 k else 0) = 2 ^ k * (x / 2 ^ k % 2) := by
      rw [Nat.testBit_eq_decide_div_mod_eq]
      rcases Nat.mod_two_eq_zero_or_one (x / 2 ^ k) with h0 | h1
      · simp [h0]
      · simp [h1]
    have hshift : x / 2 ^ (k + 1) = x / 2 ^ k / 2 := by
      rw [Nat.pow_succ, Nat.div_div_eq_div_mul]
    have hsum : 2 ^ k * (x / 2 ^ k % 2) + 2 ^ (k + 1) * (x / 2 ^ k / 2 % 2 ^ n) =
        2 ^ k * (x / 2 ^ k % 2 ^ (n + 1)) := by
      rw [mod_pow_succ, Nat.mul_add, Nat.pow_succ, Nat.mul_assoc]
    rw [List.range'_succ, List.map_cons]
    simp only [sumBits, hread, hrest, ok_bind, hdigit, hshift, hsum, pure_eq_ok]

theorem max_lt_two_pow_width (d : Dial) : d.max < 2 ^ d.width := by
  unfold width bitLength
  split
  next h => omega
  next => exact Nat.lt_log2_self

theorem value_of_testBit (hx : x < 2 ^ d.width)
    (h : ∀ i < d.width, s.get? (d.bitName i) = some (x.testBit i)) : d.value s = .ok x := by
  have hsum := sumBits_of_digits (d := d) (k := 0) (n := d.width) (s := s) (x := x)
    fun i _ hi => h i (by omega)
  rw [value, bits_names, hsum]
  simp [Nat.mod_eq_of_lt hx]

/-- **The digits of a number in range stand for it.** -/
theorem value_of_digits (hx : x ≤ d.max)
    (h : ∀ i < d.width, s.get? (d.bitName i) = some (x.testBit i)) : d.value s = .ok x :=
  value_of_testBit (Nat.lt_of_le_of_lt hx d.max_lt_two_pow_width) h

end Chronicle.Dial
