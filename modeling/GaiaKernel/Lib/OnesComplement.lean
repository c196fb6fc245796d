import Mathlib.Data.BitVec

/-! # Sixteen-bit one's complement sums

The internet checksum adds the 16-bit words of its input and folds the carries back in. The
folded sum is the sum modulo 65535, with 65535 standing for zero unless the sum is zero; the
words may be read in either byte order.
-/
namespace GaiaKernel.OnesComplement
open List

/-- Add the carries back in until the sum fits 16 bits. -/
def fold (sum : ℕ) : ℕ :=
  if sum / 65536 = 0 then sum else fold (sum % 65536 + sum / 65536)
termination_by sum
decreasing_by omega

theorem fold_eq {n : ℕ} (h : 0 < n) : fold n = (n - 1) % 65535 + 1 := by
  induction n using Nat.strong_induction_on with
  | _ n ih =>
    rw [fold]
    split
    case isTrue hn => omega
    case isFalse hn =>
      -- folding takes a multiple of 65535 off
      have hsmall : n % 65536 + n / 65536 < n := by omega
      rw [ih _ hsmall (by omega)]
      omega

@[simp] theorem fold_zero : fold 0 = 0 := by
  rw [fold]
  rfl

theorem fold_lt (n : ℕ) : fold n < 65536 := by
  rcases Nat.eq_zero_or_pos n with rfl | h
  · simp
  · rw [fold_eq h]
    omega

theorem fold_eq_max_iff {n : ℕ} (h : 0 < n) : fold n = 65535 ↔ n % 65535 = 0 := by
  rw [fold_eq h]
  omega

theorem fold_fold_add (a b : ℕ) : fold (fold a + b) = fold (a + b) := by
  rcases Nat.eq_zero_or_pos a with rfl | h
  · rw [fold_zero]
  · rw [fold_eq h,fold_eq (Nat.add_pos_left (Nat.succ_pos _) b),fold_eq (Nat.add_pos_left h b)]
    omega

theorem fold_add_complement (n : ℕ) : fold (n + (65535 - fold n)) = 65535 := by
  rcases Nat.eq_zero_or_pos n with rfl | h
  · rw [fold_zero,fold_eq_max_iff (by omega)]
  · rw [fold_eq_max_iff (by omega),fold_eq h]
    omega

def swapBytes (w : ℕ) : ℕ := w % 256 * 256 + w / 256

/-- With the complement stored the wrong way round, the sum folds to all ones only if the two
bytes of the complement are equal, that is, if 257 divides the sum. -/
theorem fold_add_swapped_iff {n : ℕ} (h : 0 < n) :
    fold (n + swapBytes (if 65535 - fold n = 0 then 65535 else 65535 - fold n)) = 65535 ↔
      257 ∣ n := by
  have hf := fold_eq h
  rw [fold_eq_max_iff (by omega)]
  unfold swapBytes
  split <;> omega

section
variable {xs ys : List (BitVec 8)}

/-- The sum of the 16-bit words with the more significant byte first, the last one padded. -/
def beSum : List (BitVec 8) → ℕ
  | [] => 0
  | [a] => 256 * a.toNat
  | a :: b :: l => 256 * a.toNat + b.toNat + beSum l

/-- The sum of the 16-bit words with the less significant byte first, the last one padded. -/
def leSum : List (BitVec 8) → ℕ
  | [] => 0
  | [a] => a.toNat
  | a :: b :: l => a.toNat + 256 * b.toNat + leSum l

theorem beSum_append (h : xs.length % 2 = 0) : beSum (xs ++ ys) = beSum xs + beSum ys := by
  fun_induction beSum xs with
  | case1 => simp
  | case2 a => simp at h
  | case3 a b l ih =>
    simp only [cons_append,beSum]
    rw [ih (by simp only [length_cons] at h; omega)]
    omega

theorem leSum_append (h : xs.length % 2 = 0) : leSum (xs ++ ys) = leSum xs + leSum ys := by
  fun_induction leSum xs with
  | case1 => simp
  | case2 a => simp at h
  | case3 a b l ih =>
    simp only [cons_append,leSum]
    rw [ih (by simp only [length_cons] at h; omega)]
    omega

variable (xs)

theorem mod_leSum : leSum xs % 65535 = 256 * beSum xs % 65535 := by
  fun_induction leSum xs with
  | case1 => rfl
  | case2 a =>
    rw [beSum]
    omega
  | case3 a b l ih =>
    rw [beSum]
    omega

theorem leSum_pos_iff : 0 < leSum xs ↔ 0 < beSum xs := by
  fun_induction leSum xs with
  | case1 => rfl
  | case2 a =>
    rw [beSum]
    omega
  | case3 a b l ih =>
    rw [beSum]
    omega

theorem fold_leSum : fold (leSum xs) = swapBytes (fold (beSum xs)) := by
  have hmod := mod_leSum xs
  have hpos := leSum_pos_iff xs
  rcases Nat.eq_zero_or_pos (beSum xs) with hz | hp
  · have hle : leSum xs = 0 := by omega
    rw [hle,hz,fold_zero]
    rfl
  · rw [fold_eq (hpos.mpr hp),fold_eq hp,swapBytes]
    omega

theorem beSum_le : beSum xs ≤ 65535 * ((xs.length + 1) / 2) := by
  fun_induction beSum xs with
  | case1 => simp
  | case2 a =>
    simp only [length_cons,length_nil]
    omega
  | case3 a b l ih =>
    simp only [length_cons]
    omega

end

end GaiaKernel.OnesComplement
