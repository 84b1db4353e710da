import Mathlib.Algebra.Order.Field.Rat
import Mathlib.Algebra.Order.Field.Power
import Mathlib.Tactic.FieldSimp
import Mathlib.Tactic.NormNum
import Mathlib.Tactic.Positivity
import Mathlib.Tactic.Ring

/-!
# Binary floating-point numbers

The values of binary64 as rationals, and the conversion of an integer to the
nearest one, ties to even. Rounding keeps the leading `p` bits of a natural
number and leaves every number with at most `p` significant bits as it is.
-/

namespace Binary64

def roundBits (p n : Nat) : Nat :=
  if n < 2 ^ p then n
  else
    let dropped := n.log2 + 1 - p
    let kept := n / 2 ^ dropped
    let rest := n % 2 ^ dropped
    let half := 2 ^ (dropped - 1)
    if rest < half ∨ rest = half ∧ kept % 2 = 0 then kept * 2 ^ dropped
    else (kept + 1) * 2 ^ dropped

theorem roundBits_of_lt {p n : Nat} (h : n < 2 ^ p) : roundBits p n = n := if_pos h

theorem roundBits_eq {p n : Nat} (h : 2 ^ p ≤ n) :
    ∃ kept, kept ≤ 2 ^ p ∧ roundBits p n = kept * 2 ^ (n.log2 + 1 - p) := by
  have hn : n ≠ 0 := Nat.ne_of_gt (Nat.lt_of_lt_of_le (Nat.two_pow_pos p) h)
  have hp : p ≤ n.log2 := (Nat.le_log2 hn).mpr h
  have hkept : n / 2 ^ (n.log2 + 1 - p) < 2 ^ p := by
    rw [Nat.div_lt_iff_lt_mul (Nat.two_pow_pos _), ← Nat.pow_add]
    rw [show p + (n.log2 + 1 - p) = n.log2 + 1 by omega]
    exact Nat.lt_log2_self
  unfold roundBits
  rw [if_neg (Nat.not_lt.mpr h)]
  dsimp only
  split
  · exact ⟨_, Nat.le_of_lt hkept, rfl⟩
  · exact ⟨_, hkept, rfl⟩

theorem roundBits_exact {p m e : Nat} (hm : m < 2 ^ p) : roundBits p (m * 2 ^ e) = m * 2 ^ e := by
  by_cases h : m * 2 ^ e < 2 ^ p
  · exact roundBits_of_lt h
  · have hn : m * 2 ^ e ≠ 0 := fun h0 => h (by rw [h0]; exact Nat.two_pow_pos p)
    have hlt : m * 2 ^ e < 2 ^ (p + e) := by
      rw [Nat.pow_add]
      exact Nat.mul_lt_mul_of_pos_right hm (Nat.two_pow_pos e)
    have hlog : (m * 2 ^ e).log2 < p + e :=
      (Nat.pow_lt_pow_iff_right (by decide)).mp (Nat.lt_of_le_of_lt (Nat.log2_self_le hn) hlt)
    -- All the dropped bits are zero.
    have hdvd : 2 ^ ((m * 2 ^ e).log2 + 1 - p) ∣ m * 2 ^ e :=
      Dvd.dvd.mul_left (Nat.pow_dvd_pow 2 (by omega)) m
    unfold roundBits
    rw [if_neg h]
    dsimp only
    rw [if_pos (.inl (by rw [Nat.mod_eq_zero_of_dvd hdvd]; exact Nat.two_pow_pos _)),
      Nat.div_mul_cancel hdvd]

-- ---------------------------------------------------------------------------
-- Binary64 numbers
-- ---------------------------------------------------------------------------

def IsBinary64 (q : ℚ) : Prop :=
  ∃ m e : ℤ, m.natAbs < 2 ^ 53 ∧ -1074 ≤ e ∧ e ≤ 971 ∧ q = m * 2 ^ e

/-- An integer rounded to 53 bits, as the conversion to `double` does. -/
def roundInt (i : ℤ) : ℤ := i.sign * roundBits 53 i.natAbs

theorem IsBinary64.of_int {i : ℤ} (m : ℤ) (k : ℕ) (hm : m.natAbs < 2 ^ 53) (hk : k ≤ 971)
    (hi : i = m * 2 ^ k) : IsBinary64 i :=
  ⟨m, k, hm, by omega, by omega, by rw [hi]; push_cast; rw [zpow_natCast]⟩

theorem isBinary64_roundInt {i : ℤ} (h : i.natAbs < 2 ^ 64) : IsBinary64 (roundInt i) := by
  have hsign : ∀ n : ℕ, (i.sign * n).natAbs ≤ n := fun n => by
    rcases Int.sign_trichotomy i with hs | hs | hs <;> simp [hs]
  by_cases hlt : i.natAbs < 2 ^ 53
  · rw [roundInt, roundBits_of_lt hlt, Int.sign_mul_natAbs]
    exact .of_int i 0 hlt (by omega) (by simp)
  · obtain ⟨kept, hkept, hround⟩ := roundBits_eq (Nat.not_lt.mp hlt)
    have hlog : i.natAbs.log2 < 64 := (Nat.log2_lt (by omega)).mpr h
    rw [roundInt, hround]
    rcases Nat.lt_or_eq_of_le hkept with hkept | rfl
    · exact .of_int (i.sign * kept) (i.natAbs.log2 + 1 - 53) (Nat.lt_of_le_of_lt (hsign kept) hkept)
        (by omega) (by push_cast; ring)
    · -- The carry has made one more bit.
      refine .of_int (i.sign * (2 ^ 52 : ℕ)) (i.natAbs.log2 + 1 - 53 + 1)
        (Nat.lt_of_le_of_lt (hsign (2 ^ 52)) (by norm_num)) (by omega) ?_
      rw [pow_succ]
      push_cast
      ring

theorem roundInt_of_isBinary64 {i : ℤ} (h : IsBinary64 i) : roundInt i = i := by
  obtain ⟨m, e, hm, -, -, he⟩ := h
  have hround : roundBits 53 i.natAbs = i.natAbs := by
    rcases Int.eq_nat_or_neg e with ⟨k, rfl | rfl⟩
    · have hi : i = m * 2 ^ k := by
        rw [zpow_natCast] at he
        exact_mod_cast he
      rw [hi, Int.natAbs_mul, Int.natAbs_pow]
      exact roundBits_exact (by omega)
    · -- A negative exponent makes the integer smaller than its significand.
      have hi : i * 2 ^ k = m := by
        rw [zpow_neg, zpow_natCast] at he
        have : (i : ℚ) * 2 ^ k = m := by rw [he]; field_simp
        exact_mod_cast this
      refine roundBits_of_lt ?_
      have hle : i.natAbs * 1 ≤ i.natAbs * 2 ^ k := Nat.mul_le_mul_left _ Nat.one_le_two_pow
      have habs : m.natAbs = i.natAbs * 2 ^ k := by rw [← hi, Int.natAbs_mul, Int.natAbs_pow]; rfl
      omega
  rw [roundInt, hround, Int.sign_mul_natAbs]

theorem roundInt_eq_iff {i : ℤ} (h : i.natAbs < 2 ^ 64) :
    (roundInt i : ℚ) = i ↔ IsBinary64 i :=
  ⟨fun heq => heq ▸ isBinary64_roundInt h, fun hi => by rw [roundInt_of_isBinary64 hi]⟩

end Binary64

/-- A `double`; the sign of zero is not kept. -/
inductive Double
  | finite (q : ℚ) (h : Binary64.IsBinary64 q)
  | infinity (negative : Bool)
  | nan
  deriving DecidableEq
