import OpenBmc.Py.Str
import Mathlib.Data.Nat.Log
import Mathlib.Order.WithBot

/-!
# `float` of a natural number

A number of more than 53 bits is rounded to the nearest one with 53 leading bits, of two such to the
even one; what does not fit the exponent is infinite. Rounding keeps the order, up to ties.
-/

namespace OpenBmc
namespace Py

/-- The multiple of `w` nearest to `n`, divided by `w`. -/
def nearest (w n : ℕ) : ℕ :=
  if w < 2 * (n % w) ∨ 2 * (n % w) = w ∧ n / w % 2 = 1 then n / w + 1 else n / w

/-- The nearest number with `p` leading bits. -/
def roundBits (p n : ℕ) : ℕ :=
  nearest (2 ^ (Nat.log 2 n + 1 - p)) n * 2 ^ (Nat.log 2 n + 1 - p)

/-- `float(s)` for the digits of `n`. -/
def toDouble (n : ℕ) : WithTop ℕ :=
  if roundBits 53 n < 2 ^ 1024 then (roundBits 53 n : ℕ) else ⊤

theorem div_le_nearest (w n : ℕ) : n / w ≤ nearest w n := by
  unfold nearest
  split <;> omega

theorem nearest_le (w n : ℕ) : nearest w n ≤ n / w + 1 := by
  unfold nearest
  split <;> omega

theorem nearest_mono (w : ℕ) {n m : ℕ} (h : n ≤ m) : nearest w n ≤ nearest w m := by
  have hdiv : n / w ≤ m / w := Nat.div_le_div_right h
  by_cases heq : n / w = m / w
  · have hmod : n % w ≤ m % w := by
      have hn := Nat.div_add_mod n w
      have hm := Nat.div_add_mod m w
      rw [heq] at hn
      omega
    unfold nearest
    rw [heq]
    split_ifs with h1 h2 h2
    · exact le_rfl
    · exact absurd (h1.elim (fun h1 => .inl (by omega)) fun h1 => by
        rcases hmod.lt_or_eq with hlt | hmod
        · exact .inl (by omega)
        · exact .inr (hmod ▸ h1)) h2
    · exact Nat.le_succ _
    · exact le_rfl
  · calc nearest w n ≤ n / w + 1 := nearest_le w n
      _ ≤ m / w := by omega
      _ ≤ nearest w m := div_le_nearest w m

theorem nearest_one (n : ℕ) : nearest 1 n = n := by
  rw [nearest, Nat.mod_one, Nat.div_one]
  exact if_neg (by omega)

/-- A number of `p` bits is itself. -/
theorem roundBits_of_lt {p n : ℕ} (hp : 0 < p) (h : n < 2 ^ p) : roundBits p n = n := by
  have he : Nat.log 2 n + 1 - p = 0 := by
    rcases Nat.eq_zero_or_pos n with rfl | hn
    · rw [Nat.log_zero_right]
      omega
    · have := Nat.log_lt_of_lt_pow hn.ne' h
      omega
  rw [roundBits, he, Nat.pow_zero, nearest_one, Nat.mul_one]

/-- A number is rounded within its power of two. -/
theorem roundBits_le {p : ℕ} (hp : 0 < p) (n : ℕ) : roundBits p n ≤ 2 ^ (Nat.log 2 n + 1) := by
  rcases Nat.lt_or_ge n (2 ^ p) with hlt | hge
  · rw [roundBits_of_lt hp hlt]
    exact (Nat.lt_pow_succ_log_self (by decide) n).le
  have hn : n ≠ 0 := by
    have := Nat.two_pow_pos p
    omega
  have hlog : p ≤ Nat.log 2 n := Nat.le_log_of_pow_le (by decide) hge
  obtain ⟨e, he⟩ : ∃ e, Nat.log 2 n + 1 = p + e := ⟨Nat.log 2 n + 1 - p, by omega⟩
  have hquot : n / 2 ^ e < 2 ^ p := by
    rw [Nat.div_lt_iff_lt_mul (Nat.two_pow_pos e), ← Nat.pow_add, ← he]
    exact Nat.lt_pow_succ_log_self (by decide) n
  rw [roundBits, he, Nat.add_sub_cancel_left, Nat.pow_add]
  exact Nat.mul_le_mul_right _ ((nearest_le _ _).trans hquot)

theorem le_roundBits {p n : ℕ} (hp : 0 < p) (hn : n ≠ 0) : 2 ^ Nat.log 2 n ≤ roundBits p n := by
  rcases Nat.lt_or_ge n (2 ^ p) with hlt | hge
  · rw [roundBits_of_lt hp hlt]
    exact Nat.pow_log_le_self 2 hn
  have hlog : p ≤ Nat.log 2 n := Nat.le_log_of_pow_le (by decide) hge
  obtain ⟨e, he⟩ : ∃ e, Nat.log 2 n = p - 1 + e := ⟨Nat.log 2 n + 1 - p, by omega⟩
  have he' : Nat.log 2 n + 1 - p = e := by omega
  have hquot : 2 ^ (p - 1) ≤ n / 2 ^ e := by
    rw [Nat.le_div_iff_mul_le (Nat.two_pow_pos e), ← Nat.pow_add, ← he]
    exact Nat.pow_log_le_self 2 hn
  rw [roundBits, he', he, Nat.pow_add]
  exact Nat.mul_le_mul_right _ (hquot.trans (div_le_nearest _ _))

theorem roundBits_mono {p : ℕ} (hp : 0 < p) : Monotone (roundBits p) := by
  intro n m h
  rcases Nat.eq_zero_or_pos n with rfl | hn
  · rw [roundBits_of_lt hp (Nat.two_pow_pos p)]
    exact Nat.zero_le _
  rcases (Nat.log_mono_right h : Nat.log 2 n ≤ Nat.log 2 m).lt_or_eq with hlog | hlog
  · calc roundBits p n ≤ 2 ^ (Nat.log 2 n + 1) := roundBits_le hp n
      _ ≤ 2 ^ Nat.log 2 m := Nat.pow_le_pow_right (by decide) hlog
      _ ≤ roundBits p m := le_roundBits hp (by omega)
  · rw [roundBits, roundBits, hlog]
    exact Nat.mul_le_mul_right _ (nearest_mono _ h)

theorem toDouble_mono : Monotone toDouble := by
  intro n m h
  have hround := roundBits_mono (p := 53) (by decide) h
  unfold toDouble
  split_ifs with h1 h2 h2
  · exact WithTop.coe_le_coe.2 hround
  · exact le_top
  · exact absurd (hround.trans_lt h2) h1
  · exact le_rfl

end Py
end OpenBmc
