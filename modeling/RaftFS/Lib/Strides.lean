import Mathlib.Data.Int.GCD
import Mathlib.Data.Int.ModEq
import Mathlib.Tactic.Linarith
import Mathlib.Tactic.Ring

/-!
# Strides round a ring

From the place `g` of a ring of `n` places, `k` strides of length `s` lead to `(g + s * k) % n`. The
places come to are those that differ from `g` by a multiple of the greatest common divisor of `s`
and `n`, and fewer than `n` strides lead to each of them.
-/

namespace Strides

variable {n s g i : ℕ}

/-- No stride changes the place modulo the divisor. -/
theorem modEq (k : ℕ) : (g + s * k) % n ≡ g [MOD s.gcd n] := by
  have hn : (g + s * k) % n ≡ g + s * k [MOD s.gcd n] :=
    (Nat.mod_modEq _ n).of_dvd (Nat.gcd_dvd_right s n)
  have hs : s * k ≡ 0 [MOD s.gcd n] :=
    (Nat.modEq_zero_iff_dvd).2 ((Nat.gcd_dvd_left s n).mul_right k)
  exact hn.trans (hs.add_left g)

theorem exists_of_modEq (hn : 0 < n) (hi : i < n) (h : i ≡ g [MOD s.gcd n]) :
    ∃ k < n, (g + s * k) % n = i := by
  have hdvd : ((s.gcd n : ℕ) : ℤ) ∣ (i : ℤ) - g := (Nat.modEq_iff_dvd.1 h.symm)
  obtain ⟨q, hq⟩ := hdvd
  have hmul : (i : ℤ) - g = s * (s.gcdA n * q) + n * (s.gcdB n * q) := by
    rw [hq, Nat.gcd_eq_gcd_ab]
    ring
  have hn' : (0 : ℤ) < n := by exact_mod_cast hn
  obtain ⟨k, hk⟩ := Int.eq_ofNat_of_zero_le (Int.emod_nonneg (s.gcdA n * q) hn'.ne')
  have hkn : (k : ℤ) < n := hk ▸ Int.emod_lt_of_pos _ hn'
  refine ⟨k, by exact_mod_cast hkn, ?_⟩
  have hmod : (g : ℤ) + s * k ≡ i [ZMOD n] := by
    have hk' : (k : ℤ) ≡ s.gcdA n * q [ZMOD n] := hk ▸ Int.mod_modEq _ _
    have hi' : (i : ℤ) = g + s * (s.gcdA n * q) + n * (s.gcdB n * q) := by linarith
    rw [hi']
    exact ((hk'.mul_left s).add_left g).trans (Int.modEq_iff_dvd.2 ⟨s.gcdB n * q, by ring⟩)
  have hmod' : g + s * k ≡ i [MOD n] := by
    rw [← Int.natCast_modEq_iff]
    exact_mod_cast hmod
  rw [hmod', Nat.mod_eq_of_lt hi]

end Strides
