/-
  Kanagawa.Lib.NearestEven

  Natural numbers of at most `p` significant bits, and the nearest one to a natural number.

  The ones next to `n` are multiples of the same power of two, and differ by it.  Of two that are
  as near, the one is taken whose last significant bit is zero: it has `p - 1` significant bits.
-/
import Mathlib

namespace Kanagawa.Lib.NearestEven

/-- A number of at most `p` significant bits. -/
def Representable (p a : Nat) : Prop := ∃ c k, c < 2 ^ p ∧ a = c * 2 ^ k

/-- `r` is nearest to `n`, and even if another number is as near. -/
def IsNearestEven (p n r : Nat) : Prop :=
  Representable p r ∧ ∀ a, Representable p a →
    Nat.dist n r ≤ Nat.dist n a ∧ (Nat.dist n r = Nat.dist n a → a ≠ r → Representable (p - 1) r)

/-- The bits of `n` below the significant ones. -/
def discarded (p n : Nat) : Nat := Nat.log2 n + 1 - p

/-- Whether the discarded bits are more than a half, or a half that follows an odd number. -/
def roundsUp (n s : Nat) : Bool :=
  decide (2 ^ s < 2 * (n % 2 ^ s)) || decide (2 ^ s = 2 * (n % 2 ^ s)) && decide (n / 2 ^ s % 2 = 1)

/-- The significand of the nearest number, of the bits that are left. -/
def significand (n s : Nat) : Nat := n / 2 ^ s + if roundsUp n s then 1 else 0

/-- The nearest number of `p` significant bits. -/
def nearestEven (p n : Nat) : Nat := significand n (discarded p n) * 2 ^ discarded p n

variable {p n s a : Nat}

/-- No number of `p` significant bits is between neighbours. -/
theorem Representable.le_or_ge (ha : Representable p a) (hlow : 2 ^ (p - 1 + s) ≤ n)
    (hp : 0 < p) : a ≤ n / 2 ^ s * 2 ^ s ∨ (n / 2 ^ s + 1) * 2 ^ s ≤ a := by
  obtain ⟨c, k, hc, rfl⟩ := ha
  have hs := Nat.two_pow_pos s
  have hq : 2 ^ (p - 1) ≤ n / 2 ^ s := by
    rw [Nat.le_div_iff_mul_le hs, ← Nat.pow_add]
    exact hlow
  rcases Nat.lt_or_ge k s with hk | hk
  · -- The number is too small for the bits of `n`
    left
    obtain ⟨d, rfl⟩ := Nat.exists_eq_add_of_lt hk
    have hle : c * 2 ^ k ≤ 2 ^ p * 2 ^ k := Nat.mul_le_mul_right _ hc.le
    have hpow : 2 ^ p * 2 ^ k ≤ 2 ^ (p - 1) * 2 ^ (k + d + 1) := by
      rw [← Nat.pow_add, ← Nat.pow_add]
      exact Nat.pow_le_pow_right (by decide) (by omega)
    exact hle.trans (hpow.trans (Nat.mul_le_mul_right _ hq))
  · obtain ⟨d, rfl⟩ := Nat.exists_eq_add_of_le hk
    have hsplit : c * 2 ^ (s + d) = c * 2 ^ d * 2 ^ s := by rw [Nat.pow_add]; ring
    rw [hsplit]
    rcases Nat.lt_or_ge (n / 2 ^ s) (c * 2 ^ d) with h | h
    · exact .inr (Nat.mul_le_mul_right _ h)
    · exact .inl (Nat.mul_le_mul_right _ h)

/-- A significand of all ones is carried to the next power of two. -/
theorem representable_of_le (hp : 0 < p) {c : Nat} (hc : c ≤ 2 ^ p) (k : Nat) :
    Representable p (c * 2 ^ k) := by
  rcases Nat.lt_or_eq_of_le hc with h | rfl
  · exact ⟨c, k, h, rfl⟩
  · refine ⟨2 ^ (p - 1), k + 1, Nat.pow_lt_pow_right (by decide) (by omega), ?_⟩
    rw [← Nat.pow_add, ← Nat.pow_add, show p - 1 + (k + 1) = p + k by omega]

/-- An even significand needs one bit less. -/
theorem representable_of_even (hp : 1 < p) {c : Nat} (hc : c ≤ 2 ^ p) (heven : c % 2 = 0) (k : Nat) :
    Representable (p - 1) (c * 2 ^ k) := by
  have hhalf : c * 2 ^ k = c / 2 * 2 ^ (k + 1) := by
    have hc2 : c = c / 2 * 2 := by omega
    rw [Nat.pow_succ']
    rw [← Nat.mul_assoc, ← hc2]
  have hpow : 2 ^ p = 2 ^ (p - 1) * 2 := by
    rw [← Nat.pow_succ]
    congr 1
    omega
  rw [hhalf]
  exact representable_of_le (by omega) (by omega) _

/-- The significand has `p` bits, or is the next power of two. -/
theorem significand_bounds (hlow : 2 ^ (p - 1 + s) ≤ n) (hhigh : n < 2 ^ (p + s)) :
    2 ^ (p - 1) ≤ significand n s ∧ significand n s ≤ 2 ^ p := by
  have hs := Nat.two_pow_pos s
  have hq : 2 ^ (p - 1) ≤ n / 2 ^ s := by
    rw [Nat.le_div_iff_mul_le hs, ← Nat.pow_add]
    exact hlow
  have hq' : n / 2 ^ s < 2 ^ p := by
    rw [Nat.div_lt_iff_lt_mul hs, ← Nat.pow_add]
    exact hhigh
  rw [significand]
  split <;> omega

/-- Rounding at the discarded bits gives the nearest number. -/
theorem isNearestEven_significand (hp : 1 < p) (hlow : 2 ^ (p - 1 + s) ≤ n)
    (hhigh : n < 2 ^ (p + s)) : IsNearestEven p n (significand n s * 2 ^ s) := by
  have hpow := Nat.two_pow_pos s
  have hsig := (significand_bounds hlow hhigh).2
  refine ⟨representable_of_le (by omega) hsig s, fun a ha => ?_⟩
  have hgap := ha.le_or_ge hlow (by omega)
  have hdiv := Nat.div_add_mod n (2 ^ s)
  have hmod := Nat.mod_lt n hpow
  have heven := fun h => representable_of_even hp hsig h s
  -- The distances to the neighbours
  rw [Nat.add_mul, Nat.one_mul] at hgap
  rw [Nat.mul_comm] at hdiv
  rw [significand, roundsUp] at heven ⊢
  simp only [Nat.dist]
  have hgoal : ∀ q r t, q * t + r = n → r < t → (a ≤ q * t ∨ q * t + t ≤ a) →
      ∀ up : Nat, (up = 1 → t < 2 * r ∨ t = 2 * r ∧ q % 2 = 1) →
        (up = 0 → ¬(t < 2 * r ∨ t = 2 * r ∧ q % 2 = 1)) → up ≤ 1 →
        n - (q * t + up * t) + (q * t + up * t - n) ≤ n - a + (a - n) ∧
          (n - (q * t + up * t) + (q * t + up * t - n) = n - a + (a - n) →
            a ≠ q * t + up * t → (q + up) % 2 = 0) := by
    intro q r t hn hr ha up h1 h0 hle
    generalize q * t = m at *
    rcases Nat.le_one_iff_eq_zero_or_eq_one.mp hle with rfl | rfl
    · rw [Nat.zero_mul]
      have hdown := h0 rfl
      exact ⟨by omega, fun _ _ => by omega⟩
    · rw [Nat.one_mul]
      have hup := h1 rfl
      exact ⟨by omega, fun _ _ => by omega⟩
  have hcond : (decide (2 ^ s < 2 * (n % 2 ^ s)) ||
      decide (2 ^ s = 2 * (n % 2 ^ s)) && decide (n / 2 ^ s % 2 = 1)) = true ↔
        2 ^ s < 2 * (n % 2 ^ s) ∨ 2 ^ s = 2 * (n % 2 ^ s) ∧ n / 2 ^ s % 2 = 1 := by
    simp only [Bool.or_eq_true, Bool.and_eq_true, decide_eq_true_eq]
  rw [Nat.add_mul]
  rw [Nat.add_mul] at heven
  split at heven
  next hup =>
    obtain ⟨hle, htie⟩ := hgoal _ _ _ hdiv hmod hgap 1 (fun _ => hcond.mp hup) nofun le_rfl
    rw [if_pos hup]
    exact ⟨hle, fun heq hne => heven (htie heq hne)⟩
  next hdown =>
    obtain ⟨hle, htie⟩ := hgoal _ _ _ hdiv hmod hgap 0 nofun (fun _ h => hdown (hcond.mpr h))
      (Nat.zero_le 1)
    rw [if_neg hdown]
    exact ⟨hle, fun heq hne => heven (htie heq hne)⟩

/-- The number of bits of a number that has some to discard. -/
theorem discarded_bounds (hn : n ≠ 0) (hs : 0 < discarded p n) (hp : 0 < p) :
    2 ^ (p - 1 + discarded p n) ≤ n ∧ n < 2 ^ (p + discarded p n) := by
  have hlow := Nat.log2_self_le hn
  have hhigh := Nat.lt_log2_self (n := n)
  rw [discarded] at hs ⊢
  constructor
  · rw [show p - 1 + (n.log2 + 1 - p) = n.log2 by omega]
    exact hlow
  · rw [show p + (n.log2 + 1 - p) = n.log2 + 1 by omega]
    exact hhigh

/-- Without bits to discard the number is its own nearest. -/
theorem nearestEven_of_discarded_eq_zero (h : discarded p n = 0) : nearestEven p n = n := by
  have hup : roundsUp n 0 = false := by
    rw [roundsUp, Nat.pow_zero, Nat.mod_one]
    rfl
  rw [nearestEven, h, significand, hup]
  simp

theorem isNearestEven_nearestEven (hp : 1 < p) (n : Nat) :
    IsNearestEven p n (nearestEven p n) := by
  rcases Nat.eq_zero_or_pos (discarded p n) with h | h
  · rw [nearestEven_of_discarded_eq_zero h]
    have hlt : n < 2 ^ p := by
      rw [discarded] at h
      exact Nat.lt_of_lt_of_le Nat.lt_log2_self (Nat.pow_le_pow_right (by decide) (by omega))
    refine ⟨⟨n, 0, hlt, by omega⟩, fun a _ => ?_⟩
    simp only [Nat.dist]
    exact ⟨by omega, fun heq hne => absurd heq (by omega)⟩
  · have hn : n ≠ 0 := by
      rintro rfl
      rw [discarded, Nat.log2_zero] at h
      omega
    obtain ⟨hlow, hhigh⟩ := discarded_bounds hn h (by omega)
    exact isNearestEven_significand hp hlow hhigh

end Kanagawa.Lib.NearestEven
