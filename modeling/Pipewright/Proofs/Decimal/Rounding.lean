import Mathlib.Data.Int.Log
import Mathlib.Data.Rat.Floor
import Mathlib.Tactic.FieldSimp
import Mathlib.Tactic.Linarith
import Mathlib.Tactic.NormNum
import Mathlib.Tactic.Positivity
import Mathlib.Tactic.Ring
import Pipewright.Decimal

/-!
# Rounding

Rounding to double precision changes nothing of what has been rounded, and it goes no further than
half a unit.
-/

/-!
## Rounding is exact on what is rounded

`roundRatio` is computed in natural numbers, on the numerator and the
denominator as they come. It depends on their ratio alone (`roundRatio_congr`):
the grid it rounds to is told by the binary logarithm of the ratio
(`gridExponent_eq`).

What comes out is a canonical magnitude, and a canonical magnitude is rounded to
itself (`roundRatio_self`).
-/

namespace Pipewright

/-! ### Powers with signed exponents -/

theorem zpow_eq_div {b : Nat} (hb : 0 < b) (e : Int) :
    (b : ℚ) ^ e = (b : ℚ) ^ e.toNat / (b : ℚ) ^ (-e).toNat := by
  have hb' : (b : ℚ) ≠ 0 := by exact_mod_cast hb.ne'
  rcases Int.le_total 0 e with he | he
  · obtain ⟨n, rfl⟩ := Int.eq_ofNat_of_zero_le he
    simp
  · obtain ⟨n, hn⟩ := Int.eq_ofNat_of_zero_le (show 0 ≤ -e by omega)
    obtain rfl : e = -(n : Int) := by omega
    simp [zpow_neg]

theorem mul_two_pow_le (num : Nat) {den : Nat} (hden : 0 < den) (e : Int) :
    den * 2 ^ e.toNat ≤ num * 2 ^ (-e).toNat ↔ (2 : ℚ) ^ e ≤ (num : ℚ) / den := by
  have hpow := zpow_eq_div (b := 2) (by decide) e
  have hden' : (0 : ℚ) < den := by exact_mod_cast hden
  rw [show (2 : ℚ) = ((2 : Nat) : ℚ) from rfl, hpow, div_le_div_iff₀ (by positivity) hden']
  rw [← Nat.cast_le (α := ℚ)]
  push_cast
  rw [mul_comm (2 ^ e.toNat : ℚ)]

/-! ### The grid -/

theorem log2_bounds {n : Nat} (hn : 0 < n) :
    (2 : ℚ) ^ (n.log2 : Int) ≤ n ∧ (n : ℚ) < (2 : ℚ) ^ ((n.log2 : Int) + 1) := by
  have hlow := Nat.log2_self_le hn.ne'
  have hhigh := Nat.lt_log2_self (n := n)
  refine ⟨by exact_mod_cast hlow, ?_⟩
  rw [show (n.log2 : Int) + 1 = ((n.log2 + 1 : Nat) : Int) from rfl, zpow_natCast]
  exact_mod_cast hhigh

theorem gridExponent_eq {num den : Nat} (hnum : 0 < num) (hden : 0 < den) :
    gridExponent num den = max (Int.log 2 ((num : ℚ) / den) - 52) (-1074) := by
  have hden' : (0 : ℚ) < den := by exact_mod_cast hden
  have hratio : (0 : ℚ) < (num : ℚ) / den := by positivity
  obtain ⟨hn, hn'⟩ := log2_bounds hnum
  obtain ⟨hd, hd'⟩ := log2_bounds hden
  have hupper : Int.log 2 ((num : ℚ) / den) < (num.log2 : Int) - den.log2 + 1 := by
    rw [← Int.lt_zpow_iff_log_lt (by decide) hratio, div_lt_iff₀ hden']
    calc (num : ℚ) < 2 ^ ((num.log2 : Int) + 1) := hn'
      _ = 2 ^ ((num.log2 : Int) - den.log2 + 1) * 2 ^ (den.log2 : Int) := by
          rw [← zpow_add₀ (by norm_num)]
          congr 1
          omega
      _ ≤ _ := by
          push_cast
          exact mul_le_mul_of_nonneg_left hd (zpow_nonneg (by norm_num) _)
  have hlower : (num.log2 : Int) - den.log2 - 1 ≤ Int.log 2 ((num : ℚ) / den) := by
    rw [← Int.zpow_le_iff_le_log (by decide) hratio, le_div_iff₀ hden']
    calc ((2 : Nat) : ℚ) ^ ((num.log2 : Int) - den.log2 - 1) * den
        ≤ 2 ^ ((num.log2 : Int) - den.log2 - 1) * 2 ^ ((den.log2 : Int) + 1) := by
          push_cast
          exact mul_le_mul_of_nonneg_left hd'.le (zpow_nonneg (by norm_num) _)
      _ = 2 ^ (num.log2 : Int) := by
          rw [← zpow_add₀ (by norm_num)]
          congr 1
          omega
      _ ≤ num := hn
  have hwide := mul_two_pow_le num hden ((num.log2 : Int) - den.log2)
  rw [show (2 : ℚ) = ((2 : Nat) : ℚ) from rfl, Int.zpow_le_iff_le_log (by decide) hratio] at hwide
  unfold gridExponent
  simp only [show (num.log2 : Int) - den.log2 - 53 + 53 = num.log2 - den.log2 by omega]
  split
  · next h =>
    have hlog := hwide.mp (by simpa using h)
    congr 1
    omega
  · next h =>
    have hlog := mt hwide.mpr (by simpa using h)
    congr 1
    omega

/-! ### Rounding -/

theorem roundDivEven_mul {k : Nat} (hk : 0 < k) (num den : Nat) :
    roundDivEven (num * k) (den * k) = roundDivEven num den := by
  have hdouble : 2 * (num % den * k) = 2 * (num % den) * k := by ring
  unfold roundDivEven
  simp only [Nat.mul_div_mul_right _ _ hk, Nat.mul_mod_mul_right, hdouble,
    Nat.mul_lt_mul_right hk, Bool.beq_eq_decide_eq, Nat.mul_left_inj hk.ne']

theorem roundDivEven_congr {num den num' den' : Nat} (hden : 0 < den) (hden' : 0 < den')
    (h : num * den' = num' * den) : roundDivEven num den = roundDivEven num' den' := by
  rw [← roundDivEven_mul hden' num den, h, mul_comm den, roundDivEven_mul hden]

theorem roundRatio_congr {num den num' den' : Nat} (hden : 0 < den) (hden' : 0 < den')
    (h : (num : ℚ) / den = (num' : ℚ) / den') : roundRatio num den = roundRatio num' den' := by
  have hcross : num * den' = num' * den := by
    have hd : (den : ℚ) ≠ 0 := by exact_mod_cast hden.ne'
    have hd' : (den' : ℚ) ≠ 0 := by exact_mod_cast hden'.ne'
    rw [div_eq_div_iff hd hd'] at h
    exact_mod_cast h
  rcases Nat.eq_zero_or_pos num with rfl | hnum
  · have hzero : num' = 0 := by
      rw [zero_mul, eq_comm, Nat.mul_eq_zero] at hcross
      exact hcross.resolve_right hden.ne'
    rw [hzero, roundRatio, roundRatio, if_pos rfl, if_pos rfl]
  · have hnum' : 0 < num' := Nat.pos_of_ne_zero fun hzero => by
      rw [hzero, zero_mul] at hcross
      exact (Nat.mul_pos hnum hden').ne' hcross
    have hgrid : gridExponent num den = gridExponent num' den' := by
      rw [gridExponent_eq hnum hden, gridExponent_eq hnum' hden', h]
    have hround : ∀ a b, 0 < b →
        roundDivEven (num * a) (den * b) = roundDivEven (num' * a) (den' * b) := by
      intro a b hb
      refine roundDivEven_congr (Nat.mul_pos hden hb) (Nat.mul_pos hden' hb) ?_
      calc num * a * (den' * b) = num * den' * (a * b) := by ring
        _ = num' * a * (den * b) := by rw [hcross]; ring
    unfold roundRatio
    simp only [if_neg hnum.ne', if_neg hnum'.ne', hgrid, hround _ _ (Nat.two_pow_pos _)]

/-! ### Canonical magnitudes -/

/-- The magnitude has 53 significant bits, or it is on the finest grid. -/
structure Magnitude.IsCanonical (x : Magnitude) : Prop where
  below : x.mantissa < 2 ^ 53
  exponent : -1074 ≤ x.exponent ∧ x.exponent ≤ 971
  significant : 2 ^ 52 ≤ x.mantissa ∨ x.exponent = -1074

theorem Magnitude.den_pos (x : Magnitude) : 0 < x.den := Nat.two_pow_pos _

theorem Magnitude.num_div_den (x : Magnitude) :
    (x.num : ℚ) / x.den = x.mantissa * (2 : ℚ) ^ x.exponent := by
  have hpow := zpow_eq_div (b := 2) (by decide) x.exponent
  rw [show ((2 : Nat) : ℚ) = 2 from rfl] at hpow
  rw [hpow, num, den]
  push_cast
  rw [mul_div_assoc]

theorem roundDivEven_bounds (num den : Nat) :
    num / den ≤ roundDivEven num den ∧ roundDivEven num den ≤ num / den + 1 := by
  unfold roundDivEven
  dsimp only
  split <;> omega

/-- The units that a ratio is counted in when it is put on the grid of `2 ^ e`. -/
theorem mul_two_pow_div (num : Nat) {den : Nat} (hden : 0 < den) (e : Int) :
    ((num * 2 ^ (-e).toNat : Nat) : ℚ) / ((den * 2 ^ e.toNat : Nat) : ℚ)
      = (num : ℚ) / den / (2 : ℚ) ^ e := by
  have hpow := zpow_eq_div (b := 2) (by decide) e
  rw [show ((2 : Nat) : ℚ) = 2 from rfl] at hpow
  have hden' : (den : ℚ) ≠ 0 := by exact_mod_cast hden.ne'
  rw [hpow]
  push_cast
  field_simp

theorem roundDivEven_near (a : Nat) {b : Nat} (hb : 0 < b) :
    |(roundDivEven a b : ℚ) - a / b| ≤ 1 / 2 := by
  have hb' : (0 : ℚ) < b := by exact_mod_cast hb
  have hsplit : (a : ℚ) / b = (a / b : Nat) + (a % b : Nat) / b := by
    rw [eq_comm, ← mul_right_inj' hb'.ne', mul_add, mul_div_cancel₀ _ hb'.ne',
      mul_div_cancel₀ _ hb'.ne']
    exact_mod_cast Nat.div_add_mod a b
  have hmod : (a % b : Nat) < (b : ℚ) := by exact_mod_cast Nat.mod_lt a hb
  rw [hsplit]
  unfold roundDivEven
  dsimp only
  generalize a / b = q
  generalize a % b = r at hmod
  split
  · next hup =>
    have htwice : (b : ℚ) ≤ 2 * r := by
      have hle : b ≤ 2 * r := by
        simp only [Bool.or_eq_true, decide_eq_true_eq, Bool.and_eq_true, beq_iff_eq] at hup
        omega
      exact_mod_cast hle
    have hlow : 1 / 2 ≤ (r : ℚ) / b := by
      rw [div_le_div_iff₀ (by norm_num) hb']
      linarith
    have hhigh : (r : ℚ) / b < 1 := (div_lt_one hb').mpr hmod
    rw [abs_le]
    push_cast
    constructor <;> linarith
  · next hdown =>
    have htwice : 2 * (r : ℚ) ≤ b := by
      have hle : 2 * r ≤ b := by
        simp only [Bool.or_eq_true, decide_eq_true_eq, not_or] at hdown
        omega
      exact_mod_cast hle
    have hhigh : (r : ℚ) / b ≤ 1 / 2 := by
      rw [div_le_div_iff₀ hb' (by norm_num)]
      linarith
    have hlow : 0 ≤ (r : ℚ) / b := by positivity
    rw [abs_le]
    constructor <;> linarith

/-- What a ratio is rounded to: on the grid of `2 ^ e` it is counted in whole units, to the nearest
number `q` of them, which has 53 bits unless the grid is the finest. -/
structure Rounds (v : ℚ) (e : Int) (q : Nat) : Prop where
  grid : e = max (Int.log 2 v - 52) (-1074)
  near : |(q : ℚ) - v / 2 ^ e| ≤ 1 / 2
  below : q ≤ 2 ^ 53
  bits : 2 ^ 52 ≤ q ∨ e = -1074

/-- The magnitude of so many units, if it is not too large. -/
def ofUnits (e : Int) (q : Nat) : Option Magnitude :=
  let m : Magnitude := if q = 2 ^ 53 then ⟨2 ^ 52, e + 1⟩ else ⟨q, e⟩
  if m.exponent ≤ 971 then some m else none

theorem exists_rounds {num den : Nat} (hnum : 0 < num) (hden : 0 < den) :
    ∃ e q, Rounds ((num : ℚ) / den) e q ∧ roundRatio num den = ofUnits e q := by
  have hgrid := gridExponent_eq hnum hden
  have hratio : (0 : ℚ) < (num : ℚ) / den := by
    have hnum' : (0 : ℚ) < num := by exact_mod_cast hnum
    have hden' : (0 : ℚ) < den := by exact_mod_cast hden
    positivity
  refine ⟨_, _, ?_, by rw [roundRatio, if_neg hnum.ne']; rfl⟩
  generalize gridExponent num den = e at hgrid
  have hunits := mul_two_pow_div num hden e
  have hb : 0 < den * 2 ^ e.toNat := Nat.mul_pos hden (Nat.two_pow_pos _)
  obtain ⟨hlow, hhigh⟩ := roundDivEven_bounds (num * 2 ^ (-e).toNat) (den * 2 ^ e.toNat)
  have hnear := roundDivEven_near (num * 2 ^ (-e).toNat) hb
  rw [hunits] at hnear
  generalize num * 2 ^ (-e).toNat = a at hunits hlow hhigh hnear
  generalize den * 2 ^ e.toNat = b at hunits hlow hhigh hnear hb
  generalize roundDivEven a b = q at hlow hhigh hnear
  have hb' : (0 : ℚ) < b := by exact_mod_cast hb
  -- In units of the grid there are at most 53 bits, and as many unless it is the finest.
  have hbelow : a / b < 2 ^ 53 := by
    rw [Nat.div_lt_iff_lt_mul hb]
    have hlt : (a : ℚ) / b < 2 ^ (53 : Int) := by
      rw [hunits, div_lt_iff₀ (zpow_pos (by norm_num) e), ← zpow_add₀ (by norm_num)]
      refine lt_of_lt_of_le (Int.lt_zpow_succ_log_self (b := 2) (by decide) _) ?_
      exact zpow_le_zpow_right₀ (by norm_num) (by omega)
    rw [div_lt_iff₀ hb'] at hlt
    exact_mod_cast hlt
  refine ⟨hgrid, hnear, by omega, ?_⟩
  rcases Int.le_total (-1074) (Int.log 2 ((num : ℚ) / den) - 52) with he | he
  · have hsignificant : 2 ^ 52 ≤ a / b := by
      rw [Nat.le_div_iff_mul_le hb]
      have hle : (2 : ℚ) ^ (52 : Int) ≤ (a : ℚ) / b := by
        rw [hunits, le_div_iff₀ (zpow_pos (by norm_num) e), ← zpow_add₀ (by norm_num)]
        refine le_trans ?_ (Int.zpow_log_le_self (b := 2) (by decide) hratio)
        exact zpow_le_zpow_right₀ (by norm_num) (by omega)
      rw [le_div_iff₀ hb'] at hle
      exact_mod_cast hle
    exact .inl (hsignificant.trans hlow)
  · exact .inr (by omega)

theorem isCanonical_of_roundRatio {num den : Nat} (hden : 0 < den) {x : Magnitude}
    (h : roundRatio num den = some x) : x.IsCanonical := by
  rcases Nat.eq_zero_or_pos num with rfl | hnum
  · obtain rfl := Option.some.inj h
    exact ⟨by decide, by decide, .inr rfl⟩
  · obtain ⟨e, q, hrounds, hround⟩ := exists_rounds hnum hden
    have hgrid := hrounds.grid
    have hbelow := hrounds.below
    rw [hround, ofUnits] at h
    split at h <;> split at h
    · next hmax =>
      obtain rfl := Option.some.inj h
      exact ⟨show 2 ^ 52 < 2 ^ 53 by decide, ⟨by simp only; omega, hmax⟩, .inl (le_refl _)⟩
    · cases h
    · next hcarry hmax =>
      obtain rfl := Option.some.inj h
      exact ⟨by simp only; omega, ⟨by simp only; omega, hmax⟩, hrounds.bits⟩
    · cases h

theorem log_mul_two_zpow {n : Nat} (hn : 0 < n) (e : Int) :
    Int.log 2 ((n : ℚ) * (2 : ℚ) ^ e) = n.log2 + e := by
  obtain ⟨hlow, hhigh⟩ := log2_bounds hn
  have hpos : (0 : ℚ) < (n : ℚ) * (2 : ℚ) ^ e := by
    have hn' : (0 : ℚ) < n := by exact_mod_cast hn
    exact mul_pos hn' (zpow_pos (by norm_num) e)
  apply Int.le_antisymm
  · apply Int.le_of_lt_add_one
    rw [← Int.lt_zpow_iff_log_lt (by decide) hpos, show ((2 : Nat) : ℚ) = 2 from rfl,
      show (n.log2 : Int) + e + 1 = n.log2 + 1 + e by omega, zpow_add₀ (by norm_num)]
    exact mul_lt_mul_of_pos_right hhigh (zpow_pos (by norm_num) e)
  · rw [← Int.zpow_le_iff_le_log (by decide) hpos, show ((2 : Nat) : ℚ) = 2 from rfl,
      zpow_add₀ (by norm_num)]
    exact mul_le_mul_of_nonneg_right hlow (zpow_pos (by norm_num) e).le

theorem roundDivEven_one (n : Nat) : roundDivEven n 1 = n := by
  simp [roundDivEven, Nat.mod_one]

theorem roundRatio_self {x : Magnitude} (h : x.IsCanonical) :
    roundRatio x.num x.den = some x := by
  obtain ⟨m, e⟩ := x
  obtain ⟨hbelow, ⟨hmin, hmax⟩, hsignificant⟩ := h
  dsimp only at hbelow hmin hmax hsignificant
  rcases Nat.eq_zero_or_pos m with rfl | hm
  · have he : e = -1074 := by omega
    rw [he, roundRatio, if_pos (by decide)]
    rfl
  · have hnum : 0 < (⟨m, e⟩ : Magnitude).num := Nat.mul_pos hm (Nat.two_pow_pos _)
    have hden := Magnitude.den_pos ⟨m, e⟩
    have hgrid : gridExponent (⟨m, e⟩ : Magnitude).num (⟨m, e⟩ : Magnitude).den = e := by
      rw [gridExponent_eq hnum hden, Magnitude.num_div_den, log_mul_two_zpow hm]
      dsimp only
      have hlog : m.log2 < 53 := (Nat.log2_lt hm.ne').mpr hbelow
      rcases hsignificant with h52 | he
      · have hlog' : 52 ≤ m.log2 := (Nat.le_log2 hm.ne').mpr h52
        omega
      · omega
    have hround : roundDivEven ((⟨m, e⟩ : Magnitude).num * 2 ^ (-e).toNat)
        ((⟨m, e⟩ : Magnitude).den * 2 ^ e.toNat) = m := by
      have hk := Nat.mul_pos (Nat.two_pow_pos e.toNat) (Nat.two_pow_pos (-e).toNat)
      rw [show (⟨m, e⟩ : Magnitude).num * 2 ^ (-e).toNat = m * (2 ^ e.toNat * 2 ^ (-e).toNat) by
          simp only [Magnitude.num]; ring,
        show (⟨m, e⟩ : Magnitude).den * 2 ^ e.toNat = 1 * (2 ^ e.toNat * 2 ^ (-e).toNat) by
          simp only [Magnitude.den]; ring,
        roundDivEven_mul hk, roundDivEven_one]
    rw [roundRatio, if_neg hnum.ne']
    simp only [hgrid, hround, if_neg (show m ≠ 2 ^ 53 by omega), if_pos hmax]

/-!
## How far rounding goes

A ratio is rounded by at most half a unit in the last place of what comes out, and one that
is not below one by at most a part in `2 ^ 53` of itself (`le_of_roundRatio`). It is only
refused if it is at least halfway beyond the largest magnitude (`limit_le_of_roundRatio`). So
what is well below that limit can be rounded more than once.
-/

def Magnitude.value (x : Magnitude) : ℚ := x.mantissa * (2 : ℚ) ^ x.exponent

/-- The middle between the largest magnitude and the next one, if there were one. -/
def limit : ℚ := (2 ^ 54 - 1) * 2 ^ (970 : Int)

theorem Magnitude.ratio_eq_value (x : Magnitude) : (x.num : ℚ) / x.den = x.value :=
  x.num_div_den

theorem Magnitude.value_nonneg (x : Magnitude) : 0 ≤ x.value :=
  mul_nonneg (Nat.cast_nonneg _) (zpow_pos (by norm_num) _).le

theorem Magnitude.num_pos {x : Magnitude} (h : 0 < x.value) : 0 < x.num := by
  refine Nat.pos_of_ne_zero fun hzero => ?_
  rw [← x.ratio_eq_value, hzero, Nat.cast_zero, zero_div] at h
  exact lt_irrefl _ h

theorem Magnitude.IsCanonical.value_lt {x : Magnitude} (h : x.IsCanonical) : x.value < limit := by
  have hmantissa : (x.mantissa : ℚ) ≤ 2 ^ 53 - 1 := by
    have hle : x.mantissa + 1 ≤ 2 ^ 53 := h.below
    have hcast : ((x.mantissa + 1 : Nat) : ℚ) ≤ ((2 ^ 53 : Nat) : ℚ) := by exact_mod_cast hle
    push_cast at hcast
    linarith
  have hpow : (2 : ℚ) ^ x.exponent ≤ 2 ^ (971 : Int) :=
    zpow_le_zpow_right₀ (by norm_num) h.exponent.2
  have htwice : (2 : ℚ) ^ (971 : Int) = 2 * 2 ^ (970 : Int) := zpow_one_add₀ (by norm_num) 970
  have hpos : (0 : ℚ) < 2 ^ (970 : Int) := zpow_pos (by norm_num) _
  calc x.value ≤ (2 ^ 53 - 1) * 2 ^ (971 : Int) :=
        mul_le_mul hmantissa hpow (zpow_pos (by norm_num) _).le (by norm_num)
    _ < limit := by
        rw [limit, htwice]
        generalize (2 : ℚ) ^ (970 : Int) = u at hpos
        linarith

/-! ### One rounding -/

theorem two_zpow_le {a b : Int} (h : a ≤ b) : (2 : ℚ) ^ a ≤ 2 ^ b :=
  zpow_le_zpow_right₀ (by norm_num) h

theorem two_zpow_pos (e : Int) : (0 : ℚ) < 2 ^ e := zpow_pos (by norm_num) e

theorem value_of_ofUnits {e : Int} {q : Nat} {x : Magnitude} (h : ofUnits e q = some x) :
    x.value = q * 2 ^ e ∧ e ≤ x.exponent := by
  rw [ofUnits] at h
  split at h <;> split at h
  · next hcarry hmax =>
    obtain rfl := Option.some.inj h
    refine ⟨?_, Int.le_add_one (le_refl e)⟩
    rw [Magnitude.value, hcarry, zpow_add_one₀ (by norm_num)]
    push_cast
    ring
  · cases h
  · obtain rfl := Option.some.inj h
    exact ⟨rfl, le_refl e⟩
  · cases h

/-- There are too many units only if they are too large, or if one more bit is carried. -/
theorem lt_of_ofUnits {e : Int} {q : Nat} (h : ofUnits e q = none) :
    971 < e ∨ e = 971 ∧ q = 2 ^ 53 := by
  rw [ofUnits] at h
  split at h <;> split at h
  · cases h
  · next hcarry hlarge =>
    dsimp only at hlarge
    omega
  · cases h
  · next hlarge => exact .inl (Int.not_le.mp hlarge)

/-- The units are less or more by at most half a unit. -/
theorem Rounds.bounds {v : ℚ} {e : Int} {q : Nat} (h : Rounds v e q) :
    q * 2 ^ e ≤ v + 2 ^ e / 2 ∧ v ≤ q * 2 ^ e + 2 ^ e / 2 := by
  have hpos := two_zpow_pos e
  have hv : v / 2 ^ e * 2 ^ e = v := div_mul_cancel₀ v hpos.ne'
  obtain ⟨hlow, hhigh⟩ := abs_le.mp h.near
  generalize v / 2 ^ e = units at hv hlow hhigh
  have hup := mul_le_mul_of_nonneg_right (show (q : ℚ) ≤ units + 1 / 2 by linarith) hpos.le
  have hdown := mul_le_mul_of_nonneg_right (show units ≤ (q : ℚ) + 1 / 2 by linarith) hpos.le
  rw [add_mul, hv] at hup
  rw [add_mul, hv] at hdown
  constructor <;> linarith

/-- The magnitude is at most half a unit in its last place away. -/
theorem roundRatio_near {num den : Nat} (hden : 0 < den) {x : Magnitude}
    (h : roundRatio num den = some x) : (num : ℚ) / den ≤ x.value + 2 ^ x.exponent / 2 := by
  rcases Nat.eq_zero_or_pos num with rfl | hnum
  · have hpos := two_zpow_pos x.exponent
    have hvalue := x.value_nonneg
    rw [Nat.cast_zero, zero_div]
    linarith
  · obtain ⟨e, q, hrounds, hround⟩ := exists_rounds hnum hden
    obtain ⟨hvalue, hexponent⟩ := value_of_ofUnits (hround.symm.trans h)
    have hunit := two_zpow_le hexponent
    have hhigh := hrounds.bounds.2
    rw [hvalue]
    linarith

/-- What is not below one is rounded to no less than one, and to little more than it is. -/
theorem le_of_roundRatio {num den : Nat} (hden : 0 < den) {x : Magnitude}
    (h : roundRatio num den = some x) (hone : 1 ≤ (num : ℚ) / den) :
    1 ≤ x.value ∧ x.value ≤ (num : ℚ) / den * (1 + 1 / 2 ^ 53) := by
  have hnum : 0 < num := Nat.pos_of_ne_zero fun hzero => by
    rw [hzero, Nat.cast_zero, zero_div] at hone
    exact absurd hone (by norm_num)
  obtain ⟨e, q, hrounds, hround⟩ := exists_rounds hnum hden
  obtain ⟨hvalue, -⟩ := value_of_ofUnits (hround.symm.trans h)
  have hgrid := hrounds.grid
  have hbits := hrounds.bits
  have hhigh := hrounds.bounds.1
  rw [hvalue]
  generalize (num : ℚ) / den = v at hone hgrid hhigh
  have hlog : 0 ≤ Int.log 2 v := by
    rw [← Int.zpow_le_iff_le_log (by decide) (by linarith)]
    simpa using hone
  have he : e = Int.log 2 v - 52 := by omega
  have hq : 2 ^ 52 ≤ q := hbits.resolve_right (by omega)
  have hsplit : (2 : ℚ) ^ 52 * 2 ^ e = 2 ^ Int.log 2 v := by
    rw [he, zpow_sub₀ (by norm_num)]
    norm_num
    ring
  have hfirst : (2 : ℚ) ^ Int.log 2 v ≤ v := Int.zpow_log_le_self (b := 2) (by decide) (by linarith)
  constructor
  · calc (1 : ℚ) = 2 ^ (0 : Int) := (zpow_zero 2).symm
      _ ≤ 2 ^ Int.log 2 v := two_zpow_le hlog
      _ = 2 ^ 52 * 2 ^ e := hsplit.symm
      _ ≤ q * 2 ^ e := mul_le_mul_of_nonneg_right (by exact_mod_cast hq) (two_zpow_pos e).le
  · linarith

theorem limit_le_of_roundRatio {num den : Nat} (hden : 0 < den) (h : roundRatio num den = none) :
    limit ≤ (num : ℚ) / den := by
  have hnum : 0 < num := Nat.pos_of_ne_zero fun hzero => by
    rw [hzero] at h
    cases h
  have hratio : (0 : ℚ) < (num : ℚ) / den := by
    have hnum' : (0 : ℚ) < num := by exact_mod_cast hnum
    have hden' : (0 : ℚ) < den := by exact_mod_cast hden
    positivity
  obtain ⟨e, q, hrounds, hround⟩ := exists_rounds hnum hden
  have hgrid := hrounds.grid
  have hlow := hrounds.bounds.1
  rw [hround] at h
  generalize (num : ℚ) / den = v at hratio hgrid hlow
  have hpos := two_zpow_pos 970
  rcases lt_of_ofUnits h with hlarge | ⟨rfl, rfl⟩
  · have hfirst : (2 : ℚ) ^ Int.log 2 v ≤ v := Int.zpow_log_le_self (b := 2) (by decide) hratio
    have hpow : (2 : ℚ) ^ 54 * 2 ^ (970 : Int) ≤ 2 ^ Int.log 2 v := by
      rw [← zpow_natCast, ← zpow_add₀ (by norm_num)]
      exact two_zpow_le (by push_cast; omega)
    rw [limit]
    generalize (2 : ℚ) ^ (970 : Int) = u at hpos hpow
    linarith
  · have htwice : (2 : ℚ) ^ (971 : Int) = 2 * 2 ^ (970 : Int) := zpow_one_add₀ (by norm_num) 970
    rw [htwice] at hlow
    rw [limit]
    generalize (2 : ℚ) ^ (970 : Int) = u at hpos hlow
    push_cast at hlow
    linarith

end Pipewright
