import Pipewright.Engine

/-!
# Exponential waiting

The wait after an attempt is meant to be the base, doubled with each attempt and cut to
the longest wait. It is reckoned in whole thousandths of a second, in a word of 64 bits.
`reckoned` is what that comes to. It never says more than the doubled base does, and it
says as much exactly for the bases that `IsCounted` describes: those with nothing below
a thousandth of a second, as long as the doubled base still fits in the word.

So the wait is the meant one for these bases, and else only where the longest wait hides
the loss (`delay_exponential`). A base below a thousandth of a second does not make
anyone wait at all.
-/

namespace Pipewright

attribute [local instance (high)] instPowNat

namespace Span

def doubled (d : Span) (n : Nat) : Span := ⟨d.nanos * 2 ^ n⟩

theorem eq_iff {a b : Span} : a = b ↔ a.nanos = b.nanos :=
  ⟨congrArg nanos, fun h => (mk.injEq ..).mpr h⟩

theorem nanos_min (a b : Span) : (a.min b).nanos = Min.min a.nanos b.nanos := rfl

end Span

namespace Backoff

variable {base longest : Span} {attempt later : Nat}

/-- The base is a number of thousandths of a second that, doubled, fits in 64 bits. -/
structure IsCounted (base : Span) (attempt : Nat) : Prop where
  whole : 1000000 ∣ base.nanos
  fits : base.millis * 2 ^ attempt < 2 ^ (64 : Nat)

def reckoned (base : Span) (attempt : Nat) : Span :=
  .ofMillis (Nat.min (base.millis % 2 ^ (64 : Nat) * 2 ^ attempt) (2 ^ (64 : Nat) - 1))

theorem nanos_reckoned (base : Span) (attempt : Nat) : (reckoned base attempt).nanos =
    min (base.millis % 2 ^ (64 : Nat) * 2 ^ attempt) (2 ^ (64 : Nat) - 1) * 1000000 := rfl

theorem delay_of_le (base longest : Span) (h : attempt ≤ 32) :
    (exponential base longest).delay attempt = (reckoned base attempt).min longest := by
  have hcapped : Nat.min attempt 32 = attempt := Nat.min_eq_left h
  rw [delay, hcapped]
  rfl

theorem reckoned_le (base : Span) (attempt : Nat) :
    (reckoned base attempt).nanos ≤ (base.doubled attempt).nanos := by
  have hcut : base.millis % 2 ^ (64 : Nat) * 1000000 ≤ base.nanos :=
    Nat.le_trans (Nat.mul_le_mul_right _ (Nat.mod_le _ _)) (Nat.div_mul_le_self _ _)
  calc (reckoned base attempt).nanos
      ≤ base.millis % 2 ^ (64 : Nat) * 2 ^ attempt * 1000000 :=
        Nat.mul_le_mul_right _ (Nat.min_le_left _ _)
    _ = base.millis % 2 ^ (64 : Nat) * 1000000 * 2 ^ attempt := Nat.mul_right_comm ..
    _ ≤ base.nanos * 2 ^ attempt := Nat.mul_le_mul_right _ hcut

/-- The doubled base is reckoned as it is exactly if it is counted. -/
theorem reckoned_eq_iff :
    reckoned base attempt = base.doubled attempt ↔ IsCounted base attempt := by
  have hpow : 0 < 2 ^ attempt := Nat.two_pow_pos attempt
  have hmillis : base.millis * 1000000 ≤ base.nanos := Nat.div_mul_le_self _ _
  have hmod : base.millis % 2 ^ (64 : Nat) ≤ base.millis := Nat.mod_le _ _
  constructor
  · intro heq
    have hnanos : (reckoned base attempt).nanos = base.nanos * 2 ^ attempt :=
      congrArg Span.nanos heq
    rw [nanos_reckoned] at hnanos
    -- Nothing is lost at any of the three steps: not by the word that the base is cut to, not by
    -- the largest product, and not below the thousandths.
    have hleft : min (base.millis % 2 ^ (64 : Nat) * 2 ^ attempt) (2 ^ (64 : Nat) - 1) * 1000000
        ≤ base.millis % 2 ^ (64 : Nat) * 1000000 * 2 ^ attempt := by
      rw [Nat.mul_right_comm (base.millis % _)]
      exact Nat.mul_le_mul_right _ (Nat.min_le_left _ _)
    have hcut : base.nanos ≤ base.millis % 2 ^ (64 : Nat) * 1000000 :=
      Nat.le_of_mul_le_mul_right (hnanos ▸ hleft) hpow
    have hsame : base.millis % 2 ^ (64 : Nat) = base.millis := by omega
    have hwhole : base.nanos = base.millis * 1000000 := by omega
    refine ⟨⟨base.millis, by omega⟩, ?_⟩
    rw [hsame, hwhole, Nat.mul_right_comm] at hnanos
    have hfits := Nat.eq_of_mul_eq_mul_right (by decide) hnanos
    omega
  · rintro ⟨⟨count, hcount⟩, hfits⟩
    have hwhole : base.millis * 1000000 = base.nanos := by
      have hdiv : base.millis = base.nanos / 1000000 := rfl
      omega
    have hsmall : base.millis < 2 ^ (64 : Nat) :=
      Nat.lt_of_le_of_lt (Nat.le_mul_of_pos_right _ hpow) hfits
    have hnanos : (reckoned base attempt).nanos = (base.doubled attempt).nanos := by
      rw [nanos_reckoned, Nat.mod_eq_of_lt hsmall, Nat.min_eq_left (by omega), Nat.mul_right_comm,
        hwhole]
      rfl
    exact Span.eq_iff.mpr hnanos

/-- Nothing is reckoned exactly if nothing is left of the base in a word of thousandths. -/
theorem nanos_reckoned_eq_zero :
    (reckoned base attempt).nanos = 0 ↔ 2 ^ (64 : Nat) ∣ base.millis := by
  have hpow : 0 < 2 ^ attempt := Nat.two_pow_pos attempt
  rw [nanos_reckoned, Nat.dvd_iff_mod_eq_zero]
  constructor
  · intro hzero
    have hproduct : base.millis % 2 ^ (64 : Nat) * 2 ^ attempt = 0 := by omega
    exact (Nat.mul_eq_zero.mp hproduct).resolve_right (Nat.ne_of_gt hpow)
  · intro hzero
    rw [hzero, Nat.zero_mul, Nat.zero_min, Nat.zero_mul]

/-- A wait is not shorter than one after an earlier attempt. -/
theorem delay_mono (base longest : Span) (h : attempt ≤ later) :
    ((exponential base longest).delay attempt).nanos
      ≤ ((exponential base longest).delay later).nanos := by
  have hcapped : Nat.min attempt 32 ≤ Nat.min later 32 :=
    Nat.le_min.mpr ⟨Nat.le_trans (Nat.min_le_left _ _) h, Nat.min_le_right _ _⟩
  have hfactor : 2 ^ Nat.min attempt 32 ≤ 2 ^ Nat.min later 32 :=
    Nat.pow_le_pow_right (by decide) hcapped
  have hproduct := Nat.mul_le_mul_left (base.millis % 2 ^ (64 : Nat)) hfactor
  have hmillis :
      Nat.min (base.millis % 2 ^ (64 : Nat) * 2 ^ Nat.min attempt 32) (2 ^ (64 : Nat) - 1)
      ≤ Nat.min (base.millis % 2 ^ (64 : Nat) * 2 ^ Nat.min later 32) (2 ^ (64 : Nat) - 1) :=
    Nat.le_min.mpr ⟨Nat.le_trans (Nat.min_le_left _ _) hproduct, Nat.min_le_right _ _⟩
  exact Nat.le_min.mpr ⟨Nat.le_trans (Nat.min_le_left _ _) (Nat.mul_le_mul_right _ hmillis),
    Nat.min_le_right _ _⟩

/-- The wait after an attempt, up to the one with number 32, for every base and every longest wait.
It is the doubled base cut to the longest wait exactly if the base is counted, or if the longest
wait is reached by what is reckoned all the same; it is never more. There is no wait at all, though
the longest one is not zero, exactly if the thousandths of the base are a multiple of `2 ^ 64`, as
they are for every base below a thousandth of a second. And no wait is shorter than an earlier
one. -/
theorem delay_exponential (base longest : Span) (h : attempt ≤ 32) :
    ((exponential base longest).delay attempt = (base.doubled attempt).min longest ↔
      IsCounted base attempt ∨ longest.nanos ≤ (reckoned base attempt).nanos) ∧
    ((exponential base longest).delay attempt).nanos ≤ ((base.doubled attempt).min longest).nanos ∧
    (longest.nanos ≠ 0 →
      (((exponential base longest).delay attempt).nanos = 0 ↔ 2 ^ (64 : Nat) ∣ base.millis)) ∧
    ∀ later, attempt ≤ later →
      ((exponential base longest).delay attempt).nanos
        ≤ ((exponential base longest).delay later).nanos := by
  have hle := reckoned_le base attempt
  rw [delay_of_le base longest h]
  refine ⟨?_, ?_, ?_, ?_⟩
  · rw [← reckoned_eq_iff, Span.eq_iff, Span.eq_iff, Span.nanos_min, Span.nanos_min]
    omega
  · rw [Span.nanos_min, Span.nanos_min]
    omega
  · intro hlongest
    rw [← @nanos_reckoned_eq_zero base attempt, Span.nanos_min]
    omega
  · intro later hlater
    rw [← delay_of_le base longest h]
    exact delay_mono base longest hlater

/-- A base of 25 thousandths of a second is doubled as it is meant to be; one of half a thousandth
makes nobody wait. -/
theorem delay_exponential_halfMilli :
    (exponential (.ofMillis 25) (.ofSeconds 1)).delay 3 = .ofMillis 200 ∧
    ((exponential ⟨500000⟩ (.ofSeconds 1)).delay 0).nanos = 0 ∧
    (exponential ⟨500000⟩ (.ofSeconds 1)).delay 0 ≠ (Span.doubled ⟨500000⟩ 0).min
    (.ofSeconds 1) := by
  obtain ⟨hmeant, -, hnone, -⟩ := delay_exponential ⟨500000⟩ (.ofSeconds 1) (Nat.zero_le 32)
  have hmillis : (⟨500000⟩ : Span).millis = 0 := rfl
  refine ⟨(delay_exponential (.ofMillis 25) (.ofSeconds 1) (by decide : 3 ≤ 32)).1.mpr
      (.inl ⟨⟨25, rfl⟩, by decide⟩), (hnone (by decide)).mpr (hmillis ▸ Nat.dvd_zero _), ?_⟩
  rw [ne_eq, hmeant]
  rintro (hcounted | hlong)
  · exact absurd hcounted.whole (by decide)
  · exact absurd hlong (by decide)

end Backoff

end Pipewright
