import Pipewright.Decimal
import Pipewright.Proofs.Decimal.Rounding
import Pipewright.Proofs.Text

/-!
# The shortest decimal reads back

What the search for a decimal finds rounds to the magnitude it was made for, and
so does the exact expansion it falls back on. Where the point stands and how many
zeros there are is of no concern, since rounding looks at the value alone.
-/

namespace Pipewright.Decimal

def value (d : Decimal) : ℚ := d.digits * (10 : ℚ) ^ d.exponent

theorem ratio_eq_value (d : Decimal) :
    ((d.digits * 10 ^ d.exponent.toNat : Nat) : ℚ) / ((10 ^ (-d.exponent).toNat : Nat) : ℚ)
      = d.value := by
  have hpow := zpow_eq_div (b := 10) (by decide) d.exponent
  rw [show ((10 : Nat) : ℚ) = 10 from rfl] at hpow
  rw [value, hpow]
  push_cast
  rw [mul_div_assoc]

/-- A decimal reads back if its value does, however it is written as a ratio. -/
theorem readsBack_iff {x : Magnitude} {d : Decimal} {num den : Nat} (hden : 0 < den)
    (h : (num : ℚ) / den = d.value) : readsBack x d ↔ roundRatio num den = some x := by
  rw [readsBack, beq_iff_eq]
  rw [roundRatio_congr (Nat.pow_pos (by decide)) hden ((ratio_eq_value d).trans h.symm)]

theorem readsBack_congr {x : Magnitude} {d d' : Decimal} (h : d.value = d'.value) :
    readsBack x d ↔ readsBack x d' := by
  rw [readsBack_iff (Nat.pow_pos (by decide)) ((ratio_eq_value d').trans h.symm), readsBack,
    beq_iff_eq]

theorem value_strip (fuel : Nat) (d : Decimal) : (strip fuel d).value = d.value := by
  fun_induction strip fuel d with
  | case1 => rfl
  | case2 fuel d h ih =>
      have hten : d.digits = d.digits / 10 * 10 := by omega
      have hdigits : (d.digits : ℚ) = ((d.digits / 10 : Nat) : ℚ) * 10 := by exact_mod_cast hten
      rw [ih, value, value, zpow_add₀ (by norm_num), zpow_one, hdigits]
      ring
  | case3 => rfl

theorem value_exact (x : Magnitude) : (exact x).value = (x.num : ℚ) / x.den := by
  obtain ⟨m, e⟩ := x
  rw [Magnitude.num_div_den, value, exact]
  split
  · next he =>
    obtain ⟨n, rfl⟩ := Int.eq_ofNat_of_zero_le he
    simp [Magnitude.num]
  · next he =>
    dsimp only at he
    obtain ⟨n, hn⟩ := Int.eq_ofNat_of_zero_le (show 0 ≤ -e by omega)
    obtain rfl : e = -(n : Int) := by omega
    have hten : (10 : ℚ) ^ n = 2 ^ n * 5 ^ n := by rw [← mul_pow]; norm_num
    simp only [zpow_neg, zpow_natCast, neg_neg, Int.toNat_natCast, hten]
    push_cast
    field_simp

theorem readsBack_exact {x : Magnitude} (h : x.IsCanonical) : readsBack x (exact x) :=
  (readsBack_iff x.den_pos (value_exact x).symm).mpr (roundRatio_self h)

theorem readsBack_onGrid {tie : Tie} {x : Magnitude} {exponent : Int} {d : Decimal}
    (h : onGrid tie x exponent = some d) : readsBack x d := by
  unfold onGrid at h
  dsimp only at h
  split at h
  · cases h
  · next hlow _ => rw [← Option.some.inj h]; exact hlow
  · next _ hhigh => rw [← Option.some.inj h]; exact hhigh
  · next hlow hhigh =>
    split at h
    · rw [← Option.some.inj h]; exact hlow
    · split at h
      · rw [← Option.some.inj h]; exact hhigh
      · cases tie with
        | up => rw [← Option.some.inj h]; exact hhigh
        | toEven =>
            dsimp only at h
            split at h
            · rw [← Option.some.inj h]; exact hlow
            · rw [← Option.some.inj h]; exact hhigh

/-- The digits that are printed round to the magnitude they are printed for. -/
theorem readsBack_shortest (tie : Tie) {x : Magnitude} (h : x.IsCanonical) :
    readsBack x (shortest tie x) := by
  unfold shortest
  split
  · next hzero =>
    obtain ⟨m, e⟩ := x
    obtain rfl : m = 0 := hzero
    have he : e = -1074 := by
      have := h.significant
      dsimp only at this
      omega
    rw [he]
    decide
  · dsimp only
    rw [readsBack_congr (value_strip _ _)]
    cases hfound : (List.range 17).findSome? fun n => onGrid tie x (order x - (n + 1 : Nat)) with
    | none => exact readsBack_exact h
    | some d =>
        obtain ⟨n, -, hgrid⟩ := List.exists_of_findSome?_eq_some hfound
        exact readsBack_onGrid hgrid

/-! ## The order of a decimal -/

def lead (d : Decimal) : Int := d.exponent + (Numeral.digits d.digits).length - 1

theorem pow_le_of_length {n k : Nat} (hn : 0 < n) (h : (Numeral.digits n).length = k + 1) :
    10 ^ k ≤ n := by
  rcases Nat.eq_zero_or_pos k with rfl | hk
  · exact hn
  · by_contra hlt
    have hle := (Nat.length_toDigits_le_iff (b := 10) (by decide) hk).mpr (by omega : n < 10 ^ k)
    change (Numeral.digits n).length ≤ k at hle
    omega

theorem exists_length_digits (n : Nat) : ∃ k, (Numeral.digits n).length = k + 1 :=
  ⟨(Numeral.digits n).length - 1, by
    have := List.length_pos_iff.mpr (Numeral.digits_ne_nil n)
    omega⟩

theorem log2_digits {d : Decimal} (h : d.digits ≠ 0) :
    3 * (d.lead - d.exponent) ≤ d.digits.log2 := by
  obtain ⟨k, hk⟩ := exists_length_digits d.digits
  have hpow := pow_le_of_length (Nat.pos_of_ne_zero h) hk
  have h8 : 2 ^ (3 * k) ≤ d.digits := by
    refine le_trans ?_ hpow
    rw [pow_mul]
    exact Nat.pow_le_pow_left (by decide) k
  have hlog := (Nat.le_log2 h).mpr h8
  rw [lead, hk]
  omega

/-- A decimal that reads back is read as the number, if its order is not extreme. -/
theorem ofDecimal_of_readsBack (negative : Bool) {x : Magnitude} {d : Decimal}
    (h : readsBack x d) (hlow : d.digits ≠ 0 → -400 ≤ d.exponent + d.digits.log2)
    (hhigh : d.exponent ≤ 400) :
    Binary64.ofDecimal negative d.digits d.exponent = .finite negative x := by
  rw [readsBack, beq_iff_eq] at h
  unfold Binary64.ofDecimal
  by_cases hzero : d.digits = 0
  · rw [hzero, Nat.zero_mul, roundRatio, if_pos rfl] at h
    rw [if_pos (.inl hzero), Option.some.inj h]
  · have hlow := hlow hzero
    rw [if_neg (by omega), if_neg (by omega), h]
    rfl

/-! ## Texts with a point -/

/-- The decimal that the digits before and after a point are. -/
def ofPointed (whole part : List Char) : Decimal :=
  ⟨Numeral.value 0 (whole ++ part), -part.length⟩

/-- The digits before and after a point are those of the decimal. -/
structure Pointed (d : Decimal) (whole part : List Char) : Prop where
  whole_ne : whole ≠ []
  part_ne : part ≠ []
  digits : ∀ c ∈ whole ++ part, c.isDigit
  value : (ofPointed whole part).value = d.value
  low : -400 ≤ (ofPointed whole part).exponent + (ofPointed whole part).digits.log2

theorem forall_isDigit_zeros (k : Nat) : ∀ c ∈ List.replicate k '0', c.isDigit :=
  fun _ hc => (List.eq_of_mem_replicate hc) ▸ by decide

/-- A whole number is followed by the point and a zero. -/
theorem pointed_whole {d : Decimal} (he : 0 ≤ d.exponent) :
    Pointed d (Numeral.digits d.digits ++ List.replicate d.exponent.toNat '0') ['0'] := by
  obtain ⟨digits, exponent⟩ := d
  obtain ⟨n, rfl⟩ := Int.eq_ofNat_of_zero_le he
  have hvalue : Numeral.value 0 (Numeral.digits digits ++ List.replicate n '0' ++ ['0'])
      = digits * 10 ^ n * 10 := by
    rw [Numeral.value_append, Numeral.value_append, Numeral.value_digits,
      Numeral.value_replicate_zero]
    exact Numeral.value_replicate_zero _ 1
  refine ⟨by simp [Numeral.digits_ne_nil], by simp, ?_, ?_, ?_⟩
  · simp only [List.forall_mem_append]
    exact ⟨⟨fun _ => Numeral.isDigit_of_mem_digits, forall_isDigit_zeros _⟩,
      forall_isDigit_zeros 1⟩
  · simp only [value, ofPointed, Int.toNat_natCast, hvalue]
    push_cast
    simp
  · simp only [ofPointed, List.length_singleton]
    omega

/-- The digits with the point between them or before them are all digits of the decimal. -/
theorem pointed_of_value {d : Decimal} {whole part : List Char} (hwhole : whole ≠ [])
    (hpart : part ≠ []) (hdigits : ∀ c ∈ whole ++ part, c.isDigit) (h : d.digits ≠ 0)
    (hvalue : Numeral.value 0 (whole ++ part) = d.digits) (hlength : d.exponent = -part.length)
    (hlead : -100 ≤ d.lead) : Pointed d whole part := by
  have hpointed : ofPointed whole part = d := by rw [ofPointed, hvalue, ← hlength]
  have hlog := log2_digits h
  refine ⟨hwhole, hpart, hdigits, by rw [hpointed], ?_⟩
  rw [hpointed]
  omega

theorem layout_zero (f : NumberForm) {d : Decimal} (h : d.digits = 0) :
    f.layout d = ['0', '.', '0'] := by
  rw [NumberForm.layout]
  dsimp only
  rw [if_pos h]

/-- There are few digits, and no zero stands in front of others. -/
structure IsWhole (whole : List Char) : Prop where
  short : whole.length ≤ 16
  first : whole.head? = some '0' → whole.length = 1

theorem isWhole_zero : IsWhole ['0'] := ⟨by decide, fun _ => rfl⟩

theorem isWhole_append {n : Nat} {whole more : List Char} (hn : n ≠ 0)
    (h : whole ++ more = Numeral.digits n) (hne : whole ≠ []) (zeros : List Char)
    (hshort : (whole ++ zeros).length ≤ 16) : IsWhole (whole ++ zeros) := by
  refine ⟨hshort, fun hfirst => absurd (Numeral.head?_digits ?_) hn⟩
  obtain ⟨c, whole, rfl⟩ := List.exists_cons_of_ne_nil hne
  rw [← h]
  exact hfirst

/-- The text of a decimal with its point in place has the value of the decimal. -/
theorem layout_positional {f : NumberForm} (hf : -100 ≤ f.plainFrom) {d : Decimal}
    (h : d.digits = 0 ∨ f.plainFrom ≤ d.lead ∧ d.lead < 16) :
    ∃ whole part, f.layout d = whole ++ '.' :: part ∧ Pointed d whole part ∧ IsWhole whole := by
  by_cases hzero : d.digits = 0
  · refine ⟨['0'], ['0'], layout_zero f hzero,
      ⟨by simp, by simp, forall_isDigit_zeros 2, ?_, by decide⟩, isWhole_zero⟩
    simp [value, ofPointed, hzero, show Numeral.value 0 ['0', '0'] = 0 from rfl]
  have hlead := h.resolve_left hzero
  have hdigits : ∀ c ∈ Numeral.digits d.digits, c.isDigit := fun _ => Numeral.isDigit_of_mem_digits
  obtain ⟨k, hk⟩ := exists_length_digits d.digits
  have hlength : d.lead = d.exponent + (Numeral.digits d.digits).length - 1 := rfl
  unfold NumberForm.layout
  dsimp only
  rw [if_neg hzero, ← hlength, if_pos hlead]
  split
  · next he =>
    refine ⟨_, ['0'], by rw [List.append_assoc], pointed_whole he, ?_⟩
    refine isWhole_append hzero (List.append_nil _) (Numeral.digits_ne_nil _) _ ?_
    rw [List.length_append, List.length_replicate]
    omega
  · next he =>
    split
    · next hpos =>
      have htake : (Numeral.digits d.digits).take (d.lead.toNat + 1) ≠ [] := by
        simp [Numeral.digits_ne_nil]
      refine ⟨_, _, rfl, pointed_of_value htake ?_ ?_ hzero ?_ ?_ (by omega), ?_⟩
      · rw [Ne, List.drop_eq_nil_iff]
        omega
      · rw [List.take_append_drop]
        exact hdigits
      · rw [List.take_append_drop, Numeral.value_digits]
      · rw [List.length_drop]
        omega
      · have hwhole := isWhole_append hzero (List.take_append_drop _ _) htake [] ?_
        · rwa [List.append_nil] at hwhole
        · rw [List.append_nil, List.length_take]
          omega
    · next hneg =>
      refine ⟨['0'], List.replicate (-d.lead - 1).toNat '0' ++ Numeral.digits d.digits, rfl,
        pointed_of_value (by simp) ?_ ?_ hzero ?_ ?_ (by omega), isWhole_zero⟩
      · simp [Numeral.digits_ne_nil]
      · simp only [List.forall_mem_append]
        exact ⟨forall_isDigit_zeros 1, forall_isDigit_zeros _, hdigits⟩
      · rw [Numeral.value_append, Numeral.value_append, Numeral.value_replicate_zero]
        exact (congrArg (Numeral.value · _) (Nat.zero_mul _)).trans (Numeral.value_digits _)
      · rw [List.length_append, List.length_replicate]
        omega

/-- What a decimal without its point in place is written as. -/
theorem layout_scientific {f : NumberForm} {d : Decimal} (h : d.digits ≠ 0)
    (hlead : ¬(f.plainFrom ≤ d.lead ∧ d.lead < 16)) :
    f.layout d = (if (Numeral.digits d.digits).length ≤ 1 then Numeral.digits d.digits
      else (Numeral.digits d.digits).take 1 ++ '.' :: (Numeral.digits d.digits).drop 1)
      ++ 'e' :: ((if f.plusSign ∧ 0 ≤ d.lead then ['+']
        else []) ++ (Numeral.intText d.lead).toList) := by
  have hlength : d.lead = d.exponent + (Numeral.digits d.digits).length - 1 := rfl
  unfold NumberForm.layout
  dsimp only
  rw [if_neg h, ← hlength, if_neg hlead]

end Pipewright.Decimal
