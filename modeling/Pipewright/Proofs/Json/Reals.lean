import Mathlib.Tactic.FieldSimp
import Pipewright.Json.Document
import Pipewright.Proofs.Decimal.Rereading
import Pipewright.Proofs.Decimal.Rounding
import Pipewright.Proofs.Json.Rereading

/-!
# Real numbers read back

A finite real number is written as a numeral that stands for its shortest digits (`exists_render`),
and whoever reads numerals reads it. What a numeral is read as is not rounded once but up to three
times: the first digits that fit, the power of ten, and their product. So the number that comes back
may be another one, and near the largest one it might be none at all.

It never is (`exists_ofDocument?_real`). The digits stand for at most half a unit more than the
number, and three units below the limit there is room for what rounding adds; that leaves the three
largest magnitudes, which are tried.
-/

namespace Pipewright.Json

open Document

/-! ## The text of a real number -/

namespace Numeral

def amount (n : Numeral) : ℚ :=
  Pipewright.Numeral.value 0 (n.whole ++ n.fraction.getD [])
    * (10 : ℚ) ^ (n.powerValue - (n.fraction.getD []).length)

def signedChars (n : Numeral) : List Char := (if n.negative then ['-'] else []) ++ n.chars

/-- The numeral stands for the decimal and has few digits in front of its point. -/
structure Spells (n : Numeral) (d : Decimal) : Prop where
  written : n.IsWritten
  amount : n.amount = d.value
  short : n.whole.length ≤ 16

theorem spells_of_pointed (negative : Bool) {d : Decimal} {whole part : List Char}
    (h : Decimal.Pointed d whole part) (hwhole : Decimal.IsWhole whole) :
    Spells ⟨negative, whole, some part, none⟩ d := by
  obtain ⟨hfront, hback⟩ := List.forall_mem_append.mp h.digits
  refine ⟨⟨⟨h.whole_ne, hfront⟩, hwhole.first, ?_, by simp⟩, ?_, hwhole.short⟩
  · rintro ds ⟨⟩
    exact ⟨h.part_ne, hback⟩
  · rw [← h.value, amount, Decimal.value, Decimal.ofPointed, powerValue]
    simp

theorem powerValue_lead (negative : Bool) (whole : List Char) (fraction : Option (List Char))
    (lead : Int) :
    powerValue ⟨negative, whole, fraction, some (lead < 0, Pipewright.Numeral.digits lead.natAbs)⟩
      = lead := by
  simp only [powerValue, Pipewright.Numeral.value_digits, decide_eq_true_eq]
  split <;> omega

theorem powerChars_lead (lead : Int) :
    powerChars (some (lead < 0, Pipewright.Numeral.digits lead.natAbs))
      = 'e' :: ((if 0 ≤ lead then ['+'] else []) ++ (Pipewright.Numeral.intText lead).toList) := by
  rw [Pipewright.Numeral.toList_intText]
  by_cases hneg : lead < 0
  · simp [powerChars, hneg, Int.not_le.mpr hneg]
  · simp [powerChars, hneg, Int.not_lt.mp hneg]

/-- The first digit, the others behind the point, and the power of ten. -/
theorem spells_of_lead (negative : Bool) (d : Decimal) :
    ∃ n : Numeral, n.negative = negative ∧ Spells n d ∧
      n.chars = (if (Pipewright.Numeral.digits d.digits).length
        ≤ 1 then Pipewright.Numeral.digits d.digits
          else (Pipewright.Numeral.digits d.digits).take 1
            ++ '.' :: (Pipewright.Numeral.digits d.digits).drop 1)
        ++ 'e' :: ((if 0 ≤ d.lead then ['+']
          else []) ++ (Pipewright.Numeral.intText d.lead).toList) := by
  have hvalue := Pipewright.Numeral.value_digits d.digits
  have hdigits : AreDigits (Pipewright.Numeral.digits d.digits) := areDigits_digits _
  obtain ⟨k, hk⟩ := Decimal.exists_length_digits d.digits
  have hlead : d.lead = d.exponent + k := by rw [Decimal.lead, hk]; push_cast; ring
  generalize Pipewright.Numeral.digits d.digits = ds at hvalue hdigits hk
  have hfirst : (ds.take 1).length = 1 := by rw [List.length_take]; omega
  have hothers : (if ds.length ≤ 1 then none else some (ds.drop 1)).getD [] = ds.drop 1 := by
    split
    · next hone => exact (List.drop_eq_nil_iff.mpr hone).symm
    · rfl
  refine ⟨⟨negative, ds.take 1, if ds.length ≤ 1 then none else some (ds.drop 1),
    some (d.lead < 0, Pipewright.Numeral.digits d.lead.natAbs)⟩, rfl,
    ⟨⟨?_, fun _ => hfirst, ?_, ?_⟩, ?_, ?_⟩, ?_⟩
  · exact ⟨List.ne_nil_of_length_eq_add_one hfirst, fun c hc =>
      hdigits.digits c (List.mem_of_mem_take hc)⟩
  · intro cs hcs
    split at hcs
    · cases hcs
    · next hmany =>
      obtain rfl := Option.some.inj hcs
      exact ⟨fun hnil => hmany (List.drop_eq_nil_iff.mp hnil),
        fun c hc => hdigits.digits c (List.mem_of_mem_drop hc)⟩
  · rintro p ⟨⟩
    exact areDigits_digits _
  · rw [amount, powerValue_lead, hothers, Decimal.value, hlead, List.take_append_drop, hvalue,
      List.length_drop, hk]
    congr 2
    omega
  · rw [hfirst]
    decide
  · rw [chars, powerChars_lead, ← List.append_assoc]
    congr 1
    split
    · next hone => rw [fractionChars, List.append_nil, List.take_of_length_le hone]
    · rfl

end Numeral

open Json.Numeral (Spells signedChars)

/-- A real number is written as a numeral that stands for its shortest digits. -/
theorem exists_render (negative : Bool) (m : Magnitude) :
    ∃ n : Numeral, n.negative = negative ∧ Spells n (Decimal.shortest .toEven m) ∧
      (NumberForm.state.render (.finite negative m)).toList = n.signedChars := by
  have hrender : (NumberForm.state.render (.finite negative m)).toList
      = (if negative then ['-']
        else []) ++ NumberForm.state.layout (Decimal.shortest .toEven m) := by
    rw [NumberForm.render, String.toList_ofList]
    rfl
  rw [hrender]
  generalize Decimal.shortest .toEven m = d
  by_cases hplace : d.digits = 0 ∨ NumberForm.state.plainFrom ≤ d.lead ∧ d.lead < 16
  · obtain ⟨whole, part, hlayout, hpointed, hwhole⟩ := Decimal.layout_positional (by decide) hplace
    refine ⟨_, rfl, Numeral.spells_of_pointed negative hpointed hwhole, ?_⟩
    rw [hlayout, signedChars, Numeral.chars]
    simp [Numeral.fractionChars, Numeral.powerChars]
  · obtain ⟨hdigits, hlead⟩ := not_or.mp hplace
    obtain ⟨n, rfl, hspells, hchars⟩ := Numeral.spells_of_lead negative d
    refine ⟨n, rfl, hspells, ?_⟩
    rw [Decimal.layout_scientific hdigits hlead, signedChars, hchars]
    simp [NumberForm.state]

/-- A real number is read as the numeral that it is written as. -/
theorem realDocument_eq {x : Binary64} {n : Numeral} (hn : n.IsWritten)
    (hrender : (NumberForm.state.render x).toList = n.signedChars) :
    realDocument x = .number n := by
  have hread := readNumber_chars hn (show Stops isNumeral [] from trivial)
  rw [List.append_nil] at hread
  rw [realDocument, hrender, signedChars, hread]
  rfl

/-- A real number is read back from its text as a numeral. -/
theorem readNumber_render (negative : Bool) (m : Magnitude) {rest : List Char}
    (h : Stops isNumeral rest) :
    readNumber ((NumberForm.state.render (.finite negative m)).toList ++ rest)
      = some (realDocument (.finite negative m), rest) := by
  obtain ⟨n, -, hspells, hrender⟩ := exists_render negative m
  rw [realDocument_eq hspells.written hrender, hrender]
  exact readNumber_chars hspells.written h

/-- The text of a real number starts with a sign or a digit. -/
theorem exists_cons_render (negative : Bool) (m : Magnitude) :
    ∃ c cs, (NumberForm.state.render (.finite negative m)).toList = c :: cs ∧ isSignOrDigit c := by
  obtain ⟨n, -, hspells, hrender⟩ := exists_render negative m
  obtain ⟨d, ds, hds⟩ := List.exists_cons_of_ne_nil hspells.written.whole.ne_nil
  rw [hrender, signedChars, Numeral.chars, hds]
  cases n.negative with
  | true => exact ⟨_, _, rfl, rfl⟩
  | false =>
    have hdigit : d.isDigit := hspells.written.whole.digits d (hds ▸ List.mem_cons_self ..)
    exact ⟨_, _, rfl, by simp [isSignOrDigit, hdigit]⟩

end Pipewright.Json

namespace Pipewright

/-! ## Rounding more than once -/

namespace Magnitude

/-- What is so far below the limit can be rounded twice on the way to it. -/
def safeLimit : ℚ := (2 ^ 53 - 3) * 2 ^ (971 : Int)

theorem isCanonical_zero : zero.IsCanonical := ⟨by decide, by decide, .inr rfl⟩

theorem exists_of_lt_limit {num den : Nat} (hden : 0 < den) (h : (num : ℚ) / den < limit) :
    ∃ x, roundRatio num den = some x := by
  cases hround : roundRatio num den with
  | some x => exact ⟨x, rfl⟩
  | none => exact absurd (limit_le_of_roundRatio hden hround) (not_le.mpr h)

theorem pow_ten_lt_limit {k : Nat} (hk : k ≤ 308) : (10 : ℚ) ^ k < limit := by
  have hlarge : 10 ^ 308 < 18014398509481983 * 2 ^ 970 := by decide +kernel
  have hcast : ((10 ^ 308 : Nat) : ℚ) < ((18014398509481983 * 2 ^ 970 : Nat) : ℚ) :=
    Nat.cast_lt.mpr hlarge
  simp only [Nat.cast_mul, Nat.cast_pow, Nat.cast_ofNat] at hcast
  have hfactor : (2 : ℚ) ^ 54 - 1 = 18014398509481983 := by norm_num
  rw [limit, hfactor, ← Nat.cast_ofNat (n := 970), zpow_natCast]
  exact lt_of_le_of_lt (pow_le_pow_right₀ (by norm_num) hk) hcast

/-- The powers of ten up to the largest one are rounded to little more than they are. -/
theorem tenTo_value {k : Nat} (hk : k ≤ 308) :
    1 ≤ (tenTo k).value ∧ (tenTo k).value ≤ 10 ^ k * (1 + 1 / 2 ^ 53) := by
  have hratio : ((10 ^ k : Nat) : ℚ) / (1 : Nat) = 10 ^ k := by push_cast; ring
  have hlt : ((10 ^ k : Nat) : ℚ) / (1 : Nat) < limit := hratio ▸ pow_ten_lt_limit hk
  obtain ⟨x, hx⟩ := exists_of_lt_limit Nat.one_pos hlt
  have hbounds := le_of_roundRatio Nat.one_pos hx (by rw [hratio]; exact one_le_pow₀ (by norm_num))
  rw [hratio] at hbounds
  rwa [tenTo, hx]

theorem safeLimit_lt : safeLimit * ((1 + 1 / 2 ^ 53) * (1 + 1 / 2 ^ 53)) < limit := by
  have htwice : (2 : ℚ) ^ (971 : Int) = 2 * 2 ^ (970 : Int) := zpow_one_add₀ (by norm_num) 970
  have hpos := two_zpow_pos 970
  rw [safeLimit, limit, htwice]
  generalize (2 : ℚ) ^ (970 : Int) = u at hpos
  linarith

theorem safeLimit_lt_pow_ten : safeLimit < 10 ^ (309 : Int) := by
  have hlarge : 9007199254740989 * 2 ^ 971 < 10 ^ 309 := by decide +kernel
  have hcast : ((9007199254740989 * 2 ^ 971 : Nat) : ℚ) < ((10 ^ 309 : Nat) : ℚ) :=
    Nat.cast_lt.mpr hlarge
  simp only [Nat.cast_mul, Nat.cast_pow, Nat.cast_ofNat] at hcast
  have hfactor : (2 : ℚ) ^ 53 - 3 = 9007199254740989 := by norm_num
  rw [safeLimit, hfactor, ← Nat.cast_ofNat (n := 971), ← Nat.cast_ofNat (n := 309), zpow_natCast,
    zpow_natCast]
  exact hcast

theorem exists_times {x y : Magnitude} (h : x.value * y.value < limit) :
    ∃ z, x.times y = some z ∧ z.IsCanonical := by
  have hden : 0 < x.den * y.den := Nat.mul_pos x.den_pos y.den_pos
  have hratio : ((x.num * y.num : Nat) : ℚ) / ((x.den * y.den : Nat) : ℚ) = x.value * y.value := by
    rw [← ratio_eq_value, ← ratio_eq_value, div_mul_div_comm]
    push_cast
    rfl
  obtain ⟨z, hz⟩ := exists_of_lt_limit hden (by rwa [hratio])
  exact ⟨z, hz, isCanonical_of_roundRatio hden hz⟩

/-- Nothing gets too large by a division by what is not below one. -/
theorem exists_dividedBy {x y : Magnitude} (hx : x.IsCanonical) (hy : 1 ≤ y.value) :
    ∃ z, x.dividedBy y = some z ∧ z.IsCanonical := by
  have hnum : 0 < y.num := num_pos (by linarith)
  have hden : 0 < x.den * y.num := Nat.mul_pos x.den_pos hnum
  have hratio : ((x.num * y.den : Nat) : ℚ) / ((x.den * y.num : Nat) : ℚ) = x.value / y.value := by
    rw [← ratio_eq_value, ← ratio_eq_value, div_div_div_eq]
    push_cast
    rfl
  have hle : x.value / y.value ≤ x.value := div_le_self x.value_nonneg hy
  obtain ⟨z, hz⟩ := exists_of_lt_limit hden (by rw [hratio]; exact lt_of_le_of_lt hle hx.value_lt)
  exact ⟨z, hz, isCanonical_of_roundRatio hden hz⟩

end Magnitude

namespace Json.Numeral

open Magnitude

theorem exists_divideByTen (fuel : Nat) {x : Magnitude} (hx : x.IsCanonical) (k : Nat) :
    ∃ z, divideByTen fuel x k = some z ∧ z.IsCanonical := by
  induction fuel generalizing x k with
  | zero => exact ⟨_, rfl, isCanonical_zero⟩
  | succ fuel ih =>
    rw [divideByTen]
    split
    · exact ⟨_, rfl, isCanonical_zero⟩
    split
    · next hk => exact exists_dividedBy hx (tenTo_value hk).1
    · obtain ⟨y, hy, hcanonical⟩ := exists_dividedBy hx (tenTo_value (Nat.le_refl 308)).1
      rw [hy]
      exact ih hcanonical _

theorem isCanonical_of_assemble {digits : Nat} {power : Int} {x : Magnitude}
    (h : assemble digits power = some x) : x.IsCanonical := by
  obtain ⟨y, hy, h⟩ := Option.bind_eq_some_iff.mp h
  have hcanonical := isCanonical_of_roundRatio Nat.one_pos hy
  split at h
  · exact Option.some.inj h ▸ isCanonical_zero
  split at h
  · obtain ⟨z, hz, hresult⟩ := exists_divideByTen 6 hcanonical (-power).toNat
    exact Option.some.inj (hz.symm.trans h) ▸ hresult
  split at h
  · exact isCanonical_of_roundRatio (Nat.mul_pos (den_pos _) (den_pos _)) h
  · cases h

/-- Few digits and a power of ten are put together, if what they stand for is safely below the
limit. -/
theorem exists_assemble {digits : Nat} {power : Int} (hdigits : digits < 2 ^ 64)
    (h : (digits : ℚ) * 10 ^ power < safeLimit) : ∃ x, assemble digits power = some x := by
  have hratio : ((digits : Nat) : ℚ) / (1 : Nat) = digits := by push_cast; ring
  have hround : (digits : ℚ) < limit := by
    have hle : digits ≤ 10 ^ 20 := Nat.le_trans hdigits.le (by decide)
    exact lt_of_le_of_lt (by exact_mod_cast hle) (pow_ten_lt_limit (k := 20) (by decide))
  obtain ⟨x, hx⟩ := exists_of_lt_limit Nat.one_pos (hratio ▸ hround)
  have hcanonical := isCanonical_of_roundRatio Nat.one_pos hx
  rw [assemble, hx, Option.bind_eq_bind, Option.bind_some]
  split
  · exact ⟨_, rfl⟩
  next hmantissa =>
  have hone : 1 ≤ (digits : ℚ) := by
    refine Nat.one_le_cast.mpr (Nat.pos_of_ne_zero fun hzero => hmantissa ?_)
    rw [hzero] at hx
    exact Option.some.inj hx ▸ rfl
  split
  · obtain ⟨z, hz, -⟩ := exists_divideByTen 6 hcanonical (-power).toNat
    exact ⟨z, hz⟩
  obtain ⟨k, rfl⟩ := Int.eq_ofNat_of_zero_le (show 0 ≤ power by omega)
  rw [zpow_natCast] at h
  split
  · next hk =>
    have hvalue := (le_of_roundRatio Nat.one_pos hx (by rw [hratio]; exact hone)).2
    rw [hratio] at hvalue
    have hten := tenTo_value (show k ≤ 308 by omega)
    obtain ⟨z, hz, -⟩ := exists_times (x := x) (y := tenTo k) <| calc
      x.value * (tenTo k).value
          ≤ digits * (1 + 1 / 2 ^ 53) * (10 ^ k * (1 + 1 / 2 ^ 53)) :=
        mul_le_mul hvalue hten.2 (tenTo k).value_nonneg (by positivity)
      _ = digits * 10 ^ k * ((1 + 1 / 2 ^ 53) * (1 + 1 / 2 ^ 53)) := by ring
      _ < safeLimit * ((1 + 1 / 2 ^ 53) * (1 + 1 / 2 ^ 53)) :=
        mul_lt_mul_of_pos_right h (by norm_num)
      _ < limit := safeLimit_lt
    exact ⟨z, hz⟩
  · next hk =>
    -- There is a digit, so a larger power of ten would be beyond the limit by itself.
    have hpow : (10 : ℚ) ^ (309 : Int) ≤ 10 ^ k := by
      rw [← zpow_natCast]
      exact zpow_le_zpow_right₀ (by norm_num) (by omega)
    have hle : (10 : ℚ) ^ k ≤ digits * 10 ^ k := le_mul_of_one_le_left (by positivity) hone
    exact absurd (safeLimit_lt_pow_ten.trans_le (hpow.trans hle)) (not_lt.mpr h.le)

/-! ## Reading a numeral -/

theorem leading_spec (acc : Nat) (cs : List Char) :
    ∃ front, cs = front ++ (leading acc cs).2 ∧
      (leading acc cs).1 = Pipewright.Numeral.value acc front ∧
      (acc < 2 ^ 64 → (leading acc cs).1 < 2 ^ 64) := by
  induction cs generalizing acc with
  | nil => exact ⟨[], rfl, rfl, id⟩
  | cons c cs ih =>
    rw [leading]
    split
    · next hfits =>
      obtain ⟨front, hsplit, hvalue, hbound⟩ := ih (10 * acc + (c.toNat - '0'.toNat))
      refine ⟨c :: front, ?_, hvalue, fun _ => hbound hfits⟩
      rw [List.cons_append, ← hsplit]
    · exact ⟨[], rfl, rfl, id⟩

theorem leading_eq {acc : Nat} {cs : List Char} (h : Pipewright.Numeral.value acc cs < 2 ^ 64) :
    leading acc cs = (Pipewright.Numeral.value acc cs, []) := by
  induction cs generalizing acc with
  | nil => rfl
  | cons c cs ih =>
    have hle := Pipewright.Numeral.le_value (10 * acc + (c.toNat - '0'.toNat)) cs
    change Pipewright.Numeral.value (10 * acc + (c.toNat - '0'.toNat)) cs < _ at h
    rw [leading, if_pos (Nat.lt_of_le_of_lt hle h), ih h]
    rfl

theorem isCanonical_of_real? {n : Numeral} {x : Binary64} (h : n.real? = some x) :
    ∃ m : Magnitude, x = .finite n.negative m ∧ m.IsCanonical := by
  obtain ⟨m, hm, h⟩ := Option.bind_eq_some_iff.mp h
  exact ⟨m, (Option.some.inj h).symm, isCanonical_of_assemble hm⟩

/-- A numeral that stands for a number safely below the limit is read as a real number. -/
theorem exists_real? {n : Numeral} (hn : n.IsWritten) (hshort : n.whole.length ≤ 16)
    (h : n.amount < safeLimit) : ∃ x, n.real? = some x := by
  have hwhole : Pipewright.Numeral.value 0 n.whole < 2 ^ 64 :=
    calc Pipewright.Numeral.value 0 n.whole < (0 + 1) * 10 ^ n.whole.length :=
          Pipewright.Numeral.value_lt hn.whole.digits 0
      _ ≤ (0 + 1) * 10 ^ 16 := Nat.mul_le_mul_left _ (Nat.pow_le_pow_right (by decide) hshort)
      _ ≤ 2 ^ 64 := by decide
  obtain ⟨front, hsplit, hvalue, hbound⟩ :=
    leading_spec (Pipewright.Numeral.value 0 n.whole) (n.fraction.getD [])
  have hbound := hbound hwhole
  rw [real?, leading_eq hwhole]
  dsimp only
  generalize leading (Pipewright.Numeral.value 0 n.whole) (n.fraction.getD [])
    = read at hsplit hvalue hbound
  obtain ⟨digits, back⟩ := read
  dsimp only at hsplit hvalue hbound ⊢
  have hamount : (digits : ℚ) * 10 ^ (n.powerValue - front.length) ≤ n.amount := by
    have hmore := Pipewright.Numeral.mul_le_value digits back
    have hmore' : (digits : ℚ) * 10 ^ back.length ≤ Pipewright.Numeral.value digits back := by
      exact_mod_cast hmore
    have hdigits : Pipewright.Numeral.value 0 (n.whole ++ n.fraction.getD [])
        = Pipewright.Numeral.value digits back := by
      rw [hsplit, Pipewright.Numeral.value_append, Pipewright.Numeral.value_append, hvalue]
    have hpower : n.powerValue - front.length
        = (back.length : Int) + (n.powerValue - (n.fraction.getD []).length) := by
      rw [hsplit, List.length_append]
      push_cast
      ring
    rw [amount, hdigits, hpower, zpow_add₀ (by norm_num), zpow_natCast, ← mul_assoc]
    exact mul_le_mul_of_nonneg_right hmore' (zpow_pos (by norm_num) _).le
  have hread : (([] : List Char).length : Int) - ((n.fraction.getD []).length - back.length : Nat)
      + n.powerValue = n.powerValue - front.length := by
    rw [hsplit, List.length_append, Nat.add_sub_cancel, List.length_nil]
    push_cast
    ring
  obtain ⟨x, hx⟩ := exists_assemble hbound (lt_of_le_of_lt hamount h)
  rw [hread, hx]
  exact ⟨_, rfl⟩

end Json.Numeral

/-! ## Real numbers read back -/

/-- But for the three largest magnitudes, the shortest digits stand for a number safely below the
limit. -/
theorem value_shortest_lt {m : Magnitude} (hm : m.IsCanonical)
    (hsmall : m.exponent < 971 ∨ m.mantissa + 4 ≤ 2 ^ 53) :
    (Decimal.shortest .toEven m).value < Magnitude.safeLimit := by
  have hback := Decimal.readsBack_shortest .toEven hm
  rw [Decimal.readsBack, beq_iff_eq] at hback
  have hnear := roundRatio_near (Nat.pow_pos (by decide)) hback
  rw [Decimal.ratio_eq_value] at hnear
  refine lt_of_le_of_lt hnear ?_
  have hsum : m.value + 2 ^ m.exponent / 2 = (m.mantissa + 1 / 2) * 2 ^ m.exponent := by
    rw [Magnitude.value]
    ring
  have htwice : (2 : ℚ) ^ (971 : Int) = 2 * 2 ^ (970 : Int) := zpow_one_add₀ (by norm_num) 970
  have hpos := two_zpow_pos 970
  rw [hsum, Magnitude.safeLimit]
  rcases hsmall with hexponent | hmantissa
  · have hbelow : (m.mantissa : ℚ) + 1 ≤ 2 ^ 53 := by exact_mod_cast hm.below
    have hpow := two_zpow_le (show m.exponent ≤ 970 by omega)
    have hle : (m.mantissa + 1 / 2) * (2 : ℚ) ^ m.exponent ≤ 2 ^ 53 * 2 ^ (970 : Int) :=
      mul_le_mul (by linarith) hpow (two_zpow_pos _).le (by norm_num)
    rw [htwice]
    generalize (2 : ℚ) ^ (970 : Int) = u at hpos hle
    linarith
  · have hbelow : (m.mantissa : ℚ) + 4 ≤ 2 ^ 53 := by exact_mod_cast hmantissa
    have hpow := two_zpow_le hm.exponent.2
    have hle : (m.mantissa + 1 / 2) * (2 : ℚ) ^ m.exponent ≤ (2 ^ 53 - 7 / 2) * 2 ^ (971 : Int) :=
      mul_le_mul (by linarith) hpow (two_zpow_pos _).le (by norm_num)
    rw [htwice] at hle ⊢
    generalize (2 : ℚ) ^ (970 : Int) = u at hpos hle
    linarith

namespace Json

theorem isSome_largest : ∀ negative : Bool, ∀ k ∈ [1, 2, 3],
    (ofDocument? 1 (realDocument (.finite negative ⟨2 ^ 53 - k, 971⟩))).isSome := by
  decide +kernel

/-- What is written for a real number is a number to whoever reads it. -/
theorem exists_ofDocument?_real (negative : Bool) {m : Magnitude} (hm : m.IsCanonical)
    (depth : Nat) :
    ∃ v, ofDocument? depth (realDocument (.finite negative m)) = some v := by
  obtain ⟨n, rfl, hspells, hrender⟩ := exists_render negative m
  have hdocument := realDocument_eq hspells.written hrender
  by_cases hsmall : m.exponent < 971 ∨ m.mantissa + 4 ≤ 2 ^ 53
  · obtain ⟨x, hx⟩ := Numeral.exists_real? hspells.written hspells.short
      (hspells.amount ▸ value_shortest_lt hm hsmall)
    rw [hdocument, ofDocument?, Numeral.value?, hx]
    cases n.whole? with
    | none => exact ⟨_, rfl⟩
    | some i => exact ⟨_, rfl⟩
  · obtain ⟨hexponent, hmantissa⟩ := not_or.mp hsmall
    have hlast : 2 ^ 53 - m.mantissa ∈ [1, 2, 3] := by
      have hbelow := hm.below
      simp only [List.mem_cons, List.not_mem_nil, or_false]
      omega
    have hmagnitude : (⟨2 ^ 53 - (2 ^ 53 - m.mantissa), 971⟩ : Magnitude) = m := by
      obtain ⟨mantissa, exponent⟩ := m
      have hbelow := hm.below
      have hmost := hm.exponent.2
      simp only [Magnitude.mk.injEq]
      dsimp only at hexponent hbelow hmost
      omega
    have hread := isSome_largest n.negative _ hlast
    rw [hmagnitude, hdocument] at hread
    rw [hdocument]
    exact Option.isSome_iff_exists.mp hread

end Json

end Pipewright
