import AriParti.L1Arith.Root

/-!
# The interval manager of the partitioner

The operations above as the `IntervalManager` that propagation is modelled
with: what it assumes of the interval operations holds of those in the source.

A propagator chains operations, and the interval between two of them is
mutable; reading it as two bounds and showing these to the next operation as a
constant interval changes nothing (`intervalManager_faithful`).

## Results

* `intervalManager`: every enclosure `IntervalManager` asks for.
* `intervalManager_exact`: what each operation returns, to the value.
-/
namespace AriParti.L1

open AriParti.Core Set Pointwise MutableInterval

/-- The values of an interval. -/
def Interval.values (i : Interval) : Set ℝ := {v | i.Mem v}

@[simp] theorem Interval.mem_values {i : Interval} {v : ℝ} : v ∈ i.values ↔ i.Mem v := Iff.rfl

@[simp] theorem ofInterval_values (i : Interval) : (ofInterval i).values = i.values := by
  ext v
  exact mem_ofInterval

@[simp] theorem toInterval_values (i : MutableInterval) : i.toInterval.values = i.values := by
  ext v
  exact mem_toInterval

theorem ofInterval_containsZero (i : Interval) : (ofInterval i).containsZero = i.containsZero := by
  obtain ⟨l, u⟩ := i
  cases l <;> cases u <;> simp [MutableInterval.containsZero, Interval.containsZero, ofInterval,
    lowerIsNeg, lowerIsZero, upperIsPos, upperIsZero, lowerKind, upperKind, Ext.isNeg, Ext.isPos,
    Ext.isZero]

/-- mirrors subpaving_t_def.h:382-386 -/
def nthRootPrec (prec : Nat) : ℚ := 1 / (if prec = 0 then 1 else prec : Nat)

theorem nthRootPrec_pos (prec : Nat) : 0 < nthRootPrec prec := by
  unfold nthRootPrec
  split
  · norm_num
  · positivity

/-- `prec` is the parameter `nth_root_precision`. Degrees are positive, so
nothing is said of the power 0. -/
def intervalManager (prec : Nat) : IntervalManager where
  scale a i := (divMul a (ofInterval i) false).toInterval
  add i j := (add (ofInterval i) (ofInterval j)).toInterval
  sub i j := (sub (ofInterval i) (ofInterval j)).toInterval
  mul i j := (mul (ofInterval i) (ofInterval j)).toInterval
  div i j := (div (ofInterval i) (ofInterval j)).toInterval
  unscale i a := (divMul a (ofInterval i) true).toInterval
  power i k := if k = 0 then .whole else (power (ofInterval i) k).toInterval
  xnEqY i k := (xnEqY (ofInterval i) k (nthRootPrec prec)).toInterval
  scale_mem a i v hv := by
    by_cases ha : a = 0
    · subst ha
      exact .whole _
    · have ha' : (a : ℝ) ≠ 0 := Rat.cast_ne_zero.mpr ha
      rw [mem_toInterval, mem_divMul ha, ofInterval_values]
      simpa [factor, ha'] using hv
  add_mem i j v w hv hw := by
    rw [mem_toInterval, add_values ⟨v, mem_ofInterval.mpr hv⟩ ⟨w, mem_ofInterval.mpr hw⟩]
    exact add_mem_add (mem_ofInterval.mpr hv) (mem_ofInterval.mpr hw)
  sub_mem i j v w hv hw := by
    rw [mem_toInterval, sub_values ⟨v, mem_ofInterval.mpr hv⟩ ⟨w, mem_ofInterval.mpr hw⟩]
    exact sub_mem_sub (mem_ofInterval.mpr hv) (mem_ofInterval.mpr hw)
  mul_mem i j v w hv hw := by
    rw [mem_toInterval, mul_values ⟨v, mem_ofInterval.mpr hv⟩ ⟨w, mem_ofInterval.mpr hw⟩]
    exact mul_mem_mul (mem_ofInterval.mpr hv) (mem_ofInterval.mpr hw)
  div_mem i j v w hv hw hz := by
    rw [mem_toInterval, div_values ⟨v, mem_ofInterval.mpr hv⟩ ⟨w, mem_ofInterval.mpr hw⟩
      (ofInterval_settled j) ((ofInterval_containsZero j).trans hz), div_eq_mul_inv]
    exact mul_mem_mul (mem_ofInterval.mpr hv) (inv_mem_inv.mpr (mem_ofInterval.mpr hw))
  unscale_mem i a v ha hv := by
    have ha' : (a : ℝ) ≠ 0 := Rat.cast_ne_zero.mpr ha
    rw [mem_toInterval, mem_divMul ha, ofInterval_values]
    simpa [factor, ha', mul_div_cancel₀] using hv
  power_mem i v k hv := by
    by_cases hk : k = 0
    · rw [if_pos hk]
      exact .whole _
    · rw [if_neg hk, mem_toInterval, mem_power hk ⟨v, mem_ofInterval.mpr hv⟩]
      exact .inl ⟨v, mem_ofInterval.mpr hv, rfl⟩
  xnEqY_mem i v k hk _ hv := mem_toInterval.mpr
    (MutableInterval.xnEqY_mem hk (nthRootPrec_pos prec) (mem_ofInterval.mpr hv))

/-- The manager with the default of `nth_root_precision`. -/
def defaultManager : IntervalManager := intervalManager 8192

/-! ## Exactness -/

variable {prec : Nat} {i j : Interval}

theorem intervalManager_add (hi : i.values.Nonempty) (hj : j.values.Nonempty) :
    ((intervalManager prec).add i j).values = i.values + j.values := by
  rw [← ofInterval_values i, ← ofInterval_values j] at *
  exact (toInterval_values _).trans (add_values hi hj)

theorem intervalManager_sub (hi : i.values.Nonempty) (hj : j.values.Nonempty) :
    ((intervalManager prec).sub i j).values = i.values - j.values := by
  rw [← ofInterval_values i, ← ofInterval_values j] at *
  exact (toInterval_values _).trans (sub_values hi hj)

theorem intervalManager_mul (hi : i.values.Nonempty) (hj : j.values.Nonempty) :
    ((intervalManager prec).mul i j).values = i.values * j.values := by
  rw [← ofInterval_values i, ← ofInterval_values j] at *
  exact (toInterval_values _).trans (mul_values hi hj)

theorem intervalManager_div (hi : i.values.Nonempty) (hj : j.values.Nonempty)
    (hz : j.containsZero = false) :
    ((intervalManager prec).div i j).values = i.values * j.values⁻¹ := by
  have hs := ofInterval_settled j
  have hz' := (ofInterval_containsZero j).trans hz
  rw [← ofInterval_values i, ← ofInterval_values j] at *
  exact (toInterval_values _).trans (div_values hi hj hs hz')

theorem intervalManager_scale {a : ℚ} (ha : a ≠ 0) {v : ℝ} :
    v ∈ ((intervalManager prec).scale a i).values ↔ ∃ w ∈ i.values, v = a * w := by
  have ha' : (a : ℝ) ≠ 0 := Rat.cast_ne_zero.mpr ha
  have h : v ∈ ((intervalManager prec).scale a i).values ↔ (a : ℝ)⁻¹ * v ∈ i.values := by
    rw [← ofInterval_values i]
    exact mem_toInterval.trans (mem_divMul ha false)
  rw [h]
  constructor
  · intro h
    exact ⟨_, h, (mul_inv_cancel_left₀ ha' v).symm⟩
  · rintro ⟨w, hw, rfl⟩
    rwa [inv_mul_cancel_left₀ ha']

theorem intervalManager_unscale {a : ℚ} (ha : a ≠ 0) {v : ℝ} :
    v ∈ ((intervalManager prec).unscale i a).values ↔ a * v ∈ i.values := by
  have h := mem_divMul (i := ofInterval i) ha true (v := v)
  simp only [factor, if_true, Rat.cast_inv, inv_inv, ofInterval_values] at h
  exact mem_toInterval.trans h

theorem intervalManager_power {k : Nat} (hk : k ≠ 0) (hi : i.values.Nonempty) {v : ℝ} :
    v ∈ ((intervalManager prec).power i k).values ↔ (∃ x ∈ i.values, x ^ k = v) ∨
      v = 0 ∧ k % 2 = 0 ∧ (i.lower.map Bound.val = some 0 ∨ i.upper.map Bound.val = some 0) := by
  have e : (intervalManager prec).power i k = (power (ofInterval i) k).toInterval := if_neg hk
  have h := mem_power (i := ofInterval i) hk (by rwa [ofInterval_values]) (v := v)
  rw [ofInterval_values] at h
  rw [e]
  exact mem_toInterval.trans h

/-- The operations of `interval_manager` return exactly the values of sums,
differences, products, quotients and multiples of what they are given, open
and infinite ends included. A power is exact but for the value 0, which an
even one has where the interval ends there. -/
theorem intervalManager_exact (hi : i.values.Nonempty) (hj : j.values.Nonempty) {a : ℚ}
    (ha : a ≠ 0) {k : Nat} (hk : k ≠ 0) :
    ((intervalManager prec).add i j).values = i.values + j.values ∧
      ((intervalManager prec).sub i j).values = i.values - j.values ∧
      ((intervalManager prec).mul i j).values = i.values * j.values ∧
      (j.containsZero = false →
        ((intervalManager prec).div i j).values = i.values / j.values) ∧
      ((intervalManager prec).scale a i).values = (fun v => (a : ℝ) * v) '' i.values ∧
      ((intervalManager prec).unscale i a).values = (fun v => v / (a : ℝ)) '' i.values ∧
      ((intervalManager prec).power i k).values = (fun v => v ^ k) '' i.values ∪
        {v | v = 0 ∧ k % 2 = 0 ∧
          (i.lower.map Bound.val = some 0 ∨ i.upper.map Bound.val = some 0)} := by
  have ha' : (a : ℝ) ≠ 0 := Rat.cast_ne_zero.mpr ha
  refine ⟨intervalManager_add hi hj, intervalManager_sub hi hj, intervalManager_mul hi hj, ?_, ?_,
    ?_, ?_⟩
  · intro hz
    rw [intervalManager_div hi hj hz, div_eq_mul_inv]
  · ext v
    rw [intervalManager_scale ha]
    exact exists_congr fun w => and_congr_right fun _ => eq_comm
  · ext v
    rw [intervalManager_unscale ha]
    constructor
    · intro h
      exact ⟨a * v, h, mul_div_cancel_left₀ v ha'⟩
    · intro h
      obtain ⟨w, hw, rfl⟩ := h
      rwa [mul_div_cancel₀ w ha']
  · ext v
    exact intervalManager_power hk hi

/-- Between 1 and 2, and between -3 and -1. -/
theorem intervalManager_exact_mixed : let m := intervalManager 8192
    let i : Interval := ⟨some ⟨1, false⟩, some ⟨2, true⟩⟩
    let j : Interval := ⟨some ⟨-3, true⟩, some ⟨-1, false⟩⟩
    (m.add i j).values = i.values + j.values ∧ (m.sub i j).values = i.values - j.values ∧
      (m.mul i j).values = i.values * j.values ∧
      (j.containsZero = false → (m.div i j).values = i.values / j.values) ∧
      (m.scale (-2) i).values = (fun v => ((-2 : ℚ) : ℝ) * v) '' i.values ∧
      (m.unscale i (-2)).values = (fun v => v / ((-2 : ℚ) : ℝ)) '' i.values ∧
      (m.power i 2).values = (fun v => v ^ 2) '' i.values ∪ {v | v = 0 ∧ 2 % 2 = 0 ∧
        (i.lower.map Bound.val = some 0 ∨ i.upper.map Bound.val = some 0)} := by
  refine intervalManager_exact ⟨1, ?_⟩ ⟨-1, ?_⟩ (by norm_num) (by decide)
  · constructor <;> simp [Bound.allowsAbove, Bound.allowsBelow]
  · constructor <;> simp [Bound.allowsAbove, Bound.allowsBelow]

/-- Between two operations, a mutable interval can be read as two bounds. -/
theorem intervalManager_faithful (i j : Interval) (a : ℚ) (k : Nat) :
    ofInterval ((intervalManager prec).scale a i) = divMul a (ofInterval i) false ∧
      ofInterval ((intervalManager prec).unscale i a) = divMul a (ofInterval i) true ∧
      ofInterval ((intervalManager prec).add i j) = add (ofInterval i) (ofInterval j) ∧
      ofInterval ((intervalManager prec).sub i j) = sub (ofInterval i) (ofInterval j) ∧
      ofInterval ((intervalManager prec).mul i j) = mul (ofInterval i) (ofInterval j) ∧
      (j.containsZero = false →
        ofInterval ((intervalManager prec).div i j) = div (ofInterval i) (ofInterval j)) ∧
      (k ≠ 0 → ofInterval ((intervalManager prec).power i k) = power (ofInterval i) k) ∧
      ofInterval ((intervalManager prec).xnEqY i k) =
        xnEqY (ofInterval i) k (nthRootPrec prec) := by
  have hi := ofInterval_settled i
  have hj := ofInterval_settled j
  refine ⟨ofInterval_toInterval (divMul_settled hi a false),
    ofInterval_toInterval (divMul_settled hi a true), ofInterval_toInterval (add_settled hi hj),
    ofInterval_toInterval (sub_settled hi hj), ofInterval_toInterval (mul_settled hi hj), ?_, ?_,
    ofInterval_toInterval (xnEqY_settled hi)⟩
  · intro hz
    exact ofInterval_toInterval (div_settled hi ((ofInterval_containsZero j).trans hz))
  · intro hk
    exact (congrArg ofInterval (if_neg hk)).trans (ofInterval_toInterval (power_settled hi k))

end AriParti.L1
