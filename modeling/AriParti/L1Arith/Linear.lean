import AriParti.L1Arith.Interval

/-!
# Sums and multiples of intervals

`add`, `sub` and the multiplication and division by a number (`div_mul`) of
`interval_manager`. They are exact: the result holds the sums, differences and
multiples of the values and nothing else, open and infinite ends included.

## Results

* `add_values`, `sub_values`: on nonempty intervals.
* `mem_divMul`: the multiples by a number other than zero.
* `add_settled`, `sub_settled`, `divMul_settled`: infinite ends are flagged open.
-/
namespace AriParti.L1

open AriParti.Core Set Pointwise

namespace Ext

/-- mirrors ext_numeral.h:69-83 -/
def neg : Ext → Ext
  | minusInf => plusInf
  | num a => num (-a)
  | plusInf => minusInf

@[simp] theorem neg_neg (a : Ext) : a.neg.neg = a := by cases a <;> simp [neg]

theorem neg_upperEnd (a : Ext) (o : Bool) : a.neg.upperEnd o = (a.lowerEnd o).neg := by
  cases a <;> simp [neg, upperEnd, lowerEnd, End.neg]

theorem neg_lowerEnd (a : Ext) (o : Bool) : a.neg.lowerEnd o = (a.upperEnd o).neg := by
  cases a <;> simp [neg, upperEnd, lowerEnd, End.neg]

theorem neg_isPos (a : Ext) : a.neg.isPos = a.isNeg := by
  cases a <;> simp [neg, isPos, isNeg]

@[simp] theorem neg_isZero (a : Ext) : a.neg.isZero = a.isZero := by
  cases a <;> simp [neg, isZero]

@[simp] theorem neg_isInfinite (a : Ext) : a.neg.isInfinite = a.isInfinite := by
  cases a <;> rfl

@[simp] theorem neg_val (a : Ext) : a.neg.val = -a.val := by
  cases a <;> simp [neg, val]

theorem neg_isPos_eq_not {a : Ext} (h : a.isZero = false) : a.neg.isPos = !a.isPos := by
  cases a with
  | minusInf => rfl
  | plusInf => rfl
  | num a =>
    have h0 : a ≠ 0 := by simpa [isZero] using h
    rcases lt_or_gt_of_ne h0 with h1 | h1 <;> simp [neg, isPos, h1, h1.le]

theorem neg_beq (a b : Ext) : (a.neg == b.neg) = (a == b) := by
  rw [Bool.eq_iff_iff, beq_iff_eq, beq_iff_eq]
  exact ⟨fun h => by rw [← neg_neg a, h, neg_neg], fun h => h ▸ rfl⟩

theorem neg_gt (a b : Ext) : a.neg.gt b.neg = a.lt b := by
  cases a <;> cases b <;> simp [gt, lt, neg]

@[simp] theorem mul_num (a b : ℚ) : mul (num a) (num b) = num (a * b) := by
  by_cases h : a = 0 ∨ b = 0
  · rcases h with rfl | rfl <;> simp [mul, isZero]
  · simp [mul, isZero, isInfinite, val, h]

theorem mul_comm (a b : Ext) : mul a b = mul b a := by
  simp only [mul, Bool.or_comm a.isZero, Bool.or_comm a.isInfinite, Rat.mul_comm a.val,
    Bool.beq_comm (a := a.isPos)]

/-- The sign rule, infinities included. -/
theorem neg_mul (a b : Ext) : mul a.neg b = (mul a b).neg := by
  simp only [mul, neg_isZero, neg_isInfinite, neg_val]
  split
  · simp [neg]
  · next h =>
    have ha : a.isZero = false := by simp_all
    split
    · rw [neg_isPos_eq_not ha]
      cases a.isPos <;> cases b.isPos <;> rfl
    · simp [neg]

theorem mul_neg (a b : Ext) : mul a b.neg = (mul a b).neg := by
  rw [mul_comm, neg_mul, mul_comm]

/-- The far ends of two intervals that go beyond zero. -/
theorem mul_upperEnd {a b : Ext} (ha : a.isPos = true) (hb : b.isPos = true) (o o' : Bool) :
    (mul a b).upperEnd (o || o') = (a.upperEnd o).mul (b.upperEnd o') := by
  cases a with
  | minusInf => cases ha
  | plusInf =>
    cases b with
    | minusInf => cases hb
    | plusInf => rfl
    | num b =>
      have h0 : b ≠ 0 := ne_of_gt (by simpa [isPos] using hb)
      simp [mul, isZero, isInfinite, h0, hb, show plusInf.isPos = true from rfl, upperEnd, End.mul]
  | num a =>
    have h0 : a ≠ 0 := ne_of_gt (by simpa [isPos] using ha)
    cases b with
    | minusInf => cases hb
    | plusInf =>
      simp [mul, isZero, isInfinite, h0, ha, show plusInf.isPos = true from rfl, upperEnd, End.mul]
    | num b => simp [upperEnd, End.mul]

theorem mul_isPos {a b : Ext} (ha : a.isPos = true) (hb : b.isPos = true) :
    (mul a b).isPos = true := by
  have ne : ∀ {e : Ext}, e.isPos = true → e.isZero = false := by
    intro e he
    cases e with
    | num q => simpa [isZero] using ne_of_gt (by simpa [isPos] using he : (0 : ℚ) < q)
    | _ => rfl
  unfold mul
  rw [ne ha, ne hb, ha, hb]
  cases a with
  | num a =>
    cases b with
    | num b => simpa [isInfinite, isPos, val] using
        mul_pos (by simpa [isPos] using ha : (0 : ℚ) < a) (by simpa [isPos] using hb)
    | _ => rfl
  | _ => cases b <;> rfl

theorem ne_minusInf {a : Ext} (h : a.isPos = true) : a ≠ minusInf := by
  rintro rfl
  cases h

theorem ne_plusInf {a : Ext} (h : a.isNeg = true) : a ≠ plusInf := by
  rintro rfl
  cases h

theorem mul_isNeg {a b : Ext} (ha : a.isNeg = true) (hb : b.isPos = true) :
    (mul a b).isNeg = true := by
  rw [← neg_isPos, ← neg_mul]
  exact mul_isPos ((neg_isPos a).trans ha) hb

theorem mul_neg_neg_isPos {a b : Ext} (ha : a.isNeg = true) (hb : b.isNeg = true) :
    (mul a b).isPos = true := by
  rw [← neg_neg (mul a b), ← neg_mul, ← mul_neg]
  exact mul_isPos ((neg_isPos a).trans ha) ((neg_isPos b).trans hb)

theorem upperEnd_pos {a : Ext} (ha : a.isPos = true) (o : Bool) : (a.upperEnd o).Pos := by
  cases a with
  | minusInf => cases ha
  | plusInf => trivial
  | num a =>
    have h0 : 0 < a := by simpa [isPos] using ha
    exact Rat.cast_pos.mpr h0

end Ext

namespace MutableInterval

/-- mirrors interval_def.h:806-817 -/
def add (i j : MutableInterval) : MutableInterval :=
  of (i.lowerKind.add j.lowerKind) (i.lowerOpen || j.lowerOpen)
    (i.upperKind.add j.upperKind) (i.upperOpen || j.upperOpen)

/-- mirrors interval_def.h:832-843 -/
def sub (i j : MutableInterval) : MutableInterval :=
  of (i.lowerKind.sub j.upperKind) (i.lowerOpen || j.upperOpen)
    (i.upperKind.sub j.lowerKind) (i.upperOpen || j.lowerOpen)

/-- The number `div_mul` multiplies by, `k` or `m_inv_k`. -/
def factor (k : ℚ) (invK : Bool) : ℚ := if invK then k⁻¹ else k

/-- mirrors interval_def.h:862-917 -/
def divMul (k : ℚ) (i : MutableInterval) (invK : Bool) : MutableInterval :=
  if k == 0 then reset
  else
    let k' := Ext.num (factor k invK)
    if 0 < k then of (i.lowerKind.mul k') i.lowerOpen (i.upperKind.mul k') i.upperOpen
    else of (i.upperKind.mul k') i.upperOpen (i.lowerKind.mul k') i.lowerOpen

variable {i j : MutableInterval}

/-- The ends of the kinds an operation stores. -/
theorem of_settled {l u : Ext} {lo uo : Bool} (hl : l.isInfinite = true → lo = true)
    (hu : u.isInfinite = true → uo = true) : (of l lo u uo).Settled := by
  constructor
  · intro h
    cases l with
    | minusInf => exact hl rfl
    | num a => simp [of] at h
    | plusInf => simp [of] at h
  · intro h
    cases u with
    | minusInf => simp [of] at h
    | num a => simp [of] at h
    | plusInf => exact hu rfl

theorem Settled.lowerOpen (h : i.Settled) (hl : i.lowerKind.isInfinite = true) :
    i.lowerOpen = true := by
  cases hi : i.lower with
  | none => exact h.lower hi
  | some a => simp [lowerKind, hi, Ext.isInfinite] at hl

theorem Settled.upperOpen (h : i.Settled) (hu : i.upperKind.isInfinite = true) :
    i.upperOpen = true := by
  cases hi : i.upper with
  | none => exact h.upper hi
  | some a => simp [upperKind, hi, Ext.isInfinite] at hu

theorem reset_settled : reset.Settled := ⟨fun _ => rfl, fun _ => rfl⟩

theorem add_lowerEnd (i j : MutableInterval) :
    (add i j).lowerEnd = i.lowerEnd.add j.lowerEnd := by
  rw [add, of_lowerEnd]
  cases hi : i.lower <;> cases hj : j.lower <;>
    simp [lowerEnd, lowerKind, hi, hj, Ext.add, Ext.lowerEnd, End.add]

theorem add_upperEnd (i j : MutableInterval) :
    (add i j).upperEnd = i.upperEnd.add j.upperEnd := by
  rw [add, of_upperEnd]
  cases hi : i.upper <;> cases hj : j.upper <;>
    simp [upperEnd, upperKind, hi, hj, Ext.add, Ext.upperEnd, End.add]

theorem add_values (hi : i.values.Nonempty) (hj : j.values.Nonempty) :
    (add i j).values = i.values + j.values :=
  values_eq (ordConnected_add ordConnected ordConnected)
    (add_lowerEnd i j ▸ (startsAt hi).add (startsAt hj))
    (add_upperEnd i j ▸ (endsAt hi).add (endsAt hj))

theorem sub_lowerEnd (i j : MutableInterval) :
    (sub i j).lowerEnd = i.lowerEnd.add j.upperEnd.neg := by
  rw [sub, of_lowerEnd]
  cases hi : i.lower <;> cases hj : j.upper <;>
    simp [lowerEnd, upperEnd, lowerKind, upperKind, hi, hj, Ext.sub, Ext.lowerEnd, Ext.upperEnd,
      End.add, End.neg, sub_eq_add_neg]

theorem sub_upperEnd (i j : MutableInterval) :
    (sub i j).upperEnd = i.upperEnd.add j.lowerEnd.neg := by
  rw [sub, of_upperEnd]
  cases hi : i.upper <;> cases hj : j.lower <;>
    simp [lowerEnd, upperEnd, lowerKind, upperKind, hi, hj, Ext.sub, Ext.lowerEnd, Ext.upperEnd,
      End.add, End.neg, sub_eq_add_neg]

theorem sub_values (hi : i.values.Nonempty) (hj : j.values.Nonempty) :
    (sub i j).values = i.values - j.values := by
  rw [sub_eq_add_neg]
  exact values_eq (ordConnected_add ordConnected (ordConnected_neg ordConnected))
    (sub_lowerEnd i j ▸ (startsAt hi).add (endsAt hj).neg)
    (sub_upperEnd i j ▸ (endsAt hi).add (startsAt hj).neg)

theorem add_settled (hi : i.Settled) (hj : j.Settled) : (add i j).Settled := by
  apply of_settled <;> intro h
  · cases hl : i.lower with
    | none => simp [hi.lower hl]
    | some a =>
      cases hl' : j.lower with
      | none => simp [hj.lower hl']
      | some b => simp [lowerKind, hl, hl', Ext.add, Ext.isInfinite] at h
  · cases hl : i.upper with
    | none => simp [hi.upper hl]
    | some a =>
      cases hl' : j.upper with
      | none => simp [hj.upper hl']
      | some b => simp [upperKind, hl, hl', Ext.add, Ext.isInfinite] at h

theorem sub_settled (hi : i.Settled) (hj : j.Settled) : (sub i j).Settled := by
  apply of_settled <;> intro h
  · cases hl : i.lower with
    | none => simp [hi.lower hl]
    | some a =>
      cases hl' : j.upper with
      | none => simp [hj.upper hl']
      | some b => simp [lowerKind, upperKind, hl, hl', Ext.sub, Ext.isInfinite] at h
  · cases hl : i.upper with
    | none => simp [hi.upper hl]
    | some a =>
      cases hl' : j.lower with
      | none => simp [hj.lower hl']
      | some b => simp [lowerKind, upperKind, hl, hl', Ext.sub, Ext.isInfinite] at h

/-! ### Multiples -/

theorem lowerEnd_mul_num {l : Ext} {k : ℚ} {o : Bool} {v : ℝ} (hl : l ≠ .plusInf) (hk : 0 < k) :
    ((l.mul (.num k)).lowerEnd o).Above v ↔ (l.lowerEnd o).Above ((k : ℝ)⁻¹ * v) := by
  have hk' : (0 : ℝ) < k := Rat.cast_pos.mpr hk
  cases l with
  | plusInf => exact absurd rfl hl
  | minusInf =>
    simp [Ext.mul, Ext.isZero, Ext.isInfinite, Ext.isPos, hk, hk.ne', Ext.lowerEnd]
  | num a =>
    rw [Ext.mul_num]
    cases o <;> simp [Ext.lowerEnd, mul_comm (k : ℝ)⁻¹ v, ← div_eq_mul_inv, le_div_iff₀ hk',
      lt_div_iff₀ hk']

theorem upperEnd_mul_num {u : Ext} {k : ℚ} {o : Bool} {v : ℝ} (hu : u ≠ .minusInf) (hk : 0 < k) :
    ((u.mul (.num k)).upperEnd o).Below v ↔ (u.upperEnd o).Below ((k : ℝ)⁻¹ * v) := by
  have h := lowerEnd_mul_num (l := u.neg) (o := o) (v := -v) (by cases u <;> simp_all [Ext.neg]) hk
  rwa [Ext.neg_mul, Ext.neg_lowerEnd, Ext.neg_lowerEnd, End.neg_above, mul_neg, End.neg_above] at h

theorem lowerKind_ne (i : MutableInterval) : i.lowerKind ≠ .plusInf := by
  cases h : i.lower <;> simp [lowerKind, h]

theorem upperKind_ne (i : MutableInterval) : i.upperKind ≠ .minusInf := by
  cases h : i.upper <;> simp [upperKind, h]

theorem factor_pos {k : ℚ} (invK : Bool) (hk : 0 < k) : 0 < factor k invK := by
  cases invK with
  | false => exact hk
  | true => exact inv_pos.mpr hk

theorem factor_neg (k : ℚ) (invK : Bool) : factor (-k) invK = -factor k invK := by
  cases invK with
  | false => rfl
  | true => exact inv_neg

/-- What multiplication or division by a number holds: the multiples. -/
theorem mem_divMul {k : ℚ} (hk : k ≠ 0) (invK : Bool) {v : ℝ} :
    v ∈ (divMul k i invK).values ↔ ((factor k invK : ℚ) : ℝ)⁻¹ * v ∈ i.values := by
  have hk' : (k == 0) = false := by simpa using hk
  simp only [divMul, hk', Bool.false_eq_true, if_false]
  rcases lt_or_gt_of_ne hk with h | h
  · -- a negative number exchanges the ends
    have hf := factor_pos invK (neg_pos.mpr h)
    have e : Ext.num (factor k invK) = (Ext.num (factor (-k) invK)).neg := by
      simp [Ext.neg, factor_neg]
    have e' : ((factor k invK : ℚ) : ℝ)⁻¹ * v = ((factor (-k) invK : ℚ) : ℝ)⁻¹ * -v := by
      rw [factor_neg, Rat.cast_neg, inv_neg, neg_mul_neg]
    rw [if_neg h.not_gt, e, e', Ext.mul_neg, Ext.mul_neg]
    simp only [values, mem_ofPred_eq, of_lowerEnd, of_upperEnd, Ext.neg_lowerEnd, Ext.neg_upperEnd,
      End.above_neg, End.below_neg, lowerEnd_mul_num i.lowerKind_ne hf,
      upperEnd_mul_num i.upperKind_ne hf]
    exact and_comm
  · have hf := factor_pos invK h
    rw [if_pos h]
    simp only [values, mem_ofPred_eq, of_lowerEnd, of_upperEnd,
      lowerEnd_mul_num i.lowerKind_ne hf, upperEnd_mul_num i.upperKind_ne hf]
    rfl

/-- The flag for open of a product of ends. -/
theorem mul_open {a b : Ext} {o o' : Bool} (ha : a.isInfinite = true → o = true)
    (hb : b.isInfinite = true → o' = true) (h : (a.mul b).isInfinite = true) :
    (o || o') = true := by
  cases a with
  | num a =>
    cases b with
    | num b => simp [Ext.isInfinite] at h
    | _ => rw [hb rfl, Bool.or_true]
  | _ => rw [ha rfl, Bool.true_or]

theorem divMul_settled (hi : i.Settled) (k : ℚ) (invK : Bool) : (divMul k i invK).Settled := by
  have inf : ∀ {a : Ext} {q : ℚ}, (a.mul (.num q)).isInfinite = true → a.isInfinite = true := by
    intro a q h
    cases a with
    | num a => simp [Ext.isInfinite] at h
    | _ => rfl
  simp only [divMul]
  split
  · exact reset_settled
  · split
    · exact of_settled (fun h => hi.lowerOpen (inf h)) fun h => hi.upperOpen (inf h)
    · exact of_settled (fun h => hi.upperOpen (inf h)) fun h => hi.lowerOpen (inf h)

end MutableInterval

end AriParti.L1
