import AriParti.L1Arith.Product

/-!
# Quotients of intervals

`div` of `interval_manager`, for a divisor without zero. The reciprocals of
such a divisor are an interval with a far end, next to which the divisor comes
close to zero, and a near one, so the ends of a quotient are those of a
product. Division is where the flag for open of an infinite end is read.

## Results

* `div_values`: the values of a quotient.
* `div_settled`: infinite ends are flagged open.
-/
namespace AriParti.L1

open AriParti.Core Set Pointwise

namespace MutableInterval

variable {i j : MutableInterval}

/-- mirrors interval_def.h:1671-1855. A divisor with zero in it is not
allowed; its other end is taken to be the near one. -/
def div (i₁ i₂ : MutableInterval) : MutableInterval :=
  if i₁.isZero then ⟨some 0, false, some 0, false⟩
  else
    let a := i₁.lowerKind
    let b := i₁.upperKind
    let c := i₂.lowerKind
    let d := i₂.upperKind
    let ao := i₁.lowerOpen
    let bo := i₁.upperOpen
    let co := i₂.lowerOpen
    let dO := i₂.upperOpen
    if i₁.isN then
      if i₂.isN1 then
        of (b.div c) (if i₁.isN0 then false else bo || co)
          (if d.val == 0 then .plusInf else a.div d) (ao || dO)
      else
        of (if c.val == 0 then .minusInf else a.div c) (ao || co)
          (b.div d) (if i₁.isN0 then false else bo || dO)
    else if i₁.isM then
      if i₂.isN1 then
        of (if d.val == 0 then .minusInf else b.div d) (bo || dO)
          (if d.val == 0 then .plusInf else a.div d) (ao || dO)
      else
        of (if c.val == 0 then .minusInf else a.div c) (ao || co)
          (if c.val == 0 then .plusInf else b.div c) (bo || co)
    else
      if i₂.isN1 then
        of (if d.val == 0 then .minusInf else b.div d) (bo || dO)
          (a.div c) (if i₁.isP0 then false else ao || co)
      else
        of (a.div d) (if i₁.isP0 then false else ao || dO)
          (if c.val == 0 then .plusInf else b.div c) (bo || co)

/-- The far end of the reciprocals of an interval that starts at `c ≥ 0`. -/
def farRecip (c : ℚ) : Ext := if c == 0 then .plusInf else .num c⁻¹

/-- The near end of the reciprocals of an interval that ends at `d`. -/
def nearRecip (d : Option ℚ) : ℚ := d.elim 0 Inv.inv

theorem farRecip_isPos {c : ℚ} (hc : 0 ≤ c) : (farRecip c).isPos = true := by
  unfold farRecip
  split
  · rfl
  · next h =>
    have h0 : c ≠ 0 := by simpa using h
    simpa [Ext.isPos] using lt_of_le_of_ne hc (Ne.symm h0)

/-- A divisor on the right of zero. -/
structure IsP1 (j : MutableInterval) (c : ℚ) : Prop where
  lower : j.lower = some c
  nonneg : 0 ≤ c
  isOpen : c = 0 → j.lowerOpen = true
  pos : ∀ y ∈ j.values, 0 < y

/-- A divisor on the left of zero. -/
structure IsN1 (j : MutableInterval) (d : ℚ) : Prop where
  upper : j.upper = some d
  nonpos : d ≤ 0
  isOpen : d = 0 → j.upperOpen = true
  neg : ∀ y ∈ j.values, y < 0

theorem isN1_of (h : j.isN1 = true) : ∃ d, j.IsN1 d := by
  cases hu : j.upper with
  | none => simp [isN1, upperIsNeg, upperIsZero, upperKind, hu, Ext.isNeg, Ext.isZero] at h
  | some d =>
    simp only [isN1, upperIsNeg, upperIsZero, upperKind, hu, Option.elim_some, Ext.isNeg,
      Ext.isZero, Bool.or_eq_true, Bool.and_eq_true, decide_eq_true_eq, beq_iff_eq] at h
    refine ⟨d, hu, h.elim le_of_lt fun h => h.1.le, fun h0 => h.elim (fun h => absurd h0 h.ne) And.right,
      fun y hy => ?_⟩
    have hb : (End.fin (d : ℝ) j.upperOpen).Below y := upperEnd_some hu ▸ hy.2
    rcases h with h | ⟨rfl, ho⟩
    · exact hb.le.trans_lt (Rat.cast_lt_zero.mpr h)
    · rw [ho] at hb
      simpa using End.open_below.mp hb

theorem isP1_of (hc : j.containsZero = false) (h : j.isN1 = false) :
    ∃ c, j.IsP1 c := by
  have hu : (j.upperIsPos || (j.upperIsZero && !j.upperOpen)) = true := by
    cases hu : j.upper with
    | none => simp [upperIsPos, upperKind, hu, Ext.isPos]
    | some d =>
      simp only [isN1, upperIsNeg, upperIsPos, upperIsZero, upperKind, hu, Option.elim_some,
        Ext.isNeg, Ext.isPos, Ext.isZero, Bool.or_eq_false_iff, decide_eq_false_iff_not,
        not_lt] at h ⊢
      rcases h.1.lt_or_eq with h0 | rfl
      · simp [h0]
      · simpa using h.2
  have hl : (j.lowerIsNeg || (j.lowerIsZero && !j.lowerOpen)) = false := by
    rw [containsZero, hu, Bool.and_true] at hc
    exact hc
  cases hlo : j.lower with
  | none => simp [lowerIsNeg, lowerKind, hlo, Ext.isNeg] at hl
  | some c =>
    simp only [lowerIsNeg, lowerIsZero, lowerKind, hlo, Option.elim_some, Ext.isNeg, Ext.isZero,
      Bool.or_eq_false_iff, decide_eq_false_iff_not, not_lt] at hl
    refine ⟨c, hlo, hl.1, fun h0 => by simpa [h0] using hl.2, fun y hy => ?_⟩
    have ha : (End.fin (c : ℝ) j.lowerOpen).Above y := lowerEnd_some hlo ▸ hy.1
    rcases hl.1.lt_or_eq with h0 | rfl
    · exact (Rat.cast_pos.mpr h0).trans_le ha.le
    · have ho : j.lowerOpen = true := by simpa using hl.2
      rw [ho] at ha
      simpa using End.open_above.mp ha

/-- Where the reciprocals of a divisor on the right end. -/
theorem IsP1.recip_endsAt {c : ℚ} (h : j.IsP1 c) (hj : j.values.Nonempty) :
    EndsAt j.values⁻¹ ((farRecip c).upperEnd j.lowerOpen) := by
  have hs := startsAt hj
  rw [lowerEnd_some h.lower] at hs
  have hr := hs.inv h.pos (Rat.cast_nonneg.mpr h.nonneg)
  unfold farRecip
  by_cases h0 : c = 0
  · simpa [h0, End.inv, Ext.upperEnd] using hr
  · simpa [h0, End.inv, Ext.upperEnd] using hr

theorem IsP1.upperEnd_pos {c : ℚ} (h : j.IsP1 c) (hj : j.values.Nonempty) : j.upperEnd.Pos := by
  obtain ⟨y, hy⟩ := hj
  have hy0 := h.pos y hy
  have hb := hy.2
  cases hu : j.upperEnd with
  | inf => trivial
  | fin d o => exact hy0.trans_le (hu ▸ hb : (End.fin d o).Below y).le

/-- Where they start. -/
theorem IsP1.recip_startsAt {c : ℚ} (h : j.IsP1 c) (hj : j.values.Nonempty) (hs : j.Settled) :
    StartsAt j.values⁻¹ (.fin (nearRecip j.upper) j.upperOpen) := by
  have hp := h.upperEnd_pos hj
  have hr := (endsAt hj).inv h.pos hp
  cases hu : j.upper with
  | none =>
    simpa [nearRecip, hs.upper hu, upperEnd, upperKind, hu, Ext.upperEnd, End.inv] using hr
  | some d =>
    rw [upperEnd_some hu] at hp hr
    have h0 : (d : ℝ) ≠ 0 := ne_of_gt hp
    simpa [nearRecip, End.inv, h0] using hr

theorem IsP1.nearRecip_spec {c : ℚ} (h : j.IsP1 c) (hj : j.values.Nonempty) (hs : j.Settled) :
    0 ≤ nearRecip j.upper ∧ (nearRecip j.upper == 0 && !j.upperOpen) = false := by
  cases hu : j.upper with
  | none => simp [nearRecip, hs.upper hu]
  | some d =>
    have hp := h.upperEnd_pos hj
    rw [upperEnd_some hu] at hp
    have hd : 0 < d := Rat.cast_pos.mp hp
    simp [nearRecip, hd.le, hd.ne']

/-- The interval of the opposite values. -/
def mirror (j : MutableInterval) : MutableInterval :=
  ⟨j.upper.map Neg.neg, j.upperOpen, j.lower.map Neg.neg, j.lowerOpen⟩

theorem mirror_lowerEnd (j : MutableInterval) : j.mirror.lowerEnd = j.upperEnd.neg := by
  cases hu : j.upper <;> simp [mirror, lowerEnd, upperEnd, lowerKind, upperKind, hu, Ext.lowerEnd,
    Ext.upperEnd, End.neg]

theorem mirror_upperEnd (j : MutableInterval) : j.mirror.upperEnd = j.lowerEnd.neg := by
  cases hl : j.lower <;> simp [mirror, lowerEnd, upperEnd, lowerKind, upperKind, hl, Ext.lowerEnd,
    Ext.upperEnd, End.neg]

theorem mirror_values (j : MutableInterval) : j.mirror.values = -j.values := by
  ext v
  rw [mem_neg, values, values, mem_ofPred_eq, mem_ofPred_eq, mirror_lowerEnd, mirror_upperEnd,
    and_comm, ← neg_neg v, End.neg_above, End.neg_below, neg_neg]

theorem Settled.mirror (h : j.Settled) : j.mirror.Settled :=
  ⟨fun hl => h.upper (Option.map_eq_none_iff.mp hl), fun hu => h.lower (Option.map_eq_none_iff.mp hu)⟩

theorem IsN1.mirror {d : ℚ} (h : j.IsN1 d) : j.mirror.IsP1 (-d) where
  lower := by simp [MutableInterval.mirror, h.upper]
  nonneg := neg_nonneg.mpr h.nonpos
  isOpen h0 := h.isOpen (neg_eq_zero.mp h0)
  pos y hy := by
    rw [mirror_values, mem_neg] at hy
    exact neg_neg_iff_pos.mp (h.neg _ hy)

theorem inv_mirror (j : MutableInterval) : j.values⁻¹ = -(j.mirror.values⁻¹) := by
  ext v
  rw [mirror_values, mem_neg, mem_inv, mem_inv, mem_neg, inv_neg, neg_neg]

theorem mirror_nonempty (hj : j.values.Nonempty) : j.mirror.values.Nonempty := by
  rw [mirror_values]
  exact hj.neg

theorem IsN1.recip_startsAt {d : ℚ} (h : j.IsN1 d) (hj : j.values.Nonempty) :
    StartsAt j.values⁻¹ ((farRecip (-d)).neg.lowerEnd j.upperOpen) := by
  rw [inv_mirror, Ext.neg_lowerEnd]
  exact (h.mirror.recip_endsAt (mirror_nonempty hj)).neg

theorem nearRecip_neg (e : Option ℚ) : nearRecip (e.map Neg.neg) = -nearRecip e := by
  cases e <;> simp [nearRecip, inv_neg]

theorem IsN1.recip_endsAt {d : ℚ} (h : j.IsN1 d) (hj : j.values.Nonempty) (hs : j.Settled) :
    EndsAt j.values⁻¹ (.fin (nearRecip j.lower) j.lowerOpen) := by
  have hr := (h.mirror.recip_startsAt (mirror_nonempty hj) hs.mirror).neg
  rw [← inv_mirror] at hr
  simpa [MutableInterval.mirror, nearRecip_neg, End.neg] using hr

theorem IsN1.nearRecip_spec {d : ℚ} (h : j.IsN1 d) (hj : j.values.Nonempty) (hs : j.Settled) :
    nearRecip j.lower ≤ 0 ∧ (nearRecip j.lower == 0 && !j.lowerOpen) = false := by
  have hr := h.mirror.nearRecip_spec (mirror_nonempty hj) hs.mirror
  simpa [MutableInterval.mirror, nearRecip_neg] using hr

theorem IsP1.recip_nonneg {c : ℚ} (h : j.IsP1 c) : ∀ y ∈ j.values⁻¹, 0 ≤ y :=
  fun _ hy => (inv_pos.mp (h.pos _ hy)).le

theorem IsN1.recip_nonpos {d : ℚ} (h : j.IsN1 d) : ∀ y ∈ j.values⁻¹, y ≤ 0 :=
  fun _ hy => (inv_lt_zero.mp (h.neg _ hy)).le

end MutableInterval

namespace Ext

theorem div_num (a : Ext) {c : ℚ} (hc : c ≠ 0) : a.div (num c) = a.mul (num c⁻¹) := by
  have hz : (num c⁻¹).isZero = false := by simpa [isZero] using hc
  have hp : (num c⁻¹).isPos = (num c).isPos := by simp [isPos]
  simp only [div, mul, hz, hp, isInfinite, val, Bool.or_false, Bool.false_eq_true, if_false,
    div_eq_mul_inv]

/-- Division by the near end of the divisor. -/
theorem div_nearRecip (b : ℚ) (e : Option ℚ) {k : Ext} (hk : k.isInfinite = true) :
    (num b).div (e.elim k num) = num (b * MutableInterval.nearRecip e) := by
  by_cases h0 : b = 0
  · simp [div, isZero, h0]
  · have hb : (num b).isZero = false := by simpa [isZero] using h0
    have hi : (num b).isInfinite = false := rfl
    cases e with
    | none => simp [div, hb, hi, hk, MutableInterval.nearRecip]
    | some d =>
      have hd : (num d).isInfinite = false := rfl
      simp [div, hb, hi, hd, MutableInterval.nearRecip, val, div_eq_mul_inv]

theorem isZero_of_isPos {a : Ext} (h : a.isPos = true) : a.isZero = false := by
  cases a with
  | num q => simpa [isZero] using ne_of_gt (by simpa [isPos] using h : (0 : ℚ) < q)
  | _ => rfl

theorem mul_plusInf {a : Ext} (h : a.isPos = true) : a.mul plusInf = plusInf := by
  simp [mul, isZero_of_isPos h, h, show plusInf.isZero = false from rfl, isInfinite,
    show plusInf.isPos = true from rfl]

/-- Division by the end of the divisor next to zero, by the signs of the dividend. -/
theorem div_farRecip_pos {a : Ext} (h : a.isPos = true) (c : ℚ) :
    (if c == 0 then plusInf else a.div (num c)) = a.mul (MutableInterval.farRecip c) := by
  unfold MutableInterval.farRecip
  split
  · exact (mul_plusInf h).symm
  · next hc => exact div_num a (by simpa using hc)

theorem div_farRecip_neg {a : Ext} (h : a.isNeg = true) (c : ℚ) :
    (if c == 0 then minusInf else a.div (num c)) = a.mul (MutableInterval.farRecip c) := by
  unfold MutableInterval.farRecip
  split
  · rw [← neg_neg (a.mul plusInf), ← neg_mul, mul_plusInf ((neg_isPos a).trans h)]
    rfl
  · next hc => exact div_num a (by simpa using hc)

theorem farRecip_neg (d : ℚ) :
    (MutableInterval.farRecip (-d)).neg = if d == 0 then minusInf else num d⁻¹ := by
  unfold MutableInterval.farRecip
  by_cases h : d = 0
  · simp [h, neg]
  · simp [h, neg, inv_neg]

theorem div_farRecip_mirror_pos {a : Ext} (h : a.isPos = true) (d : ℚ) :
    (if d == 0 then minusInf else a.div (num d)) =
      a.mul (MutableInterval.farRecip (-d)).neg := by
  rw [farRecip_neg]
  split
  · rw [show minusInf = plusInf.neg from rfl, mul_neg, mul_plusInf h]
  · next hd => exact div_num a (by simpa using hd)

theorem div_farRecip_mirror_neg {a : Ext} (h : a.isNeg = true) (d : ℚ) :
    (if d == 0 then plusInf else a.div (num d)) =
      a.mul (MutableInterval.farRecip (-d)).neg := by
  rw [farRecip_neg]
  split
  · rw [← neg_neg (a.mul minusInf), ← neg_mul, show minusInf = plusInf.neg from rfl, mul_neg,
      mul_plusInf ((neg_isPos a).trans h)]
    rfl
  · next hd => exact div_num a (by simpa using hd)

end Ext

namespace MutableInterval

section Ends

variable {i j : MutableInterval} (hi : i.values.Nonempty) (hj : j.values.Nonempty)
  (hzi : i.isZero = false) (hs : j.Settled)
include hi hj hzi hs

/-- Both ends of a quotient by an interval on the left of zero. -/
theorem div_ends_N1 {d : ℚ} (h1 : j.isN1 = true) (h : j.IsN1 d) :
    HasEnds (i.values * j.values⁻¹) (div i j) := by
  have ia := startsAt hi
  have ib := endsAt hi
  have kl := h.recip_startsAt hj
  have ku := h.recip_endsAt hj hs
  have hfar : (farRecip (-d)).neg.isNeg = true := by
    rw [← Ext.neg_isPos, Ext.neg_neg]
    exact farRecip_isPos (neg_nonneg.mpr h.nonpos)
  obtain ⟨hn0, hnz⟩ := h.nearRecip_spec hj hs
  have hnear : ∀ q, (Ext.num q).div j.lowerKind = .num (q * nearRecip j.lower) :=
    fun q => Ext.div_nearRecip q j.lower rfl
  simp only [div, hzi, h1, upperKind_some h.upper, Ext.val, Bool.false_eq_true, if_false, if_true]
  cases hni : i.isN with
  | true =>
    have li := isLeft_of hi hzi hni
    obtain ⟨b, hb, hb0⟩ := li.upper
    rw [upperEnd_some hb] at ib
    constructor <;> simp only [if_true, of_lowerEnd, of_upperEnd]
    · have hn := near_upper_upper li.nonpos h.recip_nonpos ib ku hb0 hn0
      rw [hnz, Bool.or_false] at hn
      rwa [upperKind_some hb, hnear, isN0_eq hb]
    · rw [Ext.div_farRecip_mirror_neg li.lower]
      exact far_lower_lower (.inl li.nonpos) ia kl li.lower hfar
  | false =>
    have hb := upperKind_isPos hni
    cases hmi : i.isM with
    | true =>
      have ha : i.lowerKind.isNeg = true := (Bool.and_eq_true_iff.mp hmi).1
      constructor <;> simp only [Bool.false_eq_true, if_false, if_true, of_lowerEnd, of_upperEnd]
      · rw [Ext.div_farRecip_mirror_pos hb]
        exact far_upper_lower (.inr h.recip_nonpos) ib kl hb hfar
      · rw [Ext.div_farRecip_mirror_neg ha]
        exact far_lower_lower (.inr h.recip_nonpos) ia kl ha hfar
    | false =>
      have ri := isRight_of hni hmi
      obtain ⟨a, ha, ha0⟩ := ri.lower
      rw [lowerEnd_some ha] at ia
      constructor <;> simp only [Bool.false_eq_true, if_false, of_lowerEnd, of_upperEnd]
      · rw [Ext.div_farRecip_mirror_pos hb]
        exact far_upper_lower (.inl ri.nonneg) ib kl hb hfar
      · have hn := near_lower_upper ri.nonneg h.recip_nonpos ia ku ha0 hn0
        rw [hnz, Bool.or_false] at hn
        rwa [lowerKind_some ha, hnear, isP0_eq ha]

/-- Both ends of a quotient by an interval on the right of zero. -/
theorem div_ends_P1 {c : ℚ} (h1 : j.isN1 = false) (h : j.IsP1 c) :
    HasEnds (i.values * j.values⁻¹) (div i j) := by
  have ia := startsAt hi
  have ib := endsAt hi
  have ku := h.recip_endsAt hj
  have kl := h.recip_startsAt hj hs
  have hfar := farRecip_isPos h.nonneg
  obtain ⟨hn0, hnz⟩ := h.nearRecip_spec hj hs
  have hnear : ∀ q, (Ext.num q).div j.upperKind = .num (q * nearRecip j.upper) :=
    fun q => Ext.div_nearRecip q j.upper rfl
  simp only [div, hzi, h1, lowerKind_some h.lower, Ext.val, Bool.false_eq_true, if_false]
  cases hni : i.isN with
  | true =>
    have li := isLeft_of hi hzi hni
    obtain ⟨b, hb, hb0⟩ := li.upper
    rw [upperEnd_some hb] at ib
    constructor <;> simp only [if_true, of_lowerEnd, of_upperEnd]
    · rw [Ext.div_farRecip_neg li.lower]
      exact far_lower_upper (.inl li.nonpos) ia ku li.lower hfar
    · have hn := near_upper_lower li.nonpos h.recip_nonneg ib kl hb0 hn0
      rw [hnz, Bool.or_false] at hn
      rwa [upperKind_some hb, hnear, isN0_eq hb]
  | false =>
    have hb := upperKind_isPos hni
    cases hmi : i.isM with
    | true =>
      have ha : i.lowerKind.isNeg = true := (Bool.and_eq_true_iff.mp hmi).1
      constructor <;> simp only [Bool.false_eq_true, if_false, if_true, of_lowerEnd, of_upperEnd]
      · rw [Ext.div_farRecip_neg ha]
        exact far_lower_upper (.inr h.recip_nonneg) ia ku ha hfar
      · rw [Ext.div_farRecip_pos hb]
        exact far (.inr h.recip_nonneg) ib ku hb hfar
    | false =>
      have ri := isRight_of hni hmi
      obtain ⟨a, ha, ha0⟩ := ri.lower
      rw [lowerEnd_some ha] at ia
      constructor <;> simp only [Bool.false_eq_true, if_false, of_lowerEnd, of_upperEnd]
      · have hn := near ri.nonneg h.recip_nonneg ia kl ha0 hn0
        rw [hnz, Bool.or_false] at hn
        rwa [lowerKind_some ha, hnear, isP0_eq ha]
      · rw [Ext.div_farRecip_pos hb]
        exact far (.inl ri.nonneg) ib ku hb hfar

omit hzi in
/-- The quotient holds the quotients of the values, and nothing else. -/
theorem div_values (hc : j.containsZero = false) : (div i j).values = i.values * j.values⁻¹ := by
  cases hzi : i.isZero with
  | true =>
    have h : div i j = ⟨some 0, false, some 0, false⟩ := by simp [div, hzi]
    have hz : (⟨some 0, false, some 0, false⟩ : MutableInterval).values.Nonempty :=
      ⟨0, by simp [values, lowerEnd, upperEnd, lowerKind, upperKind, Ext.lowerEnd, Ext.upperEnd]⟩
    rw [h, values_of_isZero hi hzi, Set.Nonempty.zero_mul hj.inv]
    exact values_of_isZero hz rfl
  | false =>
    cases h1 : j.isN1 with
    | true =>
      obtain ⟨d, h⟩ := isN1_of h1
      have he := div_ends_N1 hi hj hzi hs h1 h
      have hk : j.values⁻¹.OrdConnected := by
        rw [inv_mirror]
        exact ordConnected_neg (ordConnected_inv ordConnected h.mirror.pos)
      exact values_eq (ordConnected_mul ordConnected hk) he.lower he.upper
    | false =>
      obtain ⟨c, h⟩ := isP1_of hc h1
      have he := div_ends_P1 hi hj hzi hs h1 h
      exact values_eq (ordConnected_mul ordConnected (ordConnected_inv ordConnected h.pos))
        he.lower he.upper

end Ends

variable {i j : MutableInterval}

theorem num_div_isInfinite (a : ℚ) (b : Ext) : ((Ext.num a).div b).isInfinite = false := by
  simp only [Ext.div, show (Ext.num a).isInfinite = false from rfl, Bool.false_eq_true, if_false]
  split
  · rfl
  · split <;> rfl

theorem div_settled (hi : i.Settled) (hc : j.containsZero = false) :
    (div i j).Settled := by
  -- an infinite quotient of a numeral comes from an infinite end or an end at zero
  have far : ∀ {a k : Ext} {c : ℚ} {o o' : Bool}, (a.isInfinite = true → o = true) →
      (c = 0 → o' = true) → (if c == 0 then k else a.div (.num c)).isInfinite = true →
      (o || o') = true := by
    intro a k c o o' ha hc h
    split at h
    · next h0 => rw [hc (eq_of_beq h0), Bool.or_true]
    · cases a with
      | num a => simp [num_div_isInfinite] at h
      | _ => rw [ha rfl, Bool.true_or]
  have near : ∀ {a : ℚ} {k : Ext} {o : Bool}, ((Ext.num a).div k).isInfinite = true → o = true := by
    intro a k o h
    simp [num_div_isInfinite] at h
  simp only [div]
  split
  · exact ⟨nofun, nofun⟩
  cases h1 : j.isN1 with
  | true =>
    obtain ⟨d, h⟩ := isN1_of h1
    simp only [upperKind_some h.upper, Ext.val, if_true]
    split
    · next hni =>
      obtain ⟨b, hb, -⟩ := upper_of_isN hni
      rw [upperKind_some hb]
      exact of_settled near (far hi.lowerOpen h.isOpen)
    · next hni =>
      split
      · exact of_settled (far hi.upperOpen h.isOpen) (far hi.lowerOpen h.isOpen)
      · next hmi =>
        obtain ⟨a, ha, -⟩ := (isRight_of (Bool.eq_false_iff.mpr hni)
          (Bool.eq_false_iff.mpr hmi)).lower
        rw [lowerKind_some ha]
        exact of_settled (far hi.upperOpen h.isOpen) near
  | false =>
    obtain ⟨c, h⟩ := isP1_of hc h1
    simp only [lowerKind_some h.lower, Ext.val, Bool.false_eq_true, if_false]
    split
    · next hni =>
      obtain ⟨b, hb, -⟩ := upper_of_isN hni
      rw [upperKind_some hb]
      exact of_settled (far hi.lowerOpen h.isOpen) near
    · next hni =>
      split
      · exact of_settled (far hi.lowerOpen h.isOpen) (far hi.upperOpen h.isOpen)
      · next hmi =>
        obtain ⟨a, ha, -⟩ := (isRight_of (Bool.eq_false_iff.mpr hni)
          (Bool.eq_false_iff.mpr hmi)).lower
        rw [lowerKind_some ha]
        exact of_settled near (far hi.upperOpen h.isOpen)

end MutableInterval

end AriParti.L1
