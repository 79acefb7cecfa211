import Mathlib.Algebra.GroupWithZero.Pointwise.Set.Basic
import AriParti.L1Arith.Linear

/-!
# Products of intervals

`mul` of `interval_manager` distinguishes on which side of zero its arguments
lie: left (N), across (M) or right (P). On nonempty intervals it is exact: the
result holds the products of the values and nothing else, open and infinite
ends included.

The proof has two cases instead of nine. An end that comes from the far ends
of both factors is one lemma, `far`, for factors on the right, and an end from
their near ends is another, `near`; the other cases are their mirror images.

## Results

* `mul_values`: the values of a product.
* `mul_settled`: infinite ends are flagged open.
-/
namespace AriParti.L1

open AriParti.Core Set Pointwise

namespace MutableInterval

/-- `a` is the larger of two upper ends: further out, or closed at the same value. -/
def larger (a : Ext) (o : Bool) (b : Ext) (o' : Bool) : Bool := a.gt b || (a == b && !o && o')

/-- `a` is the smaller of two lower ends. -/
def smaller (a : Ext) (o : Bool) (b : Ext) (o' : Bool) : Bool := a.lt b || (a == b && !o && o')

/-- mirrors interval_def.h:1017-1222 -/
def mul (i₁ i₂ : MutableInterval) : MutableInterval :=
  if i₁.isZero then i₁
  else if i₂.isZero then i₂
  else
    let a := i₁.lowerKind
    let b := i₁.upperKind
    let c := i₂.lowerKind
    let d := i₂.upperKind
    let ao := i₁.lowerOpen
    let bo := i₁.upperOpen
    let co := i₂.lowerOpen
    let dO := i₂.upperOpen
    if i₁.isN then
      if i₂.isN then
        of (b.mul d) (if i₁.isN0 || i₂.isN0 then false else bo || dO) (a.mul c) (ao || co)
      else if i₂.isM then of (a.mul d) (ao || dO) (a.mul c) (ao || co)
      else of (a.mul d) (ao || dO) (b.mul c) (if i₁.isN0 || i₂.isP0 then false else bo || co)
    else if i₁.isM then
      if i₂.isN then of (b.mul c) (bo || co) (a.mul c) (ao || co)
      else if i₂.isM then
        let ad := a.mul d
        let bc := b.mul c
        let ac := a.mul c
        let bd := b.mul d
        let l := if smaller ad (ao || dO) bc (bo || co) then (ad, ao || dO) else (bc, bo || co)
        let u := if larger ac (ao || co) bd (bo || dO) then (ac, ao || co) else (bd, bo || dO)
        of l.1 l.2 u.1 u.2
      else of (a.mul d) (ao || dO) (b.mul d) (bo || dO)
    else
      if i₂.isN then
        of (b.mul c) (bo || co) (a.mul d) (if i₁.isP0 || i₂.isN0 then false else ao || dO)
      else if i₂.isM then of (b.mul c) (bo || co) (b.mul d) (bo || dO)
      else of (a.mul c) (if i₁.isP0 || i₂.isP0 then false else ao || co) (b.mul d) (bo || dO)

/-! ## The ends of a product -/

variable {i j : MutableInterval} {s t : Set ℝ}

/-- On the left of zero, but not only at it. -/
structure IsLeft (i : MutableInterval) : Prop where
  lower : i.lowerKind.isNeg = true
  upper : ∃ b, i.upper = some b ∧ b ≤ 0

/-- On the right of zero, but not only at it. -/
structure IsRight (i : MutableInterval) : Prop where
  lower : ∃ a, i.lower = some a ∧ 0 ≤ a
  upper : i.upperKind.isPos = true

theorem lowerEnd_some {a : ℚ} (h : i.lower = some a) : i.lowerEnd = .fin a i.lowerOpen := by
  simp [lowerEnd, lowerKind, h, Ext.lowerEnd]

theorem upperEnd_some {b : ℚ} (h : i.upper = some b) : i.upperEnd = .fin b i.upperOpen := by
  simp [upperEnd, upperKind, h, Ext.upperEnd]

theorem IsRight.nonneg (h : i.IsRight) : ∀ x ∈ i.values, 0 ≤ x := by
  intro x hx
  obtain ⟨a, ha, ha0⟩ := h.lower
  have hax : (a : ℝ) ≤ x := (lowerEnd_some ha ▸ hx.1 : (End.fin (a : ℝ) i.lowerOpen).Above x).le
  exact (Rat.cast_nonneg.mpr ha0).trans hax

theorem IsLeft.nonpos (h : i.IsLeft) : ∀ x ∈ i.values, x ≤ 0 := by
  intro x hx
  obtain ⟨b, hb, hb0⟩ := h.upper
  have hxb : x ≤ (b : ℝ) := (upperEnd_some hb ▸ hx.2 : (End.fin (b : ℝ) i.upperOpen).Below x).le
  exact hxb.trans (Rat.cast_nonpos.mpr hb0)

theorem le_of_nonempty {a b : ℚ} (h : i.values.Nonempty) (ha : i.lower = some a)
    (hb : i.upper = some b) : a ≤ b := by
  obtain ⟨x, hx⟩ := h
  have hax : (a : ℝ) ≤ x := (lowerEnd_some ha ▸ hx.1 : (End.fin (a : ℝ) i.lowerOpen).Above x).le
  have hxb : x ≤ (b : ℝ) := (upperEnd_some hb ▸ hx.2 : (End.fin (b : ℝ) i.upperOpen).Below x).le
  exact_mod_cast hax.trans hxb

theorem upper_of_isN (hn : i.isN = true) : ∃ b, i.upper = some b ∧ b ≤ 0 := by
  cases hu : i.upper with
  | none => simp [isN, upperIsNeg, upperIsZero, upperKind, hu, Ext.isNeg, Ext.isZero] at hn
  | some b =>
    simp only [isN, upperIsNeg, upperIsZero, upperKind, hu, Option.elim_some, Ext.isNeg,
      Ext.isZero, Bool.or_eq_true, decide_eq_true_eq, beq_iff_eq] at hn
    exact ⟨b, rfl, hn.elim le_of_lt le_of_eq⟩

theorem isLeft_of (h : i.values.Nonempty) (hz : i.isZero = false) (hn : i.isN = true) :
    i.IsLeft := by
  obtain ⟨b, hb, hb0⟩ := upper_of_isN hn
  refine ⟨?_, b, hb, hb0⟩
  cases hl : i.lower with
  | none => simp [lowerKind, hl, Ext.isNeg]
  | some a =>
    have hab := le_of_nonempty h hl hb
    have ha0 : a ≠ 0 := by
      rintro rfl
      have hb1 : b = 0 := le_antisymm hb0 hab
      simp [isZero, lowerIsZero, upperIsZero, lowerKind, upperKind, hl, hb, hb1, Ext.isZero] at hz
    simpa [lowerKind, hl, Ext.isNeg] using lt_of_le_of_ne (hab.trans hb0) ha0

theorem upperKind_isPos (hn : i.isN = false) : i.upperKind.isPos = true := by
  cases hu : i.upper with
  | none => simp [upperKind, hu, Ext.isPos]
  | some b =>
    simp only [isN, upperIsNeg, upperIsZero, upperKind, hu, Option.elim_some, Ext.isNeg,
      Ext.isZero, Bool.or_eq_false_iff, decide_eq_false_iff_not, not_lt, beq_eq_false_iff_ne] at hn
    simpa [upperKind, hu, Ext.isPos] using lt_of_le_of_ne hn.1 (Ne.symm hn.2)

theorem isRight_of (hn : i.isN = false) (hm : i.isM = false) : i.IsRight := by
  have hu := upperKind_isPos hn
  refine ⟨?_, hu⟩
  have hl : i.lowerIsNeg = false := by simpa [isM, upperIsPos, hu] using hm
  cases h : i.lower with
  | none => simp [lowerIsNeg, lowerKind, h, Ext.isNeg] at hl
  | some a => exact ⟨a, rfl, by simpa [lowerIsNeg, lowerKind, h, Ext.isNeg] using hl⟩

/-- Where a product ends that comes from the far ends of its factors. -/
theorem far {a b : Ext} {o o' : Bool} (h0 : (∀ x ∈ s, 0 ≤ x) ∨ ∀ y ∈ t, 0 ≤ y)
    (hs : EndsAt s (a.upperEnd o)) (ht : EndsAt t (b.upperEnd o')) (ha : a.isPos = true)
    (hb : b.isPos = true) : EndsAt (s * t) ((a.mul b).upperEnd (o || o')) := by
  rcases h0 with h0 | h0
  · rw [Ext.mul_upperEnd ha hb]
    exact hs.mul_far h0 ht (Ext.upperEnd_pos ha o) (Ext.upperEnd_pos hb o')
  · rw [mul_comm s t, Ext.mul_comm, Bool.or_comm, Ext.mul_upperEnd hb ha]
    exact ht.mul_far h0 hs (Ext.upperEnd_pos hb o') (Ext.upperEnd_pos ha o)

theorem neg_nonneg_of {h : Set ℝ} (hs : ∀ x ∈ h, x ≤ 0) : ∀ x ∈ -h, 0 ≤ x := by
  intro x hx
  have := hs (-x) hx
  linarith

/-- The mirror images of `far`: in which set the far end is a lower one. -/
theorem far_lower_lower {a c : Ext} {o o' : Bool} (h0 : (∀ x ∈ s, x ≤ 0) ∨ ∀ y ∈ t, y ≤ 0)
    (hs : StartsAt s (a.lowerEnd o)) (ht : StartsAt t (c.lowerEnd o')) (ha : a.isNeg = true)
    (hc : c.isNeg = true) : EndsAt (s * t) ((a.mul c).upperEnd (o || o')) := by
  have h := far (s := -s) (t := -t) (h0.imp neg_nonneg_of neg_nonneg_of)
    (Ext.neg_upperEnd a o ▸ hs.neg) (Ext.neg_upperEnd c o' ▸ ht.neg)
    ((Ext.neg_isPos a).trans ha) ((Ext.neg_isPos c).trans hc)
  rwa [neg_mul_neg, Ext.neg_mul, Ext.mul_neg, Ext.neg_neg] at h

theorem far_lower_upper {a d : Ext} {o o' : Bool} (h0 : (∀ x ∈ s, x ≤ 0) ∨ ∀ y ∈ t, 0 ≤ y)
    (hs : StartsAt s (a.lowerEnd o)) (ht : EndsAt t (d.upperEnd o')) (ha : a.isNeg = true)
    (hd : d.isPos = true) : StartsAt (s * t) ((a.mul d).lowerEnd (o || o')) := by
  have h := (far (s := -s) (h0.imp_left neg_nonneg_of) (Ext.neg_upperEnd a o ▸ hs.neg) ht
    ((Ext.neg_isPos a).trans ha) hd).neg
  rwa [← neg_mul, neg_neg, ← Ext.neg_lowerEnd, Ext.neg_mul, Ext.neg_neg] at h

theorem far_upper_lower {b c : Ext} {o o' : Bool} (h0 : (∀ x ∈ s, 0 ≤ x) ∨ ∀ y ∈ t, y ≤ 0)
    (hs : EndsAt s (b.upperEnd o)) (ht : StartsAt t (c.lowerEnd o')) (hb : b.isPos = true)
    (hc : c.isNeg = true) : StartsAt (s * t) ((b.mul c).lowerEnd (o || o')) := by
  rw [mul_comm s t, Ext.mul_comm, Bool.or_comm]
  exact far_lower_upper h0.symm ht hs hc hb

/-- Where the products of nonnegative numbers start; a closed zero is the
least product whatever the other factor is. -/
theorem near {a c : ℚ} {o o' : Bool} (hs0 : ∀ x ∈ s, 0 ≤ x) (ht0 : ∀ y ∈ t, 0 ≤ y)
    (hs : StartsAt s (.fin a o)) (ht : StartsAt t (.fin c o')) (ha : 0 ≤ a) (hc : 0 ≤ c) :
    StartsAt (s * t)
      (.fin (a * c : ℚ) (if (a == 0 && !o) || (c == 0 && !o') then false else o || o')) := by
  have zero : ∀ {k : ℚ} {o : Bool}, (k == 0 && !o) = true ↔ (End.fin (k : ℝ) o).IsZero := by
    intro k o
    simp [End.IsZero]
  split
  · next h =>
    have h' : (End.fin (a : ℝ) o).IsZero ∨ (End.fin (c : ℝ) o').IsZero := by
      rwa [← zero, ← zero, ← Bool.or_eq_true]
    have hac : a * c = 0 := by
      rcases h' with h' | h'
      · rw [Rat.cast_eq_zero.mp h'.1, zero_mul]
      · rw [Rat.cast_eq_zero.mp h'.1, mul_zero]
    rw [hac, Rat.cast_zero]
    exact hs.mul_near_zero hs0 ht0 ht h'
  · next h =>
    rw [Rat.cast_mul]
    refine hs.mul_near (Rat.cast_nonneg.mpr ha) (Rat.cast_nonneg.mpr hc) ht ?_ ?_
    · intro h'
      exact h (by rw [zero.mpr h', Bool.true_or])
    · intro h'
      exact h (by rw [zero.mpr h', Bool.or_true])

theorem near_upper_upper {b d : ℚ} {o o' : Bool} (hs0 : ∀ x ∈ s, x ≤ 0) (ht0 : ∀ y ∈ t, y ≤ 0)
    (hs : EndsAt s (.fin b o)) (ht : EndsAt t (.fin d o')) (hb : b ≤ 0) (hd : d ≤ 0) :
    StartsAt (s * t)
      (.fin (b * d : ℚ) (if (b == 0 && !o) || (d == 0 && !o') then false else o || o')) := by
  have h := near (s := -s) (t := -t) (a := -b) (c := -d) (neg_nonneg_of hs0) (neg_nonneg_of ht0)
    (by simpa [End.neg] using hs.neg) (by simpa [End.neg] using ht.neg) (neg_nonneg.mpr hb)
    (neg_nonneg.mpr hd)
  simpa using h

theorem near_upper_lower {b c : ℚ} {o o' : Bool} (hs0 : ∀ x ∈ s, x ≤ 0) (ht0 : ∀ y ∈ t, 0 ≤ y)
    (hs : EndsAt s (.fin b o)) (ht : StartsAt t (.fin c o')) (hb : b ≤ 0) (hc : 0 ≤ c) :
    EndsAt (s * t)
      (.fin (b * c : ℚ) (if (b == 0 && !o) || (c == 0 && !o') then false else o || o')) := by
  have h := (near (s := -s) (a := -b) (neg_nonneg_of hs0) ht0 (by simpa [End.neg] using hs.neg) ht
    (neg_nonneg.mpr hb) hc).neg
  rw [← neg_mul, neg_neg] at h
  simpa [End.neg] using h

theorem near_lower_upper {a d : ℚ} {o o' : Bool} (hs0 : ∀ x ∈ s, 0 ≤ x) (ht0 : ∀ y ∈ t, y ≤ 0)
    (hs : StartsAt s (.fin a o)) (ht : EndsAt t (.fin d o')) (ha : 0 ≤ a) (hd : d ≤ 0) :
    EndsAt (s * t)
      (.fin (a * d : ℚ) (if (a == 0 && !o) || (d == 0 && !o') then false else o || o')) := by
  rw [mul_comm s t, mul_comm a d, Bool.or_comm (a == 0 && !o), Bool.or_comm o]
  exact near_upper_lower ht0 hs0 ht hs hd ha

theorem below_of_larger {a b : Ext} {o o' : Bool} {x : ℝ} (ha : a ≠ .minusInf) (hb : b ≠ .minusInf)
    (h : larger a o b o' = true) (hx : (b.upperEnd o').Below x) : (a.upperEnd o).Below x := by
  cases a with
  | minusInf => exact absurd rfl ha
  | plusInf => trivial
  | num a =>
    cases b with
    | minusInf => exact absurd rfl hb
    | plusInf => simp [larger, Ext.gt, Ext.lt] at h
    | num b =>
      have hxb : x ≤ b := End.Below.le hx
      simp only [larger, Ext.gt, Ext.lt, Bool.or_eq_true, Bool.and_eq_true, decide_eq_true_eq,
        beq_iff_eq, Ext.num.injEq, Bool.not_eq_true'] at h
      rcases h with h | ⟨⟨rfl, rfl⟩, -⟩
      · exact End.below_of_lt (hxb.trans_lt (Rat.cast_lt.mpr h))
      · exact End.closed_below.mpr hxb

theorem below_of_not_larger {a b : Ext} {o o' : Bool} {x : ℝ} (ha : a ≠ .minusInf)
    (hb : b ≠ .minusInf) (h : larger a o b o' = false) (hx : (a.upperEnd o).Below x) :
    (b.upperEnd o').Below x := by
  cases b with
  | minusInf => exact absurd rfl hb
  | plusInf => trivial
  | num b =>
    cases a with
    | minusInf => exact absurd rfl ha
    | plusInf => simp [larger, Ext.gt, Ext.lt] at h
    | num a =>
      have hxa : x ≤ a := End.Below.le hx
      simp only [larger, Ext.gt, Ext.lt, Bool.or_eq_false_iff, decide_eq_false_iff_not,
        not_lt] at h
      obtain ⟨hab, h⟩ := h
      rcases hab.lt_or_eq with hlt | rfl
      · exact End.below_of_lt (hxa.trans_lt (Rat.cast_lt.mpr hlt))
      · cases o with
        | true => exact End.below_of_lt (End.open_below.mp hx)
        | false =>
          have ho' : o' = false := by simpa using h
          exact ho' ▸ End.closed_below.mpr hxa

/-- The union of two sets ends where the larger of their ends is. -/
theorem endsAt_larger {a b : Ext} {o o' : Bool} (ha : a ≠ .minusInf) (hb : b ≠ .minusInf)
    (hs : EndsAt s (a.upperEnd o)) (ht : EndsAt t (b.upperEnd o')) :
    EndsAt (s ∪ t) (if larger a o b o' then a.upperEnd o else b.upperEnd o') := by
  split
  · next h => exact hs.union fun x hx => below_of_larger ha hb h (ht.bound x hx)
  · next h =>
    rw [union_comm]
    exact ht.union fun x hx =>
      below_of_not_larger ha hb (Bool.eq_false_iff.mpr h) (hs.bound x hx)

theorem startsAt_smaller {a b : Ext} {o o' : Bool} (ha : a ≠ .plusInf) (hb : b ≠ .plusInf)
    (hs : StartsAt s (a.lowerEnd o)) (ht : StartsAt t (b.lowerEnd o')) :
    StartsAt (s ∪ t) (if smaller a o b o' then a.lowerEnd o else b.lowerEnd o') := by
  have hne : ∀ {e : Ext}, e ≠ .plusInf → e.neg ≠ .minusInf := by
    intro e he
    cases e <;> simp_all [Ext.neg]
  have hsm : larger a.neg o b.neg o' = smaller a o b o' := by
    simp only [larger, smaller, Ext.neg_gt, Ext.neg_beq]
  have h := (endsAt_larger (s := -s) (t := -t) (hne ha) (hne hb) (Ext.neg_upperEnd a o ▸ hs.neg)
    (Ext.neg_upperEnd b o' ▸ ht.neg)).neg
  rw [union_neg, neg_neg, neg_neg, hsm] at h
  split
  · next hc => rwa [if_pos hc, Ext.neg_upperEnd, End.neg_involutive] at h
  · next hc => rwa [if_neg hc, Ext.neg_upperEnd, End.neg_involutive] at h

/-! ## Products -/

theorem isN0_eq {b : ℚ} (h : i.upper = some b) : i.isN0 = (b == 0 && !i.upperOpen) := by
  simp [isN0, upperIsZero, upperKind, h, Ext.isZero]

theorem isP0_eq {a : ℚ} (h : i.lower = some a) : i.isP0 = (a == 0 && !i.lowerOpen) := by
  simp [isP0, lowerIsZero, lowerKind, h, Ext.isZero]

theorem lowerKind_some {a : ℚ} (h : i.lower = some a) : i.lowerKind = .num a := by
  simp [lowerKind, h]

theorem upperKind_some {b : ℚ} (h : i.upper = some b) : i.upperKind = .num b := by
  simp [upperKind, h]

theorem ends_of_isZero (hz : i.isZero = true) : i.lower = some 0 ∧ i.upper = some 0 := by
  simp only [isZero, lowerIsZero, upperIsZero, lowerKind, upperKind, Bool.and_eq_true] at hz
  cases hl : i.lower <;> cases hu : i.upper <;> simp_all [Ext.isZero]

theorem values_of_isZero (h : i.values.Nonempty) (hz : i.isZero = true) : i.values = 0 := by
  obtain ⟨hl, hu⟩ := ends_of_isZero hz
  refine (subset_singleton_iff_eq.mp fun x hx => ?_).resolve_left h.ne_empty
  have h1 : ((0 : ℚ) : ℝ) ≤ x := (lowerEnd_some hl ▸ hx.1 : (End.fin _ i.lowerOpen).Above x).le
  have h2 : x ≤ ((0 : ℚ) : ℝ) := (upperEnd_some hu ▸ hx.2 : (End.fin _ i.upperOpen).Below x).le
  rw [Rat.cast_zero] at h1 h2
  exact le_antisymm h2 h1

theorem lowerEnd_neg_pos (h : i.lowerKind.isNeg = true) : i.lowerEnd.neg.Pos := by
  rw [lowerEnd, ← Ext.neg_upperEnd]
  exact Ext.upperEnd_pos ((Ext.neg_isPos _).trans h) _

/-- The set `s` has the ends of `r`. -/
structure HasEnds (s : Set ℝ) (r : MutableInterval) : Prop where
  lower : StartsAt s r.lowerEnd
  upper : EndsAt s r.upperEnd

section Ends

variable (hi : i.values.Nonempty) (hj : j.values.Nonempty) (hzi : i.isZero = false)
  (hzj : j.isZero = false)
include hi hj hzi hzj

theorem mul_ends_left (hni : i.isN = true) :
    HasEnds (i.values * j.values) (mul i j) := by
  have ia := startsAt hi
  have ib := endsAt hi
  have jc := startsAt hj
  have jd := endsAt hj
  have li := isLeft_of hi hzi hni
  obtain ⟨b, hb, hb0⟩ := li.upper
  rw [upperEnd_some hb] at ib
  simp only [mul, hzi, hzj, hni, Bool.false_eq_true, if_false, if_true]
  cases hnj : j.isN with
  | true =>
    have lj := isLeft_of hj hzj hnj
    obtain ⟨d, hd, hd0⟩ := lj.upper
    rw [upperEnd_some hd] at jd
    constructor <;> simp only [if_true, of_lowerEnd, of_upperEnd]
    · rw [upperKind_some hb, upperKind_some hd, isN0_eq hb, isN0_eq hd, Ext.mul_num]
      exact near_upper_upper li.nonpos lj.nonpos ib jd hb0 hd0
    · exact far_lower_lower (.inl li.nonpos) ia jc li.lower lj.lower
  | false =>
    have hd := upperKind_isPos hnj
    cases hmj : j.isM with
    | true =>
      have hc : j.lowerKind.isNeg = true := (Bool.and_eq_true_iff.mp hmj).1
      constructor <;> simp only [Bool.false_eq_true, if_false, if_true, of_lowerEnd, of_upperEnd]
      · exact far_lower_upper (.inl li.nonpos) ia jd li.lower hd
      · exact far_lower_lower (.inl li.nonpos) ia jc li.lower hc
    | false =>
      have rj := isRight_of hnj hmj
      obtain ⟨c, hc, hc0⟩ := rj.lower
      rw [lowerEnd_some hc] at jc
      constructor <;> simp only [Bool.false_eq_true, if_false, of_lowerEnd, of_upperEnd]
      · exact far_lower_upper (.inl li.nonpos) ia jd li.lower hd
      · rw [upperKind_some hb, lowerKind_some hc, isN0_eq hb, isP0_eq hc, Ext.mul_num]
        exact near_upper_lower li.nonpos rj.nonneg ib jc hb0 hc0

theorem mul_ends_right (hni : i.isN = false) (hmi : i.isM = false) :
    HasEnds (i.values * j.values) (mul i j) := by
  have ia := startsAt hi
  have ib := endsAt hi
  have jc := startsAt hj
  have jd := endsAt hj
  have ri := isRight_of hni hmi
  obtain ⟨a, ha, ha0⟩ := ri.lower
  rw [lowerEnd_some ha] at ia
  simp only [mul, hzi, hzj, hni, hmi, Bool.false_eq_true, if_false]
  cases hnj : j.isN with
  | true =>
    have lj := isLeft_of hj hzj hnj
    obtain ⟨d, hd, hd0⟩ := lj.upper
    rw [upperEnd_some hd] at jd
    constructor <;> simp only [if_true, of_lowerEnd, of_upperEnd]
    · exact far_upper_lower (.inl ri.nonneg) ib jc ri.upper lj.lower
    · rw [lowerKind_some ha, upperKind_some hd, isP0_eq ha, isN0_eq hd, Ext.mul_num]
      exact near_lower_upper ri.nonneg lj.nonpos ia jd ha0 hd0
  | false =>
    have hd := upperKind_isPos hnj
    cases hmj : j.isM with
    | true =>
      have hc : j.lowerKind.isNeg = true := (Bool.and_eq_true_iff.mp hmj).1
      constructor <;> simp only [Bool.false_eq_true, if_false, if_true, of_lowerEnd, of_upperEnd]
      · exact far_upper_lower (.inl ri.nonneg) ib jc ri.upper hc
      · exact far (.inl ri.nonneg) ib jd ri.upper hd
    | false =>
      have rj := isRight_of hnj hmj
      obtain ⟨c, hc, hc0⟩ := rj.lower
      rw [lowerEnd_some hc] at jc
      constructor <;> simp only [Bool.false_eq_true, if_false, of_lowerEnd, of_upperEnd]
      · rw [lowerKind_some ha, lowerKind_some hc, isP0_eq ha, isP0_eq hc, Ext.mul_num]
        exact near ri.nonneg rj.nonneg ia jc ha0 hc0
      · exact far (.inl ri.nonneg) ib jd ri.upper hd

/-- Across zero the far ends decide, on both sides. -/
theorem mul_ends_mid (hni : i.isN = false) (hmi : i.isM = true) :
    HasEnds (i.values * j.values) (mul i j) := by
  have ia := startsAt hi
  have ib := endsAt hi
  have jc := startsAt hj
  have jd := endsAt hj
  have hb := upperKind_isPos hni
  have ha : i.lowerKind.isNeg = true := (Bool.and_eq_true_iff.mp hmi).1
  simp only [mul, hzi, hzj, hni, hmi, Bool.false_eq_true, if_false, if_true]
  cases hnj : j.isN with
  | true =>
    have lj := isLeft_of hj hzj hnj
    constructor <;> simp only [if_true, of_lowerEnd, of_upperEnd]
    · exact far_upper_lower (.inr lj.nonpos) ib jc hb lj.lower
    · exact far_lower_lower (.inr lj.nonpos) ia jc ha lj.lower
  | false =>
    have hd := upperKind_isPos hnj
    cases hmj : j.isM with
    | true =>
      have hc : j.lowerKind.isNeg = true := (Bool.and_eq_true_iff.mp hmj).1
      -- the products with the nonpositive and with the nonnegative values of `i`
      have np : ∀ x ∈ i.values ∩ {x | x ≤ 0}, x ≤ 0 := fun x hx => hx.2
      have nn : ∀ x ∈ i.values ∩ {x | 0 ≤ x}, 0 ≤ x := fun x hx => hx.2
      have ia' := ia.nonpos_part (lowerEnd_neg_pos ha)
      have ib' := ib.nonneg_part (Ext.upperEnd_pos hb _)
      have had := far_lower_upper (.inl np) ia' jd ha hd
      have hac := far_lower_lower (.inl np) ia' jc ha hc
      have hbc := far_upper_lower (.inl nn) ib' jc hb hc
      have hbd := far (.inl nn) ib' jd hb hd
      have hcb := Ext.mul_comm _ _ ▸ Ext.mul_isNeg hc hb
      constructor <;> rw [mul_split i.values] <;>
        simp only [Bool.false_eq_true, if_false, if_true, of_lowerEnd, of_upperEnd]
      · have h := startsAt_smaller (Ext.ne_plusInf (Ext.mul_isNeg ha hd)) (Ext.ne_plusInf hcb)
          had hbc
        split
        · next hc => rwa [if_pos hc] at h
        · next hc => rwa [if_neg hc] at h
      · have h := endsAt_larger (Ext.ne_minusInf (Ext.mul_neg_neg_isPos ha hc))
          (Ext.ne_minusInf (Ext.mul_isPos hb hd)) hac hbd
        split
        · next hc => rwa [if_pos hc] at h
        · next hc => rwa [if_neg hc] at h
    | false =>
      have rj := isRight_of hnj hmj
      constructor <;> simp only [Bool.false_eq_true, if_false, of_lowerEnd, of_upperEnd]
      · exact far_lower_upper (.inr rj.nonneg) ia jd ha hd
      · exact far (.inr rj.nonneg) ib jd hb hd

theorem mul_ends : HasEnds (i.values * j.values) (mul i j) := by
  cases hni : i.isN with
  | true => exact mul_ends_left hi hj hzi hzj hni
  | false =>
    cases hmi : i.isM with
    | true => exact mul_ends_mid hi hj hzi hzj hni hmi
    | false => exact mul_ends_right hi hj hzi hzj hni hmi

omit hzi hzj in
/-- The product holds the products of the values, and nothing else. -/
theorem mul_values : (mul i j).values = i.values * j.values := by
  cases hzi : i.isZero with
  | true =>
    have h : mul i j = i := by simp [mul, hzi]
    rw [h, values_of_isZero hi hzi, Set.Nonempty.zero_mul hj]
  | false =>
    cases hzj : j.isZero with
    | true =>
      have h : mul i j = j := by simp [mul, hzi, hzj]
      rw [h, values_of_isZero hj hzj, Set.Nonempty.mul_zero hi]
    | false =>
      have h := mul_ends hi hj hzi hzj
      exact values_eq (ordConnected_mul ordConnected ordConnected) h.lower h.upper

end Ends

/-! ## Flags -/

theorem mul_settled (hi : i.Settled) (hj : j.Settled) : (mul i j).Settled := by
  have al := mul_open hi.lowerOpen hj.lowerOpen
  have au := mul_open hi.lowerOpen hj.upperOpen
  have bl := mul_open hi.upperOpen hj.lowerOpen
  have bu := mul_open hi.upperOpen hj.upperOpen
  have fin : ∀ {a b : ℚ} {o : Bool}, ((Ext.num a).mul (.num b)).isInfinite = true → o = true := by
    intro a b o h
    simp [Ext.isInfinite] at h
  simp only [mul]
  split
  · exact hi
  split
  · exact hj
  split
  · next hni =>
    obtain ⟨b, hb, -⟩ := upper_of_isN hni
    split
    · next hnj =>
      obtain ⟨d, hd, -⟩ := upper_of_isN hnj
      rw [upperKind_some hb, upperKind_some hd]
      exact of_settled fin al
    · next hnj =>
      split
      · exact of_settled au al
      · next hmj =>
        obtain ⟨c, hc, -⟩ := (isRight_of (Bool.eq_false_iff.mpr hnj)
          (Bool.eq_false_iff.mpr hmj)).lower
        rw [upperKind_some hb, lowerKind_some hc]
        exact of_settled au fin
  · next hni =>
    split
    · split
      · exact of_settled bl al
      · split
        · apply of_settled
          · split
            · exact au
            · exact bl
          · split
            · exact al
            · exact bu
        · exact of_settled au bu
    · next hmi =>
      obtain ⟨a, ha, -⟩ := (isRight_of (Bool.eq_false_iff.mpr hni)
        (Bool.eq_false_iff.mpr hmi)).lower
      split
      · next hnj =>
        obtain ⟨d, hd, -⟩ := upper_of_isN hnj
        rw [lowerKind_some ha, upperKind_some hd]
        exact of_settled bl fin
      · next hnj =>
        split
        · exact of_settled bl bu
        · next hmj =>
          obtain ⟨c, hc, -⟩ := (isRight_of (Bool.eq_false_iff.mpr hnj)
            (Bool.eq_false_iff.mpr hmj)).lower
          rw [lowerKind_some ha, lowerKind_some hc]
          exact of_settled fin bu

end MutableInterval

end AriParti.L1
