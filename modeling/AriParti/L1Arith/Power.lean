import AriParti.Core.Powers
import AriParti.L1Arith.Quotient

/-!
# Powers of intervals

`power` of `interval_manager`. Odd powers are monotone and exact. An even
power of an interval that reaches zero starts at zero, closed: it is exact
unless zero is an open end of the interval, where the power has zero although
the interval does not (`power_values_even`).

## Results

* `power_values_odd`, `power_values_even`, `mem_power`: the values of a power.
* `power_settled`: infinite ends are flagged open.
-/
namespace AriParti.L1

open AriParti.Core Set Pointwise

namespace MutableInterval

/-- mirrors interval_def.h:1279-1390 -/
def power (i : MutableInterval) (n : Nat) : MutableInterval :=
  let l := i.lowerKind
  let u := i.upperKind
  if n = 1 then i
  else if n % 2 = 0 then
    if i.lowerIsPos then
      if i.upper.isNone then ⟨some (l.val ^ n), i.lowerOpen, none, true⟩
      else ⟨some (l.val ^ n), i.lowerOpen, some (u.val ^ n), i.upperOpen⟩
    else if i.upperIsNeg then
      if i.lower.isNone then ⟨some (u.val ^ n), i.upperOpen, none, true⟩
      else ⟨some (u.val ^ n), i.upperOpen, some (l.val ^ n), i.lowerOpen⟩
    else
      let un₁ := l.power n
      let un₂ := u.power n
      if larger un₁ i.lowerOpen un₂ i.upperOpen then of (.num 0) false un₁ i.lowerOpen
      else of (.num 0) false un₂ i.upperOpen
  else
    { lower := i.lower.map (· ^ n)
      lowerOpen := if i.lower.isNone then true else i.lowerOpen
      upper := i.upper.map (· ^ n)
      upperOpen := if i.upper.isNone then true else i.upperOpen }

end MutableInterval

namespace MutableInterval

variable {i : MutableInterval} {n : Nat}

theorem lower_of_isPos (h : i.lowerIsPos = true) : ∃ a, i.lower = some a ∧ 0 < a := by
  cases hl : i.lower with
  | none => simp [lowerIsPos, lowerKind, hl, Ext.isPos] at h
  | some a => exact ⟨a, rfl, by simpa [lowerIsPos, lowerKind, hl, Ext.isPos] using h⟩

theorem upper_of_isNeg (h : i.upperIsNeg = true) : ∃ b, i.upper = some b ∧ b < 0 := by
  cases hu : i.upper with
  | none => simp [upperIsNeg, upperKind, hu, Ext.isNeg] at h
  | some b => exact ⟨b, rfl, by simpa [upperIsNeg, upperKind, hu, Ext.isNeg] using h⟩

/-- An odd power is a power of the ends. -/
theorem power_values_odd (hn : Odd n) (hi : i.values.Nonempty) :
    (power i n).values = (· ^ n) '' i.values := by
  have hl : (power i n).lowerEnd = i.lowerEnd.pow n := by
    by_cases h1 : n = 1
    · subst h1
      cases h : i.lower <;> simp [power, lowerEnd, lowerKind, h, Ext.lowerEnd, End.pow]
    · have h2 : n % 2 = 1 := Nat.odd_iff.mp hn
      cases h : i.lower <;> simp [power, h1, h2, lowerEnd, lowerKind, h, Ext.lowerEnd, End.pow]
  have hu : (power i n).upperEnd = i.upperEnd.pow n := by
    by_cases h1 : n = 1
    · subst h1
      cases h : i.upper <;> simp [power, upperEnd, upperKind, h, Ext.upperEnd, End.pow]
    · have h2 : n % 2 = 1 := Nat.odd_iff.mp hn
      cases h : i.upper <;> simp [power, h1, h2, upperEnd, upperKind, h, Ext.upperEnd, End.pow]
  exact values_eq (ordConnected_pow ordConnected) (hl ▸ (startsAt hi).pow_odd hn)
    (hu ▸ (endsAt hi).pow_odd hn)

/-- On the right of zero an even power is one, too. -/
theorem power_values_pos (hn : n % 2 = 0) (hn0 : n ≠ 0) (hi : i.values.Nonempty)
    (hp : i.lowerIsPos = true) : (power i n).values = (· ^ n) '' i.values := by
  obtain ⟨a, ha, ha0⟩ := lower_of_isPos hp
  have h1 : n ≠ 1 := by omega
  have ha0' : (0 : ℝ) < a := Rat.cast_pos.mpr ha0
  have hia := startsAt hi
  rw [lowerEnd_some ha] at hia
  have hs0 : ∀ x ∈ i.values, 0 ≤ x := fun x hx => ha0'.le.trans (hia.bound x hx).le
  have hu0 : i.upperEnd.Nonneg := by
    cases hu : i.upper with
    | none => simp [upperEnd, upperKind, hu, Ext.upperEnd, End.Nonneg]
    | some b =>
      rw [upperEnd_some hu]
      exact Rat.cast_nonneg.mpr (ha0.le.trans (le_of_nonempty hi ha hu))
  have hl : (power i n).lowerEnd = .fin ((a : ℝ) ^ n) i.lowerOpen := by
    cases hu : i.upper <;> simp [power, h1, hn, hp, hu, lowerEnd, lowerKind, ha, Ext.lowerEnd, Ext.val]
  have hu : (power i n).upperEnd = i.upperEnd.pow n := by
    cases hu : i.upper <;>
      simp [power, h1, hn, hp, hu, upperEnd, upperKind, Ext.upperEnd, Ext.val, End.pow]
  exact values_eq (ordConnected_pow ordConnected) (hl ▸ hia.pow hn0 hs0 ha0'.le)
    (hu ▸ (endsAt hi).pow hn0 hs0 hu0 hi)

theorem power_mirror (hn : n % 2 = 0) (hu : i.upperIsNeg = true) (hp : i.lowerIsPos = false) :
    power i n = power i.mirror n := by
  obtain ⟨b, hb, hb0⟩ := upper_of_isNeg hu
  have h1 : n ≠ 1 := by omega
  have he : Even n := Nat.even_iff.mpr hn
  have hp' : i.mirror.lowerIsPos = true := by simp [lowerIsPos, lowerKind, mirror, hb, Ext.isPos, hb0]
  have hm : i.mirror.lowerKind = .num (-b) := lowerKind_some (by simp [mirror, hb])
  have hlo : i.mirror.lowerOpen = i.upperOpen := rfl
  have huo : i.mirror.upperOpen = i.lowerOpen := rfl
  cases hl : i.lower with
  | none =>
    have hmu : i.mirror.upper = none := by simp [mirror, hl]
    simp [power, h1, hn, hp, hu, hp', hl, hm, hmu, upperKind_some hb, he.neg_pow, hlo]
  | some a =>
    have hmu : i.mirror.upper = some (-a) := by simp [mirror, hl]
    simp [power, h1, hn, hp, hu, hp', hl, hm, hmu, upperKind_some hb, lowerKind_some hl,
      upperKind_some hmu, he.neg_pow, hlo, huo]

/-- On the left of zero the ends change sides. -/
theorem power_values_neg (hn : n % 2 = 0) (hn0 : n ≠ 0) (hi : i.values.Nonempty)
    (hu : i.upperIsNeg = true) (hp : i.lowerIsPos = false) :
    (power i n).values = (· ^ n) '' i.values := by
  obtain ⟨b, hb, hb0⟩ := upper_of_isNeg hu
  rw [power_mirror hn hu hp, ← image_pow_neg (Nat.even_iff.mpr hn), ← mirror_values]
  refine power_values_pos hn hn0 (mirror_nonempty hi) ?_
  simp [lowerIsPos, lowerKind, mirror, hb, Ext.isPos, hb0]

/-! ### Across zero -/

theorem lower_nonpos (hp : i.lowerIsPos = false) : i.lowerEnd.neg.Nonneg := by
  cases hl : i.lower with
  | none => simp [lowerEnd, lowerKind, hl, Ext.lowerEnd, End.neg, End.Nonneg]
  | some a =>
    have ha : a ≤ 0 := by simpa [lowerIsPos, lowerKind, hl, Ext.isPos] using hp
    rw [lowerEnd_some hl]
    exact neg_nonneg.mpr (Rat.cast_nonpos.mpr ha)

theorem upper_nonneg (hu : i.upperIsNeg = false) : i.upperEnd.Nonneg := by
  cases h : i.upper with
  | none => simp [upperEnd, upperKind, h, Ext.upperEnd, End.Nonneg]
  | some b =>
    have hb : 0 ≤ b := by simpa [upperIsNeg, upperKind, h, Ext.isNeg] using hu
    rw [upperEnd_some h]
    exact Rat.cast_nonneg.mpr hb

/-- With zero added, an interval that reaches zero still has no gaps. -/
theorem ordConnected_zero (hp : i.lowerIsPos = false) (hu : i.upperIsNeg = false) :
    (i.values ∪ {0}).OrdConnected := by
  have above : ∀ v, 0 < v → i.lowerEnd.Above v := by
    intro v hv
    cases hl : i.lowerEnd with
    | inf => trivial
    | fin a o =>
      have ha := lower_nonpos hp
      rw [hl] at ha
      exact End.above_of_lt ((neg_nonneg.mp ha).trans_lt hv)
  have below : ∀ v, v < 0 → i.upperEnd.Below v := by
    intro v hv
    cases hl : i.upperEnd with
    | inf => trivial
    | fin b o =>
      have hb := upper_nonneg hu
      rw [hl] at hb
      exact End.below_of_lt (hv.trans_le hb)
  constructor
  intro x hx y hy v ⟨hxv, hvy⟩
  rcases lt_trichotomy v 0 with h | rfl | h
  · rcases hx with hx | rfl
    · exact .inl ⟨hx.1.mono hxv, below v h⟩
    · exact absurd hxv h.not_ge
  · exact .inr rfl
  · rcases hy with hy | rfl
    · exact .inl ⟨above v h, hy.2.mono hvy⟩
    · exact absurd hvy h.not_ge

theorem lowerKind_power (hn : n % 2 = 0) :
    (i.lowerKind.power n).upperEnd i.lowerOpen = i.lowerEnd.neg.pow n := by
  cases hl : i.lower with
  | none => simp [lowerEnd, lowerKind, hl, Ext.power, hn, Ext.lowerEnd, Ext.upperEnd, End.neg, End.pow]
  | some a => simp [lowerEnd, lowerKind, hl, Ext.power, Ext.lowerEnd, Ext.upperEnd, End.neg, End.pow,
      (Nat.even_iff.mpr hn).neg_pow]

theorem upperKind_power : (i.upperKind.power n).upperEnd i.upperOpen = i.upperEnd.pow n := by
  cases hu : i.upper with
  | none => simp [upperEnd, upperKind, hu, Ext.power, Ext.upperEnd, End.pow]
  | some b => simp [upperEnd, upperKind, hu, Ext.power, Ext.upperEnd, End.pow]

/-- The powers of the values on one side of zero. -/
theorem below_lower_power (hn : n % 2 = 0) (hn0 : n ≠ 0) (hp : i.lowerIsPos = false) {x : ℝ}
    (hx : x ∈ i.values) (hx0 : x ≤ 0) : (i.lowerEnd.neg.pow n).Below (x ^ n) := by
  rw [← (Nat.even_iff.mpr hn).neg_pow x]
  refine (End.below_pow hn0 (lower_nonpos hp) (neg_nonneg.mpr hx0)).mpr ?_
  rw [End.neg_below]
  exact hx.1

theorem below_upper_power (hn0 : n ≠ 0) (hu : i.upperIsNeg = false) {x : ℝ} (hx : x ∈ i.values)
    (hx0 : 0 ≤ x) : (i.upperEnd.pow n).Below (x ^ n) :=
  (End.below_pow hn0 (upper_nonneg hu) hx0).mpr hx.2

theorem pow_pos_end {e : End ℝ} (he : e.Pos) (hn0 : n ≠ 0) : (e.pow n).Below (0 ^ n) := by
  refine (End.below_pow hn0 he.nonneg le_rfl).mpr ?_
  cases e with
  | inf => trivial
  | fin a o => exact End.below_of_lt he

/-- The powers end at `e` if those of a part do and the others stay within. -/
theorem endsAt_powers {s : Set ℝ} {e : End ℝ} (hs : s ⊆ i.values)
    (hpart : EndsAt ((· ^ n) '' s) e) (h : ∀ x ∈ i.values ∪ {0}, e.Below (x ^ n)) :
    EndsAt ((· ^ n) '' (i.values ∪ {0})) e := by
  have hu : (· ^ n) '' s ∪ (· ^ n) '' (i.values ∪ {0}) = (· ^ n) '' (i.values ∪ {0}) :=
    union_eq_self_of_subset_left (image_mono (hs.trans subset_union_left))
  rw [← hu]
  refine hpart.union ?_
  rintro _ ⟨x, hx, rfl⟩
  exact h x hx

theorem power_ne_minusInf (hn : n % 2 = 0) {a : Ext} : a.power n ≠ .minusInf := by
  cases a <;> simp [Ext.power, hn]

section Across

variable (hn : n % 2 = 0) (hn0 : n ≠ 0) (hi : i.values.Nonempty) (hp : i.lowerIsPos = false)
  (hu : i.upperIsNeg = false)
include hn hn0 hi hp hu

/-- The lower end decides. -/
theorem endsAt_lower_power (hl : larger (i.lowerKind.power n) i.lowerOpen (i.upperKind.power n)
    i.upperOpen = true) : EndsAt ((· ^ n) '' (i.values ∪ {0})) (i.lowerEnd.neg.pow n) := by
  have hneg : i.lowerKind.isNeg = true := by
    cases hlo : i.lower with
    | none => simp [lowerKind, hlo, Ext.isNeg]
    | some a =>
      have ha : a ≤ 0 := by simpa [lowerIsPos, lowerKind, hlo, Ext.isPos] using hp
      rcases ha.lt_or_eq with h | rfl
      · simpa [lowerKind, hlo, Ext.isNeg] using h
      · -- at zero it would not be the larger one
        rw [lowerKind_some hlo, Ext.power, zero_pow hn0] at hl
        cases hup : i.upper with
        | none => simp [upperKind, hup, larger, Ext.gt, Ext.lt, Ext.power] at hl
        | some b =>
          have hb : 0 ≤ b := by simpa [upperIsNeg, upperKind, hup, Ext.isNeg] using hu
          simp only [upperKind_some hup, larger, Ext.power, Ext.gt, Ext.lt,
            (pow_nonneg hb n).not_gt, decide_false, Bool.false_or, Bool.and_eq_true, beq_iff_eq,
            Ext.num.injEq, Bool.not_eq_true'] at hl
          obtain ⟨⟨h0, -⟩, huo⟩ := hl
          have hb0 : b = 0 := pow_eq_zero_iff hn0 |>.mp h0.symm
          obtain ⟨x, hx⟩ := hi
          have hx1 : ((0 : ℚ) : ℝ) ≤ x := (lowerEnd_some hlo ▸ hx.1 : (End.fin _ i.lowerOpen).Above x).le
          have hx2 := hx.2
          rw [upperEnd_some hup, huo, hb0] at hx2
          exact absurd (End.open_below.mp hx2) hx1.not_gt
  have hpart := ((startsAt hi).nonpos_part (lowerEnd_neg_pos hneg)).neg
  have hpow := hpart.pow hn0 (neg_nonneg_of fun x hx => hx.2) (lowerEnd_neg_pos hneg).nonneg
    hpart.nonempty
  rw [image_pow_neg (Nat.even_iff.mpr hn)] at hpow
  refine endsAt_powers inter_subset_left hpow ?_
  rintro x (hx | rfl)
  · rcases le_total x 0 with h | h
    · exact below_lower_power hn hn0 hp hx h
    · rw [← lowerKind_power hn]
      exact below_of_larger (power_ne_minusInf hn) (power_ne_minusInf hn) hl
        (upperKind_power ▸ below_upper_power hn0 hu hx h)
  · exact pow_pos_end (lowerEnd_neg_pos hneg) hn0

/-- The upper end decides. -/
theorem endsAt_upper_power (hl : larger (i.lowerKind.power n) i.lowerOpen (i.upperKind.power n)
    i.upperOpen = false) : EndsAt ((· ^ n) '' (i.values ∪ {0})) (i.upperEnd.pow n) := by
  cases hz : i.isZero with
  | true =>
    have hup : i.upper = some 0 := (ends_of_isZero hz).2
    have he := endsAt hi
    rw [upperEnd_some hup] at he ⊢
    rw [values_of_isZero hi hz] at he ⊢
    rw [show (0 : Set ℝ) = {0} from rfl] at he ⊢
    rw [union_self, image_singleton, zero_pow hn0]
    simpa [End.pow, zero_pow hn0] using he
  | false =>
    have hpos : i.upperKind.isPos = true := by
      cases hup : i.upper with
      | none => simp [upperKind, hup, Ext.isPos]
      | some b =>
        have hb : 0 ≤ b := by simpa [upperIsNeg, upperKind, hup, Ext.isNeg] using hu
        rcases hb.lt_or_eq with h | rfl
        · simpa [upperKind, hup, Ext.isPos] using h
        · -- at zero the lower end would be the larger one
          rw [upperKind_some hup, Ext.power, zero_pow hn0] at hl
          cases hlo : i.lower with
          | none => simp [lowerKind, hlo, larger, Ext.gt, Ext.lt, Ext.power, hn] at hl
          | some a =>
            have ha : a ≠ 0 := by
              rintro rfl
              simp [isZero, lowerIsZero, upperIsZero, lowerKind, upperKind, hlo, hup,
                Ext.isZero] at hz
            have hpow : 0 < a ^ n := (Nat.even_iff.mpr hn).pow_pos ha
            simp [lowerKind_some hlo, larger, Ext.gt, Ext.lt, Ext.power, hpow] at hl
    have hpart := (endsAt hi).nonneg_part (Ext.upperEnd_pos hpos i.upperOpen)
    have hpow := hpart.pow hn0 (fun x hx => hx.2) (Ext.upperEnd_pos hpos i.upperOpen).nonneg
      hpart.nonempty
    refine endsAt_powers inter_subset_left hpow ?_
    rintro x (hx | rfl)
    · rcases le_total x 0 with h | h
      · rw [← upperKind_power]
        exact below_of_not_larger (power_ne_minusInf hn) (power_ne_minusInf hn) hl
          (lowerKind_power hn ▸ below_lower_power hn hn0 hp hx h)
      · exact below_upper_power hn0 hu hx h
    · exact pow_pos_end (Ext.upperEnd_pos hpos i.upperOpen) hn0

end Across

/-- Across zero, the larger power of an end decides; zero is added. -/
theorem power_values_across (hn : n % 2 = 0) (hn0 : n ≠ 0) (hi : i.values.Nonempty)
    (hp : i.lowerIsPos = false) (hu : i.upperIsNeg = false) :
    (power i n).values = (· ^ n) '' (i.values ∪ {0}) := by
  have h1 : n ≠ 1 := by omega
  have hl : (power i n).lowerEnd = .fin 0 false := by
    simp only [power, h1, hn, hp, hu, Bool.false_eq_true, if_false, if_true]
    split <;> simp [Ext.lowerEnd]
  have hs : StartsAt ((· ^ n) '' (i.values ∪ {0})) (.fin 0 false) := by
    refine ⟨?_, fun v hv => ⟨0, ⟨0, .inr rfl, zero_pow hn0⟩, End.closed_above.mp hv⟩⟩
    rintro _ ⟨x, -, rfl⟩
    exact End.closed_above.mpr ((Nat.even_iff.mpr hn).pow_nonneg x)
  refine values_eq (ordConnected_pow (ordConnected_zero hp hu)) (hl ▸ hs) ?_
  simp only [power, h1, hn, hp, hu, Bool.false_eq_true, if_false, if_true]
  split
  · next h =>
    rw [of_upperEnd, lowerKind_power hn]
    exact endsAt_lower_power hn hn0 hi hp hu h
  · next h =>
    rw [of_upperEnd, upperKind_power]
    exact endsAt_upper_power hn hn0 hi hp hu (Bool.eq_false_iff.mpr h)

/-- If zero is missing, it is an end. -/
theorem zero_end (hp : i.lowerIsPos = false) (hu : i.upperIsNeg = false)
    (h0 : (0 : ℝ) ∉ i.values) : i.lower = some 0 ∨ i.upper = some 0 := by
  by_contra hne
  push Not at hne
  refine h0 ⟨?_, ?_⟩
  · cases hl : i.lower with
    | none => simp [lowerEnd, lowerKind, hl, Ext.lowerEnd]
    | some a =>
      have ha : a ≤ 0 := by simpa [lowerIsPos, lowerKind, hl, Ext.isPos] using hp
      have ha0 : a ≠ 0 := fun h => hne.1 (by rw [hl, h])
      rw [lowerEnd_some hl]
      exact End.above_of_lt (Rat.cast_lt_zero.mpr (lt_of_le_of_ne ha ha0))
  · cases hup : i.upper with
    | none => simp [upperEnd, upperKind, hup, Ext.upperEnd]
    | some b =>
      have hb : 0 ≤ b := by simpa [upperIsNeg, upperKind, hup, Ext.isNeg] using hu
      have hb0 : b ≠ 0 := fun h => hne.2 (by rw [hup, h])
      rw [upperEnd_some hup]
      exact End.below_of_lt (Rat.cast_pos.mpr (lt_of_le_of_ne hb (Ne.symm hb0)))

/-- The values of a power: the powers of the values, and zero if it is an end
of the interval and the exponent is even. -/
theorem mem_power (hn0 : n ≠ 0) (hi : i.values.Nonempty) {v : ℝ} :
    v ∈ (power i n).values ↔ (∃ x ∈ i.values, x ^ n = v) ∨
      v = 0 ∧ n % 2 = 0 ∧ (i.lower = some 0 ∨ i.upper = some 0) := by
  by_cases hn : n % 2 = 0
  · cases hp : i.lowerIsPos with
    | true =>
      obtain ⟨a, ha, ha0⟩ := lower_of_isPos hp
      have hend : ¬(i.lower = some 0 ∨ i.upper = some 0) := by
        rintro (h | h)
        · exact ha0.ne' (Option.some.inj (ha.symm.trans h))
        · exact ha0.not_ge (le_of_nonempty hi ha h)
      rw [power_values_pos hn hn0 hi hp]
      exact ⟨.inl, fun h => h.elim id fun h => absurd h.2.2 hend⟩
    | false =>
      cases hu : i.upperIsNeg with
      | true =>
        obtain ⟨b, hb, hb0⟩ := upper_of_isNeg hu
        have hend : ¬(i.lower = some 0 ∨ i.upper = some 0) := by
          rintro (h | h)
          · exact hb0.not_ge (le_of_nonempty hi h hb)
          · exact hb0.ne (Option.some.inj (hb.symm.trans h))
        rw [power_values_neg hn hn0 hi hu hp]
        exact ⟨.inl, fun h => h.elim id fun h => absurd h.2.2 hend⟩
      | false =>
        rw [power_values_across hn hn0 hi hp hu]
        constructor
        · rintro ⟨x, hx | rfl, rfl⟩
          · exact .inl ⟨x, hx, rfl⟩
          · by_cases h0 : (0 : ℝ) ∈ i.values
            · exact .inl ⟨0, h0, rfl⟩
            · exact .inr ⟨zero_pow hn0, hn, zero_end hp hu h0⟩
        · rintro (⟨x, hx, rfl⟩ | ⟨rfl, -, -⟩)
          · exact ⟨x, .inl hx, rfl⟩
          · exact ⟨0, .inr rfl, zero_pow hn0⟩
  · rw [power_values_odd (Nat.odd_iff.mpr (by omega)) hi]
    exact ⟨.inl, fun h => h.elim id fun h => absurd h.2.1 hn⟩

theorem power_settled (hi : i.Settled) (n : Nat) : (power i n).Settled := by
  have inf : ∀ {a : Ext}, (a.power n).isInfinite = true → a.isInfinite = true := by
    intro a h
    cases a with
    | num a => simp [Ext.power, Ext.isInfinite] at h
    | _ => rfl
  simp only [power]
  split
  · exact hi
  split
  · split
    · split
      · exact ⟨by simp, fun _ => rfl⟩
      · exact ⟨by simp, by simp⟩
    · split
      · split
        · exact ⟨by simp, fun _ => rfl⟩
        · exact ⟨by simp, by simp⟩
      · split
        · exact of_settled (by simp [Ext.isInfinite]) fun h => hi.lowerOpen (inf h)
        · exact of_settled (by simp [Ext.isInfinite]) fun h => hi.upperOpen (inf h)
  · constructor
    · intro h
      simp only [Option.map_eq_none_iff] at h
      simp [h]
    · intro h
      simp only [Option.map_eq_none_iff] at h
      simp [h]

end MutableInterval

end AriParti.L1
