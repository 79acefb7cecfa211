import Mathlib.Algebra.Order.Floor.Semiring
import Mathlib.Algebra.Order.Ring.Pow
import Mathlib.Tactic.Ring
import Mathlib.Topology.Instances.Real.Lemmas
import Mathlib.Topology.Order.IntermediateValue
import AriParti.L1Arith.Power

/-!
# Roots

`interval_manager::nth_root` brackets the n-th root of a number with Newton's
iteration, stopped when two approximations differ by less than `p`, and
`xn_eq_y` encloses the solutions of `x ^ n = y`.

One round leaves the approximation on or above the root (Bernoulli's
inequality) and lowers it from then on, by `p` or more unless the loop stops.
So it stops (`rootFuel`), and the last approximation with its counterpart
`A / x ^ (n - 1)` brackets the root, whatever it was started with. The test
for a wrong guess in `nth_root_pos` never finds one.

`checkpoint` (cancellation) is left out. The loop takes fuel, with a bound
under which it is never used up.

## Results

* `approxLoop_terminates`: the loop stops.
* `nthRoot_encloses`: the bracket holds the root, and how wide it is.
* `xnEqY_mem`: every solution is in the interval.
* `xnEqY_tight`: its ends are the roots of the ends of `y`, but for the width
  of a bracket.
-/
namespace AriParti.L1

open AriParti.Core Set

/-- mirrors mpq.cpp:313-317 -/
def prevPowerOfTwo (a : ℚ) : Nat := Nat.log2 ⌊a⌋.toNat

/-- mirrors interval_def.h:170-177 -/
def roughApproxNthRoot (a : ℚ) (n : Nat) : ℚ := 2 ^ (prevPowerOfTwo a / n)

/-- mirrors interval_def.h:221-243 -/
def aDivXN (A x : ℚ) (n : Nat) : ℚ := if n = 1 then A / x else A / x ^ n

/-- The body of the loop of `approx_nth_root`, which is written out for
square roots. -/
def newton (A : ℚ) (n : Nat) (x : ℚ) : ℚ :=
  if n = 2 then (x + A / x) / 2 else ((n - 1) * x + A / x ^ (n - 1)) / n

/-- The loop of `approx_nth_root`; `none` when the fuel is used up. -/
def approxLoop (A : ℚ) (n : Nat) (p : ℚ) : Nat → ℚ → Option ℚ
  | 0, _ => none
  | fuel + 1, x =>
    let x' := newton A n x
    if |x' - x| < p then some x' else approxLoop A n p fuel x'

/-- The value `approx_nth_root` starts with. -/
def rootStart (A : ℚ) (n : Nat) : ℚ := if A < 1 then A else roughApproxNthRoot A n

/-- mirrors interval_def.h:255-323 -/
def approxNthRoot (A : ℚ) (n : Nat) (p : ℚ) (fuel : Nat) : Option ℚ :=
  approxLoop A n p fuel (rootStart A n)

/-- mirrors interval_def.h:326-375, for exact numerals -/
def nthRootPos (A : ℚ) (n : Nat) (p : ℚ) (fuel : Nat) : Option (ℚ × ℚ) :=
  (approxNthRoot A n p fuel).map fun hi =>
    let lo := aDivXN A hi (n - 1)
    if hi < lo then (hi, lo) else (lo, hi)

/-- mirrors interval_def.h:186-213 -/
def nthRoot (a : ℚ) (n : Nat) (p : ℚ) (fuel : Nat) : Option (ℚ × ℚ) :=
  if n = 1 ∨ a = 0 ∨ a = 1 ∨ a = -1 then some (a, a)
  else (nthRootPos |a| n p fuel).map fun r => if a < 0 then (-r.2, -r.1) else r

/-! ## Newton's iteration -/

variable {A p x : ℚ} {n : Nat}

theorem newton_eq (hn : 2 ≤ n) (A x : ℚ) :
    newton A n x = ((n - 1) * x + A / x ^ (n - 1)) / n := by
  unfold newton
  split
  · next h =>
    subst h
    norm_num
  · rfl

theorem aDivXN_eq (A x : ℚ) (n : Nat) : aDivXN A x n = A / x ^ n := by
  unfold aDivXN
  split
  · next h => rw [h, pow_one]
  · rfl

/-- The change one round makes, relative to `x`. -/
theorem newton_eq_mul (hn : 2 ≤ n) (hx : 0 < x) :
    newton A n x = x * (1 + (A / x ^ n - 1) / n) := by
  have hn0 : (n : ℚ) ≠ 0 := by positivity
  have hpow : x ^ n = x ^ (n - 1) * x := by rw [← pow_succ, Nat.sub_add_cancel (by omega)]
  rw [newton_eq hn, hpow]
  field_simp
  ring

theorem newton_pos (hn : 2 ≤ n) (hA : 0 < A) (hx : 0 < x) : 0 < newton A n x := by
  have h1 : (0 : ℚ) ≤ (n : ℚ) - 1 := by
    have : (2 : ℚ) ≤ n := by exact_mod_cast hn
    linarith
  have hn0 : (0 : ℚ) < n := by positivity
  rw [newton_eq hn]
  exact div_pos (add_pos_of_nonneg_of_pos (mul_nonneg h1 hx.le) (div_pos hA (pow_pos hx _))) hn0

/-- After one round the approximation is not below the root. -/
theorem le_newton_pow (hn : 2 ≤ n) (hA : 0 < A) (hx : 0 < x) : A ≤ newton A n x ^ n := by
  have hn0 : (0 : ℚ) < n := by positivity
  have hxn := pow_pos hx n
  have hn2 : (2 : ℚ) ≤ n := by exact_mod_cast hn
  have hq : 0 < A / x ^ n := div_pos hA hxn
  have hb : (-2 : ℚ) ≤ (A / x ^ n - 1) / n := by
    rw [le_div_iff₀ hn0]
    linarith
  have h := one_add_mul_le_pow hb n
  rw [mul_div_cancel₀ _ hn0.ne'] at h
  calc A = x ^ n * (1 + (A / x ^ n - 1)) := by field_simp; ring
    _ ≤ x ^ n * (1 + (A / x ^ n - 1) / n) ^ n := mul_le_mul_of_nonneg_left h hxn.le
    _ = newton A n x ^ n := by rw [newton_eq_mul hn hx, mul_pow]

/-- From above the root a round goes down. -/
theorem newton_le (hn : 2 ≤ n) (hx : 0 < x) (h : A ≤ x ^ n) : newton A n x ≤ x := by
  have hn0 : (0 : ℚ) < n := by positivity
  have hq : A / x ^ n ≤ 1 := (div_le_one (pow_pos hx n)).mpr h
  rw [newton_eq_mul hn hx]
  have : (A / x ^ n - 1) / n ≤ 0 := div_nonpos_of_nonpos_of_nonneg (by linarith) hn0.le
  nlinarith

theorem approxLoop_mono {fuel fuel' : Nat} {r : ℚ} (hf : fuel ≤ fuel')
    (h : approxLoop A n p fuel x = some r) : approxLoop A n p fuel' x = some r := by
  induction fuel generalizing fuel' x with
  | zero => cases h
  | succ f ih =>
    obtain ⟨f', rfl⟩ : ∃ f', fuel' = f' + 1 := ⟨fuel' - 1, by omega⟩
    simp only [approxLoop] at h ⊢
    split at h
    · next hc => rwa [if_pos hc]
    · next hc =>
      rw [if_neg hc]
      exact ih (by omega) h

/-- Above the root every round that does not end the loop takes off `p`. -/
theorem approxLoop_terminates (hn : 2 ≤ n) (hA : 0 < A) (fuel : Nat) (hx : 0 < x)
    (h : A ≤ x ^ n) (hf : x < fuel * p) : ∃ r, approxLoop A n p (fuel + 1) x = some r := by
  induction fuel generalizing x with
  | zero => simp only [Nat.cast_zero, zero_mul] at hf; exact absurd hf hx.not_gt
  | succ f ih =>
    rw [approxLoop]
    split
    · exact ⟨_, rfl⟩
    · next hc =>
      apply ih (newton_pos hn hA hx) (le_newton_pow hn hA hx)
      rw [abs_of_nonpos (sub_nonpos.mpr (newton_le hn hx h))] at hc
      push_cast at hf
      linarith

theorem rootStart_pos (hA : 0 < A) (n : Nat) : 0 < rootStart A n := by
  unfold rootStart
  split
  · exact hA
  · exact pow_pos two_pos _

/-- Rounds that are enough: the first one may go up, and each of the others
but the last takes off `p`. -/
def rootFuel (A : ℚ) (n : Nat) (p : ℚ) : Nat := ⌊newton A n (rootStart A n) / p⌋₊ + 3

theorem approxNthRoot_terminates (hn : 2 ≤ n) (hA : 0 < A) (hp : 0 < p) :
    ∃ r, approxNthRoot A n p (rootFuel A n p) = some r := by
  have hx := rootStart_pos hA n
  unfold approxNthRoot rootFuel
  rw [approxLoop]
  split
  · exact ⟨_, rfl⟩
  · apply approxLoop_terminates hn hA _ (newton_pos hn hA hx) (le_newton_pow hn hA hx)
    rw [← div_lt_iff₀ hp]
    push_cast
    exact Nat.lt_floor_add_one _

/-- A difference of powers against the difference of the bases. -/
theorem pow_sub_pow_le {r : ℚ} (hr : 0 < r) (hx : 0 < x) :
    r ^ n - x ^ n ≤ n * r ^ (n - 1) * (r - x) := by
  rcases Nat.eq_zero_or_pos n with rfl | hn
  · simp
  have hpow : r ^ n = r ^ (n - 1) * r := by rw [← pow_succ, Nat.sub_add_cancel hn]
  have h := one_add_mul_le_pow (a := x / r - 1) (by have := div_pos hx hr; linarith) n
  rw [add_sub_cancel, div_pow, le_div_iff₀ (pow_pos hr n)] at h
  have e : (1 + n * (x / r - 1)) * r ^ n = r ^ n - n * r ^ (n - 1) * (r - x) := by
    rw [hpow]
    field_simp
    ring
  linarith

/-- What the loop ends with: an upper bound whose counterpart is close. -/
structure IsRootBound (A : ℚ) (n : Nat) (p r : ℚ) : Prop where
  pos : 0 < r
  upper : A ≤ r ^ n
  close : r - A / r ^ (n - 1) < n * p

/-- The last round, from below or from above the root. -/
theorem newton_close (hn : 2 ≤ n) (hA : 0 < A) (hx : 0 < x) (h : |newton A n x - x| < p) :
    IsRootBound A n p (newton A n x) := by
  have hr := newton_pos hn hA hx
  have hu := le_newton_pow hn hA hx
  have hn0 : (0 : ℚ) < n := by positivity
  refine ⟨hr, hu, ?_⟩
  set r := newton A n x with hrdef
  have hr1 := pow_pos hr (n - 1)
  have hrn : r ^ n = r ^ (n - 1) * r := by rw [← pow_succ, Nat.sub_add_cancel (by omega)]
  rcases le_total (x ^ n) A with hxA | hxA
  · have h1 : r - A / r ^ (n - 1) ≤ n * (r - x) := by
      have h2 := pow_sub_pow_le (n := n) hr hx
      rw [sub_le_iff_le_add, ← sub_le_iff_le_add', le_div_iff₀ hr1]
      nlinarith
    have h2 : r - x < p := (le_abs_self _).trans_lt h
    nlinarith
  · have hle := newton_le hn hx hxA
    have hx1 := pow_pos hx (n - 1)
    have hmono : A / x ^ (n - 1) ≤ A / r ^ (n - 1) :=
      div_le_div_of_nonneg_left hA.le hr1 (pow_le_pow_left₀ hr.le hle _)
    have hAx : A / x ^ (n - 1) = n * r - (n - 1) * x := by
      rw [hrdef, newton_eq hn]
      field_simp
      ring
    have h2 : x - r < p := by
      rw [abs_sub_comm] at h
      exact (le_abs_self _).trans_lt h
    have hn1 : (1 : ℚ) ≤ n := by exact_mod_cast (by omega : 1 ≤ n)
    nlinarith

theorem approxLoop_spec (hn : 2 ≤ n) (hA : 0 < A) {fuel : Nat} {r : ℚ} (hx : 0 < x)
    (h : approxLoop A n p fuel x = some r) : IsRootBound A n p r := by
  induction fuel generalizing x with
  | zero => cases h
  | succ f ih =>
    rw [approxLoop] at h
    split at h
    · next hc =>
      cases h
      exact newton_close hn hA hx hc
    · exact ih (newton_pos hn hA hx) h

/-! ## The bracket -/

/-- `r` is a bracket of the n-th root of `a`, of width less than `n * p`. -/
structure IsBracket (a : ℚ) (n : Nat) (p : ℚ) (r : ℚ × ℚ) : Prop where
  lower : r.1 ^ n ≤ a
  upper : a ≤ r.2 ^ n
  le : r.1 ≤ r.2
  width : r.2 - r.1 < n * p

/-- The counterpart of an upper bound is a lower one. -/
theorem IsRootBound.bracket {r : ℚ} (hn : 1 ≤ n) (hA : 0 < A) (h : IsRootBound A n p r) :
    0 < A / r ^ (n - 1) ∧ IsBracket A n p (A / r ^ (n - 1), r) := by
  have hr1 := pow_pos h.pos (n - 1)
  have hrn : r ^ n = r ^ (n - 1) * r := by rw [← pow_succ, Nat.sub_add_cancel hn]
  refine ⟨div_pos hA hr1, ?_, h.upper, ?_, h.close⟩
  · have hAn : A ^ n = A ^ (n - 1) * A := by rw [← pow_succ, Nat.sub_add_cancel hn]
    rw [div_pow, ← pow_mul, div_le_iff₀ (pow_pos h.pos _), hAn, mul_comm, mul_comm (n - 1), pow_mul]
    exact mul_le_mul_of_nonneg_left (pow_le_pow_left₀ hA.le h.upper _) hA.le
  · rw [div_le_iff₀ hr1, mul_comm, ← hrn]
    exact h.upper

theorem nthRootPos_spec (hn : 2 ≤ n) (hA : 0 < A) (hp : 0 < p) :
    ∃ r, nthRootPos A n p (rootFuel A n p) = some r ∧ 0 < r.1 ∧ IsBracket A n p r := by
  obtain ⟨hi, hr⟩ := approxNthRoot_terminates hn hA hp
  have hb := approxLoop_spec hn hA (rootStart_pos hA n) hr
  obtain ⟨h0, h⟩ := hb.bracket (by omega) hA
  refine ⟨_, ?_, h0, h⟩
  rw [nthRootPos, hr, Option.map_some, aDivXN_eq]
  rw [if_neg h.le.not_gt]

/-- `nth_root` returns a bracket of the root, whatever its sign. -/
theorem nthRoot_spec (hn : 1 ≤ n) (hp : 0 < p) {a : ℚ} (ha : n % 2 = 0 → 0 ≤ a) :
    ∃ r, nthRoot a n p (rootFuel |a| n p) = some r ∧ IsBracket a n p r ∧ (0 ≤ a → 0 ≤ r.1) := by
  have hw : 0 < (n : ℚ) * p := mul_pos (by exact_mod_cast hn) hp
  unfold nthRoot
  by_cases h : n = 1 ∨ a = 0 ∨ a = 1 ∨ a = -1
  · have hpow : a ^ n = a := by
      rcases h with rfl | rfl | rfl | rfl
      · exact pow_one a
      · exact zero_pow (Nat.one_le_iff_ne_zero.mp hn)
      · exact one_pow n
      · have : Odd n := by
          rw [← Nat.not_even_iff_odd, Nat.even_iff]
          intro he
          exact absurd (ha he) (by norm_num)
        exact this.neg_one_pow
    rw [if_pos h]
    exact ⟨(a, a), rfl, ⟨hpow.le, hpow.ge, le_rfl, by simpa using hw⟩, id⟩
  · rw [if_neg h]
    push Not at h
    have hn2 : 2 ≤ n := Nat.lt_of_le_of_ne hn (Ne.symm h.1)
    obtain ⟨r, hr, h0, hb⟩ := nthRootPos_spec hn2 (abs_pos.mpr h.2.1) hp
    rw [hr, Option.map_some]
    by_cases hneg : a < 0
    · have hodd : Odd n := by
        rw [← Nat.not_even_iff_odd, Nat.even_iff]
        intro he
        exact absurd (ha he) hneg.not_ge
      rw [abs_of_neg hneg] at hb
      refine ⟨(-r.2, -r.1), by rw [if_pos hneg], ⟨?_, ?_, neg_le_neg hb.le, ?_⟩, ?_⟩
      · rw [hodd.neg_pow]
        linarith [hb.upper]
      · rw [hodd.neg_pow]
        linarith [hb.lower]
      · have := hb.width
        simp only
        linarith
      · intro h1
        exact absurd hneg h1.not_gt
    · rw [abs_of_nonneg (not_lt.mp hneg)] at hb
      exact ⟨r, by rw [if_neg hneg], hb, fun _ => h0.le⟩

/-- The root is in the bracket. -/
theorem IsBracket.root {a : ℚ} {r : ℚ × ℚ} (h : IsBracket a n p r) :
    ∃ w : ℝ, w ^ n = a ∧ (r.1 : ℝ) ≤ w ∧ w ≤ r.2 := by
  have hle : (r.1 : ℝ) ≤ r.2 := by exact_mod_cast h.le
  have hc : ContinuousOn (fun w : ℝ => w ^ n) (Icc (r.1 : ℝ) r.2) := (continuous_pow n).continuousOn
  have ha : (a : ℝ) ∈ Icc ((r.1 : ℝ) ^ n) ((r.2 : ℝ) ^ n) :=
    ⟨by exact_mod_cast h.lower, by exact_mod_cast h.upper⟩
  obtain ⟨w, hw, hwa⟩ := intermediate_value_Icc hle hc ha
  exact ⟨w, hwa, hw.1, hw.2⟩

/-- More fuel changes nothing. -/
theorem nthRoot_mono {fuel fuel' : Nat} {a : ℚ} {r : ℚ × ℚ} (hf : fuel ≤ fuel')
    (h : nthRoot a n p fuel = some r) : nthRoot a n p fuel' = some r := by
  unfold nthRoot at h ⊢
  split
  · rwa [if_pos ‹_›] at h
  · rw [if_neg ‹_›] at h
    unfold nthRootPos approxNthRoot at h ⊢
    rw [Option.map_map, Option.map_eq_some_iff] at h
    obtain ⟨hi, hloop, hr⟩ := h
    rw [Option.map_map, Option.map_eq_some_iff]
    exact ⟨hi, approxLoop_mono hf hloop, hr⟩

/-- `nth_root` stops, and the root is in what it returns, which is less than
`n * p` wide. -/
theorem nthRoot_encloses (hn : 1 ≤ n) (hp : 0 < p) {a : ℚ} (ha : n % 2 = 0 → 0 ≤ a) :
    ∃ (r : ℚ × ℚ) (w : ℝ), (∀ fuel ≥ rootFuel |a| n p, nthRoot a n p fuel = some r) ∧
      w ^ n = a ∧ (0 ≤ a → 0 ≤ w) ∧ (r.1 : ℝ) ≤ w ∧ w ≤ r.2 ∧ r.2 - r.1 < n * p := by
  obtain ⟨r, hr, hb, h0⟩ := nthRoot_spec hn hp ha
  obtain ⟨w, hw, hlo, hup⟩ := hb.root
  refine ⟨r, w, fun fuel hf => nthRoot_mono hf hr, hw, ?_, hlo, hup, hb.width⟩
  intro h
  have hr0 : (0 : ℝ) ≤ r.1 := by exact_mod_cast h0 h
  exact hr0.trans hlo

/-- The cube root of -10, to within 3/64. -/
theorem nthRoot_encloses_cube : ∃ (r : ℚ × ℚ) (w : ℝ),
    (∀ fuel ≥ rootFuel |-10| 3 (1 / 64), nthRoot (-10) 3 (1 / 64) fuel = some r) ∧
      w ^ 3 = (-10 : ℚ) ∧ ((0 : ℚ) ≤ -10 → 0 ≤ w) ∧ (r.1 : ℝ) ≤ w ∧ w ≤ r.2 ∧
      r.2 - r.1 < (3 : ℕ) * (1 / 64) :=
  nthRoot_encloses (by decide) (by norm_num) (by decide)

/-- The bracket `nth_root` leaves in `lo` and `hi`. -/
def rootBracket (a : ℚ) (n : Nat) (p : ℚ) : ℚ × ℚ :=
  (nthRoot a n p (rootFuel |a| n p)).getD (a, a)

theorem rootBracket_spec (hn : 1 ≤ n) (hp : 0 < p) {a : ℚ} (ha : n % 2 = 0 → 0 ≤ a) :
    IsBracket a n p (rootBracket a n p) ∧ (0 ≤ a → 0 ≤ (rootBracket a n p).1) := by
  obtain ⟨r, hr, h⟩ := nthRoot_spec hn hp ha
  rw [rootBracket, hr]
  exact h

/-! ## Roots of intervals -/

namespace MutableInterval

/-- mirrors interval_def.h:1400-1437 -/
def nthRoot (i : MutableInterval) (n : Nat) (p : ℚ) : MutableInterval :=
  if n = 1 then i
  else
    let isExact (a : ℚ) : Bool := (rootBracket a n p).1 == (rootBracket a n p).2
    { lower := i.lower.map fun a => (rootBracket a n p).1
      lowerOpen := i.lower.elim true fun a => i.lowerOpen && isExact a
      upper := i.upper.map fun a => (rootBracket a n p).2
      upperOpen := i.upper.elim true fun a => i.upperOpen && isExact a }

/-- mirrors interval_def.h:1454-1487 -/
def xnEqY (y : MutableInterval) (n : Nat) (p : ℚ) : MutableInterval :=
  if n % 2 = 0 then
    match y.upper with
    | none => reset
    | some u =>
      let r := rootBracket u n p
      let isOpen := y.upperOpen && r.1 == r.2
      ⟨some (-r.2), isOpen, some r.2, isOpen⟩
  else nthRoot y n p

variable {i : MutableInterval} {v : ℝ}

theorem cast_bracket {a : ℚ} {r : ℚ × ℚ} (h : IsBracket a n p r) :
    (r.1 : ℝ) ^ n ≤ a ∧ (a : ℝ) ≤ (r.2 : ℝ) ^ n :=
  ⟨by exact_mod_cast h.lower, by exact_mod_cast h.upper⟩

/-- A power within an upper end has its base within the upper end of the
bracket; `f` is the base up to its sign. -/
theorem below_root {f : ℝ} {u : ℚ} {o : Bool} {r : ℚ × ℚ} (h : IsBracket u n p r)
    (hle : v ^ n ≤ (r.2 : ℝ) ^ n → f ≤ r.2) (hlt : v ^ n < (r.2 : ℝ) ^ n → f < r.2)
    (hv : (End.fin (u : ℝ) o).Below (v ^ n)) :
    (End.fin (r.2 : ℝ) (o && r.1 == r.2)).Below f := by
  have hu := (cast_bracket h).2
  cases ho : o && r.1 == r.2 with
  | false => exact End.closed_below.mpr (hle (hv.le.trans hu))
  | true =>
    obtain ⟨rfl, -⟩ := Bool.and_eq_true_iff.mp ho
    exact End.open_below.mpr (hlt ((End.open_below.mp hv).trans_le hu))

theorem above_root_odd {a : ℚ} {o : Bool} {r : ℚ × ℚ} (hn : Odd n) (h : IsBracket a n p r)
    (hv : (End.fin (a : ℝ) o).Above (v ^ n)) :
    (End.fin (r.1 : ℝ) (o && r.1 == r.2)).Above v := by
  have hl := (cast_bracket h).1
  cases ho : o && r.1 == r.2 with
  | false => exact End.closed_above.mpr (hn.strictMono_pow.le_iff_le.mp (hl.trans hv.le))
  | true =>
    obtain ⟨rfl, -⟩ := Bool.and_eq_true_iff.mp ho
    exact End.open_above.mpr
      (hn.strictMono_pow.lt_iff_lt.mp (hl.trans_lt (End.open_above.mp hv)))

theorem nthRoot_mem (hn : Odd n) (hp : 0 < p) (hv : v ^ n ∈ i.values) :
    v ∈ (nthRoot i n p).values := by
  have hb : ∀ a, IsBracket a n p (rootBracket a n p) := fun a =>
    (rootBracket_spec hn.pos hp fun he => absurd he (by rw [Nat.odd_iff.mp hn]; decide)).1
  by_cases h1 : n = 1
  · subst h1
    simpa [nthRoot] using hv
  · obtain ⟨hlo, hup⟩ := hv
    constructor
    · cases hl : i.lower with
      | none => simp [nthRoot, h1, hl, lowerEnd, lowerKind, Ext.lowerEnd]
      | some a =>
        rw [lowerEnd_some hl] at hlo
        simpa [nthRoot, h1, hl, lowerEnd, lowerKind, Ext.lowerEnd] using
          above_root_odd hn (hb a) hlo
    · cases hu : i.upper with
      | none => simp [nthRoot, h1, hu, upperEnd, upperKind, Ext.upperEnd]
      | some b =>
        rw [upperEnd_some hu] at hup
        simpa [nthRoot, h1, hu, upperEnd, upperKind, Ext.upperEnd] using
          below_root (f := v) (hb b) hn.strictMono_pow.le_iff_le.mp
            hn.strictMono_pow.lt_iff_lt.mp hup

theorem reset_values : reset.values = univ := by
  ext v
  simp [values, reset, lowerEnd, upperEnd, lowerKind, upperKind, Ext.lowerEnd, Ext.upperEnd]

/-- The solutions of `x ^ n = y` are in the interval. -/
theorem xnEqY_mem (hn : 0 < n) (hp : 0 < p) (hv : v ^ n ∈ i.values) :
    v ∈ (xnEqY i n p).values := by
  by_cases h2 : n % 2 = 0
  · have he := Nat.even_iff.mpr h2
    cases hu : i.upper with
    | none => simp [xnEqY, h2, hu, reset_values]
    | some u =>
      have hup := hv.2
      rw [upperEnd_some hu] at hup
      have hu0 : 0 ≤ u := by
        have : (0 : ℝ) ≤ u := (he.pow_nonneg v).trans hup.le
        exact_mod_cast this
      obtain ⟨hb, h0⟩ := rootBracket_spec (a := u) hn hp fun _ => hu0
      have hr0 : (0 : ℝ) ≤ (rootBracket u n p).2 := by exact_mod_cast (h0 hu0).trans hb.le
      have habs : |v| ^ n = v ^ n := he.pow_abs v
      have hbelow := below_root (f := |v|) hb
        (fun h => (pow_le_pow_iff_left₀ (abs_nonneg v) hr0 hn.ne').mp (habs.trans_le h))
        (fun h => (pow_lt_pow_iff_left₀ (abs_nonneg v) hr0 hn.ne').mp (habs.trans_lt h)) hup
      rw [xnEqY, if_pos h2, hu]
      constructor
      · have := hbelow.mono (neg_le_abs v)
        rw [← End.above_neg] at this
        simpa [lowerEnd, lowerKind, Ext.lowerEnd, End.neg] using this
      · simpa [upperEnd, upperKind, Ext.upperEnd] using hbelow.mono (le_abs_self v)
  · rw [xnEqY, if_neg h2]
    exact nthRoot_mem (Nat.odd_iff.mpr (by omega)) hp hv

/-- `b` is a root of `a` or less than `n * p` beyond one, upwards where `s` is
1 and downwards where it is -1. -/
def BeyondRoot (n : Nat) (p a b : ℚ) (s : ℝ) : Prop :=
  ∃ w : ℝ, w ^ n = a ∧ (n % 2 = 0 → 0 ≤ s * w) ∧ s * w ≤ s * b ∧ s * b < s * w + n * p

/-- The upper end of a bracket. -/
theorem root_upper (hn : 1 ≤ n) (hp : 0 < p) {u : ℚ} (hu : n % 2 = 0 → 0 ≤ u) :
    BeyondRoot n p u (rootBracket u n p).2 1 := by
  obtain ⟨hb, h0⟩ := rootBracket_spec hn hp hu
  obtain ⟨w, hw, hlo, hup⟩ := hb.root
  have hwidth : ((rootBracket u n p).2 : ℝ) - (rootBracket u n p).1 < n * p := by
    exact_mod_cast hb.width
  refine ⟨w, hw, fun he => ?_, by linarith, by linarith⟩
  have hr0 : (0 : ℝ) ≤ (rootBracket u n p).1 := by exact_mod_cast h0 (hu he)
  linarith

theorem root_lower (hn : n % 2 = 1) (hp : 0 < p) (a : ℚ) :
    BeyondRoot n p a (rootBracket a n p).1 (-1) := by
  obtain ⟨hb, -⟩ := rootBracket_spec (a := a) (n := n) (by omega) hp fun he => by omega
  obtain ⟨w, hw, hlo, hup⟩ := hb.root
  have hwidth : ((rootBracket a n p).2 : ℝ) - (rootBracket a n p).1 < n * p := by
    exact_mod_cast hb.width
  exact ⟨w, hw, fun he => by omega, by linarith, by linarith⟩

/-- An upper end of an interval that is not negative. -/
theorem upper_nonneg_of (hi : i.values.Nonempty) (hl : i.lowerIsNeg = false) {u : ℚ}
    (hu : i.upper = some u) : 0 ≤ u := by
  obtain ⟨v, hlo, hup⟩ := hi
  cases ha : i.lower with
  | none => simp [lowerIsNeg, lowerKind, ha, Ext.isNeg] at hl
  | some a =>
    have ha0 : 0 ≤ a := by simpa [lowerIsNeg, lowerKind, ha, Ext.isNeg] using hl
    rw [lowerEnd_some ha] at hlo
    rw [upperEnd_some hu] at hup
    have h : (a : ℝ) ≤ u := hlo.le.trans hup.le
    exact ha0.trans (by exact_mod_cast h)

/-- The ends of the interval are on or outside the roots they stand for, by
less than `n * p`; for an even power both stand for roots of the upper end. -/
theorem xnEqY_tight (hn : 0 < n) (hp : 0 < p) (hi : i.values.Nonempty)
    (hl : n % 2 = 0 → i.lowerIsNeg = false) :
    (∀ v, v ^ n ∈ i.values → v ∈ (xnEqY i n p).values) ∧
      ((xnEqY i n p).upper.isSome = i.upper.isSome) ∧
      ((xnEqY i n p).lower.isSome = if n % 2 = 0 then i.upper.isSome else i.lower.isSome) ∧
      (∀ b, (xnEqY i n p).upper = some b → ∃ u, i.upper = some u ∧ BeyondRoot n p u b 1) ∧
      ∀ b, (xnEqY i n p).lower = some b →
        ∃ a, (if n % 2 = 0 then i.upper else i.lower) = some a ∧ BeyondRoot n p a b (-1) := by
  refine ⟨fun v hv => xnEqY_mem hn hp hv, ?_⟩
  by_cases h2 : n % 2 = 0
  · rw [if_pos h2, if_pos h2, xnEqY, if_pos h2]
    cases hu : i.upper with
    | none => simp [reset]
    | some u =>
      refine ⟨rfl, rfl, ?_, ?_⟩
      · intro b hb
        cases hb
        exact ⟨u, rfl, root_upper hn hp fun _ => upper_nonneg_of hi (hl h2) hu⟩
      · intro b hb
        cases hb
        obtain ⟨w, hw, h0, hle, hlt⟩ := root_upper (u := u) hn hp fun _ =>
          upper_nonneg_of hi (hl h2) hu
        refine ⟨u, rfl, -w, ?_, fun he => ?_, ?_, ?_⟩
        · rw [(Nat.even_iff.mpr h2).neg_pow, hw]
        · linarith [h0 he]
        · push_cast
          linarith
        · push_cast
          linarith
  · rw [if_neg h2, if_neg h2, xnEqY, if_neg h2]
    unfold nthRoot
    by_cases h1 : n = 1
    · rw [if_pos h1]
      have hnp : (0 : ℝ) < n * p := mul_pos (by exact_mod_cast hn) (by exact_mod_cast hp)
      have self : ∀ (a : ℚ) (s : ℝ), BeyondRoot n p a a s := fun a s =>
        ⟨a, by rw [h1, pow_one], fun he => absurd he h2, le_rfl, by linarith⟩
      exact ⟨rfl, rfl, fun b hb => ⟨b, hb, self b 1⟩, fun b hb => ⟨b, hb, self b (-1)⟩⟩
    · rw [if_neg h1]
      refine ⟨Option.isSome_map, Option.isSome_map, ?_, ?_⟩
      · intro b hb
        obtain ⟨u, hu, rfl⟩ := Option.map_eq_some_iff.mp hb
        exact ⟨u, hu, root_upper hn hp fun he => absurd he h2⟩
      · intro b hb
        obtain ⟨a, ha, rfl⟩ := Option.map_eq_some_iff.mp hb
        exact ⟨a, ha, root_lower (by omega) hp a⟩

/-- `x ^ 2` between 1 and 2. -/
theorem xnEqY_tight_square : let y : MutableInterval := ⟨some 1, false, some 2, true⟩
    (∀ v : ℝ, v ^ 2 ∈ y.values → v ∈ (xnEqY y 2 (1 / 64)).values) ∧
      ((xnEqY y 2 (1 / 64)).upper.isSome = y.upper.isSome) ∧
      ((xnEqY y 2 (1 / 64)).lower.isSome = if 2 % 2 = 0 then y.upper.isSome else y.lower.isSome) ∧
      (∀ b, (xnEqY y 2 (1 / 64)).upper = some b →
        ∃ u, y.upper = some u ∧ BeyondRoot 2 (1 / 64) u b 1) ∧
      ∀ b, (xnEqY y 2 (1 / 64)).lower = some b → ∃ a,
        (if 2 % 2 = 0 then y.upper else y.lower) = some a ∧ BeyondRoot 2 (1 / 64) a b (-1) := by
  refine xnEqY_tight (by decide) (by norm_num) ⟨1, ?_⟩ fun _ => by decide
  constructor
  · simp [lowerEnd, lowerKind, Ext.lowerEnd, End.closed_above]
  · simp [upperEnd, upperKind, Ext.upperEnd, End.open_below]

theorem xnEqY_settled (hi : i.Settled) : (xnEqY i n p).Settled := by
  unfold xnEqY
  split
  · split
    · exact reset_settled
    · exact ⟨nofun, nofun⟩
  · unfold nthRoot
    split
    · exact hi
    · constructor
      · intro h
        simp only [Option.map_eq_none_iff] at h
        simp [h]
      · intro h
        simp only [Option.map_eq_none_iff] at h
        simp [h]

end MutableInterval

end AriParti.L1
