import Mathlib.Analysis.SpecialFunctions.Pow.Real
import AriParti.Core.Ends

/-!
# Ends of powers

The ends of the powers of a set of reals: for odd exponents the powers of its
ends, for even ones as well on the right of zero, and the same again on the
left because the sign is forgotten.

## Results

* `StartsAt.pow`, `EndsAt.pow`, `StartsAt.pow_odd`, `EndsAt.pow_odd`.
* `image_pow_neg`: even powers of the opposite numbers.
* `ordConnected_pow`: powers of a set without gaps have no gaps.
-/
namespace AriParti.Core

open Set Pointwise

variable {s : Set ℝ} {n : Nat} {v : ℝ}

theorem exists_root (hv : 0 ≤ v) (hn : n ≠ 0) : ∃ w, 0 ≤ w ∧ w ^ n = v :=
  ⟨v ^ (n : ℝ)⁻¹, Real.rpow_nonneg hv _, Real.rpow_inv_natCast_pow hv hn⟩

theorem exists_root_odd (hn : Odd n) : ∃ w, w ^ n = v := by
  rcases le_total 0 v with h | h
  · exact (exists_root h hn.pos.ne').imp fun _ hw => hw.2
  · obtain ⟨w, -, hw⟩ := exists_root (neg_nonneg.mpr h) hn.pos.ne'
    exact ⟨-w, by rw [hn.neg_pow, hw, neg_neg]⟩

namespace End

/-- The end at the power. -/
def pow (n : Nat) : End ℝ → End ℝ
  | inf => inf
  | fin a o => fin (a ^ n) o

/-- Not on the left of zero. -/
def Nonneg : End ℝ → Prop
  | inf => True
  | fin a _ => 0 ≤ a

theorem Pos.nonneg {e : End ℝ} (h : e.Pos) : e.Nonneg := by
  cases e with
  | inf => trivial
  | fin a o => exact le_of_lt h

variable {e : End ℝ}

theorem above_pow_odd (hn : Odd n) : (e.pow n).Above (v ^ n) ↔ e.Above v := by
  cases e with
  | inf => simp [pow]
  | fin a o => cases o <;> simp [pow, hn.strictMono_pow.le_iff_le, hn.strictMono_pow.lt_iff_lt]

theorem below_pow_odd (hn : Odd n) : (e.pow n).Below (v ^ n) ↔ e.Below v := by
  cases e with
  | inf => simp [pow]
  | fin a o => cases o <;> simp [pow, hn.strictMono_pow.le_iff_le, hn.strictMono_pow.lt_iff_lt]

theorem above_pow (hn : n ≠ 0) (he : e.Nonneg) (hv : 0 ≤ v) :
    (e.pow n).Above (v ^ n) ↔ e.Above v := by
  cases e with
  | inf => simp [pow]
  | fin a o => cases o <;> simp [pow, pow_le_pow_iff_left₀ he hv hn, pow_lt_pow_iff_left₀ he hv hn]

theorem below_pow (hn : n ≠ 0) (he : e.Nonneg) (hv : 0 ≤ v) :
    (e.pow n).Below (v ^ n) ↔ e.Below v := by
  cases e with
  | inf => simp [pow]
  | fin a o => cases o <;> simp [pow, pow_le_pow_iff_left₀ hv he hn, pow_lt_pow_iff_left₀ hv he hn]

end End

theorem StartsAt.pow {a : ℝ} {o : Bool} (hn : n ≠ 0) (hs0 : ∀ x ∈ s, 0 ≤ x) (ha : 0 ≤ a)
    (hs : StartsAt s (.fin a o)) : StartsAt ((· ^ n) '' s) (.fin (a ^ n) o) := by
  refine hs.image (fun x hx => (End.above_pow (e := .fin a o) hn ha (hs0 x hx)).mpr (hs.bound x hx)) ?_
  intro v hv
  obtain ⟨w, hw0, rfl⟩ := exists_root ((pow_nonneg ha n).trans hv.le) hn
  exact ⟨w, (End.above_pow (e := .fin a o) hn ha hw0).mp hv,
    fun x hx hxw => pow_le_pow_left₀ (hs0 x hx) hxw n⟩

theorem EndsAt.pow {e : End ℝ} (hn : n ≠ 0) (hs0 : ∀ x ∈ s, 0 ≤ x) (he : e.Nonneg)
    (hne : s.Nonempty) (hs : EndsAt s e) : EndsAt ((· ^ n) '' s) (e.pow n) := by
  refine hs.image (fun x hx => (End.below_pow hn he (hs0 x hx)).mpr (hs.bound x hx)) ?_
  intro v hv
  rcases le_total 0 v with h | h
  · obtain ⟨w, hw0, rfl⟩ := exists_root h hn
    exact ⟨w, (End.below_pow hn he hw0).mp hv, fun x hx hwx => pow_le_pow_left₀ hw0 hwx n⟩
  · obtain ⟨x, hx⟩ := hne
    exact ⟨x, hs.bound x hx, fun y hy _ => h.trans (pow_nonneg (hs0 y hy) n)⟩

theorem StartsAt.pow_odd {e : End ℝ} (hn : Odd n) (hs : StartsAt s e) :
    StartsAt ((· ^ n) '' s) (e.pow n) := by
  refine hs.image (fun x hx => (End.above_pow_odd hn).mpr (hs.bound x hx)) fun v hv => ?_
  obtain ⟨w, rfl⟩ := exists_root_odd (v := v) hn
  exact ⟨w, (End.above_pow_odd hn).mp hv, fun x _ hxw => hn.strictMono_pow.monotone hxw⟩

theorem EndsAt.pow_odd {e : End ℝ} (hn : Odd n) (hs : EndsAt s e) :
    EndsAt ((· ^ n) '' s) (e.pow n) := by
  refine hs.image (fun x hx => (End.below_pow_odd hn).mpr (hs.bound x hx)) fun v hv => ?_
  obtain ⟨w, rfl⟩ := exists_root_odd (v := v) hn
  exact ⟨w, (End.below_pow_odd hn).mp hv, fun x _ hwx => hn.strictMono_pow.monotone hwx⟩

theorem ordConnected_pow (hs : s.OrdConnected) : ((· ^ n) '' s).OrdConnected :=
  (hs.isPreconnected.image _ (continuous_pow n).continuousOn).ordConnected

/-- Even powers forget the sign. -/
theorem image_pow_neg (hn : Even n) (s : Set ℝ) : (· ^ n) '' (-s) = (· ^ n) '' s := by
  ext v
  constructor
  · rintro ⟨x, hx, rfl⟩
    exact ⟨-x, hx, hn.neg_pow x⟩
  · rintro ⟨x, hx, rfl⟩
    exact ⟨-x, by simpa using hx, hn.neg_pow x⟩

end AriParti.Core
