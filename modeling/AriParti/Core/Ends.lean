import Mathlib.Algebra.Group.Pointwise.Set.Basic
import Mathlib.Algebra.Order.Field.Basic
import Mathlib.Algebra.Ring.Pointwise.Set
import Mathlib.Order.Interval.Set.OrdConnected
import Mathlib.Tactic.Linarith
import Mathlib.Tactic.FieldSimp

/-!
# Ends of intervals

The ends of a set of numbers: infinite, or at a value the set has (closed) or
only comes arbitrarily close to (open). `StartsAt s e` and `EndsAt s e` say
that `e` is exactly where `s` starts or ends, so a set without gaps is the
interval between its two ends (`mem_iff_between`).

An operation on sets is followed on their ends alone: sums, products of sets
with a known sign, reciprocals, unions. Everything is over an arbitrary
linearly ordered field.

## Results

* `startsAt_between`, `endsAt_between`: a nonempty interval has the ends it is
  written with.
* `StartsAt.add`, `EndsAt.mul_far`, `StartsAt.mul_near`: the ends of a sum and
  of a product.
* `EndsAt.inv`, `StartsAt.inv`: the ends of the reciprocals of positive numbers.
* `ordConnected_add`, `ordConnected_mul`, `ordConnected_inv`: the results have
  no gaps.
-/
namespace AriParti.Core

open Set Pointwise

/-- One end of an interval. -/
inductive End (α : Type*) where
  | inf
  | fin (a : α) (isOpen : Bool)

variable {α : Type*}

namespace End

/-- `v` is within the interval as far as its lower end `e` is concerned. -/
def Above [LinearOrder α] : End α → α → Prop
  | inf, _ => True
  | fin a o, v => if o then a < v else a ≤ v

/-- `v` is within the interval as far as its upper end `e` is concerned. -/
def Below [LinearOrder α] : End α → α → Prop
  | inf, _ => True
  | fin a o, v => if o then v < a else v ≤ a

section Order

variable [LinearOrder α] {a b v w : α} {o : Bool} {e : End α}

@[simp] theorem inf_above : (inf : End α).Above v := trivial

@[simp] theorem inf_below : (inf : End α).Below v := trivial

@[simp] theorem closed_above : (fin a false).Above v ↔ a ≤ v := by simp [Above]

@[simp] theorem open_above : (fin a true).Above v ↔ a < v := by simp [Above]

@[simp] theorem closed_below : (fin a false).Below v ↔ v ≤ a := by simp [Below]

@[simp] theorem open_below : (fin a true).Below v ↔ v < a := by simp [Below]

theorem Above.le (h : (fin a o).Above v) : a ≤ v := by
  cases o with
  | false => exact closed_above.mp h
  | true => exact (open_above.mp h).le

theorem Below.le (h : (fin a o).Below v) : v ≤ a := by
  cases o with
  | false => exact closed_below.mp h
  | true => exact (open_below.mp h).le

theorem above_of_lt (h : a < v) : (fin a o).Above v := by
  cases o with
  | false => exact closed_above.mpr h.le
  | true => exact open_above.mpr h

theorem below_of_lt (h : v < a) : (fin a o).Below v := by
  cases o with
  | false => exact closed_below.mpr h.le
  | true => exact open_below.mpr h

theorem Above.mono (h : e.Above v) (hw : v ≤ w) : e.Above w := by
  cases e with
  | inf => trivial
  | fin a o =>
    cases o with
    | false => exact closed_above.mpr ((closed_above.mp h).trans hw)
    | true => exact open_above.mpr ((open_above.mp h).trans_le hw)

theorem Below.mono (h : e.Below v) (hw : w ≤ v) : e.Below w := by
  cases e with
  | inf => trivial
  | fin a o =>
    cases o with
    | false => exact closed_below.mpr (hw.trans (closed_below.mp h))
    | true => exact open_below.mpr (hw.trans_lt (open_below.mp h))

end Order

/-- The end on the other side of the mirrored interval. -/
def neg [Neg α] : End α → End α
  | inf => inf
  | fin a o => fin (-a) o

/-- The sum of two ends. -/
def add [Add α] : End α → End α → End α
  | fin a o, fin b o' => fin (a + b) (o || o')
  | _, _ => inf

/-- The product of two ends. -/
def mul [Mul α] : End α → End α → End α
  | fin a o, fin b o' => fin (a * b) (o || o')
  | _, _ => inf

/-- The end at the reciprocal. -/
def inv [DivisionRing α] [DecidableEq α] : End α → End α
  | inf => fin 0 true
  | fin a o => if a = 0 then inf else fin a⁻¹ o

/-- Beyond zero, as an upper end. -/
def Pos [Zero α] [LT α] : End α → Prop
  | inf => True
  | fin a _ => 0 < a

/-- At zero, which belongs to the interval. -/
def IsZero [Zero α] : End α → Prop
  | inf => False
  | fin a o => a = 0 ∧ o = false

end End

/-- The set `s` starts at `e`. -/
structure StartsAt [LinearOrder α] (s : Set α) (e : End α) : Prop where
  bound : ∀ x ∈ s, e.Above x
  reach : ∀ v, e.Above v → ∃ x ∈ s, x ≤ v

/-- The set `s` ends at `e`. -/
structure EndsAt [LinearOrder α] (s : Set α) (e : End α) : Prop where
  bound : ∀ x ∈ s, e.Below x
  reach : ∀ v, e.Below v → ∃ x ∈ s, v ≤ x

/-! ## Sets and their ends -/

section Order

variable [LinearOrder α] {s t : Set α} {l u e e' : End α} {v : α}

/-- A set without gaps is the interval between its ends. -/
theorem mem_iff_between (hs : s.OrdConnected) (hl : StartsAt s l) (hu : EndsAt s u) :
    v ∈ s ↔ l.Above v ∧ u.Below v := by
  refine ⟨fun h => ⟨hl.bound v h, hu.bound v h⟩, fun ⟨ha, hb⟩ => ?_⟩
  obtain ⟨x, hx, hxv⟩ := hl.reach v ha
  obtain ⟨y, hy, hvy⟩ := hu.reach v hb
  exact hs.out hx hy ⟨hxv, hvy⟩

/-- A nonempty interval starts at its lower end. -/
theorem startsAt_between (h : ∃ x, l.Above x ∧ u.Below x) :
    StartsAt {v | l.Above v ∧ u.Below v} l := by
  obtain ⟨x, hx⟩ := h
  refine ⟨fun y hy => hy.1, fun v hv => ⟨min v x, ⟨?_, hx.2.mono (min_le_right v x)⟩,
    min_le_left v x⟩⟩
  rcases min_choice v x with h | h <;> rw [h]
  · exact hv
  · exact hx.1

theorem endsAt_between (h : ∃ x, l.Above x ∧ u.Below x) :
    EndsAt {v | l.Above v ∧ u.Below v} u := by
  obtain ⟨x, hx⟩ := h
  refine ⟨fun y hy => hy.2, fun v hv => ⟨max v x, ⟨hx.1.mono (le_max_right v x), ?_⟩,
    le_max_left v x⟩⟩
  rcases max_choice v x with h | h <;> rw [h]
  · exact hv
  · exact hx.2

theorem ordConnected_between : {v | l.Above v ∧ u.Below v}.OrdConnected :=
  ⟨fun _ hx _ hy _ hv => ⟨hx.1.mono hv.1, hy.2.mono hv.2⟩⟩

/-- A part that stays within the end changes nothing. -/
theorem EndsAt.union (h : EndsAt s e) (ht : ∀ x ∈ t, e.Below x) : EndsAt (s ∪ t) e := by
  refine ⟨fun x hx => hx.elim (h.bound x) (ht x), fun v hv => ?_⟩
  obtain ⟨x, hx, hvx⟩ := h.reach v hv
  exact ⟨x, .inl hx, hvx⟩

/-- The image under a function that follows the order near the lower end. -/
theorem StartsAt.image {f : α → α} (h : StartsAt s e) (hb : ∀ x ∈ s, e'.Above (f x))
    (hr : ∀ v, e'.Above v → ∃ w, e.Above w ∧ ∀ x ∈ s, x ≤ w → f x ≤ v) :
    StartsAt (f '' s) e' := by
  refine ⟨?_, fun v hv => ?_⟩
  · rintro _ ⟨x, hx, rfl⟩
    exact hb x hx
  · obtain ⟨w, hw, hf⟩ := hr v hv
    obtain ⟨x, hx, hxw⟩ := h.reach w hw
    exact ⟨f x, mem_image_of_mem f hx, hf x hx hxw⟩

theorem EndsAt.image {f : α → α} (h : EndsAt s e) (hb : ∀ x ∈ s, e'.Below (f x))
    (hr : ∀ v, e'.Below v → ∃ w, e.Below w ∧ ∀ x ∈ s, w ≤ x → v ≤ f x) :
    EndsAt (f '' s) e' := by
  refine ⟨?_, fun v hv => ?_⟩
  · rintro _ ⟨x, hx, rfl⟩
    exact hb x hx
  · obtain ⟨w, hw, hf⟩ := hr v hv
    obtain ⟨x, hx, hxw⟩ := h.reach w hw
    exact ⟨f x, mem_image_of_mem f hx, hf x hx hxw⟩

end Order

/-! ## Arithmetic -/

section Field

variable [Field α] [LinearOrder α] [IsStrictOrderedRing α] {s t : Set α} {a b e e' : End α}
  {x y v : α}

omit [LinearOrder α] [IsStrictOrderedRing α] in
@[simp] theorem End.neg_involutive : e.neg.neg = e := by
  cases e <;> simp [End.neg]

@[simp] theorem End.neg_above : e.neg.Above (-v) ↔ e.Below v := by
  cases e with
  | inf => simp [End.neg]
  | fin a o => cases o <;> simp [End.neg]

@[simp] theorem End.neg_below : e.neg.Below (-v) ↔ e.Above v := by
  cases e with
  | inf => simp [End.neg]
  | fin a o => cases o <;> simp [End.neg]

theorem End.above_neg : e.neg.Above v ↔ e.Below (-v) := by
  rw [← End.neg_above, neg_neg]

theorem End.below_neg : e.neg.Below v ↔ e.Above (-v) := by
  rw [← End.neg_below, neg_neg]

theorem StartsAt.neg (h : StartsAt s e) : EndsAt (-s) e.neg := by
  refine ⟨fun x hx => End.below_neg.mpr (h.bound (-x) hx), fun v hv => ?_⟩
  · rw [End.below_neg] at hv
    obtain ⟨x, hx, hxv⟩ := h.reach (-v) hv
    exact ⟨-x, by simpa using hx, le_neg_of_le_neg hxv⟩

theorem EndsAt.neg (h : EndsAt s e) : StartsAt (-s) e.neg := by
  refine ⟨fun x hx => End.above_neg.mpr (h.bound (-x) hx), fun v hv => ?_⟩
  · rw [End.above_neg] at hv
    obtain ⟨x, hx, hxv⟩ := h.reach (-v) hv
    exact ⟨-x, by simpa using hx, neg_le.mp hxv⟩

theorem StartsAt.nonempty (h : StartsAt s e) : s.Nonempty := by
  cases e with
  | inf => exact (h.reach 0 trivial).imp fun _ hx => hx.1
  | fin a o => exact (h.reach (a + 1) (End.above_of_lt (lt_add_one a))).imp fun _ hx => hx.1

/-- Close enough to both summands. -/
private theorem exists_summands (h : (a.add b).Above v) (hs : a ≠ .inf) (ht : b ≠ .inf) :
    ∃ x y, a.Above x ∧ b.Above y ∧ x + y ≤ v := by
  obtain ⟨a, o, rfl⟩ : ∃ a' o, a = .fin a' o := by
    cases a with
    | inf => exact absurd rfl hs
    | fin a o => exact ⟨a, o, rfl⟩
  obtain ⟨b, o', rfl⟩ : ∃ b' o, b = .fin b' o := by
    cases b with
    | inf => exact absurd rfl ht
    | fin b o => exact ⟨b, o, rfl⟩
  by_cases hlt : a + b < v
  · refine ⟨a + (v - (a + b)) / 2, b + (v - (a + b)) / 2, End.above_of_lt ?_,
      End.above_of_lt ?_, ?_⟩ <;> linarith
  · have hle := End.Above.le h
    cases o with
    | true => exact absurd (End.open_above.mp h) hlt
    | false =>
      cases o' with
      | true => exact absurd (End.open_above.mp h) hlt
      | false => exact ⟨a, b, End.closed_above.mpr le_rfl, End.closed_above.mpr le_rfl, hle⟩

/-- Where a sum starts. -/
theorem StartsAt.add (hs : StartsAt s a) (ht : StartsAt t b) : StartsAt (s + t) (a.add b) := by
  refine ⟨?_, fun v hv => ?_⟩
  · rintro _ ⟨x, hx, y, hy, rfl⟩
    have hax := hs.bound x hx
    have hby := ht.bound y hy
    cases a with
    | inf => trivial
    | fin a o =>
      cases b with
      | inf => trivial
      | fin b o' =>
        have h1 := hax.le
        have h2 := hby.le
        cases o with
        | true => exact End.above_of_lt (by linarith [End.open_above.mp hax])
        | false =>
          cases o' with
          | true => exact End.above_of_lt (by linarith [End.open_above.mp hby])
          | false => exact End.closed_above.mpr (by linarith)
  · by_cases h1 : a = .inf
    · subst h1
      obtain ⟨y, hy⟩ := ht.nonempty
      obtain ⟨x, hx, hxv⟩ := hs.reach (v - y) trivial
      exact ⟨x + y, add_mem_add hx hy, by linarith⟩
    · by_cases h2 : b = .inf
      · subst h2
        obtain ⟨x, hx⟩ := hs.nonempty
        obtain ⟨y, hy, hyv⟩ := ht.reach (v - x) trivial
        exact ⟨x + y, add_mem_add hx hy, by linarith⟩
      · obtain ⟨x', y', hx', hy', hv'⟩ := exists_summands hv h1 h2
        obtain ⟨x, hx, hxx⟩ := hs.reach x' hx'
        obtain ⟨y, hy, hyy⟩ := ht.reach y' hy'
        exact ⟨x + y, add_mem_add hx hy, by linarith⟩

omit [LinearOrder α] [IsStrictOrderedRing α] in
theorem End.neg_add : (a.add b).neg = a.neg.add b.neg := by
  cases a with
  | inf => rfl
  | fin a o =>
    cases b with
    | inf => rfl
    | fin b o' =>
      simp only [End.add, End.neg, End.fin.injEq, and_true]
      exact neg_add a b

theorem EndsAt.add (hs : EndsAt s a) (ht : EndsAt t b) : EndsAt (s + t) (a.add b) := by
  have h := (hs.neg.add ht.neg).neg
  rwa [← End.neg_add, End.neg_involutive, ← neg_add, neg_neg] at h

/-! ### Products -/

/-- Two positive numbers within their ends whose product is not below `v`. -/
private theorem exists_factors (ha : a.Pos) (hb : b.Pos) (hv : (a.mul b).Below v) (h0 : 0 < v) :
    ∃ x y, a.Below x ∧ b.Below y ∧ 0 < x ∧ 0 < y ∧ v ≤ x * y := by
  have inner : ∀ {e : End α}, e.Pos → ∃ x, e.Below x ∧ 0 < x := by
    intro e he
    cases e with
    | inf => exact ⟨1, trivial, one_pos⟩
    | fin c o => exact ⟨c / 2, End.below_of_lt (half_lt_self he), half_pos he⟩
  cases a with
  | inf =>
    obtain ⟨y, hy, hy0⟩ := inner hb
    exact ⟨v / y, y, trivial, hy, div_pos h0 hy0, hy0, (div_mul_cancel₀ v hy0.ne').ge⟩
  | fin a o =>
    cases b with
    | inf =>
      obtain ⟨x, hx, hx0⟩ := inner (e := .fin a o) ha
      exact ⟨x, v / x, hx, trivial, hx0, div_pos h0 hx0, (mul_div_cancel₀ v hx0.ne').ge⟩
    | fin b o' =>
      by_cases hlt : v < a * b
      · -- a factor strictly between `v / b` and `a`
        obtain ⟨x, hx1, hx2⟩ := exists_between ((div_lt_iff₀ hb).mpr hlt)
        have hx0 : 0 < x := (div_pos h0 hb).trans hx1
        refine ⟨x, v / x, End.below_of_lt hx2, End.below_of_lt ?_, hx0, div_pos h0 hx0,
          (mul_div_cancel₀ v hx0.ne').ge⟩
        rw [div_lt_iff₀ hx0, mul_comm]
        exact (div_lt_iff₀ hb).mp hx1
      · have hle := End.Below.le hv
        cases o with
        | true => exact absurd (End.open_below.mp hv) hlt
        | false =>
          cases o' with
          | true => exact absurd (End.open_below.mp hv) hlt
          | false => exact ⟨a, b, End.closed_below.mpr le_rfl, End.closed_below.mpr le_rfl, ha, hb, hle⟩

/-- Where the products end that have a nonnegative factor, if both factors go
beyond zero. -/
theorem EndsAt.mul_far (hs0 : ∀ x ∈ s, 0 ≤ x) (hs : EndsAt s a) (ht : EndsAt t b) (ha : a.Pos)
    (hb : b.Pos) : EndsAt (s * t) (a.mul b) := by
  refine ⟨?_, fun v hv => ?_⟩
  · rintro _ ⟨x, hx, y, hy, rfl⟩
    have hax := hs.bound x hx
    have hby := ht.bound y hy
    have hx0 := hs0 x hx
    cases a with
    | inf => trivial
    | fin a o =>
      cases b with
      | inf => trivial
      | fin b o' =>
        have h0 : 0 < a * b := mul_pos ha hb
        rcases le_or_gt y 0 with hy0 | hy0
        · exact End.below_of_lt ((mul_nonpos_of_nonneg_of_nonpos hx0 hy0).trans_lt h0)
        · cases o with
          | true =>
            refine End.below_of_lt ?_
            exact (mul_lt_mul_of_pos_right (End.open_below.mp hax) hy0).trans_le
              (mul_le_mul_of_nonneg_left hby.le ha.le)
          | false =>
            cases o' with
            | true =>
              refine End.below_of_lt ?_
              exact (mul_le_mul_of_nonneg_right hax.le hy0.le).trans_lt
                (mul_lt_mul_of_pos_left (End.open_below.mp hby) ha)
            | false =>
              exact End.closed_below.mpr (mul_le_mul hax.le hby.le hy0.le ha.le)
  · have zero : ∀ {e : End α}, e.Pos → e.Below 0 := by
      intro e he
      cases e with
      | inf => trivial
      | fin c o => exact End.below_of_lt he
    rcases le_or_gt v 0 with hv0 | hv0
    · obtain ⟨x, hx, hx0⟩ := hs.reach 0 (zero ha)
      obtain ⟨y, hy, hy0⟩ := ht.reach 0 (zero hb)
      exact ⟨x * y, mul_mem_mul hx hy, hv0.trans (mul_nonneg hx0 hy0)⟩
    · obtain ⟨x', y', hx', hy', hx0, hy0, hv'⟩ := exists_factors ha hb hv hv0
      obtain ⟨x, hx, hxx⟩ := hs.reach x' hx'
      obtain ⟨y, hy, hyy⟩ := ht.reach y' hy'
      exact ⟨x * y, mul_mem_mul hx hy, hv'.trans
        (mul_le_mul hxx hyy hy0.le (hx0.le.trans hxx))⟩

/-- Where the products of nonnegative numbers start: at zero if one factor
can be zero. -/
theorem StartsAt.mul_near_zero (hs0 : ∀ x ∈ s, 0 ≤ x) (ht0 : ∀ y ∈ t, 0 ≤ y)
    (hs : StartsAt s a) (ht : StartsAt t b) (h : a.IsZero ∨ b.IsZero) :
    StartsAt (s * t) (.fin 0 false) := by
  have zero : ∀ {u : Set α} {e : End α}, (∀ x ∈ u, 0 ≤ x) → StartsAt u e → e.IsZero → 0 ∈ u := by
    intro u e hu he h0
    cases e with
    | inf => exact h0.elim
    | fin c o =>
      obtain ⟨rfl, rfl⟩ := h0
      obtain ⟨x, hx, hx0⟩ := he.reach 0 (End.closed_above.mpr le_rfl)
      rwa [le_antisymm hx0 (hu x hx)] at hx
  refine ⟨?_, fun v hv => ?_⟩
  · rintro _ ⟨x, hx, y, hy, rfl⟩
    exact End.closed_above.mpr (mul_nonneg (hs0 x hx) (ht0 y hy))
  · have hv0 := End.closed_above.mp hv
    rcases h with h | h
    · obtain ⟨y, hy⟩ := ht.nonempty
      exact ⟨0 * y, mul_mem_mul (zero hs0 hs h) hy, by rwa [zero_mul]⟩
    · obtain ⟨x, hx⟩ := hs.nonempty
      exact ⟨x * 0, mul_mem_mul hx (zero ht0 ht h), by rwa [mul_zero]⟩

/-- Two numbers within their ends whose product is not above `v`. -/
private theorem exists_small_factors {c d : α} {o o' : Bool} (hc : 0 ≤ c) (hd : 0 ≤ d)
    (hv : (End.fin (c * d) (o || o')).Above v) :
    ∃ x y, (End.fin c o).Above x ∧ (End.fin d o').Above y ∧ 0 ≤ x ∧ x * y ≤ v := by
  by_cases hlt : c * d < v
  · -- a factor above `c` that still leaves room above `d`
    obtain ⟨x, hx1, hx2⟩ : ∃ x, c < x ∧ x * d < v := by
      rcases hd.eq_or_lt with rfl | hd0
      · exact ⟨c + 1, lt_add_one c, by simpa using hlt⟩
      · obtain ⟨x, h1, h2⟩ := exists_between ((lt_div_iff₀ hd0).mpr hlt)
        exact ⟨x, h1, (lt_div_iff₀ hd0).mp h2⟩
    have hx0 : 0 < x := hc.trans_lt hx1
    refine ⟨x, v / x, End.above_of_lt hx1, End.above_of_lt ?_, hx0.le,
      (mul_div_cancel₀ v hx0.ne').le⟩
    rwa [lt_div_iff₀ hx0, mul_comm]
  · have hle := End.Above.le hv
    cases o with
    | true => exact absurd (End.open_above.mp hv) hlt
    | false =>
      cases o' with
      | true => exact absurd (End.open_above.mp hv) hlt
      | false => exact ⟨c, d, End.closed_above.mpr le_rfl, End.closed_above.mpr le_rfl, hc, hle⟩

/-- Where the products of nonnegative numbers start, if no factor can be zero
or none is known to be. -/
theorem StartsAt.mul_near {c d : α} {o o' : Bool} (hc : 0 ≤ c) (hd : 0 ≤ d)
    (hs : StartsAt s (.fin c o)) (ht : StartsAt t (.fin d o'))
    (hs1 : ¬(End.fin c o).IsZero) (ht1 : ¬(End.fin d o').IsZero) :
    StartsAt (s * t) (.fin (c * d) (o || o')) := by
  refine ⟨?_, fun v hv => ?_⟩
  · rintro _ ⟨x, hx, y, hy, rfl⟩
    have hcx := hs.bound x hx
    have hdy := ht.bound y hy
    have pos : ∀ {k z : α} {o : Bool}, 0 ≤ k → ¬(End.fin k o).IsZero → (End.fin k o).Above z →
        0 < z := by
      intro k z o hk hk1 hz
      rcases hk.eq_or_lt with rfl | hk0
      · cases o with
        | false => exact absurd ⟨rfl, rfl⟩ hk1
        | true => exact End.open_above.mp hz
      · exact hk0.trans_le hz.le
    have hx0 := pos hc hs1 hcx
    have hy0 := pos hd ht1 hdy
    cases o with
    | true =>
      refine End.above_of_lt ((mul_le_mul_of_nonneg_left hdy.le hc).trans_lt ?_)
      exact mul_lt_mul_of_pos_right (End.open_above.mp hcx) hy0
    | false =>
      cases o' with
      | true =>
        refine End.above_of_lt ((mul_le_mul_of_nonneg_right hcx.le hd).trans_lt ?_)
        exact mul_lt_mul_of_pos_left (End.open_above.mp hdy) hx0
      | false => exact End.closed_above.mpr (mul_le_mul hcx.le hdy.le hd hx0.le)
  · obtain ⟨x', y', hx', hy', hx0, hv'⟩ := exists_small_factors hc hd hv
    obtain ⟨x, hx, hxx⟩ := hs.reach x' hx'
    obtain ⟨y, hy, hyy⟩ := ht.reach y' hy'
    have hy0 : 0 ≤ y := hd.trans (ht.bound y hy).le
    exact ⟨x * y, mul_mem_mul hx hy, (mul_le_mul hxx hyy hy0 hx0).trans hv'⟩

theorem EndsAt.nonempty (h : EndsAt s e) : s.Nonempty := Set.nonempty_neg.mp h.neg.nonempty

omit [IsStrictOrderedRing α] in
/-- The part of an interval across zero that lies on one side of it. -/
theorem EndsAt.nonneg_part (h : EndsAt s e) (he : e.Pos) :
    EndsAt (s ∩ {x | 0 ≤ x}) e := by
  refine ⟨fun x hx => h.bound x hx.1, fun v hv => ?_⟩
  have h0 : e.Below (max v 0) := by
    rcases max_choice v 0 with hm | hm <;> rw [hm]
    · exact hv
    · cases e with
      | inf => trivial
      | fin a o => exact End.below_of_lt he
  obtain ⟨x, hx, hvx⟩ := h.reach _ h0
  exact ⟨x, ⟨hx, (le_max_right v 0).trans hvx⟩, (le_max_left v 0).trans hvx⟩

theorem StartsAt.nonpos_part (h : StartsAt s e) (he : e.neg.Pos) :
    StartsAt (s ∩ {x | x ≤ 0}) e := by
  have h' := (h.neg.nonneg_part he).neg
  rw [End.neg_involutive, inter_neg, neg_neg] at h'
  convert h' using 2
  ext x
  simp

omit [IsStrictOrderedRing α] in
/-- The products, by the sign of the first factor. -/
theorem mul_split (s t : Set α) : s * t = s ∩ {x | x ≤ 0} * t ∪ s ∩ {x | 0 ≤ x} * t := by
  rw [← union_mul, ← inter_union_distrib_left]
  congr 1
  refine (inter_eq_left.mpr fun x _ => ?_).symm
  exact le_total x 0

/-! ### Reciprocals -/

/-- The reciprocals of positive numbers end where the numbers start. -/
theorem StartsAt.inv {c : α} {o : Bool} (hs0 : ∀ x ∈ s, 0 < x) (hs : StartsAt s (.fin c o))
    (hc : 0 ≤ c) : EndsAt s⁻¹ (End.fin c o).inv := by
  rcases hc.eq_or_lt with rfl | hc0
  · rw [show (End.fin (0 : α) o).inv = .inf from if_pos rfl]
    refine ⟨fun x _ => trivial, fun v _ => ?_⟩
    have hv : 0 < max v 1 := lt_max_of_lt_right one_pos
    obtain ⟨x, hx, hxv⟩ := hs.reach (max v 1)⁻¹ (End.above_of_lt (inv_pos.mpr hv))
    exact ⟨x⁻¹, inv_mem_inv.mpr hx,
      (le_max_left v 1).trans ((le_inv_comm₀ hv (hs0 x hx)).mpr hxv)⟩
  · rw [show (End.fin c o).inv = .fin c⁻¹ o from if_neg hc0.ne']
    refine ⟨fun x hx => ?_, fun v hv => ?_⟩
    · have hx0 : 0 < x := inv_pos.mp (hs0 _ hx)
      have h := hs.bound _ hx
      cases o with
      | false =>
        exact End.closed_below.mpr ((le_inv_comm₀ hx0 hc0).mpr (End.closed_above.mp h))
      | true => exact End.open_below.mpr ((lt_inv_comm₀ hx0 hc0).mpr (End.open_above.mp h))
    · have near : ∀ w, 0 < w → (End.fin c⁻¹ o).Below w → ∃ x ∈ s⁻¹, w ≤ x := by
        intro w hw hwb
        obtain ⟨x, hx, hxw⟩ := hs.reach w⁻¹ (by
          cases o with
          | false => exact End.closed_above.mpr ((le_inv_comm₀ hw hc0).mp (End.closed_below.mp hwb))
          | true => exact End.open_above.mpr ((lt_inv_comm₀ hw hc0).mp (End.open_below.mp hwb)))
        exact ⟨x⁻¹, inv_mem_inv.mpr hx, (le_inv_comm₀ hw (hs0 x hx)).mpr hxw⟩
      rcases lt_or_ge 0 v with hv0 | hv0
      · exact near v hv0 hv
      · have h2 : 0 < c⁻¹ / 2 := half_pos (inv_pos.mpr hc0)
        obtain ⟨x, hx, hxw⟩ := near (c⁻¹ / 2) h2
          (End.below_of_lt (half_lt_self (inv_pos.mpr hc0)))
        exact ⟨x, hx, hv0.trans (h2.le.trans hxw)⟩

/-- The reciprocals of positive numbers start where the numbers end. -/
theorem EndsAt.inv (hs0 : ∀ x ∈ s, 0 < x) (hs : EndsAt s e) (he : e.Pos) :
    StartsAt s⁻¹ e.inv := by
  have near : ∀ w, 0 < w → e.Below w → ∃ x ∈ s⁻¹, x ≤ w⁻¹ := by
    intro w hw hwb
    obtain ⟨x, hx, hwx⟩ := hs.reach w hwb
    exact ⟨x⁻¹, inv_mem_inv.mpr hx, inv_anti₀ hw hwx⟩
  cases e with
  | inf =>
    refine ⟨fun x hx => End.open_above.mpr (inv_pos.mp (hs0 _ hx)), fun v hv => ?_⟩
    have hv0 := End.open_above.mp hv
    obtain ⟨x, hx, hxv⟩ := near v⁻¹ (inv_pos.mpr hv0) trivial
    exact ⟨x, hx, by rwa [inv_inv] at hxv⟩
  | fin c o =>
    rw [show (End.fin c o).inv = .fin c⁻¹ o from if_neg (ne_of_gt he)]
    refine ⟨fun x hx => ?_, fun v hv => ?_⟩
    · have hx0 : 0 < x := inv_pos.mp (hs0 _ hx)
      have h := hs.bound _ hx
      cases o with
      | false =>
        exact End.closed_above.mpr ((inv_le_comm₀ hx0 he).mp (End.closed_below.mp h))
      | true => exact End.open_above.mpr ((inv_lt_comm₀ hx0 he).mp (End.open_below.mp h))
    · have hv0 : 0 < v := (inv_pos.mpr he).trans_le hv.le
      obtain ⟨x, hx, hxv⟩ := near v⁻¹ (inv_pos.mpr hv0) (by
        cases o with
        | false =>
          exact End.closed_below.mpr ((inv_le_comm₀ he hv0).mp (End.closed_above.mp hv))
        | true => exact End.open_below.mpr ((inv_lt_comm₀ he hv0).mp (End.open_above.mp hv)))
      exact ⟨x, hx, by rwa [inv_inv] at hxv⟩

/-! ### No gaps -/

theorem ordConnected_add (hs : s.OrdConnected) (ht : t.OrdConnected) : (s + t).OrdConnected := by
  constructor
  rintro _ ⟨x₁, hx₁, y₁, hy₁, rfl⟩ _ ⟨x₂, hx₂, y₂, hy₂, rfl⟩ v ⟨h1, h2⟩
  -- first the left summand moves, then the right one
  rcases le_total v (x₂ + y₁) with h | h
  · exact ⟨v - y₁, hs.out hx₁ hx₂ ⟨by linarith, by linarith⟩, y₁, hy₁, by simp⟩
  · exact ⟨x₂, hx₂, v - x₂, ht.out hy₁ hy₂ ⟨by linarith, by linarith⟩, by simp⟩

/-- Between the products of `x` with two numbers lie products of `x` with
numbers between them. -/
private theorem exists_factor_between {x y₁ y₂ : α} (ht : t.OrdConnected) (hy₁ : y₁ ∈ t)
    (hy₂ : y₂ ∈ t) (h1 : x * y₁ ≤ v) (h2 : v ≤ x * y₂) : ∃ y ∈ t, x * y = v := by
  rcases lt_trichotomy x 0 with hx | rfl | hx
  · refine ⟨v / x, ht.out hy₂ hy₁ ⟨?_, ?_⟩, mul_div_cancel₀ v hx.ne⟩
    · rwa [le_div_iff_of_neg hx, mul_comm]
    · rwa [div_le_iff_of_neg hx, mul_comm]
  · exact ⟨y₁, hy₁, by rw [zero_mul] at *; exact le_antisymm h1 h2⟩
  · refine ⟨v / x, ht.out hy₁ hy₂ ⟨?_, ?_⟩, mul_div_cancel₀ v hx.ne'⟩
    · rwa [le_div_iff₀ hx, mul_comm]
    · rwa [div_le_iff₀ hx, mul_comm]

theorem ordConnected_mul (hs : s.OrdConnected) (ht : t.OrdConnected) : (s * t).OrdConnected := by
  constructor
  rintro _ ⟨x₁, hx₁, y₁, hy₁, rfl⟩ _ ⟨x₂, hx₂, y₂, hy₂, rfl⟩ v ⟨h1, h2⟩
  rcases le_total v (x₂ * y₁) with h | h
  · have h1' : y₁ * x₁ ≤ v := (mul_comm y₁ x₁).trans_le h1
    have h2' : v ≤ y₁ * x₂ := h.trans_eq (mul_comm x₂ y₁)
    obtain ⟨x, hx, e⟩ := exists_factor_between hs hx₁ hx₂ h1' h2'
    exact ⟨x, hx, y₁, hy₁, (mul_comm x y₁).trans e⟩
  · obtain ⟨y, hy, e⟩ := exists_factor_between ht hy₁ hy₂ h h2
    exact ⟨x₂, hx₂, y, hy, e⟩

theorem ordConnected_inv (hs : s.OrdConnected) (hs0 : ∀ x ∈ s, 0 < x) : s⁻¹.OrdConnected := by
  constructor
  intro x hx y hy v ⟨h1, h2⟩
  have hx0 : 0 < x := inv_pos.mp (hs0 _ hx)
  exact hs.out hy hx ⟨inv_anti₀ (hx0.trans_le h1) h2, inv_anti₀ hx0 h1⟩

theorem ordConnected_neg (hs : s.OrdConnected) : (-s).OrdConnected :=
  ⟨fun _ hx _ hy _ hv => hs.out hy hx ⟨neg_le_neg hv.2, neg_le_neg hv.1⟩⟩

end Field

end AriParti.Core
