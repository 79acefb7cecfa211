import AriParti.L1Bounds.Visits

/-!
# The normal form of the bounds

Each bound goes through `normalize_bound` once, on its way into the node, and
no code looks at it again. Evaluation of atoms, the equations of a task and
the end of propagation rely on what that leaves: closed integers for integer
variables, denominators up to 10^9 for the others. A bound that crosses the
other side of its variable is stored all the same, and so is the second value
of a Boolean variable, but then the node is marked.

## Layout

* `Bound.Normal`: the bounds that normalization leaves as they are.
* `Content.Stored`: all bounds of a node are of this kind.

## Results

* `normal_fixed_iff`: `Bound.Normal` is the set of fixed points, and every
  normalized bound is one (`normal_normal`).
* `node_bounds_normal`: the normal form of every node, and the order of its
  bounds.
-/
namespace AriParti.L1

variable {P : Problem} {pr : Params} {im : IntervalManager} {S : Assignment → Prop}
  {n n' : Content} {x : Nat} {k : ℚ} {lower isOpen : Bool}

/-! ## Bounds -/

/-- A bound as it may be stored for `x`. -/
structure Bound.Normal (P : Problem) (x : Nat) (b : Bound) : Prop where
  int : P.isInt x = true → b.isOpen = false ∧ b.val.isInt = true
  real : P.isInt x = false → b.val.den ≤ maxDenominator

theorem adjustIntegerBound_rounded (val : ℚ) (lower isOpen : Bool) :
    (adjustIntegerBound val lower isOpen).2 = false ∧
      (adjustIntegerBound val lower isOpen).1.isInt = true := by
  by_cases hval : val.isInt = true
  · obtain ⟨m, rfl⟩ := isInt_iff.1 hval
    cases isOpen
    · simp [adjustIntegerBound, hval]
    · cases lower
      · refine ⟨by simp [adjustIntegerBound, hval], isInt_iff.2 ⟨m - 1, ?_⟩⟩
        simp [adjustIntegerBound, hval]
      · refine ⟨by simp [adjustIntegerBound, hval], isInt_iff.2 ⟨m + 1, ?_⟩⟩
        simp [adjustIntegerBound, hval]
  · cases lower
    · refine ⟨by simp [adjustIntegerBound, hval], isInt_iff.2 ⟨⌊val⌋, ?_⟩⟩
      simp [adjustIntegerBound, hval]
    · refine ⟨by simp [adjustIntegerBound, hval], isInt_iff.2 ⟨⌈val⌉, ?_⟩⟩
      simp [adjustIntegerBound, hval]

theorem adjustRelaxedBound_int (val : ℚ) (lower isOpen : Bool) :
    ∃ m : ℤ, (adjustRelaxedBound val lower isOpen).1 = m := by
  unfold adjustRelaxedBound
  split
  · rename_i hval
    exact isInt_iff.1 hval
  · cases lower
    · exact ⟨⌈val⌉, rfl⟩
    · exact ⟨⌊val⌋, rfl⟩

/-- A multiple of 10^-6. -/
theorem den_div_adjustDenominator (m : ℤ) : ((m : ℚ) / adjustDenominator).den ≤ maxDenominator := by
  have hdvd := Rat.den_dvd m 1000000
  rw [Rat.divInt_eq_div] at hdvd
  have hle := Int.le_of_dvd (by decide) hdvd
  unfold adjustDenominator maxDenominator
  push_cast at hle
  omega

theorem normal_normal (P : Problem) (x : Nat) (k : ℚ) (lower isOpen : Bool) :
    (normal P x k lower isOpen).Normal P x := by
  constructor <;> intro hx <;> unfold normal normalizeBound
  · rw [if_pos hx]
    exact adjustIntegerBound_rounded k lower isOpen
  · rw [if_neg (by rw [hx]; decide)]
    split
    · obtain ⟨m, hm⟩ := adjustRelaxedBound_int (adjustDenominator * k) lower isOpen
      simp only [hm]
      exact den_div_adjustDenominator m
    · rename_i hden
      exact Nat.le_of_not_lt hden

theorem Bound.Normal.fixed {b : Bound} (h : b.Normal P x) (lower : Bool) :
    normal P x b.val lower b.isOpen = b := by
  unfold normal normalizeBound
  split
  · rename_i hx
    obtain ⟨hopen, hint⟩ := h.int hx
    obtain ⟨val, _⟩ := b
    cases hopen
    simp only at hint
    simp [adjustIntegerBound, hint]
  · rename_i hx
    rw [if_neg (Nat.not_lt.2 (h.real (Bool.eq_false_iff.2 hx)))]

/-- **The normal form.** Normalization leaves the normal bounds as they are,
and no others. -/
theorem normal_fixed_iff {b : Bound} : normal P x b.val lower b.isOpen = b ↔ b.Normal P x := by
  refine ⟨fun h => ?_, fun h => h.fixed lower⟩
  rw [← h]
  exact normal_normal P x b.val lower b.isOpen

/-! ## Nodes -/

/-- All bounds of the node are normal. -/
def Content.Stored (P : Problem) (n : Content) : Prop :=
  ∀ x lower b, n.side x lower = some b → b.Normal P x

theorem blank_stored : (blank P).Stored P := by
  intro x lower b hb
  cases lower <;> cases hb

theorem Content.Stored.mkBound (h : n.Stored P) (ha : n.bvalue x = .arith) :
    (n.mkBound x (normalizeBound P x k lower isOpen).1 lower
      (normalizeBound P x k lower isOpen).2).Stored P := by
  intro y l b hb
  rw [Content.mkBound_side ha] at hb
  split at hb
  · rename_i hyl
    cases hb
    rw [hyl.1]
    exact normal_normal P x k lower isOpen
  · exact h y l b hb

theorem Content.Stored.propagateBound (h : n.Stored P) (ha : n.bvalue x = .arith) :
    (n.propagateBound P x k lower isOpen).Stored P := by
  unfold Content.propagateBound
  simp only
  split
  · exact h.mkBound ha
  · exact h

/-- The moves store normal bounds, -/
theorem Derives.stored (h : Derives P S n n') (hw : n.Well P) (hs : n.Stored P) : n'.Stored P := by
  induction h with
  | refl => exact hs
  | bound x k lower isOpen h _ _ hx _ ih => exact ih.propagateBound (((h.well hw).arith x).2 hx)
  | bvar x neg h _ _ hx _ ih =>
    have ha := mt ((h.well hw).arith x).1 (by rw [hx]; decide)
    unfold Content.Stored
    rw [Content.propagateBvarBound_side ha]
    exact ih

theorem Visit.stored (h : Visit P pr im n n') (hw : n.Well P) (hs : n.Stored P) : n'.Stored P := by
  obtain ⟨as, has, hd⟩ := h.derives hw
  exact hd.stored (upAtoms_visited hw has).well hs

/-- and so does a cut. -/
theorem childOf_stored (hs : n.Stored P) (ha : n.bvalue x = .arith) :
    (childOf P n x k lower isOpen).Stored P :=
  hs.mkBound ha

theorem Reached.stored (h : Reached P pr im n) : n.Stored P := by
  induction h with
  | root => exact blank_stored
  | unit hr hn ha ih =>
    have hd := propagateAtom_derives (S := fun _ => False) hn (P.sorted _ (.inl ha)) nofun
    exact hd.stored hr.well ih
  | visit hr hv ih => exact hv.stored hr.well ih
  | child hr hn _ hx ih => exact childOf_stored ih ((hr.well.arith _).2 hx)

/-- The bounds of a node as the partitioner relies on them. -/
structure Content.NormalForm (P : Problem) (n : Content) : Prop where
  ints : ∀ x lower b, P.isInt x = true → n.side x lower = some b →
    b.isOpen = false ∧ b.val.isInt = true
  reals : ∀ x lower b, P.isInt x = false → n.side x lower = some b → b.val.den ≤ maxDenominator
  ordered : n.inconsistent = false → ∀ x l u, n.lower x = some l → n.upper x = some u →
    l.val < u.val ∨ l.val = u.val ∧ l.isOpen = false ∧ u.isOpen = false
  bools : n.inconsistent = false → ∀ x, n.bvalue x ≠ .conflict

theorem Content.ordered_of_not_conflicting (h : n.conflictingBounds x = false) {l u : Bound}
    (hl : n.lower x = some l) (hu : n.upper x = some u) :
    l.val < u.val ∨ l.val = u.val ∧ l.isOpen = false ∧ u.isOpen = false := by
  unfold Content.conflictingBounds at h
  simp only [hl, hu, Bool.or_eq_false_iff, decide_eq_false_iff_not, Bool.and_eq_false_iff,
    beq_eq_false_iff_ne] at h
  obtain ⟨hle, hopen | hne⟩ := h
  · rcases (not_lt.1 hle).lt_or_eq with hlt | he
    · exact .inl hlt
    · exact .inr ⟨he, hopen⟩
  · exact .inl (lt_of_le_of_ne (not_lt.1 hle) hne.symm)

theorem Content.Well.normalForm (hw : n.Well P) (hs : n.Stored P) : n.NormalForm P where
  ints x lower b hx hb := (hs x lower b hb).int hx
  reals x lower b hx hb := (hs x lower b hb).real hx
  ordered hn x _ _ hl hu := Content.ordered_of_not_conflicting ((hw.consistent hn).1 x) hl hu
  bools hn := (hw.consistent hn).2

/-- **Node bounds stay in normal form**: closed integers for the integer
variables, denominators up to 10^9 for the real ones, and in a node that is
not marked inconsistent ordered bounds and no Boolean variable with both
values. -/
theorem node_bounds_normal (h : Reached P pr im n) : n.NormalForm P :=
  h.well.normalForm h.stored

/-- An integer over `1/2` and a real number up to `1/(3 * 10^9)`. -/
def halfAndThird : Problem :=
  .ofAtoms 2 (fun x => x = 0) (fun _ => false)
    [.ineq 0 (1 / 2) true true, .ineq 1 (1 / 3000000000) false false]
    [] rfl

/-- Both units asserted, and the cut `x < 3`. -/
def halfAndThirdLeft : Content :=
  childOf halfAndThird (((blank halfAndThird).propagateAtom halfAndThird
    (.ineq 0 (1 / 2) true true)).propagateAtom halfAndThird
    (.ineq 1 (1 / 3000000000) false false)) 0 3 false true

/-- The integer is between 1 and 2, the real number below 10^-6. -/
theorem node_bounds_normal_left : halfAndThirdLeft.NormalForm halfAndThird ∧
    halfAndThirdLeft.inconsistent = false ∧ halfAndThirdLeft.lower 0 = some ⟨1, false⟩ ∧
    halfAndThirdLeft.upper 0 = some ⟨2, false⟩ ∧
    halfAndThirdLeft.upper 1 = some ⟨1 / 1000000, true⟩ := by
  have first : Reached halfAndThird defaults defaultManager ((blank halfAndThird).propagateAtom
      halfAndThird (.ineq 0 (1 / 2) true true)) :=
    .unit .root rfl (by simp [halfAndThird, Problem.ofAtoms])
  have second := first.unit (a := .ineq 1 (1 / 3000000000) false false) (by decide +kernel)
    (by simp [halfAndThird, Problem.ofAtoms])
  refine ⟨node_bounds_normal (second.child (by decide +kernel) (by decide) rfl), ?_⟩
  decide +kernel

end AriParti.L1
