import AriParti.L1Arith.Manager
import AriParti.L1Bounds.Propagators
import AriParti.L1Bounds.TaskMeaning
import Mathlib.Order.CompletePartialOrder

/-!
# What a split does to an interval

`split_node` stores the two sides of its cut with `mk_bound`. Unlike
`propagate_bound` it does not ask first whether a bound is an improvement, and
`normalize_bound` may have relaxed it: a cut of a real variable with a large
denominator moves outwards to the next multiple of 10^-6 in either child.

## Results

* `Cut.undef`: the cut is open at the node, wherever it comes from.
* `midpoint_isSome`: the exception is never thrown.
* `split_partitions`: the children cover the node. They are smaller than it
  exactly when a relaxed cut stays within the bounds of the node.
* `split_looser`: `x ≤ 10⁻⁹` split into `x < 10⁻⁶` and the rest.
-/
namespace AriParti.L1

variable {P : Problem} {so : Sorting} {n : Content}

/-- The values between the bounds of `x`. -/
def Content.range (n : Content) (x : Nat) : Set ℝ :=
  { v | ∀ lower b, n.side x lower = some b → b.Allows lower v }

/-- The next multiple of 10^-6 below `k`, or above. -/
def relaxed (lower : Bool) (k : ℚ) : ℚ :=
  (if lower then (⌊adjustDenominator * k⌋ : ℤ) else (⌈adjustDenominator * k⌉ : ℤ)) /
    adjustDenominator

/-! ## Bounds on both sides -/

namespace Bound

variable {b o k : Bound} {lower isOpen : Bool}

/-- To be at least as tight as a bound is to cross its negation. -/
theorem within_iff_crosses {val : ℚ} :
    b.Within lower ⟨val, isOpen⟩ ↔ b.Crosses lower ⟨val, !isOpen⟩ := by
  unfold Within Crosses
  cases lower <;> cases isOpen <;> grind

/-- Bounds that do not cross leave a value. -/
theorem exists_allows (h : ¬ b.Crosses lower o) :
    ∃ v : ℝ, b.Allows lower v ∧ o.Allows (!lower) v := by
  refine ⟨((b.val + o.val : ℚ) : ℝ) / 2, ?_⟩
  unfold Crosses at h
  rw [not_or] at h
  cases lower
  · rw [Bool.not_false, allows_upper, allows_lower]
    have hle : o.val ≤ b.val := by simpa using h.1
    rcases hle.lt_or_eq with hlt | heq
    · have : (o.val : ℝ) < b.val := by exact_mod_cast hlt
      push_cast
      constructor <;> left <;> linarith
    · have hopen := h.2
      rw [← heq] at hopen ⊢
      push_cast
      constructor <;> right <;> simp_all
  · rw [Bool.not_true, allows_upper, allows_lower]
    have hle : b.val ≤ o.val := by simpa using h.1
    rcases hle.lt_or_eq with hlt | heq
    · have : (b.val : ℝ) < o.val := by exact_mod_cast hlt
      push_cast
      constructor <;> left <;> linarith
    · have hopen := h.2
      rw [← heq] at hopen ⊢
      push_cast
      constructor <;> right <;> simp_all

/-- A bound with room on its side. -/
theorem exists_not_crosses (lower : Bool) (o : Bound) : ∃ b : Bound, ¬ b.Crosses lower o := by
  unfold Crosses
  cases lower
  · refine ⟨⟨o.val + 1, false⟩, ?_⟩
    simp only [Bool.false_eq_true, if_false]
    grind
  · refine ⟨⟨o.val - 1, false⟩, ?_⟩
    simp only [if_true]
    grind

/-- A bound allows a value unless it keeps strictly off it. -/
theorem within_open_iff {val : ℚ} : b.Within lower ⟨val, true⟩ ↔ ¬ b.Allows lower (val : ℝ) := by
  cases lower
  · rw [allows_upper]
    unfold Within
    norm_cast
    grind
  · rw [allows_lower]
    unfold Within
    norm_cast
    grind

end Bound

/-! ## Where the cut lies -/

/-- The cut `k` is open: neither the bound on its side nor that on the other
decides it. -/
theorem value_undef_iff {x : Nat} {k : ℚ} {lower isOpen : Bool} :
    value P n (.ineq x k lower isOpen) = .undef ↔
      (∀ b, n.side x lower = some b → ¬ b.Within lower ⟨k, isOpen⟩) ∧
      ∀ o, n.side x (!lower) = some o → ¬ o.Within (!lower) ⟨k, !isOpen⟩ := by
  have hown : (n.side x lower).any (Content.noBetter lower k isOpen) = true ↔
      ∃ b, n.side x lower = some b ∧ b.Within lower ⟨k, isOpen⟩ := by
    rw [Option.any_eq_true]
    exact exists_congr fun b => and_congr_right fun _ => noBetter_iff
  have hother : (n.side x !lower).any (Content.crosses lower k isOpen) = true ↔
      ∃ o, n.side x (!lower) = some o ∧ o.Within (!lower) ⟨k, !isOpen⟩ := by
    rw [Option.any_eq_true]
    refine exists_congr fun o => and_congr_right fun _ => ?_
    rw [crosses_iff, Bound.within_iff_crosses, Bool.not_not]
    exact ⟨Bound.Crosses.symm, fun h => by simpa using h.symm⟩
  rw [value_ineq]
  split
  · rename_i h
    obtain ⟨o, ho, hw⟩ := hother.1 h
    simp only [reduceCtorEq, false_iff, not_and, not_forall, not_not]
    exact fun _ => ⟨o, ho, hw⟩
  · rename_i h
    have hno := mt hother.2 h
    split
    · rename_i h'
      obtain ⟨b, hb, hw⟩ := hown.1 h'
      simp only [reduceCtorEq, false_iff, not_and]
      exact fun hb' => absurd hw (hb' b hb)
    · rename_i h'
      have hno' := mt hown.2 h'
      simp only [true_iff]
      exact ⟨fun b hb hw => hno' ⟨b, hb, hw⟩, fun o ho hw => hno ⟨o, ho, hw⟩⟩

/-- Strictly between the bounds of `x`. -/
def Content.Between (n : Content) (x : Nat) (k : ℚ) : Prop :=
  (∀ l, n.lower x = some l → l.val < k) ∧ ∀ u, n.upper x = some u → k < u.val

theorem Content.Between.undef {x : Nat} {k : ℚ} (h : n.Between x k) (lower isOpen : Bool) :
    value P n (.ineq x k lower isOpen) = .undef := by
  have hoff : ∀ lower isOpen b, n.side x lower = some b → ¬ b.Within lower ⟨k, isOpen⟩ := by
    intro lower isOpen b hb
    cases lower
    · have := h.2 b hb
      unfold Bound.Within
      grind
    · have := h.1 b hb
      unfold Bound.Within
      grind
  exact value_undef_iff.2 ⟨hoff lower isOpen, hoff _ _⟩

theorem midpoint_between {x : Nat} {mid : ℚ} (h : midpoint n x = some mid) : n.Between x mid := by
  unfold midpoint at h
  unfold Content.Between
  cases hl : n.lower x with
  | none =>
    cases hu : n.upper x with
    | none =>
      exact ⟨nofun, nofun⟩
    | some u =>
      refine ⟨nofun, fun u' hu' => ?_⟩
      cases hu'
      simp only [hl, hu, Option.all_none, Option.all_some, Bool.true_and, decide_eq_true_eq] at h
      split at h
      · cases h
        assumption
      · cases h
        have := Int.floor_le u.val
        unfold splitDelta
        linarith
  | some l =>
    cases hu : n.upper x with
    | none =>
      refine ⟨fun l' hl' => ?_, nofun⟩
      cases hl'
      simp only [hl, hu, Option.all_none, Option.all_some, Bool.and_true, decide_eq_true_eq] at h
      split at h
      · cases h
        assumption
      · cases h
        have := Int.le_ceil l.val
        unfold splitDelta
        linarith
    | some u =>
      simp only [hl, hu, Option.all_some, Bool.and_eq_true, decide_eq_true_eq] at h
      suffices l.val < mid ∧ mid < u.val by
        refine ⟨fun l' hl' => ?_, fun u' hu' => ?_⟩
        · cases hl'
          exact this.1
        · cases hu'
          exact this.2
      split at h
      · cases h
        assumption
      · rw [Option.ite_none_right_eq_some, Option.some_inj] at h
        obtain ⟨hb, rfl⟩ := h
        exact hb

/-- A variable with two different bounds that do not cross has a midpoint. -/
theorem midpoint_isSome {x : Nat} (hfix : isFixed n x = false)
    (hn : n.conflictingBounds x = false) : midpoint n x ≠ none := by
  unfold midpoint
  cases hl : n.lower x with
  | none => cases n.upper x <;> simp only <;> split <;> simp
  | some l =>
    cases hu : n.upper x with
    | none =>
      simp only
      split <;> simp
    | some u =>
      have hlt : l.val < u.val := by
        unfold isFixed at hfix
        unfold Content.conflictingBounds at hn
        rw [hl, hu] at hfix hn
        have hne : l.val ≠ u.val := by simpa using hfix
        have hle : l.val ≤ u.val := by
          rw [Bool.or_eq_false_iff] at hn
          simpa using hn.1
        exact lt_of_le_of_ne hle hne
      simp only
      split
      · simp
      · -- a wide interval has room for the rounded midpoint
        have hceil := Int.ceil_lt_add_one ((l.val + u.val) / 2)
        have hle := Int.le_ceil ((l.val + u.val) / 2)
        split
        · rename_i hwide
          rw [if_pos]
          · simp
          · rw [Bool.and_eq_true, decide_eq_true_iff, decide_eq_true_iff]
            constructor <;> linarith
        · rw [if_pos]
          · simp
          · rw [Bool.and_eq_true, decide_eq_true_iff, decide_eq_true_iff]
            constructor <;> linarith

/-- Wherever the cut comes from, it is open at the node. -/
theorem Cut.undef {t : Task} (ht : convertNodeToTask P so n = some t) {x : Nat} {mid : ℚ}
    {lower isOpen : Bool} (h : Cut n t x mid lower isOpen) :
    value P n (.ineq x mid lower isOpen) = .undef := by
  cases h with
  | lit hmem =>
    obtain ⟨c, hc, hl⟩ := List.mem_flatten.1 (List.mem_filter.1 hmem).1
    exact convert_undef ht c hc _ hl
  | midpoint _ hmid => exact (midpoint_between hmid).undef false false

/-! ## The children -/

section Children

variable {x : Nat} {k : ℚ} {lower isOpen : Bool}

/-- Rounding inwards tightens a bound. -/
theorem normalize_within (hden : P.isInt x = true ∨ k.den ≤ maxDenominator) :
    (Bound.mk (normalizeBound P x k lower isOpen).1
      (normalizeBound P x k lower isOpen).2).Within lower ⟨k, isOpen⟩ := by
  unfold normalizeBound
  split
  · unfold adjustIntegerBound Bound.Within
    by_cases hk : k.isInt = true
    · cases lower <;> cases isOpen <;> simp [hk]
    · have hne : ∀ m : ℤ, k ≠ m := fun m hm => hk (isInt_iff.2 ⟨m, hm⟩)
      have hfloor : (⌊k⌋ : ℚ) < k := lt_of_le_of_ne (Int.floor_le k) (hne _).symm
      have hceil : k < ⌈k⌉ := lt_of_le_of_ne (Int.le_ceil k) (hne _)
      cases lower
      · left
        simpa [hk] using hfloor
      · left
        simpa [hk] using hceil
  · rename_i hx
    rw [if_neg (Nat.not_lt.2 (hden.resolve_left hx))]
    exact .refl lower _

/-- A number with a large denominator is no multiple of 10^-6. -/
theorem not_isInt_of_den (hden : maxDenominator < k.den) :
    (adjustDenominator * k).isInt ≠ true := by
  intro h
  obtain ⟨m, hm⟩ := isInt_iff.1 h
  have hk : k = Rat.divInt m 1000000 := by
    rw [Rat.divInt_eq_div, eq_div_iff (by norm_num), ← hm]
    unfold adjustDenominator
    push_cast
    ring
  have hdvd : (k.den : ℤ) ∣ 1000000 := hk ▸ Rat.den_dvd m 1000000
  have := Int.le_of_dvd (by decide) hdvd
  unfold maxDenominator at hden
  omega

/-- A relaxed bound is the next multiple of 10^-6, and open. -/
theorem normalize_relaxed (hx : P.isInt x = false) (hden : maxDenominator < k.den) :
    normalizeBound P x k lower isOpen = (relaxed lower k, true) := by
  unfold normalizeBound adjustRelaxedBound relaxed
  rw [if_neg (by rw [hx]; decide), if_pos hden, if_neg (not_isInt_of_den hden)]
  cases lower <;> rfl

/-- It lies strictly on its side of the number. -/
theorem relaxed_allows (hden : maxDenominator < k.den) (lower isOpen : Bool) :
    (Bound.mk k isOpen).Allows (!lower) (relaxed lower k : ℚ) := by
  have hpos : (0 : ℚ) < adjustDenominator := by norm_num [adjustDenominator]
  have hne : ∀ m : ℤ, adjustDenominator * k ≠ m :=
    fun m hm => not_isInt_of_den hden (isInt_iff.2 ⟨m, hm⟩)
  cases lower
  · rw [Bool.not_false, Bound.allows_lower]
    left
    show (k : ℝ) < ((⌈adjustDenominator * k⌉ / adjustDenominator : ℚ) : ℝ)
    rw [Rat.cast_lt, lt_div_iff₀ hpos, mul_comm]
    exact lt_of_le_of_ne (Int.le_ceil _) (hne _)
  · rw [Bool.not_true, Bound.allows_upper]
    left
    show ((⌊adjustDenominator * k⌋ / adjustDenominator : ℚ) : ℝ) < k
    rw [Rat.cast_lt, div_lt_iff₀ hpos, mul_comm k]
    exact lt_of_le_of_ne (Int.floor_le _) (hne _).symm

/-- Side by side. -/
theorem Content.mem_range (lower : Bool) {v : ℝ} :
    v ∈ n.range x ↔ (∀ b, n.side x lower = some b → b.Allows lower v) ∧
      ∀ o, n.side x (!lower) = some o → o.Allows (!lower) v := by
  constructor
  · exact fun h => ⟨h lower, h !lower⟩
  · intro h l
    cases l <;> cases lower <;> first | exact h.1 | exact h.2

theorem Content.mem_range_mkBound (ha : n.bvalue x = .arith) {v : ℝ} :
    v ∈ (n.mkBound x k lower isOpen).range x ↔ (Bound.mk k isOpen).Allows lower v ∧
      ∀ o, n.side x (!lower) = some o → o.Allows (!lower) v := by
  rw [Content.mem_range lower, Content.mkBound_side ha, if_pos ⟨rfl, rfl⟩,
    Content.mkBound_side ha, if_neg (by simp)]
  simp

/-- The tighter one of a bound that is there and another. -/
theorem Bound.exists_within_both (o : Option Bound) (k : Bound) (lower : Bool) :
    ∃ m : Bound, (∀ o', o = some o' → m.Within lower o') ∧ m.Within lower k ∧
      (m = k ∨ o = some m) := by
  cases o with
  | none => exact ⟨k, nofun, .refl lower k, .inl rfl⟩
  | some o =>
    rcases Bound.within_total lower o k with h | h
    · refine ⟨o, fun o' ho' => ?_, h, .inr rfl⟩
      cases ho'
      exact .refl lower o
    · refine ⟨k, fun o' ho' => ?_, .refl lower k, .inl rfl⟩
      cases ho'
      exact h

/-- A stored bound makes the interval smaller exactly when the bound it
replaces is not as tight. -/
theorem Content.range_ssubset_iff (hw : n.Well P) (hn : n.inconsistent = false)
    (ha : n.bvalue x = .arith) :
    (n.mkBound x k lower isOpen).range x ⊂ n.range x ↔
      ∀ b, n.side x lower = some b → ¬ b.Within lower ⟨k, isOpen⟩ := by
  constructor
  · intro h b hb hwithin
    apply h.2
    intro v hv
    obtain ⟨hown, hother⟩ := (Content.mem_range lower).1 hv
    exact (Content.mem_range_mkBound ha).2 ⟨hwithin.allows (hown b hb), hother⟩
  · intro h
    constructor
    · intro v hv
      obtain ⟨hk, hother⟩ := (Content.mem_range_mkBound ha).1 hv
      refine (Content.mem_range lower).2 ⟨fun b hb => ?_, hother⟩
      exact ((Bound.within_total lower b _).resolve_left (h b hb)).allows hk
    · intro hsub
      -- `m` allows only values that the other side allows and the new bound cuts off
      obtain ⟨m, hm, hmk, hor⟩ :=
        Bound.exists_within_both (n.side x !lower) ⟨k, !isOpen⟩ (!lower)
      have hcross : ∀ b, n.side x lower = some b → ¬ b.Crosses lower m := by
        intro b hb hc
        rcases hor with rfl | ho
        · exact h b hb (Bound.within_iff_crosses.2 hc)
        · have := Content.conflictingBounds_of hb ho hc
          rw [(hw.consistent hn).1 x] at this
          cases this
      obtain ⟨b, hb, hbm⟩ : ∃ b : Bound,
          (∀ b', n.side x lower = some b' → b' = b) ∧ ¬ b.Crosses lower m := by
        cases hb : n.side x lower with
        | none =>
          obtain ⟨b, hbm⟩ := Bound.exists_not_crosses lower m
          exact ⟨b, nofun, hbm⟩
        | some b => exact ⟨b, fun b' hb' => (Option.some_inj.1 hb').symm, hcross b hb⟩
      obtain ⟨v, hvb, hvm⟩ := Bound.exists_allows hbm
      have hv : v ∈ n.range x := by
        refine (Content.mem_range lower).2 ⟨fun b' hb' => ?_, fun o ho => (hm o ho).allows hvm⟩
        rw [hb b' hb']
        exact hvb
      exact Bound.allows_not.1 (hmk.allows hvm) ((Content.mem_range_mkBound ha).1 (hsub hv)).1

end Children

/-! ## The variable of a split -/

/-- A Boolean variable does not occur. -/
def NoBools (P : Problem) (occs : Nat → BitVec 32) : Prop := ∀ x, P.isBool x = true → occs x = 0

theorem NoBools.addOcc {occs : Nat → BitVec 32} {y : Nat} {k : BitVec 32} (h : NoBools P occs)
    (hy : P.isBool y = false) : NoBools P (addOcc occs y k) := by
  intro x hx
  unfold L1.addOcc
  rw [Function.update_apply, if_neg (by rintro rfl; simp [hx] at hy)]
  exact h x hx

theorem NoBools.addPowers {occs : Nat → BitVec 32} {k : (Nat → BitVec 32) → BitVec 32} {y : Nat}
    {ps : List (Nat × Nat)} (h : NoBools P occs) (hd : P.defs y = some (.monomial ps)) :
    NoBools P (ps.foldl (fun o p => L1.addOcc o p.1 (k o)) occs) := by
  have hps := (P.defs_arith y _ hd).2
  refine List.foldlRecOn (motive := NoBools P) ps _ h fun o ho p hp => ho.addOcc ?_
  exact hps p.1 (List.mem_map_of_mem hp)

/-- A sum gives the count of a product to its factors. -/
theorem NoBools.addFactors {occs : Nat → BitVec 32} {k : (Nat → BitVec 32) → BitVec 32}
    (h : NoBools P occs) (y : Nat) : NoBools P (match P.defs y with
      | some (.monomial ps) => ps.foldl (fun o p => L1.addOcc o p.1 (k o)) occs
      | _ => occs) := by
  split
  · rename_i ps hd
    exact h.addPowers hd
  · exact h

theorem NoBools.spreadOccs {occs : Nat → BitVec 32} (h : NoBools P occs) (x : Nat) :
    NoBools P (spreadOccs P occs x) := by
  unfold L1.spreadOccs
  split
  · exact h
  · split
    · exact h
    · rename_i ps hd
      exact h.addPowers hd
    · rename_i ts hd
      have hts := (P.defs_arith x _ hd).2
      refine List.foldlRecOn (motive := NoBools P) ts _ h fun o ho t ht => ?_
      exact (ho.addOcc (hts t.2 (List.mem_map_of_mem ht))).addFactors t.2

theorem collectTaskVarInfo_noBools (t : Task) : NoBools P (collectTaskVarInfo P t) := by
  unfold collectTaskVarInfo
  refine List.foldlRecOn (motive := NoBools P) _ _ ?_ fun o ho x _ => ho.spreadOccs x
  intro x hx
  refine congrArg (BitVec.ofNat 32) (List.countP_eq_zero.2 fun l hl => ?_)
  have := (List.mem_filter.1 hl).2
  rintro he
  rw [of_decide_eq_true he, hx] at this
  cases this

theorem eligible_spec {cs : List Nat} {t : Task} {x : Nat} (h : x ∈ eligible P cs n t) :
    P.isBool x = false ∧ isFixed n x = false := by
  have h := (List.mem_filter.1 h).2
  rw [Bool.and_eq_true, Bool.not_eq_true', bne_iff_ne] at h
  refine ⟨?_, h.1⟩
  rw [← Bool.not_eq_true]
  exact fun hx => h.2 (collectTaskVarInfo_noBools t x hx)

/-! ## The split -/

/-- A child has one bound more than the node. -/
theorem childOf_range (x : Nat) (mid : ℚ) (lower isOpen : Bool) :
    (childOf P n x mid lower isOpen).range x =
      (n.mkBound x (normalizeBound P x mid lower isOpen).1 lower
        (normalizeBound P x mid lower isOpen).2).range x :=
  rfl

section Split

variable {x : Nat} {mid : ℚ} {lower isOpen : Bool}

/-- A value on the side of the cut is in the child. -/
theorem mem_childOf (ha : n.bvalue x = .arith) {v : ℝ} (hv : v ∈ n.range x)
    (hint : P.isInt x = true → ∃ k : ℤ, v = k) (hcut : (Bound.mk mid isOpen).Allows lower v) :
    v ∈ (childOf P n x mid lower isOpen).range x := by
  rw [childOf_range, Content.mem_range_mkBound ha]
  exact ⟨normalize_allows hint hcut, ((Content.mem_range lower).1 hv).2⟩

/-- A multiple of 10^-6 next to the cut is in the interval exactly when the
bound on its own side is not as tight. -/
theorem relaxed_mem_range (hund : value P n (.ineq x mid lower isOpen) = .undef)
    (hden : maxDenominator < mid.den) (l : Bool) :
    ((relaxed l mid : ℚ) : ℝ) ∈ n.range x ↔
      ∀ b, n.side x l = some b → ¬ b.Within l ⟨relaxed l mid, true⟩ := by
  have hother : ∀ o, n.side x (!l) = some o → o.Allows (!l) (relaxed l mid : ℚ) := by
    intro o ho
    have hmid : ∃ isOpen, ¬ o.Within (!l) ⟨mid, isOpen⟩ := by
      obtain ⟨h₁, h₂⟩ := value_undef_iff.1 hund
      by_cases hl : lower = l
      · rw [hl] at h₂
        exact ⟨_, h₂ o ho⟩
      · have hl : (!l) = lower := by
          cases l <;> cases lower <;> simp_all
        rw [hl] at ho ⊢
        exact ⟨_, h₁ o ho⟩
    obtain ⟨isOpen, hmid⟩ := hmid
    exact ((Bound.within_total (!l) o _).resolve_left hmid).allows (relaxed_allows hden l isOpen)
  rw [Content.mem_range l]
  simp only [Bound.within_open_iff, not_not]
  exact and_iff_left hother

/-- The stored cut is smaller than the interval exactly when it was not
relaxed beyond it. -/
theorem childOf_ssubset_iff (hw : n.Well P) (hn : n.inconsistent = false)
    (ha : n.bvalue x = .arith) (hund : value P n (.ineq x mid lower isOpen) = .undef) (l o : Bool)
    (hlo : l = lower ∧ o = isOpen ∨ l = (!lower) ∧ o = !isOpen) :
    (childOf P n x mid l o).range x ⊂ n.range x ↔
      P.isInt x = true ∨ mid.den ≤ maxDenominator ∨ ((relaxed l mid : ℚ) : ℝ) ∈ n.range x := by
  rw [childOf_range, Content.range_ssubset_iff hw hn ha, ← or_assoc]
  by_cases hden : P.isInt x = true ∨ mid.den ≤ maxDenominator
  · -- the stored bound is as tight as the cut, which is open at the node
    refine iff_of_true (fun b hb hwithin => ?_) (.inl hden)
    have hcut := hwithin.trans (normalize_within hden)
    obtain ⟨h₁, h₂⟩ := value_undef_iff.1 hund
    rcases hlo with ⟨rfl, rfl⟩ | ⟨rfl, rfl⟩
    · exact h₁ b hb hcut
    · exact h₂ b hb hcut
  · rw [or_iff_right hden]
    rw [not_or, Bool.not_eq_true, not_le] at hden
    rw [relaxed_mem_range hund hden.2, normalize_relaxed hden.1 hden.2]

end Split

/-- **A split covers the node, and makes progress unless it was relaxed too
far.** For the variable and the cut that `split_node` takes at a consistent
node: the midpoint exists, and every admissible value is in one of the
children. The children are smaller than the node exactly when the variable is
an integer, the cut has a small denominator, or the multiples of 10^-6 next to
it are within the bounds of the node. -/
theorem split_partitions (hw : n.Well P) (hn : n.inconsistent = false) {t : Task}
    (ht : convertNodeToTask P so n = some t) {cs : List Nat} {x : Nat}
    (hx : x ∈ eligible P (splitCandidates P cs n t) n t) :
    midpoint n x ≠ none ∧
    ∀ mid lower isOpen, Cut n t x mid lower isOpen →
      (∀ v ∈ n.range x, (P.isInt x = true → ∃ k : ℤ, v = k) →
        v ∈ (childOf P n x mid lower isOpen).range x ∨
          v ∈ (childOf P n x mid (!lower) (!isOpen)).range x) ∧
      ((childOf P n x mid lower isOpen).range x ⊂ n.range x ∧
          (childOf P n x mid (!lower) (!isOpen)).range x ⊂ n.range x ↔
        P.isInt x = true ∨ mid.den ≤ maxDenominator ∨
          ∀ l, ((relaxed l mid : ℚ) : ℝ) ∈ n.range x) := by
  obtain ⟨hbool, hfix⟩ := eligible_spec hx
  have ha := (hw.arith x).2 hbool
  refine ⟨midpoint_isSome hfix ((hw.consistent hn).1 x), fun mid lower isOpen hcut => ⟨?_, ?_⟩⟩
  · intro v hv hint
    by_cases hside : (Bound.mk mid isOpen).Allows lower v
    · exact .inl (mem_childOf ha hv hint hside)
    · exact .inr (mem_childOf ha hv hint (Bound.allows_not.2 hside))
  · have hund := hcut.undef ht
    rw [childOf_ssubset_iff hw hn ha hund lower isOpen (.inl ⟨rfl, rfl⟩),
      childOf_ssubset_iff hw hn ha hund (!lower) (!isOpen) (.inr ⟨rfl, rfl⟩), ← or_and_left,
      ← or_and_left]
    have hboth : (∀ l, ((relaxed l mid : ℚ) : ℝ) ∈ n.range x) ↔
        ((relaxed lower mid : ℚ) : ℝ) ∈ n.range x ∧
          ((relaxed (!lower) mid : ℚ) : ℝ) ∈ n.range x := by
      cases lower <;> simp [and_comm]
    rw [hboth]

/-- A real variable between 0 and 10^-9, and `b₁ ∨ b₂`. -/
def narrow : Problem :=
  .ofAtoms 3 (fun _ => false) (fun x => x ≠ 0)
    [.ineq 0 0 true false, .ineq 0 (1 / 1000000000) false false]
    [[.bool 1 false, .bool 2 false]] rfl

def narrowRoot : Content := initRoot narrow defaults defaultManager

def narrowTask : Task :=
  ⟨2, 1, [[.bool 1 false, .bool 2 false]],
    [.ineq 0 0 true false, .ineq 0 (1 / 1000000000) false false]⟩

theorem narrow_task : convertNodeToTask narrow stable narrowRoot = some narrowTask := by
  decide +kernel

theorem narrow_eligible :
    0 ∈ eligible narrow (splitCandidates narrow [] narrowRoot narrowTask) narrowRoot narrowTask := by
  decide +kernel

/-- Half of `x ≤ 10⁻⁹` becomes `x < 10⁻⁶`: the left child is larger than the
node. -/
theorem split_looser :
    narrowRoot.inconsistent = false ∧
    convertNodeToTask narrow stable narrowRoot = some narrowTask ∧
    0 ∈ eligible narrow (splitCandidates narrow [] narrowRoot narrowTask) narrowRoot narrowTask ∧
    Cut narrowRoot narrowTask 0 (1 / 2000000000) false false ∧
    ¬ (childOf narrow narrowRoot 0 (1 / 2000000000) false false).range 0 ⊆ narrowRoot.range 0 := by
  refine ⟨by decide +kernel, narrow_task, narrow_eligible,
    .midpoint (by decide) (by decide +kernel), fun hsub => ?_⟩
  have hlow : (childOf narrow narrowRoot 0 (1 / 2000000000) false false).side 0 true =
      some ⟨0, false⟩ := by decide +kernel
  have hup : (childOf narrow narrowRoot 0 (1 / 2000000000) false false).side 0 false =
      some ⟨1 / 1000000, true⟩ := by decide +kernel
  have hmem : (1 / 10000000 : ℝ) ∈
      (childOf narrow narrowRoot 0 (1 / 2000000000) false false).range 0 := by
    refine (Content.mem_range false).2 ⟨fun b hb => ?_, fun o ho => ?_⟩
    · cases hup.symm.trans hb
      norm_num [Bound.Allows, Bound.allowsBelow]
    · cases hlow.symm.trans ho
      norm_num [Bound.Allows, Bound.allowsAbove]
  have hroot : narrowRoot.side 0 false = some ⟨1 / 1000000000, false⟩ := by decide +kernel
  have := hsub hmem false _ hroot
  norm_num [Bound.Allows, Bound.allowsBelow] at this

/-- The split of the example covers it all the same. -/
theorem split_partitions_narrow :
    midpoint narrowRoot 0 ≠ none ∧
    ∀ mid lower isOpen, Cut narrowRoot narrowTask 0 mid lower isOpen →
      (∀ v ∈ narrowRoot.range 0, (narrow.isInt 0 = true → ∃ k : ℤ, v = k) →
        v ∈ (childOf narrow narrowRoot 0 mid lower isOpen).range 0 ∨
          v ∈ (childOf narrow narrowRoot 0 mid (!lower) (!isOpen)).range 0) ∧
      ((childOf narrow narrowRoot 0 mid lower isOpen).range 0 ⊂ narrowRoot.range 0 ∧
          (childOf narrow narrowRoot 0 mid (!lower) (!isOpen)).range 0 ⊂ narrowRoot.range 0 ↔
        narrow.isInt 0 = true ∨ mid.den ≤ maxDenominator ∨
          ∀ l, ((relaxed l mid : ℚ) : ℝ) ∈ narrowRoot.range 0) :=
  split_partitions initRoot_well (by decide +kernel) narrow_task narrow_eligible

end AriParti.L1
