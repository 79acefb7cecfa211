import AriParti.L1Bounds.Cuts

/-!
# A clause without an open atom

`propagate_clause` has no conflict of its own. When all atoms are false it
propagates the first one, "to trigger inconsistency": the bound it asserts
should cross the bound that refutes the atom. Rounding inwards keeps the
conflict. Relaxing a constant with a large denominator may lose it, against
the assertions at the end of `propagate_bound`.

## Results

* `propagateBound_inconsistent`: a bound makes a node inconsistent exactly when
  its normal form crosses the bound on the other side.
* `propagateClause_inconsistent`: when a falsified clause makes the node
  inconsistent.
* `propagateClause_consistent`: `x ≥ 3/(10⁹+7)` against `x ≤ 10⁻⁹`.
-/
namespace AriParti.L1

variable {P : Problem} {n : Content}

/-- A bound on the other side lies at or beyond `r`. -/
def Content.Passed (n : Content) (x : Nat) (lower : Bool) (r : ℚ) : Prop :=
  ∃ o, n.side x (!lower) = some o ∧ if lower then o.val ≤ r else r ≤ o.val

/-- The bounds that the atom asserts on a side. -/
def Lit.Asserts : Lit → Bool → Prop
  | bool _ _, _ => False
  | eq _ _ _, _ => True
  | ineq _ _ lower _, l => l = lower

def Lit.constant : Lit → ℚ
  | bool _ _ => 0
  | eq _ k _ => k
  | ineq _ k _ _ => k

/-- The constant is not relaxed, or a bound that refutes the atom lies beyond
the next multiple of 10^-6 as well. -/
def Lit.Refutable (P : Problem) (n : Content) (a : Lit) : Prop :=
  a.isBoolLit = true ∨ P.isInt a.x = true ∨ a.constant.den ≤ maxDenominator ∨
    ∃ lower, a.Asserts lower ∧ n.Passed a.x lower (relaxed lower a.constant)

/-! ## One bound -/

section OneBound

variable {x : Nat} {k : ℚ} {lower isOpen : Bool}

theorem Bound.Within.crosses {b k o : Bound} (h : b.Within lower k) (hk : k.Crosses lower o) :
    b.Crosses lower o := by
  unfold Bound.Within Bound.Crosses at *
  cases lower <;> grind

/-- The normal form of a bound. -/
def normal (P : Problem) (x : Nat) (k : ℚ) (lower isOpen : Bool) : Bound :=
  ⟨(normalizeBound P x k lower isOpen).1, (normalizeBound P x k lower isOpen).2⟩

theorem propagateBound_inconsistent (hn : n.inconsistent = false) (ha : n.bvalue x = .arith) :
    (n.propagateBound P x k lower isOpen).inconsistent = true ↔
      ∃ o, n.side x (!lower) = some o ∧ (normal P x k lower isOpen).Crosses lower o := by
  unfold Content.propagateBound normal
  generalize normalizeBound P x k lower isOpen = r
  simp only
  split
  · rw [Content.mkBound_inconsistent ha r.1 lower r.2 hn]
    have hown : (n.mkBound x r.1 lower r.2).side x lower = some ⟨r.1, r.2⟩ := by
      rw [Content.mkBound_side ha, if_pos ⟨rfl, rfl⟩]
    have hother : (n.mkBound x r.1 lower r.2).side x (!lower) = n.side x !lower := by
      rw [Content.mkBound_side ha, if_neg (by simp)]
    rw [← hother]
    constructor
    · intro hc
      obtain ⟨l, u, hl, hu, hc⟩ := Content.conflictingBounds_iff.1 hc
      cases lower
      · cases hown.symm.trans hu
        exact ⟨l, hl, hc.symm⟩
      · cases hown.symm.trans hl
        exact ⟨u, hu, hc⟩
    · rintro ⟨o, ho, hc⟩
      exact Content.conflictingBounds_of hown ho hc
  · rename_i hi
    rw [hn]
    refine iff_of_false (by decide) ?_
    rintro ⟨o, ho, hc⟩
    apply hi
    unfold Content.improveBound
    rw [if_pos]
    rw [ho, Option.any_some]
    exact crosses_iff.2 hc

/-- The side of a propagated bound holds its normal form, or the bound it did
not improve. -/
theorem propagateBound_own (ha : n.bvalue x = .arith) :
    ∃ b, (n.propagateBound P x k lower isOpen).side x lower = some b ∧
      (b = normal P x k lower isOpen ∨
        n.side x lower = some b ∧ b.Within lower (normal P x k lower isOpen)) := by
  unfold Content.propagateBound normal
  generalize normalizeBound P x k lower isOpen = r
  simp only
  split
  · exact ⟨_, by rw [Content.mkBound_side ha, if_pos ⟨rfl, rfl⟩], .inl rfl⟩
  · rename_i hi
    obtain ⟨b, hb, hw⟩ := Content.within_of_not_improveBound _ _ _ (Bool.eq_false_iff.2 hi)
    exact ⟨b, hb, .inr ⟨hb, hw⟩⟩

theorem propagateBound_bvalue (ha : n.bvalue x = .arith) :
    (n.propagateBound P x k lower isOpen).bvalue = n.bvalue := by
  unfold Content.propagateBound
  simp only
  split
  · exact Content.mkBound_bvalue ha _ _ _
  · rfl

/-- The multiples of 10^-6 on either side of a number. -/
theorem relaxed_lt (hden : maxDenominator < k.den) : relaxed true k < relaxed false k := by
  have hlow := Bound.allows_upper.1 (relaxed_allows hden true true)
  have hup := Bound.allows_lower.1 (relaxed_allows hden false true)
  have hlow : ((relaxed true k : ℚ) : ℝ) < k := by simpa using hlow
  have hup : (k : ℝ) < (relaxed false k : ℚ) := by simpa using hup
  exact_mod_cast hlow.trans hup

/-- A relaxed bound crosses what lies at or beyond the multiple of 10^-6. -/
theorem relaxed_crosses_iff (hx : P.isInt x = false) (hden : maxDenominator < k.den) :
    (∃ o, n.side x (!lower) = some o ∧ (normal P x k lower isOpen).Crosses lower o) ↔
      n.Passed x lower (relaxed lower k) := by
  unfold normal Content.Passed
  rw [normalize_relaxed hx hden]
  refine exists_congr fun o => and_congr_right fun _ => ?_
  unfold Bound.Crosses
  cases lower
  · simp only [Bool.false_eq_true, if_false, true_or, and_true]
    exact le_iff_lt_or_eq.symm
  · simp only [if_true, true_or, and_true]
    rw [eq_comm]
    exact le_iff_lt_or_eq.symm

end OneBound

/-! ## The first atom -/

/-- An equation is false where a bound keeps the variable off its constant, or
the constant is no integer. -/
theorem eq_false_cases {x : Nat} {k : ℚ} (hf : value P n (.eq x k false) = .false) :
    P.isInt x = true ∧ k.isInt = false ∨
      ∃ lower o, n.side x (!lower) = some o ∧ (Bound.mk k false).Crosses lower o := by
  have hexcl : ∀ lower, (n.side x !lower).any (excludes (!lower) k) = true →
      ∃ o, n.side x (!lower) = some o ∧ (Bound.mk k false).Crosses lower o := by
    intro lower h
    obtain ⟨o, ho, he⟩ := (Option.any_eq_true _ _).1 h
    have hc := Bound.within_iff_crosses.1 (excludes_iff.1 he)
    exact ⟨o, ho, by simpa using hc.symm⟩
  rw [value_eq] at hf
  split at hf
  · rename_i hk
    rw [Bool.and_eq_true, Bool.not_eq_true'] at hk
    exact .inl hk
  · split at hf
    · cases hf
    · split at hf
      · rename_i he
        rw [Bool.or_eq_true] at he
        exact .inr (he.elim (fun he => ⟨true, hexcl true he⟩) fun he => ⟨false, hexcl false he⟩)
      · cases hf

section FirstAtom

variable (hw : n.Well P) (hn : n.inconsistent = false)
include hw hn

theorem propagate_bool {x : Nat} {neg : Bool} (hx : P.isBool x = true)
    (hf : value P n (.bool x neg) = .false) :
    (n.propagateBvarBound x neg).inconsistent = true := by
  have ha : n.bvalue x ≠ .arith := mt (hw.arith x).1 (by rw [hx]; decide)
  have hc := (hw.consistent hn).2 x
  rw [value_bool] at hf
  rw [Content.propagateBvarBound_inconsistent ha neg hn]
  unfold Content.settled
  cases hb : n.bvalue x <;> cases neg <;> simp_all [BValue.ofNeg]

/-- A false inequality is refuted by the bound on the other side. -/
theorem propagate_ineq {x : Nat} {k : ℚ} {lower isOpen : Bool} (hx : P.isBool x = false)
    (hf : value P n (.ineq x k lower isOpen) = .false) :
    (n.propagateBound P x k lower isOpen).inconsistent = true ↔
      P.isInt x = true ∨ k.den ≤ maxDenominator ∨ n.Passed x lower (relaxed lower k) := by
  have ha := (hw.arith x).2 hx
  rw [propagateBound_inconsistent hn ha, ← or_assoc]
  by_cases hden : P.isInt x = true ∨ k.den ≤ maxDenominator
  · refine iff_of_true ?_ (.inl hden)
    rw [value_ineq] at hf
    split at hf
    · rename_i hc
      obtain ⟨o, ho, hc⟩ := (Option.any_eq_true _ _).1 hc
      exact ⟨o, ho, (normalize_within hden).crosses (crosses_iff.1 hc)⟩
    · split at hf <;> cases hf
  · rw [or_iff_right hden]
    rw [not_or, Bool.not_eq_true, not_le] at hden
    exact relaxed_crosses_iff hden.1 hden.2

/-- An equation asserts its lower bound, then its upper bound: one of them
crosses the other side, or they cross each other. -/
theorem propagateAtom_eq_inconsistent {x : Nat} {k : ℚ} (hlt : x < P.numVars)
    (hx : P.isBool x = false) :
    (n.propagateAtom P (.eq x k false)).inconsistent = true ↔
      (∃ lower o, n.side x (!lower) = some o ∧ (normal P x k lower false).Crosses lower o) ∨
      (normal P x k true false).Crosses true (normal P x k false false) := by
  have ha := (hw.arith x).2 hx
  have hlow : (n.propagateBound P x k true false).inconsistent = true ↔
      ∃ o, n.side x false = some o ∧ (normal P x k true false).Crosses true o :=
    propagateBound_inconsistent hn ha
  obtain ⟨b, hb, hor⟩ : ∃ b, (n.propagateBound P x k true false).side x true = some b ∧
      (b = normal P x k true false ∨
        n.side x true = some b ∧ b.Within true (normal P x k true false)) :=
    propagateBound_own ha
  rw [propagateAtom_eq]
  cases h₁ : (n.propagateBound P x k true false).inconsistent
  · have ha₁ : (n.propagateBound P x k true false).bvalue x = .arith := by
      rw [propagateBound_bvalue ha, ha]
    have hno := mt hlow.2 (by rw [h₁]; decide)
    rw [if_neg (by decide), propagateBound_inconsistent h₁ ha₁]
    constructor
    · rintro ⟨b', hb', hc⟩
      cases hb.symm.trans hb'
      rcases hor with rfl | ⟨hold, -⟩
      · exact .inr hc.symm
      · exact .inl ⟨false, b, hold, hc⟩
    · intro h
      refine ⟨b, hb, ?_⟩
      rcases h with ⟨lower, o, ho, hc⟩ | hc
      · cases lower
        · -- the lower bound only got tighter
          have h : Derives P (fun _ => False) n (n.propagateBound P x k true false) :=
            Derives.refl.bound x k true false hn hlt hx nofun
          obtain ⟨b', hb', hwithin⟩ := (h.tighter hw).side x true o ho
          cases hb.symm.trans hb'
          exact (hwithin.crosses hc.symm).symm
        · exact absurd ⟨o, ho, hc⟩ hno
      · rcases hor with rfl | ⟨-, hwithin⟩
        · exact hc.symm
        · exact (hwithin.crosses hc).symm
  · rw [if_pos rfl, h₁]
    obtain ⟨o, ho, hc⟩ := hlow.1 h₁
    exact iff_of_true rfl (.inl ⟨true, o, ho, hc⟩)

theorem propagate_eq {x : Nat} {k : ℚ} (hlt : x < P.numVars) (hx : P.isBool x = false)
    (hf : value P n (.eq x k false) = .false) :
    (n.propagateAtom P (.eq x k false)).inconsistent = true ↔
      P.isInt x = true ∨ k.den ≤ maxDenominator ∨ ∃ lower, n.Passed x lower (relaxed lower k) := by
  rw [propagateAtom_eq_inconsistent hw hn hlt hx, ← or_assoc]
  by_cases hden : P.isInt x = true ∨ k.den ≤ maxDenominator
  · refine iff_of_true ?_ (.inl hden)
    rcases eq_false_cases hf with ⟨hint, hk⟩ | ⟨lower, o, ho, hc⟩
    · right
      have hne : ∀ m : ℤ, k ≠ m := fun m hm => by
        rw [isInt_iff.2 ⟨m, hm⟩] at hk
        cases hk
      have hfloor : (⌊k⌋ : ℚ) < k := lt_of_le_of_ne (Int.floor_le k) (hne _).symm
      have hceil : k < ⌈k⌉ := lt_of_le_of_ne (Int.le_ceil k) (hne _)
      left
      simpa [normal, normalizeBound, adjustIntegerBound, hint, hk] using hfloor.trans hceil
    · exact .inl ⟨lower, o, ho, (normalize_within hden).crosses hc⟩
  · rw [or_iff_right hden]
    rw [not_or, Bool.not_eq_true, not_le] at hden
    -- the two relaxed bounds leave room between them
    have hroom : ¬ (normal P x k true false).Crosses true (normal P x k false false) := by
      have hlt := relaxed_lt hden.2
      unfold normal Bound.Crosses
      rw [normalize_relaxed hden.1 hden.2, normalize_relaxed hden.1 hden.2]
      simp only [if_true, true_or, and_true, not_or, not_lt]
      exact ⟨hlt.le, hlt.ne⟩
    rw [or_iff_left hroom]
    exact exists_congr fun lower => relaxed_crosses_iff hden.1 hden.2

end FirstAtom

/-- **When a falsified clause makes the node inconsistent**: the first atom is
Boolean, its variable is an integer, its constant has a small denominator, or
a bound that refutes it lies beyond the next multiple of 10^-6. -/
theorem propagateClause_inconsistent (hw : n.Well P) (hn : n.inconsistent = false) {a : Lit}
    {rest : List Lit} (hs : ∀ b ∈ a :: rest, b.x < P.numVars ∧ P.isBool b.x = b.isBoolLit)
    (hne : ∀ x k, .eq x k true ∉ a :: rest) (hf : ∀ b ∈ a :: rest, value P n b = .false) :
    (n.propagateClause P (a :: rest)).inconsistent = true ↔ a.Refutable P n := by
  have hopen : n.openAtoms P (a :: rest) = some [] := by
    unfold Content.openAtoms
    rw [if_neg, List.filter_eq_nil_iff.2]
    · intro b hb
      rw [hf b hb]
      decide
    · rw [List.any_eq_true]
      rintro ⟨b, hb, ht⟩
      rw [hf b hb] at ht
      cases ht
  have hfirst : n.propagateClause P (a :: rest) = n.propagateAtom P a := by
    unfold Content.propagateClause
    rw [hopen]
  have hfa := hf a List.mem_cons_self
  obtain ⟨hlt, hsort⟩ := hs a List.mem_cons_self
  rw [hfirst]
  unfold Lit.Refutable
  cases a with
  | bool x neg => exact iff_of_true (propagate_bool hw hn hsort hfa) (.inl rfl)
  | ineq x k lower isOpen =>
    refine (propagate_ineq hw hn hsort hfa).trans ?_
    simp [Lit.isBoolLit, Lit.x, Lit.constant, Lit.Asserts]
  | eq x k neg =>
    cases neg with
    | true => exact absurd List.mem_cons_self (hne x k)
    | false =>
      refine (propagate_eq hw hn hlt hsort hfa).trans ?_
      simp [Lit.isBoolLit, Lit.x, Lit.constant, Lit.Asserts]

/-- `x ≤ 10⁻⁹` and `y ≤ 0`, with the clause `x ≥ 3/(10⁹+7) ∨ y ≥ 1`. -/
def belowRelaxed : Problem :=
  .ofAtoms 2 (fun _ => false) (fun _ => false)
    [.ineq 0 (1 / 1000000000) false false, .ineq 1 0 false false]
    [[.ineq 0 (3 / 1000000007) true false, .ineq 1 1 true false]] rfl

def belowRoot : Content := initRoot belowRelaxed defaults defaultManager

/-- Both atoms are false, and the node only learns `x > 0`. -/
theorem propagateClause_consistent :
    belowRoot.inconsistent = false ∧
    [Lit.ineq 0 (3 / 1000000007) true false, .ineq 1 1 true false] ∈ belowRelaxed.clauses ∧
    (∀ b ∈ [Lit.ineq 0 (3 / 1000000007) true false, .ineq 1 1 true false],
      value belowRelaxed belowRoot b = .false) ∧
    (belowRoot.propagateClause belowRelaxed
      [.ineq 0 (3 / 1000000007) true false, .ineq 1 1 true false]).inconsistent = false :=
  ⟨by decide, List.mem_singleton_self _, by decide +kernel, by decide +kernel⟩

/-- With `x ≥ 1` for the first atom the node does become inconsistent. -/
theorem propagateClause_inconsistent_below :
    (belowRoot.propagateClause belowRelaxed
        [.ineq 0 1 true false, .ineq 1 1 true false]).inconsistent = true ∧
      (Lit.ineq 0 1 true false).Refutable belowRelaxed belowRoot := by
  have hinc : (belowRoot.propagateClause belowRelaxed
      [.ineq 0 1 true false, .ineq 1 1 true false]).inconsistent = true := by decide +kernel
  exact ⟨hinc, (propagateClause_inconsistent initRoot_well (by decide) (by decide) (by simp)
    (by decide +kernel)).1 hinc⟩

end AriParti.L1
