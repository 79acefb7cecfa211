import AriParti.L1Bounds.Carried
import AriParti.L1Bounds.Normal

/-!
# The value of an atom is exact

`value` compares the constant of an atom with the bounds of its variable. At a
consistent node whose integer variables have closed integer bounds the answer
is not only sound: an atom without a value really is open.

## Results

* `Content.Rounded`, `Reached.rounded`: what is used of the normal form of the
  bounds.
* `exists_value`: a bound that the other side does not refute allows an
  admissible value.
* `value_exact`: true when every admissible value satisfies the atom, false
  when none does, undefined when some do and some do not.
-/
namespace AriParti.L1

variable {P : Problem} {n n' : Content} {x : Nat} {k : ℚ} {lower isOpen : Bool}

/-! ## Normalized bounds -/

/-- The bounds of the integer variables are closed and integral. -/
def Content.Rounded (P : Problem) (n : Content) : Prop :=
  ∀ x lower b, P.isInt x = true → n.side x lower = some b → b.isOpen = false ∧ b.val.isInt = true

/-- So they are in every node. -/
theorem Reached.rounded {pr : Params} {im : IntervalManager} (h : Reached P pr im n) :
    n.Rounded P :=
  fun x lower b hx hb => (h.stored x lower b hb).int hx

/-! ## Admissible values -/

/-- The values of an arithmetic variable within its bounds, integers for an
integer variable. -/
def Content.values (P : Problem) (n : Content) (x : Nat) : Set ℝ :=
  { v | v ∈ n.range x ∧ (P.isInt x = true → ∃ m : ℤ, v = m) }

/-- `σ` gives `x` an admissible value. -/
def AdmitsAt (P : Problem) (n : Content) (x : Nat) (σ : Assignment) : Prop :=
  σ.num x ∈ n.values P x ∧ (n.bvalue x).Allows (σ.bool x)

/-- An atom is about one variable. -/
theorem Lit.holds_congr {a : Lit} {σ τ : Assignment} (hnum : τ.num a.x = σ.num a.x)
    (hbool : τ.bool a.x = σ.bool a.x) : a.Holds τ ↔ a.Holds σ := by
  cases a with
  | bool x neg =>
    show τ.bool x = _ ↔ σ.bool x = _
    rw [show τ.bool x = σ.bool x from hbool]
  | eq x k neg =>
    show (if neg then τ.num x ≠ k else τ.num x = k) ↔ if neg then σ.num x ≠ k else σ.num x = k
    rw [show τ.num x = σ.num x from hnum]
  | ineq x k lower isOpen =>
    show (Bound.mk k isOpen).Allows lower (τ.num x) ↔ (Bound.mk k isOpen).Allows lower (σ.num x)
    rw [show τ.num x = σ.num x from hnum]

/-- A side without bound allows numbers far out. -/
theorem exists_far (lower : Bool) (b : Option Bound) (k : Bound) :
    ∃ m : ℤ, (∀ b', b = some b' → b'.Allows lower m) ∧ k.Allows lower m := by
  obtain ⟨c, hb, hk, -⟩ := Bound.exists_within_both b k lower
  obtain ⟨m, hm⟩ : ∃ m : ℤ, c.Allows lower m := by
    cases lower
    · refine ⟨⌊c.val⌋ - 1, Bound.allows_upper.2 (.inl ?_)⟩
      have : ((⌊c.val⌋ : ℤ) : ℚ) - 1 < c.val := by linarith [Int.floor_le c.val]
      exact_mod_cast this
    · refine ⟨⌈c.val⌉ + 1, Bound.allows_lower.2 (.inl ?_)⟩
      have : c.val < ((⌈c.val⌉ : ℤ) : ℚ) + 1 := by linarith [Int.le_ceil c.val]
      exact_mod_cast this
  exact ⟨m, fun b' hb' => (hb b' hb').allows hm, hk.allows hm⟩

/-- The number of a closed bound is on the allowed side. -/
theorem Bound.allows_self {b : Bound} (h : b.isOpen = false) (lower : Bool) :
    b.Allows lower (b.val : ℝ) := by
  cases lower
  · exact Bound.allows_upper.2 (.inr ⟨h, rfl⟩)
  · exact Bound.allows_lower.2 (.inr ⟨h, rfl⟩)

/-- A closed bound that is not crossed is reached. -/
theorem Bound.allows_of_not_crosses {b o : Bound} (h : ¬ b.Crosses lower o)
    (ho : o.isOpen = false) : b.Allows lower (o.val : ℝ) := by
  by_contra hb
  apply h
  have hc := Bound.within_iff_crosses.1 (Bound.within_open_iff.2 hb)
  rw [Bool.not_true, ← ho] at hc
  exact hc

section Consistent

variable (hw : n.Well P) (hn : n.inconsistent = false) (hr : n.Rounded P)
include hw hn hr

/-- A bound that the other side does not refute allows an admissible value. -/
theorem exists_value
    (hother : ∀ o, n.side x (!lower) = some o → ¬ o.Within (!lower) ⟨k, !isOpen⟩) :
    ∃ v ∈ n.values P x, (Bound.mk k isOpen).Allows lower v := by
  cases ho : n.side x (!lower) with
  | none =>
    obtain ⟨m, hm, hk⟩ := exists_far lower (n.side x lower) ⟨k, isOpen⟩
    refine ⟨m, ⟨(Content.mem_range lower).2 ⟨hm, fun o ho' => ?_⟩, fun _ => ⟨m, rfl⟩⟩, hk⟩
    rw [ho] at ho'
    cases ho'
  | some o =>
    have hcross : ¬ o.Crosses (!lower) ⟨k, isOpen⟩ := by
      have := mt Bound.within_iff_crosses.2 (hother o ho)
      rwa [Bool.not_not] at this
    by_cases hx : P.isInt x = true
    · -- the bound of the other side is an integer that satisfies the atom
      obtain ⟨hopen, hint⟩ := hr x _ o hx ho
      obtain ⟨m, hm⟩ := isInt_iff.1 hint
      refine ⟨o.val, ⟨(Content.mem_range lower).2 ⟨fun b hb => ?_, fun o' ho' => ?_⟩, fun _ => ?_⟩, ?_⟩
      · exact Bound.allows_of_not_crosses (hw.not_crosses hn hb ho) hopen
      · rw [ho] at ho'
        cases ho'
        exact Bound.allows_self hopen _
      · exact ⟨m, by exact_mod_cast hm⟩
      · exact Bound.allows_of_not_crosses (fun h => hcross h.symm) hopen
    · obtain ⟨c, hown, hk, hor⟩ := Bound.exists_within_both (n.side x lower) ⟨k, isOpen⟩ lower
      have hc : ¬ c.Crosses lower o := by
        rcases hor with rfl | hb
        · exact fun h => hcross h.symm
        · exact hw.not_crosses hn hb ho
      obtain ⟨v, hv, hov⟩ := Bound.exists_allows hc
      refine ⟨v, ⟨(Content.mem_range lower).2 ⟨fun b hb => (hown b hb).allows hv, fun o' ho' => ?_⟩,
        fun hx' => absurd hx' hx⟩, hk.allows hv⟩
      rw [ho] at ho'
      cases ho'
      exact hov

/-- There is one in any case. -/
theorem values_nonempty (x : Nat) : ∃ v, v ∈ n.values P x := by
  obtain ⟨b, hb⟩ : ∃ b : Bound, ∀ o, n.side x false = some o → ¬ o.Crosses false b := by
    cases ho : n.side x false with
    | none => exact ⟨⟨0, false⟩, nofun⟩
    | some o =>
      obtain ⟨b, hb⟩ := Bound.exists_not_crosses true o
      refine ⟨b, fun o' ho' hc => hb ?_⟩
      cases ho'
      exact hc.symm
  obtain ⟨v, hv, -⟩ := @exists_value P n x b.val true b.isOpen hw hn hr
    (by
      intro o ho hwithin
      have hc := Bound.within_iff_crosses.1 hwithin
      rw [Bool.not_not] at hc
      exact hb o ho hc)
  exact ⟨v, hv⟩

/-- An open cut leaves admissible values on both sides. -/
theorem ineq_undef_values (hv : value P n (.ineq x k lower isOpen) = .undef) :
    (∃ v ∈ n.values P x, (Bound.mk k isOpen).Allows lower v) ∧
      ∃ v ∈ n.values P x, ¬ (Bound.mk k isOpen).Allows lower v := by
  obtain ⟨hown, hother⟩ := value_undef_iff.1 hv
  refine ⟨exists_value hw hn hr hother, ?_⟩
  obtain ⟨v, hv, hk⟩ := @exists_value P n x k (!lower) (!isOpen) hw hn hr
    (by rw [Bool.not_not, Bool.not_not]; exact hown)
  exact ⟨v, hv, Bound.allows_not.1 hk⟩

/-- The constant of an open equation is admissible, and so is another value. -/
theorem eq_undef_values {neg : Bool} (hv : value P n (.eq x k neg) = .undef) :
    (k : ℝ) ∈ n.values P x ∧ ∃ v ∈ n.values P x, v ≠ k := by
  rw [value_eq] at hv
  split at hv
  · cases neg <;> cases hv
  rename_i hint
  split at hv
  · cases neg <;> cases hv
  rename_i hfix
  split at hv
  · cases neg <;> cases hv
  rename_i hex
  -- neither side excludes the constant
  have hoff : ∀ l b, n.side x l = some b → ¬ b.Within l ⟨k, true⟩ := by
    intro l b hb hwithin
    have hany : (n.side x l).any (excludes l k) = true :=
      (Option.any_eq_true _ _).2 ⟨b, hb, excludes_iff.2 hwithin⟩
    apply hex
    cases l
    · rw [hany, Bool.true_or]
    · rw [hany, Bool.or_true]
  constructor
  · refine ⟨fun l b hb => not_not.1 (mt Bound.within_open_iff.2 (hoff l b hb)), fun hx => ?_⟩
    rw [hx, Bool.true_and, Bool.not_eq_true', Bool.not_eq_false] at hint
    obtain ⟨m, hm⟩ := isInt_iff.1 hint
    exact ⟨m, by exact_mod_cast hm⟩
  · -- one of the sides has no bound at the constant, and goes beyond it
    obtain ⟨l, hl⟩ : ∃ l, ∀ b, n.side x l = some b → b.val ≠ k := by
      by_contra hall
      push Not at hall
      obtain ⟨u, hu, huk⟩ := hall false
      obtain ⟨b, hb, hbk⟩ := hall true
      apply hfix
      rw [hu, hb, Option.any_some, Option.any_some, huk, hbk, beq_self_eq_true, Bool.and_true]
    obtain ⟨v, hv, hk⟩ := @exists_value P n x k (!l) true hw hn hr
      (by
        rw [Bool.not_not]
        intro b hb hwithin
        have hne := hl b hb
        refine hoff l b hb (.inl ?_)
        exact hwithin.resolve_right fun h => hne h.1)
    refine ⟨v, hv, ?_⟩
    rintro rfl
    cases l
    · simp [Bound.allows_lower] at hk
    · simp [Bound.allows_upper] at hk

/-- Every admissible value of `x` belongs to an assignment within all the
bounds of the node. -/
theorem AdmitsAt.extend {σ : Assignment} (h : AdmitsAt P n x σ) :
    ∃ τ, Admits n τ ∧ (∀ y, P.isInt y = true → ∃ m : ℤ, τ.num y = m) ∧
      τ.num x = σ.num x ∧ τ.bool x = σ.bool x := by
  choose v hv using values_nonempty hw hn hr
  obtain ⟨b, hb⟩ : ∃ b : Nat → Bool, ∀ y, (n.bvalue y).Allows (b y) := by
    refine ⟨fun y => n.bvalue y = .true, fun y => ?_⟩
    have hno := (hw.consistent hn).2 y
    show (n.bvalue y).Allows (decide (n.bvalue y = .true))
    cases hy : n.bvalue y <;> simp_all [BValue.Allows]
  refine ⟨⟨Function.update v x (σ.num x), Function.update b x (σ.bool x)⟩, ⟨fun y => ?_, fun y => ?_⟩,
    fun y => ?_, Function.update_self .., Function.update_self ..⟩
  · show ∀ lower b, n.side y lower = some b → b.Allows lower (Function.update v x (σ.num x) y)
    by_cases hy : y = x
    · subst hy
      rw [Function.update_self]
      exact h.1.1
    · rw [Function.update_of_ne hy]
      exact (hv y).1
  · show (n.bvalue y).Allows (Function.update b x (σ.bool x) y)
    by_cases hy : y = x
    · subst hy
      rw [Function.update_self]
      exact h.2
    · rw [Function.update_of_ne hy]
      exact hb y
  · show _ → ∃ m : ℤ, Function.update v x (σ.num x) y = m
    by_cases hy : y = x
    · subst hy
      rw [Function.update_self]
      exact h.1.2
    · rw [Function.update_of_ne hy]
      exact (hv y).2

/-- A value says the same of every admissible value. -/
theorem value_all {a : Lit} (hs : P.isBool a.x = a.isBoolLit) {σ : Assignment}
    (h : AdmitsAt P n a.x σ) :
    (value P n a = .true → a.Holds σ) ∧ (value P n a = .false → ¬ a.Holds σ) := by
  obtain ⟨τ, hτ, hint, hnum, hbool⟩ := h.extend hw hn hr
  have ha : a.isBoolLit = true → n.bvalue a.x ≠ .arith := by
    intro hb he
    rw [(hw.arith a.x).1 he, hb] at hs
    cases hs
  rw [← Lit.holds_congr hnum hbool]
  exact value_sound hint hτ a ha

/-- An atom without a value is open. -/
theorem value_open {a : Lit} (hs : P.isBool a.x = a.isBoolLit) (hv : value P n a = .undef) :
    (∃ σ, AdmitsAt P n a.x σ ∧ a.Holds σ) ∧ ∃ σ, AdmitsAt P n a.x σ ∧ ¬ a.Holds σ := by
  have harith : a.isBoolLit = false → ∀ v ∈ n.values P a.x,
      AdmitsAt P n a.x ⟨fun _ => v, fun _ => false⟩ := by
    intro hb v hmem
    refine ⟨hmem, ?_⟩
    rw [(hw.arith a.x).2 (hs.trans hb)]
    trivial
  cases a with
  | bool x neg =>
    obtain ⟨v, hmem⟩ := values_nonempty hw hn hr x
    have hx : n.bvalue x = .undef := by
      rw [value_bool] at hv
      split at hv
      · assumption
      · split at hv <;> cases hv
    have hall : ∀ b, AdmitsAt P n x ⟨fun _ => v, fun _ => b⟩ := by
      intro b
      refine ⟨hmem, ?_⟩
      rw [hx]
      trivial
    refine ⟨⟨_, hall (!neg), rfl⟩, _, hall neg, ?_⟩
    show ¬ neg = !neg
    cases neg <;> decide
  | eq x k neg =>
    obtain ⟨hk, v, hmem, hne⟩ := eq_undef_values hw hn hr hv
    have hk := harith rfl k hk
    have hmem := harith rfl v hmem
    cases neg
    · exact ⟨⟨_, hk, rfl⟩, _, hmem, hne⟩
    · exact ⟨⟨_, hmem, hne⟩, _, hk, fun h => h rfl⟩
  | ineq x k lower isOpen =>
    obtain ⟨⟨v, hv, hk⟩, w, hw', hk'⟩ := ineq_undef_values hw hn hr hv
    exact ⟨⟨_, harith rfl v hv, hk⟩, _, harith rfl w hw', hk'⟩

theorem admitsAt_nonempty (x : Nat) : ∃ σ, AdmitsAt P n x σ := by
  obtain ⟨v, hv⟩ := values_nonempty hw hn hr x
  have hno := (hw.consistent hn).2 x
  refine ⟨⟨fun _ => v, fun _ => n.bvalue x = .true⟩, hv, ?_⟩
  show (n.bvalue x).Allows (decide (n.bvalue x = .true))
  cases hx : n.bvalue x <;> simp_all [BValue.Allows]

end Consistent

/-- **The value of an atom is exact.** At a consistent node with normalized
bounds an atom is true when all admissible values of its variable satisfy it,
false when none does, and undefined when some do and some do not. -/
theorem value_exact (hw : n.Well P) (hn : n.inconsistent = false) (hr : n.Rounded P) {a : Lit}
    (hs : P.isBool a.x = a.isBoolLit) :
    (value P n a = .true ↔ ∀ σ, AdmitsAt P n a.x σ → a.Holds σ) ∧
    (value P n a = .false ↔ ∀ σ, AdmitsAt P n a.x σ → ¬ a.Holds σ) ∧
    (value P n a = .undef ↔
      (∃ σ, AdmitsAt P n a.x σ ∧ a.Holds σ) ∧ ∃ σ, AdmitsAt P n a.x σ ∧ ¬ a.Holds σ) := by
  obtain ⟨σ₀, h₀⟩ := admitsAt_nonempty hw hn hr a.x
  have htrue : value P n a = .true → ∀ σ, AdmitsAt P n a.x σ → a.Holds σ :=
    fun h σ hσ => (value_all hw hn hr hs hσ).1 h
  have hfalse : value P n a = .false → ∀ σ, AdmitsAt P n a.x σ → ¬ a.Holds σ :=
    fun h σ hσ => (value_all hw hn hr hs hσ).2 h
  have hopen := value_open hw hn hr hs
  -- the three cases exclude each other
  cases hv : value P n a with
  | true =>
    have hall := htrue hv
    exact ⟨iff_of_true rfl hall, iff_of_false nofun fun h => h σ₀ h₀ (hall σ₀ h₀),
      iff_of_false nofun fun ⟨_, σ, hσ, h⟩ => h (hall σ hσ)⟩
  | false =>
    have hnone := hfalse hv
    exact ⟨iff_of_false nofun fun h => hnone σ₀ h₀ (h σ₀ h₀), iff_of_true rfl hnone,
      iff_of_false nofun fun ⟨⟨σ, hσ, h⟩, _⟩ => hnone σ hσ h⟩
  | undef =>
    obtain ⟨⟨σ, hσ, h⟩, τ, hτ, h'⟩ := hopen hv
    exact ⟨iff_of_false nofun fun hall => h' (hall τ hτ), iff_of_false nofun fun hno => hno σ hσ h,
      iff_of_true rfl ⟨⟨σ, hσ, h⟩, τ, hτ, h'⟩⟩

/-- An integer from 0 to 5 that is not 0. -/
def zeroToFive : Problem :=
  .ofAtoms 2 (fun x => x = 0) (fun x => x ≠ 0) [.ineq 0 0 true false, .ineq 0 5 false false]
    [[.ineq 0 0 false true, .ineq 0 0 true true]] rfl

/-- A strict atom of a disequality is open at 0..5. -/
theorem value_exact_strict :
    value zeroToFive (initRoot zeroToFive defaults defaultManager) (.ineq 0 0 true true) = .undef ∧
    (∃ σ, AdmitsAt zeroToFive (initRoot zeroToFive defaults defaultManager) 0 σ ∧
      (Lit.ineq 0 0 true true).Holds σ) ∧
    ∃ σ, AdmitsAt zeroToFive (initRoot zeroToFive defaults defaultManager) 0 σ ∧
      ¬ (Lit.ineq 0 0 true true).Holds σ := by
  have hv : value zeroToFive (initRoot zeroToFive defaults defaultManager) (.ineq 0 0 true true) = .undef := by
    decide +kernel
  exact ⟨hv, (value_exact initRoot_well (by decide +kernel) initRoot_reached.rounded
    (by decide)).2.2.1 hv⟩

end AriParti.L1
