import Mathlib.Algebra.BigOperators.Group.List.Basic
import Mathlib.Algebra.Ring.Int.Parity
import Mathlib.Algebra.Order.Archimedean.Real.Basic
import Mathlib.Tactic.Linarith
import Mathlib.Tactic.FieldSimp
import Mathlib.Tactic.Positivity
import Mathlib.Tactic.NormNum
import Mathlib.Tactic.Ring
import AriParti.L1Bounds.Split

/-!
# What the data means

An assignment gives a real number to each arithmetic variable and a truth
value to each Boolean one. It respects a problem when the integer variables
without a definition are integers and each defined variable is its monomial or
sum; it is a model when the unit clauses and the clauses hold as well. It is
admitted by the contents of a node when it lies within all their bounds and
Boolean values.

## Results

* `Respects.isInt`: a variable the partitioner takes for an integer is one, if
  no monomial mixes sorts.
* `normalize_allows`: a normalized bound follows from the bound.
* `value_sound`: what an admitted assignment says about an atom with a value.
-/
namespace AriParti.L1

structure Assignment where
  num : Nat → ℝ
  bool : Nat → Bool

/-- `v` is on the allowed side of `b`, a lower bound if `lower` is set. -/
def Bound.Allows (b : Bound) (lower : Bool) (v : ℝ) : Prop :=
  if lower then b.allowsAbove v else b.allowsBelow v

def Lit.Holds (σ : Assignment) : Lit → Prop
  | bool x neg => σ.bool x = !neg
  | eq x k neg => if neg then σ.num x ≠ k else σ.num x = k
  | ineq x k lower isOpen => (Bound.mk k isOpen).Allows lower (σ.num x)

/-- The value of a defined variable. -/
def Definition.eval (σ : Assignment) : Definition → ℝ
  | monomial ps => (ps.map fun p => σ.num p.1 ^ p.2).prod
  | polynomial ts => (ts.map fun t => (t.1 : ℝ) * σ.num t.2).sum

variable (P : Problem)

structure Respects (σ : Assignment) : Prop where
  int : ∀ x, P.defs x = none → P.isInt x = true → ∃ k : ℤ, σ.num x = k
  defs : ∀ x d, P.defs x = some d → σ.num x = d.eval σ

/-- A solution of the problem. -/
structure Model (σ : Assignment) : Prop extends Respects P σ where
  units : ∀ a ∈ P.unitClauses, a.Holds σ
  clauses : ∀ c ∈ P.clauses, ∃ a ∈ c, a.Holds σ

/-- The variables of each monomial are all integer or all real. -/
def SingleSort : Prop :=
  ∀ x ps, P.defs x = some (.monomial ps) → ∀ p ∈ ps, ∀ q ∈ ps, P.isInt p.1 = P.isInt q.1

def BValue.Allows (b : Bool) : BValue → Prop
  | conflict => False
  | false => b = Bool.false
  | true => b = Bool.true
  | undef => True
  | arith => True

/-- The assignment lies within the bounds and Boolean values of `n`. -/
structure Admits (n : Content) (σ : Assignment) : Prop where
  side : ∀ x lower b, n.side x lower = some b → b.Allows lower (σ.num x)
  bool : ∀ x, (n.bvalue x).Allows (σ.bool x)

/-- The assignment satisfies the task. -/
structure Task.Holds (t : Task) (σ : Assignment) : Prop where
  clauses : ∀ c ∈ t.clauses, ∃ a ∈ c, a.Holds σ
  varBounds : ∀ a ∈ t.varBounds, a.Holds σ

variable {P}

/-! ## One-sided bounds -/

theorem Bound.allows_lower {b : Bound} {v : ℝ} :
    b.Allows true v ↔ (b.val : ℝ) < v ∨ b.isOpen = false ∧ (b.val : ℝ) = v := by
  unfold Bound.Allows Bound.allowsAbove
  rw [if_pos rfl]
  cases hb : b.isOpen
  · simp [le_iff_lt_or_eq]
  · simp

theorem Bound.allows_upper {b : Bound} {v : ℝ} :
    b.Allows false v ↔ v < (b.val : ℝ) ∨ b.isOpen = false ∧ v = (b.val : ℝ) := by
  unfold Bound.Allows Bound.allowsBelow
  rw [if_neg (by decide)]
  cases hb : b.isOpen
  · simp [le_iff_lt_or_eq]
  · simp

/-- The opposite bound is the negation. -/
theorem Bound.allows_not {k : ℚ} {isOpen lower : Bool} {v : ℝ} :
    (Bound.mk k !isOpen).Allows (!lower) v ↔ ¬ (Bound.mk k isOpen).Allows lower v := by
  cases lower <;> cases isOpen <;>
    simp [Bound.Allows, Bound.allowsAbove, Bound.allowsBelow]

/-- `b` is at least as tight as `k`, two bounds on one side. -/
def Bound.Within (lower : Bool) (b k : Bound) : Prop :=
  (if lower then k.val < b.val else b.val < k.val) ∨
    b.val = k.val ∧ (k.isOpen = true → b.isOpen = true)

/-- No value satisfies `b` and the bound `o` on the other side. -/
def Bound.Crosses (lower : Bool) (b o : Bound) : Prop :=
  (if lower then o.val < b.val else b.val < o.val) ∨
    b.val = o.val ∧ (b.isOpen = true ∨ o.isOpen = true)

theorem Bound.Within.refl (lower : Bool) (b : Bound) : b.Within lower b := .inr ⟨rfl, id⟩

theorem Bound.Within.trans {lower : Bool} {a b c : Bound} (h₁ : a.Within lower b)
    (h₂ : b.Within lower c) : a.Within lower c := by
  unfold Bound.Within at *
  cases lower <;> grind

theorem Bound.within_total (lower : Bool) (a b : Bound) :
    a.Within lower b ∨ b.Within lower a := by
  unfold Bound.Within
  cases lower <;> grind

theorem Bound.Within.allows {lower : Bool} {b k : Bound} (h : b.Within lower k) {v : ℝ}
    (hb : b.Allows lower v) : k.Allows lower v := by
  cases lower
  · rw [Bound.allows_upper] at hb ⊢
    rcases h with h | ⟨he, ho⟩
    · have h : (b.val : ℝ) < k.val := by exact_mod_cast h
      exact .inl (hb.elim (·.trans h) fun hb => hb.2 ▸ h)
    · rw [← he]
      exact hb.imp_right fun hb => ⟨Bool.not_eq_true _ ▸ fun hk => by simp [ho hk] at hb, hb.2⟩
  · rw [Bound.allows_lower] at hb ⊢
    rcases h with h | ⟨he, ho⟩
    · have h : (k.val : ℝ) < b.val := by exact_mod_cast h
      exact .inl (hb.elim h.trans fun hb => hb.2 ▸ h)
    · rw [← he]
      exact hb.imp_right fun hb => ⟨Bool.not_eq_true _ ▸ fun hk => by simp [ho hk] at hb, hb.2⟩

theorem Bound.Crosses.not_allows {lower : Bool} {b o : Bound} (h : b.Crosses lower o) {v : ℝ}
    (hb : b.Allows lower v) : ¬ o.Allows (!lower) v := by
  intro ho
  cases lower
  · rw [Bound.allows_upper] at hb
    rw [Bool.not_false, Bound.allows_lower] at ho
    rcases h with h | ⟨he, hopen⟩
    · have h : (b.val : ℝ) < o.val := by exact_mod_cast h
      have : v ≤ b.val := hb.elim le_of_lt fun hb => hb.2.le
      have : (o.val : ℝ) ≤ v := ho.elim le_of_lt fun ho => ho.2.le
      linarith
    · rw [← he] at ho
      grind
  · rw [Bound.allows_lower] at hb
    rw [Bool.not_true, Bound.allows_upper] at ho
    rcases h with h | ⟨he, hopen⟩
    · have h : (o.val : ℝ) < b.val := by exact_mod_cast h
      have : (b.val : ℝ) ≤ v := hb.elim le_of_lt fun hb => hb.2.le
      have : v ≤ o.val := ho.elim le_of_lt fun ho => ho.2.le
      linarith
    · rw [← he] at ho
      grind

theorem noBetter_iff {lower isOpen : Bool} {k : ℚ} {c : Bound} :
    Content.noBetter lower k isOpen c = true ↔ c.Within lower ⟨k, isOpen⟩ := by
  unfold Content.noBetter Bound.Within
  cases lower <;> cases isOpen <;> grind

theorem crosses_iff {lower isOpen : Bool} {k : ℚ} {o : Bound} :
    Content.crosses lower k isOpen o = true ↔ (Bound.mk k isOpen).Crosses lower o := by
  unfold Content.crosses Bound.Crosses
  cases lower <;> cases isOpen <;> grind

theorem Admits.interval {n : Content} {σ : Assignment} (h : Admits n σ) (x : Nat) :
    (n.interval x).Mem (σ.num x) :=
  ⟨h.side x true, h.side x false⟩

/-! ## Integers -/

theorem isInt_iff {q : ℚ} : q.isInt = true ↔ ∃ k : ℤ, q = k := by
  show (q.den == 1) = true ↔ _
  rw [beq_iff_eq]
  constructor
  · exact fun h => ⟨q.num, (Rat.den_eq_one_iff q).1 h ▸ rfl⟩
  · rintro ⟨k, rfl⟩
    exact Rat.den_intCast k

theorem prod_int {σ : Assignment} {ps : List (Nat × Nat)}
    (h : ∀ p ∈ ps, ∃ k : ℤ, σ.num p.1 = k) :
    ∃ k : ℤ, (ps.map fun p => σ.num p.1 ^ p.2).prod = k := by
  induction ps with
  | nil => exact ⟨1, by simp⟩
  | cons p ps ih =>
    obtain ⟨a, ha⟩ := h p List.mem_cons_self
    obtain ⟨b, hb⟩ := ih fun q hq => h q (List.mem_cons_of_mem p hq)
    refine ⟨a ^ p.2 * b, ?_⟩
    rw [List.map_cons, List.prod_cons, ha, hb]
    push_cast
    rfl

theorem sum_int {σ : Assignment} {ts : List (ℚ × Nat)}
    (h : ∀ t ∈ ts, (∃ k : ℤ, σ.num t.2 = k) ∧ ∃ k : ℤ, t.1 = k) :
    ∃ k : ℤ, (ts.map fun t => (t.1 : ℝ) * σ.num t.2).sum = k := by
  induction ts with
  | nil => exact ⟨0, by simp⟩
  | cons t ts ih =>
    obtain ⟨⟨a, ha⟩, c, hc⟩ := h t List.mem_cons_self
    obtain ⟨b, hb⟩ := ih fun q hq => h q (List.mem_cons_of_mem t hq)
    refine ⟨c * a + b, ?_⟩
    rw [List.map_cons, List.sum_cons, ha, hb, hc]
    push_cast
    rfl

/-- Every variable taken for an integer is one: the variables of a definition
are made before it, and one integer variable of a monomial makes all of them
integer. -/
theorem Respects.isInt (hP : SingleSort P) {σ : Assignment} (h : Respects P σ) (x : Nat)
    (hx : P.isInt x = true) : ∃ k : ℤ, σ.num x = k := by
  induction x using Nat.strong_induction_on with
  | _ x ih =>
    cases hd : P.defs x with
    | none => exact h.int x hd hx
    | some d =>
      have hlt := (P.defs_lt x d hd).2
      have hint := P.defs_isInt x d hd
      rw [hx, eq_comm] at hint
      rw [h.defs x d hd]
      cases d with
      | monomial ps =>
        rw [Definition.isInt, List.any_eq_true] at hint
        obtain ⟨q, hq, hqi⟩ := hint
        exact prod_int fun p hp =>
          ih p.1 (hlt p.1 (List.mem_map_of_mem hp)) (by rw [hP x ps hd p hp q hq, hqi])
      | polynomial ts =>
        rw [Definition.isInt, List.all_eq_true] at hint
        apply sum_int
        intro t ht
        have hti := hint t ht
        rw [Bool.and_eq_true] at hti
        exact ⟨ih t.2 (hlt t.2 (List.mem_map_of_mem ht)) hti.1, isInt_iff.1 hti.2⟩

/-! ## Normalization -/

/-- Rounding inwards changes nothing for an integer. -/
theorem adjustIntegerBound_iff (val : ℚ) (lower isOpen : Bool) (m : ℤ) :
    (Bound.mk (adjustIntegerBound val lower isOpen).1
      (adjustIntegerBound val lower isOpen).2).Allows lower m ↔
      (Bound.mk val isOpen).Allows lower m := by
  by_cases hval : val.isInt = true
  · obtain ⟨k, rfl⟩ := isInt_iff.1 hval
    cases isOpen
    · simp [adjustIntegerBound, hval]
    · cases lower
      · have : (m : ℝ) ≤ (k : ℝ) - 1 ↔ (m : ℝ) < k := by
          exact_mod_cast Int.le_sub_one_iff
        simpa [adjustIntegerBound, hval, Bound.Allows, Bound.allowsBelow] using this
      · have : (k : ℝ) + 1 ≤ (m : ℝ) ↔ (k : ℝ) < m := by
          exact_mod_cast Int.add_one_le_iff
        simpa [adjustIntegerBound, hval, Bound.Allows, Bound.allowsAbove] using this
  · -- the constant is no integer, so the bound may be taken as closed
    have hne : (val : ℝ) ≠ m := by
      intro he
      exact hval (isInt_iff.2 ⟨m, by exact_mod_cast he⟩)
    cases lower
    · have hopen : (Bound.mk val isOpen).Allows false m ↔ (m : ℝ) ≤ val := by
        cases isOpen <;> simp [Bound.Allows, Bound.allowsBelow, lt_iff_le_and_ne, hne.symm]
      have hfloor : (m : ℝ) ≤ ((⌊val⌋ : ℤ) : ℝ) ↔ (m : ℝ) ≤ val := by
        rw [Int.cast_le, Int.le_floor]
        exact_mod_cast Iff.rfl
      rw [hopen, ← hfloor]
      simp [adjustIntegerBound, hval, Bound.Allows, Bound.allowsBelow]
    · have hopen : (Bound.mk val isOpen).Allows true m ↔ (val : ℝ) ≤ m := by
        cases isOpen <;> simp [Bound.Allows, Bound.allowsAbove, lt_iff_le_and_ne, hne]
      have hceil : ((⌈val⌉ : ℤ) : ℝ) ≤ (m : ℝ) ↔ (val : ℝ) ≤ m := by
        rw [Int.cast_le, Int.ceil_le]
        exact_mod_cast Iff.rfl
      rw [hopen, ← hceil]
      simp [adjustIntegerBound, hval, Bound.Allows, Bound.allowsAbove]

/-- Rounding outwards weakens a bound. -/
theorem adjustRelaxedBound_allows (val : ℚ) (lower isOpen : Bool) {v : ℝ}
    (h : (Bound.mk val isOpen).Allows lower v) :
    (Bound.mk (adjustRelaxedBound val lower isOpen).1
      (adjustRelaxedBound val lower isOpen).2).Allows lower v := by
  by_cases hval : val.isInt = true
  · simpa [adjustRelaxedBound, hval] using h
  · have hne : ∀ k : ℤ, val ≠ k := fun k hk => hval (isInt_iff.2 ⟨k, hk⟩)
    cases lower
    · have hlt : (val : ℝ) < ((⌈val⌉ : ℤ) : ℝ) := by
        exact_mod_cast lt_of_le_of_ne (Int.le_ceil val) (hne _)
      rw [Bound.allows_upper] at h ⊢
      have hv : v ≤ val := h.elim le_of_lt fun h => h.2.le
      left
      simpa [adjustRelaxedBound, hval] using hv.trans_lt hlt
    · have hlt : ((⌊val⌋ : ℤ) : ℝ) < (val : ℝ) := by
        exact_mod_cast lt_of_le_of_ne (Int.floor_le val) (hne _).symm
      rw [Bound.allows_lower] at h ⊢
      have hv : (val : ℝ) ≤ v := h.elim le_of_lt fun h => h.2.le
      left
      simpa [adjustRelaxedBound, hval] using hlt.trans_le hv

/-- Scaling a bound and the value by a positive number. -/
theorem Bound.allows_scale {k c : ℚ} (hc : 0 < c) {isOpen lower : Bool} {v : ℝ} :
    (Bound.mk (c * k) isOpen).Allows lower (c * v) ↔ (Bound.mk k isOpen).Allows lower v := by
  have hc : (0 : ℝ) < c := by exact_mod_cast hc
  cases lower <;> cases isOpen <;>
    simp [Bound.Allows, Bound.allowsAbove, Bound.allowsBelow, hc]

/-- A normalized bound follows from the bound. -/
theorem normalize_allows {x : Nat} {v : ℝ} (hint : P.isInt x = true → ∃ k : ℤ, v = k) {val : ℚ}
    {lower isOpen : Bool} (h : (Bound.mk val isOpen).Allows lower v) :
    (Bound.mk (normalizeBound P x val lower isOpen).1
      (normalizeBound P x val lower isOpen).2).Allows lower v := by
  unfold normalizeBound
  split
  · rename_i hx
    obtain ⟨k, rfl⟩ := hint hx
    exact (adjustIntegerBound_iff val lower isOpen k).2 h
  · split
    · have hpos : (0 : ℚ) < adjustDenominator := by norm_num [adjustDenominator]
      have hr := adjustRelaxedBound_allows (adjustDenominator * val) lower isOpen
        ((Bound.allows_scale hpos).2 h)
      generalize adjustRelaxedBound (adjustDenominator * val) lower isOpen = r at hr
      show (Bound.mk (r.1 / adjustDenominator) r.2).Allows lower v
      rw [← Bound.allows_scale hpos, mul_div_cancel₀ _ hpos.ne']
      exact hr
    · exact h

/-! ## The value of an atom -/

theorem value_bool (n : Content) (x : Nat) (neg : Bool) :
    value P n (.bool x neg) =
      if n.bvalue x = .undef then .undef
      else if n.bvalue x ≠ .ofNeg neg then .false else .true :=
  rfl

theorem value_eq (n : Content) (x : Nat) (k : ℚ) (neg : Bool) :
    value P n (.eq x k neg) =
      if P.isInt x && !k.isInt then (if neg then .true else .false)
      else if (n.side x false).any (·.val == k) && (n.side x true).any (·.val == k) then
        if neg then .false else .true
      else if (n.side x false).any (excludes false k) || (n.side x true).any (excludes true k) then
        if neg then .true else .false
      else .undef :=
  rfl

/-- An inequality is false when a bound on the other side crosses it, and
true when the bound on its own side is at least as tight. -/
theorem value_ineq (n : Content) (x : Nat) (k : ℚ) (lower isOpen : Bool) :
    value P n (.ineq x k lower isOpen) =
      if (n.side x !lower).any (Content.crosses lower k isOpen) then .false
      else if (n.side x lower).any (Content.noBetter lower k isOpen) then .true
      else .undef := by
  have hcross : Content.crosses lower k isOpen = fun b =>
      (if lower then b.val < k else k < b.val) || ((b.isOpen || isOpen) && b.val == k) := by
    funext b
    unfold Content.crosses
    rw [Bool.or_comm isOpen, BEq.comm (a := k)]
  have hbetter : Content.noBetter lower k isOpen = fun b =>
      (if lower then k < b.val else b.val < k) || ((b.isOpen || !isOpen) && b.val == k) := by
    funext b
    unfold Content.noBetter
    rw [BEq.comm (a := k)]
  rw [hcross, hbetter]
  rfl

theorem excludes_iff {lower : Bool} {k : ℚ} {b : Bound} :
    excludes lower k b = true ↔ b.Within lower ⟨k, true⟩ := by
  unfold excludes Bound.Within
  cases lower <;> grind

section Value

variable {n : Content} {σ : Assignment}

/-- A bound that excludes a constant keeps the variable off it. -/
theorem Admits.ne_of_excludes (h : Admits n σ) {x : Nat} {k : ℚ} {lower : Bool}
    (he : (n.side x lower).any (excludes lower k) = true) : σ.num x ≠ k := by
  obtain ⟨b, hb, he⟩ := (Option.any_eq_true _ _).1 he
  have hv := (excludes_iff.1 he).allows (h.side x lower b hb)
  cases lower
  · exact ((Bound.allows_upper.1 hv).resolve_right (by simp)).ne
  · exact ((Bound.allows_lower.1 hv).resolve_right (by simp)).ne'

/-- Two bounds at `k` leave only `k`. -/
theorem Admits.eq_of_bounds (h : Admits n σ) {x : Nat} {k : ℚ}
    (hu : (n.side x false).any (·.val == k) = true)
    (hl : (n.side x true).any (·.val == k) = true) : σ.num x = k := by
  obtain ⟨u, hu, huk⟩ := (Option.any_eq_true _ _).1 hu
  obtain ⟨l, hl, hlk⟩ := (Option.any_eq_true _ _).1 hl
  have hu := Bound.allows_upper.1 (h.side x false u hu)
  have hl := Bound.allows_lower.1 (h.side x true l hl)
  rw [beq_iff_eq] at huk hlk
  rw [huk] at hu
  rw [hlk] at hl
  exact le_antisymm (hu.elim le_of_lt (·.2.le)) (hl.elim le_of_lt (·.2.le))

/-- An atom with a value has it at every admitted assignment. -/
theorem value_sound (hint : ∀ x, P.isInt x = true → ∃ k : ℤ, σ.num x = k) (h : Admits n σ)
    (a : Lit) (ha : a.isBoolLit = true → n.bvalue a.x ≠ .arith) :
    (value P n a = .true → a.Holds σ) ∧ (value P n a = .false → ¬ a.Holds σ) := by
  cases a with
  | bool x neg =>
    have hb := h.bool x
    have ha : n.bvalue x ≠ .arith := ha rfl
    rw [value_bool]
    show (_ → σ.bool x = !neg) ∧ (_ → ¬ σ.bool x = !neg)
    cases hx : n.bvalue x <;> rw [hx] at hb ha <;> cases neg <;>
      simp_all [BValue.Allows, BValue.ofNeg]
  | eq x k neg =>
    rw [value_eq]
    split
    · rename_i hk
      rw [Bool.and_eq_true, Bool.not_eq_true'] at hk
      have hne : σ.num x ≠ k := by
        obtain ⟨m, hm⟩ := hint x hk.1
        intro he
        have hki : k.isInt = true := isInt_iff.2 ⟨m, by exact_mod_cast he.symm.trans hm⟩
        rw [hk.2] at hki
        cases hki
      cases neg <;> simp [Lit.Holds, hne]
    · split
      · rename_i hb
        rw [Bool.and_eq_true] at hb
        have he := h.eq_of_bounds hb.1 hb.2
        cases neg <;> simp [Lit.Holds, he]
      · split
        · rename_i hb
          have hne : σ.num x ≠ k := by
            rw [Bool.or_eq_true] at hb
            exact hb.elim h.ne_of_excludes h.ne_of_excludes
          cases neg <;> simp [Lit.Holds, hne]
        · exact ⟨nofun, nofun⟩
  | ineq x k lower isOpen =>
    rw [value_ineq]
    split
    · rename_i hc
      obtain ⟨o, ho, hc⟩ := (Option.any_eq_true _ _).1 hc
      refine ⟨nofun, fun _ hv => ?_⟩
      exact (crosses_iff.1 hc).not_allows hv (h.side x (!lower) o ho)
    · split
      · rename_i hb
        obtain ⟨b, hb, hc⟩ := (Option.any_eq_true _ _).1 hb
        exact ⟨fun _ => (noBetter_iff.1 hc).allows (h.side x lower b hb), nofun⟩
      · exact ⟨nofun, nofun⟩

end Value

end AriParti.L1
