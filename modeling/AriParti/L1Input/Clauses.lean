import Mathlib.Algebra.Order.Module.Defs
import AriParti.L1Bounds.Exact

/-!
# From the clauses of the goal to clauses of atoms

`process_clause` translates the literals of a clause one by one. The term of
an inequality `t ≤ k` is `n / d * x + qk` for a variable `x` of the context, so
the atom is about `x` and `d * (k - qk) / n`, turned around when `n` is
negative, and rounded when `x` is an integer. What `internalize_term` makes of
a term is left open here.

## Results

* `mkAtom_spec`: what the literals of a clause become.
* `processClause_meaning`: a clause is dropped when one of its literals is
  always true, refused when all are always false, and otherwise has the
  meaning of its atoms; an atom is printed as what it means.
-/
namespace AriParti.L1

/-! ## The goal -/

/-- An atom of the goal over the terms `T` and the Boolean variables `B`. -/
inductive GoalAtom (T B : Type) where
  | le (t : T) (k : ℚ)
  | ge (t : T) (k : ℚ)
  | eq (t : T) (k : ℚ)
  | bool (b : B)

/-- A literal, negated any number of times. -/
inductive GoalLit (T B : Type) where
  | atom (a : GoalAtom T B)
  | not (l : GoalLit T B)

/-- A formula of the goal: a disjunction, or a single literal. -/
inductive GoalClause (T B : Type) where
  | or (args : List (GoalLit T B))
  | lit (l : GoalLit T B)

variable {S T B : Type}

def GoalClause.args : GoalClause T B → List (GoalLit T B)
  | or args => args
  | lit l => [l]

/-- The values of terms and Boolean variables under the assignments of the
context. -/
structure Reading (T B : Type) where
  term : Assignment → T → ℝ
  bool : Assignment → B → Bool

def GoalAtom.Holds (R : Reading T B) (σ : Assignment) : GoalAtom T B → Prop
  | le t k => R.term σ t ≤ k
  | ge t k => (k : ℝ) ≤ R.term σ t
  | eq t k => R.term σ t = k
  | bool b => R.bool σ b = true

def GoalLit.Holds (R : Reading T B) (σ : Assignment) : GoalLit T B → Prop
  | atom a => a.Holds R σ
  | not l => ¬ l.Holds R σ

/-! ## Internalizing -/

/-- What `internalize_term` returns: `x`, and `n`, `d` and `qk`. -/
structure Internal where
  x : Nat
  n : ℤ
  d : ℤ
  qk : ℚ
  deriving DecidableEq, Repr

/-- The calls into `expr2subpaving`, which go from one of its states to the
next, and `is_int` of the context. -/
structure Internalizer (S T B : Type) where
  term : S → T → Internal × S
  bool : S → B → Nat × S
  isInt : Nat → Bool

/-- Under the assignments `A`, terms are what the calls return, and the
variables taken for integers are integers. -/
structure Internalizer.Exact (I : Internalizer S T B) (R : Reading T B) (A : Assignment → Prop) :
    Prop where
  n_ne : ∀ s t, (I.term s t).1.n ≠ 0
  d_pos : ∀ s t, 0 < (I.term s t).1.d
  term : ∀ σ, A σ → ∀ s t, R.term σ t =
    ((I.term s t).1.n : ℝ) / (I.term s t).1.d * σ.num (I.term s t).1.x + (I.term s t).1.qk
  bool : ∀ σ, A σ → ∀ s b, R.bool σ b = σ.bool (I.bool s b).1
  isInt : ∀ σ, A σ → ∀ x, I.isInt x = true → ∃ m : ℤ, σ.num x = m

/-! ## `mk_atom` -/

/-- `while (m().is_not(a, a)) neg = !neg;` -/
def GoalLit.strip : GoalLit T B → Bool × GoalAtom T B
  | atom a => (false, a)
  | not l => (!l.strip.1, l.strip.2)

/-- mirrors subpaving_tactic.cpp:203-219 -/
def roundIneq (isInt : Bool) (k : ℚ) (lower isOpen : Bool) : ℚ × Bool :=
  if isInt then
    let r : ℚ × Bool :=
      if !k.isInt then (if lower then (⌈k⌉ : ℤ) else (⌊k⌋ : ℤ), false) else (k, isOpen)
    if r.2 then (if lower then r.1 + 1 else r.1 - 1, false) else r
  else (k, isOpen)

section MkAtom

variable (I : Internalizer S T B) (s : S) (neg : Bool)

/-- The variable of a term, the bound for it, and whether `n` is negative
(subpaving_tactic.cpp:178-192). -/
def isolate (t : T) (k : ℚ) : Nat × ℚ × Bool × S :=
  let r := I.term s t
  (r.1.x, r.1.d * (k - r.1.qk) / r.1.n, decide (r.1.n < 0), r.2)

/-- An inequality, `t ≥ k` if `lower` is set. -/
def mkIneq (t : T) (k : ℚ) (lower : Bool) : Bool × List Lit × S :=
  let lower := if neg then !lower else lower
  let isOpen := neg
  let (x, k, negative, s) := isolate I s t k
  let lower := if negative then !lower else lower
  let r := roundIneq (I.isInt x) k lower isOpen
  (false, [.ineq x r.1 lower r.2], s)

/-- mirrors subpaving_tactic.cpp:221-243 -/
def mkEq (t : T) (k : ℚ) : Bool × List Lit × S :=
  let (x, k, _, s) := isolate I s t k
  if I.isInt x && !k.isInt then (neg, [], s)
  else if neg then (false, [.ineq x k false true, .ineq x k true true], s)
  else (false, [.eq x k false], s)

/-- mirrors subpaving_tactic.cpp:136-246: whether the atom is always true, and
what is pushed to the buffer -/
def mkAtom (l : GoalLit T B) : Bool × List Lit × S :=
  match l.strip with
  | (neg, .bool b) =>
    let (x, s) := I.bool s b
    (false, [.bool x neg], s)
  | (neg, .le t k) => mkIneq I s neg t k false
  | (neg, .ge t k) => mkIneq I s neg t k true
  | (neg, .eq t k) => mkEq I s neg t k

end MkAtom

/-! ## `process_clause` -/

inductive ClauseResult where
  | dropped
  | unsat
  | added (atoms : List Lit)
  deriving DecidableEq, Repr

/-- The loop over the literals: `none` for the early return. -/
def mkAtoms (I : Internalizer S T B) : S → List (GoalLit T B) → Option (List Lit) × S
  | s, [] => (some [], s)
  | s, l :: ls =>
    match mkAtom I s l with
    | (true, _, s) => (none, s)
    | (false, as, s) =>
      match mkAtoms I s ls with
      | (none, s) => (none, s)
      | (some buffer, s) => (some (as ++ buffer), s)

/-- mirrors subpaving_tactic.cpp:248-276, with the order of the atoms in
`add_clause_core` -/
def processClause (I : Internalizer S T B) (s : S) (c : GoalClause T B) : ClauseResult × S :=
  match mkAtoms I s c.args with
  | (none, s) => (.dropped, s)
  | (some [], s) => (.unsat, s)
  | (some buffer, s) => (.added (buffer.insertionSort Lit.leVar), s)

/-! ## Printing -/

/-- `struct lit` (subpaving_types.h:35-49); `m_val` and `m_int` are not set for
a Boolean one. -/
structure TaskLit where
  x : Nat
  lower : Bool
  isOpen : Bool
  isBool : Bool
  isInt : Bool
  val : Option ℚ
  deriving DecidableEq, Repr

/-- mirrors subpaving_t_def.h:2455-2479 -/
def convertAtomToLit (isInt : Nat → Bool) : Lit → TaskLit
  | .bool x neg => ⟨x, neg, false, true, false, none⟩
  | .eq x k neg => ⟨x, neg, true, true, isInt x, some k⟩
  | .ineq x k lower isOpen => ⟨x, lower, isOpen, false, isInt x, some k⟩

/-- A formula of the printed task; a variable stands for the expression that
`m_v2e` has for it. -/
inductive TaskExpr where
  | var (x : Nat)
  | not (e : TaskExpr)
  | eq (x : Nat) (k : ℚ)
  | le (x : Nat) (k : ℚ)
  | lt (x : Nat) (k : ℚ)
  | ge (x : Nat) (k : ℚ)
  | gt (x : Nat) (k : ℚ)
  deriving DecidableEq, Repr

def TaskExpr.Holds (σ : Assignment) : TaskExpr → Prop
  | var x => σ.bool x = true
  | not e => ¬ e.Holds σ
  | eq x k => σ.num x = k
  | le x k => σ.num x ≤ k
  | lt x k => σ.num x < k
  | ge x k => (k : ℝ) ≤ σ.num x
  | gt x k => (k : ℝ) < σ.num x

/-- `mk_int` and `mk_real`: an integer numeral must be one. -/
def mkNumeral (val : Option ℚ) (isInt : Bool) : Option ℚ := val.filter fun k => !isInt || k.isInt

/-- mirrors subpaving_tactic.cpp:301-371; `none` for an exception -/
def convertLitToExpr (l : TaskLit) : Option TaskExpr :=
  if l.isBool then
    if l.isOpen then do
      let k ← mkNumeral l.val l.isInt
      let ret := TaskExpr.eq l.x k
      if l.lower then some (.not ret) else some ret
    else if l.lower then some (.not (.var l.x))
    else some (.var l.x)
  else do
    let k ← mkNumeral l.val l.isInt
    if l.lower then if l.isOpen then some (.gt l.x k) else some (.ge l.x k)
    else if l.isOpen then some (.lt l.x k) else some (.le l.x k)

/-! ## Rounding -/

theorem roundIneq_real (k : ℚ) (lower isOpen : Bool) : roundIneq false k lower isOpen = (k, isOpen) :=
  rfl

/-- An atom is rounded as a bound is. -/
theorem roundIneq_int (k : ℚ) (lower isOpen : Bool) :
    roundIneq true k lower isOpen = adjustIntegerBound k lower isOpen := by
  unfold roundIneq adjustIntegerBound
  by_cases hk : k.isInt = true
  · cases lower <;> cases isOpen <;> simp [hk]
  · cases lower <;> cases isOpen <;> simp [hk]

theorem roundIneq_allows {isInt : Bool} {v : ℝ} (hint : isInt = true → ∃ m : ℤ, v = m) (k : ℚ)
    (lower isOpen : Bool) :
    (Bound.mk (roundIneq isInt k lower isOpen).1 (roundIneq isInt k lower isOpen).2).Allows lower v ↔
      (Bound.mk k isOpen).Allows lower v := by
  cases isInt
  · rw [roundIneq_real]
  · obtain ⟨m, rfl⟩ := hint rfl
    rw [roundIneq_int]
    exact adjustIntegerBound_iff k lower isOpen m

theorem roundIneq_isInt {isInt : Bool} (h : isInt = true) (k : ℚ) (lower isOpen : Bool) :
    (roundIneq isInt k lower isOpen).1.isInt = true := by
  rw [h, roundIneq_int]
  exact (adjustIntegerBound_rounded k lower isOpen).2

/-! ## One literal -/

theorem GoalLit.holds_strip {R : Reading T B} {σ : Assignment} (l : GoalLit T B) :
    l.Holds R σ ↔ if l.strip.1 then ¬ l.strip.2.Holds R σ else l.strip.2.Holds R σ := by
  induction l with
  | atom a => rfl
  | not l ih =>
    show ¬ l.Holds R σ ↔ if (!l.strip.1) = true then ¬ l.strip.2.Holds R σ else l.strip.2.Holds R σ
    rw [ih]
    cases l.strip.1 <;> simp

section Isolate

variable {n d : ℤ} (hn : n ≠ 0) (hd : 0 < d) (q k : ℚ) (v : ℝ)
include hn hd

/-- The distance from `k`, at the term and at the variable. -/
theorem isolate_sub : (n : ℝ) / d * v + q - k = n / d * (v - ((d * (k - q) / n : ℚ) : ℝ)) := by
  have hn : (n : ℝ) ≠ 0 := by exact_mod_cast hn
  have hd : (d : ℝ) ≠ 0 := by exact_mod_cast hd.ne'
  push_cast
  field_simp
  ring

theorem isolate_above (isOpen : Bool) :
    (Bound.mk k isOpen).Allows true ((n : ℝ) / d * v + q) ↔
      (Bound.mk (d * (k - q) / n) isOpen).Allows (!decide (n < 0)) v := by
  have hsub := isolate_sub hn hd q k v
  have hd : (0 : ℝ) < d := by exact_mod_cast hd
  rcases lt_or_gt_of_ne hn with hneg | hpos
  · have hc : (n : ℝ) / d < 0 := div_neg_of_neg_of_pos (by exact_mod_cast hneg) hd
    rw [decide_eq_true hneg, Bool.not_true]
    cases isOpen
    · show (k : ℝ) ≤ _ ↔ v ≤ _
      rw [← not_lt, ← sub_neg, hsub, ← smul_eq_mul, smul_neg_iff_of_neg_left hc, sub_pos, not_lt]
    · show (k : ℝ) < _ ↔ v < _
      rw [← sub_pos, hsub, ← smul_eq_mul, smul_pos_iff_of_neg_left hc, sub_neg]
  · have hc : 0 < (n : ℝ) / d := div_pos (by exact_mod_cast hpos) hd
    rw [decide_eq_false hpos.not_gt, Bool.not_false]
    cases isOpen
    · show (k : ℝ) ≤ _ ↔ _ ≤ v
      rw [← sub_nonneg, hsub, mul_nonneg_iff_of_pos_left hc, sub_nonneg]
    · show (k : ℝ) < _ ↔ _ < v
      rw [← sub_pos, hsub, mul_pos_iff_of_pos_left hc, sub_pos]

/-- An inequality is about the variable as it is about the term. -/
theorem isolate_allows (lower isOpen : Bool) :
    (Bound.mk k isOpen).Allows lower ((n : ℝ) / d * v + q) ↔
      (Bound.mk (d * (k - q) / n) isOpen).Allows (if decide (n < 0) then !lower else lower) v := by
  cases lower
  · -- below is not above
    have h := isolate_above hn hd q k v (!isOpen)
    have hl := @Bound.allows_not k (!isOpen) true ((n : ℝ) / d * v + q)
    have hr := @Bound.allows_not (d * (k - q) / n) (!isOpen) (!decide (n < 0)) v
    rw [Bool.not_not, Bool.not_true] at hl
    rw [Bool.not_not, Bool.not_not] at hr
    rw [hl, h, ← hr]
    cases decide (n < 0) <;> rfl
  · rw [isolate_above hn hd q k v isOpen]
    cases decide (n < 0) <;> rfl

theorem isolate_eq : (n : ℝ) / d * v + q = k ↔ v = ((d * (k - q) / n : ℚ) : ℝ) := by
  have hsub := isolate_sub hn hd q k v
  have hn : (n : ℝ) ≠ 0 := by exact_mod_cast hn
  have hd : (d : ℝ) ≠ 0 := by exact_mod_cast hd.ne'
  rw [← sub_eq_zero, hsub, mul_eq_zero, or_iff_right (div_ne_zero hn hd), sub_eq_zero]

end Isolate

/-- What a literal becomes: it is always true, or it has the meaning of its
atoms. -/
structure MadeOf (I : Internalizer S T B) (R : Reading T B) (A : Assignment → Prop)
    (l : GoalLit T B) (r : Bool × List Lit × S) : Prop where
  always : r.1 = true → ∀ σ, A σ → l.Holds R σ
  meaning : r.1 = false → ∀ σ, A σ → ((∃ a ∈ r.2.1, a.Holds σ) ↔ l.Holds R σ)
  /-- an equation is never negated, and has an integer where its variable is
  one; so has an inequality -/
  shape : ∀ a ∈ r.2.1, a.isBoolLit = false →
    (I.isInt a.x = true → a.constant.isInt = true) ∧ ∀ x k, a ≠ .eq x k true

variable {I : Internalizer S T B} {R : Reading T B} {A : Assignment → Prop}

theorem holds_one {σ : Assignment} {a : Lit} : (∃ b ∈ [a], b.Holds σ) ↔ a.Holds σ := by
  simp only [List.mem_singleton, exists_eq_left]

theorem holds_two {σ : Assignment} {a b : Lit} :
    (∃ c ∈ [a, b], c.Holds σ) ↔ a.Holds σ ∨ b.Holds σ := by
  simp only [List.mem_cons, List.not_mem_nil, or_false, exists_eq_or_imp, exists_eq_left]

/-- An atom as a bound: what it says of the term. -/
theorem GoalAtom.holds_ineq {σ : Assignment} (t : T) (k : ℚ) (lower : Bool) :
    (if lower then GoalAtom.ge t k else GoalAtom.le t k : GoalAtom T B).Holds R σ ↔
      (Bound.mk k false).Allows lower (R.term σ t) := by
  cases lower <;> rfl

theorem mkIneq_spec (hI : I.Exact R A) (s : S) (neg : Bool) (t : T) (k : ℚ) (lower : Bool)
    {l : GoalLit T B} (hl : l.strip = (neg, if lower then .ge t k else .le t k)) :
    MadeOf I R A l (mkIneq I s neg t k lower) := by
  have hn := hI.n_ne s t
  have hd := hI.d_pos s t
  refine ⟨nofun, fun _ σ hσ => ?_, fun a ha _ => ?_⟩
  · have hterm := hI.term σ hσ s t
    have hflags := hI.isInt σ hσ (I.term s t).1.x
    rw [l.holds_strip, hl]
    refine holds_one.trans ?_
    show (Bound.mk (roundIneq _ _ _ _).1 (roundIneq _ _ _ _).2).Allows _ (σ.num _) ↔ _
    rw [roundIneq_allows hflags, ← isolate_allows hn hd, ← hterm, GoalAtom.holds_ineq]
    cases neg
    · rfl
    · exact @Bound.allows_not _ false _ _
  · obtain rfl := List.mem_singleton.1 ha
    exact ⟨fun hx => roundIneq_isInt hx _ _ _, nofun⟩

theorem mkEq_spec (hI : I.Exact R A) (s : S) (neg : Bool) (t : T) (k : ℚ) {l : GoalLit T B}
    (hl : l.strip = (neg, .eq t k)) : MadeOf I R A l (mkEq I s neg t k) := by
  have hn := hI.n_ne s t
  have hd := hI.d_pos s t
  -- the equation, about the variable
  have hiff : ∀ σ, A σ → (R.term σ t = k ↔ σ.num (isolate I s t k).1 = (isolate I s t k).2.1) := by
    intro σ hσ
    rw [hI.term σ hσ s t]
    exact isolate_eq hn hd _ k _
  unfold mkEq
  rcases hr : isolate I s t k with ⟨x, c, negative, s'⟩
  rw [hr] at hiff
  simp only at hiff ⊢
  by_cases hx : (I.isInt x && !c.isInt) = true
  · rw [if_pos hx]
    rw [Bool.and_eq_true, Bool.not_eq_true'] at hx
    -- no integer is the constant
    have hne : ∀ σ, A σ → ¬ R.term σ t = k := by
      intro σ hσ he
      obtain ⟨m, hm⟩ := hI.isInt σ hσ x hx.1
      have hc : c.isInt = true := by
        refine isInt_iff.2 ⟨m, ?_⟩
        exact_mod_cast ((hiff σ hσ).1 he).symm.trans hm
      rw [hx.2] at hc
      cases hc
    refine ⟨fun h σ hσ => ?_, fun h σ hσ => ?_, nofun⟩
    · rw [l.holds_strip, hl, if_pos h]
      exact hne σ hσ
    · rw [l.holds_strip, hl, if_neg (Bool.eq_false_iff.1 h)]
      exact iff_of_false nofun (hne σ hσ)
  · rw [if_neg hx]
    have hc : I.isInt x = true → c.isInt = true := by
      intro h
      rw [h] at hx
      simpa using hx
    cases neg
    · rw [if_neg Bool.false_ne_true]
      refine ⟨nofun, fun _ σ hσ => ?_, fun a ha _ => ?_⟩
      · rw [l.holds_strip, hl]
        exact holds_one.trans (hiff σ hσ).symm
      · obtain rfl := List.mem_singleton.1 ha
        exact ⟨hc, nofun⟩
    · rw [if_pos rfl]
      refine ⟨nofun, fun _ σ hσ => ?_, fun a ha _ => ?_⟩
      · rw [l.holds_strip, hl]
        refine holds_two.trans ?_
        show σ.num x < c ∨ (c : ℝ) < σ.num x ↔ ¬ R.term σ t = k
        rw [hiff σ hσ]
        exact lt_or_lt_iff_ne
      · rcases List.mem_pair.1 ha with rfl | rfl
        · exact ⟨hc, nofun⟩
        · exact ⟨hc, nofun⟩

theorem mkAtom_spec (hI : I.Exact R A) (s : S) (l : GoalLit T B) :
    MadeOf I R A l (mkAtom I s l) := by
  unfold mkAtom
  rcases hl : l.strip with ⟨neg, a⟩
  cases a with
  | le t k => exact mkIneq_spec hI s neg t k false hl
  | ge t k => exact mkIneq_spec hI s neg t k true hl
  | eq t k => exact mkEq_spec hI s neg t k hl
  | bool b =>
    refine ⟨nofun, fun _ σ hσ => ?_, fun a ha hb => ?_⟩
    · rw [l.holds_strip, hl]
      refine holds_one.trans ?_
      show σ.bool (I.bool s b).1 = (!neg) ↔
        if neg = true then ¬ R.bool σ b = true else R.bool σ b = true
      rw [hI.bool σ hσ s b]
      cases neg <;> simp
    · obtain rfl := List.mem_singleton.1 ha
      cases hb

/-! ## A clause -/

/-- What a list of literals becomes: one of them is always true, or together
they have the meaning of the atoms. -/
theorem mkAtoms_spec (hI : I.Exact R A) (s : S) (ls : List (GoalLit T B)) :
    ((mkAtoms I s ls).1 = none → ∃ l ∈ ls, ∀ σ, A σ → l.Holds R σ) ∧
    ∀ buffer, (mkAtoms I s ls).1 = some buffer →
      (∀ σ, A σ → ((∃ a ∈ buffer, a.Holds σ) ↔ ∃ l ∈ ls, l.Holds R σ)) ∧
      ∀ a ∈ buffer, a.isBoolLit = false →
        (I.isInt a.x = true → a.constant.isInt = true) ∧ ∀ x k, a ≠ .eq x k true := by
  induction ls generalizing s with
  | nil =>
    refine ⟨by simp [mkAtoms], fun buffer hb => ?_⟩
    cases hb
    exact ⟨fun σ _ => by simp, by simp⟩
  | cons l ls ih =>
    have hl := mkAtom_spec hI s l
    unfold mkAtoms
    rcases hr : mkAtom I s l with ⟨always, as, s'⟩
    rw [hr] at hl
    obtain ⟨hnone, hsome⟩ := ih s'
    cases always
    · simp only
      rcases hrs : mkAtoms I s' ls with ⟨_ | buffer, s''⟩
      · rw [hrs] at hnone
        refine ⟨fun _ => ?_, by simp⟩
        obtain ⟨l', hl', h⟩ := hnone rfl
        exact ⟨l', List.mem_cons_of_mem l hl', h⟩
      · rw [hrs] at hsome
        obtain ⟨hmeaning, hshape⟩ := hsome buffer rfl
        refine ⟨by simp, fun buffer' hb => ?_⟩
        cases hb
        refine ⟨fun σ hσ => ?_, fun a ha => ?_⟩
        · have hl := hl.meaning rfl σ hσ
          have hls := hmeaning σ hσ
          simp only [List.mem_append, List.mem_cons, or_and_right, exists_or, exists_eq_left]
          rw [← hl, hls]
        · exact (List.mem_append.1 ha).elim (hl.shape a) (hshape a)
    · exact ⟨fun _ => ⟨l, List.mem_cons_self, hl.always rfl⟩, by simp⟩

/-- Printing an atom: its constant is an integer where its variable is one. -/
theorem convertLitToExpr_meaning {isInt : Nat → Bool} {a : Lit}
    (h : a.isBoolLit = false → isInt a.x = true → a.constant.isInt = true) :
    ∃ e, convertLitToExpr (convertAtomToLit isInt a) = some e ∧ ∀ σ, e.Holds σ ↔ a.Holds σ := by
  have hnum : ∀ k, (isInt a.x = true → k.isInt = true) →
      mkNumeral (some k) (isInt a.x) = some k := by
    intro k hk
    unfold mkNumeral
    rw [Option.filter_some, if_pos]
    cases hx : isInt a.x
    · rfl
    · rw [hk hx]
      rfl
  cases a with
  | bool x neg =>
    cases neg
    · exact ⟨.var x, rfl, fun σ => Iff.rfl⟩
    · refine ⟨.not (.var x), rfl, fun σ => ?_⟩
      show ¬ σ.bool x = true ↔ σ.bool x = false
      exact Bool.not_eq_true _ ▸ Iff.rfl
  | eq x k neg =>
    have hk : mkNumeral (some k) (isInt x) = some k := hnum k (h rfl)
    have he : convertLitToExpr (convertAtomToLit isInt (.eq x k neg)) =
        some (if neg then .not (.eq x k) else .eq x k) := by
      show (mkNumeral (some k) (isInt x)).bind _ = _
      rw [hk]
      cases neg <;> rfl
    refine ⟨_, he, fun σ => ?_⟩
    cases neg <;> rfl
  | ineq x k lower isOpen =>
    have hk : mkNumeral (some k) (isInt x) = some k := hnum k (h rfl)
    have he : convertLitToExpr (convertAtomToLit isInt (.ineq x k lower isOpen)) =
        some (if lower then if isOpen then .gt x k else .ge x k
          else if isOpen then .lt x k else .le x k) := by
      show (mkNumeral (some k) (isInt x)).bind _ = _
      rw [hk]
      cases lower <;> cases isOpen <;> rfl
    refine ⟨_, he, fun σ => ?_⟩
    cases lower <;> cases isOpen <;> rfl

/-- **Translation keeps the meaning of a clause.** If the terms are what
`internalize_term` returns, a clause is dropped only when one of its literals
is true under all assignments, refused only when all are false under all, and
otherwise has the meaning of the atoms that are added for it. Each of these is
printed as a formula with its meaning. -/
theorem processClause_meaning (hI : I.Exact R A) (s : S) (c : GoalClause T B) :
    match (processClause I s c).1 with
    | .dropped => ∃ l ∈ c.args, ∀ σ, A σ → l.Holds R σ
    | .unsat => ∀ l ∈ c.args, ∀ σ, A σ → ¬ l.Holds R σ
    | .added atoms => (∀ σ, A σ → ((∃ a ∈ atoms, a.Holds σ) ↔ ∃ l ∈ c.args, l.Holds R σ)) ∧
        ∀ a ∈ atoms, ∃ e, convertLitToExpr (convertAtomToLit I.isInt a) = some e ∧
          ∀ σ, e.Holds σ ↔ a.Holds σ := by
  obtain ⟨hnone, hsome⟩ := mkAtoms_spec hI s c.args
  unfold processClause
  rcases hr : mkAtoms I s c.args with ⟨_ | buffer, s'⟩
  · rw [hr] at hnone
    exact hnone rfl
  · rw [hr] at hsome
    obtain ⟨hmeaning, hshape⟩ := hsome buffer rfl
    cases buffer with
    | nil =>
      intro l hl σ hσ h
      obtain ⟨a, ha, _⟩ := (hmeaning σ hσ).2 ⟨l, hl, h⟩
      cases ha
    | cons a buffer =>
      refine ⟨fun σ hσ => ?_, fun b hb => ?_⟩
      · rw [← hmeaning σ hσ]
        simp only [List.mem_insertionSort]
      · rw [List.mem_insertionSort] at hb
        exact convertLitToExpr_meaning fun h => (hshape b hb h).1

/-- Products `c * x` of a number and a base variable; `x₀` is an integer. -/
def products : Internalizer Unit ({ c : ℤ // c ≠ 0 } × Nat) Nat where
  term _ t := (⟨t.2, t.1, 1, 0⟩, ())
  bool _ b := (b, ())
  isInt x := x = 0

theorem products_exact : products.Exact ⟨fun σ t => (t.1 : ℤ) * σ.num t.2, Assignment.bool⟩
    fun σ => ∃ m : ℤ, σ.num 0 = m := by
  constructor
  · exact fun _ t => t.1.2
  · exact fun _ _ => Int.one_pos
  · intro σ _ _ t
    show ((t.1 : ℤ) : ℝ) * σ.num t.2 = ((t.1 : ℤ) : ℝ) / (1 : ℤ) * σ.num t.2 + ((0 : ℚ) : ℝ)
    push_cast
    ring
  · exact fun _ _ _ _ => rfl
  · intro σ h x hx
    obtain rfl : x = 0 := of_decide_eq_true hx
    exact h

/-- `-2x > 3` for an integer `x` is `x ≤ -2`. -/
theorem processClause_meaning_product :
    (processClause products () (.lit (.not (.atom (.le (⟨-2, by decide⟩, 0) 3))))).1 =
      .added [.ineq 0 (-2) false false] ∧
    ∀ σ : Assignment, (∃ m : ℤ, σ.num 0 = m) →
      ((∃ a ∈ [Lit.ineq 0 (-2) false false], a.Holds σ) ↔ ¬ ((-2 : ℤ) : ℝ) * σ.num 0 ≤ (3 : ℚ)) := by
  have he : (processClause products () (.lit (.not (.atom (.le (⟨-2, by decide⟩, 0) 3))))).1 =
      .added [.ineq 0 (-2) false false] := by decide +kernel
  have h := processClause_meaning products_exact () (.lit (.not (.atom (.le (⟨-2, by decide⟩, 0) 3))))
  rw [he] at h
  refine ⟨he, fun σ hσ => (h.1 σ hσ).trans ?_⟩
  show (∃ l ∈ [_], _) ↔ _
  simp only [List.mem_singleton, exists_eq_left]
  rfl

end AriParti.L1
