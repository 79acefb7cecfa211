import Mathlib.Algebra.Order.Floor.Defs
import Mathlib.Data.Rat.Floor
import Mathlib.Logic.Function.Basic

/-!
# Problems, nodes and bounds

The input of `context_t` (unit clauses, clauses, and variables defined as
monomials and sums) and the contents of a node of the partition tree: a lower
and an upper bound for each arithmetic variable, a value for each Boolean one,
and the atoms of the clauses that became unit.

A bound is normalized before it is stored. For an integer variable it is
rounded inwards. For a real variable whose bound has a denominator over 10^9
it is rounded outwards to a multiple of 10^-6, so the stored bound is weaker
than the one asked for (`normalizeBound`).

Left out of a bound: its timestamp, justification and predecessor, which only
decide what is propagated next; `Content.path` is no field of the source, it
records the exact split decisions for the proofs.
-/
namespace AriParti.L1

/-- An atom of the input or a literal of a task (subpaving_t.h:66-94 and
subpaving_types.h:35-49), by the three kinds that `m_bool` and `m_open` tell
apart; `neg` and `lower` are `m_lower`. A literal's `m_int` is the type of its
variable. -/
inductive Lit where
  | bool (x : Nat) (neg : Bool)
  | eq (x : Nat) (val : ℚ) (neg : Bool)
  | ineq (x : Nat) (val : ℚ) (lower isOpen : Bool)
  deriving DecidableEq, Repr

namespace Lit

def x : Lit → Nat
  | bool x _ => x
  | eq x _ _ => x
  | ineq x _ _ _ => x

def isBoolLit : Lit → Bool
  | bool _ _ => true
  | _ => false

def isEqLit : Lit → Bool
  | eq _ _ _ => true
  | _ => false

def isIneqLit : Lit → Bool
  | ineq _ _ _ _ => true
  | _ => false

def isNeLit : Lit → Bool
  | eq _ _ true => true
  | _ => false

/-- mirrors subpaving_t.h:88-93 -/
def leVar (a b : Lit) : Prop :=
  if a.isIneqLit = b.isIneqLit then a.x ≤ b.x else a.isIneqLit = false

instance (a b : Lit) : Decidable (a.leVar b) := by
  unfold leVar
  infer_instance

instance : Std.Total leVar := by
  refine ⟨fun a b => ?_⟩
  unfold leVar
  split
  · rename_i h
    rw [if_pos h.symm]
    exact Nat.le_total a.x b.x
  · rename_i h
    rw [if_neg fun h' => h h'.symm]
    cases ha : a.isIneqLit
    · exact .inl rfl
    · cases hb : b.isIneqLit
      · exact .inr rfl
      · exact absurd (ha.trans hb.symm) h

instance : IsTrans Lit leVar := by
  refine ⟨fun a b c hab hbc => ?_⟩
  unfold leVar at *
  cases ha : a.isIneqLit <;> cases hb : b.isIneqLit <;> cases hc : c.isIneqLit <;>
    simp_all only [if_true, if_false, reduceCtorEq]
  · exact hab.trans hbc
  · exact hab.trans hbc

end Lit

/-- mirrors subpaving_t.h:392-421; a power is a variable and a degree, a
summand a coefficient and a variable -/
inductive Definition where
  | monomial (powers : List (Nat × Nat))
  | polynomial (terms : List (ℚ × Nat))
  deriving DecidableEq, Repr

namespace Definition

def vars : Definition → List Nat
  | monomial ps => ps.map Prod.fst
  | polynomial ts => ts.map Prod.snd

/-- mirrors subpaving_t_def.h:604-627. The comment in the source says "all
variables in m are integer"; its loop returns true at the first one. -/
def isInt (isIntVar : Nat → Bool) : Definition → Bool
  | monomial ps => ps.any fun p => isIntVar p.1
  | polynomial ts => ts.all fun t => isIntVar t.2 && t.1.isInt

end Definition

/-- What has been asserted into `context_t`. The fields below the data are
what `mk_var`, `mk_bvar`, `mk_monomial`, `mk_sum` and `add_clause`, and the
normal form of their caller, make of any input. -/
structure Problem where
  numVars : Nat
  isInt : Nat → Bool
  isBool : Nat → Bool
  defs : Nat → Option Definition
  unitClauses : List Lit
  clauses : List (List Lit)
  /-- a definition uses variables made before it -/
  defs_lt : ∀ x d, defs x = some d → x < numVars ∧ ∀ y ∈ d.vars, y < x
  /-- a defined variable is arithmetic, and so are its parts -/
  defs_arith : ∀ x d, defs x = some d → isBool x = false ∧ ∀ y ∈ d.vars, isBool y = false
  defs_isInt : ∀ x d, defs x = some d → isInt x = d.isInt isInt
  /-- like powers are merged, like summands as well -/
  defs_nodup : ∀ x d, defs x = some d → d.vars.Nodup
  degree_pos : ∀ x ps, defs x = some (.monomial ps) → ps ≠ [] ∧ ∀ p ∈ ps, 0 < p.2
  coeff_ne : ∀ x ts, defs x = some (.polynomial ts) → ts ≠ [] ∧ ∀ t ∈ ts, t.1 ≠ 0
  /-- Boolean atoms are over Boolean variables, the others over arithmetic ones -/
  sorted : ∀ l, l ∈ unitClauses ∨ (∃ c ∈ clauses, l ∈ c) →
    l.x < numVars ∧ isBool l.x = l.isBoolLit
  /-- a negated equation is asserted as two inequalities (subpaving_tactic.cpp:219-222),
  so it is never a unit clause -/
  units_ne : ∀ x k, .eq x k true ∉ unitClauses
  /-- a clause with one atom is a unit clause -/
  clauses_two : ∀ c ∈ clauses, 2 ≤ c.length
  /-- `add_clause_core` puts Boolean atoms and equations first -/
  clauses_ordered : ∀ c ∈ clauses, c.Pairwise Lit.leVar

/-- The fields of `Problem` that are about atoms, for concrete ones. -/
def atomsOk (numVars : Nat) (isBool : Nat → Bool) (units : List Lit)
    (clauses : List (List Lit)) : Bool :=
  ((units :: clauses).all fun c => c.all fun l => l.x < numVars && isBool l.x == l.isBoolLit) &&
    units.all (fun l => !l.isNeLit) &&
    clauses.all fun c => 2 ≤ c.length && decide (c.Pairwise Lit.leVar)

theorem atomsOk_spec {numVars : Nat} {isBool : Nat → Bool} {units : List Lit}
    {clauses : List (List Lit)} (h : atomsOk numVars isBool units clauses = true) :
    (∀ c ∈ units :: clauses, ∀ l ∈ c, l.x < numVars ∧ isBool l.x = l.isBoolLit) ∧
      (∀ l ∈ units, l.isNeLit = false) ∧
      ∀ c ∈ clauses, 2 ≤ c.length ∧ c.Pairwise Lit.leVar := by
  simp only [atomsOk, Bool.and_eq_true, List.all_eq_true, decide_eq_true_eq, beq_iff_eq,
    Bool.not_eq_true'] at h
  exact ⟨h.1.1, h.1.2, h.2⟩

/-- A problem that defines no variable by others. -/
def Problem.ofAtoms (numVars : Nat) (isInt isBool : Nat → Bool) (units : List Lit)
    (clauses : List (List Lit)) (h : atomsOk numVars isBool units clauses = true) :
    Problem where
  numVars := numVars
  isInt := isInt
  isBool := isBool
  defs _ := none
  unitClauses := units
  clauses := clauses
  defs_lt := nofun
  defs_arith := nofun
  defs_isInt := nofun
  defs_nodup := nofun
  degree_pos := nofun
  coeff_ne := nofun
  sorted l hl := by
    obtain hl | ⟨c, hc, hl⟩ := hl
    · exact (atomsOk_spec h).1 units List.mem_cons_self l hl
    · exact (atomsOk_spec h).1 c (List.mem_cons_of_mem _ hc) l hl
  units_ne _ _ hu := by cases (atomsOk_spec h).2.1 _ hu
  clauses_two c hc := ((atomsOk_spec h).2.2 c hc).1
  clauses_ordered c hc := ((atomsOk_spec h).2.2 c hc).2

/-- mirrors subpaving_t.h:215-221 -/
inductive BValue where
  | conflict
  | false
  | undef
  | true
  | arith
  deriving DecidableEq, Repr

/-- `neg ? b_false : b_true` -/
def BValue.ofNeg (neg : Bool) : BValue := if neg then .false else .true

structure Bound where
  val : ℚ
  isOpen : Bool
  deriving DecidableEq, Repr

/-- What a node of the partition tree holds (subpaving_t.h:242-316). -/
structure Content where
  lower : Nat → Option Bound
  upper : Nat → Option Bound
  bvalue : Nat → BValue
  conflict : Option Nat
  upAtoms : List Lit
  path : List Lit

namespace Content

def inconsistent (n : Content) : Bool := n.conflict.isSome

def isUnbounded (n : Content) (x : Nat) : Bool := (n.lower x).isNone && (n.upper x).isNone

/-- mirrors subpaving_t_def.h:187-213; `lower` is `m_lower`, for a Boolean
variable the negation -/
def push (n : Content) (x : Nat) (lower : Bool) (b : Bound) : Content :=
  match n.bvalue x with
  | .arith =>
    if lower then { n with lower := Function.update n.lower x (some b) }
    else { n with upper := Function.update n.upper x (some b) }
  | .undef => { n with bvalue := Function.update n.bvalue x (.ofNeg lower) }
  | bk =>
    if BValue.ofNeg lower ≠ bk then { n with bvalue := Function.update n.bvalue x .conflict }
    else n

/-- mirrors subpaving_t_def.h:1390-1393 -/
def conflictingBvarBounds (n : Content) (x : Nat) : Bool := n.bvalue x == .conflict

/-- mirrors subpaving_t_def.h:1395-1400 -/
def conflictingBounds (n : Content) (x : Nat) : Bool :=
  match n.lower x, n.upper x with
  | some l, some u => u.val < l.val || ((l.isOpen || u.isOpen) && u.val == l.val)
  | _, _ => false

/-- mirrors subpaving_t_def.h:1377-1382 -/
def isZero (n : Content) (x : Nat) : Bool :=
  match n.lower x, n.upper x with
  | some l, some u => l.val == 0 && u.val == 0 && !l.isOpen && !u.isOpen
  | _, _ => false

/-- mirrors subpaving_t_def.h:405-430 -/
def mkBvarBound (n : Content) (x : Nat) (neg : Bool) : Content :=
  let n := n.push x neg ⟨0, false⟩
  if n.conflictingBvarBounds x then { n with conflict := some x } else n

/-- mirrors subpaving_t_def.h:468-495 -/
def mkBound (n : Content) (x : Nat) (val : ℚ) (lower isOpen : Bool) : Content :=
  let n := n.push x lower ⟨val, isOpen⟩
  if n.conflictingBounds x then { n with conflict := some x } else n

/-- mirrors subpaving_t_def.h:496-504 -/
def improveBvarBound (n : Content) (x : Nat) (neg : Bool) : Bool :=
  n.bvalue x == .undef || BValue.ofNeg neg != n.bvalue x

/-- mirrors subpaving_t_def.h:506-518 -/
def propagateBvarBound (n : Content) (x : Nat) (neg : Bool) : Content :=
  if n.improveBvarBound x neg then n.mkBvarBound x neg else n

/-- `k` as a new bound crosses the bound on the other side. -/
def crosses (lower : Bool) (k : ℚ) (isOpen : Bool) (other : Bound) : Bool :=
  (if lower then other.val < k else k < other.val) || ((isOpen || other.isOpen) && k == other.val)

/-- `k` as a new bound does not improve the bound on its own side. -/
def noBetter (lower : Bool) (k : ℚ) (isOpen : Bool) (curr : Bound) : Bool :=
  (if lower then k < curr.val else curr.val < k) || ((curr.isOpen || !isOpen) && k == curr.val)

/-- The current bound on the side `lower`, and on the other side. -/
def side (n : Content) (x : Nat) (lower : Bool) : Option Bound :=
  if lower then n.lower x else n.upper x

/-- mirrors subpaving_t_def.h:1336-1375 -/
def improveBound (n : Content) (x : Nat) (k : ℚ) (lower isOpen : Bool) : Bool :=
  if (n.side x !lower).any (crosses lower k isOpen) then true
  else !(n.side x lower).any (noBetter lower k isOpen)

end Content

/-! ## Normalization of bounds -/

/-- 10^9 -/
def maxDenominator : Nat := 1000000000

/-- 10^6 -/
def adjustDenominator : ℚ := 1000000

/-- mirrors subpaving_t_def.h:432-453 -/
def adjustIntegerBound (val : ℚ) (lower isOpen : Bool) : ℚ × Bool :=
  let result : ℚ := if val.isInt then val else if lower then (⌈val⌉ : ℤ) else (⌊val⌋ : ℤ)
  let isOpen := isOpen && val.isInt
  if isOpen then (if lower then result + 1 else result - 1, false) else (result, false)

/-- mirrors subpaving_t_def.h:455-466 -/
def adjustRelaxedBound (val : ℚ) (lower isOpen : Bool) : ℚ × Bool :=
  if val.isInt then (val, isOpen) else (if lower then (⌊val⌋ : ℤ) else (⌈val⌉ : ℤ), true)

/-- mirrors subpaving_t_def.h:1157-1214 -/
def normalizeBound (P : Problem) (x : Nat) (val : ℚ) (lower isOpen : Bool) : ℚ × Bool :=
  if P.isInt x then adjustIntegerBound val lower isOpen
  else if maxDenominator < val.den then
    let r := adjustRelaxedBound (adjustDenominator * val) lower isOpen
    (r.1 / adjustDenominator, r.2)
  else (val, isOpen)

/-- mirrors subpaving_t_def.h:520-544 -/
def Content.propagateBound (P : Problem) (n : Content) (x : Nat) (val : ℚ) (lower isOpen : Bool) :
    Content :=
  let k := normalizeBound P x val lower isOpen
  if n.improveBound x k.1 lower k.2 then n.mkBound x k.1 lower k.2 else n

/-- A root as its constructor leaves it (subpaving_t_def.h:137-161). -/
def blank (P : Problem) : Content where
  lower _ := none
  upper _ := none
  bvalue x := if P.isBool x then .undef else .arith
  conflict := none
  upAtoms := []
  path := []

/-! ## The value of an atom at a node -/

inductive LBool where
  | true
  | false
  | undef
  deriving DecidableEq, Repr

/-- The bound keeps the variable strictly below (an upper bound) or above (a
lower bound) `k`. -/
def excludes (lower : Bool) (k : ℚ) (b : Bound) : Bool :=
  (if lower then k < b.val else b.val < k) || (b.isOpen && b.val == k)

/-- mirrors subpaving_t_def.h:1407-1711 (the same body is written for an atom
and for a literal) -/
def value (P : Problem) (n : Content) : Lit → LBool
  | .bool x neg =>
    if n.bvalue x = .undef then .undef
    else if n.bvalue x ≠ .ofNeg neg then .false
    else .true
  | .eq x k neg =>
    if P.isInt x && !k.isInt then (if neg then .true else .false)
    else if (n.upper x).any (·.val == k) && (n.lower x).any (·.val == k) then
      if neg then .false else .true
    else if (n.upper x).any (excludes false k) || (n.lower x).any (excludes true k) then
      if neg then .true else .false
    else .undef
  | .ineq x k lower isOpen =>
    -- the side the atom bounds, and the side that can refute it
    if (n.side x !lower).any fun b =>
        (if lower then b.val < k else k < b.val) || ((b.isOpen || isOpen) && b.val == k) then .false
    else if (n.side x lower).any fun b =>
        (if lower then k < b.val else b.val < k) || ((b.isOpen || !isOpen) && b.val == k) then .true
    else .undef

end AriParti.L1
