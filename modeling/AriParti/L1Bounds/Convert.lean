import Mathlib.Data.List.Sort
import AriParti.L1Bounds.Propagate

/-!
# From a node to a task

`convert_node_to_task` writes down what is left of the problem at a node: the
clauses without a true atom and without their false atoms, simplified, and a
conjunction of units. The units are the atoms of clauses with one open atom,
the unit clauses and unit atoms over defined variables, and the bounds of the
base variables. A unit clause over a base variable is left to its bound.

`std::sort` leaves the order of equivalent elements open; it is the parameter
`Sorting`.
-/
namespace AriParti.L1

/-- mirrors subpaving_t.h:636-649 -/
def litLt (lhs rhs : Lit) : Bool :=
  if lhs.x ≠ rhs.x then lhs.x < rhs.x
  else if lhs.isBoolLit ≠ rhs.isBoolLit then lhs.isBoolLit
  else if lhs.isIneqLit ≠ rhs.isIneqLit then lhs.isIneqLit
  else false

/-- `std::sort` by `lit_lt`. -/
structure Sorting where
  sort : List Lit → List Lit
  perm : ∀ ls, (sort ls).Perm ls
  sorted : ∀ ls, (sort ls).Pairwise fun a b => litLt b a = false

/-- The place of a literal in the order: by variable, then Boolean literals,
inequalities, equations. -/
def Lit.rank : Lit → Nat
  | bool x _ => 3 * x
  | ineq x _ _ _ => 3 * x + 1
  | eq x _ _ => 3 * x + 2

theorem litLt_iff (a b : Lit) : litLt a b = true ↔ a.rank < b.rank := by
  unfold litLt
  by_cases hx : a.x = b.x
  · cases a <;> cases b <;>
      simp only [Lit.x] at hx <;> simp [Lit.x, Lit.isBoolLit, Lit.isIneqLit, Lit.rank, hx]
  · rw [if_pos hx, decide_eq_true_iff]
    cases a <;> cases b <;> simp only [Lit.x] at hx <;> simp only [Lit.x, Lit.rank] <;> omega

theorem litLt_false_iff (a b : Lit) : litLt a b = false ↔ b.rank ≤ a.rank := by
  rw [← Bool.not_eq_true, litLt_iff, Nat.not_lt]

/-- Insertion sort: equivalent literals keep their order. -/
def stable : Sorting where
  sort := List.insertionSort fun a b => litLt b a = false
  perm ls := List.perm_insertionSort _ ls
  sorted ls := by
    have : Std.Total fun a b => litLt b a = false := by
      constructor
      intro a b
      rw [litLt_false_iff, litLt_false_iff]
      exact Nat.le_total _ _
    have : IsTrans Lit fun a b => litLt b a = false := by
      constructor
      intro a b c
      rw [litLt_false_iff, litLt_false_iff, litLt_false_iff]
      exact Nat.le_trans
    exact List.pairwise_insertionSort _ ls

/-- mirrors subpaving_t.h:675-725: 1 for tighter, 0 for equal, -1 for looser,
of two bounds on the same side of a variable -/
def ineqLitCmp (lower : Bool) (lhs rhs : Bound) : Int :=
  if (if lower then rhs.val < lhs.val else lhs.val < rhs.val) then 1
  else if lhs.val = rhs.val then
    if lhs.isOpen = rhs.isOpen then 0 else if lhs.isOpen then 1 else -1
  else -1

/-! ## Simplifying a clause or a conjunction -/

/-- The locals of the loop of `simplify_ineqs_in_clause`. -/
structure Simplifier where
  output : List Lit
  currentVar : Option Nat
  currentLb : Option Bound
  currentUb : Option Bound
  eqCovered : Bool

namespace Simplifier

def init : Simplifier := ⟨[], none, none, none, false⟩

def lbLit (x : Nat) : Option Bound → List Lit
  | none => []
  | some b => [.ineq x b.val true b.isOpen]

def ubLit (x : Nat) : Option Bound → List Lit
  | none => []
  | some b => [.ineq x b.val false b.isOpen]

/-- The two bounds decide the whole: no value satisfies both (a conjunction),
or every value satisfies one (a clause). -/
def decided (isConjunction : Bool) (lb ub : Option Bound) : Bool :=
  match lb, ub with
  | some l, some u =>
    if isConjunction then u.val < l.val || (l.val == u.val && (l.isOpen || u.isOpen))
    else l.val < u.val || (l.val == u.val && (!l.isOpen || !u.isOpen))
  | _, _ => false

/-- mirrors the lambda `collect_lit_bounds` (subpaving_t_def.h:2602-2666);
`none` for its `return true` -/
def collectLitBounds (isConjunction : Bool) (st : Simplifier) : Option Simplifier :=
  if decided isConjunction st.currentLb st.currentUb then none
  else
    let x := st.currentVar.getD 0
    let lits := if st.eqCovered then [] else lbLit x st.currentLb ++ ubLit x st.currentUb
    some { st with output := st.output ++ lits, currentLb := none, currentUb := none }

/-- mirrors subpaving_t_def.h:2682-2698 -/
def replaceBound (isConjunction lower : Bool) (b : Bound) : Option Bound → Option Bound
  | none => some b
  | some cb => if ineqLitCmp lower b cb = (if isConjunction then 1 else -1) then some b else some cb

/-- The value of an equation against the bounds met so far (subpaving_t_def.h:2703-2726
for a conjunction, :2753-2776 for a clause). -/
def containVal (isConjunction : Bool) (st : Simplifier) (k : ℚ) : Bool :=
  if isConjunction then
    !(st.currentLb.any fun b => k < b.val || (b.val == k && b.isOpen)) &&
      !(st.currentUb.any fun b => b.val < k || (b.val == k && b.isOpen))
  else
    (st.currentLb.any fun b => b.val < k || (b.val == k && !b.isOpen)) ||
      (st.currentUb.any fun b => k < b.val || (b.val == k && !b.isOpen))

/-- The body of the loop for a literal of the current variable
(subpaving_t_def.h:2677-2815). -/
def takeLit (isConjunction : Bool) (st : Simplifier) : Lit → Option Simplifier
  | .bool x neg => some { st with output := st.output ++ [.bool x neg] }
  | .ineq _ k lower isOpen =>
    if lower then
      some { st with currentLb := replaceBound isConjunction lower ⟨k, isOpen⟩ st.currentLb }
    else some { st with currentUb := replaceBound isConjunction lower ⟨k, isOpen⟩ st.currentUb }
  | .eq x k neg =>
    let st' := { st with output := st.output ++ [.eq x k neg] }
    if isConjunction then
      if st.containVal true k then
        if neg then some st' else some { st' with eqCovered := true }
      else if neg then some st else none
    else
      if st.containVal false k then
        if neg then none else some st
      else if neg then some { st' with eqCovered := true } else some st'

/-- One round of the loop (subpaving_t_def.h:2668-2819). -/
def step (isConjunction : Bool) (st : Simplifier) (l : Lit) : Option Simplifier :=
  if st.currentVar = some l.x then st.takeLit isConjunction l
  else
    match st.collectLitBounds isConjunction with
    | none => none
    | some st => { st with currentVar := some l.x, eqCovered := false }.takeLit isConjunction l

/-- The loop from `st` on, and the literals of the last variable. -/
def run (isConjunction : Bool) : Simplifier → List Lit → Option (List Lit)
  | st, [] => (st.collectLitBounds isConjunction).map output
  | st, l :: ls =>
    match st.step isConjunction l with
    | none => none
    | some st => run isConjunction st ls

end Simplifier

/-- mirrors subpaving_t_def.h:2585-2852; `none` for `return true`: the
conjunction is unsatisfiable, the clause a tautology -/
def simplifyIneqsInClause (so : Sorting) (input : List Lit) (isConjunction : Bool) :
    Option (List Lit) :=
  Simplifier.run isConjunction .init (so.sort input)

/-! ## Dominated clauses -/

/-- mirrors subpaving_types.h:29-33,45 -/
def Lit.type : Lit → Nat
  | .bool _ _ => 0
  | .eq _ _ _ => 1
  | .ineq _ _ _ _ => 2

/-- `l` follows from `s`, for two literals of one kind and variable
(subpaving_t_def.h:2501-2530). -/
def litMatches : Lit → Lit → Bool
  | .bool _ neg, .bool _ neg' => neg == neg'
  | .eq _ k neg, .eq _ k' neg' => neg == neg' && k == k'
  | .ineq _ k lower isOpen, .ineq _ k' lower' isOpen' =>
    lower == lower' && ineqLitCmp lower ⟨k, isOpen⟩ ⟨k', isOpen'⟩ != 1
  | _, _ => false

/-- mirrors subpaving_t_def.h:2481-2533: one pass over the longer clause -/
def testDominated : List Lit → List Lit → Bool
  | _, [] => true
  | [], _ :: _ => false
  | l :: ls, s :: ss =>
    if l.type < s.type then testDominated ls (s :: ss)
    else if s.type < l.type then false
    else if l.x < s.x then testDominated ls (s :: ss)
    else if s.x < l.x then false
    else if litMatches l s then testDominated ls ss
    else testDominated ls (s :: ss)

/-- mirrors subpaving_t_def.h:2535-2581; clauses are tried by size, then by
position -/
def removeDominatedClauses (input : List (List Lit)) : List (List Lit) :=
  if 10000 < input.length then input
  else (input.insertionSort fun a b => a.length ≤ b.length).foldl
    (fun output c => if output.any (testDominated c) then output else output ++ [c]) []

/-! ## The task of a node -/

/-- `task_info` (subpaving_types.h:51-77) without the number and depth of its
node. -/
structure Task where
  undefLitNum : Nat
  undefClauseNum : Nat
  clauses : List (List Lit)
  varBounds : List Lit
  deriving DecidableEq, Repr

/-- The locals of the loop over the clauses. -/
structure Collected where
  tempUnits : List Lit
  tempClauses : List (List Lit)
  undefLitNum : Nat
  undefClauseNum : Nat

variable (P : Problem) (so : Sorting)

/-- One round of the loop over the clauses (subpaving_t_def.h:2878-2937);
`none` for an empty clause. The last addition to `m_undef_lit_num` reads the
size of `simp_lit_cla`, which is empty once it has been moved into
`temp_clauses`. -/
def collectClause (n : Content) (st : Collected) (c : List Lit) : Option Collected :=
  match n.openAtoms P c with
  | none => some st
  | some [] => none
  | some [a] => some { st with tempUnits := st.tempUnits ++ [a] }
  | some as =>
    let st := { st with
      undefClauseNum := st.undefClauseNum + 1
      undefLitNum := st.undefLitNum + as.length }
    match simplifyIneqsInClause so as false with
    | none => some st
    | some [a] => some { st with
        tempUnits := st.tempUnits ++ [a]
        undefLitNum := st.undefLitNum + 1 }
    | some simp => some { st with tempClauses := st.tempClauses ++ [simp] }

def collectClauses (n : Content) : List (List Lit) → Collected → Option Collected
  | [], st => some st
  | c :: cs, st =>
    match collectClause P so n st c with
    | none => none
    | some st => collectClauses n cs st

/-- What a variable contributes to the units (subpaving_t_def.h:2962-3022). -/
def varUnits (n : Content) (x : Nat) : List Lit :=
  if (P.defs x).isSome then []
  else if P.isBool x then
    match n.bvalue x with
    | .false => [.bool x true]
    | .true => [.bool x false]
    | _ => []
  else
    match n.lower x, n.upper x with
    | some l, some u =>
      if l.val = u.val then [.eq x l.val false]
      else [.ineq x l.val true l.isOpen, .ineq x u.val false u.isOpen]
    | some l, none => [.ineq x l.val true l.isOpen]
    | none, some u => [.ineq x u.val false u.isOpen]
    | none, none => []

/-- The atoms over defined variables. -/
def overDefs (as : List Lit) : List Lit := as.filter fun a => (P.defs a.x).isSome

/-- The units besides those the clauses leave. -/
def nodeUnits (n : Content) : List Lit :=
  overDefs P P.unitClauses ++ overDefs P n.upAtoms ++ (List.range P.numVars).flatMap (varUnits P n)

/-- mirrors subpaving_t_def.h:2854-3038; `none` for `return true` -/
def convertNodeToTask (n : Content) : Option Task :=
  match collectClauses P so n P.clauses ⟨[], [], 0, 0⟩ with
  | none => none
  | some st =>
    let clauses := removeDominatedClauses st.tempClauses
    match st.tempUnits ++ nodeUnits P n with
    | [] => some ⟨st.undefLitNum, st.undefClauseNum, clauses, []⟩
    | units =>
      match simplifyIneqsInClause so units true with
      | none => none
      | some bounds => some ⟨st.undefLitNum, st.undefClauseNum, clauses, bounds⟩

end AriParti.L1
