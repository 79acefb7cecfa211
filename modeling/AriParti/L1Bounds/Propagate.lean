import Mathlib.Data.Real.Basic
import Mathlib.Logic.Relation
import AriParti.L1Bounds.Node

/-!
# Propagation

How bounds follow from a clause with one open atom, from a sum and from a
monomial, and how the root gets its first bounds. The interval operations are
a parameter, `IntervalManager`, which carries the property the partitioner
relies on: the result of an operation encloses the exact result set.

`propagate(n)` works off a queue of new bounds until it is empty, the node is
inconsistent or its time is up. Which constraints it visits in which order is
left open: `Propagates` is any finite number of visits.
-/
namespace AriParti.L1

/-- A mutable or constant interval (subpaving_t.h:308-328); `none` is infinite. -/
structure Interval where
  lower : Option Bound
  upper : Option Bound
  deriving DecidableEq, Repr

/-- The interval of all values. -/
def Interval.whole : Interval := ⟨none, none⟩

/-- The constant interval of variable `x` at node `n`. -/
def Content.interval (n : Content) (x : Nat) : Interval := ⟨n.lower x, n.upper x⟩

def Bound.allowsBelow (b : Bound) (v : ℝ) : Prop := if b.isOpen then v < b.val else v ≤ b.val

def Bound.allowsAbove (b : Bound) (v : ℝ) : Prop :=
  if b.isOpen then (b.val : ℝ) < v else (b.val : ℝ) ≤ v

/-- `v` lies between the bounds. -/
structure Interval.Mem (i : Interval) (v : ℝ) : Prop where
  lower : ∀ b, i.lower = some b → b.allowsAbove v
  upper : ∀ b, i.upper = some b → b.allowsBelow v

/-- mirrors interval.h:197 -/
def Interval.lowerIsNeg (i : Interval) : Bool :=
  match i.lower with
  | none => true
  | some b => b.val < 0

/-- mirrors interval_def.h:613-618 -/
def Interval.containsZero (i : Interval) : Bool :=
  (match i.lower with
    | none => true
    | some b => b.val < 0 || (b.val == 0 && !b.isOpen)) &&
  (match i.upper with
    | none => true
    | some b => 0 < b.val || (b.val == 0 && !b.isOpen))

/-- The operations of `interval_manager` that the partitioner calls, with the
enclosure of the exact result set. -/
structure IntervalManager where
  scale : ℚ → Interval → Interval
  add : Interval → Interval → Interval
  sub : Interval → Interval → Interval
  mul : Interval → Interval → Interval
  div : Interval → Interval → Interval
  /-- division by a nonzero number -/
  unscale : Interval → ℚ → Interval
  power : Interval → Nat → Interval
  /-- the solutions of `x ^ n = y` -/
  xnEqY : Interval → Nat → Interval
  scale_mem : ∀ (a : ℚ) (i : Interval) (v : ℝ), i.Mem v → (scale a i).Mem (a * v)
  add_mem : ∀ (i j : Interval) (v w : ℝ), i.Mem v → j.Mem w → (add i j).Mem (v + w)
  sub_mem : ∀ (i j : Interval) (v w : ℝ), i.Mem v → j.Mem w → (sub i j).Mem (v - w)
  mul_mem : ∀ (i j : Interval) (v w : ℝ), i.Mem v → j.Mem w → (mul i j).Mem (v * w)
  div_mem : ∀ (i j : Interval) (v w : ℝ), i.Mem v → j.Mem w → j.containsZero = false →
    (div i j).Mem (v / w)
  unscale_mem : ∀ (i : Interval) (a : ℚ) (v : ℝ), a ≠ 0 → i.Mem v → (unscale i a).Mem (v / a)
  power_mem : ∀ (i : Interval) (v : ℝ) (k : Nat), i.Mem v → (power i k).Mem (v ^ k)
  xnEqY_mem : ∀ (i : Interval) (v : ℝ) (k : Nat), 0 < k → (k % 2 = 0 → i.lowerIsNeg = false) →
    i.Mem (v ^ k) → (xnEqY i k).Mem v

theorem Interval.Mem.whole (v : ℝ) : Interval.whole.Mem v := ⟨nofun, nofun⟩

/-- The numbers set by `updt_params` (subpaving_t_def.h:351-371). -/
structure Params where
  /-- `epsilon`: the threshold is 1 / epsilon, 0 for none -/
  epsilon : Nat
  /-- `max_bound`, a power of 10 -/
  maxBound : Nat

/-- Their defaults. -/
def defaults : Params := ⟨20, 10⟩

variable (P : Problem) (pr : Params) (im : IntervalManager)

namespace Content

/-- The smallest change of a bound `c` that is worth propagating:
`epsilon * max(min(upper - lower, |c|), 1)`. -/
def threshold (lower : Bool) (c : Bound) (other : Option Bound) : ℚ :=
  let abs := |c.val|
  let m := match other with
    | none => abs
    | some o =>
      let width := if lower then o.val - c.val else c.val - o.val
      if abs < width then abs else width
  (if 1 < m then m else 1) * (1 / pr.epsilon)

/-- mirrors subpaving_t_def.h:1220-1334 -/
def relevantNewBound (n : Content) (x : Nat) (k : ℚ) (lower isOpen : Bool) : Bool :=
  let curr := n.side x lower
  let other := n.side x !lower
  if other.any (crosses lower k isOpen) then true
  else if pr.epsilon = 0 && curr.any (noBetter lower k isOpen) then false
  else if other.isNone && (if lower then 10 ^ pr.maxBound < k else k < -10 ^ pr.maxBound) then false
  else if pr.epsilon ≠ 0 && curr.any fun c =>
      if lower then k ≤ c.val + threshold pr lower c other
      else c.val - threshold pr lower c other ≤ k then false
  else true

/-- The tail shared by the arithmetic propagators: both ends of `r` become
bounds of `y` if they are relevant. -/
def propagateInterval (n : Content) (y : Nat) (r : Interval) : Content :=
  let upper (n : Content) : Content :=
    match r.upper with
    | none => n
    | some u =>
      if n.relevantNewBound pr y u.val false u.isOpen then
        n.propagateBound P y u.val false u.isOpen
      else n
  match r.lower with
  | none => upper n
  | some l =>
    if n.relevantNewBound pr y l.val true l.isOpen then
      let n := n.propagateBound P y l.val true l.isOpen
      if n.inconsistent then n else upper n
    else upper n

/-- The consequences of an atom that has to hold, as a clause draws them: a
disequation gives no bound. -/
def propagateAtom (n : Content) : Lit → Content
  | .bool x neg => n.propagateBvarBound x neg
  | .eq x k neg =>
    if neg then n
    else
      let n := n.propagateBound P x k true false
      if n.inconsistent then n else n.propagateBound P x k false false
  | .ineq x k lower isOpen => n.propagateBound P x k lower isOpen

/-- The open atoms of a clause, `none` if some atom is true. -/
def openAtoms (n : Content) (c : List Lit) : Option (List Lit) :=
  if c.any fun a => value P n a = .true then none
  else some (c.filter fun a => value P n a = .undef)

/-- mirrors subpaving_t_def.h:1713-1769: nothing happens with a true atom or
two open ones; one open atom has to hold; with none the first atom is
propagated to make the node inconsistent -/
def propagateClause (n : Content) (c : List Lit) : Content :=
  match n.openAtoms P c with
  | none => n
  | some [] =>
    match c with
    | [] => n
    | a :: _ => n.propagateAtom P a
  | some [a] => { n with upAtoms := n.upAtoms ++ [a] }.propagateAtom P a
  | some (_ :: _ :: _) => n

/-- mirrors subpaving_t_def.h:1776-1839: the bounds of `y` (the sum `x` or one
of its summands) that follow from the others -/
def propagatePolynomialVar (n : Content) (x : Nat) (ts : List (ℚ × Nat)) (y : Nat) : Content :=
  if x = y then
    match ts with
    | [] => n
    | t :: ts =>
      let r := ts.foldl (fun r t => im.add r (im.scale t.1 (n.interval t.2)))
        (im.scale t.1 (n.interval t.2))
      n.propagateInterval P pr y r
  else
    let r := (ts.filter (·.2 ≠ y)).foldl
      (fun r t => im.sub r (im.scale t.1 (n.interval t.2))) (n.interval x)
    match ts.find? (·.2 = y) with
    | none => n
    | some t => n.propagateInterval P pr y (im.unscale r t.1)

/-- The rounds of the loop over the summands (subpaving_t_def.h:1867-1871). -/
def propagatePolynomialVars (x : Nat) (ts : List (ℚ × Nat)) : List Nat → Content → Content
  | [], n => n
  | y :: ys, n =>
    if n.inconsistent then n
    else propagatePolynomialVars x ts ys (n.propagatePolynomialVar P pr im x ts y)

/-- mirrors subpaving_t_def.h:1841-1872 -/
def propagatePolynomial (n : Content) (x : Nat) (ts : List (ℚ × Nat)) : Content :=
  match (x :: ts.map Prod.snd).filter n.isUnbounded with
  | [] => propagatePolynomialVars P pr im x ts (x :: ts.map Prod.snd) n
  | [y] => n.propagatePolynomialVar P pr im x ts y
  | _ :: _ :: _ => n

/-- The product of the powers, folded as the source does. -/
def productOf (n : Content) : List (Nat × Nat) → Option Interval
  | [] => none
  | p :: ps => some (ps.foldl (fun r q => im.mul r (im.power (n.interval q.1) q.2))
      (im.power (n.interval p.1) p.2))

/-- mirrors subpaving_t_def.h:1951-1983 -/
def propagateMonomialUpward (n : Content) (x : Nat) (ps : List (Nat × Nat)) : Content :=
  match n.productOf im ps with
  | none => n
  | some r => n.propagateInterval P pr x r

/-- What remains for the power at position `j` when `x` is divided by the
product of the other powers. -/
def quotientOf (n : Content) (x : Nat) (others : List (Nat × Nat)) : Interval :=
  match n.productOf im others with
  | none => n.interval x
  | some d => if d.containsZero then .whole else im.div (n.interval x) d

/-- mirrors subpaving_t_def.h:1985-2059; `j` is a position of `ps`. The lower
bound is propagated a second time, whether it is relevant or not. -/
def propagateMonomialDownward (n : Content) (x : Nat) (ps : List (Nat × Nat)) (j : Nat) :
    Content :=
  match ps[j]? with
  | none => n
  | some (y, deg) =>
    let r := n.quotientOf im x (ps.eraseIdx j)
    if 1 < deg && (deg % 2 = 0 && r.lowerIsNeg || 2 < deg) then n
    else
      let r := if 1 < deg then im.xnEqY r deg else r
      let upper (n : Content) : Content :=
        match r.upper with
        | none => n
        | some u =>
          if n.relevantNewBound pr y u.val false u.isOpen then
            n.propagateBound P y u.val false u.isOpen
          else n
      match r.lower with
      | none => upper n
      | some l =>
        let n := if n.relevantNewBound pr y l.val true l.isOpen then
          n.propagateBound P y l.val true l.isOpen else n
        if n.inconsistent then n
        else
          let n := n.propagateBound P y l.val true l.isOpen
          if n.inconsistent then n else upper n

/-- The rounds of the loop over all positions (subpaving_t_def.h:1937-1944). -/
def propagateMonomialDownwards (x : Nat) (ps : List (Nat × Nat)) : List Nat → Content → Content
  | [], n => n
  | j :: js, n =>
    if n.inconsistent then n
    else propagateMonomialDownwards x ps js (n.propagateMonomialDownward P pr im x ps j)

/-- mirrors subpaving_t_def.h:1874-1949 -/
def propagateMonomial (n : Content) (x : Nat) (ps : List (Nat × Nat)) : Content :=
  let foundZero := ps.any fun p => n.isZero p.1
  let foundUnbounded := ps.any fun p => p.2 % 2 ≠ 0 && n.isUnbounded p.1
  if foundZero then
    if n.isZero x then n
    else
      let n := n.propagateBound P x 0 true false
      if n.inconsistent then n else n.propagateBound P x 0 false false
  else
    let xIsUnbounded := n.isUnbounded x
    let n := if foundUnbounded then n else n.propagateMonomialUpward P pr im x ps
    if n.inconsistent || xIsUnbounded then n
    else
      let withZero := (List.range ps.length).filter fun j =>
        (ps[j]?).any fun p => (n.interval p.1).containsZero
      match withZero with
      | [] => propagateMonomialDownwards P pr im x ps (List.range ps.length) n
      | [j] => n.propagateMonomialDownward P pr im x ps j
      | _ :: _ :: _ => n

/-- mirrors subpaving_t_def.h:2097-2110 -/
def propagateDef (n : Content) (x : Nat) : Content :=
  match P.defs x with
  | none => n
  | some (.monomial ps) => n.propagateMonomial P pr im x ps
  | some (.polynomial ts) => n.propagatePolynomial P pr im x ts

end Content

/-- One visit of a clause or a definition. -/
inductive Visit : Content → Content → Prop where
  | clause {n : Content} {c : List Lit} : n.inconsistent = false → c ∈ P.clauses →
      Visit n (n.propagateClause P c)
  | definition {n : Content} (x : Nat) : n.inconsistent = false →
      Visit n (n.propagateDef P pr im x)

/-- `propagate(n)`, with any order and any cut-off. -/
def Propagates : Content → Content → Prop := Relation.ReflTransGen (Visit P pr im)

/-- mirrors subpaving_t_def.h:2248-2281; a unit clause is asserted the way a
clause propagates its last atom -/
def assertUnits : List Lit → Content → Content
  | [], n => n
  | a :: as, n =>
    let n := n.propagateAtom P a
    if n.inconsistent then n else assertUnits as n

/-- mirrors subpaving_t_def.h:2231-2239 -/
def propagateAllDefinitions : List Nat → Content → Content
  | [], n => n
  | x :: xs, n =>
    if n.inconsistent then n else propagateAllDefinitions xs (n.propagateDef P pr im x)

/-- mirrors subpaving_t_def.h:2436-2454 -/
def initRoot : Content :=
  propagateAllDefinitions P pr im (List.range P.numVars) (assertUnits P P.unitClauses (blank P))

end AriParti.L1
