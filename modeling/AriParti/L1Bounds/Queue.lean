import AriParti.Core.LTS
import AriParti.L1Bounds.Propagators
import AriParti.L1Bounds.Split

/-!
# The queue of new bounds

`Propagates` leaves open which constraints are visited. Here is the order of
the source: each new bound goes into a queue, and the constraints that watch
its variable are visited when its turn comes. Three tests skip visits:

* a bound is dropped if its variable has got a newer one at the node;
* a constraint is skipped if it was visited after the bound was made, as the
  time stamps tell;
* a clause is stamped once more after its own consequence.

One clock, `m_timestamp`, counts the bounds of all nodes, and the stamps of
the constraints are shared by all nodes as well.

What a visit of a definition does to the bounds is `propagateDef`. The bounds
it makes on the way there go into the queue one by one (`DefVisit`).

`Paver` is the tree with the clock and the stamps. One node at a time is
propagated, and the time limit may stop it at any point. Nodes may be split in
any order and at any place; a child has one new bound in its queue.
-/
namespace AriParti.L1
open AriParti.Core

/-- What `propagate` reads of a bound in the queue. -/
structure Entry where
  x : Nat
  timestamp : Nat
  deriving DecidableEq, Repr

inductive Watched where
  /-- a clause, by its position -/
  | clause (i : Nat)
  /-- a definition, by its variable -/
  | definition (y : Nat)
  deriving DecidableEq, Repr

/-- `m_wlist` (subpaving_t_def.h:786-791,660-664,700-703): a constraint is in
the list of each of its variables. A clause can be there twice, for the atoms
`x = k` are sorted apart from the inequalities. -/
structure WatchList (P : Problem) where
  of : Nat → List Watched
  clause_mem : ∀ x i, .clause i ∈ of x ↔ ∃ c, P.clauses[i]? = some c ∧ ∃ a ∈ c, a.x = x
  definition_mem : ∀ x y, .definition y ∈ of x ↔ ∃ d, P.defs y = some d ∧ x ∈ d.vars

/-- The lists of a problem, without repetitions. -/
instance (P : Problem) : Inhabited (WatchList P) where
  default :=
    { of := fun x =>
        ((List.range P.clauses.length).filter fun i =>
          (P.clauses[i]?).any fun c => c.any fun a => a.x == x).map .clause ++
        ((List.range P.numVars).filter fun y =>
          (P.defs y).any fun d => d.vars.contains x).map .definition
      clause_mem := by
        intro x i
        simp only [List.mem_append, List.mem_map, List.mem_filter, List.mem_range, reduceCtorEq,
          and_false, exists_false, or_false, Watched.clause.injEq, exists_eq_right,
          Option.any_eq_true, List.any_eq_true, beq_iff_eq]
        exact ⟨And.right, fun ⟨c, hc, ha⟩ => ⟨(List.getElem?_eq_some_iff.1 hc).1, c, hc, ha⟩⟩
      definition_mem := by
        intro x y
        simp only [List.mem_append, List.mem_map, List.mem_filter, List.mem_range, reduceCtorEq,
          and_false, exists_false, false_or, Watched.definition.injEq, exists_eq_right,
          Option.any_eq_true, List.contains_iff_mem]
        exact ⟨And.right, fun ⟨d, hd, hx⟩ => ⟨(P.defs_lt y d hd).1, d, hd, hx⟩⟩ }

/-- A node while it is propagated, with the context. `boundTs` is the stamp of
the current bound of a variable on a side. -/
structure Propagation where
  node : Content
  boundTs : Nat → Bool → Nat
  timestamp : Nat
  clauseTs : Nat → Nat
  defTs : Nat → Nat
  queue : List Entry

variable (P : Problem) (W : WatchList P) (pr : Params) (im : IntervalManager)

namespace Propagation

/-- A new bound of `x` made it `n`: the bound gets the time, the clock goes on,
and the bound is put into the queue. -/
def pushed (s : Propagation) (x : Nat) (lower : Bool) (n : Content) : Propagation :=
  { s with
    node := n
    boundTs := Function.update s.boundTs x (Function.update (s.boundTs x) lower s.timestamp)
    timestamp := s.timestamp + 1
    queue := s.queue ++ [⟨x, s.timestamp⟩] }

/-- mirrors subpaving_t_def.h:506-518 -/
def propagateBvarBound (s : Propagation) (x : Nat) (neg : Bool) : Propagation :=
  if s.node.improveBvarBound x neg then s.pushed x neg (s.node.mkBvarBound x neg) else s

/-- mirrors subpaving_t_def.h:520-544 -/
def propagateBound (s : Propagation) (x : Nat) (val : ℚ) (lower isOpen : Bool) : Propagation :=
  let k := normalizeBound P x val lower isOpen
  if s.node.improveBound x k.1 lower k.2 then s.pushed x lower (s.node.mkBound x k.1 lower k.2)
  else s

/-- The consequences of an atom that has to hold, and whether the caller
returns at once. -/
def propagateAtom (s : Propagation) : Lit → Propagation × Bool
  | .bool x neg => (s.propagateBvarBound x neg, false)
  | .eq x k neg =>
    if neg then (s, false)
    else
      let s := s.propagateBound P x k true false
      if s.node.inconsistent then (s, true) else (s.propagateBound P x k false false, false)
  | .ineq x k lower isOpen => (s.propagateBound P x k lower isOpen, false)

def setVisited (s : Propagation) (i : Nat) : Propagation :=
  { s with clauseTs := Function.update s.clauseTs i s.timestamp }

def setVisitedDef (s : Propagation) (x : Nat) : Propagation :=
  { s with defTs := Function.update s.defTs x s.timestamp }

/-- The end of `propagate_clause` (subpaving_t_def.h:1751-1774). -/
def propagateLast (s : Propagation) (i : Nat) (a : Lit) : Propagation :=
  let r := s.propagateAtom P a
  if r.2 then r.1 else r.1.setVisited i

/-- mirrors subpaving_t_def.h:1713-1774 -/
def propagateClause (s : Propagation) (i : Nat) : Propagation :=
  match P.clauses[i]? with
  | none => s
  | some c =>
    let s := s.setVisited i
    match s.node.openAtoms P c with
    | none => s
    | some [] =>
      match c with
      | [] => s
      | a :: _ => s.propagateLast P i a
    | some [a] => { s with node.upAtoms := s.node.upAtoms ++ [a] }.propagateLast P i a
    | some (_ :: _ :: _) => s

/-- Bounds made one after the other. -/
inductive Moves (s : Propagation) : Propagation → Prop where
  | refl : Moves s s
  | bound {s' : Propagation} (x : Nat) (k : ℚ) (lower isOpen : Bool) : Moves s s' →
      s'.node.inconsistent = false → x < P.numVars → P.isBool x = false →
      Moves s (s'.propagateBound P x k lower isOpen)
  | bvar {s' : Propagation} (x : Nat) (neg : Bool) : Moves s s' → s'.node.inconsistent = false →
      x < P.numVars → P.isBool x = true → Moves s (s'.propagateBvarBound x neg)

/-- A visit of the definition of `x` (subpaving_t_def.h:2096-2110). The
definition is stamped before it makes any bound. -/
def DefVisit (s : Propagation) (x : Nat) (s' : Propagation) : Prop :=
  Moves P (s.setVisitedDef x) s' ∧ s'.node = s.node.propagateDef P pr im x

/-- mirrors subpaving_t_def.h:2134-2142 -/
def isLatestBound (s : Propagation) (b : Entry) : Bool :=
  (s.node.lower b.x).all (fun _ => s.boundTs b.x true ≤ b.timestamp) &&
  (s.node.upper b.x).all (fun _ => s.boundTs b.x false ≤ b.timestamp)

/-- mirrors subpaving_t_def.h:1150-1154 -/
def mayPropagate (b : Entry) (ts : Nat) : Bool := ts ≤ b.timestamp

/-- mirrors subpaving_t_def.h:2112-2132, where only clauses watch a Boolean
variable -/
def propagateBvar (s : Propagation) : List Watched → Propagation
  | [] => s
  | w :: ws =>
    if s.node.inconsistent then s
    else
      match w with
      | .clause i => (s.propagateClause P i).propagateBvar ws
      | .definition _ => s.propagateBvar ws

/-- The loop over the watch list (subpaving_t_def.h:2151-2175). -/
inductive Visits (b : Entry) : List Watched → Propagation → Propagation → Prop where
  | nil {s : Propagation} : Visits b [] s s
  | stop {s : Propagation} {ws : List Watched} : s.node.inconsistent = true → Visits b ws s s
  | clause {s s' : Propagation} {i : Nat} {ws : List Watched} : s.node.inconsistent = false →
      Visits b ws (if mayPropagate b (s.clauseTs i) then s.propagateClause P i else s) s' →
      Visits b (.clause i :: ws) s s'
  | skip {s s' : Propagation} {y : Nat} {ws : List Watched} : s.node.inconsistent = false →
      mayPropagate b (s.defTs y) = false → Visits b ws s s' → Visits b (.definition y :: ws) s s'
  | definition {s s₁ s' : Propagation} {y : Nat} {ws : List Watched} :
      s.node.inconsistent = false → mayPropagate b (s.defTs y) = true →
      s.DefVisit P pr im y s₁ → Visits b ws s₁ s' → Visits b (.definition y :: ws) s s'

/-- mirrors subpaving_t_def.h:2144-2184 -/
inductive PropagateArith (b : Entry) : Propagation → Propagation → Prop where
  | superseded {s : Propagation} : s.isLatestBound b = false → PropagateArith b s s
  | visits {s s' : Propagation} : s.isLatestBound b = true → Visits P pr im b (W.of b.x) s s' →
      (s'.node.inconsistent = true ∨ P.defs b.x = none ∨
        mayPropagate b (s'.defTs b.x) = false) → PropagateArith b s s'
  | own {s s₁ s' : Propagation} : s.isLatestBound b = true →
      Visits P pr im b (W.of b.x) s s₁ → s₁.node.inconsistent = false → P.defs b.x ≠ none →
      mayPropagate b (s₁.defTs b.x) = true → s₁.DefVisit P pr im b.x s' → PropagateArith b s s'

/-- One round of the loop of `propagate(n)` (subpaving_t_def.h:2195-2217). -/
inductive Round : Propagation → Propagation → Prop where
  | bvar {s : Propagation} {b : Entry} {q : List Entry} : s.node.inconsistent = false →
      s.queue = b :: q → P.isBool b.x = true →
      Round s ({ s with queue := q }.propagateBvar P (W.of b.x))
  | arith {s s' : Propagation} {b : Entry} {q : List Entry} : s.node.inconsistent = false →
      s.queue = b :: q → P.isBool b.x = false →
      PropagateArith P W pr im b { s with queue := q } s' → Round s s'

/-- mirrors subpaving_t_def.h:2248-2281; a unit clause is no constraint and
has no stamp -/
def assertUnits (s : Propagation) : List Lit → Propagation
  | [] => s
  | a :: as =>
    let s := (s.propagateAtom P a).1
    if s.node.inconsistent then s else s.assertUnits as

/-- mirrors subpaving_t_def.h:2232-2240 -/
inductive PropagateAllDefinitions : List Nat → Propagation → Propagation → Prop where
  | nil {s : Propagation} : PropagateAllDefinitions [] s s
  | stop {s : Propagation} {xs : List Nat} : s.node.inconsistent = true →
      PropagateAllDefinitions xs s s
  | skip {s s' : Propagation} {x : Nat} {xs : List Nat} : s.node.inconsistent = false →
      P.defs x = none → PropagateAllDefinitions xs s s' → PropagateAllDefinitions (x :: xs) s s'
  | visit {s s₁ s' : Propagation} {x : Nat} {xs : List Nat} : s.node.inconsistent = false →
      P.defs x ≠ none → s.DefVisit P pr im x s₁ → PropagateAllDefinitions xs s₁ s' →
      PropagateAllDefinitions (x :: xs) s s'

end Propagation

/-- A node of the tree. `complete` is set when its propagation has worked off
the queue without a conflict. -/
structure PavingNode where
  content : Content
  boundTs : Nat → Bool → Nat
  parent : Option Nat
  complete : Bool

/-- The tree of nodes with what they share. While a node is propagated, its
number and the queue are in `running`. -/
structure Paver where
  size : Nat
  node : Nat → PavingNode
  timestamp : Nat
  clauseTs : Nat → Nat
  defTs : Nat → Nat
  running : Option (Nat × List Entry)

namespace Paver

def start : Paver :=
  ⟨0, fun _ => ⟨blank P, fun _ _ => 0, none, false⟩, 0, fun _ => 0, fun _ => 0, none⟩

/-- The node `v` as its propagation sees it. -/
def view (p : Paver) (v : Nat) (q : List Entry) : Propagation :=
  ⟨(p.node v).content, (p.node v).boundTs, p.timestamp, p.clauseTs, p.defTs, q⟩

/-- What the propagation of `v` leaves behind. -/
def store (p : Paver) (v : Nat) (s : Propagation) : Paver :=
  { p with
    node := Function.update p.node v { p.node v with content := s.node, boundTs := s.boundTs }
    timestamp := s.timestamp
    clauseTs := s.clauseTs
    defTs := s.defTs
    running := some (v, s.queue) }

/-- A child of `v` with its first bound (subpaving_t_def.h:3752-3762,3784-3794). -/
def addChild (p : Paver) (v x : Nat) (mid : ℚ) (lower isOpen : Bool) : Paver :=
  let s := (p.view v []).pushed x lower (childOf P (p.node v).content x mid lower isOpen)
  { p with
    size := p.size + 1
    node := Function.update p.node p.size ⟨s.node, s.boundTs, some v, false⟩
    timestamp := s.timestamp
    running := some (p.size, s.queue) }

/-- The propagation of `v` ends (subpaving_t_def.h:2195-2229). -/
def stop (p : Paver) (v : Nat) (q : List Entry) : Paver :=
  { p with
    node := Function.update p.node v
      { p.node v with complete := q.isEmpty && !(p.node v).content.inconsistent }
    running := none }

inductive Label where
  | init
  | round
  | stop
  | split (v x : Nat) (mid : ℚ) (lower isOpen : Bool)

inductive Step : Paver → Label → Paver → Prop where
  /-- mirrors subpaving_t_def.h:2435-2453 -/
  | init {p : Paver} {s : Propagation} : p.size = 0 →
      Propagation.PropagateAllDefinitions P pr im (List.range P.numVars)
        ((p.view 0 []).assertUnits P P.unitClauses) s →
      Step p .init ({ p with size := 1 }.store 0 s)
  | round {p : Paver} {v : Nat} {q : List Entry} {s : Propagation} : p.running = some (v, q) →
      Propagation.Round P W pr im (p.view v q) s → Step p .round (p.store v s)
  | stop {p : Paver} {v : Nat} {q : List Entry} : p.running = some (v, q) →
      Step p .stop (p.stop v q)
  | split {p : Paver} {v x : Nat} {mid : ℚ} {lower isOpen : Bool} : p.running = none →
      v < p.size → (p.node v).content.inconsistent = false → x < P.numVars → P.isBool x = false →
      Step p (.split v x mid lower isOpen) (p.addChild P v x mid lower isOpen)

/-- The propagation of `v` and of all its ancestors has worked off the queue
without a conflict. -/
inductive Completed (p : Paver) : Nat → Prop where
  | root {v : Nat} : (p.node v).complete = true → (p.node v).parent = none → Completed p v
  | child {u v : Nat} : (p.node v).complete = true → (p.node v).parent = some u →
      Completed p u → Completed p v

end Paver

/-- The paving of a problem, at the grain of single bounds. -/
def paver : LTS Paver Paver.Label where
  init p := p = Paver.start P
  step := Paver.Step P W pr im

end AriParti.L1
