import AriParti.L1Bounds.Convert

/-!
# Splitting a node

`split_node` picks a base variable of the current task and cuts it in two, at
the value of a literal of the task over it, or else near the middle of its
interval. The left child gets the chosen side of the cut, the right child the
opposite one; each side is normalized on its own before it is stored.

The score of `select_best_var` is floating point and is left open, and so is
the random literal: any eligible variable and any literal may be taken.
-/
namespace AriParti.L1

variable (P : Problem)

/-- `m_split_delta` (subpaving_t_def.h:2410) -/
def splitDelta : ℚ := 128

/-- `m_var_occs[y] += k`; the counts are unsigned and wrap. -/
def addOcc (occs : Nat → BitVec 32) (y : Nat) (k : BitVec 32) : Nat → BitVec 32 :=
  Function.update occs y (occs y + k)

/-- One round of the last loop of `collect_task_var_info` (subpaving_t_def.h:3226-3263). -/
def spreadOccs (occs : Nat → BitVec 32) (x : Nat) : Nat → BitVec 32 :=
  if occs x = 0 then occs
  else
    match P.defs x with
    | none => occs
    | some (.monomial ps) => ps.foldl (fun o p => addOcc o p.1 (o x)) occs
    | some (.polynomial ts) =>
      ts.foldl (fun o t =>
        let o := addOcc o t.2 (o x)
        match P.defs t.2 with
        | some (.monomial ps) => ps.foldl (fun o p => addOcc o p.1 (o t.2)) o
        | _ => o) occs

/-- `m_var_occs` as `collect_task_var_info` fills it (subpaving_t_def.h:3192-3264). -/
def collectTaskVarInfo (t : Task) : Nat → BitVec 32 :=
  let lits := (t.clauses.flatten ++ t.varBounds).filter fun l => !P.isBool l.x
  ((List.range P.numVars).reverse).foldl (spreadOccs P)
    fun x => BitVec.ofNat 32 (lits.countP (·.x = x))

/-- The interval of `x` is a single point. -/
def isFixed (n : Content) (x : Nat) : Bool :=
  match n.lower x, n.upper x with
  | some l, some u => l.val == u.val
  | _, _ => false

/-- mirrors subpaving_t_def.h:3268-3285; computed again as long as it is empty -/
def splitCandidates (candidates : List Nat) (n : Content) (t : Task) : List Nat :=
  if candidates.isEmpty then
    (List.range P.numVars).filter fun x =>
      (P.defs x).isNone && !P.isBool x && !isFixed n x && collectTaskVarInfo P t x != 0
  else candidates

/-- The variables among which the score decides (subpaving_t_def.h:3302-3312). -/
def eligible (candidates : List Nat) (n : Content) (t : Task) : List Nat :=
  candidates.filter fun x => !isFixed n x && collectTaskVarInfo P t x != 0

/-- mirrors subpaving_t_def.h:3709-3750: the cut when no literal gives one;
`none` for the exception -/
def midpoint (n : Content) (x : Nat) : Option ℚ :=
  let lower := n.lower x
  let upper := n.upper x
  if (lower.all fun l => l.val < 0) && (upper.all fun u => 0 < u.val) then some 0
  else
    match lower, upper with
    | none, none => some 0
    | none, some u => some ((⌊u.val⌋ : ℤ) - splitDelta)
    | some l, none => some ((⌈l.val⌉ : ℤ) + splitDelta)
    | some l, some u =>
      let mid := (l.val + u.val) / 2
      let mid := if 10 < u.val - l.val then ((⌈mid⌉ : ℤ) : ℚ) else mid
      if l.val < mid && mid < u.val then some mid else none

/-- The literals of the task that may give the cut of `x` (subpaving_t_def.h:3576-3592). -/
def cutLits (t : Task) (x : Nat) : List Lit :=
  t.clauses.flatten.filter fun l => l.x = x && !l.isEqLit

/-- The left side `x ~ mid` of a split of `n` on `x` (subpaving_t_def.h:3622-3750). -/
inductive Cut (n : Content) (t : Task) (x : Nat) : ℚ → Bool → Bool → Prop where
  | lit {mid : ℚ} {lower isOpen : Bool} : .ineq x mid lower isOpen ∈ cutLits t x →
      Cut n t x mid lower isOpen
  | midpoint {mid : ℚ} : cutLits t x = [] → midpoint n x = some mid → Cut n t x mid false false

/-- A child with its bound, before propagation (subpaving_t_def.h:163-181,3752-3757). -/
def childOf (n : Content) (x : Nat) (mid : ℚ) (lower isOpen : Bool) : Content :=
  let k := normalizeBound P x mid lower isOpen
  { n.mkBound x k.1 lower k.2 with path := n.path ++ [.ineq x mid lower isOpen] }

/-- mirrors subpaving_t_def.h:3266-3386,3534-3816 up to the propagation of the
children -/
inductive Branch (candidates : List Nat) (n : Content) (t : Task) :
    List Nat → Option (Content × Content) → Prop where
  | noVar : eligible P (splitCandidates P candidates n t) n t = [] →
      Branch candidates n t (splitCandidates P candidates n t) none
  | cut {x : Nat} {mid : ℚ} {lower isOpen : Bool} :
      x ∈ eligible P (splitCandidates P candidates n t) n t → Cut n t x mid lower isOpen →
      Branch candidates n t (splitCandidates P candidates n t)
        (some (childOf P n x mid lower isOpen, childOf P n x mid (!lower) (!isOpen)))

/-- The contents a node can get: `assert_units` and `propagate` stop anywhere,
the unit clauses and the visits come in any order, and any arithmetic variable
of a consistent node is cut anywhere. -/
inductive Reached (pr : Params) (im : IntervalManager) : Content → Prop where
  | root : Reached pr im (blank P)
  | unit {n : Content} {a : Lit} : Reached pr im n → n.inconsistent = false →
      a ∈ P.unitClauses → Reached pr im (n.propagateAtom P a)
  | visit {n n' : Content} : Reached pr im n → Visit P pr im n n' → Reached pr im n'
  | child {n : Content} {x : Nat} {mid : ℚ} {lower isOpen : Bool} : Reached pr im n →
      n.inconsistent = false → x < P.numVars → P.isBool x = false →
      Reached pr im (childOf P n x mid lower isOpen)

end AriParti.L1
