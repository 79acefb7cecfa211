import Mathlib.Init

/-!
# Node and coordinator statuses

The two enumerations every Python component of the solver shares.
-/
namespace AriParti.L3

/-- mirrors src/src/partition_tree.py:16-46 -/
inductive NodeStatus where
  | unsolved | sat | unsat | solving | terminated | error
  deriving DecidableEq, Repr

namespace NodeStatus

def isUnsolved (s : NodeStatus) : Bool := s == .unsolved
def isSat (s : NodeStatus) : Bool := s == .sat
def isUnsat (s : NodeStatus) : Bool := s == .unsat
def isSolved (s : NodeStatus) : Bool := s.isSat || s.isUnsat
def isSolving (s : NodeStatus) : Bool := s == .solving
def isTerminated (s : NodeStatus) : Bool := s == .terminated
def isEnded (s : NodeStatus) : Bool := s.isSolved || s.isTerminated

@[simp] theorem isUnsolved_iff {s : NodeStatus} : s.isUnsolved = true ↔ s = .unsolved := by
  cases s <;> decide

@[simp] theorem isSat_iff {s : NodeStatus} : s.isSat = true ↔ s = .sat := by
  cases s <;> decide

@[simp] theorem isUnsat_iff {s : NodeStatus} : s.isUnsat = true ↔ s = .unsat := by
  cases s <;> decide

@[simp] theorem isSolved_iff {s : NodeStatus} : s.isSolved = true ↔ s = .sat ∨ s = .unsat := by
  cases s <;> decide

@[simp] theorem isSolving_iff {s : NodeStatus} : s.isSolving = true ↔ s = .solving := by
  cases s <;> decide

@[simp] theorem isTerminated_iff {s : NodeStatus} : s.isTerminated = true ↔ s = .terminated := by
  cases s <;> decide

@[simp] theorem isEnded_iff {s : NodeStatus} :
    s.isEnded = true ↔ s = .sat ∨ s = .unsat ∨ s = .terminated := by
  cases s <;> decide

end NodeStatus

/-- mirrors src/src/coordinator.py:22-38 -/
inductive CoordinatorStatus where
  | idle | waiting | solving | splitting
  deriving DecidableEq, Repr

namespace CoordinatorStatus

def isIdle (s : CoordinatorStatus) : Bool := s == .idle
def isSolving (s : CoordinatorStatus) : Bool := s == .solving
def isSplitting (s : CoordinatorStatus) : Bool := s == .splitting

@[simp] theorem isIdle_iff {s : CoordinatorStatus} : s.isIdle = true ↔ s = .idle := by
  cases s <;> decide

@[simp] theorem isSolving_iff {s : CoordinatorStatus} : s.isSolving = true ↔ s = .solving := by
  cases s <;> decide

@[simp] theorem isSplitting_iff {s : CoordinatorStatus} :
    s.isSplitting = true ↔ s = .splitting := by
  cases s <;> decide

end CoordinatorStatus

end AriParti.L3
