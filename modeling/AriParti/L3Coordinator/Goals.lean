import AriParti.L1Input.Goal
import AriParti.L3Coordinator.Contract

/-!
# From the goal to the verdict

The tactic builds the context out of the goal, the partitioner splits it, and
the coordinator has the parts solved. Here the three are put together: what the
result of a round says is said of the valuations of the goal. A task is printed
with the expressions of `m_v2e`, so a valuation satisfies it when the values
of these satisfy its atoms.

## Results

* `goal_contract`: the two results of a round, for the goal.
-/
namespace AriParti.L3
open AriParti.Core AriParti.L1 AriParti.L2 Context

variable {B : Symbol → Bool} {shared : Nat → Bool} {goal : List (GoalClause Term Symbol)}
  {f : Front}

/-- The valuation satisfies the printed task. -/
def SatisfiesTask (f : Front) (V : Valuation) (t : Task) : Prop :=
  ∃ σ, f.e2s.Agrees V σ ∧ t.Holds σ

theorem good_of_context (hfits : ∀ c ∈ goal, ∀ l ∈ c.args, l.Fits B)
    (hf : Front.internalizeGoal shared .empty goal = .context f) : f.Good B goal := by
  have h := Front.internalizeGoal_good shared Front.good_empty goal hfits
  rw [hf] at h
  exact h

variable {P : Problem} {pr : Params} {im : IntervalManager} {so : Sorting} {maxAlive cores : Nat}

/-- **What a round says of the goal.** If the context was built from a goal that
fits and the solvers are honest: when the result is unsat, every valuation that
satisfies the goal satisfies the task of a node that was handed over, so there
is none if nothing was; when it is sat, some valuation satisfies the goal,
provided the tasks have no more models than the problem. -/
theorem goal_contract (hfits : ∀ c ∈ goal, ∀ l ∈ c.args, l.Fits B)
    (hf : Front.internalizeGoal shared .empty goal = .context f) (hP : f.Builds P)
    {r : Ledger (paving P pr im so)}
    (hr : ((ledger (paving P pr im so) maxAlive cores).restrict Ledger.Honest).Reachable r) :
    (r.coord.result = .unsat → ∀ V : Valuation, V.IntValued B → (∀ c ∈ goal, V.Satisfies c) →
      ∃ n ∈ r.handed, ∃ t, convertNodeToTask P so (r.parti.node n).content = some t ∧
        SatisfiesTask f V t) ∧
    (r.coord.result = .sat → NoMoreModels r.parti →
      ∃ V : Valuation, V.IntValued B ∧ ∀ c ∈ goal, V.Satisfies c) := by
  have h := good_of_context hfits hf
  have hsort := h.singleSort hP
  constructor
  · intro hres V hV hall
    obtain ⟨n, hn, t, ht, hholds⟩ := handed_of_unsat hsort hr hres (h.model hP hV hall)
    exact ⟨n, hn, t, ht, _, f.e2s.evaluated_agrees V, hholds⟩
  · intro hres hM
    obtain ⟨σ, hσ⟩ := model_of_sat hsort hr hres hM
    obtain ⟨hV, -, hall⟩ := h.satisfies hP hσ
    exact ⟨_, hV, hall⟩

/-! ## A goal without a valuation -/

/-- `x > 0` and `x < 0`. -/
def sidesGoal : List (GoalClause Term Symbol) :=
  [.lit (.not (.atom (.le (.var ⟨0, false⟩) 0))), .lit (.not (.atom (.ge (.var ⟨0, false⟩) 0)))]

/-- The only variable is `x`. -/
def sidesState : Expr2Subpaving := (Expr2Subpaving.empty.mkVarFor (.var ⟨0, false⟩)).2

def sidesFront : Front := ⟨sidesState, bothSides.unitClauses, []⟩

theorem sidesGoal_context :
    Front.internalizeGoal (fun _ => false) .empty sidesGoal = .context sidesFront := by
  with_unfolding_all rfl

theorem sidesFront_builds : sidesFront.Builds bothSides := by
  have hentry : ∀ x, sidesFront.e2s.vars.entries[x]? =
      if x = 0 then some ⟨false, false, none⟩ else none := by
    intro x
    cases x <;> rfl
  refine ⟨rfl, ?_, ?_, ?_, rfl, rfl⟩
  · funext x
    rw [Vars.isInt, hentry]
    split <;> rfl
  · funext x
    rw [Vars.isBool, hentry]
    split <;> rfl
  · funext x
    rw [Vars.definition, hentry]
    split <;> rfl

theorem goal_contract_sides :
    ¬ ∃ V : Valuation, V.IntValued (fun _ => false) ∧ ∀ c ∈ sidesGoal, V.Satisfies c := by
  rintro ⟨V, hV, hall⟩
  obtain ⟨r, hr, hres, hH⟩ := bothSides_round
  have hfits : ∀ c ∈ sidesGoal, ∀ l ∈ c.args, l.Fits fun _ => false := by
    intro c hc l hl
    rcases List.mem_pair.mp hc with rfl | rfl
    · rw [List.mem_singleton.mp hl]
      exact Front.fits_var _ rfl
    · rw [List.mem_singleton.mp hl]
      exact Front.fits_var _ rfl
  obtain ⟨n, hn, -⟩ :=
    (goal_contract hfits sidesGoal_context sidesFront_builds hr).1 hres V hV hall
  rw [hH] at hn
  cases hn

end AriParti.L3
