import AriParti.L1Bounds.Carried
import AriParti.L2Partitioner.Solutions

/-!
# A subtask has no more models than the problem

An answer of a solver on a task is an answer for the problem if a model of the
task is a model of the problem. This rests on the bounds of the node, and fails
where they are weaker than the unit clauses that a task leaves out: a constant
whose denominator is over 10^9 is relaxed as a unit clause over a base
variable, and as a cut that replaces a tighter bound.

The conversion is called for entries of the leaf heap, which are consistent
(`Leaf.consistent`).

## Results

* `task_models`: in trees whose splits are tight, for problems with small
  denominators in the unit clauses and no monomial of two sorts.
* `task_model_not_model`: `x ≥ 1/(10⁹+7)` becomes the task `x > 0`.
-/
namespace AriParti.L2
open AriParti.Core AriParti.L1 Context

variable {P : Problem} {pr : Params} {im : IntervalManager} {so : Sorting} {maxAlive : Nat}

/-- No split of the tree has replaced a bound by a looser cut, as a relaxed one
may be. -/
def TightSplits (s : Context (paving P pr im so)) : Prop :=
  ∀ n, ∀ m ∈ (s.node n).children, ∀ x mid lower isOpen,
    (s.node m).content.path = (s.node n).content.path ++ [.ineq x mid lower isOpen] →
    P.isInt x = true ∨ mid.den ≤ maxDenominator ∨ TightCut P (s.node n).content x mid lower isOpen

theorem paving_carried {s : Context (paving P pr im so)}
    (hr : (machine (paving P pr im so) maxAlive).Reachable s) (ht : TightSplits s) {n : Nat}
    (hn : n < s.size) : Carried P (s.node n).content := by
  obtain ⟨hi, hg⟩ := reachable_genealogy hr (Nat.zero_lt_of_lt hn)
  refine hg.induction hi (I := Carried P) (fun c hc => ?_) (fun n a b hab hc hborn => ?_) n hn
  · obtain ⟨c₀, hinit, rfl | ⟨-, hprop⟩⟩ := hc
    · rw [show c = initRoot P pr im from hinit]
      exact initRoot_carried
    · rw [show c₀ = initRoot P pr im from hinit] at hprop
      exact Propagates.carried hprop initRoot_carried
  · obtain ⟨x, mid, lower, isOpen, ⟨hlt, hd, hx⟩, hund, hcons, hl, hr⟩ := born_cut hborn
    -- the cut of a child is the last decision on its path
    have child : ∀ m ∈ (s.node n).children, ∀ lower isOpen,
        (P.isInt x = true ∨ mid.den ≤ maxDenominator →
          TightCut P (s.node n).content x mid lower isOpen) →
        Propagates P pr im (childOf P (s.node n).content x mid lower isOpen) (s.node m).content →
        Carried P (s.node m).content := by
      intro m hm lower isOpen hsmall hprop
      have hwell := childOf_well hc.well hcons hlt hx mid lower isOpen
      have hpath := (propagates_path hprop hwell).2.trans (childOf_path x mid lower isOpen)
      have htight : TightCut P (s.node n).content x mid lower isOpen := by
        rcases ht n m hm x mid lower isOpen hpath with h | h | h
        · exact hsmall (.inl h)
        · exact hsmall (.inr h)
        · exact h
      exact Propagates.carried hprop (childOf_carried hc hcons hlt hd hx htight)
    rw [hab] at child
    exact ⟨child a (by simp) lower isOpen (fun h => (TightCut.of_undef hund h).1) hl,
      child b (by simp) (!lower) (!isOpen) (fun h => (TightCut.of_undef hund h).2) hr⟩

/-- The tasks of the tree have no more models than the problem. -/
def NoMoreModels (s : Context (paving P pr im so)) : Prop :=
  ∀ n < s.size, (s.node n).content.inconsistent = false →
    ∀ t, convertNodeToTask P so (s.node n).content = some t →
      ∀ σ, Respects P σ → t.Holds σ → Model P σ

theorem noMoreModels_of_small (hP : SingleSort P) (hU : SmallUnits P)
    {s : Context (paving P pr im so)} (hr : (machine (paving P pr im so) maxAlive).Reachable s)
    (hs : TightSplits s) : NoMoreModels s := by
  intro n hn hc t ht σ hσ h
  have hcarried := paving_carried hr hs hn
  obtain ⟨hstored, hclauses⟩ := hcarried.holds hP hc ht hσ h
  refine ⟨hσ, fun a ha => ?_, hclauses⟩
  by_cases hd : P.defs a.x = none
  · exact (hstored a ha).holds (hU a ha hd)
  · exact (says_of_task hP hcarried.well hc ht hσ h).units a ha hd

/-- **A model of a task is a model of the problem**, if no monomial mixes
integer and real variables, the constants of the unit clauses over real base
variables have denominators up to 10^9, and no split of the tree has replaced a
bound by a looser cut. -/
theorem task_models (hP : SingleSort P) (hU : SmallUnits P) {s : Context (paving P pr im so)}
    (hr : (machine (paving P pr im so) maxAlive).Reachable s) (hs : TightSplits s) :
    ∀ n < s.size, (s.node n).content.inconsistent = false →
      ∀ t, convertNodeToTask P so (s.node n).content = some t →
        ∀ σ, Respects P σ → t.Holds σ → Model P σ :=
  noMoreModels_of_small hP hU hr hs

/-- The cut of `halfLine` is a whole number. -/
theorem halfSplit_tight : TightSplits halfSplit := by
  intro n m hm x mid lower isOpen hpath
  have hr := (halfSplit_reachable (G := fun _ _ => True) fun _ => trivial).of_restrict
  obtain ⟨hi, -⟩ := reachable_genealogy hr (by decide)
  obtain ⟨hlt, hp⟩ := (hi.grown.child n m).1 hm
  have hthree : halfSplit.size = 3 := by decide +kernel
  have hlt : m < 3 := hthree ▸ hlt
  have hn : n = 0 ∧ ((halfSplit.node m).content.path = [.ineq 0 0 true false] ∨
      (halfSplit.node m).content.path = [.ineq 0 0 false true]) := by
    have hall : ∀ m < 3, (halfSplit.node m).parent = none ∨ (halfSplit.node m).parent = some 0 ∧
        ((halfSplit.node m).content.path = [.ineq 0 0 true false] ∨
          (halfSplit.node m).content.path = [.ineq 0 0 false true]) := by
      decide
    rcases hall m hlt with h | ⟨h, hcut⟩
    · rw [show (halfSplit.node m).parent = some n from hp] at h
      cases h
    · rw [show (halfSplit.node m).parent = some n from hp] at h
      exact ⟨Option.some.inj h, hcut⟩
  obtain ⟨rfl, hcut⟩ := hn
  have hroot : (halfSplit.node 0).content.path = [] := by decide
  rw [hroot, List.nil_append] at hpath
  rw [hpath] at hcut
  refine .inr (.inl ?_)
  rcases hcut with he | he <;> cases he <;> decide

theorem halfLine_singleSort : SingleSort halfLine := fun _ _ h => by cases h

theorem halfLine_smallUnits : SmallUnits halfLine := fun _ ha => absurd ha List.not_mem_nil

/-- The task of the left child is `0 ≤ x`. -/
theorem task_models_half : convertNodeToTask halfLine stable (halfSplit.node 1).content =
    some ⟨0, 0, [], [.ineq 0 0 true false]⟩ ∧ Model halfLine one := by
  have ht : convertNodeToTask halfLine stable (halfSplit.node 1).content =
      some ⟨0, 0, [], [.ineq 0 0 true false]⟩ := by
    decide
  have hr := (halfSplit_reachable (G := fun _ _ => True) fun _ => trivial).of_restrict
  refine ⟨ht, task_models halfLine_singleSort halfLine_smallUnits hr halfSplit_tight 1
    (by decide) (by decide) _ ht one one_model.toRespects
    ⟨fun c hc => ?_, fun a ha => ?_⟩⟩
  · exact absurd hc List.not_mem_nil
  · rw [List.mem_singleton.1 ha]
    exact one_holds

/-- The unit clause `x ≥ 1/(10⁹+7)` over a real variable. -/
def aboveRelaxed : Problem :=
  .ofAtoms 1 (fun _ => false) (fun _ => false) [.ineq 0 (1 / 1000000007) true false] []
    rfl

/-- `x > 0` -/
def aboveTask : Task := ⟨0, 0, [], [.ineq 0 0 true true]⟩

theorem above_task :
    convertNodeToTask aboveRelaxed stable (initRoot aboveRelaxed defaults defaultManager) =
      some aboveTask := by
  decide +kernel

/-- The task of the root is satisfied by `10⁻¹⁰`, the problem is not. -/
theorem task_model_not_model :
    ∃ s : Context (paving aboveRelaxed defaults defaultManager stable), ∃ σ : Assignment,
      (machine (paving aboveRelaxed defaults defaultManager stable) 8).Reachable s ∧ 0 < s.size ∧
      Content.inconsistent (s.node 0).content = false ∧
      convertNodeToTask aboveRelaxed stable (s.node 0).content = some aboveTask ∧
      Respects aboveRelaxed σ ∧ aboveTask.Holds σ ∧ ¬ Model aboveRelaxed σ := by
  let K := paving aboveRelaxed defaults defaultManager stable
  let s : Context K := rootConverted (initRoot aboveRelaxed defaults defaultManager) aboveTask
  have h : ((machine K 8).restrict fun _ _ => True).Reachable s :=
    rootConverted_reachable (fun _ => trivial)
      (rfl : K.init (initRoot aboveRelaxed defaults defaultManager)) (by decide +kernel)
      Relation.ReflTransGen.refl (by decide) above_task
  refine ⟨s, ⟨fun _ => 1 / 10000000000, fun _ => false⟩, h.of_restrict, by decide, ?_, above_task,
    ⟨nofun, nofun⟩, ⟨nofun, ?_⟩, fun hm => ?_⟩
  · show Content.inconsistent (initRoot aboveRelaxed defaults defaultManager) = false
    decide
  · simp [aboveTask, Lit.Holds, Bound.Allows, Bound.allowsAbove]
  · have hunit := hm.units (.ineq 0 (1 / 1000000007) true false) (List.mem_singleton_self _)
    simp [Lit.Holds, Bound.Allows, Bound.allowsAbove] at hunit
    norm_num at hunit

end AriParti.L2
