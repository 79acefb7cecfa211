import AriParti.L1Bounds.Normal
import AriParti.L2Partitioner.Genealogy
import AriParti.L2Partitioner.Verdicts

/-!
# No solution is lost

A model of the problem that satisfies the split decisions on the path to a
node is in the node, and in its task; and the decisions of a split are
opposite, so that every model is in a leaf.

Rounding is sound when a monomial has variables of one sort: `is_int` takes a
monomial for an integer as soon as one of its variables is.

## Results

* `paving_reached`: every node of the process is one that visits and cuts
  reach; so the models on the path to a node are admitted by it, and its bounds
  are in normal form (`paving_normalForm`).
* `no_solution_lost`: for the nodes, their tasks and the leaves of every
  reachable tree.
-/
namespace AriParti.L2
open AriParti.Core AriParti.L1 Context

variable {P : Problem} {pr : Params} {im : IntervalManager} {so : Sorting} {maxAlive : Nat}

/-- A base variable that is not Boolean: the variables `get_split_var` ranks. -/
def SplitVar (P : Problem) (x : Nat) : Prop :=
  x < P.numVars ∧ P.defs x = none ∧ P.isBool x = false

theorem splitCandidates_splitVar {cs : List Nat} (hcs : ∀ x ∈ cs, SplitVar P x) (n : Content)
    (t : Task) : ∀ x ∈ splitCandidates P cs n t, SplitVar P x := by
  intro x hx
  unfold splitCandidates at hx
  split at hx
  · obtain ⟨hlt, hc⟩ := List.mem_filter.1 hx
    simp only [Bool.and_eq_true, Option.isNone_iff_eq_none, Bool.not_eq_true'] at hc
    exact ⟨List.mem_range.1 hlt, hc.1.1.1, hc.1.1.2⟩
  · exact hcs x hx

theorem offered_splitVar {cs : List Nat} (h : Offered (paving P pr im so) cs) :
    ∀ x ∈ cs, SplitVar P x := by
  suffices ∀ cs', Offered (paving P pr im so) cs' → ∀ x ∈ (id cs' : List Nat), SplitVar P x from
    this cs h
  intro cs' h'
  induction h' with
  | none => exact fun x hx => absurd hx List.not_mem_nil
  | branch _ hb ih =>
    cases (id hb : Branch P _ _ _ _ _) with
    | noVar _ => exact splitCandidates_splitVar ih _ _
    | cut _ _ => exact splitCandidates_splitVar ih _ _

/-- The cut of a split, with its two children. -/
theorem born_cut {c l r : Content} (h : Born (paving P pr im so) c l r) :
    ∃ x mid lower isOpen, SplitVar P x ∧ value P c (.ineq x mid lower isOpen) = .undef ∧
      c.inconsistent = false ∧ Propagates P pr im (childOf P c x mid lower isOpen) l ∧
      Propagates P pr im (childOf P c x mid (!lower) (!isOpen)) r := by
  obtain ⟨t, cs, cs', l₀, r₀, hcs, ht, hb, hl, hr⟩ := h.made
  have hbase := offered_splitVar (hcs.branch hb)
  have hb : Branch P cs c t cs' (some (l₀, r₀)) := hb
  cases hb with
  | @cut x mid lower isOpen hx hcut =>
    exact ⟨x, mid, lower, isOpen, hbase x (List.mem_filter.1 hx).1, hcut.undef ht, h.consistent,
      hl, hr⟩

/-- The nodes of the process. -/
theorem paving_reached {s : Context (paving P pr im so)}
    (hr : (machine (paving P pr im so) maxAlive).Reachable s) {n : Nat} (hn : n < s.size) :
    Reached P pr im (s.node n).content := by
  obtain ⟨hi, hg⟩ := reachable_genealogy hr (Nat.zero_lt_of_lt hn)
  refine hg.induction hi (I := Reached P pr im) (fun c hc => ?_) (fun n a b _ hc hborn => ?_) n hn
  · obtain ⟨c₀, hinit, rfl | ⟨-, hprop⟩⟩ := hc
    · rw [show c = initRoot P pr im from hinit]
      exact initRoot_reached
    · rw [show c₀ = initRoot P pr im from hinit] at hprop
      exact Propagates.reached hprop initRoot_reached
  · obtain ⟨x, mid, lower, isOpen, ⟨hlt, -, hx⟩, -, hcons, hl, hr⟩ := born_cut hborn
    exact ⟨Propagates.reached hl (hc.child hcons hlt hx),
      Propagates.reached hr (hc.child hcons hlt hx)⟩

theorem paving_normalForm {s : Context (paving P pr im so)}
    (hr : (machine (paving P pr im so) maxAlive).Reachable s) {n : Nat} (hn : n < s.size) :
    Content.NormalForm P (s.node n).content :=
  (paving_reached hr hn).well.normalForm (paving_reached hr hn).stored

theorem propagates_path {n n' : Content} (h : Propagates P pr im n n') (hw : n.Well P) :
    n'.Well P ∧ n'.path = n.path := by
  induction h with
  | refl => exact ⟨hw, rfl⟩
  | tail _ hv ih =>
    have hvis := hv.visited ih.1
    exact ⟨hvis.well, hvis.path.trans ih.2⟩

/-- The assignment satisfies the split decisions on the path to the node. -/
def Follows (σ : Assignment) (n : Content) : Prop := ∀ a ∈ n.path, a.Holds σ

/-- One of two opposite cuts is satisfied. -/
theorem born_follows {c l r : Content} (hw : c.Well P) {σ : Assignment} (hf : Follows σ c)
    (h : Born (paving P pr im so) c l r) : Follows σ l ∨ Follows σ r := by
  obtain ⟨x, mid, lower, isOpen, ⟨hlt, -, hx⟩, -, hcons, hl, hr⟩ := born_cut h
  have snoc : ∀ lower isOpen, (Bound.mk mid isOpen).Allows lower (σ.num x) →
      ∀ n, Propagates P pr im (childOf P c x mid lower isOpen) n → Follows σ n := by
    intro lower isOpen hcut n hn a ha
    rw [(propagates_path hn (childOf_well hw hcons hlt hx mid lower isOpen)).2, childOf_path] at ha
    rcases List.mem_append.1 ha with ha | ha
    · exact hf a ha
    · rw [List.mem_singleton.1 ha]
      exact hcut
  by_cases hside : (Bound.mk mid isOpen).Allows lower (σ.num x)
  · exact .inl (snoc lower isOpen hside l hl)
  · exact .inr (snoc (!lower) (!isOpen) (Bound.allows_not.2 hside) r hr)

theorem root_follows {c : Content} (h : Rooted (paving P pr im so) c) (σ : Assignment) :
    Follows σ c := by
  have hroot : (initRoot P pr im).path = [] :=
    ((initRoot_derives (S := fun _ => False) nofun nofun nofun).rest blank_well).1
  have hpath : c.path = [] := by
    obtain ⟨c₀, hinit, rfl | ⟨-, hprop⟩⟩ := h
    · rw [show c = initRoot P pr im from hinit]
      exact hroot
    · rw [show c₀ = initRoot P pr im from hinit] at hprop
      rw [(propagates_path hprop initRoot_well).2]
      exact hroot
  intro a ha
  rw [hpath] at ha
  exact absurd ha List.not_mem_nil

/-- **No solution is lost by partitioning.** In every reachable tree a model of
the problem that satisfies the decisions on the path to a node lies within its
bounds and Boolean values; the node is then consistent, its conversion does not
return true, and the model satisfies the task. Every model satisfies the
decisions on the path to some leaf. -/
theorem no_solution_lost (hP : SingleSort P) {s : Context (paving P pr im so)}
    (hr : (machine (paving P pr im so) maxAlive).Reachable s) {σ : Assignment} (hσ : Model P σ) :
    (∀ n < s.size, Follows σ (s.node n).content →
      Admits (s.node n).content σ ∧ (s.node n).content.inconsistent = false ∧
        convertNodeToTask P so (s.node n).content ≠ none ∧
          ∀ t, convertNodeToTask P so (s.node n).content = some t → t.Holds σ) ∧
    (0 < s.size → ∃ n < s.size, (s.node n).children = [] ∧ Follows σ (s.node n).content) := by
  constructor
  · intro n hn hf
    have hc := (paving_reached hr hn).covers hP
    obtain ⟨ha, hup⟩ := hc.admits σ hσ hf
    have hreads : Reads P (s.node n).content σ := ⟨hc.well, hσ.toRespects.isInt hP, ha⟩
    -- the units of the node: of the problem, of the clauses visited, of the bounds
    have hunits : ∀ a ∈ nodeUnits P (s.node n).content, a.Holds σ := by
      intro a hau
      unfold nodeUnits overDefs at hau
      rw [List.mem_append, List.mem_append] at hau
      rcases hau with (hau | hau) | hau
      · exact hσ.units a (List.mem_filter.1 hau).1
      · exact hup a (List.mem_filter.1 hau).1
      · obtain ⟨x, -, hau⟩ := List.mem_flatMap.1 hau
        exact varUnits_holds ha x a hau
    refine ⟨ha, ?_, fun hnone => ?_, fun t ht => ?_⟩
    · exact Bool.not_eq_true _ ▸ fun hi => hc.well.not_admits hi ha
    · exact convert_none hreads hnone ⟨hσ.clauses, hunits⟩
    · exact (convert_holds hreads ht).2 ⟨hσ.clauses, hunits⟩
  · intro hpos
    obtain ⟨hi, hg⟩ := reachable_genealogy hr hpos
    have hroot := root_follows hg.root σ
    have hwell : ∀ n < s.size, (s.node n).content.Well P := fun n hn => (paving_reached hr hn).well
    exact hg.leaf hi (I := fun c => Follows σ c) hroot fun n a b hn _ hf hborn =>
      born_follows (hwell n hn) hf hborn

/-- `x` is real and `b` is Boolean: `0 ≤ x` follows from either value of `b`. -/
def halfLine : Problem :=
  .ofAtoms 2 (fun _ => false) (fun x => x != 0) []
    [[.bool 1 false, .ineq 0 0 true false], [.bool 1 true, .ineq 0 0 true false]] rfl

abbrev halfKernel : Kernel := paving halfLine defaults defaultManager stable

def halfRoot : Content := initRoot halfLine defaults defaultManager

def halfTask : Task :=
  ⟨4, 2, [[.ineq 0 0 true false, .bool 1 false], [.ineq 0 0 true false, .bool 1 true]], []⟩

theorem half_task : convertNodeToTask halfLine stable halfRoot = some halfTask := by
  decide

def halfVisit (n : Content) (i : Nat) : Content :=
  n.propagateClause halfLine (halfLine.clauses.getD i [])

theorem halfVisit_visit {n : Content} {i : Nat} (hi : i < 2) (hn : n.inconsistent = false) :
    Visit halfLine defaults defaultManager n (halfVisit n i) := by
  have hmem : ∀ i < 2, halfLine.clauses.getD i [] ∈ halfLine.clauses := by decide
  exact .clause hn (hmem i hi)

/-- `0 ≤ x`. -/
def halfLeft : Content := childOf halfLine halfRoot 0 0 true false

/-- `x < 0`, refuted by the two clauses. -/
def halfRight : Content := halfVisit (halfVisit (childOf halfLine halfRoot 0 0 false true) 0) 1

/-- The root is announced and split at `0 ≤ x`. -/
def halfSplit : Context halfKernel :=
  (rootConverted (K := halfKernel) halfRoot halfTask).announce ⟨0, 0, halfTask⟩
    ([0] : List Nat) (some (halfLeft, halfRight))

theorem halfSplit_reachable {G : Context halfKernel → Label → Prop} (hG : ∀ s, G s .tau) :
    ((machine halfKernel 8).restrict G).Reachable halfSplit := by
  have h₀ : ((machine halfKernel 8).restrict G).Reachable
      (rootConverted (K := halfKernel) halfRoot halfTask) :=
    rootConverted_reachable hG (rfl : halfKernel.init halfRoot)
      (by decide) Relation.ReflTransGen.refl (by decide) half_task
  have hcut : Branch halfLine [] halfRoot halfTask [0]
      (some (halfLeft, childOf halfLine halfRoot 0 0 false true)) :=
    Branch.cut (x := 0) (by decide) (.lit (by decide))
  have split : Step halfKernel 8 (rootConverted (K := halfKernel) halfRoot halfTask) .tau
      halfSplit :=
    .announce rfl rfl hcut ⟨Relation.ReflTransGen.refl,
      .tail (.single (halfVisit_visit (by decide) (by decide)))
        (halfVisit_visit (by decide) (by decide))⟩
  exact h₀.step ⟨hG _, split⟩

/-- `x = 1`, and `b` is true. -/
def one : Assignment := ⟨fun _ => 1, fun _ => true⟩

theorem one_holds : (Lit.ineq 0 0 true false).Holds one := by
  simp [Lit.Holds, one, Bound.Allows, Bound.allowsAbove]

theorem one_model : Model halfLine one := by
  refine ⟨⟨nofun, nofun⟩, nofun, fun c hc => ?_⟩
  rcases List.mem_pair.1 hc with rfl | rfl
  · exact ⟨_, List.mem_cons_of_mem _ (List.mem_singleton_self _), one_holds⟩
  · exact ⟨_, List.mem_cons_of_mem _ (List.mem_singleton_self _), one_holds⟩

/-- The right child is refuted; the left one keeps the model. -/
theorem no_solution_lost_half :
    (halfSplit.node 2).content.inconsistent = true ∧
      Admits (halfSplit.node 1).content one ∧
      ∃ n < halfSplit.size, (halfSplit.node n).children = [] ∧
        Follows one (halfSplit.node n).content := by
  have hP : SingleSort halfLine := nofun
  have hr := (halfSplit_reachable (G := fun _ _ => True) fun _ => trivial).of_restrict
  have h := no_solution_lost hP hr one_model
  have hpath : (halfSplit.node 1).content.path = [.ineq 0 0 true false] := by decide
  refine ⟨by decide, (h.1 1 (by decide) fun a ha => ?_).1, h.2 (by decide)⟩
  rw [hpath, List.mem_singleton] at ha
  rw [ha]
  exact one_holds

end AriParti.L2
