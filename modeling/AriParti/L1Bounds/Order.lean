import AriParti.L1Bounds.Fixpoint
import AriParti.L1Bounds.Visits

/-!
# The queue is one of the orders

`Propagates` visits constraints in any order and stops anywhere. The queue
visits them in an order of its own and skips some, so the contents it leads to
are among those of `Propagates`: in one round, in the whole loop, and in every
run of the tree, where each node comes from the first bounds of the root or
from a child of its parent. What holds of all contents that are `Reached` then
holds of the nodes of every run.

## Results

* `exists_round`: the loop does not get stuck.
* `Round.propagates`, `rounds_propagate`: one round, and the whole loop.
* `paver_refines`: every node of a run.
* `paver_reached`, `paver_covers`: no run of the queue loses a model.
-/
namespace AriParti.L1
open AriParti.Core

variable {P : Problem} {W : WatchList P} {pr : Params} {im : IntervalManager}

namespace Propagation

variable {s s' : Propagation} {b : Entry}

/-! ## The rounds that there are -/

/-- Bounds that follow go into the queue one by one. -/
theorem moves_of_derives {S : Assignment → Prop} {n : Content} (h : Derives P S s.node n) :
    ∃ s', Moves P s s' ∧ s'.node = n := by
  induction h with
  | refl => exact ⟨s, .refl, rfl⟩
  | bound x k lower isOpen _ hn hx hb _ ih =>
    obtain ⟨s', hm, hs⟩ := ih
    refine ⟨s'.propagateBound P x k lower isOpen, hm.bound x k lower isOpen ?_ hx hb, ?_⟩
    · rw [hs]
      exact hn
    · rw [propagateBound_node, hs]
  | bvar x neg _ hn hx hb _ ih =>
    obtain ⟨s', hm, hs⟩ := ih
    refine ⟨s'.propagateBvarBound x neg, hm.bvar x neg ?_ hx hb, ?_⟩
    · rw [hs]
      exact hn
    · rw [propagateBvarBound_node, hs]

/-- A definition can always be visited. -/
theorem exists_defVisit (pr : Params) (im : IntervalManager) (hw : s.node.Well P)
    (hn : s.node.inconsistent = false) (x : Nat) : ∃ s', s.DefVisit P pr im x s' := by
  have hready : Ready P (fun _ => False) (s.setVisitedDef x).node :=
    ⟨hw, hn, fun _ => False.elim, fun _ => False.elim, fun _ => False.elim⟩
  have hd : Derives P (fun _ => False) (s.setVisitedDef x).node (s.node.propagateDef P pr im x) :=
    propagateDef_derives hready x
  obtain ⟨s', hm, hs⟩ := moves_of_derives hd
  exact ⟨s', hm, hs⟩

theorem propagateClause_well (pr : Params) (im : IntervalManager) (hw : s.node.Well P)
    (hn : s.node.inconsistent = false) (i : Nat) : (s.propagateClause P i).node.Well P := by
  cases hc : P.clauses[i]? with
  | none =>
    unfold propagateClause
    rwa [hc]
  | some c =>
    rw [propagateClause_node hc]
    have hvisit : Visit P pr im s.node (s.node.propagateClause P c) :=
      .clause hn (List.mem_of_getElem? hc)
    exact (hvisit.visited hw).well

theorem DefVisit.well {x : Nat} (hv : s.DefVisit P pr im x s') (hw : s.node.Well P)
    (hn : s.node.inconsistent = false) : s'.node.Well P := by
  rw [hv.2]
  exact ((Visit.definition x hn).visited hw).well

theorem exists_visits (pr : Params) (im : IntervalManager) (b : Entry) (ws : List Watched) :
    ∀ s : Propagation, s.node.Well P → ∃ s', Visits P pr im b ws s s' ∧ s'.node.Well P := by
  induction ws with
  | nil => exact fun s hw => ⟨s, .nil, hw⟩
  | cons w ws ih =>
    intro s hw
    cases hn : s.node.inconsistent with
    | true => exact ⟨s, .stop hn, hw⟩
    | false =>
      cases w with
      | clause i =>
        have hstep : (if mayPropagate b (s.clauseTs i) then s.propagateClause P i
            else s).node.Well P := by
          split
          · exact propagateClause_well pr im hw hn i
          · exact hw
        obtain ⟨s', hv, hw'⟩ := ih _ hstep
        exact ⟨s', .clause hn hv, hw'⟩
      | definition y =>
        cases hm : mayPropagate b (s.defTs y) with
        | false =>
          obtain ⟨s', hv, hw'⟩ := ih s hw
          exact ⟨s', .skip hn hm hv, hw'⟩
        | true =>
          obtain ⟨s₁, hd⟩ := exists_defVisit pr im hw hn y
          obtain ⟨s', hv, hw'⟩ := ih s₁ (hd.well hw hn)
          exact ⟨s', .definition hn hm hd hv, hw'⟩

theorem exists_propagateArith (W : WatchList P) (pr : Params) (im : IntervalManager) (b : Entry)
    (hw : s.node.Well P) : ∃ s', PropagateArith P W pr im b s s' := by
  cases hl : s.isLatestBound b with
  | false => exact ⟨s, .superseded hl⟩
  | true =>
    obtain ⟨s₁, hv, hw₁⟩ := exists_visits pr im b (W.of b.x) s hw
    by_cases hown : s₁.node.inconsistent = true ∨ P.defs b.x = none ∨
        mayPropagate b (s₁.defTs b.x) = false
    · exact ⟨s₁, .visits hl hv hown⟩
    · rw [not_or, not_or, Bool.not_eq_true, Bool.not_eq_false] at hown
      obtain ⟨hn, hdef, hmay⟩ := hown
      obtain ⟨s', hd⟩ := exists_defVisit pr im hw₁ hn b.x
      exact ⟨s', .own hl hv hn hdef hmay hd⟩

/-- **The loop goes on** until its queue is empty or the node is inconsistent. -/
theorem exists_round (hw : s.node.Well P) (hn : s.node.inconsistent = false) (hq : s.queue ≠ []) :
    ∃ s', Round P W pr im s s' := by
  obtain ⟨b, q, hbq⟩ := List.exists_cons_of_ne_nil hq
  cases hb : P.isBool b.x with
  | true => exact ⟨_, .bvar hn hbq hb⟩
  | false =>
    have hw' : ({ s with queue := q } : Propagation).node.Well P := hw
    obtain ⟨s', hs'⟩ := exists_propagateArith W pr im b hw'
    exact ⟨s', .arith hn hbq hb hs'⟩

/-! ## What a round does to the node -/

theorem DefVisit.propagates {x : Nat} (hv : s.DefVisit P pr im x s')
    (hn : s.node.inconsistent = false) : Propagates P pr im s.node s'.node := by
  rw [hv.2]
  exact .single (.definition x hn)

theorem propagateClause_propagates (i : Nat) (hn : s.node.inconsistent = false) :
    Propagates P pr im s.node (s.propagateClause P i).node := by
  cases hc : P.clauses[i]? with
  | none =>
    unfold propagateClause
    rw [hc]
    exact .refl
  | some c =>
    rw [propagateClause_node hc]
    exact .single (.clause hn (List.mem_of_getElem? hc))

theorem propagateBvar_propagates (ws : List Watched) (s : Propagation) :
    Propagates P pr im s.node (s.propagateBvar P ws).node := by
  induction ws generalizing s with
  | nil => exact .refl
  | cons w ws ih =>
    unfold propagateBvar
    split
    · exact .refl
    · rename_i hn
      cases w with
      | clause i => exact (propagateClause_propagates i (Bool.eq_false_iff.2 hn)).trans (ih _)
      | definition y => exact ih s

theorem Visits.propagates (hv : Visits P pr im b ws s s') :
    Propagates P pr im s.node s'.node := by
  induction hv with
  | nil => exact .refl
  | stop _ => exact .refl
  | clause hn _ ih =>
    refine .trans ?_ ih
    split
    · exact propagateClause_propagates _ hn
    · exact .refl
  | skip _ _ _ ih => exact ih
  | definition hn _ hd _ ih => exact (hd.propagates hn).trans ih

/-- **A round is a number of visits**: the order of the queue refines the
propagation that leaves the order open. -/
theorem Round.propagates (hr : Round P W pr im s s') : Propagates P pr im s.node s'.node := by
  cases hr with
  | @bvar b q _ _ _ => exact propagateBvar_propagates _ { s with queue := q }
  | arith _ _ _ hp =>
    cases hp with
    | superseded _ => exact .refl
    | visits _ hv _ => exact hv.propagates
    | own _ hv hn _ _ hd => exact hv.propagates.trans (hd.propagates hn)

/-- The loop of `propagate(n)`, stopped anywhere. -/
theorem rounds_propagate (h : Relation.ReflTransGen (Round P W pr im) s s') :
    Propagates P pr im s.node s'.node := by
  induction h with
  | refl => exact .refl
  | tail _ hr ih => exact ih.trans hr.propagates

/-! ## The root -/

theorem assertUnits_node (as : List Lit) (s : Propagation) :
    (s.assertUnits P as).node = L1.assertUnits P as s.node := by
  induction as generalizing s with
  | nil => rfl
  | cons a as ih =>
    unfold assertUnits L1.assertUnits
    simp only [propagateAtom_node]
    split
    · exact propagateAtom_node s a
    · rw [ih, propagateAtom_node]

theorem propagateAllDefinitions_stop {n : Content} (hn : n.inconsistent = true) (xs : List Nat) :
    propagateAllDefinitions P pr im xs n = n := by
  cases xs with
  | nil => rfl
  | cons x xs =>
    unfold propagateAllDefinitions
    rw [if_pos hn]

theorem PropagateAllDefinitions.node {xs : List Nat}
    (hd : PropagateAllDefinitions P pr im xs s s') :
    s'.node = propagateAllDefinitions P pr im xs s.node := by
  induction hd with
  | nil => rfl
  | stop hn => rw [propagateAllDefinitions_stop hn]
  | @skip s s' x xs hn hx _ ih =>
    have hsame : s.node.propagateDef P pr im x = s.node := by
      unfold Content.propagateDef
      rw [hx]
    rw [ih, propagateAllDefinitions, hn, hsame]
    rfl
  | visit hn _ hv _ ih =>
    rw [ih, hv.2, propagateAllDefinitions, hn]
    rfl

end Propagation

/-! ## The tree -/

namespace Paver
open Propagation

variable {p p' : Paver} {v : Nat}

/-- Where the content of each node comes from. Only the newest node is ever
propagated, so a parent stays as it was when it was split. -/
structure Refines (P : Problem) (pr : Params) (im : IntervalManager) (p : Paver) : Prop where
  fresh : p.size = 0 → p = start P
  last : ∀ v q, p.running = some (v, q) → v + 1 = p.size
  parent : ∀ v < p.size, ∀ u, (p.node v).parent = some u → u < v
  root : ∀ v < p.size, (p.node v).parent = none →
    Propagates P pr im (initRoot P pr im) (p.node v).content
  child : ∀ v < p.size, ∀ u, (p.node v).parent = some u → ∃ x mid lower isOpen,
    (p.node u).content.inconsistent = false ∧ x < P.numVars ∧ P.isBool x = false ∧
      Propagates P pr im (childOf P (p.node u).content x mid lower isOpen) (p.node v).content

theorem Refines.init (h : Refines P pr im p) (hz : p.size = 0) {s : Propagation}
    (hd : PropagateAllDefinitions P pr im (List.range P.numVars)
      ((p.view 0 []).assertUnits P P.unitClauses) s) :
    Refines P pr im ({ p with size := 1 }.store 0 s) := by
  have hstart := h.fresh hz
  subst hstart
  have hnode : s.node = initRoot P pr im := by
    rw [hd.node, assertUnits_node]
    rfl
  have hparent : ∀ w, (({ start P with size := 1 }.store 0 s).node w).parent = none := fun w =>
    (store_flags _ 0 w s).2
  refine ⟨fun hf => (by cases hf), fun w q hw => ?_, fun w _ u hu => ?_, fun w hw _ => ?_,
    fun w _ u hu => ?_⟩
  · cases hw
    rfl
  · rw [hparent] at hu
    cases hu
  · obtain rfl : w = 0 := Nat.lt_one_iff.1 hw
    rw [store_content, if_pos rfl, hnode]
    exact .refl
  · rw [hparent] at hu
    cases hu

theorem Refines.round (h : Refines P pr im p) {q : List Entry} (hv : p.running = some (v, q))
    {s : Propagation} (hr : Round P W pr im (p.view v q) s) : Refines P pr im (p.store v s) := by
  have hlast := h.last v q hv
  have hmore : Propagates P pr im (p.node v).content s.node := hr.propagates
  have hold : ∀ w, w ≠ v → ((p.store v s).node w).content = (p.node w).content := fun w hw => by
    rw [store_content, if_neg hw]
  have hnew : ((p.store v s).node v).content = s.node := by
    rw [store_content, if_pos rfl]
  refine ⟨fun hf => ?_, fun w q' hw => ?_, fun w hw u hu => ?_, fun w hw hp => ?_,
    fun w hw u hu => ?_⟩
  · have hf : p.size = 0 := hf
    omega
  · cases hw
    exact hlast
  · rw [(store_flags p v w s).2] at hu
    exact h.parent w hw u hu
  · rw [(store_flags p v w s).2] at hp
    have hroot := h.root w hw hp
    by_cases hwv : w = v
    · rw [hwv] at hroot ⊢
      rw [hnew]
      exact hroot.trans hmore
    · rwa [hold w hwv]
  · rw [(store_flags p v w s).2] at hu
    have hw : w < p.size := hw
    have hlt := h.parent w hw u hu
    rw [hold u (by omega)]
    obtain ⟨x, mid, lower, isOpen, hn, hx, hb, hc⟩ := h.child w hw u hu
    refine ⟨x, mid, lower, isOpen, hn, hx, hb, ?_⟩
    by_cases hwv : w = v
    · rw [hwv] at hc ⊢
      rw [hnew]
      exact hc.trans hmore
    · rwa [hold w hwv]

theorem stop_node (p : Paver) (v w : Nat) (q : List Entry) :
    ((p.stop v q).node w).content = (p.node w).content ∧
      ((p.stop v q).node w).parent = (p.node w).parent := by
  show (Function.update p.node v _ w).content = _ ∧ (Function.update p.node v _ w).parent = _
  rw [Function.update_apply]
  split
  · rename_i hw
    rw [hw]
    exact ⟨rfl, rfl⟩
  · exact ⟨rfl, rfl⟩

theorem Refines.stop (h : Refines P pr im p) {q : List Entry} (hv : p.running = some (v, q)) :
    Refines P pr im (p.stop v q) := by
  have hlast := h.last v q hv
  refine ⟨fun hf => ?_, fun w q' hw => (by cases hw), fun w hw u hu => ?_, fun w hw hp => ?_,
    fun w hw u hu => ?_⟩
  · have hf : p.size = 0 := hf
    omega
  · rw [(stop_node p v w q).2] at hu
    exact h.parent w hw u hu
  · rw [(stop_node p v w q).2] at hp
    rw [(stop_node p v w q).1]
    exact h.root w hw hp
  · rw [(stop_node p v w q).2] at hu
    rw [(stop_node p v w q).1, (stop_node p v u q).1]
    exact h.child w hw u hu

theorem Refines.split (h : Refines P pr im p) (hv : v < p.size)
    (hn : (p.node v).content.inconsistent = false) {x : Nat} (hx : x < P.numVars)
    (hb : P.isBool x = false) (mid : ℚ) (lower isOpen : Bool) :
    Refines P pr im (p.addChild P v x mid lower isOpen) := by
  have hold : ∀ w, w ≠ p.size → (p.addChild P v x mid lower isOpen).node w = p.node w :=
    fun w hw => Function.update_of_ne hw _ _
  let s := (p.view v []).pushed x lower (childOf P (p.node v).content x mid lower isOpen)
  have hself : (p.addChild P v x mid lower isOpen).node p.size =
      ⟨s.node, s.boundTs, some v, false⟩ := Function.update_self _ _ _
  have hnew : ((p.addChild P v x mid lower isOpen).node p.size).content =
      childOf P (p.node v).content x mid lower isOpen ∧
      ((p.addChild P v x mid lower isOpen).node p.size).parent = some v := by
    rw [hself]
    exact ⟨rfl, rfl⟩
  refine ⟨fun hf => (by cases hf), fun w q hw => ?_, fun w hw u hu => ?_, fun w hw hp => ?_,
    fun w hw u hu => ?_⟩
  · cases hw
    rfl
  all_goals
    have hw : w < p.size + 1 := hw
    by_cases hws : w = p.size
  · rw [hws, hnew.2] at hu
    cases hu
    omega
  · rw [hold w hws] at hu
    exact h.parent w (by omega) u hu
  · rw [hws, hnew.2] at hp
    cases hp
  · rw [hold w hws] at hp ⊢
    exact h.root w (by omega) hp
  · rw [hws] at hu ⊢
    rw [hnew.2] at hu
    cases hu
    rw [hold v (by omega), hnew.1]
    exact ⟨x, mid, lower, isOpen, hn, hx, hb, .refl⟩
  · rw [hold w hws] at hu ⊢
    have hlt := h.parent w (by omega) u hu
    rw [hold u (by omega)]
    exact h.child w (by omega) u hu

theorem refines_inductive : (paver P W pr im).Inductive (Refines P pr im) := by
  refine ⟨fun p hp => ?_, fun p l p' h hstep => ?_⟩
  · rw [show p = start P from hp]
    have hno : ∀ v, ¬ v < (start P).size := fun v => Nat.not_lt_zero v
    exact ⟨fun _ => rfl, fun v q hv => by (cases hv), fun v hv => absurd hv (hno v),
      fun v hv => absurd hv (hno v), fun v hv => absurd hv (hno v)⟩
  · have hstep : Step P W pr im p l p' := hstep
    cases hstep with
    | init hz hd => exact h.init hz hd
    | round hv hr => exact h.round hv hr
    | stop hv => exact h.stop hv
    | split _ hv hn hx hb => exact h.split hv hn hx hb _ _ _

end Paver

variable {p : Paver}

/-- **A run of the tree** gives the root contents that follow from its first
bounds, and every other node contents that follow from a child of its parent. -/
theorem paver_refines (hr : (paver P W pr im).Reachable p) : p.Refines P pr im :=
  Paver.refines_inductive.reachable hr

theorem paver_reached (hr : (paver P W pr im).Reachable p) (v : Nat) (hv : v < p.size) :
    Reached P pr im (p.node v).content := by
  have h := paver_refines hr
  induction v using Nat.strong_induction_on with
  | _ v ih =>
    cases hp : (p.node v).parent with
    | none => exact (h.root v hv hp).reached initRoot_reached
    | some u =>
      obtain ⟨x, mid, lower, isOpen, hn, hx, hb, hc⟩ := h.child v hv u hp
      have hlt := h.parent v hv u hp
      exact hc.reached (.child (ih u hlt (hlt.trans hv)) hn hx hb)

/-- **No run of the queue loses a model**: at every node, also while it is
propagated, the bounds admit the models that satisfy the decisions on its path. -/
theorem paver_covers (hP : SingleSort P) (hr : (paver P W pr im).Reachable p) {v : Nat}
    (hv : v < p.size) : Covers P (p.node v).content := (paver_reached hr v hv).covers hP

end AriParti.L1
