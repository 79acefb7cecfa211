import AriParti.L1Bounds.Settles

/-!
# The queue misses no clause

A clause that is not settled has an entry in the queue that will lead to a
visit: an entry for one of its variables that is the latest for that variable
and no older than the stamp of the clause (`Good`). Every new bound keeps this
true for all clauses, and a visit settles its clause.

At the root no clause is unsettled before the first bound. A child starts with
the settled clauses of its parent and one new bound in the queue.

## Results

* `Moves.keeps`: new bounds leave no clause behind.
* `Round.keeps`: nor does a round of the loop.
* `propagate_fixpoint`: where the propagation of a node and of its ancestors
  was completed, every clause is settled.
-/
namespace AriParti.L1
open AriParti.Core

variable {P : Problem} {W : WatchList P} {pr : Params} {im : IntervalManager}

namespace Propagation

variable {s s' : Propagation} {i : Nat} {c : List Lit}

/-- Stamps are not ahead of the clock. -/
structure Clocked (s : Propagation) : Prop where
  bound : ∀ x l, s.boundTs x l ≤ s.timestamp
  clause : ∀ i, s.clauseTs i ≤ s.timestamp

/-- An entry for a variable of the clause that will lead to a visit. -/
def Alerts (P : Problem) (s : Propagation) (i : Nat) (c : List Lit) (b : Entry) : Prop :=
  (∃ a ∈ c, a.x = b.x) ∧
    (P.isBool b.x = true ∨ s.isLatestBound b = true ∧ s.clauseTs i ≤ b.timestamp)

/-- The clause is settled, or will be visited. -/
def Good (P : Problem) (s : Propagation) (i : Nat) (c : List Lit) : Prop :=
  Settled P s.node c ∨ ∃ b ∈ s.queue, s.Alerts P i c b

theorem isLatestBound_iff {b : Entry} : s.isLatestBound b = true ↔
    ∀ l, (s.node.side b.x l).isSome → s.boundTs b.x l ≤ b.timestamp := by
  unfold isLatestBound Content.side
  rw [Bool.and_eq_true]
  constructor
  · rintro ⟨hl, hu⟩ l hs
    cases l
    · obtain ⟨u, he⟩ := Option.isSome_iff_exists.1 hs
      simp only [Bool.false_eq_true, if_false] at he
      simpa [he] using hu
    · obtain ⟨u, he⟩ := Option.isSome_iff_exists.1 hs
      simp only [if_true] at he
      simpa [he] using hl
  · intro h
    have hl := h true
    have hu := h false
    simp only [Bool.false_eq_true, if_false, if_true] at hl hu
    constructor
    · cases he : s.node.lower b.x <;> simp_all
    · cases he : s.node.upper b.x <;> simp_all

/-! ## One bound -/

/-- Only `x` has changed. -/
def OffVar (x : Nat) (n n' : Content) : Prop :=
  ∀ y, y ≠ x → (∀ l, n'.side y l = n.side y l) ∧ n'.bvalue y = n.bvalue y

/-- **One bound.** A clause with the variable gets an entry, the others are
as before. -/
theorem pushed_good {x : Nat} {lower : Bool} {n : Content} (hclk : s.Clocked)
    (hoff : OffVar x s.node n) (h : Good P s i c) : Good P (s.pushed x lower n) i c := by
  by_cases hx : ∃ a ∈ c, a.x = x
  · right
    refine ⟨⟨x, s.timestamp⟩, List.mem_append_right _ (List.mem_singleton_self _), hx, .inr ⟨?_, ?_⟩⟩
    · rw [isLatestBound_iff]
      intro l _
      show Function.update s.boundTs x (Function.update (s.boundTs x) lower s.timestamp) x l ≤ _
      rw [Function.update_self, Function.update_apply]
      split
      · exact Nat.le_refl _
      · exact hclk.bound x l
    · exact hclk.clause i
  · have hne : ∀ a ∈ c, a.x ≠ x := fun a ha he => hx ⟨a, ha, he⟩
    rcases h with h | ⟨b, hb, ⟨a, ha, hab⟩, hal⟩
    · exact .inl (h.congr fun a ha => value_congr (hoff a.x (hne a ha)).1 (hoff a.x (hne a ha)).2)
    · have hbx : b.x ≠ x := by
        rw [← hab]
        exact hne a ha
      refine .inr ⟨b, List.mem_append_left _ hb, ⟨a, ha, hab⟩, hal.imp_right fun hl => ⟨?_, hl.2⟩⟩
      have hlat := hl.1
      rw [isLatestBound_iff] at hlat ⊢
      intro l hs
      have hs : (n.side b.x l).isSome := hs
      rw [(hoff b.x hbx).1] at hs
      show Function.update s.boundTs x (Function.update (s.boundTs x) lower s.timestamp) b.x l ≤ _
      rw [Function.update_of_ne hbx]
      exact hlat l hs

theorem pushed_clocked {x : Nat} {lower : Bool} {n : Content} (hclk : s.Clocked) :
    (s.pushed x lower n).Clocked := by
  refine ⟨fun y l => ?_, fun i => Nat.le_succ_of_le (hclk.clause i)⟩
  show Function.update s.boundTs x (Function.update (s.boundTs x) lower s.timestamp) y l ≤
    s.timestamp + 1
  rw [Function.update_apply]
  split
  · rw [Function.update_apply]
    split
    · exact Nat.le_succ _
    · exact Nat.le_succ_of_le (hclk.bound x l)
  · exact Nat.le_succ_of_le (hclk.bound y l)

theorem mkBound_off {n : Content} {x : Nat} (ha : n.bvalue x = .arith) (k : ℚ)
    (lower isOpen : Bool) : OffVar x n (n.mkBound x k lower isOpen) := by
  intro y hy
  refine ⟨fun l => ?_, ?_⟩
  · rw [Content.mkBound_side ha, if_neg fun h => hy h.1]
  · rw [Content.mkBound_bvalue ha]

theorem propagateBvarBound_node (s : Propagation) (x : Nat) (neg : Bool) :
    (s.propagateBvarBound x neg).node = s.node.propagateBvarBound x neg := by
  unfold propagateBvarBound Content.propagateBvarBound
  split <;> rfl

theorem propagateBound_node (s : Propagation) (x : Nat) (val : ℚ) (lower isOpen : Bool) :
    (s.propagateBound P x val lower isOpen).node = s.node.propagateBound P x val lower isOpen := by
  unfold propagateBound Content.propagateBound
  simp only
  split <;> rfl

theorem mkBvarBound_off {n : Content} {x : Nat} (ha : n.bvalue x ≠ .arith) (neg : Bool) :
    OffVar x n (n.propagateBvarBound x neg) := by
  intro y hy
  refine ⟨fun l => ?_, ?_⟩
  · rw [Content.propagateBvarBound_side ha]
  · rw [Content.propagateBvarBound_bvalue ha, Function.update_of_ne hy]

/-- What every state of a propagation meets; `T` is the time it began. -/
structure Sound (P : Problem) (T : Nat) (s : Propagation) : Prop where
  well : s.node.Well P
  clocked : s.Clocked
  late : T ≤ s.timestamp

/-- From `s` to `s'` no clause is left behind, and none is stamped. -/
structure Keeps (P : Problem) (T : Nat) (s s' : Propagation) : Prop where
  sound : Sound P T s'
  good : ∀ i c, Good P s i c → Good P s' i c
  clauseTs : s'.clauseTs = s.clauseTs

variable {T : Nat}

theorem Keeps.refl (h : Sound P T s) : Keeps P T s s := ⟨h, fun _ _ h => h, rfl⟩

theorem Keeps.trans {s₁ s₂ s₃ : Propagation} (h : Keeps P T s₁ s₂) (h' : Keeps P T s₂ s₃) :
    Keeps P T s₁ s₃ :=
  ⟨h'.sound, fun i c hg => h'.good i c (h.good i c hg), h'.clauseTs.trans h.clauseTs⟩

theorem keeps_pushed {x : Nat} {lower : Bool} {n : Content} (h : Sound P T s) (hn : n.Well P)
    (hoff : OffVar x s.node n) : Keeps P T s (s.pushed x lower n) :=
  ⟨⟨hn, pushed_clocked h.clocked, Nat.le_succ_of_le h.late⟩,
    fun _ _ => pushed_good h.clocked hoff, rfl⟩

theorem keeps_propagateBound {x : Nat} {val : ℚ} {lower isOpen : Bool} (h : Sound P T s)
    (hn : s.node.inconsistent = false) (hx : x < P.numVars) (hb : P.isBool x = false) :
    Keeps P T s (s.propagateBound P x val lower isOpen) := by
  unfold propagateBound
  simp only
  split
  · exact keeps_pushed h (h.well.mkBound _ _ _ hn hx hb)
      (mkBound_off ((h.well.arith x).2 hb) _ _ _)
  · exact .refl h

theorem keeps_propagateBvarBound {x : Nat} {neg : Bool} (h : Sound P T s)
    (hn : s.node.inconsistent = false) (hx : x < P.numVars) (hb : P.isBool x = true) :
    Keeps P T s (s.propagateBvarBound x neg) := by
  have ha : s.node.bvalue x ≠ .arith := mt (h.well.arith x).1 (by rw [hb]; decide)
  unfold propagateBvarBound
  split
  · rename_i hi
    have he : s.node.propagateBvarBound x neg = s.node.mkBvarBound x neg := by
      unfold Content.propagateBvarBound
      rw [if_pos hi]
    rw [← he]
    exact keeps_pushed h (h.well.propagateBvarBound neg hn hx hb) (mkBvarBound_off ha neg)
  · exact .refl h

/-- **New bounds** leave no clause behind. -/
theorem Moves.keeps (hm : Moves P s s') (h : Sound P T s) : Keeps P T s s' := by
  induction hm with
  | refl => exact .refl h
  | bound x k lower isOpen _ hn hx hb ih =>
    exact ih.trans (keeps_propagateBound ih.sound hn hx hb)
  | bvar x neg _ hn hx hb ih => exact ih.trans (keeps_propagateBvarBound ih.sound hn hx hb)

/-! ## A visit -/

theorem setVisitedDef_keeps (h : Sound P T s) (x : Nat) : Keeps P T s (s.setVisitedDef x) :=
  ⟨⟨h.well, ⟨h.clocked.bound, h.clocked.clause⟩, h.late⟩, fun _ _ hg => hg, rfl⟩

theorem DefVisit.keeps {x : Nat} (hv : s.DefVisit P pr im x s') (h : Sound P T s) :
    Keeps P T s s' :=
  (setVisitedDef_keeps h x).trans (hv.1.keeps (setVisitedDef_keeps h x).sound)

theorem propagateAtom_node (s : Propagation) (a : Lit) :
    (s.propagateAtom P a).1.node = s.node.propagateAtom P a := by
  cases a with
  | bool x neg => exact propagateBvarBound_node s x neg
  | ineq x k lower isOpen => exact propagateBound_node s x k lower isOpen
  | eq x k neg =>
    cases neg with
    | true => rfl
    | false =>
      have hlow := propagateBound_node (P := P) s x k true false
      unfold propagateAtom Content.propagateAtom
      simp only [Bool.false_eq_true, if_false]
      rw [← hlow]
      split
      · rfl
      · exact propagateBound_node _ x k false false

theorem propagateAtom_keeps {a : Lit} (h : Sound P T s) (hn : s.node.inconsistent = false)
    (hs : a.Sorted P) : Keeps P T s (s.propagateAtom P a).1 := by
  cases a with
  | bool x neg => exact keeps_propagateBvarBound h hn hs.1 hs.2
  | ineq x k lower isOpen => exact keeps_propagateBound h hn hs.1 hs.2
  | eq x k neg =>
    cases neg with
    | true => exact .refl h
    | false =>
      have hlow : Keeps P T s (s.propagateBound P x k true false) :=
        keeps_propagateBound h hn hs.1 hs.2
      unfold propagateAtom
      simp only [Bool.false_eq_true, if_false]
      split
      · exact hlow
      · rename_i hc
        exact hlow.trans (keeps_propagateBound hlow.sound (Bool.eq_false_iff.2 hc) hs.1 hs.2)

/-- From `s` to `s'` the clause `i` is visited and no other is left behind. -/
structure Visited (P : Problem) (T i : Nat) (s s' : Propagation) : Prop where
  sound : Sound P T s'
  good : ∀ j c, j ≠ i → Good P s j c → Good P s' j c
  clauseTs : ∀ j, j ≠ i → s'.clauseTs j = s.clauseTs j

theorem Keeps.visited (h : Keeps P T s s') : Visited P T i s s' :=
  ⟨h.sound, fun j c _ hg => h.good j c hg, fun _ _ => by rw [h.clauseTs]⟩

theorem Visited.trans {s₁ s₂ s₃ : Propagation} (h : Visited P T i s₁ s₂)
    (h' : Visited P T i s₂ s₃) : Visited P T i s₁ s₃ :=
  ⟨h'.sound, fun j c hj hg => h'.good j c hj (h.good j c hj hg),
    fun j hj => (h'.clauseTs j hj).trans (h.clauseTs j hj)⟩

theorem setVisited_visited (h : Sound P T s) : Visited P T i s (s.setVisited i) := by
  have hts : ∀ j, j ≠ i → (s.setVisited i).clauseTs j = s.clauseTs j :=
    fun j hj => Function.update_of_ne hj _ _
  refine ⟨⟨h.well, ⟨h.clocked.bound, fun j => ?_⟩, h.late⟩, fun j c hj hg => ?_, hts⟩
  · show Function.update s.clauseTs i s.timestamp j ≤ s.timestamp
    rw [Function.update_apply]
    split
    · exact Nat.le_refl _
    · exact h.clocked.clause j
  · refine hg.imp_right fun ⟨b, hb, hx, hal⟩ => ⟨b, hb, hx, hal.imp_right fun hl => ⟨hl.1, ?_⟩⟩
    rw [hts j hj]
    exact hl.2

/-- The atom goes into `up_atoms`, which nothing here reads. -/
theorem addUpAtom_keeps (h : Sound P T s) (a : Lit) :
    Keeps P T s { s with node.upAtoms := s.node.upAtoms ++ [a] } :=
  ⟨⟨addUpAtom_well h.well, ⟨h.clocked.bound, h.clocked.clause⟩, h.late⟩,
    fun _ _ hg => hg.imp_left fun hs => hs.congr fun _ _ => value_congr (fun _ => rfl) rfl, rfl⟩

theorem propagateLast_visited {a : Lit} (h : Sound P T s) (hn : s.node.inconsistent = false)
    (hs : a.Sorted P) : Visited P T i s (s.propagateLast P i a) := by
  have hk := propagateAtom_keeps h hn hs
  unfold propagateLast
  simp only
  split
  · exact hk.visited
  · exact hk.visited.trans (setVisited_visited hk.sound)

theorem propagateLast_node (s : Propagation) (i : Nat) (a : Lit) :
    (s.propagateLast P i a).node = s.node.propagateAtom P a := by
  rw [← propagateAtom_node]
  unfold propagateLast
  simp only
  split <;> rfl

theorem propagateClause_node (hc : P.clauses[i]? = some c) (s : Propagation) :
    (s.propagateClause P i).node = s.node.propagateClause P c := by
  have hvis : (s.setVisited i).node = s.node := rfl
  unfold propagateClause Content.propagateClause
  simp only [hc, hvis]
  rcases s.node.openAtoms P c with _ | _ | ⟨a, _ | ⟨b, bs⟩⟩
  · exact hvis
  · cases c with
    | nil => exact hvis
    | cons a as => exact propagateLast_node _ _ _
  · exact propagateLast_node _ _ _
  · exact hvis

theorem propagateClause_visited (hc : P.clauses[i]? = some c) (h : Sound P T s)
    (hn : s.node.inconsistent = false) : Visited P T i s (s.propagateClause P i) := by
  have hmem := List.mem_of_getElem? hc
  have hsort : ∀ a ∈ c, a.Sorted P := fun a ha => P.sorted a (.inr ⟨c, hmem, ha⟩)
  have hv := setVisited_visited (i := i) h
  have hvis : (s.setVisited i).node = s.node := rfl
  unfold propagateClause
  simp only [hc, hvis]
  split
  · exact hv
  · cases c with
    | nil => exact hv
    | cons a as =>
      exact hv.trans (propagateLast_visited hv.sound hn (hsort a List.mem_cons_self))
  · rename_i a hopen
    have ha : a ∈ c := by
      have hm := (openAtoms_some hopen).1 ▸ List.mem_singleton_self a
      exact (List.mem_filter.1 hm).1
    have hup := addUpAtom_keeps hv.sound a
    exact hv.trans (hup.visited.trans (propagateLast_visited hup.sound hn (hsort a ha)))
  · exact hv

/-- **A visit** settles its clause, unless it finds a conflict. -/
theorem propagateClause_good (hc : P.clauses[i]? = some c) (hb : ∀ a ∈ c, a.Built P)
    (h : Sound P T s) (hn : s.node.inconsistent = false) :
    (s.propagateClause P i).node.inconsistent = true ∨ Good P (s.propagateClause P i) i c := by
  have hmem := List.mem_of_getElem? hc
  have hne : c ≠ [] := by
    rintro rfl
    exact absurd (P.clauses_two [] hmem) (by decide)
  unfold Good
  rw [propagateClause_node hc]
  exact (propagateClause_settles h.well hn hne (fun a ha => P.sorted a (.inr ⟨c, hmem, ha⟩))
    hb).imp_right .inl

/-! ## The loops -/

/-- In the loop over the watch list of `b`, with `ws` still to come: a clause
is good, or comes and will be visited. Under `A` the clauses were so when the
propagation began. -/
structure Loop (P : Problem) (T : Nat) (A : Prop) (b : Entry) (ws : List Watched)
    (s : Propagation) : Prop where
  sound : Sound P T s
  good : A → s.node.inconsistent = true ∨ ∀ i c, P.clauses[i]? = some c →
    Good P s i c ∨ .clause i ∈ ws ∧ (P.isBool b.x = true ∨ s.clauseTs i ≤ b.timestamp)

/-- Between two rounds: no clause is left behind. -/
structure Caught (P : Problem) (T : Nat) (A : Prop) (s : Propagation) : Prop where
  sound : Sound P T s
  good : A → s.node.inconsistent = true ∨ ∀ i c, P.clauses[i]? = some c → Good P s i c

variable {A : Prop} {b : Entry} {ws : List Watched}

theorem Loop.caught (h : Loop P T A b [] s) : Caught P T A s :=
  ⟨h.sound, fun hA => (h.good hA).imp_right fun hg i c hc =>
    (hg i c hc).resolve_right fun hm => nomatch hm.1⟩

theorem Loop.stop (h : Loop P T A b ws s) (hn : s.node.inconsistent = true) : Caught P T A s :=
  ⟨h.sound, fun _ => .inl hn⟩

/-- What a consistent node says about its clauses. -/
theorem Loop.consistent (h : Loop P T A b ws s) (hA : A) (hn : s.node.inconsistent = false) :
    ∀ i c, P.clauses[i]? = some c →
      Good P s i c ∨ .clause i ∈ ws ∧ (P.isBool b.x = true ∨ s.clauseTs i ≤ b.timestamp) :=
  (h.good hA).resolve_left (by rw [hn]; decide)

theorem Caught.consistent (h : Caught P T A s) (hA : A) (hn : s.node.inconsistent = false) :
    ∀ i c, P.clauses[i]? = some c → Good P s i c :=
  (h.good hA).resolve_left (by rw [hn]; decide)

/-- Any earlier time may count as the beginning. -/
theorem Caught.since {U : Nat} (h : Caught P T A s) (hU : U ≤ s.timestamp) : Caught P U A s :=
  ⟨⟨h.sound.well, h.sound.clocked, hU⟩, h.good⟩

/-- New bounds in the loop. -/
theorem Loop.keeps (h : Loop P T A b ws s) (hk : Keeps P T s s')
    (hn : s.node.inconsistent = false) : Loop P T A b ws s' := by
  refine ⟨hk.sound, fun hA => .inr fun i c hc => ?_⟩
  rw [hk.clauseTs]
  exact (h.consistent hA hn i c hc).imp_left (hk.good i c)

theorem Caught.keeps (h : Caught P T A s) (hk : Keeps P T s s')
    (hn : s.node.inconsistent = false) : Caught P T A s' :=
  ⟨hk.sound, fun hA => .inr fun i c hc => hk.good i c (h.consistent hA hn i c hc)⟩

theorem Loop.clause (hP : ∀ c ∈ P.clauses, ∀ a ∈ c, a.Built P)
    (h : Loop P T A b (.clause i :: ws) s) (hn : s.node.inconsistent = false) :
    Loop P T A b ws (s.propagateClause P i) := by
  cases hc : P.clauses[i]? with
  | none =>
    have hsame : s.propagateClause P i = s := by
      unfold propagateClause
      rw [hc]
    rw [hsame]
    refine ⟨h.sound, fun hA => .inr fun j c hj =>
      (h.consistent hA hn j c hj).imp_right fun hm => ⟨?_, hm.2⟩⟩
    rcases List.mem_cons.1 hm.1 with he | hm
    · cases he
      rw [hc] at hj
      cases hj
    · exact hm
  | some c =>
    have hv := propagateClause_visited hc h.sound hn
    refine ⟨hv.sound, fun hA => ?_⟩
    rcases propagateClause_good hc (hP c (List.mem_of_getElem? hc)) h.sound hn with hi | hself
    · exact .inl hi
    · refine .inr fun j c' hj => ?_
      by_cases hji : j = i
      · rw [hji] at hj ⊢
        cases hc.symm.trans hj
        exact .inl hself
      · rw [hv.clauseTs j hji]
        refine (h.consistent hA hn j c' hj).imp (hv.good j c' hji) fun hm => ⟨?_, hm.2⟩
        rcases List.mem_cons.1 hm.1 with he | hm
        · cases he
          exact absurd rfl hji
        · exact hm

/-- A clause that is skipped is good. -/
theorem Loop.skipClause (h : Loop P T A b (.clause i :: ws) s) (hb : P.isBool b.x = false)
    (hmay : mayPropagate b (s.clauseTs i) = false) : Loop P T A b ws s := by
  refine ⟨h.sound, fun hA => (h.good hA).imp_right fun hg j c hj =>
    (hg j c hj).imp_right fun hm => ⟨?_, hm.2⟩⟩
  rcases List.mem_cons.1 hm.1 with he | hm'
  · cases he
    rw [hb] at hm
    unfold mayPropagate at hmay
    exact absurd (hm.2.resolve_left (by decide)) (of_decide_eq_false hmay)
  · exact hm'

theorem Loop.skipDefinition {y : Nat} (h : Loop P T A b (.definition y :: ws) s) :
    Loop P T A b ws s := by
  refine ⟨h.sound, fun hA => (h.good hA).imp_right fun hg j c hj =>
    (hg j c hj).imp_right fun hm => ⟨?_, hm.2⟩⟩
  rcases List.mem_cons.1 hm.1 with he | hm
  · cases he
  · exact hm

theorem propagateBvar_caught (hP : ∀ c ∈ P.clauses, ∀ a ∈ c, a.Built P)
    (h : Loop P T A b ws s) : Caught P T A (s.propagateBvar P ws) := by
  induction ws generalizing s with
  | nil => exact h.caught
  | cons w ws ih =>
    unfold propagateBvar
    split
    · rename_i hn
      exact h.stop hn
    · rename_i hn
      cases w with
      | clause i => exact ih (h.clause hP (Bool.eq_false_iff.2 hn))
      | definition y => exact ih h.skipDefinition

theorem Visits.caught (hP : ∀ c ∈ P.clauses, ∀ a ∈ c, a.Built P) (hb : P.isBool b.x = false)
    (hv : Visits P pr im b ws s s') (h : Loop P T A b ws s) : Caught P T A s' := by
  induction hv with
  | nil => exact h.caught
  | stop hn => exact h.stop hn
  | clause hn _ ih =>
    refine ih ?_
    split
    · exact h.clause hP hn
    · rename_i hmay
      exact h.skipClause hb (Bool.eq_false_iff.2 hmay)
  | skip _ _ _ ih => exact ih h.skipDefinition
  | definition hn _ hd _ ih => exact ih (h.skipDefinition.keeps (hd.keeps h.sound) hn)

/-- An entry that leaves the queue is passed on to the watch list of its
variable, unless it is superseded. -/
theorem Caught.pop {q : List Entry} (h : Caught P T A s) (hn : s.node.inconsistent = false)
    (hq : s.queue = b :: q) : Loop P T A b (W.of b.x) { s with queue := q } ∧
      (P.isBool b.x = false → s.isLatestBound b = false → Caught P T A { s with queue := q }) := by
  have hsound : Sound P T { s with queue := q } :=
    ⟨h.sound.well, ⟨h.sound.clocked.bound, h.sound.clocked.clause⟩, h.sound.late⟩
  have hsplit : A → ∀ i c, P.clauses[i]? = some c →
      Good P { s with queue := q } i c ∨ s.Alerts P i c b := by
    intro hA i c hc
    rcases h.consistent hA hn i c hc with hs | ⟨b', hb', hal⟩
    · exact .inl (.inl hs)
    · rw [hq] at hb'
      rcases List.mem_cons.1 hb' with rfl | hb'
      · exact .inr hal
      · exact .inl (.inr ⟨b', hb', hal⟩)
  refine ⟨⟨hsound, fun hA => .inr fun i c hc => (hsplit hA i c hc).imp_right fun hal => ⟨?_, ?_⟩⟩,
    fun hb hlat => ⟨hsound, fun hA => .inr fun i c hc =>
      (hsplit hA i c hc).resolve_right fun hal => ?_⟩⟩
  · exact (W.clause_mem b.x i).2 ⟨c, hc, hal.1⟩
  · exact hal.2.imp_right And.right
  · rcases hal.2 with hf | ⟨hl, -⟩
    · rw [hb] at hf
      cases hf
    · rw [hlat] at hl
      cases hl

/-- **One round.** -/
theorem Round.keeps (hP : ∀ c ∈ P.clauses, ∀ a ∈ c, a.Built P) (hr : Round P W pr im s s')
    (h : Caught P T A s) : Caught P T A s' := by
  cases hr with
  | bvar hn hq hb => exact propagateBvar_caught hP (h.pop hn hq).1
  | arith hn hq hb hp =>
    obtain ⟨hl, hsup⟩ := h.pop (W := W) hn hq
    cases hp with
    | superseded hlat => exact hsup hb hlat
    | visits _ hv _ => exact hv.caught hP hb hl
    | own _ hv hn' _ _ hd =>
      have hc := hv.caught hP hb hl
      exact hc.keeps (hd.keeps hc.sound) hn'

/-! ## The root -/

theorem assertUnits_caught {as : List Lit} (hs : ∀ a ∈ as, a.Sorted P) (h : Caught P T A s)
    (hn : s.node.inconsistent = false) : Caught P T A (s.assertUnits P as) := by
  induction as generalizing s with
  | nil => exact h
  | cons a as ih =>
    have hstep := h.keeps (propagateAtom_keeps h.sound hn (hs a List.mem_cons_self)) hn
    unfold assertUnits
    simp only
    split
    · exact hstep
    · rename_i hc
      exact ih (fun b hb => hs b (List.mem_cons_of_mem a hb)) hstep (Bool.eq_false_iff.2 hc)

theorem PropagateAllDefinitions.caught {xs : List Nat}
    (hd : PropagateAllDefinitions P pr im xs s s') (h : Caught P T A s) : Caught P T A s' := by
  induction hd with
  | nil => exact h
  | stop _ => exact h
  | skip _ _ _ ih => exact ih h
  | visit hn _ hv _ ih => exact ih (h.keeps (hv.keeps h.sound) hn)

theorem value_blank {a : Lit} (hs : a.Sorted P) (hb : a.Built P) :
    value P (blank P) a = .undef := by
  cases a with
  | bool x neg =>
    have hx : P.isBool x = true := hs.2
    rw [value_bool, if_pos]
    show (if P.isBool x then BValue.undef else .arith) = .undef
    rw [if_pos hx]
  | ineq x k lower isOpen => cases lower <;> rfl
  | eq x k neg =>
    obtain ⟨rfl, hint, -⟩ := hb
    have hfrac : (P.isInt x && !k.isInt) = false := by
      cases hx : P.isInt x
      · rfl
      · simp [hint hx]
    rw [value_eq, hfrac]
    rfl

/-- Without bounds every clause has two open atoms. -/
theorem settled_blank {c : List Lit} (hc : c ∈ P.clauses) (hb : ∀ a ∈ c, a.Built P) :
    Settled P (blank P) c := by
  have hall : c.countP (fun a => value P (blank P) a = .undef) = c.length := by
    rw [List.countP_eq_length]
    exact fun a ha => decide_eq_true (value_blank (P.sorted a (.inr ⟨c, hc, ha⟩)) (hb a ha))
  exact .inr (hall ▸ P.clauses_two c hc)

end Propagation

/-! ## The tree -/

namespace Paver
open Propagation

variable {p p' : Paver} {v w : Nat}

/-- What holds of the tree: a node is well formed, and its clauses are settled
once it is completed with its ancestors. While a node is propagated, which is
the last one, its queue misses no clause if its ancestors are completed. -/
structure Inv (P : Problem) (p : Paver) : Prop where
  fresh : p.size = 0 → p = start P
  well : ∀ v < p.size, (p.node v).content.Well P
  boundTs : ∀ v < p.size, ∀ x l, (p.node v).boundTs x l ≤ p.timestamp
  clauseTs : ∀ i, p.clauseTs i ≤ p.timestamp
  parent : ∀ v < p.size, ∀ u, (p.node v).parent = some u → u < v
  last : ∀ v q, p.running = some (v, q) → v + 1 = p.size ∧ (p.node v).complete = false
  settled : ∀ v < p.size, Completed p v → ∀ c ∈ P.clauses, Settled P (p.node v).content c
  caught : ∀ v q, p.running = some (v, q) →
    Caught P 0 (∀ u, (p.node v).parent = some u → Completed p u) (p.view v q)

theorem Completed.complete (h : Completed p v) : (p.node v).complete = true := by
  cases h with
  | root hc _ => exact hc
  | child hc _ _ => exact hc

theorem Completed.parent (h : Completed p v) {u : Nat} (hu : (p.node v).parent = some u) :
    Completed p u := by
  cases h with
  | root _ hp =>
    rw [hp] at hu
    cases hu
  | child _ hp h =>
    rw [hp] at hu
    cases hu
    exact h

/-- Nodes whose flags and parents are the same up to `v` are completed
together. -/
theorem Completed.congr (h : Completed p v) (hparent : ∀ w ≤ v, ∀ u, (p.node w).parent = some u → u < w)
    (hsame : ∀ w ≤ v, (p'.node w).complete = (p.node w).complete ∧
      (p'.node w).parent = (p.node w).parent) : Completed p' v := by
  induction h with
  | @root v hc hp =>
    obtain ⟨h₁, h₂⟩ := hsame v (Nat.le_refl v)
    exact .root (h₁ ▸ hc) (h₂ ▸ hp)
  | @child u v hc hp _ ih =>
    obtain ⟨h₁, h₂⟩ := hsame v (Nat.le_refl v)
    have hlt := hparent v (Nat.le_refl v) u hp
    exact .child (h₁ ▸ hc) (h₂ ▸ hp) (ih (fun w hw => hparent w (by omega))
      fun w hw => hsame w (by omega))

/-- A propagation changes no flag and no parent. -/
theorem store_flags (p : Paver) (v w : Nat) (s : Propagation) :
    ((p.store v s).node w).complete = (p.node w).complete ∧
      ((p.store v s).node w).parent = (p.node w).parent := by
  unfold store
  simp only [Function.update_apply]
  split
  · rename_i hw
    rw [hw]
    exact ⟨rfl, rfl⟩
  · exact ⟨rfl, rfl⟩

theorem store_completed {s : Propagation} : Completed (p.store v s) w ↔ Completed p w := by
  constructor
  · intro h
    induction h with
    | root hc hp => exact .root ((store_flags p v _ s).1 ▸ hc) ((store_flags p v _ s).2 ▸ hp)
    | child hc hp _ ih =>
      exact .child ((store_flags p v _ s).1 ▸ hc) ((store_flags p v _ s).2 ▸ hp) ih
  · intro h
    induction h with
    | root hc hp =>
      exact .root ((store_flags p v _ s).1.trans hc) ((store_flags p v _ s).2.trans hp)
    | child hc hp _ ih =>
      exact .child ((store_flags p v _ s).1.trans hc) ((store_flags p v _ s).2.trans hp) ih

theorem store_content {s : Propagation} : ((p.store v s).node w).content =
    if w = v then s.node else (p.node w).content := by
  unfold store
  simp only [Function.update_apply]
  split <;> rfl

theorem store_boundTs {s : Propagation} : ((p.store v s).node w).boundTs =
    if w = v then s.boundTs else (p.node w).boundTs := by
  unfold store
  simp only [Function.update_apply]
  split <;> rfl

theorem store_view {s : Propagation} : (p.store v s).view v s.queue = s := by
  unfold view
  rw [store_content, store_boundTs, if_pos rfl, if_pos rfl]
  rfl

/-- **The propagated node changes.** -/
theorem Inv.store (h : Inv P p) {q : List Entry} (hv : p.running = some (v, q)) {s : Propagation}
    (hs : Caught P p.timestamp (∀ u, (p.node v).parent = some u → Completed p u) s) :
    Inv P (p.store v s) := by
  obtain ⟨hlast, hinc⟩ := h.last v q hv
  have hlate := hs.sound.late
  refine ⟨fun hz => ?_, fun w hw => ?_, fun w hw x l => ?_, hs.sound.clocked.clause,
    fun w hw u hu => ?_, fun w q' hw => ?_, fun w hw hc c hcl => ?_, fun w q' hw => ?_⟩
  · have hz : p.size = 0 := hz
    omega
  · rw [store_content]
    split
    · exact hs.sound.well
    · exact h.well w hw
  · show _ ≤ s.timestamp
    rw [store_boundTs]
    split
    · exact hs.sound.clocked.bound x l
    · exact Nat.le_trans (h.boundTs w hw x l) hlate
  · rw [(store_flags p v w s).2] at hu
    exact h.parent w hw u hu
  · cases hw
    rw [(store_flags p v v s).1]
    exact ⟨hlast, hinc⟩
  · rw [store_completed] at hc
    have hwv : w ≠ v := by
      rintro rfl
      rw [hc.complete] at hinc
      cases hinc
    rw [store_content, if_neg hwv]
    exact h.settled w hw hc c hcl
  · cases hw
    rw [store_view, (store_flags p v v s).2]
    simp only [store_completed]
    exact hs.since (Nat.zero_le _)

/-- The root is made. -/
theorem Inv.init {s : Propagation} (hP : ∀ c ∈ P.clauses, ∀ a ∈ c, a.Built P)
    (hd : PropagateAllDefinitions P pr im (List.range P.numVars)
      (((start P).view 0 []).assertUnits P P.unitClauses) s) :
    Inv P ({ start P with size := 1 }.store 0 s) := by
  have hbase : Caught P 0 True ((start P).view 0 []) := by
    refine ⟨⟨blank_well, ⟨fun _ _ => Nat.le_refl 0, fun _ => Nat.le_refl 0⟩, Nat.le_refl 0⟩,
      fun _ => .inr fun i c hc => .inl ?_⟩
    exact settled_blank (List.mem_of_getElem? hc) (hP c (List.mem_of_getElem? hc))
  have hs : Caught P 0 True s :=
    hd.caught (assertUnits_caught (fun a ha => P.sorted a (.inl ha)) hbase rfl)
  have hno : ∀ w, ¬ Completed ({ start P with size := 1 }.store 0 s) w := fun w hc => by
    have := hc.complete
    rw [(store_flags _ 0 w s).1] at this
    cases this
  have hzero : ∀ w < 1, w = 0 := fun w hw => Nat.lt_one_iff.1 hw
  refine ⟨fun hz => absurd hz Nat.one_ne_zero, fun w hw => ?_, fun w hw x l => ?_,
    hs.sound.clocked.clause, fun w hw u hu => ?_, fun w q' hw => ?_,
    fun w _ hc => absurd hc (hno w), fun w q' hw => ?_⟩
  · rw [store_content, if_pos (hzero w hw)]
    exact hs.sound.well
  · rw [store_boundTs, if_pos (hzero w hw)]
    exact hs.sound.clocked.bound x l
  · rw [(store_flags _ 0 w s).2] at hu
    cases hu
  · cases hw
    rw [(store_flags _ 0 0 s).1]
    exact ⟨rfl, rfl⟩
  · cases hw
    rw [store_view]
    exact ⟨hs.sound, fun _ => hs.good trivial⟩

/-- **The propagation of a node ends.** If it has worked off its queue without
a conflict, nothing is left to visit. -/
theorem Inv.stop (h : Inv P p) {q : List Entry} (hv : p.running = some (v, q)) :
    Inv P (p.stop v q) := by
  obtain ⟨hlast, hinc⟩ := h.last v q hv
  have hkeep : ∀ w, ((p.stop v q).node w).content = (p.node w).content ∧
      ((p.stop v q).node w).parent = (p.node w).parent ∧
      ((p.stop v q).node w).boundTs = (p.node w).boundTs := by
    intro w
    unfold Paver.stop
    simp only [Function.update_apply]
    split
    · rename_i hw
      rw [hw]
      exact ⟨rfl, rfl, rfl⟩
    · exact ⟨rfl, rfl, rfl⟩
  have hcontent := fun w => (hkeep w).1
  have hparent := fun w => (hkeep w).2.1
  have hstamp := fun w => (hkeep w).2.2
  have hother : ∀ w, w ≠ v → (p.stop v q).node w = p.node w :=
    fun w hw => Function.update_of_ne hw _ _
  -- the node is the last one, so no other has it above
  have hbelow : ∀ w < p.size, w ≠ v → Completed (p.stop v q) w → Completed p w := by
    intro w hw hwv hc
    refine hc.congr (fun u hu y hy => ?_) fun u hu => ?_
    · rw [hparent] at hy
      exact h.parent u (by omega) y hy
    · rw [hother u (by omega)]
      exact ⟨rfl, rfl⟩
  refine ⟨fun hz => ?_, fun w hw => ?_, fun w hw x l => ?_, h.clauseTs, fun w hw u hu => ?_,
    fun w q' hw => ?_, fun w hw hc c hcl => ?_, fun w q' hw => ?_⟩
  · have hz : p.size = 0 := hz
    omega
  · rw [hcontent]
    exact h.well w hw
  · rw [hstamp]
    exact h.boundTs w hw x l
  · rw [hparent] at hu
    exact h.parent w hw u hu
  · cases hw
  · rw [hcontent]
    by_cases hwv : w = v
    · rw [hwv] at hc ⊢
      have hflag : (q.isEmpty && !(p.node v).content.inconsistent) = true := by
        have := hc.complete
        unfold Paver.stop at this
        simpa only [Function.update_self] using this
      rw [Bool.and_eq_true, List.isEmpty_iff, Bool.not_eq_true'] at hflag
      have hup : ∀ u, (p.node v).parent = some u → Completed p u := by
        intro u hu
        have hlt := h.parent v (by omega) u hu
        exact hbelow u (by omega) (by omega) (hc.parent (by rw [hparent]; exact hu))
      obtain ⟨i, hi⟩ := List.getElem?_of_mem hcl
      rcases (h.caught v q hv).consistent hup hflag.2 i c hi with hs | ⟨b, hb, -⟩
      · exact hs
      · have hb : b ∈ q := hb
        rw [hflag.1] at hb
        cases hb
    · exact h.settled w hw (hbelow w hw hwv hc) c hcl
  · cases hw

/-- **A split.** The child starts from the settled clauses of its parent, with
one new bound in the queue. -/
theorem Inv.addChild (h : Inv P p) {x : Nat} {mid : ℚ}
    {lower isOpen : Bool} (hv : v < p.size) (hn : (p.node v).content.inconsistent = false)
    (hx : x < P.numVars) (hb : P.isBool x = false) :
    Inv P (p.addChild P v x mid lower isOpen) := by
  have hparent : Sound P p.timestamp (p.view v []) :=
    ⟨h.well v hv, ⟨h.boundTs v hv, h.clauseTs⟩, Nat.le_refl _⟩
  have ha := ((h.well v hv).arith x).2 hb
  have hwell : (childOf P (p.node v).content x mid lower isOpen).Well P := by
    have hw := (h.well v hv).mkBound (normalizeBound P x mid lower isOpen).1 lower
      (normalizeBound P x mid lower isOpen).2 hn hx hb
    exact ⟨hw.arith, hw.scope, hw.bools, hw.flagged⟩
  have hoff : OffVar x (p.view v []).node (childOf P (p.node v).content x mid lower isOpen) :=
    mkBound_off ha _ _ _
  have hk : Keeps P p.timestamp (p.view v []) ((p.view v []).pushed x lower
      (childOf P (p.node v).content x mid lower isOpen)) := keeps_pushed hparent hwell hoff
  generalize hs : (p.view v []).pushed x lower
    (childOf P (p.node v).content x mid lower isOpen) = s at hk
  have hnode : (p.addChild P v x mid lower isOpen).node =
      Function.update p.node p.size ⟨s.node, s.boundTs, some v, false⟩ := by
    rw [← hs]
    rfl
  have hts : (p.addChild P v x mid lower isOpen).timestamp = s.timestamp := by
    rw [← hs]
    rfl
  have hclause : (p.addChild P v x mid lower isOpen).clauseTs = s.clauseTs := by
    rw [← hs]
    rfl
  have hrun : (p.addChild P v x mid lower isOpen).running = some (p.size, s.queue) := by
    rw [← hs]
    rfl
  have hsize : (p.addChild P v x mid lower isOpen).size = p.size + 1 := rfl
  have hview : (p.addChild P v x mid lower isOpen).view p.size s.queue = s := by
    unfold view
    rw [hnode, Function.update_self, ← hs]
    rfl
  generalize p.addChild P v x mid lower isOpen = p' at *
  have hnew : p'.node p.size = ⟨s.node, s.boundTs, some v, false⟩ := by
    rw [hnode, Function.update_self]
  have hold : ∀ w, w ≠ p.size → p'.node w = p.node w := fun w hw => by
    rw [hnode, Function.update_of_ne hw]
  have hcomp : ∀ w < p.size, Completed p' w → Completed p w := by
    intro w hw hc
    refine hc.congr (fun u hu y hy => ?_) fun u hu => ?_
    · rw [hold u (by omega)] at hy
      exact h.parent u (by omega) y hy
    · rw [hold u (by omega)]
      exact ⟨rfl, rfl⟩
  refine ⟨fun hz => by omega, fun w hw => ?_, fun w hw y l => ?_, fun i => ?_,
    fun w hw u hu => ?_, fun w q' hw => ?_, fun w hw hc c hcl => ?_, fun w q' hw => ?_⟩
  · by_cases hws : w = p.size
    · rw [hws, hnew]
      exact hk.sound.well
    · rw [hold w hws]
      exact h.well w (by omega)
  · rw [hts]
    by_cases hws : w = p.size
    · rw [hws, hnew]
      exact hk.sound.clocked.bound y l
    · rw [hold w hws]
      exact Nat.le_trans (h.boundTs w (by omega) y l) hk.sound.late
  · rw [hclause, hts]
    exact hk.sound.clocked.clause i
  · by_cases hws : w = p.size
    · rw [hws, hnew] at hu
      cases hu
      omega
    · rw [hold w hws] at hu
      exact h.parent w (by omega) u hu
  · rw [hrun] at hw
    cases hw
    rw [hnew]
    exact ⟨hsize.symm, rfl⟩
  · by_cases hws : w = p.size
    · have := hc.complete
      rw [hws, hnew] at this
      cases this
    · rw [hold w hws]
      exact h.settled w (by omega) (hcomp w (by omega) hc) c hcl
  · rw [hrun] at hw
    cases hw
    rw [hview, hnew]
    refine ⟨⟨hk.sound.well, hk.sound.clocked, Nat.zero_le _⟩, fun hup => .inr fun i c hc => ?_⟩
    have hset := h.settled v hv (hcomp v hv (hup v rfl)) c (List.mem_of_getElem? hc)
    exact hk.good i c (.inl hset)

theorem inv_inductive (hP : ∀ c ∈ P.clauses, ∀ a ∈ c, a.Built P) :
    (paver P W pr im).Inductive (Inv P) := by
  refine ⟨fun p hp => ?_, fun p l p' h hstep => ?_⟩
  · have hp : p = start P := hp
    subst hp
    have hno : ∀ v, ¬ v < (start P).size := fun v => Nat.not_lt_zero v
    refine ⟨fun _ => rfl, fun v hv => absurd hv (hno v), fun v hv => absurd hv (hno v),
      fun _ => Nat.le_refl 0, fun v hv => absurd hv (hno v), fun v q hv => ?_,
      fun v hv => absurd hv (hno v), fun v q hv => ?_⟩
    · cases hv
    · cases hv
  · have hstep : Step P W pr im p l p' := hstep
    cases hstep with
    | init hz hd =>
      rw [h.fresh hz] at hd ⊢
      exact .init hP hd
    | round hv hr =>
      have hc := Round.keeps hP hr ((h.caught _ _ hv).since (Nat.le_refl _))
      exact h.store hv hc
    | stop hv => exact h.stop hv
    | split _ hv hn hx hb => exact h.addChild hv hn hx hb

end Paver

/-- **The queue reaches the fixpoint.** Where the propagation of a node and of
all its ancestors has worked off the queue without a conflict, every clause
has a true atom or two undecided ones. -/
theorem propagate_fixpoint (hP : ∀ c ∈ P.clauses, ∀ a ∈ c, a.Built P) {p : Paver}
    (hr : (paver P W pr im).Reachable p) {v : Nat} (hv : v < p.size) (hc : p.Completed v) :
    ∀ c ∈ P.clauses, (∃ a ∈ c, value P (p.node v).content a = .true) ∨
      2 ≤ c.countP fun a => value P (p.node v).content a = .undef :=
  ((Paver.inv_inductive hP).reachable hr).settled v hv hc

/-- `b₁ ∨ x ≥ 1`, for a real variable. -/
def aboveOne : Problem :=
  .ofAtoms 2 (fun _ => false) (fun x => x ≠ 0) []
    [[.bool 1 false, .ineq 0 1 true false]] rfl

theorem aboveOne_built : ∀ c ∈ aboveOne.clauses, ∀ a ∈ c, a.Built aboveOne := by
  intro c hc a ha
  rw [List.mem_singleton.1 hc] at ha
  rcases List.mem_cons.1 ha with rfl | ha
  · trivial
  · rw [List.mem_singleton.1 ha]
    exact .inr (by decide)

abbrev aboveOnePaver : LTS Paver Paver.Label := paver aboveOne default defaults defaultManager

/-- The root has nothing to do. Its child `x ≤ 0` learns `b₁`, whose turn
comes next. -/
theorem propagate_fixpoint_child : ∃ p : Paver, aboveOnePaver.Reachable p ∧ 1 < p.size ∧
    p.Completed 1 ∧ ∀ c ∈ aboveOne.clauses,
      (∃ a ∈ c, value aboveOne (p.node 1).content a = .true) ∨
        2 ≤ c.countP fun a => value aboveOne (p.node 1).content a = .undef := by
  let p₀ := Paver.start aboveOne
  let p₁ := { p₀ with size := 1 }.store 0 (p₀.view 0 [])
  let p₂ := p₁.stop 0 []
  let p₃ := p₂.addChild aboveOne 0 0 0 false false
  let s₄ := { p₃.view 1 [⟨0, 0⟩] with queue := [] }.propagateClause aboveOne 0
  let p₄ := p₃.store 1 s₄
  let s₅ := { p₄.view 1 [⟨1, 1⟩] with queue := [] }.propagateBvar aboveOne
    ((default : WatchList aboveOne).of 1)
  let p₅ := p₄.store 1 s₅
  let p₆ := p₅.stop 1 []
  have h₀ : aboveOnePaver.Reachable p₀ := .init rfl
  have h₁ : aboveOnePaver.Reachable p₁ :=
    h₀.step (l := .init) (.init rfl (.skip rfl rfl (.skip rfl rfl .nil)))
  have hidle : p₁.running = some (0, []) := rfl
  have h₂ : aboveOnePaver.Reachable p₂ := h₁.step (l := .stop) (.stop hidle)
  have h₃ : aboveOnePaver.Reachable p₃ := h₂.step (l := .split 0 0 0 false false)
    (.split rfl (by decide) rfl (by decide) (by decide))
  have hq₃ : p₃.running = some (1, [⟨0, 0⟩]) := by decide +kernel
  have hq₄ : p₄.running = some (1, [⟨1, 1⟩]) := by decide +kernel
  have hq₅ : p₅.running = some (1, []) := by decide +kernel
  have h₄ : aboveOnePaver.Reachable p₄ :=
    h₃.step (l := .round) (.round hq₃ (.arith (by decide +kernel) rfl (by decide)
      (.visits (by decide +kernel) (.clause (by decide +kernel) .nil) (.inr (.inl rfl)))))
  have h₅ : aboveOnePaver.Reachable p₅ :=
    h₄.step (l := .round) (.round hq₄ (.bvar (b := ⟨1, 1⟩) (q := []) (by decide +kernel) rfl
      (by decide)))
  have h₆ : aboveOnePaver.Reachable p₆ := h₅.step (l := .stop) (.stop hq₅)
  have hc : p₆.Completed 1 := .child (u := 0) (by decide +kernel) rfl (.root rfl rfl)
  exact ⟨p₆, h₆, by decide, hc, propagate_fixpoint aboveOne_built h₆ (by decide) hc⟩

end AriParti.L1
