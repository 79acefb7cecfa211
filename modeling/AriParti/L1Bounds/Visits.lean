import AriParti.L1Bounds.Settles

/-!
# What visits do to a node

A visit makes a node tighter, adds to its unit atoms and leaves its path as it
is. An assignment that is admitted stays so, if it satisfies the clauses: the
atom a clause propagates is then true, and a clause without an open atom does
not occur.

A model that satisfies the split decisions on the path is therefore admitted
all the way down (`Covers`). `childOf` normalizes the cut, which only weakens
it.

## Results

* `Visit.visited`, `Visit.admits`: one visit, without and with an assignment.
* `Visit.covers`, `childOf_covers`: `Covers`, from a node to the next.
* `initRoot_reached`, `Propagates.reached`: the nodes of the process are among
  those `Reached`; `Reached.well`, `Reached.covers`: what holds of all of them.
-/
namespace AriParti.L1

variable {P : Problem} {pr : Params} {im : IntervalManager} {S : Assignment → Prop}
  {n n' : Content} {σ : Assignment}

/-! ## What moves leave alone -/

theorem propagateBound_rest (hw : n.Well P) {x : Nat} (hx : P.isBool x = false) (k : ℚ)
    (lower isOpen : Bool) :
    (n.propagateBound P x k lower isOpen).path = n.path ∧
      (n.propagateBound P x k lower isOpen).upAtoms = n.upAtoms := by
  have ha := (hw.arith x).2 hx
  unfold Content.propagateBound
  simp only
  split
  · exact ⟨Content.mkBound_path ha _ _ _, Content.mkBound_upAtoms ha _ _ _⟩
  · exact ⟨rfl, rfl⟩

theorem Derives.rest (h : Derives P S n n') (hw : n.Well P) :
    n'.path = n.path ∧ n'.upAtoms = n.upAtoms := by
  induction h with
  | refl => exact ⟨rfl, rfl⟩
  | bound x k lower isOpen h _ _ hx _ ih =>
    obtain ⟨hp, hu⟩ := propagateBound_rest (h.well hw) hx k lower isOpen
    exact ⟨hp.trans ih.1, hu.trans ih.2⟩
  | bvar x neg h _ _ hx _ ih =>
    have ha := mt ((h.well hw).arith x).1 (by rw [hx]; decide)
    rw [Content.propagateBvarBound_eq ha]
    exact ih

/-- What is left of `n` in `n'`. -/
structure Visited (P : Problem) (n n' : Content) : Prop where
  well : n'.Well P
  tighter : n.Tighter n'
  path : n'.path = n.path
  upAtoms : ∀ a ∈ n.upAtoms, a ∈ n'.upAtoms

theorem Visited.trans {n₁ n₂ n₃ : Content} (h : Visited P n₁ n₂) (h' : Visited P n₂ n₃) :
    Visited P n₁ n₃ :=
  ⟨h'.well, h.tighter.trans h'.tighter, h'.path.trans h.path,
    fun a ha => h'.upAtoms a (h.upAtoms a ha)⟩

theorem Derives.visited (h : Derives P S n n') (hw : n.Well P) : Visited P n n' := by
  obtain ⟨hp, hu⟩ := h.rest hw
  exact ⟨h.well hw, h.tighter hw, hp, fun a ha => by rw [hu]; exact ha⟩

theorem upAtoms_visited {as : List Lit} (hw : n.Well P) (has : ∀ a ∈ n.upAtoms, a ∈ as) :
    Visited P n { n with upAtoms := as } :=
  ⟨⟨hw.arith, hw.scope, hw.bools, hw.flagged⟩,
    ⟨fun _ lower b hb => ⟨b, hb, .refl lower b⟩, fun _ _ => .inl rfl⟩, rfl, has⟩

/-! ## One visit -/

/-- What a visit is, seen from the node. -/
inductive VisitCase (P : Problem) (pr : Params) (im : IntervalManager) (n : Content) :
    Content → Prop where
  | nothing : VisitCase P pr im n n
  /-- the last open atom of a clause -/
  | unit {c : List Lit} {a : Lit} : c ∈ P.clauses → a ∈ c →
      (∀ b ∈ c, b ≠ a → value P n b = .false) →
      VisitCase P pr im n (({ n with upAtoms := n.upAtoms ++ [a] } : Content).propagateAtom P a)
  /-- a clause without an open atom -/
  | falsified {c : List Lit} {a : Lit} : c ∈ P.clauses → a ∈ c →
      (∀ b ∈ c, value P n b = .false) → VisitCase P pr im n (n.propagateAtom P a)
  | definition (x : Nat) : VisitCase P pr im n (n.propagateDef P pr im x)

theorem Visit.cases (h : Visit P pr im n n') : n.inconsistent = false ∧ VisitCase P pr im n n' := by
  cases h with
  | definition x hn => exact ⟨hn, .definition x⟩
  | @clause c hn hc =>
    refine ⟨hn, ?_⟩
    rcases propagateClause_cases (P := P) n c with he | ⟨a, ha, hfalse, he⟩ | ⟨hfalse, a, ha, he⟩
    · rw [he]
      exact .nothing
    · rw [he]
      exact .unit hc ha hfalse
    · rw [he]
      exact .falsified hc ha hfalse

theorem clause_sorted {c : List Lit} (hc : c ∈ P.clauses) {a : Lit} (ha : a ∈ c) : a.Sorted P :=
  P.sorted a (.inr ⟨c, hc, ha⟩)

/-- A visit adds unit atoms and makes moves. With no assignment to justify it
every move is justified. -/
theorem Visit.derives (h : Visit P pr im n n') (hw : n.Well P) :
    ∃ as, (∀ a ∈ n.upAtoms, a ∈ as) ∧ Derives P (fun _ => False) { n with upAtoms := as } n' := by
  obtain ⟨hn, hc⟩ := h.cases
  cases hc with
  | nothing => exact ⟨n.upAtoms, fun _ ha => ha, .refl⟩
  | @unit c a hc ha _ =>
    have hd := propagateAtom_derives (S := fun _ => False)
      (n := { n with upAtoms := n.upAtoms ++ [a] }) hn (clause_sorted hc ha) nofun
    exact ⟨_, fun _ hb => List.mem_append_left _ hb, hd⟩
  | @falsified c a hc ha _ =>
    have hd := propagateAtom_derives (S := fun _ => False) hn (clause_sorted hc ha) nofun
    exact ⟨n.upAtoms, fun _ hb => hb, hd⟩
  | definition x =>
    have hready : Ready P (fun _ => False) n := ⟨hw, hn, nofun, nofun, nofun⟩
    exact ⟨n.upAtoms, fun _ hb => hb, propagateDef_derives hready x⟩

theorem Visit.visited (h : Visit P pr im n n') (hw : n.Well P) : Visited P n n' := by
  obtain ⟨as, has, hd⟩ := h.derives hw
  have hup := upAtoms_visited hw has
  exact hup.trans (hd.visited hup.well)

/-- An assignment of the variables as the partitioner takes them. -/
structure Typed (P : Problem) (σ : Assignment) : Prop where
  respects : Respects P σ
  ints : ∀ x, P.isInt x = true → ∃ k : ℤ, σ.num x = k

theorem Respects.typed (h : Respects P σ) (hP : SingleSort P) : Typed P σ := ⟨h, h.isInt hP⟩

/-- One assignment justifies the moves it satisfies. -/
theorem Derives.admits_of (ht : Typed P σ) (hw : n.Well P) (ha : Admits n σ)
    (h : Derives P (· = σ) n n') : Admits n' σ :=
  h.admits hw rfl ht.ints ha

theorem propagateAtom_admits (ht : Typed P σ) (hw : n.Well P) (hn : n.inconsistent = false)
    (ha : Admits n σ) {a : Lit} (hs : a.Sorted P) (hh : a.Holds σ) :
    Admits (n.propagateAtom P a) σ :=
  Derives.admits_of ht hw ha (propagateAtom_derives hn hs fun τ hτ => by rw [hτ]; exact hh)

theorem propagateDef_admits (ht : Typed P σ) (hw : n.Well P) (hn : n.inconsistent = false)
    (ha : Admits n σ) (x : Nat) : Admits (n.propagateDef P pr im x) σ := by
  refine Derives.admits_of ht hw ha (propagateDef_derives ⟨hw, hn, ?_, ?_, ?_⟩ x) <;>
    intro τ hτ <;> rw [hτ]
  · exact ht.respects
  · exact ht.ints
  · exact ha

theorem Visit.admits (h : Visit P pr im n n') (ht : Typed P σ)
    (hcl : ∀ c ∈ P.clauses, ∃ a ∈ c, a.Holds σ) (hw : n.Well P) (ha : Admits n σ)
    (hup : ∀ a ∈ n.upAtoms, a.Holds σ) : Admits n' σ ∧ ∀ a ∈ n'.upAtoms, a.Holds σ := by
  have hr : Reads P n σ := ⟨hw, ht.ints, ha⟩
  obtain ⟨hn, hc⟩ := h.cases
  cases hc with
  | nothing => exact ⟨ha, hup⟩
  | @unit c a hc hac hfalse =>
    have hh : a.Holds σ := by
      obtain ⟨b, hb, hh⟩ := hcl c hc
      by_cases hba : b = a
      · rwa [hba] at hh
      · exact absurd hh ((hr.value (clause_sorted hc hb)).2 (hfalse b hb hba))
    have hd := propagateAtom_derives (S := fun _ => False)
      (n := { n with upAtoms := n.upAtoms ++ [a] }) hn (clause_sorted hc hac) nofun
    refine ⟨propagateAtom_admits ht (addUpAtom_well hw) hn ⟨ha.side, ha.bool⟩
      (clause_sorted hc hac) hh, fun b hb => ?_⟩
    rw [(hd.rest (addUpAtom_well hw)).2] at hb
    rcases List.mem_append.1 hb with hb | hb
    · exact hup b hb
    · rw [List.mem_singleton.1 hb]
      exact hh
  | @falsified c a hc hac hfalse =>
    obtain ⟨b, hb, hh⟩ := hcl c hc
    exact absurd hh ((hr.value (clause_sorted hc hb)).2 (hfalse b hb))
  | definition x =>
    have hready : Ready P (fun _ => False) n := ⟨hw, hn, nofun, nofun, nofun⟩
    refine ⟨propagateDef_admits ht hw hn ha x, ?_⟩
    rw [((propagateDef_derives hready x).rest hw).2]
    exact hup

/-! ## From the root to a node -/

/-- The models that satisfy the decisions on the path are admitted, and
satisfy the unit atoms. -/
structure Covers (P : Problem) (n : Content) : Prop where
  well : n.Well P
  admits : ∀ σ, Model P σ → (∀ a ∈ n.path, a.Holds σ) →
    Admits n σ ∧ ∀ a ∈ n.upAtoms, a.Holds σ

theorem Visit.covers (hP : SingleSort P) (hc : Covers P n) (h : Visit P pr im n n') :
    Covers P n' := by
  have hv := h.visited hc.well
  refine ⟨hv.well, fun σ hm hpath => ?_⟩
  rw [hv.path] at hpath
  obtain ⟨ha, hup⟩ := hc.admits σ hm hpath
  exact h.admits (hm.toRespects.typed hP) hm.clauses hc.well ha hup

theorem childOf_well (hw : n.Well P) (hn : n.inconsistent = false) {x : Nat} (hlt : x < P.numVars)
    (hx : P.isBool x = false) (mid : ℚ) (lower isOpen : Bool) :
    (childOf P n x mid lower isOpen).Well P := by
  have h := hw.mkBound (normalizeBound P x mid lower isOpen).1 lower
    (normalizeBound P x mid lower isOpen).2 hn hlt hx
  exact ⟨h.arith, h.scope, h.bools, h.flagged⟩

theorem childOf_path (x : Nat) (mid : ℚ) (lower isOpen : Bool) :
    (childOf P n x mid lower isOpen).path = n.path ++ [.ineq x mid lower isOpen] := rfl

/-- The cut of a child is a decision on its path. -/
theorem childOf_covers (hP : SingleSort P) (hc : Covers P n) (hn : n.inconsistent = false) {x : Nat}
    (hlt : x < P.numVars) (hx : P.isBool x = false) (mid : ℚ) (lower isOpen : Bool) :
    Covers P (childOf P n x mid lower isOpen) := by
  refine ⟨childOf_well hc.well hn hlt hx mid lower isOpen, fun σ hm hpath => ?_⟩
  rw [childOf_path] at hpath
  have hcut := hpath _ (List.mem_append_right _ (List.mem_singleton_self _))
  obtain ⟨ha, hup⟩ := hc.admits σ hm fun a ha => hpath a (List.mem_append_left _ ha)
  have harith := (hc.well.arith x).2 hx
  have hbound := ha.mkBound (normalizeBound P x mid lower isOpen).1 lower
    (normalizeBound P x mid lower isOpen).2 harith
    (normalize_allows (hm.toRespects.isInt hP x) hcut)
  refine ⟨⟨hbound.side, hbound.bool⟩, ?_⟩
  show ∀ a ∈ (n.mkBound x _ lower _).upAtoms, a.Holds σ
  rw [Content.mkBound_upAtoms harith]
  exact hup

/-! ## Every node -/

theorem Propagates.reached (h : Propagates P pr im n n') (hr : Reached P pr im n) :
    Reached P pr im n' := by
  induction h with
  | refl => exact hr
  | tail _ hv ih => exact ih.visit hv

theorem assertUnits_reached (as : List Lit) (has : ∀ a ∈ as, a ∈ P.unitClauses)
    (hn : n.inconsistent = false) (hr : Reached P pr im n) : Reached P pr im (assertUnits P as n) := by
  induction as generalizing n with
  | nil => exact hr
  | cons a as ih =>
    have hstep := hr.unit hn (has a List.mem_cons_self)
    unfold assertUnits
    simp only
    split
    · exact hstep
    · rename_i hc
      exact ih (fun b hb => has b (List.mem_cons_of_mem a hb)) (Bool.eq_false_iff.2 hc) hstep

theorem propagateAllDefinitions_reached (xs : List Nat) (hr : Reached P pr im n) :
    Reached P pr im (propagateAllDefinitions P pr im xs n) := by
  induction xs generalizing n with
  | nil => exact hr
  | cons x xs ih =>
    unfold propagateAllDefinitions
    split
    · exact hr
    · rename_i hc
      exact ih (hr.visit (.definition x (Bool.eq_false_iff.2 hc)))

theorem initRoot_reached : Reached P pr im (initRoot P pr im) :=
  propagateAllDefinitions_reached _ (assertUnits_reached _ (fun _ ha => ha) rfl .root)

/-- Every node is well formed. -/
theorem Reached.well (h : Reached P pr im n) : n.Well P := by
  induction h with
  | root => exact blank_well
  | unit _ hn ha ih =>
    have hd := propagateAtom_derives (S := fun _ => False) hn (P.sorted _ (.inl ha)) nofun
    exact hd.well ih
  | visit _ hv ih => exact (hv.visited ih).well
  | child _ hn hlt hx ih => exact childOf_well ih hn hlt hx _ _ _

theorem Reached.covers (h : Reached P pr im n) (hP : SingleSort P) : Covers P n := by
  induction h with
  | root => exact ⟨blank_well, fun σ _ _ => ⟨blank_admits σ, nofun⟩⟩
  | @unit n a hr hn ha ih =>
    have hs := P.sorted a (.inl ha)
    have hd := propagateAtom_derives (S := fun _ => False) hn hs nofun
    obtain ⟨hpath, hup⟩ := hd.rest hr.well
    refine ⟨hd.well hr.well, fun σ hm hσ => ?_⟩
    rw [hpath] at hσ
    obtain ⟨hadm, hunits⟩ := ih.admits σ hm hσ
    rw [hup]
    exact ⟨propagateAtom_admits (hm.toRespects.typed hP) hr.well hn hadm hs (hm.units a ha), hunits⟩
  | visit _ hv ih => exact hv.covers hP ih
  | child _ hn hlt hx ih => exact childOf_covers hP ih hn hlt hx _ _ _

end AriParti.L1
