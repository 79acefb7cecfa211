import AriParti.L1Bounds.Falsified
import AriParti.L1Bounds.Visits

/-!
# What the bounds of a node carry

A task leaves out the unit clauses over base variables, the clauses that are
true at the node and the atoms that are false there; the bounds of the base
variables are written instead. So an assignment that satisfies the task has to
satisfy what was left out, by way of these bounds.

The bounds of the defined variables follow from those of the base variables
and from the atoms over definitions, which are written in full, since each of
them was propagated from these (`Carries.implied`). There is one exception: a
clause without an open atom may leave a bound behind that nothing implies, but
then the conversion returns true.

Three things get lost on the way. What a base variable keeps of a unit clause
is its normal form (`Lit.Stored`), which is weaker when the constant is relaxed
(`SmallUnits`). A child stores its cut without a comparison, so that a relaxed
cut may replace a tighter bound (`TightCut`). And rounding is sound only if no
monomial mixes integer and real variables.

## Results

* `initRoot_carried`, `Propagates.carried`, `childOf_carried`: from the root to
  every node.
* `Carried.holds`: an assignment that satisfies the task satisfies the clauses,
  and the unit clauses as they are stored; `Lit.Stored.holds`: what is not
  relaxed is stored as it is.
* `TightCut.of_undef`: a cut that is not relaxed replaces no tighter bound.
-/
namespace AriParti.L1

variable {P : Problem} {pr : Params} {im : IntervalManager} {so : Sorting} {n n' : Content}
  {σ : Assignment}

/-! ## Atoms over base variables -/

/-- The assignment satisfies the bounds that are stored for an atom. -/
def Lit.InNormalForm (P : Problem) (σ : Assignment) : Lit → Prop
  | bool x neg => σ.bool x = !neg
  | eq x k neg => if neg then σ.num x ≠ k else
    (normal P x k true false).Allows true (σ.num x) ∧
      (normal P x k false false).Allows false (σ.num x)
  | ineq x k lower isOpen => (normal P x k lower isOpen).Allows lower (σ.num x)

/-- What is kept of a unit clause: its normal form, if it is over a base
variable. One over a definition is in every task. -/
def Lit.Stored (P : Problem) (σ : Assignment) (a : Lit) : Prop :=
  if P.defs a.x = none then a.InNormalForm P σ else a.Holds σ

/-- The unit clauses over real base variables have constants that are not
relaxed. -/
def SmallUnits (P : Problem) : Prop :=
  ∀ a ∈ P.unitClauses, P.defs a.x = none → P.isInt a.x = true ∨ a.constant.den ≤ maxDenominator

/-- The cut is no looser than the bound it replaces. -/
def TightCut (P : Problem) (n : Content) (x : Nat) (mid : ℚ) (lower isOpen : Bool) : Prop :=
  ∀ b, n.side x lower = some b → (normal P x mid lower isOpen).Within lower b

theorem Lit.Stored.holds {a : Lit} (h : a.Stored P σ)
    (ha : P.isInt a.x = true ∨ a.constant.den ≤ maxDenominator) : a.Holds σ := by
  unfold Lit.Stored at h
  split at h
  · cases a with
    | bool x neg => exact h
    | ineq x k lower isOpen => exact (normalize_within ha).allows h
    | eq x k neg =>
      cases neg with
      | true => exact h
      | false =>
        have hnorm (l : Bool) : (normal P x k l false).Within l ⟨k, false⟩ := normalize_within ha
        exact le_antisymm ((hnorm false).allows h.2) ((hnorm true).allows h.1)
  · exact h

/-- An open cut is tighter than the bounds of the node, and stays so unless it is
relaxed. -/
theorem TightCut.of_undef {x : Nat} {mid : ℚ} {lower isOpen : Bool}
    (hund : value P n (.ineq x mid lower isOpen) = .undef)
    (hden : P.isInt x = true ∨ mid.den ≤ maxDenominator) :
    TightCut P n x mid lower isOpen ∧ TightCut P n x mid (!lower) (!isOpen) := by
  obtain ⟨hown, hother⟩ := value_undef_iff.1 hund
  constructor
  · intro b hb
    exact (normalize_within hden).trans ((Bound.within_total lower b _).resolve_left (hown b hb))
  · intro b hb
    exact (normalize_within hden).trans
      ((Bound.within_total (!lower) b _).resolve_left (hother b hb))

/-! ## A tighter node -/

theorem AdmitsBase.mono (h : AdmitsBase P n' σ) (ht : n.Tighter n') : AdmitsBase P n σ := by
  constructor
  · intro x lower b hx hb
    obtain ⟨b', hb', hw⟩ := ht.side x lower b hb
    exact hw.allows (h.side x lower b' hx hb')
  · intro x
    by_cases hu : n.bvalue x = .undef
    · rw [hu]
      trivial
    · rcases ht.bool x hu with he | he
      · rw [← he]
        exact h.bool x
      · have hb := h.bool x
        rw [he] at hb
        exact hb.elim

/-- At a consistent node the bounds of a variable leave room. -/
theorem Content.Well.not_crosses (h : n.Well P) (hn : n.inconsistent = false) {x : Nat}
    {lower : Bool} {b o : Bound} (hb : n.side x lower = some b)
    (ho : n.side x (!lower) = some o) : ¬ b.Crosses lower o := by
  intro hc
  have hx := Content.conflictingBounds_of hb ho hc
  rw [(h.consistent hn).1 x] at hx
  cases hx

/-- An equation is false when a bound on either side excludes the constant. -/
theorem value_eq_false (hw : n.Well P) (hn : n.inconsistent = false) {x : Nat} {k : ℚ}
    {lower : Bool} {o : Bound} (ho : n.side x lower = some o) (he : o.Within lower ⟨k, true⟩) :
    value P n (.eq x k false) = .false := by
  have hboth : ¬ ((n.side x false).any (·.val == k) && (n.side x true).any (·.val == k)) = true := by
    intro hb
    rw [Bool.and_eq_true] at hb
    obtain ⟨u, hu, huk⟩ := (Option.any_eq_true _ _).1 hb.1
    obtain ⟨l, hl, hlk⟩ := (Option.any_eq_true _ _).1 hb.2
    have hno := hw.not_crosses hn hl hu
    unfold Bound.Crosses at hno
    unfold Bound.Within at he
    cases lower
    · cases hu.symm.trans ho
      grind
    · cases hl.symm.trans ho
      grind
  rw [value_eq, if_neg hboth]
  split
  · rfl
  · rw [if_pos]
    · rfl
    · rw [Bool.or_eq_true]
      cases lower
      · exact .inl ((Option.any_eq_true _ _).2 ⟨o, ho, excludes_iff.2 he⟩)
      · exact .inr ((Option.any_eq_true _ _).2 ⟨o, ho, excludes_iff.2 he⟩)

/-- A false atom stays false as the node gets tighter. -/
theorem value_false_mono (ht : n.Tighter n') (hw : n'.Well P) (hn : n'.inconsistent = false)
    {a : Lit} (hf : value P n a = .false) : value P n' a = .false := by
  cases a with
  | bool x neg =>
    rw [value_bool] at hf ⊢
    split at hf
    · cases hf
    · rename_i hu
      split at hf
      · rename_i hne
        rcases ht.bool x hu with he | he
        · rw [he, if_neg hu, if_pos hne]
        · rw [he]
          cases neg <;> rfl
      · cases hf
  | ineq x k lower isOpen =>
    rw [value_ineq] at hf ⊢
    split at hf
    · rename_i hc
      obtain ⟨o, ho, hc⟩ := (Option.any_eq_true _ _).1 hc
      obtain ⟨o', ho', hw'⟩ := ht.side x (!lower) o ho
      have hcross : o'.Crosses (!lower) ⟨k, isOpen⟩ := hw'.crosses (crosses_iff.1 hc).symm
      have hcross := hcross.symm
      rw [Bool.not_not] at hcross
      rw [if_pos]
      exact (Option.any_eq_true _ _).2 ⟨o', ho', crosses_iff.2 hcross⟩
    · split at hf <;> cases hf
  | eq x k neg =>
    cases neg with
    | false =>
      rcases eq_false_cases hf with hint | ⟨lower, o, ho, hc⟩
      · rw [value_eq, if_pos (by rw [hint.1, hint.2]; rfl)]
        rfl
      · obtain ⟨o', ho', hw'⟩ := ht.side x (!lower) o ho
        refine value_eq_false hw hn ho' (hw'.trans ?_)
        have hc := hc.symm
        rw [← Bool.not_not false] at hc
        exact Bound.within_iff_crosses.2 (by simpa using hc)
    | true =>
      -- both bounds are the constant, and stay so
      rw [value_eq] at hf ⊢
      split at hf
      · cases hf
      · rename_i hint
        split at hf
        · rename_i hb
          rw [Bool.and_eq_true] at hb
          obtain ⟨u, hu, huk⟩ := (Option.any_eq_true _ _).1 hb.1
          obtain ⟨l, hl, hlk⟩ := (Option.any_eq_true _ _).1 hb.2
          obtain ⟨u', hu', huw⟩ := ht.side x false u hu
          obtain ⟨l', hl', hlw⟩ := ht.side x true l hl
          have hno := hw.not_crosses hn hl' hu'
          have hval : u'.val = k ∧ l'.val = k := by
            unfold Bound.Crosses at hno
            unfold Bound.Within at huw hlw
            grind
          rw [if_neg hint, if_pos]
          · rfl
          · rw [hu', hl']
            simp [hval]
        · split at hf <;> cases hf

/-! ## What a task says -/

/-- What an assignment satisfies of the task of `n` whatever its clauses are:
the bounds of the base variables and the atoms over definitions. -/
structure Says (P : Problem) (n : Content) (σ : Assignment) : Prop where
  typed : Typed P σ
  base : AdmitsBase P n σ
  units : ∀ a ∈ P.unitClauses, P.defs a.x ≠ none → a.Holds σ
  upAtoms : ∀ a ∈ n.upAtoms, P.defs a.x ≠ none → a.Holds σ

/-- `n'` has at least the bounds and the unit atoms of `n`. -/
structure Extends (P : Problem) (n n' : Content) : Prop where
  well : n'.Well P
  tighter : n.Tighter n'
  upAtoms : ∀ a ∈ n.upAtoms, a ∈ n'.upAtoms

theorem Visited.extends (h : Visited P n n') : Extends P n n' := ⟨h.well, h.tighter, h.upAtoms⟩

theorem Says.mono (h : Says P n' σ) (he : Extends P n n') : Says P n σ :=
  ⟨h.typed, h.base.mono he.tighter, h.units, fun a ha => h.upAtoms a (he.upAtoms a ha)⟩

/-- Some clause has no open atom. -/
def Falsified (P : Problem) (n : Content) : Prop := ∃ c ∈ P.clauses, ∀ a ∈ c, value P n a = .false

/-- The unit clauses of `as` are carried by the bounds of the base variables,
and these carry the other bounds. -/
structure Carries (P : Problem) (as : List Lit) (n : Content) : Prop where
  units : ∀ σ, Says P n σ → ∀ a ∈ as, a.Stored P σ
  implied : Falsified P n ∨ ∀ σ, Says P n σ → Admits n σ

/-- A step keeps what is carried if it asserts nothing that is not implied. -/
theorem Carries.step {as : List Lit} (h : Carries P as n) (he : Extends P n n')
    (hn : n'.inconsistent = false)
    (hs : Falsified P n ∨ ∀ σ, Says P n' σ → Admits n σ → Admits n' σ) : Carries P as n' := by
  refine ⟨fun σ hσ => h.units σ (hσ.mono he), ?_⟩
  have stays : Falsified P n → Falsified P n' := by
    rintro ⟨c, hc, hf⟩
    exact ⟨c, hc, fun a ha => value_false_mono he.tighter he.well hn (hf a ha)⟩
  rcases hs with hf | hs
  · exact .inl (stays hf)
  · rcases h.implied with hf | hi
    · exact .inl (stays hf)
    · exact .inr fun σ hσ => hs σ hσ (hi σ (hσ.mono he))

/-! ## An atom -/

/-- Only the variable of the atom changes. -/
theorem propagateBound_side_ne {x : Nat} (ha : n.bvalue x = .arith) (k : ℚ) (lower isOpen : Bool)
    {y : Nat} (hy : y ≠ x) (l : Bool) :
    (n.propagateBound P x k lower isOpen).side y l = n.side y l := by
  unfold Content.propagateBound
  simp only
  split
  · rw [Content.mkBound_side ha, if_neg fun h => hy h.1]
  · rfl

theorem propagateAtom_side_ne (hw : n.Well P) {a : Lit} (hs : a.Sorted P) {y : Nat}
    (hy : y ≠ a.x) (l : Bool) :
    (n.propagateAtom P a).side y l = n.side y l := by
  cases a with
  | bool x neg =>
    have ha : n.bvalue x ≠ .arith := by
      rw [Ne, hw.arith, show P.isBool x = true from hs.2]
      decide
    exact congrFun (congrFun (Content.propagateBvarBound_side ha neg) y) l
  | ineq x k lower isOpen =>
    exact propagateBound_side_ne ((hw.arith x).2 hs.2) k lower isOpen hy l
  | eq x k neg =>
    cases neg with
    | true => rfl
    | false =>
      have ha := (hw.arith x).2 hs.2
      have ha' : (n.propagateBound P x k true false).bvalue x = .arith := by
        rw [propagateBound_bvalue ha]
        exact ha
      have hlow := propagateBound_side_ne (P := P) ha k true false hy l
      unfold Content.propagateAtom
      simp only [Bool.false_eq_true, if_false]
      split
      · exact hlow
      · rw [propagateBound_side_ne ha' k false false hy l]
        exact hlow

/-- An atom over a base variable asserts a bound of a base variable, and one
over a definition holds. -/
theorem propagateAtom_implied (hw : n.Well P) (hn : n.inconsistent = false) {a : Lit}
    (hs : a.Sorted P) (hv : Says P (n.propagateAtom P a) σ)
    (hd : P.defs a.x ≠ none → a.Holds σ) (ha : Admits n σ) : Admits (n.propagateAtom P a) σ := by
  by_cases hx : P.defs a.x = none
  · refine ⟨fun y lower b hb => ?_, hv.base.bool⟩
    by_cases hy : y = a.x
    · exact hv.base.side y lower b (by rw [hy]; exact hx) hb
    · rw [propagateAtom_side_ne hw hs hy] at hb
      exact ha.side y lower b hb
  · exact propagateAtom_admits hv.typed hw hn ha hs (hd hx)

theorem propagateAtom_visited (hw : n.Well P) (hn : n.inconsistent = false) {a : Lit}
    (hs : a.Sorted P) : Visited P n (n.propagateAtom P a) :=
  (propagateAtom_derives (S := fun _ => False) hn hs nofun).visited hw

/-- A propagated bound of a base variable is satisfied in its normal form. -/
theorem propagateBound_stored {x : Nat} (ha : n.bvalue x = .arith) (hx : P.defs x = none) (k : ℚ)
    (lower isOpen : Bool) (hb : AdmitsBase P (n.propagateBound P x k lower isOpen) σ) :
    (normal P x k lower isOpen).Allows lower (σ.num x) := by
  obtain ⟨b, hside, hcase⟩ := @propagateBound_own P n x k lower isOpen ha
  have hallows := hb.side x lower b hx hside
  rcases hcase with rfl | ⟨-, hwithin⟩
  · exact hallows
  · exact hwithin.allows hallows

theorem propagateBvarBound_holds {x : Nat} (ha : n.bvalue x ≠ .arith) (neg : Bool)
    (hb : AdmitsBase P (n.propagateBvarBound x neg) σ) : σ.bool x = !neg := by
  have h := hb.bool x
  rw [Content.propagateBvarBound_bvalue ha, Function.update_self] at h
  unfold Content.settled at h
  cases hx : n.bvalue x <;> rw [hx] at h <;> cases neg <;>
    simp_all [BValue.Allows, BValue.ofNeg]

theorem propagateAtom_stored (hw : n.Well P) (hn : n.inconsistent = false) {a : Lit}
    (hs : a.Sorted P) (hne : ∀ x k, a ≠ .eq x k true)
    (hn' : (n.propagateAtom P a).inconsistent = false)
    (hb : AdmitsBase P (n.propagateAtom P a) σ) (hd : P.defs a.x ≠ none → a.Holds σ) :
    a.Stored P σ := by
  unfold Lit.Stored
  split
  · rename_i hx
    cases a with
    | bool x neg =>
      have ha : n.bvalue x ≠ .arith := by
        rw [Ne, hw.arith, show P.isBool x = true from hs.2]
        decide
      exact propagateBvarBound_holds ha neg hb
    | ineq x k lower isOpen =>
      exact propagateBound_stored ((hw.arith x).2 hs.2) hx k lower isOpen hb
    | eq x k neg =>
      cases neg with
      | true => exact absurd rfl (hne x k)
      | false =>
        let n₁ := n.propagateBound P x k true false
        have he : n.propagateAtom P (.eq x k false) =
            if n₁.inconsistent then n₁ else n₁.propagateBound P x k false false := rfl
        rw [he] at hn' hb
        split at hb
        · rename_i hc
          rw [if_pos hc, hc] at hn'
          cases hn'
        · rename_i hc
          have hc := Bool.eq_false_iff.2 hc
          have hlow : Derives P (fun _ => False) n n₁ :=
            Derives.refl.bound x k true false hn hs.1 hs.2 nofun
          have hw₁ := hlow.well hw
          have hup : Derives P (fun _ => False) n₁ (n₁.propagateBound P x k false false) :=
            Derives.refl.bound x k false false hc hs.1 hs.2 nofun
          exact ⟨propagateBound_stored ((hw.arith x).2 hs.2) hx k true false
              (hb.mono (hup.tighter hw₁)),
            propagateBound_stored ((hw₁.arith x).2 hs.2) hx k false false hb⟩
  · rename_i hx
    exact hd hx

/-! ## From the root to a node -/

/-- A consistent node carries the unit clauses. -/
structure Carried (P : Problem) (n : Content) : Prop where
  well : n.Well P
  carries : n.inconsistent = false → Carries P P.unitClauses n

theorem Carries.assertUnit {as : List Lit} {a : Lit} (h : Carries P as n) (hw : n.Well P)
    (hn : n.inconsistent = false) (ha : a ∈ P.unitClauses)
    (hn' : (n.propagateAtom P a).inconsistent = false) :
    Carries P (as ++ [a]) (n.propagateAtom P a) := by
  have hs : a.Sorted P := P.sorted a (.inl ha)
  have hstep := h.step (propagateAtom_visited hw hn hs).extends hn'
    (.inr fun σ hσ => propagateAtom_implied hw hn hs hσ (hσ.units a ha))
  refine ⟨fun σ hσ b hb => ?_, hstep.implied⟩
  rcases List.mem_append.1 hb with hb | hb
  · exact hstep.units σ hσ b hb
  · rw [List.mem_singleton.1 hb]
    exact propagateAtom_stored hw hn hs (fun x k he => P.units_ne x k (he ▸ ha)) hn' hσ.base
      (hσ.units a ha)

theorem assertUnits_carries (as done : List Lit) (hs : ∀ a ∈ as, a ∈ P.unitClauses)
    (hw : n.Well P) (hn : n.inconsistent = false) (h : Carries P done n)
    (hn' : (assertUnits P as n).inconsistent = false) :
    Carries P (done ++ as) (assertUnits P as n) := by
  induction as generalizing n done with
  | nil =>
    rw [List.append_nil]
    exact h
  | cons a as ih =>
    have ha := hs a List.mem_cons_self
    have hvis := propagateAtom_visited hw hn (P.sorted a (.inl ha))
    unfold assertUnits at hn' ⊢
    simp only at hn' ⊢
    split at hn'
    · rename_i hc
      rw [hc] at hn'
      cases hn'
    · rename_i hc
      have hc := Bool.eq_false_iff.2 hc
      rw [if_neg (Bool.eq_false_iff.1 hc), List.append_cons]
      exact ih (done ++ [a]) (fun b hb => hs b (List.mem_cons_of_mem a hb)) hvis.well hc
        (h.assertUnit hw hn ha hc) hn'

theorem propagateDef_carried (h : Carried P n) (hn : n.inconsistent = false) (x : Nat) :
    Carried P (n.propagateDef P pr im x) := by
  have hready : Ready P (fun _ => False) n := ⟨h.well, hn, nofun, nofun, nofun⟩
  have hderives : Derives P (fun _ => False) n (n.propagateDef P pr im x) :=
    propagateDef_derives hready x
  have hvis := hderives.visited h.well
  exact ⟨hvis.well, fun hn' => (h.carries hn).step hvis.extends hn'
    (.inr fun σ hσ ha => propagateDef_admits hσ.typed h.well hn ha x)⟩

theorem propagateAllDefinitions_carried (xs : List Nat) (h : Carried P n) :
    Carried P (propagateAllDefinitions P pr im xs n) := by
  induction xs generalizing n with
  | nil => exact h
  | cons x xs ih =>
    unfold propagateAllDefinitions
    split
    · exact h
    · rename_i hn
      exact ih (propagateDef_carried h (Bool.eq_false_iff.2 hn) x)

theorem blank_carries : Carries P [] (blank P) :=
  ⟨fun _ _ _ ha => absurd ha List.not_mem_nil, .inr fun σ _ => blank_admits σ⟩

theorem initRoot_carried : Carried P (initRoot P pr im) := by
  have hunits : Derives P (fun _ => False) (blank P) (assertUnits P P.unitClauses (blank P)) :=
    assertUnits_derives _ (fun a ha => P.sorted a (.inl ha)) nofun rfl
  exact propagateAllDefinitions_carried _ ⟨hunits.well blank_well,
    assertUnits_carries P.unitClauses [] (fun _ ha => ha) blank_well rfl blank_carries⟩

theorem Visit.carried (h : Visit P pr im n n') (hc : Carried P n) : Carried P n' := by
  have hvis := h.visited hc.well
  refine ⟨hvis.well, fun hn' => ?_⟩
  obtain ⟨hn, hcase⟩ := h.cases
  refine (hc.carries hn).step hvis.extends hn' ?_
  cases hcase with
  | nothing => exact .inr fun σ _ ha => ha
  | falsified hcl _ hf => exact .inl ⟨_, hcl, hf⟩
  | definition x => exact .inr fun σ hσ ha => propagateDef_admits hσ.typed hc.well hn ha x
  | @unit c a hcl hac _ =>
    refine .inr fun σ hσ ha => ?_
    have hs := clause_sorted hcl hac
    have hw := addUpAtom_well (a := a) hc.well
    have hup := (propagateAtom_visited hw hn hs).upAtoms a
      (List.mem_append_right _ (List.mem_singleton_self a))
    exact propagateAtom_implied hw hn hs hσ (hσ.upAtoms a hup) ⟨ha.side, ha.bool⟩

theorem Propagates.carried (h : Propagates P pr im n n') (hc : Carried P n) : Carried P n' := by
  induction h with
  | refl => exact hc
  | tail _ hv ih => exact hv.carried ih

/-- A tight cut is one more bound of a base variable. -/
theorem childOf_carried (hc : Carried P n) (hn : n.inconsistent = false) {x : Nat}
    (hlt : x < P.numVars) (hd : P.defs x = none) (hx : P.isBool x = false) {mid : ℚ}
    {lower isOpen : Bool} (ht : TightCut P n x mid lower isOpen) :
    Carried P (childOf P n x mid lower isOpen) := by
  have ha := (hc.well.arith x).2 hx
  have hw := childOf_well hc.well hn hlt hx mid lower isOpen
  have htight := Content.Tighter.mkBound (normalizeBound P x mid lower isOpen).1 lower
    (normalizeBound P x mid lower isOpen).2 ha ht
  have hup : (childOf P n x mid lower isOpen).upAtoms = n.upAtoms := Content.mkBound_upAtoms ha _ _ _
  have hext : Extends P n (childOf P n x mid lower isOpen) :=
    ⟨hw, ⟨htight.side, htight.bool⟩, fun a ha => by rw [hup]; exact ha⟩
  refine ⟨hw, fun hn' => (hc.carries hn).step hext hn' (.inr fun σ hσ hadm => ?_)⟩
  refine ⟨fun y l b hb => ?_, hσ.base.bool⟩
  by_cases hy : P.defs y = none
  · exact hσ.base.side y l b hy hb
  · have hside := Content.mkBound_side ha (normalizeBound P x mid lower isOpen).1 lower
      (normalizeBound P x mid lower isOpen).2 y l
    rw [if_neg fun h : y = x ∧ l = lower => hy (h.1 ▸ hd)] at hside
    exact hadm.side y l b (hside.symm.trans hb)

/-! ## The task -/

/-- A clause without an open atom ends the conversion. -/
theorem collectClauses_open {cs : List (List Lit)} {st st' : Collected}
    (h : collectClauses P so n cs st = some st') {c : List Lit} (hc : c ∈ cs) :
    n.openAtoms P c ≠ some [] := by
  induction cs generalizing st with
  | nil => exact absurd hc List.not_mem_nil
  | cons d cs ih =>
    unfold collectClauses at h
    split at h
    · cases h
    · rename_i st₁ h₁
      rcases List.mem_cons.1 hc with rfl | hc
      · intro ho
        unfold collectClause at h₁
        rw [ho] at h₁
        cases h₁
      · exact ih h hc

theorem convert_not_falsified {t : Task} (h : convertNodeToTask P so n = some t) :
    ¬ Falsified P n := by
  rintro ⟨c, hc, hf⟩
  obtain ⟨st, hst, -⟩ := convert_some h
  refine collectClauses_open hst hc ?_
  have hany : (c.any fun a => value P n a = .true) = false := by
    rw [List.any_eq_false]
    intro a ha
    rw [hf a ha]
    decide
  have hnil : (c.filter fun a => value P n a = .undef) = [] := by
    rw [List.filter_eq_nil_iff]
    intro a ha
    rw [hf a ha]
    decide
  unfold Content.openAtoms
  rw [hany, hnil]
  rfl

theorem says_of_task (hP : SingleSort P) (hw : n.Well P) (hn : n.inconsistent = false) {t : Task}
    (ht : convertNodeToTask P so n = some t) (hr : Respects P σ) (hσ : t.Holds σ) : Says P n σ := by
  have hunits := convert_units ht hσ
  unfold nodeUnits overDefs at hunits
  have isSome : ∀ a : Lit, P.defs a.x ≠ none → (P.defs a.x).isSome = true :=
    fun a ha => Option.isSome_iff_ne_none.2 ha
  refine ⟨hr.typed hP, varUnits_admit hw hn fun x hx a ha => ?_, fun a ha hd => ?_,
    fun a ha hd => ?_⟩
  · exact hunits a (List.mem_append_right _ (List.mem_flatMap.2 ⟨x, List.mem_range.2 hx, ha⟩))
  · exact hunits a (List.mem_append_left _ (List.mem_append_left _
      (List.mem_filter.2 ⟨ha, isSome a hd⟩)))
  · exact hunits a (List.mem_append_left _ (List.mem_append_right _
      (List.mem_filter.2 ⟨ha, isSome a hd⟩)))

/-- An assignment that satisfies the task of a node satisfies the clauses, and
the unit clauses as they are stored. -/
theorem Carried.holds (h : Carried P n) (hP : SingleSort P) (hn : n.inconsistent = false) {t : Task}
    (ht : convertNodeToTask P so n = some t) (hr : Respects P σ) (hσ : t.Holds σ) :
    (∀ a ∈ P.unitClauses, a.Stored P σ) ∧ ∀ c ∈ P.clauses, ∃ a ∈ c, a.Holds σ := by
  have hsays := says_of_task hP h.well hn ht hr hσ
  have hadmits := (h.carries hn).implied.resolve_left (convert_not_falsified ht) σ hsays
  exact ⟨(h.carries hn).units σ hsays,
    ((convert_holds ⟨h.well, hsays.typed.ints, hadmits⟩ ht).1 hσ).1⟩

end AriParti.L1
