import AriParti.L1Bounds.Dominated
import AriParti.L1Bounds.Propagators

/-!
# What a task means

At an admitted assignment the task of a node says the same as the clauses of
the problem and the units of the node together. An assignment that satisfies
the task lies within the bounds of the base variables, whether it is admitted
or not: these bounds are written into the task.

## Results

* `convert_holds`, `convert_none`: the task, and `return true`, at an admitted
  assignment.
* `convert_units`, `varUnits_admit`: what the bounds in a task say.
* `convert_undef`: the literals of the clauses of a task are open at its node.
-/
namespace AriParti.L1

variable {P : Problem} {so : Sorting} {σ : Assignment} {n : Content}

/-! ## The loop over the clauses -/

def Collected.Holds (st : Collected) (σ : Assignment) : Prop :=
  (∀ a ∈ st.tempUnits, a.Holds σ) ∧ ∀ c ∈ st.tempClauses, ∃ a ∈ c, a.Holds σ

theorem joined_clause {c : List Lit} : Joined false σ c ↔ ∃ a ∈ c, a.Holds σ := by
  simp [Joined]

theorem joined_units {as : List Lit} : Joined true σ as ↔ ∀ a ∈ as, a.Holds σ := by
  simp [Joined]

theorem Collected.holds_unit {st : Collected} {a : Lit} :
    (∀ b ∈ st.tempUnits ++ [a], b.Holds σ) ↔ (∀ b ∈ st.tempUnits, b.Holds σ) ∧ a.Holds σ := by
  simp [or_imp, forall_and]

theorem Collected.holds_clause {st : Collected} {c : List Lit} :
    (∀ d ∈ st.tempClauses ++ [c], ∃ a ∈ d, a.Holds σ) ↔
      (∀ d ∈ st.tempClauses, ∃ a ∈ d, a.Holds σ) ∧ ∃ a ∈ c, a.Holds σ := by
  simp only [List.mem_append, List.mem_singleton, or_imp, forall_and, forall_eq]

/-- What is known of a node at an assignment it admits. -/
structure Reads (P : Problem) (n : Content) (σ : Assignment) : Prop where
  well : n.Well P
  ints : ∀ x, P.isInt x = true → ∃ k : ℤ, σ.num x = k
  admits : Admits n σ

/-- A value is true to the assignment. -/
theorem Reads.value (h : Reads P n σ) {a : Lit} (ha : a.Sorted P) :
    (L1.value P n a = .true → a.Holds σ) ∧ (L1.value P n a = .false → ¬ a.Holds σ) := by
  apply value_sound h.ints h.admits a
  intro hb
  rw [Ne, h.well.arith, ha.2, hb]
  decide

/-- Of a clause only the open atoms count. -/
theorem Reads.openAtoms (h : Reads P n σ) {c as : List Lit} (hc : ∀ a ∈ c, a.Sorted P)
    (ho : n.openAtoms P c = some as) : (∃ a ∈ c, a.Holds σ) ↔ ∃ a ∈ as, a.Holds σ := by
  constructor
  · rintro ⟨a, ha, hh⟩
    by_cases hin : a ∈ as
    · exact ⟨a, hin, hh⟩
    · exact absurd hh ((h.value (hc a ha)).2 (openAtoms_false ho ha hin))
  · rintro ⟨a, ha, hh⟩
    rw [(openAtoms_some ho).1] at ha
    exact ⟨a, (List.mem_filter.1 ha).1, hh⟩

theorem collectClause_holds (h : Reads P n σ) {c : List Lit} (hc : ∀ a ∈ c, a.Sorted P)
    {st st' : Collected} (hs : collectClause P so n st c = some st') :
    st'.Holds σ ↔ st.Holds σ ∧ ∃ a ∈ c, a.Holds σ := by
  unfold collectClause at hs
  split at hs
  · rename_i ho
    obtain ⟨a, ha, ht⟩ := openAtoms_none ho
    cases hs
    exact (and_iff_left ⟨a, ha, (h.value (hc a ha)).1 ht⟩).symm
  · cases hs
  · rename_i a ho
    cases hs
    rw [h.openAtoms hc ho]
    unfold Collected.Holds
    simp only [Collected.holds_unit, List.mem_singleton, exists_eq_left]
    tauto
  · rename_i as _ _ ho
    rw [h.openAtoms hc ho]
    have hj := @simplify_spec σ false so as
    rw [joined_clause] at hj
    simp only at hs
    split at hs
    · rename_i hsimp
      rw [hsimp] at hj
      cases hs
      exact (and_iff_left (hj.2 rfl)).symm
    · rename_i a hsimp
      rw [hsimp] at hj
      have hj : (∃ a ∈ as, a.Holds σ) ↔ ∃ b ∈ [a], b.Holds σ := hj.trans joined_clause
      rw [hj]
      cases hs
      unfold Collected.Holds
      simp only [Collected.holds_unit, List.mem_singleton, exists_eq_left]
      tauto
    · rename_i out _ hsimp
      rw [hsimp] at hj
      have hj : (∃ a ∈ as, a.Holds σ) ↔ ∃ a ∈ out, a.Holds σ := hj.trans joined_clause
      rw [hj]
      cases hs
      unfold Collected.Holds
      simp only [Collected.holds_clause]
      tauto

theorem collectClause_none (h : Reads P n σ) {c : List Lit} (hc : ∀ a ∈ c, a.Sorted P)
    {st : Collected} (hs : collectClause P so n st c = none) : ¬ ∃ a ∈ c, a.Holds σ := by
  unfold collectClause at hs
  split at hs
  · cases hs
  · rename_i ho
    rw [h.openAtoms hc ho]
    simp
  · cases hs
  · simp only at hs
    split at hs <;> cases hs

theorem collectClauses_holds (h : Reads P n σ) {cs : List (List Lit)}
    (hc : ∀ c ∈ cs, ∀ a ∈ c, a.Sorted P) {st st' : Collected}
    (hs : collectClauses P so n cs st = some st') :
    st'.Holds σ ↔ st.Holds σ ∧ ∀ c ∈ cs, ∃ a ∈ c, a.Holds σ := by
  induction cs generalizing st with
  | nil =>
    cases hs
    simp
  | cons c cs ih =>
    unfold collectClauses at hs
    split at hs
    · cases hs
    · rename_i st₁ h₁
      rw [ih (fun d hd => hc d (List.mem_cons_of_mem c hd)) hs,
        collectClause_holds h (hc c List.mem_cons_self) h₁, List.forall_mem_cons, and_assoc]

theorem collectClauses_none (h : Reads P n σ) {cs : List (List Lit)}
    (hc : ∀ c ∈ cs, ∀ a ∈ c, a.Sorted P) {st : Collected}
    (hs : collectClauses P so n cs st = none) : ¬ ∀ c ∈ cs, ∃ a ∈ c, a.Holds σ := by
  induction cs generalizing st with
  | nil => cases hs
  | cons c cs ih =>
    rw [List.forall_mem_cons]
    unfold collectClauses at hs
    split at hs
    · rename_i h₁
      exact fun hall => collectClause_none h (hc c List.mem_cons_self) h₁ hall.1
    · exact fun hall => ih (fun d hd => hc d (List.mem_cons_of_mem c hd)) hs hall.2

/-! ## The task -/

theorem clauses_sorted : ∀ c ∈ P.clauses, ∀ a ∈ c, a.Sorted P :=
  fun c hc a ha => P.sorted a (.inr ⟨c, hc, ha⟩)

/-- The task in its parts. -/
theorem convert_some {t : Task} (h : convertNodeToTask P so n = some t) :
    ∃ st, collectClauses P so n P.clauses ⟨[], [], 0, 0⟩ = some st ∧
      t.clauses = removeDominatedClauses st.tempClauses ∧
      ∀ σ, (∀ a ∈ t.varBounds, a.Holds σ) ↔ ∀ a ∈ st.tempUnits ++ nodeUnits P n, a.Holds σ := by
  unfold convertNodeToTask at h
  split at h
  · cases h
  · rename_i st hst
    refine ⟨st, hst, ?_⟩
    simp only at h
    split at h
    · rename_i hnil
      cases h
      exact ⟨rfl, fun σ => by simp [hnil]⟩
    · split at h
      · cases h
      · rename_i bounds hb
        cases h
        exact ⟨rfl, fun σ => by
          rw [← joined_units, ← joined_units]
          exact (simplify_some hb).symm⟩

/-- The units of the node are in the task. -/
theorem convert_units {t : Task} (h : convertNodeToTask P so n = some t) (ht : t.Holds σ) :
    ∀ a ∈ nodeUnits P n, a.Holds σ := by
  obtain ⟨st, -, -, hb⟩ := convert_some h
  exact fun a ha => (hb σ).1 ht.varBounds a (List.mem_append_right _ ha)

/-- At an admitted assignment the task says the clauses and the units. -/
theorem convert_holds (hr : Reads P n σ) {t : Task} (h : convertNodeToTask P so n = some t) :
    t.Holds σ ↔ (∀ c ∈ P.clauses, ∃ a ∈ c, a.Holds σ) ∧ ∀ a ∈ nodeUnits P n, a.Holds σ := by
  obtain ⟨st, hst, hcl, hb⟩ := convert_some h
  have hcollect := collectClauses_holds hr clauses_sorted hst
  have hempty : Collected.Holds ⟨[], [], 0, 0⟩ σ := ⟨nofun, nofun⟩
  rw [and_iff_right hempty] at hcollect
  rw [← hcollect]
  have hdom : (∀ c ∈ t.clauses, ∃ a ∈ c, a.Holds σ) ↔ ∀ c ∈ st.tempClauses, ∃ a ∈ c, a.Holds σ := by
    rw [hcl]
    exact ⟨removeDominatedClauses_holds, fun h c hc => h c (removeDominatedClauses_mem hc)⟩
  have hunits := hb σ
  simp only [List.mem_append, or_imp, forall_and] at hunits
  unfold Collected.Holds
  constructor
  · intro ht
    have hu := hunits.1 ht.varBounds
    exact ⟨⟨hu.1, hdom.1 ht.clauses⟩, hu.2⟩
  · intro ht
    exact ⟨hdom.2 ht.1.2, hunits.2 ⟨ht.1.1, ht.2⟩⟩

/-- When the conversion returns true nothing is left at the node. -/
theorem convert_none (hr : Reads P n σ) (h : convertNodeToTask P so n = none) :
    ¬ ((∀ c ∈ P.clauses, ∃ a ∈ c, a.Holds σ) ∧ ∀ a ∈ nodeUnits P n, a.Holds σ) := by
  rintro ⟨hcl, hu⟩
  unfold convertNodeToTask at h
  split at h
  · rename_i hst
    exact collectClauses_none hr clauses_sorted hst hcl
  · rename_i st hst
    have hcollect := (collectClauses_holds hr clauses_sorted hst).2 ⟨⟨nofun, nofun⟩, hcl⟩
    simp only at h
    split at h
    · cases h
    · split at h
      · rename_i hsimp
        have hall : Joined true σ (st.tempUnits ++ nodeUnits P n) :=
          joined_append.2 ⟨joined_units.2 hcollect.1, joined_units.2 hu⟩
        have := (simplify_none (σ := σ) hsimp).1 hall
        cases this
      · cases h

/-! ## The bounds in a task -/

/-- The bounds of a variable hold as literals at an admitted assignment. -/
theorem varUnits_holds (h : Admits n σ) (x : Nat) : ∀ a ∈ varUnits P n x, a.Holds σ := by
  have hlow : ∀ l, n.lower x = some l → Lit.Holds σ (.ineq x l.val true l.isOpen) :=
    fun l hl => h.side x true l hl
  have hupp : ∀ u, n.upper x = some u → Lit.Holds σ (.ineq x u.val false u.isOpen) :=
    fun u hu => h.side x false u hu
  have hb := h.bool x
  unfold varUnits
  intro a ha
  split at ha
  · exact absurd ha List.not_mem_nil
  · split at ha
    · split at ha
      · rename_i hv
        rw [hv] at hb
        rw [List.mem_singleton.1 ha]
        exact hb
      · rename_i hv
        rw [hv] at hb
        rw [List.mem_singleton.1 ha]
        exact hb
      · exact absurd ha List.not_mem_nil
    · split at ha
      · rename_i l u hl hu
        split at ha
        · rename_i he
          rw [List.mem_singleton.1 ha]
          exact h.eq_of_bounds (x := x) (by rw [show n.side x false = some u from hu]; simp [he])
            (by rw [show n.side x true = some l from hl]; simp)
        · simp only [List.mem_cons, List.not_mem_nil, or_false] at ha
          rcases ha with rfl | rfl
          · exact hlow l hl
          · exact hupp u hu
      · rename_i l hl hu
        rw [List.mem_singleton.1 ha]
        exact hlow l hl
      · rename_i u hl hu
        rw [List.mem_singleton.1 ha]
        exact hupp u hu
      · exact absurd ha List.not_mem_nil

/-- The assignment lies within the bounds and values of the base variables. -/
structure AdmitsBase (P : Problem) (n : Content) (σ : Assignment) : Prop where
  side : ∀ x lower b, P.defs x = none → n.side x lower = some b → b.Allows lower (σ.num x)
  bool : ∀ x, (n.bvalue x).Allows (σ.bool x)

/-- The bounds of a base variable are among its units. -/
theorem varUnits_side (h : n.Well P) (hn : n.inconsistent = false) {x : Nat}
    (hd : P.defs x = none) (hx : P.isBool x = false) (hu : ∀ a ∈ varUnits P n x, a.Holds σ)
    {lower : Bool} {b : Bound} (hb : n.side x lower = some b) : b.Allows lower (σ.num x) := by
  have hbounds := (h.consistent hn).1 x
  unfold varUnits at hu
  rw [if_neg (by rw [hd]; decide), if_neg (by rw [hx]; decide)] at hu
  cases hl : n.lower x with
  | none =>
    cases lower with
    | true => cases hl.symm.trans hb
    | false =>
      rw [hl, show n.upper x = some b from hb] at hu
      exact hu _ (List.mem_singleton_self _)
  | some l =>
    cases hup : n.upper x with
    | none =>
      cases lower with
      | false => cases hup.symm.trans hb
      | true =>
        rw [hup, show n.lower x = some b from hb] at hu
        exact hu _ (List.mem_singleton_self _)
    | some u =>
      rw [hl, hup] at hu
      by_cases he : l.val = u.val
      · -- two bounds at one value are closed, or they would be in conflict
        have hno : ¬ l.Crosses true u := by
          intro hc
          have hside : n.side x true = some l := hl
          rw [Content.conflictingBounds_of hside hup hc] at hbounds
          cases hbounds
        have hclosed : l.isOpen = false ∧ u.isOpen = false := by
          unfold Bound.Crosses at hno
          grind
        have hv : σ.num x = l.val := by
          simp only [if_pos he] at hu
          exact hu _ (List.mem_singleton_self _)
        cases lower with
        | false =>
          cases hup.symm.trans hb
          rw [Bound.allows_upper]
          exact .inr ⟨hclosed.2, by rw [hv, he]⟩
        | true =>
          cases hl.symm.trans hb
          rw [Bound.allows_lower]
          exact .inr ⟨hclosed.1, hv.symm⟩
      · simp only [if_neg he] at hu
        cases lower with
        | false =>
          cases hup.symm.trans hb
          exact hu _ (List.mem_cons_of_mem _ (List.mem_singleton_self _))
        | true =>
          cases hl.symm.trans hb
          exact hu _ List.mem_cons_self

/-- A Boolean variable has no definition. -/
theorem defs_none_of_isBool {x : Nat} (hx : P.isBool x = true) : P.defs x = none := by
  cases hd : P.defs x with
  | none => rfl
  | some d =>
    rw [(P.defs_arith x d hd).1] at hx
    cases hx

/-- What the units say of the base variables holds of an assignment that
satisfies them. -/
theorem varUnits_admit (h : n.Well P) (hn : n.inconsistent = false)
    (hu : ∀ x < P.numVars, ∀ a ∈ varUnits P n x, a.Holds σ) : AdmitsBase P n σ := by
  constructor
  · intro x lower b hx hb
    obtain ⟨hlt, hbool⟩ := h.scope x lower b hb
    exact varUnits_side h hn hx hbool (hu x hlt) hb
  · intro x
    have hbool : n.bvalue x ≠ .arith → P.isBool x = true := by
      intro ha
      rw [Ne, h.arith, Bool.not_eq_false] at ha
      exact ha
    cases hv : n.bvalue x with
    | conflict => exact absurd hv ((h.consistent hn).2 x)
    | undef => trivial
    | arith => trivial
    | false =>
      have hx := hbool (by rw [hv]; decide)
      exact hu x (h.bools x (.inr hv)) (.bool x true) (by
        simp [varUnits, defs_none_of_isBool hx, hx, hv])
    | true =>
      have hx := hbool (by rw [hv]; decide)
      exact hu x (h.bools x (.inl hv)) (.bool x false) (by
        simp [varUnits, defs_none_of_isBool hx, hx, hv])

/-! ## Open literals -/

theorem collectClause_undef {c : List Lit} {st st' : Collected}
    (hs : collectClause P so n st c = some st')
    (hst : ∀ d ∈ st.tempClauses, ∀ a ∈ d, value P n a = .undef) :
    ∀ d ∈ st'.tempClauses, ∀ a ∈ d, value P n a = .undef := by
  unfold collectClause at hs
  split at hs
  · cases hs
    exact hst
  · cases hs
  · cases hs
    exact hst
  · rename_i as _ _ ho
    simp only at hs
    split at hs
    · cases hs
      exact hst
    · cases hs
      exact hst
    · rename_i out _ hsimp
      cases hs
      intro d hd a ha
      rcases List.mem_append.1 hd with hd | hd
      · exact hst d hd a ha
      · rw [List.mem_singleton.1 hd] at ha
        have hmem := simplify_mem hsimp ha
        rw [(openAtoms_some ho).1] at hmem
        exact of_decide_eq_true (List.mem_filter.1 hmem).2

theorem collectClauses_undef {cs : List (List Lit)} {st st' : Collected}
    (hs : collectClauses P so n cs st = some st')
    (hst : ∀ d ∈ st.tempClauses, ∀ a ∈ d, value P n a = .undef) :
    ∀ d ∈ st'.tempClauses, ∀ a ∈ d, value P n a = .undef := by
  induction cs generalizing st with
  | nil =>
    cases hs
    exact hst
  | cons c cs ih =>
    unfold collectClauses at hs
    split at hs
    · cases hs
    · rename_i st₁ h₁
      exact ih hs (collectClause_undef h₁ hst)

/-- A literal in a clause of the task is open at the node. -/
theorem convert_undef {t : Task} (h : convertNodeToTask P so n = some t) :
    ∀ c ∈ t.clauses, ∀ a ∈ c, value P n a = .undef := by
  obtain ⟨st, hst, hcl, -⟩ := convert_some h
  rw [hcl]
  exact fun c hc => collectClauses_undef hst nofun c (removeDominatedClauses_mem hc)

end AriParti.L1
