import AriParti.L1Bounds.Meaning

/-!
# Simplifying keeps the meaning

`simplify_ineqs_in_clause` keeps, for each variable, the tightest (or, in a
clause, the loosest) bound on either side, and compares the equations with
them. The loop sees the inequalities of a variable before its equations; that
order matters, since an equation may make the bounds met so far redundant
(`eq_covered`), and a bound met later would be lost.

## Results

* `simplify_some`, `simplify_none`: the literals returned mean the same, and
  `return true` means a clause that always holds or a conjunction that never
  does.
* `simplify_meaning`: both modes spelled out.
* `simplify_mem`: nothing new is written.
-/
namespace AriParti.L1

variable {σ : Assignment} {conj : Bool}

/-- All literals hold, or some literal does. -/
def Joined (conj : Bool) (σ : Assignment) (ls : List Lit) : Prop :=
  if conj then ∀ l ∈ ls, l.Holds σ else ∃ l ∈ ls, l.Holds σ

/-- The connective of the literals. -/
def Glue (conj : Bool) (p q : Prop) : Prop := if conj then p ∧ q else p ∨ q

section Glue

variable {p q r : Prop}

theorem glue_comm : Glue conj p q ↔ Glue conj q p := by
  cases conj
  · exact or_comm
  · exact and_comm

theorem glue_assoc : Glue conj (Glue conj p q) r ↔ Glue conj p (Glue conj q r) := by
  cases conj
  · exact or_assoc
  · exact and_assoc

end Glue

theorem joined_nil : Joined conj σ [] ↔ conj = true := by
  cases conj <;> simp [Joined]

theorem joined_singleton {l : Lit} : Joined conj σ [l] ↔ l.Holds σ := by
  cases conj <;> simp [Joined]

theorem joined_append {as bs : List Lit} :
    Joined conj σ (as ++ bs) ↔ Glue conj (Joined conj σ as) (Joined conj σ bs) := by
  cases conj <;> simp [Joined, Glue, or_and_right, exists_or, or_imp, forall_and]

theorem joined_perm {as bs : List Lit} (h : as.Perm bs) : Joined conj σ as ↔ Joined conj σ bs := by
  cases conj <;> simp [Joined, h.mem_iff]

theorem ineqLitCmp_ne_one {lower : Bool} {a b : Bound} :
    ineqLitCmp lower a b ≠ 1 ↔ b.Within lower a := by
  unfold ineqLitCmp Bound.Within
  cases lower <;> grind

theorem ineqLitCmp_ne_neg_one {lower : Bool} {a b : Bound} :
    ineqLitCmp lower a b ≠ -1 ↔ a.Within lower b := by
  unfold ineqLitCmp Bound.Within
  cases lower <;> grind

namespace Simplifier

variable {st st' : Simplifier} {seen ls : List Lit} {l : Lit}

/-- The bounds met for the current variable. -/
def boundLits (st : Simplifier) : List Lit :=
  lbLit (st.currentVar.getD 0) st.currentLb ++ ubLit (st.currentVar.getD 0) st.currentUb

/-- What the loop knows after `seen`, with `ls` to come. -/
structure Sound (conj : Bool) (σ : Assignment) (st : Simplifier) (seen ls : List Lit) : Prop where
  joined : Joined conj σ seen ↔ Joined conj σ (st.output ++ st.boundLits)
  covered : st.eqCovered = true →
    (Joined conj σ st.output ↔ Joined conj σ (st.output ++ st.boundLits))
  order : st.eqCovered = true → ∀ l ∈ ls, st.currentVar = some l.x → l.isIneqLit = false

/-- What a bound met so far adds. -/
def Met (conj lower : Bool) (v : ℝ) : Option Bound → Prop
  | none => conj = true
  | some b => b.Allows lower v

theorem joined_boundLits : Joined conj σ st.boundLits ↔
    Glue conj (Met conj true (σ.num (st.currentVar.getD 0)) st.currentLb)
      (Met conj false (σ.num (st.currentVar.getD 0)) st.currentUb) := by
  unfold boundLits
  rw [joined_append]
  have hlow : Joined conj σ (lbLit (st.currentVar.getD 0) st.currentLb) ↔
      Met conj true (σ.num (st.currentVar.getD 0)) st.currentLb := by
    cases st.currentLb
    · exact joined_nil
    · exact joined_singleton
  have hupp : Joined conj σ (ubLit (st.currentVar.getD 0) st.currentUb) ↔
      Met conj false (σ.num (st.currentVar.getD 0)) st.currentUb := by
    cases st.currentUb
    · exact joined_nil
    · exact joined_singleton
  rw [hlow, hupp]

/-- What a round leaves: the state is sound, or the literals so far decide. -/
def Round (conj : Bool) (σ : Assignment) (seen ls : List Lit) : Option Simplifier → Prop
  | some st => Sound conj σ st seen ls
  | none => ∀ rest, Joined conj σ (seen ++ rest) ↔ conj = false

/-- Two bounds that decide the whole decide it for every assignment. -/
theorem joined_of_decided (h : decided conj st.currentLb st.currentUb = true) :
    Joined conj σ st.boundLits ↔ conj = false := by
  rw [joined_boundLits]
  generalize σ.num (st.currentVar.getD 0) = v
  unfold decided at h
  split at h
  · rename_i l u hl hu
    rw [hl, hu]
    show Glue conj (l.Allows true v) (u.Allows false v) ↔ conj = false
    cases conj
    · -- every value lies above the lower bound or below the upper one
      suffices l.Allows true v ∨ u.Allows false v by simpa [Glue] using this
      rw [Bound.allows_lower, Bound.allows_upper]
      have h : l.val < u.val ∨ l.val = u.val ∧ (l.isOpen = false ∨ u.isOpen = false) := by
        simpa using h
      rcases h with h | ⟨h, ho⟩
      · have h : (l.val : ℝ) < u.val := by exact_mod_cast h
        rcases lt_or_ge (l.val : ℝ) v with hv | hv
        · exact .inl (.inl hv)
        · exact .inr (.inl (hv.trans_lt h))
      · rw [← h]
        rcases lt_trichotomy (l.val : ℝ) v with hv | hv | hv
        · exact .inl (.inl hv)
        · exact ho.imp (fun ho => .inr ⟨ho, hv⟩) fun ho => .inr ⟨ho, hv.symm⟩
        · exact .inr (.inl hv)
    · have hc : l.Crosses true u := by
        unfold Bound.Crosses
        simpa using h
      simpa [Glue] using hc.not_allows (v := v)
  · cases h

/-- An equation is compared with the bounds by its constant. -/
theorem containVal_iff {k : ℚ} (hk : σ.num (st.currentVar.getD 0) = k) :
    st.containVal conj k = true ↔ Joined conj σ st.boundLits := by
  rw [joined_boundLits, hk]
  have hlow : ∀ b : Bound, b.Allows true (k : ℝ) ↔ b.val < k ∨ b.isOpen = false ∧ b.val = k := by
    intro b
    rw [Bound.allows_lower]
    norm_cast
  have hupp : ∀ b : Bound, b.Allows false (k : ℝ) ↔ k < b.val ∨ b.isOpen = false ∧ k = b.val := by
    intro b
    rw [Bound.allows_upper]
    norm_cast
  unfold containVal Met Glue
  cases st.currentLb <;> cases st.currentUb <;> cases conj <;> grind

/-! ## One round -/

theorem collect_none (hs : Sound conj σ st seen ls) (h : st.collectLitBounds conj = none)
    (rest : List Lit) : Joined conj σ (seen ++ rest) ↔ conj = false := by
  unfold collectLitBounds at h
  split at h
  · rename_i hd
    have hb := joined_of_decided (σ := σ) hd
    rw [joined_append, hs.joined, joined_append]
    unfold Glue
    cases conj <;> simp_all
  · cases h

theorem collect_some (hs : Sound conj σ st seen ls) (h : st.collectLitBounds conj = some st') :
    (Joined conj σ seen ↔ Joined conj σ st'.output) ∧ st'.currentLb = none ∧
      st'.currentUb = none := by
  unfold collectLitBounds at h
  split at h
  · cases h
  · cases h
    refine ⟨?_, rfl, rfl⟩
    rw [hs.joined]
    show _ ↔ Joined conj σ (st.output ++ if st.eqCovered = true then [] else st.boundLits)
    split
    · rename_i hc
      rw [List.append_nil]
      exact (hs.covered hc).symm
    · rfl

/-- Between two bounds on one side the tighter is kept in a conjunction, the
looser in a clause. -/
theorem replaceBound_met (lower : Bool) (b : Bound) (ob : Option Bound) (v : ℝ) :
    Met conj lower v (replaceBound conj lower b ob) ↔
      Glue conj (Met conj lower v ob) (b.Allows lower v) := by
  unfold replaceBound
  cases ob with
  | none => cases conj <;> simp [Met, Glue]
  | some cb =>
    by_cases hc : ineqLitCmp lower b cb = if conj = true then 1 else -1
    · simp only [if_pos hc]
      show b.Allows lower v ↔ Glue conj (cb.Allows lower v) (b.Allows lower v)
      cases conj
      · have hw : cb.Within lower b := ineqLitCmp_ne_one.1 (by rw [hc]; decide)
        exact ⟨.inr, fun h => h.elim hw.allows id⟩
      · have hw : b.Within lower cb := ineqLitCmp_ne_neg_one.1 (by rw [hc]; decide)
        exact ⟨fun h => ⟨hw.allows h, h⟩, And.right⟩
    · simp only [if_neg hc]
      show cb.Allows lower v ↔ Glue conj (cb.Allows lower v) (b.Allows lower v)
      cases conj
      · have hw : b.Within lower cb := ineqLitCmp_ne_neg_one.1 hc
        exact ⟨.inl, fun h => h.elim id hw.allows⟩
      · have hw : cb.Within lower b := ineqLitCmp_ne_one.1 hc
        exact ⟨fun h => ⟨h, hw.allows h⟩, And.left⟩

/-- After an equation of a variable its inequalities are over. -/
theorem not_ineq_after_eq {x : Nat} {k : ℚ} {neg : Bool} {l : Lit}
    (h : litLt l (.eq x k neg) = false) (hx : l.x = x) : l.isIneqLit = false := by
  rw [litLt_false_iff] at h
  cases l with
  | ineq y k' lower isOpen =>
    have hx : y = x := hx
    have h : 3 * x + 2 ≤ 3 * y + 1 := h
    omega
  | _ => rfl

/-- A literal written as it is. -/
theorem Sound.write (hs : Sound conj σ st seen (l :: ls)) :
    Sound conj σ { st with output := st.output ++ [l] } (seen ++ [l]) ls := by
  have hb : boundLits { st with output := st.output ++ [l] } = st.boundLits := rfl
  have hj := hs.joined
  have hc := hs.covered
  rw [joined_append] at hj hc
  refine ⟨?_, fun hcov => ?_, fun hcov m hm => hs.order hcov m (List.mem_cons_of_mem l hm)⟩
  · rw [hb, joined_append, joined_append, joined_append, hj, glue_assoc, glue_assoc,
      glue_comm (p := Joined conj σ st.boundLits)]
  · show Joined conj σ (st.output ++ [l]) ↔ Joined conj σ (st.output ++ [l] ++ _)
    have hc := hc hcov
    rw [hb, joined_append, joined_append, joined_append]
    unfold Glue at *
    cases conj
    · simp only [Bool.false_eq_true, if_false] at hc ⊢
      tauto
    · simp only [if_true] at hc ⊢
      tauto

/-- A bound compared with the one on its side. -/
theorem takeLit_ineq {k : ℚ} {lower isOpen : Bool}
    (hs : Sound conj σ st seen (.ineq (st.currentVar.getD 0) k lower isOpen :: ls))
    (hx : st.currentVar = some (st.currentVar.getD 0)) :
    Round conj σ (seen ++ [.ineq (st.currentVar.getD 0) k lower isOpen]) ls
      (st.takeLit conj (.ineq (st.currentVar.getD 0) k lower isOpen)) := by
  have hno : st.eqCovered ≠ true := by
    intro hc
    have := hs.order hc _ List.mem_cons_self hx
    cases this
  have hj := hs.joined
  rw [joined_append, joined_boundLits] at hj
  have hlit : Joined conj σ [.ineq (st.currentVar.getD 0) k lower isOpen] ↔
      (Bound.mk k isOpen).Allows lower (σ.num (st.currentVar.getD 0)) := joined_singleton
  cases lower
  · refine ⟨?_, fun hc => absurd hc hno, fun hc => absurd hc hno⟩
    rw [joined_append, joined_append, joined_boundLits, hj, hlit, glue_assoc, glue_assoc]
    show _ ↔ Glue conj _ (Glue conj _ (Met conj false _ (replaceBound _ _ _ _)))
    rw [replaceBound_met]
  · refine ⟨?_, fun hc => absurd hc hno, fun hc => absurd hc hno⟩
    rw [joined_append, joined_append, joined_boundLits, hj, hlit, glue_assoc, glue_assoc]
    show _ ↔ Glue conj _ (Glue conj (Met conj true _ (replaceBound _ _ _ _)) _)
    rw [replaceBound_met, glue_assoc, glue_comm (p := Bound.Allows _ _ _)]

/-- An equation against the bounds met for its variable. -/
theorem takeLit_eq {k : ℚ} {neg : Bool}
    (hs : Sound conj σ st seen (.eq (st.currentVar.getD 0) k neg :: ls))
    (hsort : ∀ m ∈ ls, litLt m (.eq (st.currentVar.getD 0) k neg) = false) :
    Round conj σ (seen ++ [.eq (st.currentVar.getD 0) k neg]) ls
      (st.takeLit conj (.eq (st.currentVar.getD 0) k neg)) := by
  have hval : σ.num (st.currentVar.getD 0) = k →
      (st.containVal conj k = true ↔ Joined conj σ st.boundLits) := containVal_iff
  have hj := hs.joined
  rw [joined_append] at hj
  have hlit : Joined conj σ [.eq (st.currentVar.getD 0) k neg] ↔
      if neg = true then σ.num (st.currentVar.getD 0) ≠ k else σ.num (st.currentVar.getD 0) = k :=
    joined_singleton
  -- the literal is written and makes the bounds redundant
  have hcover : (Joined conj σ (st.output ++ [.eq (st.currentVar.getD 0) k neg]) ↔
      Joined conj σ ((st.output ++ [.eq (st.currentVar.getD 0) k neg]) ++ st.boundLits)) →
      Sound conj σ { st with
        output := st.output ++ [.eq (st.currentVar.getD 0) k neg], eqCovered := true }
        (seen ++ [.eq (st.currentVar.getD 0) k neg]) ls := fun hc =>
    ⟨hs.write.joined, fun _ => hc, fun _ m hm hx => not_ineq_after_eq (hsort m hm) (by
      have hx : st.currentVar = some m.x := hx
      rw [hx]
      rfl)⟩
  -- the bounds make the literal redundant
  have hdrop : (Joined conj σ seen ↔ Joined conj σ (seen ++ [.eq (st.currentVar.getD 0) k neg])) →
      Sound conj σ st (seen ++ [.eq (st.currentVar.getD 0) k neg]) ls := fun hc =>
    ⟨hc.symm.trans hs.joined, hs.covered,
      fun hcov m hm => hs.order hcov m (List.mem_cons_of_mem _ hm)⟩
  rw [joined_append, joined_append, joined_append, hlit] at hcover
  rw [joined_append, hj, hlit] at hdrop
  unfold takeLit
  cases conj
  · -- a clause: the bounds contain `k` or leave it out
    cases hc : st.containVal false k <;> rw [hc] at hval <;>
      simp only [Glue, Bool.false_eq_true, if_false, true_iff, false_iff, hc]
        at hval hcover hdrop ⊢
    · cases neg <;> simp only [Bool.false_eq_true, if_false, if_true] at hcover ⊢
      · exact hs.write
      · apply hcover
        grind
    · cases neg <;> simp only [Bool.false_eq_true, if_false, if_true] at hdrop hlit ⊢
      · apply hdrop
        grind
      · intro rest
        rw [joined_append, joined_append, hj, hlit]
        simp only [Glue, Bool.false_eq_true, if_false, iff_true]
        grind
  · -- a conjunction
    cases hc : st.containVal true k <;> rw [hc] at hval <;>
      simp only [Glue, Bool.false_eq_true, if_false, if_true, true_iff, false_iff, hc]
        at hval hcover hdrop ⊢
    · cases neg <;> simp only [Bool.false_eq_true, if_false, if_true] at hdrop hlit ⊢
      · intro rest
        rw [joined_append, joined_append, hj, hlit]
        simp only [Glue, if_true, Bool.true_eq_false, iff_false]
        grind
      · apply hdrop
        grind
    · cases neg <;> simp only [Bool.false_eq_true, if_false, if_true] at hcover ⊢
      · apply hcover
        grind
      · exact hs.write

theorem takeLit_round (hs : Sound conj σ st seen (l :: ls)) (hx : st.currentVar = some l.x)
    (hsort : ∀ m ∈ ls, litLt m l = false) :
    Round conj σ (seen ++ [l]) ls (st.takeLit conj l) := by
  cases l with
  | bool x neg => exact hs.write
  | eq x k neg =>
    have hx' : x = st.currentVar.getD 0 := by rw [hx]; rfl
    subst hx'
    exact takeLit_eq hs hsort
  | ineq x k lower isOpen =>
    have hx' : x = st.currentVar.getD 0 := by rw [hx]; rfl
    subst hx'
    exact takeLit_ineq hs hx

theorem step_round (hs : Sound conj σ st seen (l :: ls)) (hsort : ∀ m ∈ ls, litLt m l = false) :
    Round conj σ (seen ++ [l]) ls (st.step conj l) := by
  unfold step
  split
  · rename_i hx
    exact takeLit_round hs hx hsort
  · split
    · rename_i hn
      intro rest
      rw [List.append_assoc]
      exact collect_none hs hn _
    · rename_i st₁ h₁
      obtain ⟨hj, hl, hu⟩ := collect_some hs h₁
      apply takeLit_round _ rfl hsort
      have hb : boundLits { st₁ with currentVar := some l.x, eqCovered := false } = [] := by
        unfold boundLits
        rw [show Simplifier.currentLb { st₁ with currentVar := some l.x, eqCovered := false } =
            none from hl,
          show Simplifier.currentUb { st₁ with currentVar := some l.x, eqCovered := false } =
            none from hu]
        rfl
      refine ⟨?_, nofun, nofun⟩
      rw [hb, List.append_nil]
      exact hj

/-- The whole loop: the literals returned mean the same, and `return true`
decides. -/
theorem run_spec (hs : Sound conj σ st seen ls)
    (hsort : ls.Pairwise fun a b => litLt b a = false) :
    match run conj st ls with
    | some out => Joined conj σ (seen ++ ls) ↔ Joined conj σ out
    | none => Joined conj σ (seen ++ ls) ↔ conj = false := by
  induction ls generalizing st seen with
  | nil =>
    unfold run
    cases hc : st.collectLitBounds conj with
    | none => exact collect_none hs hc []
    | some st' =>
      rw [List.append_nil]
      exact (collect_some hs hc).1
  | cons l ls ih =>
    rw [List.pairwise_cons] at hsort
    have hstep := step_round hs hsort.1
    have happ : seen ++ l :: ls = seen ++ [l] ++ ls := by simp
    unfold run
    rw [happ]
    cases hc : st.step conj l with
    | none =>
      rw [hc] at hstep
      exact hstep ls
    | some st' =>
      rw [hc] at hstep
      exact ih hstep hsort.2

end Simplifier

variable {so : Sorting} {input out : List Lit}

theorem simplify_spec :
    match simplifyIneqsInClause so input conj with
    | some out => Joined conj σ input ↔ Joined conj σ out
    | none => Joined conj σ input ↔ conj = false := by
  have hs : Simplifier.Sound conj σ .init [] (so.sort input) := ⟨Iff.rfl, nofun, nofun⟩
  have hrun := Simplifier.run_spec hs (so.sorted input)
  rw [List.nil_append, joined_perm (so.perm input)] at hrun
  exact hrun

theorem simplify_some (h : simplifyIneqsInClause so input conj = some out) :
    Joined conj σ input ↔ Joined conj σ out := by
  have := @simplify_spec σ conj so input
  rwa [h] at this

theorem simplify_none (h : simplifyIneqsInClause so input conj = none) :
    Joined conj σ input ↔ conj = false := by
  have := @simplify_spec σ conj so input
  rwa [h] at this

/-- Some assignment satisfies a literal. -/
theorem Lit.exists_holds (l : Lit) : ∃ σ, l.Holds σ := by
  cases l with
  | bool x neg => exact ⟨⟨fun _ => 0, fun _ => !neg⟩, rfl⟩
  | eq x k neg =>
    cases neg
    · exact ⟨⟨fun _ => k, fun _ => false⟩, rfl⟩
    · refine ⟨⟨fun _ => k + 1, fun _ => false⟩, ?_⟩
      show (k : ℝ) + 1 ≠ k
      simp
  | ineq x k lower isOpen =>
    cases lower
    · refine ⟨⟨fun _ => k - 1, fun _ => false⟩, ?_⟩
      exact Bound.allows_upper.2 (.inl (sub_one_lt _))
    · refine ⟨⟨fun _ => k + 1, fun _ => false⟩, ?_⟩
      exact Bound.allows_lower.2 (.inl (lt_add_one _))

/-- **Simplifying keeps the meaning** of a conjunction and of a clause, for
any order `std::sort` gives to equivalent literals: `return true` means that
the conjunction never holds, or the clause always does, and otherwise the
literals returned hold exactly when the literals given do. A clause that is
not empty stays so. -/
theorem simplify_meaning (so : Sorting) (input : List Lit) :
    (simplifyIneqsInClause so input true = none → ∀ σ, ¬ ∀ l ∈ input, l.Holds σ) ∧
    (∀ out, simplifyIneqsInClause so input true = some out →
      ∀ σ, (∀ l ∈ input, l.Holds σ) ↔ ∀ l ∈ out, l.Holds σ) ∧
    (simplifyIneqsInClause so input false = none → ∀ σ, ∃ l ∈ input, l.Holds σ) ∧
    ∀ out, simplifyIneqsInClause so input false = some out →
      (∀ σ, (∃ l ∈ input, l.Holds σ) ↔ ∃ l ∈ out, l.Holds σ) ∧ (input ≠ [] → out ≠ []) := by
  have hall : ∀ σ ls, Joined true σ ls ↔ ∀ l ∈ ls, l.Holds σ := fun _ _ => Iff.rfl
  have hsome : ∀ σ ls, Joined false σ ls ↔ ∃ l ∈ ls, l.Holds σ := fun σ ls => by simp [Joined]
  refine ⟨fun h σ hσ => ?_, fun out h σ => ?_, fun h σ => ?_, fun out h => ⟨fun σ => ?_, ?_⟩⟩
  · cases (simplify_none h).1 ((hall σ input).2 hσ)
  · rw [← hall, ← hall]
    exact simplify_some h
  · rw [← hsome]
    exact (simplify_none h).2 rfl
  · rw [← hsome, ← hsome]
    exact simplify_some h
  · intro hne hnil
    obtain ⟨l, hl⟩ := List.exists_mem_of_ne_nil input hne
    obtain ⟨σ, hσ⟩ := l.exists_holds
    have hout := (simplify_some h).1 ((hsome σ input).2 ⟨l, hl, hσ⟩)
    rw [hnil, joined_nil] at hout
    cases hout

/-! ## Nothing new is written -/

namespace Simplifier

variable {st st' : Simplifier} {seen ls : List Lit} {l : Lit}

/-- What has been written, and the bounds kept, are literals of `seen`. -/
def Written (seen : List Lit) (st : Simplifier) : Prop :=
  ∀ m ∈ st.output ++ st.boundLits, m ∈ seen

theorem mem_boundLits {m : Lit} : m ∈ st.boundLits ↔
    (∃ b, st.currentLb = some b ∧ m = .ineq (st.currentVar.getD 0) b.val true b.isOpen) ∨
      ∃ b, st.currentUb = some b ∧ m = .ineq (st.currentVar.getD 0) b.val false b.isOpen := by
  unfold boundLits
  rw [List.mem_append]
  cases st.currentLb <;> cases st.currentUb <;> simp [lbLit, ubLit]

theorem replaceBound_mem {lower : Bool} {b b' : Bound} {ob : Option Bound}
    (h : replaceBound conj lower b ob = some b') : b' = b ∨ ob = some b' := by
  unfold replaceBound at h
  grind

theorem Written.collect (hs : Written seen st) (h : st.collectLitBounds conj = some st') :
    (∀ m ∈ st'.output, m ∈ seen) ∧ st'.currentLb = none ∧ st'.currentUb = none := by
  unfold collectLitBounds at h
  split at h
  · cases h
  · cases h
    refine ⟨fun m hm => ?_, rfl, rfl⟩
    have hm : m ∈ st.output ++ if st.eqCovered = true then [] else st.boundLits := hm
    rcases List.mem_append.1 hm with hm | hm
    · exact hs m (List.mem_append_left _ hm)
    · split at hm
      · exact absurd hm List.not_mem_nil
      · exact hs m (List.mem_append_right _ hm)

theorem Written.takeLit (hs : Written seen st) (hx : st.currentVar = some l.x)
    (h : st.takeLit conj l = some st') : Written (seen ++ [l]) st' := by
  have hmem : l ∈ seen ++ [l] := List.mem_append_right _ (List.mem_singleton_self l)
  have hkeep : Written (seen ++ [l]) st := fun m hm => List.mem_append_left _ (hs m hm)
  -- the three shapes of the next state
  have hwrite : ∀ c, Written (seen ++ [l]) { st with output := st.output ++ [l], eqCovered := c } := by
    intro c m hm
    have hm : m ∈ st.output ++ [l] ++ st.boundLits := hm
    rw [List.mem_append, List.mem_append, List.mem_singleton] at hm
    rcases hm with (hm | rfl) | hm
    · exact hkeep m (List.mem_append_left _ hm)
    · exact hmem
    · exact hkeep m (List.mem_append_right _ hm)
  cases l with
  | bool x neg =>
    cases h
    exact hwrite st.eqCovered
  | eq x k neg =>
    unfold Simplifier.takeLit at h
    simp only at h
    split at h
    · split at h
      · split at h <;> cases h <;> exact hwrite _
      · split at h <;> cases h
        exact hkeep
    · split at h
      · split at h <;> cases h
        exact hkeep
      · split at h <;> cases h <;> exact hwrite _
  | ineq x k lower isOpen =>
    have hx' : st.currentVar.getD 0 = x := by rw [hx]; rfl
    have hlit : ∀ b : Bound, b = ⟨k, isOpen⟩ →
        Lit.ineq (st.currentVar.getD 0) b.val lower b.isOpen ∈ seen ++ [.ineq x k lower isOpen] := by
      rintro b rfl
      rwa [hx']
    cases lower
    · cases h
      intro m hm
      rcases List.mem_append.1 hm with hm | hm
      · exact hkeep m (List.mem_append_left _ hm)
      · rcases mem_boundLits.1 hm with ⟨b, hb, rfl⟩ | ⟨b, hb, rfl⟩
        · exact hkeep _ (List.mem_append_right _ (mem_boundLits.2 (.inl ⟨b, hb, rfl⟩)))
        · rcases replaceBound_mem hb with hb | hb
          · exact hlit b hb
          · exact hkeep _ (List.mem_append_right _ (mem_boundLits.2 (.inr ⟨b, hb, rfl⟩)))
    · cases h
      intro m hm
      rcases List.mem_append.1 hm with hm | hm
      · exact hkeep m (List.mem_append_left _ hm)
      · rcases mem_boundLits.1 hm with ⟨b, hb, rfl⟩ | ⟨b, hb, rfl⟩
        · rcases replaceBound_mem hb with hb | hb
          · exact hlit b hb
          · exact hkeep _ (List.mem_append_right _ (mem_boundLits.2 (.inl ⟨b, hb, rfl⟩)))
        · exact hkeep _ (List.mem_append_right _ (mem_boundLits.2 (.inr ⟨b, hb, rfl⟩)))

theorem Written.step (hs : Written seen st) (h : st.step conj l = some st') :
    Written (seen ++ [l]) st' := by
  unfold Simplifier.step at h
  split at h
  · rename_i hx
    exact hs.takeLit hx h
  · split at h
    · cases h
    · rename_i st₁ h₁
      obtain ⟨hout, hl, hu⟩ := hs.collect h₁
      suffices hw : Written seen { st₁ with currentVar := some l.x, eqCovered := false } from
        hw.takeLit rfl h
      intro m hm
      rcases List.mem_append.1 hm with hm | hm
      · exact hout m hm
      · rcases mem_boundLits.1 hm with ⟨b, hb, -⟩ | ⟨b, hb, -⟩
        · have hb : st₁.currentLb = some b := hb
          rw [hl] at hb
          cases hb
        · have hb : st₁.currentUb = some b := hb
          rw [hu] at hb
          cases hb

theorem Written.run (hs : Written seen st) {out : List Lit} (h : run conj st ls = some out) :
    ∀ m ∈ out, m ∈ seen ++ ls := by
  induction ls generalizing st seen with
  | nil =>
    unfold Simplifier.run at h
    rw [Option.map_eq_some_iff] at h
    obtain ⟨st', h, rfl⟩ := h
    rw [List.append_nil]
    exact (hs.collect h).1
  | cons l ls ih =>
    unfold Simplifier.run at h
    split at h
    · cases h
    · rename_i st' hstep
      have := ih (hs.step hstep) h
      rwa [List.append_assoc] at this

end Simplifier

theorem simplify_mem (h : simplifyIneqsInClause so input conj = some out) {l : Lit}
    (hl : l ∈ out) : l ∈ input := by
  have hs : Simplifier.Written [] .init := fun m hm => absurd hm List.not_mem_nil
  have := hs.run h l hl
  rw [List.nil_append] at this
  exact (so.perm input).mem_iff.1 this

end AriParti.L1
