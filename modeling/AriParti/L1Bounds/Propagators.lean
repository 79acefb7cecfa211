import Mathlib.Algebra.BigOperators.Ring.List
import AriParti.L1Bounds.Derive

/-!
# The propagators are sound

Every propagator is a run of justified moves: what it stores follows from the
bounds it reads, by the enclosures of the interval operations and the value of
the defined variable.

## Results

* `propagateDef_derives`: a visit of a definition.
* `propagateAtom_derives`, `propagateClause_cases`: a visit of a clause.
* `assertUnits_derives`, `propagateAllDefinitions_derives`: the root.
-/
namespace AriParti.L1

variable {P : Problem} {pr : Params} {im : IntervalManager} {S : Assignment → Prop}
  {n n' : Content}

/-- A consistent node that admits every assignment of `S`. -/
structure Ready (P : Problem) (S : Assignment → Prop) (n : Content) : Prop where
  well : n.Well P
  consistent : n.inconsistent = false
  respects : ∀ σ, S σ → Respects P σ
  ints : ∀ σ, S σ → ∀ x, P.isInt x = true → ∃ k : ℤ, σ.num x = k
  admits : ∀ σ, S σ → Admits n σ

theorem Ready.derives (h : Ready P S n) (hd : Derives P S n n') (hn : n'.inconsistent = false) :
    Ready P S n' :=
  ⟨hd.well h.well, hn, h.respects, h.ints,
    fun σ hσ => hd.admits h.well hσ (h.ints σ hσ) (h.admits σ hσ)⟩

/-! ## Storing both ends of an interval -/

section Ends

variable {y : Nat} {r : Interval}

/-- The end on the side `lower` becomes a bound if it is relevant. -/
def Content.storeEnd (P : Problem) (pr : Params) (n : Content) (y : Nat) (lower : Bool)
    (e : Option Bound) : Content :=
  match e with
  | none => n
  | some b =>
    if n.relevantNewBound pr y b.val lower b.isOpen then n.propagateBound P y b.val lower b.isOpen
    else n

theorem storeEnd_derives (hy : y < P.numVars ∧ P.isBool y = false) {lower : Bool}
    {e : Option Bound} (he : ∀ σ, S σ → ∀ b, e = some b → b.Allows lower (σ.num y))
    (hn : n.inconsistent = false) : Derives P S n (n.storeEnd P pr y lower e) := by
  unfold Content.storeEnd
  split
  · exact .refl
  · rename_i b
    split
    · exact Derives.refl.bound y b.val lower b.isOpen hn hy.1 hy.2 fun σ hσ => he σ hσ b rfl
    · exact .refl

theorem propagateInterval_derives (hn : n.inconsistent = false)
    (hy : y < P.numVars ∧ P.isBool y = false) (hr : ∀ σ, S σ → r.Mem (σ.num y)) :
    Derives P S n (n.propagateInterval P pr y r) := by
  have hupper : ∀ n', n'.inconsistent = false →
      Derives P S n' (n'.storeEnd P pr y false r.upper) :=
    fun n' hn' => storeEnd_derives hy (fun σ hσ => (hr σ hσ).upper) hn'
  unfold Content.propagateInterval
  cases hl : r.lower with
  | none => exact hupper n hn
  | some l =>
    simp only
    split
    · have hlow : Derives P S n (n.propagateBound P y l.val true l.isOpen) :=
        Derives.refl.bound y l.val true l.isOpen hn hy.1 hy.2 fun σ hσ => (hr σ hσ).lower l hl
      split
      · exact hlow
      · rename_i hc
        exact hlow.trans (hupper _ (Bool.eq_false_iff.2 hc))
    · exact hupper n hn

end Ends

/-! ## Sums -/

theorem foldl_add_mem {σ : Assignment} (ha : Admits n σ) (ts : List (ℚ × Nat)) {r : Interval}
    {v : ℝ} (hr : r.Mem v) :
    (ts.foldl (fun r t => im.add r (im.scale t.1 (n.interval t.2))) r).Mem
      (v + (ts.map fun t => (t.1 : ℝ) * σ.num t.2).sum) := by
  induction ts generalizing r v with
  | nil => simpa using hr
  | cons t ts ih =>
    have h := ih (im.add_mem _ _ _ _ hr (im.scale_mem t.1 _ _ (ha.interval t.2)))
    rw [add_assoc] at h
    exact h

theorem foldl_sub_mem {σ : Assignment} (ha : Admits n σ) (ts : List (ℚ × Nat)) {r : Interval}
    {v : ℝ} (hr : r.Mem v) :
    (ts.foldl (fun r t => im.sub r (im.scale t.1 (n.interval t.2))) r).Mem
      (v - (ts.map fun t => (t.1 : ℝ) * σ.num t.2).sum) := by
  induction ts generalizing r v with
  | nil => simpa using hr
  | cons t ts ih =>
    have h := ih (im.sub_mem _ _ _ _ hr (im.scale_mem t.1 _ _ (ha.interval t.2)))
    rw [sub_sub] at h
    exact h

/-- The summand of `y` and the others. -/
theorem sum_split (σ : Assignment) {y : Nat} {t : ℚ × Nat} {ts : List (ℚ × Nat)}
    (hnd : (ts.map Prod.snd).Nodup) (hf : ts.find? (·.2 = y) = some t) :
    (ts.map fun t => (t.1 : ℝ) * σ.num t.2).sum = t.1 * σ.num y +
      ((ts.filter (·.2 ≠ y)).map fun t => (t.1 : ℝ) * σ.num t.2).sum := by
  induction ts with
  | nil => cases hf
  | cons s ts ih =>
    rw [List.map_cons, List.nodup_cons] at hnd
    by_cases hs : s.2 = y
    · rw [List.find?_cons_of_pos (by simpa using hs), Option.some.injEq] at hf
      subst hf
      have hrest : ts.filter (·.2 ≠ y) = ts := by
        rw [List.filter_eq_self]
        intro u hu
        have : u.2 ≠ s.2 := fun he => hnd.1 (he ▸ List.mem_map_of_mem hu)
        simpa [hs] using this
      rw [List.filter_cons_of_neg (by simpa using hs), hrest, List.map_cons, List.sum_cons, hs]
    · rw [List.find?_cons_of_neg (by simpa using hs)] at hf
      rw [List.filter_cons_of_pos (by simpa using hs), List.map_cons, List.map_cons,
        List.sum_cons, List.sum_cons, ih hnd.2 hf]
      ring

section Definition

variable {x : Nat}

theorem propagatePolynomialVar_derives (h : Ready P S n) {ts : List (ℚ × Nat)}
    (hd : P.defs x = some (.polynomial ts)) {y : Nat} (hy : y = x ∨ y ∈ ts.map Prod.snd) :
    Derives P S n (n.propagatePolynomialVar P pr im x ts y) := by
  have hval : ∀ σ, S σ → σ.num x = (ts.map fun t => (t.1 : ℝ) * σ.num t.2).sum :=
    fun σ hσ => (h.respects σ hσ).defs x _ hd
  have hvar : y < P.numVars ∧ P.isBool y = false := by
    have hlt := P.defs_lt x _ hd
    have harith := P.defs_arith x _ hd
    rcases hy with rfl | hy
    · exact ⟨hlt.1, harith.1⟩
    · exact ⟨(hlt.2 y hy).trans hlt.1, harith.2 y hy⟩
  unfold Content.propagatePolynomialVar
  split
  · rename_i hxy
    cases ts with
    | nil => exact .refl
    | cons t ts =>
      apply propagateInterval_derives h.consistent hvar
      intro σ hσ
      have ha := h.admits σ hσ
      rw [← hxy, hval σ hσ, List.map_cons, List.sum_cons]
      exact foldl_add_mem ha ts (im.scale_mem t.1 _ _ (ha.interval t.2))
  · split
    · exact .refl
    · rename_i t hf
      apply propagateInterval_derives h.consistent hvar
      intro σ hσ
      have ha := h.admits σ hσ
      have hne : t.1 ≠ 0 := (P.coeff_ne x ts hd).2 t (List.mem_of_find?_eq_some hf)
      have hr := @foldl_sub_mem im n σ ha (ts.filter (·.2 ≠ y)) _ _ (ha.interval x)
      have hrest := sum_split σ (P.defs_nodup x _ hd) hf
      rw [← hval σ hσ] at hrest
      have hr := im.unscale_mem _ t.1 _ hne hr
      have hne : (t.1 : ℝ) ≠ 0 := by exact_mod_cast hne
      rw [hrest, add_sub_cancel_right, mul_div_cancel_left₀ _ hne] at hr
      exact hr

theorem propagatePolynomialVars_derives {ts : List (ℚ × Nat)}
    (hd : P.defs x = some (.polynomial ts)) (ys : List Nat)
    (hys : ∀ y ∈ ys, y = x ∨ y ∈ ts.map Prod.snd) (h : n.inconsistent = false → Ready P S n) :
    Derives P S n (Content.propagatePolynomialVars P pr im x ts ys n) := by
  induction ys generalizing n with
  | nil => exact .refl
  | cons y ys ih =>
    unfold Content.propagatePolynomialVars
    split
    · exact .refl
    · rename_i hn
      have h := h (Bool.eq_false_iff.2 hn)
      have hstep : Derives P S n (n.propagatePolynomialVar P pr im x ts y) :=
        propagatePolynomialVar_derives h hd (hys y List.mem_cons_self)
      exact hstep.trans (ih (fun z hz => hys z (List.mem_cons_of_mem y hz)) (h.derives hstep))

theorem propagatePolynomial_derives (h : Ready P S n) {ts : List (ℚ × Nat)}
    (hd : P.defs x = some (.polynomial ts)) :
    Derives P S n (n.propagatePolynomial P pr im x ts) := by
  have hmem : ∀ y ∈ x :: ts.map Prod.snd, y = x ∨ y ∈ ts.map Prod.snd :=
    fun y hy => List.mem_cons.1 hy
  unfold Content.propagatePolynomial
  split
  · exact propagatePolynomialVars_derives hd _ hmem fun _ => h
  · rename_i y hf
    have hy : y ∈ (x :: ts.map Prod.snd).filter n.isUnbounded := by simp [hf]
    exact propagatePolynomialVar_derives h hd (hmem y (List.mem_of_mem_filter hy))
  · exact .refl

/-! ## Monomials -/

theorem ne_zero_of_containsZero {i : Interval} (hi : i.containsZero = false) {v : ℝ}
    (hv : i.Mem v) : v ≠ 0 := by
  rintro rfl
  have hl : ∀ b, i.lower = some b → b.val < 0 ∨ b.val = 0 ∧ b.isOpen = false := by
    intro b hb
    have := Bound.allows_lower.1 (hv.lower b hb)
    exact_mod_cast this.imp_right And.symm
  have hu : ∀ b, i.upper = some b → 0 < b.val ∨ b.val = 0 ∧ b.isOpen = false := by
    intro b hb
    have := Bound.allows_upper.1 (hv.upper b hb)
    rw [eq_comm (a := (0 : ℝ))] at this
    exact_mod_cast this.imp_right And.symm
  unfold Interval.containsZero at hi
  cases hlo : i.lower <;> cases hup : i.upper <;> grind

theorem foldl_mul_mem {σ : Assignment} (ha : Admits n σ) (ps : List (Nat × Nat)) {r : Interval}
    {v : ℝ} (hr : r.Mem v) :
    (ps.foldl (fun r q => im.mul r (im.power (n.interval q.1) q.2)) r).Mem
      (v * (ps.map fun p => σ.num p.1 ^ p.2).prod) := by
  induction ps generalizing r v with
  | nil => simpa using hr
  | cons p ps ih =>
    have h := ih (im.mul_mem _ _ _ _ hr (im.power_mem _ _ p.2 (ha.interval p.1)))
    rw [mul_assoc] at h
    exact h

theorem productOf_mem {σ : Assignment} (ha : Admits n σ) {ps : List (Nat × Nat)} {r : Interval}
    (hr : n.productOf im ps = some r) : r.Mem (ps.map fun p => σ.num p.1 ^ p.2).prod := by
  cases ps with
  | nil => cases hr
  | cons p ps =>
    cases hr
    rw [List.map_cons, List.prod_cons]
    exact foldl_mul_mem ha ps (im.power_mem _ _ p.2 (ha.interval p.1))

/-- The power at position `j` is `x` divided by the others. -/
theorem quotientOf_mem {σ : Assignment} (ha : Admits n σ) {others : List (Nat × Nat)} {v : ℝ}
    (hx : σ.num x = v * (others.map fun p => σ.num p.1 ^ p.2).prod) :
    (n.quotientOf im x others).Mem v := by
  unfold Content.quotientOf
  split
  · rename_i hnone
    cases others with
    | nil =>
      have hx : σ.num x = v := by simpa using hx
      rw [← hx]
      exact ha.interval x
    | cons p ps => cases hnone
  · rename_i d hd
    split
    · exact .whole v
    · rename_i hz
      have hmem := productOf_mem ha hd
      have hne := ne_zero_of_containsZero (Bool.eq_false_iff.2 hz) hmem
      have := im.div_mem _ _ _ _ (ha.interval x) hmem (Bool.eq_false_iff.2 hz)
      rwa [hx, mul_div_cancel_right₀ _ hne] at this

theorem prod_eraseIdx (σ : Assignment) (ps : List (Nat × Nat)) {j : Nat} {p : Nat × Nat}
    (hj : ps[j]? = some p) : (ps.map fun p => σ.num p.1 ^ p.2).prod =
      σ.num p.1 ^ p.2 * ((ps.eraseIdx j).map fun p => σ.num p.1 ^ p.2).prod := by
  induction ps generalizing j with
  | nil => cases hj
  | cons q ps ih =>
    cases j with
    | zero =>
      cases hj
      simp
    | succ j =>
      rw [List.eraseIdx_cons_succ, List.map_cons, List.map_cons, List.prod_cons, List.prod_cons,
        ih (by simpa using hj)]
      ring

theorem isZero_eq {σ : Assignment} (ha : Admits n σ) {y : Nat} (hz : n.isZero y = true) :
    σ.num y = 0 := by
  have hz' : (n.side y false).any (·.val == 0) = true ∧
      (n.side y true).any (·.val == 0) = true := by
    unfold Content.isZero at hz
    unfold Content.side
    cases hl : n.lower y <;> cases hu : n.upper y <;> grind
  simpa using ha.eq_of_bounds hz'.1 hz'.2

section Monomial

variable {ps : List (Nat × Nat)} (hd : P.defs x = some (.monomial ps))
include hd

theorem monomial_var {p : Nat × Nat} (hp : p ∈ ps) : p.1 < P.numVars ∧ P.isBool p.1 = false := by
  have hv : p.1 ∈ (Definition.monomial ps).vars := List.mem_map_of_mem hp
  have hlt := P.defs_lt x _ hd
  exact ⟨(hlt.2 p.1 hv).trans hlt.1, (P.defs_arith x _ hd).2 p.1 hv⟩

theorem propagateMonomialUpward_derives (h : Ready P S n) :
    Derives P S n (n.propagateMonomialUpward P pr im x ps) := by
  unfold Content.propagateMonomialUpward
  split
  · exact .refl
  · rename_i r hr
    apply propagateInterval_derives h.consistent
      ⟨(P.defs_lt x _ hd).1, (P.defs_arith x _ hd).1⟩
    intro σ hσ
    rw [(h.respects σ hσ).defs x _ hd]
    exact productOf_mem (h.admits σ hσ) hr

theorem propagateMonomialDownward_derives (h : Ready P S n) (j : Nat) :
    Derives P S n (n.propagateMonomialDownward P pr im x ps j) := by
  unfold Content.propagateMonomialDownward
  split
  · exact .refl
  · rename_i y deg hj
    have hp : (y, deg) ∈ ps := List.mem_of_getElem? hj
    have hy := monomial_var hd hp
    have hdeg := (P.degree_pos x ps hd).2 _ hp
    have hpow : ∀ σ, S σ → (n.quotientOf im x (ps.eraseIdx j)).Mem (σ.num y ^ deg) := by
      intro σ hσ
      apply quotientOf_mem (h.admits σ hσ)
      rw [(h.respects σ hσ).defs x _ hd]
      exact prod_eraseIdx σ ps hj
    generalize n.quotientOf im x (ps.eraseIdx j) = r at hpow
    simp only
    split
    · exact .refl
    · rename_i hc
      -- the solutions of the equation for the power
      have hr : ∀ σ, S σ → (if 1 < deg then im.xnEqY r deg else r).Mem (σ.num y) := by
        intro σ hσ
        split
        · rename_i hgt
          apply im.xnEqY_mem r _ deg hdeg _ (hpow σ hσ)
          intro heven
          rw [← Bool.not_eq_true]
          exact fun hneg => hc (by simp [hgt, heven, hneg])
        · rename_i hle
          have : deg = 1 := by omega
          simpa [this] using hpow σ hσ
      generalize (if 1 < deg then im.xnEqY r deg else r) = r at hr
      have hupper : ∀ n', n'.inconsistent = false →
          Derives P S n' (n'.storeEnd P pr y false r.upper) :=
        fun n' hn' => storeEnd_derives hy (fun σ hσ => (hr σ hσ).upper) hn'
      have hn := h.consistent
      split
      · exact hupper n hn
      · rename_i l hl
        have hlow : ∀ n', n'.inconsistent = false →
            Derives P S n' (n'.propagateBound P y l.val true l.isOpen) := fun n' hn' =>
          Derives.refl.bound y l.val true l.isOpen hn' hy.1 hy.2 fun σ hσ => (hr σ hσ).lower l hl
        have hfirst : Derives P S n (n.storeEnd P pr y true (some l)) :=
          storeEnd_derives hy (fun σ hσ b hb => (hr σ hσ).lower b (hl.trans hb)) hn
        show Derives P S n (let m := n.storeEnd P pr y true (some l)
          if m.inconsistent then m
          else
            let m' := m.propagateBound P y l.val true l.isOpen
            if m'.inconsistent then m' else m'.storeEnd P pr y false r.upper)
        generalize n.storeEnd P pr y true (some l) = m at hfirst
        simp only
        split
        · exact hfirst
        · rename_i hc₁
          have hsecond := hfirst.trans (hlow _ (Bool.eq_false_iff.2 hc₁))
          split
          · exact hsecond
          · rename_i hc₂
            exact hsecond.trans (hupper _ (Bool.eq_false_iff.2 hc₂))

theorem propagateMonomialDownwards_derives (js : List Nat)
    (h : n.inconsistent = false → Ready P S n) :
    Derives P S n (Content.propagateMonomialDownwards P pr im x ps js n) := by
  induction js generalizing n with
  | nil => exact .refl
  | cons j js ih =>
    unfold Content.propagateMonomialDownwards
    split
    · exact .refl
    · rename_i hn
      have h := h (Bool.eq_false_iff.2 hn)
      have hstep : Derives P S n (n.propagateMonomialDownward P pr im x ps j) :=
        propagateMonomialDownward_derives hd h j
      exact hstep.trans (ih (h.derives hstep))

/-- A monomial with a factor that is zero is zero. -/
theorem propagateZero_derives (h : Ready P S n) (hz : (ps.any fun p => n.isZero p.1) = true) :
    Derives P S n (let n := n.propagateBound P x 0 true false
      if n.inconsistent then n else n.propagateBound P x 0 false false) := by
  have hx : ∀ σ, S σ → σ.num x = 0 := by
    intro σ hσ
    obtain ⟨p, hp, hz⟩ := List.any_eq_true.1 hz
    rw [(h.respects σ hσ).defs x _ hd]
    apply List.prod_eq_zero
    rw [List.mem_map]
    exact ⟨p, hp, by
      rw [isZero_eq (h.admits σ hσ) hz, zero_pow ((P.degree_pos x ps hd).2 p hp).ne']⟩
  have hvar := And.intro (P.defs_lt x _ hd).1 (P.defs_arith x _ hd).1
  have hlow : Derives P S n (n.propagateBound P x 0 true false) :=
    Derives.refl.bound x 0 true false h.consistent hvar.1 hvar.2 fun σ hσ => by
      simp [Bound.Allows, Bound.allowsAbove, hx σ hσ]
  simp only
  split
  · exact hlow
  · rename_i hc
    exact hlow.bound x 0 false false (Bool.eq_false_iff.2 hc) hvar.1 hvar.2 fun σ hσ => by
      simp [Bound.Allows, Bound.allowsBelow, hx σ hσ]

theorem propagateMonomial_derives (h : Ready P S n) :
    Derives P S n (n.propagateMonomial P pr im x ps) := by
  unfold Content.propagateMonomial
  simp only
  split
  · rename_i hz
    split
    · exact .refl
    · exact propagateZero_derives hd h hz
  · have hup : Derives P S n (if (ps.any fun p => decide (p.2 % 2 ≠ 0) && n.isUnbounded p.1) = true
        then n else n.propagateMonomialUpward P pr im x ps) := by
      split
      · exact .refl
      · exact propagateMonomialUpward_derives hd h
    generalize (if (ps.any fun p => decide (p.2 % 2 ≠ 0) && n.isUnbounded p.1) = true
        then n else n.propagateMonomialUpward P pr im x ps) = m at hup
    split
    · exact hup
    · rename_i hc
      have hm : m.inconsistent = false := by
        cases hm : m.inconsistent
        · rfl
        · exact absurd (by rw [hm, Bool.true_or]) hc
      have hr := h.derives hup hm
      split
      · exact hup.trans (propagateMonomialDownwards_derives hd _ fun _ => hr)
      · exact hup.trans (propagateMonomialDownward_derives hd hr _)
      · exact hup

end Monomial

end Definition

theorem propagateDef_derives (h : Ready P S n) (x : Nat) :
    Derives P S n (n.propagateDef P pr im x) := by
  unfold Content.propagateDef
  split
  · exact .refl
  · rename_i ps hd
    exact propagateMonomial_derives hd h
  · rename_i ts hd
    exact propagatePolynomial_derives h hd

/-! ## Clauses -/

/-- Boolean atoms are over Boolean variables, the others over arithmetic
ones. -/
def Lit.Sorted (P : Problem) (a : Lit) : Prop := a.x < P.numVars ∧ P.isBool a.x = a.isBoolLit

/-- An equation gives its lower bound, then its upper bound. -/
theorem propagateAtom_eq (n : Content) (x : Nat) (k : ℚ) : n.propagateAtom P (.eq x k false) =
    if (n.propagateBound P x k true false).inconsistent then n.propagateBound P x k true false
    else (n.propagateBound P x k true false).propagateBound P x k false false := rfl

theorem propagateAtom_derives (hn : n.inconsistent = false) {a : Lit} (hs : a.Sorted P)
    (ha : ∀ σ, S σ → a.Holds σ) : Derives P S n (n.propagateAtom P a) := by
  cases a with
  | bool x neg => exact Derives.refl.bvar x neg hn hs.1 hs.2 ha
  | ineq x k lower isOpen => exact Derives.refl.bound x k lower isOpen hn hs.1 hs.2 ha
  | eq x k neg =>
    cases neg with
    | true => exact .refl
    | false =>
      have hv : ∀ σ, S σ → σ.num x = k := ha
      have hlow : Derives P S n (n.propagateBound P x k true false) :=
        Derives.refl.bound x k true false hn hs.1 hs.2 fun σ hσ => by
          simp [Bound.Allows, Bound.allowsAbove, hv σ hσ]
      rw [propagateAtom_eq]
      split
      · exact hlow
      · rename_i hc
        exact hlow.bound x k false false (Bool.eq_false_iff.2 hc) hs.1 hs.2 fun σ hσ => by
          simp [Bound.Allows, Bound.allowsBelow, hv σ hσ]

theorem openAtoms_some {c as : List Lit} (h : n.openAtoms P c = some as) :
    as = c.filter (fun a => value P n a = .undef) ∧ ∀ a ∈ c, value P n a ≠ .true := by
  unfold Content.openAtoms at h
  split at h
  · cases h
  · rename_i hno
    cases h
    refine ⟨rfl, fun a ha ht => hno ?_⟩
    rw [List.any_eq_true]
    exact ⟨a, ha, decide_eq_true ht⟩

theorem openAtoms_none {c : List Lit} (h : n.openAtoms P c = none) :
    ∃ a ∈ c, value P n a = .true := by
  unfold Content.openAtoms at h
  split at h
  · rename_i hex
    obtain ⟨a, ha, ht⟩ := List.any_eq_true.1 hex
    exact ⟨a, ha, of_decide_eq_true ht⟩
  · cases h

/-- An atom that is neither true nor among the open ones is false. -/
theorem openAtoms_false {c as : List Lit} (h : n.openAtoms P c = some as) {a : Lit} (ha : a ∈ c)
    (hno : a ∉ as) : value P n a = .false := by
  obtain ⟨rfl, hnt⟩ := openAtoms_some h
  cases hv : value P n a with
  | true => exact absurd hv (hnt a ha)
  | false => rfl
  | undef => exact absurd (List.mem_filter.2 ⟨ha, decide_eq_true hv⟩) hno

/-- What a clause does to a node. -/
theorem propagateClause_cases (n : Content) (c : List Lit) :
    n.propagateClause P c = n ∨
    (∃ a ∈ c, (∀ b ∈ c, b ≠ a → value P n b = .false) ∧
      n.propagateClause P c =
        ({ n with upAtoms := n.upAtoms ++ [a] } : Content).propagateAtom P a) ∨
    (∀ b ∈ c, value P n b = .false) ∧ ∃ a ∈ c, n.propagateClause P c = n.propagateAtom P a := by
  unfold Content.propagateClause
  split
  · exact .inl rfl
  · rename_i hopen
    cases c with
    | nil => exact .inl rfl
    | cons a c =>
      exact .inr (.inr ⟨fun b hb => openAtoms_false hopen hb List.not_mem_nil, a,
        List.mem_cons_self, rfl⟩)
  · rename_i a hopen
    have ha : a ∈ c := by
      have := (openAtoms_some hopen).1
      exact (List.mem_filter.1 (this ▸ List.mem_singleton_self a)).1
    exact .inr (.inl ⟨a, ha, fun b hb hne =>
      openAtoms_false hopen hb (by simpa using hne), rfl⟩)
  · exact .inl rfl

/-! ## The root -/

theorem assertUnits_derives (as : List Lit) (hs : ∀ a ∈ as, a.Sorted P)
    (ha : ∀ σ, S σ → ∀ a ∈ as, a.Holds σ) (hn : n.inconsistent = false) :
    Derives P S n (assertUnits P as n) := by
  induction as generalizing n with
  | nil => exact .refl
  | cons a as ih =>
    have hstep := propagateAtom_derives hn (hs a List.mem_cons_self)
      fun σ hσ => ha σ hσ a List.mem_cons_self
    unfold assertUnits
    simp only
    split
    · exact hstep
    · rename_i hc
      exact hstep.trans (ih (fun b hb => hs b (List.mem_cons_of_mem a hb))
        (fun σ hσ b hb => ha σ hσ b (List.mem_cons_of_mem a hb)) (Bool.eq_false_iff.2 hc))

theorem propagateAllDefinitions_derives (xs : List Nat) (h : n.inconsistent = false → Ready P S n) :
    Derives P S n (propagateAllDefinitions P pr im xs n) := by
  induction xs generalizing n with
  | nil => exact .refl
  | cons x xs ih =>
    unfold propagateAllDefinitions
    split
    · exact .refl
    · rename_i hn
      have h := h (Bool.eq_false_iff.2 hn)
      have hstep : Derives P S n (n.propagateDef P pr im x) := propagateDef_derives h x
      exact hstep.trans (ih (h.derives hstep))

theorem blank_well : (blank P).Well P := by
  refine ⟨fun x => ?_, fun x lower b hb => ?_, fun x hx => ?_, ?_⟩
  · show (if P.isBool x = true then BValue.undef else .arith) = .arith ↔ _
    cases P.isBool x <;> simp
  · cases lower <;> cases hb
  · have hx : (if P.isBool x = true then BValue.undef else .arith) = .true ∨
        (if P.isBool x = true then BValue.undef else .arith) = .false := hx
    split at hx <;> simp at hx
  · show false = true ↔ _
    refine ⟨nofun, fun h => ?_⟩
    rcases h with ⟨x, hx⟩ | ⟨x, hx⟩
    · cases hx
    · have hx : (if P.isBool x = true then BValue.undef else .arith) = .conflict := hx
      split at hx <;> cases hx

theorem blank_admits (σ : Assignment) : Admits (blank P) σ := by
  refine ⟨fun x lower b hb => ?_, fun x => ?_⟩
  · cases lower <;> cases hb
  · show (if P.isBool x = true then BValue.undef else .arith).Allows _
    split <;> trivial

/-- The root, for any part of the models. -/
theorem initRoot_derives (hr : ∀ σ, S σ → Respects P σ)
    (hi : ∀ σ, S σ → ∀ x, P.isInt x = true → ∃ k : ℤ, σ.num x = k)
    (hu : ∀ σ, S σ → ∀ a ∈ P.unitClauses, a.Holds σ) :
    Derives P S (blank P) (initRoot P pr im) := by
  have hunits : Derives P S (blank P) (assertUnits P P.unitClauses (blank P)) :=
    assertUnits_derives _ (fun a ha => P.sorted a (.inl ha)) hu rfl
  have hready : Ready P S (blank P) := ⟨blank_well, rfl, hr, hi, fun σ _ => blank_admits σ⟩
  exact hunits.trans (propagateAllDefinitions_derives _ (hready.derives hunits))

theorem initRoot_well : (initRoot P pr im).Well P := by
  have h : Derives P (fun _ => False) (blank P) (initRoot P pr im) :=
    initRoot_derives nofun nofun nofun
  exact h.well blank_well

end AriParti.L1
