import Mathlib.Algebra.BigOperators.Group.List.Basic
import AriParti.L1Arith.Manager
import AriParti.L1Bounds.Occurrences

/-!
# What arithmetic propagation deduces

`propagate_polynomial` computes the bounds of one variable of a sum from the
bounds of the others, and `propagate_monomial_upward` and `_downward` do so
for a product of powers. With the interval operations of the source the
interval they arrive at is the best possible one: it holds exactly the values
the variable takes while the others run through their bounds. The variables
of a definition are distinct, so no precision is lost between its parts.

The exception is an even power of a variable that has zero as an open end:
there the interval may have zero as well.

## Results

* `propagatePolynomialVar_exact`: one variable of a sum, the sum included.
* `propagateMonomialUpward_exact`, `quotientOf_exact`: a product of powers, and
  what remains for one factor.
-/
namespace AriParti.L1

open AriParti.Core Set Pointwise

variable {prec : Nat} {f : Nat → Interval}

/-- Bounds that do not conflict leave a value. -/
theorem interval_nonempty {n : Content} {x : Nat} (h : n.conflictingBounds x = false) :
    ∃ v, (n.interval x).Mem v := by
  have between : ∀ {l u : Option Bound}, (∃ v, (∀ b, l = some b → b.allowsAbove v) ∧
      ∀ b, u = some b → b.allowsBelow v) → ∃ v, (Interval.mk l u).Mem v :=
    fun h => h.imp fun v hv => ⟨hv.1, hv.2⟩
  have above : ∀ (b : Bound) (v : ℝ), (b.val : ℝ) < v → b.allowsAbove v := by
    intro b v hv
    cases ho : b.isOpen <;> simp [Bound.allowsAbove, ho, hv, hv.le]
  have below : ∀ (b : Bound) (v : ℝ), v < b.val → b.allowsBelow v := by
    intro b v hv
    cases ho : b.isOpen <;> simp [Bound.allowsBelow, ho, hv, hv.le]
  unfold Content.conflictingBounds at h
  unfold Content.interval
  apply between
  cases hl : n.lower x with
  | none =>
    cases hu : n.upper x with
    | none => exact ⟨0, by simp, by simp⟩
    | some u => exact ⟨u.val - 1, by simp, by simpa using below u _ (sub_one_lt _)⟩
  | some l =>
    cases hu : n.upper x with
    | none => exact ⟨l.val + 1, by simpa using above l _ (lt_add_one _), by simp⟩
    | some u =>
      simp only [hl, hu, Bool.or_eq_false_iff, decide_eq_false_iff_not, not_lt] at h
      obtain ⟨hle, hne⟩ := h
      rcases hle.lt_or_eq with hlt | heq
      · obtain ⟨v, h1, h2⟩ := exists_between (Rat.cast_lt (K := ℝ).mpr hlt)
        exact ⟨v, by simpa using above l v h1, by simpa using below u v h2⟩
      · have ho : l.isOpen = false ∧ u.isOpen = false := by simpa [heq] using hne
        refine ⟨l.val, ?_, ?_⟩
        · simp [Bound.allowsAbove, ho.1]
        · simp [Bound.allowsBelow, ho.2, heq]

/-- A value for every variable within its bounds, for the variables of `ts`. -/
def Within (f : Nat → Interval) (vars : List Nat) (val : Nat → ℝ) : Prop :=
  ∀ z ∈ vars, (f z).Mem (val z)

theorem Within.update {vars : List Nat} {val : Nat → ℝ} {y : Nat} (h : Within f vars val)
    (hy : y ∉ vars) (v : ℝ) : Within f vars (Function.update val y v) := by
  intro z hz
  rw [Function.update_of_ne (ne_of_mem_of_not_mem hz hy)]
  exact h z hz

theorem exists_within (vars : List Nat) (h : ∀ z ∈ vars, (f z).values.Nonempty) :
    ∃ val, Within f vars val := by
  classical
  refine ⟨fun z => if hz : (f z).values.Nonempty then hz.some else 0, fun z hz => ?_⟩
  simp only [dif_pos (h z hz)]
  exact (h z hz).some_mem

/-- The value of a sum. -/
def sumOf (val : Nat → ℝ) (ts : List (ℚ × Nat)) : ℝ := (ts.map fun t => t.1 * val t.2).sum

/-- The value of a product of powers. -/
def prodOf (val : Nat → ℝ) (ps : List (Nat × Nat)) : ℝ := (ps.map fun p => val p.1 ^ p.2).prod

theorem sumOf_update {val : Nat → ℝ} {ts : List (ℚ × Nat)} {y : Nat} (hy : y ∉ ts.map Prod.snd)
    (v : ℝ) : sumOf (Function.update val y v) ts = sumOf val ts := by
  unfold sumOf
  congr 1
  refine List.map_congr_left fun t ht => ?_
  rw [Function.update_of_ne (ne_of_mem_of_not_mem (List.mem_map_of_mem ht) hy)]

theorem prodOf_update {val : Nat → ℝ} {ps : List (Nat × Nat)} {y : Nat}
    (hy : y ∉ ps.map Prod.fst) (v : ℝ) : prodOf (Function.update val y v) ps = prodOf val ps := by
  unfold prodOf
  congr 1
  refine List.map_congr_left fun p hp => ?_
  rw [Function.update_of_ne (ne_of_mem_of_not_mem (List.mem_map_of_mem hp) hy)]

/-! ## Sums -/

/-- An operation that adds `ε` times its second argument. -/
def Adds (op : Interval → Interval → Interval) (ε : ℝ) : Prop :=
  ∀ i j, i.values.Nonempty → j.values.Nonempty → ∀ v,
    v ∈ (op i j).values ↔ ∃ w ∈ i.values, ∃ u ∈ j.values, v = w + ε * u

theorem adds_add : Adds (intervalManager prec).add 1 := by
  intro i j hi hj v
  rw [intervalManager_add hi hj, mem_add]
  simp only [one_mul, eq_comm]

theorem adds_sub : Adds (intervalManager prec).sub (-1) := by
  intro i j hi hj v
  rw [intervalManager_sub hi hj, mem_sub]
  simp only [neg_one_mul, ← sub_eq_add_neg, eq_comm]

/-- The loop over the summands. -/
theorem mem_foldl_sum {op : Interval → Interval → Interval} {ε : ℝ} (hop : Adds op ε)
    (ts : List (ℚ × Nat)) (hnd : (ts.map Prod.snd).Nodup) (hc : ∀ t ∈ ts, t.1 ≠ 0)
    (hf : ∀ t ∈ ts, (f t.2).values.Nonempty) (r : Interval) (hr : r.values.Nonempty) (v : ℝ) :
    v ∈ (ts.foldl (fun r t => op r ((intervalManager prec).scale t.1 (f t.2))) r).values ↔
      ∃ w ∈ r.values, ∃ val, Within f (ts.map Prod.snd) val ∧ v = w + ε * sumOf val ts := by
  induction ts generalizing r with
  | nil => simp [Within, sumOf]
  | cons t ts ih =>
    have ht := hc t List.mem_cons_self
    obtain ⟨z, hz⟩ := hf t List.mem_cons_self
    have hs : ((intervalManager prec).scale t.1 (f t.2)).values.Nonempty :=
      ⟨_, (intervalManager_scale ht).mpr ⟨z, hz, rfl⟩⟩
    have hr' : (op r ((intervalManager prec).scale t.1 (f t.2))).values.Nonempty := by
      obtain ⟨w, hw⟩ := hr
      obtain ⟨u, hu⟩ := hs
      exact ⟨_, (hop _ _ ⟨w, hw⟩ ⟨u, hu⟩ _).mpr ⟨w, hw, u, hu, rfl⟩⟩
    rw [List.map_cons, List.nodup_cons] at hnd
    rw [List.foldl_cons, ih hnd.2 (fun t' h => hc t' (List.mem_cons_of_mem t h))
      (fun t' h => hf t' (List.mem_cons_of_mem t h)) _ hr']
    constructor
    · rintro ⟨w', hw', val, hval, rfl⟩
      obtain ⟨w, hw, u, hu, rfl⟩ := (hop _ _ hr hs _).mp hw'
      obtain ⟨z, hz, rfl⟩ := (intervalManager_scale ht).mp hu
      refine ⟨w, hw, Function.update val t.2 z, ?_, ?_⟩
      · intro y hy
        rcases List.mem_cons.mp hy with rfl | hy
        · rwa [Function.update_self]
        · exact hval.update hnd.1 z y hy
      · rw [show sumOf (Function.update val t.2 z) (t :: ts) =
          t.1 * z + sumOf (Function.update val t.2 z) ts by simp [sumOf], sumOf_update hnd.1]
        ring
    · rintro ⟨w, hw, val, hval, rfl⟩
      refine ⟨w + ε * (t.1 * val t.2), ?_, val, fun y hy => hval y (List.mem_cons_of_mem _ hy), ?_⟩
      · exact (hop _ _ hr hs _).mpr ⟨w, hw, _, (intervalManager_scale ht).mpr
          ⟨_, hval t.2 List.mem_cons_self, rfl⟩, rfl⟩
      · rw [show sumOf val (t :: ts) = t.1 * val t.2 + sumOf val ts by simp [sumOf]]
        ring

theorem sumOf_cons (val : Nat → ℝ) (t : ℚ × Nat) (ts : List (ℚ × Nat)) :
    sumOf val (t :: ts) = t.1 * val t.2 + sumOf val ts := by simp [sumOf]

/-- A sum, as the range of its summands. -/
theorem mem_sum (t : ℚ × Nat) (ts : List (ℚ × Nat)) (hnd : ((t :: ts).map Prod.snd).Nodup)
    (hc : ∀ t' ∈ t :: ts, t'.1 ≠ 0) (hf : ∀ t' ∈ t :: ts, (f t'.2).values.Nonempty) (v : ℝ) :
    v ∈ (ts.foldl (fun r t => (intervalManager prec).add r
        ((intervalManager prec).scale t.1 (f t.2))) ((intervalManager prec).scale t.1 (f t.2))).values ↔
      ∃ val, Within f ((t :: ts).map Prod.snd) val ∧ v = sumOf val (t :: ts) := by
  have ht := hc t List.mem_cons_self
  obtain ⟨z, hz⟩ := hf t List.mem_cons_self
  have hr : ((intervalManager prec).scale t.1 (f t.2)).values.Nonempty :=
    ⟨_, (intervalManager_scale ht).mpr ⟨z, hz, rfl⟩⟩
  rw [List.map_cons, List.nodup_cons] at hnd
  rw [mem_foldl_sum adds_add ts hnd.2 (fun t' h => hc t' (List.mem_cons_of_mem t h))
    (fun t' h => hf t' (List.mem_cons_of_mem t h)) _ hr]
  constructor
  · rintro ⟨w, hw, val, hval, rfl⟩
    obtain ⟨z, hz, rfl⟩ := (intervalManager_scale ht).mp hw
    refine ⟨Function.update val t.2 z, ?_, ?_⟩
    · intro y hy
      rcases List.mem_cons.mp hy with rfl | hy
      · rwa [Function.update_self]
      · exact hval.update hnd.1 z y hy
    · rw [sumOf_cons, sumOf_update hnd.1, Function.update_self, one_mul]
  · rintro ⟨val, hval, rfl⟩
    refine ⟨t.1 * val t.2, ?_, val, fun y hy => hval y (List.mem_cons_of_mem _ hy), ?_⟩
    · exact (intervalManager_scale ht).mpr ⟨_, hval t.2 List.mem_cons_self, rfl⟩
    · rw [sumOf_cons, one_mul]

/-- A summand and the others. -/
theorem sumOf_filter {ts : List (ℚ × Nat)} {t : ℚ × Nat} (hnd : (ts.map Prod.snd).Nodup)
    (ht : t ∈ ts) (val : Nat → ℝ) :
    sumOf val ts = t.1 * val t.2 + sumOf val (ts.filter (·.2 ≠ t.2)) := by
  induction ts with
  | nil => cases ht
  | cons a ts ih =>
    rw [List.map_cons, List.nodup_cons] at hnd
    rcases List.mem_cons.mp ht with rfl | h
    · have hfil : ts.filter (·.2 ≠ t.2) = ts := by
        apply List.filter_eq_self.mpr
        intro b hb
        have hne : b.2 ≠ t.2 := fun e => hnd.1 (e ▸ List.mem_map_of_mem hb)
        simpa using hne
      rw [List.filter_cons_of_neg (by simp), hfil, sumOf_cons]
    · have hne : a.2 ≠ t.2 := fun e => hnd.1 (e ▸ List.mem_map_of_mem h)
      rw [List.filter_cons_of_pos (by simpa using hne), sumOf_cons, sumOf_cons, ih hnd.2 h]
      ring

variable (P : Problem) (pr : Params)

/-- The bounds of one variable of a sum are the best that follow from the
bounds of the others. -/
theorem propagatePolynomialVar_exact (n : Content) {x y : Nat} {ts : List (ℚ × Nat)}
    (hx : P.defs x = some (.polynomial ts)) (hy : y ∈ x :: ts.map Prod.snd)
    (hn : ∀ z, n.conflictingBounds z = false) : ∃ r : Interval,
      n.propagatePolynomialVar P pr (intervalManager prec) x ts y = n.propagateInterval P pr y r ∧
      ∀ v, r.Mem v ↔ ∃ val : Nat → ℝ, val y = v ∧ val x = sumOf val ts ∧
        ∀ z ∈ x :: ts.map Prod.snd, z ≠ y → (n.interval z).Mem (val z) := by
  have hne : ∀ z, (n.interval z).values.Nonempty := fun z => interval_nonempty (hn z)
  have hnd : (ts.map Prod.snd).Nodup := P.defs_nodup x _ hx
  have hc := (P.coeff_ne x ts hx).2
  have hxts : x ∉ ts.map Prod.snd := fun h => lt_irrefl x ((P.defs_lt x _ hx).2 x h)
  by_cases hxy : x = y
  · subst hxy
    obtain ⟨t, ts, rfl⟩ : ∃ t ts', ts = t :: ts' := List.exists_cons_of_ne_nil (P.coeff_ne x ts hx).1
    refine ⟨_, by rw [Content.propagatePolynomialVar, if_pos rfl], fun v => ?_⟩
    refine (mem_sum t ts hnd hc (fun t' _ => hne t'.2) v).trans ?_
    constructor
    · rintro ⟨val, hval, rfl⟩
      refine ⟨Function.update val x (sumOf val (t :: ts)), Function.update_self .., ?_, ?_⟩
      · rw [Function.update_self, sumOf_update hxts]
      · intro z hz hzx
        exact hval.update hxts _ z ((List.mem_cons.mp hz).resolve_left hzx)
    · rintro ⟨val, rfl, hsum, hval⟩
      exact ⟨val, fun z hz => hval z (List.mem_cons_of_mem x hz)
        (fun e => hxts (e ▸ hz)), hsum⟩
  · have hyts : y ∈ ts.map Prod.snd := (List.mem_cons.mp hy).resolve_left (Ne.symm hxy)
    obtain ⟨t, hfind⟩ : ∃ t, ts.find? (·.2 = y) = some t := by
      obtain ⟨t, ht, e⟩ := List.mem_map.mp hyts
      exact Option.isSome_iff_exists.mp (List.find?_isSome.mpr ⟨t, ht, by simpa using e⟩)
    have hty : t.2 = y := by simpa using List.find?_some hfind
    have ht : t ∈ ts := List.mem_of_find?_eq_some hfind
    subst hty
    have hsub : ∀ z ∈ (ts.filter (·.2 ≠ t.2)).map Prod.snd, z ∈ ts.map Prod.snd ∧ z ≠ t.2 := by
      intro z hz
      obtain ⟨t', ht', rfl⟩ := List.mem_map.mp hz
      obtain ⟨h1, h2⟩ := List.mem_filter.mp ht'
      exact ⟨List.mem_map_of_mem h1, by simpa using h2⟩
    have hnd' : ((ts.filter (·.2 ≠ t.2)).map Prod.snd).Nodup :=
      (List.filter_sublist.map Prod.snd).nodup hnd
    refine ⟨_, by unfold Content.propagatePolynomialVar; rw [if_neg hxy, hfind], fun v => ?_⟩
    refine (intervalManager_unscale (hc t ht)).trans ?_
    rw [mem_foldl_sum adds_sub _ hnd' (fun t' h => hc t' (List.mem_filter.mp h).1)
      (fun t' _ => hne t'.2) _ (hne x)]
    constructor
    · rintro ⟨w, hw, val, hval, hv⟩
      have hx' : x ∉ (ts.filter (·.2 ≠ t.2)).map Prod.snd := fun h => hxts (hsub x h).1
      have ht' : t.2 ∉ (ts.filter (·.2 ≠ t.2)).map Prod.snd := fun h => (hsub _ h).2 rfl
      refine ⟨Function.update (Function.update val x w) t.2 v, Function.update_self .., ?_, ?_⟩
      · rw [sumOf_filter hnd ht, sumOf_update ht', sumOf_update hx', Function.update_self,
          Function.update_of_ne hxy, Function.update_self]
        linarith
      · intro z hz hzt
        rw [Function.update_of_ne hzt]
        rcases List.mem_cons.mp hz with rfl | hz
        · rwa [Function.update_self]
        · obtain ⟨t', ht'', rfl⟩ := List.mem_map.mp hz
          refine hval.update hx' w t'.2 (List.mem_map_of_mem (List.mem_filter.mpr ⟨ht'', ?_⟩))
          simpa using hzt
    · rintro ⟨val, rfl, hsum, hval⟩
      refine ⟨val x, hval x List.mem_cons_self hxy, val, fun z hz => ?_, ?_⟩
      · have h := hsub z hz
        exact hval z (List.mem_cons_of_mem x h.1) h.2
      · rw [hsum, sumOf_filter hnd ht]
        ring

/-- `x₂ = x₀x₁` and `x₃ = x₀ + x₂` with `x₀` from 1 to 2 and `x₁` above -1. -/
def boxed : Content := { blank productPlus with
  lower := fun z => if z = 0 then some ⟨1, false⟩ else if z = 1 then some ⟨-1, true⟩ else none
  upper := fun z => if z = 0 then some ⟨2, false⟩ else none }

theorem boxed_conflictingBounds (z : Nat) : boxed.conflictingBounds z = false := by
  by_cases hz : z = 0
  · subst hz
    decide
  · simp [boxed, Content.conflictingBounds, hz]

theorem propagatePolynomialVar_exact_boxed : ∃ r : Interval,
    boxed.propagatePolynomialVar productPlus defaults (intervalManager 8192) 3 [(1, 0), (1, 2)] 2 =
      boxed.propagateInterval productPlus defaults 2 r ∧
    ∀ v, r.Mem v ↔ ∃ val : Nat → ℝ, val 2 = v ∧ val 3 = sumOf val [(1, 0), (1, 2)] ∧
      ∀ z ∈ 3 :: [((1 : ℚ), 0), (1, 2)].map Prod.snd, z ≠ 2 → (boxed.interval z).Mem (val z) :=
  propagatePolynomialVar_exact productPlus defaults boxed rfl (by decide) boxed_conflictingBounds

/-! ## Products of powers -/

/-- An even power with zero as an end of the interval, where the power is not
exact. -/
def zeroEnd (f : Nat → Interval) (p : Nat × Nat) : Prop :=
  p.2 % 2 = 0 ∧
    ((f p.1).lower.map Bound.val = some 0 ∨ (f p.1).upper.map Bound.val = some 0)

theorem prodOf_cons (val : Nat → ℝ) (p : Nat × Nat) (ps : List (Nat × Nat)) :
    prodOf val (p :: ps) = val p.1 ^ p.2 * prodOf val ps := by simp [prodOf]

theorem mem_power_range {p : Nat × Nat} (hp : p.2 ≠ 0) (hf : (f p.1).values.Nonempty) (u : ℝ) :
    u ∈ ((intervalManager prec).power (f p.1) p.2).values ↔
      (∃ z ∈ (f p.1).values, z ^ p.2 = u) ∨ u = 0 ∧ zeroEnd f p :=
  intervalManager_power hp hf

/-- The loop over the factors. -/
theorem mem_foldl_prod (ps : List (Nat × Nat)) (hnd : (ps.map Prod.fst).Nodup)
    (hd : ∀ p ∈ ps, p.2 ≠ 0) (hf : ∀ p ∈ ps, (f p.1).values.Nonempty) (r : Interval)
    (hr : r.values.Nonempty) (v : ℝ) :
    v ∈ (ps.foldl (fun r q => (intervalManager prec).mul r
        ((intervalManager prec).power (f q.1) q.2)) r).values ↔
      (∃ w ∈ r.values, ∃ val, Within f (ps.map Prod.fst) val ∧ v = w * prodOf val ps) ∨
        v = 0 ∧ ∃ p ∈ ps, zeroEnd f p := by
  induction ps generalizing r with
  | nil => simp [Within, prodOf]
  | cons p ps ih =>
    have hp := hd p List.mem_cons_self
    have hfp := hf p List.mem_cons_self
    have hpow : ((intervalManager prec).power (f p.1) p.2).values.Nonempty := by
      obtain ⟨z, hz⟩ := hfp
      exact ⟨_, (mem_power_range hp ⟨z, hz⟩ _).mpr (.inl ⟨z, hz, rfl⟩)⟩
    have hmul : ((intervalManager prec).mul r ((intervalManager prec).power (f p.1) p.2)).values = _ :=
      intervalManager_mul hr hpow
    have hr' : ((intervalManager prec).mul r
        ((intervalManager prec).power (f p.1) p.2)).values.Nonempty := by
      rw [hmul]
      exact hr.mul hpow
    rw [List.map_cons, List.nodup_cons] at hnd
    rw [List.foldl_cons, ih hnd.2 (fun q h => hd q (List.mem_cons_of_mem p h))
      (fun q h => hf q (List.mem_cons_of_mem p h)) _ hr', hmul]
    constructor
    · rintro (⟨w', ⟨w, hw, u, hu, rfl⟩, val, hval, rfl⟩ | ⟨h0, q, hq, hz⟩)
      · rcases (mem_power_range hp hfp u).mp hu with ⟨z, hz, rfl⟩ | ⟨rfl, hz⟩
        · refine .inl ⟨w, hw, Function.update val p.1 z, ?_, ?_⟩
          · intro y hy
            rcases List.mem_cons.mp hy with rfl | hy
            · rwa [Function.update_self]
            · exact hval.update hnd.1 z y hy
          · rw [prodOf_cons, prodOf_update hnd.1, Function.update_self, ← mul_assoc]
        · exact .inr ⟨by simp, p, List.mem_cons_self, hz⟩
      · exact .inr ⟨h0, q, List.mem_cons_of_mem p hq, hz⟩
    · rintro (⟨w, hw, val, hval, rfl⟩ | ⟨rfl, q, hq, hz⟩)
      · refine .inl ⟨w * val p.1 ^ p.2, mul_mem_mul hw ?_, val,
          fun y hy => hval y (List.mem_cons_of_mem _ hy), ?_⟩
        · exact (mem_power_range hp hfp _).mpr (.inl ⟨_, hval p.1 List.mem_cons_self, rfl⟩)
        · rw [prodOf_cons, mul_assoc]
      · rcases List.mem_cons.mp hq with rfl | hq
        · obtain ⟨w, hw⟩ := hr
          obtain ⟨val, hval⟩ := exists_within (f := f) (ps.map Prod.fst) fun z hz => by
            obtain ⟨p', hp', rfl⟩ := List.mem_map.mp hz
            exact hf p' (List.mem_cons_of_mem q hp')
          refine .inl ⟨w * 0, mul_mem_mul hw ((mem_power_range hp hfp 0).mpr (.inr ⟨rfl, hz⟩)),
            val, hval, by simp⟩
        · exact .inr ⟨rfl, q, hq, hz⟩

/-- The interval of a product of powers. -/
theorem productOf_exact (n : Content) {ps : List (Nat × Nat)} (hps : ps ≠ [])
    (hnd : (ps.map Prod.fst).Nodup) (hd : ∀ p ∈ ps, p.2 ≠ 0)
    (hne : ∀ p ∈ ps, ∃ v, (n.interval p.1).Mem v) :
    ∃ r, n.productOf (intervalManager prec) ps = some r ∧ ∀ v, r.Mem v ↔
      (∃ val, Within n.interval (ps.map Prod.fst) val ∧ v = prodOf val ps) ∨
        v = 0 ∧ ∃ p ∈ ps, zeroEnd n.interval p := by
  obtain ⟨p, ps, rfl⟩ := List.exists_cons_of_ne_nil hps
  have hp := hd p List.mem_cons_self
  have hfp := hne p List.mem_cons_self
  have hpow : ((intervalManager prec).power (n.interval p.1) p.2).values.Nonempty := by
    obtain ⟨z, hz⟩ := hfp
    exact ⟨_, (mem_power_range hp ⟨z, hz⟩ _).mpr (.inl ⟨z, hz, rfl⟩)⟩
  rw [List.map_cons, List.nodup_cons] at hnd
  refine ⟨_, rfl, fun v => ?_⟩
  refine (mem_foldl_prod ps hnd.2 (fun q h => hd q (List.mem_cons_of_mem p h))
    (fun q h => hne q (List.mem_cons_of_mem p h)) _ hpow v).trans ?_
  constructor
  · rintro (⟨w, hw, val, hval, rfl⟩ | ⟨h0, q, hq, hz⟩)
    · rcases (mem_power_range hp hfp w).mp hw with ⟨z, hz, rfl⟩ | ⟨rfl, hz⟩
      · refine .inl ⟨Function.update val p.1 z, ?_, ?_⟩
        · intro y hy
          rcases List.mem_cons.mp hy with rfl | hy
          · rwa [Function.update_self]
          · exact hval.update hnd.1 z y hy
        · rw [prodOf_cons, prodOf_update hnd.1, Function.update_self]
      · exact .inr ⟨by simp, p, List.mem_cons_self, hz⟩
    · exact .inr ⟨h0, q, List.mem_cons_of_mem p hq, hz⟩
  · rintro (⟨val, hval, rfl⟩ | ⟨rfl, q, hq, hz⟩)
    · refine .inl ⟨val p.1 ^ p.2, ?_, val, fun y hy => hval y (List.mem_cons_of_mem _ hy),
        prodOf_cons val p ps⟩
      exact (mem_power_range hp hfp _).mpr (.inl ⟨_, hval p.1 List.mem_cons_self, rfl⟩)
    · rcases List.mem_cons.mp hq with rfl | hq
      · obtain ⟨val, hval⟩ := exists_within (f := n.interval) (ps.map Prod.fst)
          fun z hz => by
            obtain ⟨p', hp', rfl⟩ := List.mem_map.mp hz
            exact hne p' (List.mem_cons_of_mem q hp')
        exact .inl ⟨0, (mem_power_range hp hfp 0).mpr (.inr ⟨rfl, hz⟩), val, hval, by simp⟩
      · exact .inr ⟨rfl, q, hq, hz⟩

/-- The bounds `propagate_monomial_upward` draws from a product are the best
that follow from the bounds of its variables, but for an even power that
reaches zero. -/
theorem propagateMonomialUpward_exact (n : Content) {x : Nat} {ps : List (Nat × Nat)}
    (hx : P.defs x = some (.monomial ps)) (hn : ∀ z, n.conflictingBounds z = false) :
    ∃ r : Interval, n.propagateMonomialUpward P pr (intervalManager prec) x ps =
        n.propagateInterval P pr x r ∧ ∀ v, r.Mem v ↔
      (∃ val, Within n.interval (ps.map Prod.fst) val ∧ v = prodOf val ps) ∨
        v = 0 ∧ ∃ p ∈ ps, zeroEnd n.interval p := by
  obtain ⟨hps, hd⟩ := P.degree_pos x ps hx
  obtain ⟨r, hr, h⟩ : ∃ r, n.productOf (intervalManager prec) ps = some r ∧ _ :=
    productOf_exact n hps (P.defs_nodup x _ hx)
    (fun p hp => (hd p hp).ne') fun p _ => interval_nonempty (hn p.1)
  exact ⟨r, by rw [Content.propagateMonomialUpward, hr], h⟩

theorem propagateMonomialUpward_exact_boxed : ∃ r : Interval,
    boxed.propagateMonomialUpward productPlus defaults (intervalManager 8192) 2 [(0, 1), (1, 1)] =
      boxed.propagateInterval productPlus defaults 2 r ∧
    ∀ v, r.Mem v ↔
      (∃ val, Within boxed.interval ([(0, 1), (1, 1)].map Prod.fst) val ∧
        v = prodOf val [(0, 1), (1, 1)]) ∨
      v = 0 ∧ ∃ p ∈ [(0, 1), (1, 1)], zeroEnd boxed.interval p :=
  propagateMonomialUpward_exact productPlus defaults boxed rfl boxed_conflictingBounds

theorem allowsAbove_zero (b : Bound) :
    b.allowsAbove 0 ↔ (b.val < 0 || (b.val == 0 && !b.isOpen)) = true := by
  cases h : b.isOpen <;> simp [Bound.allowsAbove, h, le_iff_lt_or_eq]

theorem allowsBelow_zero (b : Bound) :
    b.allowsBelow 0 ↔ (0 < b.val || (b.val == 0 && !b.isOpen)) = true := by
  cases h : b.isOpen <;> simp [Bound.allowsBelow, h, le_iff_lt_or_eq, @eq_comm ℝ 0]

theorem containsZero_iff {i : Interval} : i.containsZero = true ↔ i.Mem 0 := by
  obtain ⟨l, u⟩ := i
  constructor
  · intro h
    obtain ⟨hl, hu⟩ := Bool.and_eq_true_iff.mp h
    refine ⟨fun b hb => (allowsAbove_zero b).mpr ?_, fun b hb => (allowsBelow_zero b).mpr ?_⟩
    · subst hb
      exact hl
    · subst hb
      exact hu
  · intro h
    refine Bool.and_eq_true_iff.mpr ⟨?_, ?_⟩
    · cases l with
      | none => rfl
      | some b => exact (allowsAbove_zero b).mp (h.lower b rfl)
    · cases u with
      | none => rfl
      | some b => exact (allowsBelow_zero b).mp (h.upper b rfl)

/-- What `propagate_monomial_downward` gets for a power: unless the other
factors can be zero, the values the power takes. -/
theorem quotientOf_exact (n : Content) {x : Nat} {ps : List (Nat × Nat)}
    (hnd : (ps.map Prod.fst).Nodup) (hd : ∀ p ∈ ps, p.2 ≠ 0) (hxps : x ∉ ps.map Prod.fst)
    (hn : ∀ z, n.conflictingBounds z = false)
    (hz : ∀ d, n.productOf (intervalManager prec) ps = some d → d.containsZero = false) (v : ℝ) :
    (n.quotientOf (intervalManager prec) x ps).Mem v ↔
      ∃ val, Within n.interval (x :: ps.map Prod.fst) val ∧ v * prodOf val ps = val x := by
  have hne : ∀ z, (n.interval z).values.Nonempty := fun z => interval_nonempty (hn z)
  by_cases hps : ps = []
  · subst hps
    have e : n.quotientOf (intervalManager prec) x [] = n.interval x := rfl
    rw [e]
    simp only [prodOf, List.map_nil, List.prod_nil, mul_one]
    constructor
    · intro hv
      exact ⟨fun _ => v, fun z hz => by rwa [List.mem_singleton.mp hz], rfl⟩
    · rintro ⟨val, hval, rfl⟩
      exact hval x List.mem_cons_self
  · obtain ⟨d, hdv, hmem⟩ : ∃ d, n.productOf (intervalManager prec) ps = some d ∧ _ :=
      productOf_exact n hps hnd hd fun p _ => hne p.1
    have hdz := hz d hdv
    have h0 : ¬d.Mem 0 := fun h => by simp [containsZero_iff.mpr h] at hdz
    have hex : ∀ u, d.Mem u ↔ ∃ val, Within n.interval (ps.map Prod.fst) val ∧ u = prodOf val ps := by
      intro u
      refine (hmem u).trans ⟨fun h => h.resolve_right ?_, .inl⟩
      rintro ⟨-, hz⟩
      exact h0 ((hmem 0).mpr (.inr ⟨rfl, hz⟩))
    have hdne : d.values.Nonempty := by
      obtain ⟨val, hval⟩ := exists_within (f := n.interval) (ps.map Prod.fst)
        fun z _ => hne z
      exact ⟨_, (hex _).mpr ⟨val, hval, rfl⟩⟩
    have e : n.quotientOf (intervalManager prec) x ps =
        (intervalManager prec).div (n.interval x) d := by
      rw [Content.quotientOf, hdv]
      simp only [hdz, Bool.false_eq_true, if_false]
    rw [e, ← Interval.mem_values, intervalManager_div (hne x) hdne hdz]
    constructor
    · rintro ⟨w, hw, u, hu, rfl⟩
      obtain ⟨val, hval, hu'⟩ := (hex _).mp (mem_inv.mp hu)
      have hu0 : u⁻¹ ≠ 0 := fun h => h0 (h ▸ mem_inv.mp hu)
      refine ⟨Function.update val x w, ?_, ?_⟩
      · intro z hz
        rcases List.mem_cons.mp hz with rfl | hz
        · rwa [Function.update_self]
        · exact hval.update hxps w z hz
      · rw [prodOf_update hxps, ← hu', Function.update_self, mul_assoc,
          mul_inv_cancel₀ fun h => hu0 (by rw [h, inv_zero]), mul_one]
    · rintro ⟨val, hval, hv⟩
      have hu : d.Mem (prodOf val ps) :=
        (hex _).mpr ⟨val, fun z hz => hval z (List.mem_cons_of_mem x hz), rfl⟩
      have hu0 : prodOf val ps ≠ 0 := fun h => h0 (h ▸ hu)
      refine ⟨val x, hval x List.mem_cons_self, (prodOf val ps)⁻¹, inv_mem_inv.mpr hu, ?_⟩
      rw [← hv]
      exact mul_inv_cancel_right₀ hu0 v

/-- `x₀` does not reach zero, so `x₁` is bounded by `x₂` and it. -/
theorem quotientOf_exact_boxed : (boxed.quotientOf (intervalManager 8192) 2 [(0, 1)]).Mem 7 ↔
    ∃ val, Within boxed.interval (2 :: [(0, 1)].map Prod.fst) val ∧
      7 * prodOf val [(0, 1)] = val 2 := by
  refine quotientOf_exact boxed (by decide) (by decide) (by decide) boxed_conflictingBounds ?_ 7
  intro d hd
  cases hd
  decide +kernel

end AriParti.L1
