import Mathlib.Algebra.Ring.Subring.Basic
import AriParti.L1Input.Values

/-!
# What the variables made for a goal are

The context relies on its caller for the form of its definitions: no variable
comes twice in one, degrees and coefficients are not zero, and a product is of
variables of one sort. `expr2subpaving` makes such definitions for terms of
one sort, and a variable is taken for an integer exactly when the terms it is
made for are. Boolean constants are internalized by `internalize_bool_term`
into the same table.

`B` tells which symbols are Boolean constants.

## Results

* `Tidy`: the form of the definitions, and the sorts of the variables.
* `process_tidy`: internalizing a term keeps this, and gives a variable of the
  sort of the term.
-/
namespace AriParti.L1

open AriParti.Core

variable {B : Symbol → Bool}

namespace Term

/-- Made of numerals and arithmetic symbols of one sort; exponents are
unsigned. -/
def HasSort (B : Symbol → Bool) (b : Bool) : Term → Prop
  | num q b' => b' = b ∧ (b = true → q.isInt = true)
  | var v => v.isInt = b ∧ B v = false
  | add ts => ts ≠ [] ∧ ∀ t ∈ ts, t.HasSort B b
  | mul ts => ts ≠ [] ∧ ∀ t ∈ ts, t.HasSort B b
  | pow t k => IsUnsigned k ∧ t.HasSort B b

/-- No summand with a variable has the coefficient zero. -/
def NoZero : Term → Prop
  | num _ _ => True
  | var _ => True
  | add ts => ∀ t ∈ ts, t.NoZero ∧ (t.isConst = false → t.coeff ≠ 0)
  | mul ts => ∀ t ∈ ts, t.NoZero
  | pow t _ => t.NoZero

theorem allInt_eq {ts : List Term} {b : Bool} (hne : ts ≠ []) (h : ∀ t ∈ ts, t.isInt = b) :
    allInt ts = b := by
  induction ts with
  | nil => exact absurd rfl hne
  | cons t ts ih =>
    rw [allInt, h t List.mem_cons_self]
    cases ts with
    | nil => rw [allInt, Bool.and_true]
    | cons u us => rw [ih (by simp) fun t' ht' => h t' (List.mem_cons_of_mem t ht'), Bool.and_self]

theorem HasSort.isInt_eq {b : Bool} {t : Term} (h : t.HasSort B b) : t.isInt = b := by
  induction t using Term.induct with
  | num q b' =>
    rw [HasSort] at h
    rw [isInt, h.1]
  | var v =>
    rw [HasSort] at h
    rw [isInt, h.1]
  | add ts ih =>
    rw [HasSort] at h
    rw [isInt]
    exact allInt_eq h.1 fun t ht => ih t ht (h.2 t ht)
  | mul ts ih =>
    rw [HasSort] at h
    rw [isInt]
    exact allInt_eq h.1 fun t ht => ih t ht (h.2 t ht)
  | pow t k ih =>
    rw [HasSort] at h
    rw [isInt]
    exact ih h.2

/-- A term of integers is one. -/
theorem HasSort.eval_int {ρ : Symbol → ℝ} (hρ : ∀ v, v.isInt = true → B v = false →
    ∃ k : ℤ, ρ v = k) {t : Term} (h : t.HasSort B true) : ∃ k : ℤ, t.eval ρ = k := by
  suffices t.eval ρ ∈ (Int.castRingHom ℝ).range by
    obtain ⟨k, hk⟩ := this
    exact ⟨k, hk.symm⟩
  induction t using Term.induct with
  | num q b' =>
    rw [HasSort] at h
    obtain ⟨k, hk⟩ := isInt_iff.mp (h.2 rfl)
    rw [eval, hk]
    exact ⟨k, by simp⟩
  | var v =>
    rw [HasSort] at h
    obtain ⟨k, hk⟩ := hρ v h.1 h.2
    rw [eval, hk]
    exact ⟨k, rfl⟩
  | add ts ih =>
    rw [HasSort] at h
    rw [eval]
    refine Subring.list_sum_mem _ fun x hx => ?_
    obtain ⟨t, ht, rfl⟩ := List.mem_map.mp hx
    exact ih t ht (h.2 t ht)
  | mul ts ih =>
    rw [HasSort] at h
    rw [eval]
    refine Subring.list_prod_mem _ fun x hx => ?_
    obtain ⟨t, ht, rfl⟩ := List.mem_map.mp hx
    exact ih t ht (h.2 t ht)
  | pow t k ih =>
    rw [HasSort] at h
    rw [eval]
    exact pow_mem (ih h.2) k

theorem HasSort.mkMul {b : Bool} {ts : List Term} (hne : ts ≠ [])
    (h : ∀ t ∈ ts, t.HasSort B b) : (Term.mkMul ts).HasSort B b := by
  unfold Term.mkMul
  split
  · exact h _ List.mem_cons_self
  · rw [HasSort]
    exact ⟨hne, h⟩

theorem HasSort.replicate {b : Bool} {t : Term} {k : ℕ} (hk : k ≠ 0) (h : t.HasSort B b) :
    (Term.mkMul (.replicate k t)).HasSort B b := by
  refine HasSort.mkMul (fun hnil => hk ((List.replicate_eq_nil_iff _).mp hnil)) ?_
  intro u hu
  rwa [(List.mem_replicate.mp hu).2]

theorem HasSort.poly {b : Bool} {ps : List (ℤ × Term)} (hne : ps ≠ [])
    (h : ∀ p ∈ ps, p.2.HasSort B b) : (Term.poly ps).HasSort B b := by
  have hscaled : ∀ t ∈ ps.map (fun p => scaled p.1 p.2), t.HasSort B b := by
    intro t ht
    obtain ⟨p, hp, rfl⟩ := List.mem_map.mp ht
    unfold scaled
    split
    · exact h p hp
    · rw [HasSort]
      refine ⟨by simp, fun t ht => ?_⟩
      rcases List.mem_pair.mp ht with rfl | rfl
      · rw [HasSort]
        refine ⟨(h p hp).isInt_eq, fun _ => ?_⟩
        rw [Rat.isInt, Rat.den_intCast]
        rfl
      · exact h p hp
  unfold Term.poly mkAdd
  split
  · rename_i t ht
    exact hscaled t (by rw [ht]; exact List.mem_cons_self)
  · rw [HasSort]
    exact ⟨fun hnil => hne (List.map_eq_nil_iff.mp hnil), hscaled⟩

theorem HasSort.asPower {b : Bool} {t : Term} (h : t.HasSort B b) : t.asPower.1.HasSort B b := by
  rcases t.asPower_cases with ⟨a, k, rfl, -, ht⟩ | ht
  · rw [ht]
    rw [HasSort] at h
    exact h.2
  · rwa [ht]

theorem NoZero.asPower {t : Term} (h : t.NoZero) : t.asPower.1.NoZero := by
  rcases t.asPower_cases with ⟨a, k, rfl, -, ht⟩ | ht
  · rw [ht]
    rwa [NoZero] at h
  · rwa [ht]

end Term

/-- The form of a definition over variables of the sorts `isInt`. -/
def Definition.Formed (isInt : Nat → Bool) : Definition → Prop
  | monomial ps => ps ≠ [] ∧ (ps.map Prod.fst).Nodup ∧ (∀ p ∈ ps, 0 < p.2) ∧
      ∃ b, ∀ p ∈ ps, isInt p.1 = b
  | polynomial ts => ts ≠ [] ∧ (ts.map Prod.snd).Nodup ∧ ∀ t ∈ ts, t.1 ≠ 0

theorem Definition.Formed.congr {f g : Nat → Bool} {d : Definition} (h : d.Formed f)
    (hfg : ∀ y ∈ d.vars, f y = g y) : d.Formed g := by
  cases d with
  | monomial ps =>
    obtain ⟨hne, hnd, hpos, b, hb⟩ := h
    exact ⟨hne, hnd, hpos, b, fun p hp => by rw [← hfg p.1 (List.mem_map_of_mem hp), hb p hp]⟩
  | polynomial ts => exact h

namespace Expr2Subpaving

/-- mirrors expr2subpaving.cpp:534-541 -/
def internalizeBool (s : Expr2Subpaving) (v : Symbol) : Nat × Expr2Subpaving :=
  s.lookup (.var v) s.vars.mkBvar

/-- The sort of what is recorded for a variable. -/
inductive Kind (B : Symbol → Bool) (vars : Vars) (x : Nat) : Term → Prop where
  | bool (v : Symbol) : B v = true → vars.isBool x = true → Kind B vars x (.var v)
  | arith (e : Term) : e.HasSort B (vars.isInt x) → vars.isBool x = false → Kind B vars x e

/-- A result of `process` for terms of sort `b`. -/
def Typed (B : Symbol → Bool) (s : Expr2Subpaving) (b : Bool) (x : Option Nat) : Prop :=
  ∀ y, x = some y → ∃ e, s.var2expr y = some e ∧ e.HasSort B b

structure Tidy (B : Symbol → Bool) (s : Expr2Subpaving) : Prop where
  made : Made s.vars
  formed : ∀ x d, s.vars.definition x = some d → d.Formed s.vars.isInt
  kind : ∀ x e, s.var2expr x = some e → Kind B s.vars x e
  base : ∀ x e, s.var2expr x = some e → s.vars.definition x = none → ∃ v, e = .var v
  cached : ∀ t r b, s.cache t = some r → t.HasSort B b → s.Typed B b r.x

theorem Typed.mono {s s' : Expr2Subpaving} {b : Bool} {x : Option Nat} (h : s.Typed B b x)
    (hs : s.Extends s') : s'.Typed B b x := by
  intro y hy
  obtain ⟨e, he, hb⟩ := h y hy
  exact ⟨e, hs y e he, hb⟩

/-- A variable recorded for an arithmetic term is arithmetic, of its sort. -/
theorem Tidy.sort {s : Expr2Subpaving} (h : s.Tidy B) {x : Nat} {e : Term} {b : Bool}
    (he : s.var2expr x = some e) (hb : e.HasSort B b) :
    s.vars.isBool x = false ∧ s.vars.isInt x = b := by
  cases h.kind x e he with
  | bool v hv _ =>
    rw [Term.HasSort, hv] at hb
    exact absurd hb.2 (by decide)
  | arith _ hs hx => exact ⟨hx, hs.isInt_eq.symm.trans hb.isInt_eq⟩

theorem Tidy.sort_bool {s : Expr2Subpaving} (h : s.Tidy B) {x : Nat} {v : Symbol}
    (he : s.var2expr x = some (.var v)) (hv : B v = true) : s.vars.isBool x = true := by
  cases h.kind x _ he with
  | bool _ _ hx => exact hx
  | arith _ hs _ =>
    rw [Term.HasSort, hv] at hs
    exact absurd hs.2 (by decide)

theorem tidy_empty : empty.Tidy B :=
  ⟨⟨nofun, nofun, nofun, nofun⟩, nofun, nofun, nofun, nofun⟩

theorem Tidy.cacheResult {s : Expr2Subpaving} (h : s.Tidy B) (shared : Nat → Bool) {t : Term}
    {r : Internalized} (hr : ∀ b, t.HasSort B b → s.Typed B b r.x) :
    (s.cacheResult shared t r).Tidy B := by
  refine ⟨h.made, h.formed, h.kind, h.base, fun t' r' b ht' hb => ?_⟩
  unfold Expr2Subpaving.cacheResult at ht'
  simp only at ht'
  split at ht'
  · rw [Function.update_apply] at ht'
    split at ht'
    · rename_i htt
      cases ht'
      exact hr b (htt ▸ hb)
    · exact h.cached t' r' b ht' hb
  · exact h.cached t' r' b ht' hb

/-- A new variable that has the sort of what it is recorded for. -/
theorem Tidy.lookup {s : Expr2Subpaving} (h : s.Tidy B) (hc : s.Consistent) {e : Term}
    {i : VarInfo} (hmade : Made (s.vars.push i))
    (hformed : ∀ d, i.definition = some d → d.Formed s.vars.isInt)
    (hkind : Kind B (s.vars.push i) s.vars.size e)
    (hbase : i.definition = none → ∃ v, e = .var v) :
    (s.lookup e (s.vars.push i)).2.Tidy B := by
  unfold Expr2Subpaving.lookup
  split
  · exact h
  · unfold updateEvMap
    have hold : ∀ x e', s.var2expr x = some e' → x ≠ s.vars.size := fun x e' hx => (hc.lt x e' hx).ne
    have hcases : ∀ x e', Function.update s.var2expr s.vars.size (some e) x = some e' →
        x = s.vars.size ∧ e' = e ∨ x ≠ s.vars.size ∧ s.var2expr x = some e' := by
      intro x e' hx
      rw [Function.update_apply] at hx
      split at hx
      · exact .inl ⟨‹_›, (Option.some.inj hx).symm⟩
      · exact .inr ⟨‹_›, hx⟩
    have hints : ∀ d : Definition, d.Formed s.vars.isInt → (∀ y ∈ d.vars, y < s.vars.size) →
        d.Formed (s.vars.push i).isInt := by
      intro d hd hlt
      refine hd.congr fun y hy => ?_
      rw [Vars.push_isInt, if_neg (hlt y hy).ne]
    refine ⟨hmade, ?_, ?_, ?_, ?_⟩
    · intro x d hd
      have hd : (s.vars.push i).definition x = some d := hd
      have hlt := hmade.lt x d hd
      rw [Vars.push_size] at hlt
      have hparts : ∀ y ∈ d.vars, y < s.vars.size := fun y hy => by
        have := hlt.2 y hy
        omega
      rw [Vars.push_definition] at hd
      split at hd
      · exact hints d (hformed d hd) hparts
      · exact hints d (h.formed x d hd) hparts
    · intro x e' hx
      show Kind B (s.vars.push i) x e'
      rcases hcases x e' hx with ⟨rfl, rfl⟩ | ⟨hne, hx⟩
      · exact hkind
      · cases h.kind x e' hx with
        | bool v hv hb => exact .bool v hv (by rwa [Vars.push_isBool, if_neg hne])
        | arith _ hs hb =>
          exact .arith e' (by rwa [Vars.push_isInt, if_neg hne])
            (by rwa [Vars.push_isBool, if_neg hne])
    · intro x e' hx hd
      have hnone : (s.vars.push i).definition x = none := hd
      rw [Vars.push_definition] at hnone
      rcases hcases x e' hx with ⟨rfl, rfl⟩ | ⟨hne, hx⟩
      · exact hbase ((if_pos rfl).symm.trans hnone)
      · exact h.base x e' hx ((if_neg hne).symm.trans hnone)
    · intro t r b ht hb
      refine (h.cached t r b ht hb).mono fun x e' hx => ?_
      show Function.update _ _ _ _ = _
      rw [Function.update_of_ne (hold x e' hx), hx]

theorem Consistent.lookup_recorded {s : Expr2Subpaving} (h : s.Consistent) (e : Term)
    (made : Vars) : (s.lookup e made).2.var2expr (s.lookup e made).1 = some e := by
  unfold Expr2Subpaving.lookup
  split
  · rename_i x hx
    exact (h.inverse x e).mp hx
  · exact Function.update_self ..

/-! ## Base variables -/

theorem Tidy.mkVarFor {s : Expr2Subpaving} (h : s.Tidy B) (hc : s.Consistent) {v : Symbol}
    {b : Bool} (hv : (Term.var v).HasSort B b) :
    (s.mkVarFor (.var v)).2.Tidy B ∧
      (s.mkVarFor (.var v)).2.Typed B b (some (s.mkVarFor (.var v)).1) := by
  refine ⟨h.lookup hc (h.made.push (fun _ => rfl) nofun) nofun (.arith _ ?_ ?_) fun _ => ⟨v, rfl⟩,
    ?_⟩
  · rw [Vars.push_isInt, if_pos rfl]
    show (Term.var v).HasSort B (Term.var v).isInt
    rwa [hv.isInt_eq]
  · rw [Vars.push_isBool, if_pos rfl]
  · intro y hy
    cases hy
    exact ⟨_, hc.lookup_recorded _ _, hv⟩

/-- A Boolean constant has a Boolean variable. -/
theorem Tidy.internalizeBool {s : Expr2Subpaving} (h : s.Tidy B) (hc : s.Consistent) {v : Symbol}
    (hv : B v = true) : (s.internalizeBool v).2.Tidy B := by
  refine h.lookup hc (h.made.push nofun nofun) nofun (.bool v hv ?_) fun _ => ⟨v, rfl⟩
  rw [Vars.push_isBool, if_pos rfl]

/-! ## Defined variables -/

theorem Tidy.lookup_def {s : Expr2Subpaving} (h : s.Tidy B) (hc : s.Consistent) {e : Term}
    {b : Bool} {d : Definition} (he : e.HasSort B b) (hd : d.Formed s.vars.isInt)
    (hvars : ∀ y ∈ d.vars, s.Typed B b (some y)) (hint : d.isInt s.vars.isInt = b) :
    (s.lookup e (s.vars.pushDef d)).2.Tidy B ∧
      (s.lookup e (s.vars.pushDef d)).2.Typed B b (some (s.lookup e (s.vars.pushDef d)).1) := by
  have harith : ∀ y ∈ d.vars, s.vars.Arith y := by
    intro y hy
    obtain ⟨e', he', hs⟩ := hvars y hy y rfl
    exact ⟨hc.lt y e' he', (h.sort he' hs).1⟩
  refine ⟨h.lookup hc (h.made.pushDef harith) (fun d' hd' => ?_) (.arith e ?_ ?_) nofun, ?_⟩
  · cases hd'
    exact hd
  · rw [Vars.push_isInt, if_pos rfl]
    show e.HasSort B (d.isInt s.vars.isInt)
    rwa [hint]
  · rw [Vars.push_isBool, if_pos rfl]
  · intro y hy
    cases hy
    exact ⟨e, hc.lookup_recorded _ _, he⟩

/-- The variables of a list have the sort of what they were made for. -/
theorem Tidy.isInt_of_typed {s : Expr2Subpaving} (h : s.Tidy B) {b : Bool} {y : Nat}
    (hy : s.Typed B b (some y)) : s.vars.isInt y = b := by
  obtain ⟨e, he, hs⟩ := hy y rfl
  exact (h.sort he hs).2

theorem Tidy.lookup_monomial {s : Expr2Subpaving} (h : s.Tidy B) (hc : s.Consistent) {e : Term}
    {b : Bool} {pws : List (Nat × Nat)} (he : e.HasSort B b) (hne : pws ≠ [])
    (hnd : (pws.map Prod.fst).Nodup) (hpos : ∀ p ∈ pws, 0 < p.2)
    (htyped : ∀ p ∈ pws, s.Typed B b (some p.1)) :
    (s.lookup e (s.vars.mkMonomial pws)).2.Tidy B ∧
      (s.lookup e (s.vars.mkMonomial pws)).2.Typed B b
        (some (s.lookup e (s.vars.mkMonomial pws)).1) := by
  have hperm := List.perm_insertionSort (fun p q : Nat × Nat => p.1 ≤ q.1) pws
  have hint : ∀ p ∈ pws, s.vars.isInt p.1 = b := fun p hp => h.isInt_of_typed (htyped p hp)
  refine h.lookup_def hc he ⟨?_, ?_, ?_, b, ?_⟩ ?_ ?_
  · intro hnil
    rw [hnil] at hperm
    exact hne (List.nil_perm.mp hperm)
  · exact (hperm.map _).nodup_iff.mpr hnd
  · exact fun p hp => hpos p (hperm.mem_iff.mp hp)
  · exact fun p hp => hint p (hperm.mem_iff.mp hp)
  · intro y hy
    obtain ⟨p, hp, rfl⟩ := List.mem_map.mp hy
    exact htyped p (hperm.mem_iff.mp hp)
  · rw [Definition.isInt, hperm.any_eq]
    obtain ⟨p, hp⟩ := List.exists_mem_of_ne_nil _ hne
    rw [← hint p hp, Bool.eq_iff_iff, List.any_eq_true]
    constructor
    · rintro ⟨q, hq, hqi⟩
      rwa [hint p hp, ← hint q hq]
    · exact fun hpi => ⟨p, hp, hpi⟩

/-! ## Products -/

theorem mergePowers_vars (pws : List (Nat × Nat)) :
    ∀ p ∈ mergePowers pws, ∃ q ∈ pws, q.1 = p.1 := by
  induction pws using mergePowers.induct with
  | case1 =>
    rw [mergePowers]
    exact fun q hq => absurd hq List.not_mem_nil
  | case2 p =>
    rw [mergePowers]
    exact fun q hq => ⟨q, hq, rfl⟩
  | case3 p q pws hpq ih =>
    rw [mergePowers, if_pos hpq]
    intro r hr
    obtain ⟨r', hr', hrr⟩ := ih r hr
    rcases List.mem_cons.mp hr' with rfl | hr'
    · exact ⟨p, List.mem_cons_self, hrr⟩
    · exact ⟨r', List.mem_cons_of_mem _ (List.mem_cons_of_mem _ hr'), hrr⟩
  | case4 p q pws hpq ih =>
    rw [mergePowers, if_neg hpq]
    intro r hr
    rcases List.mem_cons.mp hr with rfl | hr
    · exact ⟨r, List.mem_cons_self, rfl⟩
    · obtain ⟨r', hr', hrr⟩ := ih r hr
      exact ⟨r', List.mem_cons_of_mem _ hr', hrr⟩

/-- No variable is left twice. -/
theorem mergePowers_nodup (pws : List (Nat × Nat)) (h : pws.Pairwise fun p q => p.1 ≤ q.1) :
    ((mergePowers pws).map Prod.fst).Nodup := by
  suffices hlt : (mergePowers pws).Pairwise fun p q => p.1 < q.1 from
    List.pairwise_map.mpr (hlt.imp fun hpq => hpq.ne)
  induction pws using mergePowers.induct with
  | case1 =>
    rw [mergePowers]
    exact .nil
  | case2 p =>
    rw [mergePowers]
    exact List.pairwise_singleton _ p
  | case3 p q pws hpq ih =>
    rw [mergePowers, if_pos hpq]
    obtain ⟨hp, hqs⟩ := List.pairwise_cons.mp h
    refine ih (List.pairwise_cons.mpr ⟨fun r hr => ?_, (List.pairwise_cons.mp hqs).2⟩)
    exact hp r (List.mem_cons_of_mem q hr)
  | case4 p q pws hpq ih =>
    rw [mergePowers, if_neg hpq]
    obtain ⟨hp, hqs⟩ := List.pairwise_cons.mp h
    refine List.pairwise_cons.mpr ⟨fun r hr => ?_, ih hqs⟩
    obtain ⟨r', hr', hrr⟩ := mergePowers_vars _ r hr
    have hlt : p.1 < q.1 := lt_of_le_of_ne (hp q List.mem_cons_self) hpq
    rw [← hrr]
    rcases List.mem_cons.mp hr' with rfl | hr'
    · exact hlt
    · exact hlt.trans_le ((List.pairwise_cons.mp hqs).1 r' hr')

theorem powersOf_nodup (rs : List (Internalized × Nat)) : ((powersOf rs).map Prod.fst).Nodup := by
  refine mergePowers_nodup _ ?_
  have htrans : IsTrans (Nat × Nat) fun p q => p.1 ≤ q.1 := ⟨fun _ _ _ h h' => h.trans h'⟩
  have htotal : Std.Total fun p q : Nat × Nat => p.1 ≤ q.1 := ⟨fun p q => le_total p.1 q.1⟩
  exact List.pairwise_insertionSort _ _

theorem powersOf_typed {s : Expr2Subpaving} {b : Bool} {rs : List (Internalized × Nat)}
    (h : ∀ r ∈ rs, s.Typed B b r.1.x) : ∀ p ∈ powersOf rs, s.Typed B b (some p.1) := by
  intro p hp
  obtain ⟨q, hq, hqp⟩ := mergePowers_vars _ p hp
  rw [List.mem_insertionSort, List.mem_filterMap] at hq
  obtain ⟨r, hr, hq⟩ := hq
  obtain ⟨x, hx, rfl⟩ := Option.map_eq_some_iff.mp hq
  rw [← hqp, ← hx]
  exact h r hr

theorem Tidy.productVar {s : Expr2Subpaving} (h : s.Tidy B) (hc : s.Consistent) {b : Bool}
    {pws : List (Nat × Nat)} (hnd : (pws.map Prod.fst).Nodup) (hpos : ∀ p ∈ pws, 0 < p.2)
    (htyped : ∀ p ∈ pws, s.Typed B b (some p.1)) :
    (s.productVar pws).2.Tidy B ∧ (s.productVar pws).2.Typed B b (s.productVar pws).1 := by
  unfold Expr2Subpaving.productVar
  split
  · exact ⟨h, nofun⟩
  · exact ⟨h, htyped _ List.mem_cons_self⟩
  · rename_i hnil _
    have hsort : ∀ p ∈ pws, (s.exprOf p.1).HasSort B b := by
      intro p hp
      obtain ⟨e, he, hs⟩ := htyped p hp p.1 rfl
      rwa [exprOf_eq he]
    have hne : pws ≠ [] := fun hn => hnil hn
    exact h.lookup_monomial hc
      (monomialExpr_of_mkMul (fun ts hts hall => .mkMul hts hall) hne hpos hsort) hne hnd hpos
      htyped

theorem Tidy.finishMul {s : Expr2Subpaving} (h : s.Tidy B) (hc : s.Consistent)
    (shared : Nat → Bool) {t : Term} {ms : List Term} {b : Bool} (n d : ℤ)
    {rs : List (Internalized × Nat)} (hrs : List.Forall₂ s.FactorOf ms rs)
    (hsum : ((Term.parts ms).map fun t => t.asPower.2).sum < 2 ^ 32) (ht : t.HasSort B b)
    (htyped : ∀ r ∈ rs, s.Typed B b r.1.x) :
    (s.finishMul shared t n d rs).2.Tidy B ∧
      (s.finishMul shared t n d rs).2.Typed B b (s.finishMul shared t n d rs).1.x := by
  obtain ⟨hpows, -, -⟩ := powersOf_spec hrs hsum
  obtain ⟨htidy, hx⟩ := h.productVar hc (powersOf_nodup rs) (fun p hp => (hpows p hp).1)
    (powersOf_typed htyped)
  refine ⟨htidy.cacheResult shared fun b' hb' => ?_, hx⟩
  obtain rfl : b' = b := hb'.isInt_eq.symm.trans ht.isInt_eq
  exact hx

/-! ## Powers -/

theorem Tidy.finishPower {s : Expr2Subpaving} (h : s.Tidy B) (hc : s.Consistent)
    (shared : Nat → Bool) {a : Term} {k : ℕ+} {b : Bool} {r : Internalized}
    (ht : (Term.pow a k).HasSort B b) (hr : s.Typed B b r.x) :
    (s.finishPower shared (.pow a k) a k r).2.Tidy B ∧
      (s.finishPower shared (.pow a k) a k r).2.Typed B b
        (s.finishPower shared (.pow a k) a k r).1.x := by
  have hvar : (s.powerVar a k r.x).2.Tidy B ∧
      (s.powerVar a k r.x).2.Typed B b (s.powerVar a k r.x).1 := by
    cases hx : r.x with
    | none => exact ⟨h, nofun⟩
    | some x =>
      have ha := ht
      rw [Term.HasSort] at ha
      refine h.lookup_monomial hc (.replicate k.ne_zero ha.2) (by simp) (by simp) ?_ ?_
      · intro p hp
        rw [List.mem_singleton.mp hp]
        exact k.pos
      · intro p hp
        rw [List.mem_singleton.mp hp, ← hx]
        exact hr
  refine ⟨hvar.1.cacheResult shared fun b' hb' => ?_, hvar.2⟩
  obtain rfl : b' = b := hb'.isInt_eq.symm.trans ht.isInt_eq
  exact hvar.2

/-! ## Sums -/

theorem Tidy.sumVar {s : Expr2Subpaving} (h : s.Tidy B) (hc : s.Consistent) {b : Bool}
    {ts : List (ℤ × Nat)} (hne : ts ≠ []) (hnd : (ts.map Prod.snd).Nodup)
    (hcoeff : ∀ t ∈ ts, t.1 ≠ 0) (htyped : ∀ t ∈ ts, s.Typed B b (some t.2)) :
    (s.sumVar ts).2.Tidy B ∧ (s.sumVar ts).2.Typed B b (some (s.sumVar ts).1) := by
  have hsorted := List.perm_insertionSort (fun p q : ℤ × Nat => p.2 ≤ q.2) ts
  have hnd' : ((ts.map fun p => ((p.1 : ℚ), p.2)).map Prod.snd).Nodup := by
    rwa [List.map_map]
  have hperm := swapOut_perm hnd'
  have hint : ∀ t ∈ ts, s.vars.isInt t.2 = b := fun t ht => h.isInt_of_typed (htyped t ht)
  refine h.lookup_def hc (.poly ?_ ?_) ⟨?_, ?_, ?_⟩ ?_ ?_
  · intro hnil
    rw [List.map_eq_nil_iff] at hnil
    rw [hnil] at hsorted
    exact hne (List.nil_perm.mp hsorted)
  · intro p hp
    obtain ⟨q, hq, rfl⟩ := List.mem_map.mp hp
    obtain ⟨e, he, hs⟩ := htyped q (hsorted.mem_iff.mp hq) q.2 rfl
    show (s.exprOf q.2).HasSort B b
    rwa [exprOf_eq he]
  · intro hnil
    rw [hnil] at hperm
    exact hne (List.map_eq_nil_iff.mp (List.nil_perm.mp hperm))
  · exact (hperm.map _).nodup_iff.mpr hnd'
  · intro t ht
    obtain ⟨p, hp, rfl⟩ := List.mem_map.mp (hperm.mem_iff.mp ht)
    exact Int.cast_ne_zero.mpr (hcoeff p hp)
  · intro y hy
    obtain ⟨t, ht, rfl⟩ := List.mem_map.mp hy
    obtain ⟨p, hp, rfl⟩ := List.mem_map.mp (hperm.mem_iff.mp ht)
    exact htyped p hp
  · have hall : ∀ p ∈ ts, (s.vars.isInt p.2 && ((p.1 : ℤ) : ℚ).isInt) = b := by
      intro p hp
      rw [hint p hp, Rat.isInt, Rat.den_intCast, beq_self_eq_true, Bool.and_true]
    rw [Definition.isInt, hperm.all_eq, List.all_map]
    cases b with
    | true => exact List.all_eq_true.mpr hall
    | false =>
      obtain ⟨p, hp⟩ := List.exists_mem_of_ne_nil _ hne
      exact List.all_eq_false.mpr ⟨p, hp, by simpa using hall p hp⟩

theorem Tidy.finishAdd {s : Expr2Subpaving} (h : s.Tidy B) (hc : s.Consistent)
    (shared : Nat → Bool) {ts : List Term} {b : Bool} {rs : List Internalized}
    (hrs : List.Forall₂ s.Sound ts rs) (hreg : (Term.add ts).Regular)
    (ht : (Term.add ts).HasSort B b) (hz : (Term.add ts).NoZero)
    (htyped : ∀ r ∈ rs, s.Typed B b r.x) :
    (s.finishAdd shared (.add ts) rs).2.2.Tidy B ∧
      (s.finishAdd shared (.add ts) rs).2.2.Typed B b (s.finishAdd shared (.add ts) rs).1.x := by
  have hps := summands_spec hrs
  have hsort : ∀ b', (Term.add ts).HasSort B b' → b' = b :=
    fun b' hb' => hb'.isInt_eq.symm.trans ht.isInt_eq
  unfold Expr2Subpaving.finishAdd
  split
  · exact ⟨h.cacheResult shared fun _ _ => nofun, nofun⟩
  · rename_i p ps hp
    rw [hp] at hps
    have hne : Term.parts ts ≠ [] := by
      intro hnil
      rw [hnil, List.forall₂_nil_left_iff] at hps
      cases hps
    rw [Term.Regular] at hreg
    rw [Term.NoZero] at hz
    obtain ⟨-, -, hred, hof⟩ := polyOf_spec hps (hreg.2.2.2 hne) hreg.2.2.1
    have hnd : ((polyOf (p :: ps)).map Prod.snd).Nodup := by
      refine nodup_of_forall₂ (s := s) ?_ hreg.2.1
      rw [List.forall₂_map_right_iff]
      exact hof.imp fun t q htq => htq.2
    have hne' : polyOf (p :: ps) ≠ [] := by
      intro hnil
      rw [hnil, List.forall₂_nil_right_iff] at hof
      exact hne hof
    have hcoeff : ∀ q ∈ polyOf (p :: ps), q.1 ≠ 0 := by
      intro q hq hzero
      obtain ⟨i, hi, rfl⟩ := List.getElem_of_mem hq
      have hi' : i < (Term.parts ts).length := by rwa [hof.length_eq]
      have hval := (hof.get hi' hi).1
      rw [List.get_eq_getElem, hzero, Int.cast_zero, eq_comm, div_eq_zero_iff] at hval
      obtain ⟨hmem, hvar⟩ := Term.mem_parts.mp (List.getElem_mem hi')
      exact hval.elim ((hz _ hmem).2 hvar) (hreg.2.2.2 hne)
    have htyped' : ∀ q ∈ polyOf (p :: ps), s.Typed B b (some q.2) := by
      intro q hq
      obtain ⟨u, hu, huq⟩ := List.mem_map.mp (List.of_mem_zip (a := q.1) (b := q.2) hq).2
      rw [← hp] at hu
      obtain ⟨r, hr, hrx⟩ := List.mem_filterMap.mp hu
      obtain ⟨x, hx, rfl⟩ := Option.map_eq_some_iff.mp hrx
      rw [← huq, ← hx]
      exact htyped r hr
    obtain ⟨htidy, hx⟩ := h.sumVar hc hne' hnd hcoeff htyped'
    refine ⟨htidy.cacheResult shared fun b' hb' => ?_, hx⟩
    obtain rfl := hsort b' hb'
    exact hx

/-! ## `process` -/

/-- What `process` does for a term of one sort. -/
def Sorted (B : Symbol → Bool) (shared : Nat → Bool) (t : Term) : Prop :=
  ∀ {s s' : Expr2Subpaving} {r : Internalized} {qk : ℚ} {b : Bool}, s.Consistent → s.Tidy B →
    t.Regular → t.HasSort B b → t.NoZero → (t.constant = 0 ∨ s.cache t = none) →
    process shared t 0 s = some (r, qk, s') → s'.Tidy B ∧ s'.Typed B b r.x

theorem processArgs_tidy {shared : Nat → Bool} {ts : List Term} {b : Bool}
    (hts : ∀ t ∈ ts, Sorted B shared t) (hreg : ∀ t ∈ ts, t.Regular ∧ t.constant = 0)
    (hsort : ∀ t ∈ ts, t.HasSort B b) (hz : ∀ t ∈ ts, t.NoZero) {s s' : Expr2Subpaving}
    {rs : List Internalized} {qk : ℚ} (hc : s.Consistent) (h : s.Tidy B)
    (hp : processArgs shared ts 0 s = some (rs, qk, s')) :
    s'.Tidy B ∧ ∀ r ∈ rs, s'.Typed B b r.x := by
  induction ts generalizing s rs with
  | nil =>
    cases hp
    exact ⟨h, nofun⟩
  | cons t ts ih =>
    rw [processArgs, Option.bind_eq_some_iff] at hp
    obtain ⟨⟨r, qk₁, s₁⟩, hr, hp⟩ := hp
    obtain ⟨⟨rs', qk₂, s₂⟩, hrs, heq⟩ := Option.map_eq_some_iff.1 hp
    cases heq
    obtain ⟨htreg, hzero⟩ := hreg t List.mem_cons_self
    obtain ⟨hc₁, -, -, hqk⟩ := process_exact shared t hc htreg (.inl hzero) hr
    obtain ⟨h₁, hx⟩ := hts t List.mem_cons_self hc h htreg (hsort t List.mem_cons_self)
      (hz t List.mem_cons_self) (.inl hzero) hr
    rw [hqk, hzero] at hrs
    obtain ⟨-, hext, -, -⟩ := processArgs_spec (fun u _ => process_exact shared u)
      (fun u hu => hreg u (List.mem_cons_of_mem t hu)) hc₁ hrs
    obtain ⟨h₂, hxs⟩ := ih (fun u hu => hts u (List.mem_cons_of_mem t hu))
      (fun u hu => hreg u (List.mem_cons_of_mem t hu))
      (fun u hu => hsort u (List.mem_cons_of_mem t hu))
      (fun u hu => hz u (List.mem_cons_of_mem t hu)) hc₁ h₁ hrs
    refine ⟨h₂, fun r' hr' => ?_⟩
    rcases List.mem_cons.mp hr' with rfl | hr'
    · exact hx.mono hext
    · exact hxs r' hr'

theorem processFactors_tidy {shared : Nat → Bool} {ms : List Term} {b : Bool}
    (hms : ∀ m ∈ ms, Sorted B shared m.asPower.1)
    (hreg : ∀ m ∈ ms, m.asPower.1.Regular ∧ m.asPower.1.constant = 0)
    (hsort : ∀ m ∈ ms, m.HasSort B b) (hz : ∀ m ∈ ms, m.NoZero) {s s' : Expr2Subpaving}
    {rs : List (Internalized × Nat)} {qk : ℚ} (hc : s.Consistent) (h : s.Tidy B)
    (hp : processFactors shared ms 0 s = some (rs, qk, s')) :
    s'.Tidy B ∧ ∀ r ∈ rs, s'.Typed B b r.1.x := by
  induction ms generalizing s rs with
  | nil =>
    cases hp
    exact ⟨h, nofun⟩
  | cons m ms ih =>
    rw [processFactors_cons, Option.bind_eq_some_iff] at hp
    obtain ⟨⟨r, qk₁, s₁⟩, hr, hp⟩ := hp
    obtain ⟨⟨rs', qk₂, s₂⟩, hrs, heq⟩ := Option.map_eq_some_iff.1 hp
    cases heq
    obtain ⟨hmreg, hzero⟩ := hreg m List.mem_cons_self
    obtain ⟨hc₁, -, -, hqk⟩ := process_exact shared m.asPower.1 hc hmreg (.inl hzero) hr
    obtain ⟨h₁, hx⟩ := hms m List.mem_cons_self hc h hmreg (hsort m List.mem_cons_self).asPower
      (hz m List.mem_cons_self).asPower (.inl hzero) hr
    rw [hqk, hzero] at hrs
    obtain ⟨-, hext, -, -⟩ := processFactors_spec (fun u _ => process_exact shared u.asPower.1)
      (fun u hu => hreg u (List.mem_cons_of_mem m hu)) hc₁ hrs
    obtain ⟨h₂, hxs⟩ := ih (fun u hu => hms u (List.mem_cons_of_mem m hu))
      (fun u hu => hreg u (List.mem_cons_of_mem m hu))
      (fun u hu => hsort u (List.mem_cons_of_mem m hu))
      (fun u hu => hz u (List.mem_cons_of_mem m hu)) hc₁ h₁ hrs
    refine ⟨h₂, fun r' hr' => ?_⟩
    rcases List.mem_cons.mp hr' with rfl | hr'
    · exact hx.mono hext
    · exact hxs r' hr'

/-- The factors of a product have its sort. -/
theorem mulArgs_sort {ts ms : List Term} {n d : ℤ} {b : Bool} (h : mulArgs ts = some (n, d, ms))
    (hs : (Term.mul ts).HasSort B b) (hz : (Term.mul ts).NoZero) :
    (∀ m ∈ ms, m.HasSort B b) ∧ ∀ m ∈ ms, m.NoZero := by
  rw [Term.HasSort] at hs
  rw [Term.NoZero] at hz
  unfold mulArgs at h
  split at h
  · cases h
  · cases h
  · rename_i q b' m ms'
    split at h
    · cases h
      exact ⟨hs.2, hz⟩
    · split at h
      · have hm := hs.2 m (by simp)
        have hmz := hz m (by simp)
        split at h
        · cases h
          rw [Term.HasSort] at hm
          rw [Term.NoZero] at hmz
          exact ⟨hm.2, hmz⟩
        · cases h
          exact ⟨by simpa using hm, by simpa using hmz⟩
      · cases h
  · cases h
    exact ⟨hs.2, hz⟩

/-- **`process` keeps definitions and sorts in order.** By induction on the
size of the term. -/
theorem process_tidy (shared : Nat → Bool) (t : Term) : Sorted B shared t := by
  induction hn : sizeOf t using Nat.strong_induction_on generalizing t with
  | _ n ih =>
    subst hn
    intro s s' r qk b hcons h hreg hsort hz hcache hp
    cases hc : s.cache t with
    | some r' =>
      unfold process at hp
      rw [hc] at hp
      cases hp
      exact ⟨h, h.cached t _ b hc hsort⟩
    | none =>
      cases t with
      | num q b' =>
        unfold process at hp
        rw [hc] at hp
        cases hp
        exact ⟨h, fun e he => by cases he⟩
      | var v =>
        unfold process at hp
        rw [hc] at hp
        cases hp
        exact h.mkVarFor hcons hsort
      | add ts =>
        unfold process at hp
        rw [hc] at hp
        obtain ⟨⟨rs, qk₁, s₁⟩, hrs, heq⟩ := Option.map_eq_some_iff.1 hp
        have hargs := hreg
        have hsorts := hsort
        have hzs := hz
        rw [Term.Regular] at hargs
        rw [Term.HasSort] at hsorts
        rw [Term.NoZero] at hzs
        obtain ⟨hcons₁, -, hall, -⟩ :=
          processArgs_spec (fun u _ => process_exact shared u) hargs.1 hcons hrs
        obtain ⟨h₁, hx⟩ := processArgs_tidy
          (fun t ht => ih _ (by
            have := List.sizeOf_lt_of_mem ht
            rw [Term.add.sizeOf_spec]
            omega) t rfl) hargs.1 hsorts.2 (fun t ht => (hzs t ht).1) hcons h hrs
        obtain ⟨h₂, hx₂⟩ := h₁.finishAdd hcons₁ shared hall hreg hsort hz hx
        have heq : finishAdd shared (.add ts) rs s₁ = (r, qk, s') := heq
        rw [heq] at h₂ hx₂
        exact ⟨h₂, hx₂⟩
      | mul ts =>
        rw [process_mul hc, Option.bind_eq_some_iff] at hp
        obtain ⟨⟨n, d, ms⟩, hms, hp⟩ := hp
        obtain ⟨⟨rs, qk₁, s₁⟩, hrs, heq⟩ := Option.map_eq_some_iff.1 hp
        have hf := mulArgs_spec hms hreg
        obtain ⟨hsorts, hzs⟩ := mulArgs_sort hms hsort hz
        have hargs := hf.regular
        rw [Term.Regular] at hargs
        obtain ⟨hcons₁, -, hall, -⟩ :=
          processFactors_spec (fun u _ => process_exact shared u.asPower.1) hargs.1 hcons hrs
        obtain ⟨h₁, hx⟩ := processFactors_tidy
          (fun m hm => ih _ (hf.sizeOf_lt m hm) _ rfl) hargs.1 hsorts hzs hcons h hrs
        cases heq
        exact h₁.finishMul hcons₁ shared n d hall hargs.2 hsort hx
      | pow a k =>
        have hk := hsort
        rw [Term.HasSort] at hk
        unfold process at hp
        rw [hc] at hp
        have hp : (process shared a 0 s).map (fun r =>
            ((finishPower shared (.pow a k) a k r.1 r.2.2).1, r.2.1,
              (finishPower shared (.pow a k) a k r.1 r.2.2).2)) = some (r, qk, s') := by
          rw [← hp]
          exact (if_pos hk.1).symm
        obtain ⟨⟨r₁, qk₁, s₁⟩, hr, heq⟩ := Option.map_eq_some_iff.1 hp
        have hbase := hreg
        have hza := hz
        rw [Term.Regular] at hbase
        rw [Term.NoZero] at hza
        obtain ⟨hareg, hzero, -⟩ := hbase hk.1
        obtain ⟨hcons₁, -, -, -⟩ := process_exact shared a hcons hareg (.inl hzero) hr
        obtain ⟨h₁, hx⟩ := ih _ (by rw [Term.pow.sizeOf_spec]; omega) a rfl hcons h hareg hk.2 hza
          (.inl hzero) hr
        cases heq
        exact h₁.finishPower hcons₁ shared hsort hx

end Expr2Subpaving

end AriParti.L1
