import AriParti.L1Input.Records

/-!
# Exact internalisation

`process` gives the value of a regular term, in any state that calls for regular
terms lead to. A term that is not regular loses constants, coefficients or
summands, or is recorded under an expression of another value.

## Results

* `process_exact`: the result for a regular term is sound.
* `internalize_exact`: every call for a term that fits, after any such calls,
  returns a variable, a coefficient and a constant that give the value of the
  term, and the expression of the variable has its value.
* `internalize_power`: the constant within a power is added outside it.
-/
namespace AriParti.L1

open AriParti.Core Term

namespace Expr2Subpaving

/-! ## Terms -/

theorem sizeOf_factor {m : Term} {ms : List Term} (hm : m ∈ ms) :
    sizeOf m.asPower.1 < sizeOf (mul ms) := by
  have := List.sizeOf_lt_of_mem hm
  have := sizeOf_asPower m
  rw [mul.sizeOf_spec]
  omega

theorem parts_num (q : ℚ) (b : Bool) (ts : List Term) : parts (num q b :: ts) = parts ts := by
  unfold parts
  rw [List.filter_cons_of_neg (by simp [isConst])]

/-- The coefficient and the factors `ms` make up the product of `ts`. -/
structure Factored (ts : List Term) (n d : ℤ) (ms : List Term) : Prop where
  pos : 0 < d
  coeff : (mul ts).coeff = n / d * (mul ms).coeff
  isConst : (mul ts).isConst = (mul ms).isConst
  body : ∀ α (F : Form α), (mul ts).body F = (mul ms).body F
  regular : (mul ms).Regular
  sizeOf_lt : ∀ m ∈ ms, sizeOf m.asPower.1 < sizeOf (mul ts)

theorem mulArgs_spec {ts ms : List Term} {n d : ℤ} (h : mulArgs ts = some (n, d, ms))
    (hreg : (mul ts).Regular) : Factored ts n d ms := by
  have hself : ∀ us : List Term, (mul us).Regular →
      some ((1 : ℤ), (1 : ℤ), us) = some (n, d, ms) → Factored us n d ms := by
    intro us hus he
    cases he
    exact ⟨one_pos, by simp, rfl, fun _ _ => rfl, hus, fun m hm => sizeOf_factor hm⟩
  unfold mulArgs at h
  split at h
  · cases h
  · cases h
  · rename_i q b m us
    split at h
    · exact hself _ hreg h
    · have hpos : (0 : ℤ) < q.den := by exact_mod_cast q.den_pos
      have hq : ((q.num : ℚ) / ((q.den : ℤ) : ℚ)) = q := by
        rw [Int.cast_natCast, Rat.num_div_den]
      split at h
      · have hreg' := hreg
        rw [Regular] at hreg'
        obtain ⟨hargs, hsum⟩ := hreg'
        rw [parts_num] at hsum
        split at h
        · cases h
          refine ⟨hpos, ?_, ?_, fun α F => ?_, (hargs (mul ms) (by simp)).1, fun m hm => ?_⟩
          · rw [hq, coeff_mul]
            simp [coeff]
          · simp [isConst]
          · rw [body_mul, parts_num]
            cases hc : (mul ms).isConst with
            | false =>
              rw [parts_eq_self (by simpa using hc)]
              exact F.prod_single _
            | true =>
              rw [body_mul, parts_eq_nil.2 (by simpa using hc), parts_eq_nil.2 (isConst_mul.1 hc)]
          · have := sizeOf_factor hm
            simp only [mul.sizeOf_spec, List.cons.sizeOf_spec] at this ⊢
            omega
        · cases h
          refine ⟨hpos, ?_, ?_, fun α F => ?_, ?_, fun m' hm => ?_⟩
          · rw [hq, coeff_mul, coeff_mul]
            simp [coeff]
          · simp [isConst]
          · rw [body_mul, body_mul, parts_num]
          · rw [Regular]
            exact ⟨fun t ht => hargs t (List.mem_cons_of_mem _ ht), hsum⟩
          · have := sizeOf_factor hm
            simp only [mul.sizeOf_spec, List.cons.sizeOf_spec] at this ⊢
            omega
      · cases h
  · exact hself _ hreg h

/-- What `process` does for a regular term. -/
def Exact (shared : Nat → Bool) (t : Term) : Prop :=
  ∀ {s s' : Expr2Subpaving} {r : Internalized} {qk : ℚ}, s.Consistent → t.Regular →
    (t.constant = 0 ∨ s.cache t = none) → process shared t 0 s = some (r, qk, s') →
    s'.Consistent ∧ s.Extends s' ∧ s'.Sound t r ∧ qk = t.constant

theorem processArgs_spec {shared : Nat → Bool} {ts : List Term} (hts : ∀ t ∈ ts, Exact shared t)
    (hreg : ∀ t ∈ ts, t.Regular ∧ t.constant = 0) {s s' : Expr2Subpaving} {rs : List Internalized}
    {qk : ℚ} (h : s.Consistent) (hp : processArgs shared ts 0 s = some (rs, qk, s')) :
    s'.Consistent ∧ s.Extends s' ∧ List.Forall₂ s'.Sound ts rs ∧ qk = 0 := by
  induction ts generalizing s rs with
  | nil =>
    cases hp
    exact ⟨h, .refl _, .nil, rfl⟩
  | cons t ts ih =>
    rw [processArgs, Option.bind_eq_some_iff] at hp
    obtain ⟨⟨r, qk₁, s₁⟩, hr, hp⟩ := hp
    obtain ⟨⟨rs', qk₂, s₂⟩, hrs, heq⟩ := Option.map_eq_some_iff.1 hp
    cases heq
    obtain ⟨htreg, hzero⟩ := hreg t List.mem_cons_self
    obtain ⟨h₁, hext₁, hsound, hqk⟩ := hts t List.mem_cons_self h htreg (.inl hzero) hr
    rw [hzero] at hqk
    rw [hqk] at hrs
    obtain ⟨h₂, hext₂, hall, hqk₂⟩ := ih (fun u hu => hts u (List.mem_cons_of_mem _ hu))
      (fun u hu => hreg u (List.mem_cons_of_mem _ hu)) h₁ hrs
    exact ⟨h₂, hext₁.trans hext₂, .cons (hsound.mono hext₂) hall, hqk₂⟩

theorem processFactors_spec {shared : Nat → Bool} {ms : List Term}
    (hms : ∀ m ∈ ms, Exact shared m.asPower.1)
    (hreg : ∀ m ∈ ms, m.asPower.1.Regular ∧ m.asPower.1.constant = 0) {s s' : Expr2Subpaving}
    {rs : List (Internalized × Nat)} {qk : ℚ} (h : s.Consistent)
    (hp : processFactors shared ms 0 s = some (rs, qk, s')) :
    s'.Consistent ∧ s.Extends s' ∧ List.Forall₂ s'.FactorOf ms rs ∧ qk = 0 := by
  induction ms generalizing s rs with
  | nil =>
    cases hp
    exact ⟨h, .refl _, .nil, rfl⟩
  | cons m ms ih =>
    rw [processFactors_cons, Option.bind_eq_some_iff] at hp
    obtain ⟨⟨r, qk₁, s₁⟩, hr, hp⟩ := hp
    obtain ⟨⟨rs', qk₂, s₂⟩, hrs, heq⟩ := Option.map_eq_some_iff.1 hp
    cases heq
    obtain ⟨hmreg, hzero⟩ := hreg m List.mem_cons_self
    obtain ⟨h₁, hext₁, hsound, hqk⟩ := hms m List.mem_cons_self h hmreg (.inl hzero) hr
    rw [hzero] at hqk
    rw [hqk] at hrs
    obtain ⟨h₂, hext₂, hall, hqk₂⟩ := ih (fun u hu => hms u (List.mem_cons_of_mem _ hu))
      (fun u hu => hreg u (List.mem_cons_of_mem _ hu)) h₁ hrs
    exact ⟨h₂, hext₁.trans hext₂, .cons ⟨rfl, hsound.mono hext₂⟩ hall, hqk₂⟩

/-- A base variable of the goal is found, or made. -/
theorem Consistent.mkVarFor {s : Expr2Subpaving} (h : s.Consistent) {t : Term}
    (ht : ∀ α (F : Form α), t.body F = F.atom t) (hprim : t.Primitive) :
    (s.mkVarFor t).2.Consistent ∧ s.Extends (s.mkVarFor t).2 ∧
      (s.mkVarFor t).2.Sound t ⟨some (s.mkVarFor t).1, 1, 1⟩ := by
  obtain ⟨hcons, hext, hvar⟩ := h.lookup hprim (i := ⟨t.isInt, false, none⟩)
    ⟨fun _ => ht, nofun, nofun⟩
  refine ⟨hcons, hext, .variable one_pos ?_ hprim.isConst hvar fun _ _ => rfl⟩
  rw [hprim.coeff, Int.cast_one, div_one]

theorem primitive_atom {t : Term} (ht : (∃ v, t = .var v) ∨ ∃ a k, t = .pow a k ∧ ¬ IsUnsigned k) :
    t.Primitive ∧ ∀ α (F : Form α), t.body F = F.atom t := by
  rcases ht with ⟨v, rfl⟩ | ⟨a, k, rfl, hk⟩
  · exact ⟨⟨by rw [isConst], by rw [Term.Flat]; trivial, rfl, by rw [coeff]⟩, fun α F => by rw [body]⟩
  · refine ⟨⟨?_, ?_, rfl, ?_⟩, fun α F => ?_⟩
    · rw [isConst, decide_eq_false hk, Bool.and_false]
    · rw [Term.Flat]
      exact fun h => absurd h hk
    · rw [coeff, if_neg hk]
    · rw [body, if_neg hk]

/-- **`process` is exact for regular terms.** By induction on the size of the
term. -/
theorem process_exact (shared : Nat → Bool) (t : Term) : Exact shared t := by
  induction hn : sizeOf t using Nat.strong_induction_on generalizing t with
  | _ n ih =>
    subst hn
    intro s s' r qk h hreg hcache hp
    cases hc : s.cache t with
    | some r' =>
      have hzero := hcache.resolve_right (by simp [hc])
      unfold process at hp
      rw [hc] at hp
      cases hp
      exact ⟨h, .refl _, h.cached t _ hc, hzero.symm⟩
    | none =>
      cases t with
      | num q b =>
        unfold process at hp
        rw [hc] at hp
        cases hp
        refine ⟨h, .refl _, .constant ?_ ?_ ?_, rfl⟩
        · show (0 : ℤ) < q.den
          exact_mod_cast q.den_pos
        · show ((q.num : ℚ) / ((q.den : ℤ) : ℚ)) = _
          rw [Int.cast_natCast, Rat.num_div_den, coeff]
        · rw [isConst]
      | var v =>
        unfold process at hp
        rw [hc] at hp
        cases hp
        obtain ⟨hprim, hatom⟩ := primitive_atom (.inl ⟨v, rfl⟩)
        obtain ⟨hcons, hext, hsound⟩ := h.mkVarFor hatom hprim
        exact ⟨hcons, hext, hsound, rfl⟩
      | add ts =>
        unfold process at hp
        rw [hc] at hp
        obtain ⟨⟨rs, qk₁, s₁⟩, hrs, heq⟩ := Option.map_eq_some_iff.1 hp
        have hargs := hreg
        rw [Regular] at hargs
        obtain ⟨h₁, hext₁, hall, -⟩ := processArgs_spec
          (fun t ht => ih _ (by
            have := List.sizeOf_lt_of_mem ht
            rw [add.sizeOf_spec]
            omega) t rfl) hargs.1 h hrs
        obtain ⟨h₂, hext₂, hsound, hqk⟩ := h₁.finishAdd shared hall hreg
        have heq : finishAdd shared (.add ts) rs s₁ = (r, qk, s') := heq
        rw [heq] at h₂ hext₂ hsound hqk
        exact ⟨h₂, hext₁.trans hext₂, hsound, hqk⟩
      | mul ts =>
        rw [process_mul hc, Option.bind_eq_some_iff] at hp
        obtain ⟨⟨n, d, ms⟩, hms, hp⟩ := hp
        obtain ⟨⟨rs, qk₁, s₁⟩, hrs, heq⟩ := Option.map_eq_some_iff.1 hp
        have hf := mulArgs_spec hms hreg
        have hargs := hf.regular
        rw [Regular] at hargs
        obtain ⟨h₁, hext₁, hall, hqk⟩ := processFactors_spec
          (fun m hm => ih _ (hf.sizeOf_lt m hm) _ rfl) hargs.1 h hrs
        obtain ⟨h₂, hext₂, hsound⟩ :=
          h₁.finishMul shared hall hf.pos hargs.2 hf.coeff hf.isConst hf.body
        cases heq
        exact ⟨h₂, hext₁.trans hext₂, hsound, hqk⟩
      | pow a k =>
        unfold process at hp
        rw [hc] at hp
        by_cases hk : IsUnsigned k
        · have hp : (process shared a 0 s).map (fun r =>
              ((finishPower shared (.pow a k) a k r.1 r.2.2).1, r.2.1,
                (finishPower shared (.pow a k) a k r.1 r.2.2).2)) = some (r, qk, s') := by
            rw [← hp]
            exact (if_pos hk).symm
          obtain ⟨⟨r₁, qk₁, s₁⟩, hr, heq⟩ := Option.map_eq_some_iff.1 hp
          have hbase := hreg
          rw [Regular] at hbase
          obtain ⟨hareg, hzero, -⟩ := hbase hk
          obtain ⟨h₁, hext₁, hsound₁, hqk⟩ := ih _ (by rw [pow.sizeOf_spec]; omega) a rfl h hareg
            (.inl hzero) hr
          obtain ⟨h₂, hext₂, hsound⟩ := h₁.finishPower shared hsound₁ hk hreg
          cases heq
          exact ⟨h₂, hext₁.trans hext₂, hsound, hqk.trans hzero⟩
        · have hp : some ((⟨some (s.mkVarFor (.pow a k)).1, 1, 1⟩ : Internalized), (0 : ℚ),
              (s.mkVarFor (.pow a k)).2) = some (r, qk, s') := by
            rw [← hp]
            exact (if_neg hk).symm
          cases hp
          obtain ⟨hprim, hatom⟩ := primitive_atom (.inr ⟨a, k, rfl, hk⟩)
          obtain ⟨hcons, hext, hsound⟩ := h.mkVarFor hatom hprim
          exact ⟨hcons, hext, hsound, rfl⟩

/-! ## Calls -/

/-- The values of the variables: the definitions stored in the context, over
values of the uninterpreted constants. -/
structure Follows (s : Expr2Subpaving) (ρ : Symbol → ℝ) (σ : Assignment) : Prop where
  defs : ∀ x d, s.vars.definition x = some d → σ.num x = d.eval σ
  base : ∀ x < s.vars.size, s.vars.definition x = none → σ.num x = (s.exprOf x).eval ρ

/-- The result gives the value of the term, and the expression recorded for its
variable has the value of the variable. -/
def Represents (s : Expr2Subpaving) (t : Term) (r : Internalized) (qk : ℚ) : Prop :=
  ∃ x e, r.x = some x ∧ r.n ≠ 0 ∧ 0 < r.d ∧ s.var2expr x = some e ∧
    ∀ ρ, (∃ σ, s.Follows ρ σ) ∧ ∀ σ, s.Follows ρ σ →
      t.eval ρ = r.n / r.d * σ.num x + qk ∧ e.eval ρ = σ.num x

/-- A call of `internalize_term`, and which results may be cached in it. -/
structure Call where
  term : Term
  shared : Nat → Bool

/-- Any sequence of calls that do not throw; `qk` is zero, as `mk_atom` has it. -/
def calls : LTS Expr2Subpaving Call where
  init s := s = empty
  step s c s' := ∃ r qk, process c.shared c.term 0 s = some (r, qk, s')

/-- The term is regular, not zero times a term with a variable, and not cached if
it is a sum with a constant. -/
def Fits (s : Expr2Subpaving) (c : Call) : Prop :=
  c.term.Regular ∧ (c.term.isConst = false → c.term.coeff ≠ 0) ∧
    (c.term.constant = 0 ∨ s.cache c.term = none)

theorem consistent_inductive : (calls.restrict Fits).Inductive Consistent := by
  constructor
  · rintro s rfl
    exact ⟨fun _ _ => iff_of_false nofun nofun, nofun, nofun, nofun, nofun, nofun, nofun⟩
  · rintro s c s' h ⟨⟨hreg, -, hcache⟩, r, qk, hp⟩
    exact (process_exact c.shared c.term h hreg hcache hp).1

/-- Each expression has the value of its variable. By induction on the
variable. -/
theorem Consistent.eval {s : Expr2Subpaving} (h : s.Consistent) {ρ : Symbol → ℝ} {σ : Assignment}
    (hσ : s.Follows ρ σ) (x : Nat) {e : Term} (he : s.var2expr x = some e) :
    e.eval ρ = σ.num x := by
  induction x using Nat.strong_induction_on generalizing e with
  | _ x ih =>
    cases hd : s.vars.definition x with
    | none => rw [hσ.base x (h.lt x e he) hd, exprOf_eq he]
    | some d =>
      have hdesc := h.describes x e he
      rw [hσ.defs x d hd, (h.primitive x e he).eval_eq, hdesc.body d hd, ← d.body_real ρ]
      refine d.body_congr _ fun y hy => ?_
      obtain ⟨e', he'⟩ := hdesc.recorded d hd y hy
      rw [exprOf_eq he', ← (h.primitive y e' he').eval_eq]
      exact ih y (h.earlier x d hd y hy) he'

theorem Vars.lt_of_definition {s : Vars} {x : Nat} {d : Definition} (h : s.definition x = some d) :
    x < s.size := by
  obtain ⟨e, he, -⟩ := Option.bind_eq_some_iff.1 h
  exact (List.getElem?_eq_some_iff.1 he).1

/-- The expressions evaluated. -/
theorem Consistent.follows {s : Expr2Subpaving} (h : s.Consistent) (ρ : Symbol → ℝ) :
    s.Follows ρ ⟨fun x => (s.exprOf x).eval ρ, fun _ => false⟩ := by
  refine ⟨fun x d hd => ?_, fun _ _ _ => rfl⟩
  obtain ⟨e, he⟩ := h.recorded x (Vars.lt_of_definition hd)
  have hdesc := h.describes x e he
  show (s.exprOf x).eval ρ = _
  rw [exprOf_eq he, (h.primitive x e he).eval_eq, hdesc.body d hd, ← d.body_real ρ]
  refine d.body_congr _ fun y hy => ?_
  exact ((h.exprOf (hdesc.recorded d hd y hy)).eval_eq ρ).symm

/-- **Internalisation is exact for the terms that fit.** After any calls for such
terms, with any results in the cache, a call for a term with a variable that does
not throw returns a variable and numbers that give the value of the term. -/
theorem internalize_exact {s s' : Expr2Subpaving} (hs : (calls.restrict Fits).Reachable s)
    {c : Call} (hc : Fits s c) (hvar : c.term.isConst = false) {r : Internalized} {qk : ℚ}
    (hp : process c.shared c.term 0 s = some (r, qk, s')) : s'.Represents c.term r qk := by
  have h := consistent_inductive.reachable hs
  obtain ⟨hreg, hne, hcache⟩ := hc
  obtain ⟨h', -, hsound, rfl⟩ := process_exact c.shared c.term h hreg hcache hp
  obtain ⟨x, hx⟩ := Option.ne_none_iff_exists'.1 fun hx =>
    absurd (hsound.isConst hx) (by rw [hvar]; exact Bool.false_ne_true)
  obtain ⟨-, e, he, ha⟩ := hsound.recorded x hx
  have hn : r.n ≠ 0 := by
    intro hzero
    refine hne hvar ?_
    rw [← hsound.coeff, hzero, Int.cast_zero, zero_div]
  refine ⟨x, e, hx, hn, hsound.pos, he, fun ρ => ⟨⟨_, h'.follows ρ⟩, fun σ hσ => ?_⟩⟩
  have heval := h'.eval hσ x he
  refine ⟨?_, heval⟩
  have hbody : c.term.body (.real ρ) = σ.num x := by
    rw [← ha, ← (h'.primitive x e he).eval_eq, heval]
  have hcoeff : (c.term.coeff : ℝ) = r.n / r.d := by
    rw [← hsound.coeff]
    push_cast
    rfl
  rw [eval_eq ρ hvar hreg.flat, hbody, hcoeff]

/-- `2x + y + 3` -/
def sampleSum : Term :=
  .add [.mul [.num 2 false, .var ⟨0, false⟩], .var ⟨1, false⟩, .num 3 false]

theorem internalize_exact_sum : ∃ r qk s', process (fun _ => true) sampleSum 0 empty =
    some (r, qk, s') ∧ r = ⟨some 2, 1, 1⟩ ∧ qk = 3 ∧ s'.Represents sampleSum r qk := by
  have hout : (process (fun _ => true) sampleSum 0 empty).map (fun p => (p.1, p.2.1)) =
      some (⟨some 2, 1, 1⟩, 3) := by decide +kernel
  obtain ⟨⟨r, qk, s'⟩, hp, hr⟩ := Option.map_eq_some_iff.1 hout
  cases hr
  have hparts : parts [.mul [.num 2 false, .var ⟨0, false⟩], .var ⟨1, false⟩, .num 3 false] =
      [.mul [.num 2 false, .var ⟨0, false⟩], .var ⟨1, false⟩] := by simp [parts, isConst]
  have hcoeff : sampleSum.coeff ≠ 0 := by
    rw [sampleSum, coeff_add, hparts]
    norm_num [content, ratGcd, coeff]
  refine ⟨_, _, _, hp, rfl, rfl,
    internalize_exact (c := ⟨sampleSum, fun _ => true⟩) (.init rfl) ⟨?_, ?_, .inr rfl⟩ ?_ hp⟩
  · rw [sampleSum, Regular, hparts]
    refine ⟨fun t ht => ?_, ?_, by simp, fun _ => hcoeff⟩
    · rcases List.mem_cons.1 ht with rfl | ht
      · refine ⟨?_, rfl⟩
        rw [Regular]
        refine ⟨fun u hu => ?_, by simp [parts, isConst, asPower]⟩
        rcases List.mem_pair.1 hu with rfl | rfl
        · exact ⟨regular_num _ _, rfl⟩
        · exact ⟨regular_var _, rfl⟩
      · rcases List.mem_pair.1 ht with rfl | rfl
        · exact ⟨regular_var _, rfl⟩
        · exact ⟨regular_num _ _, rfl⟩
    · refine List.pairwise_pair.2 (not_alike (fun v => v.id) ?_)
      simp [body_mul, parts, isConst, body, Form.real, eval]
  · exact fun _ => hcoeff
  · simp [sampleSum, isConst]

/-- `(1 + x)^65` -/
def samplePower : Term := .pow (.add [.num 1 false, .var ⟨0, false⟩]) 65

/-- At `x = 1` the power is taken for `1 + 1`. -/
theorem internalize_power : ∃ (s : Expr2Subpaving) (c : Call) (r : Internalized) (qk : ℚ)
    (s' : Expr2Subpaving), calls.Reachable s ∧ c.term.isConst = false ∧
    process c.shared c.term 0 s = some (r, qk, s') ∧ ¬ s'.Represents c.term r qk := by
  have hout : (process (fun _ => true) samplePower 0 empty).map
      (fun p => (p.1, p.2.1, p.2.2.vars, p.2.2.exprOf 0)) =
      some (⟨some 1, 1, 1⟩, 1, ⟨[⟨false, false, none⟩,
        ⟨false, false, some (.monomial [(0, 65)])⟩]⟩, .var ⟨0, false⟩) := by decide +kernel
  obtain ⟨⟨r, qk, s'⟩, hp, hr⟩ := Option.map_eq_some_iff.1 hout
  simp only [Prod.mk.injEq] at hr
  obtain ⟨rfl, rfl, hvars, hx⟩ := hr
  refine ⟨empty, ⟨samplePower, fun _ => true⟩, _, _, s', .init rfl, ?_, hp, ?_⟩
  · simp [samplePower, isConst]
  · rintro ⟨x, e, hxe, -, -, -, h⟩
    have hσ : s'.Follows (fun _ => 1) ⟨fun _ => 1, fun _ => false⟩ := by
      constructor
      · intro x d hd
        rw [hvars] at hd
        rcases x with _ | _ | x
        · cases hd
        · cases hd
          norm_num [Definition.eval]
        · cases hd
      · intro x hlt hd
        rw [hvars] at hlt hd
        rcases x with _ | _ | x
        · rw [hx]
          simp [eval]
        · cases hd
        · exact absurd hlt (by simp [Vars.size])
    have := ((h _).2 _ hσ).1
    norm_num [samplePower, eval] at this

end Expr2Subpaving

end AriParti.L1
