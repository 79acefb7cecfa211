import AriParti.L1Input.Clauses
import AriParti.L1Input.Sorts

/-!
# From the goal to the context

`subpaving_tactic` hands the formulas of the goal to `process_clause` one
after the other. Terms become variables and definitions of the context,
literals become atoms, and each clause a unit clause or a clause of two atoms
or more; then partitioning starts.

What the tactic relies on is said of the literals (`GoalLit.Fits`): terms of
one sort without constant summands, as the simplifier leaves them, that
`expr2subpaving` internalizes exactly. Constants without a variable are not
expected: the source would go on with the variable `null_var`.

## Results

* `process_accepts`: a term in the normal form does not make it throw.
* `internalizeGoal_spec`: the context is a `Problem`, and its models are the
  goal's.
-/
namespace AriParti.L1

open AriParti.Core

variable {B : Symbol → Bool}

/-! ## The front end -/

namespace Expr2Subpaving

/-- `internalize_term`, with `qk` set to zero before; `none` where it throws,
and for a term without a variable. -/
def internalizeTerm (shared : Nat → Bool) (s : Expr2Subpaving) (t : Term) :
    Option (Internal × Expr2Subpaving) :=
  (process shared t 0 s).bind fun r => r.1.x.map fun x => (⟨x, r.1.n, r.1.d, r.2.1⟩, r.2.2)

/-- The call that `mk_atom` makes for an atom. -/
def internalize (shared : Nat → Bool) (s : Expr2Subpaving) :
    GoalAtom Term Symbol → Option (Internal × Expr2Subpaving)
  | .bool v => some (⟨(s.internalizeBool v).1, 1, 1, 0⟩, (s.internalizeBool v).2)
  | .le t _ => s.internalizeTerm shared t
  | .ge t _ => s.internalizeTerm shared t
  | .eq t _ => s.internalizeTerm shared t

/-- The answer to the only call of an atom, and `is_int` of the context after
it. -/
def answering (r : Internal × Expr2Subpaving) : Internalizer Expr2Subpaving Term Symbol where
  term _ _ := r
  bool _ _ := (r.1.x, r.2)
  isInt := r.2.vars.isInt

/-- mirrors subpaving_tactic.cpp:136-246 -/
def mkAtom (shared : Nat → Bool) (s : Expr2Subpaving) (l : GoalLit Term Symbol) :
    Option (Bool × List Lit × Expr2Subpaving) :=
  (s.internalize shared l.strip.2).map fun r => L1.mkAtom (answering r) s l

/-- The loop over the literals; the list is missing where the clause is always
true. -/
def mkAtoms (shared : Nat → Bool) :
    Expr2Subpaving → List (GoalLit Term Symbol) → Option (Option (List Lit) × Expr2Subpaving)
  | s, [] => some (some [], s)
  | s, l :: ls =>
    (s.mkAtom shared l).bind fun r =>
      if r.1 then some (none, r.2.2)
      else (mkAtoms shared r.2.2 ls).map fun rs => (rs.1.map (r.2.1 ++ ·), rs.2)

end Expr2Subpaving

/-- What the tactic has built. -/
structure Front where
  e2s : Expr2Subpaving
  unitClauses : List Lit
  clauses : List (List Lit)

/-- What comes of a goal: an exception, "unsat by empty clause", or the
context. -/
inductive Outcome where
  | thrown
  | unsat
  | context (f : Front)

namespace Front

def empty : Front := ⟨.empty, [], []⟩

/-- mirrors subpaving_t_def.h:770-804, 824-836 -/
def addClause (f : Front) : List Lit → Front
  | [a] => { f with unitClauses := f.unitClauses ++ [a] }
  | buffer => { f with clauses := f.clauses ++ [buffer.insertionSort Lit.leVar] }

/-- mirrors subpaving_tactic.cpp:248-276 -/
def processClause (shared : Nat → Bool) (f : Front) (c : GoalClause Term Symbol) : Outcome :=
  match f.e2s.mkAtoms shared c.args with
  | none => .thrown
  | some (none, s) => .context { f with e2s := s }
  | some (some [], _) => .unsat
  | some (some (a :: as), s) => .context ({ f with e2s := s }.addClause (a :: as))

/-- mirrors subpaving_tactic.cpp:278-299 -/
def internalizeGoal (shared : Nat → Bool) : Front → List (GoalClause Term Symbol) → Outcome
  | f, [] => .context f
  | f, c :: cs =>
    match f.processClause shared c with
    | .context f => internalizeGoal shared f cs
    | o => o

end Front

/-! ## The meaning of a goal -/

/-- Values of the symbols. -/
structure Valuation where
  num : Symbol → ℝ
  bool : Symbol → Bool

namespace Valuation

/-- Arithmetic symbols of sort Int have integers. -/
def IntValued (B : Symbol → Bool) (V : Valuation) : Prop :=
  ∀ v, v.isInt = true → B v = false → ∃ k : ℤ, V.num v = k

noncomputable def reading (V : Valuation) : Reading Term Symbol :=
  ⟨fun _ t => t.eval V.num, fun _ v => V.bool v⟩

def Satisfies (V : Valuation) (c : GoalClause Term Symbol) : Prop :=
  ∃ l ∈ c.args, ∀ σ, l.Holds V.reading σ

end Valuation

/-- The values of the variables are those of what is recorded for them. -/
structure Expr2Subpaving.Agrees (s : Expr2Subpaving) (V : Valuation) (σ : Assignment) :
    Prop where
  num : ∀ x e, s.var2expr x = some e → s.vars.isBool x = false → σ.num x = e.eval V.num
  bool : ∀ x v, s.var2expr x = some (.var v) → s.vars.isBool x = true → σ.bool x = V.bool v

/-! ## The terms of a goal -/

/-- No product throws. -/
def Term.Simplified : Term → Prop
  | num _ _ => True
  | var _ => True
  | add ts => ∀ t ∈ ts, t.Simplified
  | mul ts => (Expr2Subpaving.mulArgs ts).isSome = true ∧ ∀ t ∈ ts, t.Simplified
  | pow t _ => t.Simplified

/-- A term of an atom, as the simplifier leaves it. -/
structure Term.Fits (B : Symbol → Bool) (t : Term) : Prop where
  regular : t.Regular
  isConst : t.isConst = false
  coeff : t.coeff ≠ 0
  constant : t.constant = 0
  sort : ∃ b, t.HasSort B b
  noZero : t.NoZero
  simplified : t.Simplified

def GoalAtom.Fits (B : Symbol → Bool) : GoalAtom Term Symbol → Prop
  | .bool v => B v = true
  | .le t _ => t.Fits B
  | .ge t _ => t.Fits B
  | .eq t _ => t.Fits B

def GoalLit.Fits (B : Symbol → Bool) (l : GoalLit Term Symbol) : Prop := l.strip.2.Fits B

/-- The factors of a product in normal form. -/
theorem mulArgs_simplified {ts ms : List Term} {n d : ℤ}
    (h : Expr2Subpaving.mulArgs ts = some (n, d, ms)) (hs : ∀ t ∈ ts, t.Simplified) :
    ∀ m ∈ ms, m.Simplified := by
  unfold Expr2Subpaving.mulArgs at h
  split at h
  · cases h
  · cases h
  · rename_i q b m ms'
    split at h
    · cases h
      exact hs
    · split at h
      · have hm := hs m (by simp)
        split at h
        · cases h
          rw [Term.Simplified] at hm
          exact hm.2
        · cases h
          simpa using hm
      · cases h
  · cases h
    exact hs

theorem Term.Simplified.asPower {t : Term} (h : t.Simplified) : t.asPower.1.Simplified := by
  rcases t.asPower_cases with ⟨a, k, rfl, -, ht⟩ | ht
  · rw [ht]
    rwa [Simplified] at h
  · rwa [ht]

namespace Expr2Subpaving

/-- `process` does not throw. By induction on the size of the term. -/
theorem process_accepts (shared : Nat → Bool) (t : Term) (hreg : t.Regular) (h : t.Simplified)
    (qk : ℚ) (s : Expr2Subpaving) : ∃ r, process shared t qk s = some r := by
  induction hn : sizeOf t using Nat.strong_induction_on generalizing t qk s with
  | _ n ih =>
    subst hn
    have hargs : ∀ (ts : List Term) (qk : ℚ) (s : Expr2Subpaving),
        (∀ u ∈ ts, u.Regular ∧ u.Simplified ∧ sizeOf u < sizeOf t) →
        ∃ r, processArgs shared ts qk s = some r := by
      intro ts
      induction ts with
      | nil => exact fun qk s _ => ⟨_, rfl⟩
      | cons u us ihs =>
        intro qk s hus
        obtain ⟨hu, hus'⟩ := List.forall_mem_cons.mp hus
        obtain ⟨r, hr⟩ := ih _ hu.2.2 u hu.1 hu.2.1 qk s rfl
        obtain ⟨rs, hrs⟩ := ihs r.2.1 r.2.2 hus'
        exact ⟨_, by rw [processArgs, hr, Option.bind_some, hrs, Option.map_some]⟩
    have hfactors : ∀ (ms : List Term) (qk : ℚ) (s : Expr2Subpaving),
        (∀ u ∈ ms, u.asPower.1.Regular ∧ u.Simplified ∧ sizeOf u.asPower.1 < sizeOf t) →
        ∃ r, processFactors shared ms qk s = some r := by
      intro ms
      induction ms with
      | nil => exact fun qk s _ => ⟨_, rfl⟩
      | cons u us ihs =>
        intro qk s hus
        obtain ⟨hu, hus'⟩ := List.forall_mem_cons.mp hus
        obtain ⟨r, hr⟩ := ih _ hu.2.2 _ hu.1 hu.2.1.asPower qk s rfl
        obtain ⟨rs, hrs⟩ := ihs r.2.1 r.2.2 hus'
        exact ⟨_, by rw [processFactors_cons, hr, Option.bind_some, hrs, Option.map_some]⟩
    cases hc : s.cache t with
    | some r =>
      unfold process
      rw [hc]
      exact ⟨_, rfl⟩
    | none =>
      cases t with
      | num q b =>
        unfold process
        rw [hc]
        exact ⟨_, rfl⟩
      | var v =>
        unfold process
        rw [hc]
        exact ⟨_, rfl⟩
      | add ts =>
        rw [Term.Simplified] at h
        rw [Term.Regular] at hreg
        obtain ⟨r, hr⟩ := hargs ts qk s fun u hu => by
          have := List.sizeOf_lt_of_mem hu
          rw [Term.add.sizeOf_spec]
          exact ⟨(hreg.1 u hu).1, h u hu, by omega⟩
        unfold process
        rw [hc]
        simp only
        rw [hr]
        exact ⟨_, rfl⟩
      | mul ts =>
        rw [Term.Simplified] at h
        obtain ⟨⟨n, d, ms⟩, hms⟩ := Option.isSome_iff_exists.mp h.1
        have hf := mulArgs_spec hms hreg
        have hms' := hf.regular
        rw [Term.Regular] at hms'
        obtain ⟨r, hr⟩ := hfactors ms qk s fun u hu =>
          ⟨(hms'.1 u hu).1, mulArgs_simplified hms h.2 u hu, hf.sizeOf_lt u hu⟩
        rw [process_mul hc, hms, Option.bind_some, hr]
        exact ⟨_, rfl⟩
      | pow a k =>
        rw [Term.Simplified] at h
        rw [Term.Regular] at hreg
        unfold process
        rw [hc]
        simp only
        split
        · rename_i hk
          obtain ⟨r, hr⟩ := ih _ (by rw [Term.pow.sizeOf_spec]; omega) a (hreg hk).1 h qk s rfl
          rw [hr]
          exact ⟨_, rfl⟩
        · exact ⟨_, rfl⟩

/-! ## One atom -/

/-- A state with all that is kept, reached from `s`. -/
structure Keeps (B : Symbol → Bool) (s s' : Expr2Subpaving) : Prop where
  consistent : s'.Consistent
  tidy : s'.Tidy B
  ext : s.Extends s'

theorem Agrees.of_extends {s s' : Expr2Subpaving} {V : Valuation} {σ : Assignment}
    (h : s'.Agrees V σ) (hs : s.Tidy B) (hs' : Keeps B s s') : s.Agrees V σ := by
  constructor
  · intro x e he hx
    refine h.num x e (hs'.ext x e he) ?_
    cases hs.kind x e he with
    | bool v hv hb => simp [hb] at hx
    | arith _ hsort _ => exact (hs'.tidy.sort (hs'.ext x e he) hsort).1
  · intro x v he hx
    refine h.bool x v (hs'.ext x _ he) ?_
    cases hs.kind x _ he with
    | bool _ hv _ => exact hs'.tidy.sort_bool (hs'.ext x _ he) hv
    | arith _ _ hb => simp [hb] at hx

/-- Under agreeing values, variables taken for integers are integers. -/
theorem Agrees.isInt {s : Expr2Subpaving} {V : Valuation} {σ : Assignment} (h : s.Agrees V σ)
    (hs : s.Tidy B) (hc : s.Consistent) (hV : V.IntValued B) (x : Nat)
    (hx : s.vars.isInt x = true) : ∃ k : ℤ, σ.num x = k := by
  have harith := hs.made.int x hx
  obtain ⟨e, he⟩ := hc.recorded x harith.1
  rw [h.num x e he harith.2]
  cases hs.kind x e he with
  | bool v _ hb => simp [harith.2] at hb
  | arith _ hsort _ => exact (hx ▸ hsort).eval_int hV

/-- The atom is about a variable of the right kind. -/
def Placed (B : Symbol → Bool) (s : Expr2Subpaving) (a : Lit) : Prop :=
  ∃ e, s.var2expr a.x = some e ∧
    if a.isBoolLit then ∃ v, e = .var v ∧ B v = true else ∃ b, e.HasSort B b

theorem Placed.mono {s s' : Expr2Subpaving} {a : Lit} (h : Placed B s a) (hs : s.Extends s') :
    Placed B s' a := by
  obtain ⟨e, he, hk⟩ := h
  exact ⟨e, hs _ e he, hk⟩

theorem Placed.sorted {s : Expr2Subpaving} {a : Lit} (h : Placed B s a) (hs : s.Tidy B)
    (hc : s.Consistent) : a.x < s.vars.size ∧ s.vars.isBool a.x = a.isBoolLit := by
  obtain ⟨e, he, hk⟩ := h
  refine ⟨hc.lt _ e he, ?_⟩
  cases ha : a.isBoolLit with
  | true =>
    rw [if_pos ha] at hk
    obtain ⟨v, rfl, hv⟩ := hk
    exact hs.sort_bool he hv
  | false =>
    rw [if_neg (by simp [ha])] at hk
    obtain ⟨b, hb⟩ := hk
    exact (hs.sort he hb).1

/-- What the answer says of the atom. -/
structure Answers (B : Symbol → Bool) (a : GoalAtom Term Symbol)
    (r : Internal × Expr2Subpaving) : Prop where
  n_ne : r.1.n ≠ 0
  d_pos : 0 < r.1.d
  placed : ∃ e, r.2.var2expr r.1.x = some e ∧
    match a with
    | .bool v => e = .var v ∧ B v = true
    | _ => ∃ b, e.HasSort B b
  meaning : ∀ V σ, r.2.Agrees V σ → (a.Holds V.reading σ ↔
    a.Holds ⟨fun σ _ => r.1.n / r.1.d * σ.num r.1.x + r.1.qk, fun σ _ => σ.bool r.1.x⟩ σ)

/-- `internalize_term`, for a term that fits. -/
theorem internalizeTerm_spec (shared : Nat → Bool) {s : Expr2Subpaving} (hc : s.Consistent)
    (h : s.Tidy B) {t : Term} (ht : t.Fits B) : ∃ r, s.internalizeTerm shared t = some r ∧ Keeps B s r.2 ∧ r.1.n ≠ 0 ∧
      0 < r.1.d ∧ (∃ e, r.2.var2expr r.1.x = some e ∧ ∃ b, e.HasSort B b) ∧
      ∀ V σ, r.2.Agrees V σ → t.eval V.num = r.1.n / r.1.d * σ.num r.1.x + r.1.qk := by
  obtain ⟨⟨i, qk, s'⟩, hp⟩ := process_accepts shared t ht.regular ht.simplified 0 s
  obtain ⟨hc', hext, hsound, hqk⟩ := process_exact shared t hc ht.regular (.inl ht.constant) hp
  obtain ⟨b, hb⟩ := ht.sort
  obtain ⟨htidy, htyped⟩ :=
    process_tidy shared t hc h ht.regular hb ht.noZero (.inl ht.constant) hp
  obtain ⟨x, hx⟩ := Option.ne_none_iff_exists'.mp fun hx =>
    absurd (hsound.isConst hx) (by simp [ht.isConst])
  obtain ⟨-, e, he, ha⟩ := hsound.recorded x hx
  obtain ⟨e', he', hsort⟩ := htyped x hx
  cases he.symm.trans he'
  have hne : i.n ≠ 0 := by
    intro hzero
    refine ht.coeff ?_
    rw [← hsound.coeff, hzero, Int.cast_zero, zero_div]
  refine ⟨(⟨x, i.n, i.d, qk⟩, s'), ?_, ⟨hc', htidy, hext⟩, hne, hsound.pos, ⟨e, he, b, hsort⟩, ?_⟩
  · rw [internalizeTerm, hp, Option.bind_some, hx, Option.map_some]
  · intro V σ hσ
    have hbody : t.body (.real V.num) = σ.num x := by
      rw [← ha, ← (hc'.primitive x e he).eval_eq, hσ.num x e he (htidy.sort he hsort).1]
    have hcoeff : (t.coeff : ℝ) = i.n / i.d := by
      rw [← hsound.coeff]
      push_cast
      rfl
    rw [Term.eval_eq V.num ht.isConst ht.regular.flat, hbody, hcoeff, hqk]

theorem internalize_spec (shared : Nat → Bool) {s : Expr2Subpaving} (hc : s.Consistent)
    (h : s.Tidy B) {a : GoalAtom Term Symbol} (ha : a.Fits B) :
    ∃ r, s.internalize shared a = some r ∧ Keeps B s r.2 ∧ Answers B a r := by
  cases a with
  | bool v =>
    have hrec := hc.lookup_recorded (.var v) s.vars.mkBvar
    obtain ⟨hprim, hatom⟩ := primitive_atom (.inl ⟨v, rfl⟩)
    obtain ⟨hc', hext, -⟩ :=
      hc.lookup hprim (i := ⟨false, true, none⟩) ⟨fun _ => hatom, nofun, nofun⟩
    have htidy := h.internalizeBool hc ha
    refine ⟨_, rfl, ⟨hc', htidy, hext⟩, one_ne_zero, one_pos, ⟨_, hrec, rfl, ha⟩, ?_⟩
    intro V σ hσ
    have hb := hσ.bool _ v hrec (htidy.sort_bool hrec ha)
    show V.bool v = true ↔ σ.bool _ = true
    rw [← hb]
    rfl
  | le t k =>
    obtain ⟨r, hr, hk, hn, hd, hp, hval⟩ := internalizeTerm_spec shared hc h ha
    refine ⟨r, hr, hk, hn, hd, hp, fun V σ hσ => ?_⟩
    show t.eval V.num ≤ k ↔ _
    rw [hval V σ hσ]
    rfl
  | ge t k =>
    obtain ⟨r, hr, hk, hn, hd, hp, hval⟩ := internalizeTerm_spec shared hc h ha
    refine ⟨r, hr, hk, hn, hd, hp, fun V σ hσ => ?_⟩
    show (k : ℝ) ≤ t.eval V.num ↔ _
    rw [hval V σ hσ]
    rfl
  | eq t k =>
    obtain ⟨r, hr, hk, hn, hd, hp, hval⟩ := internalizeTerm_spec shared hc h ha
    refine ⟨r, hr, hk, hn, hd, hp, fun V σ hσ => ?_⟩
    show t.eval V.num = k ↔ _
    rw [hval V σ hσ]
    rfl

theorem mkEq_answering (r : Internal × Expr2Subpaving) (s : Expr2Subpaving) (neg : Bool) (t : Term)
    (k : ℚ) : (L1.mkEq (answering r) s neg t k).2.2 = r.2 ∧
      ∀ a ∈ (L1.mkEq (answering r) s neg t k).2.1, a.x = r.1.x ∧ a.isBoolLit = false := by
  obtain ⟨c, negative, hr⟩ : ∃ c negative,
      L1.isolate (answering r) s t k = (r.1.x, c, negative, r.2) := ⟨_, _, rfl⟩
  unfold L1.mkEq
  rw [hr]
  simp only
  by_cases hx : ((answering r).isInt r.1.x && !c.isInt) = true
  · rw [if_pos hx]
    exact ⟨rfl, by simp⟩
  · rw [if_neg hx]
    cases neg with
    | true => exact ⟨rfl, by simp [Lit.x, Lit.isBoolLit]⟩
    | false => exact ⟨rfl, by simp [Lit.x, Lit.isBoolLit]⟩

/-- The atoms are about the variable of the answer, and Boolean where it is. -/
theorem mkAtom_answering (r : Internal × Expr2Subpaving) (s : Expr2Subpaving)
    (l : GoalLit Term Symbol) : (L1.mkAtom (answering r) s l).2.2 = r.2 ∧
      ∀ a ∈ (L1.mkAtom (answering r) s l).2.1,
        a.x = r.1.x ∧ (a.isBoolLit = true ↔ ∃ v, l.strip.2 = .bool v) := by
  have hineq : ∀ (neg : Bool) (t : Term) (k : ℚ) (lower : Bool),
      (L1.mkIneq (answering r) s neg t k lower).2.2 = r.2 ∧
        ∀ a ∈ (L1.mkIneq (answering r) s neg t k lower).2.1, a.x = r.1.x ∧ a.isBoolLit = false := by
    intro neg t k lower
    refine ⟨rfl, fun a ha => ?_⟩
    rw [List.mem_singleton.mp ha]
    exact ⟨rfl, rfl⟩
  unfold L1.mkAtom
  rcases hl : l.strip with ⟨neg, a⟩
  cases a with
  | bool v =>
    refine ⟨rfl, fun a ha => ?_⟩
    rw [List.mem_singleton.mp ha]
    exact ⟨rfl, by simp [Lit.isBoolLit]⟩
  | le t k =>
    refine ⟨rfl, fun a ha => ?_⟩
    obtain ⟨hx, hb⟩ := (hineq neg t k false).2 a ha
    exact ⟨hx, by simp [hb]⟩
  | ge t k =>
    refine ⟨rfl, fun a ha => ?_⟩
    obtain ⟨hx, hb⟩ := (hineq neg t k true).2 a ha
    exact ⟨hx, by simp [hb]⟩
  | eq t k =>
    obtain ⟨hs, hall⟩ := mkEq_answering r s neg t k
    refine ⟨hs, fun a ha => ?_⟩
    obtain ⟨hx, hb⟩ := hall a ha
    exact ⟨hx, by simp [hb]⟩

/-- The meaning of a literal is that of its atom. -/
theorem holds_of_strip {R R' : Reading Term Symbol} {σ : Assignment} (l : GoalLit Term Symbol)
    (h : l.strip.2.Holds R σ ↔ l.strip.2.Holds R' σ) : l.Holds R σ ↔ l.Holds R' σ := by
  rw [l.holds_strip, l.holds_strip, h]

/-- What a literal becomes. -/
structure AtomsOf (B : Symbol → Bool) (l : GoalLit Term Symbol)
    (r : Bool × List Lit × Expr2Subpaving) : Prop where
  always : r.1 = true → ∀ V σ, V.IntValued B → r.2.2.Agrees V σ → l.Holds V.reading σ
  meaning : r.1 = false → ∀ V σ, V.IntValued B → r.2.2.Agrees V σ →
    ((∃ a ∈ r.2.1, a.Holds σ) ↔ l.Holds V.reading σ)
  placed : ∀ a ∈ r.2.1, Placed B r.2.2 a ∧ ∀ x k, a ≠ .eq x k true

theorem mkAtom_atomsOf (shared : Nat → Bool) {s : Expr2Subpaving} (hc : s.Consistent) (h : s.Tidy B)
    {l : GoalLit Term Symbol} (hl : l.Fits B) :
    ∃ r, s.mkAtom shared l = some r ∧ Keeps B s r.2.2 ∧ AtomsOf B l r := by
  obtain ⟨r, hr, hk, ha⟩ := internalize_spec shared hc h hl
  obtain ⟨hstate, hx⟩ := mkAtom_answering r s l
  have hI : (answering r).Exact
      ⟨fun σ _ => r.1.n / r.1.d * σ.num r.1.x + r.1.qk, fun σ _ => σ.bool r.1.x⟩
      fun σ => ∀ x, r.2.vars.isInt x = true → ∃ m : ℤ, σ.num x = m :=
    ⟨fun _ _ => ha.n_ne, fun _ _ => ha.d_pos, fun _ _ _ _ => rfl, fun _ _ _ _ => rfl,
      fun _ hσ => hσ⟩
  have hm := mkAtom_spec hI s l
  have hmean : ∀ V σ, r.2.Agrees V σ → (l.Holds V.reading σ ↔ l.Holds _ σ) := fun V σ hσ =>
    holds_of_strip l (ha.meaning V σ hσ)
  refine ⟨_, by rw [mkAtom, hr, Option.map_some], by rwa [hstate], ?_, ?_, ?_⟩
  · intro htrue V σ hV hσ
    rw [hstate] at hσ
    exact (hmean V σ hσ).mpr (hm.always htrue σ (hσ.isInt hk.tidy hk.consistent hV))
  · intro hfalse V σ hV hσ
    rw [hstate] at hσ
    exact (hm.meaning hfalse σ (hσ.isInt hk.tidy hk.consistent hV)).trans (hmean V σ hσ).symm
  · intro a haa
    obtain ⟨hax, hab⟩ := hx a haa
    constructor
    · obtain ⟨e, he, hkind⟩ := ha.placed
      rw [hstate]
      refine ⟨e, by rw [hax, he], ?_⟩
      cases hb : a.isBoolLit with
      | true =>
        obtain ⟨v, hv⟩ := hab.mp hb
        rw [hv] at hkind
        exact ⟨v, hkind⟩
      | false =>
        rw [if_neg (by simp)]
        cases hs : l.strip.2 with
        | bool v => simp [hab.mpr ⟨v, hs⟩] at hb
        | le t k => rwa [hs] at hkind
        | ge t k => rwa [hs] at hkind
        | eq t k => rwa [hs] at hkind
    · cases hb : a.isBoolLit with
      | true => intro x k hcon; simp [hcon, Lit.isBoolLit] at hb
      | false => exact (hm.shape a haa hb).2

/-- What the literals of a clause become. -/
structure BufferOf (B : Symbol → Bool) (ls : List (GoalLit Term Symbol))
    (r : Option (List Lit) × Expr2Subpaving) : Prop where
  always : r.1 = none → ∀ V σ, V.IntValued B → r.2.Agrees V σ → ∃ l ∈ ls, l.Holds V.reading σ
  meaning : ∀ buffer, r.1 = some buffer → ∀ V σ, V.IntValued B → r.2.Agrees V σ →
    ((∃ a ∈ buffer, a.Holds σ) ↔ ∃ l ∈ ls, l.Holds V.reading σ)
  placed : ∀ buffer, r.1 = some buffer → ∀ a ∈ buffer, Placed B r.2 a ∧ ∀ x k, a ≠ .eq x k true

theorem mkAtoms_bufferOf (shared : Nat → Bool) {s : Expr2Subpaving} (hc : s.Consistent)
    (h : s.Tidy B) (ls : List (GoalLit Term Symbol)) (hls : ∀ l ∈ ls, l.Fits B) :
    ∃ r, s.mkAtoms shared ls = some r ∧ Keeps B s r.2 ∧ BufferOf B ls r := by
  induction ls generalizing s with
  | nil =>
    refine ⟨_, rfl, ⟨hc, h, .refl s⟩, nofun, fun buffer hb => ?_, fun buffer hb => ?_⟩
    · cases hb
      simp
    · cases hb
      exact nofun
  | cons l ls ih =>
    obtain ⟨hl, hls⟩ := List.forall_mem_cons.mp hls
    obtain ⟨r, hr, hk, ha⟩ := mkAtom_atomsOf shared hc h hl
    rw [mkAtoms, hr, Option.bind_some]
    cases htrue : r.1 with
    | true =>
      refine ⟨_, rfl, hk, fun _ V σ hV hσ => ?_, nofun, nofun⟩
      exact ⟨l, List.mem_cons_self, ha.always htrue V σ hV hσ⟩
    | false =>
      obtain ⟨rs, hrs, hks, hbuf⟩ := ih hk.consistent hk.tidy hls
      have hagree : ∀ {V σ}, rs.2.Agrees V σ → r.2.2.Agrees V σ := fun hσ =>
        hσ.of_extends hk.tidy hks
      rw [if_neg Bool.false_ne_true, hrs, Option.map_some]
      refine ⟨_, rfl, ⟨hks.consistent, hks.tidy, hk.ext.trans hks.ext⟩, ?_, ?_, ?_⟩
      · intro hnone V σ hV hσ
        obtain ⟨l', hl', hh⟩ := hbuf.always (Option.map_eq_none_iff.mp hnone) V σ hV hσ
        exact ⟨l', List.mem_cons_of_mem l hl', hh⟩
      · intro buffer hb V σ hV hσ
        obtain ⟨buffer', hb', rfl⟩ := Option.map_eq_some_iff.mp hb
        have h₁ := ha.meaning htrue V σ hV (hagree hσ)
        have h₂ := hbuf.meaning buffer' hb' V σ hV hσ
        simp only [List.mem_append, List.mem_cons, or_and_right, exists_or, exists_eq_left]
        rw [h₁, h₂]
      · intro buffer hb a haa
        obtain ⟨buffer', hb', rfl⟩ := Option.map_eq_some_iff.mp hb
        rcases List.mem_append.mp haa with haa | haa
        · obtain ⟨hp, hne⟩ := ha.placed a haa
          exact ⟨hp.mono hks.ext, hne⟩
        · exact hbuf.placed buffer' hb' a haa

/-- The values of the variables under a valuation. -/
noncomputable def evaluated (s : Expr2Subpaving) (V : Valuation) : Assignment where
  num x := (s.exprOf x).eval V.num
  bool x :=
    match s.exprOf x with
    | .var v => V.bool v
    | _ => false

theorem evaluated_agrees (s : Expr2Subpaving) (V : Valuation) : s.Agrees V (s.evaluated V) := by
  constructor
  · intro x e he _
    show (s.exprOf x).eval V.num = _
    rw [exprOf_eq he]
  · intro x v he _
    unfold evaluated
    simp only
    rw [exprOf_eq he]

end Expr2Subpaving

/-! ## The clauses -/

namespace Front

/-- The clauses hold. -/
def Holds (f : Front) (σ : Assignment) : Prop :=
  (∀ a ∈ f.unitClauses, a.Holds σ) ∧ ∀ c ∈ f.clauses, ∃ a ∈ c, a.Holds σ

/-- The context after the formulas `done`. -/
structure Good (B : Symbol → Bool) (f : Front) (done : List (GoalClause Term Symbol)) :
    Prop where
  consistent : f.e2s.Consistent
  tidy : f.e2s.Tidy B
  placed : ∀ a, (a ∈ f.unitClauses ∨ ∃ c ∈ f.clauses, a ∈ c) → f.e2s.Placed B a
  units_ne : ∀ x k, .eq x k true ∉ f.unitClauses
  clauses : ∀ c ∈ f.clauses, 2 ≤ c.length ∧ c.Pairwise Lit.leVar
  meaning : ∀ V σ, V.IntValued B → f.e2s.Agrees V σ →
    (f.Holds σ ↔ ∀ c ∈ done, V.Satisfies c)

theorem holds_reading (V : Valuation) (σ σ' : Assignment) (l : GoalLit Term Symbol) :
    l.Holds V.reading σ ↔ l.Holds V.reading σ' := by
  induction l with
  | atom a => cases a <;> rfl
  | not l ih => exact not_congr ih

theorem satisfies_iff {V : Valuation} {c : GoalClause Term Symbol} (σ : Assignment) :
    V.Satisfies c ↔ ∃ l ∈ c.args, l.Holds V.reading σ :=
  exists_congr fun l => and_congr_right fun _ =>
    ⟨fun h => h σ, fun h σ' => (holds_reading V σ σ' l).mp h⟩

theorem good_empty : empty.Good B [] where
  consistent := ⟨fun _ _ => iff_of_false nofun nofun, nofun, nofun, nofun, nofun, nofun, nofun⟩
  tidy := Expr2Subpaving.tidy_empty
  placed a h := by
    rcases h with h | ⟨c, h, -⟩
    · cases h
    · cases h
  units_ne := nofun
  clauses := nofun
  meaning _ _ _ _ := iff_of_true ⟨nofun, nofun⟩ nofun

variable {f : Front} {done : List (GoalClause Term Symbol)} {c : GoalClause Term Symbol}

/-- The state of `expr2subpaving` may go on. -/
theorem Good.advance (h : f.Good B done) {s : Expr2Subpaving} (hs : f.e2s.Keeps B s) :
    ({ f with e2s := s } : Front).Good B done where
  consistent := hs.consistent
  tidy := hs.tidy
  placed a ha := (h.placed a ha).mono hs.ext
  units_ne := h.units_ne
  clauses := h.clauses
  meaning V σ hV hσ := h.meaning V σ hV (hσ.of_extends h.tidy hs)

/-- One more formula, which the clauses of `f` entail. -/
theorem Good.snoc (h : f.Good B done)
    (hc : ∀ V σ, V.IntValued B → f.e2s.Agrees V σ → V.Satisfies c) : f.Good B (done ++ [c]) where
  consistent := h.consistent
  tidy := h.tidy
  placed := h.placed
  units_ne := h.units_ne
  clauses := h.clauses
  meaning V σ hV hσ := by
    rw [h.meaning V σ hV hσ, List.forall_mem_append, List.forall_mem_singleton]
    exact (and_iff_left (hc V σ hV hσ)).symm

theorem addClause_holds (f : Front) {buffer : List Lit} (hne : buffer ≠ []) (σ : Assignment) :
    (f.addClause buffer).Holds σ ↔ f.Holds σ ∧ ∃ a ∈ buffer, a.Holds σ := by
  unfold addClause Front.Holds
  split
  · rename_i a
    rw [List.forall_mem_append, List.forall_mem_singleton]
    simp only [List.mem_singleton, exists_eq_left]
    exact and_right_comm
  · rw [List.forall_mem_append, List.forall_mem_singleton, ← and_assoc]
    simp only [List.mem_insertionSort]

/-- `add_clause`, for atoms with the meaning of the formula. -/
theorem Good.addClause (h : f.Good B done) {buffer : List Lit} (hne : buffer ≠ [])
    (hmean : ∀ V σ, V.IntValued B → f.e2s.Agrees V σ →
      ((∃ a ∈ buffer, a.Holds σ) ↔ ∃ l ∈ c.args, l.Holds V.reading σ))
    (hplaced : ∀ a ∈ buffer, f.e2s.Placed B a ∧ ∀ x k, a ≠ .eq x k true) :
    (f.addClause buffer).Good B (done ++ [c]) := by
  have hstate : (f.addClause buffer).e2s = f.e2s := by
    unfold Front.addClause
    split <;> rfl
  have hmeaning : ∀ V σ, V.IntValued B → (f.addClause buffer).e2s.Agrees V σ →
      ((f.addClause buffer).Holds σ ↔ ∀ c' ∈ done ++ [c], V.Satisfies c') := by
    intro V σ hV hσ
    rw [hstate] at hσ
    rw [addClause_holds f hne, h.meaning V σ hV hσ, List.forall_mem_append,
      List.forall_mem_singleton, satisfies_iff σ, hmean V σ hV hσ]
  refine ⟨?_, ?_, ?_, ?_, ?_, hmeaning⟩
  · rw [hstate]
    exact h.consistent
  · rw [hstate]
    exact h.tidy
  · rw [hstate]
    unfold Front.addClause
    split
    · rename_i a
      intro b hb
      rcases hb with hb | hb
      · rcases List.mem_append.mp hb with hb | hb
        · exact h.placed b (.inl hb)
        · exact (hplaced b hb).1
      · exact h.placed b (.inr hb)
    · intro b hb
      rcases hb with hb | ⟨c', hc', hb⟩
      · exact h.placed b (.inl hb)
      · rcases List.mem_append.mp hc' with hc' | hc'
        · exact h.placed b (.inr ⟨c', hc', hb⟩)
        · rw [List.mem_singleton.mp hc', List.mem_insertionSort] at hb
          exact (hplaced b hb).1
  · intro x k
    unfold Front.addClause
    split
    · rename_i a
      intro hb
      rcases List.mem_append.mp hb with hb | hb
      · exact h.units_ne x k hb
      · exact (hplaced _ hb).2 x k rfl
    · exact h.units_ne x k
  · unfold Front.addClause
    split
    · exact h.clauses
    · rename_i hone
      intro c' hc'
      rcases List.mem_append.mp hc' with hc' | hc'
      · exact h.clauses c' hc'
      · rw [List.mem_singleton.mp hc', List.length_insertionSort]
        refine ⟨?_, List.pairwise_insertionSort _ buffer⟩
        match buffer, hne, hone with
        | [a], _, hone => exact absurd rfl (hone a)
        | _ :: _ :: _, _, _ => simp

/-- What one formula adds. -/
theorem processClause_spec (shared : Nat → Bool) (h : f.Good B done) (hc : ∀ l ∈ c.args, l.Fits B) :
    match f.processClause shared c with
    | .thrown => False
    | .unsat => ∀ V : Valuation, V.IntValued B → ¬ V.Satisfies c
    | .context f' => f'.Good B (done ++ [c]) := by
  obtain ⟨⟨buffer, s⟩, hr, hk, hb⟩ :=
    Expr2Subpaving.mkAtoms_bufferOf shared h.consistent h.tidy c.args hc
  have hgood := h.advance hk
  unfold processClause
  rw [hr]
  match buffer with
  | none => exact hgood.snoc fun V σ hV hσ => (satisfies_iff σ).mpr (hb.always rfl V σ hV hσ)
  | some [] =>
    intro V hV hsat
    have hσ := s.evaluated_agrees V
    obtain ⟨a, ha, -⟩ := (hb.meaning [] rfl V _ hV hσ).mpr ((satisfies_iff _).mp hsat)
    cases ha
  | some (a :: as) => exact hgood.addClause (by simp) (hb.meaning _ rfl) (hb.placed _ rfl)

/-- All formulas. By induction on those that are left. -/
theorem internalizeGoal_good (shared : Nat → Bool) (h : f.Good B done)
    (cs : List (GoalClause Term Symbol)) (hcs : ∀ c ∈ cs, ∀ l ∈ c.args, l.Fits B) :
    match internalizeGoal shared f cs with
    | .thrown => False
    | .unsat => ∀ V : Valuation, V.IntValued B → ¬ ∀ c ∈ cs, V.Satisfies c
    | .context f' => f'.Good B (done ++ cs) := by
  induction cs generalizing f done with
  | nil => rwa [List.append_nil]
  | cons c cs ih =>
    obtain ⟨hc, hcs⟩ := List.forall_mem_cons.mp hcs
    have hspec := processClause_spec shared h hc
    rw [internalizeGoal]
    cases hp : f.processClause shared c with
    | thrown =>
      rw [hp] at hspec
      exact hspec
    | unsat =>
      rw [hp] at hspec
      exact fun V hV hall => hspec V hV (hall c List.mem_cons_self)
    | context f' =>
      rw [hp] at hspec
      have hrest := ih hspec hcs
      simp only
      cases hi : internalizeGoal shared f' cs with
      | thrown =>
        rw [hi] at hrest
        exact hrest
      | unsat =>
        rw [hi] at hrest
        exact fun V hV hall => hrest V hV fun c' hc' => hall c' (List.mem_cons_of_mem c hc')
      | context f'' =>
        rw [hi, List.append_assoc] at hrest
        exact hrest

/-! ## The problem -/

/-- The context is what `context_t` holds when partitioning starts. -/
structure Builds (f : Front) (P : Problem) : Prop where
  numVars : P.numVars = f.e2s.vars.size
  isInt : P.isInt = f.e2s.vars.isInt
  isBool : P.isBool = f.e2s.vars.isBool
  defs : P.defs = f.e2s.vars.definition
  unitClauses : P.unitClauses = f.unitClauses
  clauses : P.clauses = f.clauses

theorem Good.definition (h : f.Good B done) {x : Nat} {d : Definition}
    (hd : f.e2s.vars.definition x = some d) : d.vars.Nodup := by
  have hformed := h.tidy.formed x d hd
  cases d with
  | monomial ps => exact hformed.2.1
  | polynomial ts => exact hformed.2.1

/-- The context as the partitioner takes it. -/
def problem (f : Front) (h : f.Good B done) : Problem where
  numVars := f.e2s.vars.size
  isInt := f.e2s.vars.isInt
  isBool := f.e2s.vars.isBool
  defs := f.e2s.vars.definition
  unitClauses := f.unitClauses
  clauses := f.clauses
  defs_lt := h.tidy.made.lt
  defs_arith := h.tidy.made.arith
  defs_isInt := h.tidy.made.isInt
  defs_nodup _ _ hd := h.definition hd
  degree_pos x _ hd := ⟨(h.tidy.formed x _ hd).1, (h.tidy.formed x _ hd).2.2.1⟩
  coeff_ne x _ hd := ⟨(h.tidy.formed x _ hd).1, (h.tidy.formed x _ hd).2.2⟩
  sorted l hl := (h.placed l hl).sorted h.tidy h.consistent
  units_ne := h.units_ne
  clauses_two c hc := (h.clauses c hc).1
  clauses_ordered c hc := (h.clauses c hc).2

theorem builds_problem (f : Front) (h : f.Good B done) : f.Builds (f.problem h) :=
  ⟨rfl, rfl, rfl, rfl, rfl, rfl⟩

theorem Good.singleSort (h : f.Good B done) {P : Problem} (hP : f.Builds P) : SingleSort P := by
  intro x ps hd p hp q hq
  rw [hP.defs] at hd
  obtain ⟨-, -, -, b, hb⟩ := h.tidy.formed x _ hd
  rw [hP.isInt, hb p hp, hb q hq]

/-- A valuation of the goal gives a model. -/
theorem Good.model (h : f.Good B done) {P : Problem} (hP : f.Builds P) {V : Valuation}
    (hV : V.IntValued B) (hsat : ∀ c ∈ done, V.Satisfies c) : Model P (f.e2s.evaluated V) := by
  have hσ := f.e2s.evaluated_agrees V
  have hhold := (h.meaning V _ hV hσ).mpr hsat
  refine ⟨⟨fun x hd hx => ?_, fun x d hd => ?_⟩, ?_, ?_⟩
  · rw [hP.isInt] at hx
    exact hσ.isInt h.tidy h.consistent hV x hx
  · rw [hP.defs] at hd
    have hfollows := (h.consistent.follows V.num).defs x d hd
    cases d <;> exact hfollows
  · rw [hP.unitClauses]
    exact hhold.1
  · rw [hP.clauses]
    exact hhold.2

/-- The values of the symbols that a model gives. -/
def valuation (f : Front) (σ : Assignment) : Valuation where
  num v := (f.e2s.expr2var (.var v)).elim 0 σ.num
  bool v := (f.e2s.expr2var (.var v)).elim false σ.bool

/-- A model satisfies the goal, with the values of its base variables. -/
theorem Good.satisfies (h : f.Good B done) {P : Problem} (hP : f.Builds P) {σ : Assignment} (hσ : Model P σ) :
    (f.valuation σ).IntValued B ∧ f.e2s.Agrees (f.valuation σ) σ ∧
      ∀ c ∈ done, (f.valuation σ).Satisfies c := by
  have hnum : ∀ x v, f.e2s.var2expr x = some (.var v) → (f.valuation σ).num v = σ.num x := by
    intro x v hx
    show (f.e2s.expr2var (.var v)).elim 0 σ.num = _
    rw [(h.consistent.inverse x _).mpr hx]
    rfl
  have hagree : f.e2s.Agrees (f.valuation σ) σ := by
    constructor
    · intro x e he _
      have hfollows : f.e2s.Follows (f.valuation σ).num σ := by
        constructor
        · intro y d hd
          exact hσ.defs y d (by rw [hP.defs, hd])
        · intro y hy hd
          obtain ⟨e', he'⟩ := h.consistent.recorded y hy
          obtain ⟨v, rfl⟩ := h.tidy.base y e' he' hd
          rw [Expr2Subpaving.exprOf_eq he', Term.eval, hnum y v he']
      exact (h.consistent.eval hfollows x he).symm
    · intro x v hx _
      show _ = (f.e2s.expr2var (.var v)).elim false σ.bool
      rw [(h.consistent.inverse x _).mpr hx]
      rfl
  have hint : (f.valuation σ).IntValued B := by
    intro v hv hB
    cases hx : f.e2s.expr2var (.var v) with
    | none => exact ⟨0, by simp [valuation, hx]⟩
    | some x =>
      have he := (h.consistent.inverse x _).mp hx
      have hs : (Term.var v).HasSort B true := by
        rw [Term.HasSort]
        exact ⟨hv, hB⟩
      rw [hnum x v he]
      refine hσ.isInt (h.singleSort hP) x ?_
      rw [hP.isInt]
      exact (h.tidy.sort he hs).2
  refine ⟨hint, hagree, (h.meaning _ σ hint hagree).mp ⟨?_, ?_⟩⟩
  · rw [← hP.unitClauses]
    exact hσ.units
  · rw [← hP.clauses]
    exact hσ.clauses

/-- `2x + y`, for integers. -/
def sampleTerm : Term := .add [.mul [.num 2 true, .var ⟨0, true⟩], .var ⟨1, true⟩]

/-- `2x + y ≤ 7` or `b`, and `¬ x ≤ 1`. -/
def sampleGoal : List (GoalClause Term Symbol) :=
  [.or [.atom (.le sampleTerm 7), .atom (.bool ⟨2, false⟩)],
    .lit (.not (.atom (.le (.var ⟨0, true⟩) 1)))]

theorem fits_var (v : Symbol) (hv : B v = false) : (Term.var v).Fits B where
  regular := Term.regular_var v
  isConst := by rw [Term.isConst]
  coeff := by simp [Term.coeff]
  constant := rfl
  sort := ⟨v.isInt, by rw [Term.HasSort]; exact ⟨rfl, hv⟩⟩
  noZero := by rw [Term.NoZero]; trivial
  simplified := by rw [Term.Simplified]; trivial

theorem sampleTerm_fits : sampleTerm.Fits fun v => v.id = 2 := by
  have hparts : Term.parts [.mul [.num 2 true, .var ⟨0, true⟩], .var ⟨1, true⟩] =
      [.mul [.num 2 true, .var ⟨0, true⟩], .var ⟨1, true⟩] := by simp [Term.parts, Term.isConst]
  have hcoeff : sampleTerm.coeff ≠ 0 := by
    rw [sampleTerm, Term.coeff_add, hparts]
    norm_num [content, ratGcd, Term.coeff]
  refine ⟨?_, by simp [sampleTerm, Term.isConst], hcoeff, ?_, ⟨true, ?_⟩, ?_, ?_⟩
  · rw [sampleTerm, Term.Regular, hparts]
    refine ⟨fun t ht => ?_, ?_, by simp, fun _ => hcoeff⟩
    · rcases List.mem_pair.mp ht with rfl | rfl
      · refine ⟨?_, rfl⟩
        rw [Term.Regular]
        refine ⟨fun u hu => ?_, by simp [Term.parts, Term.isConst, Term.asPower]⟩
        rcases List.mem_pair.mp hu with rfl | rfl
        · exact ⟨Term.regular_num _ _, rfl⟩
        · exact ⟨Term.regular_var _, rfl⟩
      · exact ⟨Term.regular_var _, rfl⟩
    · refine List.pairwise_pair.mpr (Term.not_alike (fun v => v.id) ?_)
      simp [Term.body_mul, Term.parts, Term.isConst, Term.body, Form.real, Term.eval]
  · simp [sampleTerm, Term.constant, Term.isConst]
  · simp [sampleTerm, Term.HasSort]
    rfl
  · simp [sampleTerm, Term.NoZero, Term.coeff, Term.isConst]
  · simp [sampleTerm, Term.Simplified, Expr2Subpaving.mulArgs]

example : (match internalizeGoal (fun _ => true) empty sampleGoal with
    | .context f => (f.unitClauses, f.clauses)
    | _ => ([], [])) =
    ([.ineq 0 2 true false], [[.bool 3 false, .ineq 2 7 false false]]) := by
  decide +kernel

end Front

end AriParti.L1
