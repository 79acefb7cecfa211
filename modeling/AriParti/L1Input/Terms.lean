import Mathlib.Algebra.BigOperators.Group.Multiset.Basic
import Mathlib.Algebra.BigOperators.Ring.Multiset
import Mathlib.Algebra.Order.BigOperators.Group.List
import Mathlib.Data.PNat.Basic
import Mathlib.Data.Rat.BigOperators
import Mathlib.Tactic.LinearCombination
import AriParti.L1Bounds.Meaning

/-!
# Arithmetic terms

The terms of the goal, as they are handed to `expr2subpaving`: numerals,
variables, sums, products and powers. The expressions it builds for the
variables it makes are terms as well.

A term is a coefficient times a body, plus a constant. The coefficient of a sum
is the greatest common divisor of those of its summands; products of sums are
not multiplied out. The body is taken in any set with a product and a sum of its
own (`Form`), in which factors may be grouped. Two terms are `Alike` when no such
interpretation tells their bodies apart: they are the same but for the order of
summands and factors, the grouping of factors and coefficients.

## Results

* `Term.eval_eq`: a term in which no inner sum has a constant is its coefficient
  times the value of its body, plus its constant.
* `Primitive.mkMul`, `Primitive.poly`: the terms that are their own body, and
  how they are put together.
* `Regular`: the terms that `process` internalises exactly.
-/
namespace AriParti.L1

/-- An uninterpreted constant of sort Int or Real. -/
structure Symbol where
  id : Nat
  isInt : Bool
  deriving DecidableEq, Repr

inductive Term where
  | num (q : ℚ) (isInt : Bool)
  | var (v : Symbol)
  | add (ts : List Term)
  | mul (ts : List Term)
  | pow (t : Term) (k : ℕ+)
  deriving Repr

/-! ## The greatest common divisor of rational numbers -/

def ratGcd (a b : ℚ) : ℚ := (Int.gcd (a.num * b.den) (b.num * a.den) : ℚ) / (a.den * b.den)

def content (qs : List ℚ) : ℚ := qs.foldr ratGcd 0

theorem num_mul_eq {n d : ℤ} (hd : 0 < d) : ((n : ℚ) / d).num * d = n * ((n : ℚ) / d).den := by
  have hd' : (d : ℚ) ≠ 0 := by exact_mod_cast hd.ne'
  have hden : (((n : ℚ) / d).den : ℚ) ≠ 0 := by exact_mod_cast ((n : ℚ) / d).den_nz
  have he := Rat.num_div_den ((n : ℚ) / d)
  rw [div_eq_div_iff hden hd'] at he
  exact_mod_cast he

/-- Over a common denominator. -/
theorem ratGcd_div (n m : ℤ) {d : ℤ} (hd : 0 < d) :
    ratGcd ((n : ℚ) / d) ((m : ℚ) / d) = (Int.gcd n m : ℚ) / d := by
  have hn := num_mul_eq (n := n) hd
  have hm := num_mul_eq (n := m) hd
  unfold ratGcd
  generalize (n : ℚ) / d = a at *
  generalize (m : ℚ) / d = b at *
  have hd' : (d : ℚ) ≠ 0 := by exact_mod_cast hd.ne'
  have hab : ((a.den : ℚ) * b.den) ≠ 0 := by exact_mod_cast Nat.mul_ne_zero a.den_nz b.den_nz
  have hgcd : Int.gcd (a.num * b.den) (b.num * a.den) * d.natAbs =
      Int.gcd n m * (a.den * b.den) := by
    have h₁ : a.num * b.den * d = n * (a.den * b.den : ℕ) := by
      push_cast
      linear_combination (b.den : ℤ) * hn
    have h₂ : b.num * a.den * d = m * (a.den * b.den : ℕ) := by
      push_cast
      linear_combination (a.den : ℤ) * hm
    rw [← Int.gcd_mul_right, h₁, h₂, Int.gcd_mul_right, Int.natAbs_natCast]
  rw [div_eq_div_iff hab hd']
  have habs : ((d.natAbs : ℕ) : ℚ) = d := by
    rw [Nat.cast_natAbs, abs_of_pos hd]
  have := congrArg (Nat.cast (R := ℚ)) hgcd
  push_cast at this
  rw [habs] at this
  exact this

theorem ratGcd_eq_zero {a b : ℚ} (h : ratGcd a b = 0) : a = 0 ∧ b = 0 := by
  unfold ratGcd at h
  have hab : ((a.den : ℚ) * b.den) ≠ 0 := by exact_mod_cast Nat.mul_ne_zero a.den_nz b.den_nz
  rw [div_eq_zero_iff, or_iff_left hab] at h
  obtain ⟨ha, hb⟩ := Int.gcd_eq_zero_iff.1 (by exact_mod_cast h)
  have hda : (a.den : ℤ) ≠ 0 := by exact_mod_cast a.den_nz
  have hdb : (b.den : ℤ) ≠ 0 := by exact_mod_cast b.den_nz
  exact ⟨Rat.num_eq_zero.1 ((mul_eq_zero.1 ha).resolve_right hdb),
    Rat.num_eq_zero.1 ((mul_eq_zero.1 hb).resolve_right hda)⟩

theorem content_eq_zero {qs : List ℚ} (h : content qs = 0) : ∀ q ∈ qs, q = 0 := by
  induction qs with
  | nil => exact fun q hq => by cases hq
  | cons a qs ih =>
    obtain ⟨ha, hrest⟩ := ratGcd_eq_zero h
    intro q hq
    rcases List.mem_cons.1 hq with rfl | hq
    · exact ha
    · exact ih hrest q hq

def gcdList (ns : List ℤ) : ℤ := ns.foldr (fun n g => (Int.gcd n g : ℤ)) 0

theorem content_div (ns : List ℤ) {d : ℤ} (hd : 0 < d) :
    content (ns.map fun n : ℤ => (n : ℚ) / d) = (gcdList ns : ℚ) / d := by
  induction ns with
  | nil => simp [content, gcdList]
  | cons n ns ih =>
    show ratGcd ((n : ℚ) / d) (content (ns.map fun n : ℤ => (n : ℚ) / d)) = _
    rw [ih, ratGcd_div n _ hd]
    simp only [gcdList, List.foldr_cons, Int.cast_natCast]

theorem content_intCast (ns : List ℤ) : content (ns.map fun n : ℤ => (n : ℚ)) = gcdList ns := by
  have := content_div ns Int.one_pos
  simpa only [Int.cast_one, div_one] using this

theorem gcdList_nonneg (ns : List ℤ) : 0 ≤ gcdList ns := by
  cases ns with
  | nil => exact le_rfl
  | cons n ns => exact Int.natCast_nonneg _

theorem gcdList_dvd {ns : List ℤ} {n : ℤ} (hn : n ∈ ns) : gcdList ns ∣ n := by
  induction ns with
  | nil => cases hn
  | cons m ns ih =>
    rcases List.mem_cons.1 hn with rfl | hn
    · exact Int.gcd_dvd_left ..
    · exact (Int.gcd_dvd_right ..).trans (ih hn)

theorem gcdList_perm {ns ms : List ℤ} (h : ns.Perm ms) : gcdList ns = gcdList ms := by
  refine h.foldr_eq' (fun x _ y _ z => ?_) 0
  exact congrArg Nat.cast (Int.gcd_left_comm y x z)

/-- Divided by their greatest common divisor, the numbers have none. -/
theorem gcdList_div {ns : List ℤ} (h : gcdList ns ≠ 0) :
    gcdList (ns.map (· / gcdList ns)) = 1 := by
  have hmul : ∀ g (ms : List ℤ), 0 ≤ g → gcdList (ms.map (· * g)) = gcdList ms * g := by
    intro g ms hg
    induction ms with
    | nil => exact (zero_mul g).symm
    | cons m ms ih =>
      show (Int.gcd (m * g) (gcdList (ms.map (· * g))) : ℤ) = (Int.gcd m (gcdList ms) : ℤ) * g
      rw [ih, Int.gcd_mul_right, Nat.cast_mul, Int.natAbs_of_nonneg hg]
  have hns : (ns.map (· / gcdList ns)).map (· * gcdList ns) = ns := by
    rw [List.map_map]
    conv_rhs => rw [← List.map_id ns]
    exact List.map_congr_left fun n hn => Int.ediv_mul_cancel (gcdList_dvd hn)
  have := hmul (gcdList ns) (ns.map (· / gcdList ns)) (gcdList_nonneg ns)
  rw [hns] at this
  exact mul_right_cancel₀ h (by rw [← this, one_mul])

/-! ## Terms -/

namespace Term

mutual

def decEq : (a b : Term) → Decidable (a = b)
  | num p b, num q c =>
    if h : p = q ∧ b = c then isTrue (h.1 ▸ h.2 ▸ rfl) else isFalse fun hf => h (num.inj hf)
  | var v, var w => if h : v = w then isTrue (h ▸ rfl) else isFalse fun hf => h (var.inj hf)
  | add ts, add us =>
    match decEqList ts us with
    | isTrue h => isTrue (h ▸ rfl)
    | isFalse h => isFalse fun hf => h (add.inj hf)
  | mul ts, mul us =>
    match decEqList ts us with
    | isTrue h => isTrue (h ▸ rfl)
    | isFalse h => isFalse fun hf => h (mul.inj hf)
  | pow a j, pow b k =>
    match decEq a b with
    | isTrue h =>
      if h' : j = k then isTrue (h ▸ h' ▸ rfl) else isFalse fun hf => h' (pow.inj hf).2
    | isFalse h => isFalse fun hf => h (pow.inj hf).1
  | num _ _, var _ | num _ _, add _ | num _ _, mul _ | num _ _, pow _ _
  | var _, num _ _ | var _, add _ | var _, mul _ | var _, pow _ _
  | add _, num _ _ | add _, var _ | add _, mul _ | add _, pow _ _
  | mul _, num _ _ | mul _, var _ | mul _, add _ | mul _, pow _ _
  | pow _ _, num _ _ | pow _ _, var _ | pow _ _, add _ | pow _ _, mul _ =>
    isFalse fun h => by cases h

def decEqList : (as bs : List Term) → Decidable (as = bs)
  | [], [] => isTrue rfl
  | [], _ :: _ => isFalse nofun
  | _ :: _, [] => isFalse nofun
  | a :: as, b :: bs =>
    match decEq a b with
    | isTrue h =>
      match decEqList as bs with
      | isTrue h' => isTrue (h ▸ h' ▸ rfl)
      | isFalse h' => isFalse fun hf => h' (List.cons.inj hf).2
    | isFalse h => isFalse fun hf => h (List.cons.inj hf).1

end

instance : DecidableEq Term := decEq

/-- The exponents `as_power` and `process_power` take: `rational::is_unsigned`. -/
def IsUnsigned (k : ℕ+) : Prop := (k : ℕ) < 2 ^ 32

instance (k : ℕ+) : Decidable (IsUnsigned k) := inferInstanceAs (Decidable (_ < _))

noncomputable def eval (ρ : Symbol → ℝ) : Term → ℝ
  | num q _ => q
  | var v => ρ v
  | add ts => (ts.map fun t => t.eval ρ).sum
  | mul ts => (ts.map fun t => t.eval ρ).prod
  | pow t k => t.eval ρ ^ (k : ℕ)

mutual

/-- The sort, as `arith_decl_plugin` gives it to an application. -/
def isInt : Term → Bool
  | num _ b => b
  | var v => v.isInt
  | add ts => allInt ts
  | mul ts => allInt ts
  | pow t _ => t.isInt
termination_by structural t => t

def allInt : List Term → Bool
  | [] => true
  | t :: ts => t.isInt && allInt ts
termination_by structural ts => ts

end

/-- Made of numerals. A power whose exponent is too large is taken for a
variable. -/
def isConst : Term → Bool
  | num _ _ => true
  | var _ => false
  | add ts => (ts.map fun t => t.isConst).all id
  | mul ts => (ts.map fun t => t.isConst).all id
  | pow t k => t.isConst && decide (IsUnsigned k)

/-- The arguments with a variable. -/
def parts (ts : List Term) : List Term := ts.filter fun t => !t.isConst

def coeff : Term → ℚ
  | num q _ => q
  | var _ => 1
  | add ts => content ((ts.filter fun t => !t.isConst).map fun t => t.coeff)
  | mul ts => (ts.map fun t => t.coeff).prod
  | pow t k => if IsUnsigned k then t.coeff ^ (k : ℕ) else 1

/-- The constant summands of a sum. -/
def constant : Term → ℚ
  | add ts => ((ts.filter isConst).map coeff).sum
  | _ => 0

/-- No argument of an operator is a sum with a constant. -/
def Flat : Term → Prop
  | num _ _ => True
  | var _ => True
  | add ts => ∀ t ∈ ts, t.Flat ∧ t.constant = 0
  | mul ts => ∀ t ∈ ts, t.Flat ∧ t.constant = 0
  | pow t k => IsUnsigned k → t.Flat ∧ t.constant = 0

/-- mirrors expr2subpaving.cpp:166-181 -/
def asPower : Term → Term × ℕ
  | pow a k => if IsUnsigned k then (a, k) else (pow a k, 1)
  | t => (t, 1)

/-- `arith_util::mk_mul`, arith_decl_plugin.h:455 -/
def mkMul : List Term → Term
  | [t] => t
  | ts => mul ts

/-- `arith_util::mk_add`, arith_decl_plugin.h:443 -/
def mkAdd : List Term → Term
  | [t] => t
  | ts => add ts

@[elab_as_elim] theorem induct {motive : Term → Prop} (num : ∀ q b, motive (num q b))
    (var : ∀ v, motive (var v)) (add : ∀ ts, (∀ t ∈ ts, motive t) → motive (add ts))
    (mul : ∀ ts, (∀ t ∈ ts, motive t) → motive (mul ts))
    (pow : ∀ t k, motive t → motive (pow t k)) (t : Term) : motive t := by
  induction t using isConst.induct with
  | case1 q b => exact num q b
  | case2 v => exact var v
  | case3 ts ih => exact add ts ih
  | case4 ts ih => exact mul ts ih
  | case5 t k ih => exact pow t k ih

theorem isConst_add {ts : List Term} : (add ts).isConst = true ↔ ∀ t ∈ ts, t.isConst = true := by
  simp [isConst]

theorem isConst_mul {ts : List Term} : (mul ts).isConst = true ↔ ∀ t ∈ ts, t.isConst = true := by
  simp [isConst]

theorem mem_parts {t : Term} {ts : List Term} :
    t ∈ parts ts ↔ t ∈ ts ∧ t.isConst = false := by
  simp [parts]

theorem parts_eq_nil {ts : List Term} : parts ts = [] ↔ ∀ t ∈ ts, t.isConst = true := by
  simp [parts]

theorem coeff_add (ts : List Term) : (add ts).coeff = content ((parts ts).map coeff) := by
  rw [coeff]
  rfl

theorem coeff_mul (ts : List Term) : (mul ts).coeff = (ts.map coeff).prod := by
  rw [coeff]

theorem coeff_pow {t : Term} {k : ℕ+} (hk : IsUnsigned k) :
    (pow t k).coeff = t.coeff ^ (k : ℕ) := by
  rw [coeff, if_pos hk]

end Term

/-! ## Bodies -/

/-- Products and sums of their own, in which factors may be grouped. -/
structure Form (α : Type) where
  atom : Term → α
  prod : Multiset α → α
  sum : Multiset (ℚ × α) → α
  prod_single : ∀ a, prod {a} = a
  prod_group : ∀ s t, prod (prod s ::ₘ t) = prod (s + t)
  sum_single : ∀ a, sum {(1, a)} = a

namespace Term

variable {α : Type}

/-- The term without its coefficient and constant. -/
def body (F : Form α) : Term → α
  | num _ _ => F.prod 0
  | var v => F.atom (var v)
  | add ts => F.sum ((ts.filter fun t => !t.isConst).map fun t =>
      (t.coeff / (add ts).coeff, t.body F) : List (ℚ × α))
  | mul ts => F.prod ((ts.filter fun t => !t.isConst).map fun t => t.body F : List α)
  | pow t k => if IsUnsigned k then F.prod (.replicate k (t.body F)) else F.atom (pow t k)

/-- No interpretation tells the bodies apart. -/
def Alike (a b : Term) : Prop := ∀ (α : Type) (F : Form α), a.body F = b.body F

theorem Alike.symm {a b : Term} (h : Alike a b) : Alike b a := fun α F => (h α F).symm

theorem Alike.trans {a b c : Term} (h : Alike a b) (h' : Alike b c) : Alike a c :=
  fun α F => (h α F).trans (h' α F)

theorem body_add (F : Form α) (ts : List Term) :
    (add ts).body F =
      F.sum ((parts ts).map fun t => (t.coeff / (add ts).coeff, t.body F) : List (ℚ × α)) := by
  rw [body]
  rfl

theorem body_mul (F : Form α) (ts : List Term) :
    (mul ts).body F = F.prod ((parts ts).map (body F) : List α) := by
  rw [body]
  rfl

theorem body_pow (F : Form α) {t : Term} {k : ℕ+} (hk : IsUnsigned k) :
    (pow t k).body F = F.prod (.replicate k (t.body F)) := by
  rw [body, if_pos hk]

end Term

/-- The numbers. -/
noncomputable def Form.real (ρ : Symbol → ℝ) : Form ℝ where
  atom t := t.eval ρ
  prod s := s.prod
  sum s := (s.map fun p => (p.1 : ℝ) * p.2).sum
  prod_single := Multiset.prod_singleton
  prod_group s t := by rw [Multiset.prod_cons, Multiset.prod_add]
  sum_single a := by rw [Multiset.map_singleton, Multiset.sum_singleton, Rat.cast_one, one_mul]

theorem Form.real_sum (ρ : Symbol → ℝ) (ps : List (ℚ × ℝ)) :
    (Form.real ρ).sum ps = (ps.map fun p => (p.1 : ℝ) * p.2).sum := by
  rw [← Multiset.sum_coe, ← Multiset.map_coe]
  rfl

theorem Form.real_prod (ρ : Symbol → ℝ) (s : Multiset ℝ) : (Form.real ρ).prod s = s.prod := rfl

namespace Term

/-- Two terms are told apart by their values. -/
theorem not_alike {a b : Term} (ρ : Symbol → ℝ) (h : a.body (.real ρ) ≠ b.body (.real ρ)) :
    ¬ Alike a b := fun ha => h (ha ℝ _)

theorem eval_of_isConst (ρ : Symbol → ℝ) {t : Term} (ht : t.isConst = true) (hf : t.Flat) :
    t.eval ρ = t.coeff + t.constant := by
  induction t using induct with
  | num q b => simp [eval, coeff, constant]
  | var v => simp [isConst] at ht
  | add ts ih =>
    have hc := isConst_add.1 ht
    rw [Flat] at hf
    have hall : ts.filter isConst = ts := List.filter_eq_self.2 hc
    rw [coeff_add, parts_eq_nil.2 hc, eval, constant, hall]
    have heval : ts.map (eval ρ) = ts.map fun t => ((t.coeff : ℚ) : ℝ) := by
      refine List.map_congr_left fun t hmem => ?_
      rw [ih t hmem (hc t hmem) (hf t hmem).1, (hf t hmem).2, Rat.cast_zero, add_zero]
    rw [heval]
    simp [content, Rat.cast_list_sum, List.map_map, Function.comp_def]
  | mul ts ih =>
    have hc := isConst_mul.1 ht
    rw [Flat] at hf
    have heval : ts.map (eval ρ) = ts.map fun t => ((t.coeff : ℚ) : ℝ) := by
      refine List.map_congr_left fun t hmem => ?_
      rw [ih t hmem (hc t hmem) (hf t hmem).1, (hf t hmem).2, Rat.cast_zero, add_zero]
    rw [coeff_mul, eval, heval]
    simp [constant, Rat.cast_list_prod, List.map_map, Function.comp_def]
  | pow t k ih =>
    rw [isConst, Bool.and_eq_true, decide_eq_true_iff] at ht
    rw [Flat] at hf
    obtain ⟨hflat, hzero⟩ := hf ht.2
    rw [eval, ih ht.1 hflat, hzero, coeff_pow ht.2]
    simp [constant]

/-- A sum, with its summands split into those with a variable and the others. -/
theorem sum_split (f g : Term → ℝ) (h : Term → ℚ) {ts : List Term}
    (hc : ∀ t ∈ ts, t.isConst = true → f t = h t)
    (hp : ∀ t ∈ ts, t.isConst = false → f t = g t) :
    (ts.map f).sum = ((parts ts).map g).sum + (((ts.filter isConst).map h).sum : ℚ) := by
  induction ts with
  | nil => simp [parts]
  | cons t ts ih =>
    have ih := ih (fun u hu => hc u (List.mem_cons_of_mem _ hu))
      fun u hu => hp u (List.mem_cons_of_mem _ hu)
    rw [List.map_cons, List.sum_cons, ih]
    cases ht : t.isConst
    · rw [hp t List.mem_cons_self ht]
      simp only [parts, List.filter_cons, ht, Bool.not_false, if_true, List.map_cons, List.sum_cons]
      simp only [Bool.false_eq_true, if_false]
      ring
    · rw [hc t List.mem_cons_self ht]
      simp only [parts, List.filter_cons, ht, Bool.not_true, if_true, List.map_cons, List.sum_cons,
        Bool.false_eq_true, if_false]
      push_cast
      ring

theorem prod_split (f g : Term → ℝ) (h : Term → ℚ) {ts : List Term}
    (hc : ∀ t ∈ ts, t.isConst = true → f t = h t)
    (hp : ∀ t ∈ ts, t.isConst = false → f t = h t * g t) :
    (ts.map f).prod = ((ts.map h).prod : ℚ) * ((parts ts).map g).prod := by
  induction ts with
  | nil => simp [parts]
  | cons t ts ih =>
    have ih := ih (fun u hu => hc u (List.mem_cons_of_mem _ hu))
      fun u hu => hp u (List.mem_cons_of_mem _ hu)
    rw [List.map_cons, List.prod_cons, ih]
    cases ht : t.isConst
    · rw [hp t List.mem_cons_self ht]
      simp only [parts, List.filter_cons, ht, Bool.not_false, if_true, List.map_cons,
        List.prod_cons]
      push_cast
      ring
    · rw [hc t List.mem_cons_self ht]
      simp only [parts, List.filter_cons, ht, Bool.not_true, List.map_cons, List.prod_cons,
        Bool.false_eq_true, if_false]
      push_cast
      ring

/-- **A term is its coefficient times its body, plus its constant.** -/
theorem eval_eq (ρ : Symbol → ℝ) {t : Term} (ht : t.isConst = false) (hf : t.Flat) :
    t.eval ρ = t.coeff * t.body (.real ρ) + t.constant := by
  induction t using induct with
  | num q b => simp [isConst] at ht
  | var v => simp [eval, coeff, constant, body, Form.real]
  | add ts ih =>
    rw [Flat] at hf
    rw [eval, constant]
    rw [sum_split (eval ρ) (fun t => t.coeff * t.body (.real ρ)) coeff]
    · congr 1
      rw [body_add, Form.real_sum, List.map_map, ← List.sum_map_mul_left]
      congr 1
      refine List.map_congr_left fun t ht => ?_
      show _ = ((add ts).coeff : ℝ) * (((t.coeff / (add ts).coeff : ℚ) : ℝ) * _)
      by_cases hzero : (add ts).coeff = 0
      · -- all the coefficients are zero
        have htz : t.coeff = 0 := by
          rw [coeff_add] at hzero
          exact content_eq_zero hzero _ (List.mem_map_of_mem ht)
        rw [hzero, htz]
        simp
      · have hzero : ((add ts).coeff : ℝ) ≠ 0 := by exact_mod_cast hzero
        push_cast
        field_simp
    · intro t hmem hc
      rw [eval_of_isConst ρ hc (hf t hmem).1, (hf t hmem).2, Rat.cast_zero, add_zero]
    · intro t hmem hc
      rw [ih t hmem hc (hf t hmem).1, (hf t hmem).2, Rat.cast_zero, add_zero]
  | mul ts ih =>
    rw [Flat] at hf
    have hzero : (mul ts).constant = 0 := rfl
    rw [eval, hzero, coeff_mul, body_mul, Form.real_prod, Multiset.prod_coe, Rat.cast_zero,
      add_zero]
    apply prod_split
    · intro t hmem hc
      rw [eval_of_isConst ρ hc (hf t hmem).1, (hf t hmem).2, Rat.cast_zero, add_zero]
    · intro t hmem hc
      rw [ih t hmem hc (hf t hmem).1, (hf t hmem).2, Rat.cast_zero, add_zero]
  | pow t k ih =>
    by_cases hk : IsUnsigned k
    · rw [isConst, decide_eq_true hk, Bool.and_true] at ht
      rw [Flat] at hf
      obtain ⟨hflat, hzero⟩ := hf hk
      rw [eval, ih ht hflat, hzero, coeff_pow hk, body_pow _ hk, Form.real_prod,
        Multiset.prod_replicate]
      simp [constant, mul_pow]
    · rw [coeff, body, if_neg hk, if_neg hk]
      simp [constant, Form.real]

/-! ## Terms that are their own body -/

/-- The term is recorded for a variable: its coefficient is one. -/
structure Primitive (e : Term) : Prop where
  isConst : e.isConst = false
  flat : e.Flat
  constant : e.constant = 0
  coeff : e.coeff = 1

theorem Primitive.eval_eq {e : Term} (h : Primitive e) (ρ : Symbol → ℝ) :
    e.eval ρ = e.body (.real ρ) := by
  rw [Term.eval_eq ρ h.isConst h.flat, h.coeff, h.constant, Rat.cast_one, Rat.cast_zero, one_mul,
    add_zero]

theorem parts_eq_self {es : List Term} (h : ∀ e ∈ es, e.isConst = false) : parts es = es := by
  refine List.filter_eq_self.2 fun e he => ?_
  rw [h e he]
  rfl

theorem isConst_false_of_mem {es : List Term} {e : Term} (he : e ∈ es) (hc : e.isConst = false) :
    (add es).isConst = false ∧ (mul es).isConst = false := by
  constructor
  · by_contra hcon
    rw [Bool.not_eq_false, isConst_add] at hcon
    exact Bool.noConfusion (hc.symm.trans (hcon e he))
  · by_contra hcon
    rw [Bool.not_eq_false, isConst_mul] at hcon
    exact Bool.noConfusion (hc.symm.trans (hcon e he))

theorem body_mkMul (F : Form α) {es : List Term} (h : ∀ e ∈ es, e.isConst = false) :
    (mkMul es).body F = F.prod (es.map (body F) : List α) := by
  unfold mkMul
  split
  · exact (F.prod_single _).symm
  · rw [body_mul, parts_eq_self h]

theorem Primitive.mkMul {es : List Term} (hne : es ≠ []) (h : ∀ e ∈ es, Primitive e) :
    Primitive (mkMul es) := by
  unfold Term.mkMul
  split
  · exact h _ List.mem_cons_self
  · obtain ⟨e, he⟩ := List.exists_mem_of_ne_nil es hne
    constructor
    · exact (isConst_false_of_mem he (h e he).isConst).2
    · rw [Flat]
      exact fun t ht => ⟨(h t ht).flat, (h t ht).constant⟩
    · rfl
    · rw [coeff_mul]
      exact List.prod_eq_one fun q hq => by
        obtain ⟨t, ht, rfl⟩ := List.mem_map.1 hq
        exact (h t ht).coeff

/-- The summand `process_add` writes: the numeral one is left out. -/
def scaled (n : ℤ) (e : Term) : Term := if n = 1 then e else mul [num n e.isInt, e]

theorem scaled_spec {e : Term} (h : Primitive e) (n : ℤ) :
    (scaled n e).isConst = false ∧ (scaled n e).Flat ∧ (scaled n e).constant = 0 ∧
      (scaled n e).coeff = n := by
  unfold scaled
  split
  · rename_i hn
    refine ⟨h.isConst, h.flat, h.constant, ?_⟩
    rw [h.coeff, hn, Int.cast_one]
  · refine ⟨(isConst_false_of_mem (e := e) (by simp) h.isConst).2, ?_, rfl, ?_⟩
    · rw [Flat]
      intro t ht
      rcases List.mem_pair.1 ht with rfl | rfl
      · exact ⟨by rw [Flat]; trivial, rfl⟩
      · exact ⟨h.flat, h.constant⟩
    · rw [coeff_mul]
      simp [h.coeff, coeff]

theorem body_scaled (F : Form α) {e : Term} (h : Primitive e) (n : ℤ) :
    (scaled n e).body F = e.body F := by
  unfold scaled
  split
  · rfl
  · have hparts : parts [num n e.isInt, e] = [e] := by
      simp [parts, h.isConst, isConst]
    rw [body_mul, hparts]
    exact F.prod_single _

/-- The sum of the terms with their coefficients. -/
def poly (ps : List (ℤ × Term)) : Term := mkAdd (ps.map fun p => scaled p.1 p.2)

/-- A sum whose coefficients have no common divisor, and are positive if there is
only one. -/
structure Reduced (ns : List ℤ) : Prop where
  gcd : gcdList ns = 1
  single : ∀ n, ns = [n] → n = 1

theorem poly_cases {ps : List (ℤ × Term)} (hr : Reduced (ps.map Prod.fst)) :
    (∃ e, ps = [(1, e)] ∧ poly ps = e) ∨ poly ps = add (ps.map fun p => scaled p.1 p.2) := by
  match ps with
  | [] => exact .inr rfl
  | [p] =>
    have hp : p.1 = 1 := hr.single p.1 rfl
    refine .inl ⟨p.2, ?_, ?_⟩
    · rw [← hp]
    · show scaled p.1 p.2 = p.2
      rw [scaled, if_pos hp]
  | p :: q :: ps => exact .inr rfl

theorem coeff_poly {ps : List (ℤ × Term)} (hps : ∀ p ∈ ps, Primitive p.2)
    (hr : Reduced (ps.map Prod.fst)) : (add (ps.map fun p => scaled p.1 p.2)).coeff = 1 := by
  have hparts : parts (ps.map fun p => scaled p.1 p.2) = ps.map fun p => scaled p.1 p.2 := by
    refine parts_eq_self fun e he => ?_
    obtain ⟨p, hp, rfl⟩ := List.mem_map.1 he
    exact (scaled_spec (hps p hp) p.1).1
  have hcoeff : (ps.map fun p => scaled p.1 p.2).map coeff =
      (ps.map Prod.fst).map fun n : ℤ => (n : ℚ) := by
    rw [List.map_map, List.map_map]
    exact List.map_congr_left fun p hp => (scaled_spec (hps p hp) p.1).2.2.2
  rw [coeff_add, hparts, hcoeff, content_intCast, hr.gcd, Int.cast_one]

theorem Primitive.poly {ps : List (ℤ × Term)} (hps : ∀ p ∈ ps, Primitive p.2)
    (hr : Reduced (ps.map Prod.fst)) : Primitive (poly ps) := by
  rcases poly_cases hr with ⟨e, rfl, he⟩ | he
  · rw [he]
    exact hps _ List.mem_cons_self
  · rw [he]
    have hspec := fun p hp => scaled_spec (hps p hp) p.1
    constructor
    · cases ps with
      | nil => exact absurd hr.gcd (by decide)
      | cons p ps =>
        exact (isConst_false_of_mem List.mem_cons_self (hspec p List.mem_cons_self).1).1
    · rw [Flat]
      intro t ht
      obtain ⟨p, hp, rfl⟩ := List.mem_map.1 ht
      exact ⟨(hspec p hp).2.1, (hspec p hp).2.2.1⟩
    · have hnone : (ps.map fun p => scaled p.1 p.2).filter Term.isConst = [] := by
        rw [List.filter_eq_nil_iff]
        intro t ht
        obtain ⟨p, hp, rfl⟩ := List.mem_map.1 ht
        rw [(hspec p hp).1]
        exact Bool.false_ne_true
      rw [Term.constant, hnone]
      rfl
    · exact coeff_poly hps hr

theorem body_poly (F : Form α) {ps : List (ℤ × Term)} (hps : ∀ p ∈ ps, Primitive p.2)
    (hr : Reduced (ps.map Prod.fst)) :
    (poly ps).body F = F.sum (ps.map fun p => ((p.1 : ℚ), p.2.body F) : List (ℚ × α)) := by
  rcases poly_cases hr with ⟨e, rfl, he⟩ | he
  · rw [he]
    exact (F.sum_single _).symm
  · have hspec := fun p hp => scaled_spec (hps p hp) p.1
    have hparts : parts (ps.map fun p => scaled p.1 p.2) = ps.map fun p => scaled p.1 p.2 := by
      refine parts_eq_self fun e he => ?_
      obtain ⟨p, hp, rfl⟩ := List.mem_map.1 he
      exact (hspec p hp).1
    rw [he, body_add, hparts, coeff_poly hps hr, List.map_map]
    congr 2
    refine List.map_congr_left fun p hp => ?_
    show ((scaled p.1 p.2).coeff / 1, (scaled p.1 p.2).body F) = _
    rw [div_one, (hspec p hp).2.2.2, body_scaled F (hps p hp)]

/-! ## Factors -/

theorem asPower_cases (t : Term) :
    (∃ a k, t = pow a k ∧ IsUnsigned k ∧ t.asPower = (a, (k : ℕ))) ∨ t.asPower = (t, 1) := by
  cases t with
  | pow a k =>
    by_cases hk : IsUnsigned k
    · exact .inl ⟨a, k, rfl, hk, if_pos hk⟩
    · exact .inr (if_neg hk)
  | _ => exact .inr rfl

theorem asPower_pos (t : Term) : 0 < t.asPower.2 := by
  rcases t.asPower_cases with ⟨a, k, -, -, ht⟩ | ht
  · rw [ht]
    exact k.pos
  · rw [ht]
    exact Nat.one_pos

theorem isConst_asPower (t : Term) : t.asPower.1.isConst = t.isConst := by
  rcases t.asPower_cases with ⟨a, k, rfl, hk, ht⟩ | ht
  · rw [ht, isConst, decide_eq_true hk, Bool.and_true]
  · rw [ht]

theorem coeff_asPower (t : Term) : t.asPower.1.coeff ^ t.asPower.2 = t.coeff := by
  rcases t.asPower_cases with ⟨a, k, rfl, hk, ht⟩ | ht
  · rw [ht, coeff_pow hk]
  · rw [ht, pow_one]

/-- A factor that is a power counts as that many factors. -/
theorem prod_asPower (F : Form α) (t : Term) (s : Multiset α) :
    F.prod (t.body F ::ₘ s) =
      F.prod (.replicate t.asPower.2 (t.asPower.1.body F) + s) := by
  rcases t.asPower_cases with ⟨a, k, rfl, hk, ht⟩ | ht
  · rw [ht, body_pow F hk]
    exact F.prod_group _ _
  · rw [ht, Multiset.replicate_one, Multiset.singleton_add]

/-- The bases of the factors, each as often as its exponent says. -/
def bases (F : Form α) (ts : List Term) : Multiset α :=
  ((parts ts).map fun t => Multiset.replicate t.asPower.2 (t.asPower.1.body F)).sum

theorem prod_bases (F : Form α) (ts : List Term) (s : Multiset α) :
    F.prod (((ts.map (body F) : List α) : Multiset α) + s) =
      F.prod ((ts.map fun t => Multiset.replicate t.asPower.2 (t.asPower.1.body F)).sum + s) := by
  induction ts generalizing s with
  | nil => rfl
  | cons t ts ih =>
    rw [List.map_cons, ← Multiset.cons_coe, Multiset.cons_add, prod_asPower, List.map_cons,
      List.sum_cons, add_left_comm, ih, add_assoc, add_left_comm]

theorem body_mul_bases (F : Form α) (ts : List Term) : (mul ts).body F = F.prod (bases F ts) := by
  have := prod_bases F (parts ts) 0
  rwa [add_zero, add_zero, ← body_mul] at this

/-! ## Regular terms -/

theorem sizeOf_asPower (t : Term) : sizeOf t.asPower.1 ≤ sizeOf t := by
  rcases t.asPower_cases with ⟨a, k, rfl, -, ht⟩ | ht
  · simp only [ht, pow.sizeOf_spec]
    omega
  · rw [ht]

/-- No argument is a sum with a constant; the summands of a sum are pairwise not
alike, a single summand has a positive coefficient and not all coefficients are
zero; exponents stay below `2^32`; and the base of a power that is not a factor
has a coefficient with power one. -/
def Regular : Term → Prop
  | num _ _ => True
  | var _ => True
  | add ts => (∀ t ∈ ts, t.Regular ∧ t.constant = 0) ∧
      (parts ts).Pairwise (fun a b => ¬ Alike a b) ∧
      (∀ t, parts ts = [t] → 0 < t.coeff) ∧ (parts ts ≠ [] → (add ts).coeff ≠ 0)
  | mul ts => (∀ t ∈ ts, t.asPower.1.Regular ∧ t.asPower.1.constant = 0) ∧
      ((parts ts).map fun t => t.asPower.2).sum < 2 ^ 32
  | pow t k => IsUnsigned k →
      t.Regular ∧ t.constant = 0 ∧ (t.isConst = false → t.coeff ^ (k : ℕ) = 1)
decreasing_by
  · have := List.sizeOf_lt_of_mem ‹t ∈ ts›
    simp only [add.sizeOf_spec]
    omega
  · have := List.sizeOf_lt_of_mem ‹t ∈ ts›
    have := sizeOf_asPower t
    simp only [mul.sizeOf_spec]
    omega
  · simp only [pow.sizeOf_spec]
    omega

theorem regular_num (q : ℚ) (b : Bool) : (num q b).Regular := by
  rw [Regular]
  trivial

theorem regular_var (v : Symbol) : (var v).Regular := by
  rw [Regular]
  trivial

theorem Flat.of_asPower {t : Term} (h : t.asPower.1.Flat ∧ t.asPower.1.constant = 0) :
    t.Flat ∧ t.constant = 0 := by
  rcases t.asPower_cases with ⟨a, k, rfl, -, ht⟩ | ht
  · rw [ht] at h
    refine ⟨?_, rfl⟩
    rw [Flat]
    exact fun _ => h
  · rwa [ht] at h

theorem Regular.flat {t : Term} (h : t.Regular) : t.Flat := by
  induction t using Regular.induct with
  | case1 q b => rw [Flat]; trivial
  | case2 v => rw [Flat]; trivial
  | case3 ts ih =>
    rw [Regular] at h
    rw [Flat]
    exact fun t ht => ⟨ih t ht (h.1 t ht).1, (h.1 t ht).2⟩
  | case4 ts ih =>
    rw [Regular] at h
    rw [Flat]
    exact fun t ht => Flat.of_asPower ⟨ih t ht (h.1 t ht).1, (h.1 t ht).2⟩
  | case5 t k ih =>
    rw [Regular] at h
    rw [Flat]
    intro hk
    exact ⟨ih (h hk).1, (h hk).2.1⟩

end Term

end AriParti.L1
