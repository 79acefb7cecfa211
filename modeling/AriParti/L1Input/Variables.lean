import AriParti.Core.LTS
import AriParti.L1Bounds.Meaning

/-!
# The variables of the context

`context_t` numbers its variables in the order they are made. A base variable
is integer or real as its maker says; for a defined one `is_int` looks at the
parts. A sum is taken for an integer when all its parts and coefficients are
integers, a monomial when one of its parts is.

## Results

* `Made.defs`, `Made.isInt`: a definition uses earlier variables, and the flag
  of its variable is computed from theirs.
* `flags_integer`: the variables taken for integers are integers, if no call of
  `mk_monomial` mixes them with others.
* `flags_mixed`: `x · y` with `x = 1` and `y = 1/2`.
-/
namespace AriParti.L1

open AriParti.Core

/-- What `m_is_int`, `m_is_bool` and `m_defs` have of one variable. -/
structure VarInfo where
  isInt : Bool
  isBool : Bool
  definition : Option Definition
  deriving DecidableEq, Repr

structure Vars where
  entries : List VarInfo
  deriving DecidableEq, Repr

namespace Vars

/-- `num_vars` -/
def size (s : Vars) : Nat := s.entries.length

def isInt (s : Vars) (x : Nat) : Bool := (s.entries[x]?).any (·.isInt)

def isBool (s : Vars) (x : Nat) : Bool := (s.entries[x]?).any (·.isBool)

def definition (s : Vars) (x : Nat) : Option Definition := (s.entries[x]?).bind (·.definition)

/-- The new variable is the number of those there were. -/
def push (s : Vars) (e : VarInfo) : Vars := ⟨s.entries ++ [e]⟩

/-- mirrors subpaving_t_def.h:629-636 -/
def mkVar (s : Vars) (isInt : Bool) : Vars := s.push ⟨isInt, false, none⟩

/-- mirrors subpaving_t_def.h:638-645 -/
def mkBvar (s : Vars) : Vars := s.push ⟨false, true, none⟩

def pushDef (s : Vars) (d : Definition) : Vars := s.push ⟨d.isInt s.isInt, false, some d⟩

/-- mirrors subpaving_t_def.h:653-665; the powers are sorted as by :230-240 -/
def mkMonomial (s : Vars) (pws : List (Nat × Nat)) : Vars :=
  s.pushDef (.monomial (pws.insertionSort fun p q => p.1 ≤ q.1))

end Vars

/-- `m_num_buffer` with the coefficients, the last one of a repeated variable. -/
def numBuffer (ts : List (ℚ × Nat)) : Nat → ℚ :=
  ts.foldl (fun b t => Function.update b t.2 t.1) fun _ => 0

/-- The coefficients are swapped out of the buffer, so a variable that comes a
second time gets zero. -/
def swapOut (buffer : Nat → ℚ) : List Nat → List (ℚ × Nat)
  | [] => []
  | x :: xs => (buffer x, x) :: swapOut (Function.update buffer x 0) xs

/-- mirrors subpaving_t_def.h:677-705 -/
def Vars.mkSum (s : Vars) (ts : List (ℚ × Nat)) : Vars :=
  s.pushDef (.polynomial (swapOut (numBuffer ts) ((ts.map Prod.snd).insertionSort (· ≤ ·))))

/-! ## Runs -/

inductive VarCall where
  | mkVar (isInt : Bool)
  | mkBvar
  | mkMonomial (pws : List (Nat × Nat))
  | mkSum (ts : List (ℚ × Nat))

/-- `x` is an arithmetic variable that has been made. -/
def Vars.Arith (s : Vars) (x : Nat) : Prop := x < s.size ∧ s.isBool x = false

instance (s : Vars) (x : Nat) : Decidable (s.Arith x) := inferInstanceAs (Decidable (_ ∧ _))

/-- What the assertions of the source ask of a call (subpaving_t_def.h:654,680). -/
def VarCall.Legal (s : Vars) : VarCall → Prop
  | mkVar _ => True
  | mkBvar => True
  | mkMonomial pws => pws ≠ [] ∧ ∀ p ∈ pws, s.Arith p.1
  | mkSum ts => ∀ t ∈ ts, s.Arith t.2

def Vars.after (s : Vars) : VarCall → Vars
  | .mkVar isInt => s.mkVar isInt
  | .mkBvar => s.mkBvar
  | .mkMonomial pws => s.mkMonomial pws
  | .mkSum ts => s.mkSum ts

/-- The variables after any sequence of calls. -/
def varCalls : LTS Vars VarCall where
  init s := s = ⟨[]⟩
  step s c s' := c.Legal s ∧ s' = s.after c

/-- Base variables have values of their sort, defined ones the value of their
definition. -/
structure Vars.Admissible (s : Vars) (σ : Assignment) : Prop where
  int : ∀ x, s.Arith x → s.definition x = none → s.isInt x = true → ∃ k : ℤ, σ.num x = k
  real : ∀ x, s.Arith x → s.definition x = none → s.isInt x = false → ∃ q : ℚ, σ.num x = q
  defs : ∀ x d, s.definition x = some d → σ.num x = d.eval σ

/-! ## A new variable -/

section Push

variable (s : Vars) (e : VarInfo)

theorem Vars.push_entry (x : Nat) :
    (s.push e).entries[x]? = if x = s.size then some e else s.entries[x]? := by
  unfold Vars.push Vars.size
  simp only
  split
  · rename_i h
    rw [h, List.getElem?_concat_length]
  · rename_i h
    by_cases hlt : x < s.entries.length
    · rw [List.getElem?_append_left hlt]
    · rw [List.getElem?_eq_none (by rw [List.length_append, List.length_singleton]; omega),
        List.getElem?_eq_none (by omega)]

theorem Vars.push_isInt (x : Nat) :
    (s.push e).isInt x = if x = s.size then e.isInt else s.isInt x := by
  unfold Vars.isInt
  rw [s.push_entry e]
  split <;> rfl

theorem Vars.push_isBool (x : Nat) :
    (s.push e).isBool x = if x = s.size then e.isBool else s.isBool x := by
  unfold Vars.isBool
  rw [s.push_entry e]
  split <;> rfl

theorem Vars.push_definition (x : Nat) :
    (s.push e).definition x = if x = s.size then e.definition else s.definition x := by
  unfold Vars.definition
  rw [s.push_entry e]
  split <;> rfl

@[simp] theorem Vars.push_size : (s.push e).size = s.size + 1 := by
  unfold Vars.size Vars.push
  rw [List.length_append]
  rfl

end Push

/-- A flag depends on the variables of the definition. -/
theorem Definition.isInt_congr {f g : Nat → Bool} (d : Definition) (h : ∀ y ∈ d.vars, f y = g y) :
    d.isInt f = d.isInt g := by
  cases d with
  | monomial ps =>
    unfold Definition.isInt
    rw [Bool.eq_iff_iff, List.any_eq_true, List.any_eq_true]
    refine exists_congr fun p => and_congr_right fun hp => ?_
    rw [h p.1 (List.mem_map_of_mem hp)]
  | polynomial ts =>
    unfold Definition.isInt
    rw [Bool.eq_iff_iff, List.all_eq_true, List.all_eq_true]
    refine forall₂_congr fun t ht => ?_
    rw [h t.2 (List.mem_map_of_mem ht)]

/-- The variables of a sum are those of its summands. -/
theorem swapOut_vars (buffer : Nat → ℚ) (xs : List Nat) :
    (swapOut buffer xs).map Prod.snd = xs := by
  induction xs generalizing buffer with
  | nil => rfl
  | cons x xs ih => rw [swapOut, List.map_cons, ih]

/-! ## What the calls make -/

structure Made (s : Vars) : Prop where
  /-- a definition is made of variables before it -/
  lt : ∀ x d, s.definition x = some d → x < s.size ∧ ∀ y ∈ d.vars, y < x
  arith : ∀ x d, s.definition x = some d → s.isBool x = false ∧ ∀ y ∈ d.vars, s.isBool y = false
  isInt : ∀ x d, s.definition x = some d → s.isInt x = d.isInt s.isInt
  /-- a variable taken for an integer is arithmetic -/
  int : ∀ x, s.isInt x = true → s.Arith x

theorem Made.push {s : Vars} (h : Made s) {e : VarInfo} (hb : e.isInt = true → e.isBool = false)
    (he : ∀ d, e.definition = some d →
      e.isBool = false ∧ e.isInt = d.isInt s.isInt ∧ ∀ y ∈ d.vars, s.Arith y) :
    Made (s.push e) := by
  have hdef : ∀ x d, (s.push e).definition x = some d →
      x = s.size ∧ e.definition = some d ∨ x < s.size ∧ s.definition x = some d := by
    intro x d hd
    rw [Vars.push_definition] at hd
    split at hd
    · exact .inl ⟨‹_›, hd⟩
    · exact .inr ⟨(h.lt x d hd).1, hd⟩
  have hparts : ∀ x d, (s.push e).definition x = some d → ∀ y ∈ d.vars, y < x ∧ s.Arith y := by
    intro x d hd y hy
    rcases hdef x d hd with ⟨rfl, hnew⟩ | ⟨hx, hold⟩
    · have hy := (he d hnew).2.2 y hy
      exact ⟨hy.1, hy⟩
    · have hlt := (h.lt x d hold).2 y hy
      exact ⟨hlt, hlt.trans hx, (h.arith x d hold).2 y hy⟩
  constructor
  · intro x d hd
    refine ⟨?_, fun y hy => (hparts x d hd y hy).1⟩
    rw [Vars.push_size]
    rcases hdef x d hd with ⟨rfl, -⟩ | ⟨hx, -⟩ <;> omega
  · intro x d hd
    constructor
    · rw [Vars.push_isBool]
      rcases hdef x d hd with ⟨rfl, hnew⟩ | ⟨hx, hold⟩
      · rw [if_pos rfl]
        exact (he d hnew).1
      · rw [if_neg hx.ne]
        exact (h.arith x d hold).1
    · intro y hy
      have hy := (hparts x d hd y hy).2
      rw [Vars.push_isBool, if_neg hy.1.ne]
      exact hy.2
  · intro x d hd
    have hflags : d.isInt (s.push e).isInt = d.isInt s.isInt := by
      refine d.isInt_congr fun y hy => ?_
      rw [Vars.push_isInt, if_neg (hparts x d hd y hy).2.1.ne]
    rw [hflags, Vars.push_isInt]
    rcases hdef x d hd with ⟨rfl, hnew⟩ | ⟨hx, hold⟩
    · rw [if_pos rfl]
      exact (he d hnew).2.1
    · rw [if_neg hx.ne]
      exact h.isInt x d hold
  · intro x hx
    rw [Vars.push_isInt] at hx
    unfold Vars.Arith
    rw [Vars.push_size, Vars.push_isBool]
    split at hx
    · rename_i hxs
      rw [if_pos hxs, hxs]
      exact ⟨Nat.lt_succ_self _, hb hx⟩
    · have := h.int x hx
      rw [if_neg this.1.ne]
      exact ⟨Nat.lt_succ_of_lt this.1, this.2⟩

/-- A definition is flagged as its parts say. -/
theorem Made.pushDef {s : Vars} (h : Made s) {d : Definition} (hd : ∀ y ∈ d.vars, s.Arith y) :
    Made (s.pushDef d) := by
  refine h.push (fun _ => rfl) fun d' hd' => ?_
  cases hd'
  exact ⟨rfl, rfl, hd⟩

theorem made_inductive : varCalls.Inductive Made := by
  constructor
  · rintro s rfl
    exact ⟨nofun, nofun, nofun, nofun⟩
  · rintro s c _ h ⟨hc, rfl⟩
    cases c with
    | mkVar isInt => exact h.push (fun _ => rfl) nofun
    | mkBvar => exact h.push nofun nofun
    | mkMonomial pws =>
      refine h.pushDef fun y hy => ?_
      obtain ⟨p, hp, rfl⟩ := List.mem_map.1 hy
      exact hc.2 p ((List.mem_insertionSort _).1 hp)
    | mkSum ts =>
      refine h.pushDef fun y hy => ?_
      have hy : y ∈ (swapOut _ _).map Prod.snd := hy
      rw [swapOut_vars, List.mem_insertionSort] at hy
      obtain ⟨t, ht, rfl⟩ := List.mem_map.1 hy
      exact hc t ht

/-! ## Integers -/

/-- The variables of a new monomial are all taken for integers, or none is. -/
def VarCall.Unmixed (s : Vars) : VarCall → Prop
  | mkMonomial pws => ∀ p ∈ pws, ∀ q ∈ pws, s.isInt p.1 = s.isInt q.1
  | _ => True

/-- The monomials that have been made are of one kind each. -/
def Vars.Pure (s : Vars) : Prop :=
  ∀ x ps, s.definition x = some (.monomial ps) → ∀ p ∈ ps, ∀ q ∈ ps, s.isInt p.1 = s.isInt q.1

/-- Each variable taken for an integer is one, and so rounding its bounds
inwards keeps its value. -/
def Vars.FlagsRight (s : Vars) : Prop :=
  ∀ σ, s.Admissible σ → ∀ x, s.isInt x = true → (∃ k : ℤ, σ.num x = k) ∧
    ∀ val lower isOpen, (Bound.mk val isOpen).Allows lower (σ.num x) →
      (Bound.mk (adjustIntegerBound val lower isOpen).1
        (adjustIntegerBound val lower isOpen).2).Allows lower (σ.num x)

/-- A new variable keeps the kinds of the others. -/
theorem Vars.Pure.push {s : Vars} (hs : Made s) (h : s.Pure) {e : VarInfo}
    (he : ∀ ps, e.definition = some (.monomial ps) → (∀ p ∈ ps, p.1 < s.size) ∧
      ∀ p ∈ ps, ∀ q ∈ ps, s.isInt p.1 = s.isInt q.1) : (s.push e).Pure := by
  intro x ps hd p hp q hq
  have hold : (∀ p ∈ ps, p.1 < s.size) ∧ ∀ p ∈ ps, ∀ q ∈ ps, s.isInt p.1 = s.isInt q.1 := by
    rw [Vars.push_definition] at hd
    split at hd
    · exact he ps hd
    · obtain ⟨hx, hlt⟩ := hs.lt x _ hd
      exact ⟨fun p hp => (hlt p.1 (List.mem_map_of_mem hp)).trans hx, h x ps hd⟩
  rw [Vars.push_isInt, Vars.push_isInt, if_neg (hold.1 p hp).ne, if_neg (hold.1 q hq).ne]
  exact hold.2 p hp q hq

theorem pure_inductive :
    (varCalls.restrict VarCall.Unmixed).Inductive fun s => Made s ∧ s.Pure := by
  apply (made_inductive.of_restrict VarCall.Unmixed).under
  · intro s hs x ps hd
    rw [show s = ⟨[]⟩ from hs] at hd
    cases hd
  · rintro s c _ hs h ⟨hc, hlegal, rfl⟩
    cases c with
    | mkVar isInt => exact h.push hs nofun
    | mkBvar => exact h.push hs nofun
    | mkMonomial pws =>
      refine h.push hs fun ps hps => ?_
      cases hps
      have hmem : ∀ p, p ∈ pws.insertionSort (fun p q => p.1 ≤ q.1) → p ∈ pws :=
        fun p hp => (List.mem_insertionSort _).1 hp
      exact ⟨fun p hp => (hlegal.2 p (hmem p hp)).1,
        fun p hp q hq => hc p (hmem p hp) q (hmem q hq)⟩
    | mkSum ts => exact h.push hs nofun

theorem Vars.Admissible.int_of_pure {s : Vars} (h : Made s) (hp : s.Pure) {σ : Assignment}
    (hσ : s.Admissible σ) (x : Nat) (hx : s.isInt x = true) : ∃ k : ℤ, σ.num x = k := by
  induction x using Nat.strong_induction_on with
  | _ x ih =>
    cases hd : s.definition x with
    | none => exact hσ.int x (h.int x hx) hd hx
    | some d =>
      have hlt := (h.lt x d hd).2
      rw [h.isInt x d hd] at hx
      rw [hσ.defs x d hd]
      cases d with
      | monomial ps =>
        -- one factor is taken for an integer, so all are
        rw [Definition.isInt, List.any_eq_true] at hx
        obtain ⟨q, hq, hqi⟩ := hx
        exact prod_int fun p hmem => ih p.1 (hlt p.1 (List.mem_map_of_mem hmem))
          ((hp x ps hd p hmem q hq).trans hqi)
      | polynomial ts =>
        rw [Definition.isInt, List.all_eq_true] at hx
        refine sum_int fun t ht => ?_
        have hti := hx t ht
        rw [Bool.and_eq_true] at hti
        exact ⟨ih t.2 (hlt t.2 (List.mem_map_of_mem ht)) hti.1, isInt_iff.1 hti.2⟩

/-- **The variables taken for integers are integers**, after any calls of which
none makes a monomial of both kinds. -/
theorem flags_integer {s : Vars} (hs : (varCalls.restrict VarCall.Unmixed).Reachable s) :
    s.FlagsRight := by
  obtain ⟨hmade, hpure⟩ := pure_inductive.reachable hs
  intro σ hσ x hx
  obtain ⟨k, hk⟩ := hσ.int_of_pure hmade hpure x hx
  refine ⟨⟨k, hk⟩, fun val lower isOpen hb => ?_⟩
  rw [hk] at hb ⊢
  exact (adjustIntegerBound_iff val lower isOpen k).2 hb

/-- `x₂ = x₀x₁` with `x₀` integer and `x₁` real. -/
def mixedProduct : Vars := (((⟨[]⟩ : Vars).mkVar true).mkVar false).mkMonomial [(0, 1), (1, 1)]

theorem mixedProduct_reachable : varCalls.Reachable mixedProduct := by
  have h₀ : varCalls.Reachable ⟨[]⟩ := .init rfl
  have h₁ := h₀.step (l := .mkVar true) ⟨by trivial, rfl⟩
  have h₂ := h₁.step (l := .mkVar false) ⟨by trivial, rfl⟩
  exact h₂.step (l := .mkMonomial [(0, 1), (1, 1)]) ⟨⟨by decide, by decide⟩, rfl⟩

/-- At `x₀ = 1` and `x₁ = 1/2` the product is taken for an integer. -/
theorem flags_mixed : ∃ s, varCalls.Reachable s ∧ ∃ σ, s.Admissible σ ∧ ∃ x, s.isInt x = true ∧
    ¬ ∃ k : ℤ, σ.num x = k := by
  have hdef : ∀ x, mixedProduct.definition x =
      if x = 2 then some (.monomial [(0, 1), (1, 1)]) else none := by
    intro x
    match x with
    | 0 => rfl
    | 1 => rfl
    | 2 => rfl
    | x + 3 => rfl
  have hint : ∀ x, mixedProduct.isInt x = true → x = 0 ∨ x = 2 := by
    intro x hx
    match x with
    | 0 => exact .inl rfl
    | 1 => cases hx
    | 2 => exact .inr rfl
    | x + 3 => cases hx
  refine ⟨mixedProduct, mixedProduct_reachable,
    ⟨fun x => if x = 0 then 1 else 1 / 2, fun _ => false⟩, ⟨?_, ?_, ?_⟩, 2, by decide, ?_⟩
  · intro x _ hd hi
    rw [hdef] at hd
    rcases hint x hi with rfl | rfl
    · exact ⟨1, by simp⟩
    · cases hd
  · intro x _ _ _
    refine ⟨if x = 0 then 1 else 1 / 2, ?_⟩
    show (if x = 0 then (1 : ℝ) else 1 / 2) = ((if x = 0 then 1 else 1 / 2 : ℚ) : ℝ)
    split <;> norm_num
  · intro x d hd
    rw [hdef, Option.ite_none_right_eq_some] at hd
    obtain ⟨rfl, hd⟩ := hd
    cases hd
    norm_num [Definition.eval]
  · rintro ⟨k, hk⟩
    have hk : (1 : ℝ) = 2 * k := by
      rw [← hk]
      norm_num
    have hk : (1 : ℤ) = 2 * k := by exact_mod_cast hk
    omega

/-- `x₂ = x₀²` and `x₃ = 3x₀ + 2x₂` for an integer `x₀`, beside a real `x₁`. -/
def wholeSum : Vars :=
  ((((⟨[]⟩ : Vars).mkVar true).mkVar false).mkMonomial [(0, 2)]).mkSum [(3, 0), (2, 2)]

theorem flags_integer_wholeSum : wholeSum.isInt 3 = true ∧ wholeSum.FlagsRight := by
  let given₂ : Vars := ((⟨[]⟩ : Vars).mkVar true).mkVar false
  let given₃ : Vars := given₂.mkMonomial [(0, 2)]
  have h₀ : (varCalls.restrict VarCall.Unmixed).Reachable ⟨[]⟩ := .init rfl
  have h₁ := h₀.step (l := .mkVar true) ⟨by trivial, by trivial, rfl⟩
  have h₂ : (varCalls.restrict VarCall.Unmixed).Reachable given₂ :=
    h₁.step (l := .mkVar false) ⟨by trivial, by trivial, rfl⟩
  have h₃ : (varCalls.restrict VarCall.Unmixed).Reachable given₃ :=
    h₂.step (l := .mkMonomial [(0, 2)])
      ⟨by unfold VarCall.Unmixed; decide, by unfold VarCall.Legal; decide, rfl⟩
  have h₄ : (varCalls.restrict VarCall.Unmixed).Reachable wholeSum :=
    h₃.step (l := .mkSum [(3, 0), (2, 2)]) ⟨by trivial, by unfold VarCall.Legal; decide, rfl⟩
  exact ⟨by decide, flags_integer h₄⟩

end AriParti.L1
