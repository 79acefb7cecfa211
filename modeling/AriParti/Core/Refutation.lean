import Mathlib.Logic.Relation
import Mathlib.Data.List.Basic

/-!
# Refutation trees

A search tree grows by splitting nodes, and a node that is found to have no
solution is marked. Two rules spread a mark: a node all of whose children are
marked is marked (a split covers its node), and every node below a marked one
is marked (a part of nothing is nothing).

`Refuted k children B` is what the two rules derive from the nodes of `B`,
where `k` is the number of children from which a split counts as complete.
`MarkedTree` is a state that holds such a tree, and `pushUp`, `pushDown` the
two recursions over it. The nodes are numbered in creation order, so a
recursion that goes up needs as much fuel as its start has number, and one
that goes down as much as there are nodes after it.

## Results

* `spread_spec`: when the marks are closed under both rules but for one newly
  marked node, pushing up from its parent and down from its children closes
  them, and marks exactly what is refuted.
* `Refuted.leaf`: a refuted leaf is below a node of `B`.
* `spread_keeps_of`: what marking an unmarked node keeps, a spread keeps.
* `Forgets.spread`: a spread commutes with forgetting a part of the state.
-/
namespace AriParti.Core

section Rules

variable {k : Nat} {children : Nat → List Nat} {B B' : Nat → Prop}

/-- What the two rules derive from `B`. -/
inductive Refuted (k : Nat) (children : Nat → List Nat) (B : Nat → Prop) : Nat → Prop where
  | base {n : Nat} : B n → Refuted k children B n
  | down {p c : Nat} : Refuted k children B p → c ∈ children p → Refuted k children B c
  | up {n : Nat} : children n ≠ [] → k ≤ (children n).length →
      (∀ c ∈ children n, Refuted k children B c) → Refuted k children B n

/-- `c` is `p` or in the subtree of `p`. -/
def Below (children : Nat → List Nat) : Nat → Nat → Prop :=
  Relation.ReflTransGen fun p c => c ∈ children p

theorem Refuted.least {M : Nat → Prop} (hB : ∀ n, B n → M n)
    (hdown : ∀ p c, M p → c ∈ children p → M c)
    (hup : ∀ n, children n ≠ [] → k ≤ (children n).length → (∀ c ∈ children n, M c) → M n)
    {n : Nat} (h : Refuted k children B n) : M n := by
  induction h with
  | base hb => exact hB _ hb
  | down _ hc ih => exact hdown _ _ ih hc
  | up hne hk _ ih => exact hup _ hne hk ih

theorem Refuted.mono (hB : ∀ n, B n → B' n) {n : Nat} (h : Refuted k children B n) :
    Refuted k children B' n :=
  h.least (fun _ hb => .base (hB _ hb)) (fun _ _ hp hc => .down hp hc)
    (fun _ hne hk hc => .up hne hk hc)

/-- Deriving from derived nodes derives nothing new. -/
theorem Refuted.idem {n : Nat} (h : Refuted k children (Refuted k children B) n) :
    Refuted k children B n :=
  h.least (fun _ hb => hb) (fun _ _ hp hc => .down hp hc) (fun _ hne hk hc => .up hne hk hc)

theorem refuted_of_below {p c : Nat} (h : Refuted k children B p) (hc : Below children p c) :
    Refuted k children B c := by
  induction hc with
  | refl => exact h
  | tail _ hm ih => exact .down ih hm

/-- What the rule for splits alone derives from `B`. -/
inductive Raised (k : Nat) (children : Nat → List Nat) (B : Nat → Prop) : Nat → Prop where
  | base {n : Nat} : B n → Raised k children B n
  | up {n : Nat} : children n ≠ [] → k ≤ (children n).length →
      (∀ c ∈ children n, Raised k children B c) → Raised k children B n

theorem Raised.refuted {n : Nat} (h : Raised k children B n) : Refuted k children B n := by
  induction h with
  | base hb => exact .base hb
  | up hne hk _ ih => exact .up hne hk ih

/-- In a tree, what is refuted lies below what the splits derive: a split is
never completed by children that are parts of something refuted. -/
theorem refuted_iff_raised (huniq : ∀ p q c, c ∈ children p → c ∈ children q → p = q) {n : Nat} :
    Refuted k children B n ↔ ∃ a, Below children a n ∧ Raised k children B a := by
  constructor
  · intro h
    induction h with
    | base hb => exact ⟨_, .refl, .base hb⟩
    | down _ hc ih =>
      obtain ⟨a, ha, hr⟩ := ih
      exact ⟨a, .tail ha hc, hr⟩
    | @up n hne hk _ ih =>
      by_cases hall : ∀ c ∈ children n, Raised k children B c
      · exact ⟨n, .refl, .up hne hk hall⟩
      · simp only [not_forall] at hall
        obtain ⟨c, hc, hno⟩ := hall
        obtain ⟨a, ha, hr⟩ := ih c hc
        rcases Relation.ReflTransGen.cases_tail ha with rfl | ⟨p, hap, hp⟩
        · exact absurd hr hno
        · rw [huniq p n c hp hc] at hap
          exact ⟨a, hap, hr⟩
  · rintro ⟨a, ha, hr⟩
    exact refuted_of_below hr.refuted ha

/-- A refuted leaf has a node of `B` above it, or is one. -/
theorem Refuted.leaf {n : Nat} (h : Refuted k children B n) (hn : children n = []) :
    ∃ a, Below children a n ∧ B a := by
  -- what a refuted node tells about every leaf of its subtree
  have key : ∀ m, Refuted k children B m →
      ∀ l, Below children m l → children l = [] → ∃ a, Below children a l ∧ B a := by
    intro m hm
    induction hm with
    | base hb => exact fun l hl _ => ⟨_, hl, hb⟩
    | down _ hc ih => exact fun l hl => ih l (.head hc hl)
    | @up m hne _ _ ih =>
      intro l hl hleaf
      rcases Relation.ReflTransGen.cases_head hl with heq | ⟨c, hc, hcl⟩
      · exact absurd (heq ▸ hleaf) hne
      · exact ih c hc l hcl hleaf
  exact key n h n .refl hn

end Rules

/-- A tree kept in a state of type `σ`, with a mark on some of its nodes. -/
structure MarkedTree (σ : Type) where
  size : σ → Nat
  parent : σ → Nat → Option Nat
  children : σ → Nat → List Nat
  marked : σ → Nat → Bool
  mark : Nat → σ → σ
  size_mark : ∀ n s, size (mark n s) = size s
  parent_mark : ∀ n s, parent (mark n s) = parent s
  children_mark : ∀ n s, children (mark n s) = children s
  marked_mark : ∀ n s m, marked (mark n s) m = (m == n || marked s m)

namespace MarkedTree

variable {σ : Type} (T : MarkedTree σ)

/-- Children know their parent, and are made after it. -/
structure Grown (s : σ) : Prop where
  parentLt : ∀ c p, T.parent s c = some p → p < c
  child : ∀ p c, c ∈ T.children s p ↔ c < T.size s ∧ T.parent s c = some p

/-- At least `k` children, all of them marked. -/
def covered (k : Nat) (s : σ) (n : Nat) : Bool :=
  k ≤ (T.children s n).length && (T.children s n).all (T.marked s)

def pushDown : Nat → σ → Nat → σ
  | 0, s, _ => s
  | fuel + 1, s, n =>
    if T.marked s n then s
    else (T.children s n).foldl (fun s c => pushDown fuel s c) (T.mark n s)

def pushUp (k : Nat) : Nat → σ → Nat → σ
  | 0, s, _ => s
  | fuel + 1, s, n =>
    if T.marked s n then s
    else if T.covered k s n then
      match T.parent s n with
      | none => T.mark n s
      | some p => pushUp k fuel (T.mark n s) p
    else s

/-- Down from each of `cs`. -/
def pushDownAll (fuel : Nat) (s : σ) (cs : List Nat) : σ :=
  cs.foldl (fun s c => T.pushDown fuel s c) s

/-- Up from the parent of `n`. -/
def pushUpFrom (k : Nat) (s : σ) (n : Nat) : σ :=
  match T.parent s n with
  | none => s
  | some p => T.pushUp k (p + 1) s p

/-- Down from the children of `n`. -/
def pushDownFrom (s : σ) (n : Nat) : σ :=
  T.pushDownAll (T.size s) s (T.children s n)

/-! ## What the recursions leave alone -/

section Keeps

variable {T} {P : σ → Prop} {D : Nat → Prop}

/-- Any property that marking an unmarked node keeps, for the nodes of a set
`D` that holds the children of its nodes. -/
theorem pushDown_keeps_of (hm : ∀ n s, D n → T.marked s n = false → P s → P (T.mark n s))
    (hD : ∀ s p c, P s → D p → c ∈ T.children s p → D c) :
    ∀ fuel s n, D n → P s → P (T.pushDown fuel s n) := by
  intro fuel
  induction fuel with
  | zero => exact fun _ _ _ h => h
  | succ fuel ih =>
    intro s n hn h
    unfold pushDown
    split
    · exact h
    · rename_i hmark
      exact List.foldlRecOn _ _ (hm n s hn (Bool.eq_false_iff.2 hmark) h)
        fun s' hs c hc => ih s' c (hD s n c h hn hc) hs

theorem pushDownAll_keeps_of (hm : ∀ n s, D n → T.marked s n = false → P s → P (T.mark n s))
    (hD : ∀ s p c, P s → D p → c ∈ T.children s p → D c) (fuel : Nat) (s : σ) (cs : List Nat)
    (hcs : ∀ c ∈ cs, D c) (h : P s) : P (T.pushDownAll fuel s cs) :=
  List.foldlRecOn _ _ h fun s hs c hc => pushDown_keeps_of hm hD fuel s c (hcs c hc) hs

/-- Here `D` holds the parents of its nodes. -/
theorem pushUp_keeps_of (hm : ∀ n s, D n → T.marked s n = false → P s → P (T.mark n s))
    (hU : ∀ s c p, P s → D c → T.parent s c = some p → D p) {k : Nat} :
    ∀ fuel s n, D n → P s → P (T.pushUp k fuel s n) := by
  intro fuel
  induction fuel with
  | zero => exact fun _ _ _ h => h
  | succ fuel ih =>
    intro s n hn h
    unfold pushUp
    split
    · exact h
    · rename_i hmark
      have hmarked := hm n s hn (Bool.eq_false_iff.2 hmark) h
      split
      · split
        · exact hmarked
        · rename_i p hp
          exact ih _ p (hU s n p h hn hp) hmarked
      · exact h

theorem pushUpFrom_keeps_of (hm : ∀ n s, D n → T.marked s n = false → P s → P (T.mark n s))
    (hU : ∀ s c p, P s → D c → T.parent s c = some p → D p) {k : Nat} (s : σ) (n : Nat) (hn : D n)
    (h : P s) : P (T.pushUpFrom k s n) := by
  unfold pushUpFrom
  split
  · exact h
  · rename_i p hp
    exact pushUp_keeps_of hm hU _ _ p (hU s n p h hn hp) h

theorem pushDownFrom_keeps_of (hm : ∀ n s, D n → T.marked s n = false → P s → P (T.mark n s))
    (hD : ∀ s p c, P s → D p → c ∈ T.children s p → D c) (s : σ) (n : Nat) (hn : D n) (h : P s) :
    P (T.pushDownFrom s n) :=
  pushDownAll_keeps_of hm hD _ s _ (fun c hc => hD s n c h hn hc) h

end Keeps

/-- Any property that marking keeps. -/
theorem pushDown_keeps {P : σ → Prop} (hm : ∀ n s, P s → P (T.mark n s)) (fuel : Nat) (s : σ)
    (n : Nat) (h : P s) : P (T.pushDown fuel s n) :=
  pushDown_keeps_of (D := fun _ => True) (fun n s _ _ => hm n s) (fun _ _ _ _ _ _ => trivial) fuel s n
    trivial h

theorem pushDownAll_keeps {P : σ → Prop} (hm : ∀ n s, P s → P (T.mark n s)) (fuel : Nat) (s : σ)
    (cs : List Nat) (h : P s) : P (T.pushDownAll fuel s cs) :=
  List.foldlRecOn _ _ h fun s hs c _ => T.pushDown_keeps hm fuel s c hs

theorem pushUp_keeps {P : σ → Prop} (hm : ∀ n s, P s → P (T.mark n s)) {k : Nat} (fuel : Nat)
    (s : σ) (n : Nat) (h : P s) : P (T.pushUp k fuel s n) :=
  pushUp_keeps_of (D := fun _ => True) (fun n s _ _ => hm n s) (fun _ _ _ _ _ _ => trivial) fuel s n
    trivial h

theorem pushUpFrom_keeps {P : σ → Prop} (hm : ∀ n s, P s → P (T.mark n s)) {k : Nat} (s : σ)
    (n : Nat) (h : P s) : P (T.pushUpFrom k s n) := by
  unfold pushUpFrom
  split
  · exact h
  · exact T.pushUp_keeps hm _ _ _ h

theorem pushDownFrom_keeps {P : σ → Prop} (hm : ∀ n s, P s → P (T.mark n s)) (s : σ) (n : Nat)
    (h : P s) : P (T.pushDownFrom s n) :=
  T.pushDownAll_keeps hm _ s _ h

/-- `s'` has the tree of `s`, and the marks of `s` at least. -/
structure Extends (s s' : σ) : Prop where
  size : T.size s' = T.size s
  parent : T.parent s' = T.parent s
  children : T.children s' = T.children s
  marked : ∀ n, T.marked s n = true → T.marked s' n = true

theorem Extends.refl (s : σ) : T.Extends s s := ⟨rfl, rfl, rfl, fun _ h => h⟩

variable {T}

theorem Extends.trans {s s₁ s₂ : σ} (h : T.Extends s s₁) (h' : T.Extends s₁ s₂) :
    T.Extends s s₂ where
  size := h'.size.trans h.size
  parent := h'.parent.trans h.parent
  children := h'.children.trans h.children
  marked n hn := h'.marked n (h.marked n hn)

theorem Extends.mark {s s' : σ} (h : T.Extends s s') (n : Nat) : T.Extends s (T.mark n s') where
  size := (T.size_mark n s').trans h.size
  parent := (T.parent_mark n s').trans h.parent
  children := (T.children_mark n s').trans h.children
  marked m hm := by rw [T.marked_mark, h.marked m hm, Bool.or_true]

theorem Extends.grown {s s' : σ} (h : T.Extends s s') (hs : T.Grown s) : T.Grown s' where
  parentLt c p hp := by rw [h.parent] at hp; exact hs.parentLt c p hp
  child p c := by rw [h.children, h.size, h.parent]; exact hs.child p c

variable (T)

theorem pushDown_extends (fuel : Nat) (s : σ) (n : Nat) : T.Extends s (T.pushDown fuel s n) :=
  T.pushDown_keeps (fun _ _ h => h.mark _) fuel s n (.refl T s)

theorem pushDownAll_extends (fuel : Nat) (s : σ) (cs : List Nat) :
    T.Extends s (T.pushDownAll fuel s cs) :=
  T.pushDownAll_keeps (fun _ _ h => h.mark _) fuel s cs (.refl T s)

theorem pushUpFrom_extends (k : Nat) (s : σ) (n : Nat) : T.Extends s (T.pushUpFrom k s n) :=
  T.pushUpFrom_keeps (fun _ _ h => h.mark _) s n (.refl T s)

theorem pushDownFrom_extends (s : σ) (n : Nat) : T.Extends s (T.pushDownFrom s n) :=
  T.pushDownAll_extends _ s _

/-! ## Pushing down -/

/-- The children of a marked node are marked, but for the nodes of `E`. -/
def DownClosed (E : Nat → Prop) (s : σ) : Prop :=
  ∀ y, ¬ E y → T.marked s y = true → ∀ c ∈ T.children s y, T.marked s c = true

variable {T} {E : Nat → Prop} {k : Nat} {s : σ}

/-- What pushing down from one node does, done for a list of nodes. -/
theorem pushDownAll_closed_of {fuel : Nat}
    (one : ∀ (s : σ) (n : Nat), T.Grown s → n < T.size s → T.size s ≤ n + fuel →
      T.DownClosed E s →
      T.DownClosed E (T.pushDown fuel s n) ∧ T.marked (T.pushDown fuel s n) n = true)
    {cs : List Nat} {s : σ} (hg : T.Grown s) (hcs : ∀ c ∈ cs, c < T.size s ∧ T.size s ≤ c + fuel)
    (h : T.DownClosed E s) :
    T.DownClosed E (T.pushDownAll fuel s cs) ∧
      ∀ c ∈ cs, T.marked (T.pushDownAll fuel s cs) c = true := by
  induction cs generalizing s with
  | nil => exact ⟨h, fun c hc => absurd hc List.not_mem_nil⟩
  | cons c cs ih =>
    obtain ⟨hlt, hfuel⟩ := hcs c List.mem_cons_self
    obtain ⟨h', hmc⟩ := one s c hg hlt hfuel h
    have hext := T.pushDown_extends fuel s c
    obtain ⟨hdown, hall⟩ := ih (hext.grown hg)
      (fun d hd => hext.size ▸ hcs d (List.mem_cons_of_mem c hd)) h'
    refine ⟨hdown, fun d hd => ?_⟩
    rcases List.mem_cons.1 hd with rfl | hd
    · exact (T.pushDownAll_extends fuel _ cs).marked d hmc
    · exact hall d hd

theorem pushDown_closed {fuel : Nat} {s : σ} {n : Nat} (hg : T.Grown s) (hn : n < T.size s)
    (hf : T.size s ≤ n + fuel) (h : T.DownClosed E s) :
    T.DownClosed E (T.pushDown fuel s n) ∧ T.marked (T.pushDown fuel s n) n = true := by
  induction fuel generalizing s n E with
  | zero => omega
  | succ fuel ih =>
    unfold pushDown
    by_cases hm : T.marked s n = true
    · rw [if_pos hm]
      exact ⟨h, hm⟩
    · rw [if_neg hm]
      have hext := (Extends.refl T s).mark n
      -- with `n` marked the marks are closed but for `n`, whose children come next
      have h₁ : T.DownClosed (fun y => E y ∨ y = n) (T.mark n s) := by
        intro y hy hmy c hc
        rw [T.marked_mark] at hmy ⊢
        rw [T.children_mark] at hc
        have hyn : (y == n) = false := by simpa using fun he => hy (.inr he)
        rw [hyn, Bool.false_or] at hmy
        rw [h y (fun he => hy (.inl he)) hmy c hc, Bool.or_true]
      have hcs : ∀ c ∈ T.children s n,
          c < T.size (T.mark n s) ∧ T.size (T.mark n s) ≤ c + fuel := by
        intro c hc
        have hc := (hg.child n c).1 hc
        have hlt := hg.parentLt c n hc.2
        rw [T.size_mark]
        omega
      obtain ⟨h₂, hall⟩ := pushDownAll_closed_of (fun s m => ih) (hext.grown hg) hcs h₁
      have he := T.pushDownAll_extends fuel (T.mark n s) (T.children s n)
      refine ⟨fun y hy hmy c hc => ?_, he.marked n (by rw [T.marked_mark]; simp)⟩
      by_cases hyn : y = n
      · subst hyn
        have hc : c ∈ T.children s y := by
          have := he.children.trans (T.children_mark y s)
          exact this ▸ hc
        exact hall c hc
      · exact h₂ y (by simp [hy, hyn]) hmy c hc

/-- Only nodes below `n` get a mark. -/
theorem pushDown_sound {fuel : Nat} {s : σ} {n y : Nat}
    (h : T.marked (T.pushDown fuel s n) y = true) :
    T.marked s y = true ∨ Below (T.children s) n y := by
  induction fuel generalizing s n with
  | zero => exact .inl h
  | succ fuel ih =>
    unfold pushDown at h
    split at h
    · exact .inl h
    · -- each child marks nodes below itself, in a tree that stays the same
      have fold : ∀ s', T.children s' = T.children s ∧
          (T.marked s' y = true → T.marked s y = true ∨ Below (T.children s) n y) →
          ∀ c ∈ T.children s n, T.children (T.pushDown fuel s' c) = T.children s ∧
          (T.marked (T.pushDown fuel s' c) y = true →
            T.marked s y = true ∨ Below (T.children s) n y) := by
        intro s' hs' c hc
        refine ⟨(T.pushDown_extends fuel s' c).children.trans hs'.1, fun hm => ?_⟩
        rcases ih hm with hm | hb
        · exact hs'.2 hm
        · exact .inr (.head hc (hs'.1 ▸ hb))
      have start : T.marked (T.mark n s) y = true →
          T.marked s y = true ∨ Below (T.children s) n y := by
        intro hm
        rw [T.marked_mark, Bool.or_eq_true, beq_iff_eq] at hm
        rcases hm with rfl | hm
        · exact .inr .refl
        · exact .inl hm
      exact (List.foldlRecOn (motive := fun s' => T.children s' = T.children s ∧
        (T.marked s' y = true → T.marked s y = true ∨ Below (T.children s) n y)) _ _
        ⟨T.children_mark n s, start⟩ fold).2 h

theorem pushDownFrom_sound {n y : Nat} (h : T.marked (T.pushDownFrom s n) y = true) :
    T.marked s y = true ∨ ∃ c ∈ T.children s n, Below (T.children s) c y := by
  have fold : ∀ s', T.children s' = T.children s ∧
      (T.marked s' y = true → T.marked s y = true ∨
        ∃ c ∈ T.children s n, Below (T.children s) c y) →
      ∀ c ∈ T.children s n, T.children (T.pushDown (T.size s) s' c) = T.children s ∧
      (T.marked (T.pushDown (T.size s) s' c) y = true → T.marked s y = true ∨
        ∃ c ∈ T.children s n, Below (T.children s) c y) := by
    intro s' hs' c hc
    refine ⟨(T.pushDown_extends _ s' c).children.trans hs'.1, fun hm => ?_⟩
    rcases pushDown_sound hm with hm | hb
    · exact hs'.2 hm
    · exact .inr ⟨c, hc, hs'.1 ▸ hb⟩
  exact (List.foldlRecOn (motive := fun s' => T.children s' = T.children s ∧
    (T.marked s' y = true → T.marked s y = true ∨
      ∃ c ∈ T.children s n, Below (T.children s) c y)) _ _ ⟨rfl, .inl⟩ fold).2 h

/-! ## Pushing up -/

variable (T)

/-- A node with at least `k` children, all marked, is marked, but for the
nodes of `E`. -/
def UpClosed (k : Nat) (E : Nat → Prop) (s : σ) : Prop :=
  ∀ y, ¬ E y → T.children s y ≠ [] → T.covered k s y = true → T.marked s y = true

variable {T}

theorem covered_iff {n : Nat} : T.covered k s n = true ↔
    k ≤ (T.children s n).length ∧ ∀ c ∈ T.children s n, T.marked s c = true := by
  simp [covered]

/-- Marking a node leaves open its parent only. -/
theorem UpClosed.mark (hg : T.Grown s) {n : Nat} (h : T.UpClosed k (· = n) s) :
    T.UpClosed k (fun y => T.parent s n = some y) (T.mark n s) := by
  intro y hy hne hcov
  rw [covered_iff, T.children_mark] at hcov
  rw [T.children_mark] at hne
  rw [T.marked_mark, Bool.or_eq_true, beq_iff_eq]
  by_cases hyn : y = n
  · exact .inl hyn
  · refine .inr (h y hyn hne (covered_iff.2 ⟨hcov.1, fun c hc => ?_⟩))
    have hm := hcov.2 c hc
    rw [T.marked_mark, Bool.or_eq_true, beq_iff_eq] at hm
    rcases hm with rfl | hm
    · exact absurd ((hg.child y c).1 hc).2 hy
    · exact hm

/-- Pushing up keeps the marks closed downwards, and marks what the rules
derive. -/
theorem pushUp_sound {fuel : Nat} {s : σ} {n : Nat} (hg : T.Grown s) (hn : n < T.size s)
    (hne : T.children s n ≠ []) (hdown : T.DownClosed E s) :
    T.DownClosed E (T.pushUp k fuel s n) ∧
      ∀ y, T.marked (T.pushUp k fuel s n) y = true →
        Refuted k (T.children s) (T.marked s · = true) y := by
  induction fuel generalizing s n with
  | zero => exact ⟨hdown, fun y hy => .base hy⟩
  | succ fuel ih =>
    unfold pushUp
    split
    · exact ⟨hdown, fun y hy => .base hy⟩
    · split
      · rename_i hc
        have hall := covered_iff.1 hc
        have hext := (Extends.refl T s).mark n
        have hdown₁ : T.DownClosed E (T.mark n s) := by
          intro y hy hmy c hcc
          rw [T.children_mark] at hcc
          rw [T.marked_mark, Bool.or_eq_true, beq_iff_eq] at hmy
          apply hext.marked c
          rcases hmy with rfl | hmy
          · exact hall.2 c hcc
          · exact hdown y hy hmy c hcc
        have hsound : ∀ y, T.marked (T.mark n s) y = true →
            Refuted k (T.children s) (T.marked s · = true) y := by
          intro y hy
          rw [T.marked_mark, Bool.or_eq_true, beq_iff_eq] at hy
          rcases hy with rfl | hy
          · exact .up hne hall.1 fun c hcc => .base (hall.2 c hcc)
          · exact .base hy
        split
        · exact ⟨hdown₁, hsound⟩
        · rename_i p hp
          have hlt := hg.parentLt n p hp
          have hpne : T.children (T.mark n s) p ≠ [] := by
            rw [T.children_mark]
            exact List.ne_nil_of_mem ((hg.child p n).2 ⟨hn, hp⟩)
          obtain ⟨h1, h2⟩ := ih (hext.grown hg) (by rw [T.size_mark]; omega) hpne hdown₁
          refine ⟨h1, fun y hy => ?_⟩
          have := h2 y hy
          rw [T.children_mark] at this
          exact (this.mono hsound).idem
      · exact ⟨hdown, fun y hy => .base hy⟩

/-- Pushing up from the one node that may be open closes the marks upwards. -/
theorem pushUp_closed {fuel : Nat} {s : σ} {n : Nat} (hg : T.Grown s) (hf : n < fuel)
    (hup : T.UpClosed k (· = n) s) : T.UpClosed k (fun _ => False) (T.pushUp k fuel s n) := by
  induction fuel generalizing s n with
  | zero => omega
  | succ fuel ih =>
    unfold pushUp
    split
    · rename_i hm
      intro y _ hy hc
      by_cases hyn : y = n
      · exact hyn ▸ hm
      · exact hup y hyn hy hc
    · split
      · have hup₁ := hup.mark hg
        split
        · rename_i hp
          exact fun y _ hy hcy => hup₁ y (by simp [hp]) hy hcy
        · rename_i p hp
          have hlt := hg.parentLt n p hp
          refine ih (((Extends.refl T s).mark n).grown hg) (by omega) fun y hy => ?_
          exact hup₁ y fun he => hy (Option.some.inj (hp.symm.trans he)).symm
      · rename_i hc
        intro y _ hy hcy
        by_cases hyn : y = n
        · exact absurd (hyn ▸ hcy) hc
        · exact hup y hyn hy hcy

/-! ## Spreading one new mark -/

variable (T)

/-- The marks are closed under both rules. -/
def Closed (k : Nat) (s : σ) : Prop :=
  T.DownClosed (fun _ => False) s ∧ T.UpClosed k (fun _ => False) s

/-- Up from the parent of the marked node `n`, then down from its children. -/
def spread (k : Nat) (s : σ) (n : Nat) : σ := T.pushDownFrom (T.pushUpFrom k s n) n

theorem spread_keeps {P : σ → Prop} (hm : ∀ n s, P s → P (T.mark n s)) {k : Nat} (s : σ)
    (n : Nat) (h : P s) : P (T.spread k s n) :=
  T.pushDownFrom_keeps hm _ n (T.pushUpFrom_keeps hm s n h)

theorem spread_keeps_of {P : σ → Prop} {D : Nat → Prop}
    (hm : ∀ n s, D n → T.marked s n = false → P s → P (T.mark n s))
    (hD : ∀ s p c, P s → D p → c ∈ T.children s p → D c)
    (hU : ∀ s c p, P s → D c → T.parent s c = some p → D p) {k : Nat} (s : σ) (n : Nat) (hn : D n)
    (h : P s) : P (T.spread k s n) :=
  pushDownFrom_keeps_of hm hD _ n hn (pushUpFrom_keeps_of hm hU s n hn h)

theorem spread_extends (k : Nat) (s : σ) (n : Nat) : T.Extends s (T.spread k s n) :=
  (T.pushUpFrom_extends k s n).trans (T.pushDownFrom_extends _ n)

variable {T}

/-- The marks of a closed state are all that is refuted from them. -/
theorem Closed.refuted (h : T.Closed k s) {y : Nat}
    (hy : Refuted k (T.children s) (T.marked s · = true) y) : T.marked s y = true :=
  hy.least (fun _ hb => hb) (fun p c hp hc => h.1 p (fun hf => hf) hp c hc)
    (fun n hne hk hc => h.2 n (fun hf => hf) hne (covered_iff.2 ⟨hk, hc⟩))

theorem DownClosed.insert (h : T.DownClosed (fun _ => False) s) {s' : σ} {n : Nat}
    (hc : T.children s' = T.children s) (hm : ∀ m, T.marked s' m = (m == n || T.marked s m)) :
    T.DownClosed (· = n) s' := by
  intro y hy hmy c hcy
  rw [hm, Bool.or_eq_true, beq_iff_eq] at hmy ⊢
  rw [hc] at hcy
  exact .inr (h y (fun hf => hf) (hmy.resolve_left hy) c hcy)

theorem UpClosed.insert (h : T.UpClosed k (fun _ => False) s) (hg : T.Grown s) {s' : σ} {n : Nat}
    (hp : T.parent s' = T.parent s) (hc : T.children s' = T.children s)
    (hm : ∀ m, T.marked s' m = (m == n || T.marked s m)) :
    T.UpClosed k (fun y => T.parent s' n = some y) s' := by
  intro y hy hne hcov
  rw [covered_iff, hc] at hcov
  rw [hc] at hne
  rw [hm, Bool.or_eq_true]
  refine .inr (h y (fun hf => hf) hne (covered_iff.2 ⟨hcov.1, fun c hcy => ?_⟩))
  have hmc := hcov.2 c hcy
  rw [hm, Bool.or_eq_true, beq_iff_eq] at hmc
  rcases hmc with rfl | hmc
  · rw [hp] at hy
    exact absurd ((hg.child y c).1 hcy).2 hy
  · exact hmc

/-- One more mark leaves open what stands next to it. -/
theorem Closed.insert (h : T.Closed k s) (hg : T.Grown s) {s' : σ} {n : Nat}
    (hp : T.parent s' = T.parent s) (hc : T.children s' = T.children s)
    (hm : ∀ m, T.marked s' m = (m == n || T.marked s m)) :
    T.DownClosed (· = n) s' ∧ T.UpClosed k (fun y => T.parent s' n = some y) s' :=
  ⟨h.1.insert hc hm, h.2.insert hg hp hc hm⟩

theorem pushUpFrom_sound {n : Nat} (hg : T.Grown s) (hn : n < T.size s)
    (hdown : T.DownClosed E s) :
    T.DownClosed E (T.pushUpFrom k s n) ∧
      ∀ y, T.marked (T.pushUpFrom k s n) y = true →
        Refuted k (T.children s) (T.marked s · = true) y := by
  unfold pushUpFrom
  split
  · exact ⟨hdown, fun y hy => .base hy⟩
  · rename_i p hp
    have hlt := hg.parentLt n p hp
    exact pushUp_sound hg (by omega) (List.ne_nil_of_mem ((hg.child p n).2 ⟨hn, hp⟩)) hdown

/-- Going up leaves no set that holds the marks and is closed upwards. -/
theorem pushUp_within {M : Nat → Prop} {fuel : Nat} {s : σ} {n : Nat}
    (hup : ∀ n, k ≤ (T.children s n).length → (∀ c ∈ T.children s n, M c) → M n)
    (hM : ∀ y, T.marked s y = true → M y) :
    ∀ y, T.marked (T.pushUp k fuel s n) y = true → M y := by
  induction fuel generalizing s n with
  | zero => exact hM
  | succ fuel ih =>
    unfold pushUp
    split
    · exact hM
    · split
      · rename_i hcov
        obtain ⟨hk, hall⟩ := covered_iff.1 hcov
        have hmark : ∀ y, T.marked (T.mark n s) y = true → M y := by
          intro y hy
          rw [T.marked_mark, Bool.or_eq_true, beq_iff_eq] at hy
          rcases hy with rfl | hy
          · exact hup y hk fun c hc => hM c (hall c hc)
          · exact hM y hy
        split
        · exact hmark
        · refine ih (fun m => ?_) hmark
          rw [T.children_mark]
          exact hup m
      · exact hM

theorem pushUpFrom_within {M : Nat → Prop} {s : σ} {n : Nat}
    (hup : ∀ n, k ≤ (T.children s n).length → (∀ c ∈ T.children s n, M c) → M n)
    (hM : ∀ y, T.marked s y = true → M y) :
    ∀ y, T.marked (T.pushUpFrom k s n) y = true → M y := by
  unfold pushUpFrom
  split
  · exact hM
  · exact pushUp_within hup hM

/-- Going down leaves no set that holds the marks and is closed downwards. -/
theorem pushDownFrom_within {M : Nat → Prop} {s : σ} {n : Nat}
    (hdown : ∀ p c, M p → c ∈ T.children s p → M c) (hn : M n)
    (hM : ∀ y, T.marked s y = true → M y) :
    ∀ y, T.marked (T.pushDownFrom s n) y = true → M y := by
  intro y hy
  rcases pushDownFrom_sound hy with hy | ⟨c, hc, hcy⟩
  · exact hM y hy
  · clear hy
    induction hcy with
    | refl => exact hdown n c hn hc
    | tail _ hb ih => exact hdown _ _ ih hb

/-- Going up from the parent of `n`, the one node that may be open, closes the
marks upwards. -/
theorem pushUpFrom_closed {n : Nat} (hg : T.Grown s)
    (hup : T.UpClosed k (fun y => T.parent s n = some y) s) :
    T.UpClosed k (fun _ => False) (T.pushUpFrom k s n) := by
  unfold pushUpFrom
  split
  · rename_i hp
    exact fun y _ => hup y (by simp [hp])
  · rename_i p hp
    refine pushUp_closed hg (Nat.lt_succ_self p) fun y hy => hup y fun he => ?_
    exact hy (Option.some.inj (hp.symm.trans he)).symm

/-- A node is not above one with a smaller number. -/
theorem Grown.below_le (hg : T.Grown s) {a b : Nat} (h : Below (T.children s) a b) : a ≤ b := by
  induction h with
  | refl => exact Nat.le_refl _
  | tail _ hc ih => exact Nat.le_trans ih (Nat.le_of_lt (hg.parentLt _ _ ((hg.child _ _).1 hc).2))

/-- From a state whose marks are closed downwards but for the marked node `n`,
spreading the mark of `n` closes them downwards and marks refuted nodes only. -/
theorem spread_sound {n : Nat} (hg : T.Grown s) (hn : n < T.size s) (hm : T.marked s n = true)
    (hdown : T.DownClosed (· = n) s) :
    T.DownClosed (fun _ => False) (T.spread k s n) ∧
      ∀ y, T.marked (T.spread k s n) y = true →
        Refuted k (T.children s) (T.marked s · = true) y := by
  obtain ⟨hdown₁, hsound₁⟩ := pushUpFrom_sound (k := k) hg hn hdown
  have he₁ := T.pushUpFrom_extends k s n
  have he₂ := T.pushDownFrom_extends (T.pushUpFrom k s n) n
  unfold spread
  generalize T.pushUpFrom k s n = s₁ at *
  have hg₁ := he₁.grown hg
  have hchild : ∀ c ∈ T.children s₁ n, c < T.size s₁ ∧ T.size s₁ ≤ c + T.size s₁ :=
    fun c hc => ⟨((hg₁.child n c).1 hc).1, Nat.le_add_left _ _⟩
  obtain ⟨hdown₂, hall⟩ := pushDownAll_closed_of (fun _ _ => pushDown_closed) hg₁ hchild hdown₁
  refine ⟨fun y _ hy c hc => ?_, fun y hy => ?_⟩
  · by_cases hyn : y = n
    · subst hyn
      exact hall c (he₂.children ▸ hc)
    · exact hdown₂ y hyn hy c hc
  · rcases pushDownFrom_sound hy with hy | ⟨c, hc, hcy⟩
    · exact hsound₁ y hy
    · rw [he₁.children] at hc hcy
      exact refuted_of_below (.down (.base hm) hc) hcy

/-- **Spreading a mark.** When the marks are closed but for the marked node
`n`, spreading its mark closes them, with just the refuted nodes marked. -/
theorem spread_spec {n : Nat} (hg : T.Grown s) (hn : n < T.size s) (hm : T.marked s n = true)
    (hdown : T.DownClosed (· = n) s) (hup : T.UpClosed k (fun y => T.parent s n = some y) s) :
    T.Closed k (T.spread k s n) ∧
      ∀ y, T.marked (T.spread k s n) y = true ↔
        Refuted k (T.children s) (T.marked s · = true) y := by
  obtain ⟨hclosed, hsound⟩ := spread_sound (k := k) hg hn hm hdown
  have hext := T.spread_extends k s n
  have hup₁ := pushUpFrom_closed hg hup
  have hfin : T.Closed k (T.spread k s n) := by
    refine ⟨hclosed, fun y _ hne hcov => ?_⟩
    have he₁ := T.pushUpFrom_extends k s n
    have he₂ := T.pushDownFrom_extends (T.pushUpFrom k s n) n
    have hmn : T.marked (T.spread k s n) n = true := hext.marked n hm
    unfold spread at *
    generalize T.pushUpFrom k s n = s₁ at *
    have hg₁ := he₁.grown hg
    rw [covered_iff, he₂.children] at hcov
    rw [he₂.children] at hne
    by_cases hold : ∀ c ∈ T.children s₁ y, T.marked s₁ c = true
    · exact he₂.marked y (hup₁ y (fun hf => hf) hne (covered_iff.2 ⟨hcov.1, hold⟩))
    · -- a child of `y` got its mark on the way down, so `y` is `n` or below it
      simp only [not_forall] at hold
      obtain ⟨c, hc, hmc⟩ := hold
      rcases pushDownFrom_sound (hcov.2 c hc) with h | ⟨d, hd, hdc⟩
      · exact absurd h hmc
      · have hpc := ((hg₁.child y c).1 hc).2
        rcases Relation.ReflTransGen.cases_tail hdc with heq | ⟨z, hdz, hz⟩
        · have hpd := ((hg₁.child n d).1 hd).2
          rw [heq] at hpc
          rw [Option.some.inj (hpc.symm.trans hpd)]
          exact hmn
        · have hpz := ((hg₁.child z c).1 hz).2
          rw [Option.some.inj (hpc.symm.trans hpz)]
          clear hz hpz
          induction hdz with
          | refl => exact hclosed n (fun hf => hf) hmn d (he₂.children.symm ▸ hd)
          | tail _ hw ih => exact hclosed _ (fun hf => hf) ih _ (he₂.children.symm ▸ hw)
  refine ⟨hfin, fun y => ⟨hsound y, fun hy => hfin.refuted ?_⟩⟩
  rw [hext.children]
  exact hy.mono hext.marked

/-! ## A tree with more in its state -/

/-- `f` forgets a part of the state that the tree does not depend on. -/
structure Forgets {τ : Type} (T : MarkedTree σ) (U : MarkedTree τ) (f : σ → τ) : Prop where
  size : ∀ s, U.size (f s) = T.size s
  parent : ∀ s, U.parent (f s) = T.parent s
  children : ∀ s, U.children (f s) = T.children s
  marked : ∀ s, U.marked (f s) = T.marked s
  mark : ∀ n s, f (T.mark n s) = U.mark n (f s)

section Forgets

variable {τ : Type} {U : MarkedTree τ} {f : σ → τ} (h : Forgets T U f)
include h

theorem Forgets.pushDown (fuel : Nat) (s : σ) (n : Nat) :
    f (T.pushDown fuel s n) = U.pushDown fuel (f s) n := by
  induction fuel generalizing s n with
  | zero => rfl
  | succ fuel ih =>
    unfold MarkedTree.pushDown
    rw [h.marked, h.children, ← h.mark]
    split
    · rfl
    · generalize T.mark n s = s'
      induction T.children s n generalizing s' with
      | nil => rfl
      | cons c cs ihc => rw [List.foldl_cons, List.foldl_cons, ihc, ih]

theorem Forgets.pushDownAll (fuel : Nat) (s : σ) (cs : List Nat) :
    f (T.pushDownAll fuel s cs) = U.pushDownAll fuel (f s) cs := by
  unfold MarkedTree.pushDownAll
  induction cs generalizing s with
  | nil => rfl
  | cons c cs ih => rw [List.foldl_cons, List.foldl_cons, ih, h.pushDown]

theorem Forgets.covered (k : Nat) (s : σ) (n : Nat) : U.covered k (f s) n = T.covered k s n := by
  unfold MarkedTree.covered
  rw [h.children, h.marked]

theorem Forgets.pushUp (k fuel : Nat) (s : σ) (n : Nat) :
    f (T.pushUp k fuel s n) = U.pushUp k fuel (f s) n := by
  induction fuel generalizing s n with
  | zero => rfl
  | succ fuel ih =>
    unfold MarkedTree.pushUp
    rw [h.marked, h.covered, h.parent, ← h.mark]
    split
    · rfl
    · split
      · split
        · rfl
        · exact ih _ _
      · rfl

theorem Forgets.spread (k : Nat) (s : σ) (n : Nat) :
    f (T.spread k s n) = U.spread k (f s) n := by
  have hup : f (T.pushUpFrom k s n) = U.pushUpFrom k (f s) n := by
    unfold MarkedTree.pushUpFrom
    rw [h.parent]
    split
    · rfl
    · exact h.pushUp k _ s _
  unfold MarkedTree.spread MarkedTree.pushDownFrom
  rw [h.pushDownAll, hup, ← hup, h.size, h.children]

end Forgets

end MarkedTree

end AriParti.Core
