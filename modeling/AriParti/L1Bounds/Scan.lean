import Mathlib.Data.List.Perm.Subperm
import AriParti.L1Bounds.Dominated

/-!
# What the domination scan finds

`test_dominated` makes one pass and compares by kind, then by variable, the
order of an earlier `lit_lt` (subpaving_t.h:599-633). The clauses it is given
were sorted by the present `lit_lt`, by variable first. In a clause with an
arithmetic variable made before a Boolean one the pass stops at the first
literal that is greater by kind.

## Results

* `simplify_inOrder`: the order of the literals of a simplified clause.
* `testDominated_iff`: of a pair of clauses, what the scan comes to.
* `testDominated_of_covered`: the scan finds everything in a clause that is in
  the order of the scan as well, and has no two different Boolean literals or
  equations on one variable; `scanOrder_iff`: in no other clause does it find
  everything.
* `testDominated_complete`: when it finds that a clause is redundant beside
  another, and when no clause is kept that is redundant beside one before it.
* `testDominated_misses`: `3 ≤ x₀ ∨ b₁ ∨ b₂` against `b₁ ∨ b₂`.
-/
namespace AriParti.L1

/-- `m` follows from `s`, as the scan tests it. -/
def Lit.Follows (m s : Lit) : Prop := m.x = s.x ∧ litMatches m s = true

/-- Each literal of `shorter` has one of `longer` that follows from it, no two
the same one. -/
def Covered (longer shorter : List Lit) : Prop :=
  ∃ f : Fin shorter.length → Fin longer.length, Function.Injective f ∧
    ∀ i, (longer.get (f i)).Follows (shorter.get i)

/-- `Covered` in order, and with nothing in the way: between the literals of two
neighbours stands none of a greater kind than the second, nor another that it
could do with. -/
def MetInOrder (longer shorter : List Lit) : Prop :=
  ∃ f : Fin shorter.length → Fin longer.length, StrictMono f ∧
    (∀ i, (longer.get (f i)).Follows (shorter.get i)) ∧
    ∀ i j, j < f i → (∀ k < i, f k < j) →
      (longer.get j).type ≤ (shorter.get i).type ∧ ¬ (longer.get j).Follows (shorter.get i)

/-- `MetInOrder`, literal by literal. -/
inductive Orderly : List Lit → List Lit → Prop where
  | nil (ls : List Lit) : Orderly ls []
  | cons {pre ls ss : List Lit} {l s : Lit} : l.Follows s →
      (∀ p ∈ pre, p.type ≤ s.type ∧ ¬ p.Follows s) → Orderly ls ss →
      Orderly (pre ++ l :: ls) (s :: ss)

/-- The place of a literal among those of its variable. -/
def Lit.place : Lit → Nat
  | bool _ _ => 0
  | eq _ _ _ => 1
  | ineq _ _ true _ => 2
  | ineq _ _ false _ => 3

/-- By variable; then Boolean literals, equations, the lower bound, the upper
bound. -/
def Lit.Precedes (a b : Lit) : Prop :=
  a.x < b.x ∨ a.x = b.x ∧ (a.place < b.place ∨ a.place = b.place ∧ a.place < 2)

/-- The order in which `simplify_ineqs_in_clause` writes a clause. -/
def InOrder (c : List Lit) : Prop := c.Pairwise Lit.Precedes

/-- By kind, then by variable. -/
def Lit.ScanLe (a b : Lit) : Prop := a.type < b.type ∨ a.type = b.type ∧ a.x ≤ b.x

/-- What the scan takes for granted of two literals of a clause. -/
def Lit.Scans (a b : Lit) : Prop :=
  a.ScanLe b ∧ (a.type = b.type → a.x = b.x → a.isIneqLit = false → a = b)

/-- In the order of the scan, and with no two different Boolean literals or
equations on one variable. -/
def ScanOrder (c : List Lit) : Prop := c.Pairwise Lit.Scans

/-! ## Literals -/

namespace Lit

variable {a b c m s : Lit}

theorem place_lt_two : a.place < 2 ↔ a.isIneqLit = false := by
  cases a with
  | ineq x k lower isOpen => cases lower <;> simp [place, isIneqLit]
  | _ => simp [place, isIneqLit]

theorem type_le_of_place (h : a.place ≤ b.place) : a.type ≤ b.type := by
  cases a with
  | ineq x k lower isOpen =>
    cases b with
    | ineq y k' lower' isOpen' => exact Nat.le_refl 2
    | _ => cases lower <;> simp [place] at h
  | _ =>
    cases b with
    | ineq y k' lower' isOpen' => simp [type]
    | _ => simp_all [place, type]

theorem ScanLe.trans (h₁ : a.ScanLe b) (h₂ : b.ScanLe c) : a.ScanLe c := by
  unfold ScanLe at *
  omega

theorem Scans.trans (h₁ : a.Scans b) (h₂ : b.Scans c) : a.Scans c := by
  refine ⟨h₁.1.trans h₂.1, fun ht hx hi => ?_⟩
  -- `b` has the key of both
  have hb : a.type = b.type ∧ a.x = b.x := by
    have h1 := h₁.1
    have h2 := h₂.1
    unfold ScanLe at h1 h2
    omega
  have hab := h₁.2 hb.1 hb.2 hi
  rw [← hab] at h₂
  exact h₂.2 ht hx hi

theorem Precedes.scanLe (h : a.Precedes b) (hx : a.x = b.x) : a.ScanLe b := by
  have hp : a.place ≤ b.place := by
    unfold Precedes at h
    omega
  have := type_le_of_place hp
  unfold ScanLe
  omega

theorem Follows.type_eq (h : m.Follows s) : m.type = s.type := by
  have h := h.2
  cases m <;> cases s <;> first | rfl | cases h

theorem Follows.place_eq (h : m.Follows s) (hi : m.isIneqLit = true) : m.place = s.place := by
  have h := h.2
  cases m with
  | bool y neg => cases hi
  | eq y k neg => cases hi
  | ineq y k lower isOpen =>
    cases s with
    | bool x neg => cases h
    | eq x k' neg => cases h
    | ineq x k' lower' isOpen' =>
      simp only [litMatches, Bool.and_eq_true, beq_iff_eq] at h
      rw [h.1]
      cases lower' <;> rfl

/-- A Boolean literal or equation follows only from itself. -/
theorem Follows.eq (h : m.Follows s) (hi : m.isIneqLit = false) : m = s := by
  obtain ⟨hx, h⟩ := h
  cases m with
  | ineq y k lower isOpen => cases hi
  | bool y neg =>
    cases s with
    | bool x neg' =>
      have hx : y = x := hx
      have h : neg = neg' := beq_iff_eq.1 h
      rw [hx, h]
    | _ => cases h
  | eq y k neg =>
    cases s with
    | eq x k' neg' =>
      simp only [litMatches, Bool.and_eq_true, beq_iff_eq] at h
      have hx : y = x := hx
      rw [hx, h.1, h.2]
    | _ => cases h

theorem Follows.refl (s : Lit) : s.Follows s := by
  refine ⟨rfl, ?_⟩
  cases s with
  | ineq x k lower isOpen => simp [litMatches, ineqLitCmp]
  | _ => simp [litMatches]

theorem isIneqLit_of_type (h : a.type = b.type) : a.isIneqLit = b.isIneqLit := by
  cases a <;> cases b <;> first | rfl | cases h

/-- Different literals that one literal gives are inequalities of one side. -/
theorem Follows.place_of_ne (h₁ : a.Follows s) (h₂ : b.Follows s) (hne : a ≠ b) :
    a.isIneqLit = true ∧ a.place = b.place := by
  have hi : a.isIneqLit = b.isIneqLit := isIneqLit_of_type (h₁.type_eq.trans h₂.type_eq.symm)
  cases ha : a.isIneqLit with
  | false => exact absurd ((h₁.eq ha).trans (h₂.eq (hi.symm.trans ha)).symm) hne
  | true => exact ⟨rfl, (h₁.place_eq ha).trans (h₂.place_eq (hi.symm.trans ha)).symm⟩

/-- Two literals of one place on one variable are Boolean or equations. -/
theorem Precedes.isIneqLit (h : a.Precedes b) (hx : a.x = b.x) (hp : b.place ≤ a.place) :
    a.isIneqLit = false := by
  apply place_lt_two.1
  unfold Precedes at h
  omega

end Lit

/-! ## One pass -/

section Pass

variable {l s : Lit} {ls ss ms : List Lit}

theorem testDominated_take (h : l.Follows s) :
    testDominated (l :: ls) (s :: ss) = testDominated ls ss := by
  have ht := h.type_eq
  have hx := h.1
  rw [testDominated, if_neg (by omega), if_neg (by omega), if_neg (by omega), if_neg (by omega),
    if_pos h.2]

theorem testDominated_skip (hle : l.ScanLe s) (h : ¬ l.Follows s) :
    testDominated (l :: ls) (s :: ss) = testDominated ls (s :: ss) := by
  unfold Lit.ScanLe at hle
  rw [testDominated]
  split
  · rfl
  · rw [if_neg (by omega)]
    split
    · rfl
    · have hx : l.x = s.x := by omega
      rw [if_neg (by omega), if_neg fun hm => h ⟨hx, hm⟩]

theorem testDominated_stop (hle : ¬ l.ScanLe s) : testDominated (l :: ls) (s :: ss) = false := by
  unfold Lit.ScanLe at hle
  rw [testDominated, if_neg (by omega)]
  split
  · rfl
  · rw [if_neg (by omega), if_pos (by omega)]

/-- The pass takes the first literal that follows, if it comes to it only over
literals that are not greater. -/
theorem testDominated_cons_iff : testDominated ls (s :: ss) = true ↔
    ∃ pre l post, ls = pre ++ l :: post ∧ l.Follows s ∧
      (∀ p ∈ pre, p.ScanLe s ∧ ¬ p.Follows s) ∧ testDominated post ss = true := by
  induction ls with
  | nil =>
    refine iff_of_false Bool.false_ne_true ?_
    rintro ⟨pre, l, post, he, -⟩
    exact absurd he.symm (by simp)
  | cons l ls ih =>
    by_cases hf : l.Follows s
    · rw [testDominated_take hf]
      constructor
      · exact fun h => ⟨[], l, ls, rfl, hf, nofun, h⟩
      · rintro ⟨pre, l', post, he, hl', hpre, h⟩
        cases pre with
        | nil =>
          cases he
          exact h
        | cons p pre =>
          cases he
          exact absurd hf (hpre l List.mem_cons_self).2
    · by_cases hle : l.ScanLe s
      · rw [testDominated_skip hle hf, ih]
        constructor
        · rintro ⟨pre, l', post, rfl, hl', hpre, h⟩
          refine ⟨l :: pre, l', post, rfl, hl', fun p hp => ?_, h⟩
          rcases List.mem_cons.1 hp with rfl | hp
          · exact ⟨hle, hf⟩
          · exact hpre p hp
        · rintro ⟨pre, l', post, he, hl', hpre, h⟩
          cases pre with
          | nil =>
            cases he
            exact absurd hl' hf
          | cons p pre =>
            cases he
            exact ⟨pre, l', post, rfl, hl', fun p hp => hpre p (List.mem_cons_of_mem _ hp), h⟩
      · rw [testDominated_stop hle]
        refine iff_of_false Bool.false_ne_true ?_
        rintro ⟨pre, l', post, he, hl', hpre, -⟩
        cases pre with
        | nil =>
          cases he
          exact hf hl'
        | cons p pre =>
          cases he
          exact hle (hpre l List.mem_cons_self).1

/-- What the pass finds: the literals it took, in their order. -/
theorem testDominated_matches (h : testDominated ls ss = true) :
    ∃ ms, ms.Sublist ls ∧ List.Forall₂ Lit.Follows ms ss := by
  induction ss generalizing ls with
  | nil => exact ⟨[], List.nil_sublist _, .nil⟩
  | cons s ss ih =>
    obtain ⟨pre, l, post, rfl, hf, -, h⟩ := testDominated_cons_iff.1 h
    obtain ⟨ms, hsub, hms⟩ := ih h
    exact ⟨l :: ms, (hsub.cons_cons l).trans (List.sublist_append_right pre _), .cons hf hms⟩

/-! ## Literals that follow, one by one -/

theorem exists_of_mem_forall₂ (h : List.Forall₂ Lit.Follows ms ss) (hl : l ∈ ms) :
    ∃ s ∈ ss, l.Follows s := by
  induction h with
  | nil => cases hl
  | cons hf _ ih =>
    rcases List.mem_cons.1 hl with rfl | hl
    · exact ⟨_, List.mem_cons_self, hf⟩
    · obtain ⟨s, hs, hf⟩ := ih hl
      exact ⟨s, List.mem_cons_of_mem _ hs, hf⟩

theorem Covered.matches (h : Covered ls ss) :
    ∃ ms, ms.Subperm ls ∧ List.Forall₂ Lit.Follows ms ss := by
  obtain ⟨f, hf, hfol⟩ := h
  refine ⟨((List.finRange ss.length).map f).map ls.get, ?_, ?_⟩
  · have hsub : ((List.finRange ss.length).map f).Subperm (List.finRange ls.length) :=
      ((List.nodup_finRange _).map hf).subperm fun i _ => List.mem_finRange i
    obtain ⟨is, hperm, his⟩ := hsub
    refine ⟨is.map ls.get, hperm.map _, ?_⟩
    have := his.map ls.get
    rwa [List.map_get_finRange] at this
  · rw [List.forall₂_iff_get]
    refine ⟨by simp, fun i h₁ h₂ => ?_⟩
    simpa using hfol ⟨i, h₂⟩

theorem covered_of_matches (hsub : ms.Subperm ls) (h : List.Forall₂ Lit.Follows ms ss) :
    Covered ls ss := by
  have hlen : ss.length = ms.length := h.length_eq.symm
  refine ⟨fun i => hsub.idxInj (i.cast hlen), ?_, fun i => ?_⟩
  · intro i j hij
    have := hsub.idxInj_injective hij
    exact Fin.cast_injective hlen this
  · have hget := (List.forall₂_iff_get.1 h).2 i (by omega) i.2
    have heq : ls.get (hsub.idxInj (i.cast hlen)) = ms.get ⟨i, by omega⟩ :=
      hsub.getElem_idxInj_eq_getElem
    rw [heq]
    exact hget

/-! ## What the pass finds -/

theorem InOrder.head (h : InOrder (l :: ls)) {m : Lit} (hm : m ∈ ls) : l.Precedes m :=
  (List.pairwise_cons.1 h).1 m hm

theorem InOrder.tail (h : InOrder (l :: ls)) : InOrder ls := (List.pairwise_cons.1 h).2

theorem ScanOrder.head (h : ScanOrder (l :: ls)) {m : Lit} (hm : m ∈ ls) : l.Scans m :=
  (List.pairwise_cons.1 h).1 m hm

theorem ScanOrder.tail (h : ScanOrder (l :: ls)) : ScanOrder ls := (List.pairwise_cons.1 h).2

/-- The literal the pass took is not needed again. -/
theorem subperm_of_take {m : Lit} (hl : InOrder (l :: ls)) (hsub : (m :: ms).Subperm (l :: ls))
    (hm : m.Follows s) (hf : l.Follows s) : ms.Subperm ls := by
  by_cases hlm : l = m
  · rw [← hlm] at hsub
    exact (List.subperm_cons l).1 hsub
  · exfalso
    have hm' : m ∈ ls := by
      rcases List.mem_cons.1 (hsub.subset List.mem_cons_self) with rfl | h
      · exact absurd rfl hlm
      · exact h
    obtain ⟨hi, hp⟩ := hf.place_of_ne hm hlm
    have := (hl.head hm').isIneqLit (hf.1.trans hm.1.symm) hp.ge
    rw [hi] at this
    cases this

/-- The literal the pass skips is not needed later. -/
theorem not_mem_of_skip {m : Lit} (hl : InOrder (l :: ls)) (hscan : ScanOrder (l :: ls))
    (hs : InOrder (s :: ss)) (hm : m ∈ ls) (hf : m.Follows s) (hlm : l ≠ m)
    (hms : List.Forall₂ Lit.Follows ms ss) : l ∉ ms := by
  intro hmem
  obtain ⟨s', hs', hf'⟩ := exists_of_mem_forall₂ hms hmem
  have hp := hl.head hm
  have hps := hs.head hs'
  have hle := (hscan.head hm).1
  have hx : l.x = m.x := by
    have h₁ := hf.1
    have h₂ := hf'.1
    unfold Lit.Precedes at hp hps
    omega
  have hxs : s.x = s'.x := hf.1.symm.trans (hx.symm.trans hf'.1)
  have ht : l.type = m.type := by
    have h₁ := hf.type_eq
    have h₂ := hf'.type_eq
    have h₃ := hps.scanLe hxs
    unfold Lit.ScanLe at hle h₃
    omega
  cases hi : l.isIneqLit with
  | false => exact hlm ((hscan.head hm).2 ht hx hi)
  | true =>
    -- the sides agree as well, and a clause has one bound on either side
    have him : m.isIneqLit = true := (Lit.isIneqLit_of_type ht).symm.trans hi
    have h₁ := hf.place_eq him
    have h₂ := hf'.place_eq hi
    have hle : m.place ≤ l.place := by
      unfold Lit.Precedes at hps
      omega
    have := hp.isIneqLit hx hle
    rw [hi] at this
    cases this

theorem testDominated_of_matches (hl : InOrder ls) (hscan : ScanOrder ls) (hs : InOrder ss)
    (hsub : ms.Subperm ls) (hms : List.Forall₂ Lit.Follows ms ss) : testDominated ls ss = true := by
  induction ls generalizing ms ss with
  | nil =>
    cases List.subperm_nil.1 hsub
    cases hms
    rfl
  | cons l ls ih =>
    cases hms with
    | nil => rfl
    | cons hf hms =>
      rename_i m s ms ss
      by_cases hfl : l.Follows s
      · rw [testDominated_take hfl]
        exact ih hl.tail hscan.tail hs.tail (subperm_of_take hl hsub hf hfl) hms
      · have hlm : l ≠ m := by
          rintro rfl
          exact hfl hf
        have hm : m ∈ ls := by
          rcases List.mem_cons.1 (hsub.subset List.mem_cons_self) with rfl | h
          · exact absurd rfl hlm
          · exact h
        have hle : l.ScanLe s := by
          have h₁ := (hscan.head hm).1
          have h₂ := hf.1
          have h₃ := hf.type_eq
          unfold Lit.ScanLe at *
          omega
        rw [testDominated_skip hle hfl]
        refine ih hl.tail hscan.tail hs ?_ (.cons hf hms)
        have hnot : l ∉ m :: ms := by
          intro hmem
          rcases List.mem_cons.1 hmem with h | h
          · exact hlm h
          · exact not_mem_of_skip hl hscan hs hm hf hlm hms h
        have := hsub.erase l
        rwa [List.erase_of_not_mem hnot, List.erase_cons_head] at this

/-- **The scan finds everything** in a clause that is in its order. -/
theorem testDominated_of_covered (hl : InOrder ls) (hscan : ScanOrder ls) (hs : InOrder ss)
    (h : Covered ls ss) : testDominated ls ss = true := by
  obtain ⟨ms, hsub, hms⟩ := h.matches
  exact testDominated_of_matches hl hscan hs hsub hms

theorem MetInOrder.of_orderly (h : Orderly ls ss) : MetInOrder ls ss := by
  induction h with
  | nil ls => exact ⟨nofun, nofun, nofun, nofun⟩
  | @cons pre ls ss l s hf hpre _ ih =>
    obtain ⟨f, hmono, hfol, hway⟩ := ih
    have hlen : (pre ++ l :: ls).length = pre.length + 1 + ls.length := by
      simp only [List.length_append, List.length_cons]
      omega
    -- the first literal stands behind `pre`, the others behind it
    let g : Fin (ss.length + 1) → Fin (pre ++ l :: ls).length :=
      Fin.cases ⟨pre.length, by omega⟩ fun i => ⟨pre.length + 1 + f i, by omega⟩
    have hzero : (g 0).val = pre.length := rfl
    have hsucc (i : Fin ss.length) : (g i.succ).val = pre.length + 1 + f i := rfl
    have hget (i : Fin (pre ++ l :: ls).length) (k : Fin ls.length)
        (h : i.val = pre.length + 1 + k) : (pre ++ l :: ls).get i = ls.get k := by
      simp only [List.get_eq_getElem, h]
      rw [List.getElem_append_right (by omega)]
      simp [Nat.add_assoc, Nat.add_comm 1]
    refine ⟨g, ?_, ?_, ?_⟩
    · intro i j hij
      induction i using Fin.cases with
      | zero =>
        induction j using Fin.cases with
        | zero => exact absurd hij (lt_irrefl _)
        | succ j =>
          rw [Fin.lt_def, hzero, hsucc]
          omega
      | succ i =>
        induction j using Fin.cases with
        | zero => exact absurd hij (Fin.not_lt_zero _)
        | succ j =>
          have := hmono (Fin.succ_lt_succ_iff.1 hij)
          rw [Fin.lt_def, hsucc, hsucc]
          omega
    · intro i
      induction i using Fin.cases with
      | zero => simpa [g] using hf
      | succ i =>
        rw [hget _ _ (hsucc i)]
        exact hfol i
    · intro i j hji hk
      induction i using Fin.cases with
      | zero =>
        have hj : j.val < pre.length := hji
        have hmem : (pre ++ l :: ls).get j ∈ pre := by
          rw [List.get_eq_getElem, List.getElem_append_left hj]
          exact List.getElem_mem hj
        exact hpre _ hmem
      | succ i =>
        have h0 : pre.length < j.val := hk 0 (Fin.succ_pos i)
        have hj : j.val < pre.length + 1 + f i := hji
        have hlt : j.val - (pre.length + 1) < ls.length := by omega
        rw [hget j ⟨j.val - (pre.length + 1), hlt⟩ (by simp only; omega)]
        refine hway i _ (Fin.lt_def.2 (by simp only; omega)) fun k hki => ?_
        have : pre.length + 1 + f k < j.val := hk k.succ (Fin.succ_lt_succ_iff.2 hki)
        exact Fin.lt_def.2 (by simp only; omega)

theorem MetInOrder.orderly (h : MetInOrder ls ss) : Orderly ls ss := by
  induction ss generalizing ls with
  | nil => exact .nil ls
  | cons s ss ih =>
    obtain ⟨f, hmono, hfol, hway⟩ := h
    have hp := (f 0).isLt
    have hls : ls = ls.take (f 0) ++ ls.get (f 0) :: ls.drop (f 0 + 1) := by simp
    have hlt (i : Fin ss.length) : (f 0).val < f i.succ := hmono (Fin.succ_pos i)
    have hdrop : (ls.drop (f 0 + 1)).length = ls.length - (f 0 + 1) := List.length_drop
    rw [hls]
    refine .cons (hfol 0) (fun p hp => ?_) (ih ⟨fun i => ⟨f i.succ - (f 0 + 1), ?_⟩, ?_, ?_, ?_⟩)
    · obtain ⟨j, hj, rfl⟩ := List.getElem_of_mem hp
      rw [List.length_take] at hj
      rw [List.getElem_take]
      exact hway 0 ⟨j, by omega⟩ (Fin.lt_def.2 (by simp only; omega))
        fun k hk => absurd hk (Fin.not_lt_zero k)
    · have := (f i.succ).isLt
      have := hlt i
      omega
    · intro i j hij
      have := hmono (Fin.succ_lt_succ_iff.2 hij)
      have := hlt i
      rw [Fin.lt_def] at *
      simp only
      omega
    · intro i
      have hi := hfol i.succ
      have heq : (f 0).val + 1 + (f i.succ - (f 0 + 1)) = f i.succ := by
        have := hlt i
        omega
      simpa [heq] using hi
    · intro i j hji hk
      have hj := j.isLt
      rw [Fin.lt_def] at hji
      simp only at hji
      have hw := hway i.succ ⟨f 0 + 1 + j, by omega⟩ (Fin.lt_def.2 (by simp only; omega)) ?_
      · simpa using hw
      · intro k hki
        induction k using Fin.cases with
        | zero => exact Fin.lt_def.2 (by simp only; omega)
        | succ k =>
          have := hk k (Fin.succ_lt_succ_iff.1 hki)
          have hlk := hlt k
          rw [Fin.lt_def] at this
          simp only at this
          exact Fin.lt_def.2 (by simp only; omega)

theorem testDominated_iff_orderly (hl : InOrder ls) :
    testDominated ls ss = true ↔ Orderly ls ss := by
  induction ss generalizing ls with
  | nil =>
    refine iff_of_true ?_ (.nil ls)
    cases ls <;> rfl
  | cons s ss ih =>
    constructor
    · intro h
      obtain ⟨pre, l, post, rfl, hf, hpre, h⟩ := testDominated_cons_iff.1 h
      have htail := (List.pairwise_cons.1 (List.pairwise_append.1 hl).2.1).2
      refine .cons hf (fun p hp => ⟨?_, (hpre p hp).2⟩) ((ih htail).1 h)
      have := (hpre p hp).1
      unfold Lit.ScanLe at this
      omega
    · intro h
      cases h with
      | @cons pre ls _ l _ hf hpre h =>
        have hrest := (List.pairwise_append.1 hl).2.1
        have htail := (List.pairwise_cons.1 hrest).2
        refine testDominated_cons_iff.2
          ⟨pre, l, ls, rfl, hf, fun p hp => ⟨?_, (hpre p hp).2⟩, (ih htail).2 h⟩
        -- the literals passed over are before it by variable
        have hp' := (List.pairwise_append.1 hl).2.2 p hp l List.mem_cons_self
        have hx := hf.1
        have ht := (hpre p hp).1
        unfold Lit.Precedes at hp'
        unfold Lit.ScanLe
        omega

/-- **What the scan comes to**, for a clause in order. -/
theorem testDominated_iff (hl : InOrder ls) : testDominated ls ss = true ↔ MetInOrder ls ss :=
  (testDominated_iff_orderly hl).trans ⟨MetInOrder.of_orderly, MetInOrder.orderly⟩

/-! ## What the pass misses -/

/-- The pass takes a single literal only where nothing before it is greater. -/
theorem testDominated_singleton_of_not_scanLe {a : Lit} (hl : InOrder ls) (ha : a ∈ ls)
    (hp : a.Precedes s) (hle : ¬ a.ScanLe s) : testDominated ls [s] = false := by
  cases h : testDominated ls [s] with
  | false => rfl
  | true =>
    exfalso
    obtain ⟨pre, l, post, rfl, hf, hpre, -⟩ := testDominated_cons_iff.1 h
    apply hle
    rcases List.mem_append.1 ha with ha | ha
    · exact (hpre a ha).1
    · have hkey : l.ScanLe s := by
        have h₁ := hf.1
        have h₂ := hf.type_eq
        unfold Lit.ScanLe
        omega
      rcases List.mem_cons.1 ha with rfl | ha
      · exact hkey
      · have hla := (List.pairwise_cons.1 (List.pairwise_append.1 hl).2.1).1 a ha
        have hx : a.x = s.x := by
          have := hf.1
          unfold Lit.Precedes at hp hla
          omega
        exact hp.scanLe hx

theorem InOrder.swap {pre post : List Lit} {a b : Lit} (h : InOrder (pre ++ a :: b :: post))
    (hba : b.Precedes a) : InOrder (pre ++ b :: a :: post) := by
  unfold InOrder at *
  simp only [List.pairwise_append, List.pairwise_cons, List.mem_cons] at h ⊢
  grind

/-- Where two literals that stand next to each other are not in the order of
the scan, it misses a clause. -/
theorem testDominated_misses_of_not_scans {pre post : List Lit} {a b : Lit}
    (hl : InOrder (pre ++ a :: b :: post)) (h : ¬ a.Scans b) :
    ∃ shorter, InOrder shorter ∧ shorter.length ≤ (pre ++ a :: b :: post).length ∧
      Covered (pre ++ a :: b :: post) shorter ∧
      testDominated (pre ++ a :: b :: post) shorter = false := by
  have hab : a.Precedes b :=
    (List.pairwise_cons.1 (List.pairwise_append.1 hl).2.1).1 b List.mem_cons_self
  by_cases hle : a.ScanLe b
  · -- two Boolean literals or equations on one variable: exchange them
    have hk : ¬ (a.type = b.type → a.x = b.x → a.isIneqLit = false → a = b) := fun hk => h ⟨hle, hk⟩
    push Not at hk
    obtain ⟨ht, hx, hi, hne⟩ := hk
    have hba : b.Precedes a := by
      refine .inr ⟨hx.symm, .inr ?_⟩
      cases a <;> cases b <;> simp_all [Lit.place, Lit.type, Lit.isIneqLit]
    have hperm : (pre ++ b :: a :: post).Perm (pre ++ a :: b :: post) :=
      (List.Perm.swap a b post).append_left pre
    refine ⟨pre ++ b :: a :: post, hl.swap hba, hperm.length_eq.le,
      covered_of_matches hperm.subperm (List.forall₂_same.2 fun s _ => Lit.Follows.refl s), ?_⟩
    cases htd : testDominated (pre ++ a :: b :: post) (pre ++ b :: a :: post) with
    | false => rfl
    | true =>
      exfalso
      obtain ⟨ms, hsub, hms⟩ := testDominated_matches htd
      have := hsub.eq_of_length (hms.length_eq.trans hperm.length_eq)
      subst this
      have := (List.forall₂_iff_get.1 hms).2 pre.length (by simp) (by simp)
      have hf : a.Follows b := by simpa using this
      exact hne (hf.eq hi)
  · refine ⟨[b], List.pairwise_singleton _ b, by simp; omega, ?_, ?_⟩
    · have hsub : [b].Subperm (pre ++ a :: b :: post) := List.singleton_subperm_iff.2 (by simp)
      exact covered_of_matches hsub (.cons (Lit.Follows.refl b) .nil)
    · exact testDominated_singleton_of_not_scanLe hl (by simp) hab hle

/-- A list about two neighbours. -/
theorem eq_take_pair_drop (ls : List Lit) {i : Nat} (hi : i + 1 < ls.length) :
    ls = ls.take i ++ ls[i] :: ls[i + 1] :: ls.drop (i + 2) := by simp

theorem scanOrder_iff {c : List Lit} (hl : InOrder c) :
    (∀ shorter, InOrder shorter → shorter.length ≤ c.length → Covered c shorter →
      testDominated c shorter = true) ↔ ScanOrder c := by
  constructor
  · intro h
    have : IsTrans Lit Lit.Scans := ⟨fun _ _ _ => Lit.Scans.trans⟩
    show c.Pairwise Lit.Scans
    rw [← List.isChain_iff_pairwise]
    by_contra hc
    obtain ⟨i, hi, hns⟩ := List.exists_not_getElem_of_not_isChain hc
    rw [eq_take_pair_drop c hi] at hl h
    obtain ⟨shorter, hs, hlen, hcov, hmiss⟩ := testDominated_misses_of_not_scans hl hns
    rw [h shorter hs hlen hcov] at hmiss
    cases hmiss
  · intro hscan shorter hs _ hcov
    exact testDominated_of_covered hl hscan hs hcov

end Pass

/-! ## The order of a simplified clause -/

namespace Simplifier

variable {conj : Bool} {st st' : Simplifier} {ls : List Lit} {l : Lit}

/-- What the loop wrote, with `ls` to come. -/
structure Ordered (st : Simplifier) (ls : List Lit) : Prop where
  output : InOrder st.output
  current : ∀ o ∈ st.output, ∃ x, st.currentVar = some x ∧ o.x ≤ x ∧ (o.x = x → o.place < 2)
  rest : ∀ o ∈ st.output, ∀ m ∈ ls, o.rank ≤ m.rank
  ahead : ∀ x, st.currentVar = some x → ∀ m ∈ ls, x ≤ m.x
  start : st.currentVar = none → st.currentLb = none ∧ st.currentUb = none
  sorted : ls.Pairwise fun a b => a.rank ≤ b.rank

theorem rank_eq (l : Lit) : 3 * l.x ≤ l.rank ∧ l.rank ≤ 3 * l.x + 2 := by
  cases l <;> simp [Lit.rank, Lit.x]

theorem x_le_of_rank {a b : Lit} (h : a.rank ≤ b.rank) : a.x ≤ b.x := by
  have h₁ := rank_eq a
  have h₂ := rank_eq b
  omega

theorem boundLits_place {x : Nat} {lb ub : Option Bound} {o : Lit}
    (ho : o ∈ lbLit x lb ++ ubLit x ub) : o.x = x ∧ 2 ≤ o.place ∧ o.rank = 3 * x + 1 := by
  rcases List.mem_append.1 ho with ho | ho
  · cases lb with
    | none => cases ho
    | some b =>
      cases List.mem_singleton.1 ho
      exact ⟨rfl, Nat.le_refl 2, rfl⟩
  · cases ub with
    | none => cases ho
    | some b =>
      cases List.mem_singleton.1 ho
      exact ⟨rfl, (by decide : 2 ≤ 3), rfl⟩

theorem boundLits_inOrder (x : Nat) (lb ub : Option Bound) :
    InOrder (lbLit x lb ++ ubLit x ub) := by
  cases lb <;> cases ub <;>
    simp [InOrder, lbLit, ubLit, Lit.Precedes, Lit.x, Lit.place]

/-- The bounds of a variable go behind its other literals. -/
theorem Ordered.collect (h : Ordered st ls) (hc : st.collectLitBounds conj = some st') :
    InOrder st'.output ∧ st'.currentLb = none ∧ st'.currentUb = none ∧
      st'.currentVar = st.currentVar ∧
      ∀ o ∈ st'.output, ∃ x, st.currentVar = some x ∧ o.rank ≤ 3 * x + 2 := by
  unfold collectLitBounds at hc
  split at hc
  · cases hc
  · cases hc
    refine ⟨?_, rfl, rfl, rfl, ?_⟩
    · show InOrder (st.output ++ if st.eqCovered = true then [] else _)
      split
      · rw [List.append_nil]
        exact h.output
      · refine List.pairwise_append.2 ⟨h.output, boundLits_inOrder _ _ _, fun o ho b hb => ?_⟩
        obtain ⟨x, hx, hle, hp⟩ := h.current o ho
        rw [hx] at hb
        obtain ⟨hbx, hb, -⟩ := boundLits_place hb
        have hbx : b.x = x := hbx
        unfold Lit.Precedes
        omega
    · intro o ho
      have ho : o ∈ st.output ++ if st.eqCovered = true then [] else
          lbLit (st.currentVar.getD 0) st.currentLb ++ ubLit (st.currentVar.getD 0) st.currentUb :=
        ho
      rcases List.mem_append.1 ho with ho | ho
      · obtain ⟨x, hx, hle, -⟩ := h.current o ho
        have := rank_eq o
        exact ⟨x, hx, by omega⟩
      · split at ho
        · cases ho
        · cases hv : st.currentVar with
          | none =>
            rw [(h.start hv).1, (h.start hv).2] at ho
            cases ho
          | some x =>
            rw [hv] at ho
            have : o.rank = 3 * x + 1 := (boundLits_place ho).2.2
            exact ⟨x, rfl, by omega⟩

/-- A Boolean literal or equation goes behind those of its variable. -/
theorem Ordered.write (h : Ordered st (l :: ls)) (hx : st.currentVar = some l.x)
    (hl : l.isIneqLit = false) (cov : Bool) :
    Ordered { st with output := st.output ++ [l], eqCovered := cov } ls := by
  have hplace : l.place < 2 := Lit.place_lt_two.2 hl
  have hsorted := List.pairwise_cons.1 h.sorted
  constructor
  · refine List.pairwise_append.2 ⟨h.output, List.pairwise_singleton _ l, fun o ho b hb => ?_⟩
    cases List.mem_singleton.1 hb
    obtain ⟨x, hx', hle, hp⟩ := h.current o ho
    rw [hx] at hx'
    cases hx'
    have hrank := h.rest o ho l List.mem_cons_self
    rcases Nat.lt_or_eq_of_le hle with hlt | heq
    · exact .inl hlt
    · refine .inr ⟨heq, ?_⟩
      have hpo := hp heq
      have hio := Lit.place_lt_two.1 hpo
      revert heq hrank hl hio
      cases o <;> cases l <;> simp [Lit.x, Lit.rank, Lit.place, Lit.isIneqLit]; omega
  · intro o ho
    rcases List.mem_append.1 ho with ho | ho
    · exact h.current o ho
    · cases List.mem_singleton.1 ho
      exact ⟨l.x, hx, Nat.le_refl _, fun _ => hplace⟩
  · intro o ho m hm
    rcases List.mem_append.1 ho with ho | ho
    · exact h.rest o ho m (List.mem_cons_of_mem l hm)
    · cases List.mem_singleton.1 ho
      exact hsorted.1 m hm
  · exact fun x hx' m hm => h.ahead x hx' m (List.mem_cons_of_mem l hm)
  · intro hn
    have hn : st.currentVar = none := hn
    rw [hx] at hn
    cases hn
  · exact hsorted.2

/-- A literal that is left out, or only moves a bound. -/
theorem Ordered.skip (h : Ordered st (l :: ls)) (hx : st.currentVar = some l.x)
    (lb ub : Option Bound) :
    Ordered { st with currentLb := lb, currentUb := ub } ls := by
  refine ⟨h.output, h.current, ?_, ?_, ?_, (List.pairwise_cons.1 h.sorted).2⟩
  · exact fun o ho m hm => h.rest o ho m (List.mem_cons_of_mem l hm)
  · exact fun x hx' m hm => h.ahead x hx' m (List.mem_cons_of_mem l hm)
  · intro hn
    have hn : st.currentVar = none := hn
    rw [hx] at hn
    cases hn

theorem Ordered.takeLit (h : Ordered st (l :: ls)) (hx : st.currentVar = some l.x)
    (ht : st.takeLit conj l = some st') : Ordered st' ls := by
  cases l with
  | bool x neg =>
    cases ht
    exact h.write hx rfl st.eqCovered
  | ineq x k lower isOpen =>
    cases lower
    · cases ht
      exact h.skip hx _ _
    · cases ht
      exact h.skip hx _ _
  | eq x k neg =>
    have hskip := h.skip hx st.currentLb st.currentUb
    have hwrite := h.write hx rfl
    unfold Simplifier.takeLit at ht
    cases conj <;> simp only [if_true, Bool.false_eq_true, if_false] at ht <;> split at ht <;>
      split at ht <;> cases ht <;> first | exact hskip | exact hwrite _

theorem Ordered.step (h : Ordered st (l :: ls)) (hs : st.step conj l = some st') :
    Ordered st' ls := by
  unfold Simplifier.step at hs
  split at hs
  · rename_i hx
    exact h.takeLit hx hs
  · rename_i hne
    split at hs
    · cases hs
    · rename_i st₁ h₁
      obtain ⟨hout, hlb, hub, hvar, hrank⟩ := h.collect h₁
      -- the variables written are smaller than the next one
      have hlt : ∀ o ∈ st₁.output, o.x < l.x ∧ o.rank < 3 * l.x := by
        intro o ho
        obtain ⟨x, hx, hr⟩ := hrank o ho
        have hle := h.ahead x hx l List.mem_cons_self
        have hxl : x ≠ l.x := fun he => hne (he ▸ hx)
        have := rank_eq o
        omega
      have hsorted := List.pairwise_cons.1 h.sorted
      have hmin : ∀ m ∈ l :: ls, l.x ≤ m.x := by
        intro m hm
        rcases List.mem_cons.1 hm with rfl | hm
        · exact Nat.le_refl _
        · exact x_le_of_rank (hsorted.1 m hm)
      have h₂ : Ordered { st₁ with currentVar := some l.x, eqCovered := false } (l :: ls) := by
        refine ⟨hout, fun o ho => ?_, fun o ho m hm => ?_, fun x hx m hm => ?_, nofun, h.sorted⟩
        · have := (hlt o ho).1
          exact ⟨l.x, rfl, by omega, by omega⟩
        · have h₁ := (hlt o ho).2
          have h₂ := hmin m hm
          have h₃ := rank_eq m
          omega
        · cases hx
          exact hmin m hm
      exact h₂.takeLit rfl hs

theorem Ordered.run (h : Ordered st ls) {out : List Lit} (hr : run conj st ls = some out) :
    InOrder out := by
  induction ls generalizing st with
  | nil =>
    unfold Simplifier.run at hr
    rw [Option.map_eq_some_iff] at hr
    obtain ⟨st', hc, rfl⟩ := hr
    exact (h.collect hc).1
  | cons l ls ih =>
    unfold Simplifier.run at hr
    split at hr
    · cases hr
    · rename_i st' hs
      exact ih (h.step hs) hr

end Simplifier

theorem simplify_inOrder {so : Sorting} {input out : List Lit} {conj : Bool}
    (h : simplifyIneqsInClause so input conj = some out) : InOrder out := by
  have hs : Simplifier.Ordered .init (so.sort input) := by
    refine ⟨List.Pairwise.nil, nofun, nofun, nofun, fun _ => ⟨rfl, rfl⟩, ?_⟩
    exact (so.sorted input).imp fun hab => (litLt_false_iff _ _).1 hab
  exact hs.run h

/-! ## The clauses kept -/

/-- The clauses kept so far are shorter than those to come, and none was found
dominated by one before it. -/
structure Kept (kept cs : List (List Lit)) : Prop where
  pairwise : kept.Pairwise fun d c => d.length ≤ c.length ∧ testDominated c d = false
  rest : ∀ d ∈ kept, ∀ c ∈ cs, d.length ≤ c.length
  sorted : cs.Pairwise fun a b => a.length ≤ b.length

theorem Kept.step {kept cs : List (List Lit)} {c : List Lit} (h : Kept kept (c :: cs)) :
    Kept (keepClause kept c) cs := by
  have hsorted := List.pairwise_cons.1 h.sorted
  have hrest : ∀ d ∈ kept, ∀ c' ∈ cs, d.length ≤ c'.length :=
    fun d hd c' hc' => h.rest d hd c' (List.mem_cons_of_mem c hc')
  unfold keepClause
  split
  · exact ⟨h.pairwise, hrest, hsorted.2⟩
  · rename_i hany
    have hany : ∀ d ∈ kept, testDominated c d = false := by simpa using hany
    refine ⟨?_, fun d hd => ?_, hsorted.2⟩
    · refine List.pairwise_append.2 ⟨h.pairwise, List.pairwise_singleton _ c, fun d hd b hb => ?_⟩
      cases List.mem_singleton.1 hb
      exact ⟨h.rest d hd c List.mem_cons_self, hany d hd⟩
    · rcases List.mem_append.1 hd with hd | hd
      · exact hrest d hd
      · cases List.mem_singleton.1 hd
        exact hsorted.1

theorem Kept.fold {kept cs : List (List Lit)} (h : Kept kept cs) :
    (cs.foldl keepClause kept).Pairwise fun d c =>
      d.length ≤ c.length ∧ testDominated c d = false := by
  induction cs generalizing kept with
  | nil => exact h.pairwise
  | cons c cs ih => exact ih h.step

theorem removeDominatedClauses_pairwise {input : List (List Lit)} (h : input.length ≤ 10000) :
    (removeDominatedClauses input).Pairwise fun d c =>
      d.length ≤ c.length ∧ testDominated c d = false := by
  unfold removeDominatedClauses
  rw [if_neg (by omega)]
  have hsorted : (input.insertionSort fun a b => a.length ≤ b.length).Pairwise
      fun a b => a.length ≤ b.length := by
    have : Std.Total fun a b : List Lit => a.length ≤ b.length := ⟨fun _ _ => Nat.le_total _ _⟩
    have : IsTrans (List Lit) fun a b => a.length ≤ b.length := ⟨fun _ _ _ => Nat.le_trans⟩
    exact List.pairwise_insertionSort _ input
  exact Kept.fold ⟨List.Pairwise.nil, nofun, hsorted⟩

/-- **What the scan finds.** Simplified clauses have the literals of each
variable together, Boolean literals first, then equations, then bounds. Of two
clauses so ordered, the scan finds that one makes the other redundant exactly
when the literals of the first are met in the second in their order and with
none of a greater kind between; whatever the first, exactly when the second
is ordered by kind as well, with no two different Boolean literals or equations
on one variable. If the clauses given are so in pairs, no clause kept is
redundant beside one kept before. -/
theorem testDominated_complete (longer : List Lit) (input : List (List Lit)) :
    (∀ so clause out, simplifyIneqsInClause so clause false = some out → InOrder out) ∧
    (InOrder longer →
      (∀ shorter, (Covered longer shorter → testDominated longer shorter = true) ↔
        (Covered longer shorter → MetInOrder longer shorter)) ∧
      ((∀ shorter, InOrder shorter → shorter.length ≤ longer.length → Covered longer shorter →
        testDominated longer shorter = true) ↔ ScanOrder longer)) ∧
    (input.length ≤ 10000 → (∀ c ∈ input, InOrder c) →
      (∀ d ∈ input, ∀ c ∈ input, d.length ≤ c.length → Covered c d → MetInOrder c d) →
      (removeDominatedClauses input).Pairwise fun d c => ¬ Covered c d) := by
  refine ⟨fun so clause out h => simplify_inOrder h, fun hl => ⟨fun shorter => ?_,
    scanOrder_iff hl⟩, fun hlen hin hc => ?_⟩
  · rw [testDominated_iff hl]
  · refine (removeDominatedClauses_pairwise hlen).imp_of_mem fun {d c} hd hc' h hcov => ?_
    have hmem := removeDominatedClauses_mem hc'
    have := hc d (removeDominatedClauses_mem hd) c hmem h.1 hcov
    rw [(testDominated_iff (hin c hmem)).2 this] at h
    cases h.2

/-- `3 ≤ x₀ ∨ b₁ ∨ b₂` is redundant beside `b₁ ∨ b₂`, in either order of the
clauses, and both are kept. -/
theorem testDominated_misses :
    let longer : List Lit := [.ineq 0 3 true false, .bool 1 false, .bool 2 false]
    let shorter : List Lit := [.bool 1 false, .bool 2 false]
    simplifyIneqsInClause stable longer false = some longer ∧
      simplifyIneqsInClause stable shorter false = some shorter ∧
      shorter.length ≤ longer.length ∧ Covered longer shorter ∧
      testDominated longer shorter = false ∧
      removeDominatedClauses [longer, shorter] = [shorter, longer] := by
  refine ⟨by decide, by decide, by decide, ?_, by decide, by decide⟩
  have hsub : [Lit.bool 1 false, .bool 2 false].Subperm
      [.ineq 0 3 true false, .bool 1 false, .bool 2 false] :=
    (List.sublist_cons_self _ _).subperm
  exact covered_of_matches hsub
    (.cons (Lit.Follows.refl _) (.cons (Lit.Follows.refl _) .nil))

theorem pair_scanOrder {x y : Nat} (h : x < y) : ScanOrder [.bool x false, .bool y false] := by
  refine List.pairwise_pair.2 ⟨.inr ⟨rfl, h.le⟩, fun _ hx => ?_⟩
  exact absurd hx h.ne

/-- Beside `4 ≤ x₀ ∨ b₁` the clause is found, as the bound stands before `b₁` in
both; and of `b₁ ∨ b₂` and `b₂ ∨ b₃` neither is redundant. -/
theorem testDominated_complete_pair :
    testDominated [.ineq 0 3 true false, .bool 1 false, .bool 2 false]
        [.ineq 0 4 true false, .bool 1 false] = true ∧
      (removeDominatedClauses [[.bool 1 false, .bool 2 false],
        [.bool 2 false, .bool 3 false]]).Pairwise fun d c => ¬ Covered c d := by
  have hfol : (Lit.ineq 0 3 true false).Follows (.ineq 0 4 true false) := ⟨rfl, by decide⟩
  have hrefl : (Lit.bool 1 false).Follows (.bool 1 false) := Lit.Follows.refl _
  have hcov : Covered [.ineq 0 3 true false, .bool 1 false, .bool 2 false]
      [.ineq 0 4 true false, .bool 1 false] :=
    covered_of_matches (List.sublist_append_left _ [Lit.bool 2 false]).subperm
      (.cons hfol (.cons hrefl .nil))
  have hord : MetInOrder [.ineq 0 3 true false, .bool 1 false, .bool 2 false]
      [.ineq 0 4 true false, .bool 1 false] :=
    .of_orderly (@Orderly.cons [] _ _ _ _ hfol nofun (@Orderly.cons [] _ _ _ _ hrefl nofun (.nil _)))
  obtain ⟨hout, hpair, hall⟩ := testDominated_complete
    [.ineq 0 3 true false, .bool 1 false, .bool 2 false]
    [[.bool 1 false, .bool 2 false], [.bool 2 false, .bool 3 false]]
  have hlonger := hout stable [.ineq 0 3 true false, .bool 1 false, .bool 2 false]
    [.ineq 0 3 true false, .bool 1 false, .bool 2 false] (by decide)
  have hfirst := hout stable [.bool 1 false, .bool 2 false] [.bool 1 false, .bool 2 false]
    (by decide)
  have hsecond := hout stable [.bool 2 false, .bool 3 false] [.bool 2 false, .bool 3 false]
    (by decide)
  have hin : ∀ c ∈ [[Lit.bool 1 false, .bool 2 false], [.bool 2 false, .bool 3 false]],
      InOrder c ∧ ScanOrder c := by
    intro c hc
    rcases List.mem_pair.1 hc with rfl | rfl
    · exact ⟨hfirst, pair_scanOrder (by decide)⟩
    · exact ⟨hsecond, pair_scanOrder (by decide)⟩
  refine ⟨((hpair hlonger).1 _).2 (fun _ => hord) hcov,
    hall (by decide) (fun c hc => (hin c hc).1) fun d hd c hc _ h => ?_⟩
  exact (testDominated_iff (hin c hc).1).1
    (testDominated_of_covered (hin c hc).1 (hin c hc).2 (hin d hd).1 h)

end AriParti.L1
