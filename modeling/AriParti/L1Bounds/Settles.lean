import AriParti.L1Bounds.Queue
import AriParti.L1Bounds.Falsified

/-!
# What a visit of a clause settles

A clause is settled at a node when it has a true atom or two undecided ones:
then it has nothing to say. A visit settles a clause or makes the node
inconsistent, unless the consequence of its last atom is weakened on the way.
That cannot happen for the atoms the tactic builds, if their constants need no
relaxation.

## Results

* `propagateAtom_undef`, `propagateAtom_false`: what an atom that has to hold
  does to a node where it is open, and where it is false.
* `propagateClause_settles`: a visit settles the clause or finds a conflict.
-/
namespace AriParti.L1

variable {P : Problem} {n n' : Content}

/-- An atom of a clause as `mk_atom` builds it (subpaving_tactic.cpp:136-246),
with a constant that is not relaxed when it becomes a bound. -/
def Lit.Built (P : Problem) : Lit → Prop
  | .bool _ _ => True
  | .eq x k neg => neg = false ∧
    (P.isInt x = true → k.isInt = true) ∧ (P.isInt x = false → k.den ≤ maxDenominator)
  | .ineq x k _ _ => P.isInt x = true ∨ k.den ≤ maxDenominator

/-- The clause has a true atom, or two undecided ones. -/
def Settled (P : Problem) (n : Content) (c : List Lit) : Prop :=
  (∃ a ∈ c, value P n a = .true) ∨ 2 ≤ c.countP (fun a => value P n a = .undef)

/-! ## Values -/

/-- An atom is about one variable. -/
theorem value_congr {a : Lit} (hs : ∀ l, n'.side a.x l = n.side a.x l)
    (hb : n'.bvalue a.x = n.bvalue a.x) : value P n' a = value P n a := by
  cases a with
  | bool x neg =>
    rw [value_bool, value_bool]
    rw [show n'.bvalue x = n.bvalue x from hb]
  | eq x k neg =>
    have hs : ∀ l, n'.side x l = n.side x l := hs
    rw [value_eq, value_eq, hs, hs]
  | ineq x k lower isOpen =>
    have hs : ∀ l, n'.side x l = n.side x l := hs
    rw [value_ineq, value_ineq, hs, hs]

theorem Settled.congr {c : List Lit} (h : Settled P n c)
    (hv : ∀ a ∈ c, value P n' a = value P n a) : Settled P n' c := by
  rcases h with ⟨a, ha, ht⟩ | h
  · exact .inl ⟨a, ha, (hv a ha).trans ht⟩
  · refine .inr (Nat.le_trans h (List.countP_mono_left fun a ha hu => ?_))
    simp only [decide_eq_true_eq] at hu ⊢
    rw [hv a ha]
    exact hu

/-! ## One bound -/

section Bounds

variable {x : Nat} {val : ℚ} {lower isOpen : Bool}

/-- The other sides are left alone. -/
theorem propagateBound_side (ha : n.bvalue x = .arith) {y : Nat} {l : Bool}
    (hy : ¬ (y = x ∧ l = lower)) :
    (n.propagateBound P x val lower isOpen).side y l = n.side y l := by
  unfold Content.propagateBound
  simp only
  split
  · rw [Content.mkBound_side ha, if_neg hy]
  · rfl

/-- Afterwards the side has a bound as tight as the one asked for. -/
theorem propagateBound_within (ha : n.bvalue x = .arith)
    (hden : P.isInt x = true ∨ val.den ≤ maxDenominator) :
    ∃ b, (n.propagateBound P x val lower isOpen).side x lower = some b ∧
      b.Within lower ⟨val, isOpen⟩ := by
  have hnorm : (Bound.mk (normalizeBound P x val lower isOpen).1
      (normalizeBound P x val lower isOpen).2).Within lower ⟨val, isOpen⟩ := normalize_within hden
  unfold Content.propagateBound
  simp only
  split
  · refine ⟨_, ?_, hnorm⟩
    rw [Content.mkBound_side ha, if_pos ⟨rfl, rfl⟩]
  · rename_i hi
    obtain ⟨b, hb, hw⟩ := Content.within_of_not_improveBound _ _ _ (Bool.eq_false_iff.2 hi)
    exact ⟨b, hb, hw.trans hnorm⟩

/-- A bound that crosses the other side makes the node inconsistent. -/
theorem propagateBound_crosses (ha : n.bvalue x = .arith) (hn : n.inconsistent = false)
    (hden : P.isInt x = true ∨ val.den ≤ maxDenominator) {o : Bound}
    (ho : n.side x (!lower) = some o) (hc : (Bound.mk val isOpen).Crosses lower o) :
    (n.propagateBound P x val lower isOpen).inconsistent = true := by
  rw [propagateBound_inconsistent hn ha]
  have hw : (normal P x val lower isOpen).Within lower ⟨val, isOpen⟩ := normalize_within hden
  exact ⟨o, ho, hw.crosses hc⟩

/-- A closed bound at a number that needs no rounding, with no tighter bound
in place. -/
theorem propagateBound_exact (ha : n.bvalue x = .arith)
    (hnorm : normalizeBound P x val lower false = (val, false))
    (hex : ∀ b, n.side x lower = some b → ¬ b.Within lower ⟨val, true⟩) :
    ∃ b, (n.propagateBound P x val lower false).side x lower = some b ∧ b.val = val := by
  unfold Content.propagateBound
  simp only [hnorm]
  split
  · refine ⟨⟨val, false⟩, ?_, rfl⟩
    rw [Content.mkBound_side ha, if_pos ⟨rfl, rfl⟩]
  · rename_i hi
    obtain ⟨b, hb, hw⟩ := Content.within_of_not_improveBound _ _ _ (Bool.eq_false_iff.2 hi)
    refine ⟨b, hb, ?_⟩
    have hno := hex b hb
    unfold Bound.Within at hw hno
    cases lower <;> grind

theorem normalize_eq (hint : P.isInt x = true → val.isInt = true)
    (hden : P.isInt x = false → val.den ≤ maxDenominator) :
    normalizeBound P x val lower false = (val, false) := by
  unfold normalizeBound
  split
  · rename_i hx
    unfold adjustIntegerBound
    simp [hint hx]
  · rename_i hx
    rw [if_neg (Nat.not_lt.2 (hden (Bool.eq_false_iff.2 hx)))]

end Bounds

/-! ## One atom -/

section Atom

variable {a : Lit}

theorem eq_false_iff {x : Nat} {k : ℚ} (hk : P.isInt x = true → k.isInt = true) :
    value P n (.eq x k false) = .false →
      (∃ u, n.side x false = some u ∧ u.Within false ⟨k, true⟩) ∨
        ∃ l, n.side x true = some l ∧ l.Within true ⟨k, true⟩ := by
  intro h
  rw [value_eq] at h
  have hfrac : (P.isInt x && !k.isInt) = false := by
    cases hx : P.isInt x
    · rfl
    · simp [hk hx]
  rw [hfrac] at h
  simp only [Bool.false_eq_true, if_false] at h
  split at h
  · cases h
  · split at h
    · rename_i hex
      rw [Bool.or_eq_true, Option.any_eq_true, Option.any_eq_true] at hex
      rcases hex with ⟨u, hu, he⟩ | ⟨l, hl, he⟩
      · exact .inl ⟨u, hu, excludes_iff.1 he⟩
      · exact .inr ⟨l, hl, excludes_iff.1 he⟩
    · cases h

/-- An open equation: no bound keeps the variable off the number. -/
theorem eq_undef {x : Nat} {k : ℚ} (h : value P n (.eq x k false) = .undef) (l : Bool) (b : Bound)
    (hb : n.side x l = some b) : ¬ b.Within l ⟨k, true⟩ := by
  intro hw
  have hex := excludes_iff.2 hw
  rw [value_eq] at h
  split at h
  · cases h
  · split at h
    · cases h
    · rename_i hno
      rw [if_pos] at h
      · cases h
      · rw [Bool.or_eq_true]
        cases l
        · left
          rw [hb, Option.any_some]
          exact hex
        · right
          rw [hb, Option.any_some]
          exact hex

theorem value_eq_true {x : Nat} {k : ℚ} (hk : P.isInt x = true → k.isInt = true) {l u : Bound}
    (hl : n.side x true = some l) (hu : n.side x false = some u) (hlk : l.val = k)
    (huk : u.val = k) : value P n (.eq x k false) = .true := by
  have hfrac : (P.isInt x && !k.isInt) = false := by
    cases hx : P.isInt x
    · rfl
    · simp [hk hx]
  rw [value_eq, hfrac, hl, hu]
  simp [hlk, huk]

/-- **An open atom that has to hold** becomes true, or its consequence is a
conflict. -/
theorem propagateAtom_undef (hw : n.Well P) (hs : a.Sorted P) (hb : a.Built P)
    (hv : value P n a = .undef) :
    (n.propagateAtom P a).inconsistent = true ∨ value P (n.propagateAtom P a) a = .true := by
  cases a with
  | bool x neg =>
    right
    rw [value_bool] at hv
    have hu : n.bvalue x = .undef := by
      split at hv
      · assumption
      · split at hv <;> cases hv
    have hna : n.bvalue x ≠ .arith := by rw [hu]; decide
    show value P (n.propagateBvarBound x neg) (.bool x neg) = .true
    rw [value_bool, Content.propagateBvarBound_bvalue hna, Function.update_self, hu]
    cases neg <;> decide
  | ineq x k lower isOpen =>
    right
    have ha := (hw.arith x).2 hs.2
    have hundef := (value_undef_iff.1 hv).2
    show value P (n.propagateBound P x k lower isOpen) (.ineq x k lower isOpen) = .true
    obtain ⟨b, hside, hwithin⟩ : ∃ b, (n.propagateBound P x k lower isOpen).side x lower = some b ∧
        b.Within lower ⟨k, isOpen⟩ := propagateBound_within ha hb
    rw [value_ineq, if_neg, if_pos]
    · rw [hside, Option.any_some]
      exact noBetter_iff.2 hwithin
    · rw [propagateBound_side ha (by simp), Option.any_eq_true]
      rintro ⟨o, ho, hc⟩
      have hc := crosses_iff.1 hc
      refine hundef o ho ?_
      rw [Bound.within_iff_crosses, Bool.not_not]
      simpa using hc.symm
  | eq x k neg =>
    obtain ⟨rfl, hint, hden⟩ := hb
    have ha := (hw.arith x).2 hs.2
    have hopen := eq_undef hv
    rw [propagateAtom_eq]
    split
    · rename_i hc
      exact .inl hc
    · right
      have ha' : (n.propagateBound P x k true false).bvalue x = .arith := by
        rw [propagateBound_bvalue ha]
        exact ha
      obtain ⟨l, hl, hlk⟩ := propagateBound_exact ha (normalize_eq hint hden) (hopen true)
      have hup : ∀ b, (n.propagateBound P x k true false).side x false = some b →
          ¬ b.Within false ⟨k, true⟩ := by
        rw [propagateBound_side ha (by simp)]
        exact hopen false
      obtain ⟨u, hu, huk⟩ := propagateBound_exact ha' (normalize_eq hint hden) hup
      refine value_eq_true hint (l := l) ?_ hu hlk huk
      rw [propagateBound_side ha' (by simp)]
      exact hl

/-- **A false atom that has to hold** makes the node inconsistent. -/
theorem propagateAtom_false (hw : n.Well P) (hn : n.inconsistent = false) (hs : a.Sorted P)
    (hb : a.Built P) (hv : value P n a = .false) : (n.propagateAtom P a).inconsistent = true := by
  cases a with
  | bool x neg =>
    have hx : P.isBool x = true := hs.2
    have hna : n.bvalue x ≠ .arith := mt (hw.arith x).1 (by rw [hx]; decide)
    have hnc := (hw.consistent hn).2 x
    show (n.propagateBvarBound x neg).inconsistent = true
    rw [Content.propagateBvarBound_inconsistent hna neg hn]
    rw [value_bool] at hv
    split at hv
    · cases hv
    · split at hv
      · rename_i hu hne
        refine ⟨hne, ?_⟩
        unfold Content.settled
        rw [if_neg hu, if_neg (Ne.symm hne)]
      · cases hv
  | ineq x k lower isOpen =>
    have ha := (hw.arith x).2 hs.2
    rw [value_ineq] at hv
    split at hv
    · rename_i hc
      obtain ⟨o, ho, hc⟩ := (Option.any_eq_true _ _).1 hc
      exact propagateBound_crosses ha hn hb ho (crosses_iff.1 hc)
    · split at hv <;> cases hv
  | eq x k neg =>
    obtain ⟨rfl, hint, hden⟩ := hb
    have hden' : P.isInt x = true ∨ k.den ≤ maxDenominator := by
      cases hx : P.isInt x
      · exact .inr (hden hx)
      · exact .inl rfl
    have ha := (hw.arith x).2 hs.2
    rw [propagateAtom_eq]
    split
    · rename_i hc
      exact hc
    · rename_i hc
      rcases eq_false_iff hint hv with ⟨u, hu, hwu⟩ | ⟨l, hl, hwl⟩
      · -- the upper bound lies below the number
        have hcross : (Bound.mk k false).Crosses true u := by
          rw [Bound.within_iff_crosses] at hwu
          simpa using hwu.symm
        exact absurd (propagateBound_crosses ha hn hden' (by exact hu) hcross) hc
      · -- the lower bound lies above it, and the first bound changes nothing
        have hcross : (Bound.mk k false).Crosses false l := by
          rw [Bound.within_iff_crosses] at hwl
          simpa using hwl.symm
        have hsame : n.propagateBound P x k true false = n := by
          unfold Content.propagateBound
          simp only [normalize_eq hint hden]
          rw [if_neg]
          unfold Content.improveBound
          split
          · rename_i hco
            obtain ⟨o, ho, hco⟩ := (Option.any_eq_true _ _).1 hco
            exact absurd (propagateBound_crosses ha hn hden' ho (crosses_iff.1 hco)) hc
          · have hin : l.Within true ⟨k, false⟩ := hwl.trans (.inr ⟨rfl, fun hf => by cases hf⟩)
            rw [hl, Option.any_some, noBetter_iff.2 hin]
            decide
        rw [hsame]
        exact propagateBound_crosses ha hn hden' (by exact hl) hcross

end Atom

/-! ## One clause -/

theorem count_two {α : Type} {p : α → Bool} {c as : List α} {a b : α}
    (h : c.filter p = a :: b :: as) : 2 ≤ c.countP p := by
  rw [List.countP_eq_length_filter, h]
  simp

theorem addUpAtom_well {a : Lit} (h : n.Well P) :
    ({ n with upAtoms := n.upAtoms ++ [a] } : Content).Well P :=
  ⟨h.arith, h.scope, h.bools, h.flagged⟩

/-- **A visit** settles the clause or finds a conflict. -/
theorem propagateClause_settles {c : List Lit} (hw : n.Well P) (hn : n.inconsistent = false)
    (hc : c ≠ []) (hs : ∀ a ∈ c, a.Sorted P) (hb : ∀ a ∈ c, a.Built P) :
    (n.propagateClause P c).inconsistent = true ∨ Settled P (n.propagateClause P c) c := by
  unfold Content.propagateClause
  split
  · rename_i hopen
    exact .inr (.inl (openAtoms_none hopen))
  · rename_i hopen
    cases c with
    | nil => exact absurd rfl hc
    | cons a as =>
      left
      have ha : a ∈ a :: as := List.mem_cons_self
      exact propagateAtom_false hw hn (hs a ha) (hb a ha)
        (openAtoms_false hopen ha List.not_mem_nil)
  · rename_i a hopen
    have ha : a ∈ c ∧ value P n a = .undef := by
      have hm := (openAtoms_some hopen).1 ▸ List.mem_singleton_self a
      exact ⟨(List.mem_filter.1 hm).1, of_decide_eq_true (List.mem_filter.1 hm).2⟩
    rcases propagateAtom_undef (addUpAtom_well hw) (hs a ha.1) (hb a ha.1) ha.2 with hi | ht
    · exact .inl hi
    · exact .inr (.inl ⟨a, ha.1, ht⟩)
  · rename_i hopen
    exact .inr (.inr (count_two (openAtoms_some hopen).1.symm))

end AriParti.L1
