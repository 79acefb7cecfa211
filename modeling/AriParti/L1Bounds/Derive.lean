import Mathlib.Tactic.Tauto
import AriParti.L1Bounds.Meaning

/-!
# Deriving bounds

Whatever the propagators do comes down to two moves: normalize a bound of an
arithmetic variable and store it if it is an improvement, and set a Boolean
value. `Derives P S n n'` says that `n'` comes from `n` by such moves, each
one justified by all assignments of `S`. With `S` the models on the path to a
node this is soundness; with `S` empty it is what holds whether or not a bound
is justified: a consistent node only gets tighter.

## Results

* `Derives.admits`: justified moves keep every assignment of `S`.
* `Derives.well`, `Derives.tighter`: a node stays well formed, and gets no
  looser.
-/
namespace AriParti.L1

variable {P : Problem} {S : Assignment → Prop} {n n' : Content}

/-! ## The two moves -/

/-- Bounds are stored for the arithmetic variables, values for the Boolean
ones, and a conflict is noted where there is one. -/
structure Content.Well (P : Problem) (n : Content) : Prop where
  arith : ∀ x, n.bvalue x = .arith ↔ P.isBool x = false
  scope : ∀ x lower b, n.side x lower = some b → x < P.numVars ∧ P.isBool x = false
  bools : ∀ x, n.bvalue x = .true ∨ n.bvalue x = .false → x < P.numVars
  flagged : n.inconsistent = true ↔
    (∃ x, n.conflictingBounds x = true) ∨ ∃ x, n.bvalue x = .conflict

/-- `n'` is as tight as `n` everywhere. -/
structure Content.Tighter (n n' : Content) : Prop where
  side : ∀ x lower b, n.side x lower = some b →
    ∃ b', n'.side x lower = some b' ∧ b'.Within lower b
  bool : ∀ x, n.bvalue x ≠ .undef → n'.bvalue x = n.bvalue x ∨ n'.bvalue x = .conflict

theorem Content.Tighter.refl (n : Content) : n.Tighter n :=
  ⟨fun _ lower b hb => ⟨b, hb, .refl lower b⟩, fun _ _ => .inl rfl⟩

theorem Content.Tighter.trans {n₁ n₂ n₃ : Content} (h₁ : n₁.Tighter n₂) (h₂ : n₂.Tighter n₃) :
    n₁.Tighter n₃ := by
  constructor
  · intro x lower b hb
    obtain ⟨b', hb', h⟩ := h₁.side x lower b hb
    obtain ⟨b'', hb'', h'⟩ := h₂.side x lower b' hb'
    exact ⟨b'', hb'', h'.trans h⟩
  · intro x hx
    rcases h₁.bool x hx with he | he
    · rw [← he] at hx ⊢
      exact h₂.bool x hx
    · right
      rcases h₂.bool x (by rw [he]; decide) with he' | he'
      · rw [he', he]
      · exact he'

theorem Bound.Crosses.symm {lower : Bool} {b o : Bound} (h : b.Crosses lower o) :
    o.Crosses (!lower) b := by
  unfold Bound.Crosses at *
  cases lower <;> grind

namespace Content

theorem conflictingBounds_iff {x : Nat} : n.conflictingBounds x = true ↔
    ∃ l u, n.side x true = some l ∧ n.side x false = some u ∧ l.Crosses true u := by
  unfold conflictingBounds side Bound.Crosses
  cases n.lower x <;> cases n.upper x <;> grind

/-- In either direction. -/
theorem conflictingBounds_of {x : Nat} {lower : Bool} {b o : Bound}
    (hb : n.side x lower = some b) (ho : n.side x (!lower) = some o) (h : b.Crosses lower o) :
    n.conflictingBounds x = true := by
  rw [conflictingBounds_iff]
  cases lower
  · exact ⟨o, b, ho, hb, h.symm⟩
  · exact ⟨b, o, hb, ho, h⟩

/-! ### A bound -/

theorem push_arith {x : Nat} (h : n.bvalue x = .arith) (lower : Bool) (b : Bound) :
    n.push x lower b =
      if lower then { n with lower := Function.update n.lower x (some b) }
      else { n with upper := Function.update n.upper x (some b) } := by
  unfold push
  rw [h]

theorem mkBound_eq (x : Nat) (k : ℚ) (lower isOpen : Bool) :
    n.mkBound x k lower isOpen = { n.push x lower ⟨k, isOpen⟩ with
      conflict := if (n.push x lower ⟨k, isOpen⟩).conflictingBounds x then some x
        else (n.push x lower ⟨k, isOpen⟩).conflict } := by
  unfold mkBound
  simp only
  split <;> rfl

section Arith

variable {x : Nat} (h : n.bvalue x = .arith) (k : ℚ) (lower isOpen : Bool)
include h

theorem mkBound_side (y : Nat) (l : Bool) : (n.mkBound x k lower isOpen).side y l =
    if y = x ∧ l = lower then some ⟨k, isOpen⟩ else n.side y l := by
  rw [mkBound_eq, push_arith h]
  unfold side
  cases lower <;> cases l <;> simp [Function.update_apply]

theorem mkBound_bvalue : (n.mkBound x k lower isOpen).bvalue = n.bvalue := by
  rw [mkBound_eq, push_arith h]
  cases lower <;> rfl

theorem mkBound_upAtoms : (n.mkBound x k lower isOpen).upAtoms = n.upAtoms := by
  rw [mkBound_eq, push_arith h]
  cases lower <;> rfl

theorem mkBound_path : (n.mkBound x k lower isOpen).path = n.path := by
  rw [mkBound_eq, push_arith h]
  cases lower <;> rfl

theorem mkBound_inconsistent (hn : n.inconsistent = false) :
    (n.mkBound x k lower isOpen).inconsistent =
      (n.mkBound x k lower isOpen).conflictingBounds x := by
  have hc : n.conflict = none := by
    unfold inconsistent at hn
    rwa [Option.isSome_eq_false_iff, Option.isNone_iff_eq_none] at hn
  have hpush : (n.push x lower ⟨k, isOpen⟩).conflict = none := by
    rw [push_arith h]
    cases lower <;> exact hc
  rw [mkBound_eq, hpush]
  show Option.isSome (if (n.push x lower ⟨k, isOpen⟩).conflictingBounds x then some x else none) =
    (n.push x lower ⟨k, isOpen⟩).conflictingBounds x
  cases (n.push x lower ⟨k, isOpen⟩).conflictingBounds x <;> rfl

end Arith

/-- Only `x` can come into conflict. -/
theorem mkBound_conflictingBounds {x : Nat} (h : n.bvalue x = .arith) (k : ℚ)
    (lower isOpen : Bool) {y : Nat} (hy : y ≠ x) :
    (n.mkBound x k lower isOpen).conflictingBounds y = n.conflictingBounds y := by
  rw [Bool.eq_iff_iff, conflictingBounds_iff, conflictingBounds_iff]
  simp [mkBound_side h, hy]

end Content

/-! ### A Boolean value -/

namespace Content

/-- The value of a Boolean variable once it is set to `.ofNeg neg`. -/
def settled (b : BValue) (neg : Bool) : BValue :=
  if b = .undef then .ofNeg neg else if .ofNeg neg = b then b else .conflict

theorem propagateBvarBound_eq {x : Nat} (h : n.bvalue x ≠ .arith) (neg : Bool) :
    n.propagateBvarBound x neg = { n with
      bvalue := Function.update n.bvalue x (settled (n.bvalue x) neg)
      conflict := if n.bvalue x ≠ .ofNeg neg ∧ settled (n.bvalue x) neg = .conflict then some x
        else n.conflict } := by
  unfold propagateBvarBound improveBvarBound mkBvarBound push conflictingBvarBounds settled
  cases hx : n.bvalue x <;> cases neg <;> simp_all [BValue.ofNeg]
  -- the value is set already
  all_goals rw [← hx, Function.update_eq_self]

variable {x : Nat} (h : n.bvalue x ≠ .arith) (neg : Bool)
include h

theorem propagateBvarBound_side : (n.propagateBvarBound x neg).side = n.side := by
  rw [propagateBvarBound_eq h]
  rfl

theorem propagateBvarBound_bvalue : (n.propagateBvarBound x neg).bvalue =
    Function.update n.bvalue x (settled (n.bvalue x) neg) := by
  rw [propagateBvarBound_eq h]

theorem propagateBvarBound_inconsistent (hn : n.inconsistent = false) :
    (n.propagateBvarBound x neg).inconsistent = true ↔
      n.bvalue x ≠ .ofNeg neg ∧ settled (n.bvalue x) neg = .conflict := by
  have hc : n.conflict = none := by
    unfold inconsistent at hn
    rwa [Option.isSome_eq_false_iff, Option.isNone_iff_eq_none] at hn
  rw [propagateBvarBound_eq h, hc]
  unfold inconsistent
  simp only
  split <;> simp [*]

end Content

/-- A consistent node has no conflict. -/
theorem Content.Well.consistent (h : n.Well P) (hn : n.inconsistent = false) :
    (∀ x, n.conflictingBounds x = false) ∧ ∀ x, n.bvalue x ≠ .conflict := by
  have hno := mt h.flagged.2 (by rw [hn]; decide)
  rw [not_or, not_exists, not_exists] at hno
  exact ⟨fun x => Bool.eq_false_iff.2 (hno.1 x), hno.2⟩

/-- Nobody is admitted by an inconsistent node. -/
theorem Content.Well.not_admits (h : n.Well P) (hn : n.inconsistent = true) {σ : Assignment} :
    ¬ Admits n σ := by
  intro ha
  rcases h.flagged.1 hn with ⟨x, hx⟩ | ⟨x, hx⟩
  · obtain ⟨l, u, hl, hu, hc⟩ := Content.conflictingBounds_iff.1 hx
    exact hc.not_allows (ha.side x true l hl) (ha.side x false u hu)
  · have := ha.bool x
    rw [hx] at this
    exact this

section Store

variable {x : Nat} (k : ℚ) (lower isOpen : Bool)

theorem Content.Well.mkBound (h : n.Well P) (hn : n.inconsistent = false) (hlt : x < P.numVars)
    (hx : P.isBool x = false) : (n.mkBound x k lower isOpen).Well P := by
  have ha := (h.arith x).2 hx
  obtain ⟨hb, hc⟩ := h.consistent hn
  constructor
  · rw [Content.mkBound_bvalue ha]
    exact h.arith
  · intro y l b hy
    rw [Content.mkBound_side ha] at hy
    split at hy
    · rename_i hyx
      rw [hyx.1]
      exact ⟨hlt, hx⟩
    · exact h.scope y l b hy
  · rw [Content.mkBound_bvalue ha]
    exact h.bools
  · rw [Content.mkBound_inconsistent ha k lower isOpen hn, Content.mkBound_bvalue ha]
    constructor
    · exact fun hx => .inl ⟨x, hx⟩
    · intro hy
      rcases hy with ⟨y, hy⟩ | ⟨y, hy⟩
      · by_cases hyx : y = x
        · rwa [hyx] at hy
        · rw [Content.mkBound_conflictingBounds ha k lower isOpen hyx, hb] at hy
          cases hy
      · exact absurd hy (hc y)

theorem Admits.mkBound {σ : Assignment} (h : Admits n σ) (ha : n.bvalue x = .arith)
    (hv : (Bound.mk k isOpen).Allows lower (σ.num x)) :
    Admits (n.mkBound x k lower isOpen) σ := by
  constructor
  · intro y l b hy
    rw [Content.mkBound_side ha] at hy
    split at hy
    · rename_i hyx
      cases hy
      rw [hyx.1, hyx.2]
      exact hv
    · exact h.side y l b hy
  · rw [Content.mkBound_bvalue ha]
    exact h.bool

/-- A bound no looser than the one it replaces makes the node tighter. -/
theorem Content.Tighter.mkBound (ha : n.bvalue x = .arith)
    (hk : ∀ b, n.side x lower = some b → (Bound.mk k isOpen).Within lower b) :
    n.Tighter (n.mkBound x k lower isOpen) := by
  constructor
  · intro y l b hy
    rw [Content.mkBound_side ha]
    split
    · rename_i hyx
      rw [hyx.1, hyx.2] at hy
      rw [hyx.2]
      exact ⟨_, rfl, hk b hy⟩
    · exact ⟨b, hy, .refl l b⟩
  · intro y _
    rw [Content.mkBound_bvalue ha]
    exact .inl rfl

/-- At a consistent node an improvement is no looser than the bound it
replaces: a bound that crosses the other side lies beyond its own. -/
theorem Content.improveBound_within (h : n.Well P) (hn : n.inconsistent = false)
    (hi : n.improveBound x k lower isOpen = true) (b : Bound) (hb : n.side x lower = some b) :
    (Bound.mk k isOpen).Within lower b := by
  unfold Content.improveBound at hi
  split at hi
  · rename_i hc
    obtain ⟨o, ho, hc⟩ := (Option.any_eq_true _ _).1 hc
    have hc := crosses_iff.1 hc
    have hno : ¬ b.Crosses lower o := by
      intro hbo
      have := Content.conflictingBounds_of hb ho hbo
      rw [(h.consistent hn).1 x] at this
      cases this
    unfold Bound.Crosses Bound.Within at *
    cases lower <;> grind
  · rw [hb, Option.any_some, Bool.not_eq_true', ← Bool.not_eq_true, noBetter_iff] at hi
    exact (Bound.within_total lower _ b).resolve_right hi

/-- What is not stored is implied already. -/
theorem Content.within_of_not_improveBound (hi : n.improveBound x k lower isOpen = false) :
    ∃ b, n.side x lower = some b ∧ b.Within lower ⟨k, isOpen⟩ := by
  unfold Content.improveBound at hi
  split at hi
  · cases hi
  · rw [Bool.not_eq_false', Option.any_eq_true] at hi
    obtain ⟨b, hb, hi⟩ := hi
    exact ⟨b, hb, noBetter_iff.1 hi⟩

end Store

theorem Content.Well.propagateBvarBound {x : Nat} (neg : Bool) (h : n.Well P)
    (hn : n.inconsistent = false) (hlt : x < P.numVars) (hx : P.isBool x = true) :
    (n.propagateBvarBound x neg).Well P := by
  have ha : n.bvalue x ≠ .arith := by
    rw [Ne, h.arith, hx]
    decide
  obtain ⟨hb, hc⟩ := h.consistent hn
  have hset : Content.settled (n.bvalue x) neg ≠ .arith := by
    unfold Content.settled BValue.ofNeg
    cases n.bvalue x <;> cases neg <;> simp_all
  constructor
  · intro y
    rw [Content.propagateBvarBound_bvalue ha, Function.update_apply]
    split
    · rename_i hy
      rw [hy, hx]
      simp [hset]
    · exact h.arith y
  · rw [Content.propagateBvarBound_side ha]
    exact h.scope
  · intro y hy
    rw [Content.propagateBvarBound_bvalue ha, Function.update_apply] at hy
    split at hy
    · rename_i hyx
      rwa [hyx]
    · exact h.bools y hy
  · rw [Content.propagateBvarBound_inconsistent ha neg hn,
      Content.propagateBvarBound_bvalue ha]
    have hbounds : ∀ y, (n.propagateBvarBound x neg).conflictingBounds y = false := by
      intro y
      rw [← hb y, Content.propagateBvarBound_eq ha]
      rfl
    constructor
    · intro hi
      exact .inr ⟨x, by rw [Function.update_self]; exact hi.2⟩
    · intro hi
      rcases hi with ⟨y, hy⟩ | ⟨y, hy⟩
      · rw [hbounds] at hy
        cases hy
      · rw [Function.update_apply] at hy
        split at hy
        · refine ⟨fun he => ?_, hy⟩
          rw [Content.settled, he] at hy
          cases neg <;> simp [BValue.ofNeg] at hy
        · exact absurd hy (hc y)

theorem Admits.propagateBvarBound {σ : Assignment} {x : Nat} {neg : Bool} (h : Admits n σ)
    (ha : n.bvalue x ≠ .arith) (hv : σ.bool x = !neg) :
    Admits (n.propagateBvarBound x neg) σ := by
  constructor
  · rw [Content.propagateBvarBound_side ha]
    exact h.side
  · intro y
    rw [Content.propagateBvarBound_bvalue ha, Function.update_apply]
    split
    · rename_i hy
      have hb := h.bool x
      rw [hy]
      unfold Content.settled
      cases hx : n.bvalue x <;> rw [hx] at hb <;> cases neg <;>
        simp_all [BValue.Allows, BValue.ofNeg]
    · exact h.bool y

theorem Content.Tighter.propagateBvarBound {x : Nat} (neg : Bool) (ha : n.bvalue x ≠ .arith) :
    n.Tighter (n.propagateBvarBound x neg) := by
  constructor
  · intro y l b hb
    rw [Content.propagateBvarBound_side ha]
    exact ⟨b, hb, .refl l b⟩
  · intro y hy
    rw [Content.propagateBvarBound_bvalue ha, Function.update_apply]
    split
    · rename_i hyx
      rw [hyx] at hy ⊢
      unfold Content.settled
      rw [if_neg hy]
      split
      · exact .inl rfl
      · exact .inr rfl
    · exact .inl rfl

/-! ## Runs of moves -/

/-- `n'` comes from `n` by moves that all assignments of `S` justify. -/
inductive Derives (P : Problem) (S : Assignment → Prop) (n : Content) : Content → Prop where
  | refl : Derives P S n n
  | bound {n' : Content} (x : Nat) (k : ℚ) (lower isOpen : Bool) : Derives P S n n' →
      n'.inconsistent = false → x < P.numVars → P.isBool x = false →
      (∀ σ, S σ → (Bound.mk k isOpen).Allows lower (σ.num x)) →
      Derives P S n (n'.propagateBound P x k lower isOpen)
  | bvar {n' : Content} (x : Nat) (neg : Bool) : Derives P S n n' → n'.inconsistent = false →
      x < P.numVars → P.isBool x = true → (∀ σ, S σ → σ.bool x = !neg) →
      Derives P S n (n'.propagateBvarBound x neg)

theorem Derives.trans {n₁ n₂ n₃ : Content} (h₁ : Derives P S n₁ n₂) (h₂ : Derives P S n₂ n₃) :
    Derives P S n₁ n₃ := by
  induction h₂ with
  | refl => exact h₁
  | bound x k lower isOpen _ hn hlt hx hv ih => exact ih.bound x k lower isOpen hn hlt hx hv
  | bvar x neg _ hn hlt hx hv ih => exact ih.bvar x neg hn hlt hx hv

theorem Derives.well (h : Derives P S n n') (hw : n.Well P) : n'.Well P := by
  induction h with
  | refl => exact hw
  | bound x k lower isOpen _ hn hlt hx _ ih =>
    unfold Content.propagateBound
    simp only
    split
    · exact ih.mkBound _ _ _ hn hlt hx
    · exact ih
  | bvar x neg _ hn hlt hx _ ih => exact ih.propagateBvarBound neg hn hlt hx

theorem Derives.tighter (h : Derives P S n n') (hw : n.Well P) : n.Tighter n' := by
  induction h with
  | refl => exact .refl n
  | bound x k lower isOpen h hn hlt hx _ ih =>
    have hw' := h.well hw
    unfold Content.propagateBound
    simp only
    split
    · rename_i hi
      exact ih.trans (.mkBound _ _ _ ((hw'.arith x).2 hx)
        (Content.improveBound_within _ _ _ hw' hn hi))
    · exact ih
  | bvar x neg h hn hlt hx _ ih =>
    have ha := mt ((h.well hw).arith x).1 (by rw [hx]; decide)
    exact ih.trans (.propagateBvarBound neg ha)

/-- Justified moves keep the assignments that justify them. -/
theorem Derives.admits (h : Derives P S n n') (hw : n.Well P) {σ : Assignment} (hσ : S σ)
    (hint : ∀ x, P.isInt x = true → ∃ k : ℤ, σ.num x = k) (ha : Admits n σ) : Admits n' σ := by
  induction h with
  | refl => exact ha
  | bound x k lower isOpen h hn hlt hx hv ih =>
    unfold Content.propagateBound
    simp only
    split
    · exact ih.mkBound _ _ _ (((h.well hw).arith x).2 hx) (normalize_allows (hint x) (hv σ hσ))
    · exact ih
  | bvar x neg h hn hlt hx hv ih =>
    exact ih.propagateBvarBound (mt ((h.well hw).arith x).1 (by rw [hx]; decide)) (hv σ hσ)

end AriParti.L1
