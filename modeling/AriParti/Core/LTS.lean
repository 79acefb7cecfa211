import Mathlib.Init

/-!
# Labelled transition systems

The vocabulary every protocol module of the development shares: a system is
a predicate of initial states and a labelled step relation. `Run` is a finite
run between two states, `Reachable` the states some run from an initial state
ends in, `Inductive` a predicate that holds initially and that every step
keeps.

A result that holds only for the runs whose steps all meet a condition is a
result about `M.restrict G`, the same system with the other steps removed.

## Results

* `Inductive.reachable`: an inductive predicate holds in every reachable state.
* `Inductive.under`: the steps may use a predicate already known to be inductive.
* `Reachable.of_restrict`: a run whose steps meet a condition is a run.
* `reachable_of_exec`: a concrete trace, evaluated, ends in a reachable state.
-/
namespace AriParti.Core

/-- A labelled transition system. -/
structure LTS (S L : Type) where
  init : S → Prop
  step : S → L → S → Prop

namespace LTS

variable {S L : Type} {M : LTS S L}

/-- A finite run with its trace. -/
inductive Run (M : LTS S L) : S → List L → S → Prop where
  | nil (s : S) : Run M s [] s
  | cons {s s' t : S} {l : L} {ls : List L} :
      M.step s l s' → Run M s' ls t → Run M s (l :: ls) t

/-- The states a run from an initial state ends in. -/
inductive Reachable (M : LTS S L) : S → Prop where
  | init {s : S} : M.init s → Reachable M s
  | step {s s' : S} {l : L} : Reachable M s → M.step s l s' → Reachable M s'

/-- `I` holds initially and is kept by every step. -/
structure Inductive (M : LTS S L) (I : S → Prop) : Prop where
  init : ∀ s, M.init s → I s
  step : ∀ s l s', I s → M.step s l s' → I s'

theorem Inductive.reachable {I : S → Prop} (h : M.Inductive I) {s : S}
    (hr : M.Reachable s) : I s := by
  induction hr with
  | init h0 => exact h.init _ h0
  | step _ hs ih => exact h.step _ _ _ ih hs

/-- An invariant proved with the help of one already established: the
conjunction is inductive. -/
theorem Inductive.under {I J : S → Prop} (hJ : M.Inductive J)
    (init : ∀ s, M.init s → I s)
    (step : ∀ s l s', J s → I s → M.step s l s' → I s') :
    M.Inductive (fun s => J s ∧ I s) :=
  ⟨fun s h => ⟨hJ.init s h, init s h⟩,
    fun s l s' h hs => ⟨hJ.step s l s' h.1 hs, step s l s' h.1 h.2 hs⟩⟩

theorem Reachable.run {s t : S} {ls : List L} (hr : M.Reachable s) (h : M.Run s ls t) :
    M.Reachable t := by
  induction h with
  | nil _ => exact hr
  | cons hs _ ih => exact ih (hr.step hs)

/-- What every step keeps, a run keeps. -/
theorem Run.keeps {I : S → Prop} (hI : ∀ s l s', I s → M.step s l s' → I s') {s t : S}
    {ls : List L} (h : M.Run s ls t) (hs : I s) : I t := by
  induction h with
  | nil _ => exact hs
  | cons hstep _ ih => exact ih (hI _ _ _ hs hstep)

/-- The system with only the steps that meet `G`. -/
def restrict (M : LTS S L) (G : S → L → Prop) : LTS S L where
  init := M.init
  step s l s' := G s l ∧ M.step s l s'

/-- Every step of the run from `s` along `ls` meets `G`, whatever states it
goes through. -/
theorem Reachable.of_restrict {G : S → L → Prop} {s : S}
    (h : (M.restrict G).Reachable s) : M.Reachable s := by
  induction h with
  | init h0 => exact .init h0
  | step _ hs ih => exact ih.step hs.2

theorem Reachable.restrict_mono {G G' : S → L → Prop} (hG : ∀ s l, G s l → G' s l) {s : S}
    (h : (M.restrict G).Reachable s) : (M.restrict G').Reachable s := by
  induction h with
  | init h0 => exact .init h0
  | step _ hs ih => exact ih.step ⟨hG _ _ hs.1, hs.2⟩

theorem Inductive.of_restrict {I : S → Prop} (h : M.Inductive I) (G : S → L → Prop) :
    (M.restrict G).Inductive I :=
  ⟨h.init, fun s l s' hi hs => h.step s l s' hi hs.2⟩

theorem Inductive.restrict_mono {I : S → Prop} {G G' : S → L → Prop}
    (h : (M.restrict G).Inductive I) (hG : ∀ s l, G' s l → G s l) :
    (M.restrict G').Inductive I :=
  ⟨h.init, fun s l s' hi hs => h.step s l s' hi ⟨hG s l hs.1, hs.2⟩⟩

/-- The system of a partial step function. -/
def ofFn (s₀ : S) (next : S → L → Option S) : LTS S L where
  init s := s = s₀
  step s l s' := next s l = some s'

/-- Evaluate a trace; `none` if some step is not enabled. -/
def exec (next : S → L → Option S) : S → List L → Option S
  | s, [] => some s
  | s, l :: ls =>
    match next s l with
    | none => none
    | some s' => exec next s' ls

theorem run_of_exec {s₀ : S} {next : S → L → Option S} {ls : List L} :
    ∀ {s t : S}, exec next s ls = some t → (ofFn s₀ next).Run s ls t := by
  induction ls with
  | nil =>
    intro s t h
    simp only [exec, Option.some.injEq] at h
    subst h
    exact .nil _
  | cons l ls ih =>
    intro s t h
    unfold exec at h
    split at h
    · cases h
    · rename_i s' hs
      exact .cons hs (ih h)

theorem reachable_of_exec {s₀ : S} {next : S → L → Option S} {ls : List L} {t : S}
    (h : exec next s₀ ls = some t) : (ofFn s₀ next).Reachable t :=
  Reachable.run (.init rfl) (run_of_exec h)

/-- A trace that ends in a state that passes the test `p`. -/
theorem exists_reachable_of_exec (s₀ : S) (next : S → L → Option S) (ls : List L) (p : S → Bool)
    (h : (exec next s₀ ls).any p = true) : ∃ t, (ofFn s₀ next).Reachable t ∧ p t = true := by
  obtain ⟨t, ht, hp⟩ := (Option.any_eq_true _ _).1 h
  exact ⟨t, reachable_of_exec ht, hp⟩

/-- The step function with the steps that fail the test `g` removed. -/
def guardFn (g : S → L → Bool) (next : S → L → Option S) (s : S) (l : L) : Option S :=
  if g s l then next s l else none

/-- A trace evaluated under a test of each step is a run of the restricted
system. -/
theorem run_of_exec_guard {s₀ : S} {next : S → L → Option S} {g : S → L → Bool}
    {G : S → L → Prop} (hg : ∀ s l, g s l = true → G s l) {ls : List L} {s t : S}
    (h : exec (guardFn g next) s ls = some t) : ((ofFn s₀ next).restrict G).Run s ls t := by
  induction ls generalizing s with
  | nil =>
    simp only [exec, Option.some.injEq] at h
    subst h
    exact .nil _
  | cons l ls ih =>
    unfold exec at h
    split at h
    · cases h
    · rename_i s' hstep
      unfold guardFn at hstep
      split at hstep
      · rename_i hgl
        exact .cons ⟨hg s l hgl, hstep⟩ (ih h)
      · cases hstep

theorem reachable_of_exec_guard {s₀ : S} {next : S → L → Option S} {g : S → L → Bool}
    {G : S → L → Prop} (hg : ∀ s l, g s l = true → G s l) {ls : List L} {t : S}
    (h : exec (guardFn g next) s₀ ls = some t) :
    ((ofFn s₀ next).restrict G).Reachable t :=
  Reachable.run (.init rfl) (run_of_exec_guard hg h)

theorem exists_reachable_of_exec_guard (s₀ : S) (next : S → L → Option S) (g : S → L → Bool)
    (G : S → L → Prop) (hg : ∀ s l, g s l = true → G s l) (ls : List L) (p : S → Bool)
    (h : (exec (guardFn g next) s₀ ls).any p = true) :
    ∃ t, ((ofFn s₀ next).restrict G).Reachable t ∧ p t = true := by
  obtain ⟨t, ht, hp⟩ := (Option.any_eq_true _ _).1 h
  exact ⟨t, reachable_of_exec_guard hg ht, hp⟩

end LTS

end AriParti.Core
