import Mathlib.Algebra.BigOperators.Intervals
import Mathlib.Data.BitVec
import AriParti.L1Bounds.Cuts

/-!
# How often a variable occurs in a task

`collect_task_var_info` counts the literals over each variable and then sweeps
the definitions from the last variable to the first, adding the count of a
definition to its parts. Parts come before the variable they define, so the
count of a variable is final when the sweep reaches it. For a sum, the sweep
also adds the count of each monomial of the sum to its factors; it does so
again when it reaches the monomial. The counts wrap at 2^32, and Boolean
literals are not counted.

## Results

* `spreadOccs_spec`: what one round of the sweep adds.
* `collectTaskVarInfo_spec`: the counts are the literals, the counts of the
  definitions a variable is part of, and what is added early.
* `collectTaskVarInfo_ways`: the counts in terms of the literals.
* `collectTaskVarInfo_exact`: exactly when the counts are those of the expanded
  task; `early_eq_zero`: nothing is added early exactly when no literal is over
  a sum with a monomial in it.
* `collectTaskVarInfo_twice`: the factor of `x₀ + x₀x₁` that is counted three
  times instead of twice.
-/
namespace AriParti.L1

variable {P : Problem}

/-- The variables that the definition of `x` is made of. -/
def Problem.parts (P : Problem) (x : Nat) : List Nat := (P.defs x).elim [] Definition.vars

/-- Monomials are over base variables, and sums over base variables and
monomials. -/
structure Flat (P : Problem) : Prop where
  monomial : ∀ x ps, P.defs x = some (.monomial ps) → ∀ p ∈ ps, P.defs p.1 = none
  polynomial : ∀ x ts, P.defs x = some (.polynomial ts) → ∀ t ∈ ts,
    ∀ ts', P.defs t.2 ≠ some (.polynomial ts')

/-- The literals of a task. -/
def Task.lits (t : Task) : List Lit := t.clauses.flatten ++ t.varBounds

theorem Problem.parts_of {x : Nat} {d : Definition} (hd : P.defs x = some d) :
    P.parts x = d.vars := by
  unfold Problem.parts
  rw [hd]
  rfl

theorem Problem.parts_none {x : Nat} (hd : P.defs x = none) : P.parts x = [] := by
  unfold Problem.parts
  rw [hd]
  rfl

theorem Problem.parts_nodup (x : Nat) : (P.parts x).Nodup := by
  cases hd : P.defs x with
  | none => rw [Problem.parts_none hd]; exact List.nodup_nil
  | some d => rw [Problem.parts_of hd]; exact P.defs_nodup x d hd

theorem Problem.parts_lt {x y : Nat} (h : y ∈ P.parts x) : y < x := by
  cases hd : P.defs x with
  | none =>
    rw [Problem.parts_none hd] at h
    cases h
  | some d =>
    rw [Problem.parts_of hd] at h
    exact (P.defs_lt x d hd).2 y h

theorem Problem.defs_of_parts {x y : Nat} (h : y ∈ P.parts x) : P.defs x ≠ none := by
  intro hd
  rw [Problem.parts_none hd] at h
  cases h

/-- Only a sum has a defined variable for a part, and a sum is part of nothing. -/
theorem Flat.parts_parts (hP : Flat P) {x y z : Nat} (hy : y ∈ P.parts x) (hz : z ∈ P.parts y) :
    (∃ ts, P.defs x = some (.polynomial ts)) ∧ ∃ ps, P.defs y = some (.monomial ps) := by
  have hdy := Problem.defs_of_parts hz
  rcases hd : P.defs x with _ | ps | ts
  · exact absurd hd (Problem.defs_of_parts hy)
  · rw [Problem.parts_of hd] at hy
    obtain ⟨p, hp, rfl⟩ := List.mem_map.1 hy
    exact absurd (hP.monomial x ps hd p hp) hdy
  · rw [Problem.parts_of hd] at hy
    obtain ⟨t, ht, rfl⟩ := List.mem_map.1 hy
    refine ⟨⟨ts, rfl⟩, ?_⟩
    rcases hds : P.defs t.2 with _ | ps | ts'
    · exact absurd hds hdy
    · exact ⟨ps, rfl⟩
    · exact absurd hds (hP.polynomial x ts hd t ht ts')

/-- Definitions are nested two deep. -/
theorem Flat.depth (hP : Flat P) {w x y z : Nat} (hx : x ∈ P.parts w) (hy : y ∈ P.parts x) :
    z ∉ P.parts y := by
  intro hz
  obtain ⟨-, ps, hps⟩ := hP.parts_parts hx hy
  obtain ⟨⟨ts, hts⟩, -⟩ := hP.parts_parts hy hz
  cases hps.symm.trans hts

/-! ## One round of the sweep -/

theorem addOcc_apply (o : Nat → BitVec 32) (y : Nat) (k : BitVec 32) (z : Nat) :
    addOcc o y k z = o z + if z = y then k else 0 := by
  unfold addOcc
  rw [Function.update_apply]
  split
  · rename_i h
    rw [h]
  · exact (add_zero _).symm

/-- A count is added to the factors of a monomial. -/
theorem addPowers_apply {x : Nat} (ps : List (Nat × Nat)) (hnd : (ps.map Prod.fst).Nodup)
    (hx : x ∉ ps.map Prod.fst) (o : Nat → BitVec 32) (z : Nat) :
    ps.foldl (fun o p => addOcc o p.1 (o x)) o z =
      o z + if z ∈ ps.map Prod.fst then o x else 0 := by
  induction ps generalizing o with
  | nil => exact (add_zero _).symm
  | cons p ps ih =>
    rw [List.map_cons, List.nodup_cons] at hnd
    rw [List.map_cons, List.mem_cons, not_or] at hx
    have hox : addOcc o p.1 (o x) x = o x := by
      rw [addOcc_apply, if_neg hx.1, add_zero]
    rw [List.foldl_cons, ih hnd.2 hx.2, hox, addOcc_apply, List.map_cons]
    by_cases hz : z = p.1
    · rw [hz, if_pos rfl, if_neg hnd.1, if_pos List.mem_cons_self, add_zero]
    · simp only [List.mem_cons, hz, false_or, if_false, add_zero]

/-- One summand of the sum `x`. -/
def addTerm (P : Problem) (x : Nat) (o : Nat → BitVec 32) (t : ℚ × Nat) : Nat → BitVec 32 :=
  let o := addOcc o t.2 (o x)
  match P.defs t.2 with
  | some (.monomial ps) => ps.foldl (fun o p => addOcc o p.1 (o t.2)) o
  | _ => o

/-- The count of the sum goes to the summand, and the new count of a monomial to
its factors at once. -/
theorem addTerm_apply {x : Nat} (o : Nat → BitVec 32) (t : ℚ × Nat)
    (ht : ∀ ts, P.defs t.2 ≠ some (.polynomial ts)) (z : Nat) :
    addTerm P x o t z = o z + (if z = t.2 then o x else 0) +
      if z ∈ P.parts t.2 then o t.2 + o x else 0 := by
  rcases hd : P.defs t.2 with _ | ps | ts
  · rw [Problem.parts_none hd, if_neg List.not_mem_nil, add_zero]
    unfold addTerm
    rw [hd]
    exact addOcc_apply o _ _ z
  · have hself : t.2 ∉ ps.map Prod.fst := fun h => absurd ((P.defs_lt _ _ hd).2 _ h) (lt_irrefl _)
    unfold addTerm
    rw [hd, Problem.parts_of hd]
    simp only
    rw [addPowers_apply ps (P.defs_nodup _ _ hd) hself, addOcc_apply, addOcc_apply, if_pos rfl]
    rfl
  · exact absurd hd (ht ts)

theorem addTerms_apply (hP : Flat P) {x : Nat} (ts : List (ℚ × Nat))
    (hx : ∀ t ∈ ts, t.2 ∈ P.parts x) (hnd : (ts.map Prod.snd).Nodup) (o : Nat → BitVec 32)
    (z : Nat) :
    ts.foldl (addTerm P x) o z = o z + (if z ∈ ts.map Prod.snd then o x else 0) +
      ((ts.map Prod.snd).map fun s => if z ∈ P.parts s then o s + o x else 0).sum := by
  induction ts generalizing o with
  | nil => simp
  | cons t ts ih =>
    rw [List.map_cons, List.nodup_cons] at hnd
    have htx := hx t List.mem_cons_self
    have hts : ∀ ts', P.defs t.2 ≠ some (.polynomial ts') := by
      intro ts' hd
      obtain ⟨s, hs⟩ := List.exists_mem_of_ne_nil ts' (P.coeff_ne _ _ hd).1
      have hmem : s.2 ∈ P.parts t.2 := by
        rw [Problem.parts_of hd]
        exact List.mem_map_of_mem hs
      obtain ⟨-, ps, hps⟩ := hP.parts_parts htx hmem
      cases hd.symm.trans hps
    -- the count of the sum and those of the monomials to come stay as they are
    have hkeep : ∀ y, y ≠ t.2 → (y = x ∨ ∃ w, w ∈ P.parts y) → addTerm P x o t y = o y := by
      intro y hy hor
      have hno : y ∉ P.parts t.2 := by
        intro hmem
        rcases hor with rfl | ⟨w, hw⟩
        · exact absurd (Problem.parts_lt hmem) (Problem.parts_lt htx).not_gt
        · exact hP.depth htx hmem hw
      rw [addTerm_apply o t hts, if_neg hy, if_neg hno, add_zero, add_zero]
    have hox : addTerm P x o t x = o x := hkeep x (Problem.parts_lt htx).ne' (.inl rfl)
    have hrest : ((ts.map Prod.snd).map fun s =>
          if z ∈ P.parts s then addTerm P x o t s + o x else 0) =
        (ts.map Prod.snd).map fun s => if z ∈ P.parts s then o s + o x else 0 := by
      refine List.map_congr_left fun s hs => ?_
      split
      · rename_i hz
        rw [hkeep s (by rintro rfl; exact hnd.1 hs) (.inr ⟨z, hz⟩)]
      · rfl
    rw [List.foldl_cons, ih (fun t' ht' => hx t' (List.mem_cons_of_mem t ht')) hnd.2, hox, hrest,
      addTerm_apply o t hts, List.map_cons, List.map_cons, List.sum_cons]
    by_cases hz : z = t.2
    · rw [hz, if_pos rfl, if_neg hnd.1, if_pos List.mem_cons_self]
      ring
    · simp only [List.mem_cons, hz, false_or, if_false]
      ring

/-- One round adds the count of `x` to its parts and, for a sum, the new counts
of its monomials to their factors. -/
theorem spreadOccs_spec (hP : Flat P) (o : Nat → BitVec 32) (x z : Nat) :
    spreadOccs P o x z = o z + (if z ∈ P.parts x then o x else 0) +
      if o x = 0 then 0
      else ((P.parts x).map fun s => if z ∈ P.parts s then o s + o x else 0).sum := by
  unfold spreadOccs
  by_cases hx : o x = 0
  · rw [if_pos hx, if_pos hx, hx, ite_self, add_zero, add_zero]
  rw [if_neg hx, if_neg hx]
  rcases hd : P.defs x with _ | ps | ts
  · rw [Problem.parts_none hd]
    simp
  · have hself : x ∉ ps.map Prod.fst := fun h => absurd ((P.defs_lt _ _ hd).2 _ h) (lt_irrefl _)
    have hzero : ((P.parts x).map fun s => if z ∈ P.parts s then o s + o x else 0).sum = 0 := by
      refine List.sum_eq_zero fun v hv => ?_
      obtain ⟨s, hs, rfl⟩ := List.mem_map.1 hv
      refine if_neg fun hz => ?_
      obtain ⟨⟨ts, hts⟩, -⟩ := hP.parts_parts hs hz
      cases hd.symm.trans hts
    rw [hzero, add_zero, Problem.parts_of hd]
    exact addPowers_apply ps (P.defs_nodup _ _ hd) hself o z
  · rw [Problem.parts_of hd]
    refine addTerms_apply hP ts (fun t ht => ?_) (P.defs_nodup _ _ hd) o z
    rw [Problem.parts_of hd]
    exact List.mem_map_of_mem ht

/-- The counts of `x` and of what comes after it stay as they are. -/
theorem spreadOccs_of_le (hP : Flat P) (o : Nat → BitVec 32) {x z : Nat} (h : x ≤ z) :
    spreadOccs P o x z = o z := by
  have hzero : ((P.parts x).map fun s => if z ∈ P.parts s then o s + o x else 0).sum = 0 := by
    refine List.sum_eq_zero fun v hv => ?_
    obtain ⟨s, hs, rfl⟩ := List.mem_map.1 hv
    exact if_neg fun hz => absurd ((Problem.parts_lt hz).trans (Problem.parts_lt hs)) h.not_gt
  rw [spreadOccs_spec hP, hzero, ite_self, if_neg fun hz => absurd (Problem.parts_lt hz) h.not_gt,
    add_zero, add_zero]

/-! ## The sweep -/

/-- What the sums from `m` on add early to `z`, where the counts `o` are final
from `m` on and `lits` are those of the literals: for each of them, the counts
its monomials have by then. -/
def earlyFrom (P : Problem) (lits o : Nat → BitVec 32) (m z : Nat) : BitVec 32 :=
  ∑ y ∈ Finset.Ico m P.numVars, if o y = 0 then 0
    else ((P.parts y).map fun s => if z ∈ P.parts s then
      lits s + ∑ y' ∈ Finset.Ico y P.numVars, if s ∈ P.parts y' then o y' else 0 else 0).sum

/-- The counts `o` once the sweep has left the variables from `m` on: from the
literal counts `lits`, each definition has been added to its parts, and some
factors of monomials got more. -/
def Swept (P : Problem) (lits : Nat → BitVec 32) (m : Nat) (o : Nat → BitVec 32) : Prop :=
  ∀ z, o z = lits z + (∑ y ∈ Finset.Ico m P.numVars, if z ∈ P.parts y then o y else 0) +
    earlyFrom P lits o m z

/-- A monomial in a sum gets nothing early. -/
theorem earlyFrom_monomial (hP : Flat P) (lits o : Nat → BitVec 32) (m : Nat) {s z : Nat}
    (hz : z ∈ P.parts s) : earlyFrom P lits o m s = 0 := by
  refine Finset.sum_eq_zero fun y _ => ?_
  split
  · rfl
  refine List.sum_eq_zero fun v hv => ?_
  obtain ⟨s', hs', rfl⟩ := List.mem_map.1 hv
  exact if_neg fun hmem => hP.depth hs' hmem hz

theorem Swept.step (hP : Flat P) {lits o : Nat → BitVec 32} {m : Nat} (h : Swept P lits (m + 1) o)
    (hm : m < P.numVars) : Swept P lits m (spreadOccs P o m) := by
  have hkeep : ∀ y ∈ Finset.Ico m P.numVars, spreadOccs P o m y = o y :=
    fun y hy => spreadOccs_of_le hP o (Finset.mem_Ico.1 hy).1
  intro z
  have hparts : (∑ y ∈ Finset.Ico m P.numVars, if z ∈ P.parts y then spreadOccs P o m y else 0) =
      ∑ y ∈ Finset.Ico m P.numVars, if z ∈ P.parts y then o y else 0 :=
    Finset.sum_congr rfl fun y hy => by rw [hkeep y hy]
  have hearly : earlyFrom P lits (spreadOccs P o m) m z = earlyFrom P lits o m z := by
    refine Finset.sum_congr rfl fun y hy => ?_
    rw [hkeep y hy]
    refine congrArg (ite _ _) (congrArg List.sum (List.map_congr_left fun s _ => ?_))
    refine if_congr Iff.rfl (congrArg _ (Finset.sum_congr rfl fun y' hy' => ?_)) rfl
    rw [hkeep y' (Finset.mem_Ico.2 ⟨(Finset.mem_Ico.1 hy).1.trans (Finset.mem_Ico.1 hy').1,
      (Finset.mem_Ico.1 hy').2⟩)]
  -- the count of a monomial when the round reaches it
  have hround : ((P.parts m).map fun s => if z ∈ P.parts s then o s + o m else 0) =
      (P.parts m).map fun s => if z ∈ P.parts s then
        lits s + ∑ y' ∈ Finset.Ico m P.numVars, if s ∈ P.parts y' then o y' else 0 else 0 := by
    refine List.map_congr_left fun s hs => ?_
    split
    · rename_i hz
      rw [h s, earlyFrom_monomial hP lits o _ hz, Finset.sum_eq_sum_Ico_succ_bot hm, if_pos hs]
      ring
    · rfl
  rw [hparts, hearly, spreadOccs_spec hP, h z, hround, Finset.sum_eq_sum_Ico_succ_bot hm]
  unfold earlyFrom
  rw [Finset.sum_eq_sum_Ico_succ_bot hm]
  ring

theorem Swept.foldl (hP : Flat P) {lits : Nat → BitVec 32} (m : Nat) (hm : m ≤ P.numVars)
    {o : Nat → BitVec 32} (h : Swept P lits m o) :
    Swept P lits 0 ((List.range m).reverse.foldl (spreadOccs P) o) := by
  induction m generalizing o with
  | zero => exact h
  | succ m ih =>
    rw [List.range_succ, List.reverse_append, List.reverse_singleton, List.singleton_append,
      List.foldl_cons]
    exact ih (Nat.le_of_succ_le hm) (h.step hP hm)

/-- The literals over `z`, for an arithmetic variable. -/
def Task.litOccs (P : Problem) (t : Task) (z : Nat) : Nat :=
  (t.lits.filter fun l => !P.isBool l.x).countP (·.x = z)

theorem Task.litOccs_eq {t : Task} {z : Nat} (hz : P.isBool z = false) :
    t.litOccs P z = t.lits.countP (·.x = z) := by
  unfold Task.litOccs
  rw [List.countP_filter]
  refine List.countP_congr fun l _ => ?_
  rw [Bool.and_eq_true, decide_eq_true_eq, and_iff_left_of_imp]
  rintro rfl
  rw [hz]
  rfl

theorem Task.litOccs_bool {t : Task} {z : Nat} (hz : P.isBool z = true) : t.litOccs P z = 0 := by
  refine List.countP_eq_zero.2 fun l hl he => ?_
  have hl := (List.mem_filter.1 hl).2
  rw [of_decide_eq_true he, hz] at hl
  cases hl

/-- **The counts** are the literals over a variable, the counts of the
definitions it is part of, and what is added early. -/
theorem collectTaskVarInfo_spec (hP : Flat P) (t : Task) (z : Nat) :
    collectTaskVarInfo P t z = (t.litOccs P z : BitVec 32) +
      (∑ y ∈ Finset.Ico 0 P.numVars, if z ∈ P.parts y then collectTaskVarInfo P t y else 0) +
      earlyFrom P (fun x => (t.litOccs P x : BitVec 32)) (collectTaskVarInfo P t) 0 z := by
  have hlits : (fun x => BitVec.ofNat 32 (t.litOccs P x)) =
      fun x => (t.litOccs P x : BitVec 32) := funext fun _ => (BitVec.natCast_eq_ofNat ..).symm
  have hstart : Swept P (fun x => (t.litOccs P x : BitVec 32)) P.numVars
      fun x => (t.litOccs P x : BitVec 32) := by
    intro z
    unfold earlyFrom
    rw [Finset.Ico_self, Finset.sum_empty, Finset.sum_empty, add_zero, add_zero]
  have hswept := hstart.foldl hP P.numVars le_rfl
  rw [← hlits] at hswept ⊢
  exact hswept z

/-! ## The counts in terms of the literals -/

/-- The literals over `z` or over a definition with `z`, for a variable that is
no factor of a monomial in a sum. -/
def Task.reached (P : Problem) (t : Task) (z : Nat) : Nat :=
  t.litOccs P z + ∑ y ∈ Finset.range P.numVars, if z ∈ P.parts y then t.litOccs P y else 0

/-- The ways from a literal to `z` through definitions. -/
def Task.ways (P : Problem) (t : Task) (z : Nat) : Nat :=
  t.litOccs P z + ∑ y ∈ Finset.range P.numVars, if z ∈ P.parts y then t.reached P y else 0

/-- What is added early to `z`: for each sum with a literal over it and each of
its monomials with the factor `z`, the literals over the monomial, this sum or a
later one with the monomial in it. -/
def Task.early (P : Problem) (t : Task) (z : Nat) : Nat :=
  ∑ y ∈ Finset.range P.numVars, if t.litOccs P y = 0 then 0
    else ((P.parts y).map fun s => if z ∈ P.parts s then t.litOccs P s +
      ∑ y' ∈ Finset.Ico y P.numVars, if s ∈ P.parts y' then t.litOccs P y' else 0 else 0).sum

/-- A variable that is part of nothing gets its literals only. -/
theorem collectTaskVarInfo_unused (hP : Flat P) (t : Task) {z : Nat} (hz : ∀ y, z ∉ P.parts y) :
    collectTaskVarInfo P t z = (t.litOccs P z : BitVec 32) := by
  have hearly : earlyFrom P (fun x => (t.litOccs P x : BitVec 32)) (collectTaskVarInfo P t) 0 z =
      0 := by
    refine Finset.sum_eq_zero fun y _ => ?_
    split
    · rfl
    · exact List.sum_eq_zero fun v hv => by
        obtain ⟨s, -, rfl⟩ := List.mem_map.1 hv
        exact if_neg (hz s)
  rw [collectTaskVarInfo_spec hP, hearly, Finset.sum_eq_zero fun y _ => if_neg (hz y), add_zero,
    add_zero]

/-- A definition with a definition in it is part of nothing. -/
theorem Flat.unused (hP : Flat P) {x y z : Nat} (hy : y ∈ P.parts x) (hz : z ∈ P.parts y) (w : Nat) :
    x ∉ P.parts w := fun hx => hP.depth hx hy hz

/-- A definition gets the literals over it and over the sums with it. -/
theorem collectTaskVarInfo_definition (hP : Flat P) (t : Task) {y z : Nat} (hz : z ∈ P.parts y) :
    collectTaskVarInfo P t y = (t.reached P y : BitVec 32) := by
  unfold Task.reached
  rw [collectTaskVarInfo_spec hP, earlyFrom_monomial hP _ _ _ hz, add_zero, Nat.cast_add,
    Nat.cast_sum, Finset.range_eq_Ico]
  congr 1
  refine Finset.sum_congr rfl fun y' _ => ?_
  split
  · rename_i hy
    exact collectTaskVarInfo_unused hP t (hP.unused hy hz)
  · exact Nat.cast_zero.symm

/-- The counts, as long as those of the literals do not wrap. -/
theorem collectTaskVarInfo_ways (hP : Flat P) (t : Task) (ht : ∀ y, t.litOccs P y < 2 ^ 32)
    (z : Nat) :
    collectTaskVarInfo P t z = ((t.ways P z + t.early P z : ℕ) : BitVec 32) := by
  unfold Task.ways Task.early
  rw [collectTaskVarInfo_spec hP, Nat.cast_add, Nat.cast_add, Nat.cast_sum, Nat.cast_sum,
    Finset.range_eq_Ico]
  unfold earlyFrom
  congr 1
  · congr 1
    refine Finset.sum_congr rfl fun y _ => ?_
    split
    · rename_i hz
      exact collectTaskVarInfo_definition hP t hz
    · exact Nat.cast_zero.symm
  refine Finset.sum_congr rfl fun y _ => ?_
  by_cases h : ∃ s ∈ P.parts y, z ∈ P.parts s
  · obtain ⟨s₀, hs₀, hz₀⟩ := h
    rw [collectTaskVarInfo_unused hP t (hP.unused hs₀ hz₀)]
    by_cases hy : t.litOccs P y = 0
    · rw [hy, if_pos rfl, if_pos Nat.cast_zero, Nat.cast_zero]
    · have hne : (t.litOccs P y : BitVec 32) ≠ 0 := by
        intro h0
        have h0 := congrArg BitVec.toNat h0
        rw [BitVec.natCast_eq_ofNat, BitVec.toNat_ofNat, Nat.mod_eq_of_lt (ht y)] at h0
        exact hy h0
      rw [if_neg hy, if_neg hne, Nat.cast_list_sum, List.map_map]
      refine congrArg List.sum (List.map_congr_left fun s _ => ?_)
      show _ = ((if z ∈ P.parts s then _ else 0 : ℕ) : BitVec 32)
      split
      · rename_i hz
        rw [Nat.cast_add, Nat.cast_sum]
        congr 1
        refine Finset.sum_congr rfl fun y' _ => ?_
        split
        · rename_i hs
          exact collectTaskVarInfo_unused hP t (hP.unused hs hz)
        · exact Nat.cast_zero.symm
      · exact Nat.cast_zero.symm
  · have hno : ∀ s ∈ P.parts y, z ∉ P.parts s := fun s hs hz => h ⟨s, hs, hz⟩
    rw [List.sum_eq_zero, List.sum_eq_zero, ite_self, ite_self, Nat.cast_zero]
    · intro v hv
      obtain ⟨s, hs, rfl⟩ := List.mem_map.1 hv
      exact if_neg (hno s hs)
    · intro v hv
      obtain ⟨s, hs, rfl⟩ := List.mem_map.1 hv
      exact if_neg (hno s hs)

/-- A definition is reached in as many ways as literals reach it. -/
theorem Task.ways_definition (hP : Flat P) (t : Task) {y z : Nat} (hz : z ∈ P.parts y) :
    t.ways P y = t.reached P y := by
  unfold Task.ways
  conv_rhs => unfold Task.reached
  congr 1
  refine Finset.sum_congr rfl fun y' _ => ?_
  split
  · rename_i hy
    unfold Task.reached
    rw [Finset.sum_eq_zero fun w _ => if_neg (hP.unused hy hz w), add_zero]
  · rfl

/-- The ways to a variable go through the definitions with it. -/
theorem Task.ways_eq (hP : Flat P) (t : Task) (z : Nat) :
    t.ways P z = t.litOccs P z +
      ∑ y ∈ Finset.range P.numVars, if z ∈ P.parts y then t.ways P y else 0 := by
  conv_lhs => unfold Task.ways
  congr 1
  refine Finset.sum_congr rfl fun y _ => ?_
  split
  · rename_i hz
    exact (t.ways_definition hP hz).symm
  · rfl

theorem Task.litOccs_le_ways (t : Task) (z : Nat) : t.litOccs P z ≤ t.ways P z :=
  Nat.le_add_right _ _

/-- The equations of the counts determine them. -/
theorem eq_ways (hP : Flat P) {t : Task} {c : Nat → Nat}
    (h : ∀ z, c z = t.litOccs P z + ∑ y ∈ Finset.range P.numVars, if z ∈ P.parts y then c y else 0)
    (z : Nat) : c z = t.ways P z := by
  have hdef : ∀ y z, z ∈ P.parts y → c y = t.ways P y := by
    intro y z hz
    rw [h y, t.ways_eq hP y]
    congr 1
    refine Finset.sum_congr rfl fun y' _ => ?_
    split
    · rename_i hy
      have hno := hP.unused hy hz
      rw [h y', t.ways_eq hP y', Finset.sum_eq_zero fun w _ => if_neg (hno w),
        Finset.sum_eq_zero fun w _ => if_neg (hno w)]
    · rfl
  rw [h z, t.ways_eq hP z]
  congr 1
  refine Finset.sum_congr rfl fun y _ => ?_
  split
  · rename_i hz
    exact hdef y z hz
  · rfl

/-- Nothing is added early exactly when no literal is over a sum with a monomial
in it. -/
theorem Task.early_eq_zero (hP : Flat P) (t : Task) : (∀ z, t.early P z = 0) ↔
    ∀ l ∈ t.lits, ∀ ts, P.defs l.x = some (.polynomial ts) → ∀ s ∈ ts, P.defs s.2 = none := by
  constructor
  · intro h l hl ts hd s hs
    rcases hds : P.defs s.2 with _ | ps | ts'
    · rfl
    · -- a factor of the monomial gets the count of the sum early
      exfalso
      obtain ⟨p, hp⟩ := List.exists_mem_of_ne_nil ps (P.degree_pos s.2 ps hds).1
      have hlt := (P.defs_lt l.x _ hd).1
      have hmem : s.2 ∈ P.parts l.x := by
        rw [Problem.parts_of hd]
        exact List.mem_map_of_mem hs
      have hfac : p.1 ∈ P.parts s.2 := by
        rw [Problem.parts_of hds]
        exact List.mem_map_of_mem hp
      have hpos : t.litOccs P l.x ≠ 0 := by
        rw [Task.litOccs_eq (P.defs_arith l.x _ hd).1]
        exact (List.countP_pos_iff.2 ⟨l, hl, decide_eq_true rfl⟩).ne'
      have hterm := Finset.sum_eq_zero_iff.1 (h p.1) l.x (Finset.mem_range.2 hlt)
      rw [if_neg hpos] at hterm
      have hzero := List.sum_eq_zero_iff.1 hterm _ (List.mem_map_of_mem hmem)
      rw [if_pos hfac] at hzero
      have hself := Finset.sum_eq_zero_iff.1 (Nat.eq_zero_of_add_eq_zero_left hzero) l.x
        (Finset.mem_Ico.2 ⟨le_rfl, hlt⟩)
      rw [if_pos hmem] at hself
      exact hpos hself
    · exact absurd hds (hP.polynomial l.x ts hd s hs ts')
  · intro h z
    refine Finset.sum_eq_zero fun y _ => ?_
    split
    · rfl
    rename_i hy
    refine List.sum_eq_zero fun v hv => ?_
    obtain ⟨s, hs, rfl⟩ := List.mem_map.1 hv
    refine if_neg fun hz => ?_
    obtain ⟨⟨ts, hts⟩, ps, hps⟩ := hP.parts_parts hs hz
    obtain ⟨l, hl, hx⟩ := List.countP_pos_iff.1 (Nat.pos_of_ne_zero hy)
    have hx := of_decide_eq_true hx
    rw [Problem.parts_of hts] at hs
    obtain ⟨p, hp, rfl⟩ := List.mem_map.1 hs
    cases hps.symm.trans (h l (List.mem_filter.1 hl).1 ts (hx ▸ hts) p hp)

/-- **When the counts are those of the expanded task**: no literal is Boolean,
each variable is reached in fewer than 2^32 ways, and what is added early comes
to a multiple of 2^32. -/
theorem collectTaskVarInfo_exact (hP : Flat P) (t : Task) :
    (∀ z, (collectTaskVarInfo P t z).toNat = t.lits.countP (·.x = z) +
      ∑ y ∈ Finset.range P.numVars,
        if z ∈ P.parts y then (collectTaskVarInfo P t y).toNat else 0) ↔
    (∀ l ∈ t.lits, P.isBool l.x = false) ∧ (∀ z, t.ways P z < 2 ^ 32) ∧
      ∀ z, 2 ^ 32 ∣ t.early P z := by
  constructor
  · intro h
    have hbool : ∀ l ∈ t.lits, P.isBool l.x = false := by
      intro l hl
      by_contra hb
      have hb := (Bool.not_eq_false _).mp hb
      have hunused : ∀ y, l.x ∉ P.parts y := by
        intro y hy
        obtain ⟨d, hd⟩ := Option.ne_none_iff_exists'.1 (Problem.defs_of_parts hy)
        rw [Problem.parts_of hd] at hy
        exact Bool.noConfusion (((P.defs_arith y d hd).2 _ hy).symm.trans hb)
      have hcount := h l.x
      rw [collectTaskVarInfo_unused hP t hunused, Task.litOccs_bool hb] at hcount
      have hpos : 0 < t.lits.countP (·.x = l.x) :=
        List.countP_pos_iff.2 ⟨l, hl, decide_eq_true rfl⟩
      exact absurd hcount (Nat.ne_of_lt (Nat.lt_of_lt_of_le hpos (Nat.le_add_right _ _)))
    have hlits : ∀ z, t.lits.countP (·.x = z) = t.litOccs P z := by
      intro z
      unfold Task.litOccs
      rw [List.filter_eq_self.2 fun l hl => by rw [hbool l hl]; rfl]
    have hways := eq_ways hP (t := t) fun z => (h z).trans (by rw [hlits])
    have hlt : ∀ z, t.ways P z < 2 ^ 32 := fun z => hways z ▸ (collectTaskVarInfo P t z).isLt
    refine ⟨hbool, hlt, fun z => ?_⟩
    have hcount := hways z
    rw [collectTaskVarInfo_ways hP t (fun y => (t.litOccs_le_ways y).trans_lt (hlt y)),
      BitVec.natCast_eq_ofNat, BitVec.toNat_ofNat] at hcount
    have hmod : (t.ways P z + t.early P z) % 2 ^ 32 = (t.ways P z + 0) % 2 ^ 32 := by
      rw [hcount, add_zero, Nat.mod_eq_of_lt (hlt z)]
    exact (Nat.modEq_zero_iff_dvd).1 (Nat.ModEq.add_left_cancel' _ hmod)
  · rintro ⟨hbool, hlt, hearly⟩ z
    have hcount : ∀ z, (collectTaskVarInfo P t z).toNat = t.ways P z := by
      intro z
      obtain ⟨k, hk⟩ := hearly z
      rw [collectTaskVarInfo_ways hP t (fun y => (t.litOccs_le_ways y).trans_lt (hlt y)),
        BitVec.natCast_eq_ofNat, BitVec.toNat_ofNat, hk, Nat.add_mul_mod_self_left, Nat.mod_eq_of_lt (hlt z)]
    have hlits : t.lits.countP (·.x = z) = t.litOccs P z := by
      unfold Task.litOccs
      rw [List.filter_eq_self.2 fun l hl => by rw [hbool l hl]; rfl]
    rw [hcount, hlits, t.ways_eq hP z]
    simp only [hcount]

/-- `x₂ = x₀x₁` and `x₃ = x₀ + x₂`. -/
def productPlus : Problem where
  numVars := 4
  isInt _ := false
  isBool _ := false
  defs x := match x with
    | 2 => some (.monomial [(0, 1), (1, 1)])
    | 3 => some (.polynomial [(1, 0), (1, 2)])
    | _ => none
  unitClauses := []
  clauses := [[.ineq 1 0 true false, .ineq 3 0 true false]]
  defs_lt := by
    intro x d hd
    split at hd <;> cases hd <;> decide
  defs_arith := by
    intro x d hd
    split at hd <;> cases hd <;> decide
  defs_isInt := by
    intro x d hd
    split at hd <;> cases hd <;> decide
  defs_nodup := by
    intro x d hd
    split at hd <;> cases hd <;> decide
  degree_pos := by
    intro x ps hd
    split at hd <;> cases hd
    decide
  coeff_ne := by
    intro x ts hd
    split at hd <;> cases hd
    decide
  sorted := by
    intro l hl
    have hl : l = .ineq 1 0 true false ∨ l = .ineq 3 0 true false := by simpa using hl
    rcases hl with rfl | rfl <;> decide
  units_ne := by simp
  clauses_two := by simp
  clauses_ordered := by
    intro c hc
    rw [List.mem_singleton.1 hc]
    decide

theorem productPlus_flat : Flat productPlus := by
  constructor
  · intro x ps hd
    unfold productPlus at hd
    simp only at hd
    split at hd <;> cases hd
    decide
  · intro x ts hd
    unfold productPlus at hd
    simp only at hd
    split at hd <;> cases hd
    intro s hs
    have hs : s = (1, 0) ∨ s = (1, 2) := by simpa using hs
    rcases hs with rfl | rfl
    · exact nofun
    · exact nofun

/-- `x₁ ≥ 0 ∨ x₃ ≥ 0`. -/
def productTask : Task := ⟨2, 1, [[.ineq 1 0 true false, .ineq 3 0 true false]], []⟩

/-- `x₀` is part of `x₂` and of `x₃`, which are counted once each, and gets 3. -/
theorem collectTaskVarInfo_twice :
    productTask.lits.countP (·.x = 0) = 0 ∧
    productPlus.parts 2 = [0, 1] ∧ collectTaskVarInfo productPlus productTask 2 = 1 ∧
    productPlus.parts 3 = [0, 2] ∧ collectTaskVarInfo productPlus productTask 3 = 1 ∧
    collectTaskVarInfo productPlus productTask 0 = 3 ∧
    ¬ ∀ z, (collectTaskVarInfo productPlus productTask z).toNat =
      productTask.lits.countP (·.x = z) + ∑ y ∈ Finset.range productPlus.numVars,
        if z ∈ productPlus.parts y then (collectTaskVarInfo productPlus productTask y).toNat
        else 0 := by
  refine ⟨by decide, rfl, by decide, rfl, by decide, by decide, fun h => ?_⟩
  exact absurd (h 0) (by decide)

/-- A clause about the product and a factor of it. -/
def factorTask : Task := ⟨2, 1, [[.ineq 1 0 true false, .ineq 2 0 true false]], []⟩

theorem factorTask_ways (z : Nat) : factorTask.ways productPlus z < 2 ^ 32 := by
  have hvars : ∀ z < 4, factorTask.ways productPlus z < 2 ^ 32 := by decide
  by_cases hz : z < 4
  · exact hvars z hz
  · have hlits : factorTask.litOccs productPlus z = 0 := by
      refine List.countP_eq_zero.2 fun l hl he => hz ?_
      have hl : l = .ineq 1 0 true false ∨ l = .ineq 2 0 true false := by
        simpa [Task.lits, factorTask, productPlus] using hl
      rw [← of_decide_eq_true he]
      rcases hl with rfl | rfl <;> decide
    rw [factorTask.ways_eq productPlus_flat, hlits, Finset.sum_eq_zero]
    · decide
    · intro y hy
      exact if_neg fun h => hz ((Problem.parts_lt h).trans (Finset.mem_range.1 hy))

/-- Its factors are counted as they should be. -/
theorem collectTaskVarInfo_exact_product :
    ((collectTaskVarInfo productPlus factorTask 0).toNat = factorTask.lits.countP (·.x = 0) +
      ∑ y ∈ Finset.range productPlus.numVars, if 0 ∈ productPlus.parts y then
        (collectTaskVarInfo productPlus factorTask y).toNat else 0) ∧
    (collectTaskVarInfo productPlus factorTask 1).toNat = factorTask.lits.countP (·.x = 1) +
      ∑ y ∈ Finset.range productPlus.numVars, if 1 ∈ productPlus.parts y then
        (collectTaskVarInfo productPlus factorTask y).toNat else 0 := by
  have hearly := (factorTask.early_eq_zero productPlus_flat).2 fun l hl ts hd => by
    have hl : l = .ineq 1 0 true false ∨ l = .ineq 2 0 true false := by
      simpa [Task.lits, factorTask] using hl
    rcases hl with rfl | rfl <;> cases hd
  have h := (collectTaskVarInfo_exact productPlus_flat factorTask).2
    ⟨fun _ _ => rfl, factorTask_ways, fun z => by rw [hearly z]; exact dvd_zero _⟩
  exact ⟨h 0, h 1⟩

end AriParti.L1
