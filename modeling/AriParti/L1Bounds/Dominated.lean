import AriParti.L1Bounds.Simplify

/-!
# Dominated clauses

A clause is left out when `test_dominated` finds that one kept before makes it
redundant: one pass over both clauses looks for a literal of the longer clause
that follows from each literal of the shorter one.

## Results

* `testDominated_holds`: the longer clause follows from the shorter one.
* `removeDominatedClauses_dominated`: a clause is kept or follows from one
  that is.
* `removeDominatedClauses_meaning`: the clauses kept mean the same.
-/
namespace AriParti.L1

variable {σ : Assignment}

/-! ## Soundness -/

theorem litMatches_holds {l s : Lit} (h : litMatches l s = true) (hx : l.x = s.x)
    (hs : s.Holds σ) : l.Holds σ := by
  cases l <;> cases s <;> simp only [litMatches] at h <;> try contradiction
  · have h := beq_iff_eq.1 h
    cases hx
    rw [h]
    exact hs
  · rw [Bool.and_eq_true, beq_iff_eq, beq_iff_eq] at h
    cases hx
    rw [h.1, h.2]
    exact hs
  · rename_i x k lower isOpen y k' lower' isOpen'
    rw [Bool.and_eq_true, beq_iff_eq, bne_iff_ne, ineqLitCmp_ne_one] at h
    cases hx
    rw [← h.1] at hs
    exact h.2.allows hs

/-- Every literal of the shorter clause has one that follows from it. -/
theorem testDominated_holds {cla shorter : List Lit} (h : testDominated cla shorter = true)
    (hs : ∃ s ∈ shorter, s.Holds σ) : ∃ l ∈ cla, l.Holds σ := by
  induction cla generalizing shorter with
  | nil =>
    cases shorter with
    | nil => simp at hs
    | cons s ss => cases h
  | cons l ls ih =>
    cases shorter with
    | nil => simp at hs
    | cons s ss =>
      have hskip : testDominated ls (s :: ss) = true → ∃ l' ∈ l :: ls, l'.Holds σ := by
        intro h
        obtain ⟨l', hl', hh⟩ := ih h hs
        exact ⟨l', List.mem_cons_of_mem l hl', hh⟩
      unfold testDominated at h
      split at h
      · exact hskip h
      · split at h
        · cases h
        · split at h
          · exact hskip h
          · rename_i hlt
            split at h
            · cases h
            · rename_i hgt
              split at h
              · rename_i hm
                have hx : l.x = s.x := by omega
                obtain ⟨s', hs', hh⟩ := hs
                rcases List.mem_cons.1 hs' with rfl | hs'
                · exact ⟨l, List.mem_cons_self, litMatches_holds hm hx hh⟩
                · obtain ⟨l', hl', hh⟩ := ih h ⟨s', hs', hh⟩
                  exact ⟨l', List.mem_cons_of_mem l hl', hh⟩
              · exact hskip h

/-- One round of the loop over the sorted clauses. -/
def keepClause (output : List (List Lit)) (c : List Lit) : List (List Lit) :=
  if output.any (testDominated c) then output else output ++ [c]

theorem keepClause_fold_mem (cs kept : List (List Lit)) {c : List Lit}
    (hc : c ∈ cs.foldl keepClause kept) : c ∈ kept ∨ c ∈ cs := by
  induction cs generalizing kept with
  | nil => exact .inl hc
  | cons d cs ih =>
    have := ih (keepClause kept d) hc
    unfold keepClause at this
    split at this <;> grind

theorem keepClause_fold_holds (cs kept : List (List Lit))
    (h : ∀ c ∈ cs.foldl keepClause kept, ∃ l ∈ c, l.Holds σ) :
    (∀ c ∈ kept, ∃ l ∈ c, l.Holds σ) ∧ ∀ c ∈ cs, ∃ l ∈ c, l.Holds σ := by
  induction cs generalizing kept with
  | nil => exact ⟨h, nofun⟩
  | cons c cs ih =>
    obtain ⟨hkept, hcs⟩ := ih (keepClause kept c) h
    unfold keepClause at hkept
    split at hkept
    · rename_i hdom
      obtain ⟨d, hd, hdom⟩ := List.any_eq_true.1 hdom
      refine ⟨hkept, fun c' hc' => ?_⟩
      rcases List.mem_cons.1 hc' with rfl | hc'
      · exact testDominated_holds hdom (hkept d hd)
      · exact hcs c' hc'
    · refine ⟨fun d hd => hkept d (List.mem_append_left _ hd), fun c' hc' => ?_⟩
      rcases List.mem_cons.1 hc' with rfl | hc'
      · exact hkept c' (List.mem_append_right _ (List.mem_singleton_self c'))
      · exact hcs c' hc'

theorem keepClause_fold_keeps (cs kept : List (List Lit)) {c : List Lit} (hc : c ∈ kept) :
    c ∈ cs.foldl keepClause kept := by
  induction cs generalizing kept with
  | nil => exact hc
  | cons d cs ih =>
    apply ih
    unfold keepClause
    split
    · exact hc
    · exact List.mem_append_left _ hc

/-- A clause is kept or dominated by one that is. -/
theorem keepClause_fold_dominated (cs kept : List (List Lit)) {c : List Lit} (hc : c ∈ cs) :
    c ∈ cs.foldl keepClause kept ∨
      ∃ d ∈ cs.foldl keepClause kept, testDominated c d = true := by
  induction cs generalizing kept with
  | nil => exact absurd hc List.not_mem_nil
  | cons b cs ih =>
    rcases List.mem_cons.1 hc with rfl | hc
    · rw [List.foldl_cons]
      by_cases hdom : kept.any (testDominated c) = true
      · obtain ⟨d, hd, hdom'⟩ := List.any_eq_true.1 hdom
        refine .inr ⟨d, keepClause_fold_keeps cs _ ?_, hdom'⟩
        unfold keepClause
        rwa [if_pos hdom]
      · refine .inl (keepClause_fold_keeps cs _ ?_)
        unfold keepClause
        rw [if_neg hdom]
        exact List.mem_append_right _ (List.mem_singleton_self c)
    · exact ih (keepClause kept b) hc

theorem removeDominatedClauses_mem {cs : List (List Lit)} {c : List Lit}
    (hc : c ∈ removeDominatedClauses cs) : c ∈ cs := by
  unfold removeDominatedClauses at hc
  split at hc
  · exact hc
  · rcases keepClause_fold_mem _ _ hc with hc | hc
    · exact absurd hc List.not_mem_nil
    · exact (List.mem_insertionSort _).1 hc

/-- A clause left out follows from one that is kept. -/
theorem removeDominatedClauses_holds {cs : List (List Lit)}
    (h : ∀ c ∈ removeDominatedClauses cs, ∃ l ∈ c, l.Holds σ) : ∀ c ∈ cs, ∃ l ∈ c, l.Holds σ := by
  unfold removeDominatedClauses at h
  split at h
  · exact h
  · intro c hc
    exact (keepClause_fold_holds _ [] h).2 c ((List.mem_insertionSort _).2 hc)

theorem removeDominatedClauses_dominated {cs : List (List Lit)} {c : List Lit} (hc : c ∈ cs) :
    c ∈ removeDominatedClauses cs ∨ ∃ d ∈ removeDominatedClauses cs, testDominated c d = true := by
  unfold removeDominatedClauses
  split
  · exact .inl hc
  · exact keepClause_fold_dominated _ [] ((List.mem_insertionSort _).2 hc)

/-- **Removing dominated clauses keeps the formula**: a dominated clause
follows from the clause that dominates it, every clause is kept or dominated
by one that is, and the clauses kept hold together exactly when the clauses
given do. -/
theorem removeDominatedClauses_meaning (input : List (List Lit)) :
    (∀ longer shorter, testDominated longer shorter = true →
      ∀ σ, (∃ s ∈ shorter, s.Holds σ) → ∃ l ∈ longer, l.Holds σ) ∧
    (∀ c ∈ input, c ∈ removeDominatedClauses input ∨
      ∃ d ∈ removeDominatedClauses input, testDominated c d = true) ∧
    ∀ σ, (∀ c ∈ removeDominatedClauses input, ∃ l ∈ c, l.Holds σ) ↔
      ∀ c ∈ input, ∃ l ∈ c, l.Holds σ :=
  ⟨fun _ _ h _ hs => testDominated_holds h hs, fun _ hc => removeDominatedClauses_dominated hc,
    fun _ => ⟨removeDominatedClauses_holds, fun h c hc => h c (removeDominatedClauses_mem hc)⟩⟩

end AriParti.L1
