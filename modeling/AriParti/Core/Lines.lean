import Mathlib.Data.List.Basic

/-!
# Text cut into lines

A text is cut at the symbols that end a line. `complete` are its lines that have
ended, `pieces` all its lines that are not blank, the last one as well when it
has not ended. A reader that gets a text part by part returns the right lines if
what it has returned and the lines of what is left stay the lines of the text;
the rules here are for such an account.

## Results

* `complete_append`, `pieces_append`: the lines of a text that is cut behind the
  end of a line.
* `complete_of_none`, `pieces_of_none`: a text with no end of a line.
* `complete_unlines`, `pieces_unlines`: the lines of a text made of lines.
-/
namespace AriParti.Core

variable {α : Type} {p : α → Bool} {xs ys : List α} {sep : α}

/-- The messages that are not blank. -/
def nonblank (ls : List (List α)) : List (List α) := ls.filter fun l => !l.isEmpty

/-- The lines of a text that are not blank. -/
def pieces (p : α → Bool) (xs : List α) : List (List α) := nonblank (xs.splitOnP p)

/-- The lines of a text that have ended. -/
def complete (p : α → Bool) (xs : List α) : List (List α) := (xs.splitOnP p).dropLast

theorem nonblank_append (ls ms : List (List α)) :
    nonblank (ls ++ ms) = nonblank ls ++ nonblank ms := List.filter_append ..

@[simp] theorem nonblank_blank : nonblank [([] : List α)] = [] := rfl

theorem pieces_append (xs ys : List α) (hsep : p sep = true) :
    pieces p (xs ++ sep :: ys) = pieces p xs ++ pieces p ys := by
  unfold pieces
  rw [List.splitOnP_append_cons xs ys hsep, nonblank_append]

theorem pieces_of_none (h : ∀ x ∈ xs, p x = false) : pieces p xs = nonblank [xs] := by
  unfold pieces
  rw [List.splitOnP_eq_singleton h]

/-- Which symbol ends a line does not matter, nor that a line ends twice. -/
theorem pieces_ends {sep' : α} (xs ys : List α) (hsep : p sep = true) (hsep' : p sep' = true) :
    pieces p (xs ++ sep :: sep' :: ys) = pieces p (xs ++ sep' :: ys) := by
  rw [pieces_append xs _ hsep, pieces_append xs _ hsep',
    show sep' :: ys = [] ++ sep' :: ys from rfl, pieces_append [] _ hsep']
  rfl

theorem complete_append (h : ∀ x ∈ xs, p x = false) (hsep : p sep = true) (ys : List α) :
    complete p (xs ++ sep :: ys) = xs :: complete p ys := by
  unfold complete
  rw [List.splitOnP_append_cons_of_forall_mem h sep hsep,
    List.dropLast_cons_of_ne_nil (List.splitOnP_ne_nil p ys)]

theorem complete_of_none (h : ∀ x ∈ xs, p x = false) : complete p xs = [] := by
  unfold complete
  rw [List.splitOnP_eq_singleton h]
  rfl

/-! ## Lines made into a text -/

/-- The text of lines that have all ended. -/
def unlines (sep : α) (ls : List (List α)) : List α := (ls.map (· ++ [sep])).flatten

theorem unlines_cons (sep : α) (l : List α) (ls : List (List α)) :
    unlines sep (l :: ls) = l ++ sep :: unlines sep ls := by
  simp [unlines]

theorem unlines_append (sep : α) (ls ms : List (List α)) :
    unlines sep (ls ++ ms) = unlines sep ls ++ unlines sep ms := by
  simp [unlines]

theorem complete_unlines (hsep : p sep = true) {ls : List (List α)}
    (h : ∀ l ∈ ls, ∀ x ∈ l, p x = false) : complete p (unlines sep ls) = ls := by
  induction ls with
  | nil => rfl
  | cons l ls ih =>
    rw [unlines_cons, complete_append (h l List.mem_cons_self) hsep,
      ih fun m hm => h m (List.mem_cons_of_mem l hm)]

theorem pieces_unlines (hsep : p sep = true) {ls : List (List α)}
    (h : ∀ l ∈ ls, ∀ x ∈ l, p x = false) : pieces p (unlines sep ls) = nonblank ls := by
  induction ls with
  | nil => rfl
  | cons l ls ih =>
    rw [unlines_cons, pieces_append _ _ hsep, pieces_of_none (h l List.mem_cons_self),
      ih fun m hm => h m (List.mem_cons_of_mem l hm), ← nonblank_append]
    rfl

end AriParti.Core
