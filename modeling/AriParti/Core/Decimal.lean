import Mathlib.Data.List.TakeDrop
import Mathlib.Data.List.TakeWhile

/-!
# Numbers in a text

Decimal numerals as programs print them, and the parts a reader takes from a
text: the sign, and the digits in front of the rest. What was printed is read
back from in front of any text that does not go on with a digit.

## Results

* `span_toDigits`: the digits of a printed number end where it ends.
* `splitSign_numeral`, `signed_natAbs`: a printed integer is its sign and the
  digits of its absolute value.
-/
namespace AriParti.Core

/-- The numeral of an integer. -/
def numeral : Int → List Char
  | .ofNat n => Nat.toDigits 10 n
  | .negSucc n => '-' :: Nat.toDigits 10 (n + 1)

/-- The sign in front of a numeral, true for `-`. -/
def splitSign : List Char → Bool × List Char
  | '-' :: cs => (true, cs)
  | '+' :: cs => (false, cs)
  | cs => (false, cs)

def signed (neg : Bool) (n : Nat) : Int := if neg then -n else n

/-- The text does not go on with a digit. -/
def NoDigit (cs : List Char) : Prop := ∀ c ∈ cs.head?, c.isDigit = false

theorem noDigit_nil : NoDigit [] := fun _ h => by cases h

theorem noDigit_cons {c : Char} {cs : List Char} (h : c.isDigit = false) : NoDigit (c :: cs) := by
  intro d hd
  rw [List.head?_cons, Option.mem_some_iff] at hd
  rw [← hd]
  exact h

theorem isDigit_toDigits {n : Nat} {c : Char} (h : c ∈ Nat.toDigits 10 n) : c.isDigit = true :=
  Nat.isDigit_of_mem_toDigits (by decide) (by decide) h

/-- A numeral is made of digits and a sign. -/
theorem numeral_chars {i : Int} {c : Char} (h : c ∈ numeral i) : c = '-' ∨ c.isDigit = true := by
  cases i with
  | ofNat n => exact .inr (isDigit_toDigits h)
  | negSucc n => exact (List.mem_cons.1 h).imp_right isDigit_toDigits

theorem not_mem_numeral {i : Int} {c : Char} (hm : c ≠ '-') (hd : c.isDigit = false) :
    c ∉ numeral i := by
  intro h
  rcases numeral_chars h with rfl | hc
  · exact hm rfl
  · rw [hd] at hc
    cases hc

theorem numeral_ne_nil (i : Int) : numeral i ≠ [] := by
  cases i with
  | ofNat n => exact Nat.toDigits_ne_nil
  | negSucc n => exact List.cons_ne_nil _ _

theorem span_toDigits (n : Nat) {rest : List Char} (h : NoDigit rest) :
    (Nat.toDigits 10 n ++ rest).span Char.isDigit = (Nat.toDigits 10 n, rest) := by
  have hall : ∀ c ∈ Nat.toDigits 10 n, c.isDigit = true := fun c hc => isDigit_toDigits hc
  rw [List.span_eq_takeWhile_dropWhile, List.takeWhile_append_of_pos hall,
    List.dropWhile_append_of_pos hall]
  cases rest with
  | nil => rw [List.takeWhile_nil, List.dropWhile_nil, List.append_nil]
  | cons c cs =>
    have hc : ¬ c.isDigit = true := by
      rw [h c rfl]
      exact Bool.false_ne_true
    rw [List.takeWhile_cons_of_neg hc, List.dropWhile_cons_of_neg hc, List.append_nil]

/-- There is no sign in front of digits. -/
theorem splitSign_toDigits (n : Nat) (rest : List Char) :
    splitSign (Nat.toDigits 10 n ++ rest) = (false, Nat.toDigits 10 n ++ rest) := by
  obtain ⟨d, ds, hds⟩ := List.exists_cons_of_ne_nil (Nat.toDigits_ne_nil (n := n) (b := 10))
  have hd : d.isDigit = true := isDigit_toDigits (hds ▸ List.mem_cons_self)
  rw [hds, List.cons_append]
  unfold splitSign
  split
  · rename_i heq
    cases heq
    cases hd
  · rename_i heq
    cases heq
    cases hd
  · rfl

theorem splitSign_numeral (i : Int) (rest : List Char) :
    splitSign (numeral i ++ rest) = (decide (i < 0), Nat.toDigits 10 i.natAbs ++ rest) := by
  cases i with
  | ofNat n => exact splitSign_toDigits n rest
  | negSucc n =>
    rw [decide_eq_true (Int.negSucc_lt_zero n)]
    rfl

theorem signed_natAbs (i : Int) : signed (decide (i < 0)) i.natAbs = i := by
  unfold signed
  split <;> rename_i h <;> rw [decide_eq_true_eq] at h <;> omega

end AriParti.Core
