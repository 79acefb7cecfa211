import Mathlib.Data.Rat.Cast.Order
import Mathlib.Data.Real.Basic
import AriParti.Core.Ends
import AriParti.L1Bounds.Propagate

/-!
# Extended numerals and mutable intervals

The data of `interval_manager`: rationals with both infinities
(ext_numeral.h) and the interval in which an operation leaves its result, two
numerals with a flag for infinite and one for open each. The numeral under an
infinity flag is never read, so it is left out; the flag for open is kept next
to an infinite end, because division reads it there (`Settled`).

Rounding modes are without effect: the numerals are exact.

## Results

* `mem_toInterval`, `mem_ofInterval`: the two representations hold the same
  values.
* `ofInterval_toInterval`: nothing is lost between two operations.
* `Right.ends`, `Left.ends`: the ends of a product of two sets on known sides
  of zero.
-/
namespace AriParti.L1

open AriParti.Core Set Pointwise

/-- mirrors ext_numeral.h:24 -/
inductive Ext where
  | minusInf
  | num (a : ℚ)
  | plusInf
  deriving DecidableEq, Repr

namespace Ext

/-- mirrors ext_numeral.h:27-32 -/
def isZero : Ext → Bool
  | num a => a == 0
  | _ => false

/-- mirrors ext_numeral.h:34-39 -/
def isPos : Ext → Bool
  | minusInf => false
  | num a => 0 < a
  | plusInf => true

/-- mirrors ext_numeral.h:41-46 -/
def isNeg : Ext → Bool
  | minusInf => true
  | num a => a < 0
  | plusInf => false

/-- mirrors ext_numeral.h:48 -/
def isInfinite : Ext → Bool
  | num _ => false
  | _ => true

/-- The numeral; `reset` has left zero next to an infinity. -/
def val : Ext → ℚ
  | num a => a
  | _ => 0

@[simp] theorem val_num (a : ℚ) : (num a).val = a := rfl

/-- mirrors ext_numeral.h:106-128 -/
def add : Ext → Ext → Ext
  | num a, num b => num (a + b)
  | num _, b => b
  | a, _ => a

/-- mirrors ext_numeral.h:130-161 -/
def sub : Ext → Ext → Ext
  | num a, num b => num (a - b)
  | num _, minusInf => plusInf
  | num _, plusInf => minusInf
  | a, _ => a

/-- mirrors ext_numeral.h:163-186 -/
def mul (a b : Ext) : Ext :=
  if a.isZero || b.isZero then num 0
  else if a.isInfinite || b.isInfinite then
    if a.isPos == b.isPos then plusInf else minusInf
  else num (a.val * b.val)

/-- mirrors ext_numeral.h:188-219 -/
def div (a b : Ext) : Ext :=
  if a.isZero then num 0
  else if a.isInfinite then
    if a.isPos == b.isPos then plusInf else minusInf
  else if b.isInfinite then num 0
  else num (a.val / b.val)

/-- mirrors ext_numeral.h:222-237 -/
def power (a : Ext) (n : Nat) : Ext :=
  match a with
  | minusInf => if n % 2 = 0 then plusInf else minusInf
  | num a => num (a ^ n)
  | plusInf => plusInf

/-- mirrors ext_numeral.h:266-293 -/
def lt : Ext → Ext → Bool
  | minusInf, b => b != minusInf
  | num _, minusInf => false
  | num a, num b => a < b
  | num _, plusInf => true
  | plusInf, _ => false

/-- mirrors ext_numeral.h:295-302 -/
def gt (a b : Ext) : Bool := lt b a

/-- What `lower(c)`, the flag for infinite and the flag for open say after
`a` was stored as a lower end. -/
def lowerEnd (a : Ext) (o : Bool) : End ℝ :=
  match a with
  | minusInf => .inf
  | num a => .fin a o
  | plusInf => .fin 0 o

def upperEnd (a : Ext) (o : Bool) : End ℝ :=
  match a with
  | minusInf => .fin 0 o
  | num a => .fin a o
  | plusInf => .inf

end Ext

/-- mirrors subpaving_t.h:308-328 -/
structure MutableInterval where
  lower : Option ℚ
  lowerOpen : Bool
  upper : Option ℚ
  upperOpen : Bool
  deriving DecidableEq, Repr

namespace MutableInterval

/-- mirrors interval.h:145-146 -/
def lowerKind (i : MutableInterval) : Ext := i.lower.elim .minusInf .num

def upperKind (i : MutableInterval) : Ext := i.upper.elim .plusInf .num

/-- The end of every operation: the numerals are swapped in, `*_is_inf` is set
when the kind is the infinity of that side. The numeral of an infinite kind
has been reset. -/
def of (l : Ext) (lo : Bool) (u : Ext) (uo : Bool) : MutableInterval where
  lower := match l with
    | .minusInf => none
    | .num a => some a
    | .plusInf => some 0
  lowerOpen := lo
  upper := match u with
    | .minusInf => some 0
    | .num a => some a
    | .plusInf => none
  upperOpen := uo

/-- mirrors interval_def.h:593-611 -/
def reset : MutableInterval := ⟨none, true, none, true⟩

/-! ### The side of zero (interval.h:190-207) -/

def lowerIsNeg (i : MutableInterval) : Bool := i.lowerKind.isNeg
def lowerIsPos (i : MutableInterval) : Bool := i.lowerKind.isPos
def lowerIsZero (i : MutableInterval) : Bool := i.lowerKind.isZero
def upperIsNeg (i : MutableInterval) : Bool := i.upperKind.isNeg
def upperIsPos (i : MutableInterval) : Bool := i.upperKind.isPos
def upperIsZero (i : MutableInterval) : Bool := i.upperKind.isZero

def isP0 (i : MutableInterval) : Bool := i.lowerIsZero && !i.lowerOpen
def isN (i : MutableInterval) : Bool := i.upperIsNeg || i.upperIsZero
def isN0 (i : MutableInterval) : Bool := i.upperIsZero && !i.upperOpen
def isN1 (i : MutableInterval) : Bool := i.upperIsNeg || (i.upperIsZero && i.upperOpen)
def isM (i : MutableInterval) : Bool := i.lowerIsNeg && i.upperIsPos
def isZero (i : MutableInterval) : Bool := i.lowerIsZero && i.upperIsZero

/-- mirrors interval_def.h:613-618 -/
def containsZero (i : MutableInterval) : Bool :=
  (i.lowerIsNeg || (i.lowerIsZero && !i.lowerOpen)) &&
    (i.upperIsPos || (i.upperIsZero && !i.upperOpen))

/-! ### Values -/

def lowerEnd (i : MutableInterval) : End ℝ := i.lowerKind.lowerEnd i.lowerOpen

def upperEnd (i : MutableInterval) : End ℝ := i.upperKind.upperEnd i.upperOpen

/-- The values between the ends. -/
def values (i : MutableInterval) : Set ℝ := {v | i.lowerEnd.Above v ∧ i.upperEnd.Below v}

/-- An infinite end is flagged open. -/
structure Settled (i : MutableInterval) : Prop where
  lower : i.lower = none → i.lowerOpen = true
  upper : i.upper = none → i.upperOpen = true

/-- The ends of `i` as bounds. -/
def toInterval (i : MutableInterval) : Interval :=
  ⟨i.lower.map fun a => ⟨a, i.lowerOpen⟩, i.upper.map fun a => ⟨a, i.upperOpen⟩⟩

/-- A constant interval as `interval_config` shows it to the operations
(subpaving_t.h:330-375). -/
def ofInterval (i : Interval) : MutableInterval where
  lower := i.lower.map Bound.val
  lowerOpen := i.lower.all Bound.isOpen
  upper := i.upper.map Bound.val
  upperOpen := i.upper.all Bound.isOpen

theorem ofInterval_settled (i : Interval) : (ofInterval i).Settled := by
  constructor
  · intro h
    cases hl : i.lower with
    | none => simp [ofInterval, hl]
    | some b => simp [ofInterval, hl] at h
  · intro h
    cases hu : i.upper with
    | none => simp [ofInterval, hu]
    | some b => simp [ofInterval, hu] at h

@[simp] theorem toInterval_ofInterval (i : Interval) : (ofInterval i).toInterval = i := by
  obtain ⟨l, u⟩ := i
  cases l <;> cases u <;> rfl

/-- Between two operations an interval can be read as two bounds. -/
theorem ofInterval_toInterval {i : MutableInterval} (h : i.Settled) :
    ofInterval i.toInterval = i := by
  obtain ⟨l, lo, u, uo⟩ := i
  obtain ⟨hl, hu⟩ := h
  cases l with
  | none =>
    cases u with
    | none => simp_all [ofInterval, toInterval]
    | some u => simp_all [ofInterval, toInterval]
  | some l =>
    cases u with
    | none => simp_all [ofInterval, toInterval]
    | some u => simp [ofInterval, toInterval]

theorem mem_toInterval {i : MutableInterval} {v : ℝ} : i.toInterval.Mem v ↔ v ∈ i.values := by
  obtain ⟨l, lo, u, uo⟩ := i
  have hl : (∀ b, (toInterval ⟨l, lo, u, uo⟩).lower = some b → b.allowsAbove v) ↔
      (lowerEnd ⟨l, lo, u, uo⟩).Above v := by
    cases l with
    | none => simp [toInterval, lowerEnd, lowerKind, Ext.lowerEnd]
    | some a =>
      simp [toInterval, lowerEnd, lowerKind, Ext.lowerEnd, Bound.allowsAbove, End.Above]
  have hu : (∀ b, (toInterval ⟨l, lo, u, uo⟩).upper = some b → b.allowsBelow v) ↔
      (upperEnd ⟨l, lo, u, uo⟩).Below v := by
    cases u with
    | none => simp [toInterval, upperEnd, upperKind, Ext.upperEnd]
    | some a =>
      simp [toInterval, upperEnd, upperKind, Ext.upperEnd, Bound.allowsBelow, End.Below]
  exact ⟨fun h => ⟨hl.mp h.lower, hu.mp h.upper⟩, fun h => ⟨hl.mpr h.1, hu.mpr h.2⟩⟩

theorem mem_ofInterval {i : Interval} {v : ℝ} : v ∈ (ofInterval i).values ↔ i.Mem v := by
  rw [← mem_toInterval, toInterval_ofInterval]

@[simp] theorem of_lowerEnd (l : Ext) (lo : Bool) (u : Ext) (uo : Bool) :
    (of l lo u uo).lowerEnd = l.lowerEnd lo := by
  cases l <;> simp [of, lowerEnd, lowerKind, Ext.lowerEnd]

@[simp] theorem of_upperEnd (l : Ext) (lo : Bool) (u : Ext) (uo : Bool) :
    (of l lo u uo).upperEnd = u.upperEnd uo := by
  cases u <;> simp [of, upperEnd, upperKind, Ext.upperEnd]

variable {i : MutableInterval}

theorem startsAt (h : i.values.Nonempty) : StartsAt i.values i.lowerEnd := startsAt_between h

theorem endsAt (h : i.values.Nonempty) : EndsAt i.values i.upperEnd := endsAt_between h

theorem ordConnected : i.values.OrdConnected := ordConnected_between

/-- A set without gaps between the ends of `i` is what `i` holds. -/
theorem values_eq {s : Set ℝ} (hs : s.OrdConnected) (hl : StartsAt s i.lowerEnd)
    (hu : EndsAt s i.upperEnd) : i.values = s := by
  ext v
  exact (mem_iff_between hs hl hu).symm

end MutableInterval

end AriParti.L1
