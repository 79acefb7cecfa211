import Mathlib.Data.List.DropRight
import AriParti.L2Partitioner.Wire
import AriParti.L3Coordinator.PrePartition

/-!
# What the coordinator prints and parses

`process_partitioner_msg` splits a line at its blanks and reads its first word as
a verdict or as a number; `int` of a word that is no number, and a word that is
missing, are exceptions. `sync_ended_to_partitioner` prints a line for the
partitioner.

`int` allows for blanks around the number, a `+`, and `_` between digits. The
lines are ASCII. A line with a negative number for a node is none of the
partitioner's and has no place in the model of the tree; one with a negative
number for the parent but `-1` is a KeyError.

## Layout

* `pyInt`, `lineOf`: a line of the partitioner, parsed.
* `C2P.text`: a line for the partitioner, printed.

## Results

* `lineOf_text`, `lineOf_verdict`, `lineOf_debug`: what the partitioner prints is
  parsed as it was meant.
* `commandOf_text`: what the coordinator prints is parsed as it was meant.
-/
namespace AriParti.L3
open AriParti.Core AriParti.L2

/-- `str.isspace` of an ASCII character -/
def isBlank (c : Char) : Bool := isSpace c || (28 ≤ c.toNat && c.toNat ≤ 31)

def strip (cs : List Char) : List Char := (cs.dropWhile isBlank).rdropWhile isBlank

/-- Digits with `_` between them. -/
def pyDigits (cs : List Char) : Option Nat :=
  let groups := cs.splitOn '_'
  if groups.all fun g => !g.isEmpty && g.all Char.isDigit then
    some (Nat.ofDigitChars 10 groups.flatten 0)
  else none

/-- `int` of a string; `none` for the ValueError -/
def pyInt (cs : List Char) : Option Int :=
  let (neg, ds) := splitSign (strip cs)
  (pyDigits ds).map (signed neg)

/-- The parent in a line about a new node. -/
def parentOf (ppid : Int) : Option (Option Nat) :=
  if ppid = -1 then some none else ppid.toNat?.map some

/-- mirrors src/src/coordinator.py:150-191 as far as it parses; `none` for an
exception -/
def lineOf (msg : List Char) : Option PrePartition.Line :=
  let words := msg.splitOn ' '
  let first := words.headD []
  if first = ['s', 'a', 't'] then some .sat
  else if first = Verdict.unsat.text then some .unsat
  else if first = Verdict.unknown.text then some .unknown
  else do
    let op ← pyInt first
    if op = 0 then some .other
    else if op = 1 ∨ op = 2 then
      let pid ← words[1]?.bind pyInt
      let ppid ← words[2]?.bind pyInt
      let pid ← pid.toNat?
      let parent ← parentOf ppid
      some (.node (Context.newNode (op = 2) pid parent))
    else none

/-- mirrors src/src/control_message.py:81-83 -/
def commandOp : C2P → Int
  | .unsatNode _ => 0
  | .terminateNode _ => 1

def commandId : C2P → Nat
  | .unsatNode id => id
  | .terminateNode id => id

/-- mirrors src/src/coordinator.py:273-279 -/
def commandText (line : C2P) : List Char :=
  words [numeral (commandOp line), numeral (commandId line)]

/-! ## Numbers -/

theorem isBlank_numeral {i : Int} {c : Char} (h : c ∈ numeral i) : isBlank c = false := by
  rcases numeral_chars h with rfl | hd
  · rfl
  · rw [Char.isDigit_iff_toNat] at hd
    have hzero : '0'.toNat = 48 := rfl
    have hspace : ' '.toNat = 32 := rfl
    have hne : c ≠ ' ' := by
      rintro rfl
      omega
    simp only [isBlank, isSpace, Bool.or_eq_false_iff, beq_eq_false_iff_ne, Bool.and_eq_false_iff,
      decide_eq_false_iff_not]
    exact ⟨⟨hne, by omega⟩, by omega⟩

theorem strip_numeral (i : Int) : strip (numeral i) = numeral i := by
  have hne := numeral_ne_nil i
  have hhead : (numeral i).dropWhile isBlank = numeral i := by
    obtain ⟨c, cs, hcs⟩ := List.exists_cons_of_ne_nil hne
    have hc := isBlank_numeral (i := i) (c := c) (hcs ▸ List.mem_cons_self)
    rw [hcs, List.dropWhile_cons_of_neg (by rw [hc]; exact Bool.false_ne_true)]
  unfold strip
  rw [hhead, List.rdropWhile_eq_self_iff]
  intro hn hl
  rw [isBlank_numeral (List.getLast_mem hn)] at hl
  cases hl

theorem pyDigits_toDigits (n : Nat) : pyDigits (Nat.toDigits 10 n) = some n := by
  have hsplit : (Nat.toDigits 10 n).splitOn '_' = [Nat.toDigits 10 n] := by
    refine List.splitOnP_eq_singleton fun c hc => ?_
    rw [beq_eq_false_iff_ne]
    rintro rfl
    exact Nat.underscore_not_in_toDigits hc
  have hall : (Nat.toDigits 10 n).all Char.isDigit = true :=
    List.all_eq_true.2 fun c hc => isDigit_toDigits hc
  unfold pyDigits
  simp only
  rw [hsplit, List.all_cons, List.all_nil, hall,
    List.isEmpty_eq_false_iff.2 (Nat.toDigits_ne_nil (n := n) (b := 10))]
  simp

theorem pyInt_numeral (i : Int) : pyInt (numeral i) = some i := by
  have hsign := splitSign_numeral i []
  rw [List.append_nil, List.append_nil] at hsign
  unfold pyInt
  rw [strip_numeral, hsign]
  simp only
  rw [pyDigits_toDigits, Option.map_some, signed_natAbs]

/-! ## Lines -/

theorem blank_numeral (i : Int) : ' ' ∉ numeral i := not_mem_numeral (by decide) (by decide)

theorem splitOn_words {ws : List (List Char)} (hne : ws ≠ []) (h : ∀ w ∈ ws, ' ' ∉ w) :
    (words ws).splitOn ' ' = ws := by
  unfold words
  exact List.splitOn_intercalate ' ' h hne

theorem numeral_not_word (i : Int) {w : List Char} {c : Char} (hc : c ∈ w) (hm : c ≠ '-')
    (hd : c.isDigit = false) : numeral i ≠ w := by
  rintro rfl
  exact not_mem_numeral hm hd hc

/-- A line about a new node is parsed. -/
theorem lineOf_row (l : P2C) (id : Nat) (pid : Int) :
    lineOf (l.row id pid) =
      (parentOf pid).map fun parent => .node (Context.newNode (l.op = 2) id parent) := by
  have hsplit : (l.row id pid).splitOn ' ' = [numeral l.op, numeral id, numeral pid] := by
    refine splitOn_words (List.cons_ne_nil _ _) fun w hw => ?_
    simp only [List.mem_cons, List.not_mem_nil, or_false] at hw
    rcases hw with rfl | rfl | rfl <;> exact blank_numeral _
  have hop : l.op ≠ 0 ∧ (l.op = 1 ∨ l.op = 2) := by
    cases l <;> simp [P2C.op]
  unfold lineOf
  simp only
  rw [hsplit]
  simp only [List.headD_cons, List.getElem?_cons_succ, List.getElem?_cons_zero, Option.bind_some]
  rw [if_neg (numeral_not_word l.op (c := 's') (by decide) (by decide) (by decide)),
    if_neg (numeral_not_word l.op (c := 'u') (by decide) (by decide) (by decide)),
    if_neg (numeral_not_word l.op (c := 'u') (by decide) (by decide) (by decide)),
    pyInt_numeral, pyInt_numeral, pyInt_numeral]
  show (if l.op = 0 then some _ else _) = _
  rw [if_neg hop.1, if_pos hop.2]
  have hid : (id : Int).toNat? = some id := rfl
  simp only [Option.bind_eq_bind, Option.bind_some, hid]
  cases parentOf pid <;> rfl

theorem parentOf_pidInt {pid : Option Nat} (h : ∀ p, pid = some p → p < 2 ^ 31) :
    parentOf (pidInt pid) = some pid := by
  cases pid with
  | none => rfl
  | some p =>
    rw [pidInt_some (h p rfl)]
    unfold parentOf
    rw [if_neg (by omega)]
    rfl

/-- **A line about a new node** is parsed as it was meant, when the number of the
parent fits an `int`. -/
theorem lineOf_text {l : P2C} {cs : List Char} (ht : l.Text cs)
    (h : ∀ p, l.parent = some p → p < 2 ^ 31) : lineOf cs = some (.node l) := by
  cases ht with
  | unknown id pid =>
    rw [lineOf_row, @parentOf_pidInt pid h]
    rfl
  | unsat id pid =>
    rw [lineOf_row, @parentOf_pidInt pid h]
    rfl
  | child id n =>
    rw [lineOf_row, ← pidInt_some (h n rfl), @parentOf_pidInt (some n) h]
    rfl

theorem lineOf_verdict (v : Verdict) : lineOf v.text = some (match v with
    | .unsat => .unsat
    | .unknown => .unknown) := by
  cases v <;> rfl

theorem lineOf_debug (line : List Char) : lineOf (debugText line) = some .other := by
  have hsplit : (debugText line).splitOn ' ' = ['0'] :: line.splitOn ' ' := by
    have hfree : ∀ c ∈ numeral 0, (c == ' ') = false := fun c hc =>
      beq_eq_false_iff_ne.2 fun he => blank_numeral 0 (he ▸ hc)
    rw [debugText, words_two]
    exact List.splitOnP_append_cons_of_forall_mem hfree ' ' rfl line
  unfold lineOf
  simp only
  rw [hsplit]
  rfl

/-- **A line of the coordinator** is parsed as it was meant, when the number of
the node fits an `unsigned`. -/
theorem commandOf_text {line : C2P} (h : commandId line < 2 ^ 32) :
    commandOf (commandText line) = some line := by
  have htext : commandText line =
      numeral (commandOp line) ++ ' ' :: (numeral (commandId line) ++ []) := by
    rw [List.append_nil, commandText, words_two]
  have hop : -2 ^ 31 ≤ commandOp line ∧ commandOp line < 2 ^ 31 := by
    cases line <;> simp [commandOp]
  unfold commandOf
  rw [htext, readInt_numeral hop.1 hop.2 (noDigit_cons rfl)]
  simp only
  rw [readUnsigned_numeral h noDigit_nil]
  cases line <;> rfl

end AriParti.L3
