import Mathlib.Algebra.Ring.Int.Defs
import Mathlib.Algebra.Ring.Nat
import AriParti.Core.Decimal
import AriParti.L2Partitioner.Told

/-!
# What the partitioner prints and parses

The lines of the partitioner are printed with `<<`, those of the coordinator are
read with `>>` from a `stringstream`. A node number is `unsigned`; the number of
a parent is printed as it is by `split_node`, and as an `int` elsewhere, with
`-1` for no parent.

`>>` skips blanks, takes a sign and digits, and fails when there are no digits or
the number is out of range: it then leaves 0 or the nearest number, and reads no
more. At the end of the text it leaves the variable as it was; `parse_line` does
not initialize its variables, and no value stands for that here.

## Layout

* `P2C.Text`: the texts of a line about a new node.
* `readInt`, `readUnsigned`: the two `>>`; `commandOf` is `parse_line` as far as
  it reads.
* `Numbered`: the numbers in the partitioner are those of its nodes.

## Results

* `readInt_numeral`, `readUnsigned_numeral`: a printed number is read.
* `Numbered.step`: a step keeps `Numbered`, whatever lines are read.
-/
namespace AriParti.L2
open AriParti.Core

/-! ## Printing -/

/-- `static_cast<int>` of an `unsigned` -/
def asInt (n : Nat) : Int := (n : Int).bmod (2 ^ 32)

theorem asInt_of_lt {n : Nat} (h : n < 2 ^ 31) : asInt n = n := by
  unfold asInt
  rw [Int.bmod_def]
  omega

/-- mirrors subpaving_t_def.h:3854-3857,3928-3931 -/
def pidInt : Option Nat → Int
  | none => -1
  | some p => asInt p

theorem pidInt_some {p : Nat} (h : p < 2 ^ 31) : pidInt (some p) = p := asInt_of_lt h

/-- A word, or several with a blank between them. -/
def words : List (List Char) → List Char := List.intercalate [' ']

theorem words_two (v w : List Char) : words [v, w] = v ++ ' ' :: w := by
  simp [words, List.intercalate]

/-- There is nothing but the words and blanks. -/
theorem mem_words {c : Char} {ws : List (List Char)} (h : c ∈ words ws) :
    c = ' ' ∨ ∃ w ∈ ws, c ∈ w := by
  induction ws with
  | nil => cases h
  | cons v ws ih =>
    unfold words at h
    cases ws with
    | nil =>
      rw [List.intercalate_singleton] at h
      exact .inr ⟨v, List.mem_cons_self, h⟩
    | cons u us =>
      rw [List.intercalate_cons_cons, List.mem_append, List.mem_append, List.mem_singleton] at h
      rcases h with (h | h) | h
      · exact .inr ⟨v, List.mem_cons_self, h⟩
      · exact .inl h
      · exact (ih h).imp_right fun ⟨w, hw, hc⟩ => ⟨w, List.mem_cons_of_mem v hw, hc⟩

theorem words_ne_nil {v : List Char} (hv : v ≠ []) (ws : List (List Char)) :
    words (v :: ws) ≠ [] := by
  unfold words
  cases ws with
  | nil => rwa [List.intercalate_singleton]
  | cons u us =>
    rw [List.intercalate_cons_cons, List.append_assoc]
    exact List.append_ne_nil_of_left_ne_nil hv _

namespace P2C

/-- The value of the enumerator. -/
def op : P2C → Int
  | .newUnknownNode _ _ => 1
  | .newUnsatNode _ _ => 2

def parent : P2C → Option Nat
  | .newUnknownNode _ pid => pid
  | .newUnsatNode _ pid => pid

def row (l : P2C) (id : Nat) (pid : Int) : List Char :=
  words [numeral l.op, numeral id, numeral pid]

/-- The texts of a line: `node` is subpaving_t_def.h:3858-3859,3932-3933, and
`child` is :3771-3772,3803-3804. -/
inductive Text : P2C → List Char → Prop where
  | unknown (id : Nat) (pid : Option Nat) :
      Text (.newUnknownNode id pid) (row (.newUnknownNode id pid) id (pidInt pid))
  | unsat (id : Nat) (pid : Option Nat) :
      Text (.newUnsatNode id pid) (row (.newUnsatNode id pid) id (pidInt pid))
  | child (id n : Nat) :
      Text (.newUnsatNode id (some n)) (row (.newUnsatNode id (some n)) id n)

end P2C

/-- What the shell prints for the result of the tactic. -/
def Verdict.text : Verdict → List Char
  | .unsat => ['u', 'n', 's', 'a', 't']
  | .unknown => ['u', 'n', 'k', 'n', 'o', 'w', 'n']

/-- mirrors subpaving_t_def.h:2297-2301 -/
def debugText (line : List Char) : List Char := words [numeral 0, line]

/-! ## Parsing -/

/-- `isspace` -/
def isSpace (c : Char) : Bool := c == ' ' || (9 ≤ c.toNat && c.toNat ≤ 13)

/-- The sign, the digits and the rest of a text without blanks in front. -/
def scanNumber (cs : List Char) : Bool × List Char × List Char :=
  let (neg, cs) := splitSign cs
  (neg, cs.span Char.isDigit)

/-- `ss >> n` for an `int`: the value left in `n`, and what is left in `ss` if it
has not failed. `none` for a text that has ended. -/
def readInt (cs : List Char) : Option (Int × Option (List Char)) :=
  let cs := cs.dropWhile isSpace
  if cs = [] then none
  else
    let (neg, ds, rest) := scanNumber cs
    let n := signed neg (Nat.ofDigitChars 10 ds 0)
    if ds = [] then some (0, none)
    else if n < -2 ^ 31 then some (-2 ^ 31, none)
    else if 2 ^ 31 ≤ n then some (2 ^ 31 - 1, none)
    else some (n, some rest)

/-- `ss >> n` for an `unsigned`: a number behind `-` is subtracted from 0. -/
def readUnsigned (cs : List Char) : Option (Nat × Option (List Char)) :=
  let cs := cs.dropWhile isSpace
  if cs = [] then none
  else
    let (neg, ds, rest) := scanNumber cs
    let n := Nat.ofDigitChars 10 ds 0
    if ds = [] then some (0, none)
    else if 2 ^ 32 ≤ n then some (2 ^ 32 - 1, none)
    else some (if neg then (2 ^ 32 - n) % 2 ^ 32 else n, some rest)

/-- `control_message::C2P(op_id)`; `none` is UNREACHABLE. -/
def C2P.make (op : Int) (id : Nat) : Option C2P :=
  if op = 0 then some (.unsatNode id) else if op = 1 then some (.terminateNode id) else none

/-- mirrors subpaving_t_def.h:3464-3475; `none` also when a variable has no
value -/
def commandOf (line : List Char) : Option C2P :=
  match readInt line with
  | none | some (_, none) => none
  | some (op, some ss) =>
    match readUnsigned ss with
    | none => none
    | some (id, _) => C2P.make op id

theorem scanNumber_numeral (i : Int) {rest : List Char} (h : NoDigit rest) :
    scanNumber (numeral i ++ rest) = (decide (i < 0), Nat.toDigits 10 i.natAbs, rest) := by
  unfold scanNumber
  rw [splitSign_numeral]
  simp only
  rw [span_toDigits _ h]

/-- There are no blanks in front of a number. -/
theorem dropWhile_numeral (i : Int) (rest : List Char) :
    (numeral i ++ rest).dropWhile isSpace = numeral i ++ rest := by
  obtain ⟨c, cs, hcs⟩ := List.exists_cons_of_ne_nil (numeral_ne_nil i)
  have hc : ¬ isSpace c = true := by
    intro hs
    rcases numeral_chars (i := i) (c := c) (hcs ▸ List.mem_cons_self) with rfl | hd
    · cases hs
    · simp only [isSpace, Bool.or_eq_true, beq_iff_eq, Bool.and_eq_true, decide_eq_true_eq] at hs
      rcases hs with rfl | hs
      · cases hd
      · have hzero : '0'.toNat = 48 := rfl
        rw [Char.isDigit_iff_toNat] at hd
        omega
  rw [hcs, List.cons_append, List.dropWhile_cons_of_neg hc]

theorem readInt_numeral {i : Int} (hlo : -2 ^ 31 ≤ i) (hhi : i < 2 ^ 31) {rest : List Char}
    (h : NoDigit rest) : readInt (numeral i ++ rest) = some (i, some rest) := by
  unfold readInt
  simp only
  rw [dropWhile_numeral, if_neg (List.append_ne_nil_of_left_ne_nil (numeral_ne_nil i) rest),
    scanNumber_numeral i h]
  simp only
  rw [if_neg Nat.toDigits_ne_nil, Nat.ofDigitChars_ten_toDigits, signed_natAbs,
    if_neg (by omega), if_neg (by omega)]

theorem readUnsigned_numeral {n : Nat} (hn : n < 2 ^ 32) {rest : List Char} (h : NoDigit rest) :
    readUnsigned (' ' :: (numeral n ++ rest)) = some (n, some rest) := by
  unfold readUnsigned
  simp only
  rw [List.dropWhile_cons_of_pos (by decide), dropWhile_numeral,
    if_neg (List.append_ne_nil_of_left_ne_nil (numeral_ne_nil n) rest), scanNumber_numeral n h]
  simp only
  rw [if_neg Nat.toDigits_ne_nil, Nat.ofDigitChars_ten_toDigits, Int.natAbs_natCast,
    if_neg (by omega), decide_eq_false (by omega), if_neg Bool.false_ne_true]

/-! ## The numbers of the nodes -/

namespace Context

variable {K : Kernel} {maxAlive : Nat} {s s' : Context K}

/-- The numbers in the heap, the task, the tree and the lines written. -/
structure Numbered (s : Context K) : Prop where
  heap : ∀ ni ∈ s.leafHeap, ni.id < s.size
  task : ∀ t, s.ptask = some t → t.nodeId < s.size
  parent : ∀ n p, (s.node n).parent = some p → p < s.size
  written : ∀ l ∈ s.written, l.id < s.size ∧ ∀ p, l.parent = some p → p < s.size

theorem numbered_empty : (empty (K := K)).Numbered where
  heap _ h := absurd h List.not_mem_nil
  task _ h := by cases h
  parent _ _ h := by cases h
  written _ h := absurd h List.not_mem_nil

/-- Other fields do not matter, and nodes may have been added. -/
theorem Numbered.of_le (h : s.Numbered) (hsize : s.size ≤ s'.size)
    (hheap : ∀ ni ∈ s'.leafHeap, ni ∈ s.leafHeap ∨ ni.id < s'.size)
    (htask : ∀ t, s'.ptask = some t → s.ptask = some t ∨ t.nodeId < s'.size)
    (hparent : ∀ n p, (s'.node n).parent = some p →
      (∃ m, (s.node m).parent = some p) ∨ p < s'.size)
    (hwritten : ∀ l ∈ s'.written, l ∈ s.written ∨
      l.id < s'.size ∧ ∀ p, l.parent = some p → p < s'.size) : s'.Numbered where
  heap ni hni := (hheap ni hni).elim (fun hm => (h.heap ni hm).trans_le hsize) id
  task t ht := (htask t ht).elim (fun hm => (h.task t hm).trans_le hsize) id
  parent n p hp := (hparent n p hp).elim
    (fun ⟨m, hm⟩ => (h.parent m p hm).trans_le hsize) id
  written l hl := (hwritten l hl).elim
    (fun hm => ⟨((h.written l hm).1).trans_le hsize,
      fun p hp => ((h.written l hm).2 p hp).trans_le hsize⟩) id

theorem Numbered.readLine (h : s.Numbered) (line : C2P) : (s.readLine line).Numbered := by
  have hrec := parseLine_recolors (s := s) line
  refine h.of_le hrec.size.ge (fun ni hni => .inl ?_) (fun t ht => .inl ?_)
    (fun n p hp => .inl ⟨n, ?_⟩) fun l hl => .inl ?_
  · rw [← hrec.leafHeap]
    exact hni
  · rw [← hrec.ptask]
    exact ht
  · rw [← hrec.parent]
    exact hp
  · rw [← hrec.written]
    exact hl

theorem Numbered.setState (h : s.Numbered) (n : Nat) (st : NodeState) :
    (s.setState n st).Numbered := by
  have hrec := (Recolored.refl s).setState n st
  refine h.of_le hrec.size.ge (fun ni hni => .inl hni) (fun t ht => .inl ht)
    (fun m p hp => .inl ⟨m, ?_⟩) fun l hl => .inl hl
  rw [← hrec.parent]
  exact hp

theorem newNode_numbers (unsat : Bool) (id : Nat) (pid : Option Nat) :
    (newNode unsat id pid).id = id ∧ (newNode unsat id pid).parent = pid := by
  cases unsat <;> exact ⟨rfl, rfl⟩

theorem Numbered.addChild (h : s.Numbered) {n : Nat} (hn : n < s.size) (t : TaskInfo K)
    (c : K.Content) : (s.addChild n t c).Numbered := by
  have hsize : (s.addChild n t c).size = s.size + 1 := rfl
  refine h.of_le (by omega) (fun ni hni => ?_) (fun t' ht => .inl ht) (fun m p hp => ?_)
    fun l hl => ?_
  · rcases List.mem_append.1 hni with hni | hni
    · exact .inl hni
    · unfold childLeaf at hni
      split at hni
      · cases hni
      · rw [List.mem_singleton.1 hni]
        exact .inr (Nat.lt_succ_self _)
  · have hp : (((s.mkNode (some n) c).setState s.size (childState c)).node m).parent = some p := hp
    rw [((Recolored.refl _).setState _ _).parent] at hp
    simp only [mkNode, Function.update_apply] at hp
    split at hp
    · cases hp
      exact .inr (by omega)
    · split at hp
      · exact .inl ⟨n, hp⟩
      · exact .inl ⟨m, hp⟩
  · rcases List.mem_append.1 hl with hl | hl
    · exact .inl hl
    · unfold childLine at hl
      split at hl
      · rw [List.mem_singleton.1 hl]
        obtain ⟨hid, hpar⟩ := newNode_numbers true s.size (some n)
        refine .inr ⟨by rw [hid]; exact Nat.lt_succ_self _, fun p hp => ?_⟩
        rw [hpar] at hp
        cases hp
        omega
      · cases hl

theorem Numbered.announce (h : s.Numbered) {t : TaskInfo K} (ht : s.ptask = some t)
    (cs : K.Candidates) (ch : Option (K.Content × K.Content)) : (s.announce t cs ch).Numbered := by
  have hlt := h.task t ht
  have hline : Numbered { s with
      aliveTaskNum := s.aliveTaskNum + 1
      written := s.written ++ [newNode false t.nodeId (s.node t.nodeId).parent]
      candidates := cs
      ptask := none
      phase := .poll } := by
    refine h.of_le (Nat.le_refl _) (fun ni hni => .inl hni) (fun t ht => by cases ht)
      (fun m p hp => .inl ⟨m, hp⟩) fun l hl => ?_
    rcases List.mem_append.1 hl with hl | hl
    · exact .inl hl
    · rw [List.mem_singleton.1 hl]
      obtain ⟨hid, hpar⟩ := newNode_numbers false t.nodeId (s.node t.nodeId).parent
      refine .inr ⟨by rw [hid]; exact hlt, fun p hp => ?_⟩
      rw [hpar] at hp
      exact h.parent _ p hp
  unfold Context.announce
  simp only
  have hwait := hline.setState t.nodeId .waiting
  cases ch with
  | none => exact hwait
  | some lr => exact (hwait.addChild hlt t lr.1).addChild (hlt.trans (Nat.lt_succ_self _)) t lr.2

theorem Numbered.createNewTask (h : s.Numbered) {ni : NodeInfo} (hni : ni ∈ s.leafHeap) :
    (s.createNewTask ni).Numbered := by
  have hlt := h.heap ni hni
  have herase : Numbered { s with leafHeap := s.leafHeap.erase ni } :=
    h.of_le (Nat.le_refl _) (fun m hm => .inl (List.mem_of_mem_erase hm)) (fun t ht => .inl ht)
      (fun m p hp => .inl ⟨m, hp⟩) fun l hl => .inl hl
  have hunsat := herase.setState ni.id .unsat
  unfold Context.createNewTask
  simp only
  split
  · exact hunsat
  · split
    · exact herase
    · split
      · exact hunsat
      · split
        · refine hunsat.of_le (Nat.le_refl _) (fun m hm => .inl hm) (fun t ht => .inl ht)
            (fun m p hp => .inl ⟨m, hp⟩) fun l hl => ?_
          rcases List.mem_append.1 hl with hl | hl
          · exact .inl hl
          · rw [List.mem_singleton.1 hl]
            obtain ⟨hid, hpar⟩ := newNode_numbers true ni.id (s.node ni.id).parent
            refine .inr ⟨by rw [hid]; exact hlt, fun p hp => ?_⟩
            rw [hpar] at hp
            exact h.parent _ p hp
        · refine herase.of_le (Nat.le_refl _) (fun m hm => .inl hm) (fun t ht => ?_)
            (fun m p hp => .inl ⟨m, hp⟩) fun l hl => .inl hl
          cases ht
          exact .inr hlt

/-- The root is made. -/
theorem numbered_root (c : K.Content) : ((empty (K := K)).mkNode none c).Numbered := by
  refine numbered_empty.of_le (Nat.zero_le _) (fun ni hni => .inl hni) (fun t ht => .inl ht)
    (fun n p hp => ?_) fun l hl => .inl hl
  simp only [mkNode, Function.update_apply] at hp
  split at hp <;> cases hp

/-- Nodes are never removed. -/
theorem step_size_le (hs : L2.Step K maxAlive s .tau s') : s.size ≤ s'.size := by
  cases hs with
  | initUnsat | propagateUnsat | init => exact Nat.zero_le _
  | enter | heapEmpty => exact Nat.le_refl _
  | @announce _ t _ _ ch _ _ _ _ =>
    cases ch with
    | none => exact Nat.le_refl _
    | some lr => exact (Nat.le_succ _).trans (Nat.le_succ _)
  | createNewTask _ _ =>
    unfold createNewTask
    simp only
    split
    · exact Nat.le_refl _
    · split
      · exact Nat.le_refl _
      · split
        · exact Nat.le_refl _
        · split <;> exact Nat.le_refl _
  | display =>
    unfold displayCurrentTask
    split <;> exact Nat.le_refl _

theorem Numbered.step (h : s.Numbered) (hs : L2.Step K maxAlive s .tau s') : s'.Numbered := by
  have same : ∀ {u : Context K}, u.Numbered → ∀ ph, Numbered { u with phase := ph } :=
    fun hu _ => ⟨hu.heap, hu.task, hu.parent, hu.written⟩
  cases hs with
  | @initUnsat c _ _ => exact same (numbered_root c) _
  | @propagateUnsat c₀ c _ _ _ _ => exact same (numbered_root c) _
  | @init c₀ c _ _ _ _ =>
    refine (numbered_root c).of_le (Nat.le_refl _) (fun ni hni => ?_) (fun t ht => .inl ht)
      (fun n p hp => .inl ⟨n, hp⟩) fun l hl => .inl hl
    rw [List.mem_singleton.1 hni]
    exact .inr Nat.one_pos
  | announce _ ht _ _ => exact h.announce ht _ _
  | enter _ _ => exact same h _
  | createNewTask _ hni => exact h.createNewTask hni.1
  | heapEmpty _ _ => exact same h _
  | display _ _ =>
    unfold displayCurrentTask
    split
    · exact same h _
    · exact ⟨h.heap, h.task, h.parent, h.written⟩

end Context

end AriParti.L2
