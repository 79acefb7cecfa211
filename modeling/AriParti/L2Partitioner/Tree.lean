import Mathlib.Data.Finset.Card
import Mathlib.Data.Finset.Range
import AriParti.L2Partitioner.Context

/-!
# The partition tree of the partitioner

What the two things that change the tree do to it: a line of the coordinator
moves nodes to other states and leaves the rest (`Recolored`), a split makes
two children and leaves the rest (`Split`). Along both, the counter of alive
tasks follows the WAITING nodes (`Counted`), and every UNSAT node has a reason
(`Reasons`).

## Results

* `Counted.readLine`, `Reasons.unsatNode`, `Reasons.terminateNode`: a line
  keeps both.
* `splitNode_split`: all that a split changes; `Split.counted` and
  `Split.reasons`: a split keeps both.
* `Reasons.leaf`: an UNSAT leaf was refuted, or an ancestor of it was.
-/
namespace AriParti.L2
open AriParti.Core

variable {K : Kernel}

namespace Context

variable {s s' : Context K}

theorem setState_node (n m : Nat) (st : NodeState) :
    (s.setState n st).node m = if m = n then { s.node n with state := st } else s.node m := by
  simp [setState, Function.update_apply]

theorem setState_state (n m : Nat) (st : NodeState) :
    ((s.setState n st).node m).state = if m = n then st else (s.node m).state := by
  rw [setState_node]
  split <;> rfl

/-- `s'` differs from `s` in node states and in the counter of alive tasks. -/
structure Recolored (s s' : Context K) : Prop where
  size : s'.size = s.size
  parent : ∀ n, (s'.node n).parent = (s.node n).parent
  depth : ∀ n, (s'.node n).depth = (s.node n).depth
  children : ∀ n, (s'.node n).children = (s.node n).children
  content : ∀ n, (s'.node n).content = (s.node n).content
  leafHeap : s'.leafHeap = s.leafHeap
  ptask : s'.ptask = s.ptask
  candidates : s'.candidates = s.candidates
  written : s'.written = s.written
  read : s'.read = s.read
  files : s'.files = s.files
  phase : s'.phase = s.phase

theorem Recolored.refl (s : Context K) : Recolored s s :=
  ⟨rfl, fun _ => rfl, fun _ => rfl, fun _ => rfl, fun _ => rfl, rfl, rfl, rfl, rfl, rfl, rfl, rfl⟩

theorem Recolored.setState (h : Recolored s s') (n : Nat) (st : NodeState) :
    Recolored s (s'.setState n st) where
  size := h.size
  parent m := by rw [← h.parent, setState_node]; split <;> simp_all
  depth m := by rw [← h.depth, setState_node]; split <;> simp_all
  children m := by rw [← h.children, setState_node]; split <;> simp_all
  content m := by rw [← h.content, setState_node]; split <;> simp_all
  leafHeap := h.leafHeap
  ptask := h.ptask
  candidates := h.candidates
  written := h.written
  read := h.read
  files := h.files
  phase := h.phase

/-- The counter is left out of `Recolored`. -/
theorem Recolored.counter (h : Recolored s s') (k : Nat) :
    Recolored s { s' with aliveTaskNum := k } :=
  ⟨h.size, h.parent, h.depth, h.children, h.content, h.leafHeap, h.ptask, h.candidates, h.written,
    h.read, h.files, h.phase⟩

theorem nodeSolvedUnsat_recolors (n : Nat) : Recolored s (s.nodeSolvedUnsat n) := by
  rw [nodeSolvedUnsat_eq]
  split
  · exact .refl s
  · exact tree.spread_keeps (fun m _ h => (h.setState m .unsat).counter _) _ n
      (((Recolored.refl s).setState n .unsat).counter _)

theorem parseLine_recolors (line : C2P) : Recolored s (s.parseLine line) := by
  cases line with
  | unsatNode id => exact nodeSolvedUnsat_recolors id
  | terminateNode id =>
    show Recolored s (if _ then _ else s)
    split
    · exact ((Recolored.refl s).setState id .terminated).counter _
    · exact .refl s

/-! ## The counter of alive tasks -/

def waitingNodes (s : Context K) : Finset Nat :=
  (Finset.range s.size).filter fun n => (s.node n).state = .waiting

theorem mem_waitingNodes {n : Nat} :
    n ∈ s.waitingNodes ↔ n < s.size ∧ (s.node n).state = .waiting := by
  simp [waitingNodes]

/-- `m_alive_task_num` counts the WAITING nodes. -/
structure Counted (s : Context K) : Prop where
  alive : s.aliveTaskNum = s.waitingNodes.card
  made : ∀ n, (s.node n).state = .waiting → n < s.size

/-- Moving a node to another state takes it off the counter if it was
WAITING. -/
theorem Counted.leave (h : s.Counted) (n : Nat) {st : NodeState} (hst : st ≠ .waiting) :
    Counted { s.setState n st with
      aliveTaskNum := if (s.node n).state = .waiting then s.aliveTaskNum - 1
        else s.aliveTaskNum } := by
  have hset : waitingNodes { s.setState n st with
      aliveTaskNum := if (s.node n).state = .waiting then s.aliveTaskNum - 1
        else s.aliveTaskNum } = s.waitingNodes.erase n := by
    ext m
    rw [Finset.mem_erase, mem_waitingNodes, mem_waitingNodes]
    show m < s.size ∧ ((s.setState n st).node m).state = .waiting ↔ _
    rw [setState_state]
    by_cases hmn : m = n <;> simp [hmn, hst]
  refine ⟨?_, fun m hm => ?_⟩
  · rw [hset]
    show (if (s.node n).state = .waiting then s.aliveTaskNum - 1 else s.aliveTaskNum) = _
    by_cases hw : (s.node n).state = .waiting
    · rw [if_pos hw, h.alive, Finset.card_erase_of_mem (mem_waitingNodes.2 ⟨h.made n hw, hw⟩)]
    · rw [if_neg hw, h.alive, Finset.erase_eq_of_notMem fun hm => hw (mem_waitingNodes.1 hm).2]
  · have hm : ((s.setState n st).node m).state = .waiting := hm
    rw [setState_state] at hm
    split at hm
    · exact absurd hm hst
    · exact h.made m hm

theorem Counted.nodeSolvedUnsat (h : s.Counted) (n : Nat) : (s.nodeSolvedUnsat n).Counted := by
  rw [nodeSolvedUnsat_eq]
  split
  · exact h
  · exact tree.spread_keeps (fun m s h => h.leave m (by decide)) _ n (h.leave n (by decide))

/-- Under a line of the coordinator the counter follows the WAITING nodes. -/
theorem Counted.readLine (h : s.Counted) (line : C2P) : (s.readLine line).Counted := by
  have key : (s.parseLine line).Counted := by
    cases line with
    | unsatNode id => exact h.nodeSolvedUnsat id
    | terminateNode id =>
      show Counted (if _ then _ else s)
      split
      · rename_i hw
        have := h.leave id (by decide : NodeState.terminated ≠ .waiting)
        rw [if_pos hw] at this
        exact this
      · exact h
  exact ⟨key.alive, key.made⟩

/-! ## How a line changes the states -/

theorem nodeSolvedUnsat_state (n m : Nat) :
    ((s.nodeSolvedUnsat n).node m).state = (s.node m).state ∨
      ((s.nodeSolvedUnsat n).node m).state = .unsat := by
  rw [nodeSolvedUnsat_eq]
  split
  · exact .inl rfl
  · have mark : ∀ k t, ((t : Context K).node m).state = (s.node m).state ∨
        (t.node m).state = .unsat →
        ((t.updateNodeStateUnsat k).node m).state = (s.node m).state ∨
          ((t.updateNodeStateUnsat k).node m).state = .unsat := by
      intro k t ht
      show ((t.setState k .unsat).node m).state = _ ∨ ((t.setState k .unsat).node m).state = _
      rw [setState_state]
      split
      · exact .inr rfl
      · exact ht
    exact tree.spread_keeps mark _ n (mark n s (.inl rfl))

theorem nodeSolvedUnsat_unsat (n : Nat) : ((s.nodeSolvedUnsat n).node n).state = .unsat := by
  rw [nodeSolvedUnsat_eq]
  split
  · assumption
  · have mark : ∀ k t, ((t : Context K).node n).state = .unsat →
        ((t.updateNodeStateUnsat k).node n).state = .unsat := by
      intro k t ht
      show ((t.setState k .unsat).node n).state = .unsat
      rw [setState_state]
      split
      · rfl
      · exact ht
    refine tree.spread_keeps mark _ n ?_
    show ((s.setState n .unsat).node n).state = .unsat
    rw [setState_state, if_pos rfl]

theorem terminateNode_state (id m : Nat) :
    ((s.parseLine (.terminateNode id)).node m).state =
      if m = id ∧ (s.node id).state = .waiting then .terminated else (s.node m).state := by
  show ((if (s.node id).state = .waiting then _ else s : Context K).node m).state = _
  by_cases hw : (s.node id).state = .waiting
  · rw [if_pos hw]
    show ((s.setState id .terminated).node m).state = _
    rw [setState_state]
    simp [hw]
  · rw [if_neg hw]
    simp [hw]

theorem parseLine_state (line : C2P) (m : Nat) :
    ((s.parseLine line).node m).state = (s.node m).state ∨
      ((s.parseLine line).node m).state = .unsat ∨
      (line = .terminateNode m ∧ (s.node m).state = .waiting ∧
        ((s.parseLine line).node m).state = .terminated) := by
  cases line with
  | unsatNode id =>
    rcases nodeSolvedUnsat_state (s := s) id m with h | h
    · exact .inl h
    · exact .inr (.inl h)
  | terminateNode id =>
    rw [terminateNode_state]
    by_cases hm : m = id ∧ (s.node id).state = .waiting
    · obtain ⟨rfl, hw⟩ := hm
      simp [hw]
    · exact .inl (if_neg hm)

/-! ## Why a node is UNSAT -/

/-- Refuted by the partitioner (propagation or conversion) or reported unsat
by the coordinator. -/
def FoundUnsat (s : Context K) (n : Nat) : Prop :=
  n < s.size ∧ (K.inconsistent (s.node n).content = true ∨
    K.convert (s.node n).content = none ∨ .unsatNode n ∈ s.read)

def childrenOf (s : Context K) (n : Nat) : List Nat := (s.node n).children

/-- UNSAT nodes have a reason, and pass it on to their children. -/
structure Reasons (s : Context K) : Prop where
  sound : ∀ n, (s.node n).state = .unsat → Refuted 0 s.childrenOf s.FoundUnsat n
  down : ∀ n, (s.node n).state = .unsat → ∀ c ∈ s.childrenOf n, (s.node c).state = .unsat

theorem Recolored.childrenOf (h : Recolored s s') : s'.childrenOf = s.childrenOf :=
  funext h.children

theorem Recolored.grown (h : Recolored s s') (hg : tree.Grown s) : tree.Grown s' where
  parentLt c p hp := hg.parentLt c p ((h.parent c).symm.trans hp)
  child p c := by
    show c ∈ (s'.node p).children ↔ c < s'.size ∧ (s'.node c).parent = some p
    rw [h.children, h.size, h.parent]
    exact hg.child p c

/-- An UNSAT leaf was refuted, or a node above it was. -/
theorem Reasons.leaf (h : s.Reasons) {n : Nat} (hn : (s.node n).state = .unsat)
    (hleaf : s.childrenOf n = []) : ∃ a, Below s.childrenOf a n ∧ s.FoundUnsat a :=
  (h.sound n hn).leaf hleaf

/-- Refuted nodes are nodes. -/
theorem refuted_lt (hg : tree.Grown s) {n : Nat} (h : Refuted 0 s.childrenOf s.FoundUnsat n) :
    n < s.size := by
  refine h.least (fun m hm => hm.1) (fun p c _ hc => ((hg.child p c).1 hc).1) ?_
  intro m hne _ hall
  obtain ⟨c, hc⟩ := List.exists_mem_of_ne_nil _ hne
  have := hg.parentLt c m ((hg.child m c).1 hc).2
  have := hall c hc
  omega

theorem marked_iff {n : Nat} : tree.marked s n = true ↔ (s.node n).state = .unsat := by
  simp [tree]

theorem FoundUnsat.readLine (line : C2P) {n : Nat} (hn : s.FoundUnsat n) :
    (s.readLine line).FoundUnsat n := by
  have hc := (parseLine_recolors (s := s) line).content n
  have hnode : ((s.readLine line).node n).content = (s.node n).content := hc
  have hsize : (s.readLine line).size = s.size := (parseLine_recolors (s := s) line).size
  unfold FoundUnsat
  rw [hnode, hsize]
  refine ⟨hn.1, ?_⟩
  rcases hn.2 with h | h | h
  · exact .inl h
  · exact .inr (.inl h)
  · exact .inr (.inr (List.mem_append_left _ h))

theorem readLine_childrenOf (line : C2P) : (s.readLine line).childrenOf = s.childrenOf :=
  (parseLine_recolors (s := s) line).childrenOf

/-- A leaf may be marked when it was refuted. -/
theorem Reasons.refute (h : s.Reasons) {n : Nat}
    (hleaf : (s.node n).children = []) (hn : s.FoundUnsat n) :
    (s.setState n .unsat).Reasons := by
  have hrec := (Recolored.refl s).setState n .unsat
  have hfound : ∀ m, s.FoundUnsat m → (s.setState n .unsat).FoundUnsat m := by
    intro m hm
    unfold FoundUnsat at hm ⊢
    rwa [hrec.content, hrec.size, hrec.read]
  refine ⟨fun m hm => ?_, fun m hm c hc => ?_⟩
  · rw [hrec.childrenOf]
    rw [setState_state] at hm
    split at hm
    · rename_i he
      rw [he]
      exact .base (hfound n hn)
    · exact (h.sound m hm).mono hfound
  · rw [hrec.childrenOf] at hc
    rw [setState_state] at hm ⊢
    split at hm
    · rename_i he
      rw [he] at hc
      have hc : c ∈ (s.node n).children := hc
      rw [hleaf] at hc
      exact absurd hc List.not_mem_nil
    · split
      · rfl
      · exact h.down m hm c hc

/-- A terminated node is not refuted by it. -/
theorem Reasons.terminateNode (h : s.Reasons) (id : Nat) :
    (s.readLine (.terminateNode id)).Reasons := by
  have key : ∀ m, ((s.readLine (.terminateNode id)).node m).state = .unsat ↔
      (s.node m).state = .unsat := by
    intro m
    show ((s.parseLine (.terminateNode id)).node m).state = .unsat ↔ _
    rw [terminateNode_state]
    by_cases hm : m = id ∧ (s.node id).state = .waiting
    · obtain ⟨rfl, hw⟩ := hm
      simp [hw]
    · rw [if_neg hm]
  refine ⟨fun n hn => ?_, fun n hn c hc => ?_⟩
  · rw [readLine_childrenOf]
    exact (h.sound n ((key n).1 hn)).mono fun m hm => hm.readLine _
  · rw [readLine_childrenOf] at hc
    exact (key c).2 (h.down n ((key n).1 hn) c hc)

/-- What `node_solved_unsat` marks is refuted by the new mark and those before
it. -/
theorem nodeSolvedUnsat_refutes (hg : tree.Grown s)
    (hdown : ∀ n, (s.node n).state = .unsat → ∀ c ∈ s.childrenOf n, (s.node c).state = .unsat)
    {id : Nat} (hlt : id < s.size) :
    (∀ n, ((s.nodeSolvedUnsat id).node n).state = .unsat →
      Refuted 0 s.childrenOf (fun m => m = id ∨ (s.node m).state = .unsat) n) ∧
    ∀ n, ((s.nodeSolvedUnsat id).node n).state = .unsat →
      ∀ c ∈ s.childrenOf n, ((s.nodeSolvedUnsat id).node c).state = .unsat := by
  by_cases hu : (s.node id).state = .unsat
  · have heq : s.nodeSolvedUnsat id = s := (s.nodeSolvedUnsat_eq id).trans (if_pos hu)
    rw [heq]
    exact ⟨fun n hn => .base (.inr hn), hdown⟩
  · have heq : s.nodeSolvedUnsat id = tree.spread 0 (tree.mark id s) id :=
      (s.nodeSolvedUnsat_eq id).trans (if_neg hu)
    have hmark := (MarkedTree.Extends.refl tree s).mark id
    have hm : tree.marked (tree.mark id s) id = true := by
      rw [tree.marked_mark]
      simp
    have hopen : tree.DownClosed (· = id) (tree.mark id s) := by
      intro y hy hmy c hc
      apply hmark.marked c
      rw [marked_iff]
      rw [tree.marked_mark, Bool.or_eq_true, beq_iff_eq] at hmy
      rw [tree.children_mark] at hc
      rcases hmy with hmy | hmy
      · exact absurd hmy hy
      · exact hdown y (marked_iff.1 hmy) c hc
    obtain ⟨hd, hs⟩ := MarkedTree.spread_sound (k := 0) (hmark.grown hg) hlt hm hopen
    rw [← heq] at hd hs
    refine ⟨fun n hn => ?_, fun n hn c hc => ?_⟩
    · have := hs n (marked_iff.2 hn)
      rw [tree.children_mark] at this
      refine this.mono fun m hmm => ?_
      rw [tree.marked_mark, Bool.or_eq_true, beq_iff_eq] at hmm
      exact hmm.imp_right marked_iff.1
    · rw [← (nodeSolvedUnsat_recolors id).childrenOf] at hc
      exact marked_iff.1 (hd n (fun hf => hf) (marked_iff.2 hn) c hc)

/-- What `node_solved_unsat` marks has the new line for a reason. -/
theorem Reasons.unsatNode (hg : tree.Grown s) (h : s.Reasons) {id : Nat} (hlt : id < s.size) :
    (s.readLine (.unsatNode id)).Reasons := by
  obtain ⟨hsound, hdown⟩ := nodeSolvedUnsat_refutes hg h.down hlt
  have hnew : (s.readLine (.unsatNode id)).FoundUnsat id := by
    refine ⟨?_, .inr (.inr (List.mem_append_right _ List.mem_cons_self))⟩
    show id < (s.parseLine (.unsatNode id)).size
    rwa [(parseLine_recolors (s := s) _).size]
  refine ⟨fun n hn => ?_, fun n hn c hc => ?_⟩
  · rw [readLine_childrenOf]
    refine ((hsound n hn).mono fun m hm => ?_).idem
    rcases hm with rfl | hm
    · exact .base hnew
    · exact (h.sound m hm).mono fun k hk => hk.readLine _
  · rw [readLine_childrenOf] at hc
    exact hdown n hn c hc

/-! ## What a split changes -/

/-- `s'` is `s` with the two children of `n` made. -/
structure Split (s s' : Context K) (n : Nat) (t : TaskInfo K) (l r : K.Content) : Prop where
  size : s'.size = s.size + 2
  left : s'.node s.size = ⟨some n, (s.node n).depth + 1, [], l, childState l⟩
  right : s'.node (s.size + 1) = ⟨some n, (s.node n).depth + 1, [], r, childState r⟩
  parent : s'.node n = { s.node n with children := [s.size + 1, s.size] }
  other : ∀ m, m ≠ n → m ≠ s.size → m ≠ s.size + 1 → s'.node m = s.node m
  aliveTaskNum : s'.aliveTaskNum = s.aliveTaskNum
  leafHeap : s'.leafHeap = s.leafHeap ++ childLeaf t l s.size ++ childLeaf t r (s.size + 1)
  ptask : s'.ptask = s.ptask
  written : s'.written = s.written ++ childLine n l s.size ++ childLine n r (s.size + 1)
  read : s'.read = s.read
  files : s'.files = s.files
  phase : s'.phase = s.phase

theorem addChild_node (n : Nat) (t : TaskInfo K) (c : K.Content) (m : Nat) :
    (s.addChild n t c).node m =
      if m = s.size then ⟨some n, (s.node n).depth + 1, [], c, childState c⟩
      else if m = n then { s.node n with children := s.size :: (s.node n).children }
      else s.node m := by
  show ((s.mkNode (some n) c).setState s.size (childState c)).node m = _
  rw [setState_node]
  simp only [mkNode, Function.update_apply]
  by_cases hm : m = s.size
  · simp [hm]
  · by_cases hmn : m = n
    · subst hmn
      simp [hm]
    · simp [hm, hmn]

theorem splitNode_split {n : Nat} (hn : n < s.size) (hleaf : (s.node n).children = [])
    (t : TaskInfo K) (l r : K.Content) :
    Split s (s.splitNode n t (some (l, r))) n t l r := by
  have hsize : (s.addChild n t l).size = s.size + 1 := rfl
  have hne : n ≠ s.size := by omega
  have hnode : ∀ m, (s.splitNode n t (some (l, r))).node m =
      if m = s.size + 1 then ⟨some n, (s.node n).depth + 1, [], r, childState r⟩
      else if m = n then { s.node n with children := [s.size + 1, s.size] }
      else if m = s.size then ⟨some n, (s.node n).depth + 1, [], l, childState l⟩
      else s.node m := by
    intro m
    show ((s.addChild n t l).addChild n t r).node m = _
    rw [addChild_node, hsize, addChild_node, addChild_node, if_neg hne, if_pos rfl, hleaf]
    by_cases h1 : m = s.size + 1
    · simp [h1]
    · by_cases h2 : m = n
      · simp [h2]
      · by_cases h3 : m = s.size <;> simp [h1, h2, h3]
  constructor
  · rfl
  · rw [hnode]
    simp [hne.symm]
  · rw [hnode]
    simp
  · rw [hnode]
    simp [show n ≠ s.size + 1 by omega]
  · intro m h1 h2 h3
    rw [hnode]
    simp [h1, h2, h3]
  all_goals rfl

/-- A derivation stays one when a leaf gets children. -/
theorem refuted_grow {ch ch' : Nat → List Nat} {B B' : Nat → Prop}
    (hch : ∀ x, ch x ≠ [] → ch' x = ch x) (hB : ∀ x, B x → B' x) {m : Nat}
    (h : Refuted 0 ch B m) : Refuted 0 ch' B' m := by
  induction h with
  | base hb => exact .base (hB _ hb)
  | down _ hc ih =>
    apply Refuted.down ih
    rwa [hch _ (List.ne_nil_of_mem hc)]
  | up hne hk _ ih =>
    apply Refuted.up
    · rwa [hch _ hne]
    · exact Nat.zero_le _
    · rwa [hch _ hne]

section
variable {n : Nat} {t : TaskInfo K} {l r : K.Content}

theorem Split.grown (h : Split s s' n t l r) (hg : tree.Grown s) (hn : n < s.size)
    (hleaf : (s.node n).children = []) : tree.Grown s' := by
  have hpar : ∀ c, (s'.node c).parent =
      if c = s.size ∨ c = s.size + 1 then some n else (s.node c).parent := by
    intro c
    by_cases h1 : c = s.size
    · simp [h1, h.left]
    · by_cases h2 : c = s.size + 1
      · simp [h2, h.right]
      · by_cases h3 : c = n
        · simp [h3, h.parent, show n ≠ s.size by omega, show n ≠ s.size + 1 by omega]
        · simp [h1, h2, h.other c h3 h1 h2]
  -- numbers past the end of the table are nobody's child
  refine ⟨fun c p hp => ?_, fun p c => ?_⟩
  · have hp : (s'.node c).parent = some p := hp
    rw [hpar] at hp
    split at hp
    · simp only [Option.some.injEq] at hp
      omega
    · exact hg.parentLt c p hp
  · show c ∈ (s'.node p).children ↔ c < s'.size ∧ (s'.node c).parent = some p
    rw [hpar, h.size]
    by_cases hpn : p = n
    · subst hpn
      rw [h.parent]
      have hold := hg.child p c
      have hold : c ∈ (s.node p).children ↔ c < s.size ∧ (s.node c).parent = some p := hold
      rw [hleaf] at hold
      by_cases hc : c = s.size ∨ c = s.size + 1
      · simp only [if_pos hc, and_true, List.mem_cons, List.not_mem_nil, or_false]
        omega
      · rw [if_neg hc]
        simp only [List.not_mem_nil, false_iff, not_and] at hold
        simp only [List.mem_cons, List.not_mem_nil, or_false]
        exact ⟨fun h => absurd h.symm (by tauto), fun h => absurd h.2 (hold (by omega))⟩
    · have hnew : ∀ x, x = s.size ∨ x = s.size + 1 → (s'.node x).children = [] := by
        intro x hx
        rcases hx with rfl | rfl
        · rw [h.left]
        · rw [h.right]
      by_cases hps : p = s.size ∨ p = s.size + 1
      · rw [hnew p hps]
        simp only [List.not_mem_nil, false_iff, not_and]
        intro hc hcp
        split at hcp
        · exact hpn (Option.some.inj hcp).symm
        · have := hg.parentLt c p hcp
          omega
      · rw [h.other p hpn (by tauto) (by tauto)]
        have hold : c ∈ (s.node p).children ↔ c < s.size ∧ (s.node c).parent = some p :=
          hg.child p c
        rw [hold]
        by_cases hc : c = s.size ∨ c = s.size + 1
        · rw [if_pos hc]
          simp only [Option.some.injEq, Ne.symm hpn, and_false, iff_false, not_and]
          omega
        · rw [if_neg hc]
          exact and_congr_left fun _ => by omega

theorem Split.state (h : Split s s' n t l r) (m : Nat) (hm : m < s.size) :
    (s'.node m).state = (s.node m).state := by
  by_cases hmn : m = n
  · rw [hmn, h.parent]
  · rw [h.other m hmn (by omega) (by omega)]

theorem Split.content (h : Split s s' n t l r) (m : Nat) (hm : m < s.size) :
    (s'.node m).content = (s.node m).content := by
  by_cases hmn : m = n
  · rw [hmn, h.parent]
  · rw [h.other m hmn (by omega) (by omega)]

theorem Split.counted (h : Split s s' n t l r) (hc : s.Counted) : s'.Counted := by
  have hchild : ∀ c : K.Content, childState c ≠ .waiting := by
    intro c
    unfold childState
    split <;> decide
  have hwait : ∀ m, (s'.node m).state = .waiting → m < s.size ∧ (s.node m).state = .waiting := by
    intro m hm
    by_cases h1 : m = s.size
    · rw [h1, h.left] at hm
      exact absurd hm (hchild l)
    · by_cases h2 : m = s.size + 1
      · rw [h2, h.right] at hm
        exact absurd hm (hchild r)
      · by_cases h3 : m = n
        · rw [h3, h.parent] at hm
          rw [h3]
          exact ⟨hc.made n hm, hm⟩
        · rw [h.other m h3 h1 h2] at hm
          exact ⟨hc.made m hm, hm⟩
  have hset : s'.waitingNodes = s.waitingNodes := by
    ext m
    rw [mem_waitingNodes, mem_waitingNodes]
    refine ⟨fun hm => hwait m hm.2, fun hm => ⟨?_, ?_⟩⟩
    · rw [h.size]
      omega
    · rw [h.state m hm.1]
      exact hm.2
  refine ⟨by rw [hset, h.aliveTaskNum, hc.alive], fun m hm => ?_⟩
  rw [h.size]
  have := (hwait m hm).1
  omega

/-- A node that has no children gets two. -/
theorem Split.childrenOf (h : Split s s' n t l r) (hg : tree.Grown s)
    (hleaf : (s.node n).children = []) :
    ∀ x, s.childrenOf x ≠ [] → s'.childrenOf x = s.childrenOf x := by
  intro x hx
  obtain ⟨c, hc⟩ := List.exists_mem_of_ne_nil _ hx
  obtain ⟨hlt, hp⟩ := (hg.child x c).1 hc
  have hxc := hg.parentLt c x hp
  have hlt : c < s.size := hlt
  show (s'.node x).children = (s.node x).children
  rw [h.other x (fun hxn => hx (hxn ▸ hleaf)) (by omega) (by omega)]

theorem Split.reasons (h : Split s s' n t l r) (hg : tree.Grown s) (hr : s.Reasons)
    (hleaf : (s.node n).children = []) (hs : (s.node n).state ≠ .unsat) : s'.Reasons := by
  have hch := h.childrenOf hg hleaf
  have hfound : ∀ x, s.FoundUnsat x → s'.FoundUnsat x := by
    intro x hf
    unfold FoundUnsat at hf ⊢
    rw [h.content x hf.1, h.read, h.size]
    exact ⟨by omega, hf.2⟩
  -- a new child is UNSAT because it is inconsistent
  have hchild : ∀ c : K.Content, childState c = .unsat → K.inconsistent c = true := by
    intro c hc
    unfold childState at hc
    split at hc
    · assumption
    · cases hc
  have hold : ∀ m, m ≠ s.size → m ≠ s.size + 1 → (s'.node m).state = (s.node m).state := by
    intro m h1 h2
    by_cases h3 : m = n
    · rw [h3, h.parent]
    · rw [h.other m h3 h1 h2]
  refine ⟨fun m hm => ?_, fun m hm c hc => ?_⟩
  · by_cases h1 : m = s.size
    · apply Refuted.base
      refine ⟨by rw [h.size]; omega, .inl ?_⟩
      rw [h1, h.left] at hm ⊢
      exact hchild l hm
    · by_cases h2 : m = s.size + 1
      · apply Refuted.base
        refine ⟨by rw [h.size]; omega, .inl ?_⟩
        rw [h2, h.right] at hm ⊢
        exact hchild r hm
      · rw [hold m h1 h2] at hm
        exact refuted_grow hch hfound (hr.sound m hm)
  · have hc : c ∈ (s'.node m).children := hc
    by_cases h1 : m = s.size
    · rw [h1, h.left] at hc
      exact absurd hc List.not_mem_nil
    · by_cases h2 : m = s.size + 1
      · rw [h2, h.right] at hc
        exact absurd hc List.not_mem_nil
      · rw [hold m h1 h2] at hm
        have hmn : m ≠ n := by
          rintro rfl
          exact hs hm
        rw [h.other m hmn h1 h2] at hc
        have hlt : c < s.size := ((hg.child m c).1 hc).1
        rw [hold c (by omega) (by omega)]
        exact hr.down m hm c hc

end

end Context

end AriParti.L2
