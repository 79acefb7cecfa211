import AriParti.L2Partitioner.Genealogy

/-!
# The states of the nodes and the two pipes

What `m_nodes_state` owes to the lines written and read. A node is UNSAT by the
lines about it and by the rules of the tree, and TERMINATED by a line of the
coordinator; no node is announced twice.

The process pushes an UNSAT mark up only when it reads `unsat_node`. A node
that it refutes by itself, at a split or by its conversion, is marked and
announced and no more, so its parent stays as it is even when it was the last
child that was not UNSAT. `PushedUp` says that this has not happened, and
`Unpaired` is the condition on the lines of a step under which it does not.

## Results

* `told_inductive`: `Told` in every run.
* `step_pushedUp`: a step whose lines are unpaired keeps `PushedUp`.
-/
namespace AriParti.L2
open AriParti.Core

/-- The node a line is about. -/
def P2C.id : P2C → Nat
  | .newUnknownNode id _ => id
  | .newUnsatNode id _ => id

variable {K : Kernel} {maxAlive : Nat}

namespace Context

variable {s s' : Context K}

/-- Reported unsat on one of the pipes. -/
def ToldUnsat (s : Context K) (n : Nat) : Prop :=
  (∃ pid, .newUnsatNode n pid ∈ s.written) ∨ .unsatNode n ∈ s.read

/-- The states and the lines. -/
structure Told (s : Context K) : Prop where
  distinct : (s.written.map P2C.id).Nodup
  twins : ∀ n, (s.node n).children.Nodup
  sound : ∀ n, (s.node n).state = .unsat → Refuted 0 s.childrenOf s.ToldUnsat n
  unsat : ∀ n, .unsatNode n ∈ s.read → (s.node n).state = .unsat
  ended : ∀ n, .terminateNode n ∈ s.read →
    (s.node n).state = .terminated ∨ (s.node n).state = .unsat
  terminated : ∀ n, (s.node n).state = .terminated → .terminateNode n ∈ s.read

/-- A node whose children are all UNSAT is UNSAT. -/
def PushedUp (s : Context K) : Prop :=
  ∀ n, s.childrenOf n ≠ [] → (∀ c ∈ s.childrenOf n, (s.node c).state = .unsat) →
    (s.node n).state = .unsat

/-- No line of `ls` is about a refuted child whose sibling is UNSAT, before the
step or by another of these lines. -/
def Unpaired (s : Context K) (ls : List P2C) : Prop :=
  ∀ n m p, .newUnsatNode n (some p) ∈ ls → m ≠ n →
    ¬ (.newUnsatNode m (some p) ∈ ls ∨ m ∈ s.childrenOf p ∧ (s.node m).state = .unsat)

/-! ## One step -/

/-- A step that leaves the nodes and the pipes alone. -/
theorem Told.idle (h : s.Told) (hnode : s'.node = s.node) (hw : s'.written = s.written)
    (hr : s'.read = s.read) : s'.Told := by
  have hch : s'.childrenOf = s.childrenOf := by
    unfold childrenOf
    rw [hnode]
  have hu : s'.ToldUnsat = s.ToldUnsat := by
    unfold ToldUnsat
    rw [hw, hr]
  constructor <;> simp only [hnode, hw, hr, hch, hu]
  · exact h.distinct
  · exact h.twins
  · exact h.sound
  · exact h.unsat
  · exact h.ended
  · exact h.terminated

theorem PushedUp.idle (h : s.PushedUp) (hnode : s'.node = s.node) : s'.PushedUp := by
  unfold PushedUp childrenOf at *
  rw [hnode]
  exact h

theorem root_told (c : K.Content) (heap : List NodeInfo) (ph : Phase) :
    Told { (empty (K := K)).mkNode none c with leafHeap := heap, phase := ph } := by
  have hstate := root_state c
  refine ⟨List.nodup_nil, fun n => ?_, fun n hn => ?_, fun n hn => absurd hn List.not_mem_nil,
    fun n hn => absurd hn List.not_mem_nil, fun n hn => ?_⟩
  · show (((empty (K := K)).mkNode none c).node n).children.Nodup
    simp only [mkNode, empty, noNode, Function.update_apply]
    split <;> exact List.nodup_nil
  · rw [show _ = NodeState.unconverted from hstate n] at hn
    cases hn
  · rw [show _ = NodeState.unconverted from hstate n] at hn
    cases hn

/-- A node that is still to be converted is in no line. -/
theorem Lines.fresh (h : s.Lines) {n : Nat} (hn : s.size ≤ n ∨ (s.node n).state = .unconverted) :
    n ∉ s.written.map P2C.id := by
  intro hm
  obtain ⟨line, hline, rfl⟩ := List.mem_map.1 hm
  cases line with
  | newUnknownNode id pid =>
    obtain ⟨hlt, -, hs⟩ := h.unknown id pid hline
    exact hn.elim (fun hle => absurd hlt (Nat.not_lt.2 hle)) hs
  | newUnsatNode id pid =>
    obtain ⟨hlt, -, hs⟩ := h.unsat id pid hline
    refine hn.elim (fun hle => absurd hlt (Nat.not_lt.2 hle)) fun hu => ?_
    rw [show (s.node id).state = _ from hu] at hs
    cases hs

/-- A leaf is refuted by its conversion. -/
theorem Told.refute (h : s.Told) (hl : s.Lines) {n : Nat} (hn : (s.node n).state = .unconverted)
    {pid : Option Nat} (hnode : s'.node = (s.setState n .unsat).node)
    (hw : s'.written = s.written ++ [.newUnsatNode n pid]) (hr : s'.read = s.read) : s'.Told := by
  have hstate : ∀ m, (s'.node m).state = if m = n then .unsat else (s.node m).state := by
    intro m
    rw [hnode]
    exact setState_state n m .unsat
  have hrec := (Recolored.refl s).setState n .unsat
  have hch : s'.childrenOf = s.childrenOf := by
    unfold childrenOf
    rw [hnode]
    exact hrec.childrenOf
  have htold : ∀ m, s.ToldUnsat m → s'.ToldUnsat m := by
    intro m hm
    unfold ToldUnsat at hm ⊢
    rw [hw, hr]
    exact hm.imp_left fun ⟨q, hq⟩ => ⟨q, List.mem_append_left _ hq⟩
  constructor
  · rw [hw, List.map_append]
    exact List.nodup_append_comm.1 (List.nodup_cons.2 ⟨hl.fresh (.inr hn), h.distinct⟩)
  · intro m
    rw [hnode, hrec.children]
    exact h.twins m
  · intro m hm
    rw [hch]
    rw [hstate] at hm
    split at hm
    · rename_i he
      rw [he]
      refine .base (.inl ⟨pid, ?_⟩)
      rw [hw]
      exact List.mem_append_right _ List.mem_cons_self
    · exact (h.sound m hm).mono htold
  · intro m hm
    rw [hr] at hm
    rw [hstate]
    split
    · rfl
    · exact h.unsat m hm
  · intro m hm
    rw [hr] at hm
    rw [hstate]
    split
    · exact .inr rfl
    · exact h.ended m hm
  · intro m hm
    rw [hstate] at hm
    rw [hr]
    split at hm
    · cases hm
    · exact h.terminated m hm

/-- The task of a node is announced. -/
theorem Told.enlist (h : s.Told) (hi : s.Inv) (hl : s.Lines) {t : TaskInfo K}
    (ht : s.ptask = some t) (cs : K.Candidates) : (s.enlist t cs).Told := by
  have hpend := hi.task t ht
  have hstate := enlist_state (s := s) t cs
  have hch : (s.enlist t cs).childrenOf = s.childrenOf := funext fun n => (enlist_node t cs n).2.1
  have hw : (s.enlist t cs).written =
      s.written ++ [.newUnknownNode t.nodeId (s.node t.nodeId).parent] := rfl
  have htold : ∀ m, s.ToldUnsat m → (s.enlist t cs).ToldUnsat m := by
    intro m hm
    unfold ToldUnsat at hm ⊢
    rw [hw]
    exact hm.imp_left fun ⟨q, hq⟩ => ⟨q, List.mem_append_left _ hq⟩
  -- a node in a line of the coordinator is not the one announced
  have hother : ∀ m, (s.node m).state = .terminated ∨ (s.node m).state = .unsat →
      m ≠ t.nodeId := by
    rintro m hm rfl
    rw [hpend.state] at hm
    rcases hm with hm | hm <;> cases hm
  constructor
  · rw [hw, List.map_append]
    exact List.nodup_append_comm.1 (List.nodup_cons.2 ⟨hl.fresh (.inr hpend.state), h.distinct⟩)
  · intro m
    rw [(enlist_node t cs m).2.1]
    exact h.twins m
  · intro m hm
    rw [hch]
    rw [hstate] at hm
    split at hm
    · cases hm
    · exact (h.sound m hm).mono htold
  · intro m hm
    have hu := h.unsat m hm
    rw [hstate, if_neg (hother m (.inr hu))]
    exact hu
  · intro m hm
    have hu := h.ended m hm
    rw [hstate, if_neg (hother m hu)]
    exact hu
  · intro m hm
    rw [hstate] at hm
    split at hm
    · cases hm
    · exact h.terminated m hm

theorem childLine_ids (n : Nat) (c : K.Content) (id : Nat) :
    (childLine n c id).map P2C.id = if K.inconsistent c then [id] else [] := by
  unfold childLine
  split <;> rfl

theorem Told.split {n : Nat} {t : TaskInfo K} {l r : K.Content} (h : s.Told) (hi : s.Inv)
    (hl : s.Lines) (hsp : Split s s' n t l r)
    (hleaf : (s.node n).children = []) : s'.Told := by
  have hw := hsp.written
  have hmem : ∀ x ∈ s.written, x ∈ s'.written := by
    intro x hx
    rw [hw]
    exact List.mem_append_left _ (List.mem_append_left _ hx)
  have hread : s'.read = s.read := hsp.read
  have htold : ∀ m, s.ToldUnsat m → s'.ToldUnsat m := by
    intro m hm
    unfold ToldUnsat at hm ⊢
    rw [hread]
    exact hm.imp_left fun ⟨q, hq⟩ => ⟨q, hmem _ hq⟩
  have hlines := fun m hm => hl.fresh (n := m) (.inl hm)
  have hother : ∀ m, m ≠ s.size → m ≠ s.size + 1 → (s'.node m).state = (s.node m).state := by
    intro m h1 h2
    by_cases h3 : m = n
    · rw [h3, hsp.parent]
    · rw [hsp.other m h3 h1 h2]
  have hnew : ∀ m, m = s.size ∨ m = s.size + 1 →
      (s'.node m).state = .unconverted ∨ (s'.node m).state = .unsat ∧ s'.ToldUnsat m := by
    have child : ∀ (c : K.Content) m, (s'.node m).state = childState c →
        (∀ x ∈ childLine n c m, x ∈ s'.written) →
        (s'.node m).state = .unconverted ∨ (s'.node m).state = .unsat ∧ s'.ToldUnsat m := by
      intro c m hm hc
      rw [hm]
      unfold childState childLine at *
      split
      · rename_i hcon
        rw [if_pos hcon] at hc
        exact .inr ⟨rfl, .inl ⟨_, hc _ List.mem_cons_self⟩⟩
      · exact .inl rfl
    rintro m (rfl | rfl)
    · refine child l _ (by rw [hsp.left]) fun x hx => ?_
      rw [hw]
      exact List.mem_append_left _ (List.mem_append_right _ hx)
    · refine child r _ (by rw [hsp.right]) fun x hx => ?_
      rw [hw]
      exact List.mem_append_right _ hx
  -- the lines read are about older nodes
  have hold : ∀ m, (s.node m).state = .terminated ∨ (s.node m).state = .unsat →
      m ≠ s.size ∧ m ≠ s.size + 1 := by
    intro m hm
    have hlt : m < s.size := by
      rcases hm with hm | hm
      · exact (hl.unknown m _ (hl.told m (.inr hm))).1
      · exact refuted_lt hi.grown (hi.reasons.sound m hm)
    omega
  constructor
  · rw [hw, List.map_append, List.map_append, childLine_ids, childLine_ids]
    have hd := h.distinct
    have h0 := hlines s.size (Nat.le_refl _)
    have h1 := hlines (s.size + 1) (Nat.le_succ _)
    split <;> split <;> simp_all [List.nodup_append]
  · intro m
    by_cases h3 : m = n
    · rw [h3, hsp.parent]
      simp
    · by_cases h1 : m = s.size
      · rw [h1, hsp.left]
        exact List.nodup_nil
      · by_cases h2 : m = s.size + 1
        · rw [h2, hsp.right]
          exact List.nodup_nil
        · rw [hsp.other m h3 h1 h2]
          exact h.twins m
  · intro m hm
    by_cases hc : m = s.size ∨ m = s.size + 1
    · rcases hnew m hc with he | ⟨-, he⟩
      · rw [he] at hm
        cases hm
      · exact .base he
    · rw [hother m (fun he => hc (.inl he)) fun he => hc (.inr he)] at hm
      exact refuted_grow (hsp.childrenOf hi.grown hleaf) htold (h.sound m hm)
  · intro m hm
    rw [hread] at hm
    have hu := h.unsat m hm
    obtain ⟨h1, h2⟩ := hold m (.inr hu)
    rw [hother m h1 h2]
    exact hu
  · intro m hm
    rw [hread] at hm
    have hu := h.ended m hm
    obtain ⟨h1, h2⟩ := hold m hu
    rw [hother m h1 h2]
    exact hu
  · intro m hm
    rw [hread]
    by_cases hc : m = s.size ∨ m = s.size + 1
    · rcases hnew m hc with he | ⟨he, -⟩ <;> rw [he] at hm <;> cases hm
    · rw [hother m (fun he => hc (.inl he)) fun he => hc (.inr he)] at hm
      exact h.terminated m hm

/-- A line of the coordinator about an announced node. -/
theorem Told.readLine (h : s.Told) (hi : s.Inv) (hl : s.Lines) (line : C2P)
    (hann : ∀ id, line = .unsatNode id ∨ line = .terminateNode id → s.Announced id) :
    (s.readLine line).Told := by
  have hrec := parseLine_recolors (s := s) line
  have hw : (s.readLine line).written = s.written := hrec.written
  have hread : (s.readLine line).read = s.read ++ [line] := rfl
  have hold : ∀ x ∈ s.read, x ∈ (s.readLine line).read := fun x hx =>
    List.mem_append_left _ hx
  have htold : ∀ m, s.ToldUnsat m → (s.readLine line).ToldUnsat m := by
    intro m hm
    unfold ToldUnsat at hm ⊢
    rw [hw]
    exact hm.imp_right (hold _)
  have hstate : ∀ m, ((s.readLine line).node m).state = (s.node m).state ∨
      ((s.readLine line).node m).state = .unsat ∨ (line = .terminateNode m ∧
        (s.node m).state = .waiting ∧ ((s.readLine line).node m).state = .terminated) :=
    parseLine_state line
  -- what is UNSAT stays so
  have hunsat : ∀ m, (s.node m).state = .unsat → ((s.readLine line).node m).state = .unsat := by
    intro m hm
    rcases hstate m with he | he | ⟨-, hwait, -⟩
    · rwa [he]
    · exact he
    · rw [hm] at hwait
      cases hwait
  refine ⟨by rw [hw]; exact h.distinct, fun m => ?_, fun m hm => ?_, fun m hm => ?_,
    fun m hm => ?_, fun m hm => ?_⟩
  · show ((s.parseLine line).node m).children.Nodup
    rw [hrec.children]
    exact h.twins m
  · rw [readLine_childrenOf]
    cases line with
    | unsatNode id =>
      have hlt := hl.announced (hann id (.inl rfl))
      refine (((nodeSolvedUnsat_refutes hi.grown hi.reasons.down hlt).1 m hm).mono fun k hk => ?_).idem
      rcases hk with rfl | hk
      · exact .base (.inr (List.mem_append_right _ List.mem_cons_self))
      · exact (h.sound k hk).mono htold
    | terminateNode id =>
      have hm : ((s.parseLine (.terminateNode id)).node m).state = .unsat := hm
      rw [terminateNode_state] at hm
      split at hm
      · cases hm
      · exact (h.sound m hm).mono htold
  · rw [hread, List.mem_append, List.mem_singleton] at hm
    rcases hm with hm | rfl
    · exact hunsat m (h.unsat m hm)
    · exact nodeSolvedUnsat_unsat m
  · rw [hread, List.mem_append, List.mem_singleton] at hm
    rcases hm with hm | rfl
    · rcases h.ended m hm with ht | hu
      · rcases hstate m with he | he | ⟨-, hwait, -⟩
        · exact .inl (he.trans ht)
        · exact .inr he
        · rw [ht] at hwait
          cases hwait
      · exact .inr (hunsat m hu)
    · -- an announced node is WAITING, or ended before
      have hs : (s.node m).state ≠ .unconverted := by
        obtain ⟨pid, hm | hm⟩ := hann m (.inr rfl)
        · exact (hl.unknown m pid hm).2.2
        · rw [(hl.unsat m pid hm).2.2]
          exact NodeState.noConfusion
      show ((s.parseLine (.terminateNode m)).node m).state = _ ∨
        ((s.parseLine (.terminateNode m)).node m).state = _
      rw [terminateNode_state]
      cases hst : (s.node m).state with
      | unconverted => exact absurd hst hs
      | waiting => simp
      | unsat => simp
      | terminated => simp
  · rw [hread, List.mem_append, List.mem_singleton]
    rcases hstate m with he | he | ⟨rfl, -, -⟩
    · exact .inl (h.terminated m (he.symm.trans hm))
    · rw [hm] at he
      cases he
    · exact .inr rfl

theorem Told.announce (h : s.Told) (hi : s.Inv) (hl : s.Lines) (hp : s.phase = .announce)
    {t : TaskInfo K} (ht : s.ptask = some t) (cs : K.Candidates)
    (ch : Option (K.Content × K.Content)) : (s.announce t cs ch).Told := by
  have hpend := hi.task t ht
  have hen := h.enlist hi hl ht cs
  cases ch with
  | none => exact hen
  | some lr =>
    have hlt : t.nodeId < (s.enlist t cs).size := hpend.lt
    have hleaf := (enlist_node t cs t.nodeId).2.1.trans hpend.children
    exact hen.split (hi.enlist ht cs) (hl.enlist hi hp ht cs)
      (splitNode_split hlt hleaf t lr.1 lr.2) hleaf

/-! ## Marks that are pushed up -/

theorem pushedUp_iff : s.PushedUp ↔ tree.UpClosed 0 (fun _ => False) s := by
  unfold PushedUp MarkedTree.UpClosed
  simp only [MarkedTree.covered_iff, marked_iff, not_false_eq_true, Nat.zero_le, true_and,
    true_implies]
  rfl

theorem root_pushedUp (c : K.Content) (heap : List NodeInfo) (ph : Phase) :
    PushedUp { (empty (K := K)).mkNode none c with leafHeap := heap, phase := ph } := by
  intro n hne
  refine absurd ?_ hne
  show (((empty (K := K)).mkNode none c).node n).children = []
  simp only [mkNode, empty, noNode, Function.update_apply]
  split <;> rfl

/-- A leaf is refuted whose sibling is not UNSAT. -/
theorem PushedUp.refute (h : s.PushedUp) (hi : s.Inv) (hg : s.Genealogy) (ht : s.Told) {n : Nat}
    (hu : s.Unpaired [.newUnsatNode n (s.node n).parent])
    (hnode : s'.node = (s.setState n .unsat).node) : s'.PushedUp := by
  have hstate : ∀ m, (s'.node m).state = if m = n then .unsat else (s.node m).state := by
    intro m
    rw [hnode]
    exact setState_state n m .unsat
  have hch : s'.childrenOf = s.childrenOf := by
    unfold childrenOf
    rw [hnode]
    exact ((Recolored.refl s).setState n .unsat).childrenOf
  intro x hne hall
  rw [hch] at hne hall
  rw [hstate]
  split
  · rfl
  by_cases hn : n ∈ s.childrenOf x
  · -- the other child of `x` is UNSAT
    obtain ⟨a, b, hab, -⟩ := hg.children x hne
    have hnd := ht.twins x
    rw [hab] at hnd
    have hdiff : b ≠ a := by simpa using hnd
    obtain ⟨m, hm, hmn⟩ : ∃ m ∈ s.childrenOf x, m ≠ n := by
      by_cases hbn : b = n
      · exact ⟨a, show a ∈ (s.node x).children by simp [hab], fun he => hdiff (hbn.trans he.symm)⟩
      · exact ⟨b, show b ∈ (s.node x).children by simp [hab], hbn⟩
    have hp : (s.node n).parent = some x := ((hi.grown.child x n).1 hn).2
    have hmu := hall m hm
    rw [hstate, if_neg hmn] at hmu
    refine absurd (Or.inr ⟨hm, hmu⟩) (hu n m x ?_ hmn)
    rw [hp]
    exact List.mem_singleton_self _
  · refine h x hne fun c hc => ?_
    have hcn : c ≠ n := fun he => hn (he ▸ hc)
    have hcu := hall c hc
    rwa [hstate, if_neg hcn] at hcu

theorem PushedUp.enlist (h : s.PushedUp) (hi : s.Inv) {t : TaskInfo K} (ht : s.ptask = some t)
    (cs : K.Candidates) : (s.enlist t cs).PushedUp := by
  have hunsat : ∀ m, ((s.enlist t cs).node m).state = .unsat ↔ (s.node m).state = .unsat := by
    intro m
    rw [enlist_state]
    by_cases hm : m = t.nodeId
    · rw [if_pos hm, hm, (hi.task t ht).state]
      exact iff_of_false NodeState.noConfusion NodeState.noConfusion
    · rw [if_neg hm]
  intro x hne hall
  have hch : (s.enlist t cs).childrenOf = s.childrenOf := funext fun n => (enlist_node t cs n).2.1
  rw [hch] at hne hall
  exact (hunsat x).2 (h x hne fun c hc => (hunsat c).1 (hall c hc))

/-- A split that leaves one of the children open. -/
theorem PushedUp.split {n : Nat} {t : TaskInfo K} {l r : K.Content} (h : s.PushedUp)
    (hi : s.Inv) (hsp : Split s s' n t l r) (hn : n < s.size) (hleaf : (s.node n).children = [])
    (hopen : K.inconsistent l = false ∨ K.inconsistent r = false) : s'.PushedUp := by
  have hchild : ∀ c : K.Content, K.inconsistent c = false → childState c ≠ .unsat := by
    intro c hc
    unfold childState
    rw [hc]
    exact NodeState.noConfusion
  intro x hne hall
  by_cases hx : x < s.size
  · by_cases hxn : x = n
    · -- the new children
      have hcs : s'.childrenOf x = [s.size + 1, s.size] := by
        rw [hxn]
        exact congrArg Node.children hsp.parent
      rw [hcs] at hall
      rcases hopen with hc | hc
      · have := hall s.size (by simp)
        rw [hsp.left] at this
        exact absurd this (hchild l hc)
      · have := hall (s.size + 1) (by simp)
        rw [hsp.right] at this
        exact absurd this (hchild r hc)
    · have hsame := hsp.other x hxn (by omega) (by omega)
      have hcs : s'.childrenOf x = s.childrenOf x := congrArg Node.children hsame
      rw [hcs] at hne hall
      rw [hsame]
      refine h x hne fun c hc => ?_
      have hlt : c < s.size := ((hi.grown.child x c).1 hc).1
      rw [← hsp.state c hlt]
      exact hall c hc
  · -- a new child has no children, and neither has a number past the end
    obtain ⟨c, hc⟩ := List.exists_mem_of_ne_nil _ hne
    have hg := hsp.grown hi.grown hn hleaf
    obtain ⟨hlt, hp⟩ := (hg.child x c).1 hc
    have hlt : c < s'.size := hlt
    have hxc := hg.parentLt c x hp
    rw [hsp.size] at hlt
    have hx0 : x = s.size := by omega
    refine absurd ?_ hne
    show (s'.node x).children = []
    rw [hx0, hsp.left]

theorem PushedUp.announce (h : s.PushedUp) (hi : s.Inv) {t : TaskInfo K} (ht : s.ptask = some t)
    (cs : K.Candidates) (ch : Option (K.Content × K.Content)) {ls : List P2C}
    (hw : (s.announce t cs ch).written = s.written ++ ls) (hu : s.Unpaired ls) :
    (s.announce t cs ch).PushedUp := by
  have hpend := hi.task t ht
  have hen := h.enlist hi ht cs
  cases ch with
  | none => exact hen
  | some lr =>
    have hlt : t.nodeId < (s.enlist t cs).size := hpend.lt
    have hleaf := (enlist_node t cs t.nodeId).2.1.trans hpend.children
    have hsp := splitNode_split hlt hleaf t lr.1 lr.2
    refine hen.split (hi.enlist ht cs) hsp hlt hleaf ?_
    by_contra hboth
    rw [not_or, Bool.not_eq_false, Bool.not_eq_false] at hboth
    -- both lines are written
    have hw : s.written ++ ls = s.written ++ [newNode false t.nodeId (s.node t.nodeId).parent] ++
        childLine t.nodeId lr.1 s.size ++ childLine t.nodeId lr.2 (s.size + 1) :=
      hw.symm.trans hsp.written
    rw [List.append_assoc, List.append_assoc, List.append_cancel_left_eq] at hw
    refine hu s.size (s.size + 1) t.nodeId ?_ (Nat.succ_ne_self _) (.inl ?_) <;>
      rw [hw] <;> simp [childLine, newNode, hboth.1, hboth.2]

/-- A line of the coordinator is pushed up. -/
theorem PushedUp.readLine (h : s.PushedUp) (hi : s.Inv) {line : C2P}
    (hlt : ∀ id, line = .unsatNode id → id < s.size) : (s.readLine line).PushedUp := by
  cases line with
  | unsatNode id =>
    show (s.nodeSolvedUnsat id).PushedUp
    rw [nodeSolvedUnsat_eq]
    split
    · exact h
    · have hmark := (MarkedTree.Extends.refl tree s).mark id
      have hm : tree.marked (tree.mark id s) id = true := by
        rw [tree.marked_mark]
        simp
      have hclosed : tree.Closed 0 s := ⟨fun y _ hy c hc =>
        marked_iff.2 (hi.reasons.down y (marked_iff.1 hy) c hc), pushedUp_iff.1 h⟩
      obtain ⟨hdown, hup⟩ := hclosed.insert hi.grown (tree.parent_mark id s)
        (tree.children_mark id s) fun m => tree.marked_mark id s m
      exact pushedUp_iff.2 (MarkedTree.spread_spec (hmark.grown hi.grown) (hlt id rfl) hm hdown
        hup).1.2
  | terminateNode id =>
    have key : ∀ m, ((s.parseLine (.terminateNode id)).node m).state = .unsat ↔
        (s.node m).state = .unsat := by
      intro m
      rw [terminateNode_state]
      by_cases hm : m = id ∧ (s.node id).state = .waiting
      · obtain ⟨rfl, hw⟩ := hm
        simp [hw]
      · rw [if_neg hm]
    intro x hne hall
    rw [readLine_childrenOf] at hne hall
    exact (key x).2 (h x hne fun c hc => (key c).1 (hall c hc))

end Context

open Context

theorem step_told {s s' : Context K} {l : Label} (h : s.Told) (hi : s.Inv) (hl : s.Lines)
    (hs : Step K maxAlive s l s') : s'.Told := by
  cases hs with
  | initUnsat => exact absurd rfl hi.started
  | propagateUnsat => exact absurd rfl hi.started
  | init => exact absurd rfl hi.started
  | announce hp ht _ _ => exact h.announce hi hl hp ht _ _
  | readLine line _ hann => exact h.readLine hi hl line hann
  | enter _ _ | heapEmpty _ _ => exact h.idle rfl rfl rfl
  | @createNewTask _ ni _ htop =>
    rcases createNewTask_cases hi htop.1 with ⟨-, he⟩ | ⟨hs, -, -, he⟩ | ⟨_, -, -, -, he⟩ <;>
      rw [he]
    · exact h.idle rfl rfl rfl
    · exact h.refute hl hs rfl rfl rfl
    · exact h.idle rfl rfl rfl
  | display _ _ =>
    unfold displayCurrentTask
    split <;> exact h.idle rfl rfl rfl

theorem told_inductive : (machine K maxAlive).Inductive fun s =>
    (RunInv s ∧ (s = .empty ∨ s.Genealogy)) ∧ s.Told := by
  refine genealogy_inductive.under (fun s hs => ?_) fun s l s' hr h hs => ?_
  · rw [show s = .empty from hs]
    exact ⟨List.nodup_nil, fun _ => List.nodup_nil, nofun, nofun, nofun, nofun⟩
  · rcases hr.1 with rfl | ⟨hi, hl⟩
    · cases hs with
      | initUnsat _ _ => exact root_told _ [] _
      | propagateUnsat _ _ _ _ => exact root_told _ [] _
      | init _ _ _ _ => exact root_told _ _ _
      | announce hp | readLine _ hp | enter hp | createNewTask hp | heapEmpty hp | display hp =>
        cases hp
    · exact step_told h hi hl hs

/-- A step keeps the marks pushed up if none of its lines is about the second
of two children. -/
theorem step_pushedUp {s s' : Context K} {l : Label} (hr : (machine K maxAlive).Reachable s)
    (hs : Step K maxAlive s l s') {ls : List P2C} (hw : s'.written = s.written ++ ls)
    (hu : s.Unpaired ls) (h : s.PushedUp) : s'.PushedUp := by
  obtain ⟨⟨hrun, hgen⟩, ht⟩ := told_inductive.reachable hr
  rcases hrun with rfl | ⟨hi, hl⟩
  · cases hs with
    | initUnsat _ _ => exact root_pushedUp _ [] _
    | propagateUnsat _ _ _ _ => exact root_pushedUp _ [] _
    | init _ _ _ _ => exact root_pushedUp _ _ _
    | announce hp | readLine _ hp | enter hp | createNewTask hp | heapEmpty hp | display hp =>
      cases hp
  have hgen : s.Genealogy := hgen.resolve_left fun he => hi.started (by rw [he]; rfl)
  cases hs with
  | initUnsat => exact absurd rfl hi.started
  | propagateUnsat => exact absurd rfl hi.started
  | init => exact absurd rfl hi.started
  | announce _ htask _ _ => exact h.announce hi htask _ _ hw hu
  | readLine line _ hann =>
    exact h.readLine hi fun id he => hl.announced (hann id (.inl he))
  | enter _ _ | heapEmpty _ _ => exact h.idle rfl
  | @createNewTask _ ni _ htop =>
    rcases createNewTask_cases hi htop.1 with ⟨-, he⟩ | ⟨-, -, -, he⟩ | ⟨_, -, -, -, he⟩ <;>
      rw [he] at hw ⊢
    · exact h.idle rfl
    · have hls : ls = [.newUnsatNode ni.id (s.node ni.id).parent] :=
        List.append_cancel_left hw.symm
      rw [hls] at hu
      exact h.refute hi hgen ht hu rfl
    · exact h.idle rfl
  | display _ _ =>
    unfold displayCurrentTask
    split <;> exact h.idle rfl

end AriParti.L2
