import AriParti.L2Partitioner.Run

/-!
# The lines of the partitioner

What the lines written so far say about the tree: a node is announced once its
parent is, a node announced as unknown has been converted, and its task file
has been written unless the task is empty.

## Results

* `Lines.announce`, `Lines.readLine`, `Lines.createNewTask`, `Lines.display`:
  each call keeps `Lines`.
* `run_inv`: `Inv` and `Lines` hold along every run.
-/
namespace AriParti.L2
open AriParti.Core

variable {K : Kernel} {maxAlive : Nat}

/-- A line names a parent only if the parent was announced before. -/
def ParentsFirst (w : List P2C) : Prop :=
  ∀ xs ys b id p, w = xs ++ Context.newNode b id (some p) :: ys →
    ∃ q, P2C.newUnknownNode p q ∈ xs

theorem parentsFirst_nil : ParentsFirst [] := fun xs ys b id p h => by simp at h

theorem ParentsFirst.snoc {w : List P2C} (h : ParentsFirst w) {b : Bool} {id : Nat}
    {pid : Option Nat} (hp : ∀ p, pid = some p → ∃ q, P2C.newUnknownNode p q ∈ w) :
    ParentsFirst (w ++ [Context.newNode b id pid]) := by
  intro xs ys b' id' p he
  rcases List.eq_nil_or_concat ys with rfl | ⟨ys', y, rfl⟩
  · -- the new line itself
    obtain ⟨rfl, hl⟩ := List.append_inj' he rfl
    have hl : Context.newNode b id pid = Context.newNode b' id' (some p) := by simpa using hl
    apply hp p
    cases b <;> cases b' <;> simp_all [Context.newNode]
  · have he : w ++ [Context.newNode b id pid] =
        (xs ++ Context.newNode b' id' (some p) :: ys') ++ [y] := by
      simpa [List.concat_eq_append] using he
    exact h xs ys' b' id' p (List.append_inj' he rfl).1

namespace Context

variable {s : Context K}

/-- What the file of a node with task `task` holds. -/
def fileOf (task : K.Task) : Option K.Task := if K.isEmpty task then none else some task

/-- What the lines written say. -/
structure Lines (s : Context K) : Prop where
  unknown : ∀ id pid, .newUnknownNode id pid ∈ s.written →
    id < s.size ∧ (s.node id).parent = pid ∧ (s.node id).state ≠ .unconverted
  unsat : ∀ id pid, .newUnsatNode id pid ∈ s.written →
    id < s.size ∧ (s.node id).parent = pid ∧ (s.node id).state = .unsat
  told : ∀ n, (s.node n).state = .waiting ∨ (s.node n).state = .terminated →
    .newUnknownNode n (s.node n).parent ∈ s.written
  parentTold : ∀ n, (s.node n).children ≠ [] → .newUnknownNode n (s.node n).parent ∈ s.written
  ordered : ParentsFirst s.written
  file : ∀ id pid, .newUnknownNode id pid ∈ s.written →
    ∃ task, K.convert (s.node id).content = some task ∧ s.files id = fileOf task
  /-- the file of a task waiting to be announced -/
  pending : ∀ t, s.phase = .announce → s.ptask = some t → s.files t.nodeId = fileOf t.task
  noFile : ∀ n, (∀ pid, .newUnknownNode n pid ∉ s.written) →
    (s.phase = .announce → ∀ t, s.ptask = some t → t.nodeId ≠ n) → s.files n = none

theorem Lines.announced (h : s.Lines) {id : Nat} (hid : s.Announced id) : id < s.size := by
  obtain ⟨pid, hid | hid⟩ := hid
  · exact (h.unknown id pid hid).1
  · exact (h.unsat id pid hid).1

/-- Lines are about nodes that keep their parent and contents; a line keeps
being true when the states only move on. -/
theorem Lines.readLine (h : s.Lines) (hp : s.phase = .poll) (line : C2P) :
    (s.readLine line).Lines := by
  have hrec := parseLine_recolors (s := s) line
  have hparent : ∀ n, ((s.readLine line).node n).parent = (s.node n).parent := hrec.parent
  have hchildren : ∀ n, ((s.readLine line).node n).children = (s.node n).children := hrec.children
  have hcontent : ∀ n, ((s.readLine line).node n).content = (s.node n).content := hrec.content
  have hsize : (s.readLine line).size = s.size := hrec.size
  have hw : (s.readLine line).written = s.written := hrec.written
  have hf : (s.readLine line).files = s.files := hrec.files
  have hphase : (s.readLine line).phase = .poll := hrec.phase.trans hp
  have hstate : ∀ n, ((s.readLine line).node n).state = (s.node n).state ∨
      ((s.readLine line).node n).state = .unsat ∨ (line = .terminateNode n ∧
        (s.node n).state = .waiting ∧ ((s.readLine line).node n).state = .terminated) :=
    parseLine_state line
  constructor
  · intro id pid hid
    rw [hw] at hid
    obtain ⟨h1, h2, h3⟩ := h.unknown id pid hid
    rw [hsize, hparent]
    refine ⟨h1, h2, ?_⟩
    rcases hstate id with he | he | ⟨-, -, he⟩ <;> rw [he]
    · exact h3
    · decide
    · decide
  · intro id pid hid
    rw [hw] at hid
    obtain ⟨h1, h2, h3⟩ := h.unsat id pid hid
    rw [hsize, hparent]
    refine ⟨h1, h2, ?_⟩
    rcases hstate id with he | he | ⟨-, hwait, -⟩
    · rw [he]
      exact h3
    · exact he
    · rw [h3] at hwait
      cases hwait
  · intro n hn
    rw [hw, hparent]
    apply h.told
    rcases hstate n with he | he | ⟨-, hwait, -⟩
    · rwa [he] at hn
    · rw [he] at hn
      rcases hn with hn | hn <;> cases hn
    · exact .inl hwait
  · intro n hn
    rw [hchildren] at hn
    rw [hw, hparent]
    exact h.parentTold n hn
  · rw [hw]
    exact h.ordered
  · intro id pid hid
    rw [hw] at hid
    rw [hcontent, hf]
    exact h.file id pid hid
  · intro t ha
    rw [hphase] at ha
    cases ha
  · intro n hn _
    rw [hw] at hn
    rw [hf]
    exact h.noFile n hn fun ha => by rw [hp] at ha; cases ha

theorem Lines.parent_announced (h : s.Lines) (hg : tree.Grown s) {n p : Nat} (hn : n < s.size)
    (hp : (s.node n).parent = some p) : ∃ q, .newUnknownNode p q ∈ s.written := by
  have hc : n ∈ (s.node p).children := (hg.child p n).2 ⟨hn, hp⟩
  exact ⟨_, h.parentTold p (List.ne_nil_of_mem hc)⟩

theorem Lines.enlist (hl : s.Lines) (h : s.Inv) (hp : s.phase = .announce) {t : TaskInfo K}
    (ht : s.ptask = some t) (cs : K.Candidates) : (s.enlist t cs).Lines := by
  have hpend := h.task t ht
  have hnode := enlist_node (s := s) t cs
  have hstate := enlist_state (s := s) t cs
  have hw : ∀ x, x ∈ (s.enlist t cs).written ↔
      x ∈ s.written ∨ x = .newUnknownNode t.nodeId (s.node t.nodeId).parent := by
    intro x
    show x ∈ s.written ++ [newNode false t.nodeId (s.node t.nodeId).parent] ↔ _
    rw [List.mem_append, List.mem_singleton]
    rfl
  constructor
  · intro id pid hid
    rw [(hnode id).1, hstate]
    rcases (hw _).1 hid with hid | hid
    · obtain ⟨h1, h2, h3⟩ := hl.unknown id pid hid
      refine ⟨h1, h2, ?_⟩
      split
      · decide
      · exact h3
    · cases hid
      exact ⟨hpend.lt, rfl, by simp⟩
  · intro id pid hid
    rw [(hnode id).1, hstate]
    rcases (hw _).1 hid with hid | hid
    · obtain ⟨h1, h2, h3⟩ := hl.unsat id pid hid
      refine ⟨h1, h2, ?_⟩
      rw [if_neg]
      · exact h3
      · rintro rfl
        rw [hpend.state] at h3
        cases h3
    · cases hid
  · intro n hn
    rw [hstate] at hn
    rw [(hnode n).1, hw]
    split at hn
    · rename_i he
      rw [he]
      exact .inr rfl
    · exact .inl (hl.told n hn)
  · intro n hn
    rw [(hnode n).2.1] at hn
    rw [(hnode n).1, hw]
    exact .inl (hl.parentTold n hn)
  · apply hl.ordered.snoc
    intro p hpar
    exact hl.parent_announced h.grown hpend.lt hpar
  · intro id pid hid
    rw [(hnode id).2.2]
    rcases (hw _).1 hid with hid | hid
    · exact hl.file id pid hid
    · cases hid
      exact ⟨t.task, hpend.convert, hl.pending t hp ht⟩
  · intro t' ha
    cases ha
  · intro n hn _
    refine hl.noFile n (fun pid hpid => hn pid ((hw _).2 (.inl hpid))) fun _ t' ht' he => ?_
    rw [ht] at ht'
    cases ht'
    exact hn _ ((hw _).2 (.inr (by rw [he])))

theorem mem_childLine {n id : Nat} {c : K.Content} {x : P2C} :
    x ∈ childLine n c id ↔ K.inconsistent c = true ∧ x = .newUnsatNode id (some n) := by
  unfold childLine newNode
  split <;> simp_all

theorem ParentsFirst.childLine {w : List P2C} (h : ParentsFirst w) {n : Nat}
    (hn : ∃ q, P2C.newUnknownNode n q ∈ w) (c : K.Content) (id : Nat) :
    ParentsFirst (w ++ Context.childLine n c id) := by
  unfold Context.childLine
  split
  · apply h.snoc
    intro p hp
    cases hp
    exact hn
  · rwa [List.append_nil]

theorem Lines.split {s' : Context K} (hl : s.Lines) {n : Nat} {t : TaskInfo K}
    {l r : K.Content} (hsp : Split s s' n t l r) (hn : n < s.size)
    (hwait : (s.node n).state = .waiting) (hp : s.phase = .poll) : s'.Lines := by
  have htold := hl.told n (.inl hwait)
  have hold : ∀ m, m < s.size → (s'.node m).parent = (s.node m).parent := by
    intro m hm
    by_cases hmn : m = n
    · rw [hmn, hsp.parent]
    · rw [hsp.other m hmn (by omega) (by omega)]
  have hw : ∀ x, x ∈ s'.written ↔ x ∈ s.written ∨
      (K.inconsistent l = true ∧ x = .newUnsatNode s.size (some n)) ∨
      (K.inconsistent r = true ∧ x = .newUnsatNode (s.size + 1) (some n)) := by
    intro x
    rw [hsp.written, List.mem_append, List.mem_append, mem_childLine, mem_childLine, or_assoc]
  have hnew : ∀ m, s.size ≤ m → (s'.node m).state = .unsat ∨ (s'.node m).state = .unconverted ∨
      s'.node m = s.node m := by
    intro m hm
    have hchild : ∀ c : K.Content, childState c = .unsat ∨ childState c = .unconverted := by
      intro c
      unfold childState
      split <;> simp
    by_cases h1 : m = s.size
    · rw [h1, hsp.left]
      rcases hchild l with hc | hc <;> simp [hc]
    · by_cases h2 : m = s.size + 1
      · rw [h2, hsp.right]
        rcases hchild r with hc | hc <;> simp [hc]
      · exact .inr (.inr (hsp.other m (by omega) h1 h2))
  constructor
  · intro id pid hid
    rcases (hw _).1 hid with hid | ⟨-, hid⟩ | ⟨-, hid⟩
    · obtain ⟨h1, h2, h3⟩ := hl.unknown id pid hid
      rw [hsp.size, hold id h1, hsp.state id h1]
      exact ⟨by omega, h2, h3⟩
    · cases hid
    · cases hid
  · intro id pid hid
    rcases (hw _).1 hid with hid | ⟨hc, hid⟩ | ⟨hc, hid⟩
    · obtain ⟨h1, h2, h3⟩ := hl.unsat id pid hid
      rw [hsp.size, hold id h1, hsp.state id h1]
      exact ⟨by omega, h2, h3⟩
    · cases hid
      rw [hsp.size, hsp.left]
      exact ⟨by omega, rfl, by simp [childState, hc]⟩
    · cases hid
      rw [hsp.size, hsp.right]
      exact ⟨by omega, rfl, by simp [childState, hc]⟩
  · intro m hm
    by_cases hlt : m < s.size
    · rw [hsp.state m hlt] at hm
      rw [hold m hlt, hw]
      exact .inl (hl.told m hm)
    · rcases hnew m (by omega) with he | he | he
      · rw [he] at hm
        rcases hm with hm | hm <;> cases hm
      · rw [he] at hm
        rcases hm with hm | hm <;> cases hm
      · rw [he] at hm ⊢
        rw [hw]
        exact .inl (hl.told m hm)
  · intro m hm
    by_cases hmn : m = n
    · rw [hmn, hold n hn, hw]
      exact .inl htold
    · by_cases h1 : m = s.size
      · rw [h1, hsp.left] at hm
        exact absurd rfl hm
      · by_cases h2 : m = s.size + 1
        · rw [h2, hsp.right] at hm
          exact absurd rfl hm
        · rw [hsp.other m hmn h1 h2] at hm ⊢
          rw [hw]
          exact .inl (hl.parentTold m hm)
  · rw [hsp.written]
    have h1 := ParentsFirst.childLine hl.ordered ⟨_, htold⟩ l s.size
    exact ParentsFirst.childLine h1 ⟨_, List.mem_append_left _ htold⟩ r (s.size + 1)
  · intro id pid hid
    rcases (hw _).1 hid with hid | ⟨-, hid⟩ | ⟨-, hid⟩
    · rw [hsp.content id (hl.unknown id pid hid).1, hsp.files]
      exact hl.file id pid hid
    · cases hid
    · cases hid
  · intro t' ha
    rw [hsp.phase, hp] at ha
    cases ha
  · intro m hm _
    rw [hsp.files]
    exact hl.noFile m (fun pid hpid => hm pid ((hw _).2 (.inl hpid)))
      fun ha => by rw [hp] at ha; cases ha

theorem Lines.announce (hl : s.Lines) (h : s.Inv) (hp : s.phase = .announce) {t : TaskInfo K}
    (ht : s.ptask = some t) (cs : K.Candidates) (ch : Option (K.Content × K.Content)) :
    (s.announce t cs ch).Lines := by
  have hpend := h.task t ht
  have hen := hl.enlist h hp ht cs
  have hstate : ((s.enlist t cs).node t.nodeId).state = .waiting := by
    rw [enlist_state, if_pos rfl]
  have hleaf : ((s.enlist t cs).node t.nodeId).children = [] :=
    (enlist_node t cs t.nodeId).2.1.trans hpend.children
  cases ch with
  | none => exact hen
  | some lr =>
    have hlt : t.nodeId < (s.enlist t cs).size := hpend.lt
    exact hen.split (splitNode_split hlt hleaf t lr.1 lr.2) hlt hstate rfl

/-- A step that leaves the tree, the lines and the files alone. -/
theorem Lines.idle {s' : Context K} (hl : s.Lines) (hp : s.phase ≠ .announce)
    (hsize : s'.size = s.size) (hnode : s'.node = s.node) (hw : s'.written = s.written)
    (hf : s'.files = s.files) (hp' : s'.phase ≠ .announce) : s'.Lines := by
  constructor <;> simp only [hsize, hnode, hw, hf]
  · exact hl.unknown
  · exact hl.unsat
  · exact hl.told
  · exact hl.parentTold
  · exact hl.ordered
  · exact hl.file
  · exact fun t ha => absurd ha hp'
  · exact fun n hn _ => hl.noFile n hn fun ha => absurd ha hp

theorem Lines.createNewTask (hl : s.Lines) (h : s.Inv) (hp : s.phase = .create) {ni : NodeInfo}
    (hni : ni ∈ s.leafHeap) : (s.createNewTask ni).Lines := by
  have hleaf := h.heap ni.id (List.mem_map.2 ⟨ni, hni, rfl⟩)
  have hphase : ¬ s.phase = .announce := by rw [hp]; decide
  rcases createNewTask_cases h hni with ⟨-, he⟩ | ⟨hs, -, hconv, he⟩ | ⟨task, hs, -, hconv, he⟩
  · rw [he]
    exact hl.idle hphase rfl rfl rfl rfl hphase
  · have hrec := (Recolored.refl s).setState ni.id .unsat
    have hstate := fun n => setState_state (s := s) ni.id n .unsat
    rw [he]
    have hw : ∀ x, x ∈ s.written ++ [newNode true ni.id (s.node ni.id).parent] ↔
        x ∈ s.written ∨ x = .newUnsatNode ni.id (s.node ni.id).parent := by
      intro x
      rw [List.mem_append, List.mem_singleton]
      rfl
    constructor
    · intro id pid hid
      rcases (hw _).1 hid with hid | hid
      · obtain ⟨h1, h2, h3⟩ := hl.unknown id pid hid
        refine ⟨h1, (hrec.parent id).trans h2, ?_⟩
        show ((s.setState ni.id .unsat).node id).state ≠ .unconverted
        rw [hstate]
        split
        · decide
        · exact h3
      · cases hid
    · intro id pid hid
      rcases (hw _).1 hid with hid | hid
      · obtain ⟨h1, h2, h3⟩ := hl.unsat id pid hid
        refine ⟨h1, (hrec.parent id).trans h2, ?_⟩
        show ((s.setState ni.id .unsat).node id).state = .unsat
        rw [hstate]
        split
        · rfl
        · exact h3
      · cases hid
        refine ⟨hleaf.lt, hrec.parent ni.id, ?_⟩
        show ((s.setState ni.id .unsat).node ni.id).state = .unsat
        rw [hstate, if_pos rfl]
    · intro n hn
      have hn : ((s.setState ni.id .unsat).node n).state = .waiting ∨
          ((s.setState ni.id .unsat).node n).state = .terminated := hn
      rw [hstate] at hn
      show P2C.newUnknownNode n ((s.setState ni.id .unsat).node n).parent ∈ _
      rw [hrec.parent, hw]
      split at hn
      · rcases hn with hn | hn <;> cases hn
      · exact .inl (hl.told n hn)
    · intro n hn
      have hn : ((s.setState ni.id .unsat).node n).children ≠ [] := hn
      rw [hrec.children] at hn
      show P2C.newUnknownNode n ((s.setState ni.id .unsat).node n).parent ∈ _
      rw [hrec.parent, hw]
      exact .inl (hl.parentTold n hn)
    · apply hl.ordered.snoc
      intro p hpar
      exact hl.parent_announced h.grown hleaf.lt hpar
    · intro id pid hid
      show ∃ task, K.convert ((s.setState ni.id .unsat).node id).content = some task ∧ _
      rw [hrec.content]
      rcases (hw _).1 hid with hid | hid
      · exact hl.file id pid hid
      · cases hid
    · exact fun t ha => absurd ha hphase
    · exact fun n hn _ => hl.noFile n (fun pid hpid => hn pid ((hw _).2 (.inl hpid)))
        fun ha => absurd ha hphase
  · rw [he]
    exact hl.idle hphase rfl rfl rfl rfl Phase.noConfusion

/-- Writing the file of the task. -/
theorem Lines.display (hl : s.Lines) (h : s.Inv) (hp : s.phase = .returned) {t : TaskInfo K}
    (ht : s.ptask = some t) : Lines { s.displayCurrentTask t with phase := .announce } := by
  have hpend := h.task t ht
  have hphase : ¬ s.phase = .announce := by rw [hp]; decide
  have hnot : ∀ pid, .newUnknownNode t.nodeId pid ∉ s.written := fun pid hpid =>
    (hl.unknown _ _ hpid).2.2 hpend.state
  have hbefore := hl.noFile t.nodeId hnot fun ha => absurd ha hphase
  have hfile : ∀ n, (s.displayCurrentTask t).files n =
      if n = t.nodeId then fileOf t.task else s.files n := by
    intro n
    unfold displayCurrentTask fileOf
    by_cases hn : n = t.nodeId
    · split <;> simp_all
    · split <;> simp [hn]
  have hfields : (s.displayCurrentTask t).size = s.size ∧
      (s.displayCurrentTask t).node = s.node ∧ (s.displayCurrentTask t).written = s.written ∧
      (s.displayCurrentTask t).ptask = s.ptask := by
    unfold displayCurrentTask
    split <;> exact ⟨rfl, rfl, rfl, rfl⟩
  obtain ⟨hsize, hnode, hw, hptask⟩ := hfields
  constructor <;> simp only [hsize, hnode, hw, hptask]
  · exact hl.unknown
  · exact hl.unsat
  · exact hl.told
  · exact hl.parentTold
  · exact hl.ordered
  · intro id pid hid
    rw [hfile, if_neg]
    · exact hl.file id pid hid
    · rintro rfl
      exact hnot pid hid
  · intro t' _ ht'
    rw [ht] at ht'
    cases ht'
    rw [hfile, if_pos rfl]
  · intro n hn ha
    rw [hfile, if_neg (Ne.symm (ha trivial t ht))]
    exact hl.noFile n hn fun ha => absurd ha hphase

end Context

open Context

theorem step_lines {s s' : Context K} {l : Label} (hl : s.Lines) (h : s.Inv)
    (hs : Step K maxAlive s l s') : s'.Lines := by
  cases hs with
  | initUnsat => exact absurd rfl h.started
  | propagateUnsat => exact absurd rfl h.started
  | init => exact absurd rfl h.started
  | announce hp ht _ _ => exact hl.announce h hp ht _ _
  | readLine line hp _ => exact hl.readLine hp line
  | enter hp _ => exact hl.idle (by rw [hp]; decide) rfl rfl rfl rfl Phase.noConfusion
  | createNewTask hp htop => exact hl.createNewTask h hp htop.1
  | heapEmpty hp _ => exact hl.idle (by rw [hp]; decide) rfl rfl rfl rfl Phase.noConfusion
  | display hp ht => exact hl.display h hp ht

/-- Before the first call nothing is there; the first call leaves the root. -/
theorem root_lines (c : K.Content) (heap : List NodeInfo) {ph : Phase} (hph : ph ≠ .announce) :
    Lines { (empty (K := K)).mkNode none c with leafHeap := heap, phase := ph } := by
  have hchildren : ∀ n, (((empty (K := K)).mkNode none c).node n).children = [] := by
    intro n
    simp only [mkNode, empty, noNode, Function.update_apply]
    split <;> simp
  constructor
  · exact fun id pid hid => absurd hid List.not_mem_nil
  · exact fun id pid hid => absurd hid List.not_mem_nil
  · intro n hn
    have hn : (((empty (K := K)).mkNode none c).node n).state = .waiting ∨
        (((empty (K := K)).mkNode none c).node n).state = .terminated := hn
    rw [root_state] at hn
    rcases hn with hn | hn <;> cases hn
  · exact fun n hn => absurd (hchildren n) hn
  · exact parentsFirst_nil
  · exact fun id pid hid => absurd hid List.not_mem_nil
  · exact fun t ha => absurd ha hph
  · exact fun n _ _ => rfl

/-- The state of the process: not started, or with both invariants. -/
def RunInv (s : Context K) : Prop := s = .empty ∨ s.Inv ∧ s.Lines

theorem run_inv : (machine K maxAlive).Inductive RunInv where
  init _ h := .inl h
  step s l s' h hs := by
    rcases h with rfl | ⟨h, hl⟩
    · right
      cases hs with
      | initUnsat _ hc =>
        exact ⟨root_inv _ Phase.noConfusion (.inl ⟨rfl, hc⟩), root_lines _ [] Phase.noConfusion⟩
      | propagateUnsat _ _ _ hc =>
        exact ⟨root_inv _ Phase.noConfusion (.inl ⟨rfl, hc⟩), root_lines _ [] Phase.noConfusion⟩
      | init _ _ _ hc =>
        exact ⟨root_inv _ Phase.noConfusion (.inr ⟨rfl, hc, fun v => Phase.noConfusion⟩),
          root_lines _ _ Phase.noConfusion⟩
      | announce hp => cases hp
      | readLine _ hp => cases hp
      | enter hp => cases hp
      | createNewTask hp => cases hp
      | heapEmpty hp => cases hp
      | display hp => cases hp
    · exact .inr ⟨step_inv h (fun id hid => hl.announced hid) hs, step_lines hl h hs⟩

end AriParti.L2
