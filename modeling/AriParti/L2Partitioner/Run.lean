import AriParti.L2Partitioner.Tree

/-!
# Steps of the partitioner

The invariant of the process and its preservation by every step but the first
call. A leaf is still to be converted, or its task waits to be announced, or
it has been announced, or it is UNSAT: nothing is forgotten.

## Results

* `root_inv`: the invariant after the first call.
* `createNewTask_cases`: the three things a round of `create_new_task` does.
* `step_inv`: every later step keeps the invariant.
-/
namespace AriParti.L2
open AriParti.Core

variable {K : Kernel} {maxAlive : Nat}

namespace Context

variable {s : Context K}

/-- A task that has been made and not yet announced. -/
structure Pending (s : Context K) (t : TaskInfo K) : Prop where
  lt : t.nodeId < s.size
  state : (s.node t.nodeId).state = .unconverted
  children : (s.node t.nodeId).children = []
  consistent : K.inconsistent (s.node t.nodeId).content = false
  convert : K.convert (s.node t.nodeId).content = some t.task
  notLeaf : t.nodeId ∉ s.leafHeap.map NodeInfo.id

/-- An entry of the leaf heap. -/
structure Leaf (s : Context K) (n : Nat) : Prop where
  lt : n < s.size
  state : (s.node n).state = .unconverted ∨ (s.node n).state = .unsat
  children : (s.node n).children = []
  consistent : K.inconsistent (s.node n).content = false

/-- The run invariant of the partitioner, from the first call on. -/
structure Inv (s : Context K) : Prop where
  grown : tree.Grown s
  counted : s.Counted
  reasons : s.Reasons
  pos : 0 < s.size
  heap : ∀ n ∈ s.leafHeap.map NodeInfo.id, s.Leaf n
  nodup : (s.leafHeap.map NodeInfo.id).Nodup
  /-- nothing that is still to be converted is forgotten -/
  unconverted : ∀ n < s.size, (s.node n).state = .unconverted →
    K.inconsistent (s.node 0).content = true ∨ n ∈ s.leafHeap.map NodeInfo.id ∨
      ∃ t, s.ptask = some t ∧ t.nodeId = n
  task : ∀ t, s.ptask = some t → s.Pending t
  idle : s.phase = .returned ∨ s.phase = .announce ∨ s.ptask = none
  started : s.phase ≠ .start
  verdict : ∀ v, s.phase = .done v → K.inconsistent (s.node 0).content = true ∨
    s.leafHeap = [] ∧ (v = .unsat → s.aliveTaskNum = 0)

/-! ## The first call -/

/-- The root, alone in the tree. -/
theorem root_grown (c : K.Content) : tree.Grown ((empty (K := K)).mkNode none c) := by
  have hnode : ∀ n, ((((empty (K := K)).mkNode none c).node n).parent = none) ∧
      (((empty (K := K)).mkNode none c).node n).children = [] := by
    intro n
    simp only [mkNode, empty, noNode, Function.update_apply]
    split <;> simp
  refine ⟨fun n p hp => ?_, fun p n => ?_⟩
  · have hp : (((empty (K := K)).mkNode none c).node n).parent = some p := hp
    rw [(hnode n).1] at hp
    cases hp
  · show n ∈ (((empty (K := K)).mkNode none c).node p).children ↔
      _ ∧ (((empty (K := K)).mkNode none c).node n).parent = some p
    rw [(hnode p).2, (hnode n).1]
    simp

theorem root_state (c : K.Content) (n : Nat) :
    (((empty (K := K)).mkNode none c).node n).state = .unconverted := by
  simp only [mkNode, empty, noNode, Function.update_apply]
  split <;> rfl

theorem root_inv (c : K.Content) {heap : List NodeInfo} {ph : Phase} (hph : ph ≠ .start)
    (h : heap = [] ∧ K.inconsistent c = true ∨
      heap = [⟨0, 0, 0, 0⟩] ∧ K.inconsistent c = false ∧ ∀ v, ph ≠ .done v) :
    Inv { (empty (K := K)).mkNode none c with leafHeap := heap, phase := ph } where
  grown := ⟨(root_grown c).parentLt, (root_grown c).child⟩
  counted := by
    have hno : ∀ n, (((empty (K := K)).mkNode none c).node n).state ≠ .waiting := by
      intro n hn
      rw [root_state] at hn
      cases hn
    refine ⟨?_, fun n hn => absurd hn (hno n)⟩
    show 0 = _
    rw [eq_comm, Finset.card_eq_zero, Finset.eq_empty_iff_forall_notMem]
    exact fun n hn => hno n (mem_waitingNodes.1 hn).2
  reasons := by
    have hno : ∀ n, (((empty (K := K)).mkNode none c).node n).state ≠ .unsat := by
      intro n hn
      rw [root_state] at hn
      cases hn
    exact ⟨fun n hn => absurd hn (hno n), fun n hn => absurd hn (hno n)⟩
  pos := Nat.one_pos
  heap n hn := by
    rcases h with ⟨rfl, -⟩ | ⟨rfl, hc, -⟩
    · exact absurd hn List.not_mem_nil
    · have hn : n = 0 := by simpa using hn
      subst hn
      exact ⟨Nat.one_pos, .inl (root_state c 0), rfl, hc⟩
  nodup := by
    rcases h with ⟨rfl, -⟩ | ⟨rfl, -⟩ <;> simp
  unconverted n hn _ := by
    have hn : n = 0 := Nat.lt_one_iff.1 hn
    subst hn
    rcases h with ⟨-, hc⟩ | ⟨rfl, -⟩
    · exact .inl hc
    · exact .inr (.inl (by simp))
  task t ht := by cases ht
  idle := .inr (.inr rfl)
  started := hph
  verdict v hv := by
    rcases h with ⟨-, hc⟩ | ⟨-, -, hd⟩
    · exact .inl hc
    · exact absurd hv (hd v)

/-! ## Reading a line -/

theorem Inv.readLine (h : s.Inv) (hp : s.phase = .poll) (line : C2P)
    (hline : ∀ id, line = .unsatNode id ∨ line = .terminateNode id → id < s.size) :
    (s.readLine line).Inv := by
  have hrec := parseLine_recolors (s := s) line
  have hnone : s.ptask = none := by
    rcases h.idle with he | he | he
    · rw [hp] at he; cases he
    · rw [hp] at he; cases he
    · exact he
  have hheap : (s.readLine line).leafHeap = s.leafHeap := hrec.leafHeap
  have hsize : (s.readLine line).size = s.size := hrec.size
  have hphase : (s.readLine line).phase = .poll := hrec.phase.trans hp
  have htask : (s.readLine line).ptask = none := hrec.ptask.trans hnone
  have hcontent : ∀ n, ((s.readLine line).node n).content = (s.node n).content := hrec.content
  constructor
  · have := hrec.grown h.grown
    exact ⟨this.parentLt, this.child⟩
  · exact h.counted.readLine line
  · cases line with
    | unsatNode id => exact h.reasons.unsatNode h.grown (hline id (.inl rfl))
    | terminateNode id => exact h.reasons.terminateNode id
  · rw [hsize]
    exact h.pos
  · intro n hn
    rw [hheap] at hn
    have hl := h.heap n hn
    refine ⟨by rw [hsize]; exact hl.lt, ?_, (hrec.children n).trans hl.children,
      by rw [hcontent]; exact hl.consistent⟩
    rcases parseLine_state (s := s) line n with he | he | ⟨-, hw, -⟩
    · show ((s.parseLine line).node n).state = _ ∨ ((s.parseLine line).node n).state = _
      rw [he]
      exact hl.state
    · exact .inr he
    · rcases hl.state with hs | hs <;> rw [hs] at hw <;> cases hw
  · rw [hheap]
    exact h.nodup
  · intro n hn hs
    rw [hsize] at hn
    rw [hcontent, hheap, htask]
    have hs : ((s.parseLine line).node n).state = .unconverted := hs
    rcases parseLine_state (s := s) line n with he | he | ⟨-, -, he⟩
    · rw [he] at hs
      have := h.unconverted n hn hs
      rwa [hnone] at this
    · rw [he] at hs; cases hs
    · rw [he] at hs; cases hs
  · intro t ht
    rw [htask] at ht
    cases ht
  · exact .inr (.inr htask)
  · rw [hphase]
    exact Phase.noConfusion
  · intro v hv
    rw [hphase] at hv
    cases hv

/-! ## Announcing and splitting -/

/-- The part of `announce` before the split. -/
def enlist (s : Context K) (t : TaskInfo K) (candidates : K.Candidates) : Context K :=
  let s' := { s with
    aliveTaskNum := s.aliveTaskNum + 1
    written := s.written ++ [newNode false t.nodeId (s.node t.nodeId).parent]
    candidates := candidates
    ptask := none
    phase := .poll }
  s'.setState t.nodeId .waiting

theorem enlist_state (t : TaskInfo K) (cs : K.Candidates) (n : Nat) :
    ((s.enlist t cs).node n).state = if n = t.nodeId then .waiting else (s.node n).state :=
  setState_state t.nodeId n .waiting

/-- Every field of a node but its state. -/
theorem enlist_node (t : TaskInfo K) (cs : K.Candidates) (n : Nat) :
    ((s.enlist t cs).node n).parent = (s.node n).parent ∧
      ((s.enlist t cs).node n).children = (s.node n).children ∧
      ((s.enlist t cs).node n).content = (s.node n).content := by
  have hnode := setState_node (s := s) t.nodeId n .waiting
  show ((s.setState t.nodeId .waiting).node n).parent = _ ∧
    ((s.setState t.nodeId .waiting).node n).children = _ ∧
    ((s.setState t.nodeId .waiting).node n).content = _
  rw [hnode]
  split
  · rename_i hn
    rw [hn]
    exact ⟨rfl, rfl, rfl⟩
  · exact ⟨rfl, rfl, rfl⟩

theorem Inv.enlist (h : s.Inv) {t : TaskInfo K} (ht : s.ptask = some t) (cs : K.Candidates) :
    (s.enlist t cs).Inv := by
  have hpend := h.task t ht
  have hnu : ∀ n, ((s.enlist t cs).node n).state = .unsat ↔ (s.node n).state = .unsat := by
    intro n
    rw [enlist_state]
    by_cases hn : n = t.nodeId
    · simp [hn, hpend.state]
    · rw [if_neg hn]
  have hch : (s.enlist t cs).childrenOf = s.childrenOf :=
    funext fun n => (enlist_node t cs n).2.1
  constructor
  · refine ⟨fun c p hp => h.grown.parentLt c p ?_, fun p c => ?_⟩
    · exact (enlist_node t cs c).1.symm.trans hp
    · show c ∈ ((s.enlist t cs).node p).children ↔
        c < s.size ∧ ((s.enlist t cs).node c).parent = some p
      rw [(enlist_node t cs p).2.1, (enlist_node t cs c).1]
      exact h.grown.child p c
  · have hset : (s.enlist t cs).waitingNodes = insert t.nodeId s.waitingNodes := by
      ext n
      rw [Finset.mem_insert, mem_waitingNodes, mem_waitingNodes, enlist_state]
      show n < s.size ∧ _ ↔ _
      by_cases hn : n = t.nodeId
      · simp [hn, hpend.lt]
      · simp [hn]
    have hnot : t.nodeId ∉ s.waitingNodes := by
      rw [mem_waitingNodes, hpend.state]
      exact fun hc => by cases hc.2
    refine ⟨?_, fun n hn => ?_⟩
    · rw [hset, Finset.card_insert_of_notMem hnot]
      show s.aliveTaskNum + 1 = _
      rw [h.counted.alive]
    · show n < s.size
      rw [enlist_state] at hn
      split at hn
      · rename_i he
        rw [he]
        exact hpend.lt
      · exact h.counted.made n hn
  · refine ⟨fun n hn => ?_, fun n hn c hc => ?_⟩
    · rw [hch]
      refine (h.reasons.sound n ((hnu n).1 hn)).mono fun m hm => ⟨hm.1, ?_⟩
      rw [(enlist_node t cs m).2.2]
      exact hm.2
    · rw [hch] at hc
      exact (hnu c).2 (h.reasons.down n ((hnu n).1 hn) c hc)
  · exact h.pos
  · intro n hn
    have hl := h.heap n hn
    have hne : n ≠ t.nodeId := by
      rintro rfl
      exact hpend.notLeaf hn
    refine ⟨hl.lt, ?_, (enlist_node t cs n).2.1.trans hl.children, ?_⟩
    · rw [enlist_state, if_neg hne]
      exact hl.state
    · rw [(enlist_node t cs n).2.2]
      exact hl.consistent
  · exact h.nodup
  · intro n hn hs
    rw [enlist_state] at hs
    by_cases hne : n = t.nodeId
    · rw [if_pos hne] at hs
      cases hs
    · rw [if_neg hne] at hs
      rw [(enlist_node t cs 0).2.2]
      rcases h.unconverted n hn hs with hr | hr | ⟨t', ht', hr⟩
      · exact .inl hr
      · exact .inr (.inl hr)
      · rw [ht] at ht'
        cases ht'
        exact absurd hr.symm hne
  · intro t' ht'
    cases ht'
  · exact .inr (.inr rfl)
  · exact Phase.noConfusion
  · intro v hv
    cases hv

theorem childLeaf_ids (t : TaskInfo K) (c : K.Content) (id : Nat) :
    (childLeaf t c id).map NodeInfo.id = if K.inconsistent c then [] else [id] := by
  unfold childLeaf
  split <;> rfl

theorem childState_unconverted {c : K.Content} (h : childState c = .unconverted) :
    K.inconsistent c = false := by
  unfold childState at h
  split at h
  · cases h
  · rename_i hc
    simpa using hc

theorem Inv.split {s' : Context K} (h : s.Inv) {n : Nat} {t : TaskInfo K} {l r : K.Content}
    (hsp : Split s s' n t l r) (hn : n < s.size) (hw : (s.node n).state = .waiting)
    (hleaf : (s.node n).children = []) (hp : s.phase = .poll) : s'.Inv := by
  have hnone : s.ptask = none := by
    rcases h.idle with he | he | he
    · rw [hp] at he; cases he
    · rw [hp] at he; cases he
    · exact he
  have hids : s'.leafHeap.map NodeInfo.id = s.leafHeap.map NodeInfo.id ++
      (if K.inconsistent l then [] else [s.size]) ++
      (if K.inconsistent r then [] else [s.size + 1]) := by
    rw [hsp.leafHeap, List.map_append, List.map_append, childLeaf_ids, childLeaf_ids]
  have hold : ∀ m ∈ s.leafHeap.map NodeInfo.id, m < s.size ∧ m ≠ n := by
    intro m hm
    have hl := h.heap m hm
    refine ⟨hl.lt, ?_⟩
    rintro rfl
    rcases hl.state with hs | hs <;> rw [hs] at hw <;> cases hw
  have hroot : (s'.node 0).content = (s.node 0).content := hsp.content 0 h.pos
  constructor
  · exact hsp.grown h.grown hn hleaf
  · exact hsp.counted h.counted
  · exact hsp.reasons h.grown h.reasons hleaf (by rw [hw]; decide)
  · rw [hsp.size]
    omega
  · intro m hm
    rw [hids, List.mem_append, List.mem_append] at hm
    rcases hm with (hm | hm) | hm
    · have hl := h.heap m hm
      obtain ⟨hlt, hne⟩ := hold m hm
      have hnode := hsp.other m hne (by omega) (by omega)
      refine ⟨by rw [hsp.size]; omega, ?_, ?_, ?_⟩ <;> rw [hnode]
      · exact hl.state
      · exact hl.children
      · exact hl.consistent
    · split at hm
      · exact absurd hm List.not_mem_nil
      · rename_i hc
        rw [List.mem_singleton] at hm
        subst hm
        refine ⟨by rw [hsp.size]; omega, ?_, ?_, ?_⟩ <;> rw [hsp.left]
        · exact .inl (by simp [childState, hc])
        · simpa using hc
    · split at hm
      · exact absurd hm List.not_mem_nil
      · rename_i hc
        rw [List.mem_singleton] at hm
        subst hm
        refine ⟨by rw [hsp.size]; omega, ?_, ?_, ?_⟩ <;> rw [hsp.right]
        · exact .inl (by simp [childState, hc])
        · simpa using hc
  · rw [hids]
    have hl : ∀ m ∈ s.leafHeap.map NodeInfo.id, m < s.size := fun m hm => (hold m hm).1
    have h0 : s.size ∉ s.leafHeap.map NodeInfo.id := fun hm => by
      have := hl _ hm
      omega
    have h1 : s.size + 1 ∉ s.leafHeap.map NodeInfo.id := fun hm => by
      have := hl _ hm
      omega
    have := h.nodup
    split <;> split <;> simp_all [List.nodup_append]
  · intro m hm hs
    rw [hids, hroot]
    by_cases h1 : m = s.size
    · subst h1
      rw [hsp.left] at hs
      rw [childState_unconverted hs]
      exact .inr (.inl (by simp))
    · by_cases h2 : m = s.size + 1
      · subst h2
        rw [hsp.right] at hs
        rw [childState_unconverted hs]
        exact .inr (.inl (by simp))
      · rw [hsp.size] at hm
        have hm : m < s.size := by omega
        rw [hsp.state m hm] at hs
        rcases h.unconverted m hm hs with hr | hr | ⟨t', ht', -⟩
        · exact .inl hr
        · exact .inr (.inl (List.mem_append_left _ (List.mem_append_left _ hr)))
        · rw [hnone] at ht'
          cases ht'
  · intro t' ht'
    rw [hsp.ptask, hnone] at ht'
    cases ht'
  · exact .inr (.inr (hsp.ptask.trans hnone))
  · rw [hsp.phase, hp]
    exact Phase.noConfusion
  · intro v hv
    rw [hsp.phase, hp] at hv
    cases hv

theorem Inv.announce (h : s.Inv) {t : TaskInfo K} (ht : s.ptask = some t) (cs : K.Candidates)
    (ch : Option (K.Content × K.Content)) : (s.announce t cs ch).Inv := by
  have hpend := h.task t ht
  have hen := h.enlist ht cs
  have hstate : ((s.enlist t cs).node t.nodeId).state = .waiting := by
    rw [enlist_state, if_pos rfl]
  have hleaf : ((s.enlist t cs).node t.nodeId).children = [] :=
    (enlist_node t cs t.nodeId).2.1.trans hpend.children
  cases ch with
  | none => exact hen
  | some lr =>
    have hlt : t.nodeId < (s.enlist t cs).size := hpend.lt
    exact hen.split (splitNode_split hlt hleaf t lr.1 lr.2) hlt hstate hleaf rfl

/-! ## Making the next task -/

/-- One round of `create_new_task`, on a reachable state: the node is UNSAT
already, or its conversion refutes it, or it becomes the next task. -/
theorem createNewTask_cases (h : s.Inv) {ni : NodeInfo} (hni : ni ∈ s.leafHeap) :
    ((s.node ni.id).state = .unsat ∧
      s.createNewTask ni = { s with leafHeap := s.leafHeap.erase ni }) ∨
    ((s.node ni.id).state = .unconverted ∧ s.parentUnsat ni.id = false ∧
      K.convert (s.node ni.id).content = none ∧
      s.createNewTask ni =
        { ({ s with leafHeap := s.leafHeap.erase ni } : Context K).setState ni.id .unsat with
          written := s.written ++ [newNode true ni.id (s.node ni.id).parent] }) ∨
    (∃ task, (s.node ni.id).state = .unconverted ∧ s.parentUnsat ni.id = false ∧
      K.convert (s.node ni.id).content = some task ∧
      s.createNewTask ni =
        { s with
          leafHeap := s.leafHeap.erase ni
          ptask := some ⟨ni.id, (s.node ni.id).depth, task⟩
          phase := .returned }) := by
  have hl := h.heap ni.id (List.mem_map.2 ⟨ni, hni, rfl⟩)
  unfold createNewTask
  simp only
  rw [if_neg (by simp [hl.consistent])]
  rcases hl.state with hs | hs
  · have hpar : s.parentUnsat ni.id = false := by
      unfold parentUnsat
      split
      · rfl
      · rename_i p hp
        by_contra hc
        have hp' : (s.node p).state = .unsat := by simpa using hc
        have := h.reasons.down p hp' ni.id ((h.grown.child p ni.id).2 ⟨hl.lt, hp⟩)
        rw [hs] at this
        cases this
    rw [if_neg (by simp [hs])]
    have hpar' : ({ s with leafHeap := s.leafHeap.erase ni } : Context K).parentUnsat ni.id =
        false := hpar
    rw [if_neg (by simp [hpar'])]
    cases hc : K.convert (s.node ni.id).content with
    | none => exact .inr (.inl ⟨hs, hpar, rfl, rfl⟩)
    | some task => exact .inr (.inr ⟨task, hs, hpar, rfl, rfl⟩)
  · rw [if_pos (by simp [hs])]
    exact .inl ⟨hs, rfl⟩

theorem Inv.idle_none (h : s.Inv) (hp : s.phase = .poll ∨ s.phase = .create) :
    s.ptask = none := by
  rcases h.idle with he | he | he
  · rcases hp with hp | hp <;> rw [hp] at he <;> cases he
  · rcases hp with hp | hp <;> rw [hp] at he <;> cases he
  · exact he

theorem erase_ids {heap : List NodeInfo} {ni : NodeInfo} (hnd : (heap.map NodeInfo.id).Nodup)
    (hni : ni ∈ heap) {n : Nat} :
    n ∈ (heap.erase ni).map NodeInfo.id ↔ n ∈ heap.map NodeInfo.id ∧ n ≠ ni.id := by
  have hnd' : heap.Nodup := hnd.of_map
  simp only [List.mem_map, hnd'.mem_erase_iff]
  constructor
  · rintro ⟨m, ⟨hne, hm⟩, rfl⟩
    exact ⟨⟨m, hm, rfl⟩, fun he => hne (List.inj_on_of_nodup_map hnd hm hni he)⟩
  · rintro ⟨⟨m, hm, rfl⟩, hne⟩
    exact ⟨m, ⟨fun he => hne (he ▸ rfl), hm⟩, rfl⟩

theorem Inv.createNewTask (h : s.Inv) (hp : s.phase = .create) {ni : NodeInfo}
    (hni : ni ∈ s.leafHeap) : (s.createNewTask ni).Inv := by
  have hnone := h.idle_none (.inr hp)
  have htask : ∀ t, s.ptask ≠ some t := fun t => by simp [hnone]
  have hdone : ∀ v, s.phase ≠ .done v := fun v => by simp [hp]
  have hids : ∀ {n}, n ∈ (s.leafHeap.erase ni).map NodeInfo.id ↔
      n ∈ s.leafHeap.map NodeInfo.id ∧ n ≠ ni.id := erase_ids h.nodup hni
  have hnd : ((s.leafHeap.erase ni).map NodeInfo.id).Nodup :=
    h.nodup.sublist (List.erase_sublist.map _)
  have hl := h.heap ni.id (List.mem_map.2 ⟨ni, hni, rfl⟩)
  rcases createNewTask_cases h hni with ⟨hs, he⟩ | ⟨hs, hpar, hconv, he⟩ | ⟨task, hs, hpar, hconv, he⟩
  · -- skipped: nothing changes but the heap
    rw [he]
    constructor
    · exact ⟨h.grown.parentLt, h.grown.child⟩
    · exact ⟨h.counted.alive, h.counted.made⟩
    · exact ⟨h.reasons.sound, h.reasons.down⟩
    · exact h.pos
    · intro n hn
      have hn := h.heap n (hids.1 hn).1
      exact ⟨hn.lt, hn.state, hn.children, hn.consistent⟩
    · exact hnd
    · intro n hn hsn
      rcases h.unconverted n hn hsn with hr | hr | hr
      · exact .inl hr
      · refine .inr (.inl (hids.2 ⟨hr, ?_⟩))
        rintro rfl
        have hsn : (s.node ni.id).state = .unconverted := hsn
        rw [hs] at hsn
        cases hsn
      · exact .inr (.inr hr)
    · exact fun t ht => absurd ht (htask t)
    · exact .inr (.inr hnone)
    · exact h.started
    · exact fun v hv => absurd hv (hdone v)
  · -- refuted by its conversion
    have hstate := fun n => setState_state (s := s) ni.id n .unsat
    have hrec := (Recolored.refl s).setState ni.id .unsat
    rw [he]
    constructor
    · have := hrec.grown h.grown
      exact ⟨this.parentLt, this.child⟩
    · have := h.counted.leave ni.id (by decide : NodeState.unsat ≠ .waiting)
      rw [if_neg (by rw [hs]; decide)] at this
      exact ⟨this.alive, this.made⟩
    · have := h.reasons.refute hl.children ⟨hl.lt, .inr (.inl hconv)⟩
      exact ⟨this.sound, this.down⟩
    · exact h.pos
    · intro n hn
      have hln := h.heap n (hids.1 hn).1
      refine ⟨hln.lt, ?_, (hrec.children n).trans hln.children, ?_⟩
      · show ((s.setState ni.id .unsat).node n).state = _ ∨
          ((s.setState ni.id .unsat).node n).state = _
        rw [hstate, if_neg (hids.1 hn).2]
        exact hln.state
      · show K.inconsistent ((s.setState ni.id .unsat).node n).content = false
        rw [hrec.content]
        exact hln.consistent
    · exact hnd
    · intro n hn hsn
      have hsn : ((s.setState ni.id .unsat).node n).state = .unconverted := hsn
      rw [hstate] at hsn
      split at hsn
      · cases hsn
      · rename_i hne
        rcases h.unconverted n hn hsn with hr | hr | hr
        · left
          show K.inconsistent ((s.setState ni.id .unsat).node 0).content = true
          rw [hrec.content]
          exact hr
        · exact .inr (.inl (hids.2 ⟨hr, hne⟩))
        · exact .inr (.inr hr)
    · exact fun t ht => absurd ht (htask t)
    · exact .inr (.inr hnone)
    · exact h.started
    · exact fun v hv => absurd hv (hdone v)
  · -- the next task
    rw [he]
    constructor
    · exact ⟨h.grown.parentLt, h.grown.child⟩
    · exact ⟨h.counted.alive, h.counted.made⟩
    · exact ⟨h.reasons.sound, h.reasons.down⟩
    · exact h.pos
    · intro n hn
      have hn := h.heap n (hids.1 hn).1
      exact ⟨hn.lt, hn.state, hn.children, hn.consistent⟩
    · exact hnd
    · intro n hn hsn
      by_cases hne : n = ni.id
      · exact .inr (.inr ⟨_, rfl, hne.symm⟩)
      · rcases h.unconverted n hn hsn with hr | hr | ⟨t, ht, -⟩
        · exact .inl hr
        · exact .inr (.inl (hids.2 ⟨hr, hne⟩))
        · exact absurd ht (htask t)
    · intro t ht
      cases ht
      exact ⟨hl.lt, hs, hl.children, hl.consistent, hconv, fun hm => (hids.1 hm).2 rfl⟩
    · exact .inl rfl
    · exact Phase.noConfusion
    · intro v hv
      cases hv

/-! ## The whole run -/

/-- A step that leaves the tree, the heap and the task alone. -/
theorem Inv.toPhase (h : s.Inv) (ph : Phase) (files : Nat → Option K.Task) (hph : ph ≠ .start)
    (hidle : ph = .returned ∨ ph = .announce ∨ s.ptask = none)
    (hv : ∀ v, ph = .done v → s.leafHeap = [] ∧ (v = .unsat → s.aliveTaskNum = 0)) :
    Inv { s with phase := ph, files := files } where
  grown := ⟨h.grown.parentLt, h.grown.child⟩
  counted := ⟨h.counted.alive, h.counted.made⟩
  reasons := ⟨h.reasons.sound, h.reasons.down⟩
  pos := h.pos
  heap n hn := ⟨(h.heap n hn).lt, (h.heap n hn).state, (h.heap n hn).children,
    (h.heap n hn).consistent⟩
  nodup := h.nodup
  unconverted := h.unconverted
  task t ht :=
    have hp := h.task t ht
    ⟨hp.lt, hp.state, hp.children, hp.consistent, hp.convert, hp.notLeaf⟩
  idle := hidle
  started := hph
  verdict v he := .inr (hv v he)

end Context

open Context

/-- Every step from a state in which only nodes of the tree are announced. -/
theorem step_inv {s s' : Context K} {l : Label} (h : s.Inv)
    (hk : ∀ id, s.Announced id → id < s.size) (hs : Step K maxAlive s l s') : s'.Inv := by
  cases hs with
  | initUnsat => exact absurd rfl h.started
  | propagateUnsat => exact absurd rfl h.started
  | init => exact absurd rfl h.started
  | announce _ ht _ _ => exact h.announce ht _ _
  | readLine line hp hann => exact h.readLine hp line fun id hid => hk id (hann id hid)
  | enter hp _ =>
    exact h.toPhase .create s.files Phase.noConfusion (.inr (.inr (h.idle_none (.inl hp))))
      fun v hv => by cases hv
  | createNewTask hp htop => exact h.createNewTask hp htop.1
  | heapEmpty hp hempty =>
    refine h.toPhase _ s.files Phase.noConfusion (.inr (.inr (h.idle_none (.inr hp)))) ?_
    intro v hv
    refine ⟨hempty, fun hu => ?_⟩
    cases hv
    split at hu
    · cases hu
    · omega
  | display _ ht =>
    rename_i t _
    have := h.toPhase .announce (s.displayCurrentTask t).files Phase.noConfusion
      (.inr (.inl rfl)) fun v hv => by cases hv
    unfold displayCurrentTask at this ⊢
    split <;> simp_all

end AriParti.L2
