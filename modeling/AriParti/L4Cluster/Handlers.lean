import AriParti.L4Cluster.Links

/-!
# What the leader's handlers do

One specification per handler of `leader.py` that changes more than one
record. The loop of `pre_partition` is described in closed form: after it the
ranks below the number of nodes hold one tree node each, and the others are in
the queue.

## Results

* `processSplitSucceed_ok`: the successor state, and what the two assertions
  and the missing parent had to satisfy.
* `prePartitionLoop_spec`: the closed form.
* `LeaderMove.coords`: the leader changes nothing inside a coordinator.
-/
namespace AriParti.L4
open AriParti.Core AriParti.L3

/-- Everything outside the leader and its outgoing channels. -/
structure SameCoords (s s' : State) : Prop where
  coord : s'.coord = s.coord
  toL : s'.toL = s.toL
  files : s'.files = s.files
  sent : s'.sent = s.sent
  received : s'.received = s.received

theorem SameCoords.refl (s : State) : SameCoords s s := ⟨rfl, rfl, rfl, rfl, rfl⟩

theorem SameCoords.trans {s₁ s₂ s₃ : State} (h : SameCoords s₁ s₂) (h' : SameCoords s₂ s₃) :
    SameCoords s₁ s₃ :=
  ⟨h'.coord.trans h.coord, h'.toL.trans h.toL, h'.files.trans h.files, h'.sent.trans h.sent,
    h'.received.trans h.received⟩

/-- The state a handler ends in, raised or not. -/
def Handled.state : Handled → State
  | .ok s => s
  | .error (_, s) => s

section Frame

variable {n : Nat} (s : State)

theorem updateAssignCoordinator_same (p c : Nat) (f : TaskFile) :
    SameCoords s (Handled.state (updateAssignCoordinator s p c f)) := by
  unfold updateAssignCoordinator
  simp only
  split <;> exact ⟨rfl, rfl, rfl, rfl, rfl⟩

theorem updateSplitCoordinator_same (c : Nat) :
    SameCoords s (Handled.state (updateSplitCoordinator s c)) := by
  unfold updateSplitCoordinator
  split <;> exact ⟨rfl, rfl, rfl, rfl, rfl⟩

theorem updateSplitAssignInfo_same (src c : Nat) (f : TaskFile) :
    SameCoords s (Handled.state (updateSplitAssignInfo s src c f)) := by
  unfold updateSplitAssignInfo
  split
  · exact .refl s
  · rename_i p _
    have h := updateAssignCoordinator_same s p c f
    split
    · rename_i e he
      rw [he] at h
      exact h
    · rename_i s₁ hs
      rw [hs] at h
      exact h.trans (updateSplitCoordinator_same s₁ src)

theorem processSplitSucceed_same (src t : Nat) (f : TaskFile) :
    SameCoords s (Handled.state (processSplitSucceed s src t f)) := by
  refine SameCoords.trans ?_ (updateSplitAssignInfo_same _ src t f)
  exact ⟨rfl, rfl, rfl, rfl, rfl⟩

theorem prePartitionLoop_same (k : Nat) (files : List TaskFile) (i : Nat) :
    SameCoords s (Handled.state (prePartitionLoop n k files i s)) := by
  induction i with
  | zero => exact .refl s
  | succ i ih =>
    unfold prePartitionLoop
    split
    · rename_i e he
      rw [he] at ih
      exact ih
    · rename_i s₁ hs
      rw [hs] at ih
      split
      · refine ih.trans (SameCoords.trans ?_ (updateSplitAssignInfo_same _ n i _))
        exact ⟨rfl, rfl, rfl, rfl, rfl⟩
      · exact ih.trans ⟨rfl, rfl, rfl, rfl, rfl⟩

theorem prePartition_same (num : Nat) (files : List TaskFile) :
    SameCoords s (Handled.state (prePartition n s num files)) := by
  unfold prePartition
  simp only
  have h := prePartitionLoop_same (n := n) (s.send n .assignIsolated)
    (if num = 0 then 1 else num) files n
  have hsend : SameCoords s (s.send n .assignIsolated) := ⟨rfl, rfl, rfl, rfl, rfl⟩
  have h := hsend.trans h
  split
  · rename_i e he
    rw [he] at h
    exact h
  · rename_i s₁ hs
    rw [hs] at h
    split
    · exact h
    · split <;> exact h.trans ⟨rfl, rfl, rfl, rfl, rfl⟩

theorem leaderBoot_same : SameCoords s (Handled.state (leaderBoot n s)) := by
  unfold leaderBoot
  simp only
  split <;> exact ⟨rfl, rfl, rfl, rfl, rfl⟩

theorem stop_same (o : Outcome) : SameCoords s (s.stop n o) := by
  rw [State.stop, terminateCoordinators_eq]
  exact ⟨rfl, rfl, rfl, rfl, rfl⟩

end Frame

/-- What a move of the leader leaves alone: it reads at most one message. -/
structure OnlyReads (s s' : State) : Prop where
  coord : s'.coord = s.coord
  toL : s'.toL = s.toL ∨ ∃ c m rest, s.toL c = m :: rest ∧ s'.toL = Function.update s.toL c rest
  files : s'.files = s.files
  sent : s'.sent = s.sent
  received : s'.received = s.received

theorem SameCoords.onlyReads {s s' : State} (h : SameCoords s s') : OnlyReads s s' :=
  ⟨h.coord, .inl h.toL, h.files, h.sent, h.received⟩

theorem OnlyReads.afterPop {s s' : State} {c : Nat} {m : C2L} {rest : List C2L}
    (hm : s.toL c = m :: rest) (h : SameCoords (s.popUp c rest) s') : OnlyReads s s' :=
  ⟨h.coord, .inr ⟨c, m, rest, hm, h.toL⟩, h.files, h.sent, h.received⟩

theorem Crash.coords {n : Nat} {s s' : State} {l : Lbl} {e : LeaderError}
    (h : Crash n s l e s') : OnlyReads s s' := by
  cases h with
  | boot hp h =>
    have hs := leaderBoot_same (n := n) s
    rw [h] at hs
    exact hs.onlyReads
  | @prePartition _ _ num files rest hp hm h =>
    have hs := prePartition_same (n := n) (s.popUp n rest) num files
    rw [h] at hs
    exact .afterPop hm hs
  | @split _ _ src t tag f rest hp hsrc hm h =>
    have hs := processSplitSucceed_same (s.popUp src rest) src t f
    rw [h] at hs
    exact .afterPop hm hs
  | unassigned hp hsrc hm hv => exact .afterPop hm (.refl _)
  | tree hp hsrc hm hv ht => exact .afterPop hm (.refl _)
  | unexpectedMain hp hsrc hm => exact .afterPop hm (.refl _)
  | unexpectedBoot hp hm h => exact .afterPop hm (.refl _)

/-- The leader changes nothing inside a coordinator. -/
theorem LeaderMove.coords {n : Nat} {s s' : State} {l : Lbl} (h : LeaderMove n s l s') :
    OnlyReads s s' := by
  cases h with
  | @booted s₁ hp h =>
    have hs := leaderBoot_same (n := n) s
    rw [h] at hs
    have hs' : SameCoords s (setPhase s₁ .waitPrePartition) := hs.trans ⟨rfl, rfl, rfl, rfl, rfl⟩
    exact hs'.onlyReads
  | @prePartitioned num files rest s₁ hp hm h =>
    have hs := prePartition_same (n := n) (s.popUp n rest) num files
    rw [h] at hs
    exact .afterPop hm (hs.trans ⟨rfl, rfl, rfl, rfl, rfl⟩)
  | @splitSucceeded src t tag f rest _ hp hsrc hm h =>
    have hs := processSplitSucceed_same (s.popUp src rest) src t f
    rw [h] at hs
    exact .afterPop hm hs
  | splitFailed hp hsrc hm =>
    refine .afterPop hm ?_
    unfold processSplitFailed
    simp only
    split <;> exact ⟨rfl, rfl, rfl, rfl, rfl⟩
  | notified hp hsrc hm hv ht hd => exact .afterPop hm ⟨rfl, rfl, rfl, rfl, rfl⟩
  | queueEmpty hp hi => exact (SameCoords.refl s).onlyReads
  | requested hp hi hs => exact ⟨rfl, .inl rfl, rfl, rfl, rfl⟩
  | rotated hp hi => exact ⟨rfl, .inl rfl, rfl, rfl, rfl⟩
  | timedOut hp => exact (stop_same s _).onlyReads
  | coordinatorError hp hm => exact .afterPop hm (stop_same _ _)
  | @verdict src v r rest t hp hsrc hm hv ht hd =>
    have hs := stop_same (n := n) ((s.popUp src rest).setTree t) (.verdict t.result)
    exact .afterPop hm ⟨hs.coord, hs.toL, hs.files, hs.sent, hs.received⟩
  | @isoVerdict r rest hp hm =>
    have hs := stop_same (n := n) ((s.popUp n rest).setTree (s.leader.tree.originalSolved r))
      (.verdict (s.leader.tree.originalSolved r).result)
    exact .afterPop hm ⟨hs.coord, hs.toL, hs.files, hs.sent, hs.received⟩
  | @crashed _ e s₁ h =>
    have h₁ := h.coords
    have h₂ := stop_same (n := n) s₁ (.leaderError e)
    exact ⟨h₂.coord.trans h₁.coord, by rw [h₂.toL]; exact h₁.toL, h₂.files.trans h₁.files,
      h₂.sent.trans h₁.sent, h₂.received.trans h₁.received⟩

theorem OnlyReads.mem {s s' : State} (h : OnlyReads s s') {c : Nat} {m : C2L}
    (hm : m ∈ s'.toL c) : m ∈ s.toL c := by
  rcases h.toL with h | ⟨d, m', rest, hd, h⟩
  · rwa [h] at hm
  · rw [h] at hm
    by_cases hc : c = d
    · subst hc
      rw [Function.update_self] at hm
      rw [hd]
      exact List.mem_cons_of_mem _ hm
    · rwa [Function.update_of_ne hc] at hm

/-! ## Accepting a split -/

/-- With an assigned, splitting giver and an idle target, the giver's node gets
a child for the target. -/
theorem updateSplitAssignInfo_ok {s : State} {src t p : Nat} {f : TaskFile} (hne : src ≠ t)
    (hp : (s.leader.coordinators src).assigned = some p)
    (hidle : (s.leader.coordinators t).status = .idle)
    (hsp : (s.leader.coordinators src).status = .splitting) :
    updateSplitAssignInfo s src t f =
      .ok (((s.setTree (s.leader.tree.splitNode p t f)).setInfo t
        ⟨.solving, some s.leader.tree.size, (s.leader.coordinators t).solvingRound + 1, 0⟩).setInfo
          src { s.leader.coordinators src with
            status := .solving, splitCount := (s.leader.coordinators src).splitCount + 1 }) := by
  simp [updateSplitAssignInfo, updateAssignCoordinator, State.setTree, State.setInfo, hp, hidle,
    hsp, CoordinatorInfo.assignNode, CoordinatorInfo.splitNode, updateSplitCoordinator, hne]

/-- Conversely a split is accepted only with the giver assigned and splitting,
the target idle, and the two different. -/
theorem updateSplitAssignInfo_inv {s s' : State} {src t : Nat} {f : TaskFile}
    (h : updateSplitAssignInfo s src t f = .ok s') :
    src ≠ t ∧ (s.leader.coordinators t).status = .idle ∧
      (s.leader.coordinators src).status = .splitting ∧
      ∃ p, (s.leader.coordinators src).assigned = some p := by
  unfold updateSplitAssignInfo at h
  split at h
  · cases h
  · rename_i p hp
    split at h
    · cases h
    · rename_i s₁ h₁
      simp only [updateAssignCoordinator] at h₁
      split at h₁
      · cases h₁
      · rename_i ci hci
        obtain ⟨hidle, rfl⟩ := CoordinatorInfo.assignNode_ok hci
        cases h₁
        simp only [updateSplitCoordinator] at h
        split at h
        · cases h
        · rename_i ci hci
          have hsp := (CoordinatorInfo.splitNode_ok hci).1
          by_cases hst : src = t
          · subst hst
            simp [State.setInfo] at hsp
          · exact ⟨hst, hidle, by simpa [State.setInfo, State.setTree, hst] using hsp, p, hp⟩

/-- The state after an accepted split. -/
theorem processSplitSucceed_ok {s s' : State} {src t : Nat} {f : TaskFile}
    (h : processSplitSucceed s src t f = .ok s') :
    src ≠ t ∧ (s.leader.coordinators t).status = .idle ∧
      (s.leader.coordinators src).status = .splitting ∧
      ∃ p, (s.leader.coordinators src).assigned = some p ∧
      s' = ((((s.send t (.assignNode src s.leader.tree.size)).send src
          (.transferNode t s.leader.tree.size f)).setTree (s.leader.tree.splitNode p t f)).setInfo t
            ⟨.solving, some s.leader.tree.size, (s.leader.coordinators t).solvingRound + 1, 0⟩).setInfo
          src { s.leader.coordinators src with
            status := .solving, splitCount := (s.leader.coordinators src).splitCount + 1 } := by
  unfold processSplitSucceed at h
  obtain ⟨hst, hidle, hsp, p, hp⟩ := updateSplitAssignInfo_inv h
  rw [updateSplitAssignInfo_ok hst hp hidle hsp, Except.ok.injEq] at h
  exact ⟨hst, hidle, hsp, p, hp, h.symm⟩

theorem processSplitSucceed_isOk {s : State} {src t p : Nat} {f : TaskFile} (hne : src ≠ t)
    (hp : (s.leader.coordinators src).assigned = some p)
    (hidle : (s.leader.coordinators t).status = .idle)
    (hsp : (s.leader.coordinators src).status = .splitting) :
    ∃ s', processSplitSucceed s src t f = .ok s' := by
  unfold processSplitSucceed
  exact ⟨_, updateSplitAssignInfo_ok hne hp hidle hsp⟩

/-! ## Boot and pre-partition -/

theorem leaderBoot_ok {n : Nat} {s s' : State} (h : leaderBoot n s = .ok s') :
    s' = ((s.send n .assignIsolated).setTree (s.leader.tree.assignRootNode n .input)).setInfo n
      ⟨.solving, some s.leader.tree.size, (s.leader.coordinators n).solvingRound + 1, 0⟩ := by
  unfold leaderBoot at h
  simp only at h
  split at h
  · cases h
  · rename_i ci hci
    rw [(CoordinatorInfo.assignNode_ok hci).2] at h
    simp only [Except.ok.injEq] at h
    exact h.symm

/-- The state after the loop of `pre_partition` has handled the ranks below
`i`, with `k` nodes to hand out. -/
structure PreLoop (n k : Nat) (files : List TaskFile) (i : Nat) (s s' : State) : Prop where
  same : SameCoords s s'
  phase : s'.leader.phase = s.leader.phase
  next : s'.leader.nextSplitRank = s.leader.nextSplitRank
  idle : s'.leader.idleCoordinators =
    s.leader.idleCoordinators ++ (List.range i).filter (fun c => decide (k ≤ c))
  given : ∀ c < n, c < i → c < k → s'.leader.coordinators c = ⟨.solving, some (c + 1), 1, 0⟩ ∧
    s'.toC c = s.toC c ++ [.assignNode n (c + 1)]
  kept : ∀ c < n, ¬(c < i ∧ c < k) → s'.leader.coordinators c = s.leader.coordinators c ∧
    s'.toC c = s.toC c
  iso : (s'.leader.coordinators n).assigned = some 0
  toIso : s'.toC n = s.toC n
  wf : s'.leader.tree.WF
  result : s'.leader.tree.result = s.leader.tree.result
  size : s'.leader.tree.size = min i k + 1
  node : ∀ c < min i k,
    s'.leader.tree.node (c + 1) = ⟨some 0, [], .unsolved, .unsolved, c, files.getD c .input⟩
  node0 : s'.leader.tree.node 0 =
    { s.leader.tree.node 0 with children := (List.range (min i k)).map (· + 1) }

theorem prePartitionLoop_spec {n k : Nat} {files : List TaskFile} {s : State}
    (hinfo : ∀ c < n, s.leader.coordinators c = initInfo)
    (hiso : (s.leader.coordinators n).assigned = some 0)
    (hwf : s.leader.tree.WF) (hsize : s.leader.tree.size = 1)
    (hch : (s.leader.tree.node 0).children = [])
    (hst : (s.leader.tree.node 0).status = .unsolved) {i : Nat} (hi : i ≤ n) :
    ∃ s', prePartitionLoop n k files i s = .ok s' ∧ PreLoop n k files i s s' := by
  induction i with
  | zero =>
    refine ⟨s, rfl, ⟨.refl s, rfl, rfl, by simp, by simp, fun _ _ _ => ⟨rfl, rfl⟩, hiso, rfl, hwf, rfl,
      by simpa using hsize, by simp, ?_⟩⟩
    rw [Nat.zero_min, List.range_zero, List.map_nil, ← hch]
  | succ i ih =>
    obtain ⟨s₁, hs, h⟩ := ih (by omega)
    unfold prePartitionLoop
    rw [hs]
    simp only
    by_cases hk : i < k
    · rw [if_pos hk]
      have hmin : min i k = i := by omega
      have hmin' : min (i + 1) k = i + 1 := by omega
      have hne : i ≠ n := by omega
      have hold := h.kept i (by omega) (by omega)
      have hidle : s₁.leader.coordinators i = initInfo := hold.1.trans (hinfo i (by omega))
      rw [updateSplitAssignInfo_ok (p := 0) (Ne.symm hne)]
      rotate_left
      · simpa [State.send, State.setInfo] using h.iso
      · simp [State.send, State.setInfo, hne, hidle, initInfo]
      · simp [State.send, State.setInfo]
      refine ⟨_, rfl, ?_⟩
      have hfil : (List.range (i + 1)).filter (fun c => decide (k ≤ c)) =
          (List.range i).filter (fun c => decide (k ≤ c)) := by
        simp [List.range_succ, hk]
      have hsz : s₁.leader.tree.size = i + 1 := by rw [h.size, hmin]
      constructor
      case same => exact h.same.trans ⟨rfl, rfl, rfl, rfl, rfl⟩
      case phase => exact h.phase
      case next => exact h.next
      case idle => rw [hfil]; exact h.idle
      case given =>
        intro c hc hci hck
        have hcn : c ≠ n := by omega
        by_cases hcc : c = i
        · subst hcc
          simp [State.setInfo, State.setTree, State.send, hcn, hidle, initInfo, hsz, hold.2]
        · have := h.given c hc (by omega) hck
          simpa [State.setInfo, State.setTree, State.send, hcn, hcc] using this
      case kept =>
        intro c hc hck
        have hcn : c ≠ n := by omega
        have hcc : c ≠ i := by omega
        have := h.kept c hc (by omega)
        simpa [State.setInfo, State.setTree, State.send, hcn, hcc] using this
      case iso => simpa [State.setInfo, State.setTree, State.send] using h.iso
      case toIso =>
        simpa [State.setInfo, State.setTree, State.send, Ne.symm hne] using h.toIso
      case wf =>
        have hst₁ : (s₁.leader.tree.node 0).status ≠ .unsat := by
          rw [h.node0]; simp [hst]
        exact h.wf.splitNode (by omega) hst₁ i _
      case result => exact h.result
      case size => rw [hmin']; exact congrArg (· + 1) hsz
      case node =>
        intro c hc
        have := h.node c
        rw [hmin] at this
        rw [hmin'] at hc
        by_cases hcc : c = i
        · subst hcc
          simp [State.setInfo, State.setTree, State.send, DistributedTree.splitNode,
            DistributedTree.makeNode, hsz]
        · have := this (by omega)
          simpa [State.setInfo, State.setTree, State.send, DistributedTree.splitNode,
            DistributedTree.makeNode, DistributedTree.modify, hsz, hcc] using this
      case node0 =>
        have := h.node0
        rw [hmin] at this
        rw [hmin']
        simp [State.setInfo, State.setTree, State.send, DistributedTree.splitNode,
          DistributedTree.makeNode, DistributedTree.modify, hsz, this, List.range_succ]
    · rw [if_neg hk]
      refine ⟨_, rfl, ?_⟩
      have hmin : min (i + 1) k = min i k := by omega
      refine ⟨h.same.trans ⟨rfl, rfl, rfl, rfl, rfl⟩, h.phase, h.next, ?_, ?_, ?_, h.iso, h.toIso,
        h.wf, h.result, by rw [hmin]; exact h.size, by rw [hmin]; exact h.node,
        by rw [hmin]; exact h.node0⟩
      · simp [State.pushIdle, h.idle, List.range_succ, List.filter_append, Nat.le_of_not_lt hk]
      · exact fun c hc hci hck => h.given c hc (by omega) hck
      · exact fun c hc hck => h.kept c hc (by omega)

/-- `pre_partition` as a whole, from the tree that has only the root. -/
theorem prePartition_ok {n num : Nat} {files : List TaskFile} {s : State}
    (hinfo : ∀ c < n, s.leader.coordinators c = initInfo)
    (hiso : (s.leader.coordinators n).assigned = some 0)
    (hwf : s.leader.tree.WF) (hsize : s.leader.tree.size = 1)
    (hch : (s.leader.tree.node 0).children = [])
    (hst : (s.leader.tree.node 0).status = .unsolved)
    (hpart : (s.leader.tree.node 0).partialStatus = .unsolved) :
    ∃ s₁ t, PreLoop n (if num = 0 then 1 else num) files n (s.send n .assignIsolated) s₁ ∧
      s₁.leader.tree.nodePartialSolved 0 .unsat = .ok t ∧ t.WF ∧
      prePartition n s num files = .ok (s₁.setTree t) := by
  obtain ⟨s₁, hs, hl⟩ : ∃ s₁, prePartitionLoop n (if num = 0 then 1 else num) files n
      (s.send n .assignIsolated) = .ok s₁ ∧
      PreLoop n (if num = 0 then 1 else num) files n (s.send n .assignIsolated) s₁ :=
    prePartitionLoop_spec (s := s.send n .assignIsolated) hinfo hiso hwf hsize hch hst
      (Nat.le_refl n)
  have hpart₁ : (s₁.leader.tree.node 0).partialStatus = .unsolved := by
    rw [hl.node0]; exact hpart
  obtain ⟨t, ht, htwf⟩ := DistributedTree.nodePartialSolved_ok (r := .unsat) hl.wf hl.wf.size hpart₁
    (.inr rfl)
  refine ⟨s₁, t, hl, ht, htwf, ?_⟩
  unfold prePartition
  simp only
  rw [hs]
  simp only [hl.wf.root, ht]

end AriParti.L4
