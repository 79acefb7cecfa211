import AriParti.L4Cluster.HandOff

/-!
# Every accepted split is delivered

The leader's moves keep the stages of the hand-over, so in every run without
stale refusals a node the leader has recorded is still with its giver, or on
the way, or with the coordinator it is assigned to. When nothing is raised,
the message that makes the giver send the file is not thrown away.

## Results

* `handOff_inductive`: `HandOff` in every run without stale refusals.
* `hand_off_delivers`: **the right file, exactly once**.
-/
namespace AriParti.L4
open AriParti.Core AriParti.L3

/-! ## The moves of the leader -/

/-- A message that gives no node to anybody. -/
def L2C.isPlain : L2C → Bool
  | .requestSplit _ _ => true
  | .terminateCoordinator => true
  | _ => false

section LeaderMoves

variable {n : Nat} {s s' : State} {l : Lbl}

/-- The leader changes no shape and sends at most one message, which gives no
node away. -/
structure Bystander (n : Nat) (s s' : State) : Prop where
  shape : s.leader.tree.SameShape s'.leader.tree
  down : ∀ c ≤ n, s'.down c = s.down c ∨ ∃ m, s'.down c = s.down c ++ [m] ∧ m.isPlain = true
  assigned : ∀ c < n, (s'.leader.coordinators c).assigned = (s.leader.coordinators c).assigned ∨
    0 < (s.toL c).countP C2L.isNotify

theorem Bystander.mem (h : Bystander n s s') {c : Nat} (hc : c ≤ n) {m : L2C}
    (hm : m.isPlain = false) : m ∈ s'.down c ↔ m ∈ s.down c := by
  rcases h.down c hc with hd | ⟨m', hd, hp⟩
  · rw [hd]
  · rw [hd, List.mem_append, List.mem_singleton]
    refine ⟨fun hin => hin.resolve_right ?_, .inl⟩
    rintro rfl
    rw [hm] at hp
    cases hp

theorem Bystander.frame (h : Bystander n s s') (hR : OnlyReads s s')
    (hL : ∀ c < n, LinkInv (s.link c)) : Frame n s s' := by
  refine ⟨h.shape, hR.files, hR.sent, hR.received, fun c hc t v f => h.mem (Nat.le_of_lt hc) rfl,
    fun c hc a v => ?_, fun c hc hp => ?_, fun fs hw => by rw [hR.coord]; exact hw⟩
  · have hco : (s'.link c).co = (s.link c).co := congrFun hR.coord c
    rw [Link.Expects, Link.Expects, link_down, h.mem (Nat.le_of_lt hc) rfl, hco]
    rfl
  · rw [hR.coord] at hp ⊢
    refine ⟨hp, rfl, (h.assigned c hc).resolve_right fun hn => ?_⟩
    have hwork := (hL c hc).work
    have hle := (s.link c).isAssigned_le
    have hbusy : (s.link c).busy = true := by simp [Link.busy, link_co, hp]
    rw [hbusy, Bool.toNat_true, link_up] at hwork
    omega

theorem Bystander.iso (h : Bystander n s s') (hR : OnlyReads s s') (hI : IsoHands n s) :
    IsoHands n s' := by
  refine hI.congr (by rw [hR.coord]) ?_ (fun v _ => ⟨h.shape.giver v, h.shape.assignTo v,
    h.shape.file v⟩) (Nat.le_of_eq h.shape.size.symm) fun v _ => by rw [hR.sent]
  rcases h.down n (Nat.le_refl n) with hd | ⟨m, hd, hp⟩
  · rw [hd]
  · rw [hd, List.countP_append]
    have hm : m.isAssignIsolated = false := by
      cases m with
      | assignIsolated => cases hp
      | _ => rfl
    simp [hm]

theorem Bystander.stop (h : Bystander n s s') (hd : s'.down = s.down) (o : Outcome) :
    Bystander n s (s'.stop n o) where
  shape := by rw [stop_tree]; exact h.shape
  down c hc := by
    refine .inr ⟨.terminateCoordinator, ?_, rfl⟩
    rw [← link_down, link_stop n s' o hc, link_down, hd]
  assigned c hc := by
    rw [← link_info, link_stop n s' o (Nat.le_of_lt hc)]
    exact h.assigned c hc

/-- After a split the giver and the receiver hold one more message each. -/
theorem HandOff.splitSucceeded (hH : HandOff n s) (hS : Synced n s)
    (hp : s.leader.phase = .main) {src t tag : Nat} {f : TaskFile} {rest : List C2L}
    (hsrc : src ≤ n) (hm : s.toL src = .splitSucceed t tag f :: rest)
    (h : processSplitSucceed (s.popUp src rest) src t f = .ok s')
    (hands : ∀ c < n, HandInv c (s'.link c)) : HandOff n s' := by
  obtain ⟨hsrc, htn, hne, -, -, -, -⟩ := hS.accept hp hsrc hm
  obtain ⟨-, -, -, p, hpp, hs'⟩ := processSplitSucceed_ok h
  obtain ⟨hp0, hplt, hpto, -⟩ := (hS.roster.main hp).node src hsrc p hpp
  have hwf := hS.tree (.inr hp)
  have htree : s'.leader.tree = s.leader.tree.splitNode p t f := by
    rw [hs']; rfl
  have hold := fun v hv => hwf.giver_splitNode (v := v) hv p t f
  obtain ⟨hgnew, hnew⟩ := DistributedTree.giver_new (t := s.leader.tree) hplt t f
  rw [hpto] at hgnew
  have hco : s'.coord = s.coord := by rw [hs']; rfl
  have hfiles : s'.files = s.files := by rw [hs']; rfl
  have hsent : s'.sent = s.sent := by rw [hs']; rfl
  have hrecv : s'.received = s.received := by rw [hs']; rfl
  have hdown : ∀ c, s'.down c = if c = src then s.down c ++ [.transferNode t s.leader.tree.size f]
      else if c = t then s.down c ++ [.assignNode src s.leader.tree.size] else s.down c := by
    intro c
    simp only [State.popUp] at hs'
    by_cases hcs : c = src
    · subst hcs
      simp [hs', State.down, State.setInfo, State.setTree, State.send, hne]
    · by_cases hct : c = t
      · subst hct
        simp [hs', State.down, State.setInfo, State.setTree, State.send, hcs]
      · simp [hs', State.down, State.setInfo, State.setTree, State.send, hcs, hct]
  have hsub : ∀ c m, m ∈ s.down c → m ∈ s'.down c := by
    intro c m hin
    rw [hdown]
    split
    · exact List.mem_append_left _ hin
    · split
      · exact List.mem_append_left _ hin
      · exact hin
  have hexpects : ∀ c a v, (s.link c).Expects a v → (s'.link c).Expects a v := by
    rintro c a v (hin | hph)
    · exact .inl (hsub c _ hin)
    · exact .inr (by rw [link_co, hco]; exact hph)
  constructor
  case hands => exact hands
  case iso =>
    refine hH.iso.congr (by rw [hco]) ?_ (by rw [htree]; exact fun v hv => hold v hv)
      (by rw [htree]; exact Nat.le_succ _) (by rw [hsent]; exact fun _ _ => rfl)
    rw [hdown, if_neg (Nat.ne_of_gt hsrc), if_neg (Nat.ne_of_gt htn)]
  case ranks =>
    intro v h0 hv
    rw [htree] at hv ⊢
    rw [DistributedTree.splitNode_size] at hv
    by_cases hvs : v = s.leader.tree.size
    · subst hvs
      rw [hgnew, hnew]
      exact ⟨Nat.le_of_lt hsrc, htn⟩
    · obtain ⟨h1, h2, -⟩ := hold v (by omega)
      rw [h1, h2]
      exact hH.ranks v h0 (by omega)
  case stage =>
    intro v h0 hv
    rw [htree, DistributedTree.splitNode_size] at hv
    by_cases hvs : v = s.leader.tree.size
    · subst hvs
      obtain ⟨hs0, hr0⟩ := hH.unborn _ (Nat.le_refl _)
      refine .pending (.inl ?_) (by rw [hsent]; exact hs0) (by rw [hrecv]; exact hr0) ?_
      · rw [htree, hgnew, hnew]
        refine ⟨hsrc, ?_⟩
        rw [hdown, if_pos rfl]
        exact List.mem_append_right _ (List.mem_singleton.2 rfl)
      · rw [htree, hgnew, hnew]
        refine .inl ?_
        rw [link_down, hdown, if_neg (Ne.symm hne), if_pos rfl]
        exact List.mem_append_right _ (List.mem_singleton.2 rfl)
    · have hlt : v < s.leader.tree.size := by omega
      obtain ⟨h1, h2, h3⟩ := hold v hlt
      refine (hH.stage v h0 hlt).mono (by rw [htree]; exact h1) (by rw [htree]; exact ⟨h2, h3⟩)
        (by rw [hsent]) (by rw [hrecv]) (by rw [hfiles]; exact id) ?_ (hexpects _ _ _)
      unfold Holds
      rw [htree, h1, h2, h3, hco]
      exact Or.imp_left (And.imp_right (hsub _ _))
  case transfers =>
    intro c hc t' v f' hin
    rw [hsent, htree]
    have hcase : L2C.transferNode t' v f' ∈ s.down c ∨
        (c = src ∧ t' = t ∧ v = s.leader.tree.size ∧ f' = f) := by
      rw [hdown] at hin
      split at hin
      · rename_i hcs
        rcases List.mem_append.1 hin with hin | hin
        · exact .inl hin
        · cases List.mem_singleton.1 hin
          exact .inr ⟨hcs, rfl, rfl, rfl⟩
      · split at hin
        · exact .inl ((List.mem_append.1 hin).resolve_right fun h => by
            cases List.mem_singleton.1 h)
        · exact .inl hin
    rcases hcase with hin | ⟨rfl, rfl, rfl, rfl⟩
    · obtain ⟨h1, h2, h3, h4, h5, h6⟩ := hH.transfers c hc t' v f' hin
      obtain ⟨h7, h8, h9⟩ := hold v h2
      rw [h7, h8, h9, DistributedTree.splitNode_size]
      exact ⟨h1, by omega, h3, h4, h5, h6⟩
    · rw [hgnew, hnew, DistributedTree.splitNode_size]
      exact ⟨by omega, by omega, rfl, rfl, rfl, (hH.unborn _ (Nat.le_refl _)).1⟩
  case inFlight =>
    intro a b f' v hin
    rw [hfiles] at hin
    obtain ⟨h1, h2, h3, h4, h5, h6⟩ := hH.inFlight a b f' v hin
    obtain ⟨h7, h8, -⟩ := hold v h2
    rw [htree, hsent, hrecv, h7, h8, DistributedTree.splitNode_size]
    exact ⟨h1, by omega, h3, h4, h5, h6⟩
  case unborn =>
    intro v hv
    rw [htree, DistributedTree.splitNode_size] at hv
    rw [hsent, hrecv]
    exact hH.unborn v (by omega)
  case root =>
    intro c hc hph
    rw [hco] at hph ⊢
    obtain ⟨v, F, h1, h2, h3, h4⟩ := hH.root c hc hph
    obtain ⟨-, -, h5⟩ := hold v h2
    refine ⟨v, F, ?_, by rw [htree, DistributedTree.splitNode_size]; omega, h3,
      by rw [htree, h5]; exact h4⟩
    have hct : c ≠ t := by
      rintro rfl
      have := (hS.accept hp (Nat.le_of_lt hsrc) hm).2.2.2.2.2.2
      rw [this] at h1
      cases h1
    by_cases hcs : c = src
    · subst hcs
      simpa [hs', State.setInfo, State.setTree, State.send, State.popUp] using h1
    · simpa [hs', State.setInfo, State.setTree, State.send, State.popUp, hcs, hct] using h1

/-- Pre-partition in a run without exceptions: the isolated coordinator still
holds the files it announced, one for each node the loop makes. -/
theorem Synced.prePartition (hS : Synced n s) (hn : 0 < n)
    (hp : s.leader.phase = .waitPrePartition) {num : Nat} {files : List TaskFile}
    {rest : List C2L} (hm : s.toL n = .prePartitionDone num files :: rest)
    (h : prePartition n (s.popUp n rest) num files = .ok s') :
    ∃ s₂ t k, PreLoop n k files n ((s.popUp n rest).send n .assignIsolated) s₂ ∧
      s₂.leader.tree.nodePartialSolved 0 .unsat = .ok t ∧ s' = s₂.setTree t ∧
      min n k = files.length ∧ (s.coord n).phase = .waitLeader files := by
  obtain ⟨htree, hiso⟩ := hS.roster.wait hp
  obtain ⟨hq, -⟩ := hS.roster.quiet (.inr hp)
  obtain ⟨s₂, t, hl, ht, -, hok⟩ := prePartition_start num files rest hq htree hiso
  rw [hok] at h
  cases h
  obtain ⟨hph, hlen, hnum⟩ := (hS.iso.early (.inr hp)).2.2 num files
    (by rw [hm]; exact List.mem_cons_self)
  exact ⟨s₂, t, _, hl, ht, rfl, by rw [hlen]; split <;> omega, hph⟩

/-- After pre-partition the isolated coordinator holds one file for each node. -/
theorem HandOff.prePartitioned (hH : HandOff n s) (hS : Synced n s) (hn : 0 < n)
    (hp : s.leader.phase = .waitPrePartition) {num : Nat} {files : List TaskFile}
    {rest : List C2L} (hm : s.toL n = .prePartitionDone num files :: rest)
    (h : prePartition n (s.popUp n rest) num files = .ok s')
    (hands : ∀ c < n, HandInv c ((setPhase s' .main).link c)) : HandOff n (setPhase s' .main) := by
  obtain ⟨htree, -⟩ := hS.roster.wait hp
  obtain ⟨hq, -⟩ := hS.roster.quiet (.inr hp)
  obtain ⟨s₂, t, k, hl, ht, rfl, hk, hph⟩ := hS.prePartition hn hp hm h
  have hshape := (DistributedTree.nodePartialSolved_shape ht).1
  have hsize1 : s.leader.tree.size = 1 := by rw [htree]; rfl
  have hsize : t.size = files.length + 1 := by rw [hshape.size, hl.size, hk]
  have h0 : (s₂.leader.tree.node 0).assignTo = n := by
    rw [hl.node0]
    simp [State.send, State.popUp, htree, DistributedTree.assignRootNode,
      DistributedTree.makeNode, DistributedTree.empty]
  have hnode : ∀ i < files.length, t.giver (i + 1) = n ∧ (t.node (i + 1)).assignTo = i ∧
      (t.node (i + 1)).file = files.getD i .input := by
    intro i hi
    have hn := hl.node i (by rw [hk]; exact hi)
    refine ⟨?_, by rw [hshape.assignTo, hn], by rw [hshape.file, hn]⟩
    rw [hshape.giver, DistributedTree.giver, hn]
    exact h0
  set s' := setPhase (s₂.setTree t) .main with hs'
  have htree' : s'.leader.tree = t := rfl
  have hco : s'.coord = s.coord := hl.same.coord
  have hsent : s'.sent = s.sent := hl.same.sent
  have hrecv : s'.received = s.received := hl.same.received
  have hfiles : s'.files = s.files := hl.same.files
  have hunborn := fun v (hv : 0 < v) => hH.unborn v (by omega)
  have hdown : ∀ c < n, s'.down c = if c < files.length then [.assignNode n (c + 1)] else [] := by
    intro c hc
    have hd := (hq c hc).down
    rw [link_down, State.down, List.append_eq_nil_iff] at hd
    have hd' : s'.down c = (s.coord c).drained ++ s₂.toC c := by
      rw [State.down, hco]; rfl
    have htoC : ((s.popUp n rest).send n .assignIsolated).toC c = [] := by
      simp [State.send, State.popUp, Nat.ne_of_lt hc, hd.2]
    rw [hd', hd.1, List.nil_append]
    split
    · rw [(hl.given c hc hc (by omega)).2, htoC]; rfl
    · rw [(hl.kept c hc (by omega)).2, htoC]
  have hphase : ∀ c < n, (s'.coord c).phase = .idle := by
    intro c hc
    rw [hco]
    exact (hq c hc).phase
  have hv : ∀ v, 0 < v → v < t.size → ∃ i, v = i + 1 ∧ i < files.length := fun v hv0 hvt =>
    ⟨v - 1, by omega, by omega⟩
  constructor
  case hands => exact hands
  case iso =>
    refine ⟨by simp [hco, hph], by simp [hco, hph], fun fs hw _ => ?_⟩
    rw [hco, hph] at hw
    cases hw
    refine ⟨by rw [htree']; omega, fun i hi => ?_⟩
    obtain ⟨h1, h2, h3⟩ := hnode i hi
    exact ⟨h1, h2, h3, by rw [hsent]; exact (hunborn _ (by omega)).1⟩
  case ranks =>
    intro v hv0 hvt
    obtain ⟨i, rfl, hi⟩ := hv v hv0 hvt
    obtain ⟨h1, h2, -⟩ := hnode i hi
    rw [htree', h1, h2]
    exact ⟨Nat.le_refl n, by omega⟩
  case stage =>
    intro v hv0 hvt
    obtain ⟨i, rfl, hi⟩ := hv v hv0 hvt
    obtain ⟨h1, h2, -⟩ := hnode i hi
    refine .pending (.inr ⟨h1, files, by rw [hco]; exact hph, by omega⟩)
      (by rw [hsent]; exact (hunborn _ (by omega)).1)
      (by rw [hrecv]; exact (hunborn _ (by omega)).2) (.inl ?_)
    rw [htree', h1, h2, link_down, hdown i (by omega), if_pos hi]
    exact List.mem_singleton.2 rfl
  case transfers =>
    intro c hc t' v f hin
    rw [hdown c hc] at hin
    split at hin
    · cases List.mem_singleton.1 hin
    · cases hin
  case inFlight =>
    intro a b f v hin
    rw [hfiles] at hin
    obtain ⟨h1, h2, -⟩ := hH.inFlight a b f v hin
    omega
  case unborn =>
    intro v hvt
    rw [hsent, hrecv]
    exact hunborn v (by rw [htree'] at hvt; omega)
  case root =>
    intro c hc hp'
    rw [hphase c hc] at hp'
    cases hp'

theorem LeaderMove.handOff (h : LeaderMove n s l s') (hS : Synced n s) (hF : fresh s l = true)
    (hn : 0 < n) (hH : HandOff n s) : HandOff n s' := by
  have hands : ∀ c < n, HandInv c (s'.link c) := fun c hc =>
    (hH.hands c hc).leaderStep (hS.links c hc) (h.link hS hF hc)
  have hR := h.coords
  have keep : Bystander n s s' → HandOff n s' := fun hb =>
    hH.frame (hb.frame hR hS.links) hands (hb.iso hR hH.iso)
  have notify : ∀ {src : Nat} {r : NodeStatus} {rest : List C2L},
      s.toL src = .notifyResult r :: rest → 0 < (s.toL src).countP C2L.isNotify := fun hm =>
    List.countP_pos_iff.2 ⟨_, by rw [hm]; exact List.mem_cons_self, rfl⟩
  cases h with
  | @booted s₁ hp h =>
    obtain ⟨htree, -⟩ := hS.roster.boot hp
    obtain ⟨hq, -⟩ := hS.roster.quiet (.inl hp)
    obtain ⟨hph, hd⟩ := hS.iso.boot hp
    have hsize : s.leader.tree.size = 0 := by rw [htree]; rfl
    have hs' : setPhase s₁ .waitPrePartition = setPhase (((s.send n .assignIsolated).setTree
        (s.leader.tree.assignRootNode n .input)).setInfo n ⟨.solving, some s.leader.tree.size,
          (s.leader.coordinators n).solvingRound + 1, 0⟩) .waitPrePartition := by
      rw [leaderBoot_ok h]
    rw [hs'] at hands hR ⊢
    set s' := setPhase (((s.send n .assignIsolated).setTree (s.leader.tree.assignRootNode n
        .input)).setInfo n ⟨.solving, some s.leader.tree.size,
          (s.leader.coordinators n).solvingRound + 1, 0⟩) .waitPrePartition
    have hsize' : s'.leader.tree.size = 1 := by
      simp [s', setPhase, State.setInfo, State.setTree, DistributedTree.assignRootNode,
        DistributedTree.makeNode, hsize]
    have hdn : s'.down n = s.down n ++ [.assignIsolated] := by
      simp [s', State.down, setPhase, State.setInfo, State.setTree, State.send]
    have hdc : ∀ c < n, s'.down c = [] := by
      intro c hc
      have : s'.down c = s.down c := by
        simp [s', State.down, setPhase, State.setInfo, State.setTree, State.send, Nat.ne_of_lt hc]
      rw [this]
      exact (hq c hc).down
    refine ⟨hands, ⟨fun _ => ?_, ?_, ?_⟩, ?_, ?_, ?_, ?_, ?_, ?_⟩
    · rw [hdn, hd]; decide
    · simp [hR.coord, hph]
    · simp [hR.coord, hph]
    · intro v h0 hv; omega
    · intro v h0 hv; omega
    · intro c hc t v f hin
      rw [hdc c hc] at hin
      cases hin
    · intro a t f v hin
      rw [hR.files] at hin
      have := (hH.inFlight a t f v hin).2.1
      omega
    · intro v hv
      rw [hR.sent, hR.received]
      exact hH.unborn v (by omega)
    · intro c hc hp'
      have hci : (s.coord c).phase = .idle := (hq c hc).phase
      rw [hR.coord, hci] at hp'
      cases hp'
  | prePartitioned hp hm h => exact hH.prePartitioned hS hn hp hm h hands
  | splitSucceeded hp hsrc hm h => exact hH.splitSucceeded hS hp hsrc hm h hands
  | @splitFailed src t tag rest hp hsrc hm =>
    refine keep ⟨?_, fun c _ => .inl ?_, fun c _ => .inl ?_⟩
    · rw [processSplitFailed]
      split <;> exact .refl _
    · rw [processSplitFailed]
      split <;> rfl
    · rw [processSplitFailed]
      split
      · by_cases hcs : c = src <;>
          simp [State.setInfo, State.pushIdle, State.popUp, hcs]
      · rfl
  | @notified src v r rest t hp hsrc hm hv ht hd =>
    refine keep ⟨(DistributedTree.nodePartialSolved_shape ht).1, fun c _ => .inl rfl, fun c _ => ?_⟩
    by_cases hcs : c = src
    · subst hcs
      exact .inr (notify hm)
    · left
      simp [setCoordinatorIdle, State.setInfo, State.pushIdle, State.setTree, State.popUp, hcs]
  | queueEmpty hp hi => exact hH
  | @requested b t rest hp hi hs =>
    refine keep ⟨.refl _, fun c _ => ?_, fun c _ => .inl ?_⟩
    · by_cases hcr : c = s.leader.nextSplitRank
      · subst hcr
        exact .inr ⟨_, by simp [State.down, State.setInfo, State.send, nextIdle]; rfl, rfl⟩
      · left
        simp [State.down, State.setInfo, State.send, nextIdle, hcr]
    · by_cases hcr : c = s.leader.nextSplitRank <;>
        simp [State.setInfo, State.send, nextIdle, hcr]
  | rotated hp hi => exact keep ⟨.refl _, fun c _ => .inl rfl, fun c _ => .inl rfl⟩
  | timedOut hp =>
    exact keep (Bystander.stop ⟨.refl _, fun c _ => .inl rfl, fun c _ => .inl rfl⟩ rfl _)
  | @coordinatorError src rest hp hm =>
    have hb : Bystander n s (s.popUp src rest) :=
      ⟨.refl _, fun c _ => .inl rfl, fun c _ => .inl rfl⟩
    exact keep (hb.stop rfl _)
  | @verdict src v r rest t hp hsrc hm hv ht hd =>
    have hb : Bystander n s ((s.popUp src rest).setTree t) :=
      ⟨(DistributedTree.nodePartialSolved_shape ht).1, fun c _ => .inl rfl, fun c _ => .inl rfl⟩
    exact keep (hb.stop rfl _)
  | @isoVerdict r rest hp hm =>
    have hb : Bystander n s ((s.popUp n rest).setTree (s.leader.tree.originalSolved r)) :=
      ⟨DistributedTree.originalSolved_shape r, fun c _ => .inl rfl, fun c _ => .inl rfl⟩
    exact keep (hb.stop rfl _)
  | crashed h => exact (h.elim hS).elim

end LeaderMoves

theorem handOff_inductive {n : Nat} (hn : 0 < n) :
    (freshLts n).Inductive (fun s => Synced n s ∧ HandOff n s) := by
  refine (synced_inductive n).under ?_ ?_
  · intro s hs
    have hS := (synced_inductive n).init s hs
    have hq := (hS.roster.quiet (.inl (by rw [hs]; rfl))).1
    have hsize : s.leader.tree.size = 0 := by rw [hs]; rfl
    refine ⟨fun c hc => (hq c hc).handInv, ⟨?_, ?_, ?_⟩, fun v _ hv => by omega,
      fun v _ hv => by omega, fun c hc t v f hin => ?_, fun a t f v hin => ?_, fun v _ => ?_,
      fun c hc hp => ?_⟩
    · rw [hs]; simp [State.down, init, initCoord]
    · rw [hs]; simp [init, initCoord]
    · rw [hs]; simp [init, initCoord]
    · rw [hs] at hin; cases hin
    · rw [hs] at hin; cases hin
    · rw [hs]; exact ⟨rfl, rfl⟩
    · have hci : (s.coord c).phase = .idle := (hq c hc).phase
      rw [hci] at hp
      cases hp
  · intro s l s' hS hH hs
    rcases step_cases hs.2 with h | ⟨c, hc, h⟩ | h
    · exact h.handOff hS hs.1 hn hH
    · exact h.handOff hc hS hH
    · exact h.handOff hS hH

/-! ## Runs in which nothing is raised -/

/-- A coordinator sends `notify_error`, or the leader stops with an exception. -/
def raises (n : Nat) (s s' : State) : Bool :=
  (List.range (n + 1)).any (fun c => s'.toL c == s.toL c ++ [.notifyError]) ||
    match s'.leader.phase with
    | .stopped (.leaderError _) => true
    | _ => false

/-- The step raises nothing. -/
def quiet (n : Nat) (s : State) (l : Lbl) : Bool :=
  match step n s l with
  | none => true
  | some s' => !raises n s s'

theorem quiet_toL {n c : Nat} {s s' : State} {l : Lbl} (hq : quiet n s l = true)
    (h : step n s l = some s') (hc : c ≤ n) : s'.toL c ≠ s.toL c ++ [.notifyError] := by
  intro he
  simp only [quiet, h, raises, Bool.not_or, Bool.and_eq_true] at hq
  have hany : (List.range (n + 1)).any (fun c => s'.toL c == s.toL c ++ [.notifyError]) = true :=
    List.any_eq_true.2 ⟨c, List.mem_range.2 (by omega), by simpa using he⟩
  rw [hany] at hq
  cases hq.1

/-- Runs without exceptions. -/
def quietLts (n : Nat) : LTS State Lbl := (lts n).restrict fun s l => quiet n s l = true

/-- Runs without exceptions and without stale refusals. -/
def quietFreshLts (n : Nat) : LTS State Lbl :=
  (lts n).restrict fun s l => fresh s l = true ∧ quiet n s l = true

/-- In such a run a coordinator dies of its last message only, the termination. -/
structure CleanLink (l : Link) : Prop where
  last : L2C.terminateCoordinator ∉ l.down.dropLast
  dead : l.co.alive = false → l.co.drained = [.terminateCoordinator] ∧
    l.down = [.terminateCoordinator] ∧ (l.co.phase = .idle ∨ l.co.phase = .solving)

section Clean

variable {n : Nat} {s s' : State} {l : Lbl}

theorem LeaderStep.down {halt : Prop} {l l' : Link} (h : LeaderStep halt l l') :
    l'.co = l.co ∧ (l'.down = l.down ∨ ∃ m, l'.down = l.down ++ [m]) := by
  cases h
  case same => exact ⟨rfl, .inl rfl⟩
  case refused => exact ⟨rfl, .inl rfl⟩
  case solved => exact ⟨rfl, .inl rfl⟩
  all_goals exact ⟨rfl, .inr ⟨_, rfl⟩⟩

theorem LeaderMove.clean (h : LeaderMove n s l s') (hS : Synced n s) (hF : fresh s l = true)
    {c : Nat} (hc : c < n) (hC : CleanLink (s.link c)) : CleanLink (s'.link c) := by
  have hnot : L2C.terminateCoordinator ∉ (s.link c).down := hS.live h.running c hc
  obtain ⟨hco, hdown⟩ := (h.link hS hF hc).down
  refine ⟨?_, fun ha => ?_⟩
  · rcases hdown with hd | ⟨m, hd⟩
    · rw [hd]; exact hC.last
    · rw [hd, List.dropLast_concat]; exact hnot
  · rw [hco] at ha
    have := (hC.dead ha).2.1
    rw [this] at hnot
    exact (hnot List.mem_cons_self).elim

theorem mem_dropLast_cons {α : Type} {x m : α} {rest : List α} (h : x ∈ rest.dropLast) :
    x ∈ (m :: rest).dropLast := by
  cases rest with
  | nil => cases h
  | cons y rest => exact List.mem_cons_of_mem _ h

theorem CoordMove.clean {c : Nat} (h : CoordMove n c s l s') (hD : Drained s)
    (hq : s'.toL c ≠ s.toL c ++ [.notifyError]) (hC : CleanLink (s.link c)) :
    CleanLink (s'.link c) := by
  have hdown := fun ha => hD.down (c := c) ha
  have read : ∀ {m : L2C} {rest : List L2C}, s.toC c = m :: rest → (s.coord c).alive = true →
      L2C.terminateCoordinator ∉ rest.dropLast := by
    intro m rest hm ha hin
    have := hC.last
    rw [link_down, hdown ha, hm] at this
    exact this (mem_dropLast_cons hin)
  cases h with
  | declined hm ha hp =>
    refine ⟨?_, fun hd => ?_⟩
    · simpa [State.link, State.down, State.pop, State.post, hD c ha] using read hm ha
    · simp [State.link, State.pop, State.post, ha] at hd
  | granted hm ha hp hF =>
    refine ⟨?_, fun hd => ?_⟩
    · simpa [State.link, State.down, State.pop, State.post, State.setCoord, hD c ha] using read hm ha
    · simp [State.link, State.pop, State.post, State.setCoord, ha] at hd
  | transferred hm ha hp hs hF =>
    refine ⟨?_, fun hd => ?_⟩
    · simpa [State.link, State.down, State.pop, State.sendFile, hD c ha] using read hm ha
    · simp [State.link, State.pop, State.sendFile, ha] at hd
  | assigned hm ha hp =>
    refine ⟨?_, fun hd => ?_⟩
    · simpa [State.link, State.down, State.pop, State.setCoord, hD c ha] using read hm ha
    · simp [State.link, State.pop, State.setCoord, ha] at hd
  | @dropped a m rest hm hcase =>
    have hdown' : (die (s.pop c rest) c m).down c = s.down c := by
      simp [State.down, die, State.setCoord, State.pop, hm]
    refine ⟨by rw [link_down, hdown']; exact hC.last, fun _ => ?_⟩
    rw [link_down, hdown']
    cases ha : (s.coord c).alive with
    | false =>
      -- already dead: it has nothing left to read
      obtain ⟨h1, h2, -⟩ := hC.dead ha
      rw [link_co] at h1
      rw [link_down, State.down, h1, hm] at h2
      cases h2
    | true =>
      rw [ha] at hcase
      obtain ⟨rfl, hp⟩ := hcase.resolve_left (by simp)
      have hrest : rest = [] := by
        have := hC.last
        rw [link_down, hdown ha, hm] at this
        cases rest with
        | nil => rfl
        | cons x rest => exact (this List.mem_cons_self).elim
      refine ⟨?_, by rw [hdown ha, hm, hrest], ?_⟩
      · simp [State.link, die, State.setCoord, State.pop, hD c ha]
      · simpa [State.link, die, State.setCoord, State.pop] using hp
  | raised hm ha hr =>
    exact (hq (by simp [raiseError, State.post, die, State.setCoord, State.pop])).elim
  | received ha hp hf =>
    refine ⟨?_, fun hd => ?_⟩
    · simpa [State.link, State.down, State.setCoord, startSolving] using hC.last
    · simp [State.link, State.setCoord, startSolving, ha] at hd
  | done ha hp hr =>
    refine ⟨?_, fun hd => ?_⟩
    · simpa [State.link, State.down, solvingRoundDone, State.setCoord, State.post] using hC.last
    · simp [State.link, solvingRoundDone, State.setCoord, ha] at hd
  | failed ha => exact (hq (by simp [State.post, State.setCoord])).elim

theorem clean_inductive (n : Nat) :
    (quietFreshLts n).Inductive (fun s => Synced n s ∧ ∀ c < n, CleanLink (s.link c)) := by
  refine ((synced_inductive n).restrict_mono fun s l hG => hG.1).under ?_ ?_
  · intro s hs c hc
    have hs : s = init n := hs
    rw [hs]
    exact ⟨List.not_mem_nil, nofun⟩
  · intro s l s' hS hC hs c hc
    rcases step_cases hs.2 with h | ⟨d, hd, h⟩ | h
    · exact h.clean hS hs.1.1 hc (hC c hc)
    · by_cases hcd : c = d
      · subst hcd
        exact h.clean hS.base.drained (quiet_toL hs.1.2 hs.2 (Nat.le_of_lt hc)) (hC c hc)
      · rw [h.link_ne hcd]
        exact hC c hc
    · rw [h.link_ne (Nat.ne_of_lt hc)]
      exact hC c hc

end Clean

/-! ## The hand-off of one split -/

/-- Where the file `f` of the split that `src` reported for `t`, recorded as
node `v`, is: the giver has still to send it and can, or it is the only file on
the way and the receiver waits or will wait for it, or it has arrived as the
instance of `v`. Nothing else has been sent or received for `v`. -/
inductive HandedOver (s : State) (src t v : Nat) (f : TaskFile) : Prop where
  | pending (hs : s.sent v = []) (hr : s.received v = [])
      (hm : L2C.transferNode t v f ∈ s.toC src) (ha : (s.coord src).alive = true)
      (hp : (s.coord src).phase = .idle ∨ (s.coord src).phase = .solving)
  | inFlight (hs : s.sent v = [⟨src, t, f⟩]) (hr : s.received v = [])
      (hf : s.files src t = [(f, v)]) (ha : (s.coord t).alive = true)
      (he : L2C.assignNode src v ∈ s.toC t ∨ (s.coord t).phase = .receiving src v)
  | done (hs : s.sent v = [⟨src, t, f⟩]) (hr : s.received v = [⟨t, v, f⟩])

/-- Each split the leader accepts is handed over: the leader records it as an
assignment of `t`, and the file of the node marked split when the request was
answered is sent once and received once, in every later state of the run. -/
def DeliversSplits (M : LTS State Lbl) : Prop :=
  ∀ s₀ s₁ s₂ src t tag f rest ls, M.Reachable s₀ → s₀.leader.phase = .main →
    s₀.toL src = .splitSucceed t tag f :: rest → M.step s₀ (.leaderRecv src) s₁ →
    M.Run s₁ ls s₂ →
      (s₁.leader.coordinators t).assigned = some s₀.leader.tree.size ∧
        HandedOver s₂ src t s₀.leader.tree.size f

/-- What the leader recorded for node `v`. -/
structure Recorded (s : State) (src t v : Nat) (f : TaskFile) : Prop where
  born : 0 < v ∧ v < s.leader.tree.size
  giver : s.leader.tree.giver v = src
  assignTo : (s.leader.tree.node v).assignTo = t
  file : (s.leader.tree.node v).file = f
  phase : s.leader.phase = .main ∨ ∃ o, s.leader.phase = .stopped o

section Final

variable {n : Nat} {s s' : State} {l : Lbl} {src t v : Nat} {f : TaskFile}

theorem Recorded.shape (h : Recorded s src t v f) (hs : s.leader.tree.SameShape s'.leader.tree)
    (hp : s'.leader.phase = .main ∨ ∃ o, s'.leader.phase = .stopped o) :
    Recorded s' src t v f :=
  ⟨by rw [hs.size]; exact h.born, by rw [hs.giver]; exact h.giver,
    by rw [hs.assignTo]; exact h.assignTo, by rw [hs.file]; exact h.file, hp⟩

theorem LeaderMove.recorded (h : LeaderMove n s l s') (hS : Synced n s)
    (hR : Recorded s src t v f) : Recorded s' src t v f := by
  have hmain : s.leader.phase = .main := hR.phase.resolve_right fun ⟨o, ho⟩ => h.running o ho
  cases h with
  | booted hp h => rw [hmain] at hp; cases hp
  | prePartitioned hp hm h => rw [hmain] at hp; cases hp
  | @splitSucceeded src' t' tag f' rest _ hp hsrc hm h =>
    obtain ⟨-, -, -, p, -, hs'⟩ := processSplitSucceed_ok h
    obtain ⟨h1, h2, h3⟩ := (hS.tree (.inr hp)).giver_splitNode hR.born.2 p t' f'
    have htree : s'.leader.tree = s.leader.tree.splitNode p t' f' := by rw [hs']; rfl
    have hph : s'.leader.phase = s.leader.phase := by rw [hs']; rfl
    refine ⟨?_, ?_, ?_, ?_, .inl (hph.trans hp)⟩ <;> rw [htree]
    · exact ⟨hR.born.1, Nat.lt_succ_of_lt hR.born.2⟩
    · exact h1.trans hR.giver
    · exact h2.trans hR.assignTo
    · exact h3.trans hR.file
  | splitFailed hp hsrc hm =>
    refine hR.shape ?_ (.inl ?_) <;> (rw [processSplitFailed]; split) <;>
      first | exact .refl _ | exact hp
  | notified hp hsrc hm hv ht hd =>
    exact hR.shape (DistributedTree.nodePartialSolved_shape ht).1 (.inl hp)
  | queueEmpty hp hi => exact hR
  | requested hp hi hs => exact hR.shape (.refl _) (.inl hp)
  | rotated hp hi => exact hR.shape (.refl _) (.inl hp)
  | timedOut hp => exact hR.shape (by rw [stop_tree]; exact .refl _) (.inr ⟨_, stop_phase n _ _⟩)
  | coordinatorError hp hm =>
    exact hR.shape (by rw [stop_tree]; exact .refl _) (.inr ⟨_, stop_phase n _ _⟩)
  | verdict hp hsrc hm hv ht hd =>
    exact hR.shape (by rw [finish, stop_tree]; exact (DistributedTree.nodePartialSolved_shape ht).1)
      (.inr ⟨_, stop_phase n _ _⟩)
  | isoVerdict hp hm =>
    exact hR.shape (by rw [finish, stop_tree]; exact DistributedTree.originalSolved_shape _)
      (.inr ⟨_, stop_phase n _ _⟩)
  | crashed h => exact (h.elim hS).elim

/-- The stage of a recorded node, when nothing is raised. -/
theorem HandOff.handedOver (hH : HandOff n s) (hC : ∀ c < n, CleanLink (s.link c))
    (hD : Drained s) (hsrc : src < n) (hR : Recorded s src t v f) : HandedOver s src t v f := by
  have alive : ∀ {c : Nat} {m : L2C}, c < n → m ∈ s.down c → m ≠ .terminateCoordinator →
      (s.coord c).alive = true ∧ m ∈ s.toC c := by
    intro c m hc hm hne
    cases ha : (s.coord c).alive with
    | true => exact ⟨rfl, by rwa [hD.down ha] at hm⟩
    | false =>
      have := ((hC c hc).dead ha).2.1
      rw [link_down] at this
      rw [this] at hm
      exact (hne (List.mem_singleton.1 hm)).elim
  have htn : t < n := hR.assignTo ▸ (hH.ranks v hR.born.1 hR.born.2).2
  have hsend : s.sending v = ⟨src, t, f⟩ := by rw [State.sending, hR.giver, hR.assignTo, hR.file]
  cases hH.stage v hR.born.1 hR.born.2 with
  | pending hh hs hr he =>
    rcases hh with ⟨-, hm⟩ | ⟨hg, -⟩
    · rw [hR.giver, hR.assignTo, hR.file] at hm
      obtain ⟨h1, h2⟩ := alive hsrc hm (by simp)
      exact .pending hs hr h2 h1 ((hH.hands src hsrc).transfer t v f hm).2.1
    · rw [hR.giver] at hg
      omega
  | inFlight hs hr hf he =>
    rw [hsend] at hs
    rw [hR.giver, hR.assignTo, hR.file] at hf
    rw [hR.giver, hR.assignTo] at he
    rcases he with hm | hp
    · obtain ⟨h1, h2⟩ := alive htn hm (by simp)
      exact .inFlight hs hr hf h1 (.inl h2)
    · rw [link_co] at hp
      refine .inFlight hs hr hf ?_ (.inr hp)
      cases ha : (s.coord t).alive with
      | true => rfl
      | false =>
        rcases ((hC t htn).dead ha).2.2 with h | h <;> (rw [link_co, hp] at h; cases h)
  | done hs hr =>
    rw [hsend] at hs
    rw [hR.assignTo, hR.file] at hr
    exact .done hs hr

/-- **The right file, exactly once.** In every run without exceptions and
without stale refusals, each accepted split is handed over. -/
theorem hand_off_delivers (n : Nat) : DeliversSplits (quietFreshLts n) := by
  intro s₀ s₁ s₂ src t tag f rest ls hr hmain hm hstep hrun
  obtain ⟨hS, hC⟩ := (clean_inductive n).reachable hr
  rcases step_cases hstep.2 with h | ⟨c, hc, h⟩ | h
  rotate_left
  · cases h
  · cases h
  cases h with
  | prePartitioned hp => rw [hmain] at hp; cases hp
  | splitFailed hp hsrc hm' => rw [hm] at hm'; cases hm'
  | notified hp hsrc hm' => rw [hm] at hm'; cases hm'
  | coordinatorError hp hm' => rw [hm] at hm'; cases hm'
  | verdict hp hsrc hm' => rw [hm] at hm'; cases hm'
  | isoVerdict hp hm' => rw [hm] at hm'; cases hm'
  | crashed h => exact (h.elim hS).elim
  | @splitSucceeded _ t' tag' f' rest' _ hp hsrc hm' h =>
    rw [hm] at hm'
    cases hm'
    obtain ⟨hsrc, htn, hne, -⟩ := hS.accept hp hsrc hm
    have hn : 0 < n := by omega
    obtain ⟨-, -, -, p, hpp, hs'⟩ := processSplitSucceed_ok h
    obtain ⟨hp0, hplt, hpto, -⟩ := (hS.roster.main hp).node src hsrc p hpp
    have htree : s₁.leader.tree = s₀.leader.tree.splitNode p t f := by rw [hs']; rfl
    have hph : s₁.leader.phase = s₀.leader.phase := by rw [hs']; rfl
    obtain ⟨hgnew, hnew⟩ := DistributedTree.giver_new (t := s₀.leader.tree) hplt t f
    have hrec : Recorded s₁ src t s₀.leader.tree.size f := by
      refine ⟨?_, ?_, ?_, ?_, .inl (hph.trans hp)⟩ <;> rw [htree]
      · exact ⟨by omega, Nat.lt_succ_self _⟩
      · exact hgnew.trans hpto
      · rw [hnew]
      · rw [hnew]
    refine ⟨?_, ?_⟩
    · simp only [State.popUp] at hs'
      simp [hs', State.setInfo, State.setTree, State.send, Ne.symm hne]
    -- everything known of the state after the split is kept by the rest of the run
    have hI : ∀ s l s', ((Synced n s ∧ ∀ c < n, CleanLink (s.link c)) ∧ HandOff n s ∧
        Recorded s src t s₀.leader.tree.size f) → (quietFreshLts n).step s l s' →
        ((Synced n s' ∧ ∀ c < n, CleanLink (s'.link c)) ∧ HandOff n s' ∧
          Recorded s' src t s₀.leader.tree.size f) := by
      rintro s l s' ⟨hSC, hH, hR⟩ hs
      refine ⟨(clean_inductive n).step s l s' hSC hs,
        ((handOff_inductive hn).step s l s' ⟨hSC.1, hH⟩ ⟨hs.1.1, hs.2⟩).2, ?_⟩
      rcases step_cases hs.2 with h | ⟨c, hc, h⟩ | h
      · exact h.recorded hSC.1 hR
      · exact hR.shape (by rw [h.leader]; exact .refl _) (by rw [h.leader]; exact hR.phase)
      · exact hR.shape (by rw [h.leader]; exact .refl _) (by rw [h.leader]; exact hR.phase)
    have hSC₁ := (clean_inductive n).step s₀ _ s₁ ⟨hS, hC⟩ hstep
    have hH₀ := ((handOff_inductive hn).reachable (hr.restrict_mono fun s l hG => hG.1)).2
    have hH₁ := ((handOff_inductive hn).step s₀ _ s₁ ⟨hS, hH₀⟩ ⟨hstep.1.1, hstep.2⟩).2
    obtain ⟨⟨hS₂, hC₂⟩, hH₂, hR₂⟩ := hrun.keeps hI ⟨hSC₁, hH₁, hrec⟩
    exact hH₂.handedOver hC₂ hS₂.base.drained hsrc hR₂

end Final

/-- A test of every step of a trace, and the trace in three parts. -/
def splitAt (g : State → Lbl → Bool) (n : Nat) (ls : List Lbl) (l : Lbl) (ls' : List Lbl) :
    Option (State × State × State) :=
  match LTS.exec (LTS.guardFn g (step n)) (init n) ls with
  | none => none
  | some s₀ =>
    match LTS.guardFn g (step n) s₀ l with
    | none => none
    | some s₁ => (LTS.exec (LTS.guardFn g (step n)) s₁ ls').map fun s₂ => (s₀, s₁, s₂)

theorem splitAt_run (g : State → Lbl → Bool) (G : State → Lbl → Prop)
    (hg : ∀ s l, g s l = true → G s l) (n : Nat) (ls : List Lbl) (l : Lbl) (ls' : List Lbl)
    (p : State × State × State → Bool) (h : (splitAt g n ls l ls').any p = true) :
    ∃ s₀ s₁ s₂, ((lts n).restrict G).Reachable s₀ ∧ ((lts n).restrict G).step s₀ l s₁ ∧
      ((lts n).restrict G).Run s₁ ls' s₂ ∧ p (s₀, s₁, s₂) = true := by
  obtain ⟨⟨s₀, s₁, s₂⟩, hx, hp⟩ := (Option.any_eq_true _ _).1 h
  unfold splitAt at hx
  split at hx
  · cases hx
  · rename_i t₀ h₀
    split at hx
    · cases hx
    · rename_i t₁ h₁
      obtain ⟨t₂, h₂, heq⟩ := Option.map_eq_some_iff.1 hx
      cases heq
      have hstep : g s₀ l = true ∧ step n s₀ l = some s₁ := by
        unfold LTS.guardFn at h₁
        split at h₁
        · exact ⟨‹_›, h₁⟩
        · cases h₁
      exact ⟨s₀, s₁, s₂, LTS.reachable_of_exec_guard hg h₀, ⟨hg _ _ hstep.1, hstep.2⟩,
        LTS.run_of_exec_guard hg h₂, hp⟩

/-- Coordinator 0 of two gives a node to coordinator 1, which receives it. -/
theorem hand_off_delivers_two : ∃ s₀ s₁ s₂ ls, (quietFreshLts 2).Reachable s₀ ∧
    (quietFreshLts 2).step s₀ (.leaderRecv 0) s₁ ∧ (quietFreshLts 2).Run s₁ ls s₂ ∧
    (s₂.received 2).length = 1 ∧ (s₁.leader.coordinators 1).assigned = some 2 ∧
    HandedOver s₂ 0 1 2 (.sub (.sub .input 2 0 10) 0 0 4) := by
  obtain ⟨s₀, s₁, s₂, hr, hs, hrun, hp⟩ := splitAt_run
    (fun s l => fresh s l && quiet 2 s l) (fun s l => fresh s l = true ∧ quiet 2 s l = true)
    (fun s l h => by simpa using h) 2
    [.leaderBoot, .coordRead 2 .decline, .isoPre [10], .leaderRecv 2, .coordRead 2 .decline,
      .coordRead 0 .decline, .coordFile 0, .leaderAssign true, .coordRead 0 (.grant 4)]
    (.leaderRecv 0) [.coordRead 0 .decline, .coordRead 1 .decline, .coordFile 1]
    (fun x => x.1.leader.phase == .main && x.1.leader.tree.size == 2 &&
      (x.1.toL 0 == [.splitSucceed 1 1 (.sub (.sub .input 2 0 10) 0 0 4)]) &&
      (x.2.2.received 2).length == 1) (by decide +kernel)
  simp only [Bool.and_eq_true, beq_iff_eq] at hp
  obtain ⟨⟨⟨h1, h2⟩, h3⟩, h4⟩ := hp
  have := hand_off_delivers 2 s₀ s₁ s₂ 0 1 1 _ [] _ hr h1 h3 hs hrun
  rw [h2] at this
  exact ⟨s₀, s₁, s₂, _, hr, hs, hrun, h4, this⟩

/-- The first split reported is the task of one path, the file sent to the new
coordinator that of the sibling. -/
def sendsSibling (x : State × State × State) : Bool :=
  x.1.leader.phase == .main && x.1.leader.tree.size == 4 &&
    (match x.1.toL 0 with
      | .splitSucceed 4 2 (.sub _ 0 1 1) :: _ => true
      | _ => false) &&
    match x.2.2.sent 4 with
      | [⟨0, 4, .sub _ 0 1 2⟩] => true
      | _ => false

set_option maxRecDepth 20000 in
/-- With stale refusals the wrong file is sent: coordinator 0 grants two
requests, and the first transfer names the second node. -/
theorem hand_off_wrong_file : ¬DeliversSplits (quietLts 5) := by
  intro h
  obtain ⟨s₀, s₁, s₂, hr, hs, hrun, hp⟩ := splitAt_run
    (quiet 5) (fun s l => quiet 5 s l = true) (fun s l h => h) 5
    staleGrants (.leaderRecv 0) [.coordRead 0 .decline]
    sendsSibling (by decide +kernel)
  simp only [sendsSibling, Bool.and_eq_true, beq_iff_eq] at hp
  obtain ⟨⟨⟨h1, h2⟩, h3⟩, h4⟩ := hp
  split at h3
  · rename_i root rest hm
    have hover := (h s₀ s₁ s₂ 0 4 2 _ rest _ hr h1 hm hs hrun).2
    rw [h2] at hover
    split at h4
    · rename_i root' hsent
      cases hover with
      | pending hs' _ _ _ _ => rw [hsent] at hs'; cases hs'
      | inFlight hs' _ _ _ _ => rw [hsent] at hs'; cases hs'
      | done hs' _ => rw [hsent] at hs'; cases hs'
    · cases h4
  · cases h3

end AriParti.L4
