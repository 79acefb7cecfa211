import AriParti.L4Cluster.Names

/-!
# Handing a node over

Every node of the leader's tree but the root stands for one file that one
coordinator, its giver, sends to another. The file is still to be sent, or on
the way, or has been received, and it is the file the leader was told of
(`Stage`). Two facts about single coordinators make it so: `HandInv` of the
previous module, and that a coordinator waits for one file at a time, so that
at most one file is on the way between any two.

The isolated coordinator is a giver too: it holds its files while it waits for
the answer to `pre_partition_done`.

## Results

* `HandOff`: the stages, with what they rest on.
* `CoordMove.handOff`, `IsoMove.handOff`: the coordinators keep it, failing or
  not.
-/
namespace AriParti.L4
open AriParti.Core AriParti.L3

/-- Who gave the formula of node `v` away. -/
def DistributedTree.giver (t : DistributedTree) (v : Nat) : Nat :=
  match (t.node v).parent with
  | none => 0
  | some p => (t.node p).assignTo

theorem DistributedTree.SameShape.giver {t t' : DistributedTree} (h : t.SameShape t') (v : Nat) :
    t'.giver v = t.giver v := by
  unfold DistributedTree.giver
  rw [h.parent]
  split
  · rfl
  · rw [h.assignTo]

/-- The old nodes after a split. -/
theorem DistributedTree.WF.giver_splitNode {t : DistributedTree} (h : t.WF) {v : Nat}
    (hv : v < t.size) (p c : Nat) (f : TaskFile) :
    (t.splitNode p c f).giver v = t.giver v ∧
      ((t.splitNode p c f).node v).assignTo = (t.node v).assignTo ∧
      ((t.splitNode p c f).node v).file = (t.node v).file := by
  have hold : ∀ w, w < t.size →
      ((t.splitNode p c f).node w).parent = (t.node w).parent ∧
      ((t.splitNode p c f).node w).assignTo = (t.node w).assignTo ∧
      ((t.splitNode p c f).node w).file = (t.node w).file := by
    intro w hw
    rw [splitNode_node, if_neg (by omega)]
    split
    · rename_i hp; subst hp; exact ⟨rfl, rfl, rfl⟩
    · exact ⟨rfl, rfl, rfl⟩
  obtain ⟨h1, h2, h3⟩ := hold v hv
  refine ⟨?_, h2, h3⟩
  unfold DistributedTree.giver
  rw [h1]
  cases hq : (t.node v).parent with
  | none => rfl
  | some q => exact (hold q (by have := h.parentLt v q hq; omega)).2.1

/-- The new node after a split. -/
theorem DistributedTree.giver_new {t : DistributedTree} {p : Nat} (hp : p < t.size) (c : Nat)
    (f : TaskFile) : (t.splitNode p c f).giver t.size = (t.node p).assignTo ∧
      (t.splitNode p c f).node t.size = ⟨some p, [], .unsolved, .unsolved, c, f⟩ := by
  have hnew : (t.splitNode p c f).node t.size = ⟨some p, [], .unsolved, .unsolved, c, f⟩ := by
    rw [splitNode_node, if_pos rfl]
  refine ⟨?_, hnew⟩
  unfold DistributedTree.giver
  rw [hnew]
  simp only
  rw [splitNode_node, if_neg (by omega)]
  split
  · rfl
  · rename_i h; exact absurd rfl h

/-! ## The stages -/

/-- The giver of `v` has yet to send the file. -/
def Holds (n : Nat) (s : State) (v : Nat) : Prop :=
  (s.leader.tree.giver v < n ∧
    L2C.transferNode (s.leader.tree.node v).assignTo v (s.leader.tree.node v).file ∈
      s.down (s.leader.tree.giver v)) ∨
  (s.leader.tree.giver v = n ∧ ∃ fs, (s.coord n).phase = .waitLeader fs ∧ v ≤ fs.length)

/-- The one file sent for node `v`, as the leader recorded it. -/
def State.sending (s : State) (v : Nat) : Sending :=
  ⟨s.leader.tree.giver v, (s.leader.tree.node v).assignTo, (s.leader.tree.node v).file⟩

/-- How far the hand-over of node `v` is. -/
inductive Stage (n : Nat) (s : State) (v : Nat) : Prop where
  | pending (hh : Holds n s v) (hs : s.sent v = []) (hr : s.received v = [])
      (he : (s.link (s.leader.tree.node v).assignTo).Expects (s.leader.tree.giver v) v)
  | inFlight (hs : s.sent v = [s.sending v]) (hr : s.received v = [])
      (hf : s.files (s.leader.tree.giver v) (s.leader.tree.node v).assignTo =
        [((s.leader.tree.node v).file, v)])
      (he : (s.link (s.leader.tree.node v).assignTo).Expects (s.leader.tree.giver v) v)
  | done (hs : s.sent v = [s.sending v])
      (hr : s.received v = [⟨(s.leader.tree.node v).assignTo, v, (s.leader.tree.node v).file⟩])

/-- What the isolated coordinator holds is what the leader recorded. -/
structure IsoHands (n : Nat) (s : State) : Prop where
  boot : (s.coord n).phase = .boot → (s.down n).countP L2C.isAssignIsolated ≤ 1
  pre : (s.coord n).phase = .prePartition → (s.down n).countP L2C.isAssignIsolated = 0
  ready : ∀ fs, (s.coord n).phase = .waitLeader fs → .assignIsolated ∈ s.down n →
    fs.length < s.leader.tree.size ∧ ∀ i < fs.length, s.leader.tree.giver (i + 1) = n ∧
      (s.leader.tree.node (i + 1)).assignTo = i ∧
      (s.leader.tree.node (i + 1)).file = fs.getD i .input ∧ s.sent (i + 1) = []

structure HandOff (n : Nat) (s : State) : Prop where
  hands : ∀ c < n, HandInv c (s.link c)
  iso : IsoHands n s
  ranks : ∀ v, 0 < v → v < s.leader.tree.size →
    s.leader.tree.giver v ≤ n ∧ (s.leader.tree.node v).assignTo < n
  stage : ∀ v, 0 < v → v < s.leader.tree.size → Stage n s v
  transfers : ∀ c < n, ∀ t v f, L2C.transferNode t v f ∈ s.down c →
    0 < v ∧ v < s.leader.tree.size ∧ s.leader.tree.giver v = c ∧
      (s.leader.tree.node v).assignTo = t ∧ (s.leader.tree.node v).file = f ∧ s.sent v = []
  inFlight : ∀ a t f v, (f, v) ∈ s.files a t →
    0 < v ∧ v < s.leader.tree.size ∧ s.leader.tree.giver v = a ∧
      (s.leader.tree.node v).assignTo = t ∧ s.sent v ≠ [] ∧ s.received v = []
  unborn : ∀ v, s.leader.tree.size ≤ v → s.sent v = [] ∧ s.received v = []
  /-- What a coordinator solves is the file of its node. -/
  root : ∀ c < n, (s.coord c).phase = .solving →
    ∃ v F, (s.leader.coordinators c).assigned = some v ∧ v < s.leader.tree.size ∧
      (s.coord c).folder = some F ∧ F.root = (s.leader.tree.node v).file

section Facts

variable {n : Nat} {s s' : State}

/-- A coordinator waits for one node at a time. -/
theorem HandOff.expects_unique (h : HandOff n s) {c a b v w : Nat} (hc : c < n)
    (hv : (s.link c).Expects a v) (hw : (s.link c).Expects b w) : v = w := by
  have h1 := (h.hands c hc).awaiting a v hv
  have h2 := (h.hands c hc).awaiting b w hw
  rw [h1] at h2
  exact Option.some.inj h2

/-- A file on the way is the only one between its two coordinators, and the
receiver waits for it. -/
theorem HandOff.onWay (h : HandOff n s) {a t v : Nat} {f : TaskFile} (hm : (f, v) ∈ s.files a t) :
    t < n ∧ f = (s.leader.tree.node v).file ∧ s.files a t = [(f, v)] ∧
      s.sent v = [⟨a, t, f⟩] ∧ (s.link t).Expects a v := by
  obtain ⟨h0, hlt, ha, ht, hs, hr⟩ := h.inFlight a t f v hm
  have htn := (h.ranks v h0 hlt).2
  cases h.stage v h0 hlt with
  | pending hh hs' hr' he => exact absurd hs' hs
  | inFlight hs' hr' hf he =>
    simp only [State.sending] at hs'
    rw [ha, ht] at hs' hf
    rw [ht] at htn
    rw [ha, ht] at he
    rw [hf] at hm
    cases List.mem_singleton.1 hm
    exact ⟨htn, rfl, hf, hs', he⟩
  | done hs' hr' =>
    rw [hr] at hr'
    cases hr'

/-- Nothing is on the way to a coordinator that waits for a file not yet sent. -/
theorem HandOff.quiet (h : HandOff n s) {a t v b : Nat} (ht : t < n) (hs : s.sent v = [])
    (he : (s.link t).Expects b v) : s.files a t = [] := by
  refine List.eq_nil_iff_forall_not_mem.2 fun ⟨f, w⟩ hm => ?_
  obtain ⟨-, -, -, hsent, hew⟩ := h.onWay hm
  rw [h.expects_unique ht he hew] at hs
  rw [hs] at hsent
  cases hsent

end Facts

/-! ## Moves that change nothing here -/

/-- What the stages depend on is unchanged. -/
structure Frame (n : Nat) (s s' : State) : Prop where
  shape : s.leader.tree.SameShape s'.leader.tree
  files : s'.files = s.files
  sent : s'.sent = s.sent
  received : s'.received = s.received
  transfer : ∀ c < n, ∀ t v f,
    L2C.transferNode t v f ∈ s'.down c ↔ L2C.transferNode t v f ∈ s.down c
  expects : ∀ c < n, ∀ a v, (s'.link c).Expects a v ↔ (s.link c).Expects a v
  root : ∀ c < n, (s'.coord c).phase = .solving → (s.coord c).phase = .solving ∧
    (s'.coord c).folder = (s.coord c).folder ∧
    (s'.leader.coordinators c).assigned = (s.leader.coordinators c).assigned
  waits : ∀ fs, (s.coord n).phase = .waitLeader fs → (s'.coord n).phase = .waitLeader fs

section Frame

variable {n : Nat} {s s' : State}

/-- A stage survives when the tree and the files stay and no message is lost. -/
theorem Stage.mono {v : Nat} (h : Stage n s v)
    (hg : s'.leader.tree.giver v = s.leader.tree.giver v)
    (hv : (s'.leader.tree.node v).assignTo = (s.leader.tree.node v).assignTo ∧
      (s'.leader.tree.node v).file = (s.leader.tree.node v).file)
    (hs : s'.sent v = s.sent v) (hr : s'.received v = s.received v)
    (hf : s.files (s.leader.tree.giver v) (s.leader.tree.node v).assignTo =
        [((s.leader.tree.node v).file, v)] →
      s'.files (s.leader.tree.giver v) (s.leader.tree.node v).assignTo =
        [((s.leader.tree.node v).file, v)])
    (hh : Holds n s v → Holds n s' v)
    (he : (s.link (s.leader.tree.node v).assignTo).Expects (s.leader.tree.giver v) v →
      (s'.link (s.leader.tree.node v).assignTo).Expects (s.leader.tree.giver v) v) :
    Stage n s' v := by
  have hsend : s'.sending v = s.sending v := by simp [State.sending, hg, hv.1, hv.2]
  cases h with
  | pending h1 h2 h3 h4 =>
    exact .pending (hh h1) (hs.trans h2) (hr.trans h3) (by rw [hg, hv.1]; exact he h4)
  | inFlight h1 h2 h3 h4 =>
    exact .inFlight (by rw [hs, hsend]; exact h1) (hr.trans h2)
      (by rw [hg, hv.1, hv.2]; exact hf h3) (by rw [hg, hv.1]; exact he h4)
  | done h1 h2 => exact .done (by rw [hs, hsend]; exact h1) (by rw [hr, hv.1, hv.2]; exact h2)

theorem HandOff.frame (h : HandOff n s) (hf : Frame n s s') (hands : ∀ c < n, HandInv c (s'.link c))
    (iso : IsoHands n s') : HandOff n s' where
  hands := hands
  iso := iso
  ranks v h0 hv := by
    rw [hf.shape.giver, hf.shape.assignTo]
    exact h.ranks v h0 (by rw [← hf.shape.size]; exact hv)
  stage v h0 hv := by
    rw [hf.shape.size] at hv
    have hr := h.ranks v h0 hv
    refine (h.stage v h0 hv).mono (hf.shape.giver v) ⟨hf.shape.assignTo v, hf.shape.file v⟩
      (by rw [hf.sent]) (by rw [hf.received]) (by rw [hf.files]; exact id) ?_ (hf.expects _ hr.2 _ _).2
    unfold Holds
    rw [hf.shape.giver, hf.shape.assignTo, hf.shape.file]
    rintro (⟨h1, h2⟩ | ⟨h1, fs, h2, h3⟩)
    · exact .inl ⟨h1, (hf.transfer _ h1 _ _ _).2 h2⟩
    · exact .inr ⟨h1, fs, hf.waits fs h2, h3⟩
  transfers c hc t v f hm := by
    rw [hf.shape.size, hf.shape.giver, hf.shape.assignTo, hf.shape.file, hf.sent]
    exact h.transfers c hc t v f ((hf.transfer c hc t v f).1 hm)
  inFlight a t f v hm := by
    rw [hf.files] at hm
    rw [hf.shape.size, hf.shape.giver, hf.shape.assignTo, hf.sent, hf.received]
    exact h.inFlight a t f v hm
  unborn v hv := by
    rw [hf.shape.size] at hv
    rw [hf.sent, hf.received]
    exact h.unborn v hv
  root c hc hp := by
    obtain ⟨h1, h2, h3⟩ := hf.root c hc hp
    obtain ⟨v, F, h4, h5, h6, h7⟩ := h.root c hc h1
    exact ⟨v, F, h3.trans h4, by rw [hf.shape.size]; exact h5, h2.trans h6,
      by rw [hf.shape.file]; exact h7⟩

/-- The isolated coordinator's books when neither it nor the tree moves. -/
theorem IsoHands.congr (h : IsoHands n s) (hphase : (s'.coord n).phase = (s.coord n).phase)
    (hcount : (s'.down n).countP L2C.isAssignIsolated = (s.down n).countP L2C.isAssignIsolated)
    (htree : ∀ v, v < s.leader.tree.size → s'.leader.tree.giver v = s.leader.tree.giver v ∧
      (s'.leader.tree.node v).assignTo = (s.leader.tree.node v).assignTo ∧
      (s'.leader.tree.node v).file = (s.leader.tree.node v).file)
    (hsize : s.leader.tree.size ≤ s'.leader.tree.size)
    (hsent : ∀ v, s.leader.tree.giver v = n → s'.sent v = s.sent v) : IsoHands n s' where
  boot := by rw [hphase, hcount]; exact h.boot
  pre := by rw [hphase, hcount]; exact h.pre
  ready fs hp hm := by
    rw [hphase] at hp
    have hmem : L2C.assignIsolated ∈ s.down n := by
      have hpos : 0 < (s'.down n).countP L2C.isAssignIsolated :=
        List.countP_pos_iff.2 ⟨_, hm, rfl⟩
      rw [hcount] at hpos
      obtain ⟨m, hm, hi⟩ := List.countP_pos_iff.1 hpos
      cases m <;> first | exact hm | cases hi
    obtain ⟨h1, h2⟩ := h.ready fs hp hmem
    refine ⟨by omega, fun i hi => ?_⟩
    obtain ⟨h3, h4, h5⟩ := htree (i + 1) (by omega)
    obtain ⟨h6, h7, h8, h9⟩ := h2 i hi
    exact ⟨h3.trans h6, h4.trans h7, h5.trans h8, (hsent (i + 1) h6).trans h9⟩

end Frame

/-! ## The moves of a distributed coordinator -/

section CoordMoves

variable {n c : Nat} {s s' : State} {l : Lbl}

/-- A step of a coordinator that neither sends nor receives a file. -/
theorem CoordStep.keeps {l l' : Link} (h : CoordStep c l l')
    (hr : l'.co.phase = .solving → l.co.phase = .solving)
    (ht : (∀ t v f rest, l.down ≠ .transferNode t v f :: rest) ∨ l'.down = l.down) :
    (∀ t v f, L2C.transferNode t v f ∈ l'.down ↔ L2C.transferNode t v f ∈ l.down) ∧
      (∀ a v, l'.Expects a v ↔ l.Expects a v) ∧
      (l'.co.phase = .solving → l'.co.folder = l.co.folder) := by
  cases h with
  | declined hm hp => exact ⟨fun _ _ _ => by simp [hm], fun a v => by simp [Link.Expects, hm],
      fun _ => rfl⟩
  | granted hm hp hF => exact ⟨fun _ _ _ => by simp [hm], fun a v => by simp [Link.Expects, hm],
      fun _ => rfl⟩
  | @transferred t v f rest hm hp =>
    rcases ht with ht | ht
    · exact absurd hm (ht t v f rest)
    · have : rest = l.down := ht
      rw [hm] at this
      simp at this
  | @assigned src v rest hm hp =>
    refine ⟨fun _ _ _ => by simp [hm], fun a w => ?_, fun _ => rfl⟩
    simp only [Link.Expects, hm, hp, List.mem_cons, L2C.assignNode.injEq, CoordPhase.receiving.injEq,
      reduceCtorEq, or_false]
    constructor
    · rintro (h | ⟨rfl, rfl⟩)
      · exact .inr h
      · exact .inl ⟨rfl, rfl⟩
    · rintro (⟨rfl, rfl⟩ | h)
      · exact .inr ⟨rfl, rfl⟩
      · exact .inl h
  | died hu => exact ⟨fun _ _ _ => .rfl, fun _ _ => .rfl, fun _ => rfl⟩
  | received hp =>
    have := hr rfl
    rw [hp] at this
    cases this
  | done hp _ => exact ⟨fun _ _ _ => .rfl, fun a v => by simp [Link.Expects, hp], nofun⟩

theorem Frame.ofCoord (hl : s'.leader = s.leader) (hf : s'.files = s.files)
    (hs : s'.sent = s.sent) (hr : s'.received = s.received) (hc : c < n)
    (hne : ∀ d, d ≠ c → s'.link d = s.link d) (hstep : CoordStep c (s.link c) (s'.link c))
    (hp : (s'.coord c).phase = .solving → (s.coord c).phase = .solving)
    (ht : (∀ t v f rest, s.down c ≠ .transferNode t v f :: rest) ∨ s'.down c = s.down c) :
    Frame n s s' := by
  obtain ⟨h1, h2, h3⟩ := hstep.keeps hp ht
  constructor
  case shape => rw [hl]; exact .refl _
  case files => exact hf
  case sent => exact hs
  case received => exact hr
  case transfer =>
    intro d hd t v f
    by_cases hdc : d = c
    · subst hdc; exact h1 t v f
    · rw [← link_down, ← link_down, hne d hdc]
  case expects =>
    intro d hd a v
    by_cases hdc : d = c
    · subst hdc; exact h2 a v
    · rw [hne d hdc]
  case root =>
    intro d hd hph
    rw [hl]
    by_cases hdc : d = c
    · subst hdc; exact ⟨hp hph, h3 hph, rfl⟩
    · rw [← link_co, ← link_co, hne d hdc] at *
      exact ⟨hph, rfl, rfl⟩
  case waits =>
    intro fs hw
    rw [← link_co] at hw ⊢
    rwa [hne n (Nat.ne_of_gt hc)]

/-- A file leaves for the coordinator the leader named. -/
theorem HandOff.transferred (hH : HandOff n s) (hD : Drained s) (hc : c < n) {t v pid : Nat}
    {f : TaskFile} {rest : List L2C} {F : Folder} (hm : s.toC c = .transferNode t v f :: rest)
    (ha : (s.coord c).alive = true) (hs : (s.coord c).splitNode = some pid)
    (hF : (s.coord c).folder = some F)
    (hands : ∀ d < n, HandInv d (((s.pop c rest).sendFile c t (F.task c pid) v).link d)) :
    HandOff n ((s.pop c rest).sendFile c t (F.task c pid) v) := by
  have hdown : s.down c = .transferNode t v f :: rest := by rw [hD.down ha, hm]
  have hmem : L2C.transferNode t v f ∈ s.down c := by rw [hdown]; exact List.mem_cons_self
  obtain ⟨h0, hlt, hg, hat, hfile, hsent⟩ := hH.transfers c hc t v f hmem
  have hname : F.task c pid = f := by
    obtain ⟨pid', F', h1, h2, h3⟩ := ((hH.hands c hc).transfer t v f hmem).1
    rw [link_co, hs] at h1
    rw [link_co, hF] at h2
    cases h1
    cases h2
    exact h3
  have htn := (hH.ranks v h0 hlt).2
  rw [hat] at htn
  obtain ⟨hrecv, hexp⟩ : s.received v = [] ∧ (s.link t).Expects c v := by
    cases hH.stage v h0 hlt with
    | pending _ _ hr he => rw [hg, hat] at he; exact ⟨hr, he⟩
    | inFlight hs' _ _ _ => rw [hsent] at hs'; cases hs'
    | done hs' _ => rw [hsent] at hs'; cases hs'
  have hempty := hH.quiet (a := c) htn hsent hexp
  rw [hname] at hands ⊢
  set s' := (s.pop c rest).sendFile c t f v with hs'
  have hsent' : ∀ w, s'.sent w = if w = v then [⟨c, t, f⟩] else s.sent w := by
    intro w
    by_cases hw : w = v <;> simp [hs', State.sendFile, State.pop, hw, hsent]
  have hfiles' : ∀ a b, s'.files a b = if a = c ∧ b = t then [(f, v)] else s.files a b := by
    intro a b
    by_cases hac : a = c <;> by_cases hbt : b = t <;>
      simp [hs', State.sendFile, State.pop, hac, hbt, hempty]
  have hrest : s'.down c = rest := by
    simp [hs', State.down, State.sendFile, State.pop, hD c ha]
  have hne : ∀ d, d ≠ c → s'.down d = s.down d := by
    intro d hd
    simp [hs', State.down, State.sendFile, State.pop, hd]
  have hsub : ∀ d m, m ∈ s'.down d → m ∈ s.down d := by
    intro d m hin
    by_cases hd : d = c
    · subst hd
      rw [hrest] at hin
      rw [hdown]
      exact List.mem_cons_of_mem _ hin
    · rwa [hne d hd] at hin
  have hlost : ∀ d m, m ∈ s.down d → m ∈ s'.down d ∨ m = .transferNode t v f := by
    intro d m hin
    by_cases hd : d = c
    · subst hd
      rw [hdown] at hin
      rw [hrest]
      exact (List.mem_cons.1 hin).symm
    · exact .inl (by rwa [hne d hd])
  have hexpects : ∀ d a w, (s.link d).Expects a w → (s'.link d).Expects a w := by
    rintro d a w (hin | hp)
    · exact .inl ((hlost d _ hin).resolve_right (by simp))
    · exact .inr hp
  constructor
  case hands => exact hands
  case iso =>
    refine hH.iso.congr rfl (by rw [hne n (Nat.ne_of_gt hc)]) (fun _ _ => ⟨rfl, rfl, rfl⟩)
      (Nat.le_refl _) fun w hw => ?_
    rw [hsent', if_neg]
    rintro rfl
    omega
  case ranks => exact hH.ranks
  case stage =>
    intro w hw0 hwlt
    by_cases hwv : w = v
    · subst hwv
      refine .inFlight ?_ hrecv ?_ ?_
      · have hsend : s'.sending w = ⟨c, t, f⟩ := by
          rw [← hg, ← hat, ← hfile]
          rfl
        rw [hsent', if_pos rfl, hsend]
      · change s'.files (s.leader.tree.giver w) (s.leader.tree.node w).assignTo =
          [((s.leader.tree.node w).file, w)]
        rw [hg, hat, hfile, hfiles', if_pos ⟨rfl, rfl⟩]
      · change (s'.link (s.leader.tree.node w).assignTo).Expects (s.leader.tree.giver w) w
        rw [hg, hat]
        exact hexpects t c w hexp
    · refine (hH.stage w hw0 hwlt).mono rfl ⟨rfl, rfl⟩ (by rw [hsent', if_neg hwv]) rfl
        (fun hfw => ?_) ?_ (hexpects _ _ _)
      · rw [hfiles', if_neg]
        · exact hfw
        · rintro ⟨h1, h2⟩
          rw [h1, h2, hempty] at hfw
          cases hfw
      · rintro (⟨h1, h2⟩ | h2)
        · refine .inl ⟨h1, (hlost _ _ h2).resolve_right fun heq => hwv ?_⟩
          cases heq
          rfl
        · exact .inr h2
  case transfers =>
    intro d hd t' w f' hin
    obtain ⟨h1, h2, h3, h4, h5, h6⟩ := hH.transfers d hd t' w f' (hsub d _ hin)
    refine ⟨h1, h2, h3, h4, h5, ?_⟩
    rw [hsent', if_neg]
    · exact h6
    · rintro rfl
      have hdc : d = c := h3.symm.trans hg
      subst hdc
      rw [hrest] at hin
      have := (hH.hands d hc).head t' w f'
      rw [link_down, hdown] at this
      exact this hin
  case inFlight =>
    intro a b f' w hin
    rw [hfiles'] at hin
    split at hin
    · rename_i hab
      cases List.mem_singleton.1 hin
      rw [hab.1, hab.2]
      refine ⟨h0, hlt, hg, hat, ?_, hrecv⟩
      rw [hsent', if_pos rfl]
      simp
    · obtain ⟨h1, h2, h3, h4, h5, h6⟩ := hH.inFlight a b f' w hin
      refine ⟨h1, h2, h3, h4, ?_, h6⟩
      rw [hsent']
      split
      · simp
      · exact h5
  case unborn =>
    intro w hw
    have hwv : w ≠ v := by
      rintro rfl
      have : s.leader.tree.size ≤ w := hw
      omega
    rw [hsent', if_neg hwv]
    exact hH.unborn w hw
  case root => exact hH.root

/-- A file arrives at the coordinator that waits for it. -/
theorem HandOff.received (hH : HandOff n s) (hc : c < n) {src v v' : Nat} {f : TaskFile}
    {rest : List (TaskFile × Nat)} (hp : (s.coord c).phase = .receiving src v)
    (hf : s.files src c = (f, v') :: rest) {s' : State}
    (hs' : s' = { (s.setCoord c (startSolving (s.coord c) .solving f)) with
      files := Function.update s.files src (Function.update (s.files src) c rest)
      received := Function.update s.received v' (s.received v' ++ [⟨c, v, f⟩]) })
    (hands : ∀ d < n, HandInv d (s'.link d)) : HandOff n s' := by
  have hmem : (f, v') ∈ s.files src c := by rw [hf]; exact List.mem_cons_self
  obtain ⟨-, hfile, hone, hsent, hexp⟩ := hH.onWay hmem
  obtain ⟨h0, hlt, hg, hat, -, hrecv⟩ := hH.inFlight src c f v' hmem
  have hv : v' = v := hH.expects_unique hc hexp (.inr hp)
  subst hv
  have hrest : rest = [] := by
    rw [hf] at hone
    exact (List.cons.inj hone).2
  subst hrest
  have hasg := (hH.hands c hc).awaiting src v' hexp
  have hdown : s'.down = s.down := by
    funext d
    by_cases hd : d = c <;> simp [hs', State.down, State.setCoord, startSolving, hd]
  have hphase : ∀ d, d ≠ c → s'.coord d = s.coord d := by
    intro d hd
    simp [hs', State.setCoord, hd]
  have hfiles' : ∀ a b, s'.files a b = if a = src ∧ b = c then [] else s.files a b := by
    intro a b
    by_cases ha : a = src <;> by_cases hb : b = c <;> simp [hs', ha, hb]
  have hrecv' : ∀ w, s'.received w = if w = v' then [⟨c, v', f⟩] else s.received w := by
    intro w
    by_cases hw : w = v' <;> simp [hs', hw, hrecv]
  have hleader : s'.leader = s.leader := by rw [hs']; rfl
  have hsent' : s'.sent = s.sent := by rw [hs']; rfl
  constructor
  case hands => exact hands
  case iso =>
    refine hH.iso.congr (by rw [hphase n (Nat.ne_of_gt hc)]) (by rw [hdown]) ?_ ?_ ?_
    · rw [hleader]; exact fun _ _ => ⟨rfl, rfl, rfl⟩
    · rw [hleader]
    · rw [hsent']; exact fun _ _ => rfl
  case ranks => rw [hleader]; exact hH.ranks
  case stage =>
    intro w hw0 hwlt
    rw [hleader] at hwlt
    by_cases hwv : w = v'
    · subst hwv
      refine .done ?_ ?_
      · rw [hsent', hsent, State.sending, hleader, hg, hat, hfile]
      · rw [hrecv', if_pos rfl, hleader, hat, hfile]
    · refine (hH.stage w hw0 hwlt).mono (by rw [hleader]) (by rw [hleader]; exact ⟨rfl, rfl⟩)
        (by rw [hsent']) (by rw [hrecv', if_neg hwv]) (fun hfw => ?_) ?_ fun he => ?_
      · rw [hfiles', if_neg]
        · exact hfw
        · rintro ⟨h1, h2⟩
          rw [h1, h2, hf] at hfw
          cases hfw
          exact hwv rfl
      · unfold Holds
        rw [hdown, hleader, hphase n (Nat.ne_of_gt hc)]
        exact id
      · have hne : (s.leader.tree.node w).assignTo ≠ c := fun heq => by
          rw [heq] at he
          exact hwv (hH.expects_unique hc he hexp)
        unfold Link.Expects at he ⊢
        rw [link_down, link_co] at he ⊢
        rw [hdown, hphase _ hne]
        exact he
  case transfers => rw [hdown, hleader, hsent']; exact hH.transfers
  case inFlight =>
    intro a b f' w hin
    rw [hfiles'] at hin
    split at hin
    · cases hin
    · rename_i hab
      obtain ⟨h1, h2, h3, h4, h5, h6⟩ := hH.inFlight a b f' w hin
      rw [hleader, hsent', hrecv', if_neg]
      · exact ⟨h1, h2, h3, h4, h5, h6⟩
      · rintro rfl
        exact hab ⟨h3.symm.trans hg, h4.symm.trans hat⟩
  case unborn =>
    intro w hw
    rw [hleader] at hw
    rw [hsent', hrecv', if_neg (by omega)]
    exact hH.unborn w hw
  case root =>
    intro d hd hph
    rw [hleader]
    by_cases hdc : d = c
    · subst hdc
      refine ⟨v', ⟨(s.coord d).solvingRound, f⟩, hasg, hlt, ?_, hfile⟩
      simp [hs', State.setCoord, startSolving]
    · rw [hphase d hdc] at hph ⊢
      exact hH.root d hd hph

theorem CoordMove.handOff (h : CoordMove n c s l s') (hc : c < n) (hS : Synced n s)
    (hH : HandOff n s) : HandOff n s' := by
  have hlink := h.link hS.base.drained
  have hands : ∀ d < n, HandInv d (s'.link d) := by
    intro d hd
    by_cases hdc : d = c
    · subst hdc
      exact (hH.hands d hd).coordStep (hS.links d hd) hlink
    · rw [h.link_ne hdc]
      exact hH.hands d hd
  have iso : s'.sent = s.sent → IsoHands n s' := by
    intro hsent
    have hn := h.link_ne (d := n) (Nat.ne_of_gt hc)
    refine hH.iso.congr ?_ ?_ ?_ ?_ ?_
    · rw [← link_co, hn, link_co]
    · rw [← link_down, hn, link_down]
    · rw [h.leader]; exact fun _ _ => ⟨rfl, rfl, rfl⟩
    · rw [h.leader]
    · rw [hsent]; exact fun _ _ => rfl
  have frame := fun hf hs hr => Frame.ofCoord h.leader hf hs hr hc (fun d => h.link_ne) hlink
  have hdown := fun ha => hS.base.drained.down (c := c) ha
  cases h with
  | declined hm ha hp =>
    refine hH.frame (frame rfl rfl rfl id (.inl fun t v f rest hd => ?_)) hands (iso rfl)
    rw [hdown ha, hm] at hd
    cases hd
  | granted hm ha hp hF =>
    refine hH.frame (frame rfl rfl rfl (fun _ => hp) (.inl fun t v f rest hd => ?_)) hands (iso rfl)
    rw [hdown ha, hm] at hd
    cases hd
  | transferred hm ha hp hs hF => exact hH.transferred hS.base.drained hc hm ha hs hF hands
  | assigned hm ha hp =>
    refine hH.frame (frame rfl rfl rfl (fun hp' => ?_) (.inl fun t v f rest hd => ?_)) hands (iso rfl)
    · simp [State.setCoord] at hp'
    · rw [hdown ha, hm] at hd
      cases hd
  | dropped hm ha =>
    refine hH.frame (frame rfl rfl rfl (fun hp' => ?_) (.inr ?_)) hands (iso rfl)
    · simpa [die, State.setCoord, State.pop] using hp'
    · simp [State.down, die, State.setCoord, State.pop, hm]
  | raised hm ha hr =>
    refine hH.frame (frame rfl rfl rfl (fun hp' => ?_) (.inr ?_)) hands (iso rfl)
    · simpa [raiseError, State.post, die, State.setCoord, State.pop] using hp'
    · simp [State.down, raiseError, State.post, die, State.setCoord, State.pop, hm]
  | received ha hp hf => exact hH.received hc hp hf rfl hands
  | done ha hp hr =>
    refine hH.frame (frame rfl rfl rfl (fun hp' => ?_) (.inr ?_)) hands (iso rfl)
    · simp [solvingRoundDone, State.setCoord] at hp'
    · simp [State.down, solvingRoundDone, State.post, State.setCoord]
  | failed ha =>
    refine hH.frame (frame rfl rfl rfl (fun hp' => ?_) (.inr ?_)) hands (iso rfl)
    · simpa [State.post, State.setCoord] using hp'
    · simp [State.down, State.post, State.setCoord]

end CoordMoves

/-! ## The moves of the isolated coordinator -/

/-- All files of pre-partition leave at once. -/
theorem sendFiles_spec (n : Nat) (fs : List TaskFile) (i : Nat) (s : State) :
    (∀ v, (s.sendFiles n i fs).sent v = if i < v ∧ v ≤ i + fs.length then
      s.sent v ++ [⟨n, v - 1, fs.getD (v - 1 - i) .input⟩] else s.sent v) ∧
    (∀ a t, (s.sendFiles n i fs).files a t = if a = n ∧ i ≤ t ∧ t < i + fs.length then
      s.files n t ++ [(fs.getD (t - i) .input, t + 1)] else s.files a t) := by
  induction fs generalizing i s with
  | nil =>
    refine ⟨fun v => ?_, fun a t => ?_⟩
    · rw [if_neg (by simp only [List.length_nil]; omega)]; rfl
    · rw [if_neg (by simp only [List.length_nil]; omega)]; rfl
  | cons f fs ih =>
    obtain ⟨h1, h2⟩ := ih (i + 1) (s.sendFile n i f (i + 1))
    refine ⟨fun v => ?_, fun a t => ?_⟩
    · rw [State.sendFiles, h1]
      simp only [State.sendFile, List.length_cons]
      by_cases hv : v = i + 1
      · subst hv
        rw [if_neg (by omega), if_pos (by omega)]
        simp
      · rw [Function.update_of_ne hv]
        by_cases hin : i + 1 < v ∧ v ≤ i + 1 + fs.length
        · obtain ⟨k, hk⟩ : ∃ k, v - 1 - i = k + 1 := ⟨v - 1 - (i + 1), by omega⟩
          have hk' : v - 1 - (i + 1) = k := by omega
          rw [if_pos hin, if_pos (by omega), hk, hk', List.getD_cons_succ]
        · rw [if_neg hin, if_neg (by omega)]
    · rw [State.sendFiles, h2]
      simp only [State.sendFile, List.length_cons]
      by_cases ha : a = n
      · subst ha
        simp only [Function.update_self, true_and]
        by_cases ht : t = i
        · subst ht
          rw [if_neg (by omega), if_pos (by omega)]
          simp
        · rw [Function.update_of_ne ht]
          by_cases hin : i + 1 ≤ t ∧ t < i + 1 + fs.length
          · obtain ⟨k, hk⟩ : ∃ k, t - i = k + 1 := ⟨t - (i + 1), by omega⟩
            have hk' : t - (i + 1) = k := by omega
            rw [if_pos hin, if_pos (by omega), hk, hk', List.getD_cons_succ]
          · rw [if_neg hin, if_neg (by omega)]
      · rw [if_neg (fun h => ha h.1), if_neg (fun h => ha h.1), Function.update_of_ne ha]

section IsoMoves

variable {n : Nat} {s s' : State} {l : Lbl}

/-- The files of pre-partition leave for the ranks the leader gave them to. -/
theorem HandOff.delivered (hH : HandOff n s) {fs : List TaskFile}
    (hp : (s.coord n).phase = .waitLeader fs) (hm : L2C.assignIsolated ∈ s.down n)
    (hleader : s'.leader = s.leader) (hlink : ∀ d, d ≠ n → s'.link d = s.link d)
    (hsent : s'.sent = (s.sendFiles n 0 fs).sent) (hfiles : s'.files = (s.sendFiles n 0 fs).files)
    (hrecv : s'.received = s.received) (hph : (s'.coord n).phase = .solving) : HandOff n s' := by
  obtain ⟨hs, hf⟩ := sendFiles_spec n fs 0 s
  rw [← hsent] at hs
  rw [← hfiles] at hf
  obtain ⟨hsize, hready⟩ := hH.iso.ready fs hp hm
  have hnode : ∀ v, 0 < v → v ≤ fs.length → s.leader.tree.giver v = n ∧
      (s.leader.tree.node v).assignTo = v - 1 ∧
      (s.leader.tree.node v).file = fs.getD (v - 1) .input ∧ s.sent v = [] := by
    intro v h0 hv
    obtain ⟨i, rfl⟩ : ∃ i, v = i + 1 := ⟨v - 1, by omega⟩
    exact hready i (by omega)
  have hstage : ∀ v, 0 < v → v ≤ fs.length → s.received v = [] ∧ v - 1 < n ∧
      (s.link (v - 1)).Expects n v ∧ s.files n (v - 1) = [] := by
    intro v h0 hv
    obtain ⟨h1, h2, h3, h4⟩ := hnode v h0 hv
    have hr := (hH.ranks v h0 (by omega)).2
    rw [h2] at hr
    cases hH.stage v h0 (by omega) with
    | pending _ _ hr' he =>
      rw [h1, h2] at he
      exact ⟨hr', hr, he, hH.quiet hr h4 he⟩
    | inFlight hs' _ _ _ => rw [h4] at hs'; cases hs'
    | done hs' _ => rw [h4] at hs'; cases hs'
  have hdown : ∀ d, d ≠ n → s'.down d = s.down d := fun d hd => congrArg Link.down (hlink d hd)
  have hsend : ∀ v, s'.sending v = s.sending v := fun v => by rw [State.sending, hleader]; rfl
  constructor
  case hands =>
    intro c hc
    rw [hlink c (Nat.ne_of_lt hc)]
    exact hH.hands c hc
  case iso => constructor <;> (rw [hph]; nofun)
  case ranks => rw [hleader]; exact hH.ranks
  case stage =>
    intro v h0 hv
    rw [hleader] at hv
    have hrank := (hH.ranks v h0 hv).2
    have hlinkv := hlink _ (Nat.ne_of_lt hrank)
    by_cases hfs : v ≤ fs.length
    · obtain ⟨h1, h2, h3, h4⟩ := hnode v h0 hfs
      obtain ⟨h5, h6, h7, h8⟩ := hstage v h0 hfs
      refine .inFlight ?_ (by rw [hrecv]; exact h5) ?_ ?_
      · rw [hs, if_pos (by omega), h4, hsend, State.sending, h1, h2, h3]
        simp
      · rw [hleader, h1, h2, h3, hf, if_pos (by omega), h8]
        simp
        omega
      · rw [hleader, hlinkv, h1, h2]
        exact h7
    · refine (hH.stage v h0 hv).mono (by rw [hleader]) (by rw [hleader]; exact ⟨rfl, rfl⟩)
        (by rw [hs, if_neg (by omega)]) (by rw [hrecv]) (fun hfv => ?_) ?_
        (by rw [hlinkv]; exact id)
      · rw [hf, if_neg]
        · exact hfv
        · rintro ⟨h1, -, h2⟩
          obtain ⟨-, -, -, h4⟩ := hstage ((s.leader.tree.node v).assignTo + 1) (by omega) (by omega)
          rw [h1] at hfv
          rw [Nat.add_sub_cancel, hfv] at h4
          cases h4
      · unfold Holds
        rw [hleader]
        rintro (⟨h1, h2⟩ | ⟨h1, fs', h2, h3⟩)
        · exact .inl ⟨h1, by rw [hdown _ (Nat.ne_of_lt h1)]; exact h2⟩
        · rw [hp] at h2
          cases h2
          exact absurd h3 hfs
  case transfers =>
    intro c hc t v f hin
    rw [hdown c (Nat.ne_of_lt hc)] at hin
    obtain ⟨h1, h2, h3, h4, h5, h6⟩ := hH.transfers c hc t v f hin
    rw [hleader]
    refine ⟨h1, h2, h3, h4, h5, ?_⟩
    rw [hs, if_neg]
    · exact h6
    · intro hv
      have := (hnode v h1 (by omega)).1
      omega
  case inFlight =>
    intro a t f v hin
    rw [hf] at hin
    rw [hleader, hrecv]
    split at hin
    · rename_i hat
      obtain ⟨rfl, -, hlt⟩ := hat
      obtain ⟨h1, h2, h3, h4⟩ := hnode (t + 1) (by omega) (by omega)
      obtain ⟨h5, -, -, h8⟩ := hstage (t + 1) (by omega) (by omega)
      rw [Nat.add_sub_cancel] at h8
      rw [h8, List.nil_append] at hin
      cases List.mem_singleton.1 hin
      refine ⟨by omega, by omega, h1, h2, ?_, h5⟩
      rw [hs, if_pos (by omega), h4]
      nofun
    · obtain ⟨h1, h2, h3, h4, h5, h6⟩ := hH.inFlight a t f v hin
      refine ⟨h1, h2, h3, h4, ?_, h6⟩
      rw [hs]
      split
      · simp
      · exact h5
  case unborn =>
    intro v hv
    rw [hleader] at hv
    rw [hs, hrecv, if_neg (by omega)]
    exact hH.unborn v hv
  case root =>
    intro c hc
    rw [hleader, ← link_co, hlink c (Nat.ne_of_lt hc)]
    exact hH.root c hc

theorem IsoMove.handOff (h : IsoMove n s l s') (hS : Synced n s) (hH : HandOff n s) :
    HandOff n s' := by
  have hD := hS.base.drained
  have hne := fun d hd => h.link_ne (d := d) hd
  have hleader := h.leader
  have hands : ∀ c < n, HandInv c (s'.link c) := by
    intro c hc
    rw [hne c (Nat.ne_of_lt hc)]
    exact hH.hands c hc
  -- every move but the delivery leaves the files alone
  have frame : s'.files = s.files → s'.sent = s.sent → s'.received = s.received →
      (∀ fs, (s.coord n).phase = .waitLeader fs → (s'.coord n).phase = .waitLeader fs) →
      Frame n s s' := by
    intro hf hs hr hw
    refine ⟨by rw [hleader]; exact .refl _, hf, hs, hr, fun c hc t v f => ?_, fun c hc a v => ?_,
      fun c hc hp => ?_, hw⟩
    · rw [← link_down, hne c (Nat.ne_of_lt hc), link_down]
    · rw [hne c (Nat.ne_of_lt hc)]
    · have hco : s'.coord c = s.coord c := congrArg Link.co (hne c (Nat.ne_of_lt hc))
      rw [hco] at hp ⊢
      exact ⟨hp, rfl, by rw [hleader]⟩
  have same : s'.sent = s.sent → s'.down n = s.down n →
      (s'.coord n).phase = (s.coord n).phase → IsoHands n s' := by
    intro hs hd hp
    refine hH.iso.congr hp (by rw [hd]) ?_ ?_ ?_
    · rw [hleader]; exact fun _ _ => ⟨rfl, rfl, rfl⟩
    · rw [hleader]
    · rw [hs]; exact fun _ _ => rfl
  cases h with
  | @started a rest hm ha hp =>
    have hdown : s.down n = .assignIsolated :: rest := by rw [hD.down ha, hm]
    have hph : (((s.pop n rest).setCoord n (startSolving (s.coord n) .prePartition .input)).coord
        n).phase = .prePartition := by simp [State.setCoord, startSolving]
    refine hH.frame (frame rfl rfl rfl fun fs hw => by rw [hp] at hw; cases hw) hands ?_
    refine ⟨by simp [hph], fun _ => ?_, by simp [hph]⟩
    have hcount := hH.iso.boot hp
    rw [hdown, List.countP_cons_of_pos rfl] at hcount
    have hdown' : ((s.pop n rest).setCoord n (startSolving (s.coord n) .prePartition .input)).down n =
        rest := by
      simp [State.down, State.setCoord, State.pop, startSolving, hD n ha]
    rw [hdown']
    omega
  | @delivered a rest fs hm ha hp =>
    obtain ⟨hl, hco, -, -, hr⟩ := sendFiles_same n fs 0 (s.pop n rest)
    obtain ⟨h1, h2⟩ := sendFiles_spec n fs 0 (s.pop n rest)
    obtain ⟨h3, h4⟩ := sendFiles_spec n fs 0 s
    refine hH.delivered hp (by rw [hD.down ha, hm]; exact List.mem_cons_self) hleader hne ?_ ?_ hr
      (by simp [State.setCoord])
    · funext v
      exact (h1 v).trans (h3 v).symm
    · funext a t
      exact (h2 a t).trans (h4 a t).symm
  | dropped hm =>
    refine hH.frame (frame rfl rfl rfl fun fs hw => ?_) hands (same rfl ?_ ?_)
    · simpa [die, State.setCoord, State.pop] using hw
    · simp [State.down, die, State.setCoord, State.pop, hm]
    · simp [die, State.setCoord, State.pop]
  | raised hm ha =>
    refine hH.frame (frame rfl rfl rfl fun fs hw => ?_) hands (same rfl ?_ ?_)
    · simpa [raiseError, State.post, die, State.setCoord, State.pop] using hw
    · simp [State.down, raiseError, State.post, die, State.setCoord, State.pop, hm]
    · simp [raiseError, State.post, die, State.setCoord, State.pop]
  | @prePartitioned pids F ha hp hF hn =>
    have hdown : ((s.post n (.prePartitionDone pids.length (F.outgoing n pids))).setCoord n
        { s.coord n with phase := .waitLeader (F.outgoing n pids) }).down n = s.down n := by
      simp [State.down, State.post, State.setCoord]
    have hph : (((s.post n (.prePartitionDone pids.length (F.outgoing n pids))).setCoord n
        { s.coord n with phase := .waitLeader (F.outgoing n pids) }).coord n).phase =
          .waitLeader (F.outgoing n pids) := by
      simp [State.setCoord]
    refine hH.frame (frame rfl rfl rfl fun fs hw => by rw [hp] at hw; cases hw) hands ?_
    refine ⟨by simp [hph], by simp [hph], fun fs _ hin => ?_⟩
    rw [hdown] at hin
    exact absurd rfl (List.countP_eq_zero.1 (hH.iso.pre hp) _ hin)
  | @done r ha hp hr =>
    have hph : ((solvingRoundDone s n r).coord n).phase = .idle := by
      simp [solvingRoundDone, State.setCoord]
    refine hH.frame (frame rfl rfl rfl fun fs hw => ?_) hands ?_
    · rcases hp with hp | hp <;> (rw [hp] at hw; cases hw)
    · constructor <;> simp [hph]
  | failed ha =>
    refine hH.frame (frame rfl rfl rfl fun fs hw => ?_) hands (same rfl ?_ ?_)
    · simpa [State.post, State.setCoord] using hw
    · simp [State.down, State.post, State.setCoord]
    · simp [State.post, State.setCoord]

end IsoMoves

end AriParti.L4
