import AriParti.L4Cluster.SplitState
import AriParti.L4Cluster.Exceptions

/-!
# What a coordinator can rely on, in every run

The invariants of `Requests` and `Names` hold in the runs without stale
refusals. What is left of them in every run, with coordinators that raise, is
`Life`: a coordinator has at most one assignment, it reports no split after
its result, a `transfer_node` never waits behind an assignment, and the fields
it is answered from are set.

`Effect` is what a move of the leader does to the channels, up to the
shutdown. An exception of the leader is a shutdown like any other.

## Results

* `Life.coordStep`, `Effect.life`: both sides keep `Life`.
* `LeaderMove.effect`: every move of the leader is an `Effect`, and maybe a
  shutdown.
-/
namespace AriParti.L4
open AriParti.Core AriParti.L3

def L2C.isTransfer : L2C → Bool
  | .transferNode _ _ _ => true
  | _ => false

/-- No transfer waits behind an assignment. -/
def Clear : List L2C → Prop
  | [] => True
  | .assignNode _ _ :: rest => ∀ m ∈ rest, m.isTransfer = false
  | _ :: rest => Clear rest

section Clear

variable {D : List L2C}

theorem clear_of_none (h : ∀ m ∈ D, m.isTransfer = false) : Clear D := by
  induction D with
  | nil => trivial
  | cons m D ih =>
    have hrest : ∀ x ∈ D, x.isTransfer = false := fun x hx => h x (List.mem_cons_of_mem m hx)
    cases m with
    | assignNode _ _ => exact hrest
    | _ => exact ih hrest

theorem Clear.tail {m : L2C} (h : Clear (m :: D)) : Clear D := by
  cases m with
  | assignNode _ _ => exact clear_of_none h
  | _ => exact h

theorem Clear.append {m : L2C} (h : Clear D)
    (hm : m.isTransfer = true → D.countP L2C.isAssign = 0) : Clear (D ++ [m]) := by
  induction D with
  | nil => cases m <;> first | trivial | exact fun x hx => (List.not_mem_nil hx).elim
  | cons m' D ih =>
    rw [List.countP_cons] at hm
    cases m' with
    | assignNode _ _ =>
      intro x hx
      rcases List.mem_append.1 hx with hx | hx
      · exact h x hx
      · rw [List.mem_singleton.1 hx]
        by_contra hs
        have := hm (by simpa using hs)
        simp [L2C.isAssign] at this
    | _ => exact ih h fun hs => by have := hm hs; omega

end Clear

/-- A distributed coordinator, alive or not. -/
structure Life (l : Link) : Prop where
  phase : l.co.phase = .idle ∨ (∃ src v, l.co.phase = .receiving src v) ∨ l.co.phase = .solving
  plain : L2C.assignIsolated ∉ l.down
  work : l.down.countP L2C.isAssign + l.busy.toNat + l.up.countP C2L.isNotify ≤ l.isAssigned
  ordered : Ordered l.up
  succeed : ∀ m ∈ l.up, m.isSucceed = true →
    l.co.phase = .solving ∨ 0 < l.up.countP C2L.isNotify
  clear : Clear l.down
  receiving : ∀ src v, l.co.phase = .receiving src v → ∀ m ∈ l.down, m.isTransfer = false
  fields : (∃ m ∈ l.up, m.isSucceed = true) ∨ (∃ m ∈ l.down, m.isTransfer = true) →
    l.co.splitNode.isSome = true ∧ l.co.folder.isSome = true

section Life

variable {c : Nat} {l l' : Link}

theorem QuietLink.life (h : QuietLink l) : Life l := by
  have hL := h.linkInv
  refine ⟨hL.phase, ?_, hL.work, hL.ordered, fun m hm hs => ?_, ?_, ?_, ?_⟩
  · rw [h.down]; exact List.not_mem_nil
  · rw [h.up m hm] at hs; cases hs
  · rw [h.down]; trivial
  · rw [h.down]; exact fun _ _ _ _ hm => (List.not_mem_nil hm).elim
  · rintro (⟨m, hm, hs⟩ | ⟨m, hm, -⟩)
    · rw [h.up m hm] at hs; cases hs
    · rw [h.down] at hm; cases hm

/-- The split node and the folder stay while no split or transfer is added. -/
theorem Life.fields_of (h : Life l) {up : List C2L} {down : List L2C}
    (hup : ∀ m ∈ up, m.isSucceed = true → m ∈ l.up)
    (hdown : ∀ m ∈ down, m.isTransfer = true → m ∈ l.down)
    (hf : (∃ m ∈ up, m.isSucceed = true) ∨ (∃ m ∈ down, m.isTransfer = true)) :
    l.co.splitNode.isSome = true ∧ l.co.folder.isSome = true := by
  rcases hf with ⟨m, hm, hs⟩ | ⟨m, hm, hs⟩
  · exact h.fields (.inl ⟨m, hup m hm hs, hs⟩)
  · exact h.fields (.inr ⟨m, hdown m hm hs, hs⟩)

/-- A message of a kind is not the one just added of another kind. -/
theorem mem_of_mem_concat {α : Type} {p : α → Bool} {xs : List α} {x y : α}
    (hx : x ∈ xs ++ [y]) (hp : p x = true) (hy : p y = false) : x ∈ xs := by
  rcases List.mem_append.1 hx with hx | hx
  · exact hx
  · rw [List.mem_singleton.1 hx, hy] at hp
    cases hp

/-- A coordinator that has reported a split and no result is at work. -/
theorem Life.assigned_of_succeed (h : Life l) {m : C2L} (hm : m ∈ l.up) (hs : m.isSucceed = true) :
    l.isAssigned = 1 ∧ l.down.countP L2C.isAssign = 0 ∧
      ∀ src v, l.co.phase ≠ .receiving src v := by
  have hwork := h.work
  have hle := l.isAssigned_le
  rcases h.succeed m hm hs with hp | hn
  · have hb : l.busy.toNat = 1 := by simp [Link.busy, hp]
    exact ⟨by omega, by omega, fun src v hr => by rw [hp] at hr; cases hr⟩
  · refine ⟨by omega, by omega, fun src v hr => ?_⟩
    have hb : l.busy.toNat = 1 := by simp [Link.busy, hr]
    omega

/-- Only the assigned node matters of the leader's record. -/
theorem Life.setInfo (h : Life l) {ci : CoordinatorInfo} (ha : ci.assigned = l.info.assigned) :
    Life { l with info := ci } := by
  refine ⟨h.phase, h.plain, ?_, h.ordered, h.succeed, h.clear, h.receiving, h.fields⟩
  have hwork := h.work
  unfold Link.isAssigned at hwork ⊢
  rw [ha]
  exact hwork

theorem Life.coordStep (h : Life l) (hs : CoordStep c l l') : Life l' := by
  cases hs with
  | @declined t tag rest hm hp =>
    have hmem : ∀ m ∈ rest, m ∈ l.down := fun m hr => by rw [hm]; exact List.mem_cons_of_mem _ hr
    have hwork := h.work
    have hclear := h.clear
    simp only [hm, List.countP_cons, L2C.isAssign] at hwork
    rw [hm] at hclear
    have hold : ∀ m ∈ l.up ++ [C2L.splitFailed t tag], m.isSucceed = true → m ∈ l.up :=
      fun m hu hs => mem_of_mem_concat hu hs rfl
    refine ⟨h.phase, fun hr => h.plain (hmem _ hr), ?_,
      h.ordered.append (by simp [C2L.isSucceed]), fun m hu hs => ?_, hclear.tail,
      fun src v hr m hd => h.receiving src v hr m (hmem m hd),
      h.fields_of hold fun m hd _ => hmem m hd⟩
    · simp [List.countP_append, C2L.isNotify] at hwork ⊢
      exact hwork
    · have := h.succeed m (hold m hu hs) hs
      simpa [List.countP_append, C2L.isNotify] using this
  | @granted t tag pid rest F hm hp hF =>
    have hmem : ∀ m ∈ rest, m ∈ l.down := fun m hr => by rw [hm]; exact List.mem_cons_of_mem _ hr
    have hbusy : l.busy = true := by simp [Link.busy, hp]
    have hwork := h.work
    have hclear := h.clear
    have hle := l.isAssigned_le
    simp only [hm, List.countP_cons, L2C.isAssign, hbusy] at hwork
    rw [hm] at hclear
    have hnone : l.up.countP C2L.isNotify = 0 := by simp at hwork; omega
    refine ⟨.inr (.inr hp), fun hr => h.plain (hmem _ hr), ?_, h.ordered.append fun _ => hnone,
      fun _ _ _ => .inl hp, hclear.tail, fun src v hr m hd => ?_, fun _ => ⟨rfl, by simp [hF]⟩⟩
    · have hb : Link.busy { l with
          co := { l.co with splitNode := some pid, splits := l.co.splits ++ [F.task c pid] }
          down := rest, up := l.up ++ [.splitSucceed t tag (F.task c pid)] } = true := hbusy
      simp [hb, List.countP_append, C2L.isNotify] at hwork ⊢
      exact hwork
    · exact h.receiving src v hr m (hmem m hd)
  | @transferred t v f rest hm hp =>
    have hmem : ∀ m ∈ rest, m ∈ l.down := fun m hr => by rw [hm]; exact List.mem_cons_of_mem _ hr
    have hwork := h.work
    have hclear := h.clear
    simp only [hm, List.countP_cons, L2C.isAssign] at hwork
    rw [hm] at hclear
    exact ⟨h.phase, fun hr => h.plain (hmem _ hr), hwork, h.ordered, h.succeed, hclear.tail,
      fun src v hr m hd => h.receiving src v hr m (hmem m hd),
      h.fields_of (fun _ hu _ => hu) fun m hd _ => hmem m hd⟩
  | @assigned src v rest hm hp =>
    have hmem : ∀ m ∈ rest, m ∈ l.down := fun m hr => by rw [hm]; exact List.mem_cons_of_mem _ hr
    have hwork := h.work
    have hclear := h.clear
    have hbusy : l.busy = false := by simp [Link.busy, hp]
    simp only [hm, List.countP_cons, L2C.isAssign, hbusy] at hwork
    rw [hm] at hclear
    refine ⟨.inr (.inl ⟨src, v, rfl⟩), fun hr => h.plain (hmem _ hr), ?_, h.ordered,
      fun m hu hs => ?_, hclear.tail, fun _ _ _ => hclear,
      h.fields_of (fun _ hu _ => hu) fun m hd _ => hmem m hd⟩
    · have hb : Link.busy { l with co := { l.co with phase := .receiving src v }, down := rest } =
          true := rfl
      rw [hb]
      simp only [if_true, Bool.toNat_false, Bool.toNat_true, Nat.add_zero] at hwork ⊢
      exact hwork
    · have hcount := (h.assigned_of_succeed hu hs).2.1
      rw [hm, List.countP_cons_of_pos rfl] at hcount
      omega
  | @died d up hu =>
    have hfacts : (∀ m ∈ up, m.isSucceed = true → m ∈ l.up) ∧
        up.countP C2L.isNotify = l.up.countP C2L.isNotify ∧ Ordered up := by
      rcases hu with rfl | rfl
      · exact ⟨fun _ hm _ => hm, rfl, h.ordered⟩
      · exact ⟨fun m hm hs => mem_of_mem_concat hm hs rfl,
          by simp [List.countP_append, C2L.isNotify], h.ordered.append (by simp [C2L.isSucceed])⟩
    obtain ⟨hmem, hcount, hord⟩ := hfacts
    refine ⟨h.phase, h.plain, ?_, hord, fun m hm hs => ?_, h.clear, h.receiving,
      h.fields_of hmem fun _ hd _ => hd⟩
    · show _ + _ + up.countP C2L.isNotify ≤ _
      rw [hcount]
      exact h.work
    · show _ ∨ 0 < up.countP C2L.isNotify
      rw [hcount]
      exact h.succeed m (hmem m hm hs) hs
  | @received src v f hp =>
    have hbusy : l.busy = true := by simp [Link.busy, hp]
    have hno : ∀ m ∈ l.up, m.isSucceed = false := fun m hm => by
      by_contra hs
      exact (h.assigned_of_succeed hm (by simpa using hs)).2.2 src v hp
    refine ⟨.inr (.inr rfl), h.plain, ?_, h.ordered, fun m hm hs => .inl rfl, h.clear,
      by simp [startSolving], fun hf => ?_⟩
    · have hb : Link.busy { l with co := startSolving l.co .solving f } = true := rfl
      have hwork := h.work
      rw [hbusy] at hwork
      rw [hb]
      exact hwork
    · rcases hf with ⟨m, hm, hs⟩ | ⟨m, hm, hs⟩
      · rw [hno m hm] at hs
        cases hs
      · rw [h.receiving src v hp m hm] at hs
        cases hs
  | @done r hp hr =>
    have hbusy : l.busy = true := by simp [Link.busy, hp]
    have hwork := h.work
    rw [hbusy] at hwork
    refine ⟨.inl rfl, h.plain, ?_, h.ordered.append (by simp [C2L.isSucceed]),
      fun m hm hs => .inr ?_, h.clear, by simp,
      h.fields_of (fun m hm hs => mem_of_mem_concat hm hs rfl) fun _ hd _ => hd⟩
    · have hb : Link.busy { l with
          co := { l.co with phase := .idle, solvingRound := l.co.solvingRound + 1 }
          up := l.up ++ [.notifyResult r] } = false := rfl
      rw [hb]
      simp [List.countP_append, C2L.isNotify] at hwork ⊢
      exact Nat.le_trans (by omega) hwork
    · simp [List.countP_append, C2L.isNotify]

/-! ### Seen from the leader -/

/-- A request or a termination is sent. -/
theorem Life.send (h : Life l) {m : L2C} (ha : m.isAssign = false) (ht : m.isTransfer = false)
    (hp : m ≠ .assignIsolated) : Life { l with down := l.down ++ [m] } := by
  have hmem : ∀ x ∈ l.down ++ [m], x ∈ l.down ∨ x = m := fun x hx =>
    (List.mem_append.1 hx).imp_right List.mem_singleton.1
  have hwork := h.work
  refine ⟨h.phase, fun hx => (hmem _ hx).elim h.plain fun he => hp he.symm, ?_, h.ordered,
    h.succeed, h.clear.append fun hs => (by rw [ht] at hs; cases hs), fun src v hr x hx => ?_,
    h.fields_of (fun _ hu _ => hu) fun x hx hs => mem_of_mem_concat hx hs ht⟩
  · simp only [List.countP_append, List.countP_singleton, ha]
    exact hwork
  · rcases hmem x hx with hx | rfl
    · exact h.receiving src v hr x hx
    · exact ht

/-- An assignment is sent. -/
theorem Life.assign (h : Life l) (ha : l.info.assigned = none) {src v : Nat}
    {ci : CoordinatorInfo} (hci : ci.assigned = some v) :
    Life { l with info := ci, down := l.down ++ [.assignNode src v] } := by
  have hwork := h.work
  have hzero : l.isAssigned = 0 := by simp [Link.isAssigned, ha]
  have hone : Link.isAssigned { l with info := ci, down := l.down ++ [.assignNode src v] } = 1 := by
    simp [Link.isAssigned, hci]
  have hmem : ∀ x ∈ l.down ++ [L2C.assignNode src v], x ∈ l.down ∨ x = .assignNode src v :=
    fun x hx => (List.mem_append.1 hx).imp_right List.mem_singleton.1
  refine ⟨h.phase, fun hx => (hmem _ hx).elim h.plain (by simp), ?_, h.ordered, h.succeed,
    h.clear.append (by simp [L2C.isTransfer]), fun a w hr x hx => ?_,
    h.fields_of (fun _ hu _ => hu) fun x hx hs => mem_of_mem_concat hx hs rfl⟩
  · rw [hone]
    show (l.down ++ [L2C.assignNode src v]).countP L2C.isAssign + l.busy.toNat + _ ≤ 1
    simp only [List.countP_append, List.countP_singleton, L2C.isAssign, if_true]
    omega
  · rcases hmem x hx with hx | rfl
    · exact h.receiving a w hr x hx
    · rfl

/-- A message is read that is no result. -/
theorem Life.pop (h : Life l) {m : C2L} {rest : List C2L} (hu : l.up = m :: rest)
    (hm : m.isNotify = false) : Life { l with up := rest } := by
  have hmem : ∀ x ∈ rest, x ∈ l.up := fun x hx => by rw [hu]; exact List.mem_cons_of_mem _ hx
  have hord := h.ordered
  rw [hu] at hord
  have hcount : l.up.countP C2L.isNotify = rest.countP C2L.isNotify := by
    rw [hu, List.countP_cons, hm]
    rfl
  refine ⟨h.phase, h.plain, ?_, hord.tail, fun x hx hs => ?_, h.clear, h.receiving,
    fun hf => h.fields (hf.imp_left fun ⟨x, hx, hs⟩ => ⟨x, hmem x hx, hs⟩)⟩
  · have hwork := h.work
    rw [hcount] at hwork
    exact hwork
  · have := h.succeed x (hmem x hx) hs
    rw [hcount] at this
    exact this

/-- A result is read. -/
theorem Life.solved (h : Life l) {r : NodeStatus} {rest : List C2L}
    (hu : l.up = .notifyResult r :: rest) {ci : CoordinatorInfo} :
    Life { l with info := ci, up := rest } := by
  have hord := h.ordered
  rw [hu] at hord
  have hwork := h.work
  have hle := l.isAssigned_le
  rw [hu, List.countP_cons_of_pos rfl] at hwork
  refine ⟨h.phase, h.plain, ?_, hord.tail, fun x hx hs => ?_, h.clear, h.receiving,
    fun hf => h.fields (.inr (hf.resolve_left ?_))⟩
  · show l.down.countP L2C.isAssign + l.busy.toNat + rest.countP C2L.isNotify ≤ _
    have hz : l.down.countP L2C.isAssign + l.busy.toNat + rest.countP C2L.isNotify = 0 := by omega
    rw [hz]
    exact Nat.zero_le _
  · rw [hord x hx] at hs
    cases hs
  · rintro ⟨x, hx, hs⟩
    rw [hord x hx] at hs
    cases hs

/-- A reported split is read and the transfer is sent. -/
theorem Life.accept (h : Life l) {t tag v : Nat} {f : TaskFile} {rest : List C2L}
    (hu : l.up = .splitSucceed t tag f :: rest) :
    Life { l with down := l.down ++ [.transferNode t v f], up := rest } := by
  have hmem : C2L.splitSucceed t tag f ∈ l.up := by rw [hu]; exact List.mem_cons_self
  obtain ⟨-, hcount, hrec⟩ := h.assigned_of_succeed hmem rfl
  have hpop := h.pop hu rfl
  have hfields := h.fields (.inl ⟨_, hmem, rfl⟩)
  refine ⟨hpop.phase, fun hx => ?_, ?_, hpop.ordered, hpop.succeed,
    hpop.clear.append fun _ => hcount, fun src w hr => absurd hr (hrec src w), fun _ => hfields⟩
  · exact h.plain ((List.mem_append.1 hx).resolve_right fun hx => nomatch List.mem_singleton.1 hx)
  · have hwork := hpop.work
    simp only [List.countP_append, List.countP_singleton, L2C.isAssign]
    exact hwork

end Life

/-! ## What a move of the leader does to the channels -/

/-- A move of the leader without its shutdown. -/
inductive Effect (n : Nat) (s s' : State) : Prop where
  | booted (hp : s.leader.phase = .boot) (hp' : s'.leader.phase = .waitPrePartition)
      (hn : s'.toC n = s.toC n ++ [.assignIsolated])
      (hC : ∀ c, c ≠ n → s'.toC c = s.toC c) (hL : s'.toL = s.toL)
      (ha : ∀ c < n, s'.leader.coordinators c = s.leader.coordinators c)
  | prePartitioned {num : Nat} {files : List TaskFile} {rest : List C2L}
      (hp : s.leader.phase = .waitPrePartition) (hp' : s'.leader.phase = .main)
      (hm : s.toL n = .prePartitionDone num files :: rest)
      (hL : s'.toL = Function.update s.toL n rest)
      (hn : s'.toC n = s.toC n ++ [.assignIsolated])
      (given : ∀ c < n, c < max 1 num → s'.toC c = s.toC c ++ [.assignNode n (c + 1)] ∧
        (s.leader.coordinators c).assigned = none ∧
        (s'.leader.coordinators c).assigned = some (c + 1))
      (kept : ∀ c < n, ¬ c < max 1 num → s'.toC c = s.toC c ∧
        s'.leader.coordinators c = s.leader.coordinators c)
      (beyond : ∀ c, n < c → s'.toC c = s.toC c)
  | split {src t tag v : Nat} {f : TaskFile} {rest : List C2L} (hp : s.leader.phase = .main)
      (hp' : s'.leader.phase = .main) (hsrc : src < n) (ht : t < n) (hne : src ≠ t)
      (hm : s.toL src = .splitSucceed t tag f :: rest)
      (hL : s'.toL = Function.update s.toL src rest)
      (hC : s'.toC = Function.update (Function.update s.toC t (s.toC t ++ [.assignNode src v])) src
        (s.toC src ++ [.transferNode t v f]))
      (hnone : (s.leader.coordinators t).assigned = none)
      (hv : (s'.leader.coordinators t).assigned = some v)
      (ha : ∀ c, c ≠ t →
        (s'.leader.coordinators c).assigned = (s.leader.coordinators c).assigned)
  | solved {src : Nat} {r : NodeStatus} {rest : List C2L} (hp : s.leader.phase = .main)
      (hp' : s'.leader.phase = .main) (hsrc : src < n) (hm : s.toL src = .notifyResult r :: rest)
      (hL : s'.toL = Function.update s.toL src rest) (hC : s'.toC = s.toC)
      (ha : ∀ c, c ≠ src →
        (s'.leader.coordinators c).assigned = (s.leader.coordinators c).assigned)
  | requested {c t tag : Nat} (hp : s.leader.phase = .main) (hp' : s'.leader.phase = .main)
      (hc : c < n) (hC : s'.toC = Function.update s.toC c (s.toC c ++ [.requestSplit t tag]))
      (hL : s'.toL = s.toL)
      (ha : ∀ c, (s'.leader.coordinators c).assigned = (s.leader.coordinators c).assigned)
  | read {src : Nat} {m : C2L} {rest : List C2L} (hp : s.leader.phase = s'.leader.phase)
      (hm : s.toL src = m :: rest) (hL : s'.toL = Function.update s.toL src rest)
      (hC : s'.toC = s.toC)
      (ha : ∀ c, (s'.leader.coordinators c).assigned = (s.leader.coordinators c).assigned)
  | idle (hp : s.leader.phase = s'.leader.phase) (hL : s'.toL = s.toL) (hC : s'.toC = s.toC)
      (ha : ∀ c, (s'.leader.coordinators c).assigned = (s.leader.coordinators c).assigned)

section Effects

variable {n : Nat} {s s' : State}

/-- The messages of a split go out before anything can be raised, and the
target is recorded. -/
theorem processSplitSucceed_state {src t p : Nat} {f : TaskFile} (hne : src ≠ t)
    (hp : (s.leader.coordinators src).assigned = some p)
    (hidle : (s.leader.coordinators t).status = .idle) :
    ∃ ci : CoordinatorInfo, ci.assigned = some p ∧
      Handled.state (processSplitSucceed s src t f) =
        ((((s.send t (.assignNode src s.leader.tree.size)).send src
          (.transferNode t s.leader.tree.size f)).setTree (s.leader.tree.splitNode p t f)).setInfo t
            ⟨.solving, some s.leader.tree.size, (s.leader.coordinators t).solvingRound + 1, 0⟩).setInfo
          src ci := by
  unfold processSplitSucceed updateSplitAssignInfo updateAssignCoordinator updateSplitCoordinator
  cases hs : (s.leader.coordinators src).status with
  | splitting =>
    refine ⟨{ s.leader.coordinators src with
      status := .solving, splitCount := (s.leader.coordinators src).splitCount + 1 }, hp, ?_⟩
    simp [Handled.state, State.send, State.setTree, State.setInfo, hp, hidle,
      CoordinatorInfo.assignNode, CoordinatorInfo.splitNode, hne, hs]
  | _ =>
    refine ⟨s.leader.coordinators src, hp, ?_⟩
    simp [Handled.state, State.send, State.setTree, State.setInfo, hp, hidle,
      CoordinatorInfo.assignNode, CoordinatorInfo.splitNode, hne, hs]

/-- Raised or not, the answer to `split_succeed` has this effect. -/
theorem split_effect (hp : s.leader.phase = .main) {src t tag : Nat} {f : TaskFile}
    {rest : List C2L} (hsrc : src ≤ n) (hm : s.toL src = .splitSucceed t tag f :: rest)
    (hB : Base n s) (hR : Roster n s) (hF : ∀ c < n, Life (s.link c)) :
    Effect n s (Handled.state (processSplitSucceed (s.popUp src rest) src t f)) := by
  have hlt : src < n := by
    refine Nat.lt_of_le_of_ne hsrc fun heq => ?_
    have := hB.isoUp (.splitSucceed t tag f) (by rw [← heq, hm]; exact List.mem_cons_self)
    cases this
  obtain ⟨ht, hnone⟩ := hR.target hlt hm (t := t) (by simp [C2L.answersFor])
  have hone : (s.link src).isAssigned = 1 :=
    ((hF src hlt).assigned_of_succeed (by rw [link_up, hm]; exact List.mem_cons_self) rfl).1
  obtain ⟨p, hpar⟩ : ∃ p, (s.leader.coordinators src).assigned = some p := by
    rw [← Option.isSome_iff_exists]
    simp only [Link.isAssigned, link_info] at hone
    cases hv : (s.leader.coordinators src).assigned.isSome
    · rw [hv] at hone
      cases hone
    · rfl
  have hne : src ≠ t := by
    rintro rfl
    rw [hnone] at hpar
    cases hpar
  obtain ⟨ci, hci, hstate⟩ := processSplitSucceed_state (s := s.popUp src rest) (f := f) hne hpar
    ((hR.idleIff t ht).2 hnone)
  rw [hstate]
  refine .split (v := s.leader.tree.size) hp hp hlt ht hne hm rfl ?_ hnone ?_ fun c hc => ?_
  · simp [State.send, State.setTree, State.setInfo, State.popUp, hne]
  · simp [State.send, State.setTree, State.setInfo, State.popUp, Ne.symm hne]
  · by_cases hcs : c = src
    · subst hcs
      simp [State.send, State.setTree, State.setInfo, State.popUp, hci, hpar]
    · simp [State.send, State.setTree, State.setInfo, State.popUp, hcs, hc]

theorem Crash.effect {l : Lbl} {e : LeaderError} (h : Crash n s l e s') (hB : Base n s)
    (hR : RosterInv n s) (hF : ∀ c < n, Life (s.link c)) :
    (s.leader.phase = .waitPrePartition ∨ s.leader.phase = .main) ∧ Effect n s s' := by
  cases h with
  | boot hp h =>
    have hinfo := (hR.boot hp).2
    simp [leaderBoot, State.send, State.setTree, hinfo, initInfo, CoordinatorInfo.assignNode] at h
  | prePartition hp hm h =>
    obtain ⟨htree, hiso⟩ := hR.wait hp
    obtain ⟨hq, -⟩ := hR.quiet (.inr hp)
    obtain ⟨s₁, t, -, -, -, hok⟩ := prePartition_start _ _ _ hq htree hiso
    rw [hok] at h
    cases h
  | @split _ _ src t tag f rest hp hsrc hm h =>
    have he := split_effect hp hsrc hm hB (hR.main hp) hF
    rw [h] at he
    exact ⟨.inr hp, he⟩
  | unassigned hp hsrc hm hv => exact ⟨.inr hp, .read rfl hm rfl rfl fun _ => rfl⟩
  | tree hp hsrc hm hv ht => exact ⟨.inr hp, .read rfl hm rfl rfl fun _ => rfl⟩
  | unexpectedMain hp hsrc hm => exact ⟨.inr hp, .read rfl hm rfl rfl fun _ => rfl⟩
  | unexpectedBoot hp hm h => exact ⟨.inl hp, .read rfl hm rfl rfl fun _ => rfl⟩

theorem updateSplitAssignInfo_toC (s : State) (src t : Nat) (f : TaskFile) :
    (Handled.state (updateSplitAssignInfo s src t f)).toC = s.toC := by
  unfold updateSplitAssignInfo updateAssignCoordinator updateSplitCoordinator
  split
  · rfl
  · simp only
    split
    · rename_i he
      split at he <;> cases he
      rfl
    · rename_i he
      split at he <;> cases he
      split <;> rfl

theorem prePartitionLoop_beyond {k i c : Nat} (files : List TaskFile) {s : State} (hc : i ≤ c) :
    (Handled.state (prePartitionLoop n k files i s)).toC c = s.toC c := by
  induction i with
  | zero => rfl
  | succ i ih =>
    have ih := ih (Nat.le_of_succ_le hc)
    unfold prePartitionLoop
    split
    · rename_i he
      rw [he] at ih
      exact ih
    · rename_i s₁ hs
      rw [hs] at ih
      split
      · rw [updateSplitAssignInfo_toC]
        simp only [State.send, State.setInfo]
        rw [Function.update_of_ne (by omega)]
        exact ih
      · exact ih

/-- The leader talks to nobody beyond the isolated coordinator. -/
theorem prePartition_beyond {c : Nat} (num : Nat) (files : List TaskFile) {s : State} (hc : n < c) :
    (Handled.state (prePartition n s num files)).toC c = s.toC c := by
  have hloop := prePartitionLoop_beyond (n := n) (k := if num = 0 then 1 else num) files
    (s := s.send n .assignIsolated) (Nat.le_of_lt hc)
  have hsend : (s.send n .assignIsolated).toC c = s.toC c :=
    Function.update_of_ne (Nat.ne_of_gt hc) _ _
  rw [hsend] at hloop
  unfold prePartition
  simp only
  split
  · rename_i he
    rw [he] at hloop
    exact hloop
  · rename_i hs
    rw [hs] at hloop
    split
    · exact hloop
    · split <;> exact hloop

theorem processSplitFailed_same (s : State) (src t : Nat) :
    (processSplitFailed s src t).leader.phase = s.leader.phase ∧
      (processSplitFailed s src t).toL = s.toL ∧ (processSplitFailed s src t).toC = s.toC ∧
      ∀ c, ((processSplitFailed s src t).leader.coordinators c).assigned =
        (s.leader.coordinators c).assigned := by
  unfold processSplitFailed
  simp only
  split
  · refine ⟨rfl, rfl, rfl, fun c => ?_⟩
    by_cases hc : c = src
    · subst hc
      simp [State.setInfo, State.pushIdle]
    · simp [State.setInfo, State.pushIdle, hc]
  · exact ⟨rfl, rfl, rfl, fun _ => rfl⟩

/-- The effect of a move of the leader, which may be followed by the shutdown. -/
theorem LeaderMove.effect {l : Lbl} (h : LeaderMove n s l s') (hB : Base n s)
    (hR : RosterInv n s) (hF : ∀ c < n, Life (s.link c)) :
    ∃ s₁, Effect n s s₁ ∧ (s' = s₁ ∨
      (s.leader.phase = .waitPrePartition ∨ s.leader.phase = .main) ∧ ∃ o, s' = s₁.stop n o) := by
  cases h with
  | booted hp h =>
    refine ⟨_, ?_, .inl rfl⟩
    rw [leaderBoot_ok h]
    refine .booted hp rfl ?_ (fun c hc => ?_) rfl fun c hc => ?_
    · simp [setPhase, State.setInfo, State.setTree, State.send]
    · simp [setPhase, State.setInfo, State.setTree, State.send, hc]
    · simp [setPhase, State.setInfo, State.setTree, State.send, Nat.ne_of_lt hc]
  | @prePartitioned num files rest s₁ hp hm h =>
    obtain ⟨htree, hiso⟩ := hR.wait hp
    obtain ⟨hq, -⟩ := hR.quiet (.inr hp)
    obtain ⟨s₂, t, hl, -, -, hok⟩ := prePartition_start num files rest hq htree hiso
    have hmax : (if num = 0 then 1 else num) = max 1 num := by
      split <;> omega
    rw [hmax] at hl
    rw [hok] at h
    cases h
    refine ⟨_, .prePartitioned hp rfl hm ?_ ?_ (fun c hc hk => ?_) (fun c hc hk => ?_)
      fun c hc => ?_, .inl rfl⟩
    · exact hl.same.toL
    · show s₂.toC n = _
      rw [hl.toIso]
      simp [State.send, State.popUp]
    · obtain ⟨hinfo, htoC⟩ := hl.given c hc hc hk
      refine ⟨?_, congrArg CoordinatorInfo.assigned (hq c hc).info, ?_⟩
      · show s₂.toC c = _
        rw [htoC]
        simp [State.send, State.popUp, Nat.ne_of_lt hc]
      · show (s₂.leader.coordinators c).assigned = _
        rw [hinfo]
    · obtain ⟨hinfo, htoC⟩ := hl.kept c hc fun hk' => hk hk'.2
      refine ⟨?_, hinfo⟩
      show s₂.toC c = _
      rw [htoC]
      simp [State.send, State.popUp, Nat.ne_of_lt hc]
    · have hbeyond := prePartition_beyond (n := n) num files (s := s.popUp n rest) hc
      rw [hok] at hbeyond
      exact hbeyond
  | @splitSucceeded src t tag f rest _ hp hsrc hm h =>
    have he := split_effect hp hsrc hm hB (hR.main hp) hF
    rw [h] at he
    exact ⟨_, he, .inl rfl⟩
  | @splitFailed src t tag rest hp hsrc hm =>
    obtain ⟨h₁, h₂, h₃, h₄⟩ := processSplitFailed_same (s.popUp src rest) src t
    exact ⟨_, .read h₁.symm hm h₂ h₃ h₄, .inl rfl⟩
  | @notified src v r rest t hp hsrc hm hv ht hd =>
    refine ⟨setCoordinatorIdle ((s.popUp src rest).setTree t) src,
      .solved hp hp hsrc hm rfl rfl fun c hc => ?_, .inl rfl⟩
    simp [setCoordinatorIdle, State.setInfo, State.pushIdle, State.popUp, State.setTree, hc]
  | queueEmpty hp hi => exact ⟨s, .idle rfl rfl rfl fun _ => rfl, .inl rfl⟩
  | @requested b t rest hp hi hs =>
    have hR := hR.main hp
    have htn : t < n := hR.idleLt t (by rw [hi]; exact List.mem_cons_self)
    refine ⟨((nextIdle n s rest).setInfo s.leader.nextSplitRank
        { s.leader.coordinators s.leader.nextSplitRank with status := .splitting }).send
          s.leader.nextSplitRank
          (.requestSplit t (s.leader.coordinators s.leader.nextSplitRank).solvingRound),
      .requested hp hp (hR.nextLt (by omega)) rfl rfl fun c => ?_, .inl rfl⟩
    by_cases hc : c = s.leader.nextSplitRank
    · subst hc
      simp [State.send, State.setInfo, nextIdle]
    · simp [State.send, State.setInfo, nextIdle, hc]
  | @rotated b t rest hp hi =>
    exact ⟨(nextIdle n s rest).pushIdle t, .idle rfl rfl rfl fun _ => rfl, .inl rfl⟩
  | timedOut hp => exact ⟨s, .idle rfl rfl rfl fun _ => rfl, .inr ⟨.inr hp, _, rfl⟩⟩
  | @coordinatorError src rest hp hm =>
    exact ⟨s.popUp src rest, .read rfl hm rfl rfl fun _ => rfl, .inr ⟨hp.symm, _, rfl⟩⟩
  | @verdict src v r rest t hp hsrc hm hv ht hd =>
    exact ⟨(s.popUp src rest).setTree t, .read rfl hm rfl rfl fun _ => rfl,
      .inr ⟨.inr hp, _, rfl⟩⟩
  | @isoVerdict r rest hp hm =>
    exact ⟨(s.popUp n rest).setTree (s.leader.tree.originalSolved r),
      .read rfl hm rfl rfl fun _ => rfl, .inr ⟨hp.symm, _, rfl⟩⟩
  | crashed h =>
    obtain ⟨hp, he⟩ := h.effect hB hR hF
    exact ⟨_, he, .inr ⟨hp, _, rfl⟩⟩

theorem Effect.life (he : Effect n s s') (hco : s'.coord = s.coord)
    (hF : ∀ c < n, Life (s.link c)) : ∀ c < n, Life (s'.link c) := by
  intro c hc
  have hold := hF c hc
  have hlink : s'.link c =
      ⟨s'.leader.coordinators c, s.coord c, (s.coord c).drained ++ s'.toC c, s'.toL c⟩ := by
    simp [State.link, State.down, hco]
  rw [hlink]
  cases he with
  | booted hp hp' hn hC hL ha =>
    rw [hC c (Nat.ne_of_lt hc), hL, ha c hc]
    exact hold
  | @prePartitioned num files rest hp hp' hm hL hn given kept _ =>
    rw [hL, Function.update_of_ne (Nat.ne_of_lt hc)]
    by_cases hk : c < max 1 num
    · obtain ⟨hC, hnone, hsome⟩ := given c hc hk
      rw [hC, ← List.append_assoc]
      exact hold.assign hnone hsome
    · obtain ⟨hC, hinfo⟩ := kept c hc hk
      rw [hC, hinfo]
      exact hold
  | @split src t tag v f rest hp hp' hsrc ht hne hm hL hC hnone hv ha =>
    rw [hL, hC]
    by_cases hcs : c = src
    · subst hcs
      rw [Function.update_self, Function.update_self, ← List.append_assoc]
      exact (hold.accept hm).setInfo (ha c hne)
    · rw [Function.update_of_ne hcs, Function.update_of_ne hcs]
      by_cases hct : c = t
      · subst hct
        rw [Function.update_self, ← List.append_assoc]
        exact hold.assign hnone hv
      · rw [Function.update_of_ne hct]
        exact hold.setInfo (ha c hct)
  | @solved src r rest hp hp' hsrc hm hL hC ha =>
    rw [hL, hC]
    by_cases hcs : c = src
    · subst hcs
      rw [Function.update_self]
      exact hold.solved hm
    · rw [Function.update_of_ne hcs]
      exact hold.setInfo (ha c hcs)
  | @requested d t tag hp hp' hd hC hL ha =>
    rw [hL, hC]
    by_cases hcd : c = d
    · subst hcd
      rw [Function.update_self, ← List.append_assoc]
      exact (hold.send (m := .requestSplit t tag) rfl rfl (by simp)).setInfo (ha c)
    · rw [Function.update_of_ne hcd]
      exact hold.setInfo (ha c)
  | @read src m rest hp hm hL hC ha =>
    rw [hL, hC]
    by_cases hcs : c = src
    · subst hcs
      rw [Function.update_self]
      cases hn : m.isNotify with
      | false => exact (hold.pop hm hn).setInfo (ha c)
      | true =>
        cases m with
        | notifyResult r => exact hold.solved hm
        | _ => cases hn
    · rw [Function.update_of_ne hcs]
      exact hold.setInfo (ha c)
  | idle hp hL hC ha =>
    rw [hL, hC]
    exact hold.setInfo (ha c)

theorem Life.stop {o : Outcome} {c : Nat} (hc : c < n) (h : Life (s.link c)) :
    Life ((s.stop n o).link c) := by
  rw [link_stop n s o (Nat.le_of_lt hc)]
  exact h.send rfl rfl nofun

theorem LeaderMove.life {l : Lbl} (h : LeaderMove n s l s') (hB : Base n s) (hR : RosterInv n s)
    (hF : ∀ c < n, Life (s.link c)) : ∀ c < n, Life (s'.link c) := by
  have hco := h.coords.coord
  obtain ⟨s₁, he, rfl | ⟨-, o, rfl⟩⟩ := h.effect hB hR hF
  · exact he.life hco hF
  · rw [stop_coord] at hco
    exact fun c hc => (he.life hco hF c hc).stop hc

theorem CoordMove.life {c : Nat} {l : Lbl} (h : CoordMove n c s l s') (hD : Drained s)
    (hF : ∀ d < n, Life (s.link d)) : ∀ d < n, Life (s'.link d) := by
  intro d hd
  by_cases hdc : d = c
  · subst hdc
    exact (hF d hd).coordStep (h.link hD)
  · rw [h.link_ne hdc]
    exact hF d hd

theorem IsoMove.life {l : Lbl} (h : IsoMove n s l s') (hF : ∀ d < n, Life (s.link d)) :
    ∀ d < n, Life (s'.link d) := by
  intro d hd
  rw [h.link_ne (Nat.ne_of_lt hd)]
  exact hF d hd

end Effects

end AriParti.L4
