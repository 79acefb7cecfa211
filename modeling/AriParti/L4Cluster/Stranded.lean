import AriParti.L4Cluster.Supply

/-!
# A failing coordinator and those who wait for it

The run in which no coordinator raises while it owes a file, and none without a
partitioner while its status is solving, strands nobody: who is blocked in
`receive_node_from_coordinator` can still be sent its file, and after the
shutdown the others need nothing but their own next steps to reach the barrier.

A coordinator that has raised throws a `transfer_node` away with the other
messages. Its receiver waits for ever (`Stuck.forever`), and so does the barrier.

## Results

* `careful_cared`: the invariants, in every careful run.
* `Supplied.canSend`: who is blocked can be sent its file.
* `advance`: after the shutdown some coordinator can go on.
* `failing_strands_nobody`: the result, for every reachable state.
-/
namespace AriParti.L4
open AriParti.Core AriParti.L3

/-- What is known of every state of a careful run. -/
structure Cared (n : Nat) (K : Cluster) : Prop where
  base : Base n K.state
  roster : RosterInv n K.state
  iso : IsoInv n K.state
  life : ∀ c < n, Life (K.state.link c)
  supplied : Supplied n K.state
  partitioner : ∀ c, (K.round c).status = .solving → (K.round c).partitioner = true

section Careful

variable {n : Nat} {K K' : Cluster}

/-- A step without an exception in the middle. -/
theorem roundAfter_state (K : Cluster) (s' : State) (l : Lbl) : (roundAfter K s' l).state = s' := by
  unfold roundAfter
  split
  · rfl
  · split <;> rfl
  · rfl
  · rfl

theorem roundAfter_partitioner (s' : State) (l : Lbl)
    (h : ∀ c, (K.round c).status = .solving → (K.round c).partitioner = true) (c : Nat)
    (hc : ((roundAfter K s' l).round c).status = .solving) :
    ((roundAfter K s' l).round c).partitioner = true := by
  have set : ∀ (L : Cluster) d r, (r.status = .solving → r.partitioner = true) →
      L.round = K.round → ((L.setRound d r).round c).status = .solving →
      ((L.setRound d r).round c).partitioner = true := by
    intro L d r hr hL hs
    show (Function.update L.round d r c).partitioner = true
    have hs : (Function.update L.round d r c).status = .solving := hs
    by_cases hcd : c = d
    · subst hcd
      rw [Function.update_self] at hs ⊢
      exact hr hs
    · rw [Function.update_of_ne hcd, hL] at hs ⊢
      exact h c hs
  unfold roundAfter at hc ⊢
  split at hc
  · exact set _ _ _ (fun _ => rfl) rfl hc
  · split at hc
    · rename_i hb
      rw [if_pos hb]
      exact set _ _ _ (fun _ => rfl) rfl hc
    · rename_i hb
      rw [if_neg hb]
      exact h c hc
  · exact set _ _ _ nofun rfl hc
  · exact h c hc

/-- A step that makes `c` send `notify_error` raises. -/
theorem raisesAt_of_step {l : Fault} {c : Nat} (hs : failStep n K l = some K')
    (hL : K'.state.toL c = K.state.toL c ++ [.notifyError]) : raisesAt n K l c = true := by
  unfold raisesAt
  rw [hs, Option.any_some, hL]
  exact beq_self_eq_true _

theorem owes_of_careful {l : Fault} {c : Nat} (h : careful n K l = true) (hc : c ≤ n)
    (hs : failStep n K l = some K') (hL : K'.state.toL c = K.state.toL c ++ [.notifyError]) :
    owes n K.state c = false := by
  unfold careful at h
  rw [Bool.and_eq_true, List.all_eq_true] at h
  have := h.2 c (List.mem_range.2 (Nat.lt_succ_of_le hc))
  rw [raisesAt_of_step hs hL, Bool.true_and] at this
  exact Bool.not_eq_true' _ ▸ this

theorem Cared.run (h : Cared n K) {l : Lbl} (hg : careful n K (.run l) = true)
    (hs : failStep n K (.run l) = some K') : Cared n K' := by
  obtain ⟨s', hstep, rfl⟩ := Option.map_eq_some_iff.1 hs
  have hround := roundAfter_partitioner s' l h.partitioner
  have howes : ∀ c ≤ n, s'.toL c = K.state.toL c ++ [.notifyError] → owes n K.state c = false :=
    fun c hc hL => owes_of_careful hg hc hs (by rw [roundAfter_state]; exact hL)
  obtain ⟨hB, hR⟩ := (roster_inductive n).step K.state l s' ⟨h.base, h.roster⟩ hstep
  have hrest : IsoInv n s' ∧ (∀ c < n, Life (s'.link c)) ∧ Supplied n s' := by
    rcases step_cases hstep with hm | ⟨c, hc, hm⟩ | hm
    · exact ⟨hm.iso h.iso, hm.life h.base h.roster h.life,
        hm.supplied h.base h.iso h.roster h.life h.supplied⟩
    · exact ⟨hm.iso hc h.iso, hm.life h.base.drained h.life,
        hm.supplied hc h.base.drained h.supplied (howes c (Nat.le_of_lt hc))⟩
    · exact ⟨hm.iso h.base.drained h.iso, hm.life h.life,
        hm.supplied hstep h.base h.supplied (howes n (Nat.le_refl n))⟩
  obtain ⟨hI, hF, hS⟩ := hrest
  rw [← roundAfter_state K s' l] at hB hR hI hF hS
  exact ⟨hB, hR, hI, hF, hS, hround⟩

/-- The loop over the files raises: but for the files, the isolated
coordinator raises as it reads the message. -/
theorem Cared.sendRaise {k : Nat} (h : Cared n K) (hg : careful n K (.sendRaise k) = true)
    (hs : failStep n K (.sendRaise k) = some K') : Cared n K' := by
  obtain ⟨s', hstep, rfl⟩ := Option.map_eq_some_iff.1 hs
  have hL : s'.toL n = K.state.toL n ++ [.notifyError] := by
    obtain ⟨rest, F, S, -, -, -, rfl⟩ := sendRaise_cases hstep
    simp [raiseError, die, State.post, State.setCoord, State.pop]
  have howes := owes_of_careful hg (Nat.le_refl n) hs hL
  have hS := sendRaise_supplied hstep h.base h.supplied howes
  obtain ⟨rest, F, S, hm, -, -, rfl⟩ := sendRaise_cases hstep
  have hB := hm.base h.base
  have hR := hm.roster h.roster
  have hI := hm.iso h.base.drained h.iso
  exact ⟨⟨hB.drained, hB.isoUp, hB.distUp⟩, hR.congr rfl (fun _ _ hq => hq) fun _ _ _ => rfl,
    ⟨hI.boot, hI.early, hI.late⟩, hm.life h.life, hS, h.partitioner⟩

theorem cared_init (n : Nat) : Cared n ⟨init n, fun _ => ⟨.idle, false⟩⟩ := by
  obtain ⟨hB, hR⟩ := (roster_inductive n).init (init n) rfl
  exact ⟨hB, hR, isoInv_init n, fun c hc => ((hR.quiet (.inl rfl)).1 c hc).life, supplied_init n,
    nofun⟩

theorem careful_cared (n : Nat) : (carefulLts n).Inductive (Cared n) where
  init := by
    intro K hK
    rw [show K = _ from hK]
    exact cared_init n
  step := by
    intro K l K' h hs
    cases l with
    | run l => exact h.run hs.1 hs.2
    | sendRaise k => exact h.sendRaise hs.1 hs.2
    | startRaise c | cleanUpRaise c r => cases hs.1

end Careful

/-! ## Who is blocked can be sent its file -/

section Blocked

variable {n : Nat} {s : State}

/-- The isolated coordinator is asked for no transfer. -/
theorem IsoReads.no_transfer {p : CoordPhase} {ms : List L2C} (h : IsoReads s p ms) {m : L2C}
    (hm : m ∈ ms) : m.isTransfer = false := by
  have plain : ∀ ts : List L2C, (∀ m ∈ ts, m = .terminateCoordinator) → m ∈ ts →
      m.isTransfer = false := by
    intro ts hts hin
    rw [hts m hin]
    rfl
  have told : ∀ ts : List L2C, ms = .assignIsolated :: ts →
      (∀ m ∈ ts, m = .terminateCoordinator) → m.isTransfer = false := by
    intro ts hms hts
    rw [hms] at hm
    rcases List.mem_cons.1 hm with rfl | hin
    · rfl
    · exact plain ts hts hin
  unfold IsoReads at h
  split at h
  · rcases h with ⟨-, rfl⟩ | ⟨ts, hms, hts⟩
    · exact absurd hm List.not_mem_nil
    · exact told ts hms hts
  · rcases h with hts | ⟨ts, hms, hts⟩
    · exact plain _ hts hm
    · exact told ts hms hts
  · exact h.elim
  · exact plain _ h hm

theorem isTransfer_of_transfersTo {m : L2C} {t : Nat} (h : m.transfersTo t = true) :
    m.isTransfer = true := by
  cases m with
  | transferNode _ _ _ => rfl
  | _ => cases h

/-- A live giver that has a transfer to read will read it. -/
theorem Supplied.giver (hS : Supplied n s) (hF : ∀ c < n, Life (s.link c))
    {a : Nat} (ha : (s.coord a).alive = true) {m : L2C} (hm : m ∈ s.toC a)
    (ht : m.isTransfer = true) :
    a < n ∧ ((s.coord a).phase = .idle ∨ (s.coord a).phase = .solving) := by
  rcases Nat.lt_trichotomy a n with hlt | rfl | hgt
  · refine ⟨hlt, ?_⟩
    have hmem : m ∈ (s.link a).down := List.mem_append_right _ hm
    rcases (hF a hlt).phase with hp | ⟨src, v, hp⟩ | hp
    · exact .inl hp
    · have := (hF a hlt).receiving src v hp m hmem
      rw [ht] at this
      cases this
    · exact .inr hp
  · have := (hS.iso ha).no_transfer hm
    rw [ht] at this
    cases this
  · rw [hS.ended.beyond a hgt] at hm
    exact absurd hm List.not_mem_nil

theorem Supplied.canSend (hS : Supplied n s) (hF : ∀ c < n, Life (s.link c)) {a t : Nat} (ht : t ≤ n)
    (hb : BlockedOn s a t) : CanSend n s a t := by
  obtain ⟨halive, v, hp⟩ := hb
  rcases Nat.lt_or_eq_of_le ht with hlt | rfl
  · have hone : 1 ≤ awaits s a t := by
      unfold awaits
      rw [hp]
      simp [CoordPhase.waitsFor]
    have hdue := Nat.le_trans hone (hS.balance t hlt halive a)
    unfold due at hdue
    by_cases hfile : s.files a t = []
    · rw [hfile, List.length_nil, Nat.zero_add] at hdue
      by_cases ha : (s.coord a).alive = true
      · rw [if_pos ha] at hdue
        refine .inr ⟨ha, ?_⟩
        cases hiso : isoDue n s a t with
        | true =>
          obtain ⟨rfl, outgoing, hout, hlen, -⟩ := isoDue_iff.1 hiso
          exact .inr ⟨rfl, outgoing, hout, hlen⟩
        | false =>
          rw [hiso, Bool.toNat_false, Nat.add_zero] at hdue
          obtain ⟨m, hm, hto⟩ := List.countP_pos_iff.1 hdue
          exact .inl ⟨(hS.giver hF ha hm (isTransfer_of_transfersTo hto)).2, m, hm, hto⟩
      · rw [if_neg ha] at hdue
        omega
    · exact .inl hfile
  · have := hS.iso halive
    rw [hp] at this
    exact this.elim

end Blocked

/-! ## After the shutdown -/

/-- What keeps a coordinator from the barrier besides its messages. -/
def CoordPhase.waits : CoordPhase → Nat
  | .receiving _ _ => 1
  | .prePartition => 1
  | _ => 0

def todo (s : State) (c : Nat) : Nat := 2 * (s.toC c).length + (s.coord c).phase.waits

def backlog (n : Nat) (s : State) : Nat := ∑ c ∈ Finset.range (n + 1), todo s c

/-- The coordinator `c` takes a step that raises nothing and leaves it less to
do. -/
structure Advances (n : Nat) (s : State) (c : Nat) (l : Lbl) (s' : State) : Prop where
  step : step n s l = some s'
  leader : s'.leader = s.leader
  up : s'.toL = s.toL ∨ ∃ m, m ≠ .notifyError ∧ s'.toL = Function.update s.toL c (s.toL c ++ [m])
  others : ∀ d, d ≠ c → s'.toC d = s.toC d ∧ s'.coord d = s.coord d
  less : todo s' c < todo s c

section Advance

variable {n c : Nat} {s s' : State} {l : Lbl}

theorem Advances.backlog (h : Advances n s c l s') (hc : c ≤ n) : backlog n s' < backlog n s := by
  have hsum := sum_range_change (f := todo s) (g := todo s') (show c < n + 1 by omega) fun d hd => by
    unfold todo
    rw [(h.others d hd).1, (h.others d hd).2]
  have hless := h.less
  unfold L4.backlog
  omega

theorem Advances.calm {K : Cluster} (h : Advances n K.state c l s') : calm n K (.run l) = true := by
  unfold L4.calm
  rw [Bool.and_eq_true, List.all_eq_true]
  refine ⟨rfl, fun d _ => ?_⟩
  rw [Bool.not_eq_true', raisesAt, failStep, h.step, Option.map_some, Option.any_some,
    roundAfter_state, beq_eq_false_iff_ne]
  rcases h.up with hu | ⟨m, hm, hu⟩
  · rw [hu]
    exact fun he => absurd (List.self_eq_append_right.1 he) (List.cons_ne_nil _ _)
  · rw [hu]
    by_cases hd : d = c
    · subst hd
      rw [Function.update_self]
      exact fun he => hm (List.singleton_inj.1 (List.append_cancel_left he))
    · rw [Function.update_of_ne hd]
      exact fun he => absurd (List.self_eq_append_right.1 he) (List.cons_ne_nil _ _)

/-- One message fewer is enough. -/
theorem Advances.of_read {m : L2C} {rest : List L2C} (hm : s.toC c = m :: rest)
    (hstep : L4.step n s l = some s') (hlead : s'.leader = s.leader)
    (hup : s'.toL = s.toL ∨ ∃ m, m ≠ .notifyError ∧
      s'.toL = Function.update s.toL c (s.toL c ++ [m]))
    (hC : s'.toC = Function.update s.toC c rest) (hco : ∀ d, d ≠ c → s'.coord d = s.coord d)
    (hw : (s'.coord c).phase.waits ≤ (s.coord c).phase.waits + 1) : Advances n s c l s' := by
  refine ⟨hstep, hlead, hup, fun d hd => ⟨?_, hco d hd⟩, ?_⟩
  · rw [hC, Function.update_of_ne hd]
  · unfold todo
    rw [hC, Function.update_self, hm, List.length_cons]
    omega

/-- A coordinator in the exception handler reads on. -/
theorem advance_dead (hc : c ≤ n) (ha : (s.coord c).alive = false) {m : L2C} {rest : List L2C}
    (hm : s.toC c = m :: rest) :
    Advances n s c (.coordRead c .decline) (die (s.pop c rest) c m) := by
  refine .of_read hm ?_ rfl (.inl rfl) rfl (fun d hd => Function.update_of_ne hd _ _) ?_
  · simp [L4.step, coordRead, hc, ha, hm]
  · simp [die, State.setCoord, State.pop]

/-- The main loop handles any message it can have. -/
theorem advance_main (hc : c < n) (hD : Drained s) (hF : Life (s.link c))
    (ha : (s.coord c).alive = true)
    (hp : (s.coord c).phase = .idle ∨ (s.coord c).phase = .solving) {m : L2C} {rest : List L2C}
    (hm : s.toC c = m :: rest) : ∃ s', Advances n s c (.coordRead c .decline) s' := by
  have hread : L4.step n s (.coordRead c .decline) =
      receiveMessageFromLeader (s.pop c rest) c .decline m := by
    have hcn := Nat.ne_of_lt hc
    rcases hp with hp | hp <;> simp [L4.step, coordRead, hm, ha, hp, hcn, Nat.le_of_lt hc]
  have hdown : s.down c = m :: rest := by rw [hD.down ha, hm]
  have hmem : m ∈ (s.link c).down := by
    rw [link_down, hdown]
    exact List.mem_cons_self
  cases m with
  | requestSplit t tag =>
    refine ⟨(s.pop c rest).post c (.splitFailed t tag), .of_read hm (hread.trans ?_) rfl
      (.inr ⟨.splitFailed t tag, by simp, rfl⟩) rfl (fun _ _ => rfl) (Nat.le_succ _)⟩
    simp only [receiveMessageFromLeader, processSplitMessage]
    split <;> rfl
  | transferNode t v f =>
    obtain ⟨hsplit, hfolder⟩ := hF.fields (.inr ⟨_, hmem, rfl⟩)
    obtain ⟨pid, hpid⟩ := Option.isSome_iff_exists.1 hsplit
    obtain ⟨F, hF⟩ := Option.isSome_iff_exists.1 hfolder
    refine ⟨(s.pop c rest).sendFile c t (F.task c pid) v, .of_read hm (hread.trans ?_) rfl
      (.inl rfl) rfl (fun _ _ => rfl) (Nat.le_succ _)⟩
    have hpid : ((s.pop c rest).coord c).splitNode = some pid := hpid
    have hF : ((s.pop c rest).coord c).folder = some F := hF
    simp only [receiveMessageFromLeader, processTransferMessage, hpid, hF]
  | assignNode src v =>
    -- a second assignment never waits behind the first
    have hidle : (s.coord c).phase = .idle := by
      refine hp.resolve_right fun hp => ?_
      have hwork := hF.work
      have hle := (s.link c).isAssigned_le
      have hbusy : (s.link c).busy = true := by simp [Link.busy, link_co, hp]
      rw [link_down, hdown, List.countP_cons_of_pos rfl, hbusy, Bool.toNat_true] at hwork
      omega
    refine ⟨(s.pop c rest).setCoord c { s.coord c with phase := .receiving src v },
      .of_read hm (hread.trans ?_) rfl (.inl rfl) rfl (fun d hd => Function.update_of_ne hd _ _) ?_⟩
    · have hidle : ((s.pop c rest).coord c).phase = .idle := hidle
      simp only [receiveMessageFromLeader, processAssignMessage, hidle, if_true]
      rfl
    · simp [State.setCoord, State.pop, CoordPhase.waits]
  | assignIsolated => exact absurd hmem hF.plain
  | terminateCoordinator =>
    refine ⟨die (s.pop c rest) c .terminateCoordinator, .of_read hm hread rfl (.inl rfl) rfl
      (fun d hd => Function.update_of_ne hd _ _) ?_⟩
    simp [die, State.setCoord, State.pop]

/-- A file that has come in is received. -/
theorem advance_receive (hc : c < n) (ha : (s.coord c).alive = true) {a v : Nat}
    (hp : (s.coord c).phase = .receiving a v) (hf : s.files a c ≠ []) :
    ∃ s', Advances n s c (.coordFile c) s' := by
  obtain ⟨⟨f, v'⟩, rest, hf⟩ := List.exists_cons_of_ne_nil hf
  let s₁ := s.setCoord c (startSolving (s.coord c) .solving f)
  refine ⟨{ s₁ with
    files := Function.update s.files a (Function.update (s.files a) c rest)
    received := Function.update s.received v' (s.received v' ++ [⟨c, v, f⟩]) }, ?_, rfl, .inl rfl,
    fun d hd => ⟨rfl, Function.update_of_ne hd _ _⟩, ?_⟩
  · simp only [L4.step, coordFile, hc, if_true, ha, hp, hf]
    rfl
  · simp [todo, s₁, State.setCoord, startSolving, CoordPhase.waits, hp]

/-- The isolated coordinator is never at a loss. -/
theorem advance_iso (hS : Supplied n s) (ha : (s.coord n).alive = true)
    (hboot : s.leader.phase ≠ .boot) {m : L2C} {rest : List L2C} (hm : s.toC n = m :: rest) :
    ∃ l s', Advances n s n l s' := by
  have hread : L4.step n s (.coordRead n .decline) = isolatedReceive n (s.pop n rest) m := by
    simp [L4.step, coordRead, hm, ha]
  have hreads := hS.iso ha
  have others : ∀ (co : Coord) d, d ≠ n → ((s.pop n rest).setCoord n co).coord d = s.coord d :=
    fun co d hd => Function.update_of_ne hd _ _
  have terminated : m = .terminateCoordinator →
      ((s.coord n).phase = .idle ∨ (s.coord n).phase = .solving ∨
        ∃ outgoing, (s.coord n).phase = .waitLeader outgoing) → ∃ l s', Advances n s n l s' := by
    intro hterm hp
    refine ⟨_, die (s.pop n rest) n m, .of_read hm (hread.trans ?_) rfl (.inl rfl) rfl (others _) ?_⟩
    · have hco : (s.pop n rest).coord = s.coord := rfl
      rcases hp with hp | hp | ⟨outgoing, hp⟩ <;> simp [isolatedReceive, hco, hp, hterm]
    · simp [die, State.setCoord, State.pop]
  rw [hm] at hreads
  cases hp : (s.coord n).phase with
  | boot =>
    rw [hp] at hreads
    rcases hreads with ⟨hb, -⟩ | ⟨ts, he, -⟩
    · exact absurd hb hboot
    · cases he
      refine ⟨_, (s.pop n rest).setCoord n (startSolving (s.coord n) .prePartition .input),
        .of_read hm (hread.trans ?_) rfl (.inl rfl) rfl (others _) ?_⟩
      · have hp : ((s.pop n rest).coord n).phase = .boot := hp
        simp only [isolatedReceive, hp, if_true]
        rfl
      · simp [State.setCoord, startSolving, CoordPhase.waits]
  | waitLeader outgoing =>
    rw [hp] at hreads
    rcases hreads with hterm | ⟨ts, he, -⟩
    · exact terminated (hterm m List.mem_cons_self) (.inr (.inr ⟨outgoing, hp⟩))
    · cases he
      obtain ⟨hlead, hco, hC, hL, -⟩ := sendFiles_same n outgoing 0 (s.pop n rest)
      refine ⟨_, ((s.pop n rest).sendFiles n 0 outgoing).setCoord n
        { s.coord n with phase := .solving }, .of_read hm (hread.trans ?_) hlead (.inl hL) hC
          (fun d hd => ?_) ?_⟩
      · have hp : ((s.pop n rest).coord n).phase = .waitLeader outgoing := hp
        simp only [isolatedReceive, hp, if_true]
        rfl
      · exact (Function.update_of_ne hd _ _).trans (congrFun hco d)
      · simp [State.setCoord, CoordPhase.waits]
  | prePartition =>
    obtain ⟨F, hF⟩ := Option.isSome_iff_exists.1 (hS.folder hp)
    refine ⟨.isoPre [], (s.post n (.prePartitionDone 0 (F.outgoing n []))).setCoord n
      { s.coord n with phase := .waitLeader (F.outgoing n []) }, ?_, rfl,
      .inr ⟨.prePartitionDone 0 (F.outgoing n []), by simp, rfl⟩,
      fun d hd => ⟨rfl, Function.update_of_ne hd _ _⟩, ?_⟩
    · simp only [L4.step, isoPre, ha, hp, hF, List.length_nil, Nat.zero_le, if_true]
    · simp [todo, State.setCoord, State.post, CoordPhase.waits, hp]
  | receiving src v =>
    rw [hp] at hreads
    exact hreads.elim
  | idle =>
    rw [hp] at hreads
    exact terminated (hreads m List.mem_cons_self) (.inl hp)
  | solving =>
    rw [hp] at hreads
    exact terminated (hreads m List.mem_cons_self) (.inr (.inl hp))

end Advance

/-- After the shutdown the coordinators can go on until all are at the
barrier: who is not has a message to read, or waits for a file that is there,
or whose sender can go on. -/
theorem advance {n : Nat} {K : Cluster} (h : Cared n K) {o : Outcome}
    (ho : K.state.leader.phase = .stopped o) {c : Nat} (hc : c ≤ n) (hbar : ¬AtBarrier K c) :
    ∃ d ≤ n, ∃ l s', Advances n K.state d l s' := by
  have hboot : K.state.leader.phase ≠ .boot := by
    rw [ho]
    exact nofun
  have hterm : ∀ d ≤ n, ¬AtBarrier K d → ∃ m rest, K.state.toC d = m :: rest := by
    intro d hd hnot
    refine List.exists_cons_of_ne_nil (l := K.state.toC d) (fun hnil => hnot ?_)
    have hdown := h.supplied.ended.stopped o ho d hd
    unfold State.down at hdown
    rw [hnil, List.append_nil] at hdown
    refine ⟨Bool.not_eq_true _ ▸ fun ha => ?_, hdown, h.partitioner d⟩
    rw [h.base.drained d ha] at hdown
    exact List.not_mem_nil hdown
  have hlive : ∀ d ≤ n, (K.state.coord d).alive = true → ¬AtBarrier K d := by
    intro d _ ha hat
    rw [hat.1] at ha
    cases ha
  -- the isolated coordinator and the main loop
  have main : ∀ d ≤ n, (K.state.coord d).alive = true → (d < n → (K.state.coord d).phase = .idle ∨
      (K.state.coord d).phase = .solving) → ∃ d ≤ n, ∃ l s', Advances n K.state d l s' := by
    intro d hd ha hp
    obtain ⟨m, rest, hm⟩ := hterm d hd (hlive d hd ha)
    rcases Nat.lt_or_eq_of_le hd with hlt | rfl
    · exact ⟨d, hd, _, advance_main hlt h.base.drained (h.life d hlt) ha (hp hlt) hm⟩
    · exact ⟨d, hd, advance_iso h.supplied ha hboot hm⟩
  by_cases ha : (K.state.coord c).alive = true
  · rcases Nat.lt_or_eq_of_le hc with hlt | rfl
    · rcases (h.life c hlt).phase with hp | ⟨a, v, hp⟩ | hp
      · exact main c hc ha fun _ => .inl hp
      · rcases h.supplied.canSend h.life hc ⟨ha, v, hp⟩ with hf | ⟨hal, hcan⟩
        · exact ⟨c, hc, _, advance_receive hlt ha hp hf⟩
        · rcases hcan with ⟨hp', m, hm, hto⟩ | ⟨rfl, -⟩
          · have hlt := (h.supplied.giver h.life hal hm (isTransfer_of_transfersTo hto)).1
            exact main a (Nat.le_of_lt hlt) hal fun _ => hp'
          · exact main a (Nat.le_refl a) hal fun hlt => absurd hlt (Nat.lt_irrefl a)
      · exact main c hc ha fun _ => .inr hp
    · exact main c hc ha fun hlt => absurd hlt (Nat.lt_irrefl c)
  · obtain ⟨m, rest, hm⟩ := hterm c hc hbar
    exact ⟨c, hc, _, _, advance_dead hc (Bool.not_eq_true _ ▸ ha) hm⟩

/-- A calm step is careful. -/
theorem careful_of_calm {n : Nat} {K : Cluster} {l : Fault} (h : calm n K l = true) :
    careful n K l = true := by
  unfold calm at h
  unfold careful
  rw [Bool.and_eq_true, List.all_eq_true] at h ⊢
  refine ⟨h.1, fun c hc => ?_⟩
  have := h.2 c hc
  rw [Bool.not_eq_true'] at this
  rw [this]
  rfl

/-- The run to the barrier. -/
theorem exists_run_to_barrier {n : Nat} {K : Cluster} (h : Cared n K) {o : Outcome}
    (ho : K.state.leader.phase = .stopped o) :
    ∃ ls K', (calmLts n).Run K ls K' ∧ ∀ c ≤ n, AtBarrier K' c := by
  induction hk : backlog n K.state using Nat.strong_induction_on generalizing K with
  | h k ih =>
    by_cases hall : ∀ c ≤ n, AtBarrier K c
    · exact ⟨[], K, .nil K, hall⟩
    · push Not at hall
      obtain ⟨c, hc, hbar⟩ := hall
      obtain ⟨d, hd, l, s', hadv⟩ := advance h ho hc hbar
      have hstep : failStep n K (.run l) = some (roundAfter K s' l) := by
        rw [failStep, hadv.step]
        rfl
      have hcared := h.run (careful_of_calm hadv.calm) hstep
      have hless := hadv.backlog hd
      have ho' : (roundAfter K s' l).state.leader.phase = .stopped o := by
        rw [roundAfter_state, hadv.leader]
        exact ho
      rw [← roundAfter_state K s' l, hk] at hless
      obtain ⟨ls, K', hrun, hat⟩ := ih _ hless hcared ho' rfl
      exact ⟨.run l :: ls, K', .cons ⟨hadv.calm, hstep⟩ hrun, hat⟩

/-- Who is blocked can be sent its file, and after the shutdown everybody can
reach the barrier with no further exception. -/
def NobodyStranded (n : Nat) (K : Cluster) : Prop :=
  (∀ t ≤ n, ∀ a, BlockedOn K.state a t → CanSend n K.state a t) ∧
    ∀ o, K.state.leader.phase = .stopped o →
      ∃ ls K', (calmLts n).Run K ls K' ∧ ∀ c ≤ n, AtBarrier K' c

/-- **A failing coordinator strands nobody** in a run in which none raises
while it owes a file, and none without a partitioner while its status is
solving. -/
theorem failing_strands_nobody (n : Nat) (K : Cluster) (hr : (carefulLts n).Reachable K) :
    NobodyStranded n K := by
  have h := (careful_cared n).reachable hr
  refine ⟨fun t ht a hb => ?_, fun o ho => ?_⟩
  · exact h.supplied.canSend h.life ht hb
  · exact exists_run_to_barrier h ho

/-- Coordinator 1 raises, and 0 still waits for the file of the isolated one. -/
theorem failing_strands_nobody_two : ∃ K, (carefulLts 2).Reachable K ∧
    (K.state.leader.phase = .stopped .coordinatorError ∧ BlockedOn K.state 2 0) ∧
      NobodyStranded 2 K := by
  obtain ⟨K, hr, hp⟩ := LTS.exists_reachable_of_exec_guard
    ⟨init 2, fun _ => ⟨.idle, false⟩⟩ (failStep 2) (careful 2)
    (fun K l => careful 2 K l = true) (fun _ _ h => h)
    [.run .leaderBoot, .run (.coordRead 2 .decline), .run (.isoPre [10]), .run (.leaderRecv 2),
      .run (.coordRead 0 .decline), .run (.coordFail 1), .run (.leaderRecv 1)]
    (fun K => K.state.leader.phase == .stopped .coordinatorError && (K.state.coord 0).alive &&
      (K.state.coord 0).phase == .receiving 2 1) (by decide +kernel)
  simp only [Bool.and_eq_true, beq_iff_eq] at hp
  obtain ⟨⟨hstop, ha⟩, hphase⟩ := hp
  exact ⟨K, hr, ⟨hstop, ha, 1, hphase⟩, failing_strands_nobody 2 K hr⟩

/-! ## What an exception breaks -/

/-- `t` waits for a file of `a`, which has raised without sending it. -/
structure Stuck (s : State) (a t : Nat) : Prop where
  blocked : BlockedOn s a t
  raised : (s.coord a).alive = false
  noFile : s.files a t = []

section Stuck

variable {n a t : Nat} {s s' : State}

theorem Stuck.not_canSend (h : Stuck s a t) : ¬CanSend n s a t := by
  rintro (hf | ⟨ha, -⟩)
  · exact hf h.noFile
  · rw [h.raised] at ha
    cases ha

theorem Stuck.of_same (h : Stuck s a t) (ha : s'.coord a = s.coord a) (ht : s'.coord t = s.coord t)
    (hf : s'.files a t = s.files a t) : Stuck s' a t := by
  refine ⟨?_, ?_, hf.trans h.noFile⟩
  · unfold BlockedOn
    rw [ht]
    exact h.blocked
  · rw [ha]
    exact h.raised

/-- Only an exception of its own ends the wait. -/
theorem Stuck.step (h : Stuck s a t) (ht : t < n) {l : Lbl} (hs : step n s l = some s')
    (hno : s'.toL t ≠ s.toL t ++ [.notifyError]) : Stuck s' a t := by
  obtain ⟨halive, v, hp⟩ := h.blocked
  have hdead := h.raised
  have hat : a ≠ t := by
    rintro rfl
    rw [hdead] at halive
    cases halive
  rcases step_cases hs with hm | ⟨c, hc, hm⟩ | hm
  · exact h.of_same (by rw [hm.coords.coord]) (by rw [hm.coords.coord]) (by rw [hm.coords.files])
  · have hco : ∀ d, d ≠ c → s'.coord d = s.coord d :=
      fun d hd => congrArg Link.co (hm.link_ne hd)
    by_cases hct : c = t
    · -- a blocked coordinator reads nothing, and there is no file
      subst hct
      exfalso
      cases hm with
      | declined _ _ hq | transferred _ _ hq _ _ =>
        rw [hp] at hq
        rcases hq with hq | hq <;> cases hq
      | granted _ _ hq _ | assigned _ _ hq | done _ hq _ =>
        rw [hp] at hq
        cases hq
      | dropped _ hq =>
        rw [halive, hp] at hq
        rcases hq with hq | ⟨-, hq | hq⟩ <;> cases hq
      | raised _ _ _ => exact hno (by simp [raiseError, die, State.post, State.setCoord, State.pop])
      | received _ hq hf =>
        cases hp.symm.trans hq
        rw [h.noFile] at hf
        cases hf
      | failed _ => exact hno (by simp [State.post, State.setCoord])
    · by_cases hca : c = a
      · -- who has raised only throws messages away
        subst hca
        cases hm with
        | dropped _ _ =>
          refine ⟨?_, ?_, h.noFile⟩
          · unfold BlockedOn
            rw [hco t (Ne.symm hct)]
            exact h.blocked
          · simp [die, State.setCoord]
        | declined _ ha _ | transferred _ ha _ _ _ | granted _ ha _ _ | assigned _ ha _ | done ha _ _
        | raised _ ha _ | received ha _ _ | failed ha =>
          rw [hdead] at ha
          cases ha
      · refine h.of_same (hco a (Ne.symm hca)) (hco t (Ne.symm hct)) ?_
        cases hm with
        | transferred _ _ _ _ _ => simp [State.sendFile, State.pop, Ne.symm hca]
        | @received src _ _ _ _ _ _ _ =>
          by_cases has : a = src
          · subst has
            simp [Ne.symm hct]
          · simp [has]
        | _ => rfl
  · have hco : ∀ d, d ≠ n → s'.coord d = s.coord d :=
      fun d hd => congrArg Link.co (hm.link_ne hd)
    have htn := Nat.ne_of_lt ht
    by_cases han : a = n
    · subst han
      cases hm with
      | dropped _ =>
        refine ⟨?_, ?_, h.noFile⟩
        · unfold BlockedOn
          rw [hco t htn]
          exact h.blocked
        · simp [die, State.setCoord]
      | started _ ha _ | delivered _ ha _ | raised _ ha | prePartitioned ha _ _ _ | done ha _ _
      | failed ha =>
        rw [hdead] at ha
        cases ha
    · refine h.of_same (hco a han) (hco t htn) ?_
      cases hm with
      | @delivered _ rest outgoing _ _ _ => exact sendFiles_files_ne outgoing 0 (s.pop n rest) han t
      | _ => rfl

theorem Stuck.forever {K K' : Cluster} {ls : List Fault} (h : Stuck K.state a t) (ht : t < n)
    (hr : (calmLts n).Run K ls K') : Stuck K'.state a t := by
  refine hr.keeps (I := fun K => Stuck K.state a t) (fun K l K' h hs => ?_) h
  obtain ⟨hcalm, hs⟩ := hs
  unfold calm at hcalm
  rw [Bool.and_eq_true, List.all_eq_true] at hcalm
  have hno : ∀ c ≤ n, K'.state.toL c ≠ K.state.toL c ++ [.notifyError] := by
    intro c hc hL
    have := hcalm.2 c (List.mem_range.2 (Nat.lt_succ_of_le hc))
    rw [raisesAt_of_step hs hL] at this
    cases this
  cases l with
  | run l =>
    obtain ⟨s', hstep, rfl⟩ := Option.map_eq_some_iff.1 hs
    rw [roundAfter_state] at hno ⊢
    exact h.step ht hstep (hno t (Nat.le_of_lt ht))
  | sendRaise k =>
    obtain ⟨s', hstep, rfl⟩ := Option.map_eq_some_iff.1 hs
    obtain ⟨rest, F, S, -, -, -, rfl⟩ := sendRaise_cases hstep
    refine absurd ?_ (hno n (Nat.le_refl n))
    simp [raiseError, die, State.post, State.setCoord, State.pop]
  | startRaise c | cleanUpRaise c r => cases hcalm.1

end Stuck

/-- Coordinator 0 raises between its `split_succeed` and the `transfer_node`:
coordinator 1 waits for the file for ever, and the barrier for coordinator 1. -/
theorem failing_strands_receiver : ∃ K, (failing 2).Reachable K ∧
    (BlockedOn K.state 0 1 ∧ ¬CanSend 2 K.state 0 1) ∧
      K.state.leader.phase = .stopped .coordinatorError ∧
        ∀ ls K', (calmLts 2).Run K ls K' → ¬AtBarrier K' 1 := by
  obtain ⟨K, hr, hp⟩ := LTS.exists_reachable_of_exec ⟨init 2, fun _ => ⟨.idle, false⟩⟩ (failStep 2)
    [.run .leaderBoot, .run (.coordRead 2 .decline), .run (.isoPre [10]), .run (.leaderRecv 2),
      .run (.coordRead 2 .decline), .run (.coordRead 0 .decline), .run (.coordFile 0),
      .run (.leaderAssign true), .run (.coordRead 0 (.grant 5)), .run (.leaderRecv 0),
      .run (.coordFail 0), .run (.coordRead 1 .decline), .run (.coordRead 0 .decline),
      .run (.leaderRecv 0), .run (.coordRead 0 .decline)]
    (fun K => (K.state.coord 1).alive && (K.state.coord 1).phase == .receiving 0 2 &&
      !(K.state.coord 0).alive && K.state.files 0 1 == [] &&
      K.state.leader.phase == .stopped .coordinatorError) (by decide +kernel)
  simp only [Bool.and_eq_true, beq_iff_eq, Bool.not_eq_true'] at hp
  obtain ⟨⟨⟨⟨ha, hphase⟩, hdead⟩, hfile⟩, hstop⟩ := hp
  have hstuck : Stuck K.state 0 1 := ⟨⟨ha, 2, hphase⟩, hdead, hfile⟩
  refine ⟨K, hr, ⟨hstuck.blocked, hstuck.not_canSend⟩, hstop, fun ls K' hrun hat => ?_⟩
  have := (hstuck.forever (by decide) hrun).blocked.1
  rw [hat.1] at this
  cases this

end AriParti.L4
