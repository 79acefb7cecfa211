import AriParti.L4Cluster.System

/-!
# What a step can do

Inversion of `step`: every enabled step is one of the moves below, with its
guards and the exact successor state. The invariants of the later modules are
proved by cases on these three relations and never unfold the step function.

`LeaderMove.crashed` collects every exception of the leader; what it did
before the exception is left open there, since no invariant needs it.

## Results

* `step_cases`: the inversion lemma.
-/
namespace AriParti.L4
open AriParti.Core AriParti.L3

/-- A step of the distributed coordinator `c`. -/
inductive CoordMove (n c : Nat) (s : State) : Lbl → State → Prop where
  | declined {a : Answer} {t tag : Nat} {rest : List L2C}
      (hm : s.toC c = .requestSplit t tag :: rest) (ha : (s.coord c).alive = true)
      (hp : (s.coord c).phase = .idle ∨ (s.coord c).phase = .solving) :
      CoordMove n c s (.coordRead c a) ((s.pop c rest).post c (.splitFailed t tag))
  | granted {t tag pid : Nat} {rest : List L2C} {F : Folder}
      (hm : s.toC c = .requestSplit t tag :: rest) (ha : (s.coord c).alive = true)
      (hp : (s.coord c).phase = .solving) (hF : (s.coord c).folder = some F) :
      CoordMove n c s (.coordRead c (.grant pid))
        (((s.pop c rest).post c (.splitSucceed t tag (F.task c pid))).setCoord c
          { s.coord c with splitNode := some pid, splits := (s.coord c).splits ++ [F.task c pid] })
  | transferred {a : Answer} {t v pid : Nat} {f : TaskFile} {rest : List L2C} {F : Folder}
      (hm : s.toC c = .transferNode t v f :: rest) (ha : (s.coord c).alive = true)
      (hp : (s.coord c).phase = .idle ∨ (s.coord c).phase = .solving)
      (hs : (s.coord c).splitNode = some pid) (hF : (s.coord c).folder = some F) :
      CoordMove n c s (.coordRead c a) ((s.pop c rest).sendFile c t (F.task c pid) v)
  | assigned {a : Answer} {src v : Nat} {rest : List L2C}
      (hm : s.toC c = .assignNode src v :: rest) (ha : (s.coord c).alive = true)
      (hp : (s.coord c).phase = .idle) :
      CoordMove n c s (.coordRead c a)
        ((s.pop c rest).setCoord c { s.coord c with phase := .receiving src v })
  | dropped {a : Answer} {m : L2C} {rest : List L2C} (hm : s.toC c = m :: rest)
      (ha : (s.coord c).alive = false ∨ m = .terminateCoordinator ∧
        ((s.coord c).phase = .idle ∨ (s.coord c).phase = .solving)) :
      CoordMove n c s (.coordRead c a) (die (s.pop c rest) c m)
  | raised {a : Answer} {m : L2C} {rest : List L2C} (hm : s.toC c = m :: rest)
      (ha : (s.coord c).alive = true)
      (hr : a = .raise ∨ (s.coord c).folder = none ∨
        (∃ t v f, m = .transferNode t v f ∧ (s.coord c).splitNode = none) ∨
        (∃ src v, m = .assignNode src v ∧ (s.coord c).phase = .solving)) :
      CoordMove n c s (.coordRead c a) (raiseError (s.pop c rest) c m)
  | received {src v v' : Nat} {f : TaskFile} {rest : List (TaskFile × Nat)}
      (ha : (s.coord c).alive = true) (hp : (s.coord c).phase = .receiving src v)
      (hf : s.files src c = (f, v') :: rest) :
      CoordMove n c s (.coordFile c)
        { (s.setCoord c (startSolving (s.coord c) .solving f)) with
          files := Function.update s.files src (Function.update (s.files src) c rest)
          received := Function.update s.received v' (s.received v' ++ [⟨c, v, f⟩]) }
  | done {r : NodeStatus} (ha : (s.coord c).alive = true) (hp : (s.coord c).phase = .solving)
      (hr : r = .sat ∨ r = .unsat) :
      CoordMove n c s (.coordDone c r) (solvingRoundDone s c r)
  | failed (ha : (s.coord c).alive = true) :
      CoordMove n c s (.coordFail c)
        ((s.setCoord c { s.coord c with alive := false }).post c .notifyError)

/-- A step of the isolated coordinator. -/
inductive IsoMove (n : Nat) (s : State) : Lbl → State → Prop where
  | started {a : Answer} {rest : List L2C} (hm : s.toC n = .assignIsolated :: rest)
      (ha : (s.coord n).alive = true) (hp : (s.coord n).phase = .boot) :
      IsoMove n s (.coordRead n a)
        ((s.pop n rest).setCoord n (startSolving (s.coord n) .prePartition .input))
  | delivered {a : Answer} {rest : List L2C} {outgoing : List TaskFile}
      (hm : s.toC n = .assignIsolated :: rest) (ha : (s.coord n).alive = true)
      (hp : (s.coord n).phase = .waitLeader outgoing) :
      IsoMove n s (.coordRead n a)
        (((s.pop n rest).sendFiles n 0 outgoing).setCoord n { s.coord n with phase := .solving })
  | dropped {a : Answer} {m : L2C} {rest : List L2C} (hm : s.toC n = m :: rest) :
      IsoMove n s (.coordRead n a) (die (s.pop n rest) n m)
  | raised {a : Answer} {m : L2C} {rest : List L2C} (hm : s.toC n = m :: rest)
      (ha : (s.coord n).alive = true) :
      IsoMove n s (.coordRead n a) (raiseError (s.pop n rest) n m)
  | prePartitioned {pids : List Nat} {F : Folder} (ha : (s.coord n).alive = true)
      (hp : (s.coord n).phase = .prePartition) (hF : (s.coord n).folder = some F)
      (hn : pids.length ≤ n) :
      IsoMove n s (.isoPre pids)
        ((s.post n (.prePartitionDone pids.length (F.outgoing n pids))).setCoord n
          { s.coord n with phase := .waitLeader (F.outgoing n pids) })
  | done {r : NodeStatus} (ha : (s.coord n).alive = true)
      (hp : (s.coord n).phase = .solving ∨ (s.coord n).phase = .prePartition)
      (hr : r = .sat ∨ r = .unsat) :
      IsoMove n s (.coordDone n r) (solvingRoundDone s n r)
  | failed (ha : (s.coord n).alive = true) :
      IsoMove n s (.coordFail n)
        ((s.setCoord n { s.coord n with alive := false }).post n .notifyError)

/-- An exception of the leader, with the state it is raised in. -/
inductive Crash (n : Nat) (s : State) : Lbl → LeaderError → State → Prop where
  | boot {e : LeaderError} {s' : State} (hp : s.leader.phase = .boot)
      (h : leaderBoot n s = .error (e, s')) : Crash n s .leaderBoot e s'
  | prePartition {e : LeaderError} {s' : State} {num : Nat} {files : List TaskFile}
      {rest : List C2L} (hp : s.leader.phase = .waitPrePartition)
      (hm : s.toL n = .prePartitionDone num files :: rest)
      (h : prePartition n (s.popUp n rest) num files = .error (e, s')) :
      Crash n s (.leaderRecv n) e s'
  | split {e : LeaderError} {s' : State} {src t tag : Nat} {f : TaskFile} {rest : List C2L}
      (hp : s.leader.phase = .main) (hsrc : src ≤ n)
      (hm : s.toL src = .splitSucceed t tag f :: rest)
      (h : processSplitSucceed (s.popUp src rest) src t f = .error (e, s')) :
      Crash n s (.leaderRecv src) e s'
  | unassigned {src : Nat} {r : NodeStatus} {rest : List C2L}
      (hp : s.leader.phase = .main) (hsrc : src < n) (hm : s.toL src = .notifyResult r :: rest)
      (hv : (s.leader.coordinators src).assigned = none) :
      Crash n s (.leaderRecv src) .notifyUnassigned (s.popUp src rest)
  | tree {e : LeaderError} {src v : Nat} {r : NodeStatus} {rest : List C2L}
      (hp : s.leader.phase = .main) (hsrc : src < n) (hm : s.toL src = .notifyResult r :: rest)
      (hv : (s.leader.coordinators src).assigned = some v)
      (ht : s.leader.tree.nodePartialSolved v r = .error e) :
      Crash n s (.leaderRecv src) e (s.popUp src rest)
  | unexpectedMain {src num : Nat} {files : List TaskFile} {rest : List C2L}
      (hp : s.leader.phase = .main) (hsrc : src ≤ n)
      (hm : s.toL src = .prePartitionDone num files :: rest) :
      Crash n s (.leaderRecv src) .unexpectedMessage (s.popUp src rest)
  | unexpectedBoot {m : C2L} {rest : List C2L} (hp : s.leader.phase = .waitPrePartition)
      (hm : s.toL n = m :: rest)
      (h : (∃ t tag f, m = .splitSucceed t tag f) ∨ ∃ t tag, m = .splitFailed t tag) :
      Crash n s (.leaderRecv n) .unexpectedMessage (s.popUp n rest)

/-- A step of the leader. -/
inductive LeaderMove (n : Nat) (s : State) : Lbl → State → Prop where
  | booted {s' : State} (hp : s.leader.phase = .boot) (h : leaderBoot n s = .ok s') :
      LeaderMove n s .leaderBoot (setPhase s' .waitPrePartition)
  | prePartitioned {num : Nat} {files : List TaskFile} {rest : List C2L} {s' : State}
      (hp : s.leader.phase = .waitPrePartition)
      (hm : s.toL n = .prePartitionDone num files :: rest)
      (h : prePartition n (s.popUp n rest) num files = .ok s') :
      LeaderMove n s (.leaderRecv n) (setPhase s' .main)
  | splitSucceeded {src t tag : Nat} {f : TaskFile} {rest : List C2L} {s' : State}
      (hp : s.leader.phase = .main) (hsrc : src ≤ n)
      (hm : s.toL src = .splitSucceed t tag f :: rest)
      (h : processSplitSucceed (s.popUp src rest) src t f = .ok s') :
      LeaderMove n s (.leaderRecv src) s'
  | splitFailed {src t tag : Nat} {rest : List C2L}
      (hp : s.leader.phase = .main) (hsrc : src ≤ n)
      (hm : s.toL src = .splitFailed t tag :: rest) :
      LeaderMove n s (.leaderRecv src) (processSplitFailed (s.popUp src rest) src t)
  | notified {src v : Nat} {r : NodeStatus} {rest : List C2L} {t : DistributedTree}
      (hp : s.leader.phase = .main) (hsrc : src < n)
      (hm : s.toL src = .notifyResult r :: rest)
      (hv : (s.leader.coordinators src).assigned = some v)
      (ht : s.leader.tree.nodePartialSolved v r = .ok t) (hd : t.isDone = false) :
      LeaderMove n s (.leaderRecv src) (setCoordinatorIdle ((s.popUp src rest).setTree t) src)
  | queueEmpty {b : Bool} (hp : s.leader.phase = .main) (hi : s.leader.idleCoordinators = []) :
      LeaderMove n s (.leaderAssign b) s
  | requested {b : Bool} {t : Nat} {rest : List Nat} (hp : s.leader.phase = .main)
      (hi : s.leader.idleCoordinators = t :: rest)
      (hs : (s.leader.coordinators s.leader.nextSplitRank).status = .solving) :
      LeaderMove n s (.leaderAssign b)
        (((nextIdle n s rest).setInfo s.leader.nextSplitRank
          { s.leader.coordinators s.leader.nextSplitRank with status := .splitting }).send
          s.leader.nextSplitRank
          (.requestSplit t (s.leader.coordinators s.leader.nextSplitRank).solvingRound))
  | rotated {b : Bool} {t : Nat} {rest : List Nat} (hp : s.leader.phase = .main)
      (hi : s.leader.idleCoordinators = t :: rest) :
      LeaderMove n s (.leaderAssign b)
        ((nextIdle n s rest).pushIdle t)
  | timedOut (hp : s.leader.phase = .main) :
      LeaderMove n s .leaderTimeout (s.stop n .timeout)
  | coordinatorError {src : Nat} {rest : List C2L}
      (hp : s.leader.phase = .main ∨ s.leader.phase = .waitPrePartition)
      (hm : s.toL src = .notifyError :: rest) :
      LeaderMove n s (.leaderRecv src) ((s.popUp src rest).stop n .coordinatorError)
  | verdict {src v : Nat} {r : NodeStatus} {rest : List C2L} {t : DistributedTree}
      (hp : s.leader.phase = .main) (hsrc : src < n)
      (hm : s.toL src = .notifyResult r :: rest)
      (hv : (s.leader.coordinators src).assigned = some v)
      (ht : s.leader.tree.nodePartialSolved v r = .ok t) (hd : t.isDone = true) :
      LeaderMove n s (.leaderRecv src) (finish n ((s.popUp src rest).setTree t))
  | isoVerdict {r : NodeStatus} {rest : List C2L}
      (hp : s.leader.phase = .main ∨ s.leader.phase = .waitPrePartition)
      (hm : s.toL n = .notifyResult r :: rest) :
      LeaderMove n s (.leaderRecv n)
        (finish n ((s.popUp n rest).setTree (s.leader.tree.originalSolved r)))
  | crashed {l : Lbl} {e : LeaderError} {s' : State} (h : Crash n s l e s') :
      LeaderMove n s l (s'.stop n (.leaderError e))

section Cases

variable {n : Nat} {s s' : State}

theorem receive_cases {c : Nat} {a : Answer} {m : L2C} {rest : List L2C}
    (hm : s.toC c = m :: rest) (ha : (s.coord c).alive = true)
    (hp : (s.coord c).phase = .idle ∨ (s.coord c).phase = .solving)
    (h : receiveMessageFromLeader (s.pop c rest) c a m = some s') :
    CoordMove n c s (.coordRead c a) s' := by
  cases m with
  | requestSplit t tag =>
    simp only [receiveMessageFromLeader, Option.some.injEq] at h
    subst h
    unfold processSplitMessage
    simp only
    split
    · exact .declined hm ha hp
    · rename_i hidle
      have hsol : (s.coord c).phase = .solving := hp.resolve_left hidle
      split
      · exact .declined hm ha hp
      · exact .raised hm ha (.inl rfl)
      · split
        · rename_i hF
          exact .raised hm ha (.inr (.inl hF))
        · rename_i F hF
          exact .granted hm ha hsol hF
  | transferNode t v f =>
    simp only [receiveMessageFromLeader, Option.some.injEq] at h
    subst h
    unfold processTransferMessage
    split
    · rename_i pid F hs hF
      exact .transferred hm ha hp hs hF
    · rename_i hnone
      refine .raised hm ha ?_
      cases hs : (s.coord c).splitNode with
      | none => exact .inr (.inr (.inl ⟨t, v, f, rfl, rfl⟩))
      | some pid =>
        cases hF : (s.coord c).folder with
        | none => exact .inr (.inl rfl)
        | some F => exact absurd hF (hnone pid F hs)
  | assignNode src v =>
    simp only [receiveMessageFromLeader, Option.some.injEq] at h
    subst h
    unfold processAssignMessage
    split
    · rename_i hidle
      exact .assigned hm ha hidle
    · rename_i hidle
      exact .raised hm ha (.inr (.inr (.inr ⟨src, v, rfl, hp.resolve_left hidle⟩)))
  | assignIsolated => cases h
  | terminateCoordinator =>
    simp only [receiveMessageFromLeader, Option.some.injEq] at h
    subst h
    exact .dropped hm (.inr ⟨rfl, hp⟩)

theorem isolated_cases {a : Answer} {m : L2C} {rest : List L2C}
    (hm : s.toC n = m :: rest) (ha : (s.coord n).alive = true)
    (h : isolatedReceive n (s.pop n rest) m = some s') : IsoMove n s (.coordRead n a) s' := by
  unfold isolatedReceive at h
  simp only at h
  split at h
  · rename_i hp
    split at h <;> (simp only [Option.some.injEq] at h; subst h)
    · rename_i hb
      subst hb
      exact .started hm ha hp
    · exact .raised hm ha
  · rename_i outgoing hp
    split at h
    · rename_i hb
      subst hb
      simp only [Option.some.injEq] at h
      subst h
      exact .delivered hm ha hp
    · split at h <;> (simp only [Option.some.injEq] at h; subst h)
      · exact .dropped hm
      · exact .raised hm ha
  all_goals first
    | cases h
    | (split at h <;> (simp only [Option.some.injEq] at h; subst h)
       · exact .dropped hm
       · exact .raised hm ha)

theorem coordRead_cases {c : Nat} {a : Answer} (h : coordRead n s c a = some s') :
    if c = n then IsoMove n s (.coordRead c a) s' else CoordMove n c s (.coordRead c a) s' := by
  unfold coordRead at h
  split at h
  · cases h
  · rename_i m rest hm
    simp only at h
    split at h
    · rename_i ha
      split at h
      · rename_i hc
        subst hc
        rw [if_pos rfl]
        exact isolated_cases hm ha h
      · rename_i hc
        rw [if_neg hc]
        split at h
        · rename_i hp
          exact receive_cases hm ha (.inl hp) h
        · rename_i hp
          exact receive_cases hm ha (.inr hp) h
        · cases h
    · rename_i ha
      simp only [Option.some.injEq] at h
      subst h
      split
      · rename_i hc
        subst hc
        exact .dropped hm
      · exact .dropped hm (.inl (by simpa using ha))

theorem coordFile_cases {c : Nat} (h : coordFile s c = some s') :
    CoordMove n c s (.coordFile c) s' := by
  unfold coordFile at h
  split at h
  · rename_i src v ha hp
    split at h
    · cases h
    · rename_i f v' rest hf
      simp only [Option.some.injEq] at h
      subst h
      exact .received ha hp hf
  · cases h

theorem coordDone_cases {c : Nat} {r : NodeStatus} (h : coordDone n s c r = some s') :
    if c = n then IsoMove n s (.coordDone c r) s' else CoordMove n c s (.coordDone c r) s' := by
  unfold coordDone at h
  split at h
  · rename_i hg
    simp only [Bool.and_eq_true, NodeStatus.isSolved_iff, Bool.or_eq_true, beq_iff_eq] at hg
    obtain ⟨⟨ha, hr⟩, hp⟩ := hg
    simp only [Option.some.injEq] at h
    subst h
    split
    · rename_i hc
      subst hc
      exact .done ha (hp.imp_right And.right) hr
    · rename_i hc
      exact .done ha (hp.resolve_right fun h => hc h.1) hr
  · cases h

theorem coordFail_cases {c : Nat} (h : coordFail s c = some s') :
    if c = n then IsoMove n s (.coordFail c) s' else CoordMove n c s (.coordFail c) s' := by
  unfold coordFail at h
  split at h
  · rename_i ha
    simp only [Option.some.injEq] at h
    subst h
    split
    · rename_i hc
      subst hc
      exact .failed ha
    · exact .failed ha
  · cases h

theorem isoPre_cases {pids : List Nat} (h : isoPre n s pids = some s') :
    IsoMove n s (.isoPre pids) s' := by
  unfold isoPre at h
  simp only at h
  split at h
  · rename_i F ha hp hF
    split at h
    · rename_i hn
      simp only [Option.some.injEq] at h
      subst h
      exact .prePartitioned ha hp hF hn
    · cases h
  · cases h

theorem notified_cases {src : Nat} {r : NodeStatus} {rest : List C2L}
    (hp : s.leader.phase = .main) (hsrc : src ≤ n) (hm : s.toL src = .notifyResult r :: rest) :
    LeaderMove n s (.leaderRecv src)
      (afterNotify n (processNotifiedResult n (s.popUp src rest) src r)) := by
  unfold processNotifiedResult
  split
  · rename_i hc
    subst hc
    exact .isoVerdict (.inl hp) hm
  · rename_i hc
    have hlt : src < n := by omega
    split
    · rename_i hv
      exact .crashed (.unassigned hp hlt hm hv)
    · rename_i v hv
      split
      · rename_i e ht
        exact .crashed (.tree hp hlt hm hv ht)
      · rename_i t ht
        simp only
        split
        · rename_i hd
          exact .verdict hp hlt hm hv ht hd
        · rename_i hd
          exact .notified hp hlt hm hv ht (by simpa using hd)

theorem checkCoordinators_cases {src : Nat} {m : C2L} {rest : List C2L}
    (hp : s.leader.phase = .main) (hsrc : src ≤ n) (hm : s.toL src = m :: rest) :
    LeaderMove n s (.leaderRecv src) (checkCoordinators n (s.popUp src rest) src m) := by
  cases m with
  | splitSucceed t tag f =>
    unfold checkCoordinators
    simp only
    cases h : processSplitSucceed (s.popUp src rest) src t f with
    | ok s' => exact .splitSucceeded hp hsrc hm h
    | error es => exact .crashed (.split hp hsrc hm h)
  | splitFailed t tag => exact .splitFailed hp hsrc hm
  | notifyResult r => exact notified_cases hp hsrc hm
  | prePartitionDone num files => exact .crashed (.unexpectedMain hp hsrc hm)
  | notifyError => exact .coordinatorError (.inl hp) hm

theorem initCoordIsolated_cases {m : C2L} {rest : List C2L}
    (hp : s.leader.phase = .waitPrePartition) (hm : s.toL n = m :: rest) :
    LeaderMove n s (.leaderRecv n) (initCoordIsolated n (s.popUp n rest) m) := by
  cases m with
  | splitSucceed t tag f => exact .crashed (.unexpectedBoot hp hm (.inl ⟨t, tag, f, rfl⟩))
  | splitFailed t tag => exact .crashed (.unexpectedBoot hp hm (.inr ⟨t, tag, rfl⟩))
  | notifyResult r =>
    unfold initCoordIsolated
    simp only [processNotifiedResult, if_true]
    exact .isoVerdict (.inr hp) hm
  | prePartitionDone num files =>
    unfold initCoordIsolated
    simp only
    cases h : prePartition n (s.popUp n rest) num files with
    | ok s' => exact .prePartitioned hp hm h
    | error es => exact .crashed (.prePartition hp hm h)
  | notifyError => exact .coordinatorError (.inr hp) hm

theorem assign_cases {b : Bool} (hp : s.leader.phase = .main) :
    LeaderMove n s (.leaderAssign b) (assignNodeToIdleCoordinator n s b) := by
  unfold assignNodeToIdleCoordinator
  split
  · rename_i hi
    exact .queueEmpty hp hi
  · rename_i t rest hi
    simp only
    split
    · rename_i hs
      simp only [Bool.and_eq_true, CoordinatorStatus.isSolving_iff] at hs
      exact .requested hp hi hs.1
    · exact .rotated hp hi

/-- Every step is a move of the leader, of a distributed coordinator or of
the isolated one. -/
theorem step_cases {l : Lbl} (h : step n s l = some s') :
    LeaderMove n s l s' ∨ (∃ c < n, CoordMove n c s l s') ∨ IsoMove n s l s' := by
  have split_rank : ∀ {c : Nat}, c ≤ n →
      (if c = n then IsoMove n s l s' else CoordMove n c s l s') →
      LeaderMove n s l s' ∨ (∃ c < n, CoordMove n c s l s') ∨ IsoMove n s l s' := by
    intro c hc hmove
    split at hmove
    · exact .inr (.inr hmove)
    · exact .inr (.inl ⟨c, by omega, hmove⟩)
  cases l with
  | leaderBoot =>
    simp only [step] at h
    split at h
    · rename_i hp
      simp only [Option.some.injEq] at h
      subst h
      left
      cases hb : leaderBoot n s with
      | ok s₁ => exact .booted hp hb
      | error es => exact .crashed (.boot hp hb)
    · cases h
  | leaderRecv src =>
    simp only [step, leaderRecv] at h
    split at h
    · cases h
    · rename_i m rest hm
      split at h
      · rename_i hp
        split at h <;> simp only [Option.some.injEq, reduceCtorEq] at h
        rename_i hsrc
        exact .inl (h ▸ checkCoordinators_cases hp hsrc hm)
      · rename_i hp
        split at h <;> simp only [Option.some.injEq, reduceCtorEq] at h
        rename_i hsrc
        subst hsrc
        exact .inl (h ▸ initCoordIsolated_cases hp hm)
      · cases h
  | leaderAssign b =>
    simp only [step] at h
    split at h <;> simp only [Option.some.injEq, reduceCtorEq] at h
    rename_i hp
    exact .inl (h ▸ assign_cases hp)
  | leaderTimeout =>
    simp only [step] at h
    split at h <;> simp only [Option.some.injEq, reduceCtorEq] at h
    rename_i hp
    exact .inl (h ▸ .timedOut hp)
  | coordRead c a =>
    simp only [step] at h
    split at h
    · rename_i hc
      exact split_rank hc (coordRead_cases h)
    · cases h
  | coordFile c =>
    simp only [step] at h
    split at h
    · rename_i hc
      exact .inr (.inl ⟨c, hc, coordFile_cases h⟩)
    · cases h
  | coordDone c r =>
    simp only [step] at h
    split at h
    · rename_i hc
      exact split_rank hc (coordDone_cases h)
    · cases h
  | coordFail c =>
    simp only [step] at h
    split at h
    · rename_i hc
      exact split_rank hc (coordFail_cases h)
    · cases h
  | isoPre pids => exact .inr (.inr (isoPre_cases h))

end Cases

end AriParti.L4
