import AriParti.L4Cluster.Requests

/-!
# The leader's split state

In a run without stale refusals the leader's record of a coordinator agrees
with the messages: it is splitting exactly when it has a node and one request
sent since that assignment is unanswered. The four assertions of the leader
then never fail, nor does any other exception arise in it.

## Results

* `fresh`, `freshLts`: the runs without stale refusals.
* `Crash.elim`: no exception of the leader in such a run.
* `synced_inductive`: `LinkInv` for every link, with what it needs.
* `split_state_consistent`: **the split state agrees with the messages, and no
  assertion of the leader fails**.
-/
namespace AriParti.L4
open AriParti.Core AriParti.L3

/-- No stale refusal: a `split_failed` that the leader reads from a coordinator
it has marked splitting answers a request sent since the current assignment. -/
def fresh (s : State) : Lbl → Bool
  | .leaderRecv src =>
    match s.toL src with
    | .splitFailed _ tag :: _ =>
      !(s.leader.coordinators src).status.isSplitting ||
        tag == (s.leader.coordinators src).solvingRound
    | _ => true
  | _ => true

theorem fresh_refused {s : State} {src t tag : Nat} {rest : List C2L}
    (h : fresh s (.leaderRecv src) = true) (hm : s.toL src = .splitFailed t tag :: rest)
    (hs : (s.leader.coordinators src).status = .splitting) :
    tag = (s.leader.coordinators src).solvingRound := by
  have hsp : CoordinatorStatus.splitting.isSplitting = true := rfl
  simpa [fresh, hm, hs, hsp] using h

def freshLts (n : Nat) : LTS State Lbl := (lts n).restrict fun s l => fresh s l = true

/-! ## The isolated coordinator -/

def L2C.isAssignIsolated : L2C → Bool
  | .assignIsolated => true
  | _ => false

/-- How far the isolated coordinator is, by phase of the leader. -/
structure IsoInv (n : Nat) (s : State) : Prop where
  boot : s.leader.phase = .boot → (s.coord n).phase = .boot ∧ s.down n = []
  early : s.leader.phase = .boot ∨ s.leader.phase = .waitPrePartition →
    (s.down n).countP L2C.isAssignIsolated ≤ (if (s.coord n).phase = .boot then 1 else 0) ∧
    (s.toL n).countP C2L.isPrePartition ≤ 1 ∧
    ∀ num fs, C2L.prePartitionDone num fs ∈ s.toL n → (s.coord n).phase = .waitLeader fs ∧
      fs.length = max 1 num ∧ num ≤ n
  late : s.leader.phase = .main → (∀ m ∈ s.toL n, m.isPrePartition = false) ∧
    (s.coord n).phase ≠ .boot ∧ (s.coord n).phase ≠ .prePartition

theorem IsoInv.of_stopped {n : Nat} {s : State} {o : Outcome}
    (hp : s.leader.phase = .stopped o) : IsoInv n s := by
  constructor <;> intro hp' <;> simp_all

/-- What the isolated coordinator's own move does to its link. -/
theorem IsoMove.link {n : Nat} {s s' : State} {l : Lbl} (h : IsoMove n s l s') (hD : Drained s) :
    (∃ rest, s.down n = .assignIsolated :: rest ∧ s'.down n = rest ∧ s'.toL n = s.toL n ∧
      (((s.coord n).phase = .boot ∧ (s'.coord n).phase = .prePartition) ∨
        ((∃ fs, (s.coord n).phase = .waitLeader fs) ∧ (s'.coord n).phase = .solving))) ∨
    (s'.down n = s.down n ∧ (s'.coord n).phase = (s.coord n).phase ∧
      (s'.toL n = s.toL n ∨ s'.toL n = s.toL n ++ [.notifyError])) ∨
    (∃ num fs, s'.down n = s.down n ∧ (s.coord n).phase = .prePartition ∧
      (s'.coord n).phase = .waitLeader fs ∧ fs.length = max 1 num ∧ num ≤ n ∧
      s'.toL n = s.toL n ++ [.prePartitionDone num fs]) ∨
    (∃ r, s'.down n = s.down n ∧ ((s.coord n).phase = .solving ∨ (s.coord n).phase = .prePartition) ∧
      (s'.coord n).phase = .idle ∧ s'.toL n = s.toL n ++ [.notifyResult r]) := by
  cases h with
  | @started a rest hm ha hp =>
    refine .inl ⟨rest, by rw [hD.down ha, hm], ?_, rfl, .inl ⟨hp, ?_⟩⟩
    · simp [State.down, State.pop, State.setCoord, startSolving, hD n ha]
    · simp [State.setCoord, startSolving]
  | @delivered a rest fs hm ha hp =>
    obtain ⟨-, -, hC, hL, -⟩ := sendFiles_same n fs 0 (s.pop n rest)
    refine .inl ⟨rest, by rw [hD.down ha, hm], ?_, ?_, .inr ⟨⟨fs, hp⟩, ?_⟩⟩
    · have hcn := congrFun hC n
      simp only [State.pop, Function.update_self] at hcn
      simp [State.down, State.setCoord, hD n ha, State.pop, hcn]
    · exact congrFun hL n
    · simp [State.setCoord]
  | dropped hm =>
    refine .inr (.inl ⟨?_, ?_, .inl rfl⟩) <;> simp [State.down, State.pop, die, State.setCoord, hm]
  | raised hm ha =>
    refine .inr (.inl ⟨?_, ?_, .inr ?_⟩) <;>
      simp [State.down, State.pop, die, raiseError, State.post, State.setCoord, hm]
  | @prePartitioned pids F ha hp hF hn =>
    refine .inr (.inr (.inl ⟨pids.length, F.outgoing n pids, ?_, hp, ?_, F.outgoing_length n pids,
      hn, ?_⟩)) <;> simp [State.down, State.post, State.setCoord]
  | @done r ha hp hr =>
    refine .inr (.inr (.inr ⟨r, ?_, hp, ?_, ?_⟩)) <;>
      simp [State.down, solvingRoundDone, State.post, State.setCoord]
  | failed ha =>
    refine .inr (.inl ⟨?_, ?_, .inr ?_⟩) <;> simp [State.down, State.post, State.setCoord]

theorem IsoMove.iso {n : Nat} {s s' : State} {l : Lbl} (h : IsoMove n s l s') (hD : Drained s)
    (hI : IsoInv n s) : IsoInv n s' := by
  have hleader := h.leader
  rcases h.link hD with ⟨rest, hd, hd', hu, hph⟩ | ⟨hd, hph, hu⟩ | ⟨num, fs, hd, hp, hp', hlen, hn, hu⟩ |
    ⟨r, hd, hp, hp', hu⟩
  · have hcount : (s.down n).countP L2C.isAssignIsolated =
        (s'.down n).countP L2C.isAssignIsolated + 1 := by
      rw [hd, hd']
      exact List.countP_cons_of_pos rfl
    refine ⟨fun hb => ?_, fun he => ?_, fun hl => ?_⟩
    · rw [hleader] at hb
      rw [(hI.boot hb).2] at hd
      cases hd
    · rw [hleader] at he
      obtain ⟨h1, h2, h3⟩ := hI.early he
      rcases hph with ⟨hp, hp'⟩ | ⟨⟨fs, hp⟩, hp'⟩
      · rw [hp, if_pos rfl] at h1
        rw [hp', hu, if_neg nofun]
        refine ⟨by omega, h2, fun num fs hin => ?_⟩
        have := (h3 num fs hin).1
        rw [hp] at this
        cases this
      · rw [hp, if_neg nofun] at h1
        omega
    · rw [hleader] at hl
      obtain ⟨h1, h2, h3⟩ := hI.late hl
      rw [hu]
      rcases hph with ⟨hp, hp'⟩ | ⟨⟨fs, hp⟩, hp'⟩
      · exact absurd hp h2
      · exact ⟨h1, by rw [hp']; nofun, by rw [hp']; nofun⟩
  · have hmem : ∀ m, m ∈ s'.toL n → m ∈ s.toL n ∨ m = .notifyError := by
      intro m hm
      rcases hu with hu | hu <;> rw [hu] at hm
      · exact .inl hm
      · exact (List.mem_append.1 hm).imp_right List.mem_singleton.1
    refine ⟨?_, ?_, ?_⟩
    · rw [hleader, hd, hph]; exact hI.boot
    · rw [hleader, hd, hph]
      intro he
      obtain ⟨h1, h2, h3⟩ := hI.early he
      refine ⟨h1, ?_, fun num fs hin => h3 num fs ((hmem _ hin).resolve_right nofun)⟩
      rcases hu with hu | hu <;> rw [hu]
      · exact h2
      · simpa [List.countP_append, C2L.isPrePartition] using h2
    · rw [hleader, hph]
      intro hl
      obtain ⟨h1, h2⟩ := hI.late hl
      refine ⟨fun m hm => ?_, h2⟩
      rcases hmem m hm with hm | rfl
      · exact h1 m hm
      · rfl
  · refine ⟨fun hb => ?_, fun he => ?_, fun hl => ?_⟩
    · rw [hleader] at hb
      rw [(hI.boot hb).1] at hp
      cases hp
    · rw [hleader] at he
      obtain ⟨h1, -, h3⟩ := hI.early he
      have hno : (s.toL n).countP C2L.isPrePartition = 0 := by
        refine List.countP_eq_zero.2 fun m hm hpp => ?_
        cases m with
        | prePartitionDone num fs =>
          have := (h3 num fs hm).1
          rw [hp] at this
          cases this
        | _ => cases hpp
      rw [hd, hp', hu]
      rw [hp] at h1
      refine ⟨by simpa using h1, by simp [List.countP_append, hno, C2L.isPrePartition],
        fun num' fs' hin => ?_⟩
      rcases List.mem_append.1 hin with hin | hin
      · have := List.countP_eq_zero.1 hno _ hin
        exact absurd rfl this
      · cases List.mem_singleton.1 hin
        exact ⟨rfl, hlen, hn⟩
    · rw [hleader] at hl
      exact absurd hp (hI.late hl).2.2
  · refine ⟨fun hb => ?_, fun he => ?_, fun hl => ?_⟩
    · rw [hleader] at hb
      rw [(hI.boot hb).1] at hp
      rcases hp with hp | hp <;> cases hp
    · rw [hleader] at he
      obtain ⟨h1, h2, h3⟩ := hI.early he
      rw [hd, hp', hu]
      refine ⟨?_, by simpa [List.countP_append, C2L.isPrePartition] using h2,
        fun num fs hin => ?_⟩
      · rcases hp with hp | hp <;> (rw [hp] at h1; simpa using h1)
      · rcases List.mem_append.1 hin with hin | hin
        · have := (h3 num fs hin).1
          rcases hp with hp | hp <;> (rw [hp] at this; cases this)
        · cases List.mem_singleton.1 hin
    · rw [hleader] at hl
      rw [hp', hu]
      refine ⟨fun m hm => ?_, nofun, nofun⟩
      rcases List.mem_append.1 hm with hm | hm
      · exact (hI.late hl).1 m hm
      · rw [List.mem_singleton.1 hm]; rfl

theorem CoordMove.iso {n c : Nat} {s s' : State} {l : Lbl} (h : CoordMove n c s l s') (hc : c < n)
    (hI : IsoInv n s) : IsoInv n s' := by
  have hl := h.link_ne (d := n) (Nat.ne_of_gt hc)
  have hco := congrArg Link.co hl
  have hdown := congrArg Link.down hl
  have hup := congrArg Link.up hl
  simp only [link_co, link_down, link_up] at hco hdown hup
  constructor
  · rw [h.leader, hco, hdown]; exact hI.boot
  · rw [h.leader, hco, hdown, hup]; exact hI.early
  · rw [h.leader, hco, hup]; exact hI.late

theorem isoInv_init (n : Nat) : IsoInv n (init n) := by
  refine ⟨fun _ => ⟨by simp [init, initCoord], rfl⟩, fun _ => ⟨?_, ?_, ?_⟩, nofun⟩
  · simp [State.down, init, initCoord]
  · simp [init]
  · exact fun num fs hm => (List.not_mem_nil hm).elim

theorem LeaderMove.iso {n : Nat} {s s' : State} {l : Lbl} (h : LeaderMove n s l s')
    (hI : IsoInv n s) : IsoInv n s' := by
  have hmem : ∀ m, m ∈ s'.toL n → m ∈ s.toL n := fun m hm => h.coords.mem hm
  have hco := h.coords.coord
  have main : s.leader.phase = .main → s'.leader.phase = .main → IsoInv n s' := by
    intro hp hp'
    obtain ⟨h1, h2, h3⟩ := hI.late hp
    refine ⟨fun hb => ?_, fun he => ?_, fun _ => ⟨fun m hm => h1 m (hmem m hm), ?_, ?_⟩⟩
    · rw [hp'] at hb; cases hb
    · rw [hp'] at he; rcases he with he | he <;> cases he
    · rw [hco]; exact h2
    · rw [hco]; exact h3
  cases h with
  | booted hp h =>
    obtain ⟨hph, hd⟩ := hI.boot hp
    obtain ⟨-, h2, h3⟩ := hI.early (.inl hp)
    have hs' := leaderBoot_ok h
    subst hs'
    refine ⟨by simp [setPhase], fun _ => ⟨?_, h2, h3⟩, by simp [setPhase]⟩
    have hd' : (setPhase (((s.send n .assignIsolated).setTree (s.leader.tree.assignRootNode n
        .input)).setInfo n ⟨.solving, some s.leader.tree.size,
          (s.leader.coordinators n).solvingRound + 1, 0⟩) .waitPrePartition).down n =
        s.down n ++ [.assignIsolated] := by
      simp [State.down, setPhase, State.setInfo, State.setTree, State.send]
    have hph' : (setPhase (((s.send n .assignIsolated).setTree (s.leader.tree.assignRootNode n
        .input)).setInfo n ⟨.solving, some s.leader.tree.size,
          (s.leader.coordinators n).solvingRound + 1, 0⟩) .waitPrePartition).coord n =
        s.coord n := rfl
    rw [hd', hd, hph', hph]
    decide
  | @prePartitioned num files rest s₁ hp hm h =>
    obtain ⟨-, h2, h3⟩ := hI.early (.inr hp)
    have hmem' : C2L.prePartitionDone num files ∈ s.toL n := by rw [hm]; exact List.mem_cons_self
    have hph := (h3 num files hmem').1
    have hsame := prePartition_same (n := n) (s.popUp n rest) num files
    rw [h] at hsame
    refine ⟨by simp [setPhase], fun he => (by rcases he with he | he <;> cases he), fun _ => ⟨?_, ?_, ?_⟩⟩
    · intro m hmr
      have htoL : (setPhase s₁ .main).toL n = rest := by
        have : s₁.toL n = (s.popUp n rest).toL n := congrFun hsame.toL n
        simpa [setPhase, State.popUp] using this
      rw [htoL] at hmr
      rw [hm] at h2
      have hz : rest.countP C2L.isPrePartition = 0 := by
        have := List.countP_cons_of_pos (p := C2L.isPrePartition) (l := rest)
          (a := .prePartitionDone num files) rfl
        omega
      simpa using List.countP_eq_zero.1 hz m hmr
    · simp [hco, hph]
    · simp [hco, hph]
  | splitSucceeded hp hsrc hm h =>
    refine main hp ?_
    obtain ⟨-, -, -, p, -, hs'⟩ := processSplitSucceed_ok h
    rw [hs']
    exact hp
  | splitFailed hp hsrc hm =>
    refine main hp ?_
    rw [processSplitFailed]
    split <;> exact hp
  | notified hp hsrc hm hv ht hd => exact main hp hp
  | queueEmpty hp hi => exact hI
  | requested hp hi hs => exact main hp hp
  | rotated hp hi => exact main hp hp
  | timedOut hp => exact .of_stopped (stop_phase n _ _)
  | coordinatorError hp hm => exact .of_stopped (stop_phase n _ _)
  | verdict hp hsrc hm hv ht hd => exact .of_stopped (stop_phase n _ _)
  | isoVerdict hp hm => exact .of_stopped (stop_phase n _ _)
  | crashed h => exact .of_stopped (stop_phase n _ _)

/-- The leader moves only until it has stopped. -/
theorem LeaderMove.running {n : Nat} {s s' : State} {l : Lbl} (h : LeaderMove n s l s') (o : Outcome) :
    s.leader.phase ≠ .stopped o := by
  intro ho
  cases h
  case crashed h => cases h <;> simp_all
  all_goals simp_all

/-! ## All of it together -/

structure Synced (n : Nat) (s : State) : Prop where
  base : Base n s
  roster : RosterInv n s
  iso : IsoInv n s
  links : ∀ c < n, LinkInv (s.link c)
  tree : s.leader.phase = .waitPrePartition ∨ s.leader.phase = .main → s.leader.tree.WF
  noError : ∀ e, s.leader.phase ≠ .stopped (.leaderError e)
  /-- Nobody is terminated before the leader stops. -/
  live : (∀ o, s.leader.phase ≠ .stopped o) → ∀ c < n, L2C.terminateCoordinator ∉ s.down c

section Synced

variable {n : Nat} {s s' : State} {l : Lbl}

theorem Synced.isoReply (hS : Synced n s) {src : Nat} {m : C2L} {rest : List C2L} (hsrc : src ≤ n)
    (hm : s.toL src = m :: rest) (hr : m.isSplitReply = true) : src < n := by
  refine Nat.lt_of_le_of_ne hsrc fun heq => ?_
  have := hS.base.isoUp m (by rw [← heq, hm]; exact List.mem_cons_self)
  rw [hr] at this
  cases this

/-- The target of an unread answer is a distributed coordinator without a
node. -/
theorem Synced.target (hS : Synced n s) (hp : s.leader.phase = .main) {src t : Nat} {m : C2L}
    {rest : List C2L} (hsrc : src < n) (hm : s.toL src = m :: rest) (ha : m.answersFor t = true) :
    t < n ∧ (s.leader.coordinators t).assigned = none :=
  (hS.roster.main hp).target hsrc hm ha

/-- When the leader reads `split_succeed`, the giver is marked splitting and the
target is idle. -/
theorem Synced.accept (hS : Synced n s) (hp : s.leader.phase = .main) {src t tag : Nat}
    {f : TaskFile} {rest : List C2L} (hsrc : src ≤ n)
    (hm : s.toL src = .splitSucceed t tag f :: rest) :
    src < n ∧ t < n ∧ src ≠ t ∧ (∃ p, (s.leader.coordinators src).assigned = some p) ∧
      (s.leader.coordinators src).status = .splitting ∧
      (s.leader.coordinators t).status = .idle ∧ (s.leader.coordinators t).assigned = none := by
  have hlt := hS.isoReply hsrc hm rfl
  obtain ⟨ht, hnone⟩ := hS.target hp hlt hm (t := t) (by simp [C2L.answersFor])
  have hL := hS.links src hlt
  have hmem : C2L.splitSucceed t tag f ∈ (s.link src).up := by
    rw [link_up, hm]; exact List.mem_cons_self
  have hne := hL.succeed_assigned hmem
  have htag := (hL.succeed t tag f hmem).1
  have hsp := (hL.answered hm (by simp [C2L.answersIn, htag]) hne).1
  obtain ⟨p, hpp⟩ := Option.ne_none_iff_exists'.1 hne
  refine ⟨hlt, ht, ?_, ⟨p, hpp⟩, hsp, ((hS.links t ht).idleIff).2 hnone, hnone⟩
  rintro rfl
  exact hne hnone

/-- When the leader reads a result of a distributed coordinator, that
coordinator has a node whose part is open. -/
theorem Synced.notify (hS : Synced n s) (hp : s.leader.phase = .main) {src : Nat} {r : NodeStatus}
    {rest : List C2L} (hsrc : src < n) (hm : s.toL src = .notifyResult r :: rest) :
    (r = .sat ∨ r = .unsat) ∧ ∃ v, (s.leader.coordinators src).assigned = some v ∧
      v < s.leader.tree.size ∧ (s.leader.tree.node v).partialStatus = .unsolved := by
  have hL := hS.links src hsrc
  have hmem : C2L.notifyResult r ∈ (s.link src).up := by
    rw [link_up, hm]; exact List.mem_cons_self
  refine ⟨hL.solved r hmem, ?_⟩
  have hpos : 0 < (s.link src).up.countP C2L.isNotify :=
    List.countP_pos_iff.2 ⟨_, hmem, rfl⟩
  cases hv : (s.leader.coordinators src).assigned with
  | none =>
    have := (hL.unassigned hv).2.2
    omega
  | some v =>
    obtain ⟨-, h2, -, h4⟩ := (hS.roster.main hp).node src hsrc v hv
    exact ⟨v, rfl, h2, h4⟩

/-- The leader raises nothing. -/
theorem Crash.elim {e : LeaderError} (h : Crash n s l e s') (hS : Synced n s) : False := by
  cases h with
  | boot hp h =>
    have hinfo := (hS.roster.boot hp).2
    simp [leaderBoot, State.send, State.setTree, hinfo, initInfo, CoordinatorInfo.assignNode] at h
  | prePartition hp hm h =>
    obtain ⟨htree, hiso⟩ := hS.roster.wait hp
    obtain ⟨hq, -⟩ := hS.roster.quiet (.inr hp)
    obtain ⟨s₁, t, -, -, -, hok⟩ := prePartition_start _ _ _ hq htree hiso
    rw [hok] at h
    cases h
  | @split _ _ src t tag f rest hp hsrc hm h =>
    obtain ⟨-, -, hne, ⟨p, hpp⟩, hsp, hidle, -⟩ := hS.accept hp hsrc hm
    obtain ⟨s₁, hok⟩ := processSplitSucceed_isOk (s := s.popUp src rest) (f := f) hne hpp hidle hsp
    rw [hok] at h
    cases h
  | unassigned hp hsrc hm hv =>
    obtain ⟨-, v, hv', -⟩ := hS.notify hp hsrc hm
    rw [hv] at hv'
    cases hv'
  | tree hp hsrc hm hv ht =>
    obtain ⟨hr, v, hv', hlt, hpart⟩ := hS.notify hp hsrc hm
    rw [hv] at hv'
    cases hv'
    obtain ⟨t', ht', -⟩ := DistributedTree.nodePartialSolved_ok (hS.tree (.inr hp)) hlt hpart hr
    rw [ht'] at ht
    cases ht
  | @unexpectedMain src num files rest hp hsrc hm =>
    have hmem : C2L.prePartitionDone num files ∈ s.toL src := by rw [hm]; exact List.mem_cons_self
    rcases Nat.lt_or_eq_of_le hsrc with hlt | rfl
    · cases hS.base.distUp src hlt _ hmem
    · cases (hS.iso.late hp).1 _ hmem
  | @unexpectedBoot m rest hp hm h =>
    have hmem : m ∈ s.toL n := by rw [hm]; exact List.mem_cons_self
    have := hS.base.isoUp m hmem
    rcases h with ⟨t, tag, f, rfl⟩ | ⟨t, tag, rfl⟩ <;> cases this

/-- What a move of the leader does to the link of a distributed coordinator. -/
theorem LeaderMove.link (h : LeaderMove n s l s') (hS : Synced n s) (hF : fresh s l = true)
    {c : Nat} (hc : c < n) :
    LeaderStep (∃ o, s'.leader.phase = .stopped o) (s.link c) (s'.link c) := by
  have hcn : c ≠ n := Nat.ne_of_lt hc
  cases h with
  | @booted s₁ hp h =>
    have heq : (setPhase s₁ .waitPrePartition).link c = s.link c := by
      rw [leaderBoot_ok h, link_setPhase, link_setInfo, Function.update_of_ne hcn, link_setTree,
        link_send, Function.update_of_ne hcn]
    rw [heq]
    exact .same
  | @prePartitioned num files rest s₁ hp hm h =>
    obtain ⟨htree, hiso⟩ := hS.roster.wait hp
    obtain ⟨hq, -⟩ := hS.roster.quiet (.inr hp)
    obtain ⟨s₂, t, hl, -, -, hok⟩ := prePartition_start num files rest hq htree hiso
    rw [hok] at h
    cases h
    have hinfo : s.leader.coordinators c = initInfo := (hq c hc).info
    have hco : s₂.coord c = s.coord c := congrFun hl.same.coord c
    have hup : s₂.toL c = s.toL c := by
      rw [hl.same.toL]; simp [State.send, State.popUp, hcn]
    have htoC : ((s.popUp n rest).send n .assignIsolated).toC c = s.toC c := by
      simp [State.send, State.popUp, hcn]
    by_cases hk : c < (if num = 0 then 1 else num)
    · obtain ⟨h1, h2⟩ := hl.given c hc hc hk
      have heq : (setPhase (s₂.setTree t) .main).link c = { s.link c with
          info := ⟨.solving, some (c + 1), (s.link c).info.solvingRound + 1, 0⟩
          down := (s.link c).down ++ [.assignNode n (c + 1)] } := by
        rw [htoC] at h2
        simp [State.link, State.down, setPhase, State.setTree, h1, h2, hco, hup, hinfo, initInfo]
      rw [heq]
      exact .assigned (by rw [link_info, hinfo]; rfl)
    · obtain ⟨h1, h2⟩ := hl.kept c hc (by omega)
      have heq : (setPhase (s₂.setTree t) .main).link c = s.link c := by
        rw [htoC] at h2
        simp only [State.send, State.popUp] at h1
        simp [State.link, State.down, setPhase, State.setTree, h1, h2, hco, hup]
      rw [heq]
      exact .same
  | @splitSucceeded src t tag f rest _ hp hsrc hm h =>
    obtain ⟨-, -, hst, -, hsp, -, hnone⟩ := hS.accept hp hsrc hm
    obtain ⟨-, -, -, p, -, hs'⟩ := processSplitSucceed_ok h
    simp only [State.popUp] at hs'
    by_cases hcs : c = src
    · subst hcs
      have heq : s'.link c = { s.link c with
          info := { (s.link c).info with
            status := .solving, splitCount := (s.link c).info.splitCount + 1 }
          down := (s.link c).down ++ [.transferNode t s.leader.tree.size f], up := rest } := by
        simp [hs', State.link, State.down, State.setInfo, State.setTree, State.send, hst]
      rw [heq]
      exact .accepted hm hsp (hS.live (by simp [hp]) c hc)
    · by_cases hct : c = t
      · subst hct
        have heq : s'.link c = { s.link c with
            info := ⟨.solving, some s.leader.tree.size, (s.link c).info.solvingRound + 1, 0⟩
            down := (s.link c).down ++ [.assignNode src s.leader.tree.size] } := by
          simp [hs', State.link, State.down, State.setInfo, State.setTree, State.send, hcs]
        rw [heq]
        exact .assigned hnone
      · have heq : s'.link c = s.link c := by
          simp [hs', State.link, State.down, State.setInfo, State.setTree, State.send, hcs, hct]
        rw [heq]
        exact .same
  | @splitFailed src t tag rest hp hsrc hm =>
    by_cases hcs : c = src
    · subst hcs
      have heq : (processSplitFailed (s.popUp c rest) c t).link c = { s.link c with
          info := if (s.link c).info.status = .splitting then
            { (s.link c).info with status := .solving } else (s.link c).info
          up := rest } := by
        by_cases hsp : (s.leader.coordinators c).status = .splitting <;>
          simp [processSplitFailed, State.link, State.down, State.popUp, State.pushIdle,
            State.setInfo, hsp]
      rw [heq]
      exact .refused hm (fresh_refused hF hm)
    · have heq : (processSplitFailed (s.popUp src rest) src t).link c = s.link c := by
        by_cases hsp : (s.leader.coordinators src).status = .splitting <;>
          simp [processSplitFailed, State.link, State.down, State.popUp, State.pushIdle,
            State.setInfo, hsp, hcs]
      rw [heq]
      exact .same
  | @notified src v r rest t hp hsrc hm hv ht hd =>
    by_cases hcs : c = src
    · subst hcs
      have heq : (setCoordinatorIdle ((s.popUp c rest).setTree t) c).link c = { s.link c with
          info := (s.link c).info.nodeSolved, up := rest } := by
        simp [setCoordinatorIdle, State.link, State.down, State.popUp, State.pushIdle,
          State.setInfo, State.setTree]
      rw [heq]
      exact .solved hm
    · have heq : (setCoordinatorIdle ((s.popUp src rest).setTree t) src).link c = s.link c := by
        simp [setCoordinatorIdle, State.link, State.down, State.popUp, State.pushIdle,
          State.setInfo, State.setTree, hcs]
      rw [heq]
      exact .same
  | queueEmpty hp hi => exact .same
  | @requested b t rest hp hi hs =>
    by_cases hcr : c = s.leader.nextSplitRank
    · rw [← hcr] at hs ⊢
      have heq : (((nextIdle n s rest).setInfo c
          { s.leader.coordinators c with status := .splitting }).send c
            (.requestSplit t (s.leader.coordinators c).solvingRound)).link c = { s.link c with
          info := { (s.link c).info with status := .splitting }
          down := (s.link c).down ++ [.requestSplit t (s.link c).info.solvingRound] } := by
        simp [State.link, State.down, State.setInfo, State.send, nextIdle]
      rw [heq]
      exact .requested hs
    · have heq : (((nextIdle n s rest).setInfo s.leader.nextSplitRank
          { s.leader.coordinators s.leader.nextSplitRank with status := .splitting }).send
            s.leader.nextSplitRank (.requestSplit t
              (s.leader.coordinators s.leader.nextSplitRank).solvingRound)).link c = s.link c := by
        simp [State.link, State.down, State.setInfo, State.send, nextIdle, hcr]
      rw [heq]
      exact .same
  | rotated hp hi => exact .same
  | timedOut hp =>
    rw [link_stop n s _ (Nat.le_of_lt hc)]
    exact .stopped ⟨_, stop_phase n _ _⟩ (.inl rfl)
  | @coordinatorError src rest hp hm =>
    have hh : ∃ o, ((s.popUp src rest).stop n .coordinatorError).leader.phase = .stopped o :=
      ⟨_, stop_phase n _ _⟩
    rw [link_stop n _ _ (Nat.le_of_lt hc)]
    by_cases hcs : c = src
    · subst hcs
      have := LeaderStep.stopped (l := s.link c) hh (.inr (.inl hm))
      simpa [link_popUp] using this
    · have := LeaderStep.stopped (l := s.link c) hh (.inl rfl)
      simpa [link_popUp, hcs] using this
  | @verdict src v r rest t hp hsrc hm hv ht hd =>
    have hh : ∃ o, (finish n ((s.popUp src rest).setTree t)).leader.phase = .stopped o :=
      ⟨_, stop_phase n _ _⟩
    rw [finish, link_stop n _ _ (Nat.le_of_lt hc)]
    by_cases hcs : c = src
    · subst hcs
      have := LeaderStep.stopped (l := s.link c) hh (.inr (.inr ⟨r, hm⟩))
      simpa [link_popUp, finish] using this
    · have := LeaderStep.stopped (l := s.link c) hh (.inl rfl)
      simpa [link_popUp, finish, hcs] using this
  | @isoVerdict r rest hp hm =>
    have hh : ∃ o, (finish n ((s.popUp n rest).setTree
        (s.leader.tree.originalSolved r))).leader.phase = .stopped o := ⟨_, stop_phase n _ _⟩
    rw [finish, link_stop n _ _ (Nat.le_of_lt hc)]
    have := LeaderStep.stopped (l := s.link c) hh (.inl rfl)
    simpa [link_popUp, finish, hcn] using this
  | crashed h => exact (h.elim hS).elim

/-- The tree stays well-formed while the leader runs. -/
theorem LeaderMove.tree (h : LeaderMove n s l s') (hS : Synced n s)
    (hp' : s'.leader.phase = .waitPrePartition ∨ s'.leader.phase = .main) : s'.leader.tree.WF := by
  cases h with
  | @booted s₁ hp h =>
    have : (setPhase s₁ .waitPrePartition).leader.tree =
        DistributedTree.empty.assignRootNode n .input := by
      rw [leaderBoot_ok h, ← (hS.roster.boot hp).1]; rfl
    rw [this]
    exact DistributedTree.wf_assignRootNode n .input
  | prePartitioned hp hm h =>
    obtain ⟨htree, hiso⟩ := hS.roster.wait hp
    obtain ⟨hq, -⟩ := hS.roster.quiet (.inr hp)
    obtain ⟨s₂, t, -, -, hwf, hok⟩ := prePartition_start _ _ _ hq htree hiso
    rw [hok] at h
    cases h
    exact hwf
  | @splitSucceeded src t tag f rest _ hp hsrc hm h =>
    obtain ⟨hlt, -⟩ := hS.accept hp hsrc hm
    obtain ⟨-, -, -, p, hpp, hs'⟩ := processSplitSucceed_ok h
    have hwf := hS.tree (.inr hp)
    obtain ⟨-, h2, -, h4⟩ := (hS.roster.main hp).node src hlt p hpp
    rw [hs']
    refine hwf.splitNode h2 (fun hu => ?_) t f
    have := (hwf.unsat p hu).1
    rw [h4] at this
    cases this
  | splitFailed hp hsrc hm =>
    rw [processSplitFailed]
    split <;> exact hS.tree (.inr hp)
  | notified hp hsrc hm hv ht hd =>
    obtain ⟨hr, v, hv', hlt, hpart⟩ := hS.notify hp hsrc hm
    rw [hv] at hv'
    cases hv'
    obtain ⟨t', ht', hwf⟩ := DistributedTree.nodePartialSolved_ok (hS.tree (.inr hp)) hlt hpart hr
    rw [ht] at ht'
    cases ht'
    exact hwf
  | queueEmpty hp hi => exact hS.tree (.inr hp)
  | requested hp hi hs => exact hS.tree (.inr hp)
  | rotated hp hi => exact hS.tree (.inr hp)
  | timedOut hp => simp at hp'
  | coordinatorError hp hm => simp at hp'
  | verdict hp hsrc hm hv ht hd => simp [finish] at hp'
  | isoVerdict hp hm => simp [finish] at hp'
  | crashed h => simp at hp'

theorem LeaderMove.noError (h : LeaderMove n s l s') (hS : Synced n s) (e : LeaderError) :
    s'.leader.phase ≠ .stopped (.leaderError e) := by
  cases h with
  | booted hp h => nofun
  | prePartitioned hp hm h => nofun
  | splitSucceeded hp hsrc hm h =>
    obtain ⟨-, -, -, p, -, hs'⟩ := processSplitSucceed_ok h
    rw [hs']
    simp [State.setInfo, State.setTree, State.send, State.popUp, hp]
  | splitFailed hp hsrc hm =>
    rw [processSplitFailed]
    split <;> simp [State.setInfo, State.pushIdle, State.popUp, hp]
  | notified hp hsrc hm hv ht hd =>
    simp [setCoordinatorIdle, State.setInfo, State.pushIdle, State.setTree, State.popUp, hp]
  | queueEmpty hp hi => exact hS.noError e
  | requested hp hi hs => simp [State.setInfo, State.send, nextIdle, hp]
  | rotated hp hi => simp [State.pushIdle, nextIdle, hp]
  | timedOut hp => simp
  | coordinatorError hp hm => simp
  | verdict hp hsrc hm hv ht hd => simp [finish]
  | isoVerdict hp hm => simp [finish]
  | crashed h => exact (h.elim hS).elim

theorem LeaderStep.terminate {halt : Prop} {l l' : Link} (h : LeaderStep halt l l')
    (hm : L2C.terminateCoordinator ∈ l'.down) : L2C.terminateCoordinator ∈ l.down ∨ halt := by
  cases h with
  | same | refused _ _ | solved _ => exact .inl hm
  | requested _ | assigned _ | accepted _ _ _ =>
    exact .inl ((List.mem_append.1 hm).resolve_right fun h => by cases List.mem_singleton.1 h)
  | stopped hh _ => exact .inr hh

theorem CoordStep.down {c : Nat} {l l' : Link} (h : CoordStep c l l') {m : L2C} (hm : m ∈ l'.down) :
    m ∈ l.down := by
  cases h with
  | declined hd _ | granted hd _ _ | transferred hd _ | assigned hd _ =>
    rw [hd]; exact List.mem_cons_of_mem _ hm
  | died _ | received _ | done _ _ => exact hm

theorem LeaderMove.live (h : LeaderMove n s l s') (hS : Synced n s) (hF : fresh s l = true)
    (hp : ∀ o, s'.leader.phase ≠ .stopped o) {c : Nat} (hc : c < n) :
    L2C.terminateCoordinator ∉ s'.down c := by
  intro hm
  have hrun : ∀ o, s.leader.phase ≠ .stopped o := h.running
  rcases (h.link hS hF hc).terminate hm with hm | ⟨o, ho⟩
  · exact hS.live hrun c hc hm
  · exact hp o ho

end Synced

theorem synced_inductive (n : Nat) : (freshLts n).Inductive (Synced n) where
  init := by
    intro s hs
    obtain ⟨hB, hR⟩ := (roster_inductive n).init s hs
    have hq := (hR.quiet (.inl (by rw [hs]; rfl))).1
    refine ⟨hB, hR, by rw [hs]; exact isoInv_init n, fun c hc => (hq c hc).linkInv, fun hp => ?_,
      fun e => by rw [hs]; nofun, fun _ c _ => by rw [hs]; exact List.not_mem_nil⟩
    rw [hs] at hp
    rcases hp with hp | hp <;> cases hp
  step := by
    intro s l s' hS hs
    obtain ⟨hB, hR⟩ := (roster_inductive n).step s l s' ⟨hS.base, hS.roster⟩ hs.2
    have hF := hs.1
    rcases step_cases hs.2 with h | ⟨c, hc, h⟩ | h
    · exact ⟨hB, hR, h.iso hS.iso, fun c hc => (hS.links c hc).leaderStep (h.link hS hF hc),
        h.tree hS, h.noError hS, fun hp c hc => h.live hS hF hp hc⟩
    · refine ⟨hB, hR, h.iso hc hS.iso, fun d hd => ?_, by rw [h.leader]; exact hS.tree,
        by rw [h.leader]; exact hS.noError, fun hp d hd => ?_⟩ <;> by_cases hdc : d = c
      · subst hdc
        exact (hS.links d hd).coordStep (h.link hS.base.drained)
      · rw [h.link_ne hdc]
        exact hS.links d hd
      · subst hdc
        rw [h.leader] at hp
        exact fun hm => hS.live hp d hd ((h.link hS.base.drained).down hm)
      · rw [h.leader] at hp
        rw [← link_down, h.link_ne hdc]
        exact hS.live hp d hd
    · refine ⟨hB, hR, h.iso hS.base.drained hS.iso, fun d hd => ?_, by rw [h.leader]; exact hS.tree,
        by rw [h.leader]; exact hS.noError, fun hp d hd => ?_⟩
      · rw [h.link_ne (Nat.ne_of_lt hd)]
        exact hS.links d hd
      · rw [h.leader] at hp
        rw [← link_down, h.link_ne (Nat.ne_of_lt hd)]
        exact hS.live hp d hd

/-- What the leader's split state promises: a distributed coordinator is marked
splitting exactly when it has a node and one request sent to it since that
assignment has no reply processed by the leader. -/
def SplitStateOk (s : State) (c : Nat) : Prop :=
  (s.leader.coordinators c).status = .splitting ↔
    (∃ v, (s.leader.coordinators c).assigned = some v) ∧ (s.link c).outstanding = 1

theorem LinkInv.splitting_iff {l : Link} (h : LinkInv l) :
    l.info.status = .splitting ↔ (∃ v, l.info.assigned = some v) ∧ l.outstanding = 1 := by
  constructor
  · intro hs
    have hne : l.info.assigned ≠ none := fun ha => by
      have := h.idleIff.2 ha
      rw [hs] at this
      cases this
    exact ⟨Option.ne_none_iff_exists'.1 hne, by rw [h.split hne, if_pos hs]⟩
  · rintro ⟨⟨v, hv⟩, ho⟩
    have hsp := h.split (by rw [hv]; nofun)
    by_contra hns
    rw [if_neg hns] at hsp
    omega

/-- **The split state agrees with the messages** in every run without stale
refusals, and no assertion of the leader fails. -/
theorem split_state_consistent (n : Nat) (s : State) (hr : (freshLts n).Reachable s) :
    (∀ c < n, SplitStateOk s c) ∧ ∀ e, s.leader.phase ≠ .stopped (.leaderError e) :=
  have hS := (synced_inductive n).reachable hr
  ⟨fun c hc => (hS.links c hc).splitting_iff, hS.noError⟩

/-- One request on the way to coordinator 0. -/
theorem split_state_consistent_two : ∃ s, (freshLts 2).Reachable s ∧
    (s.leader.coordinators 0).status = .splitting ∧
    (∀ c < 2, SplitStateOk s c) ∧ ∀ e, s.leader.phase ≠ .stopped (.leaderError e) := by
  obtain ⟨s, hr, hp⟩ := LTS.exists_reachable_of_exec_guard (init 2) (step 2)
    fresh (fun s l => fresh s l = true) (fun _ _ h => h)
    [.leaderBoot, .coordRead 2 .decline, .isoPre [10], .leaderRecv 2, .leaderAssign true]
    (fun s => (s.leader.coordinators 0).status == .splitting) (by decide)
  exact ⟨s, hr, by simpa using hp, split_state_consistent 2 s hr⟩

/-! ## A run with a stale refusal -/

/-- Five coordinators, two nodes after pre-partition. Coordinator 0 is asked for
a split and ends its round before it reads the request; it gets a node of
coordinator 1, refuses the old request, reads the assignment, and is asked
again. The last step is the leader reading the refusal. -/
def staleRun : List Lbl :=
  [.leaderBoot, .coordRead 5 .decline, .isoPre [10, 11], .leaderRecv 5, .coordRead 5 .decline,
    .coordRead 0 .decline, .coordFile 0, .coordRead 1 .decline, .coordFile 1,
    -- the first request to 0, and the end of its round
    .leaderAssign true, .coordDone 0 .unsat, .leaderRecv 0,
    .leaderAssign false, .leaderAssign false, .leaderAssign false, .leaderAssign false,
    .leaderAssign false,
    -- 1 gives a node to 0
    .leaderAssign true, .coordRead 1 (.grant 1), .leaderRecv 1, .coordRead 1 .decline,
    -- 0 refuses the first request and starts on its new node
    .coordRead 0 .decline, .coordRead 0 .decline, .coordFile 0,
    .leaderAssign false, .leaderAssign false, .leaderAssign false,
    -- the second request to 0, and the refusal of the first
    .leaderAssign true, .leaderRecv 0]

/-- Coordinator 0 is then asked a third time and grants both open requests. -/
def staleGrants : List Lbl :=
  staleRun ++ [.leaderAssign false, .leaderAssign false, .leaderAssign false, .leaderAssign false,
    .leaderAssign true, .coordRead 0 (.grant 1), .coordRead 0 (.grant 2)]

set_option maxRecDepth 20000 in
/-- With stale refusals the split state does not agree with the messages:
coordinator 0 is marked solving while a request of its assignment is open. Two
granted requests later the assertion of `split_node` fails. -/
theorem split_state_inconsistent :
    (∃ s, (lts 5).Reachable s ∧ ¬SplitStateOk s 0) ∧
      ∃ s, (lts 5).Reachable s ∧ s.leader.phase = .stopped (.leaderError .splitNotSplitting) := by
  constructor
  · obtain ⟨s, hr, hp⟩ := LTS.exists_reachable_of_exec (init 5) (step 5)
      staleRun (fun s => (s.leader.coordinators 0).status == .solving &&
        (s.leader.coordinators 0).assigned == some 3 && (s.link 0).outstanding == 1)
      (by decide +kernel)
    simp only [Bool.and_eq_true, beq_iff_eq] at hp
    obtain ⟨⟨h1, h2⟩, h3⟩ := hp
    refine ⟨s, hr, fun hok => ?_⟩
    have := hok.2 ⟨⟨3, h2⟩, h3⟩
    rw [h1] at this
    cases this
  · obtain ⟨s, hr, hp⟩ := LTS.exists_reachable_of_exec (init 5) (step 5)
      (staleGrants ++ [.leaderRecv 0, .leaderRecv 0])
      (fun s => s.leader.phase == .stopped (.leaderError .splitNotSplitting))
      (by decide +kernel)
    exact ⟨s, hr, by simpa using hp⟩

end AriParti.L4
