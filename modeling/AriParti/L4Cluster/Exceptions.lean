import AriParti.L4Cluster.Moves

/-!
# Exceptions in the middle of a step

`coordFail` of `step` raises between two steps of a coordinator. Three
exceptions in the middle of one make a difference afterwards:

* in the loop in which the isolated coordinator sends the files of
  `pre_partition`, some of which have gone out (`sendRaise`);
* in `start_solving`, when the status is already solving and there is no
  partitioner yet (`startRaise`);
* in `round_clean_up`, when there is no partitioner any more and the status is
  still solving (`cleanUpRaise`).

The handler of `Coordinator.__call__` reads until `terminate_coordinator` and
goes on to `clean_up`. That asserts that a solving coordinator has a
partitioner; only then comes the final barrier (`AtBarrier`).

A send does not wait for its receiver. Of a coordinator that has raised only
the channels matter, and `Round`.
-/
namespace AriParti.L4
open AriParti.Core AriParti.L3

/-- `self.status` and whether `self.partitioner` is set. -/
structure Round where
  status : CoordinatorStatus
  partitioner : Bool
  deriving DecidableEq, Repr

/-- The system with what `clean_up` reads. -/
structure Cluster where
  state : State
  round : Nat → Round

def Cluster.setRound (K : Cluster) (c : Nat) (r : Round) : Cluster :=
  { K with round := Function.update K.round c r }

inductive Fault where
  | run (l : Lbl)
  /-- after `k` files -/
  | sendRaise (k : Nat)
  | startRaise (c : Nat)
  | cleanUpRaise (c : Nat) (r : NodeStatus)
  deriving DecidableEq, Repr

/-- Where `start_solving` is called and `solving_round_done` (coordinator.py:427-435,611-616). -/
def roundAfter (K : Cluster) (s' : State) : Lbl → Cluster
  | .coordFile c => { K with state := s' }.setRound c ⟨.solving, true⟩
  | .coordRead c _ =>
    if (K.state.coord c).phase = .boot ∧ (s'.coord c).phase = .prePartition then
      { K with state := s' }.setRound c ⟨.solving, true⟩
    else { K with state := s' }
  | .coordDone c _ => { K with state := s' }.setRound c ⟨.idle, false⟩
  | _ => { K with state := s' }

/-- mirrors coordinator.py:516-521, where reading or sending the file after
the first `k` raises -/
def sendRaise (n : Nat) (s : State) (k : Nat) : Option State :=
  match (s.coord n).alive, (s.coord n).phase, s.toC n with
  | true, .waitLeader outgoing, .assignIsolated :: rest =>
    if k < outgoing.length then
      some (raiseError ((s.pop n rest).sendFiles n 0 (outgoing.take k)) n .assignIsolated)
    else none
  | _, _, _ => none

/-- A coordinator up to the call of `run_partitioner`. -/
def beginSolving (n : Nat) (s : State) (c : Nat) : Option State :=
  if c = n then
    if (s.coord n).phase = .boot then coordRead n s n .decline else none
  else if c < n then coordFile s c else none

def failStep (n : Nat) (K : Cluster) : Fault → Option Cluster
  | .run l => (step n K.state l).map fun s' => roundAfter K s' l
  | .sendRaise k => (sendRaise n K.state k).map fun s' => { K with state := s' }
  | .startRaise c =>
    ((beginSolving n K.state c).bind fun s => coordFail s c).map fun s' =>
      { K with state := s' }.setRound c { K.round c with status := .solving }
  | .cleanUpRaise c r =>
    if c ≤ n then
      ((coordDone n K.state c r).bind fun s => coordFail s c).map fun s' =>
        { K with state := s' }.setRound c ⟨.solving, false⟩
    else none

/-- The leader and `n` distributed coordinators that may raise anywhere. -/
def failing (n : Nat) : LTS Cluster Fault :=
  .ofFn ⟨init n, fun _ => ⟨.idle, false⟩⟩ (failStep n)

/-- The coordinator has read `terminate_coordinator`, and the assertion in
`clean_up` holds. -/
def AtBarrier (K : Cluster) (c : Nat) : Prop :=
  (K.state.coord c).alive = false ∧ .terminateCoordinator ∈ (K.state.coord c).drained ∧
    ((K.round c).status = .solving → (K.round c).partitioner = true)

instance (K : Cluster) (c : Nat) : Decidable (AtBarrier K c) := by
  unfold AtBarrier
  infer_instance

/-! ## Who waits for whom -/

def L2C.transfersTo (t : Nat) : L2C → Bool
  | .transferNode target _ _ => target == t
  | _ => false

def L2C.assignsFrom (a : Nat) : L2C → Bool
  | .assignNode src _ => src == a
  | _ => false

def C2L.offersTo (t : Nat) : C2L → Bool
  | .splitSucceed target _ _ => target == t
  | _ => false

/-- `t` is blocked in `receive_node_from_coordinator(a)`. -/
def BlockedOn (s : State) (a t : Nat) : Prop :=
  (s.coord t).alive = true ∧ ∃ v, (s.coord t).phase = .receiving a v

/-- The file from `a` to `t` is in flight, or `a` can still send it: its main
loop will read a `transfer_node` for `t`, or it is the isolated coordinator,
in `pre_partition`, with a file for `t`. -/
def CanSend (n : Nat) (s : State) (a t : Nat) : Prop :=
  s.files a t ≠ [] ∨ (s.coord a).alive = true ∧
    ((((s.coord a).phase = .idle ∨ (s.coord a).phase = .solving) ∧
        ∃ m ∈ s.toC a, m.transfersTo t = true) ∨
      a = n ∧ ∃ outgoing, (s.coord n).phase = .waitLeader outgoing ∧ t < outgoing.length)

/-! ## The exceptions that strand nobody -/

/-- The coordinator `a` will be asked for a file for `t`. -/
def promised (n : Nat) (s : State) (a t : Nat) : Bool :=
  (s.leader.phase == .main && (s.toL a).any (C2L.offersTo t)) ||
    (s.toC a).any (L2C.transfersTo t) ||
    (a == n && match (s.coord n).phase with
      | .waitLeader outgoing => decide (t < outgoing.length) &&
          (s.leader.phase == .waitPrePartition || (s.toC n).contains .assignIsolated)
      | _ => false)

/-- A live coordinator counts on a file of `a` that is not sent yet. -/
def owes (n : Nat) (s : State) (a : Nat) : Bool :=
  (List.range n).any fun t => (s.coord t).alive && promised n s a t

/-- The step makes the coordinator `c` send `notify_error`. -/
def raisesAt (n : Nat) (K : Cluster) (l : Fault) (c : Nat) : Bool :=
  (failStep n K l).any fun K' => K'.state.toL c == K.state.toL c ++ [.notifyError]

def Fault.breaksCleanUp : Fault → Bool
  | .startRaise _ => true
  | .cleanUpRaise _ _ => true
  | _ => false

/-- No coordinator raises while it owes a file, and none without a partitioner
while its status is solving. -/
def careful (n : Nat) (K : Cluster) (l : Fault) : Bool :=
  !l.breaksCleanUp && (List.range (n + 1)).all fun c => !(raisesAt n K l c && owes n K.state c)

def carefulLts (n : Nat) : LTS Cluster Fault := (failing n).restrict fun K l => careful n K l = true

/-- No coordinator raises. -/
def calm (n : Nat) (K : Cluster) (l : Fault) : Bool :=
  !l.breaksCleanUp && (List.range (n + 1)).all fun c => !raisesAt n K l c

def calmLts (n : Nat) : LTS Cluster Fault := (failing n).restrict fun K l => calm n K l = true

end AriParti.L4
