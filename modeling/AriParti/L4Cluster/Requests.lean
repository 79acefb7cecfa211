import AriParti.L4Cluster.Roster

/-!
# Requests and replies of one coordinator

`split_failed` carries the target only, so the leader cannot tell which of its
requests the reply belongs to: a coordinator may finish, get a new node and be
asked again while the reply to a request of its former node is still on the
way. `check_coordinators` then takes the stale reply for the answer to the new
request and sets the status back from splitting to solving.

Every result here is about the runs in which that does not happen (`fresh`):
whenever the leader reads a `split_failed` from a coordinator marked splitting,
the reply answers a request sent since that coordinator's current assignment.
In these runs `LinkInv` ties together the status, the outstanding request and
the order of the messages.

## Results

* `LeaderStep`, `LeaderMove.link`: what the leader does to one link.
* `LinkInv.coordStep`, `LinkInv.leaderStep`: both sides keep the invariant.
-/
namespace AriParti.L4
open AriParti.Core AriParti.L3

/-! ## Counting on a link -/

/-- A request of solving round `r`. -/
def L2C.asksIn (r : Nat) : L2C → Bool
  | .requestSplit _ tag => tag == r
  | _ => false

/-- An answer to a request of solving round `r`. -/
def C2L.answersIn (r : Nat) : C2L → Bool
  | .splitSucceed _ tag _ => tag == r
  | .splitFailed _ tag => tag == r
  | _ => false

def L2C.isAssign : L2C → Bool
  | .assignNode _ _ => true
  | _ => false

def C2L.isNotify : C2L → Bool
  | .notifyResult _ => true
  | _ => false

def C2L.isSucceed : C2L → Bool
  | .splitSucceed _ _ _ => true
  | _ => false

/-- The coordinator has read its assignment and not reported a result. -/
def Link.busy (l : Link) : Bool :=
  match l.co.phase with
  | .receiving _ _ => true
  | .solving => true
  | _ => false

/-- The leader's requests of solving round `r` it has not seen the answer of. -/
def Link.outstandingIn (l : Link) (r : Nat) : Nat :=
  l.down.countP (L2C.asksIn r) + l.up.countP (C2L.answersIn r)

/-- The requests sent since the current assignment that the leader has not
seen the answer of. -/
def Link.outstanding (l : Link) : Nat := l.outstandingIn l.info.solvingRound

/-- The requests a coordinator will read while it works on the assignment of
round `r` are of that round; `b` tells whether it has read the assignment. -/
def Current (r : Nat) : Bool → List L2C → Prop
  | _, [] => True
  | b, .requestSplit _ tag :: rest => (b = true → tag = r) ∧ Current r b rest
  | _, .assignNode _ _ :: rest => Current r true rest
  | b, .transferNode _ _ _ :: rest => Current r b rest
  | b, .assignIsolated :: rest => Current r b rest
  | b, .terminateCoordinator :: rest => Current r b rest

/-- No split is reported after a result. -/
def Ordered : List C2L → Prop
  | [] => True
  | .notifyResult _ :: rest => ∀ m ∈ rest, m.isSucceed = false
  | _ :: rest => Ordered rest

section Lists

variable {r : Nat} {b : Bool} {D : List L2C} {U : List C2L}

theorem Current.weaken (h : Current r true D) : Current r false D := by
  induction D with
  | nil => trivial
  | cons m D ih =>
    cases m with
    | requestSplit t tag => exact ⟨nofun, ih h.2⟩
    | assignNode src v => exact h
    | _ => exact ih h

theorem Current.append {m : L2C} (h : Current r b D)
    (hm : ∀ t tag, m = .requestSplit t tag → tag = r) : Current r b (D ++ [m]) := by
  induction D generalizing b with
  | nil =>
    cases m with
    | requestSplit t tag => exact ⟨fun _ => hm t tag rfl, trivial⟩
    | _ => trivial
  | cons m' D ih =>
    cases m' with
    | requestSplit t tag => exact ⟨h.1, ih h.2⟩
    | _ => exact ih h

/-- Nothing sent before an assignment is read while working on it. -/
theorem Current.append_assign {src v : Nat} (h : D.countP L2C.isAssign = 0) :
    Current r false (D ++ [.assignNode src v]) := by
  induction D with
  | nil => trivial
  | cons m D ih =>
    rw [List.countP_cons] at h
    cases m with
    | requestSplit t tag => exact ⟨nofun, ih (by omega)⟩
    | assignNode src v => simp [L2C.isAssign] at h
    | _ => exact ih (by omega)

/-- While the coordinator works and no assignment is on the way, every request
on the way is of its round. -/
theorem Current.request (h : Current r true D) (hD : D.countP L2C.isAssign = 0) {t tag : Nat}
    (hm : L2C.requestSplit t tag ∈ D) : tag = r := by
  induction D with
  | nil => cases hm
  | cons m D ih =>
    rw [List.countP_cons] at hD
    rcases List.mem_cons.1 hm with heq | hin
    · subst heq; exact h.1 rfl
    · cases m with
      | requestSplit _ _ => exact ih h.2 (by omega) hin
      | assignNode src v => simp [L2C.isAssign] at hD
      | _ => exact ih h (by omega) hin

theorem Ordered.append (h : Ordered U) {m : C2L}
    (hm : m.isSucceed = true → U.countP C2L.isNotify = 0) : Ordered (U ++ [m]) := by
  induction U with
  | nil => cases m <;> simp [Ordered]
  | cons m' U ih =>
    rw [List.countP_cons] at hm
    cases m' with
    | notifyResult r =>
      intro x hx
      rcases List.mem_append.1 hx with hx | hx
      · exact h x hx
      · rw [List.mem_singleton.1 hx]
        by_contra hs
        have := hm (by simpa using hs)
        simp [C2L.isNotify] at this
    | _ => exact ih h fun hs => by have := hm hs; omega

theorem Ordered.tail {m : C2L} (h : Ordered (m :: U)) : Ordered U := by
  cases m with
  | notifyResult r =>
    have h : ∀ m ∈ U, m.isSucceed = false := h
    clear * - h
    induction U with
    | nil => trivial
    | cons m U ih =>
      have hrest := fun x hx => h x (List.mem_cons_of_mem m hx)
      cases m with
      | notifyResult _ => exact hrest
      | _ => exact ih hrest
  | _ => exact h

end Lists

/-! ## The invariant of a link -/

structure LinkInv (l : Link) : Prop where
  phase : l.co.phase = .idle ∨ (∃ src v, l.co.phase = .receiving src v) ∨ l.co.phase = .solving
  status : l.info.status ≠ .waiting
  idleIff : l.info.status = .idle ↔ l.info.assigned = none
  /-- An assignment is on the way, being worked on, or its result is. -/
  work : l.down.countP L2C.isAssign + l.busy.toNat + l.up.countP C2L.isNotify ≤ l.isAssigned
  solved : ∀ r, C2L.notifyResult r ∈ l.up → r = .sat ∨ r = .unsat
  tagDown : ∀ t tag, L2C.requestSplit t tag ∈ l.down → tag ≤ l.info.solvingRound
  tagUp : ∀ r m, m ∈ l.up → C2L.answersIn r m = true → r ≤ l.info.solvingRound
  current : Current l.info.solvingRound l.busy l.down
  ordered : Ordered l.up
  /-- A reported split belongs to the current assignment. -/
  succeed : ∀ t tag f, C2L.splitSucceed t tag f ∈ l.up → tag = l.info.solvingRound ∧
    (l.co.phase = .solving ∨ 0 < l.up.countP C2L.isNotify)
  split : l.info.assigned ≠ none →
    l.outstanding = if l.info.status = .splitting then 1 else 0

theorem QuietLink.linkInv {l : Link} (h : QuietLink l) : LinkInv l := by
  have hbusy : l.busy = false := by simp [Link.busy, h.phase]
  have hno : ∀ p : C2L → Bool, p .notifyError = false → l.up.countP p = 0 := fun p hp =>
    List.countP_eq_zero.2 fun m hm => by rw [h.up m hm, hp]; exact Bool.false_ne_true
  constructor
  case phase => exact .inl h.phase
  case status => rw [h.info]; decide
  case idleIff => rw [h.info]; decide
  case work => simp [h.down, hbusy, hno C2L.isNotify rfl]
  case solved => intro r hr; cases h.up _ hr
  case tagDown => intro t tag hm; rw [h.down] at hm; cases hm
  case tagUp => intro r m hm hr; rw [h.up m hm] at hr; cases hr
  case current => rw [h.down]; trivial
  case ordered =>
    have hup := h.up
    revert hup
    generalize l.up = U
    intro hup
    induction U with
    | nil => trivial
    | cons m U ih =>
      have := hup m List.mem_cons_self
      subst this
      exact ih fun m hm => hup m (List.mem_cons_of_mem _ hm)
  case succeed => intro t tag f hm; cases h.up _ hm
  case split => intro ha; rw [h.info] at ha; exact absurd rfl ha

/-- A coordinator keeps the requests of every round. -/
theorem CoordStep.outstandingIn {c : Nat} {l l' : Link} (h : CoordStep c l l') (r : Nat) :
    l'.outstandingIn r = l.outstandingIn r := by
  cases h with
  | @declined t tag rest hm hp =>
    by_cases ht : tag = r <;> simp [Link.outstandingIn, hm, L2C.asksIn, C2L.answersIn, ht]
    omega
  | @granted t tag pid rest F hm hp hF =>
    by_cases ht : tag = r <;> simp [Link.outstandingIn, hm, L2C.asksIn, C2L.answersIn, ht]
    omega
  | transferred hm hp => simp [Link.outstandingIn, hm, L2C.asksIn]
  | assigned hm hp => simp [Link.outstandingIn, hm, L2C.asksIn]
  | died hu => rcases hu with rfl | rfl <;> simp [Link.outstandingIn, C2L.answersIn]
  | received hp => rfl
  | done hp hr => simp [Link.outstandingIn, C2L.answersIn]

theorem CoordStep.info {c : Nat} {l l' : Link} (h : CoordStep c l l') : l'.info = l.info := by
  cases h <;> rfl

section CoordStep

variable {c : Nat} {l l' : Link}

theorem LinkInv.tagDown_tail (h : LinkInv l) {m : L2C} {rest : List L2C}
    (hm : l.down = m :: rest) :
    ∀ t tag, L2C.requestSplit t tag ∈ rest → tag ≤ l.info.solvingRound :=
  fun t tag hin => h.tagDown t tag (by rw [hm]; exact List.mem_cons_of_mem _ hin)

/-- Reading a message that is neither a request nor an assignment. -/
theorem LinkInv.read (h : LinkInv l) {m : L2C} {rest : List L2C} (hm : l.down = m :: rest)
    (hr : ∀ t tag, m ≠ .requestSplit t tag) (ha : m.isAssign = false) :
    LinkInv { l with down := rest } := by
  have hask : ∀ r, m.asksIn r = false := by
    intro r
    cases m with
    | requestSplit t tag => exact absurd rfl (hr t tag)
    | _ => rfl
  have hcount : l.down.countP L2C.isAssign = rest.countP L2C.isAssign := by
    rw [hm, List.countP_cons, ha]; rfl
  have hcur := h.current
  rw [hm] at hcur
  refine ⟨h.phase, h.status, h.idleIff, ?_, h.solved, ?_, h.tagUp, ?_, h.ordered, h.succeed, ?_⟩
  · have := h.work
    rw [hcount] at this
    exact this
  · exact h.tagDown_tail hm
  · cases m with
    | requestSplit t tag => exact absurd rfl (hr t tag)
    | assignNode src v => cases ha
    | _ => exact hcur
  · intro hne
    have hout : Link.outstanding { l with down := rest } = l.outstanding := by
      simp [Link.outstanding, Link.outstandingIn, hm, hask]
    rw [hout]
    exact h.split hne

/-- A result is sent only when there is one. -/
theorem LinkInv.solved_append (h : LinkInv l) {m : C2L}
    (hm : ∀ r, m = .notifyResult r → r = .sat ∨ r = .unsat) :
    ∀ r, C2L.notifyResult r ∈ l.up ++ [m] → r = .sat ∨ r = .unsat := by
  intro r hr
  rcases List.mem_append.1 hr with hr | hr
  · exact h.solved r hr
  · exact hm r (List.mem_singleton.1 hr).symm

/-- An answer is sent to a request of a round so far. -/
theorem LinkInv.tagUp_append (h : LinkInv l) {m : C2L}
    (hm : ∀ r, m.answersIn r = true → r ≤ l.info.solvingRound) :
    ∀ r x, x ∈ l.up ++ [m] → C2L.answersIn r x = true → r ≤ l.info.solvingRound := by
  intro r x hx hans
  rcases List.mem_append.1 hx with hx | hx
  · exact h.tagUp r x hx hans
  · rw [List.mem_singleton.1 hx] at hans
    exact hm r hans

theorem LinkInv.coordStep (h : LinkInv l) (hs : CoordStep c l l') : LinkInv l' := by
  have hout : l'.outstanding = l.outstanding := by
    rw [Link.outstanding, hs.info, hs.outstandingIn]; rfl
  have hsplit : l'.info.assigned ≠ none →
      l'.outstanding = if l'.info.status = .splitting then 1 else 0 := by
    rw [hout, hs.info]; exact h.split
  cases hs with
  | @declined t tag rest hm hp =>
    have htag := h.tagDown t tag (by rw [hm]; exact List.mem_cons_self)
    have hcur := h.current
    rw [hm] at hcur
    have hwork := h.work
    simp only [hm, List.countP_cons, L2C.isAssign] at hwork
    refine ⟨h.phase, h.status, h.idleIff, ?_, h.solved_append (by simp), ?_,
      h.tagUp_append fun r hans => ?_, hcur.2, h.ordered.append (by simp [C2L.isSucceed]), ?_,
      hsplit⟩
    · simp [List.countP_append, C2L.isNotify] at hwork ⊢
      exact hwork
    · exact h.tagDown_tail hm
    · simp only [C2L.answersIn, beq_iff_eq] at hans
      exact hans ▸ htag
    · intro t tag f hin
      rcases List.mem_append.1 hin with hin | hin
      · have := h.succeed t tag f hin
        simpa [List.countP_append, C2L.isNotify] using this
      · cases List.mem_singleton.1 hin
  | @granted t tag pid rest F hm hp hF =>
    have hbusy : l.busy = true := by simp [Link.busy, hp]
    have hcur := h.current
    rw [hm, hbusy] at hcur
    have htag : tag = l.info.solvingRound := hcur.1 rfl
    have hwork := h.work
    simp only [hm, List.countP_cons, L2C.isAssign, hbusy] at hwork
    have hle : l.isAssigned ≤ 1 := by
      unfold Link.isAssigned; cases l.info.assigned.isSome <;> decide
    have hnone : l.up.countP C2L.isNotify = 0 := by simp at hwork; omega
    refine ⟨.inr (.inr hp), h.status, h.idleIff, ?_, h.solved_append (by simp), ?_,
      h.tagUp_append fun r hans => ?_, ?_, h.ordered.append fun _ => hnone, ?_, hsplit⟩
    · have hb : Link.busy { l with
          co := { l.co with splitNode := some pid, splits := l.co.splits ++ [F.task c pid] }
          down := rest, up := l.up ++ [.splitSucceed t tag (F.task c pid)] } = true := hbusy
      simp [hb, List.countP_append, C2L.isNotify] at hwork ⊢
      exact hwork
    · exact h.tagDown_tail hm
    · simp only [C2L.answersIn, beq_iff_eq] at hans
      exact Nat.le_of_eq (hans.symm.trans htag)
    · have := hcur.2
      rwa [← hbusy] at this
    · intro t' tag' f hin
      refine ⟨?_, .inl hp⟩
      rcases List.mem_append.1 hin with hin | hin
      · exact (h.succeed t' tag' f hin).1
      · cases List.mem_singleton.1 hin
        exact htag
  | transferred hm hp => exact h.read hm (by simp) rfl
  | @assigned src v rest hm hp =>
    have hbusy : l.busy = false := by simp [Link.busy, hp]
    have hcur := h.current
    rw [hm, hbusy] at hcur
    have hwork := h.work
    simp only [hm, List.countP_cons, L2C.isAssign, hbusy] at hwork
    refine ⟨.inr (.inl ⟨src, v, rfl⟩), h.status, h.idleIff, ?_, h.solved, ?_, h.tagUp, hcur,
      h.ordered, ?_, hsplit⟩
    · have hb : Link.busy { l with
          co := { l.co with phase := .receiving src v }, down := rest } = true := rfl
      simp only [hb]
      simp only [if_true, Bool.toNat_false, Bool.toNat_true] at hwork ⊢
      exact Nat.le_trans (by omega) hwork
    · exact h.tagDown_tail hm
    · intro t tag f hin
      obtain ⟨h1, h2⟩ := h.succeed t tag f hin
      exact ⟨h1, .inr (h2.resolve_left (by simp [hp]))⟩
  | @died d up hu =>
    have hb : ∀ U, Link.busy { l with co := { l.co with alive := false, drained := d }, up := U } =
        l.busy := fun _ => rfl
    rcases hu with rfl | rfl
    · exact ⟨h.phase, h.status, h.idleIff, h.work, h.solved, h.tagDown, h.tagUp, h.current,
        h.ordered, h.succeed, hsplit⟩
    · refine ⟨h.phase, h.status, h.idleIff, ?_, h.solved_append (by simp), h.tagDown,
        h.tagUp_append (by simp [C2L.answersIn]), h.current,
        h.ordered.append (by simp [C2L.isSucceed]), ?_, hsplit⟩
      · have hwork := h.work
        simp [hb, List.countP_append, C2L.isNotify] at hwork ⊢
        exact hwork
      · intro t tag f hin
        rcases List.mem_append.1 hin with hin | hin
        · simpa [List.countP_append, C2L.isNotify] using h.succeed t tag f hin
        · cases List.mem_singleton.1 hin
  | @received src v f hp =>
    have hbusy : l.busy = true := by simp [Link.busy, hp]
    have hb : Link.busy { l with co := startSolving l.co .solving f } = l.busy := by
      rw [hbusy]; rfl
    refine ⟨.inr (.inr rfl), h.status, h.idleIff, ?_, h.solved, h.tagDown, h.tagUp, ?_,
      h.ordered, ?_, hsplit⟩
    · rw [hb]; exact h.work
    · rw [hb]; exact h.current
    · exact fun t tag f hin => ⟨(h.succeed t tag f hin).1, .inl rfl⟩
  | @done r hp hr =>
    have hbusy : l.busy = true := by simp [Link.busy, hp]
    have hwork := h.work
    have hcur := h.current
    rw [hbusy] at hwork hcur
    have hb : Link.busy { l with
        co := { l.co with phase := .idle, solvingRound := l.co.solvingRound + 1 }
        up := l.up ++ [.notifyResult r] } = false := rfl
    refine ⟨.inl rfl, h.status, h.idleIff, ?_, h.solved_append (by simpa using hr), h.tagDown,
      h.tagUp_append (by simp [C2L.answersIn]), ?_, h.ordered.append (by simp [C2L.isSucceed]), ?_,
      hsplit⟩
    · simp only [hb, List.countP_append, List.countP_singleton, C2L.isNotify, if_true]
      simp only [Bool.toNat_true, Bool.toNat_false] at hwork ⊢
      exact Nat.le_trans (by omega) hwork
    · rw [hb]; exact hcur.weaken
    · intro t tag f hin
      rcases List.mem_append.1 hin with hin | hin
      · exact ⟨(h.succeed t tag f hin).1, .inr (by simp [List.countP_append, C2L.isNotify])⟩
      · cases List.mem_singleton.1 hin

end CoordStep

/-! ## The leader's side -/

/-- What the leader does to one link of a distributed coordinator in a run
without stale refusals; `halt` says whether the leader stops. -/
inductive LeaderStep (halt : Prop) (l : Link) : Link → Prop where
  | same : LeaderStep halt l l
  | requested {t : Nat} (hs : l.info.status = .solving) :
      LeaderStep halt l { l with
        info := { l.info with status := .splitting }
        down := l.down ++ [.requestSplit t l.info.solvingRound] }
  | assigned {src v : Nat} (ha : l.info.assigned = none) :
      LeaderStep halt l { l with
        info := ⟨.solving, some v, l.info.solvingRound + 1, 0⟩
        down := l.down ++ [.assignNode src v] }
  | accepted {t tag v : Nat} {f : TaskFile} {rest : List C2L}
      (hu : l.up = .splitSucceed t tag f :: rest) (hs : l.info.status = .splitting)
      (hd : L2C.terminateCoordinator ∉ l.down) :
      LeaderStep halt l { l with
        info := { l.info with status := .solving, splitCount := l.info.splitCount + 1 }
        down := l.down ++ [.transferNode t v f], up := rest }
  | refused {t tag : Nat} {rest : List C2L} (hu : l.up = .splitFailed t tag :: rest)
      (hf : l.info.status = .splitting → tag = l.info.solvingRound) :
      LeaderStep halt l { l with
        info := if l.info.status = .splitting then { l.info with status := .solving } else l.info
        up := rest }
  | solved {r : NodeStatus} {rest : List C2L} (hu : l.up = .notifyResult r :: rest) :
      LeaderStep halt l { l with info := l.info.nodeSolved, up := rest }
  | stopped {rest : List C2L} (hh : halt) (hu : l.up = rest ∨ l.up = .notifyError :: rest ∨
        ∃ r, l.up = .notifyResult r :: rest) :
      LeaderStep halt l { l with down := l.down ++ [.terminateCoordinator], up := rest }

section LeaderStep

variable {l l' : Link}

theorem Link.isAssigned_le (l : Link) : l.isAssigned ≤ 1 := by
  unfold Link.isAssigned; cases l.info.assigned.isSome <;> decide

/-- An unassigned coordinator is not at work and has nothing to report. -/
theorem LinkInv.unassigned (h : LinkInv l) (ha : l.info.assigned = none) :
    l.down.countP L2C.isAssign = 0 ∧ l.busy = false ∧ l.up.countP C2L.isNotify = 0 := by
  have hwork := h.work
  have hz : l.isAssigned = 0 := by simp [Link.isAssigned, ha]
  refine ⟨by omega, ?_, by omega⟩
  cases hb : l.busy
  · rfl
  · rw [hb, hz] at hwork; simp at hwork

/-- A split is reported by a coordinator at work or with a result to report. -/
theorem LinkInv.succeed_assigned (h : LinkInv l) {t tag : Nat} {f : TaskFile}
    (hm : C2L.splitSucceed t tag f ∈ l.up) : l.info.assigned ≠ none := by
  intro ha
  obtain ⟨-, hb, hn⟩ := h.unassigned ha
  rcases (h.succeed t tag f hm).2 with hp | hp
  · simp [Link.busy, hp] at hb
  · omega

/-- Reading a message that answers no request. -/
theorem LinkInv.pop (h : LinkInv l) {m : C2L} {rest : List C2L} (hu : l.up = m :: rest)
    (hm : ∀ r, C2L.answersIn r m = false) : LinkInv { l with up := rest } := by
  have hmem : ∀ x, x ∈ rest → x ∈ l.up := fun x hx => by rw [hu]; exact List.mem_cons_of_mem _ hx
  have hord := h.ordered
  rw [hu] at hord
  have hcnt : l.up.countP C2L.isNotify = rest.countP C2L.isNotify + m.isNotify.toNat := by
    rw [hu]; cases hn : m.isNotify <;> simp [hn]
  refine ⟨h.phase, h.status, h.idleIff, ?_, fun r hr => h.solved r (hmem _ hr), h.tagDown,
    fun r x hx => h.tagUp r x (hmem x hx), h.current, hord.tail, ?_, ?_⟩
  · have hwork := h.work
    rw [hcnt] at hwork
    exact Nat.le_trans (by simp only [Link.busy]; omega) hwork
  · intro t tag f hin
    obtain ⟨h1, h2⟩ := h.succeed t tag f (hmem _ hin)
    refine ⟨h1, h2.imp_right fun hp => ?_⟩
    rw [hcnt] at hp
    cases m with
    | notifyResult r => cases hord _ hin
    | _ => simpa [C2L.isNotify] using hp
  · intro ha
    have hout : Link.outstanding { l with up := rest } = l.outstanding := by
      simp [Link.outstanding, Link.outstandingIn, hu, hm]
    rw [hout]
    exact h.split ha

/-- Reading the answer to a request of the current assignment leaves none. -/
theorem LinkInv.answered (h : LinkInv l) {m : C2L} {rest : List C2L} (hu : l.up = m :: rest)
    (hm : C2L.answersIn l.info.solvingRound m = true) (ha : l.info.assigned ≠ none) :
    l.info.status = .splitting ∧ Link.outstanding { l with up := rest } = 0 := by
  have hs := h.split ha
  have hout : l.outstanding = Link.outstanding { l with up := rest } + 1 := by
    simp [Link.outstanding, Link.outstandingIn, hu, hm]
    omega
  split at hs
  · exact ⟨‹_›, by omega⟩
  · omega

theorem LinkInv.leaderStep {halt : Prop} (h : LinkInv l) (hs : LeaderStep halt l l') : LinkInv l' := by
  cases hs with
  | same => exact h
  | @requested t hs =>
    have hne : l.info.assigned ≠ none := fun ha => by
      have := h.idleIff.2 ha
      rw [hs] at this
      cases this
    have hassigned : l.isAssigned = 1 := by
      obtain ⟨v, hv⟩ := Option.ne_none_iff_exists'.1 hne
      simp [Link.isAssigned, hv]
    refine ⟨h.phase, by simp, ⟨by simp, fun ha => absurd ha hne⟩, ?_, h.solved, ?_, h.tagUp, ?_,
      h.ordered, h.succeed, ?_⟩
    · have hwork := h.work
      simp [List.countP_append, L2C.isAssign] at hwork ⊢
      exact hwork
    · intro t' tag hin
      rcases List.mem_append.1 hin with hin | hin
      · exact h.tagDown t' tag hin
      · cases List.mem_singleton.1 hin
        exact Nat.le_refl _
    · exact h.current.append fun t' tag hm => by cases hm; rfl
    · intro _
      have hold := h.split hne
      rw [hs] at hold
      simp only [reduceCtorEq, if_false] at hold
      simp only [if_true]
      have : Link.outstanding { l with
          info := { l.info with status := .splitting }
          down := l.down ++ [.requestSplit t l.info.solvingRound] } = l.outstanding + 1 := by
        simp [Link.outstanding, Link.outstandingIn, L2C.asksIn]
        omega
      exact this.trans (by rw [hold])
  | @assigned src v ha =>
    obtain ⟨h1, h2, h3⟩ := h.unassigned ha
    have hno : ∀ t tag f, C2L.splitSucceed t tag f ∉ l.up := fun t tag f hm =>
      h.succeed_assigned hm ha
    have hb : Link.busy { l with
        info := ⟨.solving, some v, l.info.solvingRound + 1, 0⟩
        down := l.down ++ [.assignNode src v] } = false := h2
    refine ⟨h.phase, by simp, ⟨by simp, by simp⟩, ?_, h.solved, ?_, ?_, ?_, h.ordered, ?_, ?_⟩
    · rw [hb]
      simp [List.countP_append, L2C.isAssign, h1, h3, Link.isAssigned]
    · intro t tag hin
      rcases List.mem_append.1 hin with hin | hin
      · exact Nat.le_succ_of_le (h.tagDown t tag hin)
      · cases List.mem_singleton.1 hin
    · exact fun r m hm hr => Nat.le_succ_of_le (h.tagUp r m hm hr)
    · rw [hb]
      exact Current.append_assign h1
    · exact fun t tag f hm => absurd hm (hno t tag f)
    · intro _
      simp only [reduceCtorEq, if_false]
      have hd : l.down.countP (L2C.asksIn (l.info.solvingRound + 1)) = 0 := by
        refine List.countP_eq_zero.2 fun m hm hask => ?_
        cases m with
        | requestSplit t tag =>
          have := h.tagDown t tag hm
          simp only [L2C.asksIn, beq_iff_eq] at hask
          omega
        | _ => cases hask
      have hup : l.up.countP (C2L.answersIn (l.info.solvingRound + 1)) = 0 := by
        refine List.countP_eq_zero.2 fun m hm hans => ?_
        have := h.tagUp _ m hm hans
        omega
      simp [Link.outstanding, Link.outstandingIn, L2C.asksIn, hd, hup]
  | @accepted t tag v f rest hu hs _ =>
    have hmem : C2L.splitSucceed t tag f ∈ l.up := by rw [hu]; exact List.mem_cons_self
    have hne := h.succeed_assigned hmem
    have htag := (h.succeed t tag f hmem).1
    have hin : ∀ x, x ∈ rest → x ∈ l.up := fun x hx => by rw [hu]; exact List.mem_cons_of_mem _ hx
    have hord := h.ordered
    rw [hu] at hord
    have hcnt : l.up.countP C2L.isNotify = rest.countP C2L.isNotify := by
      rw [hu]; simp [C2L.isNotify]
    refine ⟨h.phase, by simp, ⟨by simp, fun ha => absurd ha hne⟩, ?_,
      fun r hr => h.solved r (hin _ hr), ?_, fun r x hx => h.tagUp r x (hin x hx), ?_, hord.tail,
      ?_, ?_⟩
    · have hwork := h.work
      rw [hcnt] at hwork
      simp [List.countP_append, L2C.isAssign] at hwork ⊢
      exact hwork
    · intro t' tag' hx
      rcases List.mem_append.1 hx with hx | hx
      · exact h.tagDown t' tag' hx
      · cases List.mem_singleton.1 hx
    · exact h.current.append (by simp)
    · intro t' tag' f' hx
      obtain ⟨h1, h2⟩ := h.succeed t' tag' f' (hin _ hx)
      rw [hcnt] at h2
      exact ⟨h1, h2⟩
    · intro _
      have hz := (h.answered hu (by simp [C2L.answersIn, htag]) hne).2
      simp only [reduceCtorEq, if_false]
      simp only [Link.outstanding, Link.outstandingIn, List.countP_append] at hz ⊢
      simpa [L2C.asksIn] using hz
  | @refused t tag rest hu hf =>
    have hin : ∀ x, x ∈ rest → x ∈ l.up := fun x hx => by rw [hu]; exact List.mem_cons_of_mem _ hx
    have hord := h.ordered
    rw [hu] at hord
    have hcnt : l.up.countP C2L.isNotify = rest.countP C2L.isNotify := by
      rw [hu]; simp [C2L.isNotify]
    have hwork := h.work
    have hsucceed := fun t' tag' f' hx => h.succeed t' tag' f' (hin _ hx)
    simp only [hcnt] at hwork hsucceed
    by_cases hs : l.info.status = .splitting
    · have htag := hf hs
      have hne : l.info.assigned ≠ none := fun ha => by
        have := h.idleIff.2 ha
        rw [hs] at this
        cases this
      have hz := (h.answered hu (by simp [C2L.answersIn, htag]) hne).2
      simp only [if_pos hs]
      refine ⟨h.phase, by simp, ⟨by simp, fun ha => absurd ha hne⟩, hwork,
        fun r hr => h.solved r (hin _ hr), h.tagDown, fun r x hx => h.tagUp r x (hin x hx),
        h.current, hord, hsucceed, fun _ => ?_⟩
      simp only [reduceCtorEq, if_false]
      exact hz
    · simp only [if_neg hs]
      refine ⟨h.phase, h.status, h.idleIff, hwork, fun r hr => h.solved r (hin _ hr), h.tagDown,
        fun r x hx => h.tagUp r x (hin x hx), h.current, hord, hsucceed, fun ha => ?_⟩
      -- not splitting: no request of this round was outstanding, so this is not its answer
      have hold := h.split ha
      rw [if_neg hs] at hold ⊢
      simp only [Link.outstanding, Link.outstandingIn, hu, List.countP_cons] at hold ⊢
      omega
  | @solved r rest hu =>
    have hpop := h.pop hu (fun _ => rfl)
    have hwork := h.work
    have hle := l.isAssigned_le
    have hord := h.ordered
    rw [hu] at hord
    simp only [hu, List.countP_cons, C2L.isNotify, if_true] at hwork
    refine ⟨h.phase, by simp [CoordinatorInfo.nodeSolved], ⟨fun _ => rfl, fun _ => rfl⟩, ?_,
      hpop.solved, h.tagDown, hpop.tagUp, h.current, hpop.ordered, ?_, fun ha => absurd rfl ha⟩
    · have hz : l.down.countP L2C.isAssign + l.busy.toNat + rest.countP C2L.isNotify = 0 := by
        omega
      exact Nat.le_of_eq hz
    · intro t tag f hin
      cases hord _ hin
  | @stopped rest _ hu =>
    have hup : LinkInv { l with up := rest } := by
      rcases hu with rfl | hu | ⟨r, hu⟩
      · exact h
      · exact h.pop hu (fun _ => rfl)
      · exact h.pop hu (fun _ => rfl)
    refine ⟨hup.phase, hup.status, hup.idleIff, ?_, hup.solved, ?_, hup.tagUp,
      hup.current.append (by simp), hup.ordered, hup.succeed, fun ha => ?_⟩
    · have hwork := hup.work
      simp [List.countP_append, L2C.isAssign] at hwork ⊢
      exact hwork
    · intro t tag hin
      rcases List.mem_append.1 hin with hin | hin
      · exact hup.tagDown t tag hin
      · cases List.mem_singleton.1 hin
    · have hold := hup.split ha
      simp only [Link.outstanding, Link.outstandingIn, List.countP_append] at hold ⊢
      simpa [L2C.asksIn] using hold

end LeaderStep

end AriParti.L4
