import AriParti.L4Cluster.Waiting

/-!
# Every live receiver has a supplier

A coordinator that waits for a file, or has been told to, counts on one file of
its giver. `awaits` counts what a receiver expects of a giver, `due` what the
giver still has to offer: files on the way, and, while it is alive, transfers
it has not read and the files of `pre_partition`.

In a run in which no coordinator raises while it owes a file, a live receiver
never expects more than is due (`Supplied.balance`).

## Results

* `supply_of`: the balance, when what is expected grows no faster than what is due.
* `CoordMove.supplied`, `IsoMove.supplied`, `LeaderMove.supplied`: one step.
-/
namespace AriParti.L4
open AriParti.Core AriParti.L3

def CoordPhase.waitsFor (a : Nat) : CoordPhase → Bool
  | .receiving src _ => src == a
  | _ => false

/-- The files `t` expects of `a`. -/
def awaits (s : State) (a t : Nat) : Nat :=
  (s.toC t).countP (L2C.assignsFrom a) + ((s.coord t).phase.waitsFor a).toNat

/-- The isolated coordinator has a file for `t` and will be told to send it. -/
def isoDue (n : Nat) (s : State) (a t : Nat) : Bool :=
  a == n && match (s.coord n).phase with
    | .waitLeader outgoing => decide (t < outgoing.length) && (s.toC n).contains .assignIsolated
    | _ => false

/-- The files `a` can still offer to `t`, with those on the way. -/
def due (n : Nat) (s : State) (a t : Nat) : Nat :=
  (s.files a t).length +
    if (s.coord a).alive then (s.toC a).countP (L2C.transfersTo t) + (isoDue n s a t).toNat else 0

/-- What a live isolated coordinator will read, by its phase. -/
def IsoReads (s : State) : CoordPhase → List L2C → Prop
  | .boot, ms => (s.leader.phase = .boot ∧ ms = []) ∨
      ∃ ts, ms = .assignIsolated :: ts ∧ ∀ m ∈ ts, m = .terminateCoordinator
  | .waitLeader _, ms => (∀ m ∈ ms, m = .terminateCoordinator) ∨
      ∃ ts, ms = .assignIsolated :: ts ∧ ∀ m ∈ ts, m = .terminateCoordinator
  | .receiving _ _, _ => False
  | _, ms => ∀ m ∈ ms, m = .terminateCoordinator

/-- Each coordinator gets one termination, as its last message. -/
structure Ended (n : Nat) (s : State) : Prop where
  last : ∀ c ≤ n, L2C.terminateCoordinator ∉ (s.toC c).dropLast
  running : (∀ o, s.leader.phase ≠ .stopped o) → ∀ c ≤ n, L2C.terminateCoordinator ∉ s.toC c
  stopped : ∀ o, s.leader.phase = .stopped o → ∀ c ≤ n, L2C.terminateCoordinator ∈ s.down c
  beyond : ∀ c, n < c → s.toC c = []

structure Supplied (n : Nat) (s : State) : Prop where
  ended : Ended n s
  iso : (s.coord n).alive = true → IsoReads s (s.coord n).phase (s.toC n)
  folder : (s.coord n).phase = .prePartition → (s.coord n).folder.isSome = true
  /-- Who has reported a split for a live coordinator is alive. -/
  offers : s.leader.phase = .main → ∀ a ≤ n, ∀ t < n, (s.coord t).alive = true →
    (s.toL a).any (C2L.offersTo t) = true → (s.coord a).alive = true
  isoOffers : s.leader.phase = .waitPrePartition → ∀ outgoing,
    (s.coord n).phase = .waitLeader outgoing → ∀ t < n, t < outgoing.length →
      (s.coord t).alive = true → (s.coord n).alive = true
  balance : ∀ t < n, (s.coord t).alive = true → ∀ a, awaits s a t ≤ due n s a t

section Lists

theorem dropLast_of_cons {m : L2C} {rest : List L2C}
    (h : L2C.terminateCoordinator ∉ (m :: rest).dropLast) :
    L2C.terminateCoordinator ∉ rest.dropLast := by
  cases rest with
  | nil => exact List.not_mem_nil
  | cons x xs => exact fun hx => h (List.mem_cons_of_mem m hx)

/-- A termination that is read is the last message. -/
theorem nil_of_terminate {rest : List L2C}
    (h : L2C.terminateCoordinator ∉ (.terminateCoordinator :: rest).dropLast) : rest = [] := by
  cases rest with
  | nil => rfl
  | cons x xs => exact absurd List.mem_cons_self h

theorem dropLast_append {ms : List L2C} {m : L2C} (h : L2C.terminateCoordinator ∉ ms) :
    L2C.terminateCoordinator ∉ (ms ++ [m]).dropLast := by
  rw [List.dropLast_concat]
  exact h

end Lists

/-- The coordinator `c` reads at most one message. -/
theorem Ended.read {n c : Nat} {s s' : State} (h : Ended n s) (hc : c ≤ n)
    (hlead : s'.leader = s.leader)
    (hco : ∀ d, d ≠ c → s'.coord d = s.coord d) (hC : ∀ d, d ≠ c → s'.toC d = s.toC d)
    (hread : s'.toC c = s.toC c ∨ ∃ m, s.toC c = m :: s'.toC c)
    (hdown : L2C.terminateCoordinator ∈ s.down c → L2C.terminateCoordinator ∈ s'.down c) :
    Ended n s' := by
  refine ⟨fun d hd => ?_, fun hr d hd => ?_, fun o ho d hd => ?_, fun d hd => ?_⟩
  · by_cases hdc : d = c
    · subst hdc
      have hlast := h.last d hd
      rcases hread with hr | ⟨m, hr⟩
      · rw [hr]
        exact hlast
      · rw [hr] at hlast
        exact dropLast_of_cons hlast
    · rw [hC d hdc]
      exact h.last d hd
  · rw [hlead] at hr
    by_cases hdc : d = c
    · subst hdc
      have hrun := h.running hr d hd
      rcases hread with hr | ⟨m, hr⟩
      · rw [hr]
        exact hrun
      · rw [hr] at hrun
        exact fun hin => hrun (List.mem_cons_of_mem m hin)
    · rw [hC d hdc]
      exact h.running hr d hd
  · rw [hlead] at ho
    by_cases hdc : d = c
    · subst hdc
      exact hdown (h.stopped o ho d hd)
    · unfold State.down
      rw [hco d hdc, hC d hdc]
      exact h.stopped o ho d hd
  · rw [hC d (by omega)]
    exact h.beyond d hd

/-- A termination is read by nobody before the shutdown, and leaves nothing
behind. -/
theorem Ended.terminated {n c : Nat} {s : State} (h : Ended n s) (hc : c ≤ n) {rest : List L2C}
    (hm : s.toC c = .terminateCoordinator :: rest) :
    rest = [] ∧ ∃ o, s.leader.phase = .stopped o := by
  have hlast := h.last c hc
  rw [hm] at hlast
  refine ⟨nil_of_terminate hlast, ?_⟩
  by_contra hno
  refine h.running (fun o ho => hno ⟨o, ho⟩) c hc ?_
  rw [hm]
  exact List.mem_cons_self

section Balance

variable {n : Nat} {s s' : State}

theorem isoDue_iff {a t : Nat} : isoDue n s a t = true ↔ a = n ∧ ∃ outgoing,
    (s.coord n).phase = .waitLeader outgoing ∧ t < outgoing.length ∧
      L2C.assignIsolated ∈ s.toC n := by
  unfold isoDue
  rw [Bool.and_eq_true, beq_iff_eq]
  refine and_congr_right fun _ => ?_
  split
  · rename_i outgoing hout
    rw [Bool.and_eq_true, decide_eq_true_eq, List.contains_iff_mem]
    constructor
    · rintro ⟨hlt, hin⟩
      exact ⟨outgoing, hout, hlt, hin⟩
    · rintro ⟨out, ho, hlt, hin⟩
      cases hout.symm.trans ho
      exact ⟨hlt, hin⟩
  · rename_i hno
    refine iff_of_false (by decide) ?_
    rintro ⟨out, ho, -⟩
    exact hno out ho

theorem isoDue_of_ne {a t : Nat} (h : a ≠ n) : isoDue n s a t = false := by
  unfold isoDue
  rw [beq_eq_false_iff_ne.2 h, Bool.false_and]

/-- What is expected grows no faster than what is due. -/
theorem supply_of (hB : ∀ t < n, (s.coord t).alive = true → ∀ a, awaits s a t ≤ due n s a t)
    (halive : ∀ t < n, (s'.coord t).alive = true → (s.coord t).alive = true)
    (hle : ∀ t < n, (s'.coord t).alive = true → ∀ a,
      awaits s' a t + due n s a t ≤ awaits s a t + due n s' a t) :
    ∀ t < n, (s'.coord t).alive = true → ∀ a, awaits s' a t ≤ due n s' a t := by
  intro t ht ha a
  have hold := hB t ht (halive t ht ha) a
  have hnew := hle t ht ha a
  omega

/-- A coordinator dies, or stays dead: nothing of it was due, and nothing else
changes but its own messages and more files. -/
theorem balance_die {c : Nat}
    (hB : ∀ t < n, (s.coord t).alive = true → ∀ a, awaits s a t ≤ due n s a t)
    (hdead : (s'.coord c).alive = false) (hco : ∀ d, d ≠ c → s'.coord d = s.coord d)
    (hC : ∀ d, d ≠ c → s'.toC d = s.toC d)
    (hf : ∀ a t, (s.files a t).length ≤ (s'.files a t).length)
    (hnone : ∀ t < n, (s.coord t).alive = true → (s.coord c).alive = true →
      (s.toC c).countP (L2C.transfersTo t) = 0 ∧ isoDue n s c t = false) :
    ∀ t < n, (s'.coord t).alive = true → ∀ a, awaits s' a t ≤ due n s' a t := by
  have hlive : ∀ t, (s'.coord t).alive = true → t ≠ c ∧ (s.coord t).alive = true := by
    intro t ha
    have hne : t ≠ c := by
      rintro rfl
      rw [hdead] at ha
      cases ha
    exact ⟨hne, hco t hne ▸ ha⟩
  refine supply_of hB (fun t _ ha => (hlive t ha).2) fun t ht ha a => ?_
  obtain ⟨hne, ha'⟩ := hlive t ha
  have hfile := hf a t
  have hsame : awaits s' a t = awaits s a t := by
    unfold awaits
    rw [hC t hne, hco t hne]
  rw [hsame]
  by_cases hac : a = c
  · subst hac
    have hz : due n s a t = (s.files a t).length := by
      unfold due
      split
      · rename_i hal
        obtain ⟨h₁, h₂⟩ := hnone t ht ha' hal
        rw [h₁, h₂]
        rfl
      · rfl
    have hz' : due n s' a t = (s'.files a t).length := by
      unfold due
      rw [hdead]
      rfl
    omega
  · have hiso : isoDue n s' a t = isoDue n s a t := by
      by_cases han : a = n
      · subst han
        unfold isoDue
        rw [hco a hac, hC a hac]
      · rw [isoDue_of_ne han, isoDue_of_ne han]
    unfold due
    rw [hco a hac, hC a hac, hiso]
    split <;> omega

/-- The balance between receivers and givers, when only the distributed
coordinator `c` moves. -/
theorem balance_move {c : Nat} (hc : c < n)
    (hB : ∀ t < n, (s.coord t).alive = true → ∀ a, awaits s a t ≤ due n s a t)
    (hco : ∀ d, d ≠ c → s'.coord d = s.coord d) (hC : ∀ d, d ≠ c → s'.toC d = s.toC d)
    (hlive : (s.coord c).alive = true) (hlive' : (s'.coord c).alive = true)
    (hle : ∀ a t, awaits s' a t + ((s.files a t).length +
        if a = c then (s.toC c).countP (L2C.transfersTo t) else 0) ≤
      awaits s a t + ((s'.files a t).length +
        if a = c then (s'.toC c).countP (L2C.transfersTo t) else 0)) :
    ∀ t < n, (s'.coord t).alive = true → ∀ a, awaits s' a t ≤ due n s' a t := by
  refine supply_of hB (fun t _ ha => ?_) fun t ht ha a => ?_
  · by_cases htc : t = c
    · rw [htc]
      exact hlive
    · rw [← hco t htc]
      exact ha
  · have hle := hle a t
    have hiso : isoDue n s' a t = isoDue n s a t := by
      unfold isoDue
      rw [hco n (Nat.ne_of_gt hc), hC n (Nat.ne_of_gt hc)]
    unfold due
    rw [hiso]
    by_cases hac : a = c
    · subst hac
      rw [if_pos rfl, if_pos rfl] at hle
      rw [if_pos hlive, if_pos hlive']
      omega
    · rw [if_neg hac, if_neg hac] at hle
      rw [hco a hac, hC a hac]
      split <;> omega

end Balance

/-! ## The distributed coordinators -/

section Coord

variable {n c : Nat} {s s' : State} {l : Lbl}

/-- What a live giver has in its channel after it has read a message that is
no transfer. -/
theorem transfers_pop {m : L2C} {rest : List L2C} (hm : s.toC c = m :: rest)
    (hn : m.isTransfer = false) (a t : Nat) :
    (if a = c then (s.toC c).countP (L2C.transfersTo t) else 0) ≤
      if a = c then (Function.update s.toC c rest c).countP (L2C.transfersTo t) else 0 := by
  have hno : m.transfersTo t = false := by
    cases m with
    | transferNode _ _ _ => cases hn
    | _ => rfl
  rw [Function.update_self, hm, List.countP_cons_of_neg (by rw [hno]; decide)]

theorem CoordMove.balance (h : CoordMove n c s l s') (hc : c < n)
    (hB : ∀ t < n, (s.coord t).alive = true → ∀ a, awaits s a t ≤ due n s a t)
    (hlive' : (s'.coord c).alive = true) :
    ∀ t < n, (s'.coord t).alive = true → ∀ a, awaits s' a t ≤ due n s' a t := by
  have hlink := fun d hd => h.link_ne (d := d) hd
  have hco : ∀ d, d ≠ c → s'.coord d = s.coord d := fun d hd => congrArg Link.co (hlink d hd)
  have hpop : ∀ rest : List L2C, ∀ d, d ≠ c → Function.update s.toC c rest d = s.toC d :=
    fun rest d hd => Function.update_of_ne hd _ _
  cases h with
  | @declined _ _ _ rest hm ha hp =>
    refine balance_move hc hB hco (hpop rest) ha hlive' fun a t => ?_
    refine Nat.add_le_add (Nat.le_of_eq ?_) (Nat.add_le_add_left (transfers_pop hm rfl a t) _)
    by_cases htc : t = c
    · subst htc
      simp [awaits, State.pop, State.post, hm, L2C.assignsFrom]
    · simp [awaits, State.pop, State.post, htc]
  | @granted _ _ pid rest F hm ha hp hF =>
    refine balance_move hc hB hco (hpop rest) ha hlive' fun a t => ?_
    refine Nat.add_le_add (Nat.le_of_eq ?_) (Nat.add_le_add_left (transfers_pop hm rfl a t) _)
    by_cases htc : t = c
    · subst htc
      simp [awaits, State.pop, State.post, State.setCoord, hm, L2C.assignsFrom]
    · simp [awaits, State.pop, State.post, State.setCoord, htc]
  | @transferred _ t₀ v pid f rest F hm ha hp hs hF =>
    refine balance_move hc hB hco (hpop rest) ha hlive' fun a t => ?_
    refine Nat.add_le_add (Nat.le_of_eq ?_) ?_
    · by_cases htc : t = c
      · subst htc
        simp [awaits, State.pop, State.sendFile, hm, L2C.assignsFrom]
      · simp [awaits, State.pop, State.sendFile, htc]
    show _ ≤ (Function.update s.files c (Function.update (s.files c) t₀
      (s.files c t₀ ++ [(F.task c pid, v)])) a t).length +
        if a = c then (Function.update s.toC c rest c).countP _ else 0
    rw [Function.update_self, hm, List.countP_cons]
    by_cases hac : a = c
    · subst hac
      rw [Function.update_self, if_pos rfl, if_pos rfl]
      by_cases ht : t = t₀
      · subst ht
        rw [Function.update_self, List.length_append]
        simp only [L2C.transfersTo, beq_self_eq_true, if_true, List.length_singleton]
        omega
      · rw [Function.update_of_ne ht]
        simp [L2C.transfersTo, Ne.symm ht]
    · rw [Function.update_of_ne hac, if_neg hac, if_neg hac]
  | @assigned _ src v rest hm ha hp =>
    refine balance_move hc hB hco (hpop rest) ha hlive' fun a t => ?_
    refine Nat.add_le_add ?_ (Nat.add_le_add_left (transfers_pop hm rfl a t) _)
    by_cases htc : t = c
    · subst htc
      simp only [awaits, State.pop, State.setCoord, Function.update_self, hm, hp,
        List.countP_cons, L2C.assignsFrom, CoordPhase.waitsFor]
      by_cases hsa : src = a <;> simp [hsa]
    · simp [awaits, State.pop, State.setCoord, htc]
  | @received src v v' f rest ha hp hf =>
    refine balance_move hc hB hco (fun _ _ => rfl) ha hlive' fun a t => ?_
    by_cases htc : t = c
    · subst htc
      by_cases has : a = src
      · subst has
        simp [awaits, State.setCoord, startSolving, CoordPhase.waitsFor, hp, hf]
        omega
      · simp [awaits, State.setCoord, startSolving, CoordPhase.waitsFor, hp, has]
    · by_cases has : a = src
      · subst has
        simp [awaits, State.setCoord, htc]
      · simp [awaits, State.setCoord, htc, has]
  | @done r ha hp hr =>
    refine balance_move hc hB hco (fun _ _ => rfl) ha hlive' fun a t => ?_
    refine Nat.add_le_add (Nat.le_of_eq ?_) (Nat.le_refl _)
    by_cases htc : t = c
    · subst htc
      simp [awaits, solvingRoundDone, State.post, State.setCoord, CoordPhase.waitsFor, hp]
    · simp [awaits, solvingRoundDone, State.post, State.setCoord, htc]
  | dropped hm ha =>
    simp [die, State.setCoord] at hlive'
  | raised hm ha hr =>
    simp [raiseError, die, State.setCoord, State.post] at hlive'
  | failed ha =>
    simp [State.setCoord, State.post] at hlive'

/-! ### The step of a coordinator -/

/-- Nothing of `a` is counted on by a live `t`. -/
structure Unpromised (n : Nat) (s : State) (a t : Nat) : Prop where
  offer : s.leader.phase = .main → (s.toL a).any (C2L.offersTo t) = false
  transfer : (s.toC a).countP (L2C.transfersTo t) = 0
  isoDue : isoDue n s a t = false
  isoOffer : a = n → s.leader.phase = .waitPrePartition → ∀ outgoing,
    (s.coord n).phase = .waitLeader outgoing → ¬ t < outgoing.length

theorem unpromised_of_owes {a t : Nat} (h : owes n s a = false) (ht : t < n)
    (ha : (s.coord t).alive = true) : Unpromised n s a t := by
  unfold owes at h
  rw [List.any_eq_false] at h
  have hp := h t (List.mem_range.2 ht)
  rw [ha, Bool.true_and, Bool.not_eq_true] at hp
  unfold promised at hp
  rw [Bool.or_eq_false_iff, Bool.or_eq_false_iff] at hp
  obtain ⟨⟨h₁, h₂⟩, h₃⟩ := hp
  refine ⟨fun hm => ?_, ?_, ?_, fun han hw outgoing hout hlt => ?_⟩
  · rw [hm] at h₁
    simpa using h₁
  · rw [List.countP_eq_zero]
    exact List.any_eq_false.1 h₂
  · by_contra hdue
    obtain ⟨rfl, outgoing, hout, hlt, hin⟩ := isoDue_iff.1 (Bool.not_eq_false _ ▸ hdue)
    rw [hout] at h₃
    simp [hlt, hin] at h₃
  · subst han
    rw [hout] at h₃
    simp [hw, hlt] at h₃

/-- How a coordinator dies: it reads a termination, or sends `notify_error`. -/
theorem CoordMove.dies (h : CoordMove n c s l s') (hdead : (s'.coord c).alive = false) :
    s'.toL c = s.toL c ++ [.notifyError] ∨ s'.toL = s.toL ∧
      ((s.coord c).alive = false ∨ ∃ rest, s.toC c = .terminateCoordinator :: rest) := by
  cases h with
  | declined _ ha _ => simp [State.pop, State.post, ha] at hdead
  | granted _ ha _ _ => simp [State.pop, State.post, State.setCoord, ha] at hdead
  | transferred _ ha _ _ _ => simp [State.pop, State.sendFile, ha] at hdead
  | assigned _ ha _ => simp [State.pop, State.setCoord, ha] at hdead
  | @dropped a m rest hm ha =>
    refine .inr ⟨rfl, ha.imp_right fun he => ⟨rest, ?_⟩⟩
    rw [hm, he.1]
  | raised _ _ _ =>
    left
    simp [raiseError, die, State.post, State.setCoord, State.pop]
  | received ha _ _ => simp [State.setCoord, startSolving, ha] at hdead
  | done ha _ _ => simp [solvingRoundDone, State.post, State.setCoord, ha] at hdead
  | failed _ =>
    left
    simp [State.post, State.setCoord]

theorem CoordMove.alive (h : CoordMove n c s l s') (hlive : (s'.coord c).alive = true) :
    (s.coord c).alive = true := by
  cases h with
  | declined _ ha _ | granted _ ha _ _ | transferred _ ha _ _ _ | assigned _ ha _ | raised _ ha _
  | received ha _ _ | done ha _ _ | failed ha => exact ha
  | dropped _ _ => simp [die, State.setCoord] at hlive

theorem CoordMove.files_le (h : CoordMove n c s l s') (hdead : (s'.coord c).alive = false) :
    s'.files = s.files := by
  cases h with
  | transferred _ ha _ _ _ => simp [State.pop, State.sendFile, ha] at hdead
  | received ha _ _ => simp [State.setCoord, startSolving, ha] at hdead
  | _ => rfl

/-- What a coordinator reads was sent to it. -/
theorem CoordMove.reads (h : CoordMove n c s l s') :
    s'.toC c = s.toC c ∨ ∃ m, s.toC c = m :: s'.toC c := by
  cases h with
  | declined hm _ _ | granted hm _ _ _ | transferred hm _ _ _ _ | assigned hm _ _ | dropped hm _
  | raised hm _ _ =>
    right
    simp only [State.pop, State.post, State.setCoord, State.sendFile, die, raiseError,
      Function.update_self]
    exact ⟨_, hm⟩
  | received _ _ _ | done _ _ _ | failed _ => exact .inl rfl

/-- A termination stays where it is, or is thrown away. -/
theorem CoordStep.terminate {k k' : Link} (h : CoordStep c k k')
    (hm : L2C.terminateCoordinator ∈ k.down) : L2C.terminateCoordinator ∈ k'.down := by
  cases h with
  | declined hd _ | granted hd _ _ | transferred hd _ | assigned hd _ =>
    rw [hd] at hm
    exact (List.mem_cons.1 hm).resolve_left nofun
  | died _ | received _ | done _ _ => exact hm

theorem CoordMove.supplied (h : CoordMove n c s l s') (hc : c < n) (hD : Drained s)
    (hS : Supplied n s)
    (hG : s'.toL c = s.toL c ++ [.notifyError] → owes n s c = false) : Supplied n s' := by
  have hlink := fun d hd => h.link_ne (d := d) hd
  have hco : ∀ d, d ≠ c → s'.coord d = s.coord d := fun d hd => congrArg Link.co (hlink d hd)
  have hup : ∀ d, d ≠ c → s'.toL d = s.toL d := fun d hd => congrArg Link.up (hlink d hd)
  have hC : ∀ d, d ≠ c → s'.toC d = s.toC d := by
    intro d hd
    have hdown : s'.down d = s.down d := congrArg Link.down (hlink d hd)
    unfold State.down at hdown
    rw [hco d hd] at hdown
    exact List.append_cancel_left hdown
  have hcn := Nat.ne_of_gt hc
  have hlive : ∀ t, (s'.coord t).alive = true → (s.coord t).alive = true := by
    intro t ha
    by_cases htc : t = c
    · subst htc
      exact h.alive ha
    · rw [← hco t htc]
      exact ha
  have hlead := h.leader
  -- a coordinator that dies owes nothing
  have hfree : (s'.coord c).alive = false → (s.coord c).alive = true →
      (s.leader.phase ≠ .main ∧ ∀ t, (s.toC c).countP (L2C.transfersTo t) = 0) ∨
        ∀ t < n, (s.coord t).alive = true → Unpromised n s c t := by
    intro hdead ha
    rcases h.dies hdead with herr | ⟨-, hdead' | ⟨rest, hm⟩⟩
    · exact .inr fun t ht hat => unpromised_of_owes (hG herr) ht hat
    · rw [ha] at hdead'
      cases hdead'
    · obtain ⟨hnil, o, ho⟩ := hS.ended.terminated (Nat.le_of_lt hc) hm
      refine .inl ⟨fun hp => ?_, fun t => ?_⟩
      · rw [hp] at ho
        cases ho
      · rw [hm, hnil]
        rfl
  refine ⟨hS.ended.read (Nat.le_of_lt hc) hlead hco hC h.reads (h.link hD).terminate, ?_, ?_,
    fun hp a hle t ht ha hoff => ?_, fun hp outgoing hout t ht hlt ha => ?_, ?_⟩
  · rw [hco n hcn, hC n hcn]
    unfold IsoReads
    rw [hlead]
    exact hS.iso
  · rw [hco n hcn]
    exact hS.folder
  · rw [hlead] at hp
    by_cases hac : a = c
    · subst hac
      by_contra hdead
      have hdead := Bool.not_eq_true _ ▸ hdead
      have hold : (s.toL a).any (C2L.offersTo t) = true := by
        rcases h.dies hdead with herr | ⟨hsame, -⟩
        · rw [herr, List.any_append] at hoff
          simpa [C2L.offersTo] using hoff
        · rw [← hsame]
          exact hoff
      have halive := hS.offers hp a hle t ht (hlive t ha) hold
      rcases hfree hdead halive with ⟨hmain, -⟩ | hun
      · exact hmain hp
      · have := (hun t ht (hlive t ha)).offer hp
        rw [hold] at this
        cases this
    · rw [hup a hac] at hoff
      rw [hco a hac]
      exact hS.offers hp a hle t ht (hlive t ha) hoff
  · rw [hlead] at hp
    rw [hco n hcn] at hout ⊢
    exact hS.isoOffers hp outgoing hout t ht hlt (hlive t ha)
  · by_cases ha : (s'.coord c).alive = true
    · exact h.balance hc hS.balance ha
    · have hdead := Bool.not_eq_true _ ▸ ha
      refine balance_die hS.balance hdead hco hC (fun a t => ?_) fun t ht hat halive => ?_
      · rw [h.files_le hdead]
      · refine ⟨?_, isoDue_of_ne (Nat.ne_of_lt hc)⟩
        rcases hfree hdead halive with ⟨-, hz⟩ | hun
        · exact hz t
        · exact (hun t ht hat).transfer

end Coord

/-! ## The isolated coordinator -/

section Iso

variable {n : Nat} {s s' : State} {l : Lbl}

/-- The balance when only the isolated coordinator moves. -/
theorem balance_iso (hB : ∀ t < n, (s.coord t).alive = true → ∀ a, awaits s a t ≤ due n s a t)
    (hco : ∀ d, d ≠ n → s'.coord d = s.coord d) (hC : ∀ d, d ≠ n → s'.toC d = s.toC d)
    (hlive : (s.coord n).alive = true) (hlive' : (s'.coord n).alive = true)
    (hf : ∀ a t, a ≠ n → s'.files a t = s.files a t)
    (hle : ∀ t, (s.files n t).length + (s.toC n).countP (L2C.transfersTo t) +
        (isoDue n s n t).toNat ≤
      (s'.files n t).length + (s'.toC n).countP (L2C.transfersTo t) + (isoDue n s' n t).toNat) :
    ∀ t < n, (s'.coord t).alive = true → ∀ a, awaits s' a t ≤ due n s' a t := by
  refine supply_of hB (fun t ht ha => ?_) fun t ht ha a => ?_
  · rw [← hco t (Nat.ne_of_lt ht)]
    exact ha
  · have htn := Nat.ne_of_lt ht
    have hsame : awaits s' a t = awaits s a t := by
      unfold awaits
      rw [hC t htn, hco t htn]
    rw [hsame]
    unfold due
    by_cases han : a = n
    · subst han
      rw [if_pos hlive, if_pos hlive']
      have := hle t
      omega
    · rw [hf a t han, hco a han, hC a han, isoDue_of_ne han, isoDue_of_ne han]

theorem sendFiles_length (fs : List TaskFile) (i : Nat) (s : State) (t : Nat) :
    ((s.sendFiles n i fs).files n t).length =
      (s.files n t).length + if i ≤ t ∧ t < i + fs.length then 1 else 0 := by
  induction fs generalizing i s with
  | nil =>
    rw [if_neg (by simp only [List.length_nil]; omega)]
    rfl
  | cons f fs ih =>
    unfold State.sendFiles
    rw [ih]
    simp only [State.sendFile, Function.update_self, List.length_cons]
    by_cases hti : t = i
    · subst hti
      rw [Function.update_self, List.length_append, List.length_singleton, if_neg (by omega),
        if_pos (by omega)]
    · rw [Function.update_of_ne hti]
      by_cases hin : i ≤ t ∧ t < i + (fs.length + 1)
      · rw [if_pos hin, if_pos (by omega)]
      · rw [if_neg hin, if_neg (by omega)]

theorem sendFiles_files_ne (fs : List TaskFile) (i : Nat) (s : State) {a : Nat} (ha : a ≠ n)
    (t : Nat) : (s.sendFiles n i fs).files a t = s.files a t := by
  induction fs generalizing i s with
  | nil => rfl
  | cons f fs ih =>
    unfold State.sendFiles
    rw [ih]
    simp only [State.sendFile, Function.update_of_ne ha]

/-- How the isolated coordinator dies. -/
theorem IsoMove.dies (h : IsoMove n s l s') (hstep : step n s l = some s')
    (hlive : (s.coord n).alive = true) (hdead : (s'.coord n).alive = false) :
    s'.files = s.files ∧ (s'.toL n = s.toL n ++ [.notifyError] ∨
      s'.toL = s.toL ∧ ∃ rest, s.toC n = .terminateCoordinator :: rest) := by
  cases h with
  | started _ ha _ => simp [State.setCoord, startSolving, ha] at hdead
  | delivered _ ha _ => simp [State.setCoord, ha] at hdead
  | @dropped a m rest hm =>
    refine ⟨rfl, .inr ⟨rfl, rest, ?_⟩⟩
    have hne : ∀ k : L2C, die (s.pop n rest) n m ≠ raiseError (s.pop n rest) n k := by
      intro k he
      have := congrArg (fun s => (s.toL n).length) he
      simp [raiseError, die, State.post, State.setCoord, State.pop] at this
    simp only [step, coordRead, hm, hlive, Nat.le_refl, if_true] at hstep
    rw [hm]
    by_contra hterm
    have hterm : m ≠ .terminateCoordinator := fun he => hterm (by rw [he])
    unfold isolatedReceive at hstep
    simp only [hterm, if_false] at hstep
    split at hstep
    · split at hstep <;> simp only [Option.some.injEq] at hstep
      · have := congrArg (fun s => (s.coord n).alive) hstep
        simp [State.setCoord, startSolving, die, State.pop, hlive] at this
      · exact hne m hstep.symm
    · split at hstep <;> simp only [Option.some.injEq] at hstep
      · have := congrArg (fun s => (s.coord n).alive) hstep
        simp [State.setCoord, die, State.pop, hlive] at this
      · exact hne m hstep.symm
    all_goals first
      | exact hne m (Option.some.inj hstep).symm
      | cases hstep
  | raised _ _ =>
    refine ⟨rfl, .inl ?_⟩
    simp [raiseError, die, State.post, State.setCoord, State.pop]
  | prePartitioned ha _ _ _ => simp [State.setCoord, ha] at hdead
  | done ha _ _ => simp [solvingRoundDone, State.setCoord, ha] at hdead
  | failed _ =>
    refine ⟨rfl, .inl ?_⟩
    simp [State.post, State.setCoord]

theorem IsoMove.reads (h : IsoMove n s l s') :
    s'.toC n = s.toC n ∨ ∃ m, s.toC n = m :: s'.toC n := by
  cases h with
  | @delivered _ rest outgoing hm _ _ =>
    right
    have hC := congrFun (sendFiles_same n outgoing 0 (s.pop n rest)).2.2.1 n
    simp only [State.pop, Function.update_self] at hC
    simp only [State.setCoord, State.pop, hC]
    exact ⟨_, hm⟩
  | started hm _ _ | dropped hm | raised hm _ =>
    right
    simp only [State.pop, State.post, State.setCoord, die, raiseError, Function.update_self]
    exact ⟨_, hm⟩
  | prePartitioned _ _ _ _ | done _ _ _ | failed _ => exact .inl rfl

/-- A dead coordinator is where it was. -/
theorem IsoMove.phase_of_dead (h : IsoMove n s l s') (hdead : (s'.coord n).alive = false) :
    (s'.coord n).phase = (s.coord n).phase ∧ (s'.coord n).folder = (s.coord n).folder := by
  cases h with
  | started _ ha _ => simp [State.setCoord, startSolving, ha] at hdead
  | delivered _ ha _ => simp [State.setCoord, ha] at hdead
  | prePartitioned ha _ _ _ => simp [State.setCoord, ha] at hdead
  | done ha _ _ => simp [solvingRoundDone, State.setCoord, ha] at hdead
  | dropped _ | raised _ _ | failed _ =>
    simp [raiseError, die, State.post, State.setCoord, State.pop]

theorem IsoMove.alive (h : IsoMove n s l s') (hlive : (s'.coord n).alive = true) :
    (s.coord n).alive = true := by
  cases h with
  | started _ ha _ | delivered _ ha _ | raised _ ha | prePartitioned ha _ _ _ | done ha _ _
  | failed ha => exact ha
  | dropped _ => simp [die, State.setCoord] at hlive

theorem IsoMove.isoReads (h : IsoMove n s l s') (hS : Supplied n s)
    (hlive : (s'.coord n).alive = true) : IsoReads s' (s'.coord n).phase (s'.toC n) := by
  have hold := hS.iso (h.alive hlive)
  cases h with
  | @started _ rest hm ha hp =>
    rw [hp, hm] at hold
    rcases hold with ⟨-, he⟩ | ⟨ts, he, hts⟩
    · cases he
    · cases he
      simpa [State.setCoord, startSolving, State.pop, IsoReads] using hts
  | @delivered _ rest outgoing hm ha hp =>
    have hC := congrFun (sendFiles_same n outgoing 0 (s.pop n rest)).2.2.1 n
    simp only [State.pop, Function.update_self] at hC
    rw [hp, hm] at hold
    rcases hold with he | ⟨ts, he, hts⟩
    · cases he _ List.mem_cons_self
    · cases he
      simpa [State.setCoord, State.pop, hC, IsoReads] using hts
  | dropped _ => simp [die, State.setCoord] at hlive
  | raised _ _ => simp [raiseError, die, State.post, State.setCoord] at hlive
  | prePartitioned ha hp hF hn =>
    rw [hp] at hold
    simpa [State.post, State.setCoord, IsoReads] using .inl hold
  | done ha hp hr =>
    have hterm : ∀ m ∈ s.toC n, m = .terminateCoordinator := by
      rcases hp with hp | hp <;> (rw [hp] at hold; exact hold)
    simpa [solvingRoundDone, State.post, State.setCoord, IsoReads] using hterm
  | failed _ => simp [State.post, State.setCoord] at hlive

theorem IsoMove.balance (h : IsoMove n s l s')
    (hB : ∀ t < n, (s.coord t).alive = true → ∀ a, awaits s a t ≤ due n s a t)
    (hlive' : (s'.coord n).alive = true) :
    ∀ t < n, (s'.coord t).alive = true → ∀ a, awaits s' a t ≤ due n s' a t := by
  have hlink := fun d hd => h.link_ne (d := d) hd
  have hco : ∀ d, d ≠ n → s'.coord d = s.coord d := fun d hd => congrArg Link.co (hlink d hd)
  have hlive := h.alive hlive'
  have hidle : ∀ t, (∀ out, (s.coord n).phase ≠ .waitLeader out) → isoDue n s n t = false := by
    intro t hno
    by_contra hdue
    obtain ⟨-, out, ho, -⟩ := isoDue_iff.1 (Bool.not_eq_false _ ▸ hdue)
    exact hno out ho
  cases h with
  | @started a rest hm ha hp =>
    refine balance_iso hB hco (fun d hd => Function.update_of_ne hd _ _) hlive hlive'
      (fun _ _ _ => rfl) fun t => ?_
    rw [hidle t (by simp [hp]), hm]
    simp [State.setCoord, State.pop, L2C.transfersTo]
  | @delivered a rest outgoing hm ha hp =>
    have hsame := sendFiles_same n outgoing 0 (s.pop n rest)
    have hC : ((s.pop n rest).sendFiles n 0 outgoing).toC = Function.update s.toC n rest :=
      hsame.2.2.1
    refine balance_iso hB hco (fun d hd => ?_) hlive hlive' (fun a t han => ?_) fun t => ?_
    · show ((s.pop n rest).sendFiles n 0 outgoing).toC d = _
      rw [hC, Function.update_of_ne hd]
    · exact sendFiles_files_ne outgoing 0 (s.pop n rest) han t
    · show _ ≤ (((s.pop n rest).sendFiles n 0 outgoing).files n t).length +
        (((s.pop n rest).sendFiles n 0 outgoing).toC n).countP (L2C.transfersTo t) + _
      rw [hC, Function.update_self, hm, sendFiles_length,
        List.countP_cons_of_neg (by simp [L2C.transfersTo])]
      have hdue : (isoDue n s n t).toNat ≤ if 0 ≤ t ∧ t < 0 + outgoing.length then 1 else 0 := by
        cases hd : isoDue n s n t with
        | false => exact Nat.zero_le _
        | true =>
          obtain ⟨-, out, ho, hlt, -⟩ := isoDue_iff.1 hd
          cases hp.symm.trans ho
          rw [if_pos (by omega)]
          exact Nat.le_refl _
      have hfiles : (s.pop n rest).files = s.files := rfl
      rw [hfiles]
      omega
  | dropped _ => simp [die, State.setCoord] at hlive'
  | raised _ _ => simp [raiseError, die, State.post, State.setCoord] at hlive'
  | prePartitioned ha hp hF hn =>
    refine balance_iso hB hco (fun _ _ => rfl) hlive hlive' (fun _ _ _ => rfl) fun t => ?_
    rw [hidle t (by simp [hp])]
    exact Nat.le_add_right _ _
  | done ha hp hr =>
    refine balance_iso hB hco (fun _ _ => rfl) hlive hlive' (fun _ _ _ => rfl) fun t => ?_
    rw [hidle t (by rcases hp with hp | hp <;> simp [hp])]
    exact Nat.le_add_right _ _
  | failed _ => simp [State.post, State.setCoord] at hlive'

/-- The fields of `Supplied` after the isolated coordinator has died. -/
theorem Supplied.isoDied (hS : Supplied n s) (hB : Base n s) (hlead : s'.leader = s.leader)
    (hco : ∀ d, d ≠ n → s'.coord d = s.coord d) (hC : ∀ d, d ≠ n → s'.toC d = s.toC d)
    (hup : ∀ d, d ≠ n → s'.toL d = s.toL d) (hupn : ∀ m ∈ s'.toL n, m.isSplitReply = false)
    (hread : s'.toC n = s.toC n ∨ ∃ m, s.toC n = m :: s'.toC n)
    (hdown : L2C.terminateCoordinator ∈ s.down n → L2C.terminateCoordinator ∈ s'.down n)
    (hphase : (s'.coord n).phase = (s.coord n).phase ∧ (s'.coord n).folder = (s.coord n).folder)
    (hf : ∀ a t, (s.files a t).length ≤ (s'.files a t).length)
    (hdead : (s'.coord n).alive = false)
    (hfree : (s.coord n).alive = true →
      (s.leader.phase ≠ .waitPrePartition ∧ ∀ m ∈ s.toC n, m = .terminateCoordinator) ∨
        ∀ t < n, (s.coord t).alive = true → Unpromised n s n t) : Supplied n s' := by
  have hlive : ∀ t < n, (s'.coord t).alive = true → (s.coord t).alive = true := by
    intro t ht ha
    rw [← hco t (Nat.ne_of_lt ht)]
    exact ha
  refine ⟨hS.ended.read (Nat.le_refl n) hlead hco hC hread hdown, fun ha => ?_, fun hp => ?_,
    fun hp a hle t ht ha hoff => ?_, fun hp outgoing hout t ht hlt ha => ?_, ?_⟩
  · rw [hdead] at ha
    cases ha
  · rw [hphase.1] at hp
    rw [hphase.2]
    exact hS.folder hp
  · rw [hlead] at hp
    by_cases han : a = n
    · subst han
      obtain ⟨m, hm, ho⟩ := List.any_eq_true.1 hoff
      have := hupn m hm
      cases m with
      | splitSucceed _ _ _ => cases this
      | _ => cases ho
    · rw [hup a han] at hoff
      rw [hco a han]
      exact hS.offers hp a hle t ht (hlive t ht ha) hoff
  · rw [hlead] at hp
    rw [hphase.1] at hout
    have halive := hS.isoOffers hp outgoing hout t ht hlt (hlive t ht ha)
    rcases hfree halive with ⟨hno, -⟩ | hun
    · exact absurd hp hno
    · exact absurd hlt ((hun t ht (hlive t ht ha)).isoOffer rfl hp outgoing hout)
  · refine balance_die hS.balance hdead hco hC hf fun t ht hat halive => ?_
    rcases hfree halive with ⟨-, hterm⟩ | hun
    · refine ⟨List.countP_eq_zero.2 fun m hm => ?_, ?_⟩
      · rw [hterm m hm]
        exact Bool.false_ne_true
      · by_contra hdue
        obtain ⟨-, -, -, -, hin⟩ := isoDue_iff.1 (Bool.not_eq_false _ ▸ hdue)
        cases hterm _ hin
    · exact ⟨(hun t ht hat).transfer, (hun t ht hat).isoDue⟩

theorem IsoMove.supplied (h : IsoMove n s l s') (hstep : step n s l = some s') (hB : Base n s)
    (hS : Supplied n s)
    (hG : s'.toL n = s.toL n ++ [.notifyError] → owes n s n = false) : Supplied n s' := by
  have hlink := fun d hd => h.link_ne (d := d) hd
  have hco : ∀ d, d ≠ n → s'.coord d = s.coord d := fun d hd => congrArg Link.co (hlink d hd)
  have hup : ∀ d, d ≠ n → s'.toL d = s.toL d := fun d hd => congrArg Link.up (hlink d hd)
  have hC : ∀ d, d ≠ n → s'.toC d = s.toC d := by
    intro d hd
    have hdown : s'.down d = s.down d := congrArg Link.down (hlink d hd)
    unfold State.down at hdown
    rw [hco d hd] at hdown
    exact List.append_cancel_left hdown
  have hlead := h.leader
  have hupn := (h.base hB).isoUp
  have hdown : L2C.terminateCoordinator ∈ s.down n → L2C.terminateCoordinator ∈ s'.down n := by
    intro hin
    rcases h.link hB.drained with ⟨rest, hd, hd', -⟩ | ⟨hd, -⟩ | ⟨_, _, hd, -⟩ | ⟨_, hd, -⟩
    · rw [hd] at hin
      rw [hd']
      exact (List.mem_cons.1 hin).resolve_left nofun
    all_goals
      rw [hd]
      exact hin
  cases ha : (s'.coord n).alive with
  | false =>
    refine hS.isoDied hB hlead hco hC hup hupn h.reads hdown (h.phase_of_dead ha) ?_ ha ?_
    · intro a t
      by_cases hal : (s.coord n).alive = true
      · rw [(h.dies hstep hal ha).1]
      · cases h with
        | dropped _ => exact Nat.le_refl _
        | started _ h' _ | delivered _ h' _ | raised _ h' | prePartitioned h' _ _ _ | done h' _ _
        | failed h' => exact absurd h' hal
    · intro hal
      rcases (h.dies hstep hal ha).2 with herr | ⟨-, rest, hm⟩
      · exact .inr fun t ht hat => unpromised_of_owes (hG herr) ht hat
      · obtain ⟨hnil, o, ho⟩ := hS.ended.terminated (Nat.le_refl n) hm
        rw [hm, hnil]
        refine .inl ⟨fun hp => ?_, fun m hm => List.mem_singleton.1 hm⟩
        rw [hp] at ho
        cases ho
  | true =>
    have hlive : ∀ t < n, (s'.coord t).alive = true → (s.coord t).alive = true := by
      intro t ht hat
      rw [← hco t (Nat.ne_of_lt ht)]
      exact hat
    refine ⟨hS.ended.read (Nat.le_refl n) hlead hco hC h.reads hdown, fun _ => h.isoReads hS ha, fun hp => ?_,
      fun hp a hle t ht hat hoff => ?_, fun _ _ _ _ _ _ _ => ha, h.balance hS.balance ha⟩
    · cases h <;>
        simp_all [State.setCoord, startSolving, State.post, solvingRoundDone, raiseError, die]
    · rw [hlead] at hp
      by_cases han : a = n
      · rw [han]
        exact ha
      · rw [hup a han] at hoff
        rw [hco a han]
        exact hS.offers hp a hle t ht (hlive t ht hat) hoff

/-! ### The loop over the files raises -/

theorem sendFiles_eq (fs : List TaskFile) (i : Nat) (s : State) :
    s.sendFiles n i fs =
      { s with files := (s.sendFiles n i fs).files, sent := (s.sendFiles n i fs).sent } := by
  induction fs generalizing i s with
  | nil => rfl
  | cons f fs ih =>
    unfold State.sendFiles
    rw [ih]
    rfl

/-- But for the files, the coordinator raises as it reads the message. -/
theorem sendRaise_cases {k : Nat} (h : sendRaise n s k = some s') :
    ∃ rest F S, IsoMove n s (.coordRead n .raise) (raiseError (s.pop n rest) n .assignIsolated) ∧
      s.toC n = .assignIsolated :: rest ∧ (∀ a t, (s.files a t).length ≤ (F a t).length) ∧
      s' = { raiseError (s.pop n rest) n .assignIsolated with files := F, sent := S } := by
  unfold sendRaise at h
  split at h
  · rename_i outgoing rest ha hp hm
    split at h
    · simp only [Option.some.injEq] at h
      subst h
      refine ⟨rest, _, _, .raised hm ha, hm, fun a t => ?_, by rw [sendFiles_eq]; rfl⟩
      show _ ≤ (((s.pop n rest).sendFiles n 0 (outgoing.take k)).files a t).length
      by_cases han : a = n
      · rw [han, sendFiles_length]
        exact Nat.le_add_right _ _
      · rw [sendFiles_files_ne _ 0 (s.pop n rest) han]
        exact Nat.le_refl _
    · cases h
  · cases h

theorem sendRaise_supplied {k : Nat} (h : sendRaise n s k = some s') (hB : Base n s)
    (hS : Supplied n s) (hG : owes n s n = false) : Supplied n s' := by
  obtain ⟨rest, F, S, hmove, hm, hF, rfl⟩ := sendRaise_cases h
  have hlink := fun d hd => hmove.link_ne (d := d) hd
  have hdown : L2C.terminateCoordinator ∈ s.down n →
      L2C.terminateCoordinator ∈ (raiseError (s.pop n rest) n .assignIsolated).down n := by
    intro hin
    unfold State.down at hin ⊢
    rw [hm] at hin
    simpa [raiseError, die, State.post, State.setCoord, State.pop] using hin
  have hread : rest = s.toC n ∨ ∃ m, s.toC n = m :: rest := .inr ⟨_, hm⟩
  refine hS.isoDied hB rfl (fun d hd => congrArg Link.co (hlink d hd))
    (fun d hd => Function.update_of_ne hd _ _) (fun d hd => congrArg Link.up (hlink d hd))
    (hmove.base hB).isoUp ?_ hdown ?_ hF ?_ fun _ => .inr fun t ht hat => unpromised_of_owes hG ht hat
  · show Function.update s.toC n rest n = _ ∨ ∃ m, s.toC n = m :: Function.update s.toC n rest n
    rw [Function.update_self]
    exact hread
  · simp [raiseError, die, State.post, State.setCoord, State.pop]
  · simp [raiseError, die, State.post, State.setCoord]

end Iso

/-! ## The leader -/

section Leader

variable {n : Nat} {s s' : State} {l : Lbl}

/-- What is sent changes the balance of one pair. -/
theorem pair_of_sent (hco : s'.coord = s.coord) (hf : s'.files = s.files) {a t k : Nat}
    (hawait : (s'.toC t).countP (L2C.assignsFrom a) = (s.toC t).countP (L2C.assignsFrom a) + k)
    (hdue : (s.coord a).alive = true →
      (s.toC a).countP (L2C.transfersTo t) + k ≤ (s'.toC a).countP (L2C.transfersTo t))
    (hlive : 0 < k → (s.coord a).alive = true)
    (hiso : isoDue n s a t = true → isoDue n s' a t = true) :
    awaits s' a t + due n s a t ≤ awaits s a t + due n s' a t := by
  have hiso : (isoDue n s a t).toNat ≤ (isoDue n s' a t).toNat := by
    cases hd : isoDue n s a t with
    | false => exact Nat.zero_le _
    | true => rw [hiso hd]
  unfold awaits due
  rw [hco, hf, hawait]
  by_cases ha : (s.coord a).alive = true
  · have := hdue ha
    rw [if_pos ha, if_pos ha]
    omega
  · have hk : k = 0 := by
      by_contra hk
      exact ha (hlive (by omega))
    rw [if_neg ha, if_neg ha]
    omega

/-- The isolated coordinator has no fewer messages. -/
theorem isoDue_mono (hco : s'.coord = s.coord) (hC : ∀ m ∈ s.toC n, m ∈ s'.toC n) {a t : Nat}
    (h : isoDue n s a t = true) : isoDue n s' a t = true := by
  obtain ⟨ha, outgoing, hp, hlt, hin⟩ := isoDue_iff.1 h
  refine isoDue_iff.2 ⟨ha, outgoing, ?_, hlt, hC _ hin⟩
  rw [hco]
  exact hp

/-- The files of `pre_partition` are asked for when their receivers are told. -/
theorem balance_prePartitioned {num : Nat} {files : List TaskFile} {rest : List C2L}
    (hco : s'.coord = s.coord) (hI : IsoInv n s) (hR : RosterInv n s)
    (hS : Supplied n s) (hp : s.leader.phase = .waitPrePartition)
    (hm : s.toL n = .prePartitionDone num files :: rest)
    (hn : s'.toC n = s.toC n ++ [.assignIsolated])
    (given : ∀ c < n, c < max 1 num → s'.toC c = s.toC c ++ [.assignNode n (c + 1)])
    (kept : ∀ c < n, ¬ c < max 1 num → s'.toC c = s.toC c) :
    ∀ t < n, (s'.coord t).alive = true → ∀ a, awaits s' a t ≤ due n s' a t := by
  intro t ht ha a
  rw [hco] at ha
  have hmono : ∀ m ∈ s.toC n, m ∈ s'.toC n := fun m hin => hn ▸ List.mem_append_left _ hin
  have hquiet := (hR.quiet (.inr hp)).1 t ht
  have hempty : s.toC t = [] := (List.append_eq_nil_iff.1 hquiet.down).2
  have hwait : (s.coord t).phase.waitsFor a = false := by
    rw [show (s.coord t).phase = .idle from hquiet.phase]
    rfl
  by_cases hk : t < max 1 num
  · by_cases han : a = n
    · subst han
      obtain ⟨-, -, h₃⟩ := hI.early (.inr hp)
      obtain ⟨hout, hlen, -⟩ := h₃ num files (by rw [hm]; exact List.mem_cons_self)
      have halive := hS.isoOffers hp files hout t ht (by omega) ha
      have hdue : isoDue a s' a t = true := by
        refine isoDue_iff.2 ⟨rfl, files, ?_, by omega, ?_⟩
        · rw [hco]
          exact hout
        · rw [hn]
          exact List.mem_append_right _ (List.mem_singleton_self _)
      have hone : awaits s' a t = 1 := by
        unfold awaits
        rw [hco, given t ht hk, hempty, hwait]
        simp [L2C.assignsFrom]
      have hge : 1 ≤ due a s' a t := by
        unfold due
        rw [hco, halive, if_pos rfl, hdue]
        simp only [Bool.toNat_true]
        omega
      omega
    · have hzero : awaits s' a t = 0 := by
        unfold awaits
        rw [hco, given t ht hk, hempty, hwait]
        simp [L2C.assignsFrom, Ne.symm han]
      omega
  · have hzero : awaits s' a t = 0 := by
      unfold awaits
      rw [hco, kept t ht hk, hempty, hwait]
      rfl
    omega

theorem Effect.balance (he : Effect n s s') (hco : s'.coord = s.coord) (hf : s'.files = s.files)
    (hI : IsoInv n s) (hR : RosterInv n s) (hS : Supplied n s) :
    ∀ t < n, (s'.coord t).alive = true → ∀ a, awaits s' a t ≤ due n s' a t := by
  have hlive : ∀ t < n, (s'.coord t).alive = true → (s.coord t).alive = true := by
    intro t _ ha
    rwa [hco] at ha
  have same : s'.toC = s.toC →
      ∀ t < n, (s'.coord t).alive = true → ∀ a, awaits s' a t ≤ due n s' a t := by
    intro hC
    refine supply_of hS.balance hlive fun t _ _ a => ?_
    refine pair_of_sent (k := 0) hco hf (by rw [hC]; rfl) (fun _ => by rw [hC]; exact Nat.le_refl _)
      nofun (isoDue_mono hco fun m hin => hC ▸ hin)
  cases he with
  | booted hp hp' hn hC hL ha =>
    refine supply_of hS.balance hlive fun t ht _ a => ?_
    refine pair_of_sent (k := 0) hco hf (by rw [hC t (Nat.ne_of_lt ht)]; rfl) (fun _ => ?_) nofun
      (isoDue_mono hco fun m hin => hn ▸ List.mem_append_left _ hin)
    by_cases han : a = n
    · rw [han, hn, List.countP_append]
      exact Nat.le_add_right _ _
    · rw [hC a han]
      exact Nat.le_refl _
  | prePartitioned hp hp' hm hL hn given kept _ =>
    exact balance_prePartitioned hco hI hR hS hp hm hn (fun c hc hk => (given c hc hk).1)
      fun c hc hk => (kept c hc hk).1
  | @split src t₀ tag v f rest hp hp' hsrc ht₀ hne hm hL hC hnone hv ha =>
    have hCn : s'.toC n = s.toC n := by
      rw [hC, Function.update_of_ne (Nat.ne_of_gt hsrc), Function.update_of_ne (Nat.ne_of_gt ht₀)]
    refine supply_of hS.balance hlive fun t ht hat a => ?_
    have hdue : (s.toC a).countP (L2C.transfersTo t) + (if a = src ∧ t = t₀ then 1 else 0) ≤
        (s'.toC a).countP (L2C.transfersTo t) := by
      rw [hC]
      by_cases has : a = src
      · subst has
        rw [Function.update_self, List.countP_append, List.countP_singleton]
        by_cases htt : t = t₀ <;> simp [L2C.transfersTo, htt]
      · rw [Function.update_of_ne has, if_neg fun h => has h.1]
        by_cases hat' : a = t₀
        · subst hat'
          rw [Function.update_self, List.countP_append]
          exact Nat.le_add_right _ _
        · rw [Function.update_of_ne hat']
          exact Nat.le_refl _
    refine pair_of_sent (k := if a = src ∧ t = t₀ then 1 else 0) hco hf ?_ (fun _ => hdue) ?_
      (isoDue_mono hco fun m hin => hCn ▸ hin)
    · rw [hC]
      by_cases hts : t = src
      · subst hts
        rw [Function.update_self, List.countP_append, if_neg fun h => hne h.2]
        rfl
      · rw [Function.update_of_ne hts]
        by_cases htt : t = t₀
        · subst htt
          rw [Function.update_self, List.countP_append, List.countP_singleton]
          by_cases has : a = src
          · simp [L2C.assignsFrom, has]
          · simp [L2C.assignsFrom, has, Ne.symm has]
        · rw [Function.update_of_ne htt, if_neg fun h => htt h.2]
          rfl
    · intro hpos
      by_cases hpair : a = src ∧ t = t₀
      · obtain ⟨rfl, rfl⟩ := hpair
        refine hS.offers hp a (Nat.le_of_lt hsrc) t ht (hlive t ht hat) ?_
        rw [hm]
        simp [C2L.offersTo]
      · rw [if_neg hpair] at hpos
        omega
  | @requested c t₀ tag hp hp' hc hC hL ha =>
    have hcount : ∀ (p : L2C → Bool) d, p (.requestSplit t₀ tag) = false →
        (s'.toC d).countP p = (s.toC d).countP p := by
      intro p d hno
      rw [hC]
      by_cases hdc : d = c
      · subst hdc
        rw [Function.update_self, List.countP_append, List.countP_singleton, hno]
        rfl
      · rw [Function.update_of_ne hdc]
    have hCn : s'.toC n = s.toC n := by
      rw [hC, Function.update_of_ne (Nat.ne_of_gt hc)]
    refine supply_of hS.balance hlive fun t _ _ a => ?_
    exact pair_of_sent (k := 0) hco hf (hcount _ t rfl) (fun _ => Nat.le_of_eq (hcount _ a rfl).symm)
      nofun (isoDue_mono hco fun m hin => hCn ▸ hin)
  | solved hp hp' hsrc hm hL hC ha => exact same hC
  | read hp hm hL hC ha => exact same hC
  | idle hp hL hC ha => exact same hC

theorem Effect.phase (he : Effect n s s') (hrun : ∀ o, s.leader.phase ≠ .stopped o) :
    ∀ o, s'.leader.phase ≠ .stopped o := by
  intro o ho
  cases he with
  | booted hp hp' _ _ _ _ | split hp hp' _ _ _ _ _ _ _ _ _ | solved hp hp' _ _ _ _ _
  | requested hp hp' _ _ _ _ | prePartitioned hp hp' _ _ _ _ _ _ =>
    rw [hp'] at ho
    cases ho
  | read hp _ _ _ _ | idle hp _ _ _ =>
    rw [← hp] at ho
    exact hrun o ho

theorem Effect.noTerminate (he : Effect n s s') {c : Nat} (hc : c ≤ n)
    (h : L2C.terminateCoordinator ∉ s.toC c) : L2C.terminateCoordinator ∉ s'.toC c := by
  have sent : ∀ m, m ≠ L2C.terminateCoordinator → L2C.terminateCoordinator ∉ s.toC c ++ [m] :=
    fun m hm hin => (List.mem_append.1 hin).elim h fun hin => hm (List.mem_singleton.1 hin).symm
  cases he with
  | booted hp hp' hn hC hL ha =>
    by_cases hcn : c = n
    · subst hcn
      rw [hn]
      exact sent _ nofun
    · rw [hC c hcn]
      exact h
  | @prePartitioned num files rest hp hp' hm hL hn given kept _ =>
    by_cases hcn : c = n
    · subst hcn
      rw [hn]
      exact sent _ nofun
    · by_cases hk : c < max 1 num
      · rw [(given c (by omega) hk).1]
        exact sent _ nofun
      · rw [(kept c (by omega) hk).1]
        exact h
  | @split src t tag v f rest hp hp' hsrc ht hne hm hL hC hnone hv ha =>
    rw [hC]
    by_cases hcs : c = src
    · subst hcs
      rw [Function.update_self]
      exact sent _ nofun
    · rw [Function.update_of_ne hcs]
      by_cases hct : c = t
      · subst hct
        rw [Function.update_self]
        exact sent _ nofun
      · rw [Function.update_of_ne hct]
        exact h
  | @requested d t tag hp hp' hd hC hL ha =>
    rw [hC]
    by_cases hcd : c = d
    · subst hcd
      rw [Function.update_self]
      exact sent _ nofun
    · rw [Function.update_of_ne hcd]
      exact h
  | solved _ _ _ _ _ hC _ | read _ _ _ hC _ | idle _ _ hC _ =>
    rw [hC]
    exact h

/-- Nobody is told anything beyond the isolated coordinator. -/
theorem Effect.beyond (he : Effect n s s') (h : ∀ c, n < c → s.toC c = []) :
    ∀ c, n < c → s'.toC c = [] := by
  intro c hc
  rw [← h c hc]
  cases he with
  | booted _ _ _ hC _ _ => exact hC c (Nat.ne_of_gt hc)
  | prePartitioned _ _ _ _ _ _ _ hbeyond => exact hbeyond c hc
  | split _ _ hsrc ht _ _ _ hC _ _ _ =>
    rw [hC, Function.update_of_ne (by omega), Function.update_of_ne (by omega)]
  | requested _ _ hd hC _ _ => rw [hC, Function.update_of_ne (by omega)]
  | solved _ _ _ _ _ hC _ | read _ _ _ hC _ | idle _ _ hC _ => rw [hC]

/-- The channel to the isolated coordinator. -/
theorem Effect.isoReads (he : Effect n s s') (hco : s'.coord = s.coord) (hI : IsoInv n s)
    (hS : Supplied n s) (hrun : ∀ o, s.leader.phase ≠ .stopped o)
    (ha : (s'.coord n).alive = true) : IsoReads s' (s'.coord n).phase (s'.toC n) := by
  rw [hco] at ha ⊢
  have hold := hS.iso ha
  have kept : s'.toC n = s.toC n → (s.leader.phase = .boot → s'.leader.phase = .boot) →
      IsoReads s' (s.coord n).phase (s'.toC n) := by
    intro hC hb
    rw [hC]
    unfold IsoReads at hold ⊢
    cases hp : (s.coord n).phase with
    | boot =>
      rw [hp] at hold
      exact hold.imp_left (And.imp_left hb)
    | _ =>
      rw [hp] at hold
      exact hold
  cases he with
  | booted hp hp' hn hC hL _ =>
    obtain ⟨hph, hd⟩ := hI.boot hp
    rw [hn, hph, (List.append_eq_nil_iff.1 hd).2]
    exact .inr ⟨[], rfl, fun m hm => (List.not_mem_nil hm).elim⟩
  | @prePartitioned num files rest hp hp' hm hL hn given _ _ =>
    obtain ⟨h₁, -, h₃⟩ := hI.early (.inr hp)
    have hout := (h₃ num files (by rw [hm]; exact List.mem_cons_self)).1
    rw [hout] at hold h₁ ⊢
    have hempty : s.toC n = [] := by
      rcases hold with hterm | ⟨ts, hts, -⟩
      · refine List.eq_nil_iff_forall_not_mem.2 fun m hin => ?_
        refine hS.ended.running hrun n (Nat.le_refl n) ?_
        rw [← hterm m hin]
        exact hin
      · unfold State.down at h₁
        rw [hts, List.countP_append, List.countP_cons_of_pos rfl] at h₁
        simp at h₁
    rw [hn, hempty]
    exact .inr ⟨[], rfl, fun m hm => (List.not_mem_nil hm).elim⟩
  | split hp hp' hsrc ht _ _ _ hC _ _ _ =>
    refine kept ?_ fun hb => ?_
    · rw [hC, Function.update_of_ne (Nat.ne_of_gt hsrc), Function.update_of_ne (Nat.ne_of_gt ht)]
    · rw [hp] at hb
      cases hb
  | requested hp hp' hc hC _ _ =>
    refine kept ?_ fun hb => ?_
    · rw [hC, Function.update_of_ne (Nat.ne_of_gt hc)]
    · rw [hp] at hb
      cases hb
  | solved hp hp' _ _ _ hC _ =>
    refine kept (by rw [hC]) fun hb => ?_
    rw [hp] at hb
    cases hb
  | read hp _ _ hC _ | idle hp _ hC _ => exact kept (by rw [hC]) fun hb => hp ▸ hb

theorem Effect.supplied (he : Effect n s s') (hcoords : OnlyReads s s') (hB : Base n s)
    (hI : IsoInv n s) (hR : RosterInv n s) (hS : Supplied n s)
    (hrun : ∀ o, s.leader.phase ≠ .stopped o) : Supplied n s' := by
  have hco := hcoords.coord
  have hrun' := he.phase hrun
  have hterm : ∀ c ≤ n, L2C.terminateCoordinator ∉ s'.toC c :=
    fun c hc => he.noTerminate hc (hS.ended.running hrun c hc)
  have hoff : ∀ a t, (s'.toL a).any (C2L.offersTo t) = true →
      (s.toL a).any (C2L.offersTo t) = true := by
    intro a t h
    obtain ⟨m, hm, ho⟩ := List.any_eq_true.1 h
    exact List.any_eq_true.2 ⟨m, hcoords.mem hm, ho⟩
  have main : s.leader.phase = .main → ∀ a ≤ n, ∀ t < n, (s'.coord t).alive = true →
      (s'.toL a).any (C2L.offersTo t) = true → (s'.coord a).alive = true := by
    intro hp a hle t ht ha ho
    rw [hco] at ha ⊢
    exact hS.offers hp a hle t ht ha (hoff a t ho)
  refine ⟨⟨fun c hc hin => hterm c hc (List.mem_of_mem_dropLast hin), fun _ => hterm,
    fun o ho => absurd ho (hrun' o), he.beyond hS.ended.beyond⟩, he.isoReads hco hI hS hrun, fun hp => ?_,
    fun hp' a hle t ht ha ho => ?_, fun hp' outgoing hout t ht hlt ha => ?_,
    he.balance hco hcoords.files hI hR hS⟩
  · rw [hco] at hp ⊢
    exact hS.folder hp
  · cases he with
    | prePartitioned hp _ _ _ _ _ _ _ =>
      -- nobody has been asked for a split yet
      obtain ⟨m, hm, hof⟩ := List.any_eq_true.1 (hoff a t ho)
      exfalso
      rcases Nat.lt_or_eq_of_le hle with hlt | rfl
      · have := ((hR.quiet (.inr hp)).1 a hlt).up m hm
        rw [this] at hof
        cases hof
      · have := hB.isoUp m hm
        cases m with
        | splitSucceed _ _ _ => cases this
        | _ => cases hof
    | booted _ hp'' _ _ _ _ =>
      rw [hp''] at hp'
      cases hp'
    | split hp _ _ _ _ _ _ _ _ _ _ | solved hp _ _ _ _ _ _ | requested hp _ _ _ _ _ =>
      exact main hp a hle t ht ha ho
    | read hp _ _ _ _ | idle hp _ _ _ => exact main (hp.trans hp') a hle t ht ha ho
  · rw [hco] at hout ha ⊢
    cases he with
    | booted hp _ _ _ _ _ =>
      rw [(hI.boot hp).1] at hout
      cases hout
    | split _ hp'' _ _ _ _ _ _ _ _ _ | solved _ hp'' _ _ _ _ _ | requested _ hp'' _ _ _ _
    | prePartitioned _ hp'' _ _ _ _ _ _ =>
      rw [hp''] at hp'
      cases hp'
    | read hp _ _ _ _ | idle hp _ _ _ =>
      exact hS.isoOffers (hp.trans hp') outgoing hout t ht hlt ha

/-- The shutdown. -/
theorem Supplied.stop (hS : Supplied n s) (hrun : ∀ o, s.leader.phase ≠ .stopped o)
    (hboot : s.leader.phase ≠ .boot) (o : Outcome) : Supplied n (s.stop n o) := by
  have hC : ∀ c ≤ n, (s.stop n o).toC c = s.toC c ++ [.terminateCoordinator] := by
    intro c hc
    rw [State.stop, terminateCoordinators_eq]
    exact if_pos (Nat.lt_succ_of_le hc)
  have hC' : ∀ c, n < c → (s.stop n o).toC c = s.toC c := by
    intro c hc
    rw [State.stop, terminateCoordinators_eq]
    exact if_neg (by omega)
  have hco : (s.stop n o).coord = s.coord := stop_coord n s o
  have hf : (s.stop n o).files = s.files := (stop_same s o).files
  have hph := stop_phase n s o
  refine ⟨⟨fun c hc => ?_, fun hr => absurd hph (hr o), fun _ _ c hc => ?_, fun c hc => ?_⟩, fun ha => ?_,
    fun hp => ?_, fun hp => ?_, fun hp => ?_, ?_⟩
  · rw [hC c hc]
    exact dropLast_append (hS.ended.running hrun c hc)
  · unfold State.down
    rw [hC c hc, ← List.append_assoc]
    exact List.mem_append_right _ (List.mem_singleton_self _)
  · rw [hC' c hc]
    exact hS.ended.beyond c hc
  · rw [hco] at ha ⊢
    have hold := hS.iso ha
    have hsnoc : ∀ ms : List L2C, (∀ m ∈ ms, m = .terminateCoordinator) →
        ∀ m ∈ ms ++ [L2C.terminateCoordinator], m = .terminateCoordinator := by
      intro ms h m hm
      exact (List.mem_append.1 hm).elim (h m) List.mem_singleton.1
    rw [hC n (Nat.le_refl n)]
    cases hp : (s.coord n).phase with
    | boot =>
      rw [hp] at hold
      rcases hold with ⟨hb, -⟩ | ⟨ts, hts, hterm⟩
      · exact absurd hb hboot
      · exact .inr ⟨ts ++ [.terminateCoordinator], by rw [hts]; rfl, hsnoc ts hterm⟩
    | waitLeader _ =>
      rw [hp] at hold
      rcases hold with hterm | ⟨ts, hts, hterm⟩
      · exact .inl (hsnoc _ hterm)
      · exact .inr ⟨ts ++ [.terminateCoordinator], by rw [hts]; rfl, hsnoc ts hterm⟩
    | receiving _ _ =>
      rw [hp] at hold
      exact hold
    | idle | solving | prePartition =>
      rw [hp] at hold
      exact hsnoc _ hold
  · rw [hco] at hp ⊢
    exact hS.folder hp
  · rw [hph] at hp
    cases hp
  · rw [hph] at hp
    cases hp
  · have hcount : ∀ (p : L2C → Bool) c, p .terminateCoordinator = false →
        ((s.stop n o).toC c).countP p = (s.toC c).countP p := by
      intro p c hno
      rcases Nat.lt_or_ge n c with hc | hc
      · rw [hC' c hc]
      · rw [hC c hc, List.countP_append, List.countP_singleton, hno]
        rfl
    refine supply_of hS.balance (fun t _ ha => by rwa [hco] at ha) fun t _ _ a => ?_
    refine pair_of_sent (k := 0) hco hf (hcount _ t rfl)
      (fun _ => Nat.le_of_eq (hcount _ a rfl).symm) (by simp) (isoDue_mono hco fun m hin => ?_)
    rw [hC n (Nat.le_refl n)]
    exact List.mem_append_left _ hin

theorem LeaderMove.supplied (h : LeaderMove n s l s') (hB : Base n s) (hI : IsoInv n s)
    (hR : RosterInv n s) (hF : ∀ c < n, Life (s.link c)) (hS : Supplied n s) : Supplied n s' := by
  have hrun := h.running
  have hcoords := h.coords
  obtain ⟨s₁, he, rfl | ⟨hp, o, rfl⟩⟩ := h.effect hB hR hF
  · exact he.supplied hcoords hB hI hR hS hrun
  · have hsame := stop_same (n := n) s₁ o
    have hcoords₁ : OnlyReads s s₁ :=
      ⟨hsame.coord.symm.trans hcoords.coord, by rw [← hsame.toL]; exact hcoords.toL,
        hsame.files.symm.trans hcoords.files, hsame.sent.symm.trans hcoords.sent,
        hsame.received.symm.trans hcoords.received⟩
    refine (he.supplied hcoords₁ hB hI hR hS hrun).stop (he.phase hrun) (fun hb => ?_) o
    cases he with
    | booted _ hp' _ _ _ _ | prePartitioned _ hp' _ _ _ _ _ _ | split _ hp' _ _ _ _ _ _ _ _ _
    | solved _ hp' _ _ _ _ _ | requested _ hp' _ _ _ _ =>
      rw [hp'] at hb
      cases hb
    | read hq _ _ _ _ | idle hq _ _ _ =>
      rw [hq, hb] at hp
      rcases hp with hp | hp <;> cases hp

theorem supplied_init (n : Nat) : Supplied n (init n) := by
  refine ⟨⟨fun _ _ => List.not_mem_nil, fun _ _ _ => List.not_mem_nil, nofun, fun _ _ => rfl⟩,
    fun _ => ?_,
    fun hp => ?_, nofun, nofun, fun t ht _ a => ?_⟩
  · have hp : ((init n).coord n).phase = .boot := by simp [init, initCoord]
    rw [hp]
    exact .inl ⟨rfl, rfl⟩
  · simp [init, initCoord] at hp
  · have hp : ((init n).coord t).phase = .idle := by simp [init, initCoord, Nat.ne_of_lt ht]
    unfold awaits
    rw [hp]
    exact Nat.zero_le _

end Leader

end AriParti.L4
