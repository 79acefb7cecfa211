import AriParti.L4Cluster.SplitState

/-!
# What one mutable field names

A coordinator keeps the node to give away in the single field `split_node`,
and the folder its task file lies in in another. Between `split_succeed` and
`transfer_node` the round may end, and further requests may arrive. In a run
without stale refusals the fields still name the reported file when the
transfer message is read: between the two messages the coordinator reads
nothing else (`HandInv`).

## Results

* `HandInv.coordStep`, `HandInv.leaderStep`: both sides keep it.
-/
namespace AriParti.L4
open AriParti.Core AriParti.L3

/-- `split_node` and `solving_folder_path` of coordinator `c` name the file `f`. -/
def Link.Names (l : Link) (c : Nat) (f : TaskFile) : Prop :=
  ∃ pid F, l.co.splitNode = some pid ∧ l.co.folder = some F ∧ F.task c pid = f

/-- The coordinator has read, or will read, the assignment of node `v` with the
file to come from `a`. -/
def Link.Expects (l : Link) (a v : Nat) : Prop :=
  L2C.assignNode a v ∈ l.down ∨ l.co.phase = .receiving a v

structure HandInv (c : Nat) (l : Link) : Prop where
  plain : L2C.assignIsolated ∉ l.down
  /-- A transfer is the next message the coordinator reads. -/
  head : ∀ t v f, L2C.transferNode t v f ∉ l.down.tail
  /-- After a reported split nothing is on the way until the leader has read it. -/
  reported : ∀ t tag f, C2L.splitSucceed t tag f ∈ l.up →
    (∀ m ∈ l.down, m = .terminateCoordinator) ∧ l.Names c f
  transfer : ∀ t v f, L2C.transferNode t v f ∈ l.down →
    l.Names c f ∧ (l.co.phase = .idle ∨ l.co.phase = .solving) ∧
      ∀ m ∈ l.up, m.isSucceed = false
  awaiting : ∀ a v, l.Expects a v → l.info.assigned = some v

theorem QuietLink.handInv {c : Nat} {l : Link} (h : QuietLink l) : HandInv c l := by
  refine ⟨?_, ?_, ?_, ?_, ?_⟩
  · rw [h.down]; exact List.not_mem_nil
  · rw [h.down]; exact fun _ _ _ => List.not_mem_nil
  · intro t tag f hm; cases h.up _ hm
  · rw [h.down]; exact fun _ _ _ hm => (List.not_mem_nil hm).elim
  · rintro a v (hm | hp)
    · rw [h.down] at hm; cases hm
    · rw [h.phase] at hp; cases hp

section

variable {c : Nat} {l l' : Link}

theorem isSucceed_iff {m : C2L} : m.isSucceed = true ↔ ∃ t tag f, m = .splitSucceed t tag f := by
  cases m <;> simp [C2L.isSucceed]

/-- At most one request of the current round is unanswered. -/
theorem LinkInv.outstanding_le (h : LinkInv l) (ha : l.info.assigned ≠ none) :
    l.outstanding ≤ 1 := by
  rw [h.split ha]; split <;> omega

/-- A coordinator that answers a request while solving has no other reply to a
request of its round under way, and reads no other such request. -/
theorem LinkInv.sole_request (h : LinkInv l) {t tag : Nat} {rest : List L2C}
    (hm : l.down = .requestSplit t tag :: rest) (hp : l.co.phase = .solving) :
    (∀ m ∈ l.up, m.isSucceed = false) ∧ (∀ t' tag', L2C.requestSplit t' tag' ∉ rest) ∧
      rest.countP L2C.isAssign = 0 := by
  have hbusy : l.busy = true := by simp [Link.busy, hp]
  have hwork := h.work
  have hle := l.isAssigned_le
  rw [hbusy, Bool.toNat_true] at hwork
  have hne : l.info.assigned ≠ none := fun ha => by
    rw [(h.unassigned ha).2.1] at hbusy
    cases hbusy
  have hnoAssign : l.down.countP L2C.isAssign = 0 := by omega
  have hcur := h.current
  rw [hbusy] at hcur
  have htags : ∀ t tag, L2C.requestSplit t tag ∈ l.down → tag = l.info.solvingRound :=
    fun t tag hin => hcur.request hnoAssign hin
  have hout := h.outstanding_le hne
  have hmine : L2C.asksIn l.info.solvingRound (.requestSplit t tag) = true := by
    simp [L2C.asksIn, htags t tag (by rw [hm]; exact List.mem_cons_self)]
  simp only [Link.outstanding, Link.outstandingIn, hm, List.countP_cons, hmine, if_true] at hout
  refine ⟨fun m hin => ?_, fun t' tag' hin => ?_, ?_⟩
  · by_contra hs
    obtain ⟨t', tag', f, rfl⟩ := isSucceed_iff.1 (by simpa using hs)
    have hpos : 0 < l.up.countP (C2L.answersIn l.info.solvingRound) :=
      List.countP_pos_iff.2 ⟨_, hin, by simp [C2L.answersIn, (h.succeed t' tag' f hin).1]⟩
    omega
  · have hpos : 0 < rest.countP (L2C.asksIn l.info.solvingRound) :=
      List.countP_pos_iff.2 ⟨_, hin, by
        simp [L2C.asksIn, htags t' tag' (by rw [hm]; exact List.mem_cons_of_mem _ hin)]⟩
    omega
  · rw [hm, List.countP_cons] at hnoAssign
    omega

/-- The leader waits for one answer while a reported split is under way. -/
theorem LinkInv.reported_status (h : LinkInv l) {t tag : Nat} {f : TaskFile}
    (hm : C2L.splitSucceed t tag f ∈ l.up) :
    l.info.status = .splitting ∧ l.outstanding = 1 := by
  have hne := h.succeed_assigned hm
  have hpos : 0 < l.up.countP (C2L.answersIn l.info.solvingRound) :=
    List.countP_pos_iff.2 ⟨_, hm, by simp [C2L.answersIn, (h.succeed t tag f hm).1]⟩
  have hs := h.split hne
  have ho : 0 < l.outstanding := by simp only [Link.outstanding, Link.outstandingIn]; omega
  by_cases hsp : l.info.status = .splitting
  · exact ⟨hsp, by rw [hs, if_pos hsp]⟩
  · rw [if_neg hsp] at hs; omega

/-- A coordinator that reported a split does not wait for a file. -/
theorem LinkInv.reported_phase (h : LinkInv l) {t tag : Nat} {f : TaskFile}
    (hm : C2L.splitSucceed t tag f ∈ l.up) : l.co.phase = .idle ∨ l.co.phase = .solving := by
  rcases (h.succeed t tag f hm).2 with hp | hn
  · exact .inr hp
  · rcases h.phase with hp | ⟨a, v, hp⟩ | hp
    · exact .inl hp
    · have hwork := h.work
      have hle := l.isAssigned_le
      have hbusy : l.busy = true := by simp [Link.busy, hp]
      rw [hbusy, Bool.toNat_true] at hwork
      omega
    · exact .inr hp

/-- A coordinator keeps the invariant. -/
theorem HandInv.coordStep (h : HandInv c l) (hL : LinkInv l) (hs : CoordStep c l l') :
    HandInv c l' := by
  have htail : ∀ {m : L2C} {rest : List L2C}, l.down = m :: rest →
      ∀ t v f, L2C.transferNode t v f ∉ rest := fun hd t v f hin => by
    have := h.head t v f
    rw [hd] at this
    exact this hin
  cases hs with
  | @declined t tag rest hm hp =>
    have hrest : ∀ m, m ∈ rest → m ∈ l.down := fun m hin => by
      rw [hm]; exact List.mem_cons_of_mem _ hin
    refine ⟨fun hin => h.plain (hrest _ hin),
      fun t v f hin => htail hm t v f (List.mem_of_mem_tail hin), ?_,
      fun t v f hin => (htail hm t v f hin).elim, ?_⟩
    · intro t' tag' f hin
      rcases List.mem_append.1 hin with hin | hin
      · obtain ⟨h1, h2⟩ := h.reported t' tag' f hin
        exact ⟨fun m hm' => h1 m (hrest m hm'), h2⟩
      · cases List.mem_singleton.1 hin
    · exact fun a v he => h.awaiting a v (he.imp_left (hrest _))
  | @granted t tag pid rest F hm hp hF =>
    obtain ⟨hup, hreq, hassign⟩ := hL.sole_request hm hp
    have hrest : ∀ m, m ∈ rest → m ∈ l.down := fun m hin => by
      rw [hm]; exact List.mem_cons_of_mem _ hin
    refine ⟨fun hin => h.plain (hrest _ hin),
      fun t v f hin => htail hm t v f (List.mem_of_mem_tail hin), ?_,
      fun t v f hin => (htail hm t v f hin).elim, ?_⟩
    · intro t' tag' f hin
      rcases List.mem_append.1 hin with hin | hin
      · cases hup _ hin
      · cases List.mem_singleton.1 hin
        refine ⟨fun m hin => ?_, pid, F, rfl, hF, rfl⟩
        cases m with
        | requestSplit t' tag' => exact (hreq t' tag' hin).elim
        | transferNode t' v f => exact (htail hm t' v f hin).elim
        | assignNode a v => exact absurd rfl (List.countP_eq_zero.1 hassign _ hin)
        | assignIsolated => exact (h.plain (hrest _ hin)).elim
        | terminateCoordinator => rfl
    · exact fun a v he => h.awaiting a v (he.imp_left (hrest _))
  | @transferred t v f rest hm hp =>
    have hrest : ∀ m, m ∈ rest → m ∈ l.down := fun m hin => by
      rw [hm]; exact List.mem_cons_of_mem _ hin
    obtain ⟨-, -, hup⟩ := h.transfer t v f (by rw [hm]; exact List.mem_cons_self)
    refine ⟨fun hin => h.plain (hrest _ hin),
      fun t v f hin => htail hm t v f (List.mem_of_mem_tail hin),
      fun t' tag' f' hin => ?_, fun t v f hin => (htail hm t v f hin).elim,
      fun a v he => h.awaiting a v (he.imp_left (hrest _))⟩
    cases hup _ hin
  | @assigned src v rest hm hp =>
    have hrest : ∀ m, m ∈ rest → m ∈ l.down := fun m hin => by
      rw [hm]; exact List.mem_cons_of_mem _ hin
    refine ⟨fun hin => h.plain (hrest _ hin),
      fun t v f hin => htail hm t v f (List.mem_of_mem_tail hin), fun t' tag' f' hin => ?_,
      fun t v f hin => (htail hm t v f hin).elim, ?_⟩
    · have := (h.reported t' tag' f' hin).1 (.assignNode src v) (by rw [hm]; exact List.mem_cons_self)
      cases this
    · rintro a w (hin | hph)
      · exact h.awaiting a w (.inl (hrest _ hin))
      · cases hph
        exact h.awaiting src v (.inl (by rw [hm]; exact List.mem_cons_self))
  | @died d up hu =>
    have hmem : ∀ m, m ∈ up → m ∈ l.up ∨ m = .notifyError := by
      intro m hin
      rcases hu with rfl | rfl
      · exact .inl hin
      · exact (List.mem_append.1 hin).imp_right List.mem_singleton.1
    refine ⟨h.plain, h.head, fun t tag f hin => h.reported t tag f ((hmem _ hin).resolve_right nofun),
      fun t v f hin => ?_, h.awaiting⟩
    obtain ⟨h1, h2, h3⟩ := h.transfer t v f hin
    refine ⟨h1, h2, fun m hin => ?_⟩
    rcases hmem m hin with hin | rfl
    · exact h3 m hin
    · rfl
  | @received src v f hp =>
    refine ⟨h.plain, h.head, fun t tag f' hin => ?_, fun t w f' hin => ?_, ?_⟩
    · rcases hL.reported_phase hin with hp' | hp' <;> (rw [hp] at hp'; cases hp')
    · rcases (h.transfer t w f' hin).2.1 with hp' | hp' <;> (rw [hp] at hp'; cases hp')
    · rintro a w (hin | hph)
      · exact h.awaiting a w (.inl hin)
      · cases hph
  | @done r hp hr =>
    refine ⟨h.plain, h.head, fun t tag f hin => ?_, fun t v f hin => ?_, ?_⟩
    · rcases List.mem_append.1 hin with hin | hin
      · exact h.reported t tag f hin
      · cases List.mem_singleton.1 hin
    · obtain ⟨h1, -, h3⟩ := h.transfer t v f hin
      refine ⟨h1, .inl rfl, fun m hin => ?_⟩
      rcases List.mem_append.1 hin with hin | hin
      · exact h3 m hin
      · rw [List.mem_singleton.1 hin]; rfl
    · rintro a w (hin | hph)
      · exact h.awaiting a w (.inl hin)
      · cases hph

/-- A message that is neither a transfer nor an assignment may be appended as
long as no reported split is under way. -/
theorem HandInv.append (h : HandInv c l) {m : L2C} (hiso : m ≠ .assignIsolated)
    (htr : ∀ t v f, m ≠ .transferNode t v f) (has : ∀ a v, m ≠ .assignNode a v)
    (hu : m = .terminateCoordinator ∨ ∀ x ∈ l.up, x.isSucceed = false) :
    HandInv c { l with down := l.down ++ [m] } := by
  have hmem : ∀ x, x ∈ l.down ++ [m] → x ∈ l.down ∨ x = m := fun x hin =>
    (List.mem_append.1 hin).imp_right List.mem_singleton.1
  refine ⟨fun hin => ?_, fun t v f hin => ?_, fun t tag f hin => ?_, fun t v f hin => ?_, ?_⟩
  · rcases hmem _ hin with hin | rfl
    · exact h.plain hin
    · exact hiso rfl
  · cases hd : l.down with
    | nil =>
      rw [hd] at hin
      cases hin
    | cons m' rest =>
      rw [hd] at hin
      rcases List.mem_append.1 hin with hin | hin
      · have := h.head t v f
        rw [hd] at this
        exact this hin
      · exact htr t v f (List.mem_singleton.1 hin).symm
  · obtain ⟨h1, h2⟩ := h.reported t tag f hin
    refine ⟨fun x hx => ?_, h2⟩
    rcases hmem x hx with hx | rfl
    · exact h1 x hx
    · rcases hu with hu | hu
      · exact hu
      · cases hu _ hin
  · rcases hmem _ hin with hin | hin
    · exact h.transfer t v f hin
    · exact (htr t v f hin.symm).elim
  · rintro a v (hin | hp)
    · rcases hmem _ hin with hin | hin
      · exact h.awaiting a v (.inl hin)
      · exact (has a v hin.symm).elim
    · exact h.awaiting a v (.inr hp)

/-- Reading a message, with a change of the leader's record that keeps the
assigned node. -/
theorem HandInv.pop (h : HandInv c l) {m : C2L} {rest : List C2L} (hu : l.up = m :: rest)
    (info : CoordinatorInfo) (hi : info.assigned = l.info.assigned) :
    HandInv c { l with info := info, up := rest } := by
  have hin : ∀ x, x ∈ rest → x ∈ l.up := fun x hx => by rw [hu]; exact List.mem_cons_of_mem _ hx
  refine ⟨h.plain, h.head, fun t tag f hx => h.reported t tag f (hin _ hx), fun t v f hx => ?_,
    fun a v he => hi.trans (h.awaiting a v he)⟩
  obtain ⟨h1, h2, h3⟩ := h.transfer t v f hx
  exact ⟨h1, h2, fun x hx => h3 x (hin x hx)⟩

/-- The leader keeps the invariant. -/
theorem HandInv.leaderStep {halt : Prop} (h : HandInv c l) (hL : LinkInv l)
    (hs : LeaderStep halt l l') : HandInv c l' := by
  cases hs with
  | same => exact h
  | @requested t hs =>
    have hup : ∀ x ∈ l.up, x.isSucceed = false := by
      intro x hx
      by_contra hsucc
      obtain ⟨t', tag, f, rfl⟩ := isSucceed_iff.1 (by simpa using hsucc)
      have := (hL.reported_status hx).1
      rw [hs] at this
      cases this
    have := h.append (m := .requestSplit t l.info.solvingRound) (by simp) (by simp) (by simp) (.inr hup)
    exact ⟨this.plain, this.head, this.reported, this.transfer, this.awaiting⟩
  | @assigned src v ha =>
    obtain ⟨h1, h2, h3⟩ := hL.unassigned ha
    have hno : ∀ t tag f, C2L.splitSucceed t tag f ∉ l.up := fun t tag f hm =>
      hL.succeed_assigned hm ha
    have hmem : ∀ x, x ∈ l.down ++ [.assignNode src v] → x ∈ l.down ∨ x = .assignNode src v :=
      fun x hin => (List.mem_append.1 hin).imp_right List.mem_singleton.1
    refine ⟨fun hin => ?_, fun t w f hin => ?_, fun t tag f hin => (hno t tag f hin).elim,
      fun t w f hin => ?_, ?_⟩
    · rcases hmem _ hin with hin | hin
      · exact h.plain hin
      · cases hin
    · cases hd : l.down with
      | nil =>
        rw [hd] at hin
        cases hin
      | cons m' rest =>
        rw [hd] at hin
        rcases List.mem_append.1 hin with hin | hin
        · have := h.head t w f
          rw [hd] at this
          exact this hin
        · cases List.mem_singleton.1 hin
    · exact h.transfer t w f ((hmem _ hin).resolve_right (by simp))
    · rintro a w (hin | hp)
      · rcases hmem _ hin with hin | hin
        · exact absurd rfl (List.countP_eq_zero.1 h1 _ hin)
        · cases hin; rfl
      · have hp : l.co.phase = .receiving a w := hp
        simp [Link.busy, hp] at h2
  | @accepted t tag v f rest hu hs hd =>
    have hmem : C2L.splitSucceed t tag f ∈ l.up := by rw [hu]; exact List.mem_cons_self
    obtain ⟨hdown, hnames⟩ := h.reported t tag f hmem
    have hnil : l.down = [] := by
      refine List.eq_nil_iff_forall_not_mem.2 fun m hm => ?_
      rw [hdown m hm] at hm
      exact hd hm
    have hrest : ∀ x ∈ rest, x.isSucceed = false := by
      intro x hx
      by_contra hsucc
      obtain ⟨t', tag', f', rfl⟩ := isSucceed_iff.1 (by simpa using hsucc)
      have ho := (hL.reported_status hmem).2
      have hx' : C2L.splitSucceed t' tag' f' ∈ l.up := by rw [hu]; exact List.mem_cons_of_mem _ hx
      have h1 : 0 < rest.countP (C2L.answersIn l.info.solvingRound) :=
        List.countP_pos_iff.2 ⟨_, hx, by simp [C2L.answersIn, (hL.succeed t' tag' f' hx').1]⟩
      have h2 : C2L.answersIn l.info.solvingRound (.splitSucceed t tag f) = true := by
        simp [C2L.answersIn, (hL.succeed t tag f hmem).1]
      simp only [Link.outstanding, Link.outstandingIn, hu, List.countP_cons, h2, if_true] at ho
      omega
    have hone : l.down ++ [L2C.transferNode t v f] = [L2C.transferNode t v f] := by rw [hnil]; rfl
    refine ⟨fun hin => ?_, fun t' w f' hin => ?_, fun t' tag' f' hin => ?_, fun t' w f' hin => ?_, ?_⟩
    · rw [hone] at hin; cases List.mem_singleton.1 hin
    · rw [hone] at hin; cases hin
    · cases hrest _ hin
    · rw [hone] at hin
      cases List.mem_singleton.1 hin
      exact ⟨hnames, hL.reported_phase hmem, hrest⟩
    · rintro a w (hin | hp)
      · rw [hone] at hin; cases List.mem_singleton.1 hin
      · exact h.awaiting a w (.inr hp)
  | @refused t tag rest hu hf => exact h.pop hu _ (by split <;> rfl)
  | @solved r rest hu =>
    obtain ⟨h1, h2⟩ : l.down.countP L2C.isAssign = 0 ∧ l.busy = false := by
      have hwork := hL.work
      have hle := l.isAssigned_le
      simp only [hu, List.countP_cons, C2L.isNotify, if_true] at hwork
      exact ⟨by omega, by cases hb : l.busy <;> simp [hb] at hwork ⊢; omega⟩
    have := h.pop hu l.info rfl
    refine ⟨this.plain, this.head, this.reported, this.transfer, ?_⟩
    rintro a v (hin | hp)
    · exact absurd rfl (List.countP_eq_zero.1 h1 _ hin)
    · have hp : l.co.phase = .receiving a v := hp
      simp [Link.busy, hp] at h2
  | @stopped rest _ hu =>
    have hpop : HandInv c { l with up := rest } := by
      rcases hu with rfl | hu | ⟨r, hu⟩
      · exact h
      · exact h.pop hu l.info rfl
      · exact h.pop hu l.info rfl
    exact hpop.append (by simp) (by simp) (by simp) (.inl rfl)

end

end AriParti.L4
