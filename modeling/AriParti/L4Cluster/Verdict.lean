import Mathlib.Data.Set.Lattice
import AriParti.L4Cluster.Delivery

/-!
# What the leader's verdict means

Each task file has a set of models, and a node of a partition tree has no more
of them than the formula it was made from (`Meaning`). The coordinators are
honest: sat is reported for a formula with a model, unsat for one whose models
all lie in files given away since the assignment, and pre-partition covers the
input. The leader adds nothing to the parts but the tree, so its verdict is
right as long as every child of a node names the file that was given away.

## Results

* `verdicts_inductive`: what each report and each status of the tree means.
* `verdict_sound`: **the leader's verdict is right** in every run without stale
  refusals.
-/
namespace AriParti.L4
open AriParti.Core AriParti.L3

/-- The models of every task file. -/
structure Meaning (M : Type) where
  models : TaskFile → Set M
  sub_subset : ∀ root rank round pid, models (.sub root rank round pid) ⊆ models root

theorem Meaning.subset_input {M : Type} (I : Meaning M) (f : TaskFile) :
    I.models f ⊆ I.models .input := by
  induction f with
  | input => exact fun _ h => h
  | sub root rank round pid ih => exact fun m hm => ih (I.sub_subset root rank round pid hm)

/-- What a coordinator may report, about the formula of the folder it works in:
a sat formula has a model, the models of an unsat one are those of files given
away, and the files of pre-partition cover the formula. -/
def Honest {M : Type} (I : Meaning M) (n : Nat) (s : State) : Lbl → Prop
  | .coordDone c r => ∀ F, (s.coord c).folder = some F →
    (r = .sat → (I.models F.root).Nonempty) ∧
      (r = .unsat → ∀ m ∈ I.models F.root, ∃ f ∈ (s.coord c).splits, m ∈ I.models f)
  | .isoPre pids => ∀ F, (s.coord n).folder = some F →
    ∀ m ∈ I.models F.root, ∃ f ∈ F.outgoing n pids, m ∈ I.models f
  | _ => True

/-- The leader stops with unsat only if the input has no model, with sat only
if it has one. -/
def VerdictOk {M : Type} (I : Meaning M) (s : State) : Prop :=
  ∀ r, s.leader.phase = .stopped (.verdict r) →
    (r = .unsat → I.models .input = ∅) ∧ (r = .sat → (I.models .input).Nonempty)

/-- The honest runs without stale refusals. -/
def honestFreshLts {M : Type} (I : Meaning M) (n : Nat) : LTS State Lbl :=
  (lts n).restrict fun s l => fresh s l = true ∧ Honest I n s l

/-! ## The isolated coordinator -/

/-- The isolated coordinator works on the input and gives nothing away. -/
structure IsoSound {M : Type} (I : Meaning M) (n : Nat) (s : State) : Prop where
  folder : (s.coord n).phase ≠ .boot → ∃ F, (s.coord n).folder = some F ∧ F.root = .input
  splits : (s.coord n).splits = []
  result : ∀ r, C2L.notifyResult r ∈ s.toL n →
    (r = .unsat → I.models .input = ∅) ∧ (r = .sat → (I.models .input).Nonempty)
  cover : ∀ num fs, C2L.prePartitionDone num fs ∈ s.toL n →
    ∀ m ∈ I.models .input, ∃ f ∈ fs, m ∈ I.models f

section Iso

variable {M : Type} {I : Meaning M} {n : Nat} {s s' : State} {l : Lbl}

theorem IsoSound.congr (h : IsoSound I n s) (hco : s'.coord n = s.coord n)
    (hup : ∀ m ∈ s'.toL n, m ∈ s.toL n) : IsoSound I n s' where
  folder := by rw [hco]; exact h.folder
  splits := by rw [hco]; exact h.splits
  result r hm := h.result r (hup _ hm)
  cover num fs hm := h.cover num fs (hup _ hm)

/-- Dying changes neither the folder nor the splits. -/
theorem IsoSound.died (h : IsoSound I n s) (hphase : (s'.coord n).phase = (s.coord n).phase)
    (hf : (s'.coord n).folder = (s.coord n).folder) (hs : (s'.coord n).splits = (s.coord n).splits)
    (hup : ∀ m ∈ s'.toL n, m ∈ s.toL n ∨ m = .notifyError) : IsoSound I n s' where
  folder := by rw [hphase, hf]; exact h.folder
  splits := by rw [hs]; exact h.splits
  result r hm := h.result r ((hup _ hm).resolve_right nofun)
  cover num fs hm := h.cover num fs ((hup _ hm).resolve_right nofun)

theorem IsoMove.sound (h : IsoMove n s l s') (hI : IsoSound I n s) (hh : Honest I n s l) :
    IsoSound I n s' := by
  cases h with
  | started hm ha hp =>
    refine ⟨fun _ => ⟨⟨(s.coord n).solvingRound, .input⟩, ?_, rfl⟩, ?_, hI.result, hI.cover⟩ <;>
      simp [State.setCoord, startSolving]
  | @delivered a rest fs hm ha hp =>
    obtain ⟨-, -, -, hL, -⟩ := sendFiles_same n fs 0 (s.pop n rest)
    have hup : (((s.pop n rest).sendFiles n 0 fs).setCoord n { s.coord n with phase := .solving }).toL n =
        s.toL n := congrFun hL n
    refine ⟨fun _ => ?_, ?_, by rw [hup]; exact hI.result, by rw [hup]; exact hI.cover⟩
    · have := hI.folder (by simp [hp])
      simpa [State.setCoord] using this
    · simpa [State.setCoord] using hI.splits
  | dropped hm =>
    refine hI.died ?_ ?_ ?_ fun m hm => .inl hm <;> simp [die, State.setCoord, State.pop]
  | raised hm ha =>
    refine hI.died ?_ ?_ ?_ fun m hm => ?_
    · simp [raiseError, State.post, die, State.setCoord, State.pop]
    · simp [raiseError, State.post, die, State.setCoord, State.pop]
    · simp [raiseError, State.post, die, State.setCoord, State.pop]
    · simpa [raiseError, State.post, die, State.setCoord, State.pop] using hm
  | @prePartitioned pids F ha hp hF hn =>
    obtain ⟨F', hF', hroot⟩ := hI.folder (by simp [hp])
    rw [hF] at hF'
    cases hF'
    have hup : ((s.post n (.prePartitionDone pids.length (F.outgoing n pids))).setCoord n
        { s.coord n with phase := .waitLeader (F.outgoing n pids) }).toL n =
          s.toL n ++ [.prePartitionDone pids.length (F.outgoing n pids)] := by
      simp [State.setCoord, State.post]
    refine ⟨fun _ => ⟨F, ?_, hroot⟩, ?_, fun r hm => ?_, fun num fs hm => ?_⟩
    · simpa [State.setCoord] using hF
    · simpa [State.setCoord] using hI.splits
    · rw [hup] at hm
      rcases List.mem_append.1 hm with hm | hm
      · exact hI.result r hm
      · cases List.mem_singleton.1 hm
    · rw [hup] at hm
      rcases List.mem_append.1 hm with hm | hm
      · exact hI.cover num fs hm
      · cases List.mem_singleton.1 hm
        rw [← hroot]
        exact hh F hF
  | @done r ha hp hr =>
    obtain ⟨F, hF, hroot⟩ := hI.folder (by rcases hp with hp | hp <;> rw [hp] <;> simp)
    have hup : (solvingRoundDone s n r).toL n = s.toL n ++ [.notifyResult r] := by
      simp [solvingRoundDone, State.setCoord, State.post]
    refine ⟨fun _ => ⟨F, ?_, hroot⟩, ?_, fun r' hm => ?_, fun num fs hm => ?_⟩
    · simpa [solvingRoundDone, State.setCoord] using hF
    · simpa [solvingRoundDone, State.setCoord] using hI.splits
    · rw [hup] at hm
      rcases List.mem_append.1 hm with hm | hm
      · exact hI.result r' hm
      · cases List.mem_singleton.1 hm
        obtain ⟨h1, h2⟩ := hh F hF
        rw [hroot] at h1 h2
        refine ⟨fun hu => Set.eq_empty_of_forall_notMem fun m hm => ?_, h1⟩
        obtain ⟨f, hf, -⟩ := h2 hu m hm
        rw [hI.splits] at hf
        cases hf
    · rw [hup] at hm
      rcases List.mem_append.1 hm with hm | hm
      · exact hI.cover num fs hm
      · cases List.mem_singleton.1 hm
  | failed ha =>
    refine hI.died ?_ ?_ ?_ fun m hm => ?_
    · simp [State.post, State.setCoord]
    · simp [State.post, State.setCoord]
    · simp [State.post, State.setCoord]
    · simpa [State.post, State.setCoord] using hm

theorem isoSound_inductive (I : Meaning M) (n : Nat) :
    (honestFreshLts I n).Inductive (IsoSound I n) where
  init := by
    intro s hs
    have hs : s = init n := hs
    rw [hs]
    refine ⟨fun h => ?_, rfl, fun r hm => (List.not_mem_nil hm).elim,
      fun num fs hm => (List.not_mem_nil hm).elim⟩
    simp [init, initCoord] at h
  step := by
    intro s l s' hI hs
    rcases step_cases hs.2 with h | ⟨c, hc, h⟩ | h
    · exact hI.congr (by rw [h.coords.coord]) fun m hm => h.coords.mem hm
    · have hn := h.link_ne (d := n) (Nat.ne_of_gt hc)
      have hco : s'.coord n = s.coord n := congrArg Link.co hn
      have hup : s'.toL n = s.toL n := congrArg Link.up hn
      exact hI.congr hco (by rw [hup]; exact fun _ h => h)
    · exact h.sound hI hs.1.2

end Iso

/-! ## The distributed coordinators and the tree -/

/-- What the reports on the way and the statuses of the tree mean, while the
leader runs. -/
structure Verdicts {M : Type} (I : Meaning M) (n : Nat) (s : State) : Prop where
  input : 0 < s.leader.tree.size → (s.leader.tree.node 0).file = .input
  /-- A file given away is known to the leader, or about to be. -/
  splits : ∀ c < n, ∀ v, (s.coord c).phase = .solving →
    (s.leader.coordinators c).assigned = some v → ∀ f ∈ (s.coord c).splits,
      (∃ w ∈ (s.leader.tree.node v).children, (s.leader.tree.node w).file = f) ∨
        ∃ t tag, C2L.splitSucceed t tag f ∈ s.toL c
  unsat : ∀ c < n, C2L.notifyResult .unsat ∈ s.toL c → ∃ v,
    (s.leader.coordinators c).assigned = some v ∧ v < s.leader.tree.size ∧
    ∀ m ∈ I.models (s.leader.tree.node v).file,
      (∃ w ∈ (s.leader.tree.node v).children, m ∈ I.models (s.leader.tree.node w).file) ∨
        ∃ t tag f, C2L.splitSucceed t tag f ∈ s.toL c ∧ m ∈ I.models f
  sat : ∀ c < n, C2L.notifyResult .sat ∈ s.toL c → (I.models .input).Nonempty
  part : ∀ v < s.leader.tree.size, (s.leader.tree.node v).partialStatus = .unsat →
    ∀ m ∈ I.models (s.leader.tree.node v).file,
      ∃ w ∈ (s.leader.tree.node v).children, m ∈ I.models (s.leader.tree.node w).file
  result : (s.leader.tree.result = .unsat → I.models .input = ∅) ∧
    (s.leader.tree.result = .sat → (I.models .input).Nonempty)

section Tree

variable {M : Type} {I : Meaning M}

/-- An unsat node has no model: its children are unsat and have larger numbers. -/
theorem models_empty_of_unsat {t : DistributedTree} (hwf : t.WF)
    (hp : ∀ v < t.size, (t.node v).partialStatus = .unsat → ∀ m ∈ I.models (t.node v).file,
      ∃ w ∈ (t.node v).children, m ∈ I.models (t.node w).file)
    {v : Nat} (hv : v < t.size) (hu : (t.node v).status = .unsat) :
    I.models (t.node v).file = ∅ := by
  -- induction on the distance from `v` to the last node
  induction hk : t.size - v using Nat.strong_induction_on generalizing v with
  | _ k ih =>
    obtain ⟨hpart, hch⟩ := hwf.unsat v hu
    refine Set.eq_empty_of_forall_notMem fun m hm => ?_
    obtain ⟨w, hw, hmw⟩ := hp v hv hpart m hm
    obtain ⟨hwlt, hwp⟩ := (hwf.child v w).1 hw
    have hlt := hwf.parentLt w v hwp
    rw [ih (t.size - w) (by omega) hwlt (hch w hw) rfl] at hmw
    exact hmw

/-- A result of `v` leaves the tree right if it was right about `v`. -/
theorem nodePartialSolved_sound {t t' : DistributedTree} (hwf : t.WF) {v : Nat} {r : NodeStatus}
    (hv : v < t.size) (hopen : (t.node v).partialStatus = .unsolved)
    (hinput : (t.node 0).file = .input)
    (hp : ∀ v < t.size, (t.node v).partialStatus = .unsat → ∀ m ∈ I.models (t.node v).file,
      ∃ w ∈ (t.node v).children, m ∈ I.models (t.node w).file)
    (hr : (t.result = .unsat → I.models .input = ∅) ∧
      (t.result = .sat → (I.models .input).Nonempty))
    (hunsat : r = .unsat → ∀ m ∈ I.models (t.node v).file,
      ∃ w ∈ (t.node v).children, m ∈ I.models (t.node w).file)
    (hsat : r = .sat → (I.models .input).Nonempty)
    (h : t.nodePartialSolved v r = .ok t') :
    (∀ v < t'.size, (t'.node v).partialStatus = .unsat → ∀ m ∈ I.models (t'.node v).file,
      ∃ w ∈ (t'.node v).children, m ∈ I.models (t'.node w).file) ∧
    (t'.result = .unsat → I.models .input = ∅) ∧
    (t'.result = .sat → (I.models .input).Nonempty) := by
  obtain ⟨hshape, hpart⟩ := DistributedTree.nodePartialSolved_shape h
  have hcases : r = .sat ∨ r = .unsat := by
    unfold DistributedTree.nodePartialSolved at h
    cases r <;> first | exact .inl rfl | exact .inr rfl | cases h
  obtain ⟨t'', ht'', hwf'⟩ := DistributedTree.nodePartialSolved_ok hwf hv hopen hcases
  rw [h] at ht''
  cases ht''
  have hv' : (t'.node v).partialStatus = .unsat → r = .unsat := by
    intro hu
    rcases hcases with rfl | rfl
    · cases h
      rw [DistributedTree.nodePartialSolvedSat, DistributedTree.modify_node, if_pos rfl] at hu
      cases hu
    · rfl
  have hparts : ∀ w < t'.size, (t'.node w).partialStatus = .unsat →
      ∀ m ∈ I.models (t'.node w).file,
        ∃ x ∈ (t'.node w).children, m ∈ I.models (t'.node x).file := by
    intro w hw hu m hm
    rw [hshape.size] at hw
    rw [hshape.file] at hm
    rw [hshape.children]
    by_cases hwv : w = v
    · subst hwv
      obtain ⟨x, hx, hmx⟩ := hunsat (hv' hu) m hm
      exact ⟨x, hx, by rw [hshape.file]; exact hmx⟩
    · obtain ⟨x, hx, hmx⟩ := hp w hw ((hpart w hwv).symm.trans hu) m hm
      exact ⟨x, hx, by rw [hshape.file]; exact hmx⟩
  refine ⟨hparts, ?_⟩
  rcases hcases with rfl | rfl
  · cases h
    exact ⟨nofun, fun _ => hsat rfl⟩
  · -- the result changes only when the root became unsat
    have hres : t'.result = .unsat ∧ t'.rootUnsat = true ∨ t'.result = t.result := by
      rw [DistributedTree.nodePartialSolved, if_neg (by decide), if_pos (by decide),
        DistributedTree.nodePartialSolvedUnsat] at h
      split at h
      · cases h
      · rename_i t₁ hup
        cases h
        split
        · rename_i hroot
          exact .inl ⟨rfl, hroot⟩
        · right
          rw [(DistributedTree.unsatPushUp_shape hup).2.2]
          rfl
    rcases hres with ⟨h1, h2⟩ | h1
    · refine ⟨fun _ => ?_, fun hs => by rw [h1] at hs; cases hs⟩
      have hroot : (t'.node 0).status = .unsat := by
        simpa [DistributedTree.rootUnsat, hwf'.root] using h2
      have := models_empty_of_unsat hwf' hparts hwf'.size hroot
      rw [hshape.file, hinput] at this
      exact this
    · rw [h1]
      exact hr

end Tree

section Coord

variable {M : Type} {I : Meaning M} {n c : Nat} {s s' : State} {l : Lbl}

/-- What a coordinator's own move has to keep about its link; `v` is its node. -/
structure Reports (I : Meaning M) (t : DistributedTree) (l : Link) : Prop where
  splits : ∀ v, l.co.phase = .solving → l.info.assigned = some v → ∀ f ∈ l.co.splits,
    (∃ w ∈ (t.node v).children, (t.node w).file = f) ∨ ∃ t tag, C2L.splitSucceed t tag f ∈ l.up
  unsat : C2L.notifyResult .unsat ∈ l.up → ∃ v, l.info.assigned = some v ∧ v < t.size ∧
    ∀ m ∈ I.models (t.node v).file, (∃ w ∈ (t.node v).children, m ∈ I.models (t.node w).file) ∨
      ∃ t tag f, C2L.splitSucceed t tag f ∈ l.up ∧ m ∈ I.models f
  sat : C2L.notifyResult .sat ∈ l.up → (I.models .input).Nonempty

theorem Verdicts.reports (h : Verdicts I n s) (hc : c < n) :
    Reports I s.leader.tree (s.link c) :=
  ⟨h.splits c hc, h.unsat c hc, h.sat c hc⟩

/-- More answers on the way, and no new split or result. -/
theorem Reports.mono {t : DistributedTree} {l l' : Link} (h : Reports I t l)
    (hi : l'.info = l.info) (hp : l'.co.phase = .solving → l.co.phase = .solving)
    (hs : l'.co.phase = .solving → ∀ f ∈ l'.co.splits, f ∈ l.co.splits)
    (hup : ∀ m ∈ l.up, m ∈ l'.up) (hn : ∀ r, C2L.notifyResult r ∈ l'.up → .notifyResult r ∈ l.up) :
    Reports I t l' where
  splits v hph ha f hf :=
    (h.splits v (hp hph) (by rw [← hi]; exact ha) f (hs hph f hf)).imp_right
      fun ⟨t, tag, hm⟩ => ⟨t, tag, hup _ hm⟩
  unsat hm := by
    obtain ⟨v, h1, h2, h3⟩ := h.unsat (hn _ hm)
    refine ⟨v, by rw [hi]; exact h1, h2, fun m hm => (h3 m hm).imp_right ?_⟩
    exact fun ⟨t, tag, f, h4, h5⟩ => ⟨t, tag, f, hup _ h4, h5⟩
  sat hm := h.sat (hn _ hm)

/-- What an honest coordinator reports is right about its node. -/
theorem CoordStep.reports {t : DistributedTree} {l l' : Link} (h : CoordStep c l l')
    (hR : Reports I t l)
    (hroot : l.co.phase = .solving → ∃ v F, l.info.assigned = some v ∧ v < t.size ∧
      l.co.folder = some F ∧ F.root = (t.node v).file)
    (hh : ∀ r, l'.up = l.up ++ [.notifyResult r] → ∀ F, l.co.folder = some F →
      (r = .sat → (I.models F.root).Nonempty) ∧
        (r = .unsat → ∀ m ∈ I.models F.root, ∃ f ∈ l.co.splits, m ∈ I.models f)) :
    Reports I t l' := by
  have old : ∀ {m m' : C2L}, m ∈ l.up ++ [m'] → m ≠ m' → m ∈ l.up := fun hm hne =>
    (List.mem_append.1 hm).resolve_right fun h => hne (List.mem_singleton.1 h)
  cases h with
  | declined hm hp =>
    exact hR.mono rfl id (fun _ _ => id) (fun m hm => List.mem_append_left _ hm)
      fun r hm => old hm nofun
  | @granted t' tag pid rest F hm hp hF =>
    refine ⟨fun v hph ha f hf => ?_, fun hm => ?_, fun hm => hR.sat (old hm nofun)⟩
    · rcases List.mem_append.1 hf with hf | hf
      · exact (hR.splits v hph ha f hf).imp_right fun ⟨t, tag, hm⟩ =>
          ⟨t, tag, List.mem_append_left _ hm⟩
      · rw [List.mem_singleton.1 hf]
        exact .inr ⟨t', tag, List.mem_append_right _ (List.mem_singleton.2 rfl)⟩
    · obtain ⟨v, h1, h2, h3⟩ := hR.unsat (old hm nofun)
      refine ⟨v, h1, h2, fun m hm => (h3 m hm).imp_right ?_⟩
      exact fun ⟨t, tag, f, h4, h5⟩ => ⟨t, tag, f, List.mem_append_left _ h4, h5⟩
  | transferred hm hp => exact hR.mono rfl id (fun _ _ => id) (fun _ => id) fun _ => id
  | assigned hm hp => exact hR.mono rfl nofun nofun (fun _ => id) fun _ => id
  | @died d up hu =>
    rcases hu with rfl | rfl
    · exact hR.mono rfl id (fun _ _ => id) (fun _ => id) fun _ => id
    · exact hR.mono rfl id (fun _ _ => id) (fun m hm => List.mem_append_left _ hm)
        fun r hm => old hm nofun
  | received hp =>
    exact ⟨fun v _ _ f hf => (List.not_mem_nil hf).elim, hR.unsat, hR.sat⟩
  | @done r hp hr =>
    obtain ⟨v, F, h1, h2, h3, h4⟩ := hroot hp
    obtain ⟨hsat, hunsat⟩ := hh r rfl F h3
    refine ⟨nofun, fun hm => ?_, fun hm => ?_⟩
    · by_cases hru : r = .unsat
      · refine ⟨v, h1, h2, fun m hm => ?_⟩
        rw [← h4] at hm
        obtain ⟨f, hf, hmf⟩ := hunsat hru m hm
        rcases hR.splits v hp h1 f hf with ⟨w, hw, rfl⟩ | ⟨t, tag, hmem⟩
        · exact .inl ⟨w, hw, hmf⟩
        · exact .inr ⟨t, tag, f, List.mem_append_left _ hmem, hmf⟩
      · obtain ⟨v, h1, h2, h3⟩ := hR.unsat (old hm (by rintro ⟨⟩; exact hru rfl))
        refine ⟨v, h1, h2, fun m hm => (h3 m hm).imp_right ?_⟩
        exact fun ⟨t, tag, f, h4, h5⟩ => ⟨t, tag, f, List.mem_append_left _ h4, h5⟩
    · by_cases hrs : r = .sat
      · obtain ⟨m, hm⟩ := hsat hrs
        exact ⟨m, I.subset_input _ hm⟩
      · exact hR.sat (old hm (by rintro ⟨⟩; exact hrs rfl))

theorem Verdicts.of_reports (h : Verdicts I n s) (hl : s'.leader = s.leader)
    (hR : ∀ c < n, Reports I s.leader.tree (s'.link c)) : Verdicts I n s' where
  input := by rw [hl]; exact h.input
  splits c hc v hp ha := by rw [hl]; exact (hR c hc).splits v hp (by rw [link_info]; exact ha)
  unsat c hc hm := by
    have := (hR c hc).unsat hm
    rw [link_info, hl] at this
    rw [hl]
    exact this
  sat c hc hm := (hR c hc).sat hm
  part := by rw [hl]; exact h.part
  result := by rw [hl]; exact h.result

theorem CoordMove.verdicts (h : CoordMove n c s l s') (hD : Drained s) (hH : HandOff n s)
    (hh : Honest I n s l) (hV : Verdicts I n s) : Verdicts I n s' := by
  have hne := fun d hd => h.link_ne (d := d) hd
  have hlink := h.link hD
  refine hV.of_reports h.leader fun d hd => ?_
  by_cases hdc : d = c
  · subst hdc
    refine hlink.reports (hV.reports hd) (hH.root d hd) fun r hup => ?_
    -- only the end of a round reports a result
    have hup : s'.toL d = s.toL d ++ [.notifyResult r] := hup
    cases h with
    | done ha hp hr =>
      simp [solvingRoundDone, State.setCoord, State.post] at hup
      subst hup
      exact hh
    | declined _ _ _ => simp [State.post, State.pop] at hup
    | granted _ _ _ _ => simp [State.post, State.pop, State.setCoord] at hup
    | transferred _ _ _ _ _ => simp [State.pop, State.sendFile] at hup
    | assigned _ _ _ => simp [State.pop, State.setCoord] at hup
    | dropped _ _ => simp [State.pop, State.setCoord, die] at hup
    | raised _ _ _ => simp [State.pop, State.setCoord, die, raiseError, State.post] at hup
    | received _ _ _ => simp [State.setCoord] at hup
    | failed _ => simp [State.setCoord, State.post] at hup
  · rw [hne d hdc]
    exact hV.reports hd

end Coord

section Leader

variable {M : Type} {I : Meaning M} {n : Nat} {s s' : State} {l : Lbl}

/-- The tree after pre-partition: the files sent cover the input. -/
theorem IsoSound.prePartitioned (hI : IsoSound I n s) (hS : Synced n s)
    (hn : 0 < n) (hp : s.leader.phase = .waitPrePartition) {num : Nat} {files : List TaskFile}
    {rest : List C2L} (hm : s.toL n = .prePartitionDone num files :: rest)
    (h : prePartition n (s.popUp n rest) num files = .ok s') :
    Verdicts I n (setPhase s' .main) := by
  obtain ⟨htree, -⟩ := hS.roster.wait hp
  obtain ⟨hq, -⟩ := hS.roster.quiet (.inr hp)
  obtain ⟨s₂, t, k, hl, ht, rfl, hk, -⟩ := hS.prePartition hn hp hm h
  have hshape := (DistributedTree.nodePartialSolved_shape ht).1
  have h0 : (s₂.leader.tree.node 0).file = .input ∧
      (s₂.leader.tree.node 0).partialStatus = .unsolved := by
    rw [hl.node0]
    simp [State.send, State.popUp, htree, DistributedTree.assignRootNode,
      DistributedTree.makeNode, DistributedTree.empty]
  have hopen : ∀ v < s₂.leader.tree.size, (s₂.leader.tree.node v).partialStatus = .unsolved := by
    intro v hv
    cases v with
    | zero => exact h0.2
    | succ i =>
      rw [hl.size] at hv
      rw [hl.node i (by omega)]
  have hres : s₂.leader.tree.result = .unsolved := by
    rw [hl.result]
    simp only [State.send, State.popUp, htree]
    rfl
  obtain ⟨hpart, hresult⟩ := nodePartialSolved_sound (I := I) (r := .unsat) hl.wf hl.wf.size h0.2 h0.1
    (fun v hv hu => by rw [hopen v hv] at hu; cases hu)
    (by rw [hres]; exact ⟨by simp, by simp⟩)
    (fun _ m hmi => by
      rw [h0.1] at hmi
      obtain ⟨f, hf, hmf⟩ := hI.cover num files (by rw [hm]; exact List.mem_cons_self) m hmi
      obtain ⟨i, hi, rfl⟩ := List.mem_iff_getElem.1 hf
      refine ⟨i + 1, ?_, ?_⟩
      · rw [hl.node0, hk]
        exact List.mem_map.2 ⟨i, List.mem_range.2 hi, rfl⟩
      · rw [hl.node i (by omega)]
        simpa [List.getD_eq_getElem?_getD, hi] using hmf)
    (by simp) ht
  have hup : ∀ c < n, ∀ r, C2L.notifyResult r ∉ (setPhase (s₂.setTree t) .main).toL c := by
    intro c hc r hr
    have hr : C2L.notifyResult r ∈ s₂.toL c := hr
    rw [hl.same.toL] at hr
    have hr : C2L.notifyResult r ∈ s.toL c := by
      simpa [State.send, State.popUp, Nat.ne_of_lt hc] using hr
    cases (hq c hc).up _ hr
  refine ⟨fun _ => ?_, fun c hc v hph => ?_, fun c hc hr => (hup c hc _ hr).elim,
    fun c hc hr => (hup c hc _ hr).elim, hpart, hresult⟩
  · exact (hshape.file 0).trans h0.1
  · have hci : (s.coord c).phase = .idle := (hq c hc).phase
    have hco : (setPhase (s₂.setTree t) .main).coord c = s.coord c := congrFun hl.same.coord c
    rw [hco, hci] at hph
    cases hph

/-- The leader reads an answer or a result of `c`; the tree keeps its shape. -/
theorem Reports.congr {t t' : DistributedTree} {l l' : Link} (h : Reports I t l)
    (ht : t.SameShape t') (hi : l'.info.assigned = l.info.assigned) (hco : l'.co = l.co)
    (hs : ∀ u tag f, C2L.splitSucceed u tag f ∈ l.up → .splitSucceed u tag f ∈ l'.up)
    (hn : ∀ r, C2L.notifyResult r ∈ l'.up → .notifyResult r ∈ l.up) : Reports I t' l' where
  splits v hp ha f hf := by
    rw [hco] at hp hf
    rw [hi] at ha
    rw [ht.children]
    rcases h.splits v hp ha f hf with ⟨w, hw, rfl⟩ | ⟨u, tag, hm⟩
    · exact .inl ⟨w, hw, ht.file w⟩
    · exact .inr ⟨u, tag, hs u tag f hm⟩
  unsat hm := by
    obtain ⟨v, h1, h2, h3⟩ := h.unsat (hn _ hm)
    refine ⟨v, hi.trans h1, by rw [ht.size]; exact h2, fun m hmm => ?_⟩
    rw [ht.file] at hmm
    rw [ht.children]
    rcases h3 m hmm with ⟨w, hw, hmw⟩ | ⟨u, tag, f, h4, h5⟩
    · exact .inl ⟨w, hw, by rw [ht.file]; exact hmw⟩
    · exact .inr ⟨u, tag, f, hs u tag f h4, h5⟩
  sat hm := h.sat (hn _ hm)

/-- A new child of `p` for the file `f`: the answer that reported it may go. -/
theorem Reports.grow {t : DistributedTree} {l l' : Link} (h : Reports I t l) (hwf : t.WF)
    {p u : Nat} {f : TaskFile} (hi : l'.info.assigned = l.info.assigned) (hco : l'.co = l.co)
    (hlt : ∀ v, l.info.assigned = some v → v < t.size)
    (hs : ∀ u' tag f', C2L.splitSucceed u' tag f' ∈ l.up → .splitSucceed u' tag f' ∈ l'.up ∨
      (l.info.assigned = some p ∧ f' = f))
    (hn : ∀ r, C2L.notifyResult r ∈ l'.up → .notifyResult r ∈ l.up) :
    Reports I (t.splitNode p u f) l' := by
  have hchild : ∀ v w, v < t.size → w ∈ (t.node v).children →
      w ∈ ((t.splitNode p u f).node v).children := by
    intro v w hv hw
    rw [DistributedTree.splitNode_node, if_neg (by omega)]
    split
    · rename_i hvp
      subst hvp
      exact List.mem_append_left _ hw
    · exact hw
  have hfile : ∀ v w, w ∈ (t.node v).children →
      ((t.splitNode p u f).node w).file = (t.node w).file := fun v w hw =>
    (hwf.giver_splitNode ((hwf.child v w).1 hw).1 p u f).2.2
  have hnew : p < t.size → t.size ∈ ((t.splitNode p u f).node p).children ∧
      ((t.splitNode p u f).node t.size).file = f := by
    intro hp
    refine ⟨?_, by rw [(DistributedTree.giver_new hp u f).2]⟩
    rw [DistributedTree.splitNode_node, if_neg (by omega), if_pos rfl]
    exact List.mem_append_right _ (List.mem_singleton.2 rfl)
  refine ⟨fun v hp ha f' hf => ?_, fun hm => ?_, fun hm => h.sat (hn _ hm)⟩
  · rw [hco] at hp hf
    rw [hi] at ha
    have hv := hlt v ha
    rcases h.splits v hp ha f' hf with ⟨w, hw, rfl⟩ | ⟨u', tag, hm⟩
    · exact .inl ⟨w, hchild v w hv hw, hfile v w hw⟩
    · rcases hs u' tag f' hm with hm | ⟨hpa, rfl⟩
      · exact .inr ⟨u', tag, hm⟩
      · rw [ha] at hpa
        cases hpa
        exact .inl ⟨t.size, hnew hv⟩
  · obtain ⟨v, h1, h2, h3⟩ := h.unsat (hn _ hm)
    refine ⟨v, hi.trans h1, Nat.lt_succ_of_lt h2, fun m hmm => ?_⟩
    rw [(hwf.giver_splitNode h2 p u f).2.2] at hmm
    rcases h3 m hmm with ⟨w, hw, hmw⟩ | ⟨u', tag, f', h4, h5⟩
    · exact .inl ⟨w, hchild v w h2 hw, by rw [hfile v w hw]; exact hmw⟩
    · rcases hs u' tag f' h4 with h4 | ⟨hpa, rfl⟩
      · exact .inr ⟨u', tag, f', h4, h5⟩
      · rw [h1] at hpa
        cases hpa
        obtain ⟨h6, h7⟩ := hnew h2
        exact .inl ⟨t.size, h6, by rw [h7]; exact h5⟩

/-- The reports of all coordinators after a move of the leader that keeps the
shape of the tree and takes no assignment away, but for one coordinator. -/
theorem Verdicts.shape (hV : Verdicts I n s) (ht : s.leader.tree.SameShape s'.leader.tree)
    (hR : ∀ c < n, Reports I s'.leader.tree (s'.link c))
    (hp : ∀ v < s'.leader.tree.size, (s'.leader.tree.node v).partialStatus = .unsat →
      ∀ m ∈ I.models (s'.leader.tree.node v).file,
        ∃ w ∈ (s'.leader.tree.node v).children, m ∈ I.models (s'.leader.tree.node w).file)
    (hr : (s'.leader.tree.result = .unsat → I.models .input = ∅) ∧
      (s'.leader.tree.result = .sat → (I.models .input).Nonempty)) : Verdicts I n s' where
  input h := by rw [ht.size] at h; exact (ht.file 0).trans (hV.input h)
  splits c hc := (hR c hc).splits
  unsat c hc := (hR c hc).unsat
  sat c hc := (hR c hc).sat
  part := hp
  result := hr

/-- When the leader reads a result, it is right about the node it is for. -/
theorem Verdicts.notified (hV : Verdicts I n s) (hS : Synced n s) (hp : s.leader.phase = .main)
    {src v : Nat} {r : NodeStatus} {rest : List C2L} {t : DistributedTree} (hsrc : src < n)
    (hm : s.toL src = .notifyResult r :: rest)
    (hv : (s.leader.coordinators src).assigned = some v)
    (ht : s.leader.tree.nodePartialSolved v r = .ok t) :
    (∀ v < t.size, (t.node v).partialStatus = .unsat → ∀ m ∈ I.models (t.node v).file,
      ∃ w ∈ (t.node v).children, m ∈ I.models (t.node w).file) ∧
    (t.result = .unsat → I.models .input = ∅) ∧ (t.result = .sat → (I.models .input).Nonempty) := by
  obtain ⟨-, v', hv', hlt, hopen⟩ := hS.notify hp hsrc hm
  rw [hv] at hv'
  cases hv'
  have hmem : C2L.notifyResult r ∈ s.toL src := by rw [hm]; exact List.mem_cons_self
  have hord : ∀ x ∈ rest, x.isSucceed = false := by
    have := (hS.links src hsrc).ordered
    rw [link_up, hm] at this
    exact this
  refine nodePartialSolved_sound (hS.tree (.inr hp)) hlt hopen (hV.input (by omega)) hV.part
    hV.result (fun hr m hmm => ?_) (fun hr => hV.sat src hsrc (hr ▸ hmem)) ht
  obtain ⟨v', h1, -, h3⟩ := hV.unsat src hsrc (hr ▸ hmem)
  rw [hv] at h1
  cases h1
  refine (h3 m hmm).resolve_right ?_
  -- every split reported before the result has been processed
  rintro ⟨u, tag, f, hin, -⟩
  rw [hm] at hin
  rcases List.mem_cons.1 hin with hin | hin
  · cases hin
  · cases hord _ hin

theorem LeaderMove.verdicts (h : LeaderMove n s l s') (hS : Synced n s) (hn : 0 < n)
    (hI : IsoSound I n s) (hV : Verdicts I n s)
    (hp' : ∀ o, s'.leader.phase ≠ .stopped o) : Verdicts I n s' := by
  have hco := h.coords.coord
  cases h with
  | @booted s₁ hp h =>
    obtain ⟨htree, -⟩ := hS.roster.boot hp
    obtain ⟨hq, -⟩ := hS.roster.quiet (.inl hp)
    have htree' : (setPhase s₁ .waitPrePartition).leader.tree =
        DistributedTree.empty.assignRootNode n .input := by
      rw [leaderBoot_ok h, ← htree]; rfl
    have hup : (setPhase s₁ .waitPrePartition).toL = s.toL := by rw [leaderBoot_ok h]; rfl
    have hno : ∀ c < n, ∀ r, C2L.notifyResult r ∉ (setPhase s₁ .waitPrePartition).toL c := by
      intro c hc r hr
      rw [hup] at hr
      cases (hq c hc).up _ hr
    have hnode : ∀ v, ((setPhase s₁ .waitPrePartition).leader.tree.node v).partialStatus =
        .unsolved := by
      intro v
      rw [htree']
      by_cases hv : v = 0 <;>
        simp [DistributedTree.assignRootNode, DistributedTree.makeNode, DistributedTree.empty,
          DistributedTree.noNode, hv]
    refine ⟨fun _ => by rw [htree']; rfl, fun c hc v hph => ?_,
      fun c hc hr => (hno c hc _ hr).elim, fun c hc hr => (hno c hc _ hr).elim,
      fun v _ hu => (by rw [hnode] at hu; cases hu), ?_⟩
    · have hci : (s.coord c).phase = .idle := (hq c hc).phase
      rw [hco, hci] at hph
      cases hph
    · rw [htree']
      constructor <;> intro h <;> cases h
  | prePartitioned hp hm h => exact hI.prePartitioned hS hn hp hm h
  | @splitSucceeded src t tag f rest _ hp hsrc hm h =>
    obtain ⟨hlt, htn, hne, ⟨p, hpp⟩, -, -, hnone⟩ := hS.accept hp hsrc hm
    obtain ⟨-, -, -, p', hpp', hs'⟩ := processSplitSucceed_ok h
    simp only [State.popUp] at hpp' hs'
    rw [hpp] at hpp'
    cases hpp'
    obtain ⟨hp0, hplt, -⟩ := (hS.roster.main hp).node src hlt p hpp
    have hwf := hS.tree (.inr hp)
    have htree : s'.leader.tree = s.leader.tree.splitNode p t f := by rw [hs']; rfl
    have hasg : ∀ c, c ≠ t → (s'.leader.coordinators c).assigned =
        (s.leader.coordinators c).assigned := by
      intro c hct
      by_cases hcs : c = src <;> simp [hs', State.setInfo, State.setTree, State.send, hct, hcs]
    have hup : ∀ c, s'.toL c = if c = src then rest else s.toL c := by
      intro c
      by_cases hcs : c = src <;> simp [hs', State.setInfo, State.setTree, State.send, hcs]
    have hR : ∀ c < n, Reports I s'.leader.tree (s'.link c) := by
      intro c hc
      by_cases hct : c = t
      · subst hct
        obtain ⟨-, hbusy, hno⟩ := (hS.links c hc).unassigned hnone
        have hnot : ∀ r, C2L.notifyResult r ∉ s.toL c := fun r hr =>
          absurd rfl (List.countP_eq_zero.1 hno _ hr)
        have hphase : (s.coord c).phase ≠ .solving := fun hph => by
          simp [Link.busy, link_co, hph] at hbusy
        have hup' : s'.toL c = s.toL c := by rw [hup, if_neg (Ne.symm hne)]
        refine ⟨fun v hph => ?_, fun hr => ?_, fun hr => ?_⟩
        · rw [link_co, hco] at hph
          exact absurd hph hphase
        · rw [link_up, hup'] at hr
          exact (hnot _ hr).elim
        · rw [link_up, hup'] at hr
          exact (hnot _ hr).elim
      · rw [htree]
        refine (hV.reports hc).grow hwf (hasg c hct) (congrFun hco c)
          (fun v hv => ((hS.roster.main hp).node c hc v hv).2.1) ?_ ?_
        · intro u' tag' f' hin
          rw [link_up] at hin
          rw [link_up, hup]
          split
          · rename_i hcs
            subst hcs
            rw [hm] at hin
            rcases List.mem_cons.1 hin with hin | hin
            · cases hin
              exact .inr ⟨hpp, rfl⟩
            · exact .inl hin
          · exact .inl hin
        · intro r hr
          rw [link_up, hup] at hr
          split at hr
          · rename_i hcs
            subst hcs
            rw [link_up, hm]
            exact List.mem_cons_of_mem _ hr
          · exact hr
    refine ⟨fun _ => ?_, fun c hc => (hR c hc).splits, fun c hc => (hR c hc).unsat,
      fun c hc => (hR c hc).sat, fun v hv hu m hmm => ?_, ?_⟩
    · rw [htree, (hwf.giver_splitNode (by omega) p t f).2.2]
      exact hV.input (by omega)
    · rw [htree] at hv hu hmm ⊢
      have hvs : v ≠ s.leader.tree.size := by
        rintro rfl
        rw [(DistributedTree.giver_new hplt t f).2] at hu
        cases hu
      have hvlt : v < s.leader.tree.size := by
        rw [DistributedTree.splitNode_size] at hv
        omega
      have hold : (s.leader.tree.node v).partialStatus = .unsat ∧
          ∀ w ∈ (s.leader.tree.node v).children,
            w ∈ ((s.leader.tree.splitNode p t f).node v).children := by
        rw [DistributedTree.splitNode_node, if_neg hvs] at hu ⊢
        split at hu
        · rename_i hvp
          subst hvp
          rw [if_pos rfl]
          exact ⟨hu, fun w hw => List.mem_append_left _ hw⟩
        · rename_i hvp
          rw [if_neg hvp]
          exact ⟨hu, fun w hw => hw⟩
      rw [(hwf.giver_splitNode hvlt p t f).2.2] at hmm
      obtain ⟨w, hw, hmw⟩ := hV.part v hvlt hold.1 m hmm
      refine ⟨w, hold.2 w hw, ?_⟩
      rw [(hwf.giver_splitNode ((hwf.child v w).1 hw).1 p t f).2.2]
      exact hmw
    · rw [htree]
      exact hV.result
  | @splitFailed src t tag rest hp hsrc hm =>
    have htree : (processSplitFailed (s.popUp src rest) src t).leader.tree = s.leader.tree := by
      rw [processSplitFailed]; split <;> rfl
    have hasg : ∀ c, ((processSplitFailed (s.popUp src rest) src t).leader.coordinators c).assigned =
        (s.leader.coordinators c).assigned := by
      intro c
      rw [processSplitFailed]
      split
      · by_cases hcs : c = src <;> simp [State.setInfo, State.pushIdle, State.popUp, hcs]
      · rfl
    have hup : ∀ c, (processSplitFailed (s.popUp src rest) src t).toL c =
        if c = src then rest else s.toL c := by
      intro c
      rw [processSplitFailed]
      split <;> by_cases hcs : c = src <;>
        simp [State.setInfo, State.pushIdle, State.popUp, hcs]
    refine hV.shape (by rw [htree]; exact .refl _) (fun c hc => ?_) (by rw [htree]; exact hV.part)
      (by rw [htree]; exact hV.result)
    refine (hV.reports hc).congr (by rw [htree]; exact .refl _) (hasg c) (congrFun hco c) ?_ ?_
    · intro u tag' f hin
      rw [link_up] at hin
      rw [link_up, hup]
      split
      · rename_i hcs
        subst hcs
        rw [hm] at hin
        exact (List.mem_cons.1 hin).resolve_left (by simp)
      · exact hin
    · intro r hr
      rw [link_up, hup] at hr
      split at hr
      · rename_i hcs
        subst hcs
        rw [link_up, hm]
        exact List.mem_cons_of_mem _ hr
      · exact hr
  | @notified src v r rest t hp hsrc hm hv ht hd =>
    obtain ⟨hpart, hresult⟩ := hV.notified hS hp hsrc hm hv ht
    have hshape := (DistributedTree.nodePartialSolved_shape ht).1
    refine hV.shape hshape (fun c hc => ?_) hpart hresult
    by_cases hcs : c = src
    · subst hcs
      have hrest : ∀ r', C2L.notifyResult r' ∉ rest := by
        intro r' hr'
        have hwork := (hS.links c hc).work
        have hle := (s.link c).isAssigned_le
        have hpos : 0 < rest.countP C2L.isNotify := List.countP_pos_iff.2 ⟨_, hr', rfl⟩
        simp only [link_up, hm, List.countP_cons, C2L.isNotify, if_true] at hwork
        omega
      have hup : (setCoordinatorIdle ((s.popUp c rest).setTree t) c).toL c = rest := by
        simp [setCoordinatorIdle, State.setInfo, State.pushIdle, State.setTree, State.popUp]
      refine ⟨fun v' _ ha => ?_, fun hr => ?_, fun hr => ?_⟩
      · simp [State.link, setCoordinatorIdle, State.setInfo, State.pushIdle,
          CoordinatorInfo.nodeSolved] at ha
      · rw [link_up, hup] at hr
        exact (hrest _ hr).elim
      · rw [link_up, hup] at hr
        exact (hrest _ hr).elim
    · have hlink : (setCoordinatorIdle ((s.popUp src rest).setTree t) src).link c = s.link c := by
        simp [setCoordinatorIdle, State.link, State.down, State.popUp, State.pushIdle,
          State.setInfo, State.setTree, hcs]
      rw [hlink]
      exact (hV.reports hc).congr hshape rfl rfl (fun _ _ _ h => h) fun _ h => h
  | queueEmpty hp hi => exact hV
  | @requested b t rest hp hi hs =>
    refine hV.shape (.refl _) (fun c hc => ?_) hV.part hV.result
    refine (hV.reports hc).congr (.refl _) ?_ rfl (fun _ _ _ h => h) fun _ h => h
    by_cases hcr : c = s.leader.nextSplitRank <;>
      simp [State.link, State.setInfo, State.send, nextIdle, hcr]
  | rotated hp hi =>
    exact hV.shape (.refl _) (fun c hc => hV.reports hc) hV.part hV.result
  | timedOut hp => exact (hp' _ (stop_phase n _ _)).elim
  | coordinatorError hp hm => exact (hp' _ (stop_phase n _ _)).elim
  | verdict hp hsrc hm hv ht hd => exact (hp' _ (stop_phase n _ _)).elim
  | isoVerdict hp hm => exact (hp' _ (stop_phase n _ _)).elim
  | crashed h => exact (hp' _ (stop_phase n _ _)).elim

/-- The verdict is right when it is made. -/
theorem LeaderMove.verdictOk (h : LeaderMove n s l s') (hS : Synced n s) (hI : IsoSound I n s)
    (hV : 0 < n → Verdicts I n s) : VerdictOk I s' := by
  have running : (∀ o, s'.leader.phase ≠ .stopped o) → VerdictOk I s' := fun hp r hr =>
    (hp _ hr).elim
  cases h with
  | booted hp h => exact running nofun
  | prePartitioned hp hm h => exact running nofun
  | splitSucceeded hp hsrc hm h =>
    obtain ⟨-, -, -, p, -, hs'⟩ := processSplitSucceed_ok h
    have hph : s'.leader.phase = s.leader.phase := by rw [hs']; rfl
    exact running (by rw [hph, hp]; nofun)
  | @splitFailed src t tag rest hp hsrc hm =>
    have hph : (processSplitFailed (s.popUp src rest) src t).leader.phase = s.leader.phase := by
      rw [processSplitFailed]; split <;> rfl
    exact running (by rw [hph, hp]; nofun)
  | @notified src v r rest t hp hsrc hm hv ht hd =>
    have hph : (setCoordinatorIdle ((s.popUp src rest).setTree t) src).leader.phase =
      s.leader.phase := rfl
    exact running (by rw [hph, hp]; nofun)
  | queueEmpty hp hi => exact running (by rw [hp]; nofun)
  | requested hp hi hs =>
    exact running fun o => by simp [State.setInfo, State.send, nextIdle, hp]
  | rotated hp hi => exact running fun o => by simp [State.pushIdle, nextIdle, hp]
  | timedOut hp => intro r hr; rw [stop_phase] at hr; cases hr
  | coordinatorError hp hm => intro r hr; rw [stop_phase] at hr; cases hr
  | @verdict src v r rest t hp hsrc hm hv ht hd =>
    obtain ⟨-, hresult⟩ := (hV (by omega)).notified hS hp hsrc hm hv ht
    intro r' hr
    rw [finish, stop_phase] at hr
    cases hr
    exact hresult
  | @isoVerdict r rest hp hm =>
    intro r' hr
    rw [finish, stop_phase] at hr
    have hres : (s.leader.tree.originalSolved r).result = r := by
      unfold DistributedTree.originalSolved; rfl
    have hr' : r' = r := by
      have : (s.leader.tree.originalSolved r).result = r' := by
        simpa [State.setTree] using hr
      exact this.symm.trans hres
    rw [hr']
    exact hI.result r (by rw [hm]; exact List.mem_cons_self)
  | crashed h => exact (h.elim hS).elim

/-- The verdict, and what it will rest on while the leader runs. -/
theorem verdicts_inductive (I : Meaning M) {n : Nat} (hn : 0 < n) :
    (honestFreshLts I n).Inductive (fun s => ((Synced n s ∧ HandOff n s) ∧ IsoSound I n s) ∧
      ((∀ o, s.leader.phase ≠ .stopped o) → Verdicts I n s) ∧ VerdictOk I s) := by
  have hJ : (honestFreshLts I n).Inductive
      (fun s => (Synced n s ∧ HandOff n s) ∧ IsoSound I n s) :=
    ((handOff_inductive hn).restrict_mono fun s l hG => hG.1).under (isoSound_inductive I n).init
      fun s l s' _ hI hs => (isoSound_inductive I n).step s l s' hI hs
  refine hJ.under ?_ ?_
  · intro s hs
    have hs : s = init n := hs
    subst hs
    refine ⟨fun _ => ⟨nofun, fun c _ v _ ha => ?_, fun c _ hm => (List.not_mem_nil hm).elim,
      fun c _ hm => (List.not_mem_nil hm).elim, fun v hv => ?_, nofun, nofun⟩, nofun⟩
    · cases ha
    · exact absurd hv (Nat.not_lt_zero v)
  · rintro s l s' ⟨⟨hS, hH⟩, hI⟩ ⟨hV, hok⟩ hs
    rcases step_cases hs.2 with h | ⟨c, hc, h⟩ | h
    · exact ⟨h.verdicts hS hn hI (hV h.running), h.verdictOk hS hI fun _ => hV h.running⟩
    · refine ⟨fun hp => ?_, fun r hr => hok r (by rwa [h.leader] at hr)⟩
      rw [h.leader] at hp
      exact h.verdicts hS.base.drained hH hs.1.2 (hV hp)
    · refine ⟨fun hp => ?_, fun r hr => hok r (by rwa [h.leader] at hr)⟩
      rw [h.leader] at hp
      refine (hV hp).of_reports h.leader fun c hc => ?_
      rw [h.link_ne (Nat.ne_of_lt hc)]
      exact (hV hp).reports hc

/-- **The leader's verdict is right** in every honest run without stale
refusals: it stops with unsat only if the input has no model, and with sat only
if it has one. -/
theorem verdict_sound (I : Meaning M) (n : Nat) (s : State)
    (hr : (honestFreshLts I n).Reachable s) : VerdictOk I s := by
  rcases Nat.eq_zero_or_pos n with rfl | hn
  · -- without distributed coordinators only the isolated one reports
    have hJ : (honestFreshLts I 0).Inductive (fun s => (Synced 0 s ∧ IsoSound I 0 s) ∧
        VerdictOk I s) := by
      refine (((synced_inductive 0).restrict_mono fun s l hG => hG.1).under
        (isoSound_inductive I 0).init fun s l s' _ hI hs =>
          (isoSound_inductive I 0).step s l s' hI hs).under ?_ ?_
      · intro s hs
        have hs : s = init 0 := hs
        subst hs
        nofun
      · rintro s l s' ⟨hS, hI⟩ hok hs
        rcases step_cases hs.2 with h | ⟨c, hc, h⟩ | h
        · exact h.verdictOk hS hI nofun
        · exact fun r hr => hok r (by rwa [h.leader] at hr)
        · exact fun r hr => hok r (by rwa [h.leader] at hr)
    exact (hJ.reachable hr).2
  · exact ((verdicts_inductive I hn).reachable hr).2.2

end Leader

/-! ## Runs with at most one model -/

/-- Whether the one model lies in a file: `region` says in which nodes it is. -/
def inside (region : Nat → Nat → Nat → Bool) : TaskFile → Bool
  | .input => true
  | .sub root rank round pid => inside region root && region rank round pid

def oneModel (region : Nat → Nat → Nat → Bool) : Meaning Unit where
  models f := {_u | inside region f = true}
  sub_subset _ _ _ _ _ hm := (Bool.and_eq_true _ _ ▸ hm : _ ∧ _).1

/-- The test of `Honest` for one model. -/
def honest (region : Nat → Nat → Nat → Bool) (n : Nat) (s : State) : Lbl → Bool
  | .coordDone c r =>
    match (s.coord c).folder with
    | none => true
    | some F => (r != .sat || inside region F.root) &&
      (r != .unsat || !inside region F.root || (s.coord c).splits.any (inside region))
  | .isoPre pids =>
    match (s.coord n).folder with
    | none => true
    | some F => !inside region F.root || (F.outgoing n pids).any (inside region)
  | _ => true

theorem honest_iff {region : Nat → Nat → Nat → Bool} {n : Nat} {s : State} {l : Lbl}
    (h : honest region n s l = true) : Honest (oneModel region) n s l := by
  have hany : ∀ {fs : List TaskFile}, fs.any (inside region) = true →
      ∀ m : Unit, ∃ f ∈ fs, m ∈ (oneModel region).models f := fun hf _ =>
    List.any_eq_true.1 hf
  cases l with
  | coordDone c r =>
    intro F hF
    simp only [honest, hF, Bool.and_eq_true, Bool.or_eq_true, bne_iff_ne, ne_eq,
      Bool.not_eq_true'] at h
    refine ⟨fun hr => ⟨(), h.1.resolve_left fun hn => hn hr⟩, fun hr m hm => ?_⟩
    rcases h.2 with (hn | hout) | hf
    · exact absurd hr hn
    · have hm : inside region F.root = true := hm
      rw [hout] at hm
      cases hm
    · exact hany hf m
  | isoPre pids =>
    intro F hF m hm
    simp only [honest, hF, Bool.or_eq_true, Bool.not_eq_true'] at h
    rcases h with hout | hf
    · have hm : inside region F.root = true := hm
      rw [hout] at hm
      cases hm
    · exact hany hf m
  | _ => trivial

/-- A problem without a model. -/
def noModel : Meaning Empty where
  models _ := ∅
  sub_subset _ _ _ _ := Set.Subset.rfl

/-- The test of `Honest` without a model: nobody reports sat. -/
def refutes : Lbl → Bool
  | .coordDone _ r => r != .sat
  | _ => true

theorem refutes_iff {n : Nat} {s : State} {l : Lbl} (h : refutes l = true) :
    Honest noModel n s l := by
  cases l with
  | coordDone c r =>
    intro F _
    refine ⟨fun hr => ?_, fun _ m => m.elim⟩
    subst hr
    cases h
  | isoPre pids => exact fun F _ m => m.elim
  | _ => trivial

/-- Two coordinators and one node after pre-partition: coordinator 0 splits its
node and hands the part over to coordinator 1, and both refute what they have. -/
theorem verdict_sound_split : ∃ s, (honestFreshLts noModel 2).Reachable s ∧
    (s.received 2).length = 1 ∧ s.leader.phase = .stopped (.verdict .unsat) ∧
      VerdictOk noModel s := by
  obtain ⟨s, hr, hp⟩ := LTS.exists_reachable_of_exec_guard (init 2) (step 2)
    (fun s l => fresh s l && refutes l)
    (fun s l => fresh s l = true ∧ Honest noModel 2 s l)
    (fun s l h => ⟨(Bool.and_eq_true _ _ ▸ h : _ ∧ _).1,
      refutes_iff (Bool.and_eq_true _ _ ▸ h : _ ∧ _).2⟩)
    [.leaderBoot, .coordRead 2 .decline, .isoPre [10], .leaderRecv 2, .coordRead 2 .decline,
      .coordRead 0 .decline, .coordFile 0,
      -- the split, and the transfer of its file
      .leaderAssign true, .coordRead 0 (.grant 4), .leaderRecv 0, .coordRead 0 .decline,
      .coordRead 1 .decline, .coordFile 1,
      .coordDone 0 .unsat, .coordDone 1 .unsat, .leaderRecv 0, .leaderRecv 1]
    (fun s => (s.received 2).length == 1 && s.leader.phase == .stopped (.verdict .unsat))
    (by decide +kernel)
  simp only [Bool.and_eq_true, beq_iff_eq] at hp
  exact ⟨s, hr, hp.1, hp.2, verdict_sound _ 2 s hr⟩

/-- The only model is in the first of the two nodes coordinator 0 grants in
`staleGrants`; both transfers then deliver the second. -/
def lostRegion (rank round pid : Nat) : Bool :=
  (rank, round, pid) ∈ [(5, 0, 11), (1, 0, 1), (0, 1, 1)]

set_option maxRecDepth 40000 in
/-- With stale refusals the verdict of honest coordinators can be wrong: nobody
works on the node with the model, and the leader stops with unsat. -/
theorem verdict_wrong : ∃ s, ((lts 5).restrict (Honest (oneModel lostRegion) 5)).Reachable s ∧
    ¬VerdictOk (oneModel lostRegion) s := by
  obtain ⟨s, hr, hp⟩ := LTS.exists_reachable_of_exec_guard (init 5) (step 5)
    (honest lostRegion 5) (Honest (oneModel lostRegion) 5) (fun s l h => honest_iff h)
    (staleGrants ++ [.leaderRecv 0, .leaderAssign false, .leaderAssign false,
      .leaderAssign false, .leaderAssign false, .leaderAssign true, .leaderRecv 0,
      .coordRead 0 .decline, .coordRead 0 .decline, .coordRead 0 .decline, .coordRead 4 .decline,
      .coordFile 4, .coordRead 3 .decline, .coordFile 3,
      -- four honest reports
      .coordDone 0 .unsat, .coordDone 1 .unsat, .coordDone 3 .unsat, .coordDone 4 .unsat,
      .leaderRecv 0, .leaderRecv 0, .leaderRecv 1, .leaderRecv 3, .leaderRecv 4])
    (fun s => s.leader.phase == .stopped (.verdict .unsat)) (by decide +kernel)
  refine ⟨s, hr, fun hok => ?_⟩
  have hempty := (hok .unsat (by simpa using hp)).1 rfl
  have hmem : () ∈ (oneModel lostRegion).models .input := by
    show inside lostRegion .input = true
    rfl
  rw [hempty] at hmem
  exact hmem

end AriParti.L4
