import AriParti.L3Coordinator.Mirror

/-!
# What a coordinator promises

The leader relies on the result of a coordinator: sat means that the formula of
its round has a model, unsat that every model of it is a model of a node the
coordinator has handed over. Here this is proved of the coordinator with its
partitioner, for every interleaving of the two.

Trusted are the solvers: each answers about the file of its node, which it has
read. A solver is given up, for an error or for its time, only where the
partitioner has split the node; a leaf that is given up is a part of the search
space that nobody looks at again, and the verdict of the partitioner does not
count it.

## Layout

* `Ledger`: a session with the nodes it has handed over.
* `Honest`: what is trusted.
* `Justified`: the lines sent, the tree and the results, as far as they are
  about unsat nodes.

## Results

* `coordinator_contract`: the two results of a round.
-/
namespace AriParti.L3
open AriParti.Core AriParti.L1 AriParti.L2 Context

/-- A session with the nodes handed over so far, by the partitioner's numbers. -/
structure Ledger (K : Kernel) extends Session K where
  handed : List Nat

namespace Session

/-- The nodes a step hands over. -/
def handsOver {K : Kernel} (s : Session K) : Label → List Nat
  | .coord (.split v) => [(s.coord.tree.node v).pid]
  | _ => []

variable {P : Problem} {pr : Params} {im : IntervalManager} {so : Sorting}

/-- A solver has read the file of the node `n`, and answers right. -/
def Answers (s : Session (paving P pr im so)) (n : Nat) (sat : Prop) : Prop :=
  ∃ t : Task, s.parti.files n = some t ∧ (sat ↔ ∃ σ, Respects P σ ∧ t.Holds σ)

/-- A solver is given up on a node that has been split. -/
def GivesUp (s : Session (paving P pr im so)) (n : Nat) : Prop := s.parti.childrenOf n ≠ []

/-- What is trusted in a step. -/
def Honest (s : Session (paving P pr im so)) : Label → Prop
  | .coord (.check v o) => (s.coord.tree.node v).status = .solving →
    match o with
    | .sat => s.Answers (s.coord.tree.node v).pid True
    | .unsat => s.Answers (s.coord.tree.node v).pid False
    | .error => s.GivesUp (s.coord.tree.node v).pid
    | .running timeUp => timeUp = true → v ≠ 0 → s.GivesUp (s.coord.tree.node v).pid
  | .original .sat => ∃ σ, Model P σ
  | .original .unsat => ∀ σ, ¬ Model P σ
  | _ => True

end Session

/-- The sessions of a coordinator, with its ledger. -/
def ledger (K : Kernel) (maxAlive cores : Nat) : LTS (Ledger K) Session.Label where
  init r := r = ⟨Session.start, []⟩
  step r l r' := Session.Step K maxAlive cores r.toSession l r'.toSession ∧
    r'.handed = r.handed ++ r.toSession.handsOver l

variable {P : Problem} {pr : Params} {im : IntervalManager} {so : Sorting} {maxAlive cores : Nat}

/-- A model of the problem is known, or of the task of a consistent node. -/
def Satisfied (p : Context (paving P pr im so)) : Prop :=
  (∃ σ, Model P σ) ∨ ∃ n < p.size, (p.node n).content.inconsistent = false ∧
    ∃ t σ, convertNodeToTask P so (p.node n).content = some t ∧ Respects P σ ∧ t.Holds σ

namespace Coordinator
open ParallelTree

variable {p p' : Context (paving P pr im so)} {H H' : List Nat} {ls : List P2C}
  {c c' : Coordinator} {v : Nat}

/-- What a coordinator says is so: the lines it has sent, its tree, and its
results. -/
structure Justified (p : Context (paving P pr im so)) (H : List Nat) (ls : List P2C)
    (c : Coordinator) : Prop where
  unsat : ∀ n, .unsatNode n ∈ c.sent → p.Announced n ∧ Spent p H n
  ended : ∀ n, .terminateNode n ∈ c.sent →
    p.Announced n ∧ (p.childrenOf n ≠ [] ∨ Spent p H n)
  tree : c.status = .solving → Mirror p H ls c.tree
  refuted : c.result = .unsat ∨ c.tree.result = .unsat → Exhausted p H
  solved : c.result = .sat ∨ c.tree.result = .sat → Satisfied p

theorem justified_start : Justified p H [] startSolving where
  unsat n hn := by cases hn
  ended n hn := by cases hn
  tree _ := mirror_empty
  refuted h := by rcases h with h | h <;> cases h
  solved h := by rcases h with h | h <;> cases h

/-- Another tree, and results that are those of before or are so. -/
theorem Justified.update (h : Justified p H ls c) (hsent : c'.sent = c.sent)
    (htree : c'.status = .solving → Mirror p H ls c'.tree)
    (href : c'.result = .unsat ∨ c'.tree.result = .unsat →
      (c.result = .unsat ∨ c.tree.result = .unsat) ∨ Exhausted p H)
    (hsol : c'.result = .sat ∨ c'.tree.result = .sat →
      (c.result = .sat ∨ c.tree.result = .sat) ∨ Satisfied p) : Justified p H ls c' := by
  refine ⟨fun n hn => ?_, fun n hn => ?_, htree, fun hr => ?_, fun hr => ?_⟩
  · rw [hsent] at hn
    exact h.unsat n hn
  · rw [hsent] at hn
    exact h.ended n hn
  · exact (href hr).elim h.refuted id
  · exact (hsol hr).elim h.solved id

/-- A tree whose result is the one of before, or unsat. -/
theorem Justified.setTree (h : Justified p H ls c) {t : ParallelTree}
    (ht : c.status = .solving → Mirror p H ls t)
    (hres : t.result = c.tree.result ∨ t.result = .unsat ∧ Exhausted p H) :
    Justified p H ls { c with tree := t } := by
  refine h.update rfl ht (fun hr => ?_) fun hr => ?_
  · rcases hres with he | ⟨-, hx⟩
    · exact .inl (hr.imp_right he.symm.trans)
    · exact .inr hx
  · rcases hres with he | ⟨he, -⟩
    · exact .inl (hr.imp_right he.symm.trans)
    · exact .inl (.inl (hr.resolve_right fun hs => by cases he.symm.trans hs))

theorem afterIsDone_result {st : NodeStatus} (h : c.afterIsDone.result = st) :
    c.result = st ∨ c.tree.result = st := by
  have h : c.reader.afterIsDone.result = st := h
  unfold PrePartition.afterIsDone at h
  split at h
  · exact .inl h
  · split at h
    · exact .inr h
    · exact .inl h

theorem Justified.afterIsDone (h : Justified p H ls c) : Justified p H ls c.afterIsDone :=
  h.update rfl h.tree (fun hr => .inl (hr.elim afterIsDone_result .inr))
    fun hr => .inl (hr.elim afterIsDone_result .inr)

/-- A line that is so is sent. -/
theorem Justified.send (h : Justified p H ls c) {line : C2P}
    (hunsat : ∀ n, line = .unsatNode n → p.Announced n ∧ Spent p H n)
    (hended : ∀ n, line = .terminateNode n → p.Announced n ∧ (p.childrenOf n ≠ [] ∨ Spent p H n)) :
    Justified p H ls (c.sendPartitionerMessage line) := by
  unfold sendPartitionerMessage
  split
  · refine ⟨fun n hn => ?_, fun n hn => ?_, h.tree, h.refuted, h.solved⟩
    · rcases List.mem_append.1 hn with hn | hn
      · exact h.unsat n hn
      · exact hunsat n (List.mem_singleton.1 hn).symm
    · rcases List.mem_append.1 hn with hn | hn
      · exact h.ended n hn
      · exact hended n (List.mem_singleton.1 hn).symm
  · exact h

/-- What is so stays so: the partitioner's tree grows, and more nodes are
handed over. -/
theorem Justified.mono (h : Justified p H ls c)
    (hspent : ∀ n, p.Announced n → Spent p H n → Spent p' H' n)
    (hann : ∀ n, p.Announced n → p'.Announced n)
    (hch : ∀ n, p.Announced n → p.childrenOf n ≠ [] → p'.childrenOf n ≠ [])
    (htree : Mirror p H ls c.tree → Mirror p' H' ls c.tree)
    (hx : Exhausted p H → Exhausted p' H') (hsat : Satisfied p → Satisfied p') :
    Justified p' H' ls c := by
  refine ⟨fun n hn => ?_, fun n hn => ?_, fun hst => htree (h.tree hst), fun hr => hx (h.refuted hr),
    fun hr => hsat (h.solved hr)⟩
  · obtain ⟨ha, hs⟩ := h.unsat n hn
    exact ⟨hann n ha, hspent n ha hs⟩
  · obtain ⟨ha, hs⟩ := h.ended n hn
    exact ⟨hann n ha, hs.imp (hch n ha) (hspent n ha)⟩

section

variable (hr : (machine (paving P pr im so) maxAlive).Reachable p) (hls : ls <+: p.written)
include hr hls

/-- A node is terminated that is split, or spent. -/
theorem Justified.terminateNode (h : Justified p H ls c) (hst : c.status = .solving)
    (hv : v < c.tree.size) (hx : p.childrenOf (c.tree.node v).pid ≠ [] ∨ Spent p H (c.tree.node v).pid) :
    Justified p H ls (c.terminateNode v) := by
  have hm := h.tree hst
  have htree := terminateNode_tree (c := c) v
  unfold Coordinator.terminateNode at htree ⊢
  split
  · exact h
  · rename_i he
    rw [if_neg he, sendPartitionerMessage_tree] at htree
    have htree : c.tree.terminateNode v = c.tree.terminate v := htree
    have hq := terminate_quiet (t := c.tree) v
    obtain ⟨hw, hsol⟩ := terminate_queue (t := c.tree) v
    rw [htree]
    refine (h.setTree (fun _ => hm.quiet hq fun w hmem => ?_) (.inl hq.result)).send
      (fun n hn => by cases hn) fun n hn => ?_
    · rw [hw, hsol] at hmem
      exact hm.lt w hmem
    · cases hn
      exact ⟨(hm.announced hr hls hv).1, hx⟩

/-- Above a node of the tree all nodes are split. -/
theorem Justified.terminatePath (fuel : Nat) : ∀ (c : Coordinator) (v : Nat), Justified p H ls c →
    c.status = .solving → v < c.tree.size →
    (p.childrenOf (c.tree.node v).pid ≠ [] ∨ Spent p H (c.tree.node v).pid) →
    Justified p H ls (Coordinator.terminatePath fuel c v) := by
  induction fuel with
  | zero => exact fun _ _ h _ _ _ => h
  | succ fuel ih =>
    intro c v h hst hv hx
    have hone := h.terminateNode hr hls hst hv hx
    have hq : Quiet c.tree (c.terminateNode v).tree := by
      rw [terminateNode_tree]
      exact terminate_quiet v
    have hst' := (terminateNode_same (c := c) v).status.trans hst
    unfold Coordinator.terminatePath
    simp only
    split
    · exact hone
    · rename_i q hq'
      have hm := hone.tree hst'
      have hlt : q < v := hm.shape.grown.parentLt v q hq'
      have hvlt : v < (c.terminateNode v).tree.size := by rw [hq.size]; exact hv
      have hmem : v ∈ ((c.terminateNode v).tree.node q).children :=
        (hm.shape.grown.child q v).2 ⟨hvlt, hq'⟩
      exact ih _ q hone hst' (hlt.trans hvlt) (.inl (List.ne_nil_of_mem (hm.child hr hls hmem)))

/-- A spent node is refuted, with its line. -/
theorem Justified.refute (h : Justified p H ls c) (hst : c.status = .solving)
    (hv : v < c.tree.size) (hs : Spent p H (c.tree.node v).pid) :
    Justified p H ls { c with tree := c.tree.nodeSolvedUnsat v } := by
  have hm := h.tree hst
  refine h.setTree (fun _ => hm.refute hr hls hv hs) ?_
  rcases hm.refute_result hr hls hv hs with he | hx
  · exact .inl he
  · rcases (nodeSolvedUnsat_refuting c.tree v).result with hu | he
    · exact .inr ⟨hu, hx⟩
    · exact .inl he

/-- **A node is handed over.** -/
theorem Justified.split (h : Justified p H ls c) (hst : c.status = .solving)
    (hv : v < c.tree.size) (hin : (c.tree.node v).pid ∈ H) : Justified p H ls (c.setNodeSplit v) := by
  have hs : Spent p H (c.tree.node v).pid := spent_self hin
  have hpath := h.terminatePath hr hls (v + 1) c v hst hv (.inr hs)
  have hst' := (terminatePath_same (v + 1) c v).status.trans hst
  have hq := terminatePath_quiet (v + 1) c.tree v
  rw [← terminatePath_tree] at hq
  have hpid := hq.pid v
  rw [← hpid] at hs
  have href := hpath.refute hr hls hst' (by rw [hq.size]; exact hv) hs
  unfold setNodeSplit
  refine href.send (fun n hn => ?_) fun n hn => by cases hn
  cases hn
  rw [hpid] at hs ⊢
  exact ⟨((h.tree hst).announced hr hls hv).1, hs⟩

/-- **A look at a solver** that is trusted. -/
theorem Justified.check (h : Justified p H ls c) (hst : c.status = .solving)
    (hv : v < c.tree.size) (o : SolverOutcome)
    (hgive : o = .error ∨ o = .running true ∧ v ≠ 0 → (c.tree.node v).status = .solving →
      p.childrenOf (c.tree.node v).pid ≠ [])
    (hsat : o = .sat → (c.tree.node v).status = .solving → Satisfied p)
    (hunsat : o = .unsat → (c.tree.node v).status = .solving → Spent p H (c.tree.node v).pid) :
    Justified p H ls (c.checkSolvingStatus v o) := by
  have hm := h.tree hst
  unfold checkSolvingStatus
  split
  · rename_i hsolv
    have hsolv := NodeStatus.isSolving_iff.1 hsolv
    cases o with
    | error => exact h.terminateNode hr hls hst hv (.inl (hgive (.inl rfl) hsolv))
    | running timeUp =>
      simp only
      split
      · rename_i ht
        obtain ⟨rfl, h0⟩ : timeUp = true ∧ v ≠ 0 := by simpa using ht
        exact h.terminateNode hr hls hst hv (.inl (hgive (.inr ⟨rfl, h0⟩) hsolv))
      · exact h
    | sat =>
      refine Justified.afterIsDone (h.update rfl (fun _ => ?_) (fun hres => ?_) fun _ => ?_)
      · exact (hm.unassign v).solvedSat v
      · exact .inl (.inl (hres.resolve_right fun he => by cases he))
      · exact .inr (hsat rfl hsolv)
    | unsat =>
      have hs := hunsat rfl hsolv
      have hq := unassign_quiet (t := c.tree) v
      have hun := Justified.setTree h (t := c.tree.modify v fun nd => { nd with assignTo := false })
        (fun _ => hm.unassign v) (.inl rfl)
      rw [← hq.pid v] at hs
      have href := (hun.refute hr hls hst (by rw [hq.size]; exact hv) hs).afterIsDone
      simp only
      split
      · exact href
      · refine href.send (fun n hn => ?_) fun n hn => by cases hn
        cases hn
        rw [hq.pid v] at hs
        exact ⟨(hm.announced hr hls hv).1, hs⟩
  · exact h

end

/-- **A line about a node.** -/
theorem Justified.node (h : Justified p H ls c) (hst : c.status = .solving)
    (hr : (machine (paving P pr im so) maxAlive).Reachable p) {line : P2C} {rest : List P2C}
    (hw : p.written = ls ++ line :: rest) (hunsat : ∀ n q, line = .newUnsatNode n q → Spent p H n)
    (hc : c.processPartitionerMsg (.node line) = some c') : Justified p H (ls ++ [line]) c' := by
  have made : ∀ t, c.tree.newNode line = some t →
      Justified p H (ls ++ [line]) { c with tree := t } := by
    intro t ht
    obtain ⟨hm, hres⟩ := (h.tree hst).newNode hr hw hunsat ht
    have hkeep : ∀ st, t.result = st → c.tree.result = st ∨ st = .unsat ∧ Exhausted p H := by
      intro st hs
      rcases newNode_result ht with hu | he
      · rcases hres with he | hx
        · exact .inl (he.symm.trans hs)
        · exact .inr ⟨hs.symm.trans hu, hx⟩
      · exact .inl (he.symm.trans hs)
    refine ⟨h.unsat, h.ended, fun _ => hm, fun hr => ?_, fun hr => ?_⟩
    · rcases hr with hr | hr
      · exact h.refuted (.inl hr)
      · rcases hkeep _ hr with he | hx
        · exact h.refuted (.inr he)
        · exact hx.2
    · rcases hr with hr | hr
      · exact h.solved (.inl hr)
      · rcases hkeep _ hr with he | hx
        · exact h.solved (.inr he)
        · cases hx.1
  obtain ⟨s, hs, rfl⟩ := Option.map_eq_some_iff.1 hc
  cases line with
  | newUnsatNode pid ppid =>
    obtain ⟨t, ht, rfl⟩ := Option.map_eq_some_iff.1 hs
    have hj := (made t ht).afterIsDone
    have hteq : (PrePartition.afterIsDone { c.reader with tree := t }).tree = t :=
      (PrePartition.afterIsDone_eq).1
    rw [hteq]
    exact hj
  | newUnknownNode pid ppid =>
    obtain ⟨t, ht, rfl⟩ := Option.map_eq_some_iff.1 hs
    exact made t ht

/-- A step of the partitioner. -/
theorem Justified.advance (h : Justified p H ls c)
    (hr : (machine (paving P pr im so) maxAlive).Reachable p) (hls : ls <+: p.written)
    (hH : ∀ n ∈ H, n < p.size) {l : L2.Label}
    (hs : L2.Step (paving P pr im so) maxAlive p l p') (hw : p.written <+: p'.written) :
    Justified p' H ls c := by
  obtain ⟨hsize, hnode⟩ := step_content (run_inv.reachable hr) hs
  have hold : ∀ n ∈ H, (p'.node n).content = (p.node n).content := fun n hn => (hnode n (hH n hn)).1
  have hlt : ∀ n, p.Announced n → n < p.size := by
    intro n hn
    rcases run_inv.reachable hr with rfl | ⟨-, hl⟩
    · obtain ⟨_, hn | hn⟩ := hn <;> cases hn
    · exact hl.announced hn
  refine h.mono (fun n hn hsp => hsp.congr (hnode n (hlt n hn)).1 hold) (fun n hn => ?_)
    (fun n hn hne => ?_) (fun hm => ?_) (fun hx => hx.congr hold) fun hsat => ?_
  · obtain ⟨q, hn⟩ := hn
    exact ⟨q, hn.imp (hw.subset ·) (hw.subset ·)⟩
  · show (p'.node n).children ≠ []
    rw [(hnode n (hlt n hn)).2 hne]
    exact hne
  · refine hm.mono fun v hv hsp => hsp.congr (hnode _ (hm.announced hr hls hv).2).1 hold
  · rcases hsat with hm | ⟨n, hn, hc, ht⟩
    · exact .inl hm
    · refine .inr ⟨n, hn.trans_le hsize, ?_⟩
      rw [(hnode n hn).1]
      exact ⟨hc, ht⟩

end Coordinator

namespace Session
open ParallelTree Coordinator

variable {s : Session (paving P pr im so)} {H : List Nat}

/-- An answer that no model of a task is there. -/
theorem Answers.spent (hP : SingleSort P)
    (hr : (machine (paving P pr im so) maxAlive).Reachable s.parti) {n : Nat}
    (h : s.Answers n False) : Spent s.parti H n := by
  obtain ⟨t, ht, hno⟩ := h
  obtain ⟨hlt, -, hconv⟩ := file_task hr ht
  refine spent_of_none fun σ hσ hf => hno.2 ⟨σ, hσ.toRespects, ?_⟩
  obtain ⟨t', ht', hholds⟩ := (follows_task hP hr hσ hlt hf).2
  cases ht'.symm.trans hconv
  exact hholds

theorem Answers.satisfied (hr : (machine (paving P pr im so) maxAlive).Reachable s.parti) {n : Nat}
    (h : s.Answers n True) : Satisfied s.parti := by
  obtain ⟨t, ht, hyes⟩ := h
  obtain ⟨hlt, hc, hconv⟩ := file_task hr ht
  obtain ⟨σ, hσ, hholds⟩ := hyes.1 trivial
  exact .inr ⟨n, hlt, hc, t, σ, hconv, hσ, hholds⟩

/-- The invariant: the partitioner is in a state it reaches on its own, and
the coordinator is justified. -/
structure Accounted (maxAlive : Nat) (s : Session (paving P pr im so)) (H : List Nat) : Prop where
  parti : (machine (paving P pr im so) maxAlive).Reachable s.parti
  taken : (∀ v, s.parti.phase ≠ .done v) → s.taken ≤ s.parti.written.length
  read : s.parti.read <+: s.coord.sent
  handed : ∀ n ∈ H, n < s.parti.size
  just : Justified s.parti H s.readLines s.coord

theorem readLines_prefix (s : Session (paving P pr im so)) : s.readLines <+: s.parti.written :=
  List.take_prefix _ _

theorem accounted_start : (start : Session (paving P pr im so)).Accounted maxAlive [] where
  parti := .init rfl
  taken _ := Nat.le_refl 0
  read := List.nil_prefix
  handed n hn := by cases hn
  just := justified_start

/-- A step of the partitioner that writes `lines`. -/
theorem Accounted.advance (h : s.Accounted maxAlive H) {p : Context (paving P pr im so)} {l : L2.Label}
    (hs : L2.Step (paving P pr im so) maxAlive s.parti l p) {lines : List P2C}
    (hw : p.written = s.parti.written ++ lines) (hrun : ∀ v, s.parti.phase ≠ .done v)
    (hread : p.read <+: s.coord.sent) : ({ s with parti := p } : Session _).Accounted maxAlive H := by
  have htaken := h.taken hrun
  have hlines : ({ s with parti := p } : Session _).readLines = s.readLines := by
    show p.written.take s.taken = s.parti.written.take s.taken
    rw [hw, List.take_append_of_le_length htaken]
  refine ⟨h.parti.step hs, fun _ => ?_, hread, fun n hn => ?_, ?_⟩
  · show s.taken ≤ p.written.length
    rw [hw, List.length_append]
    exact Nat.le_add_right_of_le htaken
  · exact (h.handed n hn).trans_le (step_content (run_inv.reachable h.parti) hs).1
  · rw [hlines]
    exact h.just.advance h.parti s.readLines_prefix h.handed hs ⟨lines, hw.symm⟩

/-- The coordinator moves alone. -/
theorem Accounted.coord (h : s.Accounted maxAlive H) {c : Coordinator} (hsent : s.coord.sent <+: c.sent)
    (hj : Justified s.parti H s.readLines c) : ({ s with coord := c } : Session _).Accounted maxAlive H :=
  ⟨h.parti, h.taken, h.read.trans hsent, h.handed, hj⟩

/-- What the coordinator reads next: a line about a node, or the verdict. -/
theorem toCoord_cases {l : PrePartition.Line} {rest : List PrePartition.Line}
    (h : s.toCoord = l :: rest) :
    (∃ line more, l = .node line ∧ s.parti.written = s.readLines ++ line :: more ∧
      s.parti.written.take (s.taken + 1) = s.readLines ++ [line] ∧
      s.taken + 1 ≤ s.parti.written.length) ∨
    ∃ v, s.parti.phase = .done v ∧ l = verdictLine v ∧
      s.parti.written.take (s.taken + 1) = s.readLines := by
  unfold toCoord output at h
  by_cases hlt : s.taken < s.parti.written.length
  · left
    rw [List.drop_append_of_le_length (by rw [List.length_map]; exact hlt.le), ← List.map_drop,
      List.drop_eq_getElem_cons hlt, List.map_cons, List.cons_append, List.cons.injEq] at h
    refine ⟨s.parti.written[s.taken], s.parti.written.drop (s.taken + 1), h.1.symm, ?_, ?_, hlt⟩
    · rw [readLines, ← List.drop_eq_getElem_cons hlt, List.take_append_drop]
    · exact List.take_succ_eq_append_getElem hlt
  · right
    have hge : s.parti.written.length ≤ s.taken := Nat.le_of_not_lt hlt
    have htake : s.parti.written.take (s.taken + 1) = s.readLines := by
      rw [readLines, List.take_of_length_le hge, List.take_of_length_le (by omega)]
    rw [List.drop_append, List.drop_eq_nil_of_le (by rw [List.length_map]; exact hge),
      List.nil_append] at h
    split at h
    · rename_i v hv
      refine ⟨v, hv, ?_, htake⟩
      have hmem : l ∈ [verdictLine v] := List.mem_of_mem_drop (h ▸ List.mem_cons_self)
      exact List.mem_singleton.1 hmem
    · rw [List.drop_nil] at h
      cases h

/-- The nodes reported so far are spent. -/
theorem Accounted.reported (h : s.Accounted maxAlive H) {n : Nat} (hn : .unsatNode n ∈ s.parti.read) :
    Spent s.parti H n :=
  (h.just.unsat n (h.read.subset hn)).2

/-- **The coordinator reads a line.** -/
theorem Accounted.line (h : s.Accounted maxAlive H) (hP : SingleSort P)
    (hst : s.coord.status = .solving) {l : PrePartition.Line} {rest : List PrePartition.Line}
    (hpipe : s.toCoord = l :: rest) {c : Coordinator} (hc : s.coord.processPartitionerMsg l = some c) :
    ({ s with coord := c, taken := s.taken + 1 } : Session _).Accounted maxAlive H := by
  have hsent : c.sent = s.coord.sent := by
    obtain ⟨_, -, rfl⟩ := Option.map_eq_some_iff.1 hc
    rfl
  have hread : s.parti.read <+: c.sent := by
    rw [hsent]
    exact h.read
  rcases toCoord_cases hpipe with ⟨line, more, rfl, hw, htake, hlen⟩ | ⟨v, hv, rfl, htake⟩
  · refine ⟨h.parti, fun _ => hlen, hread, h.handed, ?_⟩
    show Justified s.parti H (s.parti.written.take (s.taken + 1)) c
    rw [htake]
    refine h.just.node hst h.parti hw (fun n q hline => ?_) hc
    -- the partitioner has refuted the node
    rcases run_inv.reachable h.parti with he | ⟨-, hl⟩
    · rw [he] at hw
      exact absurd hw.symm (List.append_ne_nil_of_right_ne_nil _ (List.cons_ne_nil _ _))
    · have hmem : line ∈ s.parti.written := by
        rw [hw]
        exact List.mem_append_right _ List.mem_cons_self
      rw [hline] at hmem
      exact spent_of_unsat h.parti hP (fun m hm => h.reported hm) (hl.unsat n q hmem).2.2
  · refine ⟨h.parti, fun hrun => absurd hv (hrun v), hread, h.handed, ?_⟩
    show Justified s.parti H (s.parti.written.take (s.taken + 1)) c
    rw [htake]
    obtain ⟨s', hs', rfl⟩ := Option.map_eq_some_iff.1 hc
    cases v with
    | unsat =>
      have hx : Exhausted s.parti H := spent_of_verdict h.parti hP hv (fun m hm => h.reported hm)
        fun m hm => (h.just.ended m (h.read.subset hm)).2
      cases hs'
      refine h.just.update rfl h.just.tree (fun _ => .inr hx) fun hr => ?_
      exact .inl (.inr (hr.resolve_left fun he => by cases he))
    | unknown =>
      have hs' : (if s.coord.reader.tree.size = 0 then none else some s.coord.reader) = some s' := hs'
      split at hs'
      · cases hs'
      · cases hs'
        exact h.just

/-- A step that hands nothing over. -/
theorem Accounted.none (h : s.Accounted maxAlive H) : s.Accounted maxAlive (H ++ []) := by
  rwa [List.append_nil]

/-- **A step keeps the account**, with the nodes it hands over. -/
theorem Accounted.step (h : s.Accounted maxAlive H) (hP : SingleSort P)
    {s' : Session (paving P pr im so)} {l : Label} (hg : s.Honest l)
    (hs : Step (paving P pr im so) maxAlive cores s l s') :
    s'.Accounted maxAlive (H ++ s.handsOver l) := by
  cases hs with
  | @parti p lines hst hp hw =>
    refine Accounted.none ?_
    refine h.advance hp hw (tau_running hp) ?_
    rw [tau_read hp]
    exact h.read
  | @read line rest hst hphase hpipe =>
    refine Accounted.none ?_
    have hsent : s.coord.sent = s.parti.read ++ line :: rest := by
      obtain ⟨more, hmore⟩ := h.read
      unfold toParti at hpipe
      rw [← hmore, List.drop_left] at hpipe
      rw [← hmore, hpipe]
    have hmem : line ∈ s.coord.sent := by
      rw [hsent]
      exact List.mem_append_right _ List.mem_cons_self
    have hann : ∀ id, line = .unsatNode id ∨ line = .terminateNode id → s.parti.Announced id := by
      rintro id (rfl | rfl)
      · exact (h.just.unsat id hmem).1
      · exact (h.just.ended id hmem).1
    have hw : (s.parti.readLine line).written = s.parti.written ++ [] :=
      ((parseLine_recolors line).written).trans (List.append_nil _).symm
    refine h.advance (.readLine line hphase hann) hw (fun v hv => by rw [hphase] at hv; cases hv) ?_
    show s.parti.read ++ [line] <+: s.coord.sent
    rw [hsent, List.prefix_append_right_inj]
    exact List.prefix_append [line] rest
  | line hst _ hpipe hc =>
    refine Accounted.none ?_
    exact h.line hP hst hpipe hc
  | processDone | receiveDone =>
    refine Accounted.none ?_
    exact h.coord (List.prefix_refl _) (h.just.update rfl h.just.tree .inl .inl)
  | @alone a c ha hc =>
    have hls := s.readLines_prefix
    cases hc with
    | startSolving | line | processDone | receiveDone => exact ha.elim
    | @check v o hst hv =>
      refine Accounted.none ?_
      have hlt := (h.just.tree hst).lt v (.inr hv)
      refine h.coord (checkSolvingStatus_adds v o) (h.just.check h.parti hls hst hlt o ?_ ?_ ?_)
      · rintro (rfl | ⟨rfl, h0⟩) hsolv
        · exact hg hsolv
        · exact hg hsolv rfl h0
      · rintro rfl hsolv
        exact Answers.satisfied h.parti (hg hsolv)
      · rintro rfl hsolv
        exact Answers.spent hP h.parti (hg hsolv)
    | @keepSolvings vs hst hvs _ =>
      refine Accounted.none ?_
      have hm := h.just.tree hst
      have hq : SameShape s.coord.tree { s.coord.tree with solvings := vs } :=
        ⟨rfl, rfl, fun _ => rfl, fun _ => rfl, fun _ => rfl⟩
      exact h.coord (List.prefix_refl _) (h.just.setTree (fun _ => hm.congr hq (fun _ hu => hu)
        fun w hw => hm.lt w (hw.imp_right fun hw => hvs.subset hw)) (.inl rfl))
    | runWaitingTask hst _ =>
      refine Accounted.none ?_
      have hm := h.just.tree hst
      exact h.coord (List.prefix_refl _) (h.just.setTree (fun _ => hm.runWaitingTask)
        (.inl runWaitingTask_quiet.result))
    | @split ready fuel v hst hsel =>
      have hm := h.just.tree hst
      have hlt := selectSplitNode_lt hm.shape hsel
      have hpid := (hm.announced h.parti hls hlt).2
      have hsub : ∀ n ∈ H, n ∈ H ++ [(s.coord.tree.node v).pid] :=
        fun n hn => List.mem_append_left _ hn
      have hmore : Justified s.parti (H ++ [(s.coord.tree.node v).pid]) s.readLines s.coord :=
        h.just.mono (fun _ _ hs => hs.mono hsub) (fun _ ha => ha) (fun _ _ hne => hne)
          (fun hm => hm.mono fun _ _ hs => hs.mono hsub) (fun hx => hx.mono hsub) id
      refine ⟨h.parti, h.taken, h.read.trans (setNodeSplit_adds v), fun n hn => ?_, ?_⟩
      · rcases List.mem_append.1 hn with hn | hn
        · exact h.handed n hn
        · rw [List.mem_singleton.1 hn]
          exact hpid
      · exact hmore.split h.parti hls hst hlt
          (List.mem_append_right _ (List.mem_singleton_self _))
    | roundDone hst _ =>
      refine Accounted.none ?_
      refine h.coord (List.prefix_refl _) (h.just.afterIsDone.update rfl (fun hf => by cases hf)
        (fun hr => ?_) fun hr => ?_)
      · exact .inl (.inl (hr.resolve_right fun he => by cases he))
      · exact .inl (.inl (hr.resolve_right fun he => by cases he))
  | @original st hst hsolved =>
    refine Accounted.none ?_
    refine h.coord (List.prefix_refl _) (h.just.update rfl h.just.tree (fun hr => ?_) fun hr => ?_)
    · rcases hr with hr | hr
      · have hr : st = .unsat := hr
        rw [hr] at hg
        exact .inr fun σ hσ => absurd hσ (hg σ)
      · exact .inl (.inr hr)
    · rcases hr with hr | hr
      · have hr : st = .sat := hr
        rw [hr] at hg
        exact .inr (.inl hg)
      · exact .inl (.inr hr)

end Session

/-- What is trusted in a step of a session with its ledger. -/
def Ledger.Honest (r : Ledger (paving P pr im so)) (l : Session.Label) : Prop :=
  r.toSession.Honest l

theorem accounted_inductive (hP : SingleSort P) :
    ((ledger (paving P pr im so) maxAlive cores).restrict Ledger.Honest).Inductive fun r =>
      r.toSession.Accounted maxAlive r.handed := by
  refine ⟨fun r hr => ?_, fun r l r' h hs => ?_⟩
  · rw [show r = ⟨Session.start, []⟩ from hr]
    exact Session.accounted_start
  · obtain ⟨hg, hs, hH⟩ := hs
    rw [hH]
    exact h.step hP hg hs

/-- The models that are left are those of the nodes handed over. -/
theorem handed_of_unsat (hP : SingleSort P) {r : Ledger (paving P pr im so)}
    (hr : ((ledger (paving P pr im so) maxAlive cores).restrict Ledger.Honest).Reachable r)
    (hres : r.coord.result = .unsat) {σ : Assignment} (hσ : Model P σ) :
    ∃ n ∈ r.handed, ∃ t, convertNodeToTask P so (r.parti.node n).content = some t ∧ t.Holds σ := by
  have h := (accounted_inductive hP).reachable hr
  obtain ⟨n, hn, hf⟩ := h.just.refuted (.inl hres) σ hσ
  exact ⟨n, hn, (follows_task hP h.parti hσ (h.handed n hn) hf).2⟩

/-- A model of the task of a node is one of the problem. -/
theorem model_of_sat (hP : SingleSort P) {r : Ledger (paving P pr im so)}
    (hr : ((ledger (paving P pr im so) maxAlive cores).restrict Ledger.Honest).Reachable r)
    (hres : r.coord.result = .sat) (hM : NoMoreModels r.parti) : ∃ σ, Model P σ := by
  have h := (accounted_inductive hP).reachable hr
  rcases h.just.solved (.inl hres) with hm | ⟨n, hn, hc, t, σ, ht, hσ, hholds⟩
  · exact hm
  · exact ⟨σ, hM n hn hc t ht σ hσ hholds⟩

/-- A run of a session that hands nothing over. -/
theorem ledger_of_session {s : Session (paving P pr im so)}
    (hr : ((session (paving P pr im so) maxAlive cores).restrict fun s l =>
      s.Honest l ∧ s.handsOver l = []).Reachable s) :
    ((ledger (paving P pr im so) maxAlive cores).restrict Ledger.Honest).Reachable ⟨s, []⟩ := by
  induction hr with
  | init h => exact .init (congrArg (Ledger.mk · []) h)
  | step _ hs ih =>
    obtain ⟨⟨hg, hover⟩, hs⟩ := hs
    exact ih.step ⟨hg, hs, by rw [hover]; rfl⟩

/-- What the partitioner writes about the root of `halfLine` and its children. -/
def halfLines : List P2C := [.newUnknownNode 0 none, .newUnsatNode 2 (some 0)]

/-- The coordinator has read it. -/
def halfRead : Coordinator :=
  (halfLines.foldlM (fun (c : Coordinator) l => c.processPartitionerMsg (.node l)) .startSolving).getD
    Coordinator.idle

/-- The solver of the root runs. -/
def halfSolving : Coordinator := { halfRead with tree := halfRead.tree.runWaitingTask }

/-- `0 < x` and `x < 0` as unit clauses. -/
def bothSides : Problem :=
  .ofAtoms 1 (fun _ => false) (fun _ => false) [.ineq 0 0 true true, .ineq 0 0 false true] [] rfl

/-- The root of `halfLine` is split and its right child refuted; then the solver of
the root says sat. -/
theorem half_round : ∃ r : Ledger halfKernel,
    ((ledger halfKernel 8 1).restrict Ledger.Honest).Reachable r ∧ r.coord.result = .sat ∧
      r.parti = halfSplit := by
  have hw : halfSplit.written = halfLines := by decide
  have hphase : halfSplit.phase = .poll := by decide
  have hread : halfLines.foldlM (fun (c : Coordinator) l => c.processPartitionerMsg (.node l))
      Coordinator.startSolving = some halfRead := rfl
  let s₁ : Session halfKernel := ⟨halfRead, halfSplit, 2⟩
  let s₂ : Session halfKernel := ⟨halfSolving, halfSplit, 2⟩
  have h₀ : ((session halfKernel 8 1).restrict fun s l => s.Honest l ∧ s.handsOver l = []).Reachable
      ⟨Coordinator.startSolving, halfSplit, 0⟩ :=
    Session.reachable_parti (fun _ _ _ => ⟨trivial, rfl⟩) (halfSplit_reachable fun _ => rfl)
  have h₁ : ((session halfKernel 8 1).restrict fun s l =>
      s.Honest l ∧ s.handsOver l = []).Reachable s₁ :=
    Session.reachable_lines (fun _ _ => ⟨trivial, rfl⟩) h₀ rfl rfl
      (fun v hv => by rw [show halfSplit.phase = _ from hv] at hphase; cases hphase) hw hread
  have run : Session.Step halfKernel 8 1 s₁ (.coord .runWaitingTask) s₂ :=
    .alone trivial (.runWaitingTask rfl (by decide))
  have check : Session.Step halfKernel 8 1 s₂ (.coord (.check 0 .sat))
      { s₂ with coord := halfSolving.checkSolvingStatus 0 .sat } :=
    .alone trivial (.check .sat rfl (by decide))
  -- the task of the root has the model `one`
  have hsat : halfTask.Holds one := by
    refine ⟨fun c hc => ?_, fun a ha => absurd ha List.not_mem_nil⟩
    rcases List.mem_pair.1 hc with rfl | rfl
    · exact ⟨_, List.mem_cons_self, one_holds⟩
    · exact ⟨_, List.mem_cons_self, one_holds⟩
  have hroot : convertNodeToTask halfLine stable (halfSplit.node 0).content = some halfTask := by
    decide
  have hans : s₂.Answers (s₂.coord.tree.node 0).pid True :=
    ⟨halfTask, hroot, fun _ => ⟨one, one_model.toRespects, hsat⟩, fun _ => trivial⟩
  have h₂ := (h₁.step (l := Session.Label.coord .runWaitingTask) ⟨⟨trivial, rfl⟩, run⟩).step
    (l := Session.Label.coord (.check 0 .sat)) ⟨⟨fun _ => hans, rfl⟩, check⟩
  exact ⟨_, ledger_of_session h₂, by decide, rfl⟩

/-- The partitioner refutes `bothSides` in its first call. -/
theorem bothSides_round : ∃ r : Ledger (paving bothSides defaults defaultManager stable),
    ((ledger (paving bothSides defaults defaultManager stable) 8 1).restrict Ledger.Honest).Reachable r ∧
      r.coord.result = .unsat ∧ r.handed = [] := by
  let K := paving bothSides defaults defaultManager stable
  let p : Context K := { (empty (K := K)).mkNode none (initRoot bothSides defaults defaultManager) with
    phase := .done .unsat }
  have h₀ : ((machine K 8).restrict Session.Silent).Reachable p :=
    (LTS.Reachable.init rfl).step ⟨rfl, .initUnsat rfl (by decide +kernel)⟩
  have h₁ : ((session K 8 1).restrict fun s l => s.Honest l ∧ s.handsOver l = []).Reachable
      ⟨Coordinator.startSolving, p, 0⟩ :=
    Session.reachable_parti (fun _ _ _ => ⟨trivial, rfl⟩) h₀
  have line : Session.Step K 8 1 ⟨Coordinator.startSolving, p, 0⟩ (.coord (.line .unsat))
      ⟨{ Coordinator.startSolving with result := .unsat }, p, 1⟩ := .line rfl (by decide) rfl rfl
  have h₂ := h₁.step (l := Session.Label.coord (.line .unsat)) ⟨⟨trivial, rfl⟩, line⟩
  exact ⟨_, ledger_of_session h₂, rfl, rfl⟩

end AriParti.L3
