import Mathlib.Data.Finset.Card
import Mathlib.Data.List.Pairwise
import AriParti.L3Coordinator.Closure

/-!
# The first split of a round

The isolated coordinator reads its partitioner until the tree has as many
parts as there are other coordinators, and gives each of them one part. The
parts are kept in `subnodes`, from the root down: a node with two children is
replaced by those of them that are not refuted.

Between two rounds of the loop any number of lines may have come. The loop
ends when there are enough parts, when the time is up, when the partitioner's
output has ended, or when a verdict is known.

## Results

* `Frontier.line`: no line takes a part of the tree out of reach of `subnodes`.
* `expand_frontier`: the inner loop ends without an empty deque.
* `pre_partition_cover`: the selected nodes are at most `num_dist_coords`, none
  is above another, and each leaf that is not unsat is below exactly one.
-/
namespace AriParti.L3
open AriParti.Core AriParti.L2

namespace PrePartition

/-- What the partitioner may write on a line. Debug lines and the lines of a
model change nothing here. -/
inductive Line where
  | node (line : P2C)
  | sat
  | unsat
  | unknown
  | other
  deriving DecidableEq, Repr

inductive Phase where
  /-- in the loop -/
  | loop
  /-- `return True` -/
  | returned
  /-- past the loop: `subnodes` are the nodes to send -/
  | selected
  /-- `raise_error('Partitioner error')`, or the KeyError of `make_node` -/
  | raised
  /-- `assert(self.tree.root.status.is_unsolved())` -/
  | rootNotUnsolved
  /-- `popleft` on an empty deque -/
  | emptyPop
  deriving DecidableEq, Repr

end PrePartition

open PrePartition

/-- The isolated coordinator in `pre_partition`. -/
structure PrePartition where
  tree : ParallelTree
  result : NodeStatus
  subnodes : List Nat
  phase : PrePartition.Phase

namespace PrePartition

def start : PrePartition := ⟨.empty, .unsolved, [], .loop⟩

variable (s : PrePartition)

def isDone : Bool := s.result.isSolved || s.tree.isDone

/-- What `is_done` leaves in `self.result` (src/src/coordinator.py:130-136). -/
def afterIsDone : PrePartition :=
  if s.result.isSolved then s
  else if s.tree.isDone then { s with result := s.tree.result }
  else s

/-- mirrors src/src/coordinator.py:150-191; `none` for an exception -/
def processPartitionerMsg : Line → Option PrePartition
  | .node (.newUnsatNode pid ppid) => (s.tree.newNode (.newUnsatNode pid ppid)).map fun t =>
    { s with tree := t }.afterIsDone
  | .node (.newUnknownNode pid ppid) => (s.tree.newNode (.newUnknownNode pid ppid)).map fun t =>
    { s with tree := t }
  | .sat => some { s with result := .sat }
  | .unsat => some { s with result := .unsat }
  | .unknown => if s.tree.size = 0 then none else some s
  | .other => some s

/-- The inner loop (src/src/coordinator.py:494-501). `none` is `popleft` on an
empty deque, or a loop that goes on for ever. -/
def expand (t : ParallelTree) (numDistCoords : Nat) : Nat → List Nat → Option (List Nat)
  | 0, _ => none
  | fuel + 1, subnodes =>
    if subnodes.length < numDistCoords then
      match subnodes with
      | [] => none
      | node :: rest =>
        if (t.node node).children.length < 2 then some (rest ++ [node])
        else expand t numDistCoords fuel
          (rest ++ (t.node node).children.filter fun c => (t.node c).status.isUnsolved)
    else some subnodes

/-- The rest of a round, from `if len(subnodes) == 0` on, when the root may be
put in. -/
def fill (numDistCoords : Nat) (timeUp : Bool) : PrePartition :=
  let subnodes := if s.subnodes = [] ∧ s.tree.size ≠ 0 then [0] else s.subnodes
  if subnodes = [] then { s with phase := if timeUp then .selected else .loop }
  else
    match expand s.tree numDistCoords (s.tree.size + 1) subnodes with
    | none => { s with phase := .emptyPop }
    | some subnodes => { s with
        subnodes := subnodes
        phase := if numDistCoords ≤ subnodes.length ∨ timeUp then .selected else .loop }

/-- A round of the loop once the lines are read (src/src/coordinator.py:485-506). -/
def round (numDistCoords : Nat) (receiveDone timeUp : Bool) : PrePartition :=
  if receiveDone then { s with phase := .selected }
  else if s.isDone then { s.afterIsDone with phase := .returned }
  else if s.subnodes = [] ∧ s.tree.size ≠ 0 ∧ !(s.tree.node 0).status.isUnsolved then
    { s with phase := .rootNotUnsolved }
  else s.fill numDistCoords timeUp

/-- The nodes a line may be about. -/
def Allowed : Line → Prop
  | .node line => s.tree.Allowed (.newNode line)
  | _ => True

/-- The lines that come in during one round. -/
def lines : LTS PrePartition Line where
  init s := s = start
  step s l s' := s.Allowed l ∧ s.processPartitionerMsg l = some s'

inductive Label where
  /-- `check_original_task` has a verdict -/
  | original (verdict : NodeStatus)
  /-- a round of the loop that reads these lines -/
  | round (lines : List Line) (receiveDone timeUp : Bool)
  /-- a round that ends with an exception at the last of these lines -/
  | raise (lines : List Line) (last : Line)

/-- mirrors src/src/coordinator.py:478-506, one round of the loop at a time -/
inductive Step (numDistCoords : Nat) : PrePartition → Label → PrePartition → Prop where
  | original {s : PrePartition} {st : NodeStatus} : s.phase = .loop →
      Step numDistCoords s (.original st) { s with result := st, phase := .returned }
  | round {s s₁ : PrePartition} {ls : List Line} {receiveDone timeUp : Bool} :
      s.phase = .loop → lines.Run s ls s₁ →
      Step numDistCoords s (.round ls receiveDone timeUp) (s₁.round numDistCoords receiveDone timeUp)
  | raise {s s₁ : PrePartition} {ls : List Line} {l : Line} :
      s.phase = .loop → lines.Run s ls s₁ → s₁.Allowed l → s₁.processPartitionerMsg l = none →
      Step numDistCoords s (.raise ls l) { s₁ with phase := .raised }

def prePartition (numDistCoords : Nat) : LTS PrePartition Label where
  init s := s = start
  step := Step numDistCoords

/-- What is sent, by coordinator: a node, or the root task when no node is
selected (src/src/coordinator.py:519-528). -/
def sends : List (Nat × Option Nat) :=
  if s.subnodes = [] then [(0, none)]
  else s.subnodes.zipIdx.map fun p => (p.2, some p.1)

/-- The coordinators that the leader tells to receive from the isolated one
(src/src/leader.py:314-332). -/
def receivers (numDistCoords ppNumNodes : Nat) : List Nat :=
  (List.range numDistCoords).filter (· < if ppNumNodes = 0 then 1 else ppNumNodes)

end PrePartition

namespace ParallelTree

variable {t t' : ParallelTree} {v w : Nat} {F : List Nat}

/-! ## The tree below a node, and the lines -/

theorem SameShape.below (h : SameShape t t') : t'.below = t.below := by
  unfold ParallelTree.below
  rw [funext h.children]

theorem Shape.below_le (h : Shape t) (hb : t.below v w) : v ≤ w := by
  induction hb with
  | refl => exact Nat.le_refl v
  | tail _ hc ih => exact Nat.le_trans ih (Nat.le_of_lt (h.child_lt hc).1)

/-- Two nodes above one are above each other. -/
theorem Shape.below_total (h : Shape t) {a b : Nat} (ha : t.below a v) (hb : t.below b v) :
    t.below a b ∨ t.below b a := by
  induction ha with
  | refl => exact .inr hb
  | @tail p c hp hc ih =>
    rcases Relation.ReflTransGen.cases_tail hb with rfl | ⟨q, hq, hcq⟩
    · exact .inl (hp.tail hc)
    · have he : p = q := Option.some.inj
        (((h.grown.child p c).1 hc).2.symm.trans ((h.grown.child q c).1 hcq).2)
      rw [← he] at hq
      exact ih hq

/-- A new leaf changes nothing between old nodes. -/
theorem addNode_below (h : Shape t) {pid : Nat} {parent : Option Nat} (hr : Room t parent)
    (hw : w < t.size) : (t.addNode pid parent).below v w ↔ t.below v w := by
  constructor
  · intro hb
    induction hb with
    | refl => exact .refl
    | tail _ hc ih =>
      rcases (addNode_mem hr).1 hc with ⟨hc, -⟩ | ⟨hc, -⟩
      · have := (h.child_lt hc).1
        exact (ih (by omega)).tail hc
      · omega
  · intro hb
    induction hb with
    | refl => exact .refl
    | tail _ hc ih =>
      have := (h.child_lt hc).1
      exact (ih (by omega)).tail ((addNode_mem hr).2 (.inl ⟨hc, by omega⟩))

/-- The nodes are open or unsat: no solver has started. -/
def Plain (t : ParallelTree) : Prop :=
  ∀ v, (t.node v).status = .unsolved ∨ (t.node v).status = .unsat

theorem Plain.mark (h : Plain t) (v : Nat) : Plain (t.propagateNodeUnsat v) := by
  intro w
  unfold propagateNodeUnsat
  rw [modify_node]
  split
  · exact .inr rfl
  · exact h w

theorem Plain.nodeSolvedUnsat (h : Plain t) (v : Nat) : Plain (t.nodeSolvedUnsat v) := by
  have hset : Plain (t.updateNodeStatus v .unsat) := by
    intro w
    unfold updateNodeStatus
    rw [modify_node]
    split
    · exact .inr rfl
    · exact h w
  have hup : Plain (tree.pushUpFrom 2 (t.updateNodeStatus v .unsat) v) :=
    tree.pushUpFrom_keeps (fun n _ hp => hp.mark n) _ v hset
  unfold ParallelTree.nodeSolvedUnsat
  simp only
  split
  · exact hup
  · exact tree.pushDownFrom_keeps (fun n _ hp => hp.mark n) _ v hup

/-- A refutation leaves the unsat nodes unsat. -/
theorem nodeSolvedUnsat_unsat (hw : w = v ∨ (t.node w).status = .unsat) :
    ((t.nodeSolvedUnsat v).node w).status = .unsat := by
  have hset : tree.marked (t.updateNodeStatus v .unsat) w = true := by
    rwa [updateNodeStatus_marked, Bool.or_eq_true, beq_iff_eq, marked_iff]
  have hup := (tree.pushUpFrom_extends 2 (t.updateNodeStatus v .unsat) v).marked w hset
  unfold nodeSolvedUnsat
  simp only
  split
  · exact marked_iff.1 hup
  · exact marked_iff.1 ((tree.pushDownFrom_extends _ v).marked w hup)

/-- A line about a new node makes it, refuted or to be solved. -/
theorem newNode_made {line : P2C} (hc : t.newNode line = some t') : ∃ pid parent,
    t' = (t.addNode pid parent).nodeSolvedUnsat t.size ∨
      t' = { t.addNode pid parent with
        waitings := (t.addNode pid parent).waitings ++ [t.size] } := by
  have made : ∀ pid ppid t₁, t.makeNode pid ppid = some t₁ → ∃ parent, t₁ = t.addNode pid parent := by
    intro pid ppid t₁ h
    cases ppid with
    | none => exact ⟨none, (Option.some.inj h).symm⟩
    | some q =>
      obtain ⟨p, -, rfl⟩ := Option.map_eq_some_iff.1 h
      exact ⟨some p, rfl⟩
  cases line with
  | newUnsatNode pid ppid =>
    obtain ⟨t₁, hmk, rfl⟩ := Option.map_eq_some_iff.1 hc
    obtain ⟨parent, rfl⟩ := made pid ppid t₁ hmk
    exact ⟨pid, parent, .inl rfl⟩
  | newUnknownNode pid ppid =>
    obtain ⟨t₁, hmk, rfl⟩ := Option.map_eq_some_iff.1 hc
    obtain ⟨parent, rfl⟩ := made pid ppid t₁ hmk
    refine ⟨pid, parent, ?_⟩
    split
    · exact .inl rfl
    · exact .inr rfl

/-- What a line makes of the tree: a new leaf that is unsat, or one below a
node that is not. -/
theorem newNode_cases (h : Shape t) {line : P2C} (ha : t.Allowed (.newNode line))
    (hc : t.newNode line = some t') : ∃ pid parent, Room t parent ∧ t.pid2node pid = none ∧
      (t' = (t.addNode pid parent).nodeSolvedUnsat t.size ∨
        (∀ p, parent = some p → (t.node p).status ≠ .unsat) ∧
          t' = { t.addNode pid parent with
            waitings := (t.addNode pid parent).waitings ++ [t.size] }) := by
  cases line with
  | newUnsatNode pid ppid =>
    obtain ⟨hpid, hroom⟩ := ha
    obtain ⟨t₁, hmk, rfl⟩ := Option.map_eq_some_iff.1 hc
    obtain ⟨parent, rfl, hr, -⟩ := makeNode_room h hroom hmk
    exact ⟨pid, parent, hr, hpid, .inl rfl⟩
  | newUnknownNode pid ppid =>
    obtain ⟨hpid, hroom⟩ := ha
    unfold newNode at hc
    obtain ⟨t₁, hmk, rfl⟩ := Option.map_eq_some_iff.1 hc
    obtain ⟨parent, rfl, hr, -⟩ := makeNode_room h hroom hmk
    refine ⟨pid, parent, hr, hpid, ?_⟩
    split
    · exact .inl rfl
    · rename_i hu
      refine .inr ⟨fun p hp hup => hu ?_, rfl⟩
      unfold parentUnsat
      rw [addNode_parent, if_pos rfl, hp]
      have hlt := (hr.lt hp).1
      simp [addNode_status, Nat.ne_of_lt hlt, hup]

/-! ## The frontier -/

/-- Neither node is above the other. -/
def Apart (t : ParallelTree) (a b : Nat) : Prop := ¬ t.below a b ∧ ¬ t.below b a

instance : Std.Symm (Apart t) := ⟨fun _ _ h => ⟨h.2, h.1⟩⟩

/-- Nodes of which none is above another, and that have every node with work
left and room for children below them. -/
structure Frontier (t : ParallelTree) (F : List Nat) : Prop where
  lt : ∀ f ∈ F, f < t.size
  apart : F.Pairwise (Apart t)
  cover : ∀ v < t.size, (t.node v).status ≠ .unsat → (t.node v).children.length < 2 →
    ∃ f ∈ F, t.below f v

theorem Frontier.perm {F' : List Nat} (h : Frontier t F) (hp : F.Perm F') : Frontier t F' := by
  refine ⟨fun f hf => h.lt f (hp.mem_iff.2 hf), ?_, fun v hv hu hc => ?_⟩
  · exact (hp.pairwise_iff fun hab => ⟨hab.2, hab.1⟩).1 h.apart
  · obtain ⟨f, hf, hb⟩ := h.cover v hv hu hc
    exact ⟨f, hp.mem_iff.1 hf, hb⟩

/-- Two nodes of the frontier above one node are the same. -/
theorem Frontier.unique (h : Shape t) (hF : Frontier t F) {f g : Nat} (hf : f ∈ F) (hg : g ∈ F)
    (hfv : t.below f v) (hgv : t.below g v) : f = g := by
  by_contra hne
  have hap := hF.apart.forall hf hg hne
  rcases h.below_total hfv hgv with hb | hb
  · exact hap.1 hb
  · exact hap.2 hb

theorem frontier_root (h : Shape t) (hs : t.size ≠ 0) : Frontier t [0] := by
  refine ⟨fun f hf => ?_, List.pairwise_singleton _ _, fun v hv _ _ => ?_⟩
  · rw [List.mem_singleton.1 hf]
    exact Nat.pos_of_ne_zero hs
  · exact ⟨0, List.mem_singleton_self 0, h.below_root hv⟩

/-- **One line.** A new node is below the node of the frontier that its parent
is below, if it has to be below one. -/
theorem Frontier.line (h : Shape t) (hF : Frontier t F) (hne : F ≠ []) {line : P2C}
    (ha : t.Allowed (.newNode line)) (hc : t.newNode line = some t') : Frontier t' F := by
  obtain ⟨pid, parent, hr, -, hcase⟩ := newNode_cases h ha hc
  have hs : SameShape (t.addNode pid parent) t' := by
    rcases hcase with rfl | ⟨-, rfl⟩
    · exact nodeSolvedUnsat_shape
    · exact (appendWaiting_quiet _).toSameShape
  -- an unsat node stays unsat, and the new leaf is not unsat only below a node that is not
  have hold : ∀ v, v ≠ t.size → (t'.node v).status ≠ .unsat → (t.node v).status ≠ .unsat := by
    intro v hv hu hold
    have hadd : ((t.addNode pid parent).node v).status = .unsat := by
      rwa [addNode_status, if_neg hv]
    rcases hcase with rfl | ⟨-, rfl⟩
    · exact hu (nodeSolvedUnsat_unsat (.inr hadd))
    · exact hu hadd
  have hnew : (t'.node t.size).status ≠ .unsat →
      ∀ p, parent = some p → (t.node p).status ≠ .unsat := by
    intro hu
    rcases hcase with rfl | ⟨hp, -⟩
    · exact absurd (nodeSolvedUnsat_unsat (.inl rfl)) hu
    · exact hp
  obtain ⟨f₀, hf₀⟩ := List.exists_mem_of_ne_nil _ hne
  have hlt₀ := hF.lt f₀ hf₀
  have hsize : t'.size = t.size + 1 := hs.size.trans addNode_size
  refine ⟨fun f hf => ?_, hF.apart.imp_of_mem fun ha hb hab => ?_, fun v hv hu hlen => ?_⟩
  · rw [hsize]
    exact Nat.lt_succ_of_lt (hF.lt f hf)
  · unfold Apart
    rw [hs.below, addNode_below h hr (hF.lt _ ha), addNode_below h hr (hF.lt _ hb)]
    exact hab
  · rw [hs.children] at hlen
    rw [hs.below]
    by_cases hvs : v = t.size
    · cases parent with
      | none =>
        have : t.size = 0 := hr
        omega
      | some p =>
        rw [hvs] at hu
        obtain ⟨f, hf, hb⟩ := hF.cover p hr.1 (hnew hu p rfl) hr.2
        refine ⟨f, hf, ((addNode_below h hr hr.1).2 hb).tail ((addNode_mem hr).2 (.inr ⟨hvs, rfl⟩))⟩
    · have hvlt : v < t.size := by omega
      have hlen' : (t.node v).children.length < 2 := by
        rw [addNode_children hvs] at hlen
        split at hlen
        · rw [List.length_append] at hlen
          omega
        · exact hlen
      obtain ⟨f, hf, hb⟩ := hF.cover v hvlt (hold v hvs hu) hlen'
      exact ⟨f, hf, (addNode_below h hr hvlt).2 hb⟩

/-- Below a node with work left is one with room for children. -/
theorem exists_open (h : Shape t) (hcl : tree.Closed 2 t) (hv : v < t.size)
    (hu : (t.node v).status ≠ .unsat) :
    ∃ w < t.size, (t.node w).status ≠ .unsat ∧ (t.node w).children.length < 2 := by
  -- children have larger numbers
  obtain ⟨n, hn⟩ : ∃ n, n = t.size - v := ⟨_, rfl⟩
  induction n using Nat.strongRecOn generalizing v with
  | ind n ih =>
    by_cases hlen : (t.node v).children.length < 2
    · exact ⟨v, hv, hu, hlen⟩
    · have hne : (t.node v).children ≠ [] := by
        intro he
        rw [he] at hlen
        exact hlen (by decide)
      have hopen : ∃ c ∈ (t.node v).children, (t.node c).status ≠ .unsat := by
        by_contra hall
        push Not at hall
        refine hu (marked_iff.1 (hcl.2 v (fun hf => hf) hne (MarkedTree.covered_iff.2 ⟨?_, ?_⟩)))
        · exact Nat.le_of_not_lt hlen
        · exact fun c hc => marked_iff.2 (hall c hc)
      obtain ⟨c, hc, hcu⟩ := hopen
      obtain ⟨hlt, hcs⟩ := h.child_lt hc
      exact ih (t.size - c) (by omega) hcs hcu rfl

theorem unsat_below (hcl : tree.Closed 2 t) (hb : t.below v w) (hu : (t.node v).status = .unsat) :
    (t.node w).status = .unsat := by
  induction hb with
  | refl => exact hu
  | tail _ hc ih => exact marked_iff.1 (hcl.1 _ (fun hf => hf) (marked_iff.2 ih) _ hc)

theorem Shape.siblings (h : Shape t) {c d : Nat} (hc : c ∈ (t.node v).children)
    (hd : d ∈ (t.node v).children) (hb : t.below c d) : c = d := by
  rcases Relation.ReflTransGen.cases_tail hb with he | ⟨p, hp, hdp⟩
  · exact he.symm
  · have he : p = v := Option.some.inj
      (((h.grown.child p d).1 hdp).2.symm.trans ((h.grown.child v d).1 hd).2)
    rw [he] at hp
    have := h.below_le hp
    have := (h.child_lt hc).1
    omega

/-- **One node split.** Its children without the refuted ones cover what it
covers. -/
theorem Frontier.split (h : Shape t) (hcl : tree.Closed 2 t) (hpl : Plain t) {rest : List Nat}
    (hF : Frontier t (v :: rest)) (hlen : 2 ≤ (t.node v).children.length) :
    Frontier t (rest ++ (t.node v).children.filter fun c => (t.node c).status.isUnsolved) := by
  obtain ⟨hv, hrest⟩ := List.pairwise_cons.1 hF.apart
  have hmem : ∀ {c}, c ∈ (t.node v).children.filter (fun c => (t.node c).status.isUnsolved) →
      c ∈ (t.node v).children := fun hc => (List.mem_filter.1 hc).1
  refine ⟨fun f hf => ?_, List.pairwise_append.2 ⟨hrest, ?_, fun r hr c hc => ?_⟩,
    fun w hw hu hwl => ?_⟩
  · rcases List.mem_append.1 hf with hf | hf
    · exact hF.lt f (List.mem_cons_of_mem _ hf)
    · exact (h.child_lt (hmem hf)).2
  · refine ((h.nodup v).filter _).imp_of_mem fun ha hb hab => ⟨fun he => ?_, fun he => ?_⟩
    · exact hab (h.siblings (hmem ha) (hmem hb) he)
    · exact hab (h.siblings (hmem hb) (hmem ha) he).symm
  · obtain ⟨hvr, hrv⟩ := hv r hr
    have hc := hmem hc
    constructor
    · intro hb
      rcases Relation.ReflTransGen.cases_tail hb with rfl | ⟨p, hp, hcp⟩
      · exact hvr (.single hc)
      · have he : p = v := Option.some.inj
          (((h.grown.child p c).1 hcp).2.symm.trans ((h.grown.child v c).1 hc).2)
        rw [he] at hp
        exact hrv hp
    · exact fun hb => hvr (.head hc hb)
  · obtain ⟨f, hf, hb⟩ := hF.cover w hw hu hwl
    rcases List.mem_cons.1 hf with rfl | hf
    · rcases Relation.ReflTransGen.cases_head hb with rfl | ⟨c, hc, hcw⟩
      · omega
      · have hcu : (t.node c).status ≠ .unsat := fun hcu => hu (unsat_below hcl hcw hcu)
        have hopen := (hpl c).resolve_right hcu
        exact ⟨c, List.mem_append_right _ (List.mem_filter.2 ⟨hc, by simp [hopen]⟩), hcw⟩
    · exact ⟨f, List.mem_append_left _ hf, hb⟩

/-! ## The inner loop -/

/-- The nodes below the frontier. -/
noncomputable def under (t : ParallelTree) (F : List Nat) : Finset Nat := by
  classical exact (Finset.range t.size).filter fun v => ∃ f ∈ F, t.below f v

theorem mem_under : v ∈ t.under F ↔ v < t.size ∧ ∃ f ∈ F, t.below f v := by
  simp only [under, Finset.mem_filter, Finset.mem_range]

/-- The split node is no longer below the frontier. -/
theorem Frontier.under_lt (h : Shape t) {rest cs : List Nat} (hF : Frontier t (v :: rest))
    (hcs : ∀ c ∈ cs, c ∈ (t.node v).children) :
    (t.under (rest ++ cs)).card < (t.under (v :: rest)).card := by
  have hv := hF.lt v List.mem_cons_self
  refine Finset.card_lt_card ⟨fun w hw => ?_, fun hsub => ?_⟩
  · obtain ⟨hlt, f, hf, hb⟩ := mem_under.1 hw
    refine mem_under.2 ⟨hlt, ?_⟩
    rcases List.mem_append.1 hf with hf | hf
    · exact ⟨f, List.mem_cons_of_mem _ hf, hb⟩
    · exact ⟨v, List.mem_cons_self, .head (hcs f hf) hb⟩
  · have hself : v ∈ t.under (v :: rest) := mem_under.2 ⟨hv, v, List.mem_cons_self, .refl⟩
    obtain ⟨-, f, hf, hb⟩ := mem_under.1 (hsub hself)
    rcases List.mem_append.1 hf with hf | hf
    · exact ((List.pairwise_cons.1 hF.apart).1 f hf).2 hb
    · have := h.below_le hb
      have := (h.child_lt (hcs f hf)).1
      omega

theorem Frontier.ne_nil (h : Shape t) (hcl : tree.Closed 2 t) (hs : t.size ≠ 0)
    (hr : t.rootUnsat = false) (hF : Frontier t F) : F ≠ [] := by
  have hu : (t.node 0).status ≠ .unsat := by
    rw [Ne, ← rootUnsat_iff, hr]
    decide
  obtain ⟨v, hv, hvu, hvl⟩ := exists_open h hcl (Nat.pos_of_ne_zero hs) hu
  obtain ⟨f, hf, -⟩ := hF.cover v hv hvu hvl
  exact List.ne_nil_of_mem hf

/-- **The inner loop.** Each turn takes a node out of those below the
frontier, and while the root is open the frontier is never empty. -/
theorem expand_frontier (h : Shape t) (hcl : tree.Closed 2 t) (hpl : Plain t) (hs : t.size ≠ 0)
    (hr : t.rootUnsat = false) {N : Nat} : ∀ fuel F, Frontier t F → F.length ≤ N →
      (t.under F).card < fuel → ∃ F', PrePartition.expand t N fuel F = some F' ∧
        Frontier t F' ∧ F'.length ≤ N := by
  intro fuel
  induction fuel with
  | zero => exact fun F _ _ hfuel => absurd hfuel (Nat.not_lt_zero _)
  | succ fuel ih =>
    intro F hF hlen hfuel
    unfold PrePartition.expand
    split
    · rename_i hfew
      cases F with
      | nil => exact absurd rfl (hF.ne_nil h hcl hs hr)
      | cons v rest =>
        simp only
        split
        · -- rotated to the back
          refine ⟨_, rfl, hF.perm (List.perm_append_singleton v rest).symm, ?_⟩
          rw [List.length_append]
          exact hlen
        · rename_i hchildren
          have hmem : ∀ c ∈ (t.node v).children.filter (fun c => (t.node c).status.isUnsolved),
              c ∈ (t.node v).children := fun c hc => (List.mem_filter.1 hc).1
          have hcard := hF.under_lt h hmem
          refine ih _ (hF.split h hcl hpl (Nat.le_of_not_lt hchildren)) ?_ (by omega)
          have htwo := h.two v
          have hfilter := List.length_filter_le (fun c => (t.node c).status.isUnsolved)
            (t.node v).children
          rw [List.length_append]
          rw [List.length_cons] at hfew
          omega
    · exact ⟨F, rfl, hF, hlen⟩

theorem under_card_le : (t.under F).card ≤ t.size := by
  have hsub : t.under F ⊆ Finset.range t.size := fun v hv => Finset.mem_range.2 (mem_under.1 hv).1
  have := Finset.card_le_card hsub
  rwa [Finset.card_range] at this

end ParallelTree

namespace PrePartition
open ParallelTree

variable {s s' : PrePartition} {N : Nat}

/-! ## The rounds -/

/-- What holds in the loop of `pre_partition`. -/
structure Covers (N : Nat) (s : PrePartition) : Prop where
  kept : ∃ E D, Kept E D s.tree
  plain : Plain s.tree
  frontier : s.subnodes ≠ [] → Frontier s.tree s.subnodes
  few : s.subnodes.length ≤ N
  noPop : s.phase ≠ .emptyPop
  rootOpen : s.phase ≠ .rootNotUnsolved

theorem afterIsDone_eq : s.afterIsDone.tree = s.tree ∧ s.afterIsDone.subnodes = s.subnodes ∧
    s.afterIsDone.phase = s.phase := by
  unfold afterIsDone
  split
  · exact ⟨rfl, rfl, rfl⟩
  · split <;> exact ⟨rfl, rfl, rfl⟩

/-- The deque and the tree are all that matters. -/
theorem Covers.congr (h : Covers N s) (ht : s'.tree = s.tree) (hs : s'.subnodes = s.subnodes)
    {p : Phase} (hp : s'.phase = p) (hfine : p ≠ .emptyPop ∧ p ≠ .rootNotUnsolved) :
    Covers N s' := by
  obtain ⟨hk, hpl, hf, hfew, -, -⟩ := h
  rw [← hp] at hfine
  rw [← ht] at hk hpl hf
  rw [← hs] at hf hfew
  exact ⟨hk, hpl, hf, hfew, hfine.1, hfine.2⟩

theorem Covers.newNode (h : Covers N s) {line : P2C} {t : ParallelTree}
    (ha : s.tree.Allowed (.newNode line)) (hc : s.tree.newNode line = some t) :
    Covers N { s with tree := t } := by
  obtain ⟨E, D, hk⟩ := h.kept
  refine ⟨⟨_, _, hk.call (c := .newNode line) ha hc⟩, ?_,
    fun hne => (h.frontier hne).line hk.shape hne ha hc, h.few, h.noPop, h.rootOpen⟩
  obtain ⟨pid, parent, -, -, hcase⟩ := newNode_cases hk.shape ha hc
  have hadd : Plain (s.tree.addNode pid parent) := by
    intro w
    rw [addNode_status]
    split
    · exact .inl rfl
    · exact h.plain w
  rcases hcase with rfl | ⟨-, rfl⟩
  · exact hadd.nodeSolvedUnsat _
  · exact hadd

theorem allowed_node {line : P2C} (h : s.Allowed (.node line)) :
    s.tree.Allowed (.newNode line) := h

/-- **One line.** -/
theorem Covers.line (h : Covers N s) {l : Line} (ha : s.Allowed l)
    (hc : s.processPartitionerMsg l = some s') : Covers N s' := by
  cases l with
  | node line =>
    cases line with
    | newUnsatNode pid ppid =>
      obtain ⟨t, ht, rfl⟩ := Option.map_eq_some_iff.1 hc
      have hn : Covers N { s with tree := t } := h.newNode (allowed_node ha) ht
      obtain ⟨htree, hsub, hphase⟩ := afterIsDone_eq (s := { s with tree := t })
      exact hn.congr htree hsub hphase ⟨h.noPop, h.rootOpen⟩
    | newUnknownNode pid ppid =>
      obtain ⟨t, ht, rfl⟩ := Option.map_eq_some_iff.1 hc
      exact h.newNode (allowed_node ha) ht
  | unknown =>
    simp only [processPartitionerMsg] at hc
    split at hc
    · cases hc
    · cases hc
      exact h
  | sat | unsat | other =>
    cases hc
    exact h.congr rfl rfl rfl ⟨h.noPop, h.rootOpen⟩

theorem Covers.lines {ls : List Line} (h : Covers N s) (hrun : lines.Run s ls s') :
    Covers N s' :=
  hrun.keeps (fun _ _ _ hI hstep => hI.line hstep.1 hstep.2) h

theorem isDone_false (h : s.isDone = false) : s.tree.result ≠ .unsat := by
  unfold isDone ParallelTree.isDone at h
  rw [Bool.or_eq_false_iff] at h
  intro hu
  rw [hu] at h
  cases h.2

/-- **One round** of the loop, once the lines are read. -/
theorem Covers.round (h : Covers N s) (hN : 1 ≤ N) (receiveDone timeUp : Bool) :
    Covers N (s.round N receiveDone timeUp) := by
  obtain ⟨E, D, hk⟩ := h.kept
  unfold PrePartition.round
  split
  · exact h.congr rfl rfl (p := .selected) rfl (by decide)
  split
  · obtain ⟨htree, hsub, -⟩ := afterIsDone_eq (s := s)
    exact h.congr htree hsub (p := .returned) rfl (by decide)
  rename_i hdone
  have hroot : s.tree.rootUnsat = false := by
    rw [← Bool.not_eq_true, ← hk.marks.result]
    exact isDone_false (Bool.eq_false_of_not_eq_true hdone)
  split
  · -- the assertion holds: the root is not unsat, and no solver has started
    rename_i hassert
    have hu : (s.tree.node 0).status ≠ .unsat := by
      rw [Ne, ← rootUnsat_iff, hroot]
      decide
    have hopen := (h.plain 0).resolve_right hu
    rw [hopen] at hassert
    exact absurd hassert.2.2 (by decide)
  unfold fill
  simp only
  generalize hsub : (if s.subnodes = [] ∧ s.tree.size ≠ 0 then [0] else s.subnodes) = subnodes
  split
  · -- no node has come yet
    rename_i hnil
    refine h.congr rfl rfl (p := if timeUp then .selected else .loop) rfl ?_
    cases timeUp <;> decide
  rename_i hne
  have hF : Frontier s.tree subnodes ∧ subnodes.length ≤ N ∧ s.tree.size ≠ 0 := by
    split at hsub
    · rename_i hempty
      rw [← hsub]
      exact ⟨frontier_root hk.shape hempty.2, hN, hempty.2⟩
    · rw [← hsub] at hne ⊢
      obtain ⟨f, hf⟩ := List.exists_mem_of_ne_nil _ hne
      have := (h.frontier hne).lt f hf
      exact ⟨h.frontier hne, h.few, by omega⟩
  have hcard := under_card_le (t := s.tree) (F := subnodes)
  obtain ⟨F', hexp, hF', hlen⟩ := expand_frontier hk.shape (hk.marks.closed hroot) h.plain hF.2.2
    hroot (s.tree.size + 1) subnodes hF.1 hF.2.1 (by omega)
  rw [hexp]
  refine ⟨⟨E, D, hk⟩, h.plain, fun _ => hF', hlen, ?_, ?_⟩ <;> simp only <;> split <;> decide

theorem covers_inductive (hN : 1 ≤ N) : (prePartition N).Inductive (Covers N) := by
  constructor
  · intro s hs
    rw [show s = start from hs]
    exact ⟨⟨_, _, kept_empty⟩, fun _ => .inl rfl, fun hne => absurd rfl hne, Nat.zero_le N,
      by decide, by decide⟩
  · intro s l s' h hstep
    cases hstep with
    | original _ => exact h.congr rfl rfl (p := .returned) rfl (by decide)
    | round _ hrun => exact (h.lines hrun).round hN _ _
    | raise _ hrun _ _ => exact (h.lines hrun).congr rfl rfl (p := .raised) rfl (by decide)

/-- Who gets a part is who is told to wait for one. -/
theorem sends_receivers (hN : 1 ≤ N) (hfew : s.subnodes.length ≤ N) :
    s.sends.map Prod.fst = receivers N s.subnodes.length := by
  have hfirst : ∀ k ≤ N, (List.range N).filter (· < k) = List.range k := by
    intro k hk
    obtain ⟨m, rfl⟩ := Nat.exists_eq_add_of_le hk
    have hlow : (List.range k).filter (fun i => decide (i < k)) = List.range k :=
      List.filter_eq_self.2 fun i hi => decide_eq_true (List.mem_range.1 hi)
    have hhigh : ((List.range m).map (k + ·)).filter (fun i => decide (i < k)) = [] := by
      refine List.filter_eq_nil_iff.2 fun i hi => ?_
      obtain ⟨j, -, rfl⟩ := List.mem_map.1 hi
      simp
    rw [List.range_add, List.filter_append, hlow, hhigh, List.append_nil]
  unfold sends receivers
  cases hs : s.subnodes with
  | nil => exact (hfirst 1 hN).symm
  | cons f rest =>
    rw [hs] at hfew
    rw [if_neg (List.cons_ne_nil f rest), if_neg (by simp), hfirst _ hfew, List.map_map,
      List.range_eq_range']
    exact List.zipIdx_map_snd 0 (f :: rest)

/-- **The selected nodes cover the tree.** Whatever lines come in, in whatever
rounds, and wherever the loop ends: no node is taken from an empty deque, and
the assertion about the root holds. At most `num_dist_coords` nodes are
selected, and none is above another. If any node is selected, each leaf that
is not unsat is below exactly one selected node, else the root task is sent.
The coordinators that wait for a part are those to which one is sent. -/
theorem pre_partition_cover (hN : 1 ≤ N) {s : PrePartition} (hr : (prePartition N).Reachable s) :
    s.phase ≠ .emptyPop ∧ s.phase ≠ .rootNotUnsolved ∧
    s.subnodes.length ≤ N ∧
    s.subnodes.Pairwise (fun a b => ¬ s.tree.below a b ∧ ¬ s.tree.below b a) ∧
    (s.subnodes ≠ [] → ∀ v < s.tree.size, (s.tree.node v).status ≠ .unsat →
      (s.tree.node v).children = [] → ∃! f, f ∈ s.subnodes ∧ s.tree.below f v) ∧
    (s.subnodes = [] → s.sends = [(0, none)]) ∧
    s.sends.map Prod.fst = receivers N s.subnodes.length := by
  have h := (covers_inductive hN).reachable hr
  obtain ⟨E, D, hk⟩ := h.kept
  refine ⟨h.noPop, h.rootOpen, h.few, ?_, fun hne v hv hu hleaf => ?_, fun hnil => ?_,
    sends_receivers hN h.few⟩
  · by_cases hne : s.subnodes = []
    · rw [hne]
      exact List.Pairwise.nil
    · exact (h.frontier hne).apart
  · have hF := h.frontier hne
    obtain ⟨f, hf, hb⟩ := hF.cover v hv hu (by rw [hleaf]; decide)
    exact ⟨f, ⟨hf, hb⟩, fun g hg => hF.unique hk.shape hg.1 hf hg.2 hb⟩
  · unfold sends
    rw [if_pos hnil]

/-- Two lines about children of the root in one batch, for two coordinators. -/
theorem pre_partition_cover_two : ∃ s, (prePartition 2).Reachable s ∧ s.phase = .selected ∧
    s.subnodes = [1, 2] ∧ s.sends.map Prod.fst = receivers 2 s.subnodes.length := by
  have h : ∃ s, (prePartition 2).Reachable s ∧ s.phase = .selected ∧ s.subnodes = [1, 2] := by
    have root : Step 2 start (.round [.node (.newUnknownNode 0 none)] false false) _ :=
      .round rfl (.cons ⟨⟨rfl, rfl⟩, rfl⟩ (.nil _))
    refine ⟨_, .step (.step (.init rfl) root) (show Step 2 _ (.round
      [.node (.newUnknownNode 1 (some 0)), .node (.newUnknownNode 2 (some 0))] false false) _ from
        .round rfl (.cons ⟨⟨rfl, 0, rfl, ?_⟩, rfl⟩ (.cons ⟨⟨rfl, 0, rfl, ?_⟩, rfl⟩ (.nil _)))), rfl, rfl⟩
    · exact Nat.zero_lt_two
    · exact Nat.one_lt_two
  obtain ⟨s, hr, hp, hs⟩ := h
  exact ⟨s, hr, hp, hs, (pre_partition_cover (by decide) hr).2.2.2.2.2.2⟩

end PrePartition

end AriParti.L3
