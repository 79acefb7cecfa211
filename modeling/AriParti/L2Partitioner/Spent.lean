import AriParti.L2Partitioner.Solutions
import AriParti.L2Partitioner.Told

/-!
# Models outside a set of nodes

The coordinator gives some nodes of a round to others. What it can say of the
rest is that a node is spent: each model of the problem in it is in one of the
nodes given away. Spent nodes follow the rules of refuted ones, since the two
children of a split cover their parent and are parts of it.

## Results

* `Spent.child`, `Spent.parent`: spent nodes down and up the tree.
* `step_content`: what was spent stays so.
* `spent_of_unsat`, `spent_of_verdict`: the UNSAT nodes and the verdict, when
  the lines read are about spent nodes.
* `file_task`: a task file holds the task of a consistent node.
-/
namespace AriParti.L2
open AriParti.Core AriParti.L1 Context

section

variable {K : Kernel} {maxAlive : Nat} {s s' : Context K}

/-- A step leaves the contents of the nodes as they are, and their children
where they are. -/
theorem step_content {l : Label} (h : RunInv s) (hs : Step K maxAlive s l s') :
    s.size ≤ s'.size ∧ ∀ n < s.size, (s'.node n).content = (s.node n).content ∧
      ((s.node n).children ≠ [] → (s'.node n).children = (s.node n).children) := by
  rcases h with rfl | ⟨hi, -⟩
  · exact ⟨Nat.zero_le _, fun n hn => absurd hn (Nat.not_lt_zero n)⟩
  cases hs with
  | initUnsat => exact absurd rfl hi.started
  | propagateUnsat => exact absurd rfl hi.started
  | init => exact absurd rfl hi.started
  | @announce _ t cs _ ch _ ht =>
    have hpend := hi.task t ht
    have hen := enlist_node (s := s) t cs
    cases ch with
    | none => exact ⟨Nat.le_refl _, fun n _ => ⟨(hen n).2.2, fun _ => (hen n).2.1⟩⟩
    | some lr =>
      have hleaf : ((s.enlist t cs).node t.nodeId).children = [] :=
        (hen t.nodeId).2.1.trans hpend.children
      have hsp := splitNode_split (s := s.enlist t cs) hpend.lt hleaf t lr.1 lr.2
      have hsize : (s.enlist t cs).size = s.size := rfl
      refine ⟨?_, fun n hn => ⟨(hsp.content n hn).trans (hen n).2.2, fun hne => ?_⟩⟩
      · show s.size ≤ ((s.enlist t cs).splitNode t.nodeId t (some lr)).size
        rw [hsp.size]
        omega
      · have hnt : n ≠ t.nodeId := by
          rintro rfl
          exact hne hpend.children
        show (((s.enlist t cs).splitNode t.nodeId t (some lr)).node n).children = _
        rw [hsp.other n hnt (by omega) (by omega)]
        exact (hen n).2.1
  | readLine line =>
    have hrec := parseLine_recolors (s := s) line
    exact ⟨hrec.size.ge, fun n _ => ⟨hrec.content n, fun _ => hrec.children n⟩⟩
  | enter | heapEmpty => exact ⟨Nat.le_refl _, fun n _ => ⟨rfl, fun _ => rfl⟩⟩
  | createNewTask hp htop =>
    rename_i ni
    rcases createNewTask_cases hi htop.1 with ⟨-, he⟩ | ⟨-, -, -, he⟩ | ⟨task, -, -, -, he⟩ <;>
      rw [he]
    · exact ⟨Nat.le_refl _, fun n _ => ⟨rfl, fun _ => rfl⟩⟩
    · have hrec := (Recolored.refl s).setState ni.id .unsat
      exact ⟨Nat.le_refl _, fun n _ => ⟨hrec.content n, fun _ => hrec.children n⟩⟩
    · exact ⟨Nat.le_refl _, fun n _ => ⟨rfl, fun _ => rfl⟩⟩
  | display =>
    unfold displayCurrentTask
    split <;> exact ⟨Nat.le_refl _, fun n _ => ⟨rfl, fun _ => rfl⟩⟩

/-- The files hold the tasks of consistent nodes. -/
def Filed (s : Context K) : Prop :=
  ∀ n t, s.files n = some t → n < s.size ∧ K.inconsistent (s.node n).content = false ∧
    K.convert (s.node n).content = some t

theorem filed_inductive : (machine K maxAlive).Inductive fun s => RunInv s ∧ Filed s := by
  refine run_inv.under (fun s hs n t ht => ?_) fun s l s' hr hf hs => ?_
  · rw [show s = .empty from hs] at ht
    cases ht
  · have hstep := step_content hr hs
    rcases hr with rfl | ⟨hi, -⟩
    · -- the first call writes no file
      have hnone : s'.files = fun _ => none := by
        cases hs with
        | initUnsat | propagateUnsat | init => rfl
        | announce hp | readLine _ hp | enter hp | createNewTask hp | heapEmpty hp | display hp =>
          cases hp
      intro n t ht
      rw [hnone] at ht
      cases ht
    · obtain ⟨hsize, hnode⟩ := hstep
      suffices hfiles : ∀ n t, s'.files n = some t → n < s.size ∧
          K.inconsistent (s.node n).content = false ∧ K.convert (s.node n).content = some t by
        intro n t ht
        obtain ⟨hlt, hc⟩ := hfiles n t ht
        rw [(hnode n hlt).1]
        exact ⟨hlt.trans_le hsize, hc⟩
      cases hs with
      | initUnsat => exact absurd rfl hi.started
      | propagateUnsat => exact absurd rfl hi.started
      | init => exact absurd rfl hi.started
      | @announce _ t cs _ ch _ ht =>
        cases ch <;> exact hf
      | readLine line =>
        rw [show (s.readLine line).files = s.files from (parseLine_recolors line).files]
        exact hf
      | enter | heapEmpty => exact hf
      | createNewTask hp htop =>
        rcases createNewTask_cases hi htop.1 with ⟨-, he⟩ | ⟨-, -, -, he⟩ | ⟨_, -, -, -, he⟩ <;>
          rw [he] <;> exact hf
      | @display _ t hp ht =>
        have hpend := hi.task t ht
        intro n t' hn
        have hn : (s.displayCurrentTask t).files n = some t' := hn
        unfold displayCurrentTask at hn
        split at hn
        · exact hf n t' hn
        · simp only [Function.update_apply] at hn
          split at hn
          · rename_i he
            cases hn
            rw [he]
            exact ⟨hpend.lt, hpend.consistent, hpend.convert⟩
          · exact hf n t' hn

/-- A task file holds the task of a consistent node. -/
theorem file_task (hr : (machine K maxAlive).Reachable s) {n : Nat} {t : K.Task}
    (ht : s.files n = some t) : n < s.size ∧ K.inconsistent (s.node n).content = false ∧
      K.convert (s.node n).content = some t :=
  (filed_inductive.reachable hr).2 n t ht

end

variable {P : Problem} {pr : Params} {im : IntervalManager} {so : Sorting} {maxAlive : Nat}
  {s s' : Context (paving P pr im so)} {H H' : List Nat} {n : Nat} {σ : Assignment}

/-! ## The models in a node -/

/-- A model on the path to a node is in the node, and satisfies its task. -/
theorem follows_task (hP : SingleSort P)
    (hr : (machine (paving P pr im so) maxAlive).Reachable s) (hσ : Model P σ) (hn : n < s.size)
    (hf : Follows σ (s.node n).content) : (s.node n).content.inconsistent = false ∧
      ∃ t, convertNodeToTask P so (s.node n).content = some t ∧ t.Holds σ := by
  have hc := (paving_reached hr hn).covers hP
  obtain ⟨ha, hup⟩ := hc.admits σ hσ hf
  have hreads : Reads P (s.node n).content σ := ⟨hc.well, hσ.toRespects.isInt hP, ha⟩
  have hunits : ∀ a ∈ nodeUnits P (s.node n).content, a.Holds σ := by
    intro a hau
    unfold nodeUnits overDefs at hau
    rw [List.mem_append, List.mem_append] at hau
    rcases hau with (hau | hau) | hau
    · exact hσ.units a (List.mem_filter.1 hau).1
    · exact hup a (List.mem_filter.1 hau).1
    · obtain ⟨x, -, hau⟩ := List.mem_flatMap.1 hau
      exact varUnits_holds ha x a hau
  refine ⟨Bool.not_eq_true _ ▸ fun hi => hc.well.not_admits hi ha, ?_⟩
  cases ht : convertNodeToTask P so (s.node n).content with
  | none => exact absurd ⟨hσ.clauses, hunits⟩ (convert_none hreads ht)
  | some t => exact ⟨t, rfl, (convert_holds hreads ht).2 ⟨hσ.clauses, hunits⟩⟩

theorem childOf_follows {c m : Content} (hw : c.Well P) (hc : c.inconsistent = false) {x : Nat}
    (hx : SplitVar P x) {mid : ℚ} {lower isOpen : Bool}
    (hm : Propagates P pr im (childOf P c x mid lower isOpen) m) (hf : Follows σ m) :
    Follows σ c := by
  intro a ha
  refine hf a ?_
  rw [(propagates_path hm (childOf_well hw hc hx.1 hx.2.2 mid lower isOpen)).2, childOf_path]
  exact List.mem_append_left _ ha

/-- The children of a split are parts of their parent. -/
theorem born_part {c l r : Content} (hw : c.Well P) (h : Born (paving P pr im so) c l r) :
    (Follows σ l → Follows σ c) ∧ (Follows σ r → Follows σ c) := by
  obtain ⟨x, mid, lower, isOpen, hx, -, hcons, hl, hr⟩ := born_cut h
  exact ⟨childOf_follows hw hcons hx hl, childOf_follows hw hcons hx hr⟩

/-- Every model in the node is in a node of `H`. -/
def Spent (s : Context (paving P pr im so)) (H : List Nat) (n : Nat) : Prop :=
  ∀ σ, Model P σ → Follows σ (s.node n).content → ∃ h ∈ H, Follows σ (s.node h).content

/-- Every model is in a node of `H`. -/
def Exhausted (s : Context (paving P pr im so)) (H : List Nat) : Prop :=
  ∀ σ, Model P σ → ∃ h ∈ H, Follows σ (s.node h).content

theorem spent_self (h : n ∈ H) : Spent s H n := fun _ _ hf => ⟨n, h, hf⟩

theorem Spent.mono (h : Spent s H n) (hH : ∀ m ∈ H, m ∈ H') : Spent s H' n := by
  intro σ hσ hf
  obtain ⟨m, hm, hf⟩ := h σ hσ hf
  exact ⟨m, hH m hm, hf⟩

theorem Exhausted.mono (h : Exhausted s H) (hH : ∀ m ∈ H, m ∈ H') : Exhausted s H' := by
  intro σ hσ
  obtain ⟨m, hm, hf⟩ := h σ hσ
  exact ⟨m, hH m hm, hf⟩

/-- Nodes that have the contents they had. -/
theorem Spent.congr (h : Spent s H n) (hn : (s'.node n).content = (s.node n).content)
    (hH : ∀ m ∈ H, (s'.node m).content = (s.node m).content) : Spent s' H n := by
  intro σ hσ hf
  rw [hn] at hf
  obtain ⟨m, hm, hf⟩ := h σ hσ hf
  refine ⟨m, hm, ?_⟩
  rw [hH m hm]
  exact hf

theorem Exhausted.congr (h : Exhausted s H)
    (hH : ∀ m ∈ H, (s'.node m).content = (s.node m).content) : Exhausted s' H := by
  intro σ hσ
  obtain ⟨m, hm, hf⟩ := h σ hσ
  refine ⟨m, hm, ?_⟩
  rw [hH m hm]
  exact hf

/-- No model is in the node. -/
theorem spent_of_none (h : ∀ σ, Model P σ → ¬ Follows σ (s.node n).content) : Spent s H n :=
  fun σ hσ hf => absurd hf (h σ hσ)

section

variable (hr : (machine (paving P pr im so) maxAlive).Reachable s)
include hr

/-- The split of a node with children. -/
theorem split_born (hne : s.childrenOf n ≠ []) : n < s.size ∧ ∃ a b, s.childrenOf n = [b, a] ∧
    Born (paving P pr im so) (s.node n).content (s.node a).content (s.node b).content := by
  obtain ⟨c, hc⟩ := List.exists_mem_of_ne_nil _ hne
  have hpos : 0 < s.size := by
    rcases run_inv.reachable hr with rfl | ⟨hi, -⟩
    · cases hc
    · exact hi.pos
  obtain ⟨hi, hg⟩ := reachable_genealogy hr hpos
  obtain ⟨hlt, hp⟩ := (hi.grown.child n c).1 hc
  exact ⟨(hi.grown.parentLt c n hp).trans hlt, hg.children n hne⟩

theorem Spent.child (h : Spent s H n) {c : Nat} (hc : c ∈ s.childrenOf n) : Spent s H c := by
  intro σ hσ hf
  obtain ⟨hn, a, b, hab, hborn⟩ := split_born hr (List.ne_nil_of_mem hc)
  obtain ⟨hl, hr'⟩ := born_part (σ := σ) (paving_reached hr hn).well hborn
  refine h σ hσ ?_
  rw [hab] at hc
  rcases List.mem_cons.1 hc with rfl | hc
  · exact hr' hf
  · rw [List.mem_singleton.1 hc] at hf
    exact hl hf

theorem Spent.parent (hne : s.childrenOf n ≠ []) (hall : ∀ c ∈ s.childrenOf n, Spent s H c) :
    Spent s H n := by
  intro σ hσ hf
  obtain ⟨hn, a, b, hab, hborn⟩ := split_born hr hne
  rw [hab] at hall
  rcases born_follows (paving_reached hr hn).well hf hborn with hf | hf
  · exact hall a (by simp) σ hσ hf
  · exact hall b (by simp) σ hσ hf

/-- Found UNSAT by the partitioner. -/
theorem spent_of_found (hP : SingleSort P) (hread : ∀ m, .unsatNode m ∈ s.read → Spent s H m)
    (hn : s.FoundUnsat n) : Spent s H n := by
  obtain ⟨hlt, hc | hc | hc⟩ := hn
  · refine spent_of_none fun σ hσ hf => ?_
    have hcons := (follows_task hP hr hσ hlt hf).1
    exact absurd (hc.symm.trans hcons) Bool.true_eq_false.mp
  · refine spent_of_none fun σ hσ hf => ?_
    obtain ⟨t, ht, -⟩ := (follows_task hP hr hσ hlt hf).2
    exact absurd (ht.symm.trans hc) (by simp)
  · exact hread n hc

/-- **UNSAT nodes are spent** if the nodes that were reported are. -/
theorem spent_of_unsat (hP : SingleSort P) (hread : ∀ m, .unsatNode m ∈ s.read → Spent s H m)
    (hn : (s.node n).state = .unsat) : Spent s H n := by
  rcases run_inv.reachable hr with rfl | ⟨hi, -⟩
  · cases hn
  · refine (hi.reasons.sound n hn).least (fun m hm => spent_of_found hr hP hread hm)
      (fun p c hp hc => hp.child hr hc) fun m hne _ hall => Spent.parent hr hne hall

/-- A spent root leaves no model but in `H`. -/
theorem Spent.root (h : Spent s H 0) (hpos : 0 < s.size) : Exhausted s H :=
  fun σ hσ => h σ hσ (root_follows (reachable_genealogy hr hpos).2.root σ)

/-- **The verdict**: on `l_false` every model is in a node of `H`, if the
reported nodes are spent and so are the terminated leaves. -/
theorem spent_of_verdict (hP : SingleSort P) (hd : s.phase = .done .unsat)
    (hread : ∀ m, .unsatNode m ∈ s.read → Spent s H m)
    (hterm : ∀ m, .terminateNode m ∈ s.read → s.childrenOf m ≠ [] ∨ Spent s H m) :
    Exhausted s H := by
  intro σ hσ
  obtain ⟨⟨hrun, hgen⟩, htold⟩ := told_inductive.reachable hr
  have hne : s ≠ .empty := by
    rintro rfl
    cases hd
  obtain ⟨hi, hl⟩ := hrun.resolve_left hne
  have hg := hgen.resolve_left hne
  obtain ⟨m, hm, hleaf, hf⟩ := hg.leaf hi (I := fun c => Follows σ c) (root_follows hg.root σ)
    fun a b c ha _ hfa hborn => born_follows (paving_reached hr ha).well hfa hborn
  have hroot : (paving P pr im so).inconsistent (s.node 0).content = false :=
    (follows_task hP hr hσ hi.pos (root_follows hg.root σ)).1
  rcases unsat_verdict_leaves hi hd hroot hm with hu | ht
  · exact spent_of_unsat hr hP hread hu σ hσ hf
  · rcases hterm m (htold.terminated m ht) with hne | hs
    · exact absurd hleaf hne
    · exact hs σ hσ hf

end

end AriParti.L2
