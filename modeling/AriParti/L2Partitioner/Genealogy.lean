import AriParti.L2Partitioner.Lines

/-!
# Where the nodes come from

Every node of the tree but the root is one of the two children of a node that
was consistent and had a task when it was split, and the contents of the three
never change afterwards. What holds of the root and passes from a node to the
children a split makes of it therefore holds of every node
(`Genealogy.induction`), and what a split leaves to one of the children of a
node is found in a leaf (`Genealogy.leaf`).

## Results

* `genealogy_inductive`: `Genealogy` in every run.
-/
namespace AriParti.L2
open AriParti.Core

/-- The candidates `split_node` may find. -/
inductive Offered (K : Kernel) : K.Candidates → Prop where
  | none : Offered K K.noCandidates
  | branch {cs cs' : K.Candidates} {c : K.Content} {t : K.Task}
      {ch : Option (K.Content × K.Content)} : Offered K cs → K.branch cs c t cs' ch →
      Offered K cs'

/-- A split of `c` makes `l` and `r`. -/
structure Born (K : Kernel) (c l r : K.Content) : Prop where
  consistent : K.inconsistent c = false
  made : ∃ t cs cs' l₀ r₀, Offered K cs ∧ K.convert c = some t ∧
    K.branch cs c t cs' (some (l₀, r₀)) ∧ K.propagate l₀ l ∧ K.propagate r₀ r

/-- The contents of a root. -/
def Rooted (K : Kernel) (c : K.Content) : Prop :=
  ∃ c₀, K.init c₀ ∧ (c = c₀ ∨ K.inconsistent c₀ = false ∧ K.propagate c₀ c)

variable {K : Kernel} {maxAlive : Nat}

namespace Context

/-- The tree of a process that has made its first call. -/
structure Genealogy (s : Context K) : Prop where
  pos : 0 < s.size
  candidates : Offered K s.candidates
  root : Rooted K (s.node 0).content
  parent : ∀ n < s.size, n ≠ 0 → ∃ p, (s.node n).parent = some p
  children : ∀ n, (s.node n).children ≠ [] → ∃ a b, (s.node n).children = [b, a] ∧
    Born K (s.node n).content (s.node a).content (s.node b).content

section

variable {s s' : Context K}

/-- States, lines and files do not matter. -/
theorem Genealogy.congr (h : s.Genealogy) (hsize : s'.size = s.size)
    (hcs : Offered K s'.candidates)
    (hparent : ∀ n, (s'.node n).parent = (s.node n).parent)
    (hchildren : ∀ n, (s'.node n).children = (s.node n).children)
    (hcontent : ∀ n, (s'.node n).content = (s.node n).content) : s'.Genealogy := by
  refine ⟨by rw [hsize]; exact h.pos, hcs, ?_, fun n hn hne => ?_, fun n hne => ?_⟩
  · rw [hcontent]
    exact h.root
  · rw [hsize] at hn
    rw [hparent]
    exact h.parent n hn hne
  · rw [hchildren] at hne ⊢
    obtain ⟨a, b, hab, hborn⟩ := h.children n hne
    refine ⟨a, b, hab, ?_⟩
    rw [hcontent, hcontent, hcontent]
    exact hborn

theorem Recolored.genealogy (h : Recolored s s') (hg : s.Genealogy) : s'.Genealogy :=
  hg.congr h.size (by rw [h.candidates]; exact hg.candidates) h.parent h.children h.content

/-- The two children of a split. -/
theorem Split.genealogy {n : Nat} {t : TaskInfo K} {l r : K.Content} (h : Split s s' n t l r)
    (hi : s.Inv) (hg : s.Genealogy) (hcs : Offered K s'.candidates) (hn : n < s.size)
    (hborn : Born K (s.node n).content l r) : s'.Genealogy := by
  have hsize := h.size
  have hcontent : ∀ m < s.size, (s'.node m).content = (s.node m).content := h.content
  refine ⟨by omega, hcs, ?_, fun m hm hne => ?_, fun m hne => ?_⟩
  · rw [hcontent 0 hg.pos]
    exact hg.root
  · by_cases h1 : m = s.size
    · rw [h1, h.left]
      exact ⟨n, rfl⟩
    · by_cases h2 : m = s.size + 1
      · rw [h2, h.right]
        exact ⟨n, rfl⟩
      · by_cases h3 : m = n
        · rw [h3, h.parent]
          exact hg.parent n hn (h3 ▸ hne)
        · rw [h.other m h3 h1 h2]
          exact hg.parent m (by omega) hne
  · by_cases h1 : m = s.size
    · rw [h1, h.left] at hne
      exact absurd rfl hne
    · by_cases h2 : m = s.size + 1
      · rw [h2, h.right] at hne
        exact absurd rfl hne
      · by_cases h3 : m = n
        · subst h3
          refine ⟨s.size, s.size + 1, by rw [h.parent], ?_⟩
          rw [hcontent m hn, h.left, h.right]
          exact hborn
        · rw [h.other m h3 h1 h2] at hne ⊢
          obtain ⟨a, b, hab, hb⟩ := hg.children m hne
          have lt : ∀ c ∈ (s.node m).children, c < s.size :=
            fun c hc => ((hi.grown.child m c).1 hc).1
          have ha := lt a (by rw [hab]; simp)
          have hb' := lt b (by rw [hab]; simp)
          refine ⟨a, b, hab, ?_⟩
          rw [hcontent a ha, hcontent b hb']
          exact hb

theorem Genealogy.announce (hg : s.Genealogy) (hi : s.Inv) {t : TaskInfo K}
    (ht : s.ptask = some t) {cs : K.Candidates} {ch₀ ch : Option (K.Content × K.Content)}
    (hbranch : K.branch s.candidates (s.node t.nodeId).content t.task cs ch₀)
    (hprop : Propagated K ch₀ ch) : (s.announce t cs ch).Genealogy := by
  have hpend := hi.task t ht
  have hen := hi.enlist ht cs
  have hcs : Offered K (s.enlist t cs).candidates := hg.candidates.branch hbranch
  have hgen : (s.enlist t cs).Genealogy :=
    hg.congr rfl hcs (fun n => (enlist_node t cs n).1) (fun n => (enlist_node t cs n).2.1)
      fun n => (enlist_node t cs n).2.2
  cases ch with
  | none => exact hgen
  | some lr =>
    obtain ⟨l, r⟩ := lr
    have hlt : t.nodeId < (s.enlist t cs).size := hpend.lt
    have hleaf := (enlist_node t cs t.nodeId).2.1.trans hpend.children
    have hsplit := splitNode_split hlt hleaf t l r
    refine hsplit.genealogy hen hgen hcs hlt ?_
    rw [(enlist_node t cs t.nodeId).2.2]
    cases ch₀ with
    | none => exact hprop.elim
    | some lr₀ =>
      exact ⟨hpend.consistent, t.task, s.candidates, cs, lr₀.1, lr₀.2, hg.candidates, hpend.convert,
        hbranch, hprop.1, hprop.2⟩

theorem root_genealogy {c : K.Content} (h : Rooted K c) (heap : List NodeInfo) (ph : Phase) :
    Genealogy { (empty (K := K)).mkNode none c with leafHeap := heap, phase := ph } := by
  refine ⟨Nat.one_pos, .none, ?_, fun n hn hne => ?_, fun n hne => absurd ?_ hne⟩
  · exact h
  · have hn : n < 1 := hn
    omega
  · show (((empty (K := K)).mkNode none c).node n).children = []
    simp only [mkNode, empty, noNode, Function.update_apply]
    split <;> rfl

/-! ## Induction over the tree -/

/-- A node of the tree is the root or a child of a split. -/
theorem Genealogy.induction (h : s.Genealogy) (hi : s.Inv) {I : K.Content → Prop}
    (root : ∀ c, Rooted K c → I c)
    (born : ∀ n a b, (s.node n).children = [b, a] → I (s.node n).content →
      Born K (s.node n).content (s.node a).content (s.node b).content →
      I (s.node a).content ∧ I (s.node b).content) :
    ∀ n < s.size, I (s.node n).content := by
  intro n
  induction n using Nat.strong_induction_on with
  | _ n ih =>
    intro hn
    by_cases hne : n = 0
    · rw [hne]
      exact root _ h.root
    · obtain ⟨p, hp⟩ := h.parent n hn hne
      have hpn := hi.grown.parentLt n p hp
      have hmem : n ∈ (s.node p).children := (hi.grown.child p n).2 ⟨hn, hp⟩
      obtain ⟨a, b, hab, hborn⟩ := h.children p (List.ne_nil_of_mem hmem)
      obtain ⟨hl, hr⟩ := born p a b hab (ih p hpn (Nat.lt_trans hpn hn)) hborn
      rw [hab] at hmem
      rcases List.mem_cons.1 hmem with rfl | hmem
      · exact hr
      · rw [List.mem_singleton.1 hmem]
        exact hl

/-- What holds of the root and passes to one of the children holds of a leaf. -/
theorem Genealogy.leaf (h : s.Genealogy) (hi : s.Inv) {I : K.Content → Prop}
    (root : I (s.node 0).content)
    (born : ∀ n a b, n < s.size → (s.node n).children = [b, a] → I (s.node n).content →
      Born K (s.node n).content (s.node a).content (s.node b).content →
      I (s.node a).content ∨ I (s.node b).content) :
    ∃ n < s.size, (s.node n).children = [] ∧ I (s.node n).content := by
  -- the children have greater numbers, and there are finitely many nodes
  have down : ∀ k n, s.size - n ≤ k → n < s.size → I (s.node n).content →
      ∃ m < s.size, (s.node m).children = [] ∧ I (s.node m).content := by
    intro k
    induction k with
    | zero => intro n hk hn; omega
    | succ k ih =>
      intro n hk hn hI
      by_cases hne : (s.node n).children = []
      · exact ⟨n, hn, hne, hI⟩
      · obtain ⟨a, b, hab, hborn⟩ := h.children n hne
        have later : ∀ c ∈ (s.node n).children, n < c ∧ c < s.size := by
          intro c hc
          obtain ⟨hlt, hp⟩ := (hi.grown.child n c).1 hc
          exact ⟨hi.grown.parentLt c n hp, hlt⟩
        have ha := later a (by rw [hab]; simp)
        have hb := later b (by rw [hab]; simp)
        rcases born n a b hn hab hI hborn with hl | hr
        · exact ih a (by omega) ha.2 hl
        · exact ih b (by omega) hb.2 hr
  exact down s.size 0 (Nat.sub_le _ _) h.pos root

end

end Context

open Context

theorem step_genealogy {s s' : Context K} {l : Label} (hg : s.Genealogy) (hi : s.Inv)
    (hs : Step K maxAlive s l s') : s'.Genealogy := by
  cases hs with
  | initUnsat => exact absurd rfl hi.started
  | propagateUnsat => exact absurd rfl hi.started
  | init => exact absurd rfl hi.started
  | announce _ ht hbranch hprop => exact hg.announce hi ht hbranch hprop
  | readLine line _ _ =>
    have hrec := (parseLine_recolors (s := s) line).genealogy hg
    exact ⟨hrec.pos, hrec.candidates, hrec.root, hrec.parent, hrec.children⟩
  | enter _ _ | heapEmpty _ _ => exact ⟨hg.pos, hg.candidates, hg.root, hg.parent, hg.children⟩
  | createNewTask hp htop =>
    rename_i ni
    rcases createNewTask_cases hi htop.1 with ⟨-, he⟩ | ⟨-, -, -, he⟩ | ⟨_, -, -, -, he⟩
    · rw [he]
      exact ⟨hg.pos, hg.candidates, hg.root, hg.parent, hg.children⟩
    · have hrec := ((Recolored.refl s).setState ni.id .unsat).genealogy hg
      rw [he]
      exact ⟨hrec.pos, hrec.candidates, hrec.root, hrec.parent, hrec.children⟩
    · rw [he]
      exact ⟨hg.pos, hg.candidates, hg.root, hg.parent, hg.children⟩
  | display _ _ =>
    unfold displayCurrentTask
    split <;> exact ⟨hg.pos, hg.candidates, hg.root, hg.parent, hg.children⟩

theorem genealogy_inductive :
    (machine K maxAlive).Inductive fun s => RunInv s ∧ (s = .empty ∨ s.Genealogy) := by
  refine run_inv.under (fun s hs => .inl hs) fun s l s' hr hg hs => ?_
  rcases hg with rfl | hg
  · right
    cases hs with
    | initUnsat hinit _ => exact root_genealogy ⟨_, hinit, .inl rfl⟩ [] _
    | propagateUnsat hinit hc hprop _ => exact root_genealogy ⟨_, hinit, .inr ⟨hc, hprop⟩⟩ [] _
    | init hinit hc hprop _ => exact root_genealogy ⟨_, hinit, .inr ⟨hc, hprop⟩⟩ _ _
    | announce hp | readLine _ hp | enter hp | createNewTask hp | heapEmpty hp | display hp =>
      cases hp
  · rcases hr with rfl | ⟨hi, -⟩
    · exact absurd hg.pos (Nat.lt_irrefl 0)
    · exact .inr (step_genealogy hg hi hs)

/-- A tree with a node has a genealogy. -/
theorem reachable_genealogy {s : Context K} (hr : (machine K maxAlive).Reachable s)
    (hs : 0 < s.size) : s.Inv ∧ s.Genealogy := by
  obtain ⟨hi, hg⟩ := genealogy_inductive.reachable hr
  have hne : s ≠ .empty := by
    rintro rfl
    exact absurd hs (Nat.lt_irrefl 0)
  exact ⟨(hi.resolve_left hne).1, hg.resolve_left hne⟩

end AriParti.L2
