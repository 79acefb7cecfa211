import Mathlib.Data.Nat.GCD.Basic
import AriParti.L1Input.Terms
import AriParti.L1Input.Variables

/-!
# Internalisation of terms

`expr2subpaving` turns a term into a variable of the context, a rational
coefficient and a constant. Monomials and sums get variables of their own, found
again by the expression recorded for them; the results of shared terms are
cached. Which terms are shared (reference count above one) is asked of an oracle
each time a result may be cached.
-/
namespace AriParti.L1

open AriParti.Core Term

/-- What `process` returns, and its out-parameters `n` and `d`. -/
structure Internalized where
  x : Option Nat
  n : ℤ
  d : ℤ
  deriving DecidableEq, Repr

/-- `clock` counts the calls of `cache_result`. -/
structure Expr2Subpaving where
  vars : Vars
  expr2var : Term → Option Nat
  var2expr : Nat → Option Term
  cache : Term → Option Internalized
  clock : Nat

namespace Expr2Subpaving

def empty : Expr2Subpaving := ⟨⟨[]⟩, fun _ => none, fun _ => none, fun _ => none, 0⟩

def exprOf (s : Expr2Subpaving) (x : Nat) : Term := (s.var2expr x).getD (.num 0 true)

/-- mirrors expr2subpaving.cpp:111-116 -/
def updateEvMap (s : Expr2Subpaving) (t : Term) (x : Nat) : Expr2Subpaving :=
  { s with
    expr2var := Function.update s.expr2var t (some x)
    var2expr := Function.update s.var2expr x (some t) }

/-- The variable recorded for the expression, or else the one `made` adds. -/
def lookup (s : Expr2Subpaving) (t : Term) (made : Vars) : Nat × Expr2Subpaving :=
  match s.expr2var t with
  | some x => (x, s)
  | none => (s.vars.size, { s with vars := made }.updateEvMap t s.vars.size)

/-- mirrors expr2subpaving.cpp:118-129 -/
def mkVarFor (s : Expr2Subpaving) (t : Term) : Nat × Expr2Subpaving :=
  s.lookup t (s.vars.mkVar t.isInt)

/-- mirrors expr2subpaving.cpp:143-155 -/
def cacheResult (shared : Nat → Bool) (s : Expr2Subpaving) (t : Term) (r : Internalized) :
    Expr2Subpaving :=
  { s with
    cache := if shared s.clock then Function.update s.cache t (some r) else s.cache
    clock := s.clock + 1 }

/-- The degrees of a repeated variable are added up; they are unsigned
(expr2subpaving.cpp:237-249). -/
def mergePowers : List (Nat × Nat) → List (Nat × Nat)
  | [] => []
  | [p] => [p]
  | p :: q :: pws =>
    if p.1 = q.1 then mergePowers ((p.1, (p.2 + q.2) % 2 ^ 32) :: pws)
    else p :: mergePowers (q :: pws)
termination_by pws => pws.length

/-- mirrors expr2subpaving.cpp:261-273: the product made for a power takes in
what `m_expr_buffer` held before it. -/
def pushPower (buffer : List Term) (v : Term) (ud : Nat) : List Term :=
  if ud = 1 then buffer ++ [v] else [.mkMul (buffer ++ .replicate ud v)]

/-- mirrors expr2subpaving.cpp:256-278 -/
def monomialExpr (s : Expr2Subpaving) (pws : List (Nat × Nat)) : Term :=
  .mkMul (pws.foldl (fun buffer p => pushPower buffer (s.exprOf p.1) p.2) [])

/-- mirrors expr2subpaving.cpp:232-288 -/
def productVar (s : Expr2Subpaving) : List (Nat × Nat) → Option Nat × Expr2Subpaving
  | [] => (none, s)
  | [(x, 1)] => (some x, s)
  | pws =>
    let (x, s) := s.lookup (s.monomialExpr pws) (s.vars.mkMonomial pws)
    (some x, s)

/-- `pws`, sorted by variable and merged. -/
def powersOf (rs : List (Internalized × Nat)) : List (Nat × Nat) :=
  mergePowers ((rs.filterMap fun r => r.1.x.map (·, r.2)).insertionSort fun p q => p.1 ≤ q.1)

/-- mirrors expr2subpaving.cpp:214-291, once the arguments are processed -/
def finishMul (shared : Nat → Bool) (t : Term) (n d : ℤ) (rs : List (Internalized × Nat))
    (s : Expr2Subpaving) : Internalized × Expr2Subpaving :=
  let r : Internalized :=
    ⟨(s.productVar (powersOf rs)).1, rs.foldl (fun n r => n * r.1.n ^ r.2) n,
      rs.foldl (fun d r => d * r.1.d ^ r.2) d⟩
  (r, (s.productVar (powersOf rs)).2.cacheResult shared t r)

/-- `xs`, with `ns` and `ds`: the results that have a variable. -/
def summands (rs : List Internalized) : List (Internalized × Nat) :=
  rs.filterMap fun r => r.x.map fun x => (r, x)

/-- `c`: the others. -/
def constants (rs : List Internalized) : ℚ :=
  ((rs.filter fun r => r.x.isNone).map fun r => (r.n : ℚ) / r.d).sum

def denominator (ps : List (Internalized × Nat)) : ℤ :=
  ps.foldl (fun d p => (Int.lcm d p.1.d : ℤ)) 1

/-- The numerators over the common denominator. -/
def numerators (ps : List (Internalized × Nat)) : List ℤ :=
  ps.map fun p => p.1.n * (denominator ps / p.1.d)

/-- `ng`: the first numerator as it is, if there is no other. -/
def gcdOf : List ℤ → ℤ
  | [] => 0
  | n :: ns => ns.foldl (fun g n => (Int.gcd g n : ℤ)) n

def reduce (ns : List ℤ) : List ℤ := if 1 < gcdOf ns then ns.map (· / gcdOf ns) else ns

/-- mirrors expr2subpaving.cpp:364-394; the summands are sorted by variable -/
def polyExpr (s : Expr2Subpaving) (ts : List (ℤ × Nat)) : Term :=
  .poly ((ts.insertionSort fun p q => p.2 ≤ q.2).map fun p => (p.1, s.exprOf p.2))

/-- `ns` and `xs`, reduced. -/
def polyOf (ps : List (Internalized × Nat)) : List (ℤ × Nat) :=
  (reduce (numerators ps)).zip (ps.map Prod.snd)

/-- mirrors expr2subpaving.cpp:396-401 -/
def sumVar (s : Expr2Subpaving) (ts : List (ℤ × Nat)) : Nat × Expr2Subpaving :=
  s.lookup (s.polyExpr ts) (s.vars.mkSum (ts.map fun p => ((p.1 : ℚ), p.2)))

/-- mirrors expr2subpaving.cpp:307-407, once the arguments are processed -/
def finishAdd (shared : Nat → Bool) (t : Term) (rs : List Internalized) (s : Expr2Subpaving) :
    Internalized × ℚ × Expr2Subpaving :=
  match summands rs with
  | [] => (⟨none, 0, 1⟩, constants rs, s.cacheResult shared t ⟨none, 0, 1⟩)
  | p :: ps =>
    let v := s.sumVar (polyOf (p :: ps))
    let r : Internalized := ⟨some v.1, gcdOf (numerators (p :: ps)), denominator (p :: ps)⟩
    (r, constants rs, v.2.cacheResult shared t r)

/-- mirrors expr2subpaving.cpp:419-443 -/
def powerVar (s : Expr2Subpaving) (a : Term) (k : ℕ+) : Option Nat → Option Nat × Expr2Subpaving
  | none => (none, s)
  | some x =>
    let (v, s) := s.lookup (.mkMul (.replicate k a)) (s.vars.mkMonomial [(x, k)])
    (some v, s)

/-- mirrors expr2subpaving.cpp:417-448, once the base is processed -/
def finishPower (shared : Nat → Bool) (t a : Term) (k : ℕ+) (r : Internalized)
    (s : Expr2Subpaving) : Internalized × Expr2Subpaving :=
  let r' : Internalized := ⟨(s.powerVar a k r.x).1, r.n ^ (k : ℕ), r.d ^ (k : ℕ)⟩
  (r', (s.powerVar a k r.x).2.cacheResult shared t r')

mutual

/-- mirrors expr2subpaving.cpp:450-532; `none` where the source throws -/
def process (shared : Nat → Bool) (t : Term) (qk : ℚ) (s : Expr2Subpaving) :
    Option (Internalized × ℚ × Expr2Subpaving) :=
  match s.cache t with
  | some r => some (r, qk, s)
  | none =>
    match t with
    | .num q _ => some (⟨none, q.num, q.den⟩, qk, s)
    | .var v => some (⟨some (s.mkVarFor (.var v)).1, 1, 1⟩, qk, (s.mkVarFor (.var v)).2)
    | .add ts => (processArgs shared ts qk s).map fun r => finishAdd shared (.add ts) r.1 r.2.2
    | .mul [] => none
    | .mul [_] => none
    | .mul (.num q b :: m :: ms) =>
      if q = 0 then
        (processFactors shared (.num q b :: m :: ms) qk s).map fun r =>
          let (x, s) := finishMul shared (.mul (.num q b :: m :: ms)) 1 1 r.1 r.2.2
          (x, r.2.1, s)
      else
        match ms with
        | [] =>
          match m with
          | .mul ts => (processFactors shared ts qk s).map fun r =>
            let (x, s) := finishMul shared (.mul [.num q b, .mul ts]) q.num q.den r.1 r.2.2
            (x, r.2.1, s)
          | m => (processFactors shared [m] qk s).map fun r =>
            let (x, s) := finishMul shared (.mul [.num q b, m]) q.num q.den r.1 r.2.2
            (x, r.2.1, s)
        | _ :: _ => none
    | .mul ts => (processFactors shared ts qk s).map fun r =>
      let (x, s) := finishMul shared (.mul ts) 1 1 r.1 r.2.2
      (x, r.2.1, s)
    | .pow a k =>
      if IsUnsigned k then
        (process shared a qk s).map fun r =>
          let (x, s) := finishPower shared (.pow a k) a k r.1 r.2.2
          (x, r.2.1, s)
      else some (⟨some (s.mkVarFor (.pow a k)).1, 1, 1⟩, qk, (s.mkVarFor (.pow a k)).2)
termination_by structural t

def processArgs (shared : Nat → Bool) (ts : List Term) (qk : ℚ) (s : Expr2Subpaving) :
    Option (List Internalized × ℚ × Expr2Subpaving) :=
  match ts with
  | [] => some ([], qk, s)
  | t :: ts =>
    (process shared t qk s).bind fun r =>
      (processArgs shared ts r.2.1 r.2.2).map fun rs => (r.1 :: rs.1, rs.2)
termination_by structural ts

/-- The arguments of a product, as powers. -/
def processFactors (shared : Nat → Bool) (ts : List Term) (qk : ℚ) (s : Expr2Subpaving) :
    Option (List (Internalized × Nat) × ℚ × Expr2Subpaving) :=
  match ts with
  | [] => some ([], qk, s)
  | .pow a k :: ts =>
    if IsUnsigned k then
      (process shared a qk s).bind fun r =>
        (processFactors shared ts r.2.1 r.2.2).map fun rs => ((r.1, (k : ℕ)) :: rs.1, rs.2)
    else
      (process shared (.pow a k) qk s).bind fun r =>
        (processFactors shared ts r.2.1 r.2.2).map fun rs => ((r.1, 1) :: rs.1, rs.2)
  | t :: ts =>
    (process shared t qk s).bind fun r =>
      (processFactors shared ts r.2.1 r.2.2).map fun rs => ((r.1, 1) :: rs.1, rs.2)
termination_by structural ts

end

/-! ## Equations -/

/-- The arguments `process_mul` takes for factors, with the coefficient before
them; `none` where it throws (expr2subpaving.cpp:187-211). -/
def mulArgs : List Term → Option (ℤ × ℤ × List Term)
  | [] => none
  | [_] => none
  | .num q b :: m :: ms =>
    if q = 0 then some (1, 1, .num q b :: m :: ms)
    else
      match ms with
      | [] =>
        match m with
        | .mul ts => some (q.num, q.den, ts)
        | m => some (q.num, q.den, [m])
      | _ :: _ => none
  | ts => some (1, 1, ts)

variable {shared : Nat → Bool} {s : Expr2Subpaving} {qk : ℚ}

theorem process_mul {ts : List Term} (hc : s.cache (.mul ts) = none) :
    process shared (.mul ts) qk s = (mulArgs ts).bind fun a =>
      (processFactors shared a.2.2 qk s).map fun r =>
        ((finishMul shared (.mul ts) a.1 a.2.1 r.1 r.2.2).1, r.2.1,
          (finishMul shared (.mul ts) a.1 a.2.1 r.1 r.2.2).2) := by
  unfold mulArgs
  split
  · simp only [process, hc]; rfl
  · simp only [process, hc]; rfl
  · rename_i q b m ms
    split
    · rename_i hq
      unfold process
      simp only [hc, if_pos hq]
      rfl
    · rename_i hq
      split
      · split
        · simp only [process, hc, if_neg hq]; rfl
        · simp only [process, hc, if_neg hq]; rfl
      · simp only [process, hc, if_neg hq]; rfl
  · simp only [process, hc]; rfl

/-- What products keep, the buffer keeps. -/
theorem pushPower_all {p : Term → Prop}
    (hmul : ∀ ts : List Term, ts ≠ [] → (∀ t ∈ ts, p t) → p (.mkMul ts)) {buffer : List Term}
    {v : Term} {ud : Nat} (hbuffer : ∀ t ∈ buffer, p t) (hv : p v) (hud : 0 < ud) :
    pushPower buffer v ud ≠ [] ∧ ∀ t ∈ pushPower buffer v ud, p t := by
  unfold pushPower
  split
  · refine ⟨by simp, fun t ht => ?_⟩
    rcases List.mem_append.1 ht with ht | ht
    · exact hbuffer t ht
    · rwa [List.mem_singleton.1 ht]
  · refine ⟨by simp, fun t ht => ?_⟩
    rw [List.mem_singleton.1 ht]
    refine hmul _ (fun hnil => ?_) fun u hu => ?_
    · exact hud.ne' ((List.replicate_eq_nil_iff _).1 (List.append_eq_nil_iff.1 hnil).2)
    · rcases List.mem_append.1 hu with hu | hu
      · exact hbuffer u hu
      · rwa [(List.mem_replicate.1 hu).2]

theorem monomialExpr_of_mkMul {p : Term → Prop}
    (hmul : ∀ ts : List Term, ts ≠ [] → (∀ t ∈ ts, p t) → p (.mkMul ts)) {pws : List (Nat × Nat)}
    (hne : pws ≠ []) (hpos : ∀ q ∈ pws, 0 < q.2) (hexpr : ∀ q ∈ pws, p (s.exprOf q.1)) :
    p (s.monomialExpr pws) := by
  have hfold : ∀ (pws : List (Nat × Nat)) (buffer : List Term), (∀ q ∈ pws, 0 < q.2) →
      (∀ q ∈ pws, p (s.exprOf q.1)) → (∀ t ∈ buffer, p t) → (pws = [] → buffer ≠ []) →
      p (.mkMul (pws.foldl (fun buffer q => pushPower buffer (s.exprOf q.1) q.2) buffer)) := by
    intro pws
    induction pws with
    | nil => exact fun buffer _ _ hbuffer hne => hmul buffer (hne rfl) hbuffer
    | cons q pws ih =>
      intro buffer hpos hexpr hbuffer _
      obtain ⟨hne, hall⟩ := pushPower_all hmul hbuffer (hexpr q List.mem_cons_self)
        (hpos q List.mem_cons_self)
      exact ih _ (fun r hr => hpos r (List.mem_cons_of_mem q hr))
        (fun r hr => hexpr r (List.mem_cons_of_mem q hr)) hall fun _ => hne
  exact hfold pws [] hpos hexpr nofun fun hnil => absurd hnil hne

theorem processFactors_cons (t : Term) (ts : List Term) :
    processFactors shared (t :: ts) qk s = (process shared t.asPower.1 qk s).bind fun r =>
      (processFactors shared ts r.2.1 r.2.2).map fun rs => ((r.1, t.asPower.2) :: rs.1, rs.2) := by
  rcases t.asPower_cases with ⟨a, k, rfl, hk, ht⟩ | ht
  · rw [ht, processFactors, if_pos hk]
  · rw [ht]
    cases t with
    | pow a k =>
      have hk : ¬ IsUnsigned k := by
        intro hk
        rw [asPower, if_pos hk] at ht
        exact absurd (congrArg (fun p => sizeOf p.1) ht) (by simp)
      rw [processFactors, if_neg hk]
    | _ => rw [processFactors]; nofun

end Expr2Subpaving

end AriParti.L1
