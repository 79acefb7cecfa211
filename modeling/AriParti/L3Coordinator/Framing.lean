import AriParti.L2Partitioner.ReadLine
import AriParti.L3Coordinator.Solving

/-!
# Messages on the pipes

`Partitioner.receive_message` cuts the standard output of the partitioner into
messages. It reads all there is, hands out one line at a time, and keeps the
characters behind the last line. The output ends when a read is empty and the
process has exited; the characters that are left are then the last message. It
is called by two loops: the inner one stops after 32 messages or when there is
none, the outer one goes on while the process has exited and its output has not
ended.

The pipe is opened in text mode: what is read is translated, so that `\r` and
`\r\n` are ends of lines as well. Its characters are those of the partitioner,
which writes ASCII. The process exits with code 0; otherwise what is left of its
output goes to the log.

## Layout

* `Partitioner`: its status and its buffer; `receiveMessage` is one call.
* `Receiving`: the coordinator in its two loops, with the process at the other
  end of the pipe; `receiving` are the steps of both.

## Results

* `pieces_universal`: the translation changes no message but blank ones.
* `received_lines`: the messages are the lines of what has been written.
* `read_to_end`: the output of a process that has exited is read to its end.
* `line_framing`: this, and the lines read by the partitioner.
-/
namespace AriParti.L3
open AriParti.Core AriParti.L2

/-- The translation of text mode, for one read: of `\r\n` the `\n` stays, and
another `\r` becomes one. -/
def universal : List Char → List Char
  | [] => []
  | c :: cs =>
    if c = '\r' then
      if cs.head? = some '\n' then universal cs else '\n' :: universal cs
    else c :: universal cs

def isNewline (c : Char) : Bool := c == '\n' || c == '\r'

/-- mirrors src/src/partitioner.py:45-54,66-68 -/
structure Partitioner where
  status : PartitionerStatus
  partialLine : List Char
  buffer : Option (List Char)
  bufferHead : Nat
  deriving DecidableEq, Repr

namespace Partitioner

def start : Partitioner := ⟨.running, [], none, 0⟩

variable (s : Partitioner)

/-- mirrors src/src/partitioner.py:65-69,84-99; `exited` is what `poll` says -/
def checkRunning (exited : Bool) : Partitioner :=
  if s.status = .running ∧ exited = true then { s with status := .processDone } else s

/-- mirrors src/src/partitioner.py:102-113; `data` is `none` if `select` finds
nothing to read -/
def readFromProcess (data : Option (List Char)) (exited : Bool) : Bool × Partitioner :=
  match data with
  | none => (false, s)
  | some data =>
    let data := universal data
    if data = [] then
      let s := s.checkRunning exited
      if s.status = .running then (true, { s with buffer := some data, bufferHead := 0 })
      else (false, { s with status := .receiveDone })
    else (true, { s with buffer := some data, bufferHead := 0 })

/-- `find('\n', head)` -/
def find (buffer : List Char) (head : Nat) : Option Nat :=
  ((buffer.drop head).findIdx? (· == '\n')).map (head + ·)

/-- The end of `receive_message` (src/src/partitioner.py:124-133). -/
def nextLine : Option (List Char) × Partitioner :=
  let buffer := s.buffer.getD []
  match find buffer s.bufferHead with
  | some eol => (some (s.partialLine ++ (buffer.take eol).drop s.bufferHead),
    { s with bufferHead := eol + 1, partialLine := [] })
  | none => (none, { s with partialLine := s.partialLine ++ buffer.drop s.bufferHead, buffer := none })

/-- mirrors src/src/partitioner.py:115-133 -/
def receiveMessage (data : Option (List Char)) (exited : Bool) : Option (List Char) × Partitioner :=
  if s.buffer = none then
    match s.readFromProcess data exited with
    | (false, s) => (if s.status = .receiveDone then some s.partialLine else none, s)
    | (true, s) => s.nextLine
  else s.nextLine

/-- The characters in the buffer that are to be handed out. -/
def pending : List Char := (s.buffer.getD []).drop s.bufferHead

end Partitioner

/-- The process at the other end: the characters in the pipe, whether it has
closed its end, and whether it has exited. -/
structure Process where
  pipe : List Char
  closed : Bool
  exited : Bool
  deriving DecidableEq, Repr

namespace Process

/-- What `select` and `read` find: nothing, some of the characters in the pipe,
or its end. -/
inductive Reads : Process → Option (List Char) → Process → Prop where
  | timeout {p : Process} : p.pipe = [] → p.closed = false → Reads p none p
  | data {p : Process} {data rest : List Char} : data ≠ [] → p.pipe = data ++ rest →
      Reads p (some data) { p with pipe := rest }
  | eof {p : Process} : p.pipe = [] → p.closed = true → Reads p (some []) p

end Process

/-- The coordinator that receives; `messages` is how far it is in
`receive_partitioner_messages_limited`. `written` and `received` are all that
went into the pipe, and what `receive_message` has returned. -/
structure Receiving where
  process : Process
  partitioner : Partitioner
  messages : Option Nat
  written : List Char
  received : List (List Char)

namespace Receiving

def start : Receiving := ⟨⟨[], false, false⟩, .start, none, [], []⟩

variable (s : Receiving)

/-- `receive_partitioner_messages_limited` has returned
(src/src/coordinator.py:219-225). -/
def limitedDone (q : Partitioner) : Option Nat := if q.status = .processDone then some 0 else none

/-- One call of `receive_message` in the loop (src/src/coordinator.py:195-203). -/
def call (cnt : Nat) (data : Option (List Char)) (p : Process) : Receiving :=
  match s.partitioner.receiveMessage data s.process.exited with
  | (none, q) => { s with process := p, partitioner := q, messages := limitedDone q }
  | (some msg, q) =>
    { s with process := p, partitioner := q, messages := some (cnt + 1), received := s.received ++ [msg] }

inductive Label where
  | write | close | exit | poll | enter | call | leave
  deriving DecidableEq, Repr

/-- The steps of the process and of `receive_partitioner_messages`
(src/src/coordinator.py:193-225). A `poll` is also made when a message is sent. -/
inductive Step : Receiving → Label → Receiving → Prop where
  | write {s : Receiving} (cs : List Char) : s.process.closed = false →
      Step s .write { s with
        process := { s.process with pipe := s.process.pipe ++ cs }, written := s.written ++ cs }
  | close {s : Receiving} : Step s .close { s with process := { s.process with closed := true } }
  | exit {s : Receiving} :
      Step s .exit { s with process := { s.process with closed := true, exited := true } }
  | poll {s : Receiving} :
      Step s .poll { s with partitioner := s.partitioner.checkRunning s.process.exited }
  | enter {s : Receiving} : s.messages = none → s.partitioner.status ≠ .receiveDone →
      Step s .enter { s with
        partitioner := s.partitioner.checkRunning s.process.exited, messages := some 0 }
  | read {s : Receiving} {cnt : Nat} {data : Option (List Char)} {p : Process} :
      s.messages = some cnt → cnt < 32 → s.partitioner.status ≠ .receiveDone →
      s.partitioner.buffer = none → s.process.Reads data p → Step s .call (s.call cnt data p)
  | buffered {s : Receiving} {cnt : Nat} : s.messages = some cnt → cnt < 32 →
      s.partitioner.status ≠ .receiveDone → s.partitioner.buffer ≠ none →
      Step s .call (s.call cnt none s.process)
  | leave {s : Receiving} {cnt : Nat} : s.messages = some cnt →
      (32 ≤ cnt ∨ s.partitioner.status = .receiveDone) →
      Step s .leave { s with messages := limitedDone s.partitioner }

end Receiving

/-- A coordinator that receives from its partitioner. -/
def receiving : LTS Receiving Receiving.Label where
  init s := s = .start
  step := Receiving.Step

/-! ## The translation -/

theorem isNewline_lf : isNewline '\n' = true := rfl

/-- The translation changes the ends of lines only, and how many blank ones
there are. -/
theorem pieces_universal (cs a future : List Char) :
    pieces isNewline (a ++ universal cs ++ future) = pieces isNewline (a ++ cs ++ future) := by
  induction cs generalizing a with
  | nil => rfl
  | cons c cs ih =>
    unfold universal
    split
    · rename_i hc
      subst hc
      split
      · rename_i hn
        obtain ⟨cs, rfl⟩ : ∃ cs', cs = '\n' :: cs' := List.head?_eq_some_iff.1 hn
        rw [ih, List.append_assoc, List.append_assoc]
        exact (pieces_ends a (cs ++ future) rfl isNewline_lf).symm
      · have hih := ih []
        rw [List.append_assoc, List.append_assoc, List.cons_append, List.cons_append,
          pieces_append a _ isNewline_lf, pieces_append a _ (by decide)]
        exact congrArg (pieces isNewline a ++ ·) hih
    · have hih := ih (a ++ [c])
      rw [List.append_assoc a [c], List.append_assoc a [c]] at hih
      exact hih

theorem universal_spec (cs : List Char) :
    '\r' ∉ universal cs ∧ (cs ≠ [] → universal cs ≠ []) ∧ (universal cs).length ≤ cs.length := by
  induction cs with
  | nil => exact ⟨List.not_mem_nil, fun h => h, Nat.le_refl 0⟩
  | cons c cs ih =>
    obtain ⟨hcr, hne, hlen⟩ := ih
    unfold universal
    split
    · split
      · rename_i hn
        refine ⟨hcr, fun _ => hne ?_, hlen.trans (Nat.le_succ _)⟩
        rintro rfl
        cases hn
      · refine ⟨fun h => ?_, fun _ => List.cons_ne_nil _ _, Nat.succ_le_succ hlen⟩
        rcases List.mem_cons.1 h with h | h
        · cases h
        · exact hcr h
    · rename_i hc
      refine ⟨fun h => ?_, fun _ => List.cons_ne_nil _ _, Nat.succ_le_succ hlen⟩
      rcases List.mem_cons.1 h with h | h
      · exact hc h.symm
      · exact hcr h

namespace Partitioner

variable {s : Partitioner}

/-! ## One call -/

theorem find_some {b : List Char} {h eol : Nat} (hf : find b h = some eol) :
    '\n' ∉ (b.take eol).drop h ∧ b.drop h = (b.take eol).drop h ++ '\n' :: b.drop (eol + 1) := by
  unfold find at hf
  obtain ⟨i, hi, rfl⟩ := Option.map_eq_some_iff.1 hf
  obtain ⟨hlt, hnl, hbefore⟩ := List.findIdx?_eq_some_iff_getElem.1 hi
  have htake : (b.take (h + i)).drop h = (b.drop h).take i := by
    rw [List.drop_take, Nat.add_sub_cancel_left]
  rw [htake]
  constructor
  · intro hmem
    obtain ⟨j, hj, he⟩ := List.getElem_of_mem hmem
    rw [List.length_take] at hj
    have hno := hbefore j (by omega)
    rw [List.getElem_take] at he
    rw [he] at hno
    exact hno rfl
  · have hsplit : (b.drop h).drop i = '\n' :: b.drop (h + i + 1) := by
      rw [List.drop_eq_getElem_cons hlt, beq_iff_eq.1 hnl, List.drop_drop, Nat.add_assoc]
    rw [← hsplit, List.take_append_drop]

theorem find_none {b : List Char} {h : Nat} (hf : find b h = none) : '\n' ∉ b.drop h := by
  unfold find at hf
  rw [Option.map_eq_none_iff, List.findIdx?_eq_none_iff] at hf
  intro hmem
  have := hf _ hmem
  cases this

/-- A line is handed out, or all that is left is kept. -/
theorem nextLine_spec {b : List Char} (hb : s.buffer = some b) :
    (∃ w s', s.nextLine = (some (s.partialLine ++ w), s') ∧ s.pending = w ++ '\n' :: s'.pending ∧
      '\n' ∉ w ∧ s'.partialLine = [] ∧ s'.buffer = some b ∧ s'.status = s.status) ∨
    ∃ s', s.nextLine = (none, s') ∧ '\n' ∉ s.pending ∧
      s'.partialLine = s.partialLine ++ s.pending ∧ s'.buffer = none ∧ s'.status = s.status := by
  have hget : s.buffer.getD [] = b := by
    rw [hb, Option.getD_some]
  unfold nextLine pending
  simp only [hget]
  cases hf : find b s.bufferHead with
  | some eol =>
    obtain ⟨hno, hsplit⟩ := find_some hf
    refine .inl ⟨(b.take eol).drop s.bufferHead,
      { s with bufferHead := eol + 1, partialLine := [] }, rfl, ?_, hno, rfl, hb, rfl⟩
    show _ = _ ++ '\n' :: (s.buffer.getD []).drop (eol + 1)
    rw [hget, hsplit]
  | none =>
    exact .inr ⟨{ s with partialLine := s.partialLine ++ b.drop s.bufferHead, buffer := none }, rfl,
      find_none hf, rfl, rfl, rfl⟩

theorem pending_none (h : s.buffer = none) : s.pending = [] := by
  unfold pending
  rw [h, Option.getD_none, List.drop_nil]

/-- `check_running` leaves the buffer alone. -/
theorem checkRunning_same (exited : Bool) : (s.checkRunning exited).partialLine = s.partialLine ∧
    (s.checkRunning exited).buffer = s.buffer ∧ (s.checkRunning exited).bufferHead = s.bufferHead ∧
    ((s.checkRunning exited).status = .receiveDone ↔ s.status = .receiveDone) := by
  unfold checkRunning
  split
  · rename_i h
    refine ⟨rfl, rfl, rfl, ?_⟩
    rw [h.1]
    exact iff_of_false PartitionerStatus.noConfusion PartitionerStatus.noConfusion
  · exact ⟨rfl, rfl, rfl, .rfl⟩

theorem checkRunning_exited : (s.checkRunning true).status ≠ .running := by
  unfold checkRunning
  split
  · exact PartitionerStatus.noConfusion
  · rename_i h
    exact fun hr => h ⟨hr, rfl⟩

end Partitioner

namespace Receiving
open Partitioner

variable {s s' : Receiving}

/-! ## The messages -/

/-- What is written and not handed out. -/
def unread (s : Receiving) : List Char :=
  s.partitioner.partialLine ++ s.partitioner.pending ++ s.process.pipe

/-- Whatever will be written, its lines are the messages that are received and
those of what is not handed out. At the end nothing is left. -/
structure Framed (s : Receiving) : Prop where
  partialLine : ∀ c ∈ s.partitioner.partialLine, isNewline c = false
  translated : '\r' ∉ s.partitioner.pending
  closed : s.process.exited = true → s.process.closed = true
  lines : s.partitioner.status ≠ .receiveDone → ∀ future,
    pieces isNewline (s.written ++ future) =
      nonblank s.received ++ pieces isNewline (s.unread ++ future)
  ended : s.partitioner.status = .receiveDone →
    pieces isNewline s.written = nonblank s.received ∧ s.process.closed = true

theorem framed_start : Framed start where
  partialLine := fun _ h => absurd h List.not_mem_nil
  translated := List.not_mem_nil
  closed := nofun
  lines _ _ := rfl
  ended := nofun

/-- The buffer and the pipe are as they were. -/
theorem Framed.congr (h : s.Framed) (hq : s'.partitioner.partialLine = s.partitioner.partialLine ∧
      s'.partitioner.buffer = s.partitioner.buffer ∧
      s'.partitioner.bufferHead = s.partitioner.bufferHead ∧
      (s'.partitioner.status = .receiveDone ↔ s.partitioner.status = .receiveDone))
    (hp : s'.process.pipe = s.process.pipe) (hw : s'.written = s.written)
    (hr : s'.received = s.received)
    (hc : s.process.closed = true → s'.process.closed = true)
    (he : s'.process.exited = true → s'.process.closed = true) : s'.Framed := by
  obtain ⟨hpl, hb, hh, hst⟩ := hq
  have hpending : s'.partitioner.pending = s.partitioner.pending := by
    unfold pending
    rw [hb, hh]
  have hunread : s'.unread = s.unread := by
    unfold unread
    rw [hpl, hpending, hp]
  refine ⟨hpl ▸ h.partialLine, hpending ▸ h.translated, he, fun hs future => ?_, fun hs => ?_⟩
  · rw [hw, hr, hunread]
    exact h.lines (fun hf => hs (hst.2 hf)) future
  · rw [hw, hr]
    obtain ⟨hl, hcl⟩ := h.ended (hst.1 hs)
    exact ⟨hl, hc hcl⟩

theorem Framed.write (h : s.Framed) (cs : List Char) (hc : s.process.closed = false) :
    Framed { s with
      process := { s.process with pipe := s.process.pipe ++ cs }, written := s.written ++ cs } := by
  refine ⟨h.partialLine, h.translated, h.closed, fun hs future => ?_, fun hs => ?_⟩
  · show pieces _ (s.written ++ cs ++ future) = nonblank s.received ++
      pieces _ (s.partitioner.partialLine ++ s.partitioner.pending ++ (s.process.pipe ++ cs) ++ future)
    have hlines := h.lines hs (cs ++ future)
    unfold unread at hlines
    simp only [List.append_assoc] at hlines ⊢
    exact hlines
  · rw [(h.ended hs).2] at hc
    cases hc

/-- `nextLine` on a buffer that is not empty-handed. -/
theorem Framed.nextLine (h : s.Framed) (hs : s.partitioner.status ≠ .receiveDone) {b : List Char}
    (hb : s.partitioner.buffer = some b) (f : Partitioner → Option Nat) (cnt : Nat) :
    Framed (match s.partitioner.nextLine with
      | (none, q) => { s with partitioner := q, messages := f q }
      | (some msg, q) =>
        { s with partitioner := q, messages := some (cnt + 1), received := s.received ++ [msg] }) := by
  have hno : ∀ w : List Char, '\n' ∉ w → (∀ c ∈ w, c ∈ s.partitioner.pending) →
      ∀ c ∈ s.partitioner.partialLine ++ w, isNewline c = false := by
    intro w hw hsub c hc
    rcases List.mem_append.1 hc with hc | hc
    · exact h.partialLine c hc
    · unfold isNewline
      rw [Bool.or_eq_false_iff, beq_eq_false_iff_ne, beq_eq_false_iff_ne]
      constructor
      · rintro rfl
        exact hw hc
      · rintro rfl
        exact h.translated (hsub _ hc)
  rcases nextLine_spec hb with ⟨w, q, he, hp, hw, hpl, hqb, hst⟩ | ⟨q, he, hw, hpl, hqb, hst⟩
  · rw [he]
    have hfree := hno w hw fun c hc => by
      rw [hp]
      exact List.mem_append_left _ hc
    refine ⟨fun c hc => ?_, fun hc => h.translated ?_, h.closed, fun hq future => ?_, fun hq => ?_⟩
    · rw [show _ = ([] : List Char) from hpl] at hc
      cases hc
    · rw [hp]
      exact List.mem_append_right _ (List.mem_cons_of_mem _ hc)
    · have hlines := h.lines hs future
      unfold unread at hlines ⊢
      simp only
      rw [hp] at hlines
      rw [hlines, hpl, nonblank_append, ← pieces_of_none hfree]
      simp only [List.append_assoc, List.cons_append, List.nil_append]
      rw [← List.append_assoc, pieces_append _ _ isNewline_lf]
    · exact absurd (hst.symm.trans hq) hs
  · rw [he]
    refine ⟨fun c hc => ?_, ?_, h.closed, fun hq future => ?_, fun hq => ?_⟩
    · rw [show _ = s.partitioner.partialLine ++ s.partitioner.pending from hpl] at hc
      exact hno _ hw (fun _ h => h) c hc
    · show '\r' ∉ q.pending
      rw [pending_none hqb]
      exact List.not_mem_nil
    · have hlines := h.lines hs future
      unfold unread at hlines ⊢
      simp only
      rw [hpl, pending_none hqb, List.append_nil]
      exact hlines
    · exact absurd (hst.symm.trans hq) hs

/-- What is read goes from the pipe into the buffer, translated. -/
theorem Framed.fill (h : s.Framed) (hs : s.partitioner.status ≠ .receiveDone)
    (hb : s.partitioner.buffer = none) {q : Partitioner} {cs rest : List Char}
    (hp : s.process.pipe = cs ++ rest) (hpl : q.partialLine = s.partitioner.partialLine)
    (hq : q.buffer = some (universal cs)) (hh : q.bufferHead = 0) (hst : q.status ≠ .receiveDone) :
    Framed { s with process := { s.process with pipe := rest }, partitioner := q } := by
  have hpending : q.pending = universal cs := by
    unfold pending
    rw [hq, hh]
    rfl
  refine ⟨hpl ▸ h.partialLine, ?_, h.closed, fun _ future => ?_, fun hf => absurd hf hst⟩
  · show '\r' ∉ q.pending
    rw [hpending]
    exact (universal_spec cs).1
  · have hlines := h.lines hs future
    unfold unread at hlines ⊢
    rw [pending_none hb, hp, List.append_nil] at hlines
    rw [hlines]
    show _ = _ ++ pieces _ (q.partialLine ++ q.pending ++ rest ++ future)
    rw [hpl, hpending, List.append_assoc _ rest, pieces_universal]
    simp only [List.append_assoc]

/-- A read fills the buffer, or finds nothing, or ends the output. -/
theorem Framed.read (h : s.Framed) {cnt : Nat} {data : Option (List Char)} {p : Process}
    (hs : s.partitioner.status ≠ .receiveDone) (hb : s.partitioner.buffer = none)
    (hr : s.process.Reads data p) : (s.call cnt data p).Framed := by
  unfold call receiveMessage
  rw [if_pos hb]
  cases hr with
  | timeout _ _ =>
    unfold readFromProcess
    simp only
    rw [if_neg hs]
    exact h.congr ⟨rfl, rfl, rfl, .rfl⟩ rfl rfl rfl (fun hc => hc) h.closed
  | @data cs rest hne hp =>
    unfold readFromProcess
    simp only
    rw [if_neg ((universal_spec cs).2.1 hne)]
    have hfill := h.fill (q := { s.partitioner with buffer := some (universal cs), bufferHead := 0 })
      hs hb hp rfl rfl rfl hs
    exact hfill.nextLine hs rfl limitedDone cnt
  | eof hp hc =>
    unfold readFromProcess
    simp only [universal, if_true]
    obtain ⟨hpl, hcb, -, hst⟩ := checkRunning_same (s := s.partitioner) s.process.exited
    have hq := fun hf => hs (hst.1 hf)
    by_cases hrun : (s.partitioner.checkRunning s.process.exited).status = .running
    · -- the process has closed the pipe and not exited
      have hp' : s.process.pipe = [] ++ s.process.pipe := rfl
      have hfill := h.fill
        (q := { s.partitioner.checkRunning s.process.exited with buffer := some [], bufferHead := 0 })
        hs hb hp' hpl rfl rfl hq
      rw [if_pos hrun]
      exact hfill.nextLine hq rfl limitedDone cnt
    · rw [if_neg hrun]
      simp only [if_true]
      refine ⟨fun c hc' => ?_, ?_, h.closed, fun hf => absurd rfl hf, fun _ => ⟨?_, hc⟩⟩
      · rw [show _ = s.partitioner.partialLine from hpl] at hc'
        exact h.partialLine c hc'
      · have hq : ({ s.partitioner.checkRunning s.process.exited with status := .receiveDone } :
            Partitioner).pending = [] := pending_none (hcb.trans hb)
        exact hq ▸ List.not_mem_nil
      · have hlines := h.lines hs []
        unfold unread at hlines
        rw [pending_none hb, hp, List.append_nil, List.append_nil, List.append_nil, List.append_nil,
          pieces_of_none h.partialLine, ← nonblank_append] at hlines
        rw [hlines]
        show nonblank (s.received ++ [s.partitioner.partialLine]) =
          nonblank (s.received ++ [(s.partitioner.checkRunning s.process.exited).partialLine])
        rw [hpl]

theorem framed_inductive : receiving.Inductive Framed := by
  constructor
  · intro s hs
    rw [show s = start from hs]
    exact framed_start
  · intro s l s' h hs
    cases hs with
    | write cs hc => exact h.write cs hc
    | close => exact h.congr ⟨rfl, rfl, rfl, .rfl⟩ rfl rfl rfl (fun _ => rfl) fun _ => rfl
    | exit => exact h.congr ⟨rfl, rfl, rfl, .rfl⟩ rfl rfl rfl (fun _ => rfl) fun _ => rfl
    | poll => exact h.congr (checkRunning_same _) rfl rfl rfl (fun hc => hc) h.closed
    | enter _ _ => exact h.congr (checkRunning_same _) rfl rfl rfl (fun hc => hc) h.closed
    | read _ _ hs hb hr => exact h.read hs hb hr
    | @buffered cnt _ _ hs hb =>
      obtain ⟨b, hb'⟩ := Option.ne_none_iff_exists'.1 hb
      unfold call receiveMessage
      rw [if_neg hb]
      exact h.nextLine hs hb' limitedDone cnt
    | leave _ _ => exact h.congr ⟨rfl, rfl, rfl, .rfl⟩ rfl rfl rfl (fun hc => hc) h.closed

/-! ## The end of the output -/

/-- How many calls there may still be when no more is written. -/
def work (s : Receiving) : Nat :=
  if s.partitioner.status = .receiveDone then 0
  else 3 * s.process.pipe.length +
    (if s.partitioner.buffer = none then 0 else 2 * s.partitioner.pending.length + 1) + 1

theorem nextLine_work (hs : s.partitioner.status ≠ .receiveDone) {b : List Char}
    (hb : s.partitioner.buffer = some b) (f : Partitioner → Option Nat) (cnt : Nat) :
    work (match s.partitioner.nextLine with
      | (none, q) => { s with partitioner := q, messages := f q }
      | (some msg, q) =>
        { s with partitioner := q, messages := some (cnt + 1), received := s.received ++ [msg] }) <
      s.work := by
  have hsome : s.partitioner.buffer ≠ none := by
    rw [hb]
    exact Option.some_ne_none b
  rcases nextLine_spec hb with ⟨w, q, he, hp, -, -, hqb, hst⟩ | ⟨q, he, -, -, hqb, hst⟩
  · have hlen := congrArg List.length hp
    rw [List.length_append, List.length_cons] at hlen
    have hq : q.buffer ≠ none := by
      rw [hqb]
      exact Option.some_ne_none b
    rw [he]
    unfold work
    rw [if_neg hs, if_neg (hst ▸ hs), if_neg hsome, if_neg hq]
    show 3 * s.process.pipe.length + (2 * q.pending.length + 1) + 1 < _
    omega
  · rw [he]
    unfold work
    rw [if_neg hs, if_neg (hst ▸ hs), if_neg hsome, if_pos hqb]
    show 3 * s.process.pipe.length + 0 + 1 < _
    omega

/-- A call takes something away, or is the last one. -/
theorem read_work {cnt : Nat} {data : Option (List Char)} {p : Process}
    (hs : s.partitioner.status ≠ .receiveDone) (hb : s.partitioner.buffer = none)
    (hr : s.process.Reads data p) (hc : s.process.closed = true) (he : s.process.exited = true) :
    (s.call cnt data p).work < s.work := by
  unfold call receiveMessage
  rw [if_pos hb]
  cases hr with
  | timeout _ hopen =>
    rw [hc] at hopen
    cases hopen
  | @data cs rest hne hp =>
    obtain ⟨-, hune, hlen⟩ := universal_spec cs
    unfold readFromProcess
    simp only
    rw [if_neg (hune hne)]
    let s₁ : Receiving := { s with
      process := { s.process with pipe := rest }
      partitioner := { s.partitioner with buffer := some (universal cs), bufferHead := 0 } }
    have hnext := nextLine_work (s := s₁) hs rfl limitedDone cnt
    have hpos := List.length_pos_iff.2 hne
    have hfirst : s₁.work ≤ s.work := by
      unfold work
      rw [if_neg hs, if_neg hs, if_pos hb, if_neg (Option.some_ne_none _), hp, List.length_append]
      show 3 * rest.length + (2 * (universal cs).length + 1) + 1 ≤ _
      omega
    exact hnext.trans_le hfirst
  | eof _ _ =>
    have hrun : (s.partitioner.checkRunning s.process.exited).status ≠ .running := by
      rw [he]
      exact checkRunning_exited
    unfold readFromProcess
    simp only [universal, if_true]
    rw [if_neg hrun]
    simp only [if_true]
    unfold work
    rw [if_pos rfl, if_neg hs]
    exact Nat.succ_pos _

theorem call_process (cnt : Nat) (data : Option (List Char)) (p : Process) :
    (s.call cnt data p).process = p := by
  unfold call
  split <;> rfl

/-- No step adds to the work when the process has exited, and every call does
some of it. -/
theorem step_work {l : Label} (h : s.Framed) (he : s.process.exited = true) (hs : Step s l s') :
    s'.process.exited = true ∧ s'.work + (if l = .call then 1 else 0) ≤ s.work := by
  have hc := h.closed he
  have same : ∀ {q : Partitioner}, q.buffer = s.partitioner.buffer → q.pending = s.partitioner.pending →
      (q.status = .receiveDone ↔ s.partitioner.status = .receiveDone) → ∀ m,
      work { s with partitioner := q, messages := m } = s.work := by
    intro q hb hp hst m
    unfold work
    simp only [hb, hp, hst]
  have running : ∀ m, work { s with
      partitioner := s.partitioner.checkRunning s.process.exited, messages := m } = s.work := by
    intro m
    obtain ⟨-, hb, hh, hst⟩ := checkRunning_same (s := s.partitioner) s.process.exited
    refine same hb ?_ hst m
    unfold pending
    rw [hb, hh]
  cases hs with
  | write cs hopen =>
    rw [hc] at hopen
    cases hopen
  | close => exact ⟨he, Nat.le_refl _⟩
  | exit => exact ⟨rfl, Nat.le_refl _⟩
  | poll => exact ⟨he, (running s.messages).le⟩
  | enter _ _ => exact ⟨he, (running (some 0)).le⟩
  | leave _ _ => exact ⟨he, Nat.le_refl _⟩
  | @read cnt data p _ _ hs hb hr =>
    refine ⟨?_, read_work hs hb hr hc he⟩
    rw [call_process]
    cases hr <;> exact he
  | @buffered cnt _ _ hs hb =>
    rw [call_process]
    refine ⟨he, ?_⟩
    obtain ⟨b, hb'⟩ := Option.ne_none_iff_exists'.1 hb
    unfold call receiveMessage
    rw [if_neg hb]
    exact nextLine_work hs hb' limitedDone cnt

theorem run_work {ls : List Label} (hrun : receiving.Run s ls s') (h : s.Framed)
    (he : s.process.exited = true) : ls.count .call ≤ s.work := by
  induction hrun with
  | nil _ => exact Nat.zero_le _
  | @cons s₁ s₂ _ l ls hs _ ih =>
    obtain ⟨he', hle⟩ := step_work h he hs
    have hrest := ih (framed_inductive.step _ _ _ h hs) he'
    rw [List.count_cons]
    by_cases hl : l = .call
    · rw [if_pos hl] at hle
      rw [if_pos (beq_iff_eq.2 hl)]
      omega
    · rw [if_neg hl] at hle
      rw [if_neg (fun hf => hl (beq_iff_eq.1 hf))]
      omega

/-- There is something to read when the process has exited, if only the end. -/
theorem call_enabled (h : s.Framed) (he : s.process.exited = true) {cnt : Nat}
    (hm : s.messages = some cnt) (hcnt : cnt < 32) (hs : s.partitioner.status ≠ .receiveDone) :
    ∃ s', Step s .call s' := by
  by_cases hb : s.partitioner.buffer = none
  · by_cases hp : s.process.pipe = []
    · exact ⟨_, .read hm hcnt hs hb (.eof hp (h.closed he))⟩
    · exact ⟨_, .read hm hcnt hs hb (.data hp (List.append_nil _).symm)⟩
  · exact ⟨_, .buffered hm hcnt hs hb⟩

/-- The messages that have been received are, with the lines of what is not
handed out, the lines of all that has been written; when the output has ended
they are all of them. What is kept behind the last line is no line. -/
theorem received_lines {s : Receiving} (hr : receiving.Reachable s) :
    (s.partitioner.status ≠ .receiveDone →
      nonblank s.received ++ pieces isNewline s.unread = pieces isNewline s.written ∧
        ∀ c ∈ s.partitioner.partialLine, isNewline c = false) ∧
      (s.partitioner.status = .receiveDone →
        nonblank s.received = pieces isNewline s.written ∧ s.process.closed = true) := by
  have h := framed_inductive.reachable hr
  refine ⟨fun hs => ⟨?_, h.partialLine⟩, fun hs => ?_⟩
  · have hlines := h.lines hs []
    rw [List.append_nil, List.append_nil] at hlines
    exact hlines.symm
  · exact ⟨(h.ended hs).1.symm, (h.ended hs).2⟩

/-- A process that has exited is read to the end of its output: there is always
a call to be made in the loops, and there are finitely many. -/
theorem read_to_end {s : Receiving} (hr : receiving.Reachable s) (he : s.process.exited = true) :
    (∀ ls s', receiving.Run s ls s' → ls.count .call ≤ s.work) ∧
      ∀ cnt, s.messages = some cnt → cnt < 32 → s.partitioner.status ≠ .receiveDone →
        ∃ s', Step s .call s' := by
  have h := framed_inductive.reachable hr
  exact ⟨fun ls s' hrun => run_work hrun h he, fun cnt hm hcnt hs => call_enabled h he hm hcnt hs⟩

end Receiving

/-- **The lines arrive.** However the writes of the two processes are cut into
reads, and however the loops and the polls interleave: the messages that the
coordinator has received are the lines the partitioner has written, in their
order, up to those in the parts that are still to be handed out; once the output
has ended they are all its lines, with the last one, and the end is reached after
the partitioner has exited. The lines the partitioner has parsed are the first
complete lines of what it has read, and all of them when
`communicate_with_coordinator` returns. -/
theorem line_framing {s : Receiving} {i : Input} (hs : receiving.Reachable s)
    (hi : input.Reachable i) :
    (s.partitioner.status ≠ .receiveDone →
      nonblank s.received ++ pieces isNewline s.unread = pieces isNewline s.written ∧
        ∀ c ∈ s.partitioner.partialLine, isNewline c = false) ∧
    (s.partitioner.status = .receiveDone →
      nonblank s.received = pieces isNewline s.written ∧ s.process.closed = true) ∧
    (s.process.exited = true →
      (∀ ls s', receiving.Run s ls s' → ls.count .call ≤ s.work) ∧
        ∀ cnt, s.messages = some cnt → cnt < 32 → s.partitioner.status ≠ .receiveDone →
          ∃ s', Receiving.Step s .call s') ∧
    i.written = i.taken ++ i.pipe ∧ i.parsed <+: complete (· == '\n') i.taken ∧
      (i.inside = false → i.parsed = complete (· == '\n') i.taken) := by
  obtain ⟨hrunning, hended⟩ := Receiving.received_lines hs
  exact ⟨hrunning, hended, Receiving.read_to_end hs, Input.lines_parsed hi⟩

/-- A line and a part of one, both received. -/
def twoLines : Receiving :=
  ⟨⟨[], true, true⟩, ⟨.receiveDone, ['b'], none, 2⟩, some 1, ['a', '\n', 'b'], [['a'], ['b']]⟩

theorem twoLines_reachable : receiving.Reachable twoLines := by
  have written : receiving.Reachable _ := .step (.init rfl) (.write ['a', '\n', 'b'] rfl)
  have entered : receiving.Reachable _ := written.step (.enter rfl (by decide))
  have first : receiving.Reachable _ := entered.step
    (.read rfl (by decide) (by decide) rfl (@Process.Reads.data _ ['a', '\n', 'b'] [] (by decide) rfl))
  have kept : receiving.Reachable _ := first.step
    (.buffered rfl (by decide) (by decide) (by decide))
  have again : receiving.Reachable _ := (kept.step .exit).step (.enter rfl (by decide))
  exact again.step (.read rfl (by decide) (by decide) rfl (.eof rfl rfl))

/-- A line of the coordinator, read in two parts. -/
def oneLine : Input := ⟨[], ⟨['\n'], 1, 1, []⟩, true, ['c', '\n'], ['c', '\n'], [['c']]⟩

theorem oneLine_reachable : input.Reachable oneLine := by
  have written : input.Reachable _ := .step (.init rfl) (.write ['c', '\n'])
  have first : input.Reachable _ := (written.step (.enter rfl)).step
    (@Input.Step.readLine _ ['c'] ['\n'] rfl rfl (by decide))
  exact (first.step (.enter rfl)).step (@Input.Step.readLine _ ['\n'] [] rfl rfl (by decide))

theorem line_framing_two :
    nonblank twoLines.received = pieces isNewline ['a', '\n', 'b'] ∧
      [['c']] <+: complete (· == '\n') ['c', '\n'] := by
  obtain ⟨-, hended, -, -, hprefix, -⟩ := line_framing twoLines_reachable oneLine_reachable
  exact ⟨(hended rfl).1, hprefix⟩

end AriParti.L3
