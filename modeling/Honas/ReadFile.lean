/-
  The line reader (`src/read_file.c`).

  The file comes in chunks of any sizes into a buffer of 16384 bytes; the lines that end
  in the buffer are handed over where they are, and what follows them is moved to the
  start of the buffer.

  * `readFile` is the code for a file that is not compressed; the handler may end the
    program, and may write to the line that it gets;
  * `readLoop_eq`: whatever the chunks, the lines of the file are handed over;
  * `readFile_lines_iff`: this is what is promised for every file with fewer than
    `2 ^ 31` lines to hand over, as the number of a line is an `int`.
-/
import Honas.Lib.Bits
import Honas.Lib.Stopping

namespace Honas

open Bits Stopping

/-! ## The code -/

/-- `MAX_FILE_LINE_LENGTH`. -/
def MAX_FILE_LINE_LENGTH : ℕ := 16384

/-- `'\n'`. -/
def newline : Byte := 0x0a#8

/-- `n++` for an `int` that is not negative. -/
def incrementInt {ε : Type} (n : ℕ) : Except (Stopped ε) ℕ :=
  if n + 1 < 2 ^ 31 then .ok (n + 1) else .error .undefined

/-- `parse_line_t`: what is done with a line, and what is left in its place.  It gets the
    line number, the line and its length. -/
structure ParseLine (σ ε : Type) where
  call : ℕ → List Byte → ℕ → σ → Except (Stopped ε) σ
  leave : ℕ → (line : List Byte) → σ → Vector Byte line.length

/-- How a `read()` comes out: with this many bytes (as far as they are there, and there is
    room for them), with an error, or with another negative value. -/
inductive ReadCall where
  | bytes (count : ℕ)
  | error
  | invalid

/-- A file that was opened: its content, and how each `read()` comes out. -/
structure OpenFile where
  content : List Byte
  reads : ℕ → ReadCall

/-- `read()`: one byte at least, unless there is none. -/
def readChunk (count space : ℕ) (rest : List Byte) : List Byte := rest.take (max 1 (min count space))

/-- `memchr`: the index of the byte. -/
def memchr (s : List Byte) (c : Byte) : Option ℕ := s.findIdx? (· = c)

/-- The variables of `read_file`: the used part of the buffer, and the line number; with
    them the state of the handler. -/
structure LineBuffer (σ : Type) where
  buf : List Byte
  lineno : ℕ
  ptr : σ

variable {σ ε : Type} (parseLine : ParseLine σ ε)

/-- Handing over the `j` bytes from `i`, with a terminator behind them. -/
def handOver (b : LineBuffer σ) (i j : ℕ) : Except (Stopped ε) (LineBuffer σ) := do
  let lineno ← incrementInt b.lineno
  let line := (b.buf.drop i).take j
  let ptr ← parseLine.call lineno line j b.ptr
  .ok ⟨b.buf.take i ++ (parseLine.leave lineno line b.ptr).toList ++ 0 :: b.buf.drop (i + j + 1),
    lineno, ptr⟩

/-- The inner loop: more full lines from `i` on. -/
def moreLines : ℕ → LineBuffer σ → ℕ → Except (Stopped ε) (LineBuffer σ × ℕ)
  | 0, _, _ => .error .running
  | fuel + 1, b, i =>
    match memchr (b.buf.drop i) newline with
    | none => .ok (b, i)
    | some j => do
      let b ← handOver parseLine b i j
      moreLines fuel b (i + j + 1)

/-- The outer loop, with what is left of the file and the number of `read()`s so far. -/
def readLoop (reads : ℕ → ReadCall) :
    ℕ → List Byte → ℕ → LineBuffer σ → Except (Stopped ε) (σ × ℤ)
  | 0, _, _, _ => .error .running
  | fuel + 1, rest, calls, b =>
    if b.buf.length < MAX_FILE_LINE_LENGTH then
      match reads calls with
      | .error => .ok (b.ptr, -1)
      | .invalid => .ok (b.ptr, -2)
      | .bytes count =>
        let chunk := readChunk count (MAX_FILE_LINE_LENGTH - b.buf.length) rest
        let rest := rest.drop chunk.length
        let b := { b with buf := b.buf ++ chunk }
        if b.buf.length = 0 then .ok (b.ptr, 0)
        else
          match memchr b.buf newline with
          | none =>
            if chunk.length = 0 then .ok (b.ptr, -3) else readLoop reads fuel rest (calls + 1) b
          | some i => do
            let b ← handOver parseLine b 0 i
            let (b, i) ← moreLines parseLine (b.buf.length + 1) b (i + 1)
            readLoop reads fuel rest (calls + 1) { b with buf := b.buf.drop i }
    else .ok (b.ptr, -4)

/-- `read_file`, for a file that is not compressed: what the handler made of its state,
    and the value returned. -/
def readFile (file : Option OpenFile) (ptr : σ) : Except (Stopped ε) (σ × ℤ) :=
  match file with
  | none => .ok (ptr, -1)
  | some f => readLoop parseLine f.reads (f.content.length + 1) f.content 0 ⟨[], 0, ptr⟩

/-! ## The lines of a file -/

/-- The lines that end. -/
def endedLines (text : List Byte) : List (List Byte) := (text.splitOn newline).dropLast

/-- The start of a line behind them. -/
def openLine (text : List Byte) : List Byte := (text.splitOn newline).getLastD []

/-- The lines to hand over: those that end, up to the first that is too long. -/
def deliveredLines (content : List Byte) : List (List Byte) :=
  (endedLines content).takeWhile (·.length < MAX_FILE_LINE_LENGTH)

/-- The value to return. -/
def readFileResult (content : List Byte) : ℤ :=
  if ∃ line ∈ content.splitOn newline, MAX_FILE_LINE_LENGTH ≤ line.length then -4
  else if content = [] ∨ content.getLast? = some newline then 0
  else -3

/-- Calling the handler for each of the lines, the first of which has this number. -/
def callLines (lineno : ℕ) (ptr : σ) : List (List Byte) → Except (Stopped ε) σ
  | [] => .ok ptr
  | line :: lines => do
    let ptr ← parseLine.call lineno line line.length ptr
    callLines (lineno + 1) ptr lines

/-- **What is promised for a file**: the lines are handed over, whatever the chunks. -/
def ReadsLines (content : List Byte) : Prop :=
  ∀ (σ ε : Type) (parseLine : ParseLine σ ε) (sizes : ℕ → ℕ) (ptr : σ),
    readFile parseLine (some ⟨content, fun k => .bytes (sizes k)⟩) ptr = do
      let ptr ← callLines parseLine 1 ptr (deliveredLines content)
      .ok (ptr, readFileResult content)

/-! ### One line -/

theorem memchr_eq_none {s : List Byte} {c : Byte} : memchr s c = none ↔ c ∉ s := by
  rw [memchr, List.findIdx?_eq_none_iff]
  simp only [decide_eq_false_iff_not]
  exact ⟨fun h hc => h c hc rfl, fun h x hx hxc => h (hxc ▸ hx)⟩

theorem memchr_eq_some {s : List Byte} {c : Byte} {j : ℕ} (h : memchr s c = some j) :
    ∃ a b, s = a ++ c :: b ∧ a.length = j ∧ c ∉ a := by
  obtain ⟨hj, hc, hbefore⟩ := List.findIdx?_eq_some_iff_getElem.1 h
  have hcj : s[j] = c := by simpa using hc
  refine ⟨s.take j, s.drop (j + 1), ?_, List.length_take_of_le hj.le, fun hmem => ?_⟩
  · rw [← hcj, List.getElem_cons_drop, List.take_append_drop]
  · obtain ⟨k, hk, hkc⟩ := List.mem_take_iff_getElem.1 hmem
    exact hbefore k (by omega) (by simpa using hkc)

/-- **Induction over the lines** of a text. -/
theorem lineInduction {motive : List Byte → Prop} (rest : ∀ text, newline ∉ text → motive text)
    (line : ∀ line text, newline ∉ line → motive text → motive (line ++ newline :: text))
    (text : List Byte) : motive text := by
  induction hlen : text.length using Nat.strongRecOn generalizing text with
  | _ len ih =>
    cases hm : memchr text newline with
    | none => exact rest text (memchr_eq_none.1 hm)
    | some j =>
      obtain ⟨l, text', rfl, -, hl⟩ := memchr_eq_some hm
      refine line l text' hl (ih text'.length ?_ text' rfl)
      rw [← hlen, List.length_append, List.length_cons]
      omega

theorem endedLines_rest {text : List Byte} (h : newline ∉ text) : endedLines text = [] := by
  rw [endedLines, List.splitOn_eq_singleton h]
  rfl

theorem openLine_rest {text : List Byte} (h : newline ∉ text) : openLine text = text := by
  rw [openLine, List.splitOn_eq_singleton h]
  rfl

theorem endedLines_line {line : List Byte} (h : newline ∉ line) (text : List Byte) :
    endedLines (line ++ newline :: text) = line :: endedLines text := by
  rw [endedLines, List.splitOn_append_cons_self_of_not_mem h,
    List.dropLast_cons_of_ne_nil (List.splitOn_ne_nil _ _), endedLines]

theorem openLine_line {line : List Byte} (h : newline ∉ line) (text : List Byte) :
    openLine (line ++ newline :: text) = openLine text := by
  rw [openLine, List.splitOn_append_cons_self_of_not_mem h, openLine]
  cases hs : text.splitOn newline with
  | nil => exact absurd hs (List.splitOn_ne_nil _ _)
  | cons p ps => rfl

theorem newline_not_mem_openLine (text : List Byte) : newline ∉ openLine text := by
  induction text using lineInduction with
  | rest text h => rwa [openLine_rest h]
  | line line text h ih => rwa [openLine_line h]

theorem length_openLine_le (text : List Byte) : (openLine text).length ≤ text.length := by
  induction text using lineInduction with
  | rest text h => rw [openLine_rest h]
  | line line text h ih =>
    rw [openLine_line h, List.length_append, List.length_cons]
    omega

theorem deliveredLines_line {line text : List Byte} (hnl : newline ∉ line)
    (hlen : line.length < MAX_FILE_LINE_LENGTH) :
    deliveredLines (line ++ newline :: text) = line :: deliveredLines text := by
  rw [deliveredLines, endedLines_line hnl, List.takeWhile_cons_of_pos (by simpa using hlen),
    deliveredLines]

theorem readFileResult_line {line text : List Byte} (hnl : newline ∉ line)
    (hlen : line.length < MAX_FILE_LINE_LENGTH) :
    readFileResult (line ++ newline :: text) = readFileResult text := by
  have hlong : (∃ l ∈ (line ++ newline :: text).splitOn newline, MAX_FILE_LINE_LENGTH ≤ l.length) ↔
      ∃ l ∈ text.splitOn newline, MAX_FILE_LINE_LENGTH ≤ l.length := by
    rw [List.splitOn_append_cons_self_of_not_mem hnl, List.exists_mem_cons_iff,
      or_iff_right (Nat.not_le.2 hlen)]
  have hend : (line ++ newline :: text = [] ∨
      (line ++ newline :: text).getLast? = some newline) ↔
      (text = [] ∨ text.getLast? = some newline) := by
    cases text <;> simp
  rw [readFileResult, readFileResult, if_congr hlong rfl (if_congr hend rfl rfl)]

/-- The first piece of a text that starts without a newline. -/
theorem exists_splitOn_append {a : List Byte} (hnl : newline ∉ a) (b : List Byte) :
    ∃ c pieces, (a ++ b).splitOn newline = (a ++ c) :: pieces := by
  cases hm : memchr b newline with
  | none =>
    have hb := memchr_eq_none.1 hm
    exact ⟨b, [], List.splitOn_eq_singleton fun h => (List.mem_append.1 h).elim hnl hb⟩
  | some j =>
    obtain ⟨c, d, rfl, -, hc⟩ := memchr_eq_some hm
    refine ⟨c, d.splitOn newline, ?_⟩
    rw [← List.append_assoc]
    exact List.splitOn_append_cons_self_of_not_mem
      (fun h => (List.mem_append.1 h).elim hnl hc) d

theorem deliveredLines_tooLong {a : List Byte} (hnl : newline ∉ a)
    (hlen : MAX_FILE_LINE_LENGTH ≤ a.length) (b : List Byte) : deliveredLines (a ++ b) = [] := by
  obtain ⟨c, pieces, h⟩ := exists_splitOn_append hnl b
  rw [deliveredLines, endedLines, h]
  cases pieces with
  | nil => rfl
  | cons p ps =>
    rw [List.dropLast_cons_of_ne_nil (List.cons_ne_nil p ps), List.takeWhile_cons_of_neg]
    rw [decide_eq_true_eq, List.length_append]
    omega

theorem readFileResult_tooLong {a : List Byte} (hnl : newline ∉ a)
    (hlen : MAX_FILE_LINE_LENGTH ≤ a.length) (b : List Byte) : readFileResult (a ++ b) = -4 := by
  obtain ⟨c, pieces, h⟩ := exists_splitOn_append hnl b
  rw [readFileResult, if_pos ⟨a ++ c, by simp [h], by rw [List.length_append]; omega⟩]

theorem readFileResult_rest {a : List Byte} (hnl : newline ∉ a)
    (hlen : a.length < MAX_FILE_LINE_LENGTH) : readFileResult a = if a = [] then 0 else -3 := by
  have hlong : ¬ ∃ l ∈ a.splitOn newline, MAX_FILE_LINE_LENGTH ≤ l.length := by
    rw [List.splitOn_eq_singleton hnl]
    simpa using hlen
  have hlast : a.getLast? ≠ some newline := fun h => hnl (List.mem_of_getLast? h)
  rw [readFileResult, if_neg hlong]
  simp only [hlast, or_false]

/-- The lines that end in the buffer are handed over, and those that follow. -/
theorem deliveredLines_append (text rest : List Byte) (h : text.length ≤ MAX_FILE_LINE_LENGTH) :
    deliveredLines (text ++ rest) = endedLines text ++ deliveredLines (openLine text ++ rest) := by
  induction text using lineInduction with
  | rest text hnl => rw [endedLines_rest hnl, openLine_rest hnl, List.nil_append]
  | line line text hnl ih =>
    rw [List.length_append, List.length_cons] at h
    rw [List.append_assoc, List.cons_append, deliveredLines_line hnl (by omega),
      endedLines_line hnl, openLine_line hnl, ih (by omega), List.cons_append]

theorem readFileResult_append (text rest : List Byte) (h : text.length ≤ MAX_FILE_LINE_LENGTH) :
    readFileResult (text ++ rest) = readFileResult (openLine text ++ rest) := by
  induction text using lineInduction with
  | rest text hnl => rw [openLine_rest hnl]
  | line line text hnl ih =>
    rw [List.length_append, List.length_cons] at h
    rw [List.append_assoc, List.cons_append, readFileResult_line hnl (by omega),
      openLine_line hnl, ih (by omega)]

/-! ### The lines of the buffer -/

/-- The handler is called for the lines, after `lineno` others. -/
def handLines (lineno : ℕ) (ptr : σ) : List (List Byte) → Except (Stopped ε) σ
  | [] => .ok ptr
  | line :: lines => do
    let lineno ← incrementInt lineno
    let ptr ← parseLine.call lineno line line.length ptr
    handLines lineno ptr lines

/-- The lines that end in `text` are handed over; what is open is kept. -/
def handText {β : Type} (next : LineBuffer σ → Except (Stopped ε) β) (lineno : ℕ) (ptr : σ)
    (text : List Byte) : Except (Stopped ε) β := do
  let ptr ← handLines parseLine lineno ptr (endedLines text)
  next ⟨openLine text, lineno + (endedLines text).length, ptr⟩

theorem incrementInt_eq {n : ℕ} (h : n + 1 < 2 ^ 31) :
    (incrementInt n : Except (Stopped ε) ℕ) = .ok (n + 1) :=
  if_pos h

theorem incrementInt_eq_undefined {n : ℕ} (h : ¬ n + 1 < 2 ^ 31) :
    (incrementInt n : Except (Stopped ε) ℕ) = .error .undefined :=
  if_neg h

/-- What follows an increment may use its value. -/
theorem incrementInt_bind_congr {β : Type} {n : ℕ} {f g : ℕ → Except (Stopped ε) β}
    (h : f (n + 1) = g (n + 1)) : incrementInt n >>= f = incrementInt n >>= g := by
  by_cases hn : n + 1 < 2 ^ 31
  · rw [incrementInt_eq hn]
    exact h
  · rw [incrementInt_eq_undefined hn]
    rfl

theorem handLines_append (more : List (List Byte)) : ∀ (lines : List (List Byte)) (lineno : ℕ)
    (ptr : σ), handLines parseLine lineno ptr (lines ++ more) = (do
      let ptr ← handLines parseLine lineno ptr lines
      handLines parseLine (lineno + lines.length) ptr more)
  | [], _, _ => rfl
  | line :: lines, lineno, ptr => by
    rw [List.cons_append, handLines, handLines, bind_assoc]
    refine incrementInt_bind_congr ?_
    rw [bind_assoc]
    refine bind_congr fun ptr => ?_
    rw [handLines_append more lines, List.length_cons, Nat.add_right_comm, Nat.add_assoc]

theorem handText_rest {β : Type} (next : LineBuffer σ → Except (Stopped ε) β) {text : List Byte}
    (h : newline ∉ text) (lineno : ℕ) (ptr : σ) :
    handText parseLine next lineno ptr text = next ⟨text, lineno, ptr⟩ := by
  rw [handText, endedLines_rest h, openLine_rest h]
  rfl

theorem handText_line {β : Type} (next : LineBuffer σ → Except (Stopped ε) β)
    {line : List Byte} (h : newline ∉ line) (text : List Byte) (lineno : ℕ) (ptr : σ) :
    handText parseLine next lineno ptr (line ++ newline :: text) = (do
      let lineno ← incrementInt lineno
      let ptr ← parseLine.call lineno line line.length ptr
      handText parseLine next lineno ptr text) := by
  rw [handText, endedLines_line h, openLine_line h, handLines, bind_assoc]
  refine incrementInt_bind_congr ?_
  rw [bind_assoc]
  refine bind_congr fun ptr => ?_
  rw [handText, List.length_cons, Nat.add_right_comm, Nat.add_assoc]

/-- Handing over a line leaves what follows it. -/
theorem handOver_eq {b : LineBuffer σ} {i : ℕ} {line text : List Byte}
    (h : b.buf.drop i = line ++ newline :: text) :
    ∃ buf : ℕ → List Byte, (∀ n, (buf n).drop (i + line.length + 1) = text) ∧
      handOver parseLine b i line.length = (do
        let lineno ← incrementInt b.lineno
        let ptr ← parseLine.call lineno line line.length b.ptr
        .ok ⟨buf lineno, lineno, ptr⟩) := by
  have hline : (b.buf.drop i).take line.length = line := by rw [h, List.take_left]
  have hrest : b.buf.drop (i + line.length + 1) = text := by
    rw [Nat.add_assoc, ← List.drop_drop, h, List.drop_append]
    simp
  have hi : i ≤ b.buf.length := by
    by_contra hlt
    rw [List.drop_eq_nil_of_le (by omega)] at h
    exact List.append_ne_nil_of_right_ne_nil line (List.cons_ne_nil newline text) h.symm
  refine ⟨fun n => b.buf.take i ++ (parseLine.leave n line b.ptr).toList ++ 0 :: text,
    fun n => ?_, ?_⟩
  · have hlen : (b.buf.take i ++ (parseLine.leave n line b.ptr).toList).length =
        i + line.length := by
      simp [hi]
    rw [← hlen, List.drop_length_add_append, List.drop_one, List.tail_cons]
  · rw [handOver, hline, hrest]

/-- A line is handed over, and then the text behind it. -/
theorem handOver_bind {β : Type} {next : LineBuffer σ → Except (Stopped ε) β}
    {after : LineBuffer σ → Except (Stopped ε) β} {b : LineBuffer σ} {i : ℕ}
    {line text : List Byte} (hnl : newline ∉ line) (h : b.buf.drop i = line ++ newline :: text)
    (hafter : ∀ b : LineBuffer σ, b.buf.drop (i + line.length + 1) = text →
      after b = handText parseLine next b.lineno b.ptr text) :
    (handOver parseLine b i line.length >>= after) =
      handText parseLine next b.lineno b.ptr (line ++ newline :: text) := by
  obtain ⟨buf, hbuf, hover⟩ := handOver_eq parseLine h
  rw [hover, handText_line parseLine next hnl]
  simp only [bind_assoc]
  exact bind_congr fun n => bind_congr fun ptr => hafter ⟨buf n, n, ptr⟩ (hbuf n)

/-- **The inner loop** hands over the lines of the buffer. -/
theorem moreLines_bind {β : Type} (next : LineBuffer σ → Except (Stopped ε) β) :
    ∀ (fuel : ℕ) (b : LineBuffer σ) (i : ℕ), (b.buf.drop i).length < fuel →
      (do
        let (b, i) ← moreLines parseLine fuel b i
        next { b with buf := b.buf.drop i }) =
      handText parseLine next b.lineno b.ptr (b.buf.drop i) := by
  intro fuel
  induction fuel with
  | zero => intro b i h; exact absurd h (Nat.not_lt_zero _)
  | succ fuel ih =>
    intro b i hfuel
    rw [moreLines]
    cases hm : memchr (b.buf.drop i) newline with
    | none => exact (handText_rest parseLine next (memchr_eq_none.1 hm) _ _).symm
    | some j =>
      obtain ⟨line, text, htext, rfl, hnl⟩ := memchr_eq_some hm
      rw [htext, List.length_append, List.length_cons] at hfuel
      rw [htext]
      dsimp only
      rw [bind_assoc]
      refine handOver_bind parseLine hnl htext fun b hb => ?_
      rw [ih b _ (by rw [hb]; omega), hb]

/-! ### The whole file -/

theorem readChunk_append (count space : ℕ) (rest : List Byte) :
    readChunk count space rest ++ rest.drop (readChunk count space rest).length = rest := by
  have h : rest.drop (readChunk count space rest).length =
      rest.drop (max 1 (min count space)) := by
    rw [readChunk, List.length_take]
    rcases Nat.le_total (max 1 (min count space)) rest.length with hle | hle
    · rw [Nat.min_eq_left hle]
    · rw [Nat.min_eq_right hle, List.drop_length, List.drop_eq_nil_of_le hle]
  rw [h, readChunk, List.take_append_drop]

theorem length_readChunk_le {count space : ℕ} (h : 0 < space) (rest : List Byte) :
    (readChunk count space rest).length ≤ space := by
  rw [readChunk, List.length_take]
  omega

/-- Before the end of the file something is read. -/
theorem length_readChunk_pos (count space : ℕ) {rest : List Byte} (h : rest ≠ []) :
    0 < (readChunk count space rest).length := by
  have := List.length_pos_of_ne_nil h
  rw [readChunk, List.length_take]
  omega

/-- **One round of the outer loop**: a chunk is taken, and the lines that end in the buffer
    are handed over. -/
theorem readLoop_chunk {reads : ℕ → ReadCall} {calls count : ℕ} (hread : reads calls = .bytes count)
    (fuel : ℕ) {rest : List Byte} (hrest : rest ≠ []) {buf : List Byte}
    (hroom : buf.length < MAX_FILE_LINE_LENGTH) :
    ∃ chunk more, chunk ++ more = rest ∧ more.length < rest.length ∧
      (buf ++ chunk).length ≤ MAX_FILE_LINE_LENGTH ∧
      ∀ (parseLine : ParseLine σ ε) (lineno : ℕ) (ptr : σ),
        readLoop parseLine reads (fuel + 1) rest calls ⟨buf, lineno, ptr⟩ =
          handText parseLine (readLoop parseLine reads fuel more (calls + 1)) lineno ptr
            (buf ++ chunk) := by
  have happ := readChunk_append count (MAX_FILE_LINE_LENGTH - buf.length) rest
  have hle := @length_readChunk_le count _ (Nat.sub_pos_of_lt hroom) rest
  have hpos := length_readChunk_pos count (MAX_FILE_LINE_LENGTH - buf.length) hrest
  generalize hchunk : readChunk count (MAX_FILE_LINE_LENGTH - buf.length) rest = chunk
    at happ hle hpos
  refine ⟨chunk, rest.drop chunk.length, happ, ?_, ?_, fun parseLine lineno ptr => ?_⟩
  · have := List.length_pos_of_ne_nil hrest
    rw [List.length_drop]; omega
  · rw [List.length_append]; omega
  · rw [readLoop, if_pos hroom, hread]
    dsimp only
    rw [hchunk, if_neg (by rw [List.length_append]; omega)]
    cases hm : memchr (buf ++ chunk) newline with
    | none =>
      rw [handText_rest parseLine _ (memchr_eq_none.1 hm)]
      exact if_neg hpos.ne'
    | some j =>
      obtain ⟨line, text, htext, rfl, hnl⟩ := memchr_eq_some hm
      rw [htext]
      refine handOver_bind parseLine (i := 0) hnl rfl fun b hb => ?_
      rw [Nat.zero_add] at hb
      refine (moreLines_bind parseLine _ _ b (line.length + 1) ?_).trans (by rw [hb])
      rw [List.length_drop]
      omega

/-- At the end of the file. -/
theorem readLoop_end {reads : ℕ → ReadCall} {calls count : ℕ} (hread : reads calls = .bytes count)
    (fuel : ℕ) {b : LineBuffer σ} (hnl : newline ∉ b.buf)
    (hlen : b.buf.length < MAX_FILE_LINE_LENGTH) :
    readLoop parseLine reads (fuel + 1) [] calls b = .ok (b.ptr, if b.buf = [] then 0 else -3) := by
  have hchunk : readChunk count (MAX_FILE_LINE_LENGTH - b.buf.length) [] = [] := List.take_nil
  rw [readLoop, if_pos hlen, hread]
  simp only [hchunk, List.append_nil, memchr_eq_none.2 hnl, List.length_nil, if_true]
  by_cases hb : b.buf = []
  · rw [if_pos (by rw [hb, List.length_nil]), if_pos hb]
  · rw [if_neg (by rwa [List.length_eq_zero_iff]), if_neg hb]

/-- Reading what is left of a file, `lineno` lines after its start. -/
def readText (lineno : ℕ) (ptr : σ) (text : List Byte) : Except (Stopped ε) (σ × ℤ) := do
  let ptr ← handLines parseLine lineno ptr (deliveredLines text)
  .ok (ptr, readFileResult text)

/-- A buffer that is handed over, and what is left behind it. -/
theorem handText_readText {next : LineBuffer σ → Except (Stopped ε) (σ × ℤ)} {text rest : List Byte}
    (h : text.length ≤ MAX_FILE_LINE_LENGTH)
    (hnext : ∀ lineno ptr, next ⟨openLine text, lineno, ptr⟩ =
      readText parseLine lineno ptr (openLine text ++ rest)) (lineno : ℕ) (ptr : σ) :
    handText parseLine next lineno ptr text = readText parseLine lineno ptr (text ++ rest) := by
  rw [handText, readText, deliveredLines_append text rest h, readFileResult_append text rest h,
    handLines_append, bind_assoc]
  exact bind_congr fun ptr => hnext _ ptr

/-- **The outer loop reads what is left**, whatever the chunks. -/
theorem readLoop_eq {reads : ℕ → ReadCall} {sizes : ℕ → ℕ} (hreads : ∀ k, reads k = .bytes (sizes k)) :
    ∀ (fuel : ℕ) (rest : List Byte) (calls : ℕ) (b : LineBuffer σ), rest.length < fuel →
      newline ∉ b.buf → b.buf.length ≤ MAX_FILE_LINE_LENGTH →
      readLoop parseLine reads fuel rest calls b =
        readText parseLine b.lineno b.ptr (b.buf ++ rest) := by
  intro fuel
  induction fuel with
  | zero => intro rest calls b h; exact absurd h (Nat.not_lt_zero _)
  | succ fuel ih =>
    intro rest calls b hfuel hnl hlen
    rcases hlen.lt_or_eq with hroom | hfull
    · by_cases hrest : rest = []
      · rw [hrest, List.append_nil, readLoop_end parseLine (hreads calls) fuel hnl hroom, readText,
          readFileResult_rest hnl hroom, deliveredLines, endedLines_rest hnl]
        rfl
      · obtain ⟨chunk, more, rfl, hmore, hlen', hround⟩ :=
          @readLoop_chunk σ ε reads calls _ (hreads calls) fuel _ hrest b.buf hroom
        rw [hround parseLine b.lineno b.ptr, ← List.append_assoc]
        refine handText_readText parseLine hlen' (fun lineno ptr => ?_) _ _
        exact ih more _ ⟨openLine (b.buf ++ chunk), lineno, ptr⟩ (by omega)
          (newline_not_mem_openLine _) ((length_openLine_le _).trans hlen')
    · -- the buffer is full, without a newline
      rw [readLoop, if_neg hfull.not_lt, readText, deliveredLines_tooLong hnl hfull.ge,
        readFileResult_tooLong hnl hfull.ge]
      rfl

/-- The whole file. -/
theorem readFile_eq (content : List Byte) (sizes : ℕ → ℕ) (ptr : σ) :
    readFile parseLine (some ⟨content, fun k => .bytes (sizes k)⟩) ptr =
      readText parseLine 0 ptr content :=
  readLoop_eq parseLine (fun _ => rfl) _ content 0 ⟨[], 0, ptr⟩ (Nat.lt_succ_self _) List.not_mem_nil
    (Nat.zero_le _)

/-! ### The line number -/

/-- The code counts as many lines as an `int` can. -/
theorem handLines_eq : ∀ (lines : List (List Byte)) (lineno : ℕ) (ptr : σ),
    lineno + lines.length < 2 ^ 31 →
      handLines parseLine lineno ptr lines = callLines parseLine (lineno + 1) ptr lines
  | [], _, _, _ => rfl
  | line :: lines, lineno, ptr, h => by
    rw [List.length_cons] at h
    rw [handLines, callLines, incrementInt_eq (by omega)]
    exact bind_congr fun ptr => handLines_eq lines (lineno + 1) ptr (by omega)

/-- A handler that does nothing. -/
def silent : ParseLine Unit Empty where
  call _ _ _ ptr := .ok ptr
  leave _ line _ := Vector.replicate line.length 0

theorem callLines_silent : ∀ (lines : List (List Byte)) (lineno : ℕ),
    callLines silent lineno () lines = .ok ()
  | [], _ => rfl
  | _ :: lines, lineno => callLines_silent lines (lineno + 1)

/-- With one line more the number overflows. -/
theorem handLines_silent : ∀ (lines : List (List Byte)) (lineno : ℕ), lineno < 2 ^ 31 →
    2 ^ 31 ≤ lineno + lines.length → handLines silent lineno () lines = .error .undefined
  | [], lineno, hlt, h => absurd h (Nat.not_le.2 hlt)
  | line :: lines, lineno, hlt, h => by
    rw [List.length_cons] at h
    rw [handLines]
    by_cases hn : lineno + 1 < 2 ^ 31
    · rw [incrementInt_eq hn]
      exact handLines_silent lines (lineno + 1) hn (by omega)
    · rw [incrementInt_eq_undefined hn]
      rfl

theorem readsLines_of_lt {content : List Byte} (h : (deliveredLines content).length < 2 ^ 31) :
    ReadsLines content := by
  intro σ ε parseLine sizes ptr
  rw [readFile_eq, readText, handLines_eq parseLine _ 0 ptr (by rwa [Nat.zero_add])]

theorem not_readsLines {content : List Byte} (h : 2 ^ 31 ≤ (deliveredLines content).length) :
    ¬ ReadsLines content := by
  intro hreads
  have hrun := hreads Unit Empty silent (fun _ => 1) ()
  rw [readFile_eq, readText, handLines_silent _ 0 (by norm_num) (by rwa [Nat.zero_add]),
    callLines_silent] at hrun
  cases hrun

/-- **The line reader reads every file with fewer than `2 ^ 31` lines**, and no other. -/
theorem readFile_lines_iff (content : List Byte) :
    ReadsLines content ↔ (deliveredLines content).length < 2 ^ 31 :=
  ⟨fun h => Nat.lt_of_not_le fun hle => not_readsLines hle h, readsLines_of_lt⟩

theorem deliveredLines_newlines : ∀ n : ℕ,
    deliveredLines (List.replicate n newline) = List.replicate n []
  | 0 => rfl
  | n + 1 => by
    rw [List.replicate_succ, List.replicate_succ, ← deliveredLines_newlines n]
    exact deliveredLines_line List.not_mem_nil (by decide)

/-- A file of `2 ^ 31` newlines. -/
theorem not_readsLines_newlines : ¬ ∀ content, ReadsLines content := by
  intro h
  refine not_readsLines ?_ (h (List.replicate (2 ^ 31) newline))
  rw [deliveredLines_newlines, List.length_replicate]

/-- Two lines, and a third that does not end. -/
example : deliveredLines [0x61, 0x0a, 0x0a, 0x62] = [[0x61], []] ∧
    readFileResult [0x61, 0x0a, 0x0a, 0x62] = -3 := by decide

/-! ## Handlers with an invariant -/

section
variable {parseLine} {parseLine' : ParseLine σ ε} {I : σ → Prop} {Q : ε → Prop}

theorem handLines_agree
    (hcall : ∀ lineno line ptr, I ptr → Agree I Q (parseLine.call lineno line line.length ptr)
      (parseLine'.call lineno line line.length ptr)) :
    ∀ (lines : List (List Byte)) (lineno : ℕ) (ptr : σ), lineno + lines.length < 2 ^ 31 → I ptr →
      Agree I Q (handLines parseLine lineno ptr lines) (handLines parseLine' lineno ptr lines)
  | [], _, _, _, hptr => .ok hptr
  | line :: lines, lineno, ptr, hlt, hptr => by
    rw [List.length_cons] at hlt
    rw [handLines, handLines, incrementInt_eq (by omega)]
    exact (hcall _ line ptr hptr).bind fun ptr hptr =>
      handLines_agree hcall lines (lineno + 1) ptr (by omega) hptr

/-- **Reading with a handler that keeps an invariant**, however the `read()`s come out. -/
theorem readLoop_agree
    (hcall : ∀ lineno line ptr, I ptr → Agree I Q (parseLine.call lineno line line.length ptr)
      (parseLine'.call lineno line line.length ptr)) (reads : ℕ → ReadCall) :
    ∀ (fuel : ℕ) (rest : List Byte) (calls : ℕ) (b : LineBuffer σ), rest.length < fuel →
      newline ∉ b.buf → b.buf.length ≤ MAX_FILE_LINE_LENGTH →
      b.lineno + (deliveredLines (b.buf ++ rest)).length < 2 ^ 31 → I b.ptr →
      Agree (fun r => I r.1) Q (readLoop parseLine reads fuel rest calls b)
        (readLoop parseLine' reads fuel rest calls b) := by
  intro fuel
  induction fuel with
  | zero => intro rest calls b h; exact absurd h (Nat.not_lt_zero _)
  | succ fuel ih =>
    intro rest calls b hfuel hnl hlen hlines hptr
    rcases hlen.lt_or_eq with hroom | hfull
    · cases hread : reads calls with
      | error =>
        rw [readLoop, readLoop, if_pos hroom, if_pos hroom, hread]
        exact .ok hptr
      | invalid =>
        rw [readLoop, readLoop, if_pos hroom, if_pos hroom, hread]
        exact .ok hptr
      | bytes count =>
        by_cases hrest : rest = []
        · rw [hrest, readLoop_end _ hread fuel hnl hroom, readLoop_end _ hread fuel hnl hroom]
          exact .ok hptr
        · obtain ⟨chunk, more, rfl, hmore, hlen', hround⟩ :=
            @readLoop_chunk σ ε reads calls count hread fuel rest hrest b.buf hroom
          rw [← List.append_assoc, deliveredLines_append _ _ hlen', List.length_append] at hlines
          rw [hround parseLine b.lineno b.ptr, hround parseLine' b.lineno b.ptr, handText, handText]
          refine (handLines_agree hcall _ _ _ (by omega) hptr).bind fun ptr hptr => ?_
          exact ih more _ ⟨openLine (b.buf ++ chunk), _, ptr⟩ (by omega)
            (newline_not_mem_openLine _) ((length_openLine_le _).trans hlen')
            (by dsimp only; omega) hptr
    · rw [readLoop, readLoop, if_neg hfull.not_lt, if_neg hfull.not_lt]
      exact .ok hptr

theorem readFile_agree
    (hcall : ∀ lineno line ptr, I ptr → Agree I Q (parseLine.call lineno line line.length ptr)
      (parseLine'.call lineno line line.length ptr)) {file : Option OpenFile}
    (hlines : ∀ f ∈ file, (deliveredLines f.content).length < 2 ^ 31) {ptr : σ} (hptr : I ptr) :
    Agree (fun r => I r.1) Q (readFile parseLine file ptr) (readFile parseLine' file ptr) := by
  cases file with
  | none => exact .ok hptr
  | some f =>
    exact readLoop_agree hcall f.reads _ f.content 0 ⟨[], 0, ptr⟩ (Nat.lt_succ_self _)
      List.not_mem_nil (Nat.zero_le _) (by simpa using hlines f rfl) hptr

end

end Honas
