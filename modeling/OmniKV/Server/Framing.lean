import OmniKV.Data.Bytes

/-!
# Lines of a TCP session

The cap on a line is checked on the buffer, which has everything that was read, before a line is
taken off. So a line within the cap is refused if too many bytes behind it come with the same read.
-/

namespace OmniKV.Tcp

open List

def maxTcpLine : ℕ := 12 * 1024 * 1024

def newline : UInt8 := 10

inductive LineRead
  | ready
  | closed
  | tooLong

/-- The first `scanned` bytes of the buffer are known to be free of newlines. -/
structure LineBuffer where
  buffer : Bytes
  scanned : ℕ

/-- The reads have at least a byte each; the end of the list is the end of the stream. -/
def readBoundedLine (b : LineBuffer) (reads : List Bytes) : LineRead × LineBuffer × List Bytes :=
  if newline ∈ b.buffer.drop b.scanned then (.ready, b, reads)
  else
    match reads with
    | [] => (.closed, b, [])
    | read :: reads =>
      if (b.buffer ++ read).length > maxTcpLine then (.tooLong, b, reads)
      else readBoundedLine ⟨b.buffer ++ read, b.buffer.length⟩ reads
termination_by structural reads

variable {σ : Type} (text : Bytes → Bytes) (handle : σ → Bytes → σ × Bytes × Bool)

/-- A line as `text` decodes and trims it, unless it is blank. -/
def request (line : Bytes) : Option Bytes := if text line = [] then none else some (text line)

def peelLine (b : LineBuffer) : Option Bytes × LineBuffer :=
  if newline ∈ b.buffer then
    (request text (b.buffer.takeWhile (· ≠ newline) ++ [newline]),
      ⟨(b.buffer.dropWhile (· ≠ newline)).tail, 0⟩)
  else (none, b)

/-- The requests with their replies, and the reply to no request that ends a session. `handle` gives
the reply and says whether the session goes on. -/
def sessionLoop : ℕ → σ → LineBuffer → List Bytes → List (Option Bytes × Bytes)
  | 0, _, _, _ => []
  | turns + 1, s, b, reads =>
    match readBoundedLine b reads with
    | (.closed, _) => []
    | (.tooLong, _) => [(none, .ofString "ERROR: LINE_TOO_LONG\n")]
    | (.ready, b, reads) =>
      match peelLine text b with
      | (none, b) => sessionLoop turns s b reads
      | (some line, b) =>
        (some line, (handle s line).2.1) ::
          if (handle s line).2.2 then sessionLoop turns (handle s line).1 b reads else []

/-- An empty read is the end of the stream. -/
def received (reads : List Bytes) : List Bytes := reads.takeWhile (· ≠ [])

/-- Every turn takes a newline off the stream. -/
def handleTcpSession (s : σ) (reads : List Bytes) : List (Option Bytes × Bytes) :=
  sessionLoop text handle ((received reads).flatten.length + 1) s ⟨[], 0⟩ (received reads)

def linesOf : Bytes → List Bytes × Bytes
  | [] => ([], [])
  | b :: stream =>
    if b = newline then ([newline] :: (linesOf stream).1, (linesOf stream).2)
    else
      match (linesOf stream).1 with
      | [] => ([], b :: (linesOf stream).2)
      | line :: lines => ((b :: line) :: lines, (linesOf stream).2)

def requests (stream : Bytes) : List Bytes := (linesOf stream).1.filterMap (request text)

/-- The exchanges over some requests, and whether the session goes on behind them. -/
def serve : σ → List Bytes → List (Option Bytes × Bytes) × Bool
  | _, [] => ([], true)
  | s, line :: lines =>
    if (handle s line).2.2 then
      ((some line, (handle s line).2.1) :: (serve (handle s line).1 lines).1,
        (serve (handle s line).1 lines).2)
    else ([(some line, (handle s line).2.1)], false)

/-- While the session goes on, no read exceeds the cap together with the unfinished line in front of
it. -/
def ReadsFit (s : σ) (buffer : Bytes) (reads : List Bytes) : Prop :=
  ∀ before read after, reads = before ++ read :: after →
    (serve handle s (requests text (buffer ++ before.flatten))).2 = true →
      ((linesOf (buffer ++ before.flatten)).2 ++ read).length ≤ maxTcpLine

variable {text handle} {s : σ} {b : LineBuffer} {reads : List Bytes} {read line rest : Bytes}
  {turns : ℕ}

theorem linesOf_append (free : newline ∉ line) :
    linesOf (line ++ newline :: rest) = ((line ++ [newline]) :: (linesOf rest).1,
      (linesOf rest).2) := by
  induction line with
  | nil => simp [linesOf]
  | cons b line ih =>
    obtain ⟨first, later⟩ := not_or.mp (mt mem_cons.mpr free)
    simp [linesOf, ih later, Ne.symm first]

theorem linesOf_of_free (free : newline ∉ line) : linesOf line = ([], line) := by
  induction line with
  | nil => rfl
  | cons b line ih =>
    obtain ⟨first, later⟩ := not_or.mp (mt mem_cons.mpr free)
    simp [linesOf, ih later, Ne.symm first]

theorem requests_of_free (free : newline ∉ line) : requests text line = [] := by
  rw [requests, linesOf_of_free free]
  rfl

theorem not_mem_buffer (free : newline ∉ b.buffer.take b.scanned)
    (rest : newline ∉ b.buffer.drop b.scanned) : newline ∉ b.buffer := by
  rw [← take_append_drop b.scanned b.buffer]
  exact not_mem_append free rest

theorem exists_line (text : Bytes → Bytes) (found : newline ∈ b.buffer) :
    ∃ line rest, newline ∉ line ∧ b.buffer = line ++ newline :: rest ∧
    peelLine text b = (request text (line ++ [newline]), ⟨rest, 0⟩) := by
  obtain ⟨line, rest, same, free⟩ := eq_append_cons_of_mem found
  refine ⟨line, rest, free, same, ?_⟩
  have inside : ∀ c ∈ line, decide (c ≠ newline) = true := by
    intro c member
    exact decide_eq_true (ne_of_mem_of_not_mem member free)
  rw [peelLine, if_pos found, same, takeWhile_append_of_pos inside, dropWhile_append_of_pos inside]
  simp

theorem sessionLoop_read (free : newline ∉ b.buffer.drop b.scanned)
    (short : (b.buffer ++ read).length ≤ maxTcpLine) :
    sessionLoop text handle turns s b (read :: reads) =
      sessionLoop text handle turns s ⟨b.buffer ++ read, b.buffer.length⟩ reads := by
  have step : readBoundedLine b (read :: reads) = readBoundedLine ⟨b.buffer ++ read,
      b.buffer.length⟩ reads := by
    rw [readBoundedLine, if_neg free]
    exact if_neg (not_lt.mpr short)
  cases turns with
  | zero => rfl
  | succ turns => simp only [sessionLoop, step]

theorem readsFit_cons (free : newline ∉ b.buffer) :
    ReadsFit text handle s b.buffer (read :: reads) ↔
    (b.buffer ++ read).length ≤ maxTcpLine ∧ ReadsFit text handle s (b.buffer ++ read) reads := by
  constructor
  · intro fit
    refine ⟨?_, fun before next after same => ?_⟩
    · have first := fit [] read reads rfl
      simp only [flatten_nil, append_nil, requests_of_free free, linesOf_of_free free] at first
      exact first rfl
    · have later := fit (read :: before) next after (congrArg (read :: ·) same)
      rwa [flatten_cons, ← append_assoc] at later
  · rintro ⟨short, fit⟩ before next after same going
    cases before with
    | nil =>
      obtain ⟨rfl, -⟩ := cons.inj same
      rwa [flatten_nil, append_nil, linesOf_of_free free]
    | cons first before =>
      obtain ⟨rfl, later⟩ := cons.inj same
      rw [flatten_cons, ← append_assoc] at going ⊢
      exact fit before next after later going

theorem serve_ne (s : σ) (lines : List Bytes) (reply : Bytes) :
    [(none, reply)] ≠ (serve handle s lines).1 := by
  cases lines with
  | nil => exact nofun
  | cons line lines =>
    rw [serve]
    split_ifs
    · exact nofun
    · exact nofun

theorem sessionLoop_eq_iff (free : newline ∉ b.buffer.take b.scanned)
    (enough : (b.buffer ++ reads.flatten).length < turns) :
    sessionLoop text handle turns s b reads =
      (serve handle s (requests text (b.buffer ++ reads.flatten))).1 ↔
      ReadsFit text handle s b.buffer reads := by
  induction turns generalizing s b reads with
  | zero => omega
  | succ turns ih =>
  have ready : ∀ {b : LineBuffer} {reads}, newline ∈ b.buffer.drop b.scanned →
    (b.buffer ++ reads.flatten).length < turns + 1 →
      (sessionLoop text handle (turns + 1) s b reads =
      (serve handle s (requests text (b.buffer ++ reads.flatten))).1 ↔
        ReadsFit text handle s b.buffer reads) := by
    intro b reads found enough
    obtain ⟨line, rest, free, split, peel⟩ := exists_line text (mem_of_mem_drop found)
    have whole : ∀ x, linesOf (b.buffer ++ x) = ((line ++ [newline]) :: (linesOf (rest ++ x)).1,
        (linesOf (rest ++ x)).2) := by
      intro x
      rw [split, append_assoc, cons_append, linesOf_append free]
    have next (s : σ) := @ih s ⟨rest, 0⟩ reads (by simp) (by
      simp only [split, length_append, length_cons] at enough ⊢
      omega)
    rw [sessionLoop, readBoundedLine.eq_def, if_pos found]
    simp only [peel, ReadsFit, requests, whole, filterMap_cons] at next ⊢
    cases request text (line ++ [newline]) with
    | none => exact next s
    | some line =>
      simp only [serve]
      cases (handle s line).2.2 with
      | true => simpa using next _
      | false => simp
  induction reads generalizing b with
  | nil =>
    by_cases found : newline ∈ b.buffer.drop b.scanned
    · exact ready found enough
    have free := not_mem_buffer free found
    rw [sessionLoop, readBoundedLine.eq_def, if_neg found, flatten_nil, append_nil,
      requests_of_free free]
    exact iff_of_true rfl fun before _ _ same => absurd same (by simp)
  | cons read reads inner =>
    by_cases found : newline ∈ b.buffer.drop b.scanned
    · exact ready found enough
    have free := not_mem_buffer free found
    rw [readsFit_cons free]
    by_cases short : (b.buffer ++ read).length ≤ maxTcpLine
    · rw [sessionLoop_read found short, and_iff_right short, flatten_cons, ← append_assoc]
      refine inner (b := ⟨b.buffer ++ read, b.buffer.length⟩) (by simpa using free) ?_
      rwa [flatten_cons, ← append_assoc] at enough
    · rw [sessionLoop, readBoundedLine.eq_def, if_neg found]
      simp only [if_pos (not_le.mp short)]
      exact iff_of_false (serve_ne s _ _) fun fit => short fit.1

/-- The session answers the lines of the stream, however it is cut, exactly if the reads fit. -/
theorem session_answers_lines_iff (text : Bytes → Bytes) (handle : σ → Bytes → σ × Bytes × Bool)
    (s : σ) (reads : List Bytes) :
    handleTcpSession text handle s reads =
        (serve handle s (requests text (received reads).flatten)).1 ↔
      ReadsFit text handle s [] (received reads) :=
  sessionLoop_eq_iff (b := ⟨[], 0⟩) not_mem_nil (Nat.lt_succ_self _)

namespace Sample

/-- A long line byte by byte, and a read with its newline and the next line. -/
def longLine (n : ℕ) : List Bytes := replicate n [97] ++ [[newline, 98, newline]]

def echo (_ : Unit) (line : Bytes) : Unit × Bytes × Bool := ((), line, true)

end Sample

open Sample

theorem refused_of_cap {n : ℕ} (cap : n + 1 = maxTcpLine) :
    (∀ line ∈ (linesOf (longLine n).flatten).1, line.length ≤ maxTcpLine) ∧
      handleTcpSession id echo () (longLine n) ≠
        (serve echo () (requests id (longLine n).flatten)).1 := by
  have all : received (longLine n) = longLine n := by
    rw [received, longLine, takeWhile_append_of_pos (by simp)]
    rfl
  have free : newline ∉ replicate n (97 : UInt8) := by simp [newline]
  constructor
  · have split : (longLine n).flatten = replicate n 97 ++ newline :: [98, newline] := by
      simp [longLine]
    rw [split, linesOf_append free, ← cap]
    have long : 2 ≤ maxTcpLine := by decide
    simp [linesOf, newline]
    omega
  · intro same
    rw [handleTcpSession, all] at same
    have fit := (sessionLoop_eq_iff (b := ⟨[], 0⟩) not_mem_nil (Nat.lt_succ_self _)).mp same _ _
      [] rfl
    rw [nil_append, flatten_replicate_singleton, requests_of_free free, linesOf_of_free free, ← cap]
      at fit
    simp [serve] at fit

/-- A line as long as the cap is refused when the next line comes with its newline. -/
theorem longest_line_refused : let reads := longLine (maxTcpLine - 1)
    (∀ line ∈ (linesOf reads.flatten).1, line.length ≤ maxTcpLine) ∧
      handleTcpSession id echo () reads ≠ (serve echo () (requests id reads.flatten)).1 :=
  refused_of_cap (Nat.sub_add_cancel (by decide))

end OmniKV.Tcp
