import LgMagic.Lib.CString
import LgMagic.Lib.ChunkedInput
import Mathlib.Algebra.Order.Group.Nat

/-!
# The connection to the bus

The read buffer of the client and the two ways it is read: `readn` for messages and `read_line` for
the authentication. Bytes that came with a line stay in the buffer for the messages. Part of
`dbus_client.c`.

* `Conn`, `ReadError`: the buffer, what the socket delivers, and the errors;
* `readn`, `readLine`;
* `splits_readnStep`, `splits_readLineStep`: they do not mind how the bytes are cut into pieces;
* `readn_of_le`, `readn_of_lt`: `readn` on the bytes still to be delivered;
* `transcript_eq`: every sequence of reads.
-/

namespace DBus

open ChunkedInput CString

/-! ## Reading -/

/-- The errors of reading. -/
inductive ReadError
  | timedOut
  | failed (strerror : Bytes)
  | closed
  | overlong
  deriving DecidableEq

/-- The message of an error. -/
def ReadError.text : ReadError → Bytes
  | .timedOut => ascii "cannot read from the bus: timed out"
  | .failed strerror => ascii "cannot read from the bus: " ++ strerror
  | .closed => ascii "cannot read from the bus: connection closed"
  | .overlong => ascii "bus sent an overlong line"

/-- The read buffer and what `poll` and `read` will come to on the socket; when nothing comes any
more, `poll` runs out of time. -/
abbrev Conn := Input ReadError UInt8

/-- The steps of the loops. -/
abbrev Step := Progress ReadError Bytes UInt8 Bytes

/-- `readn` with some bytes got, on the buffer. -/
def readnStep (n : ℕ) (got buf : Bytes) : Step :=
  if got.length + buf.length < n then .more (got ++ buf)
  else .done (got ++ buf.take (n - got.length)) (buf.drop (n - got.length))

/-- `readn` -/
def readn (n : ℕ) (c : Conn) : Except ReadError Bytes × Conn :=
  pull .timedOut (readnStep n) [] c.buf c.events

/-- The end of a line. -/
def newline : UInt8 := 0x0A

/-- A line without the carriage return at its end. -/
def stripCr (line : Bytes) : Bytes :=
  if line.getLast? = some 0x0D then line.dropLast else line

/-- The bytes of a line that fit a buffer; the subtraction is one of `size_t`. -/
def lineLimit (bufsz : ℕ) : ℕ := (bufsz + (2 ^ 64 - 1)) % 2 ^ 64

/-- `read_line` with a part of the line, on the buffer. -/
def readLineStep (bufsz : ℕ) (line buf : Bytes) : Step :=
  if buf = [] then .more line
  else
    let part := buf.takeWhile (· ≠ newline)
    if lineLimit bufsz ≤ line.length + part.length then .fail .overlong
    else if part.length < buf.length then
      .done (stripCr (line ++ part)) (buf.drop (part.length + 1))
    else .more (line ++ buf)

/-- `read_line` -/
def readLine (bufsz : ℕ) (c : Conn) : Except ReadError Bytes × Conn :=
  pull .timedOut (readLineStep bufsz) [] c.buf c.events

/-! ## Pieces -/

/-- The steps of `readn` do not mind where the buffer is split. -/
theorem splits_readnStep (n : ℕ) : Splits (readnStep n) where
  done {got xs a rest} h ys := by
    unfold readnStep at h
    split_ifs at h with hlt
    injection h with ha hrest
    have hle : n - got.length ≤ xs.length := by omega
    rw [readnStep, if_neg (by rw [List.length_append]; omega), List.take_append_of_le_length hle,
      List.drop_append_of_le_length hle, ha, hrest]
  fail {got xs e} h ys := by
    unfold readnStep at h
    split_ifs at h
  more {got xs got'} h ys := by
    unfold readnStep at h
    split_ifs at h with hlt
    injection h with h
    subst h
    have hdrop : n - got.length = xs.length + (n - (got ++ xs).length) := by
      rw [List.length_append]
      omega
    simp only [readnStep, List.length_append, Nat.add_assoc]
    split_ifs
    · rw [List.append_assoc]
    · rw [hdrop, List.take_length_add_append, List.drop_length_add_append, List.append_assoc,
        List.length_append]

/-- What comes after the end of the line does not matter. -/
theorem takeWhile_append_of_lt {xs : Bytes} (ys : Bytes)
    (h : (xs.takeWhile (· ≠ newline)).length < xs.length) :
    (xs ++ ys).takeWhile (· ≠ newline) = xs.takeWhile (· ≠ newline) := by
  rw [List.takeWhile_append, if_neg (Nat.ne_of_lt h)]

/-- A buffer without the end of the line. -/
theorem takeWhile_append_of_eq {xs : Bytes} (ys : Bytes)
    (h : ¬ (xs.takeWhile (· ≠ newline)).length < xs.length) :
    (xs ++ ys).takeWhile (· ≠ newline) = xs ++ ys.takeWhile (· ≠ newline) := by
  have hlen := (List.takeWhile_prefix (p := (· ≠ newline)) (l := xs)).length_le
  rw [List.takeWhile_append, if_pos (by omega)]

theorem takeWhile_length_le_append (xs ys : Bytes) :
    (xs.takeWhile (· ≠ newline)).length ≤ ((xs ++ ys).takeWhile (· ≠ newline)).length := by
  rw [List.takeWhile_append]
  split_ifs with h
  · rw [List.length_append]
    omega
  · exact le_rfl

/-- The steps of `read_line` do not mind where the buffer is split. -/
theorem splits_readLineStep (bufsz : ℕ) : Splits (readLineStep bufsz) where
  done {line xs a rest} h ys := by
    unfold readLineStep at h
    dsimp only at h
    split_ifs at h with hnil hlong hfound
    injection h with ha hrest
    rw [readLineStep, if_neg (by simp [hnil]), takeWhile_append_of_lt ys hfound, if_neg hlong,
      if_pos (by rw [List.length_append]; omega), List.drop_append_of_le_length (by omega), ha,
      hrest]
  fail {line xs e} h ys := by
    unfold readLineStep at h
    dsimp only at h
    split_ifs at h with hnil hlong
    -- a line that is too long is so with more bytes
    have hle := takeWhile_length_le_append xs ys
    rw [readLineStep, if_neg (by simp [hnil]), if_pos (by omega), ← h]
  more {line xs line'} h ys := by
    unfold readLineStep at h
    dsimp only at h
    split_ifs at h with hnil hlong hfound
    · rw [hnil, List.nil_append]
      injection h with h
      rw [h]
    · -- the line goes on in what follows
      injection h with h
      subst h
      have hlen := (List.takeWhile_prefix (p := (· ≠ newline)) (l := xs)).length_le
      by_cases hys : ys = []
      · rw [hys, List.append_nil, readLineStep, if_neg hnil, if_neg hlong, if_neg hfound,
          readLineStep, if_pos rfl]
      · simp only [readLineStep, List.append_eq_nil_iff, hnil, hys, false_and, if_false,
          takeWhile_append_of_eq ys hfound, List.length_append, Nat.add_assoc]
        split_ifs with h₁ h₂ h₃ h₃
        · rfl
        · rw [List.append_assoc, List.drop_length_add_append]
        · omega
        · omega
        · rw [List.append_assoc]

/-! ## The bytes still to be delivered -/

/-- Both ways of reading, as steps on all the bytes still to be delivered. -/
inductive ReadOp
  | exact (n : ℕ)
  | line (bufsz : ℕ)

/-- The step of a way of reading. -/
def ReadOp.step : ReadOp → Bytes → Bytes → Step
  | .exact n => readnStep n
  | .line bufsz => readLineStep bufsz

/-- Call the function. -/
def ReadOp.run : ReadOp → Conn → Except ReadError Bytes × Conn
  | .exact n => readn n
  | .line bufsz => readLine bufsz

theorem ReadOp.splits (op : ReadOp) : Splits op.step := by
  cases op with
  | exact n => exact splits_readnStep n
  | line bufsz => exact splits_readLineStep bufsz

theorem ReadOp.run_eq_pull (op : ReadOp) (c : Conn) :
    op.run c = pull .timedOut op.step [] c.buf c.events := by
  cases op <;> rfl

variable {c c' : Conn} {n : ℕ}

/-- The next bytes are read as soon as they are among those still to be delivered. -/
theorem readn_of_le (h : n ≤ c.pending.length) :
    ∃ c' : Conn, readn n c = (.ok (c.pending.take n), c') ∧ c'.pending = c.pending.drop n ∧
      c'.fault .timedOut = c.fault .timedOut ∧ c'.after = c.after := by
  refine pull_of_done (splits_readnStep n) ?_
  change readnStep n [] c.pending = _
  rw [readnStep, if_neg (by simpa using h)]
  rfl

/-- Otherwise reading fails. -/
theorem readn_of_lt (h : c.pending.length < n) :
    readn n c = (.error (c.fault .timedOut), ⟨[], c.after⟩) := by
  have hmore : readnStep n [] c.pending = .more c.pending := by
    rw [readnStep, if_pos (by simpa using h), List.nil_append]
  exact pull_of_more (splits_readnStep n) hmore

/-! ## Sequences of reads -/

/-- What a caller sees of a read: the bytes with those still to be delivered afterwards, or an
error. -/
inductive Seen
  | ok (bytes rest : Bytes)
  | error (e : ReadError)
  deriving DecidableEq

/-- What a caller sees of a sequence of reads, up to the first that fails. -/
def transcript : List ReadOp → Conn → List Seen
  | [], _ => []
  | op :: ops, c =>
    match op.run c with
    | (.ok bytes, c') => .ok bytes c'.pending :: transcript ops c'
    | (.error e, _) => [.error e]

/-- A read only goes by the bytes still to be delivered and by what happens after them. -/
theorem transcript_eq (ops : List ReadOp) (hpending : c.pending = c'.pending)
    (hfault : c.fault .timedOut = c'.fault .timedOut) : transcript ops c = transcript ops c' := by
  induction ops generalizing c c' with
  | nil => rfl
  | cons op ops ih =>
    rw [transcript, transcript, op.run_eq_pull, op.run_eq_pull]
    cases hstep : op.step [] c.pending with
    | done bytes rest =>
      obtain ⟨d, hpull, hrest, hd, -⟩ := pull_of_done op.splits hstep
      obtain ⟨d', hpull', hrest', hd', -⟩ := pull_of_done op.splits (hpending ▸ hstep)
      have hnext : transcript ops d = transcript ops d' := by
        apply ih
        · rw [hrest, hrest']
        · exact hd.trans (hfault.trans hd'.symm)
      rw [hpull, hpull']
      change Seen.ok bytes d.pending :: _ = Seen.ok bytes d'.pending :: _
      rw [hnext, hrest, hrest']
    | fail e =>
      obtain ⟨d, hpull⟩ := pull_of_fail op.splits hstep
      obtain ⟨d', hpull'⟩ := pull_of_fail op.splits (hpending ▸ hstep)
      rw [hpull, hpull']
    | more s =>
      rw [pull_of_more op.splits hstep, pull_of_more op.splits (hpending ▸ hstep)]
      exact congrArg (fun e => [Seen.error e]) hfault

/-- A line and eight bytes after it, whole and in pieces. -/
theorem transcript_line_eq :
    transcript [.line 512, .exact 3, .exact 6]
        ⟨[], [.chunk 0x4F (ascii "K 1" ++ [0x0D, newline, 0x6C, 2, 1, 1])]⟩ =
      transcript [.line 512, .exact 3, .exact 6]
        ⟨[], [.chunk 0x4F (ascii "K 1" ++ [0x0D]), .interrupted, .chunk newline [0x6C, 2],
          .chunk 1 [1]]⟩ :=
  transcript_eq _ (by decide) (by decide)

end DBus
