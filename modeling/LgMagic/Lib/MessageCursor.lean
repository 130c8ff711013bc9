import LgMagic.Lib.CString

/-!
# Reading typed messages

Messages of typed values and the cursor that a program reads them with. A value is read only as what
it is: a basic value under its own type, a container after it was entered with its own contents, and
left again when nothing of it remains.

* `Val`, `Val.sig`: values and their signatures;
* `Cursor`, `enter`, `exit`, `readNum`, `readText`, `skip`: one step of the cursor each;
* `readVariantNum`: a number in a variant;
* `readNum_of_mismatch`: other values are refused;
* `next_eq_ok`, `enter_eq_ok`, `readVariantNum_eq_ok`: what was there when a step succeeded.
-/

namespace MessageCursor

open CString

/-- The basic types. -/
inductive Basic
  | byte
  | boolean
  | int16
  | uint16
  | int32
  | uint32
  | int64
  | uint64
  | double
  | string
  | objectPath
  | signature
  | unixFd
  deriving DecidableEq

/-- The code of a basic type. -/
def Basic.code : Basic → UInt8
  | .byte => 0x79
  | .boolean => 0x62
  | .int16 => 0x6E
  | .uint16 => 0x71
  | .int32 => 0x69
  | .uint32 => 0x75
  | .int64 => 0x78
  | .uint64 => 0x74
  | .double => 0x64
  | .string => 0x73
  | .objectPath => 0x6F
  | .signature => 0x67
  | .unixFd => 0x68

/-- Values. A number is given by its bits; an array has the signature of its items with it. -/
inductive Val
  | num (t : Basic) (n : ℕ)
  | text (t : Basic) (s : CStr)
  | variant (v : Val)
  | array (elem : Bytes) (items : List Val)
  | struct (fields : List Val)
  | dictEntry (key value : Val)

mutual

/-- The signature of a value. -/
def Val.sig : Val → Bytes
  | .num t _ => [t.code]
  | .text t _ => [t.code]
  | .variant _ => [0x76]
  | .array elem _ => 0x61 :: elem
  | .struct fields => 0x28 :: (sigs fields ++ [0x29])
  | .dictEntry k v => 0x7B :: (k.sig ++ v.sig ++ [0x7D])

/-- The signatures of some values. -/
def sigs : List Val → Bytes
  | [] => []
  | v :: vs => v.sig ++ sigs vs

end

/-- The containers that can be entered. -/
inductive Container
  | array
  | variant
  | struct
  | dictEntry
  deriving DecidableEq

/-- A container that was entered, and what is left of it. -/
structure Frame where
  isArray : Bool
  rest : List Val

/-- A cursor: the containers that were entered, the innermost one first. -/
abbrev Cursor := List Frame

/-- What a step comes to: an error, nothing more in an array, or a value. -/
inductive Read (α : Type)
  | error
  | atEnd
  | ok (a : α) (c : Cursor)

/-- The cursor at the start of a message. -/
def start (body : List Val) : Cursor := [⟨false, body⟩]

/-- What a container holds if it is of a kind and has some contents. -/
def opened (kind : Container) (contents : Bytes) : Val → Option Frame
  | .array elem items => if kind = .array ∧ elem = contents then some ⟨true, items⟩ else none
  | .variant v => if kind = .variant ∧ v.sig = contents then some ⟨false, [v]⟩ else none
  | .struct fields => if kind = .struct ∧ sigs fields = contents then some ⟨false, fields⟩ else none
  | .dictEntry k v =>
    if kind = .dictEntry ∧ k.sig ++ v.sig = contents then some ⟨false, [k, v]⟩ else none
  | _ => none

/-- A step that takes the next value, if it is of the right kind. -/
def next {α : Type} (f : Val → Option α) : Cursor → Read α
  | ⟨isArray, v :: vs⟩ :: c =>
    match f v with
    | some a => .ok a (⟨isArray, vs⟩ :: c)
    | none => .error
  | ⟨true, []⟩ :: _ => .atEnd
  | ⟨false, []⟩ :: _ => .error
  | [] => .error

/-- Enter a container of a kind with the given contents. -/
def enter (kind : Container) (contents : Bytes) (c : Cursor) : Read Unit :=
  match next (opened kind contents) c with
  | .ok frame c => .ok () (frame :: c)
  | .atEnd => .atEnd
  | .error => .error

/-- Leave a container of which nothing remains. -/
def exit : Cursor → Read Unit
  | ⟨_, []⟩ :: f :: c => .ok () (f :: c)
  | _ => .error

/-- The number that a value is under a type. -/
def Val.asNum (t : Basic) : Val → Option ℕ
  | .num t' n => if t' = t then some n else none
  | _ => none

/-- The text that a value is under a type. -/
def Val.asText (t : Basic) : Val → Option CStr
  | .text t' s => if t' = t then some s else none
  | _ => none

/-- Read a number of a type. -/
def readNum (t : Basic) : Cursor → Read ℕ := next (Val.asNum t)

/-- Read a text of a type. -/
def readText (t : Basic) : Cursor → Read CStr := next (Val.asText t)

/-- Skip a value with a signature. -/
def skip (sig : Bytes) : Cursor → Read Unit :=
  next fun v => if v.sig = sig then some () else none

/-- One step after another; the second one has to find something. -/
def Read.andThen {α β : Type} (r : Read α) (f : α → Cursor → Read β) : Read β :=
  match r with
  | .ok a c =>
    match f a c with
    | .ok b c => .ok b c
    | _ => .error
  | .atEnd => .atEnd
  | .error => .error

/-- Read a number of a type out of a variant. -/
def readVariantNum (t : Basic) (c : Cursor) : Read ℕ :=
  (enter .variant [t.code] c).andThen fun _ c =>
    (readNum t c).andThen fun n c => (exit c).andThen fun _ c => .ok n c

/-! ## What is refused -/

variable {c : Cursor} {v : Val} {vs : List Val} {isArray : Bool}

theorem next_error {α : Type} {f : Val → Option α} (h : f v = none) :
    next f (⟨isArray, v :: vs⟩ :: c) = .error := by
  simp [next, h]

/-- A value of another type is no number of a type. -/
theorem readNum_of_mismatch {t : Basic} (h : v.sig ≠ [t.code]) :
    readNum t (⟨isArray, v :: vs⟩ :: c) = .error := by
  apply next_error
  cases v with
  | num t' n =>
    have : t' ≠ t := fun he => h (by simp [Val.sig, he])
    simp [Val.asNum, this]
  | _ => rfl

/-- A number in a variant. -/
theorem readVariantNum_num (t : Basic) (n : ℕ) :
    readVariantNum t (⟨isArray, .variant (.num t n) :: vs⟩ :: c) = .ok n (⟨isArray, vs⟩ :: c) := by
  simp [readVariantNum, enter, next, opened, Val.sig, Read.andThen, readNum, Val.asNum, exit]

/-! ## What was read -/

theorem next_eq_ok {α : Type} {f : Val → Option α} {a : α} {c c' : Cursor}
    (h : next f c = .ok a c') :
    ∃ isArray v vs rest, c = ⟨isArray, v :: vs⟩ :: rest ∧ f v = some a ∧
      c' = ⟨isArray, vs⟩ :: rest := by
  match c, h with
  | ⟨isArray, v :: vs⟩ :: rest, h =>
    cases hf : f v with
    | none => simp [next, hf] at h
    | some b =>
      simp only [next, hf, Read.ok.injEq] at h
      obtain ⟨rfl, rfl⟩ := h
      exact ⟨isArray, v, vs, rest, rfl, hf, rfl⟩
  | ⟨true, []⟩ :: _, h => cases h
  | ⟨false, []⟩ :: _, h => cases h

theorem enter_eq_ok {kind : Container} {contents : Bytes} {c c' : Cursor}
    (h : enter kind contents c = .ok () c') :
    ∃ isArray v vs rest frame, c = ⟨isArray, v :: vs⟩ :: rest ∧
      opened kind contents v = some frame ∧ c' = frame :: ⟨isArray, vs⟩ :: rest := by
  unfold enter at h
  split at h
  · next frame c₁ hnext =>
    obtain ⟨isArray, v, vs, rest, rfl, hv, rfl⟩ := next_eq_ok hnext
    injection h with _ h
    exact ⟨isArray, v, vs, rest, frame, rfl, hv, h.symm⟩
  · cases h
  · cases h

theorem andThen_eq_ok {α β : Type} {r : Read α} {f : α → Cursor → Read β} {b : β} {c : Cursor}
    (h : r.andThen f = .ok b c) : ∃ a c₁, r = .ok a c₁ ∧ f a c₁ = .ok b c := by
  match r, h with
  | .ok a c₁, h =>
    refine ⟨a, c₁, rfl, ?_⟩
    simp only [Read.andThen] at h
    split at h
    · next hf => rw [hf, h]
    · cases h

theorem readNum_eq_ok {t : Basic} {n : ℕ} {c c' : Cursor} (h : readNum t c = .ok n c') :
    ∃ isArray vs rest, c = ⟨isArray, .num t n :: vs⟩ :: rest ∧ c' = ⟨isArray, vs⟩ :: rest := by
  obtain ⟨isArray, v, vs, rest, rfl, hv, rfl⟩ := next_eq_ok h
  cases v with
  | num t' n' =>
    simp only [Val.asNum] at hv
    split_ifs at hv with ht
    obtain ⟨rfl, rfl⟩ : n' = n ∧ t' = t := ⟨by simpa using hv, ht⟩
    exact ⟨isArray, vs, rest, rfl, rfl⟩
  | _ => cases hv

/-- A number that was read out of a variant was in one. -/
theorem readVariantNum_eq_ok {t : Basic} {n : ℕ} {c c' : Cursor}
    (h : readVariantNum t c = .ok n c') :
    ∃ isArray vs rest, c = ⟨isArray, .variant (.num t n) :: vs⟩ :: rest ∧
      c' = ⟨isArray, vs⟩ :: rest := by
  obtain ⟨⟨⟩, c₁, henter, h⟩ := andThen_eq_ok h
  obtain ⟨isArray, v, vs, rest, frame, rfl, hopen, rfl⟩ := enter_eq_ok henter
  obtain ⟨n', c₂, hread, h⟩ := andThen_eq_ok h
  obtain ⟨⟨⟩, c₃, hexit, h⟩ := andThen_eq_ok h
  cases v with
  | variant w =>
    simp only [opened] at hopen
    split_ifs at hopen
    injection hopen with hopen
    subst hopen
    obtain ⟨isArray', vs', rest', hcur, rfl⟩ := readNum_eq_ok hread
    simp only [List.cons.injEq, Frame.mk.injEq] at hcur
    obtain ⟨⟨rfl, rfl, rfl⟩, rfl⟩ := hcur
    injection hexit with _ hexit
    injection h with hn hc
    subst hn
    exact ⟨isArray, vs, rest, rfl, hc.symm⟩
  | _ => simp [opened] at hopen

end MessageCursor
