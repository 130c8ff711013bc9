import LgMagic.DBus.Marshal

/-!
# Writes that fail

What becomes of a method call when the allocator fails or a string is too long. A write that fails
leaves the length of the buffer as it is for good, and every padding after it that this length does
not fit is a loop without an end. The bytes of a message do not matter here: a `Shape` is a writer
without its bytes, and the writes of a call are a list of `Op`s.

* `Shape`, `Op`, `runOps`: the writer and its writes;
* `firstFailure`: the length at which the first write fails, and the writes that are left then;
* `stuck_runOps_iff`: when a run of writes does not end;
* `bodyOps`, `hdrOps`: the writes of `build_call`;
* `returns_iff`: when `build_call` returns as it should.
-/

namespace DBus

open CString

/-! ## Shapes -/

/-- A writer without its bytes. -/
@[ext]
structure Shape where
  len : ℕ
  cap : ℕ
  nodepad : ℕ
  oom : Bool
  stuck : Bool

/-- The shape of a writer. -/
def Wb.shape (w : Wb) : Shape := ⟨w.b.length, w.cap, w.nodepad, w.oom, w.stuck⟩

/-- A writer with nothing in it. -/
def Shape.zero : Shape := ⟨0, 0, 0, false, false⟩

/-- `wb_put` of some bytes. -/
def Shape.put (mem : Realloc) (n : ℕ) (s : Shape) : Shape :=
  let need := s.len + n
  if s.oom then s
  else if s.cap < need then
    let ncap := growTo need need (if s.cap = 0 then 128 else s.cap)
    if mem ncap then { s with len := need, cap := ncap, nodepad := need } else { s with oom := true }
  else { s with len := need, nodepad := need }

/-- The loop of `wb_pad`. -/
def Shape.padLoop (mem : Realloc) (align : ℕ) : ℕ → Shape → Shape
  | 0, s => s
  | k + 1, s =>
    if s.len % align = 0 then s
    else
      let s := s.put mem 1
      if s.oom then { s with stuck := true } else padLoop mem align k s

/-- `wb_pad` -/
def Shape.pad (mem : Realloc) (align : ℕ) (s : Shape) : Shape :=
  { padLoop mem align align s with nodepad := s.len }

/-- A write of some bytes, a padding, or a string that is refused for its length. -/
inductive Op
  | put (n : ℕ)
  | pad (align : ℕ)
  | refuse

/-- A write on a shape. -/
def Op.run (mem : Realloc) (s : Shape) : Op → Shape
  | .put n => s.put mem n
  | .pad align => s.pad mem align
  | .refuse => { s with oom := true }

/-- Writes in order. -/
def runOps (mem : Realloc) (ops : List Op) (s : Shape) : Shape := ops.foldl (Op.run mem) s

section

variable {mem : Realloc} {s : Shape} {op : Op} {ops : List Op} {n align k : ℕ}

theorem runOps_append (ops ops' : List Op) :
    runOps mem (ops ++ ops') s = runOps mem ops' (runOps mem ops s) :=
  List.foldl_append

theorem put_of_oom (h : s.oom = true) (n : ℕ) : s.put mem n = s := by
  simp [Shape.put, h]

/-- A write succeeds and the buffer is longer, or it fails and the length stays. -/
theorem put_cases (mem : Realloc) (h : s.oom = false) (n : ℕ) :
    (s.put mem n).stuck = s.stuck ∧
      ((s.put mem n).oom = false ∧ (s.put mem n).len = s.len + n ∨
        (s.put mem n).oom = true ∧ (s.put mem n).len = s.len) := by
  unfold Shape.put
  simp only [h]
  split_ifs <;> simp_all

/-- A padding of a length that fits does nothing. -/
theorem padLoop_of_dvd (h : align ∣ s.len) (k : ℕ) : s.padLoop mem align k = s := by
  cases k with
  | zero => rfl
  | succ k => rw [Shape.padLoop, if_pos (Nat.mod_eq_zero_of_dvd h)]

/-- After a failure the length stays, and a padding ends if the length fits. -/
theorem pad_of_oom (mem : Realloc) (h : s.oom = true) (halign : 0 < align) :
    (s.pad mem align).oom = true ∧ (s.pad mem align).len = s.len ∧ (s.pad mem align).cap = s.cap ∧
      ((s.pad mem align).stuck = true ↔ s.stuck = true ∨ ¬ align ∣ s.len) := by
  unfold Shape.pad
  by_cases hdvd : align ∣ s.len
  · simp [padLoop_of_dvd hdvd, h, hdvd]
  · obtain ⟨k, rfl⟩ := Nat.exists_eq_succ_of_ne_zero halign.ne'
    have hmod : ¬ s.len % (k + 1) = 0 := fun hzero => hdvd (Nat.dvd_of_mod_eq_zero hzero)
    simp only [Shape.padLoop, hmod, if_false, put_of_oom h, h, if_true]
    simp [hdvd]

/-- A loop that fails on its way fails at a length that does not fit. -/
theorem padLoop_failed (h : s.oom = false) (hfail : (s.padLoop mem align k).oom = true) :
    (s.padLoop mem align k).stuck = true ∧ ¬ align ∣ (s.padLoop mem align k).len := by
  induction k generalizing s with
  | zero =>
    rw [Shape.padLoop, h] at hfail
    cases hfail
  | succ k ih =>
    rw [Shape.padLoop] at hfail ⊢
    split_ifs at hfail ⊢ with hmod
    · rw [h] at hfail
      cases hfail
    · simp only at hfail ⊢
      obtain ⟨-, ⟨hoom, -⟩ | ⟨hoom, hlen⟩⟩ := put_cases mem h 1
      · simp only [hoom, Bool.false_eq_true, if_false] at hfail ⊢
        exact ih hoom hfail
      · simp only [hoom, if_true, hlen, true_and]
        intro hdvd
        exact hmod (Nat.mod_eq_zero_of_dvd hdvd)

/-- A loop that does not fail ends. -/
theorem padLoop_stuck (h : s.oom = false) (hok : (s.padLoop mem align k).oom = false) :
    (s.padLoop mem align k).stuck = s.stuck := by
  induction k generalizing s with
  | zero => rfl
  | succ k ih =>
    rw [Shape.padLoop] at hok ⊢
    split_ifs at hok ⊢ with hmod
    · rfl
    · simp only at hok ⊢
      obtain ⟨hstuck, ⟨hoom, -⟩ | ⟨hoom, -⟩⟩ := put_cases mem h 1
      · simp only [hoom, Bool.false_eq_true, if_false] at hok ⊢
        exact (ih hoom hok).trans hstuck
      · simp [hoom] at hok

/-- A buffer does not become shorter. -/
theorem le_put (mem : Realloc) (s : Shape) (n : ℕ) : s.len ≤ (s.put mem n).len := by
  cases h : s.oom with
  | true => rw [put_of_oom h]
  | false =>
    obtain ⟨-, ⟨-, hlen⟩ | ⟨-, hlen⟩⟩ := put_cases mem h n <;> omega

theorem le_padLoop (mem : Realloc) (s : Shape) (align k : ℕ) : s.len ≤ (s.padLoop mem align k).len := by
  induction k generalizing s with
  | zero => exact le_rfl
  | succ k ih =>
    rw [Shape.padLoop]
    split_ifs
    · exact le_rfl
    · simp only
      split_ifs
      · exact le_put mem s 1
      · exact (le_put mem s 1).trans (ih _)

theorem le_runOps (mem : Realloc) (ops : List Op) (s : Shape) : s.len ≤ (runOps mem ops s).len := by
  induction ops generalizing s with
  | nil => exact le_rfl
  | cons op ops ih =>
    refine le_trans ?_ (ih (op.run mem s))
    cases op with
    | put n => exact le_put mem s n
    | pad align => exact le_padLoop mem s align align
    | refuse => exact le_rfl

end

/-! ## Failures -/

/-- The length at which the first write fails, and the writes from that one on. -/
def firstFailure (mem : Realloc) : List Op → Shape → Option (ℕ × List Op)
  | [], _ => none
  | op :: ops, s =>
    let s' := op.run mem s
    if s'.oom then some (s'.len, op :: ops) else firstFailure mem ops s'

/-- Paddings are to a length of their own. -/
def Op.Proper : Op → Prop
  | .pad align => 0 < align
  | _ => True

/-- The length at which a run of writes fails fits every padding that is left. -/
def Settles (mem : Realloc) (ops : List Op) : Prop :=
  ∀ n left, firstFailure mem ops .zero = some (n, left) → ∀ align, Op.pad align ∈ left → align ∣ n

section

variable {mem : Realloc} {s : Shape} {op : Op} {ops left : List Op} {n align k : ℕ}

/-- After a failure a run ends if the length fits all its paddings. -/
theorem runOps_of_oom (mem : Realloc) (h : s.oom = true) (hops : ∀ op ∈ ops, op.Proper) :
    (runOps mem ops s).oom = true ∧ (runOps mem ops s).cap = s.cap ∧
      ((runOps mem ops s).stuck = true ↔
        s.stuck = true ∨ ∃ align, Op.pad align ∈ ops ∧ ¬ align ∣ s.len) := by
  induction ops generalizing s with
  | nil => simp [runOps, h]
  | cons op ops ih =>
    rw [List.forall_mem_cons] at hops
    obtain ⟨hop, hops⟩ := hops
    have hrun : runOps mem (op :: ops) s = runOps mem ops (op.run mem s) := rfl
    cases op with
    | put n =>
      rw [hrun, Op.run, put_of_oom h]
      simpa using ih h hops
    | refuse =>
      have hrefuse : Op.run mem s .refuse = s := by ext <;> simp [Op.run, h]
      rw [hrun, hrefuse]
      simpa using ih h hops
    | pad align =>
      obtain ⟨hoom, hlen, hcap, hstuck⟩ := pad_of_oom mem h hop
      obtain ⟨h1, h2, h3⟩ := ih hoom hops
      rw [hrun]
      refine ⟨h1, h2.trans hcap, ?_⟩
      rw [Op.run, h3, hstuck, hlen]
      simp [or_assoc, or_and_right, exists_or]

/-- One write that goes through. -/
theorem run_stuck (hoom : s.oom = false) (hstuck : s.stuck = false) (hok : (op.run mem s).oom = false) :
    (op.run mem s).stuck = false := by
  cases op with
  | put n =>
    exact (put_cases mem hoom n).1.trans hstuck
  | pad align => exact (padLoop_stuck hoom hok).trans hstuck
  | refuse => cases hok

/-- One write that fails: a padding is stuck at once. -/
theorem run_failed (hoom : s.oom = false) (hstuck : s.stuck = false) (hfail : (op.run mem s).oom = true) :
    (op.run mem s).stuck = true ↔ ∃ align, op = .pad align ∧ ¬ align ∣ (op.run mem s).len := by
  cases op with
  | put n =>
    have h1 := (put_cases mem hoom n).1
    simp [Op.run, h1, hstuck]
  | pad align =>
    obtain ⟨h1, h2⟩ := padLoop_failed hoom hfail
    exact iff_of_true h1 ⟨align, rfl, h2⟩
  | refuse => simp [Op.run, hstuck]

/-- A run in which no write fails, and one in which a write fails. -/
theorem runOps_cases (mem : Realloc) (hoom : s.oom = false) (hstuck : s.stuck = false)
    (hops : ∀ op ∈ ops, op.Proper) :
    match firstFailure mem ops s with
    | none => (runOps mem ops s).oom = false ∧ (runOps mem ops s).stuck = false
    | some (n, left) => (runOps mem ops s).oom = true ∧
        ((runOps mem ops s).stuck = true ↔ ∃ align, Op.pad align ∈ left ∧ ¬ align ∣ n) := by
  induction ops generalizing s with
  | nil => exact ⟨hoom, hstuck⟩
  | cons op ops ih =>
    rw [List.forall_mem_cons] at hops
    have hrun : runOps mem (op :: ops) s = runOps mem ops (op.run mem s) := rfl
    rw [firstFailure, hrun]
    cases hfail : (op.run mem s).oom with
    | true =>
      obtain ⟨h1, -, h3⟩ := runOps_of_oom mem hfail hops.2
      have h4 := run_failed hoom hstuck hfail
      simp only [if_true]
      refine ⟨h1, ?_⟩
      rw [h3, h4]
      simp [or_and_right, exists_or, eq_comm]
    | false =>
      simp only [Bool.false_eq_true, if_false]
      exact ih hfail (run_stuck hoom hstuck hfail) hops.2

/-- A run from the start is stuck when it does not settle. -/
theorem stuck_runOps_iff (mem : Realloc) (hops : ∀ op ∈ ops, op.Proper) :
    (runOps mem ops .zero).stuck = true ↔ ¬ Settles mem ops := by
  have hcases := runOps_cases mem (s := .zero) rfl rfl hops
  unfold Settles
  split at hcases
  · next hnone => simp [hcases.2, hnone]
  · next n left hsome =>
    rw [hcases.2]
    simp only [hsome, Option.some.injEq, Prod.mk.injEq, not_forall]
    constructor
    · rintro ⟨align, hmem, hdvd⟩
      exact ⟨n, left, ⟨rfl, rfl⟩, align, hmem, hdvd⟩
    · rintro ⟨_, _, ⟨rfl, rfl⟩, align, hmem, hdvd⟩
      exact ⟨align, hmem, hdvd⟩

theorem oom_runOps_iff (mem : Realloc) (hops : ∀ op ∈ ops, op.Proper) :
    (runOps mem ops .zero).oom = true ↔ firstFailure mem ops .zero ≠ none := by
  have hcases := runOps_cases mem (s := .zero) rfl rfl hops
  split at hcases
  · next hnone => simp [hcases.1, hnone]
  · next hsome => simp [hcases.1, hsome]

end

/-! ## The writes of a call -/

/-- The writes of `wb_str`. -/
def strOps (s : CStr) : List Op :=
  if 0x0fffffff < s.val.length then [.refuse] else [.put 4, .put s.val.length, .put 1, .pad 4]

/-- The writes of `wb_sig`. -/
def sigOps (sig : CStr) : List Op :=
  if 255 < sig.val.length then [.refuse] else [.put 1, .put sig.val.length, .put 1]

/-- The type of an argument is known. -/
def Arg.known : Arg → Bool
  | .other _ => false
  | _ => true

/-- The writes of an argument. -/
def argOps : Arg → List Op
  | .s s => .pad 4 :: strOps s
  | .d _ => [.pad 8, .put 8]
  | .u _ => [.pad 4, .put 4]
  | .other _ => []

/-- The writes of the body, up to an argument of an unknown type. -/
def bodyOps (args : List Arg) : List Op := (args.takeWhile Arg.known).flatMap argOps

/-- The writes of a header field. -/
def fieldOps (aligned : Bool) (val : List Op) : List Op :=
  [.pad 8, .put 1, .put 1, .put 1, .put 1] ++ (if aligned then [.pad 4] else []) ++ val

/-- The writes of the header up to the fields. -/
def startOps : List Op := [.put 1, .put 1, .put 1, .put 1, .put 4, .put 4]

/-- The writes of the header fields. -/
def fieldsOps (dest path iface member sig : CStr) : List Op :=
  .put 4 :: (fieldOps true (strOps path) ++ fieldOps true (strOps iface) ++
    fieldOps true (strOps member) ++ fieldOps true (strOps dest) ++
    if sig = .empty then [] else fieldOps false (sigOps sig))

/-- The writes of the header. -/
def hdrOps (dest path iface member sig : CStr) : List Op :=
  startOps ++ fieldsOps dest path iface member sig ++ [.pad 8]

section

variable {mem : Realloc} {w : Wb} {args : List Arg}

@[simp] theorem shape_len : w.shape.len = w.b.length := rfl

@[simp] theorem shape_cap : w.shape.cap = w.cap := rfl

@[simp] theorem shape_oom : w.shape.oom = w.oom := rfl

@[simp] theorem shape_stuck : w.shape.stuck = w.stuck := rfl

@[simp] theorem shape_put (p : Bytes) : (wbPut mem p w).shape = w.shape.put mem p.length := by
  obtain ⟨b, cap, nodepad, oom, stuck⟩ := w
  cases oom with
  | true => rfl
  | false =>
    by_cases hroom : cap < b.length + p.length
    · by_cases hmem : mem (growTo (b.length + p.length) (b.length + p.length)
        (if cap = 0 then 128 else cap)) = true
      · simp only [wbPut, Shape.put, Wb.shape, hroom, hmem, Bool.false_eq_true, if_false, if_true,
          List.length_append]
        exact (if_pos hmem).symm
      · simp only [wbPut, Shape.put, Wb.shape, hroom, hmem, Bool.false_eq_true, if_false, if_true]
        exact (if_neg hmem).symm
    · simp [wbPut, Shape.put, Wb.shape, hroom]

theorem shape_padLoop (mem : Realloc) (w : Wb) (align k : ℕ) :
    (padLoop mem align k w).shape = w.shape.padLoop mem align k := by
  induction k generalizing w with
  | zero => rfl
  | succ k ih =>
    have hput : (wbU8 mem 0 w).shape = w.shape.put mem 1 := shape_put [0]
    rw [padLoop, Shape.padLoop, ← hput]
    by_cases hmod : w.b.length % align = 0
    · simp [hmod]
    · by_cases hoom : (wbU8 mem 0 w).oom = true
      · simp only [shape_len, hmod, if_false, hoom, shape_oom, if_true]
        rfl
      · simp [hmod, hoom, ih]

@[simp] theorem shape_pad (align : ℕ) : (wbPad mem align w).shape = w.shape.pad mem align := by
  have hloop := shape_padLoop mem w align align
  unfold wbPad Shape.pad
  rw [← hloop]
  rfl

theorem shape_str (s : CStr) : (wbStr mem s w).shape = runOps mem (strOps s) w.shape := by
  unfold wbStr strOps
  split_ifs
  · rfl
  · simp [runOps, Op.run, wbU8, wbU32]

theorem shape_sig (sig : CStr) : (wbSig mem sig w).shape = runOps mem (sigOps sig) w.shape := by
  unfold wbSig sigOps
  split_ifs
  · rfl
  · simp [runOps, Op.run, wbU8]

theorem shape_bodyAddArg (mem : Realloc) (w : Wb) {a : Arg} (h : a.known = true) :
    ∃ w', bodyAddArg mem w a = some w' ∧ w'.shape = runOps mem (argOps a) w.shape := by
  cases a with
  | s s => exact ⟨_, rfl, by simp [shape_str, argOps, runOps, Op.run]⟩
  | d bits => exact ⟨_, rfl, by simp [argOps, runOps, Op.run, wbU64]⟩
  | u u => exact ⟨_, rfl, by simp [argOps, runOps, Op.run, wbU32]⟩
  | other type => cases h

theorem shape_hdrField {val : CStr → Wb → Wb} {ops : List Op} {data : CStr} (code sig : UInt8)
    (hval : ∀ w, (val data w).shape = runOps mem ops w.shape) :
    (hdrField mem code sig val data w).shape =
      runOps mem (fieldOps (decide (sig = 0x6F ∨ sig = 0x73 ∨ sig = 0x75)) ops) w.shape := by
  unfold hdrField
  by_cases h : sig = 0x6F ∨ sig = 0x73 ∨ sig = 0x75
  · simp [hval, h, fieldOps, runOps, Op.run, wbU8]
  · simp [hval, h, fieldOps, runOps, Op.run, wbU8]

theorem shape_headerStart (bodyLen serial : UInt32) :
    (headerStart mem bodyLen serial).shape = runOps mem startOps .zero := by
  simp [headerStart, startOps, runOps, Op.run, wbU8, wbU32]
  rfl

theorem shape_headerFieldsOf (dest path iface member sig : CStr) :
    (headerFieldsOf mem dest path iface member sig w).shape =
      runOps mem (fieldsOps dest path iface member sig) w.shape := by
  have hfield : ∀ (w : Wb) (code sig : UInt8) (data : CStr), sig = 0x6F ∨ sig = 0x73 →
      (hdrField mem code sig (wbStr mem) data w).shape =
        runOps mem (fieldOps true (strOps data)) w.shape := by
    intro w code sig data hsig
    rw [shape_hdrField code sig fun w => shape_str data]
    rcases hsig with rfl | rfl <;> rfl
  have hlast : ∀ w : Wb, (hdrField mem 8 0x67 (wbSig mem) sig w).shape =
      runOps mem (fieldOps false (sigOps sig)) w.shape := fun w =>
    shape_hdrField 8 0x67 fun w => shape_sig sig
  -- four fields are always there, the signature only where there is one
  have hfirst : runOps mem (fieldsOps dest path iface member sig) w.shape =
      runOps mem (if sig = .empty then [] else fieldOps false (sigOps sig))
        (hdrField mem 6 0x73 (wbStr mem) dest (hdrField mem 3 0x73 (wbStr mem) member
          (hdrField mem 2 0x73 (wbStr mem) iface
            (hdrField mem 1 0x6F (wbStr mem) path (wbU32 mem 0 w))))).shape := by
    rw [hfield _ 6 0x73 dest (.inr rfl), hfield _ 3 0x73 member (.inr rfl),
      hfield _ 2 0x73 iface (.inr rfl), hfield _ 1 0x6F path (.inl rfl), fieldsOps,
      ← List.singleton_append, runOps_append, runOps_append, runOps_append, runOps_append,
      runOps_append]
    simp [wbU32, runOps, Op.run]
  rw [hfirst]
  unfold headerFieldsOf
  simp only
  split_ifs
  · rfl
  · rw [hlast]

/-- A loop that does not end is not left. -/
theorem stuck_put (s : Shape) (n : ℕ) : (s.put mem n).stuck = s.stuck := by
  cases h : s.oom with
  | true => rw [put_of_oom h]
  | false => exact (put_cases mem h n).1

theorem stuck_padLoop {s : Shape} (h : s.stuck = true) (align k : ℕ) :
    (s.padLoop mem align k).stuck = true := by
  induction k generalizing s with
  | zero => exact h
  | succ k ih =>
    rw [Shape.padLoop]
    split_ifs
    · exact h
    · simp only
      split_ifs
      · rfl
      · exact ih ((stuck_put s 1).trans h)

theorem stuck_runOps {s : Shape} (h : s.stuck = true) (ops : List Op) :
    (runOps mem ops s).stuck = true := by
  induction ops generalizing s with
  | nil => exact h
  | cons op ops ih =>
    refine ih ?_
    cases op with
    | put n => exact (stuck_put s n).trans h
    | pad align => exact stuck_padLoop h align align
    | refuse => exact h

/-- A buffer that is there stays. -/
theorem cap_put {s : Shape} (h : s.cap ≠ 0) (n : ℕ) : (s.put mem n).cap ≠ 0 := by
  unfold Shape.put
  simp only [h, if_false]
  split_ifs
  · exact h
  · exact growTo_ne_zero h
  · exact h
  · exact h

theorem cap_padLoop {s : Shape} (h : s.cap ≠ 0) (align k : ℕ) : (s.padLoop mem align k).cap ≠ 0 := by
  induction k generalizing s with
  | zero => exact h
  | succ k ih =>
    rw [Shape.padLoop]
    split_ifs
    · exact h
    · simp only
      split_ifs
      · exact cap_put h 1
      · exact ih (cap_put h 1)

theorem cap_runOps {s : Shape} (ops : List Op) (h : s.cap ≠ 0) : (runOps mem ops s).cap ≠ 0 := by
  induction ops generalizing s with
  | nil => exact h
  | cons op ops ih =>
    refine ih ?_
    cases op with
    | put n => exact cap_put h n
    | pad align => exact cap_padLoop h align align
    | refuse => exact h

theorem stuck_foldlM (h : w.stuck = true) (args : List Arg) :
    ∃ w', args.foldlM (bodyAddArg mem) w = some w' ∧ w'.stuck = true := by
  induction args generalizing w with
  | nil => exact ⟨w, rfl, h⟩
  | cons a args ih =>
    rw [List.foldlM_cons]
    cases hknown : a.known with
    | true =>
      obtain ⟨w₁, hstep, hshape⟩ := shape_bodyAddArg mem w hknown
      have hstuck : w₁.shape.stuck = true := hshape ▸ stuck_runOps h (argOps a)
      rw [hstep]
      exact ih hstuck
    | false =>
      cases a with
      | other type =>
        have hstep : bodyAddArg mem w (.other type) = some w := by simp [bodyAddArg, h]
        rw [hstep]
        exact ih h
      | s | d | u => cases hknown

/-- The body: a loop without an end, all its writes, or an argument of an unknown type. -/
theorem foldlM_cases (mem : Realloc) (w : Wb) (args : List Arg) :
    if (runOps mem (bodyOps args) w.shape).stuck = true then
      ∃ w', args.foldlM (bodyAddArg mem) w = some w' ∧ w'.stuck = true
    else if args.all Arg.known = true then
      ∃ w', args.foldlM (bodyAddArg mem) w = some w' ∧ w'.shape = runOps mem (bodyOps args) w.shape
    else args.foldlM (bodyAddArg mem) w = none := by
  induction args generalizing w with
  | nil =>
    have hnil : runOps mem (bodyOps []) w.shape = w.shape := rfl
    rw [hnil]
    split_ifs with hstuck
    · exact ⟨w, rfl, hstuck⟩
    · exact ⟨w, rfl, rfl⟩
    · contradiction
  | cons a args ih =>
    rw [List.foldlM_cons]
    cases hknown : a.known with
    | true =>
      obtain ⟨w₁, hstep, hshape⟩ := shape_bodyAddArg mem w hknown
      have hops : bodyOps (a :: args) = argOps a ++ bodyOps args := by simp [bodyOps, hknown]
      rw [hstep, hops, runOps_append, ← hshape, List.all_cons, hknown, Bool.true_and]
      exact ih w₁
    -- an argument of an unknown type ends the body, unless it is stuck already
    | false =>
      have hops : bodyOps (a :: args) = [] := by simp [bodyOps, hknown]
      have hnil : runOps mem [] w.shape = w.shape := rfl
      cases a with
      | other type =>
        rw [hops, hnil, List.all_cons, hknown, Bool.false_and]
        split_ifs with hstuck h
        · rw [shape_stuck] at hstuck
          have hstep : bodyAddArg mem w (.other type) = some w := by simp [bodyAddArg, hstuck]
          rw [hstep]
          exact stuck_foldlM hstuck args
        · cases h
        · have hstep : bodyAddArg mem w (.other type) = none := by
            rw [shape_stuck] at hstuck
            simp [bodyAddArg, hstuck]
          rw [hstep]
          rfl
      | s | d | u => cases hknown

theorem proper_argOps (a : Arg) : ∀ op ∈ argOps a, op.Proper := by
  cases a with
  | s s =>
    simp only [argOps, strOps]
    split_ifs <;> simp [Op.Proper]
  | d | u | other => simp [argOps, Op.Proper]

theorem proper_bodyOps (args : List Arg) : ∀ op ∈ bodyOps args, op.Proper := by
  intro op hop
  obtain ⟨a, -, ha⟩ := List.mem_flatMap.mp hop
  exact proper_argOps a op ha

theorem proper_hdrOps (dest path iface member sig : CStr) :
    ∀ op ∈ hdrOps dest path iface member sig, op.Proper := by
  have hstr : ∀ s, ∀ op ∈ strOps s, op.Proper := by
    intro s
    unfold strOps
    split_ifs <;> simp [Op.Proper]
  have hsig : ∀ op ∈ sigOps sig, op.Proper := by
    unfold sigOps
    split_ifs <;> simp [Op.Proper]
  have hfield : ∀ (aligned : Bool) (val : List Op), (∀ op ∈ val, op.Proper) →
      ∀ op ∈ fieldOps aligned val, op.Proper := by
    intro aligned val hval
    unfold fieldOps
    refine List.forall_mem_append.mpr ⟨List.forall_mem_append.mpr ⟨by simp [Op.Proper], ?_⟩, hval⟩
    split_ifs <;> simp [Op.Proper]
  unfold hdrOps startOps fieldsOps
  simp only [List.forall_mem_append, List.forall_mem_cons]
  refine ⟨⟨by simp [Op.Proper], trivial, ⟨⟨⟨hfield _ _ (hstr path), hfield _ _ (hstr iface)⟩,
    hfield _ _ (hstr member)⟩, hfield _ _ (hstr dest)⟩, ?_⟩, by simp [Op.Proper]⟩
  split_ifs
  · simp
  · exact hfield _ _ hsig

/-- The first write of a run needs an allocation; without it the buffer stays a null pointer. -/
theorem cap_eq_zero_iff (mem : Realloc) {ops : List Op} (hops : ∀ op ∈ ops, op.Proper) :
    (runOps mem (.put 1 :: ops) .zero).cap = 0 ↔ mem 128 = false := by
  have hrun : runOps mem (.put 1 :: ops) .zero = runOps mem ops (Shape.zero.put mem 1) := rfl
  have hfirst : Shape.zero.put mem 1 =
      if mem 128 = true then ⟨1, 128, 1, false, false⟩ else ⟨0, 0, 0, true, false⟩ := rfl
  rw [hrun, hfirst]
  cases hmem : mem 128 with
  | true => simpa using cap_runOps ops (s := ⟨1, 128, 1, false, false⟩) (by decide)
  | false => simpa using (runOps_of_oom mem (s := ⟨0, 0, 0, true, false⟩) rfl hops).2.1

theorem length_patchU32 {b : Bytes} {pos : ℕ} (h : pos + 4 ≤ b.length) (n : ℕ) :
    (patchU32 b pos n).length = b.length := by
  simp only [patchU32, List.length_append, List.length_take, List.length_drop, List.length_cons,
    List.length_nil]
  omega

/-- The end of a call, by the shapes of header and body. -/
theorem finishCall_shape {mem : Memory} {pos : ℕ} {hdr body : Wb} {s : Shape}
    (hs : runOps mem.hdr [.pad 8] hdr.shape = s) (hbody : body.stuck = false) (hcap : hdr.cap ≠ 0)
    (hlen : pos + 4 ≤ hdr.b.length) : ∃ msg, finishCall mem pos hdr body =
      if s.stuck then .hangs
      else if s.oom ∨ body.oom ∨ maxMessage < s.len + body.nodepad ∨ mem.msg = false then .failed
      else .message msg := by
  set hdr' : Wb := wbPad mem.hdr 8 { hdr with b := patchU32 hdr.b pos (hdr.nodepad - pos - 4) }
    with hdef
  have hpatch : Wb.shape { hdr with b := patchU32 hdr.b pos (hdr.nodepad - pos - 4) } = hdr.shape :=
    Shape.ext (length_patchU32 hlen _) rfl rfl rfl rfl
  have hshape : hdr'.shape = s := by
    rw [hdef, shape_pad, hpatch, ← hs]
    rfl
  refine ⟨hdr'.b ++ body.b.take body.nodepad, ?_⟩
  subst hshape
  simp only [finishCall, hbody, Bool.false_eq_true, if_false, hcap, ← hdef, shape_stuck, shape_oom,
    shape_len, gt_iff_lt, Bool.not_eq_true]
  congr

end

/-! ## When a call is built -/

section

variable (mem : Memory) (serial : UInt32) (dest path iface member sig : CStr) (args : List Arg)

/-- A write of the call fails, or its message would be too long. -/
def GoesWrong : Prop :=
  firstFailure mem.body (bodyOps args) .zero ≠ none ∨
    args.all Arg.known = true ∧
      (firstFailure mem.hdr (hdrOps dest path iface member sig) .zero ≠ none ∨
        maxMessage < (runOps mem.hdr (hdrOps dest path iface member sig) .zero).len +
          (runOps mem.body (bodyOps args) .zero).nodepad ∨
        mem.msg = false)

/-- The call is built or refused, and it is refused when a write fails or the message is too long. -/
def Returns : Prop :=
  buildCall mem serial dest path iface member sig args ≠ .hangs ∧
    buildCall mem serial dest path iface member sig args ≠ .crashes ∧
    (GoesWrong mem dest path iface member sig (args.take sig.val.length) →
      buildCall mem serial dest path iface member sig args = .failed)

/-- The header is built if its first allocation succeeds and it settles. -/
theorem buildCall_of_known {body : Wb} (hbody : bodyOf mem.body (args.take sig.val.length) = some body)
    (hstuck : body.stuck = false) :
    (mem.hdr 128 = false → buildCall mem serial dest path iface member sig args = .crashes) ∧
      (mem.hdr 128 = true → ∃ msg, buildCall mem serial dest path iface member sig args =
        let s := runOps mem.hdr (hdrOps dest path iface member sig) .zero
        if s.stuck then .hangs
        else if s.oom ∨ body.oom ∨ maxMessage < s.len + body.nodepad ∨ mem.msg = false then .failed
        else .message msg) := by
  set start := headerStart mem.hdr (.ofNat body.nodepad) serial with hstart
  set hdr := headerFieldsOf mem.hdr dest path iface member sig start with hhdr
  have hcall : buildCall mem serial dest path iface member sig args =
      finishCall mem start.b.length hdr body := by
    rw [buildCall, hbody]
  have hshape : hdr.shape = runOps mem.hdr (startOps ++ fieldsOps dest path iface member sig) .zero := by
    rw [hhdr, shape_headerFieldsOf, hstart, shape_headerStart, runOps_append]
  have hproper : ∀ op ∈ startOps ++ fieldsOps dest path iface member sig, op.Proper := fun op hop =>
    proper_hdrOps dest path iface member sig op (List.mem_append_left _ hop)
  have hcap : hdr.cap = 0 ↔ mem.hdr 128 = false := by
    rw [← shape_cap, hshape]
    exact cap_eq_zero_iff mem.hdr fun op hop => hproper op (List.mem_cons_of_mem _ hop)
  rw [hcall]
  constructor
  · intro hmem
    simp [finishCall, hstuck, hcap.mpr hmem]
  · intro hmem
    -- The length of the fields has its place once the buffer is there.
    have hpos : start.shape = ⟨12, 128, 12, false, false⟩ := by
      rw [hstart, shape_headerStart]
      simp [startOps, runOps, Op.run, Shape.put, Shape.zero, growTo, hmem]
    have hfour : (start.shape.put mem.hdr 4).len = start.shape.len + 4 := by
      simp [hpos, Shape.put]
    have hlen : start.b.length + 4 ≤ hdr.b.length := by
      rw [← shape_len, ← shape_len, hshape, runOps_append, ← shape_headerStart (.ofNat body.nodepad) serial,
        ← hstart, ← hfour]
      exact le_runOps mem.hdr _ _
    refine finishCall_shape ?_ hstuck (fun hzero => ?_) hlen
    · rw [hshape, ← runOps_append, hdrOps]
    · simp [hcap.mp hzero] at hmem

/-- `build_call` returns as it should if and only if every failure comes at a length that fits the
paddings still to come, and the first allocation of the header succeeds. -/
theorem returns_iff : Returns mem serial dest path iface member sig args ↔
    Settles mem.body (bodyOps (args.take sig.val.length)) ∧
      ((args.take sig.val.length).all Arg.known = true →
        mem.hdr 128 = true ∧ Settles mem.hdr (hdrOps dest path iface member sig)) := by
  have hbody := foldlM_cases mem.body .zero (args.take sig.val.length)
  have hzero : Wb.zero.shape = .zero := rfl
  have hstuckB := stuck_runOps_iff mem.body (proper_bodyOps (args.take sig.val.length))
  have hstuckH := stuck_runOps_iff mem.hdr (proper_hdrOps dest path iface member sig)
  have hoomB := oom_runOps_iff mem.body (proper_bodyOps (args.take sig.val.length))
  have hoomH := oom_runOps_iff mem.hdr (proper_hdrOps dest path iface member sig)
  rw [hzero] at hbody
  unfold Returns GoesWrong
  split_ifs at hbody with hstuck hknown
  · -- A padding of the body does not end.
    obtain ⟨w, hfold, hw⟩ := hbody
    have hcall : buildCall mem serial dest path iface member sig args = .hangs := by
      rw [buildCall, bodyOf, hfold]
      simp [finishCall, hw]
    have hnot := hstuckB.mp hstuck
    simp [hcall, hnot]
  -- every argument is known and the body was written
  · obtain ⟨w, hfold, hw⟩ := hbody
    have hwstuck : w.stuck = false := by
      rw [← shape_stuck, hw]
      simpa using hstuck
    have hsettles : Settles mem.body (bodyOps (args.take sig.val.length)) := by
      by_contra hnot
      exact hstuck (hstuckB.mpr hnot)
    obtain ⟨hcrash, hcall⟩ := buildCall_of_known mem serial dest path iface member sig args hfold hwstuck
    rw [← hoomB, ← hw, ← hoomH]
    cases hmem : mem.hdr 128 with
    | false => simp [hcrash hmem, hknown]
    | true =>
      obtain ⟨msg, hcall⟩ := hcall hmem
      rw [hcall]
      -- the same question for the header
      by_cases hs : (runOps mem.hdr (hdrOps dest path iface member sig) .zero).stuck = true
      · simp [hs, hknown, hstuckH.mp hs]
      · have hsettlesH : Settles mem.hdr (hdrOps dest path iface member sig) := by
          by_contra hnot
          exact hs (hstuckH.mpr hnot)
        refine iff_of_true ?_ ⟨hsettles, fun _ => ⟨rfl, hsettlesH⟩⟩
        simp only [if_neg hs]
        refine ⟨by split_ifs <;> simp, by split_ifs <;> simp, fun hwrong => if_pos ?_⟩
        rcases hwrong with hoom | ⟨-, hoom | hlong | hmsg⟩
        · exact .inr (.inl hoom)
        · exact .inl hoom
        · exact .inr (.inr (.inl hlong))
        · exact .inr (.inr (.inr hmsg))
  · -- An argument of an unknown type is refused before the header.
    have hcall : buildCall mem serial dest path iface member sig args = .failed := by
      rw [buildCall, bodyOf, hbody]
    have hsettles : Settles mem.body (bodyOps (args.take sig.val.length)) := by
      by_contra hnot
      exact hstuck (hstuckB.mpr hnot)
    simp [hcall, hsettles, hknown]

end

/-- A string that the buffer has no room for, before a number that is padded to eight bytes. -/
theorem longStringFirst_not_returns :
    ¬ ∀ mem serial dest path iface member sig args,
      Returns mem serial dest path iface member sig args := by
  intro h
  have hhangs : buildCall ⟨fun _ => true, fun n => decide (n ≤ 128), true⟩ 1 (.lit "a.b") (.lit "/a")
      (.lit "a.b") (.lit "M") (.lit "sd") [.s (.ofBuffer (List.replicate 130 0x61)), .d 0] =
        .hangs := by
    decide +kernel
  exact (h _ _ _ _ _ _ _ _).1 hhangs

end DBus
