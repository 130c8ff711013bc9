import LgMagic.Daemon.PolkitReply
import LgMagic.Lib.Printf

/-!
# The start time of a process

A process chooses its name, and the name stands in the `stat` file that the start time is read from.
Whatever the name is, the start time is field 22 of the line, and it is the one that polkit is asked
with.

* `StatLine`, `StatLine.render`: the line as the kernel writes it;
* `statStarttime_render`: what is read of a line;
* `readPidStarttime_line`: every run of the reader, and of the authorization.
-/

namespace Daemon

open CString Posix Printf Prog

/-! ## The line -/

/-- What the kernel writes about a process. The name is anything, and the fields from the fourth on
are any numbers, of which field 22 has 64 bits, with or without a sign. -/
structure StatLine where
  pid : ℕ
  comm : CStr
  state : UInt8
  numbers : List ℤ
  starttime : BitVec 64
  state_ne : state ≠ 0 ∧ state ≠ 0x29
  starttime_eq : numbers[22 - 4]? = some (starttime.toNat : ℤ) ∨
    numbers[22 - 4]? = some starttime.toInt

/-- Numbers with a space before each of them. -/
def spaced (numbers : List ℤ) : Bytes := numbers.flatMap fun i => 0x20 :: printInt i

/-- The line. -/
def StatLine.render (l : StatLine) : Bytes :=
  printInt l.pid ++ ascii " (" ++ l.comm.val ++ ascii ") " ++ [l.state] ++ spaced l.numbers ++
    ascii "\n"

/-! ## Numbers -/

/-- What `strtoull` makes of a number. -/
def ullOf (i : ℤ) : ℕ := if 2 ^ 64 ≤ i.natAbs then 2 ^ 64 - 1 else (i % 2 ^ 64).toNat

theorem ullOf_toNat (b : BitVec 64) : ullOf b.toNat = b.toNat := by
  have hlt := b.isLt
  rw [ullOf, Int.natAbs_natCast, if_neg (not_le.mpr hlt)]
  omega

theorem ullOf_toInt (b : BitVec 64) : ullOf b.toInt = b.toNat := by
  have hlt := b.isLt
  rw [BitVec.toInt_eq_toNat_cond, ullOf]
  split_ifs <;> omega

/-- White space before a number is skipped. -/
theorem strtoull_space (s : Bytes) : strtoull (0x20 :: s) = strtoull s := by
  have hspace : isSpace 0x20 = true := by decide
  simp only [strtoull, List.dropWhile_cons_of_pos hspace]

/-- The sign is taken as by the other readers of numbers. -/
theorem strtoull_eq_takeSign (s : Bytes) : strtoull s =
    let (neg, t) := takeSign (s.dropWhile isSpace)
    let n := natOfDigits ((t.takeWhile isDigit).map digitVal)
    if t.takeWhile isDigit = [] then none
    else some (if 2 ^ 64 ≤ n then 2 ^ 64 - 1 else if neg then (2 ^ 64 - n) % 2 ^ 64 else n,
      t.dropWhile isDigit) := by
  have hfold (ds : Bytes) :
      ds.foldl (fun n c => 10 * n + (c.toNat - 0x30)) 0 = natOfDigits (ds.map digitVal) := by
    rw [natOfDigits, List.foldl_map]
    rfl
  unfold strtoull
  generalize s.dropWhile isSpace = s
  simp only [hfold]
  cases s with
  | nil => rfl
  | cons c cs =>
    -- a minus, a plus, or the first byte of the number
    by_cases hminus : c = 0x2D
    · simp [takeSign, hminus]
    by_cases hplus : c = 0x2B
    · simp [takeSign, hplus]
    · simp [takeSign, hminus, hplus]

/-- A printed number is read, whatever other text follows it. -/
theorem strtoull_printInt (i : ℤ) {t : Bytes} (ht : NoDigit t) :
    strtoull (printInt i ++ t) = some (ullOf i, t) := by
  have hds : ∀ d ∈ decDigits i.natAbs, d < 10 := fun d => decDigits_lt
  have hne := decDigits_ne_nil i.natAbs
  have hneg : (if i < 0 then [(0x2D : UInt8)] else []) = if decide (i < 0) then [0x2D] else [] := by
    simp
  obtain ⟨htake, hdrop⟩ := takeWhile_digits hds ht
  rw [strtoull_eq_takeSign, printInt, hneg, dropWhile_isSpace_render _ hds hne,
    takeSign_render _ hds hne]
  simp only [htake, hdrop, map_digitVal_digitByte hds, natOfDigits_decDigits, List.map_eq_nil_iff,
    hne, if_false, ullOf, decide_eq_true_eq, Option.some.injEq, Prod.mk.injEq, and_true]
  split_ifs <;> omega

theorem strtoullFields_space (n last : ℕ) (s : Bytes) :
    strtoullFields (n + 1) last (0x20 :: s) = strtoullFields (n + 1) last s := by
  rw [strtoullFields, strtoullFields, strtoull_space]

theorem noDigit_spaced (numbers : List ℤ) {t : Bytes} (ht : NoDigit t) :
    NoDigit (spaced numbers ++ t) := by
  cases numbers with
  | nil => exact ht
  | cons i numbers => exact noDigit_cons (by decide)

/-- The loop ends at the number with its own count. -/
theorem strtoullFields_spaced {numbers : List ℤ} {k : ℕ} {i : ℤ} (hi : numbers[k]? = some i)
    {t : Bytes} (ht : NoDigit t) (last : ℕ) :
    strtoullFields (k + 1) last (spaced numbers ++ t) = some (ullOf i) := by
  have hread (j : ℤ) (numbers : List ℤ) : strtoull (spaced (j :: numbers) ++ t) =
      some (ullOf j, spaced numbers ++ t) := by
    rw [spaced, List.flatMap_cons, List.append_assoc, List.cons_append, strtoull_space]
    exact strtoull_printInt j (noDigit_spaced numbers ht)
  -- along the count, with the numbers that are left
  induction k generalizing numbers last with
  | zero =>
    cases numbers with
    | nil => simp at hi
    | cons j numbers =>
      obtain rfl : j = i := by simpa using hi
      rw [strtoullFields, hread]
      rfl
  | succ k ih =>
    cases numbers with
    | nil => simp at hi
    | cons j numbers =>
      rw [strtoullFields, hread]
      exact ih (by simpa using hi) (ullOf j)

/-! ## The last parenthesis -/

/-- Nothing after the last parenthesis is missed, and nothing before it matters. -/
theorem takeWhile_reverse_append {t : Bytes} (ht : (0x29 : UInt8) ∉ t) (s : Bytes) :
    ((s ++ 0x29 :: t).reverse.takeWhile (· != 0x29)).reverse = t := by
  have hpos : ∀ c ∈ t.reverse, (c != 0x29) = true := by
    intro c hc
    simpa using fun h : c = 0x29 => ht (h ▸ List.mem_reverse.mp hc)
  rw [List.reverse_append, List.reverse_cons, List.append_assoc,
    List.takeWhile_append_of_pos hpos]
  simp

theorem notMem_spaced {c : UInt8} (hc : c ≠ 0x20) (hd : isDigit c = false) (hm : c ∉ numMarks)
    (numbers : List ℤ) : c ∉ spaced numbers := by
  rintro h
  obtain ⟨i, -, h⟩ := List.mem_flatMap.mp h
  exact (List.mem_cons.mp h).elim hc (notMem_printInt hd hm i)

namespace StatLine

variable (l : StatLine)

/-- What follows the parenthesis after the name. -/
def afterName : Bytes := 0x20 :: l.state :: (spaced l.numbers ++ ascii "\n")

theorem render_eq :
    l.render = (printInt l.pid ++ ascii " (" ++ l.comm.val) ++ 0x29 :: l.afterName := by
  simp [render, afterName, ascii]

theorem notMem_afterName : (0x29 : UInt8) ∉ l.afterName := by
  have hspaced := notMem_spaced (c := 0x29) (by decide) (by decide) (by decide) l.numbers
  simp [afterName, hspaced, l.state_ne.2.symm, ascii]

theorem zero_notMem_render : (0 : UInt8) ∉ l.render := by
  have hspaced := notMem_spaced (c := 0) (by decide) (by decide) (by decide) l.numbers
  have hpid := zero_notMem_printInt l.pid
  simp [render, hpid, l.comm.property, hspaced, l.state_ne.1.symm, ascii]

end StatLine

/-- What is read of a line is its field 22, whatever the name is. -/
theorem statStarttime_render (l : StatLine) :
    statStarttime l.render = some l.starttime.toNat := by
  have hbuf : (CStr.ofBuffer l.render).val = l.render := CStr.val_ofBuffer l.zero_notMem_render
  have hmem : (0x29 : UInt8) ∈ l.render := by
    rw [l.render_eq]
    exact List.mem_append_right _ List.mem_cons_self
  have hafter : (l.render.reverse.takeWhile (· != 0x29)).reverse = l.afterName := by
    rw [l.render_eq]
    exact takeWhile_reverse_append l.notMem_afterName _
  -- the loop starts behind the space, which it would have skipped
  have hspaced : strtoullFields 19 0 (l.afterName.drop 3) =
      strtoullFields 19 0 (spaced l.numbers ++ ascii "\n") := by
    cases hnum : l.numbers with
    | nil => simpa [hnum] using l.starttime_eq
    | cons i numbers =>
      rw [StatLine.afterName, hnum]
      exact (strtoullFields_space 18 0 _).symm
  unfold statStarttime
  dsimp only
  rw [hbuf, if_pos hmem, hafter, if_pos (by rfl), hspaced]
  -- the newline ends the last number
  have hend : NoDigit (ascii "\n") := noDigit_cons (by decide)
  rcases l.starttime_eq with h | h
  · rw [strtoullFields_spaced h hend, ullOf_toNat]
  · rw [strtoullFields_spaced h hend, ullOf_toInt]

/-! ## Runs -/

/-- A file that was read, and what it holds. -/
def fileOf : Event BusCall BusAnswer → Option (CStr × Bytes)
  | ⟨.readProc path, r⟩ => (r : Option Bytes).map (path, ·)
  | _ => none

/-- The process and the start time of a question to polkit. -/
def subjectOf : Event BusCall BusAnswer → Option (ℕ × ℕ)
  | ⟨.checkAuthorization pid starttime _ _, _⟩ => some (pid, starttime)
  | _ => none

/-- The result is what the file of the process says. -/
theorem wp_readPidStarttime (pid : ℕ) (fs : Fs) :
    (readPidStarttime pid).wp busMachine (fun _ _ => True)
      (fun r tr _ => ∀ f ∈ tr.filterMap fileOf, f.1 = statPath pid ∧ r = statStarttime f.2)
      [] fs := by
  refine ⟨trivial, fun r fs' _ => ?_⟩
  rcases (r : Option Bytes) with - | - | ⟨c, cs⟩
  · exact ⟨trivial, by simp [fileOf]⟩
  · have hnil : statStarttime [] = none := rfl
    exact ⟨trivial, by simp [fileOf, hnil]⟩
  · exact ⟨trivial, by simp [fileOf]⟩

/-- If the file of a process was read, polkit was asked about that process and with what the file
says. -/
def AsksAsRead (tr : List (Event BusCall BusAnswer)) : Prop :=
  ∀ f ∈ tr.filterMap fileOf, ∀ q ∈ tr.filterMap subjectOf,
    f.1 = statPath q.1 ∧ statStarttime f.2 = some q.2

variable {action : CStr} {tr : List (Event BusCall BusAnswer)} {fs : Fs}

theorem asksAsRead_of_unasked (h : tr.filterMap subjectOf = []) : AsksAsRead tr := by
  intro f _ q hq
  rw [h] at hq
  cases hq

/-- The question, after the file. -/
theorem wp_checkAuthorization_asRead {pid starttime uid : ℕ}
    (hask : tr.filterMap subjectOf = [])
    (hread : ∀ f ∈ tr.filterMap fileOf, f.1 = statPath pid ∧ statStarttime f.2 = some starttime) :
    (checkAuthorization pid starttime uid action).wp busMachine (fun tr _ => AsksAsRead tr)
      (fun _ _ _ => True) tr fs := by
  refine ⟨asksAsRead_of_unasked hask, fun r fs' _ => ?_⟩
  have hasks : AsksAsRead (tr ++ [⟨.checkAuthorization pid starttime uid action, r⟩]) := by
    intro f hf q hq
    -- it is the only question so far
    obtain rfl : q = (pid, starttime) := by simpa [hask, subjectOf] using hq
    exact hread f (by simpa [fileOf] using hf)
  match r with
  | none => exact ⟨hasks, trivial⟩
  | some answer =>
    simp only [Prog.bind]
    split
    · exact ⟨hasks, trivial⟩
    · exact ⟨hasks, trivial⟩

theorem wp_polkitAuthorized_asRead (sender action : CStr) (fs : Fs) :
    (polkitAuthorized sender action).wp busMachine (fun tr _ => AsksAsRead tr)
      (fun _ _ _ => True) [] fs := by
  refine ⟨asksAsRead_of_unasked rfl, fun r fs' _ => ?_⟩
  cases (r : Option Message) with
  | none => exact ⟨asksAsRead_of_unasked rfl, trivial⟩
  | some reply =>
    simp only [Prog.bind, List.nil_append]
    split
    · next uid pid starttime hcreds =>
      split_ifs with hroot
      · exact ⟨asksAsRead_of_unasked rfl, trivial⟩
      · cases starttime with
        | some starttime => exact wp_checkAuthorization_asRead rfl (by simp [fileOf])
        | none =>
          -- the start time is read from procfs
          refine ⟨asksAsRead_of_unasked rfl, fun r fs'' _ => ?_⟩
          rcases (r : Option Bytes) with - | - | ⟨c, cs⟩
          · exact ⟨asksAsRead_of_unasked rfl, trivial⟩
          · exact ⟨asksAsRead_of_unasked rfl, trivial⟩
          · simp only [Prog.bind]
            cases hstart : statStarttime (c :: cs) with
            | none => exact ⟨asksAsRead_of_unasked rfl, trivial⟩
            | some starttime => exact wp_checkAuthorization_asRead rfl (by simp [fileOf, hstart])
    · exact ⟨asksAsRead_of_unasked rfl, trivial⟩

/-- Every run of the reader that is answered a whole line gives its field 22, and every run of the
authorization that is answered one asks polkit about that process and with its field 22. -/
theorem readPidStarttime_line (l : StatLine) (hlen : l.render.length ≤ 1023) :
    (∀ pid fs tr r fs', Run busMachine (readPidStarttime pid) fs tr (some r) fs' →
      ∀ path, ⟨.readProc path, (some (l.render.take 1023) : Option Bytes)⟩ ∈ tr →
        path = statPath pid ∧ r = some l.starttime.toNat) ∧
    (∀ sender action fs tr o fs', Run busMachine (polkitAuthorized sender action) fs tr o fs' →
      ∀ path, ⟨.readProc path, (some (l.render.take 1023) : Option Bytes)⟩ ∈ tr →
        ∀ pid starttime uid action' r,
          ⟨.checkAuthorization pid starttime uid action', r⟩ ∈ tr →
            path = statPath pid ∧ starttime = l.starttime.toNat) := by
  -- the buffer holds the whole line
  rw [List.take_of_length_le hlen]
  constructor
  · intro pid fs tr r fs' hrun path hpath
    have hends := (hrun.of_wp (wp_readPidStarttime pid fs)).2
    rw [← statStarttime_render l]
    exact hends (path, l.render) (List.mem_filterMap.mpr ⟨_, hpath, rfl⟩)
  · intro sender action fs tr o fs' hrun path hpath pid starttime uid action' r hr
    have hasks : AsksAsRead tr := by
      have hends := hrun.of_wp (wp_polkitAuthorized_asRead sender action fs)
      cases o with
      | some a => exact hends.1
      | none => exact hends.choose_spec.1
    obtain ⟨hpid, hstart⟩ := hasks (path, l.render) (List.mem_filterMap.mpr ⟨_, hpath, rfl⟩)
      (pid, starttime) (List.mem_filterMap.mpr ⟨_, hr, rfl⟩)
    rw [statStarttime_render l] at hstart
    exact ⟨hpid, (Option.some.inj hstart).symm⟩

/-- A name that imitates the fields after it. -/
def imitation : StatLine where
  pid := 4242
  comm := .lit "a) S 1 2 -3 (4)"
  state := 0x53
  numbers := [1, 4242, 4242, 34816, -1, 4194560, 120, 0, 0, 0, 3, 1, 0, 0, 20, -5, 1, 0, 5381, 0]
  starttime := 5381
  state_ne := by decide
  starttime_eq := .inl rfl

/-- The broker says that the process is that of a user. -/
def brokerCall : Event BusCall BusAnswer :=
  ⟨.getConnectionCredentials .empty, (some (credentialsReply
    [(uidKey, .num .uint32 1000), (pidKey, .num .uint32 4242)]) : Option Message)⟩

/-- The line of the process is read. -/
def fileRead : Event BusCall BusAnswer :=
  ⟨.readProc (statPath 4242), (some (imitation.render.take 1023) : Option Bytes)⟩

/-- Polkit is asked and does not answer. -/
def question (starttime : ℕ) : Event BusCall BusAnswer :=
  ⟨.checkAuthorization 4242 starttime 1000 .empty, (none : Option Message)⟩

theorem imitation_starttime :
    imitation.render.length ≤ 1023 ∧
    (∃ r, Run busMachine (readPidStarttime 4242) (fun _ => none) [fileRead] (some r)
      (fun _ => none) ∧ r = some 5381) ∧
    ∃ starttime, Run busMachine (polkitAuthorized .empty .empty) (fun _ => none)
      [brokerCall, fileRead, question starttime] (some (-1)) (fun _ => none) ∧
      starttime = 5381 := by
  have hlen : imitation.render.length ≤ 1023 := by decide +kernel
  obtain ⟨hread, hask⟩ := readPidStarttime_line imitation hlen
  obtain ⟨c, cs, hline⟩ : ∃ c cs, imitation.render.take 1023 = c :: cs :=
    List.exists_cons_of_ne_nil (by decide +kernel)
  refine ⟨hlen, ⟨statStarttime (c :: cs), ?_⟩, ?_⟩
  · -- the reader alone
    have hrun : Run busMachine (readPidStarttime 4242) (fun _ => none) [fileRead]
        (some (statStarttime (c :: cs))) (fun _ => none) := by
      rw [fileRead, hline]
      exact .call rfl (.ret _ _)
    exact ⟨hrun, (hread _ _ _ _ _ hrun _ (List.mem_singleton_self fileRead)).2⟩
  · -- the authorization, from the broker to polkit
    have hcreds : readCredentials (credentialsReply
        [(uidKey, .num .uint32 1000), (pidKey, .num .uint32 4242)]) =
        some ⟨some 1000, some 4242, none⟩ := by decide +kernel
    obtain ⟨starttime, hstart⟩ : ∃ t, statStarttime (c :: cs) = some t :=
      Option.isSome_iff_exists.mp (by rw [← hline]; decide +kernel)
    have hrun : Run busMachine (polkitAuthorized .empty .empty) (fun _ => none)
        [brokerCall, fileRead, question starttime] (some (-1)) (fun _ => none) := by
      rw [fileRead, hline]
      refine .call rfl ?_
      simp only [Prog.bind, hcreds, if_neg (show (1000 : ℕ) ≠ 0 by decide)]
      refine .call rfl ?_
      simp only [Prog.bind, hstart]
      exact .call rfl (.ret _ _)
    have hfile : fileRead ∈ [brokerCall, fileRead, question starttime] := by simp
    have hquestion : question starttime ∈ [brokerCall, fileRead, question starttime] := by simp
    exact ⟨starttime, hrun, (hask _ _ _ _ _ _ hrun _ hfile _ _ _ _ _ hquestion).2⟩

end Daemon
