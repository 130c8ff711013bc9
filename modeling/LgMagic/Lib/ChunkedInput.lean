import Mathlib.Data.List.Basic

/-!
# Input in pieces

Loops that use up a buffer and get more input while they are not done. The input comes in pieces of
any sizes, and attempts to read may be interrupted or fail. A loop whose step does not mind where a
buffer is split computes the same from every way of cutting the input into pieces.

* `ReadEvent`, `arriving`, `ending`, `later`, `delivered`: what the attempts to read come to;
* `Progress`, `Splits`: the step of a loop;
* `pull`, `pull_eq_refill`: the loop;
* `pull_of_done`, `pull_of_fail`, `pull_of_more`: the loop on all the input at once;
* `Input.Same`, `pull_congr`: inputs that only differ in their pieces.
-/

namespace ChunkedInput

variable {ε α β σ : Type}

/-- What an attempt to read comes to; a piece is never empty. -/
inductive ReadEvent (ε β : Type)
  | chunk (b : β) (bs : List β)
  | interrupted
  | failed (e : ε)
  deriving DecidableEq

/-- A buffer, and what further attempts to read will come to. -/
structure Input (ε β : Type) where
  buf : List β
  events : List (ReadEvent ε β)
  deriving DecidableEq

/-! ## What is to come -/

/-- The input that arrives before reading fails. -/
def arriving : List (ReadEvent ε β) → List β
  | [] => []
  | .chunk b bs :: evs => b :: bs ++ arriving evs
  | .interrupted :: evs => arriving evs
  | .failed _ :: _ => []

/-- How reading fails in the end; `idle` where nothing comes any more. -/
def ending (idle : ε) : List (ReadEvent ε β) → ε
  | [] => idle
  | .chunk _ _ :: evs | .interrupted :: evs => ending idle evs
  | .failed e :: _ => e

/-- What is left after reading failed. -/
def later : List (ReadEvent ε β) → List (ReadEvent ε β)
  | [] => []
  | .chunk _ _ :: evs | .interrupted :: evs => later evs
  | .failed _ :: evs => evs

/-- All the input that ever arrives, also after failures. -/
def delivered : List (ReadEvent ε β) → List β
  | [] => []
  | .chunk b bs :: evs => b :: bs ++ delivered evs
  | .interrupted :: evs | .failed _ :: evs => delivered evs

namespace Input

/-- The input still to be delivered: what is buffered and what arrives. -/
def pending (i : Input ε β) : List β := i.buf ++ arriving i.events

/-- How reading ends after that. -/
def fault (idle : ε) (i : Input ε β) : ε := ending idle i.events

/-- What is to come after a failure. -/
def after (i : Input ε β) : List (ReadEvent ε β) := later i.events

/-- All the input to come: what is buffered and whatever arrives. -/
def all (i : Input ε β) : List β := i.buf ++ delivered i.events

end Input

theorem delivered_eq (evs : List (ReadEvent ε β)) :
    delivered evs = arriving evs ++ delivered (later evs) := by
  induction evs with
  | nil => rfl
  | cons ev evs ih =>
    cases ev with
    | chunk b bs => rw [delivered, arriving, later, ih, List.append_assoc]
    | interrupted => exact ih
    | failed e => rfl

/-- Before the next failure comes what is pending. -/
theorem Input.all_eq (i : Input ε β) : i.all = i.pending ++ delivered i.after := by
  rw [all, delivered_eq, ← List.append_assoc]
  rfl

/-- More input, with attempts that were interrupted repeated. -/
def refill (idle : ε) : List (ReadEvent ε β) → Except ε (List β) × List (ReadEvent ε β)
  | [] => (.error idle, [])
  | .chunk b bs :: evs => (.ok (b :: bs), evs)
  | .interrupted :: evs => refill idle evs
  | .failed e :: evs => (.error e, evs)

/-! ## Loops -/

/-- What a step makes of a buffer: a result with the rest of the buffer, an error, or, with the whole
buffer used up, another state. -/
inductive Progress (ε α β σ : Type)
  | done (a : α) (rest : List β)
  | fail (e : ε)
  | more (s : σ)

/-- The step does not mind where a buffer is split. -/
structure Splits (step : σ → List β → Progress ε α β σ) : Prop where
  done : ∀ {s xs a rest}, step s xs = .done a rest → ∀ ys, step s (xs ++ ys) = .done a (rest ++ ys)
  fail : ∀ {s xs e}, step s xs = .fail e → ∀ ys, step s (xs ++ ys) = .fail e
  more : ∀ {s xs s'}, step s xs = .more s' → ∀ ys, step s (xs ++ ys) = step s' ys

/-- The loop: a step on the buffer, and while it is not done a step on what is read next. -/
def pull (idle : ε) (step : σ → List β → Progress ε α β σ) (s : σ) (buf : List β) :
    List (ReadEvent ε β) → Except ε α × Input ε β
  | [] =>
    match step s buf with
    | .done a rest => (.ok a, ⟨rest, []⟩)
    | .fail e => (.error e, ⟨buf, []⟩)
    | .more _ => (.error idle, ⟨[], []⟩)
  | ev :: evs =>
    match step s buf with
    | .done a rest => (.ok a, ⟨rest, ev :: evs⟩)
    | .fail e => (.error e, ⟨buf, ev :: evs⟩)
    | .more s' =>
      match ev with
      | .chunk b bs => pull idle step s' (b :: bs) evs
      | .interrupted => pull idle step s' [] evs
      | .failed e => (.error e, ⟨[], evs⟩)

section

variable {idle : ε} {step : σ → List β → Progress ε α β σ} {s s' : σ} {buf rest : List β}
  {evs : List (ReadEvent ε β)} {a : α} {e : ε}

theorem pull_done (h : step s buf = .done a rest) (evs : List (ReadEvent ε β)) :
    pull idle step s buf evs = (.ok a, ⟨rest, evs⟩) := by
  cases evs <;> simp [pull, h]

theorem pull_fail (h : step s buf = .fail e) (evs : List (ReadEvent ε β)) :
    pull idle step s buf evs = (.error e, ⟨buf, evs⟩) := by
  cases evs <;> simp [pull, h]

/-- With nothing in the buffer a step that was not done stays where it is. -/
theorem Splits.step_nil (hs : Splits step) (h : step s buf = .more s') : step s' [] = .more s' := by
  rw [← hs.more h [], List.append_nil, h]

/-- A step that is not done reads more and goes on. -/
theorem pull_eq_refill (hs : Splits step) (h : step s buf = .more s') :
    pull idle step s buf evs =
      match refill idle evs with
      | (.ok xs, evs') => pull idle step s' xs evs'
      | (.error e, evs') => (.error e, ⟨[], evs'⟩) := by
  induction evs generalizing s buf with
  | nil => simp [pull, refill, h]
  | cons ev evs ih =>
    cases ev with
    | chunk b bs => simp [pull, refill, h]
    | failed e => simp [pull, refill, h]
    | interrupted =>
      simp only [pull, h, refill]
      exact ih (hs.step_nil h)

/-! ## All the input at once -/

/-- A result on all the input is the result of the loop. -/
theorem pull_of_done (hs : Splits step) (h : step s (buf ++ arriving evs) = .done a rest) :
    ∃ i : Input ε β, pull idle step s buf evs = (.ok a, i) ∧ i.pending = rest ∧
      i.fault idle = ending idle evs ∧ i.after = later evs := by
  induction evs generalizing s buf with
  | nil =>
    rw [arriving, List.append_nil] at h
    exact ⟨_, pull_done h [], List.append_nil rest, rfl, rfl⟩
  | cons ev evs ih =>
    -- the step on the buffer is done already, or goes on with what comes next
    cases hstep : step s buf with
    | done a' rest' =>
      have hall := hs.done hstep (arriving (ev :: evs))
      rw [h] at hall
      cases hall
      exact ⟨_, pull_done hstep _, rfl, rfl, rfl⟩
    | fail e =>
      rw [hs.fail hstep] at h
      cases h
    | more s' =>
      rw [hs.more hstep] at h
      cases ev with
      | chunk b bs =>
        obtain ⟨i, hpull, hrest⟩ := ih h
        refine ⟨i, ?_, hrest⟩
        simpa only [pull, hstep] using hpull
      | interrupted =>
        have h : step s' ([] ++ arriving evs) = .done a rest := h
        obtain ⟨i, hpull, hrest⟩ := ih h
        refine ⟨i, ?_, hrest⟩
        simpa only [pull, hstep] using hpull
      | failed e =>
        rw [arriving, hs.step_nil hstep] at h
        cases h

/-- So is an error of the step. -/
theorem pull_of_fail (hs : Splits step) (h : step s (buf ++ arriving evs) = .fail e) :
    ∃ i : Input ε β, pull idle step s buf evs = (.error e, i) := by
  induction evs generalizing s buf with
  | nil =>
    rw [arriving, List.append_nil] at h
    exact ⟨_, pull_fail h []⟩
  | cons ev evs ih =>
    cases hstep : step s buf with
    | done a' rest' =>
      rw [hs.done hstep] at h
      cases h
    | fail e' =>
      rw [hs.fail hstep] at h
      cases h
      exact ⟨_, pull_fail hstep _⟩
    | more s' =>
      rw [hs.more hstep] at h
      cases ev with
      | chunk b bs => simpa only [pull, hstep] using ih h
      | interrupted =>
        have h : step s' ([] ++ arriving evs) = .fail e := h
        simpa only [pull, hstep] using ih h
      | failed e' =>
        rw [arriving, hs.step_nil hstep] at h
        cases h

/-- Where all the input is not enough, reading fails as it does in the end. -/
theorem pull_of_more (hs : Splits step) (h : step s (buf ++ arriving evs) = .more s') :
    pull idle step s buf evs = (.error (ending idle evs), ⟨[], later evs⟩) := by
  induction evs generalizing s buf with
  | nil =>
    rw [arriving, List.append_nil] at h
    simp [pull, h, ending, later]
  | cons ev evs ih =>
    cases hstep : step s buf with
    | done a' rest' =>
      rw [hs.done hstep] at h
      cases h
    | fail e' =>
      rw [hs.fail hstep] at h
      cases h
    | more s₁ =>
      rw [hs.more hstep] at h
      cases ev with
      | chunk b bs => simpa only [pull, hstep, ending, later] using ih h
      | interrupted =>
        have h : step s₁ ([] ++ arriving evs) = .more s' := h
        simpa only [pull, hstep, ending, later] using ih h
      | failed e' => simp [pull, hstep, ending, later]

/-- Inputs that deliver the same and then fail in the same way, in whatever pieces. -/
structure Input.Same (idle : ε) (i j : Input ε β) : Prop where
  pending : i.pending = j.pending
  fault : i.fault idle = j.fault idle

/-- The loop does not see the pieces, and what it leaves only differs in them. -/
theorem pull_congr {i j : Input ε β} (hs : Splits step) (h : i.Same idle j) :
    (pull idle step s i.buf i.events).1 = (pull idle step s j.buf j.events).1 ∧
      ∀ a, (pull idle step s i.buf i.events).1 = .ok a →
        (pull idle step s i.buf i.events).2.Same idle (pull idle step s j.buf j.events).2 := by
  have hpending : i.buf ++ arriving i.events = j.buf ++ arriving j.events := h.pending
  -- each loop by its own input, which is the same as the other's
  have hdone {a : α} {rest : List β} (k : Input ε β)
      (hk : step s (k.buf ++ arriving k.events) = .done a rest) :
      ∃ k' : Input ε β, pull idle step s k.buf k.events = (.ok a, k') ∧ k'.pending = rest ∧
        k'.fault idle = k.fault idle ∧ k'.after = k.after := pull_of_done hs hk
  have hfail {e : ε} (k : Input ε β) (hk : step s (k.buf ++ arriving k.events) = .fail e) :
      ∃ k' : Input ε β, pull idle step s k.buf k.events = (.error e, k') := pull_of_fail hs hk
  cases hstep : step s (i.buf ++ arriving i.events) with
  | done a rest =>
    obtain ⟨i', hi, hrest, hfault, -⟩ := hdone i hstep
    obtain ⟨j', hj, hrest', hfault', -⟩ := hdone j (hpending ▸ hstep)
    rw [hi, hj]
    refine ⟨rfl, fun _ _ => ⟨hrest.trans hrest'.symm, ?_⟩⟩
    exact hfault.trans (h.fault.trans hfault'.symm)
  | fail e =>
    obtain ⟨i', hi⟩ := hfail i hstep
    obtain ⟨j', hj⟩ := hfail j (hpending ▸ hstep)
    rw [hi, hj]
    exact ⟨rfl, fun a ha => by cases ha⟩
  | more s' =>
    rw [pull_of_more hs hstep, pull_of_more hs (hpending ▸ hstep)]
    exact ⟨congrArg Except.error h.fault, fun a ha => by cases ha⟩

end

end ChunkedInput
