import Mathlib.Data.List.Basic

/-!
# Programs of commands

Programs that compute between calls of commands, such as system calls. A machine says what a
completed call may answer and do, and what a crash may leave behind. A run follows a program call by
call and may end in a crash before any call, so the states that runs reach by crashing are the
states the program passes through, as a crash would leave them.

* `Prog`, `Prog.bind`: programs;
* `Host`, `Run`: runs, with the trace of the completed calls;
* `wp`: the weakest precondition for a result and for an invariant that holds at every call;
* `Run.of_wp`: runs keep the invariant and establish the result;
* `Always`: what holds of every result;
* `exec`: the run on a machine that answers every call in one way.
-/

/-- A program that calls commands `c`, answered by a `Resp c`. -/
inductive Prog (Cmd : Type) (Resp : Cmd → Type) (α : Type)
  | ret (a : α)
  | call (c : Cmd) (k : Resp c → Prog Cmd Resp α)

/-- A completed call and its answer. -/
abbrev Event (Cmd : Type) (Resp : Cmd → Type) := (c : Cmd) × Resp c

/-- What commands do. -/
structure Host (Cmd : Type) (Resp : Cmd → Type) (σ : Type) where
  /-- A completed call in a state, its answer and the state after it. -/
  step : σ → (c : Cmd) → Resp c → σ → Prop
  /-- What a crash in a state may leave. -/
  crash : σ → σ → Prop

namespace Prog

variable {Cmd : Type} {Resp : Cmd → Type} {σ α β : Type}

/-- Run one program, then another that depends on its result. -/
def bind : Prog Cmd Resp α → (α → Prog Cmd Resp β) → Prog Cmd Resp β
  | .ret a, f => f a
  | .call c k, f => .call c fun r => (k r).bind f

instance : Monad (Prog Cmd Resp) where
  pure := .ret
  bind := bind

/-- The runs of a program: the trace of completed calls, the result unless it crashed, and the
state at the end. -/
inductive Run (M : Host Cmd Resp σ) :
    Prog Cmd Resp α → σ → List (Event Cmd Resp) → Option α → σ → Prop
  | ret (a : α) (s : σ) : Run M (.ret a) s [] (some a) s
  | call {c : Cmd} {k : Resp c → Prog Cmd Resp α} {r : Resp c} {s s' s'' : σ}
      {tr : List (Event Cmd Resp)} {o : Option α} :
      M.step s c r s' → Run M (k r) s' tr o s'' → Run M (.call c k) s (⟨c, r⟩ :: tr) o s''
  | crash {p : Prog Cmd Resp α} {s s' : σ} : M.crash s s' → Run M p s [] none s'

/-- The weakest precondition of a program: `J` holds before every call and at the end, and `Q`
holds of the result. Both see the trace so far. -/
def wp (M : Host Cmd Resp σ) (J : List (Event Cmd Resp) → σ → Prop)
    (Q : α → List (Event Cmd Resp) → σ → Prop) :
    Prog Cmd Resp α → List (Event Cmd Resp) → σ → Prop
  | .ret a, tr, s => J tr s ∧ Q a tr s
  | .call c k, tr, s => J tr s ∧ ∀ r s', M.step s c r s' → (k r).wp M J Q (tr ++ [⟨c, r⟩]) s'

/-- What holds where a run ends: the invariant and the result's condition, or, after a crash, what
the crash leaves of the invariant. -/
def Ends (M : Host Cmd Resp σ) (J : List (Event Cmd Resp) → σ → Prop)
    (Q : α → List (Event Cmd Resp) → σ → Prop) :
    Option α → List (Event Cmd Resp) → σ → Prop
  | some a, tr, s => J tr s ∧ Q a tr s
  | none, tr, s => ∃ s', J tr s' ∧ M.crash s' s

section

variable {M : Host Cmd Resp σ} {J : List (Event Cmd Resp) → σ → Prop}
  {Q Q' : α → List (Event Cmd Resp) → σ → Prop} {p : Prog Cmd Resp α}
  {tr : List (Event Cmd Resp)} {s : σ}

/-- The invariant holds at the start. -/
theorem inv_of_wp (h : p.wp M J Q tr s) : J tr s := by
  cases p with
  | ret a => exact h.1
  | call c k => exact h.1

theorem wp_mono (hQ : ∀ a tr s, J tr s → Q a tr s → Q' a tr s) (h : p.wp M J Q tr s) :
    p.wp M J Q' tr s := by
  induction p generalizing tr s with
  | ret a => exact ⟨h.1, hQ a tr s h.1 h.2⟩
  | call c k ih => exact ⟨h.1, fun r s' hstep => ih r (h.2 r s' hstep)⟩

theorem wp_mono_inv {J' : List (Event Cmd Resp) → σ → Prop} (hJ : ∀ tr s, J tr s → J' tr s)
    (h : p.wp M J Q tr s) : p.wp M J' Q tr s := by
  induction p generalizing tr s with
  | ret a => exact ⟨hJ tr s h.1, h.2⟩
  | call c k ih => exact ⟨hJ tr s h.1, fun r s' hstep => ih r (h.2 r s' hstep)⟩

/-- Sequencing. -/
theorem wp_bind {f : α → Prog Cmd Resp β} {R : β → List (Event Cmd Resp) → σ → Prop}
    (h : p.wp M J (fun a tr s => (f a).wp M J R tr s) tr s) : (p >>= f).wp M J R tr s := by
  induction p generalizing tr s with
  | ret a => exact h.2
  | call c k ih => exact ⟨h.1, fun r s' hstep => ih r (h.2 r s' hstep)⟩

/-- Runs establish what the weakest precondition promises. -/
theorem Run.of_wp {tr' : List (Event Cmd Resp)} {o : Option α} {s' : σ}
    (hrun : Run M p s tr' o s') (h : p.wp M J Q tr s) : Ends M J Q o (tr ++ tr') s' := by
  induction hrun generalizing tr with
  | ret a s => exact (List.append_nil tr).symm ▸ h
  | @call c k r s s₁ s₂ tr' o hstep _ ih =>
    have := ih (h.2 r s₁ hstep)
    rwa [List.append_assoc, List.singleton_append] at this
  | @crash p s s' hcrash => exact ⟨s, (List.append_nil tr).symm ▸ inv_of_wp h, hcrash⟩

end

/-! ## Results -/

/-- The results meet a condition, whatever the calls are answered. -/
def Always (Q : α → Prop) : Prog Cmd Resp α → Prop
  | .ret a => Q a
  | .call _ k => ∀ r, (k r).Always Q

theorem always_true (p : Prog Cmd Resp α) : p.Always fun _ => True := by
  induction p with
  | ret a => trivial
  | call c k ih => exact ih

/-- Sequencing. -/
theorem Always.seq {Q : α → Prop} {R : β → Prop} {p : Prog Cmd Resp α} {f : α → Prog Cmd Resp β}
    (h : p.Always Q) (hf : ∀ a, Q a → (f a).Always R) : (p >>= f).Always R := by
  induction p with
  | ret a => exact hf a h
  | call c k ih => exact fun r => ih r (h r)

theorem always_pure {Q : α → Prop} {a : α} (h : Q a) : (pure a : Prog Cmd Resp α).Always Q := h

/-- A program after another whose result does not matter. -/
theorem always_bind {R : β → Prop} {f : α → Prog Cmd Resp β} (p : Prog Cmd Resp α)
    (h : ∀ a, (f a).Always R) : (p >>= f).Always R :=
  (always_true p).seq fun a _ => h a

/-- The result of a run. -/
theorem Run.always {M : Host Cmd Resp σ} {Q : α → Prop} {p : Prog Cmd Resp α} {s s' : σ}
    {tr : List (Event Cmd Resp)} {a : α} (hrun : Run M p s tr (some a) s') (h : p.Always Q) :
    Q a := by
  generalize ho : some a = o at hrun
  induction hrun with
  | ret b s =>
    obtain rfl : a = b := Option.some.inj ho
    exact h
  | call hstep hrest ih => exact ih (h _) ho
  | crash hcrash => cases ho

/-! ## Machines with one answer -/

/-- The result and the final state when every call is answered by a function. -/
def exec (f : σ → (c : Cmd) → Resp c × σ) : Prog Cmd Resp α → σ → α × σ
  | .ret a, s => (a, s)
  | .call c k, s => exec f (k (f s c).1) (f s c).2

theorem exec_bind (f : σ → (c : Cmd) → Resp c × σ) (p : Prog Cmd Resp α)
    (g : α → Prog Cmd Resp β) (s : σ) :
    exec f (p >>= g) s = exec f (g (exec f p s).1) (exec f p s).2 := by
  induction p generalizing s with
  | ret a => rfl
  | call c k ih => exact ih _ _

/-- The answers of a machine give one of its runs, and what holds of every answer holds of its
calls. -/
theorem run_exec_of_answers {M : Host Cmd Resp σ} {f : σ → (c : Cmd) → Resp c × σ}
    {P : Event Cmd Resp → Prop} (hf : ∀ s c, M.step s c (f s c).1 (f s c).2)
    (hP : ∀ s c, P ⟨c, (f s c).1⟩) (p : Prog Cmd Resp α) (s : σ) :
    ∃ tr, Run M p s tr (some (exec f p s).1) (exec f p s).2 ∧ ∀ e ∈ tr, P e := by
  induction p generalizing s with
  | ret a => exact ⟨[], .ret a s, fun _ h => absurd h List.not_mem_nil⟩
  | call c k ih =>
    obtain ⟨tr, hrun, htr⟩ := ih (f s c).1 (f s c).2
    exact ⟨⟨c, (f s c).1⟩ :: tr, .call (hf s c) hrun, List.forall_mem_cons.mpr ⟨hP s c, htr⟩⟩

/-- The answers of a machine give one of its runs. -/
theorem run_exec {M : Host Cmd Resp σ} {f : σ → (c : Cmd) → Resp c × σ}
    (hf : ∀ s c, M.step s c (f s c).1 (f s c).2) (p : Prog Cmd Resp α) (s : σ) :
    ∃ tr, Run M p s tr (some (exec f p s).1) (exec f p s).2 := by
  obtain ⟨tr, hrun, -⟩ := run_exec_of_answers (P := fun _ => True) hf (fun _ _ => trivial) p s
  exact ⟨tr, hrun⟩

end Prog
