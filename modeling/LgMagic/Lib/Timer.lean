import Mathlib.Tactic.Linarith
import Mathlib.Algebra.Order.Group.Int

/-!
# Timers of waiting loops

A loop that does a job at regular intervals and waits in between: each turn either does the job,
where its time has come, or waits for events until then. While the events are handled the job may be
scheduled for an earlier time, and a later schedule replaces an earlier one. Time is what a clock
shows that never goes back; a turn may take longer than it waits.

* `Timer`, `Timer.deadline`, `Timer.delay`: when the job is due;
* `Timer.Turn`: the turns of the loop, with a bound on what they take besides waiting;
* `Timer.Turn.onTime`: the loop is never later than twice that bound;
* `Timer.OnTime.fire_le`: nor is the job later than three times the bound.
-/

/-- When the job was done last, and when it is scheduled for. -/
structure Timer where
  last : ℤ
  due : Option ℤ

namespace Timer

variable (interval : ℤ)

/-- When the job is to be done. -/
def deadline (t : Timer) : ℤ :=
  match t.due with
  | none => t.last + interval
  | some due => min due (t.last + interval)

/-- How long to wait for it. -/
def delay (t : Timer) (now : ℤ) : ℤ := max 0 (t.deadline interval - now)

/-- The job is done. -/
def fire (now : ℤ) : Timer := ⟨now, none⟩

/-- The job is scheduled. -/
def schedule (t : Timer) (due : ℤ) : Timer := { t with due := some due }

variable {interval} {t t' : Timer} {now now' δ : ℤ}

theorem deadline_le_last : t.deadline interval ≤ t.last + interval := by
  rw [deadline]
  split
  · exact le_rfl
  · exact min_le_right _ _

theorem deadline_le_due {due : ℤ} (h : t.due = some due) : t.deadline interval ≤ due := by
  rw [deadline, h]
  exact min_le_left _ _

/-- Nothing is to be waited for when the time has come. -/
theorem delay_nonpos_iff : t.delay interval now ≤ 0 ↔ t.deadline interval ≤ now := by
  rw [delay, max_le_iff]
  constructor
  · rintro ⟨-, h⟩
    omega
  · intro h
    exact ⟨le_rfl, by omega⟩

/-- Waiting ends at the deadline. -/
theorem add_delay (h : 0 < t.delay interval now) :
    now + t.delay interval now = t.deadline interval := by
  rw [delay] at h ⊢
  omega

/-! ## Turns -/

/-- A turn from one time to another. What it takes besides waiting is at most `δ` before the job is
done or the wait is over, and at most `δ` after it. -/
inductive Turn (interval δ : ℤ) : Timer × ℤ → Timer × ℤ → Prop
  | fire {t : Timer} {now check done now' : ℤ} (hcheck : now ≤ check)
    (htime : t.deadline interval ≤ check) (hdone : check ≤ done) (hlate : done ≤ now + δ)
    (hnow : done ≤ now') (hend : now' ≤ done + δ) : Turn interval δ (t, now) (fire done, now')
  | wait {t : Timer} {now check woken now' : ℤ} (hcheck : now ≤ check)
    (htime : check < t.deadline interval) (hwoken : check ≤ woken)
    (hlate : woken ≤ t.deadline interval + δ) (hnow : woken ≤ now') (hend : now' ≤ woken + δ) :
    Turn interval δ (t, now) (t, now')
  | reschedule {t : Timer} {now check woken due now' : ℤ} (hcheck : now ≤ check)
    (htime : check < t.deadline interval) (hwoken : check ≤ woken)
    (hlate : woken ≤ t.deadline interval + δ) (hnow : woken ≤ now') (hend : now' ≤ woken + δ)
    (hdue : woken ≤ due) : Turn interval δ (t, now) (t.schedule due, now')

/-- The clock is not far beyond the deadline. -/
def OnTime (interval δ : ℤ) (s : Timer × ℤ) : Prop := s.2 ≤ s.1.deadline interval + 2 * δ

/-- Every turn ends on time. -/
theorem Turn.onTime {s s' : Timer × ℤ} (h : Turn interval δ s s') (hinterval : 0 ≤ interval)
    (hδ : 0 ≤ δ) : OnTime interval δ s' := by
  cases h with
  | @fire t now check done now' hcheck htime hdone hlate hnow hend =>
    show now' ≤ done + interval + 2 * δ
    omega
  | wait hcheck htime hwoken hlate hnow hend =>
    simp only [OnTime]
    omega
  | @reschedule t now check woken due now' hcheck htime hwoken hlate hnow hend hdue =>
    -- the new time is not before the loop woke up, and the regular one is as before
    have hlast : t.deadline interval ≤ t.last + interval := deadline_le_last
    have hmin : woken - δ ≤ min due (t.last + interval) := le_min (by omega) (by omega)
    show now' ≤ min due (t.last + interval) + 2 * δ
    omega

/-- Where the loop is on time the job is not late. -/
theorem OnTime.fire_le {done : ℤ} (h : OnTime interval δ (t, now)) (hlate : done ≤ now + δ) :
    done ≤ t.last + interval + 3 * δ ∧ ∀ due, t.due = some due → done ≤ due + 3 * δ := by
  have hnow : now ≤ t.deadline interval + 2 * δ := h
  have hlast : t.deadline interval ≤ t.last + interval := deadline_le_last
  refine ⟨by omega, fun due hdue => ?_⟩
  have hdeadline : t.deadline interval ≤ due := deadline_le_due hdue
  omega

end Timer
