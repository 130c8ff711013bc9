import Mathlib.Data.List.Infix
import Mathlib.Logic.Basic

/-!
# Transition systems

States, labelled steps and what holds in every state that a run reaches.

* `TransitionSystem`, `Reachable`;
* `TransitionSystem.restrict`: the runs whose steps all meet a condition;
* `Reachable.of_inductive`: an inductive invariant holds in every reachable state;
* `EverySplit`, `foldl_cases`: folds that keep an invariant up to a step that breaks it for good.
-/

/-- Initial states, and steps labelled by what causes them. -/
structure TransitionSystem (S L : Type*) where
  init : S → Prop
  step : S → L → S → Prop

namespace TransitionSystem

variable {S L : Type*} (T : TransitionSystem S L)

/-- The states at the end of a run. -/
inductive Reachable : S → Prop where
  | init {s : S} : T.init s → Reachable s
  | step {s s' : S} (l : L) : Reachable s → T.step s l s' → Reachable s'

/-- The system whose steps meet a condition on the state before them and on their label. -/
def restrict (C : S → L → Prop) : TransitionSystem S L where
  init := T.init
  step s l s' := T.step s l s' ∧ C s l

/-- The predicate holds initially and every step keeps it. -/
structure Inductive (P : S → Prop) : Prop where
  init : ∀ s, T.init s → P s
  step : ∀ s l s', P s → T.step s l s' → P s'

variable {T}

theorem Reachable.of_inductive {P : S → Prop} (hP : T.Inductive P) {s : S} (h : T.Reachable s) :
    P s := by
  induction h with
  | init h => exact hP.init _ h
  | step l _ h ih => exact hP.step _ l _ ih h

/-- A run whose steps all meet a weaker condition. -/
theorem Reachable.mono {C D : S → L → Prop} (hCD : ∀ s l, C s l → D s l) {s : S}
    (h : (T.restrict C).Reachable s) : (T.restrict D).Reachable s := by
  induction h with
  | init h => exact .init h
  | step l _ h ih => exact .step l ih ⟨h.1, hCD _ _ h.2⟩

end TransitionSystem

/-! ## Folds -/

section

variable {S L : Type*}

/-- A condition holds of every element of a list and those before it. -/
def EverySplit (C : List L → L → Prop) (ls : List L) : Prop :=
  ∀ done l rest, ls = done ++ l :: rest → C done l

theorem everySplit_nil (C : List L → L → Prop) : EverySplit C [] := by
  intro done l rest h
  simp at h

theorem everySplit_concat {C : List L → L → Prop} {ls : List L} {l : L} :
    EverySplit C (ls ++ [l]) ↔ EverySplit C ls ∧ C ls l := by
  constructor
  · intro h
    exact ⟨fun done l' rest hls => h done l' (rest ++ [l]) (by simp [hls]), h ls l [] rfl⟩
  · rintro ⟨hls, hl⟩ done l' rest h
    rcases List.eq_nil_or_concat rest with rfl | ⟨rest, b, rfl⟩
    · obtain ⟨rfl, hb⟩ := List.append_inj' h rfl
      obtain rfl : l = l' := by simpa using hb
      exact hl
    · have hsplit : ls ++ [l] = (done ++ l' :: rest) ++ [b] := by simpa using h
      exact hls done l' rest (List.append_inj' hsplit rfl).1

/-- Steps that keep an invariant while a condition holds, and break it for good where it does not. -/
theorem foldl_cases {step : S → L → S} {s₀ : S} {good : List L → S → Prop} {bad : S → Prop}
    {C : List L → L → Prop} (hinit : good [] s₀)
    (hstep : ∀ done l s, good done s →
      (C done l → good (done ++ [l]) (step s l)) ∧ (¬ C done l → bad (step s l)))
    (hbad : ∀ s l, bad s → bad (step s l)) (ls : List L) :
    (EverySplit C ls → good ls (ls.foldl step s₀)) ∧
      (¬ EverySplit C ls → bad (ls.foldl step s₀)) := by
  induction ls using List.reverseRecOn with
  | nil => exact ⟨fun _ => hinit, fun h => absurd (everySplit_nil C) h⟩
  | append_singleton ls l ih =>
    rw [List.foldl_append, everySplit_concat]
    constructor
    · rintro ⟨hls, hl⟩
      exact (hstep ls l _ (ih.1 hls)).1 hl
    · intro h
      by_cases hls : EverySplit C ls
      · exact (hstep ls l _ (ih.1 hls)).2 fun hl => h ⟨hls, hl⟩
      · exact hbad _ l (ih.2 hls)

end
