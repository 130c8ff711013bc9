import Mathlib.Algebra.Order.Group.Nat
import Mathlib.Logic.Relation
import Mathlib.Tactic.SplitIfs

/-!
# Partial computations that leave a trace

A computation that may fail records what it touches on the way, up to the point where it fails.

* `Traced`: the computations, with their values and traces;
* `Traced.All`: what holds of everything that was touched;
* `Traced.collect`: a loop that collects the results of its steps;
* `all_collect_iff`: the rule of the loop, by the states that it comes to.
-/

/-- A computation: its result, if there is one, and what it touched. -/
def Traced (ε α : Type) : Type := Option α × List ε

namespace Traced

variable {ε α β σ : Type} {P : ε → Prop}

def value (x : Traced ε α) : Option α := x.1

def trace (x : Traced ε α) : List ε := x.2

instance : Monad (Traced ε) where
  pure a := (some a, [])
  bind x f :=
    match x.value with
    | none => (none, x.trace)
    | some a => ((f a).value, x.trace ++ (f a).trace)

/-- The computation fails. -/
def fail : Traced ε α := (none, [])

/-- Something is touched. -/
def touch (es : List ε) : Traced ε Unit := (some (), es)

/-- The computation with its failure as a result. -/
def attempt (x : Traced ε α) : Traced ε (Option α) := (some x.value, x.trace)

/-! ## Values -/

@[simp] theorem value_pure (a : α) : (pure a : Traced ε α).value = some a := rfl

@[simp] theorem value_fail : (fail : Traced ε α).value = none := rfl

@[simp] theorem value_touch (es : List ε) : (touch es).value = some () := rfl

@[simp] theorem value_attempt (x : Traced ε α) : x.attempt.value = some x.value := rfl

@[simp] theorem value_bind (x : Traced ε α) (f : α → Traced ε β) :
    (x >>= f).value = x.value.bind fun a => (f a).value := by
  obtain ⟨a, es⟩ := x
  cases a <;> rfl

/-! ## What is touched -/

/-- Everything that is touched has the property. -/
def All (P : ε → Prop) (x : Traced ε α) : Prop := ∀ e ∈ x.trace, P e

@[simp] theorem all_pure (a : α) : All P (pure a : Traced ε α) := fun _ h => absurd h List.not_mem_nil

@[simp] theorem all_fail : All P (fail : Traced ε α) := fun _ h => absurd h List.not_mem_nil

@[simp] theorem all_touch (es : List ε) : All P (touch es) ↔ ∀ e ∈ es, P e := Iff.rfl

@[simp] theorem all_attempt (x : Traced ε α) : All P x.attempt ↔ All P x := Iff.rfl

/-- What comes after a failure is not touched. -/
@[simp] theorem all_bind (x : Traced ε α) (f : α → Traced ε β) :
    All P (x >>= f) ↔ All P x ∧ ∀ a, x.value = some a → All P (f a) := by
  obtain ⟨a, es⟩ := x
  cases a with
  | none => exact ⟨fun hall => ⟨hall, fun a ha => by cases ha⟩, fun hall => hall.1⟩
  | some a =>
    have htrace : ((some a, es) >>= f : Traced ε β).trace = es ++ (f a).trace := rfl
    simp only [All, htrace, List.mem_append]
    constructor
    · intro hall
      refine ⟨fun e he => hall e (.inl he), ?_⟩
      rintro _ ⟨⟩ e he
      exact hall e (.inr he)
    · rintro ⟨hx, hf⟩ e (he | he)
      · exact hx e he
      · exact hf a rfl e he

/-! ## Loops -/

/-- The results of a step, as long as the state asks for more, at most so many of them. -/
def collect (more : σ → Prop) [DecidablePred more] (body : σ → Traced ε (α × σ)) :
    ℕ → σ → Traced ε (List α × σ)
  | 0, s => pure ([], s)
  | n + 1, s =>
    if more s then do
      let (a, s) ← body s
      let (as, s) ← collect more body n s
      return (a :: as, s)
    else pure ([], s)

section

variable {more : σ → Prop} [DecidablePred more] {body : σ → Traced ε (α × σ)} {s s' : σ}

/-- The states before and after one round. -/
def Round (more : σ → Prop) (body : σ → Traced ε (α × σ)) (s s' : σ) : Prop :=
  more s ∧ ∃ a, (body s).value = some (a, s')

/-- The result is that of any loop with the same equations. -/
theorem value_collect {f : ℕ → σ → Option (List α × σ)} (hzero : ∀ s, f 0 s = some ([], s))
    (hsucc : ∀ n s, f (n + 1) s = if more s then
      (body s).value.bind fun r => (f n r.2).bind fun q => some (r.1 :: q.1, q.2)
      else some ([], s)) (n : ℕ) (s : σ) :
    (collect more body n s).value = f n s := by
  induction n generalizing s with
  | zero => exact (hzero s).symm
  | succ n ih =>
    rw [collect, hsucc]
    split_ifs with h
    · simp only [value_bind, ih, value_pure]
    · rfl

/-- The loop ends in a state that it came to. -/
theorem reachable_of_collect {n : ℕ} {as : List α}
    (h : (collect more body n s).value = some (as, s')) :
    Relation.ReflTransGen (Round more body) s s' := by
  induction n generalizing s as with
  | zero =>
    obtain ⟨-, rfl⟩ := Prod.mk.inj (Option.some.inj h)
    exact .refl
  | succ n ih =>
    rw [collect] at h
    split_ifs at h with hmore
    · rw [value_bind] at h
      obtain ⟨⟨a, s₁⟩, hbody, h⟩ := Option.bind_eq_some_iff.mp h
      rw [value_bind] at h
      obtain ⟨⟨as', s₂⟩, hrest, h⟩ := Option.bind_eq_some_iff.mp h
      obtain ⟨-, rfl⟩ := Prod.mk.inj (Option.some.inj h)
      exact .head ⟨hmore, a, hbody⟩ (ih hrest)
    · obtain ⟨-, rfl⟩ := Prod.mk.inj (Option.some.inj h)
      exact .refl

/-- A loop whose rounds use something up touches what its steps touch in the states it comes to. -/
theorem all_collect_iff (size : σ → ℕ) (hpos : ∀ s, more s → 0 < size s)
    (hless : ∀ s s', Round more body s s' → size s' < size s) {n : ℕ} (hn : size s ≤ n) :
    All P (collect more body n s) ↔
      ∀ s', Relation.ReflTransGen (Round more body) s s' → more s' → All P (body s') := by
  induction n generalizing s with
  | zero =>
    -- without fuel there is nothing left to do
    have hstop : ¬ more s := fun h => by
      have := hpos s h
      omega
    refine iff_of_true (all_pure _) fun s' hs' hmore => ?_
    rcases hs'.cases_head with rfl | ⟨_, hround, -⟩
    · exact absurd hmore hstop
    · exact absurd hround.1 hstop
  | succ n ih =>
    rw [collect]
    split_ifs with hmore
    -- one round, and the rounds from its end, which are fewer
    · simp only [all_bind, all_pure, implies_true, and_true]
      constructor
      · rintro ⟨hbody, hrest⟩ s' hs' hmore'
        rcases hs'.cases_head with rfl | ⟨s₁, ⟨-, a, hround⟩, hs'⟩
        · exact hbody
        · have hsize : size s₁ ≤ n := by
            have := hless s s₁ ⟨hmore, a, hround⟩
            omega
          exact (ih hsize).mp (hrest _ hround) s' hs' hmore'
      · intro h
        refine ⟨h s .refl hmore, ?_⟩
        rintro ⟨a, s₁⟩ hround
        have hsize : size s₁ ≤ n := by
          have := hless s s₁ ⟨hmore, a, hround⟩
          omega
        exact (ih hsize).mpr fun s' hs' => h s' (.head ⟨hmore, a, hround⟩ hs')
    · refine iff_of_true (all_pure _) fun s' hs' hmore' => ?_
      rcases hs'.cases_head with rfl | ⟨_, hround, -⟩
      · exact absurd hmore' hmore
      · exact absurd hround.1 hmore

end

end Traced

section

variable {σ : Type} {R R' : σ → σ → Prop} {Good : σ → Prop} {s : σ}

/-- Steps from good states are steps of the other relation. -/
theorem reachable_of_good (h : ∀ s, Good s → ∀ s', R s s' → R' s s')
    (hgood : ∀ s', Relation.ReflTransGen R' s s' → Good s') {s' : σ}
    (hs : Relation.ReflTransGen R s s') : Relation.ReflTransGen R' s s' := by
  induction hs with
  | refl => exact .refl
  | tail _ hstep ih => exact ih.tail (h _ (hgood _ ih) _ hstep)

/-- What holds in all states along the steps of a relation holds in all states along those of another
one that has the same steps from good states. -/
theorem forall_reachable_congr (h : ∀ s, Good s → ∀ s', R s s' ↔ R' s s') :
    (∀ s', Relation.ReflTransGen R s s' → Good s') ↔
      ∀ s', Relation.ReflTransGen R' s s' → Good s' :=
  ⟨fun hgood _ hs => hgood _ (reachable_of_good (fun s hs s' => (h s hs s').mpr) hgood hs),
    fun hgood _ hs => hgood _ (reachable_of_good (fun s hs s' => (h s hs s').mp) hgood hs)⟩

end
