import LgMagic.Json.Writer

/-!
# The trees of parsed texts

What holds of every tree that `json_parse` builds: it is nested no deeper than the limit, and its
numbers are finite, since a number out of range is refused.

* `parseNumber_eq_ok`: when a number is read;
* `forall_parseItems`, `forall_parseMembers`: what holds of single values holds of all;
* `sound_of_jsonParse`: a text.
-/

namespace Json

open Binary64 CString Printf

/-- The nesting is at most a number of levels, and no number is infinite or not-a-number. -/
structure Sound (levels : ℕ) (v : JsonValue) : Prop where
  depth : v.depth ≤ levels
  finite : ∀ d ∈ v.numbers, d.IsFinite

section

variable {value : Bytes → Parsed JsonValue} {P : JsonValue → Prop} {levels : ℕ} {v : JsonValue}
  {vs : List JsonValue} {ms : List (CStr × JsonValue)} {s r : Bytes} {d : Double}

theorem parseNumber_eq_ok : parseNumber s = .ok (d, r) ↔
    (s.takeWhile isNumChar).any isDigit = true ∧ hexForm s = false ∧
      strtodErange d (decimalMag s) = false ∧ strtodDecimal s = (d, r) ∧
      s.dropWhile isNumChar = r := by
  unfold parseNumber
  rcases strtodDecimal s with ⟨d', last⟩
  dsimp only
  split_ifs with hdigit hbad
  · simp [hdigit]
  · simp only [Bool.or_eq_true, decide_eq_true_eq] at hbad
    refine iff_of_false (by simp) ?_
    rintro ⟨-, hhex, hrange, hread, hrest⟩
    obtain ⟨rfl, rfl⟩ := Prod.mk.injEq .. ▸ hread
    simp [hhex, hrange, hrest] at hbad
  · simp only [Bool.or_eq_true, decide_eq_true_eq, not_or, not_not, Bool.not_eq_true] at hbad
    obtain ⟨⟨hhex, hrange⟩, rfl⟩ := hbad
    constructor
    · intro h
      obtain ⟨rfl, rfl⟩ := Prod.mk.injEq .. ▸ Except.ok.inj h
      exact ⟨Bool.not_eq_false _ ▸ hdigit, hhex, hrange, rfl, rfl⟩
    · rintro ⟨-, -, -, hread, -⟩
      rw [hread]

/-- A number that is read is finite. -/
theorem isFinite_of_parseNumber (h : parseNumber s = .ok (d, r)) : d.IsFinite := by
  obtain ⟨-, -, hrange, hread, -⟩ := parseNumber_eq_ok.mp h
  have hnan := strtodDecimal_ne_nan s
  rw [hread] at hnan
  cases d with
  | nan => exact absurd rfl hnan
  | inf neg => cases hrange
  | finite x => trivial

/-! ## Containers -/

theorem forall_parseItems (hvalue : ∀ s v r, value s = .ok (v, r) → P v) {n : ℕ}
    (h : parseItems value n s = .ok (vs, r)) : ∀ v ∈ vs, P v := by
  induction n generalizing s vs with
  | zero => cases h
  | succ n ih =>
    rw [parseItems] at h
    cases hv : value s with
    | error e => rw [hv] at h; cases h
    | ok p =>
      obtain ⟨v, s'⟩ := p
      have hP := hvalue s v s' hv
      simp only [hv, bind, Except.bind] at h
      split at h
      · cases h
      · next c cs _ =>
        split_ifs at h
        · cases hrest : parseItems value n (skipWs cs) with
          | error e => simp only [hrest] at h; cases h
          | ok p =>
            obtain ⟨vs', r'⟩ := p
            simp only [hrest] at h
            obtain ⟨rfl, rfl⟩ := Prod.mk.injEq .. ▸ Except.ok.inj h
            exact List.forall_mem_cons.mpr ⟨hP, ih hrest⟩
        · obtain ⟨rfl, rfl⟩ := Prod.mk.injEq .. ▸ Except.ok.inj h
          exact List.forall_mem_singleton.mpr hP

theorem forall_parseMembers (hvalue : ∀ s v r, value s = .ok (v, r) → P v) {n : ℕ}
    (h : parseMembers value n s = .ok (ms, r)) : ∀ m ∈ ms, P m.2 := by
  induction n generalizing s ms with
  | zero => cases h
  | succ n ih =>
    rw [parseMembers] at h
    cases hk : parseKey s with
    | error e => rw [hk] at h; cases h
    | ok p =>
      obtain ⟨k, s₁⟩ := p
      simp only [hk, bind, Except.bind] at h
      cases hv : value s₁ with
      | error e => simp only [hv] at h; cases h
      | ok p =>
        obtain ⟨v, s'⟩ := p
        -- the value of this member, then those after the comma
        have hP := hvalue s₁ v s' hv
        simp only [hv] at h
        split at h
        · cases h
        · next c cs _ =>
          split_ifs at h
          · cases hrest : parseMembers value n (skipWs cs) with
            | error e => simp only [hrest] at h; cases h
            | ok p =>
              obtain ⟨ms', r'⟩ := p
              simp only [hrest] at h
              obtain ⟨rfl, rfl⟩ := Prod.mk.injEq .. ▸ Except.ok.inj h
              exact List.forall_mem_cons.mpr ⟨hP, ih hrest⟩
          · obtain ⟨rfl, rfl⟩ := Prod.mk.injEq .. ▸ Except.ok.inj h
            exact List.forall_mem_singleton.mpr hP

/-! ## Values -/

theorem sound_scalar (hdepth : v.depth = 0) (hnumbers : v.numbers = []) : Sound levels v :=
  ⟨by simp [hdepth], by simp [hnumbers]⟩

theorem mem_itemsNumbers : d ∈ itemsNumbers vs ↔ ∃ v ∈ vs, d ∈ v.numbers := by
  induction vs with
  | nil => simp [itemsNumbers]
  | cons v vs ih => simp [itemsNumbers, ih]

theorem sound_arr (h : ∀ v ∈ vs, Sound levels v) : Sound (levels + 1) (.arr vs) := by
  refine ⟨?_, fun d hd => ?_⟩
  · have hdepth : itemsDepth vs ≤ levels := by
      induction vs with
      | nil => exact Nat.zero_le _
      | cons v vs ih =>
        obtain ⟨hv, hvs⟩ := List.forall_mem_cons.mp h
        exact max_le hv.depth (ih hvs)
    simpa [JsonValue.depth] using hdepth
  · obtain ⟨v, hv, hdv⟩ := mem_itemsNumbers.mp hd
    exact (h v hv).finite d hdv

theorem mem_membersNumbers : d ∈ membersNumbers ms ↔ ∃ m ∈ ms, d ∈ m.2.numbers := by
  induction ms with
  | nil => simp [membersNumbers]
  | cons m ms ih => simp [membersNumbers, ih]

theorem sound_obj (h : ∀ m ∈ ms, Sound levels m.2) : Sound (levels + 1) (.obj ms) := by
  refine ⟨?_, fun d hd => ?_⟩
  · have hdepth : membersDepth ms ≤ levels := by
      induction ms with
      | nil => exact Nat.zero_le _
      | cons m ms ih =>
        obtain ⟨hm, hms⟩ := List.forall_mem_cons.mp h
        exact max_le hm.depth (ih hms)
    simpa [JsonValue.depth] using hdepth
  · obtain ⟨m, hm, hdm⟩ := mem_membersNumbers.mp hd
    exact (h m hm).finite d hdm

theorem sound_map {α : Type} {x : Parsed α} {f : α → JsonValue}
    (hsound : ∀ a r, x = .ok (a, r) → Sound levels (f a))
    (h : (x.map fun p => (f p.1, p.2)) = .ok (v, r)) : Sound levels v := by
  cases hx : x with
  | error e => rw [hx] at h; cases h
  | ok p =>
    rw [hx] at h
    obtain ⟨rfl, -⟩ := Prod.mk.injEq .. ▸ Except.ok.inj h
    exact hsound p.1 p.2 hx

theorem sound_parseArray (hvalue : ∀ s v r, value s = .ok (v, r) → Sound levels v)
    (h : parseArray value s = .ok (v, r)) : Sound (levels + 1) v := by
  rw [parseArray] at h
  -- an array is empty, or it has the items that the loop reads
  have hloop : ∀ {n t}, (parseItems value n t).map (fun p => (JsonValue.arr p.1, p.2)) = .ok (v, r) →
      Sound (levels + 1) v := by
    exact sound_map fun _ _ hitems => sound_arr (forall_parseItems hvalue hitems)
  split at h
  · split_ifs at h
    · obtain ⟨rfl, -⟩ := Prod.mk.injEq .. ▸ Except.ok.inj h
      exact sound_arr (by simp)
    · exact hloop h
  · exact hloop h

theorem sound_parseObject (hvalue : ∀ s v r, value s = .ok (v, r) → Sound levels v)
    (h : parseObject value s = .ok (v, r)) : Sound (levels + 1) v := by
  rw [parseObject] at h
  have hloop : ∀ {n t}, (parseMembers value n t).map (fun p => (JsonValue.obj p.1, p.2)) = .ok (v, r) →
      Sound (levels + 1) v := by
    exact sound_map fun _ _ hmembers => sound_obj (forall_parseMembers hvalue hmembers)
  split at h
  · split_ifs at h
    · obtain ⟨rfl, -⟩ := Prod.mk.injEq .. ▸ Except.ok.inj h
      exact sound_obj (by simp)
    · exact hloop h
  · exact hloop h

theorem sound_parseWord {word : String} (hv : Sound levels v) {v' : JsonValue}
    (h : parseWord word v s = .ok (v', r)) : Sound levels v' := by
  unfold parseWord at h
  split_ifs at h
  obtain ⟨rfl, -⟩ := Prod.mk.injEq .. ▸ Except.ok.inj h
  exact hv

/-- A value takes no more levels than may be opened. -/
theorem sound_parseValue (h : parseValue levels s = .ok (v, r)) : Sound levels v := by
  induction levels using Nat.strong_induction_on generalizing s v r with
  | _ levels ih =>
    rw [parseValue] at h
    split at h
    · cases h
    split_ifs at h
    · cases levels with
      | zero => cases h
      | succ n => exact sound_parseObject (fun s v r hv => ih n n.lt_succ_self hv) h
    · cases levels with
      | zero => cases h
      | succ n => exact sound_parseArray (fun s v r hv => ih n n.lt_succ_self hv) h
    · exact sound_map (fun _ _ _ => sound_scalar rfl rfl) h
    · exact sound_parseWord (sound_scalar rfl rfl) h
    · exact sound_parseWord (sound_scalar rfl rfl) h
    · exact sound_parseWord (sound_scalar rfl rfl) h
    · refine sound_map (fun d r hd => ⟨by simp [JsonValue.depth], ?_⟩) h
      simpa [JsonValue.numbers] using isFinite_of_parseNumber hd

end

/-- The tree of a text that is accepted. -/
theorem sound_of_jsonParse {text : Bytes} {v : JsonValue} (h : jsonParse text = .ok v) :
    Sound jsonMaxDepth v := by
  unfold jsonParse at h
  cases hv : parseValue jsonMaxDepth text with
  | error e => rw [hv] at h; cases h
  | ok p =>
    simp only [hv] at h
    split_ifs at h
    obtain rfl := Except.ok.inj h
    exact sound_parseValue hv

end Json
