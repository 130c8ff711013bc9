import LgMagic.Toml.Parser

/-!
# The trees of parsed texts

What the edits of the parser keep holds of every tree that it builds: it enters tables, creates empty
ones, and adds a value under a key that is not there.

* `Kept`: a property of trees that the edits keep;
* `Kept.tomlParse`: it holds of parsed texts, if it does of single values;
* `wellFormed_of_tomlParse`: the keys of every table are distinct.
-/

namespace Toml

/-- A property of tables and of values that the edits of the parser keep. -/
structure Kept (I : Members → Prop) (V : TomlValue → Prop) : Prop where
  nil : I []
  table : ∀ {t}, I t → V (.table t)
  sub : ∀ {t k s}, I t → tableGetShort t k = some (.table s) → I s
  add : ∀ {t k v}, I t → tableGetShort t k = none → V v → I (t ++ [(k, v)])
  set : ∀ {t k v}, I t → V v → I (Assoc.set t k v)

namespace Kept

variable {I : Members → Prop} {V : TomlValue → Prop} {t sub : Members} {segs : List CStr}
  {st st' : ParseState} {cursor : Cursor}

/-! ## Edits -/

/-- Entering a table adds empty tables only. -/
theorem enter (hI : Kept I V) {t' : Members} (h : I t) (henter : enter t segs = some t') :
    I t' := by
  induction segs generalizing t t' with
  | nil =>
    injection henter with henter
    exact henter ▸ h
  | cons k ks ih =>
    rw [Toml.enter] at henter
    cases hget : tableGetShort t k with
    | none =>
      simp only [hget] at henter
      obtain ⟨sub, hsub, rfl⟩ := Option.map_eq_some_iff.mp henter
      exact hI.add h hget (hI.table (ih hI.nil hsub))
    | some v =>
      simp only [hget] at henter
      cases v with
      | table sub =>
        obtain ⟨sub', hsub, rfl⟩ := Option.map_eq_some_iff.mp henter
        exact hI.set h (hI.table (ih (hI.sub h hget) hsub))
      | str s | int i | float d | bool b | arr items => cases henter

theorem getAt (hI : Kept I V) (h : I t) (hget : getAt t segs = some sub) : I sub := by
  induction segs generalizing t with
  | nil =>
    injection hget with hget
    exact hget ▸ h
  | cons k ks ih =>
    rw [Toml.getAt] at hget
    split at hget
    · next s hs => exact ih (hI.sub h hs) hget
    · cases hget

theorem setAt (hI : Kept I V) (h : I t) (hsub : I sub) : I (setAt t segs sub) := by
  induction segs generalizing t with
  | nil => exact hsub
  | cons k ks ih =>
    rw [Toml.setAt]
    split
    · next s hs => exact hI.set h (hI.table (ih (hI.sub h hs)))
    · exact h

/-! ## Statements -/

/-- A header adds empty tables only. -/
theorem parseHeader (hI : Kept I V) (h : I st.root)
    (hstep : Toml.parseHeader st cursor = .ok st') : I st'.root := by
  rw [Toml.parseHeader] at hstep
  cases hpath : parseKeyPath "invalid table header" cursor with
  | error e => rw [hpath] at hstep; cases hstep
  | ok r =>
    obtain ⟨segs, cursor'⟩ := r
    simp only [hpath] at hstep
    cases hp : cursor'.p with
    | nil => simp only [hp] at hstep; cases hstep
    | cons c cs =>
      simp only [hp] at hstep
      split_ifs at hstep
      cases hend : skipLineEnd cs with
      | none => simp only [hend] at hstep; cases hstep
      | some p =>
        simp only [hend] at hstep
        cases henter : Toml.enter st.root segs with
        | none => simp only [henter] at hstep; cases hstep
        | some root =>
          simp only [henter] at hstep
          cases hstep
          exact hI.enter h henter

/-- A key that is already there is not added. -/
theorem parseAssign (hI : Kept I V)
    (hV : ∀ {cursor v cursor'}, parseValue cursor = .ok (v, cursor') → V v) (h : I st.root)
    (hstep : Toml.parseAssign st cursor = .ok st') : I st'.root := by
  rw [Toml.parseAssign] at hstep
  cases hpath : parseKeyPath "expected key" cursor with
  | error e => rw [hpath] at hstep; cases hstep
  | ok r =>
    obtain ⟨segs, cursor'⟩ := r
    simp only [hpath] at hstep
    split_ifs at hstep
    generalize skipWs false (skipWs false cursor'.p cursor'.line).p.tail
      (skipWs false cursor'.p cursor'.line).line = cursor' at hstep
    cases henter : Toml.enter st.root (st.cur ++ segs.dropLast) with
    | none => simp only [henter] at hstep; cases hstep
    | some root =>
      simp only [henter] at hstep
      have hroot := hI.enter h henter
      cases hval : parseValue cursor' with
      | error e => rw [hval] at hstep; cases hstep
      | ok r =>
        obtain ⟨val, cursor'⟩ := r
        simp only [hval] at hstep
        cases hend : skipLineEnd cursor'.p with
        | none => simp only [hend] at hstep; cases hstep
        | some p =>
          simp only [hend] at hstep
          cases hstep
          -- where the key is refused the tables that were entered stay
          set added := do
            let parent ← Toml.getAt root (st.cur ++ segs.dropLast)
            let parent ← tableAdd parent (segs.getLastD CStr.empty) val
            return Toml.setAt root (st.cur ++ segs.dropLast) parent with hadded
          cases hroot' : added with
          | none => exact hroot
          | some root' =>
            rw [hadded] at hroot'
            obtain ⟨parent, hparent, hroot'⟩ := Option.bind_eq_some_iff.mp hroot'
            obtain ⟨parent', hadd, hroot'⟩ := Option.bind_eq_some_iff.mp hroot'
            obtain ⟨hnew, rfl⟩ := tableAdd_eq_some.mp hadd
            cases hroot'
            exact hI.setAt hroot (hI.add (hI.getAt hroot hparent) hnew (hV hval))

/-- One turn of the loop. -/
theorem parseStep (hI : Kept I V)
    (hV : ∀ {cursor v cursor'}, parseValue cursor = .ok (v, cursor') → V v) (h : I st.root)
    (hstep : Toml.parseStep st cursor = .ok st') : I st'.root := by
  rw [Toml.parseStep] at hstep
  split_ifs at hstep
  · exact hI.parseHeader h hstep
  · exact hI.parseAssign hV h hstep

/-- By induction on the turns; the tree at the end is the one built so far. -/
theorem parseLoop (hI : Kept I V)
    (hV : ∀ {cursor v cursor'}, parseValue cursor = .ok (v, cursor') → V v) {n : ℕ} (h : I st.root)
    (hloop : Toml.parseLoop n st = .ok t) : I t := by
  -- both exits give the tree, or the error
  have hend : ∀ st : ParseState, I st.root →
      st.err.elim (Except.ok st.root) Except.error = .ok t → I t := by
    intro st h hend
    cases herr : st.err with
    | none =>
      rw [herr] at hend
      cases hend
      exact h
    | some e =>
      rw [herr] at hend
      cases hend
  induction n generalizing st with
  | zero => exact hend st h hloop
  | succ n ih =>
    rw [Toml.parseLoop] at hloop
    split_ifs at hloop
    · exact hend st h hloop
    · cases hstep : Toml.parseStep st (skipWs false st.cursor.p st.cursor.line) with
      | error e =>
        rw [hstep] at hloop
        cases hloop
      | ok st' =>
        rw [hstep] at hloop
        exact ih (hI.parseStep hV h hstep) hloop

/-- A property that the edits keep holds of parsed texts. -/
theorem tomlParse (hI : Kept I V)
    (hV : ∀ {cursor v cursor'}, parseValue cursor = .ok (v, cursor') → V v) {text : Bytes}
    (h : Toml.tomlParse text = .ok t) : I t := hI.parseLoop hV hI.nil h

end Kept

/-! ## Values -/

section

variable {cursor cursor' : Cursor} {v : TomlValue}

theorem parseNumber_cases (h : parseNumber cursor = .ok (v, cursor')) :
    (∃ i, v = .int i) ∨ ∃ s, v = .float (Printf.strtodDecimal s).1 := by
  simp only [parseNumber] at h
  split_ifs at h
  · cases h
    exact .inr ⟨_, rfl⟩
  · cases h
    exact .inl ⟨_, rfl⟩

/-- A value of a text is no table, and every float is one that `strtod` reads. -/
theorem parseValue_cases (h : parseValue cursor = .ok (v, cursor')) :
    (∃ s, v = .str s) ∨ (∃ items, v = .arr items) ∨ (∃ b, v = .bool b) ∨ (∃ i, v = .int i) ∨
      ∃ s, v = .float (Printf.strtodDecimal s).1 := by
  rw [parseValue] at h
  split at h
  · cases h
  · next c cs _ =>
    split_ifs at h
    · cases hread : parseCString c ⟨cs, cursor.line⟩ with
      | error e => rw [hread] at h; cases h
      | ok r =>
        rw [hread] at h
        cases h
        exact .inl ⟨_, rfl⟩
    · cases hread : parseArrayFuel cs.length ⟨cs, cursor.line⟩ with
      | error e => rw [hread] at h; cases h
      | ok r =>
        rw [hread] at h
        cases h
        exact .inr (.inl ⟨_, rfl⟩)
    · cases h
      exact .inr (.inr (.inl ⟨_, rfl⟩))
    · cases h
      exact .inr (.inr (.inl ⟨_, rfl⟩))
    · exact .inr (.inr (.inr (parseNumber_cases h)))

end

/-! ## Keys -/

/-- Keys that are already there are refused. -/
theorem kept_wellFormed : Kept (fun t => (TomlValue.table t).WellFormed) TomlValue.WellFormed where
  nil := ⟨List.nodup_nil, trivial⟩
  table h := h
  sub h hget := membersWellFormed_iff.mp h.2 _ (Assoc.mem_of_get hget)
  add := by
    rintro t k v ⟨hnodup, hms⟩ hnew hv
    refine ⟨?_, membersWellFormed_iff.mpr fun m hm => ?_⟩
    · rw [List.map_append, List.nodup_append]
      refine ⟨hnodup, List.nodup_singleton _, ?_⟩
      rintro a ha b hb rfl
      rw [List.map_singleton, List.mem_singleton] at hb
      rw [hb] at ha
      exact Assoc.get_eq_none_iff.mp hnew ha
    · rcases List.mem_append.mp hm with hm | hm
      · exact membersWellFormed_iff.mp hms m hm
      · rw [List.mem_singleton.mp hm]
        exact hv
  set := by
    rintro t k v ⟨hnodup, hms⟩ hv
    refine ⟨by rwa [Assoc.map_fst_set], membersWellFormed_iff.mpr ?_⟩
    exact Assoc.forall_mem_set (membersWellFormed_iff.mp hms) hv

/-- The keys of every table of a parsed text are distinct. -/
theorem wellFormed_of_tomlParse {t : Members} {text : Bytes} (h : tomlParse text = .ok t) :
    (TomlValue.table t).WellFormed := by
  refine kept_wellFormed.tomlParse (fun hv => ?_) h
  rcases parseValue_cases hv with ⟨s, rfl⟩ | ⟨items, rfl⟩ | ⟨b, rfl⟩ | ⟨i, rfl⟩ | ⟨s, rfl⟩ <;> trivial

end Toml
