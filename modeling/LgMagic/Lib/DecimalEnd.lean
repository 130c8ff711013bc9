import LgMagic.Lib.Printf

/-!
# Where a decimal ends

`strtod` is given no length and reads as far as it can. What it takes of a text depends on the bytes
it takes only, so that a number which ends before some other text is the same number without it; and
a number at the end of a text does not end there once a digit follows.

* `span_of_append`, `takeFraction_of_append`, `takeExp_of_append`: the pieces of a decimal;
* `strtodDecimal_of_append`: a number that ends before what follows;
* `strtodDecimal_append_digit`: a number that a digit follows.
-/

namespace Printf

open CString Binary64

/-! ## The bytes that are read -/

/-- A scan that leaves what follows alone takes the same bytes without it. -/
theorem span_of_append {p : UInt8 → Bool} {u b y : Bytes} (h : (u ++ b).dropWhile p = y ++ b) :
    u.takeWhile p = (u ++ b).takeWhile p ∧ u.dropWhile p = y := by
  have hsplit : u = (u ++ b).takeWhile p ++ y := by
    have happend := List.takeWhile_append_dropWhile (p := p) (l := u ++ b)
    rw [h, ← List.append_assoc] at happend
    exact (List.append_cancel_right happend).symm
  have hall : ∀ c ∈ (u ++ b).takeWhile p, p c = true := fun c hc => List.mem_takeWhile_imp hc
  -- what is left starts with a byte that the scan does not take
  have hhead : ∀ c ∈ y.head?, p c = false := by
    intro c hc
    have hdrop := List.head?_dropWhile_not p (u ++ b)
    rw [h, List.head?_append, hc] at hdrop
    simpa using hdrop
  obtain ⟨htake, hdrop⟩ := span_append p hhead ((u ++ b).takeWhile p)
  rw [← hsplit, List.takeWhile_eq_self_iff.mpr hall] at htake
  rw [← hsplit, List.dropWhile_eq_nil_iff.mpr hall] at hdrop
  exact ⟨htake, hdrop⟩

theorem takeWhile_append_ne_nil {p : UInt8 → Bool} {u : Bytes} (h : u.takeWhile p ≠ []) (b : Bytes) :
    (u ++ b).takeWhile p ≠ [] := by
  cases u with
  | nil => exact absurd rfl h
  | cons c u =>
    cases hc : p c with
    | true => simp [hc]
    | false => simp [hc] at h

theorem takeSign_cons_append (c : UInt8) (u b : Bytes) :
    takeSign (c :: u ++ b) = ((takeSign (c :: u)).1, (takeSign (c :: u)).2 ++ b) := by
  simp only [List.cons_append, takeSign]
  split_ifs <;> rfl

theorem takeSign_suffix (t : Bytes) : (takeSign t).2 <:+ t := by
  cases t with
  | nil => exact List.suffix_rfl
  | cons c cs =>
    simp only [takeSign]
    split_ifs
    · exact List.suffix_cons c cs
    · exact List.suffix_cons c cs
    · exact List.suffix_rfl

theorem takeFraction_suffix (t : Bytes) : (takeFraction t).2 <:+ t := by
  cases t with
  | nil => exact List.suffix_rfl
  | cons c cs =>
    simp only [takeFraction]
    split_ifs
    · exact (List.dropWhile_suffix _).trans (List.suffix_cons c cs)
    · exact List.suffix_rfl

/-- The value of the digits of an exponent. -/
def expVal (neg : Bool) (ds : Bytes) : ℤ :=
  if neg then -(natOfDigits (ds.map digitVal) : ℕ) else (natOfDigits (ds.map digitVal) : ℕ)

theorem takeExp_cons (c : UInt8) (cs : Bytes) :
    takeExp (c :: cs) =
      if (c == 0x65 || c == 0x45) = true ∧ (takeSign cs).2.takeWhile isDigit ≠ [] then
        (expVal (takeSign cs).1 ((takeSign cs).2.takeWhile isDigit), (takeSign cs).2.dropWhile isDigit)
      else (0, c :: cs) := by
  simp only [takeExp, expVal]
  by_cases he : (c == 0x65 || c == 0x45) = true <;>
    by_cases hds : (takeSign cs).2.takeWhile isDigit = [] <;> simp [he, hds]

theorem takeExp_suffix (t : Bytes) : (takeExp t).2 <:+ t := by
  cases t with
  | nil => exact List.suffix_rfl
  | cons c cs =>
    rw [takeExp_cons]
    split_ifs
    · exact ((List.dropWhile_suffix _).trans (takeSign_suffix cs)).trans (List.suffix_cons c cs)
    · exact List.suffix_rfl

/-- Nothing is left of a longer text than of its suffix. -/
theorem eq_nil_of_suffix_of_append {c : UInt8} {y b cs : Bytes} (h : y ++ b <:+ cs) (hb : b = c :: cs) :
    False := by
  have hlen := h.length_le
  rw [List.length_append, hb, List.length_cons] at hlen
  omega

/-- A fraction in front of a text that is left alone is the same without it. -/
theorem takeFraction_of_append {u b y fp : Bytes} (h : takeFraction (u ++ b) = (fp, y ++ b)) :
    takeFraction u = (fp, y) := by
  cases u with
  | nil =>
    cases b with
    | nil => simpa using h
    | cons c cs =>
      simp only [List.nil_append, takeFraction] at h
      split_ifs at h with hpoint
      · obtain ⟨-, hrest⟩ := Prod.mk.injEq .. ▸ h
        exact (eq_nil_of_suffix_of_append (hrest ▸ List.dropWhile_suffix _) rfl).elim
      · obtain ⟨rfl, hrest⟩ := Prod.mk.injEq .. ▸ h
        have hy : y = [] := by simpa using hrest
        rw [hy]
        rfl
  | cons c u =>
    simp only [List.cons_append, takeFraction] at h ⊢
    split_ifs at h ⊢ with hpoint
    · obtain ⟨rfl, hrest⟩ := Prod.mk.injEq .. ▸ h
      obtain ⟨htake, hdrop⟩ := span_of_append hrest
      rw [htake, hdrop]
    · obtain ⟨rfl, hrest⟩ := Prod.mk.injEq .. ▸ h
      have hy : c :: u = y := List.append_cancel_right hrest
      rw [hy]

/-- The same for an exponent. -/
theorem takeExp_of_append {u b y : Bytes} {e : ℤ} (h : takeExp (u ++ b) = (e, y ++ b)) :
    takeExp u = (e, y) := by
  cases u with
  | nil =>
    cases b with
    | nil => simpa using h
    | cons c cs =>
      rw [List.nil_append, takeExp_cons] at h
      split_ifs at h
      · obtain ⟨-, hrest⟩ := Prod.mk.injEq .. ▸ h
        have hsuffix := (List.dropWhile_suffix isDigit).trans (takeSign_suffix cs)
        exact (eq_nil_of_suffix_of_append (hrest ▸ hsuffix) rfl).elim
      · obtain ⟨rfl, hrest⟩ := Prod.mk.injEq .. ▸ h
        have hy : y = [] := by simpa using hrest
        rw [hy]
        rfl
  | cons c u =>
    rw [List.cons_append, takeExp_cons] at h
    rw [takeExp_cons]
    -- the scan of the sign and of the digits does not see what follows either
    have hscan : ∀ {y : Bytes}, (takeSign (u ++ b)).2.takeWhile isDigit ≠ [] →
        (takeSign (u ++ b)).2.dropWhile isDigit = y ++ b →
        (takeSign u).1 = (takeSign (u ++ b)).1 ∧
          (takeSign u).2.takeWhile isDigit = (takeSign (u ++ b)).2.takeWhile isDigit ∧
            (takeSign u).2.dropWhile isDigit = y := by
      intro y hds hrest
      cases u with
      | nil =>
        have hlen := congrArg List.length (List.takeWhile_append_dropWhile (p := isDigit)
          (l := (takeSign b).2))
        have hsuffix := (takeSign_suffix b).length_le
        have hpos := List.length_pos_iff.mpr hds
        rw [List.nil_append] at hrest hpos
        rw [List.length_append, hrest, List.length_append] at hlen
        omega
      | cons c' u =>
        rw [takeSign_cons_append] at hrest ⊢
        obtain ⟨htake, hdrop⟩ := span_of_append hrest
        exact ⟨rfl, htake, hdrop⟩
    split_ifs at h with hexp
    · obtain ⟨rfl, hrest⟩ := Prod.mk.injEq .. ▸ h
      obtain ⟨hneg, htake, hdrop⟩ := hscan hexp.2 hrest
      rw [hneg, htake, hdrop, if_pos hexp]
    · obtain ⟨rfl, hrest⟩ := Prod.mk.injEq .. ▸ h
      rw [← List.append_cancel_right (show c :: u ++ b = y ++ b from hrest)]
      rw [if_neg]
      rintro ⟨he, hds⟩
      refine hexp ⟨he, ?_⟩
      cases u with
      | nil => exact absurd rfl hds
      | cons c' u =>
        rw [takeSign_cons_append]
        exact takeWhile_append_ne_nil hds b

/-- The pieces of a decimal are the same without what follows, if that is left alone. -/
theorem pieces_of_append {c : UInt8} (hc : isSpace c = false) {u b : Bytes} {d : Double}
    (h : strtodDecimal (c :: u ++ b) = (d, b)) :
    (takeSign (c :: u ++ b)).2.takeWhile isDigit = (takeSign (c :: u)).2.takeWhile isDigit ∧
      ∃ fp e x y, takeFraction ((takeSign (c :: u ++ b)).2.dropWhile isDigit) = (fp, x) ∧
        takeFraction ((takeSign (c :: u)).2.dropWhile isDigit) = (fp, y) ∧
          takeExp x = (e, b) ∧ takeExp y = (e, []) := by
  have hspace : (c :: u ++ b).dropWhile isSpace = c :: u ++ b := by simp [hc]
  rw [strtodDecimal, hspace] at h
  rw [takeSign_cons_append] at h ⊢
  set t := (takeSign (c :: u)).2
  dsimp only at h ⊢
  rcases hfrac : takeFraction ((t ++ b).dropWhile isDigit) with ⟨fp, x⟩
  rcases hexp : takeExp x with ⟨e, rest⟩
  simp only [hfrac, hexp] at h
  have hrest : rest = b := by
    split_ifs at h
    · have hlen := congrArg (fun p => p.2.length) h
      simp only [List.length_append, List.length_cons] at hlen
      omega
    · exact congrArg Prod.snd h
  subst hrest
  -- the fraction starts before the exponent, and the exponent before what follows
  obtain ⟨y, rfl⟩ : rest <:+ x := by simpa [hexp] using takeExp_suffix x
  obtain ⟨z, hz⟩ : y ++ rest <:+ (t ++ rest).dropWhile isDigit := by
    simpa [hfrac] using takeFraction_suffix ((t ++ rest).dropWhile isDigit)
  rw [← List.append_assoc] at hz
  obtain ⟨htake, hdrop⟩ := span_of_append hz.symm
  rw [← hz] at hfrac
  refine ⟨htake.symm, fp, e, y ++ rest, y, rfl, ?_, hexp, ?_⟩
  · rw [hdrop]
    exact takeFraction_of_append hfrac
  · exact takeExp_of_append (by rwa [List.nil_append])

/-- What `strtod` reads depends on the bytes that it takes only. -/
theorem strtodDecimal_of_append {c : UInt8} (hc : isSpace c = false) {u b : Bytes} {d : Double}
    (h : strtodDecimal (c :: u ++ b) = (d, b)) : strtodDecimal (c :: u) = (d, []) := by
  obtain ⟨htake, fp, e, x, y, hfrac, hfrac', hexp, hexp'⟩ := pieces_of_append hc h
  have hspace : (c :: u).dropWhile isSpace = c :: u := by simp [hc]
  have hspace' : (c :: u ++ b).dropWhile isSpace = c :: u ++ b := by simp [hc]
  have hsign := congrArg Prod.fst (takeSign_cons_append c u b)
  simp only [strtodDecimal, hspace, hspace', htake, hfrac, hfrac', hexp, hexp', hsign] at h ⊢
  split_ifs at h ⊢
  · have hlen := congrArg (fun p => p.2.length) h
    simp only [List.length_append, List.length_cons] at hlen
    omega
  · exact congrArg (·, []) (congrArg Prod.fst h)

/-! ## More digits -/

theorem takeFraction_append_digit {t : Bytes} (ht : t ≠ []) :
    (takeFraction (t ++ [0x30])).2 = [] ∨
      (takeFraction t).2 ≠ [] ∧ (takeFraction (t ++ [0x30])).2 = (takeFraction t).2 ++ [0x30] := by
  cases t with
  | nil => exact absurd rfl ht
  | cons c cs =>
    simp only [List.cons_append, takeFraction]
    split_ifs with hpoint
    · rw [List.dropWhile_append]
      by_cases hcs : cs.dropWhile isDigit = []
      · exact .inl (by simp [hcs, isDigit])
      · exact .inr ⟨hcs, by simp [hcs]⟩
    · exact .inr ⟨List.cons_ne_nil c cs, rfl⟩

theorem takeExp_append_digit {t : Bytes} (ht : t ≠ []) (h : (takeExp t).2 = []) :
    (takeExp (t ++ [0x30])).2 = [] := by
  cases t with
  | nil => exact absurd rfl ht
  | cons c cs =>
    rw [takeExp_cons] at h
    split_ifs at h with hexp
    · rw [List.cons_append, takeExp_cons]
      cases cs with
      | nil => exact absurd rfl hexp.2
      | cons c' cs =>
        rw [takeSign_cons_append, if_pos ⟨hexp.1, takeWhile_append_ne_nil hexp.2 _⟩]
        dsimp only at h ⊢
        rw [List.dropWhile_append]
        simp [h, isDigit]

/-- One more digit behind a number is not left alone. -/
theorem strtodDecimal_append_digit {c : UInt8} (hc : isSpace c = false) {u : Bytes} {d : Double}
    (h : strtodDecimal (c :: u) = (d, [])) : (strtodDecimal (c :: u ++ [0x30])).2 ≠ [0x30] := by
  have hspace : (c :: u).dropWhile isSpace = c :: u := by simp [hc]
  have hspace' : (c :: u ++ [0x30]).dropWhile isSpace = c :: u ++ [0x30] := by simp [hc]
  set t := (takeSign (c :: u)).2 with ht
  have hread : (takeExp (takeFraction (t.dropWhile isDigit)).2).2 = [] := by
    simp only [strtodDecimal, hspace, ← ht] at h
    split_ifs at h
    · exact absurd (congrArg Prod.snd h) (List.cons_ne_nil c u)
    · exact congrArg Prod.snd h
  -- the digit goes on with the last piece of the number
  have hmore : (takeExp (takeFraction ((t ++ [0x30]).dropWhile isDigit)).2).2 = [] := by
    rw [List.dropWhile_append]
    by_cases hdigits : t.dropWhile isDigit = []
    · simp [hdigits, isDigit, takeFraction, takeExp]
    · rw [if_neg (by simpa using hdigits)]
      rcases takeFraction_append_digit hdigits with hnil | ⟨hne, hrest⟩
      · rw [hnil]
        rfl
      · rw [hrest]
        exact takeExp_append_digit hne hread
  simp only [strtodDecimal, hspace', takeSign_cons_append, ← ht]
  split_ifs
  · simp
  · simp [hmore]

end Printf
