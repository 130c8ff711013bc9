import LgMagic.DBus.Access

/-!
# The bounds of the readers

A length at the very end of a slice is trusted: nothing is left, and the subtraction in its check
wraps. Everywhere else the readers stay inside the slices that they were given.

* `Rd.EndsInLength`: only the length of a string is left;
* `StringAt`, `TextAt`, `BodyStringAt`: where strings begin, in bodies and in the header;
* `inside_rdStr_iff`, `inside_rdValue_iff`, `within_parseHeaderFields_iff`: the readers;
* `inside_iff`: all of them, and the bodies of replies.
-/

namespace DBus

open CString WireFormat Traced

variable {mem : Mem}

/-- The four bytes of a length are all that is left. -/
def Rd.EndsInLength (r : Rd) : Prop := r.stop = r.p + 4

/-! ## Where strings begin -/

/-- A whole string is there, and the next one begins behind its padding. -/
structure NextString (mem : Mem) (r r' : Rd) : Prop where
  left : r.p + 4 < r.stop
  fits : u32At mem r.p ≤ (r.stop - (r.p + 5)) % 2 ^ 32
  nul : mem (r.p + 4 + u32At mem r.p) = 0
  next : r' = rdPad 4 (r.skip (4 + (u32At mem r.p + 1) % 2 ^ 32))

/-- A string of a value of the signature begins there. -/
inductive StringAt (mem : Mem) (r : Rd) (sig : CStr) : Rd → Prop
  | string (is_string : sig = stringSig) : StringAt mem r sig (rdPad 4 r)
  | item {s q : Rd} (is_array : sig = .lit "as") (start : rdPad 4 r = s) (left : s.p + 4 ≤ s.stop)
      (fits : u32At mem s.p ≤ (s.stop - (s.p + 4)) % 2 ^ 32)
      (strings : Relation.ReflTransGen (NextString mem) ⟨s.p + 4, s.p + 4 + u32At mem s.p, 0⟩ q) :
      StringAt mem r sig q
  | variant {n : ℕ} (is_variant : sig = .lit "v") (length : (mem r.p).toNat = n) (pos : n ≠ 0)
      (short : n < 17) (fits : r.p + 1 + n + 1 ≤ r.stop)
      (text : CStr.ofBuffer (slice mem (r.p + 1) n) = stringSig) :
      StringAt mem r sig (rdPad 4 (r.skip (1 + n + 1)))

/-- A header field with the type of its value, and where the value begins. -/
structure FieldHead (mem : Mem) (fend fp : ℕ) (fsig : UInt8) (v : ℕ) : Prop where
  fits : skipPad 8 fend fp + 4 ≤ fend
  one : mem (skipPad 8 fend fp + 1) = 1
  sig : mem (skipPad 8 fend fp + 2) = fsig
  nul : mem (skipPad 8 fend fp + 3) = 0
  value : (if fsig = 0x73 ∨ fsig = 0x6F ∨ fsig = 0x75 then skipPad 4 fend (skipPad 8 fend fp + 4)
    else skipPad 8 fend fp + 4) = v

/-- A whole value of a header field is there, and the next field may begin behind it. -/
inductive ValueEnd (mem : Mem) (fend : ℕ) (fsig : UInt8) (v : ℕ) : ℕ → Prop
  | text (type : fsig = 0x73 ∨ fsig = 0x6F) (left : v + 4 < fend)
      (fits : u32At mem v ≤ (fend - (v + 5)) % 2 ^ 64) (nul : mem (v + 4 + u32At mem v) = 0) :
      ValueEnd mem fend fsig v (skipPad 4 fend (v + 4 + (u32At mem v + 1) % 2 ^ 32))
  | number (type : fsig = 0x75) (fits : v + 4 ≤ fend) : ValueEnd mem fend fsig v (v + 4)
  | signature (type : fsig = 0x67) (fits : v + 1 + (mem v).toNat + 1 ≤ fend) :
      ValueEnd mem fend fsig v (v + 1 + ((mem v).toNat + 1))

/-- A whole header field is there. -/
def NextField (mem : Mem) (fend fp fp' : ℕ) : Prop :=
  ∃ fsig v, FieldHead mem fend fp fsig v ∧ ValueEnd mem fend fsig v fp'

/-- The text of a header field begins there. -/
def TextAt (mem : Mem) (fend v : ℕ) : Prop :=
  ∃ fp fsig, Relation.ReflTransGen (NextField mem fend) 16 fp ∧ FieldHead mem fend fp fsig v ∧
    (fsig = 0x73 ∨ fsig = 0x6F)

/-- A string of the body begins there: the message of an error, or one of the reply to the call. -/
def BodyStringAt (mem : Mem) (serial : UInt32) (f : Frame) (q : Rd) : Prop :=
  f.type = 3 ∧ StringAt mem ⟨f.bodyStart, f.msg.length, 0⟩ stringSig q ∨
    f.type = 2 ∧ f.header.replySerial = serial ∧
      ∃ sig, f.header.sig = some sig ∧ StringAt mem ⟨f.bodyStart, f.msg.length, 0⟩ sig q

/-! ## Numbers and padding -/

namespace Reading

/-- The reader looks at bytes of its slice only, and with a result it has not gone behind its end. -/
structure Inside {α : Type} (r : Rd) (x : Reading (α × Rd)) : Prop where
  within : x.All Access.Within
  fits : ∀ a r', x.value = some (a, r') → r'.stop = r.stop ∧ r.p ≤ r'.p ∧ r'.p ≤ r.stop

variable {r r' : Rd} {s : Span}

theorem within_get {i : ℕ} (hs : s.start ≤ i) (hi : i < s.stop) :
    (get mem s i).All Access.Within := by
  simp [get, Access.Within, hs, hi]

theorem within_copy {p n : ℕ} (hs : s.start ≤ p) (hn : p + n ≤ s.stop) :
    (copy mem s p n).All Access.Within := by
  simp only [copy, all_bind, all_touch, all_pure, implies_true, and_true, List.mem_map,
    List.mem_range]
  rintro _ ⟨i, hi, rfl⟩
  constructor <;> dsimp only <;> omega

theorem within_rdU8 (r : Rd) : (rdU8 mem r).All Access.Within := by
  rw [rdU8]
  split_ifs with h
  · exact all_fail
  · simp only [all_bind, all_pure, implies_true, and_true]
    exact within_get le_rfl (Nat.lt_of_succ_le (Nat.le_of_not_lt h))

theorem within_rdU32 (r : Rd) : (rdU32 mem r).All Access.Within := by
  simp only [rdU32, all_bind, within_rdU8, all_pure, implies_true, and_true]

theorem within_rdSkip (n : ℕ) (r : Rd) : (rdSkip mem n r).All Access.Within := by
  induction n generalizing r with
  | zero => exact all_pure r
  | succ n ih => simp only [rdSkip, all_bind, within_rdU8, ih, implies_true, and_true]

theorem within_rdPad (align : ℕ) (r : Rd) : (rdPad mem align r).All Access.Within :=
  within_rdSkip _ r

theorem rdU8_cases {b : UInt8} (h : DBus.rdU8 mem r = some (b, r')) :
    r.p < r.stop ∧ b = mem r.p ∧ r' = r.skip 1 := by
  rw [DBus.rdU8] at h
  split_ifs at h with hlt
  obtain ⟨rfl, rfl⟩ := Prod.mk.inj (Option.some.inj h)
  exact ⟨by omega, rfl, rfl⟩

theorem rdU32_cases {n : ℕ} (h : DBus.rdU32 mem r = some (n, r')) :
    r.p + 4 ≤ r.stop ∧ n = u32At mem r.p ∧ r' = r.skip 4 := by
  by_cases hle : r.p + 4 ≤ r.stop
  · obtain ⟨rfl, rfl⟩ := Prod.mk.inj (Option.some.inj (h.symm.trans (rdU32_of_le hle)))
    exact ⟨hle, rfl, rfl⟩
  · -- one of the four bytes is missing
    rw [DBus.rdU32] at h
    obtain ⟨⟨b₀, r₁⟩, h₀, h⟩ := Option.bind_eq_some_iff.mp h
    obtain ⟨⟨b₁, r₂⟩, h₁, h⟩ := Option.bind_eq_some_iff.mp h
    obtain ⟨⟨b₂, r₃⟩, h₂, h⟩ := Option.bind_eq_some_iff.mp h
    obtain ⟨⟨b₃, r₄⟩, h₃, -⟩ := Option.bind_eq_some_iff.mp h
    obtain ⟨-, -, rfl⟩ := rdU8_cases h₀
    obtain ⟨-, -, rfl⟩ := rdU8_cases h₁
    obtain ⟨-, -, rfl⟩ := rdU8_cases h₂
    obtain ⟨hlast, -, -⟩ := rdU8_cases h₃
    dsimp only [Rd.skip] at hlast
    omega

theorem inside_rdU8 (r : Rd) : Inside r (rdU8 mem r) where
  within := within_rdU8 r
  fits b r' h := by
    obtain ⟨hlt, -, rfl⟩ := rdU8_cases (value_rdU8 r ▸ h)
    exact ⟨rfl, Nat.le_succ _, hlt⟩

theorem inside_rdU32 (r : Rd) : Inside r (rdU32 mem r) where
  within := within_rdU32 r
  fits n r' h := by
    obtain ⟨hle, -, rfl⟩ := rdU32_cases (value_rdU32 r ▸ h)
    exact ⟨rfl, Nat.le_add_right _ _, hle⟩

theorem stop_rdPad (align : ℕ) (r : Rd) : (DBus.rdPad align r).stop = r.stop := rfl

theorem le_rdPad (align : ℕ) (r : Rd) : r.p ≤ (DBus.rdPad align r).p := Nat.le_add_right _ _

theorem rdPad_le {align : ℕ} (h : r.p ≤ r.stop) : (DBus.rdPad align r).p ≤ r.stop := by
  have := Nat.min_le_right (padLen align r.off) (r.stop - r.p)
  dsimp only [DBus.rdPad]
  omega

theorem u32At_lt (mem : Mem) (p : ℕ) : u32At mem p < 2 ^ 32 := by
  have h := ofLe_lt (slice mem p 4)
  rwa [length_slice] at h

/-! ## Strings -/

/-- A text after its length, which is in the slice with a byte of the slice left. -/
theorem within_rdText {len : ℕ} (hs : s.start ≤ r.p) (hstop : s.stop = r.stop) (h : r.p < r.stop) :
    (rdText mem s len r).All Access.Within := by
  rw [rdText]
  split_ifs with hlong
  · exact all_fail
  · have hlen : r.p + len < s.stop := by omega
    simp only [all_bind]
    refine ⟨within_get (hs.trans (Nat.le_add_right _ _)) hlen, fun nul _ => ?_⟩
    split_ifs
    · exact all_fail
    · simp only [all_bind, all_pure, within_rdPad, implies_true, and_true]
      exact within_copy hs hlen.le

/-- With nothing left the byte that ought to end the text is not in the slice. -/
theorem not_within_rdText {len : ℕ} (hstop : s.stop = r.p) (h : r.stop = r.p) (hlen : len < 2 ^ 32) :
    ¬ (rdText mem s len r).All Access.Within := by
  intro hall
  have hshort : ¬ (r.stop - r.p + (2 ^ 32 - 1)) % 2 ^ 32 < len := by omega
  rw [rdText, if_neg hshort, all_bind] at hall
  have hget : Access.Within ⟨s, r.p + len⟩ := hall.1 _ (List.mem_singleton_self _)
  have := hget.2
  dsimp only at this
  omega

/-- As long as something is left the check of a length does what it is for. -/
theorem length_passes {len left : ℕ} (h : 0 < left) :
    ¬ (left + (2 ^ 32 - 1)) % 2 ^ 32 < len ↔ len ≤ (left - 1) % 2 ^ 32 := by
  omega

theorem rdText_iff {len : ℕ} {t : CStr} :
    DBus.rdText mem len r = some (t, r') ↔
      ¬ (r.stop - r.p + (2 ^ 32 - 1)) % 2 ^ 32 < len ∧ mem (r.p + len) = 0 ∧
        t = CStr.ofBuffer (slice mem r.p len) ∧
        r' = DBus.rdPad 4 (r.skip ((len + 1) % 2 ^ 32)) := by
  rw [DBus.rdText]
  by_cases hlong : (r.stop - r.p + (2 ^ 32 - 1)) % 2 ^ 32 < len
  · rw [if_pos hlong]
    exact iff_of_false (fun h => by cases h) fun h => h.1 hlong
  by_cases hnul : mem (r.p + len) ≠ 0
  · rw [if_neg hlong, if_pos hnul]
    exact iff_of_false (fun h => by cases h) fun h => hnul h.2.1
  rw [if_neg hlong, if_neg hnul, Option.some.injEq, Prod.mk.injEq]
  constructor
  · rintro ⟨ht, hr⟩
    exact ⟨hlong, not_not.mp hnul, ht.symm, hr.symm⟩
  · rintro ⟨-, -, ht, hr⟩
    exact ⟨ht.symm, hr.symm⟩

theorem rdStr_iff_next (h : ¬ r.EndsInLength) :
    (∃ t, DBus.rdStr mem r = some (t, r')) ↔ NextString mem r r' := by
  rw [rdStr_eq]
  constructor
  · rintro ⟨t, ht⟩
    obtain ⟨⟨len, r₁⟩, hlen, ht⟩ := Option.bind_eq_some_iff.mp ht
    obtain ⟨hle, rfl, rfl⟩ := rdU32_cases hlen
    have hlt : r.p + 4 < r.stop := lt_of_le_of_ne hle fun he => h he.symm
    obtain ⟨hlong, hnul, -, rfl⟩ := rdText_iff.mp ht
    rw [length_passes (show 0 < (r.skip 4).stop - (r.skip 4).p from Nat.sub_pos_of_lt hlt),
      Nat.sub_sub] at hlong
    exact ⟨hlt, hlong, hnul, by rw [Rd.skip_skip]⟩
  · rintro ⟨hlt, hfits, hnul, rfl⟩
    refine ⟨CStr.ofBuffer (slice mem (r.p + 4) (u32At mem r.p)), ?_⟩
    rw [rdU32_of_le hlt.le, Option.bind_some]
    rw [rdText_iff, length_passes (show 0 < (r.skip 4).stop - (r.skip 4).p from
      Nat.sub_pos_of_lt hlt), Nat.sub_sub, Rd.skip_skip]
    exact ⟨hfits, hnul, rfl, rfl⟩

theorem bounds_of_next (h : NextString mem r r') :
    r'.stop = r.stop ∧ r.p < r'.p ∧ r'.p ≤ r.stop := by
  obtain ⟨hlt, hfits, -, rfl⟩ := h
  generalize hn : (u32At mem r.p + 1) % 2 ^ 32 = n
  have hle : (r.skip (4 + n)).p ≤ (r.skip (4 + n)).stop := by
    dsimp only [Rd.skip]
    omega
  have hpad := le_rdPad 4 (r.skip (4 + n))
  refine ⟨rfl, ?_, rdPad_le hle⟩
  dsimp only [Rd.skip] at hpad ⊢
  omega

theorem within_rdStr_iff (r : Rd) :
    (rdStr mem r).All Access.Within ↔ ¬ r.EndsInLength := by
  rw [rdStr, all_bind]
  constructor
  · rintro ⟨-, hall⟩ hend
    have hread : (rdU32 mem r).value = some (u32At mem r.p, r.skip 4) :=
      (value_rdU32 r).trans (rdU32_of_le (le_of_eq hend.symm))
    have htext := hall _ hread
    dsimp only at htext
    exact absurd htext (not_within_rdText (show r.span.stop = (r.skip 4).p from hend)
      (show (r.skip 4).stop = (r.skip 4).p from hend) (u32At_lt mem r.p))
  · intro hend
    refine ⟨within_rdU32 r, ?_⟩
    rintro ⟨len, r₁⟩ hread
    obtain ⟨hle, rfl, rfl⟩ := rdU32_cases (value_rdU32 r ▸ hread)
    have hlt : r.p + 4 < r.stop := lt_of_le_of_ne hle fun he => hend he.symm
    exact within_rdText (Nat.le_add_right _ _) rfl hlt

/-- `rd_str` stays inside unless only the length is left. -/
theorem inside_rdStr_iff (r : Rd) : Inside r (rdStr mem r) ↔ ¬ r.EndsInLength := by
  refine ⟨fun h => (within_rdStr_iff r).mp h.within, fun h => ⟨(within_rdStr_iff r).mpr h, ?_⟩⟩
  intro t r' ht
  obtain ⟨hstop, hlt, hle⟩ := bounds_of_next ((rdStr_iff_next h).mp ⟨t, value_rdStr r ▸ ht⟩)
  exact ⟨hstop, hlt.le, hle⟩

/-! ## Arrays -/

/-- The strings of an array are read while something of it is left. -/
theorem round_iff_next (h : ¬ r.EndsInLength) :
    Round (fun r : Rd => r.p < r.stop) (rdStr mem) r r' ↔ NextString mem r r' := by
  rw [Round]
  simp only [value_rdStr, rdStr_iff_next h]
  exact ⟨fun h => h.2, fun h => ⟨lt_of_le_of_lt (Nat.le_add_right _ 4) h.left, h⟩⟩

/-- A string takes up some bytes, also one that was read from behind the slice. -/
theorem lt_of_rdStr {t : CStr} (h : DBus.rdStr mem r = some (t, r')) :
    r'.stop = r.stop ∧ r.p < r'.p := by
  rw [rdStr_eq] at h
  obtain ⟨⟨len, r₁⟩, hlen, h⟩ := Option.bind_eq_some_iff.mp h
  obtain ⟨-, rfl, rfl⟩ := rdU32_cases hlen
  obtain ⟨-, -, -, rfl⟩ := rdText_iff.mp h
  dsimp only
  generalize (u32At mem r.p + 1) % 2 ^ 32 = n
  have hpad := le_rdPad 4 ((r.skip 4).skip n)
  refine ⟨rfl, ?_⟩
  dsimp only [Rd.skip] at hpad ⊢
  omega

theorem within_rdStrings_iff {n : ℕ} (hn : r.stop - r.p ≤ n) :
    (rdStrings mem n r).All Access.Within ↔
      ∀ q, Relation.ReflTransGen (NextString mem) r q → ¬ q.EndsInLength := by
  have hagree : ∀ s : Rd, ¬ s.EndsInLength → ∀ s', Round (fun r : Rd => r.p < r.stop) (rdStr mem) s s' ↔
      NextString mem s s' := fun s h s' => round_iff_next h
  rw [← forall_reachable_congr hagree, rdStrings, all_collect_iff fun r : Rd => r.stop - r.p]
  · refine forall₂_congr fun q _ => ?_
    rw [within_rdStr_iff]
    exact ⟨fun h hend => h (by rw [hend]; exact Nat.lt_add_of_pos_right (by decide)) hend,
      fun h _ => h⟩
  · exact fun s h => Nat.sub_pos_of_lt h
  · rintro s s' ⟨hmore, t, ht⟩
    obtain ⟨hstop, hlt⟩ := lt_of_rdStr (value_rdStr s ▸ ht)
    omega
  · exact hn

/-- By induction on the strings that come before. -/
theorem bounds_of_reachable (h : Relation.ReflTransGen (NextString mem) r r') (hr : r.p ≤ r.stop) :
    r'.stop = r.stop ∧ r.p ≤ r'.p ∧ r'.p ≤ r.stop := by
  induction h with
  | refl => exact ⟨rfl, le_rfl, hr⟩
  | tail _ hnext ih =>
    obtain ⟨hstop, hlt, hle⟩ := bounds_of_next hnext
    omega

/-- Where the strings of an array begin. -/
theorem stringAt_array {q : Rd} :
    StringAt mem r (.lit "as") q ↔ (DBus.rdPad 4 r).p + 4 ≤ r.stop ∧
      u32At mem (DBus.rdPad 4 r).p ≤ (r.stop - ((DBus.rdPad 4 r).p + 4)) % 2 ^ 32 ∧
      Relation.ReflTransGen (NextString mem) ⟨(DBus.rdPad 4 r).p + 4,
        (DBus.rdPad 4 r).p + 4 + u32At mem (DBus.rdPad 4 r).p, 0⟩ q := by
  constructor
  · rintro (⟨h⟩ | ⟨-, rfl, hleft, hfits, hq⟩ | ⟨h⟩)
    · exact absurd h (by decide)
    · exact ⟨hleft, hfits, hq⟩
    · exact absurd h (by decide)
  · rintro ⟨hleft, hfits, hq⟩
    exact .item rfl rfl hleft hfits hq

theorem within_rdArray_iff (r : Rd) : (rdArray mem r).All Access.Within ↔
    ∀ q, StringAt mem r (.lit "as") q → ¬ q.EndsInLength := by
  simp only [rdArray, all_bind, within_rdPad, value_rdPad, within_rdU32, value_rdU32, true_and,
    Option.some.injEq, forall_eq', stringAt_array]
  have hstop := stop_rdPad 4 r
  generalize DBus.rdPad 4 r = s at hstop ⊢
  rw [← hstop]
  by_cases hleft : s.p + 4 ≤ s.stop
  · rw [rdU32_of_le hleft]
    simp only [Option.some.injEq, forall_eq']
    by_cases hlong : ((s.skip 4).stop - (s.skip 4).p) % 2 ^ 32 < u32At mem s.p
    · refine iff_of_true ?_ fun q hq => absurd hq.2.1 (Nat.not_le.mpr hlong)
      rw [if_pos hlong]
      exact all_fail
    · rw [if_neg hlong]
      simp only [all_bind, all_pure, implies_true, and_true]
      refine (within_rdStrings_iff (Nat.sub_le_of_le_add (Nat.le_of_eq (Nat.add_comm _ _)))).trans ?_
      exact ⟨fun h q hq => h q hq.2.2, fun h q hq => h q ⟨hleft, Nat.le_of_not_lt hlong, hq⟩⟩
  · refine iff_of_true ?_ fun q hq => absurd hq.1 hleft
    rintro ⟨n, r'⟩ hread
    exact absurd (rdU32_cases hread).1 hleft

theorem inside_rdArray (h : ∀ q, StringAt mem r (.lit "as") q → ¬ q.EndsInLength) :
    Inside r (rdArray mem r) := by
  refine ⟨(within_rdArray_iff r).mpr h, fun v r' hread => ?_⟩
  rw [value_rdArray, DBus.rdArray] at hread
  obtain ⟨⟨n, r₁⟩, hlen, hread⟩ := Option.bind_eq_some_iff.mp hread
  obtain ⟨hleft, rfl, rfl⟩ := rdU32_cases hlen
  dsimp only at hread
  by_cases hlong : (((DBus.rdPad 4 r).skip 4).stop - ((DBus.rdPad 4 r).skip 4).p) % 2 ^ 32 <
      u32At mem (DBus.rdPad 4 r).p
  · rw [if_pos hlong] at hread
    cases hread
  rw [if_neg hlong] at hread
  obtain ⟨⟨items, ar⟩, hitems, hread⟩ := Option.bind_eq_some_iff.mp hread
  obtain ⟨-, rfl⟩ := Prod.mk.inj (Option.some.inj hread)
  -- the array ends where its strings do
  have hfits : u32At mem (DBus.rdPad 4 r).p ≤ r.stop - ((DBus.rdPad 4 r).p + 4) :=
    (Nat.le_of_not_lt hlong).trans (Nat.mod_le _ _)
  have hreach := reachable_of_good (fun s (hs : ¬ s.EndsInLength) s' => (round_iff_next hs).mp)
    (fun q hq => h q (stringAt_array.mpr ⟨hleft, Nat.le_of_not_lt hlong, hq⟩))
    (reachable_of_collect ((value_rdStrings _ _).trans hitems))
  obtain ⟨-, hle, hend⟩ := bounds_of_reachable hreach (Nat.le_add_right _ _)
  have hpad := le_rdPad 4 r
  have hstop := stop_rdPad 4 r
  dsimp only [Rd.skip] at hle hend ⊢
  omega

/-! ## Values -/

theorem stringAt_string {q : Rd} : StringAt mem r stringSig q ↔ q = DBus.rdPad 4 r := by
  constructor
  · rintro (⟨-⟩ | ⟨h⟩ | ⟨h⟩)
    · rfl
    · exact absurd h (by decide)
    · exact absurd h (by decide)
  · rintro rfl
    exact .string rfl

theorem stringAt_variant {q : Rd} :
    StringAt mem r (.lit "v") q ↔ (mem r.p).toNat ≠ 0 ∧ (mem r.p).toNat < 17 ∧
      r.p + 1 + (mem r.p).toNat + 1 ≤ r.stop ∧
      CStr.ofBuffer (slice mem (r.p + 1) (mem r.p).toNat) = stringSig ∧
      q = DBus.rdPad 4 (r.skip (1 + (mem r.p).toNat + 1)) := by
  constructor
  · rintro (⟨h⟩ | ⟨h⟩ | ⟨-, rfl, hpos, hshort, hfits, htext⟩)
    · exact absurd h (by decide)
    · exact absurd h (by decide)
    · exact ⟨hpos, hshort, hfits, htext, rfl⟩
  · rintro ⟨hpos, hshort, hfits, htext, rfl⟩
    exact .variant rfl rfl hpos hshort hfits htext

section

variable {α β : Type}

theorem inside_fail : Inside r (fail : Reading (α × Rd)) :=
  ⟨all_fail, fun _ _ h => by cases h⟩

theorem Inside.mono {x : Reading (α × Rd)} (hstop : r'.stop = r.stop) (hle : r.p ≤ r'.p)
    (h : Inside r' x) : Inside r x where
  within := h.within
  fits a r₁ hvalue := by
    obtain ⟨hstop', hle', hend⟩ := h.fits a r₁ hvalue
    omega

/-- One reader after another. -/
theorem Inside.bind {x : Reading (α × Rd)} {f : α × Rd → Reading (β × Rd)} (hx : Inside r x)
    (hf : ∀ a r', x.value = some (a, r') → Inside r' (f (a, r'))) : Inside r (x >>= f) where
  within := (all_bind _ _).mpr ⟨hx.within, fun q hq => (hf q.1 q.2 hq).within⟩
  fits b r₂ h := by
    rw [value_bind] at h
    obtain ⟨⟨a, r₁⟩, hvalue, h⟩ := Option.bind_eq_some_iff.mp h
    obtain ⟨hstop, hle, hend⟩ := hx.fits a r₁ hvalue
    obtain ⟨hstop', hle', hend'⟩ := (hf a r₁ hvalue).fits b r₂ h
    omega

theorem inside_copy_bind {p n : ℕ} {f : Bytes → Reading (α × Rd)} (hs : s.start ≤ p)
    (hn : p + n ≤ s.stop) (hf : Inside r (f (slice mem p n))) : Inside r (copy mem s p n >>= f) where
  within := by
    simp only [all_bind, value_copy, Option.some.injEq, forall_eq']
    exact ⟨within_copy hs hn, hf.within⟩
  fits a r' h := by
    rw [value_bind, value_copy, Option.bind_some] at h
    exact hf.fits a r' h

end

/-- A string behind some padding, in a value. -/
theorem within_padded_iff (g : CStr → ReplyValue) (r : Rd) :
    (do let r ← rdPad mem 4 r
        let (s, r) ← rdStr mem r
        return (g s, r) : Reading (ReplyValue × Rd)).All Access.Within ↔
      ¬ (DBus.rdPad 4 r).EndsInLength := by
  simp only [all_bind, within_rdPad, value_rdPad, true_and, Option.some.injEq, forall_eq',
    within_rdStr_iff, all_pure, implies_true, and_true]

theorem inside_padded {r : Rd} (g : CStr → ReplyValue) (h : ¬ (DBus.rdPad 4 r).EndsInLength) :
    Inside r (do
      let r ← rdPad mem 4 r
      let (s, r) ← rdStr mem r
      return (g s, r)) where
  within := (within_padded_iff g r).mpr h
  fits v r' hvalue := by
    rw [value_bind, value_rdPad, Option.bind_some, value_bind, value_rdStr] at hvalue
    obtain ⟨⟨t, r₁⟩, hread, hvalue⟩ := Option.bind_eq_some_iff.mp hvalue
    obtain ⟨-, rfl⟩ := Prod.mk.inj (Option.some.inj hvalue)
    obtain ⟨hstop, hlt, hle⟩ := bounds_of_next ((rdStr_iff_next h).mp ⟨t, hread⟩)
    exact ⟨hstop, (le_rdPad 4 r).trans hlt.le, hle⟩

theorem inside_rdVariant (h : ∀ q, StringAt mem r (.lit "v") q → ¬ q.EndsInLength) :
    Inside r (rdVariant mem r) := by
  rw [rdVariant]
  refine (inside_rdU8 r).bind fun slen r₁ hread => ?_
  obtain ⟨hlt, rfl, rfl⟩ := rdU8_cases (value_rdU8 r ▸ hread)
  dsimp only
  split_ifs with hslen hshort
  · exact inside_fail
  · exact inside_fail
  have hfits : r.p + 1 + (mem r.p).toNat + 1 ≤ r.stop := Nat.le_of_not_lt hshort
  refine inside_copy_bind (Nat.le_add_right _ _) (show r.p + 1 + _ ≤ r.stop by omega) ?_
  have hmono := @Inside.mono (r.skip 1) ((r.skip 1).skip (mem r.p).toNat) ReplyValue
  refine hmono rfl (Nat.le_add_right _ _) ?_
  refine (inside_rdU8 _).bind fun b r₂ hread => ?_
  obtain ⟨-, -, rfl⟩ := rdU8_cases (value_rdU8 _ ▸ hread)
  dsimp only
  split_ifs with htext
  · exact inside_fail
  · refine inside_padded _ (h _ (stringAt_variant.mpr ⟨?_, ?_, hfits, not_not.mp htext, ?_⟩))
    · exact fun h => hslen (.inl h)
    · exact Nat.lt_of_not_le fun h => hslen (.inr h)
    · rw [← Rd.skip_skip, ← Rd.skip_skip]

theorem not_endsInLength_of_rdVariant (h : (rdVariant mem r).All Access.Within) {q : Rd}
    (hq : StringAt mem r (.lit "v") q) : ¬ q.EndsInLength := by
  obtain ⟨hpos, hshort, hfits, htext, rfl⟩ := stringAt_variant.mp hq
  rw [rdVariant, all_bind] at h
  have hlen := h.2 _ ((value_rdU8 r).trans (rdU8_of_lt (by omega)))
  dsimp only at hlen
  have hfits' : ¬ (r.skip 1).stop < (r.skip 1).p + (mem r.p).toNat + 1 := Nat.not_lt.mpr hfits
  rw [if_neg (not_or.mpr ⟨hpos, Nat.not_le.mpr hshort⟩), if_neg hfits', all_bind] at hlen
  have hcopy := hlen.2 _ (value_copy _ _ _)
  rw [all_bind] at hcopy
  have hnul := hcopy.2 _ ((value_rdU8 _).trans (rdU8_of_lt (Nat.lt_of_succ_le hfits)))
  dsimp only at hnul
  have htext' : ¬ CStr.ofBuffer (slice mem (r.skip 1).p (mem r.p).toNat) ≠ stringSig :=
    not_not_intro htext
  rw [if_neg htext', within_padded_iff] at hnul
  rw [← Rd.skip_skip, ← Rd.skip_skip]
  exact hnul

theorem inside_rdValue {sig : CStr} (h : ∀ q, StringAt mem r sig q → ¬ q.EndsInLength) :
    Inside r (rdValue mem r sig) := by
  rw [rdValue]
  split_ifs with hstring harray hvariant
  · subst hstring
    exact inside_padded _ (h _ (stringAt_string.mpr rfl))
  · subst harray
    exact inside_rdArray h
  · subst hvariant
    exact inside_rdVariant h
  · exact inside_fail

theorem within_rdValue_iff (r : Rd) (sig : CStr) : (rdValue mem r sig).All Access.Within ↔
    ∀ q, StringAt mem r sig q → ¬ q.EndsInLength := by
  refine ⟨fun hall => ?_, fun h => (inside_rdValue h).within⟩
  rw [rdValue] at hall
  split_ifs at hall with hstring harray hvariant
  · subst hstring
    simp only [stringAt_string, forall_eq]
    exact (within_padded_iff _ r).mp hall
  · subst harray
    exact (within_rdArray_iff r).mp hall
  · subst hvariant
    exact fun q hq => not_endsInLength_of_rdVariant hall hq
  · rintro q (⟨h⟩ | ⟨h⟩ | ⟨h⟩)
    · exact absurd h hstring
    · exact absurd h harray
    · exact absurd h hvariant

/-- `rd_value` stays inside unless one of its strings begins where only the length is left. -/
theorem inside_rdValue_iff (r : Rd) (sig : CStr) : Inside r (rdValue mem r sig) ↔
    ∀ q, StringAt mem r sig q → ¬ q.EndsInLength :=
  ⟨fun h => (within_rdValue_iff r sig).mp h.within, inside_rdValue⟩

/-! ## Header fields -/

section

variable {fend fp fp' v : ℕ} {fsig code : UInt8}

/-- The text of a header field begins where only its length is left. -/
def CutText (fend v : ℕ) (fsig : UInt8) : Prop := (fsig = 0x73 ∨ fsig = 0x6F) ∧ fend = v + 4

/-- What is copied only for some codes. -/
theorem within_copy_if {α : Type} {c : Prop} [Decidable c] {p n : ℕ} {x : Reading α}
    (hs : s.start ≤ p) (hn : p + n ≤ s.stop) (hx : x.All Access.Within) :
    (do
      if c then
        let _ ← copy mem s p n
      x : Reading α).All Access.Within := by
  by_cases hc : c
  · rw [if_pos hc]
    exact (all_bind _ _).mpr ⟨within_copy hs hn, fun _ _ => hx⟩
  · rw [if_neg hc]
    exact hx

theorem within_parseFieldValue (hs : s.start ≤ v) (h : ¬ CutText s.stop v fsig) :
    (parseFieldValue mem s code fsig v).All Access.Within := by
  rw [parseFieldValue]
  by_cases htext : fsig = 0x73 ∨ fsig = 0x6F
  · by_cases hshort : s.stop < v + 4
    · rw [if_pos htext, if_pos hshort]
      exact all_fail
    -- behind the length there is a byte, for the text is not cut off there
    have hleft : v + 4 < s.stop :=
      lt_of_le_of_ne (Nat.le_of_not_lt hshort) fun he => h ⟨htext, he.symm⟩
    rw [if_pos htext, if_neg hshort, all_bind]
    refine ⟨within_copy hs hleft.le, fun bs _ => ?_⟩
    dsimp only
    by_cases hlong : (s.stop - (v + 4) + (2 ^ 64 - 1)) % 2 ^ 64 < ofLe bs
    · rw [if_pos hlong]
      exact all_fail
    -- the length does not wrap around, so the NUL is inside
    have hlen : v + 4 + ofLe bs < s.stop := by omega
    have hs' : s.start ≤ v + 4 := hs.trans (Nat.le_add_right _ _)
    rw [if_neg hlong, all_bind]
    refine ⟨within_get (hs'.trans (Nat.le_add_right _ _)) hlen, fun nul _ => ?_⟩
    by_cases hnul : nul ≠ 0
    · rw [if_pos hnul]
      exact all_fail
    · rw [if_neg hnul]
      exact within_copy_if hs' hlen.le (all_pure _)
  rw [if_neg htext]
  by_cases hu32 : fsig = 0x75
  · rw [if_pos hu32]
    by_cases hshort : s.stop < v + 4
    · rw [if_pos hshort]
      exact all_fail
    · rw [if_neg hshort]
      exact within_copy_if hs (Nat.le_of_not_lt hshort) (all_pure _)
  rw [if_neg hu32]
  by_cases hsig : fsig = 0x67
  · by_cases hshort : s.stop < v + 1
    · rw [if_pos hsig, if_pos hshort]
      exact all_fail
    rw [if_pos hsig, if_neg hshort, all_bind]
    refine ⟨within_get hs (Nat.lt_of_succ_le (Nat.le_of_not_lt hshort)), fun slen _ => ?_⟩
    dsimp only
    by_cases hlong : s.stop < v + 1 + slen.toNat + 1
    · rw [if_pos hlong]
      exact all_fail
    · rw [if_neg hlong]
      exact within_copy_if (hs.trans (Nat.le_add_right _ _)) (by omega) (all_pure _)
  · rw [if_neg hsig]
    exact all_fail

theorem not_within_parseFieldValue (h : CutText s.stop v fsig) :
    ¬ (parseFieldValue mem s code fsig v).All Access.Within := by
  obtain ⟨htext, hend⟩ := h
  rw [parseFieldValue, if_pos htext, if_neg (Nat.not_lt.mpr (Nat.le_of_eq hend.symm)), all_bind]
  intro hall
  have hlen := hall.2 _ (value_copy s v 4)
  have hlt := u32At_lt mem v
  rw [← u32At] at hlen
  dsimp only at hlen
  generalize u32At mem v = len at hlen hlt
  have hshort : ¬ (s.stop - (v + 4) + (2 ^ 64 - 1)) % 2 ^ 64 < len := by omega
  rw [if_neg hshort, all_bind] at hlen
  have hget : Access.Within ⟨s, v + 4 + len⟩ := hlen.1 _ (List.mem_singleton_self _)
  have := hget.2
  dsimp only at this
  omega

/-- The value of a field lies behind its head. -/
theorem lt_of_fieldHead (h : FieldHead mem fend fp fsig v) : fp + 4 ≤ v ∧ fp < fend := by
  obtain ⟨hfits, -, -, -, rfl⟩ := h
  have hstart := le_skipPad 8 fend fp
  have hpad := le_skipPad 4 fend (skipPad 8 fend fp + 4)
  split_ifs <;> omega

/-- No text of the field at this place is cut. -/
def GoodField (mem : Mem) (fend fp : ℕ) : Prop :=
  ∀ fsig v, FieldHead mem fend fp fsig v → ¬ CutText fend v fsig

theorem within_parseField_iff (hs : s.start ≤ fp) :
    (parseField mem s fp).All Access.Within ↔ GoodField mem s.stop fp := by
  rw [parseField]
  have hstart : s.start ≤ skipPad 8 s.stop fp := hs.trans (le_skipPad _ _ _)
  dsimp only
  -- the head of a field has four bytes, all of them inside
  by_cases hshort : s.stop < skipPad 8 s.stop fp + 4
  · rw [if_pos hshort]
    exact iff_of_true all_fail fun fsig v h => absurd h.fits (Nat.not_le.mpr hshort)
  have hle := Nat.le_of_not_lt hshort
  have hget {i : ℕ} (hi : i < 4) : (get mem s (skipPad 8 s.stop fp + i)).All Access.Within :=
    within_get (hstart.trans (Nat.le_add_right _ _)) (by omega)
  have hget₀ := hget (show 0 < 4 by decide)
  rw [Nat.add_zero] at hget₀
  rw [if_neg hshort]
  simp only [all_bind, hget₀, hget (show 1 < 4 by decide), value_get, Option.some.injEq, forall_eq',
    true_and]
  by_cases hone : mem (skipPad 8 s.stop fp + 1) ≠ 1
  · rw [if_pos hone]
    exact iff_of_true all_fail fun fsig v h => absurd h.one hone
  rw [if_neg hone]
  simp only [all_bind, hget (show 2 < 4 by decide), hget (show 3 < 4 by decide), value_get,
    Option.some.injEq, forall_eq', true_and]
  by_cases hnul : mem (skipPad 8 s.stop fp + 3) ≠ 0
  · rw [if_pos hnul]
    exact iff_of_true all_fail fun fsig v h => absurd h.nul hnul
  rw [if_neg hnul]
  simp only [all_bind, all_pure, implies_true, and_true]
  generalize hvalue : (if mem (skipPad 8 s.stop fp + 2) = 0x73 ∨ mem (skipPad 8 s.stop fp + 2) = 0x6F ∨
    mem (skipPad 8 s.stop fp + 2) = 0x75 then skipPad 4 s.stop (skipPad 8 s.stop fp + 4)
    else skipPad 8 s.stop fp + 4) = v
  have hhead : FieldHead mem s.stop fp (mem (skipPad 8 s.stop fp + 2)) v :=
    ⟨hle, not_not.mp hone, rfl, not_not.mp hnul, hvalue⟩
  have hv := (lt_of_fieldHead hhead).1
  -- the head was read; the rest is up to the value
  constructor
  · rintro hall fsig v' ⟨-, -, rfl, -, hvalue'⟩ hcut
    obtain rfl : v = v' := hvalue.symm.trans hvalue'
    exact not_within_parseFieldValue hcut hall
  · intro hgood
    exact within_parseFieldValue (by omega) (hgood _ _ hhead)

/-! ## The loop over the header fields -/

theorem valueEnd_iff (h : ¬ CutText fend v fsig) :
    (∃ x, DBus.parseFieldValue mem fend fsig v = some (x, fp')) ↔ ValueEnd mem fend fsig v fp' := by
  constructor
  · rintro ⟨x, hx⟩
    rcases parseFieldValue_cases hx with ⟨htext, hle, hlong, hnul, -, hend⟩ |
      ⟨hu32, hle, -, rfl⟩ | ⟨hsig, hle, -, rfl⟩
    · have hleft : v + 4 < fend := lt_of_le_of_ne hle fun he => h ⟨htext, he.symm⟩
      rw [hend]
      exact .text htext hleft (by omega) hnul
    · exact .number hu32 hle
    · exact .signature hsig hle
  · rintro (⟨htext, hleft, hfits, hnul⟩ | ⟨rfl, hle⟩ | ⟨rfl, hle⟩)
    · have hlong : ¬ (fend - (v + 4) + (2 ^ 64 - 1)) % 2 ^ 64 < u32At mem v := by omega
      rw [DBus.parseFieldValue, if_pos htext, if_neg (Nat.not_lt.mpr hleft.le)]
      dsimp only
      rw [if_neg hlong, if_neg (not_not_intro hnul)]
      exact ⟨_, rfl⟩
    · rw [DBus.parseFieldValue, if_neg (by decide), if_pos rfl, if_neg (Nat.not_lt.mpr hle)]
      exact ⟨_, rfl⟩
    · rw [DBus.parseFieldValue, if_neg (by decide), if_neg (by decide), if_pos rfl,
        if_neg (by omega)]
      dsimp only
      rw [if_neg (Nat.not_lt.mpr hle)]
      exact ⟨_, rfl⟩

theorem parseField_iff_next (h : GoodField mem fend fp) :
    (∃ f, DBus.parseField mem fend fp = some (f, fp')) ↔ NextField mem fend fp fp' := by
  constructor
  · rintro ⟨f, hf⟩
    obtain ⟨start, rfl, hle, hone, hnul, -, v, hv, -, hvalue⟩ := parseField_cases hf
    have hhead : FieldHead mem fend fp (mem (skipPad 8 fend fp + 2)) v := ⟨hle, hone, rfl, hnul, hv⟩
    exact ⟨_, v, hhead, (valueEnd_iff (h _ _ hhead)).mp ⟨_, hvalue⟩⟩
  · rintro ⟨fsig, v, hhead, hend⟩
    obtain ⟨x, hx⟩ := (valueEnd_iff (h _ _ hhead)).mpr hend
    obtain ⟨hle, hone, rfl, hnul, rfl⟩ := hhead
    rw [DBus.parseField]
    dsimp only
    rw [if_neg (Nat.not_lt.mpr hle),
      if_neg (not_or.mpr ⟨not_not_intro hone, not_not_intro hnul⟩), hx]
    exact ⟨_, rfl⟩

/-- By induction on the fields that come before. -/
theorem le_of_reachable_field
    (h : Relation.ReflTransGen (Round (fun fp => fp < s.stop) (parseField mem s)) fp fp') :
    fp ≤ fp' := by
  induction h with
  | refl => exact le_rfl
  | tail _ hround ih =>
    obtain ⟨-, f, hf⟩ := hround
    have := lt_of_parseField (value_parseField _ _ ▸ hf)
    omega

theorem round_iff_nextField (h : GoodField mem s.stop fp) :
    Round (fun fp => fp < s.stop) (parseField mem s) fp fp' ↔ NextField mem s.stop fp fp' := by
  rw [Round]
  simp only [value_parseField, parseField_iff_next h]
  exact ⟨fun h => h.2, fun h => ⟨(lt_of_fieldHead h.choose_spec.choose_spec.1).2, h⟩⟩

theorem within_scanFields_iff {n : ℕ} (hn : s.stop - s.start ≤ n) :
    (scanFields mem s n s.start).All Access.Within ↔
      ∀ fp, Relation.ReflTransGen (NextField mem s.stop) s.start fp → GoodField mem s.stop fp := by
  have hagree : ∀ fp, GoodField mem s.stop fp → ∀ fp',
      Round (fun fp => fp < s.stop) (parseField mem s) fp fp' ↔ NextField mem s.stop fp fp' :=
    fun fp h fp' => round_iff_nextField h
  rw [← forall_reachable_congr hagree, scanFields, all_collect_iff fun fp => s.stop - fp]
  · refine forall₂_congr fun fp hfp => ?_
    rw [within_parseField_iff (le_of_reachable_field hfp)]
    -- behind the end there are no fields
    exact ⟨fun h fsig v hhead => h (lt_of_fieldHead hhead).2 fsig v hhead, fun h _ => h⟩
  · exact fun fp h => Nat.sub_pos_of_lt h
  · rintro fp fp' ⟨hmore, f, hf⟩
    have := lt_of_parseField (value_parseField _ _ ▸ hf)
    omega
  · exact hn

/-- `parse_header_fields` stays inside unless a text begins where only its length is left. -/
theorem within_parseHeaderFields_iff (mem : Mem) (msglen fieldsLen : ℕ) :
    (parseHeaderFields mem msglen fieldsLen).All Access.Within ↔
      ∀ v, TextAt mem (16 + fieldsLen) v → 16 + fieldsLen ≠ v + 4 := by
  have hscan := @within_scanFields_iff mem ⟨16, 16 + fieldsLen⟩ fieldsLen
    (Nat.sub_le_of_le_add (Nat.le_of_eq (Nat.add_comm _ _)))
  rw [parseHeaderFields, all_bind]
  constructor
  · rintro ⟨hall, -⟩ v ⟨fp, fsig, hfp, hhead, htext⟩ hend
    exact hscan.mp hall fp hfp fsig v hhead ⟨htext, hend⟩
  · intro h
    refine ⟨hscan.mpr fun fp hfp fsig v hhead hcut =>
      h v ⟨fp, fsig, hfp, hhead, hcut.1⟩ hcut.2, ?_⟩
    rintro ⟨fs, fp⟩ -
    dsimp only
    split_ifs
    · exact all_fail
    · exact all_pure _

end

/-! ## The bodies of replies -/

theorem within_errorBody_iff (f : Frame) : (errorBody mem f).All Access.Within ↔
    ∀ q, StringAt mem ⟨f.bodyStart, f.msg.length, 0⟩ stringSig q → ¬ q.EndsInLength := by
  simp only [errorBody, all_bind, within_rdPad, value_rdPad, true_and, Option.some.injEq,
    forall_eq', within_rdStr_iff, stringAt_string, forall_eq]

/-- The body of a message is read from the body, unless one of its strings begins where only the
length is left. -/
theorem within_answer_iff (mem : Mem) (serial : UInt32) (f : Frame) :
    (answer mem serial f).All Access.Within ↔
      ∀ q, BodyStringAt mem serial f q → ¬ q.EndsInLength := by
  rw [answer]
  by_cases herror : f.type = 3
  · -- an error: its first string is read
    have hbody : ∀ q, BodyStringAt mem serial f q ↔
        StringAt mem ⟨f.bodyStart, f.msg.length, 0⟩ stringSig q := by
      intro q
      simp [BodyStringAt, herror]
    simp only [hbody, if_pos herror, all_bind, all_attempt, within_errorBody_iff]
    refine and_iff_left ?_
    rintro (_ | ⟨msg, r⟩) -
    · exact all_pure _
    · dsimp only
      split_ifs <;> exact all_pure _
  rw [if_neg herror]
  -- nothing is read of what is no reply to the call
  by_cases hreturn : f.type ≠ 2
  · rw [if_pos hreturn]
    refine iff_of_true (all_pure _) ?_
    rintro q (h | h)
    · exact absurd h.1 herror
    · exact absurd h.1 hreturn
  rw [if_neg hreturn]
  by_cases hserial : f.header.replySerial ≠ serial
  · rw [if_pos hserial]
    refine iff_of_true (all_pure _) ?_
    rintro q (h | h)
    · exact absurd h.1 herror
    · exact absurd h.2.1 hserial
  rw [if_neg hserial]
  -- a reply: the value of its signature is read
  have hbody : ∀ q, BodyStringAt mem serial f q ↔
      ∃ sig, f.header.sig = some sig ∧ StringAt mem ⟨f.bodyStart, f.msg.length, 0⟩ sig q := by
    intro q
    simp [BodyStringAt, not_not.mp hreturn, not_not.mp hserial]
  simp only [hbody]
  cases f.header.sig with
  | none =>
    refine iff_of_true (all_pure _) ?_
    rintro q ⟨sig, h, -⟩
    cases h
  | some sig =>
    simp only [Option.some.injEq, exists_eq_left']
    by_cases hempty : sig = .empty
    · rw [if_pos hempty]
      subst hempty
      refine iff_of_true (all_pure _) ?_
      rintro q (⟨h⟩ | ⟨h⟩ | ⟨h⟩) <;> exact absurd h (by decide)
    · simp only [if_neg hempty, all_bind, all_attempt, within_rdValue_iff]
      refine and_iff_left ?_
      rintro (_ | ⟨v, r⟩) - <;> exact all_pure _

/-! ## All readers -/

/-- The readers stay inside the slices that they were given, except for a string of which only the
length is left. -/
theorem inside_iff (mem : Mem) :
    (∀ r, Inside r (rdU8 mem r)) ∧ (∀ r, Inside r (rdU32 mem r)) ∧
    (∀ r, Inside r (rdStr mem r) ↔ ¬ r.EndsInLength) ∧
    (∀ r sig, Inside r (rdValue mem r sig) ↔ ∀ q, StringAt mem r sig q → ¬ q.EndsInLength) ∧
    (∀ msglen fieldsLen, (parseHeaderFields mem msglen fieldsLen).All Access.Within ↔
      ∀ v, TextAt mem (16 + fieldsLen) v → 16 + fieldsLen ≠ v + 4) ∧
    ∀ serial f, (answer mem serial f).All Access.Within ↔
      ∀ q, BodyStringAt mem serial f q → ¬ q.EndsInLength :=
  ⟨inside_rdU8, inside_rdU32, inside_rdStr_iff, inside_rdValue_iff,
    within_parseHeaderFields_iff mem, within_answer_iff mem⟩

/-- An error whose body is the length of its message only. -/
def cutError : Frame where
  msg := [0x6C, 3, 0, 1, 4, 0, 0, 0, 1, 0, 0, 0, 0, 0, 0, 0] ++ [0, 0, 0, 0]
  fieldsLen := 0
  header := ⟨none, none, 0⟩

/-- It is received, and its message ought to end behind the buffer. -/
theorem not_within_cutError :
    ¬ ∀ (heap : Mem) (serial : UInt32) (c c' : Conn) (f : Frame),
      readMessage heap c = (.ok f, c') → (answer (buffer f.msg heap) serial f).All Access.Within := by
  intro h
  have hmsg : readMessage (fun _ => 0) ⟨cutError.msg, []⟩ = (.ok cutError, ⟨[], []⟩) := rfl
  have hread := h _ 1 _ _ _ hmsg ⟨⟨16, 20⟩, 20⟩ (by decide +kernel)
  revert hread
  decide

end Reading

end DBus
