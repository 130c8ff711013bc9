import LgMagic.Toml.Floats
import LgMagic.Toml.ParsedTrees

/-!
# The floats of a parsed text

A number in a text is decimal, so every float of the tree that the parser builds is one that
`strtod` reads from decimal digits. It may be infinite and is never not-a-number.

* `AllFloats`: a property of all floats of a tree, kept by the edits of the parser;
* `tomlParse_allFloats`: what holds of every decimal holds of all floats of a parsed text;
* `tomlParse_ne_nan`: none of them is not-a-number.
-/

namespace Toml

open Binary64 Printf

/-- A property of the floats of a table and of the tables below it. -/
def AllFloats (P : Double → Prop) (t : Members) : Prop := ∀ m ∈ t, ∀ d ∈ m.2.floats, P d

variable {P : Double → Prop} {t : Members}

theorem allFloats_iff : AllFloats P t ↔ ∀ d ∈ membersFloats t, P d := by
  constructor
  · intro h d hd
    obtain ⟨m, hm, hd⟩ := mem_membersFloats.mp hd
    exact h m hm d hd
  · exact fun h m hm d hd => h d (mem_membersFloats.mpr ⟨m, hm, hd⟩)

/-- The edits of the parser add no float but those of its values. -/
theorem kept_allFloats (P : Double → Prop) :
    Kept (AllFloats P) fun v => ∀ d ∈ v.floats, P d where
  nil := fun _ h => absurd h List.not_mem_nil
  table h := allFloats_iff.mp h
  sub h hget := allFloats_iff.mpr (h _ (Assoc.mem_of_get hget))
  add := by
    intro t k v h _ hv m hm
    rcases List.mem_append.mp hm with hm | hm
    · exact h m hm
    · rw [List.mem_singleton.mp hm]
      exact hv
  set h hv := Assoc.forall_mem_set h hv

/-- What holds of every decimal holds of all floats of a parsed text. -/
theorem tomlParse_allFloats (hP : ∀ s, P (strtodDecimal s).1) {text : Bytes}
    (h : tomlParse text = .ok t) : AllFloats P t := by
  refine (kept_allFloats P).tomlParse (fun hv d hd => ?_) h
  -- only a number is a float
  rcases parseValue_cases hv with ⟨s, rfl⟩ | ⟨items, rfl⟩ | ⟨b, rfl⟩ | ⟨i, rfl⟩ | ⟨s, rfl⟩
  all_goals try exact absurd hd List.not_mem_nil
  rw [List.mem_singleton.mp hd]
  exact hP s

/-- No text has a float that is not-a-number. -/
theorem tomlParse_ne_nan {text : Bytes} (h : tomlParse text = .ok t) : AllFloats (· ≠ .nan) t :=
  tomlParse_allFloats strtodDecimal_ne_nan h

end Toml
