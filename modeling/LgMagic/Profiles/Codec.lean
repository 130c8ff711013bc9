import LgMagic.Profiles
import LgMagic.Toml.RoundTrip

/-!
# Configurations and their documents

A valid configuration is written as a document that is read back as the configuration, with its
profiles and their button maps in order. Through the text of the document the numbers are those of
their `%.15g` texts.

* `Coherent`: what the daemon keeps of its configurations beside the validity;
* `document`: the document of a configuration;
* `deviceConfigToToml_eq`, `deviceConfigFromToml_document`: writing and reading the tree;
* `readBack_scrollSpeed`, `readBack_sensitivity`, `readBack_lpfAlpha`: the ranges of the numbers;
* `deviceConfigFromToml_toToml`: the tree and the text.
-/

namespace Profiles

open Binary64 CString Keymap Printf Toml

/-! ## Configurations -/

/-- Numbers that are not set have their default values, and a keycode is mapped at most once. -/
structure Profile.Coherent (p : Profile Double) : Prop where
  scrollSpeed : p.hasScroll = false → p.scrollSpeed = CNum.ofRat 1
  sensitivity : p.hasSens = false → p.sensitivity = CNum.ofRat 30
  lpfAlpha : p.hasLpf = false → p.lpfAlpha = CNum.ofRat (-1)
  nodup : (p.map.map Prod.fst).Nodup

/-- None of the numbers is not-a-number. -/
structure Profile.NoNan (p : Profile Double) : Prop where
  scrollSpeed : p.scrollSpeed ≠ .nan
  sensitivity : p.sensitivity ≠ .nan
  lpfAlpha : p.lpfAlpha ≠ .nan

/-- What is not set has its default value, and no profile comes twice. -/
structure DeviceConfig.Coherent (dc : DeviceConfig Double) : Prop where
  calib : dc.calib ≠ some .empty
  airmouse : dc.hasAirmouse = false → dc.airmouse = true
  nodup : (dc.profiles.map (·.name)).Nodup
  profiles : ∀ p ∈ dc.profiles, p.Coherent

/-- The profile with other numbers. -/
def Profile.mapNum {F G : Type} (f : F → G) (p : Profile F) : Profile G where
  name := p.name
  scrollSpeed := f p.scrollSpeed
  sensitivity := f p.sensitivity
  lpfAlpha := f p.lpfAlpha
  hasScroll := p.hasScroll
  hasSens := p.hasSens
  hasLpf := p.hasLpf
  map := p.map

/-- The configuration with other numbers. -/
def DeviceConfig.mapNum {F G : Type} (f : F → G) (dc : DeviceConfig F) : DeviceConfig G where
  profile := dc.profile
  calib := dc.calib
  airmouse := dc.airmouse
  hasAirmouse := dc.hasAirmouse
  profiles := dc.profiles.map (·.mapNum f)

/-! ## Documents -/

/-- The name of a keycode. -/
def keyName (code : ℤ) : CStr := (keymapCodeToName code).getD .empty

/-- A button of the map in the document. -/
def buttonMember (m : ℤ × ℤ) : CStr × TomlValue := (keyName m.1, .str (keyName m.2))

/-- The members of the table of a profile. -/
def profileTable (p : Profile Double) : Members :=
  (if p.hasScroll then [(.lit "scroll_speed", .float p.scrollSpeed)] else []) ++
  (if p.hasSens then [(.lit "sensitivity", .float p.sensitivity)] else []) ++
  (if p.hasLpf then [(.lit "lpf_alpha", .float p.lpfAlpha)] else []) ++
  (if p.map = [] then [] else [(.lit "button_map", .table (p.map.map buttonMember))])

/-- A profile in the document. -/
def profileMember (p : Profile Double) : CStr × TomlValue := (p.name, .table (profileTable p))

/-- The members of the document. -/
def document (dc : DeviceConfig Double) : Members :=
  [(.lit "profile", .str dc.profile)] ++
  (match dc.calib with
    | some calib => [(.lit "calib", .str calib)]
    | none => []) ++
  (if dc.hasAirmouse then [(.lit "airmouse", .bool dc.airmouse)] else []) ++
  (if dc.profiles = [] then [] else [(.lit "profiles", .table (dc.profiles.map profileMember))])

/-! ## Valid parts -/

variable {p : Profile Double} {ps : List (Profile Double)} {dc : DeviceConfig Double}
  {map : List (ℤ × ℤ)} {name : CStr}

/-- Every keycode of a valid button map has a name. -/
theorem isSome_of_mapValidate (h : mapValidate name map = .ok ()) :
    ∀ m ∈ map, (keymapCodeToName m.1).isSome ∧ (keymapCodeToName m.2).isSome := by
  induction map with
  | nil => exact fun m hm => absurd hm List.not_mem_nil
  | cons m map ih =>
    rw [mapValidate] at h
    split_ifs at h with hsrc hdst
    intro m' hm'
    rcases List.mem_cons.mp hm' with rfl | hm'
    · simp only [Option.isNone_iff_eq_none] at hsrc hdst
      exact ⟨Option.isSome_iff_ne_none.mpr hsrc, Option.isSome_iff_ne_none.mpr hdst⟩
    · exact ih h m' hm'

theorem keymapCodeToName_eq {code : ℤ} (h : (keymapCodeToName code).isSome) :
    keymapCodeToName code = some (keyName code) := by
  obtain ⟨n, hn⟩ := Option.isSome_iff_exists.mp h
  rw [keyName, hn, Option.getD_some]

/-- The name of a keycode is read as the keycode. -/
theorem keymapNameToCode_keyName {code : ℤ} (h : (keymapCodeToName code).isSome) :
    keymapNameToCode (keyName code) = code ∧ ¬ code < 0 := by
  have hname := keymapCodeToName_eq h
  rw [keymapNameToCode_codeToName hname]
  exact ⟨rfl, not_lt.mpr (keymapNameToCode_nonneg_of_codeToName hname)⟩

theorem profilesValidate_eq_ok :
    profilesValidate ps = .ok () ↔ ∀ p ∈ ps, profileValidate p = .ok () := by
  induction ps with
  | nil => simp [profilesValidate]
  | cons p ps ih =>
    rw [profilesValidate, List.forall_mem_cons]
    cases hp : profileValidate p with
    | error e => simp
    | ok u => simpa using ih

theorem mapValidate_of_profileValidate (h : profileValidate p = .ok ()) :
    mapValidate p.name p.map = .ok () := by
  rw [profileValidate] at h
  split_ifs at h
  exact h

theorem profileFind_eq_none : profileFind dc name = none ↔ name ∉ dc.profiles.map (·.name) := by
  rw [profileFind, List.find?_eq_none]
  simp [eq_comm]

/-- The checks that a valid configuration passes. -/
theorem deviceConfigValidate_eq_ok : deviceConfigValidate dc = .ok () ↔ dc.profile.val ≠ [] ∧
    (∀ p ∈ dc.profiles, profileValidate p = .ok ()) ∧
    (dc.profile = .lit "default" ∨ dc.profile ∈ dc.profiles.map (·.name)) := by
  rw [deviceConfigValidate, ← profilesValidate_eq_ok]
  by_cases hname : dc.profile.val = []
  · simp [hname]
  · rw [if_neg hname]
    cases hps : profilesValidate dc.profiles with
    | error e => simp
    | ok u =>
      have hfind : (profileFind dc dc.profile).isNone ↔ dc.profile ∉ dc.profiles.map (·.name) := by
        rw [Option.isNone_iff_eq_none, profileFind_eq_none]
      dsimp only
      split_ifs with hactive <;> rw [hfind] at hactive
      · simp only [hactive.1, hactive.2, or_self, and_false]
      · rw [not_and_or, not_not, not_not] at hactive
        simp only [ne_eq, hname, not_false_eq_true, hactive, and_self]

theorem profileValidate_of_mem (h : deviceConfigValidate dc = .ok ()) :
    ∀ p ∈ dc.profiles, profileValidate p = .ok () :=
  (deviceConfigValidate_eq_ok.mp h).2.1

/-! ## Writing -/

/-- Members with new keys are added in their order. -/
theorem foldlM_tableAdd {α : Type} {l : List α} {key : α → CStr} {val : α → TomlValue}
    {step : Members → α → Option Members} {t : Members}
    (hstep : ∀ t, ∀ x ∈ l, step t x = tableAdd t (key x) (val x))
    (hnodup : (t.map Prod.fst ++ l.map key).Nodup) :
    l.foldlM step t = some (t ++ l.map fun x => (key x, val x)) := by
  induction l generalizing t with
  | nil => simp
  | cons x l ih =>
    have hnew : tableGetShort t (key x) = none := by
      rw [tableGetShort, Assoc.get_eq_none_iff]
      intro hmem
      exact List.disjoint_of_nodup_append hnodup hmem (by simp)
    have hadd : step t x = some (t ++ [(key x, val x)]) := by
      rw [hstep t x List.mem_cons_self]
      exact tableAdd_eq_some.mpr ⟨hnew, rfl⟩
    rw [List.foldlM_cons, hadd, Option.bind_eq_bind, Option.bind_some,
      ih (fun t y hy => hstep t y (List.mem_cons_of_mem _ hy)) (by simpa using hnodup)]
    simp

/-- Keycodes with different names are different. -/
theorem nodup_keyName (h : ∀ m ∈ map, (keymapCodeToName m.1).isSome)
    (hnodup : (map.map Prod.fst).Nodup) : (map.map fun m => keyName m.1).Nodup := by
  have hmap : map.map (fun m => keyName m.1) = (map.map Prod.fst).map keyName := by
    rw [List.map_map]
    rfl
  rw [hmap]
  refine List.Nodup.map_on ?_ hnodup
  intro a ha b hb hab
  obtain ⟨m, hm, rfl⟩ := List.mem_map.mp ha
  obtain ⟨m', hm', rfl⟩ := List.mem_map.mp hb
  rw [← (keymapNameToCode_keyName (h m hm)).1, ← (keymapNameToCode_keyName (h m' hm')).1, hab]

theorem buttonMapToToml_eq (h : mapValidate name map = .ok ())
    (hnodup : (map.map Prod.fst).Nodup) :
    buttonMapToToml map = some (map.map buttonMember) := by
  have hsome := isSome_of_mapValidate h
  refine foldlM_tableAdd (t := []) (fun t m hm => ?_)
    (nodup_keyName (fun m hm => (hsome m hm).1) hnodup)
  obtain ⟨hsrc, hdst⟩ := hsome m hm
  simp only [keymapCodeToName_eq hsrc, keymapCodeToName_eq hdst, Option.bind_eq_bind,
    Option.bind_some]

theorem profileToToml_eq (h : profileValidate p = .ok ()) (hp : p.Coherent) :
    profileToToml p = some (profileTable p) := by
  rw [profileToToml, profileTable]
  by_cases hmap : p.map = []
  · simp only [if_pos hmap, List.append_nil]
    rfl
  · simp only [if_neg hmap, buttonMapToToml_eq (mapValidate_of_profileValidate h) hp.nodup]
    rfl

/-- A valid configuration has a document. -/
theorem deviceConfigToToml_eq (h : deviceConfigValidate dc = .ok ()) (hdc : dc.Coherent) :
    deviceConfigToToml dc = some (document dc) := by
  have hvalid := profileValidate_of_mem h
  have hprofiles : profilesToToml dc.profiles = some (dc.profiles.map profileMember) := by
    refine foldlM_tableAdd (t := []) (fun t p hp => ?_) hdc.nodup
    rw [profileToToml_eq (hvalid p hp) (hdc.profiles p hp)]
    rfl
  rw [deviceConfigToToml, document]
  by_cases hps : dc.profiles = []
  · simp only [if_pos hps, List.append_nil]
    rfl
  · simp only [if_neg hps, hprofiles]
    rfl

/-! ## Reading -/

/-- The button map of a document is read in its order. -/
theorem parseButtonMap_eq (h : ∀ m ∈ map, (keymapCodeToName m.1).isSome ∧
    (keymapCodeToName m.2).isSome) (hnodup : ((p.map ++ map).map Prod.fst).Nodup) :
    parseButtonMap p (map.map buttonMember) = .ok { p with map := p.map ++ map } := by
  induction map generalizing p with
  | nil => simp [parseButtonMap]
  | cons m map ih =>
    obtain ⟨hsrc, hdst⟩ := h m List.mem_cons_self
    obtain ⟨hsrcEq, hsrcNeg⟩ := keymapNameToCode_keyName hsrc
    obtain ⟨hdstEq, hdstNeg⟩ := keymapNameToCode_keyName hdst
    have hnew : Assoc.get p.map m.1 = none := by
      rw [Assoc.get_eq_none_iff]
      intro hmem
      rw [List.map_append] at hnodup
      exact List.disjoint_of_nodup_append hnodup hmem (by simp)
    have hset : profileSetButton p m.1 m.2 = { p with map := p.map ++ [m] } := by
      rw [profileSetButton, Assoc.put, hnew]
      rfl
    rw [List.map_cons, buttonMember, parseButtonMap]
    simp only [hsrcEq, hdstEq, if_neg hsrcNeg, if_neg hdstNeg, hset]
    rw [ih (fun m' hm' => h m' (List.mem_cons_of_mem _ hm')) (by simpa using hnodup)]
    simp

/-- What the table of a profile holds under the keys that are read. -/
theorem tableGetShort_profileTable (p : Profile Double) :
    tableGetShort (profileTable p) (.lit "scroll_speed") =
        (if p.hasScroll then some (.float p.scrollSpeed) else none) ∧
      tableGetShort (profileTable p) (.lit "sensitivity") =
        (if p.hasSens then some (.float p.sensitivity) else none) ∧
      tableGetShort (profileTable p) (.lit "lpf_alpha") =
        (if p.hasLpf then some (.float p.lpfAlpha) else none) ∧
      tableGetShort (profileTable p) (.lit "button_map") =
        if p.map = [] then none else some (.table (p.map.map buttonMember)) := by
  unfold profileTable
  cases p.hasScroll <;> cases p.hasSens <;> cases p.hasLpf <;> split_ifs <;>
    exact ⟨rfl, rfl, rfl, rfl⟩

/-- A number that is written when it is set is read as it was, and otherwise has its default. -/
theorem numField_eq {t : Members} {key : CStr} {x default : Double} {has : Bool}
    (hget : tableGetShort t key = if has then some (.float x) else none)
    (hdefault : has = false → x = default) : numField t key default false = .ok (x, has) := by
  rw [numField, hget]
  cases has with
  | true => rfl
  | false =>
    rw [hdefault rfl]
    rfl

/-- The fields of a profile are read from its table. -/
theorem profileParseFields_eq (h : mapValidate p.name p.map = .ok ()) (hp : p.Coherent) :
    profileParseFields (profileInit p.name) (profileTable p) = .ok p := by
  obtain ⟨hscroll, hsens, hlpf, hmap⟩ := tableGetShort_profileTable p
  simp only [profileParseFields, profileInit, numField_eq hscroll hp.scrollSpeed,
    numField_eq hsens hp.sensitivity, numField_eq hlpf hp.lpfAlpha, hmap, bind, Except.bind]
  by_cases hnil : p.map = []
  · rw [if_pos hnil, ← hnil]
  · rw [if_neg hnil]
    exact parseButtonMap_eq (isSome_of_mapValidate h) hp.nodup

/-- A profile is read from its table. -/
theorem parseProfile_eq (h : profileValidate p = .ok ()) (hp : p.Coherent) :
    parseProfile p.name (profileTable p) = .ok p := by
  rw [parseProfile, profileParseFields_eq (mapValidate_of_profileValidate h) hp]
  simp only [bind, Except.bind, h]
  rfl

/-- The profiles are read in their order. -/
theorem parseProfiles_eq (h : ∀ p ∈ ps, profileValidate p = .ok ()) (hps : ∀ p ∈ ps, p.Coherent)
    (hnodup : ((dc.profiles ++ ps).map (·.name)).Nodup) :
    parseProfiles dc (ps.map profileMember) =
      (.ok (), { dc with profiles := dc.profiles ++ ps }) := by
  induction ps generalizing dc with
  | nil => simp [parseProfiles]
  | cons p ps ih =>
    have hnew : profileFind dc p.name = none := by
      apply profileFind_eq_none.mpr
      intro hmem
      rw [List.map_append] at hnodup
      exact List.disjoint_of_nodup_append hnodup hmem (by simp)
    rw [List.map_cons, profileMember, parseProfiles]
    simp only [hnew, parseProfile_eq (h p List.mem_cons_self) (hps p List.mem_cons_self)]
    rw [if_neg (by simp), ih (fun q hq => h q (List.mem_cons_of_mem _ hq))
      (fun q hq => hps q (List.mem_cons_of_mem _ hq)) (by simpa using hnodup)]
    simp

/-- What the document holds under the keys that are read. -/
theorem tableGetShort_document (dc : DeviceConfig Double) :
    tableGetShort (document dc) (.lit "profile") = some (.str dc.profile) ∧
      tableGetShort (document dc) (.lit "calib") = dc.calib.map .str ∧
      tableGetShort (document dc) (.lit "airmouse") =
        (if dc.hasAirmouse then some (.bool dc.airmouse) else none) ∧
      tableGetShort (document dc) (.lit "profiles") =
        if dc.profiles = [] then none else some (.table (dc.profiles.map profileMember)) := by
  unfold document
  cases dc.calib <;> cases dc.hasAirmouse <;> split_ifs <;> exact ⟨rfl, rfl, rfl, rfl⟩

theorem parseScalars_document (hdc : dc.Coherent) :
    parseScalars (document dc) deviceConfigInit = (.ok (), { dc with profiles := [] }) := by
  obtain ⟨hprofile, hcalib, hairmouse, -⟩ := tableGetShort_document dc
  obtain ⟨profile, calib, airmouse, hasAirmouse, profiles⟩ := dc
  simp only [parseScalars, strField, hprofile, hcalib, hairmouse]
  have hempty : calib ≠ some .empty := hdc.calib
  have hflag : hasAirmouse = false → airmouse = true := hdc.airmouse
  cases calib with
  | none =>
    cases hasAirmouse with
    | true => rfl
    | false => rw [hflag rfl]; rfl
  | some path =>
    have hne : ¬ path = .empty := fun heq => hempty (congrArg some heq)
    simp only [Option.map_some, Option.some_or, Option.some.injEq, hne, if_false]
    cases hasAirmouse with
    | true => rfl
    | false => rw [hflag rfl]; rfl

/-- A configuration is read from its document. -/
theorem deviceConfigFromToml_document (h : deviceConfigValidate dc = .ok ()) (hdc : dc.Coherent) :
    deviceConfigFromToml (.table (document dc)) deviceConfigInit = (.ok (), dc) := by
  have hvalid := profileValidate_of_mem h
  obtain ⟨-, -, -, hprofiles⟩ := tableGetShort_document dc
  have hscalars := parseScalars_document hdc
  rw [deviceConfigFromToml]
  -- the defaults have no profiles to drop
  split
  · next e dc' hread => cases hscalars.symm.trans hread
  · next dc' hread =>
    obtain ⟨-, rfl⟩ := Prod.mk.inj (hscalars.symm.trans hread)
    rw [hprofiles]
    by_cases hnil : dc.profiles = []
    · have hdc' : { dc with profiles := [] } = dc := by rw [← hnil]
      rw [if_pos hnil, hdc']
      dsimp only
      rw [h]
    · have hparse := @parseProfiles_eq dc.profiles { dc with profiles := [] } hvalid hdc.profiles
        hdc.nodup
      rw [if_neg hnil]
      dsimp only
      rw [hparse]
      dsimp only
      rw [List.nil_append, h]

/-! ## The shape of documents -/

/-- A member that may be there. -/
theorem mem_ite_singleton {α : Type} {c : Prop} [Decidable c] {m x : α} :
    m ∈ (if c then [x] else []) ↔ c ∧ m = x := by
  split_ifs with h <;> simp [h]

/-- A member that may be missing. -/
theorem mem_ite_nil {α : Type} {c : Prop} [Decidable c] {m x : α} :
    m ∈ (if c then [] else [x]) ↔ ¬ c ∧ m = x := by
  split_ifs with h <;> simp [h]

/-- The members of the table of a profile in front of the button map are floats. -/
theorem forall_mem_profileTable {P : CStr × TomlValue → Prop}
    (hscroll : p.hasScroll → P (.lit "scroll_speed", .float p.scrollSpeed))
    (hsens : p.hasSens → P (.lit "sensitivity", .float p.sensitivity))
    (hlpf : p.hasLpf → P (.lit "lpf_alpha", .float p.lpfAlpha))
    (hmap : P (.lit "button_map", .table (p.map.map buttonMember))) :
    ∀ m ∈ profileTable p, P m := by
  intro m hm
  simp only [profileTable, List.mem_append, mem_ite_singleton, mem_ite_nil] at hm
  rcases hm with ((⟨h, rfl⟩ | ⟨h, rfl⟩) | ⟨h, rfl⟩) | ⟨-, rfl⟩
  · exact hscroll h
  · exact hsens h
  · exact hlpf h
  · exact hmap

theorem nodup_profileTable (p : Profile Double) : ((profileTable p).map Prod.fst).Nodup := by
  unfold profileTable
  cases p.hasScroll <;> cases p.hasSens <;> cases p.hasLpf <;> split_ifs <;>
    simp only [List.map_append, List.map_cons, List.map_nil] <;> decide

theorem nodup_document (dc : DeviceConfig Double) : ((document dc).map Prod.fst).Nodup := by
  unfold document
  cases dc.calib <;> cases dc.hasAirmouse <;> split_ifs <;>
    simp only [List.map_append, List.map_cons, List.map_nil] <;> decide

/-- The members of a document in front of the profiles are neither floats nor tables. -/
theorem forall_mem_document {P : CStr × TomlValue → Prop}
    (hscalar : ∀ k v, v.isTable = false → v.floats = [] → P (k, v))
    (hprofiles : P (.lit "profiles", .table (dc.profiles.map profileMember))) :
    ∀ m ∈ document dc, P m := by
  intro m hm
  simp only [document, List.mem_append, mem_ite_singleton, mem_ite_nil] at hm
  rcases hm with ((hm | hm) | ⟨-, rfl⟩) | ⟨-, rfl⟩
  · exact List.mem_singleton.mp hm ▸ hscalar _ _ rfl rfl
  · split at hm
    · exact List.mem_singleton.mp hm ▸ hscalar _ _ rfl rfl
    · cases hm
  · exact hscalar _ _ rfl rfl
  · exact hprofiles

/-- A document is a well-formed tree. -/
theorem wellFormed_document (h : deviceConfigValidate dc = .ok ()) (hdc : dc.Coherent) :
    (TomlValue.table (document dc)).WellFormed := by
  have hvalid := profileValidate_of_mem h
  have hprofile : ∀ p ∈ dc.profiles, (TomlValue.table (profileTable p)).WellFormed := by
    intro p hp
    have hsome := isSome_of_mapValidate (mapValidate_of_profileValidate (hvalid p hp))
    refine ⟨nodup_profileTable p, membersWellFormed_iff.mpr ?_⟩
    refine forall_mem_profileTable (fun _ => trivial) (fun _ => trivial) (fun _ => trivial) ⟨?_, ?_⟩
    · rw [List.map_map]
      exact nodup_keyName (fun m hm => (hsome m hm).1) (hdc.profiles p hp).nodup
    · rw [membersWellFormed_iff]
      intro m hm
      obtain ⟨m', -, rfl⟩ := List.mem_map.mp hm
      trivial
  refine ⟨nodup_document dc, membersWellFormed_iff.mpr (forall_mem_document ?_ ⟨?_, ?_⟩)⟩
  · intro k v hv _
    cases v <;> trivial
  · rw [List.map_map]
    exact hdc.nodup
  · rw [membersWellFormed_iff]
    intro m hm
    obtain ⟨p, hp, rfl⟩ := List.mem_map.mp hm
    exact hprofile p hp

/-- Below a document are the profiles, a profile and its button map. -/
theorem depth_document (dc : DeviceConfig Double) : membersDepth (document dc) ≤ 3 := by
  have hmap : ∀ map : List (ℤ × ℤ), membersDepth (map.map buttonMember) ≤ 0 := by
    intro map
    rw [membersDepth_le_iff]
    intro m hm htable
    obtain ⟨m', -, rfl⟩ := List.mem_map.mp hm
    cases htable
  have hprofile : ∀ p, membersDepth (profileTable p) ≤ 1 := by
    intro p
    rw [membersDepth_le_iff]
    exact forall_mem_profileTable (fun _ h => nomatch h) (fun _ h => nomatch h)
      (fun _ h => nomatch h) fun _ => Nat.succ_le_succ (hmap p.map)
  rw [membersDepth_le_iff]
  refine forall_mem_document (fun k v hv _ h => ?_) fun _ => Nat.succ_le_succ ?_
  · rw [hv] at h
    cases h
  · rw [TomlValue.depth, membersDepth_le_iff]
    intro m hm _
    obtain ⟨p, -, rfl⟩ := List.mem_map.mp hm
    exact Nat.succ_le_succ (hprofile p)

/-- The tables of a document come after its scalar members. -/
theorem normalizeMembers_document (dc : DeviceConfig Double) :
    normalizeMembers (document dc) = document dc := by
  have hmap : ∀ map : List (ℤ × ℤ), normalizeMembers (map.map buttonMember) =
      map.map buttonMember := by
    intro map
    have hscalar : ∀ m ∈ map.map buttonMember, m.2.isTable = false := by
      intro m hm
      obtain ⟨m', -, rfl⟩ := List.mem_map.mp hm
      rfl
    have := @normalizeMembers_eq_self _ [] hscalar fun m hm => absurd hm List.not_mem_nil
    rwa [List.append_nil] at this
  -- the values of a profile come before its map
  have hprofile : ∀ p, normalizeMembers (profileTable p) = profileTable p := by
    intro p
    -- the settings come before the profiles
    apply normalizeMembers_eq_self
    · intro m hm
      simp only [List.mem_append, mem_ite_singleton] at hm
      rcases hm with (⟨-, rfl⟩ | ⟨-, rfl⟩) | ⟨-, rfl⟩ <;> rfl
    · intro m hm
      obtain ⟨-, rfl⟩ := mem_ite_nil.mp hm
      exact ⟨_, rfl, hmap p.map⟩
  apply normalizeMembers_eq_self
  · intro m hm
    simp only [List.mem_append, mem_ite_singleton] at hm
    rcases hm with (hm | hm) | ⟨-, rfl⟩
    · exact List.mem_singleton.mp hm ▸ rfl
    · split at hm
      · exact List.mem_singleton.mp hm ▸ rfl
      · cases hm
    · rfl
  · intro m hm
    obtain ⟨-, rfl⟩ := mem_ite_nil.mp hm
    refine ⟨_, rfl, ?_⟩
    refine @normalizeMembers_eq_self [] _ (fun m hm => absurd hm List.not_mem_nil) ?_
    intro m hm
    obtain ⟨p, -, rfl⟩ := List.mem_map.mp hm
    exact ⟨_, rfl, hprofile p⟩

/-! ## The numbers of a text -/

/-- The profile with the numbers that are written read back from their texts. -/
def Profile.readBack (p : Profile Double) : Profile Double where
  name := p.name
  scrollSpeed := if p.hasScroll then Printf.readBack p.scrollSpeed else p.scrollSpeed
  sensitivity := if p.hasSens then Printf.readBack p.sensitivity else p.sensitivity
  lpfAlpha := if p.hasLpf then Printf.readBack p.lpfAlpha else p.lpfAlpha
  hasScroll := p.hasScroll
  hasSens := p.hasSens
  hasLpf := p.hasLpf
  map := p.map

/-- The configuration with its numbers read back from their texts. -/
def DeviceConfig.readBack (dc : DeviceConfig Double) : DeviceConfig Double :=
  { dc with profiles := dc.profiles.map Profile.readBack }

theorem readBack_scrollSpeed {x : Double} (hx : x ≠ .nan) (h : scrollSpeedOutOfRange x = false) :
    x.IsFinite ∧ (Printf.readBack x).IsFinite ∧
      scrollSpeedOutOfRange (Printf.readBack x) = false :=
  @readBack_pos_range 2 x (by norm_num) hx h

theorem readBack_sensitivity {x : Double} (hx : x ≠ .nan) (h : sensitivityOutOfRange x = false) :
    x.IsFinite ∧ (Printf.readBack x).IsFinite ∧
      sensitivityOutOfRange (Printf.readBack x) = false :=
  @readBack_pos_range 4 x (by norm_num) hx h

theorem readBack_lpfAlpha {x : Double} (hx : x ≠ .nan) (h : lpfAlphaOutOfRange x = false) :
    x.IsFinite ∧ (Printf.readBack x).IsFinite ∧ lpfAlphaOutOfRange (Printf.readBack x) = false :=
  @readBack_nonneg_range 0 x (by norm_num) hx h

/-- The checks that a valid profile passes. -/
theorem profileValidate_eq_ok : profileValidate p = .ok () ↔ p.name.val ≠ [] ∧
    scrollSpeedOutOfRange p.scrollSpeed = false ∧ sensitivityOutOfRange p.sensitivity = false ∧
    (p.hasLpf = true → lpfAlphaOutOfRange p.lpfAlpha = false) ∧
    mapValidate p.name p.map = .ok () := by
  rw [profileValidate]
  split_ifs with hname hscroll hsens hlpf
  · simp [hname]
  · simp [hscroll]
  · simp [hsens]
  · simp only [Bool.and_eq_true] at hlpf
    simp [hlpf]
  · simp only [Bool.and_eq_true, not_and, Bool.not_eq_true] at hscroll hsens hlpf
    simpa [hname, hscroll, hsens] using fun _ => hlpf

/-- A valid profile stays valid. -/
theorem profileValidate_readBack (h : profileValidate p = .ok ()) (hnan : p.NoNan) :
    profileValidate p.readBack = .ok () := by
  rw [profileValidate_eq_ok] at h ⊢
  obtain ⟨hname, hscroll, hsens, hlpf, hmap⟩ := h
  refine ⟨hname, ?_, ?_, fun h => ?_, hmap⟩
  · change scrollSpeedOutOfRange (if p.hasScroll then _ else _) = false
    split_ifs
    · exact (readBack_scrollSpeed hnan.scrollSpeed hscroll).2.2
    · exact hscroll
  · change sensitivityOutOfRange (if p.hasSens then _ else _) = false
    split_ifs
    · exact (readBack_sensitivity hnan.sensitivity hsens).2.2
    · exact hsens
  · have hset : p.hasLpf = true := h
    change lpfAlphaOutOfRange (if p.hasLpf then _ else _) = false
    rw [if_pos hset]
    exact (readBack_lpfAlpha hnan.lpfAlpha (hlpf hset)).2.2

/-- The floats that are written are finite and are read back finite. -/
theorem finite_of_mem_profileTable (h : profileValidate p = .ok ()) (hnan : p.NoNan) :
    ∀ d ∈ membersFloats (profileTable p), d.IsFinite ∧ (Printf.readBack d).IsFinite := by
  obtain ⟨-, hscroll, hsens, hlpf, -⟩ := profileValidate_eq_ok.mp h
  have hmem : ∀ m ∈ profileTable p, ∀ d ∈ m.2.floats,
      d.IsFinite ∧ (Printf.readBack d).IsFinite := by
    apply forall_mem_profileTable
    · intro _ d hd
      obtain rfl := List.mem_singleton.mp hd
      exact (readBack_scrollSpeed hnan.scrollSpeed hscroll).imp_right And.left
    · intro _ d hd
      obtain rfl := List.mem_singleton.mp hd
      exact (readBack_sensitivity hnan.sensitivity hsens).imp_right And.left
    · intro hset d hd
      obtain rfl := List.mem_singleton.mp hd
      exact (readBack_lpfAlpha hnan.lpfAlpha (hlpf hset)).imp_right And.left
    · -- the names of keycodes are no floats
      intro d hd
      obtain ⟨m, hm, hd⟩ := mem_membersFloats.mp hd
      obtain ⟨b, -, rfl⟩ := List.mem_map.mp hm
      cases hd
  intro d hd
  obtain ⟨m, hm, hd⟩ := mem_membersFloats.mp hd
  exact hmem m hm d hd

theorem finite_of_mem_document (h : deviceConfigValidate dc = .ok ())
    (hnan : ∀ p ∈ dc.profiles, p.NoNan) :
    ∀ d ∈ membersFloats (document dc), d.IsFinite ∧ (Printf.readBack d).IsFinite := by
  have hvalid := profileValidate_of_mem h
  have hmem : ∀ m ∈ document dc, ∀ d ∈ m.2.floats,
      d.IsFinite ∧ (Printf.readBack d).IsFinite := by
    apply forall_mem_document
    · intro k v _ hv d hd
      rw [show (k, v).2.floats = [] from hv] at hd
      cases hd
    · intro d hd
      obtain ⟨m, hm, hd⟩ := mem_membersFloats.mp hd
      obtain ⟨p, hp, rfl⟩ := List.mem_map.mp hm
      exact finite_of_mem_profileTable (hvalid p hp) (hnan p hp) d hd
  intro d hd
  obtain ⟨m, hm, hd⟩ := mem_membersFloats.mp hd
  exact hmem m hm d hd

/-- The document with its floats read back is the document of the configuration with its numbers
read back. -/
theorem mapFloats_document (dc : DeviceConfig Double) :
    membersMapFloats Printf.readBack (document dc) = document dc.readBack := by
  have hmap : ∀ map : List (ℤ × ℤ), membersMapFloats Printf.readBack (map.map buttonMember) =
      map.map buttonMember := by
    intro map
    rw [membersMapFloats_eq_map, List.map_map]
    rfl
  have hprofile : ∀ p, membersMapFloats Printf.readBack (profileTable p) =
      profileTable p.readBack := by
    intro p
    rw [membersMapFloats_eq_map, profileTable, profileTable, Profile.readBack]
    cases p.hasScroll <;> cases p.hasSens <;> cases p.hasLpf <;> split_ifs <;>
      simp [TomlValue.mapFloats, hmap]
  have hprofiles : membersMapFloats Printf.readBack (dc.profiles.map profileMember) =
      dc.readBack.profiles.map profileMember := by
    rw [membersMapFloats_eq_map, DeviceConfig.readBack, List.map_map, List.map_map]
    refine List.map_congr_left fun p _ => ?_
    rw [Function.comp_apply, Function.comp_apply, profileMember, mapFloats_table, hprofile p]
    rfl
  have hnil : dc.readBack.profiles = [] ↔ dc.profiles = [] := List.map_eq_nil_iff
  rw [membersMapFloats_eq_map, document, document]
  simp only [hnil, ← hprofiles]
  rw [DeviceConfig.readBack]
  cases dc.calib <;> cases dc.hasAirmouse <;> split_ifs <;> simp [TomlValue.mapFloats]

theorem map_name_readBack (dc : DeviceConfig Double) :
    dc.readBack.profiles.map (·.name) = dc.profiles.map (·.name) := by
  rw [DeviceConfig.readBack, List.map_map]
  rfl

theorem deviceConfigValidate_readBack (h : deviceConfigValidate dc = .ok ())
    (hnan : ∀ p ∈ dc.profiles, p.NoNan) : deviceConfigValidate dc.readBack = .ok () := by
  rw [deviceConfigValidate_eq_ok] at h ⊢
  obtain ⟨hname, hvalid, hactive⟩ := h
  refine ⟨hname, ?_, ?_⟩
  · intro p hp
    obtain ⟨q, hq, rfl⟩ := List.mem_map.mp hp
    exact profileValidate_readBack (hvalid q hq) (hnan q hq)
  · rw [map_name_readBack]
    exact hactive

theorem Profile.coherent_readBack (hp : p.Coherent) : p.readBack.Coherent where
  scrollSpeed h := by
    rw [← hp.scrollSpeed h]
    exact if_neg (by rw [show p.hasScroll = false from h]; decide)
  sensitivity h := by
    rw [← hp.sensitivity h]
    exact if_neg (by rw [show p.hasSens = false from h]; decide)
  lpfAlpha h := by
    rw [← hp.lpfAlpha h]
    exact if_neg (by rw [show p.hasLpf = false from h]; decide)
  nodup := hp.nodup

theorem coherent_readBack (hdc : dc.Coherent) : dc.readBack.Coherent where
  calib := hdc.calib
  airmouse := hdc.airmouse
  nodup := by
    rw [map_name_readBack]
    exact hdc.nodup
  profiles p hp := by
    obtain ⟨q, hq, rfl⟩ := List.mem_map.mp hp
    exact Profile.coherent_readBack (hdc.profiles q hq)

/-- The texts of the numbers of a profile are the same. -/
theorem Profile.mapNum_readBack (h : profileValidate p = .ok ()) (hnan : p.NoNan) :
    p.readBack.mapNum (fmtG 15) = p.mapNum (fmtG 15) := by
  obtain ⟨-, hscroll, hsens, hlpf, -⟩ := profileValidate_eq_ok.mp h
  have hscroll := readBack_scrollSpeed hnan.scrollSpeed hscroll
  have hsens := readBack_sensitivity hnan.sensitivity hsens
  have hlpf : p.hasLpf = true → fmtG 15 (Printf.readBack p.lpfAlpha) = fmtG 15 p.lpfAlpha := by
    intro hset
    have hread := readBack_lpfAlpha hnan.lpfAlpha (hlpf hset)
    exact fmtG_readBack hread.1 hread.2.1
  simp only [Profile.mapNum, Profile.readBack, apply_ite (fmtG 15),
    fmtG_readBack hscroll.1 hscroll.2.1, fmtG_readBack hsens.1 hsens.2.1, ite_self]
  split_ifs with hset
  · rw [hlpf hset]
  · rfl

theorem mapNum_readBack (h : deviceConfigValidate dc = .ok ())
    (hnan : ∀ p ∈ dc.profiles, p.NoNan) :
    dc.readBack.mapNum (fmtG 15) = dc.mapNum (fmtG 15) := by
  have hprofiles : dc.readBack.profiles.map (·.mapNum (fmtG 15)) =
      dc.profiles.map (·.mapNum (fmtG 15)) := by
    rw [DeviceConfig.readBack, List.map_map]
    refine List.map_congr_left fun p hp => ?_
    exact Profile.mapNum_readBack (profileValidate_of_mem h p hp) (hnan p hp)
  rw [DeviceConfig.mapNum, hprofiles]
  rfl

/-! ## Both ways -/

/-- The text of a document is read as the document with its numbers read back. -/
theorem tomlParse_document {text : CStr} (h : deviceConfigValidate dc = .ok ()) (hdc : dc.Coherent)
    (hnan : ∀ p ∈ dc.profiles, p.NoNan) (htext : tomlDumps (.table (document dc)) = some text) :
    tomlParse text.val = .ok (document dc.readBack) := by
  have hparse := tomlParse_readBack (wellFormed_document h hdc)
    (fun d hd => (finite_of_mem_document h hnan d hd).1) htext
  rwa [mapFloats_document, normalizeMembers_document] at hparse

/-- The document with its numbers read back is read as the configuration with its numbers read
back. -/
theorem deviceConfigFromToml_readBack (h : deviceConfigValidate dc = .ok ()) (hdc : dc.Coherent)
    (hnan : ∀ p ∈ dc.profiles, p.NoNan) :
    deviceConfigFromToml (.table (document dc.readBack)) deviceConfigInit = (.ok (), dc.readBack) :=
  deviceConfigFromToml_document (deviceConfigValidate_readBack h hnan) (coherent_readBack hdc)

/-- A valid configuration is given back by its document, and up to the texts of its numbers by the
text of the document. -/
theorem deviceConfigFromToml_toToml (dc : DeviceConfig Double) (h : deviceConfigValidate dc = .ok ())
    (hdc : dc.Coherent) (hnan : ∀ p ∈ dc.profiles, p.NoNan) :
    ∃ root, deviceConfigToToml dc = some root ∧
      deviceConfigFromToml (.table root) deviceConfigInit = (.ok (), dc) ∧
      ∃ text root' dc', tomlDumps (.table root) = some text ∧ tomlParse text.val = .ok root' ∧
        deviceConfigFromToml (.table root') deviceConfigInit = (.ok (), dc') ∧
        dc'.mapNum (fmtG 15) = dc.mapNum (fmtG 15) := by
  have hdepth : (TomlValue.table (document dc)).depth ≤ tomlMaxDepth - 1 := by
    rw [TomlValue.depth]
    exact (depth_document dc).trans (by decide)
  obtain ⟨text, htext⟩ := Option.isSome_iff_exists.mp (tomlDumps_isSome hdepth)
  exact ⟨document dc, deviceConfigToToml_eq h hdc, deviceConfigFromToml_document h hdc, text,
    document dc.readBack, dc.readBack, htext, tomlParse_document h hdc hnan htext,
    deviceConfigFromToml_readBack h hdc hnan, mapNum_readBack h hnan⟩

/-- A configuration with two profiles, one of them active, and a button map. -/
def sampleConfig : DeviceConfig Double where
  profile := .lit "media \"2\""
  calib := some (.lit "/etc/lgmagic/calib.bin")
  airmouse := false
  hasAirmouse := true
  profiles :=
    [{ profileInit (.lit "default") with
        sensitivity := .ofRat false (1 / 3)
        hasSens := true },
      { profileInit (.lit "media \"2\"") with
        scrollSpeed := .ofInt 100
        hasScroll := true
        lpfAlpha := .zero true
        hasLpf := true
        map := [(103, 28), (28, 103)] }]

instance (p : Profile Double) : Decidable p.Coherent :=
  decidable_of_iff ((p.hasScroll = false → p.scrollSpeed = CNum.ofRat 1) ∧
      (p.hasSens = false → p.sensitivity = CNum.ofRat 30) ∧
      (p.hasLpf = false → p.lpfAlpha = CNum.ofRat (-1)) ∧ (p.map.map Prod.fst).Nodup)
    ⟨fun ⟨h₁, h₂, h₃, h₄⟩ => ⟨h₁, h₂, h₃, h₄⟩, fun ⟨h₁, h₂, h₃, h₄⟩ => ⟨h₁, h₂, h₃, h₄⟩⟩

theorem noNan_sampleConfig : ∀ p ∈ sampleConfig.profiles, p.NoNan := by
  have h : ∀ p ∈ sampleConfig.profiles,
      p.scrollSpeed ≠ .nan ∧ p.sensitivity ≠ .nan ∧ p.lpfAlpha ≠ .nan := by decide +kernel
  exact fun p hp => ⟨(h p hp).1, (h p hp).2.1, (h p hp).2.2⟩

theorem deviceConfigFromToml_toToml_sample : ∃ root, deviceConfigToToml sampleConfig = some root ∧
    deviceConfigFromToml (.table root) deviceConfigInit = (.ok (), sampleConfig) ∧
    ∃ text root' dc', tomlDumps (.table root) = some text ∧ tomlParse text.val = .ok root' ∧
      deviceConfigFromToml (.table root') deviceConfigInit = (.ok (), dc') ∧
      dc'.mapNum (fmtG 15) = sampleConfig.mapNum (fmtG 15) :=
  deviceConfigFromToml_toToml sampleConfig
    (deviceConfigValidate_eq_ok.mpr ⟨by decide, by decide +kernel, by decide⟩)
    ⟨by decide, by decide, by decide, by decide +kernel⟩
    noNan_sampleConfig

end Profiles
