import LgMagic.Lib.CString
import Mathlib.Data.List.Basic

/-!
# The address of the bus

The choice of a socket from an address list and the socket address that `dbus_connect` makes of it.
Part of `dbus_client.c`. A pointer into the address is its offset.

* `pickUnixSocket`: the entry that is taken;
* `dbusConnect`: the socket address, up to the call of `connect`;
* `entries`, `wanted`: the entries of a list, and the one that should be taken;
* `pickUnixSocket_eq`: what is taken, over the entries;
* `meets_iff`: the addresses on which the right entry is taken and no name is written past its field.
-/

namespace DBus

open CString

/-! ## The code -/

/-- What `pick_unix_socket` stores: whether the name is abstract, where it starts and its length. -/
structure Picked where
  abstract : Bool
  sock : ℕ
  socklen : ℕ
  deriving DecidableEq

/-- `"unix:path="` -/
def unixPath : Bytes := ascii "unix:path="

/-- `"unix:abstract="` -/
def unixAbstract : Bytes := ascii "unix:abstract="

/-- The end of an entry. -/
def semicolon : UInt8 := 0x3B

/-- The end of a parameter. -/
def comma : UInt8 := 0x2C

/-- The length of a value: it runs to the next parameter. -/
def valueLength (val : Bytes) : ℕ := (val.takeWhile (· != comma)).length

/-- The loop of `pick_unix_socket` at an offset. Every turn but the last passes a semicolon, so the
fuel is the number of bytes. The prefix of an abstract name is compared over 13 of its 14 bytes. -/
def pickFrom : ℕ → ℕ → Bytes → Option Picked
  | 0, _, _ => none
  | n + 1, p, rest =>
    let entry := rest.takeWhile (· != semicolon)
    if 10 < entry.length ∧ (unixPath.take 10).isPrefixOf rest then
      some ⟨false, p + 10, valueLength (entry.drop 10)⟩
    else if 13 < entry.length ∧ (unixAbstract.take 13).isPrefixOf rest then
      some ⟨true, p + 13, valueLength (entry.drop 13)⟩
    else
      match rest.drop entry.length with
      | [] => none
      | _ :: rest => pickFrom n (p + entry.length + 1) rest

/-- `pick_unix_socket`; there is nothing to pick where the code returns -1. -/
def pickUnixSocket (address : CStr) : Option Picked := pickFrom address.val.length 0 address.val

/-- The address that is used when none is given. -/
def defaultAddress : CStr := CStr.lit "unix:path=/run/dbus/system_bus_socket"

/-- The address of a call: the argument, `DBUS_SYSTEM_BUS_ADDRESS`, or the default. -/
def busAddress (address env : Option CStr) : CStr :=
  match address.or env with
  | some a => if a.val = [] then defaultAddress else a
  | none => defaultAddress

/-- `sizeof path` -/
def pathSize : ℕ := 512

/-- `sizeof a.sun_path` -/
def sunPathSize : ℕ := 108

/-- What `dbus_connect` comes to before the authentication. -/
inductive Attempt
  /-- "unsupported bus address" -/
  | unsupported
  /-- "cannot create a socket" -/
  | noSocket
  /-- The name was written past `sun_path`. -/
  | overrun
  /-- The call of `connect`, with `sun_path` and the length of the address. -/
  | connect (sunPath : Bytes) (len : ℕ)
  deriving DecidableEq

/-- `dbus_connect` up to the call of `connect`; `socket` tells whether there is a socket. -/
def dbusConnect (address env : Option CStr) (socket : Bool) : Attempt :=
  let address := busAddress address env
  match pickUnixSocket address with
  | none => .unsupported
  | some ⟨abstract, sock, socklen⟩ =>
    if socklen = 0 ∨ pathSize ≤ socklen then .unsupported
    else
      let path := (address.val.drop sock).take socklen
      if !socket then .noSocket
      else
        -- `memcpy` behind a NUL, or `strcpy` with its NUL
        let written := if abstract then 0 :: path else path ++ [0]
        if sunPathSize < written.length then .overrun
        else
          let sunPath := written ++ List.replicate (sunPathSize - written.length) 0
          .connect sunPath (if abstract then 2 + 1 + socklen else 2 + sunPathSize)

/-- The call failed before an address was made. -/
def Attempt.rejected : Attempt → Bool
  | .unsupported | .noSocket => true
  | _ => false

/-! ## The entries -/

/-- The entries of an address list, with their offsets. -/
def entries (p : ℕ) : Bytes → List (ℕ × Bytes)
  | [] => [(p, [])]
  | c :: cs =>
    if c = semicolon then (p, []) :: entries (p + 1) cs
    else
      match entries (p + 1) cs with
      | (_, e) :: es => (p, c :: e) :: es
      | [] => []

/-- A value after a prefix: where it starts and its length. -/
def takeEntry (abstract : Bool) (skip : ℕ) (entry : ℕ × Bytes) : Picked :=
  ⟨abstract, entry.1 + skip, valueLength (entry.2.drop skip)⟩

/-- The entry begins with `unix:path=` and goes on. -/
def isPathEntry (e : Bytes) : Bool := decide (10 < e.length) && unixPath.isPrefixOf e

/-- The entry begins with `unix:abstract=` and goes on. -/
def isAbstractEntry (e : Bytes) : Bool := decide (14 < e.length) && unixAbstract.isPrefixOf e

/-- The entry begins with `unix:abstract`, whatever comes next, and goes on. -/
def isAbstractLike (e : Bytes) : Bool := decide (13 < e.length) && (ascii "unix:abstract").isPrefixOf e

/-- The value that should be taken from an entry. -/
def wantedOf (entry : ℕ × Bytes) : Option Picked :=
  if isPathEntry entry.2 then some (takeEntry false 10 entry)
  else if isAbstractEntry entry.2 then some (takeEntry true 14 entry)
  else none

/-- The value that should be taken: that of the first entry that names a socket. -/
def wanted (address : CStr) : Option Picked := (entries 0 address.val).findSome? wantedOf

/-- The value that is taken from an entry. -/
def pickedOf (entry : ℕ × Bytes) : Option Picked :=
  if isPathEntry entry.2 then some (takeEntry false 10 entry)
  else if isAbstractLike entry.2 then some (takeEntry true 13 entry)
  else none

section

variable {p : ℕ} {s e : Bytes} {es : List (ℕ × Bytes)}

/-- The first entry goes up to the first semicolon, the others are those of the rest. -/
theorem entries_eq (p : ℕ) (s : Bytes) :
    entries p s = (p, s.takeWhile (· != semicolon)) ::
      match s.drop (s.takeWhile (· != semicolon)).length with
      | [] => []
      | _ :: rest => entries (p + (s.takeWhile (· != semicolon)).length + 1) rest := by
  induction s generalizing p with
  | nil => rfl
  | cons c s ih =>
    rw [entries]
    by_cases hc : c = semicolon
    · simp [hc]
    · have hlen : p + 1 + (s.takeWhile (· != semicolon)).length + 1 =
          p + ((s.takeWhile (· != semicolon)).length + 1) + 1 := by omega
      rw [if_neg hc, ih]
      simp [hc, hlen]

/-- Entries do not overlap. -/
theorem le_of_mem_entries {x : ℕ × Bytes} (h : x ∈ entries p s) : p ≤ x.1 := by
  induction s generalizing p with
  | nil =>
    obtain rfl : x = (p, []) := by simpa [entries] using h
    exact le_rfl
  | cons c s ih =>
    rw [entries] at h
    split_ifs at h with hc
    · rcases List.mem_cons.mp h with rfl | h
      · exact le_rfl
      · exact Nat.le_of_succ_le (ih h)
    · split at h
      · next e es heq =>
        rcases List.mem_cons.mp h with rfl | h
        · exact le_rfl
        · exact Nat.le_of_succ_le (ih (heq ▸ List.mem_cons_of_mem _ h))
      · cases h

/-- A prefix without a semicolon is one of the entry. -/
theorem isPrefixOf_entry {w : Bytes} (hw : ∀ c ∈ w, c ≠ semicolon) (s : Bytes) :
    w.isPrefixOf s = w.isPrefixOf (s.takeWhile (· != semicolon)) := by
  induction w generalizing s with
  | nil => cases s <;> rfl
  | cons c w ih =>
    rw [List.forall_mem_cons] at hw
    cases s with
    | nil => rfl
    | cons b s =>
      by_cases hb : b = semicolon
      · have hne : (c == b) = false := by
          rw [hb]
          exact beq_false_of_ne hw.1
        simp [hb, List.isPrefixOf, beq_false_of_ne hw.1]
      · simp [hb, List.isPrefixOf, ih hw.2 s]

/-- The code takes the first entry that `pickedOf` takes. -/
theorem pickFrom_eq {n : ℕ} (hn : s.length ≤ n) (p : ℕ) :
    pickFrom n p s = (entries p s).findSome? pickedOf := by
  induction n generalizing s p with
  | zero =>
    obtain rfl : s = [] := List.length_eq_zero_iff.mp (by omega)
    rfl
  | succ n ih =>
    have hpath := isPrefixOf_entry (w := unixPath) (by decide +kernel) s
    have habstract := isPrefixOf_entry (w := ascii "unix:abstract") (by decide +kernel) s
    have htake : unixPath.take 10 = unixPath := rfl
    have htake' : unixAbstract.take 13 = ascii "unix:abstract" := rfl
    rw [entries_eq, List.findSome?_cons, pickFrom]
    simp only [htake, htake', hpath, habstract, pickedOf, isPathEntry, isAbstractLike,
      Bool.and_eq_true, decide_eq_true_eq, takeEntry]
    split_ifs with h1 h2
    · rfl
    · rfl
    · cases hrest : s.drop (s.takeWhile (· != semicolon)).length with
      | nil => rfl
      | cons c rest =>
        have hlen := congrArg List.length hrest
        rw [List.length_drop, List.length_cons] at hlen
        exact ih (by omega) _

theorem pickUnixSocket_eq (address : CStr) :
    pickUnixSocket address = (entries 0 address.val).findSome? pickedOf :=
  pickFrom_eq le_rfl 0

/-- Entries come one after the other. -/
theorem pairwise_entries (p : ℕ) (s : Bytes) :
    (entries p s).Pairwise fun a b => a.1 + a.2.length < b.1 := by
  induction hn : s.length using Nat.strong_induction_on generalizing p s with
  | _ n ih =>
    rw [entries_eq]
    cases hrest : s.drop (s.takeWhile (· != semicolon)).length with
    | nil => exact List.pairwise_singleton _ _
    | cons c rest =>
      have hlen := congrArg List.length hrest
      rw [List.length_drop, List.length_cons] at hlen
      refine List.pairwise_cons.mpr ⟨fun x hx => ?_, ih rest.length (by omega) _ rest rfl⟩
      exact Nat.lt_of_succ_le (le_of_mem_entries hx)

/-! ## The first entry that names a socket -/

/-- The entry is one that the code stops at. -/
def stopsAt (entry : ℕ × Bytes) : Bool := isPathEntry entry.2 || isAbstractLike entry.2

theorem isAbstractLike_of_isAbstractEntry (h : isAbstractEntry e = true) : isAbstractLike e = true := by
  simp only [isAbstractEntry, isAbstractLike, Bool.and_eq_true, decide_eq_true_eq,
    List.isPrefixOf_iff_prefix] at h ⊢
  refine ⟨by omega, List.IsPrefix.trans ?_ h.2⟩
  exact ⟨[0x3D], rfl⟩

/-- Where the code does not stop there is nothing to take. -/
theorem of_not_stopsAt {x : ℕ × Bytes} (h : stopsAt x = false) : pickedOf x = none ∧ wantedOf x = none := by
  rw [stopsAt, Bool.or_eq_false_iff] at h
  obtain ⟨hpath, hlike⟩ := h
  have habstract : isAbstractEntry x.2 = false := by
    by_contra hyes
    rw [Bool.not_eq_false] at hyes
    rw [isAbstractLike_of_isAbstractEntry hyes] at hlike
    cases hlike
  simp [pickedOf, wantedOf, hpath, hlike, habstract]

theorem findSome?_of_find?_none {α β : Type*} {f : α → Bool} {g : α → Option β} {l : List α}
    (h : l.find? f = none) (hg : ∀ x, f x = false → g x = none) : l.findSome? g = none := by
  rw [List.findSome?_eq_none_iff]
  intro x hx
  exact hg x (by simpa using List.find?_eq_none.mp h x hx)

theorem findSome?_of_find? {α β : Type*} {f : α → Bool} {g : α → Option β} {l pre post : List α} {x : α}
    (h : l = pre ++ x :: post) (hpre : ∀ y ∈ pre, f y = false) (hg : ∀ x, f x = false → g x = none) :
    l.findSome? g = (g x).or (post.findSome? g) := by
  have hnone : pre.findSome? g = none :=
    List.findSome?_eq_none_iff.mpr fun y hy => hg y (hpre y hy)
  rw [h, List.findSome?_append, hnone, Option.none_or, List.findSome?_cons]
  cases g x <;> rfl

/-- A value that fits neither `sun_path` nor the buffer of the name is refused, one that fits
`sun_path` is used. -/
def FitsSunPath (n : ℕ) : Prop := n < sunPathSize ∨ pathSize ≤ n

/-- Of the entries that the code stops at the first one is a path, and its value fits. -/
def PathFirst (address : CStr) : Prop :=
  match (entries 0 address.val).find? stopsAt with
  | none => True
  | some x => isPathEntry x.2 = true ∧ FitsSunPath (valueLength (x.2.drop 10))

/-- The right value is taken, and a name that does not fit `sun_path` with its NUL is refused. -/
def Meets (address : CStr) : Prop :=
  pickUnixSocket address = wanted address ∧
    ∀ arg env socket, busAddress arg env = address → ∀ picked, pickUnixSocket address = some picked →
      sunPathSize < picked.socklen + 1 → (dbusConnect arg env socket).rejected = true

/-- A value lies in its entry. -/
theorem takeEntry_le (abstract : Bool) (skip : ℕ) (x : ℕ × Bytes) (hskip : skip ≤ x.2.length) :
    (takeEntry abstract skip x).sock + (takeEntry abstract skip x).socklen ≤ x.1 + x.2.length := by
  have hle := (List.takeWhile_prefix (· != comma) (l := x.2.drop skip)).length_le
  rw [List.length_drop] at hle
  simp only [takeEntry, valueLength]
  omega

/-- The bytes of a name that is read off an entry are there. -/
theorem entry_bound {x : ℕ × Bytes} (hx : x ∈ entries p s) : x.1 + x.2.length ≤ p + s.length := by
  induction hn : s.length using Nat.strong_induction_on generalizing p s with
  | _ n ih =>
    have hle := (List.takeWhile_prefix (· != semicolon) (l := s)).length_le
    rw [entries_eq] at hx
    rcases List.mem_cons.mp hx with rfl | hx
    · simp only
      omega
    · split at hx
      · cases hx
      · next c rest hrest =>
        have hlen := congrArg List.length hrest
        rw [List.length_drop, List.length_cons] at hlen
        have hbound := ih rest.length (by omega) hx rfl
        omega

/-- What becomes of a name that does not fit. -/
theorem dbusConnect_rejected_iff {arg env : Option CStr} {socket : Bool} {picked : Picked}
    (h : pickUnixSocket (busAddress arg env) = some picked) (hlong : sunPathSize < picked.socklen + 1)
    (hbytes : picked.sock + picked.socklen ≤ (busAddress arg env).val.length) :
    (dbusConnect arg env socket).rejected = true ↔ pathSize ≤ picked.socklen ∨ socket = false := by
  obtain ⟨abstract, sock, socklen⟩ := picked
  simp only at hlong hbytes
  have hpath : (((busAddress arg env).val.drop sock).take socklen).length = socklen := by
    rw [List.length_take, List.length_drop]
    omega
  have hwritten : sunPathSize < (if abstract then
      0 :: ((busAddress arg env).val.drop sock).take socklen
    else ((busAddress arg env).val.drop sock).take socklen ++ [0]).length := by
    cases abstract <;> simpa [hpath] using hlong
  have hpos : socklen ≠ 0 := by
    simp only [sunPathSize] at hlong
    omega
  simp only [dbusConnect, h, hpos, false_or]
  split_ifs with h1 h2
  · simp [Attempt.rejected, h1]
  · simpa [Attempt.rejected, h1] using h2
  · simp_all [Attempt.rejected]

/-- At a path entry the code takes what it should, in the bounds of the address. -/
theorem picked_of_path {address : CStr} {x : ℕ × Bytes}
    (hfind : (entries 0 address.val).find? stopsAt = some x) (hx : isPathEntry x.2 = true) :
    pickUnixSocket address = some (takeEntry false 10 x) ∧ wanted address = some (takeEntry false 10 x) ∧
      (takeEntry false 10 x).sock + (takeEntry false 10 x).socklen ≤ address.val.length := by
  obtain ⟨-, pre, post, hsplit, hpre⟩ := List.find?_eq_some_iff_append.mp hfind
  have hpre' : ∀ y ∈ pre, stopsAt y = false := fun y hy => by simpa using hpre y hy
  have hlen : 10 ≤ x.2.length := by
    simp only [isPathEntry, Bool.and_eq_true, decide_eq_true_eq] at hx
    omega
  have hmem : x ∈ entries 0 address.val := hsplit ▸ List.mem_append_right _ List.mem_cons_self
  refine ⟨?_, ?_, ?_⟩
  · rw [pickUnixSocket_eq, findSome?_of_find? hsplit hpre' fun y hy => (of_not_stopsAt hy).1]
    simp [pickedOf, hx]
  · rw [wanted, findSome?_of_find? hsplit hpre' fun y hy => (of_not_stopsAt hy).2]
    simp [wantedOf, hx]
  · have hbound := entry_bound hmem
    have hle := takeEntry_le false 10 x hlen
    omega

/-- At any other entry the code takes a value that starts one byte too early. -/
theorem picked_of_abstract {address : CStr} {x : ℕ × Bytes}
    (hfind : (entries 0 address.val).find? stopsAt = some x) (hx : isPathEntry x.2 = false) :
    pickUnixSocket address ≠ wanted address := by
  obtain ⟨hstop, pre, post, hsplit, hpre⟩ := List.find?_eq_some_iff_append.mp hfind
  have hpre' : ∀ y ∈ pre, stopsAt y = false := fun y hy => by simpa using hpre y hy
  have hlike : isAbstractLike x.2 = true := by simpa [stopsAt, hx] using hstop
  have hlen : 13 < x.2.length := by
    simp only [isAbstractLike, Bool.and_eq_true, decide_eq_true_eq] at hlike
    exact hlike.1
  have hpair := pairwise_entries 0 address.val
  rw [hsplit] at hpair
  have hafter := (List.pairwise_cons.mp (List.pairwise_append.mp hpair).2.1).1
  rw [pickUnixSocket_eq, wanted, findSome?_of_find? hsplit hpre' fun y hy => (of_not_stopsAt hy).1,
    findSome?_of_find? hsplit hpre' fun y hy => (of_not_stopsAt hy).2]
  have hpicked : pickedOf x = some (takeEntry true 13 x) := by simp [pickedOf, hx, hlike]
  rw [hpicked, Option.some_or]
  intro heq
  -- the value that should be taken starts later, in this entry or in one that follows
  rcases hw : wantedOf x with _ | w
  · rw [hw, Option.none_or] at heq
    obtain ⟨y, hy, hwanted⟩ := List.exists_of_findSome?_eq_some heq.symm
    have hspace := hafter y hy
    unfold wantedOf at hwanted
    split_ifs at hwanted
    · injection hwanted with hwanted
      have habstract := congrArg Picked.abstract hwanted
      cases habstract
    · injection hwanted with hwanted
      have hsock := congrArg Picked.sock hwanted
      simp only [takeEntry] at hsock
      omega
  · rw [hw, Option.some_or] at heq
    simp only [wantedOf, hx, Bool.false_eq_true, if_false] at hw
    split_ifs at hw
    injection hw with hw
    injection heq with heq
    have hsock := congrArg Picked.sock (heq.trans hw.symm)
    simp only [takeEntry] at hsock
    omega

/-- The addresses on which the right entry is taken and no name is written past `sun_path`. -/
theorem meets_iff (address : CStr) : Meets address ↔ PathFirst address := by
  unfold PathFirst
  cases hfind : (entries 0 address.val).find? stopsAt with
  -- no entry with a path or an abstract name: nothing is picked, and nothing is wanted
  | none =>
    have hpick : pickUnixSocket address = none := by
      rw [pickUnixSocket_eq]
      exact findSome?_of_find?_none hfind fun x hx => (of_not_stopsAt hx).1
    have hwanted : wanted address = none :=
      findSome?_of_find?_none hfind fun x hx => (of_not_stopsAt hx).2
    refine iff_of_true ⟨by rw [hpick, hwanted], fun arg env socket _ picked h => ?_⟩ trivial
    rw [hpick] at h
    cases h
  | some x =>
    cases hx : isPathEntry x.2 with
    -- an abstract name is taken for a path
    | false =>
      refine iff_of_false (fun h => picked_of_abstract hfind hx h.1) ?_
      rintro ⟨h, -⟩
      rw [hx] at h
      cases h
    | true =>
      obtain ⟨hpick, hwanted, hbytes⟩ := picked_of_path hfind hx
      simp only [hx, true_and]
      -- a path is picked as wanted; only its length is open
      constructor
      · rintro ⟨-, hsafe⟩
        by_contra hfits
        rw [FitsSunPath, not_or, not_lt, not_le] at hfits
        have hne : address.val ≠ [] := by
          intro hnil
          rw [hnil] at hfind
          cases hfind
        have haddress : busAddress (some address) none = address := by simp [busAddress, hne]
        have hlong : sunPathSize < (takeEntry false 10 x).socklen + 1 := Nat.lt_succ_of_le hfits.1
        have hrejected := hsafe (some address) none true haddress _ hpick hlong
        rw [← haddress] at hpick hbytes
        rcases (dbusConnect_rejected_iff hpick hlong hbytes).mp hrejected with hbuf | hsocket
        · exact absurd hbuf (not_le.mpr hfits.2)
        · cases hsocket
      · intro hfits
        refine ⟨hpick.trans hwanted.symm, fun arg env socket haddress picked hpicked hlong => ?_⟩
        rw [hpick] at hpicked
        cases hpicked
        rw [← haddress] at hpick hbytes
        refine (dbusConnect_rejected_iff hpick hlong hbytes).mpr (.inl ?_)
        exact hfits.resolve_left (by simp only [takeEntry] at hlong ⊢; omega)

end

/-- An abstract socket alone. -/
def abstractAddress : CStr := CStr.lit "unix:abstract=/tmp/bus"

/-- The name of an abstract socket is taken with the equals sign in front. -/
theorem abstractAddress_not_meets : ¬ Meets abstractAddress ∧
    pickUnixSocket abstractAddress = some ⟨true, 13, 9⟩ ∧ wanted abstractAddress = some ⟨true, 14, 8⟩ := by
  have hpick : pickUnixSocket abstractAddress = some ⟨true, 13, 9⟩ := by decide +kernel
  have hwanted : wanted abstractAddress = some ⟨true, 14, 8⟩ := by decide +kernel
  refine ⟨?_, hpick, hwanted⟩
  rintro ⟨heq, -⟩
  rw [hpick, hwanted] at heq
  revert heq
  decide

/-- A path with parameters behind it is taken, and it is behind an address of another kind. -/
example : pickUnixSocket (CStr.lit "tcp:host=a;unix:path=/run/bus,guid=0") = some ⟨false, 21, 8⟩ := by
  decide +kernel

end DBus
