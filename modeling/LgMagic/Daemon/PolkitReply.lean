import LgMagic.Daemon.Polkit

/-!
# Replies of the broker and of polkit

What the authorization makes of well-formed replies. The dictionary of the broker is read in any
order and with any other entries in it, and root gets through. The reply of polkit is one structure,
and it is read as if its members stood in the message itself: nobody else ever gets through.

* `readCredentials_reply`: the credentials of a well-formed dictionary;
* `exec_polkitAuthorized_root`: root is authorized;
* `readAuthorization_struct`: the structure of polkit cannot be read;
* `not_granted`: a caller that polkit authorizes is refused.
-/

namespace Daemon

open CString MessageCursor Posix

/-! ## The dictionary of the broker -/

/-- The keys that matter. -/
def uidKey : CStr := .lit "UnixUserID"

/-- The process of the caller. -/
def pidKey : CStr := .lit "ProcessID"

/-- The start time of the process. -/
def startKey : CStr := .lit "ProcessStartTime"

/-- An entry of a dictionary. -/
def entryVal (e : CStr × Val) : Val := .dictEntry (.text .string e.1) (.variant e.2)

/-- A reply with a dictionary. -/
def credentialsReply (entries : List (CStr × Val)) : Message :=
  [.array (ascii "\x7bsv\x7d") (entries.map entryVal)]

/-- The bits of a number. -/
def bitsOf : Val → ℕ
  | .num _ n => n
  | _ => 0

/-- The entry is of the type that its key asks for. -/
def EntryTyped (e : CStr × Val) : Prop :=
  (e.1 = uidKey ∨ e.1 = pidKey → ∃ n, e.2 = .num .uint32 n) ∧
    (e.1 = startKey → ∃ n, e.2 = .num .uint64 n)

/-- What an entry adds to the credentials. -/
def Credentials.put (creds : Credentials) (e : CStr × Val) : Credentials :=
  if e.1 = uidKey then { creds with uid := some (bitsOf e.2) }
  else if e.1 = pidKey then { creds with pid := some (bitsOf e.2) }
  else if e.1 = startKey then { creds with starttime := some (bitsOf e.2) }
  else creds

variable {creds : Credentials} {c : Cursor} {e : CStr × Val} {entries : List (CStr × Val)}

theorem readCredential_eq (he : EntryTyped e) :
    readCredential e.1 creds (⟨false, [.variant e.2]⟩ :: c) = .ok (creds.put e) (⟨false, []⟩ :: c) := by
  obtain ⟨k, v⟩ := e
  obtain ⟨hnum, hstart⟩ := he
  unfold readCredential Credentials.put
  by_cases hu : k = uidKey
  · obtain ⟨n, rfl⟩ := hnum (.inl hu)
    simp only [if_pos hu, if_pos (show k = .lit "UnixUserID" from hu), readVariantNum_num, bitsOf,
      Read.andThen]
  by_cases hp : k = pidKey
  · obtain ⟨n, rfl⟩ := hnum (.inr hp)
    simp only [if_neg hu, if_neg (show k ≠ .lit "UnixUserID" from hu), if_pos hp,
      if_pos (show k = .lit "ProcessID" from hp), readVariantNum_num, bitsOf,
      Read.andThen]
  by_cases hs : k = startKey
  · obtain ⟨n, rfl⟩ := hstart hs
    simp only [if_neg hu, if_neg (show k ≠ .lit "UnixUserID" from hu), if_neg hp,
      if_neg (show k ≠ .lit "ProcessID" from hp), if_pos hs,
      if_pos (show k = .lit "ProcessStartTime" from hs), readVariantNum_num, bitsOf,
      Read.andThen]
  · simp only [if_neg hu, if_neg (show k ≠ .lit "UnixUserID" from hu), if_neg hp,
      if_neg (show k ≠ .lit "ProcessID" from hp), if_neg hs,
      if_neg (show k ≠ .lit "ProcessStartTime" from hs)]
    rfl

/-- One entry is read and left behind. -/
theorem readEntry_eq (he : EntryTyped e) {f : Frame} :
    readEntry creds (⟨false, [.text .string e.1, .variant e.2]⟩ :: f :: c) =
      .ok (creds.put e) (f :: c) := by
  have hkey : readText .string (⟨false, [.text .string e.1, .variant e.2]⟩ :: f :: c) =
      .ok e.1 (⟨false, [.variant e.2]⟩ :: f :: c) := rfl
  rw [readEntry, hkey]
  simp [Read.andThen, readCredential_eq he, exit]

/-- The loop reads every entry, whatever their number. -/
theorem readEntries_eq (hentries : ∀ e ∈ entries, EntryTyped e) {n : ℕ} (hn : entries.length < n) :
    readEntries n creds (⟨true, entries.map entryVal⟩ :: c) = some (entries.foldl .put creds) := by
  induction entries generalizing creds n with
  | nil =>
    obtain ⟨m, rfl⟩ := Nat.exists_eq_succ_of_ne_zero (Nat.ne_of_gt hn)
    rfl
  | cons e entries ih =>
    obtain ⟨m, rfl⟩ := Nat.exists_eq_succ_of_ne_zero (Nat.ne_of_gt (Nat.zero_lt_of_lt hn))
    have henter : enter .dictEntry (ascii "sv") (⟨true, (e :: entries).map entryVal⟩ :: c) =
        .ok () (⟨false, [.text .string e.1, .variant e.2]⟩ ::
          ⟨true, entries.map entryVal⟩ :: c) := rfl
    rw [readEntries, henter]
    simp only [readEntry_eq (hentries e List.mem_cons_self), List.foldl_cons]
    exact ih (fun e he => hentries e (List.mem_cons_of_mem _ he)) (by simpa using hn)

theorem readCredentials_reply (hentries : ∀ e ∈ entries, EntryTyped e) :
    readCredentials (credentialsReply entries) =
      some (entries.foldl .put ⟨none, none, none⟩) := by
  have henter : enter .array (ascii "\x7bsv\x7d") (start (credentialsReply entries)) =
      .ok () [⟨true, entries.map entryVal⟩, ⟨false, []⟩] := rfl
  rw [readCredentials, henter]
  exact readEntries_eq hentries (by simp [remaining])

/-- A field of the credentials is what the one entry under its key says. -/
theorem foldl_put (field : Credentials → Option ℕ) (key : CStr) {n : ℕ}
    (hput : ∀ creds e, field (creds.put e) = if e.1 = key then some (bitsOf e.2) else field creds)
    (hkey : ∀ e ∈ entries, e.1 = key → bitsOf e.2 = n)
    (hmem : field creds = some n ∨ ∃ e ∈ entries, e.1 = key) :
    field (entries.foldl .put creds) = some n := by
  induction entries generalizing creds with
  | nil => simpa using hmem
  | cons e entries ih =>
    apply ih fun e he => hkey e (List.mem_cons_of_mem _ he)
    rw [hput]
    by_cases he : e.1 = key
    · exact .inl (by rw [if_pos he, hkey e List.mem_cons_self he])
    · rw [if_neg he]
      refine hmem.imp_right ?_
      rintro ⟨e', he', hkey'⟩
      rcases List.mem_cons.mp he' with rfl | he'
      · exact absurd hkey' he
      · exact ⟨e', he', hkey'⟩

/-- A well-formed reply of the broker: entries of any types in any order, the user and the process
of the caller among them. -/
structure BrokerReply where
  entries : List (CStr × Val)
  nodup : (entries.map Prod.fst).Nodup
  uid : ℕ
  pid : ℕ
  uid_mem : (uidKey, .num .uint32 uid) ∈ entries
  pid_mem : (pidKey, .num .uint32 pid) ∈ entries
  start_typed : ∀ v, (startKey, v) ∈ entries → ∃ n, v = .num .uint64 n

namespace BrokerReply

variable (b : BrokerReply)

theorem eq_of_mem {k : CStr} {v w : Val} (hv : (k, v) ∈ b.entries) (hw : (k, w) ∈ b.entries) :
    v = w :=
  congrArg Prod.snd (List.inj_on_of_nodup_map b.nodup hv hw rfl)

theorem entryTyped : ∀ e ∈ b.entries, EntryTyped e := by
  rintro ⟨k, v⟩ he
  refine ⟨?_, ?_⟩
  · rintro (rfl | rfl)
    · exact ⟨b.uid, b.eq_of_mem he b.uid_mem⟩
    · exact ⟨b.pid, b.eq_of_mem he b.pid_mem⟩
  · rintro rfl
    exact b.start_typed v he

/-- The user and the process are read. -/
theorem readCredentials_eq :
    ∃ starttime, readCredentials (credentialsReply b.entries) =
      some ⟨some b.uid, some b.pid, starttime⟩ := by
  have hup : uidKey ≠ pidKey := by decide
  have huid : (b.entries.foldl .put ⟨none, none, none⟩ : Credentials).uid = some b.uid := by
    refine foldl_put Credentials.uid uidKey (fun creds e => ?_) ?_
      (.inr ⟨_, b.uid_mem, rfl⟩)
    · unfold Credentials.put
      split_ifs <;> rfl
    · rintro ⟨k, v⟩ he rfl
      rw [b.eq_of_mem he b.uid_mem]
      rfl
  have hpid : (b.entries.foldl .put ⟨none, none, none⟩ : Credentials).pid = some b.pid := by
    refine foldl_put Credentials.pid pidKey (fun creds e => ?_) ?_
      (.inr ⟨_, b.pid_mem, rfl⟩)
    · unfold Credentials.put
      split_ifs with h₁ h₂ <;> first | rfl | exact absurd (h₁.symm.trans ‹_›) hup
    · rintro ⟨k, v⟩ he rfl
      rw [b.eq_of_mem he b.pid_mem]
      rfl
  refine ⟨(b.entries.foldl .put ⟨none, none, none⟩ : Credentials).starttime, ?_⟩
  rw [readCredentials_reply b.entryTyped, ← huid, ← hpid]

end BrokerReply

/-! ## The reply of polkit -/

/-- A reply of polkit: one structure with two booleans and the details. -/
def authorizationReply (isAuthorized isChallenge : Bool) (details : List (CStr × CStr)) : Message :=
  [.struct [.num .boolean isAuthorized.toNat, .num .boolean isChallenge.toNat,
    .array (ascii "\x7bss\x7d") (details.map fun d =>
      .dictEntry (.text .string d.1) (.text .string d.2))]]

/-- The structure is not entered, so nothing can be read. -/
theorem readAuthorization_struct (isAuthorized isChallenge : Bool)
    (details : List (CStr × CStr)) :
    readAuthorization (authorizationReply isAuthorized isChallenge details) = .error := by
  have hread : readNum .boolean (start (authorizationReply isAuthorized isChallenge details)) =
      .error := by
    apply readNum_of_mismatch
    simp [Val.sig, Basic.code]
  rw [readAuthorization, hread]
  rfl

/-! ## A caller that is authorized -/

/-- A call of a user that is not root and that polkit authorizes. -/
structure GrantedCall extends BrokerReply where
  sender : CStr
  action : CStr
  notRoot : uid ≠ 0
  /-- The `stat` file of the caller. -/
  stat : Bytes
  stat_readable : (statStarttime stat).isSome = true
  details : List (CStr × CStr)

/-- The answers of the bus and of procfs to such a call. -/
def GrantedCall.answers (g : GrantedCall) (fs : Fs) : (c : BusCall) → BusAnswer c × Fs
  | .sys c => faultless fs c
  | .getConnectionCredentials _ => (some (credentialsReply g.entries), fs)
  | .readProc _ => (some g.stat, fs)
  | .checkAuthorization _ _ _ _ => (some (authorizationReply true false g.details), fs)
  | .calibLoad _ => (.error [], fs)
  | .configLoadDaemon _ =>
    (⟨CNum.ofRat (1 / 5), true, CNum.ofRat 60, CNum.ofRat 400⟩, fs)

/-- The caller gets through. -/
def GrantedCall.Granted (g : GrantedCall) : Prop :=
  ((polkitAuthorized g.sender g.action).exec g.answers fun _ => none).1 = 1

/-- The question to polkit cannot be decided. -/
theorem exec_checkAuthorization (g : GrantedCall) (fs : Fs) (pid starttime uid : ℕ)
    (action : CStr) :
    ((checkAuthorization pid starttime uid action).exec g.answers fs).1 = -1 := by
  simp [checkAuthorization, busCall, bind, Prog.bind, Prog.exec, GrantedCall.answers,
    readAuthorization_struct, pure]

/-- A caller that polkit authorizes is refused, whatever else the replies hold. -/
theorem not_granted (g : GrantedCall) : ¬ g.Granted := by
  obtain ⟨starttime, hcreds⟩ := g.readCredentials_eq
  have hresult :
      ((polkitAuthorized g.sender g.action).exec g.answers fun _ => none).1 = -1 := by
    rw [polkitAuthorized, Prog.exec_bind]
    have hreply : (busCall (.getConnectionCredentials g.sender)).exec g.answers (fun _ => none) =
        (some (credentialsReply g.entries), fun _ => none) := rfl
    simp only [hreply, hcreds, if_neg g.notRoot]
    cases starttime with
    | some starttime => exact exec_checkAuthorization g _ _ _ _ _
    | none =>
      -- the start time is read from procfs
      simp only [Prog.exec_bind]
      split
      · rfl
      · exact exec_checkAuthorization g _ _ _ _ _
  rw [GrantedCall.Granted, hresult]
  decide

/-- A user on an active session that switches a profile. -/
def sessionCall : GrantedCall where
  entries := [(uidKey, .num .uint32 1000), (pidKey, .num .uint32 4242)]
  nodup := by decide
  uid := 1000
  pid := 4242
  uid_mem := List.mem_cons_self
  pid_mem := List.mem_cons_of_mem _ List.mem_cons_self
  start_typed := by
    have hne : startKey ≠ uidKey ∧ startKey ≠ pidKey := by decide
    intro v hv
    rcases List.mem_cons.mp hv with h | h
    · exact absurd (congrArg Prod.fst h) hne.1
    · exact absurd (congrArg Prod.fst (List.mem_singleton.mp h)) hne.2
  sender := .lit ":1.77"
  action := .lit "org.lgmagic.profile-set"
  notRoot := by decide
  stat := ascii "4242 (lgmagic) S 1 2 3 4 5 6 7 8 9 10 11 12 13 14 15 16 17 18 5381 20"
  stat_readable := by decide +kernel
  details := [(.lit "polkit.retains_authorization_after_challenge", .lit "1")]

/-- The user is refused. -/
theorem sessionCall_not_granted : ¬ sessionCall.Granted := by
  unfold GrantedCall.Granted
  decide +kernel

/-- Root gets through with any well-formed reply of the broker. -/
theorem exec_polkitAuthorized_root (b : BrokerReply) (hroot : b.uid = 0) {fs : Fs}
    {answers : Fs → (c : BusCall) → BusAnswer c × Fs} {sender action : CStr}
    (hanswer : (answers fs (.getConnectionCredentials sender)).1 =
      some (credentialsReply b.entries)) :
    ((polkitAuthorized sender action).exec answers fs).1 = 1 := by
  obtain ⟨starttime, hcreds⟩ := b.readCredentials_eq
  rw [polkitAuthorized, Prog.exec_bind]
  have hreply : ((busCall (.getConnectionCredentials sender)).exec answers fs).1 =
      some (credentialsReply b.entries) := hanswer
  simp only [hreply, hcreds, if_pos hroot]
  rfl

end Daemon
