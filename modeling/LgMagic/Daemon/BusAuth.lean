import LgMagic.Daemon.Bus
import LgMagic.Daemon.PolkitReply
import LgMagic.Daemon.Rescan
import LgMagic.Lib.Transition

/-!
# Only authorized callers change something

The handlers of the bus, with whatever the broker, procfs and polkit answer. No file, no
configuration and no pipeline changes before the caller turned out to be root, or polkit said yes for
the action of the method; where one of the questions fails nothing changes at all.

* `GrantedBy`: the trace of calls holds an authorization of the caller for an action;
* `LookupFailed`: one of the questions failed;
* `wp_gated`: every handler behind the gate;
* `busSystem`: sequences of requests;
* `authorized_of_reachable`: every request of every sequence.
-/

namespace Daemon

open CString MessageCursor Posix Prog

/-! ## What is to hold -/

/-- A completed call of a handler. -/
abbrev BusEvent := Event BusCall BusAnswer

/-- A reply of the broker has an entry. -/
def HasEntry (reply : Message) (key : CStr) (v : Val) : Prop :=
  ∃ elem items rest, reply = .array elem items :: rest ∧ entryVal (key, v) ∈ items

/-- A reply of polkit says yes and asks for nothing more, in a structure or without one. -/
def Authorizes (reply : Message) : Prop :=
  ∃ n rest, n ≠ 0 ∧ (reply = .num .boolean n :: .num .boolean 0 :: rest ∨
    ∃ more, reply = .struct (.num .boolean n :: .num .boolean 0 :: rest) :: more)

/-- The caller is root, or polkit authorizes the process of the caller for the action. -/
def GrantedBy (sender action : CStr) (tr : List BusEvent) : Prop :=
  ∃ reply, ⟨.getConnectionCredentials sender, (some reply : Option Message)⟩ ∈ tr ∧
    (HasEntry reply uidKey (.num .uint32 0) ∨
      ∃ uid pid starttime answer, HasEntry reply uidKey (.num .uint32 uid) ∧
        HasEntry reply pidKey (.num .uint32 pid) ∧
        ⟨.checkAuthorization pid starttime uid action, (some answer : Option Message)⟩ ∈ tr ∧
        Authorizes answer)

/-- A question that failed: the call itself, or its answer cannot be read. -/
def LookupFailed : BusEvent → Prop
  | ⟨.getConnectionCredentials _, r⟩ => ∀ reply : Message, r = some reply →
    ∀ uid pid starttime, readCredentials reply ≠ some ⟨some uid, some pid, starttime⟩
  | ⟨.readProc _, r⟩ => ∀ contents : Bytes, r = some contents →
    contents = [] ∨ statStarttime contents = none
  | ⟨.checkAuthorization _ _ _ _, r⟩ => ∀ reply : Message, r = some reply →
    ∀ v c, readAuthorization reply ≠ .ok v c
  | _ => False

/-! ## The credentials that were read -/

/-- A field of the credentials is as before, or it was read from an entry. -/
def FieldFrom (field : Credentials → Option ℕ) (key : CStr) (creds creds' : Credentials)
    (items : List Val) : Prop :=
  ∀ n, field creds' = some n → field creds = some n ∨ entryVal (key, .num .uint32 n) ∈ items

theorem FieldFrom.refl {field : Credentials → Option ℕ} {key : CStr} {creds : Credentials}
    {items : List Val} : FieldFrom field key creds creds items := fun _ h => .inl h

theorem FieldFrom.trans {field : Credentials → Option ℕ} {key : CStr}
    {creds creds₁ creds₂ : Credentials} {item : Val} {items : List Val}
    (h₁ : FieldFrom field key creds creds₁ [item]) (h₂ : FieldFrom field key creds₁ creds₂ items) :
    FieldFrom field key creds creds₂ (item :: items) := by
  intro n hn
  rcases h₂ n hn with h | h
  · exact (h₁ n h).imp_right fun h => List.mem_cons.mpr (.inl (List.mem_singleton.mp h))
  · exact .inr (List.mem_cons_of_mem _ h)

/-- The user and the process come from the entries under their keys. -/
structure CredentialsFrom (creds creds' : Credentials) (items : List Val) : Prop where
  uid : FieldFrom (·.uid) uidKey creds creds' items
  pid : FieldFrom (·.pid) pidKey creds creds' items

theorem readCredential_eq_ok {key : CStr} {creds creds' : Credentials} {c c' : Cursor}
    (h : readCredential key creds c = .ok creds' c') :
    ∃ isArray v vs rest, c = ⟨isArray, .variant v :: vs⟩ :: rest ∧ c' = ⟨isArray, vs⟩ :: rest ∧
      CredentialsFrom creds creds' [entryVal (key, v)] := by
  -- a number of the expected type is taken and kept
  have hput {t : Basic} {f : ℕ → Credentials}
      (h : (readVariantNum t c).andThen (fun n c => Read.ok (f n) c) = .ok creds' c')
      (hf : ∀ n, CredentialsFrom creds (f n) [entryVal (key, .num t n)]) :
      ∃ isArray v vs rest, c = ⟨isArray, .variant v :: vs⟩ :: rest ∧ c' = ⟨isArray, vs⟩ :: rest ∧
        CredentialsFrom creds creds' [entryVal (key, v)] := by
    obtain ⟨n, c₁, hread, h⟩ := andThen_eq_ok h
    obtain ⟨isArray, vs, rest, rfl, rfl⟩ := readVariantNum_eq_ok hread
    injection h with hcreds hc
    exact ⟨isArray, _, vs, rest, rfl, hc.symm, hcreds ▸ hf n⟩
  unfold readCredential at h
  split_ifs at h with hu hp hs
  · refine hput h fun n => ⟨fun m hm => .inr ?_, .refl⟩
    obtain rfl : n = m := by simpa using hm
    rw [hu]
    exact List.mem_singleton_self _
  · refine hput h fun n => ⟨.refl, fun m hm => .inr ?_⟩
    obtain rfl : n = m := by simpa using hm
    rw [hp]
    exact List.mem_singleton_self _
  · exact hput h fun n => ⟨.refl, .refl⟩
  · -- any other entry is skipped
    obtain ⟨⟨⟩, c₁, hskip, h⟩ := andThen_eq_ok h
    obtain ⟨isArray, v, vs, rest, rfl, hv, rfl⟩ := next_eq_ok hskip
    injection h with hcreds hc
    cases v with
    | variant w => exact ⟨isArray, w, vs, rest, rfl, hc.symm, hcreds ▸ ⟨.refl, .refl⟩⟩
    | num t n => cases t <;> simp [Val.sig, Basic.code, ascii] at hv
    | text t s => cases t <;> simp [Val.sig, Basic.code, ascii] at hv
    | array elem items => simp [Val.sig, ascii] at hv
    | struct fields => simp [Val.sig, ascii] at hv
    | dictEntry k w => simp [Val.sig, ascii] at hv

theorem readEntry_eq_ok {creds creds' : Credentials} {k w : Val} {f : Frame} {c c' : Cursor}
    (h : readEntry creds (⟨false, [k, w]⟩ :: f :: c) = .ok creds' c') :
    c' = f :: c ∧ CredentialsFrom creds creds' [.dictEntry k w] := by
  obtain ⟨key, c₁, hkey, h⟩ := andThen_eq_ok h
  obtain ⟨creds₁, c₂, hcred, h⟩ := andThen_eq_ok h
  obtain ⟨⟨⟩, c₃, hexit, h⟩ := andThen_eq_ok h
  obtain ⟨_, v, _, _, hcur, hv, rfl⟩ := next_eq_ok hkey
  simp only [List.cons.injEq, Frame.mk.injEq] at hcur
  obtain ⟨⟨rfl, rfl, rfl⟩, rfl⟩ := hcur
  obtain ⟨_, v, _, _, hcur, rfl, hfrom⟩ := readCredential_eq_ok hcred
  simp only [List.cons.injEq, Frame.mk.injEq] at hcur
  obtain ⟨⟨rfl, rfl, rfl⟩, rfl⟩ := hcur
  injection hexit with _ hexit
  injection h with hcreds hc
  refine ⟨hc.symm, ?_⟩
  cases k with
  | text t s =>
    simp only [Val.asText] at hv
    split_ifs at hv with ht
    obtain ⟨rfl, rfl⟩ : s = key ∧ t = .string := ⟨by simpa using hv, ht⟩
    exact hcreds ▸ hfrom
  | _ => cases hv

/-- The loop only reads what the entries say. -/
theorem readEntries_eq_some {n : ℕ} {creds creds' : Credentials} {isArray : Bool}
    {items : List Val} {c : Cursor}
    (h : readEntries n creds (⟨isArray, items⟩ :: c) = some creds') :
    CredentialsFrom creds creds' items := by
  induction n generalizing creds items with
  | zero => cases h
  | succ n ih =>
    rw [readEntries] at h
    split at h
    · cases h
    · obtain rfl : creds = creds' := by simpa using h
      exact ⟨.refl, .refl⟩
    · next c₁ henter =>
      -- an entry was opened, which the array held
      obtain ⟨_, item, vs, rest, frame, hcur, hopen, rfl⟩ := enter_eq_ok henter
      simp only [List.cons.injEq, Frame.mk.injEq] at hcur
      obtain ⟨⟨rfl, rfl⟩, rfl⟩ := hcur
      cases item with
      | dictEntry k w =>
        simp only [opened] at hopen
        split_ifs at hopen
        injection hopen with hopen
        subst hopen
        split at h
        · next creds₁ c₂ hentry =>
          obtain ⟨rfl, hfrom⟩ := readEntry_eq_ok hentry
          have hrest := ih h
          exact ⟨hfrom.uid.trans hrest.uid, hfrom.pid.trans hrest.pid⟩
        · cases h
      | _ => simp [opened] at hopen

/-- The credentials of a reply are entries of it. -/
theorem hasEntry_of_readCredentials {reply : Message} {uid pid : ℕ} {starttime : Option ℕ}
    (h : readCredentials reply = some ⟨some uid, some pid, starttime⟩) :
    HasEntry reply uidKey (.num .uint32 uid) ∧ HasEntry reply pidKey (.num .uint32 pid) := by
  unfold readCredentials at h
  split at h
  · next c henter =>
    obtain ⟨_, v, vs, rest, frame, hcur, hopen, rfl⟩ := enter_eq_ok henter
    simp only [start, List.cons.injEq, Frame.mk.injEq] at hcur
    obtain ⟨⟨rfl, rfl⟩, rfl⟩ := hcur
    cases v with
    | array elem items =>
      simp only [opened] at hopen
      split_ifs at hopen
      injection hopen with hopen
      subst hopen
      have hfrom := readEntries_eq_some h
      -- a field that was not there before comes from an entry
      have hentry {field : Credentials → Option ℕ} {key : CStr} {n : ℕ}
          (hfield : FieldFrom field key ⟨none, none, none⟩ ⟨some uid, some pid, starttime⟩ items)
          (hnone : field ⟨none, none, none⟩ = none)
          (hn : field ⟨some uid, some pid, starttime⟩ = some n) :
          HasEntry (.array elem items :: vs) key (.num .uint32 n) := by
        refine ⟨elem, items, vs, rfl, (hfield n hn).resolve_left ?_⟩
        simp [hnone]
      exact ⟨hentry hfrom.uid rfl rfl, hentry hfrom.pid rfl rfl⟩
    | _ => simp [opened] at hopen
  · cases h

/-- What was read as an authorization is one. -/
theorem authorizes_of_readAuthorization {reply : Message} {isAuth : ℕ} {c : Cursor}
    (h : readAuthorization reply = .ok (isAuth, 0) c) (hauth : isAuth ≠ 0) : Authorizes reply := by
  obtain ⟨n, c₁, hread, h⟩ := andThen_eq_ok h
  obtain ⟨m, c₂, hread₂, h⟩ := andThen_eq_ok h
  injection h with hpair
  obtain ⟨rfl, rfl⟩ : n = isAuth ∧ m = 0 := by simpa using hpair
  obtain ⟨_, vs, rest, hcur, rfl⟩ := readNum_eq_ok hread
  obtain ⟨_, vs₂, rest₂, hcur₂, -⟩ := readNum_eq_ok hread₂
  simp only [start, List.cons.injEq, Frame.mk.injEq] at hcur hcur₂
  exact ⟨n, vs₂, hauth, .inl (by rw [hcur.1.2, hcur₂.1.2])⟩

/-! ## Behind the gate -/

variable {sender action : CStr} {tr tr' : List BusEvent} {dd : DaemonDevices} {fs fs₀ : Fs}

theorem GrantedBy.mono (h : GrantedBy sender action tr) (hsub : tr ⊆ tr') :
    GrantedBy sender action tr' := by
  obtain ⟨reply, hreply, hroot | ⟨uid, pid, starttime, answer, huid, hpid, hcheck, hauth⟩⟩ := h
  · exact ⟨reply, hsub hreply, .inl hroot⟩
  · exact ⟨reply, hsub hreply, .inr ⟨uid, pid, starttime, answer, huid, hpid, hsub hcheck, hauth⟩⟩

/-- The caller is authorized and no question failed. -/
def Cleared (sender action : CStr) (tr : List BusEvent) : Prop :=
  GrantedBy sender action tr ∧ ∀ e ∈ tr, ¬ LookupFailed e

/-- Whether a call asks for the authorization of somebody. -/
def isLookup : BusCall → Bool
  | .getConnectionCredentials _ | .readProc _ | .checkAuthorization _ _ _ _ => true
  | _ => false

theorem not_lookupFailed {c : BusCall} (h : isLookup c = false) (r : BusAnswer c) :
    ¬ LookupFailed ⟨c, r⟩ := by
  cases c with
  | sys _ | calibLoad _ | configLoadDaemon _ => exact id
  | getConnectionCredentials _ | readProc _ | checkAuthorization _ _ _ _ => cases h

/-- A program that asks for no authorization. -/
def Local {α : Type} : Bus α → Prop
  | .ret _ => True
  | .call c k => isLookup c = false ∧ ∀ r, Local (k r)

theorem local_pure {α : Type} (a : α) : Local (pure a : Bus α) := trivial

theorem local_bind {α β : Type} {p : Bus α} {f : α → Bus β} (hp : Local p) (hf : ∀ a, Local (f a)) :
    Local (p >>= f) := by
  induction p with
  | ret a => exact hf a
  | call c k ih => exact ⟨hp.1, fun r => ih r (hp.2 r)⟩

theorem local_busCall {c : BusCall} (h : isLookup c = false) : Local (busCall c) :=
  ⟨h, fun _ => trivial⟩

theorem local_liftSys {α : Type} (p : Sys α) : Local (liftSys p) := by
  induction p with
  | ret a => trivial
  | call c k ih => exact ⟨rfl, ih⟩

/-- Once the caller is authorized, it stays so while nobody is asked. -/
theorem wp_local {α : Type} {p : Bus α} (hp : Local p) (h : Cleared sender action tr) :
    p.wp busMachine (fun tr _ => Cleared sender action tr)
      (fun _ tr _ => Cleared sender action tr) tr fs := by
  induction p generalizing tr fs with
  | ret a => exact ⟨h, h⟩
  | call c k ih =>
    refine ⟨h, fun r fs' _ => ih r (hp.2 r) ⟨h.1.mono (List.subset_append_left _ _), ?_⟩⟩
    intro e he
    rcases List.mem_append.mp he with he | he
    · exact h.2 e he
    · rw [List.mem_singleton.mp he]
      exact not_lookupFailed hp.1 r

/-! ## The gate -/

/-- Nothing was done so far, or the caller is authorized. -/
def Guarded (sender action : CStr) (fs₀ : Fs) (tr : List BusEvent) (fs : Fs) : Prop :=
  fs = fs₀ ∨ GrantedBy sender action tr

/-- What the question for authorization comes to: the files stay, and a positive answer is one. -/
def Decided (sender action : CStr) (fs₀ : Fs) (r : ℤ) (tr : List BusEvent) (fs : Fs) : Prop :=
  fs = fs₀ ∧ (r = 1 → Cleared sender action tr) ∧ ((∃ e ∈ tr, LookupFailed e) → r = -1)

theorem wp_checkAuthorization {reply : Message} {pid starttime uid : ℕ}
    (hreply : ⟨.getConnectionCredentials sender, (some reply : Option Message)⟩ ∈ tr)
    (huid : HasEntry reply uidKey (.num .uint32 uid))
    (hpid : HasEntry reply pidKey (.num .uint32 pid)) (hgood : ∀ e ∈ tr, ¬ LookupFailed e) :
    (checkAuthorization pid starttime uid action).wp busMachine (Guarded sender action fs)
      (Decided sender action fs) tr fs := by
  refine ⟨.inl rfl, fun r fs' hstep => ?_⟩
  obtain rfl : fs' = fs := hstep
  have hnone {r : BusAnswer (.checkAuthorization pid starttime uid action)}
      (h : ¬ LookupFailed ⟨.checkAuthorization pid starttime uid action, r⟩) :
      ∀ e ∈ tr ++ [⟨.checkAuthorization pid starttime uid action, r⟩], ¬ LookupFailed e := by
    intro e he
    rcases List.mem_append.mp he with he | he
    · exact hgood e he
    · rwa [List.mem_singleton.mp he]
  -- no answer is a refusal; an answer counts when it is authorized and no challenge
  match r with
  | none => exact ⟨.inl rfl, rfl, by simp, fun _ => rfl⟩
  | some answer =>
    simp only [Prog.bind]
    split
    · next isAuth isChallenge c hread =>
      have hfine : ¬ LookupFailed ⟨.checkAuthorization pid starttime uid action,
          (some answer : Option Message)⟩ := fun h => h answer rfl _ _ hread
      refine ⟨.inl rfl, rfl, fun hone => ⟨?_, hnone hfine⟩, ?_⟩
      · have hauth : isAuth ≠ 0 ∧ isChallenge = 0 := by
          by_contra hnot
          simp [hnot] at hone
        refine ⟨reply, List.mem_append_left _ hreply, .inr ⟨uid, pid, starttime, answer, huid, hpid,
          List.mem_append_right _ (List.mem_singleton_self _), ?_⟩⟩
        exact authorizes_of_readAuthorization (hauth.2 ▸ hread) hauth.1
      · rintro ⟨e, he, hfail⟩
        exact absurd hfail (hnone hfine e he)
    · exact ⟨.inl rfl, rfl, by simp, fun _ => rfl⟩

theorem wp_polkitAuthorized (sender action : CStr) (fs : Fs) :
    (polkitAuthorized sender action).wp busMachine (Guarded sender action fs)
      (Decided sender action fs) [] fs := by
  refine ⟨.inl rfl, fun r fs' hstep => ?_⟩
  obtain rfl : fs' = fs := hstep
  cases (r : Option Message) with
  | none => exact ⟨.inl rfl, rfl, by simp, fun _ => rfl⟩
  | some reply =>
    simp only [Prog.bind, List.nil_append]
    split
    · next uid pid starttime hcreds =>
      obtain ⟨huid, hpid⟩ := hasEntry_of_readCredentials hcreds
      have hgood : ∀ e ∈ [(⟨.getConnectionCredentials sender, (some reply : Option Message)⟩ :
          BusEvent)], ¬ LookupFailed e := by
        intro e he
        rw [List.mem_singleton.mp he]
        exact fun h => h reply rfl _ _ _ hcreds
      have hreply := List.mem_singleton_self
        (⟨.getConnectionCredentials sender, (some reply : Option Message)⟩ : BusEvent)
      split_ifs with hroot
      · refine ⟨.inl rfl, rfl, fun _ => ⟨⟨reply, hreply, .inl (hroot ▸ huid)⟩, hgood⟩, ?_⟩
        rintro ⟨e, he, hfail⟩
        exact absurd hfail (hgood e he)
      · cases starttime with
        | some starttime => exact wp_checkAuthorization hreply huid hpid hgood
        | none =>
          -- the start time is read from procfs
          refine ⟨.inl rfl, fun r fs'' hstep => ?_⟩
          obtain rfl : fs'' = fs' := hstep
          rcases (r : Option Bytes) with - | - | ⟨c, cs⟩
          · exact ⟨.inl rfl, rfl, by simp, fun _ => rfl⟩
          · exact ⟨.inl rfl, rfl, by simp, fun _ => rfl⟩
          · simp only [Prog.bind]
            cases hstart : statStarttime (c :: cs) with
            | none => exact ⟨.inl rfl, rfl, by simp, fun _ => rfl⟩
            | some starttime =>
              refine wp_checkAuthorization (List.mem_append_left _ hreply) huid hpid fun e he => ?_
              rcases List.mem_append.mp he with he | he
              · exact hgood e he
              · rw [List.mem_singleton.mp he]
                intro hfail
                simpa [hstart] using hfail (c :: cs) rfl
    · exact ⟨.inl rfl, rfl, by simp, fun _ => rfl⟩

/-- The reply of a caller that is refused. -/
def NotAuthorized (reply : Reply) : Prop := ∃ msg, reply = .error lgErrorNotAuthorized msg

/-- What a handler may have done at its end. -/
def Settles (sender action : CStr) (dd : DaemonDevices) (fs₀ : Fs) (res : Reply × DaemonDevices)
    (tr : List BusEvent) (fs : Fs) : Prop :=
  (res.2 = dd ∧ fs = fs₀ ∨ GrantedBy sender action tr) ∧
    ((∃ e ∈ tr, LookupFailed e) → NotAuthorized res.1 ∧ res.2 = dd ∧ fs = fs₀)

/-- A handler behind the gate that asks for nothing itself. -/
theorem wp_gated {body : Handler} (hbody : Local body) :
    (gated dd sender action body).wp busMachine (Guarded sender action fs)
      (Settles sender action dd fs) [] fs := by
  refine wp_bind (wp_bind (wp_mono ?_ (wp_polkitAuthorized sender action fs)))
  rintro r tr fs' - ⟨rfl, hone, hfail⟩
  by_cases h1 : r = 1
  · have hclear := hone h1
    subst h1
    refine ⟨.inl rfl, wp_mono_inv (fun tr s h => .inr h.1) (wp_mono ?_ (wp_local hbody hclear))⟩
    rintro res tr s hclear -
    exact ⟨.inr hclear.1, fun ⟨e, he, hf⟩ => absurd hf (hclear.2 e he)⟩
  · rw [if_neg h1]
    split_ifs
    · exact ⟨.inl rfl, .inl rfl, .inl ⟨rfl, rfl⟩, fun _ => ⟨⟨_, rfl⟩, rfl, rfl⟩⟩
    · exact ⟨.inl rfl, .inl rfl, .inl ⟨rfl, rfl⟩, fun _ => ⟨⟨_, rfl⟩, rfl, rfl⟩⟩

/-- A handler that does nothing. -/
theorem wp_pure_reply (reply : Reply) :
    (pure (reply, dd) : Handler).wp busMachine (Guarded sender action fs)
      (Settles sender action dd fs) [] fs :=
  ⟨.inl rfl, .inl ⟨rfl, rfl⟩, fun ⟨_, he, _⟩ => absurd he List.not_mem_nil⟩

/-! ## The handlers -/

theorem local_configureRemote (r : DaemonRemote) (dc : Profiles.DeviceConfig Binary64.Double) :
    Local (configureRemote dd r dc) := by
  unfold configureRemote
  dsimp only
  split_ifs
  · exact local_bind (local_pure _) fun _ => local_pure _
  · exact local_bind (local_busCall rfl) fun _ => local_pure _

theorem local_remoteRollback (r : DaemonRemote) : Local (remoteRollback dd r) :=
  local_bind (local_liftSys _) fun _ => local_configureRemote _ _

theorem local_mutateRemote {strerror : Bytes} {i : ℕ} {r : DaemonRemote}
    {mutate : Profiles.DeviceConfig Binary64.Double → Profiles.DeviceConfig Binary64.Double} :
    Local (mutateRemote dd strerror i r mutate) := by
  refine local_bind (local_bind (local_liftSys _) fun saved => ?_) fun _ => local_pure _
  cases saved with
  | error e => exact local_bind (local_remoteRollback _) fun _ => local_pure _
  | ok u => exact local_bind (local_configureRemote _ _) fun _ => local_pure _

theorem local_onRemote {mac : CStr} {body : ℕ → DaemonRemote → Handler}
    (hbody : ∀ i r, Local (body i r)) : Local (onRemote dd mac body) := by
  unfold onRemote
  split_ifs
  · split
    · exact local_pure _
    · exact hbody _ _
  · exact local_pure _

theorem local_methodSetProfile_body {strerror : Bytes} {mac profile : CStr} {i : ℕ}
    {r : DaemonRemote} : Local (do
      match ← liftSys (daemonConfigSaveProfile dd.config mac profile) with
      | .error e => return (saveReply strerror (.error e), dd)
      | .ok () =>
        let (_, fresh) ← liftSys (loadRemote dd.config r.identity)
        let r ← remoteApply dd { r with dc := fresh }
        return (.ok, dd.setRemote i r) : Handler) := by
  refine local_bind (local_liftSys _) fun saved => ?_
  cases saved with
  | error e => exact local_pure _
  | ok u =>
    refine local_bind (local_liftSys _) fun loaded => ?_
    exact local_bind (local_configureRemote _ _) fun _ => local_pure _

theorem local_daemonDevicesReload : Local (daemonDevicesReload dd) := by
  have hremote (dd : DaemonDevices) (r : DaemonRemote) : Local (reloadRemote dd r) := by
    refine local_bind (local_liftSys _) fun loaded => ?_
    rcases loaded with ⟨e | u, dc⟩
    · exact local_pure _
    · exact local_configureRemote _ _
  have hremotes (dd : DaemonDevices) (rs : List DaemonRemote) : Local (reloadRemotes dd rs) := by
    induction rs with
    | nil => exact local_pure _
    | cons r rs ih => exact local_bind (hremote dd r) fun _ => local_bind ih fun _ => local_pure _
  exact local_bind (local_busCall rfl) fun _ => local_bind (hremotes _ _) fun _ => local_pure _

/-- Every method that changes something is behind the gate of its action. -/
theorem wp_handleRequest {strerror : Bytes} {req : Request} (haction : req.action = some action) :
    (handleRequest dd strerror sender req).wp busMachine (Guarded sender action fs)
      (Settles sender action dd fs) [] fs := by
  -- a request with an action goes through the gate first, but for the codes of `MapButton`
  cases req with
  | listDevices => cases haction
  | getStatus mac => cases haction
  | setProfile mac profile =>
    obtain rfl : profileSet = action := by simpa [Request.action] using haction
    refine wp_gated (local_onRemote fun i r => ?_)
    split_ifs
    · exact local_pure _
    · exact local_methodSetProfile_body
  | mapButton mac src dst =>
    obtain rfl : modifyInput = action := by simpa [Request.action] using haction
    simp only [handleRequest, methodMapButton]
    split_ifs
    · exact wp_pure_reply _
    · exact wp_gated (local_onRemote fun _ _ => local_mutateRemote)
  | resetButtons mac =>
    obtain rfl : modifyInput = action := by simpa [Request.action] using haction
    exact wp_gated (local_onRemote fun _ _ => local_mutateRemote)
  | setScrollSpeed mac v | setSensitivity mac v =>
    obtain rfl : profileSet = action := by simpa [Request.action] using haction
    refine wp_gated (local_onRemote fun i r => ?_)
    split_ifs
    · exact local_pure _
    · exact local_mutateRemote
  | setCalibPath mac path =>
    obtain rfl : modifyInput = action := by simpa [Request.action] using haction
    exact wp_gated (local_onRemote fun _ _ => local_mutateRemote)
  | reload =>
    obtain rfl : modifyInput = action := by simpa [Request.action] using haction
    exact wp_gated (local_bind local_daemonDevicesReload fun _ => local_pure _)

/-- A method that only reads makes no call. -/
theorem handleRequest_of_read {strerror : Bytes} {req : Request} (haction : req.action = none) :
    ∃ reply, handleRequest dd strerror sender req = .ret (reply, dd) := by
  cases req with
  | listDevices => exact ⟨_, rfl⟩
  | getStatus mac =>
    simp only [handleRequest, methodGetStatus, onRemote]
    split_ifs
    · split
      · exact ⟨_, rfl⟩
      · split_ifs
        · exact ⟨_, rfl⟩
        · exact ⟨_, rfl⟩
    · exact ⟨_, rfl⟩
  | _ => cases haction

/-! ## Sequences of requests -/

/-- A request that was handled: who sent it, the calls of the handler and the reply. -/
structure BusStep where
  sender : CStr
  strerror : Bytes
  request : Request
  trace : List BusEvent
  reply : Reply

/-- The daemon that handles requests, from some state on. -/
def busSystem (start : DaemonDevices × Fs) : TransitionSystem (DaemonDevices × Fs) BusStep where
  init s := s = start
  step s l s' := Run busMachine (handleRequest s.1 l.strerror l.sender l.request) s.2 l.trace
    (some (l.reply, s'.1)) s'.2

/-- A step is authorized: where it changes something its caller is, where a question fails it is
refused and changes nothing, and where it only reads it changes nothing. -/
structure Authorized (s : DaemonDevices × Fs) (l : BusStep) (s' : DaemonDevices × Fs) : Prop where
  granted : s' ≠ s → ∃ action, l.request.action = some action ∧ GrantedBy l.sender action l.trace
  refused : (∃ e ∈ l.trace, LookupFailed e) → NotAuthorized l.reply ∧ s' = s
  read : l.request.action = none → s' = s
  /-- While the request is handled the files stay until the caller is authorized. -/
  meanwhile : ∀ tr fs, Run busMachine (handleRequest s.1 l.strerror l.sender l.request) s.2 tr none fs →
    (∀ action, l.request.action = some action → ¬ GrantedBy l.sender action tr) → Crash s.2 fs

/-- In every sequence of requests every step is authorized. -/
theorem authorized_of_reachable {start s s' : DaemonDevices × Fs} {l : BusStep}
    (_ : (busSystem start).Reachable s) (hstep : (busSystem start).step s l s') :
    Authorized s l s' := by
  obtain ⟨dd, fs⟩ := s
  obtain ⟨dd', fs'⟩ := s'
  cases haction : l.request.action with
  | none =>
    -- a request that only reads makes no call at all
    obtain ⟨reply, hret⟩ := @handleRequest_of_read l.sender dd l.strerror l.request haction
    have hsame : dd' = dd ∧ fs' = fs ∧ l.trace = [] := by
      have hrun : Run busMachine (.ret (reply, dd)) fs l.trace (some (l.reply, dd')) fs' :=
        hret ▸ hstep
      generalize l.trace = tr at hrun
      cases hrun
      exact ⟨rfl, rfl, rfl⟩
    obtain ⟨rfl, rfl, htrace⟩ := hsame
    refine ⟨fun h => absurd rfl h, fun ⟨e, he, _⟩ => ?_, fun _ => rfl, fun tr fs hrun _ => ?_⟩
    · rw [htrace] at he
      cases he
    · rw [hret] at hrun
      cases hrun with
      | crash h => exact h
  | some action =>
    -- the rule of the handler, for the runs that end and for those that a crash cuts off
    have hwp := @wp_handleRequest l.sender action dd fs l.strerror l.request haction
    obtain ⟨-, hgranted, hrefused⟩ := Run.of_wp hstep hwp
    rw [List.nil_append] at hgranted hrefused
    refine ⟨fun hne => ⟨action, haction, ?_⟩, fun hfail => ?_, fun hnone => ?_,
      fun tr fs₁ hrun hnot => ?_⟩
    · refine hgranted.resolve_left fun hsame => hne ?_
      exact Prod.ext hsame.1 hsame.2
    · obtain ⟨hreply, hdd, hfs⟩ := hrefused hfail
      exact ⟨hreply, Prod.ext hdd hfs⟩
    · cases haction.symm.trans hnone
    · obtain ⟨mid, hguard, hcrash⟩ := Run.of_wp hrun hwp
      rw [List.nil_append] at hguard
      rcases hguard with rfl | hgranted
      · exact hcrash
      · exact absurd hgranted (hnot action haction)

/-- Root and no files; every other question fails. -/
def rootAnswers (fs : Fs) : (c : BusCall) → BusAnswer c × Fs
  | .sys c => faultless fs c
  | .getConnectionCredentials _ =>
    (some (credentialsReply [(uidKey, .num .uint32 0), (pidKey, .num .uint32 1)]), fs)
  | .readProc _ => (none, fs)
  | .checkAuthorization _ _ _ _ => (none, fs)
  | .calibLoad _ => (.error [], fs)
  | .configLoadDaemon _ => (⟨CNum.ofRat (1 / 5), true, CNum.ofRat 60, CNum.ofRat 400⟩, fs)

theorem step_rootAnswers (fs : Fs) (c : BusCall) :
    busMachine.step fs c (rootAnswers fs c).1 (rootAnswers fs c).2 := by
  cases c with
  | sys c => exact step_faultless fs c
  | _ => rfl

/-- The daemon with one remote, and no files. -/
def remoteDaemon : DaemonDevices × Fs := ((startDev.rescan remoteInputs).dd, fun _ => none)

/-- Root sets the calibration of the remote. -/
theorem authorized_rootSetCalibPath : ∃ l s', (busSystem remoteDaemon).step remoteDaemon l s' ∧
    l.request = .setCalibPath unknownIdentity (.lit "/root/calib.json") ∧
    Authorized remoteDaemon l s' := by
  obtain ⟨tr, hrun⟩ := run_exec step_rootAnswers (handleRequest remoteDaemon.1 [] (.lit ":1.1")
    (.setCalibPath unknownIdentity (.lit "/root/calib.json"))) remoteDaemon.2
  exact ⟨⟨.lit ":1.1", [], _, tr, _⟩, (_, _), hrun, rfl, authorized_of_reachable (.init rfl) hrun⟩

end Daemon
