import LgMagic.Daemon.Devices
import LgMagic.Lib.MessageCursor
import LgMagic.Lib.Posix

/-!
# Authorization

Who may change something over the bus: the daemon asks the broker for the credentials of the caller
and, unless that is root, polkit for the action of the method. Part of `daemon_bus.c`.

* `BusCall`, `Bus`: what a handler asks the system and the bus for;
* `busMachine`: the answers, which are anything for the calls over the bus;
* `readPidStarttime`, `readCredentials`, `polkitAuthorized`, `gate`.
-/

namespace Daemon

open Binary64 CString MessageCursor Pointer Posix Printf

/-! ## Calls -/

/-- The body of a message. -/
abbrev Message := List Val

/-- What a handler calls: the file system, the broker, polkit, procfs, and the readers of the
calibration and of the global configuration. -/
inductive BusCall
  | sys (c : SysCall)
  /-- `GetConnectionCredentials` of the broker. -/
  | getConnectionCredentials (sender : CStr)
  /-- The first 1023 bytes of a file in `/proc`. -/
  | readProc (path : CStr)
  /-- `CheckAuthorization` of polkit for a `unix-process`. -/
  | checkAuthorization (pid starttime uid : ℕ) (action : CStr)
  | calibLoad (path : CStr)
  | configLoadDaemon (root : CStr)

/-- The answers. A call over the bus that fails is answered by `none`. -/
def BusAnswer : BusCall → Type
  | .sys c => Answer c
  | .getConnectionCredentials _ | .checkAuthorization _ _ _ _ => Option Message
  | .readProc _ => Option Bytes
  | .calibLoad _ => Except Bytes (Calib Double)
  | .configLoadDaemon _ => GlobalConfig Double

/-- Programs of such calls. -/
abbrev Bus := Prog BusCall BusAnswer

/-- A program that only calls the file system. -/
def liftSys {α : Type} : Sys α → Bus α
  | .ret a => .ret a
  | .call c k => .call (.sys c) fun r => liftSys (k r)

/-- The files behave as they do; every other call may be answered by anything. -/
def busMachine : Host BusCall BusAnswer Fs where
  step fs c r fs' :=
    match c, r with
    | .sys c, r => Step fs c r fs'
    | .getConnectionCredentials _, _ | .readProc _, _ | .checkAuthorization _ _ _ _, _
    | .calibLoad _, _ | .configLoadDaemon _, _ => fs' = fs
  crash := Crash

/-! ## The start time of a process -/

/-- What `strtoull` reads in base ten: the number and what follows it; `none` without digits. -/
def strtoull (s : Bytes) : Option (ℕ × Bytes) :=
  let s := s.dropWhile isSpace
  let negative := s.head? = some 0x2D
  let s := if s.head? = some 0x2D ∨ s.head? = some 0x2B then s.tail else s
  let digits := s.takeWhile isDigit
  if digits = [] then none
  else
    let n : ℕ := digits.foldl (fun n c => 10 * n + (c.toNat - 0x30)) 0
    let value := if 2 ^ 64 ≤ n then 2 ^ 64 - 1 else if negative then (2 ^ 64 - n) % 2 ^ 64 else n
    some (value, s.dropWhile isDigit)

/-- The loop over the numeric fields: the last one that is read. -/
def strtoullFields : ℕ → ℕ → Bytes → Option ℕ
  | 0, last, _ => some last
  | n + 1, _, p =>
    match strtoull p with
    | none => none
    | some (value, p) => strtoullFields n value p

/-- Field 22 of the contents of a `stat` file: after the last parenthesis and the state come the
numeric fields from the fourth on. -/
def statStarttime (contents : Bytes) : Option ℕ :=
  let buf := (CStr.ofBuffer contents).val
  if 0x29 ∈ buf then
    let p := buf.reverse.takeWhile (· != 0x29) |>.reverse
    if p.head? = some 0x20 then strtoullFields 19 0 (p.drop 3) else none
  else none

/-- The `stat` file of a process, whose number is read as a signed one. -/
def statPath (pid : ℕ) : CStr :=
  .lit "/proc/" ++ .ofBuffer (printInt (BitVec.ofNat 32 pid).toInt) ++ .lit "/stat"

/-- A call that is answered as it is. -/
def busCall (c : BusCall) : Bus (BusAnswer c) := .call c .ret

/-- `read_pid_starttime` -/
def readPidStarttime (pid : ℕ) : Bus (Option ℕ) := do
  match (← busCall (.readProc (statPath pid)) : Option Bytes) with
  | none => return none
  | some [] => return none
  | some contents => return statStarttime contents

/-! ## The credentials of a caller -/

/-- What the reply of the broker says. -/
structure Credentials where
  uid : Option ℕ
  pid : Option ℕ
  starttime : Option ℕ
  deriving DecidableEq

/-- The value of one entry: the numbers that matter are read, every other value is skipped. -/
def readCredential (key : CStr) (creds : Credentials) (c : Cursor) : Read Credentials :=
  if key = .lit "UnixUserID" then
    (readVariantNum .uint32 c).andThen fun n c => .ok { creds with uid := some n } c
  else if key = .lit "ProcessID" then
    (readVariantNum .uint32 c).andThen fun n c => .ok { creds with pid := some n } c
  else if key = .lit "ProcessStartTime" then
    (readVariantNum .uint64 c).andThen fun n c => .ok { creds with starttime := some n } c
  else
    (skip (ascii "v") c).andThen fun _ c => .ok creds c

/-- One entry of the dictionary. -/
def readEntry (creds : Credentials) (c : Cursor) : Read Credentials :=
  (readText .string c).andThen fun key c =>
    (readCredential key creds c).andThen fun creds c =>
      (exit c).andThen fun _ c => .ok creds c

/-- The loop over the entries; `none` where it breaks off. -/
def readEntries : ℕ → Credentials → Cursor → Option Credentials
  | 0, _, _ => none
  | n + 1, creds, c =>
    match enter .dictEntry (ascii "sv") c with
    | .error => none
    | .atEnd => some creds
    | .ok () c =>
      match readEntry creds c with
      | .ok creds c => readEntries n creds c
      | _ => none

/-- The entries that the innermost container holds. -/
def remaining : Cursor → ℕ
  | [] => 0
  | frame :: _ => frame.rest.length

/-- The reply of `GetConnectionCredentials`; `none` where it cannot be read. -/
def readCredentials (reply : Message) : Option Credentials :=
  match enter .array (ascii "\x7bsv\x7d") (start reply) with
  | .ok () c => readEntries (remaining c + 1) ⟨none, none, none⟩ c
  | _ => none

/-! ## Polkit -/

/-- The reply of `CheckAuthorization` is read as two booleans. -/
def readAuthorization (reply : Message) : Read (ℕ × ℕ) :=
  (readNum .boolean (start reply)).andThen fun isAuth c =>
    (readNum .boolean c).andThen fun isChallenge c => .ok (isAuth, isChallenge) c

/-- The question to polkit, for a caller that is not root. -/
def checkAuthorization (pid starttime uid : ℕ) (action : CStr) : Bus ℤ := do
  match (← busCall (.checkAuthorization pid starttime uid action) : Option Message) with
  | none => return -1
  | some reply =>
    match readAuthorization reply with
    | .ok (isAuth, isChallenge) _ => return if isAuth ≠ 0 ∧ isChallenge = 0 then 1 else 0
    | _ => return -1

/-- `polkit_authorized`: `1` when the caller is authorized, `0` when polkit denies it, `-1` when
that cannot be decided. -/
def polkitAuthorized (sender action : CStr) : Bus ℤ := do
  match (← busCall (.getConnectionCredentials sender) : Option Message) with
  | none => return -1
  | some reply =>
    match readCredentials reply with
    | some ⟨some uid, some pid, starttime⟩ =>
      -- root is not asked for; everybody else needs the start time
      if uid = 0 then return 1
      else
        match starttime with
        | some starttime => checkAuthorization pid starttime uid action
        | none =>
          match ← readPidStarttime pid with
          | none => return -1
          | some starttime => checkAuthorization pid starttime uid action
    | _ => return -1

/-- `LG_ERROR_NOT_AUTHORIZED` -/
def lgErrorNotAuthorized : CStr := .lit "org.lgmagic.Error.NotAuthorized"

/-- `LG_ERROR_NOT_FOUND` -/
def lgErrorNotFound : CStr := .lit "org.lgmagic.Error.NotFound"

/-- `LG_ERROR_INVALID_ARGUMENTS` -/
def lgErrorInvalidArguments : CStr := .lit "org.lgmagic.Error.InvalidArguments"

/-- `LG_ERROR_FAILED` -/
def lgErrorFailed : CStr := .lit "org.lgmagic.Error.Failed"

/-- What a method is answered with. -/
inductive Reply
  /-- The empty success reply. -/
  | ok
  | text (s : CStr)
  | list (l : List CStr)
  | error (name : CStr) (msg : CStr)
  /-- The handler fails with a number of an error. -/
  | errno
  deriving DecidableEq

/-- `fail`: the message goes through a buffer. -/
def fail (name : CStr) (msg : Bytes) : Reply := .error name (.snprintf 256 (.ofBuffer msg))

/-- `gate`: the reply that refuses the call, if it is refused. -/
def gate (sender action : CStr) : Bus (Option Reply) := do
  let r ← polkitAuthorized sender action
  if r = 1 then return none
  else if r = 0 then
    return some (fail lgErrorNotAuthorized (ascii "permission denied by polkit"))
  else
    return some (fail lgErrorNotAuthorized (ascii "polkitd not running (refusing to authorize)"))

end Daemon
