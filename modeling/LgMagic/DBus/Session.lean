import LgMagic.DBus.Address
import LgMagic.DBus.Matching

/-!
# Sessions

What the commands do on the bus: connect, authenticate with the user's number, say hello, and then
call one method after another, up to the first call that fails. The bytes behind the line of the
authentication are the first message, however the socket cuts the stream. Part of `dbus_client.c`.

* `authRequest`, `dbusConnect`, `sayHello`: the connection;
* `session`: a connection and the calls on it, with everything that is written;
* `greeting`: the opening of a connection as the bus reads it;
* `session_of_script`: every session in which the bus answers is served in full;
* `session_congr`: how the stream is cut does not matter.
-/

namespace DBus.Session

open ChunkedInput CString Printf WireFormat

/-! ## The authentication -/

/-- `sizeof dec` -/
def decSize : ℕ := 24

/-- `sizeof raw` -/
def rawSize : ℕ := 64

/-- `sizeof line` -/
def lineSize : ℕ := 512

/-- The two digits of a byte. -/
def hexPair (c : UInt8) : Bytes :=
  let hex := ascii "0123456789abcdef"
  [hex.getD (c.toNat / 16) 0, hex.getD (c.toNat % 16) 0]

/-- The end of a line on the wire. -/
def crlf : Bytes := [0x0D, newline]

/-- The first line that is written, behind its NUL: the user's number in decimal, in hexadecimal. -/
def authRequest (uid : UInt32) : Option Bytes :=
  let dec := printInt uid.toNat
  let words := ascii "AUTH EXTERNAL "
  if decSize ≤ dec.length ∨ rawSize < 1 + words.length + 2 * dec.length + 2 then none
  else some (0 :: (words ++ dec.flatMap hexPair ++ crlf))

/-- What ends the authentication. -/
def beginLine : Bytes := ascii "BEGIN" ++ crlf

/-! ## Connecting -/

/-- What the system does while a client connects; an error is there where a call fails. -/
structure System where
  /-- `DBUS_SYSTEM_BUS_ADDRESS` -/
  env : Option CStr
  socketError : Option Bytes
  connectError : Option Bytes
  uid : UInt32
  authError : Option Bytes
  beginError : Option Bytes
  /-- What the socket delivers. -/
  events : List (ReadEvent ReadError UInt8)
  /-- The system during the call of `Hello`. -/
  hello : World

/-- The errors of `dbus_connect`. -/
inductive ConnectError
  | unsupported (address : CStr)
  | noSocket (strerror : Bytes)
  | cannotConnect (path : Bytes) (strerror : Bytes)
  | cannotTalk (strerror : Bytes)
  | read (e : ReadError)
  | rejected
  | unexpected (line : CStr)
  | helloRejected (name msg : CStr)
  | hello (e : CallError)
  deriving DecidableEq

/-- The message of an error. -/
def ConnectError.text : ConnectError → Bytes
  | .unsupported address =>
    ascii "unsupported bus address '" ++ address.val ++ ascii "' (only unix sockets)"
  | .noSocket strerror => ascii "cannot create a socket: " ++ strerror
  | .cannotConnect path strerror =>
    ascii "cannot connect to the bus at " ++ path ++ ascii ": " ++ strerror
  | .cannotTalk strerror => ascii "cannot talk to the bus: " ++ strerror
  | .read e => e.text
  | .rejected => ascii "the bus rejected authentication (EXTERNAL)"
  | .unexpected line => ascii "unexpected bus authentication response: " ++ line.val
  | .helloRejected name msg =>
    ascii "the bus rejected Hello: " ++ name.val ++ ascii " (" ++ msg.val ++ ascii ")"
  | .hello e => e.text

/-- What `dbus_connect` comes to. -/
inductive Connected
  | ok
  | failed (e : ConnectError)
  | overrun
  | hangs
  | crashes
  deriving DecidableEq

/-- A call that goes as far as writing its message. -/
def request (w : World) (c : Client) (call : Call) : List Bytes :=
  if ¬ c.connected ∨ ¬ supportedSig call.sigIn ∨ (call.sigIn ≠ .empty ∧ call.args = none) ∨
      w.writeError.isSome then []
  else
    match buildCall w.memory (c.serial + 1) call.dest call.path call.iface call.method call.sigIn
        (call.args.getD []) with
    | .message msg => [msg]
    | _ => []

/-- The call of `Hello`. -/
def helloCall : Call where
  dest := .lit "org.freedesktop.DBus"
  path := .lit "/org/freedesktop/DBus"
  iface := .lit "org.freedesktop.DBus"
  method := .lit "Hello"
  sigIn := .empty
  args := none

/-- The descriptor is closed. -/
def close (c : Client) : Client := { c with connected := false }

/-- `say_hello`, at the end of `dbus_connect`. -/
def sayHello (w : World) (c : Client) : Connected × Client :=
  match busCall w c helloCall with
  | (.reply _, c) => (.ok, c)
  | (.remoteError name msg, c) => (.failed (.helloRejected name msg), close c)
  | (.failed e, c) => (.failed (.hello e), close c)
  | (.hangs, c) => (.hangs, c)
  | (.crashes, c) => (.crashes, c)

/-- The bytes of the name that is connected to. -/
def socketName (address : CStr) : Bytes :=
  match pickUnixSocket address with
  | some p => (address.val.drop p.sock).take p.socklen
  | none => []

/-- `dbus_connect` with a socket that is connected; what is written comes last. -/
def authenticate (sys : System) : Connected × Client × List Bytes :=
  let c : Client := ⟨true, 0, ⟨[], sys.events⟩, none, none⟩
  match authRequest sys.uid, sys.authError with
  | none, e => (.failed (.cannotTalk (e.getD [])), close c, [])
  | some _, some e => (.failed (.cannotTalk e), close c, [])
  | some auth, none =>
    match readLine lineSize c.conn with
    | (.error e, conn) => (.failed (.read e), close { c with conn := conn }, [auth])
    | (.ok line, conn) =>
      let c := { c with conn := conn }
      let line := CStr.ofBuffer line
      if ¬ (ascii "OK ").isPrefixOf line.val then
        let e := if (ascii "REJECTED").isPrefixOf line.val then .rejected else .unexpected line
        (.failed e, close c, [auth])
      else
        match sys.beginError with
        | some e => (.failed (.cannotTalk e), close c, [auth])
        | none =>
          let (r, c') := sayHello sys.hello c
          (r, c', [auth, beginLine] ++ request sys.hello c helloCall)

/-- A client without a connection. -/
def disconnected : Client := ⟨false, 0, ⟨[], []⟩, none, none⟩

/-- `dbus_connect` -/
def dbusConnect (sys : System) (address : Option CStr) : Connected × Client × List Bytes :=
  let name := busAddress address sys.env
  match DBus.dbusConnect address sys.env sys.socketError.isNone with
  | .unsupported => (.failed (.unsupported name), disconnected, [])
  | .noSocket => (.failed (.noSocket (sys.socketError.getD [])), disconnected, [])
  | .overrun => (.overrun, disconnected, [])
  | .connect _ _ =>
    match sys.connectError with
    | some e => (.failed (.cannotConnect (socketName name) e), disconnected, [])
    | none => authenticate sys

/-! ## Calls -/

/-- The call came to a reply, good or bad, so the next one may follow. -/
def answered : Outcome → Bool
  | .reply _ | .remoteError _ _ => true
  | .failed _ | .hangs | .crashes => false

/-- Calls one after another, up to the first without a reply: their outcomes, the client after them
and the messages that were written. -/
def callAll : Client → List (World × Call) → List Outcome × Client × List Bytes
  | c, [] => ([], c, [])
  | c, (w, call) :: cs =>
    match busCall w c call with
    | (o, c') =>
      if answered o then
        let (os, c'', written) := callAll c' cs
        (o :: os, c'', request w c call ++ written)
      else ([o], c', request w c call)

/-- What becomes of a session. -/
structure Result where
  connected : Connected
  outcomes : List Outcome
  client : Client
  written : List Bytes

/-- Connect, and call the methods where that succeeds. -/
def session (sys : System) (address : Option CStr) (cs : List (World × Call)) : Result :=
  match dbusConnect sys address with
  | (.ok, c, written) =>
    let (os, c', written') := callAll c cs
    ⟨.ok, os, c', written ++ written'⟩
  | (r, c, written) => ⟨r, [], c, written⟩

/-! ## The opening as the bus reads it -/

/-- What follows a prefix. -/
def after (p s : Bytes) : Option Bytes := if p.isPrefixOf s then some (s.drop p.length) else none

/-- The value of a hexadecimal digit. -/
def unhexDigit (c : UInt8) : Option ℕ :=
  if isDigit c then some (digitVal c)
  else if 0x61 ≤ c ∧ c ≤ 0x66 then some (c.toNat - 87)
  else none

/-- The bytes that digits stand for, two for each byte. -/
def unhex : Bytes → Option Bytes
  | [] => some []
  | [_] => none
  | a :: b :: cs => do
    let hi ← unhexDigit a
    let lo ← unhexDigit b
    return UInt8.ofNat (16 * hi + lo) :: (← unhex cs)

/-- The number that decimal digits stand for. -/
def identity (s : Bytes) : Option ℕ :=
  if s ≠ [] ∧ s.all isDigit then some (natOfDigits (s.map digitVal)) else none

/-- The opening of a connection: the user who authenticates, and the messages that follow. -/
def greeting (s : Bytes) : Option (ℕ × Bytes) := do
  let s ← after (0 :: ascii "AUTH EXTERNAL ") s
  let line := s.takeWhile (· ≠ 0x0D)
  let uid ← identity (← unhex line)
  let messages ← after (crlf ++ beginLine) (s.drop line.length)
  return (uid, messages)

theorem after_append (p s : Bytes) : after p (p ++ s) = some s := by
  have hprefix : p.isPrefixOf (p ++ s) = true :=
    List.isPrefixOf_iff_prefix.mpr (List.prefix_append p s)
  rw [after, if_pos hprefix, List.drop_left]

/-- Each digit is read as its place among the digits. -/
theorem unhexDigit_hex {n : ℕ} (h : n < 16) :
    unhexDigit ((ascii "0123456789abcdef").getD n 0) = some n := by
  interval_cases n <;> rfl

theorem unhex_hexPair (c : UInt8) (s : Bytes) :
    unhex (hexPair c ++ s) = (unhex s).map (c :: ·) := by
  have hc := c.toNat_lt
  have hhi := unhexDigit_hex (n := c.toNat / 16) (by omega)
  have hlo := unhexDigit_hex (n := c.toNat % 16) (by omega)
  -- the high digit comes first
  have hbyte : UInt8.ofNat (16 * (c.toNat / 16) + c.toNat % 16) = c := by
    rw [Nat.div_add_mod, UInt8.ofNat_toNat]
  rw [hexPair, List.cons_append, List.cons_append, List.nil_append, unhex, hhi, hlo]
  simp only [Option.bind_eq_bind, Option.bind_some, hbyte]
  cases unhex s <;> rfl

/-- The bytes are read back from their digits, by induction on them. -/
theorem unhex_flatMap (s : Bytes) : unhex (s.flatMap hexPair) = some s := by
  induction s with
  | nil => rfl
  | cons c s ih => rw [List.flatMap_cons, unhex_hexPair, ih, Option.map_some]

/-- No digit ends the line. -/
theorem mem_hexPair {c d : UInt8} (h : d ∈ hexPair c) : d ≠ 0x0D := by
  have hdigits : ∀ n < 16, (ascii "0123456789abcdef").getD n 0 ≠ 0x0D := by decide
  have hc := c.toNat_lt
  rw [hexPair, List.mem_cons, List.mem_singleton] at h
  rcases h with rfl | rfl
  · exact hdigits _ (by omega)
  · exact hdigits _ (by omega)

theorem printInt_nat (n : ℕ) : printInt (n : ℤ) = (decDigits n).map digitByte := by
  simp [printInt]

theorem identity_printInt (n : ℕ) : identity (printInt (n : ℤ)) = some n := by
  have hdigits : ∀ d ∈ decDigits n, d < 10 := fun d hd => decDigits_lt hd
  have hall : ((decDigits n).map digitByte).all isDigit = true := by
    simpa using fun d hd => isDigit_digitByte (hdigits d hd)
  have hne : (decDigits n).map digitByte ≠ [] := by simpa using decDigits_ne_nil n
  rw [printInt_nat, identity, if_pos ⟨hne, hall⟩, map_digitVal_digitByte hdigits,
    natOfDigits_decDigits]

/-- The number of a user has at most ten digits, so the line fits its buffer. -/
theorem exists_authRequest (uid : UInt32) : ∃ auth, authRequest uid = some auth ∧
    ∀ s, greeting (auth ++ beginLine ++ s) = some (uid.toNat, s) := by
  have hlen : (printInt uid.toNat).length ≤ 10 := by
    rw [printInt_nat, List.length_map]
    exact decDigits_length_le (lt_of_lt_of_le uid.toNat_lt (by decide))
  have hwords : (ascii "AUTH EXTERNAL ").length = 14 := rfl
  -- neither check of `dbus_connect` fails
  have hfits : ¬ (decSize ≤ (printInt uid.toNat).length ∨
      rawSize < 1 + (ascii "AUTH EXTERNAL ").length + 2 * (printInt uid.toNat).length + 2) := by
    simp only [decSize, rawSize, hwords]
    omega
  refine ⟨_, if_neg hfits, fun s => ?_⟩
  set digits := (printInt uid.toNat).flatMap hexPair with hdigits
  have hcr : ∀ d ∈ digits, d ≠ 0x0D := by
    intro d hd
    obtain ⟨c, -, hd⟩ := List.mem_flatMap.mp hd
    exact mem_hexPair hd
  -- the digits go up to the end of their line
  have hline (t : Bytes) : (digits ++ (crlf ++ t)).takeWhile (· ≠ 0x0D) = digits := by
    rw [List.takeWhile_append_of_pos (by simpa using hcr)]
    simp [crlf]
  have hshape : 0 :: (ascii "AUTH EXTERNAL " ++ digits ++ crlf) ++ beginLine ++ s =
      (0 :: ascii "AUTH EXTERNAL ") ++ (digits ++ (crlf ++ (beginLine ++ s))) := by simp
  have hrest : crlf ++ (beginLine ++ s) = (crlf ++ beginLine) ++ s := (List.append_assoc ..).symm
  rw [hshape, greeting, after_append]
  simp only [Option.bind_eq_bind, Option.bind_some]
  rw [hline, hdigits, unhex_flatMap, ← hdigits, List.drop_left, hrest, after_append]
  simp only [Option.bind_some, identity_printInt]
  rfl

/-! ## A line -/

/-- A line that fits the buffer is read, and nothing of what follows it. -/
theorem readLine_of_line {c : Conn} {line rest : Bytes} (hline : newline ∉ line)
    (hlen : line.length + 1 < lineSize) (hpending : c.pending = line ++ newline :: rest) :
    ∃ c', readLine lineSize c = (.ok (stripCr line), c') ∧ c'.pending = rest ∧
      c'.fault .timedOut = c.fault .timedOut := by
  -- the line ends at the first newline
  have htake : (line ++ newline :: rest).takeWhile (· ≠ newline) = line := by
    rw [List.takeWhile_append_of_pos fun c hc => by simpa using ne_of_mem_of_not_mem hc hline]
    simp
  have hlimit : lineLimit lineSize = 511 := rfl
  -- the buffer keeps a byte for the terminator
  have hfits : ¬ lineLimit lineSize ≤ ([] : Bytes).length + line.length := by
    rw [hlimit, List.length_nil]
    rw [lineSize] at hlen
    omega
  have hstep : readLineStep lineSize [] (c.buf ++ arriving c.events) = .done (stripCr line) rest := by
    rw [show c.buf ++ arriving c.events = line ++ newline :: rest from hpending, readLineStep,
      if_neg (by simp)]
    simp only [htake, if_neg hfits]
    rw [if_pos (by simp), List.nil_append, ← List.drop_drop, List.drop_left]
    rfl
  obtain ⟨c', hpull, hrest, hfault, -⟩ : ∃ c' : Conn,
      pull .timedOut (readLineStep lineSize) [] c.buf c.events = (.ok (stripCr line), c') ∧
        c'.pending = rest ∧ c'.fault .timedOut = c.fault .timedOut ∧ c'.after = c.after :=
    pull_of_done (splits_readLineStep lineSize) hstep
  exact ⟨c', hpull, hrest, hfault⟩

/-! ## What the bus sends -/

/-- A call, and what the bus sends for it: signals, and the reply. -/
structure Exchange where
  world : World
  dest : CStr
  path : CStr
  iface : CStr
  method : CStr
  params : List Param
  signals : List Message
  reply : Message
  outcome : Outcome

namespace Exchange

/-- The call; without arguments there is no pointer to them. -/
def call (x : Exchange) : Call where
  dest := x.dest
  path := x.path
  iface := x.iface
  method := x.method
  sigIn := Param.signature x.params
  args := if x.params = [] then none else some (x.params.map Param.arg)

/-- The message that the call is to write. -/
def message (serial : UInt32) (x : Exchange) : Message :=
  callMessage serial x.dest x.path x.iface x.method x.params

/-- What the bus sends. -/
def stream (x : Exchange) : Bytes := (x.signals ++ [x.reply]).flatMap Message.encode

/-- The call can be sent, and the reply is one to its serial number. -/
structure Served (serial : UInt32) (x : Exchange) : Prop where
  memory : x.world.memory = .ample
  writeError : x.world.writeError = none
  params : x.params.length ≤ 255
  size : (x.message serial).encode.length ≤ maxMessage
  signals : ∀ s ∈ x.signals, IsSignal s
  reply : Answers serial x.reply x.outcome
  sizes : ∀ m ∈ x.signals ++ [x.reply], m.encode.length ≤ maxMessage

end Exchange

/-- Exchanges with one serial number after another. -/
def ServedFrom : UInt32 → List Exchange → Prop
  | _, [] => True
  | serial, x :: xs => x.Served serial ∧ ServedFrom (serial + 1) xs

/-- The messages of the calls. -/
def messages : UInt32 → List Exchange → List Message
  | _, [] => []
  | serial, x :: xs => x.message serial :: messages (serial + 1) xs

/-- What the bus sends for `Hello`: signals, and the unique name. -/
def helloExchange (w : World) (signals : List Message) (reply : Message) (v : ReplyValue) :
    Exchange where
  world := w
  dest := .lit "org.freedesktop.DBus"
  path := .lit "/org/freedesktop/DBus"
  iface := .lit "org.freedesktop.DBus"
  method := .lit "Hello"
  params := []
  signals := signals
  reply := reply
  outcome := .reply v

/-! ## Sessions that are served -/

variable {c : Client} {x : Exchange} {xs : List Exchange} {rest : Bytes}

theorem supportedSig_signature (ps : List Param) : supportedSig (Param.signature ps) = true := by
  rw [supportedSig, Param.signature, List.all_map, List.all_eq_true]
  intro p _
  cases p <;> rfl

theorem getD_args (x : Exchange) : x.call.args.getD [] = x.params.map Param.arg := by
  rw [Exchange.call]
  split_ifs with h
  · simp [h]
  · rfl

/-- A call that is served is sent. -/
theorem Exchange.Served.built (h : x.Served (c.serial + 1)) :
    buildCall x.world.memory (c.serial + 1) x.call.dest x.call.path x.call.iface x.call.method
      x.call.sigIn (x.call.args.getD []) = .message (x.message (c.serial + 1)).encode := by
  rw [getD_args, h.memory]
  exact buildCall_eq h.params h.size

theorem Exchange.Served.args (x : Exchange) : x.call.sigIn = .empty ∨ x.call.args ≠ none := by
  by_cases hnil : x.params = []
  · exact .inl (by rw [Exchange.call, hnil]; rfl)
  · exact .inr (by simp [Exchange.call, hnil])

/-- One call: its message is written, its reply is returned, and exactly what the bus sent for it is
read. -/
theorem busCall_served (hc : c.connected = true) (h : x.Served (c.serial + 1))
    (hpending : c.conn.pending = x.stream ++ rest) :
    request x.world c x.call = [(x.message (c.serial + 1)).encode] ∧
      ∃ c', busCall x.world c x.call = (x.outcome, c') ∧ c'.conn.pending = rest ∧
        c'.serial = c.serial + 1 ∧ c'.connected = true := by
  have hsent : Sent x.world c x.call :=
    ⟨hc, supportedSig_signature x.params, Exchange.Served.args x, ⟨_, h.built⟩, h.writeError⟩
  refine ⟨?_, ?_⟩
  -- none of the checks before the message fails
  · have hargs : ¬ (x.call.sigIn ≠ .empty ∧ x.call.args = none) := by
      rintro ⟨hne, hnone⟩
      exact (Exchange.Served.args x).elim hne fun h => h hnone
    rw [request, if_neg, h.built]
    rintro (hn | hn | hn | hn)
    · exact hn hc
    · exact hn (supportedSig_signature x.params)
    · exact hargs hn
    · rw [h.writeError] at hn
      cases hn
  · -- there is fuel for every message, since each takes up some of the bytes
    have hcount : x.signals.length < c.conn.pending.length + 1 := by
      have hle := length_le_flatMap_encode (x.signals ++ [x.reply])
      rw [List.length_append, List.length_singleton] at hle
      rw [hpending, List.length_append, Exchange.stream]
      omega
    obtain ⟨errMsg, conn, hreceive, hrest, -⟩ :=
      @receive_signals _ _ _ _ _ _ x.world.heap _ h.signals h.reply h.sizes hpending hcount
    obtain ⟨c', hcall, hconn, hserial, hconnected⟩ := busCall_of_sent hsent
    rw [hreceive] at hcall hconn
    exact ⟨c', hcall, hconn ▸ hrest, hserial, hconnected⟩

theorem answered_of_answers {serial : UInt32} {m : Message} {o : Outcome} (h : Answers serial m o) :
    answered o = true := by
  cases h <;> rfl

/-- Calls one after another, by induction on them: the client has as many serial numbers used up, and
the bytes still to come are those for the calls still to be made. -/
theorem callAll_served (hc : c.connected = true) (hxs : ServedFrom (c.serial + 1) xs)
    (hpending : c.conn.pending = xs.flatMap Exchange.stream ++ rest) :
    ∃ c', callAll c (xs.map fun x => (x.world, x.call)) =
        (xs.map (·.outcome), c', (messages (c.serial + 1) xs).map Message.encode) ∧
      c'.conn.pending = rest := by
  induction xs generalizing c with
  | nil => exact ⟨c, rfl, hpending⟩
  | cons x xs ih =>
    obtain ⟨hx, hxs⟩ := hxs
    rw [List.flatMap_cons, List.append_assoc] at hpending
    obtain ⟨hwritten, c₁, hcall, hrest, hserial, hconnected⟩ := busCall_served hc hx hpending
    -- the next call starts where the reply to this one ended
    rw [← hserial] at hxs
    obtain ⟨c₂, hcalls, hrest'⟩ := ih hconnected hxs hrest
    refine ⟨c₂, ?_, hrest'⟩
    rw [List.map_cons, callAll, hcall]
    simp only [answered_of_answers hx.reply, if_true, hcalls, hwritten, hserial]
    rfl

/-- The whole session, where the name can be connected to and nothing that is written fails: whatever
pieces the stream comes in, every call returns what the bus replied to it, the bytes behind the last
reply are still there, and what was written is the opening for this user with the messages of `Hello`
and of the calls, numbered from one. -/
theorem session_of_script {sys : System} {address : Option CStr} {sunPath line : Bytes} {len : ℕ}
    {signals : List Message} {reply : Message} {v : ReplyValue}
    (hname : DBus.dbusConnect address sys.env true = .connect sunPath len)
    (hsystem : sys.socketError = none ∧ sys.connectError = none ∧ sys.authError = none ∧
      sys.beginError = none)
    (hline : newline ∉ line)
    (hlen : (ascii "OK " ++ line ++ crlf).length < lineSize)
    (hhello : (helloExchange sys.hello signals reply v).Served 1) (hxs : ServedFrom 2 xs)
    (hevents : arriving sys.events = ascii "OK " ++ line ++ crlf ++
      (helloExchange sys.hello signals reply v :: xs).flatMap Exchange.stream ++ rest) :
    (session sys address (xs.map fun x => (x.world, x.call))).connected = .ok ∧
      (session sys address (xs.map fun x => (x.world, x.call))).outcomes = xs.map (·.outcome) ∧
      (session sys address (xs.map fun x => (x.world, x.call))).client.conn.pending = rest ∧
      greeting (session sys address (xs.map fun x => (x.world, x.call))).written.flatten =
        some (sys.uid.toNat, (messages 1 (helloExchange sys.hello signals reply v :: xs)).flatMap
          Message.encode) := by
  obtain ⟨hsocket, hconnect, hauth, hbegin⟩ := hsystem
  obtain ⟨auth, hrequest, hgreeting⟩ := exists_authRequest sys.uid
  set hello := helloExchange sys.hello signals reply v with hhelloDef
  -- the line of the authentication
  set ok := ascii "OK " ++ line ++ [0x0D] with hok
  have hokLine : newline ∉ ok := by
    simp only [hok, List.mem_append, not_or]
    exact ⟨⟨by decide, hline⟩, by decide⟩
  have hokLen : ok.length + 1 < lineSize := by
    simp only [crlf, List.length_append, List.length_cons, List.length_nil] at hlen
    simp only [hok, List.length_append, List.length_cons, List.length_nil]
    omega
  have hstrip : stripCr ok = ascii "OK " ++ line := by simp [hok, stripCr]
  have hpending : (⟨[], sys.events⟩ : Conn).pending =
      ok ++ newline :: (hello.stream ++ (xs.flatMap Exchange.stream ++ rest)) := by
    rw [Input.pending, List.nil_append, hevents, hok, crlf]
    simp
  obtain ⟨conn, hread, hrest, -⟩ := readLine_of_line hokLine hokLen hpending
  -- a NUL byte may cut the line short, but not before the words
  have hprefix : (ascii "OK ").isPrefixOf (CStr.ofBuffer (stripCr ok)).val = true := by
    have hwords : ∀ c ∈ ascii "OK ", (c != 0) = true := List.all_eq_true.mp (by decide)
    have hval : (CStr.ofBuffer (ascii "OK " ++ line)).val =
        ascii "OK " ++ line.takeWhile (· != 0) := List.takeWhile_append_of_pos hwords
    rw [hstrip, hval]
    exact List.isPrefixOf_iff_prefix.mpr (List.prefix_append _ _)
  -- the reply to `Hello`
  obtain ⟨hwritten, c₁, hcall, hrest₁, hserial, hconnected⟩ :=
    @busCall_served ⟨true, 0, conn, none, none⟩ hello _ rfl hhello hrest
  have hhelloCall : helloCall = hello.call := rfl
  have hworld : hello.world = sys.hello := rfl
  have hsay : sayHello sys.hello ⟨true, 0, conn, none, none⟩ = (.ok, c₁) := by
    rw [sayHello, hhelloCall, ← hworld, hcall]
    rfl
  have hconnected' : dbusConnect sys address =
      (.ok, c₁, [auth, beginLine, (hello.message 1).encode]) := by
    rw [dbusConnect, hsocket, show (none : Option Bytes).isNone = true from rfl, hname]
    simp only [hconnect, authenticate, hrequest, hauth, hread, hprefix, not_true, if_false, hbegin]
    rw [hsay, hhelloCall, ← hworld, hwritten]
    rfl
  -- the calls
  have hxs : ServedFrom (c₁.serial + 1) xs := by
    rw [hserial]
    exact hxs
  obtain ⟨c₂, hcalls, hrest₂⟩ := callAll_served hconnected hxs hrest₁
  have hsession : session sys address (xs.map fun x => (x.world, x.call)) =
      ⟨.ok, xs.map (·.outcome), c₂, [auth, beginLine, (hello.message 1).encode] ++
        (messages 2 xs).map Message.encode⟩ := by
    rw [session, hconnected']
    simp only [hcalls]
    rw [hserial]
    rfl
  rw [hsession]
  refine ⟨rfl, rfl, hrest₂, ?_⟩
  -- the message of `Hello` is the first of those that are numbered
  have hflatten : ([auth, beginLine, (hello.message 1).encode] ++
      (messages 2 xs).map Message.encode).flatten =
      auth ++ beginLine ++ (messages 1 (hello :: xs)).flatMap Message.encode := by
    rw [messages, List.flatMap_cons, List.flatMap_def]
    simp
  rw [hflatten]
  exact hgreeting _

/-- The reply to a call of `Reload`, the second call. -/
def reloadReply : Message where
  type := 2
  flags := 1
  version := 1
  serial := 4
  fields := [⟨5, .u32 2⟩, ⟨7, .str (.lit ":1.7")⟩]
  body := []

/-- The call of `Reload` behind a signal. -/
def reloadExchange : Exchange where
  world := calmWorld
  dest := .lit "org.lgmagic"
  path := .lit "/org/lgmagic/Manager"
  iface := .lit "org.lgmagic.Manager"
  method := .lit "Reload"
  params := []
  signals := [nameAcquired]
  reply := reloadReply
  outcome := .reply .empty

theorem isReturn_reloadReply : IsReturn 2 .none reloadReply where
  type := rfl
  readable := by decide
  nodup := by decide
  replySerial := by decide
  signature := .inr ⟨rfl, by decide⟩
  body := rfl

theorem served_reloadExchange : reloadExchange.Served 2 where
  memory := rfl
  writeError := rfl
  params := Nat.zero_le _
  size := by decide +kernel
  signals := by simpa [reloadExchange] using isSignal_nameAcquired
  reply := .reply isReturn_reloadReply
  sizes := by decide +kernel

/-- `Hello` is replied to with a name. -/
def namedHello : Exchange :=
  helloExchange calmWorld [nameAcquired] statusReply (.string (.lit "status-line"))

theorem served_namedHello : namedHello.Served 1 where
  memory := rfl
  writeError := rfl
  params := Nat.zero_le _
  size := by decide +kernel
  signals := by simpa [namedHello, helloExchange] using isSignal_nameAcquired
  reply := .reply isReturn_statusReply
  sizes := by decide +kernel

/-- All that the bus sends in a session with one call. -/
def reloadStream : Bytes :=
  ascii "OK 1f" ++ crlf ++ [namedHello, reloadExchange].flatMap Exchange.stream

/-- Nothing fails, and the stream comes in these pieces. -/
def calmSystem (events : List (ReadEvent ReadError UInt8)) : System :=
  ⟨none, none, none, 1000, none, none, events, calmWorld⟩

/-- The default address can be connected to. -/
theorem exists_default : ∃ sunPath len, DBus.dbusConnect none none true = .connect sunPath len := by
  have h : (match DBus.dbusConnect none none true with
      | .connect _ _ => true
      | _ => false) = true := by decide +kernel
  cases hd : DBus.dbusConnect none none true with
  | connect sunPath len => exact ⟨_, _, rfl⟩
  | unsupported | noSocket | overrun =>
    rw [hd] at h
    cases h

/-- The stream of a session, cut in the middle of the first message. -/
def reloadSystem : System :=
  calmSystem (piece (reloadStream.take 10) ++ piece (reloadStream.drop 10))

/-- What becomes of the session with one call. -/
def reloadSession : Result :=
  session reloadSystem none ([reloadExchange].map fun x => (x.world, x.call))

/-- The line of the authentication comes with the beginning of the first message. -/
theorem session_reload :
    reloadSession.connected = .ok ∧ reloadSession.outcomes = [.reply .empty] ∧
      reloadSession.client.conn.pending = [] ∧ greeting reloadSession.written.flatten =
        some (reloadSystem.uid.toNat, (messages 1 [namedHello, reloadExchange]).flatMap
          Message.encode) := by
  obtain ⟨sunPath, len, hname⟩ := exists_default
  have h := @session_of_script [reloadExchange] [] reloadSystem none sunPath (ascii "1f") len
    [nameAcquired] statusReply (.string (.lit "status-line")) hname ⟨rfl, rfl, rfl, rfl⟩
    (by decide) (by decide) served_namedHello ⟨served_reloadExchange, trivial⟩ (by decide +kernel)
  rwa [← reloadSession] at h

/-! ## Pieces of the stream -/

/-- Connections that only differ in the pieces that the bytes come in. -/
abbrev SameConn (c c' : Conn) : Prop := Input.Same .timedOut c c'

/-- Clients that only differ in these pieces. -/
def SameClient (c c' : Client) : Prop := ∃ conn, c' = { c with conn := conn } ∧ SameConn c.conn conn

variable {d d' : Conn} {c' : Client}

theorem readn_congr (n : ℕ) (h : SameConn d d') : (readn n d).1 = (readn n d').1 ∧
    ∀ bs, (readn n d).1 = .ok bs → SameConn (readn n d).2 (readn n d').2 :=
  pull_congr (splits_readnStep n) h

theorem readLine_congr (n : ℕ) (h : SameConn d d') : (readLine n d).1 = (readLine n d').1 ∧
    ∀ bs, (readLine n d).1 = .ok bs → SameConn (readLine n d).2 (readLine n d').2 :=
  pull_congr (splits_readLineStep n) h

theorem readMessage_congr (heap : Mem) (h : SameConn d d') :
    (readMessage heap d).1 = (readMessage heap d').1 ∧
      ∀ f, (readMessage heap d).1 = .ok f →
        SameConn (readMessage heap d).2 (readMessage heap d').2 := by
  obtain ⟨hfixed, hsame⟩ := readn_congr 16 h
  unfold readMessage
  rcases hread : readn 16 d with ⟨r, e⟩
  rcases hread' : readn 16 d' with ⟨r', e'⟩
  rw [hread, hread'] at hfixed hsame
  obtain rfl : r = r' := hfixed
  cases r with
  | error err => exact ⟨rfl, fun f hf => by cases hf⟩
  | ok fixed =>
    have hsame : SameConn e e' := hsame fixed rfl
    dsimp only
    -- the same lengths are read, so the same checks fail
    split_ifs
    · exact ⟨rfl, fun f hf => by cases hf⟩
    · exact ⟨rfl, fun f hf => by cases hf⟩
    · generalize fixedU32 fixed 12 + padLen 8 (16 + fixedU32 fixed 12) + fixedU32 fixed 4 = n
      obtain ⟨hrest, hsame⟩ := readn_congr n hsame
      rcases hread : readn n e with ⟨r, e₁⟩
      rcases hread' : readn n e' with ⟨r', e₁'⟩
      rw [hread, hread'] at hrest hsame
      obtain rfl : r = r' := hrest
      cases r with
      | error err => exact ⟨rfl, fun f hf => by cases hf⟩
      | ok rest =>
        dsimp only
        cases parseHeaderFields (buffer (fixed ++ rest) heap) (16 + n) (fixedU32 fixed 12) with
        | none => exact ⟨rfl, fun f hf => by cases hf⟩
        | some header => exact ⟨rfl, fun _ _ => hsame rest rfl⟩

theorem receive_congr (heap : ℕ → Mem) (serial : UInt32) (n : ℕ) (h : SameConn d d') :
    (receive heap serial n d).1 = (receive heap serial n d').1 ∧
      (answered (receive heap serial n d).1.1 = true →
        SameConn (receive heap serial n d).2 (receive heap serial n d').2) := by
  induction n generalizing d d' with
  | zero => exact ⟨rfl, fun ha => by cases ha⟩
  | succ n ih =>
    obtain ⟨hread, hsame⟩ := readMessage_congr (heap n) h
    unfold receive
    rcases hm : readMessage (heap n) d with ⟨r, e⟩
    rcases hm' : readMessage (heap n) d' with ⟨r', e'⟩
    rw [hm, hm'] at hread hsame
    obtain rfl : r = r' := hread
    cases r with
    | error err => exact ⟨rfl, fun ha => by cases ha⟩
    | ok f =>
      have hsame : SameConn e e' := hsame f rfl
      dsimp only
      split_ifs
      · exact ih hsame
      · exact ⟨rfl, fun _ => hsame⟩

/-- The same outcome, and behind a reply the same bytes to come. -/
structure Agree (r r' : Outcome × Client) : Prop where
  outcome : r.1 = r'.1
  client : answered r.1 = true → SameClient r.2 r'.2

theorem agree_of_not_answered {o : Outcome} (c c' : Client) (h : answered o = false) :
    Agree (o, c) (o, c') :=
  ⟨rfl, fun ha => absurd ha (by simp [h])⟩

/-- A call does not see the pieces. -/
theorem busCall_congr (w : World) (call : Call) (h : SameClient c c') :
    Agree (busCall w c call) (busCall w c' call) ∧ request w c call = request w c' call := by
  obtain ⟨conn, rfl, hsame⟩ := h
  refine ⟨?_, rfl⟩
  unfold busCall
  dsimp only [Client.reset]
  split_ifs
  · exact agree_of_not_answered _ _ rfl
  · cases buildCall w.memory (c.serial + 1) call.dest call.path call.iface call.method call.sigIn
      (call.args.getD []) with
    | failed | hangs | crashes => exact agree_of_not_answered _ _ rfl
    | message msg =>
      cases w.writeError with
      | some e => exact agree_of_not_answered _ _ rfl
      | none =>
        -- both wait for as many messages at most
        obtain ⟨hout, hnext⟩ := receive_congr w.heap (c.serial + 1) (c.conn.pending.length + 1) hsame
        rw [← hsame.pending]
        generalize receive w.heap (c.serial + 1) (c.conn.pending.length + 1) c.conn = r at hout hnext ⊢
        generalize receive w.heap (c.serial + 1) (c.conn.pending.length + 1) conn = r' at hout hnext ⊢
        obtain ⟨⟨o, e⟩, d⟩ := r
        obtain ⟨_, d'⟩ := r'
        obtain rfl : (o, e) = _ := hout
        exact ⟨rfl, fun ha => ⟨_, rfl, hnext ha⟩⟩
  · exact agree_of_not_answered _ _ rfl
  · exact agree_of_not_answered _ _ rfl

/-- Calls one after another do not see the pieces, by induction on them. -/
theorem callAll_congr (cs : List (World × Call)) (h : SameClient c c') :
    (callAll c cs).1 = (callAll c' cs).1 ∧ (callAll c cs).2.2 = (callAll c' cs).2.2 ∧
      ((∀ o ∈ (callAll c cs).1, answered o = true) →
        SameClient (callAll c cs).2.1 (callAll c' cs).2.1) := by
  induction cs generalizing c c' with
  | nil => exact ⟨rfl, rfl, fun _ => h⟩
  | cons wc cs ih =>
    obtain ⟨w, call⟩ := wc
    obtain ⟨hagree, hrequest⟩ := busCall_congr w call h
    rcases hcall : busCall w c call with ⟨o, c₁⟩
    rcases hcall' : busCall w c' call with ⟨o', c₁'⟩
    rw [hcall, hcall'] at hagree
    obtain rfl : o = o' := hagree.outcome
    simp only [callAll, hcall, hcall', hrequest]
    split_ifs with ho
    · obtain ⟨houts, hwritten, hclient⟩ := ih (hagree.client ho)
      refine ⟨congrArg (o :: ·) houts, congrArg (request w c' call ++ ·) hwritten, fun hall => ?_⟩
      exact hclient fun o' ho' => hall o' (List.mem_cons_of_mem _ ho')
    · exact ⟨rfl, rfl, fun hall => absurd (hall o List.mem_cons_self) ho⟩

/-- What becomes of the connection does not depend on the pieces. -/
theorem authenticate_congr {sys : System} {events : List (ReadEvent ReadError UInt8)}
    (h : SameConn ⟨[], sys.events⟩ ⟨[], events⟩) :
    (authenticate sys).1 = (authenticate { sys with events := events }).1 ∧
      (authenticate sys).2.2 = (authenticate { sys with events := events }).2.2 ∧
      ((authenticate sys).1 = .ok →
        SameClient (authenticate sys).2.1 (authenticate { sys with events := events }).2.1) := by
  have never {e : ConnectError} {P : Prop} (h : Connected.failed e = .ok) : P := by cases h
  unfold authenticate
  cases authRequest sys.uid with
  | none => exact ⟨rfl, rfl, never⟩
  | some auth =>
    cases sys.authError with
    | some e => exact ⟨rfl, rfl, never⟩
    | none =>
      obtain ⟨hline, hsame⟩ := readLine_congr lineSize h
      dsimp only
      generalize readLine lineSize ⟨[], sys.events⟩ = r at hline hsame ⊢
      generalize readLine lineSize ⟨[], events⟩ = r' at hline hsame ⊢
      obtain ⟨line, conn⟩ := r
      obtain ⟨_, conn'⟩ := r'
      obtain rfl : line = _ := hline
      cases line with
      | error e => exact ⟨rfl, rfl, never⟩
      | ok line =>
        have hsame : SameConn conn conn' := hsame line rfl
        dsimp only
        split_ifs
        · cases sys.beginError with
          | some e => exact ⟨rfl, rfl, never⟩
          | none =>
            -- the reply to `Hello` behind the line
            obtain ⟨hagree, hrequest⟩ := busCall_congr sys.hello helloCall
              (c := ⟨true, 0, conn, none, none⟩) ⟨conn', rfl, hsame⟩
            dsimp only [sayHello]
            rw [hrequest]
            generalize busCall sys.hello ⟨true, 0, conn, none, none⟩ helloCall = r at hagree ⊢
            generalize busCall sys.hello ⟨true, 0, conn', none, none⟩ helloCall = r' at hagree ⊢
            obtain ⟨o, c₁⟩ := r
            obtain ⟨_, c₁'⟩ := r'
            obtain rfl : o = _ := hagree.outcome
            cases o with
            | reply v => exact ⟨rfl, rfl, fun _ => hagree.client rfl⟩
            | remoteError name msg => exact ⟨rfl, rfl, never⟩
            | failed e => exact ⟨rfl, rfl, never⟩
            | hangs | crashes => exact ⟨rfl, rfl, fun h => by cases h⟩
        · exact ⟨rfl, rfl, False.elim⟩
        · exact ⟨rfl, rfl, False.elim⟩

theorem dbusConnect_congr {sys : System} {events : List (ReadEvent ReadError UInt8)}
    (address : Option CStr) (h : SameConn ⟨[], sys.events⟩ ⟨[], events⟩) :
    (dbusConnect sys address).1 = (dbusConnect { sys with events := events } address).1 ∧
      (dbusConnect sys address).2.2 = (dbusConnect { sys with events := events } address).2.2 ∧
      ((dbusConnect sys address).1 = .ok → SameClient (dbusConnect sys address).2.1
        (dbusConnect { sys with events := events } address).2.1) := by
  have never {k : Connected} {P : Prop} (hk : k ≠ .ok) (h : k = .ok) : P := absurd h hk
  obtain ⟨env, socketError, connectError, uid, authError, beginError, old, hello⟩ := sys
  unfold dbusConnect
  dsimp only
  generalize busAddress address env = name
  cases DBus.dbusConnect address env socketError.isNone with
  | unsupported | noSocket | overrun => exact ⟨rfl, rfl, never (by simp)⟩
  | connect sunPath len =>
    cases connectError with
    | some e => exact ⟨rfl, rfl, never (by simp)⟩
    | none => exact authenticate_congr h

/-- A session in which the same bytes come in other pieces, before the stream ends in the same way,
connects or fails alike, has the same outcomes and writes the same; where every call was replied to,
the same bytes are still to come. -/
theorem session_congr (sys : System) (events : List (ReadEvent ReadError UInt8))
    (address : Option CStr) (cs : List (World × Call))
    (harriving : arriving sys.events = arriving events)
    (hending : ending .timedOut sys.events = ending .timedOut events) :
    (session sys address cs).connected =
        (session { sys with events := events } address cs).connected ∧
      (session sys address cs).outcomes =
        (session { sys with events := events } address cs).outcomes ∧
      (session sys address cs).written = (session { sys with events := events } address cs).written ∧
      ((session sys address cs).connected = .ok →
        (∀ o ∈ (session sys address cs).outcomes, answered o = true) →
        (session sys address cs).client.conn.pending =
          (session { sys with events := events } address cs).client.conn.pending) := by
  have hsame : SameConn ⟨[], sys.events⟩ ⟨[], events⟩ := ⟨harriving, hending⟩
  have hconnect := dbusConnect_congr address hsame
  unfold session
  generalize dbusConnect sys address = r at hconnect ⊢
  generalize dbusConnect { sys with events := events } address = r' at hconnect ⊢
  obtain ⟨k, c, written⟩ := r
  obtain ⟨_, c', _⟩ := r'
  obtain ⟨rfl : k = _, rfl : written = _, hclient⟩ := hconnect
  cases k with
  | ok =>
    obtain ⟨houts, hwritten, hlast⟩ := callAll_congr cs (hclient rfl)
    refine ⟨rfl, houts, congrArg (written ++ ·) hwritten, fun _ hall => ?_⟩
    obtain ⟨conn, heq, hconn⟩ := hlast hall
    exact hconn.pending.trans (congrArg (·.conn.pending) heq).symm
  | failed e => exact ⟨rfl, rfl, rfl, fun h => by cases h⟩
  | overrun | hangs | crashes => exact ⟨rfl, rfl, rfl, fun h => by cases h⟩

/-- The stream of a session at once, and in two pieces with an interruption between them. -/
theorem session_reload_congr :
    let events := piece (reloadStream.take 3) ++ .interrupted :: piece (reloadStream.drop 3)
    (session (calmSystem (piece reloadStream)) none [(calmWorld, reloadExchange.call)]).connected =
        (session (calmSystem events) none [(calmWorld, reloadExchange.call)]).connected ∧
      (session (calmSystem (piece reloadStream)) none [(calmWorld, reloadExchange.call)]).outcomes =
        (session (calmSystem events) none [(calmWorld, reloadExchange.call)]).outcomes ∧
      (session (calmSystem (piece reloadStream)) none [(calmWorld, reloadExchange.call)]).written =
        (session (calmSystem events) none [(calmWorld, reloadExchange.call)]).written :=
  have h := session_congr (calmSystem (piece reloadStream))
    (piece (reloadStream.take 3) ++ .interrupted :: piece (reloadStream.drop 3)) none
    [(calmWorld, reloadExchange.call)] (by decide +kernel) (by decide +kernel)
  ⟨h.1, h.2.1, h.2.2.1⟩

end DBus.Session
