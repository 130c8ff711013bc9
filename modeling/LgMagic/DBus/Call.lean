import LgMagic.DBus.Connection
import LgMagic.DBus.Reader
import LgMagic.DBus.Writer
import LgMagic.Lib.Printf

/-!
# Calls over the bus

A call of a method and the wait for its reply. Signals are skipped; the first other message is the
reply, whatever it says. Part of `dbus_client.c`.

* `Client`, `Call`, `Outcome`: the client, what is called, and what becomes of it;
* `readMessage`, `Frame`: one message from the connection;
* `Frame.answer`: a message that is no signal;
* `receive`, `busCall`: the wait and the call.
-/

namespace DBus

open CString Printf WireFormat

/-! ## Errors -/

/-- The errors of a call. -/
inductive CallError
  | notConnected
  | unsupportedSignature (sig : CStr)
  | needsArguments (sig : CStr)
  | cannotMarshal
  | cannotWrite (strerror : Bytes)
  | read (e : ReadError)
  | badEndian
  | tooLarge
  | malformedHeader
  | malformedErrorBody
  | unexpectedType (type : UInt8)
  | serialMismatch (reply request : UInt32)
  | unreadableBody (sig : CStr)
  deriving DecidableEq

/-- The message of an error. -/
def CallError.text : CallError → Bytes
  | .notConnected => ascii "not connected to the bus"
  | .unsupportedSignature sig => ascii "unsupported input signature '" ++ sig.val ++ ascii "'"
  | .needsArguments sig =>
    ascii "method call needs arguments for signature '" ++ sig.val ++ ascii "'"
  | .cannotMarshal => ascii "cannot marshal the method call"
  | .cannotWrite strerror => ascii "cannot write to the bus: " ++ strerror
  | .read e => e.text
  | .badEndian => ascii "not a D-Bus reply (bad endian byte)"
  | .tooLarge => ascii "reply too large"
  | .malformedHeader => ascii "malformed reply header"
  | .malformedErrorBody => ascii "malformed error reply body"
  | .unexpectedType type => ascii "unexpected reply type " ++ printInt type.toNat
  | .serialMismatch reply request =>
    ascii "reply serial " ++ printInt reply.toNat ++ ascii " does not match request " ++
      printInt request.toNat
  | .unreadableBody sig =>
    ascii "cannot parse the reply body (signature '" ++ sig.val ++ ascii "')"

/-! ## Messages -/

/-- A message as it was read. -/
structure Frame where
  msg : Bytes
  fieldsLen : ℕ
  header : ReplyHeader

namespace Frame

/-- The type of the message. -/
def type (f : Frame) : UInt8 := f.msg.getD 1 0

/-- The offset of the body. -/
def bodyStart (f : Frame) : ℕ := 16 + f.fieldsLen + padLen 8 (16 + f.fieldsLen)

end Frame

/-- Read one message and its header fields. -/
def readMessage (heap : Mem) (c : Conn) : Except CallError Frame × Conn :=
  match readn 16 c with
  | (.error e, c) => (.error (.read e), c)
  | (.ok fixed, c) =>
    if fixed.head? ≠ some 0x6C then (.error .badEndian, c)
    else
      let bodyLen := fixedU32 fixed 4
      let fieldsLen := fixedU32 fixed 12
      if maxMessage < fieldsLen ∨ maxMessage < bodyLen ∨ maxMessage < 16 + fieldsLen + bodyLen then
        (.error .tooLarge, c)
      else
        let restLen := fieldsLen + padLen 8 (16 + fieldsLen) + bodyLen
        match readn restLen c with
        | (.error e, c) => (.error (.read e), c)
        | (.ok rest, c) =>
          let msg := fixed ++ rest
          match parseHeaderFields (buffer msg heap) (16 + restLen) fieldsLen with
          | none => (.error .malformedHeader, c)
          | some header => (.ok ⟨msg, fieldsLen, header⟩, c)

/-- What becomes of a call. -/
inductive Outcome
  | reply (v : ReplyValue)
  | remoteError (name msg : CStr)
  | failed (e : CallError)
  | hangs
  | crashes
  deriving DecidableEq

/-- The name of an error that comes without one. -/
def defaultErrorName : CStr := .lit "org.lgmagic.Error.Failed"

/-- The string that is the whole body of an error. -/
def Frame.errorBody (mem : Mem) (f : Frame) : Option (CStr × Rd) :=
  rdStr mem (rdPad 4 ⟨f.bodyStart, f.msg.length, 0⟩)

/-- What a message that is no signal comes to, and the error message that is kept. -/
def Frame.answer (mem : Mem) (serial : UInt32) (f : Frame) : Outcome × Option CStr :=
  if f.type = 3 then
    match f.errorBody mem with
    | none => (.failed .malformedErrorBody, none)
    | some (msg, r) =>
      if r.p ≠ r.stop then (.failed .malformedErrorBody, some msg)
      else (.remoteError (f.header.errorName.getD defaultErrorName) msg, some msg)
  else if f.type ≠ 2 then (.failed (.unexpectedType f.type), none)
  else if f.header.replySerial ≠ serial then
    (.failed (.serialMismatch f.header.replySerial serial), none)
  else
    match f.header.sig with
    | none => (.reply .empty, none)
    | some sig =>
      if sig = .empty then (.reply .empty, none)
      else
        match rdValue mem ⟨f.bodyStart, f.msg.length, 0⟩ sig with
        | none => (.failed (.unreadableBody sig), none)
        | some (v, r) => (if r.p ≠ r.stop then .failed (.unreadableBody sig) else .reply v, none)

/-- The wait for the reply: signals are skipped, at most so many of them. -/
def receive (heap : ℕ → Mem) (serial : UInt32) : ℕ → Conn → (Outcome × Option CStr) × Conn
  | 0, c => ((.failed (.read .timedOut), none), c)
  | n + 1, c =>
    match readMessage (heap n) c with
    | (.error e, c) => ((.failed e, none), c)
    | (.ok f, c) =>
      if f.type = 4 then receive heap serial n c
      else (f.answer (buffer f.msg (heap n)) serial, c)

/-! ## Calls -/

/-- `struct dbus_client` -/
structure Client where
  connected : Bool
  serial : UInt32
  conn : Conn
  errName : Option CStr
  errMsg : Option CStr

/-- What is called; the arguments are missing for a null pointer. -/
structure Call where
  dest : CStr
  path : CStr
  iface : CStr
  method : CStr
  sigIn : CStr
  args : Option (List Arg)

/-- What the system does during a call. -/
structure World where
  memory : Memory
  /-- The error of `write`, if there is one. -/
  writeError : Option Bytes
  /-- What lies behind the buffers of the messages. -/
  heap : ℕ → Mem

/-- The types of arguments that can be sent. -/
def supportedSig (sig : CStr) : Bool := sig.val.all fun c => c = 0x73 || c = 0x64 || c = 0x75

/-- The client after a call that came to nothing before anything was received. -/
def Client.reset (c : Client) : Client := { c with errName := none, errMsg := none }

/-- `bus_call`; every message takes up some of the bytes that come. -/
def busCall (w : World) (c : Client) (call : Call) : Outcome × Client :=
  let c := c.reset
  if ¬ c.connected then (.failed .notConnected, c)
  else if ¬ supportedSig call.sigIn then (.failed (.unsupportedSignature call.sigIn), c)
  else if call.sigIn ≠ .empty ∧ call.args = none then (.failed (.needsArguments call.sigIn), c)
  else
    let c := { c with serial := c.serial + 1 }
    match buildCall w.memory c.serial call.dest call.path call.iface call.method call.sigIn
        (call.args.getD []) with
    | .failed => (.failed .cannotMarshal, c)
    | .hangs => (.hangs, c)
    | .crashes => (.crashes, c)
    | .message _ =>
      match w.writeError with
      | some e => (.failed (.cannotWrite e), c)
      | none =>
        let ((outcome, errMsg), conn) := receive w.heap c.serial (c.conn.pending.length + 1) c.conn
        let errName := match outcome with
          | .remoteError name _ => some name
          | _ => none
        (outcome, { c with conn := conn, errName := errName, errMsg := errMsg })

end DBus
