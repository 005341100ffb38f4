/-
  RacKun.Wire.Message — the six message formats (`include/*Message.hpp`), their
  serialisers (`src/*Message.cpp`) and the parser (`parse_message`, `src/Utils.cpp`).

  byte[0] is the type, byte[1-20] the stamp, the rest belongs to the type. Fields are
  read with `string(msg, pos, n)`, which throws when `pos` is past the end and cuts
  the field short when fewer than `n` bytes follow. `msg[pos]` is not checked: at the
  end of the string it is the terminating NUL, past it the read is outside the string
  (`ParseError.outside`).
-/

import RacKun.Wire.Bytes

namespace RacKun

inductive MessageType where
  | none
  | join
  | joinNotif
  | joinAck
  | ready
  | readyNotif
  | data
  deriving DecidableEq, Repr

def MessageType.code : MessageType → Byte
  | .none => 0
  | .join => 1
  | .joinNotif => 2
  | .joinAck => 3
  | .ready => 4
  | .readyNotif => 5
  | .data => 6

/-- The members of the message classes, base class aside. -/
inductive Payload where
  | join (id pubK : Bytes) (port : Port)
  | joinNotif (bcastMarker : Bytes) (channel : Bool) (groupId peerId pubK ip : Bytes) (port : Port)
  | joinAck (groupId peerId pubK : Bytes)
  | ready
  | readyNotif
  | data (bcastMarker data : Bytes)
  deriving DecidableEq, Repr

structure Message where
  stamp : Bytes
  payload : Payload
  deriving DecidableEq, Repr

def Payload.type : Payload → MessageType
  | .join .. => .join
  | .joinNotif .. => .joinNotif
  | .joinAck .. => .joinAck
  | .ready => .ready
  | .readyNotif => .readyNotif
  | .data .. => .data

/-- `BCAST_MARKER`, for the two broadcast types (`is_broadcast`). -/
def Payload.bcastMarker? : Payload → Option Bytes
  | .joinNotif marker .. => some marker
  | .data marker _ => some marker
  | _ => none

def Payload.fields : Payload → Bytes
  | .join id pubK port => id ++ pubK ++ itos port.val
  | .joinNotif marker channel groupId peerId pubK ip port =>
    marker ++ [if channel then 1 else 0] ++ peerId ++ pubK ++ groupId ++ ip ++ [colon] ++ itos port.val
  | .joinAck groupId peerId pubK => peerId ++ pubK ++ groupId
  | .ready => []
  | .readyNotif => []
  | .data marker content => marker ++ content

namespace Message

def type (m : Message) : MessageType := m.payload.type

def bcastMarker? (m : Message) : Option Bytes := m.payload.bcastMarker?

def serialize (m : Message) : Bytes := m.type.code :: (m.stamp ++ m.payload.fields)

/-- The stamp recipe: hash( author_id || timestamp || type ). -/
def makeStamp [Platform] (payload : Payload) (peerId : Bytes) (now : Nat) : Message :=
  ⟨makeHash (peerId ++ itos now ++ [payload.type.code]), payload⟩

end Message

/-! ## Parsing -/

inductive ParseError where
  /-- `MessageParseException`. -/
  | unknownType
  /-- `std::out_of_range`. -/
  | outOfRange
  /-- An unchecked `msg[pos]` past the end. -/
  | outside
  deriving DecidableEq, Repr

/-- `string(msg, pos, n)`. -/
def substr (msg : Bytes) (pos n : Nat) : Except ParseError Bytes :=
  if pos ≤ msg.length then .ok ((msg.drop pos).take n) else .error .outOfRange

/-- `string(msg, pos)`. -/
def suffix (msg : Bytes) (pos : Nat) : Except ParseError Bytes :=
  if pos ≤ msg.length then .ok (msg.drop pos) else .error .outOfRange

/-- `msg[pos]`. -/
def charAt (msg : Bytes) (pos : Nat) : Except ParseError Byte :=
  if pos ≤ msg.length then .ok (msg.getD pos 0) else .error .outside

/-- `(s.substr(0, i), s.substr(i+1, s.size()))` with `int i = s.find(c)`. Where `c` is
    missing, `npos` becomes -1: the first part runs to the end and the second starts
    at 0, so both are all of `s`. The position is taken as it is: up to 2^31 - 2 the `int`
    holds it and its successor (`cutAt` has the rest). -/
def splitAt (c : Byte) (s : Bytes) : Bytes × Bytes :=
  match s.findIdx? (· = c) with
  | some i => (s.take i, s.drop (i + 1))
  | none => (s, s)

variable [Platform]

/-- `unsigned short port; istringstream(text) >> port;`. -/
def readPort (text : Bytes) : Port := (extractPort text).getD (Platform.unread text)

def parseFields (msg : Bytes) : Except ParseError Payload := do
  let offset := 1 + MSG_STAMP_LENGTH
  match (← charAt msg 0) with
  | 1 =>
    let id ← substr msg offset ID_LENGTH
    let offset := offset + ID_LENGTH
    let pubK ← substr msg offset KEY_LENGTH
    let offset := offset + KEY_LENGTH
    let endpoint ← suffix msg offset
    pure (.join id pubK (readPort endpoint))
  | 2 =>
    let bcastMarker ← substr msg offset BCAST_MARKER_LENGTH
    let offset := offset + BCAST_MARKER_LENGTH
    let channelFlag ← charAt msg offset
    let offset := offset + 1
    let peerId ← substr msg offset ID_LENGTH
    let offset := offset + ID_LENGTH
    let pubK ← substr msg offset KEY_LENGTH
    let offset := offset + KEY_LENGTH
    let groupId ← substr msg offset GROUP_ID_LENGTH
    let offset := offset + GROUP_ID_LENGTH
    let endpoint ← suffix msg offset
    let (ip, port) := splitAt colon endpoint
    pure (.joinNotif bcastMarker (channelFlag ≠ 0) groupId peerId pubK ip (readPort port))
  | 3 =>
    let peerId ← substr msg offset ID_LENGTH
    let offset := offset + ID_LENGTH
    let pubK ← substr msg offset KEY_LENGTH
    let offset := offset + KEY_LENGTH
    let groupId ← substr msg offset GROUP_ID_LENGTH
    pure (.joinAck groupId peerId pubK)
  | 4 => pure .ready
  | 5 => pure .readyNotif
  | 6 =>
    let bcastMarker ← substr msg offset BCAST_MARKER_LENGTH
    let offset := offset + BCAST_MARKER_LENGTH
    let data ← suffix msg offset
    pure (.data bcastMarker data)
  | _ => throw .unknownType

def parseMessage (msg : Bytes) : Except ParseError Message := do
  let payload ← parseFields msg
  let stamp ← substr msg 1 MSG_STAMP_LENGTH
  pure ⟨stamp, payload⟩

end RacKun
