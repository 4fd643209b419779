import Zeitpeer.Framework.Codec

/-!
# Wire messages

Requests and responses as `bincode` lays them out: fixed-width little-endian integers and
byte arrays without a length prefix, in field order, with trailing bytes allowed on reading.
-/

namespace Zeitpeer

open Framework

def MSG_REQ : UInt8 := 1
def MSG_RESP : UInt8 := 2
def WIRE_VERSION : UInt8 := 1
def SIGNATURE_BYTES : Nat := 32
def RESERVED_BYTES : Nat := 16

abbrev Signature := Vector UInt8 SIGNATURE_BYTES
abbrev Reserved := Vector UInt8 RESERVED_BYTES

/-- Packet header shared between request and response. -/
structure Header where
  ver : UInt8
  kind : UInt8
  seq : UInt32
  deriving DecidableEq, Repr

structure TimeRequest where
  header : Header
  senderId : UInt32
  t1SendNs : UInt64
  reserved : Reserved
  signature : Signature
  deriving DecidableEq, Repr

structure TimeResponse where
  header : Header
  serverId : UInt32
  t1EchoNs : UInt64
  t2RecvNs : UInt64
  t3SendNs : UInt64
  serverQuality : UInt32
  reserved : Reserved
  signature : Signature
  deriving DecidableEq, Repr

def Header.new (kind : UInt8) (seq : UInt32) : Header :=
  { ver := WIRE_VERSION, kind := kind, seq := seq }

def Header.codec : Codec Header :=
  (Codec.u8.pair (Codec.u8.pair Codec.u32)).record
    (fun f => ⟨f.1, f.2.1, f.2.2⟩) (fun h => (h.ver, h.kind, h.seq)) fun _ => rfl

def TimeRequest.codec : Codec TimeRequest :=
  (Header.codec.pair (Codec.u32.pair (Codec.u64.pair
    ((Codec.array RESERVED_BYTES).pair (Codec.array SIGNATURE_BYTES))))).record
    (fun f => ⟨f.1, f.2.1, f.2.2.1, f.2.2.2.1, f.2.2.2.2⟩)
    (fun m => (m.header, m.senderId, m.t1SendNs, m.reserved, m.signature)) fun _ => rfl

def TimeResponse.codec : Codec TimeResponse :=
  (Header.codec.pair (Codec.u32.pair (Codec.u64.pair (Codec.u64.pair (Codec.u64.pair
    (Codec.u32.pair ((Codec.array RESERVED_BYTES).pair (Codec.array SIGNATURE_BYTES)))))))).record
    (fun f => ⟨f.1, f.2.1, f.2.2.1, f.2.2.2.1, f.2.2.2.2.1, f.2.2.2.2.2.1, f.2.2.2.2.2.2.1,
      f.2.2.2.2.2.2.2⟩)
    (fun m => (m.header, m.serverId, m.t1EchoNs, m.t2RecvNs, m.t3SendNs, m.serverQuality,
      m.reserved, m.signature)) fun _ => rfl

/-- `bincode::serialize`, which cannot fail on these types. -/
def TimeRequest.serialize (m : TimeRequest) : List UInt8 := TimeRequest.codec.encode m

def TimeResponse.serialize (m : TimeResponse) : List UInt8 := TimeResponse.codec.encode m

/-- `bincode::deserialize`: bytes after the message are ignored. -/
def TimeRequest.deserialize (buf : List UInt8) : Option TimeRequest :=
  (TimeRequest.codec.decode buf).map Prod.fst

def TimeResponse.deserialize (buf : List UInt8) : Option TimeResponse :=
  (TimeResponse.codec.decode buf).map Prod.fst

theorem TimeRequest.length_serialize (m : TimeRequest) : m.serialize.length = 66 :=
  TimeRequest.codec.length_encode m

theorem TimeResponse.length_serialize (m : TimeResponse) : m.serialize.length = 86 :=
  TimeResponse.codec.length_encode m

/-- A message is read back whatever follows it. -/
@[simp] theorem TimeRequest.deserialize_append (m : TimeRequest) (rest : List UInt8) :
    TimeRequest.deserialize (m.serialize ++ rest) = some m := by
  simp [TimeRequest.deserialize, TimeRequest.serialize, TimeRequest.codec.decode_encode]

@[simp] theorem TimeResponse.deserialize_append (m : TimeResponse) (rest : List UInt8) :
    TimeResponse.deserialize (m.serialize ++ rest) = some m := by
  simp [TimeResponse.deserialize, TimeResponse.serialize, TimeResponse.codec.decode_encode]

/-- Fewer bytes than a message has are no message. -/
theorem TimeRequest.deserialize_short {buf : List UInt8} (hshort : buf.length < 66) :
    TimeRequest.deserialize buf = none := by
  rw [TimeRequest.deserialize, TimeRequest.codec.decode_short hshort]
  rfl

theorem TimeResponse.deserialize_short {buf : List UInt8} (hshort : buf.length < 86) :
    TimeResponse.deserialize buf = none := by
  rw [TimeResponse.deserialize, TimeResponse.codec.decode_short hshort]
  rfl

/-- The byte that the receive loop dispatches on is the header's kind. -/
theorem TimeRequest.serialize_kind (m : TimeRequest) : m.serialize[1]? = some m.header.kind := by
  simp [TimeRequest.serialize, TimeRequest.codec, Codec.record, Codec.pair, Header.codec,
    Codec.u8, Codec.unsigned, leBytes]

theorem TimeResponse.serialize_kind (m : TimeResponse) :
    m.serialize[1]? = some m.header.kind := by
  simp [TimeResponse.serialize, TimeResponse.codec, Codec.record, Codec.pair, Header.codec,
    Codec.u8, Codec.unsigned, leBytes]

end Zeitpeer
