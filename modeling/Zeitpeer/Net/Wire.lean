import Zeitpeer.Net.Node

/-!
# Messages on the wire

A message that one side serializes is routed to its handler by the byte that the receive loop
looks at, and is read back whole. What has lost its end is dropped before anything is touched.
-/

namespace Zeitpeer

open Framework

/-- A message type as the receive loop handles it. -/
structure WireType (α : Type) where
  kind : UInt8
  width : Nat
  header : α → Header
  serialize : α → List UInt8
  deserialize : List UInt8 → Option α
  incoming : α → Incoming

def requestWire : WireType TimeRequest :=
  { kind := MSG_REQ
    width := 66
    header := TimeRequest.header
    serialize := TimeRequest.serialize
    deserialize := TimeRequest.deserialize
    incoming := .request }

def responseWire : WireType TimeResponse :=
  { kind := MSG_RESP
    width := 86
    header := TimeResponse.header
    serialize := TimeResponse.serialize
    deserialize := TimeResponse.deserialize
    incoming := .response }

variable {α : Type}

/-- The handler that a message of this version gets to; others are dropped. -/
def WireType.routed (w : WireType α) (m : α) : Incoming :=
  if (w.header m).ver = WIRE_VERSION then w.incoming m else .drop

/-- A whole message, whatever follows it. -/
structure WireType.Delivers (w : WireType α) (m : α) (rest : List UInt8) : Prop where
  kind : (w.serialize m ++ rest)[1]? = some w.kind
  decoded : w.deserialize (w.serialize m ++ rest) = some m
  routed : rxDispatch ((w.serialize m ++ rest).take MAX_PACKET) = w.routed m

/-- A message without its end: nothing decodes, nothing is sent and nothing changes. -/
structure WireType.Rejects (w : WireType α) (cut : List UInt8) : Prop where
  decoded : w.deserialize cut = none
  dropped : ∀ parse cfg src s, s.rx = .listening →
    (node parse cfg).step s (.rxRecv src cut) = some (s, [])

/-- What holds of every message whose header has the kind of its type. -/
structure WireType.Faithful (w : WireType α) (m : α) : Prop where
  width : (w.serialize m).length = w.width
  fits : w.width ≤ MAX_PACKET
  delivers : ∀ rest, w.Delivers m rest
  rejects : ∀ cut, cut <+: w.serialize m → cut ≠ w.serialize m → w.Rejects cut

private theorem take_packet {bytes rest : List UInt8} (hfits : bytes.length ≤ MAX_PACKET) :
    (bytes ++ rest).take MAX_PACKET = bytes ++ rest.take (MAX_PACKET - bytes.length) := by
  rw [List.take_append, List.take_of_length_le hfits]

private theorem getElem?_one_append {bytes rest : List UInt8} {kind : UInt8}
    (h : bytes[1]? = some kind) : (bytes ++ rest)[1]? = some kind := by
  obtain ⟨hlt, _⟩ := List.getElem?_eq_some_iff.mp h
  rw [List.getElem?_append_left hlt, h]

theorem rxDispatch_append_request {req : TimeRequest} (hkind : req.header.kind = MSG_REQ)
    (rest : List UInt8) :
    rxDispatch ((req.serialize ++ rest).take MAX_PACKET) = requestWire.routed req := by
  have hfits : req.serialize.length ≤ MAX_PACKET := by
    rw [TimeRequest.length_serialize]
    decide
  have hbyte := req.serialize_kind
  rw [hkind] at hbyte
  rw [take_packet hfits]
  by_cases hver : req.header.ver = WIRE_VERSION
  · simp [rxDispatch, getElem?_one_append hbyte, WireType.routed, requestWire, hver]
  · simp [rxDispatch, getElem?_one_append hbyte, WireType.routed, requestWire, hver]

theorem rxDispatch_append_response {resp : TimeResponse} (hkind : resp.header.kind = MSG_RESP)
    (rest : List UInt8) :
    rxDispatch ((resp.serialize ++ rest).take MAX_PACKET) = responseWire.routed resp := by
  have hfits : resp.serialize.length ≤ MAX_PACKET := by
    rw [TimeResponse.length_serialize]
    decide
  have hother : MSG_RESP ≠ MSG_REQ := by decide
  have hbyte := resp.serialize_kind
  rw [hkind] at hbyte
  rw [take_packet hfits]
  by_cases hver : resp.header.ver = WIRE_VERSION
  · simp [rxDispatch, getElem?_one_append hbyte, WireType.routed, responseWire, hver, hother]
  · simp [rxDispatch, getElem?_one_append hbyte, WireType.routed, responseWire, hver, hother]

private theorem getElem?_one_of_prefix {cut bytes : List UInt8} {kind : UInt8}
    (hcut : cut <+: bytes) (h : bytes[1]? = some kind) : cut[1]? = none ∨ cut[1]? = some kind := by
  obtain ⟨rest, rfl⟩ := hcut
  by_cases hlt : 1 < cut.length
  · right
    rwa [List.getElem?_append_left hlt] at h
  · left
    exact List.getElem?_eq_none (Nat.le_of_not_lt hlt)

private theorem take_cut {cut bytes : List UInt8} (hcut : cut <+: bytes)
    (hfits : bytes.length ≤ MAX_PACKET) : cut.take MAX_PACKET = cut :=
  List.take_of_length_le (hcut.length_le.trans hfits)

private theorem length_lt_of_cut {cut bytes : List UInt8} (hcut : cut <+: bytes)
    (hne : cut ≠ bytes) : cut.length < bytes.length := by
  by_contra hle
  exact hne (hcut.eq_of_length_le (Nat.le_of_not_lt hle))

private theorem rejects_of_drop {w : WireType α} {cut : List UInt8}
    (hdecoded : w.deserialize cut = none)
    (hdrop : rxDispatch (cut.take MAX_PACKET) = .drop) : w.Rejects cut := by
  refine ⟨hdecoded, ?_⟩
  intro parse cfg src s hlisten
  simp [node, nodeStep, hlisten, hdrop]

private theorem requestWire_rejects {req : TimeRequest} (hkind : req.header.kind = MSG_REQ)
    {cut : List UInt8} (hcut : cut <+: req.serialize) (hne : cut ≠ req.serialize) :
    requestWire.Rejects cut := by
  have hshort := length_lt_of_cut hcut hne
  rw [TimeRequest.length_serialize] at hshort
  have hdecoded := TimeRequest.deserialize_short hshort
  have hbyte := req.serialize_kind
  rw [hkind] at hbyte
  apply rejects_of_drop hdecoded
  rw [take_cut hcut (by rw [TimeRequest.length_serialize]; decide)]
  rcases getElem?_one_of_prefix hcut hbyte with hbyte | hbyte
  · simp [rxDispatch, hbyte]
  · simp [rxDispatch, hbyte, hdecoded]

private theorem responseWire_rejects {resp : TimeResponse} (hkind : resp.header.kind = MSG_RESP)
    {cut : List UInt8} (hcut : cut <+: resp.serialize) (hne : cut ≠ resp.serialize) :
    responseWire.Rejects cut := by
  have hshort := length_lt_of_cut hcut hne
  rw [TimeResponse.length_serialize] at hshort
  have hdecoded := TimeResponse.deserialize_short hshort
  have hother : MSG_RESP ≠ MSG_REQ := by decide
  have hbyte := resp.serialize_kind
  rw [hkind] at hbyte
  apply rejects_of_drop hdecoded
  rw [take_cut hcut (by rw [TimeResponse.length_serialize]; decide)]
  rcases getElem?_one_of_prefix hcut hbyte with hbyte | hbyte
  · simp [rxDispatch, hbyte]
  · simp [rxDispatch, hbyte, hdecoded, hother]

/-- Requests and responses survive the wire, with anything after them, and are dropped when
anything of them is missing. -/
theorem wire_faithful :
    (∀ m : TimeRequest, m.header.kind = MSG_REQ → requestWire.Faithful m) ∧
      ∀ m : TimeResponse, m.header.kind = MSG_RESP → responseWire.Faithful m := by
  constructor
  · intro m hkind
    have hbyte := m.serialize_kind
    rw [hkind] at hbyte
    refine ⟨m.length_serialize, by decide, ?_, fun cut => requestWire_rejects hkind⟩
    intro rest
    exact ⟨getElem?_one_append hbyte, m.deserialize_append rest,
      rxDispatch_append_request hkind rest⟩
  · intro m hkind
    have hbyte := m.serialize_kind
    rw [hkind] at hbyte
    refine ⟨m.length_serialize, by decide, ?_, fun cut => responseWire_rejects hkind⟩
    intro rest
    exact ⟨getElem?_one_append hbyte, m.deserialize_append rest,
      rxDispatch_append_response hkind rest⟩

end Zeitpeer
