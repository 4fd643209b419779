import Zeitpeer.Config
import Zeitpeer.Framework.Codec
import Zeitpeer.Time.Calc
import Mathlib.Data.Nat.GCD.Basic

/-!
# One exchange with an NTP server

Timestamps are 32.32 fixed-point seconds since 1900. Encoding and decoding both round down, so
a reading that goes over the wire and back loses at most one nanosecond, until the seconds no
longer fit in 32 bits.
-/

namespace Zeitpeer

open Framework

def NTP_PACKET_LEN : Nat := 48
def NTP_UNIX_TO_1900 : Nat := 2208988800
def NTP_DEFAULT_WEIGHT : F64 := 1 / 5

structure NtpSample where
  timestampNs : UInt64
  offsetNs : Int
  delayNs : Int
  stratum : UInt8
  remoteTimeNs : Int
  deriving DecidableEq, Repr

/-- Seconds that no longer fit are written as the largest ones. -/
def encodeNtpTimestamp (unixNs : UInt64) : List UInt8 :=
  let ntpSec := unixNs.toNat / 1000000000 + NTP_UNIX_TO_1900
  let frac := unixNs.toNat % 1000000000 * 2 ^ 32 / 1000000000
  beBytes 4 (min ntpSec (2 ^ 32 - 1)) ++ beBytes 4 frac

def decodeNtpTimestamp (buf : List UInt8) : Option Int :=
  if buf.length < 8 then none
  else
    let secs := ofBeBytes (buf.take 4)
    let frac := ofBeBytes ((buf.drop 4).take 4)
    if secs = 0 ∧ frac = 0 then some 0
    else
      some (((secs : Int) - NTP_UNIX_TO_1900) * 1000000000 + (frac * 1000000000 / 2 ^ 32 : Nat))

/-- The packet of a request: version 4, client mode, and the transmit timestamp. -/
def ntpRequest (t1 : UInt64) : List UInt8 :=
  [0b00100011] ++ List.replicate 39 0 ++ encodeNtpTimestamp t1

def timestampAt (resp : List UInt8) (at_ : Nat) : Option Int :=
  decodeNtpTimestamp ((resp.drop at_).take 8)

/-- The part of `poll_once` that follows the second clock reading. -/
def ntpSample (t1 : UInt64) (resp : List UInt8) (t4 : UInt64) : Option NtpSample := do
  let t1Remote ← timestampAt resp 24
  let t2Remote ← timestampAt resp 32
  let t3Remote ← timestampAt resp 40
  -- some servers leave the originate field empty
  let t1Used := if t1Remote = 0 then (t1.toNat : Int) else t1Remote
  let pair := computeOffsetDelay t1Used t2Remote t3Remote t4.toNat
  some
    { timestampNs := t4
      offsetNs := pair.offsetNs
      delayNs := pair.delayNs
      stratum := resp.getD 1 0
      remoteTimeNs := t3Remote }

/-- A sample is stamped with the second reading. -/
theorem ntpSample_timestamp {t1 t4 : UInt64} {resp : List UInt8} {sample : NtpSample}
    (h : ntpSample t1 resp t4 = some sample) : sample.timestampNs = t4 := by
  obtain ⟨r1, _, h⟩ := Option.bind_eq_some_iff.mp h
  obtain ⟨r2, _, h⟩ := Option.bind_eq_some_iff.mp h
  obtain ⟨r3, _, h⟩ := Option.bind_eq_some_iff.mp h
  rw [← Option.some.inj h]

/-- The seconds of a reading still fit in the timestamp. -/
def InEra (unixNs : UInt64) : Prop := unixNs.toNat / 1000000000 + NTP_UNIX_TO_1900 < 2 ^ 32

instance (unixNs : UInt64) : Decidable (InEra unixNs) := inferInstanceAs (Decidable (_ < _))

@[simp] theorem length_encodeNtpTimestamp (unixNs : UInt64) :
    (encodeNtpTimestamp unixNs).length = 8 := by
  simp [encodeNtpTimestamp]

/-- Scaling up and back down, rounding down twice, loses a unit unless the first quotient is
exact. -/
private theorem rescale_eq {x a b : Nat} (ha : 0 < a) (hab : a ≤ b) :
    x * b / a * a / b = if a ∣ x * b then x else x - 1 := by
  have hb : 0 < b := ha.trans_le hab
  by_cases hdvd : a ∣ x * b
  · rw [if_pos hdvd, Nat.div_mul_cancel hdvd, Nat.mul_div_cancel x hb]
  · have hrest : 0 < x * b % a := Nat.pos_of_ne_zero fun h => hdvd (Nat.dvd_of_mod_eq_zero h)
    have hsmall := Nat.mod_lt (x * b) ha
    have hsplit := Nat.div_add_mod' (x * b) a
    obtain ⟨y, rfl⟩ : ∃ y, x = y + 1 := by
      apply Nat.exists_eq_add_one_of_ne_zero
      rintro rfl
      simp at hdvd
    rw [if_neg hdvd, Nat.add_sub_cancel]
    rw [Nat.add_mul, Nat.one_mul] at hsplit hrest hsmall ⊢
    apply Nat.div_eq_of_lt_le
    · omega
    · rw [Nat.succ_mul]
      omega

/-- The seconds field saturates. -/
theorem encodeNtpTimestamp_seconds (unixNs : UInt64) :
    ofBeBytes ((encodeNtpTimestamp unixNs).take 4) =
      min (unixNs.toNat / 1000000000 + NTP_UNIX_TO_1900) (2 ^ 32 - 1) := by
  have hfits : min (unixNs.toNat / 1000000000 + NTP_UNIX_TO_1900) (2 ^ 32 - 1) < 256 ^ 4 := by
    omega
  rw [encodeNtpTimestamp, List.take_left' (length_beBytes _ _), ofBeBytes_beBytes hfits]

private theorem ofBeBytes_encode {unixNs : UInt64} (hera : InEra unixNs) :
    ofBeBytes (encodeNtpTimestamp unixNs) =
      (unixNs.toNat + NTP_UNIX_TO_1900 * 10 ^ 9) * 2 ^ 32 / 10 ^ 9 := by
  have hseconds := encodeNtpTimestamp_seconds unixNs
  have hfrac : unixNs.toNat % 1000000000 * 2 ^ 32 / 1000000000 < 256 ^ 4 := by omega
  rw [encodeNtpTimestamp, List.take_left' (length_beBytes _ _)] at hseconds
  rw [encodeNtpTimestamp, ofBeBytes_append, hseconds, ofBeBytes_beBytes hfrac, length_beBytes]
  rw [InEra] at hera
  omega

private theorem decode_eq {buf : List UInt8} (hlength : buf.length = 8) (hne : ofBeBytes buf ≠ 0) :
    decodeNtpTimestamp buf = some
      (((ofBeBytes buf * 10 ^ 9 / 2 ^ 32 : Nat) : Int) - (NTP_UNIX_TO_1900 * 10 ^ 9 : Nat)) := by
  have hsplit := ofBeBytes_append (buf.take 4) (buf.drop 4)
  have hfrac := ofBeBytes_lt (buf.drop 4)
  rw [List.take_append_drop] at hsplit
  have hdrop : (buf.drop 4).length = 4 := by simp [hlength]
  rw [hdrop] at hsplit hfrac
  rw [decodeNtpTimestamp, if_neg (by omega), List.take_of_length_le hdrop.le]
  simp only
  rw [if_neg (by omega)]
  congr 1
  push_cast
  omega

private theorem fraction_exact_iff (ns secs : Nat) :
    10 ^ 9 ∣ (ns + secs * 10 ^ 9) * 2 ^ 32 ↔ 5 ^ 9 ∣ ns % 10 ^ 9 := by
  have hten : (10 : Nat) ^ 9 = 5 ^ 9 * 2 ^ 9 := by norm_num
  have hodd : 10 ^ 9 ∣ (ns + secs * 10 ^ 9) * 2 ^ 32 ↔ 5 ^ 9 ∣ (ns + secs * 10 ^ 9) * 2 ^ 23 := by
    have hpow : (2 : Nat) ^ 32 = 2 ^ 23 * 2 ^ 9 := by norm_num
    rw [hten, hpow, ← Nat.mul_assoc]
    exact Nat.mul_dvd_mul_iff_right (by norm_num)
  have hcoprime : Nat.Coprime (5 ^ 9) (2 ^ 23) := Nat.Coprime.pow _ _ (by decide)
  have hbase : 5 ^ 9 ∣ 10 ^ 9 := hten ▸ Nat.dvd_mul_right _ _
  rw [hodd, hcoprime.dvd_mul_right, Nat.dvd_add_left (hbase.mul_left secs), Nat.dvd_mod_iff hbase]

private theorem decode_encode {unixNs : UInt64} (hera : InEra unixNs) :
    decodeNtpTimestamp (encodeNtpTimestamp unixNs) =
      some (if 5 ^ 9 ∣ unixNs.toNat % 10 ^ 9 then (unixNs.toNat : Int) else unixNs.toNat - 1) := by
  have hnumber := ofBeBytes_encode hera
  have hne : ofBeBytes (encodeNtpTimestamp unixNs) ≠ 0 := by
    rw [hnumber, NTP_UNIX_TO_1900]
    omega
  have hexact := fraction_exact_iff unixNs.toNat NTP_UNIX_TO_1900
  have hscale := rescale_eq (x := unixNs.toNat + NTP_UNIX_TO_1900 * 10 ^ 9) (a := 10 ^ 9)
    (b := 2 ^ 32) (by norm_num) (by norm_num)
  rw [decode_eq (length_encodeNtpTimestamp unixNs) hne, hnumber, hscale]
  simp only [hexact]
  by_cases hdvd : 5 ^ 9 ∣ unixNs.toNat % 10 ^ 9
  · rw [if_pos hdvd, if_pos hdvd, Nat.cast_add, add_sub_cancel_right]
  · have hpos : 0 < NTP_UNIX_TO_1900 * 10 ^ 9 := by decide
    rw [if_neg hdvd, if_neg hdvd]
    generalize NTP_UNIX_TO_1900 * 10 ^ 9 = shift at hpos
    apply congrArg some
    omega

theorem decode_encode_between {unixNs : UInt64} (hera : InEra unixNs) :
    ∃ ns, decodeNtpTimestamp (encodeNtpTimestamp unixNs) = some ns ∧
      (unixNs.toNat : Int) - 1 ≤ ns ∧ ns ≤ unixNs.toNat := by
  refine ⟨_, decode_encode hera, ?_⟩
  split <;> omega

private theorem ofBeBytes_encode_lt {t t' : UInt64} (hlt : t < t') (hera : InEra t') :
    ofBeBytes (encodeNtpTimestamp t) < ofBeBytes (encodeNtpTimestamp t') := by
  have hnat : t.toNat < t'.toNat := UInt64.lt_iff_toNat_lt.mp hlt
  have hera' : InEra t := by
    rw [InEra] at hera ⊢
    omega
  rw [ofBeBytes_encode hera, ofBeBytes_encode hera']
  omega

private theorem decode_mono {buf buf' : List UInt8} (hlength : buf.length = 8)
    (hlength' : buf'.length = 8)
    (hne : buf ≠ List.replicate 8 0) (hle : ofBeBytes buf ≤ ofBeBytes buf') :
    ∃ ns ns', decodeNtpTimestamp buf = some ns ∧ decodeNtpTimestamp buf' = some ns' ∧
      ns ≤ ns' := by
  have hpos : ofBeBytes buf ≠ 0 := by
    intro hzero
    rw [← hlength] at hne
    exact hne (ofBeBytes_eq_zero hzero)
  refine ⟨_, _, decode_eq hlength hpos, decode_eq hlength' (by omega), ?_⟩
  have hscaled := Nat.div_le_div_right (c := 2 ^ 32) (Nat.mul_le_mul_right (10 ^ 9) hle)
  omega

/-- Within the era a reading comes back whole if its nanoseconds are a multiple of 5^9 and a
nanosecond early otherwise; encoding is strictly increasing, and so is decoding but for steps that
get lost, on all fields except the empty one. -/
theorem ntp_timestamp_loss :
    (∀ t : UInt64, t.toNat / 10 ^ 9 < 2085978496 →
      decodeNtpTimestamp (encodeNtpTimestamp t) =
        some (if 5 ^ 9 ∣ t.toNat % 10 ^ 9 then (t.toNat : Int) else t.toNat - 1)) ∧
    (∀ t t' : UInt64, t < t' → t'.toNat / 10 ^ 9 < 2085978496 →
      ofBeBytes (encodeNtpTimestamp t) < ofBeBytes (encodeNtpTimestamp t')) ∧
    ∀ buf buf' : List UInt8, buf.length = 8 → buf'.length = 8 → buf ≠ List.replicate 8 0 →
      buf' ≠ List.replicate 8 0 → ofBeBytes buf ≤ ofBeBytes buf' →
      ∃ ns ns', decodeNtpTimestamp buf = some ns ∧ decodeNtpTimestamp buf' = some ns' ∧
        ns ≤ ns' := by
  have hera : ∀ t : UInt64, t.toNat / 10 ^ 9 < 2085978496 → InEra t := by
    intro t ht
    rw [InEra, NTP_UNIX_TO_1900]
    omega
  refine ⟨?_, ?_, ?_⟩
  · intro t ht
    exact decode_encode (hera t ht)
  · intro t t' hlt ht'
    exact ofBeBytes_encode_lt hlt (hera t' ht')
  · intro buf buf' hlength hlength' hne _ hle
    exact decode_mono hlength hlength' hne hle

/-- A nanosecond is lost on the way. -/
example : decodeNtpTimestamp (encodeNtpTimestamp 1700000000123456789) =
    some 1700000000123456788 := by
  decide +kernel

/-- The first second after the era comes back as the last one of it. -/
example : decodeNtpTimestamp (encodeNtpTimestamp 2085978496000000000) =
    some 2085978495000000000 := by
  decide +kernel

/-- The originate field echoes the request or is left empty, and the other two are the
server's readings. -/
structure ExactReply (t1 t2 t3 : UInt64) (resp : List UInt8) : Prop where
  originate : (resp.drop 24).take 8 = encodeNtpTimestamp t1 ∨
    (resp.drop 24).take 8 = List.replicate 8 0
  receive : (resp.drop 32).take 8 = encodeNtpTimestamp t2
  transmit : (resp.drop 40).take 8 = encodeNtpTimestamp t3

/-- The originate time that enters the equations is the one that the request carried, or a
nanosecond less. -/
theorem originate_between {t1 : UInt64} {resp : List UInt8} (hera : InEra t1)
    (horiginate : (resp.drop 24).take 8 = encodeNtpTimestamp t1 ∨
      (resp.drop 24).take 8 = List.replicate 8 0) :
    ∃ r1, timestampAt resp 24 = some r1 ∧
      (t1.toNat : Int) - 1 ≤ (if r1 = 0 then (t1.toNat : Int) else r1) ∧
      (if r1 = 0 then (t1.toNat : Int) else r1) ≤ t1.toNat := by
  rcases horiginate with hecho | hzero
  · obtain ⟨r1, hr1, hlow1, hhigh1⟩ := decode_encode_between hera
    refine ⟨r1, by rw [timestampAt, hecho, hr1], ?_⟩
    by_cases h0 : r1 = 0
    · rw [if_pos h0]
      omega
    · rw [if_neg h0]
      exact ⟨hlow1, hhigh1⟩
  · refine ⟨0, by rw [timestampAt, hzero]; rfl, ?_⟩
    rw [if_pos rfl]
    omega

/-- The sample of a reply whose three timestamps decode, with the originate time it uses. -/
theorem ntpSample_of_timestamps (t1 t4 : UInt64) {resp : List UInt8} {r1 r2 r3 : Int}
    (h1 : timestampAt resp 24 = some r1) (h2 : timestampAt resp 32 = some r2)
    (h3 : timestampAt resp 40 = some r3) :
    ∃ sample, ntpSample t1 resp t4 = some sample ∧ sample.timestampNs = t4 ∧
      sample.delayNs = (computeOffsetDelay (if r1 = 0 then (t1.toNat : Int) else r1) r2 r3
        t4.toNat).delayNs ∧
      sample.offsetNs = (computeOffsetDelay (if r1 = 0 then (t1.toNat : Int) else r1) r2 r3
        t4.toNat).offsetNs := by
  simp only [ntpSample, h1, h2, h3, Option.bind_eq_bind, Option.bind_some]
  exact ⟨_, rfl, rfl, rfl, rfl⟩

/-- Over a symmetric path the offset is the server's clock minus the client's, up to the
rounding of the timestamps. -/
theorem ntpSample_offset {t1 t2 t3 t4 : UInt64} {resp : List UInt8} {ahead : Int}
    (hreply : ExactReply t1 t2 t3 resp) (h1 : InEra t1) (h2 : InEra t2) (h3 : InEra t3)
    (hpath : (t2.toNat : Int) - (t1.toNat - ahead) = (t4.toNat - ahead) - t3.toNat) :
    ∃ sample, ntpSample t1 resp t4 = some sample ∧ sample.timestampNs = t4 ∧
      -ahead - 1 ≤ sample.offsetNs ∧ sample.offsetNs ≤ -ahead + 1 := by
  obtain ⟨r2, hr2, hlow2, hhigh2⟩ := decode_encode_between h2
  obtain ⟨r3, hr3, hlow3, hhigh3⟩ := decode_encode_between h3
  obtain ⟨r1, hr1, hlow1, hhigh1⟩ := originate_between h1 hreply.originate
  have hr2' : timestampAt resp 32 = some r2 := by rw [timestampAt, hreply.receive, hr2]
  have hr3' : timestampAt resp 40 = some r3 := by rw [timestampAt, hreply.transmit, hr3]
  obtain ⟨sample, hsample, htimestamp, _, hoffset⟩ := ntpSample_of_timestamps t1 t4 hr1 hr2' hr3'
  refine ⟨sample, hsample, htimestamp, ?_⟩
  rw [hoffset]
  simp only [computeOffsetDelay]
  generalize (if r1 = 0 then (t1.toNat : Int) else r1) = used at hlow1 hhigh1
  have htrunc := abs_le.mp (abs_two_mul_tdiv_two_sub_le ((r2 - used) + (r3 - t4.toNat)))
  constructor <;> omega

end Zeitpeer
