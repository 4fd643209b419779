import Zeitpeer.Net.Poller

/-!
# One exchange with a server

How far off a poll can be, which replies it takes, and how long the timestamps last. The three
timestamps of a reply are rounded down and the halving rounds toward zero, so the sample of an
honest server misses by half of the delay and a few nanoseconds. Of a reply only the length and
the second clock reading are looked at.
-/

namespace Zeitpeer

open Framework

variable {cfg : Config} {src : NtpSource}

/-- A server that reads `r2` and `r3` on its clock, and stamps what decodes to these readings
or a nanosecond less. -/
structure HonestReply (t1 : UInt64) (r2 r3 : Int) (resp : List UInt8) : Prop where
  complete : NTP_PACKET_LEN ≤ resp.length
  originate : (resp.drop 24).take 8 = (ntpRequest t1).drop 40 ∨
    (resp.drop 24).take 8 = List.replicate 8 0
  receive : timestampAt resp 32 = some r2 ∨ timestampAt resp 32 = some (r2 - 1)
  transmit : timestampAt resp 40 = some r3 ∨ timestampAt resp 40 = some (r3 - 1)

private theorem ntpRequest_transmit (t1 : UInt64) :
    (ntpRequest t1).drop 40 = encodeNtpTimestamp t1 := by
  rw [ntpRequest]
  exact List.drop_left' (by simp)

private theorem timestampAt_take {resp : List UInt8} {place : Nat}
    (hplace : place + 8 ≤ NTP_PACKET_LEN) :
    timestampAt (resp.take NTP_PACKET_LEN) place = timestampAt resp place := by
  rw [timestampAt, timestampAt, List.drop_take, List.take_take]
  congr 2
  omega

private theorem computeOffsetDelay_rounded {t1 t2 t3 t4 r1 r2 r3 theta : Int}
    (h1 : t1 - 1 ≤ r1 ∧ r1 ≤ t1)
    (h2 : t2 - 1 ≤ r2 ∧ r2 ≤ t2) (h3 : t3 - 1 ≤ r3 ∧ r3 ≤ t3) (hout : t1 ≤ t2 - theta)
    (hback : t3 - theta ≤ t4) :
    -1 ≤ (computeOffsetDelay r1 r2 r3 t4).delayNs ∧
      |2 * ((computeOffsetDelay r1 r2 r3 t4).offsetNs - theta)| ≤
        (computeOffsetDelay r1 r2 r3 t4).delayNs + 4 := by
  have htrunc := abs_le.mp (abs_two_mul_tdiv_two_sub_le ((r2 - r1) + (r3 - t4)))
  simp only [computeOffsetDelay]
  rw [abs_le]
  omega

/-- The sample of an exchange with an honest server misses the difference of the clocks by at
most half of its delay and two nanoseconds. -/
theorem poll_accurate (theta : Int) {s s' : PollerState} {es : List PollerEvent}
    {resp : List UInt8} {c : Clocks} {t1 t4 : UInt64} {r2 r3 : Int}
    (hstep : (poller cfg src).step s (.receive resp c) = some (s', es))
    (htask : s.task = .exchanging t1) (hclock : nowNs cfg.phcDevice c = some t4)
    (hera : InEra t1) (hreply : HonestReply t1 r2 r3 resp)
    (hout : t1.toNat ≤ r2 - theta) (hback : r3 - theta ≤ t4.toNat) :
    ∃ m, es = [.sampled m] ∧ -1 ≤ m.sample.delayNs ∧
      |2 * (m.sample.offsetNs - theta)| ≤ m.sample.delayNs + 4 := by
  have horiginate : ((resp.take NTP_PACKET_LEN).drop 24).take 8 = encodeNtpTimestamp t1 ∨
      ((resp.take NTP_PACKET_LEN).drop 24).take 8 = List.replicate 8 0 := by
    rw [List.drop_take, List.take_take, ← ntpRequest_transmit]
    exact hreply.originate
  obtain ⟨r1, hr1, hlow1, hhigh1⟩ := originate_between hera horiginate
  obtain ⟨v2, hv2, hlow2, hhigh2⟩ :
      ∃ v2, timestampAt resp 32 = some v2 ∧ r2 - 1 ≤ v2 ∧ v2 ≤ r2 := by
    rcases hreply.receive with h | h <;> exact ⟨_, h, by omega, by omega⟩
  obtain ⟨v3, hv3, hlow3, hhigh3⟩ :
      ∃ v3, timestampAt resp 40 = some v3 ∧ r3 - 1 ≤ v3 ∧ v3 ≤ r3 := by
    rcases hreply.transmit with h | h <;> exact ⟨_, h, by omega, by omega⟩
  rw [← timestampAt_take (by decide)] at hv2 hv3
  obtain ⟨sample, hsample, _, hdelay, hoffset⟩ := ntpSample_of_timestamps t1 t4 hr1 hv2 hv3
  have hlen := Nat.not_lt.mpr hreply.complete
  have hemitted : (poller cfg src).step s (.receive resp c) =
      some (s.sampled cfg src sample, [.sampled (measure s sample)]) := by
    simp only [poller, pollerStep, htask, if_neg hlen, hclock, hsample]
  rw [hemitted] at hstep
  obtain ⟨_, rfl⟩ := Prod.mk.inj (Option.some.inj hstep)
  refine ⟨_, rfl, ?_⟩
  simp only [measure, hdelay, hoffset]
  exact computeOffsetDelay_rounded ⟨hlow1, hhigh1⟩ ⟨hlow2, hhigh2⟩ ⟨hlow3, hhigh3⟩ hout hback

/-- A node with one server, which is polled once. -/
def pollConfig : Config :=
  { nodeId := 1
    phcDevice := none
    sampling := { intervalMs := 1000, windowSec := 30 }
    filter := { lambda := 1 / 4, trimRatio := 1 / 10, bestQuantile := 1, minSamplesPerPeer := 1 }
    ntpSources := [{ id := 11, host := "a" }] }

def pollSource : NtpSource := { id := 11, host := "a" }

/-- A machine whose only readable clock is TAI. -/
def taiOnly (ns : UInt64) : Clocks :=
  { opens := false, gettime := fun id => if id = .tai then some ns else none }

def exchangingSince (t1 : UInt64) : PollerState := { task := .exchanging t1 }

/-- The reply of a server 5000 ns ahead, which read its clock twice within 10 ns. -/
def honestPacket : List UInt8 :=
  [0b00100100, 1] ++ List.replicate 22 0 ++ encodeNtpTimestamp 1700000000000000000 ++
    encodeNtpTimestamp 1700000000000005100 ++ encodeNtpTimestamp 1700000000000005110

private theorem honestPacket_sampled :
    ((poller pollConfig pollSource).step (exchangingSince 1700000000000000000)
      (.receive honestPacket (taiOnly 1700000000000000210))).isSome = true := by
  decide +kernel

theorem poll_accurate_demo :
    ∃ s' m, (poller pollConfig pollSource).step (exchangingSince 1700000000000000000)
        (.receive honestPacket (taiOnly 1700000000000000210)) = some (s', [.sampled m]) ∧
      |2 * (m.sample.offsetNs - 5000)| ≤ m.sample.delayNs + 4 := by
  have hreply : HonestReply 1700000000000000000 1700000000000005100 1700000000000005110
      honestPacket :=
    ⟨by decide, .inl (by decide +kernel), .inr (by decide +kernel), .inr (by decide +kernel)⟩
  obtain ⟨⟨s', es⟩, hstep⟩ := Option.isSome_iff_exists.mp honestPacket_sampled
  obtain ⟨m, rfl, _, hoffset⟩ := poll_accurate 5000 hstep rfl rfl (by decide) hreply (by decide)
    (by decide)
  exact ⟨s', m, hstep, hoffset⟩

/-- What an NTP client looks for in the reply to a request of its own. -/
structure ValidReply (t1 : UInt64) (resp : List UInt8) : Prop where
  complete : NTP_PACKET_LEN ≤ resp.length
  mode : (resp.getD 0 0).toNat % 8 = 4
  leap : (resp.getD 0 0).toNat / 64 ≠ 3
  stratum : 1 ≤ (resp.getD 1 0).toNat ∧ (resp.getD 1 0).toNat ≤ 15
  receive : (resp.drop 32).take 8 ≠ List.replicate 8 0
  transmit : (resp.drop 40).take 8 ≠ List.replicate 8 0
  originate : (resp.drop 24).take 8 = (ntpRequest t1).drop 40 ∨
    (resp.drop 24).take 8 = List.replicate 8 0

private theorem timestampAt_some {resp : List UInt8} {place : Nat}
    (hlen : place + 8 ≤ resp.length) : ∃ ns, timestampAt resp place = some ns := by
  have hwhole : ¬ ((resp.drop place).take 8).length < 8 := by
    rw [List.length_take, List.length_drop]
    omega
  rw [timestampAt, decodeNtpTimestamp, if_neg hwhole]
  dsimp only
  split
  · exact ⟨_, rfl⟩
  · exact ⟨_, rfl⟩

private theorem ntpSample_some (t1 t4 : UInt64) {resp : List UInt8}
    (hlen : NTP_PACKET_LEN ≤ resp.length) :
    ∃ sample, ntpSample t1 (resp.take NTP_PACKET_LEN) t4 = some sample := by
  have hwhole : (resp.take NTP_PACKET_LEN).length = NTP_PACKET_LEN := by
    rw [List.length_take]
    omega
  obtain ⟨r1, hr1⟩ := timestampAt_some (hwhole ▸ show 24 + 8 ≤ NTP_PACKET_LEN by decide)
  obtain ⟨r2, hr2⟩ := timestampAt_some (hwhole ▸ show 32 + 8 ≤ NTP_PACKET_LEN by decide)
  obtain ⟨r3, hr3⟩ := timestampAt_some (hwhole ▸ show 40 + 8 ≤ NTP_PACKET_LEN by decide)
  obtain ⟨sample, hsample, _⟩ := ntpSample_of_timestamps t1 t4 hr1 hr2 hr3
  exact ⟨sample, hsample⟩

/-- The reply gives a sample. -/
def TakesReply (cfg : Config) (src : NtpSource) (s : PollerState) (resp : List UInt8) (c : Clocks) :
    Prop :=
  ∃ s' m, (poller cfg src).step s (.receive resp c) = some (s', [.sampled m])

/-- The reply is an error: nothing is written, and what the poller remembers stays. -/
def DropsReply (cfg : Config) (src : NtpSource) (s : PollerState) (resp : List UInt8) (c : Clocks) :
    Prop :=
  (poller cfg src).step s (.receive resp c) = some ({ s with task := .waiting }, [])

private theorem takesReply {s : PollerState} {t1 : UInt64} (htask : s.task = .exchanging t1)
    {resp : List UInt8} {c : Clocks}
    (h : NTP_PACKET_LEN ≤ resp.length ∧ (nowNs cfg.phcDevice c).isSome = true) :
    TakesReply cfg src s resp c := by
  obtain ⟨t4, hclock⟩ := Option.isSome_iff_exists.mp h.2
  obtain ⟨sample, hsample⟩ := ntpSample_some t1 t4 h.1
  refine ⟨s.sampled cfg src sample, measure s sample, ?_⟩
  simp only [poller, pollerStep, htask, if_neg (Nat.not_lt.mpr h.1), hclock, hsample]

private theorem dropsReply {s : PollerState} {t1 : UInt64} (htask : s.task = .exchanging t1)
    {resp : List UInt8} {c : Clocks}
    (h : ¬ (NTP_PACKET_LEN ≤ resp.length ∧ (nowNs cfg.phcDevice c).isSome = true)) :
    DropsReply cfg src s resp c := by
  by_cases hlen : resp.length < NTP_PACKET_LEN
  · simp only [DropsReply, poller, pollerStep, htask, if_pos hlen]
  · have hclock : nowNs cfg.phcDevice c = none := by
      by_contra hread
      exact h ⟨Nat.le_of_not_lt hlen, Option.isSome_iff_ne_none.mpr hread⟩
    simp only [DropsReply, poller, pollerStep, htask, if_neg hlen, hclock]

private theorem DropsReply.not_taken {s : PollerState} {resp : List UInt8} {c : Clocks}
    (h : DropsReply cfg src s resp c) : ¬ TakesReply cfg src s resp c := by
  rintro ⟨s', m, htaken⟩
  rw [DropsReply, htaken] at h
  obtain ⟨_, hevents⟩ := Prod.mk.inj (Option.some.inj h)
  exact absurd hevents (List.cons_ne_nil _ _)

/-- A reply with both server timestamps is taken exactly if it is long enough and the clock can
be read once more; whatever is not taken leaves no trace. -/
theorem poll_takes_iff {s : PollerState} {t1 : UInt64} (htask : s.task = .exchanging t1)
    (resp : List UInt8) (c : Clocks) :
    ((resp.drop 32).take 8 ≠ List.replicate 8 0 → (resp.drop 40).take 8 ≠ List.replicate 8 0 →
      (TakesReply cfg src s resp c ↔
        NTP_PACKET_LEN ≤ resp.length ∧ (nowNs cfg.phcDevice c).isSome = true)) ∧
    (¬ TakesReply cfg src s resp c → DropsReply cfg src s resp c) := by
  by_cases htakes : NTP_PACKET_LEN ≤ resp.length ∧ (nowNs cfg.phcDevice c).isSome = true
  · have htaken : TakesReply cfg src s resp c := takesReply htask htakes
    exact ⟨fun _ _ => iff_of_true htaken htakes, fun hno => absurd htaken hno⟩
  · have hdropped : DropsReply cfg src s resp c := dropsReply htask htakes
    exact ⟨fun _ _ => iff_of_false hdropped.not_taken htakes, fun _ => hdropped⟩

/-- A refusal of an unsynchronised server: the leap indicator is 3, the stratum 0, and the
originate time is not the request's. -/
def refusalPacket : List UInt8 :=
  [0b11100100, 0] ++ List.replicate 22 0 ++ encodeNtpTimestamp 1600000000000000000 ++
    encodeNtpTimestamp 1700000000000005100 ++ encodeNtpTimestamp 1700000000000005110

theorem poll_takes_iff_refusal :
    TakesReply pollConfig pollSource (exchangingSince 1700000000000000000) refusalPacket
      (taiOnly 1700000000000000210) := by
  have htask : (exchangingSince 1700000000000000000).task = .exchanging 1700000000000000000 := rfl
  refine ((poll_takes_iff htask refusalPacket (taiOnly 1700000000000000210)).1 ?_ ?_).mpr ?_
  all_goals decide +kernel

/-- A poll takes a reply that no client should. -/
theorem poll_takes_invalid :
    ¬ ∀ s t1 resp c, s.task = .exchanging t1 → TakesReply pollConfig pollSource s resp c →
      ValidReply t1 resp := by
  intro hvalid
  have htask : (exchangingSince 1700000000000000000).task = .exchanging 1700000000000000000 := rfl
  have htaken : TakesReply pollConfig pollSource (exchangingSince 1700000000000000000)
      refusalPacket (taiOnly 1700000000000000210) := takesReply htask (by decide +kernel)
  have hleap := (hvalid _ _ _ _ htask htaken).leap
  exact absurd hleap (by decide)

/-- The seconds field counts on modulo its width, and the timestamp comes back. -/
def Survives (unixNs : UInt64) : Prop :=
  ofBeBytes ((encodeNtpTimestamp unixNs).take 4) =
      (unixNs.toNat / 1000000000 + NTP_UNIX_TO_1900) % 2 ^ 32 ∧
    (decodeNtpTimestamp (encodeNtpTimestamp unixNs) = some (unixNs.toNat : Int) ∨
      decodeNtpTimestamp (encodeNtpTimestamp unixNs) = some ((unixNs.toNat : Int) - 1))

/-- The field of the instant is all zero, which stands for a missing timestamp. -/
def MarksMissing (unixNs : UInt64) : Prop :=
  (unixNs.toNat / 1000000000 + NTP_UNIX_TO_1900) % 2 ^ 32 = 0 ∧
    unixNs.toNat % 1000000000 * 2 ^ 32 / 1000000000 = 0

instance (unixNs : UInt64) : Decidable (MarksMissing unixNs) :=
  inferInstanceAs (Decidable (_ ∧ _))

/-- Up to the year 2104 a timestamp survives exactly if it is from before the end of the era. -/
theorem timestamp_survives_iff {unixNs : UInt64}
    (hrange : unixNs.toNat / 1000000000 + NTP_UNIX_TO_1900 < 2 ^ 32 + 2 ^ 31) :
    Survives unixNs ↔ InEra unixNs := by
  constructor
  · rintro ⟨hseconds, _⟩
    rw [encodeNtpTimestamp_seconds] at hseconds
    rw [InEra]
    omega
  · intro hera
    obtain ⟨ns, hdecode, hlow, hhigh⟩ := decode_encode_between hera
    constructor
    · rw [encodeNtpTimestamp_seconds, Nat.mod_eq_of_lt hera]
      rw [InEra] at hera
      omega
    · have hexact : ns = unixNs.toNat ∨ ns = (unixNs.toNat : Int) - 1 := by omega
      rw [hdecode]
      rcases hexact with rfl | rfl
      · exact .inl rfl
      · exact .inr rfl

theorem timestamp_survives_today : Survives 1700000000123456789 :=
  (timestamp_survives_iff (by decide)).mpr (by decide)

/-- Two seconds into the next era the timestamp is that of the last second of this one. -/
theorem timestamp_lost :
    ¬ ∀ unixNs : UInt64, unixNs.toNat / 1000000000 + NTP_UNIX_TO_1900 < 2 ^ 32 + 2 ^ 31 →
      ¬ MarksMissing unixNs → Survives unixNs := by
  intro hsurvives
  obtain ⟨_, hdecoded⟩ := hsurvives 2085978498000000000 (by decide) (by decide)
  revert hdecoded
  decide +kernel

end Zeitpeer
