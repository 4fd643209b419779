import Zeitpeer.Framework.Machine
import Zeitpeer.Phc.Reader

/-!
# The descriptor of the hardware clock

The reader opens its device at the first call that can, and keeps the descriptor from then on.
A device that does not open is passed over, and the next call tries again; a descriptor that
does not answer is an error of every later call, whatever has become of the device.
-/

namespace Zeitpeer

open Framework Machine

/-- A raw file descriptor. -/
abbrev RawFd := BitVec 32

/-- `clockid_t`. -/
abbrev RawClockId := BitVec 32

def CLOCK_REALTIME : RawClockId := 0
def CLOCK_TAI : RawClockId := 11

def CLOCKFD : RawClockId := 3

def clockidFromFd (fd : RawFd) : RawClockId := (~~~ fd <<< 3) ||| CLOCKFD

example : clockidFromFd 5 = -45 := by decide

/-- What opening the device and reading a clock return to one call. -/
structure Outcomes where
  opened : Option RawFd
  gettime : RawClockId → Option UInt64

structure PhcReader where
  device : Option String
  fd : Option RawFd := none
  openWarned : Bool := false
  deriving DecidableEq, Repr

/-- `phc_clock_id` with the outcome of opening the device. It has no error: an open that
succeeds has left a descriptor. -/
def PhcReader.phcClockId (r : PhcReader) (opened : Option RawFd) :
    PhcReader × Option RawClockId :=
  match r.device, r.fd, opened with
  | none, _, _ => (r, none)
  | some _, some fd, _ => (r, some (clockidFromFd fd))
  | some _, none, some fd => ({ r with fd := some fd }, some (clockidFromFd fd))
  | some _, none, none => ({ r with openWarned := true }, none)

/-- `phc_now_ns`: no result is an error, and no reading is that there is no device. -/
def PhcReader.phcNowNs (r : PhcReader) (o : Outcomes) : PhcReader × Option (Option UInt64) :=
  match r.phcClockId o.opened with
  | (r, some id) => (r, (o.gettime id).map some)
  | (r, none) => (r, some none)

def PhcReader.nowNs (r : PhcReader) (o : Outcomes) : PhcReader × Option UInt64 :=
  match r.phcNowNs o with
  | (r, none) => (r, none)
  | (r, some (some ns)) => (r, some ns)
  | (r, some none) => (r, (o.gettime CLOCK_TAI).or (o.gettime CLOCK_REALTIME))

/-- `phc_system_offset`, with the outcomes at its two readings. -/
def PhcReader.phcSystemOffset (r : PhcReader) (o o' : Outcomes) :
    PhcReader × Option (Option Int) :=
  match r.phcNowNs o with
  | (r, none) => (r, none)
  | (r, some none) => (r, some none)
  | (r, some (some phc)) =>
    (r, (o'.gettime CLOCK_REALTIME).map fun system => some ((phc.toNat : Int) - system.toNat))

inductive ReaderCall where
  | nowNs (o : Outcomes)
  | systemNowNs (o : Outcomes)
  | phcNowNs (o : Outcomes)
  | phcSystemOffset (o o' : Outcomes)

inductive ReaderResult where
  | now (ns : Option UInt64)
  | phc (ns : Option (Option UInt64))
  | offset (ns : Option (Option Int))
  deriving DecidableEq, Repr

def readerStep (r : PhcReader) : ReaderCall → Option (PhcReader × List ReaderResult)
  | .nowNs o => some ((r.nowNs o).1, [.now (r.nowNs o).2])
  | .systemNowNs o => some (r, [.now (o.gettime CLOCK_REALTIME)])
  | .phcNowNs o => some ((r.phcNowNs o).1, [.phc (r.phcNowNs o).2])
  | .phcSystemOffset o o' =>
    some ((r.phcSystemOffset o o').1, [.offset (r.phcSystemOffset o o').2])

def reader : Machine PhcReader ReaderCall ReaderResult := ⟨readerStep⟩

abbrev ReaderTurn := Turn PhcReader ReaderCall ReaderResult

/-- The descriptor that a call would get if it opened the device. -/
def ReaderCall.opened? : ReaderCall → Option RawFd
  | .nowNs o => o.opened
  | .systemNowNs _ => none
  | .phcNowNs o => o.opened
  | .phcSystemOffset o _ => o.opened

/-- The first descriptor that some calls could get. -/
def firstOpened (device : Option String) (calls : List ReaderCall) : Option RawFd :=
  device.bind fun _ => calls.findSome? ReaderCall.opened?

variable {r : PhcReader} {o : Outcomes} {device : Option String}

/-- The descriptor in use: the one that is kept, or else the one that is just opened. -/
def PhcReader.inUse (r : PhcReader) (opened : Option RawFd) : Option RawFd :=
  r.device.bind fun _ => r.fd.or opened

private theorem phcClockId_eq (r : PhcReader) (opened : Option RawFd) :
    (r.phcClockId opened).2 = (r.inUse opened).map clockidFromFd := by
  cases hdevice : r.device <;> cases hfd : r.fd <;> cases opened <;>
    simp [PhcReader.phcClockId, PhcReader.inUse, hdevice, hfd]

private theorem phcNowNs_eq (r : PhcReader) (o : Outcomes) :
    (r.phcNowNs o).2 = match r.inUse o.opened with
      | none => some none
      | some fd => (o.gettime (clockidFromFd fd)).map some := by
  have hid := phcClockId_eq r o.opened
  rw [PhcReader.phcNowNs]
  cases hclock : r.phcClockId o.opened with
  | mk r' id =>
    rw [hclock] at hid
    cases huse : r.inUse o.opened with
    | none => simp_all
    | some fd => simp_all

private theorem nowNs_result (r : PhcReader) (o : Outcomes) :
    (r.nowNs o).2 = match r.inUse o.opened with
      | none => (o.gettime CLOCK_TAI).or (o.gettime CLOCK_REALTIME)
      | some fd => o.gettime (clockidFromFd fd) := by
  have hphc := phcNowNs_eq r o
  rw [PhcReader.nowNs]
  cases hread : r.phcNowNs o with
  | mk r' reading =>
    rw [hread] at hphc
    cases huse : r.inUse o.opened with
    | none => simp_all
    | some fd =>
      cases hfd : o.gettime (clockidFromFd fd) <;> simp_all

/-- What a call finds, seen as the outcomes of one moment: the descriptor in use is the device
that opens. -/
def Outcomes.clocks (o : Outcomes) (r : PhcReader) : Clocks where
  opens := (r.inUse o.opened).isSome
  gettime
    | .realtime => o.gettime CLOCK_REALTIME
    | .tai => o.gettime CLOCK_TAI
    | .phc => (r.inUse o.opened).bind fun fd => o.gettime (clockidFromFd fd)

/-- A call of the reader reads as `now_ns` does at one moment. -/
theorem nowNs_clocks (r : PhcReader) (o : Outcomes) :
    (r.nowNs o).2 = Zeitpeer.nowNs r.device (o.clocks r) := by
  rw [nowNs_result]
  cases hdevice : r.device with
  | none => simp [PhcReader.inUse, Zeitpeer.nowNs, Zeitpeer.phcNowNs, Outcomes.clocks, hdevice,
      fallbackClockId]
  | some path =>
    cases huse : r.inUse o.opened with
    | none => simp [Zeitpeer.nowNs, Zeitpeer.phcNowNs, Outcomes.clocks, huse, fallbackClockId]
    | some fd =>
      cases hread : o.gettime (clockidFromFd fd) <;>
        simp [Zeitpeer.nowNs, Zeitpeer.phcNowNs, Outcomes.clocks, huse, hread]

private theorem phcClockId_fd (r : PhcReader) (opened : Option RawFd) :
    (r.phcClockId opened).1.device = r.device ∧
      r.device.bind (fun _ => (r.phcClockId opened).1.fd) = r.inUse opened := by
  cases hdevice : r.device <;> cases hfd : r.fd <;> cases opened <;>
    simp [PhcReader.phcClockId, PhcReader.inUse, hdevice, hfd]

private theorem phcNowNs_reader (r : PhcReader) (o : Outcomes) :
    (r.phcNowNs o).1 = (r.phcClockId o.opened).1 := by
  rw [PhcReader.phcNowNs]
  split <;> simp_all

private theorem nowNs_reader (r : PhcReader) (o : Outcomes) :
    (r.nowNs o).1 = (r.phcClockId o.opened).1 := by
  rw [← phcNowNs_reader, PhcReader.nowNs]
  split <;> simp_all

private theorem phcSystemOffset_reader (r : PhcReader) (o o' : Outcomes) :
    (r.phcSystemOffset o o').1 = (r.phcClockId o.opened).1 := by
  rw [← phcNowNs_reader, PhcReader.phcSystemOffset]
  split <;> simp_all

private theorem readerStep_fd {r r' : PhcReader} {call : ReaderCall} {es : List ReaderResult}
    (hstep : reader.step r call = some (r', es)) :
    r'.device = r.device ∧ r.device.bind (fun _ => r'.fd) = r.inUse call.opened? := by
  change readerStep r call = some (r', es) at hstep
  cases call with
  | systemNowNs o =>
    obtain ⟨rfl, _⟩ := Prod.mk.inj (Option.some.inj hstep)
    simp [PhcReader.inUse, ReaderCall.opened?]
  | nowNs o =>
    obtain ⟨rfl, _⟩ := Prod.mk.inj (Option.some.inj hstep)
    rw [nowNs_reader]
    exact phcClockId_fd r o.opened
  | phcNowNs o =>
    obtain ⟨rfl, _⟩ := Prod.mk.inj (Option.some.inj hstep)
    rw [phcNowNs_reader]
    exact phcClockId_fd r o.opened
  | phcSystemOffset o o' =>
    obtain ⟨rfl, _⟩ := Prod.mk.inj (Option.some.inj hstep)
    rw [phcSystemOffset_reader]
    exact phcClockId_fd r o.opened

/-- The descriptor that is kept is the first one that any call could get. -/
theorem run_fd {ts : List ReaderTurn} {r : PhcReader}
    (hrun : reader.Run { device := device } ts r) :
    r.device = device ∧
      device.bind (fun _ => r.fd) = firstOpened device (ts.map Turn.action) := by
  induction hrun with
  | start => simp [firstOpened]
  | @turn ts r r' call es _ hstep ih =>
    obtain ⟨hdevice, hfd⟩ := readerStep_fd hstep
    obtain ⟨hsame, hfirst⟩ := ih
    refine ⟨hdevice.trans hsame, ?_⟩
    rw [hsame] at hfd
    rw [hfd, PhcReader.inUse, hsame]
    cases device with
    | none => rfl
    | some path =>
      simp only [firstOpened, Option.bind_some] at hfirst ⊢
      rw [List.map_append, List.findSome?_append, hfirst]
      simp

/-- A call of `now_ns` serves the time: whenever CLOCK_REALTIME is readable it returns a time,
of the system if neither the device nor a kept descriptor of it can be read, and whenever the
device opens and can be read it returns a time of it or of the kept descriptor. -/
structure ServesTime (t : ReaderTurn) : Prop where
  readable : ∀ o, t.action = .nowNs o → (o.gettime CLOCK_REALTIME).isSome = true →
    ∃ ns, t.emitted = [.now (some ns)]
  falls_back : ∀ o, t.action = .nowNs o → (o.gettime CLOCK_REALTIME).isSome = true →
    (∀ fd, t.before.fd = some fd ∨ o.opened = some fd → o.gettime (clockidFromFd fd) = none) →
    t.emitted = [.now ((o.gettime CLOCK_TAI).or (o.gettime CLOCK_REALTIME))]
  used_again : ∀ o, t.action = .nowNs o → t.before.device.isSome = true →
    ∀ fd, o.opened = some fd → (o.gettime (clockidFromFd fd)).isSome = true →
    ∃ fd', (t.before.fd = some fd' ∨ fd' = fd) ∧
      ∃ ns, o.gettime (clockidFromFd fd') = some ns ∧ t.emitted = [.now (some ns)]

/-- Some time is there to be served: CLOCK_REALTIME's, or that of the device if it opens now. -/
def Outcomes.hasTime (device : Option String) (o : Outcomes) : Prop :=
  (o.gettime CLOCK_REALTIME).isSome = true ∨
    device.isSome = true ∧ ∃ fd, o.opened = some fd ∧
      (o.gettime (clockidFromFd fd)).isSome = true

/-- The first descriptor that a call up to this one could get answers this one. -/
def FirstAnswers (device : Option String) (before : List ReaderCall) (call : ReaderCall) : Prop :=
  ∀ o, call = .nowNs o → o.hasTime device →
    ∀ fd, firstOpened device (before ++ [call]) = some fd →
      (o.gettime (clockidFromFd fd)).isSome = true

private theorem inUse_cases {opened : Option RawFd} {fd : RawFd} (h : r.inUse opened = some fd) :
    r.fd = some fd ∨ opened = some fd := by
  cases hdevice : r.device <;> cases hfd : r.fd <;> simp_all [PhcReader.inUse]

private theorem inUse_of_opened (fd : RawFd) (hdevice : r.device.isSome = true) :
    ∃ fd', r.inUse (some fd) = some fd' ∧ (r.fd = some fd' ∨ fd' = fd) := by
  obtain ⟨path, hpath⟩ := Option.isSome_iff_exists.mp hdevice
  cases hfd : r.fd <;> simp [PhcReader.inUse, hpath, hfd]

private theorem emitted_nowNs {t : ReaderTurn} {o : Outcomes}
    (hstep : reader.step t.before t.action = some (t.after, t.emitted))
    (hcall : t.action = .nowNs o) : t.emitted = [.now (t.before.nowNs o).2] := by
  change readerStep t.before t.action = some (t.after, t.emitted) at hstep
  rw [hcall] at hstep
  exact (Prod.mk.inj (Option.some.inj hstep)).2.symm

private theorem ServesTime.answers {t : ReaderTurn} (h : ServesTime t)
    (hstep : reader.step t.before t.action = some (t.after, t.emitted)) {o : Outcomes}
    (hcall : t.action = .nowNs o) (htime : o.hasTime t.before.device) {fd : RawFd}
    (huse : t.before.inUse o.opened = some fd) : (o.gettime (clockidFromFd fd)).isSome = true := by
  have hreturned : ∃ ns, t.emitted = [.now (some ns)] := by
    rcases htime with hreal | ⟨hdevice, fd', hopened, hread⟩
    · exact h.readable o hcall hreal
    · obtain ⟨_, _, ns, _, hns⟩ := h.used_again o hcall hdevice fd' hopened hread
      exact ⟨ns, hns⟩
  obtain ⟨ns, hns⟩ := hreturned
  have hvalue : (t.before.nowNs o).2 = some ns := by
    rw [emitted_nowNs hstep hcall] at hns
    simpa using hns
  have hresult := nowNs_result t.before o
  rw [huse, hvalue] at hresult
  simp [← hresult]

/-- A call serves the time exactly if the descriptor in use answers, wherever there is some time
to be served. -/
private theorem servesTime_iff {t : ReaderTurn}
    (hstep : reader.step t.before t.action = some (t.after, t.emitted)) :
    ServesTime t ↔ ∀ o, t.action = .nowNs o → o.hasTime t.before.device →
      ∀ fd, t.before.inUse o.opened = some fd → (o.gettime (clockidFromFd fd)).isSome = true := by
  refine ⟨fun h o hcall htime fd huse => h.answers hstep hcall htime huse, fun h => ?_⟩
  constructor
  · intro o hcall hreal
    rw [emitted_nowNs hstep hcall, nowNs_result]
    cases huse : t.before.inUse o.opened with
    | none =>
      obtain ⟨ns, hns⟩ := Option.isSome_iff_exists.mp hreal
      cases htai : o.gettime CLOCK_TAI <;> simp [hns]
    | some fd =>
      obtain ⟨ns, hns⟩ := Option.isSome_iff_exists.mp (h o hcall (.inl hreal) fd huse)
      simp [hns]
  · intro o hcall hreal hnone
    rw [emitted_nowNs hstep hcall, nowNs_result]
    cases huse : t.before.inUse o.opened with
    | none => rfl
    | some fd =>
      have hanswers := h o hcall (.inl hreal) fd huse
      rw [hnone fd (inUse_cases huse)] at hanswers
      contradiction
  · intro o hcall hdevice fd hopened hread
    have huse := inUse_of_opened fd hdevice
    rw [← hopened] at huse
    obtain ⟨fd', huse, hwhich⟩ := huse
    obtain ⟨ns, hns⟩ := Option.isSome_iff_exists.mp
      (h o hcall (.inr ⟨hdevice, fd, hopened, hread⟩) fd' huse)
    refine ⟨fd', hwhich, ns, hns, ?_⟩
    rw [emitted_nowNs hstep hcall, nowNs_result, huse]
    simp [hns]

/-- In a run every call serves the time exactly if at each call, as far as there is some time to
be served, the first descriptor that the calls so far could get answers. -/
theorem serves_time_iff {ts : List ReaderTurn} {r : PhcReader}
    (hrun : reader.Run { device := device } ts r) :
    (∀ t ∈ ts, ServesTime t) ↔ ∀ before t after, ts = before ++ t :: after →
      FirstAnswers device (before.map Turn.action) t.action := by
  have hturn : ∀ before t after, ts = before ++ t :: after →
      (ServesTime t ↔ FirstAnswers device (before.map Turn.action) t.action) := by
    rintro before t after rfl
    obtain ⟨hbefore, hstep, hafter⟩ := hrun.middle
    obtain ⟨hdevice, _⟩ := run_fd hbefore
    have hfirst := (run_fd hafter).2
    obtain ⟨_, huse⟩ := readerStep_fd hstep
    rw [hdevice] at huse
    rw [List.map_append, List.map_singleton, huse] at hfirst
    rw [servesTime_iff hstep, FirstAnswers, hdevice, ← hfirst]
    constructor
    · intro h o hcall
      have hopened : t.action.opened? = o.opened := by rw [hcall]; rfl
      rw [hopened]
      exact h o hcall
    · intro h o hcall
      have hopened : t.action.opened? = o.opened := by rw [hcall]; rfl
      rw [← hopened]
      exact h o hcall
  constructor
  · intro h before t after hsplit
    exact (hturn before t after hsplit).mp (h t (hsplit ▸ by simp))
  · intro h t ht
    obtain ⟨before, after, hsplit⟩ := List.append_of_mem ht
    exact (hturn before t after hsplit).mpr (h before t after hsplit)

private theorem not_servesTime {t : ReaderTurn} (hcall : t.action = .nowNs o)
    (hreal : (o.gettime CLOCK_REALTIME).isSome = true) (hnone : t.emitted = [.now none]) :
    ¬ ServesTime t := by
  intro h
  obtain ⟨ns, hns⟩ := h.readable o hcall hreal
  rw [hnone] at hns
  simp at hns

/-- CLOCK_REALTIME answers, and of the descriptors those in the list. -/
def someOutcomes (opened : Option RawFd) (live : List RawFd) : Outcomes where
  opened := opened
  gettime id :=
    if id = CLOCK_REALTIME then some 1700000000
    else if id ∈ live.map clockidFromFd then some 1700000037
    else none

/-- The clock is unplugged after the first call and plugged in again before the third. -/
def replugged : List ReaderCall :=
  [.nowNs (someOutcomes (some 5) [5]), .nowNs (someOutcomes none []),
    .nowNs (someOutcomes (some 6) [6])]

/-- A clock that stays. -/
def plugged : List ReaderCall :=
  [.nowNs (someOutcomes none []), .nowNs (someOutcomes (some 5) [5]),
    .nowNs (someOutcomes (some 6) [5])]

private theorem plugged_firstAnswers {before after : List ReaderCall} {call : ReaderCall}
    (hsplit : plugged = before ++ call :: after) :
    FirstAnswers (some "/dev/ptp0") before call := by
  intro o hcall _ fd hfd
  subst hcall
  rcases before with _ | ⟨first, _ | ⟨second, _ | ⟨third, rest⟩⟩⟩ <;>
    simp only [plugged, List.nil_append, List.cons_append, List.cons.injEq,
      ReaderCall.nowNs.injEq] at hsplit
  · obtain ⟨rfl, _⟩ := hsplit
    contradiction
  · obtain ⟨rfl, rfl, _⟩ := hsplit
    obtain rfl := Option.some.inj hfd
    rfl
  · obtain ⟨rfl, rfl, rfl, _⟩ := hsplit
    obtain rfl := Option.some.inj hfd
    rfl
  · simp at hsplit

theorem serves_time_plugged :
    events (reader.turnsOf { device := some "/dev/ptp0" } plugged) =
        [.now (some 1700000000), .now (some 1700000037), .now (some 1700000037)] ∧
      ∀ t ∈ reader.turnsOf { device := some "/dev/ptp0" } plugged, ServesTime t := by
  refine ⟨by decide, ?_⟩
  have hexec : (reader.exec { device := some "/dev/ptp0" } plugged).isSome = true := by decide
  rw [serves_time_iff (Run.of_actions hexec)]
  intro before t after hsplit
  have hactions := turnsOf_actions hexec
  rw [hsplit, List.map_append, List.map_cons] at hactions
  exact plugged_firstAnswers hactions.symm

/-- After the clock was unplugged every call fails, though CLOCK_REALTIME can be read, and also
the clock when it is there again; so does every call with a device that is no clock. -/
theorem time_not_served :
    (events (reader.turnsOf { device := some "/dev/ptp0" } replugged) =
        [.now (some 1700000037), .now none, .now none] ∧
      ∃ t ∈ reader.turnsOf { device := some "/dev/ptp0" } replugged, ¬ ServesTime t) ∧
    ∃ t ∈ reader.turnsOf { device := some "/dev/null" } [.nowNs (someOutcomes (some 5) [])],
      ¬ ServesTime t :=
  ⟨⟨by decide, _, .tail _ (.head _), not_servesTime rfl rfl rfl⟩, _, .head _,
    not_servesTime rfl rfl rfl⟩

end Zeitpeer
