import Zeitpeer.Net.Draws

/-!
# Where samples and timeouts come from

Each inserted request belongs to a probe that was sent, each matched response came out of a
received datagram and met a request that was pending at that moment, and each write is one of
the writes its cause allows. The facts are kept for the whole history, so they hold of every
event of a run.
-/

namespace Zeitpeer

open Framework Machine

variable (cfg : Config)

abbrev NodeTurn := Turn NodeState Action Event

/-- A response that the receive loop took from a datagram of `src`. -/
def Received (ts : List NodeTurn) (src : SocketAddr) (resp : TimeResponse) : Prop :=
  ∃ t ∈ ts, ∃ datagram, t.action = .rxRecv src datagram ∧
    rxDispatch (datagram.take MAX_PACKET) = .response resp

/-- An exchange whose request was pending when its response was looked up. -/
structure Matched (ts : List NodeTurn) (e : Exchange) : Prop where
  received : Received ts e.src e.resp
  taken : ∃ t ∈ ts, t.action = .rxTake ∧ t.before.rx = .responseStamped e.src e.resp e.t4 ∧
    t.before.pending.lookup e.resp.header.seq = some e.req
  server : e.req.peerId = e.resp.serverId

/-- The request of a token went out with a probe that this tick was to make. -/
def Probed (parse : String → UInt16 → Option SocketAddr) (es : List Event) (t : Token) : Prop :=
  ∃ probe : Probe, .probed probe (probe.request cfg).serialize ∈ es ∧
    probe.target ∈ probeTargets parse cfg ∧ t = ⟨probe.seq, probe.pending t.2.sentAt⟩

/-- What the receive task holds is backed by the history. -/
def RxOrigin (ts : List NodeTurn) : RxTask → Prop
  | .response src resp => Received ts src resp
  | .responseStamped src resp _ => Received ts src resp
  | .matched e => Matched ts e
  | .storing e ws => Matched ts e ∧ ∃ jitter, ∀ w ∈ ws, w ∈ sampleWrites cfg e jitter
  | _ => True

/-- A write is one that its cause allows. -/
def WriteOrigin (ts : List NodeTurn) (w : TsAdd) : Cause → Prop
  | .reply e => Matched ts e ∧ ∃ jitter, w ∈ sampleWrites cfg e jitter
  | .expiry t => ∃ sys, w = timeoutWrite cfg t.2 sys
  | .service => w.key = .peer cfg.nodeId .serviceLatency

variable {cfg} {parse : String → UInt16 → Option SocketAddr}

private theorem Received.mono {ts us : List NodeTurn} {src : SocketAddr} {resp : TimeResponse}
    (h : Received ts src resp) : Received (ts ++ us) src resp := by
  obtain ⟨t, ht, hrest⟩ := h
  exact ⟨t, List.mem_append_left us ht, hrest⟩

private theorem Matched.mono {ts us : List NodeTurn} {e : Exchange} (h : Matched ts e) :
    Matched (ts ++ us) e := by
  obtain ⟨t, ht, hrest⟩ := h.taken
  exact ⟨h.received.mono, ⟨t, List.mem_append_left us ht, hrest⟩, h.server⟩

private theorem RxOrigin.mono {ts us : List NodeTurn} {rx : RxTask} (h : RxOrigin cfg ts rx) :
    RxOrigin cfg (ts ++ us) rx := by
  cases rx with
  | response => exact Received.mono h
  | responseStamped => exact Received.mono h
  | matched => exact Matched.mono h
  | storing => exact ⟨h.1.mono, h.2⟩
  | _ => trivial

private theorem WriteOrigin.mono {ts us : List NodeTurn} {w : TsAdd} {c : Cause}
    (h : WriteOrigin cfg ts w c) : WriteOrigin cfg (ts ++ us) w c := by
  cases c with
  | reply => exact ⟨h.1.mono, h.2⟩
  | _ => exact h

theorem sampleWrites_key {e : Exchange} {jitter : F64} {w : TsAdd}
    (hw : w ∈ sampleWrites cfg e jitter) : ∃ metric, w.key = .peer e.resp.serverId metric := by
  simp only [sampleWrites, List.mem_cons, List.not_mem_nil, or_false] at hw
  rcases hw with rfl | rfl | rfl | rfl <;> exact ⟨_, rfl⟩

/-- The receive side of the history, with every write it caused. -/
structure Backed (cfg : Config) (ts : List NodeTurn) (s : NodeState) : Prop where
  rx : RxOrigin cfg ts s.rx
  writes : ∀ w c, .tsAdd w c ∈ events ts → WriteOrigin cfg ts w c

private theorem backed_quiet {ts : List NodeTurn} {s s' : NodeState} {a : Action}
    {es : List Event} (h : Backed cfg ts s) (hrx : RxOrigin cfg (ts ++ [⟨s, a, es, s'⟩]) s'.rx)
    (hes : ∀ w c, .tsAdd w c ∈ es → WriteOrigin cfg (ts ++ [⟨s, a, es, s'⟩]) w c) :
    Backed cfg (ts ++ [⟨s, a, es, s'⟩]) s' := by
  refine ⟨hrx, ?_⟩
  intro w c hw
  rcases mem_events_concat.mp hw with hw | hw
  · exact (h.writes w c hw).mono
  · exact hes w c hw

private theorem NodeStep.backed {ts : List NodeTurn} {s s' : NodeState} {a : Action}
    {es : List Event} (hstep : NodeStep parse cfg s a s' es) (h : Backed cfg ts s) :
    Backed cfg (ts ++ [⟨s, a, es, s'⟩]) s' := by
  have hrx := h.rx
  cases hstep with
  | @expire t rest sys htx =>
    refine backed_quiet h hrx.mono ?_
    intro w c hw
    simp only [List.mem_singleton, Event.tsAdd.injEq] at hw
    obtain ⟨rfl, rfl⟩ := hw
    exact ⟨sys, rfl⟩
  | latency sys hrx' =>
    refine backed_quiet h trivial ?_
    intro w c hw
    simp only [List.mem_singleton, Event.tsAdd.injEq] at hw
    obtain ⟨rfl, rfl⟩ := hw
    rfl
  | @store e w rest hrx' =>
    rw [hrx'] at hrx
    obtain ⟨hmatched, jitter, hsub⟩ := hrx
    refine backed_quiet h ?_ ?_
    · cases rest with
      | nil => trivial
      | cons w' rest =>
        exact ⟨hmatched.mono, jitter, fun v hv => hsub v (List.mem_cons_of_mem w hv)⟩
    · intro v c hv
      simp only [List.mem_singleton, Event.tsAdd.injEq] at hv
      obtain ⟨rfl, rfl⟩ := hv
      exact ⟨hmatched.mono, jitter, hsub v List.mem_cons_self⟩
  | runtime hrx' =>
    rw [hrx'] at hrx
    exact backed_quiet h ⟨Matched.mono hrx, _, fun _ hv => hv⟩ (by simp)
  | @«match» src resp t4 req hrx' hsome hid =>
    rw [hrx'] at hrx
    refine backed_quiet h ⟨Received.mono hrx, ?_, hid⟩ (by simp)
    exact ⟨_, List.mem_append_right ts (List.mem_singleton_self _), rfl, hrx', hsome⟩
  | @recvResponse src datagram resp hrx' hresp =>
    refine backed_quiet h ?_ (by simp)
    exact ⟨_, List.mem_append_right ts (List.mem_singleton_self _), datagram, rfl, hresp⟩
  | readT4 phc sys hrx' =>
    rw [hrx'] at hrx
    exact backed_quiet h (Received.mono hrx) (by simp)
  | recvRequest
  | readT2
  | readT3
  | reply
  | replyFailed
  | orphan
  | mismatch => exact backed_quiet h trivial (by simp)
  | _ => exact backed_quiet h hrx.mono (by simp)

theorem run_backed {ts : List NodeTurn} {s : NodeState} (hrun : (node parse cfg).Run {} ts s) :
    Backed cfg ts s :=
  hrun.invariant (I := Backed cfg) ⟨show RxOrigin cfg [] .listening from trivial, by simp⟩
    fun _ _ _ _ _ _ h hstep => (NodeStep.of_step hstep).backed h

/-- The peer entries that the rest of this tick is about. -/
def TxTask.targets : TxTask → List Target
  | .probing todo => todo
  | .sending probe todo => probe.target :: todo
  | .sent probe todo => probe.target :: todo
  | _ => []

/-- The transmit side: what is still to be probed, what is on its way and what was inserted. -/
structure Sourced (parse : String → UInt16 → Option SocketAddr) (cfg : Config)
    (es : List Event) (tx : TxTask) : Prop where
  targets : ∀ target ∈ tx.targets, target ∈ probeTargets parse cfg
  sent : ∀ probe todo, tx = .sent probe todo → .probed probe (probe.request cfg).serialize ∈ es
  inserted : ∀ t ∈ tally Event.inserted? es, Probed cfg parse es t

private theorem Probed.mono {es fs : List Event} {t : Token} (h : Probed cfg parse es t) :
    Probed cfg parse (es ++ fs) t := by
  obtain ⟨probe, hmem, hrest⟩ := h
  exact ⟨probe, List.mem_append_left fs hmem, hrest⟩

private theorem sourced_quiet {es fs : List Event} {tx tx' : TxTask}
    (h : Sourced parse cfg es tx) (htargets : ∀ t ∈ tx'.targets, t ∈ probeTargets parse cfg)
    (hsent : ∀ probe todo, tx' = .sent probe todo →
      .probed probe (probe.request cfg).serialize ∈ es ++ fs)
    (hins : ∀ t ∈ tally Event.inserted? fs, Probed cfg parse (es ++ fs) t) :
    Sourced parse cfg (es ++ fs) tx' := by
  refine ⟨htargets, hsent, ?_⟩
  intro t ht
  rw [tally_append, Multiset.mem_add] at ht
  rcases ht with ht | ht
  · exact (h.inserted t ht).mono
  · exact hins t ht

private theorem sourced_insert {es fs : List Event} {s : NodeState} {probe : Probe}
    {todo : List Target} (h : Sourced parse cfg es s.tx) (htx : s.tx = .sent probe todo)
    (hfs : tally Event.inserted? fs = {⟨probe.seq, probe.pending s.now⟩}) :
    Sourced parse cfg (es ++ fs) (.probing todo) := by
  have hprobed := h.sent probe todo htx
  have htargets := h.targets
  rw [htx] at htargets
  apply sourced_quiet h
  · exact fun t ht => htargets t (List.mem_cons_of_mem _ ht)
  · intro _ _ hne
    contradiction
  · intro t ht
    rw [hfs, Multiset.mem_singleton] at ht
    subst ht
    exact ⟨probe, List.mem_append_left fs hprobed, htargets _ List.mem_cons_self, rfl⟩

private theorem NodeStep.sourced {es fs : List Event} {s s' : NodeState} {a : Action}
    (hstep : NodeStep parse cfg s a s' fs) (h : Sourced parse cfg es s.tx) :
    Sourced parse cfg (es ++ fs) s'.tx := by
  have htargets := h.targets
  cases hstep with
  | insert htx => exact sourced_insert h htx rfl
  | overwrite htx => exact sourced_insert h htx rfl
  | tick htx =>
    exact sourced_quiet h (fun _ ht => ht) (by simp) (by simp)
  | drawFailed htx =>
    rw [htx] at htargets
    exact sourced_quiet h (fun t ht => htargets t (List.mem_cons_of_mem _ ht)) (by simp)
      fun _ ht => absurd ht (Multiset.notMem_zero _)
  | drew t1 htx =>
    rw [htx] at htargets
    exact sourced_quiet h htargets (by simp) fun _ ht => absurd ht (Multiset.notMem_zero _)
  | sendFailed htx =>
    rw [htx] at htargets
    exact sourced_quiet h (fun t ht => htargets t (List.mem_cons_of_mem _ ht)) (by simp)
      fun _ ht => absurd ht (Multiset.notMem_zero _)
  | @sent probe todo htx =>
    rw [htx] at htargets
    refine sourced_quiet h htargets ?_ fun _ ht => absurd ht (Multiset.notMem_zero _)
    intro probe' todo' htx'
    obtain ⟨rfl, rfl⟩ := TxTask.sent.inj htx'
    exact List.mem_append_right es (List.mem_singleton_self _)
  | tickIdle
  | cleanup => exact sourced_quiet h (by simp [TxTask.targets]) (by simp) (by simp)
  | @sweep _ expired =>
    cases expired <;>
      exact sourced_quiet h (by simp [TxTask.targets]) (by simp) (by simp)
  | @expire _ rest =>
    cases rest <;>
      exact sourced_quiet h (by simp [TxTask.targets]) (by simp)
        fun _ ht => absurd ht (Multiset.notMem_zero _)
  | _ =>
    exact sourced_quiet h htargets
      (fun probe todo htx => List.mem_append_left _ (h.sent probe todo htx))
      fun _ ht => absurd ht (Multiset.notMem_zero _)

theorem run_sourced {ts : List NodeTurn} {s : NodeState}
    (hrun : (node parse cfg).Run {} ts s) : Sourced parse cfg (events ts) s.tx := by
  refine hrun.invariant (I := fun ts s => Sourced parse cfg (events ts) s.tx)
    ⟨by simp [TxTask.targets], by simp, by simp⟩ ?_
  intro ts s a s' es _ h hstep
  rw [events_append, events_singleton]
  exact (NodeStep.of_step hstep).sourced h

/-- Every target is an entry of another peer with an address. -/
theorem mem_probeTargets {target : Target} (h : target ∈ probeTargets parse cfg) :
    ∃ p ∈ cfg.peers.filter fun p => p.id ≠ cfg.nodeId, ∃ addr, parse p.ip p.port = some addr ∧
      target = ⟨p.id, addr⟩ := by
  obtain ⟨p, hp, htarget⟩ := List.mem_flatMap.mp h
  cases haddr : parse p.ip p.port with
  | none =>
    rw [haddr] at htarget
    exact absurd htarget List.not_mem_nil
  | some addr =>
    rw [haddr] at htarget
    exact ⟨p, hp, addr, haddr, List.eq_of_mem_replicate htarget⟩

/-- The request that a response has met went out with a probe. -/
theorem Matched.probed {ts : List NodeTurn} {s : NodeState} {e : Exchange}
    (hrun : (node parse cfg).Run {} ts s) (h : Matched ts e) :
    Probed cfg parse (events ts) e.token := by
  obtain ⟨t, ht, _, _, hlook⟩ := h.taken
  obtain ⟨before, rest, rfl⟩ := List.append_of_mem ht
  have hbefore := hrun.middle.1
  have hinserted := inserted_of_pending hbefore hlook
  obtain ⟨probe, hprobed, hrest⟩ := (run_sourced hbefore).inserted _ hinserted
  exact ⟨probe, mem_events_earlier hprobed, hrest⟩

/-- The probe that `send_to` works on or has sent. -/
def TxTask.probe? : TxTask → Option Probe
  | .sending probe _ => some probe
  | .sent probe _ => some probe
  | _ => none

/-- The pass that drew a probe's number also read its time. -/
def Drew (es : List Event) (probe : Probe) : Prop :=
  .drew probe.seq probe.target (some probe.t1) ∈ es

/-- Every probe on its way or sent was drawn with its time, and was sent as its own request. -/
structure Issued (cfg : Config) (es : List Event) (tx : TxTask) : Prop where
  ahead : ∀ probe, tx.probe? = some probe → Drew es probe
  probed : ∀ probe payload, .probed probe payload ∈ es →
    payload = (probe.request cfg).serialize ∧ Drew es probe

private theorem issued_quiet {es fs : List Event} {tx tx' : TxTask} (h : Issued cfg es tx)
    (hahead : ∀ probe, tx'.probe? = some probe → tx.probe? = some probe)
    (hprobed : ∀ probe payload, .probed probe payload ∈ fs →
      payload = (probe.request cfg).serialize ∧ tx.probe? = some probe) :
    Issued cfg (es ++ fs) tx' := by
  refine ⟨fun probe hprobe => List.mem_append_left _ (h.ahead probe (hahead probe hprobe)), ?_⟩
  intro probe payload hmem
  rcases List.mem_append.mp hmem with hmem | hmem
  · obtain ⟨hpayload, hdrew⟩ := h.probed probe payload hmem
    exact ⟨hpayload, List.mem_append_left _ hdrew⟩
  · obtain ⟨hpayload, hprobe⟩ := hprobed probe payload hmem
    exact ⟨hpayload, List.mem_append_left _ (h.ahead probe hprobe)⟩

private theorem NodeStep.issued {es fs : List Event} {s s' : NodeState} {a : Action}
    (hstep : NodeStep parse cfg s a s' fs) (h : Issued cfg es s.tx) :
    Issued cfg (es ++ fs) s'.tx := by
  cases hstep with
  | drew t1 htx =>
    refine ⟨?_, ?_⟩
    · intro probe hprobe
      obtain rfl := Option.some.inj hprobe
      exact List.mem_append_right es (List.mem_singleton_self _)
    · intro probe payload hmem
      have hold : .probed probe payload ∈ es := by simpa using hmem
      obtain ⟨hpayload, hdrew⟩ := h.probed probe payload hold
      exact ⟨hpayload, List.mem_append_left _ hdrew⟩
  | sent htx =>
    apply issued_quiet h
    · intro probe hprobe
      rwa [htx]
    · intro probe payload hmem
      obtain ⟨rfl, rfl⟩ := Event.probed.inj (List.mem_singleton.mp hmem)
      exact ⟨rfl, by rw [htx]; rfl⟩
  | @sweep _ expired =>
    refine issued_quiet h ?_ (by simp)
    cases expired <;> simp [TxTask.probe?]
  | @expire _ rest =>
    refine issued_quiet h ?_ (by simp)
    cases rest <;> simp [TxTask.probe?]
  | tickIdle
  | tick
  | drawFailed
  | sendFailed
  | insert
  | overwrite
  | cleanup => exact issued_quiet h (by simp [TxTask.probe?]) (by simp)
  | _ => exact issued_quiet h (fun _ hprobe => hprobe) (by simp)

theorem run_issued_probes {ts : List NodeTurn} {s : NodeState}
    (hrun : (node parse cfg).Run {} ts s) : Issued cfg (events ts) s.tx := by
  refine hrun.invariant (I := fun ts s => Issued cfg (events ts) s.tx) ⟨?_, by simp⟩ ?_
  · simp [TxTask.probe?]
  · intro ts s a s' es _ h hstep
    rw [events_append, events_singleton]
    exact (NodeStep.of_step hstep).issued h

end Zeitpeer
