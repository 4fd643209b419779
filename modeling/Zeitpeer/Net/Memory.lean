import Zeitpeer.Net.Load

/-!
# What a node remembers

The two maps of a node grow through its own probes only. A request in the pending map is not
older than the last sweep allows, and the runtime map has no entry but of the peers that are
probed, whatever datagrams arrive.
-/

namespace Zeitpeer

open Framework Machine

variable {parse : String → UInt16 → Option SocketAddr} {cfg : Config}

/-- A sweep that began at an instant has gone through the pending map. -/
def SweptAt (ts : List NodeTurn) (n : Instant) : Prop :=
  ∃ t ∈ ts, ∃ expired, t.action = .txSweep expired ∧ t.before.tx = .sweeping n

/-- An entry of the map was there before, or this turn has inserted it. -/
theorem NodeStep.pending_origin {s s' : NodeState} {a : Action} {es : List Event}
    (hstep : NodeStep parse cfg s a s' es) {seq : UInt32} {req : PendingRequest}
    (hsome : s'.pending.lookup seq = some req) :
    s.pending.lookup seq = some req ∨ ∃ probe : Probe, req = probe.pending s.now := by
  cases hstep with
  | @insert probe todo htx
  | @overwrite probe todo old htx =>
    by_cases hseq : seq = probe.seq
    · subst hseq
      rw [AList.lookup_insert] at hsome
      exact .inr ⟨probe, (Option.some.inj hsome).symm⟩
    · rw [AList.lookup_insert_ne hseq] at hsome
      exact .inl hsome
  | sweep => exact .inl (Table.lookup_of_retain hsome)
  | mismatch
  | «match» => exact .inl (Table.lookup_of_erase hsome)
  | _ => exact .inl hsome

private theorem NodeStep.swept {s s' : NodeState} {expired : List Token} {es : List Event}
    {n : Instant} (hstep : NodeStep parse cfg s (.txSweep expired) s' es) (htx : s.tx = .sweeping n)
    {seq : UInt32} {req : PendingRequest} (hsome : s'.pending.lookup seq = some req) :
    n ≤ req.sentAt + responseTimeout := by
  cases hstep with
  | sweep htx' =>
    rw [htx] at htx'
    obtain rfl := TxTask.sweeping.inj htx'
    have hkeep := (List.mem_filter.mp (AList.mem_lookup_iff.mp (Option.mem_def.mpr hsome))).2
    simp only [keepPending, Bool.not_eq_true', decide_eq_false_iff_not, not_lt] at hkeep
    exact Nat.sub_le_iff_le_add'.mp hkeep

theorem run_swept {ts : List NodeTurn} {s : NodeState} (hrun : (node parse cfg).Run {} ts s) :
    ∀ n, SweptAt ts n → n ≤ s.now ∧ ∀ seq req, s.pending.lookup seq = some req →
      n ≤ req.sentAt + responseTimeout := by
  refine hrun.invariant (I := fun ts s => ∀ n, SweptAt ts n → n ≤ s.now ∧
    ∀ seq req, s.pending.lookup seq = some req → n ≤ req.sentAt + responseTimeout) ?_ ?_
  · rintro n ⟨t, ht, _⟩
    exact absurd ht List.not_mem_nil
  · rintro ts s a s' es hbefore ih hstep n ⟨t, ht, expired, haction, htx⟩
    have hcases := NodeStep.of_step hstep
    rcases List.mem_append.mp ht with ht | ht
    · obtain ⟨hnow, hold⟩ := ih n ⟨t, ht, expired, haction, htx⟩
      refine ⟨hnow.trans hcases.now_le, ?_⟩
      intro seq req hsome
      rcases hcases.pending_origin hsome with hsome | ⟨probe, rfl⟩
      · exact hold seq req hsome
      · exact hnow.trans (Nat.le_add_right _ _)
    · obtain rfl := List.mem_singleton.mp ht
      obtain rfl : a = .txSweep expired := haction
      exact ⟨((run_clocked hbefore).sweeping n htx).trans hcases.now_le,
        fun _ _ hsome => hcases.swept htx hsome⟩

/-- A peer id that some target has. -/
def Probes (parse : String → UInt16 → Option SocketAddr) (cfg : Config) (id : UInt32) : Prop :=
  ∃ target ∈ probeTargets parse cfg, target.peerId = id

private theorem NodeStep.runtime_origin {s s' : NodeState} {a : Action} {es : List Event}
    (hstep : NodeStep parse cfg s a s' es) {id : UInt32} (hid : id ∈ s'.runtime) :
    id ∈ s.runtime ∨ ∃ e, s.rx = .matched e ∧ id = e.resp.serverId := by
  cases hstep with
  | @runtime e hrx =>
    rcases (AList.mem_insert _).mp hid with hid | hid
    · exact .inr ⟨e, hrx, hid⟩
    · exact .inl hid
  | _ => exact .inl hid

theorem run_runtime {ts : List NodeTurn} {s : NodeState} (hrun : (node parse cfg).Run {} ts s) :
    ∀ id ∈ s.runtime, Probes parse cfg id := by
  refine hrun.invariant (I := fun _ s => ∀ id ∈ s.runtime, Probes parse cfg id) ?_ ?_
  · intro id hid
    exact absurd hid (AList.notMem_empty id)
  · intro ts s a s' es hbefore ih hstep id hid
    rcases (NodeStep.of_step hstep).runtime_origin hid with hid | ⟨e, hrx, rfl⟩
    · exact ih id hid
    · have hmatched := (run_backed hbefore).rx
      rw [hrx] at hmatched
      obtain ⟨probe, _, htarget, htoken⟩ := Matched.probed hbefore hmatched
      refine ⟨probe.target, htarget, ?_⟩
      rw [← hmatched.server]
      exact (congrArg (fun t : Token => t.2.peerId) htoken).symm

private theorem Probes.mem_peers {id : UInt32} (h : Probes parse cfg id) :
    id ∈ cfg.peers.map PeerEntry.id := by
  obtain ⟨target, htarget, rfl⟩ := h
  obtain ⟨p, hp, _, _, rfl⟩ := mem_probeTargets htarget
  exact List.mem_map_of_mem (List.mem_filter.mp hp).1

/-- What the maps of a node hold after a run. -/
structure Remembered (parse : String → UInt16 → Option SocketAddr) (cfg : Config)
    (ts : List NodeTurn) (s : NodeState) : Prop where
  pending : ∀ seq req, s.pending.lookup seq = some req → Probed cfg parse (events ts) ⟨seq, req⟩ ∧
    ∀ n, SweptAt ts n → n ≤ req.sentAt + responseTimeout
  runtime : ∀ id ∈ s.runtime, Probes parse cfg id
  peers : s.runtime.keys.length ≤ cfg.peers.length

/-- In every run a request in the pending map went out with a probe of this node, and no earlier
than the timeout before any sweep; and the runtime map has at most an entry for each peer. -/
theorem memory_bounded {ts : List NodeTurn} {s : NodeState}
    (hrun : (node parse cfg).Run {} ts s) : Remembered parse cfg ts s := by
  have hruntime := run_runtime hrun
  refine ⟨?_, hruntime, ?_⟩
  · intro seq req hsome
    refine ⟨(run_sourced hrun).inserted _ (inserted_of_pending hrun hsome), ?_⟩
    intro n hswept
    exact (run_swept hrun n hswept).2 seq req hsome
  · have hsub : s.runtime.keys ⊆ cfg.peers.map PeerEntry.id := fun id hid =>
      (hruntime id (AList.mem_keys.mpr hid)).mem_peers
    have hle := (s.runtime.keys_nodup.subperm hsub).length_le
    rwa [List.length_map] at hle

theorem memory_bounded_demo :
    Remembered demoParse demoConfig ((node demoParse demoConfig).turnsOf {} demoSample)
        ((node demoParse demoConfig).stateAfter {} demoSample) ∧
      ((node demoParse demoConfig).stateAfter {} demoSample).runtime.keys = [2] :=
  ⟨memory_bounded (Run.of_actions demoSample_runs), by rfl⟩

end Zeitpeer
