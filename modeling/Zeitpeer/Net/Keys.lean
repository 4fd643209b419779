import Zeitpeer.Net.Site

/-!
# The keys of a node

Every part of a node reads and writes under keys that its configuration gives, and a key names
what has been measured and not who has measured it: two nodes that share no peer and no server
keep out of what the other's iterations and comparisons read.
-/

namespace Zeitpeer

open Framework Machine Ensemble

variable {parse : String → UInt16 → Option SocketAddr} {cfg : Config}

private theorem mem_comparedKeys {src : NtpSource} {key : StoreKey}
    (hkey : key ∈ (comparedKeys cfg src).map StoreKey.hash) :
    ∃ n ∈ cfg.ntpSources, .hash (.ntpSummary n.id) = key := by
  obtain ⟨hash, hcompared, rfl⟩ := List.mem_map.mp hkey
  obtain ⟨id, hid, rfl⟩ := List.mem_map.mp hcompared
  obtain ⟨n, hn, rfl⟩ := List.mem_map.mp (List.mem_filter.mp hid).1
  exact ⟨n, hn, rfl⟩

/-- The keys under which a part reads. -/
def Part.reads (cfg : Config) : PartOf cfg → List StoreKey
  | .node => []
  | .fusion => (sources cfg).flatMap fun src => src.readKeys.map .series
  | .poller k => (comparedKeys cfg (cfg.ntpSources.get k)).map .hash
  | .handler _ => (metricsQueries cfg).map Query.key

/-- The keys of all parts. -/
def storeReads (cfg : Config) : List StoreKey :=
  ((sources cfg).flatMap fun src => src.readKeys.map .series) ++
    (cfg.ntpSources.map fun n => .hash (.ntpSummary n.id)) ++ (metricsQueries cfg).map Query.key

theorem mem_storeReads {i : PartOf cfg} {key : StoreKey} (hkey : key ∈ i.reads cfg) :
    key ∈ storeReads cfg := by
  cases i with
  | node => exact absurd hkey List.not_mem_nil
  | fusion => exact List.mem_append_left _ (List.mem_append_left _ hkey)
  | handler k => exact List.mem_append_right _ hkey
  | poller k =>
    obtain ⟨n, hn, rfl⟩ := mem_comparedKeys hkey
    exact List.mem_append_left _ (List.mem_append_right _ (List.mem_map.mpr ⟨n, hn, rfl⟩))

/-- Every read of a part is under one of its keys. -/
theorem read_mem {i : PartOf cfg} {ts : List (Turn i.State i.Action i.Event)} {s s' : i.State}
    {a : i.Action} {es : List i.Event} (hrun : (i.machine parse cfg).Run (i.init cfg) ts s)
    (hstep : (i.machine parse cfg).step s a = some (s', es)) {r : StoreRead}
    (hread : i.read? a = some r) : r.key ∈ i.reads cfg := by
  cases i with
  | node => contradiction
  | fusion =>
    cases a with
    | recent key since limit reply =>
      cases reply with
      | none => contradiction
      | some entries =>
        obtain rfl := Option.some.inj hread
        obtain ⟨hreads, _⟩ := fusionStep_recent hstep
        obtain ⟨src, hsrc, hkey⟩ := FusionTask.reads_mem hreads
        apply List.mem_flatMap.mpr
        exact ⟨src, (run_ahead hrun).subset hsrc, List.mem_map_of_mem hkey⟩
    | _ => contradiction
  | poller k =>
    obtain ⟨_, _, rfl, _⟩ | ⟨key, reply, rfl, _, hkey, _⟩ := comparing_cases hstep
    · contradiction
    · cases reply with
      | none => contradiction
      | some fields =>
        obtain rfl := Option.some.inj hread
        exact List.mem_map_of_mem (List.mem_of_getElem? hkey)
  | handler k =>
    obtain ⟨q, hq, hkey⟩ := (HandlerStep.of_step hstep).query (run_asks hrun) hread
    exact List.mem_map.mpr ⟨q, hq, hkey⟩

/-- The keys under which a part writes. -/
def Part.owns (cfg : Config) : PartOf cfg → StoreKey → Prop
  | .node, .series key => key = .peer cfg.nodeId .serviceLatency ∨
      ∃ p ∈ cfg.peers, p.id ≠ cfg.nodeId ∧ ∃ metric, key = .peer p.id metric
  | .fusion, .series key => Task.owns cfg .fusion key = true
  | .fusion, .hash key => filesUnder cfg key = true
  | .poller k, .series key => ∃ metric, key = .ntp (cfg.ntpSources.get k).id metric
  | .poller k, .hash key => key = .ntpSummary (cfg.ntpSources.get k).id
  | _, _ => False

/-- In every run of a part its writes are under its own keys. -/
theorem part_owns {i : PartOf cfg} {ts : List (Turn i.State i.Action i.Event)} {s : i.State}
    (hrun : (i.machine parse cfg).Run (i.init cfg) ts s) {e : i.Event} (he : e ∈ events ts)
    {w : StoreWrite} (hw : i.write? e = some w) : i.owns cfg w.key := by
  cases i with
  | node =>
    cases e with
    | tsAdd w c =>
      obtain rfl := Option.some.inj hw
      exact run_peerKeys hrun he
    | _ => contradiction
  | fusion =>
    cases e with
    | tsAdd w =>
      obtain rfl := Option.some.inj hw
      exact (run_publishesOwn hrun).2 w he
    | hmSet h =>
      obtain rfl := Option.some.inj hw
      exact (run_namesSources hrun).2 h he
    | _ => contradiction
  | poller k =>
    obtain ⟨hus, hevents⟩ := run_own hrun
    rw [← hevents] at he
    cases e with
    | tsAdd w =>
      obtain rfl := Option.some.inj hw
      exact (run_serverKeys hus).2 w he
    | hmSet h =>
      obtain rfl := Option.some.inj hw
      exact run_pollerSummary hus he
    | _ => contradiction
  | handler k => contradiction

def Part.isHandler {n : Nat} : Part n → Bool
  | .handler _ => true
  | _ => false

/-- No peer that both of them probe, and no server that both of them poll. -/
structure Apart (cfg cfg' : Config) : Prop where
  peers : ∀ p ∈ cfg.peers, p.id ≠ cfg.nodeId → ∀ p' ∈ cfg'.peers, p'.id ≠ cfg'.nodeId → p.id ≠ p'.id
  servers : ∀ n ∈ cfg.ntpSources, ∀ n' ∈ cfg'.ntpSources, n.id ≠ n'.id

/-- The iterations read the measurements of the sources, and the comparisons the summaries of
the servers. -/
private theorem loop_reads {i : PartOf cfg} (hloop : i.isHandler = false) {key : StoreKey}
    (hkey : key ∈ i.reads cfg) :
    (∃ p ∈ cfg.peers, p.id ≠ cfg.nodeId ∧ ∃ metric ≠ .serviceLatency,
      key = .series (.peer p.id metric)) ∨
      ∃ n ∈ cfg.ntpSources, key = .hash (.ntpSummary n.id) ∨
        ∃ metric, key = .series (.ntp n.id metric) := by
  cases i with
  | node => exact absurd hkey List.not_mem_nil
  | handler k => contradiction
  | poller k =>
    obtain ⟨n, hn, rfl⟩ := mem_comparedKeys hkey
    exact .inr ⟨n, hn, .inl rfl⟩
  | fusion =>
    obtain ⟨src, hsrc, hmem⟩ := List.mem_flatMap.mp hkey
    obtain ⟨series, hseries, rfl⟩ := List.mem_map.mp hmem
    simp only [Source.readKeys, List.mem_cons, List.not_mem_nil, or_false] at hseries
    rcases List.mem_append.mp hsrc with hsrc | hsrc
    · obtain ⟨p, hp, rfl⟩ := List.mem_map.mp hsrc
      obtain ⟨hp, hother⟩ := List.mem_filter.mp hp
      refine .inl ⟨p, hp, of_decide_eq_true hother, ?_⟩
      rcases hseries with rfl | rfl | rfl
      · exact ⟨.offset, by decide, rfl⟩
      · exact ⟨.delay, by decide, rfl⟩
      · exact ⟨.jitter, by decide, rfl⟩
    · obtain ⟨n, hn, rfl⟩ := List.mem_map.mp hsrc
      refine .inr ⟨n, hn, .inr ?_⟩
      rcases hseries with rfl | rfl | rfl <;> exact ⟨_, rfl⟩

/-- Two nodes that measure other things do not write what the other's loops read. -/
theorem Apart.not_reads {cfg' : Config} (h : Apart cfg cfg') {i : PartOf cfg} {j : PartOf cfg'}
    (hloop : i.isHandler = false) {key : StoreKey} (howns : j.owns cfg' key) :
    key ∉ i.reads cfg := by
  intro hkey
  rcases loop_reads hloop hkey with ⟨p, hp, hother, metric, hmetric, rfl⟩ | ⟨n, hn, hkey⟩
  · cases j with
    | node =>
      rcases howns with howns | ⟨p', hp', hother', metric', howns⟩
      · exact hmetric (SeriesKey.peer.inj howns).2
      · exact h.peers p hp hother p' hp' hother' (SeriesKey.peer.inj howns).1
    | poller k =>
      obtain ⟨_, howns⟩ := howns
      contradiction
    | _ => contradiction
  · rcases hkey with rfl | ⟨metric, rfl⟩
    · cases j with
      | fusion =>
        obtain ⟨n', hn', hid⟩ := List.any_eq_true.mp howns
        exact h.servers n hn n' hn' (of_decide_eq_true hid).symm
      | poller k => exact h.servers n hn _ (List.get_mem _ k) (HashKey.ntpSummary.inj howns)
      | _ => contradiction
    · cases j with
      | node =>
        rcases howns with howns | ⟨_, _, _, _, howns⟩
        all_goals contradiction
      | poller k =>
        obtain ⟨_, howns⟩ := howns
        exact h.servers n hn _ (List.get_mem _ k) (SeriesKey.ntp.inj howns).1
      | _ => contradiction

end Zeitpeer
