import Zeitpeer.Net.Daemon
import Zeitpeer.Net.Outcomes
import Zeitpeer.Net.Writers
import Mathlib.Data.List.FinRange

/-!
# The identity of a source

A source is an entry of the configuration, but everything that is stored about it is filed
under its number. With distinct numbers every reading, every sample of an iteration and every
summary can be traced to one entry, and without them the series and the summaries of two
entries are one.
-/

namespace Zeitpeer

open Framework Machine Ensemble

variable {parse : String → UInt16 → Option SocketAddr} {cfg : Config}

private theorem map_get_finRange {α β : Type} (f : α → β) (xs : List α) :
    (List.finRange xs.length).map (fun k => f (xs.get k)) = xs.map f := by
  rw [← Function.comp_def f, ← List.map_map, List.map_get_finRange]

/-- Values are distinct exactly if every value tells its place. -/
theorem nodup_map_iff {α β : Type} (f : α → β) (xs : List α) :
    (xs.map f).Nodup ↔ ∀ i j : Fin xs.length, f (xs.get i) = f (xs.get j) → i = j := by
  rw [← map_get_finRange, List.nodup_map_iff_inj_on (List.nodup_finRange _)]
  constructor
  · intro h i j
    exact h i (List.mem_finRange i) j (List.mem_finRange j)
  · intro h i _ j _
    exact h i j

/-- The peers that the node probes. -/
def others (cfg : Config) : List PeerEntry := cfg.peers.filter fun p => p.id ≠ cfg.nodeId

/-- An entry of the configuration that readings are taken from. -/
inductive SourceRef (cfg : Config) where
  | peer (k : Fin (others cfg).length)
  | ntp (k : Fin cfg.ntpSources.length)
  deriving DecidableEq

namespace SourceRef

def source : SourceRef cfg → Source
  | .peer k => ((others cfg).get k).source
  | .ntp k => (cfg.ntpSources.get k).source

/-- Where the aggregate of an entry belongs. -/
def summary : SourceRef cfg → HashKey
  | .peer k => .peerSummary ((others cfg).get k).id
  | .ntp k => .ntpSummary (cfg.ntpSources.get k).id

/-- The series that the readings of an entry belong to. -/
def Owns : SourceRef cfg → SeriesKey → Prop
  | .peer k, key => ∃ metric, key = .peer ((others cfg).get k).id metric
  | .ntp k, key => ∃ metric, key = .ntp (cfg.ntpSources.get k).id metric

/-- All entries in the order in which an iteration reads them. -/
def all (cfg : Config) : List (SourceRef cfg) :=
  (List.finRange _).map .peer ++ (List.finRange _).map .ntp

private theorem all_nodup (cfg : Config) : (all cfg).Nodup := by
  apply List.Nodup.append
  · exact (List.nodup_finRange _).map fun _ _ h => SourceRef.peer.inj h
  · exact (List.nodup_finRange _).map fun _ _ h => SourceRef.ntp.inj h
  · intro a hpeer hntp
    obtain ⟨k, _, rfl⟩ := List.mem_map.mp hpeer
    obtain ⟨j, _, hj⟩ := List.mem_map.mp hntp
    contradiction

theorem all_source (cfg : Config) : (all cfg).map source = sources cfg := by
  rw [all, List.map_append, List.map_map, List.map_map, sources]
  congr 1
  · exact map_get_finRange PeerEntry.source (others cfg)
  · exact map_get_finRange NtpSource.source cfg.ntpSources

end SourceRef

/-- No number stands for two sources. -/
structure DistinctIds (cfg : Config) : Prop where
  peers : ((others cfg).map PeerEntry.id).Nodup
  servers : (cfg.ntpSources.map NtpSource.id).Nodup
  apart : ∀ n ∈ cfg.ntpSources, ∀ p ∈ cfg.peers, n.id ≠ p.id

private theorem mem_peers (k : Fin (others cfg).length) : (others cfg).get k ∈ cfg.peers :=
  (List.mem_filter.mp (List.get_mem _ k)).1

private theorem DistinctIds.owner (h : DistinctIds cfg) {a b : SourceRef cfg} {key : SeriesKey}
    (ha : a.Owns key) (hb : b.Owns key) : a = b := by
  cases a with
  | peer j =>
    obtain ⟨metric, rfl⟩ := ha
    cases b with
    | peer k =>
      obtain ⟨metric', hkey⟩ := hb
      have hid := (SeriesKey.peer.inj hkey).1
      rw [(nodup_map_iff _ _).mp h.peers j k hid]
    | ntp k =>
      obtain ⟨metric', hkey⟩ := hb
      contradiction
  | ntp j =>
    obtain ⟨metric, rfl⟩ := ha
    cases b with
    | peer k =>
      obtain ⟨metric', hkey⟩ := hb
      contradiction
    | ntp k =>
      obtain ⟨metric', hkey⟩ := hb
      have hid := (SeriesKey.ntp.inj hkey).1
      rw [(nodup_map_iff _ _).mp h.servers j k hid]

private theorem SourceRef.owns_offset (a : SourceRef cfg) : a.Owns a.source.offsetKey := by
  cases a with
  | peer k => exact ⟨.offset, rfl⟩
  | ntp k => exact ⟨.offset, rfl⟩

private theorem DistinctIds.summaryKey (h : DistinctIds cfg) (a : SourceRef cfg) :
    summaryKey cfg a.source.id = a.summary := by
  cases a with
  | peer k =>
    have hany : (cfg.peers.any fun p => p.id = ((others cfg).get k).id) = true :=
      List.any_eq_true.mpr ⟨_, mem_peers k, decide_eq_true rfl⟩
    exact if_pos hany
  | ntp k =>
    have hpeer : ¬ (cfg.peers.any fun p => p.id = (cfg.ntpSources.get k).id) = true := by
      rw [List.any_eq_true]
      rintro ⟨p, hp, hid⟩
      exact h.apart _ (List.get_mem _ k) p hp (of_decide_eq_true hid).symm
    have hntp : (cfg.ntpSources.any fun n => n.id = (cfg.ntpSources.get k).id) = true :=
      List.any_eq_true.mpr ⟨_, List.get_mem _ k, decide_eq_true rfl⟩
    exact (if_neg hpeer).trans (if_pos hntp)

/-- The numbers are distinct exactly if no two entries share an offset series and the aggregate
of every entry is filed where it belongs. -/
private theorem distinctIds_iff (cfg : Config) :
    DistinctIds cfg ↔
      (∀ a b : SourceRef cfg, a.source.offsetKey = b.source.offsetKey → a = b) ∧
        ∀ a : SourceRef cfg, summaryKey cfg a.source.id = a.summary := by
  constructor
  · intro h
    refine ⟨?_, h.summaryKey⟩
    intro a b hkey
    have hb := b.owns_offset
    rw [← hkey] at hb
    exact h.owner a.owns_offset hb
  · rintro ⟨hseries, hsummary⟩
    refine ⟨?_, ?_, ?_⟩
    · rw [nodup_map_iff]
      intro i j hid
      apply SourceRef.peer.inj
      apply hseries
      change SeriesKey.peer _ _ = SeriesKey.peer _ _
      rw [hid]
    · rw [nodup_map_iff]
      intro i j hid
      apply SourceRef.ntp.inj
      apply hseries
      change SeriesKey.ntp _ _ = SeriesKey.ntp _ _
      rw [hid]
    · intro n hn p hp hid
      obtain ⟨k, rfl⟩ := List.get_of_mem hn
      have hany : (cfg.peers.any fun p => p.id = (cfg.ntpSources.get k).id) = true :=
        List.any_eq_true.mpr ⟨p, hp, decide_eq_true hid.symm⟩
      have hkey := hsummary (.ntp k)
      have hpeer : summaryKey cfg (cfg.ntpSources.get k).id =
          .peerSummary (cfg.ntpSources.get k).id := if_pos hany
      exact HashKey.noConfusion (hpeer.symm.trans hkey)

/-- A write of the run stores a reading of an entry: the server's own poller makes it, or it
answers a probe that was sent for the peer's entry. -/
inductive ReadingOf (parse : String → UInt16 → Option SocketAddr) (ts : List (DaemonTurn cfg)) :
    SourceRef cfg → TsAdd → Prop where
  | server {k : Fin cfg.ntpSources.length} {w : TsAdd}
      (hmem : ⟨.poller k, .tsAdd w⟩ ∈ events ts) : ReadingOf parse ts (.ntp k) w
  | peer {k : Fin (others cfg).length} {w : TsAdd} {e : Exchange} {probe : Probe}
      {addr : SocketAddr} (hmem : ⟨.node, .tsAdd w (.reply e)⟩ ∈ events ts)
      (haddr : parse ((others cfg).get k).ip ((others cfg).get k).port = some addr)
      (htarget : probe.target = ⟨((others cfg).get k).id, addr⟩)
      (hprobed : ⟨.node, .probed probe (probe.request cfg).serialize⟩ ∈ events ts)
      (htoken : e.token = ⟨probe.seq, probe.pending e.req.sentAt⟩) :
      ReadingOf parse ts (.peer k) w

section Runs

variable {store : Store} {ts : List (DaemonTurn cfg)} {s : DaemonState cfg}

private theorem readingOf_reply
    (hrun : (daemon parse cfg).toMachine.Run (Daemon.init cfg store) ts s) {w : TsAdd}
    {e : Exchange} (hmem : ⟨.node, .tsAdd w (.reply e)⟩ ∈ events ts) :
    ∃ a, ReadingOf parse ts a w := by
  have hlocal : (node parse cfg).Run {} (view Task.node ts) (s.members .node) :=
    run_view hrun .node
  have hlocalMem := (mem_events_view hrun).mpr hmem
  obtain ⟨hmatched, _⟩ := (run_backed hlocal).writes w _ hlocalMem
  obtain ⟨probe, hprobed, htarget, htoken⟩ := hmatched.probed hlocal
  obtain ⟨p, hp, addr, haddr, htarget⟩ := mem_probeTargets htarget
  obtain ⟨k, rfl⟩ := List.get_of_mem (show p ∈ others cfg from hp)
  exact ⟨.peer k, .peer hmem haddr htarget ((mem_events_view hrun).mp hprobed) htoken⟩

private theorem ReadingOf.owns
    (hrun : (daemon parse cfg).toMachine.Run (Daemon.init cfg store) ts s)
    {a : SourceRef cfg} {w : TsAdd} (h : ReadingOf parse ts a w) : a.Owns w.key := by
  cases h with
  | @server k w hmem =>
    have hlocal : (poller cfg (cfg.ntpSources.get k)).Run {} (view (Task.poller k) ts)
        (s.members (.poller k)) := run_view hrun (.poller k)
    exact (run_serverKeys hlocal).2 w ((mem_events_view hrun).mpr hmem)
  | @peer k w e probe addr hmem haddr htarget hprobed htoken =>
    have hlocal : (node parse cfg).Run {} (view Task.node ts) (s.members .node) :=
      run_view hrun .node
    obtain ⟨hmatched, jitter, hw⟩ :=
      (run_backed hlocal).writes w _ ((mem_events_view hrun).mpr hmem)
    obtain ⟨metric, hkey⟩ := sampleWrites_key hw
    have hpeer : e.req.peerId = ((others cfg).get k).id := by
      have hid : e.req.peerId = probe.target.peerId :=
        congrArg (fun t : Token => t.2.peerId) htoken
      rw [hid, htarget]
    exact ⟨metric, by rw [hkey, ← hmatched.server, hpeer]⟩

end Runs

/-! ## What an iteration is made of -/

/-- The replies to the reads for one entry. -/
structure Contribution (cfg : Config) where
  ref : SourceRef cfg
  offsets : List Entry
  delays : List Entry
  jitters : List Entry

namespace Contribution

def sample (c : Contribution cfg) : PeerSample :=
  .fromSeries c.ref.source.id c.ref.source.weight (c.offsets.map Entry.reading)
    (c.delays.map Entry.reading) (c.jitters.map Entry.reading)

/-- The aggregate, filed where it belongs. -/
def summary (c : Contribution cfg) : HmSet :=
  { key := c.ref.summary
    fields := [("offset_ns", c.sample.offsetMedianNs), ("delay_ns", c.sample.delayMedianNs),
      ("jitter_ns", c.sample.jitterMedianNs), ("score", peerScore c.sample)] }

end Contribution

/-- A read of a series got these entries. -/
def Answered (ts : List FusionTurn) (key : SeriesKey) (entries : List Entry) : Prop :=
  ∃ t ∈ ts, ∃ since limit, t.action = .recent key since limit (some entries)

/-- The replies came from the series of the entry. -/
structure Contribution.Read (ts : List FusionTurn) (c : Contribution cfg) : Prop where
  offsets : Answered ts c.ref.source.offsetKey c.offsets
  delays : Answered ts c.ref.source.delayKey c.delays
  jitters : Answered ts c.ref.source.jitterKey c.jitters

/-- The entries that have contributed and those still to be read, in the loop's order. -/
structure Gathered (ts : List FusionTurn) (cs : List (Contribution cfg))
    (rest : List (SourceRef cfg)) (samples : List PeerSample) : Prop where
  samples : samples = cs.map Contribution.sample
  order : (cs.map Contribution.ref ++ rest).Sublist (SourceRef.all cfg)
  read : ∀ c ∈ cs, c.Read ts

/-- A summary is the aggregate of an entry under its own key, or of the node itself. -/
def Filed (cfg : Config) (ts : List FusionTurn) (h : HmSet) : Prop :=
  h.key = .fusedSummary ∨ h.key = .peerSelf cfg.nodeId ∨
    ∃ c : Contribution cfg, h = c.summary ∧ c.Read ts

def Traced (cfg : Config) (ts : List FusionTurn) : FusionTask → Prop
  | .collecting _ todo samples => ∃ (cs : List (Contribution cfg)) (rest : List (SourceRef cfg)),
      todo = rest.map SourceRef.source ∧ Gathered ts cs rest samples
  | .delays _ src offsets todo samples => ∃ (cs : List (Contribution cfg)) (a : SourceRef cfg)
      (rest : List (SourceRef cfg)) (entries : List Entry), src = a.source ∧
      todo = rest.map SourceRef.source ∧ Gathered ts cs (a :: rest) samples ∧
      offsets = entries.map Entry.reading ∧ Answered ts src.offsetKey entries
  | .jitters _ src offsets delays todo samples => ∃ (cs : List (Contribution cfg))
      (a : SourceRef cfg) (rest : List (SourceRef cfg)) (entries entries' : List Entry),
      src = a.source ∧ todo = rest.map SourceRef.source ∧ Gathered ts cs (a :: rest) samples ∧
      offsets = entries.map Entry.reading ∧ Answered ts src.offsetKey entries ∧
      delays = entries'.map Entry.reading ∧ Answered ts src.delayKey entries'
  | .publishing effects => ∀ h, .hmSet h ∈ effects → Filed cfg ts h
  | _ => True

private theorem Answered.mono {ts us : List FusionTurn} {key : SeriesKey} {entries : List Entry}
    (h : Answered ts key entries) : Answered (ts ++ us) key entries := by
  obtain ⟨t, ht, hread⟩ := h
  exact ⟨t, List.mem_append_left us ht, hread⟩

private theorem Answered.last {ts : List FusionTurn} {s s' : FusionState} {key : SeriesKey}
    {since : UInt64} {limit : Nat} {entries : List Entry} {es : List FusionEvent} :
    Answered (ts ++ [⟨s, .recent key since limit (some entries), es, s'⟩]) key entries :=
  ⟨_, List.mem_append_right ts (List.mem_singleton_self _), since, limit, rfl⟩

private theorem Contribution.Read.mono {ts us : List FusionTurn} {c : Contribution cfg}
    (h : c.Read ts) : c.Read (ts ++ us) := ⟨h.offsets.mono, h.delays.mono, h.jitters.mono⟩

private theorem Gathered.mono {ts us : List FusionTurn} {cs : List (Contribution cfg)}
    {rest : List (SourceRef cfg)} {samples : List PeerSample} (h : Gathered ts cs rest samples) :
    Gathered (ts ++ us) cs rest samples :=
  ⟨h.samples, h.order, fun c hc => (h.read c hc).mono⟩

private theorem Filed.mono {ts us : List FusionTurn} {h : HmSet} (hfiled : Filed cfg ts h) :
    Filed cfg (ts ++ us) h := by
  rcases hfiled with hkey | hkey | ⟨c, hc, hread⟩
  · exact .inl hkey
  · exact .inr (.inl hkey)
  · exact .inr (.inr ⟨c, hc, hread.mono⟩)

private theorem Gathered.skip {ts : List FusionTurn} {cs : List (Contribution cfg)}
    {a : SourceRef cfg} {rest : List (SourceRef cfg)} {samples : List PeerSample}
    (h : Gathered ts cs (a :: rest) samples) : Gathered ts cs rest samples :=
  ⟨h.samples, ((List.sublist_cons_self a rest).append_left _).trans h.order, h.read⟩

private theorem Gathered.add {ts : List FusionTurn} {cs : List (Contribution cfg)}
    {c : Contribution cfg} {rest : List (SourceRef cfg)} {samples : List PeerSample}
    (h : Gathered ts cs (c.ref :: rest) samples) (hread : c.Read ts) :
    Gathered ts (cs ++ [c]) rest (samples ++ [c.sample]) := by
  refine ⟨by simp [h.samples], ?_, ?_⟩
  · rw [List.map_append, List.append_assoc]
    exact h.order
  · intro d hd
    rcases List.mem_append.mp hd with hd | hd
    · exact h.read d hd
    · exact List.mem_singleton.mp hd ▸ hread

private theorem Traced.next {ts : List FusionTurn} {since : UInt64} {src : Source}
    {todo : List Source}
    {samples : List PeerSample} (h : Traced cfg ts (.collecting since (src :: todo) samples)) :
    ∃ (cs : List (Contribution cfg)) (a : SourceRef cfg) (rest : List (SourceRef cfg)),
      src = a.source ∧ todo = rest.map SourceRef.source ∧ Gathered ts cs (a :: rest) samples := by
  obtain ⟨cs, rest, htodo, hgathered⟩ := h
  cases rest with
  | nil => contradiction
  | cons a rest =>
    obtain ⟨hsrc, hrest⟩ := List.cons.inj htodo
    exact ⟨cs, a, rest, hsrc, hrest, hgathered⟩

private theorem sampleSummary_eq (hids : DistinctIds cfg) (c : Contribution cfg) :
    sampleSummary cfg c.sample = .hmSet c.summary := by
  rw [Contribution.summary, ← hids.summaryKey c.ref]
  rfl

private theorem traced_afterEffects {ts us : List FusionTurn} {e : Effect} {rest : List Effect}
    (h : Traced cfg ts (.publishing (e :: rest))) : Traced cfg (ts ++ us) (afterEffects rest) := by
  cases rest with
  | nil => trivial
  | cons e' rest => exact fun x hx => (h x (List.mem_cons_of_mem _ hx)).mono

private theorem filed_publishEffects (hids : DistinctIds cfg) {ts : List FusionTurn}
    {stamp : UInt64}
    {f : Fused} {ring : Ring} {cs : List (Contribution cfg)} (hread : ∀ c ∈ cs, c.Read ts)
    {x : HmSet} (hx : .hmSet x ∈ publishEffects cfg stamp f ring (cs.map Contribution.sample)) :
    Filed cfg ts x := by
  rcases mem_publishEffects_hmSet hx with ⟨s, hs, hsummary⟩ | hkey | hkey
  · obtain ⟨c, hc, rfl⟩ := List.mem_map.mp hs
    rw [sampleSummary_eq hids] at hsummary
    exact .inr (.inr ⟨c, (Effect.hmSet.inj hsummary).symm, hread c hc⟩)
  · exact .inl hkey
  · exact .inr (.inl hkey)

private theorem Traced.filed {ts : List FusionTurn} {task : FusionTask} (h : Traced cfg ts task)
    {x : HmSet} (hx : .hmSet x ∈ task.effects) : Filed cfg ts x := by
  cases task with
  | publishing effects => exact h x hx
  | _ => contradiction

private theorem FusionStep.traced (hids : DistinctIds cfg) {ts : List FusionTurn}
    {s s' : FusionState}
    {a : FusionAction} {es : List FusionEvent} (hstep : FusionStep cfg s a s' es)
    (h : Traced cfg ts s.task) : Traced cfg (ts ++ [⟨s, a, es, s'⟩]) s'.task := by
  cases hstep with
  | skip now hidle =>
    rw [hidle]
    trivial
  | tick now hidle hpeers =>
    refine ⟨[], SourceRef.all cfg, (SourceRef.all_source cfg).symm, rfl, ?_, by simp⟩
    exact List.Sublist.refl _
  | sparse htask hfew =>
    rw [htask] at h
    obtain ⟨cs, a, rest, rfl, rfl, hgathered⟩ := h.next
    exact ⟨cs, rest, rfl, hgathered.mono.skip⟩
  | @enough since src todo samples entries htask hmany =>
    rw [htask] at h
    obtain ⟨cs, a, rest, rfl, rfl, hgathered⟩ := h.next
    exact ⟨cs, a, rest, entries, rfl, rfl, hgathered.mono, rfl, .last⟩
  | delays entries' htask =>
    rw [htask] at h
    obtain ⟨cs, a, rest, entries, rfl, rfl, hgathered, rfl, hoffsets⟩ := h
    exact ⟨cs, a, rest, entries, entries', rfl, rfl, hgathered.mono, rfl, hoffsets.mono, rfl, .last⟩
  | jitters entries'' htask =>
    rw [htask] at h
    obtain ⟨cs, a, rest, entries, entries', rfl, rfl, hgathered, rfl, hoffsets, rfl, hdelays⟩ := h
    let c : Contribution cfg := ⟨a, entries, entries', entries''⟩
    exact ⟨cs ++ [c], rest, rfl, hgathered.mono.add (c := c) ⟨hoffsets.mono, hdelays.mono, .last⟩⟩
  | fuse stamp htask hfuse =>
    rw [htask] at h
    obtain ⟨cs, rest, _, hgathered⟩ := h
    obtain rfl := hgathered.samples
    intro x hx
    exact (filed_publishEffects hids hgathered.read hx).mono
  | tsAdd htask
  | slew htask
  | hmSet htask
  | phcAbsent htask =>
    rw [htask] at h
    exact traced_afterEffects h
  | phcRead htask hclock =>
    rw [htask] at h
    intro x hx
    rcases mem_phcEffects hx with ⟨_, _, hx⟩ | hx
    · contradiction
    · exact (h x (List.mem_cons_of_mem _ hx)).mono
  | _ => trivial

theorem run_traced (hids : DistinctIds cfg) {ts : List FusionTurn} {s : FusionState}
    (hrun : (fusion cfg).Run (.init cfg) ts s) :
    Traced cfg ts s.task ∧ ∀ x, .hmSet x ∈ events ts → Filed cfg ts x := by
  induction hrun with
  | start => exact ⟨trivial, by simp⟩
  | turn _ hstep ih =>
    have hfusion := FusionStep.of_step hstep
    refine ⟨hfusion.traced hids ih.1, ?_⟩
    intro x hx
    rcases mem_events_concat.mp hx with hx | hx
    · exact (ih.2 x hx).mono
    · exact (ih.1.filed (hfusion.published.2 x hx)).mono

/-- What a run keeps apart: the series, the samples of every iteration and the summaries. -/
structure KeepsIdentity (parse : String → UInt16 → Option SocketAddr)
    (ts : List (DaemonTurn cfg)) : Prop where
  attributed : ∀ w, (∃ k, ⟨.poller k, .tsAdd w⟩ ∈ events ts) ∨
    (∃ e, ⟨.node, .tsAdd w (.reply e)⟩ ∈ events ts) → ∃ a, ReadingOf parse ts a w
  series : ∀ a b w w', ReadingOf parse ts a w → ReadingOf parse ts b w' → w.key = w'.key → a = b
  samples : ∀ t ∈ view Task.fusion ts, ∀ since samples,
    t.before.task = .collecting since [] samples →
      ∃ cs : List (Contribution cfg), samples = cs.map Contribution.sample ∧
        (cs.map Contribution.ref).Nodup ∧
        (cs.Pairwise fun c d => ∀ key, c.ref.Owns key → ¬ d.ref.Owns key) ∧
        ∀ c ∈ cs, c.Read (view Task.fusion ts)
  summaries : ∀ h, ⟨.fusion, .hmSet h⟩ ∈ events ts → Filed cfg (view Task.fusion ts) h
  polled : ∀ k h, ⟨.poller k, .hmSet h⟩ ∈ events ts → h.key = (SourceRef.ntp k).summary

private theorem keepsIdentity (hids : DistinctIds cfg) {store : Store} {ts : List (DaemonTurn cfg)}
    {s : DaemonState cfg} (hrun : (daemon parse cfg).toMachine.Run (Daemon.init cfg store) ts s) :
    KeepsIdentity parse ts := by
  have hfusion : (fusion cfg).Run (.init cfg) (view Task.fusion ts) (s.members .fusion) :=
    run_view hrun .fusion
  refine ⟨?_, ?_, ?_, ?_, ?_⟩
  · rintro w (⟨k, hmem⟩ | ⟨e, hmem⟩)
    · exact ⟨.ntp k, .server hmem⟩
    · exact readingOf_reply hrun hmem
  · intro a b w w' ha hb hkey
    have howns := hb.owns hrun
    rw [← hkey] at howns
    exact hids.owner (ha.owns hrun) howns
  · intro t ht since samples htask
    obtain ⟨before, after, hsplit⟩ := List.append_of_mem ht
    rw [hsplit] at hfusion ⊢
    have htraced := (run_traced hids hfusion.middle.1).1
    rw [htask] at htraced
    obtain ⟨cs, rest, hrest, hgathered⟩ := htraced
    obtain rfl : rest = [] := List.map_eq_nil_iff.mp hrest.symm
    have hnodup : (cs.map Contribution.ref).Nodup := by
      have horder := hgathered.order
      rw [List.append_nil] at horder
      exact horder.nodup (SourceRef.all_nodup cfg)
    refine ⟨cs, hgathered.samples, hnodup, ?_, fun c hc => (hgathered.read c hc).mono⟩
    apply (List.pairwise_map.mp hnodup).imp
    intro c d hne key hc hd
    exact hne (hids.owner hc hd)
  · intro h hmem
    exact (run_traced hids hfusion).2 h ((mem_events_view hrun).mpr hmem)
  · intro k h hmem
    have hlocal : (poller cfg (cfg.ntpSources.get k)).Run {} (view (Task.poller k) ts)
        (s.members (.poller k)) := run_view hrun (.poller k)
    exact run_pollerSummary hlocal ((mem_events_view hrun).mpr hmem)

/-- With distinct numbers every run keeps the entries apart. Without them two entries have one
series for their offsets, or an aggregate is filed under another kind of entry. -/
theorem identity_iff (parse : String → UInt16 → Option SocketAddr) (cfg : Config) :
    (DistinctIds cfg → ∀ store ts s,
      (daemon parse cfg).toMachine.Run (Daemon.init cfg store) ts s → KeepsIdentity parse ts) ∧
      (¬ DistinctIds cfg →
        (∃ a b : SourceRef cfg, a ≠ b ∧ a.source.offsetKey = b.source.offsetKey) ∨
          ∃ a : SourceRef cfg, summaryKey cfg a.source.id ≠ a.summary) := by
  constructor
  · intro hids store ts s hrun
    exact keepsIdentity hids hrun
  · intro hshared
    rw [distinctIds_iff] at hshared
    by_contra hnone
    push Not at hnone
    apply hshared
    refine ⟨?_, hnone.2⟩
    intro a b hkey
    by_contra hne
    exact hnone.1 a b hne hkey

theorem identity_iff_demo :
    DistinctIds demoConfig ∧ ∀ store ts s,
      (daemon demoParse demoConfig).toMachine.Run (Daemon.init demoConfig store) ts s →
        KeepsIdentity demoParse ts := by
  have hids : DistinctIds demoConfig := ⟨by decide, by decide, by decide⟩
  exact ⟨hids, (identity_iff demoParse demoConfig).1 hids⟩

/-- The configuration of the first node as it is shipped. -/
def peer1Config : Config :=
  { nodeId := 1
    phcDevice := some "/dev/ptp0"
    sampling := { intervalMs := 250, windowSec := 30, burst := some 1 }
    filter := { lambda := 1 / 4, trimRatio := 1 / 10, bestQuantile := 3 / 5,
                minSamplesPerPeer := 5 }
    mode := { observerOnly := true }
    peers := [{ id := 1, ip := "127.0.0.1", port := 32001 }]
    ntpSources :=
      [{ id := 8999, host := "localntpserver", «alias» := some "localntpserver" },
       { id := 9000, host := "publicntpserver", «alias» := some "publicntpserver" },
       { id := 9001, host := "time.google.com", «alias» := some "ntp-google",
         weight := some (1 / 5), pollIntervalMs := some 2000, timeoutMs := some 1000 },
       { id := 9002, host := "time.cloudflare.com", «alias» := some "cloudflare" },
       { id := 9002, host := "ntp1.rwth-aachen.de", «alias» := some "ntp1.rwth-aachen.de" },
       { id := 9004, host := "time.facebook.com", «alias» := some "ntp-facebook",
         weight := some (1 / 5), pollIntervalMs := some 2000, timeoutMs := some 1000 },
       { id := 9005, host := "time.apple.com", «alias» := some "ntp-apple",
         weight := some (1 / 5), pollIntervalMs := some 2000, timeoutMs := some 1000 },
       { id := 9006, host := "time.windows.com", «alias» := some "ntp-windows",
         weight := some (1 / 5), pollIntervalMs := some 2000, timeoutMs := some 1000 },
       { id := 9007, host := "pool.ntp.org", «alias» := some "ntp-pool",
         weight := some (1 / 5), pollIntervalMs := some 2000, timeoutMs := some 1000 },
       { id := 9008, host := "time.nist.gov", «alias» := some "ntp-nist",
         weight := some (1 / 5), pollIntervalMs := some 2000, timeoutMs := some 1000 },
       { id := 9009, host := "time.aws.com", «alias» := some "time.aws" }] }

/-- Five readings of one server. -/
def fiveReadings (val : F64) : List Entry :=
  (List.range 5).map fun n => ⟨980000000000 + n * 1000000000, val⟩

def sharedStore : Store
  | .ntp 9002 .offset => fiveReadings 700
  | .ntp 9002 .delay => fiveReadings 20
  | .ntp 9002 .jitter => fiveReadings 1
  | _ => []

/-- An iteration that finds them under both of the entries with their number. -/
def sharedActions : List FusionAction :=
  let read := fun id metric entries =>
    FusionAction.recent (.ntp id metric) 970000000000 5 (some entries)
  let found := [read 9002 .offset (fiveReadings 700), read 9002 .delay (fiveReadings 20),
    read 9002 .jitter (fiveReadings 1)]
  let missed := fun id => read id .offset []
  [.tick 1000000000000, missed 8999, missed 9000, missed 9001] ++ found ++ found ++
    [missed 9004, missed 9005, missed 9006, missed 9007, missed 9008, missed 9009,
      .fuse 1000000000000]

def sharedTurns : List (DaemonTurn peer1Config) :=
  (daemon (fun _ _ => none) peer1Config).toMachine.turnsOf
    (Daemon.init peer1Config sharedStore)
    (sharedActions.map fun a : FusionAction => .member .fusion a)

def sharedSample : PeerSample :=
  .fromSeries 9002 NTP_DEFAULT_WEIGHT ((fiveReadings 700).map Entry.reading)
    ((fiveReadings 20).map Entry.reading) ((fiveReadings 1).map Entry.reading)

private theorem owns_of_shared {a : SourceRef peer1Config} (hid : a.source.id = 9002) :
    a.Owns (.ntp 9002 .offset) := by
  cases a with
  | peer k =>
    have hnone : (others peer1Config).length = 0 := by decide
    exact absurd k.isLt (by omega)
  | ntp k => exact ⟨.offset, by rw [← hid]; rfl⟩

/-- An NTP server with the number of a peer. -/
def crossedConfig : Config :=
  { peer1Config with
    peers := [{ id := 1, ip := "127.0.0.1", port := 32001 },
      { id := 2, ip := "127.0.0.1", port := 32002 }]
    ntpSources := [{ id := 2, host := "localntpserver" }] }

def crossedRef : SourceRef crossedConfig := .ntp ⟨0, by decide⟩

private theorem sharedTurns_run : ∃ s, (daemon (fun _ _ => none) peer1Config).toMachine.Run
    (Daemon.init peer1Config sharedStore) sharedTurns s := by
  have hexec : ((daemon (fun _ _ => none) peer1Config).toMachine.exec
      (Daemon.init peer1Config sharedStore)
      (sharedActions.map fun a : FusionAction => .member .fusion a)).isSome = true := by
    decide +kernel
  exact ⟨_, Run.of_actions hexec⟩

private theorem sharedTurns_samples : ∃ t ∈ view Task.fusion sharedTurns,
    t.before.task = .collecting 970000000000 [] [sharedSample, sharedSample] := by
  have hlast : (view Task.fusion sharedTurns)[16]?.map (fun t => t.before.task) =
      some (.collecting 970000000000 [] [sharedSample, sharedSample]) := by
    decide +kernel
  obtain ⟨t, ht, htask⟩ := Option.map_eq_some_iff.mp hlast
  exact ⟨t, List.mem_of_getElem? ht, htask⟩

/-- The same readings make two samples of one iteration, and a server's aggregate is filed under
the peer of its number. -/
theorem identity_shared :
    ((∃ s, (daemon (fun _ _ => none) peer1Config).toMachine.Run
        (Daemon.init peer1Config sharedStore) sharedTurns s) ∧
      ¬ KeepsIdentity (fun _ _ => none) sharedTurns) ∧
      summaryKey crossedConfig crossedRef.source.id ≠ crossedRef.summary := by
  refine ⟨⟨sharedTurns_run, ?_⟩, by decide⟩
  intro hkeeps
  obtain ⟨t, ht, htask⟩ := sharedTurns_samples
  obtain ⟨cs, hsamples, _, hapart, _⟩ := hkeeps.samples t ht _ _ htask
  have hlength : cs.length = 2 := by
    simpa using (congrArg List.length hsamples).symm
  obtain ⟨c, d, rfl⟩ := List.length_eq_two.mp hlength
  obtain ⟨hc, hd⟩ : sharedSample = c.sample ∧ sharedSample = d.sample := by
    simpa using hsamples
  have hcid : c.ref.source.id = 9002 := congrArg PeerSample.peerId hc.symm
  have hdid : d.ref.source.id = 9002 := congrArg PeerSample.peerId hd.symm
  have hpair := List.rel_of_pairwise_cons hapart (List.mem_singleton_self d)
  exact hpair _ (owns_of_shared hcid) (owns_of_shared hdid)

end Zeitpeer
