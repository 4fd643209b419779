import Zeitpeer.Framework.Projection
import Zeitpeer.Net.Band
import Zeitpeer.Net.Network

/-!
# Daemons on a network

Every node of a cluster runs a whole daemon, with a store of its own that other processes write
to as well, and the daemons meet only on the wire. Seen from their probing tasks a run is one of
the network, so what holds of the exchanges there reaches the stores, the fusion loops and the
commands: nodes whose clocks run at one rate get to times that agree, whatever a few of their
sources show.
-/

namespace Zeitpeer

open Framework Machine Ensemble

variable {ι : Type}

abbrev FedState (c : Cluster ι) := Snapshot (fun i : ι => DaemonState (c.cfg i)) Wire

abbrev FedMove (c : Cluster ι) (i : ι) :=
  Move (Task.Action (n := (c.cfg i).ntpSources.length)) StoreDrift

abbrev FedEvent (c : Cluster ι) (i : ι) := Sigma (Task.Event (n := (c.cfg i).ntpSources.length))

abbrev FedTurn (c : Cluster ι) :=
  EnsembleTurn (fun i : ι => DaemonState (c.cfg i)) (FedMove c) (FedEvent c) Wire Nat

/-- Only the probing tasks are at the wire. -/
def Cluster.admits (c : Cluster ι) (w : Wire) (i : ι) : FedMove c i → Bool
  | .member .node a => c.allows w i a
  | _ => true

/-- The daemons around the wire. -/
def federation (c : Cluster ι) :
    Ensemble ι (fun i => DaemonState (c.cfg i)) (FedMove c) (FedEvent c) Wire Nat where
  machine i := (daemon c.parse (c.cfg i)).toMachine
  allows := c.admits
  absorb w i es := c.network.absorb w i (es.filterMap (eventOf Task.node))
  drift := c.network.drift

def Federation.init (c : Cluster ι) (stores : ι → Store) : FedState c :=
  ⟨fun i => Daemon.init (c.cfg i) (stores i), {}⟩

/-- The clocks stay as far apart as they are. -/
def Paced (c : Cluster ι) (skew : ι → Int) : Prop :=
  ∀ i j τ, ((c.clock j τ).toNat : Int) - (c.clock i τ).toNat = skew j - skew i

variable {skew : ι → Int}

/-- How far an exchange with such a delay can be off. -/
def margin (delay : Int) : F64 := (delay + 1) / 2

/-- Corrected by this offset the clock of `a` is in the interval, up to the margin. -/
def Shows (skew : ι → Int) (low high delay : Int) (a : ι) (x : F64) : Prop :=
  low - margin delay ≤ skew a + x ∧ skew a + x ≤ high + margin delay

private theorem shows_iff {low high delay : Int} {a : ι} {x : F64} :
    Shows skew low high delay a x ↔
      low - margin delay - skew a ≤ x ∧ x ≤ high + margin delay - skew a := by
  constructor <;> rintro ⟨hlow, hhigh⟩ <;> constructor <;> linarith

/-- The clock of `a` is near enough to the interval for the offsets that lead into it not to be
rounded. -/
def Resolvable (skew : ι → Int) (low high delay : Int) (a : ι) : Prop :=
  |low - skew a| + delay + 1 < 2 ^ 53 ∧ |high - skew a| + delay + 1 < 2 ^ 53

private theorem shows_of_accurate {low high delay offset : Int} {a b : ι} {d : Int}
    (hnear : Resolvable skew low high delay a) (hnonneg : 0 ≤ d)
    (haccurate : |2 * (offset - (skew b - skew a))| ≤ d + 1) (hdelay : d ≤ delay)
    (hlow : low ≤ skew b) (hhigh : skew b ≤ high) :
    Shows skew low high delay a (F64.ofInt offset) := by
  obtain ⟨hback, hforth⟩ := abs_le.mp haccurate
  have hexact : F64.ofInt offset = offset := by
    apply F64.ofInt_of_lt
    have hlow' := neg_le_abs (low - skew a)
    have hhigh' := le_abs_self (high - skew a)
    obtain ⟨hfar, hfar'⟩ := hnear
    rw [abs_lt]
    constructor <;> omega
  rw [hexact]
  have hbelow : (2 * low - (delay + 1) : F64) ≤ 2 * (skew a + offset) := by
    have hint : 2 * low - (delay + 1) ≤ 2 * (skew a + offset) := by omega
    exact_mod_cast hint
  have habove : (2 * (skew a + offset) : F64) ≤ 2 * high + (delay + 1) := by
    have hint : 2 * (skew a + offset) ≤ 2 * high + (delay + 1) := by omega
    exact_mod_cast hint
  constructor <;> rw [margin] <;> linarith

variable {c : Cluster ι}

/-- The probing tasks with the wire. -/
def nodesOf (s : FedState c) : NetState ι := ⟨fun i => (s.members i).members .node, s.medium⟩

/-- An event of a probing task. -/
def nodeEvent? (x : Sigma (FedEvent c)) : Option (Sigma fun _ : ι => Event) :=
  (eventOf Task.node x.2).map (Sigma.mk x.1)

/-- A turn of a probing task, or of the wire. -/
def nodeTurn? (t : FedTurn c) : Option (NetTurn ι) :=
  match t.action with
  | .drift d => some ⟨nodesOf t.before, .drift d, [], nodesOf t.after⟩
  | .member i (.member .node a) =>
    some ⟨nodesOf t.before, .member i a, t.emitted.filterMap nodeEvent?, nodesOf t.after⟩
  | .member _ _ => none

private theorem filterMap_nodeEvent? (i : ι) (es : List (FedEvent c i)) :
    (es.map (Sigma.mk i)).filterMap nodeEvent? =
      (es.filterMap (eventOf Task.node)).map (Sigma.mk i) := by
  rw [List.filterMap_map, List.map_filterMap]
  rfl

variable [DecidableEq ι]

private theorem nodesOf_quiet {s : FedState c} {i : ι} {m : FedMove c i} {n : DaemonState (c.cfg i)}
    {fs : List (FedEvent c i)} (hm : ∀ a, m ≠ .member .node a)
    (hlocal : (daemon c.parse (c.cfg i)).toMachine.step (s.members i) m = some (n, fs)) :
    nodesOf (⟨Function.update s.members i n, (federation c).absorb s.medium i fs⟩ : FedState c) =
      nodesOf s := by
  rcases view_turn hlocal Task.node with ⟨_, hsame, hquiet⟩ | ⟨a, _, hview⟩
  · have hmedium : (federation c).absorb s.medium i fs = s.medium := by
      change c.network.absorb s.medium i (fs.filterMap (eventOf Task.node)) = s.medium
      rw [hquiet]
      simp [Cluster.network]
    simp only [nodesOf, hmedium]
    congr 1
    funext j
    by_cases hj : j = i
    · subst hj
      rw [Function.update_self, hsame]
    · rw [Function.update_of_ne hj]
  · have hmem : (⟨(s.members i).members .node, a, fs.filterMap (eventOf Task.node),
        n.members .node⟩ : NodeTurn) ∈ view Task.node [⟨s.members i, m, fs, n⟩] := by
      rw [hview]
      exact List.mem_singleton_self _
    obtain ⟨u, hu, haction, _⟩ := mem_view hmem
    rw [List.mem_singleton.mp hu] at haction
    exact absurd haction (hm a)

private theorem nodesOf_step {s : FedState c} {i : ι} {a : Action} {n : DaemonState (c.cfg i)}
    {fs : List (FedEvent c i)} (hallow : c.allows s.medium i a = true)
    (hlocal : (daemon c.parse (c.cfg i)).toMachine.step (s.members i) (.member .node a) =
      some (n, fs)) :
    c.network.toMachine.step (nodesOf s) (.member i a) =
      some (nodesOf (⟨Function.update s.members i n, (federation c).absorb s.medium i fs⟩ :
        FedState c), (fs.map (Sigma.mk i)).filterMap nodeEvent?) := by
  obtain ⟨n', es, _, hnode, rfl, rfl⟩ := step_member hlocal
  have hevents : (es.map (Sigma.mk Task.node)).filterMap (eventOf Task.node) = es :=
    filterMap_eventOf_self Task.node es
  have hstep := member_step (e := c.network) (s := nodesOf s) hallow hnode
  rw [filterMap_nodeEvent?, hevents, hstep]
  have hafter : (⟨Function.update (nodesOf s).members i n',
      c.network.absorb (nodesOf s).medium i es⟩ : NetState ι) =
      nodesOf (⟨Function.update s.members i
        ⟨Function.update (s.members i).members Task.node n',
          (daemon c.parse (c.cfg i)).absorb (s.members i).medium .node es⟩,
        (federation c).absorb s.medium i (es.map (Sigma.mk Task.node))⟩ : FedState c) := by
    have hmedium : (federation c).absorb s.medium i (es.map (Sigma.mk Task.node)) =
        c.network.absorb s.medium i es := by
      change c.network.absorb _ i ((es.map (Sigma.mk Task.node)).filterMap _) = _
      rw [hevents]
    simp only [nodesOf, hmedium]
    congr 1
    funext j
    by_cases hj : j = i
    · subst hj
      simp
    · simp [Function.update_of_ne hj]
  rw [hafter]

/-- The network that the probing tasks make. -/
def probing (c : Cluster ι) :
    Projection (federation c).toMachine c.network.toMachine where
  state := nodesOf
  turn := nodeTurn?
  shown := by
    intro s a es s' t hstep hturn
    cases a with
    | drift d =>
      obtain rfl := Option.some.inj hturn
      obtain ⟨w, hdrift, rfl, rfl⟩ := step_drift hstep
      obtain rfl := Option.some.inj hdrift
      exact ⟨rfl, rfl, rfl⟩
    | member i m =>
      obtain ⟨n, fs, hallow, hlocal, rfl, rfl⟩ := step_member hstep
      cases m with
      | drift => contradiction
      | member k a =>
        cases k with
        | node =>
          obtain rfl := Option.some.inj hturn
          exact ⟨rfl, rfl, nodesOf_step hallow hlocal⟩
        | _ => contradiction
  hidden := by
    intro s a es s' hstep hturn
    cases a with
    | drift => contradiction
    | member i m =>
      obtain ⟨n, fs, _, hlocal, rfl, rfl⟩ := step_member hstep
      apply nodesOf_quiet _ hlocal
      rintro a rfl
      contradiction

private theorem events_probing {start s : FedState c} {ts : List (FedTurn c)}
    (hrun : (federation c).toMachine.Run start ts s) :
    events ((probing c).history ts) = (events ts).filterMap nodeEvent? := by
  apply (probing c).events_history _ _ hrun
  · intro s a es s' t hstep hturn
    change nodeTurn? _ = _ at hturn
    cases a with
    | drift d =>
      obtain rfl := Option.some.inj hturn
      obtain ⟨_, _, _, rfl⟩ := step_drift hstep
      rfl
    | member i m =>
      cases m with
      | drift => contradiction
      | member k a =>
        cases k with
        | node =>
          obtain rfl := Option.some.inj hturn
          rfl
        | _ => contradiction
  · intro s a es s' hstep hturn
    change nodeTurn? _ = _ at hturn
    cases a with
    | drift => contradiction
    | member i m =>
      obtain ⟨n, fs, _, hlocal, rfl, rfl⟩ := step_member hstep
      rw [filterMap_nodeEvent?, List.map_eq_nil_iff]
      cases m with
      | drift d =>
        obtain ⟨_, _, _, rfl⟩ := step_drift hlocal
        rfl
      | member k a =>
        obtain ⟨_, es, _, _, _, rfl⟩ := step_member hlocal
        rw [List.filterMap_map, List.filterMap_eq_nil_iff]
        intro e _
        cases k with
        | node => contradiction
        | fusion
        | poller => exact eventOf_ne (by simp) e

private theorem events_node {start s : FedState c} {ts : List (FedTurn c)}
    (hrun : (federation c).toMachine.Run start ts s) (a : ι) :
    events (view a ((probing c).history ts)) = events (view Task.node (view a ts)) := by
  have hnet := (probing c).run hrun
  rw [events_view hnet a, events_probing hrun, events_view (run_view hrun a) Task.node,
    events_view hrun a, List.filterMap_filterMap, List.filterMap_filterMap]
  congr 1
  funext x
  obtain ⟨i, e⟩ := x
  by_cases hi : i = a
  · subst hi
    rw [eventOf_self, Option.bind_some]
    cases hnode : eventOf Task.node e with
    | none => simp [nodeEvent?, hnode]
    | some y => simp [nodeEvent?, hnode]
  · rw [eventOf_ne hi]
    cases hnode : eventOf Task.node e with
    | none => simp [nodeEvent?, hnode]
    | some y => simp [nodeEvent?, hnode, eventOf_ne hi]

/-! ## Accurate exchanges -/

private theorem exchange_accurate {a b : ι} {ts : List (NetTurn ι)} {s : NetState ι} {e : Exchange}
    (hpaced : Paced c skew) (hrun : c.network.toMachine.Run NetState.init ts s)
    (hfew : (drawn (events (view a ts))).length < 2 ^ 32) (hmatched : Matched (view a ts) e)
    (hserver : e.resp.serverId = (c.cfg b).nodeId) :
    0 ≤ e.calc.delayNs ∧
      |2 * (e.calc.offsetNs - (skew b - skew a))| ≤ e.calc.delayNs + 1 := by
  obtain ⟨t, ht, _, hrx, hlook⟩ := hmatched.taken
  obtain ⟨u, hu, _, hmember⟩ := mem_view ht
  obtain ⟨before, rest, rfl⟩ := List.append_of_mem hu
  have hbefore := hrun.middle.1
  rw [← hmember] at hrx hlook
  have hcoherent : Coherent c a b (skew b - skew a) before u.before := by
    apply run_coherent _ hbefore
    intro τ
    have hdiff := hpaced a b τ
    omega
  have hfits := hcoherent.rx a
  rw [hrx] at hfits
  obtain ⟨hanswers, hback⟩ := hfits rfl hserver
  obtain ⟨t1, ⟨target, hdrew⟩, hout⟩ := hanswers.arrived
  obtain ⟨t1', ⟨target', hdrew'⟩, hreq⟩ := drewAt_of_pending hbefore hlook
  have hnodup : (drawn (events (view a before))).Nodup := by
    rw [view_append] at hfew
    exact nodup_drawn (run_view hbefore a) (few_drawn_of_append hfew)
  obtain rfl := Option.some.inj (drew_unique hnodup hdrew hdrew').2
  rw [Exchange.calc, hreq]
  apply computeOffsetDelay_exchange <;> omega

/-- An offset that a daemon has written for a node is that of an exchange, and misses the
difference of the two clocks by at most half of its delay. -/
private theorem peer_offset_accurate {stores : ι → Store} {a b : ι} {ts : List (FedTurn c)}
    {s : FedState c} {w : TsAdd} {cause : Cause} (hpaced : Paced c skew)
    (hrun : (federation c).toMachine.Run (Federation.init c stores) ts s)
    (hfew : (drawn (events (view Task.node (view a ts)))).length < 2 ^ 32)
    (hmem : ⟨.node, .tsAdd w cause⟩ ∈ events (view a ts))
    (hkey : w.key = .peer (c.cfg b).nodeId .offset) :
    ∃ e, cause = .reply e ∧ e.resp.serverId = (c.cfg b).nodeId ∧
      w.val = F64.ofInt e.calc.offsetNs ∧ 0 ≤ e.calc.delayNs ∧
      |2 * (e.calc.offsetNs - (skew b - skew a))| ≤ e.calc.delayNs + 1 := by
  have hnet := (probing c).run hrun
  have hlocal := run_view hnet a
  have hmem' : .tsAdd w cause ∈ events (view a ((probing c).history ts)) := by
    rw [events_node hrun]
    exact (mem_events_view (run_view hrun a)).mpr hmem
  have horigin := (run_backed hlocal).writes w cause hmem'
  cases cause with
  | reply e =>
    obtain ⟨hmatched, jitter, hwrite⟩ := horigin
    have hvalue : e.resp.serverId = (c.cfg b).nodeId ∧ w.val = F64.ofInt e.calc.offsetNs := by
      simp only [sampleWrites, List.mem_cons, List.not_mem_nil, or_false] at hwrite
      rcases hwrite with rfl | rfl | rfl | rfl <;> simp_all
    refine ⟨e, rfl, hvalue.1, hvalue.2, exchange_accurate hpaced hnet ?_ hmatched hvalue.1⟩
    rw [events_node hrun]
    exact hfew
  | expiry t =>
    obtain ⟨sys, rfl⟩ := horigin
    simp [timeoutWrite] at hkey
  | service =>
    rw [horigin] at hkey
    simp at hkey

/-- The good sources of a daemon are nodes whose clocks are in the interval and that answer within
the delay, and servers whose offsets lead there too; nobody else writes other offsets for them.
The interval is near enough for offsets to be exact, the bad sources are outvoted, and no number
is drawn twice. -/
structure Correct (c : Cluster ι) (skew : ι → Int) (low high delay : Int) (a : ι)
    (bad : Source → Bool) (store : Store) (ts : List (DaemonTurn (c.cfg a))) : Prop where
  peers : ∀ p ∈ (c.cfg a).peers, p.id ≠ (c.cfg a).nodeId → bad p.source = false →
    ∃ b, (c.cfg b).nodeId = p.id ∧ low ≤ skew b ∧ skew b ≤ high
  delays : ∀ p ∈ (c.cfg a).peers, bad p.source = false → ∀ w e,
    ⟨.node, .tsAdd w (.reply e)⟩ ∈ events ts → e.resp.serverId = p.id → e.calc.delayNs ≤ delay
  servers : ∀ n ∈ (c.cfg a).ntpSources, bad n.source = false → ∀ k w,
    ⟨.poller k, .tsAdd w⟩ ∈ events ts → w.key = .ntp n.id .offset →
      Shows skew low high delay a w.val
  store : ∀ src ∈ sources (c.cfg a), bad src = false → ∀ e ∈ store src.offsetKey,
    Shows skew low high delay a e.val
  outside : ∀ t ∈ ts, ∀ w, t.action = .drift (.write w) → ∀ src ∈ sources (c.cfg a),
    bad src = false → w.key = src.offsetKey → Shows skew low high delay a w.val
  votes : ∀ t ∈ view Task.fusion ts, ∀ since samples,
    t.before.task = .collecting since [] samples → samples ≠ [] →
      Outvotes (c.cfg a) bad samples
  trim : (c.cfg a).filter.trimRatio < 1 / 2
  near : Resolvable skew low high delay a
  few : (drawn (events (view Task.node ts))).length < 2 ^ 32

private theorem mem_written {cfg : Config} {t : DaemonTurn cfg} {w : TsAdd} (hw : w ∈ written t) :
    t.action = .drift (.write w) ∨ ∃ i x, ⟨i, x⟩ ∈ t.emitted ∧ i.write? x = some w := by
  have hstored : w ∈ storedBy t.emitted → ∃ i x, ⟨i, x⟩ ∈ t.emitted ∧ i.write? x = some w := by
    intro h
    obtain ⟨⟨i, x⟩, hx, hwrite⟩ := List.mem_filterMap.mp h
    exact ⟨i, x, hx, hwrite⟩
  unfold written at hw
  split at hw
  · rename_i haction
    rw [List.mem_singleton.mp hw]
    exact .inl haction
  · exact .inr (hstored hw)

private theorem Correct.banded {low high delay : Int} {a : ι} {bad : Source → Bool}
    {stores : ι → Store} {ts : List (FedTurn c)} {s : FedState c}
    (h : Correct c skew low high delay a bad (stores a) (view a ts)) (hpaced : Paced c skew)
    (hrun : (federation c).toMachine.Run (Federation.init c stores) ts s) :
    Banded (low - margin delay - skew a) (high + margin delay - skew a) bad (stores a)
      (view a ts) := by
  have hlocal : (daemon c.parse (c.cfg a)).toMachine.Run (Daemon.init (c.cfg a) (stores a))
      (view a ts) (s.members a) := run_view hrun a
  refine ⟨fun src hsrc hgood e he => shows_iff.mp (h.store src hsrc hgood e he), ?_⟩
  intro t ht w hw src hsrc hgood hkey
  apply shows_iff.mp
  rcases mem_written hw with haction | ⟨i, x, hx, hwrite⟩
  · exact h.outside t ht w haction src hsrc hgood hkey
  · have hmem : ⟨i, x⟩ ∈ events (view a ts) := mem_events.mpr ⟨t, ht, hx⟩
    have howns := run_owns hlocal hmem hwrite
    rw [hkey] at howns
    rcases List.mem_append.mp hsrc with hpeer | hserver
    · obtain ⟨p, hp, rfl⟩ := List.mem_map.mp hpeer
      obtain ⟨hp, hother⟩ := List.mem_filter.mp hp
      cases i with
      | node =>
        cases x with
        | tsAdd w' cause =>
          obtain rfl := Option.some.inj hwrite
          obtain ⟨b, hid, hlow, hhigh⟩ := h.peers p hp (of_decide_eq_true hother) hgood
          obtain ⟨e, rfl, hfrom, hval, hnonneg, haccurate⟩ :=
            peer_offset_accurate (b := b) hpaced hrun h.few hmem (by rw [hkey, hid]; rfl)
          have hdelay := h.delays p hp hgood _ e hmem (hfrom.trans hid)
          rw [hval]
          exact shows_of_accurate h.near hnonneg haccurate hdelay hlow hhigh
        | _ => contradiction
      | _ => contradiction
    · obtain ⟨n, hn, rfl⟩ := List.mem_map.mp hserver
      cases i with
      | poller k =>
        cases x with
        | tsAdd w' =>
          obtain rfl := Option.some.inj hwrite
          exact h.servers n hn hgood k _ hmem hkey
        | _ => contradiction
      | _ => contradiction

/-- An offset that `a` has fused or has commanded its clock to make up for. -/
def Corrects (a : ι) (ts : List (FedTurn c)) (x : F64) : Prop :=
  (∃ f, ⟨a, ⟨.fusion, .fused f⟩⟩ ∈ events ts ∧ f.smoothed = x) ∨
    ∃ d timex, ⟨a, ⟨.fusion, .slewed x d timex⟩⟩ ∈ events ts

private theorem Correct.corrects {low high delay : Int} {a : ι} {bad : Source → Bool}
    {stores : ι → Store} {ts : List (FedTurn c)} {s : FedState c}
    (h : Correct c skew low high delay a bad (stores a) (view a ts)) (hpaced : Paced c skew)
    (hrun : (federation c).toMachine.Run (Federation.init c stores) ts s) {x : F64}
    (hx : Corrects a ts x) : Shows skew low high delay a x := by
  have hdaemon : (daemon c.parse (c.cfg a)).toMachine.Run (Daemon.init (c.cfg a) (stores a))
      (view a ts) (s.members a) := run_view hrun a
  have hfusion : (fusion (c.cfg a)).Run (.init (c.cfg a)) (view Task.fusion (view a ts))
      ((s.members a).members .fusion) := run_view hdaemon .fusion
  have hbounded := (h.banded hpaced hrun).bounded h.trim hdaemon h.votes
  have hlocal : ∀ e : FusionEvent, ⟨a, ⟨.fusion, e⟩⟩ ∈ events ts →
      e ∈ events (view Task.fusion (view a ts)) := fun e he =>
    (mem_events_view hdaemon).mpr ((mem_events_view hrun).mpr he)
  apply shows_iff.mpr
  rcases hx with ⟨f, hf, rfl⟩ | ⟨d, timex, hslewed⟩
  · exact (hbounded.fused f (hlocal _ hf)).2
  · obtain ⟨f, hf, rfl⟩ := (run_asked hfusion).given x d timex (hlocal _ hslewed)
    exact (hbounded.fused f hf).2

/-- In every run of the daemons, and however the network and the stores treat them, the times that
correct daemons get to are in the interval of the good clocks, up to half of the delay, and two
of them differ by the width of the interval and the delay at most. -/
theorem corrections_agree {low high delay : Int} {a a' : ι} {bad bad' : Source → Bool}
    {stores : ι → Store} {ts : List (FedTurn c)} {s : FedState c} (hpaced : Paced c skew)
    (hrun : (federation c).toMachine.Run (Federation.init c stores) ts s)
    (h : Correct c skew low high delay a bad (stores a) (view a ts))
    (h' : Correct c skew low high delay a' bad' (stores a') (view a' ts)) :
    (∀ x, Corrects a ts x → Shows skew low high delay a x) ∧
      ∀ x x', Corrects a ts x → Corrects a' ts x' →
        |(skew a + x) - (skew a' + x')| ≤ high - low + delay + 1 := by
  refine ⟨fun x hx => h.corrects hpaced hrun hx, ?_⟩
  intro x x' hx hx'
  obtain ⟨hlow, hhigh⟩ := h.corrects hpaced hrun hx
  obtain ⟨hlow', hhigh'⟩ := h'.corrects hpaced hrun hx'
  rw [margin] at hlow hhigh hlow' hhigh'
  rw [abs_le]
  constructor <;> linarith

def duoCluster : Cluster Bool :=
  { pairCluster with
    cfg := fun i =>
      { pairCluster.cfg i with
        filter := { lambda := 1 / 4, trimRatio := 1 / 10, bestQuantile := 1,
                    minSamplesPerPeer := 1 } }
    id_injective := by
      unfold Function.Injective
      decide }

abbrev DuoMove := Move (FedMove duoCluster) Nat

def duoNode (i : Bool) (a : Action) : DuoMove := .member i (.member .node a)

def duoFusion (i : Bool) (a : FusionAction) : DuoMove := .member i (.member .fusion a)

/-- One exchange from `i`, with 100 ns on each way and 10 ns at the other node. -/
def duoExchange (i : Bool) (time : Nat) : List DuoMove :=
  let reads := fun j τ => duoCluster.clock j (time + τ)
  let request := Probe.request (duoCluster.cfg i)
    { seq := 1, target := ⟨if i then 1 else 2, pairAddr !i⟩, t1 := reads i 0 }
  let response := replyTo (duoCluster.cfg !i) request (reads (!i) 100) (reads (!i) 110)
  [.txTick, .txDraw (some (reads i 0)), .txSend true, .txInsert].map (duoNode i) ++
    [.drift 100] ++
    [.rxRecv (pairAddr i) request.serialize,
      .rxReadT2 (some (reads (!i) 100)) 0].map (duoNode !i) ++
    [.drift 10] ++
    [.rxReadT3 (some (reads (!i) 110)) 0, .rxReply true, .rxLatency 0].map (duoNode !i) ++
    [.drift 100] ++
    [.rxRecv (pairAddr !i) response.serialize, .rxReadT4 (some (reads i 210)) 0, .rxTake,
      .rxRuntime, .rxStore, .rxStore, .rxStore, .rxStore].map (duoNode i)

/-- An iteration that reads what the exchange has stored. -/
def duoIteration (i : Bool) (t4 : Nat) (offset : F64) : List DuoMove :=
  let read := fun metric val => FusionAction.recent (.peer (if i then 1 else 2) metric) 0 1
    (some [⟨t4, val⟩])
  [.tick 10000, read .offset offset, read .delay 200, read .jitter 0, .fuse 10000].map (duoFusion i)

def duoMoves : List DuoMove :=
  duoExchange false 0 ++ duoExchange true 210 ++ duoIteration false 1210 5000 ++
    duoIteration true 6420 (-5000)

def duoStores (_ : Bool) : Store := emptyStore

def duoTurns : List (FedTurn duoCluster) :=
  (federation duoCluster).toMachine.turnsOf (Federation.init duoCluster duoStores) duoMoves

private theorem duoMoves_run : ((federation duoCluster).toMachine.exec
    (Federation.init duoCluster duoStores) duoMoves).isSome = true := by
  decide +kernel

def duoSkew (i : Bool) : Int := if i then 6000 else 1000

private theorem duo_paced : Paced duoCluster duoSkew := by
  intro i j τ
  have hclock : ∀ k, (duoCluster.clock k τ).toNat =
      (min τ 1000000 + if k then 6000 else 1000) % 2 ^ 64 := fun k => UInt64.toNat_ofNat'
  rw [hclock, hclock]
  cases i <;> cases j <;> simp only [duoSkew, Bool.false_eq_true, if_true, if_false] <;> omega

/-- A sample with a delay of more than 200 ns. -/
def isDelayed (i : Bool) : FedEvent duoCluster i → Bool
  | ⟨.node, .tsAdd _ (.reply e)⟩ => decide (200 < e.calc.delayNs)
  | _ => false

def isOutside (i : Bool) : FedMove duoCluster i → Bool
  | .drift (.write _) => true
  | _ => false

private theorem near_duo (i : Bool) : Resolvable duoSkew 1000 6000 200 i := by
  cases i <;> constructor <;> decide

private theorem duo_correct (i : Bool) :
    Correct duoCluster duoSkew 1000 6000 200 i (fun _ => false) (duoStores i)
      (view i duoTurns) := by
  have hpeers : ∀ i, ∀ p ∈ (duoCluster.cfg i).peers,
      ∃ b, (duoCluster.cfg b).nodeId = p.id ∧ 1000 ≤ duoSkew b ∧ duoSkew b ≤ 6000 := by decide
  have hdelays : ∀ i, ∀ e ∈ events (view i duoTurns), isDelayed i e = false := by decide +kernel
  have hinside : ∀ i, ∀ t ∈ view i duoTurns, isOutside i t.action = false := by decide +kernel
  have hfew : ∀ i, (drawn (events (view Task.node (view i duoTurns)))).length < 2 ^ 32 := by
    decide +kernel
  constructor
  case peers => exact fun p hp _ _ => hpeers i p hp
  case delays =>
    intro p _ _ w e hmem _
    have hquick := hdelays i _ hmem
    simpa [isDelayed] using hquick
  case servers => exact fun n hn => absurd hn List.not_mem_nil
  case store => exact fun src _ _ e he => absurd he List.not_mem_nil
  case outside =>
    intro t ht w haction
    have hwrite := hinside i t ht
    rw [haction] at hwrite
    exact Bool.noConfusion hwrite
  case votes =>
    intro t _ since samples _ _
    simp [Outvotes]
  case trim => norm_num [duoCluster]
  case near => exact near_duo i
  case few => exact hfew i

/-- What a daemon has fused. -/
def fusedBy (i : Bool) : List F64 :=
  (events (view Task.fusion (view i duoTurns))).filterMap
    (fun | .fused f => some f.smoothed | _ => none)

private theorem corrects_of_fusedBy {i : Bool} {x : F64} (hx : x ∈ fusedBy i) :
    Corrects i duoTurns x := by
  have hrun := Run.of_actions duoMoves_run
  obtain ⟨e, he, hfused⟩ := List.mem_filterMap.mp hx
  cases e with
  | fused f =>
    have hdaemon := (mem_events_view (run_view hrun i)).mp he
    exact .inl ⟨f, (mem_events_view hrun).mp hdaemon, Option.some.inj hfused⟩
  | _ => simp at hfused

theorem corrections_agree_duo :
    fusedBy false = [5000] ∧ fusedBy true = [-5000] ∧
      |((1000 : F64) + 5000) - (6000 + -5000)| ≤ 6000 - 1000 + 200 + 1 := by
  have hfused : fusedBy false = [5000] ∧ fusedBy true = [-5000] := by decide +kernel
  have hagree := (corrections_agree duo_paced (Run.of_actions duoMoves_run) (duo_correct false)
    (duo_correct true)).2 5000 (-5000)
    (corrects_of_fusedBy (by rw [hfused.1]; exact List.mem_singleton_self _))
    (corrects_of_fusedBy (by rw [hfused.2]; exact List.mem_singleton_self _))
  exact ⟨hfused.1, hfused.2, by exact_mod_cast hagree⟩

end Zeitpeer
