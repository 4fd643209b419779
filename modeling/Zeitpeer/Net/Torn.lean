import Zeitpeer.Framework.Ghost
import Zeitpeer.Net.Discipline
import Zeitpeer.Net.Identity
import Zeitpeer.Net.Rows

/-!
# Samples that are torn apart

The writer of a source files a reading in several calls, and the loop reads the three series of
a source in several calls, with anything in between. A journal keeps the rows that the writers
have begun and the number of writes before each read. A sample is made of whole rows exactly if
its three reads find the same stamps, and while nothing is lost, if they come after the same
number of writes.
-/

namespace Zeitpeer

open Framework Machine Ensemble

variable {parse : String → UInt16 → Option SocketAddr} {cfg : Config}

/-- The rows that have been begun for each offset series, the number of writes of each series,
and what it was at the last reads of offsets and delays. -/
structure Journal where
  rows : SeriesKey → List Row
  written : SeriesKey → Nat
  offsets : Nat
  delays : Nat

def Journal.begin (g : Journal) (key : SeriesKey) (r : Row) : Journal :=
  { g with rows := Function.update g.rows key (g.rows key ++ [r]) }

def Journal.write (g : Journal) (w : TsAdd) : Journal :=
  { g with written := Function.update g.written w.key (g.written w.key + 1) }

def exchangeRow (cfg : Config) (s : NodeState) (e : Exchange) : Row :=
  { stamp := e.t4
    window := cfg.windowNs
    offset := F64.ofInt e.calc.offsetNs
    delay := F64.ofInt e.calc.delayNs
    jitter := (nextRuntime s.runtime e).lastJitterNs.getD 0 }

def measuredRow (cfg : Config) (m : Measured) : Row :=
  { stamp := m.sample.timestampNs
    window := pollerWindowNs cfg
    offset := m.sample.offsetNs
    delay := m.sample.delayNs
    jitter := m.jitter }

/-- The row that a step of the node begins. -/
def nodeBegins (cfg : Config) (s : NodeState) (a : Action) : Option (SeriesKey × Row) :=
  match a, s.rx with
  | .rxRuntime, .matched e => some (.peer e.resp.serverId .offset, exchangeRow cfg s e)
  | _, _ => none

/-- The row that a step of a poller begins. -/
def pollerBegins (cfg : Config) (src : NtpSource) (a : PollerAction) (s' : PollerState) :
    Option (SeriesKey × Row) :=
  match a, s'.task with
  | .receive _ _, .storing m _ _ => some (.ntp src.id .offset, measuredRow cfg m)
  | _, _ => none

def begins (t : DaemonTurn cfg) : Option (SeriesKey × Row) :=
  match t.action with
  | .member .node a => nodeBegins cfg (t.before.members .node) a
  | .member (.poller k) a =>
    pollerBegins cfg (cfg.ntpSources.get k) a (t.after.members (.poller k))
  | _ => none

/-- A read is remembered with the number of writes before it. -/
def Journal.read (g : Journal) (t : DaemonTurn cfg) : Journal :=
  match t.action with
  | .member .fusion (.recent key _ _ _) =>
    match (t.before.members .fusion).task with
    | .collecting _ _ _ => { g with offsets := g.written key }
    | .delays _ _ _ _ _ => { g with delays := g.written key }
    | _ => g
  | _ => g

def keepJournal (t : DaemonTurn cfg) (_ : Unit) (g : Journal) : Journal :=
  let begun := (begins t).elim g fun p => g.begin p.1 p.2
  ((storedBy t.emitted).foldl Journal.write begun).read t

def journaledDaemon (parse : String → UInt16 → Option SocketAddr) (cfg : Config) :
    Machine (DaemonState cfg × Journal)
      (Move (Task.Action (n := cfg.ntpSources.length)) StoreDrift × Unit)
      (Sigma (Task.Event (n := cfg.ntpSources.length))) :=
  (daemon parse cfg).toMachine.annotate ⟨fun _ _ => true, keepJournal⟩

abbrev JournaledTurn (cfg : Config) :=
  Turn (DaemonState cfg × Journal)
    (Move (Task.Action (n := cfg.ntpSources.length)) StoreDrift × Unit)
    (Sigma (Task.Event (n := cfg.ntpSources.length)))

@[simp] theorem Journal.read_rows (g : Journal) (t : DaemonTurn cfg) :
    (g.read t).rows = g.rows := by
  unfold Journal.read
  split
  · split <;> rfl
  · rfl

@[simp] theorem Journal.read_written (g : Journal) (t : DaemonTurn cfg) :
    (g.read t).written = g.written := by
  unfold Journal.read
  split
  · split <;> rfl
  · rfl

@[simp] theorem Journal.writes_rows (g : Journal) (ws : List TsAdd) :
    (ws.foldl Journal.write g).rows = g.rows := by
  induction ws generalizing g with
  | nil => rfl
  | cons w ws ih => exact ih (g.write w)

private theorem Journal.writes_seen (g : Journal) (ws : List TsAdd) :
    (ws.foldl Journal.write g).offsets = g.offsets ∧
      (ws.foldl Journal.write g).delays = g.delays := by
  induction ws generalizing g with
  | nil => exact ⟨rfl, rfl⟩
  | cons w ws ih => exact ih (g.write w)

private theorem keepJournal_rows (t : DaemonTurn cfg) (u : Unit) (g : Journal) (key : SeriesKey) :
    g.rows key <+: (keepJournal t u g).rows key := by
  simp only [keepJournal, Journal.read_rows, Journal.writes_rows]
  cases begins t with
  | none => exact List.prefix_refl _
  | some p =>
    change g.rows key <+: Function.update g.rows p.1 (g.rows p.1 ++ [p.2]) key
    by_cases hkey : key = p.1
    · subst hkey
      rw [Function.update_self]
      exact List.prefix_append _ _
    · rw [Function.update_of_ne hkey]

private theorem keepJournal_seen {t : DaemonTurn cfg} (u : Unit) (g : Journal)
    (hother : ∀ x, t.action ≠ .member .fusion x) :
    (keepJournal t u g).offsets = g.offsets ∧ (keepJournal t u g).delays = g.delays := by
  have hread : ∀ g : Journal, g.read t = g := by
    intro g
    unfold Journal.read
    split
    · rename_i haction
      exact absurd haction (hother _)
    · rfl
  simp only [keepJournal, hread]
  obtain ⟨hoffsets, hdelays⟩ := ((begins t).elim g fun p => g.begin p.1 p.2).writes_seen
    (storedBy t.emitted)
  rw [hoffsets, hdelays]
  cases begins t <;> exact ⟨rfl, rfl⟩

def RxTask.owed (src : Source) : RxTask → List TsAdd
  | .storing _ writes => writes.filter fun w => w.key ∈ src.readKeys
  | _ => []

def PollerEffect.write? : PollerEffect → Option TsAdd
  | .tsAdd w => some w
  | _ => none

def PollerTask.owed (src : Source) : PollerTask → List TsAdd
  | .storing _ todo _ => (todo.filterMap PollerEffect.write?).filter fun w => w.key ∈ src.readKeys
  | _ => []

/-- What a turn of a task does for a source: nothing, the beginning of a row, or a write. -/
inductive TaskTurn (src : Source) (begun : Option (SeriesKey × Row)) (ws owed owed' : List TsAdd) :
    Prop where
  | other (hbegun : ∀ r, begun ≠ some (src.offsetKey, r))
      (hws : ∀ w ∈ ws, w.key ∉ src.readKeys) (howed : owed' = owed)
  | begin (r : Row) (hbegun : begun = some (src.offsetKey, r)) (hws : ws = []) (hdone : owed = [])
      (howed : owed' = r.writes src)
  | write (w : TsAdd) (hbegun : begun = none) (hws : ws = [w]) (howed : owed = w :: owed')

private theorem TaskTurn.next {src : Source} {w : TsAdd} {rest owed' : List TsAdd}
    (howed : owed' = rest.filter fun w => w.key ∈ src.readKeys) :
    TaskTurn src none [w] ((w :: rest).filter fun w => w.key ∈ src.readKeys) owed' := by
  subst howed
  by_cases hkey : w.key ∈ src.readKeys
  · apply TaskTurn.write w rfl rfl
    simp [hkey]
  · apply TaskTurn.other (by simp)
    · intro x hx
      obtain rfl := List.mem_singleton.mp hx
      exact hkey
    · simp [hkey]

private theorem owed_sampleWrites {p : PeerEntry} {s : NodeState} {e : Exchange}
    (hid : e.resp.serverId = p.id) :
    (sampleWrites cfg e ((nextRuntime s.runtime e).lastJitterNs.getD 0)).filter
      (fun w => w.key ∈ p.source.readKeys) = (exchangeRow cfg s e).writes p.source := by
  simp [sampleWrites, Source.readKeys, PeerEntry.source, Row.writes, Row.write, Row.value,
    exchangeRow, hid]

private theorem NodeStep.taskTurn {n : Nat} (p : PeerEntry) {s s' : NodeState} {a : Action}
    {es : List Event} (hstep : NodeStep parse cfg s a s' es) :
    TaskTurn p.source (nodeBegins cfg s a) (es.filterMap (Task.write? (n := n) .node))
      (s.rx.owed p.source) (s'.rx.owed p.source) := by
  cases hstep with
  | @runtime e hrx =>
    by_cases hid : e.resp.serverId = p.id
    · apply TaskTurn.begin (exchangeRow cfg s e)
      · simp [nodeBegins, hrx, hid, PeerEntry.source]
      · rfl
      · simp [hrx, RxTask.owed]
      · exact owed_sampleWrites hid
    · apply TaskTurn.other
      · intro r
        simp [nodeBegins, hrx, hid, PeerEntry.source]
      · simp
      · simp [hrx, RxTask.owed, sampleWrites, Source.readKeys, PeerEntry.source, hid]
  | @store e w rest hrx =>
    rw [hrx]
    apply TaskTurn.next
    by_cases hrest : rest = []
    · simp [hrest, RxTask.owed]
    · simp [hrest, RxTask.owed]
  | expire sys htx =>
    apply TaskTurn.other (by simp [nodeBegins]) _ rfl
    simp [Task.write?, timeoutWrite, Source.readKeys, PeerEntry.source]
  | latency sys hrx =>
    apply TaskTurn.other (by simp [nodeBegins])
    · simp [Task.write?, latencyWrite, Source.readKeys, PeerEntry.source]
    · simp [hrx, RxTask.owed]
  | advance
  | tickIdle
  | tick
  | drawFailed
  | drew
  | sendFailed
  | sent
  | insert
  | overwrite
  | cleanup
  | sweep
  | recvDrop => exact .other (by simp [nodeBegins]) (by simp [Task.write?]) rfl
  | recvRequest hrx
  | recvResponse hrx
  | readT2 phc sys hrx
  | readT3 phc sys hrx
  | reply hrx
  | replyFailed hrx
  | readT4 phc sys hrx
  | orphan hrx
  | mismatch hrx
  | «match» hrx =>
    exact .other (by simp [nodeBegins]) (by simp [Task.write?]) (by simp [hrx, RxTask.owed])

private theorem owed_storeEffects (src : NtpSource) (m : Measured) :
    ((storeEffects cfg src m).filterMap PollerEffect.write?).filter
      (fun w => w.key ∈ src.source.readKeys) = (measuredRow cfg m).writes src.source := by
  simp [storeEffects, ntpAdd, PollerEffect.write?, Source.readKeys, NtpSource.source, Row.writes,
    Row.write, Row.value, measuredRow]

private theorem owed_withResult (src : NtpSource) (m : Measured) {metric : NtpMetric}
    (hmetric : SeriesKey.ntp src.id metric ∉ src.source.readKeys) (field : String)
    (result : Option F64) (todo : List PollerEffect) (fields : List (String × F64)) :
    (withResult cfg src m metric field result todo fields).owed src.source =
      (PollerTask.storing m todo fields).owed src.source := by
  cases result with
  | none => rfl
  | some val => simp [withResult, PollerTask.owed, ntpAdd, PollerEffect.write?, hmetric]

/-- The summary is the last thing that a poller has to publish. -/
def SummaryLast : PollerTask → Prop
  | .storing _ todo _ => ∃ front, todo = front ++ [.hmSet] ∧ .hmSet ∉ front
  | _ => True

private theorem SummaryLast.rest {m : Measured} {e : PollerEffect} {rest : List PollerEffect}
    {fields : List (String × F64)} (h : SummaryLast (.storing m (e :: rest) fields))
    (he : e ≠ .hmSet) : ∃ front, rest = front ++ [.hmSet] ∧ .hmSet ∉ front := by
  obtain ⟨front, htodo, hfront⟩ := h
  cases front with
  | nil => exact absurd (List.cons.inj htodo).1 he
  | cons e' front =>
    exact ⟨front, (List.cons.inj htodo).2, fun hmem => hfront (List.mem_cons_of_mem _ hmem)⟩

theorem SummaryLast.nothing {m : Measured} {rest : List PollerEffect}
    {fields : List (String × F64)} (h : SummaryLast (.storing m (.hmSet :: rest) fields)) :
    rest = [] := by
  obtain ⟨front, htodo, hfront⟩ := h
  cases front with
  | nil => exact (List.cons.inj htodo).2
  | cons e front =>
    obtain rfl := (List.cons.inj htodo).1
    exact absurd List.mem_cons_self hfront

private theorem PollerStep.summaryLast {src : NtpSource} {s s' : PollerState} {a : PollerAction}
    {es : List PollerEvent} (hstep : PollerStep cfg src s a s' es) (h : SummaryLast s.task) :
    SummaryLast s'.task := by
  have hresult : ∀ {m metric field result todo fields},
      (∃ front, todo = front ++ [.hmSet] ∧ .hmSet ∉ front) →
      SummaryLast (withResult cfg src m metric field result todo fields) := by
    rintro m metric field result todo fields ⟨front, rfl, hfront⟩
    cases result with
    | none => exact ⟨front, rfl, hfront⟩
    | some val => exact ⟨ntpAdd cfg src m metric val :: front, rfl, by simp [ntpAdd, hfront]⟩
  cases hstep with
  | unread
  | skipped => exact h
  | request
  | lost
  | rejected
  | hmSet => trivial
  | @sampled resp c t1 t4 sample =>
    exact ⟨(storeEffects cfg src (measure s sample)).dropLast, rfl, by simp [storeEffects, ntpAdd]⟩
  | tsAdd htask =>
    rw [htask] at h
    exact h.rest (by simp)
  | @systemNow c m rest fields htask =>
    rw [htask] at h
    obtain ⟨front, rfl, hfront⟩ := h.rest (by simp)
    refine ⟨ntpAdd cfg src m .remoteTime (remoteSeconds m) ::
      ntpAdd cfg src m .systemDelta (systemDelta m c) :: front, rfl, ?_⟩
    simp [ntpAdd, hfront]
  | compare others htask =>
    rw [htask] at h
    exact hresult (h.rest (by simp))
  | ping ms htask =>
    rw [htask] at h
    exact hresult (h.rest (by simp))

theorem run_summaryLast {src : NtpSource} {ts : List (Turn PollerState PollerAction PollerEvent)}
    {s : PollerState} (hrun : (poller cfg src).Run {} ts s) : SummaryLast s.task := by
  induction hrun with
  | start => trivial
  | turn _ hstep ih => exact (PollerStep.of_step hstep).summaryLast ih

private theorem PollerStep.taskTurn {n : Nat} {k : Fin n} (src : NtpSource) {s s' : PollerState}
    {a : PollerAction} {es : List PollerEvent} (hstep : PollerStep cfg src s a s' es)
    (hlast : SummaryLast s.task) :
    TaskTurn src.source (pollerBegins cfg src a s') (es.filterMap (Task.write? (.poller k)))
      (s.task.owed src.source) (s'.task.owed src.source) := by
  cases hstep with
  | @sampled resp c t1 t4 sample htask hlen hclock hsample =>
    apply TaskTurn.begin (measuredRow cfg (measure s sample))
    · rfl
    · rfl
    · simp [htask, PollerTask.owed]
    · exact owed_storeEffects src (measure s sample)
  | @tsAdd m w rest fields htask =>
    rw [htask]
    exact TaskTurn.next rfl
  | unread
  | skipped => exact .other (by simp [pollerBegins]) (by simp) rfl
  | request c htask
  | lost htask
  | rejected resp c htask =>
    exact .other (by simp [pollerBegins]) (by simp [Task.write?]) (by simp [htask, PollerTask.owed])
  | hmSet htask =>
    rw [htask] at hlast
    obtain rfl := hlast.nothing
    exact .other (by simp [pollerBegins]) (by simp [Task.write?])
      (by simp [htask, PollerTask.owed, PollerEffect.write?])
  | systemNow c htask =>
    apply TaskTurn.other (by simp [pollerBegins]) (by simp)
    simp [htask, withSystem, PollerTask.owed, ntpAdd, PollerEffect.write?, Source.readKeys,
      NtpSource.source]
    rfl
  | compare others htask =>
    apply TaskTurn.other (by simp [pollerBegins]) (by simp)
    rw [htask]
    exact owed_withResult src _ (by simp [Source.readKeys, NtpSource.source]) _ _ _ _
  | ping ms htask =>
    apply TaskTurn.other (by simp [pollerBegins]) (by simp)
    rw [htask]
    exact owed_withResult src _ (by simp [Source.readKeys, NtpSource.source]) _ _ _ _

/-! ## The desk of a source -/

namespace SourceRef

/-- The task that files the readings of an entry. -/
def writer : SourceRef cfg → TaskOf cfg
  | .peer _ => .node
  | .ntp k => .poller k

/-- What that task has still to file. -/
def owed (s : DaemonState cfg) : SourceRef cfg → List TsAdd
  | .peer k => (s.members .node).rx.owed (source (.peer k))
  | .ntp k => (s.members (.poller k)).task.owed (source (.ntp k))

def desk (a : SourceRef cfg) (s : DaemonState cfg × Journal) : Desk :=
  ⟨s.2.rows a.source.offsetKey, a.owed s.1, s.2.written, s.1.medium⟩

private theorem split (a : SourceRef cfg) : a.source.Split := by
  cases a <;> simp [Source.Split, Source.readKeys, source, PeerEntry.source, NtpSource.source]

private theorem mem_all (a : SourceRef cfg) : a ∈ all cfg := by
  cases a with
  | peer k => exact List.mem_append_left _ (List.mem_map_of_mem (List.mem_finRange k))
  | ntp k => exact List.mem_append_right _ (List.mem_map_of_mem (List.mem_finRange k))

private theorem writer_of_owns (hids : (cfg.ntpSources.map NtpSource.id).Nodup) (a : SourceRef cfg)
    {key : SeriesKey} (hkey : key ∈ a.source.readKeys) {i : TaskOf cfg}
    (howns : i.owns cfg key = true) : i = a.writer := by
  cases a with
  | peer k =>
    simp only [Source.readKeys, source, PeerEntry.source, List.mem_cons, List.not_mem_nil,
      or_false] at hkey
    rcases hkey with rfl | rfl | rfl <;> cases i with
    | node => rfl
    | fusion
    | poller => contradiction
  | ntp k =>
    simp only [Source.readKeys, source, NtpSource.source, List.mem_cons, List.not_mem_nil,
      or_false] at hkey
    rcases hkey with rfl | rfl | rfl <;> cases i with
    | node
    | fusion => contradiction
    | poller j =>
      have hid := of_decide_eq_true howns
      rw [(nodup_map_iff NtpSource.id cfg.ntpSources).mp hids j k hid.symm]
      rfl

end SourceRef

private theorem mem_readKeys (src : Source) : src.offsetKey ∈ src.readKeys := List.mem_cons_self

private theorem begins_owns {t : DaemonTurn cfg} {i : TaskOf cfg} {x : i.Action}
    (haction : t.action = .member i x) {key : SeriesKey} {r : Row}
    (hbegins : begins t = some (key, r)) : i.owns cfg key = true := by
  simp only [begins, haction] at hbegins
  cases i with
  | node =>
    simp only [nodeBegins] at hbegins
    split at hbegins
    · obtain ⟨rfl, _⟩ := Prod.mk.inj (Option.some.inj hbegins)
      rfl
    · contradiction
  | fusion => contradiction
  | poller k =>
    simp only [pollerBegins] at hbegins
    split at hbegins
    · obtain ⟨rfl, _⟩ := Prod.mk.inj (Option.some.inj hbegins)
      exact decide_eq_true rfl
    · contradiction

private theorem taskTurn (hids : (cfg.ntpSources.map NtpSource.id).Nodup) {store : Store}
    {ts : List (DaemonTurn cfg)} {s s' : DaemonState cfg} {i : TaskOf cfg} {x : i.Action}
    {es : List (Sigma Task.Event)}
    (hrun : (daemon parse cfg).toMachine.Run (Daemon.init cfg store) ts s)
    (hstep : (daemon parse cfg).toMachine.step s (.member i x) = some (s', es))
    (a : SourceRef cfg) :
    TaskTurn a.source (begins ⟨s, .member i x, es, s'⟩) (storedBy es) (a.owed s) (a.owed s') := by
  have hall := hrun.turn hstep
  obtain ⟨next, fs, _, hlocal, rfl, rfl⟩ := step_member hstep
  by_cases hwriter : i = a.writer
  · subst hwriter
    rw [storedBy_map]
    cases a with
    | peer k =>
      have hturn := (NodeStep.of_step hlocal).taskTurn (n := cfg.ntpSources.length)
        ((others cfg).get k)
      exact hturn
    | ntp k =>
      have hlast := run_summaryLast (run_view hrun (.poller k))
      have hturn := (PollerStep.of_step hlocal).taskTurn (k := k) (cfg.ntpSources.get k) hlast
      have hnext : Function.update s.members (Task.poller k) next (Task.poller k) = next :=
        Function.update_self _ _ _
      change TaskTurn _ (pollerBegins cfg (cfg.ntpSources.get k) x
        (Function.update s.members (Task.poller k) next (Task.poller k))) _ _
        (PollerTask.owed _ (Function.update s.members (Task.poller k) next (Task.poller k)).task)
      rw [hnext]
      exact hturn
  · apply TaskTurn.other
    · intro r hbegins
      exact hwriter (a.writer_of_owns hids (mem_readKeys _) (begins_owns rfl hbegins))
    · intro w hw hkey
      obtain ⟨e, he, hwrite⟩ := List.mem_filterMap.mp hw
      obtain ⟨f, _, rfl⟩ := List.mem_map.mp he
      have howns := run_owns hall (mem_events_last he) hwrite
      exact hwriter (a.writer_of_owns hids hkey howns)
    · cases a with
      | peer k =>
        have hother : Task.node ≠ i := Ne.symm hwriter
        simp only [SourceRef.owed, Function.update_of_ne hother]
      | ntp k =>
        have hother : Task.poller k ≠ i := Ne.symm hwriter
        simp only [SourceRef.owed, Function.update_of_ne hother]

private theorem stored_elsewhere {ws : List TsAdd} {key : SeriesKey} (hws : ∀ w ∈ ws, w.key ≠ key)
    (store : Store) (g : Journal) :
    ws.foldl Store.tsAdd store key = store key ∧
      (ws.foldl Journal.write g).written key = g.written key := by
  induction ws generalizing store g with
  | nil => exact ⟨rfl, rfl⟩
  | cons w ws ih =>
    have hne : key ≠ w.key := (hws w List.mem_cons_self).symm
    obtain ⟨hstore, hwritten⟩ := ih (fun w hw => hws w (List.mem_cons_of_mem _ hw)) (store.tsAdd w)
      (g.write w)
    rw [List.foldl_cons, List.foldl_cons, hstore, hwritten]
    exact ⟨tsAdd_of_ne hne, Function.update_of_ne hne _ _⟩

private theorem TaskTurn.step {src : Source} {begun : Option (SeriesKey × Row)}
    {ws owed owed' : List TsAdd} (h : TaskTurn src begun ws owed owed') (store : Store)
    (g : Journal) :
    Desk.Step src ⟨g.rows src.offsetKey, owed, g.written, store⟩
      ⟨(begun.elim g fun p => g.begin p.1 p.2).rows src.offsetKey, owed',
        (ws.foldl Journal.write (begun.elim g fun p => g.begin p.1 p.2)).written,
        ws.foldl Store.tsAdd store⟩ := by
  have hwritten : (begun.elim g fun p => g.begin p.1 p.2).written = g.written := by
    cases begun <;> rfl
  cases h with
  | other hbegun hws howed =>
    refine .other ⟨?_, ?_⟩ ?_ howed
    · intro key hkey
      have helse := stored_elsewhere (fun w hw heq => hws w hw (heq ▸ hkey)) store
        (begun.elim g fun p => g.begin p.1 p.2)
      exact helse.2.trans (congrFun hwritten key)
    · intro key hkey
      exact (stored_elsewhere (fun w hw heq => hws w hw (heq ▸ hkey)) store g).1
    · cases begun with
      | none => rfl
      | some p =>
        have hne : src.offsetKey ≠ p.1 := fun heq => hbegun p.2 (by rw [heq])
        exact Function.update_of_ne hne _ _
  | begin r hbegun hws hdone howed =>
    subst hbegun hws
    refine .begin r ⟨fun _ _ => rfl, fun _ _ => rfl⟩ hdone ?_ howed
    exact Function.update_self _ _ _
  | write w hbegun hws howed =>
    subst hbegun hws
    refine .write w rfl howed ?_ fun _ _ => rfl
    intro key _
    by_cases hkey : key = w.key
    · subst hkey
      rw [if_pos rfl]
      exact Function.update_self _ _ _
    · rw [if_neg hkey]
      exact Function.update_of_ne hkey _ _

/-- Nothing is lost from the series that are read, and nobody else writes them. -/
def keepsSeries (t : JournaledTurn cfg) : Bool :=
  match t.action.1 with
  | .member _ _ => true
  | .drift d => !isReadKey cfg d.key

/-- The write puts back an entry that the writer of the source has filed before. -/
def putsBack (s : DaemonState cfg × Journal) (w : TsAdd) (src : Source) : Bool :=
  w.windowNs = 0 ∧ w.entry ∉ s.1.medium w.key ∧
    w.entry ∈ ((s.2.rows src.offsetKey).take (s.2.written w.key)).map (Row.entry src w.key)

/-- Entries may get lost, but nothing comes in that is not the source's own. A `ts_add` that
fails is one that succeeds and is undone: its entry gets lost, or what it has trimmed is put
back. -/
def ownSeries (t : JournaledTurn cfg) : Bool :=
  match t.action.1 with
  | .drift (.write w) =>
    (sources cfg).all fun src => w.key ∉ src.readKeys || putsBack t.before w src
  | _ => true

private theorem ownSeries_of_keeps {t : JournaledTurn cfg} (hkept : keepsSeries t = true) :
    ownSeries t = true := by
  unfold ownSeries
  split
  · rename_i w haction
    unfold keepsSeries at hkept
    rw [haction] at hkept
    have hread : isReadKey cfg w.key = false := by
      simpa [StoreDrift.key] using hkept
    rw [isReadKey, List.any_eq_false] at hread
    apply List.all_eq_true.mpr
    intro src hsrc
    have hnot := hread src hsrc
    simp only [decide_eq_true_eq] at hnot
    simp [hnot]
  · rfl

private theorem SourceRef.source_mem (a : SourceRef cfg) : a.source ∈ sources cfg := by
  rw [← SourceRef.all_source]
  exact List.mem_map_of_mem a.mem_all

private theorem isReadKey_source (a : SourceRef cfg) {key : SeriesKey}
    (hkey : key ∈ a.source.readKeys) : isReadKey cfg key = true :=
  isReadKey_iff.mpr ⟨a.source, a.source_mem, hkey⟩

private theorem journaled_step {s s' : DaemonState cfg × Journal}
    {m : Move (Task.Action (n := cfg.ntpSources.length)) StoreDrift × Unit}
    {es : List (Sigma Task.Event)}
    (hstep : (journaledDaemon parse cfg).step s m = some (s', es)) :
    (daemon parse cfg).toMachine.step s.1 m.1 = some (s'.1, es) ∧
      s'.2 = keepJournal ⟨s.1, m.1, es, s'.1⟩ m.2 s.2 := by
  obtain ⟨_, hplain, hlog⟩ := annotate_step.mp hstep
  exact ⟨hplain, hlog⟩

private theorem journaled_drift {s s' : DaemonState cfg × Journal} {d : StoreDrift} {u : Unit}
    {es : List (Sigma Task.Event)}
    (hstep : (journaledDaemon parse cfg).step s (.drift d, u) = some (s', es)) :
    ∃ store, s.1.medium.drift d = some store ∧ s' = (⟨s.1.members, store⟩, s.2) := by
  obtain ⟨hplain, hlog⟩ := journaled_step hstep
  obtain ⟨store, hdrift, hs', rfl⟩ := step_drift hplain
  exact ⟨store, hdrift, Prod.ext hs' hlog⟩

private theorem SourceRef.desk_store (a : SourceRef cfg) (s : DaemonState cfg × Journal)
    (store : Store) : a.desk (⟨s.1.members, store⟩, s.2) = { a.desk s with series := store } := by
  cases a <;> rfl

private theorem desk_turn (hids : (cfg.ntpSources.map NtpSource.id).Nodup) {store : Store}
    {g : Journal} {ts : List (JournaledTurn cfg)} {s s' : DaemonState cfg × Journal}
    {m : Move (Task.Action (n := cfg.ntpSources.length)) StoreDrift × Unit}
    {es : List (Sigma Task.Event)}
    (hrun : (journaledDaemon parse cfg).Run (Daemon.init cfg store, g) ts s)
    (hstep : (journaledDaemon parse cfg).step s m = some (s', es))
    (hkept : keepsSeries ⟨s, m, es, s'⟩ = true) (a : SourceRef cfg) :
    Desk.Step a.source (a.desk s) (a.desk s') := by
  obtain ⟨m, u⟩ := m
  cases m with
  | drift d =>
    obtain ⟨store, hdrift, rfl⟩ := journaled_drift hstep
    have hread : isReadKey cfg d.key = false := by
      simpa [keepsSeries] using hkept
    rw [a.desk_store]
    refine .other ⟨fun _ _ => rfl, ?_⟩ rfl rfl
    intro key hkey
    apply drift_of_ne hdrift
    rintro rfl
    rw [isReadKey_source a hkey] at hread
    contradiction
  | member i x =>
    obtain ⟨s', g'⟩ := s'
    obtain ⟨hplain, hkeep⟩ := journaled_step hstep
    have hturn := taskTurn hids hrun.plain hplain a
    obtain ⟨next, fs, _, _, hs', rfl⟩ := step_member hplain
    have hmedium : s'.medium = (storedBy (fs.map (Sigma.mk i))).foldl Store.tsAdd s.1.medium := by
      rw [storedBy_map, show s' = _ from hs']
      rfl
    have hstep := hturn.step s.1.medium s.2
    rw [← hmedium] at hstep
    simpa [SourceRef.desk, show g' = _ from hkeep, keepJournal] using hstep

private theorem lose_sublist (store : Store) (lost : SeriesKey) (e : Entry) (key : SeriesKey) :
    (Function.update store lost ((store lost).erase e) key).Sublist (store key) := by
  by_cases hkey : key = lost
  · subst hkey
    rw [Function.update_self]
    exact List.erase_sublist
  · rw [Function.update_of_ne hkey]

private theorem backed_drift {s : DaemonState cfg × Journal} {d : StoreDrift} {store : Store}
    (hdrift : s.1.medium.drift d = some store) {src : Source}
    (hown : ∀ w, d = .write w → w.key ∈ src.readKeys → putsBack s w src = true) {owed : List TsAdd}
    (h : Desk.Backed src ⟨s.2.rows src.offsetKey, owed, s.2.written, s.1.medium⟩) :
    Desk.Backed src ⟨s.2.rows src.offsetKey, owed, s.2.written, store⟩ := by
  cases d with
  | lose lost e =>
    obtain rfl := Option.some.inj hdrift
    exact h.lose rfl rfl rfl fun key _ => lose_sublist _ lost e key
  | write w =>
    obtain rfl := Option.some.inj hdrift
    by_cases hkey : w.key ∈ src.readKeys
    · obtain ⟨hwindow, habsent, hfiled⟩ := of_decide_eq_true (hown w rfl hkey)
      exact h.putBack rfl rfl rfl hfiled habsent (tsAdd_untrimmed hwindow)
    · refine h.lose rfl rfl rfl ?_
      intro key hread
      change (s.1.medium.tsAdd w key).Sublist (s.1.medium key)
      rw [tsAdd_of_ne fun heq => hkey (heq ▸ hread)]

private theorem backed_turn (hids : (cfg.ntpSources.map NtpSource.id).Nodup) {store : Store}
    {g : Journal} {ts : List (JournaledTurn cfg)} {s s' : DaemonState cfg × Journal}
    {m : Move (Task.Action (n := cfg.ntpSources.length)) StoreDrift × Unit}
    {es : List (Sigma Task.Event)}
    (hrun : (journaledDaemon parse cfg).Run (Daemon.init cfg store, g) ts s)
    (hstep : (journaledDaemon parse cfg).step s m = some (s', es))
    (hown : ownSeries ⟨s, m, es, s'⟩ = true) (a : SourceRef cfg)
    (h : (a.desk s).Backed a.source) : (a.desk s').Backed a.source := by
  obtain ⟨m, u⟩ := m
  cases m with
  | member i x => exact (desk_turn hids hrun hstep rfl a).backed a.split h
  | drift d =>
    obtain ⟨store, hdrift, rfl⟩ := journaled_drift hstep
    rw [a.desk_store]
    apply backed_drift hdrift _ h
    rintro w rfl hkey
    have hsource := List.all_eq_true.mp hown a.source a.source_mem
    simpa [hkey] using hsource

/-! ## What the loop holds -/

/-- A relation between readings and the rows, and the number of writes, that they come from. -/
abbrev Reads : Type :=
  Source → SeriesKey → List Row → Nat → UInt64 → List (UInt64 × F64) → Prop

/-- It lasts while rows are added. -/
structure Lasting (R : Reads) : Prop where
  mono : ∀ {src key rows rows' n since readings}, rows <+: rows' →
    R src key rows n since readings → R src key rows' n since readings

/-- It is established by every read of a series. -/
def Established (R : Reads) (s : DaemonState cfg × Journal) : Prop :=
  ∀ src ∈ sources cfg, ∀ key ∈ src.readKeys, ∀ since entries,
    IsRecent (s.1.medium key) since (readLimit cfg) entries →
      R src key (s.2.rows src.offsetKey) (s.2.written key) since (entries.map Entry.reading)

/-- What the loop holds of a source has been read. -/
def LoopHolds (cfg : Config) (R : Reads) (g : Journal) : FusionTask → Prop
  | .delays since src offsets _ _ =>
    R src src.offsetKey (g.rows src.offsetKey) g.offsets since offsets ∧
      readLimit cfg ≤ offsets.length
  | .jitters since src offsets delays _ _ =>
    (R src src.offsetKey (g.rows src.offsetKey) g.offsets since offsets ∧
      readLimit cfg ≤ offsets.length) ∧
    R src src.delayKey (g.rows src.offsetKey) g.delays since delays
  | _ => True

variable {R : Reads}

private theorem LoopHolds.mono (hlasting : Lasting R) {g g' : Journal} {task : FusionTask}
    (h : LoopHolds cfg R g task) (hrows : ∀ key, g.rows key <+: g'.rows key)
    (hoffsets : g'.offsets = g.offsets) (hdelays : g'.delays = g.delays) :
    LoopHolds cfg R g' task := by
  cases task with
  | delays since src offsets todo samples =>
    rw [LoopHolds, hoffsets]
    exact ⟨hlasting.mono (hrows _) h.1, h.2⟩
  | jitters since src offsets delays todo samples =>
    rw [LoopHolds, hoffsets, hdelays]
    exact ⟨⟨hlasting.mono (hrows _) h.1.1, h.1.2⟩, hlasting.mono (hrows _) h.2⟩
  | _ => trivial

private theorem keepJournal_read {t : DaemonTurn cfg} {key : SeriesKey} {since : UInt64}
    {limit : Nat} {reply : Option (List Entry)}
    (haction : t.action = .member .fusion (.recent key since limit reply))
    (hemitted : t.emitted = []) (u : Unit) (g : Journal) : keepJournal t u g = g.read t := by
  simp [keepJournal, begins, haction, hemitted, storedBy]

private theorem holds_afterEffects (g : Journal) (rest : List Effect) :
    LoopHolds cfg R g (afterEffects rest) := by
  cases rest <;> trivial

private theorem FusionStep.holds {s : DaemonState cfg × Journal} (hread : Established R s)
    {t : DaemonTurn cfg} (hbefore : t.before = s.1) {f' : FusionState} {x : FusionAction}
    {fs : List FusionEvent} (hstep : FusionStep cfg (s.1.members .fusion) x f' fs)
    (haction : t.action = .member .fusion x) (hemitted : t.emitted = fs.map (Sigma.mk .fusion))
    (hahead : (s.1.members .fusion).task.ahead <:+ sources cfg)
    (hreply : ∀ key since limit entries, x = .recent key since limit (some entries) →
      IsRecent (s.1.medium key) since limit entries)
    (h : LoopHolds cfg R s.2 (s.1.members .fusion).task) (u : Unit) :
    LoopHolds cfg R (keepJournal t u s.2) f'.task := by
  cases hstep with
  | skip now hidle =>
    rw [hidle]
    trivial
  | @enough since src todo samples entries htask hmany =>
    have hsrc : src ∈ sources cfg := by
      rw [htask] at hahead
      exact hahead.subset List.mem_cons_self
    have hoffsets := hread src hsrc _ (mem_readKeys src) _ _ (hreply _ _ _ _ rfl)
    have hjournal : keepJournal t u s.2 = { s.2 with offsets := s.2.written src.offsetKey } := by
      rw [keepJournal_read haction hemitted, Journal.read, haction]
      simp only [hbefore, htask]
    rw [hjournal]
    exact ⟨hoffsets, by rwa [List.length_map]⟩
  | @delays since src offsets todo samples entries htask =>
    have hsrc : src ∈ sources cfg := by
      rw [htask] at hahead
      exact hahead.subset List.mem_cons_self
    have hkey : src.delayKey ∈ src.readKeys := List.mem_cons_of_mem _ List.mem_cons_self
    have hdelays := hread src hsrc _ hkey _ _ (hreply _ _ _ _ rfl)
    have hjournal : keepJournal t u s.2 = { s.2 with delays := s.2.written src.delayKey } := by
      rw [keepJournal_read haction hemitted, Journal.read, haction]
      simp only [hbefore, htask]
    rw [htask] at h
    rw [hjournal]
    exact ⟨h, hdelays⟩
  | tsAdd
  | slew
  | hmSet
  | phcAbsent => exact holds_afterEffects _ _
  | _ => trivial

private theorem LoopHolds.quiet (hlasting : Lasting R) {s s' : DaemonState cfg × Journal}
    {m : Move (Task.Action (n := cfg.ntpSources.length)) StoreDrift × Unit}
    {es : List (Sigma Task.Event)}
    (hstep : (journaledDaemon parse cfg).step s m = some (s', es))
    (hother : ∀ x, m.1 ≠ .member .fusion x)
    (hsame : s'.1.members .fusion = s.1.members .fusion)
    (h : LoopHolds cfg R s.2 (s.1.members .fusion).task) :
    LoopHolds cfg R s'.2 (s'.1.members .fusion).task := by
  obtain ⟨_, hkeep⟩ := journaled_step hstep
  rw [hkeep, hsame]
  have hseen := keepJournal_seen (t := ⟨s.1, m.1, es, s'.1⟩) m.2 s.2 hother
  exact h.mono hlasting (keepJournal_rows _ _ _) hseen.1 hseen.2

private theorem holds_turn (hlasting : Lasting R) {store : Store} {g : Journal}
    {ts : List (JournaledTurn cfg)}
    {s s' : DaemonState cfg × Journal}
    {m : Move (Task.Action (n := cfg.ntpSources.length)) StoreDrift × Unit}
    {es : List (Sigma Task.Event)}
    (hrun : (journaledDaemon parse cfg).Run (Daemon.init cfg store, g) ts s)
    (hstep : (journaledDaemon parse cfg).step s m = some (s', es)) (hread : Established R s)
    (h : LoopHolds cfg R s.2 (s.1.members .fusion).task) :
    LoopHolds cfg R s'.2 (s'.1.members .fusion).task := by
  obtain ⟨m, u⟩ := m
  cases m with
  | drift d =>
    obtain ⟨store, _, rfl⟩ := journaled_drift hstep
    exact h.quiet hlasting hstep (by simp) rfl
  | member i x =>
    obtain ⟨hplain, hkeep⟩ := journaled_step hstep
    obtain ⟨next, fs, _, hlocal, hs', hes⟩ := step_member hplain
    have hnext : s'.1.members i = next := by
      rw [show s'.1 = _ from hs']
      exact Function.update_self _ _ _
    cases i with
    | fusion =>
      have hdaemon : (daemon parse cfg).toMachine.Run (Daemon.init cfg store) (ts.map plain) s.1 :=
        hrun.plain
      rw [hkeep, hnext]
      apply (FusionStep.of_step hlocal).holds hread rfl rfl hes
      · exact run_ahead (run_view hdaemon .fusion)
      · rintro key since limit entries rfl
        exact read_answered hplain
      · exact h
    | node
    | poller k =>
      apply h.quiet hlasting hstep (by simp)
      rw [show s'.1 = _ from hs']
      rfl

/-- Every desk is in step. -/
def DesksInStep (cfg : Config) (s : DaemonState cfg × Journal) : Prop :=
  ∀ a : SourceRef cfg, (a.desk s).InStep a.source

/-- Every desk is backed. -/
def DesksBacked (cfg : Config) (s : DaemonState cfg × Journal) : Prop :=
  ∀ a : SourceRef cfg, (a.desk s).Backed a.source

private theorem DesksInStep.backed {s : DaemonState cfg × Journal} (h : DesksInStep cfg s) :
    DesksBacked cfg s := fun a => (h a).backed

private theorem DesksInStep.established {s : DaemonState cfg × Journal} (h : DesksInStep cfg s) :
    Established (ReadFrom cfg) s := by
  intro src hsrc key hkey since entries hrecent
  rw [← SourceRef.all_source] at hsrc
  obtain ⟨a, _, rfl⟩ := List.mem_map.mp hsrc
  refine ⟨(h a).written_le hkey, entries, rfl, ?_⟩
  have hseries := (h a).series key hkey
  change s.1.medium key = _ at hseries
  rw [hseries] at hrecent
  exact hrecent

def ReadsSome (cfg : Config) : Reads := fun src key rows _ since readings =>
  ReadSome cfg src key rows since readings

private theorem DesksBacked.column {s : DaemonState cfg × Journal} (h : DesksBacked cfg s)
    {src : Source} (hsrc : src ∈ sources cfg) {key : SeriesKey} (hkey : key ∈ src.readKeys) :
    ∃ kept, List.Sublist kept (s.2.rows src.offsetKey) ∧
      (s.1.medium key).Perm (kept.map (Row.entry src key)) := by
  rw [← SourceRef.all_source] at hsrc
  obtain ⟨a, _, rfl⟩ := List.mem_map.mp hsrc
  obtain ⟨entries, hperm, hsub⟩ := (h a).series key hkey
  obtain ⟨kept, hkept, rfl⟩ := List.sublist_map_iff.mp hsub
  exact ⟨kept, hkept.trans (List.take_sublist _ _), hperm.symm⟩

private theorem DesksBacked.established {s : DaemonState cfg × Journal} (h : DesksBacked cfg s) :
    Established (ReadsSome cfg) s := by
  intro src hsrc key hkey since entries hrecent
  obtain ⟨kept, hkept, hseries⟩ := h.column hsrc hkey
  exact ⟨kept, entries, hkept, rfl, hrecent.perm hseries⟩

section Runs

variable {store : Store} {g : Journal} {ts : List (JournaledTurn cfg)}
  {s : DaemonState cfg × Journal}

theorem run_desks (hids : (cfg.ntpSources.map NtpSource.id).Nodup)
    (hstart : DesksInStep cfg (Daemon.init cfg store, g))
    (hrun : (journaledDaemon parse cfg).Run (Daemon.init cfg store, g) ts s)
    (hkept : ∀ t ∈ ts, keepsSeries t = true) :
    DesksInStep cfg s ∧ LoopHolds cfg (ReadFrom cfg) s.2 (s.1.members .fusion).task := by
  refine hrun.invariant_of (P := fun t => keepsSeries t = true)
    (I := fun _ s => DesksInStep cfg s ∧
      LoopHolds cfg (ReadFrom cfg) s.2 (s.1.members .fusion).task)
    ⟨hstart, trivial⟩ ?_ hkept
  rintro ts s a s' es hbefore ⟨hdesks, hloop⟩ hstep hturn
  have hlasting : Lasting (ReadFrom cfg) := ⟨fun hrows hread => hread.mono hrows⟩
  refine ⟨fun b => ?_, holds_turn hlasting hbefore hstep hdesks.established hloop⟩
  exact (desk_turn hids hbefore hstep hturn b).inStep b.split (hdesks b)

theorem run_backed_desks (hids : (cfg.ntpSources.map NtpSource.id).Nodup)
    (hstart : DesksBacked cfg (Daemon.init cfg store, g))
    (hrun : (journaledDaemon parse cfg).Run (Daemon.init cfg store, g) ts s)
    (hown : ∀ t ∈ ts, ownSeries t = true) :
    DesksBacked cfg s ∧ LoopHolds cfg (ReadsSome cfg) s.2 (s.1.members .fusion).task := by
  refine hrun.invariant_of (P := fun t => ownSeries t = true)
    (I := fun _ s => DesksBacked cfg s ∧
      LoopHolds cfg (ReadsSome cfg) s.2 (s.1.members .fusion).task)
    ⟨hstart, trivial⟩ ?_ hown
  rintro ts s a s' es hbefore ⟨hdesks, hloop⟩ hstep hturn
  have hlasting : Lasting (ReadsSome cfg) := ⟨fun hrows hread => hread.mono hrows⟩
  refine ⟨fun b => ?_, holds_turn hlasting hbefore hstep hdesks.established hloop⟩
  exact backed_turn hids hbefore hstep hturn b (hdesks b)

private theorem jitter_read {t : JournaledTurn cfg}
    (hrun : (journaledDaemon parse cfg).Run (Daemon.init cfg store, g) ts t.before)
    (hstep : (journaledDaemon parse cfg).step t.before t.action = some (t.after, t.emitted))
    {since since' : UInt64} {src : Source} {offsets delays : List (UInt64 × F64)}
    {todo : List Source} {samples : List PeerSample} {key : SeriesKey} {limit : Nat}
    {reply : List Entry}
    (htask : (t.before.1.members .fusion).task = .jitters since src offsets delays todo samples)
    (haction : t.action.1 = .member .fusion (.recent key since' limit (some reply))) :
    src ∈ sources cfg ∧
      IsRecent (t.before.1.medium src.jitterKey) since (readLimit cfg) reply := by
  obtain ⟨_, hplain, _⟩ := annotate_step.mp hstep
  rw [haction] at hplain
  have hread := read_answered hplain
  obtain ⟨_, _, _, hlocal, _⟩ := step_member hplain
  obtain ⟨hreads, rfl, _⟩ := fusionStep_recent hlocal
  rw [htask] at hreads
  obtain ⟨rfl, rfl⟩ := Prod.mk.inj (Option.some.inj hreads)
  refine ⟨?_, hread⟩
  have hahead := run_ahead (run_view hrun.plain .fusion)
  rw [htask] at hahead
  exact hahead.subset List.mem_cons_self

end Runs

/-- The stamps that a read of a series finds. -/
def stampsFound (since : UInt64) (limit : Nat) (entries : List Entry) : List UInt64 :=
  (top id since limit entries).map fun e => e.reading.1

/-- The reads of offsets and delays have found the stamps that the read of the jitters finds. -/
def SameStamps (cfg : Config) (store : Store) (src : Source) (since : UInt64)
    (offsets delays : List (UInt64 × F64)) : Prop :=
  offsets.map Prod.fst = delays.map Prod.fst ∧
    delays.map Prod.fst = stampsFound since (readLimit cfg) (store src.jitterKey)

/-- The three reads of a sample come after the same number of writes of their series. -/
def SameWrites (g : Journal) (src : Source) : Prop :=
  g.offsets = g.delays ∧ g.delays = g.written src.jitterKey

private theorem stampsFound_eq {rows : List Row} (hdistinct : DistinctStamps rows) {src : Source}
    {key : SeriesKey} {entries : List Entry} (hseries : entries.Perm (rows.map (Row.entry src key)))
    {since : UInt64} {reply : List Entry} (hrecent : IsRecent entries since (readLimit cfg) reply) :
    (reply.map Entry.reading).map Prod.fst = stampsFound since (readLimit cfg) entries := by
  have hcolumn : Distinct id (rows.map (Row.entry src key)) :=
    List.pairwise_map.mpr hdistinct.distinct
  have hentries : Distinct id entries := hseries.symm.pairwise hcolumn fun h => h.symm
  rw [← List.map_id entries] at hrecent
  rw [hrecent.eq_top (readLimit_pos cfg) hentries, List.map_id, List.map_map]
  rfl

/-- In every run in which nothing comes into the series that is not their writers' own and no two
exchanges of a source have one stamp, whatever gets lost, a sample is made of the columns of the
same exchanges, and of enough of them, exactly if its three reads find the same stamps. If nothing
has been lost they do after the same number of writes, and if the stamps rise only then. -/
theorem whole_sample_iff (hids : (cfg.ntpSources.map NtpSource.id).Nodup) {store : Store}
    {g : Journal} (hstart : DesksBacked cfg (Daemon.init cfg store, g))
    {ts : List (JournaledTurn cfg)} {s : DaemonState cfg × Journal}
    (hrun : (journaledDaemon parse cfg).Run (Daemon.init cfg store, g) ts s)
    (hown : ∀ t ∈ ts, ownSeries t = true) {t : JournaledTurn cfg} (ht : t ∈ ts)
    {since since' : UInt64} {src : Source} {offsets delays : List (UInt64 × F64)}
    {todo : List Source} {samples : List PeerSample} {key : SeriesKey} {limit : Nat}
    {reply : List Entry}
    (htask : (t.before.1.members .fusion).task = .jitters since src offsets delays todo samples)
    (haction : t.action.1 = .member .fusion (.recent key since' limit (some reply)))
    (hdistinct : DistinctStamps (t.before.2.rows src.offsetKey)) :
    (Whole cfg src (t.before.2.rows src.offsetKey) offsets delays (reply.map Entry.reading) ↔
      SameStamps cfg t.before.1.medium src since offsets delays) ∧
      (DesksInStep cfg (Daemon.init cfg store, g) → (∀ t ∈ ts, keepsSeries t = true) →
        (SameWrites t.before.2 src →
          SameStamps cfg t.before.1.medium src since offsets delays) ∧
        (RisingStamps (t.before.2.rows src.offsetKey) →
          SameStamps cfg t.before.1.medium src since offsets delays →
            SameWrites t.before.2 src)) := by
  obtain ⟨before, rest, rfl⟩ := List.append_of_mem ht
  obtain ⟨hbefore, hstep, _⟩ := hrun.middle
  obtain ⟨hsrc, hrecent⟩ := jitter_read hbefore hstep htask haction
  have hkey : src.jitterKey ∈ src.readKeys := by
    simp [Source.readKeys]
  obtain ⟨hdesks, hloop⟩ :=
    run_backed_desks hids hstart hbefore fun t ht => hown t (List.mem_append_left _ ht)
  rw [htask] at hloop
  obtain ⟨⟨hoffsets, hmany⟩, hdelays⟩ := hloop
  have hjitters := hdesks.established src hsrc _ hkey _ _ hrecent
  have hiff : Whole cfg src (t.before.2.rows src.offsetKey) offsets delays
      (reply.map Entry.reading) ↔ SameStamps cfg t.before.1.medium src since offsets delays := by
    obtain ⟨kept, hkept, hseries⟩ := hdesks.column hsrc hkey
    rw [SameStamps, ← stampsFound_eq (hdistinct.sublist hkept) hseries hrecent]
    exact whole_iff hdistinct hoffsets hdelays hjitters hmany
  refine ⟨hiff, ?_⟩
  intro hinStep hkept
  obtain ⟨hdesks, hloop⟩ :=
    run_desks hids hinStep hbefore fun t ht => hkept t (List.mem_append_left _ ht)
  rw [htask] at hloop
  obtain ⟨⟨hoffsets, _⟩, hdelays⟩ := hloop
  have hjitters := hdesks.established src hsrc _ hkey _ _ hrecent
  constructor
  · rintro ⟨hfirst, hsecond⟩
    rw [hfirst] at hoffsets
    rw [← hsecond] at hjitters
    exact hiff.mp (whole_of_eq hdistinct hoffsets hdelays hjitters hmany)
  · intro hrising hsame
    exact (hiff.mpr hsame).eq hrising hoffsets hdelays hjitters

/-! ## A read between two writes -/

def emptyJournal : Journal := ⟨fun _ => [], fun _ => 0, 0, 0⟩

private theorem desks_empty (cfg : Config) :
    DesksInStep cfg (Daemon.init cfg emptyStore, emptyJournal) := by
  intro a
  have howed : (a.desk (Daemon.init cfg emptyStore, emptyJournal)).owed = [] := by
    cases a <;> rfl
  refine ⟨⟨.inl howed, ?_⟩, fun _ _ => rfl⟩
  intro key _
  rw [howed]
  rfl

/-- What the last `n` of some writes leaves for a read. -/
def splitReply (writes n : Nat) (val : F64) : List Entry :=
  if n ≤ writes then [⟨roundToF64 (requestUtc + 3000).toNat, val⟩] else []

def splitSince : UInt64 := requestUtc + 1000000000 - 30000000000

/-- A poll of which some writes have been made, and the reads of an iteration. -/
def splitActions (writes : Nat) : List (ControlMove × Unit) :=
  let poll := fun a : PollerAction => (Move.member (.poller serverTask) a : ControlMove)
  let read := fun metric reply =>
    (Move.member .fusion (.recent (.ntp 11 metric) splitSince 1 (some reply)) : ControlMove)
  ((exchangeActions 0).map poll ++ List.replicate writes (poll .publish) ++
    [Move.member .fusion (.tick (requestUtc + 1000000000)),
      read .offset (splitReply writes 1 (-1)), read .delay (splitReply writes 2 2000),
      read .jitter (splitReply writes 3 0)]).map fun m => (m, ())

def splitTurns (writes : Nat) : List (JournaledTurn controlConfig) :=
  (journaledDaemon (fun _ _ => none) controlConfig).turnsOf
    (Daemon.init controlConfig emptyStore, emptyJournal) (splitActions writes)

private theorem splitTurns_run {writes : Nat} (h : writes = 1 ∨ writes = 3) :
    (∃ s, (journaledDaemon (fun _ _ => none) controlConfig).Run
      (Daemon.init controlConfig emptyStore, emptyJournal) (splitTurns writes) s) ∧
      (splitTurns writes).map Turn.action = splitActions writes ∧
      ∀ t ∈ splitTurns writes, keepsSeries t = true := by
  have hexec : ((journaledDaemon (fun _ _ => none) controlConfig).exec
      (Daemon.init controlConfig emptyStore, emptyJournal)
      (splitActions writes)).isSome = true := by
    rcases h with rfl | rfl <;> decide +kernel
  have hall : (splitTurns writes).all keepsSeries = true := by
    rcases h with rfl | rfl <;> decide +kernel
  exact ⟨⟨_, Run.of_actions hexec⟩, turnsOf_actions hexec, List.all_eq_true.mp hall⟩

/-- The source that is filed and read. -/
def splitSource : Source := (controlConfig.ntpSources.get serverTask).source

def splitReading (writes n : Nat) (val : F64) : List (UInt64 × F64) :=
  (splitReply writes n val).map Entry.reading

def splitSample (writes : Nat) : PeerSample :=
  .fromSeries 11 splitSource.weight (splitReading writes 1 (-1)) (splitReading writes 2 2000)
    (splitReading writes 3 0)

private theorem splitTurns_read {writes : Nat} (h : writes = 1 ∨ writes = 3) :
    ∃ t ∈ splitTurns writes,
      t.action.1 = .member .fusion
        (.recent (.ntp 11 .jitter) splitSince 1 (some (splitReply writes 3 0))) ∧
      (t.before.1.members .fusion).task = .jitters splitSince splitSource
        (splitReading writes 1 (-1)) (splitReading writes 2 2000) [] [] ∧
      (t.after.1.members .fusion).task = .collecting splitSince [] [splitSample writes] ∧
      (t.before.2.rows (.ntp 11 .offset)).length = 1 ∧ t.before.2.offsets = 1 ∧
      t.before.2.delays = (if 2 ≤ writes then 1 else 0) ∧
      t.before.2.written (.ntp 11 .jitter) = if 3 ≤ writes then 1 else 0 := by
  have hread : (splitTurns writes)[writes + 5]?.map (fun t =>
      ((t.before.1.members .fusion).task, (t.after.1.members .fusion).task,
        (t.before.2.rows (.ntp 11 .offset)).length, t.before.2.offsets, t.before.2.delays,
        t.before.2.written (.ntp 11 .jitter))) =
      some (.jitters splitSince splitSource (splitReading writes 1 (-1))
          (splitReading writes 2 2000) [] [],
        .collecting splitSince [] [splitSample writes], 1, 1, if 2 ≤ writes then 1 else 0,
        if 3 ≤ writes then 1 else 0) := by
    rcases h with rfl | rfl <;> decide +kernel
  obtain ⟨t, ht, hfacts⟩ := Option.map_eq_some_iff.mp hread
  simp only [Prod.mk.injEq] at hfacts
  have haction := congrArg (fun as => as[writes + 5]?) (splitTurns_run h).2.1
  rw [List.getElem?_map, ht] at haction
  refine ⟨t, List.mem_of_getElem? ht, ?_, hfacts⟩
  rcases h with rfl | rfl <;> exact congrArg Prod.fst (Option.some.inj haction)

/-- The offset of a server's first reading has been written and its delay has not: the server is
admitted with nothing but an offset, and has the best possible score. -/
theorem sample_torn :
    (∃ s, (journaledDaemon (fun _ _ => none) controlConfig).Run
      (Daemon.init controlConfig emptyStore, emptyJournal) (splitTurns 1) s) ∧
      (∀ t ∈ splitTurns 1, keepsSeries t = true) ∧
      ∃ t ∈ splitTurns 1, ∃ since src offsets delays todo samples key limit reply sample,
        (t.before.1.members .fusion).task = .jitters since src offsets delays todo samples ∧
        t.action.1 = .member .fusion (.recent key since limit (some reply)) ∧
        (t.after.1.members .fusion).task = .collecting since todo (samples ++ [sample]) ∧
        peerScore sample = 0 ∧
        ¬ Whole controlConfig src (t.before.2.rows src.offsetKey) offsets delays
          (reply.map Entry.reading) := by
  obtain ⟨hrun, _, hkept⟩ := splitTurns_run (.inl rfl)
  obtain ⟨t, ht, haction, hbefore, hafter, _⟩ := splitTurns_read (.inl rfl)
  have hscore : peerScore (splitSample 1) = 0 := by
    decide +kernel
  refine ⟨hrun, hkept, t, ht, _, _, _, _, _, _, _, _, _, _, hbefore, haction, hafter, hscore, ?_⟩
  rintro ⟨used, _, hmany, _, hdelays, _⟩
  have hnone := congrArg List.length hdelays
  rw [List.length_map] at hnone
  have hpos := readLimit_pos controlConfig
  have hempty : (splitReading 1 2 2000).length = 0 := rfl
  omega

/-- Once all three have been written the sample is whole. -/
theorem whole_sample_iff_written :
    ∃ t ∈ splitTurns 3, ∃ since src offsets delays todo samples key limit reply,
      (t.before.1.members .fusion).task = .jitters since src offsets delays todo samples ∧
      t.action.1 = .member .fusion (.recent key since limit (some reply)) ∧
      Whole controlConfig src (t.before.2.rows src.offsetKey) offsets delays
        (reply.map Entry.reading) := by
  obtain ⟨⟨s, hrun⟩, _, hkept⟩ := splitTurns_run (.inr rfl)
  obtain ⟨t, ht, haction, hbefore, _, hrows, hoffsets, hdelays, hjitters⟩ :=
    splitTurns_read (.inr rfl)
  obtain ⟨r, hr⟩ := List.length_eq_one_iff.mp hrows
  have hdistinct : DistinctStamps (t.before.2.rows splitSource.offsetKey) := by
    change DistinctStamps (t.before.2.rows (.ntp 11 .offset))
    rw [hr]
    exact List.pairwise_singleton _ _
  have hsame : SameWrites t.before.2 splitSource :=
    ⟨hoffsets.trans hdelays.symm, hdelays.trans hjitters.symm⟩
  have hown : ∀ t ∈ splitTurns 3, ownSeries t = true := fun t ht => ownSeries_of_keeps (hkept t ht)
  have hempty := desks_empty controlConfig
  obtain ⟨hiff, hlossless⟩ := whole_sample_iff (by decide) hempty.backed hrun hown ht hbefore
    haction hdistinct
  exact ⟨t, ht, _, _, _, _, _, _, _, _, _, hbefore, haction,
    hiff.mpr ((hlossless hempty hkept).1 hsame)⟩

end Zeitpeer
