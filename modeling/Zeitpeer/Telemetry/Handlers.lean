import Zeitpeer.Framework.Machine
import Zeitpeer.Net.Fusion
import Zeitpeer.Store.Shared

/-!
# The handlers of the telemetry server

A request for `/health` reads the clock and then the last fused value. One for `/metrics` makes
its reads one call after the other; a read that fails leaves its lines out and the next is made.
-/

namespace Zeitpeer

open Framework

def METRIC_LOOKBACK_LIMIT : Nat := 256

/-- One read of the metrics handler. -/
inductive Query where
  | recent (key : SeriesKey)
  | getAll (key : HashKey)
  | last (key : SeriesKey)
  deriving DecidableEq, Repr

def Query.key : Query → StoreKey
  | .recent key => .series key
  | .getAll key => .hash key
  | .last key => .series key

/-- `write_primary_metrics`, then `write_peer_metrics`. -/
def metricsQueries (cfg : Config) : List Query :=
  [.recent (.fused .ewma), .recent (.fused .driftPpm), .recent (.phc .systemOffset),
    .recent (.phc .fusedDelta)] ++
    (cfg.peers.flatMap fun p => [.getAll (.peerSummary p.id), .last (.peer p.id .timeouts)]) ++
    cfg.ntpSources.map fun n => .getAll (.ntpSummary n.id)

def metricsWindowNs (cfg : Config) : UInt64 := max cfg.sampling.windowSec 1 * 1000000000

/-- What a read gets; nothing is an error. -/
inductive Answer where
  | recent (reply : Option (List Entry))
  | getAll (reply : Option (List (String × F64)))
  | last (reply : Option (Option Entry))
  deriving DecidableEq

inductive HealthStatus where
  | ok | stale | booting
  deriving DecidableEq, Repr

/-- The status for the reply to `ts_last`, with the clock as it was before the read. -/
def healthStatus (nowNs : UInt64) : Option (Option Entry) → HealthStatus
  | some (some e) => if saturatingSub nowNs e.reading.1 < 5000000000 then .ok else .stale
  | some none => .stale
  | none => .booting

inductive HandlerTask where
  | idle
  | health (nowNs : UInt64)
  | metrics (sinceNs : UInt64) (todo : List Query) (answers : List Answer)
  deriving DecidableEq

inductive HandlerAction where
  /-- A request comes in, and the handler reads the clock. -/
  | health (nowNs : UInt64)
  | metrics (nowNs : UInt64)
  | recent (key : SeriesKey) (since : UInt64) (limit : Nat) (reply : Option (List Entry))
  | getAll (key : HashKey) (reply : Option (List (String × F64)))
  | last (key : SeriesKey) (reply : Option (Option Entry))
  | respond

/-- A response; the text of the metrics is made from the answers. -/
inductive HandlerEvent where
  | health (status : HealthStatus)
  | metrics (answers : List Answer)
  deriving DecidableEq

def handlerStep (cfg : Config) (task : HandlerTask) :
    HandlerAction → Option (HandlerTask × List HandlerEvent)
  | .health nowNs =>
    match task with
    | .idle => some (.health nowNs, [])
    | _ => none
  | .metrics nowNs =>
    match task with
    | .idle =>
      some (.metrics (saturatingSub nowNs (metricsWindowNs cfg)) (metricsQueries cfg) [], [])
    | _ => none
  | .recent key since limit reply =>
    match task with
    | .metrics sinceNs (.recent key' :: todo) answers =>
      if key = key' ∧ since = sinceNs ∧ limit = METRIC_LOOKBACK_LIMIT then
        some (.metrics sinceNs todo (answers ++ [.recent reply]), [])
      else none
    | _ => none
  | .getAll key reply =>
    match task with
    | .metrics sinceNs (.getAll key' :: todo) answers =>
      if key = key' then some (.metrics sinceNs todo (answers ++ [.getAll reply]), []) else none
    | _ => none
  | .last key reply =>
    match task with
    | .health nowNs =>
      if key = .fused .ewma then some (.idle, [.health (healthStatus nowNs reply)]) else none
    | .metrics sinceNs (.last key' :: todo) answers =>
      if key = key' then some (.metrics sinceNs todo (answers ++ [.last reply]), []) else none
    | _ => none
  | .respond =>
    match task with
    | .metrics _ [] answers => some (.idle, [.metrics answers])
    | _ => none

def handler (cfg : Config) : Machine HandlerTask HandlerAction HandlerEvent := ⟨handlerStep cfg⟩

/-- The read that an action has got an answer to. -/
def HandlerAction.read? : HandlerAction → Option StoreRead
  | .recent key since limit (some reply) => some (.recent key since limit reply)
  | .getAll key (some reply) => some (.getAll key reply)
  | .last key (some reply) => some (.last key reply)
  | _ => none

inductive HandlerStep (cfg : Config) :
    HandlerTask → HandlerAction → HandlerTask → List HandlerEvent → Prop where
  | health (nowNs : UInt64) : HandlerStep cfg .idle (.health nowNs) (.health nowNs) []
  | metrics (nowNs : UInt64) :
      HandlerStep cfg .idle (.metrics nowNs)
        (.metrics (saturatingSub nowNs (metricsWindowNs cfg)) (metricsQueries cfg) []) []
  | healthLast (nowNs : UInt64) (reply : Option (Option Entry)) :
      HandlerStep cfg (.health nowNs) (.last (.fused .ewma) reply) .idle
        [.health (healthStatus nowNs reply)]
  | recent (sinceNs : UInt64) (key : SeriesKey) (todo : List Query) (answers : List Answer)
      (reply : Option (List Entry)) :
      HandlerStep cfg (.metrics sinceNs (.recent key :: todo) answers)
        (.recent key sinceNs METRIC_LOOKBACK_LIMIT reply)
        (.metrics sinceNs todo (answers ++ [.recent reply])) []
  | getAll (sinceNs : UInt64) (key : HashKey) (todo : List Query) (answers : List Answer)
      (reply : Option (List (String × F64))) :
      HandlerStep cfg (.metrics sinceNs (.getAll key :: todo) answers) (.getAll key reply)
        (.metrics sinceNs todo (answers ++ [.getAll reply])) []
  | last (sinceNs : UInt64) (key : SeriesKey) (todo : List Query) (answers : List Answer)
      (reply : Option (Option Entry)) :
      HandlerStep cfg (.metrics sinceNs (.last key :: todo) answers) (.last key reply)
        (.metrics sinceNs todo (answers ++ [.last reply])) []
  | respond (sinceNs : UInt64) (answers : List Answer) :
      HandlerStep cfg (.metrics sinceNs [] answers) .respond .idle [.metrics answers]

variable {cfg : Config}

theorem HandlerStep.of_step {task task' : HandlerTask} {a : HandlerAction} {es : List HandlerEvent}
    (hstep : (handler cfg).step task a = some (task', es)) : HandlerStep cfg task a task' es := by
  change handlerStep cfg task a = some (task', es) at hstep
  cases a with
  | health nowNs =>
    simp only [handlerStep] at hstep
    split at hstep
    · obtain ⟨rfl, rfl⟩ := Prod.mk.inj (Option.some.inj hstep)
      exact .health nowNs
    · contradiction
  | metrics nowNs =>
    simp only [handlerStep] at hstep
    split at hstep
    · obtain ⟨rfl, rfl⟩ := Prod.mk.inj (Option.some.inj hstep)
      exact .metrics nowNs
    · contradiction
  | recent key since limit reply =>
    simp only [handlerStep] at hstep
    split at hstep
    · split at hstep
      · rename_i hread
        obtain ⟨rfl, rfl, rfl⟩ := hread
        obtain ⟨rfl, rfl⟩ := Prod.mk.inj (Option.some.inj hstep)
        exact .recent _ _ _ _ reply
      · contradiction
    · contradiction
  | getAll key reply =>
    simp only [handlerStep] at hstep
    split at hstep
    · split at hstep
      · rename_i hread
        subst hread
        obtain ⟨rfl, rfl⟩ := Prod.mk.inj (Option.some.inj hstep)
        exact .getAll _ _ _ _ reply
      · contradiction
    · contradiction
  | last key reply =>
    simp only [handlerStep] at hstep
    split at hstep
    · split at hstep
      · rename_i hread
        subst hread
        obtain ⟨rfl, rfl⟩ := Prod.mk.inj (Option.some.inj hstep)
        exact .healthLast _ reply
      · contradiction
    · split at hstep
      · rename_i hread
        subst hread
        obtain ⟨rfl, rfl⟩ := Prod.mk.inj (Option.some.inj hstep)
        exact .last _ _ _ _ reply
      · contradiction
    · contradiction
  | respond =>
    simp only [handlerStep] at hstep
    split at hstep
    · obtain ⟨rfl, rfl⟩ := Prod.mk.inj (Option.some.inj hstep)
      exact .respond _ _
    · contradiction

/-- The reads still to make are some of those of the configuration. -/
def HandlerTask.Asks (cfg : Config) : HandlerTask → Prop
  | .metrics _ todo _ => ∀ q ∈ todo, q ∈ metricsQueries cfg
  | _ => True

private theorem mem_metricsQueries_ewma (cfg : Config) : .recent
    (.fused .ewma) ∈ metricsQueries cfg :=
  List.mem_append_left _ (List.mem_append_left _ List.mem_cons_self)

private theorem HandlerStep.asks {task task' : HandlerTask} {a : HandlerAction}
    {es : List HandlerEvent}
    (hstep : HandlerStep cfg task a task' es) (h : task.Asks cfg) : task'.Asks cfg := by
  cases hstep with
  | metrics => exact fun q hq => hq
  | recent
  | getAll
  | last => exact fun q hq => h q (List.mem_cons_of_mem _ hq)
  | _ => trivial

/-- Every read of a handler is under the key of a query. -/
theorem HandlerStep.query {task task' : HandlerTask} {a : HandlerAction} {es : List HandlerEvent}
    (hstep : HandlerStep cfg task a task' es) (h : task.Asks cfg) {r : StoreRead}
    (hread : a.read? = some r) : ∃ q ∈ metricsQueries cfg, q.key = r.key := by
  cases hstep with
  | healthLast nowNs reply =>
    cases reply with
    | none => contradiction
    | some e =>
      obtain rfl := Option.some.inj hread
      exact ⟨_, mem_metricsQueries_ewma cfg, rfl⟩
  | recent sinceNs key todo answers reply
  | getAll sinceNs key todo answers reply
  | last sinceNs key todo answers reply =>
    cases reply with
    | none => contradiction
    | some found =>
      obtain rfl := Option.some.inj hread
      exact ⟨_, h _ List.mem_cons_self, rfl⟩
  | _ => contradiction

theorem run_asks {ts : List (Turn HandlerTask HandlerAction HandlerEvent)} {task : HandlerTask}
    (hrun : (handler cfg).Run .idle ts task) : task.Asks cfg := by
  induction hrun with
  | start => trivial
  | turn _ hstep ih => exact (HandlerStep.of_step hstep).asks ih

end Zeitpeer
