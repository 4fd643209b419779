import Zeitpeer.Framework.Interference
import Zeitpeer.Net.Writers
import Zeitpeer.Store.Shared
import Zeitpeer.Telemetry.Handlers

/-!
# Nodes around one store

All of a node's tasks and the handlers of its telemetry server meet in the store, and the store
may be shared with other nodes. Every call to it is a turn of its own; in particular a poller
asks for the summaries of the other servers one by one.
-/

namespace Zeitpeer

open Framework Machine Ensemble

/-- A poller, how many summaries it has asked for, and the offsets that were in them. -/
structure Comparing where
  poller : PollerState := {}
  asked : Nat := 0
  found : List F64 := []
  deriving DecidableEq

inductive ComparingAction where
  | own (a : PollerAction)
  | getAll (key : HashKey) (reply : Option (List (String × F64)))

/-- The summaries that `compute_offset_vs_mean` reads, in order. -/
def comparedKeys (cfg : Config) (src : NtpSource) : List HashKey :=
  ((cfg.ntpSources.map NtpSource.id).filter fun id => id ≠ src.id).map .ntpSummary

def PollerTask.compares : PollerTask → Bool
  | .storing _ (.compare :: _) _ => true
  | _ => false

/-- Once all summaries have been asked for, the comparison is with the offsets that were found. -/
def Comparing.ready (cfg : Config) (src : NtpSource) (s : Comparing) : PollerAction → Bool
  | .compare others => s.asked = (comparedKeys cfg src).length ∧ others = s.found
  | _ => true

/-- A comparison that is done is forgotten. -/
def Comparing.after (s : Comparing) (poller : PollerState) : PollerAction → Comparing
  | .compare _ => { poller := poller }
  | _ => { s with poller := poller }

def comparingStep (cfg : Config) (src : NtpSource) (s : Comparing) :
    ComparingAction → Option (Comparing × List PollerEvent)
  | .own a =>
    if s.ready cfg src a then (pollerStep cfg src s.poller a).map fun r => (s.after r.1 a, r.2)
    else none
  | .getAll key reply =>
    if s.poller.task.compares ∧ (comparedKeys cfg src)[s.asked]? = some key then
      some ({ s with
        asked := s.asked + 1
        found := s.found ++ (reply.bind fun fields => fields.lookup "offset_ns").toList }, [])
    else none

def comparing (cfg : Config) (src : NtpSource) : Machine Comparing ComparingAction PollerEvent :=
  ⟨comparingStep cfg src⟩

@[simp] theorem Comparing.after_poller (s : Comparing) (poller : PollerState) (a : PollerAction) :
    (s.after poller a).poller = poller := by
  cases a <;> rfl

/-- A step is one of the poller, which waits for the summaries it compares with, or it reads the
next of them. -/
theorem comparing_cases {cfg : Config} {src : NtpSource} {s s' : Comparing} {a : ComparingAction}
    {es : List PollerEvent} (hstep : (comparing cfg src).step s a = some (s', es)) :
    (∃ b p, a = .own b ∧ s.ready cfg src b = true ∧
      (poller cfg src).step s.poller b = some (p, es) ∧ s' = s.after p b) ∨
    ∃ key reply, a = .getAll key reply ∧ s.poller.task.compares = true ∧
      (comparedKeys cfg src)[s.asked]? = some key ∧ es = [] ∧
      s' = { s with
        asked := s.asked + 1
        found := s.found ++ (reply.bind fun fields => fields.lookup "offset_ns").toList } := by
  change comparingStep cfg src s a = some (s', es) at hstep
  cases a with
  | own a =>
    simp only [comparingStep] at hstep
    split at hstep
    · rename_i hready
      obtain ⟨⟨p, fs⟩, hlocal, hpair⟩ := Option.map_eq_some_iff.mp hstep
      obtain ⟨rfl, rfl⟩ := Prod.mk.inj hpair
      exact .inl ⟨a, p, rfl, hready, hlocal, rfl⟩
    · contradiction
  | getAll key reply =>
    simp only [comparingStep] at hstep
    split at hstep
    · rename_i hasked
      obtain ⟨rfl, rfl⟩ := Prod.mk.inj (Option.some.inj hstep)
      exact .inr ⟨key, reply, rfl, hasked.1, hasked.2, rfl, rfl⟩
    · contradiction

abbrev PollerTurn := Turn PollerState PollerAction PollerEvent

abbrev ComparingTurn := Turn Comparing ComparingAction PollerEvent

/-- A turn that is not a read of a summary. -/
def ownTurn (t : ComparingTurn) : Option PollerTurn :=
  match t.action with
  | .own a => some ⟨t.before.poller, a, t.emitted, t.after.poller⟩
  | .getAll _ _ => none

/-- Without the reads it is a run of the poller. -/
theorem run_own {cfg : Config} {src : NtpSource} {ts : List ComparingTurn} {s : Comparing}
    (hrun : (comparing cfg src).Run {} ts s) :
    (poller cfg src).Run {} (ts.filterMap ownTurn) s.poller ∧
      events (ts.filterMap ownTurn) = events ts := by
  induction hrun with
  | start => exact ⟨.start, rfl⟩
  | @turn ts s s' a es _ hstep ih =>
    obtain ⟨hown, hevents⟩ := ih
    rw [List.filterMap_append, events_append, events_append, hevents]
    obtain ⟨b, p, rfl, _, hlocal, rfl⟩ | ⟨key, reply, rfl, _, _, rfl, rfl⟩ := comparing_cases hstep
    · have hturn : [⟨s, .own b, es, s.after p b⟩].filterMap ownTurn = [⟨s.poller, b, es, p⟩] := by
        simp [ownTurn]
      rw [hturn, Comparing.after_poller]
      exact ⟨hown.turn hlocal, rfl⟩
    · have hread : ∀ s', [⟨s, .getAll key reply, [], s'⟩].filterMap ownTurn = [] := fun _ => rfl
      rw [hread, List.append_nil]
      exact ⟨hown, rfl⟩

inductive Part (n : Nat) where
  | node
  | fusion
  | poller (k : Fin n)
  /-- Requests are served at once, each by a handler of its own. -/
  | handler (k : Nat)
  deriving DecidableEq, Repr

section Parts

variable {n : Nat}

abbrev Part.State : Part n → Type
  | .node => NodeState
  | .fusion => FusionState
  | .poller _ => Comparing
  | .handler _ => HandlerTask

abbrev Part.Action : Part n → Type
  | .node => Zeitpeer.Action
  | .fusion => FusionAction
  | .poller _ => ComparingAction
  | .handler _ => HandlerAction

abbrev Part.Event : Part n → Type
  | .node => Zeitpeer.Event
  | .fusion => FusionEvent
  | .poller _ => PollerEvent
  | .handler _ => HandlerEvent

/-- The write that an event stands for. -/
def Part.write? : (i : Part n) → i.Event → Option StoreWrite
  | .node, .tsAdd w _ => some (.tsAdd w)
  | .fusion, .tsAdd w => some (.tsAdd w)
  | .fusion, .hmSet h => some (.hmSet h)
  | .poller _, .tsAdd w => some (.tsAdd w)
  | .poller _, .hmSet h => some (.hmSet h)
  | _, _ => none

/-- The read that an action has got an answer to. -/
def Part.read? : (i : Part n) → i.Action → Option StoreRead
  | .fusion, .recent key since limit (some reply) => some (.recent key since limit reply)
  | .poller _, .getAll key (some reply) => some (.getAll key reply)
  | .handler _, a => HandlerAction.read? a
  | _, _ => none

def Part.writes (i : Part n) (es : List i.Event) : List StoreWrite := es.filterMap i.write?

end Parts

abbrev PartOf (cfg : Config) : Type := Part cfg.ntpSources.length

def Part.machine (parse : String → UInt16 → Option SocketAddr) (cfg : Config) :
    (i : PartOf cfg) → Machine i.State i.Action i.Event
  | .node => Zeitpeer.node parse cfg
  | .fusion => Zeitpeer.fusion cfg
  | .poller k => comparing cfg (cfg.ntpSources.get k)
  | .handler _ => Zeitpeer.handler cfg

def Part.init (cfg : Config) : (i : PartOf cfg) → i.State
  | .node => ({} : NodeState)
  | .fusion => FusionState.init cfg
  | .poller _ => ({} : Comparing)
  | .handler _ => HandlerTask.idle

section Nodes

variable {N : Type}

/-- The parts of all nodes. -/
abbrev PartIn (cfgs : N → Config) : Type := Σ x : N, PartOf (cfgs x)

variable (parse : String → UInt16 → Option SocketAddr) (cfgs : N → Config)

def nodes [DecidableEq N] : Ensemble (PartIn cfgs) (fun i => i.2.State) (fun i => i.2.Action)
    (fun i => i.2.Event) Shared SharedDrift where
  machine i := i.2.machine parse (cfgs i.1)
  allows m i a := (i.2.read? a).all m.answers
  absorb m i es := (i.2.writes es).foldl Shared.write m
  drift := Shared.drift

abbrev NodesState : Type := Snapshot (fun i : PartIn cfgs => i.2.State) Shared

abbrev NodesTurn : Type :=
  EnsembleTurn (fun i : PartIn cfgs => i.2.State) (fun i => i.2.Action) (fun i => i.2.Event)
    Shared SharedDrift

def Nodes.init (m : Shared) : NodesState cfgs where
  members i := i.2.init (cfgs i.1)
  medium := m

end Nodes

end Zeitpeer
