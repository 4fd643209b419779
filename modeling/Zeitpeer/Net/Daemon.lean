import Zeitpeer.Framework.Ensemble
import Zeitpeer.Net.Fusion
import Zeitpeer.Net.Node
import Zeitpeer.Net.Poller

/-!
# The daemon

The node, the fusion loop and one poller for each NTP server run at once and meet only in the
store. A read of the fusion loop gets what the store holds at that moment, if it gets anything.
Other processes may write to the store, and entries may be lost at any time; a write that fails
is one whose entry is lost at once.
-/

namespace Zeitpeer

open Framework Machine Ensemble

inductive Task (n : Nat) where
  | node
  | fusion
  | poller (k : Fin n)
  deriving DecidableEq, Repr

section Members

variable {n : Nat}

abbrev Task.State : Task n → Type
  | .node => NodeState
  | .fusion => FusionState
  | .poller _ => PollerState

abbrev Task.Action : Task n → Type
  | .node => Zeitpeer.Action
  | .fusion => FusionAction
  | .poller _ => PollerAction

abbrev Task.Event : Task n → Type
  | .node => Zeitpeer.Event
  | .fusion => FusionEvent
  | .poller _ => PollerEvent

/-- The write that an event stands for. -/
def Task.write? : (i : Task n) → i.Event → Option TsAdd
  | .node, .tsAdd w _ => some w
  | .fusion, .tsAdd w => some w
  | .poller _, .tsAdd w => some w
  | _, _ => none

inductive StoreDrift where
  | write (w : TsAdd)
  | lose (key : SeriesKey) (e : Entry)
  deriving DecidableEq, Repr

def StoreDrift.key : StoreDrift → SeriesKey
  | .write w => w.key
  | .lose key _ => key

def Task.allows (store : Store) : (i : Task n) → i.Action → Bool
  | .fusion, .recent key since limit (some entries) =>
    decide (IsRecent (store key) since limit entries)
  | _, _ => true

def Task.absorb (store : Store) (i : Task n) (es : List i.Event) : Store :=
  (es.filterMap i.write?).foldl Store.tsAdd store

def Store.drift (store : Store) : StoreDrift → Option Store
  | .write w => some (store.tsAdd w)
  | .lose key e => some (Function.update store key ((store key).erase e))

end Members

variable (parse : String → UInt16 → Option SocketAddr) (cfg : Config)

abbrev TaskOf (cfg : Config) : Type := Task cfg.ntpSources.length

def daemon : Ensemble (TaskOf cfg) Task.State Task.Action Task.Event Store StoreDrift where
  machine
    | .node => node parse cfg
    | .fusion => fusion cfg
    | .poller k => poller cfg (cfg.ntpSources.get k)
  allows := Task.allows
  absorb := Task.absorb
  drift := Store.drift

abbrev DaemonState (cfg : Config) :=
  Snapshot (Task.State (n := cfg.ntpSources.length)) Store

abbrev DaemonTurn (cfg : Config) :=
  EnsembleTurn (Task.State (n := cfg.ntpSources.length)) Task.Action Task.Event Store StoreDrift

def Daemon.init (store : Store) : DaemonState cfg where
  members
    | .node => {}
    | .fusion => .init cfg
    | .poller _ => {}
  medium := store

variable {parse : String → UInt16 → Option SocketAddr} {cfg : Config}

private theorem mem_tsAdds {store : Store} {ws : List TsAdd} {key : SeriesKey} {e : Entry}
    (he : e ∈ ws.foldl Store.tsAdd store key) :
    e ∈ store key ∨ ∃ w ∈ ws, key = w.key ∧ e.val = w.val := by
  induction ws generalizing store with
  | nil => exact .inl he
  | cons w ws ih =>
    rcases ih he with hold | ⟨w', hw', hsame⟩
    · rcases mem_tsAdd hold with hold | ⟨hkey, rfl⟩
      · exact .inl hold
      · exact .inr ⟨w, List.mem_cons_self, hkey, rfl⟩
    · exact .inr ⟨w', List.mem_cons_of_mem _ hw', hsame⟩

/-- An entry was in the store before, or one of the events has written it. -/
theorem mem_absorb {n : Nat} {store : Store} {i : Task n} {es : List i.Event} {key : SeriesKey}
    {e : Entry} (he : e ∈ i.absorb store es key) :
    e ∈ store key ∨ ∃ x ∈ es, ∃ w, i.write? x = some w ∧ key = w.key ∧ e.val = w.val := by
  rcases mem_tsAdds he with hold | ⟨w, hw, hsame⟩
  · exact .inl hold
  · obtain ⟨x, hx, hwrite⟩ := List.mem_filterMap.mp hw
    exact .inr ⟨x, hx, w, hwrite, hsame⟩

/-- An entry was in the store before, or another process has written it. -/
theorem mem_drift {store store' : Store} {d : StoreDrift} (hdrift : store.drift d = some store')
    {key : SeriesKey} {e : Entry} (he : e ∈ store' key) :
    e ∈ store key ∨ ∃ w, d = .write w ∧ key = w.key ∧ e.val = w.val := by
  cases d with
  | write w =>
    obtain rfl := Option.some.inj hdrift
    rcases mem_tsAdd he with hold | ⟨hkey, rfl⟩
    · exact .inl hold
    · exact .inr ⟨w, rfl, hkey, rfl⟩
  | lose lost x =>
    obtain rfl := Option.some.inj hdrift
    left
    by_cases hkey : key = lost
    · subst hkey
      rw [Function.update_self] at he
      exact List.mem_of_mem_erase he
    · rwa [Function.update_of_ne hkey] at he

/-- A change from outside is one of its own series. -/
theorem drift_of_ne {store store' : Store} {d : StoreDrift} (hdrift : store.drift d = some store')
    {key : SeriesKey} (hkey : key ≠ d.key) : store' key = store key := by
  cases d with
  | write w =>
    obtain rfl := Option.some.inj hdrift
    exact Function.update_of_ne hkey _ _
  | lose lost e =>
    obtain rfl := Option.some.inj hdrift
    exact Function.update_of_ne hkey _ _

/-- An answered read of the fusion loop is a turn of the daemon, with the reply from its store. -/
theorem read_answered {s s' : DaemonState cfg} {key : SeriesKey} {since : UInt64} {limit : Nat}
    {entries : List Entry} {es : List (Sigma Task.Event)}
    (hstep : (daemon parse cfg).toMachine.step s
      (.member .fusion (.recent key since limit (some entries))) = some (s', es)) :
    IsRecent (s.medium key) since limit entries := by
  obtain ⟨_, _, hallow, _⟩ := step_member hstep
  exact of_decide_eq_true hallow

end Zeitpeer
