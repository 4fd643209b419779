import Zeitpeer.Framework.Replay
import Zeitpeer.Net.Identity
import Zeitpeer.Net.Leftovers
import Zeitpeer.Store.Log

/-!
# Series with one writer

Of all parts of all nodes around a store usually one alone writes a series: the node those of a
peer, the loop those of the fused clock, a poller those of its server. Such a series is the log
of what this part has done, as far as it has not been cut off; how the parts were interleaved
leaves no trace in it.
-/

namespace Zeitpeer

open Framework Machine Ensemble

private theorem owner_unique {cfg : Config} (hids : (cfg.ntpSources.map NtpSource.id).Nodup)
    {i j : PartOf cfg} {key : SeriesKey} (hi : i.owns cfg (.series key))
    (hj : j.owns cfg (.series key)) : i = j := by
  cases key with
  | peer id metric =>
    cases i <;> cases j <;> first
      | rfl
      | contradiction
      | (obtain ⟨_, hkey⟩ := hi; contradiction)
      | (obtain ⟨_, hkey⟩ := hj; contradiction)
  | ntp id metric =>
    cases i with
    | poller k =>
      obtain ⟨_, hkey⟩ := hi
      cases j with
      | poller k' =>
        obtain ⟨_, hkey'⟩ := hj
        have hid := (SeriesKey.ntp.inj hkey).1.symm.trans (SeriesKey.ntp.inj hkey').1
        rw [(nodup_map_iff _ _).mp hids k k' hid]
      | node => obtain hj | ⟨_, _, _, _, hj⟩ := hj <;> contradiction
      | fusion => contradiction
      | handler => contradiction
    | node => obtain hi | ⟨_, _, _, _, hi⟩ := hi <;> contradiction
    | fusion => contradiction
    | handler => contradiction
  | fused
  | phc =>
    cases i <;> cases j <;> first
      | rfl
      | contradiction
      | (obtain ⟨_, hkey⟩ := hi; contradiction)
      | (obtain ⟨_, hkey⟩ := hj; contradiction)
      | (obtain hi | ⟨_, _, _, _, hi⟩ := hi <;> contradiction)
      | (obtain hj | ⟨_, _, _, _, hj⟩ := hj <;> contradiction)

variable {N : Type} {parse : String → UInt16 → Option SocketAddr} {cfgs : N → Config} {m : Shared}
  {ts : List (NodesTurn cfgs)} {s : NodesState cfgs}

/-- What an event of a part adds to a series. -/
def addCall (key : SeriesKey) (i : PartIn cfgs) (entries : List Entry) (e : i.2.Event) :
    List Entry :=
  match (i.2.write? e).bind (StoreWrite.adds key) with
  | some w => addEntry entries w
  | none => entries

private theorem addCall_fold (key : SeriesKey) (i : PartIn cfgs) (es : List i.2.Event)
    (entries : List Entry) :
    es.foldl (addCall key i) entries =
      (es.filterMap fun e => (i.2.write? e).bind (StoreWrite.adds key)).foldl addEntry entries := by
  rw [List.foldl_filterMap]
  congr 1
  funext entries e
  rw [addCall]
  cases (i.2.write? e).bind (StoreWrite.adds key) <;> rfl

variable [DecidableEq N]

private theorem absorb_calls (key : SeriesKey) (i : PartIn cfgs) (n : Shared)
    (es : List i.2.Event) :
    ((nodes parse cfgs).absorb n i es).series key = es.foldl (addCall key i) (n.series key) := by
  change ((i.2.writes es).foldl Shared.write n).series key = _
  rw [series_writes, addCall_fold, Part.writes, List.filterMap_filterMap]

/-- The calls under a series that a part has made. -/
def callsUnder (key : SeriesKey) (i : PartIn cfgs) (ts : List (NodesTurn cfgs)) : List TsAdd :=
  (events (view i ts)).filterMap fun e => (i.2.write? e).bind (StoreWrite.adds key)

/-- No other part writes the series, and nothing from outside changes it. -/
structure OneWriter (i : PartIn cfgs) (key : SeriesKey) (ts : List (NodesTurn cfgs)) : Prop where
  alone : ∀ j ≠ i, ¬ j.2.owns (cfgs j.1) (.series key)
  inside : ∀ t ∈ ts, ∀ d, t.action = .drift d → d.key ≠ .series key

private theorem OneWriter.foreign {i : PartIn cfgs} {key : SeriesKey} (h : OneWriter i key ts)
    (hrun : (nodes parse cfgs).toMachine.Run (Nodes.init cfgs m) ts s) {t : NodesTurn cfgs}
    (ht : t ∈ ts) (hforeign : Foreign i t) :
    t.after.medium.series key = t.before.medium.series key := by
  have hget : t.after.medium.get (.series key) = t.before.medium.get (.series key) := by
    have hstep := hrun.step_of_mem ht
    obtain ⟨before, a, es, after⟩ := t
    change (nodes parse cfgs).toMachine.step before a = some (after, es) at hstep
    cases a with
    | drift d =>
      obtain ⟨medium, hdrift, rfl, _⟩ := step_drift hstep
      exact get_drift_of_ne hdrift (Ne.symm (h.inside _ ht d rfl))
    | member j a =>
      obtain ⟨n, fs, _, _, rfl, rfl⟩ := step_member hstep
      have hji : j ≠ i := fun hji => foreign_iff.mp hforeign (hji ▸ a) (by subst hji; rfl)
      apply get_writes_of_ne
      intro w hw hkey
      obtain ⟨e, he, hwrite⟩ := List.mem_filterMap.mp hw
      have hmem : (⟨j, e⟩ : NodesEvent cfgs) ∈ events ts :=
        mem_events.mpr ⟨_, ht, List.mem_map_of_mem he⟩
      have howns := part_owns (run_view hrun j) ((mem_events_view hrun).mpr hmem) hwrite
      rw [← hkey] at howns
      exact h.alone j hji howns
  exact Contents.series.inj hget

/-- In every run, and however its turns are interleaved, a series with one writer holds what was
there and what its writer's calls have added, as far as none of these calls has cut it off since,
in the order of the calls. -/
theorem series_replayed {i : PartIn cfgs} {key : SeriesKey}
    (hrun : (nodes parse cfgs).toMachine.Run (Nodes.init cfgs m) ts s)
    (hwriter : OneWriter i key ts) :
    s.medium.series key =
      ((m.series key).filter fun e => !(callsUnder key i ts).any fun w => w.cuts e) ++
        survivors (callsUnder key i ts) := by
  have hreplay := run_replay (e := nodes parse cfgs) (i := i) (fun n : Shared => n.series key)
    (addCall key i) (absorb_calls key i) hrun fun t ht => hwriter.foreign hrun ht
  have hstart : (Nodes.init cfgs m).medium.series key = m.series key := rfl
  rw [hreplay, hstart, addCall_fold, foldl_addEntry]
  rfl

private theorem unpinged_oneWriter :
    @OneWriter Unit (fun _ => pollConfig) ⟨(), .poller onlyServer⟩ (.ntp 11 .offset)
      (soloTurns unpingedMoves) := by
  constructor
  · rintro ⟨⟨⟩, j⟩ hne howns
    have hsame : j = .poller onlyServer := owner_unique (by decide) howns ⟨.offset, rfl⟩
    exact hne (by rw [hsame])
  · intro t ht d hd
    have hmove := List.all_eq_true.mp unpinged_ending.answered _ (action_mem_of_turnsOf ht)
    rw [hd] at hmove
    contradiction

theorem series_replayed_polled :
    ((soloNode pollConfig).toMachine.stateAfter (Nodes.init _ emptyShared)
        unpingedMoves).medium.series (.ntp 11 .offset) =
      survivors (callsUnder (.ntp 11 .offset) ⟨(), .poller onlyServer⟩
        (soloTurns unpingedMoves)) ∧
    (callsUnder (.ntp 11 .offset) ⟨(), .poller onlyServer⟩ (soloTurns unpingedMoves)).length = 2 :=
  ⟨series_replayed (Run.of_actions unpinged_ending.exec) unpinged_oneWriter, by decide +kernel⟩

end Zeitpeer
