import Zeitpeer.Net.Discipline
import Zeitpeer.Net.Keys

/-!
# Nodes that share a store

No key says which node has written under it. As long as the others write nothing under a key
that a node reads, it reads what it would read without them; its iterations and comparisons do
so whenever the others measure other peers and servers.
-/

namespace Zeitpeer

open Framework Machine Ensemble

variable {parse : String → UInt16 → Option SocketAddr} {N : Type} {cfgs : N → Config}

/-- The keys under which some of the parts read. -/
def readsOf (kept : PartIn cfgs → Bool) : Set StoreKey :=
  { key | ∃ i, kept i = true ∧ key ∈ i.2.reads (cfgs i.1) }

/-- What these parts can see of the store. -/
def storeView (kept : PartIn cfgs → Bool) (m : Shared) : readsOf kept → Contents :=
  fun key => m.get key.1

/-- What a turn stores. -/
def storedIn (es : List (Sigma fun i : PartIn cfgs => i.2.Event)) : List StoreWrite :=
  es.filterMap fun e => e.1.2.write? e.2

/-- The turn is one of these parts', or one that stores nothing under the keys they read. -/
def LeavesAlone (kept : PartIn cfgs → Bool) (t : NodesTurn cfgs) : Prop :=
  isKept kept t = true ∨ ∀ w ∈ storedIn t.emitted, w.key ∉ readsOf kept

private theorem storedIn_map (i : PartIn cfgs) (es : List i.2.Event) :
    storedIn (es.map (Sigma.mk i)) = i.2.writes es := by
  rw [storedIn, List.filterMap_map]
  rfl

private theorem storeView_eq_iff {kept : PartIn cfgs → Bool} {m m' : Shared} :
    storeView kept m = storeView kept m' ↔ ∀ key ∈ readsOf kept, m.get key = m'.get key := by
  constructor
  · intro h key hkey
    exact congrFun h ⟨key, hkey⟩
  · intro h
    funext key
    exact h key.1 key.2

private theorem view_writes {kept : PartIn cfgs → Bool} {m m' : Shared} (ws : List StoreWrite)
    (hsame : storeView kept m = storeView kept m') :
    storeView kept (ws.foldl Shared.write m) = storeView kept (ws.foldl Shared.write m') := by
  induction ws generalizing m m' with
  | nil => exact hsame
  | cons w ws ih =>
    apply ih
    rw [storeView_eq_iff] at hsame ⊢
    intro key hkey
    exact get_write w (hsame key hkey)

private theorem view_writes_elsewhere {kept : PartIn cfgs → Bool} {m : Shared}
    {ws : List StoreWrite} (hws : ∀ w ∈ ws, w.key ∉ readsOf kept) :
    storeView kept (ws.foldl Shared.write m) = storeView kept m := by
  induction ws generalizing m with
  | nil => rfl
  | cons w ws ih =>
    rw [List.foldl_cons, ih fun w hw => hws w (List.mem_cons_of_mem _ hw), storeView_eq_iff]
    intro key hkey
    apply get_write_of_ne
    rintro rfl
    exact hws w List.mem_cons_self hkey

variable [DecidableEq N]

private theorem nodes_respects (parse : String → UInt16 → Option SocketAddr) (cfgs : N → Config)
    (kept : PartIn cfgs → Bool) : Respects (nodes parse cfgs) kept (storeView kept) := by
  constructor
  · intro m m' i es _ hsame
    exact view_writes _ hsame
  · intro m m' d n hsame hdrift
    obtain ⟨n', hdrift', hkeys⟩ := get_drift m' hdrift
    refine ⟨n', hdrift', ?_⟩
    rw [storeView_eq_iff] at hsame ⊢
    intro key hkey
    exact (hkeys key (hsame key hkey)).symm

section Turns

variable {m : Shared} {kept : PartIn cfgs → Bool} {ts : List (NodesTurn cfgs)}
  {s s' : NodesState cfgs} {i : PartIn cfgs}

private theorem allows_congr (hrun : (nodes parse cfgs).toMachine.Run (Nodes.init cfgs m) ts s)
    (hkept : kept i = true) {a : i.2.Action} {n : i.2.State} {es : List i.2.Event}
    (hlocal : (i.2.machine parse (cfgs i.1)).step (s.members i) a = some (n, es)) {m' : Shared}
    (hsame : storeView kept m' = storeView kept s.medium) :
    (nodes parse cfgs).allows m' i a = (nodes parse cfgs).allows s.medium i a := by
  change (i.2.read? a).all m'.answers = (i.2.read? a).all s.medium.answers
  cases hread : i.2.read? a with
  | none => rfl
  | some r =>
    have hlocalRun : (i.2.machine parse (cfgs i.1)).Run (i.2.init (cfgs i.1)) (view i ts)
        (s.members i) := run_view hrun i
    have hkey : r.key ∈ readsOf kept := ⟨i, hkept, read_mem hlocalRun hlocal hread⟩
    exact answers_congr (storeView_eq_iff.mp hsame _ hkey)

private theorem confined_turn {a : Move (fun i : PartIn cfgs => i.2.Action) SharedDrift}
    {es : List (Sigma fun i : PartIn cfgs => i.2.Event)}
    (hrun : (nodes parse cfgs).toMachine.Run (Nodes.init cfgs m) ts s)
    (hstep : (nodes parse cfgs).toMachine.step s a = some (s', es))
    (hquiet : LeavesAlone kept ⟨s, a, es, s'⟩) :
    Confined (nodes parse cfgs) kept (storeView kept) ⟨s, a, es, s'⟩ := by
  cases a with
  | drift d => trivial
  | member i a =>
    obtain ⟨n, fs, hallow, hlocal, rfl, rfl⟩ := step_member hstep
    simp only [Confined]
    by_cases hkept : kept i = true
    · rw [if_pos hkept]
      intro m' hsame
      rw [allows_congr hrun hkept hlocal hsame]
      exact hallow
    · rw [if_neg hkept]
      apply view_writes_elsewhere
      intro w hw
      rcases hquiet with hin | hws
      · exact absurd hin hkept
      · rw [storedIn_map] at hws
        exact hws w hw

end Turns

/-- There is a run without the others in which the parts do what they do in this one, and find
the same under the keys they read at each of their turns. -/
def Purged (parse : String → UInt16 → Option SocketAddr) (m : Shared) (kept : PartIn cfgs → Bool)
    (ts : List (NodesTurn cfgs)) : Prop :=
  ∃ us s', (nodes parse cfgs).toMachine.Run (Nodes.init cfgs m) us s' ∧
    (∀ u ∈ us, isKept kept u = true) ∧
    List.Forall₂ (Alike kept (storeView kept)) (ts.filter (isKept kept)) us

private theorem nodes_purge {m : Shared} {kept : PartIn cfgs → Bool} {ts : List (NodesTurn cfgs)}
    {s : NodesState cfgs} (hrun : (nodes parse cfgs).toMachine.Run (Nodes.init cfgs m) ts s)
    (hquiet : ∀ t ∈ ts, LeavesAlone kept t) : Purged parse m kept ts := by
  have hconfined : ∀ t ∈ ts, Confined (nodes parse cfgs) kept (storeView kept) t := by
    intro t ht
    obtain ⟨before, rest, rfl⟩ := List.append_of_mem ht
    obtain ⟨hbefore, hstep, _⟩ := hrun.middle
    exact confined_turn hbefore hstep (hquiet t ht)
  obtain ⟨us, s', hus, halike, _⟩ := purge (nodes_respects parse cfgs kept) hrun hconfined
  exact ⟨us, s', hus, isKept_of_alike halike fun t ht => (List.mem_filter.mp ht).2, halike⟩

def ofNode (x : N) (i : PartIn cfgs) : Bool := i.1 = x

/-- The parts of a node without its handlers. -/
def loopsOf (x : N) (i : PartIn cfgs) : Bool := i.1 = x ∧ i.2.isHandler = false

private theorem apart_turn {m : Shared} {x : N} {ts : List (NodesTurn cfgs)} {s : NodesState cfgs}
    (hrun : (nodes parse cfgs).toMachine.Run (Nodes.init cfgs m) ts s)
    (hapart : ∀ y ≠ x, Apart (cfgs x) (cfgs y)) {t : NodesTurn cfgs} (ht : t ∈ ts) :
    LeavesAlone (loopsOf x) t := by
  have hstep := hrun.step_of_mem ht
  obtain ⟨before, a, es, after⟩ := t
  cases a with
  | drift d => exact .inl rfl
  | member j a =>
    obtain ⟨n, fs, _, _, _, rfl⟩ := step_member hstep
    by_cases hin : loopsOf x j = true
    · exact .inl hin
    · right
      rintro w hw ⟨i, hi, hkey⟩
      rw [storedIn_map] at hw
      obtain ⟨e, he, hwrite⟩ := List.mem_filterMap.mp hw
      have hmem : ⟨j, e⟩ ∈ events ts := mem_events.mpr ⟨_, ht, List.mem_map_of_mem he⟩
      have howns : j.2.owns (cfgs j.1) w.key :=
        part_owns (run_view hrun j) ((mem_events_view hrun).mpr hmem) hwrite
      obtain ⟨rfl, hloop⟩ := of_decide_eq_true hi
      by_cases hnode : j.1 = i.1
      · -- A handler of the node itself stores nothing.
        have hhandler : j.2.isHandler ≠ false := fun h => hin (decide_eq_true ⟨hnode, h⟩)
        obtain ⟨y, j⟩ := j
        cases j with
        | handler k => contradiction
        | _ => exact hhandler rfl
      · exact (hapart j.1 hnode).not_reads hloop howns hkey

/-- As long as the others store nothing under a key that a node reads, the node does in a run
without them what it does with them. As far as iterations and comparisons go this holds at any
rate if the others measure other things; the handlers show what any of the nodes publishes. -/
theorem shared_store_purge {m : Shared} {x : N} {ts : List (NodesTurn cfgs)} {s : NodesState cfgs}
    (hrun : (nodes parse cfgs).toMachine.Run (Nodes.init cfgs m) ts s) :
    ((∀ t ∈ ts, LeavesAlone (ofNode x) t) → Purged parse m (ofNode x) ts) ∧
      ((∀ y ≠ x, Apart (cfgs x) (cfgs y)) → Purged parse m (loopsOf x) ts) := by
  constructor
  · exact nodes_purge hrun
  · intro hapart
    exact nodes_purge hrun fun t ht => apart_turn hrun hapart ht

/-- Two nodes with one server each; that of the second has the given number. -/
def twoConfigs (id : UInt32) (x : Bool) : Config :=
  { controlConfig with
    nodeId := if x then 1 else 2
    ntpSources := [{ id := if x then 11 else id, host := "a" }] }

def twoNodes (id : UInt32) := nodes (fun _ _ => none) (twoConfigs id)

def emptyShared : Shared := ⟨emptyStore, fun _ => []⟩

abbrev TwoMove (id : UInt32) : Type :=
  Move (fun i : PartIn (twoConfigs id) => i.2.Action) SharedDrift

def firstPoller (id : UInt32) : PartIn (twoConfigs id) := ⟨false, .poller ⟨0, Nat.one_pos⟩⟩

def ofFirst (id : UInt32) (a : FusionAction) : TwoMove id := .member ⟨true, .fusion⟩ a

/-- An iteration of the first node starts and reads offsets. -/
def firstReads (id : UInt32) (entries : List Entry) : List (TwoMove id) :=
  [ofFirst id (.tick (requestUtc + 1000000000)),
    ofFirst id (.recent (.ntp 11 .offset) (requestUtc + 1000000000 - 30000000000) 1 (some entries))]

/-- The second node has stored the offset of its server before. -/
def secondStores (id : UInt32) (entries : List Entry) : List (TwoMove id) :=
  let poll := fun a : PollerAction =>
    (Move.member (firstPoller id) (ComparingAction.own a) : TwoMove id)
  (exchangeActions 0).map poll ++ [poll .publish] ++ firstReads id entries

def storedEntries : List Entry := [⟨roundToF64 (requestUtc + 3000).toNat, -1⟩]

def twoTurns (id : UInt32) (entries : List Entry) : List (NodesTurn (twoConfigs id)) :=
  (twoNodes id).toMachine.turnsOf (Nodes.init (twoConfigs id) emptyShared)
    (secondStores id entries)

private theorem twoTurns_run {id : UInt32} {entries : List Entry}
    (h : id = 11 ∧ entries = storedEntries ∨ id = 12 ∧ entries = []) :
    (∃ s, (twoNodes id).toMachine.Run (Nodes.init (twoConfigs id) emptyShared)
      (twoTurns id entries) s) ∧
      (twoTurns id entries).map Turn.action = secondStores id entries := by
  have hexec : ((twoNodes id).toMachine.exec (Nodes.init (twoConfigs id) emptyShared)
      (secondStores id entries)).isSome = true := by
    rcases h with ⟨rfl, rfl⟩ | ⟨rfl, rfl⟩ <;> decide +kernel
  exact ⟨⟨_, Run.of_actions hexec⟩, turnsOf_actions hexec⟩

private theorem firstReads_alone :
    (twoNodes 11).toMachine.exec (Nodes.init (twoConfigs 11) emptyShared)
      (firstReads 11 storedEntries) = none := by
  rw [← Option.not_isSome_iff_eq_none]
  decide +kernel

/-- The second node measures a server for itself, and the first takes that for a measurement of
its own: what it reads is not there in any run without the second. -/
theorem shared_store_mixed :
    (twoConfigs 11 true).nodeId ≠ (twoConfigs 11 false).nodeId ∧
      (∃ s, (twoNodes 11).toMachine.Run (Nodes.init (twoConfigs 11) emptyShared)
        (twoTurns 11 storedEntries) s) ∧
      ¬ Purged (fun _ _ => none) emptyShared (ofNode true) (twoTurns 11 storedEntries) := by
  obtain ⟨hrun, hactions⟩ := twoTurns_run (.inl ⟨rfl, rfl⟩)
  refine ⟨by decide, hrun, ?_⟩
  rintro ⟨us, s', hus, _, halike⟩
  have hsame : us.map Turn.action = firstReads 11 storedEntries := by
    rw [actions_of_alike halike, filter_isKept_actions, hactions]
    rfl
  have hexec := hus.exec
  rw [hsame] at hexec
  have hnone := firstReads_alone.symm.trans hexec
  contradiction

private theorem leavesAlone_first : ∀ t ∈ twoTurns 12 [], LeavesAlone (ofNode true) t := by
  have hquiet : (twoTurns 12 []).all (fun t => isKept (ofNode true) t ||
      (storedIn t.emitted).all fun w => w.key ∉ storeReads (twoConfigs 12 true)) = true := by
    decide +kernel
  intro t ht
  rcases Bool.or_eq_true_iff.mp (List.all_eq_true.mp hquiet t ht) with hin | hws
  · exact .inl hin
  · right
    rintro w hw ⟨i, hi, hkey⟩
    obtain ⟨y, i⟩ := i
    obtain rfl := of_decide_eq_true hi
    exact of_decide_eq_true (List.all_eq_true.mp hws w hw) (mem_storeReads hkey)

/-- With another server the second node does not matter. -/
theorem shared_store_purge_apart :
    Purged (fun _ _ => none) emptyShared (ofNode true) (twoTurns 12 []) ∧
      Purged (fun _ _ => none) emptyShared (loopsOf true) (twoTurns 12 []) := by
  obtain ⟨⟨s, hrun⟩, _⟩ := twoTurns_run (.inr ⟨rfl, rfl⟩)
  have hapart : ∀ y ≠ true, Apart (twoConfigs 12 true) (twoConfigs 12 y) := by
    intro y hy
    obtain rfl := Bool.eq_false_of_not_eq_true hy
    constructor <;> decide
  exact ⟨(shared_store_purge hrun).1 leavesAlone_first, (shared_store_purge hrun).2 hapart⟩

end Zeitpeer
