import Zeitpeer.Framework.Ensemble
import Zeitpeer.Framework.Retention
import Zeitpeer.Store.Members

/-!
# Calls of several processes

A call of `ts_add` is two commands, `ZADD` and then, with a window, `ZREMRANGEBYSCORE`. A process
holds the lock on its connection over both, but the commands of other processes may come between
them, and a call may end after the first. Whatever the interleaving, the sets are at any time as
whole calls one after the other would have left them.
-/

namespace Zeitpeer

open Framework Machine Ensemble

inductive Command where
  | zadd (key : SeriesKey) (score : Nat) (member : Text)
  /-- From `-inf` up to the cutoff. -/
  | zremrangebyscore (key : SeriesKey) (cutoff : Nat)
  deriving DecidableEq, Repr

abbrev Sets := SeriesKey → Members

def Sets.exec (sets : Sets) : Command → Sets
  | .zadd key score member => Function.update sets key ((sets key).add score member)
  | .zremrangebyscore key cutoff => Function.update sets key ((sets key).removeUpTo cutoff)

def AddCall.cutoff (c : AddCall) : Nat := roundToF64 (saturatingSub c.tsNs c.windowNs).toNat

/-- The call without its second command. -/
def AddCall.untrimmed (c : AddCall) : AddCall := { c with windowNs := 0 }

/-- Where a process is in its calls. -/
inductive Caller where
  | idle
  /-- The member is added and the trim is still to come. -/
  | trimming (c : AddCall)
  deriving DecidableEq

inductive CallerAction where
  | zadd (c : AddCall)
  | trim
  /-- The connection fails, and the call ends after its first command. -/
  | fail
  deriving DecidableEq

inductive CallerEvent where
  | added (c : AddCall)
  | trimmed (c : AddCall)
  deriving DecidableEq

def CallerEvent.command (t : F64Text) : CallerEvent → Command
  | .added c => .zadd c.key c.score (t.member c)
  | .trimmed c => .zremrangebyscore c.key c.cutoff

def callerStep (s : Caller) : CallerAction → Option (Caller × List CallerEvent)
  | .zadd c =>
    match s with
    | .idle => some (if 0 < c.windowNs then .trimming c else .idle, [.added c])
    | _ => none
  | .trim =>
    match s with
    | .trimming c => some (.idle, [.trimmed c])
    | _ => none
  | .fail =>
    match s with
    | .trimming _ => some (.idle, [])
    | _ => none

def caller : Machine Caller CallerAction CallerEvent := ⟨callerStep⟩

/-- The processes around one Redis server. -/
def callers (t : F64Text) (ι : Type) : Ensemble ι (fun _ => Caller) (fun _ => CallerAction)
    (fun _ => CallerEvent) Sets Empty where
  machine _ := caller
  allows _ _ _ := true
  absorb sets _ es := es.foldl (fun sets e => sets.exec (e.command t)) sets
  drift _ d := d.elim

inductive CallerStep : Caller → CallerAction → Caller → List CallerEvent → Prop where
  | zadd (c : AddCall) :
      CallerStep .idle (.zadd c) (if 0 < c.windowNs then .trimming c else .idle) [.added c]
  | trim (c : AddCall) : CallerStep (.trimming c) .trim .idle [.trimmed c]
  | fail (c : AddCall) : CallerStep (.trimming c) .fail .idle []

theorem CallerStep.of_step {s s' : Caller} {a : CallerAction} {es : List CallerEvent}
    (hstep : caller.step s a = some (s', es)) : CallerStep s a s' es := by
  change callerStep s a = some (s', es) at hstep
  cases a
  all_goals
    cases s
    all_goals first
      | contradiction
      | obtain ⟨rfl, rfl⟩ := Prod.mk.inj (Option.some.inj hstep)
        constructor

section Calls

variable {t : F64Text}

private theorem after_concat (calls : List AddCall) (c : AddCall) :
    t.after (calls ++ [c]) = t.tsAdd (t.after calls) c := by
  simp [F64Text.after]

private theorem tsAdd_untrimmed_members (z : Members) (c : AddCall) :
    t.tsAdd z c.untrimmed = z.add c.score (t.member c) := by
  rw [F64Text.tsAdd]
  exact if_neg (by simp [AddCall.untrimmed])

/-- A call is its commands in this order. -/
theorem tsAdd_eq_exec (sets : Sets) (c : AddCall) :
    Function.update sets c.key (t.tsAdd (sets c.key) c) =
      if 0 < c.windowNs then
        (sets.exec ((CallerEvent.added c).command t)).exec ((CallerEvent.trimmed c).command t)
      else sets.exec ((CallerEvent.added c).command t) := by
  rw [F64Text.tsAdd]
  split
  · simp [CallerEvent.command, Sets.exec, AddCall.score, AddCall.cutoff]
  · rfl

/-- A call cuts what its trim would remove. -/
def AddCall.cuts (c d : AddCall) : Bool :=
  decide (c.key = d.key) && (decide (0 < c.windowNs) && decide (d.score ≤ c.cutoff))

private theorem cuts_iff {c d : AddCall} : c.cuts d = true ↔ c.key = d.key ∧ Trims c d := by
  rw [AddCall.cuts, Bool.and_eq_true, Bool.and_eq_true, decide_eq_true_iff, decide_eq_true_iff,
    decide_eq_true_iff]
  rfl

private theorem cuts_untrimmed (c d : AddCall) : c.untrimmed.cuts d = false := by
  simp [AddCall.cuts, AddCall.untrimmed]

private theorem uncut_iff {c d : AddCall} (hkey : c.key = d.key) (hwindow : 0 < c.windowNs) :
    (!c.cuts d) = true ↔ c.cutoff < d.score := by
  rw [Bool.not_eq_true', Bool.eq_false_iff, ne_eq, cuts_iff, ← not_le]
  apply not_congr
  constructor
  · intro h
    exact h.2.2
  · intro h
    exact ⟨hkey, hwindow, h⟩

private theorem cuts_trans {c d e : AddCall} (hcd : c.cuts d = true) (hde : d.cuts e = true) :
    c.cuts e = true := by
  obtain ⟨hkey, hwindow, hscore⟩ := cuts_iff.mp hcd
  obtain ⟨hkey', _, hscore'⟩ := cuts_iff.mp hde
  refine cuts_iff.mpr ⟨hkey.trans hkey', hwindow, ?_⟩
  have hcutoff : roundToF64 (saturatingSub d.tsNs d.windowNs).toNat ≤ d.score := by
    apply roundToF64_mono
    rw [toNat_saturatingSub]
    omega
  exact hscore'.trans (hcutoff.trans hscore)

private theorem stays_iff_kept {calls : List AddCall} {key : SeriesKey} {c : AddCall}
    (hkey : ∀ d ∈ calls, d.key = key) : Stays calls c ↔ c ∈ kept AddCall.cuts calls := by
  rw [mem_kept, Stays]
  apply exists_congr
  intro before
  apply exists_congr
  intro later
  apply and_congr_right
  rintro rfl
  apply forall₂_congr
  intro d hd
  have hsame : d.key = c.key := by
    rw [hkey d (List.mem_append_right _ hd), hkey c (by simp)]
  rw [Bool.eq_false_iff, ne_eq, cuts_iff]
  simp [hsame]

end Calls

section Histories

variable {ι : Type}

/-- A call with the process that makes it. -/
abbrev Placed (ι : Type) := ι × AddCall

def under (key : SeriesKey) (calls : List (Placed ι)) : List (Placed ι) :=
  calls.filter fun x => x.2.key = key

def Placed.untrimmed (x : Placed ι) : Placed ι := (x.1, x.2.untrimmed)

def Placed.cuts (x y : Placed ι) : Bool := x.2.cuts y.2

abbrev CallersTurn (ι : Type) :=
  EnsembleTurn (ι := ι) (fun _ => Caller) (fun _ => CallerAction) (fun _ => CallerEvent) Sets Empty

abbrev CallersState (ι : Type) := Snapshot (ι := ι) (fun _ => Caller) Sets

def CallerEvent.added? : CallerEvent → Option AddCall
  | .added c => some c
  | .trimmed _ => none

def CallerEvent.trimmed? : CallerEvent → Option AddCall
  | .added _ => none
  | .trimmed c => some c

/-- The calls that a run has begun, in the order of their `ZADD`s. -/
def added (ts : List (CallersTurn ι)) : List (Placed ι) :=
  (events ts).filterMap fun x => x.2.added?.map (Prod.mk x.1)

/-- The calls that a run has trimmed after. -/
def trimmedAfter (ts : List (CallersTurn ι)) : List (Placed ι) :=
  (events ts).filterMap fun x => x.2.trimmed?.map (Prod.mk x.1)

/-- One process alone adds under a key. -/
def OneCaller (ts : List (CallersTurn ι)) (key : SeriesKey) : Prop :=
  ∀ x ∈ under key (added ts), ∀ y ∈ under key (added ts), x.1 = y.1

/-- The sets are what some whole calls one after the other leave: those that a run has begun,
without the trims that it has not made, and under a key with one writer in its order. -/
structure Serial (t : F64Text) (ts : List (CallersTurn ι)) (sets : Sets)
    (calls : List (Placed ι)) : Prop where
  sets_eq : ∀ key, sets key = t.after ((under key calls).map Prod.snd)
  begun : (calls.map Placed.untrimmed).Perm ((added ts).map Placed.untrimmed)
  trims : (calls.filter fun x => 0 < x.2.windowNs).Perm (trimmedAfter ts)
  ordered : ∀ key, OneCaller ts key →
    (under key calls).map Placed.untrimmed = (under key (added ts)).map Placed.untrimmed

@[simp] theorem added_concat (ts : List (CallersTurn ι)) (u : CallersTurn ι) :
    added (ts ++ [u]) =
      added ts ++ u.emitted.filterMap fun x => x.2.added?.map (Prod.mk x.1) := by
  simp [added]

@[simp] theorem trimmedAfter_concat (ts : List (CallersTurn ι)) (u : CallersTurn ι) :
    trimmedAfter (ts ++ [u]) =
      trimmedAfter ts ++ u.emitted.filterMap fun x => x.2.trimmed?.map (Prod.mk x.1) := by
  simp [trimmedAfter]

variable {t : F64Text} {key : SeriesKey} {l m : List (Placed ι)} {x : Placed ι}

@[simp] theorem under_append : under key (l ++ m) = under key l ++ under key m :=
  List.filter_append ..

private theorem mem_under : x ∈ under key l ↔ x ∈ l ∧ x.2.key = key := by
  simp [under]

private theorem under_cons_of_ne (h : x.2.key ≠ key) : under key (x :: l) = under key l :=
  List.filter_cons_of_neg (by simpa using h)

private theorem under_cons_self : under x.2.key (x :: l) = x :: under x.2.key l :=
  List.filter_cons_of_pos (by simp)

@[simp] theorem untrimmed_untrimmed : x.untrimmed.untrimmed = x.untrimmed := rfl

private theorem map_under :
    (under key l).map Placed.untrimmed = under key (l.map Placed.untrimmed) := by
  rw [under, under, List.filter_map]
  rfl

private theorem roundTrips_of_perm (hperm : (l.map Placed.untrimmed).Perm (m.map Placed.untrimmed))
    (hm : ∀ y ∈ m, t.RoundTrips y.2.val) : ∀ y ∈ l, t.RoundTrips y.2.val := by
  intro y hy
  obtain ⟨z, hz, hsame⟩ := List.mem_map.mp (hperm.mem_iff.mp (List.mem_map_of_mem hy))
  have hval : z.untrimmed.2.val = y.untrimmed.2.val := by rw [hsame]
  exact hval ▸ hm z hz

/-- The member of a call with its score. -/
def Placed.entry (t : F64Text) (x : Placed ι) : Nat ×ₗ Text := t.entry x.2

private theorem mem_after_under (hround : ∀ x ∈ l, t.RoundTrips x.2.val) {y : Nat ×ₗ Text} :
    y ∈ (t.after ((under key l).map Prod.snd)).entries ↔
      y ∈ (kept Placed.cuts (under key l)).map (Placed.entry t) := by
  have hkey : ∀ c ∈ (under key l).map Prod.snd, c.key = key := by
    intro c hc
    obtain ⟨x, hx, rfl⟩ := List.mem_map.mp hc
    exact (mem_under.mp hx).2
  have hvals : ∀ c ∈ (under key l).map Prod.snd, t.RoundTrips c.val := by
    intro c hc
    obtain ⟨x, hx, rfl⟩ := List.mem_map.mp hc
    exact hround x (mem_under.mp hx).1
  have hkept : kept AddCall.cuts ((under key l).map Prod.snd) =
      (kept Placed.cuts (under key l)).map Prod.snd := kept_map Prod.snd (under key l)
  rw [mem_after hvals, List.mem_map]
  constructor
  · rintro ⟨c, hc, rfl⟩
    rw [stays_iff_kept hkey, hkept, List.mem_map] at hc
    obtain ⟨x, hx, rfl⟩ := hc
    exact ⟨x, hx, rfl⟩
  · rintro ⟨x, hx, rfl⟩
    refine ⟨x.2, ?_, rfl⟩
    rw [stays_iff_kept hkey, hkept]
    exact List.mem_map_of_mem hx

/-! ## A trim that comes later -/

/-- The history in which a call moves behind the later ones that it cuts. -/
def deferred (l : List (Placed ι)) (x : Placed ι) (m : List (Placed ι)) : List (Placed ι) :=
  l ++ (m.filter x.cuts ++ x :: m.filter (!x.cuts ·))

private theorem Placed.key_eq_of_cuts {y : Placed ι} (h : x.cuts y = true) : x.2.key = y.2.key :=
  (cuts_iff.mp h).1

private theorem under_deferred : under x.2.key (deferred l x m) =
    deferred (under x.2.key l) x (under x.2.key m) := by
  have hself : under x.2.key (x :: m.filter (!x.cuts ·)) =
      x :: (under x.2.key m).filter (!x.cuts ·) := by
    rw [under, List.filter_cons_of_pos (by simp), List.filter_comm]
    rfl
  rw [deferred, under_append, under_append, hself, deferred]
  congr 2
  exact List.filter_comm ..

private theorem under_deferred_of_ne (hkey : key ≠ x.2.key) :
    under key (deferred l x m) = under key (l ++ x.untrimmed :: m) := by
  have hlow : under key (m.filter x.cuts) = [] := by
    rw [under, List.filter_eq_nil_iff]
    intro y hy hsame
    have hcut := Placed.key_eq_of_cuts (List.mem_filter.mp hy).2
    exact hkey ((of_decide_eq_true hsame).symm.trans hcut.symm)
  have hhigh : under key (m.filter (!x.cuts ·)) = under key m := by
    rw [under, List.filter_filter]
    apply List.filter_congr
    intro y _
    by_cases hsame : y.2.key = key
    · have huncut : x.cuts y = false := by
        by_contra hcut
        exact hkey (hsame.symm.trans
          (Placed.key_eq_of_cuts (Bool.not_eq_false _ ▸ hcut)).symm)
      simp [hsame, huncut]
    · simp [hsame]
  rw [deferred, under_append, under_append, under_append, under_cons_of_ne hkey.symm,
    under_cons_of_ne (x := x.untrimmed) hkey.symm, hlow, hhigh, List.nil_append]

private theorem deferred_perm : ((deferred l x m).map Placed.untrimmed).Perm
    ((l ++ x.untrimmed :: m).map Placed.untrimmed) := by
  have hm := (List.filter_append_perm x.cuts m).map Placed.untrimmed
  rw [List.map_append] at hm
  simp only [deferred, List.map_append, List.map_cons, untrimmed_untrimmed]
  exact (List.perm_middle.trans (hm.cons _)).append_left _

/-- After the trim of an open call the set is as if the call had been made behind those that it
cuts. -/
private theorem after_deferred (hround : ∀ y ∈ l ++ x.untrimmed :: m, t.RoundTrips y.2.val)
    (hwindow : 0 < x.2.windowNs) :
    (t.after ((under x.2.key (l ++ x.untrimmed :: m)).map Prod.snd)).removeUpTo x.2.cutoff =
      t.after ((under x.2.key (deferred l x m)).map Prod.snd) := by
  have hround' := roundTrips_of_perm deferred_perm hround
  have hopen : under x.2.key (l ++ x.untrimmed :: m) =
      under x.2.key l ++ x.untrimmed :: under x.2.key m := by
    rw [under_append]
    congr 1
    exact under_cons_self (x := x.untrimmed)
  have hkept : (kept Placed.cuts (deferred (under x.2.key l) x (under x.2.key m))).map
      (Placed.entry t) = ((kept Placed.cuts (under x.2.key l ++ x.untrimmed ::
        under x.2.key m)).filter (!x.cuts ·)).map (Placed.entry t) :=
    kept_deferred (fun _ _ => cuts_trans) (fun y => cuts_untrimmed x.2 y.2) (fun _ => rfl) rfl
  rw [← hopen, ← under_deferred] at hkept
  apply SortedSet.eq_of_mem_iff
  intro y
  rw [SortedSet.mem_removeUpTo, mem_after_under hround, mem_after_under hround', hkept,
    List.mem_map, List.mem_map]
  have huncut : ∀ z ∈ kept Placed.cuts (under x.2.key (l ++ x.untrimmed :: m)),
      ((!x.cuts z) = true ↔ x.2.cutoff < z.2.score) := by
    intro z hz
    exact uncut_iff (mem_under.mp (mem_of_mem_kept hz)).2.symm hwindow
  constructor
  · rintro ⟨⟨z, hz, rfl⟩, hscore⟩
    exact ⟨z, List.mem_filter.mpr ⟨hz, (huncut z hz).mpr hscore⟩, rfl⟩
  · rintro ⟨z, hz, rfl⟩
    obtain ⟨hz, hhigh⟩ := List.mem_filter.mp hz
    exact ⟨⟨z, hz, rfl⟩, (huncut z hz).mp hhigh⟩

/-- An open call has its place, under a key with one writer the last one. -/
structure OpenCall (ts : List (CallersTurn ι)) (calls : List (Placed ι)) (x : Placed ι) :
    Prop where
  windowed : 0 < x.2.windowNs
  placed : x.untrimmed ∈ calls
  last : OneCaller ts x.2.key → ∃ before, under x.2.key calls = before ++ [x.untrimmed]

/-- What holds of a history between two commands. -/
structure Recorded (t : F64Text) (ts : List (CallersTurn ι)) (s : CallersState ι)
    (calls : List (Placed ι)) : Prop extends Serial t ts s.medium calls where
  opened : ∀ i c, s.members i = .trimming c → OpenCall ts calls (i, c)

variable {ts : List (CallersTurn ι)} {s : CallersState ι} {calls : List (Placed ι)} {i : ι}
  {c : AddCall}

private theorem exists_added
    (hbegun : (calls.map Placed.untrimmed).Perm ((added ts).map Placed.untrimmed))
    (hx : x ∈ calls) : ∃ y ∈ under x.2.key (added ts), y.1 = x.1 := by
  obtain ⟨y, hy, hsame⟩ := List.mem_map.mp (hbegun.mem_iff.mp (List.mem_map_of_mem hx))
  have hkey : y.untrimmed.2.key = x.untrimmed.2.key := by rw [hsame]
  have hwriter : y.untrimmed.1 = x.untrimmed.1 := by rw [hsame]
  exact ⟨y, mem_under.mpr ⟨hy, hkey⟩, hwriter⟩

private theorem OneCaller.eq (h : OneCaller ts key)
    (hbegun : (calls.map Placed.untrimmed).Perm ((added ts).map Placed.untrimmed))
    {y : Placed ι} (hx : x ∈ under key calls) (hy : y ∈ under key calls) : x.1 = y.1 := by
  obtain ⟨hxmem, hxkey⟩ := mem_under.mp hx
  obtain ⟨hymem, hykey⟩ := mem_under.mp hy
  obtain ⟨x', hx', hxsame⟩ := exists_added hbegun hxmem
  obtain ⟨y', hy', hysame⟩ := exists_added hbegun hymem
  rw [hxkey] at hx'
  rw [hykey] at hy'
  rw [← hxsame, ← hysame]
  exact h x' hx' y' hy'

private theorem OpenCall.split (h : OpenCall ts calls x) : ∃ l m, calls = l ++ x.untrimmed :: m ∧
    (OneCaller ts x.2.key → under x.2.key m = []) := by
  by_cases hone : OneCaller ts x.2.key
  · obtain ⟨before, hbefore⟩ := h.last hone
    obtain ⟨l₁, l₂, rfl, -, hlast⟩ := List.filter_eq_append_iff.mp hbefore
    obtain ⟨l₃, m, rfl, -, -, hnone⟩ := List.filter_eq_cons_iff.mp hlast
    exact ⟨l₁ ++ l₃, m, by rw [List.append_assoc], fun _ => hnone⟩
  · obtain ⟨l, m, rfl⟩ := List.append_of_mem h.placed
    exact ⟨l, m, rfl, fun h => absurd h hone⟩

private theorem OneCaller.earlier {ts' : List (CallersTurn ι)} (hadded : added ts' = added ts ++ l)
    (h : OneCaller ts' key) : OneCaller ts key := by
  intro y hy z hz
  apply h
  all_goals
    rw [hadded, under_append]
    exact List.mem_append_left _ ‹_›

private theorem Serial.congr {ts' : List (CallersTurn ι)} {sets : Sets} (h : Serial t ts sets calls)
    (hadded : added ts' = added ts) (htrims : trimmedAfter ts' = trimmedAfter ts) :
    Serial t ts' sets calls where
  sets_eq := h.sets_eq
  begun := hadded ▸ h.begun
  trims := htrims ▸ h.trims
  ordered key hone := by
    rw [hadded]
    apply h.ordered
    rwa [OneCaller, hadded] at hone

private theorem Serial.concat {ts' : List (CallersTurn ι)} {sets : Sets}
    (h : Serial t ts sets calls)
    (hadded : added ts' = added ts ++ [x]) (htrims : trimmedAfter ts' = trimmedAfter ts) :
    Serial t ts' (sets.exec ((CallerEvent.added x.2).command t)) (calls ++ [x.untrimmed]) where
  sets_eq key := by
    rw [under_append, List.map_append]
    by_cases hkey : key = x.2.key
    · subst hkey
      have hself : under x.2.key [x.untrimmed] = [x.untrimmed] :=
        under_cons_self (x := x.untrimmed)
      change Function.update sets x.2.key _ x.2.key = _
      rw [Function.update_self, h.sets_eq, hself, List.map_singleton, after_concat]
      exact (tsAdd_untrimmed_members _ _).symm
    · have hother : under key [x.untrimmed] = [] :=
        under_cons_of_ne (x := x.untrimmed) (Ne.symm hkey)
      change Function.update sets x.2.key _ key = _
      rw [Function.update_of_ne hkey, h.sets_eq, hother, List.map_nil, List.append_nil]
  begun := by
    rw [hadded, List.map_append, List.map_append]
    exact h.begun.append_right _
  trims := by
    have hopen : ([x.untrimmed].filter fun y => 0 < y.2.windowNs) = [] := by
      simp [Placed.untrimmed, AddCall.untrimmed]
    rw [List.filter_append, hopen, List.append_nil, htrims]
    exact h.trims
  ordered key hone := by
    have hbefore := h.ordered key (hone.earlier hadded)
    rw [map_under, map_under] at hbefore ⊢
    rw [hadded, List.map_append, List.map_append, under_append, under_append, hbefore]
    rfl

private theorem Serial.trim {ts' : List (CallersTurn ι)} {sets : Sets}
    (h : Serial t ts sets (l ++ x.untrimmed :: m)) (hadded : added ts' = added ts)
    (htrims : trimmedAfter ts' = trimmedAfter ts ++ [x])
    (hround : ∀ y ∈ added ts, t.RoundTrips y.2.val) (hwindow : 0 < x.2.windowNs)
    (hlast : OneCaller ts x.2.key → under x.2.key m = []) :
    Serial t ts' (sets.exec ((CallerEvent.trimmed x.2).command t)) (deferred l x m) where
  sets_eq key := by
    by_cases hkey : key = x.2.key
    · subst hkey
      change Function.update sets x.2.key _ x.2.key = _
      rw [Function.update_self, h.sets_eq]
      exact after_deferred (roundTrips_of_perm h.begun hround) hwindow
    · change Function.update sets x.2.key _ key = _
      rw [Function.update_of_ne hkey, h.sets_eq, under_deferred_of_ne hkey]
  begun := by
    rw [hadded]
    exact deferred_perm.trans h.begun
  trims := by
    have hopen : (l ++ x.untrimmed :: m).filter (fun y => 0 < y.2.windowNs) =
        (l ++ m).filter fun y => 0 < y.2.windowNs := by
      simp [Placed.untrimmed, AddCall.untrimmed]
    have hbefore := h.trims
    rw [hopen] at hbefore
    have hplace : (deferred l x m).Perm (x :: (l ++ m)) := by
      have hm := (List.filter_append_perm x.cuts m).cons x
      exact ((List.perm_middle.trans hm).append_left l).trans List.perm_middle
    have hfilter := hplace.filter fun y => 0 < y.2.windowNs
    rw [List.filter_cons_of_pos (by simpa using hwindow)] at hfilter
    rw [htrims]
    exact hfilter.trans ((hbefore.cons x).trans (List.perm_append_singleton x _).symm)
  ordered key hone := by
    have hone : OneCaller ts key := by rwa [OneCaller, hadded] at hone
    have hbefore := h.ordered key hone
    rw [hadded, ← hbefore]
    by_cases hkey : key = x.2.key
    · subst hkey
      have hopen : under x.2.key (x.untrimmed :: m) = x.untrimmed :: under x.2.key m :=
        under_cons_self (x := x.untrimmed)
      rw [under_deferred, deferred, under_append, hopen, hlast hone, List.filter_nil,
        List.filter_nil, List.nil_append, List.map_append, List.map_append]
      rfl
    · rw [under_deferred_of_ne hkey]

private theorem mem_deferred {y : Placed ι} (hy : y ∈ l ++ x.untrimmed :: m)
    (hne : y ≠ x.untrimmed) : y ∈ deferred l x m := by
  rcases List.mem_append.mp hy with hy | hy
  · exact List.mem_append_left _ hy
  · apply List.mem_append_right
    have hm : y ∈ m := (List.mem_cons.mp hy).resolve_left hne
    by_cases hcut : x.cuts y = true
    · exact List.mem_append_left _ (List.mem_filter.mpr ⟨hm, hcut⟩)
    · apply List.mem_append_right
      exact List.mem_cons_of_mem _ (List.mem_filter.mpr ⟨hm, by simpa using hcut⟩)

private theorem opened_update [DecidableEq ι] {members : ι → Caller} {n : Caller}
    (hown : ∀ d, n = .trimming d → OpenCall ts calls (i, d))
    (hothers : ∀ j d, j ≠ i → members j = .trimming d → OpenCall ts calls (j, d)) (j : ι)
    (d : AddCall) (hj : Function.update members i n j = .trimming d) :
    OpenCall ts calls (j, d) := by
  by_cases hij : j = i
  · subst hij
    rw [Function.update_self] at hj
    exact hown d hj
  · rw [Function.update_of_ne hij] at hj
    exact hothers j d hij hj

private theorem Recorded.zadd (h : Recorded t ts s calls) {ts' : List (CallersTurn ι)}
    [DecidableEq ι] (hadded : added ts' = added ts ++ [(i, c)])
    (htrims : trimmedAfter ts' = trimmedAfter ts) :
    Recorded t ts' ⟨Function.update s.members i (if 0 < c.windowNs then .trimming c else .idle),
      s.medium.exec ((CallerEvent.added c).command t)⟩ (calls ++ [(i, c.untrimmed)]) := by
  have hserial := h.toSerial.concat hadded htrims
  refine ⟨hserial, opened_update ?_ ?_⟩
  · intro d hd
    split at hd
    · rename_i hwindow
      obtain rfl := Caller.trimming.inj hd
      refine ⟨hwindow, List.mem_append_right _ (List.mem_singleton_self _), ?_⟩
      intro _
      refine ⟨under c.key calls, ?_⟩
      rw [under_append]
      congr 1
      exact under_cons_self (x := Placed.untrimmed (i, c))
    · contradiction
  · intro j d hij hj
    obtain ⟨hwindow, hplaced, hlast⟩ := h.opened j d hj
    refine ⟨hwindow, List.mem_append_left _ hplaced, ?_⟩
    intro hone
    -- a process that adds under the key of another's open call is a second writer
    have hne : c.key ≠ d.key := by
      intro hkey
      exact hij (hone.eq hserial.begun (mem_under.mpr ⟨List.mem_append_left _ hplaced, rfl⟩)
        (mem_under.mpr ⟨List.mem_append_right _ (List.mem_singleton_self _), hkey⟩))
    have hother : under d.key [(i, c.untrimmed)] = [] :=
      under_cons_of_ne (x := (i, c.untrimmed)) hne
    obtain ⟨before, hbefore⟩ := hlast (hone.earlier hadded)
    refine ⟨before, ?_⟩
    rw [under_append, hbefore]
    exact (congrArg (_ ++ ·) hother).trans (List.append_nil _)

private theorem Recorded.trim (h : Recorded t ts s calls) {ts' : List (CallersTurn ι)}
    [DecidableEq ι] (hcaller : s.members i = .trimming c) (hadded : added ts' = added ts)
    (htrims : trimmedAfter ts' = trimmedAfter ts ++ [(i, c)])
    (hround : ∀ y ∈ added ts, t.RoundTrips y.2.val) :
    ∃ calls', Recorded t ts' ⟨Function.update s.members i .idle,
      s.medium.exec ((CallerEvent.trimmed c).command t)⟩ calls' := by
  have hopened := h.opened
  have hopen := hopened i c hcaller
  obtain ⟨l, m, rfl, hbehind⟩ := hopen.split
  refine ⟨deferred l (i, c) m,
    h.toSerial.trim hadded htrims hround hopen.windowed hbehind, opened_update ?_ ?_⟩
  · intro d hd
    contradiction
  · intro j d hij hj
    obtain ⟨hwindow, hplaced, hlast⟩ := hopened j d hj
    refine ⟨hwindow, mem_deferred hplaced fun hsame => hij (Prod.mk.inj hsame).1, ?_⟩
    intro hone
    have hone : OneCaller ts d.key := by rwa [OneCaller, hadded] at hone
    have hne : d.key ≠ c.key := by
      intro hkey
      exact hij (hone.eq h.begun (mem_under.mpr ⟨hplaced, rfl⟩)
        (mem_under.mpr ⟨hopen.placed, hkey.symm⟩))
    obtain ⟨before, hbefore⟩ := hlast hone
    exact ⟨before, (under_deferred_of_ne (x := (i, c)) hne).trans hbefore⟩

private theorem Recorded.fail (h : Recorded t ts s calls) {ts' : List (CallersTurn ι)}
    [DecidableEq ι] (hadded : added ts' = added ts) (htrims : trimmedAfter ts' = trimmedAfter ts) :
    Recorded t ts' ⟨Function.update s.members i .idle, s.medium⟩ calls := by
  refine ⟨h.toSerial.congr hadded htrims, opened_update ?_ ?_⟩
  · intro d hd
    contradiction
  · intro j d _ hj
    obtain ⟨hwindow, hplaced, hlast⟩ := h.opened j d hj
    refine ⟨hwindow, hplaced, ?_⟩
    rwa [OneCaller, hadded]

end Histories

section Runs

variable {ι : Type} [DecidableEq ι] {t : F64Text}

def Callers.init : CallersState ι := ⟨fun _ => .idle, fun _ => .empty⟩

private theorem recorded_turn {ts : List (CallersTurn ι)} {s s' : CallersState ι}
    {calls : List (Placed ι)}
    {a : Move (fun _ : ι => CallerAction) Empty} {es : List (Sigma fun _ : ι => CallerEvent)}
    (h : Recorded t ts s calls) (hround : ∀ x ∈ added ts, t.RoundTrips x.2.val)
    (hstep : (callers t ι).toMachine.step s a = some (s', es)) :
    ∃ calls', Recorded t (ts ++ [⟨s, a, es, s'⟩]) s' calls' := by
  cases a with
  | drift d => exact d.elim
  | member i a =>
    obtain ⟨n, fs, -, hlocal, rfl, rfl⟩ := step_member hstep
    have hcall := CallerStep.of_step hlocal
    generalize hcaller : s.members i = p at hcall
    cases hcall with
    | zadd c => exact ⟨_, h.zadd (by simp [CallerEvent.added?]) (by simp [CallerEvent.trimmed?])⟩
    | trim c =>
      exact h.trim hcaller (by simp [CallerEvent.added?]) (by simp [CallerEvent.trimmed?]) hround
    | fail c => exact ⟨calls, h.fail (by simp) (by simp)⟩

/-- However the commands of the processes interleave, the sets are as whole calls one after the
other leave them. -/
theorem commands_serialized {s : CallersState ι} {ts : List (CallersTurn ι)}
    (hrun : (callers t ι).toMachine.Run Callers.init ts s)
    (hround : ∀ x ∈ added ts, t.RoundTrips x.2.val) : ∃ calls, Serial t ts s.medium calls := by
  have hrecorded : ∃ calls, Recorded t ts s calls := by
    induction hrun with
    | start =>
      refine ⟨[], ⟨?_, ?_, ?_, ?_⟩, ?_⟩
      · intro key
        rfl
      · exact List.Perm.refl _
      · exact List.Perm.refl _
      · intro key _
        rfl
      · intro i c hcaller
        contradiction
    | @turn us _ _ _ _ _ hstep ih =>
      have hbefore : ∀ x ∈ added us, t.RoundTrips x.2.val := by
        intro x hx
        apply hround
        rw [added_concat]
        exact List.mem_append_left _ hx
      obtain ⟨calls, hcalls⟩ := ih hbefore
      exact recorded_turn hcalls hbefore hstep
  obtain ⟨calls, hcalls⟩ := hrecorded
  exact ⟨calls, hcalls.toSerial⟩

end Runs

/-- The second process adds and trims between the two commands of the first. -/
def twoCalls : List (Move (fun _ : Bool => CallerAction) Empty) :=
  [.member true (.zadd (callAt 1000 1)), .member false (.zadd (callAt 40000000000 1)),
    .member false .trim, .member true .trim]

def twoCallsTurns : List (CallersTurn Bool) :=
  (callers wholeText Bool).toMachine.turnsOf Callers.init twoCalls

private theorem twoCalls_run :
    ((callers wholeText Bool).toMachine.exec Callers.init twoCalls).isSome = true := by
  decide +kernel

theorem commands_serialized_two : (trimmedAfter twoCallsTurns).length = 2 ∧
    ∃ calls, Serial wholeText twoCallsTurns
      ((callers wholeText Bool).toMachine.stateAfter Callers.init twoCalls).medium calls := by
  refine ⟨by decide +kernel, commands_serialized (Run.of_actions twoCalls_run) ?_⟩
  have hvals : ∀ x ∈ added twoCallsTurns, x.2.val = 5 := by decide +kernel
  intro x hx
  rw [hvals x hx]
  exact wholeText_five

end Zeitpeer
