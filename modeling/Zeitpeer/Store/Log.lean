import Zeitpeer.Store.Shared

/-!
# A series as a log

Every call under a key adds an entry and cuts off what has become too old. After any number of
calls a series holds the entries that neither their own call nor a later one has cut off, in the
order of the calls.
-/

namespace Zeitpeer

/-- A call cuts off an entry that is at or before its cutoff. -/
def TsAdd.cuts (w : TsAdd) (e : Entry) : Bool :=
  decide (0 < w.windowNs) && decide (e.score ≤ roundToF64 (saturatingSub w.tsNs w.windowNs).toNat)

/-- The entries of some calls that none of these calls has cut off since. -/
def survivors : List TsAdd → List Entry
  | [] => []
  | w :: ws => (if (w :: ws).any fun x => x.cuts w.entry then [] else [w.entry]) ++ survivors ws

/-- One more call on the entries of a series. -/
def addEntry (entries : List Entry) (w : TsAdd) : List Entry :=
  (entries ++ [w.entry]).filter fun e => !w.cuts e

private theorem tsAdd_self (store : Store) (w : TsAdd) :
    store.tsAdd w w.key = addEntry (store w.key) w := by
  rw [Store.tsAdd, Function.update_self, addEntry]
  split
  · rename_i hwindow
    apply List.filter_congr
    intro e _
    rw [TsAdd.cuts, decide_eq_true hwindow, Bool.true_and, ← decide_not, decide_eq_decide, not_le]
  · rename_i hwindow
    simp [TsAdd.entry, TsAdd.cuts, hwindow]

/-- What calls leave of a series: what was there and what they add, as far as it has not been
cut off. -/
theorem foldl_addEntry (entries : List Entry) (ws : List TsAdd) :
    ws.foldl addEntry entries =
      (entries.filter fun e => !ws.any fun w => w.cuts e) ++ survivors ws := by
  induction ws generalizing entries with
  | nil => simp [survivors]
  | cons w ws ih =>
    rw [List.foldl_cons, ih, addEntry, List.filter_append, List.filter_append, List.filter_filter,
      List.append_assoc, survivors]
    congr 1
    · apply List.filter_congr
      intro e _
      rw [List.any_cons, Bool.not_or, Bool.and_comm]
    · congr 1
      by_cases hself : w.cuts w.entry = true
      · simp [hself]
      · by_cases hlater : (ws.any fun x => x.cuts w.entry) = true <;> simp [hself, hlater]

/-- The call under a series that a write is. -/
def StoreWrite.adds (key : SeriesKey) : StoreWrite → Option TsAdd
  | .tsAdd w => if w.key = key then some w else none
  | .hmSet _ => none

private theorem series_write (m : Shared) (w : StoreWrite) (key : SeriesKey) :
    (m.write w).series key = (w.adds key).toList.foldl addEntry (m.series key) := by
  cases w with
  | hmSet h => rfl
  | tsAdd w =>
    by_cases hkey : w.key = key
    · subst hkey
      rw [StoreWrite.adds, if_pos rfl]
      exact tsAdd_self m.series w
    · rw [StoreWrite.adds, if_neg hkey]
      exact tsAdd_of_ne (Ne.symm hkey)

theorem series_writes (m : Shared) (ws : List StoreWrite) (key : SeriesKey) :
    (ws.foldl Shared.write m).series key =
      (ws.filterMap (StoreWrite.adds key)).foldl addEntry (m.series key) := by
  induction ws generalizing m with
  | nil => rfl
  | cons w ws ih =>
    rw [List.foldl_cons, ih, series_write]
    cases hadds : w.adds key with
    | none => rw [List.filterMap_cons_none hadds]; rfl
    | some x => rw [List.filterMap_cons_some hadds]; rfl

end Zeitpeer
