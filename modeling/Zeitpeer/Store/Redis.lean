import Zeitpeer.Store.Series
import Zeitpeer.Framework.Robust
import Zeitpeer.Framework.Rounding
import Mathlib.Algebra.Order.Group.Multiset
import Mathlib.Data.List.Perm.Subperm
import Mathlib.Logic.Function.Basic

/-!
# Sorted sets

Each series is a sorted set whose scores are stamps converted to `f64`; the running counter in
a member's text keeps members apart, so nothing is ever merged. A reading takes the entries of
the highest scores. Entries of one score come in the order of their texts, which is left open:
any choice among them is an answer.
-/

namespace Zeitpeer

open scoped List

/-- `n as f64` for an unsigned integer: the nearest multiple of the last place of 53 bits,
halves to the even one. -/
def roundToF64 (n : Nat) : Nat :=
  let place := 2 ^ (n.log2 - 52)
  let quot := n / place
  let rest := n % place
  let up := place < 2 * rest ∨ place = 2 * rest ∧ quot % 2 = 1
  (if up then quot + 1 else quot) * place

theorem roundToF64_mono {n m : Nat} (h : n ≤ m) : roundToF64 n ≤ roundToF64 m :=
  Framework.toBits_mono (by decide : 0 < 53) h

theorem roundToF64_of_lt {n : Nat} (h : n < 2 ^ 53) : roundToF64 n = n :=
  Framework.toBits_of_lt h

/-- Scores are rounded as all other numbers are. -/
theorem round_natCast (n : Nat) : F64.round n = roundToF64 n := Framework.ratToBits_natCast 53 n

structure Entry where
  score : Nat
  val : F64
  deriving DecidableEq, Repr

/-- `score as u64` saturates. -/
def Entry.reading (e : Entry) : UInt64 × F64 := (UInt64.ofNat (min e.score (2 ^ 64 - 1)), e.val)

abbrev Store := SeriesKey → List Entry

/-- `saturating_sub` on `u64`. -/
def saturatingSub (a b : UInt64) : UInt64 := if a < b then 0 else a - b

/-- `ts_add`: the new member, then the removal of everything at or before the cutoff. -/
def Store.tsAdd (store : Store) (w : TsAdd) : Store :=
  let added := store w.key ++ [⟨roundToF64 w.tsNs.toNat, w.val⟩]
  let cutoff := roundToF64 (saturatingSub w.tsNs w.windowNs).toNat
  Function.update store w.key
    (if 0 < w.windowNs then added.filter fun e => cutoff < e.score else added)

/-- The entries of a series inside the window. -/
def eligible (entries : List Entry) (since : UInt64) : List Entry :=
  entries.filter fun e => roundToF64 since.toNat ≤ e.score

/-- The replies `ts_recent` may get: the eligible entries of the highest scores, ascending. -/
def IsRecent (entries : List Entry) (since : UInt64) (limit : Nat) (reply : List Entry) : Prop :=
  reply.length = (if limit = 0 then (eligible entries since).length
    else min limit (eligible entries since).length) ∧
  reply.Subperm (eligible entries since) ∧ (reply.Pairwise fun a b => a.score ≤ b.score) ∧
  ∀ e ∈ (eligible entries since).diff reply, ∀ r ∈ reply, e.score ≤ r.score

instance (entries : List Entry) (since : UInt64) (limit : Nat) (reply : List Entry) :
    Decidable (IsRecent entries since limit reply) :=
  inferInstanceAs (Decidable (_ ∧ _ ∧ _ ∧ _))

theorem mem_tsAdd {store : Store} {w : TsAdd} {key : SeriesKey} {e : Entry}
    (he : e ∈ store.tsAdd w key) :
    e ∈ store key ∨ key = w.key ∧ e = ⟨roundToF64 w.tsNs.toNat, w.val⟩ := by
  by_cases hkey : key = w.key
  · subst hkey
    have hadded : e ∈ store w.key ++ [⟨roundToF64 w.tsNs.toNat, w.val⟩] := by
      rw [Store.tsAdd, Function.update_self] at he
      split at he
      · exact List.mem_of_mem_filter he
      · exact he
    rcases List.mem_append.mp hadded with hold | hnew
    · exact .inl hold
    · exact .inr ⟨rfl, List.mem_singleton.mp hnew⟩
  · rw [Store.tsAdd, Function.update_of_ne hkey] at he
    exact .inl he

theorem toNat_saturatingSub (a b : UInt64) : (saturatingSub a b).toNat = a.toNat - b.toNat := by
  rw [saturatingSub]
  split
  · rename_i hless
    have hnat : a.toNat < b.toNat := hless
    rw [UInt64.toNat_zero]
    omega
  · rename_i hle
    exact UInt64.toNat_sub_of_le a b (UInt64.not_lt.mp hle)

/-- With a window, a write leaves no entry whose stamp is as old as the window. -/
theorem within_of_mem_tsAdd {store : Store} {w : TsAdd} {e : Entry} {stamp : UInt64}
    (hwindow : 0 < w.windowNs) (he : e ∈ store.tsAdd w w.key)
    (hstamp : e.score = roundToF64 stamp.toNat) :
    w.tsNs.toNat < stamp.toNat + w.windowNs.toNat := by
  rw [Store.tsAdd, Function.update_self, if_pos hwindow] at he
  have hcutoff := of_decide_eq_true (List.mem_filter.mp he).2
  by_contra hold
  have hle : stamp.toNat ≤ (saturatingSub w.tsNs w.windowNs).toNat := by
    rw [toNat_saturatingSub]
    omega
  have hround := roundToF64_mono hle
  omega

theorem IsRecent.mem {entries : List Entry} {since : UInt64} {limit : Nat} {reply : List Entry}
    (h : IsRecent entries since limit reply) {e : Entry} (he : e ∈ reply) :
    e ∈ entries ∧ roundToF64 since.toNat ≤ e.score := by
  simpa [eligible] using h.2.1.subset he

/-- A reply reaches a positive limit exactly if that many entries are inside the window. -/
theorem IsRecent.limit_le_iff {entries : List Entry} {since : UInt64} {limit : Nat}
    {reply : List Entry} (h : IsRecent entries since limit reply) (hpos : 0 < limit) :
    limit ≤ reply.length ↔ limit ≤ (eligible entries since).length := by
  rw [h.1, if_neg (Nat.pos_iff_ne_zero.mp hpos)]
  omega

/-- The highest entries of the window in some order of the scores are a reply. -/
theorem isRecent_of_sorted {entries sorted : List Entry} {since : UInt64} (limit : Nat)
    (hperm : sorted.Perm (eligible entries since))
    (hsorted : sorted.Pairwise fun a b => a.score ≤ b.score) :
    IsRecent entries since limit
      (sorted.drop (if limit = 0 then 0 else sorted.length - limit)) := by
  rw [IsRecent]
  generalize hcount : (if limit = 0 then 0 else sorted.length - limit) = n
  refine ⟨?_, ?_, hsorted.sublist (List.drop_sublist _ _), ?_⟩
  · rw [List.length_drop, ← hperm.length_eq, ← hcount]
    by_cases hlimit : limit = 0
    · simp [hlimit]
    · rw [if_neg hlimit, if_neg hlimit]
      omega
  · exact (List.drop_sublist _ _).subperm.trans hperm.subperm
  · intro e he r hr
    have hrest : (eligible entries since).diff (sorted.drop n) ~ sorted.take n := by
      have hparts : (sorted : Multiset Entry) = sorted.drop n + sorted.take n := by
        rw [add_comm, Multiset.coe_add, List.take_append_drop]
      rw [← Multiset.coe_eq_coe, ← Multiset.coe_sub, ← Multiset.coe_eq_coe.mpr hperm, hparts]
      exact add_tsub_cancel_left _ _
    have htake := hrest.mem_iff.mp he
    rw [← List.take_append_drop n sorted, List.pairwise_append] at hsorted
    exact hsorted.2.2 e htake r hr

/-- One of the replies, with entries of one score in the order they were added. -/
def recentReply (entries : List Entry) (since : UInt64) (limit : Nat) : List Entry :=
  let sorted := Framework.sortBy Entry.score (eligible entries since)
  sorted.drop (if limit = 0 then 0 else sorted.length - limit)

/-- Every read has a reply. -/
theorem isRecent_recentReply (entries : List Entry) (since : UInt64) (limit : Nat) :
    IsRecent entries since limit (recentReply entries since limit) :=
  isRecent_of_sorted limit (Framework.sortBy_perm Entry.score (eligible entries since))
    (Framework.pairwise_sortBy Entry.score (eligible entries since))

theorem isRecent_alone {e : Entry} {since : UInt64} (hsince : roundToF64 since.toNat ≤ e.score) :
    IsRecent [e] since 1 [e] := by
  have heligible : eligible [e] since = [e] := by simp [eligible, hsince]
  rw [IsRecent, heligible]
  simp

theorem isRecent_nil (since : UInt64) (limit : Nat) : IsRecent [] since limit [] := by
  simp [IsRecent, eligible]

inductive HashKey where
  | peerSummary (id : UInt32)
  | ntpSummary (id : UInt32)
  | fusedSummary
  | peerSelf (id : UInt32)
  deriving DecidableEq, Repr

/-- The arguments of one `hm_set` call. -/
structure HmSet where
  key : HashKey
  fields : List (String × F64)
  deriving DecidableEq, Repr

end Zeitpeer
