import Zeitpeer.Framework.SortedSet
import Zeitpeer.Store.Shared
import Mathlib.Data.Char
import Mathlib.Data.List.Lex

/-!
# The members of a series

A member of a sorted set is a text: the stamp, the value and a number that counts the calls of
the process. The score is the stamp as an `f64`. A reading takes its value from the text and its
stamp from the score, so it is rounded, and so are the cutoff of a trim and the start of a read.
-/

namespace Zeitpeer

open Framework

abbrev Text := List Char

def decimal (n : Nat) : Text := Nat.toDigits 10 n

/-- How `f64`s are printed and parsed. -/
structure F64Text where
  print : F64 → Text
  parse : Text → Option F64

/-- The text of the value is parsed as the value, and has no colon. -/
structure F64Text.RoundTrips (t : F64Text) (val : F64) : Prop where
  parses : t.parse (t.print val) = some val
  plain : ':' ∉ t.print val

/-- A call of `ts_add`, with what it has drawn from the counter. -/
structure AddCall extends TsAdd where
  counter : UInt64
  deriving DecidableEq, Repr

abbrev Members := SortedSet Nat Text

namespace F64Text

variable (t : F64Text)

/-- `format!("{}:{}:{}", …)`. -/
def member (c : AddCall) : Text :=
  [':'].intercalate [decimal c.tsNs.toNat, t.print c.val, decimal c.counter.toNat]

def parseMemberValue (member : Text) : Option F64 := (member.splitOn ':')[1]?.bind t.parse

def tsAdd (z : Members) (c : AddCall) : Members :=
  let added := z.add (roundToF64 c.tsNs.toNat) (t.member c)
  if 0 < c.windowNs then
    added.removeUpTo (roundToF64 (saturatingSub c.tsNs c.windowNs).toNat)
  else added

/-- A member whose value cannot be parsed has no reading. -/
def reading (x : Nat × Text) : Option (UInt64 × F64) :=
  (t.parseMemberValue x.2).map fun val => (UInt64.ofNat (min x.1 (2 ^ 64 - 1)), val)

def tsRecent (z : Members) (sinceNs : UInt64) (limit : Nat) : List (UInt64 × F64) :=
  (z.revRange (roundToF64 sinceNs.toNat) (if 0 < limit then some limit else none)).reverse.filterMap
    t.reading

def tsLast (z : Members) : Option (UInt64 × F64) := z.highest.bind t.reading

/-- The series after some calls, the first one first. -/
def after (calls : List AddCall) : Members := calls.foldl t.tsAdd .empty

end F64Text

section Texts

variable {t : F64Text} {c d : AddCall}

private theorem decimal_injective : Function.Injective decimal := by
  intro n m h
  have hdigits := congrArg (Nat.ofDigitChars 10 · 0) h
  simpa [decimal, Nat.ofDigitChars_ten_toDigits] using hdigits

private theorem colon_notMem_decimal (n : Nat) : ':' ∉ decimal n := by
  intro h
  have hdigit := Nat.isDigit_of_mem_toDigits (by decide) (by decide) h
  exact absurd hdigit (by decide)

private theorem splitOn_member (hval : t.RoundTrips c.val) :
    (t.member c).splitOn ':' =
      [decimal c.tsNs.toNat, t.print c.val, decimal c.counter.toNat] := by
  apply List.splitOn_intercalate
  · simp [colon_notMem_decimal, hval.plain]
  · simp

private theorem parseMemberValue_member (hval : t.RoundTrips c.val) :
    t.parseMemberValue (t.member c) = some c.val := by
  simp [F64Text.parseMemberValue, splitOn_member hval, hval.parses]

private theorem member_inj (hc : t.RoundTrips c.val) (hd : t.RoundTrips d.val)
    (h : t.member c = t.member d) : c.tsNs = d.tsNs ∧ c.val = d.val := by
  have hparts := congrArg (List.splitOn ':') h
  rw [splitOn_member hc, splitOn_member hd] at hparts
  simp only [List.cons.injEq, and_true] at hparts
  refine ⟨UInt64.toNat_inj.mp (decimal_injective hparts.1), ?_⟩
  have hparse := hc.parses
  rw [hparts.2.1, hd.parses] at hparse
  exact (Option.some.inj hparse).symm

end Texts

/-- The rounded stamp. -/
def AddCall.score (c : AddCall) : Nat := roundToF64 c.tsNs.toNat

/-- A call removes what is at or before its cutoff, itself included. -/
def Trims (d c : AddCall) : Prop :=
  0 < d.windowNs ∧ c.score ≤ roundToF64 (saturatingSub d.tsNs d.windowNs).toNat

/-- The call has been made, and neither it nor a later one has trimmed it. -/
def Stays (calls : List AddCall) (c : AddCall) : Prop :=
  ∃ before later, calls = before ++ c :: later ∧ ∀ d ∈ c :: later, ¬ Trims d c

/-- The member of a call with its score. -/
def F64Text.entry (t : F64Text) (c : AddCall) : Nat ×ₗ Text := toLex (c.score, t.member c)

/-- The pair that a reading of the call returns. -/
def AddCall.reading (c : AddCall) : UInt64 × F64 := (UInt64.ofNat (min c.score (2 ^ 64 - 1)), c.val)

section History

variable {t : F64Text} {calls : List AddCall} {c d : AddCall}

private theorem not_stays_nil : ¬ Stays [] c := by
  rintro ⟨before, later, hsplit, _⟩
  simp at hsplit

private theorem Stays.mem (h : Stays calls c) : c ∈ calls := by
  obtain ⟨before, later, rfl, _⟩ := h
  simp

private theorem stays_concat : Stays (calls ++ [d]) c ↔ (c = d ∨ Stays calls c) ∧ ¬ Trims d c := by
  constructor
  · rintro ⟨before, later, hsplit, hnone⟩
    rcases List.eq_nil_or_concat later with rfl | ⟨rest, e, rfl⟩
    · obtain ⟨_, hlast⟩ := List.append_inj' hsplit rfl
      obtain rfl := List.singleton_inj.mp hlast
      exact ⟨.inl rfl, hnone d List.mem_cons_self⟩
    · rw [List.concat_eq_append] at hsplit hnone
      rw [← List.cons_append, ← List.append_assoc] at hsplit
      obtain ⟨hcalls, hlast⟩ := List.append_inj' hsplit rfl
      obtain rfl := List.singleton_inj.mp hlast
      refine ⟨.inr ⟨before, rest, hcalls, ?_⟩, hnone d (by simp)⟩
      intro e he
      exact hnone e (List.mem_append_left _ he)
  · rintro ⟨rfl | ⟨before, later, rfl, hnone⟩, htrim⟩
    · exact ⟨calls, [], rfl, by simpa using htrim⟩
    · refine ⟨before, later ++ [d], by simp, ?_⟩
      intro e he
      rw [← List.cons_append] at he
      rcases List.mem_append.mp he with he | he
      · exact hnone e he
      · rwa [List.mem_singleton.mp he]

private theorem mem_tsAdd_members {z : Members} {x : Nat ×ₗ Text} :
    x ∈ (t.tsAdd z d).entries ↔
      (x = t.entry d ∨ x ∈ z.entries ∧ (ofLex x).2 ≠ t.member d) ∧
        ¬ (0 < d.windowNs ∧
          (ofLex x).1 ≤ roundToF64 (saturatingSub d.tsNs d.windowNs).toNat) := by
  rw [F64Text.tsAdd]
  split
  · rename_i hwindow
    simp [SortedSet.mem_removeUpTo, SortedSet.mem_add, F64Text.entry, AddCall.score, hwindow]
  · rename_i hwindow
    simp [SortedSet.mem_add, F64Text.entry, AddCall.score, hwindow]

/-- The set holds the members of the calls that survive. -/
theorem mem_after (hround : ∀ c ∈ calls, t.RoundTrips c.val) {x : Nat ×ₗ Text} :
    x ∈ (t.after calls).entries ↔ ∃ c, Stays calls c ∧ x = t.entry c := by
  induction calls using List.reverseRecOn generalizing x with
  | nil => simp [F64Text.after, SortedSet.empty, not_stays_nil]
  | append_singleton calls d ih =>
    have hbefore : ∀ c ∈ calls, t.RoundTrips c.val := fun c hc =>
      hround c (List.mem_append_left _ hc)
    have hlast : t.RoundTrips d.val := hround d (by simp)
    have hstep : t.after (calls ++ [d]) = t.tsAdd (t.after calls) d := by
      simp [F64Text.after]
    rw [hstep, mem_tsAdd_members, ih hbefore]
    constructor
    · rintro ⟨rfl | ⟨⟨c, hc, rfl⟩, _⟩, htrim⟩
      · exact ⟨d, stays_concat.mpr ⟨.inl rfl, htrim⟩, rfl⟩
      · exact ⟨c, stays_concat.mpr ⟨.inr hc, htrim⟩, rfl⟩
    · rintro ⟨c, hc, rfl⟩
      obtain ⟨hwhich, htrim⟩ := stays_concat.mp hc
      refine ⟨?_, htrim⟩
      rcases hwhich with rfl | hold
      · exact .inl rfl
      · by_cases hsame : t.member c = t.member d
        · -- one text is one stamp, so it has the same score
          have hstamp := (member_inj (hbefore c hold.mem) hlast hsame).1
          left
          rw [F64Text.entry, F64Text.entry, hsame, AddCall.score, AddCall.score, hstamp]
        · exact .inr ⟨⟨c, hold, rfl⟩, hsame⟩

private theorem reading_entry (hval : t.RoundTrips c.val) :
    t.reading (ofLex (t.entry c)) = some c.reading := by
  simp [F64Text.reading, F64Text.entry, parseMemberValue_member hval, AddCall.reading]

end History

/-- The calls that a read from `sinceNs` answers with, the oldest first: calls that survive and
are not below it, no more than the limit, each member once, and every other such call below
all of them in the order by rounded stamp and text. -/
structure SeriesAnswer (t : F64Text) (calls : List AddCall) (sinceNs : UInt64) (limit : Nat)
    (answer : List AddCall) : Prop where
  ascending : answer.Pairwise fun c d => t.entry c < t.entry d
  found : ∀ c ∈ answer, Stays calls c ∧ roundToF64 sinceNs.toNat ≤ c.score
  short : answer.length ≤ limit
  complete : ∀ c, Stays calls c → roundToF64 sinceNs.toNat ≤ c.score →
    (∃ d ∈ answer, t.entry d = t.entry c) ∨
      answer.length = limit ∧ ∀ d ∈ answer, t.entry c < t.entry d

/-- The call that the last value is of. -/
def IsLastCall (t : F64Text) (calls : List AddCall) (c : AddCall) : Prop :=
  Stays calls c ∧ ∀ d, Stays calls d → t.entry d ≤ t.entry c

section Reads

variable {t : F64Text} {calls : List AddCall}

private theorem exists_map_eq {α β : Type} {f : α → β} {P : α → Prop} {l : List β}
    (h : ∀ y ∈ l, ∃ x, P x ∧ y = f x) : ∃ xs : List α, l = xs.map f ∧ ∀ x ∈ xs, P x := by
  induction l with
  | nil => exact ⟨[], rfl, by simp⟩
  | cons y l ih =>
    obtain ⟨xs, hxs, hall⟩ := ih fun z hz => h z (List.mem_cons_of_mem _ hz)
    obtain ⟨x, hx, rfl⟩ := h y List.mem_cons_self
    exact ⟨x :: xs, by rw [hxs, List.map_cons], by simpa using ⟨hx, hall⟩⟩

private theorem filterMap_reading {answer : List AddCall}
    (hround : ∀ c ∈ answer, t.RoundTrips c.val) :
    (answer.map fun c => ofLex (t.entry c)).filterMap t.reading =
      answer.map AddCall.reading := by
  induction answer with
  | nil => rfl
  | cons c answer ih =>
    rw [List.map_cons, List.filterMap_cons_some (reading_entry (hround c List.mem_cons_self)),
      ih fun d hd => hround d (List.mem_cons_of_mem _ hd), List.map_cons]

private theorem answers_of_descends (hround : ∀ c ∈ calls, t.RoundTrips c.val) {sinceNs : UInt64}
    {limit : Nat} {l : List (Nat × Text)}
    (hread : (t.after calls).Descends (roundToF64 sinceNs.toNat) limit l) :
    ∃ answer, SeriesAnswer t calls sinceNs limit answer ∧
      l.reverse = answer.map fun c => ofLex (t.entry c) := by
  have hcalls : ∀ x ∈ l.reverse, ∃ c, Stays calls c ∧ x = ofLex (t.entry c) := by
    intro x hx
    obtain ⟨c, hc, hentry⟩ := (mem_after hround).mp (hread.found x (List.mem_reverse.mp hx)).1
    exact ⟨c, hc, congrArg ofLex hentry⟩
  obtain ⟨answer, hanswer, hsurvive⟩ := exists_map_eq hcalls
  have hmem : ∀ c ∈ answer, ofLex (t.entry c) ∈ l := by
    intro c hc
    rw [← List.mem_reverse, hanswer]
    exact List.mem_map_of_mem hc
  have hlength : answer.length = l.length := by
    simpa using (congrArg List.length hanswer).symm
  refine ⟨answer, ?_, hanswer⟩
  constructor
  · have hascending := List.pairwise_reverse.mpr hread.descending
    rw [hanswer, List.pairwise_map] at hascending
    exact hascending
  · intro c hc
    exact ⟨hsurvive c hc, (hread.found _ (hmem c hc)).2⟩
  · rw [hlength]
    exact hread.short
  · intro c hc hsince
    have hentry := (mem_after hround).mpr ⟨c, hc, rfl⟩
    rcases hread.complete (ofLex (t.entry c)) hentry hsince with hin | ⟨hfull, hbelow⟩
    · rw [← List.mem_reverse, hanswer] at hin
      obtain ⟨d, hd, hsame⟩ := List.mem_map.mp hin
      exact .inl ⟨d, hd, ofLex.injective hsame⟩
    · exact .inr ⟨hlength.trans hfull, fun d hd => hbelow _ (hmem d hd)⟩

private theorem tsLast_cases (hround : ∀ c ∈ calls, t.RoundTrips c.val) :
    ((∀ c, ¬ Stays calls c) ∧ t.tsLast (t.after calls) = none) ∨
      ∃ c, IsLastCall t calls c ∧ t.tsLast (t.after calls) = some c.reading := by
  rw [F64Text.tsLast]
  cases hhighest : (t.after calls).highest with
  | none =>
    left
    refine ⟨?_, rfl⟩
    intro c hc
    have hentry := (mem_after hround).mpr ⟨c, hc, rfl⟩
    rw [SortedSet.highest_eq_none.mp hhighest] at hentry
    simp at hentry
  | some x =>
    right
    obtain ⟨hx, hhigh⟩ := SortedSet.highest_spec hhighest
    obtain ⟨c, hc, hentry⟩ := (mem_after hround).mp hx
    refine ⟨c, ⟨hc, ?_⟩, ?_⟩
    · intro d hd
      rw [← hentry]
      exact hhigh _ ((mem_after hround).mpr ⟨d, hd, rfl⟩)
    · obtain rfl : x = ofLex (t.entry c) := congrArg ofLex hentry
      exact reading_entry (hround c hc.mem)

/-- After any calls, a read with a limit answers with the rounded stamps and the exact values of
the calls that survive, from the start of the read on, the highest ones up to the limit in
ascending order, and the last value is that of the highest one. -/
theorem series_refines (t : F64Text) (hround : ∀ c ∈ calls, t.RoundTrips c.val)
    (sinceNs : UInt64) {limit : Nat} (hlimit : 0 < limit) :
    (∃ answer, SeriesAnswer t calls sinceNs limit answer ∧
      t.tsRecent (t.after calls) sinceNs limit = answer.map AddCall.reading) ∧
    (((∀ c, ¬ Stays calls c) ∧ t.tsLast (t.after calls) = none) ∨
      ∃ c, IsLastCall t calls c ∧ t.tsLast (t.after calls) = some c.reading) := by
  refine ⟨?_, tsLast_cases hround⟩
  obtain ⟨answer, hanswer, hlist⟩ := answers_of_descends hround
    (SortedSet.descends_revRange (t.after calls) (roundToF64 sinceNs.toNat) limit)
  refine ⟨answer, hanswer, ?_⟩
  rw [F64Text.tsRecent, if_pos hlimit, hlist]
  exact filterMap_reading fun c hc => hround c (hanswer.found c hc).1.mem

/-- A stamp of at most 53 bits is read as it was added. -/
theorem reading_exact {c : AddCall} (h : c.tsNs.toNat < 2 ^ 53) : c.reading = (c.tsNs, c.val) := by
  have hscore : c.score = c.tsNs.toNat := toBits_of_lt h
  rw [AddCall.reading, hscore, Nat.min_eq_left (by omega), UInt64.ofNat_toNat]

end Reads

/-! ## Sorted sets of entries -/

/-- The entry that a member with its score stands for. -/
def F64Text.toEntry (t : F64Text) (x : Nat × Text) : Entry :=
  ⟨x.1, (t.parseMemberValue x.2).getD 0⟩

/-- The members stand for the entries of a series, each for one. -/
structure F64Text.Holds (t : F64Text) (z : Members) (entries : List Entry) : Prop where
  parsed : ∀ x ∈ z.entries, (t.parseMemberValue (ofLex x).2).isSome = true
  same : z.entries.val.map (fun x => t.toEntry (ofLex x)) = (entries : Multiset Entry)

section Entries

variable {t : F64Text} {z : Members} {entries : List Entry}

theorem holds_empty : t.Holds .empty [] := ⟨by simp [SortedSet.empty], rfl⟩

private theorem F64Text.Holds.filter (h : t.Holds z entries) (p : Nat → Prop) [DecidablePred p] :
    (z.entries.filter fun x => p (ofLex x).1).val.map (fun x => t.toEntry (ofLex x)) =
      (entries.filter fun e => p e.score : List Entry) := by
  have hentries := Multiset.filter_coe (fun e : Entry => p e.score) entries
  rw [← hentries, ← h.same, Multiset.filter_map, Finset.filter_val]
  rfl

/-- A call with a member of its own adds one entry, and trims as the series does. -/
theorem holds_tsAdd {store : Store} {c : AddCall} (h : t.Holds z (store c.key))
    (hval : t.RoundTrips c.val) (hfresh : ∀ x ∈ z.entries, (ofLex x).2 ≠ t.member c) :
    t.Holds (t.tsAdd z c) (store.tsAdd c.toTsAdd c.key) := by
  have hadd : (z.add c.score (t.member c)).entries = insert (t.entry c) z.entries := by
    ext x
    rw [SortedSet.mem_add, Finset.mem_insert]
    constructor
    · rintro (rfl | ⟨hx, _⟩)
      · exact .inl rfl
      · exact .inr hx
    · rintro (rfl | hx)
      · exact .inl rfl
      · exact .inr ⟨hx, hfresh x hx⟩
  have hnew : t.entry c ∉ z.entries := fun h => hfresh _ h rfl
  have hadded : t.Holds (z.add c.score (t.member c)) (store c.key ++ [⟨c.score, c.val⟩]) := by
    constructor
    · intro x hx
      rw [hadd] at hx
      rcases Finset.mem_insert.mp hx with rfl | hx
      · exact Option.isSome_iff_exists.mpr ⟨_, parseMemberValue_member hval⟩
      · exact h.parsed x hx
    · rw [hadd, Finset.insert_val_of_notMem hnew, Multiset.map_cons, h.same,
        ← Multiset.coe_add, add_comm, Multiset.coe_singleton, Multiset.singleton_add]
      simp [F64Text.toEntry, F64Text.entry, parseMemberValue_member hval]
  rw [F64Text.tsAdd, Store.tsAdd, Function.update_self]
  by_cases hwindow : 0 < c.windowNs
  · rw [if_pos hwindow, if_pos hwindow]
    constructor
    · intro x hx
      exact hadded.parsed x (SortedSet.mem_removeUpTo.mp hx).1
    · exact hadded.filter (roundToF64 (saturatingSub c.tsNs c.windowNs).toNat < ·)
  · rw [if_neg hwindow, if_neg hwindow]
    exact hadded

private theorem filterMap_toEntry {l : List (Nat × Text)}
    (hparsed : ∀ x ∈ l, (t.parseMemberValue x.2).isSome = true) :
    l.filterMap t.reading = (l.map t.toEntry).map Entry.reading := by
  induction l with
  | nil => rfl
  | cons x l ih =>
    obtain ⟨val, hval⟩ := Option.isSome_iff_exists.mp (hparsed x List.mem_cons_self)
    have hreading : t.reading x = some (t.toEntry x).reading := by
      simp [F64Text.reading, F64Text.toEntry, Entry.reading, hval]
    rw [List.filterMap_cons_some hreading, ih fun y hy => hparsed y (List.mem_cons_of_mem _ hy)]
    rfl

/-- A read of the members is a reply of the series. -/
theorem holds_tsRecent (h : t.Holds z entries) (sinceNs : UInt64) (limit : Nat) :
    ∃ reply, IsRecent entries sinceNs limit reply ∧
      t.tsRecent z sinceNs limit = reply.map Entry.reading := by
  have hfilter := h.filter (roundToF64 sinceNs.toNat ≤ ·)
  have hread : z.revRange (roundToF64 sinceNs.toNat) none =
      ((z.entries.filter fun x => roundToF64 sinceNs.toNat ≤ (ofLex x).1).sort (· ≥ ·)).map
        ofLex := rfl
  have hlimited : ∀ n, z.revRange (roundToF64 sinceNs.toNat) (some n) =
      (z.revRange (roundToF64 sinceNs.toNat) none).take n := fun _ => rfl
  have hmem : ∀ x ∈ z.revRange (roundToF64 sinceNs.toNat) none, toLex x ∈ z.entries := by
    intro x hx
    rw [hread] at hx
    obtain ⟨y, hy, rfl⟩ := List.mem_map.mp hx
    exact Finset.mem_of_mem_filter y ((Finset.mem_sort _).mp hy)
  have hperm : ((z.revRange (roundToF64 sinceNs.toNat) none).reverse.map t.toEntry).Perm
      (eligible entries sinceNs) := by
    rw [← Multiset.coe_eq_coe, eligible, ← hfilter, List.map_reverse, Multiset.coe_reverse, hread,
      List.map_map, ← Multiset.map_coe, Finset.sort_eq]
    rfl
  have hsorted : ((z.revRange (roundToF64 sinceNs.toNat) none).reverse.map t.toEntry).Pairwise
      fun a b => a.score ≤ b.score := by
    rw [List.pairwise_map, List.pairwise_reverse, hread, List.pairwise_map]
    refine (Finset.pairwise_sort _ _).imp ?_
    intro x y hle
    exact Prod.Lex.monotone_fst _ _ hle
  refine ⟨_, isRecent_of_sorted limit hperm hsorted, ?_⟩
  rw [← List.map_drop, ← filterMap_toEntry, F64Text.tsRecent, List.length_map, List.length_reverse]
  · congr 1
    by_cases hlimit : 0 < limit
    · rw [if_pos hlimit, if_neg (by omega), hlimited, List.reverse_take]
    · rw [if_neg hlimit, if_pos (by omega), List.drop_zero]
  · intro x hx
    exact h.parsed _ (hmem x (List.mem_reverse.mp (List.mem_of_mem_drop hx)))

theorem holds_tsLast (h : t.Holds z entries) :
    ∃ reply, IsLast entries reply ∧ t.tsLast z = reply.map Entry.reading := by
  have hmem : ∀ e, e ∈ entries ↔ ∃ x ∈ z.entries, t.toEntry (ofLex x) = e := by
    intro e
    rw [← Multiset.mem_coe, ← h.same, Multiset.mem_map]
    rfl
  rw [F64Text.tsLast]
  cases hhighest : z.highest with
  | none =>
    refine ⟨none, ?_, rfl⟩
    rw [IsLast, List.eq_nil_iff_forall_not_mem]
    intro e he
    obtain ⟨x, hx, _⟩ := (hmem e).mp he
    rw [SortedSet.highest_eq_none.mp hhighest] at hx
    simp at hx
  | some x =>
    obtain ⟨hx, hhigh⟩ := SortedSet.highest_spec hhighest
    refine ⟨some (t.toEntry x), ⟨(hmem _).mpr ⟨toLex x, hx, rfl⟩, ?_⟩, ?_⟩
    · intro e he
      obtain ⟨y, hy, rfl⟩ := (hmem e).mp he
      exact Prod.Lex.monotone_fst _ _ (hhigh y hy)
    · obtain ⟨val, hval⟩ := Option.isSome_iff_exists.mp (h.parsed (toLex x) hx)
      have hparse : t.parseMemberValue x.2 = some val := hval
      simp [F64Text.reading, F64Text.toEntry, Entry.reading, hparse]

end Entries

/-- Values that are natural numbers, printed without a fraction. -/
def wholeText : F64Text where
  print val := decimal val.num.toNat
  parse text := if text.all Char.isDigit then some (Nat.ofDigitChars 10 text 0 : Nat) else none

def callAt (tsNs : UInt64) (counter : UInt64) : AddCall :=
  { key := .ntp 11 .offset
    tsNs := tsNs
    val := 5
    windowNs := 30000000000
    counter := counter }

theorem wholeText_five : wholeText.RoundTrips 5 := ⟨by decide +kernel, by decide +kernel⟩

theorem series_refines_two :
    (∃ answer, SeriesAnswer wholeText [callAt 1000 1, callAt 2000 2] 500 3 answer ∧
      wholeText.tsRecent (wholeText.after [callAt 1000 1, callAt 2000 2]) 500 3 =
        answer.map AddCall.reading) ∧
    (((∀ c, ¬ Stays [callAt 1000 1, callAt 2000 2] c) ∧
        wholeText.tsLast (wholeText.after [callAt 1000 1, callAt 2000 2]) = none) ∨
      ∃ c, IsLastCall wholeText [callAt 1000 1, callAt 2000 2] c ∧
        wholeText.tsLast (wholeText.after [callAt 1000 1, callAt 2000 2]) = some c.reading) := by
  apply series_refines
  · intro c hc
    rcases List.mem_pair.mp hc with rfl | rfl
    all_goals exact wholeText_five
  · decide

/-- A stamp of today comes back rounded, and a read from a later time finds it. -/
theorem series_rounds : wholeText.RoundTrips 5 ∧
    wholeText.tsRecent (wholeText.after [callAt 1700000000000000001 1]) 0 10 =
      [(1700000000000000000, 5)] ∧
    wholeText.tsRecent (wholeText.after [callAt 1700000000000000001 1]) 1700000000000000100 10 =
      [(1700000000000000000, 5)] :=
  ⟨wholeText_five, by decide +kernel, by decide +kernel⟩

end Zeitpeer
