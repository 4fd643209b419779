import Zeitpeer.Net.Fusion
import Zeitpeer.Store.Recent

/-!
# Readings of three columns

An exchange yields an offset, a delay and a jitter, and its writer files them one call at a time
under three keys. A desk is what such a writer works on: the rows it has begun, what it still
owes of the last one, and the three series with the number of writes to each. Whatever the order
of the calls, a series is the column of the rows that have been written to it.
-/

namespace Zeitpeer

/-- What one exchange has to store for a source. -/
structure Row where
  stamp : UInt64
  window : UInt64
  offset : F64
  delay : F64
  jitter : F64
  deriving DecidableEq, Repr

namespace Row

variable (src : Source)

/-- The value that belongs under a key. -/
def value (key : SeriesKey) (r : Row) : F64 :=
  if key = src.offsetKey then r.offset else if key = src.delayKey then r.delay else r.jitter

def write (key : SeriesKey) (r : Row) : TsAdd :=
  { key := key, tsNs := r.stamp, val := r.value src key, windowNs := r.window }

def writes (r : Row) : List TsAdd := src.readKeys.map fun key => r.write src key

def entry (key : SeriesKey) (r : Row) : Entry := ⟨roundToF64 r.stamp.toNat, r.value src key⟩

/-- A row as it is read back from a series. -/
def reading (key : SeriesKey) (r : Row) : UInt64 × F64 := (r.entry src key).reading

/-- The stamp as it is read back, which is the same in every series. -/
def readStamp (r : Row) : UInt64 := UInt64.ofNat (min (roundToF64 r.stamp.toNat) (2 ^ 64 - 1))

/-- What the trimming of a row leaves of the rows. -/
def trims (r : Row) (rows : List Row) : List Row :=
  if 0 < r.window then
    rows.filter fun x =>
      roundToF64 (saturatingSub r.stamp r.window).toNat < roundToF64 x.stamp.toNat
  else rows

private theorem trim_entry (key key' : SeriesKey) (r : Row) (rows : List Row) :
    trim (entry src key) (r.write src key') rows = r.trims rows := rfl

end Row

/-- The rows that are left after all of them have been written. -/
def settle (rows : List Row) : List Row := rows.foldl (fun kept r => r.trims (kept ++ [r])) []

private theorem settle_append (rows : List Row) (r : Row) :
    settle (rows ++ [r]) = r.trims (settle rows ++ [r]) := by
  simp [settle]

private theorem Row.trims_sublist (r : Row) (rows : List Row) : (r.trims rows).Sublist rows := by
  rw [Row.trims]
  split
  · exact List.filter_sublist
  · exact List.Sublist.refl _

private theorem settle_sublist (rows : List Row) : (settle rows).Sublist rows := by
  induction rows using List.reverseRecOn with
  | nil => exact List.Sublist.refl _
  | append_singleton rows r ih =>
    rw [settle_append]
    exact (r.trims_sublist _).trans (ih.append_right [r])

structure Desk where
  rows : List Row
  owed : List TsAdd
  written : SeriesKey → Nat
  series : Store

/-- Nothing happens to the three series. -/
structure Desk.Same (src : Source) (d d' : Desk) : Prop where
  written : ∀ key ∈ src.readKeys, d'.written key = d.written key
  series : ∀ key ∈ src.readKeys, d'.series key = d.series key

/-- What may happen on a desk: something else, the beginning of a row once the last one is done,
or the next write that is owed. -/
inductive Desk.Step (src : Source) (d d' : Desk) : Prop where
  | other (hsame : Same src d d') (hrows : d'.rows = d.rows) (howed : d'.owed = d.owed)
  | begin (r : Row) (hsame : Same src d d') (hdone : d.owed = [])
      (hrows : d'.rows = d.rows ++ [r]) (howed : d'.owed = r.writes src)
  | write (w : TsAdd) (hrows : d'.rows = d.rows) (howed : d.owed = w :: d'.owed)
      (hwritten : ∀ key ∈ src.readKeys,
        d'.written key = if key = w.key then d.written key + 1 else d.written key)
      (hseries : ∀ key ∈ src.readKeys, d'.series key = d.series.tsAdd w key)

/-- The writes that are owed are the last ones of the last row. -/
structure Desk.Paced (src : Source) (d : Desk) : Prop where
  owed : d.owed = [] ∨ ∃ earlier r, d.rows = earlier ++ [r] ∧ d.owed <:+ r.writes src
  counts : ∀ key ∈ src.readKeys,
    d.written key + d.owed.countP (fun w => w.key = key) = d.rows.length

/-- Every series is the column of the rows that have been written to it. -/
structure Desk.InStep (src : Source) (d : Desk) : Prop extends Desk.Paced src d where
  series : ∀ key ∈ src.readKeys,
    d.series key = (settle (d.rows.take (d.written key))).map (Row.entry src key)

/-- Every series has nothing but entries of this column, each at most once. -/
structure Desk.Backed (src : Source) (d : Desk) : Prop extends Desk.Paced src d where
  series : ∀ key ∈ src.readKeys,
    (d.series key).Subperm ((d.rows.take (d.written key)).map (Row.entry src key))

/-- The three series of a source are different. -/
def Source.Split (src : Source) : Prop := src.readKeys.Nodup

private theorem Row.count_writes {src : Source} (hsplit : src.Split) (r : Row) {key : SeriesKey}
    (hkey : key ∈ src.readKeys) : (r.writes src).countP (fun w => w.key = key) = 1 := by
  have hcount : src.readKeys.count key = 1 := List.count_eq_one_of_mem hsplit hkey
  rw [Row.writes, List.countP_map, ← hcount, List.count_eq_countP]
  apply List.countP_congr
  intro key' _
  simp [Row.write]

namespace Desk

variable {src : Source} {d d' : Desk}

/-- No series has more writes than there are rows. -/
theorem Paced.written_le (h : d.Paced src) {key : SeriesKey} (hkey : key ∈ src.readKeys) :
    d.written key ≤ d.rows.length := by
  have hcount := h.counts key hkey
  omega

private theorem Paced.done (h : d.Paced src) (hdone : d.owed = []) {key : SeriesKey}
    (hkey : key ∈ src.readKeys) : d.written key = d.rows.length := by
  have hcount := h.counts key hkey
  rwa [hdone, List.countP_nil] at hcount

private theorem Paced.next (hsplit : src.Split) (h : d.Paced src) {w : TsAdd} {rest : List TsAdd}
    (howed : d.owed = w :: rest) :
    ∃ earlier r key, d.rows = earlier ++ [r] ∧ key ∈ src.readKeys ∧ w = r.write src key ∧
      d.written key = earlier.length ∧ rest <:+ r.writes src ∧
      rest.countP (fun w => w.key = key) = 0 := by
  obtain ⟨earlier, r, hlast, hsuffix⟩ : ∃ earlier r,
      d.rows = earlier ++ [r] ∧ d.owed <:+ r.writes src := by
    rcases h.owed with hnil | hlast
    · rw [howed] at hnil
      contradiction
    · exact hlast
  rw [howed] at hsuffix
  obtain ⟨key, hkey, rfl⟩ := List.mem_map.mp (hsuffix.subset List.mem_cons_self)
  have hhead : decide ((r.write src key).key = key) = true := decide_eq_true rfl
  have hone := Row.count_writes hsplit r hkey
  have hsub := hsuffix.sublist.countP_le (p := fun w : TsAdd => w.key = key)
  rw [List.countP_cons_of_pos (p := fun w : TsAdd => w.key = key) hhead] at hsub
  have hgone : rest.countP (fun w => w.key = key) = 0 := by omega
  have hcount := h.counts key hkey
  rw [howed, List.countP_cons_of_pos (p := fun w : TsAdd => w.key = key) hhead, hgone, hlast,
    List.length_append, List.length_singleton] at hcount
  exact ⟨earlier, r, key, hlast, hkey, rfl, by omega, (List.suffix_cons _ _).trans hsuffix, hgone⟩

private theorem Paced.other (h : d.Paced src) (hwritten : ∀ key ∈ src.readKeys,
    d'.written key = d.written key) (hrows : d'.rows = d.rows) (howed : d'.owed = d.owed) :
    d'.Paced src := by
  constructor
  · rw [howed, hrows]
    exact h.owed
  · intro key hkey
    rw [howed, hrows, hwritten key hkey]
    exact h.counts key hkey

private theorem Step.paced (hsplit : src.Split) (hstep : Step src d d') (h : d.Paced src) :
    d'.Paced src := by
  cases hstep with
  | other hsame hrows howed => exact h.other hsame.written hrows howed
  | begin r hsame hdone hrows howed =>
    constructor
    · exact .inr ⟨d.rows, r, hrows, howed ▸ List.suffix_refl _⟩
    · intro key hkey
      rw [howed, Row.count_writes hsplit r hkey, hrows, hsame.written key hkey, h.done hdone hkey,
        List.length_append, List.length_singleton]
  | write w hrows howed hwritten hseries =>
    obtain ⟨earlier, r, key₀, hlast, hkey₀, rfl, hcount, hsuffix, hgone⟩ := h.next hsplit howed
    constructor
    · exact .inr ⟨earlier, r, hrows.trans hlast, hsuffix⟩
    · intro key hkey
      have hwrites : d'.written key = if key = key₀ then d.written key + 1 else d.written key :=
        hwritten key hkey
      rw [hwrites, hrows]
      by_cases hsame : key = key₀
      · subst hsame
        rw [if_pos rfl, hgone, hlast, List.length_append, List.length_singleton, hcount]
      · have hkeep := h.counts key hkey
        have hother : ¬ decide ((r.write src key₀).key = key) = true :=
          fun heq => hsame (of_decide_eq_true heq).symm
        rw [howed, List.countP_cons_of_neg (p := fun w : TsAdd => w.key = key) hother] at hkeep
        rw [if_neg hsame]
        exact hkeep

private theorem Step.series (hsplit : src.Split) (hstep : Step src d d') (h : d.Paced src)
    {R : SeriesKey → List Row → List Entry → Prop}
    (hwrite : ∀ key rows r, R key rows (d.series key) →
      R key (rows ++ [r]) (d.series.tsAdd (r.write src key) key))
    (hseries : ∀ key ∈ src.readKeys, R key (d.rows.take (d.written key)) (d.series key)) :
    ∀ key ∈ src.readKeys, R key (d'.rows.take (d'.written key)) (d'.series key) := by
  intro key hkey
  have hbefore := hseries key hkey
  cases hstep with
  | other hsame hrows howed =>
    rw [hrows, hsame.written key hkey, hsame.series key hkey]
    exact hbefore
  | begin r hsame hdone hrows howed =>
    rw [hrows, hsame.written key hkey, hsame.series key hkey,
      List.take_append_of_le_length (h.written_le hkey)]
    exact hbefore
  | write w hrows howed hwritten hadded =>
    obtain ⟨earlier, r, key₀, hlast, _, rfl, hcount, _⟩ := h.next hsplit howed
    have hwrites : d'.written key = if key = key₀ then d.written key + 1 else d.written key :=
      hwritten key hkey
    rw [hwrites, hadded key hkey, hrows]
    by_cases hsame : key = key₀
    · subst hsame
      rw [hlast, hcount, List.take_left] at hbefore
      have htake : (earlier ++ [r]).take (earlier.length + 1) = earlier ++ [r] :=
        List.take_of_length_le (by simp)
      rw [if_pos rfl, hlast, hcount, htake]
      exact hwrite key earlier r hbefore
    · have hother : d.series.tsAdd (r.write src key₀) key = d.series key := tsAdd_of_ne hsame
      rw [if_neg hsame, hother]
      exact hbefore

theorem Step.inStep (hsplit : src.Split) (hstep : Step src d d') (h : d.InStep src) :
    d'.InStep src := by
  refine ⟨hstep.paced hsplit h.toPaced, ?_⟩
  apply hstep.series hsplit h.toPaced
    (R := fun key rows entries => entries = (settle rows).map (Row.entry src key)) _ h.series
  intro key rows r hcolumn
  rw [settle_append, ← Row.trim_entry src key key]
  exact tsAdd_map hcolumn rfl

theorem Step.backed (hsplit : src.Split) (hstep : Step src d d') (h : d.Backed src) :
    d'.Backed src := by
  refine ⟨hstep.paced hsplit h.toPaced, ?_⟩
  apply hstep.series hsplit h.toPaced
    (R := fun key rows entries => entries.Subperm (rows.map (Row.entry src key))) _ h.series
  intro key rows r hcolumn
  rw [List.map_append]
  exact (tsAdd_sublist d.series (r.write src key)).subperm.trans (hcolumn.append (.refl _))

/-- Entries may get lost. -/
theorem Backed.lose (h : d.Backed src) (hrows : d'.rows = d.rows) (howed : d'.owed = d.owed)
    (hwritten : d'.written = d.written)
    (hseries : ∀ key ∈ src.readKeys, (d'.series key).Sublist (d.series key)) : d'.Backed src := by
  refine ⟨h.other (fun key _ => congrFun hwritten key) hrows howed, ?_⟩
  intro key hkey
  rw [hrows, hwritten]
  exact (hseries key hkey).subperm.trans (h.series key hkey)

/-- An entry that was filed before may come back. -/
theorem Backed.putBack (h : d.Backed src) (hrows : d'.rows = d.rows) (howed : d'.owed = d.owed)
    (hwritten : d'.written = d.written) {key₀ : SeriesKey} {e : Entry}
    (hfiled : e ∈ (d.rows.take (d.written key₀)).map (Row.entry src key₀))
    (habsent : e ∉ d.series key₀) (hseries : d'.series = Function.update d.series key₀
      (d.series key₀ ++ [e])) : d'.Backed src := by
  refine ⟨h.other (fun key _ => congrFun hwritten key) hrows howed, ?_⟩
  intro key hkey
  rw [hrows, hwritten, hseries]
  by_cases hsame : key = key₀
  · subst hsame
    rw [Function.update_self]
    apply (List.perm_append_singleton e _).subperm.trans
    exact List.cons_subperm_of_not_mem_of_mem habsent hfiled (h.series key hkey)
  · rw [Function.update_of_ne hsame]
    exact h.series key hkey

theorem InStep.backed (h : d.InStep src) : d.Backed src := by
  refine ⟨h.toPaced, ?_⟩
  intro key hkey
  rw [h.series key hkey]
  exact ((settle_sublist _).map _).subperm

end Desk

/-! ## Reading the columns back -/

/-- No two rows have the same stamp as it is read back. -/
def DistinctStamps (rows : List Row) : Prop :=
  rows.Pairwise fun a b => a.readStamp ≠ b.readStamp

/-- The stamps that are read back rise with the rows. -/
def RisingStamps (rows : List Row) : Prop :=
  rows.Pairwise fun a b => a.readStamp < b.readStamp

private theorem readStamp_lt {a b : Row} (h : a.readStamp < b.readStamp) :
    roundToF64 a.stamp.toNat < roundToF64 b.stamp.toNat := by
  by_contra hle
  have hmin : min (roundToF64 b.stamp.toNat) (2 ^ 64 - 1) ≤
      min (roundToF64 a.stamp.toNat) (2 ^ 64 - 1) := by
    omega
  have hnat : a.readStamp.toNat < b.readStamp.toNat := UInt64.lt_iff_toNat_lt.mp h
  simp only [Row.readStamp, UInt64.toNat_ofNat'] at hnat
  omega

/-- A row by its stamp alone. -/
def Row.mark (r : Row) : Entry := ⟨roundToF64 r.stamp.toNat, 0⟩

theorem DistinctStamps.distinct {rows : List Row} (h : DistinctStamps rows) :
    Distinct Row.mark rows := by
  apply List.Pairwise.imp _ h
  intro a b hab hscore
  have hround : roundToF64 a.stamp.toNat = roundToF64 b.stamp.toNat := hscore
  apply hab
  rw [Row.readStamp, Row.readStamp, hround]

private theorem RisingStamps.rising {rows : List Row} (h : RisingStamps rows) :
    Rising Row.mark rows :=
  List.Pairwise.imp readStamp_lt h

private theorem settle_suffix {rows : List Row} (h : RisingStamps rows) : settle rows <:+ rows := by
  induction rows using List.reverseRecOn with
  | nil => exact List.suffix_refl _
  | append_singleton rows r ih =>
    have hsuffix := ih (h.sublist (List.sublist_append_left rows [r]))
    have happend : settle rows ++ [r] <:+ rows ++ [r] := by
      obtain ⟨older, holder⟩ := hsuffix
      refine ⟨older, ?_⟩
      rw [← List.append_assoc, holder]
    have hrising : Rising Row.mark (settle rows ++ [r]) :=
      RisingStamps.rising (h.sublist happend.sublist)
    rw [settle_append]
    exact (hrising.trim_suffix ⟨.fused .offset, r.stamp, 0, r.window⟩).trans happend

/-- A reply from the column of some rows, as the loop holds it. -/
def ReadSome (cfg : Config) (src : Source) (key : SeriesKey) (rows : List Row) (since : UInt64)
    (readings : List (UInt64 × F64)) : Prop :=
  ∃ kept reply, List.Sublist kept rows ∧ readings = reply.map Entry.reading ∧
    IsRecent (kept.map (Row.entry src key)) since (readLimit cfg) reply

/-- The same of the column that the first `n` rows leave when all of them are written. -/
def ReadFrom (cfg : Config) (src : Source) (key : SeriesKey) (rows : List Row) (n : Nat)
    (since : UInt64) (readings : List (UInt64 × F64)) : Prop :=
  n ≤ rows.length ∧ ∃ reply, readings = reply.map Entry.reading ∧
    IsRecent ((settle (rows.take n)).map (Row.entry src key)) since (readLimit cfg) reply

variable {cfg : Config} {src : Source} {rows : List Row}

theorem ReadSome.mono {key : SeriesKey} {since : UInt64} {readings : List (UInt64 × F64)}
    (h : ReadSome cfg src key rows since readings) {rows' : List Row} (hadded : rows <+: rows') :
    ReadSome cfg src key rows' since readings := by
  obtain ⟨kept, reply, hkept, hrest⟩ := h
  exact ⟨kept, reply, hkept.trans hadded.sublist, hrest⟩

theorem ReadFrom.mono {key : SeriesKey} {n : Nat} {since : UInt64}
    {readings : List (UInt64 × F64)} (h : ReadFrom cfg src key rows n since readings)
    {rows' : List Row} (hadded : rows <+: rows') :
    ReadFrom cfg src key rows' n since readings := by
  obtain ⟨added, rfl⟩ := hadded
  obtain ⟨hn, reply, hreadings, hrecent⟩ := h
  refine ⟨hn.trans (by simp), reply, hreadings, ?_⟩
  rwa [List.take_append_of_le_length hn]

/-- The rows that a read of the first `n` gets to see. -/
def seen (cfg : Config) (since : UInt64) (rows : List Row) (n : Nat) : List Row :=
  top Row.mark since (readLimit cfg) (settle (rows.take n))

private theorem top_entry (key : SeriesKey) (since : UInt64) (limit : Nat) (rows : List Row) :
    top (Row.entry src key) since limit rows = top Row.mark since limit rows := rfl

private theorem reading_top (hdistinct : DistinctStamps rows) {key : SeriesKey} {since : UInt64}
    {reply : List Entry}
    (h : IsRecent (rows.map (Row.entry src key)) since (readLimit cfg) reply) :
    reply.map Entry.reading =
      (top Row.mark since (readLimit cfg) rows).map (Row.reading src key) := by
  have hentries : Distinct (Row.entry src key) rows := hdistinct.distinct
  rw [h.eq_top (readLimit_pos cfg) hentries, top_entry, List.map_map]
  rfl

private theorem ReadFrom.eq_seen (hdistinct : DistinctStamps rows) {key : SeriesKey} {n : Nat}
    {since : UInt64} {readings : List (UInt64 × F64)}
    (h : ReadFrom cfg src key rows n since readings) :
    readings = (seen cfg since rows n).map (Row.reading src key) := by
  obtain ⟨_, reply, rfl, hrecent⟩ := h
  have hsettled : DistinctStamps (settle (rows.take n)) :=
    hdistinct.sublist ((settle_sublist _).trans (List.take_sublist n rows))
  exact reading_top hsettled hrecent

private theorem top_subperm (since : UInt64) (limit : Nat) (rows : List Row) :
    (top Row.mark since limit rows).Subperm rows := by
  have hdrop : (top Row.mark since limit rows).Subperm (byScore Row.mark since rows) :=
    (List.drop_sublist _ _).subperm
  apply hdrop.trans
  exact (byScore_perm _ _ _).subperm.trans List.filter_sublist.subperm

private theorem seen_subperm (since : UInt64) (rows : List Row) (n : Nat) :
    (seen cfg since rows n).Subperm rows := by
  have hsettled : (settle (rows.take n)).Sublist rows :=
    (settle_sublist _).trans (List.take_sublist n rows)
  exact (top_subperm since (readLimit cfg) _).trans hsettled.subperm

private theorem ReadSome.column (hdistinct : DistinctStamps rows) {key : SeriesKey} {since : UInt64}
    {readings : List (UInt64 × F64)} (h : ReadSome cfg src key rows since readings) :
    ∃ used : List Row, used.Subperm rows ∧ readings = used.map (Row.reading src key) := by
  obtain ⟨kept, reply, hkept, rfl, hrecent⟩ := h
  have hdistinct' := hdistinct.sublist hkept
  refine ⟨top Row.mark since (readLimit cfg) kept, ?_, reading_top hdistinct' hrecent⟩
  exact (top_subperm since (readLimit cfg) kept).trans hkept.subperm

private theorem seen_suffix (hrising : RisingStamps rows) (since : UInt64) (n : Nat) :
    seen cfg since rows n <:+ rows.take n := by
  have htake : RisingStamps (rows.take n) := hrising.sublist (List.take_sublist n rows)
  have hsettled : RisingStamps (settle (rows.take n)) :=
    htake.sublist (settle_suffix htake).sublist
  rw [seen, hsettled.rising.top_eq]
  exact (hsettled.rising.newest_suffix since _).trans (settle_suffix htake)

private theorem seen_last (hrising : RisingStamps rows) {since : UInt64} {n : Nat}
    (hn : n ≤ rows.length) {r : Row} (hlast : (seen cfg since rows n).getLast? = some r) :
    0 < n ∧ rows[n - 1]? = some r := by
  have hsuffix : seen cfg since rows n <:+ rows.take n := seen_suffix hrising since n
  obtain ⟨older, holder⟩ := hsuffix
  have htake : (rows.take n).getLast? = some r := by
    rw [← holder, List.getLast?_append, hlast, Option.some_or]
  rw [List.getLast?_take] at htake
  by_cases hzero : n = 0
  · rw [if_pos hzero] at htake
    contradiction
  · rw [if_neg hzero, List.getElem?_eq_getElem (by omega), Option.some_or] at htake
    refine ⟨Nat.pos_of_ne_zero hzero, ?_⟩
    rw [List.getElem?_eq_getElem (by omega)]
    exact htake

private theorem eq_of_seen (hrising : RisingStamps rows) {since : UInt64} {n m : Nat}
    (hn : n ≤ rows.length) (hm : m ≤ rows.length) (hne : seen cfg since rows n ≠ [])
    (hsame : (seen cfg since rows n).map Row.readStamp =
      (seen cfg since rows m).map Row.readStamp) : n = m := by
  obtain ⟨r, hr⟩ := Option.isSome_iff_exists.mp (List.getLast?_isSome.mpr hne)
  have hstamps := congrArg List.getLast? hsame
  rw [List.getLast?_map, List.getLast?_map, hr] at hstamps
  obtain ⟨r', hr', hstamp⟩ := Option.map_eq_some_iff.mp hstamps.symm
  obtain ⟨hnpos, hrn⟩ := seen_last hrising hn hr
  obtain ⟨hmpos, hrm⟩ := seen_last hrising hm hr'
  have hnodup : (rows.map Row.readStamp).Nodup :=
    List.pairwise_map.mpr (List.Pairwise.imp UInt64.ne_of_lt hrising)
  have hindex : n - 1 = m - 1 := by
    apply (List.getElem?_inj (by simpa using by omega) hnodup).mp
    rw [List.getElem?_map, List.getElem?_map, hrn, hrm]
    exact congrArg some hstamp.symm
  omega

/-- The three columns of a sample come from the same rows, and there are enough of them. -/
def Whole (cfg : Config) (src : Source) (rows : List Row)
    (offsets delays jitters : List (UInt64 × F64)) : Prop :=
  ∃ used : List Row, used.Subperm rows ∧ readLimit cfg ≤ used.length ∧
    offsets = used.map (Row.reading src src.offsetKey) ∧
    delays = used.map (Row.reading src src.delayKey) ∧
    jitters = used.map (Row.reading src src.jitterKey)

section Samples

variable {n m k : Nat} {since : UInt64} {offsets delays jitters : List (UInt64 × F64)}

private theorem eq_of_stamps (hdistinct : DistinctStamps rows) {used used' : List Row}
    (hused : used.Subperm rows) (hused' : used'.Subperm rows)
    (hsame : used.map Row.readStamp = used'.map Row.readStamp) : used = used' := by
  have hnodup : (rows.map Row.readStamp).Nodup := List.pairwise_map.mpr hdistinct
  have hinj : ∀ r ∈ used, ∀ r' ∈ used', r.readStamp = r'.readStamp → r = r' := by
    intro r hr r' hr' hstamp
    exact List.inj_on_of_nodup_map hnodup (hused.subset hr) (hused'.subset hr') hstamp
  clear hused hused'
  induction used generalizing used' with
  | nil => exact (List.map_eq_nil_iff.mp hsame.symm).symm
  | cons r used ih =>
    cases used' with
    | nil => contradiction
    | cons r' used' =>
      obtain ⟨hstamp, hrest⟩ := List.cons.inj hsame
      have hfirst := hinj r List.mem_cons_self r' List.mem_cons_self hstamp
      have hothers := ih hrest fun x hx y hy =>
        hinj x (List.mem_cons_of_mem _ hx) y (List.mem_cons_of_mem _ hy)
      rw [hfirst, hothers]

private theorem stamps_reading (key : SeriesKey) (used : List Row) :
    (used.map (Row.reading src key)).map Prod.fst = used.map Row.readStamp := by
  rw [List.map_map]
  rfl

/-- A sample is whole exactly if its three reads have found the same stamps. -/
theorem whole_iff (hdistinct : DistinctStamps rows)
    (hoffsets : ReadSome cfg src src.offsetKey rows since offsets)
    (hdelays : ReadSome cfg src src.delayKey rows since delays)
    (hjitters : ReadSome cfg src src.jitterKey rows since jitters)
    (hmany : readLimit cfg ≤ offsets.length) :
    Whole cfg src rows offsets delays jitters ↔
      offsets.map Prod.fst = delays.map Prod.fst ∧ delays.map Prod.fst = jitters.map Prod.fst := by
  constructor
  · rintro ⟨used, _, _, rfl, rfl, rfl⟩
    simp only [stamps_reading, and_self]
  · rintro ⟨hfirst, hsecond⟩
    obtain ⟨used, hused, rfl⟩ := hoffsets.column hdistinct
    obtain ⟨used', hused', rfl⟩ := hdelays.column hdistinct
    obtain ⟨used'', hused'', rfl⟩ := hjitters.column hdistinct
    rw [stamps_reading, stamps_reading] at hfirst hsecond
    obtain rfl := eq_of_stamps hdistinct hused hused' hfirst
    obtain rfl := eq_of_stamps hdistinct hused hused'' hsecond
    exact ⟨used, hused, by rwa [List.length_map] at hmany, rfl, rfl, rfl⟩

/-- Three reads after the same number of writes make a whole sample. -/
theorem whole_of_eq (hdistinct : DistinctStamps rows)
    (hoffsets : ReadFrom cfg src src.offsetKey rows n since offsets)
    (hdelays : ReadFrom cfg src src.delayKey rows n since delays)
    (hjitters : ReadFrom cfg src src.jitterKey rows n since jitters)
    (hmany : readLimit cfg ≤ offsets.length) : Whole cfg src rows offsets delays jitters := by
  have hsame := hoffsets.eq_seen hdistinct
  refine ⟨seen cfg since rows n, seen_subperm since rows n, ?_, hsame,
    hdelays.eq_seen hdistinct, hjitters.eq_seen hdistinct⟩
  rwa [hsame, List.length_map] at hmany

/-- Where the stamps rise no other reads do. -/
theorem Whole.eq (hrising : RisingStamps rows)
    (hoffsets : ReadFrom cfg src src.offsetKey rows n since offsets)
    (hdelays : ReadFrom cfg src src.delayKey rows m since delays)
    (hjitters : ReadFrom cfg src src.jitterKey rows k since jitters)
    (hwhole : Whole cfg src rows offsets delays jitters) : n = m ∧ m = k := by
  have hn := hoffsets.1
  have hm := hdelays.1
  have hk := hjitters.1
  have hdistinct : DistinctStamps rows := List.Pairwise.imp UInt64.ne_of_lt hrising
  obtain ⟨used, _, hmany, ho, hd, hj⟩ := hwhole
  have hstamps : ∀ {key n readings}, ReadFrom cfg src key rows n since readings →
      readings = used.map (Row.reading src key) →
      (seen cfg since rows n).map Row.readStamp = used.map Row.readStamp := by
    intro key n readings hread hused
    rw [hread.eq_seen hdistinct] at hused
    have hfst := congrArg (List.map Prod.fst) hused
    rwa [List.map_map, List.map_map] at hfst
  have hne : seen cfg since rows n ≠ [] := by
    have hlength := congrArg List.length (hstamps hoffsets ho)
    rw [List.length_map, List.length_map] at hlength
    have hpos := readLimit_pos cfg
    exact List.ne_nil_of_length_pos (by omega)
  have hfirst : n = m :=
    eq_of_seen hrising hn hm hne ((hstamps hoffsets ho).trans (hstamps hdelays hd).symm)
  subst hfirst
  exact ⟨rfl,
    eq_of_seen hrising hn hk hne ((hstamps hoffsets ho).trans (hstamps hjitters hj).symm)⟩

end Samples

end Zeitpeer
