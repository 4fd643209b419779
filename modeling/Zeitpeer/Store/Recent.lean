import Zeitpeer.Framework.Suffix
import Zeitpeer.Store.Redis

/-!
# Series with distinct scores

As long as no two scores are equal there is one reply to a read: the entries of the highest
scores. If every new score is above the ones before, the order of a sorted set is the order in
which it was filled, and the reply is the last entries inside the window. The entries may belong
to rows with more columns, and what is said of one series is said of the rows.
-/

namespace Zeitpeer

variable {β : Type} {f : β → Entry} {rows : List β}

/-- The scores of the rows rise strictly. -/
def Rising (f : β → Entry) (rows : List β) : Prop :=
  rows.Pairwise fun a b => (f a).score < (f b).score

/-- The rows inside a window. -/
def inside (f : β → Entry) (since : UInt64) (rows : List β) : List β :=
  rows.filter fun x => roundToF64 since.toNat ≤ (f x).score

/-- The last of them, up to a limit. -/
def newest (f : β → Entry) (since : UInt64) (limit : Nat) (rows : List β) : List β :=
  (inside f since rows).drop ((inside f since rows).length - limit)

/-- What a write leaves of the rows. -/
def trim (f : β → Entry) (w : TsAdd) (rows : List β) : List β :=
  if 0 < w.windowNs then
    rows.filter fun x =>
      roundToF64 (saturatingSub w.tsNs w.windowNs).toNat < (f x).score
  else rows

private theorem eligible_map (f : β → Entry) (since : UInt64) (rows : List β) :
    eligible (rows.map f) since = (inside f since rows).map f := by
  rw [eligible, inside, List.filter_map]
  rfl

private theorem Rising.inside_suffix (h : Rising f rows) (since : UInt64) :
    inside f since rows <:+ rows := by
  apply Framework.filter_suffix h
  intro x y hxy hx
  exact decide_eq_true ((of_decide_eq_true hx).trans hxy.le)

/-- Trimming a rising series takes away its beginning. -/
theorem Rising.trim_suffix (h : Rising f rows) (w : TsAdd) : trim f w rows <:+ rows := by
  rw [trim]
  by_cases hwindow : 0 < w.windowNs
  · rw [if_pos hwindow]
    apply Framework.filter_suffix h
    intro x y hxy hx
    exact decide_eq_true ((of_decide_eq_true hx).trans hxy)
  · exact (if_neg hwindow).symm ▸ List.suffix_refl rows

theorem Rising.newest_suffix (h : Rising f rows) (since : UInt64) (limit : Nat) :
    newest f since limit rows <:+ rows :=
  (List.drop_suffix _ _).trans (h.inside_suffix since)

/-- No two rows have one score. -/
def Distinct (f : β → Entry) (rows : List β) : Prop :=
  rows.Pairwise fun a b => (f a).score ≠ (f b).score

theorem Rising.distinct (h : Rising f rows) : Distinct f rows := List.Pairwise.imp Nat.ne_of_lt h

private theorem Distinct.eq_of_score (h : Distinct f rows) {x y : β} (hx : x ∈ rows) (hy : y ∈ rows)
    (hscore : (f x).score = (f y).score) : x = y := by
  have hnodup : (rows.map fun x => (f x).score).Nodup := List.pairwise_map.mpr h
  exact List.inj_on_of_nodup_map hnodup hx hy hscore

/-- The rows inside a window in the order of their scores. -/
def byScore (f : β → Entry) (since : UInt64) (rows : List β) : List β :=
  Framework.sortBy (fun x => (f x).score) (inside f since rows)

/-- Those of the highest scores, up to a limit. -/
def top (f : β → Entry) (since : UInt64) (limit : Nat) (rows : List β) : List β :=
  (byScore f since rows).drop ((byScore f since rows).length - limit)

theorem byScore_perm (f : β → Entry) (since : UInt64) (rows : List β) :
    (byScore f since rows).Perm (inside f since rows) := Framework.sortBy_perm _ _

private theorem IsRecent.split (hdistinct : Distinct f rows) {reply : List Entry} {since : UInt64}
    {limit : Nat} (h : IsRecent (rows.map f) since limit reply) :
    ∃ older, (byScore f since rows).map f = older ++ reply := by
  obtain ⟨_, hsub, hsorted, hrest⟩ := h
  rw [eligible_map] at hsub hrest
  have hinside : Distinct f (inside f since rows) := List.Pairwise.filter _ hdistinct
  generalize holder : ((inside f since rows).map f).diff reply = older at hrest
  have holderPerm := Framework.sortBy_perm Entry.score older
  have hperm : ((byScore f since rows).map f).Perm
      (Framework.sortBy Entry.score older ++ reply) := by
    have hcount := List.subperm_append_diff_self_of_count_le (List.subperm_ext_iff.mp hsub)
    rw [holder] at hcount
    exact ((byScore_perm f since rows).map f).trans
      (hcount.symm.trans (List.perm_append_comm.trans (holderPerm.symm.append_right reply)))
  refine ⟨Framework.sortBy Entry.score older, ?_⟩
  have hleft : ((byScore f since rows).map f).Pairwise fun a b => a.score ≤ b.score :=
    List.pairwise_map.mpr (Framework.pairwise_sortBy _ _)
  have hright : (Framework.sortBy Entry.score older ++ reply).Pairwise
      fun a b => a.score ≤ b.score := by
    rw [List.pairwise_append]
    refine ⟨Framework.pairwise_sortBy _ _, hsorted, ?_⟩
    intro a ha b hb
    exact hrest a (holderPerm.mem_iff.mp ha) b hb
  refine hperm.eq_of_pairwise ?_ hleft hright
  intro a b ha hb hab hba
  have hmem : ∀ {x}, x ∈ (byScore f since rows).map f → x ∈ (inside f since rows).map f :=
    fun hx => ((byScore_perm f since rows).map f).mem_iff.mp hx
  obtain ⟨x, hx, rfl⟩ := List.mem_map.mp (hmem ha)
  obtain ⟨y, hy, rfl⟩ := List.mem_map.mp (hmem (hperm.mem_iff.mpr hb))
  exact congrArg f (hinside.eq_of_score hx hy (Nat.le_antisymm hab hba))

/-- The order in which entries have been added does not matter. -/
theorem IsRecent.perm {entries entries' reply : List Entry} {since : UInt64} {limit : Nat}
    (hperm : entries.Perm entries') (h : IsRecent entries since limit reply) :
    IsRecent entries' since limit reply := by
  have hinside : (eligible entries since).Perm (eligible entries' since) := hperm.filter _
  obtain ⟨hlength, hsub, hsorted, hrest⟩ := h
  refine ⟨?_, hsub.trans hinside.subperm, hsorted, ?_⟩
  · rw [← hinside.length_eq]
    exact hlength
  · intro e he
    exact hrest e ((hinside.diff_right reply).mem_iff.mpr he)

/-- From distinct scores there is one reply. -/
theorem IsRecent.eq_top {reply : List Entry} {since : UInt64} {limit : Nat} (hpos : 0 < limit)
    (hdistinct : Distinct f rows) (h : IsRecent (rows.map f) since limit reply) :
    reply = (top f since limit rows).map f := by
  obtain ⟨older, hsplit⟩ := h.split hdistinct
  have hsorted := (byScore_perm f since rows).length_eq
  have hlength : reply.length = min limit (byScore f since rows).length := by
    rw [h.1, if_neg (Nat.pos_iff_ne_zero.mp hpos), eligible_map, List.length_map, hsorted]
  have holder : older.length = (byScore f since rows).length - limit := by
    have htotal := congrArg List.length hsplit
    rw [List.length_map, List.length_append] at htotal
    omega
  rw [top, List.map_drop, hsplit, ← holder, List.drop_left]

/-- Of a rising series the highest scores are the last ones. -/
theorem Rising.top_eq (h : Rising f rows) (since : UInt64) (limit : Nat) :
    top f since limit rows = newest f since limit rows := by
  have hsorted : byScore f since rows = inside f since rows := by
    apply List.Pairwise.insertionSort_eq
    exact List.Pairwise.imp Nat.le_of_lt (List.Pairwise.filter _ h)
  rw [top, newest, hsorted]

/-- Entries with rising scores that are above all others of the window are the reply. -/
theorem IsRecent.eq_of_above {entries used reply : List Entry} {since : UInt64} {limit : Nat}
    (h : IsRecent entries since limit reply) (hlength : used.length = reply.length)
    (hsub : used.Subperm (eligible entries since)) (hrising : Rising id used)
    (habove : ∀ e ∈ (eligible entries since).diff used, ∀ x ∈ used, e.score < x.score) :
    reply = used := by
  obtain ⟨_, hreply, hsorted, hrest⟩ := h
  have hparts : ∀ l : List Entry, l.Subperm (eligible entries since) →
      (l ++ (eligible entries since).diff l).Perm (eligible entries since) := fun l hl =>
    List.subperm_append_diff_self_of_count_le (List.subperm_ext_iff.mp hl)
  have hnodup : used.Nodup := by
    apply List.Pairwise.imp _ hrising
    rintro x y hlt rfl
    exact Nat.lt_irrefl _ hlt
  have hall : ∀ x ∈ used, x ∈ reply := by
    by_contra hmissing
    push Not at hmissing
    obtain ⟨x, hx, hout⟩ := hmissing
    have hxrest : x ∈ (eligible entries since).diff reply := by
      have hmem := (hparts reply hreply).mem_iff.mpr (hsub.subset hx)
      exact (List.mem_append.mp hmem).resolve_left hout
    -- no score of the reply is below that of the missing entry, so all of it is used
    have hless : reply.Subperm (used.erase x) := by
      apply List.subperm_ext_iff.mpr
      intro r hr
      have hnot : r ∉ (eligible entries since).diff used := by
        intro hr'
        exact absurd (hrest x hxrest r hr) (Nat.not_le.mpr (habove r hr' x hx))
      have hcount : (eligible entries since).count r = used.count r := by
        rw [← (hparts used hsub).count_eq, List.count_append, List.count_eq_zero_of_not_mem hnot,
          Nat.add_zero]
      have hne : r ≠ x := fun heq => hout (heq ▸ hr)
      rw [List.count_erase_of_ne hne, ← hcount]
      exact hreply.count_le r
    have hfew := hless.length_le
    rw [List.length_erase_of_mem hx, ← hlength] at hfew
    have hpos := List.length_pos_of_mem hx
    omega
  have hperm : used.Perm reply :=
    (List.subperm_of_subset hnodup hall).perm_of_length_le hlength.ge
  refine (hperm.eq_of_pairwise ?_ (List.Pairwise.imp Nat.le_of_lt hrising) hsorted).symm
  intro x y hx hy hxy hyx
  exact hrising.distinct.eq_of_score hx (hperm.mem_iff.mpr hy) (Nat.le_antisymm hxy hyx)

/-- From distinct scores a reply has rising scores above all others. -/
theorem IsRecent.above {entries reply : List Entry} {since : UInt64} {limit : Nat}
    (h : IsRecent entries since limit reply) (hdistinct : Distinct id (eligible entries since)) :
    Rising id reply ∧
      ∀ e ∈ (eligible entries since).diff reply, ∀ x ∈ reply, e.score < x.score := by
  obtain ⟨_, hreply, hsorted, hrest⟩ := h
  have hperm : (reply ++ (eligible entries since).diff reply).Perm (eligible entries since) :=
    List.subperm_append_diff_self_of_count_le (List.subperm_ext_iff.mp hreply)
  have hparts : Distinct id (reply ++ (eligible entries since).diff reply) :=
    hperm.symm.pairwise hdistinct fun hne => hne.symm
  obtain ⟨hinner, _, hcross⟩ := List.pairwise_append.mp hparts
  constructor
  · exact (hsorted.and hinner).imp fun ⟨hle, hne⟩ => Nat.lt_of_le_of_ne hle hne
  · intro e he x hx
    exact Nat.lt_of_le_of_ne (hrest e he x hx) (hcross x hx e he).symm

/-- A write keeps a series in step with its rows. -/
theorem tsAdd_map {store : Store} {w : TsAdd} (hstore : store w.key = rows.map f) {x : β}
    (hx : f x = ⟨roundToF64 w.tsNs.toNat, w.val⟩) :
    store.tsAdd w w.key = (trim f w (rows ++ [x])).map f := by
  rw [Store.tsAdd, Function.update_self, hstore, ← hx, trim]
  by_cases hwindow : 0 < w.windowNs
  · rw [if_pos hwindow, if_pos hwindow, ← List.map_singleton, ← List.map_append, List.filter_map]
    rfl
  · rw [if_neg hwindow, if_neg hwindow, ← List.map_singleton, ← List.map_append]

theorem tsAdd_of_ne {store : Store} {w : TsAdd} {key : SeriesKey} (hkey : key ≠ w.key) :
    store.tsAdd w key = store key := by
  rw [Store.tsAdd, Function.update_of_ne hkey]

/-- The entry that a write files. -/
def TsAdd.entry (w : TsAdd) : Entry := ⟨roundToF64 w.tsNs.toNat, w.val⟩

/-- A write adds its entry and nothing else. -/
theorem tsAdd_sublist (store : Store) (w : TsAdd) :
    (store.tsAdd w w.key).Sublist (store w.key ++ [w.entry]) := by
  rw [Store.tsAdd, Function.update_self]
  split
  · exact List.filter_sublist
  · exact List.Sublist.refl _

theorem tsAdd_untrimmed {store : Store} {w : TsAdd} (hwindow : w.windowNs = 0) :
    store.tsAdd w = Function.update store w.key (store w.key ++ [w.entry]) := by
  rw [Store.tsAdd, hwindow, if_neg (by decide)]
  rfl

end Zeitpeer
