import Zeitpeer.Time.Fuse

/-!
# What arbitrary readings can do to a median

With fewer arbitrary readings than half there are honest ones on both sides of every middle
element of the sorted series, wherever the arbitrary ones stand, so the median is between two
honest values. The sorted series is the same for every order of the readings, and so is the median.
-/

namespace Zeitpeer

open Framework

/-- A series whose readings are marked: some of them are arbitrary. -/
abbrev MarkedSeries := List ((UInt64 × F64) × Bool)

def MarkedSeries.readings (series : MarkedSeries) : List (UInt64 × F64) := series.map Prod.fst

/-- Two values of readings that are not arbitrary have `m` between them. -/
structure MarkedSeries.Brackets (series : MarkedSeries) (m : F64) : Prop where
  low : ∃ r ∈ series, r.2 = false ∧ r.1.2 ≤ m
  high : ∃ r ∈ series, r.2 = false ∧ m ≤ r.1.2

variable {series : MarkedSeries}

private theorem MarkedSeries.sorted_values (series : MarkedSeries) :
    sortBy id (series.readings.map Prod.snd) =
      (sortBy (fun r => r.1.2) series).map fun r => r.1.2 := by
  rw [readings, List.map_map]
  have hkey : ∀ a b : (UInt64 × F64) × Bool, a.1.2 ≤ b.1.2 ↔ id a.1.2 ≤ id b.1.2 :=
    fun _ _ => Iff.rfl
  exact (map_sortBy hkey series).symm

private theorem MarkedSeries.brackets_getD (hfew : 2 * series.countP Prod.snd < series.length)
    {i : Nat} (hlow : series.length ≤ 2 * i + 2) (hhigh : 2 * i ≤ series.length) :
    series.Brackets ((sortBy id (series.readings.map Prod.snd)).getD i 0) := by
  have hsorted := pairwise_sortBy (fun r : (UInt64 × F64) × Bool => r.1.2) series
  have hperm := sortBy_perm (fun r : (UInt64 × F64) × Bool => r.1.2) series
  have hcount := hperm.countP_eq Prod.snd
  have hlength := hperm.length_eq
  have hi : i < (sortBy (fun r => r.1.2) series).length := by omega
  have hfront : (sortBy (fun r => r.1.2) series).countP Prod.snd ≤ i := by omega
  rw [series.sorted_values, List.getD_eq_getElem _ _ (by simpa using hi), List.getElem_map]
  obtain ⟨⟨a, ha, hok, hle⟩, b, hb, hok', hge⟩ :=
    exists_good_getElem hsorted hi hfront (by omega)
  exact ⟨⟨a, hperm.mem_iff.mp ha, hok, hle⟩, b, hperm.mem_iff.mp hb, hok', hge⟩

private theorem MarkedSeries.Brackets.mean {x y : F64} (hx : series.Brackets x)
    (hy : series.Brackets y) : series.Brackets ((x + y) / 2) := by
  rcases le_total x y with hxy | hyx
  · obtain ⟨a, ha, hok, hle⟩ := hx.low
    obtain ⟨b, hb, hok', hge⟩ := hy.high
    exact ⟨⟨a, ha, hok, by linarith⟩, b, hb, hok', by linarith⟩
  · obtain ⟨a, ha, hok, hle⟩ := hy.low
    obtain ⟨b, hb, hok', hge⟩ := hx.high
    exact ⟨⟨a, ha, hok, by linarith⟩, b, hb, hok', by linarith⟩

private theorem MarkedSeries.exists_median (hfew : 2 * series.countP Prod.snd < series.length) :
    ∃ m, robustMedian (series.readings.map Prod.snd) = some m ∧ series.Brackets m := by
  have hlength : (sortBy id (series.readings.map Prod.snd)).length = series.length := by
    simp [readings]
  have hempty : (series.readings.map Prod.snd).isEmpty = false := by
    rw [List.isEmpty_eq_false_iff]
    apply List.ne_nil_of_length_pos
    simp only [readings, List.length_map]
    omega
  simp only [robustMedian, hempty, Bool.false_eq_true, if_false, hlength]
  by_cases heven : series.length % 2 = 0
  · rw [if_pos heven]
    refine ⟨_, rfl, Brackets.mean ?_ ?_⟩
    · exact brackets_getD hfew (by omega) (by omega)
    · exact brackets_getD hfew (by omega) (by omega)
  · rw [if_neg heven]
    exact ⟨_, rfl, brackets_getD hfew (by omega) (by omega)⟩

private theorem robustMedian_perm {values values' : List F64} (h : values.Perm values') :
    robustMedian values = robustMedian values' := by
  have hempty : values.isEmpty = values'.isEmpty := by
    rw [Bool.eq_iff_iff, List.isEmpty_iff_length_eq_zero, List.isEmpty_iff_length_eq_zero,
      h.length_eq]
  simp only [robustMedian, hempty, sortBy_id_of_perm h]

/-- The median of a series with fewer arbitrary readings than half is between two honest values,
where it is used for the offsets, the delays and the jitters of a sample, whatever the order of the
series. -/
theorem median_breakdown (hfew : 2 * series.countP Prod.snd < series.length) :
    ∃ m, series.Brackets m ∧ ∀ readings, readings.Perm series.readings →
      robustMedian (readings.map Prod.snd) = some m ∧
      ∀ peerId weight others others',
        (PeerSample.fromSeries peerId weight readings others others').offsetMedianNs = m ∧
        (PeerSample.fromSeries peerId weight others readings others').delayMedianNs = m ∧
        (PeerSample.fromSeries peerId weight others others' readings).jitterMedianNs = |m| := by
  obtain ⟨m, hmedian, hbrackets⟩ := series.exists_median hfew
  refine ⟨m, hbrackets, ?_⟩
  intro readings hperm
  rw [← robustMedian_perm (hperm.map Prod.snd)] at hmedian
  refine ⟨hmedian, ?_⟩
  intro peerId weight others others'
  simp only [PeerSample.fromSeries, hmedian, Option.getD_some, and_self]

/-- One of three readings is far off. -/
def oneFarOff : MarkedSeries := [((0, 1), false), ((1, 1000), true), ((2, 3), false)]

theorem median_breakdown_three :
    2 * oneFarOff.countP Prod.snd < oneFarOff.length ∧
      ∃ m, oneFarOff.Brackets m ∧ robustMedian [1, 1000, 3] = some m := by
  have hfew : 2 * oneFarOff.countP Prod.snd < oneFarOff.length := by decide
  obtain ⟨m, hbrackets, hmedian⟩ := median_breakdown hfew
  exact ⟨hfew, m, hbrackets, (hmedian _ (List.Perm.refl _)).1⟩

end Zeitpeer
