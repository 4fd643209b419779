import Zeitpeer.Framework.LeastSquares
import Mathlib.Data.List.Pairwise
import Mathlib.Data.List.Chain

/-!
# The slope between the rates

The centred sums are those over all pairs of points, so the slope of the best lines is a mean of
the rates from one point to another, with the squared distances as the weights. It lies between
the smallest and the largest of them, and for points in order between those from each point to
the next.
-/

namespace Framework.LeastSquares

universe u

variable {K : Type u} [Field K] {pts : List (K × K)}

theorem total_affine (c k : K) (f : K × K → K) (pts : List (K × K)) :
    total (fun p => c + k * f p) pts = pts.length * c + k * total f pts := by
  induction pts with
  | nil => simp
  | cons p pts ih =>
    simp only [total_cons, ih, List.length_cons, Nat.cast_succ]
    ring

theorem total_mul (k : K) (f : K × K → K) (pts : List (K × K)) :
    total (fun p => k * f p) pts = k * total f pts := by
  have haffine := total_affine 0 k f pts
  simpa using haffine

private theorem total_recentre (c d cx cy : K) (pts : List (K × K)) :
    total (fun p => (p.1 - c) * (p.2 - d)) pts =
      total (fun p => (p.1 - cx) * (p.2 - cy)) pts +
        (cy - d) * total (fun p => p.1 - cx) pts +
        (cx - c) * total (fun p => p.2 - cy) pts + pts.length * ((cx - c) * (cy - d)) := by
  induction pts with
  | nil => simp
  | cons p pts ih =>
    simp only [total_cons, ih, List.length_cons, Nat.cast_succ]
    ring

private theorem sxx_eq_sxy (pts : List (K × K)) : sxx pts = sxy (pts.map fun p => (p.1, p.1)) := by
  have hmeanX : meanX (pts.map fun p => (p.1, p.1)) = meanX pts := by
    rw [meanX, meanX, total_map, List.length_map]
  have hmeanY : meanY (pts.map fun p => (p.1, p.1)) = meanX pts := by
    rw [meanY, meanX, total_map, List.length_map]
  rw [sxy, total_map, hmeanX, hmeanY, sxx]

section Pairs

variable [CharZero K]

private theorem total_centre (hne : pts ≠ []) (c d : K) :
    total (fun p => (p.1 - c) * (p.2 - d)) pts =
      sxy pts + pts.length * ((meanX pts - c) * (meanY pts - d)) := by
  rw [total_recentre c d (meanX pts) (meanY pts), total_sub_meanX hne, total_sub_meanY hne, sxy]
  ring

private theorem total_pairs (hne : pts ≠ []) :
    total (fun p => total (fun q => (q.1 - p.1) * (q.2 - p.2)) pts) pts =
      2 * pts.length * sxy pts := by
  have hinner : ∀ p ∈ pts, total (fun q => (q.1 - p.1) * (q.2 - p.2)) pts =
      sxy pts + pts.length * ((p.1 - meanX pts) * (p.2 - meanY pts)) := by
    intro p _
    rw [total_centre hne]
    ring
  rw [total_congr hinner, total_affine, ← sxy]
  ring

private theorem total_squares (hne : pts ≠ []) :
    total (fun p => total (fun q => (q.1 - p.1) * (q.1 - p.1)) pts) pts =
      2 * pts.length * sxx pts := by
  have hne' : (pts.map fun p => (p.1, p.1)) ≠ [] := by simpa using hne
  have hdiagonal := total_pairs hne'
  rw [List.length_map, ← sxx_eq_sxy, total_map] at hdiagonal
  rw [← hdiagonal]
  simp only [total_map]

end Pairs

section Ordered

variable [LinearOrder K] [IsStrictOrderedRing K] {low high : K}

theorem total_le_total {f g : K × K → K} (h : ∀ p ∈ pts, f p ≤ g p) : total f pts ≤ total g pts :=
  List.sum_le_sum h

/-- The rate from one point to the other is between the bounds, whichever comes first. -/
def RateBetween (low high : K) (p q : K × K) : Prop :=
  low * ((q.1 - p.1) * (q.1 - p.1)) ≤ (q.1 - p.1) * (q.2 - p.2) ∧
    (q.1 - p.1) * (q.2 - p.2) ≤ high * ((q.1 - p.1) * (q.1 - p.1))

theorem RateBetween.symm {p q : K × K} (h : RateBetween low high p q) :
    RateBetween low high q p := by
  obtain ⟨hlow, hhigh⟩ := h
  constructor <;> linarith

private theorem sxy_between (h : ∀ p ∈ pts, ∀ q ∈ pts, RateBetween low high p q) :
    low * sxx pts ≤ sxy pts ∧ sxy pts ≤ high * sxx pts := by
  by_cases hne : pts = []
  · simp [hne, sxx, sxy]
  · have hlength : 0 < pts.length := List.length_pos_of_ne_nil hne
    have hpos : (0 : K) < 2 * pts.length := by positivity
    have hlow : total (fun p => total (fun q => low * ((q.1 - p.1) * (q.1 - p.1))) pts) pts ≤
        total (fun p => total (fun q => (q.1 - p.1) * (q.2 - p.2)) pts) pts :=
      total_le_total fun p hp => total_le_total fun q hq => (h p hp q hq).1
    have hhigh : total (fun p => total (fun q => (q.1 - p.1) * (q.2 - p.2)) pts) pts ≤
        total (fun p => total (fun q => high * ((q.1 - p.1) * (q.1 - p.1))) pts) pts :=
      total_le_total fun p hp => total_le_total fun q hq => (h p hp q hq).2
    simp only [total_mul, total_pairs hne, total_squares hne] at hlow hhigh
    constructor <;> apply le_of_mul_le_mul_left _ hpos <;> linarith

/-- From one point to a later one, at a rate between the bounds. -/
def RisesBetween (low high : K) (p q : K × K) : Prop :=
  p.1 < q.1 ∧ low * (q.1 - p.1) ≤ q.2 - p.2 ∧ q.2 - p.2 ≤ high * (q.1 - p.1)

theorem RisesBetween.trans {p q r : K × K} (hpq : RisesBetween low high p q)
    (hqr : RisesBetween low high q r) : RisesBetween low high p r := by
  obtain ⟨hlt, hlow, hhigh⟩ := hpq
  obtain ⟨hlt', hlow', hhigh'⟩ := hqr
  refine ⟨hlt.trans hlt', ?_, ?_⟩ <;> linarith

theorem RisesBetween.rate {p q : K × K} (h : RisesBetween low high p q) :
    RateBetween low high p q := by
  obtain ⟨hlt, hlow, hhigh⟩ := h
  have hdist : 0 ≤ q.1 - p.1 := by linarith
  constructor
  · linarith [mul_le_mul_of_nonneg_left hlow hdist]
  · linarith [mul_le_mul_of_nonneg_left hhigh hdist]

/-- The slope over points in order is between the rates from each point to the next. -/
theorem slope_between (hlong : 2 ≤ pts.length) (hchain : pts.IsChain (RisesBetween low high)) :
    low ≤ slope pts ∧ slope pts ≤ high := by
  have htrans : IsTrans (K × K) (RisesBetween low high) := ⟨fun _ _ _ => RisesBetween.trans⟩
  have hsymm : Std.Symm (RateBetween low high) := ⟨fun _ _ => RateBetween.symm⟩
  have hpairwise := (List.isChain_iff_pairwise.mp hchain).imp RisesBetween.rate
  have hall := hpairwise.forall_of_forall fun p _ => show RateBetween low high p p by
    simp [RateBetween]
  have hpos : 0 < sxx pts := by
    match pts, hlong with
    | p :: q :: rest, _ =>
      have hlt := (List.isChain_cons_cons.mp hchain).1.1
      exact sxx_pos List.mem_cons_self (List.mem_cons_of_mem _ List.mem_cons_self) hlt.ne
  rw [slope, if_pos hpos, le_div_iff₀ hpos, div_le_iff₀ hpos]
  exact sxy_between fun p hp q hq => hall hp hq

end Ordered

end Framework.LeastSquares
