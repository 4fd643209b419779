import Mathlib.Algebra.BigOperators.Group.List.Basic
import Mathlib.Algebra.Order.BigOperators.Group.List
import Mathlib.Algebra.Order.Field.Basic
import Mathlib.Data.List.Sort
import Mathlib.Tactic.Linarith

/-!
# Estimates that a few faulty values cannot move

Trimming a sorted list on both sides by as many places as there are faulty entries leaves only
values between good ones, wherever the faulty entries stand. Means with positive weights and
convex blends of values in an interval stay in it.
-/

namespace Framework

universe u v

variable {α : Type u} {β : Type v}

section SortBy

variable [LinearOrder β] {key : α → β}

/-- A stable ascending sort by a key. -/
def sortBy (key : α → β) (l : List α) : List α :=
  l.insertionSort fun a b => key a ≤ key b

theorem sortBy_perm (key : α → β) (l : List α) : (sortBy key l).Perm l :=
  List.perm_insertionSort _ l

@[simp] theorem length_sortBy (key : α → β) (l : List α) : (sortBy key l).length = l.length :=
  (sortBy_perm key l).length_eq

theorem mem_sortBy {l : List α} {x : α} : x ∈ sortBy key l ↔ x ∈ l := (sortBy_perm key l).mem_iff

theorem pairwise_sortBy (key : α → β) (l : List α) :
    (sortBy key l).Pairwise fun a b => key a ≤ key b := by
  have : Std.Total fun a b : α => key a ≤ key b := ⟨fun a b => le_total (key a) (key b)⟩
  have : IsTrans α fun a b => key a ≤ key b := ⟨fun _ _ _ => le_trans⟩
  exact List.pairwise_insertionSort _ l

/-- Sorting commutes with a map that keeps the order of the keys. -/
theorem map_sortBy {γ : Type*} {key' : γ → β} {f : α → γ}
    (hkey : ∀ a b, key a ≤ key b ↔ key' (f a) ≤ key' (f b)) (l : List α) :
    (sortBy key l).map f = sortBy key' (l.map f) :=
  List.map_insertionSort _ _ f l fun a _ b _ => hkey a b

/-- Sorting by the values themselves forgets the order. -/
theorem sortBy_id_of_perm {l l' : List β} (h : l.Perm l') : sortBy id l = sortBy id l' := by
  have hperm : (sortBy id l).Perm (sortBy id l') :=
    ((sortBy_perm id l).trans h).trans (sortBy_perm id l').symm
  apply hperm.eq_of_pairwise _ (pairwise_sortBy id l) (pairwise_sortBy id l')
  intro a b _ _ hab hba
  exact le_antisymm hab hba

end SortBy

section Trim

variable [LinearOrder β] {key : α → β} {faulty : α → Bool} {low high : β}

/-- What is left of a list without `t` entries at either end. -/
def trimmed (t : Nat) (l : List α) : List α := (l.take (l.length - t)).drop t

theorem length_trimmed (t : Nat) (l : List α) : (trimmed t l).length = l.length - 2 * t := by
  simp only [trimmed, List.length_drop, List.length_take]
  omega

private theorem split_of_mem_trimmed {t : Nat} {l : List α} {x : α} (hx : x ∈ trimmed t l) :
    ∃ front back, l = front ++ x :: back ∧ t ≤ front.length ∧ t ≤ back.length := by
  have hlong : 0 < (trimmed t l).length := List.length_pos_of_mem hx
  rw [length_trimmed] at hlong
  obtain ⟨before, after, hsplit⟩ := List.append_of_mem hx
  refine ⟨(l.take (l.length - t)).take t ++ before, after ++ l.drop (l.length - t), ?_, ?_, ?_⟩
  · calc l = l.take (l.length - t) ++ l.drop (l.length - t) := (List.take_append_drop _ l).symm
      _ = (l.take (l.length - t)).take t ++ trimmed t l ++ l.drop (l.length - t) :=
        congrArg (· ++ l.drop (l.length - t)) (List.take_append_drop t _).symm
      _ = _ := by
        rw [hsplit]
        simp
  · rw [List.length_append, List.length_take, List.length_take]
    omega
  · rw [List.length_append, List.length_drop]
    omega

/-- With as many entries before an entry of a sorted list as there are faulty ones, it or one
of those before it is good. -/
private theorem exists_good_le {front back : List α} {x : α}
    (hsorted : (front ++ x :: back).Pairwise fun a b => key a ≤ key b)
    (hfew : (front ++ x :: back).countP faulty ≤ front.length) :
    ∃ a ∈ front ++ x :: back, faulty a = false ∧ key a ≤ key x := by
  by_contra hnone
  have hbad : ∀ a ∈ front ++ x :: back, key a ≤ key x → faulty a = true := by
    intro a ha hle
    by_contra hok
    exact hnone ⟨a, ha, by simpa using hok, hle⟩
  have hfront : ∀ a ∈ front, faulty a = true := by
    intro a ha
    apply hbad a (List.mem_append_left _ ha)
    exact (List.pairwise_append.mp hsorted).2.2 a ha x List.mem_cons_self
  have hself : faulty x = true := hbad x (by simp) le_rfl
  rw [List.countP_append, List.countP_cons, List.countP_eq_length.mpr hfront, hself,
    if_pos rfl] at hfew
  omega

private theorem exists_good_ge {front back : List α} {x : α}
    (hsorted : (front ++ x :: back).Pairwise fun a b => key a ≤ key b)
    (hfew : (front ++ x :: back).countP faulty ≤ back.length) :
    ∃ a ∈ front ++ x :: back, faulty a = false ∧ key x ≤ key a := by
  by_contra hnone
  have hbad : ∀ a ∈ front ++ x :: back, key x ≤ key a → faulty a = true := by
    intro a ha hle
    by_contra hok
    exact hnone ⟨a, ha, by simpa using hok, hle⟩
  have hback : ∀ a ∈ back, faulty a = true := by
    intro a ha
    apply hbad a (by simp [ha])
    exact (List.pairwise_cons.mp (List.pairwise_append.mp hsorted).2.1).1 a ha
  have hself : faulty x = true := hbad x (by simp) le_rfl
  rw [List.countP_append, List.countP_cons, List.countP_eq_length.mpr hback, hself,
    if_pos rfl] at hfew
  omega

/-- An entry of a sorted list with as many entries on either side as there are faulty ones is
bracketed by good ones. -/
private theorem between_of_split {front back : List α} {x : α} {t : Nat}
    (hsorted : (front ++ x :: back).Pairwise fun a b => key a ≤ key b)
    (hfew : (front ++ x :: back).countP faulty ≤ t) (hfront : t ≤ front.length)
    (hback : t ≤ back.length)
    (hgood : ∀ a ∈ front ++ x :: back, faulty a = false → low ≤ key a ∧ key a ≤ high) :
    low ≤ key x ∧ key x ≤ high := by
  obtain ⟨a, ha, hok, hle⟩ := exists_good_le hsorted (hfew.trans hfront)
  obtain ⟨b, hb, hok', hge⟩ := exists_good_ge hsorted (hfew.trans hback)
  exact ⟨(hgood a ha hok).1.trans hle, hge.trans (hgood b hb hok').2⟩

/-- The entry at a place with as many entries on either side as there are faulty ones. -/
theorem exists_good_getElem {l : List α} (hsorted : l.Pairwise fun a b => key a ≤ key b) {i : Nat}
    (hi : i < l.length) (hfront : l.countP faulty ≤ i)
    (hback : l.countP faulty ≤ l.length - 1 - i) :
    (∃ a ∈ l, faulty a = false ∧ key a ≤ key l[i]) ∧
      ∃ a ∈ l, faulty a = false ∧ key l[i] ≤ key a := by
  have hsplit : l.take i ++ l[i] :: l.drop (i + 1) = l := by
    rw [← List.drop_eq_getElem_cons hi, List.take_append_drop]
  have hsorted' : (l.take i ++ l[i] :: l.drop (i + 1)).Pairwise fun a b => key a ≤ key b := by
    rwa [hsplit]
  have hlow : (l.take i ++ l[i] :: l.drop (i + 1)).countP faulty ≤ (l.take i).length := by
    rw [hsplit, List.length_take]
    omega
  have hhigh : (l.take i ++ l[i] :: l.drop (i + 1)).countP faulty ≤ (l.drop (i + 1)).length := by
    rw [hsplit, List.length_drop]
    omega
  have hle := exists_good_le hsorted' hlow
  have hge := exists_good_ge hsorted' hhigh
  rw [hsplit] at hle hge
  exact ⟨hle, hge⟩

theorem between_of_mem_trimmed {l : List α} {t : Nat} {x : α}
    (hsorted : l.Pairwise fun a b => key a ≤ key b) (hfew : l.countP faulty ≤ t)
    (hgood : ∀ a ∈ l, faulty a = false → low ≤ key a ∧ key a ≤ high) (hx : x ∈ trimmed t l) :
    low ≤ key x ∧ key x ≤ high := by
  obtain ⟨front, back, rfl, hfront, hback⟩ := split_of_mem_trimmed hx
  exact between_of_split hsorted hfew hfront hback hgood

end Trim

section Clamp

variable [LinearOrder β] {low high : β}

/-- Restrict a value to an interval. -/
def clamp (low high x : β) : β := max low (min x high)

theorem clamp_between (h : low ≤ high) (x : β) : low ≤ clamp low high x ∧ clamp low high x ≤ high :=
  ⟨le_max_left _ _, max_le h (min_le_right _ _)⟩

theorem clamp_mono {x y : β} (h : x ≤ y) : clamp low high x ≤ clamp low high y :=
  max_le_max le_rfl (min_le_min h le_rfl)

theorem clamp_of_between {x : β} (hlow : low ≤ x) (hhigh : x ≤ high) : clamp low high x = x := by
  rw [clamp, min_eq_left hhigh, max_eq_right hlow]

theorem clamp_of_le {x : β} (h : low ≤ high) (hx : high ≤ x) : clamp low high x = high := by
  rw [clamp, min_eq_right hx, max_eq_right h]

theorem clamp_of_ge {x : β} (hx : x ≤ low) : clamp low high x = low :=
  max_eq_left ((min_le_left _ _).trans hx)

end Clamp

section Mean

variable [Field β] [LinearOrder β] [IsStrictOrderedRing β] {low high : β}

private theorem weightedSum_between {weight value : α → β} {l : List α}
    (hweight : ∀ x ∈ l, 0 ≤ weight x) (hvalue : ∀ x ∈ l, low ≤ value x ∧ value x ≤ high) :
    low * (l.map weight).sum ≤ (l.map fun x => weight x * value x).sum ∧
      (l.map fun x => weight x * value x).sum ≤ high * (l.map weight).sum := by
  induction l with
  | nil => simp
  | cons x l ih =>
    have hw := hweight x List.mem_cons_self
    obtain ⟨hlow, hhigh⟩ := hvalue x List.mem_cons_self
    have hrest := ih (fun y hy => hweight y (List.mem_cons_of_mem x hy))
      (fun y hy => hvalue y (List.mem_cons_of_mem x hy))
    have hbelow := mul_le_mul_of_nonneg_left hlow hw
    have habove := mul_le_mul_of_nonneg_left hhigh hw
    simp only [List.map_cons, List.sum_cons, mul_add]
    constructor
    · linarith [mul_comm low (weight x), hrest.1]
    · linarith [mul_comm high (weight x), hrest.2]

/-- A weighted mean of values in an interval is in the interval. -/
theorem weightedMean_between {weight value : α → β} {l : List α}
    (hweight : ∀ x ∈ l, 0 ≤ weight x) (htotal : 0 < (l.map weight).sum)
    (hvalue : ∀ x ∈ l, low ≤ value x ∧ value x ≤ high) :
    low ≤ (l.map fun x => weight x * value x).sum / (l.map weight).sum ∧
      (l.map fun x => weight x * value x).sum / (l.map weight).sum ≤ high := by
  obtain ⟨hlow, hhigh⟩ := weightedSum_between hweight hvalue
  exact ⟨(le_div_iff₀ htotal).mpr hlow, (div_le_iff₀ htotal).mpr hhigh⟩

/-- A convex blend of two values in an interval is in the interval. -/
theorem blend_between {share x y : β} (h0 : 0 ≤ share) (h1 : share ≤ 1)
    (hx : low ≤ x ∧ x ≤ high) (hy : low ≤ y ∧ y ≤ high) :
    low ≤ share * x + (1 - share) * y ∧ share * x + (1 - share) * y ≤ high := by
  have hrest : 0 ≤ 1 - share := by linarith
  constructor
  · have hleft := mul_le_mul_of_nonneg_left hx.1 h0
    have hright := mul_le_mul_of_nonneg_left hy.1 hrest
    linarith
  · have hleft := mul_le_mul_of_nonneg_left hx.2 h0
    have hright := mul_le_mul_of_nonneg_left hy.2 hrest
    linarith

end Mean

end Framework
