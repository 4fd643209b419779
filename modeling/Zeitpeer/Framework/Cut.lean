import Zeitpeer.Framework.Robust
import Mathlib.Algebra.Order.Group.Multiset
import Mathlib.Data.Multiset.UnionInter

/-!
# Cutting sorted lists

Two sorted lists of the same entries differ only in the order of equal keys. A cut at one place
takes the same entries of both unless it runs through such a tie, and where the tied entries
count the same it still takes entries that count the same.
-/

namespace Framework

universe u v w

variable {α : Type u} {β : Type v} {γ : Type w} [LinearOrder β] {key : α → β} {f : α → γ}
  {l l' : List α}

/-- Entries of one key that the cut after `k` places separates count the same. -/
def CleanCut (key : α → β) (f : α → γ) (k : Nat) (l : List α) : Prop :=
  ∀ a ∈ l.take k, ∀ b ∈ l.drop k, key a = key b → f a = f b

instance [DecidableEq γ] (key : α → β) (f : α → γ) (k : Nat) (l : List α) :
    Decidable (CleanCut key f k l) :=
  inferInstanceAs (Decidable (∀ a ∈ l.take k, ∀ b ∈ l.drop k, key a = key b → f a = f b))

private theorem map_eq_of_forall {s t : Multiset α} (hcard : s.card = t.card)
    (h : ∀ a ∈ s, ∀ b ∈ t, f a = f b) : s.map f = t.map f := by
  induction s using Multiset.induction_on with
  | empty =>
    have hempty : t = 0 := Multiset.card_eq_zero.mp hcard.symm
    rw [hempty]
  | cons x s _ =>
    obtain ⟨y, hy⟩ := Multiset.card_pos_iff_exists_mem.mp
      (hcard ▸ Multiset.card_pos_iff_exists_mem.mpr ⟨x, Multiset.mem_cons_self x s⟩)
    have hleft : (x ::ₘ s).map f = Multiset.replicate (x ::ₘ s).card (f y) := by
      refine Multiset.eq_replicate.mpr ⟨Multiset.card_map _ _, ?_⟩
      intro c hc
      obtain ⟨a, ha, rfl⟩ := Multiset.mem_map.mp hc
      exact h a ha y hy
    have hright : t.map f = Multiset.replicate t.card (f y) := by
      refine Multiset.eq_replicate.mpr ⟨Multiset.card_map _ _, ?_⟩
      intro c hc
      obtain ⟨b, hb, rfl⟩ := Multiset.mem_map.mp hc
      have hfirst := h x (Multiset.mem_cons_self x s)
      exact (hfirst b hb).symm.trans (hfirst y hy)
    rw [hleft, hright, hcard]

/-- A clean cut of a sorted list takes what the same cut of any other order takes. -/
theorem CleanCut.take_perm {k : Nat} (hcut : CleanCut key f k l) (hperm : l.Perm l')
    (hsorted : l.Pairwise fun a b => key a ≤ key b)
    (hsorted' : l'.Pairwise fun a b => key a ≤ key b) :
    ((l.take k).map f).Perm ((l'.take k).map f) := by
  classical
  have hsum : ((l.take k : List α) : Multiset α) + (l.drop k : List α) =
      (l'.take k : List α) + (l'.drop k : List α) := by
    rw [Multiset.coe_add, Multiset.coe_add, List.take_append_drop, List.take_append_drop]
    exact Multiset.coe_eq_coe.mpr hperm
  have hcard : ((l.take k : List α) : Multiset α).card =
      ((l'.take k : List α) : Multiset α).card := by
    rw [Multiset.coe_card, Multiset.coe_card, List.length_take, List.length_take,
      hperm.length_eq]
  rw [← List.take_append_drop k l, List.pairwise_append] at hsorted
  rw [← List.take_append_drop k l', List.pairwise_append] at hsorted'
  rw [← Multiset.coe_eq_coe, ← Multiset.map_coe, ← Multiset.map_coe]
  generalize hA : ((l.take k : List α) : Multiset α) = A at hsum hcard
  generalize hA' : ((l'.take k : List α) : Multiset α) = A' at hsum hcard
  -- what only one of the two cuts takes is behind the other one
  have hbehind : A - A' ≤ (l'.drop k : List α) :=
    tsub_le_iff_left.mpr (hsum ▸ Multiset.le_add_right _ _)
  have hbehind' : A' - A ≤ (l.drop k : List α) :=
    tsub_le_iff_left.mpr (hsum ▸ Multiset.le_add_right _ _)
  have hsize : (A - A').card = (A' - A).card := by
    have hleft := congrArg Multiset.card (Multiset.sub_add_inter A A')
    have hright := congrArg Multiset.card (Multiset.sub_add_inter A' A)
    rw [Multiset.card_add] at hleft hright
    rw [Multiset.inter_comm] at hright
    omega
  have hsame : (A - A').map f = (A' - A).map f := by
    refine map_eq_of_forall hsize ?_
    intro a ha b hb
    have hfront : a ∈ l.take k := by
      rw [← Multiset.mem_coe, hA]
      exact Multiset.mem_of_le (Multiset.sub_le_self _ _) ha
    have hfront' : b ∈ l'.take k := by
      rw [← Multiset.mem_coe, hA']
      exact Multiset.mem_of_le (Multiset.sub_le_self _ _) hb
    have hback : b ∈ l.drop k := Multiset.mem_of_le hbehind' hb
    have hback' : a ∈ l'.drop k := Multiset.mem_of_le hbehind ha
    exact hcut a hfront b hback
      (le_antisymm (hsorted.2.2 a hfront b hback) (hsorted'.2.2 b hfront' a hback'))
  calc A.map f = (A - A').map f + (A ∩ A').map f := by
        rw [← Multiset.map_add, Multiset.sub_add_inter]
    _ = (A' - A).map f + (A' ∩ A).map f := by rw [hsame, Multiset.inter_comm]
    _ = A'.map f := by rw [← Multiset.map_add, Multiset.sub_add_inter]

theorem map_trimmed (f : α → γ) (t : Nat) (l : List α) :
    (trimmed t l).map f = trimmed t (l.map f) := by
  rw [trimmed, trimmed, List.map_drop, List.map_take, List.length_map]

/-- Two clean cuts leave the same in between. -/
theorem trimmed_perm {t : Nat} (hshort : 2 * t ≤ l.length) (hlow : CleanCut key id t l)
    (hhigh : CleanCut key id (l.length - t) l) (hperm : l.Perm l')
    (hsorted : l.Pairwise fun a b => key a ≤ key b)
    (hsorted' : l'.Pairwise fun a b => key a ≤ key b) : (trimmed t l).Perm (trimmed t l') := by
  have hlength := hperm.length_eq
  have hsplit : ∀ x : List α, x.length = l.length →
      x.take (l.length - t) = x.take t ++ trimmed t x := by
    intro x hx
    rw [trimmed, hx, ← List.take_append_drop t (x.take (l.length - t)), List.take_take,
      Nat.min_eq_left (by omega), List.drop_append]
    simp
    omega
  have hlong := hhigh.take_perm hperm hsorted hsorted'
  have hstart := hlow.take_perm hperm hsorted hsorted'
  rw [List.map_id, List.map_id] at hlong hstart
  rw [hsplit l rfl, hsplit l' hlength.symm] at hlong
  exact (List.perm_append_left_iff _).mp (hlong.trans (hstart.symm.append_right _))

end Framework
