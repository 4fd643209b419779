import Mathlib.Data.List.Basic

/-!
# Logs whose entries cut earlier ones

Every entry of a log may cut itself and earlier ones. What is kept of a log is what no entry
from its own place on cuts. An entry that takes its place at once and cuts only later leaves
what it would have left by cutting at once, had it come after the entries that it cuts.
-/

namespace Framework

universe u v

variable {α : Type u} {β : Type v}

/-- The entries that neither they nor later ones cut. -/
def kept (cuts : α → α → Bool) : List α → List α
  | [] => []
  | a :: l => (if (a :: l).any (cuts · a) then [] else [a]) ++ kept cuts l

variable {cuts : α → α → Bool} {l m : List α} {a : α}

private theorem kept_cons_of_cut (h : (a :: l).any (cuts · a) = true) :
    kept cuts (a :: l) = kept cuts l := by
  rw [kept, if_pos h, List.nil_append]

private theorem kept_cons_of_uncut (h : (a :: l).any (cuts · a) = false) :
    kept cuts (a :: l) = a :: kept cuts l := by
  rw [kept, if_neg (Bool.eq_false_iff.mp h), List.singleton_append]

theorem mem_of_mem_kept (h : a ∈ kept cuts l) : a ∈ l := by
  induction l with
  | nil => exact h
  | cons c l ih =>
    rw [kept, List.mem_append] at h
    rcases h with hhead | htail
    · split at hhead
      · exact absurd hhead List.not_mem_nil
      · rw [List.mem_singleton.mp hhead]
        exact List.mem_cons_self
    · exact List.mem_cons_of_mem c (ih htail)

/-- What comes later cuts what was kept. -/
theorem kept_append :
    kept cuts (l ++ m) = (kept cuts l).filter (fun a => !m.any (cuts · a)) ++ kept cuts m := by
  induction l with
  | nil => rfl
  | cons a l ih =>
    rw [List.cons_append, kept, kept, ih, List.filter_append, List.append_assoc, ← List.cons_append,
      List.any_append]
    congr 1
    by_cases hearly : (a :: l).any (cuts · a) = true
    · simp [hearly]
    · by_cases hlate : m.any (cuts · a) = true <;> simp [hearly, hlate]

theorem mem_kept : a ∈ kept cuts l ↔
    ∃ before later, l = before ++ a :: later ∧ ∀ b ∈ a :: later, cuts b a = false := by
  constructor
  · intro ha
    induction l with
    | nil => exact absurd ha List.not_mem_nil
    | cons c l ih =>
      rw [kept, List.mem_append] at ha
      rcases ha with hhead | htail
      · split at hhead
        · exact absurd hhead List.not_mem_nil
        · rename_i huncut
          obtain rfl := List.mem_singleton.mp hhead
          exact ⟨[], l, rfl, by simpa using huncut⟩
      · obtain ⟨before, later, rfl, huncut⟩ := ih htail
        exact ⟨c :: before, later, rfl, huncut⟩
  · rintro ⟨before, later, rfl, huncut⟩
    have hhead : (a :: later).any (cuts · a) = false := by simpa using huncut
    rw [kept_append, kept_cons_of_uncut hhead]
    simp

theorem kept_map (f : β → α) (l : List β) :
    kept cuts (l.map f) = (kept (fun x y => cuts (f x) (f y)) l).map f := by
  induction l with
  | nil => rfl
  | cons x l ih =>
    rw [List.map_cons, kept, kept, ih, List.map_append, ← List.map_cons, List.any_map,
      apply_ite (List.map f)]
    rfl

section Kinds

variable {p : α → Bool}

private theorem any_cuts_filter (hkind : ∀ a b, cuts a b = true → p b = true → p a = true)
    (ha : p a = true) : (l.filter p).any (cuts · a) = l.any (cuts · a) := by
  rw [List.any_filter]
  apply List.any_congr rfl
  intro b
  rw [Bool.and_eq_right_iff_imp]
  intro hcut
  exact hkind b a hcut ha

theorem filter_kept (hkind : ∀ a b, cuts a b = true → p b = true → p a = true) :
    (kept cuts l).filter p = kept cuts (l.filter p) := by
  induction l with
  | nil => rfl
  | cons a l ih =>
    rw [kept, List.filter_append, ih]
    by_cases hp : p a = true
    · have hcutters := any_cuts_filter (l := a :: l) hkind hp
      rw [List.filter_cons_of_pos hp] at hcutters ⊢
      rw [kept, hcutters]
      congr 1
      split
      · rfl
      · rw [List.filter_cons_of_pos hp, List.filter_nil]
    · rw [List.filter_cons_of_neg hp]
      split <;> simp [hp]

end Kinds

section Deferred

variable {c opened : α} {f : α → β}

/-- `opened` takes the place of `c` and cuts nothing. That `c` cuts after the entries of `m` is as
if it had come after those of them that it cuts, and before the others. -/
theorem kept_deferred (hlow : ∀ a b, cuts c a = true → cuts a b = true → cuts c b = true)
    (hopened : ∀ a, cuts opened a = false) (hsame : ∀ a, cuts a opened = cuts a c)
    (hf : f opened = f c) :
    (kept cuts (l ++ (m.filter (cuts c) ++ c :: m.filter (!cuts c ·)))).map f =
      ((kept cuts (l ++ opened :: m)).filter (!cuts c ·)).map f := by
  have hkind : ∀ a b, cuts a b = true → (!cuts c b) = true → (!cuts c a) = true := by
    intro a b hab hb
    by_contra ha
    rw [Bool.not_eq_true', Bool.not_eq_false] at ha
    rw [hlow a b ha hab] at hb
    contradiction
  -- nothing that `c` cuts is kept before it
  have hlower : (kept cuts (m.filter (cuts c))).filter
      (fun a => !(c :: m.filter (!cuts c ·)).any (cuts · a)) = [] := by
    rw [List.filter_eq_nil_iff]
    intro a ha
    have hcut := (List.mem_filter.mp (mem_of_mem_kept ha)).2
    simp [hcut]
  have hearlier : (kept cuts l).filter
      (fun a => !(m.filter (cuts c) ++ c :: m.filter (!cuts c ·)).any (cuts · a)) =
      ((kept cuts l).filter fun a => !(opened :: m).any (cuts · a)).filter (!cuts c ·) := by
    rw [List.filter_filter]
    apply List.filter_congr
    intro a _
    have hparts := (List.filter_append_perm (cuts c) m).any_eq (f := (cuts · a))
    rw [List.any_append] at hparts
    rw [List.any_append, List.any_cons, List.any_cons, hopened a, Bool.false_or, ← hparts]
    cases cuts c a <;> simp
  have hlater : (kept cuts (c :: m.filter (!cuts c ·))).map f =
      ((kept cuts (opened :: m)).filter (!cuts c ·)).map f := by
    have hcutters : (opened :: m).any (cuts · opened) = m.any (cuts · c) := by
      simp [hopened, hsame]
    by_cases hself : cuts c c = true
    · rw [kept_cons_of_cut (by simp [hself]), ← filter_kept hkind, kept, List.filter_append]
      split <;> simp [hsame, hself]
    · rw [Bool.not_eq_true] at hself
      have hhigher : (c :: m.filter (!cuts c ·)).any (cuts · c) = m.any (cuts · c) := by
        rw [List.any_cons, hself, Bool.false_or, any_cuts_filter hkind (by simp [hself])]
      rw [kept, kept, hcutters, hhigher, List.filter_append, filter_kept hkind]
      split <;> simp [hsame, hself, hf]
  rw [kept_append, kept_append, kept_append, hlower, hearlier, List.nil_append, List.filter_append,
    List.map_append, List.map_append, hlater]

end Deferred

end Framework
