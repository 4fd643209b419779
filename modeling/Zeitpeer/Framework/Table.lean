import Mathlib.Data.List.AList
import Mathlib.Data.Multiset.AddSub

/-!
# Keyed tables and what leaves them

Mathlib's association lists with distinct keys, read as a table whose contents are a multiset
of entries. Each operation is accounted for exactly: inserting under a fresh key adds one
entry, removing a key takes out the entry that was looked up, and retaining splits the table
into what stays and what is evicted.
-/

namespace Framework

universe u v

abbrev Table (K : Type u) (V : Type v) := AList fun _ : K => V

namespace Table

variable {K : Type u} {V : Type v}

abbrev Entry (K : Type u) (V : Type v) := Sigma fun _ : K => V

/-- The contents of a table without their order. -/
def contents (t : Table K V) : Multiset (Entry K V) := (t.entries : Multiset (Entry K V))

/-- Keep the entries that pass a test. -/
def retain (keep : K → V → Bool) (t : Table K V) : Table K V :=
  ⟨t.entries.filter fun e => keep e.1 e.2, t.nodupKeys.sublist List.filter_sublist⟩

/-- The entries a `retain` drops, in table order. -/
def evicted (keep : K → V → Bool) (t : Table K V) : List (Entry K V) :=
  t.entries.filter fun e => !keep e.1 e.2

theorem retain_add_evicted (keep : K → V → Bool) (t : Table K V) :
    contents (retain keep t) + (evicted keep t : Multiset (Entry K V)) = contents t := by
  simp only [contents, retain, evicted, Multiset.coe_add, Multiset.coe_eq_coe]
  exact List.filter_append_perm _ _

theorem mem_evicted {keep : K → V → Bool} {t : Table K V} {e : Entry K V} :
    e ∈ evicted keep t ↔ e ∈ t.entries ∧ keep e.1 e.2 = false := by
  simp [evicted]

variable [DecidableEq K]

theorem mem_contents {t : Table K V} {k : K} {v : V} :
    (⟨k, v⟩ : Entry K V) ∈ contents t ↔ t.lookup k = some v := by
  rw [contents, Multiset.mem_coe, ← AList.mem_lookup_iff, Option.mem_def]

/-- Removing a key takes out exactly the entry found under it. -/
theorem contents_erase {t : Table K V} {k : K} {v : V} (hv : t.lookup k = some v) :
    contents t = ⟨k, v⟩ ::ₘ contents (t.erase k) := by
  have hkey : k ∈ t.entries.keys := AList.mem_keys.mp (AList.lookup_isSome.mp (by simp [hv]))
  obtain ⟨w, before, rest, hnot, hentries, herase⟩ := List.exists_of_kerase hkey
  have hw : w = v := by
    have hmem : (⟨k, w⟩ : Entry K V) ∈ t.entries := by simp [hentries]
    have hlook := AList.mem_lookup_iff.mpr hmem
    rw [Option.mem_def, hv] at hlook
    exact (Option.some.inj hlook).symm
  subst w
  rw [contents, contents, Multiset.cons_coe, Multiset.coe_eq_coe, hentries]
  change List.Perm _ (⟨k, v⟩ :: List.kerase k t.entries)
  rw [herase]
  exact List.perm_middle

/-- Inserting replaces whatever stood under the key. -/
theorem contents_insert (t : Table K V) (k : K) (v : V) :
    contents (t.insert k v) = ⟨k, v⟩ ::ₘ contents (t.erase k) := by
  rw [contents, contents, Multiset.cons_coe, AList.entries_insert]
  rfl

theorem contents_insert_fresh {t : Table K V} {k : K} (v : V) (hk : t.lookup k = none) :
    contents (t.insert k v) = ⟨k, v⟩ ::ₘ contents t := by
  rw [contents, contents, Multiset.cons_coe,
    AList.entries_insert_of_notMem (AList.lookup_eq_none.mp hk)]

/-- What is found after a removal was there before. -/
theorem lookup_of_erase {t : Table K V} {k k' : K} {v : V} (h : (t.erase k').lookup k = some v) :
    t.lookup k = some v := by
  by_cases hk : k = k'
  · subst hk
    rw [AList.lookup_erase] at h
    contradiction
  · rwa [AList.lookup_erase_ne hk] at h

theorem lookup_of_retain {keep : K → V → Bool} {t : Table K V} {k : K} {v : V}
    (h : (retain keep t).lookup k = some v) : t.lookup k = some v := by
  have hmem := AList.mem_lookup_iff.mp (Option.mem_def.mpr h)
  exact AList.mem_lookup_iff.mpr (List.mem_filter.mp hmem).1

end Table
end Framework
