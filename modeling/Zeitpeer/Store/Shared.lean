import Mathlib.Data.List.Induction
import Zeitpeer.Store.Recent

/-!
# The whole store

Besides the sorted sets the store has hashes, whose fields are set by name. A call either writes
under one key or reads under one key, and what it does or gets depends on what is there.
-/

namespace Zeitpeer

/-- The fields of the hashes, each at most once. -/
abbrev Hashes := HashKey → List (String × F64)

def setField (fields : List (String × F64)) (f : String × F64) : List (String × F64) :=
  fields.filter (fun x => x.1 ≠ f.1) ++ [f]

/-- `hm_set`: the fields are set one after the other, and the others stay. -/
def Hashes.hmSet (hashes : Hashes) (h : HmSet) : Hashes :=
  Function.update hashes h.key (h.fields.foldl setField (hashes h.key))

structure Shared where
  series : Store
  hashes : Hashes

inductive StoreKey where
  | series (key : SeriesKey)
  | hash (key : HashKey)
  deriving DecidableEq, Repr

inductive Contents where
  | series (entries : List Entry)
  | hash (fields : List (String × F64))
  deriving DecidableEq

def Shared.get (m : Shared) : StoreKey → Contents
  | .series key => .series (m.series key)
  | .hash key => .hash (m.hashes key)

inductive StoreWrite where
  | tsAdd (w : TsAdd)
  | hmSet (h : HmSet)
  deriving DecidableEq

def StoreWrite.key : StoreWrite → StoreKey
  | .tsAdd w => .series w.key
  | .hmSet h => .hash h.key

def Shared.write (m : Shared) : StoreWrite → Shared
  | .tsAdd w => { m with series := m.series.tsAdd w }
  | .hmSet h => { m with hashes := m.hashes.hmSet h }

theorem get_write_of_ne (m : Shared) {w : StoreWrite} {key : StoreKey} (hkey : key ≠ w.key) :
    (m.write w).get key = m.get key := by
  cases w with
  | tsAdd w =>
    cases key with
    | series key =>
      have hne : key ≠ w.key := fun h => hkey (congrArg StoreKey.series h)
      exact congrArg Contents.series (tsAdd_of_ne hne)
    | hash key => rfl
  | hmSet h =>
    cases key with
    | series key => rfl
    | hash key =>
      have hne : key ≠ h.key := fun heq => hkey (congrArg StoreKey.hash heq)
      exact congrArg Contents.hash (Function.update_of_ne hne _ _)

private theorem get_write_self {m m' : Shared} (w : StoreWrite)
    (hsame : m.get w.key = m'.get w.key) : (m.write w).get w.key = (m'.write w).get w.key := by
  cases w with
  | tsAdd w =>
    have hseries : m.series w.key = m'.series w.key := Contents.series.inj hsame
    apply congrArg Contents.series
    change m.series.tsAdd w w.key = m'.series.tsAdd w w.key
    rw [Store.tsAdd, Store.tsAdd, Function.update_self, Function.update_self, hseries]
  | hmSet h =>
    have hfields : m.hashes h.key = m'.hashes h.key := Contents.hash.inj hsame
    apply congrArg Contents.hash
    change m.hashes.hmSet h h.key = m'.hashes.hmSet h h.key
    rw [Hashes.hmSet, Hashes.hmSet, Function.update_self, Function.update_self, hfields]

theorem get_write {m m' : Shared} (w : StoreWrite) {key : StoreKey}
    (hsame : m.get key = m'.get key) : (m.write w).get key = (m'.write w).get key := by
  by_cases hkey : key = w.key
  · subst hkey
    exact get_write_self w hsame
  · rw [get_write_of_ne m hkey, get_write_of_ne m' hkey, hsame]

theorem get_writes {m m' : Shared} (ws : List StoreWrite) {key : StoreKey}
    (hsame : m.get key = m'.get key) :
    (ws.foldl Shared.write m).get key = (ws.foldl Shared.write m').get key := by
  induction ws generalizing m m' with
  | nil => exact hsame
  | cons w ws ih => exact ih (get_write w hsame)

theorem get_writes_of_ne {m : Shared} {ws : List StoreWrite} {key : StoreKey}
    (hkey : ∀ w ∈ ws, key ≠ w.key) : (ws.foldl Shared.write m).get key = m.get key := by
  induction ws generalizing m with
  | nil => rfl
  | cons w ws ih =>
    rw [List.foldl_cons, ih fun w hw => hkey w (List.mem_cons_of_mem _ hw)]
    exact get_write_of_ne m (hkey w List.mem_cons_self)

/-- What writes leave under a key is what those under the key leave. -/
theorem get_writes_filter (m : Shared) (ws : List StoreWrite) (key : StoreKey) :
    (ws.foldl Shared.write m).get key =
      ((ws.filter fun w => w.key = key).foldl Shared.write m).get key := by
  induction ws generalizing m with
  | nil => rfl
  | cons w ws ih =>
    rw [List.foldl_cons, ih]
    by_cases hkey : w.key = key
    · rw [List.filter_cons_of_pos (by simpa using hkey), List.foldl_cons]
    · rw [List.filter_cons_of_neg (by simpa using hkey)]
      exact get_writes _ (get_write_of_ne m (Ne.symm hkey))

theorem series_write_of_ne {m : Shared} {w : TsAdd} {key : SeriesKey} (hkey : key ≠ w.key) :
    (m.write (.tsAdd w)).series key = m.series key := tsAdd_of_ne hkey

/-- A first entry stays if it is above the cutoff of its own write. -/
theorem series_write_first {m : Shared} {w : TsAdd} (hnone : m.series w.key = [])
    (hkept : 0 < w.windowNs →
      roundToF64 (saturatingSub w.tsNs w.windowNs).toNat < roundToF64 w.tsNs.toNat) :
    (m.write (.tsAdd w)).series w.key = [⟨roundToF64 w.tsNs.toNat, w.val⟩] := by
  change m.series.tsAdd w w.key = _
  rw [Store.tsAdd, Function.update_self, hnone]
  split
  · rename_i hwindow
    simpa using hkept hwindow
  · rfl

/-- What is in a series after some calls was there before, or one of them has added it. -/
theorem mem_series_writes {ws : List StoreWrite} {m : Shared} {key : SeriesKey} {e : Entry}
    (he : e ∈ (ws.foldl Shared.write m).series key) :
    e ∈ m.series key ∨
      ∃ w, .tsAdd w ∈ ws ∧ w.key = key ∧ e = ⟨roundToF64 w.tsNs.toNat, w.val⟩ := by
  induction ws generalizing m with
  | nil => exact .inl he
  | cons w ws ih =>
    rcases ih he with hold | ⟨w', hw', hrest⟩
    · cases w with
      | hmSet h => exact .inl hold
      | tsAdd w =>
        rcases mem_tsAdd hold with hold | ⟨hkey, hnew⟩
        · exact .inl hold
        · exact .inr ⟨w, List.mem_cons_self, hkey.symm, hnew⟩
    · exact .inr ⟨w', List.mem_cons_of_mem _ hw', hrest⟩

private theorem lookup_cons_ite (fields : List (String × F64)) (field name : String) (val : F64) :
    ((field, val) :: fields).lookup name =
      if name = field then some val else fields.lookup name := by
  by_cases hname : name = field
  · subst hname
    simp
  · rw [List.lookup_cons, beq_false_of_ne hname, if_neg hname]

theorem lookup_setField (fields : List (String × F64)) (field name : String) (val : F64) :
    (setField fields (field, val)).lookup name =
      if name = field then some val else fields.lookup name := by
  induction fields with
  | nil => exact lookup_cons_ite [] field name val
  | cons x fields ih =>
    obtain ⟨field', val'⟩ := x
    simp only [setField] at ih ⊢
    rw [lookup_cons_ite]
    by_cases hx : field' = field
    · subst hx
      rw [List.filter_cons_of_neg (by simp), ih]
      by_cases hname : name = field' <;> simp [hname]
    · rw [List.filter_cons_of_pos (by simpa using hx), List.cons_append, lookup_cons_ite, ih]
      by_cases hname : name = field
      · have hne : name ≠ field' := fun h => hx (h.symm.trans hname)
        rw [if_neg hne, if_pos hname, if_pos hname]
      · rw [if_neg hname, if_neg hname]

private theorem lookup_foldl_setField {fields : List (String × F64)}
    (hnames : (fields.map Prod.fst).Nodup) (old : List (String × F64)) (name : String) :
    (fields.foldl setField old).lookup name = (fields.lookup name).or (old.lookup name) := by
  induction fields generalizing old with
  | nil => rfl
  | cons f fields ih =>
    obtain ⟨field, val⟩ := f
    obtain ⟨hfield, hnames⟩ := List.nodup_cons.mp hnames
    rw [List.foldl_cons, ih hnames, lookup_setField, lookup_cons_ite]
    by_cases hname : name = field
    · subst hname
      have hnone : fields.lookup name = none := by
        rw [List.lookup_eq_none_iff]
        intro f hf
        have hmem : f.1 ∈ fields.map Prod.fst := List.mem_map_of_mem hf
        have hne : name ≠ f.1 := fun heq => hfield (heq ▸ hmem)
        simpa using hne
      rw [if_pos rfl, if_pos rfl, hnone]
      rfl
    · rw [if_neg hname, if_neg hname]

/-- After several calls the last of those that set a field decides. -/
theorem lookup_hmSets {hs : List HmSet} (hnames : ∀ h ∈ hs, (h.fields.map Prod.fst).Nodup)
    (old : List (String × F64)) (name : String) :
    (hs.foldl (fun fields h => h.fields.foldl setField fields) old).lookup name =
      ((hs.filterMap fun h => h.fields.lookup name).getLast?).or (old.lookup name) := by
  induction hs using List.reverseRecOn with
  | nil => rfl
  | append_singleton hs h ih =>
    obtain ⟨hbefore, hlast⟩ := List.forall_mem_append.mp hnames
    rw [List.foldl_concat, lookup_foldl_setField (hlast h (List.mem_singleton_self h)), ih hbefore,
      List.filterMap_append]
    cases hval : h.fields.lookup name with
    | none => simp [hval]
    | some val => simp [hval]

/-- The replies `ts_last` may get: an entry of the highest score, if there is one. -/
def IsLast (entries : List Entry) : Option Entry → Prop
  | none => entries = []
  | some e => e ∈ entries ∧ ∀ x ∈ entries, x.score ≤ e.score

instance (entries : List Entry) : (reply : Option Entry) → Decidable (IsLast entries reply)
  | none => inferInstanceAs (Decidable (entries = []))
  | some _ => inferInstanceAs (Decidable (_ ∧ _))

/-- A call that reads, with its reply. -/
inductive StoreRead where
  | recent (key : SeriesKey) (since : UInt64) (limit : Nat) (reply : List Entry)
  | last (key : SeriesKey) (reply : Option Entry)
  | getAll (key : HashKey) (reply : List (String × F64))

def StoreRead.key : StoreRead → StoreKey
  | .recent key _ _ _ => .series key
  | .last key _ => .series key
  | .getAll key _ => .hash key

def Shared.answers (m : Shared) : StoreRead → Bool
  | .recent key since limit reply => decide (IsRecent (m.series key) since limit reply)
  | .last key reply => decide (IsLast (m.series key) reply)
  | .getAll key reply => decide (m.hashes key = reply)

/-- A reply depends on what is under the key. -/
theorem answers_congr {m m' : Shared} {r : StoreRead} (hsame : m.get r.key = m'.get r.key) :
    m.answers r = m'.answers r := by
  cases r with
  | recent key since limit reply =>
    have hseries : m.series key = m'.series key := Contents.series.inj hsame
    rw [Shared.answers, Shared.answers, hseries]
  | last key reply =>
    have hseries : m.series key = m'.series key := Contents.series.inj hsame
    rw [Shared.answers, Shared.answers, hseries]
  | getAll key reply =>
    have hfields : m.hashes key = m'.hashes key := Contents.hash.inj hsame
    rw [Shared.answers, Shared.answers, hfields]

/-- Another process writes, or entries and fields are lost. -/
inductive SharedDrift where
  | write (w : StoreWrite)
  | lose (key : SeriesKey) (e : Entry)
  | unset (key : HashKey) (field : String)
  deriving DecidableEq

def Shared.drift (m : Shared) : SharedDrift → Option Shared
  | .write w => some (m.write w)
  | .lose key e =>
    some { m with series := Function.update m.series key ((m.series key).erase e) }
  | .unset key field =>
    some { m with
      hashes := Function.update m.hashes key ((m.hashes key).filter fun x => x.1 ≠ field) }

/-- The key that is changed. -/
def SharedDrift.key : SharedDrift → StoreKey
  | .write w => w.key
  | .lose key _ => .series key
  | .unset key _ => .hash key

theorem get_drift_of_ne {m n : Shared} {d : SharedDrift} (hdrift : m.drift d = some n)
    {key : StoreKey} (hkey : key ≠ d.key) : n.get key = m.get key := by
  cases d with
  | write w =>
    obtain rfl := Option.some.inj hdrift
    exact get_write_of_ne m hkey
  | lose lost e =>
    obtain rfl := Option.some.inj hdrift
    cases key with
    | hash key => rfl
    | series key =>
      have hne : key ≠ lost := fun h => hkey (congrArg StoreKey.series h)
      exact congrArg Contents.series (Function.update_of_ne hne _ _)
  | unset unset field =>
    obtain rfl := Option.some.inj hdrift
    cases key with
    | series key => rfl
    | hash key =>
      have hne : key ≠ unset := fun h => hkey (congrArg StoreKey.hash h)
      exact congrArg Contents.hash (Function.update_of_ne hne _ _)

/-- Entries may get lost, and only another process adds some. -/
theorem mem_series_drift {m n : Shared} {d : SharedDrift} (hdrift : m.drift d = some n)
    {key : SeriesKey} (hother : ∀ w : TsAdd, d = .write (.tsAdd w) → w.key ≠ key) {e : Entry}
    (he : e ∈ n.series key) : e ∈ m.series key := by
  cases d with
  | write w =>
    obtain rfl := Option.some.inj hdrift
    cases w with
    | hmSet h => exact he
    | tsAdd w =>
      rcases mem_tsAdd he with hold | ⟨hkey, _⟩
      · exact hold
      · exact absurd hkey.symm (hother w rfl)
  | lose lost gone =>
    obtain rfl := Option.some.inj hdrift
    by_cases hkey : key = lost
    · subst hkey
      apply List.mem_of_mem_erase (b := gone)
      simpa using he
    · simpa [Function.update_of_ne hkey] using he
  | unset unset field =>
    obtain rfl := Option.some.inj hdrift
    exact he

theorem get_drift {m n : Shared} (m' : Shared) {d : SharedDrift}
    (hdrift : m.drift d = some n) :
    ∃ n', m'.drift d = some n' ∧ ∀ key, m.get key = m'.get key → n.get key = n'.get key := by
  cases d with
  | write w =>
    obtain rfl := Option.some.inj hdrift
    exact ⟨_, rfl, fun key hsame => get_write w hsame⟩
  | lose lost e =>
    obtain rfl := Option.some.inj hdrift
    refine ⟨_, rfl, ?_⟩
    intro key hsame
    cases key with
    | hash key => exact hsame
    | series key =>
      have hseries : m.series key = m'.series key := Contents.series.inj hsame
      apply congrArg Contents.series
      by_cases hkey : key = lost
      · subst hkey
        simp only [Function.update_self, hseries]
      · simp only [Function.update_of_ne hkey, hseries]
  | unset unset field =>
    obtain rfl := Option.some.inj hdrift
    refine ⟨_, rfl, ?_⟩
    intro key hsame
    cases key with
    | series key => exact hsame
    | hash key =>
      have hfields : m.hashes key = m'.hashes key := Contents.hash.inj hsame
      apply congrArg Contents.hash
      by_cases hkey : key = unset
      · subst hkey
        simp only [Function.update_self, hfields]
      · simp only [Function.update_of_ne hkey, hfields]

end Zeitpeer
