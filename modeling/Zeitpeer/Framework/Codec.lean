import Mathlib.Data.List.TakeDrop
import Mathlib.Tactic.Linarith
import Mathlib.Tactic.Ring

/-!
# Fixed-width byte codecs

A codec of a fixed width carries its own laws: what it writes has that width, it reads back
what it wrote whatever follows, and it rejects every shorter input. Little-endian integers
and byte arrays are codecs, and codecs compose field by field, so a record laid out from them
has the laws without a proof of its own.
-/

namespace Framework

universe u v

/-- Little-endian bytes of a number, lowest first. -/
def leBytes : Nat → Nat → List UInt8
  | 0, _ => []
  | w + 1, n => UInt8.ofNat (n % 256) :: leBytes w (n / 256)

/-- The number a little-endian byte string stands for. -/
def ofLeBytes : List UInt8 → Nat
  | [] => 0
  | b :: bs => b.toNat + 256 * ofLeBytes bs

@[simp] theorem length_leBytes (w n : Nat) : (leBytes w n).length = w := by
  induction w generalizing n with
  | zero => rfl
  | succ w ih => simp [leBytes, ih]

theorem ofLeBytes_leBytes {w n : Nat} (hn : n < 256 ^ w) : ofLeBytes (leBytes w n) = n := by
  induction w generalizing n with
  | zero => simp at hn; simp [leBytes, ofLeBytes, hn]
  | succ w ih =>
    have hquot : n / 256 < 256 ^ w := by
      rw [pow_succ] at hn
      omega
    have hbyte : (UInt8.ofNat (n % 256)).toNat = n % 256 := by
      rw [UInt8.toNat_ofNat']
      omega
    rw [leBytes, ofLeBytes, ih hquot, hbyte]
    omega

/-- Big-endian bytes of a number, highest first. -/
def beBytes (w n : Nat) : List UInt8 := (leBytes w n).reverse

def ofBeBytes (bs : List UInt8) : Nat := ofLeBytes bs.reverse

@[simp] theorem length_beBytes (w n : Nat) : (beBytes w n).length = w := by
  rw [beBytes, List.length_reverse, length_leBytes]

theorem ofBeBytes_beBytes {w n : Nat} (hn : n < 256 ^ w) : ofBeBytes (beBytes w n) = n := by
  rw [beBytes, ofBeBytes, List.reverse_reverse, ofLeBytes_leBytes hn]

theorem ofLeBytes_append (xs ys : List UInt8) :
    ofLeBytes (xs ++ ys) = ofLeBytes xs + 256 ^ xs.length * ofLeBytes ys := by
  induction xs with
  | nil => simp [ofLeBytes]
  | cons b xs ih =>
    rw [List.cons_append, ofLeBytes, ofLeBytes, ih, List.length_cons, pow_succ]
    ring

theorem ofLeBytes_lt (bs : List UInt8) : ofLeBytes bs < 256 ^ bs.length := by
  induction bs with
  | nil => simp [ofLeBytes]
  | cons b bs ih =>
    have hb := b.toNat_lt
    rw [ofLeBytes, List.length_cons, pow_succ]
    omega

theorem ofLeBytes_eq_zero {bs : List UInt8} (h : ofLeBytes bs = 0) :
    bs = List.replicate bs.length 0 := by
  induction bs with
  | nil => rfl
  | cons b bs ih =>
    rw [ofLeBytes] at h
    have hb : b = 0 := UInt8.toNat_inj.mp (by simpa using (by omega : b.toNat = 0))
    rw [List.length_cons, List.replicate_succ, ← ih (by omega), hb]

theorem ofBeBytes_append (xs ys : List UInt8) :
    ofBeBytes (xs ++ ys) = ofBeBytes xs * 256 ^ ys.length + ofBeBytes ys := by
  rw [ofBeBytes, List.reverse_append, ofLeBytes_append, List.length_reverse, ofBeBytes, ofBeBytes]
  ring

theorem ofBeBytes_lt (bs : List UInt8) : ofBeBytes bs < 256 ^ bs.length := by
  have h := ofLeBytes_lt bs.reverse
  rwa [List.length_reverse] at h

theorem ofBeBytes_eq_zero {bs : List UInt8} (h : ofBeBytes bs = 0) :
    bs = List.replicate bs.length 0 := by
  have hreverse := ofLeBytes_eq_zero h
  rw [List.length_reverse] at hreverse
  rw [← List.reverse_reverse bs, hreverse, List.reverse_replicate, List.length_replicate]

/-- A codec that writes and reads `width` bytes for every value. -/
structure Codec (α : Type u) where
  width : Nat
  encode : α → List UInt8
  decode : List UInt8 → Option (α × List UInt8)
  length_encode : ∀ a, (encode a).length = width
  decode_encode : ∀ a rest, decode (encode a ++ rest) = some (a, rest)
  decode_length : ∀ bytes a rest, decode bytes = some (a, rest) →
    bytes.length = width + rest.length

namespace Codec

variable {α : Type u} {β : Type v}

/-- Every input shorter than the width is rejected. -/
theorem decode_short (c : Codec α) {bytes : List UInt8} (hshort : bytes.length < c.width) :
    c.decode bytes = none := by
  cases hdec : c.decode bytes with
  | none => rfl
  | some p =>
    have hlen := c.decode_length bytes p.1 p.2 hdec
    omega

/-- An unsigned integer of `w` bytes, given by inverse maps to the naturals below `256 ^ w`. -/
def unsigned (w : Nat) (toNat : α → Nat) (ofNat : Nat → α)
    (hrange : ∀ a, toNat a < 256 ^ w) (hinv : ∀ a, ofNat (toNat a) = a) : Codec α where
  width := w
  encode a := leBytes w (toNat a)
  decode bytes :=
    if bytes.length < w then none else some (ofNat (ofLeBytes (bytes.take w)), bytes.drop w)
  length_encode a := length_leBytes w (toNat a)
  decode_encode a rest := by
    have htake : (leBytes w (toNat a) ++ rest).take w = leBytes w (toNat a) :=
      List.take_left' (length_leBytes w _)
    have hdrop : (leBytes w (toNat a) ++ rest).drop w = rest :=
      List.drop_left' (length_leBytes w _)
    rw [if_neg (by simp), htake, hdrop, ofLeBytes_leBytes (hrange a), hinv]
  decode_length bytes a rest hdec := by
    split at hdec
    · simp at hdec
    · obtain ⟨_, rfl⟩ := Prod.mk.inj (Option.some.inj hdec)
      rw [List.length_drop]
      omega

def u8 : Codec UInt8 :=
  unsigned 1 UInt8.toNat UInt8.ofNat (fun a => a.toNat_lt) fun _ => UInt8.ofNat_toNat

def u32 : Codec UInt32 :=
  unsigned 4 UInt32.toNat UInt32.ofNat (fun a => a.toNat_lt) fun _ => UInt32.ofNat_toNat

def u64 : Codec UInt64 :=
  unsigned 8 UInt64.toNat UInt64.ofNat (fun a => a.toNat_lt) fun _ => UInt64.ofNat_toNat

/-- A byte array of known length, written without a length prefix. -/
def array (n : Nat) : Codec (Vector UInt8 n) where
  width := n
  encode a := a.toList
  decode bytes :=
    if h : n ≤ bytes.length then
      some (⟨(bytes.take n).toArray, by simpa using h⟩, bytes.drop n)
    else none
  length_encode a := by simp
  decode_encode a rest := by
    have hlen : a.toList.length = n := by simp
    have htake : (a.toList ++ rest).take n = a.toList := List.take_left' hlen
    have hdrop : (a.toList ++ rest).drop n = rest := List.drop_left' hlen
    rw [dif_pos (by simp)]
    simp only [htake, hdrop, Option.some.injEq, Prod.mk.injEq, and_true]
    exact Vector.toArray_inj.mp rfl
  decode_length bytes a rest hdec := by
    split at hdec
    · obtain ⟨_, rfl⟩ := Prod.mk.inj (Option.some.inj hdec)
      rw [List.length_drop]
      omega
    · simp at hdec

/-- One field after another. -/
def pair (first : Codec α) (second : Codec β) : Codec (α × β) where
  width := first.width + second.width
  encode p := first.encode p.1 ++ second.encode p.2
  decode bytes :=
    (first.decode bytes).bind fun p =>
      (second.decode p.2).map fun q => ((p.1, q.1), q.2)
  length_encode p := by simp [first.length_encode, second.length_encode]
  decode_encode p rest := by
    simp [List.append_assoc, first.decode_encode, second.decode_encode]
  decode_length bytes a rest hdec := by
    obtain ⟨p, hfirst, hrest⟩ := Option.bind_eq_some_iff.mp hdec
    obtain ⟨q, hsecond, hpair⟩ := Option.map_eq_some_iff.mp hrest
    obtain ⟨_, rfl⟩ := Prod.mk.inj hpair
    rw [first.decode_length bytes p.1 p.2 hfirst, second.decode_length p.2 q.1 q.2 hsecond]
    omega

/-- A record with the layout of another type. -/
def record (c : Codec α) (build : α → β) (fields : β → α) (hinv : ∀ b, build (fields b) = b) :
    Codec β where
  width := c.width
  encode b := c.encode (fields b)
  decode bytes := (c.decode bytes).map fun p => (build p.1, p.2)
  length_encode b := c.length_encode (fields b)
  decode_encode b rest := by simp [c.decode_encode, hinv]
  decode_length bytes b rest hdec := by
    obtain ⟨p, hfields, hpair⟩ := Option.map_eq_some_iff.mp hdec
    obtain ⟨_, rfl⟩ := Prod.mk.inj hpair
    exact c.decode_length bytes p.1 p.2 hfields

end Codec
end Framework
