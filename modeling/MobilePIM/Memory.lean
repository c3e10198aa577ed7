import MobilePIM.Foundation.Backref
import MobilePIM.Foundation.Returns
import MobilePIM.Foundation.Words
import MobilePIM.Machine

/-!
Byte buffers of the vendored compressors. A load or a store outside its buffer is
a fault, and so is a loop that does not end. Their copies write past what counts,
so a buffer is described by what it starts with.
-/

namespace MobilePIM

open Total

inductive Fault
  | load (index : Nat)
  | store (index : Nat)
  | outOfFuel
deriving DecidableEq, Repr

abbrev Access := Except Fault

namespace Memory

def load (bytes : List UInt8) (i n : Nat) : Access (List UInt8) :=
  if i + n ≤ bytes.length then .ok (slice bytes i n) else .error (.load i)

def byte (bytes : List UInt8) (i : Nat) : Access UInt8 :=
  if h : i < bytes.length then .ok bytes[i] else .error (.load i)

def write (bytes : List UInt8) (i : Nat) (src : List UInt8) : Access (List UInt8) :=
  if i + src.length ≤ bytes.length then .ok (overwrite bytes i src) else .error (.store i)

/-- `k` bytes as a word. -/
def readWord (k : Nat) (src : List UInt8) (i : Nat) : Access (BitVec (8 * k)) := do
  let bytes ← load src i k
  pure (Words.le (8 * k) bytes)

/-- `memcpy(dst + d, source + s, n)`. -/
def copyFrom (source dst : List UInt8) (d s n : Nat) : Access (List UInt8) := do
  let bytes ← load source s n
  write dst d bytes

/-- `memcpy(dst + d, dst + s, n)`. -/
def copyWithin (dst : List UInt8) (d s n : Nat) : Access (List UInt8) := copyFrom dst dst d s n

/-- `do { body; d += stride; s += stride; } while (d < e)`. -/
def wildCopy (stride : Nat) (body : List UInt8 → Nat → Nat → Access (List UInt8))
    (dst : List UInt8) (d s e : Nat) : Access (List UInt8) :=
  loop .outOfFuel
    (fun (dst, d, s) => do
      let dst ← body dst d s
      pure (if d + stride < e then .inl (dst, d + stride, s + stride) else .inr dst))
    (e + 1) (dst, d, s)

/-- `while (d < e) dst[d++] = dst[s++]`. -/
def byteCopy (dst : List UInt8) (d s e : Nat) : Access (List UInt8) :=
  loop .outOfFuel
    (fun (dst, d, s) =>
      if d < e then do
        let dst ← copyWithin dst d s 1
        pure (.inl (dst, d + 1, s + 1))
      else pure (.inr dst))
    (e + 1) (dst, d, s)

theorem load_ok {bytes : List UInt8} {i n : Nat} (h : i + n ≤ bytes.length) :
    load bytes i n = .ok (slice bytes i n) := if_pos h

theorem slice_one {bytes : List UInt8} {i : Nat} (h : i < bytes.length) :
    slice bytes i 1 = [bytes[i]] := by
  rw [slice, List.drop_eq_getElem_cons h]
  rfl

/-- Copying bytes to where they are changes nothing. -/
theorem copyWithin_self {dst : List UInt8} {i n : Nat} (h : i + n ≤ dst.length) :
    copyWithin dst i i n = .ok dst := by
  have same : overwrite dst i (slice dst i n) = dst := by
    rw [overwrite, length_slice h, slice, List.append_assoc, ← List.drop_drop,
      List.take_append_drop, List.take_append_drop]
  rw [copyWithin, copyFrom, load_ok h]
  change write dst i (slice dst i n) = _
  rw [write, if_pos (by rw [length_slice h]; exact h), same]

theorem byte_ok {bytes : List UInt8} {i : Nat} (h : i < bytes.length) :
    byte bytes i = .ok bytes[i] := dif_pos h

/-- The upper bits of a product: an index into a hash table. -/
def topBits {w : Nat} (x : BitVec w) (k : Nat) (h : k ≤ w) : Fin (2 ^ k) :=
  ⟨(x >>> (w - k)).toNat, by
    rw [BitVec.toNat_ushiftRight, Nat.shiftRight_eq_div_pow]
    apply Nat.div_lt_of_lt_mul
    rw [← Nat.pow_add, Nat.sub_add_cancel h]
    exact x.isLt⟩

/-- An access outside its buffer, and the reason there is one. -/
def Outside (reason : Prop) (e : Fault) : Prop := e ≠ .outOfFuel ∧ reason

theorem Outside.mono {reason reason' : Prop} (imp : reason → reason') (e : Fault)
    (h : Outside reason e) : Outside reason' e := ⟨h.1, imp h.2⟩

theorem Outside.load {reason : Prop} (i : Nat) (h : reason) : Outside reason (.load i) :=
  ⟨fun same => (by cases same), h⟩

theorem Outside.store {reason : Prop} (i : Nat) (h : reason) : Outside reason (.store i) :=
  ⟨fun same => (by cases same), h⟩

theorem ends_byte (bytes : List UInt8) (i : Nat) :
    Ends (byte bytes i) (fun b => i < bytes.length ∧ bytes[i]? = some b)
      (Outside (bytes.length ≤ i)) := by
  by_cases h : i < bytes.length
  · rw [byte_ok h]
    exact Ends.ok ⟨h, List.getElem?_eq_getElem h⟩
  · rw [byte, dif_neg h]
    exact Ends.error (Outside.load i (Nat.not_lt.mp h))

section Words

variable {src : List UInt8} {p q k : Nat}

theorem readWord_ok (h : p + k ≤ src.length) :
    readWord k src p = .ok (Words.le (8 * k) (slice src p k)) := by
  rw [readWord, load_ok h]
  rfl

theorem readWord_eq_iff (hp : p + k ≤ src.length) (hq : q + k ≤ src.length) :
    Words.le (8 * k) (slice src p k) = Words.le (8 * k) (slice src q k) ↔
      slice src p k = slice src q k :=
  Words.le_eq_iff (by rw [length_slice hp, length_slice hq]) (by rw [length_slice hp])

theorem getElem?_slice {bytes : List UInt8} {i n k : Nat} (h : k < n) :
    (slice bytes i n)[k]? = bytes[i + k]? := by
  rw [slice, List.getElem?_take_of_lt h, List.getElem?_drop]

theorem slice_add (bytes : List UInt8) (i m n : Nat) :
    slice bytes i (m + n) = slice bytes i m ++ slice bytes (i + m) n := by
  simp only [slice, List.take_add, List.drop_drop]

/-- Where two words are equal, the bytes at the two positions agree. -/
theorem getElem?_of_readWord (hp : p + k ≤ src.length) (hq : q + k ≤ src.length)
    (same : Words.le (8 * k) (slice src p k) = Words.le (8 * k) (slice src q k)) (i : Nat)
    (hi : i < k) : src[p + i]? = src[q + i]? := by
  have equal := (readWord_eq_iff hp hq).mp same
  rw [← getElem?_slice hi, ← getElem?_slice hi, equal]

/-- The bits in which two words differ tell how many bytes they have in common. -/
theorem ctz_xor_slice (hp : p + 8 ≤ src.length) (hq : q + 8 ≤ src.length)
    (differ : slice src p 8 ≠ slice src q 8) :
    Words.le 64 (slice src p 8) ^^^ Words.le 64 (slice src q 8) ≠ 0 ∧
      (Words.le 64 (slice src p 8) ^^^ Words.le 64 (slice src q 8)).ctz.toNat / 8 =
        Words.agree (slice src p 8) (slice src q 8) :=
  Words.ctz_xor (by rw [length_slice hp, length_slice hq]) (by rw [length_slice hp]) differ

end Words

/-- A buffer of `cap` bytes that starts with `out`. -/
structure Filled (cap : Nat) (out dst : List UInt8) : Prop where
  length_eq : dst.length = cap
  starts : out <+: dst

namespace Filled

variable {cap n d : Nat} {out out' dst src : List UInt8}

theorem nil (dst : List UInt8) : Filled dst.length [] dst := ⟨rfl, List.nil_prefix⟩

theorem le (h : Filled cap out dst) : out.length ≤ cap := h.length_eq ▸ h.starts.length_le

theorem take_eq (h : Filled cap out dst) : dst.take out.length = out :=
  (List.prefix_iff_eq_take.mp h.starts).symm

theorem shorter (h : Filled cap out' dst) (starts : out <+: out') : Filled cap out dst :=
  ⟨h.length_eq, starts.trans h.starts⟩

theorem getElem? (h : Filled cap out dst) {i : Nat} (hi : i < out.length) : dst[i]? = out[i]? := by
  rw [← h.take_eq, List.getElem?_take_of_lt hi]

theorem slice_eq (h : Filled cap out dst) {i : Nat} (hi : i + n ≤ out.length) :
    slice dst i n = slice out i n := by
  rw [← slice_take dst hi, h.take_eq]

theorem overwrite (h : Filled cap out dst) (room : out.length + src.length ≤ cap) :
    Filled cap (out ++ src) (overwrite dst out.length src) := by
  refine ⟨(length_overwrite (by rw [h.length_eq]; exact room)).trans h.length_eq, ?_⟩
  rw [MobilePIM.overwrite, h.take_eq]
  exact List.prefix_append _ _

theorem write (h : Filled cap out dst) {i : Nat} (at_end : i = out.length)
    (room : out.length + src.length ≤ cap) :
    Returns (write dst i src) (Filled cap (out ++ src)) := by
  subst at_end
  exact Returns.of_eq (if_pos (by rw [h.length_eq]; exact room)) (h.overwrite room)

theorem push (h : Filled cap out dst) {i : Nat} (at_end : i = out.length) (room : i < cap)
    (b : UInt8) : Returns (Memory.write dst i [b]) (Filled cap (out ++ [b])) :=
  h.write at_end (at_end ▸ room)

/-- A store inside what the buffer starts with. -/
theorem patch {pre mid post bytes : List UInt8} (h : Filled cap (pre ++ mid ++ post) dst)
    {i : Nat} (place : i = pre.length) (same : bytes.length = mid.length) :
    Returns (Memory.write dst i bytes) (Filled cap (pre ++ bytes ++ post)) := by
  subst place
  obtain ⟨rest, rfl⟩ := h.starts
  have room : pre.length + bytes.length ≤ (pre ++ mid ++ post ++ rest).length := by
    simp only [List.length_append]
    omega
  refine Returns.of_eq (if_pos room) ⟨(length_overwrite room).trans h.length_eq, rest, ?_⟩
  rw [MobilePIM.overwrite, same]
  simp [List.append_assoc, List.drop_append]

theorem copyFrom (h : Filled cap out dst) {i s : Nat} (at_end : i = out.length)
    (inside : s + n ≤ src.length) (room : out.length + n ≤ cap) :
    Returns (copyFrom src dst i s n) (Filled cap (out ++ slice src s n)) := by
  refine Returns.bind (returns_eq (load_ok inside)) ?_
  rintro _ rfl
  exact h.write at_end (by rw [length_slice inside]; exact room)

theorem ends_copyFrom (h : Filled cap out dst) {i s : Nat} (at_end : i = out.length) :
    Ends (Memory.copyFrom src dst i s n)
      (fun dst' => s + n ≤ src.length ∧ Filled cap (out ++ slice src s n) dst')
      (Outside (src.length < s + n ∨ cap < out.length + n)) := by
  by_cases inside : s + n ≤ src.length
  · by_cases room : out.length + n ≤ cap
    · have copied := h.copyFrom at_end inside room
      exact copied.ends.mono (fun _ filled => ⟨inside, filled⟩) fun _ => id
    · have exceeds : ¬i + (slice src s n).length ≤ dst.length := by
        rw [at_end, h.length_eq, length_slice inside]
        exact room
      rw [Memory.copyFrom, load_ok inside]
      change Ends (Memory.write dst i (slice src s n)) _ _
      rw [Memory.write, if_neg exceeds]
      exact Ends.error (Outside.store i (Or.inr (Nat.not_le.mp room)))
  · rw [Memory.copyFrom, load, if_neg inside]
    exact Ends.error (Outside.load s (Or.inl (Nat.not_le.mp inside)))

/-- A block copy inside the buffer that ends before it starts to write. -/
theorem copyWithin (h : Filled cap out dst) {i s : Nat} (at_end : i = out.length)
    (place : s + d = out.length) (near : n ≤ d) (room : out.length + n ≤ cap) :
    Returns (copyWithin dst i s n) (Filled cap (Backref.copy out d n)) := by
  have back : d ≤ out.length := by omega
  have inside : s + n ≤ out.length := by omega
  have block := h.copyFrom at_end (inside.trans h.starts.length_le) room
  rw [h.slice_eq inside] at block
  rw [Backref.copy_of_le near back, show out.length - d = s by omega]
  exact block

end Filled

/-- `written n` is what the buffer starts with after `n` bytes; it has to grow. -/
theorem returns_wildCopy {cap stride op s e : Nat} (positive : 0 < stride)
    {body : List UInt8 → Nat → Nat → Access (List UInt8)} {dst : List UInt8}
    (written : Nat → List UInt8) (grows : ∀ m n, m ≤ n → written m <+: written n)
    (step : ∀ n dst, n = 0 ∨ op + n < e → stride ∣ n → Filled cap (written n) dst →
      Returns (body dst (op + n) (s + n)) (Filled cap (written (n + stride))))
    (start : Filled cap (written 0) dst) :
    Returns (wildCopy stride body dst op s e) (Filled cap (written (e - op))) := by
  refine Returns.loop
    (fun (dst, d, s') => ∃ n, (n = 0 ∨ op + n < e) ∧ stride ∣ n ∧ d = op + n ∧ s' = s + n ∧
      Filled cap (written n) dst)
    (fun (_, d, _) => e - d) ?_ ⟨0, Or.inl rfl, Nat.dvd_zero _, rfl, rfl, start⟩
    (by simp only; omega)
  rintro ⟨dst, d, s'⟩ ⟨n, before, multiple, rfl, rfl, filled⟩
  refine Returns.bind (step n dst before multiple filled) ?_
  intro dst' filled'
  by_cases more : op + n + stride < e
  · rw [if_pos more]
    exact Returns.ok ⟨⟨n + stride, Or.inr (by omega), Nat.dvd_add multiple (Nat.dvd_refl _),
      by omega, by omega, filled'⟩, by simp only; omega⟩
  · rw [if_neg more]
    exact Returns.ok (filled'.shorter (grows _ _ (by omega)))

theorem prefix_copy (out : List UInt8) (d : Nat) {m n : Nat} (h : m ≤ n) :
    Backref.copy out d m <+: Backref.copy out d n := by
  rw [← Backref.take_copy out d h]
  exact List.take_prefix _ _

theorem prefix_slice (out src : List UInt8) (s : Nat) {m n : Nat} (h : m ≤ n) :
    out ++ slice src s m <+: out ++ slice src s n := by
  rw [List.prefix_append_right_inj, slice, slice]
  exact List.take_prefix_take_left h

/-- The byte loop copies like a reference, whatever its distance. -/
theorem returns_byteCopy {cap d op s e : Nat} {out dst : List UInt8}
    (filled : Filled cap out dst) (at_end : op = out.length) (place : s + d = out.length)
    (positive : 0 < d) (room : e ≤ cap) :
    Returns (byteCopy dst op s e) (Filled cap (Backref.copy out d (e - op))) := by
  refine Returns.loop
    (fun (dst, d', s') => ∃ n ≤ e - op, d' = op + n ∧ s' = s + n ∧
      Filled cap (Backref.copy out d n) dst)
    (fun (_, d', _) => e - d') ?_ ⟨0, Nat.zero_le _, rfl, rfl, filled⟩ (by simp only; omega)
  rintro ⟨dst, d', s'⟩ ⟨n, before, rfl, rfl, filled⟩
  by_cases more : op + n < e
  · simp only [if_pos more]
    have step := filled.copyWithin (i := op + n) (s := s + n) (d := d) (n := 1)
      (by simp; omega) (by simp; omega) positive (by simp; omega)
    refine Returns.bind step ?_
    intro dst' filled'
    rw [← Backref.copy_add] at filled'
    exact Returns.ok ⟨⟨n + 1, by omega, rfl, rfl, filled'⟩, by simp only; omega⟩
  · simp only [if_neg more]
    have whole : n = e - op := by omega
    exact Returns.ok (whole ▸ filled)

end Memory

end MobilePIM
