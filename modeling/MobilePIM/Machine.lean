import Mathlib.Data.List.Basic
import Mathlib.Algebra.Order.Group.Nat

/-!
What the simulators share with the machine they run on. Integer arithmetic is
that of the shipped x86-64 build: it wraps. An access outside an object has no
meaning there and ends the run, as a division by zero and an early return do.
-/

namespace MobilePIM

/-- The objects whose bounds the program relies on. -/
inductive Region
  | slotHeap | slotBuf | pageBuf | dataPages | targetVector | topBases | dataBuffer
deriving DecidableEq, Repr

/-- Ways in which a run ends before its function returns a result; `library` is an access of a
vendored library outside the buffers it was given. -/
inductive Stop
  | badRead (region : Region) (index : Nat)
  | badStore (region : Region) (index : Nat)
  | divideByZero
  | library
  | errorReturn (message : String)
deriving DecidableEq, Repr

abbrev Run := Except Stop

theorem bind_eq_ok {α β : Type} {m : Run α} {f : α → Run β} {b : β} :
    m >>= f = .ok b ↔ ∃ a, m = .ok a ∧ f a = .ok b := by
  cases m with
  | error stop => exact iff_of_false (by rintro ⟨⟩) (by rintro ⟨_, ⟨⟩, _⟩)
  | ok a =>
      constructor
      · exact fun h => ⟨a, rfl, h⟩
      · rintro ⟨_, ⟨⟩, h⟩
        exact h

/-- The contents of fresh memory are indeterminate; zeros stand for them. -/
def malloc (n : Nat) : List UInt8 := List.replicate n 0

@[simp] theorem length_malloc (n : Nat) : (malloc n).length = n := List.length_replicate

def slice (bytes : List UInt8) (off n : Nat) : List UInt8 := (bytes.drop off).take n

def overwrite (dst : List UInt8) (off : Nat) (src : List UInt8) : List UInt8 :=
  dst.take off ++ src ++ dst.drop (off + src.length)

theorem length_overwrite {dst src : List UInt8} {off : Nat} (h : off + src.length ≤ dst.length) :
    (overwrite dst off src).length = dst.length := by
  simp [overwrite]; omega

theorem take_overwrite (dst : List UInt8) (off : Nat) (src : List UInt8) (h : off ≤ dst.length) :
    (overwrite dst off src).take (off + src.length) = dst.take off ++ src := by
  have filled : (dst.take off ++ src).length = off + src.length := by simp; omega
  rw [overwrite, ← filled]
  exact List.take_left

theorem length_slice {bytes : List UInt8} {off n : Nat} (h : off + n ≤ bytes.length) :
    (slice bytes off n).length = n := by
  simp [slice]; omega

/-- A slice inside the first `k` bytes depends on those bytes only. -/
theorem slice_take (bytes : List UInt8) {off n k : Nat} (h : off + n ≤ k) :
    slice (bytes.take k) off n = slice bytes off n := by
  simp only [slice, List.drop_take, List.take_take]
  rw [Nat.min_eq_left (by omega)]

theorem slice_append (pre mid post : List UInt8) :
    slice (pre ++ mid ++ post) pre.length mid.length = mid := by
  simp [slice]

/-- `memcpy` of `n` bytes, both ranges checked against their objects. -/
def memcpy (dstRegion : Region) (dst : List UInt8) (dstOff : Nat)
    (srcRegion : Region) (src : List UInt8) (srcOff n : Nat) :
    Run {bytes : List UInt8 // bytes.length = dst.length} :=
  if hs : srcOff + n ≤ src.length then
    if hd : dstOff + n ≤ dst.length then
      .ok ⟨overwrite dst dstOff (slice src srcOff n),
        length_overwrite (by rw [length_slice hs]; exact hd)⟩
    else .error (.badStore dstRegion dst.length)
  else .error (.badRead srcRegion src.length)

theorem memcpy_ok (dstRegion : Region) (dst : List UInt8) (dstOff : Nat) (srcRegion : Region)
    (src : List UInt8) (srcOff : Nat) {n : Nat} (hs : srcOff + n ≤ src.length)
    (hd : dstOff + n ≤ dst.length) :
    ∃ h, memcpy dstRegion dst dstOff srcRegion src srcOff n =
      .ok ⟨overwrite dst dstOff (slice src srcOff n), h⟩ :=
  ⟨_, by rw [memcpy, dif_pos hs, dif_pos hd]⟩

theorem overwrite_append (dst : List UInt8) (off : Nat) (src src' : List UInt8)
    (h : off ≤ dst.length) :
    overwrite (overwrite dst off src) (off + src.length) src' =
      overwrite dst off (src ++ src') := by
  have filled : (dst.take off ++ src).length = off + src.length := by simp; omega
  have rest : (overwrite dst off src).drop (off + src.length + src'.length) =
      dst.drop (off + (src ++ src').length) := by
    rw [overwrite, List.drop_append, List.drop_eq_nil_of_le (by rw [filled]; omega),
      List.nil_append, List.drop_drop, filled, List.length_append]
    congr 1
    omega
  rw [overwrite, rest, take_overwrite dst off src h]
  simp [overwrite]

theorem overwrite_whole {dst src : List UInt8} (h : src.length = dst.length) :
    overwrite dst 0 src = src := by
  simp [overwrite, h]

/-- `bytes[index] = byte`, the index checked against the object. -/
def store (region : Region) (bytes : List UInt8) (index : Nat) (byte : UInt8) :
    Run (List UInt8) :=
  if index < bytes.length then .ok (bytes.set index byte) else .error (.badStore region index)

theorem set_eq_overwrite {bytes : List UInt8} {index : Nat} (h : index < bytes.length)
    (byte : UInt8) : bytes.set index byte = overwrite bytes index [byte] := by
  rw [List.set_eq_take_append_cons_drop, if_pos h, overwrite]
  simp

theorem store_ok {region : Region} {bytes : List UInt8} {index : Nat} {byte : UInt8}
    (h : index < bytes.length) :
    store region bytes index byte = .ok (overwrite bytes index [byte]) := by
  rw [store, if_pos h, set_eq_overwrite h]

theorem store_error {region : Region} {bytes : List UInt8} {index : Nat} {byte : UInt8}
    (h : bytes.length ≤ index) : store region bytes index byte = .error (.badStore region index) :=
  if_neg (Nat.not_lt.mpr h)

theorem foldlM_range_succ {σ : Type*} (f : σ → Nat → Run σ) (s : σ) (m : Nat) :
    (List.range (m + 1)).foldlM f s = (List.range m).foldlM f s >>= fun s' => f s' m := by
  rw [List.range_succ, List.foldlM_append]
  simp

/-- What holds at first and is kept by every turn holds after a loop over `0 .. n - 1`. -/
theorem foldlM_range_induction {σ : Type*} {f : σ → Nat → Run σ} {s : σ} (p : Nat → σ → Prop)
    (first : p 0 s) (turn : ∀ m st st', p m st → f st m = .ok st' → p (m + 1) st') {n : Nat}
    {st : σ} (run : (List.range n).foldlM f s = .ok st) : p n st := by
  induction n generalizing st with
  | zero =>
      cases run
      exact first
  | succ n ih =>
      rw [foldlM_range_succ] at run
      cases before : (List.range n).foldlM f s with
      | error stop =>
          rw [before] at run
          cases run
      | ok st' =>
          rw [before] at run
          exact turn n st' st (ih before) run

/-- A loop over `0 .. n - 1` stops at the first turn that stops. -/
theorem foldlM_range_stops {σ : Type*} {f : σ → Nat → Run σ} {s s' : σ} {m n : Nat} {e : Stop}
    (h : m < n) (run : (List.range m).foldlM f s = .ok s') (stop : f s' m = .error e) :
    (List.range n).foldlM f s = .error e := by
  have split : List.range n = List.range m ++ m :: List.range' (m + 1) (n - m - 1) := by
    rw [List.range_eq_range', List.range_eq_range', ← List.range'_succ]
    have cut := List.range'_append_1 (s := 0) (m := m) (n := n - m - 1 + 1)
    rw [Nat.zero_add] at cut
    rw [cut]
    congr 1
    omega
  rw [split, List.foldlM_append, run]
  change (m :: _).foldlM f s' = _
  rw [List.foldlM_cons, stop]
  rfl

/-- The entries a loop `for (int i = 0; i < v.size(); i++)` visits. The increment
at 2^31 - 1 wraps to a negative index, which compares as a huge `size_t`. -/
def intLoop {α : Type*} (v : List α) : List α := v.take (2 ^ 31)

theorem intLoop_eq {α : Type*} {v : List α} (h : v.length ≤ 2 ^ 31) : intLoop v = v :=
  List.take_of_length_le h

theorem intLoop_nil {α : Type*} : intLoop ([] : List α) = [] := List.take_nil

theorem intLoop_cons {α : Type*} (x : α) (v : List α) :
    intLoop (x :: v) = x :: v.take (2 ^ 31 - 1) := by
  rw [intLoop, show 2 ^ 31 = 2 ^ 31 - 1 + 1 from rfl, List.take_succ_cons, Nat.add_sub_cancel]

theorem length_intLoop_le {α : Type*} (v : List α) : (intLoop v).length ≤ 2 ^ 31 :=
  List.length_take_le _ _

/-- The conversion of a `size_t` to `int`. -/
def toInt (n : Nat) : Int := Int.bmod n (2 ^ 32)

theorem toInt_pos_iff {n : Nat} (h : n ≤ 2 ^ 31) : 0 < toInt n ↔ 0 < n ∧ n < 2 ^ 31 := by
  unfold toInt
  rw [Int.bmod_def]
  split <;> omega

end MobilePIM
