import Mathlib.Data.Nat.Bitwise
import Mathlib.Data.List.Basic
import Mathlib.Data.List.Induction

/-!
Bit strings, most significant bit first: fields of a natural number, bytes and
byte strings, and codes none of whose codewords begins another one. A string of
codewords of such a code determines the words it was written from.
-/

namespace Bits

/-- The low `w` bits of `v`, most significant bit first. -/
def field : Nat → Nat → List Bool
  | 0, _ => []
  | w + 1, v => v.testBit w :: field w v

def ofByte (b : UInt8) : List Bool := field 8 b.toNat

def ofBytes (bytes : List UInt8) : List Bool := bytes.flatMap ofByte

/-- The low `k` bytes of `v`, most significant byte first. -/
def bytesBE : Nat → Nat → List UInt8
  | 0, _ => []
  | k + 1, v => UInt8.ofNat (v >>> (8 * k)) :: bytesBE k v

@[simp] theorem field_zero (v : Nat) : field 0 v = [] := rfl

@[simp] theorem length_field (w v : Nat) : (field w v).length = w := by
  induction w with
  | zero => rfl
  | succ w ih => simp [field, ih]

theorem field_eq_iff (w v v' : Nat) :
    field w v = field w v' ↔ ∀ i < w, v.testBit i = v'.testBit i := by
  induction w with
  | zero => simp
  | succ w ih =>
      simp only [field, List.cons.injEq, ih]
      constructor
      · rintro ⟨top, low⟩ i hi
        rcases Nat.lt_succ_iff_lt_or_eq.mp hi with h | rfl
        · exact low i h
        · exact top
      · exact fun h => ⟨h w (Nat.lt_succ_self w), fun i hi => h i (Nat.lt_succ_of_lt hi)⟩

theorem field_injective {w v v' : Nat} (hv : v < 2 ^ w) (hv' : v' < 2 ^ w)
    (h : field w v = field w v') : v = v' := by
  apply Nat.eq_of_testBit_eq
  intro i
  by_cases hi : i < w
  · exact (field_eq_iff w v v').mp h i hi
  · have big : 2 ^ w ≤ 2 ^ i := Nat.pow_le_pow_right (by decide) (Nat.not_lt.mp hi)
    rw [Nat.testBit_lt_two_pow (hv.trans_le big), Nat.testBit_lt_two_pow (hv'.trans_le big)]

theorem field_mod (w v : Nat) : field w (v % 2 ^ w) = field w v := by
  rw [field_eq_iff]
  intro i hi
  simp [Nat.testBit_mod_two_pow, hi]

/-- The bit above a field does not show in it. -/
theorem field_two_pow (w : Nat) : field w (2 ^ w) = field w 0 := by
  rw [field_eq_iff]
  intro i hi
  rw [Nat.zero_testBit, Nat.testBit_two_pow_of_ne (Nat.ne_of_gt hi)]

theorem field_add (a b v : Nat) : field (a + b) v = field a (v >>> b) ++ field b v := by
  induction a with
  | zero => simp
  | succ a ih =>
      rw [Nat.add_right_comm, field, ih, field, Nat.testBit_shiftRight, Nat.add_comm b a]
      rfl

/-- Shifting a value in below another one appends its field. -/
theorem field_shiftLeft_or {b v : Nat} (hv : v < 2 ^ b) (a u : Nat) :
    field (a + b) (u <<< b ||| v) = field a u ++ field b v := by
  rw [field_add]
  congr 1
  · rw [field_eq_iff]
    intro i _
    have low : v.testBit (b + i) = false :=
      Nat.testBit_lt_two_pow (hv.trans_le (Nat.pow_le_pow_right (by decide) (Nat.le_add_right b i)))
    simp [Nat.testBit_shiftRight, Nat.testBit_or, Nat.testBit_shiftLeft, low]
  · rw [field_eq_iff]
    intro i hi
    simp [Nat.testBit_or, Nat.testBit_shiftLeft, Nat.not_le.mpr hi]

@[simp] theorem length_ofByte (b : UInt8) : (ofByte b).length = 8 := length_field 8 _

@[simp] theorem ofBytes_nil : ofBytes [] = [] := rfl

@[simp] theorem ofBytes_cons (b : UInt8) (bytes : List UInt8) :
    ofBytes (b :: bytes) = ofByte b ++ ofBytes bytes := rfl

@[simp] theorem ofBytes_append (bytes rest : List UInt8) :
    ofBytes (bytes ++ rest) = ofBytes bytes ++ ofBytes rest := List.flatMap_append

@[simp] theorem length_ofBytes (bytes : List UInt8) :
    (ofBytes bytes).length = 8 * bytes.length := by
  induction bytes with
  | nil => rfl
  | cons b bytes ih => simp [ih]; omega

theorem ofByte_injective {b c : UInt8} (h : ofByte b = ofByte c) : b = c :=
  UInt8.toNat_inj.mp (field_injective b.toNat_lt c.toNat_lt h)

theorem ofBytes_injective {bytes rest : List UInt8} (h : ofBytes bytes = ofBytes rest) :
    bytes = rest := by
  induction bytes generalizing rest with
  | nil =>
      have := congrArg List.length h
      cases rest with
      | nil => rfl
      | cons c rest => simp at this; omega
  | cons b bytes ih =>
      cases rest with
      | nil => have := congrArg List.length h; simp at this
      | cons c rest =>
          obtain ⟨head, tail⟩ := List.append_inj h (by simp)
          rw [ofByte_injective head, ih tail]

theorem ofByte_ofNat (v : Nat) : ofByte (UInt8.ofNat v) = field 8 v := by
  rw [ofByte, UInt8.toNat_ofNat']
  exact field_mod 8 v

@[simp] theorem length_bytesBE (k v : Nat) : (bytesBE k v).length = k := by
  induction k with
  | zero => rfl
  | succ k ih => simp [bytesBE, ih]

theorem bytesBE_getElem? {k i : Nat} (h : i < k) (v : Nat) :
    (bytesBE k v)[i]? = some (UInt8.ofNat (v >>> (8 * (k - i - 1)))) := by
  induction k generalizing i with
  | zero => exact absurd h (Nat.not_lt_zero i)
  | succ k ih =>
      cases i with
      | zero => rfl
      | succ i =>
          rw [bytesBE, List.getElem?_cons_succ, ih (Nat.lt_of_succ_lt_succ h),
            Nat.add_sub_add_right]

theorem take_succ_bytesBE {k i : Nat} (h : i < k) (v : Nat) :
    (bytesBE k v).take (i + 1) =
      (bytesBE k v).take i ++ [UInt8.ofNat (v >>> (8 * (k - i - 1)))] := by
  rw [List.take_add_one, bytesBE_getElem? h]
  rfl

theorem ofBytes_bytesBE (k v : Nat) : ofBytes (bytesBE k v) = field (8 * k) v := by
  induction k with
  | zero => rfl
  | succ k ih =>
      rw [bytesBE, ofBytes_cons, ih, ofByte_ofNat, Nat.mul_succ, Nat.add_comm, field_add]

section Codes

variable {α : Type*}

/-- No codeword of `code` is the beginning of a different one. -/
def PrefixFree (code : α → List Bool) : Prop :=
  ∀ a b s t, code a ++ s = code b ++ t → a = b

theorem PrefixFree.flatMap_cancel {code : α → List Bool} (free : PrefixFree code)
    {xs ys : List α} (hlen : xs.length = ys.length) {s t : List Bool}
    (h : xs.flatMap code ++ s = ys.flatMap code ++ t) : xs = ys ∧ s = t := by
  induction xs generalizing ys with
  | nil =>
      obtain rfl := List.length_eq_zero_iff.mp hlen.symm
      exact ⟨rfl, h⟩
  | cons x xs ih =>
      cases ys with
      | nil => simp at hlen
      | cons y ys =>
          simp only [List.flatMap_cons, List.append_assoc] at h
          obtain rfl := free x y _ _ h
          obtain ⟨rfl, rest⟩ := ih (by simpa using hlen) (List.append_cancel_left h)
          exact ⟨rfl, rest⟩

/-- Two strings of codewords that are equal up to the middle of their last codewords
have last codewords of one length, if the first bit of a codeword tells its length. -/
theorem PrefixFree.length_eq_of_common_prefix {code : α → List Bool} (free : PrefixFree code)
    (head : ∀ a b c s t, code a = c :: s → code b = c :: t → s.length = t.length)
    {xs ys : List α} (hlen : xs.length = ys.length) {common t p : List Bool}
    (hx : xs.flatMap code = common ++ t) (hy : ys.flatMap code = common ++ p)
    (short : ∀ a, p.length < (code a).length) : t.length = p.length := by
  induction ys using List.reverseRecOn with
  | nil =>
      obtain rfl := List.length_eq_zero_iff.mp hlen
      obtain ⟨rfl, rfl⟩ := List.append_eq_nil_iff.mp hx.symm
      rw [List.flatMap_nil, List.nil_append] at hy
      rw [← hy]
  | append_singleton ys y _ =>
      obtain ⟨xs, x, rfl⟩ : ∃ xs' x, xs = xs' ++ [x] := by
        refine ⟨xs.dropLast, xs.getLast (fun h => by simp [h] at hlen), ?_⟩
        exact (List.dropLast_append_getLast _).symm
      rw [List.flatMap_append, List.flatMap_singleton] at hx hy
      -- the common part ends inside the codeword of `y`
      have inside : (ys.flatMap code).length < common.length := by
        have total := congrArg List.length hy
        have := short y
        simp only [List.length_append] at total
        omega
      have pre : ys.flatMap code <+: common ++ p := hy ▸ List.prefix_append _ _
      obtain ⟨s, rfl⟩ := List.prefix_of_prefix_length_le pre (List.prefix_append common p) inside.le
      rw [List.append_assoc] at hx hy
      have hcode := List.append_cancel_left hy
      obtain ⟨-, hcode'⟩ := free.flatMap_cancel (by simpa using hlen) hx
      cases s with
      | nil => simp at inside
      | cons c s =>
          have same := head x y c (s ++ t) (s ++ p) hcode' hcode
          simpa using same

end Codes

end Bits
