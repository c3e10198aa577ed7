import Mathlib.Algebra.Order.Group.Nat
import Mathlib.Data.List.GetD
import Mathlib.Data.Nat.Bitwise

/-!
Little-endian words, and how many elements two lists have in common at the front.
The lowest bit in which two words differ tells the first byte in which they do.
-/

namespace Words

/-- The number the bytes stand for, least significant byte first. -/
def leNat : List UInt8 → Nat
  | [] => 0
  | b :: bytes => b.toNat + 256 * leNat bytes

def le (w : Nat) (bytes : List UInt8) : BitVec w := BitVec.ofNat w (leNat bytes)

/-- The length of the longest common prefix. -/
def agree {α : Type*} [DecidableEq α] : List α → List α → Nat
  | x :: xs, y :: ys => if x = y then agree xs ys + 1 else 0
  | [], _ => 0
  | _ :: _, [] => 0

theorem testBit_leNat (bytes : List UInt8) (i : Nat) :
    (leNat bytes).testBit i = (bytes.getD (i / 8) 0).toNat.testBit (i % 8) := by
  induction bytes generalizing i with
  | nil => simp [leNat]
  | cons b bytes ih =>
      have small : b.toNat < 2 ^ 8 := b.toNat_lt
      rw [leNat, Nat.add_comm, show (256 : Nat) = 2 ^ 8 from rfl,
        Nat.testBit_two_pow_mul_add _ small]
      by_cases low : i < 8
      · rw [if_pos low, Nat.div_eq_of_lt low, Nat.mod_eq_of_lt low]
        rfl
      · have down : i / 8 = (i - 8) / 8 + 1 := by omega
        have same : i % 8 = (i - 8) % 8 := by omega
        rw [if_neg low, ih, down, same, List.getD_cons_succ]

theorem getLsbD_le {w i : Nat} (h : i < w) (bytes : List UInt8) :
    (le w bytes).getLsbD i = (bytes.getD (i / 8) 0).toNat.testBit (i % 8) := by
  rw [le, BitVec.getLsbD_ofNat, decide_eq_true h, Bool.true_and, testBit_leNat]

/-- Bytes that differ do so in one of their eight bits. -/
theorem exists_testBit_ne {b c : UInt8} (h : b ≠ c) :
    ∃ t < 8, b.toNat.testBit t ≠ c.toNat.testBit t := by
  by_contra same
  push Not at same
  refine h (UInt8.toNat_inj.mp (Nat.eq_of_testBit_eq fun t => ?_))
  by_cases ht : t < 8
  · exact same t ht
  · have big : 2 ^ 8 ≤ 2 ^ t := Nat.pow_le_pow_right (by decide) (Nat.not_lt.mp ht)
    rw [Nat.testBit_lt_two_pow (b.toNat_lt.trans_le big),
      Nat.testBit_lt_two_pow (c.toNat_lt.trans_le big)]

section Agree
variable {α : Type*} [DecidableEq α] {xs ys xs' ys' : List α}

theorem agree_le_left (xs ys : List α) : agree xs ys ≤ xs.length := by
  induction xs generalizing ys with
  | nil => exact Nat.zero_le _
  | cons x xs ih =>
      cases ys with
      | nil => exact Nat.zero_le _
      | cons y ys =>
          have tail := ih ys
          simp only [agree, List.length_cons]
          split <;> omega

theorem getElem?_of_lt_agree {i : Nat} (h : i < agree xs ys) : xs[i]? = ys[i]? := by
  induction xs generalizing ys i with
  | nil => exact absurd h (Nat.not_lt_zero i)
  | cons x xs ih =>
      cases ys with
      | nil => exact absurd h (Nat.not_lt_zero i)
      | cons y ys =>
          by_cases same : x = y
          · rw [agree, if_pos same] at h
            cases i with
            | zero => simp [same]
            | succ i => simpa using ih (Nat.lt_of_succ_lt_succ h)
          · rw [agree, if_neg same] at h
            exact absurd h (Nat.not_lt_zero i)

theorem agree_self (xs : List α) : agree xs xs = xs.length := by
  induction xs with
  | nil => rfl
  | cons x xs ih => simp [agree, ih]

theorem agree_eq_length (h : xs.length = ys.length) : agree xs ys = xs.length ↔ xs = ys := by
  constructor
  · intro whole
    apply List.ext_getElem?
    intro i
    by_cases hi : i < xs.length
    · exact getElem?_of_lt_agree (whole ▸ hi)
    · rw [List.getElem?_eq_none (by omega), List.getElem?_eq_none (by omega)]
  · rintro rfl
    exact agree_self xs

theorem agree_append (h : xs.length = ys.length) :
    agree (xs ++ xs') (ys ++ ys') =
      if xs = ys then xs.length + agree xs' ys' else agree xs ys := by
  induction xs generalizing ys with
  | nil =>
      cases ys with
      | nil => simp
      | cons y ys => simp at h
  | cons x xs ih =>
      cases ys with
      | nil => simp at h
      | cons y ys =>
          have tail := ih (Nat.succ_inj.mp h)
          by_cases same : x = y
          · by_cases rest : xs = ys
            · rw [if_pos rest] at tail
              rw [if_pos (by rw [same, rest]), List.cons_append, List.cons_append, agree,
                if_pos same, tail, List.length_cons]
              omega
            · simp [agree, same, rest, tail]
          · simp [agree, same]

/-- Behind the common prefix the lists differ. -/
theorem getElem?_agree_ne (h : agree xs ys < xs.length) (h' : agree xs ys < ys.length) :
    xs[agree xs ys]? ≠ ys[agree xs ys]? := by
  induction xs generalizing ys with
  | nil => exact absurd h (Nat.not_lt_zero _)
  | cons x xs ih =>
      cases ys with
      | nil => exact absurd h' (Nat.not_lt_zero _)
      | cons y ys =>
          by_cases same : x = y
          · simp only [agree, if_pos same, List.length_cons, Nat.add_lt_add_iff_right] at h h' ⊢
            simpa using ih h h'
          · simp [agree, same]

end Agree

/-- The first byte in which two words differ, from the lowest bit in which they do. -/
theorem ctz_xor {w : Nat} {xs ys : List UInt8} (h : xs.length = ys.length)
    (fit : 8 * xs.length ≤ w) (ne : xs ≠ ys) :
    (le w xs ^^^ le w ys) ≠ 0 ∧ (le w xs ^^^ le w ys).ctz.toNat / 8 = agree xs ys := by
  have inside : agree xs ys < xs.length :=
    lt_of_le_of_ne (agree_le_left xs ys) fun whole => ne ((agree_eq_length h).mp whole)
  have bytes_ne : xs.getD (agree xs ys) 0 ≠ ys.getD (agree xs ys) 0 := by
    have differ := getElem?_agree_ne inside (h ▸ inside)
    rw [List.getElem?_eq_getElem inside, List.getElem?_eq_getElem (h ▸ inside)] at differ
    rw [List.getD_eq_getElem _ _ inside, List.getD_eq_getElem _ _ (h ▸ inside)]
    exact fun same => differ (congrArg some same)
  obtain ⟨t, ht, bit_ne⟩ := exists_testBit_ne bytes_ne
  have bit {i : Nat} (hi : i < w) : (le w xs ^^^ le w ys).getLsbD i =
      ((xs.getD (i / 8) 0).toNat.testBit (i % 8) ^^ (ys.getD (i / 8) 0).toNat.testBit (i % 8)) := by
    rw [BitVec.getLsbD_xor, getLsbD_le hi, getLsbD_le hi]
  have set : (le w xs ^^^ le w ys).getLsbD (8 * agree xs ys + t) = true := by
    rw [bit (by omega), show (8 * agree xs ys + t) / 8 = agree xs ys by omega,
      show (8 * agree xs ys + t) % 8 = t by omega]
    simpa using bit_ne
  have nonzero : (le w xs ^^^ le w ys) ≠ 0 := by
    intro zero
    rw [zero] at set
    simp at set
  refine ⟨nonzero, ?_⟩
  have below : (le w xs ^^^ le w ys).ctz.toNat ≤ 8 * agree xs ys + t := by
    by_contra above
    rw [BitVec.getLsbD_false_of_lt_ctz (Nat.not_le.mp above)] at set
    exact Bool.false_ne_true set
  have first := BitVec.getLsbD_true_ctz_of_ne_zero nonzero
  have reach : agree xs ys ≤ (le w xs ^^^ le w ys).ctz.toNat / 8 := by
    by_contra early
    have same := getElem?_of_lt_agree (Nat.not_le.mp early)
    rw [bit (by omega), List.getD_eq_getElem?_getD, List.getD_eq_getElem?_getD, same] at first
    simp at first
  omega

theorem le_eq_iff {w : Nat} {xs ys : List UInt8} (h : xs.length = ys.length)
    (fit : 8 * xs.length ≤ w) : le w xs = le w ys ↔ xs = ys := by
  refine ⟨fun same => ?_, congrArg (le w)⟩
  by_contra ne
  exact (ctz_xor h fit ne).1 (by rw [same, BitVec.xor_self]; rfl)

end Words
