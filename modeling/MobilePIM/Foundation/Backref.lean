import Mathlib.Algebra.Order.Group.Nat
import Mathlib.Data.List.GetD
import Mathlib.Data.List.TakeDrop

/-!
References into what has been written so far, as dictionary coders use them: a
copy of `n` elements from `distance` places back, one element after the other, so
that it may read what it has written itself. Block copies, copies at a multiple
of the distance and matches found in a source are all such copies.
-/

namespace Backref

variable {α : Type*} [Inhabited α]

/-- Where there is nothing `distance` places back, the default stands in. -/
def copy (out : List α) (distance : Nat) : Nat → List α
  | 0 => out
  | n + 1 =>
      copy out distance n ++
        [(copy out distance n).getD ((copy out distance n).length - distance) default]

variable {out : List α} {d m n : Nat}

@[simp] theorem copy_zero (out : List α) (d : Nat) : copy out d 0 = out := rfl

@[simp] theorem length_copy (out : List α) (d n : Nat) :
    (copy out d n).length = out.length + n := by
  induction n with
  | zero => rfl
  | succ n ih => simp [copy, ih]; omega

theorem copy_add (out : List α) (d m n : Nat) :
    copy out d (m + n) = copy (copy out d m) d n := by
  induction n with
  | zero => rfl
  | succ n ih => rw [← Nat.add_assoc, copy, ih, copy]

theorem take_copy (out : List α) (d : Nat) (h : m ≤ n) :
    (copy out d n).take (out.length + m) = copy out d m := by
  obtain ⟨k, rfl⟩ := Nat.exists_eq_add_of_le h
  induction k with
  | zero => exact List.take_of_length_le (by simp)
  | succ k ih =>
      rw [← Nat.add_assoc, copy, List.take_append_of_le_length (by simp)]
      exact ih (Nat.le_add_right m k)

theorem getElem?_copy_of_lt {i : Nat} (h : i < out.length) : (copy out d n)[i]? = out[i]? := by
  have kept : (copy out d n).take out.length = out := take_copy out d (Nat.zero_le n)
  calc (copy out d n)[i]? = ((copy out d n).take out.length)[i]? := by
        rw [List.getElem?_take_of_lt h]
    _ = out[i]? := by rw [kept]

/-- Every copied element repeats the one `distance` places before it. -/
theorem getElem?_copy {i : Nat} (hd : 0 < d) (back : d ≤ out.length) (h : out.length ≤ i)
    (hi : i < out.length + n) : (copy out d n)[i]? = (copy out d n)[i - d]? := by
  induction n with
  | zero => omega
  | succ n ih =>
      rw [copy]
      by_cases last : i = out.length + n
      · have here : (copy out d n).length = i := by rw [length_copy, last]
        have source : i - d < (copy out d n).length := by omega
        rw [List.getElem?_append_right here.le, here, Nat.sub_self,
          List.getElem?_append_left source, List.getD_eq_getElem _ default source,
          List.getElem?_eq_getElem source]
        rfl
      · rw [List.getElem?_append_left (by simp; omega), ih (by omega),
          List.getElem?_append_left (by simp; omega)]

theorem getElem?_copy_mul {i : Nat} (hd : 0 < d) (back : d ≤ out.length)
    (hi : i < out.length + n) (k : Nat) (h : out.length + k * d ≤ i + d) :
    (copy out d n)[i]? = (copy out d n)[i - k * d]? := by
  induction k with
  | zero => simp
  | succ k ih =>
      rw [Nat.succ_mul] at h ⊢
      rw [ih (by omega), getElem?_copy hd back (by omega) (by omega)]
      congr 1
      omega

/-- Copies agree as long as the element to be copied does. -/
theorem copy_congr {e : Nat} (h : ∀ k < n,
    (copy out d k).getD (out.length + k - d) default =
      (copy out d k).getD (out.length + k - e) default) : copy out d n = copy out e n := by
  induction n with
  | zero => rfl
  | succ n ih =>
      have agree := ih fun k hk => h k (hk.trans (Nat.lt_succ_self n))
      have last := h n (Nat.lt_succ_self n)
      rw [copy, copy, ← agree, length_copy, last]

/-- Once enough has been copied, a multiple of the distance reaches the same elements. -/
theorem copy_mul {k : Nat} (hd : 0 < d) (back : d ≤ out.length) (hk : 0 < k)
    (far : k * d ≤ m + d) : copy (copy out d m) (k * d) n = copy (copy out d m) d n := by
  symm
  apply copy_congr
  intro j _
  rw [← copy_add, length_copy]
  obtain ⟨k, rfl⟩ := Nat.exists_eq_succ_of_ne_zero hk.ne'
  rw [Nat.succ_mul] at far ⊢
  have period : (copy out d (m + j))[out.length + m + j - d]? =
      (copy out d (m + j))[out.length + m + j - d - k * d]? :=
    getElem?_copy_mul hd back (by omega) k (by omega)
  rw [List.getD_eq_getElem?_getD, List.getD_eq_getElem?_getD, period]
  congr 2
  omega

theorem copy_distance_zero (out : List α) (n : Nat) :
    copy out 0 n = out ++ List.replicate n default := by
  induction n with
  | zero => simp
  | succ n ih =>
      rw [copy, List.getD_eq_default _ _ (by simp), ih, List.replicate_succ', List.append_assoc]

/-- A run of defaults is continued at any distance that stays inside it. -/
theorem copy_run {e : Nat} (h : e ≤ m) :
    copy (copy out 0 m) e n = copy (copy out 0 m) 0 n := by
  symm
  apply copy_congr
  intro k _
  rw [List.getD_eq_default _ _ (by simp), ← copy_add, copy_distance_zero]
  rw [List.getD_append_right _ _ _ _ (by simp; omega)]
  by_cases inside : out.length + m + k - e - out.length < m + k
  · rw [List.getD_eq_getElem _ _ (by simpa using by omega), List.getElem_replicate]
  · rw [List.getD_eq_default _ _ (by simpa using by omega)]

/-- A copy that does not reach what it writes is a block copy. -/
theorem copy_of_le (near : n ≤ d) (back : d ≤ out.length) :
    copy out d n = out ++ (out.drop (out.length - d)).take n := by
  induction n with
  | zero => simp
  | succ n ih =>
      have block := ih (by omega)
      have inside : n < (out.drop (out.length - d)).length := by rw [List.length_drop]; omega
      have place : out.length + n - d = out.length - d + n := by omega
      rw [copy, length_copy, List.take_add_one, ← List.append_assoc, ← block,
        List.getD_eq_getElem?_getD, getElem?_copy_of_lt (by omega), place,
        ← List.getElem?_drop, List.getElem?_eq_getElem inside]
      rfl

/-- As many whole repetitions of the last `d` elements as fit. -/
theorem copy_mul_distance (back : d ≤ out.length) (k : Nat) :
    copy out d (k * d) = out ++ (List.replicate k (out.drop (out.length - d))).flatten := by
  induction k generalizing out with
  | zero => simp
  | succ k ih =>
      have length_tail : (out.drop (out.length - d)).length = d := by rw [List.length_drop]; omega
      have once : copy out d d = out ++ out.drop (out.length - d) := by
        rw [copy_of_le (Nat.le_refl d) back, List.take_of_length_le length_tail.le]
      have tail : (copy out d d).drop ((copy out d d).length - d) =
          out.drop (out.length - d) := by
        rw [length_copy, Nat.add_sub_cancel, once, List.drop_left]
      rw [Nat.succ_mul, Nat.add_comm, copy_add, ih (by rw [length_copy]; omega), tail, once,
        List.replicate_succ, List.flatten_cons, List.append_assoc]

/-- A match found in a source extends a prefix of the source to a longer one. -/
theorem copy_eq_take {src : List α} {pos : Nat} (hd : 0 < d) (back : d ≤ pos)
    (room : pos + n ≤ src.length)
    (found : ∀ k < n, src[pos - d + k]? = src[pos + k]?) :
    copy (src.take pos) d n = src.take (pos + n) := by
  induction n with
  | zero => rfl
  | succ n ih =>
      have shorter := ih (by omega) fun k hk => found k (hk.trans (Nat.lt_succ_self n))
      have here := found n (Nat.lt_succ_self n)
      have place : pos + n - d = pos - d + n := by omega
      rw [copy, shorter, List.length_take_of_le (by omega), place, ← Nat.add_assoc,
        List.take_add_one, List.getD_eq_getElem?_getD, List.getElem?_take_of_lt (by omega), here,
        List.getElem?_eq_getElem (by omega)]
      rfl

end Backref
