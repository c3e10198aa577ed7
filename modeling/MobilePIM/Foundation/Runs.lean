import Mathlib.Algebra.Order.Group.Nat
import Mathlib.Data.List.Basic

/-!
Numbers of any size as bytes: one of them stands for 255 and more to come, any
other for itself and the end. The formats that use them differ in which byte
goes on.
-/

namespace Runs

variable {more last : UInt8}

def read (more : UInt8) : List UInt8 → Option (Nat × List UInt8)
  | [] => none
  | b :: rest =>
      if b = more then (read more rest).map fun (n, rest) => (255 + n, rest)
      else some (b.toNat, rest)

def bytes (more : UInt8) (k : Nat) (last : UInt8) : List UInt8 := List.replicate k more ++ [last]

theorem read_bytes (ends : last ≠ more) (k : Nat) (rest : List UInt8) :
    read more (bytes more k last ++ rest) = some (255 * k + last.toNat, rest) := by
  induction k with
  | zero => simp [bytes, read, ends]
  | succ k ih =>
      rw [bytes, List.replicate_succ, List.cons_append, List.cons_append, read, if_pos rfl]
      change (read more (bytes more k last ++ rest)).map _ = _
      rw [ih]
      simp only [Option.map_some, Option.some.injEq, Prod.mk.injEq, and_true]
      omega

theorem length_lt_of_read {input rest : List UInt8} {n : Nat}
    (h : read more input = some (n, rest)) : rest.length < input.length := by
  induction input generalizing n with
  | nil => cases h
  | cons b input ih =>
      rw [read] at h
      split at h
      · obtain ⟨⟨m, rest'⟩, run, same⟩ := Option.map_eq_some_iff.mp h
        cases same
        exact (ih run).trans (Nat.lt_succ_self _)
      · cases h
        exact Nat.lt_succ_self _

/-- Reading goes on with what has been read so far as an accumulator. -/
theorem map_read_drop {src : List UInt8} {i : Nat} (h : i < src.length) (sum : Nat) :
    (read more (src.drop i)).map (fun (n, rest) => (sum + n, rest)) =
      if src[i] = more then
        (read more (src.drop (i + 1))).map fun (n, rest) => (sum + 255 + n, rest)
      else some (sum + src[i].toNat, src.drop (i + 1)) := by
  rw [List.drop_eq_getElem_cons h, read]
  by_cases run : src[i] = more
  · rw [if_pos run, if_pos run, Option.map_map]
    congr 1
    funext ⟨n, rest⟩
    simp only [Function.comp, Prod.mk.injEq, and_true]
    omega
  · rw [if_neg run, if_neg run]
    rfl

/-- Before anything has been read the accumulator is zero. -/
theorem map_zero_add (read : Option (Nat × List UInt8)) :
    read.map (fun (n, rest) => (0 + n, rest)) = read := by
  cases read with
  | none => rfl
  | some r => simp

end Runs
