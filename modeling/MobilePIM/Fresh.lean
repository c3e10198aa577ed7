import MobilePIM.Foundation.Alike
import MobilePIM.Memory

/-!
Buffers that have just been allocated hold anything. Two runs on buffers of one size
end alike, and what they have written is the same in both; a copy within the buffer
may carry on what is different, and then only the sizes stay the same.
-/

namespace MobilePIM.Memory

open Total

/-- Buffers of one size that start with the same `n` bytes. -/
structure SameTo (n : Nat) (dst dst' : List UInt8) : Prop where
  length_eq : dst.length = dst'.length
  same : ∀ i < n, dst[i]? = dst'[i]?

/-- Up to one position the same has been written. -/
def Written (op op' : Nat) (dst dst' : List UInt8) : Prop := op = op' ∧ SameTo op dst dst'

section SameTo

variable {n m op i s k : Nat} {dst dst' src : List UInt8}

theorem SameTo.zero (h : dst.length = dst'.length) : SameTo 0 dst dst' :=
  ⟨h, fun i none => absurd none (Nat.not_lt_zero i)⟩

theorem SameTo.mono (h : SameTo n dst dst') (le : m ≤ n) : SameTo m dst dst' :=
  ⟨h.length_eq, fun i hi => h.same i (hi.trans_le le)⟩

theorem SameTo.take_eq (h : SameTo n dst dst') : dst.take n = dst'.take n := by
  apply List.ext_getElem?
  intro i
  by_cases hi : i < n
  · rw [List.getElem?_take_of_lt hi, List.getElem?_take_of_lt hi, h.same i hi]
  · rw [List.getElem?_take_eq_none (Nat.not_lt.mp hi), List.getElem?_take_eq_none (Nat.not_lt.mp hi)]

theorem getElem?_overwrite (room : i + src.length ≤ dst.length) (j : Nat) :
    (overwrite dst i src)[j]? =
      if j < i then dst[j]? else if j < i + src.length then src[j - i]? else dst[j]? := by
  have front : (dst.take i).length = i := List.length_take_of_le (by omega)
  rw [overwrite, List.append_assoc]
  by_cases before : j < i
  · rw [if_pos before, List.getElem?_append_left (by rw [front]; exact before),
      List.getElem?_take_of_lt before]
  · rw [if_neg before, List.getElem?_append_right (by rw [front]; exact Nat.not_lt.mp before), front]
    by_cases inside : j < i + src.length
    · rw [if_pos inside, List.getElem?_append_left (by omega)]
    · rw [if_neg inside, List.getElem?_append_right (by omega), List.getElem?_drop]
      congr 1
      omega

theorem SameTo.alike_write (h : SameTo n dst dst') (place : i ≤ n) (bytes : List UInt8) :
    Alike (write dst i bytes) (write dst' i bytes) (SameTo (max n (i + bytes.length))) := by
  unfold write
  rw [← h.length_eq]
  refine Alike.ite ?_ fun _ => Alike.error _
  intro room
  have room' : i + bytes.length ≤ dst'.length := h.length_eq ▸ room
  refine Alike.ok ⟨?_, fun j hj => ?_⟩
  · rw [length_overwrite room, length_overwrite room', h.length_eq]
  · rw [getElem?_overwrite room, getElem?_overwrite room']
    by_cases before : j < i
    · rw [if_pos before, if_pos before, h.same j (before.trans_le place)]
    · rw [if_neg before, if_neg before]
      by_cases inside : j < i + bytes.length
      · rw [if_pos inside, if_pos inside]
      · rw [if_neg inside, if_neg inside, h.same j (by omega)]

/-- A store right behind what is the same. -/
theorem SameTo.alike_push (h : SameTo op dst dst') (bytes : List UInt8) :
    Alike (write dst op bytes) (write dst' op bytes) (SameTo (op + bytes.length)) :=
  (h.alike_write (Nat.le_refl op) bytes).mono fun _ _ more => more.mono (Nat.le_max_right _ _)

theorem SameTo.alike_byte (h : SameTo n dst dst') (inside : i < n) :
    Alike (byte dst i) (byte dst' i) Eq := by
  have same := h.same i inside
  by_cases read : i < dst.length
  · have read' : i < dst'.length := h.length_eq ▸ read
    rw [byte_ok read, byte_ok read']
    rw [List.getElem?_eq_getElem read, List.getElem?_eq_getElem read'] at same
    exact Alike.ok (Option.some.inj same)
  · have past : ¬i < dst'.length := h.length_eq ▸ read
    rw [byte, byte, dif_neg read, dif_neg past]
    exact Alike.error _

theorem SameTo.alike_copyFrom (h : SameTo op dst dst') (s k : Nat) :
    Alike (copyFrom src dst op s k) (copyFrom src dst' op s k) (SameTo (op + k)) := by
  refine Alike.bind_same ?_
  intro bytes loaded
  have length_eq : bytes.length = k := by
    by_cases inside : s + k ≤ src.length
    · rw [load_ok inside] at loaded
      cases loaded
      exact length_slice inside
    · rw [load, if_neg inside] at loaded
      cases loaded
  have pushed := h.alike_push bytes
  rwa [length_eq] at pushed

/-- Blocks that each carry a relation on. It holds where they end, at `e` or behind it. -/
theorem alike_wildCopy {stride e : Nat}
    {body body' : List UInt8 → Nat → Nat → Access (List UInt8)}
    (rel : Nat → List UInt8 → List UInt8 → Prop)
    (step : ∀ d s dst dst', rel d dst dst' →
      Alike (body dst d s) (body' dst' d s) (rel (d + stride)))
    (start : rel op dst dst') :
    Alike (wildCopy stride body dst op s e) (wildCopy stride body' dst' op s e)
      fun dst dst' => ∃ d, e ≤ d ∧ rel d dst dst' := by
  refine Alike.loop (fun x y => x.2 = y.2 ∧ rel x.2.1 x.1 y.1) _ ?_ ⟨rfl, start⟩ _
  rintro ⟨dst, d, s⟩ ⟨dst', _, _⟩ ⟨⟨⟩, before⟩
  refine Alike.bind (step d s dst dst' before) ?_
  intro dst₁ dst₁' after
  by_cases more : d + stride < e
  · rw [if_pos more, if_pos more]
    exact Alike.ok (.inl ⟨rfl, after⟩)
  · rw [if_neg more, if_neg more]
    exact Alike.ok (.inr ⟨d + stride, Nat.not_lt.mp more, after⟩)

end SameTo

section Lengths

variable {op s k n : Nat} {dst dst' bytes bytes' src src' : List UInt8}

theorem alike_write (h : dst.length = dst'.length) (same : bytes.length = bytes'.length) :
    Alike (write dst op bytes) (write dst' op bytes') fun dst dst' => dst.length = dst'.length := by
  unfold write
  rw [← h, ← same]
  refine Alike.ite ?_ fun _ => Alike.error _
  intro room
  refine Alike.ok ?_
  rw [length_overwrite room, length_overwrite (by rwa [← h, ← same]), h]

theorem alike_load (h : src.length = src'.length) :
    Alike (load src s n) (load src' s n) fun bytes bytes' => bytes.length = bytes'.length := by
  unfold load
  rw [← h]
  refine Alike.ite ?_ fun _ => Alike.error _
  intro inside
  exact Alike.ok (by rw [length_slice inside, length_slice (h ▸ inside)])

theorem alike_byte (h : src.length = src'.length) :
    Alike (byte src s) (byte src' s) fun _ _ => True := by
  by_cases inside : s < src.length
  · rw [byte_ok inside, byte_ok (h ▸ inside)]
    exact Alike.ok trivial
  · have past : ¬s < src'.length := h ▸ inside
    rw [byte, byte, dif_neg inside, dif_neg past]
    exact Alike.error _

theorem alike_copyFrom (h : dst.length = dst'.length) (from_same : src.length = src'.length) :
    Alike (copyFrom src dst op s n) (copyFrom src' dst' op s n)
      fun dst dst' => dst.length = dst'.length :=
  Alike.bind (alike_load from_same) fun _ _ same => alike_write h same

theorem alike_copyWithin (h : dst.length = dst'.length) :
    Alike (copyWithin dst op s n) (copyWithin dst' op s n)
      fun dst dst' => dst.length = dst'.length := alike_copyFrom h h

theorem alike_byteCopy {e : Nat} (h : dst.length = dst'.length) :
    Alike (byteCopy dst op s e) (byteCopy dst' op s e)
      fun dst dst' => dst.length = dst'.length := by
  refine Alike.loop (fun x y => x.2 = y.2 ∧ x.1.length = y.1.length) _ ?_ ⟨rfl, h⟩ _
  rintro ⟨dst, d, s⟩ ⟨dst', _, _⟩ ⟨⟨⟩, before⟩
  refine Alike.ite ?_ ?_
  · intro _
    refine Alike.bind (alike_copyWithin before) ?_
    intro dst₁ dst₁' after
    exact Alike.ok (.inl ⟨rfl, after⟩)
  · intro _
    exact Alike.ok (.inr before)

end Lengths

end MobilePIM.Memory
