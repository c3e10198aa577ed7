import MobilePIM.Memory

/-!
The copies of LZO: whole words as long as there is enough to be copied, then
single bytes. None writes more than what is to be copied, so one of them leaves
its buffers exactly where there is not enough to read or no room to write.
-/

namespace MobilePIM.Lzo

open Memory Total

/-- As long as there are `k` bytes to be copied; `copy` tells which buffer they come from. -/
def copyBlocks (k : Nat) (copy : List UInt8 → Nat → Nat → Nat → Access (List UInt8))
    (dst : List UInt8) (op s t : Nat) : Access (List UInt8 × Nat × Nat × Nat) :=
  loop .outOfFuel
    (fun (dst, op, s, t) =>
      if k ≤ t then do
        let dst ← copy dst op s k
        pure (.inl (dst, op + k, s + k, t - k))
      else pure (.inr (dst, op, s, t)))
    (t + 1) (dst, op, s, t)

/-- `do *op++ = *s++; while (--t > 0);`, also where it is written out for up to three bytes. -/
def copyBytes (copy : List UInt8 → Nat → Nat → Nat → Access (List UInt8)) (dst : List UInt8)
    (op s t : Nat) : Access (List UInt8) := do
  let (dst, _) ← copyBlocks 1 copy dst op s t
  pure dst

/-- Eight bytes at a time, then four, then the rest. -/
def copyWords (copy : List UInt8 → Nat → Nat → Nat → Access (List UInt8)) (dst : List UInt8)
    (op s t : Nat) : Access (List UInt8) := do
  let (dst, op, s, t) ← copyBlocks 8 copy dst op s t
  if 4 ≤ t then do
    let dst ← copy dst op s 4
    copyBytes copy dst (op + 4) (s + 4) (t - 4)
  else copyBytes copy dst op s t

variable {src out dst : List UInt8} {cap op m t : Nat}

section Blocks

variable {copy : List UInt8 → Nat → Nat → Nat → Access (List UInt8)} {total : Nat}
  {fails : Fault → Prop}

/-- Blocks of `k` bytes, each of which extends what has been copied before. -/
theorem ends_copyBlocks {k : Nat} (positive : 0 < k) (holds : Nat → List UInt8 → Prop)
    (step : ∀ n dst, n + k ≤ total → holds n dst →
      Ends (copy dst (op + n) (m + n) k) (holds (n + k)) fails)
    {n : Nat} (start : holds n dst) (rest : n + t = total) :
    Ends (copyBlocks k copy dst (op + n) (m + n) t) (fun (dst', op', m', t') =>
      ∃ n', n' + t' = total ∧ t' < k ∧ op' = op + n' ∧ m' = m + n' ∧ holds n' dst') fails := by
  refine Ends.loop
    (fun (dst', op', m', t') => ∃ n', n' + t' = total ∧ op' = op + n' ∧ m' = m + n' ∧
      holds n' dst')
    (fun (_, _, _, t') => t') ?_ ⟨n, rest, rfl, rfl, start⟩ (Nat.lt_succ_self _)
  rintro ⟨dst', op', m', t'⟩ ⟨n', rest', rfl, rfl, so_far⟩
  refine Ends.ite ?_ ?_
  · intro more
    refine Ends.bind (step n' dst' (by omega) so_far) ?_
    intro dst'' next
    exact Ends.ok ⟨⟨n' + k, by omega, by omega, by omega, next⟩, by simp only; omega⟩
  · intro short
    exact Ends.ok ⟨n', rest', Nat.not_le.mp short, rfl, rfl, so_far⟩

theorem ends_copyBytes (holds : Nat → List UInt8 → Prop)
    (step : ∀ n dst, n + 1 ≤ total → holds n dst →
      Ends (copy dst (op + n) (m + n) 1) (holds (n + 1)) fails)
    {n : Nat} (start : holds n dst) (rest : n + t = total) :
    Ends (copyBytes copy dst (op + n) (m + n) t) (holds total) fails := by
  refine Ends.bind (ends_copyBlocks Nat.one_pos holds step start rest) ?_
  rintro ⟨dst', op', m', t'⟩ ⟨n', rest', small, -, -, whole⟩
  have done : n' = total := by omega
  exact Ends.ok (done ▸ whole)

theorem ends_copyWords (holds : Nat → List UInt8 → Prop)
    (step : ∀ k n dst, k ≤ 8 → n + k ≤ t → holds n dst →
      Ends (copy dst (op + n) (m + n) k) (holds (n + k)) fails)
    (start : holds 0 dst) : Ends (copyWords copy dst op m t) (holds t) fails := by
  have blocks := ends_copyBlocks (t := t) (by decide : 0 < 8) holds
    (fun n dst => step 8 n dst (Nat.le_refl 8)) start (Nat.zero_add t)
  refine Ends.bind blocks ?_
  rintro ⟨dst', op', m', t'⟩ ⟨n, rest, few, rfl, rfl, so_far⟩
  refine Ends.ite ?_ ?_
  · intro (four : 4 ≤ t')
    refine Ends.bind (step 4 n dst' (by decide) (by omega) so_far) ?_
    intro dst'' next
    exact ends_copyBytes holds (fun n dst => step 1 n dst (by decide)) next (by omega)
  · intro _
    exact ends_copyBytes holds (fun n dst => step 1 n dst (by decide)) so_far rest

end Blocks

/-- Bytes of the source, as far as they have been copied behind `out`. -/
theorem step_from (at_end : op = out.length) (k n : Nat) (dst : List UInt8) (h : n + k ≤ t)
    (so_far : m + n ≤ src.length ∧ Filled cap (out ++ slice src m n) dst) :
    Ends (copyFrom src dst (op + n) (m + n) k)
      (fun dst' => m + (n + k) ≤ src.length ∧ Filled cap (out ++ slice src m (n + k)) dst')
      (Outside (src.length < m + t ∨ cap < out.length + t)) := by
  obtain ⟨inside, filled⟩ := so_far
  have length_eq : (out ++ slice src m n).length = out.length + n := by
    rw [List.length_append, length_slice inside]
  refine (filled.ends_copyFrom (i := op + n) (by omega)).mono ?_ (Outside.mono ?_)
  · rintro dst' ⟨inside', filled'⟩
    rw [slice_add, ← List.append_assoc]
    exact ⟨by omega, filled'⟩
  · rw [length_eq]
    omega

/-- A match at least as far away as what is copied at once. -/
theorem step_within {d k n : Nat} (at_end : op = out.length) (place : m + d = out.length)
    (far : k ≤ d) (h : n + k ≤ t) (filled : Filled cap (Backref.copy out d n) dst) :
    Ends (copyWithin dst (op + n) (m + n) k) (Filled cap (Backref.copy out d (n + k)))
      (Outside (cap < out.length + t)) := by
  by_cases room : out.length + n + k ≤ cap
  · have copied := filled.copyWithin (i := op + n) (s := m + n) (d := d) (n := k)
      (by rw [Backref.length_copy]; omega) (by rw [Backref.length_copy]; omega) far
      (by rw [Backref.length_copy]; exact room)
    rw [← Backref.copy_add] at copied
    exact copied.ends
  · have at_end' : op + n = (Backref.copy out d n).length := by
      rw [Backref.length_copy, at_end]
    have tried : Ends (copyFrom dst dst (op + n) (m + n) k) _ _ := filled.ends_copyFrom at_end'
    rw [Backref.length_copy] at tried
    refine tried.mono ?_ (Outside.mono fun _ => by omega)
    rintro dst' ⟨-, filled'⟩
    have exceeds := filled'.le
    have inside : m + n + k ≤ dst.length := by
      have := filled.le
      rw [Backref.length_copy] at this
      rw [filled.length_eq]
      omega
    rw [List.length_append, Backref.length_copy, length_slice inside] at exceeds
    exact absurd exceeds room

/-- With enough to read and room to write a copy from the source returns. -/
theorem returns_copyWords_from (filled : Filled cap out dst) (at_end : op = out.length)
    (inside : m + t ≤ src.length) (room : out.length + t ≤ cap) :
    Returns (copyWords (copyFrom src) dst op m t) (Filled cap (out ++ slice src m t)) := by
  have copied := ends_copyWords (t := t)
    (fun n dst => m + n ≤ src.length ∧ Filled cap (out ++ slice src m n) dst)
    (fun k n dst _ => step_from at_end k n dst) ⟨by omega, by simpa [slice] using filled⟩
  refine (copied.mono (fun _ h => h.2) ?_).returns
  rintro e ⟨-, past | exceeds⟩
  · omega
  · omega

end MobilePIM.Lzo
