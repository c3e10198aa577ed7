import MobilePIM.Machine

/-!
The loop of `BaseDeltaComp` that writes the top bases to `base_buffer`. It runs
to `num_bases` over a list that may be shorter, and reads behind it exactly then.
The length of the buffer is a product that wraps; where the list is long enough it
does not, and every store is inside.
-/

namespace MobilePIM

/-- `(base >> 8*j) & 0xFF`, stored to a `char`. -/
def lowByte (base : UInt32) (j : Nat) : UInt8 := ((base >>> UInt32.ofNat (8 * j)) &&& 0xFF).toUInt8

/-- The index of byte `j` of base `i`, a `uint32_t`. -/
def baseIndex (baseSize : UInt32) (i j : Nat) : Nat :=
  (UInt32.ofNat i * baseSize + UInt32.ofNat j).toNat

/-- `base_buffer[i*base_size + j] = (top_bases[i] >> 8*j) & 0xFF`. A byte stored past the end of
`base_buffer` leaves the buffer as it is, and the loop goes on. -/
def storeBaseByte (baseSize : UInt32) (topBases : List UInt32) (i : Nat)
    (baseBuffer : List UInt8) (j : Nat) : Run (List UInt8) :=
  match topBases[i]? with
  | none => .error (.badRead .topBases i)
  | some base => .ok (baseBuffer.set (baseIndex baseSize i j) (lowByte base j))

def storeBase (baseSize : UInt32) (topBases : List UInt32) (baseBuffer : List UInt8) (i : Nat) :
    Run (List UInt8) :=
  (List.range baseSize.toNat).foldlM (storeBaseByte baseSize topBases i) baseBuffer

def fillBaseBuffer (numBases baseSize : UInt32) (topBases : List UInt32) : Run (List UInt8) :=
  (List.range numBases.toNat).foldlM (storeBase baseSize topBases)
    (malloc (numBases * baseSize).toNat)

theorem toNat_lowByte (base : UInt32) {j : Nat} (hj : j < 4) :
    (lowByte base j).toNat = base.toNat / 2 ^ (8 * j) % 2 ^ 8 := by
  have shift : (UInt32.ofNat (8 * j)).toNat % 32 = 8 * j := by
    rw [UInt32.toNat_ofNat', Nat.mod_eq_of_lt (by omega), Nat.mod_eq_of_lt (by omega)]
  have mask : (255 : UInt32).toNat = 2 ^ 8 - 1 := rfl
  simp only [lowByte, UInt32.toNat_toUInt8, UInt32.toNat_and, UInt32.toNat_shiftRight, shift, mask,
    Nat.and_two_pow_sub_one_eq_mod, Nat.mod_mod, Nat.shiftRight_eq_div_pow]

/-- The three bytes of a base of six hex digits, least significant first. -/
def baseBytes (base : UInt32) : List UInt8 := [lowByte base 0, lowByte base 1, lowByte base 2]

theorem baseBytes_injective {b c : UInt32} (hb : b.toNat < 2 ^ 24) (hc : c.toNat < 2 ^ 24)
    (h : baseBytes b = baseBytes c) : b = c := by
  have same : ∀ j < 3, b.toNat / 2 ^ (8 * j) % 2 ^ 8 = c.toNat / 2 ^ (8 * j) % 2 ^ 8 := by
    intro j hj
    rw [← toNat_lowByte b (by omega), ← toNat_lowByte c (by omega)]
    simp only [baseBytes, List.cons.injEq, and_true] at h
    match j, hj with
    | 0, _ => rw [h.1]
    | 1, _ => rw [h.2.1]
    | 2, _ => rw [h.2.2]
  have low := same 0 (by decide)
  have mid := same 1 (by decide)
  have high := same 2 (by decide)
  rw [← UInt32.toNat_inj]
  omega

theorem length_flatMap_baseBytes (bases : List UInt32) :
    (bases.flatMap baseBytes).length = 3 * bases.length := by
  induction bases with
  | nil => rfl
  | cons b bases ih => simp [ih, baseBytes]; omega

theorem flatMap_baseBytes_injective {bases bases' : List UInt32}
    (hlen : bases.length = bases'.length) (small : ∀ b ∈ bases, b.toNat < 2 ^ 24)
    (small' : ∀ b ∈ bases', b.toNat < 2 ^ 24)
    (h : bases.flatMap baseBytes = bases'.flatMap baseBytes) : bases = bases' := by
  induction bases generalizing bases' with
  | nil => exact (List.length_eq_zero_iff.mp hlen.symm).symm
  | cons b bases ih =>
      cases bases' with
      | nil => simp at hlen
      | cons c bases' =>
          obtain ⟨head, tail⟩ := List.append_inj h rfl
          rw [baseBytes_injective (small b (by simp)) (small' c (by simp)) head,
            ih (by simpa using hlen) (fun b hb => small b (by simp [hb]))
              (fun c hc => small' c (by simp [hc])) tail]

theorem baseIndex_three {i j : Nat} (h : 3 * i + j < 2 ^ 32) : baseIndex 3 i j = 3 * i + j := by
  have three : (3 : UInt32) = UInt32.ofNat 3 := rfl
  rw [baseIndex, three, ← UInt32.ofNat_mul, ← UInt32.ofNat_add, UInt32.toNat_ofNat', Nat.mul_comm,
    Nat.mod_eq_of_lt h]

theorem storeBaseByte_ok {topBases : List UInt32} {baseBuffer : List UInt8} {base : UInt32}
    {i j : Nat} (hbase : topBases[i]? = some base) (hlen : baseBuffer.length < 2 ^ 32)
    (room : 3 * i + j < baseBuffer.length) :
    storeBaseByte 3 topBases i baseBuffer j =
      .ok (overwrite baseBuffer (3 * i + j) [lowByte base j]) := by
  rw [storeBaseByte, hbase]
  simp only [baseIndex_three (room.trans hlen), set_eq_overwrite room]

/-- The first bytes of a base, as many as there is room for. -/
theorem storeBaseBytes_ok {topBases : List UInt32} {baseBuffer : List UInt8} {base : UInt32}
    {i : Nat} (hbase : topBases[i]? = some base) (hlen : baseBuffer.length < 2 ^ 32) (m : Nat)
    (room : 3 * i + m ≤ baseBuffer.length) :
    (List.range m).foldlM (storeBaseByte 3 topBases i) baseBuffer =
      .ok (overwrite baseBuffer (3 * i) ((List.range m).map (lowByte base))) := by
  induction m with
  | zero => simp [overwrite, pure, Except.pure]
  | succ m ih =>
      have filled : (overwrite baseBuffer (3 * i) ((List.range m).map (lowByte base))).length =
          baseBuffer.length := length_overwrite (by simp; omega)
      have next := overwrite_append baseBuffer (3 * i) ((List.range m).map (lowByte base))
        [lowByte base m] (by omega)
      rw [List.length_map, List.length_range] at next
      rw [List.range_succ, List.foldlM_append, ih (by omega), List.map_append, List.map_singleton,
        ← next]
      change [m].foldlM (storeBaseByte 3 topBases i) _ = _
      rw [List.foldlM_cons, storeBaseByte_ok hbase (by omega) (by omega)]
      rfl

theorem storeBase_ok {topBases : List UInt32} {baseBuffer : List UInt8} {base : UInt32}
    {i : Nat} (hbase : topBases[i]? = some base) (hlen : baseBuffer.length < 2 ^ 32)
    (room : 3 * i + 3 ≤ baseBuffer.length) :
    storeBase 3 topBases baseBuffer i = .ok (overwrite baseBuffer (3 * i) (baseBytes base)) :=
  storeBaseBytes_ok hbase hlen 3 room

theorem storeBase_badRead {topBases : List UInt32} (baseBuffer : List UInt8) {i : Nat}
    (h : topBases.length ≤ i) :
    storeBase 3 topBases baseBuffer i = .error (.badRead .topBases i) := by
  have absent : topBases[i]? = none := List.getElem?_eq_none h
  rw [storeBase, show List.range (3 : UInt32).toNat = [0, 1, 2] from rfl, List.foldlM_cons,
    storeBaseByte, absent]
  rfl

theorem storeBase_known {topBases : List UInt32} (baseSize : UInt32) (baseBuffer : List UInt8)
    {i : Nat} (h : i < topBases.length) :
    ∃ baseBuffer', storeBase baseSize topBases baseBuffer i = .ok baseBuffer' := by
  rw [storeBase]
  induction List.range baseSize.toNat generalizing baseBuffer with
  | nil => exact ⟨baseBuffer, rfl⟩
  | cons j js ih =>
      obtain ⟨baseBuffer', run⟩ := ih (baseBuffer.set (baseIndex baseSize i j)
        (lowByte topBases[i] j))
      refine ⟨baseBuffer', ?_⟩
      rw [List.foldlM_cons, storeBaseByte, List.getElem?_eq_getElem h]
      exact run

theorem fillBases_known {topBases : List UInt32} (baseSize : UInt32) (baseBuffer : List UInt8)
    (m : Nat) (known : m ≤ topBases.length) :
    ∃ baseBuffer', (List.range m).foldlM (storeBase baseSize topBases) baseBuffer =
      .ok baseBuffer' := by
  induction m with
  | zero => exact ⟨baseBuffer, rfl⟩
  | succ m ih =>
      obtain ⟨baseBuffer', before⟩ := ih (Nat.le_of_succ_le known)
      rw [foldlM_range_succ, before]
      exact storeBase_known baseSize baseBuffer' known

/-- The bases before entry `m`, in a buffer that has room for them. -/
theorem fillBases_ok {topBases : List UInt32} {baseBuffer : List UInt8}
    (hlen : baseBuffer.length < 2 ^ 32) (m : Nat) (known : m ≤ topBases.length)
    (room : 3 * m ≤ baseBuffer.length) :
    (List.range m).foldlM (storeBase 3 topBases) baseBuffer =
      .ok (overwrite baseBuffer 0 ((topBases.take m).flatMap baseBytes)) := by
  induction m with
  | zero => simp [overwrite, pure, Except.pure]
  | succ m ih =>
      have hm : m < topBases.length := known
      have hsize : ((topBases.take m).flatMap baseBytes).length = 3 * m := by
        rw [length_flatMap_baseBytes, List.length_take_of_le hm.le]
      have filled : (overwrite baseBuffer 0 ((topBases.take m).flatMap baseBytes)).length =
          baseBuffer.length := length_overwrite (by omega)
      have next := overwrite_append baseBuffer 0 ((topBases.take m).flatMap baseBytes)
        (baseBytes topBases[m]) (Nat.zero_le _)
      rw [hsize, Nat.zero_add] at next
      rw [List.range_succ, List.foldlM_append, ih hm.le (by omega),
        List.take_succ_eq_append_getElem hm,
        List.flatMap_append, List.flatMap_singleton, ← next]
      change [m].foldlM (storeBase 3 topBases) _ = _
      rw [List.foldlM_cons, storeBase_ok (List.getElem?_eq_getElem hm) (by omega) (by omega)]
      rfl

/-- What the whole loop does, for a list of top bases that six hex digits allow. -/
theorem fillBaseBuffer_cases (numBases : UInt32) (topBases : List UInt32)
    (few : topBases.length ≤ 2 ^ 24) :
    (numBases.toNat ≤ topBases.length ∧ fillBaseBuffer numBases 3 topBases =
      .ok ((topBases.take numBases.toNat).flatMap baseBytes)) ∨
    (topBases.length < numBases.toNat ∧
      fillBaseBuffer numBases 3 topBases = .error (.badRead .topBases topBases.length)) := by
  unfold fillBaseBuffer
  by_cases enough : numBases.toNat ≤ topBases.length
  · left
    have size : (malloc (numBases * 3).toNat).length = 3 * numBases.toNat := by
      rw [length_malloc, UInt32.toNat_mul, Nat.mul_comm]
      exact Nat.mod_eq_of_lt (show 3 * numBases.toNat < 2 ^ 32 by omega)
    refine ⟨enough, ?_⟩
    rw [fillBases_ok (by omega) numBases.toNat enough size.ge, overwrite_whole]
    rw [length_flatMap_baseBytes, List.length_take_of_le enough, size]
  · right
    obtain ⟨baseBuffer, before⟩ := fillBases_known 3 (malloc (numBases * 3).toNat)
      topBases.length le_rfl
    exact ⟨Nat.not_le.mp enough, foldlM_range_stops (Nat.not_le.mp enough) before
      (storeBase_badRead baseBuffer le_rfl)⟩

end MobilePIM
