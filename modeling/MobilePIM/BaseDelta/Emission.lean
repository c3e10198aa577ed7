import MobilePIM.Foundation.Packer
import MobilePIM.BaseDelta.Estimate
import MobilePIM.Machine

/-!
The emission loop of `BaseDeltaComp`. A word becomes a codeword of nine bits and
an index, or of 33 bits; codewords go through a 64-bit accumulator to
`data_buffer`, whose size was estimated before. The loop is the bit packer as
long as the estimate suffices, and leaves the buffer at its first byte past it.
-/

namespace MobilePIM
open Bits

/-- The variables of the emission loop. The indices stored to and the number of words on the
compressed path are not variables of the program. -/
structure EmitState where
  dataBuffer : List UInt8
  bitCount : UInt32
  byteCount : UInt32
  streamVal : UInt64
  stores : List Nat
  compressedWords : Nat

/-- The two bytes of a compressed word: the flag over the base index, then the value. -/
def v1Byte (logNbases baseIndex vData : UInt32) : UInt16 :=
  let vByte0 : UInt8 := vData.toUInt8
  let vByte1 : UInt8 := (baseIndex &&& 0xFF).toUInt8
  let flag1 : UInt8 := ((1 : UInt32) <<< logNbases).toUInt8
  let vByte1 := flag1 ||| vByte1
  (vByte1.toUInt16 <<< 8) ||| vByte0.toUInt16

namespace EmitState

def init (dataBufferSize : UInt32) : EmitState where
  dataBuffer := malloc dataBufferSize.toNat
  bitCount := 0
  byteCount := 0
  streamVal := 0
  stores := []
  compressedWords := 0

def storeByte (st : EmitState) (index : Nat) (byte : UInt8) : Run EmitState := do
  let dataBuffer ← store .dataBuffer st.dataBuffer index byte
  .ok { st with dataBuffer, stores := st.stores ++ [index] }

/-- One turn of the loop over `k`. -/
def transferByte (byteTransfer : UInt32) (transferStreamVal : UInt64) (st : EmitState) (k : Nat) :
    Run EmitState :=
  st.storeByte (st.byteCount + UInt32.ofNat k).toNat
    ((transferStreamVal >>> (8 * (byteTransfer - UInt32.ofNat k - 1)).toUInt64) &&& 0xFF).toUInt8

def transfer (st : EmitState) (byteTransfer : UInt32) (transferStreamVal : UInt64) :
    Run EmitState :=
  (List.range byteTransfer.toNat).foldlM (transferByte byteTransfer transferStreamVal) st

/-- Both branches of the loop body: `code` is shifted in on `shift` bits, and the whole
bytes are moved to the buffer. -/
def emit (st : EmitState) (shift : UInt32) (code : UInt64) : Run EmitState := do
  let bitCount := st.bitCount + shift
  let byteTransfer := bitCount / 8
  let bitCount := bitCount % 8
  let streamVal := (st.streamVal <<< shift.toUInt64) ||| code
  let transferStreamVal := streamVal >>> bitCount.toUInt64
  let mask : UInt64 := ((1 : UInt64) <<< bitCount.toUInt64) - 1
  let st ← st.transfer byteTransfer transferStreamVal
  .ok { st with bitCount, streamVal := streamVal &&& mask, byteCount := st.byteCount + byteTransfer }

/-- One turn of the loop over the words. -/
def emitWord (lenBase numBases : UInt32) (topBases : List UInt32) (st : EmitState)
    (word : UInt32) : Run EmitState :=
  match topBases.idxOf? (baseData lenBase word) with
  | some baseIndex => do
      let v1 := v1Byte (logNbases numBases) (UInt32.ofNat baseIndex) (valData word)
      let st ← st.emit (8 + logNbases numBases + 1) v1.toUInt64
      .ok { st with compressedWords := st.compressedWords + 1 }
  | none => st.emit (32 + 1) word.toUInt64

def emitLoop (lenBase numBases : UInt32) (topBases data : List UInt32) (st : EmitState) :
    Run EmitState :=
  data.foldlM (emitWord lenBase numBases topBases) st

/-- `(stream_val | 0xFF) << (8 - bit_count)`, stored to a `char`. -/
def lastVal (st : EmitState) : UInt8 :=
  ((st.streamVal ||| 0xFF) <<< (8 - st.bitCount).toUInt64).toUInt8

/-- Handling the last byte. -/
def storeLastByte (st : EmitState) (dataBufferSize : UInt32) : Run EmitState :=
  if st.bitCount ≠ 0 then st.storeByte (dataBufferSize - 1).toNat st.lastVal else .ok st

/-- The loop has written the packer's bytes at the start of a buffer of `size` bytes, one
after the other, and holds its pending bits. -/
structure Simulates (size : Nat) (st : EmitState) (p : Packer) : Prop where
  length : st.dataBuffer.length = size
  bitCount : st.bitCount.toNat = p.count
  streamVal : st.streamVal.toNat = p.acc
  byteCount : st.byteCount.toNat = p.bytes.length
  fits : p.bytes.length ≤ size
  bytes : st.dataBuffer.take p.bytes.length = p.bytes
  stores : st.stores = List.range p.bytes.length

theorem init_simulates (dataBufferSize : UInt32) :
    (init dataBufferSize).Simulates dataBufferSize.toNat Packer.empty :=
  ⟨length_malloc _, rfl, rfl, rfl, Nat.zero_le _, rfl, rfl⟩

section Transfer

variable {st : EmitState} {byteTransfer : UInt32} {v : UInt64}

theorem transferred_eq {k : Nat} (small : byteTransfer.toNat ≤ 8) (hk : k < byteTransfer.toNat) :
    ((v >>> (8 * (byteTransfer - UInt32.ofNat k - 1)).toUInt64) &&& 0xFF).toUInt8 =
      UInt8.ofNat (v.toNat >>> (8 * (byteTransfer.toNat - k - 1))) := by
  have count : 8 * (byteTransfer - UInt32.ofNat k - 1) =
      UInt32.ofNat (8 * (byteTransfer.toNat - k - 1)) := by
    rw [UInt32.ofNat_mul, UInt32.ofNat_sub (by omega), UInt32.ofNat_sub (by omega),
      UInt32.ofNat_toNat]
    rfl
  have shift : (UInt32.ofNat (8 * (byteTransfer.toNat - k - 1))).toUInt64.toNat % 64 =
      8 * (byteTransfer.toNat - k - 1) := by
    rw [UInt32.toNat_toUInt64, UInt32.toNat_ofNat', Nat.mod_eq_of_lt (by omega),
      Nat.mod_eq_of_lt (by omega)]
  have mask : (255 : UInt64).toNat = 2 ^ 8 - 1 := rfl
  rw [← UInt8.toNat_inj, count, UInt64.toNat_toUInt8, UInt64.toNat_and, UInt64.toNat_shiftRight,
    shift, mask, Nat.and_two_pow_sub_one_eq_mod, Nat.mod_mod, UInt8.toNat_ofNat']

theorem storeByte_ok {index : Nat} {byte : UInt8} (h : index < st.dataBuffer.length) :
    st.storeByte index byte =
      .ok { st with
        dataBuffer := overwrite st.dataBuffer index [byte]
        stores := st.stores ++ [index] } := by
  rw [storeByte, store_ok h]
  rfl

theorem toNat_storeIndex (st : EmitState) (k : Nat) (hlen : st.byteCount.toNat + k < 2 ^ 32) :
    (st.byteCount + UInt32.ofNat k).toNat = st.byteCount.toNat + k := by
  rw [UInt32.toNat_add, UInt32.toNat_ofNat', Nat.mod_eq_of_lt (show k < 2 ^ 32 by omega),
    Nat.mod_eq_of_lt hlen]

/-- The first `m` bytes of a transfer, when they fit. -/
theorem transferByte_ok (small : byteTransfer.toNat ≤ 8) (hlen : st.dataBuffer.length < 2 ^ 32)
    (m : Nat) (hm : m ≤ byteTransfer.toNat)
    (room : st.byteCount.toNat + m ≤ st.dataBuffer.length) :
    (List.range m).foldlM (transferByte byteTransfer v) st =
      .ok { st with
        dataBuffer := overwrite st.dataBuffer st.byteCount.toNat
          ((bytesBE byteTransfer.toNat v.toNat).take m)
        stores := st.stores ++ List.range' st.byteCount.toNat m } := by
  induction m with
  | zero => simp [overwrite, pure, Except.pure]
  | succ m ih =>
      have taken : ((bytesBE byteTransfer.toNat v.toNat).take m).length = m := by simp; omega
      have filled : (overwrite st.dataBuffer st.byteCount.toNat
          ((bytesBE byteTransfer.toNat v.toNat).take m)).length = st.dataBuffer.length :=
        length_overwrite (by omega)
      have next := overwrite_append st.dataBuffer st.byteCount.toNat
        ((bytesBE byteTransfer.toNat v.toNat).take m)
        [UInt8.ofNat (v.toNat >>> (8 * (byteTransfer.toNat - m - 1)))] (by omega)
      rw [taken] at next
      rw [List.range_succ, List.foldlM_append, ih (by omega) (by omega),
        take_succ_bytesBE (by omega), ← next, List.range'_1_concat, ← List.append_assoc]
      change [m].foldlM (transferByte byteTransfer v) _ = _
      rw [List.foldlM_cons, transferByte]
      simp only [toNat_storeIndex st m (by omega), transferred_eq small hm]
      rw [storeByte_ok (by simp only [filled]; omega)]
      rfl

theorem transfer_ok (st : EmitState) (byteTransfer : UInt32) (v : UInt64)
    (small : byteTransfer.toNat ≤ 8) (hlen : st.dataBuffer.length < 2 ^ 32)
    (room : st.byteCount.toNat + byteTransfer.toNat ≤ st.dataBuffer.length) :
    st.transfer byteTransfer v = .ok { st with
      dataBuffer := overwrite st.dataBuffer st.byteCount.toNat (bytesBE byteTransfer.toNat v.toNat)
      stores := st.stores ++ List.range' st.byteCount.toNat byteTransfer.toNat } := by
  rw [transfer, transferByte_ok small hlen _ le_rfl room, List.take_of_length_le (by simp)]

theorem transfer_error (st : EmitState) (byteTransfer : UInt32) (v : UInt64)
    (small : byteTransfer.toNat ≤ 8) (hlen : st.dataBuffer.length < 2 ^ 32)
    (start : st.byteCount.toNat ≤ st.dataBuffer.length)
    (full : st.dataBuffer.length < st.byteCount.toNat + byteTransfer.toNat) :
    st.transfer byteTransfer v = .error (.badStore .dataBuffer st.dataBuffer.length) := by
  obtain ⟨m, hm⟩ := Nat.exists_eq_add_of_le start
  refine foldlM_range_stops (m := m) (by omega) (transferByte_ok small hlen m (by omega) hm.ge) ?_
  have filled : (overwrite st.dataBuffer st.byteCount.toNat
      ((bytesBE byteTransfer.toNat v.toNat).take m)).length = st.dataBuffer.length :=
    length_overwrite (by simp; omega)
  rw [transferByte, storeByte]
  simp only [toNat_storeIndex st m (by omega), ← hm, store_error filled.le]
  rfl
end Transfer

section Emit

variable {st : EmitState} {p : Packer} {c : Codeword} {shift : UInt32} {code : UInt64}

theorem toNat_bitCount (hcount : st.bitCount.toNat = p.count) (hshift : shift.toNat = c.width)
    (narrow : c.width ≤ 40) : (st.bitCount + shift).toNat = p.count + c.width := by
  have := p.count_lt
  rw [UInt32.toNat_add, hcount, hshift, Nat.mod_eq_of_lt (by omega)]

/-- Pending bits keep clear of the top of the accumulator when a codeword is shifted in. -/
theorem acc_shiftLeft_lt (p : Packer) {w : Nat} (narrow : w ≤ 40) : p.acc <<< w < 2 ^ 64 := by
  have few := p.count_lt
  rw [Nat.shiftLeft_eq]
  calc
    p.acc * 2 ^ w < 2 ^ p.count * 2 ^ w :=
      Nat.mul_lt_mul_of_pos_right p.acc_lt (Nat.two_pow_pos _)
    _ = 2 ^ (p.count + w) := (Nat.pow_add _ _ _).symm
    _ ≤ 2 ^ 64 := Nat.pow_le_pow_right (by decide) (by omega)

/-- The accumulator has room for the pending bits and the codeword. -/
theorem toNat_streamVal (hacc : st.streamVal.toNat = p.acc) (hshift : shift.toNat = c.width)
    (hcode : code.toNat = c.value) (narrow : c.width ≤ 40) :
    ((st.streamVal <<< shift.toUInt64) ||| code).toNat = p.acc <<< c.width ||| c.value := by
  rw [UInt64.toNat_or, UInt64.toNat_shiftLeft, UInt32.toNat_toUInt64, hshift, hacc, hcode,
    Nat.mod_eq_of_lt (show c.width < 64 by omega), Nat.mod_eq_of_lt (acc_shiftLeft_lt p narrow)]

theorem toNat_pending {x : UInt64} {b : UInt32} (hb : b.toNat < 8) :
    (x &&& (((1 : UInt64) <<< b.toUInt64) - 1)).toNat = x.toNat % 2 ^ b.toNat := by
  have one : ((1 : UInt64) <<< b.toUInt64).toNat = 2 ^ b.toNat := by
    rw [UInt64.toNat_shiftLeft, UInt32.toNat_toUInt64,
      Nat.mod_eq_of_lt (show b.toNat < 64 by omega), UInt64.toNat_one, Nat.one_shiftLeft]
    exact Nat.mod_eq_of_lt (Nat.pow_lt_pow_right (by decide) (by omega))
  have mask : (((1 : UInt64) <<< b.toUInt64) - 1).toNat = 2 ^ b.toNat - 1 := by
    rw [UInt64.toNat_sub_of_le _ _ (by
      rw [UInt64.le_iff_toNat_le, one, UInt64.toNat_one]
      exact Nat.one_le_two_pow), one, UInt64.toNat_one]
  rw [UInt64.toNat_and, mask, Nat.and_two_pow_sub_one_eq_mod]

theorem toNat_transferStreamVal {x : UInt64} {b : UInt32} (hb : b.toNat < 8) :
    (x >>> b.toUInt64).toNat = x.toNat >>> b.toNat := by
  rw [UInt64.toNat_shiftRight, UInt32.toNat_toUInt64, Nat.mod_eq_of_lt (by omega)]

theorem length_emit (p : Packer) (c : Codeword) :
    (p.emit c).bytes.length = p.bytes.length + (p.count + c.width) / 8 := by
  simp [Packer.emit]

/-- A transfer that fits puts its bytes behind those of the packer. -/
theorem Simulates.transfer_ok {size : Nat} (h : st.Simulates size p) (byteTransfer : UInt32)
    (v : UInt64) (small : byteTransfer.toNat ≤ 8) (hsize : size < 2 ^ 31)
    (room : p.bytes.length + byteTransfer.toNat ≤ size) :
    ∃ dataBuffer, st.transfer byteTransfer v = .ok { st with
        dataBuffer, stores := List.range (p.bytes.length + byteTransfer.toNat) } ∧
      dataBuffer.length = size ∧
      dataBuffer.take (p.bytes.length + byteTransfer.toNat) =
        p.bytes ++ bytesBE byteTransfer.toNat v.toNat := by
  have inside : p.bytes.length + (bytesBE byteTransfer.toNat v.toNat).length ≤
      st.dataBuffer.length := by
    rw [length_bytesBE, h.length]
    exact room
  have step := EmitState.transfer_ok st byteTransfer v small (by rw [h.length]; omega)
    (by rw [h.byteCount, h.length]; exact room)
  have copied := take_overwrite st.dataBuffer p.bytes.length
    (bytesBE byteTransfer.toNat v.toNat) (by omega)
  rw [length_bytesBE, h.bytes] at copied
  refine ⟨_, ?_, (length_overwrite inside).trans h.length, copied⟩
  rw [step, h.byteCount, h.stores, List.range_eq_range', List.range_eq_range',
    ← List.range'_append_1, Nat.zero_add]

/-- A codeword that fits is emitted as the packer emits it. -/
theorem Simulates.emit_ok {size : Nat} (h : st.Simulates size p) (shift : UInt32) (code : UInt64)
    (hsize : size < 2 ^ 31)
    (narrow : c.width ≤ 40) (hshift : shift.toNat = c.width) (hcode : code.toNat = c.value)
    (room : (p.emit c).bytes.length ≤ size) :
    ∃ st', st.emit shift code = .ok st' ∧ st'.Simulates size (p.emit c) ∧
      st'.compressedWords = st.compressedWords := by
  have few := p.count_lt
  have total := toNat_bitCount h.bitCount hshift narrow
  have whole : ((st.bitCount + shift) / 8).toNat = (p.count + c.width) / 8 := by
    rw [UInt32.toNat_div, total]
    rfl
  have rest : ((st.bitCount + shift) % 8).toNat = (p.count + c.width) % 8 := by
    rw [UInt32.toNat_mod, total]
    rfl
  have value := toNat_streamVal h.streamVal hshift hcode narrow
  have small : ((st.bitCount + shift) % 8).toNat < 8 := by rw [rest]; exact Nat.mod_lt _ (by decide)
  rw [length_emit] at room
  obtain ⟨dataBuffer, step, hlen, copied⟩ := h.transfer_ok ((st.bitCount + shift) / 8)
    (((st.streamVal <<< shift.toUInt64) ||| code) >>> ((st.bitCount + shift) % 8).toUInt64)
    (by omega) hsize (by rw [whole]; exact room)
  rw [toNat_transferStreamVal small, value, whole, rest] at copied
  refine ⟨{ st with
      dataBuffer
      bitCount := (st.bitCount + shift) % 8
      streamVal := ((st.streamVal <<< shift.toUInt64) ||| code) &&&
        (((1 : UInt64) <<< ((st.bitCount + shift) % 8).toUInt64) - 1)
      byteCount := st.byteCount + (st.bitCount + shift) / 8
      stores := List.range (p.bytes.length + ((st.bitCount + shift) / 8).toNat) },
    by simp only [emit, step, bind, Except.bind], ?_, rfl⟩
  refine ⟨hlen, rest, ?_, ?_, by rw [length_emit]; exact room, ?_, by rw [whole, length_emit]⟩
  · rw [toNat_pending small, value, rest]
    rfl
  · rw [UInt32.toNat_add, h.byteCount, whole, Nat.mod_eq_of_lt (by omega), length_emit]
  · rw [length_emit]
    exact copied

theorem Simulates.emit_error {size : Nat} (h : st.Simulates size p) (shift : UInt32) (code : UInt64)
    (hsize : size < 2 ^ 31)
    (narrow : c.width ≤ 40) (hshift : shift.toNat = c.width)
    (full : size < (p.emit c).bytes.length) :
    st.emit shift code = .error (.badStore .dataBuffer size) := by
  have few := p.count_lt
  have whole : ((st.bitCount + shift) / 8).toNat = (p.count + c.width) / 8 := by
    rw [UInt32.toNat_div, toNat_bitCount h.bitCount hshift narrow]
    rfl
  rw [length_emit] at full
  have step := transfer_error st ((st.bitCount + shift) / 8)
    (((st.streamVal <<< shift.toUInt64) ||| code) >>> ((st.bitCount + shift) % 8).toUInt64)
    (by omega) (by rw [h.length]; omega) (by rw [h.byteCount, h.length]; exact h.fits)
    (by rw [h.byteCount, whole, h.length]; exact full)
  rw [h.length] at step
  simp only [emit, step, bind, Except.bind]

end Emit
end EmitState

section Codewords

theorem toNat_logNbases (numBases : UInt32) :
    (logNbases numBases).toNat = Nat.log2 numBases.toNat ∧ Nat.log2 numBases.toNat < 32 := by
  have small : Nat.log2 numBases.toNat < 32 := by
    by_cases h : numBases.toNat = 0
    · rw [h]
      decide
    · rw [Nat.log2_lt h]
      exact numBases.toNat_lt
  refine ⟨?_, small⟩
  rw [logNbases, UInt32.toNat_ofNat', Nat.mod_eq_of_lt (by omega)]

/-- The number of bits of a compressed word. -/
def compressedWidth (numBases : UInt32) : Nat := 8 + Nat.log2 numBases.toNat + 1

theorem toNat_shift (numBases : UInt32) :
    (8 + logNbases numBases + 1).toNat = compressedWidth numBases := by
  obtain ⟨hlog, small⟩ := toNat_logNbases numBases
  have eight : (8 : UInt32).toNat = 8 := rfl
  have one : (1 : UInt32).toNat = 1 := rfl
  rw [compressedWidth, UInt32.toNat_add, UInt32.toNat_add, hlog, eight, one]
  omega

theorem toNat_valData (word : UInt32) : (valData word).toUInt8.toNat = word.toNat % 2 ^ 8 := by
  have mask : (255 : UInt32).toNat = 2 ^ 8 - 1 := rfl
  rw [valData, UInt32.toNat_toUInt8, UInt32.toNat_and, mask, Nat.and_two_pow_sub_one_eq_mod,
    Nat.mod_mod]

theorem toNat_v1Byte {numBases : UInt32} (small : Nat.log2 numBases.toNat < 8) {i : Nat}
    (hi : i < 2 ^ 8) (word : UInt32) :
    (v1Byte (logNbases numBases) (UInt32.ofNat i) (valData word)).toNat =
      (2 ^ Nat.log2 numBases.toNat ||| i) <<< 8 ||| word.toNat % 2 ^ 8 := by
  have hlog := (toNat_logNbases numBases).1
  have flag : ((1 : UInt32) <<< logNbases numBases).toUInt8.toNat =
      2 ^ Nat.log2 numBases.toNat := by
    have pow : 2 ^ Nat.log2 numBases.toNat < 2 ^ 8 := Nat.pow_lt_pow_right (by decide) small
    rw [UInt32.toNat_toUInt8, UInt32.toNat_shiftLeft, hlog, Nat.mod_eq_of_lt (show _ < 32 by omega),
      UInt32.toNat_one, Nat.one_shiftLeft, Nat.mod_eq_of_lt (show _ < 2 ^ 32 by omega),
      Nat.mod_eq_of_lt pow]
  have index : (UInt32.ofNat i &&& 0xFF).toUInt8.toNat = i := by
    have mask : (255 : UInt32).toNat = 2 ^ 8 - 1 := rfl
    rw [UInt32.toNat_toUInt8, UInt32.toNat_and, mask, Nat.and_two_pow_sub_one_eq_mod,
      UInt32.toNat_ofNat', Nat.mod_mod, Nat.mod_eq_of_lt (show i < 2 ^ 32 by omega),
      Nat.mod_eq_of_lt hi]
  have upper : 2 ^ Nat.log2 numBases.toNat ||| i < 2 ^ 8 :=
    Nat.or_lt_two_pow (Nat.pow_lt_pow_right (by decide) small) hi
  have fits : (2 ^ Nat.log2 numBases.toNat ||| i) <<< 8 < 2 ^ 16 := by
    rw [Nat.shiftLeft_eq]
    omega
  have eight : (8 : UInt16).toNat % 16 = 8 := rfl
  simp only [v1Byte]
  rw [UInt16.toNat_or, UInt16.toNat_shiftLeft, UInt8.toNat_toUInt16, UInt8.toNat_toUInt16,
    UInt8.toNat_or, flag, index, toNat_valData, eight, Nat.mod_eq_of_lt fits]

/-- An index below `num_bases` leaves the flag and the value bits of its word alone. -/
theorem v1Byte_lt {numBases : UInt32} {i : Nat} (hi : i < numBases.toNat) (word : UInt32) :
    (v1Byte (logNbases numBases) (UInt32.ofNat i) (valData word)).toNat <
      2 ^ compressedWidth numBases := by
  by_cases small : Nat.log2 numBases.toNat < 7
  · have below : i < 2 ^ (Nat.log2 numBases.toNat + 1) := hi.trans Nat.lt_log2_self
    have byte : i < 2 ^ 8 := below.trans_le (Nat.pow_le_pow_right (by decide) (by omega))
    have upper : 2 ^ Nat.log2 numBases.toNat ||| i < 2 ^ (Nat.log2 numBases.toNat + 1) :=
      Nat.or_lt_two_pow (Nat.pow_lt_pow_right (by decide) (Nat.lt_succ_self _)) below
    rw [toNat_v1Byte (by omega) byte, compressedWidth, Nat.add_assoc]
    apply Nat.or_lt_two_pow
    · rw [Nat.shiftLeft_eq, Nat.mul_comm, Nat.pow_add]
      exact Nat.mul_lt_mul_of_pos_left upper (by decide)
    · exact (Nat.mod_lt _ (by decide)).trans_le (Nat.pow_le_pow_right (by decide) (by omega))
  · -- 16 bits or more are asked for, and there are 16
    exact (UInt16.toNat_lt _).trans_le (Nat.pow_le_pow_right (by decide) (by
      rw [compressedWidth]
      omega))

/-- What the loop shifts in for a word: a compressed word, or a 0 bit and the word itself. -/
def codeword (lenBase numBases : UInt32) (topBases : List UInt32) (word : UInt32) : Codeword :=
  match topBases.idxOf? (baseData lenBase word) with
  | some baseIndex =>
      { width := compressedWidth numBases
        value := (v1Byte (logNbases numBases) (UInt32.ofNat baseIndex) (valData word)).toNat %
          2 ^ compressedWidth numBases
        value_lt := Nat.mod_lt _ (Nat.two_pow_pos _) }
  | none =>
      { width := 33
        value := word.toNat
        value_lt := word.toNat_lt.trans (by decide) }

variable {lenBase numBases : UInt32} {topBases : List UInt32}

theorem codeword_of_mem {word : UInt32} (few : topBases.length ≤ numBases.toNat) {i : Nat}
    (hi : topBases.idxOf? (baseData lenBase word) = some i) :
    i < numBases.toNat ∧ baseData lenBase word ∈ topBases ∧
      (codeword lenBase numBases topBases word).width = compressedWidth numBases ∧
      (codeword lenBase numBases topBases word).value =
        (v1Byte (logNbases numBases) (UInt32.ofNat i) (valData word)).toNat := by
  obtain ⟨hlt, hget, -⟩ := List.idxOf?_eq_some_iff.mp hi
  have inside : i < numBases.toNat := hlt.trans_le few
  refine ⟨inside, hget ▸ List.getElem_mem hlt, ?_, ?_⟩
  · rw [codeword, hi]
  · rw [codeword, hi]
    exact Nat.mod_eq_of_lt (v1Byte_lt inside word)

theorem codeword_of_not_mem (numBases : UInt32) {word : UInt32}
    (h : baseData lenBase word ∉ topBases) :
    (codeword lenBase numBases topBases word).width = 33 ∧
      (codeword lenBase numBases topBases word).value = word.toNat := by
  have hi := List.idxOf?_eq_none_iff.mpr h
  constructor <;> rw [codeword, hi]

theorem codeword_width (lenBase numBases : UInt32) (topBases : List UInt32) (word : UInt32) :
    (codeword lenBase numBases topBases word).width =
      if baseData lenBase word ∈ topBases then compressedWidth numBases else 33 := by
  cases hi : topBases.idxOf? (baseData lenBase word) with
  | none =>
      have absent := List.idxOf?_eq_none_iff.mp hi
      rw [(codeword_of_not_mem numBases absent).1, if_neg absent]
  | some i =>
      have known : baseData lenBase word ∈ topBases := by
        obtain ⟨hlt, hget, -⟩ := List.idxOf?_eq_some_iff.mp hi
        exact hget ▸ List.getElem_mem hlt
      rw [codeword, hi, if_pos known]

theorem codeword_narrow (lenBase numBases : UInt32) (topBases : List UInt32) (word : UInt32) :
    (codeword lenBase numBases topBases word).width ≤ 40 := by
  have := (toNat_logNbases numBases).2
  rw [codeword_width, compressedWidth]
  split <;> omega

theorem length_emit_le (p : Packer) (words : List Codeword) :
    p.bytes.length ≤ (p.emitAll words).bytes.length := by
  have total := p.length_emitAll words
  have few := (p.emitAll words).count_lt
  omega

namespace EmitState

variable {st : EmitState} {p : Packer} {size : Nat}

theorem Simulates.emitWord_ok (h : st.Simulates size p) (hsize : size < 2 ^ 31)
    (few : topBases.length ≤ numBases.toNat) (word : UInt32)
    (room : (p.emit (codeword lenBase numBases topBases word)).bytes.length ≤ size) :
    ∃ st', emitWord lenBase numBases topBases st word = .ok st' ∧
      st'.Simulates size (p.emit (codeword lenBase numBases topBases word)) ∧
      st'.compressedWords = st.compressedWords +
        if baseData lenBase word ∈ topBases then 1 else 0 := by
  have narrow := codeword_narrow lenBase numBases topBases word
  cases hi : topBases.idxOf? (baseData lenBase word) with
  | none =>
      have absent := List.idxOf?_eq_none_iff.mp hi
      obtain ⟨hwidth, hvalue⟩ := codeword_of_not_mem numBases absent
      obtain ⟨st', run, sim, same⟩ := h.emit_ok (32 + 1) word.toUInt64 hsize
        narrow hwidth.symm ((UInt32.toNat_toUInt64 word).trans hvalue.symm) room
      refine ⟨st', ?_, sim, by rw [same, if_neg absent, Nat.add_zero]⟩
      rw [emitWord, hi]
      exact run
  | some i =>
      obtain ⟨-, known, hwidth, hvalue⟩ := codeword_of_mem few hi
      obtain ⟨st', run, sim, same⟩ := h.emit_ok (8 + logNbases numBases + 1)
        ((v1Byte (logNbases numBases) (UInt32.ofNat i) (valData word)).toUInt64) hsize
        narrow ((toNat_shift numBases).trans hwidth.symm)
        ((UInt16.toNat_toUInt64 _).trans hvalue.symm) room
      refine ⟨{ st' with compressedWords := st'.compressedWords + 1 }, ?_,
        ⟨sim.length, sim.bitCount, sim.streamVal, sim.byteCount, sim.fits, sim.bytes, sim.stores⟩,
        by rw [same, if_pos known]⟩
      rw [emitWord, hi]
      simp only [run, bind, Except.bind]

theorem Simulates.emitWord_error (h : st.Simulates size p) (hsize : size < 2 ^ 31) (word : UInt32)
    (full : size < (p.emit (codeword lenBase numBases topBases word)).bytes.length) :
    emitWord lenBase numBases topBases st word = .error (.badStore .dataBuffer size) := by
  have narrow := codeword_narrow lenBase numBases topBases word
  have width := codeword_width lenBase numBases topBases word
  cases hi : topBases.idxOf? (baseData lenBase word) with
  | none =>
      rw [if_neg (List.idxOf?_eq_none_iff.mp hi)] at width
      rw [emitWord, hi]
      exact h.emit_error (32 + 1) word.toUInt64 hsize narrow width.symm full
  | some i =>
      obtain ⟨hlt, hget, -⟩ := List.idxOf?_eq_some_iff.mp hi
      rw [if_pos (hget ▸ List.getElem_mem hlt)] at width
      have stop := h.emit_error (8 + logNbases numBases + 1)
        ((v1Byte (logNbases numBases) (UInt32.ofNat i) (valData word)).toUInt64) hsize
        narrow ((toNat_shift numBases).trans width.symm) full
      rw [emitWord, hi]
      simp only [stop, bind, Except.bind]

theorem Simulates.emitLoop_ok (h : st.Simulates size p) (hsize : size < 2 ^ 31)
    (few : topBases.length ≤ numBases.toNat) (data : List UInt32)
    (room : (p.emitAll (data.map (codeword lenBase numBases topBases))).bytes.length ≤ size) :
    ∃ st', emitLoop lenBase numBases topBases data st = .ok st' ∧
      st'.Simulates size (p.emitAll (data.map (codeword lenBase numBases topBases))) ∧
      st'.compressedWords = st.compressedWords +
        data.countP fun word => baseData lenBase word ∈ topBases := by
  induction data generalizing st p with
  | nil => exact ⟨st, rfl, h, rfl⟩
  | cons word data ih =>
      rw [List.map_cons, Packer.emitAll_cons] at room ⊢
      obtain ⟨st', step, sim, count⟩ := h.emitWord_ok hsize few word
        ((length_emit_le _ _).trans room)
      obtain ⟨last, run, sim', count'⟩ := ih sim room
      refine ⟨last, ?_, sim', ?_⟩
      · rw [emitLoop, List.foldlM_cons, step]
        exact run
      · rw [count', count, List.countP_cons]
        simp only [decide_eq_true_eq]
        ac_rfl

theorem Simulates.emitLoop_error (h : st.Simulates size p) (hsize : size < 2 ^ 31)
    (few : topBases.length ≤ numBases.toNat) (data : List UInt32)
    (full : size < (p.emitAll (data.map (codeword lenBase numBases topBases))).bytes.length) :
    emitLoop lenBase numBases topBases data st = .error (.badStore .dataBuffer size) := by
  induction data generalizing st p with
  | nil => exact absurd full (Nat.not_lt.mpr h.fits)
  | cons word data ih =>
      rw [List.map_cons, Packer.emitAll_cons] at full
      rw [emitLoop, List.foldlM_cons]
      by_cases room : (p.emit (codeword lenBase numBases topBases word)).bytes.length ≤ size
      · obtain ⟨st', step, sim, -⟩ := h.emitWord_ok hsize few word room
        rw [step]
        exact ih sim full
      · rw [h.emitWord_error hsize word (Nat.not_le.mp room)]
        rfl

end EmitState
end Codewords

namespace EmitState

variable {st : EmitState} {p : Packer} {size : Nat}

/-- The last byte of a buffer that the pending bits need follows the bytes of the loop. -/
theorem Simulates.storeLastByte_ok (h : st.Simulates size p) {dataBufferSize : UInt32}
    (hsize : dataBufferSize.toNat = size) (pending : p.count ≠ 0)
    (room : size = p.bytes.length + 1) :
    st.storeLastByte dataBufferSize = .ok { st with
      dataBuffer := p.bytes ++ [st.lastVal]
      stores := List.range p.bytes.length ++ [p.bytes.length] } := by
  have some_bits : st.bitCount ≠ 0 := fun hzero => pending (by rw [← h.bitCount, hzero]; rfl)
  have last : (dataBufferSize - 1).toNat = p.bytes.length := by
    rw [UInt32.toNat_sub_of_le _ _ (by rw [UInt32.le_iff_toNat_le, UInt32.toNat_one]; omega),
      hsize, UInt32.toNat_one, room, Nat.add_sub_cancel]
  have buffer : overwrite st.dataBuffer p.bytes.length [st.lastVal] = p.bytes ++ [st.lastVal] := by
    rw [overwrite, h.bytes, List.drop_eq_nil_of_le (by rw [h.length, room]; simp), List.append_nil]
  rw [storeLastByte, if_pos some_bits, last, storeByte_ok (by rw [h.length, room]; omega), buffer,
    h.stores]

theorem Simulates.storeLastByte_skip (h : st.Simulates size p) (done : p.count = 0)
    (dataBufferSize : UInt32) : st.storeLastByte dataBufferSize = .ok st := by
  have no_bits : st.bitCount = 0 := by
    rw [← UInt32.toNat_inj, h.bitCount, done]
    rfl
  rw [storeLastByte, no_bits]
  rfl

/-- With a buffer of just the bytes that all bits need, the last byte is there or not needed. -/
theorem Simulates.storeLastByte_cases (h : st.Simulates size p) {dataBufferSize : UInt32}
    (hsize : dataBufferSize.toNat = size)
    (exact_size : size = (8 * p.bytes.length + p.count + 7) / 8) :
    ∃ final, st.storeLastByte dataBufferSize = .ok final ∧
      (p.count ≠ 0 → final = { st with
        dataBuffer := p.bytes ++ [st.lastVal], stores := st.stores ++ [st.byteCount.toNat] }) ∧
      (p.count = 0 → final = st) := by
  have few := p.count_lt
  by_cases pending : p.count = 0
  · exact ⟨st, h.storeLastByte_skip pending _, fun some_bits => absurd pending some_bits,
      fun _ => rfl⟩
  · refine ⟨_, h.storeLastByte_ok hsize pending (by omega), fun _ => ?_,
      fun done => absurd done pending⟩
    rw [h.stores, h.byteCount]

end EmitState
end MobilePIM
