import MobilePIM.BaseDelta.Sizes
import MobilePIM.BaseDelta.Stream

/-!
What the buffers of `BaseDeltaComp` tell about the words, when the number of
bases is a power of two. The codewords are a prefix-free code and all whole
bytes of it are written, but `stream_val | 0xFF` fills the last, partial byte
with ones: the pending bits, and with them the last word, are lost.
-/

namespace MobilePIM
open Bits

section Code

variable {numBases : UInt32} {topBases : List UInt32}

theorem length_codeword_tail (narrow : 8 + 1 + Nat.log2 numBases.toNat < 16)
    (few : topBases.length ≤ numBases.toNat) {word : UInt32} {flag : Bool} {tail : List Bool}
    (h : codewordBits 6 numBases topBases word = flag :: tail) :
    tail.length = if flag then Nat.log2 numBases.toNat + 8 else 32 := by
  cases hi : topBases.idxOf? (baseData 6 word) with
  | none =>
      rw [codewordBits_of_not_mem numBases (List.idxOf?_eq_none_iff.mp hi)] at h
      obtain ⟨rfl, rfl⟩ := List.cons.inj h
      simp
  | some i =>
      rw [codewordBits_of_mem narrow few hi] at h
      obtain ⟨rfl, rfl⟩ := List.cons.inj h
      simp

/-- Words that differ at most in the last bit have codewords that do. -/
theorem codeword_bits_init (narrow : 8 + 1 + Nat.log2 numBases.toNat < 16)
    (few : topBases.length ≤ numBases.toNat) {a b : UInt32} (h : a.toNat / 2 = b.toNat / 2) :
    baseData 6 a = baseData 6 b ∧
      ∃ init, codewordBits 6 numBases topBases a = init ++ field 1 a.toNat ∧
        codewordBits 6 numBases topBases b = init ++ field 1 b.toNat := by
  have base : baseData 6 a = baseData 6 b := by
    rw [← UInt32.toNat_inj, toNat_baseData_six, toNat_baseData_six]
    omega
  have last : ∀ n, ∀ word : UInt32, field (n + 1) word.toNat =
      field n (word.toNat / 2) ++ field 1 word.toNat := fun n word => field_add n 1 word.toNat
  refine ⟨base, ?_⟩
  cases hi : topBases.idxOf? (baseData 6 a) with
  | none =>
      have absent := List.idxOf?_eq_none_iff.mp hi
      refine ⟨false :: field 31 (a.toNat / 2), ?_, ?_⟩
      · rw [codewordBits_of_not_mem numBases absent, last 31, List.cons_append]
      · rw [codewordBits_of_not_mem numBases (base ▸ absent), last 31, h, List.cons_append]
  | some i =>
      refine ⟨true :: (field (Nat.log2 numBases.toNat) i ++ field 7 (a.toNat / 2)), ?_, ?_⟩
      · rw [codewordBits_of_mem narrow few hi, last 7, List.cons_append, List.append_assoc]
      · rw [codewordBits_of_mem narrow few (base ▸ hi), last 7, h, List.cons_append,
          List.append_assoc]

end Code

section Buffers

variable {std : DescendingSort} {out : OutVectors} {data : List UInt32} {inpX numBases : UInt32}
  {m : Emitted}

theorem Packs.dataBuffer (h : Packs std out data inpX numBases m) :
    m.final.dataBuffer = (packed std out data inpX numBases).bytes ++
      if (packed std out data inpX numBases).count = 0 then [] else [m.loop.lastVal] := by
  have total := length_packed std out data inpX numBases
  split
  · rename_i done
    have full : m.loop.dataBuffer.length = (packed std out data inpX numBases).bytes.length := by
      rw [h.loop.length, h.dataBufferSize]
      omega
    rw [h.skip done, List.append_nil, ← h.loop.bytes, ← full, List.take_length]
  · rename_i pending
    rw [h.last pending]

theorem Packs.topBases_eq {data' : List UInt32} {m' : Emitted}
    (h : Packs std out data inpX numBases m) (h' : Packs std out data' inpX numBases m')
    (enough : numBases.toNat ≤ distinctBases 6 data)
    (enough' : numBases.toNat ≤ distinctBases 6 data') (hbase : m'.baseBuffer = m.baseBuffer) :
    (estimate std out data' inpX 6 numBases).topBases =
      (estimate std out data inpX 6 numBases).topBases := by
  have hlen := length_estimate_topBases std out data inpX 6 numBases
  have hlen' := length_estimate_topBases std out data' inpX 6 numBases
  apply flatMap_baseBytes_injective
  · rw [hlen, hlen', min_eq_left enough, min_eq_left enough']
  · exact fun b hb => toNat_lt_of_mem_topBases std out data' inpX numBases hb
  · exact fun b hb => toNat_lt_of_mem_topBases std out data inpX numBases hb
  · rw [← h.baseBuffer, ← h'.baseBuffer, hbase]

theorem data_eq_of_buffers (hN : numBases.toNat = 2 ^ Nat.log2 numBases.toNat)
    (narrow : 8 + 1 + Nat.log2 numBases.toNat < 16)
    {data' : List UInt32} {m' : Emitted} (h : Finishes std out data inpX numBases m)
    (h' : Finishes std out data' inpX numBases m') (hlen : data'.length = data.length)
    (hbase : m'.baseBuffer = m.baseBuffer) (hdata : m'.final.dataBuffer = m.final.dataBuffer)
    (whole : exactDataBits numBases data % 8 = 0) : data' = data := by
  obtain ⟨packs, enough⟩ := h.packs
  obtain ⟨packs', enough'⟩ := h'.packs
  have few := length_estimate_topBases_le std out data inpX 6 numBases
  have free := codewordBits_prefixFree narrow few (few.trans_eq hN)
  have total := length_packed std out data inpX numBases
  have few_bits := (packed std out data inpX numBases).count_lt
  have few_bits' := (packed std out data' inpX numBases).count_lt
  have done : (packed std out data inpX numBases).count = 0 := by omega
  -- the stream of `data` is the buffer; that of `data'` leaves it inside the last byte
  have stream : data.flatMap (codewordBits 6 numBases
      (estimate std out data inpX 6 numBases).topBases) =
      ofBytes (packed std out data' inpX numBases).bytes ++
        ofBytes (if (packed std out data' inpX numBases).count = 0 then []
          else [m'.loop.lastVal]) := by
    have buffer := packs.dataBuffer
    rw [if_pos done, List.append_nil, ← hdata, packs'.dataBuffer] at buffer
    rw [← bits_packed, Packer.bits, done, ← buffer, ofBytes_append]
    exact List.append_nil _
  have stream' := bits_packed std out data' inpX numBases
  rw [packs.topBases_eq packs' enough enough' hbase, Packer.bits] at stream'
  have same_length := free.length_eq_of_common_prefix
    (fun a b c s t ha hb => (length_codeword_tail narrow few ha).trans
      (length_codeword_tail narrow few hb).symm) hlen.symm stream stream'.symm (fun word => by
        rw [length_field, ← bits_codeword, Codeword.length_bits, codeword_width, compressedWidth]
        split <;> omega)
  have done' : (packed std out data' inpX numBases).count = 0 := by
    by_contra pending
    rw [if_neg pending, length_field, length_ofBytes, List.length_singleton] at same_length
    omega
  rw [if_pos done', ofBytes_nil] at stream
  rw [done', field_zero] at stream'
  refine (free.flatMap_cancel hlen (s := []) (t := []) ?_).1
  rw [← stream', ← stream]

theorem lastVal_eq {st st' : EmitState} (h : st.bitCount = st'.bitCount)
    (small : st.bitCount.toNat < 8) : st.lastVal = st'.lastVal := by
  have ones : ∀ n, (n ||| 255) % 2 ^ 8 = 255 % 2 ^ 8 := by
    intro n
    rw [Nat.or_mod_two_pow, show 255 % 2 ^ 8 = 2 ^ 8 - 1 from rfl]
    refine Nat.eq_of_testBit_eq fun i => ?_
    rw [Nat.testBit_or, Nat.testBit_mod_two_pow, Nat.testBit_two_pow_sub_one]
    by_cases hi : i < 8 <;> simp [hi]
  have filled : ∀ st : EmitState, st.bitCount.toNat < 8 →
      st.lastVal.toNat = 255 * 2 ^ (8 - st.bitCount.toNat) % 2 ^ 8 := by
    intro st small
    have eight : (8 : UInt32).toNat = 8 := rfl
    have mask : (255 : UInt64).toNat = 255 := rfl
    have shift : (8 - st.bitCount).toUInt64.toNat = 8 - st.bitCount.toNat := by
      rw [UInt32.toNat_toUInt64, UInt32.toNat_sub_of_le _ _ (by
        rw [UInt32.le_iff_toNat_le, eight]
        omega), eight]
    rw [EmitState.lastVal, UInt64.toNat_toUInt8, UInt64.toNat_shiftLeft, UInt64.toNat_or, mask,
      shift, Nat.mod_eq_of_lt (show 8 - st.bitCount.toNat < 64 by omega), Nat.shiftLeft_eq,
      Nat.mod_mod_of_dvd _ (by decide), Nat.mul_mod, ones, ← Nat.mul_mod]
  rw [← UInt8.toNat_inj, filled st small, filled st' (h ▸ small), h]

theorem Finishes.of_sameBases {data' : List UInt32} (h : Finishes std out data inpX numBases m)
    (hbases : bases 6 data' = bases 6 data) :
    ∃ m', Finishes std out data' inpX numBases m' ∧ m'.baseBuffer = m.baseBuffer := by
  obtain ⟨packs, enough⟩ := h.packs
  obtain ⟨taken, run⟩ := (finishes_iff std out data inpX numBases).mp h
  have bits := exactDataBits_congr numBases data hbases
  have distinct : distinctBases 6 data' = distinctBases 6 data := by
    rw [distinctBases, distinctBases, hbases]
  have small := ((performCompression_ok_iff std out data inpX numBases).mp (by rw [run]; rfl)).2
  obtain ⟨m', run', packs'⟩ := performCompression_packs std out data' inpX numBases
    (distinct ▸ enough) (bits ▸ small)
  have pages : (estimate std out data' inpX 6 numBases).numPagesNeeded =
      (estimate std out data inpX 6 numBases).numPagesNeeded := by
    rw [estimate_numPagesNeeded, estimate_numPagesNeeded, exactTotalBits, exactTotalBits, bits]
  have taken' : Compressing std out data' inpX numBases := pages.trans_ne taken
  refine ⟨m', (finishes_iff std out data' inpX numBases).mpr ⟨taken', run'⟩, ?_⟩
  rw [packs'.baseBuffer, packs.baseBuffer,
    estimate_topBases_congr std out data inpX 6 numBases hbases]

theorem packed_congr (std : DescendingSort) (out : OutVectors) (inpX numBases : UInt32)
    {data data' : List UInt32} (hbases : bases 6 data' = bases 6 data) :
    (packed std out data' inpX numBases).bytes.length =
        (packed std out data inpX numBases).bytes.length ∧
      (packed std out data' inpX numBases).count = (packed std out data inpX numBases).count := by
  have bits := exactDataBits_congr numBases data hbases
  have total := length_packed std out data inpX numBases
  have total' := length_packed std out data' inpX numBases
  have few := (packed std out data inpX numBases).count_lt
  have few' := (packed std out data' inpX numBases).count_lt
  omega

/-- With a partial byte, words that differ in the last bit of the last word leave the same
buffers. -/
theorem Finishes.twin (narrow : 8 + 1 + Nat.log2 numBases.toNat < 16)
    (init : List UInt32) {x y : UInt32} (h : Finishes std out (init ++ [x]) inpX numBases m)
    (partly : exactDataBits numBases (init ++ [x]) % 8 ≠ 0) (hxy : x.toNat / 2 = y.toNat / 2) :
    ∃ m', Finishes std out (init ++ [y]) inpX numBases m' ∧ m'.baseBuffer = m.baseBuffer ∧
      m'.final.dataBuffer = m.final.dataBuffer := by
  have few := length_estimate_topBases_le std out (init ++ [x]) inpX 6 numBases
  obtain ⟨base, last, hx, hy⟩ := codeword_bits_init narrow few hxy
  have hbases : bases 6 (init ++ [y]) = bases 6 (init ++ [x]) := by
    simp only [bases, List.map_append, List.map_cons, base]
  obtain ⟨m', h', hbase⟩ := h.of_sameBases hbases
  refine ⟨m', h', hbase, ?_⟩
  have packs := h.packs.1
  have packs' := h'.packs.1
  have htop := estimate_topBases_congr std out (init ++ [x]) inpX 6 numBases hbases
  obtain ⟨same_length, same_count⟩ := packed_congr std out inpX numBases hbases
  -- the streams differ in their last bit, which is pending
  have total := length_packed std out (init ++ [x]) inpX numBases
  have pending : (packed std out (init ++ [x]) inpX numBases).count ≠ 0 := by omega
  have stream := bits_packed std out (init ++ [x]) inpX numBases
  have stream' := bits_packed std out (init ++ [y]) inpX numBases
  rw [List.flatMap_append, List.flatMap_singleton, hx, ← List.append_assoc] at stream
  rw [htop, List.flatMap_append, List.flatMap_singleton, hy, ← List.append_assoc] at stream'
  have same_bytes : (packed std out (init ++ [y]) inpX numBases).bytes =
      (packed std out (init ++ [x]) inpX numBases).bytes := by
    apply ofBytes_injective
    rw [Packer.ofBytes_of_bits_concat stream pending,
      Packer.ofBytes_of_bits_concat stream' (same_count ▸ pending), same_length]
  have same_last : m'.loop.lastVal = m.loop.lastVal := by
    have hcount : m'.loop.bitCount = m.loop.bitCount := by
      rw [← UInt32.toNat_inj, packs'.loop.bitCount, packs.loop.bitCount, same_count]
    exact lastVal_eq hcount (by rw [packs'.loop.bitCount]; exact Packer.count_lt _)
  rw [packs'.dataBuffer, packs.dataBuffer, same_bytes, same_count, same_last]

theorem exists_twin (x : UInt32) : ∃ y : UInt32, y ≠ x ∧ x.toNat / 2 = y.toNat / 2 := by
  have below := x.toNat_lt
  have hy : (UInt32.ofNat (x.toNat / 2 * 2 + (1 - x.toNat % 2))).toNat =
      x.toNat / 2 * 2 + (1 - x.toNat % 2) := by
    rw [UInt32.toNat_ofNat', Nat.mod_eq_of_lt (by omega)]
  refine ⟨UInt32.ofNat (x.toNat / 2 * 2 + (1 - x.toNat % 2)), fun h => ?_, by rw [hy]; omega⟩
  rw [h] at hy
  omega

/-- The buffers and the number of words determine the words exactly when the codewords
end with a whole byte. -/
theorem buffers_determine_data_iff {k : Nat} (hN : numBases.toNat = 2 ^ k) (hk : 8 + 1 + k < 16)
    (h : Finishes std out data inpX numBases m) :
    (∀ data' m', data'.length = data.length → numBases.toNat ≤ distinctBases 6 data' →
      Finishes std out data' inpX numBases m' → m'.baseBuffer = m.baseBuffer →
      m'.final.dataBuffer = m.final.dataBuffer → data' = data) ↔
    exactDataBits numBases data % 8 = 0 := by
  obtain rfl : k = Nat.log2 numBases.toNat := by rw [hN, Nat.log2_two_pow]
  constructor
  · intro determined
    by_contra partly
    obtain ⟨init, x, rfl⟩ : ∃ init x, data = init ++ [x] := by
      cases data using List.reverseRecOn with
      | nil => exact absurd rfl partly
      | append_singleton init x => exact ⟨init, x, rfl⟩
    obtain ⟨y, hne, hxy⟩ := exists_twin x
    obtain ⟨m', h', hbase, hdata⟩ := Finishes.twin hk init h partly hxy
    have same := determined _ m' (by simp) h'.packs.2 h' hbase hdata
    exact hne (by simpa using same)
  · intro whole data' m' hlen _ h' hbase hdata
    exact data_eq_of_buffers hN hk h h' hlen hbase hdata whole

end Buffers

def eightWords : List UInt32 := [0x105, 0x2AB, 0x107, 0x1CD, 0x100, 0x1FF, 0x300, 0x1AA]

theorem finishes_of_onePage (numBases : UInt32) (data : List UInt32)
    (enough : numBases.toNat ≤ distinctBases 6 data)
    (one : exactTotalBits numBases data ≤ 32768) :
    ∃ m, Finishes .merge ⟨[], [], []⟩ data 2 numBases m := by
  have small : exactDataBits numBases data ≤ 2 ^ 32 - 8 := by
    rw [exactTotalBits] at one
    omega
  obtain ⟨m, run, -⟩ :=
    performCompression_packs .merge ⟨[], [], []⟩ data 2 numBases enough small
  refine ⟨m, (finishes_iff _ _ _ _ _).mpr ⟨fun whole => ?_, run⟩⟩
  have pages := toNat_numPagesNeeded .merge ⟨[], [], []⟩ data 2 numBases (by omega)
  rw [whole, show (2 : UInt32).toNat = 2 from rfl] at pages
  omega

/-- The words 0 and 1, each alone with one base, leave the same buffers. -/
theorem buffers_do_not_determine_data :
    ∃ m m', Finishes .merge ⟨[], [], []⟩ [0] 2 1 m ∧ Finishes .merge ⟨[], [], []⟩ [1] 2 1 m' ∧
      (1 : UInt32).toNat ≤ distinctBases 6 [0] ∧ (1 : UInt32).toNat ≤ distinctBases 6 [1] ∧
      m'.baseBuffer = m.baseBuffer ∧ m'.final.dataBuffer = m.final.dataBuffer ∧
      ([1] : List UInt32) ≠ [0] := by
  obtain ⟨m, run⟩ := finishes_of_onePage 1 [0] (by decide) (by decide)
  obtain ⟨m', run', hbase, hdata⟩ :=
    Finishes.twin (y := 1) (by decide) [] run (by decide) (by decide)
  exact ⟨m, m', run, run', run.packs.2, run'.packs.2, hbase, hdata, by decide⟩

/-- Six words of one base and two raw ones, 128 bits in all: the buffers determine them. One word
with one base takes nine bits, and they do not. -/
theorem buffers_determine_data_iff_eight :
    (∃ m, Finishes .merge ⟨[], [], []⟩ eightWords 2 1 m ∧
      ∀ data' m', data'.length = 8 → (1 : UInt32).toNat ≤ distinctBases 6 data' →
        Finishes .merge ⟨[], [], []⟩ data' 2 1 m' → m'.baseBuffer = m.baseBuffer →
        m'.final.dataBuffer = m.final.dataBuffer → data' = eightWords) ∧
    ∃ m, Finishes .merge ⟨[], [], []⟩ [0] 2 1 m ∧
      ¬∀ data' m', data'.length = 1 → (1 : UInt32).toNat ≤ distinctBases 6 data' →
        Finishes .merge ⟨[], [], []⟩ data' 2 1 m' → m'.baseBuffer = m.baseBuffer →
        m'.final.dataBuffer = m.final.dataBuffer → data' = [0] := by
  obtain ⟨m, run⟩ := finishes_of_onePage 1 eightWords (by decide) (by decide)
  obtain ⟨m₀, run₀⟩ := finishes_of_onePage 1 [0] (by decide) (by decide)
  exact ⟨⟨m, run, (buffers_determine_data_iff (k := 0) rfl (by decide) run).mpr (by decide)⟩,
    m₀, run₀, fun all => absurd
      ((buffers_determine_data_iff (k := 0) rfl (by decide) run₀).mp all) (by decide)⟩

end MobilePIM
