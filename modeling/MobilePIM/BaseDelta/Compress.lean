import MobilePIM.BaseDelta.BaseBuffer
import MobilePIM.BaseDelta.Emission

/-!
`BaseDeltaComp` as a whole, for six hex digits of base. A run on the compression
branch ends normally exactly when there are enough distinct bases and the data
bits do not wrap. With too few bases it reads past the top bases, and with too
many bits it stores past the data buffer.
-/

namespace MobilePIM
open Bits Coverage

/-- What the compression branch leaves: the two buffers, and the state of the emission loop
before and after the last byte. -/
structure Emitted where
  baseBuffer : List UInt8
  dataBits : UInt32
  dataBufferSize : UInt32
  loop : EmitState
  final : EmitState

/-- `emitted` is absent when no compression is needed. -/
structure Outcome where
  estimate : Estimate
  emitted : Option Emitted

def performCompression (lenBase numBases : UInt32) (e : Estimate) (data : List UInt32) :
    Run Emitted := do
  let baseSize := (32 - (8 - lenBase) * 4) / 8
  let baseBuffer ← fillBaseBuffer numBases baseSize e.topBases
  let dataBits := dataBits lenBase numBases e.totalVals e.compressedCount
  let dataBufferSize := roundToBytes dataBits / 8
  let loop ← EmitState.emitLoop lenBase numBases e.topBases data (.init dataBufferSize)
  let final ← loop.storeLastByte dataBufferSize
  .ok { baseBuffer, dataBits, dataBufferSize, loop, final }

/-- `BaseDeltaComp`; it returns `estimate.numPagesNeeded`. -/
def baseDeltaComp (std : DescendingSort) (data : List UInt32) (inpX lenBase : UInt32)
    (out : OutVectors) (numBases : UInt32) : Run Outcome :=
  let e := estimate std out data inpX lenBase numBases
  if e.numPagesNeeded = inpX then .ok ⟨e, none⟩
  else do
    let emitted ← performCompression lenBase numBases e data
    .ok ⟨e, some emitted⟩

section Sizes

variable (std : DescendingSort) (out : OutVectors) (data : List UInt32) (inpX numBases : UInt32)

/-- A size in bytes, as it is computed from a number of bits. -/
theorem toNat_roundToBytes {n : Nat} (h : n ≤ 2 ^ 32 - 8) :
    (roundToBytes (UInt32.ofNat n) / 8).toNat = (n + 7) / 8 := by
  have eight : (8 : UInt32).toNat = 8 := rfl
  rw [roundToBytes, UInt32.toNat_div, UInt32.toNat_ofNat', UInt32.toNat_ofNat', eight,
    Nat.mod_eq_of_lt (show n < 2 ^ 32 by omega)]
  omega

/-- Past 2^32 - 8 bits the size is below one eighth of the bits. -/
theorem toNat_roundToBytes_lt {n : Nat} (h : 2 ^ 32 - 8 < n) :
    (roundToBytes (UInt32.ofNat n) / 8).toNat < n / 8 := by
  have eight : (8 : UInt32).toNat = 8 := rfl
  rw [roundToBytes, UInt32.toNat_div, UInt32.toNat_ofNat', UInt32.toNat_ofNat', eight]
  omega

theorem toNat_roundToBytes_wraps {n : Nat} (large : 2 ^ 32 - 8 < n) (below : n < 2 ^ 32) :
    (roundToBytes (UInt32.ofNat n) / 8).toNat = 0 := by
  have eight : (8 : UInt32).toNat = 8 := rfl
  rw [roundToBytes, UInt32.toNat_div, UInt32.toNat_ofNat', UInt32.toNat_ofNat', eight,
    Nat.mod_eq_of_lt below]
  omega

theorem toNat_roundToBytes_lt_pow (bits : UInt32) : (roundToBytes bits / 8).toNat < 2 ^ 29 := by
  have eight : (8 : UInt32).toNat = 8 := rfl
  have := (roundToBytes bits).toNat_lt
  rw [UInt32.toNat_div, eight]
  omega

/-- The codewords of all words, in the widths of the size formula. -/
theorem width_codewords :
    width (data.map (codeword 6 numBases (estimate std out data inpX 6 numBases).topBases)) =
      exactDataBits numBases data := by
  have count : ∀ (top : List UInt32) (l : List UInt32),
      width (l.map (codeword 6 numBases top)) =
        l.length + (8 + Nat.log2 numBases.toNat) * (l.countP fun word => baseData 6 word ∈ top) +
          (l.length - l.countP fun word => baseData 6 word ∈ top) * 32 := by
    intro top l
    induction l with
    | nil => rfl
    | cons word l ih =>
        have le := l.countP_le_length (p := fun word => baseData 6 word ∈ top)
        rw [List.map_cons, width, List.map_cons, List.sum_cons, ← width, ih, codeword_width,
          List.countP_cons, List.length_cons]
        by_cases h : baseData 6 word ∈ top
        · simp only [h, if_true, decide_true, compressedWidth]
          rw [Nat.mul_add, Nat.add_sub_add_right]
          omega
        · simp only [h, if_false, decide_false, Bool.false_eq_true, Nat.add_zero]
          omega
  rw [count, exactDataBits, countP_topBases]

theorem toNat_lt_of_mem_topBases {b : UInt32}
    (h : b ∈ (estimate std out data inpX 6 numBases).topBases) : b.toNat < 2 ^ 24 := by
  obtain ⟨word, -, rfl⟩ :=
    List.mem_map.mp (mem_bases_of_mem_topBases std out data inpX 6 numBases h)
  exact toNat_baseData_lt word

theorem length_topBases_le :
    (estimate std out data inpX 6 numBases).topBases.length ≤ 2 ^ 24 :=
  length_le_of_nodup (estimate_topBases_nodup std out data inpX 6 numBases)
    fun _ => toNat_lt_of_mem_topBases std out data inpX numBases

end Sizes

section Runs

variable (std : DescendingSort) (out : OutVectors) (data : List UInt32) (inpX numBases : UInt32)

/-- The packer after all codewords. -/
def packed : Packer :=
  Packer.empty.emitAll
    (data.map (codeword 6 numBases (estimate std out data inpX 6 numBases).topBases))

theorem length_packed : 8 * (packed std out data inpX numBases).bytes.length +
    (packed std out data inpX numBases).count = exactDataBits numBases data := by
  rw [packed, Packer.length_emitAll, width_codewords]
  exact Nat.zero_add _

/-- What the compression branch leaves when it ends normally. -/
structure Packs (m : Emitted) : Prop where
  baseBuffer : m.baseBuffer = (estimate std out data inpX 6 numBases).topBases.flatMap baseBytes
  dataBits : m.dataBits.toNat = exactDataBits numBases data
  dataBufferSize : m.dataBufferSize.toNat = (exactDataBits numBases data + 7) / 8
  loop : m.loop.Simulates m.dataBufferSize.toNat (packed std out data inpX numBases)
  compressedWords : m.loop.compressedWords = bestCount 6 numBases data
  last : (packed std out data inpX numBases).count ≠ 0 → m.final = { m.loop with
    dataBuffer := (packed std out data inpX numBases).bytes ++ [m.loop.lastVal]
    stores := m.loop.stores ++ [m.loop.byteCount.toNat] }
  skip : (packed std out data inpX numBases).count = 0 → m.final = m.loop

theorem baseSize_six : (32 - (8 - 6) * 4 : UInt32) / 8 = 3 := rfl

theorem estimate_fillBaseBuffer (enough : numBases.toNat ≤ distinctBases 6 data) :
    fillBaseBuffer numBases 3 (estimate std out data inpX 6 numBases).topBases =
      .ok ((estimate std out data inpX 6 numBases).topBases.flatMap baseBytes) := by
  have hlen := length_estimate_topBases std out data inpX 6 numBases
  obtain ⟨-, filled⟩ := (fillBaseBuffer_cases numBases _
    (length_topBases_le std out data inpX numBases)).resolve_right (by omega)
  rwa [List.take_of_length_le (by omega)] at filled

theorem estimate_dataBits : dataBits 6 numBases (estimate std out data inpX 6 numBases).totalVals
    (estimate std out data inpX 6 numBases).compressedCount =
    UInt32.ofNat (exactDataBits numBases data) := by
  rw [estimate_compressedCount]
  exact dataBits_eq numBases data

theorem performCompression_packs (enough : numBases.toNat ≤ distinctBases 6 data)
    (small : exactDataBits numBases data ≤ 2 ^ 32 - 8) :
    ∃ m, performCompression 6 numBases (estimate std out data inpX 6 numBases) data = .ok m ∧
      Packs std out data inpX numBases m := by
  have total := length_packed std out data inpX numBases
  have filled := estimate_fillBaseBuffer std out data inpX numBases enough
  have bits := estimate_dataBits std out data inpX numBases
  have size := toNat_roundToBytes small
  obtain ⟨loop, run, sim, count⟩ := (EmitState.init_simulates
    (roundToBytes (UInt32.ofNat (exactDataBits numBases data)) / 8)).emitLoop_ok (by omega)
      (length_estimate_topBases_le std out data inpX 6 numBases) data (by
        change (packed std out data inpX numBases).bytes.length ≤ _
        omega)
  change loop.Simulates _ (packed std out data inpX numBases) at sim
  obtain ⟨final, last_run, last, skip⟩ := sim.storeLastByte_cases rfl (by rw [size, total])
  refine ⟨⟨(estimate std out data inpX 6 numBases).topBases.flatMap baseBytes,
    UInt32.ofNat (exactDataBits numBases data),
    roundToBytes (UInt32.ofNat (exactDataBits numBases data)) / 8, loop, final⟩,
    ?_, rfl, ?_, size, sim, ?_, last, skip⟩
  · simp only [performCompression, baseSize_six, filled, bits, run, last_run, bind, Except.bind]
  · rw [UInt32.toNat_ofNat', Nat.mod_eq_of_lt (by omega)]
  · rw [count, countP_topBases]
    exact Nat.zero_add _

theorem performCompression_badStore (enough : numBases.toNat ≤ distinctBases 6 data)
    (large : 2 ^ 32 - 8 < exactDataBits numBases data) :
    ∃ i, performCompression 6 numBases (estimate std out data inpX 6 numBases) data =
      .error (.badStore .dataBuffer i) := by
  have total := length_packed std out data inpX numBases
  have few := (packed std out data inpX numBases).count_lt
  have size := toNat_roundToBytes_lt large
  have limit := toNat_roundToBytes_lt_pow (UInt32.ofNat (exactDataBits numBases data))
  have full : (roundToBytes (UInt32.ofNat (exactDataBits numBases data)) / 8).toNat <
      (packed std out data inpX numBases).bytes.length := by omega
  have stop := (EmitState.init_simulates
    (roundToBytes (UInt32.ofNat (exactDataBits numBases data)) / 8)).emitLoop_error
      (by omega) (length_estimate_topBases_le std out data inpX 6 numBases) data full
  refine ⟨(roundToBytes (UInt32.ofNat (exactDataBits numBases data)) / 8).toNat, ?_⟩
  simp only [performCompression, baseSize_six,
    estimate_fillBaseBuffer std out data inpX numBases enough,
    estimate_dataBits, stop, bind, Except.bind]

theorem performCompression_fewBases (few : distinctBases 6 data < numBases.toNat) :
    performCompression 6 numBases (estimate std out data inpX 6 numBases) data =
      .error (.badRead .topBases (distinctBases 6 data)) := by
  have hlen := length_estimate_topBases std out data inpX 6 numBases
  rw [min_eq_right few.le] at hlen
  obtain ⟨-, stop⟩ := (fillBaseBuffer_cases numBases _
    (length_topBases_le std out data inpX numBases)).resolve_left (by omega)
  rw [hlen] at stop
  simp only [performCompression, baseSize_six, stop, bind, Except.bind]

theorem performCompression_badRead_iff :
    (∃ i, performCompression 6 numBases (estimate std out data inpX 6 numBases) data =
      .error (.badRead .topBases i)) ↔ distinctBases 6 data < numBases.toNat := by
  constructor
  · rintro ⟨i, stop⟩
    by_contra enough
    by_cases small : exactDataBits numBases data ≤ 2 ^ 32 - 8
    · obtain ⟨m, run, -⟩ := performCompression_packs std out data inpX numBases
        (Nat.not_lt.mp enough) small
      rw [run] at stop
      cases stop
    · obtain ⟨i, run⟩ := performCompression_badStore std out data inpX numBases
        (Nat.not_lt.mp enough) (Nat.not_le.mp small)
      rw [run] at stop
      cases stop
  · exact fun few => ⟨_, performCompression_fewBases std out data inpX numBases few⟩

theorem performCompression_ok_iff :
    (performCompression 6 numBases (estimate std out data inpX 6 numBases) data).toOption.isSome ↔
      numBases.toNat ≤ distinctBases 6 data ∧ exactDataBits numBases data ≤ 2 ^ 32 - 8 := by
  by_cases enough : numBases.toNat ≤ distinctBases 6 data
  · by_cases small : exactDataBits numBases data ≤ 2 ^ 32 - 8
    · obtain ⟨m, run, -⟩ := performCompression_packs std out data inpX numBases enough small
      exact iff_of_true (by rw [run]; rfl) ⟨enough, small⟩
    · obtain ⟨i, stop⟩ := performCompression_badStore std out data inpX numBases enough
        (Nat.not_le.mp small)
      exact iff_of_false (by rw [stop]; exact Bool.false_ne_true) fun h => small h.2
  · rw [performCompression_fewBases std out data inpX numBases (Nat.not_le.mp enough)]
    exact iff_of_false Bool.false_ne_true fun h => enough h.1

def Compressing : Prop := (estimate std out data inpX 6 numBases).numPagesNeeded ≠ inpX

theorem baseDeltaComp_eq (taken : Compressing std out data inpX numBases) :
    baseDeltaComp std data inpX 6 out numBases =
      (performCompression 6 numBases (estimate std out data inpX 6 numBases) data).map
        fun m => ⟨estimate std out data inpX 6 numBases, some m⟩ := by
  simp only [baseDeltaComp]
  rw [if_neg taken]
  rfl

def Finishes (m : Emitted) : Prop := baseDeltaComp std data inpX 6 out numBases =
  .ok ⟨estimate std out data inpX 6 numBases, some m⟩

theorem finishes_iff {m : Emitted} : Finishes std out data inpX numBases m ↔
    Compressing std out data inpX numBases ∧
      performCompression 6 numBases (estimate std out data inpX 6 numBases) data = .ok m := by
  by_cases taken : Compressing std out data inpX numBases
  · rw [Finishes, baseDeltaComp_eq std out data inpX numBases taken]
    cases performCompression 6 numBases (estimate std out data inpX 6 numBases) data <;>
      simp [Except.map, taken]
  · have whole : (estimate std out data inpX 6 numBases).numPagesNeeded = inpX := not_not.mp taken
    simp [Finishes, baseDeltaComp, whole, taken]

theorem Finishes.packs {m : Emitted} (h : Finishes std out data inpX numBases m) :
    Packs std out data inpX numBases m ∧ numBases.toNat ≤ distinctBases 6 data := by
  obtain ⟨-, run⟩ := (finishes_iff std out data inpX numBases).mp h
  obtain ⟨enough, small⟩ :=
    (performCompression_ok_iff std out data inpX numBases).mp (by rw [run]; rfl)
  obtain ⟨m', run', packs⟩ := performCompression_packs std out data inpX numBases enough small
  rw [run] at run'
  cases run'
  exact ⟨packs, enough⟩

theorem baseDeltaComp_badRead_iff (taken : Compressing std out data inpX numBases) :
    (∃ i, baseDeltaComp std data inpX 6 out numBases = .error (.badRead .topBases i)) ↔
    distinctBases 6 data < numBases.toNat := by
  rw [← performCompression_badRead_iff std out data inpX numBases,
    baseDeltaComp_eq std out data inpX numBases taken]
  refine exists_congr fun i => ?_
  cases performCompression 6 numBases (estimate std out data inpX 6 numBases) data <;>
    simp [Except.map]

/-- No read of `top_bases` while the base buffer is filled is out of range, exactly when
there are `num_bases` distinct bases. -/
theorem topBases_reads_inRange_iff (taken : Compressing std out data inpX numBases) :
    (∀ i, baseDeltaComp std data inpX 6 out numBases ≠ .error (.badRead .topBases i)) ↔
    numBases.toNat ≤ distinctBases 6 data := by
  rw [← not_iff_not, not_forall]
  simp only [ne_eq, not_not, Nat.not_le]
  exact baseDeltaComp_badRead_iff std out data inpX numBases taken

end Runs

/-- Two bases twice and one once, for one base: which of the two is chosen is open. The codewords
of two words are compressed and those of three are raw, 117 bits in all. -/
def tiedWords : List UInt32 := [0x105, 0x2AB, 0x107, 0x2CD, 0x300]

theorem exactTotalBits_tied : exactTotalBits 1 tiedWords = 173 := by decide

theorem compressing_tied (std : DescendingSort) : Compressing std ⟨[], [], []⟩ tiedWords 2 1 := by
  rw [Compressing, estimate_numPagesNeeded, exactTotalBits_tied]
  decide

theorem distinctBases_tied : (1 : UInt32).toNat ≤ distinctBases 6 tiedWords := by decide

/-- Three pages of zeros with eight bases, as the caller asks for: the only base is at index 0. -/
theorem topBases_read_outOfRange :
    Compressing .merge ⟨[], [], []⟩ (List.replicate 3072 0) 3 8 ∧
      ¬∀ i, baseDeltaComp .merge (List.replicate 3072 0) 3 6 ⟨[], [], []⟩ 8 ≠
        .error (.badRead .topBases i) := by
  have taken : Compressing .merge ⟨[], [], []⟩ (List.replicate 3072 0) 3 8 := by
    rw [Compressing, estimate_numPagesNeeded, exactTotalBits_replicate 3072 0 (by decide)]
    decide
  refine ⟨taken, not_forall.mpr ?_⟩
  simp only [ne_eq, not_not]
  rw [baseDeltaComp_badRead_iff _ _ _ _ _ taken, distinctBases_replicate 3072 0 (by decide)]
  decide

/-- One base is asked for and three are there. -/
theorem topBases_reads_inRange_tied :
    (∀ i, baseDeltaComp .merge tiedWords 2 6 ⟨[], [], []⟩ 1 ≠ .error (.badRead .topBases i)) ↔
      (1 : UInt32).toNat ≤ distinctBases 6 tiedWords :=
  topBases_reads_inRange_iff .merge ⟨[], [], []⟩ tiedWords 2 1 (compressing_tied .merge)

end MobilePIM
