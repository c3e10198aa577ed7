import MobilePIM.BaseDelta.Compress

/-!
What the sizes of `BaseDeltaComp` can be relied on for: the page count does not
depend on the order of the words or of equal counts, and what is emitted has the
sizes that were estimated, for every total of bits that can be rounded up.
-/

namespace MobilePIM
open Bits Coverage

section PageCount

variable (std : DescendingSort) (out : OutVectors) (data : List UInt32) (inpX numBases : UInt32)

def returnedPages (run : Run Outcome) : Option UInt32 :=
  run.toOption.map fun outcome => outcome.estimate.numPagesNeeded

theorem returnedPages_eq : returnedPages (baseDeltaComp std data inpX 6 out numBases) =
    if (estimate std out data inpX 6 numBases).numPagesNeeded = inpX ∨
        numBases.toNat ≤ distinctBases 6 data ∧ exactDataBits numBases data ≤ 2 ^ 32 - 8 then
      some (estimate std out data inpX 6 numBases).numPagesNeeded
    else none := by
  have ends := performCompression_ok_iff std out data inpX numBases
  by_cases whole : (estimate std out data inpX 6 numBases).numPagesNeeded = inpX
  · rw [if_pos (Or.inl whole)]
    simp only [baseDeltaComp, if_pos whole]
    rfl
  · rw [baseDeltaComp_eq std out data inpX numBases whole]
    cases run : performCompression 6 numBases (estimate std out data inpX 6 numBases) data with
    | error stop =>
        have fails : ¬_ := fun h => by simpa [run, Except.toOption] using ends.mpr h
        rw [if_neg (not_or.mpr ⟨whole, fails⟩)]
        rfl
    | ok m =>
        rw [if_pos (Or.inr (ends.mp (by simp [run, Except.toOption])))]
        rfl

/-- The greedy choice covers as many words as any choice of `num_bases` bases, so that
neither the order of the words nor that of equal counts shows in the page count, or in
whether a run comes to return it. -/
theorem compressedCount_optimal (hlen : data.length < 2 ^ 32) :
    IsGreatest {m | ∃ keys : Finset UInt32, keys.card ≤ numBases.toNat ∧
        m = data.countP fun word => baseData 6 word ∈ keys}
      (estimate std out data inpX 6 numBases).compressedCount.toNat ∧
    ∀ (std' : DescendingSort) (out' : OutVectors) (data' : List UInt32), data'.Perm data →
      (estimate std' out' data' inpX 6 numBases).numPagesNeeded =
        (estimate std out data inpX 6 numBases).numPagesNeeded ∧
      returnedPages (baseDeltaComp std' data' inpX 6 out' numBases) =
        if (estimate std out data inpX 6 numBases).numPagesNeeded = inpX ∨
            numBases.toNat ≤ distinctBases 6 data ∧ exactDataBits numBases data ≤ 2 ^ 32 - 8 then
          some (estimate std out data inpX 6 numBases).numPagesNeeded
        else none := by
  constructor
  · have few := bestCount_le 6 numBases data
    have greatest := best_isGreatest numBases.toNat (bases 6 data)
    simp only [coverage, bases, List.countP_map] at greatest
    rw [estimate_compressedCount, UInt32.toNat_ofNat', Nat.mod_eq_of_lt (few.trans_lt hlen)]
    exact greatest
  · intro std' out' data' perm
    obtain ⟨total, bits, distinct⟩ := exactTotalBits_perm numBases data perm
    have pages : (estimate std' out' data' inpX 6 numBases).numPagesNeeded =
        (estimate std out data inpX 6 numBases).numPagesNeeded := by
      rw [estimate_numPagesNeeded, estimate_numPagesNeeded, total]
    exact ⟨pages, by rw [returnedPages_eq, pages, bits, distinct]⟩

/-- One of two bases that are equally frequent is chosen, and one page is needed of two, also for
the words in reverse and another order of equal counts. -/
theorem compressedCount_optimal_tied :
    IsGreatest {m | ∃ keys : Finset UInt32, keys.card ≤ (1 : UInt32).toNat ∧
        m = tiedWords.countP fun word => baseData 6 word ∈ keys}
      (estimate .merge ⟨[], [], []⟩ tiedWords 2 6 1).compressedCount.toNat ∧
    (estimate (.reversed .merge) ⟨[], [], []⟩ tiedWords.reverse 2 6 1).numPagesNeeded =
      (estimate .merge ⟨[], [], []⟩ tiedWords 2 6 1).numPagesNeeded ∧
    returnedPages (baseDeltaComp (.reversed .merge) tiedWords.reverse 2 6 ⟨[], [], []⟩ 1) =
      some 1 := by
  obtain ⟨greatest, pages⟩ :=
    compressedCount_optimal .merge ⟨[], [], []⟩ tiedWords 2 1 (by decide)
  obtain ⟨same, returned⟩ := pages (.reversed .merge) ⟨[], [], []⟩ tiedWords.reverse
    (List.reverse_perm _)
  have one : (estimate .merge ⟨[], [], []⟩ tiedWords 2 6 1).numPagesNeeded = 1 := by
    rw [estimate_numPagesNeeded, exactTotalBits_tied]
    decide
  refine ⟨greatest, same, ?_⟩
  rw [returned, one]
  exact if_pos (Or.inr ⟨distinctBases_tied, by decide⟩)

structure CountsPages : Prop where
  total : (totalBits 6 numBases (estimate std out data inpX 6 numBases).totalVals
    (estimate std out data inpX 6 numBases).compressedCount).toNat = exactTotalBits numBases data
  rounded : (roundToBytes (totalBits 6 numBases
    (estimate std out data inpX 6 numBases).totalVals
    (estimate std out data inpX 6 numBases).compressedCount)).toNat =
      (exactTotalBits numBases data + 7) / 8 * 8
  bufferSize : (estimate std out data inpX 6 numBases).compressedBufferSize.toNat =
    (exactTotalBits numBases data + 7) / 8
  returned : ∃ pages, returnedPages (baseDeltaComp std data inpX 6 out numBases) = some pages ∧
    pages.toNat = min inpX.toNat ((exactTotalBits numBases data + 32767) / 32768)

theorem estimate_totalBits : totalBits 6 numBases
    (estimate std out data inpX 6 numBases).totalVals
    (estimate std out data inpX 6 numBases).compressedCount =
      UInt32.ofNat (exactTotalBits numBases data) := by
  rw [estimate_compressedCount]
  exact totalBits_eq numBases data

/-- One rounding up after the other is one rounding up. -/
theorem toNat_numPagesNeeded (small : exactTotalBits numBases data ≤ 2 ^ 32 - 8) :
    (estimate std out data inpX 6 numBases).numPagesNeeded.toNat =
      min inpX.toNat ((exactTotalBits numBases data + 32767) / 32768) := by
  have size := toNat_roundToBytes small
  have pages : (pagesFor (roundToBytes (UInt32.ofNat (exactTotalBits numBases data)) / 8)).toNat =
      (exactTotalBits numBases data + 32767) / 32768 := by
    rw [pagesFor, size, UInt32.toNat_ofNat', Nat.mod_eq_of_lt (by omega)]
    omega
  rw [estimate_numPagesNeeded, ← pages]
  split
  · rename_i many
    exact (Nat.min_eq_left (UInt32.le_iff_toNat_le.mp many)).symm
  · rename_i few
    exact (Nat.min_eq_right (Nat.le_of_not_le fun h => few (UInt32.le_iff_toNat_le.mpr h))).symm

theorem CountsPages.total_le (h : CountsPages std out data inpX numBases) :
    exactTotalBits numBases data ≤ 2 ^ 32 - 8 := by
  have unwrapped := h.total
  have rounded := h.rounded
  rw [estimate_totalBits] at unwrapped rounded
  have below := (UInt32.ofNat (exactTotalBits numBases data)).toNat_lt
  have limit := (roundToBytes (UInt32.ofNat (exactTotalBits numBases data))).toNat_lt
  omega

theorem returnedPages_eq_some_iff (small : exactTotalBits numBases data ≤ 2 ^ 32 - 8)
    (pages : UInt32) : returnedPages (baseDeltaComp std data inpX 6 out numBases) = some pages ↔
      pages = (estimate std out data inpX 6 numBases).numPagesNeeded ∧
        (inpX.toNat ≤ (exactTotalBits numBases data + 32767) / 32768 ∨
          numBases.toNat ≤ distinctBases 6 data) := by
  have count := toNat_numPagesNeeded std out data inpX numBases small
  have bits : exactDataBits numBases data ≤ exactTotalBits numBases data := by
    rw [exactTotalBits]
    omega
  have whole : (estimate std out data inpX 6 numBases).numPagesNeeded = inpX ↔
      inpX.toNat ≤ (exactTotalBits numBases data + 32767) / 32768 := by
    rw [← UInt32.toNat_inj, count]
    omega
  have ends := or_congr whole
    (show numBases.toNat ≤ distinctBases 6 data ∧ _ ↔ _ from and_iff_left (bits.trans small))
  rw [returnedPages_eq]
  split
  · rename_i returns
    rw [Option.some.injEq, and_iff_left (ends.mp returns)]
    exact eq_comm
  · rename_i stops
    exact iff_of_false (fun h => by cases h) fun h => stops (ends.mpr h.2)

theorem countsPages_iff : CountsPages std out data inpX numBases ↔
    exactTotalBits numBases data ≤ 2 ^ 32 - 8 ∧
      (inpX.toNat ≤ (exactTotalBits numBases data + 32767) / 32768 ∨
        numBases.toNat ≤ distinctBases 6 data) := by
  have total := estimate_totalBits std out data inpX numBases
  constructor
  · intro h
    obtain ⟨pages, returns, -⟩ := h.returned
    exact ⟨h.total_le, ((returnedPages_eq_some_iff std out data inpX numBases h.total_le
      pages).mp returns).2⟩
  · intro h
    obtain ⟨small, ends⟩ := h
    have unwrapped : (UInt32.ofNat (exactTotalBits numBases data)).toNat =
        exactTotalBits numBases data := by
      rw [UInt32.toNat_ofNat', Nat.mod_eq_of_lt (by omega)]
    refine ⟨by rw [total, unwrapped], ?_, ?_, _,
      (returnedPages_eq_some_iff std out data inpX numBases small _).mpr ⟨rfl, ends⟩,
      toNat_numPagesNeeded std out data inpX numBases small⟩
    · rw [total, roundToBytes, unwrapped, UInt32.toNat_ofNat', Nat.mod_eq_of_lt (by omega)]
    · rw [estimate_compressedBufferSize, toNat_roundToBytes small]

/-- Pages of zeros with one base, too many of them for a 32-bit number of bits. -/
theorem countsPages_fails_wrapped :
    (List.replicate (1024 * 466034) (0 : UInt32)).length = 1024 * (466034 : UInt32).toNat ∧
      min (466034 : UInt32).toNat
        ((exactTotalBits 1 (List.replicate (1024 * 466034) 0) + 32767) / 32768) = 131073 ∧
      (estimate .merge ⟨[], [], []⟩ (List.replicate (1024 * 466034) 0) 466034 6 1).numPagesNeeded =
        1 ∧
      ¬CountsPages .merge ⟨[], [], []⟩ (List.replicate (1024 * 466034) 0) 466034 1 := by
  have total : exactTotalBits 1 (List.replicate (1024 * 466034) 0) = 2 ^ 32 + 2104 :=
    (exactTotalBits_replicate (1024 * 466034) 0 (by decide)).trans (by decide)
  refine ⟨List.length_replicate, by rw [total]; decide, ?_, fun h => ?_⟩
  · rw [estimate_numPagesNeeded, total]
    decide
  · have unwrapped := h.total
    rw [estimate_totalBits, total] at unwrapped
    exact absurd unwrapped (by decide)

end PageCount

section Agreement

variable (std : DescendingSort) (out : OutVectors) (data : List UInt32) (inpX numBases : UInt32)

structure Agrees (e : Estimate) (m : Emitted) : Prop where
  compressed : m.loop.compressedWords = e.compressedCount.toNat
  bits : 8 * m.loop.byteCount.toNat + m.loop.bitCount.toNat = m.dataBits.toNat
  stores : ∀ i ∈ m.loop.stores, i < m.dataBufferSize.toNat
  last : m.loop.bitCount ≠ 0 → m.final.stores = m.loop.stores ++ [m.dataBufferSize.toNat - 1] ∧
    m.dataBufferSize.toNat - 1 = m.loop.byteCount.toNat ∧
    m.loop.byteCount.toNat ∉ m.loop.stores
  size : m.baseBuffer.length + 4 + m.dataBufferSize.toNat = e.compressedBufferSize.toNat
  pages : e.compressedBufferSize.toNat ≤ 4096 * e.numPagesNeeded.toNat

theorem Packs.agrees {m : Emitted} (h : Packs std out data inpX numBases m)
    (enough : numBases.toNat ≤ distinctBases 6 data)
    (small : exactTotalBits numBases data ≤ 2 ^ 32 - 8)
    (taken : Compressing std out data inpX numBases) :
    Agrees (estimate std out data inpX 6 numBases) m := by
  have total := length_packed std out data inpX numBases
  have few := (packed std out data inpX numBases).count_lt
  have covered := bestCount_le 6 numBases data
  have exact_total : exactTotalBits numBases data =
      exactDataBits numBases data + 24 * numBases.toNat + 32 := rfl
  have words : data.length ≤ exactDataBits numBases data := by
    rw [exactDataBits]
    omega
  have size := toNat_roundToBytes small
  rw [← estimate_compressedBufferSize numBases data std out inpX] at size
  have hlen := length_estimate_topBases std out data inpX 6 numBases
  rw [min_eq_left enough] at hlen
  constructor
  · rw [h.compressedWords, estimate_compressedCount, UInt32.toNat_ofNat',
      Nat.mod_eq_of_lt (by omega)]
  · rw [h.loop.byteCount, h.loop.bitCount, h.dataBits]
    exact total
  · intro i hi
    rw [h.loop.stores, List.mem_range] at hi
    exact hi.trans_le h.loop.fits
  · intro some_bits
    have pending : (packed std out data inpX numBases).count ≠ 0 := by
      intro hzero
      rw [← h.loop.bitCount] at hzero
      exact some_bits (UInt32.toNat_inj.mp hzero)
    have index : m.dataBufferSize.toNat - 1 = m.loop.byteCount.toNat := by
      rw [h.dataBufferSize, h.loop.byteCount]
      omega
    refine ⟨?_, index, ?_⟩
    · rw [h.last pending, index]
    · rw [h.loop.stores, h.loop.byteCount, List.mem_range]
      exact Nat.lt_irrefl _
  · rw [h.baseBuffer, length_flatMap_baseBytes, hlen, h.dataBufferSize, size]
    omega
  · have pages := estimate_numPagesNeeded numBases data std out inpX
    rw [← estimate_compressedBufferSize numBases data std out inpX] at pages
    split at pages
    · exact absurd pages taken
    · rw [pages, pagesFor, UInt32.toNat_ofNat', Nat.mod_eq_of_lt (by omega)]
      omega

theorem total_le_of_agrees {m : Emitted} (below : exactTotalBits numBases data < 2 ^ 32)
    (h : Agrees (estimate std out data inpX 6 numBases) m) :
    exactTotalBits numBases data ≤ 2 ^ 32 - 8 := by
  by_contra large
  have size := h.size
  rw [estimate_compressedBufferSize, toNat_roundToBytes_wraps (Nat.not_le.mp large) below] at size
  omega

/-- The estimate and the emission loop agree exactly when rounding the total of bits up
to whole bytes does not wrap it to zero. -/
theorem agrees_iff (enough : numBases.toNat ≤ distinctBases 6 data)
    (below : exactTotalBits numBases data < 2 ^ 32)
    (taken : Compressing std out data inpX numBases) :
    (∃ m, Finishes std out data inpX numBases m ∧
      Agrees (estimate std out data inpX 6 numBases) m) ↔
    exactTotalBits numBases data ≤ 2 ^ 32 - 8 := by
  constructor
  · rintro ⟨m, -, h⟩
    exact total_le_of_agrees std out data inpX numBases below h
  · intro small
    have bits : exactDataBits numBases data ≤ 2 ^ 32 - 8 := by
      rw [exactTotalBits] at small
      omega
    obtain ⟨m, run, packs⟩ := performCompression_packs std out data inpX numBases enough bits
    refine ⟨m, ?_, packs.agrees std out data inpX numBases enough small taken⟩
    rw [Finishes, baseDeltaComp_eq std out data inpX numBases taken, run]
    rfl

end Agreement

theorem agrees_fails_wrapped :
    (1 : UInt32).toNat ≤ distinctBases 6 (List.replicate 477218582 0) ∧
      exactTotalBits 1 (List.replicate 477218582 0) < 2 ^ 32 ∧
      Compressing .merge ⟨[], [], []⟩ (List.replicate 477218582 0) 1 1 ∧
      ¬∃ m, Finishes .merge ⟨[], [], []⟩ (List.replicate 477218582 0) 1 1 m ∧
        Agrees (estimate .merge ⟨[], [], []⟩ (List.replicate 477218582 0) 1 6 1) m := by
  have total : exactTotalBits 1 (List.replicate 477218582 0) = 2 ^ 32 - 2 :=
    (exactTotalBits_replicate 477218582 0 (by decide)).trans (by decide)
  refine ⟨(distinctBases_replicate 477218582 0 (by decide)).ge, by rw [total]; decide, ?_, ?_⟩
  · rw [Compressing, estimate_numPagesNeeded, total]
    decide
  · rintro ⟨m, -, h⟩
    have small := total_le_of_agrees _ _ _ _ _ (by rw [total]; decide) h
    rw [total] at small
    exact absurd small (by decide)

/-- Two compressed words and three raw ones: fourteen bytes and five bits that are pending. -/
theorem agrees_iff_tied :
    ∃ m, Finishes .merge ⟨[], [], []⟩ tiedWords 2 1 m ∧
      Agrees (estimate .merge ⟨[], [], []⟩ tiedWords 2 6 1) m :=
  (agrees_iff .merge ⟨[], [], []⟩ tiedWords 2 1 distinctBases_tied
    (by rw [exactTotalBits_tied]; decide) (compressing_tied .merge)).mpr
      (by rw [exactTotalBits_tied]; decide)

end MobilePIM
