import MobilePIM.BaseDelta.Histogram

/-!
The choice of the top bases and the size estimate of `BaseDeltaComp`. The sort
is any that orders by falling counts; all sizes are 32-bit and wrap. For six hex
digits of base the wrapped formulas are the exact ones modulo 2^32, with the best
coverage of the words by `num_bases` bases in the place of `compressed_count`.
-/

namespace MobilePIM
open Coverage

/-- `std::sort` by falling counts leaves some such permutation, ties in any order. -/
structure DescendingSort where
  sort : List (UInt32 × Nat) → List (UInt32 × Nat)
  perm : ∀ l, (sort l).Perm l
  sorted : ∀ l, (sort l).Pairwise fun p q => q.2 ≤ p.2

def DescendingSort.merge : DescendingSort where
  sort l := l.mergeSort fun p q => q.2 ≤ p.2
  perm l := List.mergeSort_perm l _
  sorted l := by
    have h : (l.mergeSort fun p q => q.2 ≤ p.2).Pairwise fun p q => decide (q.2 ≤ p.2) :=
      List.pairwise_mergeSort (fun a b c hab hbc => by simp at hab hbc ⊢; omega)
        (fun a b => by simp; omega) l
    exact h.imp fun hpq => by simpa using hpq

/-- Another order of equal counts. -/
def DescendingSort.reversed (std : DescendingSort) : DescendingSort where
  sort l := std.sort l.reverse
  perm l := (std.perm _).trans (List.reverse_perm l)
  sorted _ := std.sorted _

/-- `std::ceil(bits / 8.0) * 8`; a `double` of 2^32 converts to 0. -/
def roundToBytes (bits : UInt32) : UInt32 := UInt32.ofNat ((bits.toNat + 7) / 8 * 8)

/-- `std::ceil(size / 4096.0)`. -/
def pagesFor (size : UInt32) : UInt32 := UInt32.ofNat ((size.toNat + 4095) / 4096)

/-- `log2` of 0 is `-inf`, which converts to 0. -/
def logNbases (numBases : UInt32) : UInt32 := UInt32.ofNat (Nat.log2 numBases.toNat)

def totalBits (lenBase numBases totalVals compressedCount : UInt32) : UInt32 :=
  totalVals * 1 + (32 - (8 - lenBase) * 4) * numBases +
    ((8 - lenBase) * 4 + logNbases numBases) * compressedCount +
    (totalVals - compressedCount) * 32 + 32

def dataBits (lenBase numBases totalVals compressedCount : UInt32) : UInt32 :=
  totalVals * 1 + ((8 - lenBase) * 4 + logNbases numBases) * compressedCount +
    (totalVals - compressedCount) * 32

/-- The locals of `BaseDeltaComp` at its branch. -/
structure Estimate where
  tables : BaseTables
  topBases : List UInt32
  compressedCount : UInt32
  totalVals : UInt32
  compressedBufferSize : UInt32
  numPagesNeeded : UInt32

def effectiveNumBases (numBases : UInt32) (sortedBaseCount : List (UInt32 × Nat)) : Nat :=
  min numBases.toNat sortedBaseCount.length

def topBases (numBases : UInt32) (sortedBaseCount : List (UInt32 × Nat)) : List UInt32 :=
  (sortedBaseCount.take (effectiveNumBases numBases sortedBaseCount)).map Prod.fst

def compressedCount (numBases : UInt32) (sortedBaseCount : List (UInt32 × Nat)) : UInt32 :=
  (sortedBaseCount.take (effectiveNumBases numBases sortedBaseCount)).foldl
    (fun count p => count + UInt32.ofNat p.2) 0

def estimate (std : DescendingSort) (out : OutVectors) (data : List UInt32)
    (inpX lenBase numBases : UInt32) : Estimate :=
  let tables := BaseTables.internLoop out lenBase data
  let sortedBaseCount := std.sort tables.baseCountMap.toList
  let compressedCount := compressedCount numBases sortedBaseCount
  let totalVals := UInt32.ofNat data.length
  let roundedBits := roundToBytes (totalBits lenBase numBases totalVals compressedCount)
  let compressedBufferSize := roundedBits / 8
  let numPagesNeeded := pagesFor compressedBufferSize
  { tables
    topBases := topBases numBases sortedBaseCount
    compressedCount
    totalVals
    compressedBufferSize
    numPagesNeeded := if numPagesNeeded ≥ inpX then inpX else numPagesNeeded }

/-- The number of words a best choice of `num_bases` bases covers. -/
def bestCount (lenBase numBases : UInt32) (data : List UInt32) : Nat :=
  best numBases.toNat (bases lenBase data)

def distinctBases (lenBase : UInt32) (data : List UInt32) : Nat :=
  (bases lenBase data).toFinset.card

/-- The exact number of bits of the words' codewords. -/
def exactDataBits (numBases : UInt32) (data : List UInt32) : Nat :=
  data.length + (8 + Nat.log2 numBases.toNat) * bestCount 6 numBases data +
    (data.length - bestCount 6 numBases data) * 32

/-- The exact number of bits of the whole output. -/
def exactTotalBits (numBases : UInt32) (data : List UInt32) : Nat :=
  exactDataBits numBases data + 24 * numBases.toNat + 32

theorem bestCount_le (lenBase numBases : UInt32) (data : List UInt32) :
    bestCount lenBase numBases data ≤ data.length :=
  (best_le_length _ _).trans_eq (length_bases lenBase data)

section TopBases

variable (std : DescendingSort) (out : OutVectors) (data : List UInt32)
  (inpX lenBase numBases : UInt32)

theorem sorted_ranking :
    Ranking (bases lenBase data)
      (std.sort (BaseTables.internLoop out lenBase data).baseCountMap.toList) :=
  (BaseTables.internLoop_interns out lenBase data).ranking (std.perm _) (std.sorted _)

theorem topBases_eq (ranked : List (UInt32 × Nat)) :
    topBases numBases ranked = (ranked.take numBases.toNat).map Prod.fst := by
  rw [topBases, effectiveNumBases, ← List.take_eq_take_min]

theorem compressedCount_eq_sum (ranked : List (UInt32 × Nat)) :
    compressedCount numBases ranked =
      UInt32.ofNat ((ranked.take numBases.toNat).map Prod.snd).sum := by
  have fold : ∀ (l : List (UInt32 × Nat)) (m : Nat),
      l.foldl (fun count p => count + UInt32.ofNat p.2) (UInt32.ofNat m) =
        UInt32.ofNat (m + (l.map Prod.snd).sum) := by
    intro l
    induction l with
    | nil => intro m; rfl
    | cons p l ih =>
        intro m
        rw [List.foldl_cons, ← UInt32.ofNat_add, ih, List.map_cons, List.sum_cons, Nat.add_assoc]
  rw [compressedCount, effectiveNumBases, ← List.take_eq_take_min]
  simpa using fold (ranked.take numBases.toNat) 0

theorem estimate_compressedCount : (estimate std out data inpX lenBase numBases).compressedCount =
    UInt32.ofNat (bestCount lenBase numBases data) := by
  rw [bestCount, ← (sorted_ranking std out data lenBase).sum_take_eq_best]
  exact compressedCount_eq_sum numBases _

theorem estimate_topBases_nodup : (estimate std out data inpX lenBase numBases).topBases.Nodup := by
  change (topBases numBases _).Nodup
  rw [topBases_eq]
  exact (sorted_ranking std out data lenBase).nodup.sublist ((List.take_sublist _ _).map _)

theorem length_estimate_topBases : (estimate std out data inpX lenBase numBases).topBases.length =
    min numBases.toNat (distinctBases lenBase data) := by
  change (topBases numBases _).length = _
  rw [topBases_eq, List.length_map, List.length_take,
    (sorted_ranking std out data lenBase).length_eq, distinctBases]

theorem length_estimate_topBases_le :
    (estimate std out data inpX lenBase numBases).topBases.length ≤ numBases.toNat :=
  (length_estimate_topBases std out data inpX lenBase numBases).trans_le (min_le_left _ _)

theorem mem_bases_of_mem_topBases {b : UInt32}
    (h : b ∈ (estimate std out data inpX lenBase numBases).topBases) : b ∈ bases lenBase data := by
  change b ∈ topBases numBases _ at h
  rw [topBases_eq] at h
  exact ((sorted_ranking std out data lenBase).mem_keys b).mp
    (((List.take_sublist _ _).map _).subset h)

/-- The words whose base is a top base are as many as the best choice covers. -/
theorem countP_topBases :
    (data.countP fun word =>
      baseData lenBase word ∈ (estimate std out data inpX lenBase numBases).topBases) =
      bestCount lenBase numBases data := by
  have covered : coverage (topBases numBases (std.sort
      (BaseTables.internLoop out lenBase data).baseCountMap.toList)).toFinset (bases lenBase data) =
      bestCount lenBase numBases data := by
    rw [topBases_eq, ← (sorted_ranking std out data lenBase).sum_counts_eq_coverage
      (List.take_sublist _ _), (sorted_ranking std out data lenBase).sum_take_eq_best, bestCount]
  rw [← covered, coverage, bases, List.countP_map]
  simp only [List.mem_toFinset]
  rfl

/-- The top bases depend on the bases of the words only. -/
theorem estimate_topBases_congr {data' : List UInt32}
    (h : bases lenBase data' = bases lenBase data) :
    (estimate std out data' inpX lenBase numBases).topBases =
      (estimate std out data inpX lenBase numBases).topBases := by
  simp only [estimate, (BaseTables.internLoop_sameBases out h).baseCountMap]

/-- Nor do they depend on the order of the words. -/
theorem estimate_topBases_perm {data' : List UInt32}
    (h : (bases lenBase data').Perm (bases lenBase data)) :
    (estimate std out data' inpX lenBase numBases).topBases =
      (estimate std out data inpX lenBase numBases).topBases := by
  simp only [estimate, (BaseTables.internLoop_interns out lenBase data).toList_eq_of_perm
    (BaseTables.internLoop_interns out lenBase data') h]

end TopBases

section Sizes

variable (numBases : UInt32) (data : List UInt32)

theorem dataBits_eq : dataBits 6 numBases (UInt32.ofNat data.length)
    (UInt32.ofNat (bestCount 6 numBases data)) = UInt32.ofNat (exactDataBits numBases data) := by
  have head : ((8 - 6) * 4 : UInt32) = UInt32.ofNat 8 := by decide
  have word : (32 : UInt32) = UInt32.ofNat 32 := rfl
  rw [dataBits, exactDataBits, UInt32.mul_one, head, logNbases, ← UInt32.ofNat_add,
    ← UInt32.ofNat_mul, ← UInt32.ofNat_sub (bestCount_le 6 numBases data), word,
    ← UInt32.ofNat_mul, ← UInt32.ofNat_add, ← UInt32.ofNat_add]

theorem totalBits_eq : totalBits 6 numBases (UInt32.ofNat data.length)
    (UInt32.ofNat (bestCount 6 numBases data)) = UInt32.ofNat (exactTotalBits numBases data) := by
  have base : (32 - (8 - 6) * 4 : UInt32) = UInt32.ofNat 24 := by decide
  have bits := dataBits_eq numBases data
  have split : ∀ n c : UInt32, totalBits 6 numBases n c =
      dataBits 6 numBases n c + UInt32.ofNat 24 * numBases + 32 := by
    intro n c
    rw [totalBits, dataBits, base]
    ac_rfl
  have count : UInt32.ofNat 24 * numBases = UInt32.ofNat (24 * numBases.toNat) := by
    rw [UInt32.ofNat_mul, UInt32.ofNat_toNat]
  rw [split, bits, count, exactTotalBits, UInt32.ofNat_add, UInt32.ofNat_add]
  rfl

variable (std : DescendingSort) (out : OutVectors) (inpX : UInt32)

theorem estimate_compressedBufferSize :
    (estimate std out data inpX 6 numBases).compressedBufferSize =
      roundToBytes (UInt32.ofNat (exactTotalBits numBases data)) / 8 := by
  rw [← totalBits_eq, ← estimate_compressedCount std out data inpX 6 numBases]
  rfl

/-- The page count depends on the words only through the exact number of bits. -/
theorem estimate_numPagesNeeded :
    (estimate std out data inpX 6 numBases).numPagesNeeded =
      if pagesFor (roundToBytes (UInt32.ofNat (exactTotalBits numBases data)) / 8) ≥ inpX then inpX
      else pagesFor (roundToBytes (UInt32.ofNat (exactTotalBits numBases data)) / 8) := by
  rw [← estimate_compressedBufferSize numBases data std out inpX]
  rfl

theorem exactTotalBits_perm {data' : List UInt32} (h : data'.Perm data) :
    exactTotalBits numBases data' = exactTotalBits numBases data ∧
      exactDataBits numBases data' = exactDataBits numBases data ∧
      distinctBases 6 data' = distinctBases 6 data := by
  have hbases : (bases 6 data').Perm (bases 6 data) := h.map _
  have count : bestCount 6 numBases data' = bestCount 6 numBases data := best_perm _ hbases
  have bits : exactDataBits numBases data' = exactDataBits numBases data := by
    rw [exactDataBits, exactDataBits, count, h.length_eq]
  refine ⟨by rw [exactTotalBits, exactTotalBits, bits], bits, ?_⟩
  rw [distinctBases, distinctBases, List.toFinset_eq_of_perm _ _ hbases]

/-- So do all sizes. -/
theorem exactDataBits_congr {data' : List UInt32} (h : bases 6 data' = bases 6 data) :
    exactDataBits numBases data' = exactDataBits numBases data := by
  have hlen : data'.length = data.length := by
    rw [← length_bases 6 data', h, length_bases]
  rw [exactDataBits, exactDataBits, bestCount, bestCount, h, hlen]

end Sizes

theorem distinctBases_le_append (data data' : List UInt32) :
    distinctBases 6 data ≤ distinctBases 6 (data ++ data') := by
  rw [distinctBases, distinctBases, bases, bases, List.map_append, List.toFinset_append]
  exact Finset.card_le_card Finset.subset_union_left

section Replicate

variable (n : Nat) (word : UInt32)

theorem distinctBases_replicate (hn : n ≠ 0) : distinctBases 6 (List.replicate n word) = 1 := by
  rw [distinctBases, bases, List.map_replicate, List.toFinset_replicate_of_ne_zero hn,
    Finset.card_singleton]

theorem exactDataBits_replicate {numBases : UInt32} (h : 0 < numBases.toNat) :
    exactDataBits numBases (List.replicate n word) = n + (8 + Nat.log2 numBases.toNat) * n := by
  have count : bestCount 6 numBases (List.replicate n word) = n := by
    rw [bestCount, bases, List.map_replicate, best_replicate h]
  rw [exactDataBits, count, List.length_replicate]
  omega

theorem exactTotalBits_replicate {numBases : UInt32} (h : 0 < numBases.toNat) :
    exactTotalBits numBases (List.replicate n word) =
      n + (8 + Nat.log2 numBases.toNat) * n + 24 * numBases.toNat + 32 := by
  rw [exactTotalBits, exactDataBits_replicate n word h]

end Replicate
end MobilePIM
