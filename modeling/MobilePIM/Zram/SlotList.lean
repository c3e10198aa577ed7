import MobilePIM.Zram.Packing

/-!
What `slot_list` says after the packing loop and the final push of the current
slot. A refused page is stored nowhere, and a refused slot is listed without a
look at what it holds; both results say exactly on which traces this shows.
-/

namespace MobilePIM
open Bins

theorem filterMap_range_getElem? {α : Type*} (l : List α) (k : Nat) :
    (List.range k).filterMap (fun i => l[i]?) = l.take k := by
  induction k with
  | zero => rfl
  | succ k ih =>
      rw [List.range_succ, List.filterMap_append, ih, List.take_add_one]
      cases h : l[k]? <;> simp [h]

theorem length_flatten_take_le {α : Type*} (l : List (List α)) (k : Nat) :
    (l.take k).flatten.length ≤ l.flatten.length := by
  conv_rhs => rw [← List.take_append_drop k l]
  rw [List.flatten_append, List.length_append]
  exact Nat.le_add_right _ _

namespace PackState

variable {codec : Codec} {alg : CompressionAlgorithm} {slotSize : UInt64}

theorem Refines.heap_entries {st : PackState} {f : Filling Record} (h : st.Refines slotSize f) :
    st.heap.map ZRamBufferSlot.entries = f.all.map (·.map Record.stored) := by
  obtain ⟨done, slot, hheap, hdone, hcur⟩ := h.heap
  have same : ∀ {slots : List ZRamBufferSlot} {bins : List (List Record)},
      List.Forall₂ (HoldsBin slotSize) slots bins →
        slots.map ZRamBufferSlot.entries = bins.map (·.map Record.stored) := by
    intro slots bins hall
    induction hall with
    | nil => rfl
    | cons hbin _ ih => rw [List.map_cons, List.map_cons, ih, hbin.2.entries_eq]
  rw [hheap, Filling.all, List.map_append, List.map_append, same hdone]
  exact congrArg _ (same (.cons hcur .nil))

theorem Refines.listed_eq {st : PackState} {f : Filling Record} (h : st.Refines slotSize f)
    (k : Nat) : { st with slotList := List.range k }.listed =
      (f.all.take k).map (·.map Record.stored) := by
  have cells : (fun i : Nat => st.heap[i]?.map ZRamBufferSlot.entries) =
      fun i => (f.all.map (·.map Record.stored))[i]? := by
    funext i
    rw [← h.heap_entries, List.getElem?_map]
  simp only [listed]
  rw [cells, filterMap_range_getElem?, List.map_take]

/-- The number of slots listed by the final push: `getStoredPageCnt` is an `int`,
so a slot of 2^31 pages counts as empty. -/
def listedSlots (f : Filling Record) : Nat :=
  if 0 < f.current.length ∧ f.current.length < 2 ^ 31 then f.closed.length + 1
  else f.closed.length

theorem Refines.pushCurrent_eq {st : PackState} {f : Filling Record} (h : st.Refines slotSize f)
    (hlen : f.current.length ≤ 2 ^ 31) :
    st.pushCurrent = .ok { st with slotList := List.range (listedSlots f) } := by
  have hcurrent : f.all[st.currentSlot]? = some f.current := by
    simp [Filling.all, h.currentSlot]
  obtain ⟨slot, hget, -, hholds⟩ := h.heap_getElem? hcurrent
  have hcnt : slot.getStoredPageCnt > 0 ↔ 0 < f.current.length ∧ f.current.length < 2 ^ 31 := by
    have hmeta : slot.metainfo.length = f.current.length := by simp [hholds.metainfo]
    rw [gt_iff_lt, ZRamBufferSlot.getStoredPageCnt, hmeta]
    exact toInt_pos_iff hlen
  simp only [pushCurrent, hget, hcnt, listedSlots]
  split
  · rw [h.slotList, h.currentSlot, List.range_succ]
  · rw [← h.slotList]

theorem length_contents_le {f : Filling Record} :
    f.current.length ≤ f.all.flatten.length := by
  simp [Filling.all]

theorem prepareReadEvaluationEnv_refines (slotSize : UInt64) {trace : SwapoutTrace}
    {records : List Record}
    (h : Compresses codec alg (intLoop trace.dataPages) records) :
    ∃ st, st.Refines slotSize (dropFit Record.size slotSize.toNat records) ∧
      packLoop codec alg slotSize trace.dataPages = .ok st ∧
      prepareReadEvaluationEnv codec alg slotSize trace.dataPages =
        .ok { st with
          slotList := List.range (listedSlots (dropFit Record.size slotSize.toNat records)) } := by
  obtain ⟨st, run, href⟩ := packLoop_refines slotSize h
  have few : records.length ≤ 2 ^ 31 := h.length_eq.trans_le (length_intLoop_le _)
  have kept := (dropFit_sublist Record.size slotSize.toNat records).length_le
  refine ⟨st, href, run, ?_⟩
  rw [prepareReadEvaluationEnv, run]
  exact href.pushCurrent_eq (length_contents_le.trans (kept.trans few))

theorem fits_of_listed_flatten {trace : SwapoutTrace} {records : List Record}
    (h : Compresses codec alg trace.dataPages records) {st : PackState}
    (run : prepareReadEvaluationEnv codec alg slotSize trace.dataPages = .ok st)
    (hflat : st.listed.flatten = records.map Record.stored) :
    records.length < 2 ^ 31 ∧ load Record.size records ≤ slotSize.toNat := by
  obtain ⟨st, href, -, run'⟩ := prepareReadEvaluationEnv_refines slotSize h.visited
  rw [run'] at run
  cases run
  rw [href.listed_eq, ← List.map_flatten] at hflat
  have hlen := congrArg List.length hflat
  simp only [List.length_map] at hlen
  -- everything listed is stored, everything stored was visited, and nothing is missing
  have kept := dropFit_sublist Record.size slotSize.toNat (intLoop records)
  have listed_le := length_flatten_take_le
    (dropFit Record.size slotSize.toNat (intLoop records)).all
    (listedSlots (dropFit Record.size slotSize.toNat (intLoop records)))
  have few := length_intLoop_le records
  have all_visited : intLoop records = records :=
    intLoop_eq (hlen.symm.trans_le (listed_le.trans (kept.length_le.trans few)))
  rw [all_visited] at hlen kept listed_le few
  have hload := (dropFit_contents_eq_iff Record.size slotSize.toNat records).mp
    (kept.eq_of_length (le_antisymm kept.length_le (hlen.symm.trans_le listed_le)))
  refine ⟨Nat.lt_of_le_of_ne few ?_, hload⟩
  -- a single slot of 2^31 pages is not listed
  intro hfull
  rw [dropFit, fill_of_load_le _ _ _ _ hload] at hlen
  simp [listedSlots, hfull] at hlen

theorem listed_of_fits {trace : SwapoutTrace} {records : List Record}
    (h : Compresses codec alg trace.dataPages records) (hlen : records.length < 2 ^ 31)
    (hload : load Record.size records ≤ slotSize.toNat) :
    ∃ st, prepareReadEvaluationEnv codec alg slotSize trace.dataPages = .ok st ∧
      st.listed = (nextFit Record.size slotSize.toNat records).map (·.map Record.stored) ∧
      st.listed.flatten = records.map Record.stored := by
  obtain ⟨st, href, -, run⟩ := prepareReadEvaluationEnv_refines slotSize h.visited
  rw [intLoop_eq hlen.le, dropFit, fill_of_load_le _ _ _ _ hload] at href run
  have hlisted := href.listed_eq (listedSlots ⟨[], records⟩)
  have hnext : nextFit Record.size slotSize.toNat records =
      (Filling.all ⟨[], records⟩).take (listedSlots ⟨[], records⟩) := by
    rw [nextFit, fill_of_load_le _ _ _ _ hload]
    cases records with
    | nil => rfl
    | cons r records =>
        simp only [Filling.bins, listedSlots, Filling.all, hlen]
        simp
  refine ⟨_, run, by rw [hlisted, hnext], ?_⟩
  rw [hlisted, ← hnext, ← List.map_flatten, nextFit_flatten]

/-- The listed slots are the next-fit packing of the trace, and their contents the
trace itself, exactly when one slot takes the whole trace: the first page that a
slot refuses is compressed and then dropped. -/
theorem listed_complete_iff {trace : SwapoutTrace} {records : List Record}
    (h : Compresses codec alg trace.dataPages records) :
    (∃ st, prepareReadEvaluationEnv codec alg slotSize trace.dataPages = .ok st ∧
      st.listed = (nextFit Record.size slotSize.toNat records).map (·.map Record.stored) ∧
      st.listed.flatten = records.map Record.stored) ↔
    records.length < 2 ^ 31 ∧ load Record.size records ≤ slotSize.toNat := by
  constructor
  · rintro ⟨st, run, -, hflat⟩
    exact fits_of_listed_flatten h run hflat
  · rintro ⟨hlen, hload⟩
    exact listed_of_fits h hlen hload

/-- Forty frames with a page of zeros, for a slot of 1 KB: thirty-nine are listed. -/
theorem listed_incomplete_zeros :
    ∃ records, Compresses .vendored .lz4
        (sampleTrace zeroPage length_zeroPage (List.replicate 40 (7, 1))).dataPages records ∧
      (∀ r ∈ records, r.size ≤ (1024 : UInt64).toNat) ∧
      ¬∃ st, prepareReadEvaluationEnv .vendored .lz4 1024
          (sampleTrace zeroPage length_zeroPage (List.replicate 40 (7, 1))).dataPages = .ok st ∧
        st.listed = (nextFit Record.size (1024 : UInt64).toNat records).map (·.map Record.stored) ∧
        st.listed.flatten = records.map Record.stored := by
  obtain ⟨records, hc, hstored⟩ := zeros_compress (List.replicate 40 (7, 1))
  have sizes := size_eq_of_map_stored hstored
  have hlen : records.length = 40 := by simpa using congrArg List.length hstored
  refine ⟨records, hc, fun r hr => by rw [sizes r hr]; decide, ?_⟩
  rintro ⟨st, run, -, hflat⟩
  have hload := (fits_of_listed_flatten hc run hflat).2
  rw [load_eq_mul Record.size sizes, hlen] at hload
  exact absurd hload (by decide)

theorem listed_complete_zeros :
    ∃ records, Compresses .vendored .lz4
        (sampleTrace zeroPage length_zeroPage [(7, 1), (8, 1)]).dataPages records ∧
      ((∃ st, prepareReadEvaluationEnv .vendored .lz4 4096
          (sampleTrace zeroPage length_zeroPage [(7, 1), (8, 1)]).dataPages = .ok st ∧
        st.listed = (nextFit Record.size (4096 : UInt64).toNat records).map (·.map Record.stored) ∧
        st.listed.flatten = records.map Record.stored) ↔
      records.length < 2 ^ 31 ∧ load Record.size records ≤ (4096 : UInt64).toNat) := by
  obtain ⟨records, hc, -⟩ := zeros_compress [(7, 1), (8, 1)]
  exact ⟨records, hc, listed_complete_iff hc⟩

/-- The listed slots are the ones that hold a page: some slot was closed empty, or
the current one holds too many pages to be counted, otherwise. -/
theorem listedSlots_exact_iff {f : Filling Record} (hlen : f.current.length ≤ 2 ^ 31) :
    (∀ i, i < listedSlots f ↔ ∃ bin, f.all[i]? = some bin ∧ bin ≠ []) ↔
      [] ∉ f.closed ∧ f.current.length < 2 ^ 31 := by
  have last : f.all[f.closed.length]? = some f.current := by simp [Filling.all]
  constructor
  · intro exact
    refine ⟨fun hmem => ?_, Nat.lt_of_le_of_ne hlen fun hfull => ?_⟩
    · obtain ⟨i, hi, he⟩ := List.mem_iff_getElem.mp hmem
      have listed : i < listedSlots f := by
        unfold listedSlots
        split <;> omega
      obtain ⟨bin, hget, hne⟩ := (exact i).mp listed
      rw [Filling.all, List.getElem?_append_left hi, List.getElem?_eq_getElem hi, he] at hget
      exact hne (Option.some.inj hget).symm
    · have listed := (exact f.closed.length).mpr ⟨f.current, last, fun he => by simp [he] at hfull⟩
      simp [listedSlots, hfull] at listed
  · rintro ⟨noEmpty, few⟩ i
    rcases Nat.lt_trichotomy i f.closed.length with hi | rfl | hi
    · have listed : i < listedSlots f := by
        unfold listedSlots
        split <;> omega
      refine iff_of_true listed ⟨f.closed[i], ?_, fun he => noEmpty (he ▸ List.getElem_mem hi)⟩
      rw [Filling.all, List.getElem?_append_left hi, List.getElem?_eq_getElem hi]
    · simp only [last, Option.some.injEq, exists_eq_left', listedSlots, few, and_true,
        List.length_pos_iff]
      split <;> simp_all
    · have past : f.all[i]? = none := List.getElem?_eq_none (by simp [Filling.all]; omega)
      have unlisted : ¬i < listedSlots f := by
        unfold listedSlots
        split <;> omega
      simp [past, unlisted]

theorem Refines.nonempty_iff {st : PackState} {f : Filling Record} (h : st.Refines slotSize f)
    (i : Nat) : (∃ slot, st.heap[i]? = some slot ∧ slot.metainfo ≠ []) ↔
      ∃ bin, f.all[i]? = some bin ∧ bin ≠ [] := by
  have same_length : st.heap.length = f.all.length := by
    rw [h.length_heap, Filling.all, List.length_append, List.length_singleton]
  have nonempty : ∀ {slot : ZRamBufferSlot} {bin : List Record}, HoldsBin slotSize slot bin →
      (slot.metainfo ≠ [] ↔ bin ≠ []) := by
    intro slot bin hbin
    rw [hbin.2.metainfo]
    simp
  constructor
  · rintro ⟨slot, hget, hne⟩
    have hi : i < f.all.length := same_length ▸ (List.getElem?_eq_some_iff.mp hget).1
    obtain ⟨slot', hget', hbin⟩ := h.heap_getElem? (List.getElem?_eq_getElem hi)
    obtain rfl := Option.some.inj (hget.symm.trans hget')
    exact ⟨f.all[i], List.getElem?_eq_getElem hi, (nonempty hbin).mp hne⟩
  · rintro ⟨bin, hget, hne⟩
    obtain ⟨slot, hget', hbin⟩ := h.heap_getElem? hget
    exact ⟨slot, hget', (nonempty hbin).mpr hne⟩

/-- Nothing but an undivided trace puts 2^31 pages in the current slot. -/
theorem length_current_lt_iff (cap : Nat) (records : List Record) :
    (dropFit Record.size cap (intLoop records)).current.length < 2 ^ 31 ↔
      ¬(2 ^ 31 ≤ records.length ∧ load Record.size (intLoop records) ≤ cap) := by
  have kept := dropFit_sublist Record.size cap (intLoop records)
  have few := length_intLoop_le records
  have current_le := length_contents_le (f := dropFit Record.size cap (intLoop records))
  rw [← not_iff_not, not_not, Nat.not_lt]
  constructor
  · intro hfull
    have whole := kept.eq_of_length (le_antisymm kept.length_le
      (few.trans (hfull.trans current_le)))
    refine ⟨?_, (dropFit_contents_eq_iff Record.size cap _).mp whole⟩
    exact hfull.trans (current_le.trans (kept.length_le.trans (List.length_take_le' _ _)))
  · rintro ⟨many, hload⟩
    rw [dropFit, fill_of_load_le _ _ _ _ hload, intLoop, List.length_take_of_le many]

structure ListsStoringSlots (st : PackState) : Prop where
  nodup : st.slotList.Nodup
  mem_iff : ∀ i, i ∈ st.slotList ↔ ∃ slot, st.heap[i]? = some slot ∧ slot.metainfo ≠ []
  slotTree : ∀ (p : Int32) i, st.slotTree[p]? = some i → i ∈ st.slotList

theorem Refines.listsStoringSlots_iff {st : PackState} {f : Filling Record}
    (h : st.Refines slotSize f) :
    { st with slotList := List.range (listedSlots f) }.ListsStoringSlots ↔
      ∀ i, i < listedSlots f ↔ ∃ bin, f.all[i]? = some bin ∧ bin ≠ [] := by
  constructor
  · intro exact i
    rw [← h.nonempty_iff i, ← exact.mem_iff i, List.mem_range]
  · intro exact
    refine ⟨List.nodup_range, fun i => ?_, fun p i hp => ?_⟩
    · rw [List.mem_range, exact i, h.nonempty_iff i]
    · rw [List.mem_range, exact i]
      obtain ⟨hget, hany⟩ := newestIdx_eq_some ((h.slotTree p).symm.trans hp)
      exact ⟨_, hget, fun he => by simp [he] at hany⟩

def NoEmptyRefusal (slotSize : UInt64) (records : List Record) : Prop :=
  ∀ pre r post, records = pre ++ r :: post → slotSize.toNat < r.size →
    (dropFit Record.size slotSize.toNat pre).current ≠ []

theorem noEmptyRefusal_iff (records : List Record) :
    NoEmptyRefusal slotSize records ↔
      [] ∉ (dropFit Record.size slotSize.toNat records).closed := by
  rw [nil_mem_closed_iff]
  constructor
  · rintro h ⟨pre, r, post, hsplit, hempty, hlarge⟩
    exact h pre r post hsplit hlarge hempty
  · intro h pre r post hsplit hlarge hempty
    exact h ⟨pre, r, post, hsplit, hempty, hlarge⟩

/-- The loop and the final push, on a trace whose pages all compress, list the slots
that store a page as the bins of the packing say. -/
theorem listsStoringSlots_run_iff {trace : SwapoutTrace} {records : List Record}
    (h : Compresses codec alg trace.dataPages records) :
    (∃ st, prepareReadEvaluationEnv codec alg slotSize trace.dataPages = .ok st ∧
      st.ListsStoringSlots) ↔
    [] ∉ (dropFit Record.size slotSize.toNat (intLoop records)).closed ∧
      (dropFit Record.size slotSize.toNat (intLoop records)).current.length < 2 ^ 31 := by
  obtain ⟨st, href, -, run⟩ := prepareReadEvaluationEnv_refines slotSize h.visited
  have kept := dropFit_sublist Record.size slotSize.toNat (intLoop records)
  rw [← listedSlots_exact_iff
    (length_contents_le.trans (kept.length_le.trans (length_intLoop_le records))),
    ← href.listsStoringSlots_iff]
  constructor
  · rintro ⟨st', run', exact⟩
    rw [run] at run'
    cases run'
    exact exact
  · exact fun exact => ⟨_, run, exact⟩

/-- `slot_list` has every slot that stores a page once and no other slot, as long as no
page larger than a slot meets an empty current slot and the loop does not put 2^31
pages in one. -/
theorem slotList_exact_iff {trace : SwapoutTrace} {records : List Record}
    (h : Compresses codec alg trace.dataPages records) :
    (∃ st, prepareReadEvaluationEnv codec alg slotSize trace.dataPages = .ok st ∧
      st.ListsStoringSlots) ↔
    NoEmptyRefusal slotSize (intLoop records) ∧
      ¬(2 ^ 31 ≤ records.length ∧ load Record.size (intLoop records) ≤ slotSize.toNat) := by
  rw [listsStoringSlots_run_iff h, noEmptyRefusal_iff, length_current_lt_iff]

/-- One page that LZ4 cannot shrink, for the default slot of 4 KB: an empty slot is listed. -/
theorem slotList_has_empty_slot :
    ∃ records, Compresses .vendored .lz4
        (sampleTrace counterPage length_counterPage [(7, 1)]).dataPages records ∧
      ¬∃ st, prepareReadEvaluationEnv .vendored .lz4 4096
          (sampleTrace counterPage length_counterPage [(7, 1)]).dataPages = .ok st ∧
        st.ListsStoringSlots := by
  obtain ⟨records, hc, hstored⟩ := counters_compress [(7, 1)]
  refine ⟨records, hc, ?_⟩
  rw [listsStoringSlots_run_iff hc]
  rintro ⟨noEmpty, -⟩
  have hlen : records.length = 1 := by simpa using congrArg List.length hstored
  obtain ⟨r, rfl⟩ := List.length_eq_one_iff.mp hlen
  have hsize := size_eq_of_map_stored hstored r (List.mem_singleton_self r)
  refine (noEmptyRefusal_iff (intLoop [r])).mpr noEmpty [] r [] (intLoop_eq (by simp)) ?_ rfl
  rw [hsize, length_counterBlock]
  decide

theorem slotList_exact_zeros :
    ∃ records, Compresses .vendored .lz4
        (sampleTrace zeroPage length_zeroPage [(7, 1), (8, 1)]).dataPages records ∧
      ((∃ st, prepareReadEvaluationEnv .vendored .lz4 4096
          (sampleTrace zeroPage length_zeroPage [(7, 1), (8, 1)]).dataPages = .ok st ∧
        st.ListsStoringSlots) ↔
      NoEmptyRefusal 4096 (intLoop records) ∧
        ¬(2 ^ 31 ≤ records.length ∧
          load Record.size (intLoop records) ≤ (4096 : UInt64).toNat)) := by
  obtain ⟨records, hc, -⟩ := zeros_compress [(7, 1), (8, 1)]
  exact ⟨records, hc, slotList_exact_iff hc⟩

/-- With slots that have room for any compressed page and can be allocated, the shipped libraries
let the program drop no two pages in a row: of any two one is stored, and the slots hold at least
half of the pages. -/
theorem swapOut_vendored_stores (alg : CompressionAlgorithm) (roomy : 4419 ≤ slotSize.toNat)
    (allocated : MallocSucceeds slotSize) (trace : SwapoutTrace) :
    ∃ st, swapOut .vendored alg slotSize trace.dataPages = .ok st ∧
      (intLoop trace.dataPages).length ≤ 2 * (st.heap.flatMap ZRamBufferSlot.entries).length ∧
      ∀ pre x y post, intLoop trace.dataPages = pre ++ x :: y :: post →
        ∃ st₀ st₁ st₂, pre.foldlM (packPage .vendored alg slotSize) (init slotSize) = .ok st₀ ∧
          packPage .vendored alg slotSize st₀ x = .ok st₁ ∧
          packPage .vendored alg slotSize st₁ y = .ok st₂ ∧
          (Stores .vendored alg st₀ x st₁ ∨ Stores .vendored alg st₁ y st₂) := by
  obtain ⟨records, h⟩ := compresses_vendored alg trace.full
  obtain ⟨st, refines, -, run⟩ := prepareReadEvaluationEnv_refines slotSize h.visited
  have small : ∀ r ∈ intLoop records, r.size ≤ 4419 := h.visited.size_le
  have whole : slotSize.toNat < 2 ^ 63 := allocated
  refine ⟨_, by rw [swapOut, if_pos allocated, run], ?_, ?_⟩
  · have entries : (st.heap.flatMap ZRamBufferSlot.entries).length =
        (dropFit Record.size slotSize.toNat (intLoop records)).all.flatten.length := by
      rw [List.flatMap_def, refines.heap_entries, ← List.map_flatten, List.length_map]
    rw [entries, ← h.visited.length_eq]
    exact length_le_two_mul_dropFit Record.size slotSize.toNat fun r hr => (small r hr).trans roomy
  · intro pre x y post hsplit
    rw [← h.visited.pages, List.map_eq_append_iff] at hsplit
    obtain ⟨before, rest, split, rfl, pair⟩ := hsplit
    obtain ⟨rx, rest, rfl, rfl, second⟩ := List.map_eq_cons_iff.mp pair
    obtain ⟨ry, after, rfl, rfl, -⟩ := List.map_eq_cons_iff.mp second
    have mem : rx ∈ intLoop records ∧ ry ∈ intLoop records := by simp [split]
    have load_lt := h.visited.load_lt
    rw [split, load_append] at load_lt
    obtain ⟨st₀, run₀, refines₀⟩ := foldlM_refines (init_refines slotSize) before
      (fun r hr => h.visited.compressed r (split ▸ List.mem_append_left _ hr))
      (by simpa [Filling.empty] using (Nat.le_add_right _ _).trans_lt load_lt)
    have small_x := small rx mem.1
    have small_y := small ry mem.2
    obtain ⟨st₁, st₂, run₁, run₂, stores⟩ := packPage_stores_either refines₀ rx ry
      (h.visited.compressed rx mem.1) (h.visited.compressed ry mem.2) ⟨by omega, by omega⟩
      (small_y.trans roomy)
    exact ⟨st₀, st₁, st₂, run₀, run₁, run₂, stores⟩

/-- Three pages that LZ4 cannot shrink, in slots of 8 KB: the second one is dropped. -/
theorem swapOut_vendored_stores_counters :
    let trace := sampleTrace counterPage length_counterPage [(7, 1), (8, 1), (9, 1)]
    ∃ st, swapOut .vendored .lz4 8192 trace.dataPages = .ok st ∧
      (st.heap.flatMap ZRamBufferSlot.entries).map StoredPage.pfn = [7, 9] ∧
      (intLoop trace.dataPages).length ≤ 2 * (st.heap.flatMap ZRamBufferSlot.entries).length ∧
      ∀ pre x y post, intLoop trace.dataPages = pre ++ x :: y :: post →
        ∃ st₀ st₁ st₂, pre.foldlM (packPage .vendored .lz4 8192) (init 8192) = .ok st₀ ∧
          packPage .vendored .lz4 8192 st₀ x = .ok st₁ ∧
          packPage .vendored .lz4 8192 st₁ y = .ok st₂ ∧
          (Stores .vendored .lz4 st₀ x st₁ ∨ Stores .vendored .lz4 st₁ y st₂) := by
  intro trace
  obtain ⟨st, run, count, pairs⟩ :=
    swapOut_vendored_stores .lz4 (show 4419 ≤ (8192 : UInt64).toNat by decide) (by decide) trace
  refine ⟨st, run, ?_, count, pairs⟩
  obtain ⟨records, h, hstored⟩ := counters_compress [(7, 1), (8, 1), (9, 1)]
  obtain ⟨st', refines, -, run'⟩ := prepareReadEvaluationEnv_refines 8192 h.visited
  rw [swapOut, if_pos (by decide), run'] at run
  cases run
  have sizes := size_eq_of_map_stored hstored
  obtain ⟨a, b, c, rfl⟩ := List.length_eq_three.mp (by simpa using congrArg List.length hstored)
  rw [List.forall_mem_cons, List.forall_mem_cons, List.forall_mem_cons, length_counterBlock]
    at sizes
  obtain ⟨size_a, size_b, size_c, -⟩ := sizes
  have bins : (dropFit Record.size (8192 : UInt64).toNat [a, b, c]).all = [[a], [c]] := by
    simp [dropFit, fill, place, Filling.empty, Filling.all, load, size_a, size_b, size_c]
  simp only [List.map_cons, List.map_nil, List.cons.injEq, and_true] at hstored
  obtain ⟨stored_a, -, stored_c⟩ := hstored
  rw [List.flatMap_def, refines.heap_entries, intLoop_eq (by simp), bins]
  simp [stored_a, stored_c]

end PackState
end MobilePIM
