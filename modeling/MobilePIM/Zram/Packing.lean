import Std.Data.TreeMap
import Mathlib.Data.List.Forall2
import MobilePIM.Zram.Slot
import MobilePIM.Zram.Vendored

/-!
The swap-out loop shared by the three programs: compress a page, offer it to
the current slot, and open a new slot when it is refused. Slots are heap cells
in order of allocation, so that `slot_tree`, `slot_list` and the current slot
share them. The loop is simulated by the lossy packing discipline `dropFit`.
-/

namespace MobilePIM
open Bins

/-- The data pages of a swap-out trace, each of 4096 bytes as `LoadTrace` makes them. -/
structure SwapoutTrace where
  dataPages : List DataPage
  full : ∀ page ∈ dataPages, page.metadata.pageSize = PAGE_SIZE

/-- A data page with its compressed form. -/
structure Record where
  dataPage : DataPage
  compressedPage : DataPage

def Record.pfn (r : Record) : Int32 := r.dataPage.metadata.pfn

def Record.size (r : Record) : Nat := r.compressedPage.metadata.compressedSize.toNat

def Record.stored (r : Record) : StoredPage := r.compressedPage.stored

/-- `records` are the pages of a trace, every one of which compresses. -/
structure Compresses (codec : Codec) (alg : CompressionAlgorithm)
    (dataPages : List DataPage) (records : List Record) : Prop where
  pages : records.map Record.dataPage = dataPages
  compressed : ∀ r ∈ records,
    alg.compressDataPage codec r.dataPage = .ok (some r.compressedPage)

/-- A slot pointer is its position in `heap`. `accepted` logs the pages for which
`InsertCompressedDataPage` returned true; the program does not read it. -/
structure PackState where
  heap : List ZRamBufferSlot
  currentSlot : Nat
  slotList : List Nat
  slotTree : Std.TreeMap Int32 Nat
  accepted : List Record

namespace PackState

def init (slotSize : UInt64) : PackState where
  heap := [.new slotSize]
  currentSlot := 0
  slotList := []
  slotTree := ∅
  accepted := []

/-- The slot is full: it is listed, and a new one becomes the current slot. -/
def closeSlot (st : PackState) (heap : List ZRamBufferSlot) (slotSize : UInt64) : PackState where
  heap := heap ++ [.new slotSize]
  currentSlot := heap.length
  slotList := st.slotList ++ [st.currentSlot]
  slotTree := st.slotTree
  accepted := st.accepted

/-- The page is stored: the current slot becomes the one to search for its frame. -/
def recordPage (st : PackState) (heap : List ZRamBufferSlot) (r : Record) : PackState where
  heap := heap
  currentSlot := st.currentSlot
  slotList := st.slotList
  slotTree := st.slotTree.insert r.pfn st.currentSlot
  accepted := st.accepted ++ [r]

/-- One turn of the loop over `dataPages`. -/
def packPage (codec : Codec) (alg : CompressionAlgorithm) (slotSize : UInt64)
    (st : PackState) (dataPage : DataPage) : Run PackState := do
  match ← alg.compressDataPage codec dataPage with
  | none => .error (.errorReturn "Error: cannot compress data page")
  | some compressedPage =>
    match st.heap[st.currentSlot]? with
    | none => .error (.badRead .slotHeap st.currentSlot)
    | some slot => do
      let r ← slot.insertCompressedDataPage compressedPage
      let heap := st.heap.set st.currentSlot r.2
      if r.1 = false then .ok (st.closeSlot heap slotSize)
      else .ok (st.recordPage heap ⟨dataPage, compressedPage⟩)

theorem packPage_accepted {codec : Codec} {alg : CompressionAlgorithm} {slotSize : UInt64}
    {st st' : PackState} {dataPage : DataPage}
    (run : packPage codec alg slotSize st dataPage = .ok st') :
    ∃ compressedPage slot r, alg.compressDataPage codec dataPage = .ok (some compressedPage) ∧
      st.heap[st.currentSlot]? = some slot ∧
      slot.insertCompressedDataPage compressedPage = .ok r ∧
      st'.accepted = st.accepted ++ if r.1 then [⟨dataPage, compressedPage⟩] else [] := by
  obtain ⟨page, compressed, run⟩ := bind_eq_ok.mp run
  cases page with
  | none => cases run
  | some compressedPage =>
      cases current : st.heap[st.currentSlot]? with
      | none =>
          simp only [current] at run
          cases run
      | some slot =>
          simp only [current] at run
          obtain ⟨⟨ret, slot'⟩, insert, run⟩ := bind_eq_ok.mp run
          refine ⟨compressedPage, slot, (ret, slot'), compressed, rfl, insert, ?_⟩
          cases ret <;> cases run <;> simp [closeSlot, recordPage]

/-- The packing loop. -/
def packLoop (codec : Codec) (alg : CompressionAlgorithm) (slotSize : UInt64)
    (dataPages : List DataPage) : Run PackState :=
  (intLoop dataPages).foldlM (packPage codec alg slotSize) (init slotSize)

/-- The final push of the current slot. -/
def pushCurrent (st : PackState) : Run PackState :=
  match st.heap[st.currentSlot]? with
  | none => .error (.badRead .slotHeap st.currentSlot)
  | some slot =>
      if slot.getStoredPageCnt > 0 then .ok { st with slotList := st.slotList ++ [st.currentSlot] }
      else .ok st

/-- The swap-out side of `EvalWriteCompressedFile` and of both variants of
`prepare_read_evaluation_env`: the loop and the final push, every slot with its buffer. -/
def prepareReadEvaluationEnv (codec : Codec) (alg : CompressionAlgorithm) (slotSize : UInt64)
    (dataPages : List DataPage) : Run PackState := do
  let st ← packLoop codec alg slotSize dataPages
  st.pushCurrent

/-- The turn for a page when the slot has no buffer. Its size is one that no page is too large
for, and the copy goes to a null pointer. -/
def packNull (codec : Codec) (alg : CompressionAlgorithm) (dataPage : DataPage) :
    Run PackState := do
  match ← alg.compressDataPage codec dataPage with
  | none => .error (.errorReturn "Error: cannot compress data page")
  | some _ => .error (.badStore .slotBuf 0)

/-- The swap-out side on a machine on which `malloc` can fail. -/
def swapOut (codec : Codec) (alg : CompressionAlgorithm) (slotSize : UInt64)
    (dataPages : List DataPage) : Run PackState :=
  if MallocSucceeds slotSize then prepareReadEvaluationEnv codec alg slotSize dataPages
  else match intLoop dataPages with
    | [] => .ok (init slotSize)
    | dataPage :: _ => packNull codec alg dataPage

/-- The turn for a page that stores it: the insert returns true, and the current slot has the page
behind those it had. -/
def Stores (codec : Codec) (alg : CompressionAlgorithm) (st : PackState) (dataPage : DataPage)
    (st' : PackState) : Prop :=
  ∃ compressedPage slot slot', alg.compressDataPage codec dataPage = .ok (some compressedPage) ∧
    st.heap[st.currentSlot]? = some slot ∧
    slot.insertCompressedDataPage compressedPage = .ok (true, slot') ∧
    st'.heap = st.heap.set st.currentSlot slot' ∧
    slot'.entries = slot.entries ++ [compressedPage.stored]

def listed (st : PackState) : List (List StoredPage) :=
  st.slotList.filterMap fun i => st.heap[i]?.map ZRamBufferSlot.entries

end PackState

theorem Compresses.visited {codec : Codec} {alg : CompressionAlgorithm}
    {dataPages : List DataPage} {records : List Record}
    (h : Compresses codec alg dataPages records) :
    Compresses codec alg (intLoop dataPages) (intLoop records) :=
  ⟨by rw [intLoop, List.map_take, h.pages, intLoop],
    fun r hr => h.compressed r (List.mem_of_mem_take hr)⟩

theorem Compresses.stored_eq {codec : Codec} {alg : CompressionAlgorithm}
    {dataPages : List DataPage} {records : List Record} (h : Compresses codec alg dataPages records)
    {r : Record} (hr : r ∈ records) :
    r.stored.pfn = r.pfn ∧ r.stored.uid = r.dataPage.metadata.uid ∧
      r.stored.bytes = r.compressedPage.payload := by
  obtain ⟨hpfn, huid, -⟩ := CompressionAlgorithm.compressDataPage_some (h.compressed r hr)
  exact ⟨hpfn, huid, rfl⟩

theorem Record.size_eq (r : Record) : r.size = r.stored.size :=
  r.compressedPage.length_payload.symm

theorem load_map_stored (bin : List Record) :
    load StoredPage.size (bin.map Record.stored) = load Record.size bin := by
  rw [load, load, List.map_map]
  congr 1
  exact List.map_congr_left fun r _ => r.size_eq.symm

theorem Compresses.length_eq {codec : Codec} {alg : CompressionAlgorithm}
    {dataPages : List DataPage} {records : List Record}
    (h : Compresses codec alg dataPages records) : records.length = dataPages.length := by
  rw [← h.pages, List.length_map]

theorem Compresses.size_le {codec : Codec} {alg : CompressionAlgorithm} {trace : SwapoutTrace}
    {records : List Record} (h : Compresses codec alg (intLoop trace.dataPages) records) :
    ∀ r ∈ records, r.size ≤ 4419 := by
  intro r hr
  have hpage : r.dataPage ∈ intLoop trace.dataPages := h.pages ▸ List.mem_map_of_mem hr
  have hsize := (CompressionAlgorithm.compressDataPage_some (h.compressed r hr)).2.2.1
  rw [trace.full r.dataPage (List.mem_of_mem_take hpage)] at hsize
  exact hsize.trans (CompressionAlgorithm.maxComprLen_le alg)

/-- The pages the loop visits, however they compress, stay far below 2^64 bytes. -/
theorem Compresses.load_lt {codec : Codec} {alg : CompressionAlgorithm} {trace : SwapoutTrace}
    {records : List Record} (h : Compresses codec alg (intLoop trace.dataPages) records) :
    load Record.size records < 2 ^ 64 := by
  have total := load_le_mul Record.size h.size_le
  have few : records.length ≤ 2 ^ 31 := h.length_eq.trans_le (length_intLoop_le _)
  omega

theorem compresses_vendored (alg : CompressionAlgorithm) {dataPages : List DataPage}
    (full : ∀ page ∈ dataPages, page.metadata.pageSize = PAGE_SIZE) :
    ∃ records, Compresses .vendored alg dataPages records := by
  induction dataPages with
  | nil => exact ⟨[], rfl, by simp⟩
  | cons page pages ih =>
      rw [List.forall_mem_cons] at full
      obtain ⟨compressedPage, done⟩ := alg.compressDataPage_vendored full.1
      obtain ⟨records, same, each⟩ := ih full.2
      refine ⟨⟨page, compressedPage⟩ :: records, by rw [List.map_cons, same], ?_⟩
      exact List.forall_mem_cons.mpr ⟨done, each⟩

/-- A trace with one and the same page in every frame of a list of (pfn, uid). -/
def sampleTrace (page : List UInt8) (h : page.length = 4096) (frames : List (Int32 × Int32)) :
    SwapoutTrace where
  dataPages := frames.map fun frame => .ofTrace frame.1 frame.2 page h
  full := by
    intro dataPage hmem
    obtain ⟨frame, -, rfl⟩ := List.mem_map.mp hmem
    rfl

theorem sampleTrace_compresses {codec : Codec} {page block : List UInt8} (hpage : page.length = 4096)
    (call : codec.lz4CompressDefault page 4128 = .ok block) (hblock : block ≠ [])
    (hfits : block.length ≤ 4128) (frames : List (Int32 × Int32)) :
    ∃ records, Compresses codec .lz4 (sampleTrace page hpage frames).dataPages records ∧
      records.map Record.stored = frames.map fun frame => ⟨frame.1, frame.2, block⟩ := by
  induction frames with
  | nil => exact ⟨[], ⟨rfl, by simp⟩, rfl⟩
  | cons frame frames ih =>
      obtain ⟨records, ⟨hpages, hcomp⟩, hstored⟩ := ih
      have capacity : (CompressionAlgorithm.maxComprLen .lz4 PAGE_SIZE).toNat = 4128 := by decide
      have emits : CompressionAlgorithm.lz4.Emits codec (.ofTrace frame.1 frame.2 page hpage)
          block := by
        refine ⟨?_, hblock⟩
        rw [DataPage.contents_ofTrace]
        exact capacity ▸ call
      obtain ⟨compressedPage, hc, hout⟩ :=
        CompressionAlgorithm.compressDataPage_of_emits emits (hfits.trans_eq capacity.symm)
      obtain ⟨hpfn, huid, -⟩ := CompressionAlgorithm.compressDataPage_some hc
      refine ⟨⟨.ofTrace frame.1 frame.2 page hpage, compressedPage⟩ :: records, ⟨?_, ?_⟩, ?_⟩
      · rw [List.map_cons, hpages]
        rfl
      · exact List.forall_mem_cons.mpr ⟨hc, hcomp⟩
      · rw [List.map_cons, List.map_cons, hstored]
        simp [Record.stored, DataPage.stored, hpfn, huid, hout, DataPage.ofTrace]

theorem zeros_compress (frames : List (Int32 × Int32)) :
    ∃ records, Compresses .vendored .lz4 (sampleTrace zeroPage length_zeroPage frames).dataPages
        records ∧ records.map Record.stored = frames.map fun frame =>
          ⟨frame.1, frame.2, zeroBlock⟩ :=
  sampleTrace_compresses length_zeroPage vendored_zeroPage (by decide) (by decide) frames

theorem counters_compress (frames : List (Int32 × Int32)) :
    ∃ records, Compresses .vendored .lz4 (sampleTrace counterPage length_counterPage frames).dataPages
        records ∧ records.map Record.stored = frames.map fun frame =>
          ⟨frame.1, frame.2, counterBlock⟩ :=
  sampleTrace_compresses length_counterPage vendored_counterPage (by simp [counterBlock])
    (by rw [length_counterBlock]; decide) frames

theorem size_eq_of_map_stored {records : List Record} {frames : List (Int32 × Int32)}
    {block : List UInt8}
    (h : records.map Record.stored = frames.map fun frame => ⟨frame.1, frame.2, block⟩) :
    ∀ r ∈ records, r.size = block.length := by
  intro r hr
  obtain ⟨frame, -, he⟩ := List.mem_map.mp (h ▸ List.mem_map_of_mem hr)
  rw [r.size_eq, ← he]
  rfl

namespace PackState

theorem pushCurrent_init (slotSize : UInt64) :
    (init slotSize).pushCurrent = .ok (init slotSize) := by
  have current : (init slotSize).heap[(init slotSize).currentSlot]? = some (.new slotSize) := rfl
  have none_stored : ¬(ZRamBufferSlot.new slotSize).getStoredPageCnt > 0 := by
    have counted := @toInt_pos_iff (ZRamBufferSlot.new slotSize).metainfo.length (Nat.zero_le _)
    exact fun some_pages => absurd (counted.mp some_pages).1 (Nat.lt_irrefl 0)
  simp only [pushCurrent, current, if_neg none_stored]

theorem swapOut_eq {codec : Codec} {alg : CompressionAlgorithm} {slotSize : UInt64}
    {dataPages : List DataPage} (h : MallocSucceeds slotSize ∨ dataPages = []) :
    swapOut codec alg slotSize dataPages =
      prepareReadEvaluationEnv codec alg slotSize dataPages := by
  by_cases allocated : MallocSucceeds slotSize
  · exact if_pos allocated
  · obtain rfl := h.resolve_left allocated
    have packed : packLoop codec alg slotSize [] = .ok (init slotSize) := by
      rw [packLoop, intLoop_nil]
      rfl
    have pushed : prepareReadEvaluationEnv codec alg slotSize [] = .ok (init slotSize) :=
      bind_eq_ok.mpr ⟨_, packed, pushCurrent_init slotSize⟩
    rw [pushed, swapOut, if_neg allocated, intLoop_nil]

theorem swapOut_null {codec : Codec} {alg : CompressionAlgorithm} {slotSize : UInt64}
    {dataPages : List DataPage} {records : List Record} (h : Compresses codec alg dataPages records)
    (refused : ¬MallocSucceeds slotSize) (some_pages : dataPages ≠ []) :
    swapOut codec alg slotSize dataPages = .error (.badStore .slotBuf 0) := by
  obtain ⟨dataPage, rest, rfl⟩ := List.exists_cons_of_ne_nil some_pages
  obtain ⟨r, records, rfl, rfl, -⟩ := List.map_eq_cons_iff.mp h.pages
  have compressed := h.compressed r List.mem_cons_self
  rw [swapOut, if_neg refused, intLoop_cons]
  simp only [packNull, compressed, bind, Except.bind]

def HoldsBin (slotSize : UInt64) (slot : ZRamBufferSlot) (bin : List Record) : Prop :=
  slot.size = slotSize ∧ slot.Holds (bin.map Record.stored)

/-- The slots before the current one are listed and hold the closed bins, the
current one holds the open bin, and the tree knows the newest slot of a frame. -/
structure Refines (slotSize : UInt64) (st : PackState) (f : Filling Record) : Prop where
  heap : ∃ done slot, st.heap = done ++ [slot] ∧
    List.Forall₂ (HoldsBin slotSize) done f.closed ∧ HoldsBin slotSize slot f.current
  currentSlot : st.currentSlot = f.closed.length
  slotList : st.slotList = List.range f.closed.length
  slotTree : ∀ p, st.slotTree[p]? = newestIdx (fun r => r.pfn = p) f.all
  accepted : st.accepted = f.all.flatten

theorem init_refines (slotSize : UInt64) : (init slotSize).Refines slotSize Filling.empty where
  heap := ⟨[], .new slotSize, rfl, .nil, rfl, ZRamBufferSlot.new_holds slotSize⟩
  currentSlot := rfl
  slotList := rfl
  slotTree p := by simp [init, newestIdx, Filling.all, Filling.empty]
  accepted := rfl

variable {codec : Codec} {alg : CompressionAlgorithm} {slotSize : UInt64}

section Turn

variable {st : PackState} {f : Filling Record} {done : List ZRamBufferSlot} {slot : ZRamBufferSlot}

theorem Refines.recordPage (h : st.Refines slotSize f) (r : Record)
    (hdone : List.Forall₂ (HoldsBin slotSize) done f.closed) (hsize : slot.size = slotSize)
    (hholds : slot.Holds (f.current.map Record.stored ++ [r.stored])) :
    (st.recordPage (done ++ [slot]) r).Refines slotSize ⟨f.closed, f.current ++ [r]⟩ where
  heap := ⟨done, slot, rfl, hdone, hsize, by rw [List.map_append]; exact hholds⟩
  currentSlot := h.currentSlot
  slotList := h.slotList
  slotTree p := by
    have tree := h.slotTree p
    simp only [PackState.recordPage, Filling.all, newestIdx_snoc] at tree ⊢
    rw [Std.TreeMap.getElem?_insert, tree, h.currentSlot]
    by_cases hp : r.pfn = p <;> simp [hp]
  accepted := by simp [PackState.recordPage, h.accepted, Filling.all]

theorem Refines.closeSlot (h : st.Refines slotSize f)
    (hdone : List.Forall₂ (HoldsBin slotSize) done f.closed)
    (hslot : HoldsBin slotSize slot f.current) :
    (st.closeSlot (done ++ [slot]) slotSize).Refines slotSize ⟨f.closed ++ [f.current], []⟩ where
  heap := ⟨done ++ [slot], .new slotSize, rfl, List.rel_append hdone (.cons hslot .nil), rfl,
    ZRamBufferSlot.new_holds slotSize⟩
  currentSlot := by simpa [PackState.closeSlot] using hdone.length_eq
  slotList := by simp [PackState.closeSlot, h.slotList, h.currentSlot, List.range_succ]
  slotTree p := by
    have tree := h.slotTree p
    simp only [PackState.closeSlot, Filling.all, newestIdx_snoc] at tree ⊢
    simpa using tree
  accepted := by simp [PackState.closeSlot, h.accepted, Filling.all]

/-- What the current slot is, and what the heap becomes when it is replaced. -/
theorem Refines.current (h : st.Refines slotSize f) : ∃ done slot,
    st.heap[st.currentSlot]? = some slot ∧
    (∀ slot', st.heap.set st.currentSlot slot' = done ++ [slot']) ∧
    List.Forall₂ (HoldsBin slotSize) done f.closed ∧ HoldsBin slotSize slot f.current := by
  obtain ⟨done, slot, hheap, hdone, hbin⟩ := h.heap
  have hcur : st.currentSlot = done.length := h.currentSlot.trans hdone.length_eq.symm
  refine ⟨done, slot, by simp [hheap, hcur], fun slot' => ?_, hdone, hbin⟩
  simp [hheap, hcur, List.set_append_right]

theorem Refines.load_current_le (h : st.Refines slotSize f) :
    load Record.size f.current ≤ slotSize.toNat := by
  obtain ⟨-, slot, -, -, hsize, hholds⟩ := h.heap
  rw [← load_map_stored, ← hsize]
  exact hholds.fits

theorem packPage_stores (h : st.Refines slotSize f) (r : Record)
    (hr : alg.compressDataPage codec r.dataPage = .ok (some r.compressedPage))
    (fits : load Record.size f.current + r.size ≤ slotSize.toNat) :
    ∃ st', packPage codec alg slotSize st r.dataPage = .ok st' ∧
      Stores codec alg st r.dataPage st' ∧ st'.Refines slotSize ⟨f.closed, f.current ++ [r]⟩ := by
  obtain ⟨done, slot, hget, hset, hdone, hsize, hholds⟩ := h.current
  obtain ⟨slot', hins, hsize', hholds'⟩ := ZRamBufferSlot.insert_accepted hholds r.compressedPage
    (by rw [load_map_stored, hsize]; exact fits)
  refine ⟨st.recordPage (done ++ [slot']) r, ?_, ?_,
    h.recordPage r hdone (hsize'.trans hsize) hholds'⟩
  · simp [packPage, hr, hget, hins, hset, bind, Except.bind]
  · refine ⟨r.compressedPage, slot, slot', hr, hget, hins, (hset slot').symm, ?_⟩
    rw [hholds'.entries_eq, hholds.entries_eq]

/-- One turn of the loop is one placement of the lossy discipline. -/
theorem packPage_refines (h : st.Refines slotSize f) (r : Record)
    (hr : alg.compressDataPage codec r.dataPage = .ok (some r.compressedPage))
    (noWrap : load Record.size f.current + r.size < 2 ^ 64) :
    ∃ st', packPage codec alg slotSize st r.dataPage = .ok st' ∧
      st'.Refines slotSize (place Record.size slotSize.toNat (fun _ => []) f r) := by
  by_cases fits : load Record.size f.current + r.size ≤ slotSize.toNat
  · rw [place_fits _ _ fits]
    obtain ⟨st', run, -, refines⟩ := packPage_stores h r hr fits
    exact ⟨st', run, refines⟩
  · rw [place_rejects _ _ (Nat.not_le.mp fits)]
    obtain ⟨done, slot, hget, hset, hdone, hsize, hholds⟩ := h.current
    have hins := ZRamBufferSlot.insert_rejected hholds r.compressedPage
      (by rw [hholds.offset, load_map_stored]; exact noWrap) (by
        rw [load_map_stored, hsize]
        exact Nat.not_le.mp fits)
    refine ⟨_, ?_, h.closeSlot hdone ⟨hsize, hholds⟩⟩
    simp [packPage, hr, hget, hins, hset, bind, Except.bind]

/-- Of two pages in a row of which the second fits an empty slot, one is stored. -/
theorem packPage_stores_either (h : st.Refines slotSize f) (x y : Record)
    (hx : alg.compressDataPage codec x.dataPage = .ok (some x.compressedPage))
    (hy : alg.compressDataPage codec y.dataPage = .ok (some y.compressedPage))
    (noWrap : slotSize.toNat + x.size < 2 ^ 64 ∧ slotSize.toNat + y.size < 2 ^ 64)
    (fits : y.size ≤ slotSize.toNat) :
    ∃ st₁ st₂, packPage codec alg slotSize st x.dataPage = .ok st₁ ∧
      packPage codec alg slotSize st₁ y.dataPage = .ok st₂ ∧
      (Stores codec alg st x.dataPage st₁ ∨ Stores codec alg st₁ y.dataPage st₂) := by
  have inside := h.load_current_le
  by_cases room : load Record.size f.current + x.size ≤ slotSize.toNat
  · obtain ⟨st₁, run, stores, refines⟩ := packPage_stores h x hx room
    have inside' := refines.load_current_le
    obtain ⟨st₂, run', -⟩ := packPage_refines refines y hy (by omega)
    exact ⟨st₁, st₂, run, run', Or.inl stores⟩
  · obtain ⟨st₁, run, refines⟩ := packPage_refines h x hx (by omega)
    obtain ⟨st₂, run', stores, -⟩ := packPage_stores refines y hy
      (kept_of_lost Record.size slotSize.toNat (Nat.not_le.mp room) fits)
    exact ⟨st₁, st₂, run, run', Or.inr stores⟩

end Turn

theorem foldlM_refines {st : PackState} {f : Filling Record} (h : st.Refines slotSize f)
    (records : List Record)
    (hc : ∀ r ∈ records, alg.compressDataPage codec r.dataPage = .ok (some r.compressedPage))
    (noWrap : load Record.size f.current + load Record.size records < 2 ^ 64) :
    ∃ st', (records.map Record.dataPage).foldlM (packPage codec alg slotSize) st = .ok st' ∧
      st'.Refines slotSize
        (records.foldl (place Record.size slotSize.toNat fun _ => []) f) := by
  induction records generalizing st f with
  | nil => exact ⟨st, rfl, h⟩
  | cons r records ih =>
      rw [load_cons] at noWrap
      obtain ⟨st', step, h'⟩ := packPage_refines h r (hc r (by simp)) (by omega)
      have next : load Record.size (place Record.size slotSize.toNat (fun _ => []) f r).current +
          load Record.size records < 2 ^ 64 := by
        unfold place
        split
        · simp only [load_append, load_cons, load_nil]; omega
        · simp only [load_nil]; omega
      obtain ⟨last, run, hlast⟩ := ih h' (fun r hr => hc r (by simp [hr])) next
      refine ⟨last, ?_, hlast⟩
      rw [List.map_cons, List.foldlM_cons, step]
      exact run

theorem packLoop_refines (slotSize : UInt64) {trace : SwapoutTrace} {records : List Record}
    (h : Compresses codec alg (intLoop trace.dataPages) records) :
    ∃ st, packLoop codec alg slotSize trace.dataPages = .ok st ∧
      st.Refines slotSize (dropFit Record.size slotSize.toNat records) := by
  rw [packLoop, ← h.pages]
  exact foldlM_refines (init_refines slotSize) records h.compressed (by
    simpa [Filling.empty] using h.load_lt)

theorem Refines.heap_getElem? {st : PackState} {f : Filling Record} (h : st.Refines slotSize f)
    {i : Nat} {bin : List Record} (hbin : f.all[i]? = some bin) :
    ∃ slot, st.heap[i]? = some slot ∧ HoldsBin slotSize slot bin := by
  obtain ⟨done, slot, hheap, hdone, hcur⟩ := h.heap
  have hall : List.Forall₂ (HoldsBin slotSize) st.heap f.all := by
    rw [hheap]
    exact List.rel_append hdone (.cons hcur .nil)
  obtain ⟨hi, rfl⟩ := List.getElem?_eq_some_iff.mp hbin
  have hi' : i < st.heap.length := hall.length_eq ▸ hi
  exact ⟨st.heap[i], List.getElem?_eq_getElem hi', hall.get hi' hi⟩

theorem Refines.length_heap {st : PackState} {f : Filling Record} (h : st.Refines slotSize f) :
    st.heap.length = f.closed.length + 1 := by
  obtain ⟨done, slot, hheap, hdone, -⟩ := h.heap
  simp [hheap, hdone.length_eq]

end PackState

end MobilePIM
