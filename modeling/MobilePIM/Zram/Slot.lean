import MobilePIM.Foundation.Bins
import MobilePIM.Zram.Codec

/-!
`ZRamBufferSlot`: a byte buffer filled from the left. Only the sizes of the
stored pages are kept; the writer works with a running offset and the reader
recomputes prefix sums. `Holds` states what a slot stores, and every operation
is specified against it.
-/

namespace MobilePIM

structure ZRamBufferSlot where
  buf : List UInt8
  size : UInt64
  offset : UInt64
  metainfo : List PageMetadata
  buf_length : buf.length = size.toNat

/-- What a slot stores of one page. -/
structure StoredPage where
  pfn : Int32
  uid : Int32
  bytes : List UInt8
deriving DecidableEq, Repr

def StoredPage.size (e : StoredPage) : Nat := e.bytes.length

def StoredPage.metadata (e : StoredPage) : PageMetadata :=
  { pfn := e.pfn, uid := e.uid, compressedSize := UInt64.ofNat e.size }

def DataPage.stored (page : DataPage) : StoredPage :=
  ⟨page.metadata.pfn, page.metadata.uid, page.payload⟩

/-- `malloc` gives no object of 2^63 bytes or more. -/
def MallocSucceeds (size : UInt64) : Prop := size.toNat < 2 ^ 63

instance (size : UInt64) : Decidable (MallocSucceeds size) :=
  inferInstanceAs (Decidable (size.toNat < 2 ^ 63))

namespace ZRamBufferSlot
open Bins

/-- A slot whose buffer has been allocated, whatever its size. -/
def new (size : UInt64) : ZRamBufferSlot where
  buf := malloc size.toNat
  size := size
  offset := 0
  metainfo := []
  buf_length := length_malloc _

def getStoredPageCnt (slot : ZRamBufferSlot) : Int := toInt slot.metainfo.length

/-- The slot after the copy of an accepted page, with its new offset and meta info. -/
def append (slot : ZRamBufferSlot) (compressedPage : DataPage)
    (buf : {bytes : List UInt8 // bytes.length = slot.buf.length}) : ZRamBufferSlot :=
  let pageMetadata : PageMetadata :=
    { pfn := compressedPage.metadata.pfn
      uid := compressedPage.metadata.uid
      compressedSize := compressedPage.metadata.compressedSize }
  { buf := buf.1
    size := slot.size
    offset := slot.offset + compressedPage.metadata.compressedSize
    metainfo := slot.metainfo ++ [pageMetadata]
    buf_length := buf.2.trans slot.buf_length }

def insertCompressedDataPage (slot : ZRamBufferSlot) (compressedPage : DataPage) :
    Run (Bool × ZRamBufferSlot) :=
  -- check if there is enough space in the buffer
  if slot.offset + compressedPage.metadata.compressedSize > slot.size then .ok (false, slot)
  else do
    -- copy compressed page to buffer
    let buf ← memcpy .slotBuf slot.buf slot.offset.toNat
      .pageBuf compressedPage.buf 0 compressedPage.metadata.compressedSize.toNat
    .ok (true, slot.append compressedPage buf)

/-- The page returned for an entry, its bytes copied out of the slot. -/
def found (entry : PageMetadata)
    (buf : {bytes : List UInt8 // bytes.length = (malloc entry.compressedSize.toNat).length}) :
    DataPage :=
  have hlen : buf.1.length = entry.compressedSize.toNat := buf.2.trans (length_malloc _)
  { metadata := { entry with pageSize := entry.compressedSize }
    buf := buf.1
    pageSize_le := hlen.ge
    compressedSize_le := hlen.ge }

/-- The search loop of `GetCompressedDataPage`, from the entry at `dataOffset` on. -/
def searchPfn (slot : ZRamBufferSlot) (pfn : Int32) :
    List PageMetadata → UInt64 → Run (Option DataPage)
  | [], _ => .ok none
  | entry :: rest, dataOffset =>
      if entry.pfn = pfn then do
        let buf ← memcpy .pageBuf (malloc entry.compressedSize.toNat) 0
          .slotBuf slot.buf dataOffset.toNat entry.compressedSize.toNat
        .ok (some (found entry buf))
      else searchPfn slot pfn rest (dataOffset + entry.compressedSize)

/-- `GetCompressedDataPage`; `none` is the null pointer. -/
def getCompressedDataPage (slot : ZRamBufferSlot) (pfn : Int32) : Run (Option DataPage) :=
  searchPfn slot pfn (intLoop slot.metainfo) 0

/-- The pages a slot stores, read off its bytes at the prefix sums of the sizes. -/
def storedPages (slot : ZRamBufferSlot) : List PageMetadata → Nat → List StoredPage
  | [], _ => []
  | entry :: rest, off =>
      ⟨entry.pfn, entry.uid, slice slot.buf off entry.compressedSize.toNat⟩ ::
        storedPages slot rest (off + entry.compressedSize.toNat)

def entries (slot : ZRamBufferSlot) : List StoredPage := slot.storedPages slot.metainfo 0

/-- The slot stores exactly `stored`, back to back from the start of its buffer. -/
structure Holds (slot : ZRamBufferSlot) (stored : List StoredPage) : Prop where
  metainfo : slot.metainfo = stored.map StoredPage.metadata
  offset : slot.offset.toNat = load StoredPage.size stored
  fits : load StoredPage.size stored ≤ slot.size.toNat
  bytes : slot.buf.take (load StoredPage.size stored) = stored.flatMap StoredPage.bytes

theorem new_holds (size : UInt64) : (new size).Holds [] :=
  ⟨rfl, rfl, Nat.zero_le _, rfl⟩

theorem length_flatMap_bytes (stored : List StoredPage) :
    (stored.flatMap StoredPage.bytes).length = load StoredPage.size stored := by
  rw [List.length_flatMap]
  rfl

section Operations

variable {slot : ZRamBufferSlot} {stored : List StoredPage}

theorem Holds.size_toNat_le (h : slot.Holds stored) :
    load StoredPage.size stored ≤ slot.buf.length :=
  slot.buf_length ▸ h.fits

/-- The acceptance test of the code, without the wrap of its 64-bit sum. -/
theorem Holds.rejects_iff (h : slot.Holds stored) {n : UInt64}
    (noWrap : slot.offset.toNat + n.toNat < 2 ^ 64) :
    slot.offset + n > slot.size ↔ slot.size.toNat < load StoredPage.size stored + n.toNat := by
  rw [gt_iff_lt, UInt64.lt_iff_toNat_lt, UInt64.toNat_add, Nat.mod_eq_of_lt noWrap, h.offset]

theorem insert_rejected (h : slot.Holds stored) (page : DataPage)
    (noWrap : slot.offset.toNat + page.metadata.compressedSize.toNat < 2 ^ 64)
    (full : slot.size.toNat < load StoredPage.size stored + page.metadata.compressedSize.toNat) :
    slot.insertCompressedDataPage page = .ok (false, slot) :=
  if_pos ((h.rejects_iff noWrap).mpr full)

theorem insert_accepted (h : slot.Holds stored) (page : DataPage)
    (fits : load StoredPage.size stored + page.metadata.compressedSize.toNat ≤ slot.size.toNat) :
    ∃ slot', slot.insertCompressedDataPage page = .ok (true, slot') ∧
      slot'.size = slot.size ∧ slot'.Holds (stored ++ [page.stored]) := by
  have noWrap : slot.offset.toNat + page.metadata.compressedSize.toNat < 2 ^ 64 := by
    rw [h.offset]
    exact fits.trans_lt slot.size.toNat_lt
  have room : slot.offset.toNat + page.metadata.compressedSize.toNat ≤ slot.buf.length := by
    rw [h.offset, slot.buf_length]
    exact fits
  obtain ⟨hlen, copied⟩ := memcpy_ok .slotBuf slot.buf slot.offset.toNat .pageBuf
    page.buf 0 ((Nat.zero_add _).trans_le page.compressedSize_le) room
  have source : slice page.buf 0 page.metadata.compressedSize.toNat = page.payload := rfl
  have hload : load StoredPage.size (stored ++ [page.stored]) =
      load StoredPage.size stored + page.metadata.compressedSize.toNat := by
    simp [DataPage.stored, StoredPage.size, DataPage.length_payload]
  refine ⟨slot.append page ⟨_, hlen⟩, ?_, rfl, ?_⟩
  · rw [insertCompressedDataPage, if_neg (by rw [h.rejects_iff noWrap]; omega), copied]
    rfl
  · constructor
    · simp [append, h.metainfo, DataPage.stored, StoredPage.metadata, StoredPage.size,
        DataPage.length_payload]
    · rw [hload, append, UInt64.toNat_add, Nat.mod_eq_of_lt noWrap, h.offset]
    · rw [hload]; exact fits
    · rw [hload]
      simp only [append, source]
      rw [← DataPage.length_payload, ← h.offset, take_overwrite _ _ _ (by omega), h.offset, h.bytes]
      simp [DataPage.stored]

theorem Holds.slice_eq (h : slot.Holds stored) {pre post : List StoredPage} {e : StoredPage}
    (hsplit : stored = pre ++ e :: post) :
    slice slot.buf (load StoredPage.size pre) e.size = e.bytes := by
  have hload : load StoredPage.size stored =
      load StoredPage.size pre + e.size + load StoredPage.size post := by
    simp [hsplit]; omega
  rw [← slice_take slot.buf (k := load StoredPage.size stored) (by omega), h.bytes, hsplit,
    List.flatMap_append,
    List.flatMap_cons, ← List.append_assoc, ← length_flatMap_bytes pre]
  exact slice_append _ _ _

theorem Holds.compressedSize (h : slot.Holds stored) {e : StoredPage} (he : e ∈ stored) :
    e.metadata.compressedSize.toNat = e.size := by
  obtain ⟨pre, post, rfl⟩ := List.append_of_mem he
  have le := h.fits
  have lt := slot.size.toNat_lt
  simp only [load_append, load_cons] at le
  simp only [StoredPage.metadata, UInt64.toNat_ofNat']
  exact Nat.mod_eq_of_lt (by omega)

theorem Holds.storedPages_eq (h : slot.Holds stored) (pre : List StoredPage)
    {rest : List StoredPage}
    (hsplit : stored = pre ++ rest) :
    slot.storedPages (rest.map StoredPage.metadata) (load StoredPage.size pre) = rest := by
  induction rest generalizing pre with
  | nil => rfl
  | cons e rest ih =>
      have hsize := h.compressedSize (e := e) (by simp [hsplit])
      have next := ih (pre ++ [e]) (by simpa using hsplit)
      simp only [load_append, load_cons, load_nil, Nat.add_zero] at next
      rw [List.map_cons, storedPages, hsize, next, h.slice_eq hsplit]
      rfl

theorem Holds.entries_eq (h : slot.Holds stored) : slot.entries = stored := by
  rw [entries, h.metainfo]
  exact h.storedPages_eq [] rfl

/-- The search returns the first stored page of the frame. -/
theorem Holds.searchPfn_eq (h : slot.Holds stored) (pfn : Int32) (pre : List StoredPage)
    {rest : List StoredPage}
    (hsplit : stored = pre ++ rest) {dataOffset : UInt64}
    (hoff : dataOffset.toNat = load StoredPage.size pre) :
    ∃ found, slot.searchPfn pfn (rest.map StoredPage.metadata) dataOffset = .ok found ∧
      found.map DataPage.stored = rest.find? fun e => e.pfn = pfn := by
  induction rest generalizing pre dataOffset with
  | nil => exact ⟨none, rfl, rfl⟩
  | cons e rest ih =>
      have hsize := h.compressedSize (e := e) (by simp [hsplit])
      have hload : load StoredPage.size pre + e.size + load StoredPage.size rest =
          load StoredPage.size stored := by
        simp [hsplit]; omega
      rw [List.map_cons, searchPfn]
      by_cases hp : e.pfn = pfn
      · have room : dataOffset.toNat + e.metadata.compressedSize.toNat ≤ slot.buf.length := by
          rw [hoff, hsize]
          exact Nat.le_trans (by omega) h.size_toNat_le
        obtain ⟨hlen, copied⟩ := memcpy_ok .pageBuf
          (malloc e.metadata.compressedSize.toNat) 0 .slotBuf slot.buf dataOffset.toNat room
          (by simp)
        rw [if_pos (show e.metadata.pfn = pfn from hp), copied]
        refine ⟨some (found e.metadata ⟨_, hlen⟩), rfl, ?_⟩
        rw [List.find?_cons_of_pos (by simpa using hp), Option.map_some]
        have copied_bytes := take_overwrite (malloc e.metadata.compressedSize.toNat) 0
          e.bytes (Nat.zero_le _)
        rw [Nat.zero_add, ← StoredPage.size] at copied_bytes
        have payload : (found e.metadata ⟨_, hlen⟩).payload = e.bytes := by
          simp only [DataPage.payload, found, hoff, hsize, h.slice_eq hsplit] at copied_bytes ⊢
          exact copied_bytes
        rw [DataPage.stored, payload]
        rfl
      · rw [if_neg (show ¬e.metadata.pfn = pfn from hp),
          List.find?_cons_of_neg (by simpa using hp)]
        apply ih (pre ++ [e]) (by simpa using hsplit)
        have lt := slot.size.toNat_lt
        have le := h.fits
        rw [UInt64.toNat_add, hoff, hsize, Nat.mod_eq_of_lt (by omega)]
        simp

theorem Holds.getCompressedDataPage_eq (h : slot.Holds stored) (hlen : stored.length ≤ 2 ^ 31)
    (pfn : Int32) :
    ∃ found, slot.getCompressedDataPage pfn = .ok found ∧
      found.map DataPage.stored = stored.find? fun e => e.pfn = pfn := by
  rw [getCompressedDataPage, intLoop_eq (by rw [h.metainfo]; simpa using hlen), h.metainfo]
  exact h.searchPfn_eq pfn [] rfl rfl

end Operations

section Runs

/-- A sequence of insert calls on one slot, with what each call returned. -/
def insertAll (slot : ZRamBufferSlot) : List DataPage → Run (ZRamBufferSlot × List Bool)
  | [] => .ok (slot, [])
  | page :: pages => do
      let (ret, slot') ← slot.insertCompressedDataPage page
      let (slot'', rets) ← slot'.insertAll pages
      .ok (slot'', ret :: rets)

/-- The pages of the calls that returned true. -/
def accepted (pages : List DataPage) (rets : List Bool) : List DataPage :=
  ((pages.zip rets).filter (·.2)).map (·.1)

/-- No call of the sequence wraps the 64-bit sum of its acceptance test. -/
def NoWrap (slot : ZRamBufferSlot) (calls : List DataPage) : Prop :=
  ∀ pre page post, calls = pre ++ page :: post →
    ∀ slot' rets, slot.insertAll pre = .ok (slot', rets) →
      slot'.offset.toNat + page.metadata.compressedSize.toNat < 2 ^ 64

/-- The offset is the sum of the stored sizes, inside the slot, and every stored
payload lies at the sum of the sizes before it. -/
structure StoresBackToBack (slot : ZRamBufferSlot) (pages : List DataPage) : Prop where
  metainfo : slot.metainfo = pages.map fun page => page.stored.metadata
  offset_eq : slot.offset.toNat = (slot.metainfo.map fun m => m.compressedSize.toNat).sum
  offset_le : slot.offset.toNat ≤ slot.size.toNat
  bytes : ∀ i (hi : i < pages.length),
    slice slot.buf ((slot.metainfo.take i).map fun m => m.compressedSize.toNat).sum
      pages[i].metadata.compressedSize.toNat = pages[i].payload

theorem insertAll_cons {slot slot' : ZRamBufferSlot} {ret : Bool} {page : DataPage}
    (h : slot.insertCompressedDataPage page = .ok (ret, slot')) (pages : List DataPage) :
    slot.insertAll (page :: pages) =
      (slot'.insertAll pages).map fun r => (r.1, ret :: r.2) := by
  simp only [insertAll, h, bind, Except.bind, Except.map]

/-- One call stores the page or changes nothing. -/
theorem Holds.insert_cases {slot : ZRamBufferSlot} {stored : List StoredPage}
    (h : slot.Holds stored) {page : DataPage}
    (noWrap : slot.offset.toNat + page.metadata.compressedSize.toNat < 2 ^ 64) :
    ∃ ret slot', slot.insertCompressedDataPage page = .ok (ret, slot') ∧
      (ret = false ↔ slot.size.toNat - slot.offset.toNat <
        page.metadata.compressedSize.toNat) ∧
      (ret = false → slot' = slot) ∧ slot'.size = slot.size ∧
      slot'.Holds (stored ++ if ret then [page.stored] else []) := by
  have inside := h.fits
  by_cases fits : load StoredPage.size stored + page.metadata.compressedSize.toNat ≤
      slot.size.toNat
  · obtain ⟨slot', run, hsize, holds⟩ := insert_accepted h page fits
    refine ⟨true, slot', run, ?_, by simp, hsize, by simpa using holds⟩
    rw [h.offset]
    simp only [Bool.true_eq_false, false_iff]
    omega
  · refine ⟨false, slot, insert_rejected h page noWrap (by omega), ?_, fun _ => rfl, rfl, by simpa⟩
    rw [h.offset]
    simp only [true_iff]
    omega

theorem NoWrap.tail {slot slot' : ZRamBufferSlot} {ret : Bool} {page : DataPage}
    {pages : List DataPage} (h : slot.NoWrap (page :: pages))
    (run : slot.insertCompressedDataPage page = .ok (ret, slot')) : slot'.NoWrap pages := by
  intro pre next post hsplit last rets hrun
  refine h (page :: pre) next post (by rw [hsplit, List.cons_append]) last (ret :: rets) ?_
  rw [insertAll_cons run, hrun]
  rfl

theorem Holds.insertAll {slot : ZRamBufferSlot} {stored : List StoredPage}
    (h : slot.Holds stored) (pages : List DataPage) (noWrap : slot.NoWrap pages) :
    ∃ slot' rets, slot.insertAll pages = .ok (slot', rets) ∧ slot'.size = slot.size ∧
      slot'.Holds (stored ++ (accepted pages rets).map DataPage.stored) := by
  induction pages generalizing slot stored with
  | nil => exact ⟨slot, [], rfl, rfl, by simpa [accepted] using h⟩
  | cons page pages ih =>
      obtain ⟨ret, slot', run, -, -, hsize, holds⟩ :=
        h.insert_cases (noWrap [] page pages rfl slot [] rfl)
      obtain ⟨last, rets, hrun, hsize', holds'⟩ := ih holds (noWrap.tail run)
      refine ⟨last, ret :: rets, by rw [insertAll_cons run, hrun]; rfl, hsize'.trans hsize, ?_⟩
      cases ret <;> simpa [accepted] using holds'

theorem Holds.storesBackToBack {slot : ZRamBufferSlot} {pages : List DataPage}
    (h : slot.Holds (pages.map DataPage.stored)) : slot.StoresBackToBack pages := by
  have sizes : ∀ sub : List DataPage, sub.Sublist pages →
      (sub.map fun page => page.stored.metadata.compressedSize.toNat).sum =
        load StoredPage.size (sub.map DataPage.stored) := by
    intro sub hsub
    rw [load, List.map_map]
    congr 1
    exact List.map_congr_left fun page hp =>
      h.compressedSize (List.mem_map_of_mem (hsub.subset hp))
  have metainfo : slot.metainfo = pages.map fun page => page.stored.metadata := by
    rw [h.metainfo, List.map_map]
    rfl
  refine ⟨metainfo, ?_, ?_, ?_⟩
  · rw [metainfo, List.map_map, h.offset, ← sizes pages (List.Sublist.refl _)]
    rfl
  · rw [h.offset]; exact h.fits
  · intro i hi
    have hsplit : pages.map DataPage.stored = (pages.take i).map DataPage.stored ++
        pages[i].stored :: (pages.drop (i + 1)).map DataPage.stored := by
      rw [← List.map_cons (f := DataPage.stored), ← List.map_append,
        ← List.drop_eq_getElem_cons hi, List.take_append_drop]
    have start : ((slot.metainfo.take i).map fun m => m.compressedSize.toNat).sum =
        load StoredPage.size ((pages.take i).map DataPage.stored) := by
      rw [metainfo, ← List.map_take, List.map_map, ← sizes _ (List.take_sublist i pages)]
      rfl
    rw [start, ← DataPage.length_payload]
    exact h.slice_eq hsplit

/-- After every call of any sequence of insert calls on a fresh slot: no copy left
its buffers, the pages of the accepted calls lie back to back, and the next call
fails exactly when its payload does not fit the rest, changing nothing then. -/
theorem insertAll_new_storesBackToBack (size : UInt64) (calls : List DataPage)
    (noWrap : (new size).NoWrap calls) (pre post : List DataPage) (hsplit : calls = pre ++ post) :
    ∃ slot rets, (new size).insertAll pre = .ok (slot, rets) ∧ slot.size = size ∧
      slot.StoresBackToBack (accepted pre rets) ∧
      ∀ page rest, post = page :: rest →
        ∃ ret slot', slot.insertCompressedDataPage page = .ok (ret, slot') ∧
          (ret = false ↔ slot.size.toNat - slot.offset.toNat <
            page.metadata.compressedSize.toNat) ∧
          (ret = false → slot' = slot) := by
  have noWrap' : (new size).NoWrap pre := fun pre' page post' h =>
    noWrap pre' page (post' ++ post) (by rw [hsplit, h]; simp)
  obtain ⟨slot, rets, run, hsize, holds⟩ := (new_holds size).insertAll pre noWrap'
  rw [List.nil_append] at holds
  refine ⟨slot, rets, run, hsize, holds.storesBackToBack, ?_⟩
  intro page rest hpost
  obtain ⟨ret, slot', hrun, hret, hsame, -, -⟩ :=
    holds.insert_cases (noWrap pre page rest (by rw [hsplit, hpost]) slot rets run)
  exact ⟨ret, slot', hrun, hret, hsame⟩

/-- Two calls with a three-byte payload on a slot of four bytes. -/
theorem insertAll_new_storesBackToBack_twice :
    let page : DataPage := ⟨⟨7, 1, 3, 3⟩, [1, 2, 3], le_refl 3, le_refl 3⟩
    ∃ slot rets, (new 4).insertAll [page] = .ok (slot, rets) ∧ slot.size = 4 ∧
      slot.StoresBackToBack (accepted [page] rets) ∧
      ∀ next rest, [page] = next :: rest →
        ∃ ret slot', slot.insertCompressedDataPage next = .ok (ret, slot') ∧
          (ret = false ↔ slot.size.toNat - slot.offset.toNat <
            next.metadata.compressedSize.toNat) ∧
          (ret = false → slot' = slot) := by
  intro page
  refine insertAll_new_storesBackToBack 4 [page, page] ?_ [page] [page] rfl
  intro pre next post hsplit slot rets run
  match pre, hsplit with
  | [], hsplit =>
      obtain ⟨rfl, -⟩ := List.cons.inj hsplit
      cases run
      decide
  | [_], hsplit =>
      obtain ⟨rfl, rfl, -⟩ : page = _ ∧ page = next ∧ _ := by simpa using hsplit
      cases run
      decide
  | _ :: _ :: pre, hsplit => simp at hsplit

end Runs

end ZRamBufferSlot
end MobilePIM
