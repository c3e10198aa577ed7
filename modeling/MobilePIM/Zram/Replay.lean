import MobilePIM.Zram.SlotList

/-!
The swap-in side: a frame is looked up in `slot_tree`, its page is searched for
in that slot and decompressed. The tree leads to the newest slot with a page of
the frame, the search to the oldest page in it; what comes back is an accepted
record, and the last one of its frame only when the two agree.
-/

namespace MobilePIM
open Bins

inductive Replayed
  | skipped
  | page (compressedPage dataPage : DataPage)

structure Restores (page : DataPage) (r : Record) : Prop where
  pfn : page.metadata.pfn = r.dataPage.metadata.pfn
  uid : page.metadata.uid = r.dataPage.metadata.uid
  compressedSize : page.metadata.compressedSize = r.compressedPage.metadata.compressedSize
  payload : page.payload = r.compressedPage.payload

namespace PackState

def slotPage (st : PackState) (slot : Nat) (pfn : Int32) : Run (Option DataPage) :=
  match st.heap[slot]? with
  | none => .error (.badRead .slotHeap slot)
  | some slot => slot.getCompressedDataPage pfn

def replayPage (codec : Codec) (alg : CompressionAlgorithm) (st : PackState)
    (pageMetadata : PageMetadata) : Run Replayed :=
  match st.slotTree[pageMetadata.pfn]? with
  | none => .ok .skipped
  | some slot => do
    match ← st.slotPage slot pageMetadata.pfn with
    | none => .error (.errorReturn "Error: cannot find the page in the slot")
    | some compressedPage =>
      match ← alg.decompressDataPage codec compressedPage with
      | none => .error (.errorReturn "Error: cannot decompress the page")
      | some dataPage => .ok (.page compressedPage dataPage)

/-- The replay loop over the operation records of a swap-in trace. -/
def replayLoop (codec : Codec) (alg : CompressionAlgorithm) (st : PackState)
    (swapinDataPages : List PageMetadata) : Run (List Replayed) :=
  (intLoop swapinDataPages).mapM (replayPage codec alg st)

end PackState

section Lookup

variable {codec : Codec} {alg : CompressionAlgorithm} {slotSize : UInt64}

theorem Compresses.restores_iff {dataPages : List DataPage} {records : List Record}
    (h : Compresses codec alg dataPages records) {r : Record} (hr : r ∈ records)
    (page : DataPage) : Restores page r ↔ page.stored = r.stored := by
  obtain ⟨hpfn, huid, hbytes⟩ := h.stored_eq hr
  constructor
  · intro hres
    rw [DataPage.stored, hres.pfn, hres.uid, hres.payload, ← hbytes, ← huid, ← Record.pfn, ← hpfn]
  · intro hst
    have hpay : page.payload = r.compressedPage.payload := congrArg StoredPage.bytes hst
    refine ⟨(congrArg StoredPage.pfn hst).trans hpfn, (congrArg StoredPage.uid hst).trans huid,
      ?_, hpay⟩
    rw [← UInt64.toNat_inj, ← DataPage.length_payload, ← DataPage.length_payload, hpay]

theorem Compresses.find?_stored {dataPages : List DataPage} {records : List Record}
    (h : Compresses codec alg dataPages records) {bin : List Record} (hbin : bin ⊆ records)
    (p : Int32) : (bin.map Record.stored).find? (fun e => e.pfn = p) =
      (bin.find? fun r => r.pfn = p).map Record.stored := by
  induction bin with
  | nil => rfl
  | cons r bin ih =>
      rw [List.cons_subset] at hbin
      have hpfn := (h.stored_eq hbin.1).1
      rw [List.map_cons]
      by_cases hp : r.pfn = p
      · rw [List.find?_cons_of_pos (by simpa [hpfn] using hp),
          List.find?_cons_of_pos (by simpa using hp), Option.map_some]
      · rw [List.find?_cons_of_neg (by simpa [hpfn] using hp),
          List.find?_cons_of_neg (by simpa using hp), ih hbin.2]

def newestBin (slotSize : UInt64) (records : List Record) (p : Int32) : List Record :=
  newest (fun r => r.pfn = p) (dropFit Record.size slotSize.toNat records).all

theorem newestBin_subset {p : Int32} {records : List Record} {i : Nat}
    (hi : newestIdx (fun r => r.pfn = p) (dropFit Record.size slotSize.toNat records).all = some i) :
    newestBin slotSize records p ⊆
      (dropFit Record.size slotSize.toNat records).all.flatten := by
  intro r hr
  exact List.mem_flatten.mpr ⟨_, List.mem_of_getElem? (newestIdx_eq_some hi).1, hr⟩

theorem newestBin_of_load_le {records : List Record}
    (hload : load Record.size records ≤ slotSize.toNat) {r : Record} (hr : r ∈ records) :
    newestBin slotSize records r.pfn = records := by
  have found : records.any (fun s => s.pfn = r.pfn) := List.any_eq_true.mpr ⟨r, hr, by simp⟩
  rw [newestBin, dropFit, fill_of_load_le _ _ _ _ hload]
  exact (newest_snoc _ [] records).trans (if_pos found)

namespace PackState

variable {st : PackState} {trace : SwapoutTrace} {records : List Record}

/-- A frame that the tree knows is found, and what is found is the oldest record of
the frame in its newest slot. -/
theorem Refines.slotPage_eq (href : st.Refines slotSize (dropFit Record.size slotSize.toNat records))
    (h : Compresses codec alg (intLoop trace.dataPages) records) {p : Int32} {slot : Nat}
    (hslot : st.slotTree[p]? = some slot) :
    ∃ page first, st.slotPage slot p = .ok (some page) ∧
      (newestBin slotSize records p).find? (fun r => r.pfn = p) = some first ∧
      Restores page first := by
  have hi := (href.slotTree p).symm.trans hslot
  obtain ⟨hget, hany⟩ := newestIdx_eq_some hi
  obtain ⟨cell, hcell, -, holds⟩ := href.heap_getElem? hget
  have kept := dropFit_sublist Record.size slotSize.toNat records
  have sub : newestBin slotSize records p ⊆ records := fun r hr =>
    kept.subset (newestBin_subset hi hr)
  have few : (newestBin slotSize records p).length ≤ 2 ^ 31 :=
    ((List.sublist_flatten_of_mem (List.mem_of_getElem? hget)).trans kept).length_le.trans
      (h.length_eq.trans_le (length_intLoop_le _))
  obtain ⟨found, hfound, hstored⟩ := holds.getCompressedDataPage_eq
    (by rw [List.length_map]; exact few) p
  obtain ⟨first, hfirst⟩ : ∃ first,
      (newestBin slotSize records p).find? (fun r => r.pfn = p) = some first := by
    rw [← Option.isSome_iff_exists, List.find?_isSome]
    exact List.any_eq_true.mp hany
  have hsearch := h.find?_stored sub p
  rw [hfirst, Option.map_some] at hsearch
  obtain ⟨page, rfl, hpage⟩ := Option.map_eq_some_iff.mp (hstored.trans hsearch)
  refine ⟨page, first, ?_, hfirst,
    (h.restores_iff (sub (List.mem_of_find?_eq_some hfirst)) page).mpr hpage⟩
  rw [slotPage, hcell]
  exact hfound

theorem Refines.not_accepted (href : st.Refines slotSize (dropFit Record.size slotSize.toNat records))
    {p : Int32} (hslot : st.slotTree[p]? = none) : ∀ r ∈ st.accepted, r.pfn ≠ p := by
  intro r hr hp
  rw [href.accepted] at hr
  exact newestIdx_eq_none ((href.slotTree p).symm.trans hslot) r hr (by simpa using hp)

theorem Refines.last_accepted (href : st.Refines slotSize (dropFit Record.size slotSize.toNat records))
    (p : Int32) : st.accepted.reverse.find? (fun r => r.pfn = p) =
      (newestBin slotSize records p).reverse.find? fun r => r.pfn = p := by
  rw [href.accepted, find?_reverse_flatten]
  rfl

def Answers (accepted : List Record) (pageMetadata : PageMetadata) : Replayed → Prop
  | .skipped => ∀ r ∈ accepted, r.pfn ≠ pageMetadata.pfn
  | .page compressedPage dataPage => ∃ r ∈ accepted, r.pfn = pageMetadata.pfn ∧
      Restores compressedPage r ∧ dataPage.contents = r.dataPage.contents

theorem Refines.replayPage_answers
    (href : st.Refines slotSize (dropFit Record.size slotSize.toNat records))
    (roundTrips : codec.RoundTrips)
    (h : Compresses codec alg (intLoop trace.dataPages) records) (pageMetadata : PageMetadata) :
    ∃ event, replayPage codec alg st pageMetadata = .ok event ∧
      Answers st.accepted pageMetadata event := by
  cases hslot : st.slotTree[pageMetadata.pfn]? with
  | none =>
      refine ⟨.skipped, ?_, href.not_accepted hslot⟩
      rw [replayPage, hslot]
  | some slot =>
      obtain ⟨page, first, hpage, hfirst, hres⟩ := href.slotPage_eq h hslot
      have accepted : first ∈ st.accepted := by
        rw [href.accepted]
        exact newestBin_subset ((href.slotTree _).symm.trans hslot)
          (List.mem_of_find?_eq_some hfirst)
      have mem : first ∈ records := by
        rw [href.accepted] at accepted
        exact (dropFit_sublist Record.size slotSize.toNat records).subset accepted
      have emitted := (CompressionAlgorithm.compressDataPage_some (h.compressed first mem)).2.2.2
      have full : first.dataPage.metadata.pageSize = PAGE_SIZE :=
        trace.full _ (List.mem_of_mem_take (h.pages ▸ List.mem_map_of_mem mem))
      rw [← hres.payload] at emitted
      obtain ⟨dataPage, run, -, -, hcontents⟩ :=
        CompressionAlgorithm.decompress_compress roundTrips full emitted
      refine ⟨.page page dataPage, ?_, first, accepted,
        by simpa using List.find?_some hfirst, hres, hcontents⟩
      simp only [replayPage, hslot, hpage, run, bind, Except.bind]

theorem Refines.replayLoop_answers
    (href : st.Refines slotSize (dropFit Record.size slotSize.toNat records))
    (roundTrips : codec.RoundTrips)
    (h : Compresses codec alg (intLoop trace.dataPages) records)
    (swapinDataPages : List PageMetadata) :
    ∃ events, swapinDataPages.mapM (replayPage codec alg st) = .ok events ∧
      List.Forall₂ (Answers st.accepted) swapinDataPages events := by
  induction swapinDataPages with
  | nil => exact ⟨[], rfl, .nil⟩
  | cons pageMetadata swapinDataPages ih =>
      obtain ⟨event, step, answer⟩ := href.replayPage_answers roundTrips h pageMetadata
      obtain ⟨events, run, answers⟩ := ih
      refine ⟨event :: events, ?_, .cons answer answers⟩
      rw [List.mapM_cons, step]
      simp only [run, bind, Except.bind]
      rfl

/-- After a swap-out run that compressed every page, the accepted records are those that the lossy
discipline keeps, and the slots store them, bin by bin. Whatever is replayed then, no lookup and no
decompression fails, a record is skipped when nothing of its frame was accepted, and otherwise one
accepted record of the frame comes back as it went in. -/
theorem replayLoop_integrity (roundTrips : codec.RoundTrips)
    (h : Compresses codec alg trace.dataPages records) :
    ∃ st, prepareReadEvaluationEnv codec alg slotSize trace.dataPages = .ok st ∧
      st.accepted = (dropFit Record.size slotSize.toNat (intLoop records)).all.flatten ∧
      st.accepted.Sublist (intLoop records) ∧
      st.heap.map ZRamBufferSlot.entries =
        (dropFit Record.size slotSize.toNat (intLoop records)).all.map (·.map Record.stored) ∧
      ∀ swapinDataPages, ∃ events,
        replayLoop codec alg st swapinDataPages = .ok events ∧
          List.Forall₂ (Answers st.accepted) (intLoop swapinDataPages) events := by
  obtain ⟨st, href, -, run⟩ := prepareReadEvaluationEnv_refines slotSize h.visited
  refine ⟨_, run, href.accepted, ?_, href.heap_entries, fun swapinDataPages => ?_⟩
  · rw [href.accepted]
    exact dropFit_sublist Record.size slotSize.toNat (intLoop records)
  · exact href.replayLoop_answers roundTrips h.visited (intLoop swapinDataPages)

/-- Three pages that LZ4 cannot shrink, two of one frame, in slots of 8 KB. -/
theorem replayLoop_integrity_counters :
    let trace := sampleTrace counterPage length_counterPage [(7, 1), (8, 1), (7, 2)]
    ∃ records, Compresses .vendored .lz4 trace.dataPages records ∧
      ∃ st, prepareReadEvaluationEnv .vendored .lz4 8192 trace.dataPages = .ok st ∧
        st.accepted =
          (dropFit Record.size (8192 : UInt64).toNat (intLoop records)).all.flatten ∧
        st.accepted.Sublist (intLoop records) ∧
        st.heap.map ZRamBufferSlot.entries =
          (dropFit Record.size (8192 : UInt64).toNat (intLoop records)).all.map
            (·.map Record.stored) ∧
        ∀ swapinDataPages, ∃ events,
          replayLoop .vendored .lz4 st swapinDataPages = .ok events ∧
            List.Forall₂ (Answers st.accepted) (intLoop swapinDataPages) events := by
  intro trace
  obtain ⟨records, hc, -⟩ := counters_compress [(7, 1), (8, 1), (7, 2)]
  exact ⟨records, hc, replayLoop_integrity Codec.vendored_roundTrips hc⟩

/-- What `slot_tree[p]->GetCompressedDataPage(p)` returns is the compressed page of `r`. -/
def FindsRecord (st : PackState) (p : Int32) (r : Record) : Prop :=
  ∃ slot page, st.slotTree[p]? = some slot ∧ st.slotPage slot p = .ok (some page) ∧
    Restores page r

theorem Refines.findsRecord_iff
    (href : st.Refines slotSize (dropFit Record.size slotSize.toNat records)) (trace : SwapoutTrace)
    (h : Compresses codec alg (intLoop trace.dataPages) records) {p : Int32} {last : Record}
    (hlast : st.accepted.reverse.find? (fun r => r.pfn = p) = some last) :
    st.FindsRecord p last ↔
      ∃ first, (newestBin slotSize records p).find? (fun r => r.pfn = p) = some first ∧
        first.dataPage.metadata.uid = last.dataPage.metadata.uid ∧
        first.compressedPage.payload = last.compressedPage.payload := by
  have accepted : last ∈ st.accepted :=
    List.mem_reverse.mp (List.mem_of_find?_eq_some hlast)
  have hp : last.pfn = p := by simpa using List.find?_some hlast
  obtain ⟨slot, hslot⟩ : ∃ slot, st.slotTree[p]? = some slot := by
    rw [← Option.isSome_iff_exists, Option.isSome_iff_ne_none]
    exact fun hnone => href.not_accepted hnone last accepted hp
  obtain ⟨page, first, hpage, hfirst, hres⟩ := href.slotPage_eq h hslot
  constructor
  · rintro ⟨slot', page', hslot', hpage', hres'⟩
    rw [hslot] at hslot'
    cases hslot'
    rw [hpage] at hpage'
    cases hpage'
    exact ⟨first, hfirst, hres.uid.symm.trans hres'.uid, hres.payload.symm.trans hres'.payload⟩
  · rintro ⟨first', hfirst', huid, hpayload⟩
    rw [hfirst] at hfirst'
    cases hfirst'
    have hpfn : first.pfn = last.pfn := by
      have := List.find?_some hfirst
      rw [hp]
      simpa using this
    refine ⟨slot, page, hslot, hpage, hres.pfn.trans hpfn, hres.uid.trans huid, ?_,
      hres.payload.trans hpayload⟩
    rw [hres.compressedSize, ← UInt64.toNat_inj, ← DataPage.length_payload,
      ← DataPage.length_payload, hpayload]

/-- The lookup of a frame finds its last accepted record exactly when the slot of that
record has no older, different one of the same frame in front. -/
theorem packLoop_findsRecord_iff (trace : SwapoutTrace)
    (h : Compresses codec alg (intLoop trace.dataPages) records)
    (run : packLoop codec alg slotSize trace.dataPages = .ok st) {p : Int32} {last : Record}
    (hlast : st.accepted.reverse.find? (fun r => r.pfn = p) = some last) :
    st.FindsRecord p last ↔
      ∃ first, (newestBin slotSize records p).find? (fun r => r.pfn = p) = some first ∧
        first.dataPage.metadata.uid = last.dataPage.metadata.uid ∧
        first.compressedPage.payload = last.compressedPage.payload := by
  obtain ⟨st', run', href⟩ := packLoop_refines slotSize h
  rw [run] at run'
  cases run'
  exact href.findsRecord_iff trace h hlast

theorem packLoop_twice (uid uid' : Int32) :
    ∃ older last st, Compresses .vendored .lz4
        (intLoop (sampleTrace zeroPage length_zeroPage [(7, uid), (7, uid')]).dataPages)
        [older, last] ∧
      packLoop .vendored .lz4 4096
        (sampleTrace zeroPage length_zeroPage [(7, uid), (7, uid')]).dataPages = .ok st ∧
      st.accepted.reverse.find? (fun r => r.pfn = 7) = some last ∧
      (newestBin 4096 [older, last] 7).find? (fun r => r.pfn = 7) = some older ∧
      older.dataPage.metadata.uid = uid ∧ last.dataPage.metadata.uid = uid' ∧
      older.compressedPage.payload = last.compressedPage.payload := by
  obtain ⟨records, hc, hstored⟩ := zeros_compress [(7, uid), (7, uid')]
  have sizes := size_eq_of_map_stored hstored
  obtain ⟨older, last, rfl⟩ := List.length_eq_two.mp (by simpa using congrArg List.length hstored)
  simp only [List.map_cons, List.map_nil, List.cons.injEq, and_true] at hstored
  obtain ⟨hpfn, huid, hbytes⟩ := hc.stored_eq (r := older) (by simp)
  obtain ⟨hpfn', huid', hbytes'⟩ := hc.stored_eq (r := last) (by simp)
  rw [hstored.1] at hpfn huid hbytes
  rw [hstored.2] at hpfn' huid' hbytes'
  obtain ⟨st, run, href⟩ := packLoop_refines 4096 hc.visited
  rw [intLoop_eq (by simp)] at href
  have hload : load Record.size [older, last] ≤ (4096 : UInt64).toNat := by
    rw [load_eq_mul Record.size sizes, List.length_cons, List.length_singleton]
    decide
  have hbin : newestBin 4096 [older, last] 7 = [older, last] := by
    rw [show (7 : Int32) = last.pfn from hpfn']
    exact newestBin_of_load_le hload (by simp)
  refine ⟨older, last, st, hc.visited, run, ?_, ?_, huid.symm, huid'.symm, hbytes.symm.trans hbytes'⟩
  · simp [href.last_accepted, hbin, ← hpfn']
  · simp [hbin, ← hpfn]

/-- Swapped out for process 1, then for process 2: the lookup finds the page of process 1. -/
theorem packLoop_finds_older_record :
    ∃ records st last, Compresses .vendored .lz4
        (intLoop (sampleTrace zeroPage length_zeroPage [(7, 1), (7, 2)]).dataPages) records ∧
      packLoop .vendored .lz4 4096
        (sampleTrace zeroPage length_zeroPage [(7, 1), (7, 2)]).dataPages = .ok st ∧
      st.accepted.reverse.find? (fun r => r.pfn = 7) = some last ∧ ¬st.FindsRecord 7 last := by
  obtain ⟨older, last, st, hc, run, hlast, holder, huid, huid', -⟩ := packLoop_twice 1 2
  refine ⟨[older, last], st, last, hc, run, hlast, ?_⟩
  obtain ⟨st', run', href⟩ := packLoop_refines 4096 hc
  rw [run] at run'
  cases run'
  rw [href.findsRecord_iff (sampleTrace zeroPage length_zeroPage [(7, 1), (7, 2)]) hc hlast, holder]
  rintro ⟨first, ⟨⟩, hsame, -⟩
  rw [huid, huid'] at hsame
  exact absurd hsame (by decide)

/-- Swapped out twice for one process, with the same page: the older record is as good as the
last. -/
theorem packLoop_findsRecord_twice :
    ∃ records st last, Compresses .vendored .lz4
        (intLoop (sampleTrace zeroPage length_zeroPage [(7, 1), (7, 1)]).dataPages) records ∧
      packLoop .vendored .lz4 4096
        (sampleTrace zeroPage length_zeroPage [(7, 1), (7, 1)]).dataPages = .ok st ∧
      st.accepted.reverse.find? (fun r => r.pfn = 7) = some last ∧ st.FindsRecord 7 last ∧
      (st.FindsRecord 7 last ↔
        ∃ first, (newestBin 4096 records 7).find? (fun r => r.pfn = 7) = some first ∧
          first.dataPage.metadata.uid = last.dataPage.metadata.uid ∧
          first.compressedPage.payload = last.compressedPage.payload) := by
  obtain ⟨older, last, st, hc, run, hlast, holder, huid, huid', hpayload⟩ := packLoop_twice 1 1
  have finds := packLoop_findsRecord_iff
    (sampleTrace zeroPage length_zeroPage [(7, 1), (7, 1)]) hc run hlast
  exact ⟨[older, last], st, last, hc, run, hlast,
    finds.mpr ⟨older, holder, huid.trans huid'.symm, hpayload⟩, finds⟩

end PackState
end Lookup
end MobilePIM
