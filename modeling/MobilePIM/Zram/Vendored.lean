import MobilePIM.Lz4.Extremes
import MobilePIM.Lz4.Fresh
import MobilePIM.Lz4.RoundTrip
import MobilePIM.Lzo.Compression
import MobilePIM.Lzo.Fresh
import MobilePIM.Zram.Codec

/-!
The libraries the repository ships, as the wrappers call them: every output goes
to a buffer that has just been allocated, and what that holds decides nothing.
Neither wrapper fails on a page, and the two give back what they were given.
-/

namespace MobilePIM

open Total

def LZO_E_INPUT_OVERRUN : Int := -4
def LZO_E_OUTPUT_OVERRUN : Int := -5
def LZO_E_LOOKBEHIND_OVERRUN : Int := -6
def LZO_E_INPUT_NOT_CONSUMED : Int := -8

def Lzo.Status.code : Lzo.Status → Int
  | .ok => LZO_E_OK
  | .inputOverrun => LZO_E_INPUT_OVERRUN
  | .outputOverrun => LZO_E_OUTPUT_OVERRUN
  | .lookbehindOverrun => LZO_E_LOOKBEHIND_OVERRUN
  | .inputNotConsumed => LZO_E_INPUT_NOT_CONSUMED

/-- What `malloc` gives: as many bytes as were asked for, whatever they are. -/
structure Heap where
  fresh : Nat → List UInt8
  length_fresh : ∀ n, (fresh n).length = n

theorem Heap.length_eq (heap heap' : Heap) (n : Nat) :
    (heap.fresh n).length = (heap'.fresh n).length :=
  (heap.length_fresh n).trans (heap'.length_fresh n).symm

/-- A fault of a library ends the run of the program. -/
def libraryCall {α : Type} : Access α → Run α
  | .ok a => .ok a
  | .error _ => .error .library

/-- Calls that differ in what their buffers hold, and what is done with their results. -/
theorem libraryCall_congr {α β γ : Type} {m : Access α} {m' : Access β} {rel : α → β → Prop}
    {f : α → Run γ} {g : β → Run γ} (alike : Alike m m' rel) (same : ∀ a b, rel a b → f a = g b) :
    libraryCall m >>= f = libraryCall m' >>= g := by
  rcases alike.outcomes with ⟨a, b, rfl, rfl, related⟩ | ⟨e, rfl, rfl⟩
  · exact same a b related
  · rfl

section Heaps

variable (heap heap' : Heap) (src : List UInt8) (n : Nat)

theorem Lz4.alike_compressFast_heap (acceleration : Int) :
    Alike (compressFast src (heap.fresh n) acceleration)
      (compressFast src (heap'.fresh n) acceleration)
      fun x y => x.1 = y.1 ∧ x.2.take x.1 = y.2.take y.1 := by
  refine (alike_compressFast src acceleration (heap.length_eq heap' n)).mono ?_
  rintro ⟨r, dst⟩ ⟨_, dst'⟩ ⟨⟨⟩, written⟩
  exact ⟨rfl, written.take_eq⟩

theorem Lz4.alike_decompressSafe_heap :
    Alike (decompressSafe src (heap.fresh n)) (decompressSafe src (heap'.fresh n))
      fun x y => x.1 = y.1 ∧ x.2.take x.1.toNat = y.2.take y.1.toNat := by
  refine (alike_decompressSafe_contents (heap.length_eq heap' n) src).mono ?_
  rintro ⟨r, dst⟩ ⟨_, dst'⟩ ⟨⟨⟩, decoded⟩
  refine ⟨rfl, ?_⟩
  by_cases failed : r < 0
  · rw [Int.toNat_of_nonpos failed.le, List.take_zero, List.take_zero]
  · exact decoded (Int.not_lt.mp failed)

theorem Lzo.alike_lzo1x1Compress_heap :
    Alike (lzo1x1Compress src (heap.fresh n)) (lzo1x1Compress src (heap'.fresh n))
      fun x y => x.1 = y.1 ∧ x.2.take x.1 = y.2.take y.1 := by
  refine (alike_lzo1x1Compress src (heap.length_eq heap' n)).mono ?_
  rintro ⟨len, dst⟩ ⟨_, dst'⟩ ⟨⟨⟩, written⟩
  exact ⟨rfl, written.take_eq⟩

theorem Lzo.alike_lzo1xDecompress_heap :
    Alike (lzo1xDecompress src (heap.fresh n)) (lzo1xDecompress src (heap'.fresh n))
      fun x y => x.1 = y.1 ∧ x.2.1 = y.2.1 ∧ x.2.2.take x.2.1 = y.2.2.take y.2.1 := by
  refine (alike_lzo1xDecompress (heap.length_eq heap' n) src).mono ?_
  rintro ⟨status, len, dst⟩ ⟨_, _, dst'⟩ ⟨⟨⟩, ⟨⟩, decoded⟩
  exact ⟨rfl, rfl, decoded⟩

/-- Fresh memory has no part in what a library returns, in what it says it has written, or in
whether and where it leaves its buffers. -/
theorem libraries_alike (acceleration : Int) :
    Alike (Lz4.compressFast src (heap.fresh n) acceleration)
        (Lz4.compressFast src (heap'.fresh n) acceleration)
        (fun x y => x.1 = y.1 ∧ x.2.take x.1 = y.2.take y.1) ∧
      Alike (Lz4.decompressSafe src (heap.fresh n)) (Lz4.decompressSafe src (heap'.fresh n))
        (fun x y => x.1 = y.1 ∧ x.2.take x.1.toNat = y.2.take y.1.toNat) ∧
      Alike (Lzo.lzo1x1Compress src (heap.fresh n)) (Lzo.lzo1x1Compress src (heap'.fresh n))
        (fun x y => x.1 = y.1 ∧ x.2.take x.1 = y.2.take y.1) ∧
      Alike (Lzo.lzo1xDecompress src (heap.fresh n)) (Lzo.lzo1xDecompress src (heap'.fresh n))
        (fun x y => x.1 = y.1 ∧ x.2.1 = y.2.1 ∧ x.2.2.take x.2.1 = y.2.2.take y.2.1) :=
  ⟨Lz4.alike_compressFast_heap heap heap' src n acceleration,
    Lz4.alike_decompressSafe_heap heap heap' src n,
    Lzo.alike_lzo1x1Compress_heap heap heap' src n, Lzo.alike_lzo1xDecompress_heap heap heap' src n⟩

end Heaps

namespace Codec

/-- `minilzo.c` and `lz4.c`, on memory that holds anything. -/
def vendoredOn (heap : Heap) : Codec where
  lzo1x1Compress src := do
    let (len, dst) ← libraryCall
      (Lzo.lzo1x1Compress src (heap.fresh (src.length + src.length / 16 + 64 + 3)))
    .ok (LZO_E_OK, dst.take len)
  lzo1xDecompress src := do
    let (status, len, dst) ← libraryCall (Lzo.lzo1xDecompress src (heap.fresh PAGE_SIZE.toNat))
    .ok (status.code, dst.take len)
  lz4CompressDefault src capacity := do
    let (r, dst) ← libraryCall (Lz4.compressDefault src (heap.fresh capacity))
    .ok (dst.take r)
  lz4DecompressSafe src capacity := do
    let (r, dst) ← libraryCall (Lz4.decompressSafe src (heap.fresh capacity))
    .ok (r, dst.take r.toNat)

/-- The libraries on memory that holds zeros. -/
def vendored : Codec := vendoredOn ⟨malloc, length_malloc⟩

/-- So it may as well hold zeros. -/
theorem vendoredOn_eq (heap : Heap) : vendoredOn heap = vendored := by
  rw [vendored, vendoredOn, vendoredOn, Codec.mk.injEq]
  refine ⟨funext fun src => ?_, funext fun src => ?_, funext fun src => funext fun capacity => ?_,
    funext fun src => funext fun capacity => ?_⟩
  · refine libraryCall_congr (Lzo.alike_lzo1x1Compress_heap heap _ src _) ?_
    rintro ⟨len, dst⟩ ⟨_, dst'⟩ ⟨-, same⟩
    dsimp only at same ⊢
    rw [same]
  · refine libraryCall_congr (Lzo.alike_lzo1xDecompress_heap heap _ src _) ?_
    rintro ⟨status, len, dst⟩ ⟨_, _, dst'⟩ ⟨⟨⟩, -, same⟩
    dsimp only at same ⊢
    rw [same]
  · refine libraryCall_congr (Lz4.alike_compressFast_heap heap _ src _ 1) ?_
    rintro ⟨r, dst⟩ ⟨_, dst'⟩ ⟨-, same⟩
    dsimp only at same ⊢
    rw [same]
  · refine libraryCall_congr (Lz4.alike_decompressSafe_heap heap _ src _) ?_
    rintro ⟨r, dst⟩ ⟨_, dst'⟩ ⟨⟨⟩, same⟩
    dsimp only at same ⊢
    rw [same]

section Calls

variable {src dst : List UInt8} {capacity n : Nat} {r : Int} {status : Lzo.Status}

theorem lzo1x1Compress_of_run
    (run : Lzo.lzo1x1Compress src (malloc (src.length + src.length / 16 + 64 + 3)) = .ok (n, dst)) :
    vendored.lzo1x1Compress src = .ok (LZO_E_OK, dst.take n) := by
  simp only [vendored, vendoredOn, run, libraryCall, bind, Except.bind]

theorem lzo1xDecompress_of_run
    (run : Lzo.lzo1xDecompress src (malloc PAGE_SIZE.toNat) = .ok (status, n, dst)) :
    vendored.lzo1xDecompress src = .ok (status.code, dst.take n) := by
  simp only [vendored, vendoredOn, run, libraryCall, bind, Except.bind]

theorem lz4CompressDefault_of_run
    (run : Lz4.compressFast src (malloc capacity) 1 = .ok (n, dst)) :
    vendored.lz4CompressDefault src capacity = .ok (dst.take n) := by
  simp only [vendored, vendoredOn, Lz4.compressDefault, run, libraryCall, bind, Except.bind]

theorem lz4DecompressSafe_of_run (run : Lz4.decompressSafe src (malloc capacity) = .ok (r, dst)) :
    vendored.lz4DecompressSafe src capacity = .ok (r, dst.take r.toNat) := by
  simp only [vendored, vendoredOn, run, libraryCall, bind, Except.bind]

end Calls

theorem vendored_lzo (src : List UInt8) :
    ∃ out, vendored.lzo1x1Compress src = .ok (LZO_E_OK, out) ∧
      out.length ≤ src.length + src.length / 16 + 67 ∧
      (src.length ≤ 4096 → vendored.lzo1xDecompress out = .ok (LZO_E_OK, src)) := by
  obtain ⟨⟨len, dst⟩, run, length_eq, bound, block⟩ := Lzo.returns_lzo1x1Compress src
    (malloc (src.length + src.length / 16 + 64 + 3)) (by rw [length_malloc])
  refine ⟨dst.take len, lzo1x1Compress_of_run run, ?_, fun small => ?_⟩
  · rw [List.length_take]
    exact (Nat.min_le_left _ _).trans bound
  · obtain ⟨back, run', contents⟩ :=
      Lzo.lzo1xDecompress_of_block block (show src.length ≤ (malloc PAGE_SIZE.toNat).length by
        rw [length_malloc]
        exact small)
    rw [lzo1xDecompress_of_run run', contents]
    rfl

theorem vendored_lz4 (src : List UInt8) (capacity : Nat) :
    ∃ out, vendored.lz4CompressDefault src capacity = .ok out ∧ out.length ≤ capacity ∧
      (src.length ≤ Lz4.LZ4_MAX_INPUT_SIZE → Lz4.compressBound src.length ≤ capacity → out ≠ []) ∧
      (out ≠ [] → ∀ room, src.length ≤ room → room ≠ 0 →
        vendored.lz4DecompressSafe out room = .ok (src.length, src)) := by
  obtain ⟨⟨r, dst⟩, run, length_eq, legal, enough⟩ :=
    Lz4.returns_compressFast src (malloc capacity) 1
  rw [length_malloc] at length_eq legal enough
  refine ⟨dst.take r, lz4CompressDefault_of_run run, ?_, fun fits bound => ?_,
    fun written room larger some_room => ?_⟩
  · rw [List.length_take, length_eq]
    exact Nat.min_le_right _ _
  · have positive := enough fits bound
    rcases legal with rfl | ⟨within, -⟩
    · exact absurd positive (Nat.lt_irrefl 0)
    · apply List.ne_nil_of_length_pos
      rw [List.length_take, length_eq, Nat.min_eq_left within]
      exact positive
  · rcases legal with rfl | ⟨-, -, legal⟩
    · exact absurd List.take_zero written
    · have fits : src.length ≤ (malloc room).length := by
        rw [length_malloc]
        exact larger
      obtain ⟨⟨r', back⟩, run', size, contents, -⟩ := Lz4.decompressSafe_of_legal
        (by rw [length_malloc]; exact some_room) (legal.mono fits)
      subst size
      rw [lz4DecompressSafe_of_run run', Int.toNat_natCast, contents]

theorem vendored_roundTrips : vendored.RoundTrips := by
  intro page full
  constructor
  · intro out run
    obtain ⟨out', run', -, back⟩ := vendored_lzo page
    rw [run'] at run
    cases run
    exact back full.le
  · intro capacity out run written
    obtain ⟨out', run', -, -, back⟩ := vendored_lz4 page capacity
    rw [run'] at run
    cases run
    rw [back written 4096 full.le (by decide), full]
    rfl

end Codec

section Samples
open Codec

/-- The block of a page of zeros: a literal, a match of 4090 bytes, five literals. -/
def zeroBlock : List UInt8 :=
  [0x1F, 0, 1, 0] ++ List.replicate 15 0xFF ++ [0xF6, 0x50, 0, 0, 0, 0, 0]

theorem vendored_zeroPage : vendored.lz4CompressDefault zeroPage 4128 = .ok zeroBlock := by
  obtain ⟨⟨r, dst⟩, run, filled, rfl⟩ := Lz4.returns_compressFast_replicate (n := 4096) (b := 0)
    (malloc 4128) 1 (by decide) (by decide) (by rw [length_malloc]; decide)
  have block : Lz4.runBlock 4096 0 = zeroBlock := by decide
  rw [zeroPage, lz4CompressDefault_of_run run, filled.take_eq, block]

/-- A page that LZ4 cannot shrink: its block is eighteen bytes longer. -/
def counterPage : List UInt8 := Lz4.counters 2048

def counterBlock : List UInt8 := [0xF0] ++ List.replicate 16 0xFF ++ [1] ++ counterPage

theorem length_counterPage : counterPage.length = 4096 := Lz4.length_counters 2048

theorem length_counterBlock : counterBlock.length = 4114 := by
  simp [counterBlock, length_counterPage]

theorem vendored_counterPage :
    vendored.lz4CompressDefault counterPage 4128 = .ok counterBlock := by
  have none : Lz4.NoMatch counterPage := Lz4.noMatch_counters (n := 2048) (by decide)
  obtain ⟨⟨r, dst⟩, run, filled, size⟩ := Lz4.returns_compressFast_noMatch (malloc 4128) 1 none
    (by rw [length_counterPage]; omega) (by rw [length_counterPage]; decide)
    (by rw [length_counterPage, length_malloc]; decide)
  have head : Lz4.token 4096 0 :: Lz4.extension 4096 = [0xF0] ++ List.replicate 16 0xFF ++ [1] := by
    decide
  have block : Lz4.lastBytes counterPage = counterBlock := by
    rw [Lz4.lastBytes, length_counterPage, head, counterBlock]
  rw [lz4CompressDefault_of_run run, size, filled.take_eq, block]

end Samples

namespace CompressionAlgorithm
open Codec

/-- Neither wrapper ever fails to compress a page of a trace. -/
theorem compressDataPage_vendored (alg : CompressionAlgorithm) {dataPage : DataPage}
    (full : dataPage.metadata.pageSize = PAGE_SIZE) :
    ∃ compressedPage, alg.compressDataPage vendored dataPage = .ok (some compressedPage) := by
  have length_eq : dataPage.contents.length = 4096 := by
    rw [DataPage.length_contents, full]
    rfl
  obtain ⟨out, emits, fits⟩ : ∃ out, alg.Emits vendored dataPage out ∧
      out.length ≤ (alg.maxComprLen dataPage.metadata.pageSize).toNat := by
    rw [full]
    cases alg with
    | lzo =>
        obtain ⟨out, run, bound, -⟩ := vendored_lzo dataPage.contents
        rw [length_eq] at bound
        exact ⟨out, run, bound.trans (by decide)⟩
    | lz4 =>
        obtain ⟨out, run, bound, written, -⟩ := vendored_lz4 dataPage.contents
          (maxComprLen .lz4 dataPage.metadata.pageSize).toNat
        have some_bytes := written (by rw [length_eq]; decide) (by rw [length_eq, full]; decide)
        exact ⟨out, ⟨run, some_bytes⟩, full ▸ bound⟩
  obtain ⟨compressedPage, done, -⟩ := compressDataPage_of_emits emits fits
  exact ⟨compressedPage, done⟩

/-- A page goes through either pair of wrappers unchanged, with its pfn and its uid. -/
theorem decompressDataPage_compressDataPage (alg : CompressionAlgorithm) {dataPage : DataPage}
    (full : dataPage.metadata.pageSize = PAGE_SIZE) :
    ∃ compressedPage page, alg.compressDataPage vendored dataPage = .ok (some compressedPage) ∧
      compressedPage.metadata.compressedSize.toNat ≤ 4419 ∧
      alg.decompressDataPage vendored compressedPage = .ok (some page) ∧
      page.metadata.pfn = dataPage.metadata.pfn ∧ page.metadata.uid = dataPage.metadata.uid ∧
      page.contents = dataPage.contents := by
  obtain ⟨compressedPage, done⟩ := alg.compressDataPage_vendored full
  obtain ⟨pfn, uid, size, emits⟩ := compressDataPage_some done
  obtain ⟨page, back, pfn', uid', contents⟩ := decompress_compress vendored_roundTrips full emits
  rw [full] at size
  exact ⟨compressedPage, page, done, size.trans (maxComprLen_le alg), back, pfn'.trans pfn,
    uid'.trans uid, contents⟩

/-- A page of zeros, under LZ4. -/
theorem decompressDataPage_compressDataPage_zeros :
    ∃ compressedPage page,
      lz4.compressDataPage vendored (.ofTrace 7 1 zeroPage length_zeroPage) =
        .ok (some compressedPage) ∧
      compressedPage.metadata.compressedSize.toNat ≤ 4419 ∧
      lz4.decompressDataPage vendored compressedPage = .ok (some page) ∧
      page.metadata.pfn = 7 ∧ page.metadata.uid = 1 ∧
      page.contents = DataPage.contents (.ofTrace 7 1 zeroPage length_zeroPage) :=
  decompressDataPage_compressDataPage .lz4 rfl

/-- Whatever bytes a slot gives back, `LZ4_decompress_safe` stays inside them and the fresh page.
The wrapper fails where it decodes nothing, and gives else a page that starts with the contents of
the block which the bytes are. -/
theorem decompressDataPage_lz4_vendored (compressedPage : DataPage) :
    ∃ r dst, Lz4.decompressSafe compressedPage.payload (malloc 4096) = .ok (r, dst) ∧
      r ≤ 4096 ∧ dst.length = 4096 ∧
      if r ≤ 0 then lz4.decompressDataPage vendored compressedPage = .ok none
      else ∃ page, lz4.decompressDataPage vendored compressedPage = .ok (some page) ∧
        Lz4.IsBlock compressedPage.payload (dst.take r.toNat) ∧
        page.metadata.pfn = compressedPage.metadata.pfn ∧
        page.metadata.uid = compressedPage.metadata.uid ∧
        page.contents.length = 4096 ∧ page.contents.take r.toNat = dst.take r.toNat := by
  have capacity : PAGE_SIZE.toNat = 4096 := rfl
  obtain ⟨⟨r, dst⟩, run, length_eq, sound, -⟩ := Lz4.returns_decompressSafe
    compressedPage.payload (malloc 4096) (by rw [length_malloc]; decide)
  rw [length_malloc] at length_eq sound
  have fits : (dst.take r.toNat).length ≤ PAGE_SIZE.toNat := by
    rw [List.length_take, length_eq]
    exact Nat.min_le_right _ _
  obtain ⟨page, hlen, received, metadata, contents⟩ := DataPage.receive_ok
    compressedPage.metadata.pfn compressedPage.metadata.uid fits
  have call : lz4.decompressDataPage vendored compressedPage =
      if r ≤ 0 then .ok none else .ok (some page) := by
    simp only [decompressDataPage, capacity, lz4DecompressSafe_of_run run, received, bind,
      Except.bind]
  refine ⟨r, dst, run, ?_, length_eq, ?_⟩
  · by_cases nonneg : 0 ≤ r
    · exact (sound nonneg).1
    · omega
  · rw [call]
    split
    · rfl
    · rename_i decoded
      obtain ⟨within, block⟩ := sound (by omega)
      have whole : (dst.take r.toNat).length = r.toNat := List.length_take_of_le (by omega)
      refine ⟨page, rfl, block, by rw [metadata], by rw [metadata], ?_, ?_⟩
      · rw [DataPage.length_contents, metadata]
        rfl
      · rw [DataPage.contents, metadata, List.take_take, Nat.min_eq_left (whole ▸ fits), ← whole,
          contents]
        rw [whole]

end CompressionAlgorithm

end MobilePIM
