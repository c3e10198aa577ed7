import MobilePIM.Machine

/-!
Pages and the two compression wrappers of `ZSwapTest.h`. The vendored libraries
enter as the functions the wrappers call; what they write into a page buffer is
checked against the size that was allocated for it.
-/

namespace MobilePIM

def PAGE_SIZE : UInt64 := 4096

def LZO_E_OK : Int := 0

structure PageMetadata where
  pfn : Int32
  uid : Int32
  pageSize : UInt64 := PAGE_SIZE
  compressedSize : UInt64 := 0
deriving DecidableEq, Repr

/-- A page and its buffer. Neither size of the metadata exceeds what is allocated. -/
structure DataPage where
  metadata : PageMetadata
  buf : List UInt8
  pageSize_le : metadata.pageSize.toNat ≤ buf.length
  compressedSize_le : metadata.compressedSize.toNat ≤ buf.length
deriving DecidableEq, Repr

namespace DataPage

/-- The `page_size` bytes of an uncompressed page. -/
def contents (page : DataPage) : List UInt8 := page.buf.take page.metadata.pageSize.toNat

/-- The `compressed_size` bytes of a compressed page. -/
def payload (page : DataPage) : List UInt8 := page.buf.take page.metadata.compressedSize.toNat

/-- `new DataPage(pfn, uid, page_size)`, then a library call that writes `out` to its buffer. -/
def receive (pfn uid : Int32) (pageSize : UInt64) (out : List UInt8) :
    Run {page : DataPage // out.length ≤ page.buf.length} :=
  if h : out.length ≤ pageSize.toNat then
    have hlen : (overwrite (malloc pageSize.toNat) 0 out).length = pageSize.toNat := by
      rw [length_overwrite (by simpa using h), length_malloc]
    .ok ⟨{ metadata := { pfn, uid, pageSize }
           buf := overwrite (malloc pageSize.toNat) 0 out
           pageSize_le := hlen.ge
           compressedSize_le := Nat.zero_le _ }, h.trans hlen.ge⟩
  else .error (.badStore .pageBuf pageSize.toNat)

def setCompressedSize (page : DataPage) (n : Nat) (h : n ≤ page.buf.length) : DataPage :=
  { metadata := { page.metadata with compressedSize := UInt64.ofNat n }
    buf := page.buf
    pageSize_le := page.pageSize_le
    compressedSize_le := by
      rw [UInt64.toNat_ofNat']
      exact (Nat.mod_le _ _).trans h }

def setPageSize (page : DataPage) (n : Nat) (h : n ≤ page.buf.length) : DataPage :=
  { metadata := { page.metadata with pageSize := UInt64.ofNat n }
    buf := page.buf
    pageSize_le := by
      rw [UInt64.toNat_ofNat']
      exact (Nat.mod_le _ _).trans h
    compressedSize_le := page.compressedSize_le }

@[simp] theorem setCompressedSize_pfn (page : DataPage) (n : Nat) (h : n ≤ page.buf.length) :
    (page.setCompressedSize n h).metadata.pfn = page.metadata.pfn := rfl

@[simp] theorem setCompressedSize_uid (page : DataPage) (n : Nat) (h : n ≤ page.buf.length) :
    (page.setCompressedSize n h).metadata.uid = page.metadata.uid := rfl

@[simp] theorem setPageSize_pfn (page : DataPage) (n : Nat) (h : n ≤ page.buf.length) :
    (page.setPageSize n h).metadata.pfn = page.metadata.pfn := rfl

@[simp] theorem setPageSize_uid (page : DataPage) (n : Nat) (h : n ≤ page.buf.length) :
    (page.setPageSize n h).metadata.uid = page.metadata.uid := rfl

theorem payload_setCompressedSize (page : DataPage) {n : Nat} (h : n ≤ page.buf.length)
    (small : n < 2 ^ 64) : (page.setCompressedSize n h).payload = page.buf.take n := by
  simp only [payload, setCompressedSize, UInt64.toNat_ofNat', Nat.mod_eq_of_lt small]

theorem contents_setPageSize (page : DataPage) {n : Nat} (h : n ≤ page.buf.length)
    (small : n < 2 ^ 64) : (page.setPageSize n h).contents = page.buf.take n := by
  simp only [contents, setPageSize, UInt64.toNat_ofNat', Nat.mod_eq_of_lt small]

theorem length_payload (page : DataPage) :
    page.payload.length = page.metadata.compressedSize.toNat :=
  List.length_take_of_le page.compressedSize_le

theorem length_contents (page : DataPage) :
    page.contents.length = page.metadata.pageSize.toNat :=
  List.length_take_of_le page.pageSize_le

/-- A library call whose output fits its buffer leaves the output at the start of it. -/
theorem receive_ok (pfn uid : Int32) {pageSize : UInt64} {out : List UInt8}
    (h : out.length ≤ pageSize.toNat) :
    ∃ page hlen, receive pfn uid pageSize out = .ok ⟨page, hlen⟩ ∧
      page.metadata = { pfn, uid, pageSize } ∧ page.buf.take out.length = out := by
  refine ⟨_, _, by rw [receive, dif_pos h], rfl, ?_⟩
  simpa using take_overwrite (malloc pageSize.toNat) 0 out (Nat.zero_le _)

theorem receive_eq_ok {pfn uid : Int32} {pageSize : UInt64} {out : List UInt8}
    {page : {page : DataPage // out.length ≤ page.buf.length}}
    (h : receive pfn uid pageSize out = .ok page) :
    out.length ≤ pageSize.toNat ∧ page.1.metadata = { pfn, uid, pageSize } ∧
      page.1.buf.take out.length = out := by
  by_cases fits : out.length ≤ pageSize.toNat
  · obtain ⟨page', hlen, he, hm, hb⟩ := receive_ok pfn uid fits
    rw [he] at h
    cases h
    exact ⟨fits, hm, hb⟩
  · rw [receive, dif_neg fits] at h
    cases h

end DataPage

/-- The library calls of the wrappers. The LZO functions return a status and leave an output,
`LZ4_decompress_safe` returns a number, negative on failure; what `LZ4_compress_default` returns
is the length of its output, 0 on failure. -/
structure Codec where
  lzo1x1Compress : List UInt8 → Run (Int × List UInt8)
  lzo1xDecompress : List UInt8 → Run (Int × List UInt8)
  lz4CompressDefault : List UInt8 → Nat → Run (List UInt8)
  lz4DecompressSafe : List UInt8 → Nat → Run (Int × List UInt8)

/-- Each library decompresses what it made of a 4096-byte page back to that page. -/
def Codec.RoundTrips (codec : Codec) : Prop :=
  ∀ page : List UInt8, page.length = 4096 →
    (∀ out, codec.lzo1x1Compress page = .ok (LZO_E_OK, out) →
      codec.lzo1xDecompress out = .ok (LZO_E_OK, page)) ∧
    (∀ capacity out, codec.lz4CompressDefault page capacity = .ok out → out ≠ [] →
      codec.lz4DecompressSafe out 4096 = .ok (4096, page))

inductive CompressionAlgorithm
  | lzo | lz4
deriving DecidableEq, Repr

/-- `LZ4_COMPRESSBOUND` of a size passed as an `int`. -/
def lz4CompressBound (isize : UInt64) : UInt64 :=
  let isize := isize.toNat % 2 ^ 32
  if isize > 0x7E000000 then 0 else UInt64.ofNat (isize + isize / 255 + 16)

namespace CompressionAlgorithm
open DataPage

/-- The buffer size a wrapper allocates for the compressed form of a page. -/
def maxComprLen : CompressionAlgorithm → UInt64 → UInt64
  | .lzo, pageSize => pageSize + pageSize / 16 + 64 + 3
  | .lz4, pageSize => lz4CompressBound pageSize

/-- What both wrappers do after their library call: a null pointer on failure,
else the page with the length of the output as its `compressed_size`. -/
def afterCompress (dataPage : DataPage) (maxLen : UInt64) (failed : Bool) (out : List UInt8) :
    Run (Option DataPage) := do
  let page ← receive dataPage.metadata.pfn dataPage.metadata.uid maxLen out
  if failed then .ok none
  else .ok (some (page.1.setCompressedSize out.length page.2))

/-- `CompressDataPage`; `none` is the null pointer. -/
def compressDataPage (codec : Codec) (alg : CompressionAlgorithm) (dataPage : DataPage) :
    Run (Option DataPage) :=
  let maxLen := alg.maxComprLen dataPage.metadata.pageSize
  match alg with
  | .lzo => do
      let (r, out) ← codec.lzo1x1Compress dataPage.contents
      afterCompress dataPage maxLen (r ≠ LZO_E_OK) out
  | .lz4 => do
      let out ← codec.lz4CompressDefault dataPage.contents maxLen.toNat
      afterCompress dataPage maxLen (out.length = 0) out

/-- `DecompressDataPage`. LZO stores the length of its output in `page_size`. -/
def decompressDataPage (codec : Codec) (alg : CompressionAlgorithm) (compressedPage : DataPage) :
    Run (Option DataPage) :=
  let metadata := compressedPage.metadata
  match alg with
  | .lzo => do
      let (r, out) ← codec.lzo1xDecompress compressedPage.payload
      let page ← receive metadata.pfn metadata.uid PAGE_SIZE out
      if r ≠ LZO_E_OK then .ok none else .ok (some (page.1.setPageSize out.length page.2))
  | .lz4 => do
      let (newLen, out) ← codec.lz4DecompressSafe compressedPage.payload PAGE_SIZE.toNat
      let page ← receive metadata.pfn metadata.uid PAGE_SIZE out
      if newLen ≤ 0 then .ok none else .ok (some page.1)

/-- The library call behind a successful compression of `page` into `out`. -/
def Emits (codec : Codec) (dataPage : DataPage) (out : List UInt8) : CompressionAlgorithm → Prop
  | .lzo => codec.lzo1x1Compress dataPage.contents = .ok (LZO_E_OK, out)
  | .lz4 => codec.lz4CompressDefault dataPage.contents
      (maxComprLen .lz4 dataPage.metadata.pageSize).toNat = .ok out ∧ out ≠ []

theorem afterCompress_some {dataPage compressedPage : DataPage} {maxLen : UInt64}
    {failed : Bool} {out : List UInt8}
    (h : afterCompress dataPage maxLen failed out = .ok (some compressedPage)) :
    failed = false ∧ compressedPage.metadata.pfn = dataPage.metadata.pfn ∧
      compressedPage.metadata.uid = dataPage.metadata.uid ∧
      compressedPage.payload = out ∧ out.length ≤ maxLen.toNat := by
  simp only [afterCompress, bind, Except.bind] at h
  split at h
  · cases h
  · rename_i page hr
    obtain ⟨fits, hm, hb⟩ := receive_eq_ok hr
    cases failed with
    | true => cases h
    | false =>
        cases h
        refine ⟨rfl, by rw [setCompressedSize_pfn, hm], by rw [setCompressedSize_uid, hm], ?_, fits⟩
        rw [payload_setCompressedSize _ page.2 (fits.trans_lt (UInt64.toNat_lt _)), hb]

theorem afterCompress_ok (dataPage : DataPage) {maxLen : UInt64} {out : List UInt8}
    (h : out.length ≤ maxLen.toNat) :
    ∃ compressedPage, afterCompress dataPage maxLen false out = .ok (some compressedPage) ∧
      compressedPage.payload = out := by
  obtain ⟨received, hlen, hr, -, hb⟩ := receive_ok dataPage.metadata.pfn
    dataPage.metadata.uid h
  refine ⟨received.setCompressedSize out.length hlen, ?_, ?_⟩
  · simp [afterCompress, hr, bind, Except.bind]
  · rw [payload_setCompressedSize _ hlen (h.trans_lt (UInt64.toNat_lt _)), hb]

/-- What a successful `CompressDataPage` returns. -/
theorem compressDataPage_some {codec : Codec} {alg : CompressionAlgorithm}
    {dataPage compressedPage : DataPage}
    (h : alg.compressDataPage codec dataPage = .ok (some compressedPage)) :
    compressedPage.metadata.pfn = dataPage.metadata.pfn ∧
      compressedPage.metadata.uid = dataPage.metadata.uid ∧
      compressedPage.metadata.compressedSize.toNat ≤
        (alg.maxComprLen dataPage.metadata.pageSize).toNat ∧
      alg.Emits codec dataPage compressedPage.payload := by
  cases alg with
  | lzo =>
      obtain ⟨⟨r, out⟩, call, h⟩ := bind_eq_ok.mp h
      obtain ⟨status, hpfn, huid, hout, fits⟩ := afterCompress_some h
      refine ⟨hpfn, huid, by rw [← length_payload, hout]; exact fits, ?_⟩
      obtain rfl : r = LZO_E_OK := by simpa using status
      rw [hout]
      exact call
  | lz4 =>
      obtain ⟨out, call, h⟩ := bind_eq_ok.mp h
      obtain ⟨written, hpfn, huid, hout, fits⟩ := afterCompress_some h
      refine ⟨hpfn, huid, by rw [← length_payload, hout]; exact fits, ?_⟩
      rw [hout]
      exact ⟨call, by simpa using written⟩

/-- A library call whose output fits the buffer that was allocated for it makes a page. -/
theorem compressDataPage_of_emits {codec : Codec} {alg : CompressionAlgorithm}
    {dataPage : DataPage} {out : List UInt8} (emits : alg.Emits codec dataPage out)
    (fits : out.length ≤ (alg.maxComprLen dataPage.metadata.pageSize).toNat) :
    ∃ compressedPage, alg.compressDataPage codec dataPage = .ok (some compressedPage) ∧
      compressedPage.payload = out := by
  obtain ⟨compressedPage, done, payload⟩ := afterCompress_ok dataPage fits
  refine ⟨compressedPage, ?_, payload⟩
  cases alg with
  | lzo =>
      have call : codec.lzo1x1Compress dataPage.contents = .ok (LZO_E_OK, out) := emits
      rw [compressDataPage, call]
      exact done
  | lz4 =>
      obtain ⟨call, some_bytes⟩ := emits
      rw [compressDataPage, call]
      simpa only [bind, Except.bind, List.length_eq_zero_iff, some_bytes, decide_false] using done

/-- The compressed form of a 4096-byte page has at most 4419 bytes. -/
theorem maxComprLen_le (alg : CompressionAlgorithm) : (alg.maxComprLen PAGE_SIZE).toNat ≤ 4419 := by
  cases alg <;> decide

/-- Decompressing the stored bytes of a compressed page gives the page back. -/
theorem decompress_compress {codec : Codec} (roundTrips : codec.RoundTrips)
    {alg : CompressionAlgorithm} {dataPage compressedPage : DataPage}
    (hsize : dataPage.metadata.pageSize = PAGE_SIZE)
    (h : alg.Emits codec dataPage compressedPage.payload) :
    ∃ page, alg.decompressDataPage codec compressedPage = .ok (some page) ∧
      page.metadata.pfn = compressedPage.metadata.pfn ∧
      page.metadata.uid = compressedPage.metadata.uid ∧
      page.contents = dataPage.contents := by
  have full : dataPage.contents.length = 4096 := by
    rw [length_contents, hsize]; rfl
  obtain ⟨page, hlen, hr, hm, hb⟩ := receive_ok compressedPage.metadata.pfn
    compressedPage.metadata.uid (show dataPage.contents.length ≤ PAGE_SIZE.toNat from full.le)
  cases alg with
  | lzo =>
      have back := (roundTrips dataPage.contents full).1 _ h
      refine ⟨page.setPageSize dataPage.contents.length hlen, ?_, ?_, ?_, ?_⟩
      · unfold decompressDataPage
        simp only [back, hr, bind, Except.bind, ne_eq, not_true, if_false]
      · rw [setPageSize_pfn, hm]
      · rw [setPageSize_uid, hm]
      · rw [contents_setPageSize _ hlen (by rw [full]; decide), hb]
  | lz4 =>
      obtain ⟨written, some_bytes⟩ := h
      have back := (roundTrips dataPage.contents full).2 _ _ written some_bytes
      have limit : PAGE_SIZE.toNat = 4096 := rfl
      refine ⟨page, ?_, by rw [hm], by rw [hm], ?_⟩
      · simp only [decompressDataPage, limit, back, hr, bind, Except.bind]
        rfl
      · rw [contents, hm, limit, ← full, hb]

end CompressionAlgorithm

/-- A data page as `LoadTrace` makes it of 4096 bytes of the trace. -/
def DataPage.ofTrace (pfn uid : Int32) (bytes : List UInt8) (h : bytes.length = 4096) :
    DataPage where
  metadata := { pfn, uid }
  buf := bytes
  pageSize_le := h.ge
  compressedSize_le := Nat.zero_le _

theorem DataPage.contents_ofTrace (pfn uid : Int32) (bytes : List UInt8)
    (h : bytes.length = 4096) : (DataPage.ofTrace pfn uid bytes h).contents = bytes :=
  List.take_of_length_le h.le

def zeroPage : List UInt8 := List.replicate 4096 0

theorem length_zeroPage : zeroPage.length = 4096 := List.length_replicate

end MobilePIM
