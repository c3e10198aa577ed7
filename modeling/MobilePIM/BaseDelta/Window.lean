import MobilePIM.Zram.Codec

/-!
`CopyXPagesToVector`: the bytes of up to `inp_X` consecutive pages are copied to
the start of a zeroed vector of words. The window of pages is clamped to the
list, the number of bytes to what the vector has left; nothing of what the
vector held before survives.
-/

namespace MobilePIM

/-- The pages the copy loop visits; the sum of the two parameters is a `uint32_t`. -/
def pageWindow (n : Nat) (inpX startPage : UInt32) : List Nat :=
  List.range' startPage.toNat (min n (startPage + inpX).toNat - startPage.toNat)

theorem length_pageWindow_le (n : Nat) (inpX startPage : UInt32) :
    (pageWindow n inpX startPage).length ≤ inpX.toNat := by
  have sum : (startPage + inpX).toNat ≤ startPage.toNat + inpX.toNat := by
    rw [UInt32.toNat_add]
    exact Nat.mod_le _ _
  rw [pageWindow, List.length_range']
  omega

/-- A page past the last sum a `uint32_t` can hold is in no window. -/
theorem lt_of_mem_pageWindow {n : Nat} {inpX startPage : UInt32} {i : Nat}
    (h : i ∈ pageWindow n inpX startPage) : i + 1 < 2 ^ 32 := by
  have sum := (startPage + inpX).toNat_lt
  rw [pageWindow, List.mem_range'_1] at h
  omega

/-- One turn of the copy loop, on the bytes of `targetVector` and `offset`. -/
def copyPage (dataPages : List DataPage) (totalSize : UInt64) (st : List UInt8 × UInt64)
    (i : Nat) : Run (List UInt8 × UInt64) :=
  match dataPages[i]? with
  | none => .error (.badRead .dataPages i)
  | some dataPage => do
      let copySize := min dataPage.metadata.pageSize (totalSize - st.2)
      let bytes ← memcpy .targetVector st.1 st.2.toNat .pageBuf dataPage.buf 0 copySize.toNat
      .ok (bytes.1, st.2 + copySize)

/-- The words of a vector, as a little-endian machine reads them. -/
def wordsLE : List UInt8 → List UInt32
  | b0 :: b1 :: b2 :: b3 :: rest =>
      (b0.toUInt32 ||| b1.toUInt32 <<< 8 ||| b2.toUInt32 <<< 16 ||| b3.toUInt32 <<< 24) ::
        wordsLE rest
  | _ => []

/-- The bytes of a vector of words, as a little-endian machine stores them. -/
def bytesLE (words : List UInt32) : List UInt8 :=
  words.flatMap fun (word : UInt32) =>
    [word.toUInt8, (word >>> 8).toUInt8, (word >>> 16).toUInt8, (word >>> 24).toUInt8]

/-- `vector.clear()`, then `vector.resize(n, 0)`: what is there stays, zeros fill up to `n`. -/
def clearResize (vector : List UInt32) (n : Nat) : List UInt32 :=
  let cleared := vector.take 0
  cleared.take n ++ List.replicate (n - cleared.length) 0

/-- `CopyXPagesToVector`: `targetVector` afterwards. -/
def copyXPagesToVector (dataPages : List DataPage) (targetVector : List UInt32)
    (pagesize inpX startPage : UInt32) : Run (List UInt32) := do
  let totalSize := (inpX * pagesize).toUInt64
  let targetVector := clearResize targetVector (totalSize.toNat / 4)
  let st ← (pageWindow dataPages.length inpX startPage).foldlM (copyPage dataPages totalSize)
    (bytesLE targetVector, 0)
  .ok (wordsLE st.1)

theorem length_wordsLE (bytes : List UInt8) : (wordsLE bytes).length = bytes.length / 4 := by
  induction bytes using wordsLE.induct with
  | case1 b0 b1 b2 b3 rest ih =>
      simp only [wordsLE, List.length_cons, ih]
      omega
  | case2 bytes short =>
      match bytes, short with
      | [], _ | [_], _ | [_, _], _ | [_, _, _], _ => simp [wordsLE]
      | b0 :: b1 :: b2 :: b3 :: rest, short => exact (short b0 b1 b2 b3 rest rfl).elim

theorem copyPage_ok {dataPages : List DataPage} {totalSize : UInt64} {i : Nat} {page : DataPage}
    (hpage : dataPages[i]? = some page) (target : List UInt8) (offset : UInt64)
    (hlen : target.length = totalSize.toNat)
    (room : offset.toNat + page.metadata.pageSize.toNat ≤ totalSize.toNat) :
    copyPage dataPages totalSize (target, offset) i =
      .ok (overwrite target offset.toNat page.contents, offset + page.metadata.pageSize) := by
  have left : (totalSize - offset).toNat = totalSize.toNat - offset.toNat :=
    UInt64.toNat_sub_of_le _ _ (by rw [UInt64.le_iff_toNat_le]; omega)
  have whole : min page.metadata.pageSize (totalSize - offset) = page.metadata.pageSize :=
    if_pos (by rw [UInt64.le_iff_toNat_le, left]; omega)
  obtain ⟨_, copied⟩ := memcpy_ok .targetVector target offset.toNat .pageBuf page.buf 0
    ((Nat.zero_add _).trans_le page.pageSize_le) (room.trans_eq hlen.symm)
  simp only [copyPage, hpage, whole, copied, bind, Except.bind]
  rfl

theorem copyPages_ok {dataPages : List DataPage} {totalSize : UInt64} {ps : Nat}
    (sizes : ∀ page ∈ dataPages, page.metadata.pageSize.toNat = ps) (m s : Nat)
    (inside : s + m ≤ dataPages.length) (target : List UInt8) (offset : UInt64)
    (hlen : target.length = totalSize.toNat) (room : offset.toNat + m * ps ≤ totalSize.toNat) :
    ∃ offset', (List.range' s m).foldlM (copyPage dataPages totalSize) (target, offset) =
      .ok (overwrite target offset.toNat (((dataPages.drop s).take m).flatMap DataPage.contents),
        offset') ∧ offset'.toNat = offset.toNat + m * ps := by
  induction m generalizing s target offset with
  | zero => exact ⟨offset, by simp [overwrite, pure, Except.pure], by simp⟩
  | succ m ih =>
      have hs : s < dataPages.length := by omega
      have size := sizes dataPages[s] (List.getElem_mem hs)
      have split : offset.toNat + dataPages[s].metadata.pageSize.toNat + m * ps ≤
          totalSize.toNat := by
        rw [Nat.succ_mul] at room
        omega
      have below := totalSize.toNat_lt
      have next : (offset + dataPages[s].metadata.pageSize).toNat =
          offset.toNat + dataPages[s].metadata.pageSize.toNat := by
        rw [UInt64.toNat_add, Nat.mod_eq_of_lt (by omega)]
      have filled : (overwrite target offset.toNat dataPages[s].contents).length =
          totalSize.toNat := by
        rw [length_overwrite (by rw [DataPage.length_contents]; omega), hlen]
      obtain ⟨offset', run, stop⟩ := ih (s + 1) (by omega) _
        (offset + dataPages[s].metadata.pageSize) filled (by rw [next]; exact split)
      refine ⟨offset', ?_, by rw [stop, next, size, Nat.succ_mul]; omega⟩
      rw [List.range'_succ, List.foldlM_cons,
        copyPage_ok (List.getElem?_eq_getElem hs) target offset hlen (by omega)]
      change (List.range' (s + 1) m).foldlM _ _ = _
      rw [run, next, ← DataPage.length_contents,
        overwrite_append target offset.toNat _ _ (by omega), List.drop_eq_getElem_cons hs,
        List.take_succ_cons, List.flatMap_cons]

section Vector

theorem clearResize_eq (vector : List UInt32) (n : Nat) :
    clearResize vector n = List.replicate n 0 := by
  simp [clearResize]

theorem bytesLE_replicate (n : Nat) : bytesLE (List.replicate n 0) = List.replicate (4 * n) 0 := by
  induction n with
  | zero => rfl
  | succ n ih =>
      rw [List.replicate_succ]
      change [0, 0, 0, 0] ++ bytesLE (List.replicate n 0) = _
      rw [ih, Nat.mul_succ, Nat.add_comm, List.replicate_add]
      rfl

theorem length_bytesLE (words : List UInt32) : (bytesLE words).length = 4 * words.length := by
  induction words with
  | nil => rfl
  | cons word words ih =>
      rw [bytesLE, List.flatMap_cons, List.length_append, ← bytesLE, ih, List.length_cons]
      simp only [List.length_cons, List.length_nil]
      omega

theorem toNat_shiftLeft_byte (b : UInt8) {k : Nat} (hk : k ≤ 24) :
    (b.toUInt32 <<< UInt32.ofNat k).toNat = 2 ^ k * b.toNat := by
  have shift : (UInt32.ofNat k).toNat % 32 = k := by
    rw [UInt32.toNat_ofNat', Nat.mod_eq_of_lt (by omega), Nat.mod_eq_of_lt (by omega)]
  have small : b.toNat * 2 ^ k < 2 ^ 32 := by
    have factor := Nat.pow_le_pow_right (show 0 < 2 by decide) hk
    calc
      b.toNat * 2 ^ k < 2 ^ 8 * 2 ^ 24 :=
        Nat.mul_lt_mul_of_lt_of_le b.toNat_lt factor (by decide)
      _ = 2 ^ 32 := by decide
  rw [UInt32.toNat_shiftLeft, UInt8.toNat_toUInt32, shift, Nat.shiftLeft_eq, Nat.mod_eq_of_lt small,
    Nat.mul_comm]

/-- Bytes put side by side add up, each at its weight. -/
theorem toNat_wordLE (b0 b1 b2 b3 : UInt8) :
    (b0.toUInt32 ||| b1.toUInt32 <<< 8 ||| b2.toUInt32 <<< 16 ||| b3.toUInt32 <<< 24).toNat =
      b0.toNat + 2 ^ 8 * b1.toNat + 2 ^ 16 * b2.toNat + 2 ^ 24 * b3.toNat := by
  have low := b0.toNat_lt
  have mid := b1.toNat_lt
  have high := b2.toNat_lt
  simp only [UInt32.toNat_or]
  rw [show (8 : UInt32) = UInt32.ofNat 8 from rfl, show (16 : UInt32) = UInt32.ofNat 16 from rfl,
    show (24 : UInt32) = UInt32.ofNat 24 from rfl, toNat_shiftLeft_byte b1 (by decide),
    toNat_shiftLeft_byte b2 (by decide), toNat_shiftLeft_byte b3 (by decide),
    UInt8.toNat_toUInt32, Nat.or_comm b0.toNat, ← Nat.two_pow_add_eq_or_of_lt low,
    Nat.or_comm _ (2 ^ 16 * _), ← Nat.two_pow_add_eq_or_of_lt (by omega),
    Nat.or_comm _ (2 ^ 24 * _), ← Nat.two_pow_add_eq_or_of_lt (by omega)]
  omega

theorem bytesLE_wordsLE {bytes : List UInt8} (h : 4 ∣ bytes.length) :
    bytesLE (wordsLE bytes) = bytes := by
  induction bytes using wordsLE.induct with
  | case1 b0 b1 b2 b3 rest ih =>
      have word := toNat_wordLE b0 b1 b2 b3
      have h0 := b0.toNat_lt
      have h1 := b1.toNat_lt
      have h2 := b2.toNat_lt
      have h3 := b3.toNat_lt
      rw [wordsLE, bytesLE, List.flatMap_cons]
      change _ ++ bytesLE (wordsLE rest) = _
      rw [ih (by simpa [Nat.dvd_add_left] using h)]
      simp only [List.cons_append, List.nil_append, List.cons.injEq, ← UInt8.toNat_inj,
        UInt32.toNat_toUInt8, UInt32.toNat_shiftRight, Nat.shiftRight_eq_div_pow, word, and_true]
      simp
      omega
  | case2 bytes short =>
      match bytes, short with
      | [], _ => rfl
      | [_], _ | [_, _], _ | [_, _, _], _ => simp at h
      | b0 :: b1 :: b2 :: b3 :: rest, short => exact (short b0 b1 b2 b3 rest rfl).elim

end Vector

section Copy

variable {dataPages : List DataPage} {pagesize inpX startPage : UInt32}

theorem pageWindow_of_fits (n : Nat) (window : startPage.toNat + inpX.toNat < 2 ^ 32) :
    pageWindow n inpX startPage =
      List.range' startPage.toNat (min (n - startPage.toNat) inpX.toNat) := by
  rw [pageWindow, UInt32.toNat_add, Nat.mod_eq_of_lt window]
  congr 1
  omega

theorem length_flatMap_contents {ps : Nat} (pages : List DataPage)
    (sizes : ∀ page ∈ pages, page.metadata.pageSize.toNat = ps) :
    (pages.flatMap DataPage.contents).length = pages.length * ps := by
  induction pages with
  | nil => simp
  | cons page pages ih =>
      rw [List.flatMap_cons, List.length_append, ih fun p hp => sizes p (List.mem_cons_of_mem _ hp),
        DataPage.length_contents, sizes page List.mem_cons_self, List.length_cons, Nat.succ_mul,
        Nat.add_comm]

theorem overwrite_zeros (n : Nat) (src : List UInt8) :
    overwrite (List.replicate n 0) 0 src = src ++ List.replicate (n - src.length) 0 := by
  simp [overwrite]

/-- Before each turn the offset is the number of bytes of the pages behind it. -/
theorem copyPages_turn {ps : Nat} (sizes : ∀ page ∈ dataPages, page.metadata.pageSize.toNat = ps)
    (window : startPage.toNat + inpX.toNat < 2 ^ 32) {totalSize : UInt64}
    (total : totalSize.toNat = inpX.toNat * ps) (target : List UInt8)
    (hlen : target.length = totalSize.toNat) {m : Nat}
    (hm : m ≤ (pageWindow dataPages.length inpX startPage).length) :
    ∃ st, ((pageWindow dataPages.length inpX startPage).take m).foldlM
        (copyPage dataPages totalSize) (target, 0) = .ok st ∧
      st.1 = overwrite target 0
        (((dataPages.drop startPage.toNat).take m).flatMap DataPage.contents) ∧
      st.2.toNat = m * ps ∧ st.2 ≤ totalSize := by
  rw [pageWindow_of_fits _ window] at hm ⊢
  rw [List.length_range'] at hm
  have room : m * ps ≤ totalSize.toNat := by
    rw [total]
    exact Nat.mul_le_mul_right _ (hm.trans (Nat.min_le_right _ _))
  rw [List.take_range'_of_length_ge hm]
  by_cases inside : startPage.toNat + m ≤ dataPages.length
  · obtain ⟨offset, run, stop⟩ := copyPages_ok sizes m startPage.toNat inside target 0 hlen
      (by simpa using room)
    rw [show (0 : UInt64).toNat = 0 from rfl, Nat.zero_add] at stop
    exact ⟨_, run, rfl, stop, by rw [UInt64.le_iff_toNat_le, stop]; exact room⟩
  · -- a window that starts past the list is empty
    obtain rfl : m = 0 := by omega
    exact ⟨_, rfl, by simp [overwrite], by simp, by simp [UInt64.le_iff_toNat_le]⟩

theorem toNat_totalSize (fits : inpX.toNat * pagesize.toNat < 2 ^ 32) :
    (inpX * pagesize).toUInt64.toNat = inpX.toNat * pagesize.toNat := by
  rw [UInt32.toNat_toUInt64, UInt32.toNat_mul, Nat.mod_eq_of_lt fits]

theorem length_zeros_totalSize (words : 4 ∣ pagesize.toNat)
    (fits : inpX.toNat * pagesize.toNat < 2 ^ 32) :
    4 * ((inpX * pagesize).toUInt64.toNat / 4) = inpX.toNat * pagesize.toNat := by
  rw [toNat_totalSize fits]
  exact Nat.mul_div_cancel' (Nat.dvd_mul_left_of_dvd words _)

theorem length_window_le (inpX startPage : UInt32)
    (sizes : ∀ page ∈ dataPages, page.metadata.pageSize.toNat = pagesize.toNat) :
    (((dataPages.drop startPage.toNat).take inpX.toNat).flatMap DataPage.contents).length =
      ((dataPages.drop startPage.toNat).take inpX.toNat).length * pagesize.toNat ∧
    ((dataPages.drop startPage.toNat).take inpX.toNat).length * pagesize.toNat ≤
      inpX.toNat * pagesize.toNat :=
  ⟨length_flatMap_contents _ fun page hp =>
      sizes page (List.mem_of_mem_drop (List.mem_of_mem_take hp)),
    Nat.mul_le_mul_right _ (List.length_take_le _ _)⟩

/-- The bytes the vector is filled with: the pages of the window, and zeros for those the list
does not have. -/
def windowBytes (dataPages : List DataPage) (pagesize inpX startPage : UInt32) : List UInt8 :=
  ((dataPages.drop startPage.toNat).take inpX.toNat).flatMap DataPage.contents ++
    List.replicate (inpX.toNat * pagesize.toNat -
      ((dataPages.drop startPage.toNat).take inpX.toNat).length * pagesize.toNat) 0

theorem length_windowBytes (inpX startPage : UInt32)
    (sizes : ∀ page ∈ dataPages, page.metadata.pageSize.toNat = pagesize.toNat) :
    (windowBytes dataPages pagesize inpX startPage).length = inpX.toNat * pagesize.toNat := by
  obtain ⟨copied, room⟩ := length_window_le inpX startPage sizes
  rw [windowBytes, List.length_append, List.length_replicate, copied, Nat.add_sub_cancel' room]

theorem copyXPagesToVector_eq (targetVector : List UInt32)
    (sizes : ∀ page ∈ dataPages, page.metadata.pageSize.toNat = pagesize.toNat)
    (words : 4 ∣ pagesize.toNat) (fits : inpX.toNat * pagesize.toNat < 2 ^ 32)
    (window : startPage.toNat + inpX.toNat < 2 ^ 32) :
    copyXPagesToVector dataPages targetVector pagesize inpX startPage =
      .ok (wordsLE (windowBytes dataPages pagesize inpX startPage)) := by
  have total := toNat_totalSize fits
  have pages : (dataPages.drop startPage.toNat).take
      (pageWindow dataPages.length inpX startPage).length =
        (dataPages.drop startPage.toNat).take inpX.toNat := by
    rw [pageWindow_of_fits _ window, List.length_range', ← List.length_drop, Nat.min_comm,
      ← List.take_take, List.take_length]
  obtain ⟨st, run, bytes, -, -⟩ := copyPages_turn sizes window total
    (List.replicate (inpX.toNat * pagesize.toNat) 0) (by rw [List.length_replicate, total]) le_rfl
  rw [List.take_length] at run
  rw [pages, overwrite_zeros, (length_window_le inpX startPage sizes).1] at bytes
  rw [copyXPagesToVector, clearResize_eq, bytesLE_replicate, length_zeros_totalSize words fits,
    windowBytes, ← bytes]
  simp only [run, bind, Except.bind]

/-- The vector ends up with the pages of the window and zeros after them. On the way every
page is copied whole to where the one before it ended, inside the vector. -/
theorem copyXPages_window (targetVector : List UInt32)
    (sizes : ∀ page ∈ dataPages, page.metadata.pageSize.toNat = pagesize.toNat)
    (words : 4 ∣ pagesize.toNat) (fits : inpX.toNat * pagesize.toNat < 2 ^ 32)
    (window : startPage.toNat + inpX.toNat < 2 ^ 32) :
    (∃ result, copyXPagesToVector dataPages targetVector pagesize inpX startPage =
        .ok result ∧
      result.length = inpX.toNat * pagesize.toNat / 4 ∧
      bytesLE result =
        ((dataPages.drop startPage.toNat).take inpX.toNat).flatMap DataPage.contents ++
          List.replicate (inpX.toNat * pagesize.toNat -
            ((dataPages.drop startPage.toNat).take inpX.toNat).length * pagesize.toNat) 0) ∧
    ∀ m ≤ (pageWindow dataPages.length inpX startPage).length, ∃ st,
      ((pageWindow dataPages.length inpX startPage).take m).foldlM
        (copyPage dataPages (inpX * pagesize).toUInt64)
        (bytesLE (clearResize targetVector ((inpX * pagesize).toUInt64.toNat / 4)), 0) =
          .ok st ∧
      st.2.toNat = m * pagesize.toNat ∧ st.2 ≤ (inpX * pagesize).toUInt64 := by
  have total := toNat_totalSize fits
  have filled := length_windowBytes inpX startPage sizes
  refine ⟨⟨_, copyXPagesToVector_eq targetVector sizes words fits window, ?_,
    bytesLE_wordsLE ?_⟩, fun m hm => ?_⟩
  · rw [length_wordsLE, filled]
  · rw [filled]
    exact Nat.dvd_mul_left_of_dvd words _
  · rw [clearResize_eq, bytesLE_replicate, length_zeros_totalSize words fits]
    obtain ⟨st, run, -, stop, inside⟩ := copyPages_turn sizes window total
      (List.replicate (inpX.toNat * pagesize.toNat) 0) (by rw [List.length_replicate, total]) hm
    exact ⟨st, run, stop, inside⟩

/-- One of two pages is in the window, and a word of an earlier group is gone. -/
theorem copyXPages_window_partial :
    ∃ result, copyXPagesToVector
        [⟨⟨1, 0, 4, 0⟩, [1, 2, 3, 4], by decide, by decide⟩,
          ⟨⟨2, 0, 4, 0⟩, [5, 6, 7, 8], by decide, by decide⟩] [9] 4 2 1 = .ok result ∧
      result.length = 2 ∧ bytesLE result = [5, 6, 7, 8, 0, 0, 0, 0] :=
  (copyXPages_window [9] (by decide) (by decide) (by decide) (by decide)).1

end Copy

end MobilePIM
