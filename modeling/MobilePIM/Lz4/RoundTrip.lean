import MobilePIM.Lz4.Decoding
import MobilePIM.Lz4.Extremes

/-!
Compression with LZ4 and decompression of what it wrote, whatever the two output
buffers held before. The decoder may be given more room than the source takes:
a block legal for one capacity is legal for a larger one.
-/

namespace MobilePIM.Lz4

open Memory Total

theorem IsLegalBlock.mono {cap cap' : Nat} {input result : List UInt8} (larger : cap ≤ cap')
    (h : IsLegalBlock cap input result) : IsLegalBlock cap' input result := by
  refine Decodes.mono ?_ h
  intro op p ok
  cases p with
  | last literals => exact Nat.le_trans ok larger
  | sequence s rest =>
      obtain ⟨reaches, start_room, end_room, long⟩ := ok
      exact ⟨reaches, start_room.trans larger, end_room.trans larger, long⟩

theorem decompressSafe_of_legal {block result dst : List UInt8} (room : dst.length ≠ 0)
    (legal : IsLegalBlock dst.length block result) :
    Returns (decompressSafe block dst) fun (r, dst') =>
      r = result.length ∧ dst'.take result.length = result ∧ dst'.length = dst.length := by
  refine (returns_decompressSafe block dst room).mono ?_
  intro (r, dst') ⟨length_eq, _, complete⟩
  obtain ⟨size, contents⟩ := complete result legal
  exact ⟨size, contents, length_eq⟩

/-- The decoder reads every legal block, in a buffer that may be larger than the one the block is
legal for. -/
theorem decompressSafe_complete {cap : Nat} {block result dst : List UInt8}
    (legal : IsLegalBlock cap block result) (room : cap ≤ dst.length) (some_room : 0 < dst.length) :
    ∃ dst', decompressSafe block dst = .ok ((result.length : Int), dst') ∧
      dst'.take result.length = result ∧ dst'.length = dst.length := by
  obtain ⟨⟨r, dst'⟩, run, rfl, contents, length_eq⟩ :=
    decompressSafe_of_legal (Nat.ne_of_gt some_room) (legal.mono room)
  exact ⟨dst', run, contents, length_eq⟩

/-- A literal, an overlapping match of 14 bytes and five literals. -/
theorem decompressSafe_overlap :
    ∃ dst', decompressSafe [0x1A, 7, 1, 0, 0x50, 7, 7, 7, 7, 7] (malloc 24) =
        .ok ((20 : Int), dst') ∧
      dst'.take 20 = List.replicate 20 7 ∧ dst'.length = 24 := by
  have legal : IsLegalBlock 20 [0x1A, 7, 1, 0, 0x50, 7, 7, 7, 7, 7] (List.replicate 20 7) := by
    have tail : Decodes (Parsed.Fits 20) (List.replicate 15 7) [0x50, 7, 7, 7, 7, 7]
        (List.replicate 15 7 ++ [7, 7, 7, 7, 7]) := .last rfl (show 15 + 5 ≤ 20 by decide)
    exact .sequence (show parse _ = some (.sequence ⟨[7], 1, 10⟩ [0x50, 7, 7, 7, 7, 7]) from rfl)
      ⟨by decide, by decide, by decide, by decide⟩ tail
  exact decompressSafe_complete legal (by decide) (by decide)

/-- The block of an empty source is a zero. -/
theorem returns_compressFast_nil (dst : List UInt8) (acceleration : Int) :
    Returns (compressFast [] dst acceleration) fun (r, dst') =>
      r = 0 ∨ r = 1 ∧ dst'.take 1 = [0] := by
  have call (limited : LimitedOutput) (olimit a : Nat) (room : limited = .limitedOutput →
      olimit = dst.length) (some_room : limited = .notLimited → 1 ≤ dst.length) :
      Returns (compressGeneric [] limited olimit .byU16 a dst) fun (r, dst') =>
        r = 0 ∨ r = 1 ∧ dst'.take 1 = [0] := by
    refine Returns.ite (fun large => absurd large (Nat.not_lt_zero _)) fun _ => ?_
    refine Returns.ite (fun _ => ?_) fun nonempty => absurd rfl nonempty
    refine Returns.ite (fun _ => Returns.ok (Or.inl rfl)) fun enough => ?_
    have space : 1 ≤ dst.length := by
      cases limited with
      | notLimited => exact some_room rfl
      | limitedOutput =>
          rw [← room rfl]
          exact Nat.not_le.mp fun none => enough ⟨rfl, none⟩
    refine Returns.bind ((Filled.nil dst).write rfl space) ?_
    intro dst' filled
    exact Returns.ok (Or.inr ⟨rfl, filled.take_eq⟩)
  unfold compressFast
  refine Returns.ite ?_ ?_
  · intro (enough : 16 ≤ dst.length)
    exact call _ _ _ nofun fun _ => by omega
  · intro _
    exact call _ _ _ (fun _ => rfl) nofun

/-- What `LZ4_compress_fast` writes, `LZ4_decompress_safe` turns into the source again; and
a buffer of `LZ4_compressBound` bytes always suffices. -/
theorem decompressSafe_compressFast (src dst dst' : List UInt8) (acceleration : Int)
    (room : src.length ≤ dst'.length) :
    ∃ r out, compressFast src dst acceleration = .ok (r, out) ∧
      (src.length ≤ LZ4_MAX_INPUT_SIZE → compressBound src.length ≤ dst.length → 0 < r) ∧
      (0 < r → ∃ back, decompressSafe (out.take r) dst' = .ok ((src.length : Int), back) ∧
        back.take src.length = src) := by
  obtain ⟨⟨r, out⟩, run, length_eq, legal, enough⟩ := returns_compressFast src dst acceleration
  refine ⟨r, out, run, enough, fun written => ?_⟩
  cases dst' with
  | nil =>
      obtain rfl := List.eq_nil_of_length_eq_zero (Nat.le_zero.mp room)
      rcases (returns_compressFast_nil dst acceleration).holds run with rfl | ⟨rfl, zero⟩
      · exact absurd written (Nat.lt_irrefl 0)
      · rw [zero]
        exact ⟨[], rfl, rfl⟩
  | cons b rest =>
      rcases legal with rfl | ⟨-, -, legal⟩
      · exact absurd written (Nat.lt_irrefl 0)
      · have some_room : (b :: rest).length ≠ 0 := Nat.succ_ne_zero _
        obtain ⟨⟨r', back⟩, run', rfl, contents, -⟩ :=
          decompressSafe_of_legal some_room (legal.mono room)
        exact ⟨back, run', contents⟩

/-- Twenty equal bytes, which become ten. -/
theorem decompressSafe_compressFast_run :
    ∃ r out, compressFast (List.replicate 20 7) (malloc 36) 1 = .ok (r, out) ∧ r = 10 ∧
      ((List.replicate 20 (7 : UInt8)).length ≤ LZ4_MAX_INPUT_SIZE →
        compressBound (List.replicate 20 (7 : UInt8)).length ≤ (malloc 36).length → 0 < r) ∧
      (0 < r → ∃ back, decompressSafe (out.take r) (malloc 20) = .ok ((20 : Int), back) ∧
        back.take 20 = List.replicate 20 7) := by
  obtain ⟨r, out, run, enough, back⟩ :=
    decompressSafe_compressFast (List.replicate 20 7) (malloc 36) (malloc 20) 1 (by decide)
  refine ⟨r, out, run, ?_, enough, back⟩
  exact ((returns_compressFast_replicate (malloc 36) 1 (by decide) (by decide) (by decide)).holds
    run).2.trans (by decide)

end MobilePIM.Lz4
