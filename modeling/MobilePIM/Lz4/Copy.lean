import MobilePIM.Memory
import Mathlib.Tactic.IntervalCases

/-!
The copies of the LZ4 decoder. Each writes whole blocks and so past the end of
what is to be copied; within its room it leaves what a copy byte by byte leaves,
also where the match overlaps what it writes.
-/

namespace MobilePIM.Lz4

open Memory Total

def WILDCOPYLENGTH : Nat := 8

/-- `LZ4_wildCopy8`; `memcpy` tells which buffer the bytes come from. -/
def wildCopy8 (memcpy : List UInt8 → Nat → Nat → Nat → Access (List UInt8)) :
    List UInt8 → Nat → Nat → Nat → Access (List UInt8) :=
  wildCopy 8 fun dst d s => memcpy dst d s 8

/-- `LZ4_wildCopy32`: two times 16 bytes a turn. -/
def wildCopy32 (memcpy : List UInt8 → Nat → Nat → Nat → Access (List UInt8)) :
    List UInt8 → Nat → Nat → Nat → Access (List UInt8) :=
  wildCopy 32 fun dst d s => do
    let dst ← memcpy dst d s 16
    memcpy dst (d + 16) (s + 16) 16

def inc32table : List Nat := [0, 1, 2, 1, 0, 4, 4, 4]

def dec64table : List Int := [0, 0, 0, -1, -4, 1, 2, 3]

/-- The first eight bytes of a match, and where the next ones come from. A match
at a distance below 8 continues at a multiple of it that is at least 8. -/
def copyEight (dst : List UInt8) (op m offset : Nat) : Access (List UInt8 × Nat) :=
  if offset < 8 then do
    let dst ← write dst op [0, 0, 0, 0]
    let dst ← copyWithin dst op m 1
    let dst ← copyWithin dst (op + 1) (m + 1) 1
    let dst ← copyWithin dst (op + 2) (m + 2) 1
    let dst ← copyWithin dst (op + 3) (m + 3) 1
    let m := m + inc32table.getD offset 0
    let dst ← copyWithin dst (op + 4) m 4
    pure (dst, (m - dec64table.getD offset 0).toNat)
  else do
    let dst ← copyWithin dst op m 8
    pure (dst, m + 8)

/-- `LZ4_memcpy_using_offset_base`. -/
def memcpyUsingOffsetBase (dst : List UInt8) (d s e offset : Nat) : Access (List UInt8) := do
  let (dst, s) ← copyEight dst d s offset
  wildCopy8 copyWithin dst (d + 8) s e

/-- `LZ4_memcpy_using_offset`: a pattern of eight bytes for the distances that divide 8. -/
def memcpyUsingOffset (dst : List UInt8) (d s e offset : Nat) : Access (List UInt8) :=
  let repeatPattern (v : List UInt8) := wildCopy 8 (fun dst d _ => write dst d v) dst d s e
  match offset with
  | 1 => do
      let b ← byte dst s
      repeatPattern (List.replicate 8 b)
  | 2 => do
      let v ← load dst s 2
      repeatPattern ((v ++ v) ++ (v ++ v))
  | 4 => do
      let v ← load dst s 4
      repeatPattern (v ++ v)
  | _ => memcpyUsingOffsetBase dst d s e offset

variable {cap op m d e : Nat} {out dst src : List UInt8}

theorem returns_wildCopy8_from (filled : Filled cap out dst) (at_end : op = out.length)
    (read : m + 8 ≤ src.length) (read_end : m + (e - op) + 7 ≤ src.length)
    (room : op + 8 ≤ cap) (room_end : e + 7 ≤ cap) :
    Returns (wildCopy8 (copyFrom src) dst op m e)
      (Filled cap (out ++ slice src m (e - op))) := by
  refine returns_wildCopy (by decide) (fun n => out ++ slice src m n)
    (fun _ _ => prefix_slice out src m) ?_ (by simpa [slice] using filled)
  intro n dst' before _ filled'
  have length_eq : (out ++ slice src m n).length = op + n := by
    rw [List.length_append, length_slice (by omega), at_end]
  have step := filled'.copyFrom (i := op + n) length_eq.symm
    (show m + n + 8 ≤ src.length by omega) (by omega)
  rw [List.append_assoc] at step
  have joined : slice src m n ++ slice src (m + n) 8 = slice src m (n + 8) := by
    simp only [slice, List.take_add, List.drop_drop]
  rwa [joined] at step

/-- Blocks of the match length at most: a copy at that distance. -/
theorem returns_wildCopy8_within (filled : Filled cap out dst) (at_end : op = out.length)
    (place : m + d = out.length) (far : 8 ≤ d) (room : op + 8 ≤ cap) (room_end : e + 7 ≤ cap) :
    Returns (wildCopy8 copyWithin dst op m e) (Filled cap (Backref.copy out d (e - op))) := by
  refine returns_wildCopy (by decide) (Backref.copy out d) (fun _ _ => prefix_copy out d) ?_ filled
  intro n dst' before _ filled'
  have step := filled'.copyWithin (i := op + n) (s := m + n) (n := 8)
    (by rw [Backref.length_copy]; omega) (by rw [Backref.length_copy]; omega) far
    (by rw [Backref.length_copy]; omega)
  rwa [← Backref.copy_add] at step

theorem returns_wildCopy32_from (filled : Filled cap out dst) (at_end : op = out.length)
    (less : op < e) (read : m + (e - op) + 31 ≤ src.length) (room : e + 31 ≤ cap) :
    Returns (wildCopy32 (copyFrom src) dst op m e)
      (Filled cap (out ++ slice src m (e - op))) := by
  refine returns_wildCopy (by decide) (fun n => out ++ slice src m n)
    (fun _ _ => prefix_slice out src m) ?_ (by simpa [slice] using filled)
  intro n dst' before _ filled'
  have length_eq (k : Nat) (h : m + k ≤ src.length) : (out ++ slice src m k).length = op + k := by
    rw [List.length_append, length_slice h, at_end]
  have joined (k : Nat) : slice src m k ++ slice src (m + k) 16 = slice src m (k + 16) := by
    simp only [slice, List.take_add, List.drop_drop]
  have first := filled'.copyFrom (i := op + n) (length_eq n (by omega)).symm
    (show m + n + 16 ≤ src.length by omega) (by rw [length_eq n (by omega)]; omega)
  rw [List.append_assoc, joined] at first
  refine Returns.bind first ?_
  intro dst'' filled''
  have second := filled''.copyFrom (i := op + n + 16) (length_eq (n + 16) (by omega)).symm
    (show m + n + 16 + 16 ≤ src.length by omega) (by rw [length_eq (n + 16) (by omega)]; omega)
  rw [List.append_assoc, Nat.add_assoc m n 16, joined] at second
  exact second

theorem returns_wildCopy32_within (filled : Filled cap out dst) (at_end : op = out.length)
    (place : m + d = out.length) (far : 16 ≤ d) (less : op < e) (room : e + 31 ≤ cap) :
    Returns (wildCopy32 copyWithin dst op m e) (Filled cap (Backref.copy out d (e - op))) := by
  refine returns_wildCopy (by decide) (Backref.copy out d) (fun _ _ => prefix_copy out d) ?_ filled
  intro n dst' before _ filled'
  have first := filled'.copyWithin (i := op + n) (s := m + n) (n := 16)
    (by rw [Backref.length_copy]; omega) (by rw [Backref.length_copy]; omega) far
    (by rw [Backref.length_copy]; omega)
  rw [← Backref.copy_add] at first
  refine Returns.bind first ?_
  intro dst'' filled''
  have second := filled''.copyWithin (i := op + n + 16) (s := m + n + 16) (n := 16)
    (by rw [Backref.length_copy]; omega) (by rw [Backref.length_copy]; omega) far
    (by rw [Backref.length_copy]; omega)
  rwa [← Backref.copy_add] at second

/-- After the first `k` bytes of a copy at distance `offset`, one at distance `d` goes on alike. -/
def Continues (out : List UInt8) (offset k d : Nat) : Prop :=
  ∀ n, Backref.copy (Backref.copy out offset k) d n =
    Backref.copy (Backref.copy out offset k) offset n

theorem continues_of_dvd {offset k d : Nat} (positive : 0 < offset) (back : offset ≤ out.length)
    (multiple : offset ∣ d) (hd : 0 < d) (far : d ≤ k + offset) : Continues out offset k d := by
  obtain ⟨j, rfl⟩ := multiple
  intro n
  rw [Nat.mul_comm] at far hd ⊢
  exact Backref.copy_mul positive back (Nat.pos_of_mul_pos_right hd) far

/-- The tables turn every distance below 8 into a multiple of it: of 4 at least for the
second four bytes, of 8 at least from then on. -/
theorem tables_spec {offset : Nat} (small : offset < 8) :
    ∃ d₄ d₈ : Nat,
      d₄ + inc32table.getD offset 0 = offset + 4 ∧ 4 ≤ d₄ ∧
      (d₈ : Int) + inc32table.getD offset 0 - dec64table.getD offset 0 = offset + 8 ∧ 8 ≤ d₈ ∧
      (offset = 0 ∧ d₄ ≤ 4 ∧ d₈ ≤ 8 ∨
        0 < offset ∧ offset ∣ d₄ ∧ d₄ ≤ 4 + offset ∧ offset ∣ d₈ ∧ d₈ ≤ 8 + offset) := by
  interval_cases offset
  · exact ⟨4, 8, by decide⟩
  · exact ⟨4, 8, by decide⟩
  · exact ⟨4, 8, by decide⟩
  · exact ⟨6, 9, by decide⟩
  · exact ⟨8, 8, by decide⟩
  · exact ⟨5, 10, by decide⟩
  · exact ⟨6, 12, by decide⟩
  · exact ⟨7, 14, by decide⟩

theorem continues_table {offset k d : Nat} (back : offset ≤ out.length) (hd : 0 < d)
    (h : offset = 0 ∧ d ≤ k ∨ 0 < offset ∧ offset ∣ d ∧ d ≤ k + offset) :
    Continues out offset k d := by
  rcases h with ⟨rfl, near⟩ | ⟨positive, multiple, far⟩
  · exact fun n => Backref.copy_run near
  · exact continues_of_dvd positive back multiple hd far

theorem returns_copyByte {offset k : Nat} (filled : Filled cap (Backref.copy out offset k) dst)
    (positive : 0 < offset) (at_end : op = out.length) (place : m + offset = out.length)
    (room : op + k < cap) :
    Returns (copyWithin dst (op + k) (m + k) 1) (Filled cap (Backref.copy out offset (k + 1))) := by
  have step := filled.copyWithin (i := op + k) (s := m + k) (d := offset) (n := 1)
    (by rw [Backref.length_copy]; omega) (by rw [Backref.length_copy]; omega) positive
    (by rw [Backref.length_copy]; omega)
  rwa [← Backref.copy_add] at step

/-- The first four bytes: zeros at distance 0, where the match is what they overwrite. -/
theorem returns_copyFour {offset : Nat} (filled : Filled cap out dst) (at_end : op = out.length)
    (place : m + offset = out.length) (room : op + 4 ≤ cap)
    {rest : List UInt8 → Access (List UInt8 × Nat)} {post : List UInt8 × Nat → Prop}
    (goes_on : ∀ dst, Filled cap (Backref.copy out offset 4) dst → Returns (rest dst) post) :
    Returns (do
      let dst ← write dst op [0, 0, 0, 0]
      let dst ← copyWithin dst op m 1
      let dst ← copyWithin dst (op + 1) (m + 1) 1
      let dst ← copyWithin dst (op + 2) (m + 2) 1
      let dst ← copyWithin dst (op + 3) (m + 3) 1
      rest dst) post := by
  have zeros : Returns (write dst op [0, 0, 0, 0]) (Filled cap (out ++ [0, 0, 0, 0])) :=
    filled.write at_end (by rw [← at_end]; exact room)
  refine Returns.bind zeros ?_
  intro dst₀ filled₀
  rcases Nat.eq_zero_or_pos offset with rfl | positive
  · have here : m = op := by omega
    have inside : op + 4 ≤ dst₀.length := by rw [filled₀.length_eq]; exact room
    have still (k : Nat) (hk : k < 4) : copyWithin dst₀ (op + k) (m + k) 1 = .ok dst₀ := by
      rw [here]
      exact copyWithin_self (by omega)
    have run : out ++ [0, 0, 0, 0] = Backref.copy out 0 4 := by
      rw [Backref.copy_distance_zero]
      rfl
    refine Returns.bind (returns_eq (still 0 (by decide))) ?_
    rintro _ rfl
    refine Returns.bind (returns_eq (still 1 (by decide))) ?_
    rintro _ rfl
    refine Returns.bind (returns_eq (still 2 (by decide))) ?_
    rintro _ rfl
    refine Returns.bind (returns_eq (still 3 (by decide))) ?_
    rintro _ rfl
    exact goes_on _ (run ▸ filled₀)
  · have start : Filled cap (Backref.copy out offset 0) dst₀ :=
      filled₀.shorter (List.prefix_append _ _)
    refine Returns.bind (returns_copyByte start positive at_end place (by omega)) ?_
    intro dst₁ filled₁
    refine Returns.bind (returns_copyByte filled₁ positive at_end place (by omega)) ?_
    intro dst₂ filled₂
    refine Returns.bind (returns_copyByte filled₂ positive at_end place (by omega)) ?_
    intro dst₃ filled₃
    refine Returns.bind (returns_copyByte filled₃ positive at_end place (by omega)) ?_
    exact goes_on

theorem returns_copyEight {offset : Nat} (filled : Filled cap out dst) (at_end : op = out.length)
    (place : m + offset = out.length) (room : op + 8 ≤ cap) :
    Returns (copyEight dst op m offset) fun (dst', m') =>
      Filled cap (Backref.copy out offset 8) dst' ∧
        ∃ d, m' + d = out.length + 8 ∧ 8 ≤ d ∧ Continues out offset 8 d := by
  unfold copyEight
  by_cases small : offset < 8
  · rw [if_pos small]
    obtain ⟨d₄, d₈, sum₄, least₄, sum₈, least₈, period⟩ := tables_spec small
    have cont₄ : Continues out offset 4 d₄ :=
      continues_table (by omega) (by omega) (by omega)
    have cont₈ : Continues out offset 8 d₈ :=
      continues_table (by omega) (by omega) (by omega)
    refine returns_copyFour filled at_end place (by omega) ?_
    intro dst₄ filled₄
    have second := filled₄.copyWithin (i := op + 4) (s := m + inc32table.getD offset 0) (d := d₄)
      (n := 4) (by rw [Backref.length_copy]; omega) (by rw [Backref.length_copy]; omega) least₄
      (by rw [Backref.length_copy]; omega)
    refine Returns.bind second ?_
    intro dst₈ filled₈
    rw [cont₄, ← Backref.copy_add] at filled₈
    exact Returns.ok ⟨filled₈, d₈, by omega, least₈, cont₈⟩
  · rw [if_neg small]
    have block := filled.copyWithin (i := op) (s := m) (d := offset) (n := 8) at_end place
      (Nat.not_lt.mp small) (by omega)
    refine Returns.bind block ?_
    intro dst₈ filled₈
    exact Returns.ok ⟨filled₈, offset, by omega, Nat.not_lt.mp small, fun _ => rfl⟩

/-- The match is there once a continuation has reached its end. -/
theorem Continues.filled {offset d k n : Nat} (continues : Continues out offset 8 d)
    (filled : Filled cap (Backref.copy (Backref.copy out offset 8) d k) dst) (h : n ≤ 8 + k) :
    Filled cap (Backref.copy out offset n) dst := by
  rw [continues, ← Backref.copy_add] at filled
  exact filled.shorter (prefix_copy out offset h)

theorem returns_memcpyUsingOffsetBase {offset : Nat} (filled : Filled cap out dst)
    (at_end : op = out.length) (place : m + offset = out.length) (room : op + 16 ≤ cap)
    (room_end : e + 7 ≤ cap) :
    Returns (memcpyUsingOffsetBase dst op m e offset)
      (Filled cap (Backref.copy out offset (e - op))) := by
  refine Returns.bind (returns_copyEight filled at_end place (by omega)) ?_
  rintro ⟨dst₈, m'⟩ ⟨filled₈, d, place', least, continues⟩
  have length₈ := Backref.length_copy out offset 8
  have rest : Returns (wildCopy8 copyWithin dst₈ (op + 8) m' e) (Filled cap
      (Backref.copy (Backref.copy out offset 8) d (e - (op + 8)))) :=
    returns_wildCopy8_within filled₈ (by omega) (by omega) least (by omega) room_end
  exact rest.mono fun dst' filled' => continues.filled filled' (by omega)

/-- Eight bytes that repeat the last `offset` ones, stored over and over. -/
theorem returns_repeatPattern {offset k : Nat} {v : List UInt8} (filled : Filled cap out dst)
    (at_end : op = out.length) (back : offset ≤ out.length) (divides : k * offset = 8)
    (pattern : v = (List.replicate k (out.drop (out.length - offset))).flatten)
    (room : op + 8 ≤ cap) (room_end : e + 7 ≤ cap) :
    Returns (wildCopy 8 (fun dst d _ => write dst d v) dst op m e)
      (Filled cap (Backref.copy out offset (e - op))) := by
  refine returns_wildCopy (by decide) (Backref.copy out offset)
    (fun _ _ => prefix_copy out offset) ?_ filled
  intro n dst' before multiple filled'
  obtain ⟨j, rfl⟩ := multiple
  have eight : v.length = 8 := by
    have whole := congrArg List.length (Backref.copy_mul_distance back k)
    rw [Backref.length_copy, List.length_append, ← pattern, divides] at whole
    omega
  have turns (i : Nat) : 8 * i = (i * k) * offset := by rw [Nat.mul_assoc, divides, Nat.mul_comm]
  have next : Backref.copy out offset (8 * j) ++ v = Backref.copy out offset (8 * j + 8) := by
    rw [show 8 * j + 8 = 8 * (j + 1) by omega, turns j, turns (j + 1),
      Backref.copy_mul_distance back, Backref.copy_mul_distance back, Nat.succ_mul,
      List.replicate_add, List.flatten_append, ← pattern, List.append_assoc]
  rw [← next]
  exact filled'.write (by rw [Backref.length_copy]; omega)
    (by rw [Backref.length_copy, eight]; omega)

theorem returns_memcpyUsingOffset {offset : Nat} (filled : Filled cap out dst)
    (at_end : op = out.length) (place : m + offset = out.length) (room : op + 16 ≤ cap)
    (room_end : e + 7 ≤ cap) :
    Returns (memcpyUsingOffset dst op m e offset)
      (Filled cap (Backref.copy out offset (e - op))) := by
  have back : offset ≤ out.length := by omega
  have inside : m + offset ≤ dst.length := place.trans_le filled.starts.length_le
  -- what is read in front of `op` is the pattern
  have last : slice dst m offset = out.drop (out.length - offset) := by
    rw [filled.slice_eq (by omega), slice, show m = out.length - offset by omega]
    exact List.take_of_length_le (by rw [List.length_drop]; omega)
  unfold memcpyUsingOffset
  split
  · refine Returns.bind (returns_eq (byte_ok (by omega))) ?_
    rintro _ rfl
    refine returns_repeatPattern (k := 8) filled at_end back (by decide) ?_ (by omega) room_end
    rw [← last, slice_one (by omega)]
    rfl
  · refine Returns.bind (returns_eq (load_ok inside)) ?_
    rintro _ rfl
    refine returns_repeatPattern (k := 4) filled at_end back (by decide) ?_ (by omega) room_end
    rw [last]
    simp [List.replicate]
  · refine Returns.bind (returns_eq (load_ok inside)) ?_
    rintro _ rfl
    refine returns_repeatPattern (k := 2) filled at_end back (by decide) ?_ (by omega) room_end
    rw [last]
    simp [List.replicate]
  · exact returns_memcpyUsingOffsetBase filled at_end place room room_end

/-- The copy by patterns and words leaves the bytes that the loop byte by byte leaves. -/
theorem memcpyUsingOffset_eq_byteCopy {offset : Nat} (place : m + offset = op)
    (positive : 0 < offset) (room : op + 16 ≤ dst.length) (room_end : e + 7 ≤ dst.length) :
    ∃ fast plain, memcpyUsingOffset dst op m e offset = .ok fast ∧ byteCopy dst op m e = .ok plain ∧
      fast.length = dst.length ∧ plain.length = dst.length ∧ fast.take e = plain.take e := by
  have at_end : op = (dst.take op).length := by
    rw [List.length_take, Nat.min_eq_left (by omega)]
  have filled : Filled dst.length (dst.take op) dst := ⟨rfl, List.take_prefix op dst⟩
  obtain ⟨fast, run, by_words⟩ := returns_memcpyUsingOffset (e := e) filled at_end
    (place.trans at_end) room room_end
  obtain ⟨plain, run', by_bytes⟩ := returns_byteCopy (e := e) filled at_end
    (place.trans at_end) positive (by omega)
  refine ⟨fast, plain, run, run', by_words.length_eq, by_bytes.length_eq, ?_⟩
  have long : e ≤ (Backref.copy (dst.take op) offset (e - op)).length := by
    rw [Backref.length_copy, ← at_end]
    omega
  obtain ⟨rest, same⟩ := by_words.starts
  obtain ⟨rest', same'⟩ := by_bytes.starts
  rw [← same, ← same', List.take_append_of_le_length long, List.take_append_of_le_length long]

/-- A pattern of two bytes. -/
theorem memcpyUsingOffset_two :
    ∃ fast plain, memcpyUsingOffset ([1, 2] ++ List.replicate 30 0) 2 0 20 2 = .ok fast ∧
      byteCopy ([1, 2] ++ List.replicate 30 0) 2 0 20 = .ok plain ∧
      fast.length = 32 ∧ plain.length = 32 ∧ fast.take 20 = plain.take 20 :=
  memcpyUsingOffset_eq_byteCopy rfl (by decide) (by decide) (by decide)

end MobilePIM.Lz4
