import MobilePIM.Lz4.Format
import MobilePIM.Memory

/-!
How the compressor finds matches: hashed positions in a table, candidates
compared four bytes at a time, and `LZ4_count`, which compares a word at a time
and finds the first byte that differs from the bits that do.
-/

namespace MobilePIM.Lz4

open Memory Total

def LZ4_MEMORY_USAGE : Nat := 14
def LZ4_HASHLOG : Nat := LZ4_MEMORY_USAGE - 2

/-- How positions are stored; `byPtr` is for 32-bit machines. -/
inductive TableType
  | byU32 | byU16
deriving DecidableEq, Repr

def TableType.hashLog : TableType → Nat
  | .byU32 => LZ4_HASHLOG
  | .byU16 => LZ4_HASHLOG + 1

/-- The width of an entry in bits. -/
def TableType.width : TableType → Nat
  | .byU32 => 32
  | .byU16 => 16

abbrev HashTable (t : TableType) := Fin (2 ^ t.hashLog) → Nat

def read32 : List UInt8 → Nat → Access (BitVec 32) := readWord 4

/-- `LZ4_read_ARCH` of a 64-bit machine. -/
def readArch : List UInt8 → Nat → Access (BitVec 64) := readWord 8

theorem TableType.hashLog_le (t : TableType) : t.hashLog ≤ 32 := by cases t <;> decide

def hash4 (sequence : BitVec 32) (t : TableType) : Fin (2 ^ t.hashLog) :=
  topBits (sequence * 2654435761#32) t.hashLog t.hashLog_le

def hash5 (sequence : BitVec 64) (t : TableType) : Fin (2 ^ t.hashLog) :=
  topBits ((sequence <<< 24) * 889523592379#64) t.hashLog (t.hashLog_le.trans (by decide))

def hashPosition (src : List UInt8) (p : Nat) (t : TableType) : Access (Fin (2 ^ t.hashLog)) :=
  match t with
  | .byU32 => do
      let sequence ← readArch src p
      pure (hash5 sequence .byU32)
  | .byU16 => do
      let sequence ← read32 src p
      pure (hash4 sequence .byU16)

/-- `LZ4_putIndexOnHash` and `LZ4_putPositionOnHash`, positions counted from the source. -/
def putIndexOnHash {t : TableType} (idx : Nat) (h : Fin (2 ^ t.hashLog)) (table : HashTable t) :
    HashTable t := fun k => if k = h then idx % 2 ^ t.width else table k

def putPosition {t : TableType} (src : List UInt8) (p : Nat) (table : HashTable t) :
    Access (HashTable t) := do
  let h ← hashPosition src p t
  pure (putIndexOnHash p h table)

/-- The number of low bytes in which two words agree, from the bits in which they differ. -/
def nbCommonBytes (diff : BitVec 64) : Nat := diff.ctz.toNat >>> 3

/-- The loop of `LZ4_count`: where the comparison stopped, and whether on a difference. -/
def countLoop (src : List UInt8) (pInLimit : Nat) (pIn pMatch : Nat) :
    Access (Nat × Nat × Bool) :=
  loop .outOfFuel
    (fun (pIn, pMatch) =>
      if pIn + 7 < pInLimit then do
        let a ← readArch src pMatch
        let b ← readArch src pIn
        let diff := a ^^^ b
        pure (if diff = 0 then .inl (pIn + 8, pMatch + 8)
          else .inr (pIn + nbCommonBytes diff, pMatch, true))
      else pure (.inr (pIn, pMatch, false)))
    (pInLimit + 1) (pIn, pMatch)

/-- A step of the end of `LZ4_count`: over `k` bytes, if the limit allows and they agree. -/
def countStep (k : Nat) (src : List UInt8) (pInLimit : Nat) : Nat × Nat → Access (Nat × Nat)
  | (pIn, pMatch) =>
      if pIn + (k - 1) < pInLimit then do
        let a ← readWord k src pMatch
        let b ← readWord k src pIn
        pure (if a = b then (pIn + k, pMatch + k) else (pIn, pMatch))
      else pure (pIn, pMatch)

/-- `LZ4_count`. The first comparison of the source is a turn of its loop. -/
def count (src : List UInt8) (pIn pMatch pInLimit : Nat) : Access Nat := do
  let (stop, pMatch, differs) ← countLoop src pInLimit pIn pMatch
  if differs then pure (stop - pIn)
  else do
    let p ← countStep 4 src pInLimit (stop, pMatch)
    let p ← countStep 2 src pInLimit p
    let p ← countStep 1 src pInLimit p
    pure (p.1 - pIn)

variable {src : List UInt8} {limit p q k : Nat}

/-- How many bytes from `p` on, short of `limit`, repeat those from `q` on. -/
def agreement (src : List UInt8) (limit p q : Nat) : Nat :=
  Words.agree (slice src p (limit - p)) (slice src q (limit - p))

theorem agreement_le (inside : limit ≤ src.length) (before : p ≤ limit) :
    agreement src limit p q ≤ limit - p :=
  (Words.agree_le_left _ _).trans_eq (length_slice (by omega))

theorem getElem?_of_lt_agreement (inside : limit ≤ src.length) (before : p ≤ limit)
    (h : k < agreement src limit p q) : src[q + k]? = src[p + k]? := by
  have short : k < limit - p := h.trans_le (agreement_le inside before)
  have same := Words.getElem?_of_lt_agree h
  rw [getElem?_slice short, getElem?_slice short] at same
  exact same.symm

/-- The comparison of the next `k` bytes decides, or leaves the rest to be compared. -/
theorem agreement_step (inside : limit ≤ src.length) (earlier : q ≤ p) (room : p + k ≤ limit) :
    agreement src limit p q =
      if slice src p k = slice src q k then k + agreement src limit (p + k) (q + k)
      else Words.agree (slice src p k) (slice src q k) := by
  have split : limit - p = k + (limit - (p + k)) := by omega
  have length_p : (slice src p k).length = k := length_slice (by omega)
  have length_q : (slice src q k).length = k := length_slice (by omega)
  rw [agreement, agreement, split, slice_add, slice_add,
    Words.agree_append (length_p.trans length_q.symm), length_p]

theorem le_agreement (inside : limit ≤ src.length) (earlier : q ≤ p) (room : p + k ≤ limit)
    (same : ∀ i < k, src[q + i]? = src[p + i]?) : k ≤ agreement src limit p q := by
  have equal : slice src p k = slice src q k := by
    apply List.ext_getElem?
    intro i
    by_cases hi : i < k
    · rw [getElem?_slice hi, getElem?_slice hi, same i hi]
    · rw [List.getElem?_eq_none (by rw [length_slice (by omega)]; omega),
        List.getElem?_eq_none (by rw [length_slice (by omega)]; omega)]
  rw [agreement_step inside earlier room, if_pos equal]
  exact Nat.le_add_right _ _

theorem nbCommonBytes_xor (hp : p + 8 ≤ src.length) (hq : q + 8 ≤ src.length)
    (differ : slice src p 8 ≠ slice src q 8) :
    Words.le 64 (slice src q 8) ^^^ Words.le 64 (slice src p 8) ≠ 0 ∧
      nbCommonBytes (Words.le 64 (slice src q 8) ^^^ Words.le 64 (slice src p 8)) =
        Words.agree (slice src p 8) (slice src q 8) := by
  rw [BitVec.xor_comm]
  have first := ctz_xor_slice hp hq differ
  exact ⟨first.1, (Nat.shiftRight_eq_div_pow _ 3).trans first.2⟩

theorem returns_countLoop (inside : limit ≤ src.length) (earlier : q ≤ p) (before : p ≤ limit) :
    Returns (countLoop src limit p q) fun (stop, q', differs) => ∃ j, stop = p + j ∧
      if differs then agreement src limit p q = j
      else q' = q + j ∧ stop ≤ limit ∧ limit ≤ stop + 7 ∧
        agreement src limit p q = j + agreement src limit stop q' := by
  refine Returns.loop
    (fun (p', q') => ∃ j, p' = p + j ∧ q' = q + j ∧ p' ≤ limit ∧
      agreement src limit p q = j + agreement src limit p' q')
    (fun (p', _) => limit - p') ?_ ⟨0, rfl, rfl, before, (Nat.zero_add _).symm⟩
    (by simp only; omega)
  rintro ⟨p', q'⟩ ⟨j, rfl, rfl, below, so_far⟩
  refine Returns.ite ?_ ?_
  · intro (more : p + j + 7 < limit)
    have step := agreement_step (k := 8) inside (show q + j ≤ p + j by omega) (by omega)
    refine Returns.bind (returns_eq (readWord_ok (by omega))) ?_
    rintro _ rfl
    refine Returns.bind (returns_eq (readWord_ok (by omega))) ?_
    rintro _ rfl
    by_cases same : slice src (p + j) 8 = slice src (q + j) 8
    · rw [if_pos same] at step
      rw [same, BitVec.xor_self]
      exact Returns.ok ⟨⟨j + 8, by omega, by omega, by omega, by omega⟩, by simp only; omega⟩
    · rw [if_neg same] at step
      obtain ⟨nonzero, common⟩ :=
        nbCommonBytes_xor (show p + j + 8 ≤ src.length by omega) (by omega) same
      dsimp only
      rw [if_neg nonzero]
      refine Returns.ok ⟨j + Words.agree (slice src (p + j) 8) (slice src (q + j) 8), ?_, ?_⟩
      · rw [common]
        omega
      · simp only [if_true]
        omega
  · intro (rest : ¬p + j + 7 < limit)
    exact Returns.ok ⟨j, rfl, rfl, below, by omega, so_far⟩

/-- With fewer than `2 * k` bytes that agree, a step leaves fewer than `k`. -/
theorem returns_countStep (positive : 0 < k) (inside : limit ≤ src.length) (earlier : q ≤ p)
    (before : p ≤ limit) (few : agreement src limit p q < 2 * k) :
    Returns (countStep k src limit (p, q)) fun (p', q') => ∃ j, p' = p + j ∧ q' = q + j ∧
      p' ≤ limit ∧ agreement src limit p q = j + agreement src limit p' q' ∧
      agreement src limit p' q' < k := by
  unfold countStep
  refine Returns.ite ?_ ?_
  · intro room
    have step := agreement_step (k := k) inside earlier (by omega)
    refine Returns.bind (returns_eq (readWord_ok (by omega))) ?_
    rintro _ rfl
    refine Returns.bind (returns_eq (readWord_ok (by omega))) ?_
    rintro _ rfl
    by_cases same : slice src p k = slice src q k
    · rw [if_pos same] at step
      rw [same, if_pos rfl]
      exact Returns.ok ⟨k, rfl, rfl, by omega, step, by omega⟩
    · rw [if_neg same] at step
      have shorter : Words.agree (slice src p k) (slice src q k) < k := by
        have length_p : (slice src p k).length = k := length_slice (by omega)
        have length_q : (slice src q k).length = k := length_slice (by omega)
        have whole := Words.agree_eq_length (length_p.trans length_q.symm)
        have bound := Words.agree_le_left (slice src p k) (slice src q k)
        rw [length_p] at whole bound
        exact lt_of_le_of_ne bound fun h => same (whole.mp h)
      have unequal := mt (readWord_eq_iff (k := k) (show q + k ≤ src.length by omega)
        (show p + k ≤ src.length by omega)).mp (Ne.symm same)
      rw [if_neg unequal]
      exact Returns.ok ⟨0, rfl, rfl, before, (Nat.zero_add _).symm, step ▸ shorter⟩
  · intro no_room
    have bound := agreement_le (q := q) inside before
    exact Returns.ok ⟨0, rfl, rfl, before, (Nat.zero_add _).symm, by omega⟩

/-- `LZ4_count` is the plain byte-by-byte count. -/
theorem returns_count (inside : limit ≤ src.length) (earlier : q ≤ p) (before : p ≤ limit) :
    Returns (count src p q limit) (· = agreement src limit p q) := by
  refine Returns.bind (returns_countLoop inside earlier before) ?_
  rintro ⟨stop, q', differs⟩ ⟨j, rfl, found⟩
  cases differs with
  | true => exact Returns.ok ((Nat.add_sub_cancel_left p j).trans found.symm)
  | false =>
      obtain ⟨rfl, below, short, total⟩ := found
      have bound := agreement_le (q := q + j) inside below
      refine Returns.bind (returns_countStep (k := 4) (by decide) inside
        (Nat.add_le_add_right earlier j) below (by omega)) ?_
      rintro ⟨p₁, q₁⟩ ⟨j₁, rfl, rfl, below₁, total₁, few₁⟩
      refine Returns.bind (returns_countStep (k := 2) (by decide) inside (by omega) below₁
        few₁) ?_
      rintro ⟨p₂, q₂⟩ ⟨j₂, rfl, rfl, below₂, total₂, few₂⟩
      refine Returns.bind (returns_countStep (k := 1) (by decide) inside (by omega) below₂
        few₂) ?_
      rintro ⟨p₃, q₃⟩ ⟨j₃, rfl, rfl, below₃, total₃, few₃⟩
      refine Returns.ok ?_
      simp only
      omega

/-- However the words and the bits are compared, `LZ4_count` is the length of the longest common
run of bytes in front of the limit. -/
theorem count_longest (inside : limit ≤ src.length) (earlier : q ≤ p) (before : p ≤ limit) :
    ∃ n, count src p q limit = .ok n ∧ p + n ≤ limit ∧
      (∀ k < n, src[q + k]? = src[p + k]?) ∧ (p + n < limit → src[q + n]? ≠ src[p + n]?) := by
  obtain ⟨n, run, rfl⟩ := returns_count inside earlier before
  have bound := agreement_le (q := q) inside before
  refine ⟨_, run, by omega, fun k => getElem?_of_lt_agreement inside before, fun more same => ?_⟩
  have longer := le_agreement (k := agreement src limit p q + 1) inside earlier (by omega) ?_
  · exact absurd longer (Nat.not_succ_le_self _)
  · intro k hk
    cases Nat.lt_or_eq_of_le (Nat.le_of_lt_succ hk) with
    | inl counted => exact getElem?_of_lt_agreement inside before counted
    | inr last => rw [last]; exact same

/-- Four zeros and a one, compared with themselves one byte on. -/
theorem count_longest_zeros :
    ∃ n, count [0, 0, 0, 0, 1] 1 0 5 = .ok n ∧ 1 + n ≤ 5 ∧
      (∀ k < n, [0, 0, 0, 0, (1 : UInt8)][0 + k]? = [0, 0, 0, 0, (1 : UInt8)][1 + k]?) ∧
      (1 + n < 5 → [0, 0, 0, 0, (1 : UInt8)][0 + n]? ≠ [0, 0, 0, 0, (1 : UInt8)][1 + n]?) := by
  apply count_longest
  · decide
  · decide
  · decide

end MobilePIM.Lz4
