import MobilePIM.Lz4.Compress

/-!
What the compressor has written when it has come to a position of the source: the
bytes of sequences that expand to what lies in front of it. Such bytes and the
last literals are a legal block of the source, never longer than the bound.
-/

namespace MobilePIM.Lz4

open Memory Total

variable {src out dst : List UInt8} {cap op anchor : Nat}

/-- Bytes of sequences that expand to the source up to `anchor`. -/
inductive Emits (src : List UInt8) : List UInt8 → Nat → Prop
  | start : Emits src [] 0
  | sequence {bytes anchor} (s : Sequence) (before : Emits src bytes anchor)
      (literals : s.literals = slice src anchor s.literals.length)
      (start_room : anchor + s.literals.length + MFLIMIT ≤ src.length)
      (end_room : anchor + s.literals.length + s.matchLength + LASTLITERALS ≤ src.length)
      (positive : 0 < s.offset.toNat) (reaches : s.offset.toNat ≤ anchor + s.literals.length)
      (found : ∀ k < s.matchLength, src[anchor + s.literals.length - s.offset.toNat + k]? =
        src[anchor + s.literals.length + k]?) :
      Emits src (bytes ++ s.bytes) (anchor + s.literals.length + s.matchLength)

theorem length_extension_le (n : Nat) : 255 * (extension n).length ≤ n + 240 := by
  rw [length_extension]
  split <;> omega

theorem Sequence.length_bytes (s : Sequence) : s.bytes.length =
    1 + (extension s.literals.length).length + s.literals.length + 2 +
      (extension s.matchCode).length := by
  simp only [Sequence.bytes, List.length_cons, List.length_append, length_offsetBytes]
  omega

theorem length_lastBytes (literals : List UInt8) : (lastBytes literals).length =
    1 + (extension literals.length).length + literals.length := by
  simp only [lastBytes, List.length_cons, List.length_append]
  omega

theorem Emits.room {bytes : List UInt8} (h : Emits src bytes anchor) : anchor ≤ src.length := by
  cases h with
  | start => exact Nat.zero_le _
  | sequence s _ _ _ end_room => exact (Nat.le_add_right _ _).trans end_room

/-- A sequence takes at most 256 bytes for 255 of the source. -/
theorem Emits.length_le {bytes : List UInt8} (h : Emits src bytes anchor) :
    255 * bytes.length ≤ 256 * anchor := by
  induction h with
  | start => exact Nat.zero_le _
  | sequence s before _ _ _ _ _ _ ih =>
      have first := length_extension_le s.literals.length
      have second := length_extension s.matchCode
      have longer : s.matchLength = s.matchCode + 4 := rfl
      rw [List.length_append, Sequence.length_bytes]
      split at second <;> omega

/-- A verified sequence extends one prefix of the source to the next. -/
theorem expand_take {s : Sequence} (literals : s.literals = slice src anchor s.literals.length)
    (end_room : anchor + s.literals.length + s.matchLength ≤ src.length)
    (positive : 0 < s.offset.toNat) (reaches : s.offset.toNat ≤ anchor + s.literals.length)
    (found : ∀ k < s.matchLength, src[anchor + s.literals.length - s.offset.toNat + k]? =
      src[anchor + s.literals.length + k]?) :
    s.expand (src.take anchor) = src.take (anchor + s.literals.length + s.matchLength) := by
  have front : src.take anchor ++ s.literals = src.take (anchor + s.literals.length) := by
    rw [List.take_add]
    exact congrArg _ literals
  rw [Sequence.expand, front]
  exact Backref.copy_eq_take positive reaches end_room found

/-- What has been written does not keep a legal rest from being one. -/
theorem Emits.legal {bytes : List UInt8} (h : Emits src bytes anchor) {rest result : List UInt8}
    (long : LASTLITERALS < rest.length)
    (tail : Decodes (Parsed.Fits src.length) (src.take anchor) rest result) :
    IsLegalBlock src.length (bytes ++ rest) result := by
  induction h generalizing rest with
  | start => exact tail
  | @sequence bytes anchor s before literals start_room end_room positive reaches found ih =>
      have position : (src.take anchor).length = anchor := List.length_take_of_le before.room
      rw [List.append_assoc]
      refine ih (by rw [List.length_append]; omega) (.sequence (parse_bytes s rest) ?_ ?_)
      · rw [position]
        exact ⟨reaches, start_room, end_room, long⟩
      · rw [expand_take literals (by simp only [LASTLITERALS] at end_room; omega) positive reaches
          found]
        exact tail

/-- With the last literals the block is complete. -/
theorem Emits.block {bytes : List UInt8} (h : Emits src bytes anchor)
    (last : anchor = 0 ∨ anchor + LASTLITERALS ≤ src.length) :
    IsLegalBlock src.length (bytes ++ lastBytes (src.drop anchor)) src := by
  have whole : src.take anchor ++ src.drop anchor = src := List.take_append_drop _ _
  have tail : Decodes (Parsed.Fits src.length) (src.take anchor) (lastBytes (src.drop anchor))
      (src.take anchor ++ src.drop anchor) := by
    refine .last (parse_lastBytes _) ?_
    change (src.take anchor).length + (src.drop anchor).length ≤ src.length
    rw [← List.length_append, whole]
  rw [whole] at tail
  cases h with
  | start => exact tail
  | sequence s before literals start_room end_room positive reaches found =>
      refine (Emits.sequence s before literals start_room end_room positive reaches found).legal
        ?_ tail
      rw [length_lastBytes, List.length_drop]
      simp only [LASTLITERALS] at end_room ⊢
      omega

/-- A part of a length has been written, and `len'` of it is left. -/
abbrev RunSoFar (cap : Nat) (out : List UInt8) (len : Nat) : List UInt8 × Nat × Nat → Prop :=
  fun (dst', op', len') => ∃ done, Filled cap (out ++ done) dst' ∧ op' = (out ++ done).length ∧
    done ++ runs len' = runs len

theorem returns_writeRun {len : Nat} (filled : Filled cap out dst) (at_end : op = out.length)
    (room : (out ++ runs len).length ≤ cap) :
    Returns (writeRun dst op len) fun (dst', op') =>
      Filled cap (out ++ runs len) dst' ∧ op' = (out ++ runs len).length := by
  refine Returns.loop (RunSoFar cap out len) (fun s => s.2.2) ?_
    ⟨[], by rwa [List.append_nil], by rwa [List.append_nil], rfl⟩ (Nat.lt_succ_self _)
  rintro ⟨dst', op', len'⟩ ⟨done, filled', rfl, so_far⟩
  rw [← so_far, ← List.append_assoc] at room ⊢
  refine Returns.ite ?_ ?_
  · intro (more : 255 ≤ len')
    rw [runs_of_le more] at room
    have fits : (out ++ done).length + [(255 : UInt8)].length ≤ cap := by
      simp only [List.length_append, List.length_cons, List.length_nil] at room ⊢
      omega
    refine Returns.bind (filled'.write rfl fits) ?_
    intro dst'' filled''
    rw [List.append_assoc] at filled''
    refine Returns.ok ⟨⟨done ++ [255], filled'', ?_, ?_⟩, by simp only; omega⟩
    · simp [Nat.add_assoc]
    · rw [List.append_assoc, ← so_far, runs_of_le more]
      rfl
  · intro (last : ¬255 ≤ len')
    rw [runs_of_lt (Nat.not_le.mp last)] at room ⊢
    refine Returns.bind (filled'.write rfl (by rwa [← List.length_append])) ?_
    intro dst'' filled''
    exact Returns.ok ⟨filled'', by simp [Nat.add_assoc]⟩

/-- The token of a run of literals and its continuation. -/
def literalHeader (length : Nat) : List UInt8 := token length 0 :: extension length

theorem literalHeader_of_le {n : Nat} (h : 15 ≤ n) : literalHeader n = 240 :: runs (n - 15) := by
  rw [literalHeader, extension, if_neg (by omega), token, Nat.min_eq_right h]
  rfl

theorem literalHeader_of_lt {n : Nat} (h : n < 15) : literalHeader n = [UInt8.ofNat (16 * n)] := by
  rw [literalHeader, extension, if_pos h, token, Nat.min_eq_left h.le]
  rfl

theorem length_literalHeader (n : Nat) :
    (literalHeader n).length = 1 + (extension n).length := by
  rw [literalHeader, List.length_cons, Nat.add_comm]

theorem returns_writeLiteralLength {n : Nat} (filled : Filled cap out dst)
    (at_end : op = out.length) (room : (out ++ literalHeader n).length ≤ cap) :
    Returns (writeLiteralLength dst op n) fun (dst', op') =>
      Filled cap (out ++ literalHeader n) dst' ∧ op' = (out ++ literalHeader n).length := by
  refine Returns.ite ?_ ?_
  · intro (long : 15 ≤ n)
    rw [literalHeader_of_le long] at room ⊢
    have split : out ++ 240 :: runs (n - 15) = (out ++ [240]) ++ runs (n - 15) := by simp
    rw [split] at room ⊢
    have fits : out.length + [(240 : UInt8)].length ≤ cap := by
      rw [List.length_append, List.length_append] at room
      omega
    refine Returns.bind (filled.write at_end fits) ?_
    intro dst' filled'
    exact returns_writeRun filled' (by rw [at_end, List.length_append]; rfl) room
  · intro (short : ¬15 ≤ n)
    rw [literalHeader_of_lt (Nat.not_le.mp short)] at room ⊢
    have same : n <<< ML_BITS = 16 * n := by
      rw [Nat.shiftLeft_eq, Nat.mul_comm]
      rfl
    rw [same]
    refine Returns.bind (filled.write at_end (by rwa [← List.length_append])) ?_
    intro dst' filled'
    exact Returns.ok ⟨filled', by rw [at_end, List.length_append]; rfl⟩

/-- Four bytes are written ahead of the position, which `j` turns have moved. -/
abbrev QuadsSoFar (cap : Nat) (out : List UInt8) (n op : Nat) : List UInt8 × Nat × Nat → Prop :=
  fun (dst', op', n') => ∃ j, n = n' + 4 * 255 * j ∧ op' = op + 4 * j ∧
    Filled cap (out ++ List.replicate (4 * (j + 1)) 255) dst'

/-- Three bytes of room behind the run cover what is written ahead of it. -/
theorem returns_writeMatchRun {n : Nat} (filled : Filled cap out dst) (at_end : op = out.length)
    (room : (out ++ runs n).length + 3 ≤ cap) :
    Returns (writeMatchRun dst op n) fun (dst', op') =>
      Filled cap (out ++ runs n) dst' ∧ op' = (out ++ runs n).length := by
  rw [List.length_append, length_runs] at room
  have ahead (j : Nat) : (out ++ List.replicate (4 * j) 255) ++ [(255 : UInt8), 255, 255, 255] =
      out ++ List.replicate (4 * (j + 1)) 255 := by
    rw [List.append_assoc, Nat.mul_succ, List.replicate_add]
    rfl
  have four : [(255 : UInt8), 255, 255, 255].length = 4 := rfl
  have start := filled.write at_end (by rw [four]; omega)
  refine Returns.bind start ?_
  intro dst₀ filled₀
  have run : Returns (loop .outOfFuel
      (fun (dst, op, matchCode) =>
        if 4 * 255 ≤ matchCode then do
          let op := op + 4
          let dst ← write dst op [255, 255, 255, 255]
          pure (.inl (dst, op, matchCode - 4 * 255))
        else pure (.inr (dst, op, matchCode)))
      (n + 1) (dst₀, op, n) : Access (List UInt8 × Nat × Nat)) fun s =>
        s.2.2 < 4 * 255 ∧ QuadsSoFar cap out n op s := by
    refine Returns.loop (QuadsSoFar cap out n op) (fun s => s.2.2) ?_ ⟨0, rfl, rfl, filled₀⟩ (Nat.lt_succ_self _)
    rintro ⟨dst', op', n'⟩ ⟨j, so_far, rfl, filled'⟩
    refine Returns.ite ?_ ?_
    · intro (more : 4 * 255 ≤ n')
      have step : Returns (write dst' (op + 4 * j + 4) [255, 255, 255, 255])
          (Filled cap (out ++ List.replicate (4 * (j + 1)) 255 ++ [255, 255, 255, 255])) :=
        filled'.write (by rw [List.length_append, List.length_replicate]; omega)
          (by rw [List.length_append, List.length_replicate, four]; omega)
      refine Returns.bind step ?_
      intro dst'' filled''
      rw [ahead] at filled''
      exact Returns.ok ⟨⟨j + 1, by omega, by omega, filled''⟩, by simp only; omega⟩
    · intro (last : ¬4 * 255 ≤ n')
      exact Returns.ok ⟨Nat.not_le.mp last, j, so_far, rfl, filled'⟩
  refine Returns.bind run ?_
  rintro ⟨dst', op', n'⟩ ⟨small, j, so_far, rfl, filled'⟩
  change n' < 4 * 255 at small
  have quotient : n / 255 = 4 * j + n' / 255 := by omega
  have remainder : n % 255 = n' % 255 := by omega
  have shorter : out ++ List.replicate (n / 255) 255 <+:
      out ++ List.replicate (4 * (j + 1)) (255 : UInt8) := by
    rw [List.prefix_append_right_inj, show 4 * (j + 1) = n / 255 + (4 - n' / 255) by omega,
      List.replicate_add]
    exact List.prefix_append _ _
  have last : Returns (write dst' (op + 4 * j + n' / 255) [UInt8.ofNat (n' % 255)])
      (Filled cap (out ++ runs n)) := by
    rw [runs, remainder, ← List.append_assoc]
    refine (filled'.shorter shorter).write ?_ ?_
    · rw [List.length_append, List.length_replicate]
      omega
    · rw [List.length_append, List.length_replicate]
      exact (by omega : out.length + n / 255 + 1 ≤ cap)
  refine Returns.bind last ?_
  intro dst'' filled''
  refine Returns.ok ⟨filled'', ?_⟩
  rw [List.length_append, length_runs]
  omega

/-- The match length goes into the half of the token the literals have left at zero. -/
theorem returns_addToToken {pre post : List UInt8} {literals n : Nat} (small : n ≤ 15)
    (filled : Filled cap (pre ++ [token literals 0] ++ post) dst) :
    Returns (addToToken dst pre.length n) (Filled cap (pre ++ [token literals n] ++ post)) := by
  have inside : pre.length < dst.length := by
    have bound := filled.le
    rw [← filled.length_eq] at bound
    simp only [List.length_append, List.length_cons, List.length_nil] at bound
    omega
  have here : dst[pre.length] = token literals 0 := by
    have same := filled.getElem? (i := pre.length) (by simp)
    rw [List.getElem?_eq_getElem inside, List.append_assoc, List.getElem?_append_right
      (Nat.le_refl _), Nat.sub_self] at same
    exact Option.some.inj same
  have sum : token literals 0 + UInt8.ofNat n = token literals n := by
    rw [token, token, ← UInt8.ofNat_add, Nat.min_eq_left small]
    rfl
  refine Returns.bind (returns_eq (byte_ok inside)) ?_
  rintro _ rfl
  rw [here, sum]
  exact filled.patch rfl rfl

end MobilePIM.Lz4
