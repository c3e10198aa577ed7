import MobilePIM.Lz4.Decompress

/-!
What the decoder does with its input, whatever it is: no access leaves a buffer,
and a turn of either loop reads the first sequence, or the last literals, as the
format has them. It gives up only where the block breaks a restriction.
-/

namespace MobilePIM.Lz4

open Memory Total

variable {src out dst : List UInt8} {oend ip op : Nat}

/-- What the bytes of a length have added up to, and the ones still to read. -/
abbrev LengthSoFar (src : List UInt8) (ip : Nat) : Nat × Nat → Prop := fun (ip', length) =>
  ip ≤ ip' ∧ ip' < src.length ∧ readRuns (src.drop ip) =
    (readRuns (src.drop ip')).map fun (n, rest) => (length + n, rest)

/-- A length is read as the format has it. An error means that less than what the limit
keeps in reserve would be left of the input. -/
theorem returns_readVariableLength {ilimit : Int} (below : ilimit < src.length) {check : Bool}
    (start : check = true ∨ ip < src.length) :
    Returns (readVariableLength src ip ilimit check) fun (addl, ip') =>
      match addl with
      | some n => readRuns (src.drop ip) = some (n, src.drop ip') ∧ ip < ip' ∧ ip' ≤ ilimit
      | none => ∀ n rest, readRuns (src.drop ip) = some (n, rest) →
          (rest.length : Int) < src.length - ilimit := by
  unfold readVariableLength
  by_cases stop : check = true ∧ ilimit ≤ ip
  · rw [if_pos stop]
    refine Returns.ok ?_
    intro n rest run
    have shorter := Runs.length_lt_of_read run
    rw [List.length_drop] at shorter
    omega
  · rw [if_neg stop]
    have inside : ip < src.length := by
      rcases start with checked | inside
      · have : (ip : Int) < ilimit := not_le.mp fun limit => stop ⟨checked, limit⟩
        omega
      · exact inside
    refine Returns.loop (LengthSoFar src ip) (fun s => src.length - s.1) ?_
      ⟨Nat.le_refl _, inside, ?_⟩ (by simp only; omega)
    · rintro ⟨ip', length⟩ ⟨after, inside', same⟩
      refine Returns.bind (returns_eq (byte_ok inside')) ?_
      rintro _ rfl
      dsimp only
      rw [readRuns, Runs.map_read_drop inside'] at same
      by_cases limit : ilimit < ((ip' + 1 : Nat) : Int)
      · rw [if_pos limit]
        refine Returns.ok ?_
        intro n rest run
        have bound : rest.length ≤ (src.drop (ip' + 1)).length := by
          rw [readRuns, same] at run
          split at run
          · obtain ⟨⟨j, rest'⟩, deeper, he⟩ := Option.map_eq_some_iff.mp run
            cases he
            exact (Runs.length_lt_of_read deeper).le
          · cases run
            exact Nat.le_refl _
        rw [List.length_drop] at bound
        omega
      · rw [if_neg limit]
        by_cases run : src[ip'] = 255
        · rw [if_pos run] at same ⊢
          rw [run]
          exact Returns.ok ⟨⟨by omega, by omega, same⟩, by simp only; omega⟩
        · rw [if_neg run] at same ⊢
          exact Returns.ok ⟨same, by omega, not_lt.mp limit⟩
    · exact (Runs.map_zero_add _).symm

theorem readLength_length {half n : Nat} {input rest : List UInt8}
    (h : readLength half input = some (n, rest)) : rest.length ≤ input.length := by
  unfold readLength at h
  split at h
  · obtain ⟨⟨k, rest'⟩, inner, he⟩ := Option.map_eq_some_iff.mp h
    cases he
    exact (Runs.length_lt_of_read inner).le
  · cases h
    exact Nat.le_refl _

theorem parseLiterals_drop {half length : Nat} (h : ip + length ≤ src.length) :
    parseLiterals half length (src.drop ip) =
      parseMatch half (slice src ip length) (src.drop (ip + length)) := by
  rw [parseLiterals, if_neg (by rw [List.length_drop]; omega), List.drop_drop]
  rfl

theorem returns_readLE16 (h : ip + 2 ≤ src.length) :
    Returns (readLE16 src ip) fun bytes => ∃ offset : UInt16, bytes = offset.toNat ∧
      ∀ half literals, parseMatch half literals (src.drop ip) =
        (readLength half (src.drop (ip + 2))).map fun (matchCode, rest) =>
          .sequence ⟨literals, offset, matchCode⟩ rest := by
  refine Returns.bind (returns_eq (load_ok h)) ?_
  rintro _ rfl
  have here : src.drop ip = src[ip] :: src[ip + 1] :: src.drop (ip + 2) := by
    rw [List.drop_eq_getElem_cons (by omega), List.drop_eq_getElem_cons (by omega)]
  have value : Words.leNat (slice src ip 2) = src[ip].toNat + 256 * src[ip + 1].toNat := by
    rw [slice, here]
    simp [List.take, Words.leNat]
  have small : src[ip].toNat + 256 * src[ip + 1].toNat < 2 ^ 16 := by
    have := src[ip].toNat_lt
    have := src[ip + 1].toNat_lt
    omega
  refine Returns.ok ⟨UInt16.ofNat (Words.leNat (slice src ip 2)), ?_, ?_⟩
  · rw [value, UInt16.toNat_ofNat_of_lt' small]
  · intro half literals
    rw [here, value]
    rfl

theorem and_mask (tok : UInt8) : tok.toNat &&& ML_MASK = tok.toNat % 16 :=
  Nat.and_two_pow_sub_one_eq_mod tok.toNat 4

theorem shift_bits (tok : UInt8) : tok.toNat >>> ML_BITS = tok.toNat / 16 :=
  Nat.shiftRight_eq_div_pow tok.toNat 4

theorem returns_copyEighteen {m d : Nat} (filled : Filled oend out dst) (at_end : op = out.length)
    (place : m + d = out.length) (far : 8 ≤ d) (room : op + 18 ≤ oend) :
    Returns (copyEighteen dst op m) (Filled oend (Backref.copy out d 18)) := by
  refine Returns.bind (filled.copyWithin (n := 8) at_end place far (by omega)) ?_
  intro dst₁ filled₁
  refine Returns.bind (filled₁.copyWithin (i := op + 8) (s := m + 8) (d := d) (n := 8)
    (by rw [Backref.length_copy]; omega) (by rw [Backref.length_copy]; omega) far
    (by rw [Backref.length_copy]; omega)) ?_
  intro dst₂ filled₂
  rw [← Backref.copy_add] at filled₂
  have last := filled₂.copyWithin (i := op + 16) (s := m + 16) (d := d) (n := 2)
    (by rw [Backref.length_copy]; omega) (by rw [Backref.length_copy]; omega) (by omega)
    (by rw [Backref.length_copy]; omega)
  rwa [← Backref.copy_add] at last

/-- A turn that read a sequence: the buffer starts with its expansion. -/
def Advances (src : List UInt8) (oend start : Nat) (out : List UInt8) (parsed : Option Parsed)
    (c : Cursor) : Prop :=
  ∃ s : Sequence, parsed = some (.sequence s (src.drop c.ip)) ∧
    s.offset.toNat ≤ out.length + s.literals.length ∧
    Filled oend (s.expand out) c.dst ∧ c.op = (s.expand out).length ∧
    start < c.ip ∧ c.ip < src.length

/-- What a turn comes to that started at `start` behind the output `out`. -/
def Explains (src : List UInt8) (oend start : Nat) (out : List UInt8) (parsed : Option Parsed) :
    Outcome → Prop
  | .fastLoop c =>
      Advances src oend start out parsed c ∧ c.op + FASTLOOP_SAFE_DISTANCE ≤ oend
  | .safeLoop c => Advances src oend start out parsed c
  | .decoded c => ∃ literals, parsed = some (.last literals) ∧
      Filled oend (out ++ literals) c.dst ∧ c.op = (out ++ literals).length
  | .outputError _ dst => dst.length = oend ∧
      ∀ p, parsed = some p → ¬p.Fits oend out.length

section Turn

variable {start : Nat} {parsed : Option Parsed} {s : Sequence}

/-- An error where the parsed sequence breaks a restriction. -/
theorem explains_error {rest : List UInt8} (found : parsed = some (.sequence s rest))
    (length_eq : dst.length = oend) (breaks : ¬(Parsed.sequence s rest).Fits oend out.length) :
    Explains src oend start out parsed (.outputError ip dst) := by
  refine ⟨length_eq, ?_⟩
  intro p hp
  rw [found] at hp
  cases hp
  exact breaks

theorem returns_safeMatchCopy (found : parsed = some (.sequence s (src.drop ip)))
    (filled : Filled oend (out ++ s.literals) dst) (at_end : op = (out ++ s.literals).length)
    (after : start < ip) (inside : ip < src.length) (room : op + 8 ≤ oend) :
    Returns (safeMatchCopy oend s.offset.toNat s.matchLength ⟨ip, op, dst⟩)
      (Explains src oend start out parsed) := by
  have least : 4 ≤ s.matchLength := Nat.le_add_left 4 _
  have op_eq : op = out.length + s.literals.length := at_end.trans List.length_append
  have end_eq : op + s.matchLength = (s.expand out).length := by
    rw [Sequence.length_expand, op_eq]
  unfold safeMatchCopy
  dsimp only
  refine Returns.ite ?_ ?_
  · intro (below : op < s.offset.toNat)
    refine Returns.ok (explains_error found filled.length_eq ?_)
    intro fits
    have := fits.1
    omega
  intro (reaches : ¬op < s.offset.toNat)
  have back : op - s.offset.toNat + s.offset.toNat = (out ++ s.literals).length := by omega
  refine Returns.bind (returns_copyEight filled at_end back room) ?_
  rintro ⟨dst₈, m⟩ ⟨filled₈, d, place, far, continues⟩
  have length₈ := Backref.length_copy (out ++ s.literals) s.offset.toNat 8
  -- every way on leaves the whole match behind the literals
  have done {dst' : List UInt8} {k : Nat}
      (filled' : Filled oend (Backref.copy
        (Backref.copy (out ++ s.literals) s.offset.toNat 8) d k) dst')
      (h : s.matchLength ≤ 8 + k) :
      Explains src oend start out parsed (.safeLoop ⟨ip, op + s.matchLength, dst'⟩) :=
    ⟨s, found, by omega, continues.filled filled' h, end_eq, after, inside⟩
  refine Returns.ite ?_ ?_
  · intro (near : oend < op + s.matchLength + 12)
    refine Returns.ite ?_ ?_
    · intro (exceeds : oend < op + s.matchLength + 5)
      refine Returns.ok (explains_error found filled₈.length_eq ?_)
      intro fits
      have : out.length + s.literals.length + s.matchLength + 5 ≤ oend := fits.2.2.1
      omega
    intro (fits : ¬oend < op + s.matchLength + 5)
    refine Returns.ite ?_ ?_
    · intro (wild : op + 8 < oend - 7)
      refine Returns.bind (returns_wildCopy8_within (e := oend - 7) filled₈
        (by omega) (by omega) far (by omega) (by omega)) ?_
      intro dst₁ filled₁
      have at_limit : oend - 7 = (Backref.copy (Backref.copy (out ++ s.literals)
          s.offset.toNat 8) d (oend - 7 - (op + 8))).length := by
        rw [Backref.length_copy]
        omega
      refine Returns.bind (returns_byteCopy (d := d) (s := m + (oend - 7 - (op + 8)))
        (e := op + s.matchLength) filled₁ at_limit (by omega) (by omega) (by omega)) ?_
      intro dst₂ filled₂
      rw [← Backref.copy_add] at filled₂
      exact Returns.ok (done (k := oend - 7 - (op + 8) + (op + s.matchLength - (oend - 7)))
        filled₂ (by omega))
    · intro (short : ¬op + 8 < oend - 7)
      refine Returns.bind (returns_byteCopy (d := d) filled₈ (by omega) (by omega) (by omega)
        (by omega)) ?_
      intro dst₁ filled₁
      exact Returns.ok (done filled₁ (by omega))
  · intro (clear : ¬oend < op + s.matchLength + 12)
    refine Returns.bind (filled₈.copyWithin (i := op + 8) (d := d) (n := 8) (by omega)
      (by omega) far (by omega)) ?_
    intro dst₁ filled₁
    have length₁ := Backref.length_copy (Backref.copy (out ++ s.literals) s.offset.toNat 8) d 8
    refine Returns.ite ?_ ?_
    · intro (long : s.matchLength > 16)
      refine Returns.bind (returns_wildCopy8_within (d := d) filled₁ (by omega) (by omega) far
        (by omega) (by omega)) ?_
      intro dst₂ filled₂
      rw [← Backref.copy_add] at filled₂
      exact Returns.ok (done filled₂ (by omega))
    · intro (short : ¬s.matchLength > 16)
      exact Returns.ok (done filled₁ (by omega))

theorem returns_copyMatch {half : Nat} {offset : UInt16} {literals : List UInt8}
    (found : parsed = (readLength half (src.drop ip)).map fun (matchCode, rest) =>
      .sequence ⟨literals, offset, matchCode⟩ rest)
    (filled : Filled oend (out ++ literals) dst) (at_end : op = (out ++ literals).length)
    (after : start < ip) (inside : ip < src.length) (room : op + 8 ≤ oend) :
    Returns (copyMatch src oend offset.toNat half ⟨ip, op, dst⟩)
      (Explains src oend start out parsed) := by
  unfold copyMatch
  dsimp only
  refine Returns.ite ?_ ?_
  · rintro (rfl : half = 15)
    refine Returns.bind (returns_readVariableLength (by simp only [LASTLITERALS]; omega)
      (Or.inr inside)) ?_
    rintro ⟨addl, ip'⟩ read
    cases addl with
    | none =>
        refine Returns.ok ⟨filled.length_eq, ?_⟩
        intro p hp fits
        rw [found] at hp
        obtain ⟨⟨matchCode, rest⟩, run, rfl⟩ := Option.map_eq_some_iff.mp hp
        obtain ⟨⟨n, rest'⟩, run', he⟩ := Option.map_eq_some_iff.mp run
        cases he
        have short := read n rest run'
        have reserve : 5 < rest.length := fits.2.2.2
        simp only [LASTLITERALS] at short
        omega
    | some n =>
        obtain ⟨run, more, limit⟩ := read
        have whole : parsed = some (.sequence ⟨literals, offset, 15 + n⟩ (src.drop ip')) := by
          rw [found, readLength, if_pos rfl, run]
          rfl
        simp only [LASTLITERALS] at limit
        exact returns_safeMatchCopy (s := ⟨literals, offset, 15 + n⟩) whole filled at_end
          (by omega) (by omega) room
  · intro (token_only : ¬half = 15)
    have whole : parsed = some (.sequence ⟨literals, offset, half⟩ (src.drop ip)) := by
      rw [found, readLength, if_neg token_only]
      rfl
    exact returns_safeMatchCopy (s := ⟨literals, offset, half⟩) whole filled at_end after inside
      room

theorem returns_safeLiteralCopy {tok : UInt8} {length : Nat}
    (found : parsed = parseLiterals (tok.toNat % 16) length (src.drop ip))
    (filled : Filled oend out dst) (at_end : op = out.length) (after : start < ip)
    (limit : ip ≤ src.length) :
    Returns (safeLiteralCopy src oend tok length ⟨ip, op, dst⟩)
      (Explains src oend start out parsed) := by
  unfold safeLiteralCopy
  dsimp only
  refine Returns.ite ?_ ?_
  · intro (near : oend < op + length + 12 ∨ src.length < ip + length + 8)
    refine Returns.ite ?_ ?_
    · intro (more : ip + length ≠ src.length ∨ oend < op + length)
      refine Returns.ok ⟨filled.length_eq, ?_⟩
      intro p hp fits
      rw [found] at hp
      by_cases inside : ip + length ≤ src.length
      · rw [parseLiterals_drop inside] at hp
        have length_eq := length_slice inside
        have left := List.length_drop (i := ip + length) (l := src)
        generalize src.drop (ip + length) = rest at hp left
        match rest with
        | [] =>
            cases hp
            have : out.length + (slice src ip length).length ≤ oend := fits
            simp only [List.length_nil] at left
            omega
        | [_] => cases hp
        | low :: high :: rest =>
            obtain ⟨⟨matchCode, rest'⟩, run, rfl⟩ := Option.map_eq_some_iff.mp hp
            have shorter := readLength_length run
            have : out.length + (slice src ip length).length + 12 ≤ oend := fits.2.1
            have : 5 < rest'.length := fits.2.2.2
            simp only [List.length_cons] at left
            omega
      · rw [parseLiterals, List.length_drop, if_pos (by omega)] at hp
        cases hp
    · intro (exact : ¬(ip + length ≠ src.length ∨ oend < op + length))
      have whole : ip + length = src.length := by omega
      refine Returns.bind (filled.copyFrom at_end whole.le (by omega)) ?_
      intro dst' filled'
      refine Returns.ok ⟨slice src ip length, ?_, filled', ?_⟩
      · rw [found, parseLiterals_drop whole.le, whole, List.drop_length]
        rfl
      · rw [List.length_append, length_slice whole.le, at_end]
  · intro (clear : ¬(oend < op + length + 12 ∨ src.length < ip + length + 8))
    refine Returns.bind (returns_wildCopy8_from (m := ip) (e := op + length) filled at_end
      (by omega) (by omega) (by omega) (by omega)) ?_
    intro dst' filled'
    rw [Nat.add_sub_cancel_left] at filled'
    have at_end' : op + length = (out ++ slice src ip length).length := by
      rw [List.length_append, length_slice (by omega), at_end]
    refine Returns.bind (returns_readLE16 (by omega)) ?_
    rintro _ ⟨offset, rfl, behind⟩
    rw [and_mask]
    refine returns_copyMatch ?_ filled' at_end' (by omega) (by omega) (by omega)
    rw [found, parseLiterals_drop (by omega), behind]

theorem parse_drop (h : start < src.length) :
    parse (src.drop start) = (readLength (src[start].toNat / 16) (src.drop (start + 1))).bind
      fun (length, input) => parseLiterals (src[start].toNat % 16) length input := by
  rw [List.drop_eq_getElem_cons h]
  rfl

theorem parse_drop_short (h : start < src.length) (short : ¬src[start].toNat / 16 = 15) :
    parse (src.drop start) =
      parseLiterals (src[start].toNat % 16) (src[start].toNat / 16) (src.drop (start + 1)) := by
  rw [parse_drop h, readLength, if_neg short]
  rfl

theorem parse_drop_long (h : start < src.length) (long : src[start].toNat / 16 = 15) :
    parse (src.drop start) = (readRuns (src.drop (start + 1))).bind fun (n, input) =>
      parseLiterals (src[start].toNat % 16) (15 + n) input := by
  rw [parse_drop h, readLength, if_pos long]
  cases readRuns (src.drop (start + 1)) <;> rfl

/-- A literal length that leaves no room for that many literals. -/
theorem parse_drop_error {p : Parsed} (h : start < src.length)
    (long : src[start].toNat / 16 = 15)
    (short : ∀ n rest, readRuns (src.drop (start + 1)) = some (n, rest) → rest.length < 15)
    (hp : parse (src.drop start) = some p) : False := by
  rw [parse_drop_long h long] at hp
  obtain ⟨⟨n, rest⟩, run, literals⟩ := Option.bind_eq_some_iff.mp hp
  have few := short n rest run
  change parseLiterals _ (15 + n) rest = some p at literals
  rw [parseLiterals, if_pos (by omega)] at literals
  cases literals

theorem returns_safeTurn (h : start < src.length) (filled : Filled oend out dst) :
    Returns (safeTurn src oend ⟨start, out.length, dst⟩)
      (Explains src oend start out (parse (src.drop start))) := by
  refine Returns.bind (returns_eq (byte_ok h)) ?_
  rintro _ rfl
  have small : src[start].toNat / 16 ≤ 15 := by have := src[start].toNat_lt; omega
  dsimp only
  rw [shift_bits]
  refine Returns.ite ?_ ?_
  · rintro ⟨short : ¬src[start].toNat / 16 = 15, input : start + 1 + 16 < src.length,
      output : out.length + 32 ≤ oend⟩
    have length_eq : (slice src (start + 1) (src[start].toNat / 16)).length =
        src[start].toNat / 16 := length_slice (by omega)
    refine Returns.bind (filled.copyFrom (n := 16) rfl (by omega) (by omega)) ?_
    intro dst₁ filled₁
    have filled₂ := filled₁.shorter (prefix_slice out src (start + 1) (show
      src[start].toNat / 16 ≤ 16 by omega))
    refine Returns.bind (returns_readLE16 (by omega)) ?_
    rintro _ ⟨offset, rfl, behind⟩
    have found := (parse_drop_short h short).trans
      ((parseLiterals_drop (by omega)).trans (behind _ _))
    have at_end : out.length + src[start].toNat / 16 =
        (out ++ slice src (start + 1) (src[start].toNat / 16)).length := by
      rw [List.length_append, length_eq]
    rw [and_mask]
    refine Returns.ite ?_ ?_
    · rintro ⟨token_only : ¬src[start].toNat % 16 = 15, far : 8 ≤ offset.toNat, reaches⟩
      refine Returns.bind (returns_copyEighteen (d := offset.toNat) filled₂ at_end
        (by omega) far (by omega)) ?_
      intro dst₃ filled₃
      refine Returns.ok ⟨⟨slice src (start + 1) (src[start].toNat / 16), offset,
        src[start].toNat % 16⟩, ?_, ?_, ?_, ?_, by simp only; omega, by simp only; omega⟩
      · rw [found, readLength, if_neg token_only]
        rfl
      · rw [length_eq]
        exact reaches
      · exact filled₃.shorter (prefix_copy _ _ (show src[start].toNat % 16 + 4 ≤ 18 by omega))
      · rw [Sequence.length_expand, length_eq]
        rfl
    · intro _
      exact returns_copyMatch found filled₂ at_end (by omega) (by omega) (by omega)
  · intro _
    refine Returns.ite ?_ ?_
    · intro (long : src[start].toNat / 16 = 15)
      refine Returns.bind (returns_readVariableLength (by simp only [RUN_MASK]; omega)
        (Or.inl rfl)) ?_
      rintro ⟨addl, ip'⟩ read
      cases addl with
      | none =>
          refine Returns.ok ⟨filled.length_eq, ?_⟩
          intro p hp
          refine (parse_drop_error h long ?_ hp).elim
          intro n rest run
          have := read n rest run
          simp only [RUN_MASK] at this
          omega
      | some n =>
          obtain ⟨run, more, limit⟩ := read
          simp only [RUN_MASK] at limit
          refine returns_safeLiteralCopy ?_ filled rfl (by omega) (by omega)
          rw [parse_drop_long h long, run, long]
          rfl
    · intro (short : ¬src[start].toNat / 16 = 15)
      exact returns_safeLiteralCopy (parse_drop_short h short) filled rfl (Nat.lt_succ_self _) h

theorem returns_fastCopyMatch (found : parsed = some (.sequence s (src.drop ip)))
    (filled : Filled oend (out ++ s.literals) dst) (at_end : op = (out ++ s.literals).length)
    (after : start < ip) (inside : ip < src.length) (room : op + s.matchLength + 64 < oend) :
    Returns (fastCopyMatch s.offset.toNat s.matchLength ⟨ip, op, dst⟩)
      (Explains src oend start out parsed) := by
  have least : 4 ≤ s.matchLength := Nat.le_add_left 4 _
  have op_eq : op = out.length + s.literals.length := at_end.trans List.length_append
  unfold fastCopyMatch
  dsimp only
  refine Returns.ite ?_ ?_
  · intro (below : op < s.offset.toNat)
    refine Returns.ok (explains_error found filled.length_eq ?_)
    intro fits
    have := fits.1
    omega
  intro (reaches : ¬op < s.offset.toNat)
  have length_eq : op + s.matchLength - op = s.matchLength := Nat.add_sub_cancel_left _ _
  have done (dst' : List UInt8)
      (filled' : Filled oend
        (Backref.copy (out ++ s.literals) s.offset.toNat (op + s.matchLength - op)) dst') :
      Returns (pure (.fastLoop ⟨ip, op + s.matchLength, dst'⟩) : Access Outcome)
        (Explains src oend start out parsed) := by
    rw [length_eq] at filled'
    refine Returns.ok ⟨⟨s, found, by omega, filled', ?_, after, inside⟩, room.le⟩
    rw [Sequence.length_expand, op_eq]
  refine Returns.ite ?_ ?_
  · intro _
    exact Returns.bind (returns_memcpyUsingOffset filled at_end (by omega) (by omega)
      (by omega)) done
  · intro far
    exact Returns.bind (returns_wildCopy32_within filled at_end (by omega) (by omega) (by omega)
      (by omega)) done

theorem returns_fastMatch {tok : UInt8} {literals : List UInt8}
    (found : parsed = parseMatch (tok.toNat % 16) literals (src.drop ip))
    (filled : Filled oend (out ++ literals) dst) (at_end : op = (out ++ literals).length)
    (after : start < ip) (inside : ip + 2 < src.length) (room : op + 32 ≤ oend) :
    Returns (fastMatch src oend tok ⟨ip, op, dst⟩) (Explains src oend start out parsed) := by
  unfold fastMatch
  dsimp only
  refine Returns.bind (returns_readLE16 (by omega)) ?_
  rintro _ ⟨offset, rfl, behind⟩
  rw [behind] at found
  rw [and_mask]
  refine Returns.ite ?_ ?_
  · intro (long : tok.toNat % 16 = 15)
    rw [long] at found ⊢
    refine Returns.bind (returns_readVariableLength (by simp only [LASTLITERALS]; omega)
      (Or.inr inside)) ?_
    rintro ⟨addl, ip'⟩ read
    cases addl with
    | none =>
        refine Returns.ok ⟨filled.length_eq, ?_⟩
        intro p hp fits
        rw [found] at hp
        obtain ⟨⟨matchCode, rest⟩, run, rfl⟩ := Option.map_eq_some_iff.mp hp
        obtain ⟨⟨n, rest'⟩, run', he⟩ := Option.map_eq_some_iff.mp run
        cases he
        have short := read n rest run'
        have reserve : 5 < rest.length := fits.2.2.2
        simp only [LASTLITERALS] at short
        omega
    | some n =>
        obtain ⟨run, more, limit⟩ := read
        simp only [LASTLITERALS] at limit
        have whole : parsed = some (.sequence ⟨literals, offset, 15 + n⟩ (src.drop ip')) := by
          rw [found, readLength, if_pos rfl, run]
          rfl
        refine Returns.ite ?_ ?_
        · intro (below : op < offset.toNat)
          refine Returns.ok (explains_error whole filled.length_eq ?_)
          intro fits
          have : offset.toNat ≤ out.length + literals.length := fits.1
          rw [List.length_append] at at_end
          omega
        · intro _
          refine Returns.ite ?_ ?_
          · intro _
            exact returns_safeMatchCopy (s := ⟨literals, offset, 15 + n⟩) whole filled at_end
              (by omega) (by omega) (by omega)
          · intro (clear : ¬oend ≤ op + (15 + n + 4) + 64)
            exact returns_fastCopyMatch (s := ⟨literals, offset, 15 + n⟩) whole filled at_end
              (by omega) (by omega) (Nat.not_le.mp clear)
  · intro (token_only : ¬tok.toNat % 16 = 15)
    have whole : parsed =
        some (.sequence ⟨literals, offset, tok.toNat % 16⟩ (src.drop (ip + 2))) := by
      rw [found, readLength, if_neg token_only]
      rfl
    refine Returns.ite ?_ ?_
    · intro _
      exact returns_safeMatchCopy (s := ⟨literals, offset, tok.toNat % 16⟩) whole filled at_end
        (by omega) inside (by omega)
    · intro (clear : ¬oend ≤ op + (tok.toNat % 16 + 4) + 64)
      refine Returns.ite ?_ ?_
      · rintro ⟨reaches, far⟩
        refine Returns.bind (returns_copyEighteen (d := offset.toNat) filled at_end (by omega) far
          (by omega)) ?_
        intro dst' filled'
        rw [List.length_append] at at_end
        refine Returns.ok ⟨⟨⟨literals, offset, tok.toNat % 16⟩, whole, ?_, ?_, ?_,
          by simp only; omega, inside⟩, (Nat.not_le.mp clear).le⟩
        · simp only
          omega
        · exact filled'.shorter (prefix_copy _ _ (show tok.toNat % 16 + 4 ≤ 18 by omega))
        · rw [Sequence.length_expand, at_end]
          rfl
      · intro _
        exact returns_fastCopyMatch (s := ⟨literals, offset, tok.toNat % 16⟩) whole filled at_end
          (by omega) inside (Nat.not_le.mp clear)

theorem returns_fastTurn (h : start < src.length) (filled : Filled oend out dst)
    (room : out.length + 64 ≤ oend) :
    Returns (fastTurn src oend ⟨start, out.length, dst⟩)
      (Explains src oend start out (parse (src.drop start))) := by
  refine Returns.bind (returns_eq (byte_ok h)) ?_
  rintro _ rfl
  have small : src[start].toNat / 16 ≤ 15 := by have := src[start].toNat_lt; omega
  dsimp only
  rw [shift_bits]
  refine Returns.ite ?_ ?_
  · intro (long : src[start].toNat / 16 = 15)
    refine Returns.bind (returns_readVariableLength (by simp only [RUN_MASK]; omega)
      (Or.inl rfl)) ?_
    rintro ⟨addl, ip'⟩ read
    cases addl with
    | none =>
        refine Returns.ok ⟨filled.length_eq, ?_⟩
        intro p hp
        refine (parse_drop_error h long ?_ hp).elim
        intro n rest run
        have := read n rest run
        simp only [RUN_MASK] at this
        omega
    | some n =>
        obtain ⟨run, more, limit⟩ := read
        simp only [RUN_MASK] at limit
        have found : parse (src.drop start) =
            parseLiterals (src[start].toNat % 16) (15 + n) (src.drop ip') := by
          rw [parse_drop_long h long, run]
          rfl
        rw [long]
        refine Returns.ite ?_ ?_
        · intro _
          exact returns_safeLiteralCopy found filled rfl (by omega) (by omega)
        · intro clear
          have length_eq : (slice src ip' (15 + n)).length = 15 + n := length_slice (by omega)
          refine Returns.bind (returns_wildCopy32_from filled rfl (by omega) (by omega)
            (by omega)) ?_
          intro dst' filled'
          rw [Nat.add_sub_cancel_left] at filled'
          refine returns_fastMatch ?_ filled' (by rw [List.length_append, length_eq])
            (by omega) (by omega) (by omega)
          rw [found, parseLiterals_drop (by omega)]
  · intro (short : ¬src[start].toNat / 16 = 15)
    have found := parse_drop_short h short
    refine Returns.ite ?_ ?_
    · intro _
      exact returns_safeLiteralCopy found filled rfl (Nat.lt_succ_self _) h
    · intro clear
      have length_eq : (slice src (start + 1) (src[start].toNat / 16)).length =
          src[start].toNat / 16 := length_slice (by omega)
      refine Returns.bind (filled.copyFrom (n := 16) rfl (by omega) (by omega)) ?_
      intro dst₁ filled₁
      have filled₂ := filled₁.shorter (prefix_slice out src (start + 1) (show
        src[start].toNat / 16 ≤ 16 by omega))
      refine returns_fastMatch ?_ filled₂ (by rw [List.length_append, length_eq])
        (by omega) (by omega) (by omega)
      rw [found, parseLiterals_drop (by omega)]

end Turn

/-- Between two turns: `out` is what has been read so far, and the rest of the input says
what follows it. -/
structure Midway (src : List UInt8) (oend : Nat) (fast : Bool) (c : Cursor) (out : List UInt8) :
    Prop where
  inside : c.ip < src.length
  filled : Filled oend out c.dst
  at_end : c.op = out.length
  room : fast = true → c.op + FASTLOOP_SAFE_DISTANCE ≤ oend
  block : ∀ result, Decodes Parsed.Reaches out (src.drop c.ip) result → IsBlock src result
  legal : ∀ result, IsLegalBlock oend src result →
    Decodes (Parsed.Fits oend) out (src.drop c.ip) result

/-- What the decoder returns, and the buffer it leaves. -/
def Decoded (src : List UInt8) (oend : Nat) : Int × List UInt8 → Prop
  | (r, dst) => dst.length = oend ∧
      (0 ≤ r → r ≤ oend ∧ IsBlock src (dst.take r.toNat)) ∧
      ∀ result, IsLegalBlock oend src result →
        r = result.length ∧ dst.take result.length = result

theorem Midway.advance {fast fast' : Bool} {c c' : Cursor} (before : Midway src oend fast c out)
    (next : Advances src oend c.ip out (parse (src.drop c.ip)) c')
    (room : fast' = true → c'.op + FASTLOOP_SAFE_DISTANCE ≤ oend) :
    ∃ out', Midway src oend fast' c' out' := by
  obtain ⟨s, parsed, reaches, filled, at_end, -, inside⟩ := next
  refine ⟨s.expand out, inside, filled, at_end, room, ?_, ?_⟩
  · intro result tail
    exact before.block result (.sequence parsed reaches tail)
  · intro result legal
    cases before.legal result legal with
    | last parsed' =>
        rw [parsed] at parsed'
        cases parsed'
    | sequence parsed' _ tail =>
        rw [parsed] at parsed'
        cases parsed'
        exact tail

/-- What a turn comes to leads from between two turns to there again, or to a result. -/
theorem Midway.next {fast : Bool} {c : Cursor} {outcome : Outcome}
    (before : Midway src oend fast c out)
    (h : Explains src oend c.ip out (parse (src.drop c.ip)) outcome) :
    Sum.elim
      (fun (fast', c') => (∃ out', Midway src oend fast' c' out') ∧
        src.length - c'.ip < src.length - c.ip)
      (Decoded src oend) outcome.next := by
  cases outcome with
  | fastLoop c' =>
      obtain ⟨next, room⟩ := h
      have moved : ∃ out', Midway src oend true c' out' := before.advance next fun _ => room
      obtain ⟨s, -, -, -, -, more, -⟩ := next
      exact ⟨moved, Nat.sub_lt_sub_left before.inside more⟩
  | safeLoop c' =>
      have moved : ∃ out', Midway src oend false c' out' := before.advance h nofun
      obtain ⟨s, -, -, -, -, more, -⟩ := h
      exact ⟨moved, Nat.sub_lt_sub_left before.inside more⟩
  | decoded c' =>
      obtain ⟨literals, parsed, filled, at_end⟩ := h
      have taken : c'.dst.take c'.op = out ++ literals := by rw [at_end, filled.take_eq]
      have limit := filled.le
      refine ⟨filled.length_eq, fun _ => ⟨by omega, ?_⟩, ?_⟩
      · rw [Int.toNat_natCast, taken]
        exact before.block _ (.last parsed trivial)
      · intro result legal
        have here : Decodes Parsed.Reaches out (src.drop c.ip) (out ++ literals) :=
          .last parsed trivial
        have same : out ++ literals = result := here.unique (before.legal result legal)
        subst same
        exact ⟨by rw [at_end], filled.take_eq⟩
  | outputError ip' dst' =>
      obtain ⟨length_eq, breaks⟩ := h
      refine ⟨length_eq, fun nonneg => by omega, ?_⟩
      intro result legal
      cases before.legal result legal with
      | last parsed ok => exact (breaks _ parsed ok).elim
      | sequence parsed ok _ => exact (breaks _ parsed ok).elim

theorem returns_turn {fast : Bool} {c : Cursor} (before : Midway src oend fast c out) :
    Returns (turn src oend (fast, c)) (Sum.elim
      (fun (fast', c') => (∃ out', Midway src oend fast' c' out') ∧
        src.length - c'.ip < src.length - c.ip)
      (Decoded src oend)) := by
  have inside := before.inside
  have filled := before.filled
  have here : c = ⟨c.ip, out.length, c.dst⟩ := by rw [← before.at_end]
  cases fast with
  | true =>
      have room := before.room rfl
      rw [before.at_end] at room
      have turned := returns_fastTurn inside filled room
      rw [← here] at turned
      exact Returns.bind turned fun outcome h => Returns.ok (before.next h)
  | false =>
      have turned := returns_safeTurn inside filled
      rw [← here] at turned
      exact Returns.bind turned fun outcome h => Returns.ok (before.next h)

theorem returns_decompressSafe (src dst : List UInt8) (room : dst.length ≠ 0) :
    Returns (decompressSafe src dst) (Decoded src dst.length) := by
  unfold decompressSafe decompressGeneric
  rw [if_neg room]
  refine Returns.ite ?_ ?_
  · intro empty
    obtain rfl := List.eq_nil_of_length_eq_zero empty
    refine Returns.ok ⟨rfl, fun nonneg => by omega, ?_⟩
    intro result legal
    cases legal with
    | last parsed => cases parsed
    | sequence parsed => cases parsed
  · intro some_input
    refine Returns.loop (fun (fast, c) => ∃ out, Midway src dst.length fast c out)
      (fun (_, c) => src.length - c.ip) ?_
      ⟨[], Nat.pos_of_ne_zero some_input, Filled.nil dst, rfl, ?_, fun _ h => h, fun _ h => h⟩
      (by simp only; omega)
    · rintro ⟨fast, c⟩ ⟨out, before⟩
      exact returns_turn before
    · intro quick
      rw [Nat.zero_add]
      exact of_decide_eq_true quick

/-- Memory safety and soundness for the decoder, with any input and any output buffer. -/
theorem decompressSafe_sound (src dst : List UInt8) :
    ∃ r dst', decompressSafe src dst = .ok (r, dst') ∧ dst'.length = dst.length ∧
      (0 ≤ r → r ≤ dst.length ∧ IsBlock src (dst'.take r.toNat)) := by
  by_cases room : dst.length = 0
  · obtain rfl := List.eq_nil_of_length_eq_zero room
    cases src with
    | nil => exact ⟨-1, [], rfl, rfl, fun nonneg => absurd nonneg (by decide)⟩
    | cons b src =>
        cases src with
        | nil =>
            by_cases zero : b = 0
            · subst zero
              exact ⟨0, [], rfl, rfl, fun _ => ⟨le_rfl, .last rfl trivial⟩⟩
            · refine ⟨-1, [], ?_, rfl, fun nonneg => absurd nonneg (by decide)⟩
              change Except.ok (if b = 0 then (0 : Int) else -1, []) = _
              rw [if_neg zero]
        | cons c src => exact ⟨-1, [], rfl, rfl, fun nonneg => absurd nonneg (by decide)⟩
  · obtain ⟨⟨r, dst'⟩, run, length_eq, sound, -⟩ := returns_decompressSafe src dst room
    exact ⟨r, dst', run, length_eq, sound⟩

end MobilePIM.Lz4
