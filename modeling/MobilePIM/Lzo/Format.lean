import MobilePIM.Foundation.Backref
import MobilePIM.Foundation.Runs
import Mathlib.Data.Nat.Bitwise

/-!
The LZO1X block format: runs of literals, and matches with up to three literals
behind them. What a byte below 16 says depends on what stands in front of it, and
a match at no distance is the end. The bytes of a match and of a run are those
the compressor chooses.
-/

namespace MobilePIM.Lzo

def M2_MAX_LEN : Nat := 8
def M2_MAX_OFFSET : Nat := 0x0800
def M3_MAX_LEN : Nat := 33
def M3_MAX_OFFSET : Nat := 0x4000
def M3_MARKER : Nat := 32
def M4_MAX_LEN : Nat := 9
def M4_MAX_OFFSET : Nat := 0xbfff
def M4_MARKER : Nat := 16

/-- What stands in front of an instruction: a match, a match with literals, or a run. -/
inductive Place
  | matched | literals | run
deriving DecidableEq, Repr

inductive Parsed
  | run (literals rest : List UInt8)
  | copy (offset length : Nat) (literals rest : List UInt8)
  | eof (rest : List UInt8)

/-- A length from the low bits of the first byte; if they are zero it follows in bytes. -/
def readLength (base low : Nat) (input : List UInt8) : Option (Nat × List UInt8) :=
  if low = 0 then (Runs.read 0 input).map fun (n, rest) => (base + n, rest)
  else some (low, input)

/-- A match, and the literals behind it as the low bits of `tok` count them. -/
def parseCopy (offset length : Nat) (tok : UInt8) (input : List UInt8) : Option Parsed :=
  if input.length < tok.toNat % 4 then none
  else some (.copy offset length (input.take (tok.toNat % 4)) (input.drop (tok.toNat % 4)))

/-- A match whose offset ends in the byte that follows. -/
def parseNear (offset : Nat → Nat) (length : Nat) (tok : UInt8) : List UInt8 → Option Parsed
  | [] => none
  | high :: input => parseCopy (offset high.toNat) length tok input

/-- A match whose offset is in the next two bytes, less `base`; none if it is zero there. -/
def parseFar (base distance length : Nat) : List UInt8 → Option Parsed
  | low :: high :: input =>
      if distance + (low.toNat + 256 * high.toNat) / 4 = 0 then some (.eof input)
      else parseCopy (base + distance + (low.toNat + 256 * high.toNat) / 4) length low input
  | _ => none

def parseRun (length : Nat) (input : List UInt8) : Option Parsed :=
  if input.length < length then none
  else some (.run (input.take length) (input.drop length))

/-- A byte below 16. -/
def parseSmall (place : Place) (tok : UInt8) (input : List UInt8) : Option Parsed :=
  match place with
  | .matched => (readLength 15 tok.toNat input).bind fun (n, input) => parseRun (n + 3) input
  | .literals => parseNear (fun high => 1 + tok.toNat / 4 + 4 * high) 2 tok input
  | .run => parseNear (fun high => 1 + M2_MAX_OFFSET + tok.toNat / 4 + 4 * high) 3 tok input

/-- The first instruction of the input. -/
def parse (place : Place) : List UInt8 → Option Parsed
  | [] => none
  | tok :: input =>
      if tok.toNat < 16 then parseSmall place tok input
      else if tok.toNat < 32 then
        (readLength 7 (tok.toNat % 8) input).bind fun (n, input) =>
          parseFar 0x4000 (0x4000 * (tok.toNat / 8 % 2)) (n + 2) input
      else if tok.toNat < 64 then
        (readLength 31 (tok.toNat % 32) input).bind fun (n, input) =>
          parseFar 0 1 (n + 2) input
      else
        parseNear (fun high => 1 + tok.toNat / 4 % 8 + 8 * high) (tok.toNat / 32 + 1) tok input

/-- Where the instruction behind a match with these literals stands. -/
def behind (literals : List UInt8) : Place := if literals = [] then .matched else .literals

/-- What an instruction that is no end does to the output, and where it leads. -/
inductive Step (out : List UInt8) : Parsed → Place → List UInt8 → List UInt8 → Prop
  | run {literals next} : Step out (.run literals next) .run (out ++ literals) next
  | copy {offset length literals next} (reaches : offset ≤ out.length) :
      Step out (.copy offset length literals next) (behind literals)
        (Backref.copy out offset length ++ literals) next

/-- Behind the output `out` the input says `result`, and `rest` is left of it. -/
inductive Decodes : Place → List UInt8 → List UInt8 → List UInt8 → List UInt8 → Prop
  | eof {place out input rest} (parsed : parse place input = some (.eof rest)) :
      Decodes place out input out rest
  | step {place out input p place' out' next result rest}
      (parsed : parse place input = some p) (first : Step out p place' out' next)
      (tail : Decodes place' out' next result rest) : Decodes place out input result rest

/-- A first byte above 17 counts literals. -/
def start : List UInt8 → Option (Place × List UInt8 × List UInt8)
  | [] => none
  | tok :: input =>
      if 17 < tok.toNat then
        if input.length < tok.toNat - 17 then none
        else some (if tok.toNat - 17 < 4 then .literals else .run,
          input.take (tok.toNat - 17), input.drop (tok.toNat - 17))
      else some (.matched, [], tok :: input)

/-- The input starts with a block of `result`, and `rest` is left of it. -/
def IsBlock (input result rest : List UInt8) : Prop :=
  ∃ place out next, start input = some (place, out, next) ∧ Decodes place out next result rest

/-- A positive number as bytes that add up to it. -/
def runs (n : Nat) : List UInt8 := Runs.bytes 0 ((n - 1) / 255) (UInt8.ofNat ((n - 1) % 255 + 1))

/-- The first byte of a long match, and what of its length does not fit it. -/
def lengthBytes (marker maxLen length : Nat) : List UInt8 :=
  if length ≤ maxLen then [UInt8.ofNat (marker + (length - 2))]
  else UInt8.ofNat marker :: runs (length - maxLen)

def offsetBytes (offset literals : Nat) : List UInt8 :=
  [UInt8.ofNat (4 * (offset % 64) + literals), UInt8.ofNat (offset / 64 % 256)]

/-- A match with a number of literals behind it. -/
def matchBytes (offset length literals : Nat) : List UInt8 :=
  if length ≤ M2_MAX_LEN ∧ offset ≤ M2_MAX_OFFSET then
    [UInt8.ofNat (32 * (length - 1) + 4 * ((offset - 1) % 8) + literals),
      UInt8.ofNat ((offset - 1) / 8)]
  else if offset ≤ M3_MAX_OFFSET then
    lengthBytes M3_MARKER M3_MAX_LEN length ++ offsetBytes (offset - 1) literals
  else
    lengthBytes (M4_MARKER + 8 * ((offset - 0x4000) / 0x4000)) M4_MAX_LEN length ++
      offsetBytes (offset - 0x4000) literals

/-- The bytes in front of a run of literals. -/
def runHeader (length : Nat) : List UInt8 :=
  if length ≤ 18 then [UInt8.ofNat (length - 3)] else 0 :: runs (length - 18)

/-- The end of a block: a match at no distance. -/
def endBytes : List UInt8 := [UInt8.ofNat (M4_MARKER + 1), 0, 0]

variable {place : Place} {input rest : List UInt8} {n : Nat}

theorem toNat_ofNat {n : Nat} (h : n < 256) : (UInt8.ofNat n).toNat = n :=
  UInt8.toNat_ofNat_of_lt' h

theorem and_seven (n : Nat) : n &&& 7 = n % 8 := Nat.and_two_pow_sub_one_eq_mod n 3

theorem and_eight (n : Nat) : n &&& 8 = 8 * (n / 8 % 2) := by
  have bit : n &&& 2 ^ 3 = (n.testBit 3).toNat * 2 ^ 3 := Nat.and_two_pow n 3
  rw [Nat.toNat_testBit] at bit
  exact bit.trans (Nat.mul_comm _ _)

theorem read_runs (positive : 0 < n) (rest : List UInt8) :
    Runs.read 0 (runs n ++ rest) = some (n, rest) := by
  have value : (UInt8.ofNat ((n - 1) % 255 + 1)).toNat = (n - 1) % 255 + 1 :=
    toNat_ofNat (by omega)
  have nonzero : UInt8.ofNat ((n - 1) % 255 + 1) ≠ 0 := by
    intro zero
    have := congrArg UInt8.toNat zero
    rw [value] at this
    exact absurd this (Nat.succ_ne_zero _)
  rw [runs, Runs.read_bytes nonzero, value]
  simp only [Option.some.injEq, Prod.mk.injEq, and_true]
  omega

theorem length_runs (n : Nat) : (runs n).length = (n - 1) / 255 + 1 := by
  simp [runs, Runs.bytes]

theorem parseCopy_append (offset length : Nat) {tok : UInt8} {literals : List UInt8}
    (count : tok.toNat % 4 = literals.length) (rest : List UInt8) :
    parseCopy offset length tok (literals ++ rest) = some (.copy offset length literals rest) := by
  rw [parseCopy, count, if_neg (by simp), List.take_left, List.drop_left]

theorem parseFar_offsetBytes {base distance offset length : Nat} {literals : List UInt8}
    (few : literals.length < 4) (some_distance : distance + offset % 0x4000 ≠ 0)
    (rest : List UInt8) :
    parseFar base distance length (offsetBytes offset literals.length ++ (literals ++ rest)) =
      some (.copy (base + distance + offset % 0x4000) length literals rest) := by
  have low : (UInt8.ofNat (4 * (offset % 64) + literals.length)).toNat =
      4 * (offset % 64) + literals.length := toNat_ofNat (by omega)
  have high : (UInt8.ofNat (offset / 64 % 256)).toNat = offset / 64 % 256 :=
    toNat_ofNat (by omega)
  have together : (4 * (offset % 64) + literals.length + 256 * (offset / 64 % 256)) / 4 =
      offset % 0x4000 := by omega
  rw [offsetBytes, List.cons_append, List.cons_append, List.nil_append, parseFar, low, high,
    together, if_neg some_distance]
  exact parseCopy_append _ _ (by rw [low]; omega) rest

/-- The length of a long match, read from its first byte and what continues it. -/
theorem readLength_lengthBytes (marker maxLen width : Nat) {length : Nat} (long : 3 ≤ length)
    (room : marker % width = 0) (positive : 0 < width) (wide : maxLen = width + 1)
    (fits : marker + width ≤ 256) :
    ∃ tok tail, lengthBytes marker maxLen length = tok :: tail ∧ marker ≤ tok.toNat ∧
      tok.toNat < marker + width ∧ ∀ rest,
        readLength (width - 1) (tok.toNat % width) (tail ++ rest) = some (length - 2, rest) := by
  by_cases short : length ≤ maxLen
  · have value : (UInt8.ofNat (marker + (length - 2))).toNat = marker + (length - 2) :=
      toNat_ofNat (by omega)
    refine ⟨_, [], by rw [lengthBytes, if_pos short], by omega, by omega, fun rest => ?_⟩
    have low : (marker + (length - 2)) % width = length - 2 := by
      rw [Nat.add_mod, room, Nat.zero_add, Nat.mod_mod]
      exact Nat.mod_eq_of_lt (by omega)
    rw [value, low, readLength, if_neg (by omega)]
    rfl
  · have value : (UInt8.ofNat marker).toNat = marker := toNat_ofNat (by omega)
    refine ⟨_, _, by rw [lengthBytes, if_neg short], by omega, by omega, fun rest => ?_⟩
    rw [value, room, readLength, if_pos rfl, read_runs (by omega)]
    simp only [Option.map_some, Option.some.injEq, Prod.mk.injEq, and_true]
    omega

theorem parse_matchBytes (place : Place) {offset length : Nat} {literals : List UInt8}
    (long : 3 ≤ length) (positive : 0 < offset) (near : offset ≤ M4_MAX_OFFSET)
    (few : literals.length < 4) (rest : List UInt8) :
    parse place (matchBytes offset length literals.length ++ (literals ++ rest)) =
      some (.copy offset length literals rest) := by
  simp only [M4_MAX_OFFSET] at near
  unfold matchBytes
  split
  · rename_i short
    simp only [M2_MAX_LEN, M2_MAX_OFFSET] at short
    have tok : (UInt8.ofNat (32 * (length - 1) + 4 * ((offset - 1) % 8) +
        literals.length)).toNat = 32 * (length - 1) + 4 * ((offset - 1) % 8) + literals.length :=
      toNat_ofNat (by omega)
    have high : (UInt8.ofNat ((offset - 1) / 8)).toNat = (offset - 1) / 8 :=
      toNat_ofNat (by omega)
    rw [List.cons_append, List.cons_append, List.nil_append, parse, tok, if_neg (by omega),
      if_neg (by omega), if_neg (by omega), parseNear, high,
      parseCopy_append _ _ (by rw [tok]; omega)]
    simp only [Option.some.injEq, Parsed.copy.injEq, and_true]
    omega
  · split
    · rename_i far
      simp only [M3_MAX_OFFSET] at far
      obtain ⟨tok, tail, bytes, least, most, read⟩ := readLength_lengthBytes M3_MARKER M3_MAX_LEN
        32 long rfl (by decide) rfl (by decide)
      simp only [M3_MARKER] at least most
      rw [bytes, List.cons_append, List.cons_append, parse, if_neg (by omega), if_neg (by omega),
        if_pos (by omega), List.append_assoc, read, Option.bind_some]
      simp only
      rw [parseFar_offsetBytes few (by omega)]
      simp only [Option.some.injEq, Parsed.copy.injEq, and_true]
      omega
    · rename_i far
      simp only [M3_MAX_OFFSET] at far
      obtain ⟨tok, tail, bytes, least, most, read⟩ := readLength_lengthBytes
        (M4_MARKER + 8 * ((offset - 0x4000) / 0x4000)) M4_MAX_LEN 8 long
        (by simp only [M4_MARKER]; omega) (by decide) rfl (by simp only [M4_MARKER]; omega)
      simp only [M4_MARKER] at least most
      rw [bytes, List.cons_append, List.cons_append, parse, if_neg (by omega), if_pos (by omega),
        List.append_assoc, read, Option.bind_some]
      simp only
      have bit : tok.toNat / 8 % 2 = (offset - 0x4000) / 0x4000 := by omega
      rw [bit, parseFar_offsetBytes few (by omega)]
      simp only [Option.some.injEq, Parsed.copy.injEq, and_true]
      omega

theorem parse_runHeader {literals : List UInt8} (long : 4 ≤ literals.length)
    (rest : List UInt8) : parse .matched (runHeader literals.length ++ (literals ++ rest)) =
      some (.run literals rest) := by
  have whole : parseRun literals.length (literals ++ rest) = some (.run literals rest) := by
    rw [parseRun, if_neg (by simp), List.take_left, List.drop_left]
  unfold runHeader
  split
  · have tok : (UInt8.ofNat (literals.length - 3)).toNat = literals.length - 3 :=
      toNat_ofNat (by omega)
    rw [List.singleton_append, parse, tok, if_pos (by omega), parseSmall, tok, readLength,
      if_neg (by omega), Option.bind_some]
    simp only
    rw [Nat.sub_add_cancel (by omega), whole]
  · rw [List.cons_append]
    change ((readLength 15 0 _).bind _) = _
    rw [readLength, if_pos rfl, read_runs (by omega), Option.map_some, Option.bind_some]
    simp only
    rw [show 15 + (literals.length - 18) + 3 = literals.length by omega, whole]

theorem parse_endBytes (place : Place) (rest : List UInt8) :
    parse place (endBytes ++ rest) = some (.eof rest) := by
  cases place <;> rfl

/-- The first byte may stand for the literals in front of the first match. -/
theorem start_literals {literals : List UInt8} (some_literals : 0 < literals.length)
    (few : literals.length ≤ 238) (rest : List UInt8) :
    start (UInt8.ofNat (17 + literals.length) :: (literals ++ rest)) =
      some (if literals.length < 4 then .literals else .run, literals, rest) := by
  have tok : (UInt8.ofNat (17 + literals.length)).toNat = 17 + literals.length :=
    toNat_ofNat (by omega)
  rw [start, tok, if_pos (by omega), Nat.add_sub_cancel_left, if_neg (by simp), List.take_left,
    List.drop_left]

theorem start_small {tok : UInt8} (h : tok.toNat ≤ 17) (input : List UInt8) :
    start (tok :: input) = some (.matched, [], tok :: input) := by
  rw [start, if_neg (by omega)]

section Step

variable {p : Parsed} {place' place'' : Place} {out out' out'' next next' : List UInt8}

theorem Step.starts (h : Step out p place' out' next) : out <+: out' := by
  cases h with
  | run => exact List.prefix_append _ _
  | @copy offset length literals next reaches =>
      have kept : (Backref.copy out offset length).take out.length = out :=
        Backref.take_copy out offset (Nat.zero_le length)
      exact (List.prefix_iff_eq_take.mpr kept.symm).trans (List.prefix_append _ _)

theorem Step.unique (h : Step out p place' out' next) (h' : Step out p place'' out'' next') :
    place' = place'' ∧ out' = out'' ∧ next = next' := by
  cases h with
  | run =>
      cases h' with
      | run => exact ⟨rfl, rfl, rfl⟩
  | copy reaches =>
      cases h' with
      | copy reaches' => exact ⟨rfl, rfl, rfl⟩

end Step

namespace Decodes

variable {p : Parsed} {place' : Place} {out out' next result rest' : List UInt8}

/-- The input says one thing only: what it says begins with its first instruction. -/
theorem of_step (h : Decodes place out input result rest) (parsed : parse place input = some p)
    (first : Step out p place' out' next) : Decodes place' out' next result rest := by
  cases h with
  | eof parsed' =>
      cases parsed.symm.trans parsed'
      cases first
  | step parsed' first' tail =>
      cases parsed.symm.trans parsed'
      obtain ⟨rfl, rfl, rfl⟩ := first.unique first'
      exact tail

theorem of_eof (h : Decodes place out input result rest)
    (parsed : parse place input = some (.eof rest')) : result = out ∧ rest = rest' := by
  cases h with
  | eof parsed' =>
      cases parsed.symm.trans parsed'
      exact ⟨rfl, rfl⟩
  | step parsed' first _ =>
      cases parsed.symm.trans parsed'
      cases first

theorem unique {result' : List UInt8} (h : Decodes place out input result rest)
    (h' : Decodes place out input result' rest') : result = result' ∧ rest = rest' := by
  induction h with
  | eof parsed =>
      obtain ⟨same, left⟩ := h'.of_eof parsed
      exact ⟨same.symm, left.symm⟩
  | step parsed first _ ih => exact ih (h'.of_step parsed first)

theorem starts (h : Decodes place out input result rest) : out <+: result := by
  induction h with
  | eof => exact List.prefix_refl _
  | step _ first _ ih => exact first.starts.trans ih

end Decodes

theorem IsBlock.unique {result result' rest' : List UInt8} (h : IsBlock input result rest)
    (h' : IsBlock input result' rest') : result = result' ∧ rest = rest' := by
  obtain ⟨place, out, next, started, decodes⟩ := h
  obtain ⟨place', out', next', started', decodes'⟩ := h'
  cases started.symm.trans started'
  exact decodes.unique decodes'

end MobilePIM.Lzo
