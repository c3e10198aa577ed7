import MobilePIM.Foundation.Backref
import MobilePIM.Foundation.Runs

/-!
The LZ4 block format: sequences of literals and a match, and a last run of
literals. A length that does not fit its half of the token is continued in bytes
of 255 and a smaller one. What a block says is read off its bytes one sequence
after the other; the end-of-block restrictions bound it by the capacity.
-/

namespace MobilePIM.Lz4

def MINMATCH : Nat := 4
def LASTLITERALS : Nat := 5
def MFLIMIT : Nat := 12
def ML_BITS : Nat := 4
def ML_MASK : Nat := 15
def RUN_MASK : Nat := 15
def LZ4_DISTANCE_MAX : Nat := 65535

/-- Literals and the match behind them, `matchCode` bytes longer than the least match. -/
structure Sequence where
  literals : List UInt8
  offset : UInt16
  matchCode : Nat
deriving DecidableEq, Repr

/-- A number from 15 on, less 15, as bytes that add up to it. -/
def runs (n : Nat) : List UInt8 := List.replicate (n / 255) 255 ++ [UInt8.ofNat (n % 255)]

def extension (n : Nat) : List UInt8 := if n < 15 then [] else runs (n - 15)

def token (literals matchCode : Nat) : UInt8 :=
  UInt8.ofNat (16 * min literals 15 + min matchCode 15)

def offsetBytes (offset : UInt16) : List UInt8 :=
  [UInt8.ofNat (offset.toNat % 256), UInt8.ofNat (offset.toNat / 256)]

def Sequence.bytes (s : Sequence) : List UInt8 :=
  token s.literals.length s.matchCode :: extension s.literals.length ++ s.literals ++
    offsetBytes s.offset ++ extension s.matchCode

/-- The last literals of a block. -/
def lastBytes (literals : List UInt8) : List UInt8 :=
  token literals.length 0 :: extension literals.length ++ literals

def Sequence.matchLength (s : Sequence) : Nat := s.matchCode + MINMATCH

/-- The output behind the sequence, from the output before it. -/
def Sequence.expand (s : Sequence) (out : List UInt8) : List UInt8 :=
  Backref.copy (out ++ s.literals) s.offset.toNat s.matchLength

inductive Parsed
  | last (literals : List UInt8)
  | sequence (s : Sequence) (rest : List UInt8)

def readRuns : List UInt8 → Option (Nat × List UInt8) := Runs.read 255

/-- A length from its half of the token. -/
def readLength (half : Nat) (input : List UInt8) : Option (Nat × List UInt8) :=
  if half = 15 then (readRuns input).map fun (n, rest) => (15 + n, rest) else some (half, input)

/-- What follows the literals: nothing, or an offset and the rest of the match length. -/
def parseMatch (half : Nat) (literals : List UInt8) : List UInt8 → Option Parsed
  | [] => some (.last literals)
  | [_] => none
  | low :: high :: input =>
      (readLength half input).map fun (matchCode, rest) =>
        .sequence ⟨literals, UInt16.ofNat (low.toNat + 256 * high.toNat), matchCode⟩ rest

/-- What follows the literal length. -/
def parseLiterals (half : Nat) (length : Nat) (input : List UInt8) : Option Parsed :=
  if input.length < length then none
  else parseMatch half (input.take length) (input.drop length)

/-- The first sequence of the input, or its last literals. -/
def parse : List UInt8 → Option Parsed
  | [] => none
  | tok :: input =>
      (readLength (tok.toNat / 16) input).bind fun (length, input) =>
        parseLiterals (tok.toNat % 16) length input

/-- The match starts inside what precedes it. -/
def Parsed.Reaches (op : Nat) : Parsed → Prop
  | .last _ => True
  | .sequence s _ => s.offset.toNat ≤ op + s.literals.length

/-- The restrictions on a block whose output has to fit `cap` bytes: a match starts at
least `MFLIMIT` bytes before the end and leaves the last literals alone. -/
def Parsed.Fits (cap op : Nat) : Parsed → Prop
  | .last literals => op + literals.length ≤ cap
  | .sequence s rest =>
      s.offset.toNat ≤ op + s.literals.length ∧ op + s.literals.length + MFLIMIT ≤ cap ∧
        op + s.literals.length + s.matchLength + LASTLITERALS ≤ cap ∧ LASTLITERALS < rest.length

/-- `Decodes admits out input result`: behind the output `out`, the input says `result`. -/
inductive Decodes (admits : Nat → Parsed → Prop) : List UInt8 → List UInt8 → List UInt8 → Prop
  | last {out input literals} (parsed : parse input = some (.last literals))
      (ok : admits out.length (.last literals)) : Decodes admits out input (out ++ literals)
  | sequence {out input s rest result} (parsed : parse input = some (.sequence s rest))
      (ok : admits out.length (.sequence s rest))
      (tail : Decodes admits (s.expand out) rest result) : Decodes admits out input result

/-- The input is a block of `result`. -/
def IsBlock (input result : List UInt8) : Prop := Decodes Parsed.Reaches [] input result

/-- A block of `result` that keeps the end-of-block restrictions for a buffer of `cap` bytes. -/
def IsLegalBlock (cap : Nat) (input result : List UInt8) : Prop :=
  Decodes (Parsed.Fits cap) [] input result

theorem runs_of_lt {n : Nat} (h : n < 255) : runs n = [UInt8.ofNat n] := by
  rw [runs, Nat.div_eq_of_lt h, Nat.mod_eq_of_lt h]
  rfl

theorem runs_of_le {n : Nat} (h : 255 ≤ n) : runs n = 255 :: runs (n - 255) := by
  have quotient : n / 255 = (n - 255) / 255 + 1 := by omega
  have remainder : n % 255 = (n - 255) % 255 := by omega
  rw [runs, runs, quotient, remainder, List.replicate_succ, List.cons_append]

@[simp] theorem length_runs (n : Nat) : (runs n).length = n / 255 + 1 := by simp [runs]

theorem length_extension (n : Nat) :
    (extension n).length = if n < 15 then 0 else (n - 15) / 255 + 1 := by
  unfold extension
  split <;> simp

@[simp] theorem length_offsetBytes (offset : UInt16) : (offsetBytes offset).length = 2 := rfl

theorem readRuns_runs (n : Nat) (rest : List UInt8) :
    readRuns (runs n ++ rest) = some (n, rest) := by
  have value : (UInt8.ofNat (n % 255)).toNat = n % 255 :=
    UInt8.toNat_ofNat_of_lt' (show n % 255 < 256 by omega)
  have no_run : UInt8.ofNat (n % 255) ≠ 255 := by
    intro run
    have := congrArg UInt8.toNat run
    rw [value] at this
    exact absurd this (show n % 255 ≠ 255 by omega)
  have read := Runs.read_bytes no_run (n / 255) rest
  rw [value, Nat.div_add_mod] at read
  exact read

theorem readLength_extension (n : Nat) (rest : List UInt8) :
    readLength (min n 15) (extension n ++ rest) = some (n, rest) := by
  by_cases small : n < 15
  · rw [readLength, if_neg (by omega), extension, if_pos small, Nat.min_eq_left small.le]
    rfl
  · rw [readLength, if_pos (by omega), extension, if_neg small, readRuns_runs]
    simp only [Option.map_some, Option.some.injEq, Prod.mk.injEq, and_true]
    omega

theorem token_toNat (literals matchCode : Nat) :
    (token literals matchCode).toNat = 16 * min literals 15 + min matchCode 15 :=
  UInt8.toNat_ofNat_of_lt' (show _ < 256 by omega)

theorem token_div (literals matchCode : Nat) :
    (token literals matchCode).toNat / 16 = min literals 15 := by
  rw [token_toNat]
  omega

theorem token_mod (literals matchCode : Nat) :
    (token literals matchCode).toNat % 16 = min matchCode 15 := by
  rw [token_toNat]
  omega

theorem parseLiterals_append (half : Nat) (literals input : List UInt8) :
    parseLiterals half literals.length (literals ++ input) = parseMatch half literals input := by
  rw [parseLiterals, if_neg (by simp), List.take_left, List.drop_left]

/-- Reading a sequence behind which anything may follow. -/
theorem parse_bytes (s : Sequence) (rest : List UInt8) :
    parse (s.bytes ++ rest) = some (.sequence s rest) := by
  have low : (UInt8.ofNat (s.offset.toNat % 256)).toNat = s.offset.toNat % 256 :=
    UInt8.toNat_ofNat_of_lt' (show _ < 256 by omega)
  have high : (UInt8.ofNat (s.offset.toNat / 256)).toNat = s.offset.toNat / 256 :=
    UInt8.toNat_ofNat_of_lt' (show _ < 256 by have := s.offset.toNat_lt; omega)
  have offset : UInt16.ofNat (s.offset.toNat % 256 + 256 * (s.offset.toNat / 256)) = s.offset := by
    rw [Nat.mod_add_div, UInt16.ofNat_toNat]
  simp only [Sequence.bytes, List.cons_append, List.append_assoc, parse, token_div, token_mod,
    readLength_extension, Option.bind_some, parseLiterals_append]
  simp only [offsetBytes, List.cons_append, List.nil_append, parseMatch, readLength_extension,
    Option.map_some, low, high, offset]

theorem parse_lastBytes (literals : List UInt8) :
    parse (lastBytes literals) = some (.last literals) := by
  have back := parseLiterals_append (min 0 15) literals []
  rw [List.append_nil] at back
  simp only [lastBytes, List.cons_append, parse, token_div, token_mod, readLength_extension,
    Option.bind_some, back]
  rfl

@[simp] theorem Sequence.length_expand (s : Sequence) (out : List UInt8) :
    (s.expand out).length = out.length + s.literals.length + s.matchLength := by
  simp [Sequence.expand]

theorem Sequence.prefix_expand (s : Sequence) (out : List UInt8) : out <+: s.expand out := by
  have kept : (s.expand out).take (out ++ s.literals).length = out ++ s.literals :=
    Backref.take_copy _ _ (Nat.zero_le _)
  exact (List.prefix_append out s.literals).trans (List.prefix_iff_eq_take.mpr kept.symm)

namespace Decodes

variable {admits : Nat → Parsed → Prop} {out input result result' : List UInt8}

theorem mono {weaker : Nat → Parsed → Prop} (imp : ∀ op p, admits op p → weaker op p)
    (h : Decodes admits out input result) : Decodes weaker out input result := by
  induction h with
  | last parsed ok => exact .last parsed (imp _ _ ok)
  | sequence parsed ok _ ih => exact .sequence parsed (imp _ _ ok) ih

/-- The bytes say one thing only, whatever is admitted. -/
theorem unique {other : Nat → Parsed → Prop} (h : Decodes admits out input result)
    (h' : Decodes other out input result') : result = result' := by
  induction h with
  | last parsed _ =>
      cases h' with
      | last parsed' =>
          rw [parsed] at parsed'
          cases parsed'
          rfl
      | sequence parsed' =>
          rw [parsed] at parsed'
          cases parsed'
  | sequence parsed _ _ ih =>
      cases h' with
      | last parsed' =>
          rw [parsed] at parsed'
          cases parsed'
      | sequence parsed' _ tail' =>
          rw [parsed] at parsed'
          cases parsed'
          exact ih tail'

theorem starts (h : Decodes admits out input result) : out <+: result := by
  induction h with
  | last => exact List.prefix_append _ _
  | sequence _ _ _ ih => exact (Sequence.prefix_expand _ _).trans ih

end Decodes

theorem IsLegalBlock.length_le {cap : Nat} {input result : List UInt8}
    (h : IsLegalBlock cap input result) : result.length ≤ cap := by
  unfold IsLegalBlock at h
  generalize ([] : List UInt8) = out at h
  induction h with
  | last parsed ok =>
      rw [List.length_append]
      exact ok
  | sequence parsed ok _ ih => exact ih

end MobilePIM.Lz4
