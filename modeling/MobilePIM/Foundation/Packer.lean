import MobilePIM.Foundation.Bits

/-!
A bit packer: codewords are appended at the low end of an accumulator, and
whole bytes leave it at the high end. What was written so far is the bytes that
left followed by the bits still pending, whatever the widths of the codewords.
-/

namespace Bits

/-- A value with the number of bits it is written on. -/
structure Codeword where
  width : Nat
  value : Nat
  value_lt : value < 2 ^ width

def Codeword.bits (c : Codeword) : List Bool := field c.width c.value

@[simp] theorem Codeword.length_bits (c : Codeword) : c.bits.length = c.width := length_field _ _

/-- The bytes that left, and fewer than eight pending bits. -/
structure Packer where
  bytes : List UInt8
  count : Nat
  acc : Nat
  count_lt : count < 8
  acc_lt : acc < 2 ^ count

def width (words : List Codeword) : Nat := (words.map Codeword.width).sum

namespace Packer

def empty : Packer := ⟨[], 0, 0, by decide, by decide⟩

def bits (p : Packer) : List Bool := ofBytes p.bytes ++ field p.count p.acc

def emit (p : Packer) (c : Codeword) : Packer where
  bytes := p.bytes ++
    bytesBE ((p.count + c.width) / 8) ((p.acc <<< c.width ||| c.value) >>> ((p.count + c.width) % 8))
  count := (p.count + c.width) % 8
  acc := (p.acc <<< c.width ||| c.value) % 2 ^ ((p.count + c.width) % 8)
  count_lt := Nat.mod_lt _ (by decide)
  acc_lt := Nat.mod_lt _ (Nat.two_pow_pos _)

def emitAll (p : Packer) (words : List Codeword) : Packer := words.foldl emit p

@[simp] theorem bits_empty : empty.bits = [] := rfl

theorem length_bits (p : Packer) : p.bits.length = 8 * p.bytes.length + p.count := by
  simp [bits]

/-- No bit is lost or written twice. -/
theorem bits_emit (p : Packer) (c : Codeword) : (p.emit c).bits = p.bits ++ c.bits := by
  have whole := field_add (8 * ((p.count + c.width) / 8)) ((p.count + c.width) % 8)
    (p.acc <<< c.width ||| c.value)
  rw [Nat.div_add_mod, field_shiftLeft_or c.value_lt] at whole
  simp only [bits, emit, Codeword.bits, ofBytes_append, ofBytes_bytesBE, field_mod]
  rw [List.append_assoc, ← whole, List.append_assoc]

theorem bits_emitAll (p : Packer) (words : List Codeword) :
    (p.emitAll words).bits = p.bits ++ words.flatMap Codeword.bits := by
  induction words generalizing p with
  | nil => simp [emitAll]
  | cons c words ih =>
      rw [emitAll, List.foldl_cons, ← emitAll, ih, bits_emit, List.flatMap_cons, List.append_assoc]

theorem length_emitAll (p : Packer) (words : List Codeword) :
    8 * (p.emitAll words).bytes.length + (p.emitAll words).count =
      8 * p.bytes.length + p.count + width words := by
  have h := congrArg List.length (p.bits_emitAll words)
  rw [length_bits, List.length_append, length_bits, List.length_flatMap] at h
  simpa [width] using h

/-- While bits are pending, the last bit written is not in a byte that left. -/
theorem ofBytes_of_bits_concat {p : Packer} {z : List Bool} {b : Bool} (h : p.bits = z ++ [b])
    (pending : p.count ≠ 0) : ofBytes p.bytes = z.take (8 * p.bytes.length) := by
  have total := congrArg List.length h
  rw [length_bits, List.length_append, List.length_singleton] at total
  have cut := congrArg (List.take (8 * p.bytes.length)) h
  rwa [bits, List.take_left' (length_ofBytes p.bytes),
    List.take_append_of_le_length (by omega)] at cut

theorem emitAll_cons (p : Packer) (c : Codeword) (words : List Codeword) :
    p.emitAll (c :: words) = (p.emit c).emitAll words := rfl

end Packer
end Bits
