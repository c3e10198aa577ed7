import MobilePIM.Lzo.Copy
import MobilePIM.Lzo.Format

/-!
`lzo1x_1_compress` of a 64-bit machine, which checks no bound either. The source
is taken in chunks whose positions fit 16 bits, each with an empty dictionary;
literals that are still to be written are carried from one chunk to the next.
-/

namespace MobilePIM.Lzo

open Memory Total

def D_BITS : Nat := 14

/-- Positions, counted from the start of a chunk. -/
abbrev Dict := Fin (2 ^ D_BITS) → Nat

/-- `DINDEX`. -/
def dindex (dv : BitVec 32) : Fin (2 ^ D_BITS) := topBits (0x1824429d#32 * dv) D_BITS (by decide)

/-- `UPDATE_I`. -/
def updateI (dict : Dict) (index : Fin (2 ^ D_BITS)) (pos : Nat) : Dict :=
  fun k => if k = index then pos % 2 ^ 16 else dict k

/-- `while (tt > 255) { tt -= 255; *op++ = 0; } *op++ = tt;` -/
def storeRuns (dst : List UInt8) (op tt : Nat) : Access (List UInt8 × Nat) :=
  loop .outOfFuel
    (fun (dst, op, tt) =>
      if 255 < tt then do
        let dst ← write dst op [0]
        pure (.inl (dst, op + 1, tt - 255))
      else do
        let dst ← write dst op [UInt8.ofNat tt]
        pure (.inr (dst, op + 1)))
    (tt + 1) (dst, op, tt)

/-- `op[-2] |= t`, for a number of literals too small for a run. -/
def addLiterals (dst : List UInt8) (op t : Nat) : Access (List UInt8) :=
  if op < 2 then .error (.load 0)
  else do
    let b ← byte dst (op - 2)
    write dst (op - 2) [b ||| UInt8.ofNat t]

/-- The bytes in front of a run of literals. -/
def storeRunLength (dst : List UInt8) (op t : Nat) : Access (List UInt8 × Nat) :=
  if t ≤ 18 then do
    let dst ← write dst op [UInt8.ofNat (t - 3)]
    pure (dst, op + 1)
  else do
    let dst ← write dst op [0]
    storeRuns dst (op + 1) (t - 18)

/-- The length of a match of one of the two longer forms. -/
def storeLength (dst : List UInt8) (op marker maxLen len : Nat) : Access (List UInt8 × Nat) :=
  if len ≤ maxLen then do
    let dst ← write dst op [UInt8.ofNat (marker ||| (len - 2))]
    pure (dst, op + 1)
  else do
    let dst ← write dst op [UInt8.ofNat marker]
    storeRuns dst (op + 1) (len - maxLen)

def storeLongMatch (dst : List UInt8) (op marker maxLen off len : Nat) :
    Access (List UInt8 × Nat) := do
  let (dst, op) ← storeLength dst op marker maxLen len
  let dst ← write dst op [UInt8.ofNat (off <<< 2)]
  let dst ← write dst (op + 1) [UInt8.ofNat (off >>> 6)]
  pure (dst, op + 2)

def storeMatch (dst : List UInt8) (op off len : Nat) : Access (List UInt8 × Nat) :=
  if len ≤ M2_MAX_LEN ∧ off ≤ M2_MAX_OFFSET then do
    let off := off - 1
    let dst ← write dst op [UInt8.ofNat (((len - 1) <<< 5) ||| ((off &&& 7) <<< 2))]
    let dst ← write dst (op + 1) [UInt8.ofNat (off >>> 3)]
    pure (dst, op + 2)
  else if off ≤ M3_MAX_OFFSET then storeLongMatch dst op M3_MARKER M3_MAX_LEN (off - 1) len
  else
    let off := off - 0x4000
    storeLongMatch dst op (M4_MARKER ||| ((off >>> 11) &&& 8)) M4_MAX_LEN off len

/-- The variables of `do_compress`; the chunk starts at `start`. -/
structure State where
  ii : Nat
  ip : Nat
  op : Nat
  ti : Nat
  dst : List UInt8
  dict : Dict

section
variable (src : List UInt8)

/-- `UA_COPY8(op, ii); UA_COPY8(op+8, ii+8);` -/
def copySixteen (dst : List UInt8) (op ii : Nat) : Access (List UInt8) := do
  let dst ← copyFrom src dst op ii 8
  copyFrom src dst (op + 8) (ii + 8) 8

/-- The `t` literals in front of a match, copied by words that may be too long. -/
def storeLiterals (dst : List UInt8) (op ii t : Nat) : Access (List UInt8 × Nat) :=
  if t = 0 then pure (dst, op)
  else if t ≤ 3 then do
    let dst ← addLiterals dst op t
    let dst ← copyFrom src dst op ii 4
    pure (dst, op + t)
  else if t ≤ 16 then do
    let dst ← write dst op [UInt8.ofNat (t - 3)]
    let dst ← copySixteen src dst (op + 1) ii
    pure (dst, op + 1 + t)
  else do
    let (dst, op) ← storeRunLength dst op t
    let (dst, op, ii, t) ← copyBlocks 16 (fun dst op ii _ => copySixteen src dst op ii) dst op ii t
    let dst ← copyBytes (copyFrom src) dst op ii t
    pure (dst, op + t)

/-- The words at two positions, bit by bit. -/
def difference (p q : Nat) : Access (BitVec 64) := do
  let a ← readWord 8 src p
  let b ← readWord 8 src q
  pure (a ^^^ b)

/-- The length of a match whose first four bytes are known to agree. -/
def matchLength (ipEnd ip m : Nat) : Access Nat := do
  let v ← difference src (ip + 4) (m + 4)
  if v = 0 then
    loop .outOfFuel
      (fun len => do
        let len := len + 8
        let v ← difference src (ip + len) (m + len)
        pure (if ipEnd ≤ ip + len then .inr len
          else if v = 0 then .inl len else .inr (len + v.ctz.toNat / 8)))
      (src.length + 1) 4
  else pure (4 + v.ctz.toNat / 8)

/-- From `literal` (with the flag set) or `next` to the next of them, or out of the loop. -/
def coreTurn (start ipEnd : Nat) : Bool × State → Access ((Bool × State) ⊕ State)
  | (literal, s) =>
      let ip := if literal then s.ip + (1 + ((s.ip - s.ii) >>> 5)) else s.ip
      if ipEnd ≤ ip then pure (.inr s)
      else do
        let dv ← readWord 4 src ip
        let index := dindex dv
        let m := start + s.dict index
        let dict := updateI s.dict index (ip - start)
        let mv ← readWord 4 src m
        if dv ≠ mv then pure (.inl (true, { s with ip, dict }))
        else do
          let ii := s.ii - s.ti
          let (dst, op) ← storeLiterals src s.dst s.op ii (ip - ii)
          let len ← matchLength src ipEnd ip m
          let (dst, op) ← storeMatch dst op (ip - m) len
          pure (.inl (false, ⟨ip + len, ip + len, op, 0, dst, dict⟩))

/-- `do_compress`: the number of literals that are left, the position in the output, and the
output. -/
def lzo1x1CompressCore (start ll op ti : Nat) (dst : List UInt8) :
    Access (Nat × Nat × List UInt8) := do
  let ip := start + if ti < 4 then 4 - ti else 0
  let s ← loop .outOfFuel (coreTurn src start (start + ll - 20)) (2 * src.length + 2)
    (true, ⟨start, ip, op, ti, dst, fun _ => 0⟩)
  pure (start + ll - (s.ii - s.ti), s.op, s.dst)

/-- The loop over the chunks. It ends where the rest is too short, also for the comparison
that guards the pointers against an overflow. -/
def compressChunks (dst : List UInt8) : Access (Nat × Nat × List UInt8) :=
  loop .outOfFuel
    (fun (ip, op, l, t, dst) =>
      if 20 < l then
        let ll := min l 49152
        if (t + ll) >>> 5 = 0 then pure (.inr (t + l, op, dst))
        else do
          let (t, op, dst) ← lzo1x1CompressCore src ip ll op t dst
          pure (.inl (ip + ll, op, l - ll, t, dst))
      else pure (.inr (t + l, op, dst)))
    (src.length + 1) (0, 0, src.length, 0, dst)

/-- What stands in front of the last `t` literals. -/
def storeLastLength (t op : Nat) (dst : List UInt8) : Access (List UInt8 × Nat) :=
  if op = 0 ∧ t ≤ 238 then do
    let dst ← write dst op [UInt8.ofNat (17 + t)]
    pure (dst, op + 1)
  else if t ≤ 3 then do
    let dst ← addLiterals dst op t
    pure (dst, op)
  else storeRunLength dst op t

def storeLastLiterals (t op : Nat) (dst : List UInt8) : Access (List UInt8 × Nat) :=
  if 0 < t then do
    let (dst, op) ← storeLastLength t op dst
    let dst ← copyWords (copyFrom src) dst op (src.length - t) t
    pure (dst, op + t)
  else pure (dst, op)

/-- `lzo1x_1_compress`: the length it stores and the output buffer; its status is `LZO_E_OK`. -/
def lzo1x1Compress (dst : List UInt8) : Access (Nat × List UInt8) := do
  let (t, op, dst) ← compressChunks src dst
  let (dst, op) ← storeLastLiterals src t op dst
  let dst ← write dst op [UInt8.ofNat (M4_MARKER ||| 1)]
  let dst ← write dst (op + 1) [0]
  let dst ← write dst (op + 2) [0]
  pure (op + 3, dst)

end

end MobilePIM.Lzo
