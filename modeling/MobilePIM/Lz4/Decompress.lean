import MobilePIM.Lz4.Copy
import MobilePIM.Lz4.Format

/-!
`LZ4_decompress_safe`: `LZ4_decompress_generic` for a whole block without a
dictionary. The fast loop runs as long as a turn may write 64 bytes, the safe loop
decodes the rest; every label of the source that is jumped to is a definition.
-/

namespace MobilePIM.Lz4

open Memory Total

def FASTLOOP_SAFE_DISTANCE : Nat := 64

/-- `(2*WILDCOPYLENGTH) - MINMATCH` -/
def MATCH_SAFEGUARD_DISTANCE : Nat := 12

structure Cursor where
  ip : Nat
  op : Nat
  dst : List UInt8

/-- Where control goes: to a turn of one of the loops, or out of them. -/
inductive Outcome
  | fastLoop (c : Cursor)
  | safeLoop (c : Cursor)
  | decoded (c : Cursor)
  | outputError (ip : Nat) (dst : List UInt8)

/-- The next turn, the flag telling the fast loop, or the result and the output buffer. -/
def Outcome.next : Outcome → (Bool × Cursor) ⊕ (Int × List UInt8)
  | .fastLoop c => .inl (true, c)
  | .safeLoop c => .inl (false, c)
  | .decoded c => .inr (c.op, c.dst)
  | .outputError ip dst => .inr (-(ip : Int) - 1, dst)

def readLE16 (src : List UInt8) (ip : Nat) : Access Nat := do
  let bytes ← load src ip 2
  pure (Words.leNat bytes)

/-- The length, nothing for `rvl_error`, and the advanced `ip`. -/
def readVariableLength (src : List UInt8) (ip : Nat) (ilimit : Int) (initialCheck : Bool) :
    Access (Option Nat × Nat) :=
  if initialCheck ∧ ilimit ≤ ip then pure (none, ip)
  else
    loop .outOfFuel
      (fun (ip, length) => do
        let s ← byte src ip
        let ip := ip + 1
        let length := length + s.toNat
        pure (if ilimit < ip then .inr (none, ip)
          else if s = 255 then .inl (ip, length)
          else .inr (some length, ip)))
      (src.length + 1) (ip, 0)

/-- Three block copies of 18 bytes together. -/
def copyEighteen (dst : List UInt8) (op m : Nat) : Access (List UInt8) := do
  let dst ← copyWithin dst op m 8
  let dst ← copyWithin dst (op + 8) (m + 8) 8
  copyWithin dst (op + 16) (m + 16) 2

section
variable (src : List UInt8) (oend : Nat)

/-- `safe_match_copy`. A match that starts below the output is an error; `match` is
`op - offset` otherwise. -/
def safeMatchCopy (offset length : Nat) (c : Cursor) : Access Outcome :=
  if c.op < offset then pure (.outputError c.ip c.dst)
  else do
    let cpy := c.op + length
    let (dst, m) ← copyEight c.dst c.op (c.op - offset) offset
    let op := c.op + 8
    if oend < cpy + MATCH_SAFEGUARD_DISTANCE then
      let oCopyLimit := oend - (WILDCOPYLENGTH - 1)
      if oend < cpy + LASTLITERALS then pure (.outputError c.ip dst)
      else if op < oCopyLimit then do
        let dst ← wildCopy8 copyWithin dst op m oCopyLimit
        let dst ← byteCopy dst oCopyLimit (m + (oCopyLimit - op)) cpy
        pure (.safeLoop ⟨c.ip, cpy, dst⟩)
      else do
        let dst ← byteCopy dst op m cpy
        pure (.safeLoop ⟨c.ip, cpy, dst⟩)
    else do
      let dst ← copyWithin dst op m 8
      if length > 16 then do
        let dst ← wildCopy8 copyWithin dst (op + 8) (m + 8) cpy
        pure (.safeLoop ⟨c.ip, cpy, dst⟩)
      else pure (.safeLoop ⟨c.ip, cpy, dst⟩)

/-- `_copy_match`, with the match length of the token. -/
def copyMatch (offset length : Nat) (c : Cursor) : Access Outcome :=
  if length = ML_MASK then do
    let (addl, ip) ← readVariableLength src c.ip (src.length - LASTLITERALS + 1) false
    match addl with
    | none => pure (.outputError ip c.dst)
    | some addl => safeMatchCopy oend offset (length + addl + MINMATCH) { c with ip }
  else safeMatchCopy oend offset (length + MINMATCH) c

/-- `safe_literal_copy`, and on to the match behind the literals. -/
def safeLiteralCopy (token : UInt8) (length : Nat) (c : Cursor) : Access Outcome :=
  let cpy := c.op + length
  if oend < cpy + MFLIMIT ∨ src.length < c.ip + length + (2 + 1 + LASTLITERALS) then
    if c.ip + length ≠ src.length ∨ oend < cpy then pure (.outputError c.ip c.dst)
    else do
      let dst ← copyFrom src c.dst c.op c.ip length
      pure (.decoded ⟨c.ip + length, cpy, dst⟩)
  else do
    let dst ← wildCopy8 (copyFrom src) c.dst c.op c.ip cpy
    let ip := c.ip + length
    let offset ← readLE16 src ip
    copyMatch src oend offset (token.toNat &&& ML_MASK) ⟨ip + 2, cpy, dst⟩

/-- A turn of the main loop. -/
def safeTurn (c : Cursor) : Access Outcome := do
  let token ← byte src c.ip
  let ip := c.ip + 1
  let length := token.toNat >>> ML_BITS
  -- the shortcut: 16 bytes for the literals and 18 for the match at once
  if length ≠ RUN_MASK ∧ ip + (14 + 2) < src.length ∧ c.op + (14 + 18) ≤ oend then do
    let dst ← copyFrom src c.dst c.op ip 16
    let op := c.op + length
    let ip := ip + length
    let length := token.toNat &&& ML_MASK
    let offset ← readLE16 src ip
    let ip := ip + 2
    if length ≠ ML_MASK ∧ 8 ≤ offset ∧ offset ≤ op then do
      let dst ← copyEighteen dst op (op - offset)
      pure (.safeLoop ⟨ip, op + (length + MINMATCH), dst⟩)
    else copyMatch src oend offset length ⟨ip, op, dst⟩
  else if length = RUN_MASK then do
    let (addl, ip) ← readVariableLength src ip (src.length - RUN_MASK) true
    match addl with
    | none => pure (.outputError ip c.dst)
    | some addl => safeLiteralCopy src oend token (length + addl) { c with ip }
  else safeLiteralCopy src oend token length { c with ip }

/-- The end of a turn of the fast loop: the match within the block. -/
def fastCopyMatch (offset length : Nat) (c : Cursor) : Access Outcome :=
  if c.op < offset then pure (.outputError c.ip c.dst)
  else do
    let cpy := c.op + length
    let dst ←
      if offset < 16 then memcpyUsingOffset c.dst c.op (c.op - offset) cpy offset
      else wildCopy32 copyWithin c.dst c.op (c.op - offset) cpy
    pure (.fastLoop ⟨c.ip, cpy, dst⟩)

/-- The second half of a turn of the fast loop: offset and match length. -/
def fastMatch (token : UInt8) (c : Cursor) : Access Outcome := do
  let offset ← readLE16 src c.ip
  let ip := c.ip + 2
  let length := token.toNat &&& ML_MASK
  if length = ML_MASK then do
    let (addl, ip) ← readVariableLength src ip (src.length - LASTLITERALS + 1) false
    match addl with
    | none => pure (.outputError ip c.dst)
    | some addl =>
        let length := length + addl + MINMATCH
        if c.op < offset then pure (.outputError ip c.dst)
        else if oend ≤ c.op + length + FASTLOOP_SAFE_DISTANCE then
          safeMatchCopy oend offset length { c with ip }
        else fastCopyMatch offset length { c with ip }
  else
    let length := length + MINMATCH
    if oend ≤ c.op + length + FASTLOOP_SAFE_DISTANCE then
      safeMatchCopy oend offset length { c with ip }
    else if offset ≤ c.op ∧ 8 ≤ offset then do
      let dst ← copyEighteen c.dst c.op (c.op - offset)
      pure (.fastLoop ⟨ip, c.op + length, dst⟩)
    else fastCopyMatch offset length { c with ip }

/-- A turn of the fast loop. -/
def fastTurn (c : Cursor) : Access Outcome := do
  let token ← byte src c.ip
  let ip := c.ip + 1
  let length := token.toNat >>> ML_BITS
  if length = RUN_MASK then do
    let (addl, ip) ← readVariableLength src ip (src.length - RUN_MASK) true
    match addl with
    | none => pure (.outputError ip c.dst)
    | some addl =>
        let length := length + addl
        let cpy := c.op + length
        if oend < cpy + 32 ∨ src.length < ip + length + 32 then
          safeLiteralCopy src oend token length { c with ip }
        else do
          let dst ← wildCopy32 (copyFrom src) c.dst c.op ip cpy
          fastMatch src oend token ⟨ip + length, cpy, dst⟩
  else if src.length < ip + (16 + 1) then safeLiteralCopy src oend token length { c with ip }
  else do
    let dst ← copyFrom src c.dst c.op ip 16
    fastMatch src oend token ⟨ip + length, c.op + length, dst⟩

/-- A turn of the loop the flag tells. -/
def turn : Bool × Cursor → Access ((Bool × Cursor) ⊕ (Int × List UInt8))
  | (true, c) => do
      let outcome ← fastTurn src oend c
      pure outcome.next
  | (false, c) => do
      let outcome ← safeTurn src oend c
      pure outcome.next

end

/-- `LZ4_decompress_generic` with `decode_full_block` and `noDict`: what it returns,
and the output buffer. -/
def decompressGeneric (src dst : List UInt8) : Access (Int × List UInt8) :=
  if dst.length = 0 then
    if src.length = 1 then do
      let b ← byte src 0
      pure (if b = 0 then 0 else -1, dst)
    else pure (-1, dst)
  else if src.length = 0 then pure (-1, dst)
  else
    loop .outOfFuel (turn src dst.length) (src.length + 1)
      (decide (FASTLOOP_SAFE_DISTANCE ≤ dst.length), ⟨0, 0, dst⟩)

/-- `LZ4_decompress_safe`; the sizes are those of the buffers. -/
def decompressSafe (src dst : List UInt8) : Access (Int × List UInt8) := decompressGeneric src dst

end MobilePIM.Lz4
