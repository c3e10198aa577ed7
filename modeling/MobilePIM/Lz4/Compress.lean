import MobilePIM.Lz4.Copy
import MobilePIM.Lz4.Match

/-!
`LZ4_compress_default`: `LZ4_compress_generic` without a dictionary, for inputs
whose positions fit 16 bits and for longer ones, with and without a limit on the
output. Its main loop goes between the search for a match and `_next_match`.
-/

namespace MobilePIM.Lz4

open Memory Total

def LZ4_MAX_INPUT_SIZE : Nat := 0x7E000000
def LZ4_minLength : Nat := MFLIMIT + 1
def LZ4_64Klimit : Nat := 65536 + (MFLIMIT - 1)
def LZ4_skipTrigger : Nat := 6
def LZ4_ACCELERATION_DEFAULT : Int := 1
def LZ4_ACCELERATION_MAX : Int := 65537

/-- `limitedOutput_directive`; `fillOutput` is for `LZ4_compress_destSize` alone. -/
inductive LimitedOutput
  | notLimited | limitedOutput
deriving DecidableEq, Repr

/-- `LZ4_compressBound`. -/
def compressBound (isize : Nat) : Nat :=
  if isize > LZ4_MAX_INPUT_SIZE then 0 else isize + isize / 255 + 16

/-- `for (; len >= 255; len -= 255) *op++ = 255; *op++ = len;` -/
def writeRun (dst : List UInt8) (op len : Nat) : Access (List UInt8 × Nat) :=
  loop .outOfFuel
    (fun (dst, op, len) =>
      if 255 ≤ len then do
        let dst ← write dst op [255]
        pure (.inl (dst, op + 1, len - 255))
      else do
        let dst ← write dst op [UInt8.ofNat len]
        pure (.inr (dst, op + 1)))
    (len + 1) (dst, op, len)

/-- The token of a run of literals, without a match length, and its continuation. -/
def writeLiteralLength (dst : List UInt8) (op length : Nat) : Access (List UInt8 × Nat) :=
  if RUN_MASK ≤ length then do
    let dst ← write dst op [UInt8.ofNat (RUN_MASK <<< ML_BITS)]
    writeRun dst (op + 1) (length - RUN_MASK)
  else do
    let dst ← write dst op [UInt8.ofNat (length <<< ML_BITS)]
    pure (dst, op + 1)

/-- The continuation of a match length: four bytes of 255 at a time, and then the one
that takes the place of the first that is too much. -/
def writeMatchRun (dst : List UInt8) (op matchCode : Nat) : Access (List UInt8 × Nat) := do
  let dst ← write dst op [255, 255, 255, 255]
  let (dst, op, matchCode) ← loop .outOfFuel
    (fun (dst, op, matchCode) =>
      if 4 * 255 ≤ matchCode then do
        let op := op + 4
        let dst ← write dst op [255, 255, 255, 255]
        pure (.inl (dst, op, matchCode - 4 * 255))
      else pure (.inr (dst, op, matchCode)))
    (matchCode + 1) (dst, op, matchCode)
  let op := op + matchCode / 255
  let dst ← write dst op [UInt8.ofNat (matchCode % 255)]
  pure (dst, op + 1)

/-- `*token += n`. -/
def addToToken (dst : List UInt8) (token n : Nat) : Access (List UInt8) := do
  let tok ← byte dst token
  write dst token [tok + UInt8.ofNat n]

/-- The variables of the main loop; positions of the source are counted from its start. -/
structure State (t : TableType) where
  anchor : Nat
  ip : Nat
  op : Nat
  dst : List UInt8
  table : HashTable t

/-- Where the main loop stands: before the search, or at `_next_match`. -/
inductive Phase (t : TableType)
  | search (forwardH : Fin (2 ^ t.hashLog)) (s : State t)
  | nextMatch (token m : Nat) (s : State t)

section
variable (src : List UInt8) {t : TableType} (limited : LimitedOutput) (olimit : Nat)

/-- The search for a match: its position, the one of the match, and the table. There is
none once the next position lies behind the last one a match may start at. -/
def findMatch (acceleration : Nat) (ip : Nat) (forwardH : Fin (2 ^ t.hashLog))
    (table : HashTable t) : Access (Option (Nat × Nat × HashTable t)) :=
  loop .outOfFuel
    (fun (forwardIp, step, searchMatchNb, h, table) => do
      let current := forwardIp
      let matchIndex := table h
      let forwardIp := forwardIp + step
      let step := searchMatchNb >>> LZ4_skipTrigger
      if src.length - MFLIMIT + 1 < forwardIp then pure (.inr none)
      else do
        let forwardH ← hashPosition src forwardIp t
        let table := putIndexOnHash current h table
        if t = .byU32 ∧ matchIndex + LZ4_DISTANCE_MAX < current then
          pure (.inl (forwardIp, step, searchMatchNb + 1, forwardH, table))
        else do
          let a ← read32 src matchIndex
          let b ← read32 src current
          pure (if a = b then .inr (some (current, matchIndex, table))
            else .inl (forwardIp, step, searchMatchNb + 1, forwardH, table)))
    (src.length + 1) (ip, 1, acceleration <<< LZ4_skipTrigger, forwardH, table)

/-- Bytes in front of both positions that agree as well, back to the anchor. -/
def catchUp (anchor ip m : Nat) : Access (Nat × Nat) :=
  loop .outOfFuel
    (fun (ip, m) =>
      if anchor < ip ∧ 0 < m then do
        let a ← byte src (ip - 1)
        let b ← byte src (m - 1)
        pure (if a = b then .inl (ip - 1, m - 1) else .inr (ip, m))
      else pure (.inr (ip, m)))
    (ip + 1) (ip, m)

/-- The literals in front of a match; nothing where the output may be too small. -/
def encodeLiterals (anchor ip op : Nat) (dst : List UInt8) :
    Access (Option (Nat × List UInt8)) :=
  let litLength := ip - anchor
  if limited = .limitedOutput ∧
      olimit < op + 1 + litLength + (2 + 1 + LASTLITERALS) + litLength / 255 then pure none
  else do
    let (dst, op) ← writeLiteralLength dst op litLength
    let dst ← wildCopy8 (copyFrom src) dst op anchor (op + litLength)
    pure (some (op + litLength, dst))

/-- The offset and the length of a match, and the positions behind it. Where the output may
be too small, the offset has been written already. -/
def encodeMatch (token ip m op : Nat) (dst : List UInt8) :
    Access (List UInt8 ⊕ (Nat × Nat × List UInt8)) := do
  let dst ← write dst op (offsetBytes (UInt16.ofNat (ip - m)))
  let op := op + 2
  let matchCode ← count src (ip + MINMATCH) (m + MINMATCH) (src.length - LASTLITERALS)
  let ip := ip + matchCode + MINMATCH
  if limited = .limitedOutput ∧ olimit < op + (1 + LASTLITERALS) + (matchCode + 240) / 255 then
    pure (.inl dst)
  else if ML_MASK ≤ matchCode then do
    let dst ← addToToken dst token ML_MASK
    let (dst, op) ← writeMatchRun dst op (matchCode - ML_MASK)
    pure (.inr (ip, op, dst))
  else do
    let dst ← addToToken dst token matchCode
    pure (.inr (ip, op, dst))

/-- `_last_literals`: the number of bytes written, 0 where they do not fit. -/
def lastLiterals (anchor op : Nat) (dst : List UInt8) : Access (Nat × List UInt8) :=
  let lastRun := src.length - anchor
  if limited = .limitedOutput ∧
      olimit < op + lastRun + 1 + (lastRun + 255 - RUN_MASK) / 255 then pure (0, dst)
  else do
    let (dst, op) ← writeLiteralLength dst op lastRun
    let dst ← copyFrom src dst op anchor lastRun
    pure (op + lastRun, dst)

/-- From the search for a match up to `_next_match`. -/
def searchTurn (acceleration : Nat) (forwardH : Fin (2 ^ t.hashLog)) (s : State t) :
    Access (Phase t ⊕ (Nat × List UInt8)) := do
  match ← findMatch src acceleration s.ip forwardH s.table with
  | none => do
      let r ← lastLiterals src limited olimit s.anchor s.op s.dst
      pure (.inr r)
  | some (ip, m, table) => do
      let (ip, m) ← catchUp src s.anchor ip m
      match ← encodeLiterals src limited olimit s.anchor ip s.op s.dst with
      | none => pure (.inr (0, s.dst))
      | some (op, dst) => pure (.inl (.nextMatch s.op m ⟨s.anchor, ip, op, dst, table⟩))

/-- Whether another match starts where the last one ends. -/
def matchFollows (t : TableType) (ip m : Nat) : Access Bool :=
  if t = .byU16 ∨ ip ≤ m + LZ4_DISTANCE_MAX then do
    let a ← read32 src m
    let b ← read32 src ip
    pure (decide (a = b))
  else pure false

/-- From `_next_match` to the next search, or back at once if a match follows directly. -/
def matchTurn (token m : Nat) (s : State t) : Access (Phase t ⊕ (Nat × List UInt8)) := do
  match ← encodeMatch src limited olimit token s.ip m s.op s.dst with
  | .inl dst => pure (.inr (0, dst))
  | .inr (ip, op, dst) =>
      if src.length - MFLIMIT + 1 ≤ ip then do
        let r ← lastLiterals src limited olimit ip op dst
        pure (.inr r)
      else do
        let table ← putPosition src (ip - 2) s.table
        let h ← hashPosition src ip t
        let matchIndex := table h
        let table := putIndexOnHash ip h table
        if ← matchFollows src t ip matchIndex then do
          let dst ← write dst op [0]
          pure (.inl (.nextMatch op matchIndex ⟨ip, ip, op + 1, dst, table⟩))
        else do
          let forwardH ← hashPosition src (ip + 1) t
          pure (.inl (.search forwardH ⟨ip, ip + 1, op, dst, table⟩))

def compressTurn (acceleration : Nat) : Phase t → Access (Phase t ⊕ (Nat × List UInt8))
  | .search forwardH s => searchTurn src limited olimit acceleration forwardH s
  | .nextMatch token m s => matchTurn src limited olimit token m s

/-- `LZ4_compress_generic_validated`, in a fresh state. -/
def compressGenericValidated (t : TableType) (acceleration : Nat) (dst : List UInt8) :
    Access (Nat × List UInt8) :=
  if t = .byU16 ∧ LZ4_64Klimit ≤ src.length then pure (0, dst)
  else if src.length < LZ4_minLength then lastLiterals src limited olimit 0 0 dst
  else do
    let table ← putPosition src 0 (fun _ => 0 : HashTable t)
    let forwardH ← hashPosition src 1 t
    loop .outOfFuel (compressTurn src limited olimit acceleration) (2 * src.length + 3)
      (.search forwardH ⟨0, 1, 0, dst, table⟩)

/-- `LZ4_compress_generic`. -/
def compressGeneric (t : TableType) (acceleration : Nat) (dst : List UInt8) :
    Access (Nat × List UInt8) :=
  if LZ4_MAX_INPUT_SIZE < src.length then pure (0, dst)
  else if src.length = 0 then
    if limited = .limitedOutput ∧ olimit ≤ 0 then pure (0, dst)
    else do
      let dst ← write dst 0 [0]
      pure (1, dst)
  else compressGenericValidated src limited olimit t acceleration dst

end

/-- `LZ4_compress_fast` with `LZ4_compress_fast_extState` on a fresh state; the sizes are
those of the buffers. -/
def compressFast (src dst : List UInt8) (acceleration : Int) : Access (Nat × List UInt8) :=
  let acceleration := if acceleration < 1 then LZ4_ACCELERATION_DEFAULT else acceleration
  let acceleration := if LZ4_ACCELERATION_MAX < acceleration then LZ4_ACCELERATION_MAX
    else acceleration
  let t := if src.length < LZ4_64Klimit then TableType.byU16 else .byU32
  if compressBound src.length ≤ dst.length then
    compressGeneric src .notLimited 0 t acceleration.toNat dst
  else compressGeneric src .limitedOutput dst.length t acceleration.toNat dst

def compressDefault (src dst : List UInt8) : Access (Nat × List UInt8) := compressFast src dst 1

end MobilePIM.Lz4
