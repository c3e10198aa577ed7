import MobilePIM.Lzo.Copy
import MobilePIM.Lzo.Format

/-!
`lzo1x_decompress` of a 64-bit machine, which checks no bound. The labels its
loops jump to are the places an instruction may stand at: the top of the outer
loop behind a match, `first_literal_run` behind a run, and `match` behind
`match_next`.
-/

namespace MobilePIM.Lzo

open Memory Total

inductive Status
  | ok | inputNotConsumed | inputOverrun | outputOverrun | lookbehindOverrun
deriving DecidableEq, Repr

structure Cursor where
  ip : Nat
  op : Nat
  dst : List UInt8

/-- `UA_GET_LE16`. -/
def readLE16 (src : List UInt8) (ip : Nat) : Access Nat := do
  let w ← readWord 2 src ip
  pure w.toNat

section
variable (src : List UInt8)

/-- The length `t`, or if that is zero the one continued in bytes. -/
def continueLength (base t ip : Nat) : Access (Nat × Nat) :=
  if t = 0 then
    loop .outOfFuel
      (fun (t, ip) => do
        let b ← byte src ip
        pure (if b = 0 then .inl (t + 255, ip + 1) else .inr (t + (base + b.toNat), ip + 1)))
      (src.length + 1) (t, ip)
  else pure (t, ip)

/-- Where a match starts. In front of the output there is nothing to be read. -/
def lookBehind (op offset : Nat) : Access Nat :=
  if offset ≤ op then pure (op - offset) else .error (.load 0)

def matchNext (t : Nat) (c : Cursor) : Access (Place × Cursor) := do
  let dst ← copyBytes (copyFrom src) c.dst c.op c.ip t
  pure (.literals, ⟨c.ip + t, c.op + t, dst⟩)

def matchDone (c : Cursor) : Access (Place × Cursor) := do
  let b ← byte src (c.ip - 2)
  let t := b.toNat &&& 3
  if t = 0 then pure (.matched, c) else matchNext src t c

/-- `copy_match` for a match of `length` bytes. -/
def copyMatch (offset length : Nat) (c : Cursor) : Access (Place × Cursor) := do
  let m ← lookBehind c.op offset
  let dst ← copyBytes copyWithin c.dst c.op m length
  matchDone src ⟨c.ip, c.op + length, dst⟩

/-- By words where the match starts far enough in front of the output. -/
def copyLong (dst : List UInt8) (op m length : Nat) : Access (List UInt8) :=
  if 8 ≤ op - m then copyWords copyWithin dst op m length
  else copyBytes copyWithin dst op m length

/-- A match of the two longer forms. -/
def copyLongMatch (offset length : Nat) (c : Cursor) : Access (Place × Cursor) := do
  let m ← lookBehind c.op offset
  let dst ← copyLong c.dst c.op m length
  matchDone src ⟨c.ip, c.op + length, dst⟩

/-- A match whose offset ends in the next byte. -/
def nearMatch (offset : Nat → Nat) (length : Nat) (c : Cursor) : Access (Place × Cursor) := do
  let b ← byte src c.ip
  copyMatch src (offset b.toNat) length { c with ip := c.ip + 1 }

/-- What `eof_found` returns. -/
def eofFound (c : Cursor) : Status × Nat × List UInt8 :=
  (if c.ip = src.length then .ok
    else if c.ip < src.length then .inputNotConsumed else .inputOverrun, c.op, c.dst)

/-- From the label `match` on. -/
def matchTurn (t : Nat) (c : Cursor) : Access ((Place × Cursor) ⊕ (Status × Nat × List UInt8)) :=
  if 64 ≤ t then
    Sum.inl <$> nearMatch src (fun b => 1 + ((t >>> 2) &&& 7) + (b <<< 3)) ((t >>> 5) - 1 + 2) c
  else if 32 ≤ t then do
    let (t, ip) ← continueLength src 31 (t &&& 31) c.ip
    let off ← readLE16 src ip
    Sum.inl <$> copyLongMatch src (1 + (off >>> 2)) (t + 2) { c with ip := ip + 2 }
  else if 16 ≤ t then do
    let far := (t &&& 8) <<< 11
    let (t, ip) ← continueLength src 7 (t &&& 7) c.ip
    let off ← readLE16 src ip
    if far + (off >>> 2) = 0 then pure (.inr (eofFound src { c with ip := ip + 2 }))
    else Sum.inl <$>
      copyLongMatch src (far + (off >>> 2) + 0x4000) (t + 2) { c with ip := ip + 2 }
  else Sum.inl <$> nearMatch src (fun b => 1 + (t >>> 2) + (b <<< 2)) 2 c

def literalRun (t : Nat) (c : Cursor) : Access (Place × Cursor) := do
  let (t, ip) ← continueLength src 15 t c.ip
  let dst ← copyWords (copyFrom src) c.dst c.op ip (t + 3)
  pure (.run, ⟨ip + (t + 3), c.op + (t + 3), dst⟩)

/-- One instruction, from the label its place is. -/
def turn : Place × Cursor → Access ((Place × Cursor) ⊕ (Status × Nat × List UInt8))
  | (place, c) => do
      let tok ← byte src c.ip
      let t := tok.toNat
      let c := { c with ip := c.ip + 1 }
      match place with
      | .matched => if 16 ≤ t then matchTurn src t c else Sum.inl <$> literalRun src t c
      | .run =>
          if 16 ≤ t then matchTurn src t c
          else Sum.inl <$>
            nearMatch src (fun b => 1 + M2_MAX_OFFSET + (t >>> 2) + (b <<< 2)) 3 c
      | .literals => matchTurn src t c

/-- Where the loop starts: behind the literals that a first byte above 17 counts. -/
def firstLiterals (dst : List UInt8) : Access (Place × Cursor) := do
  let tok ← byte src 0
  if 17 < tok.toNat then
    let t := tok.toNat - 17
    if t < 4 then matchNext src t ⟨1, 0, dst⟩
    else do
      let dst ← copyBytes (copyFrom src) dst 0 1 t
      pure (.run, ⟨1 + t, t, dst⟩)
  else pure (.matched, ⟨0, 0, dst⟩)

/-- `lzo1x_decompress`: its status, the length it stores and the output buffer. -/
def lzo1xDecompress (dst : List UInt8) : Access (Status × Nat × List UInt8) := do
  let s ← firstLiterals src dst
  loop .outOfFuel (turn src) (src.length + 1) s

end

end MobilePIM.Lzo
