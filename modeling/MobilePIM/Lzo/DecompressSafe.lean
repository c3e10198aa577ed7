import MobilePIM.Foundation.Guarded
import MobilePIM.Lzo.Decompress

/-!
`lzo1x_decompress_safe`, the same decoder with its checks. Three bytes have to be
left in front of every instruction, since an end is that long, and no later check
asks for them again.
-/

namespace MobilePIM.Lzo

open Memory Total

/-- Where the labels of the overruns lead. -/
def overrun (status : Status) (c : Cursor) : Status × Nat × List UInt8 := (status, c.op, c.dst)

section
variable (src : List UInt8)

/-- `NEED_IP`. -/
def needIP {α : Type} (n : Nat) (c : Cursor)
    (rest : Access (α ⊕ (Status × Nat × List UInt8))) :
    Access (α ⊕ (Status × Nat × List UInt8)) :=
  if src.length - c.ip < n then .ok (.inr (overrun .inputOverrun c)) else rest

/-- `NEED_OP`. -/
def needOP {α : Type} (n : Nat) (c : Cursor)
    (rest : Access (α ⊕ (Status × Nat × List UInt8))) :
    Access (α ⊕ (Status × Nat × List UInt8)) :=
  if c.dst.length - c.op < n then .ok (.inr (overrun .outputOverrun c)) else rest

/-- `TEST_LB`. -/
def testLB {α : Type} (offset : Nat) (c : Cursor)
    (rest : Access (α ⊕ (Status × Nat × List UInt8))) :
    Access (α ⊕ (Status × Nat × List UInt8)) :=
  if c.op < offset ∨ offset = 0 then .ok (.inr (overrun .lookbehindOverrun c)) else rest

/-- The length `t`, or the one continued in bytes; what leads to `tooLong` keeps its sum from
passing the end of the 64-bit numbers. -/
def safeContinueLength (tooLong : Status) (base t : Nat) (c : Cursor) :
    Access ((Nat × Nat) ⊕ (Status × Nat × List UInt8)) :=
  if t = 0 then
    loop .outOfFuel
      (fun (t, ip) => do
        let b ← byte src ip
        if b = 0 then
          if 2 ^ 64 - 511 < t + 255 then .ok (.inr (.inr (overrun tooLong c)))
          else if src.length - (ip + 1) < 1 then .ok (.inr (.inr (overrun .inputOverrun c)))
          else .ok (.inl (t + 255, ip + 1))
        else .ok (.inr (.inl (t + (base + b.toNat), ip + 1))))
      (src.length + 1) (t, c.ip)
  else .ok (.inl (t, c.ip))

/-- The length of a long match; its offset has to be there as well. -/
def safeMatchLength (base t : Nat) (c : Cursor) :
    Access ((Nat × Nat) ⊕ (Status × Nat × List UInt8)) :=
  andThen (safeContinueLength src .outputOverrun base t c) fun (t', ip) =>
    if t = 0 then needIP src 2 { c with ip := ip } (.ok (.inl (t', ip))) else .ok (.inl (t', ip))

def safeMatchNext (t : Nat) (c : Cursor) :
    Access ((Place × Cursor) ⊕ (Status × Nat × List UInt8)) :=
  needOP t c (needIP src (t + 3) c (Sum.inl <$> matchNext src t c))

def safeMatchDone (c : Cursor) : Access ((Place × Cursor) ⊕ (Status × Nat × List UInt8)) := do
  let b ← byte src (c.ip - 2)
  let t := b.toNat &&& 3
  if t = 0 then .ok (.inl (.matched, c)) else safeMatchNext src t c

/-- A match of `length` bytes, whose copy `copyAll` is. -/
def safeMatch (copyAll : Nat → Access (List UInt8)) (offset length : Nat) (c : Cursor) :
    Access ((Place × Cursor) ⊕ (Status × Nat × List UInt8)) :=
  testLB offset c (needOP length c (do
    let dst ← copyAll (c.op - offset)
    safeMatchDone src ⟨c.ip, c.op + length, dst⟩))

def safeCopyMatch (offset length : Nat) (c : Cursor) :
    Access ((Place × Cursor) ⊕ (Status × Nat × List UInt8)) :=
  safeMatch src (fun m => copyBytes copyWithin c.dst c.op m length) offset length c

def safeCopyLongMatch (offset length : Nat) (c : Cursor) :
    Access ((Place × Cursor) ⊕ (Status × Nat × List UInt8)) :=
  safeMatch src (fun m => copyLong c.dst c.op m length) offset length c

def safeNearMatch (offset : Nat → Nat) (length : Nat) (c : Cursor) :
    Access ((Place × Cursor) ⊕ (Status × Nat × List UInt8)) := do
  let b ← byte src c.ip
  safeCopyMatch src (offset b.toNat) length { c with ip := c.ip + 1 }

def safeMatchTurn (t : Nat) (c : Cursor) :
    Access ((Place × Cursor) ⊕ (Status × Nat × List UInt8)) :=
  if 64 ≤ t then
    safeNearMatch src (fun b => 1 + ((t >>> 2) &&& 7) + (b <<< 3)) ((t >>> 5) - 1 + 2) c
  else if 32 ≤ t then
    andThen (safeMatchLength src 31 (t &&& 31) c) fun (t, ip) => do
      let off ← readLE16 src ip
      safeCopyLongMatch src (1 + (off >>> 2)) (t + 2) { c with ip := ip + 2 }
  else if 16 ≤ t then
    let far := (t &&& 8) <<< 11
    andThen (safeMatchLength src 7 (t &&& 7) c) fun (t, ip) => do
      let off ← readLE16 src ip
      if far + (off >>> 2) = 0 then .ok (.inr (eofFound src { c with ip := ip + 2 }))
      else safeCopyLongMatch src (far + (off >>> 2) + 0x4000) (t + 2) { c with ip := ip + 2 }
  else safeNearMatch src (fun b => 1 + (t >>> 2) + (b <<< 2)) 2 c

def safeLiteralRun (t : Nat) (c : Cursor) :
    Access ((Place × Cursor) ⊕ (Status × Nat × List UInt8)) :=
  andThen (safeContinueLength src .inputOverrun 15 t c) fun (t, ip) =>
    needOP (t + 3) c (needIP src (t + 6) { c with ip := ip } (do
      let dst ← copyWords (copyFrom src) c.dst c.op ip (t + 3)
      .ok (.inl (.run, ⟨ip + (t + 3), c.op + (t + 3), dst⟩))))

/-- One instruction. Only behind a match without literals is there a check in front of it. -/
def safeTurn : Place × Cursor → Access ((Place × Cursor) ⊕ (Status × Nat × List UInt8))
  | (.matched, c) => needIP src 3 c do
      let tok ← byte src c.ip
      let t := tok.toNat
      let c := { c with ip := c.ip + 1 }
      if 16 ≤ t then safeMatchTurn src t c else safeLiteralRun src t c
  | (.run, c) => do
      let tok ← byte src c.ip
      let t := tok.toNat
      let c := { c with ip := c.ip + 1 }
      if 16 ≤ t then safeMatchTurn src t c
      else safeNearMatch src (fun b => 1 + M2_MAX_OFFSET + (t >>> 2) + (b <<< 2)) 3 c
  | (.literals, c) => do
      let tok ← byte src c.ip
      safeMatchTurn src tok.toNat { c with ip := c.ip + 1 }

def safeFirstLiterals (dst : List UInt8) :
    Access ((Place × Cursor) ⊕ (Status × Nat × List UInt8)) :=
  needIP src 1 ⟨0, 0, dst⟩ do
    let tok ← byte src 0
    if 17 < tok.toNat then
      let t := tok.toNat - 17
      if t < 4 then safeMatchNext src t ⟨1, 0, dst⟩
      else needOP t ⟨1, 0, dst⟩ (needIP src (t + 3) ⟨1, 0, dst⟩ (do
        let dst ← copyBytes (copyFrom src) dst 0 1 t
        .ok (.inl (.run, ⟨1 + t, t, dst⟩))))
    else .ok (.inl (.matched, ⟨0, 0, dst⟩))

/-- `lzo1x_decompress_safe`. -/
def lzo1xDecompressSafe (dst : List UInt8) : Access (Status × Nat × List UInt8) := do
  let first ← safeFirstLiterals src dst
  first.elim (loop .outOfFuel (safeTurn src) (src.length + 1)) .ok

end

end MobilePIM.Lzo
