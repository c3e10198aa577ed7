import MobilePIM.Fresh
import MobilePIM.Lzo.Compress
import MobilePIM.Lzo.Decoding

/-!
What the buffer held before has no part in what LZO does. The compressor completes
bytes that it has written before and copies more literals than it has, and still
writes every byte of its block; the decoder reads only what it has written.
-/

namespace MobilePIM.Lzo

open Memory Total

variable {src dst dst' : List UInt8} {op s t : Nat}

section Copies

variable {copy : List UInt8 → Nat → Nat → Nat → Access (List UInt8)}

theorem alike_copyBlocks (k : Nat)
    (step : ∀ dst dst' op s, SameTo op dst dst' →
      Alike (copy dst op s k) (copy dst' op s k) (SameTo (op + k)))
    (h : SameTo op dst dst') :
    Alike (copyBlocks k copy dst op s t) (copyBlocks k copy dst' op s t) fun x y =>
      x.2 = y.2 ∧ x.2.1 + x.2.2.2 = op + t ∧ x.2.2.2 < k ∧ SameTo x.2.1 x.1 y.1 := by
  refine Alike.loop (fun x y => x.2 = y.2 ∧ x.2.1 + x.2.2.2 = op + t ∧ SameTo x.2.1 x.1 y.1) _ ?_
    ⟨rfl, rfl, h⟩ _
  rintro ⟨dst, p, s, left⟩ ⟨dst', _, _, _⟩ ⟨⟨⟩, whole, before⟩
  refine Alike.ite ?_ ?_
  · intro more
    refine Alike.bind (step dst dst' p s before) ?_
    intro dst₁ dst₁' after
    have whole' : p + k + (left - k) = op + t := by
      have : p + left = op + t := whole
      omega
    exact Alike.ok (.inl ⟨rfl, whole', after⟩)
  · intro short
    exact Alike.ok (.inr ⟨rfl, whole, Nat.not_le.mp short, before⟩)

theorem alike_copyBytes (src : List UInt8) (h : SameTo op dst dst') (s t : Nat) :
    Alike (copyBytes (copyFrom src) dst op s t) (copyBytes (copyFrom src) dst' op s t)
      (SameTo (op + t)) := by
  refine Alike.bind (alike_copyBlocks 1 (fun _ _ _ s before => before.alike_copyFrom s 1) h) ?_
  rintro ⟨dst₁, p, s₁, left⟩ ⟨dst₁', _, _, _⟩ ⟨⟨⟩, whole, done, after⟩
  have position : p = op + t := by
    have : p + left = op + t := whole
    have : left < 1 := done
    omega
  subst position
  exact Alike.ok after

theorem alike_copyWords (h : SameTo op dst dst') (s t : Nat) :
    Alike (copyWords (copyFrom src) dst op s t) (copyWords (copyFrom src) dst' op s t)
      (SameTo (op + t)) := by
  refine Alike.bind (alike_copyBlocks 8 (fun _ _ _ s before => before.alike_copyFrom s 8) h) ?_
  rintro ⟨dst₁, p, s₁, left⟩ ⟨dst₁', _, _, _⟩ ⟨⟨⟩, whole, -, after⟩
  change p + left = op + t at whole
  refine Alike.ite ?_ ?_
  · intro more
    refine Alike.bind (after.alike_copyFrom s₁ 4) ?_
    intro dst₂ dst₂' four
    have rest := alike_copyBytes src four (s₁ + 4) (left - 4)
    have four_le : 4 ≤ left := more
    rwa [show p + 4 + (left - 4) = op + t by omega] at rest
  · intro _
    have rest := alike_copyBytes src after s₁ left
    rwa [whole] at rest

end Copies

theorem alike_storeRuns (h : SameTo op dst dst') (tt : Nat) :
    Alike (storeRuns dst op tt) (storeRuns dst' op tt) fun x y => Written x.2 y.2 x.1 y.1 := by
  refine Alike.loop (fun x y => x.2 = y.2 ∧ SameTo x.2.1 x.1 y.1) _ ?_ ⟨rfl, h⟩ _
  rintro ⟨dst, p, tt⟩ ⟨dst', _, _⟩ ⟨⟨⟩, before⟩
  refine Alike.ite ?_ ?_
  · intro _
    refine Alike.bind (before.alike_push [0]) ?_
    intro dst₁ dst₁' pushed
    exact Alike.ok (.inl ⟨rfl, pushed⟩)
  · intro _
    refine Alike.bind (before.alike_push [UInt8.ofNat tt]) ?_
    intro dst₁ dst₁' pushed
    exact Alike.ok (.inr ⟨rfl, pushed⟩)

/-- The byte that is completed has been written. -/
theorem alike_addLiterals (h : SameTo op dst dst') (t : Nat) :
    Alike (addLiterals dst op t) (addLiterals dst' op t) (SameTo op) := by
  refine Alike.ite (fun _ => Alike.error _) ?_
  intro started
  refine Alike.bind (h.alike_byte (by omega)) ?_
  rintro b _ rfl
  refine (h.alike_write (Nat.sub_le op 2) [b ||| UInt8.ofNat t]).mono ?_
  intro dst₁ dst₁' more
  exact more.mono (Nat.le_max_left _ _)

theorem alike_storeRunLength (h : SameTo op dst dst') (t : Nat) :
    Alike (storeRunLength dst op t) (storeRunLength dst' op t)
      fun x y => Written x.2 y.2 x.1 y.1 := by
  refine Alike.ite ?_ ?_
  · intro _
    refine Alike.bind (h.alike_push [UInt8.ofNat (t - 3)]) ?_
    intro dst₁ dst₁' pushed
    exact Alike.ok ⟨rfl, pushed⟩
  · intro _
    refine Alike.bind (h.alike_push [0]) ?_
    intro dst₁ dst₁' pushed
    exact alike_storeRuns pushed _

theorem alike_storeLength (h : SameTo op dst dst') (marker maxLen len : Nat) :
    Alike (storeLength dst op marker maxLen len) (storeLength dst' op marker maxLen len)
      fun x y => Written x.2 y.2 x.1 y.1 := by
  refine Alike.ite ?_ ?_
  · intro _
    refine Alike.bind (h.alike_push [UInt8.ofNat (marker ||| (len - 2))]) ?_
    intro dst₁ dst₁' pushed
    exact Alike.ok ⟨rfl, pushed⟩
  · intro _
    refine Alike.bind (h.alike_push [UInt8.ofNat marker]) ?_
    intro dst₁ dst₁' pushed
    exact alike_storeRuns pushed _

theorem alike_storeLongMatch (h : SameTo op dst dst') (marker maxLen off len : Nat) :
    Alike (storeLongMatch dst op marker maxLen off len)
      (storeLongMatch dst' op marker maxLen off len) fun x y => Written x.2 y.2 x.1 y.1 := by
  refine Alike.bind (alike_storeLength h marker maxLen len) ?_
  rintro ⟨dst₁, op₁⟩ ⟨dst₁', _⟩ ⟨⟨⟩, written⟩
  refine Alike.bind (written.alike_push [UInt8.ofNat (off <<< 2)]) ?_
  intro dst₂ dst₂' pushed
  refine Alike.bind (pushed.alike_push [UInt8.ofNat (off >>> 6)]) ?_
  intro dst₃ dst₃' pushed'
  exact Alike.ok ⟨rfl, pushed'⟩

theorem alike_storeMatch (h : SameTo op dst dst') (off len : Nat) :
    Alike (storeMatch dst op off len) (storeMatch dst' op off len)
      fun x y => Written x.2 y.2 x.1 y.1 := by
  refine Alike.ite (fun _ => ?_) fun _ => Alike.ite (fun _ => ?_) fun _ => ?_
  · refine Alike.bind (h.alike_push [_]) ?_
    intro dst₁ dst₁' pushed
    refine Alike.bind (pushed.alike_push [_]) ?_
    intro dst₂ dst₂' pushed'
    exact Alike.ok ⟨rfl, pushed'⟩
  · exact alike_storeLongMatch h _ _ _ _
  · exact alike_storeLongMatch h _ _ _ _

theorem alike_copySixteen (h : SameTo op dst dst') (ii : Nat) :
    Alike (copySixteen src dst op ii) (copySixteen src dst' op ii) (SameTo (op + 16)) := by
  refine Alike.bind (h.alike_copyFrom ii 8) ?_
  intro dst₁ dst₁' eight
  exact eight.alike_copyFrom (ii + 8) 8

theorem alike_storeLiterals (h : SameTo op dst dst') (ii t : Nat) :
    Alike (storeLiterals src dst op ii t) (storeLiterals src dst' op ii t)
      fun x y => Written x.2 y.2 x.1 y.1 := by
  refine Alike.ite (fun _ => Alike.ok ⟨rfl, h⟩) fun _ => Alike.ite ?_ fun _ => Alike.ite ?_ fun _ => ?_
  · intro few
    refine Alike.bind (alike_addLiterals h t) ?_
    intro dst₁ dst₁' added
    refine Alike.bind (added.alike_copyFrom ii 4) ?_
    intro dst₂ dst₂' copied
    exact Alike.ok ⟨rfl, copied.mono (Nat.add_le_add_left (few.trans (by decide)) op)⟩
  · intro few
    refine Alike.bind (h.alike_push [UInt8.ofNat (t - 3)]) ?_
    intro dst₁ dst₁' pushed
    refine Alike.bind (alike_copySixteen pushed ii) ?_
    intro dst₂ dst₂' copied
    exact Alike.ok ⟨rfl, copied.mono (Nat.add_le_add_left few _)⟩
  · refine Alike.bind (alike_storeRunLength h t) ?_
    rintro ⟨dst₁, op₁⟩ ⟨dst₁', _⟩ ⟨⟨⟩, written⟩
    refine Alike.bind (alike_copyBlocks 16
      (fun _ _ _ ii before => alike_copySixteen before ii) written) ?_
    rintro ⟨dst₂, p, ii₂, left⟩ ⟨dst₂', _, _, _⟩ ⟨⟨⟩, -, -, copied⟩
    refine Alike.bind (alike_copyBytes src copied ii₂ left) ?_
    intro dst₃ dst₃' rest
    exact Alike.ok ⟨rfl, rest⟩

/-- States that differ in what their buffers hold behind the position. -/
def SameState (s s' : State) : Prop := s' = { s with dst := s'.dst } ∧ SameTo s.op s.dst s'.dst

theorem alike_coreTurn {start ipEnd : Nat} {literal : Bool} {s s' : State} (h : SameState s s') :
    Alike (coreTurn src start ipEnd (literal, s)) (coreTurn src start ipEnd (literal, s'))
      (Sum.LiftRel (fun x y => x.1 = y.1 ∧ SameState x.2 y.2) SameState) := by
  obtain ⟨ii, ip, op, ti, dst, dict⟩ := s
  obtain ⟨_, _, _, _, dst', _⟩ := s'
  obtain ⟨⟨⟩, same⟩ := h
  refine Alike.ite (fun _ => Alike.ok (.inr ⟨rfl, same⟩)) fun _ => ?_
  refine Alike.bind_same ?_
  intro dv _
  refine Alike.bind_same ?_
  intro mv _
  refine Alike.ite (fun _ => Alike.ok (.inl ⟨rfl, rfl, same⟩)) fun _ => ?_
  refine Alike.bind (alike_storeLiterals same _ _) ?_
  rintro ⟨dst₁, op₁⟩ ⟨dst₁', _⟩ ⟨⟨⟩, written⟩
  refine Alike.bind_same ?_
  intro len _
  refine Alike.bind (alike_storeMatch written _ _) ?_
  rintro ⟨dst₂, op₂⟩ ⟨dst₂', _⟩ ⟨⟨⟩, written'⟩
  exact Alike.ok (.inl ⟨rfl, rfl, written'⟩)

theorem alike_lzo1x1CompressCore {start ll ti : Nat} (h : SameTo op dst dst') :
    Alike (lzo1x1CompressCore src start ll op ti dst) (lzo1x1CompressCore src start ll op ti dst')
      fun x y => x.1 = y.1 ∧ Written x.2.1 y.2.1 x.2.2 y.2.2 := by
  refine Alike.bind (Alike.loop (fun x y => x.1 = y.1 ∧ SameState x.2 y.2) SameState ?_
    ⟨rfl, rfl, h⟩ _) ?_
  · rintro ⟨literal, s⟩ ⟨_, s'⟩ ⟨⟨⟩, same⟩
    exact alike_coreTurn same
  rintro ⟨ii, ip, op, ti, dst, dict⟩ ⟨_, _, _, _, dst', _⟩ ⟨⟨⟩, same⟩
  exact Alike.ok ⟨rfl, rfl, same⟩

theorem alike_compressChunks (h : dst.length = dst'.length) :
    Alike (compressChunks src dst) (compressChunks src dst')
      fun x y => x.1 = y.1 ∧ Written x.2.1 y.2.1 x.2.2 y.2.2 := by
  refine Alike.loop (fun x y => x.1 = y.1 ∧ x.2.2.1 = y.2.2.1 ∧ x.2.2.2.1 = y.2.2.2.1 ∧
    Written x.2.1 y.2.1 x.2.2.2.2 y.2.2.2.2) _ ?_ ⟨rfl, rfl, rfl, rfl, SameTo.zero h⟩ _
  rintro ⟨ip, op, l, t, dst⟩ ⟨_, _, _, _, dst'⟩ ⟨⟨⟩, ⟨⟩, ⟨⟩, ⟨⟩, same⟩
  refine Alike.ite (fun _ => Alike.ite (fun _ => ?_) fun _ => ?_) fun _ => ?_
  · exact Alike.ok (.inr ⟨rfl, rfl, same⟩)
  · refine Alike.bind (alike_lzo1x1CompressCore same) ?_
    rintro ⟨t₁, op₁, dst₁⟩ ⟨_, _, dst₁'⟩ ⟨⟨⟩, ⟨⟩, written⟩
    exact Alike.ok (.inl ⟨rfl, rfl, rfl, rfl, written⟩)
  · exact Alike.ok (.inr ⟨rfl, rfl, same⟩)

theorem alike_storeLastLength (h : SameTo op dst dst') (t : Nat) :
    Alike (storeLastLength t op dst) (storeLastLength t op dst')
      fun x y => Written x.2 y.2 x.1 y.1 := by
  refine Alike.ite ?_ fun _ => Alike.ite ?_ fun _ => alike_storeRunLength h t
  · intro _
    refine Alike.bind (h.alike_push [UInt8.ofNat (17 + t)]) ?_
    intro dst₁ dst₁' pushed
    exact Alike.ok ⟨rfl, pushed⟩
  · intro _
    refine Alike.bind (alike_addLiterals h t) ?_
    intro dst₁ dst₁' added
    exact Alike.ok ⟨rfl, added⟩

/-- The compressor leaves no byte of what its buffer held in what it says it has written. -/
theorem alike_lzo1x1Compress (src : List UInt8) (h : dst.length = dst'.length) :
    Alike (lzo1x1Compress src dst) (lzo1x1Compress src dst')
      fun x y => Written x.1 y.1 x.2 y.2 := by
  refine Alike.bind (alike_compressChunks h) ?_
  rintro ⟨t, op, dst₁⟩ ⟨_, _, dst₁'⟩ ⟨⟨⟩, ⟨⟩, written⟩
  have last : Alike (storeLastLiterals src t op dst₁) (storeLastLiterals src t op dst₁')
      fun x y => Written x.2 y.2 x.1 y.1 := by
    refine Alike.ite (fun _ => ?_) fun _ => Alike.ok ⟨rfl, written⟩
    refine Alike.bind (alike_storeLastLength written t) ?_
    rintro ⟨dst₂, op₂⟩ ⟨dst₂', _⟩ ⟨⟨⟩, stored⟩
    refine Alike.bind (alike_copyWords stored _ t) ?_
    intro dst₃ dst₃' copied
    exact Alike.ok ⟨rfl, copied⟩
  refine Alike.bind last ?_
  rintro ⟨dst₂, op₂⟩ ⟨dst₂', _⟩ ⟨⟨⟩, stored⟩
  refine Alike.bind (stored.alike_push [UInt8.ofNat (M4_MARKER ||| 1)]) ?_
  intro dst₃ dst₃' first
  refine Alike.bind (first.alike_push [0]) ?_
  intro dst₄ dst₄' second
  refine Alike.bind (second.alike_push [0]) ?_
  intro dst₅ dst₅' third
  exact Alike.ok ⟨rfl, third⟩

section Decoder

/-- Two runs of the decoder at one place, on outputs of one size. -/
def SamePlace (x y : Place × Cursor) : Prop :=
  x.1 = y.1 ∧ x.2.ip = y.2.ip ∧ x.2.op = y.2.op ∧ x.2.dst.length = y.2.dst.length

/-- Two ends with one status and one length. -/
def SameEnd (x y : Status × Nat × List UInt8) : Prop :=
  x.1 = y.1 ∧ x.2.1 = y.2.1 ∧ x.2.2.length = y.2.2.length

section Sizes

variable {copy : List UInt8 → Nat → Nat → Nat → Access (List UInt8)}

/-- Copies whose faults the contents of the output have no part in. -/
def SizesOnly (copy : List UInt8 → Nat → Nat → Nat → Access (List UInt8)) : Prop :=
  ∀ dst dst' op s n, dst.length = dst'.length →
    Alike (copy dst op s n) (copy dst' op s n) fun dst dst' => dst.length = dst'.length

theorem sizesOnly_copyFrom (src : List UInt8) : SizesOnly (copyFrom src) :=
  fun _ _ _ _ _ h => alike_copyFrom h rfl

theorem sizesOnly_copyWithin : SizesOnly copyWithin := fun _ _ _ _ _ h => alike_copyWithin h

theorem SizesOnly.copyBlocks (each : SizesOnly copy) (k : Nat) (h : dst.length = dst'.length) :
    Alike (copyBlocks k copy dst op s t) (copyBlocks k copy dst' op s t) fun x y =>
      x.2 = y.2 ∧ x.1.length = y.1.length := by
  refine Alike.loop (fun x y => x.2 = y.2 ∧ x.1.length = y.1.length) _ ?_ ⟨rfl, h⟩ _
  rintro ⟨dst, op, s, left⟩ ⟨dst', _, _, _⟩ ⟨⟨⟩, before⟩
  refine Alike.ite ?_ fun _ => Alike.ok (.inr ⟨rfl, before⟩)
  intro _
  refine Alike.bind (each dst dst' op s k before) ?_
  intro dst₁ dst₁' after
  exact Alike.ok (.inl ⟨rfl, after⟩)

theorem SizesOnly.copyBytes (each : SizesOnly copy) : SizesOnly (copyBytes copy) := by
  intro dst dst' op s n h
  refine Alike.bind (each.copyBlocks 1 h) ?_
  rintro ⟨dst₁, rest⟩ ⟨dst₁', _⟩ ⟨⟨⟩, after⟩
  exact Alike.ok after

theorem SizesOnly.copyWords (each : SizesOnly copy) : SizesOnly (copyWords copy) := by
  intro dst dst' op s n h
  refine Alike.bind (each.copyBlocks 8 h) ?_
  rintro ⟨dst₁, op₁, s₁, left⟩ ⟨dst₁', _, _, _⟩ ⟨⟨⟩, after⟩
  refine Alike.ite ?_ fun _ => each.copyBytes dst₁ dst₁' op₁ s₁ left after
  intro _
  refine Alike.bind (each dst₁ dst₁' op₁ s₁ 4 after) ?_
  intro dst₂ dst₂' four
  exact each.copyBytes dst₂ dst₂' _ _ _ four

theorem sizesOnly_copyLong : SizesOnly copyLong :=
  fun dst dst' op m length h => Alike.ite
    (fun _ => sizesOnly_copyWithin.copyWords dst dst' op m length h)
    fun _ => sizesOnly_copyWithin.copyBytes dst dst' op m length h

end Sizes

variable {ip offset length : Nat} (h : dst.length = dst'.length)
include h

theorem alike_matchNext (t : Nat) :
    Alike (matchNext src t ⟨ip, op, dst⟩) (matchNext src t ⟨ip, op, dst'⟩) SamePlace := by
  refine Alike.bind ((sizesOnly_copyFrom src).copyBytes dst dst' op ip t h) ?_
  intro dst₁ dst₁' after
  exact Alike.ok ⟨rfl, rfl, rfl, after⟩

theorem alike_matchDone :
    Alike (matchDone src ⟨ip, op, dst⟩) (matchDone src ⟨ip, op, dst'⟩) SamePlace := by
  refine Alike.bind_same fun b _ => Alike.ite (fun _ => ?_) fun _ => alike_matchNext h _
  exact Alike.ok ⟨rfl, rfl, rfl, h⟩

theorem alike_copyMatch :
    Alike (copyMatch src offset length ⟨ip, op, dst⟩) (copyMatch src offset length ⟨ip, op, dst'⟩)
      SamePlace := by
  refine Alike.bind_same fun m _ => ?_
  refine Alike.bind (sizesOnly_copyWithin.copyBytes dst dst' op m length h) ?_
  intro dst₁ dst₁' after
  exact alike_matchDone after

theorem alike_copyLongMatch :
    Alike (copyLongMatch src offset length ⟨ip, op, dst⟩)
      (copyLongMatch src offset length ⟨ip, op, dst'⟩) SamePlace := by
  refine Alike.bind_same fun m _ => ?_
  refine Alike.bind (sizesOnly_copyLong dst dst' op m length h) ?_
  intro dst₁ dst₁' after
  exact alike_matchDone after

theorem alike_nearMatch (offset : Nat → Nat) :
    Alike (nearMatch src offset length ⟨ip, op, dst⟩) (nearMatch src offset length ⟨ip, op, dst'⟩)
      SamePlace :=
  Alike.bind_same fun _ _ => alike_copyMatch h

theorem alike_literalRun (t : Nat) :
    Alike (literalRun src t ⟨ip, op, dst⟩) (literalRun src t ⟨ip, op, dst'⟩) SamePlace := by
  refine Alike.bind_same fun counted _ => ?_
  refine Alike.bind ((sizesOnly_copyFrom src).copyWords dst dst' op counted.2 (counted.1 + 3) h) ?_
  intro dst₁ dst₁' after
  exact Alike.ok ⟨rfl, rfl, rfl, after⟩

omit h in
theorem alike_inl {m m' : Access (Place × Cursor)} (same : Alike m m' SamePlace) :
    Alike (Sum.inl <$> m : Access ((Place × Cursor) ⊕ (Status × Nat × List UInt8)))
      (Sum.inl <$> m') (Sum.LiftRel SamePlace SameEnd) := by
  rcases same.outcomes with ⟨a, b, rfl, rfl, rel⟩ | ⟨e, rfl, rfl⟩
  · exact Alike.ok (.inl rel)
  · exact Alike.error e

theorem alike_matchTurn (t : Nat) :
    Alike (matchTurn src t ⟨ip, op, dst⟩) (matchTurn src t ⟨ip, op, dst'⟩)
      (Sum.LiftRel SamePlace SameEnd) := by
  refine Alike.ite (fun _ => alike_inl (alike_nearMatch h _)) fun _ =>
    Alike.ite (fun _ => ?_) fun _ => Alike.ite (fun _ => ?_) fun _ =>
      alike_inl (alike_nearMatch h _)
  · exact Alike.bind_same fun counted _ => Alike.bind_same fun off _ =>
      alike_inl (alike_copyLongMatch h)
  · refine Alike.bind_same fun counted _ => Alike.bind_same fun off _ =>
      Alike.ite (fun _ => ?_) fun _ => alike_inl (alike_copyLongMatch h)
    exact Alike.ok (.inr ⟨rfl, rfl, h⟩)

theorem alike_turn (place : Place) :
    Alike (turn src (place, ⟨ip, op, dst⟩)) (turn src (place, ⟨ip, op, dst'⟩))
      (Sum.LiftRel SamePlace SameEnd) := by
  refine Alike.bind_same fun tok _ => ?_
  cases place with
  | matched =>
      exact Alike.ite (fun _ => alike_matchTurn h _) fun _ => alike_inl (alike_literalRun h _)
  | run =>
      exact Alike.ite (fun _ => alike_matchTurn h _) fun _ => alike_inl (alike_nearMatch h _)
  | literals => exact alike_matchTurn h _

theorem alike_firstLiterals :
    Alike (firstLiterals src dst) (firstLiterals src dst') SamePlace := by
  refine Alike.bind_same fun tok _ => Alike.ite (fun _ => ?_) fun _ => Alike.ok ⟨rfl, rfl, rfl, h⟩
  refine Alike.ite (fun _ => alike_matchNext h _) fun _ => ?_
  refine Alike.bind ((sizesOnly_copyFrom src).copyBytes dst dst' 0 1 _ h) ?_
  intro dst₁ dst₁' after
  exact Alike.ok ⟨rfl, rfl, rfl, after⟩

/-- What the decoder returns, and whether and where it faults, its output has no part in. -/
theorem alike_lzo1xDecompress_sizes (src : List UInt8) :
    Alike (lzo1xDecompress src dst) (lzo1xDecompress src dst') SameEnd := by
  refine Alike.bind (alike_firstLiterals h) ?_
  intro s s' start
  refine Alike.loop SamePlace SameEnd ?_ start _
  rintro ⟨place, ip, op, dst⟩ ⟨_, _, _, dst'⟩ ⟨⟨⟩, ⟨⟩, ⟨⟩, same⟩
  exact alike_turn same place

/-- And what it has decoded is the same as well. -/
theorem alike_lzo1xDecompress (src : List UInt8) :
    Alike (lzo1xDecompress src dst) (lzo1xDecompress src dst') fun x y =>
      x.1 = y.1 ∧ x.2.1 = y.2.1 ∧ x.2.2.take x.2.1 = y.2.2.take x.2.1 := by
  have ends := ends_lzo1xDecompress src dst
  rcases (alike_lzo1xDecompress_sizes h src).outcomes with
    ⟨⟨status, n, out⟩, y, run, run', -⟩ | ⟨e, run, run'⟩
  · rw [run] at ends
    obtain ⟨result, rest, block, filled, rfl, rfl⟩ := ends
    obtain ⟨out', decoded, contents⟩ := lzo1xDecompress_of_block block (h ▸ filled.le)
    rw [run, decoded]
    exact Alike.ok ⟨rfl, rfl, filled.take_eq.trans contents.symm⟩
  · rw [run, run']
    exact Alike.error e

end Decoder

end MobilePIM.Lzo
