import MobilePIM.Fresh
import MobilePIM.Lz4.Compress
import MobilePIM.Lz4.Decoding

/-!
What the buffer held before has no part in what LZ4 does. The compressor writes every
byte of its block itself, also where it adds to a token or writes ahead of a length;
the decoder goes the same way whatever its output holds.
-/

namespace MobilePIM.Lz4

open Memory Total

variable {src dst dst' : List UInt8} {t : TableType} {limited : LimitedOutput}
  {olimit op anchor ip m n token : Nat}

theorem alike_writeRun (h : SameTo op dst dst') (len : Nat) :
    Alike (writeRun dst op len) (writeRun dst' op len)
      fun x y => op < x.2 ∧ Written x.2 y.2 x.1 y.1 := by
  refine Alike.loop (fun x y => x.2 = y.2 ∧ op ≤ x.2.1 ∧ SameTo x.2.1 x.1 y.1) _ ?_
    ⟨rfl, Nat.le_refl _, h⟩ _
  rintro ⟨dst, p, len⟩ ⟨dst', _, _⟩ ⟨⟨⟩, after, before⟩
  refine Alike.ite ?_ ?_
  · intro _
    refine Alike.bind (before.alike_push [255]) ?_
    intro dst₁ dst₁' pushed
    exact Alike.ok (.inl ⟨rfl, Nat.le_succ_of_le after, pushed⟩)
  · intro _
    refine Alike.bind (before.alike_push [UInt8.ofNat len]) ?_
    intro dst₁ dst₁' pushed
    exact Alike.ok (.inr ⟨Nat.lt_succ_of_le after, rfl, pushed⟩)

theorem alike_writeLiteralLength (h : SameTo op dst dst') (length : Nat) :
    Alike (writeLiteralLength dst op length) (writeLiteralLength dst' op length)
      fun x y => op < x.2 ∧ Written x.2 y.2 x.1 y.1 := by
  refine Alike.ite ?_ ?_
  · intro _
    refine Alike.bind (h.alike_push [_]) ?_
    intro dst₁ dst₁' pushed
    refine (alike_writeRun pushed _).mono ?_
    intro x y written
    exact ⟨(Nat.lt_succ_self op).trans written.1, written.2⟩
  · intro _
    refine Alike.bind (h.alike_push [_]) ?_
    intro dst₁ dst₁' pushed
    exact Alike.ok ⟨Nat.lt_succ_self op, rfl, pushed⟩

/-- The last byte of a length lies within the four that have been written ahead. -/
theorem alike_writeMatchRun (h : SameTo op dst dst') (matchCode : Nat) :
    Alike (writeMatchRun dst op matchCode) (writeMatchRun dst' op matchCode)
      fun x y => Written x.2 y.2 x.1 y.1 := by
  refine Alike.bind (h.alike_push [255, 255, 255, 255]) ?_
  intro dst₀ dst₀' quad
  refine Alike.bind (Alike.loop (fun x y => x.2 = y.2 ∧ SameTo (x.2.1 + 4) x.1 y.1)
    (fun x y => x.2.2 < 4 * 255 ∧ x.2 = y.2 ∧ SameTo (x.2.1 + 4) x.1 y.1) ?_ ⟨rfl, quad⟩ _) ?_
  · rintro ⟨dst, p, k⟩ ⟨dst', _, _⟩ ⟨⟨⟩, before⟩
    refine Alike.ite ?_ ?_
    · intro _
      refine Alike.bind (before.alike_push [255, 255, 255, 255]) ?_
      intro dst₁ dst₁' pushed
      exact Alike.ok (.inl ⟨rfl, pushed⟩)
    · intro last
      exact Alike.ok (.inr ⟨Nat.not_le.mp last, rfl, before⟩)
  · rintro ⟨dst, p, k⟩ ⟨dst', _, _⟩ ⟨small, ⟨⟩, before⟩
    have near : p + k / 255 ≤ p + 4 := by
      have : k < 4 * 255 := small
      omega
    refine Alike.bind (before.alike_write near [_]) ?_
    intro dst₁ dst₁' last
    exact Alike.ok ⟨rfl, last.mono (Nat.le_max_right _ _)⟩

theorem alike_addToToken (h : SameTo n dst dst') (behind : token < n) (k : Nat) :
    Alike (addToToken dst token k) (addToToken dst' token k) (SameTo n) := by
  refine Alike.bind (h.alike_byte behind) ?_
  rintro tok _ rfl
  refine (h.alike_write behind.le [_]).mono ?_
  intro dst₁ dst₁' more
  exact more.mono (Nat.le_max_left _ _)

theorem alike_wildCopy8 (h : SameTo op dst dst') (s e : Nat) :
    Alike (wildCopy8 (copyFrom src) dst op s e) (wildCopy8 (copyFrom src) dst' op s e)
      (SameTo e) := by
  refine (alike_wildCopy (fun d => SameTo d) ?_ h).mono ?_
  · intro d s dst dst' before
    exact before.alike_copyFrom s 8
  · rintro dst₁ dst₁' ⟨d, past, same⟩
    exact same.mono past

theorem alike_encodeLiterals (h : SameTo op dst dst') :
    Alike (encodeLiterals src limited olimit anchor ip op dst)
      (encodeLiterals src limited olimit anchor ip op dst')
      (Option.Rel fun x y => op < x.1 ∧ Written x.1 y.1 x.2 y.2) := by
  refine Alike.ite ?_ ?_
  · intro _
    exact Alike.ok .none
  · intro _
    refine Alike.bind (alike_writeLiteralLength h _) ?_
    rintro ⟨dst₁, op₁⟩ ⟨dst₁', _⟩ ⟨after, ⟨⟩, written⟩
    refine Alike.bind (alike_wildCopy8 written anchor (op₁ + (ip - anchor))) ?_
    intro dst₂ dst₂' copied
    exact Alike.ok (.some ⟨after.trans_le (Nat.le_add_right _ _), rfl, copied⟩)

theorem alike_encodeMatch (h : SameTo op dst dst') (behind : token < op) :
    Alike (encodeMatch src limited olimit token ip m op dst)
      (encodeMatch src limited olimit token ip m op dst')
      (Sum.LiftRel (SameTo 0) fun x y => x.1 = y.1 ∧ Written x.2.1 y.2.1 x.2.2 y.2.2) := by
  refine Alike.bind (h.alike_push (offsetBytes (UInt16.ofNat (ip - m)))) ?_
  intro dst₁ dst₁' offset
  rw [length_offsetBytes] at offset
  have behind' : token < op + 2 := behind.trans_le (Nat.le_add_right _ _)
  refine Alike.bind_same ?_
  intro matchCode _
  refine Alike.ite ?_ ?_
  · intro _
    exact Alike.ok (.inl (offset.mono (Nat.zero_le _)))
  intro _
  refine Alike.ite ?_ ?_
  · intro _
    refine Alike.bind (alike_addToToken offset behind' ML_MASK) ?_
    intro dst₂ dst₂' added
    refine Alike.bind (alike_writeMatchRun added _) ?_
    rintro ⟨dst₃, op₃⟩ ⟨dst₃', _⟩ ⟨⟨⟩, written⟩
    exact Alike.ok (.inr ⟨rfl, rfl, written⟩)
  · intro _
    refine Alike.bind (alike_addToToken offset behind' matchCode) ?_
    intro dst₂ dst₂' added
    exact Alike.ok (.inr ⟨rfl, rfl, added⟩)

theorem alike_lastLiterals (h : SameTo op dst dst') :
    Alike (lastLiterals src limited olimit anchor op dst)
      (lastLiterals src limited olimit anchor op dst') fun x y => Written x.1 y.1 x.2 y.2 := by
  refine Alike.ite ?_ ?_
  · intro _
    exact Alike.ok ⟨rfl, h.mono (Nat.zero_le _)⟩
  · intro _
    refine Alike.bind (alike_writeLiteralLength h _) ?_
    rintro ⟨dst₁, op₁⟩ ⟨dst₁', _⟩ ⟨-, ⟨⟩, written⟩
    refine Alike.bind (written.alike_copyFrom anchor _) ?_
    intro dst₂ dst₂' copied
    exact Alike.ok ⟨rfl, copied⟩

/-- Phases that differ in what their buffers hold behind the position. -/
inductive SamePhase : Phase t → Phase t → Prop
  | search {forwardH : Fin (2 ^ t.hashLog)} {s : State t} {dst' : List UInt8}
      (h : SameTo s.op s.dst dst') :
      SamePhase (.search forwardH s) (.search forwardH { s with dst := dst' })
  | nextMatch {token m : Nat} {s : State t} {dst' : List UInt8} (behind : token < s.op)
      (h : SameTo s.op s.dst dst') :
      SamePhase (.nextMatch token m s) (.nextMatch token m { s with dst := dst' })

theorem alike_searchTurn {acceleration : Nat} {forwardH : Fin (2 ^ t.hashLog)} {s : State t}
    (h : SameTo s.op s.dst dst') :
    Alike (searchTurn src limited olimit acceleration forwardH s)
      (searchTurn src limited olimit acceleration forwardH { s with dst := dst' })
      (Sum.LiftRel SamePhase fun x y => Written x.1 y.1 x.2 y.2) := by
  refine Alike.bind_same ?_
  intro found _
  cases found with
  | none =>
      refine Alike.bind (alike_lastLiterals h) ?_
      intro r r' done
      exact Alike.ok (.inr done)
  | some found =>
      obtain ⟨ip, m, table⟩ := found
      refine Alike.bind_same ?_
      rintro ⟨ip, m⟩ _
      refine Alike.bind (alike_encodeLiterals h) ?_
      intro literals literals' written
      cases written with
      | none => exact Alike.ok (.inr ⟨rfl, h.mono (Nat.zero_le _)⟩)
      | @some x y written =>
          obtain ⟨op, dst₁⟩ := x
          obtain ⟨_, dst₁'⟩ := y
          obtain ⟨after, ⟨⟩, same⟩ := written
          exact Alike.ok (.inl (.nextMatch after same))

theorem alike_matchTurn {s : State t} (behind : token < s.op) (h : SameTo s.op s.dst dst') :
    Alike (matchTurn src limited olimit token m s)
      (matchTurn src limited olimit token m { s with dst := dst' })
      (Sum.LiftRel SamePhase fun x y => Written x.1 y.1 x.2 y.2) := by
  refine Alike.bind (alike_encodeMatch h behind) ?_
  intro coded coded' written
  cases written with
  | inl given_up => exact Alike.ok (.inr ⟨rfl, given_up⟩)
  | @inr x y written =>
      obtain ⟨ip, op, dst₁⟩ := x
      obtain ⟨_, _, dst₁'⟩ := y
      obtain ⟨⟨⟩, ⟨⟩, same⟩ := written
      refine Alike.ite ?_ ?_
      · intro _
        refine Alike.bind (alike_lastLiterals same) ?_
        intro r r' done
        exact Alike.ok (.inr done)
      intro _
      refine Alike.bind_same ?_
      intro table _
      refine Alike.bind_same ?_
      intro h _
      refine Alike.bind_same ?_
      intro follows _
      refine Alike.ite ?_ ?_
      · intro _
        refine Alike.bind (same.alike_push [0]) ?_
        intro dst₂ dst₂' pushed
        exact Alike.ok (.inl (.nextMatch (Nat.lt_succ_self op) pushed))
      · intro _
        refine Alike.bind_same ?_
        intro forwardH _
        exact Alike.ok (.inl (.search same))

theorem alike_compressGeneric (acceleration : Nat) (h : SameTo 0 dst dst') :
    Alike (compressGeneric src limited olimit t acceleration dst)
      (compressGeneric src limited olimit t acceleration dst')
      fun x y => Written x.1 y.1 x.2 y.2 := by
  have nothing : Alike (pure (0, dst) : Access (Nat × List UInt8)) (pure (0, dst'))
      fun x y => Written x.1 y.1 x.2 y.2 := Alike.ok ⟨rfl, h⟩
  refine Alike.ite (fun _ => nothing) fun _ => Alike.ite ?_ fun _ => ?_
  · intro _
    refine Alike.ite (fun _ => nothing) fun _ => ?_
    refine Alike.bind (h.alike_push [0]) ?_
    intro dst₁ dst₁' pushed
    exact Alike.ok ⟨rfl, pushed⟩
  refine Alike.ite (fun _ => nothing) fun _ => Alike.ite ?_ fun _ => ?_
  · intro _
    exact alike_lastLiterals h
  refine Alike.bind_same ?_
  intro table _
  refine Alike.bind_same ?_
  intro forwardH _
  have start : SamePhase (.search forwardH ⟨0, 1, 0, dst, table⟩)
      (.search forwardH ⟨0, 1, 0, dst', table⟩) := .search h
  refine Alike.loop SamePhase _ ?_ start _
  intro phase phase' same
  cases same with
  | search h => exact alike_searchTurn h
  | nextMatch behind h => exact alike_matchTurn behind h

/-- The compressor leaves no byte of what its buffer held in what it says it has written. -/
theorem alike_compressFast (src : List UInt8) (acceleration : Int) (h : dst.length = dst'.length) :
    Alike (compressFast src dst acceleration) (compressFast src dst' acceleration)
      fun x y => Written x.1 y.1 x.2 y.2 := by
  unfold compressFast
  rw [← h]
  refine Alike.ite (fun _ => ?_) fun _ => ?_
  · exact alike_compressGeneric _ (SameTo.zero h)
  · exact alike_compressGeneric _ (SameTo.zero h)

/-- Outcomes that differ in what their buffers hold. -/
inductive SameOutcome : Outcome → Outcome → Prop
  | fastLoop {ip op : Nat} {dst dst' : List UInt8} (h : dst.length = dst'.length) :
      SameOutcome (.fastLoop ⟨ip, op, dst⟩) (.fastLoop ⟨ip, op, dst'⟩)
  | safeLoop {ip op : Nat} {dst dst' : List UInt8} (h : dst.length = dst'.length) :
      SameOutcome (.safeLoop ⟨ip, op, dst⟩) (.safeLoop ⟨ip, op, dst'⟩)
  | decoded {ip op : Nat} {dst dst' : List UInt8} (h : dst.length = dst'.length) :
      SameOutcome (.decoded ⟨ip, op, dst⟩) (.decoded ⟨ip, op, dst'⟩)
  | outputError {ip : Nat} {dst dst' : List UInt8} (h : dst.length = dst'.length) :
      SameOutcome (.outputError ip dst) (.outputError ip dst')

section Decoder

variable {oend offset length d s e : Nat} {tok : UInt8} (h : dst.length = dst'.length)
include h

theorem alike_copyEight :
    Alike (copyEight dst op m offset) (copyEight dst' op m offset)
      fun x y => x.2 = y.2 ∧ x.1.length = y.1.length := by
  refine Alike.ite ?_ ?_
  · intro _
    refine Alike.bind (alike_write h rfl) ?_
    intro dst₀ dst₀' h₀
    refine Alike.bind (alike_copyWithin h₀) ?_
    intro dst₁ dst₁' h₁
    refine Alike.bind (alike_copyWithin h₁) ?_
    intro dst₂ dst₂' h₂
    refine Alike.bind (alike_copyWithin h₂) ?_
    intro dst₃ dst₃' h₃
    refine Alike.bind (alike_copyWithin h₃) ?_
    intro dst₄ dst₄' h₄
    refine Alike.bind (alike_copyWithin h₄) ?_
    intro dst₅ dst₅' h₅
    exact Alike.ok ⟨rfl, h₅⟩
  · intro _
    refine Alike.bind (alike_copyWithin h) ?_
    intro dst₁ dst₁' h₁
    exact Alike.ok ⟨rfl, h₁⟩

theorem alike_wildCopyWithin {stride : Nat}
    {body body' : List UInt8 → Nat → Nat → Access (List UInt8)}
    (step : ∀ d s dst dst', dst.length = dst'.length →
      Alike (body dst d s) (body' dst' d s) fun dst dst' => dst.length = dst'.length) :
    Alike (wildCopy stride body dst d s e) (wildCopy stride body' dst' d s e)
      fun dst dst' => dst.length = dst'.length := by
  refine (alike_wildCopy (fun _ dst dst' => dst.length = dst'.length) step h).mono ?_
  rintro dst₁ dst₁' ⟨-, -, same⟩
  exact same

theorem alike_wildCopy8_within :
    Alike (wildCopy8 copyWithin dst d s e) (wildCopy8 copyWithin dst' d s e)
      fun dst dst' => dst.length = dst'.length :=
  alike_wildCopyWithin h fun _ _ _ _ same => alike_copyWithin same

theorem alike_wildCopy32 {copy : List UInt8 → Nat → Nat → Nat → Access (List UInt8)}
    (step : ∀ d s n dst dst', dst.length = dst'.length →
      Alike (copy dst d s n) (copy dst' d s n) fun dst dst' => dst.length = dst'.length) :
    Alike (wildCopy32 copy dst d s e) (wildCopy32 copy dst' d s e)
      fun dst dst' => dst.length = dst'.length := by
  refine alike_wildCopyWithin h ?_
  intro d s dst dst' same
  refine Alike.bind (step d s 16 dst dst' same) ?_
  intro dst₁ dst₁' same₁
  exact step (d + 16) (s + 16) 16 dst₁ dst₁' same₁

theorem alike_memcpyUsingOffset :
    Alike (memcpyUsingOffset dst d s e offset) (memcpyUsingOffset dst' d s e offset)
      fun dst dst' => dst.length = dst'.length := by
  have pattern {v v' : List UInt8} (same : v.length = v'.length) :
      Alike (wildCopy 8 (fun dst d _ => write dst d v) dst d s e)
        (wildCopy 8 (fun dst d _ => write dst d v') dst' d s e)
        fun dst dst' => dst.length = dst'.length :=
    alike_wildCopyWithin h fun _ _ _ _ before => alike_write before same
  have base : Alike (memcpyUsingOffsetBase dst d s e offset)
      (memcpyUsingOffsetBase dst' d s e offset) fun dst dst' => dst.length = dst'.length := by
    refine Alike.bind (alike_copyEight h) ?_
    rintro ⟨dst₁, m⟩ ⟨dst₁', _⟩ ⟨⟨⟩, same⟩
    exact alike_wildCopy8_within same
  rcases offset with _ | _ | _ | _ | _ | offset
  · exact base
  · refine Alike.bind (alike_byte h) ?_
    intro b b' _
    exact pattern (by rw [List.length_replicate, List.length_replicate])
  · refine Alike.bind (alike_load h) ?_
    intro v v' same
    exact pattern (by simp only [List.length_append, same])
  · exact base
  · refine Alike.bind (alike_load h) ?_
    intro v v' same
    exact pattern (by simp only [List.length_append, same])
  · exact base

theorem alike_safeMatchCopy (length : Nat) :
    Alike (safeMatchCopy oend offset length ⟨ip, op, dst⟩)
      (safeMatchCopy oend offset length ⟨ip, op, dst'⟩) SameOutcome := by
  refine Alike.ite (fun _ => Alike.ok (.outputError h)) fun _ => ?_
  refine Alike.bind (alike_copyEight h) ?_
  rintro ⟨dst₁, m⟩ ⟨dst₁', _⟩ ⟨⟨⟩, h₁⟩
  refine Alike.ite (fun _ => ?_) fun _ => ?_
  · refine Alike.ite (fun _ => Alike.ok (.outputError h₁)) fun _ => Alike.ite (fun _ => ?_) fun _ => ?_
    · refine Alike.bind (alike_wildCopy8_within h₁) ?_
      intro dst₂ dst₂' h₂
      refine Alike.bind (alike_byteCopy h₂) ?_
      intro dst₃ dst₃' h₃
      exact Alike.ok (.safeLoop h₃)
    · refine Alike.bind (alike_byteCopy h₁) ?_
      intro dst₂ dst₂' h₂
      exact Alike.ok (.safeLoop h₂)
  · refine Alike.bind (alike_copyWithin h₁) ?_
    intro dst₂ dst₂' h₂
    refine Alike.ite (fun _ => ?_) fun _ => Alike.ok (.safeLoop h₂)
    refine Alike.bind (alike_wildCopy8_within h₂) ?_
    intro dst₃ dst₃' h₃
    exact Alike.ok (.safeLoop h₃)

theorem alike_copyMatch (length : Nat) :
    Alike (copyMatch src oend offset length ⟨ip, op, dst⟩)
      (copyMatch src oend offset length ⟨ip, op, dst'⟩) SameOutcome := by
  refine Alike.ite (fun _ => Alike.bind_same ?_) fun _ => alike_safeMatchCopy h _
  rintro ⟨addl, ip'⟩ _
  cases addl with
  | none => exact Alike.ok (.outputError h)
  | some addl => exact alike_safeMatchCopy h _

theorem alike_copyFrom_src {s k : Nat} :
    Alike (copyFrom src dst op s k) (copyFrom src dst' op s k)
      fun dst dst' => dst.length = dst'.length := alike_copyFrom h rfl

theorem alike_safeLiteralCopy (length : Nat) :
    Alike (safeLiteralCopy src oend tok length ⟨ip, op, dst⟩)
      (safeLiteralCopy src oend tok length ⟨ip, op, dst'⟩) SameOutcome := by
  refine Alike.ite (fun _ => Alike.ite (fun _ => Alike.ok (.outputError h)) fun _ => ?_) fun _ => ?_
  · refine Alike.bind (alike_copyFrom_src h) ?_
    intro dst₁ dst₁' h₁
    exact Alike.ok (.decoded h₁)
  · refine Alike.bind (alike_wildCopyWithin h fun _ _ _ _ same => alike_copyFrom_src same) ?_
    intro dst₁ dst₁' h₁
    refine Alike.bind_same ?_
    intro offset _
    exact alike_copyMatch h₁ _

theorem alike_copyEighteen :
    Alike (copyEighteen dst op m) (copyEighteen dst' op m)
      fun dst dst' => dst.length = dst'.length := by
  refine Alike.bind (alike_copyWithin h) ?_
  intro dst₁ dst₁' h₁
  refine Alike.bind (alike_copyWithin h₁) ?_
  intro dst₂ dst₂' h₂
  exact alike_copyWithin h₂

theorem alike_safeTurn :
    Alike (safeTurn src oend ⟨ip, op, dst⟩) (safeTurn src oend ⟨ip, op, dst'⟩) SameOutcome := by
  refine Alike.bind_same ?_
  intro tok _
  refine Alike.ite (fun _ => ?_) fun _ => Alike.ite (fun _ => ?_) fun _ => alike_safeLiteralCopy h _
  · refine Alike.bind (alike_copyFrom_src h) ?_
    intro dst₁ dst₁' h₁
    refine Alike.bind_same ?_
    intro offset _
    refine Alike.ite (fun _ => ?_) fun _ => alike_copyMatch h₁ _
    refine Alike.bind (alike_copyEighteen h₁) ?_
    intro dst₂ dst₂' h₂
    exact Alike.ok (.safeLoop h₂)
  · refine Alike.bind_same ?_
    rintro ⟨addl, ip'⟩ _
    cases addl with
    | none => exact Alike.ok (.outputError h)
    | some addl => exact alike_safeLiteralCopy h _

theorem alike_fastCopyMatch (length : Nat) :
    Alike (fastCopyMatch offset length ⟨ip, op, dst⟩) (fastCopyMatch offset length ⟨ip, op, dst'⟩)
      SameOutcome := by
  refine Alike.ite (fun _ => Alike.ok (.outputError h)) fun _ => ?_
  refine Alike.ite (fun _ => ?_) fun _ => ?_
  · refine Alike.bind (alike_memcpyUsingOffset h) ?_
    intro dst₁ dst₁' h₁
    exact Alike.ok (.fastLoop h₁)
  · refine Alike.bind (alike_wildCopy32 h fun _ _ _ _ _ same => alike_copyWithin same) ?_
    intro dst₁ dst₁' h₁
    exact Alike.ok (.fastLoop h₁)

theorem alike_fastMatch :
    Alike (fastMatch src oend tok ⟨ip, op, dst⟩) (fastMatch src oend tok ⟨ip, op, dst'⟩)
      SameOutcome := by
  refine Alike.bind_same ?_
  intro offset _
  refine Alike.ite (fun _ => Alike.bind_same ?_) fun _ => ?_
  · rintro ⟨addl, ip'⟩ _
    cases addl with
    | none => exact Alike.ok (.outputError h)
    | some addl =>
        exact Alike.ite (fun _ => Alike.ok (.outputError h)) fun _ =>
          Alike.ite (fun _ => alike_safeMatchCopy h _) fun _ => alike_fastCopyMatch h _
  · refine Alike.ite (fun _ => alike_safeMatchCopy h _) fun _ =>
      Alike.ite (fun _ => ?_) fun _ => alike_fastCopyMatch h _
    refine Alike.bind (alike_copyEighteen h) ?_
    intro dst₁ dst₁' h₁
    exact Alike.ok (.fastLoop h₁)

theorem alike_fastTurn :
    Alike (fastTurn src oend ⟨ip, op, dst⟩) (fastTurn src oend ⟨ip, op, dst'⟩) SameOutcome := by
  refine Alike.bind_same ?_
  intro tok _
  refine Alike.ite (fun _ => Alike.bind_same ?_) fun _ =>
    Alike.ite (fun _ => alike_safeLiteralCopy h _) fun _ => ?_
  · rintro ⟨addl, ip'⟩ _
    cases addl with
    | none => exact Alike.ok (.outputError h)
    | some addl =>
        refine Alike.ite (fun _ => alike_safeLiteralCopy h _) fun _ => ?_
        refine Alike.bind (alike_wildCopy32 h fun _ _ _ _ _ same => alike_copyFrom_src same) ?_
        intro dst₁ dst₁' h₁
        exact alike_fastMatch h₁
  · refine Alike.bind (alike_copyFrom_src h) ?_
    intro dst₁ dst₁' h₁
    exact alike_fastMatch h₁

/-- What the decoder returns, and whether it faults, its output has no part in. -/
theorem alike_decompressSafe (src : List UInt8) :
    Alike (decompressSafe src dst) (decompressSafe src dst')
      fun x y => x.1 = y.1 ∧ x.2.length = y.2.length := by
  unfold decompressSafe decompressGeneric
  rw [← h]
  refine Alike.ite (fun _ => Alike.ite (fun _ => Alike.bind_same ?_) fun _ => Alike.ok ⟨rfl, h⟩)
    fun _ => Alike.ite (fun _ => Alike.ok ⟨rfl, h⟩) fun _ => ?_
  · intro b _
    exact Alike.ok ⟨rfl, h⟩
  refine Alike.loop (fun x y => x.1 = y.1 ∧ x.2.ip = y.2.ip ∧ x.2.op = y.2.op ∧
    x.2.dst.length = y.2.dst.length) _ ?_ ⟨rfl, rfl, rfl, h⟩ _
  rintro ⟨fast, ip, op, dst⟩ ⟨_, _, _, dst'⟩ ⟨⟨⟩, ⟨⟩, ⟨⟩, h⟩
  have next {outcome outcome' : Outcome} (same : SameOutcome outcome outcome') :
      Alike (pure outcome.next : Access ((Bool × Cursor) ⊕ (Int × List UInt8)))
        (pure outcome'.next) (Sum.LiftRel (fun x y => x.1 = y.1 ∧ x.2.ip = y.2.ip ∧
          x.2.op = y.2.op ∧ x.2.dst.length = y.2.dst.length)
        fun x y => x.1 = y.1 ∧ x.2.length = y.2.length) := by
    cases same with
    | fastLoop h => exact Alike.ok (.inl ⟨rfl, rfl, rfl, h⟩)
    | safeLoop h => exact Alike.ok (.inl ⟨rfl, rfl, rfl, h⟩)
    | decoded h => exact Alike.ok (.inr ⟨rfl, h⟩)
    | outputError h => exact Alike.ok (.inr ⟨rfl, h⟩)
  cases fast with
  | true => exact Alike.bind (alike_fastTurn h) fun _ _ => next
  | false => exact Alike.bind (alike_safeTurn h) fun _ _ => next

/-- And where it has decoded something, that is the same as well. -/
theorem alike_decompressSafe_contents (src : List UInt8) :
    Alike (decompressSafe src dst) (decompressSafe src dst') fun x y =>
      x.1 = y.1 ∧ (0 ≤ x.1 → x.2.take x.1.toNat = y.2.take x.1.toNat) := by
  by_cases room : dst.length = 0
  · obtain rfl := List.eq_nil_of_length_eq_zero room
    obtain rfl := List.eq_nil_of_length_eq_zero (h.symm.trans room)
    refine (Alike.same (decompressSafe src [])).mono ?_
    rintro x _ rfl
    exact ⟨rfl, fun _ => rfl⟩
  · obtain ⟨⟨r, out⟩, run, length_eq, block, -⟩ := returns_decompressSafe src dst room
    obtain ⟨⟨r', out'⟩, run', length_eq', block', -⟩ :=
      returns_decompressSafe src dst' (h ▸ room)
    have same := alike_decompressSafe h src
    rw [run, run'] at same ⊢
    obtain ⟨rfl, -⟩ := same
    exact Alike.ok ⟨rfl, fun nonneg => (block nonneg).2.unique (block' nonneg).2⟩

end Decoder

end MobilePIM.Lz4
