import MobilePIM.Lzo.Decoding
import MobilePIM.Lzo.Emission

/-!
What the compressor does: at the head of its loop it has written what covers the
source up to the literals it carries, at most a sixteenth longer. It comes to a
block of the source that fits the bound its callers allocate, and the decoder, which
checks no bound either, makes the source of it again.
-/

namespace MobilePIM.Lzo

open Memory Total

variable {src dst : List UInt8} {cap op ip m p start ipEnd : Nat}

/-- The bytes two words agree in: all of them, or those below the first bit that differs. -/
theorem returns_difference {q : Nat} (hp : p + 8 ≤ src.length) (hq : q + 8 ≤ src.length) :
    Returns (difference src p q) fun v =>
      (v = 0 → ∀ k < 8, src[q + k]? = src[p + k]?) ∧
      (v ≠ 0 → v.ctz.toNat / 8 < 8 ∧ ∀ k < v.ctz.toNat / 8, src[q + k]? = src[p + k]?) := by
  refine Returns.bind (returns_eq (readWord_ok (k := 8) hp)) ?_
  rintro _ rfl
  refine Returns.bind (returns_eq (readWord_ok (k := 8) hq)) ?_
  rintro _ rfl
  refine Returns.ok ?_
  by_cases same : slice src p 8 = slice src q 8
  · rw [same, BitVec.xor_self]
    refine ⟨fun _ k hk => ?_, fun nonzero => absurd rfl nonzero⟩
    rw [← getElem?_slice hk, ← getElem?_slice hk, same]
  · obtain ⟨nonzero, first⟩ := ctz_xor_slice hp hq same
    refine ⟨fun zero => absurd zero nonzero, fun _ => ?_⟩
    rw [first]
    have length_p : (slice src p 8).length = 8 := length_slice hp
    have bound := Words.agree_le_left (slice src p 8) (slice src q 8)
    have whole := Words.agree_eq_length
      (show (slice src p 8).length = (slice src q 8).length by rw [length_p, length_slice hq])
    rw [length_p] at bound whole
    have less := lt_of_le_of_ne bound fun all => same (whole.mp all)
    refine ⟨less, fun k hk => ?_⟩
    have here := Words.getElem?_of_lt_agree hk
    rw [getElem?_slice (hk.trans less), getElem?_slice (hk.trans less)] at here
    exact here.symm

/-- Every byte that the length counts agrees, and the count stops before the source does. -/
theorem returns_matchLength (earlier : m < ip) (inside : ip < ipEnd)
    (room : ipEnd + 20 ≤ src.length) (same : ∀ k < 4, src[m + k]? = src[ip + k]?) :
    Returns (matchLength src ipEnd ip m) fun len =>
      4 ≤ len ∧ ip + len ≤ ipEnd + 11 ∧ ∀ k < len, src[m + k]? = src[ip + k]? := by
  have extend (len n : Nat) (so_far : ∀ k < len, src[m + k]? = src[ip + k]?)
      (more : ∀ k < n, src[m + len + k]? = src[ip + len + k]?) :
      ∀ k < len + n, src[m + k]? = src[ip + k]? := by
    intro k hk
    by_cases before : k < len
    · exact so_far k before
    · have here := more (k - len) (by omega)
      rwa [show m + len + (k - len) = m + k by omega,
        show ip + len + (k - len) = ip + k by omega] at here
  refine Returns.bind (returns_difference (by omega) (by omega)) ?_
  intro v ⟨equal, differ⟩
  refine Returns.ite ?_ ?_
  · intro zero
    refine Returns.loop
      (fun len => 4 ≤ len ∧ ip + len ≤ ipEnd + 3 ∧ ∀ k < len + 8, src[m + k]? = src[ip + k]?)
      (fun len => src.length - len) ?_
      ⟨Nat.le_refl 4, by omega, extend 4 8 same (equal zero)⟩ (by omega)
    rintro len ⟨least, before, so_far⟩
    refine Returns.bind (returns_difference (by omega) (by omega)) ?_
    intro v' ⟨equal', differ'⟩
    refine Returns.ok ?_
    by_cases stop : ipEnd ≤ ip + (len + 8)
    · rw [if_pos stop]
      exact ⟨by omega, by omega, so_far⟩
    · rw [if_neg stop]
      by_cases zero' : v' = 0
      · rw [if_pos zero']
        exact ⟨⟨by omega, by omega, extend (len + 8) 8 so_far (equal' zero')⟩, by omega⟩
      · rw [if_neg zero']
        obtain ⟨few, more⟩ := differ' zero'
        exact ⟨by omega, by omega, extend (len + 8) _ so_far more⟩
  · intro nonzero
    obtain ⟨few, more⟩ := differ nonzero
    exact Returns.ok ⟨by omega, by omega, extend 4 _ same more⟩

/-- Between two turns. At `literal` the next position to be looked at lies further on. -/
structure Core (src : List UInt8) (start ipEnd cap : Nat) (literal : Bool) (s : State)
    (bytes : List UInt8) : Prop where
  emits : Emits src bytes (s.ii - s.ti)
  filled : Filled cap bytes s.dst
  at_end : s.op = bytes.length
  short : 16 * bytes.length ≤ 17 * (s.ii - s.ti)
  carried : s.ti ≤ s.ii
  ordered : s.ii ≤ s.ip
  after_start : start ≤ s.ii
  inside : s.ii ≤ ipEnd + 11
  first : bytes = [] → literal = true ∧ s.ii - s.ti + 4 ≤ s.ip
  known : ∀ k, start + s.dict k < s.ip + if literal then 1 else 0

/-- What the loop may still have to do. -/
def turnsLeft (ipEnd : Nat) : Bool × State → Nat
  | (literal, s) => 2 * (ipEnd - s.ip) + if literal then 0 else 1

theorem updateI_lt {dict : Dict} {index : Fin (2 ^ D_BITS)} (after : start ≤ ip)
    (known : ∀ k, start + dict k < ip + 1) (k : Fin (2 ^ D_BITS)) :
    start + updateI dict index (ip - start) k < ip + 1 := by
  unfold updateI
  split
  · have := Nat.mod_le (ip - start) (2 ^ 16)
    omega
  · exact known k

theorem returns_coreTurn {literal : Bool} {s : State} {bytes : List UInt8}
    (before : Core src start ipEnd cap literal s bytes)
    (chunk : ipEnd + 20 ≤ start + 49152) (room : ipEnd + 20 ≤ src.length)
    (enough : src.length + src.length / 16 + 67 ≤ cap) :
    Returns (coreTurn src start ipEnd (literal, s)) (Sum.elim
      (fun (literal', s') => (∃ bytes', Core src start ipEnd cap literal' s' bytes') ∧
        turnsLeft ipEnd (literal', s') < turnsLeft ipEnd (literal, s))
      (fun s' => s' = s)) := by
  obtain ⟨emits, filled, at_end, short, carried, ordered, after_start, inside, first, known⟩ := before
  unfold coreTurn
  dsimp only
  generalize position : (if literal then s.ip + (1 + ((s.ip - s.ii) >>> 5)) else s.ip) = ip
  have later : s.ip + (if literal then 1 else 0) ≤ ip := by
    rw [← position]
    split <;> omega
  refine Returns.ite ?_ ?_
  · intro _
    exact Returns.ok rfl
  intro (more : ¬ipEnd ≤ ip)
  refine Returns.bind (returns_eq (readWord_ok (k := 4) (by omega))) ?_
  rintro _ rfl
  generalize dindex (Words.le (8 * 4) (slice src ip 4)) = index
  have earlier : start + s.dict index < ip := (known index).trans_le later
  have known' : ∀ k, start + updateI s.dict index (ip - start) k < ip + 1 :=
    updateI_lt (by omega) fun k => ((known k).trans_le later).trans (Nat.lt_succ_self ip)
  refine Returns.bind (returns_eq (readWord_ok (k := 4) (by omega))) ?_
  rintro _ rfl
  refine Returns.ite ?_ ?_
  · intro _
    refine Returns.ok ⟨⟨bytes, emits, filled, at_end, short, carried, ?_, after_start, inside,
      ?_, known'⟩, ?_⟩
    · simp only
      omega
    · intro nothing
      exact ⟨rfl, (first nothing).2.trans (by simp only; omega)⟩
    · simp only [turnsLeft]
      cases literal <;> simp only [Bool.false_eq_true, if_true, if_false] at later ⊢ <;> omega
  · intro equal
    have same := getElem?_of_readWord (k := 4) (by omega) (by omega) (not_not.mp equal).symm
    have anchor_le : s.ii - s.ti + (ip - (s.ii - s.ti)) = ip := by omega
    have run : bytes = [] → 4 ≤ ip - (s.ii - s.ti) := by
      intro nothing
      have := first nothing
      omega
    refine Returns.bind (returns_storeLiterals emits run filled at_end (by omega) (by omega)) ?_
    rintro ⟨dst₁, op₁⟩ ⟨bytes₁, place, filled₁, at_end₁, nonempty, covers, length₁⟩
    rw [anchor_le] at covers
    refine Returns.bind (returns_matchLength earlier (Nat.not_le.mp more) room same) ?_
    rintro len ⟨least, stops, found⟩
    have header := length_runHeader (ip - (s.ii - s.ti))
    have match_length := length_matchBytes_le (ip - (start + s.dict index)) len 0
    have total : 16 * (bytes₁ ++ matchBytes (ip - (start + s.dict index)) len 0).length ≤
        17 * (ip + len) := by
      rw [List.length_append]
      split at length₁
      · omega
      · split at header <;> omega
    refine Returns.bind (returns_storeMatch filled₁ at_end₁ (by omega)
      (by simp only [M4_MAX_OFFSET]; omega) (by omega)) ?_
    rintro ⟨dst₂, op₂⟩ ⟨filled₂, at_end₂⟩
    have emits₂ := covers.emits nonempty (show 3 ≤ len by omega)
      (show 0 < ip - (start + s.dict index) by omega) (by simp only [M4_MAX_OFFSET]; omega)
      (Nat.sub_le _ _) (by omega) (by
        intro k hk
        rw [show ip - (ip - (start + s.dict index)) = start + s.dict index by omega]
        exact found k hk)
    refine Returns.ok ⟨⟨_, emits₂, filled₂, at_end₂, total, Nat.zero_le _, Nat.le_refl _, ?_,
      stops, ?_, ?_⟩, ?_⟩
    · simp only
      omega
    · intro nothing
      exact absurd (List.append_eq_nil_iff.mp nothing).1 nonempty
    · intro k
      have := known' k
      simp only [Bool.false_eq_true, if_false]
      omega
    · simp only [turnsLeft, Bool.false_eq_true, if_false]
      cases literal <;> simp only [Bool.false_eq_true, if_true, if_false] at later ⊢ <;> omega

/-- What has been written when `t` literals in front of a position are still to be. -/
structure Pending (src : List UInt8) (cap p t op : Nat) (dst bytes : List UInt8) : Prop where
  emits : Emits src bytes (p - t)
  filled : Filled cap bytes dst
  at_end : op = bytes.length
  short : 16 * bytes.length ≤ 17 * (p - t)
  carried : t ≤ p

theorem returns_lzo1x1CompressCore {ll ti : Nat} {bytes : List UInt8}
    (before : Pending src cap start ti op dst bytes) (some_positions : 20 < ll)
    (chunk : ll ≤ 49152) (room : start + ll ≤ src.length)
    (enough : src.length + src.length / 16 + 67 ≤ cap) :
    Returns (lzo1x1CompressCore src start ll op ti dst) fun (t, op', dst') =>
      ∃ bytes', Pending src cap (start + ll) t op' dst' bytes' := by
  obtain ⟨emits, filled, at_end, short, carried⟩ := before
  have run : Returns (loop .outOfFuel (coreTurn src start (start + ll - 20)) (2 * src.length + 2)
      (true, ⟨start, start + (if ti < 4 then 4 - ti else 0), op, ti, dst, fun _ => 0⟩))
      (fun s => ∃ literal bytes', Core src start (start + ll - 20) cap literal s bytes') := by
    refine Returns.loop
      (fun (literal, s) => ∃ bytes', Core src start (start + ll - 20) cap literal s bytes')
      (turnsLeft (start + ll - 20)) ?_ ⟨bytes, emits, filled, at_end, short, carried, ?_,
        Nat.le_refl _, ?_, ?_, ?_⟩ ?_
    · rintro ⟨literal, s⟩ ⟨bytes', core⟩
      have turn := returns_coreTurn core (by omega) (by omega) enough
      refine turn.mono ?_
      rintro (⟨literal', s'⟩ | s') done
      · exact done
      · obtain rfl : s' = s := done
        exact ⟨literal, bytes', core⟩
    · exact Nat.le_add_right _ _
    · simp only
      omega
    · intro _
      refine ⟨rfl, ?_⟩
      simp only
      split <;> omega
    · intro k
      simp only [if_true]
      omega
    · simp only [turnsLeft, if_true]
      omega
  refine Returns.bind run ?_
  rintro s ⟨literal, bytes', core⟩
  have inside := core.inside
  have carried' := core.carried
  have anchor : start + ll - (start + ll - (s.ii - s.ti)) = s.ii - s.ti := by omega
  refine Returns.ok ⟨bytes', ?_, core.filled, core.at_end, ?_, Nat.sub_le _ _⟩
  · rw [anchor]
    exact core.emits
  · rw [anchor]
    exact core.short

/-- Between two chunks, with `l` bytes of the source still to come. -/
abbrev BetweenChunks (src : List UInt8) (cap : Nat) :
    Nat × Nat × Nat × Nat × List UInt8 → Prop :=
  fun (ip, op, l, t, dst') => ip + l = src.length ∧ ∃ bytes, Pending src cap ip t op dst' bytes

theorem returns_compressChunks (enough : src.length + src.length / 16 + 67 ≤ dst.length) :
    Returns (compressChunks src dst) fun (t, op, dst') =>
      ∃ bytes, Pending src dst.length src.length t op dst' bytes := by
  refine Returns.loop (BetweenChunks src dst.length) (fun s => s.2.2.1) ?_
    ⟨Nat.zero_add _, [], .start, Filled.nil dst, rfl, Nat.zero_le _, Nat.le_refl 0⟩
    (Nat.lt_succ_self _)
  rintro ⟨ip, op, l, t, dst'⟩ ⟨position, bytes, pending⟩
  have last : ∃ bytes, Pending src dst.length src.length (t + l) op dst' bytes := by
    have anchor : src.length - (t + l) = ip - t := by omega
    have carried := pending.carried
    refine ⟨bytes, ?_, pending.filled, pending.at_end, ?_, by omega⟩
    · rw [anchor]
      exact pending.emits
    · rw [anchor]
      exact pending.short
  refine Returns.ite ?_ ?_
  · intro more
    refine Returns.ite ?_ ?_
    · intro _
      exact Returns.ok last
    · intro _
      have core := returns_lzo1x1CompressCore pending (show 20 < min l 49152 by omega)
        (Nat.min_le_right _ _) (by omega) enough
      refine Returns.bind core ?_
      rintro ⟨t', op', dst''⟩ ⟨bytes', pending'⟩
      exact Returns.ok ⟨⟨by omega, bytes', pending'⟩, by simp only; omega⟩
  · intro _
    exact Returns.ok last

/-- What stands in front of the last literals: with them and the end mark it is a block. -/
theorem returns_storeLastLength {t : Nat} {bytes : List UInt8}
    (pending : Pending src cap src.length t op dst bytes) (positive : 0 < t)
    (enough : src.length + src.length / 16 + 67 ≤ cap) :
    Returns (storeLastLength t op dst) fun (dst', op') => ∃ bytes',
      Filled cap bytes' dst' ∧ op' = bytes'.length ∧
        bytes'.length + t + 3 ≤ src.length + src.length / 16 + 67 ∧
        IsBlock (bytes' ++ slice src (src.length - t) t ++ endBytes) src [] := by
  obtain ⟨emits, filled, at_end, short, carried⟩ := pending
  have whole : src.length - t + t = src.length := Nat.sub_add_cancel carried
  have header := length_runHeader t
  refine Returns.ite ?_ fun started => Returns.ite ?_ ?_
  · rintro ⟨nothing, few⟩
    obtain rfl : bytes = [] := List.eq_nil_of_length_eq_zero (at_end.symm.trans nothing)
    have size : src.length = t := by
      have := emits.position_of_nil rfl
      omega
    have all : slice src (src.length - t) t = src := by
      rw [size, Nat.sub_self, ← size, slice, List.drop_zero, List.take_length]
    refine Returns.bind (filled.push at_end (by omega) _) ?_
    intro dst₁ filled₁
    rw [List.nil_append] at filled₁
    refine Returns.ok ⟨_, filled₁, by rw [nothing]; rfl, ?_, ?_⟩
    · rw [List.length_singleton]
      omega
    · rw [all, List.append_assoc, List.singleton_append, ← size]
      exact ⟨_, _, _, start_literals (by omega) (by omega) endBytes,
        .eof (parse_endBytes _ [])⟩
  · intro few
    have not_first : bytes ≠ [] := by
      rintro rfl
      exact started ⟨at_end, by omega⟩
    refine Returns.bind (returns_addLiterals emits not_first filled at_end positive (by omega)
      whole.le) ?_
    rintro dst₁ ⟨bytes', same_length, filled₁, covers⟩
    rw [whole] at covers
    exact Returns.ok ⟨bytes', filled₁, at_end.trans same_length.symm, by omega, covers.block⟩
  · intro many
    have covers := emits.covers.run (show 4 ≤ t by omega) whole.le
    rw [whole, ← List.append_assoc] at covers
    have fits : (bytes ++ runHeader t).length + t + 3 ≤ src.length + src.length / 16 + 67 := by
      rw [List.length_append]
      split at header <;> omega
    refine (returns_storeRunLength filled at_end (by omega)).mono ?_
    rintro ⟨dst₁, op₁⟩ ⟨filled₁, at_end₁⟩
    exact ⟨_, filled₁, at_end₁, fits, covers.block⟩

theorem returns_storeLastLiterals {t : Nat} {bytes : List UInt8}
    (pending : Pending src cap src.length t op dst bytes)
    (enough : src.length + src.length / 16 + 67 ≤ cap) :
    Returns (storeLastLiterals src t op dst) fun (dst', op') => ∃ bytes',
      Filled cap bytes' dst' ∧ op' = bytes'.length ∧
        bytes'.length + 3 ≤ src.length + src.length / 16 + 67 ∧
        IsBlock (bytes' ++ endBytes) src [] := by
  refine Returns.ite ?_ ?_
  · intro positive
    refine Returns.bind (returns_storeLastLength pending positive enough) ?_
    rintro ⟨dst₁, op₁⟩ ⟨bytes', filled₁, at_end₁, fits, block⟩
    have carried := pending.carried
    have inside : src.length - t + t ≤ src.length := by omega
    refine Returns.bind (returns_copyWords_from filled₁ at_end₁ inside (by omega)) ?_
    intro dst₂ filled₂
    have total : (bytes' ++ slice src (src.length - t) t).length = bytes'.length + t := by
      rw [List.length_append, length_slice inside]
    exact Returns.ok ⟨_, filled₂, by rw [total, at_end₁], by rw [total]; exact fits, block⟩
  · intro none_left
    obtain rfl : t = 0 := Nat.le_zero.mp (Nat.not_lt.mp none_left)
    have short := pending.short
    exact Returns.ok ⟨bytes, pending.filled, pending.at_end, by omega, pending.emits.covers.block⟩

/-- With the room its callers give it the compressor returns a block of the source. -/
theorem returns_lzo1x1Compress (src dst : List UInt8)
    (enough : src.length + src.length / 16 + 67 ≤ dst.length) :
    Returns (lzo1x1Compress src dst) fun (len, dst') =>
      dst'.length = dst.length ∧ len ≤ src.length + src.length / 16 + 67 ∧
        IsBlock (dst'.take len) src [] := by
  refine Returns.bind (returns_compressChunks enough) ?_
  rintro ⟨t, op, dst₀⟩ ⟨bytes, pending⟩
  refine Returns.bind (returns_storeLastLiterals pending enough) ?_
  rintro ⟨dst₁, op₁⟩ ⟨bytes', filled₁, at_end₁, fits, block⟩
  refine Returns.bind (filled₁.push at_end₁ (by omega) _) ?_
  intro dst₂ filled₂
  refine Returns.bind (filled₂.push (by rw [at_end₁, List.length_append]; rfl)
    (by omega) _) ?_
  intro dst₃ filled₃
  refine Returns.bind (filled₃.push (by rw [at_end₁, List.length_append, List.length_append]; rfl)
    (by omega) _) ?_
  intro dst₄ filled₄
  have written : bytes' ++ [UInt8.ofNat (M4_MARKER ||| 1)] ++ [0] ++ [0] = bytes' ++ endBytes := by
    rw [List.append_assoc, List.append_assoc]
    rfl
  rw [written] at filled₄
  have length_eq : op₁ + 3 = (bytes' ++ endBytes).length := by
    rw [at_end₁, List.length_append]
    rfl
  refine Returns.ok ⟨filled₄.length_eq, at_end₁ ▸ fits, ?_⟩
  rw [length_eq, filled₄.take_eq]
  exact block

/-- What `lzo1x_1_compress` writes, `lzo1x_decompress` turns into the source again. -/
theorem lzo1xDecompress_lzo1x1Compress (src dst dst' : List UInt8)
    (enough : src.length + src.length / 16 + 67 ≤ dst.length) (room : src.length ≤ dst'.length) :
    ∃ len out, lzo1x1Compress src dst = .ok (len, out) ∧
      len ≤ src.length + src.length / 16 + 67 ∧
      ∃ back, lzo1xDecompress (out.take len) dst' = .ok (.ok, src.length, back) ∧
        back.take src.length = src := by
  obtain ⟨⟨len, out⟩, run, -, bound, block⟩ := returns_lzo1x1Compress src dst enough
  refine ⟨len, out, run, bound, ?_⟩
  exact lzo1xDecompress_of_block block room

/-- Sixty-four equal bytes, which become twenty-nine. -/
theorem lzo1xDecompress_lzo1x1Compress_run :
    ∃ len out, lzo1x1Compress (List.replicate 64 7) (malloc 135) = .ok (len, out) ∧ len = 29 ∧
      len ≤ 135 ∧
      ∃ back, lzo1xDecompress (out.take len) (malloc 64) = .ok (.ok, 64, back) ∧
        back.take 64 = List.replicate 64 7 := by
  obtain ⟨len, out, run, bound, back⟩ := lzo1xDecompress_lzo1x1Compress (List.replicate 64 7)
    (malloc 135) (malloc 64) (by rw [List.length_replicate, length_malloc])
    (by rw [List.length_replicate, length_malloc])
  have length_eq : (lzo1x1Compress (List.replicate 64 7) (malloc 135)).map Prod.fst = .ok 29 := by
    decide +kernel
  rw [run] at length_eq
  exact ⟨len, out, run, Except.ok.inj length_eq, bound, back⟩

end MobilePIM.Lzo
