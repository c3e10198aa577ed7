import MobilePIM.Lzo.Decompress

/-!
What the decoder does with its input, whatever it is. It checks nothing, so it
may leave its buffers; it does so exactly where the input does not start with a
block, or with one whose contents do not fit the output.
-/

namespace MobilePIM.Lzo

open Memory Total

variable {src out dst : List UInt8} {cap ip op m : Nat}

/-- The output has room for what an instruction says, and a match reaches back into it. -/
def Usable (cap : Nat) (out : List UInt8) : Option Parsed → Prop
  | none => False
  | some (.run literals _) => out.length + literals.length ≤ cap
  | some (.copy offset length literals _) =>
      offset ≤ out.length ∧ out.length + length + literals.length ≤ cap
  | some (.eof _) => True

/-- The instruction has been done, and the cursor stands behind it. -/
def Follows (src : List UInt8) (cap : Nat) (out : List UInt8) (ip : Nat)
    (parsed : Option Parsed) : Place × Cursor → Prop
  | (place, c) => ∃ p out', parsed = some p ∧ Step out p place out' (src.drop c.ip) ∧
      Filled cap out' c.dst ∧ c.op = out'.length ∧ ip ≤ c.ip ∧ c.ip ≤ src.length

theorem parseCopy_drop {offset length : Nat} {tok : UInt8}
    (h : ip + tok.toNat % 4 ≤ src.length) :
    parseCopy offset length tok (src.drop ip) = some (.copy offset length
      (slice src ip (tok.toNat % 4)) (src.drop (ip + tok.toNat % 4))) := by
  rw [parseCopy, if_neg (by rw [List.length_drop]; omega), List.drop_drop]
  rfl

theorem parseCopy_short {offset length : Nat} {tok : UInt8}
    (h : src.length < ip + tok.toNat % 4) (inside : ip ≤ src.length) :
    parseCopy offset length tok (src.drop ip) = none := by
  rw [parseCopy, if_pos (by rw [List.length_drop]; omega)]

/-- A match needs room for its copy, whatever stands behind it. -/
theorem not_usable_parseCopy {offset length : Nat} {tok : UInt8} {input : List UInt8}
    (h : out.length < offset ∨ cap < out.length + length) :
    ¬Usable cap out (parseCopy offset length tok input) := by
  unfold parseCopy
  split
  · exact id
  · rintro ⟨reaches, room⟩
    omega

section Bits

theorem and_three (n : Nat) : n &&& 3 = n % 4 := Nat.and_two_pow_sub_one_eq_mod n 2

theorem and_thirtyOne (n : Nat) : n &&& 31 = n % 32 := Nat.and_two_pow_sub_one_eq_mod n 5

theorem shiftRight_two (n : Nat) : n >>> 2 = n / 4 := Nat.shiftRight_eq_div_pow n 2

/-- An offset with two of its bits in the first byte. -/
theorem offset_low (base t b : Nat) : base + (t >>> 2) + (b <<< 2) = base + t / 4 + 4 * b := by
  rw [shiftRight_two, Nat.shiftLeft_eq, Nat.mul_comm b]

theorem offset_near (t b : Nat) :
    1 + ((t >>> 2) &&& 7) + (b <<< 3) = 1 + t / 4 % 8 + 8 * b := by
  rw [shiftRight_two, and_seven, Nat.shiftLeft_eq, Nat.mul_comm b]

theorem length_near {t : Nat} (h : 64 ≤ t) : (t >>> 5) - 1 + 2 = t / 32 + 1 := by
  rw [Nat.shiftRight_eq_div_pow]
  omega

theorem offset_far (t : Nat) : (t &&& 8) <<< 11 = 0x4000 * (t / 8 % 2) := by
  rw [and_eight, Nat.shiftLeft_eq]
  omega

end Bits

section Match

variable {c : Cursor} {offset length : Nat} {tok : UInt8}

/-- The literals behind a match that has been copied. -/
theorem ends_matchDone (filled : Filled cap (Backref.copy out offset length) c.dst)
    (at_end : c.op = (Backref.copy out offset length).length) (reaches : offset ≤ out.length)
    (inside : c.ip ≤ src.length) (here : src[c.ip - 2]? = some tok) :
    Ends (matchDone src c)
      (Follows src cap out c.ip (parseCopy offset length tok (src.drop c.ip)))
      (Outside (¬Usable cap out (parseCopy offset length tok (src.drop c.ip)))) := by
  have read := ends_byte src (c.ip - 2)
  obtain ⟨within, same⟩ := List.getElem?_eq_some_iff.mp here
  refine Ends.bind (read.mono (fun _ => id) (Outside.mono fun past => by omega)) ?_
  rintro b ⟨-, found⟩
  rw [here] at found
  cases found
  dsimp only
  rw [and_three]
  refine Ends.ite ?_ ?_
  · intro none_behind
    have parsed : parseCopy offset length tok (src.drop c.ip) =
        some (.copy offset length [] (src.drop c.ip)) := by
      rw [parseCopy_drop (by omega), none_behind]
      rfl
    have step : Step out (.copy offset length [] (src.drop c.ip)) .matched
        (Backref.copy out offset length ++ []) (src.drop c.ip) := .copy reaches
    rw [List.append_nil] at step
    exact Ends.ok ⟨_, _, parsed, step, filled, at_end, Nat.le_refl _, inside⟩
  · intro some_behind
    have copied := ends_copyBytes (n := 0) (t := tok.toNat % 4)
      (fun n dst => c.ip + n ≤ src.length ∧
        Filled cap (Backref.copy out offset length ++ slice src c.ip n) dst)
      (fun n dst h => step_from at_end 1 n dst h)
      ⟨inside, by simpa [slice] using filled⟩ (Nat.zero_add _)
    refine Ends.bind (copied.mono (fun _ => id) (Outside.mono ?_)) ?_
    · rintro (past | exceeds)
      · rw [parseCopy_short past inside]
        exact id
      · by_cases past : src.length < c.ip + tok.toNat % 4
        · rw [parseCopy_short past inside]
          exact id
        · rw [parseCopy_drop (Nat.not_lt.mp past)]
          rintro ⟨-, room⟩
          rw [length_slice (Nat.not_lt.mp past), ← Backref.length_copy out offset] at room
          omega
    · rintro dst' ⟨within', filled'⟩
      have length_eq : (slice src c.ip (tok.toNat % 4)).length = tok.toNat % 4 :=
        length_slice within'
      have not_nil : slice src c.ip (tok.toNat % 4) ≠ [] := by
        intro nil
        rw [nil] at length_eq
        exact some_behind length_eq.symm
      have step : Step out (.copy offset length (slice src c.ip (tok.toNat % 4))
          (src.drop (c.ip + tok.toNat % 4))) (behind (slice src c.ip (tok.toNat % 4)))
          (Backref.copy out offset length ++ slice src c.ip (tok.toNat % 4))
          (src.drop (c.ip + tok.toNat % 4)) := .copy reaches
      rw [behind, if_neg not_nil] at step
      refine Ends.ok ⟨_, _, parseCopy_drop within', step, filled', ?_, Nat.le_add_right _ _,
        within'⟩
      rw [List.length_append, length_eq, at_end]

theorem ends_lookBehind (op offset : Nat) :
    Ends (lookBehind op offset) (fun m => m + offset = op) (Outside (op < offset)) := by
  refine Ends.ite ?_ ?_
  · intro reaches
    exact Ends.ok (Nat.sub_add_cancel reaches)
  · intro before
    exact Ends.error (Outside.load 0 (Nat.not_le.mp before))

/-- A match, however it is copied. -/
theorem ends_match {copyAll : Nat → Access (List UInt8)} (at_end : c.op = out.length)
    (inside : c.ip ≤ src.length) (here : src[c.ip - 2]? = some tok)
    (copies : ∀ m, m + offset = out.length →
      Ends (copyAll m) (Filled cap (Backref.copy out offset length))
        (Outside (cap < out.length + length))) :
    Ends (do
        let m ← lookBehind c.op offset
        let dst ← copyAll m
        matchDone src ⟨c.ip, c.op + length, dst⟩)
      (Follows src cap out c.ip (parseCopy offset length tok (src.drop c.ip)))
      (Outside (¬Usable cap out (parseCopy offset length tok (src.drop c.ip)))) := by
  have look := ends_lookBehind c.op offset
  refine Ends.bind (look.mono (fun _ => id) (Outside.mono fun before =>
    not_usable_parseCopy (Or.inl (at_end ▸ before)))) ?_
  intro m place
  rw [at_end] at place
  refine Ends.bind ((copies m place).mono (fun _ => id) (Outside.mono fun exceeds =>
    not_usable_parseCopy (Or.inr exceeds))) ?_
  intro dst filled
  exact ends_matchDone filled (by rw [Backref.length_copy, at_end]) (by omega) inside here

theorem ends_copyBytes_within (filled : Filled cap out dst) (at_end : op = out.length)
    (positive : 0 < offset) (place : m + offset = out.length) :
    Ends (copyBytes copyWithin dst op m length) (Filled cap (Backref.copy out offset length))
      (Outside (cap < out.length + length)) :=
  ends_copyBytes (n := 0) (Filled cap <| Backref.copy out offset ·)
    (fun _ _ => step_within at_end place positive) filled (Nat.zero_add _)

theorem ends_copyMatch (filled : Filled cap out c.dst) (at_end : c.op = out.length)
    (positive : 0 < offset) (inside : c.ip ≤ src.length) (here : src[c.ip - 2]? = some tok) :
    Ends (copyMatch src offset length c)
      (Follows src cap out c.ip (parseCopy offset length tok (src.drop c.ip)))
      (Outside (¬Usable cap out (parseCopy offset length tok (src.drop c.ip)))) :=
  ends_match at_end inside here fun _ => ends_copyBytes_within filled at_end positive

theorem ends_copyLong (filled : Filled cap out dst) (at_end : op = out.length)
    (positive : 0 < offset) (place : m + offset = out.length) :
    Ends (copyLong dst op m length) (Filled cap (Backref.copy out offset length))
      (Outside (cap < out.length + length)) := by
  refine Ends.ite ?_ fun _ => ends_copyBytes_within filled at_end positive place
  intro far
  exact ends_copyWords (Filled cap <| Backref.copy out offset ·)
    (fun k _ _ few => step_within at_end place (by omega)) filled

theorem ends_copyLongMatch (filled : Filled cap out c.dst) (at_end : c.op = out.length)
    (positive : 0 < offset) (inside : c.ip ≤ src.length) (here : src[c.ip - 2]? = some tok) :
    Ends (copyLongMatch src offset length c)
      (Follows src cap out c.ip (parseCopy offset length tok (src.drop c.ip)))
      (Outside (¬Usable cap out (parseCopy offset length tok (src.drop c.ip)))) :=
  ends_match at_end inside here fun _ => ends_copyLong filled at_end positive

theorem ends_nearMatch {offset : Nat → Nat} (filled : Filled cap out c.dst)
    (at_end : c.op = out.length) (positive : ∀ b, 0 < offset b)
    (here : src[c.ip - 1]? = some tok) :
    Ends (nearMatch src offset length c)
      (Follows src cap out c.ip (parseNear offset length tok (src.drop c.ip)))
      (Outside (¬Usable cap out (parseNear offset length tok (src.drop c.ip)))) := by
  have read := ends_byte src c.ip
  refine Ends.bind (read.mono (fun _ => id) (Outside.mono ?_)) ?_
  · intro past
    rw [List.drop_eq_nil_of_le past]
    exact id
  · rintro b ⟨inside, found⟩
    obtain ⟨_, same⟩ := List.getElem?_eq_some_iff.mp found
    rw [List.drop_eq_getElem_cons inside, same, parseNear]
    have next : src[c.ip + 1 - 2]? = some tok := by
      rw [Nat.add_sub_add_right]
      exact here
    have copied : Ends (copyMatch src (offset b.toNat) length { c with ip := c.ip + 1 })
        (Follows src cap out (c.ip + 1)
          (parseCopy (offset b.toNat) length tok (src.drop (c.ip + 1))))
        (Outside (¬Usable cap out
          (parseCopy (offset b.toNat) length tok (src.drop (c.ip + 1))))) :=
      ends_copyMatch filled at_end (positive b.toNat) inside next
    refine copied.mono ?_ fun _ => id
    rintro ⟨place, c'⟩ ⟨p, out', parsed, step, filled', at_end', after, inside'⟩
    exact ⟨p, out', parsed, step, filled', at_end', (Nat.le_succ _).trans after, inside'⟩

/-- What the bytes of a length have added up to, and the ones still to read. -/
abbrev LengthSoFar (src : List UInt8) (ip : Nat) : Nat × Nat → Prop := fun (sum, ip') =>
  ip ≤ ip' ∧ ip' ≤ src.length ∧ sum ≤ 255 * ip' ∧ Runs.read 0 (src.drop ip) =
    (Runs.read 0 (src.drop ip')).map fun (n, rest) => (sum + n, rest)

theorem ends_lengthTurn (base : Nat) {s : Nat × Nat} (so_far : LengthSoFar src ip s) :
    Ends (do
        let b ← byte src s.2
        pure (if b = 0 then .inl (s.1 + 255, s.2 + 1)
          else .inr (s.1 + (base + b.toNat), s.2 + 1)))
      (Sum.elim (fun s' => LengthSoFar src ip s' ∧ src.length - s'.2 < src.length - s.2)
        fun (n, ip') => readLength base 0 (src.drop ip) = some (n, src.drop ip') ∧ ip ≤ ip' ∧
          ip' ≤ src.length)
      (Outside (readLength base 0 (src.drop ip) = none)) := by
  obtain ⟨sum, ip'⟩ := s
  obtain ⟨after, inside, small, so_far⟩ := so_far
  refine Ends.bind ((ends_byte src ip').mono (fun _ => id) (Outside.mono ?_)) ?_
  · intro past
    rw [readLength, if_pos rfl, so_far, List.drop_eq_nil_of_le past]
    rfl
  · rintro b ⟨more, found⟩
    obtain ⟨_, rfl⟩ := List.getElem?_eq_some_iff.mp found
    rw [Runs.map_read_drop more] at so_far
    by_cases run : src[ip'] = 0
    · rw [if_pos run] at so_far ⊢
      exact Ends.ok ⟨⟨by omega, more, by omega, so_far⟩, by simp only; omega⟩
    · rw [if_neg run] at so_far ⊢
      refine Ends.ok ⟨?_, by omega, more⟩
      rw [readLength, if_pos rfl, so_far, Option.map_some, Nat.add_left_comm]

theorem ends_continueLength (base t : Nat) (inside : ip ≤ src.length) :
    Ends (continueLength src base t ip)
      (fun (n, ip') => readLength base t (src.drop ip) = some (n, src.drop ip') ∧ ip ≤ ip' ∧
        ip' ≤ src.length)
      (Outside (readLength base t (src.drop ip) = none)) := by
  refine Ends.ite ?_ ?_
  · rintro rfl
    exact Ends.loop (LengthSoFar src ip) (fun s => src.length - s.2)
      (fun _ so_far => ends_lengthTurn base so_far)
      ⟨Nat.le_refl _, inside, Nat.zero_le _, (Runs.map_zero_add _).symm⟩ (by simp only; omega)
  · intro given
    exact Ends.ok ⟨by rw [readLength, if_neg given], Nat.le_refl _, inside⟩

/-- Of so few bytes no length passes the end of the 64-bit numbers. -/
def LengthsFit (src : List UInt8) : Prop := 255 * src.length + 511 ≤ 2 ^ 64

/-- So the decoder may count with natural numbers: what is added to a length is at most 9. -/
theorem ends_continueLength_fits {base t : Nat} (fits : LengthsFit src) (small : base ≤ 31)
    (few : t ≤ 31) (inside : ip ≤ src.length) :
    Ends (continueLength src base t ip) (fun (n, _) => n + 9 < 2 ^ 64) fun _ => True := by
  have enough : 255 * src.length + 511 ≤ 2 ^ 64 := fits
  refine Ends.ite ?_ fun _ => Ends.ok (by simp only; omega)
  rintro rfl
  refine Ends.loop (fun (sum, ip') => sum ≤ 255 * ip' ∧ ip' ≤ src.length)
    (fun (_, ip') => src.length - ip') ?_ ⟨Nat.zero_le _, inside⟩ (by simp only; omega)
  rintro ⟨sum, ip'⟩ ⟨counted, inside'⟩
  have counted : sum ≤ 255 * ip' := counted
  refine Ends.bind ((ends_byte src ip').mono (fun _ => id) fun _ _ => trivial) ?_
  rintro b ⟨more, -⟩
  have byte := b.toNat_lt
  by_cases run : b = 0
  · rw [if_pos run]
    exact Ends.ok ⟨⟨by omega, more⟩, by simp only; omega⟩
  · rw [if_neg run]
    exact Ends.ok (show sum + (base + b.toNat) + 9 < 2 ^ 64 by omega)

theorem ends_readLE16 (src : List UInt8) (ip : Nat) :
    Ends (readLE16 src ip)
      (fun off => ∃ low high : UInt8, src.drop ip = low :: high :: src.drop (ip + 2) ∧
        off = low.toNat + 256 * high.toNat ∧ src[ip]? = some low ∧ ip + 2 ≤ src.length)
      (Outside ((src.drop ip).length < 2)) := by
  by_cases inside : ip + 2 ≤ src.length
  · have here : src.drop ip = src[ip] :: src[ip + 1] :: src.drop (ip + 2) := by
      rw [List.drop_eq_getElem_cons (by omega), List.drop_eq_getElem_cons (by omega)]
    have value : Words.leNat (slice src ip 2) = src[ip].toNat + 256 * src[ip + 1].toNat := by
      rw [slice, here]
      simp [List.take, Words.leNat]
    have small : src[ip].toNat + 256 * src[ip + 1].toNat < 2 ^ 16 := by
      have := src[ip].toNat_lt
      have := src[ip + 1].toNat_lt
      omega
    rw [readLE16, readWord_ok inside]
    refine Ends.ok ⟨_, _, here, ?_, List.getElem?_eq_getElem _, inside⟩
    rw [Words.le, value, BitVec.toNat_ofNat]
    exact Nat.mod_eq_of_lt small
  · have short : ¬ip + 2 ≤ src.length := inside
    rw [readLE16, readWord, load, if_neg short]
    exact Ends.error (Outside.load ip (by rw [List.length_drop]; omega))

theorem parseFar_short {base distance length : Nat} {input : List UInt8} (h : input.length < 2) :
    parseFar base distance length input = none := by
  match input with
  | [] => rfl
  | [_] => rfl
  | _ :: _ :: _ =>
      rw [List.length_cons, List.length_cons] at h
      omega

/-- What one instruction comes to: the next one, or the end of the block. -/
def Turned (src : List UInt8) (cap : Nat) (out : List UInt8) (ip : Nat) (parsed : Option Parsed) :
    (Place × Cursor) ⊕ (Status × Nat × List UInt8) → Prop
  | .inl next => Follows src cap out ip parsed next
  | .inr (status, n, dst) => ∃ rest, parsed = some (.eof rest) ∧ n = out.length ∧
      Filled cap out dst ∧ status = if rest = [] then .ok else .inputNotConsumed

theorem Follows.later {ip' : Nat} {parsed : Option Parsed} {next : Place × Cursor} (le : ip ≤ ip')
    (h : Follows src cap out ip' parsed next) : Follows src cap out ip parsed next := by
  obtain ⟨p, out', found, step, filled, at_end, after, inside⟩ := h
  exact ⟨p, out', found, step, filled, at_end, le.trans after, inside⟩

theorem Turned.later {ip' : Nat} {parsed : Option Parsed}
    {next : (Place × Cursor) ⊕ (Status × Nat × List UInt8)} (le : ip ≤ ip')
    (h : Turned src cap out ip' parsed next) : Turned src cap out ip parsed next := by
  cases next with
  | inl next => exact Follows.later le h
  | inr result => exact h

theorem turned_eofFound {rest : List UInt8} (filled : Filled cap out c.dst)
    (at_end : c.op = out.length) (inside : c.ip ≤ src.length) (here : rest = src.drop c.ip) :
    Turned src cap out ip (some (.eof rest)) (.inr (eofFound src c)) := by
  refine ⟨rest, rfl, at_end, filled, ?_⟩
  have nothing : rest = [] ↔ c.ip = src.length := by
    rw [here, List.drop_eq_nil_iff]
    omega
  by_cases stop : c.ip = src.length
  · rw [if_pos stop, if_pos (nothing.mpr stop)]
  · rw [if_neg stop, if_neg (mt nothing.mp stop), if_pos (by omega)]

/-- The offset of a long match and its copy, or the end of the block. -/
theorem ends_far {base distance : Nat} (filled : Filled cap out c.dst) (at_end : c.op = out.length)
    (rest : Nat → Access ((Place × Cursor) ⊕ (Status × Nat × List UInt8)))
    (ends : ∀ off, distance + off / 4 = 0 →
      rest off = .ok (.inr (eofFound src { c with ip := ip + 2 })))
    (copies : ∀ off, distance + off / 4 ≠ 0 → rest off = Sum.inl <$>
      copyLongMatch src (base + distance + off / 4) length { c with ip := ip + 2 }) :
    Ends (readLE16 src ip >>= rest)
      (Turned src cap out ip (parseFar base distance length (src.drop ip)))
      (Outside (¬Usable cap out (parseFar base distance length (src.drop ip)))) := by
  refine Ends.bind ((ends_readLE16 src ip).mono (fun _ => id) (Outside.mono ?_)) ?_
  · intro short
    rw [parseFar_short short]
    exact id
  · rintro off ⟨low, high, split, rfl, here, inside⟩
    rw [split, parseFar]
    by_cases none_there : distance + (low.toNat + 256 * high.toNat) / 4 = 0
    · rw [if_pos none_there, ends _ none_there]
      exact Ends.ok (turned_eofFound (c := { c with ip := ip + 2 }) filled at_end inside rfl)
    · rw [if_neg none_there, copies _ none_there]
      have back : src[ip + 2 - 2]? = some low := here
      generalize far : base + distance + (low.toNat + 256 * high.toNat) / 4 = offset
      have copied : Ends (copyLongMatch src offset length { c with ip := ip + 2 })
          (Follows src cap out (ip + 2) (parseCopy offset length low (src.drop (ip + 2))))
          (Outside (¬Usable cap out (parseCopy offset length low (src.drop (ip + 2))))) :=
        ends_copyLongMatch filled at_end (by omega) inside back
      exact Ends.map (copied.mono (fun _ h => h.later (Nat.le_add_right _ _)) fun _ => id)

theorem ends_continued {base low least distance : Nat} (filled : Filled cap out c.dst)
    (at_end : c.op = out.length) (inside : c.ip ≤ src.length)
    (rest : Nat → Nat → Nat → Access ((Place × Cursor) ⊕ (Status × Nat × List UInt8)))
    (ends : ∀ n ip' off, distance + off / 4 = 0 →
      rest n ip' off = .ok (.inr (eofFound src { c with ip := ip' + 2 })))
    (copies : ∀ n ip' off, distance + off / 4 ≠ 0 → rest n ip' off = Sum.inl <$>
      copyLongMatch src (base + distance + off / 4) (n + 2) { c with ip := ip' + 2 }) :
    Ends (do
        let (n, ip') ← continueLength src least low c.ip
        let off ← readLE16 src ip'
        rest n ip' off)
      (Turned src cap out c.ip ((readLength least low (src.drop c.ip)).bind fun (n, input) =>
        parseFar base distance (n + 2) input))
      (Outside (¬Usable cap out ((readLength least low (src.drop c.ip)).bind fun (n, input) =>
        parseFar base distance (n + 2) input))) := by
  have continued := ends_continueLength least low inside
  refine Ends.bind (continued.mono (fun _ => id) (Outside.mono ?_)) ?_
  · intro unread
    rw [unread]
    exact id
  · rintro ⟨n, ip'⟩ ⟨read, after, inside'⟩
    rw [read, Option.bind_some]
    have far := ends_far filled at_end (rest n ip') (ends n ip') (copies n ip')
    exact far.mono (fun _ h => h.later after) fun _ => id

theorem ends_matchTurn {place : Place} (filled : Filled cap out c.dst)
    (at_end : c.op = out.length) (inside : c.ip ≤ src.length)
    (here : src[c.ip - 1]? = some tok) (what : 16 ≤ tok.toNat ∨ place = .literals) :
    Ends (matchTurn src tok.toNat c)
      (Turned src cap out c.ip (parse place (tok :: src.drop c.ip)))
      (Outside (¬Usable cap out (parse place (tok :: src.drop c.ip)))) := by
  rw [parse]
  refine Ends.ite ?_ fun below64 => Ends.ite ?_ fun below32 => Ends.ite ?_ ?_
  · intro (least : 64 ≤ tok.toNat)
    rw [if_neg (by omega), if_neg (by omega), if_neg (by omega)]
    rw [funext (offset_near tok.toNat), length_near least]
    exact Ends.map (ends_nearMatch filled at_end (fun _ => by omega) here)
  · intro (least : 32 ≤ tok.toNat)
    rw [if_neg (by omega), if_neg (by omega), if_pos (by omega), and_thirtyOne]
    refine ends_continued filled at_end inside (fun t ip off => Sum.inl <$>
      copyLongMatch src (1 + (off >>> 2)) (t + 2) { c with ip := ip + 2 }) ?_ ?_
    · intro n ip' off none_there
      omega
    · intro n ip' off _
      rw [shiftRight_two, Nat.zero_add]
  · intro (least : 16 ≤ tok.toNat)
    rw [if_neg (by omega), if_pos (by omega), and_seven, offset_far]
    refine ends_continued filled at_end inside (fun t ip off =>
      if 0x4000 * (tok.toNat / 8 % 2) + (off >>> 2) = 0 then
        pure (.inr (eofFound src { c with ip := ip + 2 }))
      else Sum.inl <$> copyLongMatch src (0x4000 * (tok.toNat / 8 % 2) + (off >>> 2) + 0x4000)
        (t + 2) { c with ip := ip + 2 }) ?_ ?_
    · intro n ip' off none_there
      rw [shiftRight_two, if_pos none_there]
      rfl
    · intro n ip' off some_distance
      rw [shiftRight_two, if_neg some_distance, Nat.add_comm _ 0x4000, ← Nat.add_assoc]
  · intro (small : ¬16 ≤ tok.toNat)
    rw [if_pos (by omega)]
    obtain rfl : place = .literals := what.resolve_left small
    rw [funext (offset_low 1 tok.toNat)]
    exact Ends.map (ends_nearMatch filled at_end (fun _ => by omega) here)

/-- A run of literals, whose length may be continued in bytes. -/
theorem ends_literalRun (filled : Filled cap out c.dst) (at_end : c.op = out.length)
    (inside : c.ip ≤ src.length) (t : Nat) :
    Ends (literalRun src t c)
      (Follows src cap out c.ip ((readLength 15 t (src.drop c.ip)).bind fun (n, input) =>
        parseRun (n + 3) input))
      (Outside (¬Usable cap out ((readLength 15 t (src.drop c.ip)).bind fun (n, input) =>
        parseRun (n + 3) input))) := by
  have continued := ends_continueLength 15 t inside
  refine Ends.bind (continued.mono (fun _ => id) (Outside.mono ?_)) ?_
  · intro unread
    rw [unread]
    exact id
  · rintro ⟨n, ip'⟩ ⟨read, after, inside'⟩
    rw [read, Option.bind_some]
    dsimp only
    have run (h : ip' + (n + 3) ≤ src.length) : parseRun (n + 3) (src.drop ip') =
        some (.run (slice src ip' (n + 3)) (src.drop (ip' + (n + 3)))) := by
      rw [parseRun, if_neg (by rw [List.length_drop]; omega), List.drop_drop]
      rfl
    have short (h : src.length < ip' + (n + 3)) : parseRun (n + 3) (src.drop ip') = none := by
      rw [parseRun, if_pos (by rw [List.length_drop]; omega)]
    have copied := ends_copyWords (t := n + 3)
      (fun k dst => ip' + k ≤ src.length ∧ Filled cap (out ++ slice src ip' k) dst)
      (fun k n dst _ => step_from at_end k n dst) ⟨inside', by simpa [slice] using filled⟩
    refine Ends.bind (copied.mono (fun _ => id) (Outside.mono ?_)) ?_
    · intro reason
      by_cases past : src.length < ip' + (n + 3)
      · rw [short past]
        exact id
      · rw [run (Nat.not_lt.mp past)]
        intro room
        rw [Usable, length_slice (Nat.not_lt.mp past)] at room
        omega
    · rintro dst ⟨within, filled'⟩
      refine Ends.ok ⟨_, _, run within, .run, filled', ?_, ?_, within⟩
      · rw [List.length_append, length_slice within, at_end]
      · exact after.trans (Nat.le_add_right _ _)

theorem ends_turn (place : Place) (filled : Filled cap out c.dst) (at_end : c.op = out.length) :
    Ends (turn src (place, c)) (Turned src cap out (c.ip + 1) (parse place (src.drop c.ip)))
      (Outside (¬Usable cap out (parse place (src.drop c.ip)))) := by
  refine Ends.bind ((ends_byte src c.ip).mono (fun _ => id) (Outside.mono ?_)) ?_
  · intro past
    rw [List.drop_eq_nil_of_le past]
    exact id
  · rintro tok ⟨inside, here⟩
    obtain ⟨_, same⟩ := List.getElem?_eq_some_iff.mp here
    rw [List.drop_eq_getElem_cons inside, same]
    have match_here (what : 16 ≤ tok.toNat ∨ place = .literals) :
        Ends (matchTurn src tok.toNat { c with ip := c.ip + 1 })
          (Turned src cap out (c.ip + 1) (parse place (tok :: src.drop (c.ip + 1))))
          (Outside (¬Usable cap out (parse place (tok :: src.drop (c.ip + 1))))) :=
      ends_matchTurn filled at_end inside here what
    cases place with
    | matched =>
        refine Ends.ite (fun least => match_here (Or.inl least)) fun small => ?_
        rw [parse, if_pos (Nat.not_le.mp small)]
        exact Ends.map
          (ends_literalRun (c := { c with ip := c.ip + 1 }) filled at_end inside tok.toNat)
    | run =>
        refine Ends.ite (fun least => match_here (Or.inl least)) fun small => ?_
        rw [parse, if_pos (Nat.not_le.mp small)]
        rw [funext (offset_low (1 + M2_MAX_OFFSET) tok.toNat)]
        exact Ends.map (ends_nearMatch filled at_end (fun _ => by omega) here)
    | literals => exact match_here (Or.inr rfl)

end Match

/-- The contents of a block begin with what its instructions have written. -/
theorem Decodes.usable {place : Place} {input result rest : List UInt8}
    (h : Decodes place out input result rest) (fits : result.length ≤ cap) :
    Usable cap out (parse place input) := by
  cases h with
  | eof parsed =>
      rw [parsed]
      trivial
  | step parsed first tail =>
      have more := tail.starts.length_le
      rw [parsed]
      cases first with
      | run =>
          rw [List.length_append] at more
          exact more.trans fits
      | copy reaches =>
          rw [List.length_append, Backref.length_copy] at more
          exact ⟨reaches, more.trans fits⟩

/-- The literals a first byte may count, with the place behind them. -/
theorem ends_firstLiterals (src dst : List UInt8) :
    Ends (firstLiterals src dst)
      (fun (place, c) => ∃ out, start src = some (place, out, src.drop c.ip) ∧
        Filled dst.length out c.dst ∧ c.op = out.length ∧ c.ip ≤ src.length)
      (Outside (∀ place out next, start src = some (place, out, next) →
        dst.length < out.length)) := by
  refine Ends.bind ((ends_byte src 0).mono (fun _ => id) (Outside.mono ?_)) ?_
  · intro empty
    rw [List.eq_nil_of_length_eq_zero (Nat.le_zero.mp empty)]
    nofun
  · rintro tok ⟨inside, here⟩
    obtain ⟨_, same⟩ := List.getElem?_eq_some_iff.mp here
    have split : src = tok :: src.drop 1 := by
      rw [← same]
      exact (List.drop_eq_getElem_cons inside)
    have length_rest : (src.drop 1).length = src.length - 1 := List.length_drop
    refine Ends.ite ?_ ?_
    · intro (counts : 17 < tok.toNat)
      have started : start src = if (src.drop 1).length < tok.toNat - 17 then none else
          some (if tok.toNat - 17 < 4 then .literals else .run,
            slice src 1 (tok.toNat - 17), src.drop (1 + (tok.toNat - 17))) := by
        rw [← List.drop_drop]
        conv_lhs => rw [split]
        rw [start, if_pos counts]
        rfl
      have copied : Ends (copyBytes (copyFrom src) dst 0 1 (tok.toNat - 17))
          (fun dst' => 1 + (tok.toNat - 17) ≤ src.length ∧
            Filled dst.length ([] ++ slice src 1 (tok.toNat - 17)) dst')
          (Outside (src.length < 1 + (tok.toNat - 17) ∨
            dst.length < ([] : List UInt8).length + (tok.toNat - 17))) :=
        ends_copyBytes (n := 0)
          (fun n dst' => 1 + n ≤ src.length ∧ Filled dst.length ([] ++ slice src 1 n) dst')
          (fun n dst h => step_from rfl 1 n dst h) ⟨inside, by simpa [slice] using Filled.nil dst⟩
          (Nat.zero_add _)
      have too_long (reason : src.length < 1 + (tok.toNat - 17) ∨
          dst.length < ([] : List UInt8).length + (tok.toNat - 17)) :
          ∀ place out next, start src = some (place, out, next) → dst.length < out.length := by
        intro place out next found
        rw [started] at found
        split at found
        · cases found
        · cases found
          rw [length_slice (by omega)]
          simp only [List.length_nil] at reason
          omega
      have copied' := copied.mono (fun _ => id) (Outside.mono too_long)
      have first (h : 1 + (tok.toNat - 17) ≤ src.length) : start src =
          some (if tok.toNat - 17 < 4 then .literals else .run,
            slice src 1 (tok.toNat - 17), src.drop (1 + (tok.toNat - 17))) := by
        rw [started, if_neg (by omega)]
      refine Ends.ite ?_ ?_
      · intro few
        refine Ends.bind copied' ?_
        rintro dst' ⟨within, filled⟩
        rw [if_pos few] at first
        refine Ends.ok ⟨_, first within, filled, ?_, within⟩
        rw [length_slice within, Nat.zero_add]
      · intro many
        refine Ends.bind copied' ?_
        rintro dst' ⟨within, filled⟩
        rw [if_neg many] at first
        exact Ends.ok ⟨_, first within, filled, (length_slice within).symm, within⟩
    · intro (small : ¬17 < tok.toNat)
      refine Ends.ok ⟨[], ?_, Filled.nil dst, rfl, Nat.zero_le _⟩
      rw [List.drop_zero]
      conv_lhs => rw [split]
      rw [start_small (Nat.not_lt.mp small), ← split]

/-- What the decoder returns: the contents of a block, and whether anything is left. -/
def Decompressed (src : List UInt8) (cap : Nat) : Status × Nat × List UInt8 → Prop
  | (status, n, dst) => ∃ result rest, IsBlock src result rest ∧ Filled cap result dst ∧
      n = result.length ∧ status = if rest = [] then .ok else .inputNotConsumed

/-- What the input says as a whole is what it still says behind what has been written. -/
abbrev Underway (src : List UInt8) (cap : Nat) : Place × Cursor → Prop := fun (place, c) =>
  ∃ out, Filled cap out c.dst ∧ c.op = out.length ∧ c.ip ≤ src.length ∧
    ∀ result rest, IsBlock src result rest ↔ Decodes place out (src.drop c.ip) result rest

theorem ends_start (src dst : List UInt8) :
    Ends (firstLiterals src dst) (Underway src dst.length)
      (Outside (¬∃ result rest, IsBlock src result rest ∧ result.length ≤ dst.length)) := by
  refine (ends_firstLiterals src dst).mono ?_ (Outside.mono ?_)
  · rintro ⟨place, c⟩ ⟨out, started, filled, at_end, inside⟩
    refine ⟨out, filled, at_end, inside, ?_⟩
    intro result rest
    constructor
    · rintro ⟨place', out', next', started', decodes⟩
      cases started.symm.trans started'
      exact decodes
    · exact fun decodes => ⟨place, out, _, started, decodes⟩
  · rintro long ⟨result, rest, ⟨place, out, next, started, decodes⟩, fits⟩
    have exceeds := long place out next started
    have := decodes.starts.length_le
    omega

theorem Underway.ends_turn {s : Place × Cursor} (underway : Underway src cap s) :
    Ends (turn src s)
      (Sum.elim (fun s' => Underway src cap s' ∧ src.length - s'.2.ip < src.length - s.2.ip)
        (Decompressed src cap))
      (Outside (¬∃ result rest, IsBlock src result rest ∧ result.length ≤ cap)) := by
  obtain ⟨place, c⟩ := s
  obtain ⟨out, filled, at_end, inside, same⟩ := underway
  refine (Lzo.ends_turn place filled at_end).mono ?_ (Outside.mono ?_)
  · rintro (⟨place', c'⟩ | ⟨status, n, dst'⟩) done
    · obtain ⟨p, out', parsed, step, filled', at_end', after, inside'⟩ := done
      refine ⟨⟨out', filled', at_end', inside', ?_⟩, by simp only; omega⟩
      intro result rest
      rw [same]
      exact ⟨fun h => h.of_step parsed step, fun h => .step parsed step h⟩
    · obtain ⟨rest, parsed, rfl, filled', status_eq⟩ := done
      exact ⟨out, rest, (same out rest).mpr (.eof parsed), filled', rfl, status_eq⟩
  · rintro unusable ⟨result, rest, block, fits⟩
    exact unusable (((same result rest).mp block).usable fits)

/-- On any input the decoder ends, with the contents of the block the input starts with;
it leaves its buffers exactly where there is none that fits. -/
theorem ends_lzo1xDecompress (src dst : List UInt8) :
    Ends (lzo1xDecompress src dst) (Decompressed src dst.length)
      (Outside (¬∃ result rest, IsBlock src result rest ∧ result.length ≤ dst.length)) := by
  refine Ends.bind (ends_start src dst) ?_
  intro s underway
  exact Ends.loop (Underway src dst.length) (fun s => src.length - s.2.ip)
    (fun _ underway => underway.ends_turn) underway (by omega)

/-- A block whose contents fit is decoded, whatever is behind it. -/
theorem lzo1xDecompress_of_block {src dst result rest : List UInt8} (block : IsBlock src result rest)
    (fits : result.length ≤ dst.length) :
    ∃ dst', lzo1xDecompress src dst =
        .ok (if rest = [] then .ok else .inputNotConsumed, result.length, dst') ∧
      dst'.take result.length = result := by
  have ends := ends_lzo1xDecompress src dst
  cases run : lzo1xDecompress src dst with
  | error e =>
      rw [run] at ends
      exact absurd ⟨result, rest, block, fits⟩ ends.2
  | ok r =>
      rw [run] at ends
      obtain ⟨status, n, dst'⟩ := r
      obtain ⟨result', rest', block', filled, rfl, rfl⟩ := ends
      obtain ⟨rfl, rfl⟩ := block.unique block'
      exact ⟨dst', rfl, filled.take_eq⟩

/-- What the decoder returns on any input: the contents of the block the input starts with, and
whether that is all of it. -/
theorem lzo1xDecompress_ok_iff (src dst result : List UInt8) (status : Status) :
    (∃ dst', lzo1xDecompress src dst = .ok (status, result.length, dst') ∧
      dst'.take result.length = result) ↔
      ∃ rest, IsBlock src result rest ∧ result.length ≤ dst.length ∧
        status = if rest = [] then .ok else .inputNotConsumed := by
  constructor
  · rintro ⟨dst', run, contents⟩
    have ends := ends_lzo1xDecompress src dst
    rw [run] at ends
    obtain ⟨result', rest, block, filled, same, status_eq⟩ := ends
    have equal : result' = result := by
      rw [← filled.take_eq, ← same, contents]
    subst equal
    exact ⟨rest, block, filled.le, status_eq⟩
  · rintro ⟨rest, block, fits, rfl⟩
    exact lzo1xDecompress_of_block block fits

/-- Without a single check the decoder leaves its buffers on exactly the inputs that do not start
with a block, or with one that is too long; and on no input does it run on for ever. -/
theorem lzo1xDecompress_faults_iff (src dst : List UInt8) :
    ((∃ e, lzo1xDecompress src dst = .error e ∧ e ≠ .outOfFuel) ↔
      ∀ result rest, IsBlock src result rest → dst.length < result.length) ∧
    lzo1xDecompress src dst ≠ .error .outOfFuel := by
  have ends := ends_lzo1xDecompress src dst
  cases run : lzo1xDecompress src dst with
  | error e =>
      rw [run] at ends
      obtain ⟨not_fuel, none_fits⟩ := ends
      refine ⟨iff_of_true ⟨e, rfl, not_fuel⟩ fun result rest block => ?_, ?_⟩
      · by_contra fits
        exact none_fits ⟨result, rest, block, Nat.not_lt.mp fits⟩
      · exact fun fuel => not_fuel (Except.error.inj fuel)
  | ok r =>
      rw [run] at ends
      obtain ⟨result, rest, block, filled, -⟩ := ends
      refine ⟨iff_of_false ?_ fun none_fits => ?_, by rintro ⟨⟩⟩
      · rintro ⟨e, ⟨⟩, -⟩
      · exact absurd (none_fits result rest block) (Nat.not_lt.mpr filled.le)

end MobilePIM.Lzo
