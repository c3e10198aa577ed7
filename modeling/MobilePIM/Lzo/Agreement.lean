import MobilePIM.Lzo.Decoding
import MobilePIM.Lzo.Safety

/-!
The two decoders of LZO1X agree. A check of the safe one ends the run only where no
block that fits goes on, and there the other one leaves its buffers; everywhere else
they do the same.
-/

namespace MobilePIM.Lzo

open Memory Total

variable {src out dst : List UInt8} {cap ip : Nat}

def Status.isOverrun : Status → Bool
  | .inputOverrun | .outputOverrun | .lookbehindOverrun => true
  | _ => false

/-- A result of a check, and the reason there is for it. -/
def Overruns (reason : Prop) : Status × Nat × List UInt8 → Prop
  | (status, _) => status.isOverrun ∧ reason

theorem Overruns.mono {reason reason' : Prop} (imp : reason → reason')
    (r : Status × Nat × List UInt8) (h : Overruns reason r) : Overruns reason' r :=
  ⟨h.1, imp h.2⟩

section Parsed

def Parsed.rest : Parsed → List UInt8
  | .run _ rest | .copy _ _ _ rest | .eof rest => rest

/-- The bytes an instruction takes besides its first; an end takes two. -/
def Parsed.atLeast : Parsed → Nat
  | .eof _ => 2
  | _ => 0

theorem parseCopy_length {offset length : Nat} {tok : UInt8} {input : List UInt8} {p : Parsed}
    (h : parseCopy offset length tok input = some p) :
    p.rest.length + p.atLeast ≤ input.length := by
  unfold parseCopy at h
  split at h
  · cases h
  · cases h
    simp only [Parsed.rest, Parsed.atLeast, List.length_drop]
    omega

theorem parseNear_length {offset : Nat → Nat} {length : Nat} {tok : UInt8} {input : List UInt8}
    {p : Parsed} (h : parseNear offset length tok input = some p) :
    p.rest.length + p.atLeast ≤ input.length := by
  cases input with
  | nil => cases h
  | cons high input => exact (parseCopy_length h).trans (Nat.le_succ _)

theorem parseFar_length {base distance length : Nat} {input : List UInt8} {p : Parsed}
    (h : parseFar base distance length input = some p) :
    p.rest.length + p.atLeast ≤ input.length := by
  by_cases short : input.length < 2
  · rw [parseFar_short short] at h
    cases h
  · obtain ⟨low, input, rfl⟩ := List.exists_cons_of_length_pos (show 0 < input.length by omega)
    simp only [List.length_cons] at short
    obtain ⟨high, input, rfl⟩ := List.exists_cons_of_length_pos (show 0 < input.length by omega)
    rw [parseFar] at h
    split at h
    · cases h
      exact Nat.le_refl _
    · exact (parseCopy_length h).trans (Nat.le_add_right _ 2)

theorem readLength_length {base low n : Nat} {input rest : List UInt8}
    (h : readLength base low input = some (n, rest)) : rest.length ≤ input.length := by
  unfold readLength at h
  split at h
  · obtain ⟨⟨m, rest'⟩, read, same⟩ := Option.map_eq_some_iff.mp h
    cases same
    exact (Runs.length_lt_of_read read).le
  · cases h
    exact Nat.le_refl _

theorem parse_length {place : Place} {input : List UInt8} {p : Parsed}
    (h : parse place input = some p) : p.rest.length + p.atLeast < input.length := by
  cases input with
  | nil => cases h
  | cons tok input =>
      refine Nat.lt_succ_of_le ?_
      rw [parse] at h
      split at h
      · cases place with
        | matched =>
            obtain ⟨⟨n, rest⟩, read, run⟩ := Option.bind_eq_some_iff.mp h
            have shorter := readLength_length read
            simp only [parseRun] at run
            split at run
            · cases run
            · cases run
              simp only [Parsed.rest, Parsed.atLeast, List.length_drop]
              omega
        | literals =>
            simp only [parseSmall] at h
            exact parseNear_length h
        | run =>
            simp only [parseSmall] at h
            exact parseNear_length h
      · split at h
        · obtain ⟨⟨n, rest⟩, read, far⟩ := Option.bind_eq_some_iff.mp h
          exact (parseFar_length far).trans (readLength_length read)
        · split at h
          · obtain ⟨⟨n, rest⟩, read, far⟩ := Option.bind_eq_some_iff.mp h
            exact (parseFar_length far).trans (readLength_length read)
          · exact parseNear_length h

/-- An end is three bytes, so that many are left wherever a block goes on. -/
theorem Decodes.three_le {place : Place} {out input result rest : List UInt8}
    (h : Decodes place out input result rest) : 3 ≤ input.length := by
  induction h with
  | eof parsed =>
      have taken := parse_length parsed
      simp only [Parsed.rest, Parsed.atLeast] at taken
      omega
  | step parsed first _ ih =>
      have taken := parse_length parsed
      cases first with
      | run => exact ih.trans (by simp only [Parsed.rest, Parsed.atLeast] at taken; omega)
      | copy _ => exact ih.trans (by simp only [Parsed.rest, Parsed.atLeast] at taken; omega)

/-- An instruction can be done, and what is behind it may be an end. -/
def GoesOn (cap : Nat) (out : List UInt8) : Option Parsed → Prop
  | none => False
  | some (.run literals rest) => out.length + literals.length ≤ cap ∧ 3 ≤ rest.length
  | some (.copy offset length literals rest) =>
      offset ≤ out.length ∧ out.length + length + literals.length ≤ cap ∧ 3 ≤ rest.length
  | some (.eof _) => True

theorem Decodes.goesOn {place : Place} {input result rest : List UInt8}
    (h : Decodes place out input result rest) (fits : result.length ≤ cap) :
    GoesOn cap out (parse place input) := by
  have usable := h.usable fits
  cases h with
  | eof parsed =>
      rw [parsed]
      trivial
  | step parsed first tail =>
      rw [parsed] at usable ⊢
      cases first with
      | run => exact ⟨usable, tail.three_le⟩
      | copy _ => exact ⟨usable.1, usable.2, tail.three_le⟩

/-- What a match needs if the run is to go on behind it and its literals. -/
theorem goesOn_parseCopy {offset length : Nat} {tok : UInt8}
    (h : GoesOn cap out (parseCopy offset length tok (src.drop ip))) (inside : ip ≤ src.length) :
    offset ≤ out.length ∧ out.length + length + tok.toNat % 4 ≤ cap ∧
      ip + tok.toNat % 4 + 3 ≤ src.length := by
  by_cases there : ip + tok.toNat % 4 ≤ src.length
  · rw [parseCopy_drop there] at h
    obtain ⟨reaches, room, three⟩ := h
    rw [length_slice there] at room
    rw [List.length_drop] at three
    exact ⟨reaches, room, by omega⟩
  · rw [parseCopy_short (Nat.not_le.mp there) inside] at h
    exact h.elim

theorem goesOn_parseRun {length : Nat}
    (h : GoesOn cap out (parseRun length (src.drop ip))) :
    out.length + length ≤ cap ∧ ip + length + 3 ≤ src.length := by
  unfold parseRun at h
  split at h
  · exact h.elim
  · rename_i there
    obtain ⟨room, three⟩ := h
    simp only [List.length_drop, List.length_take] at there room three
    omega

end Parsed

section Checks

variable {c : Cursor} {n offset : Nat} {α : Type} {reason : Prop}
  {m m' : Access (α ⊕ (Status × Nat × List UInt8))}

theorem guarded_needIP (few : src.length - c.ip < n → reason)
    (rest : n ≤ src.length - c.ip → Guarded m m' (Early (Overruns reason))) :
    Guarded (needIP src n c m) m' (Early (Overruns reason)) :=
  Guarded.check (fun h => ⟨rfl, few h⟩) fun h => rest (Nat.not_lt.mp h)

theorem guarded_needOP (few : c.dst.length - c.op < n → reason)
    (rest : n ≤ c.dst.length - c.op → Guarded m m' (Early (Overruns reason))) :
    Guarded (needOP n c m) m' (Early (Overruns reason)) :=
  Guarded.check (fun h => ⟨rfl, few h⟩) fun h => rest (Nat.not_lt.mp h)

theorem guarded_testLB (positive : 0 < offset) (before : c.op < offset → reason)
    (rest : offset ≤ c.op → Guarded m m' (Early (Overruns reason))) :
    Guarded (testLB offset c m) m' (Early (Overruns reason)) :=
  Guarded.check (fun h => ⟨rfl, before (by omega)⟩) fun h => rest (by omega)

end Checks

section Match

variable {c : Cursor} {offset length : Nat} {tok : UInt8}

theorem guarded_matchDone (filled : Filled cap (Backref.copy out offset length) c.dst)
    (at_end : c.op = out.length + length) (inside : c.ip ≤ src.length)
    (here : src[c.ip - 2]? = some tok) :
    Guarded (safeMatchDone src c) (Sum.inl <$> matchDone src c)
      (Early (Overruns ¬GoesOn cap out (parseCopy offset length tok (src.drop c.ip)))) := by
  have size := filled.length_eq
  rw [matchDone, map_bind]
  refine Guarded.bind (ends_byte src (c.ip - 2)) ?_
  rintro b ⟨-, found⟩
  rw [here] at found
  cases found
  dsimp only
  rw [and_three]
  by_cases none_behind : tok.toNat % 4 = 0
  · rw [if_pos none_behind, if_pos none_behind]
    exact Guarded.refl _
  · rw [if_neg none_behind, if_neg none_behind]
    refine guarded_needOP ?_ fun _ => guarded_needIP ?_ fun _ => Guarded.refl _
    · intro few goes_on
      have needs := goesOn_parseCopy goes_on inside
      omega
    · intro few goes_on
      have needs := goesOn_parseCopy goes_on inside
      omega

/-- A match, however it is copied. -/
theorem guarded_match {copyAll : Nat → Access (List UInt8)} {fails : Fault → Prop}
    (size : c.dst.length = cap) (at_end : c.op = out.length) (positive : 0 < offset)
    (inside : c.ip ≤ src.length) (here : src[c.ip - 2]? = some tok)
    (copies : ∀ m, m + offset = out.length →
      Ends (copyAll m) (Filled cap (Backref.copy out offset length)) fails) :
    Guarded (safeMatch src copyAll offset length c)
      (Sum.inl <$> do
        let m ← lookBehind c.op offset
        let dst ← copyAll m
        matchDone src ⟨c.ip, c.op + length, dst⟩)
      (Early (Overruns ¬GoesOn cap out (parseCopy offset length tok (src.drop c.ip)))) := by
  refine guarded_testLB positive ?_ fun reaches => guarded_needOP ?_ fun _ => ?_
  · intro before goes_on
    have needs := goesOn_parseCopy goes_on inside
    omega
  · intro few goes_on
    have needs := goesOn_parseCopy goes_on inside
    omega
  · have back : lookBehind c.op offset = .ok (c.op - offset) := if_pos reaches
    have place : c.op - offset + offset = out.length := by omega
    rw [back]
    change Guarded _ (Sum.inl <$> (copyAll (c.op - offset) >>= _)) _
    rw [map_bind]
    refine Guarded.bind (copies _ place) ?_
    intro dst filled
    exact guarded_matchDone (c := ⟨c.ip, c.op + length, dst⟩) filled
      (congrArg (· + length) at_end) inside here

theorem guarded_copyMatch (filled : Filled cap out c.dst) (at_end : c.op = out.length)
    (positive : 0 < offset) (inside : c.ip ≤ src.length) (here : src[c.ip - 2]? = some tok) :
    Guarded (safeCopyMatch src offset length c) (Sum.inl <$> copyMatch src offset length c)
      (Early (Overruns ¬GoesOn cap out (parseCopy offset length tok (src.drop c.ip)))) :=
  guarded_match filled.length_eq at_end positive inside here fun _ =>
    ends_copyBytes_within filled at_end positive

theorem guarded_copyLongMatch (filled : Filled cap out c.dst) (at_end : c.op = out.length)
    (positive : 0 < offset) (inside : c.ip ≤ src.length) (here : src[c.ip - 2]? = some tok) :
    Guarded (safeCopyLongMatch src offset length c)
      (Sum.inl <$> copyLongMatch src offset length c)
      (Early (Overruns ¬GoesOn cap out (parseCopy offset length tok (src.drop c.ip)))) :=
  guarded_match filled.length_eq at_end positive inside here fun _ =>
    ends_copyLong filled at_end positive

/-- A match whose offset ends in the byte under the cursor. -/
theorem guarded_nearMatch {offset : Nat → Nat} (filled : Filled cap out c.dst)
    (at_end : c.op = out.length) (positive : ∀ b, 0 < offset b)
    (here : src[c.ip - 1]? = some tok) :
    Guarded (safeNearMatch src offset length c) (Sum.inl <$> nearMatch src offset length c)
      (Early (Overruns ¬GoesOn cap out (parseNear offset length tok (src.drop c.ip)))) := by
  rw [nearMatch, map_bind]
  refine Guarded.bind (ends_byte src c.ip) ?_
  rintro b ⟨inside, found⟩
  obtain ⟨_, same⟩ := List.getElem?_eq_some_iff.mp found
  have next : src[c.ip + 1 - 2]? = some tok := by
    rw [Nat.add_sub_add_right]
    exact here
  rw [List.drop_eq_getElem_cons inside, same, parseNear]
  exact guarded_copyMatch (c := { c with ip := c.ip + 1 }) filled at_end (positive b.toNat) inside
    next

/-- A length is refused when its bytes do not end. -/
theorem guarded_continueLength (tooLong : Status) (base t : Nat) (inside : c.ip ≤ src.length)
    (small : 255 * src.length + 511 ≤ 2 ^ 64) :
    Guarded (safeContinueLength src tooLong base t c) (Sum.inl <$> continueLength src base t c.ip)
      (Early (Overruns (readLength base t (src.drop c.ip) = none))) := by
  by_cases continued : t = 0
  · subst continued
    have start : LengthSoFar src c.ip (0, c.ip) :=
      ⟨Nat.le_refl _, inside, Nat.zero_le _, (Runs.map_zero_add _).symm⟩
    rw [safeContinueLength, if_pos rfl, continueLength, if_pos rfl]
    refine Guarded.loop (LengthSoFar src c.ip) Sum.inl ?_ ?_ start _
    · rintro ⟨sum, ip'⟩ ⟨after, inside', few, so_far⟩
      rw [map_bind]
      refine Guarded.bind (ends_byte src ip') ?_
      rintro b ⟨more, found⟩
      obtain ⟨_, rfl⟩ := List.getElem?_eq_some_iff.mp found
      rw [Runs.map_read_drop more] at so_far
      by_cases run : src[ip'] = 0
      · rw [if_pos run] at so_far
        rw [if_pos run, if_pos run, if_neg (by omega)]
        refine Guarded.check ?_ fun _ => Guarded.refl _
        intro none_left
        refine ⟨rfl, ?_⟩
        rw [readLength, if_pos rfl, so_far, List.drop_eq_nil_of_le (by omega)]
        rfl
      · rw [if_neg run, if_neg run]
        exact Guarded.refl _
    · intro s so_far
      refine (ends_lengthTurn base so_far).mono ?_ fun _ _ => trivial
      intro next turned
      cases next with
      | inl s' => exact turned.1
      | inr r => trivial
  · rw [safeContinueLength, if_neg continued, continueLength, if_neg continued]
    exact Guarded.refl _

theorem guarded_matchLength (base t : Nat) (inside : c.ip ≤ src.length)
    (small : 255 * src.length + 511 ≤ 2 ^ 64) :
    Guarded (safeMatchLength src base t c) (Sum.inl <$> continueLength src base t c.ip)
      (Early (Overruns (∀ n rest, readLength base t (src.drop c.ip) = some (n, rest) →
        rest.length < 2))) := by
  have checked := guarded_continueLength .outputOverrun base t inside small
  rw [map_eq_pure_bind]
  refine Guarded.andThen (checked.mono (Early.mono (Overruns.mono ?_)))
    (ends_continueLength base t inside) ?_
  · intro unread n rest read
    rw [unread] at read
    cases read
  · rintro ⟨n, ip'⟩ ⟨read, after, inside'⟩
    dsimp only
    by_cases continued : t = 0
    · rw [if_pos continued]
      refine guarded_needIP ?_ fun _ => Guarded.refl _
      intro few n' rest read'
      cases read.symm.trans read'
      rw [List.length_drop]
      exact few
    · rw [if_neg continued]
      exact Guarded.refl _

theorem guarded_continued {base low least distance : Nat} (filled : Filled cap out c.dst)
    (at_end : c.op = out.length) (inside : c.ip ≤ src.length)
    (small : 255 * src.length + 511 ≤ 2 ^ 64)
    (safe rest : Nat → Nat → Nat → Access ((Place × Cursor) ⊕ (Status × Nat × List UInt8)))
    (ends : ∀ n ip' off, distance + off / 4 = 0 → safe n ip' off = rest n ip' off)
    (copies : ∀ n ip' off, distance + off / 4 ≠ 0 →
      safe n ip' off =
        safeCopyLongMatch src (base + distance + off / 4) (n + 2) { c with ip := ip' + 2 } ∧
      rest n ip' off = Sum.inl <$>
        copyLongMatch src (base + distance + off / 4) (n + 2) { c with ip := ip' + 2 }) :
    Guarded
      (andThen (safeMatchLength src least low c) fun (n, ip') => do
        let off ← readLE16 src ip'
        safe n ip' off)
      (do
        let (n, ip') ← continueLength src least low c.ip
        let off ← readLE16 src ip'
        rest n ip' off)
      (Early (Overruns ¬GoesOn cap out ((readLength least low (src.drop c.ip)).bind
        fun (n, input) => parseFar base distance (n + 2) input))) := by
  have checked := guarded_matchLength least low inside small
  refine Guarded.andThen (checked.mono (Early.mono (Overruns.mono ?_)))
    (ends_continueLength least low inside) ?_
  · intro short goes_on
    cases read : readLength least low (src.drop c.ip) with
    | none =>
        rw [read] at goes_on
        exact goes_on
    | some r =>
        obtain ⟨n, input⟩ := r
        rw [read, Option.bind_some] at goes_on
        dsimp only at goes_on
        rw [parseFar_short (short n input read)] at goes_on
        exact goes_on
  · rintro ⟨n, ip'⟩ ⟨read, after, inside'⟩
    rw [read, Option.bind_some]
    refine Guarded.bind (ends_readLE16 src ip') ?_
    rintro off ⟨low', high, split, rfl, here, inside''⟩
    dsimp only
    rw [split, parseFar]
    by_cases none_there : distance + (low'.toNat + 256 * high.toNat) / 4 = 0
    · rw [ends _ _ _ none_there]
      exact Guarded.refl _
    · obtain ⟨copies_safe, copies_rest⟩ := copies n ip' _ none_there
      rw [if_neg none_there, copies_safe, copies_rest]
      have back : src[ip' + 2 - 2]? = some low' := here
      generalize far : base + distance + (low'.toNat + 256 * high.toNat) / 4 = offset
      exact guarded_copyLongMatch (c := { c with ip := ip' + 2 }) filled at_end (by omega)
        inside'' back

theorem guarded_literalRun (filled : Filled cap out c.dst) (at_end : c.op = out.length)
    (inside : c.ip ≤ src.length) (small : 255 * src.length + 511 ≤ 2 ^ 64) (t : Nat) :
    Guarded (safeLiteralRun src t c) (Sum.inl <$> literalRun src t c)
      (Early (Overruns ¬GoesOn cap out ((readLength 15 t (src.drop c.ip)).bind
        fun (n, input) => parseRun (n + 3) input))) := by
  have size := filled.length_eq
  have checked := guarded_continueLength .inputOverrun 15 t inside small
  rw [literalRun, map_bind]
  refine Guarded.andThen (checked.mono (Early.mono (Overruns.mono ?_)))
    (ends_continueLength 15 t inside) ?_
  · intro unread goes_on
    rw [unread] at goes_on
    exact goes_on
  · rintro ⟨n, ip'⟩ ⟨read, after, inside'⟩
    rw [read, Option.bind_some]
    dsimp only
    rw [map_bind]
    refine guarded_needOP ?_ fun _ => guarded_needIP ?_ fun _ => Guarded.refl _
    · intro few goes_on
      have needs := goesOn_parseRun goes_on
      omega
    · intro few goes_on
      have needs := goesOn_parseRun goes_on
      simp only at few
      omega

theorem guarded_matchTurn {place : Place} (filled : Filled cap out c.dst)
    (at_end : c.op = out.length) (inside : c.ip ≤ src.length)
    (small : 255 * src.length + 511 ≤ 2 ^ 64) (here : src[c.ip - 1]? = some tok)
    (what : 16 ≤ tok.toNat ∨ place = .literals) :
    Guarded (safeMatchTurn src tok.toNat c) (matchTurn src tok.toNat c)
      (Early (Overruns ¬GoesOn cap out (parse place (tok :: src.drop c.ip)))) := by
  rw [parse]
  refine Guarded.ite ?_ fun below64 => Guarded.ite ?_ fun below32 => Guarded.ite ?_ ?_
  · intro (least : 64 ≤ tok.toNat)
    rw [if_neg (by omega), if_neg (by omega), if_neg (by omega),
      funext (offset_near tok.toNat), length_near least]
    exact guarded_nearMatch filled at_end (fun _ => by omega) here
  · intro (least : 32 ≤ tok.toNat)
    rw [if_neg (by omega), if_neg (by omega), if_pos (by omega), and_thirtyOne]
    refine guarded_continued filled at_end inside small
      (fun t ip off => safeCopyLongMatch src (1 + (off >>> 2)) (t + 2) { c with ip := ip + 2 })
      (fun t ip off => Sum.inl <$>
        copyLongMatch src (1 + (off >>> 2)) (t + 2) { c with ip := ip + 2 }) ?_ ?_
    · intro n ip' off none_there
      omega
    · intro n ip' off _
      rw [shiftRight_two, Nat.zero_add]
      exact ⟨rfl, rfl⟩
  · intro (least : 16 ≤ tok.toNat)
    rw [if_neg (by omega), if_pos (by omega), and_seven, offset_far]
    refine guarded_continued filled at_end inside small
      (fun t ip off =>
        if 0x4000 * (tok.toNat / 8 % 2) + (off >>> 2) = 0 then
          .ok (.inr (eofFound src { c with ip := ip + 2 }))
        else safeCopyLongMatch src (0x4000 * (tok.toNat / 8 % 2) + (off >>> 2) + 0x4000)
          (t + 2) { c with ip := ip + 2 })
      (fun t ip off =>
        if 0x4000 * (tok.toNat / 8 % 2) + (off >>> 2) = 0 then
          pure (.inr (eofFound src { c with ip := ip + 2 }))
        else Sum.inl <$> copyLongMatch src (0x4000 * (tok.toNat / 8 % 2) + (off >>> 2) + 0x4000)
          (t + 2) { c with ip := ip + 2 }) ?_ ?_
    · intro n ip' off none_there
      rw [shiftRight_two, if_pos none_there, if_pos none_there]
      rfl
    · intro n ip' off some_distance
      rw [shiftRight_two, if_neg some_distance, if_neg some_distance, Nat.add_comm _ 0x4000,
        ← Nat.add_assoc]
      exact ⟨rfl, rfl⟩
  · intro (few : ¬16 ≤ tok.toNat)
    rw [if_pos (by omega), funext (offset_low 1 tok.toNat)]
    obtain rfl : place = .literals := what.resolve_left few
    exact guarded_nearMatch filled at_end (fun _ => by omega) here

end Match

/-- One instruction: a check ends the run only where no block that fits goes on. -/
theorem guarded_turn {place : Place} {c : Cursor} (filled : Filled cap out c.dst)
    (at_end : c.op = out.length) (small : 255 * src.length + 511 ≤ 2 ^ 64) :
    Guarded (safeTurn src (place, c)) (turn src (place, c))
      (Early (Overruns ¬∃ result rest, Decodes place out (src.drop c.ip) result rest ∧
        result.length ≤ cap)) := by
  have stuck (h : ¬GoesOn cap out (parse place (src.drop c.ip))) :
      ¬∃ result rest, Decodes place out (src.drop c.ip) result rest ∧ result.length ≤ cap := by
    rintro ⟨result, rest, decodes, fits⟩
    exact h (decodes.goesOn fits)
  have matched {tok : UInt8} (inside : c.ip < src.length) (here : src[c.ip]? = some tok)
      (what : 16 ≤ tok.toNat ∨ place = .literals) :
      Guarded (safeMatchTurn src tok.toNat { c with ip := c.ip + 1 })
        (matchTurn src tok.toNat { c with ip := c.ip + 1 })
        (Early (Overruns ¬GoesOn cap out (parse place (tok :: src.drop (c.ip + 1))))) :=
    guarded_matchTurn (c := { c with ip := c.ip + 1 }) filled at_end inside small here what
  cases place with
  | matched =>
      refine guarded_needIP ?_ fun _ => ?_
      · rintro few ⟨result, rest, decodes, -⟩
        have three := decodes.three_le
        rw [List.length_drop] at three
        omega
      · refine Guarded.mono ?_ (Early.mono (Overruns.mono stuck))
        refine Guarded.bind (ends_byte src c.ip) ?_
        rintro tok ⟨inside, here⟩
        obtain ⟨_, same⟩ := List.getElem?_eq_some_iff.mp here
        rw [List.drop_eq_getElem_cons inside, same]
        refine Guarded.ite (fun least => matched inside here (Or.inl least)) fun few => ?_
        rw [parse, if_pos (Nat.not_le.mp few)]
        exact guarded_literalRun (c := { c with ip := c.ip + 1 }) filled at_end inside small
          tok.toNat
  | run =>
      refine Guarded.mono ?_ (Early.mono (Overruns.mono stuck))
      refine Guarded.bind (ends_byte src c.ip) ?_
      rintro tok ⟨inside, here⟩
      obtain ⟨_, same⟩ := List.getElem?_eq_some_iff.mp here
      rw [List.drop_eq_getElem_cons inside, same]
      refine Guarded.ite (fun least => matched inside here (Or.inl least)) fun few => ?_
      rw [parse, if_pos (Nat.not_le.mp few), funext (offset_low (1 + M2_MAX_OFFSET) tok.toNat)]
      exact guarded_nearMatch (c := { c with ip := c.ip + 1 }) filled at_end
        (fun _ => by omega) here
  | literals =>
      refine Guarded.mono ?_ (Early.mono (Overruns.mono stuck))
      refine Guarded.bind (ends_byte src c.ip) ?_
      rintro tok ⟨inside, here⟩
      obtain ⟨_, same⟩ := List.getElem?_eq_some_iff.mp here
      rw [List.drop_eq_getElem_cons inside, same]
      exact matched inside here (Or.inr rfl)

/-- The literals a first byte counts are in every block that begins with it. -/
theorem IsBlock.first_literals {tok : UInt8} {input result rest : List UInt8}
    (block : IsBlock (tok :: input) result rest) (counts : 17 < tok.toNat) :
    tok.toNat - 17 ≤ result.length ∧ tok.toNat - 17 + 3 ≤ input.length := by
  obtain ⟨place, out, next, started, decodes⟩ := block
  rw [start, if_pos counts] at started
  split at started
  · cases started
  · rename_i there
    cases started
    have three := decodes.three_le
    have more := decodes.starts.length_le
    rw [List.length_drop] at three
    rw [List.length_take] at more
    omega

theorem guarded_firstLiterals (src dst : List UInt8) :
    Guarded (safeFirstLiterals src dst) (Sum.inl <$> firstLiterals src dst)
      (Early (Overruns ¬∃ result rest, IsBlock src result rest ∧
        result.length ≤ dst.length)) := by
  cases src with
  | nil =>
      refine guarded_needIP ?_ fun enough => absurd enough (Nat.not_succ_le_zero 0)
      rintro - ⟨result, rest, ⟨place, out, next, started, -⟩, -⟩
      cases started
  | cons tok input =>
      refine guarded_needIP (fun few => absurd few (by simp)) fun _ => ?_
      rw [firstLiterals, map_bind]
      refine Guarded.bind (ends_byte (tok :: input) 0) ?_
      rintro b ⟨-, here⟩
      cases here
      dsimp only
      by_cases counts : 17 < tok.toNat
      · have few_out (few : dst.length - 0 < tok.toNat - 17) :
            ¬∃ result rest, IsBlock (tok :: input) result rest ∧
              result.length ≤ dst.length := by
          rintro ⟨result, rest, block, fits⟩
          have needs := block.first_literals counts
          omega
        have few_in (few : (tok :: input).length - 1 < tok.toNat - 17 + 3) :
            ¬∃ result rest, IsBlock (tok :: input) result rest ∧
              result.length ≤ dst.length := by
          rintro ⟨result, rest, block, -⟩
          have needs := block.first_literals counts
          rw [List.length_cons, Nat.add_sub_cancel] at few
          omega
        rw [if_pos counts, if_pos counts]
        by_cases short : tok.toNat - 17 < 4
        · rw [if_pos short, if_pos short]
          exact guarded_needOP few_out fun _ => guarded_needIP few_in fun _ => Guarded.refl _
        · rw [if_neg short, if_neg short, map_bind]
          exact guarded_needOP few_out fun _ => guarded_needIP few_in fun _ => Guarded.refl _
      · rw [if_neg counts, if_neg counts]
        exact Guarded.refl _

/-- A check ends the whole run only where the input starts with no block that fits. -/
theorem guarded_lzo1xDecompressSafe (src dst : List UInt8)
    (small : 255 * src.length + 511 ≤ 2 ^ 64) :
    Guarded (lzo1xDecompressSafe src dst) (lzo1xDecompress src dst)
      (Overruns ¬∃ result rest, IsBlock src result rest ∧ result.length ≤ dst.length) := by
  obtain ⟨first, run, early⟩ | same := guarded_firstLiterals src dst
  · cases first with
    | inl s => exact early.elim
    | inr r =>
        rw [lzo1xDecompressSafe, run]
        exact Guarded.stop early
  · rw [lzo1xDecompressSafe, same, lzo1xDecompress, bind_map_left]
    refine Guarded.bind (ends_start src dst) ?_
    intro s underway
    change Guarded (loop .outOfFuel (safeTurn src) (src.length + 1) s) _ _
    rw [← id_map (loop .outOfFuel (turn src) (src.length + 1) s)]
    refine Guarded.loop (Underway src dst.length) id ?_ ?_ underway _
    · rintro ⟨place, c⟩ ⟨out, filled, at_end, inside, same⟩
      rw [Sum.map_id_id, id_map]
      refine (guarded_turn filled at_end small).mono (Early.mono (Overruns.mono ?_))
      rintro stuck ⟨result, rest, block, fits⟩
      exact stuck ⟨result, rest, (same result rest).mp block, fits⟩
    · intro s underway
      refine underway.ends_turn.mono ?_ fun _ _ => trivial
      intro next turned
      cases next with
      | inl s' => exact turned.1
      | inr r => trivial

/-- The decoder that checks nothing never returns the status of a check. -/
theorem isOverrun_of_ok {r : Status × Nat × List UInt8}
    (run : lzo1xDecompress src dst = .ok r) : r.1.isOverrun = false := by
  have ends := ends_lzo1xDecompress src dst
  rw [run] at ends
  obtain ⟨status, n, dst'⟩ := r
  obtain ⟨result, rest, -, -, -, rfl⟩ := ends
  by_cases none_left : rest = []
  · rw [if_pos none_left]
    rfl
  · rw [if_neg none_left]
    rfl

/-- Where no length passes the end of the 64-bit numbers, the checks change nothing about what
is returned; they return an overrun exactly where the other decoder leaves its buffers. -/
theorem lzo1xDecompressSafe_agrees (src dst : List UInt8)
    (small : 255 * src.length + 511 ≤ 2 ^ 64) :
    ∃ r, lzo1xDecompressSafe src dst = .ok r ∧
      if r.1.isOverrun then ∃ e, lzo1xDecompress src dst = .error e ∧ e ≠ .outOfFuel
      else lzo1xDecompress src dst = .ok r := by
  obtain ⟨r, run, -⟩ := returns_lzo1xDecompressSafe src dst
  refine ⟨r, run, ?_⟩
  have ends := ends_lzo1xDecompress src dst
  obtain ⟨r', run', overruns, none_fits⟩ | same := guarded_lzo1xDecompressSafe src dst small
  · cases run.symm.trans run'
    rw [if_pos overruns]
    cases other : lzo1xDecompress src dst with
    | error e =>
        rw [other] at ends
        exact ⟨e, rfl, ends.1⟩
    | ok r' =>
        rw [other] at ends
        obtain ⟨status, n, dst'⟩ := r'
        obtain ⟨result, rest, block, filled, -⟩ := ends
        exact absurd ⟨result, rest, block, filled.le⟩ none_fits
  · rw [same] at run
    rw [isOverrun_of_ok run]
    exact run

/-- A literal and an overlapping match of ten bytes, with room for them and with room for one less.
Then there is an overrun, and the other decoder leaves the output. -/
theorem lzo1xDecompressSafe_agrees_overrun :
    (∃ r, lzo1xDecompressSafe [18, 7, 40, 0, 0, 17, 0, 0] (malloc 11) = .ok r ∧
      if r.1.isOverrun then
        ∃ e, lzo1xDecompress [18, 7, 40, 0, 0, 17, 0, 0] (malloc 11) = .error e ∧ e ≠ .outOfFuel
      else lzo1xDecompress [18, 7, 40, 0, 0, 17, 0, 0] (malloc 11) = .ok r) ∧
    (lzo1xDecompressSafe [18, 7, 40, 0, 0, 17, 0, 0] (malloc 10) =
        .ok (.outputOverrun, 1, 7 :: malloc 9) ∧
      ∃ e, lzo1xDecompress [18, 7, 40, 0, 0, 17, 0, 0] (malloc 10) = .error e ∧
        e ≠ .outOfFuel) := by
  refine ⟨lzo1xDecompressSafe_agrees _ (malloc 11) (by decide), ?_⟩
  have overrun : lzo1xDecompressSafe [18, 7, 40, 0, 0, 17, 0, 0] (malloc 10) =
      .ok (.outputOverrun, 1, 7 :: malloc 9) := by decide
  obtain ⟨r, run, agrees⟩ :=
    lzo1xDecompressSafe_agrees [18, 7, 40, 0, 0, 17, 0, 0] (malloc 10) (by decide)
  rw [overrun] at run
  cases run
  exact ⟨overrun, agrees⟩

end MobilePIM.Lzo
