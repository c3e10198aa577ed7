import MobilePIM.Lzo.Compress

/-!
What the compressor has written when it has come to a position of the source:
instructions after which whatever leads from there to the whole source completes
a block of it. The last of them is a match, which may still be given literals.
-/

namespace MobilePIM.Lzo

open Memory Total

variable {src out dst bytes : List UInt8} {cap op p n : Nat} {place : Place}

/-- A byte that no block of a first run of literals begins with. -/
def Plain (next : List UInt8) : Prop := ∀ tok ∈ next.head?, tok.toNat ≤ 17

/-- Behind `bytes`, at this place, what decodes the rest of the source completes a block. -/
structure Covers (src bytes : List UInt8) (place : Place) (p : Nat) : Prop where
  inside : p ≤ src.length
  completes : ∀ next result rest, (bytes = [] → Plain next) →
    Decodes place (src.take p) next result rest → IsBlock (bytes ++ next) result rest

theorem Covers.start (src : List UInt8) : Covers src [] .matched 0 where
  inside := Nat.zero_le _
  completes next result rest plain decodes := by
    cases next with
    | nil =>
        cases decodes with
        | eof parsed => cases parsed
        | step parsed => cases parsed
    | cons tok next => exact ⟨_, _, _, start_small (plain rfl tok rfl) next, decodes⟩

theorem plain_runHeader {n : Nat} (rest : List UInt8) : Plain (runHeader n ++ rest) := by
  unfold runHeader
  intro tok first
  split at first
  · cases first
    rw [toNat_ofNat (by omega)]
    omega
  · cases first
    exact Nat.zero_le _

/-- A run of the next literals. -/
theorem Covers.run (h : Covers src bytes .matched p) (long : 4 ≤ n) (inside : p + n ≤ src.length) :
    Covers src (bytes ++ (runHeader n ++ slice src p n)) .run (p + n) where
  inside := inside
  completes next result rest _ decodes := by
    have length_eq : (slice src p n).length = n := length_slice inside
    have enough : 4 ≤ (slice src p n).length := by
      rw [length_eq]
      exact long
    have parsed := parse_runHeader enough next
    rw [length_eq] at parsed
    have taken : src.take p ++ slice src p n = src.take (p + n) := by
      rw [List.take_add]
      rfl
    rw [List.append_assoc, List.append_assoc]
    refine h.completes _ _ _ (fun _ => plain_runHeader _) (.step parsed .run ?_)
    rw [taken]
    exact decodes

/-- A match, verified against the source, with some of the next literals behind it. -/
theorem Covers.match (h : Covers src bytes place p) (not_first : bytes ≠ [])
    {offset length : Nat} (long : 3 ≤ length) (positive : 0 < offset)
    (near : offset ≤ M4_MAX_OFFSET) (reaches : offset ≤ p) (room : p + length ≤ src.length)
    (found : ∀ k < length, src[p - offset + k]? = src[p + k]?)
    (few : n < 4) (inside : p + length + n ≤ src.length) :
    Covers src (bytes ++ matchBytes offset length n ++ slice src (p + length) n)
      (behind (slice src (p + length) n)) (p + length + n) where
  inside := inside
  completes next result rest _ decodes := by
    have length_eq : (slice src (p + length) n).length = n := length_slice inside
    have parsed := parse_matchBytes place long positive near
      (show (slice src (p + length) n).length < 4 by rw [length_eq]; exact few) next
    rw [length_eq] at parsed
    have position : (src.take p).length = p := List.length_take_of_le h.inside
    have copied : Backref.copy (src.take p) offset length = src.take (p + length) :=
      Backref.copy_eq_take positive reaches room found
    have taken : src.take (p + length) ++ slice src (p + length) n =
        src.take (p + length + n) := by
      rw [List.take_add (i := p + length)]
      rfl
    rw [List.append_assoc, List.append_assoc]
    refine h.completes _ _ _ (fun first => absurd first not_first)
      (.step parsed (.copy (by rw [position]; exact reaches)) ?_)
    rw [copied, taken]
    exact decodes

/-- The end mark completes the block of the whole source. -/
theorem Covers.block (h : Covers src bytes place src.length) :
    IsBlock (bytes ++ endBytes) src [] := by
  have ended : Decodes place (src.take src.length) (endBytes ++ []) (src.take src.length) [] :=
    .eof (parse_endBytes place [])
  rw [List.take_length] at ended
  refine h.completes _ _ _ ?_ ?_
  · rintro - tok first
    cases first
    decide
  · rw [List.take_length]
    exact ended

/-- The byte of a match that counts the literals behind it is the last but one. -/
theorem matchBytes_split {offset length : Nat} (positive : 0 < offset) (long : 3 ≤ length) :
    ∃ head q high, 4 * q + 3 < 256 ∧
      ∀ n, matchBytes offset length n = head ++ [UInt8.ofNat (4 * q + n), high] := by
  unfold matchBytes
  split
  · rename_i short
    simp only [M2_MAX_LEN, M2_MAX_OFFSET] at short
    refine ⟨[], 8 * (length - 1) + (offset - 1) % 8, UInt8.ofNat ((offset - 1) / 8), by omega,
      fun n => ?_⟩
    have first : 32 * (length - 1) + 4 * ((offset - 1) % 8) + n =
        4 * (8 * (length - 1) + (offset - 1) % 8) + n := by omega
    rw [first]
    rfl
  · split
    · exact ⟨_, (offset - 1) % 64, _, by omega, fun n => rfl⟩
    · exact ⟨_, (offset - 0x4000) % 64, _, by omega, fun n => rfl⟩

/-- What has been written up to a position: nothing yet, or instructions with a match last,
to whose count literals may be added. -/
inductive Emits (src : List UInt8) : List UInt8 → Nat → Prop
  | start : Emits src [] 0
  | matched {pre q high p} (small : 4 * q + 3 < 256) (inside : p ≤ src.length)
      (covers : ∀ n < 4, p + n ≤ src.length →
        Covers src (pre ++ [UInt8.ofNat (4 * q + n), high] ++ slice src p n)
          (behind (slice src p n)) (p + n)) :
      Emits src (pre ++ [UInt8.ofNat (4 * q), high]) p

theorem Emits.inside (h : Emits src bytes p) : p ≤ src.length := by
  cases h with
  | start => exact Nat.zero_le _
  | matched _ inside => exact inside

theorem Emits.position_of_nil (h : Emits src bytes p) (nothing : bytes = []) : p = 0 := by
  cases h with
  | start => rfl
  | matched => exact absurd nothing (by simp)

theorem Emits.covers (h : Emits src bytes p) : Covers src bytes .matched p := by
  cases h with
  | start => exact Covers.start src
  | matched small inside covers =>
      have here := covers 0 (by decide) inside
      rw [show slice src p 0 = [] from List.take_zero, List.append_nil] at here
      exact here

/-- A match that is verified against the source. -/
theorem Covers.emits (h : Covers src bytes place p) (not_first : bytes ≠ [])
    {offset length : Nat} (long : 3 ≤ length) (positive : 0 < offset)
    (near : offset ≤ M4_MAX_OFFSET) (reaches : offset ≤ p) (room : p + length ≤ src.length)
    (found : ∀ k < length, src[p - offset + k]? = src[p + k]?) :
    Emits src (bytes ++ matchBytes offset length 0) (p + length) := by
  obtain ⟨head, q, high, small, split⟩ := matchBytes_split positive long
  rw [split, ← List.append_assoc]
  refine .matched small room ?_
  intro n few inside
  have covers := h.match not_first long positive near reaches room found few inside
  rwa [split, ← List.append_assoc bytes] at covers

/-- Room for up to three literals in the count of the last match. -/
theorem returns_addLiterals (emits : Emits src bytes p) (not_first : bytes ≠ [])
    (filled : Filled cap bytes dst) (at_end : op = bytes.length) (positive : 0 < n) (few : n < 4)
    (inside : p + n ≤ src.length) :
    Returns (addLiterals dst op n) fun dst' => ∃ bytes', bytes'.length = bytes.length ∧
      Filled cap bytes' dst' ∧ Covers src (bytes' ++ slice src p n) .literals (p + n) := by
  cases emits with
  | start => exact absurd rfl not_first
  | @matched pre q high p small _ covers =>
      have place : op - 2 = pre.length := by
        rw [at_end, List.length_append]
        rfl
      have two : ¬op < 2 := by
        rw [at_end, List.length_append]
        exact Nat.not_lt.mpr (Nat.le_add_left 2 _)
      have here : dst[pre.length]? = some (UInt8.ofNat (4 * q)) := by
        rw [filled.getElem? (by simp), List.getElem?_append_right (Nat.le_refl _), Nat.sub_self]
        rfl
      obtain ⟨within, value⟩ := List.getElem?_eq_some_iff.mp here
      have sum : UInt8.ofNat (4 * q) ||| UInt8.ofNat n = UInt8.ofNat (4 * q + n) := by
        rw [← UInt8.toNat_inj, UInt8.toNat_or, toNat_ofNat (by omega), toNat_ofNat (by omega),
          toNat_ofNat (by omega)]
        exact (Nat.two_pow_add_eq_or_of_lt (i := 2) (by omega) q).symm
      have nonempty : slice src p n ≠ [] := by
        intro nil
        have length_eq : (slice src p n).length = n := length_slice inside
        rw [nil] at length_eq
        exact absurd length_eq (Nat.ne_of_lt positive)
      have covered := covers n few inside
      rw [behind, if_neg nonempty] at covered
      unfold addLiterals
      rw [if_neg two, place]
      refine Returns.bind (returns_eq (byte_ok within)) ?_
      rintro _ rfl
      rw [value, sum]
      have split : pre ++ [UInt8.ofNat (4 * q), high] =
          pre ++ [UInt8.ofNat (4 * q)] ++ [high] := by simp
      rw [split] at filled
      have patched : Returns (write dst pre.length [UInt8.ofNat (4 * q + n)])
          (Filled cap (pre ++ [UInt8.ofNat (4 * q + n)] ++ [high])) := filled.patch rfl rfl
      refine patched.mono fun dst' filled' => ⟨pre ++ [UInt8.ofNat (4 * q + n), high], ?_, ?_,
        covered⟩
      · rw [List.length_append, List.length_append]
        rfl
      · simpa using filled'

theorem runs_of_gt {n : Nat} (h : 255 < n) : runs n = 0 :: runs (n - 255) := by
  have quotient : (n - 1) / 255 = (n - 255 - 1) / 255 + 1 := by omega
  have remainder : (n - 1) % 255 = (n - 255 - 1) % 255 := by omega
  rw [runs, runs, quotient, remainder, Runs.bytes, List.replicate_succ, List.cons_append]
  rfl

theorem runs_of_le {n : Nat} (positive : 0 < n) (h : n ≤ 255) : runs n = [UInt8.ofNat n] := by
  rw [runs, Nat.div_eq_of_lt (by omega), Nat.mod_eq_of_lt (by omega),
    Nat.sub_add_cancel positive]
  rfl

/-- A part of a length has been written, and `n'` of it is left. -/
abbrev RunSoFar (cap : Nat) (out : List UInt8) (n : Nat) : List UInt8 × Nat × Nat → Prop :=
  fun (dst', op', n') => ∃ done, Filled cap (out ++ done) dst' ∧ op' = (out ++ done).length ∧
    0 < n' ∧ done ++ runs n' = runs n

theorem returns_storeRuns (filled : Filled cap out dst) (at_end : op = out.length)
    (positive : 0 < n) (room : (out ++ runs n).length ≤ cap) :
    Returns (storeRuns dst op n) fun (dst', op') =>
      Filled cap (out ++ runs n) dst' ∧ op' = (out ++ runs n).length := by
  refine Returns.loop (RunSoFar cap out n) (fun s => s.2.2) ?_
    ⟨[], by rwa [List.append_nil], by rwa [List.append_nil], positive, rfl⟩ (Nat.lt_succ_self _)
  rintro ⟨dst', op', n'⟩ ⟨done, filled', rfl, positive', so_far⟩
  rw [← so_far, ← List.append_assoc] at room ⊢
  refine Returns.ite ?_ ?_
  · intro (more : 255 < n')
    rw [runs_of_gt more] at room
    have fits : (out ++ done).length + [(0 : UInt8)].length ≤ cap := by
      simp only [List.length_append, List.length_cons, List.length_nil] at room ⊢
      omega
    refine Returns.bind (filled'.write rfl fits) ?_
    intro dst'' filled''
    rw [List.append_assoc] at filled''
    refine Returns.ok ⟨⟨done ++ [0], filled'', ?_, by omega, ?_⟩, by simp only; omega⟩
    · simp [Nat.add_assoc]
    · rw [List.append_assoc, ← so_far, runs_of_gt more]
      rfl
  · intro (last : ¬255 < n')
    rw [runs_of_le positive' (Nat.not_lt.mp last)] at room ⊢
    refine Returns.bind (filled'.write rfl (by rwa [← List.length_append])) ?_
    intro dst'' filled''
    exact Returns.ok ⟨filled'', by simp [Nat.add_assoc]⟩

theorem returns_storeRunLength (filled : Filled cap out dst) (at_end : op = out.length)
    (room : (out ++ runHeader n).length ≤ cap) :
    Returns (storeRunLength dst op n) fun (dst', op') =>
      Filled cap (out ++ runHeader n) dst' ∧ op' = (out ++ runHeader n).length := by
  unfold runHeader at room ⊢
  refine Returns.ite ?_ ?_
  · intro short
    rw [if_pos short] at room ⊢
    refine Returns.bind (filled.write at_end (by rwa [← List.length_append])) ?_
    intro dst' filled'
    exact Returns.ok ⟨filled', by rw [at_end, List.length_append]; rfl⟩
  · intro long
    rw [if_neg long] at room ⊢
    have split : out ++ 0 :: runs (n - 18) = (out ++ [0]) ++ runs (n - 18) := by simp
    rw [split] at room ⊢
    have fits : out.length + [(0 : UInt8)].length ≤ cap := by
      rw [List.length_append, List.length_append] at room
      omega
    refine Returns.bind (filled.write at_end fits) ?_
    intro dst' filled'
    exact returns_storeRuns filled' (by rw [at_end, List.length_append]; rfl) (by omega) room

theorem returns_storeLength {marker maxLen width i length : Nat} (filled : Filled cap out dst)
    (at_end : op = out.length) (aligned : marker = 2 ^ i * width) (wide : maxLen = 2 ^ i + 1)
    (room : (out ++ lengthBytes marker maxLen length).length ≤ cap) :
    Returns (storeLength dst op marker maxLen length) fun (dst', op') =>
      Filled cap (out ++ lengthBytes marker maxLen length) dst' ∧
        op' = (out ++ lengthBytes marker maxLen length).length := by
  unfold lengthBytes at room ⊢
  refine Returns.ite ?_ ?_
  · intro short
    rw [if_pos short] at room ⊢
    have some_bits : 0 < 2 ^ i := Nat.two_pow_pos i
    have together : marker ||| (length - 2) = marker + (length - 2) := by
      rw [aligned]
      exact (Nat.two_pow_add_eq_or_of_lt (by omega) width).symm
    rw [together]
    refine Returns.bind (filled.write at_end (by rwa [← List.length_append])) ?_
    intro dst' filled'
    exact Returns.ok ⟨filled', by rw [at_end, List.length_append]; rfl⟩
  · intro long
    rw [if_neg long] at room ⊢
    have split : out ++ UInt8.ofNat marker :: runs (length - maxLen) =
        (out ++ [UInt8.ofNat marker]) ++ runs (length - maxLen) := by simp
    rw [split] at room ⊢
    have fits : out.length + [UInt8.ofNat marker].length ≤ cap := by
      rw [List.length_append, List.length_append] at room
      omega
    refine Returns.bind (filled.write at_end fits) ?_
    intro dst' filled'
    exact returns_storeRuns filled' (by rw [at_end, List.length_append]; rfl) (by omega) room

theorem ofNat_congr {a b : Nat} (h : a % 256 = b % 256) : UInt8.ofNat a = UInt8.ofNat b := by
  rw [← UInt8.toNat_inj, UInt8.toNat_ofNat', UInt8.toNat_ofNat']
  exact h

theorem returns_storeLongMatch {marker maxLen width i offset length : Nat}
    (filled : Filled cap out dst) (at_end : op = out.length) (aligned : marker = 2 ^ i * width)
    (wide : maxLen = 2 ^ i + 1)
    (room : (out ++ (lengthBytes marker maxLen length ++ offsetBytes offset 0)).length ≤ cap) :
    Returns (storeLongMatch dst op marker maxLen offset length) fun (dst', op') =>
      Filled cap (out ++ (lengthBytes marker maxLen length ++ offsetBytes offset 0)) dst' ∧
        op' = (out ++ (lengthBytes marker maxLen length ++ offsetBytes offset 0)).length := by
  have low : UInt8.ofNat (offset <<< 2) = UInt8.ofNat (4 * (offset % 64) + 0) := by
    rw [Nat.shiftLeft_eq]
    exact ofNat_congr (by omega)
  have high : UInt8.ofNat (offset >>> 6) = UInt8.ofNat (offset / 64 % 256) := by
    rw [Nat.shiftRight_eq_div_pow]
    exact ofNat_congr (by omega)
  rw [← List.append_assoc] at room ⊢
  have enough : (out ++ lengthBytes marker maxLen length).length + 2 ≤ cap := by
    rw [List.length_append] at room
    exact room
  refine Returns.bind (returns_storeLength filled at_end aligned wide (by omega)) ?_
  rintro ⟨dst₁, op₁⟩ ⟨filled₁, at_end₁⟩
  rw [low, high]
  generalize out ++ lengthBytes marker maxLen length = out₁ at filled₁ at_end₁ enough
  refine Returns.bind (filled₁.push at_end₁ (by omega) _) ?_
  intro dst₂ filled₂
  have at_end₂ : op₁ + 1 = (out₁ ++ [UInt8.ofNat (4 * (offset % 64) + 0)]).length := by
    rw [at_end₁, List.length_append]
    rfl
  refine Returns.bind (filled₂.push at_end₂ (by omega) _) ?_
  intro dst₃ filled₃
  rw [List.append_assoc] at filled₃
  exact Returns.ok ⟨filled₃, by rw [at_end₁, List.length_append]; rfl⟩

theorem returns_storeMatch {offset length : Nat} (filled : Filled cap out dst)
    (at_end : op = out.length) (positive : 0 < offset) (near : offset ≤ M4_MAX_OFFSET)
    (room : (out ++ matchBytes offset length 0).length ≤ cap) :
    Returns (storeMatch dst op offset length) fun (dst', op') =>
      Filled cap (out ++ matchBytes offset length 0) dst' ∧
        op' = (out ++ matchBytes offset length 0).length := by
  simp only [M4_MAX_OFFSET] at near
  unfold matchBytes at room ⊢
  refine Returns.ite ?_ fun _ => Returns.ite ?_ ?_
  · intro short
    rw [if_pos short] at room ⊢
    have first : ((length - 1) <<< 5) ||| (((offset - 1) &&& 7) <<< 2) =
        32 * (length - 1) + 4 * ((offset - 1) % 8) + 0 := by
      rw [and_seven, Nat.shiftLeft_eq, Nat.shiftLeft_eq, Nat.mul_comm, Nat.mul_comm (_ % 8)]
      exact (Nat.two_pow_add_eq_or_of_lt (i := 5) (by omega) _).symm
    have second : (offset - 1) >>> 3 = (offset - 1) / 8 := Nat.shiftRight_eq_div_pow _ 3
    rw [List.length_append] at room
    have enough : out.length + 2 ≤ cap := room
    dsimp only
    rw [first, second]
    refine Returns.bind (filled.push at_end (by omega) _) ?_
    intro dst₁ filled₁
    have at_end₁ : op + 1 = (out ++
        [UInt8.ofNat (32 * (length - 1) + 4 * ((offset - 1) % 8) + 0)]).length := by
      rw [at_end, List.length_append]
      rfl
    refine Returns.bind (filled₁.push at_end₁ (by omega) _) ?_
    intro dst₂ filled₂
    rw [List.append_assoc] at filled₂
    exact Returns.ok ⟨filled₂, by rw [at_end, List.length_append]; rfl⟩
  · rename_i not_short
    intro middle
    rw [if_neg not_short, if_pos middle] at room ⊢
    exact returns_storeLongMatch (i := 5) filled at_end (Nat.mul_one 32).symm rfl room
  · rename_i not_short
    intro far
    rw [if_neg not_short, if_neg far] at room ⊢
    simp only [M3_MAX_OFFSET] at far
    have marker : M4_MARKER ||| (((offset - 0x4000) >>> 11) &&& 8) =
        M4_MARKER + 8 * ((offset - 0x4000) / 0x4000) := by
      have top : (offset - 0x4000) >>> 11 / 8 % 2 = (offset - 0x4000) / 0x4000 := by
        rw [Nat.shiftRight_eq_div_pow]
        omega
      rw [and_eight, top]
      exact (Nat.two_pow_add_eq_or_of_lt (i := 4) (by omega) 1).symm
    dsimp only
    rw [marker]
    have aligned : M4_MARKER + 8 * ((offset - 0x4000) / 0x4000) =
        2 ^ 3 * (2 + (offset - 0x4000) / 0x4000) := by
      simp only [M4_MARKER]
      omega
    exact returns_storeLongMatch filled at_end aligned rfl room

theorem length_runHeader (n : Nat) :
    (runHeader n).length = if n ≤ 18 then 1 else 2 + (n - 19) / 255 := by
  unfold runHeader
  split
  · rfl
  · rw [List.length_cons, length_runs]
    omega

theorem length_matchBytes_le (offset length n : Nat) :
    (matchBytes offset length n).length ≤ 3 ∨
      10 ≤ length ∧ (matchBytes offset length n).length ≤ 4 + (length - 10) / 255 := by
  have long (offset marker maxLen : Nat) (least : 9 ≤ maxLen) :
      (lengthBytes marker maxLen length ++ offsetBytes offset n).length ≤ 3 ∨
        10 ≤ length ∧ (lengthBytes marker maxLen length ++ offsetBytes offset n).length ≤
          4 + (length - 10) / 255 := by
    rw [List.length_append, show (offsetBytes offset n).length = 2 from rfl, lengthBytes]
    split
    · exact Or.inl (Nat.le_refl 3)
    · rw [List.length_cons, length_runs]
      omega
  unfold matchBytes
  split
  · exact Or.inl (show 2 ≤ 3 by decide)
  · split
    · exact long _ _ _ (by decide)
    · exact long _ _ _ (by decide)

theorem returns_copySixteen (filled : Filled cap out dst) (at_end : op = out.length)
    (inside : p + 16 ≤ src.length) (room : op + 16 ≤ cap) :
    Returns (copySixteen src dst op p) (Filled cap (out ++ slice src p 16)) := by
  refine Returns.bind (filled.copyFrom (n := 8) (s := p) at_end (by omega) (by omega)) ?_
  intro dst₁ filled₁
  have length_eq : (slice src p 8).length = 8 := length_slice (by omega)
  have at_end₁ : op + 8 = (out ++ slice src p 8).length := by
    rw [List.length_append, length_eq, at_end]
  have second : Returns (copyFrom src dst₁ (op + 8) (p + 8) 8)
      (Filled cap (out ++ slice src p 8 ++ slice src (p + 8) 8)) :=
    filled₁.copyFrom at_end₁ inside (by omega)
  rwa [List.append_assoc, ← slice_add] at second

/-- Sixteen bytes at a time, and then the rest. -/
theorem returns_copyRun {t : Nat} (filled : Filled cap out dst) (at_end : op = out.length)
    (inside : p + t ≤ src.length) (room : out.length + t ≤ cap) :
    Returns (do
        let (dst, op, ii, t) ← copyBlocks 16 (fun dst op ii _ => copySixteen src dst op ii)
          dst op p t
        let dst ← copyBytes (copyFrom src) dst op ii t
        pure (dst, op + t)) fun (dst', op') =>
      Filled cap (out ++ slice src p t) dst' ∧ op' = (out ++ slice src p t).length := by
  have length_eq (n : Nat) (h : p + n ≤ src.length) :
      (out ++ slice src p n).length = op + n := by
    rw [List.length_append, length_slice h, at_end]
  have joined (n k : Nat) : out ++ slice src p n ++ slice src (p + n) k =
      out ++ slice src p (n + k) := by rw [slice_add, List.append_assoc]
  have start : Filled cap (out ++ slice src p 0) dst := by simpa [slice] using filled
  have blocks : Ends (copyBlocks 16 (fun dst op ii _ => copySixteen src dst op ii) dst op p t)
      (fun (dst', op', ii', t') => ∃ n, n + t' = t ∧ t' < 16 ∧ op' = op + n ∧ ii' = p + n ∧
        Filled cap (out ++ slice src p n) dst') (fun _ => False) := by
    refine ends_copyBlocks (n := 0) (by decide)
      (fun n dst => Filled cap (out ++ slice src p n) dst) ?_ start (Nat.zero_add t)
    intro n dst' h filled'
    have step := returns_copySixteen filled' (length_eq n (by omega)).symm
      (show p + n + 16 ≤ src.length by omega) (by omega)
    rw [joined] at step
    exact step.ends
  refine (Ends.bind blocks ?_).returns
  rintro ⟨dst', op', ii', t'⟩ ⟨n, rest, few, rfl, rfl, filled'⟩
  have bytes : Ends (copyBytes (copyFrom src) dst' (op + n) (p + n) t')
      (fun dst'' => Filled cap (out ++ slice src p t) dst'') (fun _ => False) := by
    refine ends_copyBytes (fun n dst => Filled cap (out ++ slice src p n) dst) ?_ filled' rest
    intro k dst'' h filled''
    have step := filled''.copyFrom (n := 1) (s := p + k) (length_eq k (by omega)).symm
      (show p + k + 1 ≤ src.length by omega) (by rw [length_eq k (by omega)]; omega)
    rw [joined] at step
    exact step.ends
  refine Ends.bind bytes ?_
  intro dst'' filled''
  refine Ends.ok ⟨filled'', ?_⟩
  rw [length_eq t inside]
  omega

/-- What has been written, the literals that come next, and what stands in front of them. -/
theorem returns_storeLiterals {t : Nat} (emits : Emits src bytes p) (first : bytes = [] → 4 ≤ t)
    (filled : Filled cap bytes dst) (at_end : op = bytes.length)
    (ahead : p + t + 16 ≤ src.length) (room : bytes.length + t + t / 255 + 18 ≤ cap) :
    Returns (storeLiterals src dst op p t) fun (dst', op') => ∃ bytes' place,
      Filled cap bytes' dst' ∧ op' = bytes'.length ∧ bytes' ≠ [] ∧
        Covers src bytes' place (p + t) ∧ bytes'.length =
          bytes.length + t + if t ≤ 3 then 0 else (runHeader t).length := by
  have header := length_runHeader t
  have shorter (out : List UInt8) (n : Nat) (h : t ≤ n) {dst : List UInt8}
      (filled : Filled cap (out ++ slice src p n) dst) : Filled cap (out ++ slice src p t) dst :=
    filled.shorter (prefix_slice out src p h)
  have length_eq : (slice src p t).length = t := length_slice (by omega)
  refine Returns.ite ?_ fun some_literals => Returns.ite ?_ fun many => ?_
  · rintro rfl
    refine Returns.ok ⟨bytes, .matched, filled, at_end, ?_, emits.covers, rfl⟩
    rintro rfl
    exact absurd (first rfl) (by decide)
  · intro few
    have not_first : bytes ≠ [] := by
      rintro rfl
      have := first rfl
      omega
    refine Returns.bind (returns_addLiterals emits not_first filled at_end
      (Nat.pos_of_ne_zero some_literals) (by omega) (by omega)) ?_
    rintro dst₁ ⟨bytes', same_length, filled₁, covers⟩
    refine Returns.bind (filled₁.copyFrom (n := 4) (s := p) (at_end.trans same_length.symm)
      (by omega) (by omega)) ?_
    intro dst₂ filled₂
    refine Returns.ok ⟨_, _, shorter _ 4 (by omega) filled₂, ?_, ?_, covers, ?_⟩
    · rw [List.length_append, length_eq, same_length, at_end]
    · exact List.append_ne_nil_of_right_ne_nil _
        (List.ne_nil_of_length_eq_add_one (length_eq.trans (by omega : t = t - 1 + 1)))
    · rw [List.length_append, length_eq, same_length, if_pos few, Nat.add_zero]
  · have covers := emits.covers.run (show 4 ≤ t by omega) (show p + t ≤ src.length by omega)
    have nonempty : bytes ++ (runHeader t ++ slice src p t) ≠ [] := by
      intro nil
      have := congrArg List.length nil
      rw [List.length_append, List.length_append, length_eq, List.length_nil] at this
      omega
    have total : (bytes ++ (runHeader t ++ slice src p t)).length =
        bytes.length + t + if t ≤ 3 then 0 else (runHeader t).length := by
      rw [List.length_append, List.length_append, length_eq, if_neg many]
      omega
    rw [← List.append_assoc] at covers nonempty total
    refine Returns.ite ?_ ?_
    · intro short
      have header_eq : runHeader t = [UInt8.ofNat (t - 3)] := if_pos (by omega)
      rw [header_eq] at covers nonempty total
      refine Returns.bind (filled.push at_end (by omega) _) ?_
      intro dst₁ filled₁
      have at_end₁ : op + 1 = (bytes ++ [UInt8.ofNat (t - 3)]).length := by
        rw [at_end, List.length_append]
        rfl
      refine Returns.bind (returns_copySixteen filled₁ at_end₁ (by omega) (by omega)) ?_
      intro dst₂ filled₂
      refine Returns.ok ⟨_, _, shorter _ 16 short filled₂, ?_, nonempty, covers, ?_⟩
      · rw [List.length_append, length_eq, ← at_end₁]
      · rw [total, header_eq]
    · intro long
      have header_room : (bytes ++ runHeader t).length ≤ cap := by
        rw [List.length_append]
        split at header <;> omega
      refine Returns.bind (returns_storeRunLength filled at_end header_room) ?_
      rintro ⟨dst₁, op₁⟩ ⟨filled₁, at_end₁⟩
      have run_room : (bytes ++ runHeader t).length + t ≤ cap := by
        rw [List.length_append]
        split at header <;> omega
      have copied := returns_copyRun filled₁ at_end₁ (show p + t ≤ src.length by omega) run_room
      exact copied.mono fun (dst', op') done => ⟨_, _, done.1, done.2, nonempty, covers, total⟩

end MobilePIM.Lzo
