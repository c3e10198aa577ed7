import MobilePIM.Lz4.Emission

/-!
What the compressor does: between two turns of its main loop it has written
sequences that expand to the source up to the anchor. It comes to a legal block of
the source, or gives up because the output may be too small, and only with a limit.
-/

namespace MobilePIM.Lz4

open Memory Total

variable {src dst : List UInt8} {t : TableType} {limited : LimitedOutput}
  {olimit cap op ip m anchor : Nat}

/-- The output that may be written: enough for every input, or checked against the limit. -/
def Budget (n : Nat) (limited : LimitedOutput) (olimit cap : Nat) : Prop :=
  match limited with
  | .notLimited => n + n / 255 + 16 ≤ cap
  | .limitedOutput => olimit = cap

theorem returns_hashPosition {p : Nat} (h : p + 8 ≤ src.length) :
    Returns (hashPosition src p t) fun _ => True := by
  cases t with
  | byU32 =>
      refine Returns.bind (returns_eq (readWord_ok h)) ?_
      intro _ _
      exact Returns.ok trivial
  | byU16 =>
      refine Returns.bind (returns_eq (readWord_ok (k := 4) (by omega))) ?_
      intro _ _
      exact Returns.ok trivial

theorem putIndexOnHash_lt {table : HashTable t} {bound p : Nat} {h : Fin (2 ^ t.hashLog)}
    (before : ∀ k, table k < bound) (hp : p < bound) (k : Fin (2 ^ t.hashLog)) :
    putIndexOnHash p h table k < bound := by
  unfold putIndexOnHash
  split
  · exact (Nat.mod_le _ _).trans_lt hp
  · exact before k

theorem returns_putPosition {table : HashTable t} {bound p : Nat} (h : p + 8 ≤ src.length)
    (before : ∀ k, table k < bound) (hp : p < bound) :
    Returns (putPosition src p table) fun table' => ∀ k, table' k < bound := by
  refine Returns.bind (returns_hashPosition h) ?_
  intro index _
  exact Returns.ok (putIndexOnHash_lt before hp)

/-- A position of the source and an earlier one, not too far back, with the same four bytes. -/
structure Candidate (src : List UInt8) (ip m : Nat) : Prop where
  earlier : m < ip
  near : ip - m ≤ LZ4_DISTANCE_MAX
  room : ip + MFLIMIT ≤ src.length
  same : ∀ k < 4, src[m + k]? = src[ip + k]?

/-- Between two probes: the table holds only positions before the next one. -/
abbrev Searching (src : List UInt8) (ip : Nat) :
    Nat × Nat × Nat × Fin (2 ^ t.hashLog) × HashTable t → Prop :=
  fun (forwardIp, step, searchMatchNb, _, table) => ip ≤ forwardIp ∧
    forwardIp + 11 ≤ src.length ∧ 1 ≤ step ∧ 64 ≤ searchMatchNb ∧ ∀ k, table k < forwardIp

theorem returns_findMatch {acceleration : Nat} {forwardH : Fin (2 ^ t.hashLog)}
    {table : HashTable t} (positive : 0 < acceleration)
    (small : t = .byU16 → src.length < LZ4_64Klimit) (room : ip + 11 ≤ src.length)
    (before : ∀ k, table k < ip) :
    Returns (findMatch src acceleration ip forwardH table) fun found =>
      ∀ p m table', found = some (p, m, table') →
        ip ≤ p ∧ Candidate src p m ∧ ∀ k, table' k < p + 1 := by
  refine Returns.loop (Searching src ip) (fun s => src.length - s.1) ?_
    ⟨Nat.le_refl _, room, Nat.le_refl _, ?_, before⟩ (by simp only; omega)
  · rintro ⟨p, step, nb, h, table⟩ ⟨after, room', step_pos, nb_ge, before'⟩
    have next_step : 1 ≤ nb >>> LZ4_skipTrigger := by
      rw [Nat.shiftRight_eq_div_pow]
      exact Nat.div_pos nb_ge (by decide)
    dsimp only
    refine Returns.ite ?_ ?_
    · intro _
      exact Returns.ok fun _ _ _ stopped => absurd stopped.symm (Option.some_ne_none _)
    intro (inside : ¬src.length - 12 + 1 < p + step)
    refine Returns.bind (returns_hashPosition (by omega)) ?_
    intro forwardH' _
    have earlier := before' h
    have put := putIndexOnHash_lt (h := h) (fun k => (before' k).trans (Nat.lt_succ_self p))
      (Nat.lt_succ_self p)
    have continue_inv : ip ≤ p + step ∧ p + step + 11 ≤ src.length ∧
        1 ≤ nb >>> LZ4_skipTrigger ∧ 64 ≤ nb + 1 ∧
        ∀ k, putIndexOnHash p h table k < p + step :=
      ⟨by omega, by omega, next_step, by omega, fun k => (put k).trans_le (by omega)⟩
    refine Returns.ite ?_ ?_
    · intro _
      exact Returns.ok ⟨continue_inv, by simp only; omega⟩
    intro (near : ¬(t = .byU32 ∧ table h + 65535 < p))
    refine Returns.bind (returns_eq (readWord_ok (k := 4) (by omega))) ?_
    rintro _ rfl
    refine Returns.bind (returns_eq (readWord_ok (k := 4) (by omega))) ?_
    rintro _ rfl
    by_cases same : Words.le 32 (slice src (table h) 4) = Words.le 32 (slice src p 4)
    · rw [if_pos same]
      refine Returns.ok ?_
      rintro p' m' table' ⟨⟩
      refine ⟨after, ⟨earlier, ?_, by simp only [MFLIMIT]; omega,
        getElem?_of_readWord (by omega) (by omega) same⟩, put⟩
      cases t with
      | byU32 =>
          have := Nat.not_lt.mp fun far => near ⟨rfl, far⟩
          simp only [LZ4_DISTANCE_MAX]
          omega
      | byU16 =>
          have limit : src.length < 65536 + (12 - 1) := small rfl
          simp only [LZ4_DISTANCE_MAX]
          omega
    · rw [if_neg same]
      exact Returns.ok ⟨continue_inv, by simp only; omega⟩
  · rw [Nat.shiftLeft_eq]
    simp only [LZ4_skipTrigger]
    omega

/-- The match has grown by `j` bytes in front, down to the literals at most. -/
abbrev CaughtUp (src : List UInt8) (anchor ip m : Nat) : Nat × Nat → Prop := fun (ip', m') =>
  ∃ j, ip = ip' + j ∧ m = m' + j ∧ anchor ≤ ip' ∧ ∀ k < j, src[m' + k]? = src[ip' + k]?

theorem returns_catchUp (ordered : anchor ≤ ip) (inside : ip ≤ src.length) (earlier : m < ip) :
    Returns (catchUp src anchor ip m) (CaughtUp src anchor ip m) := by
  refine Returns.loop (CaughtUp src anchor ip m) (fun s => s.1) ?_
    ⟨0, rfl, rfl, ordered, fun k none => absurd none (Nat.not_lt_zero k)⟩ (Nat.lt_succ_self _)
  rintro ⟨ip', m'⟩ ⟨j, rfl, rfl, ordered', same⟩
  refine Returns.ite ?_ ?_
  · rintro ⟨some_literal, some_match⟩
    refine Returns.bind (returns_eq (byte_ok (by omega))) ?_
    rintro _ rfl
    refine Returns.bind (returns_eq (byte_ok (by omega))) ?_
    rintro _ rfl
    by_cases equal : src[ip' - 1] = src[m' - 1]
    · rw [if_pos equal]
      refine Returns.ok ⟨⟨j + 1, by omega, by omega, by omega, ?_⟩, by simp only; omega⟩
      intro k hk
      cases k with
      | zero => rw [Nat.add_zero, Nat.add_zero, List.getElem?_eq_getElem (by omega),
          List.getElem?_eq_getElem (by omega), equal]
      | succ k =>
          have rest := same k (Nat.lt_of_succ_lt_succ hk)
          rw [show m' - 1 + (k + 1) = m' + k by omega, show ip' - 1 + (k + 1) = ip' + k by omega]
          exact rest
    · rw [if_neg equal]
      exact Returns.ok ⟨j, rfl, rfl, ordered', same⟩
  · intro _
    exact Returns.ok ⟨j, rfl, rfl, ordered', same⟩

/-- The literals stand in the buffer with room for what follows them, or the limit is near. -/
theorem returns_encodeLiterals {bytes : List UInt8}
    (budget : Budget src.length limited olimit cap) (filled : Filled cap bytes dst)
    (at_end : op = bytes.length) (short : 255 * bytes.length ≤ 256 * anchor)
    (ordered : anchor ≤ ip) (room : ip + MFLIMIT ≤ src.length) :
    Returns (encodeLiterals src limited olimit anchor ip op dst) fun written =>
      (written = none → limited = .limitedOutput) ∧
      ∀ op' dst', written = some (op', dst') →
        Filled cap (bytes ++ literalHeader (ip - anchor) ++ slice src anchor (ip - anchor)) dst' ∧
        op' = bytes.length + (literalHeader (ip - anchor)).length + (ip - anchor) ∧
        op' + 7 ≤ cap := by
  obtain ⟨l, rfl⟩ := Nat.exists_eq_add_of_le ordered
  rw [Nat.add_sub_cancel_left]
  have header := length_literalHeader l
  have extra := length_extension_le l
  have exact_length := length_extension l
  simp only [MFLIMIT] at room
  unfold encodeLiterals
  rw [Nat.add_sub_cancel_left]
  refine Returns.ite ?_ ?_
  · rintro ⟨limit, -⟩
    exact Returns.ok ⟨fun _ => limit, fun _ _ same => absurd same.symm (Option.some_ne_none _)⟩
  intro (enough : ¬(limited = .limitedOutput ∧ olimit < op + 1 + l + 8 + l / 255))
  have space : op + (literalHeader l).length + l + 7 ≤ cap ∧
      op + (literalHeader l).length + 8 ≤ cap := by
    cases limited with
    | notLimited =>
        have capacity : src.length + src.length / 255 + 16 ≤ cap := budget
        omega
    | limitedOutput =>
        have capacity : olimit = cap := budget
        have fits := Nat.not_lt.mp fun exceeds => enough ⟨rfl, exceeds⟩
        split at exact_length <;> omega
  refine Returns.bind (returns_writeLiteralLength filled at_end
    (by rw [List.length_append]; omega)) ?_
  rintro ⟨dst₁, op₁⟩ ⟨filled₁, at_end₁⟩
  have op₁_eq : op₁ = op + (literalHeader l).length := by
    rw [at_end₁, List.length_append, at_end]
  refine Returns.bind (returns_wildCopy8_from filled₁ at_end₁ (by omega) (by omega) (by omega)
    (by omega)) ?_
  intro dst₂ filled₂
  rw [Nat.add_sub_cancel_left] at filled₂
  refine Returns.ok ⟨fun given_up => absurd given_up (Option.some_ne_none _), ?_⟩
  rintro _ _ ⟨⟩
  exact ⟨filled₂, by omega, by omega⟩

theorem returns_lastLiterals {bytes : List UInt8}
    (budget : Budget src.length limited olimit cap) (filled : Filled cap bytes dst)
    (at_end : op = bytes.length) (short : 255 * bytes.length ≤ 256 * anchor)
    (inside : anchor ≤ src.length) :
    Returns (lastLiterals src limited olimit anchor op dst) fun (r, dst') =>
      r = 0 ∧ limited = .limitedOutput ∧ dst'.length = cap ∨
      Filled cap (bytes ++ lastBytes (src.drop anchor)) dst' ∧
        r = (bytes ++ lastBytes (src.drop anchor)).length := by
  have length_last : (src.drop anchor).length = src.length - anchor := List.length_drop
  have whole : lastBytes (src.drop anchor) =
      literalHeader (src.length - anchor) ++ slice src anchor (src.length - anchor) := by
    rw [lastBytes, length_last, literalHeader, slice, List.take_of_length_le length_last.le]
  have header := length_literalHeader (src.length - anchor)
  have extra := length_extension_le (src.length - anchor)
  have exact_length := length_extension (src.length - anchor)
  have rest : (slice src anchor (src.length - anchor)).length = src.length - anchor :=
    length_slice (by omega)
  refine Returns.ite ?_ ?_
  · rintro ⟨limit, -⟩
    exact Returns.ok (Or.inl ⟨rfl, limit, filled.length_eq⟩)
  intro (enough : ¬(limited = .limitedOutput ∧ olimit < op + (src.length - anchor) + 1 +
    (src.length - anchor + 255 - 15) / 255))
  have space : op + (literalHeader (src.length - anchor)).length + (src.length - anchor) ≤ cap := by
    cases limited with
    | notLimited =>
        have capacity : src.length + src.length / 255 + 16 ≤ cap := budget
        omega
    | limitedOutput =>
        have capacity : olimit = cap := budget
        have fits := Nat.not_lt.mp fun exceeds => enough ⟨rfl, exceeds⟩
        split at exact_length <;> omega
  refine Returns.bind (returns_writeLiteralLength filled at_end
    (by rw [List.length_append]; omega)) ?_
  rintro ⟨dst₁, op₁⟩ ⟨filled₁, at_end₁⟩
  have op₁_eq : op₁ = op + (literalHeader (src.length - anchor)).length := by
    rw [at_end₁, List.length_append, at_end]
  refine Returns.bind (filled₁.copyFrom at_end₁ (show anchor + (src.length - anchor) ≤ src.length by
    omega) (by omega)) ?_
  intro dst₂ filled₂
  rw [List.append_assoc, ← whole] at filled₂
  refine Returns.ok (Or.inr ⟨filled₂, ?_⟩)
  rw [List.length_append, whole, List.length_append, rest]
  omega

/-- The length of a match: what fits the token, and the bytes that continue it. -/
theorem returns_encodeLength {pre post : List UInt8} {l n ip' : Nat}
    (filled : Filled cap (pre ++ [token l 0] ++ post) dst)
    (at_end : op = (pre ++ [token l 0] ++ post).length)
    (fits : op + (extension n).length + 3 ≤ cap) :
    Returns (if ML_MASK ≤ n then do
        let dst ← addToToken dst pre.length ML_MASK
        let (dst, op) ← writeMatchRun dst op (n - ML_MASK)
        pure (.inr (ip', op, dst) : List UInt8 ⊕ (Nat × Nat × List UInt8))
      else do
        let dst ← addToToken dst pre.length n
        pure (.inr (ip', op, dst)))
      fun written => ∃ dst', written = .inr (ip', op + (extension n).length, dst') ∧
        Filled cap (pre ++ [token l n] ++ (post ++ extension n)) dst' := by
  refine Returns.ite ?_ ?_
  · intro (long : 15 ≤ n)
    have extension_eq : extension n = runs (n - 15) := if_neg (Nat.not_lt.mpr long)
    rw [extension_eq] at fits ⊢
    refine Returns.bind (returns_addToToken (n := 15) (Nat.le_refl _) filled) ?_
    intro dst₂ filled₂
    have length₂ : op = (pre ++ [token l 15] ++ post).length := by
      rw [at_end]
      simp only [List.length_append, List.length_cons, List.length_nil]
    refine Returns.bind (returns_writeMatchRun (n := n - 15) filled₂ length₂
      (by rw [List.length_append, ← length₂]; omega)) ?_
    rintro ⟨dst₃, op₃⟩ ⟨filled₃, at_end₃⟩
    have same : token l n = token l 15 := by
      rw [token, token, Nat.min_eq_right long, Nat.min_self]
    have op₃_eq : op₃ = op + (runs (n - 15)).length := by
      rw [at_end₃, List.length_append, ← length₂]
    refine Returns.ok ⟨dst₃, by rw [op₃_eq], ?_⟩
    rw [same, ← List.append_assoc]
    exact filled₃
  · intro (short : ¬15 ≤ n)
    have extension_eq : extension n = [] := if_pos (Nat.not_le.mp short)
    refine Returns.bind (returns_addToToken (n := n) (Nat.not_le.mp short).le filled) ?_
    intro dst₂ filled₂
    rw [extension_eq, List.append_nil]
    exact Returns.ok ⟨dst₂, rfl, filled₂⟩

theorem returns_encodeMatch {pre post : List UInt8} {l : Nat}
    (budget : limited = .limitedOutput → olimit = cap)
    (filled : Filled cap (pre ++ [token l 0] ++ post) dst)
    (at_end : op = (pre ++ [token l 0] ++ post).length) (ahead : op + 5 ≤ cap)
    (earlier : m < ip) (room : ip + MFLIMIT ≤ src.length)
    (enough : limited = .notLimited → ∀ n, ip + MINMATCH + n + LASTLITERALS ≤ src.length →
      op + 2 + (extension n).length + 3 ≤ cap) :
    Returns (encodeMatch src limited olimit pre.length ip m op dst) (Sum.elim
      (fun dst' => limited = .limitedOutput ∧ dst'.length = cap)
      fun (ip', op', dst') => ∃ n,
        n = agreement src (src.length - LASTLITERALS) (ip + MINMATCH) (m + MINMATCH) ∧
        ip' = ip + n + MINMATCH ∧
        Filled cap (pre ++ [token l n] ++ (post ++ offsetBytes (UInt16.ofNat (ip - m)) ++
          extension n)) dst' ∧
        op' = op + 2 + (extension n).length ∧ (limited = .limitedOutput → op' + 6 ≤ cap)) := by
  simp only [MFLIMIT] at room
  refine Returns.bind (filled.write at_end (by rw [length_offsetBytes]; omega)) ?_
  intro dst₁ filled₁
  rw [List.append_assoc] at filled₁
  have at_end₁ : op + 2 = (pre ++ [token l 0] ++
      (post ++ offsetBytes (UInt16.ofNat (ip - m)))).length := by
    rw [at_end]
    simp only [List.length_append, length_offsetBytes]
    omega
  refine Returns.bind (returns_count (by omega) (by omega)
    (by simp only [MINMATCH, LASTLITERALS]; omega)) ?_
  rintro _ rfl
  have before_limit : ip + MINMATCH ≤ src.length - LASTLITERALS := by
    simp only [MINMATCH, LASTLITERALS]
    omega
  have bound := agreement_le (q := m + MINMATCH) (Nat.sub_le src.length LASTLITERALS) before_limit
  generalize agreement src (src.length - LASTLITERALS) (ip + MINMATCH) (m + MINMATCH) = n at *
  simp only [MINMATCH, LASTLITERALS] at bound
  dsimp only
  refine Returns.ite ?_ ?_
  · rintro ⟨limit, -⟩
    exact Returns.ok ⟨limit, filled₁.length_eq⟩
  intro (checked : ¬(limited = .limitedOutput ∧ olimit < op + 2 + 6 + (n + 240) / 255))
  have fits : op + 2 + (extension n).length + 3 ≤ cap ∧
      (limited = .limitedOutput → op + 2 + (extension n).length + 6 ≤ cap) := by
    cases limited with
    | notLimited =>
        refine ⟨enough rfl n (by simp only [MINMATCH, LASTLITERALS]; omega), ?_⟩
        intro limit
        cases limit
    | limitedOutput =>
        have capacity := budget rfl
        have inside := Nat.not_lt.mp fun exceeds => checked ⟨rfl, exceeds⟩
        have exact_length := length_extension n
        split at exact_length <;> exact ⟨by omega, fun _ => by omega⟩
  refine (returns_encodeLength filled₁ at_end₁ fits.1).mono ?_
  rintro _ ⟨dst', rfl, filled'⟩
  exact ⟨n, rfl, rfl, filled', rfl, fits.2⟩

/-- Between two turns of the main loop. Behind `_next_match` the bytes of the pending
sequence so far stand in the buffer, and `reach` is where the known part of its match ends. -/
def Between (src : List UInt8) (cap : Nat) : Phase t → Prop
  | .search _ s => ∃ bytes, Emits src bytes s.anchor ∧ Filled cap bytes s.dst ∧
      s.op = bytes.length ∧ s.ip = s.anchor + 1 ∧ s.ip + 11 ≤ src.length ∧
      ∀ k, s.table k < s.ip
  | .nextMatch token m s => ∃ bytes reach, Emits src bytes s.anchor ∧ token = bytes.length ∧
      s.anchor ≤ s.ip ∧
      Filled cap (bytes ++ literalHeader (s.ip - s.anchor) ++
        slice src s.anchor (s.ip - s.anchor)) s.dst ∧
      s.op = bytes.length + (literalHeader (s.ip - s.anchor)).length + (s.ip - s.anchor) ∧
      s.op + 5 ≤ cap ∧ Candidate src s.ip m ∧ s.ip + MINMATCH ≤ reach ∧
      reach + LASTLITERALS ≤ src.length ∧
      (∀ k, s.ip + k < reach → src[m + k]? = src[s.ip + k]?) ∧ ∀ k, s.table k < reach

/-- Each sequence takes two turns at most, and moves the anchor. -/
def stepsLeft (src : List UInt8) : Phase t → Nat
  | .search _ s => 2 * (src.length - s.anchor) + 1
  | .nextMatch _ _ s => 2 * (src.length - s.anchor)

/-- What the compressor returns: the length of a legal block of the source, which the
buffer starts with, or 0 where the output is limited. -/
def Compressed (src : List UInt8) (limited : LimitedOutput) (cap : Nat) :
    Nat × List UInt8 → Prop
  | (r, dst) => r = 0 ∧ limited = .limitedOutput ∧ dst.length = cap ∨
      ∃ bytes, Filled cap bytes dst ∧ r = bytes.length ∧ IsLegalBlock src.length bytes src ∧
        255 * bytes.length ≤ 256 * src.length + 495

theorem compressed_last {bytes : List UInt8} (emits : Emits src bytes anchor)
    (budget : Budget src.length limited olimit cap) (filled : Filled cap bytes dst)
    (at_end : op = bytes.length) (last : anchor = 0 ∨ anchor + LASTLITERALS ≤ src.length) :
    Returns (lastLiterals src limited olimit anchor op dst) (Compressed src limited cap) := by
  have short := emits.length_le
  have inside := emits.room
  refine (returns_lastLiterals budget filled at_end short inside).mono ?_
  rintro ⟨r, dst'⟩ (⟨rfl, limit, length_eq⟩ | ⟨filled', rfl⟩)
  · exact Or.inl ⟨rfl, limit, length_eq⟩
  · refine Or.inr ⟨_, filled', rfl, emits.block last, ?_⟩
    have extra := length_extension_le (src.drop anchor).length
    rw [List.length_append, length_lastBytes]
    rw [List.length_drop] at extra ⊢
    omega

theorem Budget.limit (budget : Budget src.length limited olimit cap)
    (limit : limited = .limitedOutput) : olimit = cap := by
  subst limit
  exact budget

theorem Budget.notLimited (budget : Budget src.length limited olimit cap)
    (free : limited = .notLimited) : src.length + src.length / 255 + 16 ≤ cap := by
  subst free
  exact budget

theorem returns_searchTurn {acceleration : Nat} {forwardH : Fin (2 ^ t.hashLog)} {s : State t}
    (positive : 0 < acceleration) (small : t = .byU16 → src.length < LZ4_64Klimit)
    (budget : Budget src.length limited olimit cap) (before : Between src cap (.search forwardH s)) :
    Returns (searchTurn src limited olimit acceleration forwardH s) (Sum.elim
      (fun phase => Between src cap phase ∧ stepsLeft src phase < stepsLeft src (.search forwardH s))
      (Compressed src limited cap)) := by
  obtain ⟨bytes, emits, filled, at_end, ip_eq, room, table_lt⟩ := before
  have short := emits.length_le
  refine Returns.bind (returns_findMatch positive small room table_lt) ?_
  intro found candidate
  cases found with
  | none =>
      refine Returns.bind (compressed_last emits budget filled at_end (Or.inr ?_)) ?_
      · simp only [LASTLITERALS]
        omega
      · intro r done
        exact Returns.ok done
  | some found =>
      obtain ⟨p, m, table⟩ := found
      obtain ⟨after, ⟨earlier, near, match_room, same⟩, table_lt'⟩ := candidate p m table rfl
      simp only [MFLIMIT] at match_room
      refine Returns.bind (returns_catchUp (show s.anchor ≤ p by omega) (by omega) earlier) ?_
      rintro ⟨ip', m'⟩ ⟨j, rfl, rfl, ordered, caught⟩
      refine Returns.bind (returns_encodeLiterals budget filled at_end short ordered
        (by simp only [MFLIMIT]; omega)) ?_
      intro written literals
      cases written with
      | none => exact Returns.ok (Or.inl ⟨rfl, literals.1 rfl, filled.length_eq⟩)
      | some written =>
          obtain ⟨op', dst'⟩ := written
          obtain ⟨filled', op'_eq, ahead⟩ := literals.2 op' dst' rfl
          have known (k : Nat) (hk : ip' + k < ip' + j + 4) : src[m' + k]? = src[ip' + k]? := by
            by_cases hj : k < j
            · exact caught k hj
            · have far := same (k - j) (by omega)
              rw [show m' + j + (k - j) = m' + k by omega,
                show ip' + j + (k - j) = ip' + k by omega] at far
              exact far
          have moved : Candidate src ip' m' :=
            ⟨by omega, by omega, by simp only [MFLIMIT]; omega, fun k hk => known k (by omega)⟩
          refine Returns.ok ⟨⟨bytes, ip' + j + 4, emits, at_end, ordered, filled', op'_eq,
            by simp only; omega, moved, ?_, ?_, known, ?_⟩, ?_⟩
          · simp only [MINMATCH]
            omega
          · simp only [LASTLITERALS]
            omega
          · exact fun k => (table_lt' k).trans_le (by omega)
          · simp only [stepsLeft]
            omega

/-- The sequence of the literals since the anchor and of a match of `n` bytes above the least. -/
def pendingSequence (src : List UInt8) (anchor ip m n : Nat) : Sequence :=
  ⟨slice src anchor (ip - anchor), UInt16.ofNat (ip - m), n⟩

theorem append_pendingSequence {bytes : List UInt8} {n : Nat} (ordered : anchor ≤ ip)
    (inside : ip ≤ src.length) :
    bytes ++ [token (ip - anchor) n] ++ (extension (ip - anchor) ++
      slice src anchor (ip - anchor) ++ offsetBytes (UInt16.ofNat (ip - m)) ++ extension n) =
      bytes ++ (pendingSequence src anchor ip m n).bytes := by
  have length_eq : (slice src anchor (ip - anchor)).length = ip - anchor :=
    length_slice (by omega)
  simp [pendingSequence, Sequence.bytes, length_eq]

theorem Emits.complete {bytes : List UInt8} (emits : Emits src bytes anchor)
    (ordered : anchor ≤ ip) (candidate : Candidate src ip m) {n : Nat}
    (counted : n = agreement src (src.length - LASTLITERALS) (ip + MINMATCH) (m + MINMATCH)) :
    Emits src (bytes ++ (pendingSequence src anchor ip m n).bytes) (ip + n + MINMATCH) := by
  obtain ⟨earlier, near, room, same⟩ := candidate
  have before_limit : ip + MINMATCH ≤ src.length - LASTLITERALS := by
    simp only [MINMATCH, LASTLITERALS, MFLIMIT] at room ⊢
    omega
  have bound := agreement_le (q := m + MINMATCH) (Nat.sub_le src.length LASTLITERALS) before_limit
  have length_eq : (slice src anchor (ip - anchor)).length = ip - anchor :=
    length_slice (by omega)
  have offset_eq : (UInt16.ofNat (ip - m)).toNat = ip - m :=
    UInt16.toNat_ofNat_of_lt' (Nat.lt_succ_of_le near)
  rw [← counted] at bound
  simp only [MINMATCH, LASTLITERALS, MFLIMIT] at bound room before_limit
  have next := Emits.sequence (pendingSequence src anchor ip m n) emits
    (by simp only [pendingSequence, length_eq])
    (by simp only [pendingSequence, length_eq, MFLIMIT]; omega)
    (by simp only [pendingSequence, length_eq, Sequence.matchLength, MINMATCH, LASTLITERALS]; omega)
    (by simp only [pendingSequence, offset_eq]; omega)
    (by simp only [pendingSequence, length_eq, offset_eq]; omega) (by
      intro k hk
      simp only [pendingSequence, length_eq, offset_eq, Sequence.matchLength, MINMATCH] at hk ⊢
      rw [show anchor + (ip - anchor) - (ip - m) + k = m + k by omega,
        show anchor + (ip - anchor) + k = ip + k by omega]
      by_cases first : k < 4
      · exact same k first
      · have rest := getElem?_of_lt_agreement (k := k - 4) (q := m + MINMATCH)
          (Nat.sub_le src.length LASTLITERALS)
          (show ip + MINMATCH ≤ src.length - LASTLITERALS from before_limit)
          (by rw [← counted]; omega)
        simp only [MINMATCH] at rest
        rw [show m + 4 + (k - 4) = m + k by omega,
          show ip + 4 + (k - 4) = ip + k by omega] at rest
        exact rest)
  have position : anchor + (pendingSequence src anchor ip m n).literals.length +
      (pendingSequence src anchor ip m n).matchLength = ip + n + MINMATCH := by
    simp only [pendingSequence, length_eq, Sequence.matchLength]
    omega
  rwa [position] at next

theorem returns_matchFollows (small : t = .byU16 → src.length < LZ4_64Klimit) (earlier : m < ip)
    (room : ip + MFLIMIT ≤ src.length) :
    Returns (matchFollows src t ip m) fun follows => follows = true → Candidate src ip m := by
  simp only [MFLIMIT] at room
  refine Returns.ite ?_ ?_
  · intro near
    refine Returns.bind (returns_eq (readWord_ok (k := 4) (by omega))) ?_
    rintro _ rfl
    refine Returns.bind (returns_eq (readWord_ok (k := 4) (by omega))) ?_
    rintro _ rfl
    refine Returns.ok ?_
    intro follows
    have same := getElem?_of_readWord (by omega) (by omega) (of_decide_eq_true follows)
    refine ⟨earlier, ?_, room, same⟩
    rcases near with rfl | near
    · have limit : src.length < 65536 + (12 - 1) := small rfl
      simp only [LZ4_DISTANCE_MAX]
      omega
    · omega
  · intro _
    exact Returns.ok fun follows => by cases follows

/-- A sequence that ends at `ip` is complete, and its bytes stand in the buffer. -/
def Complete (src : List UInt8) (limited : LimitedOutput) (cap ip op : Nat) (dst : List UInt8) :
    Prop :=
  ∃ bytes, Emits src bytes ip ∧ Filled cap bytes dst ∧ op = bytes.length ∧
    ip + LASTLITERALS ≤ src.length ∧ (limited = .limitedOutput → op + 6 ≤ cap)

/-- The offset and the length complete the pending sequence. The count reaches what is known of
the match, so the table stays behind. -/
theorem returns_pendingMatch {token m : Nat} {s : State t}
    (budget : Budget src.length limited olimit cap)
    (before : Between src cap (.nextMatch token m s)) :
    Returns (encodeMatch src limited olimit token s.ip m s.op s.dst) (Sum.elim
      (fun dst' => limited = .limitedOutput ∧ dst'.length = cap)
      fun (ip', op', dst') => Complete src limited cap ip' op' dst' ∧ s.anchor < ip' ∧
        ∀ k, s.table k < ip') := by
  obtain ⟨bytes, reach, emits, rfl, ordered, filled, op_eq, ahead, candidate, reach_ge, reach_room,
    known, table_lt⟩ := before
  have short := emits.length_le
  have header := length_literalHeader (s.ip - s.anchor)
  have extra := length_extension_le (s.ip - s.anchor)
  have room := candidate.room
  simp only [MFLIMIT] at room
  have pending : bytes ++ literalHeader (s.ip - s.anchor) ++ slice src s.anchor (s.ip - s.anchor) =
      bytes ++ [Lz4.token (s.ip - s.anchor) 0] ++
        (extension (s.ip - s.anchor) ++ slice src s.anchor (s.ip - s.anchor)) := by
    simp [literalHeader]
  have literals_length : (slice src s.anchor (s.ip - s.anchor)).length = s.ip - s.anchor :=
    length_slice (by omega)
  have at_end : s.op = (bytes ++ [Lz4.token (s.ip - s.anchor) 0] ++
      (extension (s.ip - s.anchor) ++ slice src s.anchor (s.ip - s.anchor))).length := by
    rw [← pending, List.length_append, List.length_append, literals_length]
    exact op_eq
  rw [pending] at filled
  have enough (free : limited = .notLimited) (n : Nat)
      (hn : s.ip + MINMATCH + n + LASTLITERALS ≤ src.length) :
      s.op + 2 + (extension n).length + 3 ≤ cap := by
    have capacity := budget.notLimited free
    have more := length_extension_le n
    simp only [MINMATCH, LASTLITERALS] at hn
    omega
  refine (returns_encodeMatch budget.limit filled at_end ahead candidate.earlier candidate.room
    enough).mono ?_
  intro written spec
  cases written with
  | inl dst' => exact spec
  | inr written =>
      obtain ⟨ip', op', dst'⟩ := written
      obtain ⟨n, counted, rfl, filled', rfl, ahead'⟩ := spec
      rw [append_pendingSequence ordered (by omega)] at filled'
      have least := le_agreement (k := reach - (s.ip + MINMATCH)) (q := m + MINMATCH)
        (Nat.sub_le src.length LASTLITERALS)
        (show m + MINMATCH ≤ s.ip + MINMATCH by have := candidate.earlier; omega) (by omega) (by
          intro i hi
          have equal := known (MINMATCH + i) (by omega)
          rw [Nat.add_assoc, Nat.add_assoc]
          exact equal)
      have bound := agreement_le (q := m + MINMATCH) (Nat.sub_le src.length LASTLITERALS)
        (show s.ip + MINMATCH ≤ src.length - LASTLITERALS by
          simp only [MINMATCH, LASTLITERALS]; omega)
      rw [← counted] at least bound
      simp only [MINMATCH, LASTLITERALS] at least bound reach_ge reach_room
      refine ⟨⟨_, emits.complete ordered candidate counted, filled', ?_, ?_, ahead'⟩, ?_, ?_⟩
      · rw [List.length_append, Sequence.length_bytes]
        simp only [pendingSequence, literals_length]
        omega
      · simp only [MINMATCH, LASTLITERALS]
        omega
      · simp only [MINMATCH]
        omega
      · intro k
        have := table_lt k
        simp only [MINMATCH]
        omega

/-- Where a match follows directly, its token is written, and nothing is known of it beyond the
four bytes that have been compared. -/
theorem returns_followingMatch {table : HashTable t}
    (budget : Budget src.length limited olimit cap) (done : Complete src limited cap ip op dst)
    (candidate : Candidate src ip m) (table_lt : ∀ k, table k < ip + 1) :
    Returns (write dst op [0]) fun dst' =>
      Between src cap (.nextMatch op m ⟨ip, ip, op + 1, dst', table⟩) := by
  obtain ⟨bytes, emits, filled, rfl, -, ahead⟩ := done
  have short := emits.length_le
  have room := candidate.room
  simp only [MFLIMIT] at room
  have one : [(0 : UInt8)].length = 1 := rfl
  have space : bytes.length + 1 + 5 ≤ cap := by
    cases limited with
    | notLimited =>
        have capacity := budget.notLimited rfl
        omega
    | limitedOutput => exact ahead rfl
  refine (filled.write rfl (by omega)).mono ?_
  intro dst' filled'
  refine ⟨bytes, ip + 4, emits, rfl, Nat.le_refl _, ?_, ?_, space, candidate, Nat.le_refl _, ?_,
    fun k hk => candidate.same k (Nat.lt_of_add_lt_add_left hk),
    fun k => (table_lt k).trans_le (Nat.add_le_add_left (by decide) ip)⟩
  · rw [Nat.sub_self, slice, List.take_zero, List.append_nil]
    exact filled'
  · rw [Nat.sub_self]
    rfl
  · simp only [LASTLITERALS]
    omega

theorem returns_matchTurn {token m : Nat} {s : State t}
    (small : t = .byU16 → src.length < LZ4_64Klimit)
    (budget : Budget src.length limited olimit cap)
    (before : Between src cap (.nextMatch token m s)) :
    Returns (matchTurn src limited olimit token m s) (Sum.elim
      (fun phase => Between src cap phase ∧ stepsLeft src phase < stepsLeft src (.nextMatch token m s))
      (Compressed src limited cap)) := by
  refine Returns.bind (returns_pendingMatch budget before) ?_
  intro written spec
  cases written with
  | inl dst' => exact Returns.ok (Or.inl ⟨rfl, spec⟩)
  | inr written =>
      obtain ⟨ip', op', dst'⟩ := written
      obtain ⟨done, moved, table_lt⟩ := spec
      have complete := done
      obtain ⟨bytes, emits, filled, at_end, room, -⟩ := done
      simp only [LASTLITERALS] at room
      refine Returns.ite ?_ ?_
      · intro _
        refine Returns.bind (compressed_last emits budget filled at_end (Or.inr room)) ?_
        intro r last
        exact Returns.ok last
      intro (more : ¬src.length - 12 + 1 ≤ ip')
      refine Returns.bind (returns_putPosition (by omega) table_lt (by omega)) ?_
      intro table₁ table₁_lt
      refine Returns.bind (returns_hashPosition (by omega)) ?_
      intro h _
      have table₂_lt := putIndexOnHash_lt (h := h)
        (fun k => (table₁_lt k).trans (Nat.lt_succ_self ip')) (Nat.lt_succ_self ip')
      refine Returns.bind (returns_matchFollows small (table₁_lt h)
        (by simp only [MFLIMIT]; omega)) ?_
      intro follows candidate
      refine Returns.ite ?_ ?_
      · intro (again : follows = true)
        refine Returns.bind
          (returns_followingMatch budget complete (candidate again) table₂_lt) ?_
        intro dst'' next
        refine Returns.ok ⟨next, ?_⟩
        simp only [stepsLeft]
        omega
      · intro _
        refine Returns.bind (returns_hashPosition (by omega)) ?_
        intro forwardH _
        refine Returns.ok ⟨⟨bytes, emits, filled, at_end, rfl, by simp only; omega,
          table₂_lt⟩, ?_⟩
        simp only [stepsLeft]
        omega

theorem returns_compressGenericValidated {acceleration : Nat} (positive : 0 < acceleration)
    (budget : Budget src.length limited olimit dst.length)
    (small : t = .byU16 → src.length < LZ4_64Klimit) :
    Returns (compressGenericValidated src limited olimit t acceleration dst)
      (Compressed src limited dst.length) := by
  refine Returns.ite ?_ ?_
  · rintro ⟨narrow, large⟩
    exact absurd (small narrow) (Nat.not_lt.mpr large)
  intro _
  refine Returns.ite ?_ ?_
  · intro _
    exact compressed_last .start budget (Filled.nil dst) rfl (Or.inl rfl)
  intro (long : ¬src.length < 13)
  have cleared (k : Fin (2 ^ t.hashLog)) : (fun _ => 0 : HashTable t) k < 1 := Nat.one_pos
  refine Returns.bind (returns_putPosition (by omega) cleared Nat.one_pos) ?_
  intro table table_lt
  refine Returns.bind (returns_hashPosition (by omega)) ?_
  intro forwardH _
  refine Returns.loop (Between src dst.length) (stepsLeft src) ?_
    ⟨[], .start, Filled.nil dst, rfl, rfl, by simp only; omega, table_lt⟩
    (by simp only [stepsLeft]; omega)
  intro phase before
  cases phase with
  | search forwardH s => exact returns_searchTurn positive small budget before
  | nextMatch token m s => exact returns_matchTurn small budget before

theorem returns_compressGeneric {acceleration : Nat} (positive : 0 < acceleration)
    (fits : src.length ≤ LZ4_MAX_INPUT_SIZE)
    (budget : Budget src.length limited olimit dst.length)
    (small : t = .byU16 → src.length < LZ4_64Klimit) :
    Returns (compressGeneric src limited olimit t acceleration dst)
      (Compressed src limited dst.length) := by
  unfold compressGeneric
  rw [if_neg (Nat.not_lt.mpr fits)]
  refine Returns.ite ?_ ?_
  · intro empty
    obtain rfl := List.eq_nil_of_length_eq_zero empty
    refine Returns.ite ?_ ?_
    · rintro ⟨limit, -⟩
      exact Returns.ok (Or.inl ⟨rfl, limit, rfl⟩)
    · intro enough
      have space : 1 ≤ dst.length := by
        cases limited with
        | notLimited => exact (by decide : 1 ≤ 16).trans (budget.notLimited rfl)
        | limitedOutput =>
            have positive := Nat.not_le.mp fun none => enough ⟨rfl, none⟩
            rwa [budget.limit rfl] at positive
      refine Returns.bind ((Filled.nil dst).write rfl space) ?_
      intro dst' filled'
      exact Returns.ok (Or.inr ⟨[0], filled', rfl, .last rfl (Nat.le_refl 0), by decide⟩)
  · intro _
    exact returns_compressGenericValidated positive budget small

/-- What `LZ4_compress_fast` comes to: 0, or the length of a legal block of the source. -/
def FastCompressed (src : List UInt8) (cap : Nat) : Nat × List UInt8 → Prop
  | (r, dst) => dst.length = cap ∧ (r = 0 ∨ r ≤ cap ∧ r ≤ compressBound src.length ∧
      IsLegalBlock src.length (dst.take r) src) ∧
      (src.length ≤ LZ4_MAX_INPUT_SIZE → compressBound src.length ≤ cap → 0 < r)

theorem Compressed.fast {r : Nat × List UInt8} (fits : src.length ≤ LZ4_MAX_INPUT_SIZE)
    (limit : limited = .limitedOutput → ¬compressBound src.length ≤ cap)
    (h : Compressed src limited cap r) : FastCompressed src cap r := by
  obtain ⟨r, dst⟩ := r
  rcases h with ⟨rfl, limited_eq, length_eq⟩ | ⟨bytes, filled, rfl, legal, bound⟩
  · exact ⟨length_eq, Or.inl rfl, fun _ enough => absurd enough (limit limited_eq)⟩
  · have within : bytes.length ≤ compressBound src.length := by
      rw [compressBound, if_neg (Nat.not_lt.mpr fits)]
      omega
    refine ⟨filled.length_eq, Or.inr ⟨filled.le, within, ?_⟩, fun _ _ => ?_⟩
    · rw [filled.take_eq]
      exact legal
    · cases bytes with
      | nil => cases legal with
        | last parsed => cases parsed
        | sequence parsed => cases parsed
      | cons b bytes => exact Nat.succ_pos _

theorem fast_compressGeneric {acceleration : Nat} (positive : 0 < acceleration)
    (budget : src.length ≤ LZ4_MAX_INPUT_SIZE → Budget src.length limited olimit dst.length)
    (small : t = .byU16 → src.length < LZ4_64Klimit)
    (limit : limited = .limitedOutput → ¬compressBound src.length ≤ dst.length) :
    Returns (compressGeneric src limited olimit t acceleration dst)
      (FastCompressed src dst.length) := by
  by_cases fits : src.length ≤ LZ4_MAX_INPUT_SIZE
  · have compressed := returns_compressGeneric positive fits (budget fits) small
    exact compressed.mono fun _ done => done.fast fits limit
  · unfold compressGeneric
    rw [if_pos (Nat.not_le.mp fits)]
    exact Returns.ok ⟨rfl, Or.inl rfl, fun small_input => absurd small_input fits⟩

theorem returns_compressFast (src dst : List UInt8) (acceleration : Int) :
    Returns (compressFast src dst acceleration) (FastCompressed src dst.length) := by
  have positive : 0 < (if LZ4_ACCELERATION_MAX <
      (if acceleration < 1 then LZ4_ACCELERATION_DEFAULT else acceleration) then
        LZ4_ACCELERATION_MAX
      else if acceleration < 1 then LZ4_ACCELERATION_DEFAULT else acceleration).toNat := by
    simp only [LZ4_ACCELERATION_MAX, LZ4_ACCELERATION_DEFAULT]
    split <;> split <;> omega
  unfold compressFast
  generalize table_type : (if src.length < LZ4_64Klimit then TableType.byU16 else .byU32) = t
  have small : t = .byU16 → src.length < LZ4_64Klimit := by
    intro narrow
    by_contra large
    rw [if_neg large] at table_type
    exact TableType.noConfusion (table_type.trans narrow)
  refine Returns.ite ?_ ?_
  · intro enough
    refine fast_compressGeneric positive ?_ small LimitedOutput.noConfusion
    intro fits
    rw [compressBound, if_neg (Nat.not_lt.mpr fits)] at enough
    exact enough
  · intro scarce
    have budget : Budget src.length .limitedOutput dst.length dst.length := rfl
    exact fast_compressGeneric positive (fun _ => budget) small fun _ => scarce

/-- Whatever the source, the buffer and the acceleration, the compressor keeps inside its buffers
and the bound, and what it has written when it reports success is a block that keeps the
restrictions on how one ends. -/
theorem compressFast_legal (src dst : List UInt8) (acceleration : Int) :
    ∃ r out, compressFast src dst acceleration = .ok (r, out) ∧ out.length = dst.length ∧
      r ≤ dst.length ∧ r ≤ compressBound src.length ∧
      (0 < r → IsLegalBlock src.length (out.take r) src) := by
  obtain ⟨⟨r, out⟩, run, length_eq, outcome, -⟩ := returns_compressFast src dst acceleration
  rcases outcome with rfl | ⟨fits, bound, legal⟩
  · exact ⟨0, out, run, length_eq, Nat.zero_le _, Nat.zero_le _, nofun⟩
  · exact ⟨r, out, run, length_eq, fits, bound, fun _ => legal⟩

end MobilePIM.Lz4
