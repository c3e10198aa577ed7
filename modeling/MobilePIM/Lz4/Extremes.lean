import MobilePIM.Lz4.Compression

/-!
Two kinds of sources for which the block is known to the last byte. One without a
match is stored as it is, behind a header; one of equal bytes is a literal, a match
and the last literals.
-/

namespace MobilePIM.Lz4

open Memory Total

variable {src dst : List UInt8} {t : TableType} {cap : Nat}

/-- The call of the main loop by a caller that has left room for any block. -/
theorem returns_compressFast_of_validated {post : Nat × List UInt8 → Prop} {acceleration : Int}
    (fits : src.length ≤ LZ4_MAX_INPUT_SIZE) (some_bytes : src.length ≠ 0)
    (enough : compressBound src.length ≤ dst.length)
    (validated : ∀ (t : TableType) (acceleration : Nat), 0 < acceleration →
      (t = .byU16 → src.length < LZ4_64Klimit) →
      Returns (compressGenericValidated src .notLimited 0 t acceleration dst) post) :
    Returns (compressFast src dst acceleration) post := by
  have positive : 0 < (if LZ4_ACCELERATION_MAX <
      (if acceleration < 1 then LZ4_ACCELERATION_DEFAULT else acceleration) then
        LZ4_ACCELERATION_MAX
      else if acceleration < 1 then LZ4_ACCELERATION_DEFAULT else acceleration).toNat := by
    simp only [LZ4_ACCELERATION_MAX, LZ4_ACCELERATION_DEFAULT]
    split <;> split <;> omega
  unfold compressFast
  rw [if_pos enough, compressGeneric, if_neg (Nat.not_lt.mpr fits), if_neg some_bytes]
  refine validated _ _ positive fun narrow => ?_
  by_contra large
  rw [if_neg large] at narrow
  cases narrow

theorem budget_of_bound (fits : src.length ≤ LZ4_MAX_INPUT_SIZE)
    (enough : compressBound src.length ≤ dst.length) :
    Budget src.length .notLimited 0 dst.length := by
  rw [compressBound, if_neg (Nat.not_lt.mpr fits)] at enough
  exact enough

section Incompressible

/-- No four bytes stand twice, as far apart as an offset reaches and so far from the end that a
match may start there. -/
def NoMatch (src : List UInt8) : Prop := ∀ ip m, ¬Candidate src ip m

/-- Without a match the search ends at the end of the source. -/
theorem returns_searchTurn_noMatch {acceleration : Nat} {forwardH : Fin (2 ^ t.hashLog)}
    {s : State t} (none : NoMatch src) (positive : 0 < acceleration)
    (small : t = .byU16 → src.length < LZ4_64Klimit)
    (budget : Budget src.length .notLimited 0 cap) (filled : Filled cap [] s.dst)
    (start : s.anchor = 0 ∧ s.ip = 1 ∧ s.op = 0) (room : 12 ≤ src.length)
    (before : ∀ k, s.table k < 1) :
    Returns (searchTurn src .notLimited 0 acceleration forwardH s)
      (Sum.elim (fun _ => False) fun (r, dst') =>
        Filled cap (lastBytes src) dst' ∧ r = (lastBytes src).length) := by
  obtain ⟨anchor_eq, ip_eq, op_eq⟩ := start
  refine Returns.bind (returns_findMatch positive small (by omega) (ip_eq ▸ before)) ?_
  intro found candidate
  cases found with
  | some found =>
      obtain ⟨p, m, table⟩ := found
      exact absurd (candidate p m table rfl).2.1 (none p m)
  | none =>
      refine Returns.bind (returns_lastLiterals budget filled op_eq (Nat.zero_le _)
        (show s.anchor ≤ src.length by omega)) ?_
      rintro ⟨r, dst'⟩ (⟨-, limit, -⟩ | ⟨filled', rfl⟩)
      · cases limit
      · rw [anchor_eq, List.drop_zero, List.nil_append] at filled'
        refine Returns.ok ⟨filled', ?_⟩
        rw [anchor_eq, List.drop_zero, List.nil_append]

theorem returns_compressFast_noMatch (dst : List UInt8) (acceleration : Int)
    (none : NoMatch src) (some_bytes : src.length ≠ 0)
    (fits : src.length ≤ LZ4_MAX_INPUT_SIZE) (enough : compressBound src.length ≤ dst.length) :
    Returns (compressFast src dst acceleration) fun (r, dst') =>
      Filled dst.length (lastBytes src) dst' ∧ r = (lastBytes src).length := by
  refine returns_compressFast_of_validated fits some_bytes enough fun t acceleration positive small =>
    ?_
  have budget := budget_of_bound fits enough
  refine Returns.ite (fun large => absurd (small large.1) (Nat.not_lt.mpr large.2)) fun _ => ?_
  refine Returns.ite ?_ ?_
  · intro _
    refine (returns_lastLiterals budget (Filled.nil dst) rfl (Nat.zero_le _) (Nat.zero_le _)).mono
      ?_
    rintro ⟨r, dst'⟩ (⟨-, limit, -⟩ | written)
    · cases limit
    · exact written
  intro (long : ¬src.length < 13)
  have cleared (k : Fin (2 ^ t.hashLog)) : (fun _ => 0 : HashTable t) k < 1 := Nat.one_pos
  refine Returns.bind (returns_putPosition (by omega) cleared Nat.one_pos) ?_
  intro table table_lt
  refine Returns.bind (returns_hashPosition (by omega)) ?_
  intro forwardH _
  refine Returns.loop (· = .search forwardH ⟨0, 1, 0, dst, table⟩) (fun _ => 0) ?_ rfl (by omega)
  rintro _ rfl
  refine (returns_searchTurn_noMatch none positive small budget (Filled.nil dst) ⟨rfl, rfl, rfl⟩
    (by omega) table_lt).mono ?_
  intro turned done
  cases turned with
  | inl phase => exact done.elim
  | inr r => exact done

/-- Such a source goes to the buffer as it is, behind a token and the rest of its length. -/
theorem compressFast_noMatch (dst : List UInt8) (acceleration : Int) (none : NoMatch src)
    (some_bytes : src.length ≠ 0) (fits : src.length ≤ LZ4_MAX_INPUT_SIZE)
    (enough : compressBound src.length ≤ dst.length) :
    ∃ dst', compressFast src dst acceleration =
        .ok (src.length + (src.length + 240) / 255 + 1, dst') ∧
      dst'.length = dst.length ∧
      dst'.take (src.length + (src.length + 240) / 255 + 1) =
        token src.length 0 :: extension src.length ++ src := by
  obtain ⟨⟨r, dst'⟩, run, filled, rfl⟩ :=
    returns_compressFast_noMatch dst acceleration none some_bytes fits enough
  have size : (lastBytes src).length = src.length + (src.length + 240) / 255 + 1 := by
    rw [length_lastBytes, length_extension]
    split <;> omega
  rw [size] at run
  exact ⟨dst', run, filled.length_eq, size ▸ filled.take_eq⟩

/-- Big-endian counters of 16 bits. -/
def counters (n : Nat) : List UInt8 :=
  (List.range (2 * n)).map fun k => UInt8.ofNat (if k % 2 = 0 then k / 512 else k / 2)

theorem length_counters (n : Nat) : (counters n).length = 2 * n := by
  rw [counters, List.length_map, List.length_range]

theorem counters_high {n a : Nat} (h : a < n) :
    (counters n)[2 * a]? = some (UInt8.ofNat (a / 256)) := by
  rw [counters, List.getElem?_map, List.getElem?_range (by omega), Option.map_some,
    if_pos (Nat.mul_mod_right 2 a)]
  congr 2
  omega

theorem counters_low {n a : Nat} (h : a < n) :
    (counters n)[2 * a + 1]? = some (UInt8.ofNat a) := by
  rw [counters, List.getElem?_map, List.getElem?_range (by omega), Option.map_some,
    if_neg (by omega)]
  congr 2
  omega

/-- A counter and a half is not half a counter and a whole one: where the low byte of `b` is the
high byte of `a`, the next low byte is another one, and the next high byte is not. -/
theorem counters_shifted {a b : Nat} (ha : a + 1 < 2 ^ 16) (hb : b + 2 < 2 ^ 16)
    (first : b % 256 = a / 256) (second : (b + 1) / 256 = a % 256)
    (third : (b + 1) % 256 = (a + 1) / 256) : (b + 2) / 256 ≠ (a + 1) % 256 := by
  have carry : a / 256 ≠ (a + 1) / 256 := by
    rw [← first, ← third]
    omega
  have low : a % 256 = 255 := by omega
  rw [low] at second
  omega

theorem byte_eq {a b : Nat} (h : some (UInt8.ofNat a) = some (UInt8.ofNat b)) :
    a % 256 = b % 256 := by
  rw [Option.some.injEq, ← UInt8.toNat_inj, UInt8.toNat_ofNat', UInt8.toNat_ofNat'] at h
  exact h

theorem counters_even_odd {n a b : Nat} (h : n ≤ 2 ^ 16) (ha : a + 1 < n) (hb : b + 2 < n) :
    ¬∀ k < 4, (counters n)[2 * a + k]? = (counters n)[2 * b + 1 + k]? := by
  intro same
  have first := same 0 (by decide)
  have second := same 1 (by decide)
  have third := same 2 (by decide)
  have fourth := same 3 (by decide)
  rw [Nat.add_zero, Nat.add_zero, counters_high (by omega), counters_low (by omega)] at first
  rw [show 2 * b + 1 + 1 = 2 * (b + 1) from rfl, counters_low (by omega),
    counters_high (by omega)] at second
  rw [show 2 * a + 2 = 2 * (a + 1) from rfl, show 2 * b + 1 + 2 = 2 * (b + 1) + 1 from rfl,
    counters_high ha, counters_low (by omega)] at third
  rw [show 2 * a + 3 = 2 * (a + 1) + 1 from rfl, show 2 * b + 1 + 3 = 2 * (b + 2) from rfl,
    counters_low ha, counters_high hb] at fourth
  have low_high := byte_eq first
  have high_low := byte_eq second
  have low_high' := byte_eq third
  have high_low' := byte_eq fourth
  have shifted := counters_shifted (a := a) (b := b) (by omega) (by omega)
  omega

/-- No counter stands twice. -/
theorem noMatch_counters {n : Nat} (h : n ≤ 2 ^ 16) : NoMatch (counters n) := by
  rintro ip m ⟨earlier, -, room, same⟩
  rw [length_counters, MFLIMIT] at room
  have first := same 0 (by decide)
  have second := same 1 (by decide)
  have third := same 2 (by decide)
  rw [Nat.add_zero, Nat.add_zero] at first
  obtain ⟨a, even | odd⟩ : ∃ a, ip = 2 * a ∨ ip = 2 * a + 1 := ⟨ip / 2, by omega⟩ <;>
    obtain ⟨b, even' | odd'⟩ : ∃ b, m = 2 * b ∨ m = 2 * b + 1 := ⟨m / 2, by omega⟩
  · rw [even, even', counters_high (by omega), counters_high (by omega)] at first
    rw [even, even', counters_low (by omega), counters_low (by omega)] at second
    have high := byte_eq first
    have low := byte_eq second
    omega
  · rw [even, odd'] at same
    exact counters_even_odd h (by omega) (by omega) fun k hk => (same k hk).symm
  · rw [odd, even'] at same
    exact counters_even_odd h (by omega) (by omega) same
  · rw [odd, odd', show 2 * b + 1 + 1 = 2 * (b + 1) from rfl,
      show 2 * a + 1 + 1 = 2 * (a + 1) from rfl, counters_high (by omega),
      counters_high (by omega)] at second
    rw [odd, odd', show 2 * b + 1 + 2 = 2 * (b + 1) + 1 from rfl,
      show 2 * a + 1 + 2 = 2 * (a + 1) + 1 from rfl, counters_low (by omega),
      counters_low (by omega)] at third
    have high := byte_eq second
    have low := byte_eq third
    omega

/-- A page of counters. -/
theorem compressFast_noMatch_counters :
    ∃ dst', compressFast (counters 2048) (malloc 4128) 1 = .ok (4114, dst') ∧
      dst'.length = 4128 ∧
      dst'.take 4114 = token 4096 0 :: extension 4096 ++ counters 2048 := by
  have size := length_counters 2048
  have stored := compressFast_noMatch (malloc 4128) 1 (noMatch_counters (n := 2048) (by decide))
    (by rw [size]; decide) (by rw [size]; decide) (by rw [size, length_malloc]; decide)
  rw [size, length_malloc] at stored
  exact stored

end Incompressible

section Run

variable {n : Nat} {b : UInt8}

theorem slice_replicate {i k : Nat} (h : i + k ≤ n) :
    slice (List.replicate n b) i k = List.replicate k b := by
  rw [slice, List.drop_replicate, List.take_replicate, Nat.min_eq_left (by omega)]

theorem returns_findMatch_replicate {acceleration : Nat} {forwardH : Fin (2 ^ t.hashLog)}
    {table : HashTable t} (long : 13 ≤ n) (cleared : ∀ k, table k = 0) :
    Returns (findMatch (List.replicate n b) acceleration 1 forwardH table) fun found =>
      ∃ table', found = some (1, 0, table') := by
  have length_eq : (List.replicate n b).length = n := List.length_replicate
  refine Returns.loop (· = (1, 1, acceleration <<< LZ4_skipTrigger, forwardH, table))
    (fun _ => 0) ?_ rfl (by omega)
  rintro _ rfl
  dsimp only
  refine Returns.ite ?_ ?_
  · intro (past : (List.replicate n b).length - 12 + 1 < 1 + 1)
    omega
  intro _
  refine Returns.bind (returns_hashPosition (by omega)) ?_
  intro forwardH' _
  rw [cleared forwardH]
  refine Returns.ite ?_ ?_
  · rintro ⟨-, far⟩
    exact absurd far (by decide)
  intro _
  refine Returns.bind (returns_eq (readWord_ok (k := 4) (by omega))) ?_
  rintro _ rfl
  refine Returns.bind (returns_eq (readWord_ok (k := 4) (by omega))) ?_
  rintro _ rfl
  rw [slice_replicate (by omega), slice_replicate (by omega), if_pos rfl]
  exact Returns.ok ⟨_, rfl⟩

theorem agreement_replicate (long : 13 ≤ n) :
    agreement (List.replicate n b) ((List.replicate n b).length - LASTLITERALS) (1 + MINMATCH)
      (0 + MINMATCH) = n - 10 := by
  rw [List.length_replicate]
  simp only [agreement, LASTLITERALS, MINMATCH]
  rw [slice_replicate (by omega), slice_replicate (by omega), Words.agree_self,
    List.length_replicate]
  omega

/-- The sequence and the last literals of `n` equal bytes. -/
def runSequence (n : Nat) (b : UInt8) : Sequence := ⟨[b], 1, n - 10⟩

def runBlock (n : Nat) (b : UInt8) : List UInt8 :=
  (runSequence n b).bytes ++ lastBytes (List.replicate 5 b)

/-- Behind the first search: one literal stands in the buffer, and the match of the second byte is
pending. -/
def PendingRun (cap : Nat) (b : UInt8) (s : State t) : Prop :=
  s.anchor = 0 ∧ s.ip = 1 ∧ s.op = 2 ∧ Filled cap ([] ++ [token 1 0] ++ [b]) s.dst

/-- The first search with an empty table, or the match it has found. -/
def BetweenRun (cap : Nat) (b : UInt8) : Phase t → Prop
  | .search _ s => s.anchor = 0 ∧ s.ip = 1 ∧ s.op = 0 ∧ Filled cap [] s.dst ∧ ∀ k, s.table k = 0
  | .nextMatch token m s => token = 0 ∧ m = 0 ∧ PendingRun cap b s

def turnsLeft : Phase t → Nat
  | .search _ _ => 1
  | .nextMatch _ _ _ => 0

variable {s : State t}

theorem returns_searchTurn_replicate {acceleration : Nat} {forwardH : Fin (2 ^ t.hashLog)}
    (long : 13 ≤ n) (budget : Budget (List.replicate n b).length .notLimited 0 cap)
    (filled : Filled cap [] s.dst) (start : s.anchor = 0 ∧ s.ip = 1 ∧ s.op = 0)
    (cleared : ∀ k, s.table k = 0) :
    Returns (searchTurn (List.replicate n b) .notLimited 0 acceleration forwardH s)
      (Sum.elim (fun phase => ∃ s', phase = .nextMatch 0 0 s' ∧ PendingRun cap b s')
        fun _ => False) := by
  have length_eq : (List.replicate n b).length = n := List.length_replicate
  obtain ⟨anchor_eq, ip_eq, op_eq⟩ := start
  unfold searchTurn
  rw [anchor_eq, ip_eq, op_eq]
  refine Returns.bind (returns_findMatch_replicate long cleared) ?_
  rintro _ ⟨table, rfl⟩
  refine Returns.bind (returns_catchUp (Nat.zero_le 1) (by omega) Nat.one_pos) ?_
  rintro ⟨ip, m⟩ ⟨j, ip_j, m_j, -⟩
  obtain ⟨rfl, rfl, rfl⟩ : j = 0 ∧ m = 0 ∧ ip = 1 := by omega
  refine Returns.bind (returns_encodeLiterals budget filled rfl (Nat.zero_le _) (Nat.zero_le 1)
    (by simp only [MFLIMIT]; omega)) ?_
  intro written literals
  cases written with
  | none => cases literals.1 rfl
  | some written =>
      obtain ⟨op', dst'⟩ := written
      obtain ⟨filled', rfl, -⟩ := literals.2 op' dst' rfl
      rw [show 1 - 0 = 1 from rfl, slice_replicate (by omega)] at filled'
      exact Returns.ok ⟨_, rfl, rfl, rfl, rfl, filled'⟩

theorem returns_matchTurn_replicate (long : 13 ≤ n)
    (budget : Budget (List.replicate n b).length .notLimited 0 cap) (pending : PendingRun cap b s) :
    Returns (matchTurn (List.replicate n b) .notLimited 0 0 0 s) (Sum.elim (fun _ => False)
      fun (r, dst') => Filled cap (runBlock n b) dst' ∧ r = (runBlock n b).length) := by
  obtain ⟨anchor_eq, ip_eq, op_eq, filled⟩ := pending
  have length_eq : (List.replicate n b).length = n := List.length_replicate
  have capacity := budget.notLimited rfl
  rw [length_eq] at capacity
  unfold matchTurn
  rw [ip_eq, op_eq]
  refine Returns.bind (returns_encodeMatch LimitedOutput.noConfusion filled rfl (by omega)
    Nat.one_pos (by simp only [MFLIMIT]; omega) ?_) ?_
  · intro _ k hk
    have extra := length_extension_le k
    simp only [MINMATCH, LASTLITERALS] at hk
    omega
  intro written spec
  cases written with
  | inl dst' => cases spec.1
  | inr written =>
      obtain ⟨ip', op', dst'⟩ := written
      obtain ⟨k, counted, rfl, filled', rfl, -⟩ := spec
      rw [agreement_replicate long] at counted
      subst counted
      have whole : 1 + (n - 10) + MINMATCH = n - 5 := by
        simp only [MINMATCH]
        omega
      have bytes_eq : [] ++ [token 1 (n - 10)] ++ ([b] ++ offsetBytes (UInt16.ofNat (1 - 0)) ++
          extension (n - 10)) = (runSequence n b).bytes := rfl
      have size := length_extension (n - 10)
      have length_bytes : (runSequence n b).bytes.length = 4 + (extension (n - 10)).length := by
        rw [Sequence.length_bytes]
        rfl
      rw [bytes_eq] at filled'
      rw [whole]
      refine Returns.ite ?_ ?_
      · intro _
        refine Returns.bind (returns_lastLiterals budget filled' (by rw [length_bytes])
          (by rw [length_bytes]; split at size <;> omega) (by omega)) ?_
        rintro ⟨r, dst''⟩ (⟨-, limit, -⟩ | ⟨filled'', rfl⟩)
        · cases limit
        · rw [List.drop_replicate, show n - (n - 5) = 5 by omega] at filled'' ⊢
          exact Returns.ok ⟨filled'', rfl⟩
      · intro (more : ¬(List.replicate n b).length - 12 + 1 ≤ n - 5)
        omega

/-- Equal bytes become one literal, one match at distance 1 and five last literals. -/
theorem returns_compressFast_replicate (dst : List UInt8) (acceleration : Int) (long : 13 ≤ n)
    (fits : n ≤ LZ4_MAX_INPUT_SIZE) (enough : compressBound n ≤ dst.length) :
    Returns (compressFast (List.replicate n b) dst acceleration) fun (r, dst') =>
      Filled dst.length (runBlock n b) dst' ∧ r = (runBlock n b).length := by
  have length_eq : (List.replicate n b).length = n := List.length_replicate
  rw [← length_eq] at fits enough
  refine returns_compressFast_of_validated fits (by omega) enough
    fun t acceleration positive small => ?_
  have budget := budget_of_bound fits enough
  refine Returns.ite (fun large => absurd (small large.1) (Nat.not_lt.mpr large.2)) fun _ => ?_
  refine Returns.ite ?_ ?_
  · intro (short : (List.replicate n b).length < 13)
    omega
  intro _
  refine Returns.bind (returns_putPosition (by omega) (fun _ => Nat.one_pos) Nat.one_pos) ?_
  intro table table_lt
  refine Returns.bind (returns_hashPosition (by omega)) ?_
  intro forwardH _
  refine Returns.loop (BetweenRun dst.length b) turnsLeft ?_
    ⟨rfl, rfl, rfl, Filled.nil dst, fun k => Nat.lt_one_iff.mp (table_lt k)⟩
    (by simp only [turnsLeft]; omega)
  intro phase before
  cases phase with
  | search h s =>
      obtain ⟨anchor_eq, ip_eq, op_eq, filled, cleared⟩ := before
      refine (returns_searchTurn_replicate long budget filled ⟨anchor_eq, ip_eq, op_eq⟩
        cleared).mono ?_
      rintro (_ | _) turned
      · obtain ⟨s', rfl, pending⟩ := turned
        exact ⟨⟨rfl, rfl, pending⟩, Nat.one_pos⟩
      · exact turned.elim
  | nextMatch token m s =>
      obtain ⟨rfl, rfl, pending⟩ := before
      refine (returns_matchTurn_replicate long budget pending).mono ?_
      rintro (_ | _) turned
      · exact turned.elim
      · exact turned

end Run

end MobilePIM.Lz4
