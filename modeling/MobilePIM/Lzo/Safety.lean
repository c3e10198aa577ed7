import MobilePIM.Lzo.DecompressSafe

/-!
The checks are enough: whatever the input is, `lzo1x_decompress_safe` stays inside
its buffers and comes to an end, and it writes nothing behind what it reports.
-/

namespace MobilePIM.Lzo

open Memory Total

variable {src dst₀ : List UInt8}

/-- The output as far as it has been written; the rest is what it was. -/
structure Held (dst₀ : List UInt8) (op : Nat) (dst : List UInt8) : Prop where
  inside : op ≤ dst₀.length
  length_eq : dst.length = dst₀.length
  behind : dst.drop op = dst₀.drop op

section Copies

variable {source dst : List UInt8} {op m k t : Nat}

theorem drop_overwrite {bytes : List UInt8} (room : op + bytes.length ≤ dst.length) :
    (overwrite dst op bytes).drop (op + bytes.length) = dst.drop (op + bytes.length) := by
  have front : (dst.take op ++ bytes).length = op + bytes.length := by
    rw [List.length_append, List.length_take_of_le (by omega)]
  rw [overwrite, ← front, List.drop_left]

theorem Held.copyFrom (held : Held dst₀ op dst) (there : m + k ≤ source.length)
    (room : op + k ≤ dst₀.length) :
    Returns (copyFrom source dst op m k) (Held dst₀ (op + k)) := by
  refine Returns.bind (returns_eq (load_ok there)) ?_
  rintro _ rfl
  have size : (slice source m k).length = k := length_slice there
  have room' : op + (slice source m k).length ≤ dst.length := by
    rw [size, held.length_eq]
    exact room
  refine Returns.of_eq (if_pos room') ⟨room, (length_overwrite room').trans held.length_eq, ?_⟩
  have behind := drop_overwrite room'
  rw [size] at behind
  rw [behind, ← List.drop_drop, held.behind, List.drop_drop]

/-- A copy, one of whose blocks keeps what is behind it. -/
theorem Held.copyBytes {copy : List UInt8 → Nat → Nat → Nat → Access (List UInt8)}
    (held : Held dst₀ op dst)
    (step : ∀ n dst, n + 1 ≤ t → Held dst₀ (op + n) dst →
      Returns (copy dst (op + n) (m + n) 1) (Held dst₀ (op + n + 1))) :
    Returns (copyBytes copy dst op m t) (Held dst₀ (op + t)) :=
  (ends_copyBytes (n := 0) (fun n => Held dst₀ (op + n))
    (fun n dst le so_far => (step n dst le so_far).ends) held (Nat.zero_add t)).returns

theorem Held.copyWords {copy : List UInt8 → Nat → Nat → Nat → Access (List UInt8)}
    (held : Held dst₀ op dst)
    (step : ∀ k n dst, n + k ≤ t → Held dst₀ (op + n) dst →
      Returns (copy dst (op + n) (m + n) k) (Held dst₀ (op + n + k))) :
    Returns (copyWords copy dst op m t) (Held dst₀ (op + t)) :=
  (ends_copyWords (fun n => Held dst₀ (op + n))
    (fun k n dst _ le so_far => Nat.add_assoc op n k ▸ (step k n dst le so_far).ends) held).returns

theorem Held.step_within (before : m < op) (room : op + t ≤ dst₀.length) (k n : Nat)
    (dst : List UInt8) (le : n + k ≤ t) (held : Held dst₀ (op + n) dst) :
    Returns (copyWithin dst (op + n) (m + n) k) (Held dst₀ (op + n + k)) :=
  held.copyFrom (by rw [held.length_eq]; omega) (by omega)

theorem Held.copyLong (held : Held dst₀ op dst) (before : m < op)
    (room : op + t ≤ dst₀.length) : Returns (copyLong dst op m t) (Held dst₀ (op + t)) :=
  Returns.ite (fun _ => held.copyWords (Held.step_within before room))
    fun _ => held.copyBytes (Held.step_within before room 1)

end Copies

/-- Enough is left in front of the next instruction. -/
def Ready (src dst₀ : List UInt8) (ip : Nat) : Place × Cursor → Prop
  | (place, c) => Held dst₀ c.op c.dst ∧ (place ≠ .matched → c.ip + 3 ≤ src.length) ∧
      ip ≤ c.ip ∧ c.ip ≤ src.length

/-- What is reported has been written, and nothing behind it. -/
def Sound (dst₀ : List UInt8) : Status × Nat × List UInt8 → Prop
  | (_, n, dst) => Held dst₀ n dst

theorem returns_ready_later {m : Access ((Place × Cursor) ⊕ (Status × Nat × List UInt8))}
    {ip ip' : Nat} (le : ip ≤ ip')
    (h : Returns m (Sum.elim (Ready src dst₀ ip') (Sound dst₀))) :
    Returns m (Sum.elim (Ready src dst₀ ip) (Sound dst₀)) := by
  refine h.mono ?_
  intro next spec
  cases next with
  | inl next =>
      obtain ⟨held, ready, further, inside⟩ := spec
      exact ⟨held, ready, le.trans further, inside⟩
  | inr r => exact spec

section Checks

variable {c : Cursor} {n offset : Nat} {α : Type} {post : α → Prop}
  {rest : Access (α ⊕ (Status × Nat × List UInt8))}

theorem returns_needIP (held : Held dst₀ c.op c.dst)
    (then_holds : n ≤ src.length - c.ip → Returns rest (Sum.elim post (Sound dst₀))) :
    Returns (needIP src n c rest) (Sum.elim post (Sound dst₀)) := by
  refine Returns.ite ?_ ?_
  · intro _
    exact Returns.ok held
  · intro enough
    exact then_holds (Nat.not_lt.mp enough)

theorem returns_needOP (held : Held dst₀ c.op c.dst)
    (then_holds : c.op + n ≤ dst₀.length → Returns rest (Sum.elim post (Sound dst₀))) :
    Returns (needOP n c rest) (Sum.elim post (Sound dst₀)) := by
  refine Returns.ite ?_ ?_
  · intro _
    exact Returns.ok held
  · intro enough
    have := held.inside
    have := held.length_eq
    exact then_holds (by omega)

theorem returns_testLB (held : Held dst₀ c.op c.dst)
    (then_holds : offset ≤ c.op → 0 < offset → Returns rest (Sum.elim post (Sound dst₀))) :
    Returns (testLB offset c rest) (Sum.elim post (Sound dst₀)) := by
  refine Returns.ite ?_ ?_
  · intro _
    exact Returns.ok held
  · intro (reaches : ¬(c.op < offset ∨ offset = 0))
    exact then_holds (by omega) (by omega)

end Checks

section Match

variable {c : Cursor} {offset length t : Nat}

/-- Where one byte is left, a length is read without leaving the input. -/
theorem returns_safeContinueLength (held : Held dst₀ c.op c.dst) (tooLong : Status) (base t : Nat)
    (more : c.ip < src.length) :
    Returns (safeContinueLength src tooLong base t c)
      (Sum.elim (fun (_, ip) => c.ip ≤ ip ∧ ip ≤ src.length ∧ (t ≠ 0 → ip = c.ip))
        (Sound dst₀)) := by
  refine Returns.ite ?_ ?_
  · intro continued
    refine Returns.loop (fun (_, ip) => c.ip ≤ ip ∧ ip < src.length)
      (fun (_, ip) => src.length - ip) ?_ ⟨Nat.le_refl _, more⟩ (by simp only; omega)
    rintro ⟨sum, ip⟩ ⟨after, inside⟩
    refine Returns.bind (returns_eq (byte_ok inside)) ?_
    rintro b rfl
    refine Returns.ite ?_ ?_
    · intro _
      refine Returns.ite (fun _ => Returns.ok held) fun _ => ?_
      refine Returns.ite (fun _ => Returns.ok held) fun enough => ?_
      exact Returns.ok ⟨⟨by omega, by omega⟩, by simp only; omega⟩
    · intro _
      exact Returns.ok ⟨by omega, inside, fun given => absurd continued given⟩
  · intro _
    exact Returns.ok ⟨Nat.le_refl _, more.le, fun _ => rfl⟩

theorem returns_safeMatchLength (held : Held dst₀ c.op c.dst) (base t : Nat)
    (more : c.ip + 2 ≤ src.length) :
    Returns (safeMatchLength src base t c)
      (Sum.elim (fun (_, ip) => c.ip ≤ ip ∧ ip + 2 ≤ src.length) (Sound dst₀)) := by
  refine Returns.andThen (returns_safeContinueLength held .outputOverrun base t (by omega)) ?_
  rintro ⟨t', ip⟩ ⟨after, inside, given⟩
  refine Returns.ite ?_ ?_
  · intro _
    refine returns_needIP held ?_
    intro enough
    exact Returns.ok ⟨after, by simp only at enough; omega⟩
  · intro there
    have same := given there
    exact Returns.ok ⟨after, by omega⟩

theorem returns_readLE16 {ip : Nat} (h : ip + 2 ≤ src.length) :
    Returns (readLE16 src ip) fun _ => True :=
  Returns.bind (returns_eq (readWord_ok h)) fun _ _ => Returns.ok trivial

theorem returns_safeMatchNext (held : Held dst₀ c.op c.dst) (t : Nat) :
    Returns (safeMatchNext src t c) (Sum.elim (Ready src dst₀ c.ip) (Sound dst₀)) := by
  refine returns_needOP held fun room => returns_needIP held fun enough => ?_
  have there : c.ip + t + 3 ≤ src.length := by omega
  have copied : Returns (copyBytes (copyFrom src) c.dst c.op c.ip t) (Held dst₀ (c.op + t)) :=
    held.copyBytes fun n dst le so_far => so_far.copyFrom (by omega) (by omega)
  obtain ⟨dst, run, held'⟩ := copied
  refine ⟨.inl (.literals, ⟨c.ip + t, c.op + t, dst⟩), ?_, ?_⟩
  · rw [matchNext, run]
    rfl
  · exact ⟨held', fun _ => there, Nat.le_add_right _ _, (Nat.le_add_right _ _).trans there⟩

theorem returns_safeMatchDone (held : Held dst₀ c.op c.dst) (inside : c.ip ≤ src.length)
    (positive : 0 < c.ip) :
    Returns (safeMatchDone src c) (Sum.elim (Ready src dst₀ c.ip) (Sound dst₀)) := by
  refine Returns.bind (returns_eq (byte_ok (show c.ip - 2 < src.length by omega))) ?_
  rintro b rfl
  refine Returns.ite ?_ ?_
  · intro _
    exact Returns.ok ⟨held, fun behind => absurd rfl behind, Nat.le_refl _, inside⟩
  · intro _
    exact returns_safeMatchNext held _

theorem returns_safeMatch (copyAll : Nat → Access (List UInt8)) (offset length : Nat)
    (held : Held dst₀ c.op c.dst)
    (copies : ∀ m < c.op, c.op + length ≤ dst₀.length →
      Returns (copyAll m) (Held dst₀ (c.op + length)))
    (inside : c.ip ≤ src.length) (positive : 0 < c.ip) :
    Returns (safeMatch src copyAll offset length c)
      (Sum.elim (Ready src dst₀ c.ip) (Sound dst₀)) := by
  refine returns_testLB held fun reaches some_offset => returns_needOP held fun room => ?_
  refine Returns.bind (copies (c.op - offset) (by omega) room) ?_
  intro dst held'
  exact returns_safeMatchDone (c := ⟨c.ip, c.op + length, dst⟩) held' inside positive

theorem returns_safeNearMatch (offset : Nat → Nat) (length : Nat) (held : Held dst₀ c.op c.dst)
    (inside : c.ip < src.length) :
    Returns (safeNearMatch src offset length c)
      (Sum.elim (Ready src dst₀ c.ip) (Sound dst₀)) := by
  refine Returns.bind (returns_eq (byte_ok inside)) ?_
  rintro b rfl
  refine returns_ready_later (Nat.le_succ c.ip) ?_
  exact returns_safeMatch (c := { c with ip := c.ip + 1 }) _ _ _ held
    (fun m before room => held.copyBytes (Held.step_within before room 1)) inside (Nat.succ_pos _)

theorem returns_safeCopyLongMatch (offset length : Nat) {ip : Nat} (held : Held dst₀ c.op c.dst)
    (after : c.ip ≤ ip) (inside : ip + 2 ≤ src.length) :
    Returns (safeCopyLongMatch src offset length { c with ip := ip + 2 })
      (Sum.elim (Ready src dst₀ c.ip) (Sound dst₀)) := by
  refine returns_ready_later (after.trans (Nat.le_add_right ip 2)) ?_
  exact returns_safeMatch (c := { c with ip := ip + 2 }) _ _ _ held
    (fun m before room => held.copyLong before room) inside (Nat.succ_pos _)

/-- In front of a match two bytes are left, and they are all its shortest form takes. -/
theorem returns_safeMatchTurn (held : Held dst₀ c.op c.dst) (t : Nat)
    (inside : c.ip + 2 ≤ src.length) :
    Returns (safeMatchTurn src t c) (Sum.elim (Ready src dst₀ c.ip) (Sound dst₀)) := by
  refine Returns.ite ?_ fun _ => Returns.ite ?_ fun _ => Returns.ite ?_ ?_
  · intro _
    exact returns_safeNearMatch _ _ held (by omega)
  · intro _
    refine Returns.andThen (returns_safeMatchLength held 31 (t &&& 31) inside) ?_
    rintro ⟨n, ip⟩ ⟨after, more⟩
    refine Returns.bind (returns_readLE16 more) ?_
    intro off _
    exact returns_safeCopyLongMatch _ _ held after more
  · intro _
    refine Returns.andThen (returns_safeMatchLength held 7 (t &&& 7) inside) ?_
    rintro ⟨n, ip⟩ ⟨after, more⟩
    refine Returns.bind (returns_readLE16 more) ?_
    intro off _
    refine Returns.ite ?_ ?_
    · intro _
      exact Returns.ok held
    · intro _
      exact returns_safeCopyLongMatch _ _ held after more
  · intro _
    exact returns_safeNearMatch _ _ held (by omega)

end Match

theorem returns_safeLiteralRun {c : Cursor} (held : Held dst₀ c.op c.dst) (t : Nat)
    (inside : c.ip < src.length) :
    Returns (safeLiteralRun src t c) (Sum.elim (Ready src dst₀ c.ip) (Sound dst₀)) := by
  refine Returns.andThen (returns_safeContinueLength held .inputOverrun 15 t inside) ?_
  rintro ⟨n, ip⟩ ⟨after, inside', -⟩
  refine returns_needOP held fun room => returns_needIP held fun enough => ?_
  simp only at enough
  refine Returns.bind (held.copyWords fun k m dst le so_far =>
    so_far.copyFrom (by omega) (by omega)) ?_
  intro dst held'
  exact Returns.ok ⟨held', fun _ => by simp only; omega, by simp only; omega, by simp only; omega⟩

/-- One instruction keeps within the buffers, and it takes at least one byte. -/
theorem returns_safeTurn {place : Place} {c : Cursor} (held : Held dst₀ c.op c.dst)
    (ready : place ≠ .matched → c.ip + 3 ≤ src.length) :
    Returns (safeTurn src (place, c))
      (Sum.elim (Ready src dst₀ (c.ip + 1)) (Sound dst₀)) := by
  have matched (tok : UInt8) (three : c.ip + 3 ≤ src.length) :
      Returns (safeMatchTurn src tok.toNat { c with ip := c.ip + 1 })
        (Sum.elim (Ready src dst₀ (c.ip + 1)) (Sound dst₀)) :=
    returns_safeMatchTurn (c := { c with ip := c.ip + 1 }) held _ (by simp only; omega)
  cases place with
  | matched =>
      refine returns_needIP held fun enough => ?_
      have three : c.ip + 3 ≤ src.length := by omega
      refine Returns.bind (returns_eq (byte_ok (show c.ip < src.length by omega))) ?_
      rintro tok rfl
      refine Returns.ite (fun _ => matched _ three) fun _ => ?_
      exact returns_safeLiteralRun (c := { c with ip := c.ip + 1 }) held _ (by simp only; omega)
  | run =>
      have three := ready (by decide)
      refine Returns.bind (returns_eq (byte_ok (show c.ip < src.length by omega))) ?_
      rintro tok rfl
      refine Returns.ite (fun _ => matched _ three) fun _ => ?_
      exact returns_safeNearMatch (c := { c with ip := c.ip + 1 }) _ _ held (by simp only; omega)
  | literals =>
      have three := ready (by decide)
      refine Returns.bind (returns_eq (byte_ok (show c.ip < src.length by omega))) ?_
      rintro tok rfl
      exact matched _ three

theorem returns_safeFirstLiterals (src dst : List UInt8) :
    Returns (safeFirstLiterals src dst) (Sum.elim (Ready src dst 0) (Sound dst)) := by
  have held : Held dst 0 dst := ⟨Nat.zero_le _, rfl, rfl⟩
  refine returns_needIP held fun enough => ?_
  refine Returns.bind (returns_eq (byte_ok (show 0 < src.length by omega))) ?_
  rintro tok rfl
  refine Returns.ite ?_ ?_
  · intro _
    refine Returns.ite ?_ ?_
    · intro _
      exact returns_ready_later (Nat.zero_le 1) (returns_safeMatchNext (c := ⟨1, 0, dst⟩) held _)
    · intro _
      refine returns_needOP held fun room => returns_needIP held fun there => ?_
      simp only [Nat.zero_add] at room there
      have copied : Returns (copyBytes (copyFrom src) dst 0 1 (src[0].toNat - 17))
          (Held dst (0 + (src[0].toNat - 17))) :=
        held.copyBytes fun n dst le so_far => so_far.copyFrom (by omega) (by omega)
      refine Returns.bind copied ?_
      intro dst' held'
      rw [Nat.zero_add] at held'
      exact Returns.ok ⟨held', fun _ => by simp only; omega, Nat.zero_le _, by simp only; omega⟩
  · intro _
    exact Returns.ok ⟨held, fun behind => absurd rfl behind, Nat.le_refl _, Nat.zero_le _⟩

theorem returns_lzo1xDecompressSafe (src dst : List UInt8) :
    Returns (lzo1xDecompressSafe src dst) (Sound dst) := by
  refine Returns.bind (returns_safeFirstLiterals src dst) ?_
  intro first spec
  cases first with
  | inr r => exact Returns.ok spec
  | inl s =>
      refine Returns.loop (Ready src dst 0) (fun (_, c) => src.length - c.ip) ?_ spec
        (by simp only; omega)
      rintro ⟨place, c⟩ ⟨held, ready, -, -⟩
      refine (returns_safeTurn held ready).mono ?_
      intro next turned
      cases next with
      | inr r => exact turned
      | inl next =>
          obtain ⟨held', ready', further, inside⟩ := turned
          exact ⟨⟨held', ready', Nat.zero_le _, inside⟩, by simp only; omega⟩

/-- On any input and any buffer the decoder with checks comes to a result without an access
outside, and what is behind the length it reports is as it was. -/
theorem lzo1xDecompressSafe_returns (src dst : List UInt8) :
    ∃ status n dst', lzo1xDecompressSafe src dst = .ok (status, n, dst') ∧ n ≤ dst.length ∧
      dst'.length = dst.length ∧ dst'.drop n = dst.drop n := by
  obtain ⟨⟨status, n, dst'⟩, run, held⟩ := returns_lzo1xDecompressSafe src dst
  exact ⟨status, n, dst', run, held.inside, held.length_eq, held.behind⟩

end MobilePIM.Lzo
