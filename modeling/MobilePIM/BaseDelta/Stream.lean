import MobilePIM.BaseDelta.Compress

/-!
The stream of codewords of `BaseDeltaComp`. The packer loses none of its bits on
their way through the 64-bit accumulator. The words can be read back from it as
long as an index into the top bases fits the truncated logarithm of `num_bases`;
past that the flag covers a bit of the index, and two bases share a codeword.
-/

namespace MobilePIM
open Bits

def codewordBits (lenBase numBases : UInt32) (topBases : List UInt32) (word : UInt32) :
    List Bool :=
  match topBases.idxOf? (baseData lenBase word) with
  | some baseIndex =>
      field (8 + logNbases numBases + 1).toNat
        (v1Byte (logNbases numBases) (UInt32.ofNat baseIndex) (valData word)).toNat
  | none => false :: field 32 word.toNat

theorem bits_codeword (lenBase numBases : UInt32) (topBases : List UInt32) (word : UInt32) :
    (codeword lenBase numBases topBases word).bits =
      codewordBits lenBase numBases topBases word := by
  cases hi : topBases.idxOf? (baseData lenBase word) with
  | none =>
      obtain ⟨hwidth, hvalue⟩ :=
        codeword_of_not_mem numBases (List.idxOf?_eq_none_iff.mp hi)
      rw [Codeword.bits, hwidth, hvalue, field, Nat.testBit_lt_two_pow word.toNat_lt,
        codewordBits, hi]
  | some i =>
      rw [Codeword.bits, codeword, codewordBits, hi]
      simp only [toNat_shift]
      rw [field_mod]

section Code

variable {numBases : UInt32} {topBases : List UInt32}

/-- The bits of a compressed word: the flag, as much of the index of its base as fits below
the flag, and its value. -/
theorem codewordBits_of_mem (narrow : 8 + 1 + Nat.log2 numBases.toNat < 16)
    (few : topBases.length ≤ numBases.toNat) {word : UInt32} {i : Nat}
    (hi : topBases.idxOf? (baseData 6 word) = some i) :
    codewordBits 6 numBases topBases word =
      true :: (field (Nat.log2 numBases.toNat) i ++ field 8 word.toNat) := by
  obtain ⟨inside, -, -, -⟩ := codeword_of_mem few hi
  have below : i < 2 ^ (Nat.log2 numBases.toNat + 1) := inside.trans Nat.lt_log2_self
  have byte : i < 2 ^ 8 := below.trans_le (Nat.pow_le_pow_right (by decide) (by omega))
  have width : (8 + logNbases numBases + 1).toNat = (Nat.log2 numBases.toNat + 1) + 8 := by
    rw [toNat_shift, compressedWidth]
    omega
  have index : field (Nat.log2 numBases.toNat) (2 ^ Nat.log2 numBases.toNat ||| i) =
      field (Nat.log2 numBases.toNat) i := by
    rw [field_eq_iff]
    intro j hj
    simp [Nat.testBit_or, Nat.testBit_two_pow_of_ne (Nat.ne_of_gt hj)]
  have flag : (2 ^ Nat.log2 numBases.toNat ||| i).testBit (Nat.log2 numBases.toNat) = true := by
    simp [Nat.testBit_or, Nat.testBit_two_pow_self]
  simp only [codewordBits, hi]
  rw [width, toNat_v1Byte (by omega) byte, field_shiftLeft_or (Nat.mod_lt _ (by decide)),
    field_mod, field, flag, index]
  rfl

theorem codewordBits_of_not_mem (numBases : UInt32) {word : UInt32}
    (h : baseData 6 word ∉ topBases) :
    codewordBits 6 numBases topBases word = false :: field 32 word.toNat := by
  rw [codewordBits, List.idxOf?_eq_none_iff.mpr h]

theorem word_eq_of_base_of_val {a b : UInt32} (base : baseData 6 a = baseData 6 b)
    (val : field 8 a.toNat = field 8 b.toNat) : a = b := by
  have upper := congrArg UInt32.toNat base
  rw [toNat_baseData_six, toNat_baseData_six] at upper
  have lower : a.toNat % 2 ^ 8 = b.toNat % 2 ^ 8 :=
    field_injective (Nat.mod_lt _ (by decide)) (Nat.mod_lt _ (by decide))
      (by rw [field_mod, field_mod, val])
  rw [← UInt32.toNat_inj]
  omega

/-- The code of the words, which the list of top bases determines, is prefix free when the
indices fit below the flag. -/
theorem codewordBits_prefixFree (narrow : 8 + 1 + Nat.log2 numBases.toNat < 16)
    (few : topBases.length ≤ numBases.toNat)
    (fits : topBases.length ≤ 2 ^ Nat.log2 numBases.toNat) :
    PrefixFree (codewordBits 6 numBases topBases) := by
  intro a b s t h
  cases ha : topBases.idxOf? (baseData 6 a) with
  | none =>
      rw [codewordBits_of_not_mem numBases (List.idxOf?_eq_none_iff.mp ha)] at h
      cases hb : topBases.idxOf? (baseData 6 b) with
      | none =>
          rw [codewordBits_of_not_mem numBases (List.idxOf?_eq_none_iff.mp hb)] at h
          have same := (List.append_inj (List.cons.inj h).2 (by simp)).1
          exact UInt32.toNat_inj.mp (field_injective a.toNat_lt b.toNat_lt same)
      | some j =>
          rw [codewordBits_of_mem narrow few hb] at h
          exact Bool.noConfusion (List.cons.inj h).1
  | some i =>
      rw [codewordBits_of_mem narrow few ha] at h
      cases hb : topBases.idxOf? (baseData 6 b) with
      | none =>
          rw [codewordBits_of_not_mem numBases (List.idxOf?_eq_none_iff.mp hb)] at h
          exact Bool.noConfusion (List.cons.inj h).1
      | some j =>
          rw [codewordBits_of_mem narrow few hb] at h
          have same := (List.append_inj (List.cons.inj h).2 (by simp)).1
          obtain ⟨index, val⟩ := List.append_inj same (by simp)
          obtain ⟨hi, base, -⟩ := List.idxOf?_eq_some_iff.mp ha
          obtain ⟨hj, base', -⟩ := List.idxOf?_eq_some_iff.mp hb
          obtain rfl := field_injective (hi.trans_le fits) (hj.trans_le fits) index
          exact word_eq_of_base_of_val (base.symm.trans base') val

end Code

section Packing

/-- What holds between two turns of the emission loop, after the words `met`: the buffer and
the pending bits are the stream so far, and the next codeword overlaps no pending bit and
pushes none out. -/
structure EmitState.Writes (numBases : UInt32) (topBases met : List UInt32) (st : EmitState) :
    Prop where
  bitCount_lt : st.bitCount.toNat < 8
  streamVal_lt : st.streamVal.toNat < 2 ^ st.bitCount.toNat
  byteCount_le : st.byteCount.toNat ≤ st.dataBuffer.length
  stream : ofBytes (st.dataBuffer.take st.byteCount.toNat) ++
    field st.bitCount.toNat st.streamVal.toNat = met.flatMap (codewordBits 6 numBases topBases)
  compressed_room : ∀ word i, topBases.idxOf? (baseData 6 word) = some i →
    (v1Byte (logNbases numBases) (UInt32.ofNat i) (valData word)).toNat <
        2 ^ (8 + logNbases numBases + 1).toNat ∧
      st.streamVal.toNat <<< (8 + logNbases numBases + 1).toNat < 2 ^ 64
  raw_room : ∀ word : UInt32, word.toNat < 2 ^ 33 ∧ st.streamVal.toNat <<< 33 < 2 ^ 64

theorem EmitState.Simulates.writes {st : EmitState} {size : Nat} {p : Packer} {numBases : UInt32}
    {topBases met : List UInt32} (h : st.Simulates size p)
    (few : topBases.length ≤ numBases.toNat)
    (bits : p.bits = met.flatMap (codewordBits 6 numBases topBases)) :
    st.Writes numBases topBases met where
  bitCount_lt := h.bitCount ▸ p.count_lt
  streamVal_lt := by rw [h.streamVal, h.bitCount]; exact p.acc_lt
  byteCount_le := by rw [h.byteCount, h.length]; exact h.fits
  stream := by rw [h.byteCount, h.bytes, h.bitCount, h.streamVal, ← bits, Packer.bits]
  compressed_room word i hi := by
    have narrow := codeword_narrow 6 numBases topBases word
    obtain ⟨inside, -, hwidth, -⟩ := codeword_of_mem few hi
    rw [hwidth] at narrow
    rw [toNat_shift, h.streamVal]
    exact ⟨v1Byte_lt inside word, acc_shiftLeft_lt p narrow⟩
  raw_room word :=
    ⟨word.toNat_lt.trans (by decide), h.streamVal ▸ acc_shiftLeft_lt p (by decide)⟩

theorem bits_emitAll_codewords (numBases : UInt32) (topBases words : List UInt32) :
    (Packer.empty.emitAll (words.map (codeword 6 numBases topBases))).bits =
      words.flatMap (codewordBits 6 numBases topBases) := by
  rw [Packer.bits_emitAll, Packer.bits_empty, List.nil_append, List.flatMap_map]
  exact congrArg words.flatMap (funext fun word => bits_codeword _ _ _ word)

variable (std : DescendingSort) (out : OutVectors) (data : List UInt32) (inpX numBases : UInt32)

theorem bits_packed : (packed std out data inpX numBases).bits =
    data.flatMap (codewordBits 6 numBases (estimate std out data inpX 6 numBases).topBases) :=
  bits_emitAll_codewords _ _ _

/-- After any number of turns the buffer and the accumulator hold the stream of the words
behind them. The base of a word is the word without its last two hex digits. -/
theorem emitLoop_writes (small : exactTotalBits numBases data < 2 ^ 32) (pre post : List UInt32)
    (split : data = pre ++ post) :
    ∃ st, EmitState.emitLoop 6 numBases (estimate std out data inpX 6 numBases).topBases pre
        (.init (roundToBytes (dataBits 6 numBases (estimate std out data inpX 6 numBases).totalVals
          (estimate std out data inpX 6 numBases).compressedCount) / 8)) = .ok st ∧
      st.Writes numBases (estimate std out data inpX 6 numBases).topBases pre ∧
      ∀ word, (baseData 6 word).toNat = word.toNat / 16 ^ 2 := by
  subst split
  have few := length_estimate_topBases_le std out (pre ++ post) inpX 6 numBases
  have total := length_packed std out (pre ++ post) inpX numBases
  rw [exactTotalBits] at small
  have size := toNat_roundToBytes (n := exactDataBits numBases (pre ++ post)) (by omega)
  -- the turns up to here have written no more than the whole loop will
  have behind : (packed std out (pre ++ post) inpX numBases).bytes.length ≤
      (roundToBytes (UInt32.ofNat (exactDataBits numBases (pre ++ post))) / 8).toNat := by omega
  rw [packed, List.map_append, Packer.emitAll, List.foldl_append] at behind
  obtain ⟨st, run, sim, -⟩ := (EmitState.init_simulates
    (roundToBytes (UInt32.ofNat (exactDataBits numBases (pre ++ post))) / 8)).emitLoop_ok
      (by omega) few pre ((length_emit_le _ _).trans behind)
  refine ⟨st, ?_, sim.writes few (bits_emitAll_codewords numBases _ pre), toNat_baseData_six⟩
  rw [estimate_dataBits]
  exact run

theorem emitLoop_writes_tied :
    ∃ st, EmitState.emitLoop 6 1 (estimate .merge ⟨[], [], []⟩ tiedWords 2 6 1).topBases
        [0x105, 0x2AB, 0x107]
        (.init (roundToBytes (dataBits 6 1
          (estimate .merge ⟨[], [], []⟩ tiedWords 2 6 1).totalVals
          (estimate .merge ⟨[], [], []⟩ tiedWords 2 6 1).compressedCount) / 8)) = .ok st ∧
      st.Writes 1 (estimate .merge ⟨[], [], []⟩ tiedWords 2 6 1).topBases
        [0x105, 0x2AB, 0x107] ∧
      ∀ word, (baseData 6 word).toNat = word.toNat / 16 ^ 2 :=
  emitLoop_writes .merge ⟨[], [], []⟩ tiedWords 2 1 (by rw [exactTotalBits_tied]; decide)
    [0x105, 0x2AB, 0x107] [0x2CD, 0x300] rfl

end Packing

section Collision

variable {numBases : UInt32} {topBases : List UInt32}

theorem exists_word (a b : UInt32) : ∃ w : UInt32, baseData 6 w = baseData 6 a ∧
    field 8 w.toNat = field 8 b.toNat := by
  have below := a.toNat_lt
  have hw : (UInt32.ofNat (a.toNat / 2 ^ 8 * 2 ^ 8 + b.toNat % 2 ^ 8)).toNat =
      a.toNat / 2 ^ 8 * 2 ^ 8 + b.toNat % 2 ^ 8 := by
    rw [UInt32.toNat_ofNat', Nat.mod_eq_of_lt (by omega)]
  refine ⟨UInt32.ofNat (a.toNat / 2 ^ 8 * 2 ^ 8 + b.toNat % 2 ^ 8), ?_, ?_⟩
  · rw [← UInt32.toNat_inj, toNat_baseData_six, toNat_baseData_six, hw]
    omega
  · rw [hw, ← field_mod, ← field_mod 8 b.toNat]
    congr 1
    omega

theorem idxOf?_getElem {words : List UInt32} (nodup : words.Nodup) {i : Nat}
    (h : i < words.length) : words.idxOf? words[i] = some i := by
  refine List.idxOf?_eq_some_iff.mpr ⟨h, rfl, fun j hj heq => ?_⟩
  exact Nat.ne_of_lt hj ((nodup.getElem_inj_iff).mp heq)

theorem exists_split_of_mem {words : List UInt32} {a b : UInt32} (ha : a ∈ words) (hb : b ∈ words)
    (hne : a ≠ b) : ∃ x y, (x = a ∧ y = b ∨ x = b ∧ y = a) ∧
      ∃ pre mid post, words = pre ++ x :: (mid ++ y :: post) := by
  obtain ⟨s, t, rfl⟩ := List.append_of_mem ha
  rcases List.mem_append.mp hb with before | after
  · obtain ⟨pre, mid, rfl⟩ := List.append_of_mem before
    exact ⟨b, a, .inr ⟨rfl, rfl⟩, pre, mid, t, by simp⟩
  · obtain ⟨mid, post, rfl⟩ := List.append_of_mem ((List.mem_cons.mp after).resolve_left hne.symm)
    exact ⟨a, b, .inl ⟨rfl, rfl⟩, s, mid, post, rfl⟩

/-- Two words whose indices agree below the flag can exchange their bases, and the codewords
stay as they are. -/
theorem exists_exchange (narrow : 8 + 1 + Nat.log2 numBases.toNat < 16)
    (few : topBases.length ≤ numBases.toNat) {x y : UInt32} {i j : Nat}
    (hi : topBases.idxOf? (baseData 6 x) = some i) (hj : topBases.idxOf? (baseData 6 y) = some j)
    (same : field (Nat.log2 numBases.toNat) i = field (Nat.log2 numBases.toNat) j)
    (hne : baseData 6 x ≠ baseData 6 y) (pre mid post : List UInt32) :
    ∃ data', data' ≠ pre ++ x :: (mid ++ y :: post) ∧
      (bases 6 data').Perm (bases 6 (pre ++ x :: (mid ++ y :: post))) ∧
      data'.flatMap (codewordBits 6 numBases topBases) =
        (pre ++ x :: (mid ++ y :: post)).flatMap (codewordBits 6 numBases topBases) := by
  obtain ⟨x', base, val⟩ := exists_word y x
  obtain ⟨y', base', val'⟩ := exists_word x y
  have code : codewordBits 6 numBases topBases x' = codewordBits 6 numBases topBases x := by
    rw [codewordBits_of_mem narrow few (base ▸ hj), codewordBits_of_mem narrow few hi, val, same]
  have code' : codewordBits 6 numBases topBases y' = codewordBits 6 numBases topBases y := by
    rw [codewordBits_of_mem narrow few (base' ▸ hi), codewordBits_of_mem narrow few hj, val', same]
  refine ⟨pre ++ x' :: (mid ++ y' :: post), fun h => ?_, ?_, ?_⟩
  · obtain ⟨rfl, -⟩ := List.cons.inj (List.append_cancel_left h)
    exact hne base
  · simp only [bases, List.map_append, List.map_cons, base, base']
    apply List.Perm.append_left
    exact (List.perm_middle.cons _).trans ((List.Perm.swap _ _ _).trans
      (List.perm_middle.symm.cons _))
  · simp only [List.flatMap_append, List.flatMap_cons, code, code']

end Collision

section Reading

variable (std : DescendingSort) (out : OutVectors) (data : List UInt32) (inpX numBases : UInt32)

/-- With an index that does not fit below the flag, the stream belongs to other words too. -/
theorem exists_same_stream (narrow : 8 + 1 + Nat.log2 numBases.toNat < 16)
    (many : 2 ^ Nat.log2 numBases.toNat <
      (estimate std out data inpX 6 numBases).topBases.length) :
    ∃ data', data' ≠ data ∧ (bases 6 data').Perm (bases 6 data) ∧
      data'.flatMap (codewordBits 6 numBases (estimate std out data inpX 6 numBases).topBases) =
        data.flatMap
          (codewordBits 6 numBases (estimate std out data inpX 6 numBases).topBases) := by
  have nodup := estimate_topBases_nodup std out data inpX 6 numBases
  have few := length_estimate_topBases_le std out data inpX 6 numBases
  have source := fun b => mem_bases_of_mem_topBases std out data inpX 6 numBases (b := b)
  generalize (estimate std out data inpX 6 numBases).topBases = top at *
  have first : 0 < top.length := Nat.zero_lt_of_lt many
  have differ : top[0] ≠ top[2 ^ Nat.log2 numBases.toNat] := by
    intro heq
    exact (Nat.two_pow_pos _).ne ((nodup.getElem_inj_iff).mp heq)
  obtain ⟨a, ha, base⟩ := List.mem_map.mp (source _ (List.getElem_mem first))
  obtain ⟨b, hb, base'⟩ := List.mem_map.mp (source _ (List.getElem_mem many))
  have hi := idxOf?_getElem nodup first
  have hj := idxOf?_getElem nodup many
  have same := (field_two_pow (Nat.log2 numBases.toNat)).symm
  rw [← base] at hi differ
  rw [← base'] at hj differ
  obtain ⟨x, y, ⟨rfl, rfl⟩ | ⟨rfl, rfl⟩, pre, mid, post, rfl⟩ :=
    exists_split_of_mem ha hb fun h => differ (congrArg (baseData 6) h)
  · exact exists_exchange narrow few hi hj same differ pre mid post
  · exact exists_exchange narrow few hj hi same.symm differ.symm pre mid post

/-- The stream, the number of words and the top bases determine the words exactly when every
index in use fits below the flag: for a power of two of bases, and for so few distinct ones. -/
theorem stream_determines_data_iff (positive : 1 ≤ numBases.toNat)
    (narrow : 8 + 1 + Nat.log2 numBases.toNat < 16) :
    (∀ data', data'.length = data.length →
      (estimate std out data' inpX 6 numBases).topBases =
        (estimate std out data inpX 6 numBases).topBases →
      data'.flatMap (codewordBits 6 numBases (estimate std out data' inpX 6 numBases).topBases) =
        data.flatMap (codewordBits 6 numBases (estimate std out data inpX 6 numBases).topBases) →
      data' = data) ↔
    numBases.toNat = 2 ^ Nat.log2 numBases.toNat ∨
      distinctBases 6 data ≤ 2 ^ Nat.log2 numBases.toNat := by
  have few := length_estimate_topBases_le std out data inpX 6 numBases
  have hlen := length_estimate_topBases std out data inpX 6 numBases
  have floor := Nat.log2_self_le (Nat.ne_of_gt positive)
  constructor
  · intro determined
    by_contra overlap
    obtain ⟨data', hne, perm, stream⟩ :=
      exists_same_stream std out data inpX numBases narrow (by rw [hlen]; omega)
    have htop := estimate_topBases_perm std out data inpX 6 numBases perm
    have same_length : data'.length = data.length := by
      rw [← length_bases 6 data', perm.length_eq, length_bases]
    exact hne (determined data' same_length htop (by rw [htop, stream]))
  · intro fits data' same_length htop stream
    have free := codewordBits_prefixFree narrow few (by rw [hlen]; omega)
    rw [htop] at stream
    refine (free.flatMap_cancel same_length (s := []) (t := []) ?_).1
    rw [stream]

theorem stream_does_not_determine_data :
    ¬∀ data', data'.length = [0, 0x100, 0x200].length →
      (estimate .merge ⟨[], [], []⟩ data' 2 6 3).topBases =
        (estimate .merge ⟨[], [], []⟩ [0, 0x100, 0x200] 2 6 3).topBases →
      data'.flatMap (codewordBits 6 3 (estimate .merge ⟨[], [], []⟩ data' 2 6 3).topBases) =
        [0, 0x100, 0x200].flatMap
          (codewordBits 6 3 (estimate .merge ⟨[], [], []⟩ [0, 0x100, 0x200] 2 6 3).topBases) →
      data' = [0, 0x100, 0x200] := by
  have hlen := length_estimate_topBases .merge ⟨[], [], []⟩ [0, 0x100, 0x200] 2 6 3
  have distinct : distinctBases 6 [0, 0x100, 0x200] = 3 := by decide
  obtain ⟨data', hne, perm, stream⟩ := exists_same_stream .merge ⟨[], [], []⟩ [0, 0x100, 0x200] 2
    3 (by decide) (by rw [hlen, distinct]; decide)
  have htop := estimate_topBases_perm .merge ⟨[], [], []⟩ [0, 0x100, 0x200] 2 6 3 perm
  intro determined
  exact hne (determined data' (by simpa [bases] using perm.length_eq) htop (by rw [htop, stream]))

/-- Of three bases that are asked for, two are there. -/
theorem stream_determines_data_iff_two :
    (∀ data', data'.length = [0, 0x100].length →
      (estimate .merge ⟨[], [], []⟩ data' 2 6 3).topBases =
        (estimate .merge ⟨[], [], []⟩ [0, 0x100] 2 6 3).topBases →
      data'.flatMap (codewordBits 6 3 (estimate .merge ⟨[], [], []⟩ data' 2 6 3).topBases) =
        [0, 0x100].flatMap
          (codewordBits 6 3 (estimate .merge ⟨[], [], []⟩ [0, 0x100] 2 6 3).topBases) →
      data' = [0, 0x100]) ↔
    (3 : UInt32).toNat = 2 ^ Nat.log2 (3 : UInt32).toNat ∨
      distinctBases 6 [0, 0x100] ≤ 2 ^ Nat.log2 (3 : UInt32).toNat :=
  stream_determines_data_iff .merge ⟨[], [], []⟩ [0, 0x100] 2 3 (by decide) (by decide)

end Reading
end MobilePIM
