import Mathlib.Data.List.Forall2
import MobilePIM.BaseDelta.Histogram

/-!
What the first loop of `BaseDeltaComp` leaves behind: the base table and the
map from bases to numbers are inverse to each other, whatever the number of
bases, and the two output arrays give back the words whose digits after the base
fit into the eight bits of `val_data`.
-/

namespace MobilePIM

namespace BaseTables

/-- `base_array` lists the bases met so far in order of first occurrence, `base_to_id` is its
inverse, and `baseid_array` has the number of every base met. -/
structure Indexes (t : BaseTables) (met : List UInt32) : Prop where
  nodup : t.baseArray.Nodup
  mem_baseArray : ∀ b, b ∈ t.baseArray ↔ b ∈ met
  order : t.baseArray.Pairwise fun b c => met.idxOf b < met.idxOf c
  inverse : ∀ b (id : UInt32), t.baseToId[b]? = some id ↔ t.baseArray[id.toNat]? = some b
  uniqueBase : t.uniqueBase = UInt32.ofNat t.baseArray.length
  ids : List.Forall₂ (fun (id : UInt32) b => t.baseArray[id.toNat]? = some b) t.baseidArray met

theorem init_indexes (out : OutVectors) : (init out).Indexes [] :=
  ⟨.nil, fun _ => Iff.rfl, .nil, by simp [init, OutVectors.clear], rfl, .nil⟩

theorem Indexes.length_le {t : BaseTables} {met : List UInt32} (h : t.Indexes met) :
    t.baseArray.length ≤ 2 ^ 32 :=
  length_le_of_nodup h.nodup fun b _ => b.toNat_lt

theorem Indexes.toNat_uniqueBase {t : BaseTables} {met : List UInt32} (h : t.Indexes met)
    {base : UInt32} (fresh : base ∉ met) : t.uniqueBase.toNat = t.baseArray.length := by
  have absent : base ∉ t.baseArray := fun known => fresh ((h.mem_baseArray base).mp known)
  have room := length_le_of_nodup (List.nodup_cons.mpr ⟨absent, h.nodup⟩) fun b _ => b.toNat_lt
  rw [List.length_cons] at room
  rw [h.uniqueBase, UInt32.toNat_ofNat', Nat.mod_eq_of_lt (by omega)]

theorem Indexes.baseToId_eq_none {t : BaseTables} {met : List UInt32} (h : t.Indexes met)
    (base : UInt32) : t.baseToId[base]? = none ↔ base ∉ met := by
  rw [← h.mem_baseArray, ← not_iff_not, not_not, ← ne_eq, Option.ne_none_iff_exists']
  constructor
  · intro ⟨id, hid⟩
    exact List.mem_of_getElem? ((h.inverse base id).mp hid)
  · intro known
    obtain ⟨i, hi⟩ := List.mem_iff_getElem?.mp known
    have inside := (List.getElem?_eq_some_iff.mp hi).1
    have small := h.length_le
    refine ⟨UInt32.ofNat i, (h.inverse base _).mpr ?_⟩
    rw [UInt32.toNat_ofNat', Nat.mod_eq_of_lt (by omega)]
    exact hi

/-- A known base changes the order of first occurrences no more than a new one at the end. -/
theorem Indexes.order_append {t : BaseTables} {met : List UInt32} (h : t.Indexes met)
    (base : UInt32) :
    t.baseArray.Pairwise fun b c => (met ++ [base]).idxOf b < (met ++ [base]).idxOf c := by
  refine h.order.imp_of_mem ?_
  intro b c hb hc hbc
  rwa [List.idxOf_append_of_mem ((h.mem_baseArray b).mp hb),
    List.idxOf_append_of_mem ((h.mem_baseArray c).mp hc)]

theorem Indexes.countBase {t : BaseTables} {met : List UInt32} (h : t.Indexes met)
    {base id : UInt32} (hid : t.baseToId[base]? = some id) :
    (t.countBase base id).Indexes (met ++ [base]) where
  nodup := h.nodup
  mem_baseArray b := by
    have known := (h.mem_baseArray base).mp (List.mem_of_getElem? ((h.inverse base id).mp hid))
    rw [List.mem_append, List.mem_singleton, ← h.mem_baseArray b]
    constructor
    · exact fun hb => .inl hb
    · intro hb
      cases hb with
      | inl earlier => exact earlier
      | inr same => exact (h.mem_baseArray b).mpr (same ▸ known)
  order := h.order_append base
  inverse := h.inverse
  uniqueBase := h.uniqueBase
  ids := List.rel_append h.ids (.cons ((h.inverse base id).mp hid) .nil)

theorem getElem?_concat_eq_some_iff {words : List UInt32} {new : UInt32} (absent : new ∉ words)
    (i : Nat) (word : UInt32) : (words ++ [new])[i]? = some word ↔
      if new = word then i = words.length else words[i]? = some word := by
  rw [List.getElem?_append]
  by_cases same : new = word
  · subst same
    rw [if_pos rfl]
    split
    · rename_i inside
      exact iff_of_false (fun hi => absent (List.mem_of_getElem? hi)) (Nat.ne_of_lt inside)
    · rename_i past
      rw [List.getElem?_singleton]
      split
      · exact iff_of_true rfl (by omega)
      · rename_i further
        exact iff_of_false (fun hi => by cases hi) (by omega)
  · rw [if_neg same]
    split
    · rfl
    · rename_i past
      rw [List.getElem?_singleton, List.getElem?_eq_none (Nat.not_lt.mp past)]
      split <;> simp [same]

theorem Indexes.newBase {t : BaseTables} {met : List UInt32} (h : t.Indexes met)
    {base : UInt32} (fresh : base ∉ met) :
    (t.newBase base t.uniqueBase (t.uniqueBase + 1)).Indexes (met ++ [base]) := by
  have absent : base ∉ t.baseArray := fun known => fresh ((h.mem_baseArray base).mp known)
  have number := h.toNat_uniqueBase fresh
  have grown : ∀ (id b : UInt32), t.baseArray[id.toNat]? = some b →
      (t.baseArray ++ [base])[id.toNat]? = some b := by
    intro id b hid
    rwa [List.getElem?_append_left (List.getElem?_eq_some_iff.mp hid).1]
  have last : (t.baseArray ++ [base])[t.uniqueBase.toNat]? = some base := by
    rw [number, List.getElem?_concat_length]
  refine ⟨?_, ?_, ?_, ?_, ?_, ?_⟩
  · exact List.nodup_append.mpr ⟨h.nodup, List.nodup_singleton base, fun b hb c hc => by
      rw [List.mem_singleton.mp hc]
      exact fun same => absent (same ▸ hb)⟩
  · intro b
    simp only [BaseTables.newBase, List.mem_append, List.mem_singleton, h.mem_baseArray b]
  · refine List.pairwise_append.mpr ⟨h.order_append base, List.pairwise_singleton _ base, ?_⟩
    intro b hb c hc
    have met_b := (h.mem_baseArray b).mp hb
    rw [List.mem_singleton.mp hc, List.idxOf_append_of_mem met_b,
      List.idxOf_append_of_notMem fresh]
    exact (List.idxOf_lt_length_of_mem met_b).trans_le (Nat.le_add_right _ _)
  · intro b id
    simp only [BaseTables.newBase, Std.TreeMap.getElem?_insert, Std.LawfulEqCmp.compare_eq_iff_eq]
    rw [getElem?_concat_eq_some_iff absent]
    by_cases hb : base = b
    · rw [if_pos hb, if_pos hb, Option.some.injEq, ← UInt32.toNat_inj, number]
      exact eq_comm
    · rw [if_neg hb, if_neg hb, h.inverse b id]
  · simp only [BaseTables.newBase, List.length_append, List.length_singleton, UInt32.ofNat_add,
      ← h.uniqueBase]
    rfl
  · exact List.rel_append (h.ids.imp grown) (.cons last .nil)

/-- The first turn is no special case: the first base gets number 0 either way. -/
theorem Indexes.internWord {t : BaseTables} {met : List UInt32} (h : t.Indexes met)
    (lenBase word : UInt32) :
    (internWord lenBase t word).Indexes (met ++ [baseData lenBase word]) := by
  have h' : { t with valArray := t.valArray ++ [valData word] }.Indexes met :=
    ⟨h.nodup, h.mem_baseArray, h.order, h.inverse, h.uniqueBase, h.ids⟩
  simp only [BaseTables.internWord]
  split
  · rename_i first
    have none_yet : t.baseArray = [] := List.isEmpty_iff.mp first
    have fresh : baseData lenBase word ∉ met := by
      rw [← h.mem_baseArray, none_yet]
      exact List.not_mem_nil
    have zero : t.uniqueBase = 0 := by
      rw [h.uniqueBase, none_yet]
      rfl
    have step := h'.newBase fresh
    rwa [zero] at step
  · split
    · rename_i id hid
      exact h'.countBase hid
    · rename_i hid
      exact h'.newBase ((h.baseToId_eq_none _).mp hid)

theorem internLoop_indexes (out : OutVectors) (lenBase : UInt32) (data : List UInt32) :
    (internLoop out lenBase data).Indexes (bases lenBase data) := by
  induction data using List.reverseRecOn with
  | nil => exact init_indexes out
  | append_singleton data word ih =>
      rw [internLoop, List.foldl_append, bases, List.map_append]
      exact ih.internWord lenBase word

theorem internLoop_valArray (out : OutVectors) (lenBase : UInt32) (data : List UInt32) :
    (internLoop out lenBase data).valArray = data.map valData := by
  have step : ∀ (t : BaseTables) (word : UInt32),
      (internWord lenBase t word).valArray = t.valArray ++ [valData word] := by
    intro t word
    simp only [internWord]
    split
    · rfl
    · split <;> rfl
  induction data using List.reverseRecOn with
  | nil => rfl
  | append_singleton data word ih =>
      rw [internLoop, List.foldl_append, List.map_append, ← ih]
      exact step _ word

structure Interned (t : BaseTables) (met : List UInt32) : Prop where
  nodup : t.baseArray.Nodup
  mem_baseArray : ∀ b, b ∈ t.baseArray ↔ b ∈ met
  order : t.baseArray.Pairwise fun b c => met.idxOf b < met.idxOf c
  inverse : ∀ b (id : UInt32), t.baseToId[b]? = some id ↔ t.baseArray[id.toNat]? = some b
  uniqueBase : t.uniqueBase.toNat = t.baseArray.length
  ids : List.Forall₂ (fun (id : UInt32) b => t.baseArray[id.toNat]? = some b) t.baseidArray met
  counts : ∀ b, t.baseCountMap[b]? = if b ∈ t.baseArray then some (met.count b) else none
  total : (t.baseCountMap.toList.map Prod.snd).sum = met.length

/-- After the first loop, whatever the vectors held before. The base of a word is the first
`len_base` of its eight hex digits. -/
theorem internLoop_interned (out : OutVectors) (lenBase : UInt32) (data : List UInt32)
    (hlen : data.length < 2 ^ 32) :
    (internLoop out lenBase data).Interned (bases lenBase data) ∧
      (1 ≤ lenBase.toNat → lenBase.toNat ≤ 8 → (bases lenBase data).map UInt32.toNat =
        data.map fun word => word.toNat / 16 ^ (8 - lenBase.toNat)) := by
  have index := internLoop_indexes out lenBase data
  have counted := internLoop_interns out lenBase data
  have few : (internLoop out lenBase data).baseArray.length ≤ data.length := by
    have sub := index.nodup.subperm fun b hb => (index.mem_baseArray b).mp hb
    exact sub.length_le.trans_eq (List.length_map _)
  refine ⟨⟨index.nodup, index.mem_baseArray, index.order, index.inverse, ?_, index.ids, ?_,
    counted.sum_counts⟩, fun one_le le_eight => ?_⟩
  · rw [index.uniqueBase, UInt32.toNat_ofNat', Nat.mod_eq_of_lt (by omega)]
  · intro b
    rw [counted.counts b]
    simp only [index.mem_baseArray b]
  · rw [bases, List.map_map]
    exact List.map_congr_left fun word _ => toNat_baseData one_le le_eight word

/-- Three words with two bases. -/
theorem internLoop_interned_three :
    (internLoop ⟨[9], [9], []⟩ 6 [0x1FF, 0x200, 0x100]).Interned
        (bases 6 [0x1FF, 0x200, 0x100]) ∧
      (1 ≤ (6 : UInt32).toNat → (6 : UInt32).toNat ≤ 8 →
        (bases 6 [0x1FF, 0x200, 0x100]).map UInt32.toNat =
          [0x1FF, 0x200, 0x100].map fun word : UInt32 =>
            word.toNat / 16 ^ (8 - (6 : UInt32).toNat)) :=
  internLoop_interned ⟨[9], [9], []⟩ 6 [0x1FF, 0x200, 0x100] (by decide)

end BaseTables

section Split

/-- `base_array[baseid_array[i]] << 4*(8 - len_base) | val_array[i]` is word `i`, for every `i`. -/
structure Reconstructs (lenBase : UInt32) (data : List UInt32) (v : OutVectors) : Prop where
  vals : v.valArray.length = data.length
  ids : v.baseidArray.length = data.length
  below : ∀ id : UInt32, id ∈ v.baseidArray → id.toNat < v.baseArray.length
  words : ∀ (i : Nat) word, data[i]? = some word →
    ∃ id : UInt32, ∃ base val, v.baseidArray[i]? = some id ∧ v.baseArray[id.toNat]? = some base ∧
      v.valArray[i]? = some val ∧ word = (base <<< (4 * (8 - lenBase))) ||| val

/-- A word is its base and its value exactly when no digit between them is lost. -/
theorem split_eq_iff {lenBase : UInt32} (one_le : 1 ≤ lenBase.toNat) (le_eight : lenBase.toNat ≤ 8)
    (word : UInt32) :
    word = (baseData lenBase word <<< (4 * (8 - lenBase))) ||| valData word ↔
      word.toNat % 2 ^ (4 * (8 - lenBase.toNat)) < 2 ^ 8 := by
  have shift := toNat_digitShift one_le le_eight
  have mask : (255 : UInt32).toNat = 2 ^ 8 - 1 := rfl
  have high : (baseData lenBase word <<< (4 * (8 - lenBase))).toNat =
      word.toNat >>> (4 * (8 - lenBase.toNat)) <<< (4 * (8 - lenBase.toNat)) := by
    rw [UInt32.mul_comm 4, UInt32.toNat_shiftLeft, baseData, UInt32.toNat_shiftRight, shift]
    apply Nat.mod_eq_of_lt
    rw [Nat.shiftRight_eq_div_pow, Nat.shiftLeft_eq]
    exact (Nat.div_mul_le_self _ _).trans_lt word.toNat_lt
  rw [← UInt32.toNat_inj, UInt32.toNat_or, high, valData, UInt32.toNat_and, mask,
    Nat.and_two_pow_sub_one_eq_mod]
  constructor
  · intro same
    apply Nat.lt_pow_two_of_testBit
    intro i hi
    have bit := congrArg (·.testBit i) same
    simp only [Nat.testBit_or, Nat.testBit_shiftLeft, Nat.testBit_shiftRight,
      Nat.testBit_mod_two_pow] at bit ⊢
    by_cases low : i < 4 * (8 - lenBase.toNat)
    · simpa [low, Nat.not_le.mpr low, Nat.not_lt.mpr hi] using bit
    · simp [low]
  · intro small
    apply Nat.eq_of_testBit_eq
    intro i
    simp only [Nat.testBit_or, Nat.testBit_shiftLeft, Nat.testBit_shiftRight,
      Nat.testBit_mod_two_pow]
    by_cases low : i < 4 * (8 - lenBase.toNat)
    · by_cases byte : i < 8
      · simp [byte, Nat.not_le.mpr low]
      · have lost := Nat.testBit_lt_two_pow (small.trans_le
          (Nat.pow_le_pow_right (show 0 < 2 by decide) (Nat.not_lt.mp byte)))
        simpa [low, byte, Nat.not_le.mpr low] using lost
    · have past := Nat.not_lt.mp low
      by_cases bit : word.toNat.testBit i <;> simp [bit, past, Nat.add_sub_cancel' past]

variable (out : OutVectors) (lenBase : UInt32) (data : List UInt32)

theorem internLoop_entry {i : Nat} {word : UInt32} (hi : data[i]? = some word) :
    ∃ id : UInt32, (BaseTables.internLoop out lenBase data).baseidArray[i]? = some id ∧
      (BaseTables.internLoop out lenBase data).baseArray[id.toNat]? =
        some (baseData lenBase word) ∧
      (BaseTables.internLoop out lenBase data).valArray[i]? = some (valData word) := by
  have index := BaseTables.internLoop_indexes out lenBase data
  have ids := index.ids.length_eq.trans (length_bases lenBase data)
  obtain ⟨inside, rfl⟩ := List.getElem?_eq_some_iff.mp hi
  have hid := index.ids.get (ids ▸ inside) (length_bases lenBase data ▸ inside)
  simp only [List.get_eq_getElem, bases, List.getElem_map] at hid
  refine ⟨_, List.getElem?_eq_getElem (ids ▸ inside), hid, ?_⟩
  rw [BaseTables.internLoop_valArray, List.getElem?_map, hi]
  rfl

variable {lenBase} {data}

theorem Reconstructs.digits_lt (one_le : 1 ≤ lenBase.toNat) (le_eight : lenBase.toNat ≤ 8)
    (h : Reconstructs lenBase data (BaseTables.internLoop out lenBase data).toOutVectors)
    {word : UInt32} (hword : word ∈ data) :
    word.toNat % 2 ^ (4 * (8 - lenBase.toNat)) < 2 ^ 8 := by
  obtain ⟨i, hi⟩ := List.mem_iff_getElem?.mp hword
  obtain ⟨id, base, val, hid, hbase, hval, same⟩ := h.words i word hi
  obtain ⟨id', hid', hbase', hval'⟩ := internLoop_entry out lenBase data hi
  rw [hid] at hid'
  cases hid'
  rw [hbase] at hbase'
  cases hbase'
  rw [hval] at hval'
  cases hval'
  exact (split_eq_iff one_le le_eight word).mp same

theorem internLoop_reconstructs (one_le : 1 ≤ lenBase.toNat) (le_eight : lenBase.toNat ≤ 8)
    (small : ∀ word ∈ data, word.toNat % 2 ^ (4 * (8 - lenBase.toNat)) < 2 ^ 8) :
    Reconstructs lenBase data (BaseTables.internLoop out lenBase data).toOutVectors := by
  have index := BaseTables.internLoop_indexes out lenBase data
  have ids := index.ids.length_eq.trans (length_bases lenBase data)
  refine ⟨?_, ids, ?_, ?_⟩
  · rw [BaseTables.internLoop_valArray, List.length_map]
  · intro id hid
    obtain ⟨i, hi⟩ := List.mem_iff_getElem?.mp hid
    obtain ⟨inside, -⟩ := List.getElem?_eq_some_iff.mp hi
    obtain ⟨id', hid', hbase, -⟩ :=
      internLoop_entry out lenBase data (List.getElem?_eq_getElem (ids ▸ inside))
    rw [hi] at hid'
    cases hid'
    exact (List.getElem?_eq_some_iff.mp hbase).1
  · intro i word hi
    obtain ⟨id, hid, hbase, hval⟩ := internLoop_entry out lenBase data hi
    exact ⟨id, _, _, hid, hbase, hval,
      (split_eq_iff one_le le_eight word).mpr (small word (List.mem_of_getElem? hi))⟩

/-- The output arrays give back the words exactly when what follows the base of each fits the
eight bits of its value: always from six digits of base on. -/
theorem internLoop_reconstructs_iff (one_le : 1 ≤ lenBase.toNat) (le_eight : lenBase.toNat ≤ 8) :
    Reconstructs lenBase data (BaseTables.internLoop out lenBase data).toOutVectors ↔
      ∀ word ∈ data, word.toNat % 2 ^ (4 * (8 - lenBase.toNat)) < 2 ^ 8 :=
  ⟨fun h _ hword => h.digits_lt out one_le le_eight hword,
    internLoop_reconstructs out one_le le_eight⟩

theorem internLoop_loses_digit :
    ¬Reconstructs 5 [0x100] (BaseTables.internLoop ⟨[], [], []⟩ 5 [0x100]).toOutVectors := by
  intro h
  have lost := h.digits_lt ⟨[], [], []⟩ (by decide) (by decide) (List.mem_singleton_self 0x100)
  exact absurd lost (by decide)

theorem internLoop_reconstructs_iff_six :
    Reconstructs 6 [0x1FF, 0x100]
        (BaseTables.internLoop ⟨[], [], []⟩ 6 [0x1FF, 0x100]).toOutVectors ↔
      ∀ word ∈ ([0x1FF, 0x100] : List UInt32),
        word.toNat % 2 ^ (4 * (8 - (6 : UInt32).toNat)) < 2 ^ 8 :=
  internLoop_reconstructs_iff ⟨[], [], []⟩ (by decide) (by decide)

end Split
end MobilePIM
