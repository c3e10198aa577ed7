import Std.Data.TreeMap
import Mathlib.Data.List.Induction
import MobilePIM.Foundation.Coverage

/-!
The first loop of `BaseDeltaComp`: every word is split into a base and a value,
bases are numbered in order of first occurrence, and their occurrences counted.
-/

namespace MobilePIM
open Coverage

/-- The vectors `BaseDeltaComp` receives by reference. -/
structure OutVectors where
  baseArray : List UInt32
  valArray : List UInt32
  baseidArray : List UInt32

def OutVectors.clear (_ : OutVectors) : OutVectors := ⟨[], [], []⟩

structure BaseTables extends OutVectors where
  baseToId : Std.TreeMap UInt32 UInt32
  baseCountMap : Std.TreeMap UInt32 Nat
  uniqueBase : UInt32

/-- `data[i] >> (8 - len_base) * 4`. -/
def baseData (lenBase word : UInt32) : UInt32 := word >>> ((8 - lenBase) * 4)

def valData (word : UInt32) : UInt32 := word &&& 0xFF

def bases (lenBase : UInt32) (data : List UInt32) : List UInt32 := data.map (baseData lenBase)

theorem length_bases (lenBase : UInt32) (data : List UInt32) :
    (bases lenBase data).length = data.length := List.length_map _

theorem toNat_digitShift {lenBase : UInt32} (one_le : 1 ≤ lenBase.toNat)
    (le_eight : lenBase.toNat ≤ 8) :
    ((8 - lenBase) * 4).toNat % 32 = 4 * (8 - lenBase.toNat) := by
  have eight : (8 : UInt32).toNat = 8 := rfl
  have four : (4 : UInt32).toNat = 4 := rfl
  rw [UInt32.toNat_mul, UInt32.toNat_sub_of_le _ _ (by rw [UInt32.le_iff_toNat_le]; exact le_eight),
    eight, four]
  omega

theorem toNat_baseData {lenBase : UInt32} (one_le : 1 ≤ lenBase.toNat)
    (le_eight : lenBase.toNat ≤ 8) (word : UInt32) :
    (baseData lenBase word).toNat = word.toNat / 16 ^ (8 - lenBase.toNat) := by
  rw [baseData, UInt32.toNat_shiftRight, toNat_digitShift one_le le_eight,
    Nat.shiftRight_eq_div_pow, show 16 = 2 ^ 4 from rfl, ← Nat.pow_mul]

theorem toNat_baseData_six (word : UInt32) : (baseData 6 word).toNat = word.toNat / 2 ^ 8 :=
  toNat_baseData (by decide) (by decide) word

theorem toNat_baseData_lt (word : UInt32) : (baseData 6 word).toNat < 2 ^ 24 := by
  have := word.toNat_lt
  rw [toNat_baseData_six]
  omega

/-- Distinct 32-bit words below `n` are at most `n`. -/
theorem length_le_of_nodup {words : List UInt32} (nodup : words.Nodup) {n : Nat}
    (below : ∀ word ∈ words, word.toNat < n) : words.length ≤ n := by
  have distinct := nodup.map fun _ _ => UInt32.toNat_inj.mp
  have inside : words.map UInt32.toNat ⊆ List.range n := by
    intro m hm
    obtain ⟨word, hword, rfl⟩ := List.mem_map.mp hm
    exact List.mem_range.mpr (below word hword)
  have few := (distinct.subperm inside).length_le
  rwa [List.length_map, List.length_range] at few

namespace BaseTables

def init (out : OutVectors) : BaseTables where
  toOutVectors := out.clear
  baseToId := ∅
  baseCountMap := ∅
  uniqueBase := 0

/-- A base that has no number yet gets the next one. -/
def newBase (t : BaseTables) (base id uniqueBase : UInt32) : BaseTables where
  baseArray := t.baseArray ++ [base]
  valArray := t.valArray
  baseidArray := t.baseidArray ++ [id]
  baseToId := t.baseToId.insert base id
  baseCountMap := t.baseCountMap.insert base 1
  uniqueBase := uniqueBase

/-- A base that has a number is counted. -/
def countBase (t : BaseTables) (base id : UInt32) : BaseTables where
  baseArray := t.baseArray
  valArray := t.valArray
  baseidArray := t.baseidArray ++ [id]
  baseToId := t.baseToId
  baseCountMap := t.baseCountMap.insert base (t.baseCountMap.getD base 0 + 1)
  uniqueBase := t.uniqueBase

def internWord (lenBase : UInt32) (t : BaseTables) (word : UInt32) : BaseTables :=
  let base := baseData lenBase word
  let t := { t with valArray := t.valArray ++ [valData word] }
  if t.baseArray.isEmpty then t.newBase base 0 1
  else match t.baseToId[base]? with
    | some id => t.countBase base id
    | none => t.newBase base t.uniqueBase (t.uniqueBase + 1)

def internLoop (out : OutVectors) (lenBase : UInt32) (data : List UInt32) : BaseTables :=
  data.foldl (internWord lenBase) (init out)

/-- The tables know exactly the bases met so far, and how often each was met. -/
structure Interns (t : BaseTables) (met : List UInt32) : Prop where
  baseArray_nil : t.baseArray = [] ↔ met = []
  baseToId : ∀ b, t.baseToId[b]? = none ↔ b ∉ met
  counts : ∀ b, t.baseCountMap[b]? = if b ∈ met then some (met.count b) else none

theorem init_interns (out : OutVectors) : (init out).Interns [] :=
  ⟨by simp [init, OutVectors.clear], by simp [init], by simp [init]⟩

/-- What a first occurrence does to the tables, whatever number the base gets. -/
theorem Interns.newBase {t : BaseTables} {met : List UInt32} (h : t.Interns met)
    {base : UInt32} (fresh : base ∉ met) (id uniqueBase : UInt32) :
    (t.newBase base id uniqueBase).Interns (met ++ [base]) := by
  refine ⟨by simp [BaseTables.newBase], fun b => ?_, fun b => ?_⟩
  · simp only [BaseTables.newBase, Std.TreeMap.getElem?_insert, Std.LawfulEqCmp.compare_eq_iff_eq,
      List.mem_append, List.mem_singleton]
    by_cases hb : base = b
    · simp [hb]
    · simp [hb, h.baseToId b, Ne.symm hb]
  · simp only [BaseTables.newBase, Std.TreeMap.getElem?_insert, Std.LawfulEqCmp.compare_eq_iff_eq,
      List.mem_append, List.mem_singleton, List.count_append]
    by_cases hb : base = b
    · subst hb
      simp [List.count_eq_zero_of_not_mem fresh]
    · simp [hb, h.counts b, Ne.symm hb]

theorem Interns.countBase {t : BaseTables} {met : List UInt32} (h : t.Interns met)
    {base : UInt32} (known : base ∈ met) (id : UInt32) :
    (t.countBase base id).Interns (met ++ [base]) := by
  refine ⟨?_, fun b => ?_, fun b => ?_⟩
  · simp only [BaseTables.countBase, h.baseArray_nil, List.append_eq_nil_iff, List.cons_ne_nil,
      and_false, iff_false]
    exact List.ne_nil_of_mem known
  · simp only [BaseTables.countBase, h.baseToId b, List.mem_append, List.mem_singleton]
    by_cases hb : b = base
    · simp [hb, known]
    · simp [hb]
  · simp only [BaseTables.countBase, Std.TreeMap.getElem?_insert,
      Std.LawfulEqCmp.compare_eq_iff_eq, Std.TreeMap.getD_eq_getD_getElem?, List.mem_append,
      List.mem_singleton, List.count_append]
    by_cases hb : base = b
    · subst hb
      simp [h.counts, known]
    · simp [hb, h.counts b, Ne.symm hb]

theorem internWord_interns {t : BaseTables} {met : List UInt32} (h : t.Interns met)
    (lenBase word : UInt32) :
    (internWord lenBase t word).Interns (met ++ [baseData lenBase word]) := by
  have h' : { t with valArray := t.valArray ++ [valData word] }.Interns met :=
    ⟨h.baseArray_nil, h.baseToId, h.counts⟩
  simp only [internWord]
  split
  · rename_i first
    have none_met : met = [] := h.baseArray_nil.mp (List.isEmpty_iff.mp first)
    exact h'.newBase (by simp [none_met]) 0 1
  · split
    · rename_i id hid
      have known : baseData lenBase word ∈ met := by
        by_contra fresh
        simp [(h.baseToId _).mpr fresh] at hid
      exact h'.countBase known id
    · rename_i hid
      exact h'.newBase ((h.baseToId _).mp hid) _ _

theorem internLoop_interns (out : OutVectors) (lenBase : UInt32) (data : List UInt32) :
    (internLoop out lenBase data).Interns (bases lenBase data) := by
  unfold internLoop bases
  induction data using List.reverseRecOn with
  | nil => exact init_interns out
  | append_singleton data word ih =>
      rw [List.foldl_append, List.map_append]
      exact internWord_interns ih lenBase word

/-- Tables that differ at most in the values of the words. -/
structure SameBases (t t' : BaseTables) : Prop where
  baseArray : t.baseArray = t'.baseArray
  baseToId : t.baseToId = t'.baseToId
  baseCountMap : t.baseCountMap = t'.baseCountMap
  uniqueBase : t.uniqueBase = t'.uniqueBase

theorem SameBases.internWord {t t' : BaseTables} (h : t.SameBases t') {lenBase word word' : UInt32}
    (base : baseData lenBase word = baseData lenBase word') :
    (internWord lenBase t word).SameBases (internWord lenBase t' word') := by
  simp only [BaseTables.internWord, base, h.baseArray, h.baseToId]
  split
  · exact ⟨rfl, rfl, by simp [BaseTables.newBase, h.baseCountMap], rfl⟩
  · split
    · exact ⟨rfl, rfl, by simp [BaseTables.countBase, h.baseCountMap], h.uniqueBase⟩
    · exact ⟨rfl, by simp [BaseTables.newBase, h.uniqueBase],
        by simp [BaseTables.newBase, h.baseCountMap], by simp [BaseTables.newBase, h.uniqueBase]⟩

/-- The counts depend on the bases only. -/
theorem internLoop_sameBases (out : OutVectors) {lenBase : UInt32} {data data' : List UInt32}
    (h : bases lenBase data = bases lenBase data') :
    (internLoop out lenBase data).SameBases (internLoop out lenBase data') := by
  have fold : ∀ (data data' : List UInt32) (t t' : BaseTables), t.SameBases t' →
      bases lenBase data = bases lenBase data' →
      (data.foldl (BaseTables.internWord lenBase) t).SameBases
        (data'.foldl (BaseTables.internWord lenBase) t') := by
    intro data
    induction data with
    | nil =>
        intro data' t t' same hbases
        obtain rfl : data' = [] := List.map_eq_nil_iff.mp hbases.symm
        exact same
    | cons word data ih =>
        intro data' t t' same hbases
        cases data' with
        | nil => cases hbases
        | cons word' data' =>
            obtain ⟨head, tail⟩ := List.cons.inj hbases
            exact ih data' _ _ (same.internWord head) tail
  exact fold data data' _ _ ⟨rfl, rfl, rfl, rfl⟩ h

theorem nodup_keys_toList (counts : Std.TreeMap UInt32 Nat) :
    (counts.toList.map Prod.fst).Nodup := by
  rw [List.nodup_iff_pairwise_ne, List.pairwise_map]
  exact counts.distinct_keys_toList.imp fun hne he => hne (by simp [he])

theorem Interns.mem_toList_iff {t : BaseTables} {met : List UInt32} (h : t.Interns met)
    (b : UInt32) (n : Nat) : (b, n) ∈ t.baseCountMap.toList ↔ b ∈ met ∧ n = met.count b := by
  rw [Std.TreeMap.mem_toList_iff_getElem?_eq_some, h.counts]
  by_cases hb : b ∈ met <;> simp [hb, eq_comm]

theorem Interns.mem_keys_iff {t : BaseTables} {met : List UInt32} (h : t.Interns met)
    (b : UInt32) : b ∈ t.baseCountMap.toList.map Prod.fst ↔ b ∈ met := by
  rw [List.mem_map]
  constructor
  · rintro ⟨⟨b, n⟩, hmem, rfl⟩
    exact ((h.mem_toList_iff b n).mp hmem).1
  · exact fun hb => ⟨(b, met.count b), (h.mem_toList_iff b _).mpr ⟨hb, rfl⟩, rfl⟩

theorem Interns.toList_eq_of_perm {t t' : BaseTables} {met met' : List UInt32} (h : t.Interns met)
    (h' : t'.Interns met') (perm : met'.Perm met) :
    t'.baseCountMap.toList = t.baseCountMap.toList := by
  have nodup := fun counts : Std.TreeMap UInt32 Nat => (nodup_keys_toList counts).of_map
  refine (Std.TreeMap.Equiv.of_toList_perm ?_).toList_eq
  rw [List.perm_ext_iff_of_nodup (nodup _) (nodup _)]
  intro p
  rw [h.mem_toList_iff p.1 p.2, h'.mem_toList_iff p.1 p.2, perm.mem_iff, perm.count_eq]

/-- Every word is counted once. -/
theorem Interns.sum_counts {t : BaseTables} {met : List UInt32} (h : t.Interns met) :
    (t.baseCountMap.toList.map Prod.snd).sum = met.length := by
  have counts : t.baseCountMap.toList.map Prod.snd =
      (t.baseCountMap.toList.map Prod.fst).map fun b => met.count b := by
    rw [List.map_map]
    exact List.map_congr_left fun p hp => ((h.mem_toList_iff p.1 p.2).mp hp).2
  rw [counts, ← coverage_toFinset (nodup_keys_toList _), coverage, List.countP_eq_length]
  intro b hb
  rw [decide_eq_true_eq, List.mem_toFinset, h.mem_keys_iff]
  exact hb

/-- The pairs of the count map, in any order of falling counts, rank the bases. -/
theorem Interns.ranking {t : BaseTables} {met : List UInt32} (h : t.Interns met)
    {ranked : List (UInt32 × Nat)} (perm : ranked.Perm t.baseCountMap.toList)
    (descending : ranked.Pairwise fun p q => q.2 ≤ p.2) : Ranking met ranked where
  nodup := (perm.map Prod.fst).nodup_iff.mpr (nodup_keys_toList _)
  mem_keys b := (perm.map Prod.fst).mem_iff.trans (h.mem_keys_iff b)
  counts p hp := ((h.mem_toList_iff p.1 p.2).mp (perm.mem_iff.mp hp)).2
  descending := descending

end BaseTables
end MobilePIM
