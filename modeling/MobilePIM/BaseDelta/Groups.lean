import MobilePIM.BaseDelta.Sizes
import MobilePIM.BaseDelta.Window
import MobilePIM.Zram.Packing

/-!
The bd0 branch of `prepare_read_evaluation_env`: a trace is cut into groups of
`inp_X` pages, each is compressed on its own, and the slots are summed up. A run
accounts for the whole trace exactly when the groups come out even and none of
them has fewer distinct bases than are asked for.
-/

namespace MobilePIM
open Coverage

structure Group where
  pages : List Nat
  data : List UInt32
  outcome : Outcome

/-- The bytes of the vector that is handed over. -/
def Group.bytes (group : Group) : List UInt8 := bytesLE group.data

/-- `num_slots`, as `BaseDeltaComp` returns it. -/
def Group.numSlots (group : Group) : UInt32 := group.outcome.estimate.numPagesNeeded

/-- The bytes to keep of a group: the two buffers and the 32-bit count of compressed words,
or the pages as they are. -/
def Group.storedSize (group : Group) : Nat :=
  match group.outcome.emitted with
  | none => group.bytes.length
  | some emitted => emitted.baseBuffer.length + 4 + emitted.dataBufferSize.toNat

/-- The vectors the turns share and the sum of the slots. `groups` logs the turns; the
program does not keep it. -/
structure Bd0State where
  data : List UInt32
  out : OutVectors
  totalSlots : UInt32
  groups : List Group

namespace Bd0State

def init : Bd0State := ⟨[], ⟨[], [], []⟩, 0, []⟩

def addGroup (st : Bd0State) (pages : List Nat) (data : List UInt32) (outcome : Outcome) :
    Bd0State where
  data := data
  out := outcome.estimate.tables.toOutVectors
  totalSlots := st.totalSlots + outcome.estimate.numPagesNeeded
  groups := st.groups ++ [⟨pages, data, outcome⟩]

/-- One turn of the loop; `i` is an `int`, the product a `uint32_t`. -/
def bd0Group (std : DescendingSort) (dataPages : List DataPage)
    (pagesize inpX lenBase numBases : UInt32) (st : Bd0State) (i : Nat) : Run Bd0State := do
  let startPage := 0 + UInt32.ofNat i * inpX
  let data ← copyXPagesToVector dataPages st.data pagesize inpX startPage
  let outcome ← baseDeltaComp std data inpX lenBase st.out numBases
  .ok (st.addGroup (pageWindow dataPages.length inpX startPage) data outcome)

end Bd0State

def totalBufferSize (dataPages : List DataPage) : UInt64 :=
  dataPages.foldl (fun size dataPage => size + dataPage.metadata.pageSize) 0

/-- The bd0 branch, on the pages `LoadTrace` has read. -/
def bd0 (std : DescendingSort) (dataPages : List DataPage) : Run Bd0State :=
  if dataPages.length = 0 then .error .divideByZero
  else
    let pagesize := UInt32.ofNat ((totalBufferSize dataPages).toNat / dataPages.length)
    let inpX := 3
    let lenBase := 6
    let numBases := 8
    let numIters := UInt32.ofNat (dataPages.length / inpX.toNat)
    (List.range numIters.toNat).foldlM
      (Bd0State.bd0Group std dataPages pagesize inpX lenBase numBases) .init

/-- The bytes of the pages that belong to group `i`. -/
def groupBytes (dataPages : List DataPage) (i : Nat) : List UInt8 :=
  ((dataPages.drop (3 * i)).take 3).flatMap DataPage.contents

/-- Every page is in exactly one group, in order, with all its bytes; the reported sum
counts the slots of all groups, and these have room for what is kept of them. -/
structure Accounts (trace : SwapoutTrace) (st : Bd0State) : Prop where
  pages : st.groups.flatMap Group.pages = List.range trace.dataPages.length
  bytes : st.groups.flatMap Group.bytes = trace.dataPages.flatMap DataPage.contents
  slots : st.totalSlots.toNat = (st.groups.map fun group => group.numSlots.toNat).sum
  room : ∀ group ∈ st.groups, group.storedSize ≤ 4096 * group.numSlots.toNat

section Group

variable (std : DescendingSort) (out : OutVectors) (data : List UInt32)

theorem baseDeltaComp_estimate {inpX lenBase numBases : UInt32} {outcome : Outcome}
    (run : baseDeltaComp std data inpX lenBase out numBases = .ok outcome) :
    outcome.estimate = estimate std out data inpX lenBase numBases := by
  simp only [baseDeltaComp] at run
  split at run
  · cases run
    rfl
  · cases compressed : performCompression lenBase numBases
        (estimate std out data inpX lenBase numBases) data with
    | error stop => simp [compressed, bind, Except.bind] at run
    | ok emitted =>
        rw [compressed] at run
        cases run
        rfl

theorem estimate_numPagesNeeded_le (inpX lenBase numBases : UInt32) :
    (estimate std out data inpX lenBase numBases).numPagesNeeded.toNat ≤ inpX.toNat := by
  simp only [estimate]
  split
  · exact le_rfl
  · rename_i below
    exact (UInt32.lt_iff_toNat_lt.mp (UInt32.not_le.mp below)).le

theorem compressing_fewBases (hlen : data.length = 3072) (few : distinctBases 6 data ≤ 8) :
    Compressing std out data 3 8 := by
  have all : bestCount 6 8 data = 3072 := by
    have covers : (bases 6 data).toFinset.card ≤ (8 : UInt32).toNat := few
    rw [bestCount, best_eq_length covers, length_bases, hlen]
  have total : exactTotalBits 8 data = 37088 := by
    rw [exactTotalBits, exactDataBits, all, hlen]
    decide
  rw [Compressing, estimate_numPagesNeeded, total]
  decide

theorem exactTotalBits_threePages (hlen : data.length = 3072) :
    exactTotalBits 8 data ≤ 2 ^ 32 - 8 := by
  have covered := bestCount_le 6 8 data
  have log : Nat.log2 (8 : UInt32).toNat = 3 := by decide
  have eight : (8 : UInt32).toNat = 8 := rfl
  rw [exactTotalBits, exactDataBits, log, eight]
  omega

theorem storedSize_le (pages : List Nat) (hlen : data.length = 3072) {outcome : Outcome}
    (run : baseDeltaComp std data 3 6 out 8 = .ok outcome) :
    (Group.mk pages data outcome).storedSize ≤
      4096 * (Group.mk pages data outcome).numSlots.toNat := by
  by_cases taken : Compressing std out data 3 8
  · have compressed := run
    rw [baseDeltaComp_eq std out data 3 8 taken] at compressed
    cases emission : performCompression 6 8 (estimate std out data 3 6 8) data with
    | error stop =>
        rw [emission] at compressed
        cases compressed
    | ok m =>
        rw [emission] at compressed
        cases compressed
        obtain ⟨packs, enough⟩ := Finishes.packs std out data 3 8 (m := m) run
        have agrees := packs.agrees std out data 3 8 enough (exactTotalBits_threePages data hlen)
          taken
        exact agrees.size.trans_le agrees.pages
  · have whole : (estimate std out data 3 6 8).numPagesNeeded = 3 := not_not.mp taken
    simp only [baseDeltaComp, if_pos whole] at run
    cases run
    have slots : (3 : UInt32).toNat = 3 := rfl
    simp only [Group.storedSize, Group.numSlots, Group.bytes, length_bytesLE, whole, hlen, slots]
    decide

/-- On three pages with eight bases, enough distinct bases are all it takes. -/
theorem baseDeltaComp_ok_iff (hlen : data.length = 3072) :
    (∃ outcome, baseDeltaComp std data 3 6 out 8 = .ok outcome) ↔ 8 ≤ distinctBases 6 data := by
  have returns : (∃ outcome, baseDeltaComp std data 3 6 out 8 = .ok outcome) ↔
      (returnedPages (baseDeltaComp std data 3 6 out 8)).isSome := by
    cases baseDeltaComp std data 3 6 out 8 <;> simp [returnedPages, Except.toOption]
  have small : exactDataBits 8 data ≤ 2 ^ 32 - 8 := by
    have total := exactTotalBits_threePages data hlen
    rw [exactTotalBits] at total
    omega
  have eight : (8 : UInt32).toNat = 8 := rfl
  rw [returns, returnedPages_eq, eight]
  constructor
  · intro ends
    by_contra few
    have taken : _ ≠ _ := compressing_fewBases std out data hlen (Nat.le_of_not_le few)
    rw [if_neg (not_or.mpr ⟨taken, fun h => few h.1⟩)] at ends
    cases ends
  · intro enough
    rw [if_pos (Or.inr ⟨enough, small⟩)]
    rfl

theorem baseDeltaComp_fewBases (hlen : data.length = 3072) (few : distinctBases 6 data < 8) :
    baseDeltaComp std data 3 6 out 8 = .error (.badRead .topBases (distinctBases 6 data)) := by
  rw [baseDeltaComp_eq std out data 3 8 (compressing_fewBases std out data hlen few.le),
    performCompression_fewBases std out data 3 8 few]
  rfl

end Group

namespace Bd0State

/-- The first `m` groups are accounted for. -/
structure Covers (trace : SwapoutTrace) (m : Nat) (st : Bd0State) : Prop where
  pages : st.groups.flatMap Group.pages = List.range (3 * m)
  bytes : st.groups.flatMap Group.bytes = (trace.dataPages.take (3 * m)).flatMap DataPage.contents
  slots : st.totalSlots.toNat = (st.groups.map fun group => group.numSlots.toNat).sum
  room : ∀ group ∈ st.groups, group.storedSize ≤ 4096 * group.numSlots.toNat
  few : st.totalSlots.toNat ≤ 3 * m

theorem init_covers (trace : SwapoutTrace) : Covers trace 0 init :=
  ⟨rfl, rfl, rfl, fun _ hmem => absurd hmem List.not_mem_nil, le_rfl⟩

end Bd0State

section Trace

variable {std : DescendingSort} {trace : SwapoutTrace}

theorem totalBufferSize_eq (trace : SwapoutTrace) :
    totalBufferSize trace.dataPages = UInt64.ofNat (4096 * trace.dataPages.length) := by
  have sums : ∀ (pages : List DataPage) (m : Nat),
      (∀ page ∈ pages, page.metadata.pageSize = PAGE_SIZE) →
      pages.foldl (fun size page => size + page.metadata.pageSize) (UInt64.ofNat m) =
        UInt64.ofNat (m + 4096 * pages.length) := by
    intro pages
    induction pages with
    | nil => intro m _; rfl
    | cons page pages ih =>
        intro m full
        have size : page.metadata.pageSize = UInt64.ofNat 4096 := full page (by simp)
        rw [List.foldl_cons, size, ← UInt64.ofNat_add, ih _ fun page hp => full page (by simp [hp]),
          List.length_cons]
        congr 1
        omega
  simpa [totalBufferSize] using sums trace.dataPages 0 trace.full

theorem length_groupPages {i : Nat} (inside : 3 * (i + 1) ≤ trace.dataPages.length) :
    ((trace.dataPages.drop (3 * i)).take 3).length = 3 := by
  rw [List.length_take, List.length_drop]
  omega

theorem length_groupBytes {i : Nat} (inside : 3 * (i + 1) ≤ trace.dataPages.length) :
    (groupBytes trace.dataPages i).length = 12288 := by
  rw [groupBytes, length_flatMap_contents _ fun page hp => congrArg UInt64.toNat
    (trace.full page (List.mem_of_mem_drop (List.mem_of_mem_take hp))), length_groupPages inside]
  rfl

theorem length_wordsLE_group {i : Nat} (inside : 3 * (i + 1) ≤ trace.dataPages.length) :
    (wordsLE (groupBytes trace.dataPages i)).length = 3072 := by
  rw [length_wordsLE, length_groupBytes inside]

theorem bytesLE_group {i : Nat} (inside : 3 * (i + 1) ≤ trace.dataPages.length) :
    bytesLE (wordsLE (groupBytes trace.dataPages i)) = groupBytes trace.dataPages i :=
  bytesLE_wordsLE (by rw [length_groupBytes inside]; decide)

variable (below : trace.dataPages.length < 2 ^ 32)
include below

theorem pagesize_eq (nonempty : trace.dataPages.length ≠ 0) :
    UInt32.ofNat ((totalBufferSize trace.dataPages).toNat / trace.dataPages.length) = 4096 := by
  rw [totalBufferSize_eq, UInt64.toNat_ofNat', Nat.mod_eq_of_lt (by omega),
    Nat.mul_div_cancel _ (Nat.pos_of_ne_zero nonempty)]
  rfl

theorem toNat_startPage {i : Nat} (inside : 3 * (i + 1) ≤ trace.dataPages.length) :
    (0 + UInt32.ofNat i * 3).toNat = 3 * i := by
  have three : (3 : UInt32) = UInt32.ofNat 3 := rfl
  rw [UInt32.zero_add, three, ← UInt32.ofNat_mul, UInt32.toNat_ofNat', Nat.mod_eq_of_lt (by omega)]
  omega

theorem startPage_fits {i : Nat} (inside : 3 * (i + 1) ≤ trace.dataPages.length) :
    (0 + UInt32.ofNat i * 3).toNat + (3 : UInt32).toNat < 2 ^ 32 := by
  rw [toNat_startPage below inside, show (3 : UInt32).toNat = 3 from rfl]
  omega

theorem pageWindow_group {i : Nat} (inside : 3 * (i + 1) ≤ trace.dataPages.length) :
    pageWindow trace.dataPages.length 3 (0 + UInt32.ofNat i * 3) = List.range' (3 * i) 3 := by
  rw [pageWindow_of_fits _ (startPage_fits below inside), toNat_startPage below inside,
    show (3 : UInt32).toNat = 3 from rfl, Nat.min_eq_right (by omega)]

theorem copyXPagesToVector_group (targetVector : List UInt32) {i : Nat}
    (inside : 3 * (i + 1) ≤ trace.dataPages.length) :
    copyXPagesToVector trace.dataPages targetVector 4096 3 (0 + UInt32.ofNat i * 3) =
      .ok (wordsLE (groupBytes trace.dataPages i)) := by
  have sizes : ∀ page ∈ trace.dataPages,
      page.metadata.pageSize.toNat = (4096 : UInt32).toNat := fun page hp =>
    congrArg UInt64.toNat (trace.full page hp)
  have copied := copyXPagesToVector_eq targetVector sizes (by decide) (by decide)
    (startPage_fits below inside)
  rw [windowBytes, toNat_startPage below inside, show (3 : UInt32).toNat = 3 from rfl,
    length_groupPages inside] at copied
  exact copied.trans (congrArg (fun bytes => Except.ok (wordsLE bytes)) (List.append_nil _))

namespace Bd0State

theorem bd0Group_eq (st : Bd0State) {i : Nat} (inside : 3 * (i + 1) ≤ trace.dataPages.length) :
    bd0Group std trace.dataPages 4096 3 6 8 st i =
      (baseDeltaComp std (wordsLE (groupBytes trace.dataPages i)) 3 6 st.out 8).map
        (st.addGroup (List.range' (3 * i) 3) (wordsLE (groupBytes trace.dataPages i))) := by
  simp only [bd0Group, copyXPagesToVector_group below st.data inside,
    pageWindow_group below inside, bind, Except.bind]
  cases baseDeltaComp std (wordsLE (groupBytes trace.dataPages i)) 3 6 st.out 8 <;> rfl

theorem bd0Group_ok_iff (st : Bd0State) {i : Nat}
    (inside : 3 * (i + 1) ≤ trace.dataPages.length) :
    (∃ st', bd0Group std trace.dataPages 4096 3 6 8 st i = .ok st') ↔
      8 ≤ distinctBases 6 (wordsLE (groupBytes trace.dataPages i)) := by
  rw [bd0Group_eq below st inside,
    ← baseDeltaComp_ok_iff std st.out _ (length_wordsLE_group inside)]
  cases baseDeltaComp std (wordsLE (groupBytes trace.dataPages i)) 3 6 st.out 8 <;>
    simp [Except.map]

theorem Covers.addGroup {m : Nat} {st : Bd0State} (h : Covers trace m st)
    (inside : 3 * (m + 1) ≤ trace.dataPages.length) {outcome : Outcome}
    (turn : baseDeltaComp std (wordsLE (groupBytes trace.dataPages m)) 3 6 st.out 8 = .ok outcome) :
    Covers trace (m + 1)
      (st.addGroup (List.range' (3 * m) 3) (wordsLE (groupBytes trace.dataPages m)) outcome) := by
  have few := h.few
  have some_slots : outcome.estimate.numPagesNeeded.toNat ≤ 3 := by
    rw [baseDeltaComp_estimate std st.out _ turn]
    exact estimate_numPagesNeeded_le std st.out _ 3 6 8
  have sum : (st.totalSlots + outcome.estimate.numPagesNeeded).toNat =
      st.totalSlots.toNat + outcome.estimate.numPagesNeeded.toNat := by
    rw [UInt32.toNat_add, Nat.mod_eq_of_lt (by omega)]
  refine ⟨?_, ?_, ?_, ?_, ?_⟩
  · rw [Bd0State.addGroup, List.flatMap_append, h.pages, List.range_eq_range',
      List.range_eq_range', Nat.mul_succ, ← List.range'_append_1, Nat.zero_add]
    simp
  · rw [Bd0State.addGroup, List.flatMap_append, h.bytes, Nat.mul_succ, List.take_add,
      List.flatMap_append]
    rw [List.flatMap_singleton, Group.bytes, bytesLE_group inside, groupBytes]
  · rw [Bd0State.addGroup, List.map_append, List.sum_append, ← h.slots, sum]
    rfl
  · intro group hmem
    rw [Bd0State.addGroup, List.mem_append, List.mem_singleton] at hmem
    cases hmem with
    | inl earlier => exact h.room group earlier
    | inr last =>
        rw [last]
        exact storedSize_le std st.out _ _ (length_wordsLE_group inside) turn
  · rw [Bd0State.addGroup, sum]
    omega

theorem Covers.bd0Group {m : Nat} {st st' : Bd0State} (h : Covers trace m st)
    (inside : 3 * (m + 1) ≤ trace.dataPages.length)
    (run : bd0Group std trace.dataPages 4096 3 6 8 st m = .ok st') : Covers trace (m + 1) st' := by
  rw [bd0Group_eq below st inside] at run
  cases turn : baseDeltaComp std (wordsLE (groupBytes trace.dataPages m)) 3 6 st.out 8 with
  | error stop =>
      rw [turn] at run
      cases run
  | ok outcome =>
      rw [turn] at run
      cases run
      exact h.addGroup below inside turn

theorem foldlM_covers {m : Nat} (inside : 3 * m ≤ trace.dataPages.length) {st : Bd0State}
    (run : (List.range m).foldlM (bd0Group std trace.dataPages 4096 3 6 8) init = .ok st) :
    Covers trace m st := by
  refine foldlM_range_induction (fun m st => 3 * m ≤ trace.dataPages.length → Covers trace m st)
    (fun _ => init_covers trace) ?_ run inside
  intro m st st' before turn inside
  exact (before (by omega)).bd0Group below inside turn

theorem foldlM_ok_iff {m : Nat} (inside : 3 * m ≤ trace.dataPages.length) :
    (∃ st, (List.range m).foldlM (bd0Group std trace.dataPages 4096 3 6 8) init = .ok st) ↔
      ∀ i < m, 8 ≤ distinctBases 6 (wordsLE (groupBytes trace.dataPages i)) := by
  induction m with
  | zero => exact iff_of_true ⟨init, rfl⟩ fun i hi => absurd hi (Nat.not_lt_zero i)
  | succ m ih =>
      rw [foldlM_range_succ, Nat.forall_lt_succ_right, ← ih (by omega)]
      cases (List.range m).foldlM (bd0Group std trace.dataPages 4096 3 6 8) init with
      | error stop => simp [bind, Except.bind]
      | ok st => simpa [bind, Except.bind] using bd0Group_ok_iff below st inside

end Bd0State

theorem bd0_eq (nonempty : trace.dataPages.length ≠ 0) :
    bd0 std trace.dataPages = (List.range (trace.dataPages.length / 3)).foldlM
      (Bd0State.bd0Group std trace.dataPages 4096 3 6 8) .init := by
  have three : (3 : UInt32).toNat = 3 := rfl
  have iters : (UInt32.ofNat (trace.dataPages.length / 3)).toNat = trace.dataPages.length / 3 := by
    rw [UInt32.toNat_ofNat', Nat.mod_eq_of_lt (by omega)]
  rw [bd0, if_neg nonempty, pagesize_eq below nonempty]
  simp only [three, iters]

theorem bd0_fewBases {i : Nat} (inside : 3 * (i + 1) ≤ trace.dataPages.length)
    (few : distinctBases 6 (wordsLE (groupBytes trace.dataPages i)) < 8) :
    ∃ n, bd0 std trace.dataPages = .error (.badRead .topBases n) := by
  induction i using Nat.strong_induction_on with
  | _ i ih =>
      by_cases before : ∀ j < i, 8 ≤ distinctBases 6 (wordsLE (groupBytes trace.dataPages j))
      · obtain ⟨st, run⟩ : ∃ st, (List.range i).foldlM
            (Bd0State.bd0Group std trace.dataPages 4096 3 6 8) .init = .ok st :=
          (Bd0State.foldlM_ok_iff below (by omega)).mpr before
        have stop : Bd0State.bd0Group std trace.dataPages 4096 3 6 8 st i = .error
            (.badRead .topBases (distinctBases 6 (wordsLE (groupBytes trace.dataPages i)))) := by
          rw [Bd0State.bd0Group_eq below st inside,
            baseDeltaComp_fewBases std st.out _ (length_wordsLE_group inside) few]
          rfl
        refine ⟨distinctBases 6 (wordsLE (groupBytes trace.dataPages i)), ?_⟩
        rw [bd0_eq below (by omega)]
        exact foldlM_range_stops (by omega) run stop
      · simp only [not_forall, Nat.not_le] at before
        obtain ⟨j, earlier, poor⟩ := before
        exact ih j earlier (by omega) poor

/-- A trace that comes out even, with enough distinct bases in every group. -/
theorem bd0_accounts (nonempty : trace.dataPages.length ≠ 0) (even : 3 ∣ trace.dataPages.length)
    (enough : ∀ i < trace.dataPages.length / 3,
      8 ≤ distinctBases 6 (wordsLE (groupBytes trace.dataPages i))) :
    ∃ st, bd0 std trace.dataPages = .ok st ∧ Accounts trace st := by
  have whole : 3 * (trace.dataPages.length / 3) = trace.dataPages.length := Nat.mul_div_cancel' even
  obtain ⟨st, run⟩ : ∃ st, bd0 std trace.dataPages = .ok st := by
    rw [bd0_eq below nonempty]
    exact (Bd0State.foldlM_ok_iff below whole.le).mpr enough
  have covers := Bd0State.foldlM_covers below whole.le ((bd0_eq below nonempty).symm.trans run)
  refine ⟨st, run, ?_, ?_, covers.slots, covers.room⟩
  · rw [covers.pages, whole]
  · rw [covers.bytes, whole, List.take_length]

end Trace

section Windows

variable {std : DescendingSort} {dataPages : List DataPage}

/-- Whatever the trace, a turn logs the pages of its window. -/
theorem Bd0State.bd0Group_pages {pagesize inpX lenBase numBases : UInt32} {st st' : Bd0State}
    {i : Nat} (run : bd0Group std dataPages pagesize inpX lenBase numBases st i = .ok st') :
    st'.groups.flatMap Group.pages = st.groups.flatMap Group.pages ++
      pageWindow dataPages.length inpX (0 + UInt32.ofNat i * inpX) := by
  simp only [bd0Group, bind, Except.bind] at run
  cases copied : copyXPagesToVector dataPages st.data pagesize inpX
      (0 + UInt32.ofNat i * inpX) with
  | error stop => simp only [copied, reduceCtorEq] at run
  | ok data =>
      rw [copied] at run
      cases turn : baseDeltaComp std data inpX lenBase st.out numBases with
      | error stop => simp only [turn, reduceCtorEq] at run
      | ok outcome =>
          simp only [turn] at run
          cases run
          rw [addGroup, List.flatMap_append, List.flatMap_singleton]

theorem Bd0State.foldlM_pages {pagesize inpX lenBase numBases : UInt32} {m : Nat} {st : Bd0State}
    (run : (List.range m).foldlM (bd0Group std dataPages pagesize inpX lenBase numBases) init =
      .ok st) :
    st.groups.flatMap Group.pages = (List.range m).flatMap fun i =>
      pageWindow dataPages.length inpX (0 + UInt32.ofNat i * inpX) := by
  refine foldlM_range_induction (fun m st => st.groups.flatMap Group.pages =
    (List.range m).flatMap fun i =>
      pageWindow dataPages.length inpX (0 + UInt32.ofNat i * inpX)) rfl ?_ run
  intro m st st' before turn
  rw [bd0Group_pages turn, before, List.range_succ, List.flatMap_append, List.flatMap_singleton]

/-- No run reaches a page past the last full group, or one that no `uint32_t` bound covers. -/
theorem bd0_pages {st : Bd0State} (run : bd0 std dataPages = .ok st)
    (pages : st.groups.flatMap Group.pages = List.range dataPages.length) :
    0 < dataPages.length ∧ dataPages.length < 2 ^ 32 ∧ 3 ∣ dataPages.length := by
  have nonempty : dataPages.length ≠ 0 := by
    intro hzero
    rw [bd0, if_pos hzero] at run
    cases run
  rw [bd0, if_neg nonempty] at run
  have three : (3 : UInt32).toNat = 3 := rfl
  have few : (UInt32.ofNat (dataPages.length / 3)).toNat ≤ dataPages.length / 3 := by
    rw [UInt32.toNat_ofNat']
    exact Nat.mod_le _ _
  have windows := (Bd0State.foldlM_pages run).symm.trans pages
  rw [three] at windows
  refine ⟨Nat.pos_of_ne_zero nonempty, ?_, ?_⟩
  · have last : dataPages.length - 1 ∈ List.range dataPages.length := List.mem_range.mpr (by omega)
    rw [← windows] at last
    obtain ⟨i, -, mem⟩ := List.mem_flatMap.mp last
    have := lt_of_mem_pageWindow mem
    omega
  · have total : ∀ m, ((List.range m).flatMap fun i =>
        pageWindow dataPages.length 3 (0 + UInt32.ofNat i * 3)).length ≤ 3 * m := by
      intro m
      induction m with
      | zero => exact le_rfl
      | succ m ih =>
          have window := length_pageWindow_le dataPages.length 3 (0 + UInt32.ofNat m * 3)
          rw [List.range_succ, List.flatMap_append, List.flatMap_singleton, List.length_append]
          omega
    have bound := total (UInt32.ofNat (dataPages.length / 3)).toNat
    rw [windows, List.length_range] at bound
    omega

end Windows

section Trace

variable (std : DescendingSort) (trace : SwapoutTrace)

/-- The bd0 branch accounts for a trace exactly when the trace is not empty, its length is a
multiple of three below 2^32, and every group has the eight distinct bases asked for. -/
theorem bd0_accounts_iff :
    (∃ st, bd0 std trace.dataPages = .ok st ∧ Accounts trace st) ↔
      0 < trace.dataPages.length ∧ trace.dataPages.length < 2 ^ 32 ∧
        3 ∣ trace.dataPages.length ∧
        ∀ i < trace.dataPages.length / 3,
          8 ≤ distinctBases 6 (wordsLE (groupBytes trace.dataPages i)) := by
  constructor
  · rintro ⟨st, run, accounts⟩
    obtain ⟨positive, below, even⟩ := bd0_pages run accounts.pages
    rw [bd0_eq below positive.ne'] at run
    exact ⟨positive, below, even,
      (Bd0State.foldlM_ok_iff below (Nat.mul_div_le _ _)).mp ⟨st, run⟩⟩
  · rintro ⟨positive, below, even, enough⟩
    exact bd0_accounts below positive.ne' even enough

end Trace

/-- A trace of one page: no group has it. -/
theorem bd0_drops_page :
    ¬∃ st, bd0 .merge (sampleTrace zeroPage length_zeroPage [(7, 1)]).dataPages = .ok st ∧
      Accounts (sampleTrace zeroPage length_zeroPage [(7, 1)]) st := by
  rintro ⟨st, run, accounts⟩
  obtain ⟨-, -, even⟩ := bd0_pages run accounts.pages
  exact absurd even (by decide)

end MobilePIM
