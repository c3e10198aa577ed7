import MobilePIM.Foundation.Scan
import MobilePIM.Zram.Packing

/-!
The two trace readers. Records are read off the meta text for as long as
`fscanf` converts both integers; whatever ends that ends the loop and counts as
the end of the text. Only the data file can make a fresh reader refuse a trace.
-/

namespace MobilePIM
open Scan

def FitsInt (v : Int) : Prop := -2 ^ 31 ≤ v ∧ v < 2 ^ 31

/-- What `%d` stores for a number. C leaves it open for one that no `int` holds. -/
structure IntConversion where
  store : Int → Int32
  exact : ∀ v, FitsInt v → (store v).toInt = v

/-- The number as a `long`, as near as that gets, and the low 32 bits of it. -/
def IntConversion.truncating : IntConversion where
  store v := Int32.ofInt (max (-2 ^ 63) (min v (2 ^ 63 - 1)))
  exact v h := by
    obtain ⟨low, high⟩ := h
    rw [min_eq_left (by omega), max_eq_right (by omega)]
    exact Int32.toInt_ofInt_of_le low (by omega)

/-- `"%d,%d\n"`. -/
def recordFormat : List Directive := [.integer, .literal ',', .integer, .space]

/-- `fscanf(file, "%d,%d\n", &uid, &pfn)`, when it returns 2, and what it leaves in the file. -/
def fscanf (text : List Char) : Option ((Int × Int) × List Char) :=
  match scan recordFormat text with
  | ([uid, pfn], some rest) => some ((uid, pfn), rest)
  | _ => none

theorem fscanf_eq_some_iff {text rest : List Char} {record : Int × Int} :
    fscanf text = some (record, rest) ↔
      Reads recordFormat text [record.1, record.2] rest := by
  rw [← scan_eq_iff, fscanf]
  split
  · rename_i uid pfn rest' read
    rw [read]
    constructor
    · intro h
      cases h
      rfl
    · intro h
      cases h
      rfl
  · rename_i other
    constructor
    · intro h
      cases h
    · intro h
      exact (other _ _ _ h).elim

theorem fscanf_shortens {text rest : List Char} {record : Int × Int}
    (h : fscanf text = some (record, rest)) : rest.length < text.length :=
  (fscanf_eq_some_iff.mp h).length_lt

/-- The loop of both readers: `onRecord` is done as long as `fscanf` returns 2. -/
def loadLoop {σ : Type*} (conv : IntConversion) (onRecord : σ → Int32 → Int32 → Run σ)
    (text : List Char) (st : σ) : Run σ :=
  match _h : fscanf text with
  | none => .ok st
  | some (record, rest) => do
      let st ← onRecord st (conv.store record.1) (conv.store record.2)
      loadLoop conv onRecord rest st
termination_by text.length
decreasing_by exact fscanf_shortens _h

/-- `fread` of one page. -/
def fread (dataFile : List UInt8) :
    Option ({buffer : List UInt8 // buffer.length = 4096} × List UInt8) :=
  if h : 4096 ≤ dataFile.length then
    some (⟨dataFile.take 4096, List.length_take_of_le h⟩, dataFile.drop 4096)
  else none

/-- What the swap-out loop works on; `lineNum` is for its error message. -/
structure SwapoutState where
  dataFile : List UInt8
  dataPages : List DataPage
  lineNum : UInt64

def SwapoutState.onRecord (st : SwapoutState) (uid pfn : Int32) : Run SwapoutState :=
  match fread st.dataFile with
  | none =>
      .error (.errorReturn ("Error reading data file, r2 = 0, line_num = " ++
        toString st.lineNum ++ ", r1 = 2"))
  | some (buffer, dataFile) =>
      .ok { dataFile
            dataPages := st.dataPages ++ [.ofTrace pfn uid buffer.1 buffer.2]
            lineNum := st.lineNum + 1 }

def addRecord (opsRecords : List PageMetadata) (uid pfn : Int32) : Run (List PageMetadata) :=
  .ok (opsRecords ++ [{ pfn := pfn, uid := uid }])

structure SwapoutTraceReader where
  traceFile : List Char
  dataFile : List UInt8
  dataPages : List DataPage

/-- `LoadTrace`: the pages when it returns 0, what it prints when it returns -1. -/
def SwapoutTraceReader.loadTrace (conv : IntConversion) (reader : SwapoutTraceReader) :
    Run (List DataPage) :=
  if 0 < reader.dataPages.length then .error (.errorReturn "Error: data pages already loaded")
  else do
    let st ← loadLoop conv SwapoutState.onRecord reader.traceFile
      ⟨reader.dataFile, reader.dataPages, 1⟩
    .ok st.dataPages

structure SwapinTraceReader where
  replayFile : List Char
  opsRecords : List PageMetadata

def SwapinTraceReader.loadTrace (conv : IntConversion) (reader : SwapinTraceReader) :
    Run (List PageMetadata) :=
  if 0 < reader.opsRecords.length then
    .error (.errorReturn "Error: tracing records already loaded")
  else
    loadLoop conv addRecord reader.replayFile reader.opsRecords

/-- The records in front of the first place where the format does not match. -/
def readRecords (text : List Char) : List (Int × Int) :=
  match _h : fscanf text with
  | none => []
  | some (record, rest) => record :: readRecords rest
termination_by text.length
decreasing_by exact fscanf_shortens _h

/-- The whole text is these records, pairs of a uid and a pfn that fit an `int`. -/
inductive TraceText : List Char → List (Int × Int) → Prop
  | nil {text : List Char} (blank : Blank text) : TraceText text []
  | cons {text rest : List Char} {uid pfn : Int} {records : List (Int × Int)}
      (read : Reads recordFormat text [uid, pfn] rest) (uid_fits : FitsInt uid)
      (pfn_fits : FitsInt pfn) (behind : TraceText rest records) :
      TraceText text ((uid, pfn) :: records)

section Records

variable {text rest : List Char} {records : List (Int × Int)}

theorem readRecords_stop (h : fscanf text = none) : readRecords text = [] := by
  rw [readRecords]
  split
  · rfl
  · rename_i read
    rw [h] at read
    cases read

theorem readRecords_step {record : Int × Int} (h : fscanf text = some (record, rest)) :
    readRecords text = record :: readRecords rest := by
  rw [readRecords]
  split
  · rename_i stop
    rw [h] at stop
    cases stop
  · rename_i read
    rw [h] at read
    cases read
    rfl

section Loop

variable {σ : Type*} (conv : IntConversion) (onRecord : σ → Int32 → Int32 → Run σ)

theorem loadLoop_stop (h : fscanf text = none) (st : σ) :
    loadLoop conv onRecord text st = .ok st := by
  rw [loadLoop]
  split
  · rfl
  · rename_i read
    rw [h] at read
    cases read

theorem loadLoop_step {record : Int × Int} (h : fscanf text = some (record, rest)) (st : σ) :
    loadLoop conv onRecord text st =
      onRecord st (conv.store record.1) (conv.store record.2) >>= loadLoop conv onRecord rest := by
  rw [loadLoop]
  split
  · rename_i stop
    rw [h] at stop
    cases stop
  · rename_i read
    rw [h] at read
    cases read
    rfl

theorem loadLoop_eq (text : List Char) (st : σ) :
    loadLoop conv onRecord text st = (readRecords text).foldlM
      (fun st record => onRecord st (conv.store record.1) (conv.store record.2)) st := by
  induction text using readRecords.induct generalizing st with
  | case1 text stop =>
      rw [readRecords_stop stop, loadLoop_stop conv onRecord stop]
      rfl
  | case2 text record rest read ih =>
      rw [readRecords_step read, loadLoop_step conv onRecord read, List.foldlM_cons]
      exact bind_congr fun st => ih st

end Loop

theorem TraceText.readRecords_eq (h : TraceText text records) : readRecords text = records := by
  induction h with
  | nil blank =>
      apply readRecords_stop
      rw [Option.eq_none_iff_forall_ne_some]
      exact fun _ read => not_reads_blank blank (fscanf_eq_some_iff.mp read)
  | cons read _ _ _ ih =>
      have step := (@fscanf_eq_some_iff _ _ (_, _)).mpr read
      rw [readRecords_step step, ih]

theorem TraceText.fits (h : TraceText text records) :
    ∀ record ∈ records, FitsInt record.1 ∧ FitsInt record.2 := by
  induction h with
  | nil _ => exact fun _ h => absurd h List.not_mem_nil
  | cons _ uid_fits pfn_fits _ ih => exact List.forall_mem_cons.mpr ⟨⟨uid_fits, pfn_fits⟩, ih⟩

end Records

section Loading

variable (conv : IntConversion) (text : List Char) (data : List UInt8)

/-- What a page stands for: its uid and pfn, and its bytes. -/
def DataPage.entry (page : DataPage) : Int × Int × List UInt8 :=
  (page.metadata.uid.toInt, page.metadata.pfn.toInt, page.contents)

/-- With enough data every record gets its 4096 bytes, one after the other. -/
theorem onRecord_ok (records : List (Int × Int)) (st : SwapoutState)
    (enough : 4096 * records.length ≤ st.dataFile.length) :
    ∃ st' pages, records.foldlM
        (fun st record => st.onRecord (conv.store record.1) (conv.store record.2)) st = .ok st' ∧
      st'.dataPages = st.dataPages ++ pages ∧
      (∀ page ∈ pages, page.metadata.pageSize = PAGE_SIZE) ∧
      pages.map DataPage.entry = records.mapIdx fun i record =>
        ((conv.store record.1).toInt, (conv.store record.2).toInt,
          slice st.dataFile (4096 * i) 4096) := by
  induction records generalizing st with
  | nil => exact ⟨st, [], rfl, (List.append_nil _).symm, by simp, rfl⟩
  | cons record records ih =>
      rw [List.length_cons] at enough
      have whole : 4096 ≤ st.dataFile.length := by omega
      have read : fread st.dataFile = some (⟨st.dataFile.take 4096,
          List.length_take_of_le whole⟩, st.dataFile.drop 4096) := dif_pos whole
      obtain ⟨st', pages, run, kept, full, entries⟩ := ih
        { dataFile := st.dataFile.drop 4096
          dataPages := st.dataPages ++ [.ofTrace (conv.store record.2) (conv.store record.1)
            (st.dataFile.take 4096) (List.length_take_of_le whole)]
          lineNum := st.lineNum + 1 } (by rw [List.length_drop]; omega)
      refine ⟨st', .ofTrace (conv.store record.2) (conv.store record.1) (st.dataFile.take 4096)
        (List.length_take_of_le whole) :: pages, ?_, ?_, ?_, ?_⟩
      · rw [List.foldlM_cons, SwapoutState.onRecord, read]
        exact run
      · rw [kept, List.append_assoc]
        rfl
      · exact List.forall_mem_cons.mpr ⟨rfl, full⟩
      · rw [List.map_cons, entries, List.mapIdx_cons]
        congr 1
        · rw [DataPage.entry, DataPage.contents_ofTrace]
          rfl
        · apply congrArg (List.mapIdx · records)
          funext i record
          rw [slice, slice, List.drop_drop, Nat.mul_succ, Nat.add_comm]

theorem onRecord_error (records : List (Int × Int)) (st : SwapoutState)
    (short : st.dataFile.length < 4096 * records.length) :
    ∃ message, records.foldlM
        (fun st record => st.onRecord (conv.store record.1) (conv.store record.2)) st =
      .error (.errorReturn message) := by
  induction records generalizing st with
  | nil => exact absurd short (Nat.not_lt_zero _)
  | cons record records ih =>
      rw [List.length_cons] at short
      rw [List.foldlM_cons, SwapoutState.onRecord]
      by_cases whole : 4096 ≤ st.dataFile.length
      · rw [fread, dif_pos whole]
        exact ih _ (by rw [List.length_drop]; omega)
      · rw [fread, dif_neg whole]
        exact ⟨_, rfl⟩

theorem swapout_loadTrace_eq :
    SwapoutTraceReader.loadTrace conv ⟨text, data, []⟩ = ((readRecords text).foldlM
      (fun st record => SwapoutState.onRecord st (conv.store record.1) (conv.store record.2))
        ⟨data, [], 1⟩).map SwapoutState.dataPages := by
  rw [SwapoutTraceReader.loadTrace, if_neg (by simp), loadLoop_eq]
  rfl

/-- The pages of a loaded trace are full pages, one for each record that was read. -/
theorem swapout_loadTrace_ok (enough : 4096 * (readRecords text).length ≤ data.length) :
    ∃ trace : SwapoutTrace,
      SwapoutTraceReader.loadTrace conv ⟨text, data, []⟩ = .ok trace.dataPages ∧
      trace.dataPages.map DataPage.entry = (readRecords text).mapIdx fun i record =>
        ((conv.store record.1).toInt, (conv.store record.2).toInt, slice data (4096 * i) 4096) := by
  obtain ⟨st, pages, run, kept, full, entries⟩ :=
    onRecord_ok conv (readRecords text) ⟨data, [], 1⟩ enough
  refine ⟨⟨pages, full⟩, ?_, entries⟩
  rw [swapout_loadTrace_eq, run]
  exact congrArg Except.ok kept

/-- A fresh swap-out reader refuses a trace for want of data only. -/
theorem swapout_loadTrace_ok_iff :
    (∃ pages, SwapoutTraceReader.loadTrace conv ⟨text, data, []⟩ = .ok pages) ↔
      4096 * (readRecords text).length ≤ data.length := by
  constructor
  · intro loaded
    by_contra short
    obtain ⟨pages, run⟩ := loaded
    obtain ⟨message, stop⟩ :=
      onRecord_error conv (readRecords text) ⟨data, [], 1⟩ (Nat.not_le.mp short)
    rw [swapout_loadTrace_eq, stop] at run
    cases run
  · intro enough
    obtain ⟨trace, run, -⟩ := swapout_loadTrace_ok conv text data enough
    exact ⟨trace.dataPages, run⟩

theorem swapin_loadTrace_eq :
    SwapinTraceReader.loadTrace conv ⟨text, []⟩ = .ok ((readRecords text).map fun record =>
      { pfn := conv.store record.2, uid := conv.store record.1 }) := by
  have fold : ∀ (records : List (Int × Int)) (opsRecords : List PageMetadata),
      records.foldlM (fun st record => addRecord st (conv.store record.1) (conv.store record.2))
        opsRecords = .ok (opsRecords ++ records.map fun record =>
          { pfn := conv.store record.2, uid := conv.store record.1 }) := by
    intro records
    induction records with
    | nil => exact fun opsRecords => congrArg Except.ok (List.append_nil _).symm
    | cons record records ih =>
        intro opsRecords
        rw [List.foldlM_cons, addRecord]
        exact (ih _).trans (congrArg Except.ok (List.append_assoc _ _ _))
  rw [SwapinTraceReader.loadTrace, if_neg (by simp), loadLoop_eq, fold]
  rfl

section Whole

variable {conv text data} {records : List (Int × Int)} (trace : TraceText text records)
include trace

theorem TraceText.unique {other : List (Int × Int)} (h : TraceText text other) :
    other = records := by
  rw [← h.readRecords_eq, trace.readRecords_eq]

theorem TraceText.stored (conv : IntConversion) : ∀ record ∈ records,
    (conv.store record.1).toInt = record.1 ∧ (conv.store record.2).toInt = record.2 := by
  intro record h
  obtain ⟨uid_fits, pfn_fits⟩ := trace.fits record h
  exact ⟨conv.exact _ uid_fits, conv.exact _ pfn_fits⟩

theorem TraceText.dataPages {pages : List DataPage}
    (run : SwapoutTraceReader.loadTrace conv ⟨text, data, []⟩ = .ok pages) :
    pages.map DataPage.entry =
      records.mapIdx fun i record => (record.1, record.2, slice data (4096 * i) 4096) := by
  obtain ⟨loaded, run', entries⟩ := swapout_loadTrace_ok conv text data
    ((swapout_loadTrace_ok_iff conv text data).mp ⟨pages, run⟩)
  rw [run] at run'
  cases run'
  rw [entries, trace.readRecords_eq, List.mapIdx_eq_mapIdx_iff]
  intro i hi
  obtain ⟨uid, pfn⟩ := trace.stored conv _ (List.getElem_mem hi)
  rw [uid, pfn]

theorem TraceText.opsRecords {ops : List PageMetadata}
    (run : SwapinTraceReader.loadTrace conv ⟨text, []⟩ = .ok ops) :
    ops.map (fun op => (op.uid.toInt, op.pfn.toInt)) = records := by
  rw [swapin_loadTrace_eq, trace.readRecords_eq] at run
  cases run
  rw [List.map_map]
  refine (List.map_congr_left fun record h => ?_).trans (List.map_id records)
  obtain ⟨uid, pfn⟩ := trace.stored conv record h
  exact Prod.ext uid pfn

end Whole

/-- A trace is loaded whole or refused. -/
structure LoadsWhole : Prop where
  swapout : (∃ pages, SwapoutTraceReader.loadTrace conv ⟨text, data, []⟩ = .ok pages) ↔
    ∃ records, TraceText text records ∧ 4096 * records.length ≤ data.length
  dataPages : ∀ pages records,
    SwapoutTraceReader.loadTrace conv ⟨text, data, []⟩ = .ok pages → TraceText text records →
      pages.map DataPage.entry =
        records.mapIdx fun i record => (record.1, record.2, slice data (4096 * i) 4096)
  swapin : (∃ ops, SwapinTraceReader.loadTrace conv ⟨text, []⟩ = .ok ops) ↔
    ∃ records, TraceText text records
  opsRecords : ∀ ops records,
    SwapinTraceReader.loadTrace conv ⟨text, []⟩ = .ok ops → TraceText text records →
      ops.map (fun op => (op.uid.toInt, op.pfn.toInt)) = records

/-- The readers keep to it exactly on texts that are a trace from end to end. On any other
text the swap-in reader returns 0 all the same, and the swap-out reader if the data last for
the records it has read. -/
theorem loadsWhole_iff : LoadsWhole conv text data ↔ ∃ records, TraceText text records := by
  constructor
  · intro h
    exact h.swapin.mp ⟨_, swapin_loadTrace_eq conv text⟩
  · intro whole
    obtain ⟨records, trace⟩ := whole
    refine ⟨?_, fun pages other run h => h.dataPages run, ?_, fun ops other run h =>
      h.opsRecords run⟩
    · rw [swapout_loadTrace_ok_iff, trace.readRecords_eq]
      constructor
      · exact fun enough => ⟨records, trace, enough⟩
      · intro loaded
        obtain ⟨other, h, enough⟩ := loaded
        rwa [trace.unique h] at enough
    · exact iff_of_true ⟨_, swapin_loadTrace_eq conv text⟩ ⟨records, trace⟩

/-- For the swap-out reader alone, data that are too short for the records it can read are as
good as a whole text: it refuses the trace. -/
theorem swapout_loadsWhole_iff :
    ((∃ pages, SwapoutTraceReader.loadTrace conv ⟨text, data, []⟩ = .ok pages) ↔
      ∃ records, TraceText text records ∧ 4096 * records.length ≤ data.length) ↔
    (∃ records, TraceText text records) ∨ data.length < 4096 * (readRecords text).length := by
  constructor
  · intro law
    rw [swapout_loadTrace_ok_iff] at law
    by_cases enough : 4096 * (readRecords text).length ≤ data.length
    · obtain ⟨records, trace, -⟩ := law.mp enough
      exact .inl ⟨records, trace⟩
    · exact .inr (Nat.not_le.mp enough)
  · intro either
    cases either with
    | inl whole => exact ((loadsWhole_iff conv text data).mpr whole).swapout
    | inr short =>
        rw [swapout_loadTrace_ok_iff]
        refine iff_of_false (Nat.not_le.mpr short) fun loaded => ?_
        obtain ⟨records, trace, enough⟩ := loaded
        rw [trace.readRecords_eq] at short
        omega

end Loading

/-- A record, and a line that breaks off after the uid: both readers return 0, with the one
record. -/
theorem loadsWhole_fails_truncated :
    (∃ pages, SwapoutTraceReader.loadTrace .truncating
      ⟨['1', ',', '7', '\n', '2'], zeroPage, []⟩ = .ok pages ∧ pages.length = 1) ∧
    (∃ ops, SwapinTraceReader.loadTrace .truncating ⟨['1', ',', '7', '\n', '2'], []⟩ = .ok ops) ∧
    ¬LoadsWhole .truncating ['1', ',', '7', '\n', '2'] zeroPage := by
  have first : fscanf ['1', ',', '7', '\n', '2'] = some ((1, 7), ['2']) := by decide
  have second : fscanf ['2'] = none := by decide
  have records : readRecords ['1', ',', '7', '\n', '2'] = [(1, 7)] := by
    rw [readRecords_step first, readRecords_stop second]
  refine ⟨?_, ⟨_, swapin_loadTrace_eq _ _⟩, fun law => ?_⟩
  · obtain ⟨trace, run, entries⟩ := swapout_loadTrace_ok .truncating
      ['1', ',', '7', '\n', '2'] zeroPage (by rw [records, length_zeroPage]; decide)
    have count := congrArg List.length entries
    rw [List.length_map, List.length_mapIdx, records] at count
    exact ⟨_, run, count⟩
  · obtain ⟨_, trace⟩ := law.swapin.mp ⟨_, swapin_loadTrace_eq _ _⟩
    cases trace with
    | nil blank => exact absurd (blank '1' (by decide)) (by decide)
    | cons read _ _ behind =>
        have step := (@fscanf_eq_some_iff _ _ (_, _)).mpr read
        rw [first] at step
        cases step
        cases behind with
        | nil blank => exact absurd (blank '2' (by decide)) (by decide)
        | cons read _ _ _ =>
            have step := (@fscanf_eq_some_iff _ _ (_, _)).mpr read
            rw [second] at step
            cases step

end MobilePIM
