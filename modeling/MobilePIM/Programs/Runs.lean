import Mathlib.Data.List.Find
import MobilePIM.Foundation.Returns
import MobilePIM.Programs.Main

/-!
Whole runs of the three programs, from the words of the command line and the
files to the slots and the answers. With the shipped libraries only the command
line, a file that is missing and a data file that is too short make a program exit
with 1, and only a slot that cannot be allocated makes it fault; what a replay gives
back are pages of the data file.
-/

namespace MobilePIM
open Bins Getopt Total

/-- An exit with code 1, and the reason there is one. -/
def Exits (reason : Prop) (e : Ending) : Prop := (∃ lines, e = .exit lines) ∧ reason

theorem Exits.mono {reason reason' : Prop} (imp : reason → reason') (e : Ending)
    (h : Exits reason e) : Exits reason' e := ⟨h.1, imp h.2⟩

/-- The swap-out files of a run and what is in them: enough data for the records of the text. -/
structure Loads (files : Files) (s : Settings) (text : List Char) (data : List UInt8) : Prop where
  traceFile : (files.opened .r s.traceFilename).map asText = some text
  dataFile : files.opened .rbPlus s.dataFilename = some data
  enough : 4096 * (readRecords text).length ≤ data.length

/-- The pages of a data file, each with the uid and the pfn of its record. -/
def filePages (conv : IntConversion) (text : List Char) (data : List UInt8) :
    List (Int × Int × List UInt8) :=
  (readRecords text).mapIdx fun i record =>
    ((conv.store record.1).toInt, (conv.store record.2).toInt, slice data (4096 * i) 4096)

/-- The slots after the pages have been swapped out, each page as the shipped library compresses
it: they store the bins of the lossy discipline, and the list has the first of them. -/
structure SwappedOut (alg : CompressionAlgorithm) (slotSize : UInt64)
    (pages : List (Int × Int × List UInt8)) (records : List Record) (st : PackState) : Prop where
  pages : records.map (fun r => r.dataPage.entry) = pages
  compressed : ∀ r ∈ records,
    alg.compressDataPage .vendored r.dataPage = .ok (some r.compressedPage)
  entries : st.heap.map ZRamBufferSlot.entries =
    (dropFit Record.size slotSize.toNat (intLoop records)).all.map (·.map Record.stored)
  slotList : st.slotList =
    List.range (PackState.listedSlots (dropFit Record.size slotSize.toNat (intLoop records)))

/-- A store to the null pointer that stands for the buffer of a slot, and the reason for it. -/
def StoresToNull (reason : Prop) (e : Ending) : Prop :=
  e = .fault (.badStore .slotBuf 0) ∧ reason

section Steps

variable (conv : IntConversion) (files : Files) (argv0 : Word) (words : List Word)

theorem ends_parseArgs (rules : ArgumentRules) :
    Ends (rules.parseArgs conv argv0 words) (fun r => rules.parseArgs conv argv0 words = .ok r)
      (Exits (∀ r, rules.parseArgs conv argv0 words ≠ .ok r)) := by
  obtain ⟨options, whole, read⟩ := exists_commandLine rules.optstring words
  rw [rules.parseArgs_of conv argv0 read]
  cases options.find? (NamesNone rules.bd0) with
  | some o => exact Ends.error ⟨⟨_, rfl⟩, nofun⟩
  | none =>
      cases whole with
      | true => exact Ends.ok rfl
      | false => exact Ends.error ⟨⟨_, rfl⟩, nofun⟩

theorem ends_swapoutNew (s : Settings) :
    Ends (SwapoutTraceReader.new files s.traceFilename s.dataFilename)
      (fun reader => ∃ text data, (files.opened .r s.traceFilename).map asText = some text ∧
        files.opened .rbPlus s.dataFilename = some data ∧ reader = ⟨text, data, []⟩)
      (Exits (∀ text data, ¬Loads files s text data)) := by
  unfold SwapoutTraceReader.new
  split
  · rename_i text data trace_opened data_opened
    exact Ends.ok ⟨asText text, data, by rw [trace_opened]; rfl, data_opened, rfl⟩
  · rename_i missing
    refine Ends.error ⟨⟨_, rfl⟩, fun text data loads => ?_⟩
    obtain ⟨bytes, trace_opened, -⟩ := Option.map_eq_some_iff.mp loads.traceFile
    exact missing bytes data trace_opened loads.dataFile

/-- The pages of a trace are loaded or the program exits. -/
theorem ends_loadTrace (lines : List String) {s : Settings} {text : List Char} {data : List UInt8}
    (trace_opened : (files.opened .r s.traceFilename).map asText = some text)
    (data_opened : files.opened .rbPlus s.dataFilename = some data) :
    Ends (orReturn lines (SwapoutTraceReader.loadTrace conv ⟨text, data, []⟩))
      (fun dataPages => Loads files s text data ∧ ∃ trace : SwapoutTrace,
        dataPages = trace.dataPages ∧
          trace.dataPages.map DataPage.entry = filePages conv text data)
      (Exits (∀ text data, ¬Loads files s text data)) := by
  by_cases enough : 4096 * (readRecords text).length ≤ data.length
  · obtain ⟨trace, run, entries⟩ := swapout_loadTrace_ok conv text data enough
    rw [run]
    exact Ends.ok ⟨⟨trace_opened, data_opened, enough⟩, trace, rfl, entries⟩
  · obtain ⟨message, stop⟩ := onRecord_error conv (readRecords text) ⟨data, [], 1⟩
      (Nat.not_le.mp enough)
    rw [swapout_loadTrace_eq, stop]
    refine Ends.error ⟨⟨_, rfl⟩, fun text' data' loads => ?_⟩
    obtain rfl := Option.some.inj (trace_opened.symm.trans loads.traceFile)
    obtain rfl := Option.some.inj (data_opened.symm.trans loads.dataFile)
    exact enough loads.enough

/-- The trace is loaded, and the program goes on with its pages, or it exits. -/
theorem ends_loaded {α : Type} {lines : List String} {s : Settings}
    {next : List DataPage → Program α} {post : α → Prop} {fails : Ending → Prop}
    (exits : ∀ e, Exits (∀ text data, ¬Loads files s text data) e → fails e)
    (rest : ∀ text data, ∀ trace : SwapoutTrace, Loads files s text data →
      trace.dataPages.map DataPage.entry = filePages conv text data →
      Ends (next trace.dataPages) post fails) :
    Ends (do
      let traceReader ← SwapoutTraceReader.new files s.traceFilename s.dataFilename
      let dataPages ← orReturn lines (traceReader.loadTrace conv)
      next dataPages) post fails := by
  refine Ends.bind ((ends_swapoutNew files s).mono (fun _ => id) exits) ?_
  intro reader opened
  obtain ⟨text, data, trace_opened, data_opened, rfl⟩ := opened
  refine Ends.bind
    ((ends_loadTrace conv files lines trace_opened data_opened).mono (fun _ => id) exits) ?_
  intro dataPages loaded
  obtain ⟨loads, trace, rfl, entries⟩ := loaded
  exact rest text data trace loads entries

theorem not_loads_of_accepted {rules : ArgumentRules} {s : Settings}
    {comprAlg : CompressionAlgorithm}
    (accepted : rules.parseArgs conv argv0 words = .ok (s, comprAlg))
    (refused : ∀ text data, ¬Loads files s text data) :
    ∀ s comprAlg text data, rules.parseArgs conv argv0 words = .ok (s, comprAlg) →
      ¬Loads files s text data := by
  intro s' comprAlg' text data accepted'
  cases accepted.symm.trans accepted'
  exact refused text data

theorem swapoutNew_ok {files : Files} {s : Settings} {text : List Char} {data : List UInt8}
    (loads : Loads files s text data) :
    SwapoutTraceReader.new files s.traceFilename s.dataFilename = .ok ⟨text, data, []⟩ := by
  obtain ⟨bytes, trace_opened, rfl⟩ := Option.map_eq_some_iff.mp loads.traceFile
  simp only [SwapoutTraceReader.new, trace_opened, loads.dataFile]

theorem swapinNew_ok {files : Files} {filename : Option Word} {text : List Char}
    (opened : (files.opened .r filename).map asText = some text) :
    SwapinTraceReader.new files filename = .ok ⟨text, []⟩ := by
  obtain ⟨bytes, file_opened, rfl⟩ := Option.map_eq_some_iff.mp opened
  simp only [SwapinTraceReader.new, file_opened]

theorem ends_swapinNew (filename : Option Word) :
    Ends (SwapinTraceReader.new files filename)
      (fun reader => ∃ text, (files.opened .r filename).map asText = some text ∧
        reader = ⟨text, []⟩)
      (Exits ((files.opened .r filename).map asText = none)) := by
  unfold SwapinTraceReader.new
  cases files.opened .r filename with
  | some text => exact Ends.ok ⟨asText text, rfl, rfl⟩
  | none => exact Ends.error ⟨⟨_, rfl⟩, rfl⟩

end Steps

theorem ends_swapOut (alg : CompressionAlgorithm) (slotSize : UInt64) (trace : SwapoutTrace) :
    Ends (PackState.swapOut .vendored alg slotSize trace.dataPages)
      (fun st => (MallocSucceeds slotSize ∨ trace.dataPages = []) ∧
        ∃ records, SwappedOut alg slotSize (trace.dataPages.map DataPage.entry) records st ∧
          ∀ ops, Returns (st.replayLoop .vendored alg ops) fun replayed =>
            List.Forall₂ (PackState.Answers
              (dropFit Record.size slotSize.toNat (intLoop records)).all.flatten)
              (intLoop ops) replayed)
      (fun stop => stop = .badStore .slotBuf 0 ∧ ¬MallocSucceeds slotSize ∧
        trace.dataPages ≠ []) := by
  obtain ⟨records, compresses⟩ := compresses_vendored alg trace.full
  by_cases fine : MallocSucceeds slotSize ∨ trace.dataPages = []
  · obtain ⟨st, refines, -, run⟩ :=
      PackState.prepareReadEvaluationEnv_refines slotSize compresses.visited
    rw [PackState.swapOut_eq fine, run]
    refine Ends.ok ⟨fine, records, ⟨?_, compresses.compressed, refines.heap_entries, rfl⟩,
      fun ops => ?_⟩
    · rw [← compresses.pages, List.map_map]
      rfl
    · rw [← refines.accepted]
      exact refines.replayLoop_answers Codec.vendored_roundTrips compresses.visited (intLoop ops)
  · rw [not_or] at fine
    rw [PackState.swapOut_null compresses fine.1 fine.2]
    exact Ends.error ⟨rfl, fine⟩

theorem EvalReadCompressedFile.ends_prepare (s : Settings) (comprAlg : CompressionAlgorithm)
    (trace : SwapoutTrace) :
    Ends (prepareReadEvaluationEnv .vendored s comprAlg trace.dataPages)
      (fun prepared => (MallocSucceeds s.slotSize ∨ trace.dataPages = []) ∧ ∃ records,
        SwappedOut comprAlg s.slotSize (trace.dataPages.map DataPage.entry) records
          prepared.slots ∧
        ∀ ops, Returns (prepared.slots.replayLoop .vendored comprAlg ops) fun replayed =>
          List.Forall₂ (PackState.Answers
            (dropFit Record.size s.slotSize.toNat (intLoop records)).all.flatten)
            (intLoop ops) replayed)
      (fun stop => stop = .badStore .slotBuf 0 ∧ ¬MallocSucceeds s.slotSize ∧
        trace.dataPages ≠ []) := by
  refine Ends.bind (ends_swapOut comprAlg s.slotSize trace) ?_
  intro slots swapped
  exact Ends.ok swapped

theorem ends_orReturn {α : Type} {lines : List String} {m : Run α} {post : α → Prop}
    {reason : Prop} (h : Ends m post fun stop => stop = .badStore .slotBuf 0 ∧ reason) :
    Ends (orReturn lines m) post (StoresToNull reason) := by
  cases m with
  | ok a => exact h
  | error stop =>
      obtain ⟨rfl, why⟩ := h
      exact ⟨rfl, why⟩

theorem dataPages_eq_nil_iff {trace : SwapoutTrace} {conv : IntConversion} {text : List Char}
    {data : List UInt8}
    (entries : trace.dataPages.map DataPage.entry = filePages conv text data) :
    trace.dataPages = [] ↔ readRecords text = [] := by
  have count := congrArg List.length entries
  rw [List.length_map, filePages, List.length_mapIdx] at count
  rw [← List.length_eq_zero_iff, count, List.length_eq_zero_iff]

section Programs

variable (conv : IntConversion) (files : Files) (argv0 : Word) (words : List Word)

/-- The program that writes: its slots store pages of the data file, or it exits for want of a
command line it accepts or of files it can load, or it has a page for a slot that cannot be
allocated. -/
theorem EvalWriteCompressedFile.main_swapsOut :
    Ends (main conv .vendored files argv0 words)
      (fun st => ∃ s comprAlg text data records,
        parseArgs conv argv0 words = .ok (s, comprAlg) ∧ Loads files s text data ∧
        (MallocSucceeds s.slotSize ∨ readRecords text = []) ∧
        SwappedOut comprAlg s.slotSize (filePages conv text data) records st)
      (fun e =>
        Exits (∀ s comprAlg text data, parseArgs conv argv0 words = .ok (s, comprAlg) →
          ¬Loads files s text data) e ∨
        StoresToNull (∃ s comprAlg text data, parseArgs conv argv0 words = .ok (s, comprAlg) ∧
          Loads files s text data ∧ ¬MallocSucceeds s.slotSize ∧ readRecords text ≠ []) e) := by
  refine Ends.bind ((ends_parseArgs conv argv0 words argumentRules).mono (fun _ => id)
    fun e exits => Or.inl (exits.mono ?_)) ?_
  · exact fun refused s comprAlg _ _ accepted => absurd accepted (refused (s, comprAlg))
  intro (s, comprAlg) accepted
  refine ends_loaded conv files (fun e exits => Or.inl (exits.mono ?_)) ?_
  · exact not_loads_of_accepted conv files argv0 words accepted
  intro text data trace loads entries
  have no_pages := dataPages_eq_nil_iff entries
  refine (ends_orReturn (ends_swapOut comprAlg s.slotSize trace)).mono ?_ ?_
  · rintro st ⟨fine, records, swapped, -⟩
    exact ⟨s, comprAlg, text, data, records, accepted, loads, fine.imp_right no_pages.mp,
      entries ▸ swapped⟩
  · rintro e ⟨fault, refused, some_pages⟩
    exact Or.inr ⟨fault, s, comprAlg, text, data, accepted, loads, refused,
      mt no_pages.mpr some_pages⟩

/-- The operation records of a replay file. -/
def replayRecords (conv : IntConversion) (text : List Char) : List PageMetadata :=
  (readRecords text).map fun record =>
    { pfn := conv.store record.2, uid := conv.store record.1 }

/-- The program that reads: each record of the replay file that is visited is answered with a page
of its frame out of the slots, as it was in the data file, unless they have none. It exits for want
of a command line it accepts or of one of the three files, and faults as the other program does. -/
theorem EvalReadCompressedFile.main_answers :
    Ends (main conv .vendored files argv0 words)
      (fun (prepared, replayed) => ∃ s comprAlg text data replayText records,
        parseArgs conv argv0 words = .ok (s, comprAlg) ∧ Loads files s text data ∧
        (files.opened .r s.replayFilename).map asText = some replayText ∧
        (MallocSucceeds s.slotSize ∨ readRecords text = []) ∧
        SwappedOut comprAlg s.slotSize (filePages conv text data) records prepared.slots ∧
        List.Forall₂ (PackState.Answers
          (dropFit Record.size s.slotSize.toNat (intLoop records)).all.flatten)
          (intLoop (replayRecords conv replayText)) replayed)
      (fun e =>
        Exits (∀ s comprAlg text data, parseArgs conv argv0 words = .ok (s, comprAlg) →
          Loads files s text data → (files.opened .r s.replayFilename).map asText = none) e ∨
        StoresToNull (∃ s comprAlg text data, parseArgs conv argv0 words = .ok (s, comprAlg) ∧
          Loads files s text data ∧ ¬MallocSucceeds s.slotSize ∧ readRecords text ≠ []) e) := by
  refine Ends.bind ((ends_parseArgs conv argv0 words argumentRules).mono (fun _ => id)
    fun e exits => Or.inl (exits.mono ?_)) ?_
  · exact fun refused s comprAlg _ _ accepted => absurd accepted (refused (s, comprAlg))
  intro (s, comprAlg) accepted
  refine ends_loaded conv files (fun e exits => Or.inl (exits.mono ?_)) ?_
  · exact fun refused s' comprAlg' text data accepted' loads => absurd loads
      (not_loads_of_accepted conv files argv0 words accepted refused s' comprAlg' text data
        accepted')
  intro text data trace loads entries
  have no_pages := dataPages_eq_nil_iff entries
  refine Ends.bind ((ends_orReturn (ends_prepare s comprAlg trace)).mono (fun _ => id) ?_) ?_
  · rintro e ⟨fault, refused, some_pages⟩
    exact Or.inr ⟨fault, s, comprAlg, text, data, accepted, loads, refused,
      mt no_pages.mpr some_pages⟩
  rintro ⟨slots, groups⟩ ⟨fine, records, swapped, replays⟩
  rw [entries] at swapped
  refine Ends.bind ((ends_swapinNew files s.replayFilename).mono (fun _ => id)
    fun e exits => Or.inl (exits.mono ?_)) ?_
  · intro missing s' comprAlg' _ _ accepted' _
    cases accepted.symm.trans accepted'
    exact missing
  intro reader opened
  obtain ⟨replayText, replay_opened, rfl⟩ := opened
  rw [swapin_loadTrace_eq]
  refine Ends.bind (Ends.ok rfl : Ends _ (· = replayRecords conv replayText) _) ?_
  rintro _ rfl
  obtain ⟨replayed, run, answers⟩ := replays (replayRecords conv replayText)
  rw [run]
  exact Ends.ok ⟨s, comprAlg, text, data, replayText, records, accepted, loads, replay_opened,
    fine.imp_right no_pages.mp, swapped, answers⟩

end Programs

namespace Delta

variable {conv : IntConversion} {files : Files} {argv0 : Word} {words : List Word}

theorem replayLoop_init (codec : Codec) (alg : CompressionAlgorithm) (slotSize : UInt64)
    (ops : List PageMetadata) : (PackState.init slotSize).replayLoop codec alg ops =
      .ok ((intLoop ops).map fun _ => .skipped) := by
  have skips : ∀ op, PackState.replayPage codec alg (.init slotSize) op = .ok .skipped := by
    intro op
    rw [PackState.replayPage, PackState.init, Std.TreeMap.getElem?_emptyc]
  rw [PackState.replayLoop]
  induction intLoop ops with
  | nil => rfl
  | cons op ops ih =>
      rw [List.mapM_cons, skips, ih]
      rfl

theorem groupBytes_filePages {trace : SwapoutTrace} {text : List Char} {data : List UInt8}
    (entries : trace.dataPages.map DataPage.entry = filePages conv text data) {i : Nat}
    (inside : 3 * (i + 1) ≤ trace.dataPages.length) :
    groupBytes trace.dataPages i = slice data (12288 * i) 12288 := by
  have page : ∀ k (h : k < trace.dataPages.length),
      trace.dataPages[k].contents = slice data (4096 * k) 4096 := by
    intro k h
    have entry := List.getElem_of_eq entries (by rw [List.length_map]; exact h)
    simp only [List.getElem_map, filePages, List.getElem_mapIdx] at entry
    exact congrArg (fun e : Int × Int × List UInt8 => e.2.2) entry
  rw [groupBytes, List.drop_eq_getElem_cons (by omega), List.drop_eq_getElem_cons (by omega),
    List.drop_eq_getElem_cons (by omega), List.take_succ_cons, List.take_succ_cons,
    List.take_succ_cons, List.take_zero]
  have cut := Memory.slice_add data (12288 * i) 4096 (4096 + 4096)
  rw [Memory.slice_add data (12288 * i + 4096)] at cut
  simp only [List.flatMap_cons, List.flatMap_nil, List.append_nil, page]
  rw [show 4096 * (3 * i) = 12288 * i by omega,
    show 4096 * (3 * i + 1) = 12288 * i + 4096 by omega,
    show 4096 * (3 * i + 1 + 1) = 12288 * i + 4096 + 4096 by omega]
  exact cut.symm

theorem bd0_cases (std : DescendingSort) {trace : SwapoutTrace} {text : List Char}
    {data : List UInt8} (entries : trace.dataPages.map DataPage.entry = filePages conv text data)
    (below : (readRecords text).length < 2 ^ 32) :
    if 0 < (readRecords text).length ∧ ∀ i < (readRecords text).length / 3,
        8 ≤ distinctBases 6 (wordsLE (slice data (12288 * i) 12288)) then
      ∃ groups, bd0 std trace.dataPages = .ok groups
    else ∃ stop, bd0 std trace.dataPages = .error stop ∧
      (stop = .divideByZero ∨ ∃ n, stop = .badRead .topBases n) := by
  have count := congrArg List.length entries
  rw [List.length_map, filePages, List.length_mapIdx] at count
  rw [← count] at below ⊢
  split
  · rename_i enough
    rw [bd0_eq below (Nat.ne_of_gt enough.1)]
    refine (Bd0State.foldlM_ok_iff below (by omega)).mpr fun i inside => ?_
    rw [groupBytes_filePages entries (by omega)]
    exact enough.2 i inside
  · rename_i poor
    by_cases nonempty : 0 < trace.dataPages.length
    · simp only [nonempty, true_and, not_forall, Nat.not_le] at poor
      obtain ⟨i, inside, few⟩ := poor
      rw [← groupBytes_filePages entries (by omega)] at few
      obtain ⟨n, stop⟩ := bd0_fewBases below (by omega) few
      exact ⟨_, stop, Or.inr ⟨n, rfl⟩⟩
    · refine ⟨.divideByZero, ?_, Or.inl rfl⟩
      rw [bd0, if_pos (Nat.eq_zero_of_not_pos nonempty)]

section Bd0

variable {s : Settings} {comprAlg : CompressionAlgorithm} {text replayText : List Char}
  {data : List UInt8}

/-- With bd0 the delta program runs to its end, without an access outside an object and without a
division by zero, exactly when there is a page and each group of three has eight distinct bases. It
answers no record of the replay file. -/
theorem main_bd0 (std : DescendingSort) (codec : Codec)
    (accepted : argumentRules.parseArgs conv argv0 words = .ok (s, comprAlg))
    (chosen : s.compalg ≠ 0) (loads : Loads files s text data)
    (replay_opened : (files.opened .r s.replayFilename).map asText = some replayText)
    (below : (readRecords text).length < 2 ^ 32) :
    if 0 < (readRecords text).length ∧ ∀ i < (readRecords text).length / 3,
        8 ≤ distinctBases 6 (wordsLE (slice data (12288 * i) 12288)) then
      ∃ prepared, main std conv codec files argv0 words =
        .ok (prepared, (intLoop (readRecords replayText)).map fun _ => .skipped)
    else ∃ stop, main std conv codec files argv0 words = .error (.fault stop) ∧
      (stop = .divideByZero ∨ ∃ n, stop = .badRead .topBases n) := by
  obtain ⟨trace, loaded, entries⟩ := swapout_loadTrace_ok conv text data loads.enough
  have run : main std conv codec files argv0 words =
      orReturn ["Error preparing read evaluation environment"] (bd0 std trace.dataPages) >>=
        fun groups => .ok (⟨.init s.slotSize, some groups⟩,
          (intLoop (readRecords replayText)).map fun _ => .skipped) := by
    have replays := replayLoop_init codec comprAlg s.slotSize (replayRecords conv replayText)
    rw [intLoop, replayRecords, ← List.map_take, List.map_map] at replays
    unfold main readMain
    rw [accepted]
    simp only [swapoutNew_ok loads, swapinNew_ok replay_opened, loaded, swapin_loadTrace_eq,
      prepareReadEvaluationEnv, if_neg chosen, orReturn, bind, Except.bind]
    cases bd0 std trace.dataPages with
    | ok groups =>
        simp only [replays]
        rfl
    | error stop => cases stop <;> rfl
  have ends := bd0_cases std entries below
  rw [run]
  split at ends
  · rename_i enough
    obtain ⟨groups, done⟩ := ends
    rw [if_pos enough, done]
    exact ⟨_, rfl⟩
  · rename_i poor
    obtain ⟨stop, fault, kind⟩ := ends
    rw [if_neg poor, fault]
    rcases kind with rfl | ⟨n, rfl⟩
    · exact ⟨_, rfl, Or.inl rfl⟩
    · exact ⟨_, rfl, Or.inr ⟨n, rfl⟩⟩

end Bd0

/-- A trace of three records, which are replayed as well, and their pages. -/
def sampleText : List Char := ['1', ',', '7', '\n', '1', ',', '8', '\n', '1', ',', '9', '\n']

def sampleFiles (data : List UInt8) : Files where
  fopen _ name := if name = ['t'] then some (sampleText.map fun c => UInt8.ofNat c.toNat)
    else some data

theorem readRecords_sampleText : readRecords sampleText = [(1, 7), (1, 8), (1, 9)] := by
  have first : fscanf sampleText = some ((1, 7), sampleText.drop 4) := by decide
  have second : fscanf (sampleText.drop 4) = some ((1, 8), sampleText.drop 8) := by decide
  have third : fscanf (sampleText.drop 8) = some ((1, 9), []) := by decide
  rw [readRecords_step first, readRecords_step second, readRecords_step third,
    readRecords_stop (by decide)]

def bd0Words : List Word :=
  [['-', 'c', 'b', 'd', '0'], ['-', 't'], ['t'], ['-', 'f'], ['d'], ['-', 'r'], ['t']]

theorem asText_sampleText : asText (sampleText.map fun c => UInt8.ofNat c.toNat) = sampleText := by
  decide

/-- Eight words of different bases, as they lie in a file. -/
def spreadBytes : List UInt8 := (List.range 8).flatMap fun i => [0, UInt8.ofNat i, 0, 0]

def spreadPages : List UInt8 := spreadBytes ++ List.replicate 12256 0

def zeroPages : List UInt8 := List.replicate 12288 0

theorem length_spreadPages : spreadPages.length = 12288 := by
  rw [spreadPages, List.length_append, List.length_replicate]
  rfl

theorem distinctBases_spreadPages : 8 ≤ distinctBases 6 (wordsLE spreadPages) := by
  have split (rest : List UInt8) : wordsLE (spreadBytes ++ rest) =
      wordsLE spreadBytes ++ wordsLE rest := rfl
  have spread : 8 ≤ distinctBases 6 (wordsLE spreadBytes) := by decide
  rw [spreadPages, split]
  exact spread.trans (distinctBases_le_append _ _)

theorem length_zeroPages : zeroPages.length = 12288 := List.length_replicate

theorem wordsLE_zeros (n : Nat) : wordsLE (List.replicate (4 * n) 0) = List.replicate n 0 := by
  induction n with
  | zero => rfl
  | succ n ih =>
      rw [List.replicate_succ (n := n), ← ih]
      rfl

theorem distinctBases_zeroPages : distinctBases 6 (wordsLE zeroPages) = 1 := by
  rw [zeroPages, show 12288 = 4 * 3072 from rfl, wordsLE_zeros]
  exact distinctBases_replicate 3072 0 (by decide)

/-- One group of three pages, with enough bases and with one. -/
theorem main_bd0_threePages :
    (∃ prepared, main .merge .truncating .vendored (sampleFiles spreadPages) ['d'] bd0Words =
      .ok (prepared, List.replicate 3 .skipped)) ∧
    ∃ stop, main .merge .truncating .vendored (sampleFiles zeroPages) ['d'] bd0Words =
      .error (.fault stop) ∧ (stop = .divideByZero ∨ ∃ n, stop = .badRead .topBases n) := by
  have read : CommandLine argumentRules.optstring bd0Words
      [('c', bd0Name), ('t', ['t']), ('f', ['d']), ('r', ['t'])] true :=
    .attached (by decide) (by decide) (.separate (by decide) (.separate (by decide)
      (.separate (by decide) .nil)))
  have accepted := argumentRules.parseArgs_of .truncating ['d'] read
  have opened := congrArg some asText_sampleText
  have loads (data : List UInt8) (whole : data.length = 12288) : Loads (sampleFiles data)
      (settingsOf .truncating [('c', bd0Name), ('t', ['t']), ('f', ['d']), ('r', ['t'])])
      sampleText data :=
    ⟨opened, rfl, by rw [readRecords_sampleText, whole]; decide⟩
  have ends (data : List UInt8) (whole : data.length = 12288) :=
    main_bd0 .merge .vendored accepted (by decide) (loads data whole) opened
      (by rw [readRecords_sampleText]; decide)
  have group (data : List UInt8) (whole : data.length = 12288) :
      (0 < (readRecords sampleText).length ∧ ∀ i < (readRecords sampleText).length / 3,
        8 ≤ distinctBases 6 (wordsLE (slice data (12288 * i) 12288))) ↔
      8 ≤ distinctBases 6 (wordsLE data) := by
    have first : slice data 0 12288 = data := List.take_of_length_le whole.le
    rw [readRecords_sampleText]
    constructor
    · intro all
      have enough := all.2 0 (by decide)
      rwa [Nat.mul_zero, first] at enough
    · refine fun enough => ⟨by decide, fun i inside => ?_⟩
      obtain rfl : i = 0 := Nat.lt_one_iff.mp inside
      rwa [Nat.mul_zero, first]
  have spread := ends spreadPages length_spreadPages
  have zeros := ends zeroPages length_zeroPages
  rw [if_pos ((group _ length_spreadPages).mpr distinctBases_spreadPages)] at spread
  rw [if_neg (mt (group _ length_zeroPages).mp (by rw [distinctBases_zeroPages]; decide))] at zeros
  rw [readRecords_sampleText] at spread
  exact ⟨spread, zeros⟩

end Delta

end MobilePIM
