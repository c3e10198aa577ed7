import MobilePIM.BaseDelta.Groups
import MobilePIM.Programs.Arguments
import MobilePIM.Zram.Replay

/-!
The three programs from their command lines to their ends. Files are what `fopen`
gives of them, and nothing writes to one. Only the buffer of a slot can be too large
to be allocated, as no other size is for the user to choose.
-/

namespace MobilePIM
open Getopt

inductive Mode
  | r | rbPlus
deriving DecidableEq, Repr

/-- The bytes of the file that `fopen` opens; nothing where it returns null. -/
structure Files where
  fopen : Mode → Word → Option (List UInt8)

/-- A null pointer is the name of no file. -/
def Files.opened (files : Files) (mode : Mode) (filename : Option Word) : Option (List UInt8) :=
  filename.bind (files.fopen mode)

/-- The bytes of a file as characters. -/
def asText (bytes : List UInt8) : List Char := bytes.map fun b => Char.ofNat b.toNat

/-- What the constructors of the readers do without a file. -/
def noTraceFile {α : Type} (filename : Option Word) : Program α :=
  .error (.exit ["Error opening trace file " ++ String.ofList (filename.getD [])])

def SwapoutTraceReader.new (files : Files) (traceFilename dataFilename : Option Word) :
    Program SwapoutTraceReader :=
  match files.opened .r traceFilename, files.opened .rbPlus dataFilename with
  | some text, some data => .ok ⟨asText text, data, []⟩
  | _, _ => noTraceFile traceFilename

def SwapinTraceReader.new (files : Files) (replayFile : Option Word) :
    Program SwapinTraceReader :=
  match files.opened .r replayFile with
  | some text => .ok ⟨asText text, []⟩
  | none => noTraceFile replayFile

/-- An error return of a function, after which `main` prints these lines and returns 1. -/
def orReturn {α : Type} (lines : List String) : Run α → Program α
  | .ok a => .ok a
  | .error (.errorReturn message) => .error (.exit (message :: lines))
  | .error stop => .error (.fault stop)

/-- What `main` of `EvalWriteCompressedFile.cpp` has built when it returns 0. -/
def EvalWriteCompressedFile.main (conv : IntConversion) (codec : Codec) (files : Files)
    (argv0 : Word) (words : List Word) : Program PackState := do
  let (s, comprAlg) ← parseArgs conv argv0 words
  let traceReader ← SwapoutTraceReader.new files s.traceFilename s.dataFilename
  let dataPages ← orReturn ["Error loading trace"] (traceReader.loadTrace conv)
  orReturn [] (PackState.swapOut codec comprAlg s.slotSize dataPages)

/-- What the two programs that read have built before they replay; only the delta program has
groups of pages. -/
structure Prepared where
  slots : PackState
  groups : Option Bd0State

/-- `main` of the two programs that read. They differ in their options and in what
`prepare_read_evaluation_env` does with the pages. -/
def readMain (rules : ArgumentRules)
    (prepare : Settings → CompressionAlgorithm → List DataPage → Run Prepared)
    (conv : IntConversion) (codec : Codec) (files : Files) (argv0 : Word) (words : List Word) :
    Program (Prepared × List Replayed) := do
  let (s, comprAlg) ← rules.parseArgs conv argv0 words
  let notPrepared := "Error preparing read evaluation environment"
  let traceReader ← SwapoutTraceReader.new files s.traceFilename s.dataFilename
  let dataPages ← orReturn ["Error loading trace", notPrepared] (traceReader.loadTrace conv)
  let prepared ← orReturn [notPrepared] (prepare s comprAlg dataPages)
  let swapinTraceReader ← SwapinTraceReader.new files s.replayFilename
  let swapinDataPages ← orReturn ["Error loading swapin trace"] (swapinTraceReader.loadTrace conv)
  let replayed ← orReturn [] (prepared.slots.replayLoop codec comprAlg swapinDataPages)
  .ok (prepared, replayed)

namespace EvalReadCompressedFile

/-- `prepare_read_evaluation_env`, once the trace is loaded. -/
def prepareReadEvaluationEnv (codec : Codec) (s : Settings) (comprAlg : CompressionAlgorithm)
    (dataPages : List DataPage) : Run Prepared := do
  let slots ← PackState.swapOut codec comprAlg s.slotSize dataPages
  .ok ⟨slots, none⟩

def main (conv : IntConversion) (codec : Codec) : Files → Word → List Word →
    Program (Prepared × List Replayed) :=
  readMain argumentRules (prepareReadEvaluationEnv codec) conv codec

end EvalReadCompressedFile

namespace Delta

/-- `prepare_read_evaluation_env` of the delta program: bd0 puts no page into a slot. -/
def prepareReadEvaluationEnv (std : DescendingSort) (codec : Codec) (s : Settings)
    (comprAlg : CompressionAlgorithm) (dataPages : List DataPage) : Run Prepared :=
  if s.compalg = 0 then do
    let slots ← PackState.swapOut codec comprAlg s.slotSize dataPages
    .ok ⟨slots, none⟩
  else do
    let groups ← bd0 std dataPages
    .ok ⟨.init s.slotSize, some groups⟩

def main (std : DescendingSort) (conv : IntConversion) (codec : Codec) : Files → Word →
    List Word → Program (Prepared × List Replayed) :=
  readMain argumentRules (prepareReadEvaluationEnv std codec) conv codec

end Delta

end MobilePIM
