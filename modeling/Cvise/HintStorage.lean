import Cvise.ExceptionTriple
import Cvise.Hint
import Mathlib.Logic.Function.Basic

namespace Cvise
set_option autoImplicit true

def formatName : Str := "cvise_hints_v0".toList

structure BundlePreamble where
  format : Str
  passName : Str := []
  passUserVisibleName : Str := []
deriving DecidableEq

def makePreamble (b : HintBundle) : BundlePreamble := ⟨formatName, b.passName, b.passUserVisibleName⟩

/-- What is encoded as one JSON object. -/
inductive JsonValue where
  | preamble (p : BundlePreamble)
  | vocabulary (v : List Str)
  | hint (h : Hint)
deriving DecidableEq

/-- What is used from msgspec and zstandard, `repr` of a string, and what text files are decoded with. A
decoder answers with its message when it fails, and a failing encoder leaves something in the buffer. -/
structure StorageLibrary where
  encode : JsonValue → Option Str
  leftover : JsonValue → Bytes → Bytes
  decodePreamble : Str → Except Str BundlePreamble
  decodeVocabulary : Str → Except Str (List Str)
  decodeHint : Str → Except Str Hint
  compress : List Bytes → Bytes
  decompress : Bytes → Option Bytes
  decodeText : Bytes → Option Str
  repr : Str → Str

/-- The documented behaviour: an encoded object has no raw newline and decodes back, also with a
newline after it, and the compression of what is written in chunks is lossless. The encoding of text
files is UTF-8, which is what the locale says. -/
structure StorageLibrary.Documented (lib : StorageLibrary) : Prop where
  one_line : ∀ v t, lib.encode v = some t → ∀ c ∈ t, c ≠ '\n' ∧ c ≠ '\r'
  preamble : ∀ p t, lib.encode (.preamble p) = some t → lib.decodePreamble (t ++ ['\n']) = .ok p
  vocabulary : ∀ v t, lib.encode (.vocabulary v) = some t → lib.decodeVocabulary (t ++ ['\n']) = .ok v
  hint : ∀ h t, lib.encode (.hint h) = some t → lib.decodeHint (t ++ ['\n']) = .ok h
  lossless : ∀ chunks, lib.decompress (lib.compress chunks) = some chunks.flatten
  utf8 : ∀ text, lib.decodeText (Cvise.encode text) = some text

/-- How the writes to one file go: whether it can be opened, after how many writes there is no space
left, whether it can be closed, and what the file is if the call raises. -/
structure Disk where
  opens : Bool := true
  fullAfter : Option Nat := none
  closes : Bool := true
  remains : Option Bytes := none

/-- The shared buffer and what the open file got so far. -/
structure HintWriter where
  buf : Bytes
  chunks : List Bytes := []

abbrev WriterM (α : Type) := EStateM PyErr HintWriter α

/-- Chunks of this or greater size are given to the compression. -/
def writeBuffer : Nat := 2 ^ 18

/-- `encoder.encode_into(value, buf, offset)`, without an offset at the end of the buffer. -/
def encodeInto (lib : StorageLibrary) (v : JsonValue) (offset : Option Nat) : WriterM Unit := fun w =>
  match lib.encode v with
  | some t => .ok () { w with buf := w.buf.take (offset.getD w.buf.length) ++ encode t }
  | none => .error .other { w with buf := lib.leftover v w.buf }

/-- `buf.append(newline)`. -/
def appendNewline : WriterM Unit := modify fun w => { w with buf := w.buf ++ [10] }

/-- `f.write(buf)`. -/
def writeBuf (disk : Disk) : WriterM Unit := fun w =>
  if disk.fullAfter = some w.chunks.length then .error .osError w
  else .ok () { w with chunks := w.chunks ++ [w.buf] }

/-- `[s.decode() for s in bundle.vocabulary]`. -/
def decodeWords (vocabulary : List Bytes) : WriterM (List Str) :=
  match vocabulary.mapM decode with
  | some words => pure words
  | none => throw .unicodeDecodeError

def storeHint (lib : StorageLibrary) (disk : Disk) (h : Hint) : WriterM Unit := do
  if (← get).buf.length ≤ writeBuffer then encodeInto lib (.hint h) none
  else
    writeBuf disk
    encodeInto lib (.hint h) (some 0)
  appendNewline

def storeAll (lib : StorageLibrary) (disk : Disk) : List Hint → WriterM Unit
  | [] => pure ()
  | h :: hs => do
    storeHint lib disk h
    storeAll lib disk hs

/-- The block of `store_hints` that writes to the open file. -/
def writeHints (lib : StorageLibrary) (disk : Disk) (bundle : HintBundle) : WriterM Unit := do
  encodeInto lib (.preamble (makePreamble bundle)) (some 0)
  appendNewline
  let words ← decodeWords bundle.vocabulary
  encodeInto lib (.vocabulary words) none
  appendNewline
  storeAll lib disk bundle.hints
  writeBuf disk

/-- `_encoding_buf`, once it is initialized, and the files with what they contain. -/
structure HintStorage where
  encodingBuf : Option Bytes := none
  files : RelPath → Option Bytes := fun _ => none

/-- A call of `store_hints`. -/
structure StoreCall where
  bundle : HintBundle
  path : RelPath
  disk : Disk := {}

def storeHints (lib : StorageLibrary) (s : HintStorage) (c : StoreCall) : Except PyErr Unit × HintStorage :=
  let buf := s.encodingBuf.getD []
  if c.disk.opens then
    match writeHints lib c.disk c.bundle { buf := buf } with
    | .error e w => (.error e, ⟨some w.buf, Function.update s.files c.path c.disk.remains⟩)
    | .ok _ w =>
      if c.disk.closes then
        (.ok (), ⟨some w.buf, Function.update s.files c.path (some (lib.compress w.chunks))⟩)
      else (.error .osError, ⟨some w.buf, Function.update s.files c.path c.disk.remains⟩)
  else (.error .osError, { s with encodingBuf := some buf })

/-- What a sequence of calls leaves, whether they raise or not. -/
def storeSequence (lib : StorageLibrary) (s : HintStorage) (calls : List StoreCall) : HintStorage :=
  calls.foldl (fun s c => (storeHints lib s c).2) s

def suffix (path : RelPath) : Str :=
  let name := path.getLast?.getD []
  let ext := (name.reverse.takeWhile (· ≠ '.')).reverse
  if ext ≠ [] ∧ ext.length + 1 < name.length then '.' :: ext else []

/-- What reading in text mode makes of the line ends. -/
def universalNewlines : Str → Str
  | '\r' :: '\n' :: rest => '\n' :: universalNewlines rest
  | '\r' :: rest => '\n' :: universalNewlines rest
  | c :: rest => c :: universalNewlines rest
  | [] => []

def textLines : Str → List Str
  | [] => []
  | c :: rest =>
    if c = '\n' then [c] :: textLines rest
    else match textLines rest with
      | [] => [[c]]
      | line :: lines => (c :: line) :: lines

def tryParseJsonLine (text : Str) (decoder : Str → Except Str α) : Except PyErr α :=
  match decoder text with
  | .ok v => .ok v
  | .error e => .error (.runtimeError
      ("Failed to decode line \"".toList ++ text ++ "\": ".toList ++ e))

/-- `next(f)`. -/
def nextLine : List Str → Except PyErr (Str × List Str)
  | [] => .error .other
  | line :: lines => .ok (line, lines)

def linesRange (lines : List Str) (beginIndex endIndex : Option Nat) : Except PyErr (List Str) :=
  let start := beginIndex.getD 0
  if lines.length < start then .error .other
  else match endIndex with
    | none => .ok (lines.drop start)
    | some stop =>
      if (lines.drop start).length < stop - start then .error .other
      else .ok ((lines.drop start).take (stop - start))

/-- The text that a file is opened for reading with. -/
def openText (lib : StorageLibrary) (s : HintStorage) (path : RelPath) : Except PyErr Str :=
  match s.files path with
  | none => .error .fileNotFoundError
  | some contents =>
    match if suffix path = ".zst".toList then lib.decompress contents else some contents with
    | none => .error .other
    | some data =>
      match lib.decodeText data with
      | none => .error .unicodeDecodeError
      | some text => .ok (universalNewlines text)

def loadHints (lib : StorageLibrary) (s : HintStorage) (path : RelPath)
    (beginIndex endIndex : Option Nat) : Except PyErr HintBundle := do
  if beginIndex ≠ none ∧ endIndex ≠ none ∧ ¬ beginIndex.getD 0 < endIndex.getD 0 then
    throw .assertionError
  let lines := textLines (← openText lib s path)
  let (line, lines) ← nextLine lines
  let preamble ← tryParseJsonLine line lib.decodePreamble
  if preamble.format ≠ formatName then
    throw (.runtimeError ("Failed to parse hint bundle preamble: expected format \"".toList ++
      formatName ++ "\", instead got ".toList ++ lib.repr preamble.format))
  let (line, lines) ← nextLine lines
  let vocab ← tryParseJsonLine line lib.decodeVocabulary
  let lines ← linesRange lines beginIndex endIndex
  let hints ← lines.mapM (tryParseJsonLine · lib.decodeHint)
  return {
    hints := hints
    passName := preamble.passName
    passUserVisibleName := preamble.passUserVisibleName
    vocabulary := vocab.map encode }

end Cvise
