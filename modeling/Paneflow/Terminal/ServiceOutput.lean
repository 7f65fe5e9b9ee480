import Paneflow.Checked
import Paneflow.Utf8Lossy
import Mathlib

/-! # The tail of service output: `service_detector.rs`

The last lines that a program printed, kept to find the address of a server in them. A parser decides which bytes
are text; the performer keeps the line being written and the lines before it, with their sizes counted along. -/

namespace Paneflow.Terminal.ServiceOutput

open Paneflow.Checked Paneflow.Utf8

def serviceTailMaxLines : ℕ := 100

def serviceTailMaxLineBytes : ℕ := 8 * 1024

def serviceTailMaxTotalBytes : ℕ := 64 * 1024

def tabWidth : ℕ := 8

def replacementCharacter : Char := '\uFFFD'

abbrev Str := List Char

/-! ### The performer -/

structure ServiceOutputPerformer where
  completed : List Str := []
  completedBytes : ℕ := 0
  current : Str := []
  currentChars : ℕ := 0
  nonWhitespaceChars : ℕ := 0
  carriageReturnPending : Bool := false
  deriving DecidableEq, Repr

namespace ServiceOutputPerformer

def prepareForWrite (output : ServiceOutputPerformer) : ServiceOutputPerformer :=
  if output.carriageReturnPending then
    { output with current := [], currentChars := 0, nonWhitespaceChars := 0, carriageReturnPending := false }
  else output

/-- The loop of `enforce_caps`, on the completed lines and their bytes. -/
def evict (currentIsNonEmpty : Bool) (currentLen : ℕ) : List Str → ℕ → List Str × ℕ
  | [], completedBytes => ([], completedBytes)
  | removed :: completed, completedBytes =>
    if serviceTailMaxLines < (removed :: completed).length + currentIsNonEmpty.toNat ∨
        serviceTailMaxTotalBytes < completedBytes + currentLen then
      evict currentIsNonEmpty currentLen completed (completedBytes - size removed)
    else (removed :: completed, completedBytes)

def enforceCaps (output : ServiceOutputPerformer) : ServiceOutputPerformer :=
  let (completed, completedBytes) :=
    evict (output.nonWhitespaceChars != 0) (size output.current) output.completed output.completedBytes
  { output with completed, completedBytes }

def pushChar (output : ServiceOutputPerformer) (character : Char) : ServiceOutputPerformer :=
  let output := output.prepareForWrite
  let output :=
    if size output.current + character.utf8Size ≤ serviceTailMaxLineBytes then
      { output with
        current := output.current ++ [character]
        currentChars := output.currentChars + 1
        nonWhitespaceChars := output.nonWhitespaceChars + (!isUnicodeWhitespace character).toNat }
    else output
  output.enforceCaps

def pushSpaces : ℕ → ServiceOutputPerformer → ServiceOutputPerformer
  | 0, output => output
  | spaces + 1, output =>
    if size output.current = serviceTailMaxLineBytes then output
    else pushSpaces spaces
      { output with current := output.current ++ [' '], currentChars := output.currentChars + 1 }

def pushTab (output : ServiceOutputPerformer) : ServiceOutputPerformer :=
  let output := output.prepareForWrite
  let column := output.currentChars
  let spaces := tabWidth - column % tabWidth
  (pushSpaces spaces output).enforceCaps

def backspace (output : ServiceOutputPerformer) : Option ServiceOutputPerformer :=
  let output := output.prepareForWrite
  match output.current.getLast? with
  | none => some output
  | some character => do
    let currentChars ← checkedSub output.currentChars 1
    let nonWhitespaceChars ← checkedSub output.nonWhitespaceChars (!isUnicodeWhitespace character).toNat
    return { output with current := output.current.dropLast, currentChars, nonWhitespaceChars }

def finishLine (output : ServiceOutputPerformer) : ServiceOutputPerformer :=
  let output := { output with carriageReturnPending := false }
  let trimmed := trimEnd output.current
  let output :=
    if trimmed.isEmpty then output
    else
      { output with
        completedBytes := output.completedBytes + size trimmed
        completed := output.completed ++ [trimmed] }
  enforceCaps { output with current := [], currentChars := 0, nonWhitespaceChars := 0 }

def recentLines (output : ServiceOutputPerformer) : List Str :=
  let current := trimEnd output.current
  let lines := if current.isEmpty then [] else [current]
  lines ++ output.completed.reverse.take (serviceTailMaxLines - lines.length)

def execute (output : ServiceOutputPerformer) (byte : UInt8) : Option ServiceOutputPerformer :=
  if byte = 0x0a ∨ byte = 0x0b ∨ byte = 0x0c then some output.finishLine
  else if byte = 0x0d then some { output with carriageReturnPending := true }
  else if byte = 0x08 then output.backspace
  else if byte = 0x09 then some output.pushTab
  else some output

end ServiceOutputPerformer

/-! ### The parser -/

inductive ServiceOutputParseState
  | ground
  | escape
  | escapeIntermediate
  | csi
  | osc
  | oscEscape
  | string
  | stringEscape
  deriving DecidableEq, Repr

structure ServiceOutputParser where
  state : ServiceOutputParseState := .ground
  utf8 : List UInt8 := [0, 0, 0, 0]
  utf8Len : ℕ := 0
  utf8Expected : ℕ := 0
  deriving DecidableEq, Repr

namespace ServiceOutputParser

def beginUtf8 (parser : ServiceOutputParser) (byte : UInt8) (expected : ℕ) : Option ServiceOutputParser := do
  return { parser with utf8 := ← store parser.utf8 0 byte, utf8Len := 1, utf8Expected := expected }

/-- A continuation byte of a character. -/
def continueUtf8 (parser : ServiceOutputParser) (output : ServiceOutputPerformer) (byte : UInt8) :
    Option (ServiceOutputParser × ServiceOutputPerformer) := do
  let utf8 ← store parser.utf8 parser.utf8Len byte
  let utf8Len := parser.utf8Len + 1
  if utf8Len = parser.utf8Expected then
    let text ← slice utf8 0 utf8Len
    let character := ((fromUtf8 text).bind List.head?).getD replacementCharacter
    return ({ parser with utf8, utf8Len := 0, utf8Expected := 0 }, output.pushChar character)
  else
    return ({ parser with utf8, utf8Len }, output)

/-- A byte in `Ground`. -/
def groundByte (parser : ServiceOutputParser) (output : ServiceOutputPerformer) (byte : UInt8) :
    Option (ServiceOutputParser × ServiceOutputPerformer) :=
  if byte = 0x1b then some ({ parser with state := .escape }, output)
  else if byte = 0x9b then some ({ parser with state := .csi }, output)
  else if byte = 0x9d then some ({ parser with state := .osc }, output)
  else if byte = 0x90 ∨ byte = 0x98 ∨ byte = 0x9e ∨ byte = 0x9f then some ({ parser with state := .string }, output)
  else if byte ≤ 0x1f ∨ byte = 0x7f then (output.execute byte).map fun output => (parser, output)
  else if 0x20 ≤ byte ∧ byte ≤ 0x7e then some (parser, output.pushChar (Char.ofNat byte.toNat))
  else if 0xc2 ≤ byte ∧ byte ≤ 0xdf then (parser.beginUtf8 byte 2).map fun parser => (parser, output)
  else if 0xe0 ≤ byte ∧ byte ≤ 0xef then (parser.beginUtf8 byte 3).map fun parser => (parser, output)
  else if 0xf0 ≤ byte ∧ byte ≤ 0xf4 then (parser.beginUtf8 byte 4).map fun parser => (parser, output)
  else some (parser, output.pushChar replacementCharacter)

def afterEscape (byte : UInt8) : ServiceOutputParseState :=
  if byte = 0x5b then .csi
  else if byte = 0x5d then .osc
  else if byte = 0x50 ∨ byte = 0x58 ∨ byte = 0x5e ∨ byte = 0x5f then .string
  else if 0x20 ≤ byte ∧ byte ≤ 0x2f then .escapeIntermediate
  else if byte = 0x1b then .escape
  else .ground

def afterIntermediate (byte : UInt8) : ServiceOutputParseState :=
  if byte = 0x1b then .escape
  else if byte = 0x18 ∨ byte = 0x1a ∨ 0x30 ≤ byte ∧ byte ≤ 0x7e then .ground
  else .escapeIntermediate

def afterCsi (byte : UInt8) : ServiceOutputParseState :=
  if byte = 0x1b then .escape
  else if byte = 0x18 ∨ byte = 0x1a ∨ 0x40 ≤ byte ∧ byte ≤ 0x7e then .ground
  else .csi

def afterOsc (byte : UInt8) : ServiceOutputParseState :=
  if byte = 0x07 ∨ byte = 0x18 ∨ byte = 0x1a then .ground
  else if byte = 0x1b then .oscEscape
  else .osc

def afterOscEscape (byte : UInt8) : ServiceOutputParseState :=
  if byte = 0x5c ∨ byte = 0x07 ∨ byte = 0x18 ∨ byte = 0x1a then .ground
  else if byte = 0x1b then .oscEscape
  else .osc

def afterString (byte : UInt8) : ServiceOutputParseState :=
  if byte = 0x18 ∨ byte = 0x1a then .ground
  else if byte = 0x1b then .stringEscape
  else .string

def afterStringEscape (byte : UInt8) : ServiceOutputParseState :=
  if byte = 0x5c ∨ byte = 0x18 ∨ byte = 0x1a then .ground
  else if byte = 0x1b then .stringEscape
  else .string

/-- The `match self.state` of `advance_byte`. -/
def stateByte (parser : ServiceOutputParser) (output : ServiceOutputPerformer) (byte : UInt8) :
    Option (ServiceOutputParser × ServiceOutputPerformer) :=
  match parser.state with
  | .ground => parser.groundByte output byte
  | .escape => some ({ parser with state := afterEscape byte }, output)
  | .escapeIntermediate => some ({ parser with state := afterIntermediate byte }, output)
  | .csi => some ({ parser with state := afterCsi byte }, output)
  | .osc => some ({ parser with state := afterOsc byte }, output)
  | .oscEscape => some ({ parser with state := afterOscEscape byte }, output)
  | .string => some ({ parser with state := afterString byte }, output)
  | .stringEscape => some ({ parser with state := afterStringEscape byte }, output)

def advanceByte (parser : ServiceOutputParser) (output : ServiceOutputPerformer) (byte : UInt8) :
    Option (ServiceOutputParser × ServiceOutputPerformer) :=
  if parser.utf8Len ≠ 0 then
    if byte &&& 0b11000000 = 0b10000000 then parser.continueUtf8 output byte
    else stateByte { parser with utf8Len := 0, utf8Expected := 0 } (output.pushChar replacementCharacter) byte
  else parser.stateByte output byte

def advance (parser : ServiceOutputParser) (output : ServiceOutputPerformer) (bytes : List UInt8) :
    Option (ServiceOutputParser × ServiceOutputPerformer) :=
  bytes.foldlM (fun (parser, output) byte => advanceByte parser output byte) (parser, output)

end ServiceOutputParser

structure ServiceOutputTail where
  parser : ServiceOutputParser := {}
  output : ServiceOutputPerformer := {}
  deriving DecidableEq, Repr

def ServiceOutputTail.advance (tail : ServiceOutputTail) (bytes : List UInt8) : Option ServiceOutputTail := do
  let (parser, output) ← tail.parser.advance tail.output bytes
  return ⟨parser, output⟩

def ServiceOutputTail.recentLines (tail : ServiceOutputTail) : List Str := tail.output.recentLines

end Paneflow.Terminal.ServiceOutput
