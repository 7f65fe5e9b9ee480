import Paneflow.Boundaries
import Paneflow.Text

/-!
# Which runtime a process is

What runtime_observer.rs recognizes in the name and the arguments of a process: a runtime of the catalog by itself, or
one behind an interpreter, a shell or a package runner. The catalog is written by the build and is a parameter. What an
observation keeps of the arguments is bounded (`boundedArgs_spec`).
-/

namespace Paneflow.Host.Runtimes

open Paneflow.Boundaries Paneflow.Text Paneflow.Utf8

inductive RuntimePlatform where
  | linux
  | macos
  | windows
  deriving DecidableEq, Repr

/-- What the catalog says of a runtime, as far as it is looked for. -/
structure Runtime where
  id : List Char
  platforms : List RuntimePlatform
  processAliases : List (List Char)
  scriptPathSignatures : List (List Char)
  deriving DecidableEq, Repr

def toAsciiLowercase (text : List Char) : List Char := text.map Char.toLower

def startsWith (text front : List Char) : Bool := front.isPrefixOf text

/-! ### Names -/

def executableSuffixes : List (List Char) := [".exe", ".cmd", ".bat", ".ps1", ".js"].map String.toList

def normalizedExecutableName (executable : List Char) : List Char :=
  let component := ((executable.splitOnP fun c => c = '/' || c = '\\').reverse.find? fun part => !part.isEmpty).getD
    executable
  let basename := toAsciiLowercase ((trimMatches (fun c => c = '\'' || c = '"') component).dropWhile fun c => c = '-')
  match executableSuffixes.find? fun ending => ending.isSuffixOf basename with
  | some ending => basename.take (basename.length - ending.length)
  | none => basename

def isPythonRuntime (name : List Char) : Bool :=
  name = "python".toList ||
    (startsWith name "python".toList &&
      let version := name.drop "python".toList.length
      !version.isEmpty && (version.splitOn '.').all fun part => !part.isEmpty && part.all Char.isDigit)

/-- By its name in the definitions below, instead of a proof of its own in each. -/
local instance lawfulArg : LawfulBEq (List Char) := inferInstance

def runtimeOptionTakesValue (option : List Char) : Bool :=
  option ∈ ["-r", "--require", "--loader", "--import", "--experimental-loader", "--inspect-port", "-W", "-X", "-S",
    "-L", "-o"].map String.toList

def firstShellToken (command : List Char) : Option (List Char) :=
  match command.dropWhile isWhitespace with
  | [] => none
  | first :: rest =>
    let token := if first = '\'' || first = '"' then rest.takeWhile (· ≠ first)
      else (first :: rest).takeWhile fun c => !isWhitespace c
    if token.isEmpty then none else some token

def isEnvironmentAssignment (token : List Char) : Bool :=
  match splitOnce '=' token with
  | none => false
  | some ([], _) => false
  | some (first :: name, _) =>
    (first = '_' || first.isAlpha) && name.all fun c => c = '_' || c.isAlpha || c.isDigit

section
variable (runtimes : List Runtime)

def runtimeByProcessAlias (name : List Char) : Option Runtime :=
  runtimes.find? fun runtime => name ∈ runtime.processAliases

def runtimeByScriptPath (path : List Char) : Option Runtime :=
  let normalized := toAsciiLowercase (replace ['\\'] ['/'] path)
  runtimes.find? fun runtime => runtime.scriptPathSignatures.any fun signature =>
    toAsciiLowercase signature <:+: normalized

def supported (runtime : Runtime) : Option (List Char) := if .linux ∈ runtime.platforms then some runtime.id else none

def runtimeIdForExecutable (executable : List Char) : Option (List Char) :=
  (runtimeByProcessAlias runtimes (normalizedExecutableName executable)).bind supported

def runtimeIdFromScriptPath (path : List Char) : Option (List Char) :=
  (runtimeIdForExecutable runtimes path).or ((runtimeByScriptPath runtimes path).bind supported)

/-! ### Arguments -/

/-- An argument that is, or starts with, a flag after which the runtime cannot be told. -/
def ambiguous (flags : List (List Char)) (arg : List Char) : Bool :=
  flags.any fun flag =>
    arg = flag || (startsWith flag "--".toList && startsWith arg (flag ++ ['='])) ||
      (!startsWith flag "--".toList && startsWith arg flag && arg.length > flag.length)

/-- The loop of `runtime_from_script_argv`, from an index on; `value` if the argument there belongs to the one before. -/
def scriptArgs (flags : List (List Char)) : (index : ℕ) → (value : Bool) → List (List Char) → Option (List Char × ℕ)
  | _, _, [] => none
  | index, true, _ :: args => scriptArgs flags (index + 1) false args
  | index, false, arg :: args =>
    if arg = "--".toList then
      (args.head?.bind (runtimeIdFromScriptPath runtimes)).map fun id => (id, index + 2)
    else if ambiguous flags arg then none
    else if startsWith arg "-".toList then scriptArgs flags (index + 1) (runtimeOptionTakesValue arg) args
    else (runtimeIdFromScriptPath runtimes arg).map fun id => (id, index + 1)

def runtimeFromScriptArgv (argv flags : List (List Char)) : Option (List Char × ℕ) :=
  scriptArgs runtimes flags 1 false (argv.drop 1)

def runtimeFromShellArgv (argv : List (List Char)) : Option (List Char × ℕ) := do
  let (_, index) ← (argv.zipIdx.drop 1).find? fun (arg, _) => arg = "-c".toList || arg = "--command".toList
  let command ← argv[index + 1]?
  let token ← firstShellToken command
  (runtimeIdForExecutable runtimes token).map fun id => (id, index + 2)

/-- The first argument that is not passed over, by what it is recognized as. -/
def operandArgs (passed : List Char → Bool) (identify : List Char → Option (List Char)) (argv : List (List Char)) :
    Option (List Char × ℕ) := do
  let (arg, index) ← (argv.zipIdx.drop 1).find? fun (arg, _) => !passed arg
  (identify arg).map fun id => (id, index + 1)

def runtimeFromPrefixArgv (argv : List (List Char)) : Option (List Char × ℕ) :=
  operandArgs (fun arg => arg = "--".toList || startsWith arg "-".toList || isEnvironmentAssignment arg)
    (runtimeIdForExecutable runtimes) argv

def runtimeFromPackageRunnerArgv (argv : List (List Char)) : Option (List Char × ℕ) :=
  operandArgs (fun arg => arg = "--".toList || startsWith arg "-".toList) (runtimeIdFromScriptPath runtimes) argv

def runtimeFromWrapperArgv (argv : List (List Char)) : Option (List Char × ℕ) := do
  let wrapper := normalizedExecutableName (← argv.head?)
  if wrapper ∈ ["node", "bun"].map String.toList then
    runtimeFromScriptArgv runtimes argv (["-e", "--eval", "-p", "--print"].map String.toList)
  else if isPythonRuntime wrapper then runtimeFromScriptArgv runtimes argv (["-c", "-m"].map String.toList)
  else if wrapper ∈ ["sh", "bash", "zsh", "fish"].map String.toList then runtimeFromShellArgv runtimes argv
  else if wrapper ∈ ["env", "command"].map String.toList then runtimeFromPrefixArgv runtimes argv
  else if wrapper ∈ ["npx", "bunx"].map String.toList then runtimeFromPackageRunnerArgv runtimes argv
  else none

/-! ### Matches -/

inductive MatchStrength where
  | wrapper
  | direct
  deriving DecidableEq, Repr

/-- The derived order of the strengths. -/
def MatchStrength.rank : MatchStrength → ℕ
  | .wrapper => 0
  | .direct => 1

structure RuntimeMatch where
  runtimeId : List Char
  evidenceArgvLen : ℕ
  strength : MatchStrength
  deriving DecidableEq, Repr

/-- `match_process`, by the name and the arguments of the process -/
def matchProcess (name : List Char) (argv : Option (List (List Char))) : Option RuntimeMatch :=
  match runtimeIdForExecutable runtimes name with
  | some id => some ⟨id, argv.elim 0 fun _ => 1, .direct⟩
  | none => do
    let argv ← argv
    match argv.head?.bind (runtimeIdForExecutable runtimes) with
    | some id => some ⟨id, 1, .direct⟩
    | none => (runtimeFromWrapperArgv runtimes argv).map fun (id, len) => ⟨id, len, .wrapper⟩

end

/-! ### Evidence -/

def maxObservedArgvItems : ℕ := 8

def maxObservedArgvBytes : ℕ := 1024

/-- The front of an argument, cut at a character boundary. -/
def cutArg (arg : List Char) (remaining : ℕ) : List Char :=
  (strSlice arg 0 (floorBoundary arg (min (size arg) remaining))).getD []

def boundedArgs : (remaining : ℕ) → List (List Char) → List (List Char)
  | _, [] => []
  | remaining, arg :: args =>
    if remaining = 0 then []
    else cutArg arg remaining :: boundedArgs (remaining - size (cutArg arg remaining)) args

def boundedEvidenceArgv (argv : Option (List (List Char))) (evidenceLen : ℕ) : Option (List (List Char)) := do
  let bounded := boundedArgs maxObservedArgvBytes ((← argv).take (min evidenceLen maxObservedArgvItems))
  if bounded.isEmpty then none else some bounded

end Paneflow.Host.Runtimes
