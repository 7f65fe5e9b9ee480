import Paneflow.Table
import Mathlib

/-!
# Pairing renamed files

renames.rs of paneflow-git. Files that are gone are paired with files that are new: first those with the same content,
then those whose base names are unique on both sides and whose contents are close, and at last the best of what is
left, from a table of the four most similar sources of each destination.

The contents are the parameter `Contents`. A source or a destination is its index in the list of its side.
-/

namespace Paneflow.Git.Renames

def maxScore : ℕ := 60000

def defaultRenameScore : ℕ := 30000

def basenameScore : ℕ := defaultRenameScore + (maxScore - defaultRenameScore) / 2

def candidatesPerDestination : ℕ := 4

def identicalAlternatives : ℕ := 100

def spanHashBase : ℕ := 107927

def spanBytes : ℕ := 64

def objectTypeMask : ℕ := 0o170000

def regularFileType : ℕ := 0o100000

structure RenameSide where
  path : List UInt8
  mode : ℕ
  id : Option String
  deriving DecidableEq, Repr

inductive Role where
  | source
  | destination
  deriving DecidableEq, Repr

abbrev Spans := List (ℕ × ℕ)

/-- The contents of the files, by side and index; `I` is the type of object ids and `E` that of errors. -/
structure Contents (I E : Type) where
  identity : Role → ℕ → Except E (Option I)
  size : Role → ℕ → Except E (Option ℕ)
  spans : Role → ℕ → Except E (Option Spans)

structure Rename (n m : ℕ) where
  source : Fin n
  destination : Fin m
  score : ℕ
  deriving DecidableEq, Repr

def isRegular (mode : ℕ) : Bool := mode &&& objectTypeMask = regularFileType

/-- The part behind the last slash. -/
def basename (path : List UInt8) : List UInt8 := (path.reverse.takeWhile (· ≠ 47)).reverse

def sameBasename (source destination : List UInt8) : Bool := basename source = basename destination

/-- `copied_bytes`, with the spans of the destination that remain. -/
def copiedBytes : Spans → Spans → ℕ
  | [], _ => 0
  | (hash, sourceCount) :: source, remaining =>
    match remaining.dropWhile fun span => span.1 < hash with
    | (other, destinationCount) :: rest =>
      if other = hash then min sourceCount destinationCount + copiedBytes source rest
      else copiedBytes source ((other, destinationCount) :: rest)
    | [] => copiedBytes source []

/-- `span_hash` -/
def spanHash (accumulated : UInt32 × UInt32) : ℕ :=
  (accumulated.1 + accumulated.2 * 0x61).toNat % spanHashBase

/-- A span of a hash is counted. -/
def countSpan : Spans → ℕ → ℕ → Spans
  | [], hash, length => [(hash, length)]
  | (other, count) :: counts, hash, length =>
    if other = hash then (other, count + length) :: counts
    else (other, count) :: countSpan counts hash length

/-- The loop of `span_counts`. A span ends behind a line feed, or with 64 bytes; the return of a text's line end is
left out. -/
def countSpans (isText : Bool) : List UInt8 → Spans → UInt32 × UInt32 → ℕ → Spans
  | [], counts, accumulated, length =>
    if length > 0 then countSpan counts (spanHash accumulated) length else counts
  | byte :: bytes, counts, accumulated, length =>
    if isText && byte = 13 && bytes.head? = some 10 then countSpans isText bytes counts accumulated length
    else
      let (first, second) := accumulated
      let accumulated := (((first <<< 7) ^^^ (second >>> 25)) + byte.toUInt32, (second <<< 7) ^^^ (first >>> 25))
      if length + 1 < spanBytes ∧ byte ≠ 10 then countSpans isText bytes counts accumulated (length + 1)
      else countSpans isText bytes (countSpan counts (spanHash accumulated) (length + 1)) (0, 0) 0

def spanCounts (data : List UInt8) (isText : Bool) : Spans :=
  (countSpans isText data [] (0, 0) 0).insertionSort fun a b => a.1 < b.1 ∨ a.1 = b.1 ∧ a.2 ≤ b.2

/-- The score of two files, by their sizes and spans. -/
def spanScore (sourceSize destinationSize : ℕ) (sourceSpans destinationSpans : Spans) : ℕ :=
  if destinationSize = 0 then 0
  else
    let score := copiedBytes sourceSpans destinationSpans * maxScore / max sourceSize destinationSize
    if score < 2 ^ 32 then score else maxScore

def exceedsLimit (destinations sources limit : ℕ) : Bool :=
  limit > 0 && destinations * sources > limit * limit

/-! ### Candidates -/

structure Candidate (n m : ℕ) where
  source : Fin n
  destination : Fin m
  score : ℕ
  sameBasename : Bool
  deriving DecidableEq, Repr

/-- `compare_candidates` is `Greater`: the first one is worse. A slot that is unused is none. -/
def worseCandidate {n m : ℕ} : Option (Candidate n m) → Option (Candidate n m) → Bool
  | none, none => false
  | none, some _ => true
  | some _, none => false
  | some a, some b => if a.score = b.score then b.sameBasename && !a.sameBasename else a.score < b.score

/-! ### The passes -/

section
variable {I E : Type} [DecidableEq I] (sources destinations : List RenameSide) (contents : Contents I E)

/-- `Matcher` -/
structure Matcher (n m : ℕ) where
  sourceUsed : Fin n → Bool
  renames : Fin m → Option (Rename n m)

/-- The matcher of the two lists. -/
abbrev Sides := Matcher sources.length destinations.length

def similarity (minimumScore : ℕ) (source : Fin sources.length) (destination : Fin destinations.length) :
    Except E ℕ :=
  if !isRegular (sources.get source).mode || !isRegular (destinations.get destination).mode then .ok 0
  else do
    match ← contents.size .source source, ← contents.size .destination destination with
    | some sourceSize, some destinationSize =>
      let maxSize := max sourceSize destinationSize
      let deltaSize := maxSize - min sourceSize destinationSize
      if maxSize * (maxScore - minimumScore) < deltaSize * maxScore then pure 0
      else
        match ← contents.spans .source source with
        | none => pure 0
        | some sourceSpans =>
          match ← contents.spans .destination destination with
          | none => pure 0
          | some destinationSpans =>
            pure (spanScore sourceSize destinationSize sourceSpans destinationSpans)
    | _, _ => pure 0

namespace Matcher

variable {n m : ℕ}

def record (matcher : Matcher n m) (source : Fin n) (destination : Fin m) (score : ℕ) : Matcher n m where
  sourceUsed := Function.update matcher.sourceUsed source true
  renames := Function.update matcher.renames destination (some ⟨source, destination, score⟩)

def remainingSources (matcher : Matcher n m) : List (Fin n) :=
  (List.finRange n).filter fun source => !matcher.sourceUsed source

def remainingDestinations (matcher : Matcher n m) : List (Fin m) :=
  (List.finRange m).filter fun destination => (matcher.renames destination).isNone

end Matcher

/-- The sources by their identity. -/
def byId : Except E (I → Option (List (Fin sources.length))) :=
  (List.finRange sources.length).foldlM (fun byId (source : Fin sources.length) => do
    match ← contents.identity .source source with
    | some id => pure (Function.update byId id (some ((byId id).getD [] ++ [source])))
    | none => pure byId) fun _ => none

/-- The modes allow the pair. -/
def modesMatch (source : Fin sources.length) (destination : Fin destinations.length) : Bool :=
  (isRegular (sources.get source).mode && isRegular (destinations.get destination).mode) ||
    (sources.get source).mode = (destinations.get destination).mode

/-- The source that `exact` chooses for a destination; `alternatives` of them may still be looked at. -/
def exactBest (matcher : Sides sources destinations) (destination : Fin destinations.length) :
    List (Fin sources.length) → Option (Fin sources.length) → ℕ → ℕ → Option (Fin sources.length)
  | [], best, _, _ => best
  | source :: candidates, best, bestScore, alternatives =>
    if !modesMatch sources destinations source destination || matcher.sourceUsed source then
      exactBest matcher destination candidates best bestScore alternatives
    else
      let score := if sameBasename (sources.get source).path (destinations.get destination).path then 2 else 1
      let improved := score > bestScore
      let best := if improved then some source else best
      let bestScore := if improved then score else bestScore
      if improved ∧ score = 2 then best
      else if alternatives - 1 = 0 then best
      else exactBest matcher destination candidates best bestScore (alternatives - 1)

/-- `exact` for one destination. -/
def exactOne (byId : I → Option (List (Fin sources.length))) (matcher : Sides sources destinations)
    (destination : Fin destinations.length) : Except E (Sides sources destinations) := do
  match ← contents.identity .destination destination with
  | none => pure matcher
  | some id =>
    match byId id with
    | none => pure matcher
    | some candidates =>
      match exactBest sources destinations matcher destination candidates none 0 identicalAlternatives with
      | none => pure matcher
      | some source => pure (matcher.record source destination maxScore)

def exact (matcher : Sides sources destinations) : Except E (Sides sources destinations) := do
  let byId ← byId sources contents
  (List.finRange destinations.length).foldlM (exactOne sources destinations contents byId) matcher

/-- The indices by their base names; none for a name that is not unique. -/
def byName {k : ℕ} (name : Fin k → List UInt8) (indices : List (Fin k)) : List UInt8 → Option (Option (Fin k)) :=
  indices.foldl (fun byName index =>
    Function.update byName (name index) (some (match byName (name index) with
      | some _ => none
      | none => some index))) fun _ => none

/-- `by_basename` for one source. -/
def basenameOne (sourceByName : List UInt8 → Option (Option (Fin sources.length)))
    (destinationByName : List UInt8 → Option (Option (Fin destinations.length)))
    (matcher : Sides sources destinations) (source : Fin sources.length) :
    Except E (Sides sources destinations) :=
  let name := basename (sources.get source).path
  match sourceByName name, destinationByName name with
  | some (some _), some (some destination) =>
    if (matcher.renames destination).isSome then pure matcher
    else do
      let score ← similarity sources destinations contents basenameScore source destination
      pure (if score ≥ basenameScore then matcher.record source destination score else matcher)
  | _, _ => pure matcher

def byBasename (matcher : Sides sources destinations) : Except E (Sides sources destinations) :=
  let remaining := matcher.remainingSources
  let sourceByName := byName (fun source => basename (sources.get source).path) remaining
  let destinationByName := byName (fun destination => basename (destinations.get destination).path)
    matcher.remainingDestinations
  remaining.foldlM (basenameOne sources destinations contents sourceByName destinationByName) matcher

def candidate (destination : Fin destinations.length) (source : Fin sources.length) :
    Except E (Candidate sources.length destinations.length) := do
  let score ← similarity sources destinations contents defaultRenameScore source destination
  pure ⟨source, destination, score,
    sameBasename (sources.get source).path (destinations.get destination).path⟩

/-- The best candidates of a destination. -/
def keptFor (remaining : List (Fin sources.length)) (destination : Fin destinations.length) :
    Except E (List (Option (Candidate sources.length destinations.length))) :=
  remaining.foldlM (fun kept source => do
    let candidate ← candidate sources destinations contents destination source
    pure (Table.keepIfBetter worseCandidate kept (some candidate)))
    (List.replicate candidatesPerDestination none)

/-- The last loop of `by_similarity`, over the sorted table. -/
def takeBest {n m : ℕ} : List (Option (Candidate n m)) → Matcher n m → Matcher n m
  | [], matcher => matcher
  | none :: _, matcher => matcher
  | some candidate :: table, matcher =>
    if candidate.score < defaultRenameScore then matcher
    else if (matcher.renames candidate.destination).isSome || matcher.sourceUsed candidate.source then
      takeBest table matcher
    else takeBest table (matcher.record candidate.source candidate.destination candidate.score)

def bySimilarity (limit : ℕ) (matcher : Sides sources destinations) :
    Except E (Sides sources destinations) :=
  let remaining := matcher.remainingSources
  let left := matcher.remainingDestinations
  if remaining.isEmpty || left.isEmpty then pure matcher
  else if exceedsLimit left.length remaining.length limit then pure matcher
  else do
    let table ← left.mapM (keptFor sources destinations contents remaining)
    pure (takeBest (table.flatten.insertionSort fun a b => worseCandidate a b = false) matcher)

def start : Sides sources destinations := ⟨fun _ => false, fun _ => none⟩

/-- The matcher after the passes that do not depend on the limit. -/
def pairedEarly : Except E (Sides sources destinations) := do
  let matcher ← exact sources destinations contents (start sources destinations)
  byBasename sources destinations contents matcher

def pair (limit : ℕ) : Except E (List (Rename sources.length destinations.length)) :=
  if sources.isEmpty || destinations.isEmpty then .ok []
  else do
    let matcher ← pairedEarly sources destinations contents
    let matcher ← bySimilarity sources destinations contents limit matcher
    pure ((List.finRange destinations.length).filterMap matcher.renames)

end

end Paneflow.Git.Renames
