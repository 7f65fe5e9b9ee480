import Paneflow.ByteWord
import Paneflow.Reading
import Paneflow.PathPicker.Fuzzy

/-!
# The index of paths

index.rs of the path picker. A folder is indexed in preorder, one node for each entry, with its depth; the parent
of a node, the characters of its path and the place of its name are worked out by `push`. The encoding has the
depths and the names alone, and decoding it pushes them once more.
-/

namespace Paneflow.PathPicker

open Paneflow.Utf8 Paneflow.ByteWord

def noParent : ℕ := 2 ^ 32 - 1
def dirFlag : ℕ := 2 ^ 15
def hiddenFlag : ℕ := 2 ^ 15
def maxDepth : ℕ := dirFlag - 1
def maxName : ℕ := hiddenFlag - 1
def recordLen : ℕ := 4

structure Node where
  parent : ℕ
  name : ℕ
  mask : ℕ
  nameLen : ℕ
  depth : ℕ
  deriving DecidableEq, Repr

/-- There are nanoseconds in a second, so that 0 is one of them. -/
instance neZero_nanos : NeZero 1000000000 := ⟨by decide⟩

/-- A time of the system clock: seconds, which may be before the epoch, and nanoseconds. -/
structure SystemTime where
  secs : ℤ
  nanos : Fin 1000000000
  lower : -2 ^ 63 ≤ secs
  upper : secs < 2 ^ 63
  deriving DecidableEq

/-- `duration_since(UNIX_EPOCH)`, in seconds. -/
def SystemTime.sinceEpoch (time : SystemTime) : Option ℕ :=
  if 0 ≤ time.secs then some time.secs.toNat else none

/-- `UNIX_EPOCH.checked_add(Duration::from_secs(secs))` -/
def SystemTime.fromSecs (secs : ℕ) : Option SystemTime :=
  if h : secs < 2 ^ 63 then some ⟨secs, 0, by omega, by exact_mod_cast h⟩ else none

/-- The path of the root is its bytes. -/
structure Index where
  root : List UInt8
  names : List Char
  nodes : List Node
  built : SystemTime
  complete : Bool
  deriving DecidableEq

inductive Push where
  | added
  | skipped
  | full
  deriving DecidableEq, Repr

structure Builder where
  index : Index
  cap : ℕ
  ancestors : List ℕ
  skipBelow : Option ℕ

/-- `char::is_control` -/
def isControl (ch : Char) : Bool := ch.toNat < 0x20 || (0x7f ≤ ch.toNat && ch.toNat ≤ 0x9f)

/-- An entry that is pushed. -/
structure Entry where
  depth : ℕ
  name : List Char
  isDir : Bool
  hidden : Bool
  deriving DecidableEq, Repr

section
variable (platform : Platform)

/-- Whether a name is taken, below these ancestors. -/
def Entry.usable (entry : Entry) (ancestors : List ℕ) : Bool :=
  1 ≤ entry.depth && entry.depth ≤ maxDepth && ancestors.length = entry.depth - 1 &&
    !entry.name.isEmpty && size entry.name ≤ maxName &&
    !entry.name.any fun ch => isControl ch || platform.isSeparator ch

/-- The node of an entry. -/
def Entry.node (entry : Entry) (ancestors : List ℕ) (nodes : List Node) (offset : ℕ) : Node :=
  let parent := ancestors.getLast?.getD noParent
  let inherited := (nodes[parent]?.map Node.mask).getD 0
  { parent := parent
    name := offset
    mask := inherited ||| maskOf platform entry.name
    nameLen := size entry.name % 2 ^ 16 ||| if entry.hidden then hiddenFlag else 0
    depth := entry.depth % 2 ^ 16 ||| if entry.isDir then dirFlag else 0 }

namespace Builder

def new (root : List UInt8) (cap : ℕ) (now : SystemTime) : Builder :=
  ⟨⟨root, [], [], now, true⟩, min cap noParent, [], none⟩

/-- `push`, once nothing is skipped. -/
def place (builder : Builder) (depth : ℕ) (name : Option (List Char)) (isDir hidden : Bool) :
    Builder × Push :=
  if builder.index.nodes.length ≥ builder.cap then
    ({ builder with index := { builder.index with complete := false } }, .full)
  else
    let builder := { builder with ancestors := builder.ancestors.take (depth - 1) }
    let usable := name.filter fun name =>
      (Entry.mk depth name isDir hidden).usable platform builder.ancestors
    match usable, decide (size builder.index.names < 2 ^ 32) with
    | some name, true =>
      let entry : Entry := ⟨depth, name, isDir, hidden⟩
      let id := builder.index.nodes.length % 2 ^ 32
      let node := entry.node platform builder.ancestors builder.index.nodes (size builder.index.names)
      ({ builder with
        index := { builder.index with
          names := builder.index.names ++ name
          nodes := builder.index.nodes ++ [node] }
        ancestors := if isDir then builder.ancestors ++ [id] else builder.ancestors }, .added)
    | _, _ => ({ builder with skipBelow := if isDir then some depth else builder.skipBelow }, .skipped)

def push (builder : Builder) (depth : ℕ) (name : Option (List Char)) (isDir hidden : Bool) :
    Builder × Push :=
  match builder.skipBelow with
  | some limit =>
    if depth > limit then (builder, .skipped)
    else { builder with skipBelow := none }.place platform depth name isDir hidden
  | none => builder.place platform depth name isDir hidden

def finish (builder : Builder) (built : SystemTime) : Index := { builder.index with built := built }

/-- What is pushed by a call. -/
structure Call where
  depth : ℕ
  name : Option (List Char)
  isDir : Bool
  hidden : Bool

def run (builder : Builder) (calls : List Call) : Builder :=
  calls.foldl (fun builder call =>
    (builder.push platform call.depth call.name call.isDir call.hidden).1) builder

end Builder

/-! ### Nodes and paths -/

inductive Located where
  | root
  | node (node : ℕ)
  deriving DecidableEq, Repr

def Located.ancestor : Located → Option ℕ
  | .root => none
  | .node ancestor => some ancestor

/-- The node at which a path that is written from here stops. -/
def Located.stop : Located → ℕ
  | .root => noParent
  | .node ancestor => ancestor

/-- The length of the name, without the flag. -/
def Node.len (node : Node) : ℕ := node.nameLen &&& (2 ^ 16 - 1 - hiddenFlag)

namespace Index

def name (index : Index) (node : ℕ) : Option (List Char) := do
  let node ← index.nodes[node]?
  strSlice index.names node.name (node.name + node.len)

def isHidden (index : Index) (node : ℕ) : Option Bool :=
  index.nodes[node]?.map fun node => node.nameLen &&& hiddenFlag ≠ 0

def depth (index : Index) (node : ℕ) : Option ℕ :=
  index.nodes[node]?.map fun node => node.depth &&& (2 ^ 16 - 1 - dirFlag)

/-- `parent`; none of none is a panic. -/
def parent (index : Index) (node : ℕ) : Option (Option ℕ) :=
  index.nodes[node]?.map fun node => if node.parent ≠ noParent then some node.parent else none

def mask (index : Index) (node : ℕ) : Option ℕ := index.nodes[node]?.map Node.mask

/-- The loop over the parents of a node, in so many rounds at most. -/
def chain (index : Index) (stop : ℕ) : ℕ → ℕ → Option (List ℕ)
  | 0, _ => none
  | rounds + 1, current =>
    if current ≠ stop ∧ current ≠ noParent then do
      let node ← index.nodes[current]?
      let rest ← chain index stop rounds node.parent
      some (current :: rest)
    else some []

/-- `write_path`. A chain has no node twice, so that the rounds are enough. -/
def writePath (index : Index) (node : ℕ) (start : Located) : Option (List Char) := do
  let chain ← index.chain start.stop (index.nodes.length + 1) node
  let names ← chain.reverse.mapM index.name
  some (List.intercalate [platform.mainSeparator] names)

def pathLen (index : Index) (node : ℕ) (start : Located) : Option ℕ := do
  let chain ← index.chain start.stop (index.nodes.length + 1) node
  chain.foldlM (fun total id => do
    let node ← index.nodes[id]?
    some (total + node.len + if total > 0 then 1 else 0)) 0

end Index

/-! ### The encoding -/

namespace Index

/-- `u32::try_from`, as bytes. -/
def u32Bytes (value : ℕ) : Option (List UInt8) :=
  if value < 2 ^ 32 then some (toLeBytes 4 value) else none

def encode (index : Index) : Option (List UInt8) := do
  let root ← fromUtf8 index.root
  let built ← index.built.sinceEpoch
  let rootLen ← u32Bytes (size root)
  let count ← u32Bytes index.nodes.length
  let namesLen ← u32Bytes (size index.names)
  some (rootLen ++ bytes root ++ toLeBytes 8 built ++ [if index.complete then 1 else 0] ++ count ++
    namesLen ++ (index.nodes.flatMap fun node => toLeBytes 2 node.depth ++ toLeBytes 2 node.nameLen) ++
    bytes index.names)

/-- The first bytes of the input, and what is left. -/
def take (input : List UInt8) (len : ℕ) : Reading (List UInt8 × List UInt8) :=
  if input.length < len then .refused else Reading.splitAt input len

/-- A number of so many bytes. -/
def takeNumber (width : ℕ) (input : List UInt8) : Reading (ℕ × List UInt8) := do
  let (head, rest) ← take input width
  pure (fromLeBytes head, rest)

def takeU32 (input : List UInt8) : Reading (ℕ × List UInt8) := takeNumber 4 input

def takeU64 (input : List UInt8) : Reading (ℕ × List UInt8) := takeNumber 8 input

/-- `as_chunks::<RECORD_LEN>().0` -/
def chunks : List UInt8 → List (List UInt8)
  | a :: b :: c :: d :: rest => [a, b, c, d] :: chunks rest
  | _ => []

/-- The round for a record. -/
def decodeRecord (names : List Char) (state : Builder × ℕ) (record : List UInt8) :
    Reading (Builder × ℕ) := do
  let (builder, offset) := state
  let depth := fromLeBytes [← Reading.index record 0, ← Reading.index record 1]
  let nameLen := fromLeBytes [← Reading.index record 2, ← Reading.index record 3]
  let length := nameLen &&& (2 ^ 16 - 1 - hiddenFlag)
  let name ← Reading.ofOption (strSlice names offset (offset + length))
  let pushed := builder.push platform (depth &&& (2 ^ 16 - 1 - dirFlag)) (some name)
    (depth &&& dirFlag ≠ 0) (nameLen &&& hiddenFlag ≠ 0)
  Reading.require (pushed.2 = .added)
  pure (pushed.1, offset + length)

def decodeRecords (names : List Char) (state : Builder × ℕ) : List (List UInt8) → Reading (Builder × ℕ)
  | [] => pure state
  | record :: records => do decodeRecords names (← decodeRecord platform names state record) records

/-- `decode`, at a time, with what is left of the input. -/
def decode (now : SystemTime) (input : List UInt8) : Reading (Index × List UInt8) := do
  let (rootLen, input) ← takeU32 input
  let (root, input) ← take input rootLen
  let root ← Reading.ofOption (fromUtf8 root)
  let (secs, input) ← takeU64 input
  let built ← Reading.ofOption (SystemTime.fromSecs secs)
  let (flag, input) ← take input 1
  let complete := decide ((← Reading.index flag 0) ≠ 0)
  let (count, input) ← takeU32 input
  let (namesLen, input) ← takeU32 input
  let (records, input) ← take input (count * recordLen)
  let (names, input) ← take input namesLen
  let names ← Reading.ofOption (fromUtf8 names)
  let (builder, offset) ←
    decodeRecords platform names (.new (bytes root) count now, 0) (chunks records)
  Reading.require (offset = size names)
  pure ({ builder.finish built with complete := complete }, input)

end Index

end

end Paneflow.PathPicker
