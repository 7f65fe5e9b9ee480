import Mathlib.Data.List.Basic
import Mathlib.Data.Nat.Notation

/-!
# Internet addresses

`IpAddr::from_str` of the standard library: a parser takes characters from the front of a text, and what it does not take
is left. An address of version 4 is tried first.
-/

namespace Paneflow.IpAddr

inductive Address where
  | v4 (octets : List ℕ)
  | v6 (groups : List ℕ)
  deriving DecidableEq, Repr

/-- `char::to_digit` -/
def toDigit (radix : ℕ) (c : Char) : Option ℕ :=
  let digit :=
    if '0' ≤ c ∧ c ≤ '9' then c.toNat - 48
    else if 'a' ≤ c ∧ c ≤ 'f' then c.toNat - 87
    else if 'A' ≤ c ∧ c ≤ 'F' then c.toNat - 55
    else radix
  if digit < radix then some digit else none

/-- A number of at least one digit and at most `maxDigits` that is not above `bound`. -/
def readNumber (radix maxDigits bound : ℕ) (zeroFront : Bool) (text : List Char) : Option (ℕ × List Char) :=
  let digits := text.takeWhile fun c => (toDigit radix c).isSome
  let value := digits.foldl (fun value c => value * radix + (toDigit radix c).getD 0) 0
  if digits = [] ∨ maxDigits < digits.length ∨ bound < value then none
  else if zeroFront = false ∧ digits.head? = some '0' ∧ 1 < digits.length then none
  else some (value, text.drop digits.length)

/-- What a separator in front of all elements but the first leaves. -/
def readSeparator (separator : Char) (index : ℕ) (text : List Char) : Option (List Char) :=
  if index = 0 then some text
  else
    match text with
    | c :: text => if c = separator then some text else none
    | [] => none

def readOctets : (missing index : ℕ) → List Char → Option (List ℕ × List Char)
  | 0, _, text => some ([], text)
  | missing + 1, index, text => do
    let text ← readSeparator '.' index text
    let (octet, text) ← readNumber 10 3 255 false text
    let (octets, text) ← readOctets missing (index + 1) text
    return (octet :: octets, text)

def readIpv4Addr (text : List Char) : Option (List ℕ × List Char) := readOctets 4 0 text

/-- An address of version 4 as the two groups it ends with. -/
def embedded (octets : List ℕ) : List ℕ :=
  [octets.getD 0 0 * 256 + octets.getD 1 0, octets.getD 2 0 * 256 + octets.getD 3 0]

/-- Up to `missing` groups; whether they end with an address of version 4. -/
def readGroups : (missing index : ℕ) → List Char → List ℕ × Bool × List Char
  | 0, _, text => ([], false, text)
  | missing + 1, index, text =>
    let ipv4 := if missing = 0 then none else (readSeparator ':' index text).bind readIpv4Addr
    match ipv4 with
    | some (octets, text) => (embedded octets, true, text)
    | none =>
      match (readSeparator ':' index text).bind (readNumber 16 4 65535 true) with
      | some (group, text) =>
        let (groups, found, text) := readGroups missing (index + 1) text
        (group :: groups, found, text)
      | none => ([], false, text)

def readIpv6Addr (text : List Char) : Option (List ℕ × List Char) :=
  let (head, ipv4, text) := readGroups 8 0 text
  if head.length = 8 then some (head, text)
  else if ipv4 then none
  else
    match text with
    | ':' :: ':' :: text =>
      let (tail, _, text) := readGroups (8 - (head.length + 1)) 0 text
      some (head ++ List.replicate (8 - head.length - tail.length) 0 ++ tail, text)
    | _ => none

def parse (text : List Char) : Option Address :=
  match readIpv4Addr text with
  | some (octets, rest) => if rest = [] then some (.v4 octets) else none
  | none =>
    match readIpv6Addr text with
    | some (groups, rest) => if rest = [] then some (.v6 groups) else none
    | none => none

/-- `127.0.0.0/8` and `::1` -/
def Address.isLoopback : Address → Bool
  | .v4 octets => octets.head? = some 127
  | .v6 groups => groups = [0, 0, 0, 0, 0, 0, 0, 1]

example : (parse "::1".toList).map Address.isLoopback = some true := by decide

example : parse "::ffff:127.0.0.1".toList = some (.v6 [0, 0, 0, 0, 0, 65535, 32512, 1]) := by decide

example : parse "127.0.00.1".toList = none := by decide

end Paneflow.IpAddr
