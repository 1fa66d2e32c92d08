import CaretContext.Source
import CaretContext.Node

/-!
# Finding a dynamic member in the text

Between a receiver and a member such as `{$m}` stand the characters of the access operator, with
white space and, if wanted, comments around them. The scan starts at the end of the receiver and
gives the offset after the member, or says where and why text and tree disagree.
-/

namespace CaretContext

/-- Why the text after a receiver does not lead to the member. -/
inductive ScanError where
  | repeatedOperator (found : Char) (offset : Nat)
  | misplacedOperator (found : Char) (offset : Nat) (operator : AccessOperator)
  | unexpectedToken (found : Char) (offset : Nat)
  | nameMismatch (expected : String) (offset : Nat)
  | unexpectedEnd (offset : Nat) (member : String)
deriving DecidableEq, Repr

def ScanError.message : ScanError → String
  | repeatedOperator found offset =>
    "operator character `" ++ found.toString ++ "` repeated at offset " ++ toString offset
  | misplacedOperator found offset operator =>
    "operator character `" ++ found.toString ++ "` out of order at offset " ++ toString offset ++
      ", expected `" ++ operator.text ++ "`"
  | unexpectedToken found offset =>
    "unexpected `" ++ found.toString ++ "` at offset " ++ toString offset ++
      " before the access operator"
  | nameMismatch expected offset =>
    "expected member `" ++ expected ++ "` at offset " ++ toString offset
  | unexpectedEnd offset member =>
    "source ended at offset " ++ toString offset ++ " before member `" ++ member ++ "`"

def ScanError.inWord : ScanError → ScanError
  | repeatedOperator found offset => .repeatedOperator found (offset % UInt32.size)
  | misplacedOperator found offset operator => .misplacedOperator found (offset % UInt32.size) operator
  | unexpectedToken found offset => .unexpectedToken found (offset % UInt32.size)
  | nameMismatch expected offset => .nameMismatch expected (offset % UInt32.size)
  | unexpectedEnd offset member => .unexpectedEnd (offset % UInt32.size) member

namespace MemberScan

/-- White space of the scan: space, tab, line feed, carriage return. -/
def isBlank (b : UInt8) : Bool := b = 32 || b = 9 || b = 10 || b = 13

def closeLength? : List UInt8 → Option Nat
  | 42 :: 47 :: _ => some 2
  | _ :: bytes => (closeLength? bytes).map (· + 1)
  | [] => none

/-- The length of a rest of line, its line feed not included. -/
def lineLength (bytes : List UInt8) : Nat := (bytes.takeWhile (· != 10)).length

/-- The length of the comment that the bytes begin with. A block comment needs its end, a line
comment stops before the line feed, and `#[` begins an attribute. -/
def commentLength? : List UInt8 → Option Nat
  | 47 :: 42 :: bytes => (closeLength? bytes).map (· + 2)
  | 47 :: 47 :: bytes => some (lineLength bytes + 2)
  | 35 :: 91 :: _ => none
  | 35 :: bytes => some (lineLength bytes + 1)
  | _ => none

theorem commentLength?_pos {bytes : List UInt8} {n : Nat} (h : commentLength? bytes = some n) :
    0 < n := by
  unfold commentLength? at h
  split at h
  · obtain ⟨m, -, rfl⟩ := Option.map_eq_some_iff.1 h
    exact Nat.succ_pos _
  · exact Option.some.inj h ▸ Nat.succ_pos _
  · exact absurd h (Option.some_ne_none n).symm
  · exact Option.some.inj h ▸ Nat.succ_pos _
  · exact absurd h (Option.some_ne_none n).symm

/-- What a scan is asked to find. -/
structure Request where
  source : Source
  operator : AccessOperator
  member : String
  skipComments : Bool

def Request.expected (r : Request) : List UInt8 := encode r.operator.text.toList

/-- The answer at a byte that is neither gap nor the operator's next character, after `matched`
characters of the operator. -/
def settle (r : Request) (matched : Nat) (offset : Nat) (byte : UInt8) (bytes : List UInt8) :
    Except ScanError Nat :=
  match r.expected.idxOf? byte with
  | some position =>
    if position < matched then .error (.repeatedOperator (Char.ofUInt8 byte) offset)
    else .error (.misplacedOperator (Char.ofUInt8 byte) offset r.operator)
  | none =>
    if matched < r.expected.length then
      .error (.unexpectedToken ((r.source.charAt? offset).getD (Char.ofUInt8 byte)) offset)
    else if (encode r.member.toList).isPrefixOf bytes then
      .ok (offset + byteSize r.member.toList)
    else .error (.nameMismatch r.member offset)

/-- Scans on from `offset`, where `bytes` is what is left of the source. -/
def scan (r : Request) (matched : Nat) (offset : Nat) (bytes : List UInt8) :
    Except ScanError Nat :=
  match bytes with
  | [] => .error (.unexpectedEnd offset r.member)
  | byte :: rest =>
    if isBlank byte then scan r matched (offset + 1) rest
    else
      match h : if r.skipComments then commentLength? (byte :: rest) else none with
      | some n => scan r matched (offset + n) ((byte :: rest).drop n)
      | none =>
        if r.expected[matched]? = some byte then scan r (matched + 1) (offset + 1) rest
        else settle r matched offset byte (byte :: rest)
termination_by bytes.length
decreasing_by
  · exact Nat.lt_succ_self _
  · have hpos : 0 < n := by
      split at h
      · exact commentLength?_pos h
      · exact absurd h (Option.some_ne_none n).symm
    rw [List.length_drop, List.length_cons]
    omega
  · exact Nat.lt_succ_self _

/-- The offset right after the member, scanning from the end of the receiver. -/
def memberEnd (r : Request) (start : Nat) : Except ScanError Nat :=
  scan r 0 start (r.source.bytes.drop start)

/-- The same offset as it is handed out, as a number of 32 bits. -/
def wordMemberEnd (r : Request) (start : Nat) : Except ScanError Nat :=
  match memberEnd r start with
  | .ok stop => .ok (stop % UInt32.size)
  | .error cause => .error cause.inWord

end MemberScan

end CaretContext
