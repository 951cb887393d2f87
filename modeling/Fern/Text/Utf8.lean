import Fern.Text.Quoted

/-!
# Reading UTF-8

Bytes become characters one lead byte and its continuation bytes at a time. What makes a sequence
bad decides the report: a byte that starts no character, a continuation that is missing where
another byte stands, or data that end inside a character. The report covers the bytes read of the
bad character, the offending byte left out.

The second byte of some characters has a narrower range than the others, which rules out overlong
forms, surrogates and everything past the last code point; it is kept as the pair of bounds of the
byte that comes next.
-/

namespace Fern.Text

/-- What is wrong with a sequence of bytes. -/
inductive Utf8Flaw
  | startByte
  | continuation
  | truncated
  deriving DecidableEq, Repr

/-- The place and kind of the first flaw: the offset and the number of the bytes reported, and the
first of them. -/
structure Utf8Fault where
  offset : Nat
  length : Nat
  byte : UInt8
  flaw : Utf8Flaw
  deriving DecidableEq, Repr

namespace Utf8Fault

def reason (fault : Utf8Fault) : String :=
  match fault.flaw with
  | .startByte => "invalid start byte"
  | .continuation => "invalid continuation byte"
  | .truncated => "unexpected end of data"

/-- The report on a flaw: a single byte is shown, several are given by their offsets. -/
def message (fault : Utf8Fault) : String :=
  let place :=
    if fault.length = 1 then
      "byte 0x" ++ String.ofList (hex 2 fault.byte.toNat) ++ " in position " ++ toString fault.offset
    else
      "bytes in position " ++ toString fault.offset ++ "-" ++
        toString (fault.offset + fault.length - 1)
  "'utf-8' codec can't decode " ++ place ++ ": " ++ fault.reason

end Utf8Fault

/-- A character of which some bytes have been read. The next byte has to lie between `low` and
`high`, and `missing` bytes are still to come. -/
structure PartialChar where
  lead : UInt8
  length : Nat
  missing : Nat
  low : Nat
  high : Nat
  value : Nat
  deriving DecidableEq, Repr

/-- What a byte announces as the first one of a longer character. -/
def PartialChar.ofLead (lead : UInt8) : Option PartialChar :=
  let b := lead.toNat
  if b < 0xC2 then none
  else if b < 0xE0 then some ⟨lead, 1, 1, 0x80, 0xBF, b - 0xC0⟩
  else if b < 0xF0 then
    some ⟨lead, 1, 2, if b = 0xE0 then 0xA0 else 0x80, if b = 0xED then 0x9F else 0xBF, b - 0xE0⟩
  else if b < 0xF5 then
    some ⟨lead, 1, 3, if b = 0xF0 then 0x90 else 0x80, if b = 0xF4 then 0x8F else 0xBF, b - 0xF0⟩
  else none

/-- The flaw of a character that stops short, when the next byte has the given offset. -/
def PartialChar.fault (p : PartialChar) (offset : Nat) (flaw : Utf8Flaw) : Utf8Fault :=
  ⟨offset - p.length, p.length, p.lead, flaw⟩

/-- Reads the bytes from an offset on, inside a character or between two, behind the characters
already read, which stand in reverse. -/
def decodeUtf8From (offset : Nat) (done : List Char) :
    Option PartialChar → List UInt8 → Except Utf8Fault (List Char)
  | none, [] => .ok done.reverse
  | some p, [] => .error (p.fault offset .truncated)
  | none, b :: rest =>
    if b.toNat < 0x80 then
      decodeUtf8From (offset + 1) (Char.ofNat b.toNat :: done) none rest
    else
      match PartialChar.ofLead b with
      | none => .error ⟨offset, 1, b, .startByte⟩
      | some p => decodeUtf8From (offset + 1) done (some p) rest
  | some p, b :: rest =>
    if p.low ≤ b.toNat ∧ b.toNat ≤ p.high then
      let value := p.value * 64 + (b.toNat - 0x80)
      if p.missing = 1 then
        decodeUtf8From (offset + 1) (Char.ofNat value :: done) none rest
      else
        decodeUtf8From (offset + 1) done
          (some ⟨p.lead, p.length + 1, p.missing - 1, 0x80, 0xBF, value⟩) rest
    else .error (p.fault offset .continuation)

def decodeUtf8 (bytes : List UInt8) : Except Utf8Fault (List Char) :=
  decodeUtf8From 0 [] none bytes

end Fern.Text
