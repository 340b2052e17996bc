import TreeCalculus.Text.Quoted

/-!
Decoding bytes as UTF-8.

The decoder goes through the bytes once. Between characters it expects a first byte, which tells how
many bytes continue the character and in which range the next one has to lie; that range rules out
overlong forms, surrogates and values beyond the last code point. The first fault is reported with
the bytes of the character it broke off.

* `Utf8Error`: the faults and their wording.
* `Pending.ofFirst?`: what a first byte announces.
* `decodeUtf8`: the decoder.
-/

namespace TreeCalculus.Text

/-- Why bytes are no text. -/
inductive Utf8Error.Reason where
  | badStart
  | badContinuation
  | unexpectedEnd
  deriving DecidableEq

/-- The wording of a reason. -/
def Utf8Error.Reason.message : Reason → String
  | badStart => "invalid start byte"
  | badContinuation => "invalid continuation byte"
  | unexpectedEnd => "unexpected end of data"

/-- A fault: the bytes of a character that was broken off, and where they begin. -/
structure Utf8Error where
  reason : Utf8Error.Reason
  position : Nat
  /-- The first byte. -/
  first : Nat
  /-- How many bytes belong to the fault. -/
  count : Nat
  deriving DecidableEq

/-- The wording of a fault. -/
def Utf8Error.message (e : Utf8Error) : String :=
  let place :=
    if e.count = 1 then
      "byte 0x" ++ String.ofList (hexDigits 2 e.first) ++ " in position " ++ toString e.position
    else
      "bytes in position " ++ toString e.position ++ "-" ++ toString (e.position + e.count - 1)
  "'utf-8' codec can't decode " ++ place ++ ": " ++ e.reason.message

/-- A character of which some bytes are read. -/
structure Pending where
  /-- How many bytes are still to come. -/
  owed : Nat
  /-- The least value of the next byte. -/
  low : Nat := 0x80
  /-- The greatest value of the next byte. -/
  high : Nat := 0xbf
  /-- The bits collected so far. -/
  code : Nat
  /-- The first byte. -/
  first : Nat
  /-- How many bytes are read. -/
  count : Nat := 1

/-- What a first byte of a longer character announces. -/
def Pending.ofFirst? (b : Nat) : Option Pending :=
  if b < 0xc2 then none
  else if b < 0xe0 then some { owed := 1, code := b - 0xc0, first := b }
  else if b = 0xe0 then some { owed := 2, low := 0xa0, code := 0, first := b }
  else if b = 0xed then some { owed := 2, high := 0x9f, code := 0xd, first := b }
  else if b < 0xf0 then some { owed := 2, code := b - 0xe0, first := b }
  else if b = 0xf0 then some { owed := 3, low := 0x90, code := 0, first := b }
  else if b < 0xf4 then some { owed := 3, code := b - 0xf0, first := b }
  else if b = 0xf4 then some { owed := 3, high := 0x8f, code := 4, first := b }
  else none

/-- The fault of a character broken off before `position`. -/
def Pending.fault (p : Pending) (position : Nat) (reason : Utf8Error.Reason) : Utf8Error :=
  { reason, position := position - p.count, first := p.first, count := p.count }

/-- Decode the bytes from `position` on, with `pending` a character that is not complete yet. -/
def decodeFrom (position : Nat) : (pending : Option Pending) → List UInt8 →
    Except Utf8Error (List Char)
  | none, [] => .ok []
  | some p, [] => .error (p.fault position .unexpectedEnd)
  | none, byte :: rest =>
      let b := byte.toNat
      if b < 0x80 then
        (decodeFrom (position + 1) none rest).map fun cs => Char.ofNat b :: cs
      else
        match Pending.ofFirst? b with
        | some p => decodeFrom (position + 1) (some p) rest
        | none => .error { reason := .badStart, position, first := b, count := 1 }
  | some p, byte :: rest =>
      let b := byte.toNat
      if p.low ≤ b ∧ b ≤ p.high then
        let code := p.code * 0x40 + (b - 0x80)
        if p.owed = 1 then
          (decodeFrom (position + 1) none rest).map fun cs => Char.ofNat code :: cs
        else
          let next : Pending :=
            { owed := p.owed - 1, code, first := p.first, count := p.count + 1 }
          decodeFrom (position + 1) (some next) rest
      else .error (p.fault position .badContinuation)

/-- Decode bytes as UTF-8. -/
def decodeUtf8 (bytes : List UInt8) : Except Utf8Error (List Char) := decodeFrom 0 none bytes

/-- Let every line end with a line feed, whatever ended it before. -/
def unifyNewlines : List Char → List Char
  | [] => []
  | '\r' :: '\n' :: rest => '\n' :: unifyNewlines rest
  | '\r' :: rest => '\n' :: unifyNewlines rest
  | c :: rest => c :: unifyNewlines rest

end TreeCalculus.Text
