/-
  TillLang.Text.Utf8 — bytes to characters.

  A character is written by one to four bytes. The first one announces how many follow,
  and for some first bytes the range of the second is narrowed, so that no character has
  two written forms and surrogates and numbers past the last character have none. Bytes
  that write no text are refused with the place of the first offence: the bytes from the
  start of the broken character up to the one that does not fit.
-/

import TillLang.Text.Inspect

namespace TillLang.Text.Utf8

inductive Cause where
  | start
  /-- A character is broken off by a byte that does not continue it. -/
  | continuation
  | endOfData
  deriving DecidableEq, Repr

def Cause.message : Cause → String
  | .start => "invalid start byte"
  | .continuation => "invalid continuation byte"
  | .endOfData => "unexpected end of data"

/-- The bytes from offset `start` to before offset `stop` write no character; the first of
them is `byte`. -/
structure Fault where
  start : Nat
  stop : Nat
  byte : UInt8
  cause : Cause
  deriving DecidableEq, Repr

def Fault.message (f : Fault) : String :=
  let place :=
    if f.stop = f.start + 1 then
      "byte 0x" ++ String.ofList (hexDigits 2 f.byte.toNat) ++ " in position " ++ toString f.start
    else "bytes in position " ++ toString f.start ++ "-" ++ toString (f.stop - 1)
  "'utf-8' codec can't decode " ++ place ++ ": " ++ f.cause.message

structure Pending where
  start : Nat
  first : UInt8
  /-- How many bytes follow after the next one. -/
  more : Nat
  value : Nat
  /-- The least and the greatest byte that may come next. -/
  low : Nat
  high : Nat

/-- What a first byte stands for: a character, the start of one, or nothing. -/
inductive Lead where
  | char (c : Char)
  | pending (p : Pending)
  | none

def lead (offset : Nat) (b : UInt8) : Lead :=
  let n := b.toNat
  if n < 0x80 then .char (Char.ofNat n)
  else if n < 0xC2 then .none
  else if n < 0xE0 then .pending ⟨offset, b, 0, n - 0xC0, 0x80, 0xBF⟩
  else if n < 0xF0 then
    .pending ⟨offset, b, 1, n - 0xE0, if n = 0xE0 then 0xA0 else 0x80,
      if n = 0xED then 0x9F else 0xBF⟩
  else if n < 0xF5 then
    .pending ⟨offset, b, 2, n - 0xF0, if n = 0xF0 then 0x90 else 0x80,
      if n = 0xF4 then 0x8F else 0xBF⟩
  else .none

/-- The characters of bytes that start at an offset, of which the first bytes belong to the
character in `pending`. -/
def decodeFrom (offset : Nat) (pending : Option Pending) : List UInt8 → Except Fault (List Char)
  | [] =>
    match pending with
    | none => .ok []
    | some p => .error ⟨p.start, offset, p.first, .endOfData⟩
  | b :: rest =>
    match pending with
    | none =>
      match lead offset b with
      | .char c => (c :: ·) <$> decodeFrom (offset + 1) none rest
      | .pending p => decodeFrom (offset + 1) (some p) rest
      | .none => .error ⟨offset, offset + 1, b, .start⟩
    | some p =>
      if p.low ≤ b.toNat && b.toNat ≤ p.high then
        let value := p.value * 0x40 + (b.toNat - 0x80)
        match p.more with
        | 0 => (Char.ofNat value :: ·) <$> decodeFrom (offset + 1) none rest
        | more + 1 =>
          decodeFrom (offset + 1) (some ⟨p.start, p.first, more, value, 0x80, 0xBF⟩) rest
      else .error ⟨p.start, offset, p.first, .continuation⟩

def decode (bytes : List UInt8) : Except Fault (List Char) := decodeFrom 0 none bytes

end TillLang.Text.Utf8
