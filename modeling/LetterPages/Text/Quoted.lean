import LetterPages.Text.Unprintable
import LetterPages.Text.Utf8

/-!
# Quoted text for diagnostics

A text is shown between quotes with its quotes, backslashes, controls and other characters that
would not show as themselves escaped. A byte string is shown in the same way, with every byte of a
broken part in hexadecimal.
-/

namespace LetterPages.Text

def upperHexDigit (n : Nat) : Char :=
  if n < 10 then Char.ofNat (48 + n) else Char.ofNat (55 + n)

def escapedScalar (c : Char) : List Char :=
  ['\\', 'u', '\x7b'] ++ Nat.toDigits 16 c.toNat ++ ['\x7d']

def escaped (c : Char) : List Char :=
  if c = '\x00' then ['\\', '0']
  else if c = '\t' then ['\\', 't']
  else if c = '\r' then ['\\', 'r']
  else if c = '\n' then ['\\', 'n']
  else if c = '\\' then ['\\', '\\']
  else if c = '"' then ['\\', '"']
  else if isUnprintable c then escapedScalar c
  else [c]

def quoted (s : String) : String :=
  String.ofList ('"' :: s.toList.flatMap escaped ++ ['"'])

def escapedByte (b : UInt8) : List Char :=
  ['\\', 'x', upperHexDigit (b.toNat / 16), upperHexDigit (b.toNat % 16)]

def escapedPiece : Utf8.Piece → List Char
  | .scalar c => escaped c
  | .broken part => part.flatMap escapedByte

def quotedBytes (b : Bytes) : String :=
  String.ofList ('"' :: (Utf8.pieces b).flatMap escapedPiece ++ ['"'])

end LetterPages.Text
