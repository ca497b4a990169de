/-!
# UTF-8

A byte string is read into pieces. A piece is one scalar value, or the longest broken part that
could have begun one. A byte string is text when no piece is broken; shown leniently, each broken
part becomes one replacement character.
-/

namespace LetterPages

abbrev Bytes := List UInt8

namespace Utf8

def encode (text : List Char) : Bytes :=
  text.flatMap String.utf8EncodeChar

def ofString (s : String) : Bytes :=
  encode s.toList

inductive Piece where
  | scalar (c : Char)
  | broken (part : Bytes)
  deriving DecidableEq, Repr

def isTail (b : UInt8) : Bool :=
  0x80 ≤ b && b ≤ 0xBF

/-- The bytes that may stand second. The narrower bounds after E0, ED, F0 and F4 exclude overlong
forms, surrogates and values above the last scalar value. -/
def isSecond (lead b : UInt8) : Bool :=
  if lead = 0xE0 then 0xA0 ≤ b && b ≤ 0xBF
  else if lead = 0xED then 0x80 ≤ b && b ≤ 0x9F
  else if lead = 0xF0 then 0x90 ≤ b && b ≤ 0xBF
  else if lead = 0xF4 then 0x80 ≤ b && b ≤ 0x8F
  else isTail b

def scalar₂ (a b : UInt8) : Char :=
  Char.ofNat (a.toNat % 32 * 64 + b.toNat % 64)

def scalar₃ (a b c : UInt8) : Char :=
  Char.ofNat (a.toNat % 16 * 4096 + b.toNat % 64 * 64 + c.toNat % 64)

def scalar₄ (a b c d : UInt8) : Char :=
  Char.ofNat (a.toNat % 8 * 262144 + b.toNat % 64 * 4096 + c.toNat % 64 * 64 + d.toNat % 64)

/-- The pieces of a byte string in order. A broken part ends before the first byte that cannot
continue it. -/
def pieces : Bytes → List Piece
  | [] => []
  | a :: r =>
    if a < 0x80 then .scalar (Char.ofNat a.toNat) :: pieces r
    else if a < 0xC2 || 0xF4 < a then .broken [a] :: pieces r
    else match r with
      | [] => [.broken [a]]
      | b :: r₂ =>
        if !isSecond a b then .broken [a] :: pieces (b :: r₂)
        else if a < 0xE0 then .scalar (scalar₂ a b) :: pieces r₂
        else match r₂ with
          | [] => [.broken [a, b]]
          | c :: r₃ =>
            if !isTail c then .broken [a, b] :: pieces (c :: r₃)
            else if a < 0xF0 then .scalar (scalar₃ a b c) :: pieces r₃
            else match r₃ with
              | [] => [.broken [a, b, c]]
              | d :: r₄ =>
                if !isTail d then .broken [a, b, c] :: pieces (d :: r₄)
                else .scalar (scalar₄ a b c d) :: pieces r₄

namespace Piece

def scalar? : Piece → Option Char
  | scalar c => some c
  | broken _ => none

def shown : Piece → Char
  | scalar c => c
  | broken _ => '\uFFFD'

def bytes : Piece → Bytes
  | scalar c => String.utf8EncodeChar c
  | broken part => part

end Piece

/-- The text that a byte string spells, if no part of it is broken. -/
def decode? (b : Bytes) : Option (List Char) :=
  (pieces b).mapM Piece.scalar?

def lossy (b : Bytes) : String :=
  String.ofList ((pieces b).map Piece.shown)

/-- How many bytes stand before the first broken part. -/
def validLength (b : Bytes) : Nat :=
  (((pieces b).takeWhile fun p => p.scalar?.isSome).flatMap Piece.bytes).length

end Utf8

end LetterPages
