import Stencil.Text.Basic

/-! # UTF-8

Encoding of a text as bytes, and decoding with the position of the first fault. A fault is either an
ill-formed sequence, of which the longest well-formed beginning counts (at least one byte), or a
sequence that the end of the input cuts off. -/
set_option autoImplicit false
namespace Stencil

abbrev Bytes := List UInt8

namespace Utf8

def encodeChar (c : Char) : Bytes :=
  let n := c.toNat
  if n < 0x80 then [n.toUInt8]
  else if n < 0x800 then [(0xc0 + n / 0x40).toUInt8, (0x80 + n % 0x40).toUInt8]
  else if n < 0x10000 then
    [(0xe0 + n / 0x1000).toUInt8, (0x80 + n / 0x40 % 0x40).toUInt8, (0x80 + n % 0x40).toUInt8]
  else
    [(0xf0 + n / 0x40000).toUInt8, (0x80 + n / 0x1000 % 0x40).toUInt8,
      (0x80 + n / 0x40 % 0x40).toUInt8, (0x80 + n % 0x40).toUInt8]

def encode (t : Text) : Bytes := t.flatMap encodeChar

/-- Why bytes are not UTF-8, with the position of the first byte at fault. -/
inductive Fault where
  /-- The `length` bytes at `index` begin no character. -/
  | invalid (length index : Nat)
  /-- The input ends inside the character that begins at `index`. -/
  | cutOff (index : Nat)
deriving Repr, DecidableEq

/-- What the bytes at the front of the input are. -/
inductive Lead where
  /-- A character and the number of its bytes. -/
  | char (c : Char) (length : Nat)
  /-- So many bytes that begin no character. -/
  | invalid (length : Nat)
  | cutOff
deriving Repr, DecidableEq

def isTail (b : UInt8) : Bool := 0x80 ≤ b && b ≤ 0xbf

def tailBits (b : UInt8) : Nat := b.toNat - 0x80

/-- The range of the second byte after the first one, and the number of bytes of the character;
`none` where the first byte begins no character of several bytes. -/
def secondByte? (first : UInt8) : Option (UInt8 × UInt8 × Nat) :=
  if 0xc2 ≤ first && first ≤ 0xdf then some (0x80, 0xbf, 2)
  else if first = 0xe0 then some (0xa0, 0xbf, 3)
  else if first = 0xed then some (0x80, 0x9f, 3)
  else if 0xe1 ≤ first && first ≤ 0xef then some (0x80, 0xbf, 3)
  else if first = 0xf0 then some (0x90, 0xbf, 4)
  else if 0xf1 ≤ first && first ≤ 0xf3 then some (0x80, 0xbf, 4)
  else if first = 0xf4 then some (0x80, 0x8f, 4)
  else none

def lead (first : UInt8) (rest : Bytes) : Lead :=
  if first < 0x80 then .char (Char.ofNat first.toNat) 1
  else
    match secondByte? first with
    | none => .invalid 1
    | some (low, high, length) =>
      match rest with
      | [] => .cutOff
      | b :: rest =>
        if b < low || high < b then .invalid 1
        else if length = 2 then
          .char (Char.ofNat ((first.toNat - 0xc0) * 0x40 + tailBits b)) 2
        else
          match rest with
          | [] => .cutOff
          | c :: rest =>
            if !isTail c then .invalid 2
            else if length = 3 then
              .char (Char.ofNat
                ((first.toNat - 0xe0) * 0x1000 + tailBits b * 0x40 + tailBits c)) 3
            else
              match rest with
              | [] => .cutOff
              | d :: _ =>
                if !isTail d then .invalid 3
                else
                  .char (Char.ofNat ((first.toNat - 0xf0) * 0x40000 + tailBits b * 0x1000 +
                    tailBits c * 0x40 + tailBits d)) 4

def decodeFrom (index : Nat) : Bytes → Except Fault Text
  | [] => .ok []
  | first :: rest =>
    match lead first rest with
    | .invalid length => .error (.invalid length index)
    | .cutOff => .error (.cutOff index)
    | .char c length => (decodeFrom (index + length) (rest.drop (length - 1))).map (c :: ·)
termination_by bytes => bytes.length
decreasing_by simp only [List.length_drop, List.length_cons]; omega

def decode (bytes : Bytes) : Except Fault Text := decodeFrom 0 bytes

/-- The lines of bytes up to the first one that is not text. A line feed ends a line, with a carriage
return before it, and no empty line follows a final line feed. -/
def lines (bytes : Bytes) : List Text :=
  let parts := bytes.splitOn 0x0a
  let ended := parts.dropLast.map fun part =>
    if part.getLast? = some 0x0d then part.dropLast else part
  let open? := (parts.getLast?.filter fun part => !part.isEmpty).toList
  ((ended ++ open?).map fun part => (decode part).toOption).takeWhile Option.isSome
    |>.filterMap id

def Fault.message : Fault → Text
  | .invalid length index =>
    "invalid utf-8 sequence of ".toList ++ Text.ofNat length ++ " bytes from index ".toList ++
      Text.ofNat index
  | .cutOff index => "incomplete utf-8 byte sequence from index ".toList ++ Text.ofNat index

end Utf8
end Stencil
