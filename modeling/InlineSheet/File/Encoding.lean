/-!
Encodings of text files, and their line endings. Decoding is strict: bytes that no text encodes to are
refused, never replaced. Inside the library a line ends in a line feed; texts from files may end theirs
in a carriage return, with or without a line feed after it.
-/
namespace InlineSheet

abbrev Bytes := List UInt8

inductive Encoding where
  | utf8
  /-- UTF-8 with an optional mark in front, which is not part of the text. -/
  | utf8Marked
  | latin1
  | ascii
  | utf16LittleEndian
  | utf16BigEndian
  deriving DecidableEq

namespace Encoding

def ofName? : String → Option Encoding
  | "utf-8" => some .utf8
  | "utf-8-sig" => some .utf8Marked
  | "latin-1" => some .latin1
  | "ascii" => some .ascii
  | "utf-16-le" => some .utf16LittleEndian
  | "utf-16-be" => some .utf16BigEndian
  | _ => none

def decodeUtf8 (bytes : Bytes) : Option (List Char) :=
  (String.fromUTF8? (ByteArray.mk bytes.toArray)).map String.toList

/-- The bytes of the mark that may stand in front of UTF-8. -/
def mark : Bytes := [0xEF, 0xBB, 0xBF]

/-- A file that stops inside the mark has no text. -/
def decodeUtf8Marked (bytes : Bytes) : Option (List Char) :=
  if bytes.isPrefixOf mark then some []
  else if mark.isPrefixOf bytes then decodeUtf8 (bytes.drop mark.length)
  else decodeUtf8 bytes

def decodeLatin1 (bytes : Bytes) : List Char := bytes.map fun b => Char.ofNat b.toNat

def decodeAscii (bytes : Bytes) : Option (List Char) :=
  if bytes.all (· < 0x80) then some (decodeLatin1 bytes) else none

/-- Bytes in pairs, each read as one number by `join`. -/
def units (join : UInt8 → UInt8 → Nat) : Bytes → Option (List Nat)
  | [] => some []
  | [_] => none
  | a :: b :: rest => (units join rest).map (join a b :: ·)

/-- Characters of UTF-16 units. A high surrogate needs a low one after it, and a low one does not
stand alone. -/
def ofUnits : List Nat → Option (List Char)
  | [] => some []
  | u :: rest =>
    if 0xD800 ≤ u ∧ u < 0xDC00 then
      match rest with
      | [] => none
      | v :: rest =>
        if 0xDC00 ≤ v ∧ v < 0xE000 then
          (ofUnits rest).map (Char.ofNat (0x10000 + (u - 0xD800) * 0x400 + (v - 0xDC00)) :: ·)
        else none
    else if 0xDC00 ≤ u ∧ u < 0xE000 then none
    else (ofUnits rest).map (Char.ofNat u :: ·)

/-- The text that the bytes encode, if they encode one. -/
def decode : Encoding → Bytes → Option (List Char)
  | .utf8, bytes => decodeUtf8 bytes
  | .utf8Marked, bytes => decodeUtf8Marked bytes
  | .latin1, bytes => some (decodeLatin1 bytes)
  | .ascii, bytes => decodeAscii bytes
  | .utf16LittleEndian, bytes => (units (fun a b => b.toNat * 256 + a.toNat) bytes).bind ofUnits
  | .utf16BigEndian, bytes => (units (fun a b => a.toNat * 256 + b.toNat) bytes).bind ofUnits

end Encoding

namespace Text

/-- The text with every line ending written as a line feed. -/
def unifyLineEndings : List Char → List Char
  | [] => []
  | '\r' :: '\n' :: rest => '\n' :: unifyLineEndings rest
  | '\r' :: rest => '\n' :: unifyLineEndings rest
  | c :: rest => c :: unifyLineEndings rest

theorem not_mem_unifyLineEndings (cs : List Char) : '\r' ∉ unifyLineEndings cs := by
  fun_induction unifyLineEndings cs <;> simp_all [eq_comm]

end Text
end InlineSheet
