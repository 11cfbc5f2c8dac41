import LyaLang.Text.Bytes

/-! # Base 64

Three bytes are four digits of base 64. Where one or two bytes are left at the end, equals signs stand
for the digits that say nothing.
-/

namespace LyaLang.Text

def base64Digit (n : Nat) : UInt8 :=
  if n < 26 then (0x41 + n).toUInt8
  else if n < 52 then (0x61 + (n - 26)).toUInt8
  else if n < 62 then (0x30 + (n - 52)).toUInt8
  else if n == 62 then 0x2B else 0x2F

def base64Digits (a b c : UInt8) : Bytes :=
  let n := (a.toNat * 256 + b.toNat) * 256 + c.toNat
  [n / 0x40000, n / 0x1000 % 0x40, n / 0x40 % 0x40, n % 0x40].map base64Digit

def base64 : Bytes → Bytes
  | a :: b :: c :: rest => base64Digits a b c ++ base64 rest
  | [a, b] => (base64Digits a b 0).take 3 ++ [0x3D]
  | [a] => (base64Digits a 0 0).take 2 ++ [0x3D, 0x3D]
  | [] => []

end LyaLang.Text
