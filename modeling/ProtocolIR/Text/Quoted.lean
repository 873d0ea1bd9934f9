import ProtocolIR.Text.Hidden

/-!
# Quoted text and bytes

Text is written between double quotes, with the usual short escapes and with hidden
characters by their number. Bytes are written as ASCII, every byte without a printable
ASCII form as two hexadecimal digits.
-/

namespace ProtocolIR.Text

def hexDigits (n : Nat) : String := String.ofList (Nat.toDigits 16 n)

/-- The written form of one character inside double quotes. -/
def quoteChar (c : Char) : String :=
  if c = '\x00' then "\\0"
  else if c = '\t' then "\\t"
  else if c = '\r' then "\\r"
  else if c = '\n' then "\\n"
  else if c = '\\' then "\\\\"
  else if c = '"' then "\\\""
  else if isHidden c then "\\u\x7b" ++ hexDigits c.toNat ++ "\x7d"
  else String.singleton c

def quote (text : String) : String :=
  "\"" ++ String.join (text.toList.map quoteChar) ++ "\""

/-- The written form of one byte. -/
def escapeByte (b : UInt8) : String :=
  if b = 0x09 then "\\t"
  else if b = 0x0a then "\\n"
  else if b = 0x0d then "\\r"
  else if b = 0x22 then "\\\""
  else if b = 0x27 then "\\'"
  else if b = 0x5c then "\\\\"
  else if 0x20 ≤ b ∧ b < 0x7f then String.singleton (Char.ofNat b.toNat)
  else if b < 0x10 then "\\x0" ++ hexDigits b.toNat
  else "\\x" ++ hexDigits b.toNat

def quoteBytes (bytes : List UInt8) : String :=
  "b\"" ++ String.join (bytes.map escapeByte) ++ "\""

end ProtocolIR.Text
