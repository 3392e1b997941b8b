import ContextBinding.Text.Invisible

/-!
# Quoted text

String constants are shown between double quotes. The usual control characters, the quote and the
backslash are written with a backslash, and characters without a visible form by their number.
-/

namespace ContextBinding.Text

/-- Hexadecimal digits of `n`, without leading zeros. -/
def hexDigits (n : Nat) : List Char := Nat.toDigits 16 n

/-- Sixteen hexadecimal digits of a word. -/
def hexWord (w : UInt64) : String :=
  let digits := hexDigits w.toNat
  String.ofList (List.replicate (16 - digits.length) '0' ++ digits)

/-- One character as it stands inside quotes. -/
def quoteChar (c : Char) : List Char :=
  if c = '\x00' then ['\\', '0']
  else if c = '\t' then ['\\', 't']
  else if c = '\r' then ['\\', 'r']
  else if c = '\n' then ['\\', 'n']
  else if c = '"' || c = '\\' then ['\\', c]
  else if isInvisible c then ['\\', 'u', '\x7b'] ++ hexDigits c.toNat ++ ['\x7d']
  else [c]

/-- Text between double quotes. -/
def quoted (s : String) : String :=
  String.ofList ('"' :: s.toList.flatMap quoteChar ++ ['"'])

end ContextBinding.Text
