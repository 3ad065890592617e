import FoolLang.Text.Unprintable
/-!
# Quoted — text shown inside double quotes

A message shows a piece of source between double quotes.  A quote and a backslash are written after a backslash,
the tab, the carriage return, the line feed and the null character by their letters, and any other unprintable
character by its code point in hexadecimal.
-/
namespace FoolLang
namespace Text

/-- One character, as it stands between the quotes. -/
def quoteChar (c : Char) : List Char :=
  if c = '"' ∨ c = '\\' then ['\\', c]
  else if c = '\t' then ['\\', 't']
  else if c = '\r' then ['\\', 'r']
  else if c = '\n' then ['\\', 'n']
  else if c.toNat = 0 then ['\\', '0']
  else if isUnprintable c then ['\\', 'u', '{'] ++ Nat.toDigits 16 c.toNat ++ ['}']
  else [c]

/-- A text between double quotes. -/
def quote (cs : List Char) : String :=
  String.ofList ('"' :: cs.flatMap quoteChar ++ ['"'])

end Text
end FoolLang
