import Multiversion.Text.Unprintable
/- Text between double quotes, as keys are shown in messages and in lines of the journal.

   A double quote and a backslash are written with a backslash before them, the common controls by
   their letter, and every other character without a mark of its own by its number in base
   sixteen. -/
namespace Multiversion.Text

/-- A number in base sixteen, in lower case and without leading zeros. -/
def hex (n : Nat) : String := String.ofList (Nat.toDigits 16 n)

/-- The written form of one character between double quotes. -/
def escape (c : Char) : String :=
  match c with
  | '"' => "\\\""
  | '\\' => "\\\\"
  | '\n' => "\\n"
  | '\r' => "\\r"
  | '\t' => "\\t"
  | c => if c.toNat = 0 then "\\0" else if isPrintable c then
    c.toString else "\\u\x7b" ++ hex c.toNat ++ "\x7d"

/-- A text between double quotes. -/
def quote (s : String) : String := "\"" ++ String.join (s.toList.map escape) ++ "\""

/-- Texts between braces, each in double quotes. -/
def quoteSet (members : List String) : String :=
  "\x7b" ++ String.intercalate ", " (members.map quote) ++ "\x7d"

end Multiversion.Text
