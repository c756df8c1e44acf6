import IntentBuild.Text.Hex
import IntentBuild.Text.Printable

/-!
# Text between quotes, for messages

Messages show a text between quotes so that its ends and its invisible characters can be
seen.  The quote is `'`, and `"` for a text with a `'` and no `"`.  A backslash and the quote
in use are written after a backslash, and a character that is not printable as an escape.
-/

namespace IntentBuild.Text

/-- The quote used around a text. -/
def quoteFor (cs : List Char) : Char :=
  if cs.contains '\'' && !cs.contains '"' then '"' else '\''

/-- A character as it stands between the quotes `q`. -/
def quotedChar (q c : Char) : List Char :=
  if c == q || c == '\\' then ['\\', c]
  else if c == '\n' then ['\\', 'n']
  else if c == '\r' then ['\\', 'r']
  else if c == '\t' then ['\\', 't']
  else if isPrintable c then [c]
  else if c.toNat < 0x100 then '\\' :: 'x' :: hexDigits 2 c.toNat
  else if c.toNat < 0x10000 then '\\' :: 'u' :: hexDigits 4 c.toNat
  else '\\' :: 'U' :: hexDigits 8 c.toNat

/-- A text between quotes. -/
def quoted (s : String) : String :=
  let cs := s.toList
  let q := quoteFor cs
  String.ofList (q :: cs.flatMap (quotedChar q) ++ [q])

example : quoted "a\n" = "'a\\n'" := by decide +kernel
example : quoted "it's" = "\"it's\"" := by decide +kernel

end IntentBuild.Text
