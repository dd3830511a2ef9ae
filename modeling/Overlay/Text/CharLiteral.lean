import Overlay.Text.Printable

namespace Overlay.Text

def codePoint (c : Char) : String := .ofList (Nat.toDigits 16 c.toNat)

/-- A character in single quotes. Quotes, the backslash, the usual control characters and
everything that does not show as itself are escaped. -/
def charLiteral (c : Char) : String :=
  let inner :=
    if c = '\x00' then "\\0"
    else if c = '\t' then "\\t"
    else if c = '\n' then "\\n"
    else if c = '\r' then "\\r"
    else if c = '\'' then "\\'"
    else if c = '\\' then "\\\\"
    else if isPrintable c then c.toString
    else "\\u\x7b" ++ codePoint c ++ "\x7d"
  "'" ++ inner ++ "'"

end Overlay.Text
