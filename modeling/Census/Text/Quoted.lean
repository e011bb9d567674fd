import Census.Text.Unprinted

namespace Census.Text

-- Lower-case hexadecimal digits without padding.
def hex (n : Nat) : String := String.ofList (Nat.toDigits 16 n)

-- A character between single quotes. Quotes and backslashes are escaped, and what would not
-- show on its own is named by its number.
def quoted (c : Char) : String :=
  let shown :=
    if c = '\x00' then "\\0"
    else if c = '\t' then "\\t"
    else if c = '\n' then "\\n"
    else if c = '\r' then "\\r"
    else if c = '\'' then "\\'"
    else if c = '\\' then "\\\\"
    else if isUnprinted c then "\\u\x7b" ++ hex c.toNat ++ "\x7d"
    else c.toString
  "'" ++ shown ++ "'"

end Census.Text
