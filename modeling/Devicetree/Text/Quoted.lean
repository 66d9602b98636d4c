import Devicetree.Text.Printable

/-!
# Diagnostic texts

Values appear in diagnostics as quoted texts and as records of named fields. A quoted text
escapes its quotes, its backslashes and every character that is not printed.
-/

namespace Devicetree
namespace Quoted

/-- A code point in lower-case hexadecimal without leading zeros. -/
def hex (n : Nat) : String :=
  String.ofList (Nat.toDigits 16 n)

def escape (c : Char) : String :=
  if c = '\x00' then "\\0"
  else if c = '\t' then "\\t"
  else if c = '\n' then "\\n"
  else if c = '\r' then "\\r"
  else if c = '"' then "\\\""
  else if c = '\\' then "\\\\"
  else if isPrintable c then String.singleton c
  else "\\u\x7b" ++ hex c.toNat ++ "\x7d"

def quote (s : String) : String :=
  "\"" ++ String.join (s.toList.map escape) ++ "\""

/-- A record with its fields in order, as in `Point { x: 1, y: 2 }`. -/
def fields (name : String) (entries : List (String × String)) : String :=
  name ++ " \x7b " ++ String.intercalate ", " (entries.map fun e => e.1 ++ ": " ++ e.2) ++ " \x7d"

def optional : Option String → String
  | none => "None"
  | some s => "Some(" ++ s ++ ")"

def outcome : Except String String → String
  | .ok s => "Ok(" ++ s ++ ")"
  | .error e => "Err(" ++ e ++ ")"

end Quoted
end Devicetree
