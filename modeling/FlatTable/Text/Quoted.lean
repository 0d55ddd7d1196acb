import FlatTable.Text.Unseen

/-!
# Quoted text

Two ways to put text between quotes: listings show every character that would not be seen, and data
text escapes only what its grammar forbids.
-/

namespace FlatTable.Text

/-- The digits of a number in base sixteen. -/
def hexDigits (n : Nat) : String := String.ofList (Nat.toDigits 16 n)

/-- A character inside the quotes of a listing. -/
def listingChar (c : Char) : String :=
  match c with
  | '"' => "\\\""
  | '\\' => "\\\\"
  | '\t' => "\\t"
  | '\n' => "\\n"
  | '\r' => "\\r"
  | '\x00' => "\\0"
  | c => if isUnseen c then "\\u\x7b" ++ hexDigits c.toNat ++ "\x7d" else String.singleton c

def listingQuoted (s : String) : String :=
  "\"" ++ String.join (s.toList.map listingChar) ++ "\""

/-- A character inside the quotes of data text. -/
def dataChar (c : Char) : String :=
  match c with
  | '"' => "\\\""
  | '\\' => "\\\\"
  | '\x08' => "\\b"
  | '\t' => "\\t"
  | '\n' => "\\n"
  | '\x0c' => "\\f"
  | '\r' => "\\r"
  | c =>
    if c.toNat < 0x10 then "\\u000" ++ hexDigits c.toNat
    else if c.toNat < 0x20 then "\\u00" ++ hexDigits c.toNat
    else String.singleton c

def dataQuoted (s : String) : String :=
  "\"" ++ String.join (s.toList.map dataChar) ++ "\""

end FlatTable.Text
