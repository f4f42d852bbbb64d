/-!
# Quoted strings

A string is written between double quotes. Quotes, backslashes and the control characters with a
name of their own are written as two characters; the other control characters as a backslash and
three digits, so that a digit after them is not taken for a part of the escape. Everything else
stands for itself.

`literal` is `quote_string`.
-/

namespace LuaGraph.Text.Quoted

/-- The letter of a character that has a two-character escape. -/
def escapeLetter? (c : Char) : Option Char :=
  match c.toNat with
  | 0x22 => some '"'
  | 0x5c => some '\\'
  | 0x0a => some 'n'
  | 0x0d => some 'r'
  | 0x09 => some 't'
  | 0x07 => some 'a'
  | 0x08 => some 'b'
  | 0x0b => some 'v'
  | 0x0c => some 'f'
  | _ => none

/-- A control character of the basic alphabet. -/
def isControl (c : Char) : Bool := decide (c.toNat < 0x20) || c.toNat == 0x7f

/-- The decimal digit of a number below ten. -/
def digit (n : Nat) : Char := Char.ofNat (0x30 + n)

/-- A number below a thousand in three digits. -/
def threeDigits (n : Nat) : List Char := [digit (n / 100), digit (n / 10 % 10), digit (n % 10)]

/-- One character as it stands between quotes. -/
def encodeChar (c : Char) : List Char :=
  match escapeLetter? c with
  | some e => ['\\', e]
  | none => if isControl c then '\\' :: threeDigits c.toNat else [c]

/-- Characters as they stand between quotes. -/
def encode (cs : List Char) : List Char := cs.flatMap encodeChar

/-- **The literal of a string.** -/
def literal (s : String) : String := String.ofList ('"' :: encode s.toList ++ ['"'])

@[simp] theorem encode_nil : encode [] = [] := rfl

@[simp] theorem encode_cons (c : Char) (cs : List Char) :
    encode (c :: cs) = encodeChar c ++ encode cs := by
  simp [encode]

end LuaGraph.Text.Quoted
