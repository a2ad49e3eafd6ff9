import ManagedHeap.Numeral.Decimal
import ManagedHeap.Numeral.Literal

/-!
# JSON documents

**Input.**  A text.

**Algorithm.**  A reader by descent over the characters.  Numbers stay literals and strings stay
sequences of characters and escaped 16-bit units until somebody asks for their value, so a part of a
document that nobody looks at is checked for its grammar only.

**Results.**  `Json.parse?` accepts exactly one value with white space around it.  `quote` writes a
string; its escapes are those that `serde_json` documents for its output.
-/

namespace ManagedHeap
namespace Text

/-- A document; a string with an unpaired surrogate escape has no text. -/
inductive Json where
  | null
  | bool (b : Bool)
  | number (l : Numeral.Literal)
  | string (text : Option String)
  | array (items : List Json)
  | object (members : List (Option String × Json))
  deriving Repr

namespace Json

section Strings

/-- A piece of a string: a character, or a 16-bit unit written as an escape. -/
inductive Piece where
  | char (c : Char)
  | unit (u : Nat)

/-- Value of a hexadecimal digit of either case. -/
def hexDigit? (c : Char) : Option Nat :=
  if '0' ≤ c ∧ c ≤ '9' then some (c.toNat - '0'.toNat)
  else if 'a' ≤ c ∧ c ≤ 'f' then some (c.toNat - 'a'.toNat + 10)
  else if 'A' ≤ c ∧ c ≤ 'F' then some (c.toNat - 'A'.toNat + 10)
  else none

def unit? (a b c d : Char) : Option Nat := do
  return (((← hexDigit? a) * 16 + (← hexDigit? b)) * 16 + (← hexDigit? c)) * 16 + (← hexDigit? d)

/-- The character that a one-letter escape stands for. -/
def simpleEscape? : Char → Option Char
  | '"' => some '"'
  | '\\' => some '\\'
  | '/' => some '/'
  | 'b' => some '\x08'
  | 'f' => some '\x0c'
  | 'n' => some '\n'
  | 'r' => some '\r'
  | 't' => some '\t'
  | _ => none

/-- Pieces up to the closing quote, and the rest of the text. -/
def pieces? : List Char → Option (List Piece × List Char)
  | [] => none
  | '"' :: rest => some ([], rest)
  | '\\' :: 'u' :: a :: b :: c :: d :: rest => do
      let u ← unit? a b c d
      let (ps, rest) ← pieces? rest
      return (.unit u :: ps, rest)
  | '\\' :: e :: rest => do
      let c ← simpleEscape? e
      let (ps, rest) ← pieces? rest
      return (.char c :: ps, rest)
  | c :: rest =>
      if c = '\\' ∨ c.toNat < 0x20 then none
      else do
        let (ps, rest) ← pieces? rest
        return (.char c :: ps, rest)

def isHigh (u : Nat) : Bool := 0xD800 ≤ u && u < 0xDC00

def isLow (u : Nat) : Bool := 0xDC00 ≤ u && u < 0xE000

/-- The characters of a piece sequence, unless a surrogate stands alone. -/
def characters? : List Piece → Option (List Char)
  | [] => some []
  | .char c :: ps => (characters? ps).map (c :: ·)
  | .unit u :: .unit v :: ps =>
      if isHigh u && isLow v then
        (characters? ps).map (Char.ofNat (0x10000 + (u - 0xD800) * 0x400 + (v - 0xDC00)) :: ·)
      else if isHigh u || isLow u then none
      else (characters? (.unit v :: ps)).map (Char.ofNat u :: ·)
  | .unit u :: ps =>
      if isHigh u || isLow u then none else (characters? ps).map (Char.ofNat u :: ·)

/-- The string after an opening quote, and the rest of the text. -/
def string? (cs : List Char) : Option (Option String × List Char) :=
  (pieces? cs).map fun (ps, rest) => ((characters? ps).map String.ofList, rest)

end Strings

section Values

def skipBlanks : List Char → List Char
  | [] => []
  | c :: cs => if c = ' ' ∨ c = '\n' ∨ c = '\t' ∨ c = '\r' then skipBlanks cs else c :: cs

/-- The exponent of a number, if one follows. -/
def exponent? (cs : List Char) : Option (Option (Bool × List Nat) × List Char) :=
  match cs with
  | c :: rest =>
      if c = 'e' ∨ c = 'E' then
        let (negative, rest) := match rest with
          | '-' :: rest => (true, rest)
          | '+' :: rest => (false, rest)
          | rest => (false, rest)
        match Numeral.spanDigits rest with
        | ([], _) => none
        | (ds, rest) => some (some (negative, ds), rest)
      else some (none, cs)
  | [] => some (none, cs)

/-- A number: no leading zeros, digits on both sides of a point. -/
def literal? (cs : List Char) : Option (Numeral.Literal × List Char) := do
  let (negative, cs) := match cs with
    | '-' :: rest => (true, rest)
    | cs => (false, cs)
  let (whole, cs) := Numeral.spanDigits cs
  if whole.isEmpty || (whole.head? == some 0 && 1 < whole.length) then none
  let (fraction, cs) ← match cs with
    | '.' :: rest =>
        match Numeral.spanDigits rest with
        | ([], _) => none
        | (ds, rest) => some (some ds, rest)
    | cs => some (none, cs)
  let (exponent, cs) ← exponent? cs
  return (⟨negative, whole, fraction, exponent⟩, cs)

mutual

/-- A value at the front of the text; every descent spends one unit of fuel. -/
def value? (fuel : Nat) (cs : List Char) : Option (Json × List Char) :=
  match fuel with
  | 0 => none
  | fuel + 1 =>
      match skipBlanks cs with
      | 'n' :: 'u' :: 'l' :: 'l' :: rest => some (.null, rest)
      | 't' :: 'r' :: 'u' :: 'e' :: rest => some (.bool true, rest)
      | 'f' :: 'a' :: 'l' :: 's' :: 'e' :: rest => some (.bool false, rest)
      | '"' :: rest => (string? rest).map fun (s, rest) => (.string s, rest)
      | '[' :: rest =>
          match skipBlanks rest with
          | ']' :: rest => some (.array [], rest)
          | rest => (items? fuel rest).map fun (xs, rest) => (.array xs, rest)
      | '\x7b' :: rest =>
          match skipBlanks rest with
          | '\x7d' :: rest => some (.object [], rest)
          | rest => (members? fuel rest).map fun (xs, rest) => (.object xs, rest)
      | cs => (literal? cs).map fun (l, rest) => (.number l, rest)

/-- Items of an array up to its closing bracket. -/
def items? (fuel : Nat) (cs : List Char) : Option (List Json × List Char) :=
  match fuel with
  | 0 => none
  | fuel + 1 => do
      let (x, rest) ← value? fuel cs
      match skipBlanks rest with
      | ']' :: rest => some ([x], rest)
      | ',' :: rest =>
          let (xs, rest) ← items? fuel rest
          some (x :: xs, rest)
      | _ => none

/-- Members of an object up to its closing brace. -/
def members? (fuel : Nat) (cs : List Char) : Option (List (Option String × Json) × List Char) :=
  match fuel with
  | 0 => none
  | fuel + 1 =>
      match skipBlanks cs with
      | '"' :: rest => do
          let (key, rest) ← string? rest
          match skipBlanks rest with
          | ':' :: rest =>
              let (x, rest) ← value? fuel rest
              match skipBlanks rest with
              | '\x7d' :: rest => some ([(key, x)], rest)
              | ',' :: rest =>
                  let (xs, rest) ← members? fuel rest
                  some ((key, x) :: xs, rest)
              | _ => none
          | _ => none
      | _ => none

end

/-- The document that a text holds; each value takes at least one character, so the fuel is
enough. -/
def parse? (text : String) : Option Json :=
  match value? (2 * text.length + 2) text.toList with
  | some (x, rest) => if (skipBlanks rest).isEmpty then some x else none
  | none => none

/-- The member of an object, the last one of that name. -/
def member? (x : Json) (key : String) : Option Json :=
  match x with
  | .object ms => (ms.reverse.find? fun m => m.1 == some key).map Prod.snd
  | _ => none

end Values

end Json

section Quoting

def quoteChar (c : Char) : String :=
  if c = '"' then "\\\""
  else if c = '\\' then "\\\\"
  else if c = '\n' then "\\n"
  else if c = '\r' then "\\r"
  else if c = '\t' then "\\t"
  else if c = '\x08' then "\\b"
  else if c = '\x0c' then "\\f"
  else if c.toNat < 0x20 then "\\u" ++ Numeral.zeros (4 - (Nat.toDigits 16 c.toNat).length) ++
    String.ofList (Nat.toDigits 16 c.toNat)
  else c.toString

def quote (s : String) : String := "\"" ++ String.join (s.toList.map quoteChar) ++ "\""

end Quoting

end Text
end ManagedHeap
