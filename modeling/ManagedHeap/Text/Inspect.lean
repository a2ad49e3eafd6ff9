import ManagedHeap.Text.Hidden

/-!
# Diagnostic texts

How strings, durations and records are shown in diagnostics: a string between quotes with its
controls escaped, a duration in its largest whole unit, a record as its name and fields between
braces.
-/

namespace ManagedHeap
namespace Text

def inspectChar (c : Char) : String :=
  if c = '\x00' then "\\0"
  else if c = '\t' then "\\t"
  else if c = '\r' then "\\r"
  else if c = '\n' then "\\n"
  else if c = '\\' then "\\\\"
  else if c = '"' then "\\\""
  else if isHidden c then "\\u\x7b" ++ String.ofList (Nat.toDigits 16 c.toNat) ++ "\x7d"
  else c.toString

def inspectString (s : String) : String := "\"" ++ String.join (s.toList.map inspectChar) ++ "\""

def inspectBool (b : Bool) : String := if b then "true" else "false"

def inspectOption (x : Option String) : String :=
  match x with
  | none => "None"
  | some s => "Some(" ++ s ++ ")"

def inspectList (xs : List String) : String := "[" ++ ", ".intercalate xs ++ "]"

/-- A record: its name, then its fields between braces. -/
def inspectRecord (name : String) (fields : List (String × String)) : String :=
  name ++ " \x7b " ++ ", ".intercalate (fields.map fun f => f.1 ++ ": " ++ f.2) ++ " \x7d"

/-- A duration of whole milliseconds: seconds with the places they need, or milliseconds. -/
def inspectMillis (ms : Nat) : String :=
  if ms = 0 then "0ns"
  else if ms < 1000 then toString ms ++ "ms"
  else if ms % 1000 = 0 then toString (ms / 1000) ++ "s"
  else
    let places := (toString (1000 + ms % 1000)).toList.drop 1
    let trimmed := (places.reverse.dropWhile (· = '0')).reverse
    toString (ms / 1000) ++ "." ++ String.ofList trimmed ++ "s"

end Text
end ManagedHeap
