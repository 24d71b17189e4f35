import LRMachine.Json.Number

/-!
# Reading JSON

`Json.read?` reads a text that holds one value and nothing else but blanks around it. Arrays and
objects may be nested 127 deep. Control characters in strings and escapes of lone surrogates are
refused. Every reader gives its value and the text behind it; the number that it takes bounds its
rounds, and the length of the text is always enough.
-/

namespace LRMachine.Json

/-! ## Strings -/

/-- The value of a hexadecimal digit. -/
def hexDigit? (c : Char) : Option Nat :=
  if c.isDigit then some (c.toNat - '0'.toNat)
  else if 'a' ≤ c && c ≤ 'f' then some (c.toNat - 'a'.toNat + 10)
  else if 'A' ≤ c && c ≤ 'F' then some (c.toNat - 'A'.toNat + 10)
  else none

/-- Four hexadecimal digits. -/
def readHex : List Char → Option (Nat × List Char)
  | a :: b :: c :: d :: rest => do
    let a ← hexDigit? a
    let b ← hexDigit? b
    let c ← hexDigit? c
    let d ← hexDigit? d
    some (((a * 16 + b) * 16 + c) * 16 + d, rest)
  | _ => none

/-- The character of a UTF-16 escape, whose digits come next. A high surrogate needs the escape of a
low one behind it. -/
def readUnit (cs : List Char) : Option (Char × List Char) := do
  let (unit, rest) ← readHex cs
  if 0xdc00 ≤ unit && unit ≤ 0xdfff then none
  else if 0xd800 ≤ unit && unit ≤ 0xdbff then
    match rest with
    | '\\' :: 'u' :: rest => do
      let (low, rest) ← readHex rest
      if 0xdc00 ≤ low && low ≤ 0xdfff then
        some (Char.ofNat (0x10000 + (unit - 0xd800) * 0x400 + (low - 0xdc00)), rest)
      else none
    | _ => none
  else some (Char.ofNat unit, rest)

/-- The character of an escape, whose backslash has been read. -/
def readEscape : List Char → Option (Char × List Char)
  | '"' :: rest => some ('"', rest)
  | '\\' :: rest => some ('\\', rest)
  | '/' :: rest => some ('/', rest)
  | 'b' :: rest => some ('\x08', rest)
  | 'f' :: rest => some ('\x0c', rest)
  | 'n' :: rest => some ('\n', rest)
  | 'r' :: rest => some ('\r', rest)
  | 't' :: rest => some ('\t', rest)
  | 'u' :: rest => readUnit rest
  | _ => none

/-- The rest of a string, whose opening quote has been read; `before` is read already, the last
character first. -/
def readString : Nat → List Char → List Char → Option (String × List Char)
  | 0, _, _ => none
  | _ + 1, _, [] => none
  | n + 1, before, c :: rest =>
    if c = '"' then some (String.ofList before.reverse, rest)
    else if c = '\\' then
      match readEscape rest with
      | some (escaped, rest) => readString n (escaped :: before) rest
      | none => none
    else if c.toNat < 0x20 then none
    else readString n (c :: before) rest

/-! ## Values -/

/-- Space, tab, line feed and carriage return. -/
def isBlank (c : Char) : Bool := c = ' ' || c = '\t' || c = '\n' || c = '\r'

/-- The text behind blanks. -/
def dropBlanks (cs : List Char) : List Char := cs.dropWhile isBlank

/-- The text behind a word. -/
def dropWord : List Char → List Char → Option (List Char)
  | [], cs => some cs
  | w :: ws, c :: cs => if w = c then dropWord ws cs else none
  | _ :: _, [] => none

/-- A value that is no array and no object. -/
def readScalar (n : Nat) (cs : List Char) : Option (Json × List Char) :=
  match cs with
  | '"' :: rest => (readString n [] rest).map fun (text, rest) => (.string text, rest)
  | 'n' :: _ => (dropWord ['n', 'u', 'l', 'l'] cs).map fun rest => (.null, rest)
  | 't' :: _ => (dropWord ['t', 'r', 'u', 'e'] cs).map fun rest => (.bool true, rest)
  | 'f' :: _ => (dropWord ['f', 'a', 'l', 's', 'e'] cs).map fun rest => (.bool false, rest)
  | _ => readNumber cs

/-- The key of a member and the colon behind it. -/
def readKey (n : Nat) (cs : List Char) : Option (String × List Char) := do
  match dropBlanks cs with
  | '"' :: rest =>
    let (key, rest) ← readString n [] rest
    match dropBlanks rest with
    | ':' :: rest => some (key, rest)
    | _ => none
  | _ => none

mutual

/-- A value that has at most `depth` arrays and objects around one another. -/
def readValue (depth : Nat) : Nat → List Char → Option (Json × List Char)
  | 0, _ => none
  | n + 1, cs =>
    match dropBlanks cs with
    | '[' :: rest =>
      if depth = 0 then none
      else
        match dropBlanks rest with
        | ']' :: rest => some (.array [], rest)
        | rest => readElements (depth - 1) n [] rest
    | '{' :: rest =>
      if depth = 0 then none
      else
        match dropBlanks rest with
        | '}' :: rest => some (.object [], rest)
        | rest => readMembers (depth - 1) n [] rest
    | rest => readScalar n rest

/-- The elements of an array behind those in `before`, which has the last first. -/
def readElements (depth : Nat) : Nat → List Json → List Char → Option (Json × List Char)
  | 0, _, _ => none
  | n + 1, before, cs =>
    match readValue depth n cs with
    | none => none
    | some (value, rest) =>
      match dropBlanks rest with
      | ',' :: rest => readElements depth n (value :: before) rest
      | ']' :: rest => some (.array (value :: before).reverse, rest)
      | _ => none

/-- The members of an object behind those in `before`, which has the last first. -/
def readMembers (depth : Nat) :
    Nat → List (String × Json) → List Char → Option (Json × List Char)
  | 0, _, _ => none
  | n + 1, before, cs =>
    match readKey n cs with
    | none => none
    | some (key, rest) =>
      match readValue depth n rest with
      | none => none
      | some (value, rest) =>
        match dropBlanks rest with
        | ',' :: rest => readMembers depth n ((key, value) :: before) rest
        | '}' :: rest => some (.object ((key, value) :: before).reverse, rest)
        | _ => none

end

/-- The deepest nesting of arrays and objects. -/
def maxDepth : Nat := 127

/-- The value of a text. -/
def read? (text : String) : Option Json :=
  let cs := text.toList
  match readValue maxDepth (2 * cs.length + 2) cs with
  | some (value, rest) => if (dropBlanks rest).isEmpty then some value else none
  | none => none

end LRMachine.Json
