import Mathlib.Data.Char
import Mathlib.Data.List.Lex
import Mathlib.Data.List.Sort
import OpsScripts.Core.Text

/-!
# JSON as Python writes and reads it

`dumps` prints a value with sorted keys, an indentation of two blanks and every
character outside printable ASCII escaped. `loads` reads the values that consist of
literals, integers, strings, arrays and objects; a later member of an object replaces an
earlier one of the same key. Whatever `dumps` prints, `loads` reads back.
-/

namespace OpsScripts

/-- The three words that are values. -/
inductive Literal where
  | null | true | false
  deriving DecidableEq

/-- Values of literals, integers, strings, arrays and objects. -/
inductive Json where
  | lit (l : Literal)
  | num (n : Nat)
  /-- The number `-(n + 1)`. -/
  | neg (n : Nat)
  | str (t : Text)
  | arr (items : List Json)
  | obj (members : List (Text × Json))

namespace Json

/-! ## Strings -/

/-- Four hexadecimal digits. -/
def hex4 (n : Nat) : Text :=
  [(n / 4096 % 16).digitChar, (n / 256 % 16).digitChar, (n / 16 % 16).digitChar,
    (n % 16).digitChar]

/-- A code unit as an escape sequence. -/
def escapeUnit (n : Nat) : Text := '\\' :: 'u' :: hex4 n

/-- A character of a string; beyond the basic plane it is a pair of surrogates. -/
def escape (c : Char) : Text :=
  if c = '"' then ['\\', '"']
  else if c = '\\' then ['\\', '\\']
  else if c = '\n' then ['\\', 'n']
  else if c = '\r' then ['\\', 'r']
  else if c = '\t' then ['\\', 't']
  else if c = '\x08' then ['\\', 'b']
  else if c = '\x0c' then ['\\', 'f']
  else if 32 ≤ c.toNat ∧ c.toNat ≤ 126 then [c]
  else if c.toNat < 0x10000 then escapeUnit c.toNat
  else escapeUnit (0xD800 + (c.toNat - 0x10000) / 1024) ++
    escapeUnit (0xDC00 + (c.toNat - 0x10000) % 1024)

/-- A string between quotation marks. -/
def quote (t : Text) : Text := '"' :: (t.flatMap escape ++ ['"'])

/-- The value of a hexadecimal digit. -/
def hexValue (c : Char) : Option Nat :=
  if '0' ≤ c ∧ c ≤ '9' then some (c.toNat - 48)
  else if 'a' ≤ c ∧ c ≤ 'f' then some (c.toNat - 87)
  else if 'A' ≤ c ∧ c ≤ 'F' then some (c.toNat - 55)
  else none

/-- Four hexadecimal digits are read. -/
def readHex4 : Text → Option (Nat × Text)
  | x :: y :: z :: w :: rest => do
    let x ← hexValue x
    let y ← hexValue y
    let z ← hexValue z
    let w ← hexValue w
    some (4096 * x + 256 * y + 16 * z + w, rest)
  | _ => none

/-- The second half of a pair of surrogates. -/
def readLow (high : Nat) : Text → Option (Char × Text)
  | '\\' :: 'u' :: t => do
    let (low, rest) ← readHex4 t
    if 0xDC00 ≤ low ∧ low ≤ 0xDFFF then
      some (Char.ofNat (0x10000 + (high - 0xD800) * 1024 + (low - 0xDC00)), rest)
    else none
  | _ => none

/-- What follows `\u`; a surrogate outside a pair is no character. -/
def readUnit (t : Text) : Option (Char × Text) := do
  let (n, rest) ← readHex4 t
  if 0xD800 ≤ n ∧ n ≤ 0xDBFF then readLow n rest
  else if 0xDC00 ≤ n ∧ n ≤ 0xDFFF then none
  else some (Char.ofNat n, rest)

/-- What follows a backslash. -/
def readEscape : Text → Option (Char × Text)
  | [] => none
  | 'u' :: t => readUnit t
  | c :: t =>
    if c = '"' ∨ c = '\\' ∨ c = '/' then some (c, t)
    else if c = 'n' then some ('\n', t)
    else if c = 'r' then some ('\r', t)
    else if c = 't' then some ('\t', t)
    else if c = 'b' then some ('\x08', t)
    else if c = 'f' then some ('\x0c', t)
    else none

/-- The next character of a string; control characters have to be escaped. -/
def readChar : Text → Option (Char × Text)
  | [] => none
  | c :: t => if c = '\\' then readEscape t else if c.toNat < 32 then none else some (c, t)

/-- A string behind its first quotation mark, of fewer than `n` characters. -/
def readString : Nat → Text → Option (Text × Text)
  | 0, _ => none
  | n + 1, t =>
    if t.head? = some '"' then some ([], t.tail)
    else do
      let (c, t) ← readChar t
      let (s, rest) ← readString n t
      some (c :: s, rest)

/-! ## Literals -/

/-- The word of a literal. -/
def literalText : Literal → Text
  | .null => "null".toList
  | .true => "true".toList
  | .false => "false".toList

/-- A literal at the beginning of a text. -/
def readLiteral (t : Text) : Option (Literal × Text) :=
  ([Literal.null, .true, .false].find? fun l => (literalText l).isPrefixOf t).map fun l =>
    (l, t.drop (literalText l).length)

/-! ## Printing -/

/-- A new line with the indentation of a level. -/
def newline (level : Nat) : Text := '\n' :: List.replicate (2 * level) ' '

/-- The comma behind everything but the last. -/
def comma (isLast : Bool) : Text := if isLast then [] else [',']

mutual

/-- A value whose lines are indented to a level. -/
def print (level : Nat) : Json → Text
  | lit l => literalText l
  | num n => Nat.toDigits 10 n
  | neg n => '-' :: Nat.toDigits 10 (n + 1)
  | str t => quote t
  | arr [] => ['[', ']']
  | arr (v :: vs) => '[' :: (printItems (level + 1) (v :: vs) ++ newline level ++ [']'])
  | obj [] => ['\x7b', '\x7d']
  | obj (m :: ms) =>
    '\x7b' :: (printMembers (level + 1) (m :: ms) ++ newline level ++ ['\x7d'])

/-- The items of an array, each on a line of its own. -/
def printItems (level : Nat) : List Json → Text
  | [] => []
  | v :: vs => newline level ++ print level v ++ comma vs.isEmpty ++ printItems level vs

/-- The members of an object, each on a line of its own. -/
def printMembers (level : Nat) : List (Text × Json) → Text
  | [] => []
  | (k, v) :: ms => newline level ++ quote k ++ ':' :: ' ' :: print level v ++
      comma ms.isEmpty ++ printMembers level ms

end

mutual

/-- The members of all objects are ordered by their keys. -/
def sortKeys : Json → Json
  | lit l => lit l
  | num n => num n
  | neg n => neg n
  | str t => str t
  | arr vs => arr (sortItems vs)
  | obj ms => obj ((sortMembers ms).insertionSort fun m m' => m.1 ≤ m'.1)

/-- The keys inside the items of an array are sorted. -/
def sortItems : List Json → List Json
  | [] => []
  | v :: vs => sortKeys v :: sortItems vs

/-- The keys inside the values of an object are sorted. -/
def sortMembers : List (Text × Json) → List (Text × Json)
  | [] => []
  | (k, v) :: ms => (k, sortKeys v) :: sortMembers ms

end

/-- `json.dumps(v, sort_keys=True, indent=2)`. -/
def dumps (v : Json) : Text := print 0 (sortKeys v)

/-- The value of a key, `v[k]`; `none` is an error. -/
def get (k : Text) : Json → Option Json
  | obj ms => (ms.find? fun m => m.1 = k).map Prod.snd
  | _ => none

/-! ## Reading -/

/-- White space between values is skipped. -/
def skip (t : Text) : Text := t.dropWhile fun c => c == ' ' || c == '\n' || c == '\r' || c == '\t'

/-- A member is set; an existing key keeps its place. -/
def assign (k : Text) (v : Json) : List (Text × Json) → List (Text × Json)
  | [] => [(k, v)]
  | (k', v') :: ms => if k' = k then (k, v) :: ms else (k', v') :: assign k v ms

/-- The members of an object that was read: the last value of each key. -/
def members (ms : List (Text × Json)) : List (Text × Json) :=
  ms.foldl (fun ms m => assign m.1 m.2 ms) []

/-- The number `-n`. -/
def ofNegative : Nat → Json
  | 0 => num 0
  | n + 1 => neg n

mutual

/-- A value at the beginning of a text, of nesting below `n`. -/
def readValue : Nat → Text → Option (Json × Text)
  | 0, _ => none
  | _, [] => none
  | n + 1, c :: t =>
    if c = '"' then do
      let (s, rest) ← readString t.length t
      some (str s, rest)
    else if c = '[' then
      if (skip t).head? = some ']' then some (arr [], (skip t).tail)
      else do
        let (vs, rest) ← readItems n t
        some (arr vs, rest)
    else if c = '\x7b' then
      if (skip t).head? = some '\x7d' then some (obj [], (skip t).tail)
      else do
        let (ms, rest) ← readMembers n t
        some (obj (members ms), rest)
    else if c.isDigit then
      some (num (Nat.ofDigitChars 10 ((c :: t).takeWhile Char.isDigit) 0),
        (c :: t).dropWhile Char.isDigit)
    else if c = '-' ∧ t.head?.any Char.isDigit then
      some (ofNegative (Nat.ofDigitChars 10 (t.takeWhile Char.isDigit) 0),
        t.dropWhile Char.isDigit)
    else (readLiteral (c :: t)).map fun r => (lit r.1, r.2)

/-- The items of an array up to its bracket. -/
def readItems : Nat → Text → Option (List Json × Text)
  | 0, _ => none
  | n + 1, t => do
    let (v, t) ← readValue n (skip t)
    match skip t with
    | ',' :: t => do
      let (vs, rest) ← readItems n t
      some (v :: vs, rest)
    | ']' :: rest => some ([v], rest)
    | _ => none

/-- The members of an object up to its brace. -/
def readMembers : Nat → Text → Option (List (Text × Json) × Text)
  | 0, _ => none
  | n + 1, t =>
    match skip t with
    | '"' :: t => do
      let (k, t) ← readString t.length t
      match skip t with
      | ':' :: t => do
        let (v, t) ← readValue n (skip t)
        match skip t with
        | ',' :: t => do
          let (ms, rest) ← readMembers n t
          some ((k, v) :: ms, rest)
        | '\x7d' :: rest => some ([(k, v)], rest)
        | _ => none
      | _ => none
    | _ => none

end

/-- `json.loads(t)`; an error is `none`. -/
def loads (t : Text) : Option Json := do
  let (v, rest) ← readValue t.length (skip t)
  if skip rest = [] then some v else none

end Json

end OpsScripts
