import Weir.Json.Number

/-!
# Tokens of JSON text

`Json.Token.scan?` cuts a text into tokens, reading one character at a time. Words (numbers and
the three literals) end where a blank, a bracket, a separator or a quote begins; strings resolve
their escapes, and join the two halves of a surrogate pair.
-/

namespace Weir.Json

/-- A token: punctuation, a scalar, or a string. A string with half of a surrogate pair in it has
no value. -/
inductive Token where
  | openArray
  | closeArray
  | openObject
  | closeObject
  | colon
  | comma
  | scalar (value : Json)
  | string (value : Option String)

namespace Token

/-- What is being read inside a string: plain characters, what follows a backslash, or the hex
digits of a code unit. -/
inductive Escape where
  | plain
  | opened
  | hex (count value : Nat)

/-- A string being read: its characters in reverse, whether all code units so far paired up, and
the first half of a pair that waits for its second. -/
structure Text where
  chars : List Char := []
  paired : Bool := true
  waiting : Option Nat := none
  escape : Escape := .plain

/-- What the reader is in the middle of. -/
inductive Mode where
  | blank
  | word (chars : List Char)
  | text (body : Text)

/-- The reader: the tokens so far in reverse, and what it is in the middle of. -/
structure Scanner where
  tokens : List Token := []
  mode : Mode := .blank

/-- Blanks between tokens. -/
def isBlank (c : Char) : Bool := c = ' ' || c = '\t' || c = '\n' || c = '\r'

/-- The token that a punctuation character is. -/
def ofPunctuation? (c : Char) : Option Token :=
  if c = '[' then some openArray
  else if c = ']' then some closeArray
  else if c = '\x7b' then some openObject
  else if c = '\x7d' then some closeObject
  else if c = ':' then some colon
  else if c = ',' then some comma
  else none

/-- The value of a word. -/
def ofWord? (word : List Char) : Option Json :=
  if word = "null".toList then some .null
  else if word = "true".toList then some (.bool true)
  else if word = "false".toList then some (.bool false)
  else Json.ofNumber? word

/-- The value of a hexadecimal digit. -/
def hexValue? (c : Char) : Option Nat :=
  if c.isDigit then some (c.toNat - '0'.toNat)
  else if 'a' ≤ c ∧ c ≤ 'f' then some (c.toNat - 'a'.toNat + 10)
  else if 'A' ≤ c ∧ c ≤ 'F' then some (c.toNat - 'A'.toNat + 10)
  else none

namespace Text

/-- Adds a character that is no half of a pair. -/
def push (t : Text) (c : Char) : Text :=
  { chars := c :: t.chars, paired := t.paired && t.waiting.isNone }

/-- Adds a code unit. -/
def pushUnit (t : Text) (unit : Nat) : Text :=
  if 0xD800 ≤ unit ∧ unit < 0xDC00 then
    { t with paired := t.paired && t.waiting.isNone, waiting := some unit, escape := .plain }
  else if 0xDC00 ≤ unit ∧ unit < 0xE000 then
    match t.waiting with
    | some high =>
      { chars := Char.ofNat (0x10000 + (high - 0xD800) * 0x400 + (unit - 0xDC00)) :: t.chars
        paired := t.paired }
    | none => { t with paired := false, escape := .plain }
  else t.push (Char.ofNat unit)

/-- The character that a one-letter escape stands for. -/
def ofEscape? (c : Char) : Option Char :=
  match c with
  | '"' | '\\' | '/' => some c
  | 'b' => some '\x08'
  | 'f' => some '\x0c'
  | 'n' => some '\n'
  | 'r' => some '\r'
  | 't' => some '\t'
  | _ => none

/-- Reads one more character of a string that does not end it. -/
def step? (t : Text) (c : Char) : Option Text :=
  match t.escape with
  | .plain =>
    if c = '\\' then some { t with escape := .opened }
    else if c < ' ' then none
    else some (t.push c)
  | .opened =>
    if c = 'u' then some { t with escape := .hex 0 0 }
    else (ofEscape? c).map t.push
  | .hex count value =>
    (hexValue? c).map fun digit =>
      let value := 16 * value + digit
      if count = 3 then t.pushUnit value else { t with escape := .hex (count + 1) value }

/-- The whole string, if all its code units paired up. -/
def value? (t : Text) : Option String :=
  if t.paired && t.waiting.isNone then some (String.ofList t.chars.reverse) else none

end Text

/-- Whether the next quote ends the string. -/
def Escape.isPlain : Escape → Bool
  | .plain => true
  | _ => false

namespace Scanner

/-- Starts a token, or skips a blank. -/
def start (tokens : List Token) (c : Char) : Scanner :=
  if isBlank c then ⟨tokens, .blank⟩
  else if c = '"' then ⟨tokens, .text {}⟩
  else match ofPunctuation? c with
    | some token => ⟨token :: tokens, .blank⟩
    | none => ⟨tokens, .word [c]⟩

/-- Reads one character. -/
def step? (s : Scanner) (c : Char) : Option Scanner :=
  match s.mode with
  | .blank => some (start s.tokens c)
  | .word chars =>
    if isBlank c || c = '"' || (ofPunctuation? c).isSome then
      (ofWord? chars.reverse).map fun j => start (scalar j :: s.tokens) c
    else some { s with mode := .word (c :: chars) }
  | .text body =>
    if c = '"' && body.escape.isPlain then some ⟨string body.value? :: s.tokens, .blank⟩
    else (body.step? c).map fun body => { s with mode := .text body }

/-- The tokens at the end of the text. -/
def finish? (s : Scanner) : Option (List Token) :=
  match s.mode with
  | .blank => some s.tokens.reverse
  | .word chars => (ofWord? chars.reverse).map fun j => (scalar j :: s.tokens).reverse
  | .text _ => none

end Scanner

/-- Cuts a text into tokens. -/
def scan? (cs : List Char) : Option (List Token) := do
  let s ← cs.foldlM Scanner.step? {}
  s.finish?

end Token

end Weir.Json
