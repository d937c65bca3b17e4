/-!
# Terminal text

Messages can hold control sequences, which a terminal obeys and does not show. `plain` is what is
left of a text for a reader that is no terminal: the characters that would be shown, with the ends
of lines, tabs and the like.

A control sequence begins with an escape character and is read character by character
(`Sequence.next?`). The end of a line or a tab can suspend one: the text that follows is shown up to
the next character that no text shows, and there the sequence goes on. A character outside ASCII
ends a suspended sequence. Text of shown characters alone is left as it is (`plain_eq_self`).
-/

namespace Weir.Terminal

/-- Whether a character is a control that moves on, such as the end of a line. The vertical tab is
none. -/
def isMove (c : Char) : Bool := c = '\t' || c = '\n' || c = '\x0c' || c = '\r'

/-- Whether text shows a character: a move, or one that is no ASCII control. -/
def isShown (c : Char) : Bool := isMove c || (' ' ≤ c && c ≠ '\x7f')

/-- Whether a character stands in the middle of a sequence. -/
def isIntermediate (c : Char) : Bool := ' ' ≤ c && c ≤ '/'

/-- Whether a character is a parameter of a sequence, or a sign between parameters. -/
def isParameter (c : Char) : Bool := '0' ≤ c && c ≤ '?'

/-- Whether a character ends the head of a sequence. -/
def isFinal (c : Char) : Bool := '@' ≤ c && c ≤ '~'

/-- Whether a character closes a string. The mark is the byte 0x9C, alone or within the encoding of
a character. -/
def closesString (c : Char) : Bool := (String.utf8EncodeChar c).contains 0x9c

/-- What has been read of a control sequence. -/
inductive Sequence where
  /-- The escape character. -/
  | escape
  /-- An escape character and what stands in the middle. -/
  | escapeIntermediate
  /-- The head of a control function, such as one that sets a colour. -/
  | control
  /-- The beginning of a string for a device. -/
  | device
  /-- The parameters of a string for a device. -/
  | deviceParameter
  /-- What stands in the middle before a string for a device. -/
  | deviceIntermediate
  /-- A string that is skipped to its end. -/
  | string
  /-- A command to the operating system. -/
  | command
  deriving DecidableEq, Repr

namespace Sequence

/-- Whether a move inside the sequence is shown. -/
def admitsMove : Sequence → Bool
  | escape | escapeIntermediate | control => true
  | device | deviceParameter | deviceIntermediate | string | command => false

/-- The sequence after another character that starts and cancels nothing; nothing is returned at
the end of the sequence. -/
def next? (s : Sequence) (c : Char) : Option Sequence :=
  match s with
  | escape =>
    match c with
    | 'P' => some device
    | '[' => some control
    | ']' => some command
    | 'X' | '^' | '_' => some string
    | _ =>
      if isIntermediate c then some escapeIntermediate
      else if isParameter c || isFinal c then none
      else some s
  | escapeIntermediate => if isParameter c || isFinal c then none else some s
  | control => if isFinal c then none else some s
  | device =>
    if isIntermediate c then some deviceIntermediate
    else if isParameter c then some deviceParameter
    else if isFinal c then some string
    else some s
  | deviceParameter =>
    if isIntermediate c then some deviceIntermediate
    else if '<' ≤ c && c ≤ '~' then some string
    else some s
  | deviceIntermediate => if isParameter c || isFinal c then some string else some s
  | string => if closesString c then none else some s
  | command => if c = '\x07' then none else some s

end Sequence

/-- Where a reader of text is: in a sequence or in none, and whether a sequence is suspended. -/
structure Reader where
  sequence : Option Sequence := none
  suspended : Bool := false

namespace Reader

/-- Whether a character is shown. -/
def shows (r : Reader) (c : Char) : Bool :=
  match r.sequence, r.suspended with
  | some s, false => s.admitsMove && isMove c
  | _, _ => isShown c

/-- The reader after a character. The escape character begins a sequence anywhere, and the
characters cancel and substitute end one anywhere. -/
def step (r : Reader) (c : Char) : Reader :=
  if r.shows c then { sequence := if c ≤ '\x7f' then r.sequence else none, suspended := true }
  else if c = '\x1b' then { sequence := some .escape }
  else if c = '\x18' || c = '\x1a' then {}
  else { sequence := r.sequence.bind (·.next? c) }

/-- The characters of a text that are shown. -/
def shown (r : Reader) : List Char → List Char
  | [] => []
  | c :: cs => if r.shows c then c :: (r.step c).shown cs else (r.step c).shown cs

theorem shown_eq_self (r : Reader) (cs : List Char) (hr : r.sequence = none)
    (h : ∀ c ∈ cs, isShown c = true) : r.shown cs = cs := by
  induction cs generalizing r with
  | nil => rfl
  | cons c cs ih =>
    have hc : r.shows c = true := by simpa [shows, hr] using h c (by simp)
    have hn : (r.step c).sequence = none := by simp [step, hc, hr]
    simp [shown, hc, ih (r.step c) hn fun d hd => h d (by simp [hd])]

end Reader

/-- A text without its control sequences and without the control characters that are no moves. -/
def plain (text : String) : String := String.ofList (({} : Reader).shown text.toList)

/-- Text of shown characters is plain. -/
theorem plain_eq_self (text : String) (h : ∀ c ∈ text.toList, isShown c = true) :
    plain text = text := by
  rw [plain, Reader.shown_eq_self {} text.toList rfl h, String.ofList_toList]

/-- A text that a terminal sets in bold. -/
def emphasize (text : String) : String := "\x1b[1m" ++ text ++ "\x1b[0m"

end Weir.Terminal
