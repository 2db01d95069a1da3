/-!
# Control characters in a text

What is left of a text when it is written to a stream that is no terminal: control characters and
control sequences are taken out, and white space stays.

A sequence starts with an escape character. White space in the middle of a sequence is shown, and so
is all that follows it up to the next control character, where the sequence goes on.
-/

namespace Idl.Text

/-- How far a control sequence was read. -/
inductive ControlState where
  /-- No sequence is open. -/
  | plain
  /-- After an escape character. -/
  | escape
  /-- In an escape sequence, before its final character. -/
  | intermediate
  /-- In a sequence that an escape character and a bracket start, before its final character. -/
  | sequence
  /-- At the start of a device control string. -/
  | deviceEntry
  /-- In the parameters of a device control string. -/
  | deviceParameter
  /-- After the parameters of a device control string. -/
  | deviceIntermediate
  /-- In a string that is for the terminal only. -/
  | string
  /-- In a command for the operating system. -/
  | command
deriving DecidableEq, Repr

/-- Whether a character is a control character of ASCII. -/
def isControl (c : Char) : Bool := c.toNat < 0x20 || c.toNat == 0x7F

/-- Whether a control character is white space, which stays. -/
def isKeptControl (c : Char) : Bool := c == '\t' || c == '\n' || c == '\x0c' || c == '\r'

/-- Whether a character outside of control sequences is shown. -/
def isShown (c : Char) : Bool := !isControl c || isKeptControl c

/-- Whether a character may stand between the start of a sequence and its final character. -/
def isIntermediate (c : Char) : Bool := 0x20 ≤ c.toNat && c.toNat ≤ 0x2F

/-- Whether a character is part of the parameters of a sequence. -/
def isParameter (c : Char) : Bool := 0x30 ≤ c.toNat && c.toNat ≤ 0x3F

/-- Whether a character ends a sequence. -/
def isFinal (c : Char) : Bool := 0x40 ≤ c.toNat && c.toNat ≤ 0x7E

/-- Whether the UTF-8 form of a character holds the byte that terminates strings. -/
def endsString (c : Char) : Bool := (String.utf8EncodeChar c).contains 0x9C

namespace ControlState

/-- The state after a character that continues or ends an open sequence. -/
def next (s : ControlState) (c : Char) : ControlState :=
  match s with
  | plain => plain
  | escape =>
    if isIntermediate c then intermediate
    else if c == '[' then sequence
    else if c == ']' then command
    else if c == 'P' then deviceEntry
    else if c == 'X' || c == '^' || c == '_' then string
    else plain
  | intermediate => if isIntermediate c then intermediate else plain
  | sequence => if isFinal c then plain else sequence
  | deviceEntry =>
    if isIntermediate c then deviceIntermediate
    else if isParameter c then deviceParameter
    else if isFinal c then string
    else deviceEntry
  | deviceParameter =>
    if isIntermediate c then deviceIntermediate
    else if isFinal c || (isParameter c && ';' < c) then string
    else deviceParameter
  | deviceIntermediate => if isParameter c || isFinal c then string else deviceIntermediate
  | string => if endsString c then plain else string
  | command => if c == '\x07' then plain else command

/-- The state after a character that starts a sequence or breaks one off; any other character keeps
the state. -/
def interrupt (s : ControlState) (c : Char) : ControlState :=
  if c == '\x1b' then escape
  else if c == '\x18' || c == '\x1a' then plain
  else s

/-- Whether a character starts a sequence or breaks one off. -/
def isInterrupt (c : Char) : Bool := c == '\x1b' || c == '\x18' || c == '\x1a'

/-- The state after a character where nothing is shown, and whether the character is shown. -/
def hidden (s : ControlState) (c : Char) : ControlState × Bool :=
  if isInterrupt c then (s.interrupt c, false)
  else match s with
    | plain => (plain, isShown c)
    | escape | intermediate | sequence =>
      if isControl c || 0x80 ≤ c.toNat then (s, isKeptControl c) else (s.next c, false)
    | _ => (s.next c, false)

/-- The state after a character where text is shown, and whether the character is shown. A character
beyond ASCII ends the sequence in which the text stands. -/
def shown (s : ControlState) (c : Char) : ControlState × Bool :=
  if isShown c then (if 0x80 ≤ c.toNat then plain else s, true) else (s.interrupt c, false)

end ControlState

/-- What is shown of a text after a state, where `showing` says that the character before was
shown. -/
def visibleFrom (showing : Bool) (s : ControlState) : List Char → List Char
  | [] => []
  | c :: cs =>
    let (s, kept) := if showing then s.shown c else s.hidden c
    if kept then c :: visibleFrom true s cs else visibleFrom false s cs

/-- A text without control characters and control sequences. -/
def visible (text : String) : String := String.ofList (visibleFrom false .plain text.toList)

end Idl.Text
