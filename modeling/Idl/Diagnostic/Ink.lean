/-!
# Styled text

A text with styles is a list of pieces: texts, and changes of the style. It can be written without
the styles, or with them as escape sequences of a terminal.
-/

namespace Idl

/-- How a text looks. -/
inductive InkStyle where
  | header
  | headerMessage
  | primary
  | secondary
deriving DecidableEq, Repr

/-- The escape sequences that turn on a style. -/
def InkStyle.escapes : InkStyle → String
  | header => "\x1b[1m\x1b[38;5;9m"
  | headerMessage => "\x1b[1m"
  | primary => "\x1b[31m"
  | secondary => "\x1b[34m"

/-- A piece of a text with styles. -/
inductive Ink where
  | text (s : String)
  | set (style : InkStyle)
  | reset
deriving DecidableEq, Repr

namespace Ink

/-- The escape sequence that turns off all styles. -/
def resetEscape : String := "\x1b[0m"

/-- A piece, with escape sequences if `colour` is set. A new style replaces the old one. -/
def write (colour : Bool) : Ink → String
  | text s => s
  | set style => if colour then resetEscape ++ style.escapes else ""
  | reset => if colour then resetEscape else ""

/-- Pieces one after the other. -/
def writeAll (colour : Bool) (inks : List Ink) : String := String.join (inks.map (write colour))

/-- A text in a style of its own. -/
def styled (style : InkStyle) (s : String) : List Ink := [set style, text s, reset]

/-- The same character a number of times. -/
def repeated (n : Nat) (c : Char) : List Ink := if n = 0 then [] else [text (String.ofList (List.replicate n c))]

end Ink

end Idl
