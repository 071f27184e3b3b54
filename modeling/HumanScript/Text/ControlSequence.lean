/-! Texts for readers other than terminals: without control characters and control sequences. -/
namespace HumanScript.Text

/-- What has been opened before a character and is not yet closed. -/
inductive Sequence where
  | closed
  | escape
  | escapeTail
  | control
  -- A string for a device has parameters, then a tail, in front of its body.
  | device
  | deviceParameters
  | deviceTail
  | string
  | request
deriving DecidableEq

/-- Blanks act at once, also in the middle of a sequence. -/
def isActingBlank (c : Char) : Bool := c = '\t' || c = '\n' || c = '\x0c' || c = '\r'

def isShown (c : Char) : Bool := isActingBlank c || (' ' ≤ c && c ≠ '\x7f')

/-- Whether the string terminator, a byte of its own, is among the bytes of a character. -/
def holdsTerminator (c : Char) : Bool := (String.utf8EncodeChar c).contains 0x9C

namespace Sequence

def ofEscape (c : Char) : Sequence :=
  if ' ' ≤ c && c ≤ '/' then escapeTail
  else if c = '[' then control
  else if c = ']' then request
  else if c = 'P' then device
  else if c = 'X' || c = '^' || c = '_' then string
  else if '0' ≤ c && c ≤ '~' then closed
  else escape

/-- What is open after a character that is not shown. An escape always opens anew, and a cancelling
character closes everything. -/
def next (s : Sequence) (c : Char) : Sequence :=
  if c = '\x1b' then escape
  else if c = '\x18' || c = '\x1a' then closed
  else
    match s with
    | closed => closed
    | escape => ofEscape c
    | escapeTail => if '0' ≤ c && c ≤ '~' then closed else escapeTail
    | control => if '@' ≤ c && c ≤ '~' then closed else control
    | device =>
      if ' ' ≤ c && c ≤ '/' then deviceTail
      else if c = ':' || ('@' ≤ c && c ≤ '~') then string
      else if '0' ≤ c && c ≤ '?' then deviceParameters
      else device
    | deviceParameters =>
      if ' ' ≤ c && c ≤ '/' then deviceTail
      else if ('0' ≤ c && c ≤ '9') || c = ';' then deviceParameters
      else if ':' ≤ c && c ≤ '~' then string
      else deviceParameters
    | deviceTail => if '0' ≤ c && c ≤ '~' then string else deviceTail
    | string => if holdsTerminator c then closed else string
    | request => if c = '\x07' then closed else request

def passesBlanks : Sequence → Bool
  | escape | escapeTail | control => true
  | _ => false

end Sequence

/-- What is left of a text when `s` is open at its start. Behind a shown character (`showing`) the
text goes on up to the next control character, and only there does an open sequence go on. A
character beyond ASCII closes the sequence for good. -/
def stripFrom : Sequence → Bool → List Char → List Char
  | _, _, [] => []
  | s, showing, c :: cs =>
    if isShown c && (showing || s = .closed || (isActingBlank c && s.passesBlanks)) then
      c :: stripFrom (if c.toNat < 0x80 then s else .closed) true cs
    else stripFrom (s.next c) false cs

def stripControls (text : String) : String :=
  String.ofList (stripFrom .closed false text.toList)

end HumanScript.Text
