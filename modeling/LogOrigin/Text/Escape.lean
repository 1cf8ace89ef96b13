import LogOrigin.Text.Scan

-- Terminal escape sequences: colours and cursor moves, hyperlinks and titles, and the short ones.

namespace LogOrigin

namespace Text

namespace Escape

def esc : Char := '\x1b'

def bell : Char := '\x07'

def isParameter (c : Char) : Bool :=
  isAsciiDigit c || c == ';' || c == '?'

def isIntermediate (c : Char) : Bool :=
  ' ' ≤ c && c ≤ '/'

def isFinal (c : Char) : Bool :=
  '@' ≤ c && c ≤ '~'

-- What may follow an escape character directly, the bracket of a control sequence excepted.
def isShort (c : Char) : Bool :=
  '@' ≤ c && c ≤ '_' && c != '['

-- The number of characters of a control sequence after its bracket.
def controlLength? (t : Text) : Option Nat :=
  let parameters := t.takeWhile isParameter
  let t := t.dropWhile isParameter
  let intermediates := t.takeWhile isIntermediate
  match t.dropWhile isIntermediate with
  | c :: _ => if isFinal c then some (parameters.length + intermediates.length + 1) else none
  | []     => none

-- The number of characters of a system command after its bracket, the terminator included.
def commandLength? (t : Text) : Option Nat :=
  let body := t.takeWhile fun c => c != bell && c != esc
  match t.dropWhile fun c => c != bell && c != esc with
  | c :: t =>
    if c = bell then some (body.length + 1)
    else if t.head? = some '\\' then some (body.length + 2)
    else none
  | []     => none

-- The length of the escape sequence at the front of a text.
def length? : Text → Option Nat
  | e :: c :: t =>
    if e ≠ esc then none
    else if c = '[' then (controlLength? t).map (· + 2)
    else if c = ']' then some ((commandLength? t).getD 0 + 2)
    else if isShort c then some 2
    else none
  | _           => none

end Escape

-- The text without its escape sequences.
def stripEscapes (t : Text) : Text :=
  replaceAll (fun _ t => Escape.length? t) [] t

end Text

end LogOrigin
