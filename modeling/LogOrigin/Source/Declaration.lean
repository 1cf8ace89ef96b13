import LogOrigin.Text.Pattern

-- Lines that declare a function or method, in the common languages.

namespace LogOrigin

open Text Pattern

namespace Declaration

-- A parenthesised list that holds no closing parenthesis.
def parenthesised : Pattern :=
  inOrder [text "(", run 0 (· != ')'), text ")"]

def name : Pattern :=
  keep .name word

-- A name that starts like an identifier.
def identifier : Pattern :=
  keep .name (seq (char isIdentStart) (run 0 isWord))

def modifiers (l : List String) : Pattern :=
  seq (texts l) someBlanks

-- A type written after a colon, up to an equals sign.
def typeBeforeEquals : Pattern :=
  option (seq (text ":") (run 1 (· != '=')))

-- `pub async fn name`.
def fnForm : Pattern :=
  inOrder [
    start, blanks,
    option (inOrder [text "pub", option parenthesised, someBlanks]),
    many (seq
      (oneOf [text "const", text "async", text "unsafe",
        seq (text "extern")
          (option (inOrder [someBlanks, text "\"", run 0 (· != '"'), text "\""]))])
      someBlanks),
    text "fn", someBlanks, name]

-- `def name`, `func (receiver) name`, with a mark at the end of the name.
def defForm : Pattern :=
  inOrder [
    start, blanks,
    many (modifiers ["public", "private", "protected", "internal", "override", "open", "static",
      "suspend", "inline", "async"]),
    texts ["def", "defp", "fun", "func"], someBlanks,
    option (seq parenthesised blanks),
    option (text "self."),
    keep .name (seq word (option (char fun c => c == '?' || c == '!')))]

-- `export default async function* name`.
def functionForm : Pattern :=
  inOrder [
    start, blanks, option (modifiers ["export"]), option (modifiers ["default"]),
    option (modifiers ["async"]), text "function", blanks, option (text "*"), blanks, name]

-- `const name = (arguments) =>`.
def arrowForm : Pattern :=
  inOrder [
    start, blanks, option (modifiers ["export"]), modifiers ["const", "let", "var"], name, blanks,
    typeBeforeEquals, text "=", blanks, option (modifiers ["async"]),
    oneOf [
      seq (text "function") boundary,
      inOrder [parenthesised, blanks, typeBeforeEquals, text "=>"],
      inOrder [word, blanks, text "=>"]]]

def isTypeChar (c : Char) : Bool :=
  isWord c || "<>[],.?*&:".toList.contains c || isBlank c

-- `public static Type name(arguments`.
def methodForm : Pattern :=
  let modifier := modifiers ["public", "private", "protected", "static", "final", "abstract",
    "synchronized", "virtual", "override", "async", "internal", "sealed", "extern", "inline"]
  inOrder [
    start, blanks, modifier, many modifier, shyRun isTypeChar, boundary, name, blanks, text "(",
    run 0 (· != ';'), finish]

def isResultChar (c : Char) : Bool :=
  isWord c || "<>[]|. ".toList.contains c

-- `name(arguments): Type {`.
def shorthandForm : Pattern :=
  inOrder [
    start, blanks, option (modifiers ["async"]), identifier, blanks, text "(",
    run 0 (fun c => c != '(' && c != ')'), text ")", blanks,
    option (inOrder [text ":", blanks, run 1 isResultChar]), blanks, text "\x7b", blanks, finish]

def isReturnChar (c : Char) : Bool :=
  isWord c || ":<>*&".toList.contains c

-- `Type name(arguments) const {`.
def typedForm : Pattern :=
  let part := seq (run 1 isReturnChar) someBlanks
  inOrder [
    start, blanks, keep .result (seq part (many part)), option (text "*"), identifier, blanks,
    text "(", run 0 (· != ';'), text ")", blanks, option (seq (text "const") blanks),
    option (text "\x7b"), blanks, finish]

def forms : List Pattern :=
  [fnForm, defForm, functionForm, arrowForm, methodForm, shorthandForm, typedForm]

-- Keywords that stand where a name or a type would.
def keywords : List Text :=
  ["if", "for", "while", "switch", "catch", "return", "else", "match", "new", "throw", "await",
    "yield", "case", "delete", "typeof", "sizeof", "do", "try", "with", "elif", "when",
    "loop"].map String.toList

def isKeyword (t : Text) : Bool :=
  keywords.contains t

-- The name that a form reads from a line, unless it or the first word of the type is a keyword.
def nameBy? (line : Text) (form : Pattern) : Option Text :=
  match form.match? line with
  | none   => none
  | some p =>
    match p.kept? .name with
    | none   => none
    | some n =>
      if isKeyword n then none
      else if ((p.kept? .result).bind fun r => (words r).head?).any isKeyword then none
      else some n

-- The name declared on a line, by the first form that reads one.
def name? (line : Text) : Option Text :=
  forms.findSome? (nameBy? line)

def isDeclaration (line : Text) : Bool :=
  (name? line).isSome

end Declaration

end LogOrigin
