import LogOrigin.Text.Pattern

-- Lines that log something and lines that import something.

namespace LogOrigin

open Text Pattern

namespace Statement

-- A logger with a member after it, a call of a function that prints, or a raised error.
def logging : Pattern :=
  oneOf [
    inOrder [
      boundary,
      anyCases ["log", "logger", "logging", "console", "tracing", "slog", "logrus", "zap", "timber",
        "system.out", "system.err"],
      blanks, texts [".", "::", "->"], blanks, word],
    inOrder [
      boundary,
      anyCases ["print", "println", "eprintln", "eprint", "printf", "fprintf", "puts", "info",
        "debug", "warn", "warning", "error", "trace", "fatal", "critical", "panic", "bail",
        "unreachable"],
      option (text "!"), blanks, text "("],
    inOrder [boundary, anyCases ["throw", "raise"], boundary]]

def isLogging (line : Text) : Bool :=
  logging.occursIn line

def notBlank (c : Char) : Bool :=
  !isBlank c

def imports : Pattern :=
  inOrder [
    start, blanks, option (seq (text "pub") someBlanks),
    oneOf [
      inOrder [text "use", someBlanks, char fun c => isWord c || c == ':' || c == '\x7b'],
      seq (text "import") (char isBlank),
      inOrder [text "from", someBlanks, run 1 notBlank, someBlanks, text "import", boundary],
      inOrder [text "#", blanks, text "include", boundary],
      inOrder [text "extern", someBlanks, text "crate", boundary],
      inOrder [text "using", someBlanks, run 1 (fun c => isWord c || c == '.'), blanks, text ";"],
      inOrder [
        texts ["const", "let", "var"], someBlanks, run 0 (· != '\n'), text "=", blanks,
        text "require", blanks, text "("],
      inOrder [
        text "require", option (text "_relative"), char fun c => isBlank c || c == '(']]]

def isImport (line : Text) : Bool :=
  (imports.match? line).isSome

end Statement

end LogOrigin
