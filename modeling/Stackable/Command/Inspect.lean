import Stackable.Command.Check
import Stackable.Dump.Tree

/-!
# Looking at tokens and trees
-/

set_option autoImplicit false

namespace Stackable.Inspect

/-- What is wrong with a source, in place of what was asked for. -/
def failure (file : String) (source : List Char) (phase : String) (format : Format)
    (diagnostics : List Diagnostic) : Outcome :=
  match format with
  | .human =>
    { exitCode := 1
      errors := Check.diagnosticLines file source diagnostics ++
        Outcome.line (Outcome.bannerFail phase diagnostics.length) }
  | .json =>
    { exitCode := 1
      output := Outcome.line
        [.plain (Report.ofDiagnostics (.ofSource source) file diagnostics).value.write] }

def title (text : String) : List Styled :=
  Outcome.line (Outcome.line [.dimmed "===", .plain (" " ++ text ++ " "), .dimmed "==="])

def padRight (width : Nat) (text : String) : String := text ++ Snippet.blanks (width - text.length)

def tokenLine (t : Token) : List Styled :=
  Outcome.line
    [.plain (Snippet.padLeft 4 (toString t.span.start) ++ ":" ++ padRight 4 (toString t.span.stop) ++
      " " ++ t.kind.dump.inline)]

def tokenValue (t : Token) : JsonValue :=
  .object [("kind", .string t.kind.dump.inline), ("span", Report.spanValue t.span)]

def tokens (file : String) (format : Format) (source : List Char) : Outcome :=
  let lexed := Lexer.tokenize source
  if lexed.errors.isEmpty then
    let count := toString lexed.tokens.length
    match format with
    | .human =>
      { exitCode := 0
        output := title ("Tokens (" ++ count ++ ")") ++
          (lexed.tokens.filter fun t => !t.kind.isEof).flatMap tokenLine ++
          Outcome.newline :: Outcome.line (Outcome.bannerOk ("Lex: " ++ count ++ " tokens")) }
    | .json =>
      { exitCode := 0
        output := Outcome.line [.plain (JsonValue.array (lexed.tokens.map tokenValue)).write] }
  else failure file source "Lex" format (lexed.errors.map LexError.diagnostic)

def declarationLines (d : Decl) (index : Nat) : List Styled :=
  Outcome.line [.plain ("--- Declaration " ++ toString (index + 1) ++ " ---")] ++
    Outcome.line [.plain (d.dump.indented 0)] ++ [Outcome.newline]

def tree (file : String) (format : Format) (source : List Char) : Outcome :=
  let lexed := Lexer.tokenize source
  let (unit, parseErrors) := parseTokens lexed.tokens
  let diagnostics := lexed.errors.map LexError.diagnostic ++ parseErrors.map ParseError.diagnostic
  if diagnostics.isEmpty then
    match format with
    | .human =>
      { exitCode := 0
        output := title ("AST (" ++ toString unit.decls.length ++ " declarations)") ++
          (unit.decls.zipIdx.flatMap fun (d, i) => declarationLines d i) ++
          Outcome.line (Outcome.bannerOk "Parse") }
    | .json =>
      { exitCode := 0
        output := Outcome.line [.plain (Report.ofDiagnostics (.ofSource source) file []).value.write] }
  else failure file source "Parse" format diagnostics

def command (w : Workspace) (file : String) (view : List Char → Outcome) : Outcome :=
  match w.text file with
  | .ok source => view source
  | .error cause => { exitCode := 1, errors := Outcome.readFailure file cause }

end Stackable.Inspect
