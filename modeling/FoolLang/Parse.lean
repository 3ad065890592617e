import FoolLang.Draft.Expected
import FoolLang.Position
import FoolLang.Text.Quoted
import FoolLang.Token.Scan
/-!
# Parse — from source to tree

The first lexeme that is no token is reported before anything is read.  Then the draft takes token after token; the
first one that does not fit is reported with what would have fitted.  A `let` without declarations is reported at
its start, and only when nothing else is wrong with the program.
-/
namespace FoolLang

/-- Why a source is no program, with the bytes concerned. -/
inductive ParseError
  | invalid (text : List Char) (start stop : Nat)
  | unexpected (found : Token) (expected : List Terminal) (start stop : Nat)
  | endOfInput (expected : List Terminal) (start stop : Nat)
  | emptyLet (start : Nat)

namespace ParseError

def start : ParseError → Nat
  | .invalid _ s _ | .unexpected _ _ s _ | .endOfInput _ s _ | .emptyLet s => s

def stop : ParseError → Nat
  | .invalid _ _ e | .unexpected _ _ _ e | .endOfInput _ _ e => e
  | .emptyLet s => s

def listed (ts : List Terminal) : String := ", ".intercalate (ts.map Terminal.display)

/-- What is wrong, without the place. -/
def reason : ParseError → String
  | .invalid text _ _ => "ERR_LEXICAL: invalid character " ++ Text.quote text
  | .unexpected found ts _ _ => "ERR_SYNTAX: Unexpected " ++ found.display ++ ", expected " ++ listed ts
  | .endOfInput ts _ _ => "ERR_SYNTAX: Unexpected end of input, expected " ++ listed ts
  | .emptyLet _ => "ERR_SYNTAX: 'let' must introduce at least one declaration"

/-- The place of an error in its source. -/
def position (source : List Char) (e : ParseError) : Position := Position.locate source e.start

def message (file : String) (source : List Char) (e : ParseError) : String :=
  let p := e.position source
  let line := toString p.line
  let column := toString p.column
  file ++ ":" ++ line ++ ":" ++ column ++ ": " ++ e.reason

end ParseError

/-- A token and its span. -/
structure Spot where
  token : Token
  start : Nat
  stop : Nat

/-- The tokens of a scanned source, up to the first lexeme that is none. -/
def spots : List Lexeme → Except ParseError (List Spot)
  | [] => .ok []
  | l :: ls =>
    match l.kind with
    | .token t => (spots ls).map (⟨t, l.start, l.stop⟩ :: ·)
    | .invalid => .error (.invalid l.text l.start l.stop)
    | .eof => .ok []

namespace Draft

/-- The draft after the tokens, the last of which before them ended at `last`; at the end of the tokens the draft
must be finished. -/
def read (breaks : List Nat) (length : Nat) : Nat → List Spot → Draft → Except ParseError Program
  | _, [], .finished p => .ok p
  | last, [], d => .error (.endOfInput (d.expected none) last length)
  | _, s :: ss, d =>
    match d.step s.token (Position.ofOffset breaks s.start).line with
    | some next => read breaks length s.stop ss next
    | none => .error (.unexpected s.token (d.expected (some s.token)) s.start s.stop)

end Draft

/-- The program a source is. -/
def parse (source : List Char) : Except ParseError Program := do
  let tokens ← spots (Token.scan source)
  match ← Draft.read (lineBreaks 0 source) (Text.byteLength source) 0 tokens .start with
  | .letIn [] [] _ => .error (.emptyLet ((tokens.head?.map Spot.start).getD 0))
  | p => .ok p

end FoolLang
