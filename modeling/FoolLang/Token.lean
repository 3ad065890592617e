import FoolLang.Ident
/-!
# Token — the words of the language

A token is a mark, which has one spelling, a number or a name.  The marks are the operators, the punctuation and
the reserved words.
-/
namespace FoolLang

/-- A token with one spelling. -/
inductive Mark
  | plus | minus | times | div | eq | ge | le | not | and | or
  | lparen | rparen | lbrace | rbrace | semicolon | colon | comma | dot | assign
  | kwLet | kwIn | kwVar | kwFun | kwClass | kwExtends | kwNew | kwNull | kwIf | kwThen | kwElse | kwPrint
  | kwTrue | kwFalse | kwInt | kwBool
  deriving DecidableEq

namespace Mark

def spelling : Mark → List Char
  | plus => "+".toList | minus => "-".toList | times => "*".toList | div => "/".toList
  | eq => "==".toList | ge => ">=".toList | le => "<=".toList
  | not => "!".toList | and => "&&".toList | or => "||".toList
  | lparen => "(".toList | rparen => ")".toList | lbrace => "\x7b".toList | rbrace => "\x7d".toList
  | semicolon => ";".toList | colon => ":".toList | comma => ",".toList | dot => ".".toList | assign => ":=".toList
  | kwLet => "let".toList | kwIn => "in".toList | kwVar => "var".toList | kwFun => "fun".toList
  | kwClass => "class".toList | kwExtends => "extends".toList | kwNew => "new".toList | kwNull => "null".toList
  | kwIf => "if".toList | kwThen => "then".toList | kwElse => "else".toList | kwPrint => "print".toList
  | kwTrue => "true".toList | kwFalse => "false".toList | kwInt => "int".toList | kwBool => "bool".toList

/-- The operators and the punctuation, the ones of two characters first. -/
def signs : List Mark :=
  [eq, ge, le, and, or, assign,
   plus, minus, times, div, not, lparen, rparen, lbrace, rbrace, semicolon, colon, comma, dot]

/-- The reserved words. -/
def words : List Mark :=
  [kwLet, kwIn, kwVar, kwFun, kwClass, kwExtends, kwNew, kwNull, kwIf, kwThen, kwElse, kwPrint,
   kwTrue, kwFalse, kwInt, kwBool]

/-- Every mark, in the order in which messages list them. -/
def all : List Mark :=
  [plus, minus, times, div, eq, ge, le, not, and, or,
   lparen, rparen, lbrace, rbrace, semicolon, colon, comma, dot, assign] ++ words

end Mark

inductive Token
  | mark (m : Mark)
  | num (n : Nat)
  | id (x : Ident)
  deriving DecidableEq

namespace Token

/-- The text a token is written as. -/
def spelling : Token → List Char
  | mark m => m.spelling
  | num n => Nat.toDigits 10 n
  | id x => x.chars

/-- A token as messages show it: a mark between quotes, a number or a name bare. -/
def display : Token → String
  | mark m => String.ofList ('"' :: m.spelling ++ ['"'])
  | num n => toString n
  | id x => toString x

end Token

/-- What a stretch of source is: a token, something that is none, or the end. -/
inductive LexemeKind
  | token (t : Token)
  | invalid
  | eof
  deriving DecidableEq

/-- A stretch of source, with its first byte and the one after its last. -/
structure Lexeme where
  kind : LexemeKind
  text : List Char
  start : Nat
  stop : Nat
  deriving DecidableEq

end FoolLang
