import FoolLang.Draft.Step
/-!
# Expected — the tokens that could have followed

A message about a token that does not fit lists what does, each kind of token once and in a fixed order.  There is
one exception to "everything that the draft takes": a token that can follow an expression somewhere settles the
operand before it even where it does not fit, and then only the loosest operators and what closes the construct
around the expression remain.
-/
namespace FoolLang

/-- A kind of token. -/
inductive Terminal
  | mark (m : Mark)
  | num
  | id
  deriving DecidableEq

namespace Terminal

/-- Every kind, in the order in which messages list them. -/
def all : List Terminal := Mark.all.map .mark ++ [.num, .id]

/-- A token of the kind. -/
def sample : Terminal → Token
  | .mark m => .mark m
  | .num => .num 0
  | .id => .id ⟨['x']⟩

/-- The kind as messages list it, between quotes. -/
def display : Terminal → String
  | .mark m => (Token.mark m).display
  | .num => "\"num\""
  | .id => "\"id\""

end Terminal

/-- The marks that can follow an expression somewhere. -/
def Mark.endsExpr : Mark → Bool
  | .semicolon | .rparen | .rbrace | .comma | .kwThen => true
  | _ => false

/-- What is left to list once an operand is settled: the loosest operators and what ends an expression. -/
def Terminal.isLoose : Terminal → Bool
  | .mark .and | .mark .or => true
  | .mark m => m.endsExpr
  | _ => false

namespace Draft

/-- Whether a draft takes a kind of token. -/
def takes (d : Draft) (t : Terminal) : Bool := (d.step t.sample 0).isSome

/-- Whether an operand has just been completed. -/
def atOperandEnd : Draft → Bool
  | .expr (.value _) _ _ | .expr (.name _ _) _ _ => true
  | _ => false

/-- The kinds of token listed when `bad` does not fit, or when the input ends. -/
def expected (d : Draft) (bad : Option Token) : List Terminal :=
  let listed := Terminal.all.filter d.takes
  match bad with
  | some (.mark m) => if d.atOperandEnd && m.endsExpr then listed.filter Terminal.isLoose else listed
  | _ => listed

end Draft
end FoolLang
