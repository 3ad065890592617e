import FoolLang.Draft
import FoolLang.Token
/-!
# Step — one more token

A draft either takes a token or does not; there is never a choice.  Binary operators wait in frames: an operator
first completes every frame that binds as tightly as itself or tighter, so that all of them associate to the left,
and a token that ends the expression completes them all.
-/
namespace FoolLang

/-- How tightly an operator binds. -/
def BinOp.level : BinOp → Nat
  | .and | .or => 0
  | .equal | .greaterEqual | .lessEqual => 1
  | .plus | .minus => 2
  | .times | .div => 3

/-- The binary operator a mark stands for. -/
def Mark.binOp? : Mark → Option BinOp
  | .plus => some .plus | .minus => some .minus | .times => some .times | .div => some .div
  | .eq => some .equal | .ge => some .greaterEqual | .le => some .lessEqual
  | .and => some .and | .or => some .or
  | _ => none

/-- Completes the frames that bind at `level` or tighter. -/
def settle (level : Nat) (e : Expr) : List Frame → Expr × List Frame
  | .not line :: fs => settle level (.not line e) fs
  | .binary line op left :: fs =>
    if level ≤ op.level then settle level (.binary line op left e) fs else (e, .binary line op left :: fs)
  | fs => (e, fs)

namespace Draft

/-- A token where an operand must begin. -/
def operand (t : Token) (line : Nat) (frames : List Frame) (site : Site) : Option Draft :=
  match t with
  | .num n => some (.expr (.value (.int line (Int32.ofNat n))) frames site)
  | .id x => some (.expr (.name line x) frames site)
  | .mark .minus => some (.expr (.negative line) frames site)
  | .mark .kwTrue => some (.expr (.value (.bool line true)) frames site)
  | .mark .kwFalse => some (.expr (.value (.bool line false)) frames site)
  | .mark .kwNull => some (.expr (.value (.null line)) frames site)
  | .mark .not => some (.expr .operand (.not line :: frames) site)
  | .mark .lparen => some (.expr .operand (.group :: frames) site)
  | .mark .kwPrint => some (.expr (.printOpen line) frames site)
  | .mark .kwIf => some (.expr .operand (.test line :: frames) site)
  | .mark .kwNew => some (.expr (.newName line) frames site)
  | .mark .rparen =>
    match frames with
    | .args l head [] :: fs => some (.expr (.value (head.apply l [])) fs site)
    | _ => none
  | _ => none

/-- A token that ends the expression `e`, whose frames are settled. -/
def close (m : Mark) (e : Expr) (frames : List Frame) (site : Site) : Option Draft :=
  match m, frames with
  | .rparen, .group :: fs => some (.expr (.value e) fs site)
  | .rparen, .print line :: fs => some (.expr (.value (.print line e)) fs site)
  | .rparen, .args line head done :: fs => some (.expr (.value (head.apply line (e :: done).reverse)) fs site)
  | .comma, .args line head done :: fs => some (.expr .operand (.args line head (e :: done) :: fs) site)
  | .kwThen, .test line :: fs => some (.expr (.yesOpen line e) fs site)
  | .rbrace, .yes line test :: fs => some (.expr (.elseWord line test e) fs site)
  | .rbrace, .no line test yes :: fs => some (.expr (.value (.cond line test yes e)) fs site)
  | .semicolon, [] => some (site.close e)
  | _, _ => none

/-- A token after the complete operand `e`. -/
def afterOperand (t : Token) (line : Nat) (e : Expr) (frames : List Frame) (site : Site) : Option Draft :=
  match t with
  | .mark m =>
    match m.binOp? with
    | some op =>
      let (left, fs) := settle op.level e frames
      some (.expr .operand (.binary line op left :: fs) site)
    | none =>
      let (whole, fs) := settle 0 e frames
      close m whole fs site
  | _ => none

/-- A token inside an expression. -/
def inExpr (t : Token) (line : Nat) (frames : List Frame) (site : Site) : Focus → Option Draft
  | .operand => operand t line frames site
  | .value e => afterOperand t line e frames site
  | .name l x =>
    match t with
    | .mark .lparen => some (.expr .operand (.args l (.call x) [] :: frames) site)
    | .mark .dot => some (.expr (.methodName l x) frames site)
    | _ => afterOperand t line (.id l (.fresh x)) frames site
  | .negative l =>
    match t with
    | .num n => some (.expr (.value (.int l (-Int32.ofNat n))) frames site)
    | _ => none
  | .printOpen l =>
    match t with
    | .mark .lparen => some (.expr .operand (.print l :: frames) site)
    | _ => none
  | .argsOpen l head =>
    match t with
    | .mark .lparen => some (.expr .operand (.args l head [] :: frames) site)
    | _ => none
  | .newName l =>
    match t with
    | .id x => some (.expr (.argsOpen l (.new x)) frames site)
    | _ => none
  | .methodName l o =>
    match t with
    | .id x => some (.expr (.argsOpen l (.send o x)) frames site)
    | _ => none
  | .yesOpen l test =>
    match t with
    | .mark .lbrace => some (.expr .operand (.yes l test :: frames) site)
    | _ => none
  | .elseWord l test yes =>
    match t with
    | .mark .kwElse => some (.expr (.noOpen l test yes) frames site)
    | _ => none
  | .noOpen l test yes =>
    match t with
    | .mark .lbrace => some (.expr .operand (.no l test yes :: frames) site)
    | _ => none

/-- A token between declarations. -/
def inBlock (t : Token) (line : Nat) (b : Block) : Option Draft :=
  match t with
  | .mark .kwVar => some (.bind .name (.var line b))
  | .mark .kwFun => some (.bind .name (.routine line (.block b)))
  | .mark .kwClass =>
    match b with
    | .main cs [] => some (.className cs line)
    | _ => none
  | .mark .kwIn =>
    match b with
    | .main cs ds => some (.expr .operand [] (.main cs ds))
    | .locals _ [] _ => none
    | .locals head (d :: ds) owner => some (.expr .operand [] (.body head (d :: ds) owner))
  | _ => none

/-- A token where a typed name must begin.  An empty list of fields or parameters may close instead. -/
def inName (t : Token) (line : Nat) (p : Purpose) : Option Draft :=
  match t, p with
  | .id x, .var l _ => some (.bind (.colon l x) p)
  | .id x, .routine l _ => some (.bind (.colon l x) p)
  | .id x, .field _ _ => some (.bind (.colon line x) p)
  | .id x, .param _ _ _ => some (.bind (.colon line x) p)
  | .mark .rparen, .field head [] => some (.classOpen head [])
  | .mark .rparen, .param name [] owner => some (.routineOpen ⟨name, []⟩ owner)
  | _, _ => none

/-- The type a token names in a declaration. -/
def typeOf? : Token → Option Ty
  | .mark .kwInt => some .int
  | .mark .kwBool => some .bool
  | .id x => some (.ref x)
  | _ => none

/-- A token after a typed name. -/
def afterBinding (t : Token) (b : Binding) (p : Purpose) : Option Draft :=
  match t, p with
  | .mark .assign, .var _ blk => some (.expr .operand [] (.var b blk))
  | .mark .lparen, .routine _ owner => some (.bind .name (.param b [] owner))
  | .mark .comma, .field head done => some (.bind .name (.field head (b :: done)))
  | .mark .rparen, .field head done => some (.classOpen head (b :: done).reverse)
  | .mark .comma, .param name done owner => some (.bind .name (.param name (b :: done) owner))
  | .mark .rparen, .param name done owner => some (.routineOpen ⟨name, (b :: done).reverse⟩ owner)
  | _, _ => none

/-- The draft after one more token, which stands on `line`; none if the token cannot follow. -/
def step (t : Token) (line : Nat) : Draft → Option Draft
  | .start =>
    match t with
    | .mark .kwLet => some (.block (.main [] []))
    | _ => operand t line [] .program
  | .expr focus frames site => inExpr t line frames site focus
  | .block b => inBlock t line b
  | .methods c =>
    match t with
    | .mark .kwFun => some (.bind .name (.routine line (.cls c)))
    | .mark .rbrace => some (.block (.main (c.close :: c.head.earlier) []))
    | _ => none
  | .bind .name p => inName t line p
  | .bind (.colon l x) p =>
    match t with
    | .mark .colon => some (.bind (.ty l x) p)
    | _ => none
  | .bind (.ty l x) p => (typeOf? t).map fun ty => .bind (.done ⟨l, x, ty⟩) p
  | .bind (.done b) p => afterBinding t b p
  | .className earlier l =>
    match t with
    | .id x => some (.classHead ⟨earlier, l, x, none⟩)
    | _ => none
  | .classHead head =>
    match t with
    | .mark .kwExtends => some (.superName head)
    | .mark .lparen => some (.bind .name (.field head []))
    | _ => none
  | .superName head =>
    match t with
    | .id x => some (.superDone { head with super := some x })
    | _ => none
  | .superDone head =>
    match t with
    | .mark .lparen => some (.bind .name (.field head []))
    | _ => none
  | .classOpen head fields =>
    match t with
    | .mark .lbrace => some (.methods ⟨head, fields, []⟩)
    | _ => none
  | .routineOpen head owner =>
    match t with
    | .mark .kwLet => some (.block (.locals head [] owner))
    | _ => operand t line [] (.body head [] owner)
  | .finished _ => none

end Draft
end FoolLang
