import FoolLang.Draft
import FoolLang.Token
/-!
# Grammar — the sentences of the language

Which lists of tokens are programs, and the tree that each of them stands for.  A construct relates the tokens it is
written with to its tree, and a node takes its line from a token: the first of the construct, or the operator.
Nothing here says how a program is read.
-/
namespace FoolLang

/-- A token and the line it stands on. -/
structure LinedToken where
  token : Token
  line : Nat

def Mark.on (m : Mark) (line : Nat) : LinedToken := ⟨.mark m, line⟩

/-! ## Lists -/

section Lists

variable {α : Type} (P : List LinedToken → α → Prop)

/-- Any number of items, one after the other. -/
inductive Many : List LinedToken → List α → Prop
  | nil : Many [] []
  | cons {ts us : List LinedToken} {x : α} {xs : List α} (head : P ts x) (tail : Many us xs) :
    Many (ts ++ us) (x :: xs)

/-- Items with a comma before each. -/
inductive More : List LinedToken → List α → Prop
  | nil : More [] []
  | cons {l : Nat} {ts us : List LinedToken} {x : α} {xs : List α} (head : P ts x) (tail : More us xs) :
    More (Mark.on .comma l :: (ts ++ us)) (x :: xs)

/-- Items with a comma between any two. -/
inductive Listed : List LinedToken → List α → Prop
  | nil : Listed [] []
  | cons {ts us : List LinedToken} {x : α} {xs : List α} (head : P ts x) (tail : More P us xs) :
    Listed (ts ++ us) (x :: xs)

end Lists

/-! ## Expressions -/

/-- The layers of binary operators, the loosest first, and the mark of each operator. -/
inductive Operator : Nat → Mark → BinOp → Prop
  | and : Operator 0 .and .and
  | or : Operator 0 .or .or
  | equal : Operator 1 .eq .equal
  | greaterEqual : Operator 1 .ge .greaterEqual
  | lessEqual : Operator 1 .le .lessEqual
  | plus : Operator 2 .plus .plus
  | minus : Operator 2 .minus .minus
  | times : Operator 3 .times .times
  | div : Operator 3 .div .div

/-- The layers of expressions, over the unary ones.  The left operand of an operator may be of the operator's own
layer, the right one may not: the operators associate to the left. -/
inductive Layered (unary : List LinedToken → Expr → Prop) : Nat → List LinedToken → Expr → Prop
  | binary {n l : Nat} {m : Mark} {op : BinOp} {ts us : List LinedToken} {a b : Expr} (operator : Operator n m op)
    (left : Layered unary n ts a) (right : Layered unary (n + 1) us b) :
    Layered unary n (ts ++ m.on l :: us) (.binary l op a b)
  | tighter {n : Nat} {ts : List LinedToken} {e : Expr} (inner : Layered unary (n + 1) ts e) : Layered unary n ts e
  | unary {ts : List LinedToken} {e : Expr} (inner : unary ts e) : Layered unary 4 ts e

mutual

inductive UnaryText : List LinedToken → Expr → Prop
  | not {l : Nat} {ts : List LinedToken} {e : Expr} (arg : UnaryText ts e) :
    UnaryText (Mark.on .not l :: ts) (.not l e)
  | atom {ts : List LinedToken} {e : Expr} (inner : AtomText ts e) : UnaryText ts e

/-- The operands.  Parentheses make no node, and `-` before a number is part of the number. -/
inductive AtomText : List LinedToken → Expr → Prop
  | num (l n : Nat) : AtomText [⟨.num n, l⟩] (.int l (Int32.ofNat n))
  | negative (l l' n : Nat) : AtomText [Mark.on .minus l, ⟨.num n, l'⟩] (.int l (-Int32.ofNat n))
  | yes (l : Nat) : AtomText [Mark.on .kwTrue l] (.bool l true)
  | no (l : Nat) : AtomText [Mark.on .kwFalse l] (.bool l false)
  | null (l : Nat) : AtomText [Mark.on .kwNull l] (.null l)
  | new {l lc lo le : Nat} {c : Ident} {ts : List LinedToken} {es : List Expr}
    (args : Listed (Layered UnaryText 0) ts es) :
    AtomText (Mark.on .kwNew l :: ⟨.id c, lc⟩ :: Mark.on .lparen lo :: (ts ++ [Mark.on .rparen le])) (.new l c none es)
  | cond {l lt lo lc le lo' lc' : Nat} {ts us vs : List LinedToken} {t y n : Expr} (test : Layered UnaryText 0 ts t)
    (yes : Layered UnaryText 0 us y) (no : Layered UnaryText 0 vs n) :
    AtomText
      (Mark.on .kwIf l :: (ts ++ Mark.on .kwThen lt :: Mark.on .lbrace lo :: (us ++ Mark.on .rbrace lc ::
        Mark.on .kwElse le :: Mark.on .lbrace lo' :: (vs ++ [Mark.on .rbrace lc']))))
      (.cond l t y n)
  | print {l lo lc : Nat} {ts : List LinedToken} {e : Expr} (arg : Layered UnaryText 0 ts e) :
    AtomText (Mark.on .kwPrint l :: Mark.on .lparen lo :: (ts ++ [Mark.on .rparen lc])) (.print l e)
  | group {lo lc : Nat} {ts : List LinedToken} {e : Expr} (inner : Layered UnaryText 0 ts e) :
    AtomText (Mark.on .lparen lo :: (ts ++ [Mark.on .rparen lc])) e
  | id (l : Nat) (x : Ident) : AtomText [⟨.id x, l⟩] (.id l (.fresh x))
  | call {l lo lc : Nat} {f : Ident} {ts : List LinedToken} {es : List Expr}
    (args : Listed (Layered UnaryText 0) ts es) :
    AtomText (⟨.id f, l⟩ :: Mark.on .lparen lo :: (ts ++ [Mark.on .rparen lc])) (.call l (.fresh f) es)
  | send {l ld lm lo lc : Nat} {x m : Ident} {ts : List LinedToken} {es : List Expr}
    (args : Listed (Layered UnaryText 0) ts es) :
    AtomText (⟨.id x, l⟩ :: Mark.on .dot ld :: ⟨.id m, lm⟩ :: Mark.on .lparen lo :: (ts ++ [Mark.on .rparen lc]))
      (.send l (.fresh x) m none es)

end

abbrev ExprText : List LinedToken → Expr → Prop := Layered UnaryText 0

/-! ## Declarations -/

inductive TypeText : List LinedToken → Ty → Prop
  | int (l : Nat) : TypeText [Mark.on .kwInt l] .int
  | bool (l : Nat) : TypeText [Mark.on .kwBool l] .bool
  | ref (l : Nat) (c : Ident) : TypeText [⟨.id c, l⟩] (.ref c)

inductive BindingText : List LinedToken → Binding → Prop
  | mk {l lc : Nat} {x : Ident} {ts : List LinedToken} {ty : Ty} (type : TypeText ts ty) :
    BindingText (⟨.id x, l⟩ :: Mark.on .colon lc :: ts) ⟨l, x, ty⟩

section Routines

variable (dec : List LinedToken → Dec → Prop)

/-- The declarations at the head of a routine: none at all, or some between `let` and `in`. -/
inductive LocalsText : List LinedToken → List Dec → Prop
  | none : LocalsText [] []
  | some {l li : Nat} {ts : List LinedToken} {ds : List Dec} (decs : Many dec ts ds) (nonempty : ds ≠ []) :
    LocalsText (Mark.on .kwLet l :: (ts ++ [Mark.on .kwIn li])) ds

/-- A function or a method, as a method without an offset. -/
inductive RoutineText : List LinedToken → Method → Prop
  | mk {l lo lc le : Nat} {bs ps ls es : List LinedToken} {name : Binding} {params : List Binding} {ds : List Dec}
    {e : Expr} (heading : BindingText bs name) (parameters : Listed BindingText ps params)
    (locals : LocalsText dec ls ds) (body : ExprText es e) :
    RoutineText
      (Mark.on .kwFun l :: (bs ++ Mark.on .lparen lo :: (ps ++ Mark.on .rparen lc ::
        (ls ++ (es ++ [Mark.on .semicolon le])))))
      ⟨l, name.id, name.ty, params.map Binding.param, ds, e, 0⟩

end Routines

inductive DecText : List LinedToken → Dec → Prop
  | var {l la le : Nat} {bs es : List LinedToken} {name : Binding} {e : Expr} (heading : BindingText bs name)
    (value : ExprText es e) :
    DecText (Mark.on .kwVar l :: (bs ++ Mark.on .assign la :: (es ++ [Mark.on .semicolon le])))
      (.var l name.id name.ty e)
  | func {ts : List LinedToken} {m : Method} (routine : RoutineText DecText ts m) :
    DecText ts (.func m.line m.id m.ret m.params m.locals m.body)

inductive SuperText : List LinedToken → Option Ident → Prop
  | none : SuperText [] none
  | some (l lc : Nat) (c : Ident) : SuperText [Mark.on .kwExtends l, ⟨.id c, lc⟩] (some c)

inductive ClassText : List LinedToken → Class → Prop
  | mk {l lc lo lp lb le : Nat} {c : Ident} {ss fs ms : List LinedToken} {super : Option Ident} {fields : List Binding}
    {methods : List Method} (parent : SuperText ss super) (state : Listed BindingText fs fields)
    (routines : Many (RoutineText DecText) ms methods) :
    ClassText
      (Mark.on .kwClass l :: ⟨.id c, lc⟩ :: (ss ++ Mark.on .lparen lo :: (fs ++ Mark.on .rparen lp ::
        Mark.on .lbrace lb :: (ms ++ [Mark.on .rbrace le]))))
      ⟨l, c, super, fields.map Binding.field, methods, none, none⟩

/-- The programs: a body after the classes and then the other declarations, or alone. -/
inductive Sentence : List LinedToken → Program → Prop
  | letIn {l li le : Nat} {ts us vs : List LinedToken} {cs : List Class} {ds : List Dec} {e : Expr}
    (classes : Many ClassText ts cs) (decs : Many DecText us ds) (body : ExprText vs e) :
    Sentence (Mark.on .kwLet l :: (ts ++ (us ++ Mark.on .kwIn li :: (vs ++ [Mark.on .semicolon le])))) (.letIn cs ds e)
  | expr {le : Nat} {ts : List LinedToken} {e : Expr} (body : ExprText ts e) :
    Sentence (ts ++ [Mark.on .semicolon le]) (.expr e)

end FoolLang
