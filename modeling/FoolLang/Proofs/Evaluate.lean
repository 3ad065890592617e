import FoolLang.Text.Decimal
import FoolLang.Tree
/-!
# Evaluate — what programs mean

A big-step evaluator of parsed programs, without machine or code.  Scoping is lexical, arguments are values, and a
method is looked for in the class its object was created as, also where it is called without a receiver.  Values
have words: comparisons are of words, and a word is what `print` shows.  An object is known by an address, which the
allocator hands out: after one cell for each method of each class, the cells of an object are its fields and one more,
whose address is the object's.

The order of evaluation is from left to right, except that `>=` takes its right operand first and a call its last
argument.  A bound on the number of calls that are pending makes evaluation total; it stops where the bound is too
small.
-/
namespace FoolLang

inductive Value
  | int (n : Int32)
  | bool (b : Bool)
  | null
  | ref (address : Nat)
  deriving DecidableEq

/-- A value as the machine holds it. -/
def Value.word : Value → Int32
  | .int n => n
  | .bool b => if b then 1 else 0
  | .null => -1
  | .ref a => Int32.ofNat a

/-- An object, with the class it was created as. -/
structure Object where
  cls : Ident
  fields : List (Ident × Value)

/-- What evaluation leaves behind. -/
structure World where
  /-- The objects by their addresses, the latest first. -/
  objects : List (Nat × Object)
  /-- The first address not taken. -/
  free : Nat
  /-- The words printed, newest first. -/
  printed : List Int32

namespace World

def output (w : World) : List Char := w.printed.reverse.flatMap fun v => Text.signedDecimal v.toInt ++ ['\n']

def print (w : World) (v : Int32) : World := { w with printed := v :: w.printed }

def create (w : World) (cls : Ident) (fields : List (Ident × Value)) : World :=
  ⟨(w.free + fields.length, ⟨cls, fields⟩) :: w.objects, w.free + fields.length + 1, w.printed⟩

end World

/-- Why evaluation stops without a value. -/
inductive Stop
  /-- More calls are pending than allowed. -/
  | exhausted
  | divisionByZero
  | nullReceiver
  /-- The program makes no sense here. -/
  | stuck
  deriving DecidableEq

abbrev Eval := EStateM Stop World

structure Routine where
  params : List Param
  locals : List Dec
  body : Expr

def Method.routine (m : Method) : Routine := ⟨m.params, m.locals, m.body⟩

inductive Bound
  | value (v : Value)
  | function (r : Routine)

/-- The bindings, innermost first, and, inside a method, the class that declares it and the object it is called on. -/
structure Context where
  self : Option (Ident × Nat)
  bindings : List (Ident × Bound)

def addName (names : List Ident) (x : Ident) : List Ident := if x ∈ names then names else names ++ [x]

/-- The fields of a class, inherited ones first; the classes are given latest first. -/
def fieldNames : List Class → Ident → List Ident
  | [], _ => []
  | k :: earlier, c =>
    if k.id = c then (k.fields.map Field.id).foldl addName (k.super.elim [] (fieldNames earlier))
    else fieldNames earlier c

def methodNames : List Class → Ident → List Ident
  | [], _ => []
  | k :: earlier, c =>
    if k.id = c then (k.methods.map Method.id).foldl addName (k.super.elim [] (methodNames earlier))
    else methodNames earlier c

/-- The method that objects of a class have under a name, with the class that declares it. -/
def findMethod : List Class → Ident → Ident → Option (Ident × Method)
  | [], _, _ => none
  | k :: earlier, c, m =>
    if k.id = c then
      match k.methods.find? (fun d => decide (d.id = m)) with
      | some d => some (c, d)
      | none => k.super.bind fun s => findMethod earlier s m
    else findMethod earlier c m

/-- How many cells the methods of the classes take. -/
def methodCells : List Class → Nat
  | [] => 0
  | k :: earlier => (methodNames (k :: earlier) k.id).length + methodCells earlier

/-- What a name is bound to, with the bindings visible where it was bound, itself included. -/
def findBound (x : Ident) : List (Ident × Bound) → Option (Bound × List (Ident × Bound))
  | [] => none
  | (y, b) :: rest => if y = x then some (b, (y, b) :: rest) else findBound x rest

namespace Value

/-- The number an arithmetic operator works on. -/
def number : Value → Eval Int32
  | .int n => pure n
  | .bool b => pure (if b then 1 else 0)
  | _ => throw .stuck

def truth : Value → Eval Bool
  | .bool b => pure b
  | _ => throw .stuck

end Value

/-- An operator that takes both operands, the left one first. -/
def BinOp.apply (op : BinOp) (left right : Value) : Eval Value :=
  match op with
  | .plus => do return .int ((← left.number) + (← right.number))
  | .minus => do return .int ((← left.number) - (← right.number))
  | .times => do return .int ((← left.number) * (← right.number))
  | .div => do
    let a ← left.number
    let b ← right.number
    if b = 0 then throw .divisionByZero else return .int (a / b)
  | .equal => return .bool (left.word == right.word)
  | .lessEqual => return .bool (decide (left.word ≤ right.word))
  | _ => throw .stuck

def readField (a : Nat) (x : Ident) : Eval Value := do
  match (← get).objects.lookup a with
  | some o =>
    match o.fields.lookup x with
    | some v => return v
    | none => throw .stuck
  | none => throw .stuck

/-- Calls a routine in the context it was declared in. -/
abbrev Call := Context → Routine → List Value → Eval Value

def callMethod (cs : List Class) (call : Call) (a : Nat) (m : Ident) (args : List Value) : Eval Value := do
  match (← get).objects.lookup a with
  | some o =>
    match findMethod cs o.cls m with
    | some (c, d) => call ⟨some (c, a), []⟩ d.routine args
    | none => throw .stuck
  | none => throw .stuck

def instantiateClass (cs : List Class) (c : Ident) (args : List Value) : Eval Value := do
  if c ∈ cs.map Class.id then
    let w ← get
    set (w.create c ((fieldNames cs c).zip args))
    return .ref (w.free + ((fieldNames cs c).zip args).length)
  else throw .stuck

namespace Context

def bind (ctx : Context) (x : Ident) (b : Bound) : Context := { ctx with bindings := (x, b) :: ctx.bindings }

def bindAll (ctx : Context) : List Param → List Value → Context
  | p :: ps, v :: vs => bindAll (ctx.bind p.id (.value v)) ps vs
  | _, _ => ctx

def read (cs : List Class) (ctx : Context) (x : Ident) : Eval Value :=
  match findBound x ctx.bindings, ctx.self with
  | some (.value v, _), _ => pure v
  | none, some (c, a) => if x ∈ fieldNames cs c then readField a x else throw .stuck
  | _, _ => throw .stuck

def invoke (cs : List Class) (call : Call) (ctx : Context) (x : Ident) (args : List Value) : Eval Value :=
  match findBound x ctx.bindings, ctx.self with
  | some (.function r, visible), _ => call ⟨ctx.self, visible⟩ r args
  | none, some (c, a) => if x ∈ methodNames cs c then callMethod cs call a x args else throw .stuck
  | _, _ => throw .stuck

end Context

mutual

def Expr.eval (cs : List Class) (call : Call) (ctx : Context) : Expr → Eval Value
  | .int _ n => pure (.int n)
  | .bool _ b => pure (.bool b)
  | .null _ => pure .null
  | .binary _ op a b =>
    match op with
    | .and => do
      if ← (← a.eval cs call ctx).truth then return .bool (← (← b.eval cs call ctx).truth) else return .bool false
    | .or => do
      if ← (← a.eval cs call ctx).truth then return .bool true else return .bool (← (← b.eval cs call ctx).truth)
    | .greaterEqual => do
      let right ← b.eval cs call ctx
      let left ← a.eval cs call ctx
      return .bool (decide (right.word ≤ left.word))
    | op => do
      let left ← a.eval cs call ctx
      let right ← b.eval cs call ctx
      op.apply left right
  | .not _ a => do return .bool !(← (← a.eval cs call ctx).truth)
  | .cond _ c t e => do
    if ← (← c.eval cs call ctx).truth then t.eval cs call ctx else e.eval cs call ctx
  | .print _ a => do
    let v ← a.eval cs call ctx
    modify (World.print · v.word)
    return v
  | .id _ u => ctx.read cs u.id
  | .call _ u args => do
    let vs ← evalBack cs call ctx args
    ctx.invoke cs call u.id vs
  | .send _ u m _ args => do
    let vs ← evalBack cs call ctx args
    match ← ctx.read cs u.id with
    | .ref a => callMethod cs call a m vs
    | .null => throw .nullReceiver
    | _ => throw .stuck
  | .new _ c _ args => do
    let vs ← evalAll cs call ctx args
    instantiateClass cs c vs

/-- Arguments, first to last. -/
def evalAll (cs : List Class) (call : Call) (ctx : Context) : List Expr → Eval (List Value)
  | [] => pure []
  | e :: es => do
    let v ← e.eval cs call ctx
    let vs ← evalAll cs call ctx es
    return v :: vs

/-- Arguments, last to first. -/
def evalBack (cs : List Class) (call : Call) (ctx : Context) : List Expr → Eval (List Value)
  | [] => pure []
  | e :: es => do
    let vs ← evalBack cs call ctx es
    let v ← e.eval cs call ctx
    return v :: vs

end

def evalDecs (cs : List Class) (call : Call) : Context → List Dec → Eval Context
  | ctx, [] => pure ctx
  | ctx, .var _ x _ e :: ds => do
    let v ← e.eval cs call ctx
    evalDecs cs call (ctx.bind x (.value v)) ds
  | ctx, .func _ x _ params locals body :: ds =>
    evalDecs cs call (ctx.bind x (.function ⟨params, locals, body⟩)) ds

/-- A call with at most so many calls pending, itself included. -/
def callWithin (cs : List Class) : Nat → Call
  | 0 => fun _ _ _ => throw .exhausted
  | depth + 1 => fun ctx r args => do
    let inner ← evalDecs cs (callWithin cs depth) (ctx.bindAll r.params args) r.locals
    r.body.eval cs (callWithin cs depth) inner

namespace Program

def latestFirst (p : Program) : List Class := p.classes.reverse

def startWorld (p : Program) : World := ⟨[], methodCells p.latestFirst, []⟩

/-- Evaluates a program with at most so many calls pending. -/
def evaluate (depth : Nat) (p : Program) : EStateM.Result Stop World Value :=
  (do
    let ctx ← evalDecs p.latestFirst (callWithin p.latestFirst depth) ⟨none, []⟩ p.decs
    p.body.eval p.latestFirst (callWithin p.latestFirst depth) ctx : Eval Value) p.startWorld

end Program
end FoolLang
