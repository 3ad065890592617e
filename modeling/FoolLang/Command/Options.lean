import FoolLang.Text.Decimal
/-!
# Options — arguments, one by one

An argument that begins with a dash is one long option, with or without a value after `=`, or a row of short ones,
the last of which may have its value in the same argument or the next.  The next argument is a value unless it
begins with a dash itself; a dash alone is a plain word.  After `--` every argument is a word.
-/
namespace FoolLang
namespace Command

inductive Opt
  | memorySize | verbose | printAst | output | version | help
  deriving DecidableEq

namespace Opt

def long : Opt → List Char
  | memorySize => "memory-size".toList
  | verbose => "verbose".toList
  | printAst => "print-ast".toList
  | output => "output".toList
  | version => "version".toList
  | help => "help".toList

def short : Opt → Option Char
  | verbose => some 'v'
  | output => some 'o'
  | version => some 'V'
  | help => some 'h'
  | _ => none

def takesValue : Opt → Bool
  | memorySize | output => true
  | _ => false

end Opt

/-- What arguments say. -/
inductive Item
  | flag (o : Opt)
  | value (o : Opt) (v : List Char)
  | word (w : List Char)
  /-- An option that is not known here, or with a value too many or too few. -/
  | unusable
  deriving DecidableEq

/-- What one argument says by itself: options, the last of which may still need a value, a word, or that only words
follow. -/
inductive Form
  | options (items : List Item) (pending : Option Opt)
  | word
  | onlyWords

/-- A long option. -/
def longForm (opts : List Opt) (cs : List Char) : Form :=
  match opts.find? (fun o => decide (o.long = cs.takeWhile (· ≠ '='))), cs.dropWhile (· ≠ '=') with
  | none, _ => .options [.unusable] none
  | some o, [] => if o.takesValue then .options [] (some o) else .options [.flag o] none
  | some o, _ :: v => if o.takesValue then .options [.value o v] none else .options [.unusable] none

/-- A row of short options. -/
def shortForm (opts : List Opt) : List Char → List Item × Option Opt
  | [] => ([], none)
  | c :: cs =>
    match opts.find? (fun o => decide (o.short = some c)) with
    | none => ([.unusable], none)
    | some o =>
      if o.takesValue then
        match cs with
        | [] => ([], some o)
        | '=' :: v => ([.value o v], none)
        | v => ([.value o v], none)
      else
        let (items, pending) := shortForm opts cs
        (.flag o :: items, pending)

def form (opts : List Opt) : List Char → Form
  | ['-', '-'] => .onlyWords
  | '-' :: '-' :: cs => longForm opts cs
  | ['-'] => .word
  | '-' :: cs =>
    let (items, pending) := shortForm opts cs
    .options items pending
  | _ => .word

/-- Whether an argument cannot be the value of the option before it. -/
def beginsOption : List Char → Bool
  | ['-'] => false
  | '-' :: _ => true
  | _ => false

/-- The options before the first word, and the arguments from that word on. -/
def leadingItems (opts : List Opt) : List (List Char) → List Item × List (List Char)
  | [] => ([], [])
  | a :: as =>
    match form opts a with
    | .onlyWords => ([.unusable], [])
    | .word => ([], a :: as)
    | .options items none =>
      let (more, rest) := leadingItems opts as
      (items ++ more, rest)
    | .options items (some o) =>
      match as with
      | [] => (items ++ [.unusable], [])
      | v :: as =>
        if beginsOption v then (items ++ [.unusable], [])
        else
          let (more, rest) := leadingItems opts as
          (items ++ .value o v :: more, rest)

/-- Everything that arguments say. -/
def allItems (opts : List Opt) : List (List Char) → List Item
  | [] => []
  | a :: as =>
    match form opts a with
    | .onlyWords => as.map .word
    | .word => .word a :: allItems opts as
    | .options items none => items ++ allItems opts as
    | .options items (some o) =>
      match as with
      | [] => items ++ [.unusable]
      | v :: as => if beginsOption v then items ++ [.unusable] else items ++ .value o v :: allItems opts as

/-- The largest memory a machine may be given. -/
def maxCells : Nat := 16777216

/-- A number of cells: decimal digits, perhaps after a `+`, from 1 to `maxCells`. -/
def cells? (v : List Char) : Option Nat :=
  let ds := match v with
    | '+' :: ds => ds
    | ds => ds
  if ds.isEmpty || !ds.all Char.isDigit then none
  else if 1 ≤ Text.ofDecimal ds ∧ Text.ofDecimal ds ≤ maxCells then some (Text.ofDecimal ds)
  else none

end Command
end FoolLang
