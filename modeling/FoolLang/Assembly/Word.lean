import FoolLang.Assembly.Instr
import FoolLang.Ident
import FoolLang.Text.Decimal
import FoolLang.Text.Trivia
/-!
# Word — assembly text cut into words

A word is a mnemonic, a colon, a number with an optional `-`, or a label, which is a name that is no mnemonic.
Blanks and comments are skipped.  No word are: a character at which none starts, a number that is no 32-bit integer,
and a comment that never closes.
-/
namespace FoolLang
namespace Assembly

open Text

inductive Word
  | push
  | branch (b : Branch)
  | op (o : Op)
  | colon
  | num (n : Int)
  | label (x : Ident)
  deriving DecidableEq

/-- A word with its text and line; none where the text is no word. -/
structure WordAt where
  word : Option Word
  text : List Char
  line : Nat

/-- What was taken from the head of a text, none of it a word if it is skipped. -/
inductive Bite
  | skip (text rest : List Char)
  | take (word : Option Word) (text rest : List Char)

/-- A name: a mnemonic, or else a label. -/
def Word.ofName (w : List Char) : Word :=
  if w = Instr.pushMnemonic then .push
  else
    match Branch.all.find? (fun b => decide (b.mnemonic = w)) with
    | some b => .branch b
    | none =>
      match Op.all.find? (fun o => decide (o.mnemonic = w)) with
      | some o => .op o
      | none => .label ⟨w⟩

/-- A number, unless it is no 32-bit integer. -/
def Word.ofInt? (n : Int) : Option Word :=
  if -(maxInt32 : Int) - 1 ≤ n ∧ n ≤ maxInt32 then some (.num n) else none

/-- The digits of a number at the head of a text, and the rest: a zero alone, or all digits of a run. -/
def digitsAt : List Char → Option (List Char × List Char)
  | [] => none
  | c :: cs =>
    if c = '0' then some ([c], cs)
    else if c.isDigit then some (c :: cs.takeWhile Char.isDigit, cs.dropWhile Char.isDigit)
    else none

theorem digitsAt_append {cs ds rest : List Char} (h : digitsAt cs = some (ds, rest)) : ds ≠ [] ∧ ds ++ rest = cs := by
  unfold digitsAt at h
  split at h
  · cases h
  · split at h
    · cases h; simp
    · split at h
      · cases h; simp
      · cases h

/-- The text of a bite and what follows it. -/
def Bite.parts : Bite → List Char × List Char
  | .skip text rest => (text, rest)
  | .take _ text rest => (text, rest)

def biteWord (c : Char) (cs : List Char) : Bite :=
  if isLetter c then
    let w := c :: cs.takeWhile isNameChar
    .take (some (.ofName w)) w (cs.dropWhile isNameChar)
  else if c = ':' then .take (some .colon) [c] cs
  else if c = '-' then
    match digitsAt cs with
    | some (ds, rest) => .take (Word.ofInt? (-(ofDecimal ds : Int))) (c :: ds) rest
    | none => .take none [c] cs
  else
    match digitsAt (c :: cs) with
    | some (ds, rest) => .take (Word.ofInt? (ofDecimal ds)) ds rest
    | none => .take none [c] cs

theorem biteWord_append (c : Char) (cs : List Char) :
    (biteWord c cs).parts.1 ≠ [] ∧ (biteWord c cs).parts.1 ++ (biteWord c cs).parts.2 = c :: cs := by
  unfold biteWord
  split
  · simp [Bite.parts]
  · split
    · simp [Bite.parts]
    · split
      · split
        · rename_i hd
          simp [Bite.parts, (digitsAt_append hd).2]
        · simp [Bite.parts]
      · split
        · rename_i hd
          exact digitsAt_append hd
        · simp [Bite.parts]

/-- What stands at the head of `c :: cs`. -/
def bite (c : Char) (cs : List Char) : Bite :=
  match trivia (c :: cs) with
  | .skipped text rest => .skip text rest
  | .unclosed => .take none (c :: cs) []
  | .none => biteWord c cs

/-- **A bite is never empty, and together with the rest it is the text.** -/
theorem bite_append (c : Char) (cs : List Char) :
    (bite c cs).parts.1 ≠ [] ∧ (bite c cs).parts.1 ++ (bite c cs).parts.2 = c :: cs := by
  unfold bite
  split
  · exact trivia_skipped ‹_›
  · simp [Bite.parts]
  · exact biteWord_append c cs

/-- The words of a text that starts on `line`.  Each bite takes a character at least, so the length of the text is
fuel enough. -/
def scanFrom : Nat → Nat → List Char → List WordAt
  | 0, _, _ => []
  | _ + 1, _, [] => []
  | fuel + 1, line, c :: cs =>
    match bite c cs with
    | .skip text rest => scanFrom fuel (line + text.count '\n') rest
    | .take w text rest => ⟨w, text, line⟩ :: scanFrom fuel (line + text.count '\n') rest

def scan (text : List Char) : List WordAt := scanFrom text.length 1 text

end Assembly
end FoolLang
