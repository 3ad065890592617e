import FoolLang.Text.Decimal
import FoolLang.Text.Trivia
import FoolLang.Token
/-!
# Scan — source text cut into lexemes

At each point the longest token is taken, a reserved word before a name of the same length; blanks and comments
are skipped.  Three things are no token: a character at which no token starts, a number above the largest 32-bit
integer, and a comment that never closes, which reaches to the end.
-/
namespace FoolLang
namespace Token

open Text

/-- What was taken from the head of a text: its kind, none for a blank or a comment, its characters, and the
rest. -/
structure Bite where
  kind : Option LexemeKind
  text : List Char
  rest : List Char

/-- A word: reserved, or else a name. -/
def ofWord (w : List Char) : Token :=
  match Mark.words.find? (fun m => decide (m.spelling = w)) with
  | some m => .mark m
  | none => .id ⟨w⟩

/-- A number, unless it is too large. -/
def ofDigits (ds : List Char) : LexemeKind :=
  if ofDecimal ds ≤ maxInt32 then .token (.num (ofDecimal ds)) else .invalid

/-- The sign at the head of a text, the longer of two that fit. -/
def signAt (cs : List Char) : Option Mark := Mark.signs.find? (fun m => m.spelling.isPrefixOf cs)

/-- The first lexeme of `c :: cs` that is neither blank nor comment. -/
def biteToken (c : Char) (cs : List Char) : Bite :=
  if isLetter c then
    let w := c :: cs.takeWhile isNameChar
    ⟨some (.token (ofWord w)), w, cs.dropWhile isNameChar⟩
  else if c = '0' then ⟨some (.token (.num 0)), [c], cs⟩
  else if c.isDigit then
    let ds := c :: cs.takeWhile Char.isDigit
    ⟨some (ofDigits ds), ds, cs.dropWhile Char.isDigit⟩
  else
    match signAt (c :: cs) with
    | some m => ⟨some (.token (.mark m)), m.spelling, (c :: cs).drop m.spelling.length⟩
    | none => ⟨some .invalid, [c], cs⟩

theorem mem_signs_prefix {cs : List Char} {m : Mark} (h : signAt cs = some m) : m.spelling <+: cs := by
  simpa using List.find?_some h

theorem spelling_ne_nil (m : Mark) : m.spelling ≠ [] := by cases m <;> decide

theorem biteToken_append (c : Char) (cs : List Char) :
    (biteToken c cs).text ≠ [] ∧ (biteToken c cs).text ++ (biteToken c cs).rest = c :: cs := by
  unfold biteToken
  split
  · simp
  · split
    · simp
    · split
      · simp
      · split
        · rename_i m hm
          refine ⟨spelling_ne_nil m, ?_⟩
          obtain ⟨rest, hr⟩ := mem_signs_prefix hm
          simp [← hr]
        · simp

/-- What stands at the head of `c :: cs`. -/
def bite (c : Char) (cs : List Char) : Bite :=
  match trivia (c :: cs) with
  | .skipped text rest => ⟨none, text, rest⟩
  | .unclosed => ⟨some .invalid, c :: cs, []⟩
  | .none => biteToken c cs

/-- **A bite is never empty, and together with the rest it is the text.** -/
theorem bite_append (c : Char) (cs : List Char) :
    (bite c cs).text ≠ [] ∧ (bite c cs).text ++ (bite c cs).rest = c :: cs := by
  unfold bite
  split
  · exact trivia_skipped ‹_›
  · simp
  · exact biteToken_append c cs

/-- The lexemes of a text that starts at byte `pos`.  Each bite takes a character at least, so the length of the
text is fuel enough. -/
def scanFrom : Nat → Nat → List Char → List Lexeme
  | 0, _, _ => []
  | _ + 1, _, [] => []
  | fuel + 1, pos, c :: cs =>
    let b := bite c cs
    let stop := pos + byteLength b.text
    match b.kind with
    | none => scanFrom fuel stop b.rest
    | some k => ⟨k, b.text, pos, stop⟩ :: scanFrom fuel stop b.rest

/-- Every lexeme of a source, in order. -/
def scan (source : List Char) : List Lexeme := scanFrom source.length 0 source

/-- The lexemes of a source and its end. -/
def lex (source : List Char) : List Lexeme :=
  scan source ++ [⟨.eof, [], byteLength source, byteLength source⟩]

end Token
end FoolLang
