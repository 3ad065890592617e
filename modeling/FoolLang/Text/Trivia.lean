/-!
# Trivia — blanks and comments

Source and assembly skip the same things between tokens: blank characters, comments from `//` to the end of the
line, and comments from `/*` to the first `*/`.  A comment that never closes cannot be skipped.  What is skipped is
never empty, and together with the rest it is the text (`trivia_skipped`).
-/
namespace FoolLang
namespace Text

/-- Space, tab, carriage return, line feed and form feed. -/
def isBlank (c : Char) : Bool := c = ' ' || c = '\t' || c = '\r' || c = '\n' || c = '\x0c'

/-- What follows `/*`, cut after the first `*/`. -/
def closeComment : List Char → Option (List Char × List Char)
  | '*' :: '/' :: cs => some (['*', '/'], cs)
  | c :: cs => (closeComment cs).map fun (body, rest) => (c :: body, rest)
  | [] => none

theorem closeComment_append : ∀ {cs body rest : List Char},
    closeComment cs = some (body, rest) → body ++ rest = cs := by
  intro cs
  fun_induction closeComment cs with
  | case1 cs => rintro _ _ ⟨⟩; rfl
  | case2 c cs _ ih =>
    intro body rest h
    obtain ⟨⟨b, r⟩, hb, he⟩ := Option.map_eq_some_iff.1 h
    cases he
    rw [List.cons_append, ih hb]
  | case3 => rintro _ _ ⟨⟩

/-- What stands at the head of a text: something to skip with what follows it, a comment without an end, or
neither. -/
inductive Trivia
  | skipped (text rest : List Char)
  | unclosed
  | none

def trivia : List Char → Trivia
  | '/' :: '/' :: cs => .skipped ('/' :: '/' :: cs.takeWhile (· ≠ '\n')) (cs.dropWhile (· ≠ '\n'))
  | '/' :: '*' :: cs =>
    match closeComment cs with
    | some (body, rest) => .skipped ('/' :: '*' :: body) rest
    | Option.none => .unclosed
  | c :: cs => if isBlank c then .skipped [c] cs else .none
  | [] => .none

theorem trivia_skipped {cs text rest : List Char} (h : trivia cs = .skipped text rest) :
    text ≠ [] ∧ text ++ rest = cs := by
  unfold trivia at h
  split at h
  · cases h; simp
  · split at h
    · rename_i hc
      cases h
      simp [closeComment_append hc]
    · cases h
  · split at h
    · cases h; simp
    · cases h
  · cases h

/-- The letters of a name: `a` to `z` and `A` to `Z`. -/
def isLetter (c : Char) : Bool := c.isAlpha

/-- What may follow the first letter of a name. -/
def isNameChar (c : Char) : Bool := c.isAlphanum

theorem isNameChar_of_isLetter {c : Char} (h : isLetter c = true) : isNameChar c = true := by
  simp [isNameChar, Char.isAlphanum, show c.isAlpha = true from h]

theorem isNameChar_of_isDigit {c : Char} (h : c.isDigit = true) : isNameChar c = true := by
  simp [isNameChar, Char.isAlphanum, h]

theorem isDigit_of_isLetter {c : Char} (h : isLetter c = true) : c.isDigit = false := by
  refine Bool.eq_false_iff.2 fun hd => ?_
  have hle : c.toNat ≤ 57 := (Char.isDigit_iff_toNat.1 hd).2
  rcases Bool.or_eq_true_iff.1 h with hu | hw
  · have : 65 ≤ c.toNat := UInt32.le_iff_toNat_le.1 (of_decide_eq_true hu).1
    omega
  · have : 97 ≤ c.toNat := UInt32.le_iff_toNat_le.1 (of_decide_eq_true (Bool.and_eq_true_iff.1 hw).1)
    omega

theorem isBlank_of_isNameChar {c : Char} (h : isNameChar c = true) : isBlank c = false := by
  refine Bool.eq_false_iff.2 fun hb => ?_
  simp only [isBlank, Bool.or_eq_true, decide_eq_true_eq] at hb
  rcases hb with (((rfl | rfl) | rfl) | rfl) | rfl <;> cases h

/-- A run ends where something else begins. -/
theorem takeWhile_run {p : Char → Bool} {a b : List Char} (ha : ∀ c ∈ a, p c = true) (hb : b.head?.any p = false) :
    (a ++ b).takeWhile p = a ∧ (a ++ b).dropWhile p = b := by
  rw [List.takeWhile_append_of_pos ha, List.dropWhile_append_of_pos ha]
  cases b with
  | nil => simp
  | cons c b =>
    have hc : ¬ p c = true := by simpa using hb
    simp [hc]

/-- The length of a text in bytes of UTF-8. -/
def byteLength : List Char → Nat
  | [] => 0
  | c :: cs => c.utf8Size + byteLength cs

theorem byteLength_append : ∀ (a b : List Char), byteLength (a ++ b) = byteLength a + byteLength b
  | [], b => by simp [byteLength]
  | c :: a, b => by simp [byteLength, byteLength_append a b, Nat.add_assoc]

end Text
end FoolLang
