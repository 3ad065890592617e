import FoolLang.Token.Scan
import Mathlib.Data.List.Find
/-!
# Rebites — a bite before another rest

What is bitten off a text depends on what follows it by one character at most, and there all letters are alike.  So a
bite stays the same when the rest is replaced by one that continues alike (`Token.bite_alike`), and a name is bitten off
whole wherever no name goes on (`Token.bite_name`).
-/
namespace FoolLang
namespace Text

/-! ## Letters -/

/-- The same for all letters. -/
def Uniform (p : Char → Bool) : Prop := ∀ c d, isLetter c = true → isLetter d = true → p c = p d

theorem uniform_isNameChar : Uniform isNameChar := fun _ _ hc hd =>
  (isNameChar_of_isLetter hc).trans (isNameChar_of_isLetter hd).symm

theorem uniform_isDigit : Uniform Char.isDigit := fun _ _ hc hd =>
  (isDigit_of_isLetter hc).trans (isDigit_of_isLetter hd).symm

/-- A character that is no letter is unlike all letters. -/
theorem uniform_eq {b : Char} (hb : isLetter b = false) : Uniform (· = b) := fun c d hc hd => by
  have hne : ∀ x, isLetter x = true → x ≠ b := fun x hx hxb => by simp [← hxb, hx] at hb
  simp [hne c hc, hne d hd]

theorem uniform_ne_newline : Uniform (· ≠ '\n') := fun c d hc hd => by
  have h : decide (c = '\n') = decide (d = '\n') := uniform_eq (by decide) c d hc hd
  simpa using h

/-- Both texts end, or they begin with the same character or both with a letter. -/
def ContinueAlike : List Char → List Char → Prop
  | [], [] => True
  | c :: _, d :: _ => c = d ∨ isLetter c = true ∧ isLetter d = true
  | _, _ => False

section

variable {a b : List Char} {p : Char → Bool}

theorem ContinueAlike.refl : ∀ a, ContinueAlike a a
  | [] => trivial
  | _ :: _ => .inl rfl

theorem ContinueAlike.append (h : ContinueAlike a b) : ∀ s : List Char, ContinueAlike (s ++ a) (s ++ b)
  | [] => h
  | _ :: _ => .inl rfl

/-- What is the same for all letters holds of the first characters of both texts or of neither. -/
theorem ContinueAlike.any_head (h : ContinueAlike a b) (hp : Uniform p) : a.head?.any p = b.head?.any p := by
  cases a with
  | nil =>
    cases b with
    | nil => rfl
    | cons d b => exact h.elim
  | cons c a =>
    cases b with
    | nil => exact h.elim
    | cons d b =>
      rcases h with rfl | ⟨hc, hd⟩
      · rfl
      · exact hp c d hc hd

theorem ContinueAlike.isPrefixOf (h : ContinueAlike a b) : ∀ {s : List Char}, s.length ≤ 1 → s.any isLetter = false →
    s.isPrefixOf a = s.isPrefixOf b
  | [], _, _ => rfl
  | [d], _, hs => by
    have hd : isLetter d = false := by simpa using hs
    have hhead : ∀ l : List Char, [d].isPrefixOf l = l.head?.any (· = d) := fun l => by
      cases l <;> simp [List.isPrefixOf, Bool.beq_eq_decide_eq, eq_comm]
    rw [hhead, hhead, h.any_head (uniform_eq hd)]

theorem head_dropWhile (p : Char → Bool) : ∀ l : List Char, (l.dropWhile p).head?.any p = false
  | [] => rfl
  | c :: l => by
    rw [List.dropWhile_cons]
    split
    · exact head_dropWhile p l
    · simpa using ‹¬ p c = true›

/-- A run is as long before a text that continues alike. -/
theorem takeWhile_alike (hp : Uniform p) (h : ContinueAlike (a.dropWhile p) b) :
    (a.takeWhile p ++ b).takeWhile p = a.takeWhile p ∧ (a.takeWhile p ++ b).dropWhile p = b :=
  takeWhile_run (List.all_eq_true.1 List.all_takeWhile) ((h.any_head hp).symm.trans (head_dropWhile p a))

theorem closeComment_nonempty {cs rest : List Char} : closeComment cs ≠ some ([], rest) := by
  fun_induction closeComment cs <;> simp

/-- Where a comment closes does not depend on what comes after it. -/
theorem closeComment_rest {cs body rest : List Char} (h : closeComment cs = some (body, rest)) (rest' : List Char) :
    closeComment (body ++ rest') = some (body, rest') := by
  fun_induction closeComment cs generalizing body rest with
  | case1 cs =>
    cases h
    rfl
  | case2 c cs hne ih =>
    obtain ⟨⟨body', rest''⟩, hb, he⟩ := Option.map_eq_some_iff.1 h
    cases he
    have happ := closeComment_append hb
    have hstar : ∀ ds, c = '*' → body' ++ rest' = '/' :: ds → False := by
      rintro ds rfl hds
      cases body' with
      | nil => exact closeComment_nonempty hb
      | cons d body' =>
        cases hds
        exact hne _ rfl happ.symm
    rw [List.cons_append, closeComment.eq_2 _ _ hstar, ih hb]
    rfl
  | case3 => cases h

end
end Text

namespace Token

open Text

variable {c : Char} {cs rest : List Char}

/-! ## Signs -/

/-- A sign has one character or two, and the second is no letter. -/
theorem spelling_sign : ∀ m ∈ Mark.signs, m.spelling.tail.length ≤ 1 ∧ m.spelling.tail.any isLetter = false := by
  decide

/-- Which sign stands at the head of a text depends on one character more at most. -/
theorem signAt_alike {a b : List Char} (h : ContinueAlike a b) (c : Char) : signAt (c :: a) = signAt (c :: b) := by
  refine List.find?_congr fun m hm => ?_
  obtain ⟨hlen, hletter⟩ := spelling_sign m hm
  cases hs : m.spelling with
  | nil => rfl
  | cons d s =>
    rw [hs] at hlen hletter
    exact congrArg (d == c && ·) (h.isPrefixOf hlen hletter)

/-! ## Bites -/

/-- A token is bitten off as before when what follows it continues alike. -/
theorem biteToken_alike (h : ContinueAlike (biteToken c cs).rest rest) : ∃ t, cs = t ++ (biteToken c cs).rest ∧
    biteToken c (t ++ rest) = ⟨(biteToken c cs).kind, c :: t, rest⟩ := by
  unfold biteToken at h ⊢
  split
  · rename_i hc
    rw [if_pos hc] at h
    obtain ⟨htake, hdrop⟩ := takeWhile_alike uniform_isNameChar h
    exact ⟨cs.takeWhile isNameChar, by simp, by rw [htake, hdrop]⟩
  · rename_i hc
    rw [if_neg hc] at h
    split
    · exact ⟨[], rfl, rfl⟩
    · rename_i h0
      rw [if_neg h0] at h
      split
      · rename_i hd
        rw [if_pos hd] at h
        obtain ⟨htake, hdrop⟩ := takeWhile_alike uniform_isDigit h
        exact ⟨cs.takeWhile Char.isDigit, by simp, by rw [htake, hdrop]⟩
      · rename_i hd
        rw [if_neg hd] at h
        cases hsign : signAt (c :: cs) with
        | none =>
          rw [hsign] at h
          refine ⟨[], rfl, ?_⟩
          rw [List.nil_append, ← signAt_alike h, hsign]
        | some m =>
          rw [hsign] at h
          obtain ⟨t, hm, hcs⟩ : ∃ t, m.spelling = c :: t ∧ cs = t ++ (c :: cs).drop m.spelling.length := by
            obtain ⟨tail, htail⟩ := mem_signs_prefix hsign
            cases hs : m.spelling with
            | nil => exact (spelling_ne_nil m hs).elim
            | cons d t =>
              rw [hs] at htail
              cases htail
              exact ⟨t, rfl, by simp⟩
          refine ⟨t, hcs, ?_⟩
          have halike := h.append t
          rw [← hcs] at halike
          rw [← signAt_alike halike, hsign]
          simp only [hm, List.length_cons, List.drop_succ_cons, List.drop_left]

theorem bite_line (cs : List Char) :
    bite '/' ('/' :: cs) = ⟨none, '/' :: '/' :: cs.takeWhile (· ≠ '\n'), cs.dropWhile (· ≠ '\n')⟩ := rfl

theorem bite_closed {body : List Char} (h : closeComment cs = some (body, rest)) :
    bite '/' ('*' :: cs) = ⟨none, '/' :: '*' :: body, rest⟩ := by
  rw [bite, trivia.eq_2, h]

theorem bite_unclosed (h : closeComment cs = none) : bite '/' ('*' :: cs) = ⟨some .invalid, '/' :: '*' :: cs, []⟩ := by
  rw [bite, trivia.eq_2, h]

/-- A comment begins with a slash, and the character after it. -/
theorem plain_or_comment (c : Char) (cs : List Char) :
    (c = '/' → cs.head?.any (· = '/') = false ∧ cs.head?.any (· = '*') = false) ∨
      ∃ ds, c = '/' ∧ (cs = '/' :: ds ∨ cs = '*' :: ds) := by
  by_cases hc : c = '/'
  · cases cs with
    | nil => exact .inl fun _ => ⟨rfl, rfl⟩
    | cons d ds =>
      by_cases hline : d = '/'
      · exact .inr ⟨ds, hc, .inl (hline ▸ rfl)⟩
      · by_cases hstar : d = '*'
        · exact .inr ⟨ds, hc, .inr (hstar ▸ rfl)⟩
        · exact .inl fun _ => by simp [hline, hstar]
  · exact .inl fun h => absurd h hc

/-- Where no comment begins there is a blank or a token. -/
theorem bite_plain (h : c = '/' → cs.head?.any (· = '/') = false ∧ cs.head?.any (· = '*') = false) :
    bite c cs = if isBlank c then ⟨none, [c], cs⟩ else biteToken c cs := by
  have htrivia : trivia (c :: cs) = if isBlank c then .skipped [c] cs else .none :=
    trivia.eq_3 c cs (by rintro ds rfl rfl; simpa using (h rfl).1) (by rintro ds rfl rfl; simpa using (h rfl).2)
  rw [bite, htrivia]
  by_cases hc : isBlank c = true
  · rw [if_pos hc, if_pos hc]
  · rw [if_neg hc, if_neg hc]

/-- **What is bitten off stays the same when what follows it continues alike.** -/
theorem bite_alike (h : ContinueAlike (bite c cs).rest rest) : ∃ t, cs = t ++ (bite c cs).rest ∧
    bite c (t ++ rest) = ⟨(bite c cs).kind, c :: t, rest⟩ := by
  -- A slash is read together with the character after it: only there can a comment begin.
  rcases plain_or_comment c cs with hplain | ⟨ds, rfl, rfl | rfl⟩
  · rw [bite_plain hplain] at h ⊢
    by_cases hc : isBlank c = true
    · rw [if_pos hc] at h ⊢
      refine ⟨[], rfl, ?_⟩
      rw [List.nil_append, bite_plain (by rintro rfl; cases hc), if_pos hc]
    · rw [if_neg hc] at h ⊢
      obtain ⟨t, hcs, ht⟩ := biteToken_alike h
      have halike := h.append t
      rw [← hcs] at halike
      refine ⟨t, hcs, ?_⟩
      rw [bite_plain, if_neg hc, ht]
      rwa [← halike.any_head (uniform_eq (by decide)), ← halike.any_head (uniform_eq (by decide))]
  · rw [bite_line] at h ⊢
    obtain ⟨htake, hdrop⟩ := takeWhile_alike uniform_ne_newline h
    refine ⟨'/' :: ds.takeWhile (· ≠ '\n'), congrArg _ List.takeWhile_append_dropWhile.symm, ?_⟩
    rw [List.cons_append, bite_line, htake, hdrop]
  · cases hclose : closeComment ds with
    | none =>
      rw [bite_unclosed hclose] at h ⊢
      obtain rfl : rest = [] := by
        cases rest with
        | nil => rfl
        | cons x rest => exact h.elim
      exact ⟨'*' :: ds, by simp, by rw [List.append_nil, bite_unclosed hclose]⟩
    | some r =>
      obtain ⟨body, tail⟩ := r
      rw [bite_closed hclose]
      exact ⟨'*' :: body, congrArg _ (closeComment_append hclose).symm, bite_closed (closeComment_rest hclose rest)⟩

end Token

/-! ## Names -/

open Text

/-- Whether a name can stand in a source: a letter and then letters and digits, but no reserved word. -/
def Ident.isProper (x : Ident) : Bool :=
  match x.chars with
  | [] => false
  | c :: cs => isLetter c && cs.all isNameChar && Mark.words.all fun m => decide (m.spelling ≠ x.chars)

namespace Ident

variable {x : Ident}

theorem isProper_iff : x.isProper = true ↔ ∃ c cs, x.chars = c :: cs ∧ isLetter c = true ∧
    (∀ d ∈ cs, isNameChar d = true) ∧ ∀ m ∈ Mark.words, m.spelling ≠ x.chars := by
  unfold isProper
  split
  · simp [*]
  · rename_i c cs hx
    simp [hx, and_assoc]

end Ident

namespace Token

variable {c : Char} {cs rest : List Char} {x : Ident}

theorem ofWord_eq_id {w : List Char} : ofWord w = .id x ↔ x.chars = w ∧ ∀ m ∈ Mark.words, m.spelling ≠ w := by
  unfold ofWord
  cases hfind : Mark.words.find? (fun m => decide (m.spelling = w)) with
  | some m =>
    have hw : m.spelling = w := by simpa using List.find?_some hfind
    refine iff_of_false nofun fun h => h.2 m (List.mem_of_find?_eq_some hfind) hw
  | none =>
    have hnone : ∀ m ∈ Mark.words, m.spelling ≠ w := by simpa using hfind
    constructor
    · rintro ⟨⟩
      exact ⟨rfl, hnone⟩
    · rintro ⟨rfl, -⟩
      rfl

theorem biteToken_word (hc : isLetter c = true) : biteToken c cs =
    ⟨some (.token (ofWord (c :: cs.takeWhile isNameChar))), c :: cs.takeWhile isNameChar, cs.dropWhile isNameChar⟩ :=
  if_pos hc

/-- Only a letter begins a name. -/
theorem biteToken_ne_name (hc : ¬ isLetter c = true) : (biteToken c cs).kind ≠ some (.token (.id x)) := by
  unfold biteToken ofDigits
  rw [if_neg hc]
  grind

/-- **A name is bitten off whole** where no name goes on. -/
theorem bite_name (hx : x.isProper = true) (hrest : rest.head?.any isNameChar = false) :
    ∃ c t, x.chars = c :: t ∧ isLetter c = true ∧ bite c (t ++ rest) = ⟨some (.token (.id x)), c :: t, rest⟩ := by
  obtain ⟨c, t, hchars, hc, ht, hwords⟩ := Ident.isProper_iff.1 hx
  refine ⟨c, t, hchars, hc, ?_⟩
  obtain ⟨htake, hdrop⟩ := takeWhile_run ht hrest
  have hslash : c ≠ '/' := by rintro rfl; cases hc
  have hblank : isBlank c = false := isBlank_of_isNameChar (isNameChar_of_isLetter hc)
  have hword : ofWord (c :: t) = .id x := ofWord_eq_id.2 ⟨hchars, hchars ▸ hwords⟩
  rw [bite_plain fun h => (hslash h).elim, if_neg (by simp [hblank]), biteToken_word hc, htake, hdrop, hword]

/-- A name that is bitten off is whole. -/
theorem of_bite_name (h : (bite c cs).kind = some (.token (.id x))) : (bite c cs).text = x.chars ∧ x.isProper = true ∧
    isLetter c = true ∧ (bite c cs).rest.head?.any isNameChar = false := by
  unfold bite at h ⊢
  split at h
  · cases h
  · cases h
  · by_cases hc : isLetter c = true
    · rw [biteToken_word hc] at h ⊢
      obtain ⟨hchars, hwords⟩ := ofWord_eq_id.1 (LexemeKind.token.inj (Option.some.inj h))
      refine ⟨hchars.symm, Ident.isProper_iff.2 ⟨_, _, hchars, hc, List.all_eq_true.1 List.all_takeWhile, ?_⟩, hc,
        head_dropWhile _ _⟩
      rwa [hchars]
    · exact (biteToken_ne_name hc h).elim

end Token
end FoolLang
