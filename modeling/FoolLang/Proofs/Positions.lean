import FoolLang.Position
import FoolLang.Text.Trivia
import Mathlib.Data.List.Basic
/-!
# Positions — where the bytes of a text stand

The line breaks of a text are told by the bytes of its line feeds (`lineBreaks_eq`), so those up to an offset come first
and there is one for each line feed before it (`lineBreaks_split`).  The search among the starts of lines ends at the
last one that is not after the offset, and reads no index out of range on its way (`Position.find?_eq`).
-/
namespace FoolLang
namespace Text

/-! ## Bytes -/

/-- The bytes of a text in UTF-8. -/
def utf8 (cs : List Char) : List UInt8 := cs.flatMap String.utf8EncodeChar

theorem utf8_cons (c : Char) (cs : List Char) : utf8 (c :: cs) = String.utf8EncodeChar c ++ utf8 cs :=
  List.flatMap_cons

theorem utf8_append (a b : List Char) : utf8 (a ++ b) = utf8 a ++ utf8 b := List.flatMap_append

theorem length_utf8 : ∀ cs : List Char, (utf8 cs).length = byteLength cs
  | [] => rfl
  | c :: cs => by rw [utf8_cons, List.length_append, String.length_utf8EncodeChar, length_utf8 cs, byteLength]

/-- The byte of a line feed. -/
def lineFeed : UInt8 := 10

/-- No byte of another character is that of a line feed. -/
theorem lineFeed_notMem {c : Char} (h : c ≠ '\n') : lineFeed ∉ String.utf8EncodeChar c := by
  have hval : c.val.toNat ≠ 10 := fun hv => h (Char.toNat_inj.1 hv)
  have hbyte : ∀ n, n % 256 ≠ 10 → lineFeed ≠ UInt8.ofNat n := fun n hn he => hn (congrArg UInt8.toNat he).symm
  unfold String.utf8EncodeChar
  simp only
  split
  · simp only [List.mem_cons, List.not_mem_nil, or_false]
    exact hbyte _ (by omega)
  · split
    · simp only [List.mem_cons, List.not_mem_nil, or_false, not_or]
      exact ⟨hbyte _ (by omega), hbyte _ (by omega)⟩
    · split
      · simp only [List.mem_cons, List.not_mem_nil, or_false, not_or]
        exact ⟨hbyte _ (by omega), hbyte _ (by omega), hbyte _ (by omega)⟩
      · simp only [List.mem_cons, List.not_mem_nil, or_false, not_or]
        exact ⟨hbyte _ (by omega), hbyte _ (by omega), hbyte _ (by omega), hbyte _ (by omega)⟩

theorem count_lineFeed : ∀ cs : List Char, (utf8 cs).count lineFeed = cs.count '\n'
  | [] => rfl
  | c :: cs => by
    rw [utf8_cons, List.count_append, count_lineFeed cs, List.count_cons]
    by_cases h : c = '\n'
    · subst h
      rw [Nat.add_comm]
      rfl
    · rw [List.count_eq_zero.2 (lineFeed_notMem h), Nat.zero_add]
      simp [h]

/-! ## Line breaks -/

/-- **Lines break right after the bytes of line feeds.** -/
theorem lineBreaks_eq : ∀ (cs : List Char) (pos : Nat),
    lineBreaks pos cs = (utf8 cs).findIdxs (· == lineFeed) (pos + 1)
  | [], _ => rfl
  | c :: cs, pos => by
    rw [lineBreaks, utf8_cons, List.findIdxs_append, String.length_utf8EncodeChar]
    by_cases h : c = '\n'
    · subst h
      rw [if_pos rfl, lineBreaks_eq cs]
      rfl
    · have hnone : (String.utf8EncodeChar c).findIdxs (· == lineFeed) (pos + 1) = [] :=
        List.findIdxs_eq_nil_iff.2 fun b hb => beq_eq_false_iff_ne.2 fun he => lineFeed_notMem h (he ▸ hb)
      rw [if_neg h, lineBreaks_eq cs, hnone, List.nil_append, Nat.add_right_comm]

theorem pairwise_lineBreaks (cs : List Char) : (0 :: lineBreaks 0 cs).Pairwise (· < ·) := by
  rw [lineBreaks_eq]
  exact List.pairwise_cons.2 ⟨List.ge_of_mem_findIdxs, List.pairwise_findIdxs⟩

theorem mem_lineBreaks {cs : List Char} {b : Nat} :
    b ∈ lineBreaks 0 cs ↔ ∃ i, b = i + 1 ∧ (utf8 cs)[i]? = some lineFeed := by
  rw [lineBreaks_eq, List.mem_findIdxs_iff_getElem_sub_pos]
  constructor
  · rintro ⟨hb, hlt, hp⟩
    exact ⟨b - (0 + 1), by omega, List.getElem?_eq_some_iff.2 ⟨hlt, eq_of_beq hp⟩⟩
  · rintro ⟨i, rfl, hi⟩
    obtain ⟨hlt, hi⟩ := List.getElem?_eq_some_iff.1 hi
    exact ⟨by omega, hlt, beq_iff_eq.2 hi⟩

/-- **The line breaks up to an offset come first, one for each line feed before it.** -/
theorem lineBreaks_split (cs : List Char) (offset : Nat) : ∃ before after, lineBreaks 0 cs = before ++ after ∧
    before.length = ((utf8 cs).take offset).count lineFeed ∧ (∀ b ∈ before, b ≤ offset) ∧ ∀ b ∈ after, offset < b := by
  have hbytes : utf8 cs = (utf8 cs).take offset ++ (utf8 cs).drop offset := (List.take_append_drop _ _).symm
  refine ⟨((utf8 cs).take offset).findIdxs (· == lineFeed) 1,
    ((utf8 cs).drop offset).findIdxs (· == lineFeed) (1 + ((utf8 cs).take offset).length), ?_, ?_, fun b hb => ?_,
    fun b hb => ?_⟩
  · rw [lineBreaks_eq, ← List.findIdxs_append, ← hbytes]
  · rw [List.length_findIdxs, List.count]
  · have := List.lt_add_of_mem_findIdxs b hb
    have := List.length_take_le offset (utf8 cs)
    omega
  · obtain ⟨hle, hlt, -⟩ := List.mem_findIdxs_iff_getElem_sub_pos.1 hb
    rw [List.length_drop] at hlt
    rw [List.length_take] at hle hlt
    omega

end Text

/-! ## The search -/

namespace Position

open Text

section

variable {starts : Array Nat} {offset k s : Nat}
  (hsplit : ∀ j t, starts[j]? = some t → (t ≤ offset ↔ j ≤ k)) (hk : starts[k]? = some s)

include hsplit

/-- The search closes in on the last start that is not after the offset. -/
theorem halve_eq : ∀ {fuel base size : Nat}, size ≤ fuel → base + size ≤ starts.size → base ≤ k → k < base + size →
    halve starts offset fuel base size = some k
  | 0, base, size, hfuel, _, hlo, hhi => by omega
  | fuel + 1, base, size, hfuel, hsize, hlo, hhi => by
    rw [halve]
    split
    · exact congrArg some (by omega)
    · obtain ⟨t, ht⟩ : ∃ t, starts[base + size / 2]? = some t :=
        ⟨_, Array.getElem?_eq_getElem (show base + size / 2 < starts.size by omega)⟩
      have hmid := hsplit _ t ht
      rw [ht]
      show halve starts offset fuel (if offset < t then base else base + size / 2) (size - size / 2) = some k
      split
      · exact halve_eq (by omega) (by omega) hlo (by omega)
      · exact halve_eq (by omega) (by omega) (by omega) (by omega)

include hk

/-- **An offset is found on the line of the last start that is not after it**, and no step fails. -/
theorem find?_eq : find? starts offset = some ⟨k + 1, offset - s + 1⟩ := by
  obtain ⟨hlt, -⟩ := Array.getElem?_eq_some_iff.1 hk
  have hle : s ≤ offset := (hsplit k s hk).2 (Nat.le_refl k)
  have hhalve : halve starts offset starts.size 0 starts.size = some k :=
    halve_eq hsplit (Nat.le_refl _) (by omega) (Nat.zero_le k) (by omega)
  have hsearch : search? starts offset = some (if s = offset then .start k else .gap (k + 1)) := by
    have hempty : ¬ starts.isEmpty = true := by
      rw [Array.isEmpty_iff_size_eq_zero]
      omega
    rw [search?, if_neg hempty, hhalve]
    show (starts[k]? >>= _) = _
    rw [hk]
    by_cases he : s = offset
    · simp [he]
    · have hne : s < offset := by omega
      simp [he, hne]
  rw [find?, hsearch]
  by_cases he : s = offset
  · rw [if_pos he, he, Nat.sub_self]
    rfl
  · have hone : minus? (k + 1) 1 = some k := if_pos (by omega)
    have hpast : minus? offset s = some (offset - s) := if_pos hle
    rw [if_neg he]
    simp only [Option.bind_eq_bind, Option.bind_some, hone, hk, hpast]
    rfl

end

/-! ## Lines and columns -/

/-- Where the line of an offset starts: at the first byte or right after a line feed, with no line feed in between. -/
structure StartsLine (bytes : List UInt8) (offset start : Nat) : Prop where
  le : start ≤ offset
  fresh : start = 0 ∨ ∃ i, start = i + 1 ∧ bytes[i]? = some lineFeed
  clear : ∀ i, start ≤ i → i < offset → bytes[i]? ≠ some lineFeed

theorem getElem?_lineStarts (breaks : List Nat) (j : Nat) : (lineStarts breaks)[j]? = (0 :: breaks)[j]? :=
  List.getElem?_toArray

/-- The line that an offset is on has as many line feeds before it as the offset has, and starts no later. -/
theorem exists_start (text : List Char) (offset : Nat) :
    ∃ s, (lineStarts (lineBreaks 0 text))[((utf8 text).take offset).count lineFeed]? = some s ∧
      ∀ j t, (lineStarts (lineBreaks 0 text))[j]? = some t →
        (t ≤ offset ↔ j ≤ ((utf8 text).take offset).count lineFeed) := by
  obtain ⟨before, after, hbreaks, hcount, hbefore, hafter⟩ := lineBreaks_split text offset
  have hget : ∀ j, (lineStarts (lineBreaks 0 text))[j]? = ((0 :: before) ++ after)[j]? := fun j => by
    rw [getElem?_lineStarts, hbreaks, List.cons_append]
  have hlow : ∀ t ∈ 0 :: before, t ≤ offset := List.forall_mem_cons.2 ⟨Nat.zero_le _, hbefore⟩
  rw [← hcount]
  refine ⟨(0 :: before)[before.length], ?_, fun j t hj => ?_⟩
  · rw [hget, List.getElem?_append_left (Nat.lt_succ_self _), List.getElem?_eq_getElem]
  · rw [hget] at hj
    by_cases hle : j ≤ before.length
    · rw [List.getElem?_append_left (Nat.lt_succ_of_le hle)] at hj
      exact iff_of_true (hlow t (List.mem_of_getElem? hj)) hle
    · rw [List.getElem?_append_right (Nat.lt_of_not_le hle)] at hj
      exact iff_of_false (Nat.not_le.2 (hafter t (List.mem_of_getElem? hj))) hle

/-- **An offset of a text is found**, on the line after the line feeds before it. -/
theorem find?_lineBreaks (text : List Char) (offset : Nat) : ∃ start, StartsLine (utf8 text) offset start ∧
    find? (lineStarts (lineBreaks 0 text)) offset =
      some ⟨((utf8 text).take offset).count lineFeed + 1, offset - start + 1⟩ := by
  obtain ⟨start, hstart, hsplit⟩ := exists_start text offset
  refine ⟨start, ⟨(hsplit _ _ hstart).2 (Nat.le_refl _), ?_, fun i hi hlt hfeed => ?_⟩, find?_eq hsplit hstart⟩
  · rw [getElem?_lineStarts] at hstart
    rcases List.mem_cons.1 (List.mem_of_getElem? hstart) with h | h
    · exact .inl h
    · exact .inr (mem_lineBreaks.1 h)
  · -- after a line feed in between a later line would start, also up to the offset
    obtain ⟨j, hj⟩ := List.mem_iff_getElem?.1 (List.mem_cons_of_mem 0 (mem_lineBreaks.2 ⟨i, rfl, hfeed⟩))
    have hle := (hsplit j (i + 1) ((getElem?_lineStarts _ j).trans hj)).1 hlt
    rw [getElem?_lineStarts] at hstart
    obtain ⟨hjlt, hjeq⟩ := List.getElem?_eq_some_iff.1 hj
    obtain ⟨hklt, hkeq⟩ := List.getElem?_eq_some_iff.1 hstart
    rcases Nat.eq_or_lt_of_le hle with rfl | hbelow
    · omega
    · have := List.pairwise_iff_getElem.1 (pairwise_lineBreaks text) j _ hjlt hklt hbelow
      omega

variable (text : List Char)

/-- The search gives the position of each offset. -/
theorem find?_eq_locate (offset : Nat) : find? (lineStarts (lineBreaks 0 text)) offset = some (locate text offset) := by
  obtain ⟨start, -, hfind⟩ := find?_lineBreaks text offset
  rw [locate, ofOffset, hfind]
  rfl

theorem locate_eq (offset : Nat) : ∃ start, StartsLine (utf8 text) offset start ∧
    locate text offset = ⟨((utf8 text).take offset).count lineFeed + 1, offset - start + 1⟩ := by
  obtain ⟨start, hstart, hfind⟩ := find?_lineBreaks text offset
  exact ⟨start, hstart, Option.some.inj ((find?_eq_locate text offset).symm.trans hfind)⟩

/-- **The line of an offset is one more than the line feeds before it.** -/
theorem line_locate (offset : Nat) : (locate text offset).line = ((utf8 text).take offset).count lineFeed + 1 := by
  obtain ⟨start, -, h⟩ := locate_eq text offset
  rw [h]

/-- The order of positions: by line, then by column. -/
def Before (p q : Position) : Prop := p.line < q.line ∨ p.line = q.line ∧ p.column < q.column

/-- **A later offset has a later position.** -/
theorem before_locate {o p : Nat} (h : o < p) : (locate text o).Before (locate text p) := by
  obtain ⟨s, hs, ho⟩ := locate_eq text o
  obtain ⟨t, ht, hp⟩ := locate_eq text p
  have hsplit : (utf8 text).take p = (utf8 text).take o ++ ((utf8 text).drop o).take (p - o) := by
    rw [← List.take_add, Nat.add_sub_cancel' (Nat.le_of_lt h)]
  have hcount : ((utf8 text).take p).count lineFeed =
      ((utf8 text).take o).count lineFeed + (((utf8 text).drop o).take (p - o)).count lineFeed := by
    rw [hsplit, List.count_append]
  simp only [Before, ho, hp, hcount]
  by_cases hnone : (((utf8 text).drop o).take (p - o)).count lineFeed = 0
  · -- on one line the later offset cannot have the later start
    have hle : t ≤ s := by
      rcases ht.fresh with rfl | ⟨i, rfl, hi⟩
      · exact Nat.zero_le s
      · by_cases hio : i < o
        · exact Nat.lt_of_not_le fun hsi => hs.clear i hsi hio hi
        · have hlt : i < p := ht.le
          have hmem : lineFeed ∈ ((utf8 text).drop o).take (p - o) := by
            refine List.mem_of_getElem? (i := i - o) ?_
            rw [List.getElem?_take_of_lt (by omega), List.getElem?_drop, Nat.add_sub_cancel' (Nat.le_of_not_lt hio), hi]
          exact absurd hmem (List.count_eq_zero.1 hnone)
    have := hs.le
    omega
  · omega

end Position

open Position Text

/-- **Positions are exact.**  For each byte offset of a text, also inside a character or past the end, the search among
the starts of lines ends without an index out of range or a negative difference.  The line is one more than the line
feeds before the offset, and the column one more than the distance from the byte after the last of them, or from the
first byte.  A later offset has a later position, so no two have the same. -/
theorem positions_exact (text : List Char) :
    (∀ offset, ∃ start, StartsLine (utf8 text) offset start ∧
      find? (lineStarts (lineBreaks 0 text)) offset = some (locate text offset) ∧
      (locate text offset).line = ((utf8 text).take offset).count lineFeed + 1 ∧
      (locate text offset).column = offset - start + 1) ∧
    (∀ o p, o < p → (locate text o).Before (locate text p)) ∧ Function.Injective (locate text) := by
  refine ⟨fun offset => ?_, fun o p => before_locate text, fun o p hsame => ?_⟩
  · obtain ⟨start, hstart, hplace⟩ := locate_eq text offset
    exact ⟨start, hstart, find?_eq_locate text offset, by rw [hplace], by rw [hplace]⟩
  · have hirrefl : ∀ q : Position, ¬ q.Before q := fun q hq => by
      unfold Before at hq
      omega
    rcases Nat.lt_trichotomy o p with h | h | h
    · exact absurd (hsame ▸ before_locate text h) (hirrefl _)
    · exact h
    · exact absurd (hsame ▸ before_locate text h) (hirrefl _)

/-- A character of two bytes, then an empty line. -/
def accentText : List Char := "é\n\nx".toList

/-- Inside the first character, at the start of the empty line, on the last line and past the end of it: the later, the
further. -/
theorem accentText_located :
    find? (lineStarts (lineBreaks 0 accentText)) 3 = some ⟨2, 1⟩ ∧
    (locate accentText 1).line = 1 ∧ (locate accentText 4).line = 3 ∧ locate accentText 9 = ⟨3, 6⟩ ∧
    1 < 9 ∧ (locate accentText 1).Before (locate accentText 9) ∧ locate accentText 3 ≠ locate accentText 4 := by
  obtain ⟨hexact, hlater, hinj⟩ := positions_exact accentText
  obtain ⟨-, -, -, hline, -⟩ := hexact 1
  obtain ⟨-, -, -, hline', -⟩ := hexact 4
  exact ⟨by decide, hline.trans (by decide), hline'.trans (by decide), by decide, by decide, hlater 1 9 (by decide),
    fun h => absurd (hinj h) (by decide)⟩

end FoolLang
