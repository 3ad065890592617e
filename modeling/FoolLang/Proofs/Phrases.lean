import FoolLang.Proofs.Drafts
import FoolLang.Proofs.Grammar
/-!
# Phrases — what may come after a point of a sentence

At a point inside a construct, the tokens to come are the rest of the construct and then whatever follows it.  Stated
here is, for each construct of the grammar, what it may begin with and what is left of it after the first token; for an
expression between frames, also which operators may still take it as their left operand (`ValueRest`).
-/
namespace FoolLang

/-- What the tokens to come must be. -/
abbrev Rest := List LinedToken → Prop

/-- A `P` comes, and its tree decides what comes after it. -/
def Then {α : Type} (P : List LinedToken → α → Prop) (k : α → Rest) : Rest :=
  fun ts => ∃ us vs x, ts = us ++ vs ∧ P us x ∧ k x vs

/-- A mark comes, and `k` after it. -/
def Sign (m : Mark) (k : Rest) : Rest := fun ts => ∃ l vs, ts = m.on l :: vs ∧ k vs

/-- A name comes, and `k` after it. -/
def Named (k : Ident → Rest) : Rest := fun ts => ∃ l x vs, ts = ⟨.id x, l⟩ :: vs ∧ k x vs

/-- A number comes, and `k` after it. -/
def Number (k : Nat → Rest) : Rest := fun ts => ∃ l n vs, ts = ⟨.num n, l⟩ :: vs ∧ k n vs

section Rests

variable {α : Type} {P : List LinedToken → α → Prop} {k : Rest} {t : Token} {l : Nat} {ts : List LinedToken}

theorem Then.intro {k : α → Rest} {us vs : List LinedToken} {x : α} (h : P us x) (hk : k x vs) :
    Then P k (us ++ vs) := ⟨us, vs, x, rfl, h, hk⟩

theorem Sign.intro {m : Mark} (l : Nat) (h : k ts) : Sign m k (m.on l :: ts) := ⟨l, ts, rfl, h⟩

@[simp] theorem sign_nil {m : Mark} : ¬ Sign m k [] := by simp [Sign]

@[simp] theorem sign_cons {m : Mark} : Sign m k (⟨t, l⟩ :: ts) ↔ t = .mark m ∧ k ts := by
  constructor
  · rintro ⟨_, _, h, hk⟩
    cases h
    exact ⟨rfl, hk⟩
  · rintro ⟨rfl, hk⟩
    exact .intro l hk

@[simp] theorem named_nil {k : Ident → Rest} : ¬ Named k [] := by simp [Named]

@[simp] theorem named_cons {k : Ident → Rest} : Named k (⟨t, l⟩ :: ts) ↔ ∃ x, t = .id x ∧ k x ts := by
  constructor
  · rintro ⟨_, x, _, h, hk⟩
    cases h
    exact ⟨x, rfl, hk⟩
  · rintro ⟨x, rfl, hk⟩
    exact ⟨l, x, ts, rfl, hk⟩

@[simp] theorem number_nil {k : Nat → Rest} : ¬ Number k [] := by simp [Number]

@[simp] theorem number_cons {k : Nat → Rest} : Number k (⟨t, l⟩ :: ts) ↔ ∃ n, t = .num n ∧ k n ts := by
  constructor
  · rintro ⟨_, n, _, h, hk⟩
    cases h
    exact ⟨n, rfl, hk⟩
  · rintro ⟨n, rfl, hk⟩
    exact ⟨l, n, ts, rfl, hk⟩

theorem then_nil {k : α → Rest} : Then P k [] ↔ ∃ x, P [] x ∧ k x [] := by
  constructor
  · rintro ⟨us, vs, x, h, hx, hk⟩
    obtain ⟨rfl, rfl⟩ := List.append_eq_nil_iff.1 h.symm
    exact ⟨x, hx, hk⟩
  · rintro ⟨x, hx, hk⟩
    exact .intro hx hk

theorem then_congr {k k' : α → Rest} (h : ∀ x us, k x us ↔ k' x us) : Then P k ts ↔ Then P k' ts := by
  simp [Then, h]

theorem then_many {k : List α → Rest} :
    Then (Many P) k ts ↔ k [] ts ∨ Then P (fun x => Then (Many P) fun xs => k (x :: xs)) ts := by
  constructor
  · rintro ⟨us, vs, xs, rfl, h, hk⟩
    cases h with
    | nil => exact .inl hk
    | cons hx hxs =>
      rw [List.append_assoc]
      exact .inr (.intro hx (.intro hxs hk))
  · rintro (hk | ⟨us, _, x, rfl, hx, vs, ws, xs, rfl, hxs, hk⟩)
    · exact ⟨[], ts, _, rfl, .nil, hk⟩
    · rw [← List.append_assoc]
      exact .intro (.cons hx hxs) hk

theorem then_more {k : List α → Rest} :
    Then (More P) k ts ↔ k [] ts ∨ Sign .comma (Then P fun x => Then (More P) fun xs => k (x :: xs)) ts := by
  constructor
  · rintro ⟨us, vs, xs, rfl, h, hk⟩
    cases h with
    | nil => exact .inl hk
    | cons hx hxs =>
      rw [List.cons_append, List.append_assoc]
      exact .inr (.intro _ (.intro hx (.intro hxs hk)))
  · rintro (hk | ⟨l, _, rfl, us, _, x, rfl, hx, vs, ws, xs, rfl, hxs, hk⟩)
    · exact ⟨[], ts, _, rfl, .nil, hk⟩
    · rw [← List.append_assoc, ← List.cons_append]
      exact .intro (.cons hx hxs) hk

theorem then_listed {k : List α → Rest} :
    Then (Listed P) k ts ↔ k [] ts ∨ Then P (fun x => Then (More P) fun xs => k (x :: xs)) ts := by
  constructor
  · rintro ⟨us, vs, xs, rfl, h, hk⟩
    cases h with
    | nil => exact .inl hk
    | cons hx hxs =>
      rw [List.append_assoc]
      exact .inr (.intro hx (.intro hxs hk))
  · rintro (hk | ⟨us, _, x, rfl, hx, vs, ws, xs, rfl, hxs, hk⟩)
    · exact ⟨[], ts, _, rfl, .nil, hk⟩
    · rw [← List.append_assoc]
      exact .intro (.cons hx hxs) hk

end Rests

/-! ## Layers -/

theorem operator_iff {n : Nat} {m : Mark} {op : BinOp} : Operator n m op ↔ m.binOp? = some op ∧ op.level = n := by
  constructor
  · rintro ⟨⟩ <;> exact ⟨rfl, rfl⟩
  · rintro ⟨hm, rfl⟩
    cases m <;> cases hm <;> constructor

/-- Operators and right operands after the expression `e` of layer `n`, none of a layer looser than `low`. -/
inductive Chain (low : Nat) : Nat → Expr → List LinedToken → Expr → Prop
  | nil {n : Nat} {e : Expr} : Chain low n e [] e
  | cons {n layer l : Nat} {m : Mark} {op : BinOp} {us vs : List LinedToken} {e r e' : Expr}
    (operator : Operator layer m op) (above : low ≤ layer) (below : layer ≤ n)
    (right : Layered UnaryText (layer + 1) us r) (rest : Chain low layer (.binary l op e r) vs e') :
    Chain low n e (m.on l :: (us ++ vs)) e'

section Layers

variable {low n : Nat} {ts : List LinedToken} {e e' : Expr}

theorem Layered.le {U : List LinedToken → Expr → Prop} (h : Layered U n ts e) : n ≤ 4 := by
  induction h with
  | binary _ _ _ ihl _ => exact ihl
  | tighter _ ih => omega
  | unary _ => exact Nat.le_refl 4

theorem Layered.looser {U : List LinedToken → Expr → Prop} (h : Layered U n ts e) (hle : low ≤ n) :
    Layered U low ts e := by
  induction n with
  | zero =>
    obtain rfl : low = 0 := by omega
    exact h
  | succ n ih =>
    rcases Nat.lt_or_eq_of_le hle with hlt | rfl
    · exact ih h.tighter (by omega)
    · exact h

theorem Chain.mono {low' : Nat} (h : Chain low n e ts e') (hle : low' ≤ low) : Chain low' n e ts e' := by
  induction h with
  | nil => exact .nil
  | cons hop ha hb hr _ ih => exact .cons hop (Nat.le_trans hle ha) hb hr ih

theorem Chain.snoc {l : Nat} {m : Mark} {op : BinOp} {us : List LinedToken} {a r : Expr} (h : Chain low n e ts a)
    (hle : low ≤ n) (hop : Operator low m op) (hr : Layered UnaryText (low + 1) us r) :
    Chain low n e (ts ++ m.on l :: us) (.binary l op a r) := by
  induction h with
  | nil => simpa using Chain.cons hop (Nat.le_refl _) hle hr .nil
  | cons hop' ha hb hr' _ ih =>
    rw [List.cons_append, List.append_assoc]
    exact .cons hop' ha hb hr' (ih ha)

/-- What a chain makes of an expression of a layer is an expression of the loosest layer. -/
theorem Chain.layered {vs : List LinedToken} (h : Chain low n e vs e') :
    ∀ {ts : List LinedToken}, low ≤ n → Layered UnaryText n ts e → Layered UnaryText low (ts ++ vs) e' := by
  induction h with
  | nil =>
    intro ts hle he
    rw [List.append_nil]
    exact he.looser hle
  | @cons n layer l m op us vs e r e' hop ha hb hr _ ih =>
    intro ts _ he
    have := ih ha (.binary (l := l) hop (he.looser hb) hr)
    simpa using this

theorem Layered.chain (h : Layered UnaryText n ts e) :
    ∃ us vs x, ts = us ++ vs ∧ UnaryText us x ∧ Chain n 4 x vs e := by
  induction h with
  | binary hop hl hr ihl _ =>
    obtain ⟨us, vs, x, rfl, hx, hc⟩ := ihl
    rw [List.append_assoc]
    exact ⟨us, _, x, rfl, hx, hc.snoc hl.le hop hr⟩
  | tighter _ ih =>
    obtain ⟨us, vs, x, rfl, hx, hc⟩ := ih
    exact ⟨us, vs, x, rfl, hx, hc.mono (Nat.le_succ _)⟩
  | unary hx => exact ⟨_, [], _, (List.append_nil _).symm, hx, .nil⟩

/-- An expression of a layer is a unary one and a chain. -/
theorem then_layered {k : Expr → Rest} (hn : n ≤ 4) :
    Then (Layered UnaryText n) k ts ↔ Then UnaryText (fun x => Then (Chain n 4 x) k) ts := by
  constructor
  · rintro ⟨us, vs, e, rfl, he, hk⟩
    obtain ⟨us, ws, x, rfl, hx, hc⟩ := he.chain
    rw [List.append_assoc]
    exact .intro hx (.intro hc hk)
  · rintro ⟨us, _, x, rfl, hx, ws, vs, e, rfl, hc, hk⟩
    rw [← List.append_assoc]
    exact .intro (hc.layered hn (.unary hx)) hk

theorem then_exprText {k : Expr → Rest} :
    Then ExprText k ts ↔ Then UnaryText (fun x => Then (Chain 0 4 x) k) ts := then_layered (Nat.zero_le 4)

end Layers

section Chains

variable {low n l : Nat} {e : Expr} {k : Expr → Rest} {ts : List LinedToken}

theorem then_chain_nil : Then (Chain low n e) k [] ↔ k e [] := by
  rw [then_nil]
  constructor
  · rintro ⟨x, h, hk⟩
    cases h
    exact hk
  · exact fun hk => ⟨e, .nil, hk⟩

theorem then_chain_operator {m : Mark} {op : BinOp} (hm : m.binOp? = some op) :
    Then (Chain low n e) k (m.on l :: ts) ↔ k e (m.on l :: ts) ∨ low ≤ op.level ∧ op.level ≤ n ∧
      Then (Layered UnaryText (op.level + 1)) (fun r => Then (Chain low op.level (.binary l op e r)) k) ts := by
  constructor
  · rintro ⟨us, vs, x, hts, h, hk⟩
    cases h with
    | nil => exact .inl (by rwa [hts])
    | cons hop ha hb hr hc =>
      simp only [Mark.on, List.cons_append, List.cons.injEq, LinedToken.mk.injEq, Token.mark.injEq,
        List.append_assoc] at hts
      obtain ⟨⟨rfl, rfl⟩, rfl⟩ := hts
      obtain ⟨hm', rfl⟩ := operator_iff.1 hop
      obtain rfl : _ = op := Option.some.inj (hm'.symm.trans hm)
      exact .inr ⟨ha, hb, .intro hr (.intro hc hk)⟩
  · rintro (hk | ⟨ha, hb, us, _, r, rfl, hr, vs, ws, x, rfl, hc, hk⟩)
    · exact ⟨[], _, e, rfl, .nil, hk⟩
    · rw [← List.append_assoc, ← List.cons_append]
      exact .intro (.cons (operator_iff.2 ⟨hm, rfl⟩) ha hb hr hc) hk

theorem then_chain_other {t : Token} (ht : ∀ m, t = .mark m → m.binOp? = none) :
    Then (Chain low n e) k (⟨t, l⟩ :: ts) ↔ k e (⟨t, l⟩ :: ts) := by
  constructor
  · rintro ⟨us, vs, x, hts, h, hk⟩
    cases h with
    | nil => rwa [hts]
    | cons hop ha hb hr hc =>
      simp only [Mark.on, List.cons_append, List.cons.injEq, LinedToken.mk.injEq] at hts
      have := (operator_iff.1 hop).1
      rw [ht _ hts.1.1] at this
      cases this
  · exact fun hk => ⟨[], _, e, rfl, .nil, hk⟩

end Chains

/-! ## What follows a draft -/

/-- After the parenthesis that opens arguments. -/
def ArgsRest (k : Expr → Rest) (line : Nat) (head : Head) : Rest :=
  Then (Listed ExprText) fun es => Sign .rparen (k (head.apply line es))

/-- After the first branch, and after `else`. -/
def NoRest (k : Expr → Rest) (line : Nat) (test yes : Expr) : Rest :=
  Sign .lbrace (Then ExprText fun no => Sign .rbrace (k (.cond line test yes no)))

/-- After `then`. -/
def YesRest (k : Expr → Rest) (line : Nat) (test : Expr) : Rest :=
  Sign .lbrace (Then ExprText fun yes => Sign .rbrace (Sign .kwElse (NoRest k line test yes)))

/-- After a point inside an expression, if `k` follows the operand that is being read. -/
def FocusRest (k : Expr → Rest) : Focus → Rest
  | .operand => Then UnaryText k
  | .value e => k e
  | .name line x => fun ts =>
    k (.id line (.fresh x)) ts ∨ Sign .lparen (ArgsRest k line (.call x)) ts ∨
      Sign .dot (Named fun m => Sign .lparen (ArgsRest k line (.send x m))) ts
  | .negative line => Number fun n => k (.int line (-Int32.ofNat n))
  | .printOpen line => Sign .lparen (Then ExprText fun e => Sign .rparen (k (.print line e)))
  | .argsOpen line head => Sign .lparen (ArgsRest k line head)
  | .newName line => Named fun c => Sign .lparen (ArgsRest k line (.new c))
  | .methodName line o => Named fun m => Sign .lparen (ArgsRest k line (.send o m))
  | .yesOpen line test => YesRest k line test
  | .elseWord line test yes => Sign .kwElse (NoRest k line test yes)
  | .noOpen line test yes => NoRest k line test yes

/-- After the whole expression that a bracket waits for, if `k` follows the operand that the bracket makes.  The
operators are no brackets. -/
def Frame.rest (k : Expr → Rest) (e : Expr) : Frame → Rest
  | .binary _ _ _ | .not _ => fun _ => False
  | .group => Sign .rparen (k e)
  | .print line => Sign .rparen (k (.print line e))
  | .test line => Sign .kwThen (YesRest k line e)
  | .yes line t => Sign .rbrace (Sign .kwElse (NoRest k line t e))
  | .no line t y => Sign .rbrace (k (.cond line t y e))
  | .args line head done =>
    Then (More ExprText) fun es => Sign .rparen (k (head.apply line ((e :: done).reverse ++ es)))

/-- After an expression of layer `n`, if `site` follows the outermost expression.  The operators to come may take what
has been read as their left operand as far as its own layer and the frames up to the innermost bracket allow. -/
def ValueRest (site : Expr → Rest) : List Frame → Nat → Expr → Rest
  | [], n, e => Then (Chain 0 n e) fun x => Sign .semicolon (site x)
  | .not line :: fs, n, e => ValueRest site fs n (.not line e)
  | .binary line op left :: fs, n, e =>
    Then (Chain (op.level + 1) n e) fun right => ValueRest site fs (min n op.level) (.binary line op left right)
  | f :: fs, n, e => Then (Chain 0 n e) fun x => f.rest (ValueRest site fs 4) x

/-- After the whole expression inside the innermost bracket. -/
def CloseRest (site : Expr → Rest) (e : Expr) : List Frame → Rest
  | [] => Sign .semicolon (site e)
  | f :: fs => f.rest (ValueRest site fs 4) e

section Values

variable {site : Expr → Rest} {l : Nat} {ts : List LinedToken}

/-- The frames that `settle` stops at whatever the level, and the outermost expression. -/
theorem valueRest_bracket {frames : List Frame} {n : Nat} {e : Expr}
    (hnot : ∀ line fs, frames = .not line :: fs → False)
    (hbin : ∀ line op left fs, frames = .binary line op left :: fs → False) :
    ValueRest site frames n e = Then (Chain 0 n e) fun x => CloseRest site x frames := by
  cases frames with
  | nil => rfl
  | cons f fs =>
    cases f with
    | not line => exact (hnot line fs rfl).elim
    | binary line op left => exact (hbin line op left fs rfl).elim
    | _ => rfl

/-- **After a token that is no operator, every frame before the bracket is complete.** -/
theorem valueRest_other {t : Token} (ht : ∀ m, t = .mark m → m.binOp? = none) (frames : List Frame) (e : Expr)
    (n : Nat) :
    ValueRest site frames n e (⟨t, l⟩ :: ts) ↔
      CloseRest site (settle 0 e frames).1 (settle 0 e frames).2 (⟨t, l⟩ :: ts) := by
  fun_induction settle 0 e frames generalizing n with
  | case1 e line fs ih => exact ih n
  | case2 e line op left fs _ ih => exact (then_chain_other ht).trans (ih _)
  | case3 e line op left fs h => exact absurd (Nat.zero_le _) h
  | case4 e frames hnot hbin =>
    rw [valueRest_bracket hnot hbin]
    exact then_chain_other ht

/-- What ends the expression in a bracket is a mark, and no operator. -/
theorem closeRest_closer {frames : List Frame} {e : Expr} (h : CloseRest site e frames ts) :
    ∃ m l us, ts = Mark.on m l :: us ∧ m.binOp? = none := by
  have hsign : ∀ {m : Mark} {k : Rest}, Sign m k ts → m.binOp? = none →
      ∃ m l us, ts = Mark.on m l :: us ∧ m.binOp? = none := fun ⟨l, us, hts, _⟩ hm => ⟨_, l, us, hts, hm⟩
  cases frames with
  | nil => exact hsign h rfl
  | cons f fs =>
    cases f with
    | not line | binary line op left => exact h.elim
    | args line head done => exact (then_more.1 h).elim (hsign · rfl) (hsign · rfl)
    | _ => exact hsign h rfl

theorem valueRest_nil (frames : List Frame) (e : Expr) (n : Nat) : ¬ ValueRest site frames n e [] := by
  fun_induction settle 0 e frames generalizing n with
  | case1 e line fs ih => exact ih n
  | case2 e line op left fs _ ih =>
    rw [ValueRest, then_chain_nil]
    exact ih _
  | case3 e line op left fs h => exact absurd (Nat.zero_le _) h
  | case4 e frames hnot hbin =>
    rw [valueRest_bracket hnot hbin, then_chain_nil]
    intro h
    obtain ⟨_, _, _, hts, _⟩ := closeRest_closer h
    cases hts

section Operators

variable {m : Mark} {op : BinOp} (hm : m.binOp? = some op)

include hm

theorem closeRest_operator {frames : List Frame} {e : Expr} : ¬ CloseRest site e frames (m.on l :: ts) := by
  intro h
  obtain ⟨m', _, _, hts, hm'⟩ := closeRest_closer h
  cases hts
  rw [hm] at hm'
  cases hm'

/-- An operator that comes after an expression is of its layer or a looser one. -/
theorem valueRest_level (frames : List Frame) (e : Expr) (n : Nat) (h : ValueRest site frames n e (m.on l :: ts)) :
    op.level ≤ n := by
  fun_induction settle 0 e frames generalizing n with
  | case1 e line fs ih => exact ih n h
  | case2 e line op' left fs _ ih =>
    rcases (then_chain_operator hm).1 h with h | ⟨-, hb, -⟩
    · exact Nat.le_trans (ih _ h) (Nat.min_le_left _ _)
    · exact hb
  | case3 e line op' left fs hlt => exact absurd (Nat.zero_le _) hlt
  | case4 e frames hnot hbin =>
    rw [valueRest_bracket hnot hbin, then_chain_operator hm] at h
    exact (h.resolve_left (closeRest_operator hm)).2.1

/-- **An operator completes the frames that bind as tightly as itself, and waits for its right operand.** -/
theorem valueRest_operator (frames : List Frame) (e : Expr) (n : Nat) :
    ValueRest site frames n e (m.on l :: ts) ↔
      op.level ≤ n ∧
        Then UnaryText
          (ValueRest site (.binary l op (settle op.level e frames).1 :: (settle op.level e frames).2) 4) ts := by
  have h4 : op.level + 1 ≤ 4 := by cases op <;> decide
  fun_induction settle op.level e frames generalizing n with
  | case1 e line fs ih => exact ih n
  | case2 e line op' left fs hle ih =>
    refine (then_chain_operator hm).trans ?_
    constructor
    · rintro (h | ⟨ha, -⟩)
      · obtain ⟨hn, h⟩ := (ih _).1 h
        exact ⟨by omega, h⟩
      · omega
    · rintro ⟨hn, h⟩
      exact .inl ((ih _).2 ⟨by omega, h⟩)
  | case3 e line op' left fs hlt =>
    refine (then_chain_operator hm).trans ?_
    rw [then_layered h4]
    constructor
    · rintro (h | ⟨-, hb, h⟩)
      · have := valueRest_level hm _ _ _ h
        omega
      · rw [show min n op'.level = min op.level op'.level by omega] at h
        refine ⟨hb, ?_⟩
        simpa only [ValueRest, show min 4 op.level = op.level by omega] using h
    · rintro ⟨hb, h⟩
      rw [show min n op'.level = min op.level op'.level by omega]
      refine .inr ⟨by omega, hb, ?_⟩
      simpa only [ValueRest, show min 4 op.level = op.level by omega] using h
  | case4 e frames hnot hbin =>
    rw [valueRest_bracket hnot hbin, then_chain_operator hm, then_layered h4, or_iff_right (closeRest_operator hm),
      and_iff_right (Nat.zero_le _)]
    simp only [ValueRest, valueRest_bracket hnot hbin, show min 4 op.level = op.level by omega]

end Operators

end Values

/-- An expression up to its semicolon, and `k` after it. -/
def BodyRest (k : Expr → Rest) : Rest := Then ExprText fun e => Sign .semicolon (k e)

/-- After the parameters of a routine. -/
def RoutineRest (k : List Dec → Expr → Rest) : Rest := Then (LocalsText DecText) fun ds => BodyRest (k ds)

/-- After the declarations `ds`, the newest first, where more may come. -/
def DecsRest (k : List Dec → Rest) (ds : List Dec) : Rest := Then (Many DecText) fun ds' => k (ds.reverse ++ ds')

/-- The function or the method that a head, local declarations and a body make. -/
def RoutineHead.func (h : RoutineHead) (locals : List Dec) (body : Expr) : Dec :=
  .func h.name.line h.name.id h.name.ty (h.params.map Binding.param) locals body

def RoutineHead.method (h : RoutineHead) (locals : List Dec) (body : Expr) : Method :=
  ⟨h.name.line, h.name.id, h.name.ty, h.params.map Binding.param, locals, body, 0⟩

section Declarations

variable {l : Nat} {t : Token} {ts : List LinedToken}

theorem then_type {k : Ty → Rest} :
    Then TypeText k (⟨t, l⟩ :: ts) ↔ ∃ ty, Draft.typeOf? t = some ty ∧ k ty ts := by
  constructor
  · rintro ⟨us, vs, ty, hts, h, hk⟩
    cases h <;> cases hts <;> exact ⟨_, rfl, hk⟩
  · rintro ⟨ty, hty, hk⟩
    unfold Draft.typeOf? at hty
    split at hty <;> cases hty
    · exact ⟨_, ts, _, rfl, .int l, hk⟩
    · exact ⟨_, ts, _, rfl, .bool l, hk⟩
    · exact ⟨_, ts, _, rfl, .ref l _, hk⟩

theorem then_binding {k : Binding → Rest} :
    Then BindingText k (⟨t, l⟩ :: ts) ↔ ∃ x, t = .id x ∧ Sign .colon (Then TypeText fun ty => k ⟨l, x, ty⟩) ts := by
  constructor
  · rintro ⟨us, vs, b, hts, ⟨hty⟩, hk⟩
    cases hts
    exact ⟨_, rfl, .intro _ (.intro hty hk)⟩
  · rintro ⟨x, rfl, lc, _, rfl, us, vs, ty, rfl, hty, hk⟩
    exact ⟨_, vs, _, rfl, .mk hty, hk⟩

theorem then_locals {k : List Dec → Rest} :
    Then (LocalsText DecText) k ts ↔
      k [] ts ∨ Sign .kwLet (Then (Many DecText) fun ds us => ds ≠ [] ∧ Sign .kwIn (k ds) us) ts := by
  constructor
  · rintro ⟨us, vs, ds, rfl, h, hk⟩
    cases h with
    | none => exact .inl hk
    | some hds hne =>
      rw [List.cons_append, List.append_assoc]
      exact .inr (.intro _ (.intro hds ⟨hne, .intro _ hk⟩))
  · rintro (hk | ⟨lt, _, rfl, us, _, ds, rfl, hds, hne, li, vs, rfl, hk⟩)
    · exact ⟨[], ts, _, rfl, .none, hk⟩
    · exact ⟨_, vs, ds, by rw [List.cons_append, List.append_assoc]; rfl, .some hds hne, hk⟩

/-- After the word that begins a routine on line `l`. -/
def FunRest (l : Nat) (k : Method → Rest) : Rest :=
  Then BindingText fun b => Sign .lparen (Then (Listed BindingText) fun ps => Sign .rparen (RoutineRest fun ds e =>
    k (RoutineHead.method ⟨⟨l, b.id, b.ty⟩, ps⟩ ds e)))

theorem then_routine {k : Method → Rest} :
    Then (RoutineText DecText) k (⟨t, l⟩ :: ts) ↔ t = .mark .kwFun ∧ FunRest l k ts := by
  constructor
  · rintro ⟨us, vs, b, hts, ⟨hb, hps, hds, he⟩, hk⟩
    simp only [Mark.on, List.cons_append, List.append_assoc, List.nil_append, List.cons.injEq,
      LinedToken.mk.injEq] at hts
    obtain ⟨⟨rfl, rfl⟩, rfl⟩ := hts
    exact ⟨rfl, .intro hb (.intro _ (.intro hps (.intro _ (.intro hds (.intro he (.intro _ hk))))))⟩
  · rintro ⟨rfl, bs, _, b, rfl, hb, lo, _, rfl, ps, _, qs, rfl, hps, lc, _, rfl, ls, _, ds, rfl, hds, es, _, e, rfl, he,
      le, vs, rfl, hk⟩
    exact ⟨_, vs, _, by simp only [List.cons_append, List.append_assoc]; rfl, .mk hb hps hds he, hk⟩

theorem then_dec {k : Dec → Rest} :
    Then DecText k (⟨t, l⟩ :: ts) ↔
      t = .mark .kwVar ∧ Then BindingText (fun b => Sign .assign (BodyRest fun e => k (.var l b.id b.ty e))) ts ∨
      t = .mark .kwFun ∧ FunRest l (fun m => k (.func m.line m.id m.ret m.params m.locals m.body)) ts := by
  constructor
  · rintro ⟨us, vs, d, hts, h, hk⟩
    cases h with
    | var hb he =>
      simp only [Mark.on, List.cons_append, List.append_assoc, List.nil_append, List.cons.injEq,
        LinedToken.mk.injEq] at hts
      obtain ⟨⟨rfl, rfl⟩, rfl⟩ := hts
      exact .inl ⟨rfl, .intro hb (.intro _ (.intro he (.intro _ hk)))⟩
    | func h => exact .inr (then_routine.1 ⟨us, vs, _, hts, h, hk⟩)
  · rintro (⟨rfl, bs, _, b, rfl, hb, la, _, rfl, es, _, e, rfl, he, le, vs, rfl, hk⟩ | h)
    · exact ⟨_, vs, _, by simp only [List.cons_append, List.append_assoc]; rfl, .var hb he, hk⟩
    · obtain ⟨us, vs, m, hts, hm, hk⟩ := then_routine.2 h
      exact ⟨us, vs, _, hts, .func hm, hk⟩

end Declarations

/-! ## Operands -/

/-- After a token where an operand must begin. -/
def OperandRest (k : Expr → Rest) (l : Nat) : Token → Rest
  | .num n => k (.int l (Int32.ofNat n))
  | .id x => FocusRest k (.name l x)
  | .mark .minus => FocusRest k (.negative l)
  | .mark .kwTrue => k (.bool l true)
  | .mark .kwFalse => k (.bool l false)
  | .mark .kwNull => k (.null l)
  | .mark .not => Then UnaryText fun e => k (.not l e)
  | .mark .lparen => Then ExprText fun e => Sign .rparen (k e)
  | .mark .kwPrint => FocusRest k (.printOpen l)
  | .mark .kwIf => Then ExprText fun e => Sign .kwThen (YesRest k l e)
  | .mark .kwNew => FocusRest k (.newName l)
  | _ => fun _ => False

theorem then_unary {k : Expr → Rest} {l : Nat} {t : Token} {ts : List LinedToken} :
    Then UnaryText k (⟨t, l⟩ :: ts) ↔ OperandRest k l t ts := by
  constructor
  · rintro ⟨us, vs, e, hts, h, hk⟩
    cases h with
    | not h =>
      cases hts
      exact .intro h hk
    | atom h =>
      cases h <;>
        simp only [Mark.on, List.cons_append, List.append_assoc, List.nil_append, List.cons.injEq,
          LinedToken.mk.injEq] at hts <;>
        obtain ⟨⟨rfl, rfl⟩, rfl⟩ := hts
      case num => exact hk
      case negative => exact ⟨_, _, _, rfl, hk⟩
      case yes | no | null => exact hk
      case new h => exact ⟨_, _, _, rfl, .intro _ (.intro h (.intro _ hk))⟩
      case cond ht hy hn =>
        exact .intro ht (.intro _ (.intro _ (.intro hy (.intro _ (.intro _ (.intro _ (.intro hn (.intro _ hk))))))))
      case print h => exact .intro _ (.intro h (.intro _ hk))
      case group h => exact .intro h (.intro _ hk)
      case id => exact .inl hk
      case call h => exact .inr (.inl (.intro _ (.intro h (.intro _ hk))))
      case send h => exact .inr (.inr (.intro _ ⟨_, _, _, rfl, .intro _ (.intro h (.intro _ hk))⟩))
  · have hatom : ∀ {us vs : List LinedToken} {e : Expr}, ⟨t, l⟩ :: ts = us ++ vs → AtomText us e → k e vs →
        Then UnaryText k (⟨t, l⟩ :: ts) := fun hts h hk => ⟨_, _, _, hts, .atom h, hk⟩
    intro h
    unfold OperandRest at h
    split at h
    · exact hatom rfl (.num l _) h
    · rcases h with h | ⟨lo, _, rfl, ts, _, es, rfl, hes, lc, vs, rfl, hk⟩ |
        ⟨ld, _, rfl, lm, m, _, rfl, lo, _, rfl, ts, _, es, rfl, hes, lc, vs, rfl, hk⟩
      · exact hatom rfl (.id l _) h
      · exact hatom (by simp only [List.cons_append, List.append_assoc]; rfl) (.call hes) hk
      · exact hatom (by simp only [List.cons_append, List.append_assoc]; rfl) (.send hes) hk
    · obtain ⟨_, n, vs, rfl, hk⟩ := h
      exact hatom rfl (.negative l _ n) hk
    · exact hatom rfl (.yes l) h
    · exact hatom rfl (.no l) h
    · exact hatom rfl (.null l) h
    · obtain ⟨us, vs, e, rfl, he, hk⟩ := h
      exact ⟨_, vs, _, rfl, .not he, hk⟩
    · obtain ⟨us, _, e, rfl, he, lc, vs, rfl, hk⟩ := h
      exact hatom (by rw [List.cons_append, List.append_assoc]; rfl) (.group he) hk
    · obtain ⟨lo, _, rfl, us, _, e, rfl, he, lc, vs, rfl, hk⟩ := h
      exact hatom (by simp only [List.cons_append, List.append_assoc]; rfl) (.print he) hk
    · obtain ⟨us, _, a, rfl, ha, lt, _, rfl, lo, _, rfl, vs, _, b, rfl, hb, lc, _, rfl, le, _, rfl, lo', _, rfl, ws, _,
        c, rfl, hc, lc', xs, rfl, hk⟩ := h
      exact hatom (by simp only [List.cons_append, List.append_assoc]; rfl) (.cond ha hb hc) hk
    · obtain ⟨lc, c, _, rfl, lo, _, rfl, us, _, es, rfl, hes, le, vs, rfl, hk⟩ := h
      exact hatom (by simp only [List.cons_append, List.append_assoc]; rfl) (.new hes) hk
    · exact h.elim

end FoolLang
