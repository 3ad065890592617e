import FoolLang.Parse
import FoolLang.Proofs.Phrases
/-!
# Sentences — what is read is the grammar

What may follow a draft so that it ends as a given program is a matter of the grammar alone (`DraftRest`).  A draft
takes a token exactly if the token may follow it, and what may come after the token is what may follow the next draft
(`step_rest`).  So the programs that are read are those of the grammar, and a list of tokens is at most one of them
(`parse_iff_sentence`).
-/
namespace FoolLang

/-! ## Drafts -/

section Drafts

variable (p : Program)

/-- Between the declarations of a program, after the classes. -/
def MainDecsRest (cs : List Class) : List Dec → Rest :=
  DecsRest fun ds => Sign .kwIn (BodyRest fun e ts => ts = [] ∧ p = .letIn cs.reverse ds e)

/-- Between the declarations of a program: classes may come until there is another declaration. -/
def MainRest (cs : List Class) : List Dec → Rest
  | [] => Then (Many ClassText) fun cs' => MainDecsRest p (cs'.reverse ++ cs) []
  | d :: ds => MainDecsRest p cs (d :: ds)

/-- Between the declarations of a routine, of which there must be one, if `k` follows the routine. -/
def LocalsRest (k : List Dec → Expr → Rest) : List Dec → Rest :=
  DecsRest fun ds ts => ds ≠ [] ∧ Sign .kwIn (BodyRest (k ds)) ts

/-- Between the methods of a class. -/
def MethodsRest (c : ClassDraft) : Rest :=
  Then (Many (RoutineText DecText)) fun ms =>
    Sign .rbrace (MainRest p ({ c with methods := ms.reverse ++ c.methods }.close :: c.head.earlier) [])

/-- After a routine. -/
def OwnerRest : Owner → RoutineHead → List Dec → Expr → Rest
  | .block (.main cs ds), head, ls, e => MainRest p cs (head.func ls e :: ds)
  | .block (.locals outer ds o), head, ls, e => LocalsRest (OwnerRest o outer) (head.func ls e :: ds)
  | .cls c, head, ls, e => MethodsRest p { c with methods := head.method ls e :: c.methods }

def BlockRest : Block → Rest
  | .main cs ds => MainRest p cs ds
  | .locals head ds o => LocalsRest (OwnerRest p o head) ds

def SiteRest (e : Expr) : Site → Rest
  | .program => fun ts => ts = [] ∧ p = .expr e
  | .main cs ds => fun ts => ts = [] ∧ p = .letIn cs.reverse ds.reverse e
  | .var b blk => BlockRest p (blk.add (.var b.line b.id b.ty e))
  | .body head ls o => OwnerRest p o head ls.reverse e

/-- After the fields of a class. -/
def FieldsRest (head : ClassHead) (fields : List Binding) : Rest :=
  Sign .lbrace (MethodsRest p ⟨head, fields, []⟩)

/-- After the name of the superclass. -/
def SuperRest (head : ClassHead) : Rest :=
  Sign .lparen (Then (Listed BindingText) fun bs => Sign .rparen (FieldsRest p head bs))

/-- After the name of a class. -/
def ClassHeadRest (head : ClassHead) : Rest := fun ts =>
  SuperRest p head ts ∨ Sign .kwExtends (Named fun c => SuperRest p { head with super := some c }) ts

/-- After a typed name. -/
def PurposeRest (b : Binding) : Purpose → Rest
  | .var _ blk => Sign .assign (BodyRest fun e => BlockRest p (blk.add (.var b.line b.id b.ty e)))
  | .routine _ o =>
    Sign .lparen (Then (Listed BindingText) fun ps => Sign .rparen (RoutineRest (OwnerRest p o ⟨b, ps⟩)))
  | .field head done => Then (More BindingText) fun bs => Sign .rparen (FieldsRest p head ((b :: done).reverse ++ bs))
  | .param name done o =>
    Then (More BindingText) fun bs => Sign .rparen (RoutineRest (OwnerRest p o ⟨name, (b :: done).reverse ++ bs⟩))

/-- Where a list may be empty, instead of a typed name. -/
def EmptyRest : Purpose → Rest
  | .field head [] => Sign .rparen (FieldsRest p head [])
  | .param name [] o => Sign .rparen (RoutineRest (OwnerRest p o ⟨name, []⟩))
  | _ => fun _ => False

/-- The line of the declaration that a typed name is for: its own unless the declaration begins with a word. -/
def Purpose.line (own : Nat) : Purpose → Nat
  | .var l _ | .routine l _ => l
  | .field _ _ | .param _ _ _ => own

def BindRest (q : Purpose) : BindFocus → Rest
  | .name => fun ts =>
    Then BindingText (fun b => PurposeRest p ⟨q.line b.line, b.id, b.ty⟩ q) ts ∨ EmptyRest p q ts
  | .colon l x => Sign .colon (Then TypeText fun ty => PurposeRest p ⟨l, x, ty⟩ q)
  | .ty l x => Then TypeText fun ty => PurposeRest p ⟨l, x, ty⟩ q
  | .done b => PurposeRest p b q

/-- Where arguments may be empty, instead of an operand. -/
def NoArgsRest (site : Expr → Rest) : Focus → List Frame → Rest
  | .operand, .args l head [] :: fs => Sign .rparen (ValueRest site fs 4 (head.apply l []))
  | _, _ => fun _ => False

/-- **What may follow a draft so that it ends as the program `p`.** -/
def DraftRest : Draft → Rest
  | .start => fun ts => Sentence ts p
  | .expr focus frames site => fun ts =>
    FocusRest (ValueRest (SiteRest p · site) frames 4) focus ts ∨ NoArgsRest (SiteRest p · site) focus frames ts
  | .block b => BlockRest p b
  | .methods c => MethodsRest p c
  | .bind focus q => BindRest p q focus
  | .className earlier l => Named fun c => ClassHeadRest p ⟨earlier, l, c, none⟩
  | .classHead head => ClassHeadRest p head
  | .superName head => Named fun c => SuperRest p { head with super := some c }
  | .superDone head => SuperRest p head
  | .classOpen head fields => FieldsRest p head fields
  | .routineOpen head o => RoutineRest (OwnerRest p o head)
  | .finished q => fun ts => ts = [] ∧ p = q


/-! ## One token more -/

variable {p} {l : Nat} {t : Token} {ts : List LinedToken}

theorem noArgsRest_cons {S : Expr → Rest} {focus : Focus} {frames : List Frame}
    (h : NoArgsRest S focus frames (⟨t, l⟩ :: ts)) : t = .mark .rparen := by
  unfold NoArgsRest at h
  split at h
  · exact (sign_cons.1 h).1
  · exact h.elim

theorem not_noArgsRest {S : Expr → Rest} {focus : Focus} {frames : List Frame} (h : focus ≠ .operand) :
    ¬ NoArgsRest S focus frames ts := by
  unfold NoArgsRest
  split
  · exact (h rfl).elim
  · exact id

theorem draftRest_expr {focus : Focus} {frames : List Frame} {site : Site} :
    DraftRest p (.expr focus frames site) ts ↔
      FocusRest (ValueRest (SiteRest p · site) frames 4) focus ts ∨
        NoArgsRest (SiteRest p · site) focus frames ts := Iff.rfl

theorem draftRest_close (e : Expr) (site : Site) : DraftRest p (site.close e) = SiteRest p e site := by
  cases site with
  | program | main cs ds | var b blk => rfl
  | body head ls o =>
    cases o with
    | block b => cases b <;> rfl
    | cls c => rfl

theorem close_rest {m : Mark} {e : Expr} {frames : List Frame} {site : Site} :
    CloseRest (SiteRest p · site) e frames (⟨.mark m, l⟩ :: ts) ↔
      ∃ d, Draft.close m e frames site = some d ∧ DraftRest p d ts := by
  unfold Draft.close
  split
  case h_4 line head done fs =>
    simp [CloseRest, Frame.rest, then_more, draftRest_expr, FocusRest, ValueRest, NoArgsRest, then_exprText]
  case h_8 => simp [CloseRest, draftRest_close]
  case h_9 hgroup hprint hargs hcomma htest hyes hno hsite =>
    constructor
    · intro h
      cases frames with
      | nil => exact (hsite (Token.mark.inj (sign_cons.1 h).1) rfl).elim
      | cons f fs =>
        cases f with
        | not | binary => exact h.elim
        | group => exact (hgroup _ (Token.mark.inj (sign_cons.1 h).1) rfl).elim
        | print => exact (hprint _ _ (Token.mark.inj (sign_cons.1 h).1) rfl).elim
        | test => exact (htest _ _ (Token.mark.inj (sign_cons.1 h).1) rfl).elim
        | yes => exact (hyes _ _ _ (Token.mark.inj (sign_cons.1 h).1) rfl).elim
        | no => exact (hno _ _ _ _ (Token.mark.inj (sign_cons.1 h).1) rfl).elim
        | args =>
          rcases then_more.1 h with h | h
          · exact (hargs _ _ _ _ (Token.mark.inj (sign_cons.1 h).1) rfl).elim
          · exact (hcomma _ _ _ _ (Token.mark.inj (sign_cons.1 h).1) rfl).elim
    · rintro ⟨_, h, _⟩
      cases h
  all_goals simp [CloseRest, Frame.rest, then_more, draftRest_expr, FocusRest, NoArgsRest]

theorem operand_rest {frames : List Frame} {site : Site} :
    DraftRest p (.expr .operand frames site) (⟨t, l⟩ :: ts) ↔
      ∃ d, Draft.operand t l frames site = some d ∧ DraftRest p d ts := by
  rw [draftRest_expr, FocusRest, then_unary]
  by_cases hrp : t = .mark .rparen
  · subst hrp
    simp only [Draft.operand]
    split
    · simp [OperandRest, NoArgsRest, draftRest_expr, FocusRest]
    · rename_i hargs
      have hno : NoArgsRest (SiteRest p · site) .operand frames = fun _ => False :=
        NoArgsRest.eq_2 _ _ _ fun l head fs _ hf => hargs l head fs hf
      simp [OperandRest, hno]
  · rw [or_iff_left (hrp ∘ noArgsRest_cons)]
    unfold OperandRest
    split
    case h_12 hnum hid hminus htrue hfalse hnull hnot hlparen hprint hif hnew =>
      have hnone : Draft.operand t l frames site = none := by
        unfold Draft.operand
        split <;> first | rfl | simp_all
      simp [hnone]
    all_goals simp [Draft.operand, draftRest_expr, NoArgsRest, FocusRest, ValueRest, then_exprText, Frame.rest]

theorem afterOperand_rest {e : Expr} {frames : List Frame} {site : Site} :
    ValueRest (SiteRest p · site) frames 4 e (⟨t, l⟩ :: ts) ↔
      ∃ d, Draft.afterOperand t l e frames site = some d ∧ DraftRest p d ts := by
  unfold Draft.afterOperand
  split
  case h_1 m =>
    split
    case h_1 op hm =>
      have h4 : op.level ≤ 4 := by cases op <;> decide
      rw [← Mark.on, valueRest_operator hm, and_iff_right h4]
      simp [draftRest_expr, FocusRest, NoArgsRest]
    case h_2 hm =>
      rw [valueRest_other (by simpa using hm)]
      exact close_rest
  case h_2 hm =>
    rw [valueRest_other (fun m h => (hm m h).elim)]
    constructor
    · intro h
      obtain ⟨m, _, _, hts, _⟩ := closeRest_closer h
      cases hts
      exact (hm m rfl).elim
    · rintro ⟨_, h, _⟩
      cases h

theorem argsRest_iff {line : Nat} {head : Head} {frames : List Frame} {site : Site} :
    ArgsRest (ValueRest (SiteRest p · site) frames 4) line head ts ↔
      DraftRest p (.expr .operand (.args line head [] :: frames) site) ts := by
  simp [ArgsRest, then_listed, draftRest_expr, FocusRest, NoArgsRest, ValueRest, Frame.rest, then_exprText, or_comm]

theorem inExpr_rest {focus : Focus} {frames : List Frame} {site : Site} :
    DraftRest p (.expr focus frames site) (⟨t, l⟩ :: ts) ↔
      ∃ d, Draft.inExpr t l frames site focus = some d ∧ DraftRest p d ts := by
  by_cases hop : focus = .operand
  · subst hop
    exact operand_rest
  rw [draftRest_expr, or_iff_left (not_noArgsRest hop)]
  cases focus with
  | operand => exact (hop rfl).elim
  | value e => exact afterOperand_rest
  | name line x =>
    simp only [FocusRest, Draft.inExpr, afterOperand_rest, sign_cons]
    split
    · simp [Draft.afterOperand, Mark.binOp?, Draft.close, argsRest_iff]
    · simp [Draft.afterOperand, Mark.binOp?, Draft.close, draftRest_expr, FocusRest, NoArgsRest]
    · rename_i hlparen hdot
      exact or_iff_left fun h => h.elim (hlparen ·.1) (hdot ·.1)
  | negative line =>
    simp only [FocusRest, Draft.inExpr, number_cons]
    split
    · simp [draftRest_expr, FocusRest, NoArgsRest]
    · simpa using fun n h => (‹∀ n, t = .num n → False› n h).elim
  | newName line | methodName line o =>
    simp only [FocusRest, Draft.inExpr, named_cons]
    split
    · simp [draftRest_expr, FocusRest, NoArgsRest]
    · simpa using fun x h => (‹∀ x, t = .id x → False› x h).elim
  | argsOpen line head =>
    simp only [FocusRest, Draft.inExpr, sign_cons]
    split
    · simp [argsRest_iff]
    · rename_i h
      simpa using fun ht => (h ht).elim
  | elseWord line test yes =>
    simp only [FocusRest, Draft.inExpr, sign_cons]
    split
    · simp [draftRest_expr, FocusRest, NoArgsRest]
    · rename_i h
      simpa using fun ht => (h ht).elim
  | printOpen line | yesOpen line test | noOpen line test yes =>
    simp only [FocusRest, YesRest, NoRest, Draft.inExpr, sign_cons]
    split
    · simp [draftRest_expr, FocusRest, NoArgsRest, ValueRest, then_exprText, Frame.rest, NoRest]
    · rename_i h
      simpa using fun ht => (h ht).elim

theorem decsRest_iff {k : List Dec → Rest} {ds : List Dec} :
    DecsRest k ds ts ↔ k ds.reverse ts ∨ Then DecText (fun d => DecsRest k (d :: ds)) ts := by
  simp [DecsRest, then_many]

/-- Between the declarations of a program comes `in`, another declaration, or a class if all before it are. -/
theorem mainRest_iff {cs : List Class} {ds : List Dec} :
    MainRest p cs ds ts ↔
      Sign .kwIn (BodyRest (SiteRest p · (.main cs ds))) ts ∨
        Then DecText (fun d => MainRest p cs (d :: ds)) ts ∨
        ds = [] ∧ Then ClassText (fun c => MainRest p (c :: cs) []) ts := by
  cases ds with
  | nil =>
    rw [MainRest, then_many, and_iff_right rfl, ← or_assoc]
    refine or_congr decsRest_iff (then_congr fun c us => ?_)
    simp [MainRest]
  | cons d ds =>
    have hno : ¬ (d :: ds = [] ∧ Then ClassText (fun c => MainRest p (c :: cs) []) ts) := fun h =>
      List.cons_ne_nil _ _ h.1
    rw [or_iff_left hno, MainRest, MainDecsRest, decsRest_iff]
    rfl

theorem bodyRest_iff (site : Site) :
    BodyRest (SiteRest p · site) ts ↔ DraftRest p (.expr .operand [] site) ts := by
  simp [BodyRest, then_exprText, draftRest_expr, FocusRest, NoArgsRest, ValueRest]

theorem then_class {k : Class → Rest} :
    Then ClassText k (⟨t, l⟩ :: ts) ↔ t = .mark .kwClass ∧ Named (fun c => Then SuperText fun super =>
      Sign .lparen (Then (Listed BindingText) fun bs => Sign .rparen (Sign .lbrace
        (Then (Many (RoutineText DecText)) fun ms =>
          Sign .rbrace (k ⟨l, c, super, bs.map Binding.field, ms, none, none⟩))))) ts := by
  constructor
  · rintro ⟨us, vs, c, hts, ⟨hss, hfs, hms⟩, hk⟩
    simp only [Mark.on, List.cons_append, List.append_assoc, List.nil_append, List.cons.injEq,
      LinedToken.mk.injEq] at hts
    obtain ⟨⟨rfl, rfl⟩, rfl⟩ := hts
    exact ⟨rfl, _, _, _, rfl, .intro hss (.intro _ (.intro hfs (.intro _ (.intro _ (.intro hms (.intro _ hk))))))⟩
  · rintro ⟨rfl, lc, c, _, rfl, ss, _, super, rfl, hss, lo, _, rfl, fs, _, bs, rfl, hfs, lp, _, rfl, lb, _, rfl, us, _,
      ms, rfl, hms, le, vs, rfl, hk⟩
    exact ⟨_, vs, _, by simp only [List.cons_append, List.append_assoc]; rfl, .mk hss hfs hms, hk⟩

theorem then_super {k : Option Ident → Rest} :
    Then SuperText k ts ↔ k none ts ∨ Sign .kwExtends (Named fun c => k (some c)) ts := by
  constructor
  · rintro ⟨us, vs, super, rfl, h, hk⟩
    cases h with
    | none => exact .inl hk
    | some l lc c => exact .inr (.intro l ⟨lc, c, vs, rfl, hk⟩)
  · rintro (hk | ⟨l, _, rfl, lc, c, vs, rfl, hk⟩)
    · exact ⟨[], ts, _, rfl, .none, hk⟩
    · exact ⟨_, vs, _, rfl, .some l lc c, hk⟩

/-- A class is its head, its fields and its methods. -/
theorem then_classText {cs : List Class} :
    Then ClassText (fun c => MainRest p (c :: cs) []) (⟨t, l⟩ :: ts) ↔
      t = .mark .kwClass ∧ Named (fun c => ClassHeadRest p ⟨cs, l, c, none⟩) ts := by
  rw [then_class]
  simp [then_super, Named, ClassHeadRest, SuperRest, FieldsRest, MethodsRest, ClassDraft.close]

theorem ownerRest_block {b : Block} {head : RoutineHead} {ls : List Dec} {e : Expr} :
    OwnerRest p (.block b) head ls e = BlockRest p (b.add (head.func ls e)) := by
  cases b <;> rfl

/-- A routine is its name and the rest of it, and then it belongs to its owner. -/
theorem funRest_iff {o : Owner} {k : Method → Rest}
    (h : ∀ head ls e, OwnerRest p o head ls e = k (head.method ls e)) :
    FunRest l k ts ↔ BindRest p (.routine l o) .name ts := by
  simp [FunRest, BindRest, PurposeRest, Purpose.line, EmptyRest, ← h]

theorem then_dec_block (b : Block) :
    Then DecText (fun d => BlockRest p (b.add d)) (⟨t, l⟩ :: ts) ↔
      t = .mark .kwVar ∧ BindRest p (.var l b) .name ts ∨
      t = .mark .kwFun ∧ BindRest p (.routine l (.block b)) .name ts := by
  rw [then_dec, funRest_iff fun _ _ _ => ownerRest_block]
  simp [BindRest, PurposeRest, Purpose.line, EmptyRest]

theorem inBlock_rest {b : Block} :
    BlockRest p b (⟨t, l⟩ :: ts) ↔ ∃ d, Draft.inBlock t l b = some d ∧ DraftRest p d ts := by
  cases b with
  | main cs ds =>
    have hdec : Then DecText (fun d => MainRest p cs (d :: ds)) (⟨t, l⟩ :: ts) ↔ _ := then_dec_block (.main cs ds)
    rw [BlockRest, mainRest_iff, hdec, then_classText, sign_cons, bodyRest_iff]
    unfold Draft.inBlock
    split
    · simp [DraftRest]
    · simp [DraftRest]
    · cases ds <;> simp [DraftRest]
    · simp
    · rename_i hvar hfun hclass hin
      refine iff_of_false ?_ (by simp)
      rintro (⟨h, -⟩ | (⟨h, -⟩ | ⟨h, -⟩) | ⟨-, h, -⟩)
      · exact hin h
      · exact hvar h
      · exact hfun h
      · exact hclass h
  | locals head ds o =>
    have hdec : Then DecText (fun d => LocalsRest (OwnerRest p o head) (d :: ds)) (⟨t, l⟩ :: ts) ↔ _ :=
      then_dec_block (.locals head ds o)
    have hbody : BodyRest (OwnerRest p o head ds.reverse) ts ↔ _ := bodyRest_iff (.body head ds o)
    unfold LocalsRest at hdec
    rw [BlockRest, LocalsRest, decsRest_iff, hdec, sign_cons, hbody]
    unfold Draft.inBlock
    split
    · simp [DraftRest]
    · simp [DraftRest]
    · simp
    · cases ds <;> simp [DraftRest]
    · rename_i hvar hfun hclass hin
      refine iff_of_false ?_ (by simp)
      rintro (⟨-, h, -⟩ | ⟨h, -⟩ | ⟨h, -⟩)
      · exact hin h
      · exact hvar h
      · exact hfun h

theorem inName_rest {q : Purpose} :
    DraftRest p (.bind .name q) (⟨t, l⟩ :: ts) ↔ ∃ d, Draft.inName t l q = some d ∧ DraftRest p d ts := by
  simp only [DraftRest, BindRest, then_binding]
  unfold Draft.inName
  split
  case h_7 hvar hroutine hfield hparam hnofield hnoparam =>
    refine iff_of_false ?_ (by simp)
    rintro (⟨x, h, -⟩ | h)
    · cases q with
      | var => exact hvar _ _ _ h rfl
      | routine => exact hroutine _ _ _ h rfl
      | field => exact hfield _ _ _ h rfl
      | param => exact hparam _ _ _ _ h rfl
    · unfold EmptyRest at h
      split at h
      · exact hnofield _ (sign_cons.1 h).1 rfl
      · exact hnoparam _ _ (sign_cons.1 h).1 rfl
      · exact h
  case h_3 head done | h_4 name done o => cases done <;> simp [Purpose.line, EmptyRest]
  all_goals simp [Purpose.line, EmptyRest]

/-- After the parenthesis that opens a list of typed names. -/
theorem listed_iff {q : Purpose} {k : List Binding → Rest} (hline : ∀ l, q.line l = l)
    (hmore : ∀ b, PurposeRest p b q = Then (More BindingText) fun bs => Sign .rparen (k (b :: bs)))
    (hnone : EmptyRest p q = Sign .rparen (k [])) :
    Then (Listed BindingText) (fun bs => Sign .rparen (k bs)) ts ↔ DraftRest p (.bind .name q) ts := by
  simp [DraftRest, BindRest, then_listed, hline, hmore, hnone, or_comm]

theorem afterBinding_rest {b : Binding} {q : Purpose} :
    PurposeRest p b q (⟨t, l⟩ :: ts) ↔ ∃ d, Draft.afterBinding t b q = some d ∧ DraftRest p d ts := by
  unfold Draft.afterBinding
  split
  case h_7 hvar hroutine hfieldMore hfieldDone hparamMore hparamDone =>
    refine iff_of_false ?_ (by simp)
    intro h
    cases q with
    | var => exact hvar _ _ (sign_cons.1 h).1 rfl
    | routine => exact hroutine _ _ (sign_cons.1 h).1 rfl
    | field =>
      rcases then_more.1 h with h | h
      · exact hfieldDone _ _ (sign_cons.1 h).1 rfl
      · exact hfieldMore _ _ (sign_cons.1 h).1 rfl
    | param =>
      rcases then_more.1 h with h | h
      · exact hparamDone _ _ _ (sign_cons.1 h).1 rfl
      · exact hparamMore _ _ _ (sign_cons.1 h).1 rfl
  · simp [PurposeRest, ← bodyRest_iff, SiteRest]
  · simp only [PurposeRest, sign_cons, true_and, Option.some.injEq, exists_eq_left']
    exact listed_iff (fun _ => rfl) (fun _ => rfl) rfl
  all_goals simp [DraftRest, BindRest, PurposeRest, then_more, Purpose.line, EmptyRest]

theorem superRest_iff {head : ClassHead} :
    SuperRest p head (⟨t, l⟩ :: ts) ↔ t = .mark .lparen ∧ DraftRest p (.bind .name (.field head [])) ts := by
  rw [SuperRest, sign_cons, listed_iff (q := .field head []) (fun _ => rfl) (fun _ => rfl) rfl]

theorem sentence_cons :
    Sentence (⟨t, l⟩ :: ts) p ↔
      t = .mark .kwLet ∧ MainRest p [] [] ts ∨ BodyRest (SiteRest p · .program) (⟨t, l⟩ :: ts) := by
  constructor
  · generalize hts : (⟨t, l⟩ :: ts : List LinedToken) = us
    rintro (⟨hcs, hds, he⟩ | he)
    · simp only [Mark.on, List.cons.injEq, LinedToken.mk.injEq] at hts
      obtain ⟨⟨rfl, rfl⟩, rfl⟩ := hts
      refine .inl ⟨rfl, .intro hcs (.intro hds (.intro _ (.intro he (.intro _ ⟨rfl, ?_⟩))))⟩
      simp
    · exact .inr (.intro he (.intro _ ⟨rfl, rfl⟩))
  · rintro (⟨rfl, us, _, cs, rfl, hcs, vs, _, ds, rfl, hds, li, _, rfl, ws, _, e, rfl, he, le, _, rfl, rfl, rfl⟩
      | ⟨us, _, e, hts, he, le, _, rfl, rfl, rfl⟩)
    · simpa [Mark.on] using Sentence.letIn (l := l) hcs hds he
    · rw [hts]
      exact .expr he

theorem methods_rest {c : ClassDraft} :
    MethodsRest p c (⟨t, l⟩ :: ts) ↔
      t = .mark .rbrace ∧ MainRest p (c.close :: c.head.earlier) [] ts ∨
      t = .mark .kwFun ∧ BindRest p (.routine l (.cls c)) .name ts := by
  rw [MethodsRest, then_many, then_routine, sign_cons]
  refine or_congr Iff.rfl (and_congr_right fun _ => ?_)
  rw [← funRest_iff (k := fun m => MethodsRest p { c with methods := m :: c.methods }) fun _ _ _ => rfl]
  simp [MethodsRest]

theorem routine_rest {head : RoutineHead} {o : Owner} :
    RoutineRest (OwnerRest p o head) (⟨t, l⟩ :: ts) ↔
      BodyRest (SiteRest p · (.body head [] o)) (⟨t, l⟩ :: ts) ∨
        t = .mark .kwLet ∧ BlockRest p (.locals head [] o) ts := by
  rw [RoutineRest, then_locals, sign_cons]
  rfl

/-- **A token may follow exactly if the draft takes it and what comes after it may follow the next draft.** -/
theorem step_rest (d : Draft) :
    DraftRest p d (⟨t, l⟩ :: ts) ↔ ∃ d', d.step t l = some d' ∧ DraftRest p d' ts := by
  cases d with
  | start =>
    refine sentence_cons.trans ?_
    rw [bodyRest_iff]
    simp only [Draft.step]
    split
    · rw [or_iff_left (by simp [operand_rest, Draft.operand])]
      simp [DraftRest, BlockRest]
    · rename_i h
      rw [or_iff_right fun hlet => h hlet.1]
      exact operand_rest
  | expr focus frames site => exact inExpr_rest
  | block b => exact inBlock_rest
  | methods c =>
    refine methods_rest.trans ?_
    simp only [Draft.step]
    split
    · simp [DraftRest]
    · simp [DraftRest, BlockRest]
    · rename_i hfun hrbrace
      exact iff_of_false (fun h => h.elim (fun h => hrbrace h.1) (fun h => hfun h.1)) (by simp)
  | bind focus q =>
    cases focus with
    | name => exact inName_rest
    | colon line x =>
      refine sign_cons.trans ?_
      simp only [Draft.step]
      split
      · simp [BindRest, DraftRest]
      · rename_i h
        simpa using fun ht => (h ht).elim
    | ty line x =>
      refine then_type.trans ?_
      constructor
      · rintro ⟨ty, hty, h⟩
        exact ⟨.bind (.done ⟨line, x, ty⟩) q, by rw [Draft.step, hty]; rfl, h⟩
      · rintro ⟨_, hd, h⟩
        obtain ⟨ty, hty, rfl⟩ := Option.map_eq_some_iff.1 hd
        exact ⟨ty, hty, h⟩
    | done b => exact afterBinding_rest
  | className earlier line =>
    refine named_cons.trans ?_
    simp only [Draft.step]
    split
    · simp [DraftRest]
    · simpa using fun x h => (‹∀ x, t = .id x → False› x h).elim
  | classHead head =>
    refine Iff.trans (or_congr superRest_iff sign_cons) ?_
    simp only [Draft.step]
    split
    · simp [DraftRest]
    · simp
    · rename_i hextends hlparen
      exact iff_of_false (fun h => h.elim (fun h => hlparen h.1) (fun h => hextends h.1)) (by simp)
  | superName head =>
    refine named_cons.trans ?_
    simp only [Draft.step]
    split
    · simp [DraftRest]
    · simpa using fun x h => (‹∀ x, t = .id x → False› x h).elim
  | superDone head =>
    refine superRest_iff.trans ?_
    simp only [Draft.step]
    split
    · simp
    · rename_i h
      simpa using fun ht => (h ht).elim
  | classOpen head fields =>
    refine sign_cons.trans ?_
    simp only [Draft.step]
    split
    · simp [DraftRest]
    · rename_i h
      simpa using fun ht => (h ht).elim
  | routineOpen head o =>
    refine routine_rest.trans ?_
    rw [bodyRest_iff]
    simp only [Draft.step]
    split
    · rw [or_iff_right (by simp [operand_rest, Draft.operand])]
      simp [DraftRest]
    · rename_i h
      rw [or_iff_left fun hlet => h hlet.1]
      exact operand_rest
  | finished q => exact iff_of_false (fun h => List.cons_ne_nil _ _ h.1) (by simp [Draft.step])

theorem not_then_nil {α : Type} {P : List LinedToken → α → Prop} {k : α → Rest} (h : ∀ x, ¬ P [] x) :
    ¬ Then P k [] := fun hk => (then_nil.1 hk).elim fun x hx => h x hx.1

theorem unary_ne_nil (e : Expr) : ¬ UnaryText [] e
  | .atom h => nomatch h

theorem routine_ne_nil (m : Method) : ¬ RoutineText DecText [] m := nofun

theorem dec_ne_nil (d : Dec) : ¬ DecText [] d
  | .func h => routine_ne_nil _ h

theorem class_ne_nil (c : Class) : ¬ ClassText [] c := nofun

theorem binding_ne_nil (b : Binding) : ¬ BindingText [] b := nofun

theorem type_ne_nil (ty : Ty) : ¬ TypeText [] ty := nofun

theorem purposeRest_nil {b : Binding} (q : Purpose) : ¬ PurposeRest p b q [] := by
  cases q with
  | var | routine => exact sign_nil
  | field | param => exact fun h => (then_more.1 h).elim sign_nil sign_nil

/-- **Nothing may follow exactly if the draft is a whole program.** -/
theorem draftRest_nil (d : Draft) : DraftRest p d [] ↔ d = .finished p := by
  cases d with
  | finished q => simp [DraftRest, eq_comm]
  | start =>
    refine iff_of_false (fun h => ?_) (by simp)
    generalize hts : ([] : List LinedToken) = ts at h
    rcases h with h | h <;> simp at hts
  | expr focus frames site =>
    refine iff_of_false (fun h => ?_) (by simp)
    rcases h with h | h
    · cases focus with
      | operand => exact not_then_nil unary_ne_nil h
      | value e => exact valueRest_nil _ _ _ h
      | name => exact h.elim (valueRest_nil _ _ _) (Or.rec sign_nil sign_nil)
      | negative => exact number_nil h
      | newName | methodName => exact named_nil h
      | _ => exact sign_nil h
    · unfold NoArgsRest at h
      split at h
      · exact sign_nil h
      · exact h
  | block b =>
    refine iff_of_false (fun h => ?_) (by simp)
    cases b with
    | main =>
      exact (mainRest_iff.1 h).elim sign_nil (Or.rec (not_then_nil dec_ne_nil) fun h => not_then_nil class_ne_nil h.2)
    | locals =>
      rw [DraftRest, BlockRest, LocalsRest, decsRest_iff] at h
      exact h.elim (fun h => sign_nil h.2) (not_then_nil dec_ne_nil)
  | methods => exact iff_of_false (fun h => (then_many.1 h).elim sign_nil (not_then_nil routine_ne_nil)) (by simp)
  | bind focus q =>
    refine iff_of_false (fun h => ?_) (by simp)
    cases focus with
    | name =>
      rcases h with h | h
      · exact not_then_nil binding_ne_nil h
      · unfold EmptyRest at h
        split at h
        · exact sign_nil h
        · exact sign_nil h
        · exact h
    | colon => exact sign_nil h
    | ty => exact not_then_nil type_ne_nil h
    | done => exact purposeRest_nil q h
  | className | superName => exact iff_of_false named_nil (by simp)
  | classHead => exact iff_of_false (Or.rec sign_nil sign_nil) (by simp)
  | superDone | classOpen => exact iff_of_false sign_nil (by simp)
  | routineOpen =>
    refine iff_of_false (fun h => ?_) (by simp)
    rw [DraftRest, RoutineRest, then_locals, BodyRest, then_exprText] at h
    exact h.elim (not_then_nil unary_ne_nil) sign_nil

/-- **What follows a draft makes it one program.** -/
theorem draftRest_unique {q : Program} : ∀ {ts : List LinedToken} {d : Draft}, DraftRest p d ts → DraftRest q d ts →
    p = q
  | [], d, hp, hq => Draft.finished.inj (((draftRest_nil d).1 hp).symm.trans ((draftRest_nil d).1 hq))
  | ⟨t, l⟩ :: ts, d, hp, hq => by
    obtain ⟨d₁, h₁, hp⟩ := (step_rest d).1 hp
    obtain ⟨d₂, h₂, hq⟩ := (step_rest d).1 hq
    obtain rfl : d₁ = d₂ := Option.some.inj (h₁.symm.trans h₂)
    exact draftRest_unique hp hq

/-- **A sentence has one tree.** -/
theorem sentence_unique {q : Program} (hp : Sentence ts p) (hq : Sentence ts q) : p = q :=
  draftRest_unique (d := .start) hp hq

end Drafts

/-! ## Sources -/

/-- The tokens of a source with their lines. -/
def linedTokens (source : List Char) : List LinedToken :=
  (Token.scan source).filterMap fun l =>
    match l.kind with
    | .token t => some ⟨t, (Position.locate source l.start).line⟩
    | _ => none

/-- What is introduced by `let` is not nothing. -/
def Program.Declares : Program → Prop
  | .letIn cs ds _ => cs ≠ [] ∨ ds ≠ []
  | .expr _ => True

theorem read_iff {breaks : List Nat} {length : Nat} {p : Program} : ∀ {ss : List Spot} {last : Nat} {d : Draft},
    Draft.read breaks length last ss d = .ok p ↔
      DraftRest p d (ss.map fun s => ⟨s.token, (Position.ofOffset breaks s.start).line⟩)
  | [], _, d => by
    rw [List.map_nil, draftRest_nil]
    cases d <;> simp [Draft.read]
  | s :: ss, _, d => by
    rw [List.map_cons, step_rest, Draft.read]
    split
    · rename_i next hn
      simp [hn, read_iff]
    · rename_i hn
      simp [hn]

theorem bite_ne_eof (c : Char) (cs : List Char) : (Token.bite c cs).kind ≠ some .eof := by
  unfold Token.bite
  split
  · simp
  · simp
  · unfold Token.biteToken Token.ofDigits
    grind

theorem scan_ne_eof (fuel pos : Nat) (cs : List Char) : ∀ l ∈ Token.scanFrom fuel pos cs, l.kind ≠ .eof := by
  induction fuel generalizing pos cs with
  | zero => nofun
  | succ fuel ih =>
    cases cs with
    | nil => nofun
    | cons c cs =>
      intro l hl
      have hne := bite_ne_eof c cs
      rw [Token.scanFrom] at hl
      split at hl
      · exact ih _ _ l hl
      · rename_i k hk
        rcases List.mem_cons.1 hl with rfl | hl
        · intro hk'
          exact hne (hk.trans (congrArg some hk'))
        · exact ih _ _ l hl

/-- Tokens without anything else between them are all kept, each with its line. -/
theorem spots_lined (source : List Char) : ∀ {ls : List Lexeme}, (∀ l ∈ ls, l.kind ≠ .invalid) →
    (∀ l ∈ ls, l.kind ≠ .eof) → ∃ ss, spots ls = .ok ss ∧
      ss.map (fun s => (⟨s.token, (Position.locate source s.start).line⟩ : LinedToken)) = ls.filterMap fun l =>
        match l.kind with
        | .token t => some ⟨t, (Position.locate source l.start).line⟩
        | _ => none
  | [], _, _ => ⟨[], rfl, rfl⟩
  | l :: ls, hinv, heof => by
    obtain ⟨ss, hss, hmap⟩ := spots_lined source (fun l hl => hinv l (.tail _ hl)) (fun l hl => heof l (.tail _ hl))
    have h1 := hinv l (.head _)
    have h2 := heof l (.head _)
    obtain ⟨k, text, start, stop⟩ := l
    cases k with
    | token t => exact ⟨⟨t, start, stop⟩ :: ss, by simp [spots, hss, Except.map], by simp [hmap]⟩
    | invalid => exact (h1 rfl).elim
    | eof => exact (h2 rfl).elim

/-- The program that is read is the answer unless its `let` introduces nothing. -/
theorem parse_of_read {source : List Char} {ss : List Spot} {q : Program} (hss : spots (Token.scan source) = .ok ss)
    (hread : Draft.read (lineBreaks 0 source) (Text.byteLength source) 0 ss .start = .ok q) (p : Program) :
    parse source = .ok p ↔ p = q ∧ p.Declares := by
  unfold parse
  rw [hss]
  change (Draft.read (lineBreaks 0 source) (Text.byteLength source) 0 ss .start >>= _) = _ ↔ _
  rw [hread]
  dsimp only [bind, Except.bind]
  split
  · refine iff_of_false nofun ?_
    rintro ⟨rfl, h⟩
    simp [Program.Declares] at h
  · rename_i hne
    have hq : q.Declares := by
      cases q with
      | expr e => trivial
      | letIn cs ds e =>
        cases cs with
        | cons c cs => exact .inl (List.cons_ne_nil c cs)
        | nil =>
          cases ds with
          | cons d ds => exact .inr (List.cons_ne_nil d ds)
          | nil => exact (hne e rfl).elim
    constructor
    · intro h
      cases h
      exact ⟨rfl, hq⟩
    · rintro ⟨rfl, -⟩
      rfl

theorem parse_of_read_error {source : List Char} {ss : List Spot} {err : ParseError}
    (hss : spots (Token.scan source) = .ok ss)
    (hread : Draft.read (lineBreaks 0 source) (Text.byteLength source) 0 ss .start = .error err) :
    parse source = .error err := by
  unfold parse
  rw [hss]
  change (Draft.read (lineBreaks 0 source) (Text.byteLength source) 0 ss .start >>= _) = _
  rw [hread]
  rfl

/-- An accepted source has a sentence, of the tokens that are kept of it. -/
theorem exists_spots {source : List Char} {p : Program} (h : parse source = .ok p) :
    ∃ ss ts, spots (Token.scan source) = .ok ss ∧ ts.length = ss.length ∧ Sentence ts p := by
  cases hss : spots (Token.scan source) with
  | error e =>
    unfold parse at h
    rw [hss] at h
    cases h
  | ok ss =>
    cases hr : Draft.read (lineBreaks 0 source) (Text.byteLength source) 0 ss .start with
    | error e => cases (parse_of_read_error hss hr).symm.trans h
    | ok q =>
      obtain ⟨rfl, -⟩ := (parse_of_read hss hr p).1 h
      exact ⟨ss, _, rfl, List.length_map _, read_iff.1 hr⟩

theorem exists_sentence {source : List Char} {p : Program} (h : parse source = .ok p) : ∃ ts, Sentence ts p :=
  let ⟨_, ts, _, _, hts⟩ := exists_spots h
  ⟨ts, hts⟩

/-- **A source of tokens only is accepted exactly if its tokens are a sentence whose `let` introduces something, and a
sentence has one tree.** -/
theorem parse_iff_sentence {source : List Char} (h : ∀ l ∈ Token.scan source, l.kind ≠ .invalid) :
    (∀ p, parse source = .ok p ↔ Sentence (linedTokens source) p ∧ p.Declares) ∧
      ∀ p q, Sentence (linedTokens source) p → Sentence (linedTokens source) q → p = q := by
  obtain ⟨ss, hss, hmap⟩ := spots_lined source h (scan_ne_eof _ _ _)
  have hread : ∀ p, Draft.read (lineBreaks 0 source) (Text.byteLength source) 0 ss .start = .ok p ↔
      Sentence (linedTokens source) p := by
    intro p
    rw [read_iff]
    exact iff_of_eq (congrArg (Sentence · p) hmap)
  refine ⟨fun p => ?_, fun p q => sentence_unique⟩
  cases hr : Draft.read (lineBreaks 0 source) (Text.byteLength source) 0 ss .start with
  | error err =>
    rw [parse_of_read_error hss hr]
    refine iff_of_false nofun fun hp => ?_
    have := hr.symm.trans ((hread p).2 hp.1)
    cases this
  | ok q =>
    rw [parse_of_read hss hr]
    have hq := (hread q).1 hr
    constructor
    · rintro ⟨rfl, hd⟩
      exact ⟨hq, hd⟩
    · rintro ⟨hp, hd⟩
      exact ⟨sentence_unique hp hq, hd⟩

/-- A source on three lines with an operator of each layer, a negative literal and parentheses. -/
def chainSource : List Char := "let var x:int:=-2; in\nx-1-(2)*3 <= 4 &&\n!true;".toList

def chainTree : Program :=
  .letIn [] [.var 1 ⟨"x".toList⟩ .int (.int 1 (-2))]
    (.binary 2 .and
      (.binary 2 .lessEqual
        (.binary 2 .minus (.binary 2 .minus (.id 2 (.fresh ⟨"x".toList⟩)) (.int 2 1))
          (.binary 2 .times (.int 2 2) (.int 2 3)))
        (.int 2 4))
      (.not 3 (.bool 3 true)))

theorem chainSource_parses : (∀ l ∈ Token.scan chainSource, l.kind ≠ .invalid) ∧ parse chainSource = .ok chainTree ∧
    Sentence (linedTokens chainSource) chainTree ∧
    ∀ q, Sentence (linedTokens chainSource) q → q = chainTree := by
  have htokens : ∀ l ∈ Token.scan chainSource, l.kind ≠ .invalid := by decide +kernel
  obtain ⟨hparse, hone⟩ := parse_iff_sentence htokens
  have hsentence := ((hparse chainTree).1 rfl).1
  exact ⟨htokens, rfl, hsentence, fun q hq => hone q chainTree hq hsentence⟩

end FoolLang
