import FoolLang.Proofs.Redrafts
import FoolLang.Proofs.Sentences
/-!
# Viable — the beginnings of sentences

A list of tokens is viable if a sentence begins with it.  Any draft can be completed, so the viable lists are those
that a draft takes token after token (`viable_iff`), and whether a draft takes a token depends on its kind only.
-/
namespace FoolLang

/-! ## Many tokens -/

/-- The draft after tokens. -/
def Draft.advance (d : Draft) (ts : List LinedToken) : Option Draft := ts.foldlM (fun d t => d.step t.token t.line) d

namespace Draft

variable {p : Program} {ts us : List LinedToken}

@[simp] theorem advance_nil (d : Draft) : d.advance [] = some d := rfl

@[simp] theorem advance_cons (d : Draft) (t : LinedToken) (ts : List LinedToken) :
    d.advance (t :: ts) = (d.step t.token t.line).bind (advance · ts) := List.foldlM_cons

theorem advance_append (d : Draft) (us ts : List LinedToken) :
    d.advance (us ++ ts) = (d.advance us).bind (advance · ts) := List.foldlM_append

/-- Tokens may follow exactly if the draft takes the first of them and the rest may follow what it is then. -/
theorem rest_append : ∀ (us : List LinedToken) {d : Draft}, DraftRest p d (us ++ ts) ↔
    ∃ d', d.advance us = some d' ∧ DraftRest p d' ts
  | [], d => by simp
  | u :: us, d => by
    rw [List.cons_append, step_rest, advance_cons]
    cases d.step u.token u.line with
    | none => simp
    | some d' => simp [rest_append us]

theorem rest_iff_advance {d : Draft} : DraftRest p d ts ↔ d.advance ts = some (.finished p) := by
  have h : DraftRest p d (ts ++ []) ↔ _ := rest_append ts
  rw [List.append_nil] at h
  rw [h]
  simp [draftRest_nil]

end Draft

def LinedToken.relabel (r : Relabel) (t : LinedToken) : LinedToken := ⟨t.token.relabel r, r.line t.line⟩

theorem Draft.advance_relabel (r : Relabel) : ∀ (ts : List LinedToken) (d : Draft),
    (d.relabel r).advance (ts.map (LinedToken.relabel r)) = (d.advance ts).map (Draft.relabel r)
  | [], _ => rfl
  | t :: ts, d => by
    rw [List.map_cons, advance_cons, advance_cons]
    show ((d.relabel r).step (t.token.relabel r) (r.line t.line)).bind _ = _
    rw [step_relabel]
    cases d.step t.token t.line with
    | none => rfl
    | some d' => exact advance_relabel r ts d'

/-- Every line the same, every name its own. -/
def Relabel.oneLine : Relabel := ⟨fun _ => 0, id⟩

theorem relabel_oneLine (t : LinedToken) : t.relabel .oneLine = ⟨t.token, 0⟩ := by
  obtain ⟨t, l⟩ := t
  cases t <;> rfl

theorem map_relabel_oneLine {us vs : List LinedToken} (h : us.map LinedToken.token = vs.map LinedToken.token) :
    us.map (LinedToken.relabel .oneLine) = vs.map (LinedToken.relabel .oneLine) := by
  have hmap : ∀ ts : List LinedToken,
      ts.map (LinedToken.relabel .oneLine) = (ts.map LinedToken.token).map (⟨·, 0⟩) := fun ts => by
    rw [List.map_map]
    exact List.map_congr_left fun t _ => relabel_oneLine t
  rw [hmap, hmap, h]

/-- The lines that tokens stand on do not decide how they are read. -/
theorem Draft.advance_congr {us vs : List LinedToken} (h : us.map LinedToken.token = vs.map LinedToken.token)
    (d : Draft) : (d.advance us).map (Draft.relabel .oneLine) = (d.advance vs).map (Draft.relabel .oneLine) := by
  rw [← advance_relabel, ← advance_relabel, map_relabel_oneLine h]

theorem Draft.advance_isSome_congr {us vs : List LinedToken} (h : us.map LinedToken.token = vs.map LinedToken.token)
    (d : Draft) : (d.advance us).isSome = (d.advance vs).isSome := by
  rw [← Option.isSome_map, advance_congr h, Option.isSome_map]

/-! ## Every draft can be completed -/

/-- Some program can still be made. -/
def Completable (R : Program → Rest) : Prop := ∃ p ts, R p ts

namespace Completable

variable {α : Type} {P : List LinedToken → α → Prop} {us : List LinedToken} {x : α}

theorem sign {m : Mark} {k : Program → Rest} (h : Completable k) : Completable fun p => Sign m (k p) := by
  obtain ⟨p, ts, hk⟩ := h
  exact ⟨p, _, .intro 0 hk⟩

theorem named {k : Program → Ident → Rest} (x : Ident) (h : Completable (k · x)) :
    Completable fun p => Named (k p) := by
  obtain ⟨p, ts, hk⟩ := h
  exact ⟨p, _, 0, x, ts, rfl, hk⟩

theorem bind {k : Program → α → Rest} (hx : P us x) (h : Completable (k · x)) : Completable fun p => Then P (k p) := by
  obtain ⟨p, ts, hk⟩ := h
  exact ⟨p, _, .intro hx hk⟩

end Completable

theorem yesText : AtomText [Mark.on .kwTrue 0] (.bool 0 true) := .yes 0

theorem yesExpr : ExprText [Mark.on .kwTrue 0] (.bool 0 true) :=
  (Layered.unary (.atom yesText)).looser (Nat.zero_le 4)

theorem nameBinding (x : Ident) :
    BindingText [⟨.id x, 0⟩, Mark.on .colon 0, Mark.on .kwInt 0] ⟨0, x, .int⟩ := .mk (.int 0)

theorem Completable.body {k : Program → Expr → Rest} (h : Completable (k · (.bool 0 true))) :
    Completable fun p => BodyRest (k p) := .bind yesExpr h.sign

theorem mainRest_completable (cs : List Class) (ds : List Dec) : Completable (MainRest · cs ds) := by
  obtain ⟨p, ts, h⟩ : Completable fun p => Sign .kwIn (BodyRest (SiteRest p · (.main cs ds))) :=
    .sign (.body ⟨_, [], rfl, rfl⟩)
  exact ⟨p, ts, mainRest_iff.2 (.inl h)⟩

theorem methodsRest_completable (c : ClassDraft) : Completable (MethodsRest · c) :=
  .bind Many.nil (.sign (mainRest_completable _ _))

theorem localsRest_completable {k : Program → List Dec → Expr → Rest} {ds : List Dec} (hne : ds ≠ [])
    (h : Completable (k · ds.reverse (.bool 0 true))) : Completable fun p => LocalsRest (k p) ds := by
  obtain ⟨p, ts, hrest⟩ : Completable fun p => Sign .kwIn (BodyRest (k p ds.reverse)) := .sign (.body h)
  exact ⟨p, ts, decsRest_iff.2 (.inl ⟨by simpa using hne, hrest⟩)⟩

theorem ownerRest_completable : ∀ (o : Owner) (head : RoutineHead) (ls : List Dec) (e : Expr),
    Completable (OwnerRest · o head ls e)
  | .block (.main _ _), _, _, _ => mainRest_completable _ _
  | .block (.locals outer _ o), _, _, _ =>
    localsRest_completable (List.cons_ne_nil _ _) (ownerRest_completable o outer _ _)
  | .cls _, _, _, _ => methodsRest_completable _

/-- A declaration that may stand anywhere. -/
theorem someDec : ∃ ts d, DecText ts d := ⟨_, _, @DecText.var 0 0 0 _ _ _ _ (nameBinding ⟨[]⟩) yesExpr⟩

theorem blockRest_completable : ∀ b : Block, Completable (BlockRest · b)
  | .main cs ds => mainRest_completable cs ds
  | .locals head (d :: ds) o => localsRest_completable (List.cons_ne_nil d ds) (ownerRest_completable o head _ _)
  | .locals head [] o => by
    obtain ⟨us, d, hd⟩ := someDec
    obtain ⟨p, ts, h⟩ : Completable fun p => Then DecText fun d => LocalsRest (OwnerRest p o head) [d] :=
      .bind hd (localsRest_completable (List.cons_ne_nil d []) (ownerRest_completable o head _ _))
    exact ⟨p, ts, decsRest_iff.2 (.inr h)⟩

theorem siteRest_completable (e : Expr) : ∀ s : Site, Completable (SiteRest · e s)
  | .program => ⟨_, [], rfl, rfl⟩
  | .main _ _ => ⟨_, [], rfl, rfl⟩
  | .var b blk => blockRest_completable (blk.add (.var b.line b.id b.ty e))
  | .body head ls o => ownerRest_completable o head ls.reverse e

section Expressions

variable {S : Program → Expr → Rest} (hS : ∀ e, Completable (S · e))

include hS

theorem noRest_completable (l : Nat) (t y : Expr) : Completable fun p => NoRest (S p) l t y :=
  .sign (.bind yesExpr (.sign (hS _)))

theorem valueRest_completable : ∀ (fs : List Frame) (n : Nat) (e : Expr), Completable fun p => ValueRest (S p) fs n e
  | [], _, _ => .bind .nil (.sign (hS _))
  | .not l :: fs, n, e => valueRest_completable fs n (.not l e)
  | .binary l op a :: fs, n, e => .bind .nil (valueRest_completable fs (min n op.level) (.binary l op a e))
  | .group :: fs, _, e => .bind .nil (.sign (valueRest_completable fs 4 e))
  | .print l :: fs, _, e => .bind .nil (.sign (valueRest_completable fs 4 (.print l e)))
  | .test l :: fs, _, e => .bind .nil (.sign (.sign (.bind yesExpr (.sign (.sign
      (noRest_completable (valueRest_completable fs 4) l e _))))))
  | .yes l t :: fs, _, e => .bind .nil (.sign (.sign (noRest_completable (valueRest_completable fs 4) l t e)))
  | .no l t y :: fs, _, e => .bind .nil (.sign (valueRest_completable fs 4 (.cond l t y e)))
  | .args _ _ _ :: fs, _, _ =>
    .bind .nil (.bind .nil (.sign (valueRest_completable fs 4 _)))

theorem argsRest_completable (l : Nat) (head : Head) : Completable fun p => ArgsRest (S p) l head :=
  .bind .nil (.sign (hS _))

theorem focusRest_completable : ∀ focus : Focus, Completable fun p => FocusRest (S p) focus
  | .operand => .bind (.atom yesText) (hS _)
  | .value e => hS e
  | .name l x => by
    obtain ⟨p, ts, h⟩ := hS (.id l (.fresh x))
    exact ⟨p, ts, .inl h⟩
  | .negative l => by
    obtain ⟨p, ts, h⟩ := hS (.int l (-Int32.ofNat 0))
    exact ⟨p, _, 0, 0, ts, rfl, h⟩
  | .printOpen l => .sign (.bind yesExpr (.sign (hS _)))
  | .argsOpen l head => .sign (argsRest_completable hS l head)
  | .newName l => .named ⟨[]⟩ (.sign (argsRest_completable hS l (.new ⟨[]⟩)))
  | .methodName l o => .named ⟨[]⟩ (.sign (argsRest_completable hS l (.send o ⟨[]⟩)))
  | .yesOpen l t => .sign (.bind yesExpr (.sign (.sign (noRest_completable hS l t _))))
  | .elseWord l t y => .sign (noRest_completable hS l t y)
  | .noOpen l t y => noRest_completable hS l t y

end Expressions

theorem routineRest_completable (o : Owner) (head : RoutineHead) :
    Completable fun p => RoutineRest (OwnerRest p o head) :=
  .bind .none (.body (ownerRest_completable o head _ _))

theorem fieldsRest_completable (head : ClassHead) (fields : List Binding) :
    Completable (FieldsRest · head fields) := .sign (methodsRest_completable _)

theorem superRest_completable (head : ClassHead) : Completable (SuperRest · head) :=
  .sign (.bind .nil (.sign (fieldsRest_completable head [])))

theorem classHeadRest_completable (head : ClassHead) : Completable (ClassHeadRest · head) := by
  obtain ⟨p, ts, h⟩ := superRest_completable head
  exact ⟨p, ts, .inl h⟩

theorem purposeRest_completable (b : Binding) : ∀ q : Purpose, Completable (PurposeRest · b q)
  | .var _ _ => .sign (.body (blockRest_completable _))
  | .routine _ o => .sign (.bind .nil (.sign (routineRest_completable o ⟨b, []⟩)))
  | .field head _ => .bind .nil (.sign (fieldsRest_completable head _))
  | .param name _ o => .bind .nil (.sign (routineRest_completable o ⟨name, _⟩))

theorem bindRest_completable (q : Purpose) : ∀ focus : BindFocus, Completable (BindRest · q focus)
  | .name => by
    obtain ⟨p, ts, h⟩ : Completable fun p => Then BindingText fun b => PurposeRest p ⟨q.line b.line, b.id, b.ty⟩ q :=
      .bind (nameBinding ⟨[]⟩) (purposeRest_completable _ q)
    exact ⟨p, ts, .inl h⟩
  | .colon l x => .sign (.bind (.int 0) (purposeRest_completable _ q))
  | .ty l x => .bind (.int 0) (purposeRest_completable _ q)
  | .done b => purposeRest_completable b q

/-- **Every draft can be completed.** -/
theorem draft_completable : ∀ d : Draft, Completable (DraftRest · d)
  | .start => ⟨_, _, @Sentence.expr 0 _ _ yesExpr⟩
  | .expr focus frames site => by
    obtain ⟨p, ts, h⟩ := focusRest_completable (valueRest_completable (siteRest_completable · site) frames 4) focus
    exact ⟨p, ts, .inl h⟩
  | .block b => blockRest_completable b
  | .methods c => methodsRest_completable c
  | .bind focus q => bindRest_completable q focus
  | .className earlier l => .named ⟨[]⟩ (classHeadRest_completable _)
  | .classHead head => classHeadRest_completable head
  | .superName head => .named ⟨[]⟩ (superRest_completable _)
  | .superDone head => superRest_completable head
  | .classOpen head fields => fieldsRest_completable head fields
  | .routineOpen head o => routineRest_completable o head
  | .finished q => ⟨q, [], rfl, rfl⟩

/-! ## Beginnings of sentences -/

/-- Whether a sentence begins with these tokens. -/
def Viable (ts : List Token) : Prop := ∃ us p, Sentence us p ∧ ts <+: us.map LinedToken.token

/-- **The viable lists are those that are taken token after token.** -/
theorem viable_iff {us : List LinedToken} :
    Viable (us.map LinedToken.token) ↔ ∃ d, Draft.start.advance us = some d := by
  rw [← Option.isSome_iff_exists]
  constructor
  · rintro ⟨vs, p, hsentence, hprefix⟩
    obtain ⟨vs₁, vs₂, rfl, hmap⟩ : ∃ vs₁ vs₂, vs = vs₁ ++ vs₂ ∧ us.map LinedToken.token = vs₁.map LinedToken.token := by
      obtain ⟨rest, hrest⟩ := hprefix
      obtain ⟨vs₁, vs₂, rfl, h₁, -⟩ := List.map_eq_append_iff.1 hrest.symm
      exact ⟨vs₁, vs₂, rfl, h₁.symm⟩
    obtain ⟨d, hd, -⟩ := (Draft.rest_append vs₁ (d := .start)).1 hsentence
    rw [Draft.advance_isSome_congr hmap .start, hd]
    rfl
  · intro h
    obtain ⟨d, hd⟩ := Option.isSome_iff_exists.1 h
    obtain ⟨p, ts, hrest⟩ := draft_completable d
    refine ⟨us ++ ts, p, (Draft.rest_append us (d := .start)).2 ⟨d, hd, hrest⟩, ?_⟩
    rw [List.map_append]
    exact List.prefix_append _ _

/-- A viable list with one more token is viable exactly if the draft after it takes the token. -/
theorem viable_snoc_iff {us : List LinedToken} {d : Draft} (hd : Draft.start.advance us = some d) (t : Token)
    (l : Nat) : Viable (us.map LinedToken.token ++ [t]) ↔ (d.step t l).isSome := by
  have hmap : us.map LinedToken.token ++ [t] = (us ++ [(⟨t, l⟩ : LinedToken)]).map LinedToken.token := by simp
  rw [hmap, viable_iff, Draft.advance_append, hd, Option.isSome_iff_exists]
  simp

end FoolLang
