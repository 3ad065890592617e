import FoolLang.Proofs.Drafts
import FoolLang.Proofs.Relabel
/-!
# Redrafts — reading commutes with other names and other lines

A draft takes a token whatever name it is and on whatever line it stands, and what it makes of it differs in that name
and that line only (`Draft.step_relabel`).
-/
namespace FoolLang

variable (r : Relabel)

def Token.relabel : Token → Token
  | .id x => .id (r.name x)
  | t => t

/-! ## Drafts -/

def Binding.relabel (b : Binding) : Binding := ⟨r.line b.line, r.name b.id, b.ty.relabel r⟩

def RoutineHead.relabel (h : RoutineHead) : RoutineHead := ⟨h.name.relabel r, h.params.map (Binding.relabel r)⟩

def ClassHead.relabel (h : ClassHead) : ClassHead :=
  ⟨h.earlier.map (Class.relabel r), r.line h.line, r.name h.id, h.super.map r.name⟩

def ClassDraft.relabel (c : ClassDraft) : ClassDraft :=
  ⟨c.head.relabel r, c.fields.map (Binding.relabel r), c.methods.map (Method.relabel r)⟩

mutual

def Block.relabel : Block → Block
  | .main cs ds => .main (cs.map (Class.relabel r)) (ds.map (Dec.relabel r))
  | .locals head ds o => .locals (head.relabel r) (ds.map (Dec.relabel r)) o.relabel

def Owner.relabel : Owner → Owner
  | .block b => .block b.relabel
  | .cls c => .cls (c.relabel r)

end

def Purpose.relabel : Purpose → Purpose
  | .var l b => .var (r.line l) (b.relabel r)
  | .routine l o => .routine (r.line l) (o.relabel r)
  | .field head done => .field (head.relabel r) (done.map (Binding.relabel r))
  | .param name done o => .param (name.relabel r) (done.map (Binding.relabel r)) (o.relabel r)

def Site.relabel : Site → Site
  | .program => .program
  | .main cs ds => .main (cs.map (Class.relabel r)) (ds.map (Dec.relabel r))
  | .var b blk => .var (b.relabel r) (blk.relabel r)
  | .body head ls o => .body (head.relabel r) (ls.map (Dec.relabel r)) (o.relabel r)

def Head.relabel : Head → Head
  | .call f => .call (r.name f)
  | .send o m => .send (r.name o) (r.name m)
  | .new c => .new (r.name c)

def Frame.relabel : Frame → Frame
  | .binary l op a => .binary (r.line l) op (a.relabel r)
  | .not l => .not (r.line l)
  | .group => .group
  | .print l => .print (r.line l)
  | .test l => .test (r.line l)
  | .yes l t => .yes (r.line l) (t.relabel r)
  | .no l t y => .no (r.line l) (t.relabel r) (y.relabel r)
  | .args l head done => .args (r.line l) (head.relabel r) (done.map (Expr.relabel r))

def Focus.relabel : Focus → Focus
  | .operand => .operand
  | .value e => .value (e.relabel r)
  | .name l x => .name (r.line l) (r.name x)
  | .negative l => .negative (r.line l)
  | .printOpen l => .printOpen (r.line l)
  | .argsOpen l head => .argsOpen (r.line l) (head.relabel r)
  | .newName l => .newName (r.line l)
  | .methodName l o => .methodName (r.line l) (r.name o)
  | .yesOpen l t => .yesOpen (r.line l) (t.relabel r)
  | .elseWord l t y => .elseWord (r.line l) (t.relabel r) (y.relabel r)
  | .noOpen l t y => .noOpen (r.line l) (t.relabel r) (y.relabel r)

def BindFocus.relabel : BindFocus → BindFocus
  | .name => .name
  | .colon l x => .colon (r.line l) (r.name x)
  | .ty l x => .ty (r.line l) (r.name x)
  | .done b => .done (b.relabel r)

def Draft.relabel : Draft → Draft
  | .start => .start
  | .expr focus frames site => .expr (focus.relabel r) (frames.map (Frame.relabel r)) (site.relabel r)
  | .block b => .block (b.relabel r)
  | .methods c => .methods (c.relabel r)
  | .bind focus q => .bind (focus.relabel r) (q.relabel r)
  | .className earlier l => .className (earlier.map (Class.relabel r)) (r.line l)
  | .classHead head => .classHead (head.relabel r)
  | .superName head => .superName (head.relabel r)
  | .superDone head => .superDone (head.relabel r)
  | .classOpen head fields => .classOpen (head.relabel r) (fields.map (Binding.relabel r))
  | .routineOpen head o => .routineOpen (head.relabel r) (o.relabel r)
  | .finished p => .finished (p.relabel r)

/-! ## Completed constructs -/

section Completed

variable {r}

theorem map_param_relabel (bs : List Binding) : (bs.map (Binding.relabel r)).map Binding.param =
    (bs.map Binding.param).map (Param.relabel r) := by
  rw [List.map_map, List.map_map]
  rfl

theorem ClassDraft.close_relabel (c : ClassDraft) : (c.relabel r).close = c.close.relabel r := by
  simp [ClassDraft.close, ClassDraft.relabel, ClassHead.relabel, Class.relabel, List.map_reverse, Binding.field,
    Binding.relabel, Field.relabel, Function.comp_def]

theorem Block.add_relabel (d : Dec) (b : Block) : (b.relabel r).add (d.relabel r) = (b.add d).relabel r := by
  cases b <;> simp [Block.add, Block.relabel]

theorem Owner.add_relabel (head : RoutineHead) (ls : List Dec) (e : Expr) (o : Owner) :
    (o.relabel r).add (head.relabel r) (ls.map (Dec.relabel r)) (e.relabel r) = (o.add head ls e).relabel r := by
  cases o with
  | block b =>
    simp only [Owner.relabel, Owner.add, Draft.relabel, ← Block.add_relabel, Dec.relabel, relabelLocals_eq]
    simp only [RoutineHead.relabel, map_param_relabel]
    rfl
  | cls c =>
    simp only [Owner.relabel, Owner.add, Draft.relabel, ClassDraft.relabel, List.map_cons, Method.relabel]
    simp only [RoutineHead.relabel, map_param_relabel]
    rfl

theorem Head.apply_relabel (l : Nat) (es : List Expr) (head : Head) :
    (head.relabel r).apply (r.line l) (es.map (Expr.relabel r)) = (head.apply l es).relabel r := by
  cases head <;> simp [Head.relabel, Head.apply, Expr.relabel, Use.fresh, Use.relabel]

theorem Site.close_relabel (e : Expr) (s : Site) : (s.relabel r).close (e.relabel r) = (s.close e).relabel r := by
  cases s with
  | program => rfl
  | main cs ds => simp [Site.relabel, Site.close, Draft.relabel, Program.relabel]
  | var b blk => simp [Site.relabel, Site.close, Draft.relabel, ← Block.add_relabel, Dec.relabel, Binding.relabel]
  | body head ls o => simp [Site.relabel, Site.close, ← Owner.add_relabel]

theorem settle_relabel (level : Nat) (e : Expr) (fs : List Frame) :
    settle level (e.relabel r) (fs.map (Frame.relabel r)) =
      ((settle level e fs).1.relabel r, (settle level e fs).2.map (Frame.relabel r)) := by
  fun_induction settle level e fs with
  | case1 e line fs ih => rw [← ih, List.map_cons, Frame.relabel, settle, Expr.relabel]
  | case2 e line op left fs h ih => rw [← ih, List.map_cons, Frame.relabel, settle, if_pos h, Expr.relabel]
  | case3 e line op left fs h => rw [List.map_cons, Frame.relabel, settle, if_neg h]
  | case4 e fs hnot hbin =>
    cases fs with
    | nil => rfl
    | cons f fs =>
      cases f with
      | not line => exact (hnot line fs rfl).elim
      | binary line op left => exact (hbin line op left fs rfl).elim
      | _ => rfl

end Completed

/-! ## One token more -/

namespace Draft

variable {r}

theorem operand_relabel (t : Token) (l : Nat) (fs : List Frame) (s : Site) :
    operand (t.relabel r) (r.line l) (fs.map (Frame.relabel r)) (s.relabel r) =
      (operand t l fs s).map (Draft.relabel r) := by
  cases t with
  | num n => rfl
  | id x => rfl
  | mark m =>
    cases m with
    | rparen =>
      rcases fs with _ | ⟨f, fs⟩
      · rfl
      · cases f with
        | args l head done =>
          cases done with
          | nil => exact congrArg (fun e => some (Draft.expr (.value e) _ _)) (Head.apply_relabel l [] head)
          | cons e es => rfl
        | _ => rfl
    | _ => rfl

theorem close_relabel (m : Mark) (e : Expr) (fs : List Frame) (s : Site) :
    close m (e.relabel r) (fs.map (Frame.relabel r)) (s.relabel r) = (close m e fs s).map (Draft.relabel r) := by
  cases fs with
  | nil =>
    cases m with
    | semicolon => exact congrArg some (s.close_relabel e)
    | _ => rfl
  | cons f fs =>
    cases f with
    | args l head done =>
      cases m with
      | rparen =>
        have h := Head.apply_relabel (r := r) l (e :: done).reverse head
        rw [List.map_reverse, List.map_cons] at h
        exact congrArg (fun e => some (Draft.expr (.value e) _ _)) h
      | _ => rfl
    | _ => cases m <;> rfl

theorem afterOperand_relabel (t : Token) (l : Nat) (e : Expr) (fs : List Frame) (s : Site) :
    afterOperand (t.relabel r) (r.line l) (e.relabel r) (fs.map (Frame.relabel r)) (s.relabel r) =
      (afterOperand t l e fs s).map (Draft.relabel r) := by
  cases t with
  | mark m =>
    simp only [Token.relabel, afterOperand]
    cases m.binOp? with
    | some op => simp only [settle_relabel]; rfl
    | none => simp only [settle_relabel, close_relabel]
  | _ => rfl

/-- A name is an operand unless something is called with it. -/
theorem inExpr_name {t : Token} (hlparen : t ≠ .mark .lparen) (hdot : t ≠ .mark .dot) (line l : Nat) (x : Ident)
    (fs : List Frame) (s : Site) :
    inExpr t line fs s (.name l x) = afterOperand t line (.id l (.fresh x)) fs s := by
  simp only [inExpr]

theorem relabel_mark_iff {t : Token} {m : Mark} : t.relabel r = .mark m ↔ t = .mark m := by
  cases t <;> simp [Token.relabel]

theorem inExpr_relabel (t : Token) (l : Nat) (fs : List Frame) (s : Site) (focus : Focus) :
    inExpr (t.relabel r) (r.line l) (fs.map (Frame.relabel r)) (s.relabel r) (focus.relabel r) =
      (inExpr t l fs s focus).map (Draft.relabel r) := by
  cases focus with
  | operand => exact operand_relabel t l fs s
  | value e => exact afterOperand_relabel t l e fs s
  | name line x =>
    by_cases hlparen : t = .mark .lparen
    · subst hlparen
      rfl
    by_cases hdot : t = .mark .dot
    · subst hdot
      rfl
    rw [inExpr_name hlparen hdot, ← afterOperand_relabel]
    exact inExpr_name (mt relabel_mark_iff.1 hlparen) (mt relabel_mark_iff.1 hdot) _ _ _ _ _
  | _ =>
    cases t with
    | mark m => cases m <;> rfl
    | _ => rfl

theorem inBlock_relabel (t : Token) (l : Nat) (b : Block) :
    inBlock (t.relabel r) (r.line l) (b.relabel r) = (inBlock t l b).map (Draft.relabel r) := by
  cases t with
  | mark m =>
    cases b with
    | main cs ds => cases ds <;> cases m <;> rfl
    | locals head ds o => cases ds <;> cases m <;> rfl
  | _ => rfl

theorem inName_relabel (t : Token) (l : Nat) (q : Purpose) :
    inName (t.relabel r) (r.line l) (q.relabel r) = (inName t l q).map (Draft.relabel r) := by
  cases t with
  | num n => cases q <;> rfl
  | id x => cases q <;> rfl
  | mark m =>
    cases q with
    | var | routine => cases m <;> rfl
    | field head done => cases done <;> cases m <;> rfl
    | param name done o => cases done <;> cases m <;> rfl

theorem typeOf_relabel (t : Token) : typeOf? (t.relabel r) = (typeOf? t).map (Ty.relabel r) := by
  cases t with
  | mark m => cases m <;> rfl
  | _ => rfl

theorem afterBinding_relabel (t : Token) (b : Binding) (q : Purpose) :
    afterBinding (t.relabel r) (b.relabel r) (q.relabel r) = (afterBinding t b q).map (Draft.relabel r) := by
  have hdone : ∀ done : List Binding, (b.relabel r :: done.map (Binding.relabel r)).reverse =
      (b :: done).reverse.map (Binding.relabel r) := fun done => by rw [List.map_reverse, List.map_cons]
  cases t with
  | mark m =>
    cases q with
    | var | routine => cases m <;> rfl
    | field head done =>
      cases m with
      | rparen => exact congrArg (fun bs => some (Draft.classOpen _ bs)) (hdone done)
      | _ => rfl
    | param name done o =>
      cases m with
      | rparen => exact congrArg (fun bs => some (Draft.routineOpen ⟨_, bs⟩ _)) (hdone done)
      | _ => rfl
  | _ => rfl

/-- **A draft takes a token under any name and on any line**, and the next draft differs in these only. -/
theorem step_relabel (t : Token) (l : Nat) (d : Draft) :
    (d.relabel r).step (t.relabel r) (r.line l) = (d.step t l).map (Draft.relabel r) := by
  cases d with
  | expr focus frames site => exact inExpr_relabel t l frames site focus
  | block b => exact inBlock_relabel t l b
  | methods c =>
    cases t with
    | mark m =>
      cases m with
      | rbrace => exact congrArg (fun c => some (Draft.block (.main (c :: _) []))) c.close_relabel
      | _ => rfl
    | _ => rfl
  | bind focus q =>
    cases focus with
    | name => exact inName_relabel t l q
    | colon line x =>
      cases t with
      | mark m => cases m <;> rfl
      | _ => rfl
    | ty line x =>
      simp only [Draft.relabel, BindFocus.relabel, step, typeOf_relabel, Option.map_map]
      rfl
    | done b => exact afterBinding_relabel t b q
  | _ =>
    cases t with
    | mark m => cases m <;> rfl
    | _ => rfl

end Draft
end FoolLang
