import FoolLang.Proofs.Nodes
import FoolLang.Typing
/-!
# Checks — what the check of an expression asks of the entries in it

That an entry is there is not enough to check a use: the entry of a method must be one, and an instantiated class must
have a layout.  Where every node of a program is checkable, each of them has a type or an error to report
(`Program.type_ne_incomplete`).
-/
namespace FoolLang

/-- Whether a node has what its check asks for. -/
def Expr.Checkable (k : Classes) : Expr → Prop
  | .id _ u | .call _ u _ => u.entry.isSome
  | .send _ u _ m _ => u.entry.isSome ∧ methodSignature m ≠ .error .incomplete
  | .new _ c e _ => k.fieldsOf c e ≠ .error .incomplete
  | _ => True

theorem Expr.Checkable.complete {k : Classes} : ∀ {n : Expr}, n.Checkable k → n.Complete
  | .int _ _, _ | .bool _ _, _ | .null _, _ | .binary _ _ _ _, _ | .not _ _, _ | .cond _ _ _ _, _ | .print _ _, _ =>
    trivial
  | .id _ _, h | .call _ _ _, h => h
  | .send _ _ _ (some _) _, h => ⟨h.1, rfl⟩
  | .send _ _ _ none _, h => absurd rfl h.2
  | .new _ _ (some _) _, _ => rfl
  | .new _ _ none _, h => absurd rfl h

/-! ## Expressions -/

theorem bind_ne_incomplete {α β : Type} {x : Except TypeError α} {f : α → Except TypeError β}
    (hx : x ≠ .error .incomplete) (hf : ∀ a, x = .ok a → f a ≠ .error .incomplete) : x >>= f ≠ .error .incomplete := by
  cases x with
  | error e =>
    intro h
    cases h
    exact hx rfl
  | ok a => exact hf a rfl

theorem Use.calleeSignature_ne_incomplete {u : Use} {line : Nat} (h : u.entry.isSome) :
    u.calleeSignature line ≠ .error .incomplete := by
  obtain ⟨e, he⟩ := Option.isSome_iff_exists.1 h
  rw [calleeSignature, he]
  dsimp only
  split <;> simp

theorem apply_ne_incomplete {k : Classes} {es : List Expr} {ps : List Ty} {wrong : Nat → TypeError}
    {other : TypeError} {ret : Ty} (ho : other ≠ .incomplete) (hargs : checkArgs k wrong 1 es ps ≠ .error .incomplete) :
    (if es.length ≠ ps.length then .error other else (do checkArgs k wrong 1 es ps; return ret) : Except TypeError Ty) ≠
      .error .incomplete := by
  split
  · exact fun h => ho (Except.error.inj h)
  · exact bind_ne_incomplete hargs fun _ _ h => by cases h

theorem Classes.binary_ne_incomplete (k : Classes) (op : BinOp) (a b : Ty) (l : Nat) :
    k.binary op a b l ≠ .error .incomplete := by
  cases op <;> unfold Classes.binary <;> dsimp only <;> split <;> simp

mutual

/-- **A check is only left undone where a node is not checkable.** -/
theorem Expr.type_ne_incomplete {k : Classes} : ∀ e : Expr, (∀ n ∈ e.nodes, n.Checkable k) →
    e.type k ≠ .error .incomplete
  | .int _ _, _ | .bool _ _, _ | .null _, _ => by simp [Expr.type]
  | .binary l op a b, h => by
    obtain ⟨-, ha, hb⟩ := Expr.forall_nodes_binary.1 h
    exact bind_ne_incomplete (a.type_ne_incomplete ha) fun _ _ =>
      bind_ne_incomplete (b.type_ne_incomplete hb) fun _ _ => Classes.binary_ne_incomplete _ _ _ _ _
  | .not l a, h => by
    obtain ⟨-, ha⟩ := Expr.forall_nodes_not.1 h
    refine bind_ne_incomplete (a.type_ne_incomplete ha) fun _ _ => ?_
    split <;> simp
  | .cond l c a b, h => by
    obtain ⟨-, hc, ha, hb⟩ := Expr.forall_nodes_cond.1 h
    refine bind_ne_incomplete (c.type_ne_incomplete hc) fun _ _ => ?_
    split
    · refine bind_ne_incomplete (a.type_ne_incomplete ha) fun _ _ => ?_
      refine bind_ne_incomplete (b.type_ne_incomplete hb) fun _ _ => ?_
      split <;> simp
    · simp
  | .print _ a, h => a.type_ne_incomplete (Expr.forall_nodes_print.1 h).2
  | .id l u, h => by
    obtain ⟨e, he⟩ := Option.isSome_iff_exists.1 (h _ (List.mem_singleton.2 rfl))
    rw [Expr.type, Use.valueType, he]
    dsimp only
    split <;> simp
  | .call l u es, h => by
    obtain ⟨hu, hes⟩ := Expr.forall_nodes_call.1 h
    exact bind_ne_incomplete (Use.calleeSignature_ne_incomplete hu) fun _ _ =>
      apply_ne_incomplete (by simp) (checkArgs_ne_incomplete es hes fun _ => by simp)
  | .send l u m _ es, h => by
    obtain ⟨⟨-, hm⟩, hes⟩ := Expr.forall_nodes_send.1 h
    exact bind_ne_incomplete hm fun _ _ =>
      apply_ne_incomplete (by simp) (checkArgs_ne_incomplete es hes fun _ => by simp)
  | .new l c _ es, h => by
    obtain ⟨hc, hes⟩ := Expr.forall_nodes_new.1 h
    exact bind_ne_incomplete hc fun _ _ =>
      apply_ne_incomplete (by simp) (checkArgs_ne_incomplete es hes fun _ => by simp)

theorem checkArgs_ne_incomplete {k : Classes} : ∀ (es : List Expr), (∀ n ∈ argNodes es, n.Checkable k) →
    ∀ {wrong : Nat → TypeError} {n : Nat} {ps : List Ty}, (∀ n, wrong n ≠ .incomplete) →
    checkArgs k wrong n es ps ≠ .error .incomplete
  | [], _, _, _, _, _ => by simp [checkArgs]
  | e :: es, h, wrong, n, [], _ => by simp [checkArgs]
  | e :: es, h, wrong, n, p :: ps, hw => by
    obtain ⟨he, hes⟩ := forall_argNodes_cons.1 h
    rw [checkArgs]
    refine bind_ne_incomplete (e.type_ne_incomplete he) fun _ _ => ?_
    split
    · exact checkArgs_ne_incomplete es hes hw
    · exact fun h => hw n (Except.error.inj h)

end

/-! ## Programs -/

mutual

theorem Expr.nodes_subset : ∀ (e : Expr) {n : Expr}, n ∈ e.nodes → n.nodes ⊆ e.nodes
  | .int _ _, _, h | .bool _ _, _, h | .null _, _, h | .id _ _, _, h => by
    obtain rfl := List.mem_singleton.1 h
    exact List.Subset.refl _
  | .not _ a, _, h | .print _ a, _, h => by
    rcases List.mem_cons.1 h with rfl | h
    · exact List.Subset.refl _
    · exact List.subset_cons_of_subset _ (a.nodes_subset h)
  | .binary _ _ a b, _, h => by
    rcases List.mem_cons.1 h with rfl | h
    · exact List.Subset.refl _
    · refine List.subset_cons_of_subset _ ?_
      rcases List.mem_append.1 h with h | h
      · exact List.subset_append_of_subset_left _ (a.nodes_subset h)
      · exact List.subset_append_of_subset_right _ (b.nodes_subset h)
  | .cond _ c t e, _, h => by
    rcases List.mem_cons.1 h with rfl | h
    · exact List.Subset.refl _
    · refine List.subset_cons_of_subset _ ?_
      rcases List.mem_append.1 h with h | h
      · refine List.subset_append_of_subset_left _ ?_
        rcases List.mem_append.1 h with h | h
        · exact List.subset_append_of_subset_left _ (c.nodes_subset h)
        · exact List.subset_append_of_subset_right _ (t.nodes_subset h)
      · exact List.subset_append_of_subset_right _ (e.nodes_subset h)
  | .call _ _ args, _, h | .send _ _ _ _ args, _, h | .new _ _ _ args, _, h => by
    rcases List.mem_cons.1 h with rfl | h
    · exact List.Subset.refl _
    · exact List.subset_cons_of_subset _ (argNodes_subset args h)

theorem argNodes_subset : ∀ (es : List Expr) {n : Expr}, n ∈ argNodes es → n.nodes ⊆ argNodes es
  | [], _, h => nomatch h
  | e :: es, _, h => by
    rcases List.mem_append.1 h with h | h
    · exact List.subset_append_of_subset_left _ (e.nodes_subset h)
    · exact List.subset_append_of_subset_right _ (argNodes_subset es h)

end

mutual

theorem Dec.nodes_subset : ∀ (d : Dec) {n : Expr}, n ∈ d.nodes → n.nodes ⊆ d.nodes
  | .var _ _ _ v, _, h => v.nodes_subset h
  | .func _ _ _ _ ls body, _, h => by
    rcases List.mem_append.1 h with h | h
    · exact List.subset_append_of_subset_left _ (localNodes_subset ls h)
    · exact List.subset_append_of_subset_right _ (body.nodes_subset h)

theorem localNodes_subset : ∀ (ds : List Dec) {n : Expr}, n ∈ localNodes ds → n.nodes ⊆ localNodes ds
  | [], _, h => nomatch h
  | d :: ds, _, h => by
    rcases List.mem_append.1 h with h | h
    · exact List.subset_append_of_subset_left _ (d.nodes_subset h)
    · exact List.subset_append_of_subset_right _ (localNodes_subset ds h)

end

theorem Method.nodes_subset {n : Expr} (m : Method) (h : n ∈ m.nodes) : n.nodes ⊆ m.nodes := by
  rcases List.mem_append.1 h with h | h
  · exact List.subset_append_of_subset_left _ (localNodes_subset m.locals h)
  · exact List.subset_append_of_subset_right _ (m.body.nodes_subset h)

theorem Program.nodes_subset {n : Expr} (p : Program) (h : n ∈ p.nodes) : n.nodes ⊆ p.nodes := by
  rcases List.mem_append.1 h with h | h
  · refine List.subset_append_of_subset_left _ ?_
    rcases List.mem_append.1 h with h | h
    · obtain ⟨c, hc, h⟩ := List.mem_flatMap.1 h
      obtain ⟨m, hm, h⟩ := List.mem_flatMap.1 h
      have hclass : n.nodes ⊆ c.nodes := fun x hx => List.mem_flatMap.2 ⟨m, hm, m.nodes_subset h hx⟩
      exact List.subset_append_of_subset_left _ fun x hx => List.mem_flatMap.2 ⟨c, hc, hclass hx⟩
    · exact List.subset_append_of_subset_right _ (localNodes_subset p.decs h)
  · exact List.subset_append_of_subset_right _ (p.body.nodes_subset h)

/-- Where all nodes of a program are checkable, each of them has a type or an error to report. -/
theorem Program.type_ne_incomplete {k : Classes} {p : Program} (h : ∀ n ∈ p.nodes, n.Checkable k) {n : Expr}
    (hn : n ∈ p.nodes) : n.type k ≠ .error .incomplete :=
  n.type_ne_incomplete fun m hm => h m (p.nodes_subset hn hm)

end FoolLang
