import FoolLang.Proofs.Levels
import FoolLang.Proofs.Straight
/-!
# Tethers — methods hold on to their object

In a run of a compiled program, wherever the code of a routine of a method loads the frame pointer, links lead from its
frame to the object, one for each function around it and one more (`linked_of_loadsFrame`).  The functions around a
routine are told by the method that it is in (`Method.emittedAt`), and with them its level.
-/
namespace FoolLang

mutual

/-- The routines of a declaration with the number of functions that their code is nested in, the declaration in `d`. -/
def Dec.emittedAt (d k f : Nat) : Dec → List (Nat × Emitted)
  | .var _ _ _ _ => []
  | .func _ _ _ params locals body =>
    localEmittedAt (d + 1) k (f + 1) locals ++ [(d + 1, ⟨f, k, params.length, locals, body⟩)]

def localEmittedAt (d k f : Nat) : List Dec → List (Nat × Emitted)
  | [] => []
  | x :: xs => x.emittedAt d k f ++ localEmittedAt d (k + x.labels) (f + x.routines) xs

end

/-- The routines of a method with the number of functions in it that their code is nested in. -/
def Method.emittedAt (k f : Nat) (m : Method) : List (Nat × Emitted) :=
  localEmittedAt 0 k (f + 1) m.locals ++ [(0, ⟨f, k, m.params.length, m.locals, m.body⟩)]

mutual

theorem Dec.map_snd_emittedAt : ∀ (x : Dec) (d k f : Nat), (x.emittedAt d k f).map Prod.snd = x.emitted k f
  | .var _ _ _ _, _, _, _ => rfl
  | .func _ _ _ _ locals _, d, k, f => by
    rw [Dec.emittedAt, Dec.emitted, List.map_append, map_snd_localEmittedAt locals]
    rfl

theorem map_snd_localEmittedAt : ∀ (xs : List Dec) (d k f : Nat),
    (localEmittedAt d k f xs).map Prod.snd = localEmitted k f xs
  | [], _, _, _ => rfl
  | x :: xs, d, k, f => by
    rw [localEmittedAt, localEmitted, List.map_append, x.map_snd_emittedAt, map_snd_localEmittedAt xs]

end

/-- **Every routine of a method is found.** -/
theorem Method.map_snd_emittedAt (m : Method) (k f : Nat) : (m.emittedAt k f).map Prod.snd = m.emitted k f := by
  rw [emittedAt, emitted, List.map_append, map_snd_localEmittedAt]
  rfl

/-! ## The levels of the routines of a method -/

mutual

theorem Dec.level_of_emittedAt : ∀ (x : Dec) {d k f : Nat}, ∀ r ∈ x.emittedAt d k f,
    (r.2.number, some (r.1 + 2)) ∈ x.levels (some (d + 3)) f
  | .var _ _ _ _, _, _, _ => nofun
  | .func _ _ _ _ locals _, _, _, _ => fun _ hr => by
    rcases List.mem_append.1 hr with hr | hr
    · exact List.mem_cons_of_mem _ (level_of_localEmittedAt locals _ hr)
    · obtain rfl := List.mem_singleton.1 hr
      exact List.mem_cons_self

theorem level_of_localEmittedAt : ∀ (xs : List Dec) {d k f : Nat}, ∀ r ∈ localEmittedAt d k f xs,
    (r.2.number, some (r.1 + 2)) ∈ localLevels (some (d + 3)) f xs
  | [], _, _, _ => nofun
  | x :: xs, _, _, _ => fun _ hr => by
    rcases List.mem_append.1 hr with hr | hr
    · exact List.mem_append_left _ (x.level_of_emittedAt _ hr)
    · exact List.mem_append_right _ (level_of_localEmittedAt xs _ hr)

end

/-- **A routine in `d` functions of a method is at level `d + 2`.** -/
theorem Method.level_of_emittedAt (m : Method) {k f : Nat} : ∀ r ∈ m.emittedAt k f,
    (r.2.number, some (r.1 + 2)) ∈ m.levels f := fun _ hr => by
  rcases List.mem_append.1 hr with hr | hr
  · exact List.mem_cons_of_mem _ (level_of_localEmittedAt m.locals _ hr)
  · obtain rfl := List.mem_singleton.1 hr
    exact List.mem_cons_self

theorem exists_methodEmitted {m : Method} : ∀ {ms : List Method} {k f : Nat}, m ∈ ms →
    ∃ k' f', m.emitted k' f' <:+: methodEmitted k f ms ∧ m.levels f' <:+: methodLevels f ms
  | [], _, _, h => nomatch h
  | x :: ms, k, f, h => by
    rcases List.mem_cons.1 h with rfl | h
    · exact ⟨k, f, (List.prefix_append _ _).isInfix, (List.prefix_append _ _).isInfix⟩
    · obtain ⟨k', f', hemitted, hlevels⟩ := exists_methodEmitted (k := k + x.labels) (f := f + x.routines) h
      exact ⟨k', f', hemitted.trans (List.suffix_append _ _).isInfix, hlevels.trans (List.suffix_append _ _).isInfix⟩

theorem exists_classEmitted {c : Class} {m : Method} (hm : m ∈ c.methods) : ∀ {cs : List Class} {k f : Nat}, c ∈ cs →
    ∃ k' f', m.emitted k' f' <:+: classEmitted k f cs ∧ m.levels f' <:+: classLevels f cs
  | [], _, _, h => nomatch h
  | x :: cs, k, f, h => by
    rcases List.mem_cons.1 h with rfl | h
    · obtain ⟨k', f', hemitted, hlevels⟩ := exists_methodEmitted (k := k) (f := f) hm
      exact ⟨k', f', hemitted.trans (List.prefix_append _ _).isInfix, hlevels.trans (List.prefix_append _ _).isInfix⟩
    · obtain ⟨k', f', hemitted, hlevels⟩ := exists_classEmitted hm (k := k + x.labels) (f := f + x.routines) h
      exact ⟨k', f', hemitted.trans (List.suffix_append _ _).isInfix, hlevels.trans (List.suffix_append _ _).isInfix⟩

/-- **The code of a program has the routines of each method**, at the levels that they have in it. -/
theorem Program.exists_emitted {p : Program} {c : Class} {m : Method} (hc : c ∈ p.classes) (hm : m ∈ c.methods) :
    ∃ k f, m.emitted k f <:+: p.emitted ∧ ∀ r ∈ m.emittedAt k f, p.levelOf r.2.number = some (r.1 + 2) := by
  cases p with
  | expr body => cases hc
  | letIn cs ds body =>
    obtain ⟨k, f, hemitted, hlevels⟩ := exists_classEmitted hm (k := 0) (f := 0) hc
    refine ⟨k, f, hemitted.trans (List.prefix_append _ _).isInfix, fun r hr => ?_⟩
    exact levelOf_eq (letIn cs ds body) _ (List.mem_append_left _ (hlevels.subset (m.level_of_emittedAt r hr)))

/-! ## Runs -/

namespace Host

variable {H : Host} {M : Nat} {m : Machine} {c : Config}

/-- What the links of a configuration are on a machine that is in it. -/
theorem Hops.links (hm : m.Shows M c) {a : Nat} : ∀ {d : Nat} {fp : Cell}, Hops c.stack c.heap d fp (.ofNat a) →
    ∃ link : Nat → Nat, fp.word M = .ofNat (link 0) ∧ link d = a ∧
      ∀ i < d, m.memory.get? (link i) = some (.ofNat (link (i + 1))) ∧ (link i < c.heap.length ∨ m.sp ≤ link i)
  | 0, _, h => ⟨fun _ => a, congrArg (Cell.word · M) h, rfl, nofun⟩
  | d + 1, _, ⟨_, hsees, hrest⟩ => by
    obtain ⟨link, hfirst, hlast, hlinks⟩ := links hm hrest
    obtain ⟨j, haddress, hget, happart⟩ := hsees.held hm
    refine ⟨fun i => if i = 0 then j else link (i - 1), haddress, hlast, fun i hi => ?_⟩
    cases i with
    | zero => exact ⟨hget.trans (congrArg some hfirst), happart⟩
    | succ i => exact hlinks i (Nat.lt_of_succ_lt_succ hi)

end Host

/-- A machine is about to load the frame pointer in the block of a routine. -/
def Emitted.LoadsFrame (r : Emitted) (code : Code) (memory : Nat) (m : Machine) : Prop :=
  ∃ before pre rest after, code = before ++ r.code memory ++ after ∧ r.code memory = pre ++ .op .lfp :: rest ∧
    m.ip = Code.size (before ++ pre)

/-- Past its label a block has no label of a routine. -/
theorem Emitted.findSome?_routine? {r : Emitted} {M : Nat} {pre rest : Code} (h : r.code M = pre ++ .op .lfp :: rest) :
    pre.reverse.findSome? Line.routine? = some r.number := by
  rw [r.code_eq] at h
  cases pre with
  | nil => cases h
  | cons line pre =>
    obtain ⟨rfl, hinner⟩ := List.cons.inj h
    have hblock : Code.Inner (r.innerCode M ++ [.op .js]) := (r.inner_innerCode M).append (.of_flat rfl)
    have hpre : ∀ line ∈ pre, line.routine? = none := fun line hline =>
      hblock.routine?_eq_none line (hinner ▸ List.mem_append_left _ hline)
    rw [List.reverse_cons, List.findSome?_append, Code.findSome?_routine? hpre]
    rfl

theorem Line.routine?_fill (M : Nat) (line : Line) : (line.fill M).routine? = line.routine? := by
  cases line with
  | push n =>
    rw [fill]
    split <;> rfl
  | _ => rfl

/-- **The lines of a block belong to the routine of the block.** -/
theorem Host.levelAt_of_block {H : Host} {M : Nat} {m : Machine} {r : Emitted} {before pre rest after rest' : Code}
    (hcode : H.code.fill M = before ++ r.code M ++ after) (hblock : r.code M = pre ++ .op .lfp :: rest)
    (hip : m.ip = Code.size (before ++ pre)) (hrest : .op .lfp :: rest' <:+ H.code)
    (hplace : H.place (.op .lfp :: rest') = m.ip) : H.levelAt (.op .lfp :: rest') = H.levels r.number := by
  obtain ⟨front, hfront⟩ := hrest
  have hfill : Code.fill M front ++ .op .lfp :: Code.fill M rest' = H.code.fill M := by
    rw [← hfront, Code.fill_append]
    rfl
  have hsplit : (before ++ pre) ++ .op .lfp :: (rest ++ after) = H.code.fill M := by
    rw [hcode, hblock]
    simp only [List.append_assoc, List.cons_append]
  have hsize : m.ip = Code.size (Code.fill M front) := by rw [Code.size_fill, ← hplace, place_of_suffix hfront]
  -- both splits are before an instruction at the same address, so what comes before it is the same
  have hunique : Code.fill M rest' = rest ++ after :=
    Machine.Before.unique ⟨_, hfill, hsize⟩ ⟨_, hsplit, hip⟩ rfl rfl
  have hfirst : Code.fill M front = before ++ pre :=
    List.append_cancel_right (hfill.trans (hunique ▸ hsplit.symm))
  have hlabels : front.reverse.findSome? Line.routine? = (before ++ pre).reverse.findSome? Line.routine? := by
    rw [← hfirst, Code.fill, ← List.map_reverse, List.findSome?_map]
    exact congrArg (front.reverse.findSome? ·) (funext fun line => (line.routine?_fill M).symm)
  rw [levelAt_of_suffix hfront, hlabels, List.reverse_append, List.findSome?_append, Emitted.findSome?_routine? hblock]
  rfl

/-- **A method holds on to its object.**  In a run of a compiled program, where a routine of a method is about to load
the frame pointer, so many links lead to the heap, where the object lies, as there are levels down to the object's. -/
theorem linked_of_loadsFrame {source : List Char} {limits : Limits} {n d : Nat} {c : Compilation} {m : Machine}
    {r : Emitted} (hb : Text.byteLength source ≤ Text.maxInt32) (h : run n source limits = .ok (c, m, .running))
    (hlevel : c.program.levelOf r.number = some (d + 2)) (hloads : r.LoadsFrame c.code limits.memory m) :
    ∃ (h : Nat) (link : Nat → Nat), m.HeapTo h ∧ m.Linked h (d + 1) link ∧ link (d + 1) < h := by
  obtain ⟨-, -, -, hall⟩ := of_run h
  obtain ⟨p, H, hprogram, hmemory, -, hlevels, hfull, htracks⟩ := compiled_tracks hb h
  have hfill : H.code.fill limits.memory = c.code := hmemory ▸ hfull
  obtain ⟨before, pre, rest, after, hcode, hblock, hip⟩ := hloads
  have hrun : Machine.run (H.instrsFor H.memory) n (.fresh H.memory) = (m, .running) := by
    rw [Host.instrsFor, hmemory, hfill]
    exact congrArg Prod.snd (Except.ok.inj ((hall n).symm.trans h))
  obtain ⟨config, hshows, horderly⟩ := htracks n m hrun
  have hsplit : (before ++ pre) ++ .op .lfp :: (rest ++ after) = c.code := by
    rw [hcode, hblock]
    simp only [List.append_assoc, List.cons_append]
  have hline : (H.instrsFor H.memory)[config.ip]? = some (.op .lfp) := by
    rw [Host.instrsFor, hmemory, hfill, List.getElem?_toArray, ← hshows.ip, hip]
    exact Code.getElem?_link hsplit rfl
  obtain ⟨rest', hrest, hplace, hlength, hties⟩ := horderly.op hline
  have hat := Host.levelAt_of_block (hfill.trans hcode) hblock hip hrest (hplace.trans hshows.ip.symm)
  rw [hlevels, ← hprogram, hlevel] at hat
  obtain ⟨a, ha, hhops⟩ := hties (d + 2) hat
  obtain ⟨link, hfirst, hlast, hlinks⟩ := Host.Hops.links hshows hhops
  rw [← hlength] at ha hlinks
  have hsp := hshows.sp
  have hcells := hshows.cells
  have hmemory := H.memory_le
  exact ⟨config.hp, link, ⟨hshows.hp, hshows.hp_le, by omega, by omega⟩,
    ⟨hshows.fp.trans hfirst, fun i hi => (hlinks i hi).1, fun i hi => (hlinks i hi).2⟩, hlast.symm ▸ ha⟩

end FoolLang
