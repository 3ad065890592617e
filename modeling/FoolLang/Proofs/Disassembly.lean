import FoolLang.Proofs.Listings
import Mathlib.Data.List.Nodup
/-!
# Disassembly — instructions written out and assembled again

An instruction vector is written with a label before each instruction, named for its place, and one at the end; a branch
goes to the label of its target.  Each of these labels then stands for its place (`address_numbered`), so assembling the
text gives the instructions back (`assemble_disassemble`).
-/
namespace FoolLang
namespace Assembly

open Text

/-- The label of a place in the code: an `L` and its index. -/
def placeLabel (n : Nat) : Ident := ⟨'L' :: decimal n⟩

theorem placeLabel_inj {m n : Nat} (h : placeLabel m = placeLabel n) : m = n :=
  decimal_inj (List.cons.inj (Ident.mk.inj h)).2

theorem isLabel_placeLabel (n : Nat) : IsLabel (placeLabel n) where
  name := ⟨'L', decimal n, rfl, by decide,
    List.all_eq_true.2 fun _ hd => isNameChar_of_isDigit (isDigit_of_mem_decimal hd)⟩
  free := by
    -- no mnemonic starts with a capital
    refine ofName_of_free (fun h => ?_) (fun b h => ?_) (fun o h => ?_)
    · cases (List.cons.inj h).1
    · cases b <;> cases (List.cons.inj h).1
    · cases o <;> cases (List.cons.inj h).1

/-- An instruction as a statement that names the places it goes to. -/
def statementOf : Instr → Statement
  | .push v => .push v
  | .branch b t => .branch b (placeLabel t) 0
  | .op o => .op o

/-- Instructions from place `n` on, each after the label of its place, and the label of the end. -/
def numbered (n : Nat) : List Instr → Listing
  | [] => [.define (placeLabel n)]
  | i :: code => .define (placeLabel n) :: statementOf i :: numbered (n + 1) code

/-- The text of a code, a label or an instruction to a line. -/
def disassemble (code : List Instr) : List Char := Listing.text (numbered 0 code)

example : disassemble [.push (-5), .branch .ifEqual 2] = "L0:\npush -5\nL1:\nbeq L2\nL2:\n".toList := by decide

variable {code : List Instr}

theorem definitions_numbered : ∀ (n : Nat) (code : List Instr),
    (numbered n code).definitions = (List.range' n (code.length + 1)).map placeLabel
  | _, [] => rfl
  | n, i :: code => by
    have hi : (statementOf i).defines = none := by cases i <;> rfl
    have htail : (statementOf i :: numbered (n + 1) code).filterMap Statement.defines =
        (numbered (n + 1) code).definitions := List.filterMap_cons_none hi
    show placeLabel n :: (statementOf i :: numbered (n + 1) code).filterMap Statement.defines = _
    rw [htail, definitions_numbered (n + 1) code]
    rfl

theorem nodup_definitions_numbered (n : Nat) (code : List Instr) : (numbered n code).definitions.Nodup := by
  rw [definitions_numbered]
  exact List.Nodup.map (fun _ _ => placeLabel_inj) List.nodup_range'

theorem placeLabel_mem_definitions {t : Nat} :
    placeLabel t ∈ (numbered 0 code).definitions ↔ t ≤ code.length := by
  rw [definitions_numbered, List.mem_map_of_injective fun _ _ => placeLabel_inj, List.mem_range'_1]
  omega

theorem mem_numbered : ∀ {n : Nat} {code : List Instr} {s : Statement}, s ∈ numbered n code →
    (∃ k, s = .define (placeLabel k)) ∨ ∃ i ∈ code, s = statementOf i
  | n, [], s, h => .inl ⟨n, List.mem_singleton.1 h⟩
  | n, i :: code, s, h => by
    rcases List.mem_cons.1 h with rfl | h
    · exact .inl ⟨n, rfl⟩
    · rcases List.mem_cons.1 h with rfl | h
      · exact .inr ⟨i, List.mem_cons_self, rfl⟩
      · exact (mem_numbered h).imp_right fun ⟨j, hj, hs⟩ => ⟨j, List.mem_cons_of_mem _ hj, hs⟩

/-- **The label of a place stands for the place.** -/
theorem address_numbered : ∀ {code : List Instr} {k : Nat} (n : Nat), k ≤ code.length →
    (numbered n code).address (placeLabel (n + k)) = k
  | [], 0, n, _ | _ :: _, 0, n, _ => Listing.address_cons_self _ _
  | i :: code, k + 1, n, hk => by
    have hother : Statement.define (placeLabel n) ≠ .define (placeLabel (n + (k + 1))) := fun h => by
      have := placeLabel_inj (Statement.define.inj h)
      omega
    have hinstr : statementOf i ≠ .define (placeLabel (n + (k + 1))) := by cases i <;> exact nofun
    have hone : Listing.size [statementOf i] = 1 := by cases i <;> rfl
    have hplace : n + (k + 1) = n + 1 + k := by omega
    rw [numbered, Listing.address_cons_ne hother, Listing.address_cons_ne hinstr, hone, hplace,
      address_numbered (n + 1) (Nat.le_of_succ_le_succ hk)]
    show 0 + (1 + k) = k + 1
    omega

/-- With labels that stand for their places, the instructions are those written out. -/
theorem filterMap_numbered {address : Ident → Nat} : ∀ {code : List Instr} (n : Nat),
    (∀ b t, .branch b t ∈ code → address (placeLabel t) = t) →
    (numbered n code).filterMap (Statement.instr? address) = code
  | [], _, _ => rfl
  | i :: code, n, h => by
    have hi : (statementOf i).instr? address = some i := by
      cases i with
      | branch b t => exact congrArg (some ∘ Instr.branch b) (h b t List.mem_cons_self)
      | _ => rfl
    show (statementOf i :: numbered (n + 1) code).filterMap (Statement.instr? address) = _
    rw [List.filterMap_cons_some hi, filterMap_numbered (n + 1) fun b t ht => h b t (List.mem_cons_of_mem _ ht)]

variable (htargets : ∀ b t, .branch b t ∈ code → t ≤ code.length)
include htargets

theorem link_numbered : (numbered 0 code).link = code :=
  filterMap_numbered 0 fun b t ht => by simpa using address_numbered 0 (htargets b t ht)

theorem size_numbered : (numbered 0 code).size = code.length := by
  rw [← Listing.length_link, link_numbered htargets]

theorem wellFormed_numbered : (numbered 0 code).WellFormed where
  labels := by
    intro x hx
    rw [definitions_numbered] at hx
    obtain ⟨k, -, rfl⟩ := List.mem_map.1 hx
    exact isLabel_placeLabel k
  once := nodup_definitions_numbered 0 code
  resolved := by
    refine Listing.resolved_iff.2 ⟨fun s hs x hx => ?_, fun x line hs => ?_⟩
    · rcases mem_numbered hs with ⟨k, rfl⟩ | ⟨i, hi, rfl⟩
      · cases hx
      · cases i with
        | branch b t =>
          cases hx
          exact placeLabel_mem_definitions.2 (htargets b t hi)
        | _ => cases hx
    · -- what is pushed is a number, never a label
      rcases mem_numbered hs with ⟨k, hk⟩ | ⟨i, -, hi⟩
      · cases hk
      · cases i <;> cases hi

end Assembly

open Assembly

/-- **Assembling undoes disassembling**, whatever is pushed, if no branch leaves the code and there is room for it. -/
theorem assemble_disassemble {code : List Instr} {limit : Nat}
    (htargets : ∀ b t, .branch b t ∈ code → t ≤ code.length) (hlimit : code.length ≤ limit) :
    assemble (disassemble code) limit = .ok code := by
  rw [disassemble, (wellFormed_numbered htargets).assemble_text, size_numbered htargets, if_pos hlimit,
    link_numbered htargets]

/-- All operations, a push of the smallest number, and branches to the second place, to one whose label it starts, and
to the end. -/
def wholeSet : List Instr :=
  [.push (-2147483648), .branch .always 1, .branch .ifEqual 10, .branch .ifLessEq 23] ++ Op.all.map .op

theorem wholeSet_disassembled : wholeSet.length ≤ 23 ∧
    (∀ b t, .branch b t ∈ wholeSet → t ≤ wholeSet.length) ∧
    assemble (disassemble wholeSet) 23 = .ok wholeSet := by
  have htargets : ∀ b t, .branch b t ∈ wholeSet → t ≤ wholeSet.length := by
    have hall : (wholeSet.all fun
      | .branch _ t => decide (t ≤ wholeSet.length)
      | _ => true) = true := by decide
    exact fun b t ht => of_decide_eq_true (List.all_eq_true.1 hall _ ht)
  have hlimit : wholeSet.length ≤ 23 := by decide
  exact ⟨hlimit, htargets, assemble_disassemble htargets hlimit⟩

end FoolLang
