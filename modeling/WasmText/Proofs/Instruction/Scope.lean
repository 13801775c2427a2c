import WasmText.Proofs.Instruction.Compile
/-!
# Labels and open constructs

A branch is written with the name of a construct around it and compiled to
a number, the count of constructs that are open at the branch inside its
target. Names are known from the tree, the open constructs from the
instructions alone. At every place of the linear form the two agree
(`scope_take_eq`): the labels that a mark carries are the names of the
constructs that the instructions before it have opened and not closed,
followed by the labels around the whole.
-/

namespace WasmText

variable {labels labels' : Labels} {marks : List Mark} {code : List Instr}

/-! ## What the tree says -/

namespace Mark

/-- The name of the construct that a mark opens. -/
def label? : Mark → Option String
  | instr _ n _ => n.label?
  | _ => none

/-- The labels around what follows a mark. -/
def enter (labels : Labels) : Mark → Labels
  | instr op n _ => if op.shape = .structured then n.label? :: labels else labels
  | close => labels.tail
  | _ => labels

/-- The labels around what follows a list of marks. -/
def scope (labels : Labels) (marks : List Mark) : Labels := marks.foldl enter labels

theorem length_scope_le (labels : Labels) (marks : List Mark) :
    (scope labels marks).length ≤ labels.length + marks.length := by
  induction marks generalizing labels with
  | nil => exact Nat.le_refl _
  | cons m marks ih =>
      have hm : (m.enter labels).length ≤ labels.length + 1 := by
        unfold enter
        split
        · split <;> simp
        · simp; omega
        · omega
      have := ih (m.enter labels)
      simp only [scope, List.foldl_cons, List.length_cons] at this ⊢
      omega

end Mark

/-- Marks of which each stands for the instruction that its form names and
carries the labels that the marks before it leave. -/
inductive Scoped : Labels → List Mark → Labels → Prop
  | nil {labels : Labels} : Scoped labels [] labels
  | cons {labels labels' : Labels} {m : Mark} {marks : List Mark} :
      (∀ op n around, m = .instr op n around →
        Opcode.ofName? n.instr = some op ∧ around = labels) →
      Scoped (m.enter labels) marks labels' → Scoped labels (m :: marks) labels'

namespace Scoped

theorem append {marks' : List Mark} {labels'' : Labels} (h : Scoped labels marks labels')
    (h' : Scoped labels' marks' labels'') : Scoped labels (marks ++ marks') labels'' := by
  induction h with
  | nil => exact h'
  | cons hm _ ih => exact cons hm (ih h')

/-- **A mark carries the labels left before it.** -/
theorem at_mark (h : Scoped labels marks labels') {k : Nat} {op : Opcode} {n : Node}
    {around : Labels} (hk : marks[k]? = some (.instr op n around)) :
    Opcode.ofName? n.instr = some op ∧ around = Mark.scope labels (marks.take k) := by
  induction h generalizing k with
  | nil => simp at hk
  | @cons labels labels' m marks hm _ ih =>
      cases k with
      | zero => exact hm op n around (by simpa using hk)
      | succ k => exact ih (by simpa using hk)

/-- An instruction without a body leaves the labels as they are. -/
theorem single {op : Opcode} {n : Node} (hop : Opcode.ofName? n.instr = some op)
    (h : op.shape ≠ .structured) (labels : Labels) :
    Scoped labels [.instr op n labels] labels := by
  refine cons (fun _ _ _ hm => by cases hm; exact ⟨hop, rfl⟩) ?_
  rw [Mark.enter, if_neg h]
  exact nil

/-- What stands between a construct and its end mark is inside its label. -/
theorem construct {op : Opcode} {n : Node} (hop : Opcode.ofName? n.instr = some op)
    (h : op.shape = .structured) {inside : List Mark}
    (hin : Scoped (n.label? :: labels) inside (n.label? :: labels)) :
    Scoped labels (.instr op n labels :: inside ++ [.close]) labels := by
  refine cons (fun _ _ _ hm => by cases hm; exact ⟨hop, rfl⟩) ?_
  rw [Mark.enter, if_pos h]
  exact hin.append (cons nofun nil)

theorem linearAll {es : List Expr} (h : ∀ e ∈ es, Scoped labels (e.linear labels) labels) :
    Scoped labels (Expr.linearAll labels es) labels := by
  induction es with
  | nil => exact nil
  | cons e es ih =>
      exact (h e List.mem_cons_self).append (ih fun c hc => h c (List.mem_cons_of_mem e hc))

/-- **The linear form of a tree is scoped.** -/
theorem linear (labels : Labels) (e : Expr) : Scoped labels (e.linear labels) labels := by
  induction labels, e using Expr.form_induction with
  | ref labels name span => rw [Expr.linear_eq]; exact cons nofun nil
  | data labels bytes span => rw [Expr.linear_eq]; exact cons nofun nil
  | stray labels head children hop => rw [Expr.linear_stray hop]; exact cons nofun nil
  | block labels head children op hop hs hc ih =>
      rw [Expr.linear_block hop hs hc]
      exact construct hop hs (linearAll ih)
  | conditional labels head children hop ihc iht ihe =>
      rw [Expr.linear_conditional hop]
      have hs : Opcode.conditional.shape = .structured := rfl
      simp only [List.append_assoc]
      refine (linearAll ihc).append ?_
      have hin : Scoped (head.label? :: labels)
          (Expr.linearAll (head.label? :: labels) (Node.branch ⟨head, children⟩ "then") ++
            if Node.hasChild ⟨head, children⟩ "else" then
              .otherwise ::
                Expr.linearAll (head.label? :: labels) (Node.branch ⟨head, children⟩ "else")
            else []) (head.label? :: labels) := by
        refine (linearAll iht).append ?_
        split
        · exact cons nofun (linearAll ihe)
        · exact nil
      have := construct (n := ⟨head, children⟩) hop hs hin
      simpa only [List.cons_append, List.append_assoc] using this
  | indirect labels head children op hop hs ih =>
      rw [Expr.linear_indirect hop hs]
      exact (linearAll ih).append (single hop (by rw [hs]; decide) labels)
  | plain labels head children op hop hs ih =>
      rw [Expr.linear_plain hop hs]
      exact (linearAll ih).append (single hop hs.1 labels)

end Scoped

/-! ## What the instructions say -/

/-- The places of the constructs that are open after an instruction at the
given place. -/
def Instr.site (sites : List Nat) (place : Nat) : Instr → List Nat
  | op opcode _ => if opcode.shape = .structured then place :: sites else sites
  | otherwise => sites
  | close => sites.tail

/-- The places of the constructs that instructions open and do not close,
innermost first. -/
def openSites (code : List Instr) : List Nat :=
  code.zipIdx.foldl (fun sites (i, place) => i.site sites place) []

theorem openSites_concat (code : List Instr) (i : Instr) :
    openSites (code ++ [i]) = i.site (openSites code) code.length := by
  simp [openSites, List.zipIdx_append]

/-- As many constructs are open as an expression reader keeps track of. -/
theorem length_openSites {opened : List Bool} (h : code.foldlM Instr.nest? [] = some opened) :
    (openSites code).length = opened.length := by
  -- from the end, since an instruction is told by how many stand before it
  induction code using List.reverseRecOn generalizing opened with
  | nil =>
      obtain rfl : [] = opened := by simpa using h
      rfl
  | append_singleton code i ih =>
      rw [List.foldlM_append, Option.bind_eq_bind, Option.bind_eq_some_iff] at h
      obtain ⟨before, hbefore, h⟩ := h
      have hi : Instr.nest? before i = some opened := by simpa using h
      rw [openSites_concat]
      have hlen := ih hbefore
      cases i with
      | op opcode imm =>
          obtain rfl := Option.some.inj hi
          by_cases hs : opcode.shape = .structured
          · simp [Instr.site, hs, hlen]
          · simp [Instr.site, hs, hlen]
      | otherwise =>
          rcases before with _ | ⟨_ | _, before⟩
          · cases hi
          · cases hi
          · obtain rfl := Option.some.inj hi
            simpa [Instr.site] using hlen
      | close =>
          rcases before with _ | ⟨_, before⟩
          · cases hi
          · obtain rfl := Option.some.inj hi
            simp [Instr.site, hlen]

/-- Instructions that nest leave nothing open. -/
theorem openSites_eq_nil (hn : Nested code) : openSites code = [] :=
  List.length_eq_zero_iff.1 (length_openSites (hn.foldlM_nest? []))

/-- An end mark stands where something is open. -/
theorem openSites_take_ne_nil (hn : Nested code) {k : Nat} (hk : code[k]? = some .close) :
    openSites (code.take k) ≠ [] := by
  obtain ⟨hlt, hclose⟩ := List.getElem?_eq_some_iff.1 hk
  have hrun := hn.foldlM_nest? []
  rw [← List.take_append_drop k code, List.drop_eq_getElem_cons hlt, hclose, List.foldlM_append,
    Option.bind_eq_bind, Option.bind_eq_some_iff] at hrun
  obtain ⟨opened, hopened, hrest⟩ := hrun
  intro hnil
  have hlen := length_openSites hopened
  rw [hnil] at hlen
  obtain rfl : opened = [] := List.length_eq_zero_iff.1 hlen.symm
  cases hrest

/-! ## They agree -/

/-- The name of the construct at the given place of the linear form. -/
def siteLabel (marks : List Mark) (place : Nat) : Option String := marks[place]?.bind Mark.label?

/-- **The labels at a place are those of the constructs open there**, and
then those around the whole. -/
theorem scope_take_eq [HexReader] {names : Names} {locals : Locals} {final : TypeTable}
    (labels : Labels)
    (hn : Nested code) (h : marks.mapM (Mark.instr? names locals final) = some code) {k : Nat}
    (hk : k ≤ code.length) :
    Mark.scope labels (marks.take k) =
      (openSites (code.take k)).map (siteLabel marks) ++ labels := by
  induction k with
  | zero => rfl
  | succ k ih =>
      have hlt : k < code.length := by omega
      have hplace : (code.take k).length = k := by simp; omega
      have hcode : code[k]? = some code[k] := List.getElem?_eq_getElem hlt
      -- the mark at the place resolves to the instruction there
      obtain ⟨m, hm, hi⟩ := Option.bind_eq_some_iff.1 ((getElem?_of_mapM h k).symm.trans hcode)
      rw [List.take_add_one, List.take_add_one, hm, hcode, Option.toList_some, Option.toList_some,
        openSites_concat, hplace, Mark.scope, List.foldl_append, List.foldl_cons, List.foldl_nil]
      have ih : (marks.take k).foldl Mark.enter labels = _ := ih (by omega)
      rw [ih]
      generalize code[k] = i at hi hcode
      cases m with
      | instr op n around =>
          obtain ⟨imm, -, rfl⟩ := instr?_instr.1 hi
          by_cases hs : op.shape = .structured
          · simp [Mark.enter, Instr.site, hs, siteLabel, hm, Mark.label?]
          · simp [Mark.enter, Instr.site, hs]
      | otherwise =>
          obtain rfl := Option.some.inj hi
          rfl
      | close =>
          obtain rfl := Option.some.inj hi
          -- something is open here, and both sides drop it
          obtain ⟨site, sites, hsites⟩ := List.exists_cons_of_ne_nil (openSites_take_ne_nil hn hcode)
          simp [Mark.enter, Instr.site, hsites]
      | stray => cases hi

end WasmText
