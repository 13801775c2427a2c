import WasmText.Instruction.Evaluation
import WasmText.Proofs.Steps
/-!
# Labels told and labels stacked

Evaluating a tree along a stack of labels comes to the same as compiling it
with the labels told, from any stack (`evaluate_follows`). The stack is
unwound when the tree is accepted (`evaluate_eq_ok`), and an error leaves on
it the labels of the constructs that were open at the fault
(`exists_evaluate_eq_error`).
-/

namespace WasmText

namespace Evaluation

variable {α β : Type} {start stop labels : Labels} {x : Evaluation α} {y : Typing α}

/-- Whether work along a stack gives what work without one gives, and takes
the stack from one state to another. An error leaves more on the stack than
there should be in the end, or as much. -/
def Follows (start stop : Labels) (x : Evaluation α) (y : Typing α) : Prop :=
  ∀ t, (∀ a t', y t = .ok a t' → x ⟨t, start⟩ = .ok a ⟨t', stop⟩) ∧
    ∀ e t', y t = .error e t' →
      ∃ stack, stop <:+ stack ∧ x ⟨t, start⟩ = .error e ⟨t', stack⟩

namespace Follows

/-- A step that leaves the stack alone. -/
theorem typing (y : Typing α) : Follows labels labels (.typing y) y := by
  intro t
  constructor
  · intro a t' h
    simp only [Evaluation.typing, h]
  · intro e t' h
    exact ⟨labels, List.suffix_refl _, by simp only [Evaluation.typing, h]⟩

theorem pure (a : α) : Follows labels labels (Pure.pure a) (Pure.pure a) := by
  intro t
  constructor
  · intro b t' h
    cases h
    rfl
  · intro e t' h
    cases h

theorem throw (e : CompileError) :
    Follows labels labels (MonadExcept.throw e : Evaluation α) (MonadExcept.throw e) := by
  intro t
  constructor
  · intro a t' h
    cases h
  · intro e' t' h
    cases h
    exact ⟨labels, List.suffix_refl _, rfl⟩

/-- Work that unwinds its stack, and more work. -/
theorem bind {f : α → Evaluation β} {g : α → Typing β} (hstop : stop <:+ start)
    (h : Follows start start x y) (hf : ∀ a, Follows start stop (f a) (g a)) :
    Follows start stop (x >>= f) (y >>= g) := by
  intro t
  cases hy : y t with
  | ok a t₁ =>
      rw [bind_of_state_ok hy, bind_of_state_ok ((h t).1 a t₁ hy)]
      exact hf a t₁
  | error e t₁ =>
      obtain ⟨stack, hstack, hx⟩ := (h t).2 e t₁ hy
      rw [bind_of_state_error hy, bind_of_state_error hx]
      refine ⟨nofun, fun e' t' h => ?_⟩
      cases h
      exact ⟨stack, hstop.trans hstack, rfl⟩

/-- Inside a construct its label is on the stack. -/
theorem push {label : Option String} (h : Follows (label :: labels) stop x y) :
    Follows labels stop (Evaluation.push label >>= fun _ => x) y :=
  h

theorem pop {label : Option String} (h : Follows labels stop x y) :
    Follows (label :: labels) stop (Evaluation.pop >>= fun _ => x) y :=
  h

/-- The labels told are those on the stack. -/
theorem told {f : Labels → Evaluation α} (h : Follows labels stop (f labels) y) :
    Follows labels stop (Evaluation.labels >>= f) y :=
  h

theorem eq_ok (h : Follows start stop x y) {t : TypeTable} {a : α} {s : FunctionState} :
    x ⟨t, start⟩ = .ok a s ↔ y t = .ok a s.table ∧ s.labels = stop := by
  cases hy : y t with
  | ok b t' =>
      rw [(h t).1 b t' hy]
      obtain ⟨table, labels⟩ := s
      simp [eq_comm, and_assoc]
  | error e t' =>
      obtain ⟨stack, -, hx⟩ := (h t).2 e t' hy
      simp [hx]

end Follows

end Evaluation

open Evaluation

section Trees

variable [HexReader] {names : Names} {locals : Locals} {labels : Labels} {es : List Expr}

/-- Trees side by side are followed if each of them is. -/
theorem evaluateWhere_follows (keep : Expr → Bool)
    (h : ∀ e ∈ es, Follows labels labels (evaluate names locals e)
      (compileExpr ⟨names, locals, labels⟩ e)) :
    Follows labels labels (evaluateWhere names locals keep es)
      (compileWhere ⟨names, locals, labels⟩ keep es) := by
  induction es with
  | nil =>
      rw [evaluateWhere, compileWhere]
      exact .pure _
  | cons e es ih =>
      have hrest := ih fun c hc => h c (List.mem_cons_of_mem e hc)
      rw [evaluateWhere, compileWhere]
      split
      · exact .bind (List.suffix_refl _) (h e List.mem_cons_self) fun first =>
          .bind (List.suffix_refl _) hrest fun rest => .pure _
      · exact hrest

/-- A branch is followed if the trees inside the forms are. -/
theorem evaluateBranch_follows (name : String)
    (h : ∀ head inside, .node head inside ∈ es → ∀ e ∈ inside,
      Follows labels labels (evaluate names locals e) (compileExpr ⟨names, locals, labels⟩ e)) :
    Follows labels labels (evaluateBranch names locals name es)
      (compileBranch ⟨names, locals, labels⟩ name es) := by
  induction es with
  | nil =>
      rw [evaluateBranch, compileBranch]
      exact .pure _
  | cons e es ih =>
      have hrest := ih fun head inside hmem => h head inside (List.mem_cons_of_mem e hmem)
      cases e with
      | ref n span =>
          rw [evaluateBranch, compileBranch]
          · exact hrest
          · rintro _ _ ⟨⟩
          · rintro _ _ ⟨⟩
      | data bytes span =>
          rw [evaluateBranch, compileBranch]
          · exact hrest
          · rintro _ _ ⟨⟩
          · rintro _ _ ⟨⟩
      | node head inside =>
          rw [evaluateBranch, compileBranch]
          split
          · exact evaluateWhere_follows _ (h head inside List.mem_cons_self)
          · exact hrest

/-- A form is followed if the trees in it are, at two depths: a branch is
not a form of its own. -/
theorem evaluate_node_follows {head : Head} {children : List Expr} (labels : Labels)
    (hchild : ∀ labels, ∀ e ∈ children, Follows labels labels (evaluate names locals e)
      (compileExpr ⟨names, locals, labels⟩ e))
    (hbranch : ∀ labels head' inside, .node head' inside ∈ children → ∀ e ∈ inside,
      Follows labels labels (evaluate names locals e) (compileExpr ⟨names, locals, labels⟩ e)) :
    Follows labels labels (evaluate names locals (.node head children))
      (compileExpr ⟨names, locals, labels⟩ (.node head children)) := by
  have hbalanced : labels <:+ labels := List.suffix_refl _
  have hinside : labels <:+ head.label? :: labels := List.suffix_cons _ _
  have hwhere := fun keep => evaluateWhere_follows keep (hchild labels)
  have hbody := fun keep => evaluateWhere_follows keep (hchild (head.label? :: labels))
  have hbranch := fun name => evaluateBranch_follows name (hbranch (head.label? :: labels))
  rw [evaluate, compileExpr]
  cases Opcode.ofName? head.instr with
  | none => exact .throw _
  | some op =>
      dsimp only
      generalize op.shape = shape
      cases shape
      case structured =>
        refine .bind hbalanced (.typing _) fun sig => ?_
        split
        · refine .bind hbalanced (hwhere _) fun condition => ?_
          generalize Node.child? ⟨head, children⟩ "then" = first?
          generalize Node.child? ⟨head, children⟩ "else" = second?
          cases first? with
          | none => exact .throw _
          | some first =>
              cases second? with
              | none =>
                  exact .bind hbalanced (.typing _) fun block => .push <|
                    .bind hinside (hbranch _) fun first => .pop (.pure _)
              | some second =>
                  exact .bind hbalanced (.typing _) fun block => .push <|
                    .bind hinside (hbranch _) fun first =>
                      .bind hinside (hbranch _) fun second => .pop (.pure _)
        · exact .bind hbalanced (.typing _) fun block => .push <|
            .bind hinside (hbody _) fun body => .pop (.pure _)
      case indirect =>
        exact .bind hbalanced (.typing _) fun type =>
          .bind hbalanced (hwhere _) fun operands => .pure _
      all_goals
        refine .bind hbalanced (hwhere _) fun operands => .told ?_
        exact .bind hbalanced (.typing _) fun operand => .pure _

end Trees

/-- **Evaluating along a stack follows compiling** with its labels told. -/
theorem evaluate_follows [HexReader] (names : Names) (locals : Locals) (labels : Labels) (e : Expr) :
    Follows labels labels (evaluate names locals e) (compileExpr ⟨names, locals, labels⟩ e) := by
  induction hsize : sizeOf e using Nat.strongRecOn generalizing labels e with
  | ind size ih =>
      subst hsize
      cases e with
      | ref name span =>
          rw [evaluate, compileExpr]
          exact .throw _
      | data bytes span =>
          rw [evaluate, compileExpr]
          exact .throw _
      | node head children =>
          have hlt : ∀ e ∈ children, sizeOf e < sizeOf (Expr.node head children) := by
            intro e he
            have := List.sizeOf_lt_of_mem he
            simp only [Expr.node.sizeOf_spec]
            omega
          refine evaluate_node_follows labels (fun labels e he => ih _ (hlt e he) labels e rfl) ?_
          intro labels head' inside hmem e he
          refine ih _ (Nat.lt_trans ?_ (hlt _ hmem)) labels e rfl
          have := List.sizeOf_lt_of_mem he
          simp only [Expr.node.sizeOf_spec]
          omega

/-- **A tree that is accepted unwinds the stack**, and its instructions are
those it has with the labels told. -/
theorem evaluate_eq_ok [HexReader] {names : Names} {locals : Locals} {labels : Labels} {e : Expr}
    {t : TypeTable} {instrs : List Instr} {s : FunctionState} :
    evaluate names locals e ⟨t, labels⟩ = .ok instrs s ↔
      compileExpr ⟨names, locals, labels⟩ e t = .ok instrs s.table ∧ s.labels = labels :=
  (evaluate_follows names locals labels e).eq_ok

/-- A fault leaves on the stack what was open at it. -/
theorem exists_evaluate_eq_error [HexReader] {names : Names} {locals : Locals} {labels : Labels}
    {e : Expr} {t t' : TypeTable} {error : CompileError}
    (h : compileExpr ⟨names, locals, labels⟩ e t = .error error t') :
    ∃ stack, labels <:+ stack ∧ evaluate names locals e ⟨t, labels⟩ = .error error ⟨t', stack⟩ :=
  (evaluate_follows names locals labels e t).2 error t' h

end WasmText
