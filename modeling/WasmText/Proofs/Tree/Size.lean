import WasmText.Proofs.Tree.Grammar
/-!
# The size of trees

Everything that a tree holds is paid for by a token of its own: a form by
its head, labels and parameters by theirs. The `then` that a flat `if` is
given is not written anywhere, but then the `end` of that `if` is, and no
form is made of it. So trees are no larger than the tokens that spell them
(`Grammar.Trees.size_le`), and only the module around a whole source may
come for nothing.
-/

namespace WasmText

mutual

/-- How much a tree holds: its forms, references and strings, and the
labels and parameters of its forms. -/
def Expr.size : Expr → Nat
  | .ref _ _ => 1
  | .data _ _ => 1
  | .node head children => 1 + head.arguments.length + sizeAll children

/-- How much trees side by side hold. -/
def Expr.sizeAll : List Expr → Nat
  | [] => 0
  | e :: es => e.size + sizeAll es

end

/-- A label counts as an argument wherever it stands. -/
theorem Head.length_arguments (head : Head) :
    head.arguments.length = head.name.toList.length + head.params.length := by
  unfold arguments
  cases head.name with
  | none => simp
  | some label => simp [Nat.add_comm]

namespace Expr

theorem size_ref (name : String) (span : Span) : (Expr.ref name span).size = 1 := by rw [size]

theorem size_data (bytes : List UInt8) (span : Span) : (Expr.data bytes span).size = 1 := by
  rw [size]

theorem size_node (head : Head) (children : List Expr) :
    (Expr.node head children).size =
      1 + (head.name.toList.length + head.params.length) + sizeAll children := by
  rw [size, Head.length_arguments]

/-- Trees side by side are as large as all of them together. -/
theorem sizeAll_eq (es : List Expr) : sizeAll es = (es.map size).sum := by
  induction es with
  | nil => rw [sizeAll]; rfl
  | cons e es ih => rw [sizeAll, ih, List.map_cons, List.sum_cons]

theorem sizeAll_append (es es' : List Expr) : sizeAll (es ++ es') = sizeAll es + sizeAll es' := by
  simp only [sizeAll_eq, List.map_append, List.sum_append]

/-- Taking trees apart by a test loses nothing. -/
theorem sizeAll_filter (p : Expr → Bool) (es : List Expr) :
    sizeAll (es.filter p) + sizeAll (es.filter (!p ·)) = sizeAll es := by
  induction es with
  | nil => rfl
  | cons e es ih =>
      rw [sizeAll, ← ih]
      by_cases h : p e = true
      · rw [List.filter_cons_of_pos h, List.filter_cons_of_neg (by simp [h]), sizeAll]
        omega
      · rw [List.filter_cons_of_neg h, List.filter_cons_of_pos (by simp [h]), sizeAll]
        omega

/-- No tree is empty. -/
theorem size_pos (e : Expr) : 0 < e.size := by
  cases e with
  | ref name span => rw [size_ref]; omega
  | data bytes span => rw [size_data]; omega
  | node head children => rw [size_node]; omega

end Expr

namespace Grammar

variable {ts : List Token}

/-! ## Heads -/

/-- A label is one token. -/
theorem OptionalLabel.length_eq {name : Option Label} (h : OptionalLabel name ts) :
    name.toList.length = ts.length := by
  cases h with
  | absent => rfl
  | present => rfl

/-- An argument has a token. -/
theorem Parameter.length_pos {p : Param} (h : Parameter p ts) : 0 < ts.length := by
  cases h <;> simp

/-- So there are no more arguments than tokens. -/
theorem Parameters.length_le {ps : List Param} (h : Parameters ps ts) : ps.length ≤ ts.length := by
  induction h with
  | nil => exact Nat.le_refl _
  | cons hfirst hrest ih =>
      have hpos := hfirst.length_pos
      rw [List.length_cons, List.length_append]
      omega

/-- A flat head has a token for its name besides those of its label and its
parameters. -/
theorem FlatHead.length_le {head : Head} (h : FlatHead head ts) :
    1 + (head.name.toList.length + head.params.length) ≤ ts.length := by
  cases h with
  | mk hkind hname hparams =>
      have hlabel := hname.length_eq
      have hle := hparams.length_le
      rw [List.length_cons, List.length_append]
      dsimp only
      omega

/-! ## Trees -/

/-- **Trees are no larger than the tokens that spell them.** -/
theorem Trees.size_le {es : List Expr} (h : Trees es ts) : Expr.sizeAll es ≤ ts.length := by
  refine @Trees.rec (fun e ts _ => e.size ≤ ts.length)
    (fun es ts _ => Expr.sizeAll es ≤ ts.length)
    (fun _ es ts _ => Expr.sizeAll es ≤ ts.length)
    ?ref ?data ?enclosed ?block ?conditional ?indirect ?plain ?nil ?cons ?absent ?present es ts h
  case ref =>
    intro t _
    rw [Expr.size_ref]
    exact Nat.le_refl _
  case data =>
    intro t ts pieces _
    rw [Expr.size_data, List.length_cons]
    omega
  case enclosed =>
    intro left t right name ps ps' es label leading children trailing _ _ hname hleading _
      htrailing _ hchildren
    have hlabel := hname.length_eq
    have hps := hleading.length_le
    have hps' := htrailing.length_le
    rw [Expr.size_node]
    simp only [List.length_cons, List.length_append, List.length_nil]
    omega
  case block =>
    intro head close es opening children label hhead _ _ _ _ hchildren
    have hopening := hhead.length_le
    rw [Expr.size_node]
    simp only [List.length_cons, List.length_append]
    omega
  case conditional =>
    intro head close es other opening first second label hhead _ _ _ _ _ hfirst hsecond
    have hopening := hhead.length_le
    have hsplit := Expr.sizeAll_filter (·.isSignature) es
    -- the `end` pays for the `then`
    rw [Expr.size_node, Expr.sizeAll_append, Expr.sizeAll, Expr.size_node]
    simp only [Head.plain, Option.toList_none, List.length_cons, List.length_append,
      List.length_nil]
    omega
  case indirect =>
    intro head es opening forms hhead _ _ _ hforms
    have hopening := hhead.length_le
    rw [Expr.size_node, List.length_append]
    dsimp only
    omega
  case plain =>
    intro head opening hhead _
    have hopening := hhead.length_le
    rw [Expr.size_node, Expr.sizeAll]
    omega
  case nil =>
    rw [Expr.sizeAll]
    exact Nat.le_refl _
  case cons =>
    intro e es first rest _ _ hfirst hrest
    rw [Expr.sizeAll, List.length_append]
    omega
  case absent =>
    intro name
    rw [Expr.sizeAll]
    exact Nat.le_refl _
  case present =>
    intro name t es label children _ _ _ hchildren
    rw [Expr.sizeAll, Expr.sizeAll, Expr.size_node]
    simp only [Head.plain, Option.toList_none, List.length_cons, List.length_append,
      List.length_nil]
    omega

/-- A tree is no larger than the tokens that spell it. -/
theorem Tree.size_le {e : Expr} (h : Tree e ts) : e.size ≤ ts.length := by
  have hall := (Trees.cons h .nil).size_le
  rw [Expr.sizeAll, Expr.sizeAll, List.append_nil] at hall
  exact hall

/-- No tree is spelled by no tokens. -/
theorem Tree.ne_nil {e : Expr} (h : Tree e ts) : ts ≠ [] := by
  rintro rfl
  have hsize := h.size_le
  have hpos := e.size_pos
  rw [List.length_nil] at hsize
  omega

/-- A module is no larger than its tokens, but for itself where it is not
written. -/
theorem Module.size_le {n : Node} (h : Module n ts) :
    n.toExpr.size ≤ ts.length ∨
      (∃ span, n.toHead = .plain "module" span) ∧ Expr.sizeAll n.children ≤ ts.length := by
  cases h with
  | written _ htree => exact .inl htree.size_le
  | implied hforms => exact .inr ⟨⟨_, rfl⟩, hforms.size_le⟩

end Grammar

end WasmText
