import WasmText.Proofs.Tree.Guise
import WasmText.Proofs.Instruction.Compile
/-!
# Instructions in another guise

Compiling a tree in another guise does what compiling the tree does: it
gives the same instructions and leaves the same type table, or it fails at
the same place for the same kind of reason. Names are only compared, so
new names in the tree and in what the names mean lead to the same indices;
places are only reported; and a number is read from its text alone
(`agree_compileAll`).
-/

namespace WasmText

variable {g : Guise} {α α' β β' γ γ' : Type}

/-! ## Doing the same -/

/-- Errors of the same kind, at a place and where the guise moves it. -/
inductive CompileError.Alike (g : Guise) : CompileError → CompileError → Prop where
  | unknownInstruction (name : String) (span : Span) :
    Alike g (.unknownInstruction name span) (.unknownInstruction name (g.place span))
  | unresolved (space : Space) (name name' : String) (span : Span) :
    Alike g (.unresolved space name span) (.unresolved space name' (g.place span))
  | invalidLiteral (kind : LiteralKind) (text : String) (span : Span) :
    Alike g (.invalidLiteral kind text span) (.invalidLiteral kind text (g.place span))
  | malformed (defect defect' : Defect) (span : Span) :
    Alike g (.malformed defect span) (.malformed defect' (g.place span))

/-- An error of the same kind is at the same place, moved. -/
theorem CompileError.Alike.span_eq {e e' : CompileError} (h : e.Alike g e') :
    e'.span = g.place e.span := by
  cases h <;> rfl

/-- Both succeed, with results that `f` relates, or both fail alike. -/
inductive Agree (g : Guise) (f : α → β) : Except CompileError α → Except CompileError β → Prop where
  | ok (a : α) : Agree g f (.ok a) (.ok (f a))
  | error {e e' : CompileError} (h : e.Alike g e') : Agree g f (.error e) (.error e')

namespace Agree

variable {f : α → α'} {h : β → β'} {x : Except CompileError α} {y : Except CompileError α'}

/-- Defects at the same place are alike, whatever they say. -/
theorem malformed {defect defect' : Defect} {span : Span} :
    Agree g f (.error (.malformed defect span)) (.error (.malformed defect' (g.place span))) :=
  .error (.malformed ..)

theorem ok_of_eq {a : α} {b : α'} (hb : b = f a) : Agree g f (.ok a) (.ok b) := hb ▸ .ok a

/-- Steps that do the same after steps that do the same. -/
theorem bind {k : α → Except CompileError β} {k' : α' → Except CompileError β'}
    (hx : Agree g f x y) (hk : ∀ a, Agree g h (k a) (k' (f a))) :
    Agree g h (x >>= k) (y >>= k') := by
  cases hx with
  | ok a => exact hk a
  | error he => exact .error he

/-- Results of steps that do the same may be put in other words. -/
theorem map {k : α → β} {k' : α' → β'} (hx : Agree g f x y) (hk : ∀ a, k' (f a) = h (k a)) :
    Agree g h (do return k (← x)) (do return k' (← y)) :=
  hx.bind fun a => .ok_of_eq (hk a)

/-- Going through a list does the same when every item does. -/
theorem mapM {F : α → Except CompileError β} {F' : α' → Except CompileError β'} {as : List α}
    (hF : ∀ a ∈ as, Agree g h (F a) (F' (f a))) :
    Agree g (List.map h) (as.mapM F) ((as.map f).mapM F') := by
  induction as with
  | nil => exact .ok []
  | cons a as ih =>
      rw [List.map_cons, List.mapM_cons, List.mapM_cons]
      refine (hF a List.mem_cons_self).bind fun b => ?_
      exact (ih fun c hc => hF c (List.mem_cons_of_mem a hc)).bind fun bs => .ok (b :: bs)

/-- So does going through a list with a state, which is in the other guise
all along. -/
theorem foldlM {F : β → α → Except CompileError β} {F' : β' → α' → Except CompileError β'}
    {as : List α} (hF : ∀ b, ∀ a ∈ as, Agree g h (F b a) (F' (h b) (f a))) (b : β) :
    Agree g h (as.foldlM F b) ((as.map f).foldlM F' (h b)) := by
  induction as generalizing b with
  | nil => exact .ok b
  | cons a as ih =>
      rw [List.map_cons, List.foldlM_cons, List.foldlM_cons]
      exact (hF b a List.mem_cons_self).bind fun c =>
        ih (fun b a ha => hF b a (List.mem_cons_of_mem _ ha)) c

/-- Where results are not changed, both give the same. -/
theorem eq_ok_iff {x y : Except CompileError α} (hx : Agree g id x y) {a : α} :
    y = .ok a ↔ x = .ok a := by
  cases hx with
  | ok b => exact Iff.rfl
  | error h => exact ⟨nofun, nofun⟩

end Agree

/-! ## Names -/

namespace Names

def dress (g : Guise) (names : Names) : Names :=
  ⟨names.bindings.map fun b => ((b.1.1, g.name b.1.2), b.2)⟩

/-- **Names are found as before**, since no two become the same. -/
theorem index?_dress (names : Names) (space : Space) (name : String) :
    (names.dress g).index? space (g.name name) = names.index? space name := by
  have hkey : ∀ b : (Space × String) × Nat,
      decide ((b.1.1, g.name b.1.2) = (space, g.name name)) = decide (b.1 = (space, name)) := by
    intro b
    refine decide_eq_decide.2 ?_
    rw [Prod.ext_iff, Prod.ext_iff, g.name_injective.eq_iff]
  unfold index? Scope.lookup? dress
  rw [List.find?_map, Option.map_map]
  simp only [Function.comp_def, hkey]

/-- Declaring a name and then changing how all look is changing first and
declaring the other name. -/
theorem declare_dress (names : Names) (space : Space) (name : String) (index : Nat) :
    (names.declare space name index).dress g =
      (names.dress g).declare space (g.name name) index := by
  unfold declare
  split <;> rfl

end Names

/-- Named and unnamed things, with new names. -/
def renamed (g : Guise) (names : List (Option String)) : List (Option String) :=
  names.map (Option.map g.name)

/-- The first place of a name in a list stays. -/
theorem idxOf?_renamed (names : List (Option String)) (name : String) :
    (renamed g names).idxOf? (some (g.name name)) = names.idxOf? (some name) := by
  have hname : ∀ other : Option String,
      (other.map g.name == some (g.name name)) = (other == some name) := by
    intro other
    rw [← Option.map_some, beq_eq_beq, (Option.map_injective g.name_injective).eq_iff]
  simp only [renamed, List.idxOf?, List.findIdx?_map, Function.comp_def, hname]

/-- A slot is found under its other name. -/
theorem Locals.index?_renamed (slots : Locals) (name : String) :
    Locals.index? (renamed g slots) (g.name name) = slots.index? name := by
  have hlength : (renamed g slots).length = slots.length := List.length_map _
  have hreverse : (renamed g slots).reverse = renamed g slots.reverse := List.map_reverse.symm
  rw [Locals.index?, hreverse, idxOf?_renamed, hlength, Locals.index?]

def Env.dress (g : Guise) (env : Env) : Env :=
  ⟨env.names.dress g, renamed g env.locals, renamed g env.labels⟩

theorem Env.enter_dress (env : Env) (label : Option String) :
    (env.dress g).enter (label.map g.name) = (env.enter label).dress g := rfl

/-! ## Arguments -/

/-- A name that is looked up is found in both guises or in neither. -/
theorem agree_resolved (space : Space) (name name' : String) (span : Span) (index : Option Nat) :
    Agree g id (resolved space name span index) (resolved space name' (g.place span) index) := by
  cases index with
  | none => exact .error (.unresolved ..)
  | some index => exact .ok index

/-- A literal is valid or invalid for its text alone. -/
theorem agree_orInvalid (kind : LiteralKind) (text : String) (span : Span) (value : Option α) :
    Agree g id (Literal.orInvalid kind text span value)
      (Literal.orInvalid kind text (g.place span) value) := by
  cases value with
  | none => exact .error (.invalidLiteral ..)
  | some value => exact .ok value

/-- So is the literal of a float, out of range or not. -/
theorem agree_readFloat [HexReader] (kind : LiteralKind) (format : FloatFormat) (text : String)
    (span : Span) :
    Agree g id (Literal.readFloat kind format text span)
      (Literal.readFloat kind format text (g.place span)) := by
  unfold Literal.readFloat
  split
  · exact .ok _
  · exact .error (.invalidLiteral ..)
  · exact .malformed

/-- What an argument refers to, by a name or by a number. -/
def refer (byName byText : String → Except CompileError α) (p : Param) : Except CompileError α :=
  match p.arg with
  | .label name => byName name
  | .number text => byText text
  | .hex text => byText text
  | arg => .error (.malformed (.unexpectedArgument arg) p.span)

/-- A reference by name or by number does the same where both ways do. A
number may come back in the other notation, but with its text. -/
theorem agree_refer {f : α → β} {byName byText : String → Except CompileError α}
    {byName' byText' : String → Except CompileError β} (p : Param)
    (hname : ∀ name, Agree g f (byName name) (byName' (g.name name)))
    (htext : ∀ text, Agree g f (byText text) (byText' text)) :
    Agree g f (refer byName byText p) (refer byName' byText' (p.dress g)) := by
  obtain ⟨arg, span⟩ := p
  cases arg with
  | label name => exact hname name
  | number text => rcases Param.dress_number (g := g) text span with h | h <;> exact h ▸ htext text
  | hex text => rcases Param.dress_hex (g := g) text span with h | h <;> exact h ▸ htext text
  | str bytes => exact .malformed
  | keyword key value => exact .malformed

/-- A branch has the depth that it had. -/
theorem agree_branchDepth (env : Env) (p : Param) :
    Agree g id (env.branchDepth p) ((env.dress g).branchDepth (p.dress g)) := by
  have heq : ∀ (env : Env) (p : Param), env.branchDepth p =
      refer (fun name => resolved .label name p.span (env.labels.depth? name))
        (Literal.readNatural · p.span) p := fun _ ⟨arg, _⟩ => by cases arg <;> rfl
  rw [heq, heq]
  refine agree_refer p (fun name => ?_) fun text => agree_orInvalid ..
  have hdepth : (env.dress g).labels.depth? (g.name name) = env.labels.depth? name :=
    idxOf?_renamed ..
  rw [hdepth]
  exact agree_resolved ..

/-- Every name that instructions look up is found under its other name. -/
theorem Env.index?_dress (env : Env) (space : Space) (name : String) :
    (env.dress g).index? space (g.name name) = env.index? space name := by
  unfold index?
  rw [← Names.index?_dress env.names, ← Locals.index?_renamed env.locals]
  rfl

/-- An index by name or by number is the one it was. -/
theorem agree_index (env : Env) (space : Space) (p : Param) :
    Agree g id (env.index space p) ((env.dress g).index space (p.dress g)) := by
  have heq : ∀ (env : Env) (p : Param), env.index space p =
      refer (fun name => resolved space name p.span (env.index? space name))
        (Literal.readNatural · p.span) p := fun _ ⟨arg, _⟩ => by cases arg <;> rfl
  rw [heq, heq]
  refine agree_refer p (fun name => ?_) fun text => agree_orInvalid ..
  rw [Env.index?_dress]
  exact agree_resolved ..

/-! ## Immediates -/

/-- The sole argument is the sole argument in the other guise. -/
theorem agree_soleArgument (head : Head) :
    Agree g (Param.dress g) (soleArgument head) (soleArgument (head.dress g)) := by
  unfold soleArgument
  rw [Head.dress_arguments]
  match head.arguments with
  | [] => exact .malformed
  | [p] => exact .ok p
  | _ :: _ :: _ => exact .malformed

/-- Arguments that there should not be are refused all the same. -/
theorem agree_refuseArguments (head : Head) :
    Agree g id (refuseArguments head) (refuseArguments (head.dress g)) := by
  unfold refuseArguments
  rw [Head.dress_arguments]
  cases head.arguments with
  | nil => exact .ok ()
  | cons p ps => exact .malformed

/-- A constant is read from the same text, where reading does not depend on
the place. -/
theorem agree_constantArgument (read : String → Span → Except CompileError α)
    (hread : ∀ text span, Agree g id (read text span) (read text (g.place span))) (head : Head) :
    Agree g id (constantArgument read head) (constantArgument read (head.dress g)) := by
  have heq : ∀ head : Head, constantArgument read head = (do
      let p ← soleArgument head
      refer (fun name => .error (.malformed (.unexpectedArgument (.label name)) p.span))
        (read · p.span) p) := by
    intro head
    refine bind_congr fun p => ?_
    obtain ⟨arg, span⟩ := p
    cases arg <;> rfl
  rw [heq, heq]
  refine (agree_soleArgument head).bind fun p => ?_
  exact agree_refer p (fun _ => .malformed) fun text => hread text p.span

theorem agree_alignmentExponent (bytes : Nat) (span : Span) :
    Agree g id (alignmentExponent bytes span) (alignmentExponent bytes (g.place span)) := by
  unfold alignmentExponent
  split
  · exact .ok _
  · exact .malformed

/-- An access keeps its alignment and its offset, since keywords keep their
values. -/
theorem agree_accessArguments (alignment offset : Nat) (ps : List Param) :
    Agree g id (accessArguments alignment offset ps)
      (accessArguments alignment offset (ps.map (·.dress g))) := by
  induction ps generalizing alignment offset with
  | nil => exact .ok _
  | cons p ps ih =>
      obtain ⟨arg, span⟩ := p
      match arg with
      | .keyword .offset (some text) =>
          exact (agree_orInvalid (g := g) ..).bind fun offset => ih alignment offset
      | .keyword .align (some text) =>
          exact (agree_orInvalid (g := g) ..).bind fun bytes =>
            (agree_alignmentExponent bytes span).bind fun alignment => ih alignment offset
      | .keyword .shared _ => exact .malformed
      | .keyword .funcref _ => exact .malformed
      | .keyword .offset none => exact .malformed
      | .keyword .align none => exact .malformed
      | .label name => exact .malformed
      | .str bytes => exact .malformed
      | .number text =>
          rcases Param.dress_number (g := g) text span with h | h <;>
            exact List.map_cons ▸ h ▸ .malformed
      | .hex text =>
          rcases Param.dress_hex (g := g) text span with h | h <;>
            exact List.map_cons ▸ h ▸ .malformed

/-- The targets of a branch table keep their depths. -/
theorem agree_labelArguments (env : Env) (head : Head) :
    Agree g id (labelArguments env head) (labelArguments (env.dress g) (head.dress g)) := by
  unfold labelArguments
  rw [Head.dress_arguments]
  refine (Agree.mapM fun p _ => agree_branchDepth env p).bind fun depths => ?_
  rw [List.map_id]
  cases depths.getLast? with
  | none => exact .malformed
  | some default => exact .ok _

/-- **The immediate of an instruction is the same in every guise.** -/
theorem agree_immediate [HexReader] (env : Env) (shape : Shape) (head : Head) :
    Agree g id (immediate env shape head) (immediate (env.dress g) shape (head.dress g)) := by
  have hsole := agree_soleArgument (g := g) head
  have hrefuse := agree_refuseArguments (g := g) head
  unfold immediate
  cases shape with
  | none => exact hrefuse.map fun _ => rfl
  | structured => exact hrefuse.map fun _ => rfl
  | indirect => exact hrefuse.map fun _ => rfl
  | label => exact hsole.bind fun p => (agree_branchDepth env p).map fun _ => rfl
  | labels => exact agree_labelArguments env head
  | function => exact hsole.bind fun p => (agree_index env .function p).map fun _ => rfl
  | «local» => exact hsole.bind fun p => (agree_index env .local p).map fun _ => rfl
  | global => exact hsole.bind fun p => (agree_index env .global p).map fun _ => rfl
  | access natural =>
      dsimp only
      rw [Head.dress_arguments]
      exact (agree_accessArguments natural 0 head.arguments).map fun _ => rfl
  | memory => exact hrefuse.map fun _ => rfl
  | i32 =>
      exact (agree_constantArgument Literal.readI32 (fun _ _ => agree_orInvalid ..) head).map
        fun _ => rfl
  | i64 =>
      exact (agree_constantArgument Literal.readI64 (fun _ _ => agree_orInvalid ..) head).map
        fun _ => rfl
  | f32 =>
      exact (agree_constantArgument Literal.readF32 (fun _ _ => agree_readFloat ..) head).map
        fun _ => rfl
  | f64 =>
      exact (agree_constantArgument Literal.readF64 (fun _ _ => agree_readFloat ..) head).map
        fun _ => rfl

/-! ## Signatures -/

/-- A value type is a word, which a guise leaves alone. -/
theorem agree_ofExpr (e : Expr) :
    Agree g id (ValType.ofExpr e) (ValType.ofExpr (e.dress g)) := by
  cases e with
  | ref name span => rw [Expr.dress_ref]; exact .malformed
  | data bytes span => rw [Expr.dress_data]; exact .malformed
  | node head children =>
      rw [Expr.dress_node]
      obtain ⟨instr, name, params, span⟩ := head
      match name, params, children with
      | some _, _, _ => exact .malformed
      | none, _ :: _, _ => exact .malformed
      | none, [], _ :: _ => exact .malformed
      | none, [], [] =>
          change Agree g id (ValType.ofExpr _) (ValType.ofExpr (.node ⟨instr, none, [], _⟩ []))
          simp only [ValType.ofExpr]
          cases ValType.ofName? instr with
          | none => exact .malformed
          | some type => exact .ok type

theorem agree_listOf (n : Node) :
    Agree g id (ValType.listOf n) (ValType.listOf (n.dress g)) := by
  have hall := Agree.mapM fun e (_ : e ∈ n.children) => agree_ofExpr (g := g) e
  rwa [List.map_id_fun] at hall

namespace Signature

/-- Each part of a signature spells the same types. -/
theorem agree_part (n : Node) : Agree g id (part n) (part (n.dress g)) := by
  unfold part
  rw [Node.dress_instr]
  split
  · exact (agree_listOf n).map fun _ => rfl
  · split
    · exact (agree_listOf n).map fun _ => rfl
    · exact .ok none

/-- So does the signature as a whole. -/
theorem agree_spelled (n : Node) : Agree g id (spelled n) (spelled (n.dress g)) := by
  have hall := Agree.mapM fun c (_ : c ∈ n.childNodes) => agree_part (g := g) c
  rw [List.map_id_fun, ← Node.dress_childNodes] at hall
  refine hall.bind fun parts => ?_
  dsimp only [id]
  split
  · exact .ok none
  · exact .ok _

variable (names : Names) (table : TypeTable)

/-- A type is referred to by name or by its index as before. -/
theorem agree_referred (p : Param) :
    Agree g id (referred names table p) (referred (names.dress g) table (p.dress g)) := by
  have heq : ∀ (names : Names) (p : Param), referred names table p = (do
      let index ← refer (fun name => resolved .type name p.span (names.index? .type name))
        (Literal.readNatural · p.span) p
      if index < table.count then return index
      else throw (.malformed (.unknownIndex .type index) p.span)) := by
    intro names p
    obtain ⟨arg, span⟩ := p
    cases arg <;> rfl
  rw [heq, heq]
  refine (agree_refer p (fun name => ?_) fun text => agree_orInvalid ..).bind fun index => ?_
  · rw [Names.index?_dress]
    exact agree_resolved ..
  · dsimp only [id]
    split
    · exact .ok index
    · exact .malformed

/-- A `type` form refers to the same entry. -/
theorem agree_used (use : Node) :
    Agree g id (used names table use) (used (names.dress g) table (use.dress g)) := by
  unfold used
  rw [Node.dress_toHead, Head.dress_arguments]
  match use.arguments with
  | [] => exact .malformed
  | [p] => exact agree_referred names table p
  | _ :: _ :: _ => exact .malformed

/-- What is written beside a type use agrees with it as before. -/
theorem agree_agreed (use : Node) (beside : Option FuncType) :
    Agree g id (agreed names table use beside)
      (agreed (names.dress g) table (use.dress g) beside) := by
  refine (agree_used names table use).bind fun index => ?_
  dsimp only [id]
  split
  · exact .ok index
  · exact .malformed

/-- **The signature of a form is the same in every guise.** -/
theorem agree_ofNode (n : Node) :
    Agree g id (ofNode names table n) (ofNode (names.dress g) table (n.dress g)) := by
  unfold ofNode
  refine (agree_spelled n).bind fun beside => ?_
  rw [Node.dress_child?]
  cases n.child? "type" with
  | none => exact .ok _
  | some use => exact (agree_agreed names table use beside).map fun _ => rfl

/-- It is registered under the same index, and the table grows alike. -/
theorem agree_intern (n : Node) :
    Agree g id (intern names table n) (intern (names.dress g) table (n.dress g)) := by
  refine (agree_ofNode names table n).bind fun sig => ?_
  obtain ⟨type, use⟩ := sig
  cases use with
  | none => exact .ok _
  | some index => exact .ok _

end Signature

/-! ## Bodies -/

/-- Both give the same result and the same type table, or both fail
alike. -/
def Typing.Agree (g : Guise) (x y : Typing α) : Prop :=
  ∀ t, (∃ a t', x t = .ok a t' ∧ y t = .ok a t') ∨
    ∃ e e' t₁ t₂, x t = .error e t₁ ∧ y t = .error e' t₂ ∧ e.Alike g e'

namespace Typing.Agree

theorem pure (a : α) : Typing.Agree g (pure a) (pure a) := fun t => .inl ⟨a, t, rfl, rfl⟩

theorem modifyGet (f : TypeTable → α × TypeTable) :
    Typing.Agree g (modifyGet f) (modifyGet f) := fun t => .inl ⟨(f t).1, (f t).2, rfl, rfl⟩

theorem throw {e e' : CompileError} (h : e.Alike g e') :
    Typing.Agree g (throw e : Typing α) (throw e') := fun t => .inr ⟨e, e', t, t, rfl, rfl, h⟩

/-- Steps that do the same after steps that do the same leave the same
table. -/
theorem bind {x y : Typing α} {k k' : α → Typing β} (hx : Typing.Agree g x y)
    (hk : ∀ a, Typing.Agree g (k a) (k' a)) : Typing.Agree g (x >>= k) (y >>= k') := by
  intro t
  rcases hx t with ⟨a, t', hx, hy⟩ | ⟨e, e', t₁, t₂, hx, hy, he⟩
  · rw [bind_of_ok hx, bind_of_ok hy]
    exact hk a t'
  · rw [bind_of_error hx, bind_of_error hy]
    exact .inr ⟨e, e', t₁, t₂, rfl, rfl, he⟩

/-- A step that only looks at the table does the same if what it looks up
does. -/
theorem read {x y : TypeTable → Except CompileError α} (h : ∀ t, WasmText.Agree g id (x t) (y t)) :
    Typing.Agree g (.read x) (.read y) := by
  intro t
  have ht := h t
  unfold Typing.read
  generalize x t = r at ht
  generalize y t = r' at ht
  cases ht with
  | ok a => exact .inl ⟨a, t, rfl, rfl⟩
  | error he => exact .inr ⟨_, _, t, t, rfl, rfl, he⟩

theorem check {x y : Except CompileError α} (h : WasmText.Agree g id x y) :
    Typing.Agree g (.check x) (.check y) := read fun _ => h

end Typing.Agree

/-- An indirect call has the type that it had, named, numbered or spelled
out. -/
theorem agree_callType (names : Names) (n : Node) :
    Typing.Agree g (callType names n) (callType (names.dress g) (n.dress g)) := by
  unfold callType
  rw [Node.dress_hasChild, Node.dress_toHead, Head.dress_arguments]
  match n.arguments, n.hasChild "type" with
  | [], _ =>
      refine (Typing.Agree.read fun t => Signature.agree_intern names t n).bind fun r => ?_
      exact (Typing.Agree.modifyGet fun _ => ((), r.2)).bind fun _ => .pure r.1
  | [p], false => exact .read fun t => Signature.agree_referred names t p
  | _ :: _ :: _, false => exact .throw (.malformed ..)
  | [_], true => exact .throw (.malformed ..)
  | _ :: _ :: _, true => exact .throw (.malformed ..)

namespace Node

/-- What follows the signature of a block is the same, in the other guise.
-/
theorem dress_body (n : Node) : (n.dress g).body = n.body.map (·.dress g) :=
  Expr.filter_dress (by simp) _

theorem dress_condition (n : Node) : (n.dress g).condition = n.condition.map (·.dress g) :=
  Expr.filter_dress (by simp [isCondition]) _

/-- The branches of a conditional are the same, in the other guise. -/
theorem dress_branch (n : Node) (name : String) :
    (n.dress g).branch name = (n.branch name).map (·.dress g) := by
  unfold branch
  rw [dress_child?]
  cases n.child? name <;> rfl

end Node

/-- Trees side by side compile alike when each of them does. -/
theorem agree_compileAll_of [HexReader] {env : Env} {es : List Expr}
    (h : ∀ e ∈ es, Typing.Agree g (compileExpr env e) (compileExpr (env.dress g) (e.dress g))) :
    Typing.Agree g (compileAll env es) (compileAll (env.dress g) (es.map (·.dress g))) := by
  induction es with
  | nil =>
      rw [List.map_nil, compileAll_nil, compileAll_nil]
      exact .pure []
  | cons e es ih =>
      rw [List.map_cons, compileAll_cons, compileAll_cons]
      refine (h e List.mem_cons_self).bind fun first => ?_
      exact (ih fun c hc => h c (List.mem_cons_of_mem e hc)).bind fun rest => .pure _

/-- **A tree compiles in any guise as it does.** -/
theorem agree_compileExpr [HexReader] (names : Names) (locals : Locals) (labels : Labels)
    (e : Expr) :
    Typing.Agree g (compileExpr ⟨names, locals, labels⟩ e)
      (compileExpr (Env.dress g ⟨names, locals, labels⟩) (e.dress g)) := by
  -- along the recursion of the compiler, which says under which labels a part stands
  induction labels, e using Expr.form_induction with
  | ref labels name span =>
      rw [Expr.dress_ref, compileExpr, compileExpr]
      exact .throw (.malformed ..)
  | data labels bytes span =>
      rw [Expr.dress_data, compileExpr, compileExpr]
      exact .throw (.malformed ..)
  | stray labels head children hop =>
      rw [Expr.dress_node, compileExpr, compileExpr, Head.dress_instr, hop]
      dsimp only
      unfold notAnInstruction
      rw [Head.dress_instr]
      split
      · exact .throw (.malformed ..)
      · exact .throw (.unknownInstruction ..)
  | block labels head children op hop hs hc ihbody =>
      have hbody : Node.body ⟨head.dress g, children.map (·.dress g)⟩ =
          (Node.body ⟨head, children⟩).map (·.dress g) := Node.dress_body ⟨head, children⟩
      rw [Expr.dress_node, compileExpr_block hop hs hc,
        compileExpr_block (show Opcode.ofName? (head.dress g).instr = some op from hop) hs hc,
        hbody, Head.dress_label?, Env.enter_dress]
      refine (Typing.Agree.read fun t => Signature.agree_ofNode names t ⟨head, children⟩).bind
        fun sig => (Typing.Agree.modifyGet _).bind fun block => ?_
      exact (agree_compileAll_of ihbody).bind fun body => .pure _
  | conditional labels head children hop ihcondition ihthen ihelse =>
      have hcondition : Node.condition ⟨head.dress g, children.map (·.dress g)⟩ =
          (Node.condition ⟨head, children⟩).map (·.dress g) := Node.dress_condition ⟨head, children⟩
      have hbranch : ∀ name, Node.branch ⟨head.dress g, children.map (·.dress g)⟩ name =
          (Node.branch ⟨head, children⟩ name).map (·.dress g) := Node.dress_branch ⟨head, children⟩
      have hchild : ∀ name, Node.hasChild ⟨head.dress g, children.map (·.dress g)⟩ name =
          Node.hasChild ⟨head, children⟩ name := Node.dress_hasChild ⟨head, children⟩
      rw [Expr.dress_node, compileExpr_conditional hop,
        compileExpr_conditional (show Opcode.ofName? (head.dress g).instr = _ from hop),
        hcondition, hbranch, hbranch, hchild, hchild, Head.dress_label?, Env.enter_dress]
      refine (Typing.Agree.read fun t => Signature.agree_ofNode names t ⟨head, children⟩).bind
        fun sig => (agree_compileAll_of ihcondition).bind fun condition => ?_
      split
      · refine (Typing.Agree.modifyGet _).bind fun block =>
          (agree_compileAll_of ihthen).bind fun first => ?_
        split
        · exact (agree_compileAll_of ihelse).bind fun second => .pure _
        · exact .pure _
      · exact .throw (.malformed ..)
  | indirect labels head children op hop hs ihbody =>
      have hbody : Node.body ⟨head.dress g, children.map (·.dress g)⟩ =
          (Node.body ⟨head, children⟩).map (·.dress g) := Node.dress_body ⟨head, children⟩
      rw [Expr.dress_node, compileExpr_indirect hop hs,
        compileExpr_indirect (show Opcode.ofName? (head.dress g).instr = some op from hop) hs, hbody]
      refine (agree_callType names ⟨head, children⟩).bind fun type => ?_
      exact (agree_compileAll_of ihbody).bind fun operands => .pure _
  | plain labels head children op hop hs ihchildren =>
      rw [Expr.dress_node, compileExpr_plain hop hs,
        compileExpr_plain (show Opcode.ofName? (head.dress g).instr = some op from hop) hs]
      refine (agree_compileAll_of ihchildren).bind fun operands => ?_
      exact (Typing.Agree.check (agree_immediate _ _ head)).bind fun operand => .pure _

/-- **A body compiles in any guise as it does.** -/
theorem agree_compileAll [HexReader] (env : Env) (es : List Expr) :
    Typing.Agree g (compileAll env es) (compileAll (env.dress g) (es.map (·.dress g))) :=
  agree_compileAll_of fun e _ => agree_compileExpr env.names env.locals env.labels e

end WasmText
