import WasmText.Proofs.Instruction.CallType
import WasmText.Proofs.Module.Declared
import WasmText.Proofs.Module.Groups
import WasmText.Proofs.Tree.Heads
/-!
# What segments hold

A module has its segments in the order of their fields. What one holds is
written around the form of its offset, as parameters before it, as children
after it, and as parameters again behind these. A tree keeps the parameters
together, so the children come first, and then what was written before the
offset (`segments_in_order`, `string_before_offset`).
-/

namespace WasmText

/-! ## Fields -/

namespace Node

/-- The fields of a module that declare data segments. -/
def dataFields (n : Node) : List Node := n.childNodes.filter (·.instr = "data")

/-- The fields of a module that declare element segments. -/
def elementFields (n : Node) : List Node := n.childNodes.filter (·.instr = "elem")

/-- That a data segment holds what a field says: the strings among the
children after the offset, and then those among the parameters. -/
def GivesData (field : Node) (s : Segment UInt8) : Prop :=
  ∃ offset rest inner outer, field.children = offset :: rest ∧
    List.Forall₂ (fun e bytes => Draft.childBytes e = .ok bytes) rest inner ∧
    List.Forall₂ (fun p bytes => Draft.paramBytes p = .ok bytes) field.params outer ∧
    s.contents = inner.flatten ++ outer.flatten

/-- That an element segment holds what a field says, in the same order. -/
def GivesElement (field : Node) (s : Element) : Prop :=
  ∃ offset rest inner outer, field.children = offset :: rest ∧
    List.Forall₂ (fun e targets => Draft.elementTargets e = .ok targets) rest inner ∧
    List.Forall₂ (fun p target => Target.ofParam p = .ok target) field.params outer ∧
    s.functions = inner.flatten ++ outer

end Node

namespace Draft

variable {d d' : Draft} {n : Node}

/-- The offset of a segment is its first child, and collects nothing. -/
theorem segmentOffset_outward [HexReader] {offset : List UInt8} {rest : List Expr}
    (h : d.segmentOffset n = .ok (offset, rest, d')) :
    d'.outward = d.outward ∧ ∃ e, n.children = e :: rest := by
  unfold segmentOffset at h
  split at h
  next head children rest' hchildren =>
    obtain ⟨⟨bytes, d₁⟩, hconstant, h⟩ := bind_eq_ok.1 h
    cases pure_eq_ok.1 h
    exact ⟨outward_constant hconstant, _, hchildren⟩
  next => exact absurd h throw_ne_ok

/-- A data field adds one segment, which holds its strings. -/
theorem declareData_gives [HexReader] (h : d.declareData n = .ok d') :
    ∃ s, d'.outward = { d.outward with data := d.data ++ [s] } ∧ n.GivesData s := by
  obtain ⟨⟨offset, rest, d₁⟩, hoffset, h⟩ := bind_eq_ok.1 h
  obtain ⟨inner, hinner, h⟩ := bind_eq_ok.1 h
  obtain ⟨outer, houter, h⟩ := bind_eq_ok.1 h
  obtain rfl := pure_eq_ok.1 h
  obtain ⟨hsame, e, hchildren⟩ := segmentOffset_outward hoffset
  let s : Segment UInt8 := ⟨offset, inner.flatten ++ outer.flatten⟩
  refine ⟨s, ?_, e, rest, inner, outer, hchildren, mapM_eq_ok.1 hinner, mapM_eq_ok.1 houter, rfl⟩
  exact congrArg (fun o : Outward => { o with data := o.data ++ [s] }) hsame

/-- An element field adds one segment, which holds its targets. -/
theorem declareElement_gives [HexReader] (h : d.declareElement n = .ok d') :
    ∃ s, d'.outward = { d.outward with elements := d.elements ++ [s] } ∧ n.GivesElement s := by
  obtain ⟨⟨offset, rest, d₁⟩, hoffset, h⟩ := bind_eq_ok.1 h
  obtain ⟨inner, hinner, h⟩ := bind_eq_ok.1 h
  obtain ⟨outer, houter, h⟩ := bind_eq_ok.1 h
  obtain rfl := pure_eq_ok.1 h
  obtain ⟨hsame, e, hchildren⟩ := segmentOffset_outward hoffset
  let s : Element := ⟨offset, inner.flatten ++ outer, n.span⟩
  refine ⟨s, ?_, e, rest, inner, outer, hchildren, mapM_eq_ok.1 hinner, mapM_eq_ok.1 houter, rfl⟩
  exact congrArg (fun o : Outward => { o with elements := o.elements ++ [s] }) hsame

/-- That the second draft has the segments of some fields more than the
first. -/
def Segmented (d d' : Draft) (fields : List Node) : Prop :=
  ∃ data elements, d'.data = d.data ++ data ∧ d'.elements = d.elements ++ elements ∧
    List.Forall₂ Node.GivesData (fields.filter (·.instr = "data")) data ∧
    List.Forall₂ Node.GivesElement (fields.filter (·.instr = "elem")) elements

theorem Segmented.refl (d : Draft) : d.Segmented d [] :=
  ⟨[], [], (List.append_nil _).symm, (List.append_nil _).symm, .nil, .nil⟩

/-- The segments of fields are those of the first ones, then those of the
rest. -/
theorem Segmented.trans {d'' : Draft} {fields fields' : List Node} (h : d.Segmented d' fields)
    (h' : d'.Segmented d'' fields') : d.Segmented d'' (fields ++ fields') := by
  obtain ⟨data, elements, hdata, helements, hgives, hgives'⟩ := h
  obtain ⟨more, more', hmore, hmore', hthen, hthen'⟩ := h'
  refine ⟨data ++ more, elements ++ more', ?_, ?_, ?_, ?_⟩
  · rw [hmore, hdata, List.append_assoc]
  · rw [hmore', helements, List.append_assoc]
  · rw [List.filter_append]
    exact List.rel_append hgives hthen
  · rw [List.filter_append]
    exact List.rel_append hgives' hthen'

end Draft

namespace Progress

variable {p p' : Progress} {n : Node}

/-- The same declarations, with nothing collected for the end. -/
def bare (p : Progress) : Progress :=
  ⟨{ p.draft with exports := [], start := none, elements := [], data := [] }, p.bodies⟩

/-- A progress is its bare one, with what it has collected put back. -/
theorem behind_bare (p : Progress) : p.bare.behind p.draft.outward [] = p := by
  simp [bare, behind, Draft.behind, Draft.outward]

/-- What a field collects is what it would collect alone. -/
theorem exists_bare_of_declare [HexReader] {e : Expr} (h : p.declare e = .ok p') :
    ∃ q, p.bare.declare e = .ok q ∧ p' = q.behind p.draft.outward [] := by
  have hsame := declare_behind p.draft.outward [] p.bare e
  rw [behind_bare, h] at hsame
  cases hq : p.bare.declare e with
  | error fault =>
      rw [hq] at hsame
      cases hsame
  | ok q =>
      rw [hq] at hsame
      exact ⟨q, rfl, Except.ok.inj hsame⟩

/-- A field of another kind adds no segment. -/
theorem segments_of_other [HexReader] {e : Expr} (h : p.declare e = .ok p')
    (hnode : e.node? = some n) (hdata : n.instr ≠ "data") (helem : n.instr ≠ "elem") :
    p'.draft.data = p.draft.data ∧ p'.draft.elements = p.draft.elements := by
  obtain ⟨q, hq, rfl⟩ := exists_bare_of_declare h
  obtain ⟨field, hfield, brought, htakes, hwritten⟩ := brings_of_declare hq
  obtain rfl := Option.some.inj (hnode.symm.trans hfield)
  -- alone, the field brings no offset of a segment, and so it collects none
  have hall := hwritten _ _ List.prefix_rfl (Names.mean_meaning _ _)
  have hoffsets : brought.data = [] := by
    have hbrought := hall.data
    rwa [List.filterMap_cons, offset?_eq_none hdata, List.filterMap_nil,
      List.forall₂_nil_left_iff] at hbrought
  have hoffsets' : brought.elements = [] := by
    have hbrought := hall.elements
    rwa [List.filterMap_cons, offset?_eq_none helem, List.filterMap_nil,
      List.forall₂_nil_left_iff] at hbrought
  have hnone : q.draft.data = [] := by
    have hinventory := congrArg Inventory.data htakes.inventory
    rw [Inventory.append, hoffsets] at hinventory
    exact List.map_eq_nil_iff.1 hinventory
  have hnone' : q.draft.elements = [] := by
    have hinventory := congrArg Inventory.elements htakes.inventory
    rw [Inventory.append, hoffsets'] at hinventory
    exact List.map_eq_nil_iff.1 hinventory
  constructor
  · change p.draft.data ++ q.draft.data = _
    rw [hnone, List.append_nil]
  · change p.draft.elements ++ q.draft.elements = _
    rw [hnone', List.append_nil]

/-- **Every field adds its own segment**, or none. -/
theorem segmented_of_declare [HexReader] {e : Expr} (h : p.declare e = .ok p') :
    ∃ n, e.node? = some n ∧ p.draft.Segmented p'.draft [n] := by
  obtain ⟨n, hnode, -⟩ := brings_of_declare h
  refine ⟨n, hnode, ?_⟩
  by_cases hdata : n.instr = "data"
  · have hstep : p.declare e = p.onDraft Draft.declareData n := by
      rw [declare, hnode]
      simp [hdata]
    obtain ⟨d, hd, rfl⟩ := onDraft_eq_ok.1 (hstep ▸ h)
    obtain ⟨s, houtward, hgives⟩ := Draft.declareData_gives hd
    refine ⟨[s], [], congrArg Outward.data houtward, ?_, ?_, ?_⟩
    · rw [List.append_nil]
      exact congrArg Outward.elements houtward
    · simpa [hdata] using hgives
    · simp [hdata]
  · by_cases helem : n.instr = "elem"
    · have hstep : p.declare e = p.onDraft Draft.declareElement n := by
        rw [declare, hnode]
        simp [helem]
      obtain ⟨d, hd, rfl⟩ := onDraft_eq_ok.1 (hstep ▸ h)
      obtain ⟨s, houtward, hgives⟩ := Draft.declareElement_gives hd
      refine ⟨[], [s], ?_, congrArg Outward.elements houtward, ?_, ?_⟩
      · rw [List.append_nil]
        exact congrArg Outward.data houtward
      · simp [helem]
      · simpa [helem] using hgives
    · obtain ⟨hsame, hsame'⟩ := segments_of_other h hnode hdata helem
      refine ⟨[], [], ?_, ?_, ?_, ?_⟩
      · rw [hsame, List.append_nil]
      · rw [hsame', List.append_nil]
      · simp [hdata]
      · simp [helem]

/-- **All fields together** add their segments in order. -/
theorem segmented_of_foldlM [HexReader] {es : List Expr} (h : es.foldlM declare p = .ok p') :
    p.draft.Segmented p'.draft (es.filterMap Expr.node?) := by
  refine foldlM_prefix_induction
    (P := fun es q => p.draft.Segmented q.draft (es.filterMap Expr.node?)) ?_ (.refl p.draft) h
  intro before e after q q' _ hbefore hstep
  obtain ⟨n, hnode, hfield⟩ := segmented_of_declare hstep
  rw [List.filterMap_append, List.filterMap_cons_some hnode]
  exact hbefore.trans hfield

end Progress

/-- **The segments of a draft** are those of its fields. -/
theorem Draft.segments_of_ofNode [HexReader] {n : Node} {d : Draft} (h : ofNode n = .ok d) :
    List.Forall₂ Node.GivesData n.dataFields d.data ∧
      List.Forall₂ Node.GivesElement n.elementFields d.elements := by
  obtain ⟨-, progress, hprogress, hbodies⟩ := ofNode_eq_ok.1 h
  obtain ⟨typed, htyped, hfields⟩ := bind_eq_ok.1 hprogress
  have hnone := (named_of_foldlM htyped).inventory
  have hfilled := filled_of_foldlM hbodies
  obtain ⟨data, elements, hdata, helements, hgives, hgives'⟩ := Progress.segmented_of_foldlM hfields
  have hempty : typed.data = [] := List.map_eq_nil_iff.1 (congrArg Inventory.data hnone)
  have hempty' : typed.elements = [] := List.map_eq_nil_iff.1 (congrArg Inventory.elements hnone)
  rw [hfilled.data, hfilled.elements, hdata, helements, hempty, hempty']
  exact ⟨hgives, hgives'⟩

/-! ## Tokens -/

namespace Grammar

open WasmText.Parser (trimEquals dropSeparators)

/-- The tokens of a form in parentheses, part by part: of its label, of the
parameters before its children, of the children, and of the parameters after
these. -/
inductive Enclosed (head : Head) :
    List Token → List Token → List Token → List Token → List Token → Prop where
  | mk {left t right : Token} {ps ps' : List Param} {label leading children trailing : List Token}
      (hleft : left.kind = .leftParen) (hword : head.instr = trimEquals t.value)
      (hname : OptionalLabel head.name label) (hparams : head.params = ps ++ ps')
      (hleading : Parameters ps leading) (htrailing : Parameters ps' trailing)
      (hright : right.kind = .rightParen) :
    Enclosed head (left :: t :: (label ++ leading ++ children ++ trailing ++ [right])) label leading
      children trailing

/-- The tokens of a segment, with those that stand before its offset, those
of the children after it, and those after the children. -/
def Surrounds (field : Node) (ts before among after : List Token) : Prop :=
  ∃ offset rest own label, field.children = offset :: rest ∧ Tree offset own ∧ Trees rest among ∧
    Enclosed field.toHead ts label before (own ++ among) after

/-- The tokens of a child of an element segment that refer to functions: a
name, or what stands beside the word of a `func` form. What is inside such a
form is passed over. -/
inductive Mentions : Expr → List Token → List Token → Prop where
  | name {t : Token} (hkind : t.kind = .label) : Mentions (.ref t.value t.span) [t] [t]
  | flat {head : Head} {t : Token} {refs : List Token} (hinstr : head.instr = "func")
      (hhead : FlatHead head (t :: refs)) : Mentions (.node head []) (t :: refs) refs
  | enclosed {head : Head} {es : List Expr} {ts label leading inside trailing : List Token}
      (hinstr : head.instr = "func") (hinside : Trees es inside)
      (hform : Enclosed head ts label leading inside trailing) :
    Mentions (.node head es) ts (label ++ (leading ++ trailing))

/-- The tokens that refer to functions, over children one after another. -/
inductive MentionsAll : List Expr → List Token → List Token → Prop where
  | nil : MentionsAll [] [] []
  | cons {e : Expr} {es : List Expr} {ts ts' refs refs' : List Token} (hfirst : Mentions e ts refs)
      (hrest : MentionsAll es ts' refs') : MentionsAll (e :: es) (ts ++ ts') (refs ++ refs')

variable {ts : List Token}

/-- A tree among others has its own tokens, which stand together. -/
theorem Trees.exists_own {es : List Expr} (h : Trees es ts) {e : Expr} (he : e ∈ es) :
    ∃ own, own <:+: ts ∧ Tree e own := by
  induction es generalizing ts with
  | nil => cases he
  | cons first es ih =>
      cases h with
      | cons hfirst hrest =>
          rcases List.mem_cons.1 he with rfl | he
          · exact ⟨_, (List.prefix_append _ _).isInfix, hfirst⟩
          · obtain ⟨own, hown, htree⟩ := ih hrest he
            exact ⟨own, hown.trans (List.suffix_append _ _).isInfix, htree⟩

/-- The words of the flat forms that have children. -/
def flatWords : List String := ["block", "loop", "if", "call_indirect"]

/-- Any other form has children in parentheses only. -/
theorem Tree.flat_or_enclosed {head : Head} {es : List Expr} (h : Tree (.node head es) ts)
    (hinstr : head.instr ∉ flatWords) :
    es = [] ∧ FlatHead head ts ∨ ∃ label leading children trailing,
      Trees es children ∧ Enclosed head ts label leading children trailing := by
  cases h with
  | enclosed hleft _ hname hleading hchildren htrailing hright =>
      exact .inr ⟨_, _, _, _, hchildren, .mk hleft rfl hname rfl hleading htrailing hright⟩
  | block _ hword =>
      refine absurd ?_ hinstr
      rcases hword with hword | hword <;> simp [flatWords, hword]
  | conditional _ hword => exact absurd (by simp [flatWords, hword]) hinstr
  | indirect _ hword => exact absurd (by simp [flatWords, hword]) hinstr
  | plain hhead => exact .inl ⟨rfl, hhead⟩

/-- The tokens of the children stand together inside a form. -/
theorem Enclosed.isInfix {head : Head} {label leading children trailing : List Token}
    (h : Enclosed head ts label leading children trailing) : children <:+: ts := by
  cases h with
  | @mk left t right =>
      refine List.infix_cons (List.infix_cons ?_)
      rw [List.append_assoc (label ++ leading ++ children)]
      exact List.infix_append _ _ _

/-- The tokens of a field stand together in those of its module. -/
theorem Module.exists_own {n : Node} (h : Module n ts) {e : Expr} (he : e ∈ n.children) :
    ∃ own, own <:+: ts ∧ Tree e own := by
  cases h with
  | written hinstr htree =>
      rcases htree.flat_or_enclosed (hinstr ▸ by decide) with ⟨hnil, -⟩ | ⟨_, _, _, _, hall, hform⟩
      · rw [hnil] at he
        cases he
      · obtain ⟨own, hown, htree⟩ := hall.exists_own he
        exact ⟨own, hown.trans hform.isInfix, htree⟩
  | implied hforms => exact hforms.exists_own he

/-- **A segment is a form in parentheses**, since it has an offset. -/
theorem Tree.exists_surrounds {field : Node} (h : Tree field.toExpr ts)
    (hinstr : field.instr ∉ flatWords) {offset : Expr} {rest : List Expr}
    (hchildren : field.children = offset :: rest) :
    ∃ before among after, Trees rest among ∧ Surrounds field ts before among after := by
  rcases h.flat_or_enclosed hinstr with ⟨hnil, -⟩ | ⟨label, before, children, after, hall, hform⟩
  · rw [hnil] at hchildren
    cases hchildren
  · rw [hchildren] at hall
    cases hall with
    | @cons _ _ own among hoffset hrest =>
        exact ⟨before, among, after, hrest, offset, rest, own, label, hchildren, hoffset, hrest, hform⟩

/-- What stands around an offset keeps its order. -/
theorem Surrounds.sublist {field : Node} {before among after : List Token}
    (h : Surrounds field ts before among after) : (before ++ among).Sublist ts := by
  obtain ⟨offset, rest, own, label, -, -, -, hform⟩ := h
  cases hform with
  | @mk left t right =>
      refine .cons _ (.cons _ ?_)
      rw [List.append_assoc label, List.append_assoc, List.append_assoc]
      refine .trans ?_ (List.sublist_append_right label _)
      rw [List.append_assoc]
      exact (List.Sublist.refl before).append
        ((List.sublist_append_right own among).trans (List.sublist_append_left _ _))

theorem Mentions.sublist {e : Expr} {refs : List Token} (h : Mentions e ts refs) :
    refs.Sublist ts := by
  cases h with
  | name => exact .refl _
  | flat => exact .cons _ (.refl _)
  | @enclosed head es _ label leading inside trailing _ _ hform =>
      cases hform with
      | @mk left t right =>
          refine .cons _ (.cons _ (.trans ?_ (List.sublist_append_left _ [right])))
          rw [← List.append_assoc]
          exact (List.sublist_append_left _ inside).append (.refl trailing)

/-- The tokens mentioned are in the order of the source. -/
theorem MentionsAll.sublist {es : List Expr} {refs : List Token} (h : MentionsAll es ts refs) :
    refs.Sublist ts := by
  induction h with
  | nil => exact .refl _
  | cons hfirst _ ih => exact hfirst.sublist.append ih

/-! ## Strings -/

/-- Parameters of one token each, where a reading of them says what the
token is. -/
theorem Parameters.forall₂ {β : Type} {read : Param → Except CompileError β} {R : Token → β → Prop}
    (hread : ∀ p own b, Parameter p own → read p = .ok b → ∃ t, own = [t] ∧ R t b)
    {ps : List Param} (h : Parameters ps ts) {bs : List β}
    (hall : List.Forall₂ (fun p b => read p = .ok b) ps bs) : List.Forall₂ R ts bs := by
  induction h generalizing bs with
  | nil =>
      cases hall
      exact .nil
  | cons hfirst _ ih =>
      obtain ⟨b, bs, hb, hbs, rfl⟩ := List.forall₂_cons_left_iff.1 hall
      obtain ⟨t, rfl, ht⟩ := hread _ _ b hfirst hb
      exact .cons ht (ih hbs)

/-- A parameter that gives bytes is one string token. -/
theorem Parameter.denotes {p : Param} {own : List Token} {bytes : List UInt8} (h : Parameter p own)
    (hbytes : Draft.paramBytes p = .ok bytes) : ∃ t, own = [t] ∧ Denotes t bytes := by
  cases h with
  | string hdenotes =>
      obtain rfl := Except.ok.inj hbytes
      exact ⟨_, rfl, hdenotes⟩
  | number | hex | label | keyword | setting => cases hbytes

theorem Tree.denotes {e : Expr} {bytes : List UInt8} (h : Tree e ts)
    (hbytes : Draft.childBytes e = .ok bytes) :
    ∃ pieces, List.Forall₂ Denotes ts pieces ∧ bytes = pieces.flatten := by
  cases h with
  | data hpieces => exact ⟨_, hpieces, (Except.ok.inj hbytes).symm⟩
  | ref | enclosed | block | conditional | indirect | plain => cases hbytes

/-- The bytes of children are those of their tokens, in order. -/
theorem Trees.denotes {es : List Expr} {inner : List (List UInt8)} (h : Trees es ts)
    (hinner : List.Forall₂ (fun e bytes => Draft.childBytes e = .ok bytes) es inner) :
    ∃ pieces, List.Forall₂ Denotes ts pieces ∧ inner.flatten = pieces.flatten := by
  induction hinner generalizing ts with
  | nil =>
      cases h
      exact ⟨[], .nil, rfl⟩
  | cons hbytes _ ih =>
      cases h with
      | cons hfirst hrest =>
          obtain ⟨pieces, hpieces, rfl⟩ := hfirst.denotes hbytes
          obtain ⟨more, hmore, hflat⟩ := ih hrest
          refine ⟨pieces ++ more, List.rel_append hpieces hmore, ?_⟩
          rw [List.flatten_cons, hflat, List.flatten_append]

end Grammar

/-! ## References -/

/-- The target that a token stands for: a name, or a number without its
separators. -/
def Token.Targets (t : Token) : Target → Prop
  | .name name _ => t.kind = .label ∧ t.value = name
  | .index i _ => (t.kind = .number ∨ t.kind = .hex) ∧
      Literal.DenotesNatural (Parser.dropSeparators t.value).toList i

/-- The function that a token refers to: the one of that name, or the one of
that number. -/
def Token.RefersTo (d : Draft) (t : Token) (i : Nat) : Prop :=
  t.kind = .label ∧ d.names.index? .function t.value = some i ∨
    (t.kind = .number ∨ t.kind = .hex) ∧
      Literal.DenotesNatural (Parser.dropSeparators t.value).toList i ∧ i < d.functions.length

/-- A token refers to the function that its target resolves to. -/
theorem Token.Targets.refersTo {d : Draft} {t : Token} {target : Target} {i : Nat}
    (h : t.Targets target) (hresolve : d.resolve .function target = .ok i) : t.RefersTo d i := by
  cases target with
  | name name span =>
      obtain ⟨hkind, rfl⟩ := h
      exact .inl ⟨hkind, resolved_eq_ok.1 hresolve⟩
  | index index span =>
      rw [Draft.resolve] at hresolve
      split at hresolve
      next hlt =>
        obtain rfl := Except.ok.inj hresolve
        exact .inr ⟨h.1, h.2, hlt⟩
      next => cases hresolve

namespace Grammar

variable {ts : List Token}

theorem OptionalLabel.targets {name : Option Label} (h : OptionalLabel name ts) :
    List.Forall₂ Token.Targets ts
      (name.map fun label => Target.name label.name label.span).toList := by
  cases h with
  | absent => exact .nil
  | present hkind => exact .cons ⟨hkind, rfl⟩ .nil

/-- A parameter that gives a target is one token. -/
theorem Parameter.targets {p : Param} {own : List Token} {target : Target} (h : Parameter p own)
    (htarget : Target.ofParam p = .ok target) : ∃ t, own = [t] ∧ t.Targets target := by
  cases h with
  | number hkind =>
      obtain ⟨i, hi, htarget⟩ := bind_eq_ok.1 htarget
      obtain rfl := pure_eq_ok.1 htarget
      exact ⟨_, rfl, .inl hkind, (Literal.natural?_eq_some.1 (Literal.readNatural_eq_ok.1 hi)).1⟩
  | hex hkind =>
      obtain ⟨i, hi, htarget⟩ := bind_eq_ok.1 htarget
      obtain rfl := pure_eq_ok.1 htarget
      exact ⟨_, rfl, .inr hkind, (Literal.natural?_eq_some.1 (Literal.readNatural_eq_ok.1 hi)).1⟩
  | label hkind =>
      obtain rfl := Except.ok.inj htarget
      exact ⟨_, rfl, hkind, rfl⟩
  | string | keyword | setting => cases htarget

theorem Parameters.targets {ps : List Param} (h : Parameters ps ts) {targets : List Target}
    (hall : List.Forall₂ (fun p target => Target.ofParam p = .ok target) ps targets) :
    List.Forall₂ Token.Targets ts targets :=
  h.forall₂ (fun _ _ _ => Parameter.targets) hall

theorem Parameters.append {ps ps' : List Param} {ts' : List Token} (h : Parameters ps ts)
    (h' : Parameters ps' ts') : Parameters (ps ++ ps') (ts ++ ts') := by
  induction h with
  | nil => exact h'
  | cons hfirst _ ih =>
      rw [List.cons_append, List.append_assoc]
      exact .cons hfirst ih

/-- Only a `func` form has targets, the name of its label first. -/
theorem elementTargets_node {head : Head} {es : List Expr} {targets : List Target}
    (h : Draft.elementTargets (.node head es) = .ok targets) :
    head.instr = "func" ∧ ∃ outer,
      List.Forall₂ (fun p target => Target.ofParam p = .ok target) head.params outer ∧
      targets = (head.name.map fun label => Target.name label.name label.span).toList ++ outer := by
  rw [Draft.elementTargets] at h
  split at h
  next hinstr =>
    obtain ⟨outer, houter, h⟩ := bind_eq_ok.1 h
    exact ⟨hinstr, outer, mapM_eq_ok.1 houter, (pure_eq_ok.1 h).symm⟩
  next => exact absurd h throw_ne_ok

/-- **What a child of an element segment refers to** are the tokens that it
mentions. -/
theorem Tree.mentions {e : Expr} {targets : List Target} (h : Tree e ts)
    (htargets : Draft.elementTargets e = .ok targets) :
    ∃ refs, Mentions e ts refs ∧ List.Forall₂ Token.Targets refs targets := by
  cases e with
  | ref name span =>
      obtain rfl := Except.ok.inj htargets
      cases h with
      | ref hkind => exact ⟨_, .name hkind, .cons ⟨hkind, rfl⟩ .nil⟩
  | data => cases htargets
  | node head es =>
      obtain ⟨hinstr, outer, houter, rfl⟩ := elementTargets_node htargets
      rcases h.flat_or_enclosed (hinstr ▸ by decide) with
        ⟨rfl, hhead⟩ | ⟨label, leading, inside, trailing, hinside, hform⟩
      · cases hhead with
        | mk hkind hname hparams =>
            exact ⟨_, .flat hinstr (.mk hkind hname hparams),
              List.rel_append hname.targets (hparams.targets houter)⟩
      · refine ⟨_, .enclosed hinstr hinside hform, ?_⟩
        cases hform with
        | mk hleft hword hname hparams hleading htrailing hright =>
            rw [hparams] at houter
            exact List.rel_append hname.targets ((hleading.append htrailing).targets houter)

/-- The targets of children are the tokens mentioned, in order. -/
theorem Trees.mentions {es : List Expr} {inner : List (List Target)} (h : Trees es ts)
    (hinner : List.Forall₂ (fun e targets => Draft.elementTargets e = .ok targets) es inner) :
    ∃ refs, MentionsAll es ts refs ∧ List.Forall₂ Token.Targets refs inner.flatten := by
  induction hinner generalizing ts with
  | nil =>
      cases h
      exact ⟨[], .nil, .nil⟩
  | cons htargets _ ih =>
      cases h with
      | cons hfirst hrest =>
          obtain ⟨refs, hrefs, hall⟩ := hfirst.mentions htargets
          obtain ⟨more, hmore, hthen⟩ := ih hrest
          exact ⟨refs ++ more, .cons hrefs hmore, List.rel_append hall hthen⟩

end Grammar

/-! ## Sources -/

/-- Moving items behind others keeps the order exactly if there are none to
move, or none to move them behind. -/
theorem moved_eq_iff {α : Type} {before among : List α} (h : (before ++ among).Nodup)
    (after : List α) :
    among ++ (before ++ after) = before ++ (among ++ after) ↔ before = [] ∨ among = [] := by
  constructor
  · intro heq
    cases before with
    | nil => exact .inl rfl
    | cons b before =>
        cases among with
        | nil => exact .inr rfl
        | cons a among =>
            -- the first of each would be one item, which stands there twice
            obtain ⟨rfl, -⟩ := List.cons.inj heq
            exact absurd List.mem_cons_self ((List.nodup_cons.1 h).1 ∘ List.mem_append_right _)
  · rintro (rfl | rfl)
    · rfl
    · rfl

theorem Token.Ascending.nodup {ts : List Token} (h : Ascending ts) : ts.Nodup := by
  refine List.Pairwise.imp ?_ h
  rintro t u hlt rfl
  exact Nat.lt_irrefl _ hlt

namespace Node

/-- That a data segment holds the strings of a field with the given tokens:
those after the offset first, and then those before it. This is the order
of the source exactly if there are none on one of the two sides. -/
def HoldsStrings (field : Node) (ts : List Token) (s : Segment UInt8) : Prop :=
  ∃ before among after pieces, Grammar.Surrounds field ts before among after ∧
    List.Forall₂ Grammar.Denotes (among ++ (before ++ after)) pieces ∧ s.contents = pieces.flatten ∧
    (among ++ (before ++ after) = before ++ (among ++ after) ↔ before = [] ∨ among = [])

/-- That an element segment holds the functions that a field with the given
tokens refers to, in the same order. -/
def HoldsFunctions (field : Node) (d : Draft) (ts : List Token) (s : Segment Nat) : Prop :=
  ∃ before among after refs, Grammar.Surrounds field ts before among after ∧
    Grammar.MentionsAll field.children.tail among refs ∧
    List.Forall₂ (Token.RefersTo d) (refs ++ (before ++ after)) s.contents ∧
    (refs ++ (before ++ after) = before ++ (refs ++ after) ↔ before = [] ∨ refs = [])

variable {field : Node} {ts : List Token}

/-- A data segment holds the strings of its field. -/
theorem holdsStrings_of_gives (hinstr : field.instr = "data") (htree : Grammar.Tree field.toExpr ts)
    (hts : Token.Ascending ts) {s : Segment UInt8} (h : field.GivesData s) :
    field.HoldsStrings ts s := by
  obtain ⟨offset, rest, inner, outer, hchildren, hinner, houter, hcontents⟩ := h
  obtain ⟨before, among, after, hrest, hsurrounds⟩ :=
    htree.exists_surrounds (hinstr ▸ by decide) hchildren
  obtain ⟨pieces, hpieces, hflat⟩ := hrest.denotes hinner
  refine ⟨before, among, after, pieces ++ outer, hsurrounds, List.rel_append hpieces ?_, ?_,
    moved_eq_iff (hts.nodup.sublist hsurrounds.sublist) after⟩
  · obtain ⟨_, _, _, _, -, -, -, hform⟩ := hsurrounds
    cases hform with
    | mk _ _ _ hparams hleading htrailing _ =>
        rw [hparams] at houter
        exact (hleading.append htrailing).forall₂ (fun _ _ _ => Grammar.Parameter.denotes) houter
  · rw [hcontents, hflat, List.flatten_append]

/-- An element segment holds the functions that its field refers to. -/
theorem holdsFunctions_of_gives (hinstr : field.instr = "elem")
    (htree : Grammar.Tree field.toExpr ts) (hts : Token.Ascending ts) {d : Draft} {e : Element}
    (h : field.GivesElement e) {s : Segment Nat} (hresolve : List.Forall₂ (fun target index =>
      d.resolve .function target = .ok index) e.functions s.contents) :
    field.HoldsFunctions d ts s := by
  obtain ⟨offset, rest, inner, outer, hchildren, hinner, houter, hfunctions⟩ := h
  obtain ⟨before, among, after, hrest, hsurrounds⟩ :=
    htree.exists_surrounds (hinstr ▸ by decide) hchildren
  obtain ⟨refs, hrefs, htargets⟩ := hrest.mentions hinner
  have hnodup : (before ++ refs).Nodup :=
    hts.nodup.sublist (((List.Sublist.refl before).append hrefs.sublist).trans hsurrounds.sublist)
  refine ⟨before, among, after, refs, hsurrounds, by rwa [hchildren], ?_, moved_eq_iff hnodup after⟩
  have hall : List.Forall₂ Token.Targets (refs ++ (before ++ after)) e.functions := by
    obtain ⟨_, _, _, _, -, -, -, hform⟩ := hsurrounds
    cases hform with
    | mk _ _ _ hparams hleading htrailing _ =>
        rw [hparams] at houter
        rw [hfunctions]
        exact List.rel_append htargets ((hleading.append htrailing).targets houter)
  refine (forall₂_comp hall hresolve).imp ?_
  rintro t i ⟨target, htarget, hi⟩
  exact htarget.refersTo hi

end Node

/-- The tokens of a field stand together in its source. -/
theorem exists_tokens_of_parse {source : String} {n : Node} (h : parse source = .ok n) {field : Node}
    (hfield : field ∈ n.childNodes) :
    ∃ ts, ts <:+: (Token.scan source).filter Token.isSignificant ∧
      Grammar.Tree field.toExpr ts ∧ Token.Ascending ts := by
  obtain ⟨all, rfl, hmodule⟩ := Grammar.exists_module_of_parse h
  have hmem : field.toExpr ∈ n.children := by
    obtain ⟨e, he, hnode⟩ := List.mem_filterMap.1 hfield
    cases e with
    | node head children =>
        cases hnode
        exact he
    | ref | data => cases hnode
  obtain ⟨ts, hts, htree⟩ := hmodule.exists_own hmem
  exact ⟨ts, hts, htree, (Token.ascending_significant source).sublist hts.sublist⟩

/-- **Segments stand in the order of their fields, and what they hold in
the order of the source, but for what is written before an offset.** This
comes behind the children that follow the offset, if there are any. -/
theorem segments_in_order [HexReader] {source : String} {bytes : List UInt8}
    (h : compile source = .ok bytes) :
    ∃ n d m, parse source = .ok n ∧ Draft.ofNode n = .ok d ∧ m.encode = bytes ∧
      (bytes.length < 2 ^ 32 → d.LocalsFit → readModule bytes = some m) ∧
      List.Forall₂ (fun field s => ∃ ts, ts <:+: (Token.scan source).filter Token.isSignificant ∧
        field.HoldsStrings ts s) n.dataFields m.data ∧
      List.Forall₂ (fun field s => ∃ ts, ts <:+: (Token.scan source).filter Token.isSignificant ∧
        field.HoldsFunctions d ts s) n.elementFields m.elements := by
  obtain ⟨n, d, m, hparse, hdraft, hdeclares, hbytes, hreads⟩ := exists_of_compile h
  obtain ⟨hdata, helements⟩ := Draft.segments_of_ofNode hdraft
  refine ⟨n, d, m, hparse, hdraft, hbytes, hreads, ?_, ?_⟩
  · rw [hdeclares.data]
    have hfields := (List.forall₂_and_left (l := n.dataFields) (u := d.data)).2
      ⟨fun field hfield => List.mem_filter.1 hfield, hdata⟩
    refine hfields.imp ?_
    rintro field s ⟨⟨hmem, hinstr⟩, hgives⟩
    obtain ⟨ts, hts, htree, hascending⟩ := exists_tokens_of_parse hparse hmem
    exact ⟨ts, hts, Node.holdsStrings_of_gives (of_decide_eq_true hinstr) htree hascending hgives⟩
  · have hfields := (List.forall₂_and_left (l := n.elementFields) (u := m.elements)).2
      ⟨fun field hfield => List.mem_filter.1 hfield, forall₂_comp helements hdeclares.elements⟩
    refine hfields.imp ?_
    rintro field s ⟨⟨hmem, hinstr⟩, e, hgives, -, hresolve⟩
    obtain ⟨ts, hts, htree, hascending⟩ := exists_tokens_of_parse hparse hmem
    exact ⟨ts, hts,
      Node.holdsFunctions_of_gives (of_decide_eq_true hinstr) htree hascending hgives hresolve⟩

/-- Contents on both sides of an offset, in a data segment and in an element
segment. -/
def surroundedOffsets : String :=
  "(memory 1) (table 1 funcref) (func $f) " ++
    "(data \"b\" (i32.const 0) \"a\") (elem 0x_0 (i32.const 0) func $f)"

def surroundedOffsetsBytes : List UInt8 :=
  [0x00, 0x61, 0x73, 0x6D, 0x01, 0x00, 0x00, 0x00,
    1, 4, 1, 0x60, 0, 0,
    3, 2, 1, 0,
    4, 4, 1, 0x70, 0x00, 1,
    5, 3, 1, 0x00, 1,
    9, 8, 1, 0x00, 0x41, 0, 0x0B, 2, 0, 0,
    10, 4, 1, 2, 0, 0x0B,
    11, 8, 1, 0x00, 0x41, 0, 0x0B, 2, 0x61, 0x62]

theorem segments_in_order_surrounded :
    compile surroundedOffsets = .ok surroundedOffsetsBytes ∧
      ∃ (n : Node) (d : Draft) (m : BinaryModule), parse surroundedOffsets = .ok n ∧
        n.dataFields.length = 1 ∧ n.elementFields.length = 1 ∧ m.encode = surroundedOffsetsBytes ∧
        List.Forall₂ (fun field s => ∃ ts,
          ts <:+: (Token.scan surroundedOffsets).filter Token.isSignificant ∧
          field.HoldsStrings ts s) n.dataFields m.data ∧
        List.Forall₂ (fun field s => ∃ ts,
          ts <:+: (Token.scan surroundedOffsets).filter Token.isSignificant ∧
          field.HoldsFunctions d ts s) n.elementFields m.elements := by
  have hcompile : compile surroundedOffsets = .ok surroundedOffsetsBytes := by decide +kernel
  have hcount : ((parse surroundedOffsets).toOption.map fun n =>
      (n.dataFields.length, n.elementFields.length)) = some (1, 1) := by decide +kernel
  obtain ⟨n, d, m, hparse, -, hbytes, -, hdata, helements⟩ := segments_in_order hcompile
  rw [hparse] at hcount
  obtain ⟨hone, hone'⟩ := Prod.mk.inj (Option.some.inj hcount)
  exact ⟨hcompile, n, d, m, hparse, hone, hone', hbytes, hdata, helements⟩

/-- A string before an offset and one after it. -/
def splitData : String := "(memory 1) (data \"a\" (i32.const 0) \"b\")"

/-- A function before an offset and one after it. -/
def splitElement : String := "(table 2 funcref) (func $f) (func) (elem 1 (i32.const 0) $f)"

theorem string_before_offset :
    compile splitData = .ok [0x00, 0x61, 0x73, 0x6D, 0x01, 0x00, 0x00, 0x00, 1, 1, 0, 3, 1, 0,
        5, 3, 1, 0x00, 1, 10, 1, 0, 11, 8, 1, 0x00, 0x41, 0, 0x0B, 2, 0x62, 0x61] ∧
      ((Token.scan splitData).filter (·.kind == .string)).map (·.value) = ["a", "b"] ∧
      compile splitElement = .ok [0x00, 0x61, 0x73, 0x6D, 0x01, 0x00, 0x00, 0x00, 1, 4, 1, 0x60, 0, 0,
        3, 3, 2, 0, 0, 4, 4, 1, 0x70, 0x00, 2, 9, 8, 1, 0x00, 0x41, 0, 0x0B, 2, 0, 1,
        10, 7, 2, 2, 0, 0x0B, 2, 0, 0x0B] := by
  decide +kernel

end WasmText
