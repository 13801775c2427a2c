import WasmText.Proofs.Layout
import WasmText.Proofs.Module.Groups
/-!
# The order of fields

Fields of different groups work on different parts of the draft. So a
module form reaches the same draft in whatever order its groups are mixed,
as long as the order inside each group is kept
(`field_order_irrelevant`).
-/

namespace WasmText

/-! ## Steps on parts of a state -/

section

variable {σ α ε ι : Type} [DecidableEq ι] {step : σ → α → Except ε σ} {part : ι → σ → σ}
variable {kind : α → Option ι} {as as' : List α} {s s' t : σ} {i : ι}

/-- A step that looks at one part of the state and changes no other. -/
structure WorksOn (step : σ → α → Except ε σ) (part : ι → σ → σ) (a : α) (i : ι) : Prop where
  own : ∀ s s' t, part i s = part i s' → step s a = .ok t →
    ∃ t', step s' a = .ok t' ∧ part i t = part i t'
  other : ∀ s t j, j ≠ i → step s a = .ok t → part j t = part j s

/-- The steps of one kind reach the part that all steps reach. -/
theorem foldlM_filter_kind (hkinds : ∀ a ∈ as, ∃ i, kind a = some i ∧ WorksOn step part a i) (i : ι)
    (hs : part i s = part i s') (h : as.foldlM step s = .ok t) :
    ∃ t', (as.filter (kind · = some i)).foldlM step s' = .ok t' ∧ part i t = part i t' := by
  induction as generalizing s s' with
  | nil =>
      obtain rfl : s = t := pure_eq_ok.1 h
      exact ⟨s', rfl, hs⟩
  | cons a as ih =>
      obtain ⟨⟨j, hkind, hworks⟩, hrest⟩ := List.forall_mem_cons.1 hkinds
      rw [List.foldlM_cons] at h
      obtain ⟨s₁, hstep, h⟩ := bind_eq_ok.1 h
      by_cases hij : j = i
      · subst hij
        obtain ⟨s₁', hstep', hs₁⟩ := hworks.own s s' s₁ hs hstep
        obtain ⟨t', hfold, ht⟩ := ih hrest hs₁ h
        refine ⟨t', ?_, ht⟩
        rw [List.filter_cons_of_pos (by simp [hkind]), List.foldlM_cons]
        exact bind_eq_ok.2 ⟨s₁', hstep', hfold⟩
      · have hsame : part i s₁ = part i s' := (hworks.other s s₁ i (Ne.symm hij) hstep).trans hs
        rw [List.filter_cons_of_neg (by simp [hkind, hij])]
        exact ih hrest hsame h

/-- Steps that reach every part, kind by kind, reach the whole. -/
theorem exists_foldlM_of_kinds
    (hkinds : ∀ a ∈ as, ∃ i, kind a = some i ∧ WorksOn step part a i)
    (h : ∀ i, ∃ s' t', part i s = part i s' ∧
      (as.filter (kind · = some i)).foldlM step s' = .ok t' ∧ part i t' = part i t) :
    ∃ t', as.foldlM step s = .ok t' ∧ ∀ i, part i t' = part i t := by
  induction as generalizing s with
  | nil =>
      refine ⟨s, rfl, fun i => ?_⟩
      obtain ⟨s', t', hs, hfold, ht⟩ := h i
      obtain rfl : s' = t' := pure_eq_ok.1 hfold
      exact hs.trans ht
  | cons a as ih =>
      obtain ⟨⟨j, hkind, hworks⟩, hrest⟩ := List.forall_mem_cons.1 hkinds
      -- the first step of its kind can be made from here
      obtain ⟨s', t', hs, hfold, ht⟩ := h j
      rw [List.filter_cons_of_pos (by simp [hkind]), List.foldlM_cons] at hfold
      obtain ⟨s₁', hstep', hfold⟩ := bind_eq_ok.1 hfold
      obtain ⟨s₁, hstep, hs₁⟩ := hworks.own s' s s₁' hs.symm hstep'
      have hnext : ∀ i, ∃ s' t', part i s₁ = part i s' ∧
          (as.filter (kind · = some i)).foldlM step s' = .ok t' ∧ part i t' = part i t := by
        intro i
        by_cases hij : j = i
        · subst hij
          exact ⟨s₁', t', hs₁.symm, hfold, ht⟩
        · obtain ⟨s', t', hs, hfold, ht⟩ := h i
          rw [List.filter_cons_of_neg (by simp [hkind, hij])] at hfold
          exact ⟨s', t', (hworks.other s s₁ i (Ne.symm hij) hstep).trans hs, hfold, ht⟩
      obtain ⟨t'', hall, hparts⟩ := ih hrest hnext
      refine ⟨t'', ?_, hparts⟩
      rw [List.foldlM_cons]
      exact bind_eq_ok.2 ⟨s₁, hstep, hall⟩

/-- **Steps on different parts can change places.** -/
theorem foldlM_reorder (part : ι → σ → σ) (hext : ∀ {s t : σ}, (∀ i, part i s = part i t) → s = t)
    (hkinds : ∀ a ∈ as, ∃ i, kind a = some i ∧ WorksOn step part a i) (hperm : as.Perm as')
    (horder : ∀ i, as.filter (kind · = some i) = as'.filter (kind · = some i))
    (h : as.foldlM step s = .ok t) : as'.foldlM step s = .ok t := by
  have hkinds' : ∀ a ∈ as', ∃ i, kind a = some i ∧ WorksOn step part a i :=
    fun a ha => hkinds a (hperm.mem_iff.2 ha)
  obtain ⟨t', hfold, hparts⟩ := exists_foldlM_of_kinds (s := s) (t := t) hkinds' fun i => by
    obtain ⟨t', hfold, ht⟩ := foldlM_filter_kind hkinds i rfl h
    rw [horder i] at hfold
    exact ⟨s, t', rfl, hfold, ht.symm⟩
  rw [hfold, hext hparts]

end

/-! ## Modules -/

/-- Two lists of fields that are the same up to an order that is kept
inside each group. -/
structure Reordered (es es' : List Expr) : Prop where
  perm : es.Perm es'
  groups : ∀ g, es.filter (·.group? = some g) = es'.filter (·.group? = some g)

theorem Reordered.symm {es es' : List Expr} (h : Reordered es es') : Reordered es' es :=
  ⟨h.perm.symm, fun g => (h.groups g).symm⟩

theorem Node.group?_eq_types {n : Node} : n.group? = some .types ↔ n.instr = "type" := by
  unfold group?
  split <;> simp_all

/-- The type fields of a module are those of the first group. -/
theorem filter_types (es : List Expr) : (es.filterMap Expr.node?).filter (·.instr = "type") =
    (es.filter (·.group? = some .types)).filterMap Expr.node? := by
  rw [List.filter_filterMap, List.filterMap_filter]
  refine List.filterMap_congr fun e _ => ?_
  cases e with
  | ref => rfl
  | data => rfl
  | node head children =>
      have htypes := Node.group?_eq_types (n := ⟨head, children⟩)
      by_cases hinstr : head.instr = "type"
      · simp [Expr.group?, Expr.node?, htypes.2 hinstr, hinstr]
      · simp [Expr.group?, Expr.node?, mt htypes.1 hinstr, hinstr]

/-- A field that is declared belongs to a group. -/
theorem Progress.exists_group [HexReader] {p q : Progress} {e : Expr} (h : p.declare e = .ok q) :
    ∃ n g, e.node? = some n ∧ n.group? = some g := by
  unfold declare at h
  split at h
  · cases h
  next n hnode =>
    refine ⟨n, ?_⟩
    unfold Node.group?
    split at h <;> simp_all

theorem Progress.ofNode_reordered [HexReader] {n n' : Node} {p : Progress}
    (hfields : Reordered n.children n'.children) (hdetached : ∀ field ∈ n.childNodes, field.Detached)
    (h : Progress.ofNode n = .ok p) : Progress.ofNode n' = .ok p := by
  obtain ⟨typed, htyped, hfold⟩ := bind_eq_ok.1 h
  refine bind_eq_ok.2 ⟨typed, ?_, ?_⟩
  · rw [Node.childNodes, filter_types, ← hfields.groups, ← filter_types]
    exact htyped
  · refine foldlM_reorder part ext_part (fun e he => ?_) hfields.perm hfields.groups hfold
    obtain ⟨p₁, q₁, hdeclare⟩ := exists_of_mem_foldlM hfold he
    obtain ⟨field, g, hnode, hgroup⟩ := exists_group hdeclare
    have heffect := fieldEffect hnode hgroup
      (hdetached field (List.mem_filterMap.2 ⟨e, he, hnode⟩))
    refine ⟨g, by rw [Expr.group?, hnode]; exact hgroup, ?_, ?_⟩
    · exact fun p p' q hpart hq => heffect.own hpart hq
    · exact fun p q g' hne hq => heffect.other hne hq

theorem Node.compile_reordered [HexReader] {n n' : Node} {bytes : List UInt8}
    (hinstr : n.instr = n'.instr)
    (hfields : Reordered n.children n'.children) (hdetached : ∀ field ∈ n.childNodes, field.Detached)
    (h : n.compile = .ok bytes) : n'.compile = .ok bytes := by
  obtain ⟨d, hdraft, hbuild⟩ := bind_eq_ok.1 h
  obtain ⟨hmodule, p, hp, hbodies⟩ := Draft.ofNode_eq_ok.1 hdraft
  have hp' := Progress.ofNode_reordered hfields hdetached hp
  exact bind_eq_ok.2 ⟨d, Draft.ofNode_eq_ok.2 ⟨hinstr ▸ hmodule, p, hp', hbodies⟩, hbuild⟩

/-- **The order of fields does not matter across groups.** Take two module
forms whose fields are the same up to places, and up to an order that is
kept among types, among definitions and imports, among exports, among
element segments, among data segments and among start fields. Where no
definition has an export inside and offsets are literals, either both fail
to compile or both compile to the same bytes. -/
theorem field_order_irrelevant [HexReader] {n n' : Node} (hinstr : n.instr = n'.instr)
    (hfields : Reordered n.bare.children n'.bare.children)
    (hdetached : ∀ field ∈ n.bare.childNodes, field.Detached) (bytes : List UInt8) :
    n.compile = .ok bytes ↔ n'.compile = .ok bytes := by
  have hdetached' : ∀ field ∈ n'.bare.childNodes, field.Detached := by
    intro field hfield
    obtain ⟨e, he, hnode⟩ := List.mem_filterMap.1 hfield
    exact hdetached field (List.mem_filterMap.2 ⟨e, hfields.perm.mem_iff.2 he, hnode⟩)
  rw [← n.compile_bare, ← n'.compile_bare]
  exact ⟨Node.compile_reordered hinstr hfields hdetached,
    Node.compile_reordered hinstr.symm hfields.symm hdetached'⟩

/-- A type, a table, a memory and a function. -/
def declaringFields : List Expr := [
  .node ⟨"type", some ⟨"t", .zero⟩, [], .zero⟩ [.node (.plain "func" .zero) []],
  .node ⟨"table", none, [⟨.number "1", .zero⟩, ⟨.keyword .funcref none, .zero⟩], .zero⟩ [],
  .node ⟨"memory", none, [⟨.number "1", .zero⟩], .zero⟩ [],
  .node ⟨"func", some ⟨"f", .zero⟩, [], .zero⟩ [.node ⟨"type", some ⟨"t", .zero⟩, [], .zero⟩ []]]

/-- The uses that other fields make of them. -/
def usingFields : List Expr :=
  let literal (text : String) := .node ⟨"i32.const", none, [⟨.number text, .zero⟩], .zero⟩ []
  [.node ⟨"start", some ⟨"f", .zero⟩, [], .zero⟩ [],
    .node ⟨"export", none, [⟨.str [0x66], .zero⟩], .zero⟩
      [.node ⟨"func", some ⟨"f", .zero⟩, [], .zero⟩ []],
    .node (.plain "elem" .zero) [literal "0", .ref "f" .zero],
    .node (.plain "data" .zero) [.node (.plain "offset" .zero) [literal "1"], .data [0x61] .zero]]

def usesFirst : Node := ⟨.plain "module" .zero, usingFields ++ declaringFields⟩

def usesLast : Node := ⟨.plain "module" .zero, declaringFields ++ usingFields⟩

def usesBytes : List UInt8 :=
  [0x00, 0x61, 0x73, 0x6D, 1, 0, 0, 0, 1, 4, 1, 0x60, 0, 0, 3, 2, 1, 0, 4, 4, 1, 0x70, 0, 1,
    5, 3, 1, 0, 1, 7, 5, 1, 1, 0x66, 0, 0, 8, 1, 0, 9, 7, 1, 0, 0x41, 0, 0x0B, 1, 0,
    10, 4, 1, 2, 0, 0x0B, 11, 7, 1, 0, 0x41, 1, 0x0B, 1, 0x61]

theorem field_order_irrelevant_uses :
    usesFirst.compile = .ok usesBytes ∧ usesLast.compile = .ok usesBytes := by
  have hcompile : usesFirst.compile = .ok usesBytes := by decide +kernel
  have hinstr : usesFirst.instr = usesLast.instr := rfl
  have hbare : usesFirst.bare = usesFirst := by
    simp only [Node.bare, Node.dress, usesFirst, usingFields, declaringFields, List.map_append,
      List.map_cons, List.map_nil, Expr.dress_node, Expr.dress_ref, Expr.dress_data]
    rfl
  have hbare' : usesLast.bare = usesLast := by
    simp only [Node.bare, Node.dress, usesLast, usingFields, declaringFields, List.map_append,
      List.map_cons, List.map_nil, Expr.dress_node, Expr.dress_ref, Expr.dress_data]
    rfl
  have hfields : Reordered usesFirst.bare.children usesLast.bare.children := by
    rw [hbare, hbare']
    exact ⟨List.perm_append_comm, fun g => by cases g <;> rfl⟩
  have hdetached : ∀ field ∈ usesFirst.bare.childNodes, field.Detached := by
    rw [hbare]
    decide +kernel
  exact ⟨hcompile, (field_order_irrelevant hinstr hfields hdetached usesBytes).1 hcompile⟩

end WasmText
