import WasmText.Proofs.Layout
import WasmText.Proofs.Tree.Locations
/-!
# Reported places are real

A tree carries places for messages, and every error carries one. A place
is real if it lies in the source, between characters, starts where a
significant token does or at the start, and has the line and column of
its start. The places of tokens are real and stay so when joined, which
settles the parser. The compiler only copies places: if it reported one
that is not in the tree, moving all such places would have to move the
report, and moving them does not change the tree
(`Node.span_mem_of_compile`).
-/

namespace WasmText

/-! ## Places of tokens -/

/-- Whether a span is a place in a source. -/
structure Span.Real (source : String) (a : Span) : Prop where
  start_le_stop : a.start ≤ a.stop
  stop_le : a.stop ≤ source.utf8ByteSize
  /-- Both ends lie between characters. -/
  isValid : String.Pos.Raw.IsValid source ⟨a.start⟩ ∧ String.Pos.Raw.IsValid source ⟨a.stop⟩
  /-- A token that is no layout starts there, perhaps the end, or the
  source does. -/
  starts : a.start = 0 ∨ ∃ t ∈ Token.scan source, t.kind.isTrivia = false ∧ t.span.start = a.start
  /-- Line and column are counted from the text before. -/
  place : ∃ before, before <+: source.toList ∧
    Position.reached before = ⟨a.start, a.line, a.column⟩
  /-- Neither count is more than the characters of the source and one. -/
  counts : a.line ≤ source.length + 1 ∧ a.column ≤ source.length + 1

namespace Span.Real

variable {source : String} {a b : Span}

/-- The places that start at the start of the source. -/
theorem of_start {stop : Nat} (hle : stop ≤ source.utf8ByteSize)
    (hvalid : String.Pos.Raw.IsValid source ⟨stop⟩) : Real source ⟨0, stop, 1, 1⟩ where
  start_le_stop := Nat.zero_le stop
  stop_le := hle
  isValid := ⟨String.Pos.Raw.isValid_zero, hvalid⟩
  starts := .inl rfl
  place := ⟨[], List.nil_prefix, rfl⟩
  counts := ⟨Nat.le_add_left 1 _, Nat.le_add_left 1 _⟩

theorem zero (source : String) : Real source .zero :=
  of_start (Nat.zero_le _) String.Pos.Raw.isValid_zero

/-- The place from the start of the source to the end of another. -/
theorem from_start (ha : Real source a) : Real source ⟨0, a.stop, 1, 1⟩ :=
  of_start ha.stop_le ha.isValid.2

/-- A place from the start of a real one to the end of another is real. -/
theorem through (ha : Real source a) (hb : Real source b) : Real source (a.through b) where
  start_le_stop := Nat.le_trans ha.start_le_stop (Nat.le_max_right _ _)
  stop_le := Nat.max_le.2 ⟨hb.stop_le, ha.stop_le⟩
  isValid := by
    refine ⟨ha.isValid.1, ?_⟩
    rcases Nat.le_total a.stop b.stop with h | h
    · simpa [Span.through, Nat.max_eq_left h] using hb.isValid.2
    · simpa [Span.through, Nat.max_eq_right h] using ha.isValid.2
  starts := ha.starts
  place := ha.place
  counts := ha.counts

end Span.Real

namespace Token

variable {source : String} {t : Token}

/-- A token that is no layout stands at a real place. -/
theorem StandsIn.real (h : t.StandsIn source) (hmem : t ∈ scan source)
    (hkind : t.kind.isTrivia = false) : t.span.Real source := by
  have hvalid := h.isValid
  have hcounts := h.counts
  obtain ⟨before, after, htext, hspan⟩ := h
  have hsource : source = String.ofList before ++ t.text ++ String.ofList after := by
    rw [← String.toList_inj]
    simpa using htext
  have hstop : t.span.stop = (String.ofList before).utf8ByteSize + t.text.utf8ByteSize := by
    rw [hspan]
    simp [Span.between, Position.reached, String.ofList_append]
  refine ⟨?_, ?_, hvalid, .inr ⟨t, hmem, hkind, rfl⟩, ⟨before, ?_, ?_⟩, hcounts⟩
  · rw [hstop, hspan]
    exact Nat.le_add_right _ _
  · rw [hstop, hsource]
    simp
  · rw [htext, List.append_assoc]
    exact List.prefix_append _ _
  · rw [hspan]
    rfl

/-- The tokens of a source are shown at real places. -/
theorem shows_ofSource (source : String) : (Stream.ofSource source).Shows (Span.Real source) where
  ahead t ht := by
    obtain ⟨hmem, hkind⟩ := List.mem_filter.1 ht
    have hstands := standsIn_of_mem_tokensFrom hmem
    exact hstands.real (List.mem_append_left _ hmem) (by simpa using hkind)
  finish := (endOf_standsIn source).real (List.mem_append_right _ List.mem_cons_self) rfl

end Token

/-! ## Places of compile errors -/

/-- Every place is moved but the given ones and that of an error that has
none. -/
def Guise.moving (kept : List Span) : Guise :=
  { bare with
    place a := if a = .zero ∨ a ∈ kept then a else { a with stop := a.stop + 1 }
    place_zero := if_pos (.inl rfl) }

section Moving

variable {kept : List Span}

theorem Guise.moving_place_of_mem {a : Span} (h : a ∈ kept) : (moving kept).place a = a :=
  if_pos (.inr h)

/-- A place that is not moved is kept, or is none. -/
theorem Guise.mem_of_moving_place {a : Span} (h : (moving kept).place a = a) :
    a = .zero ∨ a ∈ kept := by
  by_contra hout
  have hmoved : (moving kept).place a = { a with stop := a.stop + 1 } := if_neg hout
  have hstop := congrArg Span.stop (hmoved.symm.trans h)
  exact Nat.succ_ne_self _ hstop

theorem Label.dress_moving {label : Label} (h : label.span ∈ kept) :
    label.dress (.moving kept) = label :=
  congrArg (Label.mk label.name) (Guise.moving_place_of_mem h)

theorem Param.dress_moving {p : Param} (h : p.span ∈ kept) : p.dress (.moving kept) = p := by
  have harg : p.arg.dress (.moving kept) = p.arg := by
    cases p.arg <;> rfl
  exact congr (congrArg Param.mk harg) (Guise.moving_place_of_mem h)

theorem Head.dress_moving {head : Head} (h : ∀ a ∈ head.spans, a ∈ kept) :
    head.dress (.moving kept) = head := by
  obtain ⟨hspan, hname, hparams⟩ := forall_mem_spans.1 h
  have hlabel : head.name.map (·.dress (.moving kept)) = head.name := by
    cases hn : head.name with
    | none => rfl
    | some label => exact congrArg some (Label.dress_moving (hname label hn))
  have hargs : head.params.map (·.dress (.moving kept)) = head.params :=
    (List.map_congr_left fun p hp => Param.dress_moving (hparams p hp)).trans (List.map_id _)
  rw [dress, hlabel, hargs, Guise.moving_place_of_mem hspan]

/-- A tree whose places are kept does not change. -/
theorem Expr.dress_moving {e : Expr} (h : e.LiesIn (· ∈ kept)) : e.dress (.moving kept) = e := by
  fun_induction Expr.spans e with
  | case1 name span =>
      rw [dress_ref, Guise.moving_place_of_mem (liesIn_ref.1 h)]
      rfl
  | case2 bytes span => rw [dress_data, Guise.moving_place_of_mem (liesIn_data.1 h)]
  | case3 head children ih =>
      obtain ⟨hhead, hchildren⟩ := liesIn_node.1 h
      rw [dress_node, Head.dress_moving hhead]
      exact congrArg (node head)
        ((List.map_congr_left fun e he => ih e he (hchildren e he)).trans (List.map_id _))

end Moving

/-- A tree does not change when all places but its own are moved. -/
theorem Node.dress_moving (n : Node) : n.dress (.moving n.spans) = n := by
  obtain ⟨hhead, hchildren⟩ := forall_mem_spans.1 fun a (ha : a ∈ n.spans) => ha
  have hsame : n.children.map (·.dress (.moving n.spans)) = n.children :=
    (List.map_congr_left fun e he => Expr.dress_moving (hchildren e he)).trans (List.map_id _)
  rw [dress, hsame, Head.dress_moving hhead]

/-- **An error is at a place of the tree**, or it has none. -/
theorem Node.span_mem_of_compile [HexReader] {n : Node} {e : CompileError}
    (h : n.compile = .error e) : e.span = .zero ∨ e.span ∈ n.spans := by
  -- the tree in this guise is the tree, so the error is its own image and its place is not moved
  have hagree := agree_compile (g := .moving n.spans) n
  rw [n.dress_moving, h] at hagree
  cases hagree with
  | error halike => exact Guise.mem_of_moving_place halike.span_eq.symm

/-! ## Sources -/

/-- All places of a parsed source are real. -/
theorem located_real (source : String) :
    Located (Span.Real source) (fun n => ∀ a ∈ n.spans, a.Real source) (parse source) :=
  located_parse (Token.shows_ofSource source) .through .from_start

/-- **Every reported place is real.** All places in the tree that a source
is parsed to, the place of the error where it is not parsed, and the place
of the error where it does not compile are places in the source, with
their line and column. Each number of a place is at most one more than the
bytes of the source, so 32 bits hold it for a source of fewer than
`2 ^ 32 - 1` bytes. -/
theorem locations_real [HexReader] (source : String) :
    (∀ n, parse source = .ok n → ∀ a ∈ n.spans, a.Real source) ∧
      (∀ e, parse source = .error e → e.span.Real source) ∧
      ∀ e, compile source = .error e → e.span.Real source := by
  have hlocated := located_real source
  refine ⟨fun n hn => ?_, fun e he => ?_, fun e he => ?_⟩
  · rw [hn] at hlocated
    exact hlocated
  · rw [he] at hlocated
    exact hlocated
  · unfold compile at he
    cases hparse : parse source with
    | error cause =>
        rw [hparse] at he hlocated
        obtain rfl := Except.error.inj he
        exact hlocated
    | ok n =>
        rw [hparse] at he hlocated
        rcases Node.span_mem_of_compile he with hzero | hmem
        · exact hzero ▸ .zero source
        · exact hlocated _ hmem

/-- A start function that nowhere is, behind a character of two bytes and
a line feed. -/
def lostStart : String := "(data (i32.const 0) \"é\")\n(start $f)"

/-- A form that is never closed. -/
def unclosed : String := "(func\n"

theorem locations_real_lost :
    (∃ n, parse lostStart = .ok n ∧ ∀ a ∈ n.spans, a.Real lostStart) ∧
      (∃ e, parse unclosed = .error e ∧ e.span.Real unclosed) ∧
      compile lostStart = .error (.unresolved .function "f" ⟨33, 35, 2, 8⟩) ∧
      Span.Real lostStart ⟨33, 35, 2, 8⟩ := by
  have hcompile : compile lostStart = .error (.unresolved .function "f" ⟨33, 35, 2, 8⟩) := by
    decide +kernel
  have hok : (parse lostStart).isOk = true := by decide +kernel
  have hfail : (parse unclosed).isOk = false := by decide +kernel
  refine ⟨?_, ?_, hcompile, (locations_real lostStart).2.2 _ hcompile⟩
  · cases hparse : parse lostStart with
    | error e => rw [hparse] at hok; cases hok
    | ok n => exact ⟨n, rfl, (locations_real lostStart).1 n hparse⟩
  · cases hparse : parse unclosed with
    | error e => exact ⟨e, rfl, (locations_real unclosed).2.1 e hparse⟩
    | ok n => rw [hparse] at hfail; cases hfail

end WasmText
