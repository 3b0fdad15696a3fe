import Jstd.Parse.Correctness

/-!
# Labels that survive parsing

A list of declarations is written one to a line and parsed again.  On an edge any label comes back.
On a node a label with an arrow in it does not: the line is taken for an edge, and what stands left
of the arrow is no identifier, since it has the opening bracket.
-/

namespace Jstd
namespace Parse

open Foundation

/-! ## Declarations and their text -/

/-- A name that can be written anywhere in a line. -/
structure Name where
  text : Str
  isName : IsName text
  noArrow : ¬ arrow <:+: text

/-- A label: a payload that stays on its line. -/
structure Label where
  text : Str
  noFeed : '\n' ∉ text
  notBlank : ¬ Str.Blank text

inductive Declaration
  | node (name : Name) (payload : Label)
  | edge (source target : Name) (payload : Label)

/-- `name [payload]`. -/
def renderLabelled (name : Name) (payload : Label) : Str :=
  name.text ++ ' ' :: '[' :: (payload.text ++ [']'])

/-- `name [payload]` and `from -> to [payload]`. -/
def Declaration.render : Declaration → Str
  | .node name payload => renderLabelled name payload
  | .edge source target payload =>
      source.text ++ ' ' :: '-' :: '>' :: ' ' :: renderLabelled target payload

/-- One declaration a line. -/
def render (declarations : List Declaration) : Str :=
  ['\n'].intercalate (declarations.map Declaration.render)

/-- What a declaration means: its name or its ends, with the payload trimmed. -/
def Declaration.statement : Declaration → Statement
  | .node name payload => .node name.text (some (Str.trim payload.text))
  | .edge source target payload => .edge source.text target.text (Str.trim payload.text)

/-- The label of a node has an arrow in it. -/
def Declaration.Confusing : Declaration → Prop
  | .node _ payload => arrow <:+: payload.text
  | .edge _ _ _ => False

/-! ## The lines -/

theorem Declaration.render_getLast? (d : Declaration) : d.render.getLast? = some ']' := by
  have hlabelled : ∀ (name : Name) (payload : Label),
      (renderLabelled name payload).getLast? = some ']' := by
    intro name payload
    rw [renderLabelled, ← List.cons_append, ← List.cons_append, ← List.append_assoc,
      List.getLast?_concat]
  cases d with
  | node name payload => exact hlabelled name payload
  | edge source target payload =>
      have h := hlabelled target payload
      rw [Declaration.render, List.getLast?_append, List.getLast?_cons_of_ne_nil (by simp),
        List.getLast?_cons_of_ne_nil (by simp), List.getLast?_cons_of_ne_nil (by simp),
        List.getLast?_cons_of_ne_nil, h]
      · rfl
      · intro hnil
        rw [hnil] at h
        cases h

theorem Name.noFeed (name : Name) : '\n' ∉ name.text := by
  intro h
  have := (name.isName.plain _ h).1
  revert this
  decide

theorem Declaration.render_noFeed (d : Declaration) : '\n' ∉ d.render := by
  cases d with
  | node name payload =>
      simp [Declaration.render, renderLabelled, name.noFeed, payload.noFeed]
  | edge source target payload =>
      simp [Declaration.render, renderLabelled, source.noFeed, target.noFeed, payload.noFeed]

theorem lines_render (declarations : List Declaration) :
    Str.lines (render declarations) = declarations.map Declaration.render := by
  refine Str.lines_intercalate ?_ ?_ ?_
  · intro line hline
    obtain ⟨d, -, rfl⟩ := List.mem_map.1 hline
    exact d.render_noFeed
  · intro line hline
    obtain ⟨d, -, rfl⟩ := List.mem_map.1 hline
    rw [d.render_getLast?]
    decide
  · intro line hline
    obtain ⟨d, -, rfl⟩ := List.mem_map.1 hline
    intro hnil
    have := d.render_getLast?
    rw [hnil] at this
    cases this

/-- An arrow in `name [payload]` is one in the payload. -/
theorem splitOnce_renderLabelled (name : Name) (payload : Label) :
    Str.splitOnce arrow (renderLabelled name payload) =
      (Str.splitOnce arrow payload.text).map fun parts =>
        (name.text ++ ' ' :: '[' :: parts.1, parts.2 ++ [']']) := by
  have hne : arrow ≠ [] := List.cons_ne_nil _ _
  have hopen : ∀ c ∈ ['['], c ∉ arrow := List.forall_mem_singleton.2 (by decide)
  have hclose : ∀ c ∈ [']'], c ∉ arrow := List.forall_mem_singleton.2 (by decide)
  have hbrackets : Str.splitOnce arrow ('[' :: (payload.text ++ [']'])) =
      (Str.splitOnce arrow payload.text).map fun parts =>
        ('[' :: parts.1, parts.2 ++ [']']) := by
    calc Str.splitOnce arrow ('[' :: (payload.text ++ [']']))
        = Str.splitOnce arrow (['['] ++ payload.text ++ [']']) := rfl
      _ = _ := by
        rw [Str.splitOnce_after hne hclose, Str.splitOnce_before hne hopen, Option.map_map]
        rfl
  rw [renderLabelled, Str.splitOnce_skip hne name.noArrow (by decide), hbrackets, Option.map_map]
  rfl

theorem renderLabelled_declares {name : Name} {payload : Label} {pre : Str}
    (hpre : Str.Blank pre) :
    Declares (pre ++ renderLabelled name payload) name.text (some (Str.trim payload.text)) := by
  have hspace : Str.Blank [' '] := by
    intro c hc
    obtain rfl := List.mem_singleton.1 hc
    decide
  have hnil : Str.Blank [] := fun c hc => absurd hc List.not_mem_nil
  have h := Declares.labelled hpre name.isName hspace payload.notBlank hnil
  rw [List.append_nil] at h
  exact h

/-- A bare declaration has no bracket. -/
theorem Declares.no_bracket {input name : Str} (h : Declares input name none) : '[' ∉ input := by
  have hblank : ∀ {s : Str}, Str.Blank s → '[' ∉ s := by
    intro s hs hmem
    have := hs _ hmem
    revert this
    decide
  cases h with
  | bare hpre hname hpost =>
      simp only [List.mem_append, not_or]
      exact ⟨⟨hblank hpre, fun h => (hname.plain _ h).2 rfl⟩, hblank hpost⟩

theorem Declaration.render_reads {d : Declaration} (h : ¬ d.Confusing) :
    Reads d.render (some d.statement) := by
  cases d with
  | node name payload =>
      refine .node ?_ (renderLabelled_declares (fun c hc => absurd hc List.not_mem_nil))
      rw [← Str.splitOnce_eq_none_iff, Declaration.render, splitOnce_renderLabelled,
        Str.splitOnce_eq_none_iff.2 h]
      rfl
  | edge source target payload =>
      have hspace : Str.Blank [' '] := by
        intro c hc
        obtain rfl := List.mem_singleton.1 hc
        decide
      have hne : arrow ≠ [] := List.cons_ne_nil _ _
      have hsplit : Str.SplitsAt arrow (Declaration.edge source target payload).render
          (source.text ++ [' ']) ([' '] ++ renderLabelled target payload) := by
        rw [← Str.splitOnce_eq_some_iff, Declaration.render,
          Str.splitOnce_skip hne source.noArrow (by decide), Str.splitOnce, if_pos ⟨_, rfl⟩]
        rfl
      have hleft : Declares (source.text ++ [' ']) source.text none := by
        rw [← List.nil_append source.text]
        exact .bare (fun c hc => absurd hc List.not_mem_nil) source.isName hspace
      exact .edge hsplit hleft (renderLabelled_declares hspace)

theorem Declaration.render_malformed {d : Declaration} (h : d.Confusing) :
    ¬ WellFormed d.render := by
  cases d with
  | edge source target payload => exact absurd h id
  | node name payload =>
      -- The line splits where the payload does.
      rcases Str.splitOnce_spec arrow payload.text with ⟨l, r, hsplit, -⟩ | ⟨-, hnone⟩
      · have hrender := splitOnce_renderLabelled name payload
        rw [hsplit] at hrender
        have hat := Str.splitOnce_eq_some_iff.1 hrender
        have harrow : arrow <:+: renderLabelled name payload := ⟨_, _, hat.eq.symm⟩
        rintro ⟨statement, hreads⟩
        cases hreads with
        | blank hblank => exact not_blank_of_arrow harrow hblank
        | node hno => exact hno harrow
        | edge hat' hleft =>
            -- The bracket stands left of the arrow.
            rw [← (hat.unique hat').1] at hleft
            exact hleft.no_bracket (by simp)
      · exact absurd h hnone

/-! ## The round trip -/

/-- The parse of the rendered declarations, over `usize` ids, is the graph they mean exactly when no
node has a label with an arrow in it. -/
theorem labels_survive_iff (declarations : List Declaration)
    (hlen : Str.len (render declarations) ≤ isizeMax) :
    (∃ g : TestGraph, OwningGraph.parse (render declarations) = .ok (.ok g) ∧
        Denotes (declarations.map Declaration.statement) g) ↔
      ∀ d ∈ declarations, ¬ d.Confusing := by
  rcases OwningGraph.parse_spec (DerivedId .usize) (DerivedId .usize) (render declarations) with
    ⟨error, herror, hrejects⟩ | ⟨forms, self, hforms, hrun, hbuilt⟩
  · -- Rejected: the line reported is one of the declarations.
    refine iff_of_false ?_ fun hplain => hrejects.malformed ?_
    · rintro ⟨g, hg, -⟩
      rw [herror] at hg
      cases hg
    · obtain ⟨i, -, hline, -⟩ := hrejects.line
      rw [lines_render] at hline
      obtain ⟨d, hd, hline⟩ := List.mem_map.1 (List.mem_of_getElem? hline)
      rw [← hline]
      exact ⟨_, Declaration.render_reads (hplain d hd)⟩
  · have hids := OwningGraph.built_idsInjective hlen hforms hbuilt
    rw [lines_render] at hforms
    -- Accepted: every line is well formed, so no label on a node has an arrow.
    have hplain : ∀ d ∈ declarations, ¬ d.Confusing := fun d hd hconf =>
      Declaration.render_malformed hconf
        (OwningGraph.wellFormed_of_forms hforms _ (List.mem_map_of_mem hd))
    refine iff_of_true ⟨self.graph, hrun, ?_⟩ hplain
    -- A line says one thing, and each rendered line says its declaration.
    have hforms' : List.Forall₂ Reads (declarations.map Declaration.render)
        (declarations.map fun d => some d.statement) := by
      rw [List.forall₂_map_left_iff, List.forall₂_map_right_iff, List.forall₂_same]
      exact fun d hd => Declaration.render_reads (hplain d hd)
    have hstatements : (declarations.map fun d => some d.statement).reduceOption =
        declarations.map Declaration.statement := by
      rw [List.reduceOption, List.filterMap_map, ← List.filterMap_eq_map]
      rfl
    rw [← hstatements, ← OwningGraph.forms_unique hforms hforms']
    exact hbuilt.denotes hids

/-- The name `a`. -/
def nameA : Name where
  text := ['a']
  isName := ⟨List.cons_ne_nil _ _, List.forall_mem_singleton.2 (by decide)⟩
  noArrow h := absurd h.length_le (by decide)

/-- The label `p->next`. -/
def pointerLabel : Label where
  text := ['p', '-', '>', 'n', 'e', 'x', 't']
  noFeed := by decide
  notBlank h := absurd (h 'p' List.mem_cons_self) (by decide)

/-- On a self-loop the label survives. -/
theorem labels_survive_loop :
    ∃ g : TestGraph,
      OwningGraph.parse (render [.edge nameA nameA pointerLabel]) = .ok (.ok g) ∧
        Denotes [.edge nameA.text nameA.text pointerLabel.text] g := by
  refine (labels_survive_iff [.edge nameA nameA pointerLabel] (by decide)).2 ?_
  intro d hd
  obtain rfl := List.mem_singleton.1 hd
  exact id

/-- On a node it is reported as a broken edge. -/
theorem pointerLabel_lost :
    (OwningGraph.parse (render [.node nameA pointerLabel]) :
        Except Panic (Except ParseError TestGraph)) =
      .ok (.error
        { lineNumber := 1
          line := renderLabelled nameA pointerLabel
          kind := .invalidEdgeDeclaration }) ∧
      ¬ ∃ g : TestGraph,
        OwningGraph.parse (render [.node nameA pointerLabel]) = .ok (.ok g) ∧
          Denotes [.node nameA.text (some pointerLabel.text)] g := by
  have hrun : (OwningGraph.parse (render [.node nameA pointerLabel]) :
      Except Panic (Except ParseError TestGraph)) =
        .ok (.error
          { lineNumber := 1
            line := renderLabelled nameA pointerLabel
            kind := .invalidEdgeDeclaration }) := by
    rfl
  refine ⟨hrun, ?_⟩
  rintro ⟨g, hg, -⟩
  rw [hrun] at hg
  cases hg

end Parse
end Jstd
