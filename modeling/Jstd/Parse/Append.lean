import Jstd.Parse.Lookup

/-!
# Parsing a text in two parts

Cut a text after a line feed.  Its lines are those of the two parts, so an error of the first part is
its error, an error of the second is one further down, and if there is none the graph grows: what the
first part declared keeps its ids, its ends and its labels, save the labels the second part sets.

Both parses are read off the grammar, which says what each line means and which error is the first
(`Rejects.unique`); the loop itself is not looked into again.
-/

namespace Jstd

open Foundation

namespace Foundation.Str

theorem splitInclusive_append {sep : Char} (s t : Str) :
    splitInclusive sep (s ++ sep :: t) =
      splitInclusive sep (s ++ [sep]) ++ splitInclusive sep t := by
  induction s with
  | nil => simp [splitInclusive]
  | cons c s ih =>
      rw [List.cons_append, List.cons_append, splitInclusive, splitInclusive, ih]
      split
      · rfl
      · -- The piece that `c` joins is one of the first part.
        cases hpieces : splitInclusive sep (s ++ [sep]) with
        | cons piece pieces => rfl
        | nil =>
            exfalso
            cases s with
            | nil => rw [List.nil_append, splitInclusive, if_pos rfl] at hpieces; cases hpieces
            | cons d s =>
                rw [List.cons_append, splitInclusive] at hpieces
                split at hpieces
                · cases hpieces
                · split at hpieces
                  · cases hpieces
                  · cases hpieces

theorem lines_append (s t : Str) : lines (s ++ '\n' :: t) = lines (s ++ ['\n']) ++ lines t := by
  rw [lines, splitInclusive_append, List.map_append]
  rfl

end Foundation.Str

namespace Parser

open Parse OwningGraph

/-! ## The first error -/

/-- There is one first malformed line. -/
theorem Rejects.unique {lines : List Str} {error error' : ParseError} (h : Rejects lines error)
    (h' : Rejects lines error') : error = error' := by
  obtain ⟨⟨i, hi, hline, hbefore⟩, hbad, hkind⟩ := h
  obtain ⟨⟨j, hj, hline', hbefore'⟩, hbad', hkind'⟩ := h'
  have hij : i = j := by
    rcases Nat.lt_trichotomy i j with hlt | heq | hlt
    · exact absurd (hbefore' i hlt _ hline) hbad
    · exact heq
    · exact absurd (hbefore j hlt _ hline') hbad'
  subst hij
  rw [hline] at hline'
  have hlineEq := Option.some.inj hline'
  rw [hlineEq] at hkind
  have hkinds : error.kind = .invalidEdgeDeclaration ↔ error'.kind = .invalidEdgeDeclaration :=
    hkind.trans hkind'.symm
  obtain ⟨number, line, kind⟩ := error
  obtain ⟨number', line', kind'⟩ := error'
  cases kind <;> cases kind' <;> simp_all

theorem Rejects.append {lines : List Str} {error : ParseError} (h : Rejects lines error)
    (rest : List Str) : Rejects (lines ++ rest) error := by
  obtain ⟨⟨i, hi, hline, hbefore⟩, hbad, hkind⟩ := h
  have hlt := (List.getElem?_eq_some_iff.1 hline).1
  refine ⟨⟨i, hi, ?_, fun j hj line hj' => hbefore j hj line ?_⟩, hbad, hkind⟩
  · rw [List.getElem?_append_left hlt, hline]
  · rwa [List.getElem?_append_left (Nat.lt_trans hj hlt)] at hj'

/-- After lines that are well formed, the same error further down. -/
theorem Rejects.after {lines : List Str} {error : ParseError} (h : Rejects lines error)
    {before : List Str} (hbefore : ∀ line ∈ before, WellFormed line) :
    Rejects (before ++ lines)
      { error with lineNumber := before.length + error.lineNumber } := by
  obtain ⟨⟨i, hi, hline, hwell⟩, hbad, hkind⟩ := h
  refine ⟨⟨before.length + i, ?_, ?_, fun j hj line hj' => ?_⟩, hbad, hkind⟩
  · rw [hi]
    exact (Nat.add_assoc _ i 1).symm
  · rw [List.getElem?_append_right (Nat.le_add_right _ i), Nat.add_sub_cancel_left, hline]
  · rcases Nat.lt_or_ge j before.length with hlt | hge
    · rw [List.getElem?_append_left hlt] at hj'
      exact hbefore line (List.mem_of_getElem? hj')
    · rw [List.getElem?_append_right hge] at hj'
      exact hwell _ (by omega) line hj'

/-- What is rejected is reported. -/
theorem Rejects.parse {source : Str} {error : ParseError} (h : Rejects (Str.lines source) error) :
    (OwningGraph.parse source : Except Panic (Except ParseError TestGraph)) =
      .ok (.error error) := by
  rcases parse_spec (DerivedId .usize) (DerivedId .usize) source with
    ⟨error', hrun, h'⟩ | ⟨forms, self, hforms, -, -⟩
  · rw [hrun, h.unique h']
  · obtain ⟨i, -, hline, -⟩ := h.line
    exact absurd (wellFormed_of_forms hforms _ (List.mem_of_getElem? hline)) h.malformed

/-- What is reported is rejected. -/
theorem rejects_of_parse {source : Str} {error : ParseError}
    (h : (OwningGraph.parse source : Except Panic (Except ParseError TestGraph)) =
      .ok (.error error)) : Rejects (Str.lines source) error := by
  rcases parse_spec (DerivedId .usize) (DerivedId .usize) source with
    ⟨error', hrun, h'⟩ | ⟨forms, self, -, hrun, -⟩
  · rw [hrun] at h
    cases h
    exact h'
  · rw [hrun] at h
    cases h

end Parser

namespace Parse

open Jstd.Parser OwningGraph

theorem Says.wellFormed {source : Str} {statements : List Statement} (h : Says source statements) :
    ∀ line ∈ Str.lines source, WellFormed line := by
  obtain ⟨forms, hforms, -⟩ := h
  exact wellFormed_of_forms hforms

theorem says_of_parse {source : Str} {g : TestGraph}
    (h : OwningGraph.parse source = .ok (.ok g)) : ∃ statements, Says source statements := by
  rcases parse_spec (DerivedId .usize) (DerivedId .usize) source with
    ⟨error, hrun, -⟩ | ⟨forms, self, hforms, -, -⟩
  · rw [hrun] at h
    cases h
  · exact ⟨_, forms, hforms, rfl⟩

theorem Says.append {head tail : Str} {first second : List Statement}
    (h : Says (head ++ ['\n']) first) (h' : Says tail second) :
    Says (head ++ '\n' :: tail) (first ++ second) := by
  obtain ⟨forms, hforms, rfl⟩ := h
  obtain ⟨forms', hforms', rfl⟩ := h'
  refine ⟨forms ++ forms', ?_, List.reduceOption_append forms forms'⟩
  rw [Str.lines_append]
  exact List.rel_append hforms hforms'

/-! ## Growth -/

theorem names_prefix (first second : List Statement) :
    names first <+: names (first ++ second) := by
  rw [names, names, List.flatMap_append, List.eraseDups_append]
  exact List.prefix_append _ _

theorem arrows_append (first second : List Statement) :
    arrows (first ++ second) = arrows first ++ arrows second :=
  List.filterMap_append

/-- The label stays unless a later line sets it. -/
theorem nodeText_append {first second : List Statement} {name : Str}
    (h : ∀ payload, Statement.node name (some payload) ∉ second) :
    nodeText (first ++ second) name = nodeText first name := by
  have hnil : second.filterMap (Statement.payloadOf name) = [] := by
    rw [List.filterMap_eq_nil_iff]
    intro statement hstatement
    cases statement with
    | edge source target text => rfl
    | node name' payload =>
        rw [Statement.payloadOf]
        split
        · subst name'
          cases payload with
          | none => rfl
          | some payload => exact absurd hstatement (h payload)
        · rfl
  rw [nodeText, nodeText, List.filterMap_append, hnil, List.append_nil]

/-- All that `g` has is in `g'` under the same ids; `Sets` are the names that may change labels. -/
structure Grows (first : List Statement) (Sets : Str → Prop) (g g' : TestGraph) : Prop where
  node : ∀ {id}, g.IsNode id → g'.IsNode id
  label : ∀ {name}, name ∈ names first → ¬ Sets name →
    g'.nodeData.get? (nameId _ first name) = g.nodeData.get? (nameId _ first name)
  edge : ∀ {e raw}, g.edges.get? e = some raw → g'.edges.get? e = some raw
  text : ∀ {e text}, g.edgeData.get? e = some text → g'.edgeData.get? e = some text

theorem grows_of_denotes {first second : List Statement} {g g' : TestGraph}
    (h : Denotes first g) (h' : Denotes (first ++ second) g') :
    Grows first (fun name => ∃ payload, Statement.node name (some payload) ∈ second) g g' := by
  -- A name keeps its place among the names, and an arrow its place among the arrows.
  have hname : ∀ {i : Nat} {name}, (names first)[i]? = some name →
      (names (first ++ second))[i]? = some name := by
    intro i name hi
    obtain ⟨rest, hrest⟩ := names_prefix first second
    rw [← hrest, List.getElem?_append_left (List.getElem?_eq_some_iff.1 hi).1, hi]
  have harrow : ∀ {k : Nat} {arrow}, (arrows first)[k]? = some arrow →
      (arrows (first ++ second))[k]? = some arrow := by
    intro k arrow hk
    rw [arrows_append, List.getElem?_append_left (List.getElem?_eq_some_iff.1 hk).1, hk]
  have hget : ∀ {e}, g.IsEdge e → ∃ (k : Nat) (source target text : Str),
      (arrows first)[k]? = some (source, target, text) ∧ e = fromUsize k := by
    intro e he
    obtain ⟨k, hk, rfl⟩ := h.edge_only he
    exact ⟨k, _, _, _, List.getElem?_eq_getElem hk, rfl⟩
  refine ⟨fun {id} hid => ?_, fun {name} hmem hsets => ?_, fun {e raw} he => ?_,
    fun {e text} he => ?_⟩
  · obtain ⟨k, hk, rfl⟩ := h.node_only hid
    exact HashMap.mem_keys_of_get? (h'.node (hname (List.getElem?_eq_getElem hk)))
  · obtain ⟨i, hi⟩ := List.mem_iff_getElem?.1 hmem
    rw [Denotes.nameId_of_getElem? hi, h.node hi, h'.node (hname hi),
      nodeText_append fun payload hin => hsets ⟨payload, hin⟩]
  · have hkey := HashMap.mem_keys_of_get? he
    rw [h.consistent.edge_keys] at hkey
    obtain ⟨k, source, target, text, hk, rfl⟩ := hget hkey
    obtain ⟨-, i, j, hi, hj, hraw⟩ := h.edge hk
    obtain ⟨-, i', j', hi', hj', hraw'⟩ := h'.edge (harrow hk)
    rw [hraw] at he
    cases he
    rw [hraw', ← Denotes.nameId_of_getElem? hi', ← Denotes.nameId_of_getElem? hj',
      ← Denotes.nameId_of_getElem? (hname hi), ← Denotes.nameId_of_getElem? (hname hj)]
  · obtain ⟨k, source, target, text', hk, rfl⟩ := hget (HashMap.mem_keys_of_get? he)
    rw [(h.edge hk).1] at he
    rw [(h'.edge (harrow hk)).1, he]

/-- Parsing a text that is cut after a line feed: the first part's error is the error, the second
part's is the error further down, and otherwise the graph of the first part has grown. -/
theorem parse_append {source : Source} {head tail : Str}
    (hsource : source.text = head ++ '\n' :: tail) :
    (∀ error, (parse (head ++ ['\n']) : Except Panic (Except ParseError TestGraph)) =
        .ok (.error error) →
      (parse source.text : Except Panic (Except ParseError TestGraph)) = .ok (.error error)) ∧
    (∀ (g : TestGraph) error, parse (head ++ ['\n']) = .ok (.ok g) →
      (parse tail : Except Panic (Except ParseError TestGraph)) = .ok (.error error) →
      (parse source.text : Except Panic (Except ParseError TestGraph)) =
        .ok (.error { error with
          lineNumber := (Str.lines (head ++ ['\n'])).length + error.lineNumber })) ∧
    ∀ g g₂ : TestGraph, parse (head ++ ['\n']) = .ok (.ok g) → parse tail = .ok (.ok g₂) →
      ∃ first second, ∃ g' : TestGraph, Says (head ++ ['\n']) first ∧ Says tail second ∧
        parse source.text = .ok (.ok g') ∧
        Grows first (fun name => ∃ payload, Statement.node name (some payload) ∈ second) g g' := by
  have hlines : Str.lines source.text = Str.lines (head ++ ['\n']) ++ Str.lines tail := by
    rw [hsource, Str.lines_append]
  refine ⟨fun error h => ?_, fun g error hg h => ?_, fun g g₂ hg hg₂ => ?_⟩
  · refine Rejects.parse ?_
    rw [hlines]
    exact (rejects_of_parse h).append _
  · obtain ⟨first, hfirst⟩ := says_of_parse hg
    refine Rejects.parse ?_
    rw [hlines]
    exact (rejects_of_parse h).after hfirst.wellFormed
  · obtain ⟨first, hfirst⟩ := says_of_parse hg
    obtain ⟨second, hsecond⟩ := says_of_parse hg₂
    -- The first part is a text that fits in memory, as the whole is one.
    have hlen : Str.len (head ++ ['\n']) ≤ isizeMax := by
      refine Nat.le_trans ?_ source.len_le
      rw [hsource, Str.len_append, Str.len_append, Str.len_cons, Str.len_cons, Str.len_nil]
      omega
    obtain ⟨g₁, hrun₁, hdenotes⟩ := @Says.parse ⟨head ++ ['\n'], hlen⟩ first hfirst
    obtain rfl : g₁ = g := by
      rw [hrun₁] at hg
      cases hg
      rfl
    have hboth : Says source.text (first ++ second) := hsource ▸ hfirst.append hsecond
    obtain ⟨g', hrun', hdenotes'⟩ := hboth.parse
    exact ⟨first, second, g', hfirst, hsecond, hrun', grows_of_denotes hdenotes hdenotes'⟩

/-- The text `a -> b [p->next]`, and a line that is not well formed. -/
theorem parse_append_broken :
    (parse (arrowSource.text ++ '\n' :: renderLabelled nameA pointerLabel) :
        Except Panic (Except ParseError TestGraph)) =
      .ok (.error
        { lineNumber := 2
          line := renderLabelled nameA pointerLabel
          kind := .invalidEdgeDeclaration }) := by
  have hlines : Str.lines (arrowSource.text ++ ['\n']) = Str.lines arrowSource.text := by
    decide
  have hsays : Says (arrowSource.text ++ ['\n'])
      [.edge nameA.text nameB.text pointerLabel.text] := by
    rw [Says, hlines]
    exact arrowSource_says
  obtain ⟨g, hg, -⟩ := @Says.parse ⟨_, by decide⟩ _ hsays
  exact (@parse_append ⟨_, by decide⟩ _ _ rfl).2.1 g
    { lineNumber := 1
      line := renderLabelled nameA pointerLabel
      kind := .invalidEdgeDeclaration } hg rfl

end Parse
end Jstd
