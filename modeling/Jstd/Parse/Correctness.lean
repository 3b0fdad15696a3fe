import Mathlib.Data.List.ReduceOption
import Jstd.Parse.Meaning

/-!
# parse accepts its grammar and builds what the text denotes

One line is either performed or reported; a run over the lines keeps `Built` for the statements read
so far, and stops at the first line that is not well formed.  A source is no longer than a slice may
be, so the counters of a graph over `usize` ids never run out.
-/

namespace Jstd

open Foundation Parse

namespace Parser

variable {NodeId EdgeId : Type} [DecidableEq NodeId] [DecidableEq EdgeId] [Identifier NodeId]
  [Identifier EdgeId] {statements : List Statement} {self : Parser NodeId EdgeId}

/-! ## One statement -/

/-- `ensure_node` is the statement of a node, and returns its id. -/
theorem ensureNode_built (h : Built statements self) (name : Str) (payload : Option Str) :
    ∃ k self', (ensureNode name payload).run self = (.ok (fromUsize k), self') ∧
      Built (statements ++ [.node name payload]) self' ∧
      (names (statements ++ [.node name payload]))[k]? = some name := by
  -- A name in the table keeps its id, and a payload replaces the text of its node.
  by_cases hname : name ∈ names statements
  · obtain ⟨k, hk⟩ := List.mem_iff_getElem?.1 hname
    have hnames : names (statements ++ [.node name payload]) = names statements := by
      rw [names_node, if_pos hname]
    cases payload with
    | none =>
        refine ⟨k, self, ?_, h.mention hname, by rw [hnames, hk]⟩
        rw [ensureNode, Method.run_bind_get, h.known hk]
        rfl
    | some payload =>
        refine ⟨k, _, ?_, h.setPayload hk payload, by rw [hnames, hk]⟩
        have hset := OwningGraph.setNodeData_run (h.live (h.known hk)) payload
        rw [ensureNode, Method.run_bind_get, h.known hk]
        exact Method.run_bind_of_ok (Method.run_focus_of_ok hset) _
  · refine ⟨self.graph.nextNodeId, _, ?_, h.addName hname payload, ?_⟩
    · rw [ensureNode, Method.run_bind_get, h.unknown hname]
      rfl
    · rw [names_node, if_neg hname, h.nodeCount, List.getElem?_concat_length]

theorem perform_built (h : Built statements self) (statement : Option Statement) :
    ∃ self', (perform statement).run self = (.ok (.ok ()), self') ∧
      Built (statements ++ statement.toList) self' := by
  cases statement with
  | none =>
      refine ⟨self, rfl, ?_⟩
      rw [Option.toList_none, List.append_nil]
      exact h
  | some statement =>
      cases statement with
      | node name payload =>
          obtain ⟨k, self', hrun, h', -⟩ := ensureNode_built h name payload
          exact ⟨self', by rw [perform, Method.run_bind_of_ok hrun]; rfl, h'⟩
      | edge source target text =>
          obtain ⟨i, self₁, hrun₁, h₁, hi⟩ := ensureNode_built h source none
          obtain ⟨j, self₂, hrun₂, h₂, hj⟩ := ensureNode_built h₁ target none
          -- The source is still where it was when the target has been mentioned.
          have hi' : (names (statements ++ [.node source none] ++ [.node target none]))[i]? =
              some source := by
            rw [names_node]
            split
            · exact hi
            · rw [List.getElem?_append_left (List.getElem?_eq_some_iff.1 hi).1, hi]
          obtain ⟨id, self', hrun', h'⟩ := h₂.addArrow hi' hj text (names_edge source target text)
            (by
              intro m
              rw [nodeText_edge, nodeText_node, nodeText_node]
              simp only [Option.getD_none, ite_self])
            (by rw [arrows_edge, arrows_node, arrows_node])
          refine ⟨self', ?_, h'⟩
          rw [perform, Method.run_bind_of_ok hrun₁, Method.run_bind_of_ok hrun₂,
            Method.run_bind_of_ok hrun']
          rfl

/-! ## All lines -/

/-- The first line that is not well formed, as the error reports it. -/
structure Rejects (lines : List Str) (error : ParseError) : Prop where
  line : ∃ i, error.lineNumber = i + 1 ∧ lines[i]? = some error.line ∧
    ∀ j < i, ∀ line, lines[j]? = some line → WellFormed line
  malformed : ¬ WellFormed error.line
  kind : error.kind = .invalidEdgeDeclaration ↔ arrow <:+: error.line

theorem parseLines_spec (lines : List Str) :
    ∀ (index : Nat) {statements : List Statement} {self : Parser NodeId EdgeId},
      Built statements self →
      (∃ forms self', List.Forall₂ Reads lines forms ∧
          (parseLines index lines).run self = (.ok (.ok ()), self') ∧
          Built (statements ++ forms.reduceOption) self') ∨
        ∃ i line kind self', Rejects lines { lineNumber := i + 1, line, kind } ∧
          (parseLines index lines).run self =
            (.ok (.error { lineNumber := index + i + 1, line, kind }), self') := by
  induction lines with
  | nil =>
      intro index statements self h
      refine .inl ⟨[], self, .nil, rfl, ?_⟩
      rw [List.reduceOption_nil, List.append_nil]
      exact h
  | cons line lines ih =>
      intro index statements self h
      rw [parseLines]
      -- The first line is performed and the others are run, or the run ends with it.
      rcases parseLine_spec NodeId EdgeId (index + 1) line with ⟨statement, hreads, hline⟩ |
        ⟨kind, hbad, hkind, hline⟩
      · rw [hline]
        obtain ⟨self', hrun, h'⟩ := perform_built h statement
        rw [Method.run_bind_of_ok hrun]
        rcases ih (index + 1) h' with ⟨forms, self'', hforms, hrest, h''⟩ |
          ⟨i, bad, kind, self'', ⟨⟨k, hk, hget, hbefore⟩, hbad, hkind⟩, hrest⟩
        · refine .inl ⟨statement :: forms, self'', .cons hreads hforms, hrest, ?_⟩
          -- A blank line adds no statement.
          have hstatements : statements ++ (statement :: forms).reduceOption =
              statements ++ statement.toList ++ forms.reduceOption := by
            rw [List.append_assoc]
            cases statement with
            | none => rw [List.reduceOption_cons_of_none, Option.toList_none, List.nil_append]
            | some statement => rw [List.reduceOption_cons_of_some]; rfl
          rw [hstatements]
          exact h''
        · obtain rfl : i = k := Nat.succ.inj hk
          refine .inr ⟨i + 1, bad, kind, self'', ⟨⟨i + 1, rfl, hget, ?_⟩, hbad, hkind⟩, ?_⟩
          · intro j hj line' hline'
            cases j with
            | zero =>
                cases hline'
                exact ⟨statement, hreads⟩
            | succ j => exact hbefore j (Nat.lt_of_succ_lt_succ hj) line' hline'
          · rw [show index + (i + 1) + 1 = index + 1 + i + 1 by omega]
            exact hrest
      · rw [hline]
        refine .inr ⟨0, line, kind, self, ⟨⟨0, rfl, rfl, fun j hj => ?_⟩, hbad, hkind⟩, rfl⟩
        exact absurd hj (Nat.not_lt_zero j)

end Parser

/-! ## The whole source -/

namespace Parse

/-- A string slice, which is an object like any other. -/
structure Source where
  text : Str
  len_le : Str.len text ≤ isizeMax

end Parse

namespace OwningGraph

open Jstd.Parser

/-- What `parse` owes a source: the error for its first malformed line, or the graph its statements
denote, provided that the ids of that graph are apart. -/
def Exact {NodeId EdgeId : Type} [DecidableEq NodeId] [DecidableEq EdgeId] [Identifier NodeId]
    [Identifier EdgeId] (apart : OwningGraph NodeId EdgeId Str Str → Prop) (source : Str)
    (result : Except Panic (Except ParseError (OwningGraph NodeId EdgeId Str Str))) : Prop :=
  (∃ error, result = .ok (.error error) ∧ Rejects (Str.lines source) error) ∨
    ∃ g, result = .ok (.ok g) ∧ (∀ line ∈ Str.lines source, WellFormed line) ∧
      (apart g → ∀ forms, List.Forall₂ Reads (Str.lines source) forms →
        Denotes forms.reduceOption g)

theorem forms_unique {lines : List Str} {forms forms' : List (Option Statement)}
    (h : List.Forall₂ Reads lines forms) (h' : List.Forall₂ Reads lines forms') :
    forms = forms' := by
  induction h generalizing forms' with
  | nil =>
      cases h'
      rfl
  | cons hread _ ih =>
      cases h' with
      | cons hread' hrest' => rw [hread.unique hread', ih hrest']

theorem wellFormed_of_forms {lines : List Str} {forms : List (Option Statement)}
    (h : List.Forall₂ Reads lines forms) : ∀ line ∈ lines, WellFormed line := by
  induction h with
  | nil =>
      intro line hline
      cases hline
  | cons hread _ ih =>
      intro line hline
      rcases List.mem_cons.1 hline with rfl | hline
      · exact ⟨_, hread⟩
      · exact ih line hline

/-- The statements of a source that was accepted, with what has been built from them. -/
theorem parse_spec (NodeId EdgeId : Type) [DecidableEq NodeId] [DecidableEq EdgeId]
    [Identifier NodeId] [Identifier EdgeId] (source : Str) :
    (∃ error, (parse source : Except Panic (Except ParseError (OwningGraph NodeId EdgeId Str Str)))
        = .ok (.error error) ∧ Rejects (Str.lines source) error) ∨
      ∃ forms, ∃ self : Parser NodeId EdgeId, List.Forall₂ Reads (Str.lines source) forms ∧
        parse source = .ok (.ok self.graph) ∧ Built forms.reduceOption self := by
  rcases parseLines_spec (Str.lines source) 0 (built_nil NodeId EdgeId) with
    ⟨forms, self, hforms, hrun, hbuilt⟩ | ⟨i, line, kind, self, hrejects, hrun⟩
  · refine .inr ⟨forms, self, hforms, ?_, by simpa using hbuilt⟩
    rw [parse, hrun]
  · rw [Nat.zero_add] at hrun
    exact .inl ⟨_, by rw [parse, hrun], hrejects⟩

theorem eraseDups_length_le {α : Type} [BEq α] [LawfulBEq α] :
    ∀ l : List α, l.eraseDups.length ≤ l.length
  | [] => Nat.le_refl 0
  | a :: l => by
      have hfilter := List.length_filter_le (fun b => !b == a) l
      rw [List.eraseDups_cons, List.length_cons, List.length_cons]
      exact Nat.succ_le_succ (Nat.le_trans (eraseDups_length_le _) hfilter)
termination_by l => l.length

theorem names_length_le (statements : List Statement) :
    (names statements).length ≤ 2 * statements.length := by
  refine Nat.le_trans (eraseDups_length_le _) ?_
  induction statements with
  | nil => exact Nat.le_refl 0
  | cons s statements ih =>
      -- A statement mentions at most two names.
      have hs : s.mentions.length ≤ 2 := by
        cases s with
        | node name payload => exact Nat.le_succ 1
        | edge source target text => exact Nat.le_refl 2
      rw [List.flatMap_cons, List.length_append, List.length_cons]
      omega

/-- A source has too few lines for a counter to outgrow a `usize`. -/
theorem built_idsInjective {source : Str} (hlen : Str.len source ≤ isizeMax)
    {forms : List (Option Statement)} (hforms : List.Forall₂ Reads (Str.lines source) forms)
    {self : Parser (DerivedId .usize) (DerivedId .usize)} (h : Built forms.reduceOption self) :
    self.graph.IdsInjective := by
  have hlines : forms.reduceOption.length ≤ isizeMax := by
    calc forms.reduceOption.length
        ≤ forms.length := List.reduceOption_length_le forms
      _ = (Str.lines source).length := hforms.length_eq.symm
      _ ≤ source.length := Str.lines_length_le source
      _ ≤ Str.len source := Str.length_le_len source
      _ ≤ isizeMax := hlen
  have hmax : 2 * isizeMax ≤ Backing.usize.max + 1 := by decide
  refine idsInjective_of_le ?_ ?_
  · rw [h.nodeCount]
    have := names_length_le forms.reduceOption
    omega
  · rw [h.edgeCount]
    have : (arrows forms.reduceOption).length ≤ forms.reduceOption.length :=
      List.length_filterMap_le _ _
    omega

/-- `parse` accepts exactly its grammar and builds the graph the text denotes: over `usize` ids for
every source, and over other ids as long as they are apart. -/
theorem parse_exact (source : Source) :
    (∀ (NodeId EdgeId : Type) [DecidableEq NodeId] [DecidableEq EdgeId] [Identifier NodeId]
        [Identifier EdgeId],
      Exact (fun g : OwningGraph NodeId EdgeId Str Str => g.IdsInjective) source.text
        (parse source.text)) ∧
      Exact (fun _ : TestGraph => True) source.text (parse source.text) := by
  refine ⟨?_, ?_⟩
  · intro NodeId EdgeId _ _ _ _
    rcases parse_spec NodeId EdgeId source.text with herror |
      ⟨forms, self, hforms, hrun, hbuilt⟩
    · exact .inl herror
    · refine .inr ⟨self.graph, hrun, wellFormed_of_forms hforms, fun hids forms' hforms' => ?_⟩
      rw [← forms_unique hforms hforms']
      exact hbuilt.denotes hids
  · rcases parse_spec (DerivedId .usize) (DerivedId .usize) source.text with herror |
      ⟨forms, self, hforms, hrun, hbuilt⟩
    · exact .inl herror
    · refine .inr ⟨self.graph, hrun, wellFormed_of_forms hforms, fun _ forms' hforms' => ?_⟩
      rw [← forms_unique hforms hforms']
      exact hbuilt.denotes (built_idsInjective source.len_le hforms hbuilt)

end OwningGraph
end Jstd
