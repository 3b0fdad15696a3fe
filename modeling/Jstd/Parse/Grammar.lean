import Jstd.Parse.Basic

/-!
# The grammar of parse

What a line may look like, said without offsets or trimming, and the proof that `parse_declaration`
accepts exactly that.  A name ends at whitespace or at a bracket; whatever stands between the first
bracket after it and the last character of the declaration is payload, brackets and arrows included.
-/

namespace Jstd
namespace Parse

open Foundation

/-! ## Lines -/

/-- NAME. -/
structure IsName (name : Str) : Prop where
  nonempty : name ≠ []
  plain : ∀ c ∈ name, Str.isWhitespace c = false ∧ c ≠ '['

/-- NAME or NAME [PAYLOAD], with whitespace around its parts; a payload counts as trimmed. -/
inductive Declares : Str → Str → Option Str → Prop
  | bare {pre name post : Str} (hpre : Str.Blank pre) (hname : IsName name)
      (hpost : Str.Blank post) : Declares (pre ++ name ++ post) name none
  | labelled {pre name gap payload post : Str} (hpre : Str.Blank pre) (hname : IsName name)
      (hgap : Str.Blank gap) (hpayload : ¬ Str.Blank payload) (hpost : Str.Blank post) :
      Declares (pre ++ (name ++ (gap ++ '[' :: (payload ++ [']']))) ++ post) name
        (some (Str.trim payload))

/-- What a line says. -/
inductive Statement
  | node (name : Str) (payload : Option Str)
  | edge (source target text : Str)
  deriving DecidableEq

/-- A well-formed line, and what it says if it is not blank. -/
inductive Reads : Str → Option Statement → Prop
  | blank {line : Str} (h : Str.Blank line) : Reads line none
  | node {line name : Str} {payload : Option Str} (harrow : ¬ arrow <:+: line)
      (h : Declares line name payload) : Reads line (some (.node name payload))
  | edge {line left right source target : Str} {payload : Option Str}
      (hsplit : Str.SplitsAt arrow line left right) (hleft : Declares left source none)
      (hright : Declares right target payload) :
      Reads line (some (.edge source target (payload.getD (Str.trim line))))

def WellFormed (line : Str) : Prop :=
  ∃ statement, Reads line statement

/-! ## parse_declaration -/

/-- Where a name ends. -/
def endsName (c : Char) : Bool :=
  Str.isWhitespace c || c == '['

theorem IsName.not_endsName {name : Str} (h : IsName name) {c : Char} (hc : c ∈ name) :
    (!endsName c) = true := by
  obtain ⟨hspace, hbracket⟩ := h.plain c hc
  simp [endsName, hspace, hbracket]

theorem isName_of_not_endsName {name : Str} (hne : name ≠ [])
    (h : ∀ c ∈ name, (!endsName c) = true) : IsName name where
  nonempty := hne
  plain := by
    intro c hc
    simpa [endsName] using h c hc

theorem IsName.tight {name : Str} (h : IsName name) : Str.Tight name where
  head c hc := (h.plain c (List.mem_of_mem_head? hc)).1
  last c hc := (h.plain c (List.mem_of_getLast? hc)).1

/-- The part of `parse_declaration` after the name. -/
def parseTrailing (name trailing : Str) : Except Panic (Option (Str × Option Str)) := do
  if trailing = [] then return some (name, none)
  if !Str.startsWith trailing '[' || !Str.endsWith trailing ']' then return none
  let inner ← sliced (Str.slice trailing 1 (Str.len trailing - 1))
  let payload := Str.trim inner
  if payload = [] then return none
  return some (name, some payload)

/-- The two slices at the end of the name are in bounds. -/
theorem parseDeclaration_of_name {input name rest : Str} (htrim : Str.trim input = name ++ rest)
    (hname : IsName name) (hrest : ∀ c ∈ rest.head?, endsName c = true) :
    parseDeclaration input = parseTrailing name (Str.trim rest) := by
  -- The name is what `find` passes over, so its length is the offset found.
  have htake : (name ++ rest).takeWhile (fun c => !endsName c) = name := by
    rw [List.takeWhile_append_of_pos fun c hc => hname.not_endsName hc]
    cases rest with
    | nil => rw [List.takeWhile_nil, List.append_nil]
    | cons c rest =>
        rw [List.takeWhile_cons_of_neg (by simp [hrest c rfl]), List.append_nil]
  have hindex : (Str.find (fun c => Str.isWhitespace c || c == '[') (name ++ rest)).getD
      (Str.len (name ++ rest)) = Str.len name := by
    rw [Str.find_getD]
    exact congrArg Str.len htake
  have hne : name ++ rest ≠ [] := fun h => hname.nonempty (List.append_eq_nil_iff.1 h).1
  have hlen : Str.len name ≠ 0 := fun h => hname.nonempty (Str.len_eq_zero_iff.1 h)
  simp only [parseDeclaration, htrim, if_neg hne, hindex, if_neg hlen, Str.sliceTo_append,
    Str.sliceFrom_append, sliced, Bind.bind, Except.bind]
  rfl

/-- An input that does not begin with a name. -/
theorem parseDeclaration_nameless {input : Str}
    (h : (Str.trim input).takeWhile (fun c => !endsName c) = []) :
    parseDeclaration input = .ok none := by
  -- Nothing at all, or an offset of zero.
  by_cases hnil : Str.trim input = []
  · rw [parseDeclaration, if_pos hnil]
    rfl
  · have hindex : (Str.find (fun c => Str.isWhitespace c || c == '[') (Str.trim input)).getD
        (Str.len (Str.trim input)) = 0 := by
      rw [Str.find_getD]
      exact congrArg Str.len h
    simp only [parseDeclaration, if_neg hnil, hindex]
    rfl

theorem parseTrailing_bracketed (name payload : Str) :
    parseTrailing name ('[' :: (payload ++ [']'])) =
      .ok (if Str.trim payload = [] then none else some (name, some (Str.trim payload))) := by
  -- The brackets have one byte each.
  have hslice : Str.slice ('[' :: (payload ++ [']'])) 1
      (Str.len ('[' :: (payload ++ [']'])) - 1) = some payload := by
    have h := Str.slice_append ['['] payload [']']
    have hlen : Str.len ('[' :: (payload ++ [']'])) - 1 = Str.len ['['] + Str.len payload := by
      rw [Str.len_cons, Str.len_append, show Str.len ['['] = 1 from rfl,
        show Str.len [']'] = 1 from rfl, show ('[' : Char).utf8Size = 1 from rfl]
      omega
    rw [hlen]
    exact h
  have hstart : Str.startsWith ('[' :: (payload ++ [']'])) '[' = true := by
    simp [Str.startsWith]
  have hend : Str.endsWith ('[' :: (payload ++ [']'])) ']' = true := by
    rw [Str.endsWith, ← List.cons_append, List.getLast?_concat]
    rfl
  simp only [parseTrailing, if_neg (List.cons_ne_nil _ _), hstart, hend, hslice, sliced,
    Bool.not_true, Bool.or_false, Bool.false_eq_true, if_false, Bind.bind, Except.bind]
  split
  · rfl
  · rfl

theorem exists_bracketed {trailing : Str} (hstart : Str.startsWith trailing '[' = true)
    (hend : Str.endsWith trailing ']' = true) :
    ∃ payload, trailing = '[' :: (payload ++ [']']) := by
  rw [Str.startsWith, beq_iff_eq, List.head?_eq_some_iff] at hstart
  obtain ⟨rest, rfl⟩ := hstart
  rw [Str.endsWith, beq_iff_eq, List.getLast?_eq_some_iff] at hend
  obtain ⟨front, hfront⟩ := hend
  -- One character is not both brackets.
  cases front with
  | nil =>
      rw [List.nil_append] at hfront
      cases hfront
  | cons c payload =>
      rw [List.cons_append, List.cons.injEq] at hfront
      obtain ⟨rfl, rfl⟩ := hfront
      exact ⟨payload, rfl⟩

theorem parseDeclaration_of_declares {input name : Str} {payload : Option Str}
    (h : Declares input name payload) : parseDeclaration input = .ok (some (name, payload)) := by
  cases h with
  | @bare pre name post hpre hname hpost =>
      have htrim : Str.trim (pre ++ name ++ post) = name ++ [] := by
        rw [Str.trim_pad hpre name hpost, Str.trim_of_tight hname.tight, List.append_nil]
      rw [parseDeclaration_of_name htrim hname (by simp)]
      rfl
  | @labelled pre name gap payload post hpre hname hgap hpayload hpost =>
      have hbracketed : Str.Tight ('[' :: (payload ++ [']'])) := by
        refine ⟨?_, ?_⟩
        · intro c hc
          cases hc
          decide
        · intro c hc
          rw [← List.cons_append, List.getLast?_concat] at hc
          cases hc
          decide
      -- Trimming takes off what stands around the declaration, and no more.
      have htight : Str.Tight (name ++ (gap ++ '[' :: (payload ++ [']']))) := by
        refine ⟨?_, ?_⟩
        · intro c hc
          rw [List.head?_append_of_ne_nil _ hname.nonempty] at hc
          exact hname.tight.head c hc
        · intro c hc
          rw [← List.append_assoc, List.getLast?_append_of_ne_nil _ (List.cons_ne_nil _ _)] at hc
          exact hbracketed.last c hc
      have htrim : Str.trim (pre ++ (name ++ (gap ++ '[' :: (payload ++ [']']))) ++ post) =
          name ++ (gap ++ '[' :: (payload ++ [']'])) := by
        rw [Str.trim_pad hpre _ hpost, Str.trim_of_tight htight]
      have htrailing : Str.trim (gap ++ '[' :: (payload ++ [']'])) = '[' :: (payload ++ [']']) := by
        rw [← List.append_nil (gap ++ _), Str.trim_pad hgap _ (by simp [Str.Blank]),
          Str.trim_of_tight hbracketed]
      rw [parseDeclaration_of_name htrim hname, htrailing, parseTrailing_bracketed,
        if_neg (Str.trim_ne_nil hpayload)]
      intro c hc
      cases gap with
      | nil =>
          cases hc
          decide
      | cons d gap =>
          cases hc
          rw [endsName, hgap _ List.mem_cons_self, Bool.true_or]

/-- `parse_declaration` never panics, and accepts nothing but declarations. -/
theorem parseDeclaration_spec (input : Str) :
    (∃ name payload, parseDeclaration input = .ok (some (name, payload)) ∧
        Declares input name payload) ∨
      parseDeclaration input = .ok none ∧ ∀ name payload, ¬ Declares input name payload := by
  -- What is accepted is a declaration; the rest follows, as declarations are accepted.
  suffices h : (∃ name payload, parseDeclaration input = .ok (some (name, payload)) ∧
      Declares input name payload) ∨ parseDeclaration input = .ok none by
    refine h.imp_right fun hnone => ⟨hnone, fun name payload hdecl => ?_⟩
    rw [parseDeclaration_of_declares hdecl] at hnone
    cases hnone
  obtain ⟨pre, post, hinput, hpre, hpost⟩ := Str.exists_trim input
  -- The name first, then what trails it.
  by_cases hname : (Str.trim input).takeWhile (fun c => !endsName c) = []
  · exact .inr (parseDeclaration_nameless hname)
  · obtain ⟨name, rest, htrim, hisName, hrest⟩ : ∃ name rest, Str.trim input = name ++ rest ∧
        IsName name ∧ ∀ c ∈ rest.head?, endsName c = true := by
      refine ⟨_, _, List.takeWhile_append_dropWhile.symm,
        isName_of_not_endsName hname fun c hc =>
          List.mem_takeWhile_imp (p := fun c => !endsName c) hc, ?_⟩
      intro c hc
      have := List.head?_dropWhile_not (fun c => !endsName c) (Str.trim input)
      rw [Option.mem_def.1 hc] at this
      simpa using this
    rw [parseDeclaration_of_name htrim hisName hrest]
    obtain ⟨gap, gap', hsplit, hgap, hgap'⟩ := Str.exists_trim rest
    rw [htrim, hsplit] at hinput
    by_cases hbare : Str.trim rest = []
    · -- Nothing but whitespace after the name.
      rw [hbare, List.append_nil] at hinput
      refine .inl ⟨name, none, by rw [hbare]; rfl, ?_⟩
      rw [hinput, ← List.append_assoc, List.append_assoc]
      refine .bare hpre hisName ?_
      intro c hc
      simp only [List.mem_append] at hc
      rcases hc with (hc | hc) | hc
      · exact hgap c hc
      · exact hgap' c hc
      · exact hpost c hc
    · -- Something trails the name: it needs both brackets and something between them.
      by_cases hbrackets : Str.startsWith (Str.trim rest) '[' = true ∧
          Str.endsWith (Str.trim rest) ']' = true
      · obtain ⟨payload, hpayload⟩ := exists_bracketed hbrackets.1 hbrackets.2
        rw [hpayload, parseTrailing_bracketed]
        by_cases hblank : Str.trim payload = []
        · exact .inr (by rw [if_pos hblank])
        · refine .inl ⟨name, some (Str.trim payload), by rw [if_neg hblank], ?_⟩
          have hpad : Str.Blank (gap' ++ post) := by
            intro c hc
            exact (List.mem_append.1 hc).elim (hgap' c) (hpost c)
          have heq : input = pre ++ (name ++ (gap ++ '[' :: (payload ++ [']']))) ++
              (gap' ++ post) := by
            rw [hinput, hpayload]
            simp only [List.append_assoc]
          rw [heq]
          exact .labelled hpre hisName hgap (fun h => hblank (Str.trim_eq_nil_iff.2 h)) hpad
      · refine .inr ?_
        have hcond : (!Str.startsWith (Str.trim rest) '[' || !Str.endsWith (Str.trim rest) ']') =
            true := by
          simpa [imp_iff_not_or] using hbrackets
        rw [parseTrailing, if_neg hbare, if_pos hcond]
        rfl

/-! ## Lines, and what the parser does with them -/

/-- Whitespace around a declaration makes no difference. -/
theorem parseDeclaration_congr {s t : Str} (h : Str.trim s = Str.trim t) :
    parseDeclaration s = parseDeclaration t := by
  rw [parseDeclaration, parseDeclaration, h]

theorem declares_iff {input name : Str} {payload : Option Str} :
    Declares input name payload ↔ parseDeclaration input = .ok (some (name, payload)) := by
  constructor
  · exact parseDeclaration_of_declares
  · intro h
    rcases parseDeclaration_spec input with ⟨name', payload', h', hdecl⟩ | ⟨h', -⟩
    · rw [h] at h'
      cases h'
      exact hdecl
    · rw [h] at h'
      cases h'

theorem declares_congr {s t name : Str} {payload : Option Str} (h : Str.trim s = Str.trim t) :
    Declares s name payload ↔ Declares t name payload := by
  rw [declares_iff, declares_iff, parseDeclaration_congr h]

theorem parseIdentifier_spec (input : Str) :
    (∃ name, parseIdentifier input = .ok (some name) ∧ Declares input name none) ∨
      parseIdentifier input = .ok none ∧ ∀ name, ¬ Declares input name none := by
  rcases parseDeclaration_spec input with ⟨name, payload, h, hdecl⟩ | ⟨h, hnone⟩
  · cases payload with
    | none => exact .inl ⟨name, by rw [parseIdentifier, h]; rfl, hdecl⟩
    | some payload =>
        refine .inr ⟨by rw [parseIdentifier, h]; rfl, fun name' hdecl' => ?_⟩
        rw [declares_iff, h] at hdecl'
        cases hdecl'
  · exact .inr ⟨by rw [parseIdentifier, h]; rfl, fun name => hnone name none⟩

theorem Declares.not_blank {input name : Str} {payload : Option Str}
    (h : Declares input name payload) : ¬ Str.Blank input := by
  intro hblank
  have hnone : (Str.trim input).takeWhile (fun c => !endsName c) = [] := by
    rw [Str.trim_eq_nil_iff.2 hblank, List.takeWhile_nil]
  rw [declares_iff, parseDeclaration_nameless hnone] at h
  cases h

theorem not_blank_of_arrow {line : Str} (h : arrow <:+: line) : ¬ Str.Blank line := by
  intro hblank
  have := hblank '-' (h.subset List.mem_cons_self)
  revert this
  decide

/-- A line says one thing. -/
theorem Reads.unique {line : Str} {statement statement' : Option Statement}
    (h : Reads line statement) (h' : Reads line statement') : statement = statement' := by
  have hsplits : ∀ {left right}, Str.SplitsAt arrow line left right → arrow <:+: line :=
    fun hsplit => ⟨_, _, hsplit.eq.symm⟩
  -- A line with an arrow is neither blank nor a node.
  cases h with
  | blank hblank =>
      cases h' with
      | blank => rfl
      | node _ hdecl => exact absurd hblank hdecl.not_blank
      | edge hsplit => exact absurd hblank (not_blank_of_arrow (hsplits hsplit))
  | node harrow hdecl =>
      cases h' with
      | blank hblank => exact absurd hblank hdecl.not_blank
      | node _ hdecl' =>
          rw [declares_iff] at hdecl hdecl'
          cases hdecl.symm.trans hdecl'
          rfl
      | edge hsplit => exact absurd (hsplits hsplit) harrow
  | edge hsplit hleft hright =>
      cases h' with
      | blank hblank => exact absurd hblank (not_blank_of_arrow (hsplits hsplit))
      | node harrow => exact absurd (hsplits hsplit) harrow
      | edge hsplit' hleft' hright' =>
          obtain ⟨rfl, rfl⟩ := hsplit.unique hsplit'
          rw [declares_iff] at hleft hleft' hright hright'
          cases hleft.symm.trans hleft'
          cases hright.symm.trans hright'
          rfl

/-- However a line with an arrow reads, it is split at its first arrow. -/
theorem Reads.of_splitsAt {line left right : Str} {statement : Option Statement}
    (h : Reads line statement) (hsplit : Str.SplitsAt arrow line left right) :
    ∃ source target payload, Declares left source none ∧ Declares right target payload := by
  have harrow : arrow <:+: line := ⟨_, _, hsplit.eq.symm⟩
  cases h with
  | blank hblank => exact absurd hblank (not_blank_of_arrow harrow)
  | node hno => exact absurd harrow hno
  | edge hsplit' hleft hright =>
      obtain ⟨rfl, rfl⟩ := hsplit.unique hsplit'
      exact ⟨_, _, _, hleft, hright⟩

/-- Trimming a line moves the whitespace into what stands left and right of its arrow. -/
theorem splitOnce_trim (line : Str) :
    (∃ left right left' right', Str.splitOnce arrow (Str.trim line) = some (left', right') ∧
        Str.SplitsAt arrow line left right ∧ Str.trim left' = Str.trim left ∧
        Str.trim right' = Str.trim right) ∨
      Str.splitOnce arrow (Str.trim line) = none ∧ ¬ arrow <:+: line := by
  obtain ⟨pre, post, hline, hpre, hpost⟩ := Str.exists_trim line
  -- No character of the arrow is whitespace.
  have hapart : ∀ {pad : Str}, Str.Blank pad → ∀ c ∈ pad, c ∉ arrow := by
    intro pad hpad c hc hmem
    have hspace := hpad c hc
    rw [arrow, List.mem_pair] at hmem
    rcases hmem with rfl | rfl
    · revert hspace
      decide
    · revert hspace
      decide
  have hne : arrow ≠ [] := List.cons_ne_nil _ _
  have hsplit : Str.splitOnce arrow line = (Str.splitOnce arrow (Str.trim line)).map
      fun parts => (pre ++ parts.1, parts.2 ++ post) := by
    calc Str.splitOnce arrow line
        = Str.splitOnce arrow (pre ++ Str.trim line ++ post) := by rw [← hline]
      _ = _ := by
        rw [Str.splitOnce_after hne (hapart hpost), Str.splitOnce_before hne (hapart hpre),
          Option.map_map]
        rfl
  rcases Str.splitOnce_spec arrow (Str.trim line) with ⟨left', right', htrim, -⟩ | ⟨htrim, -⟩
  · rw [htrim] at hsplit
    refine .inl ⟨_, _, left', right', htrim, Str.splitOnce_eq_some_iff.1 hsplit, ?_, ?_⟩
    · rw [← List.append_nil (pre ++ left'), Str.trim_pad hpre left' (by simp [Str.Blank])]
    · rw [← List.nil_append (right' ++ post), ← List.append_assoc,
        Str.trim_pad (by simp [Str.Blank]) right' hpost]
  · rw [htrim] at hsplit
    exact .inr ⟨htrim, Str.splitOnce_eq_none_iff.1 hsplit⟩

end Parse

namespace Parser

open Foundation Parse

variable {NodeId EdgeId : Type} [DecidableEq NodeId] [DecidableEq EdgeId] [Identifier NodeId]
  [Identifier EdgeId]

/-- The calls a well-formed line leads to. -/
def perform : Option Statement → Method Panic (Parser NodeId EdgeId) (Except ParseError Unit)
  | none => return .ok ()
  | some (.node name payload) => do
      let _ ← ensureNode name payload
      return .ok ()
  | some (.edge source target text) => do
      let fromId ← ensureNode source none
      let toId ← ensureNode target none
      let _ ← onGraph (OwningGraph.makeEdge fromId toId text)
      return .ok ()

variable (NodeId EdgeId) in
/-- A line is performed if it is well formed; otherwise it is reported, and its kind tells whether it
has an arrow. -/
theorem parseLine_spec (lineNumber : Nat) (line : Str) :
    (∃ statement, Reads line statement ∧
        (parseLine lineNumber line : Method Panic (Parser NodeId EdgeId) _) = perform statement) ∨
      ∃ kind, ¬ WellFormed line ∧ (kind = .invalidEdgeDeclaration ↔ arrow <:+: line) ∧
        (parseLine lineNumber line : Method Panic (Parser NodeId EdgeId) _) =
          pure (.error { lineNumber, line, kind }) := by
  by_cases hblank : Str.trim line = []
  · refine .inl ⟨none, .blank (Str.trim_eq_nil_iff.1 hblank), ?_⟩
    rw [parseLine, if_pos hblank]
    rfl
  · have hnot : ¬ Str.Blank line := fun h => hblank (Str.trim_eq_nil_iff.2 h)
    rcases splitOnce_trim line with ⟨left, right, left', right', htrim, hsplit, hl, hr⟩ |
      ⟨htrim, harrow⟩
    · have hin : arrow <:+: line := ⟨_, _, hsplit.eq.symm⟩
      rcases parseIdentifier_spec left' with ⟨source, hsource, hleft⟩ | ⟨hsource, hleft⟩
      · rcases parseDeclaration_spec right' with ⟨target, payload, htarget, hright⟩ |
          ⟨htarget, hright⟩
        · refine .inl ⟨some (.edge source target (payload.getD (Str.trim line))),
            .edge hsplit ((declares_congr hl).1 hleft) ((declares_congr hr).1 hright), ?_⟩
          · rw [parseLine, if_neg hblank]
            simp only [htrim, hsource, htarget]
            rfl
        · refine .inr ⟨.invalidEdgeDeclaration, ?_, iff_of_true rfl hin, ?_⟩
          · rintro ⟨statement, h⟩
            obtain ⟨-, target, payload, -, hdecl⟩ := h.of_splitsAt hsplit
            exact hright target payload ((declares_congr hr).2 hdecl)
          · rw [parseLine, if_neg hblank]
            simp only [htrim, hsource, htarget]
            rfl
      · refine .inr ⟨.invalidEdgeDeclaration, ?_, iff_of_true rfl hin, ?_⟩
        · rintro ⟨statement, h⟩
          obtain ⟨source, -, -, hdecl, -⟩ := h.of_splitsAt hsplit
          exact hleft source ((declares_congr hl).2 hdecl)
        · rw [parseLine, if_neg hblank]
          simp only [htrim, hsource]
          rfl
    · have hkind : ¬ (ParseErrorKind.invalidNodeDeclaration = .invalidEdgeDeclaration) := by
        decide
      -- Without an arrow the whole line is one declaration.
      have htwice := Str.trim_of_tight (Str.trim_tight line)
      rcases parseDeclaration_spec (Str.trim line) with ⟨name, payload, hname, hdecl⟩ |
        ⟨hname, hdecl⟩
      · refine .inl ⟨some (.node name payload),
          .node harrow ((declares_congr htwice).1 hdecl), ?_⟩
        · rw [parseLine, if_neg hblank]
          simp only [htrim, hname]
          rfl
      · refine .inr ⟨.invalidNodeDeclaration, ?_, iff_of_false hkind harrow, ?_⟩
        · rintro ⟨statement, h⟩
          cases h with
          | blank h => exact hnot h
          | node _ hdecl' => exact hdecl _ _ ((declares_congr htwice).2 hdecl')
          | edge hsplit => exact harrow ⟨_, _, hsplit.eq.symm⟩
        · rw [parseLine, if_neg hblank]
          simp only [htrim, hname]
          rfl

end Parser
end Jstd
