import Jstd.Foundation.Text
import Jstd.OwningGraph.Basic

/-!
# parse — a graph from its text

The model of `graph/parse.rs`.  Each line is trimmed, tried as an edge if it has an arrow anywhere,
and as a node otherwise; a name becomes a node when a line first mentions it.

A slice at an offset that is past the end or inside a character panics like a vector index.
-/

namespace Jstd

open Foundation

/-- Ids that keep the whole of a `usize`. -/
abbrev TestGraph : Type :=
  OwningGraph (DerivedId .usize) (DerivedId .usize) Str Str

inductive ParseErrorKind
  | invalidNodeDeclaration
  | invalidEdgeDeclaration
  deriving DecidableEq, Repr

structure ParseError where
  lineNumber : Nat
  line : Str
  kind : ParseErrorKind
  deriving DecidableEq, Repr

/-- `Display`. -/
def ParseError.message (self : ParseError) : String :=
  match self.kind with
  | .invalidNodeDeclaration => "invalid node declaration on line " ++ toString self.lineNumber
  | .invalidEdgeDeclaration => "invalid edge declaration on line " ++ toString self.lineNumber

/-- The text shown for an error tells its line number and its kind. -/
theorem ParseError.message_inj {e e' : ParseError} (h : e.message = e'.message) :
    e.lineNumber = e'.lineNumber ∧ e.kind = e'.kind := by
  -- The ninth character is the first to tell a node from an edge.
  have hchar := congrArg (fun text => text.toList[8]?) h
  rcases e with ⟨n, line, kind⟩
  rcases e' with ⟨n', line', kind'⟩
  cases kind with
  | invalidNodeDeclaration =>
      cases kind' with
      | invalidNodeDeclaration => exact ⟨toString_nat_inj ((String.append_right_inj _).1 h), rfl⟩
      | invalidEdgeDeclaration => simp [message] at hchar
  | invalidEdgeDeclaration =>
      cases kind' with
      | invalidNodeDeclaration => simp [message] at hchar
      | invalidEdgeDeclaration => exact ⟨toString_nat_inj ((String.append_right_inj _).1 h), rfl⟩

namespace Parse

/-- The text `"->"`. -/
def arrow : Str :=
  ['-', '>']

/-- `&s[..]`. -/
def sliced : Option Str → Except Panic Str
  | some s => .ok s
  | none => .error .indexOutOfBounds

/-! ## Declarations -/

/-- `parse_declaration`; `none` stands for `Err(())`. -/
def parseDeclaration (input : Str) : Except Panic (Option (Str × Option Str)) := do
  let trimmed := Str.trim input
  if trimmed = [] then return none
  let splitIndex :=
    (Str.find (fun c => Str.isWhitespace c || c == '[') trimmed).getD (Str.len trimmed)
  if splitIndex = 0 then return none
  let name ← sliced (Str.sliceTo trimmed splitIndex)
  let rest ← sliced (Str.sliceFrom trimmed splitIndex)
  let trailing := Str.trim rest
  if trailing = [] then return some (name, none)
  if !Str.startsWith trailing '[' || !Str.endsWith trailing ']' then return none
  let inner ← sliced (Str.slice trailing 1 (Str.len trailing - 1))
  let payload := Str.trim inner
  if payload = [] then return none
  return some (name, some payload)

def parseIdentifier (input : Str) : Except Panic (Option Str) := do
  let declaration ← parseDeclaration input
  match declaration with
  | none => return none
  | some (name, payload) => if payload.isSome then return none else return some name

end Parse

/-! ## Building -/

/-- What `parse` carries from line to line. -/
structure Parser (NodeId EdgeId : Type) where
  graph : OwningGraph NodeId EdgeId Str Str
  nodeIds : HashMap Str NodeId

namespace OwningGraph

variable {NodeId EdgeId NodeData EdgeData : Type} [DecidableEq NodeId]

/-- `*self.get_node_mut(id).unwrap().data() = data`. -/
def setNodeData (id : NodeId) (data : NodeData) :
    Method Panic (OwningGraph NodeId EdgeId NodeData EdgeData) Unit := do
  let self ← get
  let _ ← unwrap (self.nodeData.get? id)
  modify fun self => { self with nodeData := self.nodeData.insert id data }

end OwningGraph

namespace Parser

variable {NodeId EdgeId : Type} [DecidableEq NodeId] [DecidableEq EdgeId] [Identifier NodeId]
  [Identifier EdgeId]

/-- A call on the graph. -/
def onGraph {α : Type} (call : Method Panic (OwningGraph NodeId EdgeId Str Str) α) :
    Method Panic (Parser NodeId EdgeId) α :=
  .focus Parser.graph (fun self graph => { self with graph := graph }) call

def ensureNode (name : Str) (explicitData : Option Str) :
    Method Panic (Parser NodeId EdgeId) NodeId := do
  let self ← get
  match self.nodeIds.get? name with
  | some id =>
      match explicitData with
      | some data => do
          onGraph (OwningGraph.setNodeData id data)
          return id
      | none => return id
  | none => do
      let id ← onGraph (OwningGraph.makeNode (explicitData.getD name))
      modify fun self => { self with nodeIds := self.nodeIds.insert name id }
      return id

/-- The body of the loop of `parse`. -/
def parseLine (lineNumber : Nat) (line : Str) :
    Method Panic (Parser NodeId EdgeId) (Except ParseError Unit) := do
  let trimmed := Str.trim line
  if trimmed = [] then return .ok ()
  match Str.splitOnce Parse.arrow trimmed with
  -- The name before the arrow takes no payload, the one after it may.
  | some (fromRaw, toRaw) => do
      let fromName ← Parse.parseIdentifier fromRaw
      match fromName with
      | none => return .error { lineNumber, line, kind := .invalidEdgeDeclaration }
      | some fromName => do
          let declaration ← Parse.parseDeclaration toRaw
          match declaration with
          | none => return .error { lineNumber, line, kind := .invalidEdgeDeclaration }
          | some (toName, explicitEdgeData) => do
              -- Names on an edge line are declared without data of their own.
              let fromId ← ensureNode fromName none
              let toId ← ensureNode toName none
              -- Without a payload the edge holds the whole line, trimmed.
              let edgeData := explicitEdgeData.getD trimmed
              let _ ← onGraph (OwningGraph.makeEdge fromId toId edgeData)
              return .ok ()
  -- No arrow anywhere on the line, not even in a payload.
  | none => do
      let declaration ← Parse.parseDeclaration trimmed
      match declaration with
      | none => return .error { lineNumber, line, kind := .invalidNodeDeclaration }
      | some (name, explicitNodeData) => do
          let _ ← ensureNode name explicitNodeData
          return .ok ()

/-- `for (line_number, line) in lines.enumerate()`, from the given index on. -/
def parseLines : Nat → List Str → Method Panic (Parser NodeId EdgeId) (Except ParseError Unit)
  | _, [] => return .ok ()
  | index, line :: lines => do
      let result ← parseLine (index + 1) line
      match result with
      | .error error => return .error error
      | .ok () => parseLines (index + 1) lines

end Parser

namespace OwningGraph

variable {NodeId EdgeId : Type} [DecidableEq NodeId] [DecidableEq EdgeId] [Identifier NodeId]
  [Identifier EdgeId]

/-- The function `parse`: a panic, an error of its own, or the graph. -/
def parse (source : Str) : Except Panic (Except ParseError (OwningGraph NodeId EdgeId Str Str)) :=
  match (Parser.parseLines 0 (Str.lines source)).run { graph := .empty, nodeIds := .empty } with
  | (.ok (.ok ()), self) => .ok (.ok self.graph)
  | (.ok (.error error), _) => .ok (.error error)
  | (.error panic, _) => .error panic

end OwningGraph
end Jstd
