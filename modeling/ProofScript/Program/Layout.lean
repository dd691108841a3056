import ProofScript.Program
import ProofScript.Text.Utf8

/-!
# Layouts

A layout is a printed tree: pieces of text, and nodes around them. Its text is the pieces in order,
and its spans are the nodes in preorder with the positions where their text starts and ends.
-/

namespace ProofScript.Program

/-- A position in a printed text: a byte offset from zero, and a line and a column of characters
from one. -/
structure Position where
  offset : Nat
  line : Nat
  column : Nat
deriving DecidableEq, Repr, Inhabited

namespace Position

/-- The position of the first character. -/
def start : Position := ⟨0, 1, 1⟩

/-- The line and column after one more character. -/
def step (p : Position) (c : Char) : Position :=
  if c = '\n' then ⟨p.offset, p.line + 1, 1⟩ else ⟨p.offset, p.line, p.column + 1⟩

/-- The position after a text. -/
def advance (p : Position) (s : String) : Position :=
  { s.toList.foldl step p with offset := p.offset + s.utf8ByteSize }

end Position

/-- What a tree lacks where a node is required. -/
inductive Gap where
  | statement
  | expression
  | type
  | arrowBody
deriving DecidableEq, Repr, Inhabited

/-- The wording of a gap. -/
def Gap.message : Gap → String
  | statement => "tsast: unknown statement <nil>"
  | expression => "tsast: unknown expression <nil>"
  | type => "tsast: unknown type <nil>"
  | arrowBody => "tsast: unknown arrow body <nil>"

/-- What is recorded of a node. -/
structure NodeTag where
  kind : NodeKind
  origin : Option Location
deriving DecidableEq, Repr, Inhabited

/-- A printed tree. -/
inductive Layout where
  | text (s : String)
  | gap (g : Gap)
  | node (tag : NodeTag) (parts : List Layout)
deriving Repr, Inhabited

/-- The extent of a node in the printed text. -/
structure Span where
  tag : NodeTag
  start : Position
  stop : Position
deriving DecidableEq, Repr, Inhabited

namespace Layout

mutual

/-- The printed text. -/
def toText : Layout → String
  | text s => s
  | gap _ => ""
  | node _ parts => toTextAll parts

/-- The printed text of parts in order. -/
def toTextAll : List Layout → String
  | [] => ""
  | p :: rest => p.toText ++ toTextAll rest

end

mutual

/-- The spans of the nodes in preorder, where the text starts at a given position. -/
def spans (start : Position) : Layout → List Span
  | text _ => []
  | gap _ => []
  | node tag parts => ⟨tag, start, start.advance (toTextAll parts)⟩ :: spansAll start parts

/-- The spans of parts in order. -/
def spansAll (start : Position) : List Layout → List Span
  | [] => []
  | p :: rest => p.spans start ++ spansAll (start.advance p.toText) rest

end

mutual

/-- The first place that lacks a node. -/
def gap? : Layout → Option Gap
  | text _ => none
  | gap g => some g
  | node _ parts => gapAll? parts

/-- The first place in parts that lacks a node. -/
def gapAll? : List Layout → Option Gap
  | [] => none
  | p :: rest => p.gap?.orElse fun _ => gapAll? rest

end

end Layout

/-- Parts with a separator between them. -/
def separated (sep : String) : List (List Layout) → List Layout
  | [] => []
  | [p] => p
  | p :: rest => p ++ .text sep :: separated sep rest

end ProofScript.Program
