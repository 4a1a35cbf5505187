import PatternAutomata.Regex.Positions

/-!
# Trees as tables

A postfix expression is written down node by node: every token adds a node with its attributes, which for an
operator are computed from those of its operands. A stack keeps the places of the nodes that have no parent
yet. What looks up a node at a place where none is has no result.
-/

namespace PatternAutomata.Regex

set_option autoImplicit false

/-- The nodes with the children in front of their parents, the letters at the positions, and the place of
the node of the whole expression. -/
structure Tree where
  nodes : Array Node
  letters : Array Letter
  root : Nat
deriving DecidableEq

/-- The letter at a position; the positions count from one. -/
def Tree.letterAt? (tree : Tree) (p : Nat) : Option Letter :=
  match p with
  | 0 => none
  | i + 1 => tree.letters[i]?

/-- A tree in the making, with the places of the nodes that have no parent yet, the newest first. -/
structure Draft where
  nodes : Array Node
  letters : Array Letter
  pending : List Nat
deriving DecidableEq

namespace Draft

def attributes? (d : Draft) (i : Nat) : Option Attributes := d.nodes[i]?.map Node.attributes

/-- Writes a node behind the others. It waits for a parent, as do those below. -/
def add (d : Draft) (below : List Nat) (shape : Shape) (a : Attributes) : Draft :=
  { d with nodes := d.nodes.push ⟨shape, a⟩, pending := d.nodes.size :: below }

def join? (d : Draft) (o : Operator) (shape : Nat → Nat → Shape) (f : Attributes → Attributes → Attributes) :
    Option (Except Malformed Draft) :=
  match d.pending with
  | r :: l :: below =>
    (d.attributes? l).bind fun a => (d.attributes? r).map fun b => .ok (d.add below (shape l r) (f a b))
  | _ => some (.error (.missingOperand o))

def take? (d : Draft) : Token → Option (Except Malformed Draft)
  | .epsilon => some (.ok (d.add d.pending .epsilon .empty))
  | .letter l =>
    let p := d.letters.size + 1
    some (.ok ({ d with letters := d.letters.push l }.add d.pending (.leaf p) (.position p)))
  | .operator .star =>
    match d.pending with
    | c :: below => (d.attributes? c).map fun a => .ok (d.add below (.star c) a.star)
    | [] => some (.error (.missingOperand .star))
  | .operator .concat => d.join? .concat .concat .concat
  | .operator .union => d.join? .union .union .union
  | .opening => some (.error .parenthesis)
  | .closing => some (.error .parenthesis)

def finish (d : Draft) : Except Malformed Tree :=
  match d.pending with
  | [root] => .ok ⟨d.nodes, d.letters, root⟩
  | [] => .error .empty
  | _ => .error .surplusOperands

def takeAll? (d : Draft) : List Token → Option (Except Malformed Tree)
  | [] => some d.finish
  | t :: rest =>
    (d.take? t).bind fun
      | .ok next => next.takeAll? rest
      | .error e => some (.error e)

end Draft

def Tree.ofPostfix? (tokens : List Token) : Option (Except Malformed Tree) := Draft.takeAll? ⟨#[], #[], []⟩ tokens

end PatternAutomata.Regex
