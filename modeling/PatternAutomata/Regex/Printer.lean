import PatternAutomata.Regex.Tree

/-!
# Printing a tree

A tree is printed from a stack of what is still to be written. Where the newest entry is a node, its children and the
characters between them take its place, so that the text comes out from left to right. A node or a letter that is
looked up where none is leaves no text.
-/

namespace PatternAutomata.Regex

set_option autoImplicit false

/-- A character to be written, or a node whose text is to be written. -/
inductive Print where
  | char (c : Char)
  | node (i : Nat)
deriving DecidableEq

namespace Tree

/-- What a node writes at once, and what it puts on the stack, the first to be written on top. -/
def parts? (tree : Tree) : Shape → Option (List Char × List Print)
  | .epsilon => some (['_'], [])
  | .leaf p => (tree.letterAt? p).map fun l => ([l.toChar], [])
  | .star c => some ([], [.node c, .char '*'])
  | .concat l r => some (['('], [.node l, .char '.', .node r, .char ')'])
  | .union l r => some (['('], [.node l, .char '|', .node r, .char ')'])

def write? (tree : Tree) : Print → Option (List Char × List Print)
  | .char c => some ([c], [])
  | .node i => tree.nodes[i]?.bind fun x => tree.parts? x.shape

/-- Takes one entry after the other until the stack is empty, at most as many as `fuel` says. -/
def printFrom? (tree : Tree) : Nat → List Print → Option (List Char)
  | _, [] => some []
  | 0, _ :: _ => none
  | fuel + 1, x :: stack =>
    (tree.write? x).bind fun step => (tree.printFrom? fuel (step.2 ++ stack)).map (step.1 ++ ·)

/-- A node is one entry, and it brings at most two characters with it. -/
def text? (tree : Tree) : Option (List Char) := tree.printFrom? (3 * tree.nodes.size) [.node tree.root]

end Tree
end PatternAutomata.Regex
