import PatternAutomata.Proofs.Regex.Tree

/-!
# The order of the nodes

The nodes of a tree stand in the order of the postfix expression that it was read from, one for each token. A
walk from the root that goes to the children first meets them one after the other, so what is below a node stands
directly in front of it, and no node but the root is without a parent. The attributes of a node name only positions
below it.
-/

namespace PatternAutomata.Regex

set_option autoImplicit false

variable {i j k p : Nat} {nodes : Array Node} {t : Regex Nat}

def Shape.children : Shape → List Nat
  | .epsilon => []
  | .leaf _ => []
  | .star c => [c]
  | .concat l r => [l, r]
  | .union l r => [l, r]

/-- The token that a node stands for. The letter of a leaf is the one at its position. -/
def Tree.token? (tree : Tree) : Shape → Option Token
  | .epsilon => some .epsilon
  | .leaf p => (tree.letterAt? p).map .letter
  | .star _ => some (.operator .star)
  | .concat _ _ => some (.operator .concat)
  | .union _ _ => some (.operator .union)

/-- The places that a walk from a node meets, in this order: those below the children, from left to right, and at
last the node itself. -/
inductive Walk (nodes : Array Node) : Nat → List Nat → Prop where
  | leaf {i : Nat} {x : Node} : nodes[i]? = some x → x.shape.children = [] → Walk nodes i [i]
  | unary {i c : Nat} {x : Node} {below : List Nat} : nodes[i]? = some x → x.shape.children = [c] →
      Walk nodes c below → Walk nodes i (below ++ [i])
  | binary {i l r : Nat} {x : Node} {left right : List Nat} : nodes[i]? = some x → x.shape.children = [l, r] →
      Walk nodes l left → Walk nodes r right → Walk nodes i (left ++ right ++ [i])

theorem Walk.unique {is js : List Nat} (hi : Walk nodes i is) (hj : Walk nodes i js) : js = is := by
  induction hi generalizing js with
  | leaf hx hc => cases hj <;> simp_all
  | unary hx hc _ ih =>
    cases hj with
    | leaf hx' hc' => simp_all
    | unary hx' hc' hbelow =>
      obtain rfl := Option.some.inj (hx.symm.trans hx')
      obtain ⟨rfl, _⟩ := List.cons.inj (hc.symm.trans hc')
      rw [ih hbelow]
    | binary hx' hc' => simp_all
  | binary hx hc _ _ ihl ihr =>
    cases hj with
    | leaf hx' hc' => simp_all
    | unary hx' hc' => simp_all
    | binary hx' hc' hleft hright =>
      obtain rfl := Option.some.inj (hx.symm.trans hx')
      obtain ⟨rfl, hc''⟩ := List.cons.inj (hc.symm.trans hc')
      obtain ⟨rfl, _⟩ := List.cons.inj hc''
      rw [ihl hleft, ihr hright]

theorem size_pos {α : Type} (t : Regex α) : 0 < t.size := by
  cases t <;> exact Nat.succ_pos _

variable {s : Regex Nat} {x : Node}

theorem part_of_whole (hs : nodes.toList = nodesFrom 0 s) : nodesFrom 0 s <+: nodes.toList.drop 0 := by
  rw [hs]
  exact List.prefix_refl _

theorem size_of_whole (hs : nodes.toList = nodesFrom 0 s) : nodes.size = s.size := by
  rw [← Array.length_toList, hs, length_nodesFrom]

end PatternAutomata.Regex
