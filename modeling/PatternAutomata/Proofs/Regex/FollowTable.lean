import PatternAutomata.Proofs.Pattern.Printing
import PatternAutomata.Proofs.Regex.Following
import PatternAutomata.Table

/-!
# The table of what follows a position

The nodes of a term, in post-order, name the sets that they link. Going through them once and writing what
is linked into a table with a place for every position never needs a place that is not there, and gives
the positions that follow each other in the words of the term.
-/

namespace PatternAutomata

set_option autoImplicit false

def Token.letter? : Token → Option Letter
  | letter l => some l
  | _ => none

namespace Regex

variable {α : Type} {k n p q : Nat}

/-- The sets that a node links. A concatenation finds its sides by their places among the nodes. -/
def Node.link? (nodes : List Node) (x : Node) : Option (NatSet × NatSet) :=
  match x.shape with
  | .concat l r => nodes[l]?.bind fun a => nodes[r]?.map fun b => (a.attributes.last, b.attributes.first)
  | .star _ => some (x.attributes.last, x.attributes.first)
  | _ => none

/-- The nodes of a term, the first of them at place `k`. -/
def nodesFrom (k : Nat) (t : Regex Nat) : List Node :=
  (t.postorder.zipIdx k).map fun x => ⟨x.1.shapeAt x.2, x.1.attributes⟩

theorem length_nodesFrom (k : Nat) (t : Regex Nat) : (nodesFrom k t).length = t.size := by
  simp [nodesFrom]

theorem nodesFrom_star (k : Nat) (t : Regex Nat) :
    nodesFrom k (star t) = nodesFrom k t ++ [⟨(star t).shapeAt (k + t.size), (star t).attributes⟩] := by
  simp [nodesFrom, postorder, List.zipIdx_append]

theorem nodesFrom_concat (k : Nat) (l r : Regex Nat) :
    nodesFrom k (concat l r) = nodesFrom k l ++ nodesFrom (k + l.size) r ++
      [⟨(concat l r).shapeAt (k + l.size + r.size), (concat l r).attributes⟩] := by
  simp [nodesFrom, postorder, List.zipIdx_append, Nat.add_assoc]

theorem nodesFrom_union (k : Nat) (l r : Regex Nat) :
    nodesFrom k (union l r) = nodesFrom k l ++ nodesFrom (k + l.size) r ++
      [⟨(union l r).shapeAt (k + l.size + r.size), (union l r).attributes⟩] := by
  simp [nodesFrom, postorder, List.zipIdx_append, Nat.add_assoc]

theorem exists_nodesFrom_eq (k : Nat) (t : Regex Nat) :
    ∃ front, nodesFrom k t = front ++ [⟨t.shapeAt (k + t.size - 1), t.attributes⟩] := by
  cases t with
  | epsilon => exact ⟨[], rfl⟩
  | leaf p => exact ⟨[], rfl⟩
  | star t => exact ⟨_, nodesFrom_star k t⟩
  | concat l r => exact ⟨_, by rw [nodesFrom_concat, Nat.add_assoc k]; rfl⟩
  | union l r => exact ⟨_, by rw [nodesFrom_union, Nat.add_assoc k]; rfl⟩

theorem prefix_drop_append {xs ys zs : List α} (h : xs ++ ys <+: zs.drop k) :
    xs <+: zs.drop k ∧ ys <+: zs.drop (k + xs.length) := by
  obtain ⟨back, hback⟩ := h
  constructor
  · exact ⟨ys ++ back, by rw [← hback, List.append_assoc]⟩
  · exact ⟨back, by rw [← List.drop_drop, ← hback, List.append_assoc, List.drop_left]⟩

theorem prefix_drop_sides {nodes back : List Node} {l r : Regex Nat}
    (h : nodesFrom k l ++ nodesFrom (k + l.size) r ++ back <+: nodes.drop k) :
    nodesFrom k l <+: nodes.drop k ∧ nodesFrom (k + l.size) r <+: nodes.drop (k + l.size) := by
  obtain ⟨hl, hr⟩ := prefix_drop_append (prefix_drop_append h).1
  rw [length_nodesFrom] at hr
  exact ⟨hl, hr⟩

/-- Where the nodes of a term stand among others, the last of them is that of the whole term. -/
theorem getElem?_root {nodes : List Node} {t : Regex Nat} (h : nodesFrom k t <+: nodes.drop k) :
    nodes[k + t.size - 1]? = some ⟨t.shapeAt (k + t.size - 1), t.attributes⟩ := by
  obtain ⟨front, hfront⟩ := exists_nodesFrom_eq k t
  have hlength : front.length + 1 = t.size := by
    rw [← length_nodesFrom k t, hfront, List.length_append, List.length_singleton]
  rw [hfront] at h
  obtain ⟨back, hback⟩ := (prefix_drop_append h).2
  have hindex : k + t.size - 1 = k + front.length + 0 := by omega
  rw [hindex] at hback ⊢
  rw [← List.getElem?_drop, ← hback]
  rfl

theorem left_place (k a b : Nat) : k + a + b - 1 - b = k + a - 1 := by
  omega

theorem link?_concat {nodes : List Node} {l r : Regex Nat} (hl : nodesFrom k l <+: nodes.drop k)
    (hr : nodesFrom (k + l.size) r <+: nodes.drop (k + l.size)) :
    Node.link? nodes ⟨(concat l r).shapeAt (k + l.size + r.size), (concat l r).attributes⟩ =
      some (l.attributes.last, r.attributes.first) := by
  simp only [Node.link?, shapeAt, left_place, getElem?_root hl, getElem?_root hr, Option.bind_some, Option.map_some]

/-- The nodes of a part find their children wherever the part stands. -/
theorem links_nodesFrom {nodes : List Node} {t : Regex Nat} (h : nodesFrom k t <+: nodes.drop k) :
    (nodesFrom k t).filterMap (Node.link? nodes) = t.links := by
  induction t generalizing k with
  | epsilon => rfl
  | leaf p => rfl
  | star t ih =>
    rw [nodesFrom_star] at h ⊢
    obtain ⟨hpart, _⟩ := prefix_drop_append h
    rw [List.filterMap_append, ih hpart]
    rfl
  | concat l r ihl ihr =>
    rw [nodesFrom_concat] at h ⊢
    obtain ⟨hl, hr⟩ := prefix_drop_sides h
    rw [List.filterMap_append, List.filterMap_append, ihl hl, ihr hr, links,
      List.filterMap_cons_some (link?_concat hl hr)]
    rfl
  | union l r ihl ihr =>
    rw [nodesFrom_union] at h ⊢
    obtain ⟨hl, hr⟩ := prefix_drop_sides h
    rw [List.filterMap_append, List.filterMap_append, ihl hl, ihr hr]
    exact List.append_nil _

theorem links_nodes (r : Regex α) : r.nodes.filterMap (Node.link? r.nodes) = r.linearize.links :=
  links_nodesFrom (k := 0) (List.prefix_refl _)

/-- Adds to what follows a position; position `i + 1` has place `i`. -/
def addFollowers? (next : NatSet) (table : Array NatSet) : Nat → Option (Array NatSet)
  | 0 => none
  | i + 1 => Table.alter? table i (· ∪ next)

def addLink? (table : Array NatSet) (x : NatSet × NatSet) : Option (Array NatSet) :=
  x.1.toList.foldlM (addFollowers? x.2) table

/-- The table of followers, written node by node. -/
def writeFollowers? (r : Regex α) : Option (Array NatSet) :=
  (r.nodes.filterMap (Node.link? r.nodes)).foldlM addLink? (Array.replicate r.width ∅)

variable {table : Array NatSet} {R : Nat → Nat → Prop}

theorem exists_addFollowers (h : Table.Lists n table R) (next : NatSet) (hp : 1 ≤ p ∧ p ≤ n) :
    ∃ table', addFollowers? next table p = some table' ∧
      Table.Lists n table' fun i q => R i q ∨ (i + 1 = p ∧ q ∈ next) := by
  obtain ⟨i, rfl⟩ : ∃ i, p = i + 1 := ⟨p - 1, by omega⟩
  obtain ⟨table', htable', hlists⟩ := h.alter (Nat.lt_of_succ_le hp.2) (f := fun s => s ∪ next)
    fun s q => NatSet.mem_union
  refine ⟨table', htable', hlists.congr ?_⟩
  intro j q
  rw [Nat.add_right_cancel_iff]

theorem exists_addLink (h : Table.Lists n table R) (x : NatSet × NatSet) (hx : ∀ p ∈ x.1, 1 ≤ p ∧ p ≤ n) :
    ∃ table', addLink? table x = some table' ∧
      Table.Lists n table' fun i q => R i q ∨ (i + 1 ∈ x.1 ∧ q ∈ x.2) := by
  refine Table.exists_foldlM
    (motive := fun done (t : Array NatSet) => Table.Lists n t fun i q => R i q ∨ (i + 1 ∈ done ∧ q ∈ x.2))
    x.1.toList (by simpa using h) ?_
  intro done p rest t hsplit ht
  have hp : p ∈ x.1 := NatSet.mem_def.mpr (by simp [hsplit])
  obtain ⟨t', ht', hlists⟩ := exists_addFollowers ht x.2 (hx p hp)
  refine ⟨t', ht', hlists.congr ?_⟩
  intro i q
  rw [List.mem_append, List.mem_singleton, or_and_right, or_assoc]

theorem exists_addLinks {links : List (NatSet × NatSet)} (hlinks : ∀ x ∈ links, ∀ p ∈ x.1, 1 ≤ p ∧ p ≤ n) :
    ∃ table, links.foldlM addLink? (Array.replicate n ∅) = some table ∧
      Table.Lists n table fun i q => ∃ x ∈ links, i + 1 ∈ x.1 ∧ q ∈ x.2 := by
  refine Table.exists_foldlM
    (motive := fun done (t : Array NatSet) => Table.Lists n t fun i q => ∃ x ∈ done, i + 1 ∈ x.1 ∧ q ∈ x.2)
    links ?_ ?_
  · exact (Table.Lists.replicate NatSet.not_mem_empty).congr (by simp)
  · intro done x rest t hsplit ht
    have hx : x ∈ links := by simp [hsplit]
    obtain ⟨t', ht', hlists⟩ := exists_addLink ht x (hlinks x hx)
    refine ⟨t', ht', hlists.congr ?_⟩
    intro i q
    simp only [List.mem_append, List.mem_singleton, or_and_right, exists_or, exists_eq_left]

theorem eq_of_lists {table' : Array NatSet} (h : Table.Lists n table R) (h' : Table.Lists n table' R) :
    table = table' := by
  apply Array.ext (h.size_eq.trans h'.size_eq.symm)
  intro i hi hi'
  apply NatSet.ext_mem
  intro q
  rw [h.mem_iff i _ (Array.getElem?_eq_getElem hi), h'.mem_iff i _ (Array.getElem?_eq_getElem hi')]

/-- What follows a position according to the table; a number that is no position has no place there. -/
def followers? (r : Regex α) (p : Nat) : Option NatSet := if p = 0 then none else r.followTable[p - 1]?

theorem size_followTable (r : Regex α) : r.followTable.size = r.width := by
  simp [followTable]

theorem lists_followTable (r : Regex α) :
    Table.Lists r.width r.followTable fun i q => q ∈ r.linearize.follow (i + 1) := by
  refine ⟨r.size_followTable, ?_⟩
  intro i s hs q
  rw [followTable_getElem?] at hs
  split at hs
  · cases hs
    exact Iff.rfl
  · cases hs

theorem writeFollowers?_eq (r : Regex α) : r.writeFollowers? = some r.followTable := by
  have hbounds : ∀ x ∈ r.linearize.links, ∀ p ∈ x.1, 1 ≤ p ∧ p ≤ r.width :=
    fun x hx p hp => mem_leaves_linearize.mp (mem_leaves_of_links_source hx hp)
  obtain ⟨table, htable, hlists⟩ := exists_addLinks hbounds
  have heq : table = r.followTable := by
    apply eq_of_lists hlists
    simpa only [mem_follow] using r.lists_followTable
  rw [writeFollowers?, links_nodes, htable, heq]

theorem mem_followers?_iff {r : Regex α} :
    (∃ s, r.followers? p = some s ∧ q ∈ s) ↔ q ∈ r.linearize.follow p := by
  cases p with
  | zero =>
    have hzero : q ∉ r.linearize.follow 0 := by
      intro h
      have := (mem_leaves_linearize.mp (mem_leaves_of_follow_source h)).1
      omega
    simp [followers?, hzero]
  | succ i =>
    rw [followers?, if_neg (Nat.succ_ne_zero i), Nat.add_sub_cancel]
    constructor
    · intro h
      obtain ⟨s, hs, hq⟩ := h
      exact (r.lists_followTable.mem_iff i s hs q).mp hq
    · intro hq
      have hi := (mem_leaves_linearize.mp (mem_leaves_of_follow_source hq)).2
      exact ⟨_, by rw [followTable_getElem?, if_pos (Nat.lt_of_succ_le hi)], hq⟩

theorem letters_tokens (r : Regex Letter) : r.tokens.filterMap Token.letter? = r.leaves := by
  have hoperator : ∀ o, [Token.operator o].filterMap Token.letter? = [] := fun _ => rfl
  induction r with
  | epsilon => rfl
  | leaf l => rfl
  | star r ih => rw [tokens, List.filterMap_append, ih, hoperator, List.append_nil, leaves]
  | concat l r ihl ihr =>
    rw [tokens, List.filterMap_append, List.filterMap_append, ihl, ihr, hoperator, List.append_nil, leaves]
  | union l r ihl ihr =>
    rw [tokens, List.filterMap_append, List.filterMap_append, ihl, ihr, hoperator, List.append_nil, leaves]

/-- Whatever postfix expression a term comes from, the table of followers is written without a missing
place. It has a place for every letter of the expression, and behind a position it lists exactly those
that directly follow it in some word of positions. -/
theorem followTable_exact {xs : List Token} {r : Regex Letter} (h : ofPostfix xs = .ok r) :
    (r.writeFollowers? = some r.followTable ∧ r.leaves = xs.filterMap Token.letter? ∧
      r.followTable.size = r.leaves.length) ∧
      ∀ p q, (∃ s, r.followers? p = some s ∧ q ∈ s) ↔ ∃ u v, u ++ p :: q :: v ∈ r.linearize.language := by
  refine ⟨⟨r.writeFollowers?_eq, ?_, ?_⟩, ?_⟩
  · rw [← ofPostfix_eq_ok.mp h, letters_tokens]
  · rw [length_leaves, size_followTable]
  · intro p q
    rw [mem_followers?_iff, mem_follow_iff]
    exact Iff.rfl

/-- An end mark inside of a star can be followed by what stands in front of it. -/
theorem followTable_exact_mark_inside :
    ∃ r, ofPostfix [.letter (.char 'a'), .epsilon, .operator .concat, .letter .endMark, .operator .concat,
        .operator .star] = .ok r ∧
      r.writeFollowers? = some r.followTable ∧ r.followTable.size = 2 ∧
      ∃ u v, u ++ 2 :: 1 :: v ∈ r.linearize.language := by
  have h : ofPostfix [.letter (.char 'a'), .epsilon, .operator .concat, .letter .endMark, .operator .concat,
      .operator .star] = .ok (.star (.concat (.concat (.leaf (.char 'a')) .epsilon) (.leaf .endMark))) := rfl
  obtain ⟨⟨hwrite, _, hsize⟩, hwords⟩ := followTable_exact h
  exact ⟨_, h, hwrite, hsize, (hwords 2 1).mp ⟨.singleton 1, by decide, by decide⟩⟩

end Regex
end PatternAutomata
