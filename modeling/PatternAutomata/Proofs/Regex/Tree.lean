import PatternAutomata.Proofs.Regex.FollowTable
import PatternAutomata.Regex.Tree

/-!
# The nodes of a tree and their words

Writing down a postfix expression node by node gives the nodes of its term. The nodes below a node are those
directly in front of it, and the term that they make up can be read off the places of the children. The
attributes of every node say whether this term has the empty word, and where its words begin and end.
-/

namespace PatternAutomata.Regex

set_option autoImplicit false

variable {α : Type} {k i : Nat}

theorem size_numberFrom (k : Nat) (r : Regex α) : (r.numberFrom k).size = r.size := by
  induction r generalizing k with
  | epsilon => rfl
  | leaf a => rfl
  | star r ih => simp [numberFrom, size, ih]
  | concat l r ihl ihr => simp [numberFrom, size, ihl, ihr]
  | union l r ihl ihr => simp [numberFrom, size, ihl, ihr]

theorem Tree.letterAt?_of_prefix {tree : Tree} {q : Nat} {l : Letter} (h : [l] <+: tree.letters.toList.drop q) :
    tree.letterAt? (q + 1) = some l := by
  obtain ⟨back, hback⟩ := h
  rw [letterAt?, ← Array.getElem?_toList, ← Nat.add_zero q, ← List.getElem?_drop, ← hback]
  rfl

def Tree.ofTerm (t : Regex Letter) : Tree := ⟨t.nodes.toArray, t.leaves.toArray, t.size - 1⟩

namespace Draft

/-- What is written when the terms of a stack have been read, the newest first. -/
def ofStack : List (Regex Letter) → Draft
  | [] => ⟨#[], #[], []⟩
  | t :: below =>
    let d := ofStack below
    ⟨d.nodes ++ (nodesFrom d.nodes.size (t.numberFrom (d.letters.size + 1))).toArray,
      d.letters ++ t.leaves.toArray, (d.nodes.size + t.size - 1) :: d.pending⟩

def place (below : List (Regex Letter)) (t : Regex Letter) : Nat := (ofStack below).nodes.size + t.size - 1

/-- A term with the positions that it has on top of a stack. -/
def numbered (below : List (Regex Letter)) (t : Regex Letter) : Regex Nat :=
  t.numberFrom ((ofStack below).letters.size + 1)

variable {below : List (Regex Letter)} {l r t : Regex Letter}

theorem attributes?_place :
    (ofStack (t :: below)).attributes? (place below t) = some (numbered below t).attributes := by
  have hpart : nodesFrom (ofStack below).nodes.size (numbered below t) <+:
      (ofStack (t :: below)).nodes.toList.drop (ofStack below).nodes.size := by
    simp [ofStack, numbered]
  have hroot := getElem?_root hpart
  rw [numbered, size_numberFrom] at hroot
  rw [attributes?, place, ← Array.getElem?_toList, hroot]
  rfl

theorem attributes?_cons {a : Attributes} (h : (ofStack below).attributes? i = some a) :
    (ofStack (t :: below)).attributes? i = some a := by
  obtain ⟨x, hx, rfl⟩ := Option.map_eq_some_iff.mp h
  obtain ⟨hi, _⟩ := Array.getElem?_eq_some_iff.mp hx
  rw [attributes?, ofStack, Array.getElem?_append_left hi, hx, Option.map_some]

theorem ofStack_star : ofStack (star r :: below) =
    (ofStack (r :: below)).add (ofStack below).pending (.star (place below r)) (numbered below r).attributes.star := by
  simp [ofStack, add, place, numbered, numberFrom, nodesFrom_star, length_nodesFrom, size_numberFrom, size, leaves,
    shapeAt, attributes, Attributes.star]

theorem ofStack_concat : ofStack (concat l r :: below) =
    (ofStack (r :: l :: below)).add (ofStack below).pending (.concat (place below l) (place (l :: below) r))
      ((numbered below l).attributes.concat (numbered (l :: below) r).attributes) := by
  simp [ofStack, add, place, numbered, numberFrom, nodesFrom_concat, length_nodesFrom, size_numberFrom, size, leaves,
    shapeAt, attributes, Attributes.concat, left_place, Nat.add_right_comm _ 1]

theorem ofStack_union : ofStack (union l r :: below) =
    (ofStack (r :: l :: below)).add (ofStack below).pending (.union (place below l) (place (l :: below) r))
      ((numbered below l).attributes.union (numbered (l :: below) r).attributes) := by
  simp [ofStack, add, place, numbered, numberFrom, nodesFrom_union, length_nodesFrom, size_numberFrom, size, leaves,
    shapeAt, attributes, Attributes.union, left_place, Nat.add_right_comm _ 1]

theorem join?_ofStack (o : Operator) (shape : Nat → Nat → Shape) (f : Attributes → Attributes → Attributes) :
    (ofStack (r :: l :: below)).join? o shape f =
      some (.ok ((ofStack (r :: l :: below)).add (ofStack below).pending (shape (place below l) (place (l :: below) r))
        (f (numbered below l).attributes (numbered (l :: below) r).attributes))) := by
  have hpending : (ofStack (r :: l :: below)).pending =
      place (l :: below) r :: place below l :: (ofStack below).pending := rfl
  rw [join?, hpending]
  simp only [attributes?_cons attributes?_place, attributes?_place, Option.bind_some, Option.map_some]

theorem take?_ofStack (values : List (Regex Letter)) (x : Token) :
    (ofStack values).take? x = some ((Postfix.evaluateToken interpretation values x).map ofStack) := by
  cases x with
  | epsilon => rfl
  | letter l => rfl
  | operator o =>
    cases o with
    | star =>
      rcases values with _ | ⟨r, below⟩
      · rfl
      · have hpending : (ofStack (r :: below)).pending = place below r :: (ofStack below).pending := rfl
        rw [take?, hpending]
        simp only [attributes?_place, Option.map_some, ← ofStack_star]
        rfl
    | concat =>
      rcases values with _ | ⟨r, _ | ⟨l, below⟩⟩
      · rfl
      · rfl
      · rw [take?, join?_ofStack, ← ofStack_concat]
        rfl
    | union =>
      rcases values with _ | ⟨r, _ | ⟨l, below⟩⟩
      · rfl
      · rfl
      · rw [take?, join?_ofStack, ← ofStack_union]
        rfl
  | opening => rfl
  | closing => rfl

theorem finish_ofStack (t : Regex Letter) : (ofStack [t]).finish = .ok (Tree.ofTerm t) := by
  simp [finish, ofStack, Tree.ofTerm, Regex.nodes, nodesFrom, linearize]

theorem takeAll?_ofStack (values : List (Regex Letter)) (xs : List Token) :
    (ofStack values).takeAll? xs = some ((Postfix.evaluateFrom interpretation values xs).map Tree.ofTerm) := by
  induction xs generalizing values with
  | nil =>
    rcases values with _ | ⟨t, _ | ⟨u, below⟩⟩
    · rfl
    · exact congrArg some (finish_ofStack t)
    · rfl
  | cons x xs ih =>
    rw [takeAll?, take?_ofStack, Option.bind_some, Postfix.evaluateFrom]
    cases Postfix.evaluateToken interpretation values x with
    | error e => rfl
    | ok values' => exact ih values'

end Draft

/-- Whatever the tokens are, no node is missing, the faults are those of the evaluation, and what is written
is the tree of the term. -/
theorem Tree.ofPostfix?_eq (xs : List Token) : Tree.ofPostfix? xs = some ((ofPostfix xs).map Tree.ofTerm) :=
  Draft.takeAll?_ofStack [] xs

theorem Tree.ofPostfix?_eq_ok {xs : List Token} {tree : Tree} :
    Tree.ofPostfix? xs = some (.ok tree) ↔ ∃ r, ofPostfix xs = .ok r ∧ Tree.ofTerm r = tree := by
  rw [Tree.ofPostfix?_eq, Option.some.injEq]
  cases ofPostfix xs with
  | error e => simp [Except.map]
  | ok r => simp [Except.map]

/-- The term over positions that is read off the nodes below a place. -/
inductive RootedAt (nodes : Array Node) : Nat → Regex Nat → Prop where
  | epsilon {i : Nat} {a : Attributes} : nodes[i]? = some ⟨.epsilon, a⟩ → RootedAt nodes i .epsilon
  | leaf {i p : Nat} {a : Attributes} : nodes[i]? = some ⟨.leaf p, a⟩ → RootedAt nodes i (.leaf p)
  | star {i c : Nat} {a : Attributes} {t : Regex Nat} :
      nodes[i]? = some ⟨.star c, a⟩ → RootedAt nodes c t → RootedAt nodes i (.star t)
  | concat {i l r : Nat} {a : Attributes} {t u : Regex Nat} : nodes[i]? = some ⟨.concat l r, a⟩ →
      RootedAt nodes l t → RootedAt nodes r u → RootedAt nodes i (.concat t u)
  | union {i l r : Nat} {a : Attributes} {t u : Regex Nat} : nodes[i]? = some ⟨.union l r, a⟩ →
      RootedAt nodes l t → RootedAt nodes r u → RootedAt nodes i (.union t u)

variable {nodes : Array Node} {s t : Regex Nat}

theorem RootedAt.unique (ht : RootedAt nodes i t) (hs : RootedAt nodes i s) : s = t := by
  induction ht generalizing s with
  | epsilon hi => cases hs <;> simp_all
  | leaf hi => cases hs <;> simp_all
  | star hi _ ih => cases hs <;> simp_all
  | concat hi _ _ ihl ihr => cases hs <;> simp_all
  | union hi _ _ ihl ihr => cases hs <;> simp_all

theorem root_of_part (h : nodesFrom k t <+: nodes.toList.drop k) :
    nodes[k + t.size - 1]? = some ⟨t.shapeAt (k + t.size - 1), t.attributes⟩ := by
  rw [← Array.getElem?_toList]
  exact getElem?_root h

/-- Where the nodes of a term stand, the term is read at the last of them. -/
theorem rootedAt_of_part (h : nodesFrom k t <+: nodes.toList.drop k) : RootedAt nodes (k + t.size - 1) t := by
  induction t generalizing k with
  | epsilon => exact .epsilon (root_of_part h)
  | leaf p => exact .leaf (root_of_part h)
  | star t ih =>
    have hroot := root_of_part h
    rw [nodesFrom_star] at h
    exact .star hroot (ih (prefix_drop_append h).1)
  | concat l r ihl ihr =>
    have hroot := root_of_part h
    have hplace : k + (concat l r).size - 1 = k + l.size + r.size := (Nat.add_assoc k l.size r.size).symm
    rw [hplace, shapeAt, left_place] at hroot
    rw [nodesFrom_concat] at h
    obtain ⟨hl, hr⟩ := prefix_drop_sides h
    rw [hplace]
    exact .concat hroot (ihl hl) (ihr hr)
  | union l r ihl ihr =>
    have hroot := root_of_part h
    have hplace : k + (union l r).size - 1 = k + l.size + r.size := (Nat.add_assoc k l.size r.size).symm
    rw [hplace, shapeAt, left_place] at hroot
    rw [nodesFrom_union] at h
    obtain ⟨hl, hr⟩ := prefix_drop_sides h
    rw [hplace]
    exact .union hroot (ihl hl) (ihr hr)

/-- A term whose nodes end at a place, with no leaves but those of another term. -/
def EndsAt (nodes : List Node) (i : Nat) (t : Regex Nat) : Prop :=
  ∃ k s, nodesFrom k s <+: nodes.drop k ∧ i = k + s.size - 1 ∧ s.leaves.Sublist t.leaves

theorem EndsAt.mono {nodes : List Node} (h : EndsAt nodes i s) (hst : s.leaves.Sublist t.leaves) :
    EndsAt nodes i t := by
  obtain ⟨k, u, hu, hi, hus⟩ := h
  exact ⟨k, u, hu, hi, hus.trans hst⟩

theorem endsAt_last {nodes : List Node} (h : nodesFrom k t <+: nodes.drop k) (hi : k + t.size = i + 1) :
    EndsAt nodes i t :=
  ⟨k, t, h, by omega, List.Sublist.refl _⟩

/-- The nodes of two sides and one more end where those of the sides do, or at the last place. -/
theorem endsAt_sides {nodes : List Node} {l r : Regex Nat} (h : nodesFrom k t <+: nodes.drop k)
    (hsize : t.size = l.size + r.size + 1) (hleaves : t.leaves = l.leaves ++ r.leaves)
    (hl : i < k + l.size → EndsAt nodes i l) (hr : k + l.size ≤ i → i < k + l.size + r.size → EndsAt nodes i r)
    (hlt : i < k + t.size) : EndsAt nodes i t := by
  rcases Nat.lt_or_ge i (k + l.size) with hleft | hbehind
  · refine (hl hleft).mono ?_
    rw [hleaves]
    exact List.sublist_append_left _ _
  · rcases Nat.lt_or_ge i (k + l.size + r.size) with hright | hlast
    · refine (hr hbehind hright).mono ?_
      rw [hleaves]
      exact List.sublist_append_right _ _
    · exact endsAt_last h (by omega)

theorem endsAt_of_part {nodes : List Node} (h : nodesFrom k t <+: nodes.drop k) (hi : k ≤ i)
    (hlt : i < k + t.size) : EndsAt nodes i t := by
  induction t generalizing k with
  | epsilon => exact endsAt_last h (Nat.le_antisymm (Nat.succ_le_succ hi) hlt)
  | leaf p => exact endsAt_last h (Nat.le_antisymm (Nat.succ_le_succ hi) hlt)
  | star t ih =>
    rcases Nat.lt_or_ge i (k + t.size) with hinside | hlast
    · rw [nodesFrom_star] at h
      exact (ih (prefix_drop_append h).1 hi hinside).mono (List.Sublist.refl _)
    · exact endsAt_last h (Nat.le_antisymm (Nat.succ_le_succ hlast) hlt)
  | concat l r ihl ihr =>
    have hsides := h
    rw [nodesFrom_concat] at hsides
    obtain ⟨hl, hr⟩ := prefix_drop_sides hsides
    exact endsAt_sides h rfl rfl (ihl hl hi) (ihr hr) hlt
  | union l r ihl ihr =>
    have hsides := h
    rw [nodesFrom_union] at hsides
    obtain ⟨hl, hr⟩ := prefix_drop_sides hsides
    exact endsAt_sides h rfl rfl (ihl hl hi) (ihr hr) hlt

/-- Of any tokens, no node is missing where one is looked up, and what is written is the tree of their term or
the fault that they have. The attributes of every node in it are those of the language of the term below the
node: whether the empty word is in it, and at which positions its words begin and end. -/
theorem attributes_exact (xs : List Token) :
    Tree.ofPostfix? xs = some ((ofPostfix xs).map Tree.ofTerm) ∧
      ∀ tree, Tree.ofPostfix? xs = some (.ok tree) → ∀ i x, tree.nodes[i]? = some x →
        ∃ t, (∀ t', RootedAt tree.nodes i t' ↔ t' = t) ∧ t.leaves.Nodup ∧
          (x.attributes.nullable = true ↔ [] ∈ t.language) ∧
          (∀ p, p ∈ x.attributes.first ↔ ∃ w, p :: w ∈ t.language) ∧
          (∀ p, p ∈ x.attributes.last ↔ ∃ w, w ++ [p] ∈ t.language) := by
  refine ⟨Tree.ofPostfix?_eq xs, ?_⟩
  intro tree htree i x hx
  obtain ⟨r, _, rfl⟩ := Tree.ofPostfix?_eq_ok.mp htree
  have hwhole : nodesFrom 0 r.linearize <+: (Tree.ofTerm r).nodes.toList.drop 0 := List.prefix_refl _
  obtain ⟨hi, _⟩ := Array.getElem?_eq_some_iff.mp hx
  have hlt : i < 0 + r.linearize.size := by simpa [Tree.ofTerm] using hi
  obtain ⟨k, t, hpart, rfl, hleaves⟩ := endsAt_of_part hwhole (Nat.zero_le i) hlt
  have hrooted := rootedAt_of_part hpart
  have hroot := root_of_part hpart
  rw [hx, Option.some.injEq] at hroot
  obtain rfl := hroot
  refine ⟨t, ?_, ?_, nullable_iff t, fun p => mem_first_iff, fun p => mem_last_iff⟩
  · intro t'
    constructor
    · exact hrooted.unique
    · rintro rfl
      exact hrooted
  · refine hleaves.nodup ?_
    rw [linearize, leaves_numberFrom]
    exact List.nodup_range'

theorem attributes_exact_optional :
    ∃ tree, Tree.ofPostfix? [.letter (.char 'a'), .epsilon, .operator .union, .letter (.char 'b'),
        .operator .concat, .operator .star] = some (.ok tree) ∧
      ∃ t, RootedAt tree.nodes 4 t ∧ [] ∉ t.language ∧ (∃ w, 1 :: w ∈ t.language) ∧ (∃ w, 2 :: w ∈ t.language) ∧
        ¬ ∃ w, w ++ [1] ∈ t.language := by
  obtain ⟨htree, hexact⟩ := attributes_exact [.letter (.char 'a'), .epsilon, .operator .union,
    .letter (.char 'b'), .operator .concat, .operator .star]
  obtain ⟨t, hrooted, _, hnullable, hfirst, hlast⟩ :=
    hexact _ htree 4 ⟨.concat 2 3, ⟨false, .ofList [1, 2], .singleton 2⟩⟩ (by decide)
  refine ⟨_, htree, t, (hrooted t).mpr rfl, ?_, (hfirst 1).mp (by decide), (hfirst 2).mp (by decide), ?_⟩
  · exact fun hnil => Bool.false_ne_true (hnullable.mpr hnil)
  · exact fun hends => absurd ((hlast 1).mpr hends) (by decide)

end PatternAutomata.Regex
