import PatternAutomata.Proofs.Regex.PostOrder
import PatternAutomata.Regex.Printer

/-!
# The text of a tree

Taken from the stack, every node comes to the text of the term below it, and nothing is looked up where it is not. As
a pattern, this text has the postfix order that the tree was read from.
-/

namespace PatternAutomata.Regex

set_option autoImplicit false

variable {tree : Tree} {i k q fuel : Nat} {x : Print} {out : List Char} {above : List Print} {l r t : Regex Letter}

/-- How many entries the node of a term and what it brings with it take. -/
def entries : Regex Letter → Nat
  | epsilon => 1
  | leaf _ => 1
  | star r => r.entries + 2
  | concat l r => l.entries + r.entries + 3
  | union l r => l.entries + r.entries + 3

theorem entries_le (t : Regex Letter) : t.entries ≤ 3 * t.size := by
  induction t with
  | epsilon => exact Nat.le_add_left 1 2
  | leaf l => exact Nat.le_add_left 1 2
  | star r ih =>
    rw [entries, size]
    omega
  | concat l r ihl ihr =>
    rw [entries, size]
    omega
  | union l r ihl ihr =>
    rw [entries, size]
    omega

namespace Tree

/-- A tree prints a term from a place if the term's text is written first and then what waits below. -/
def Prints (tree : Tree) (i : Nat) (t : Regex Letter) : Prop :=
  ∀ fuel stack, tree.printFrom? (t.entries + fuel) (.node i :: stack) =
    (tree.printFrom? fuel stack).map (t.text ++ ·)

theorem printFrom?_cons (h : tree.write? x = some (out, above)) (stack : List Print) :
    tree.printFrom? (fuel + 1) (x :: stack) = (tree.printFrom? fuel (above ++ stack)).map (out ++ ·) := by
  rw [printFrom?, h, Option.bind_some]

theorem printFrom?_char (c : Char) (stack : List Print) :
    tree.printFrom? (fuel + 1) (.char c :: stack) = (tree.printFrom? fuel stack).map ([c] ++ ·) :=
  printFrom?_cons (x := .char c) rfl stack

theorem prints_star {c : Nat} (h : tree.write? (.node i) = some ([], [.node c, .char '*']))
    (hr : tree.Prints c r) : tree.Prints i (star r) := by
  intro fuel stack
  have hfuel : (star r).entries + fuel = r.entries + (fuel + 1) + 1 := by
    rw [entries]
    omega
  rw [hfuel, printFrom?_cons h, List.cons_append, hr, List.singleton_append, printFrom?_char, text]
  simp [Function.comp_def]

theorem prints_sides {t : Regex Letter} {a b : Nat} {c : Char}
    (h : tree.write? (.node i) = some (['('], [.node a, .char c, .node b, .char ')']))
    (hentries : t.entries = l.entries + r.entries + 3) (htext : t.text = '(' :: (l.text ++ c :: (r.text ++ [')'])))
    (hl : tree.Prints a l) (hr : tree.Prints b r) : tree.Prints i t := by
  intro fuel stack
  have hfuel : t.entries + fuel = l.entries + (r.entries + (fuel + 1) + 1) + 1 := by
    rw [hentries]
    omega
  rw [hfuel, printFrom?_cons h, List.cons_append, hl, List.cons_append, printFrom?_char, List.cons_append, hr,
    List.singleton_append, printFrom?_char, htext]
  simp [Function.comp_def]

/-- What stands below a place is printed as the term that is read there. -/
theorem prints_of_rootedAt (hnodes : RootedAt tree.nodes i (t.numberFrom (q + 1)))
    (hletters : t.leaves <+: tree.letters.toList.drop q) : tree.Prints i t := by
  induction t generalizing i q with
  | epsilon =>
    cases hnodes with
    | epsilon hi =>
      intro fuel stack
      have hwrite : tree.write? (.node i) = some (['_'], []) := by rw [write?, hi, Option.bind_some, parts?]
      rw [entries, Nat.add_comm, printFrom?_cons hwrite, List.nil_append, text]
  | leaf l =>
    cases hnodes with
    | leaf hi =>
      intro fuel stack
      have hwrite : tree.write? (.node i) = some ([l.toChar], []) := by
        rw [write?, hi, Option.bind_some, parts?, letterAt?_of_prefix hletters, Option.map_some]
      rw [entries, Nat.add_comm, printFrom?_cons hwrite, List.nil_append, text]
  | star r ih =>
    cases hnodes with
    | star hi hr => exact prints_star (by rw [write?, hi, Option.bind_some, parts?]) (ih hr hletters)
  | concat l r ihl ihr =>
    obtain ⟨hleft, hright⟩ := prefix_drop_append hletters
    rw [length_leaves] at hright
    cases hnodes with
    | concat hi hl hr =>
      rw [Nat.add_right_comm] at hr
      exact prints_sides (by rw [write?, hi, Option.bind_some, parts?]) rfl rfl (ihl hl hleft) (ihr hr hright)
  | union l r ihl ihr =>
    obtain ⟨hleft, hright⟩ := prefix_drop_append hletters
    rw [length_leaves] at hright
    cases hnodes with
    | union hi hl hr =>
      rw [Nat.add_right_comm] at hr
      exact prints_sides (by rw [write?, hi, Option.bind_some, parts?]) rfl rfl (ihl hl hleft) (ihr hr hright)

theorem text?_ofTerm (t : Regex Letter) : (ofTerm t).text? = some t.text := by
  have hnodes : (ofTerm t).nodes.toList = nodesFrom 0 t.linearize := rfl
  have hsize : t.linearize.size = t.size := size_numberFrom 1 t
  have hroot := rootedAt_of_part (part_of_whole hnodes)
  rw [Nat.zero_add, hsize] at hroot
  have hprints : (ofTerm t).Prints (ofTerm t).root t := prints_of_rootedAt hroot (List.prefix_refl t.leaves)
  have hfuel : 3 * (ofTerm t).nodes.size = t.entries + (3 * t.size - t.entries) := by
    rw [size_of_whole hnodes, hsize, Nat.add_sub_cancel' t.entries_le]
  rw [text?, hfuel, hprints, printFrom?, Option.map_some, List.append_nil]

end Tree

/-- Printing and reading again: the tree of an expression whose letters are read as themselves is printed as the text of
its term, and this text has the tokens of the expression, and so the same term with the same nodes. -/
theorem ofPattern_text {xs : List Token} {t : Regex Letter} (hend : Token.letter .endMark ∉ xs)
    (hletters : ∀ c, Token.letter (.char c) ∈ xs → Token.ofChar? c = some (.letter (.char c)))
    (h : ofPostfix xs = .ok t) :
    (∃ tree, Tree.ofPostfix? xs = some (.ok tree) ∧ tree.text? = some t.text) ∧
      Postfix.ofPattern t.text = .ok xs ∧ Regex.ofPattern t.text = .ok t ∧
      (Regex.ofPattern t.text).map nodes = .ok t.nodes := by
  have htree : ∃ tree, Tree.ofPostfix? xs = some (.ok tree) ∧ tree.text? = some t.text :=
    ⟨Tree.ofTerm t, Tree.ofPostfix?_eq_ok.mpr ⟨t, h, rfl⟩, Tree.text?_ofTerm t⟩
  obtain ⟨r, rfl⟩ := exists_eq_map hend h
  have hspells : Spells .factor (r.map Letter.char).text r := by
    apply spells_text
    intro c hc
    have hmem : Token.letter (.char c) ∈ (r.map Letter.char).tokens := by
      rw [mem_tokens, leaves_map]
      exact List.mem_map_of_mem hc
    rw [ofPostfix_eq_ok.mp h] at hmem
    exact (Token.ofChar?_eq_letter.mp (hletters c hmem)).2
  have htokens := ofPattern_of_spells (.expression (.term hspells))
  rw [ofPostfix_eq_ok.mp h] at htokens
  have hterm : ofPattern (r.map Letter.char).text = .ok (r.map Letter.char) := by
    rw [ofPattern, htokens, Except.bind, h]
    rfl
  refine ⟨htree, htokens, hterm, ?_⟩
  rw [hterm]
  rfl

theorem ofPattern_text_nested :
    ∃ t, ofPostfix [.letter (.char 'a'), .letter (.char 'b'), .operator .star, .operator .union, .operator .star] =
        .ok t ∧
      t.text = ['(', 'a', '|', 'b', '*', ')', '*'] ∧
      Postfix.ofPattern ['(', 'a', '|', 'b', '*', ')', '*'] =
        .ok [.letter (.char 'a'), .letter (.char 'b'), .operator .star, .operator .union, .operator .star] := by
  have hterm : ofPostfix [.letter (.char 'a'), .letter (.char 'b'), .operator .star, .operator .union,
      .operator .star] = .ok (.star (.union (.leaf (.char 'a')) (.star (.leaf (.char 'b'))))) := rfl
  refine ⟨_, hterm, rfl, (ofPattern_text ?_ ?_ hterm).2.1⟩
  · simp
  · intro c hc
    obtain rfl | rfl : c = 'a' ∨ c = 'b' := by simpa using hc
    · exact Token.ofChar?_eq_letter.mpr ⟨rfl, by decide, by decide⟩
    · exact Token.ofChar?_eq_letter.mpr ⟨rfl, by decide, by decide⟩

end PatternAutomata.Regex
