import PatternAutomata.Proofs.Pattern.Simulation
import PatternAutomata.Proofs.Regex.Attributes

/-!
# The terms of patterns

A pattern has a term when the grammar derives it, and the term is that of its only derivation: a star
binds more tightly than a concatenation, which binds more tightly than a union, both of these
associate to the left, and parentheses leave no trace. The leaves of the term are the letters of the
pattern from left to right, and so are their positions.
-/

namespace PatternAutomata

set_option autoImplicit false

variable {s : List Char} {tokens : List Token} {r : Regex Char}

theorem mem_joinFrom {ends : Bool} {xs : List Lexeme} {x : Lexeme} (hx : x ∈ Lexeme.joinFrom ends xs) :
    x ∈ xs ∨ x.token = .operator .concat := by
  induction xs generalizing ends with
  | nil => cases hx
  | cons y xs ih =>
    rcases Lexeme.mem_joinFrom_cons.mp hx with ⟨_, rfl⟩ | rfl | hx
    · exact Or.inr rfl
    · exact Or.inl List.mem_cons_self
    · exact (ih hx).imp_left (List.mem_cons_of_mem y)

theorem exists_ofChar?_of_mem_readFrom {index : Nat} {xs : List Lexeme} (h : Lexeme.readFrom index s = .ok xs)
    {x : Lexeme} (hx : x ∈ xs) : ∃ c ∈ s, Token.ofChar? c = some x.token := by
  induction s generalizing index xs with
  | nil =>
    cases h
    cases hx
  | cons c s ih =>
    obtain ⟨t, rest, ht, hrest, rfl⟩ := Lexeme.readFrom_cons_eq_ok.mp h
    rcases List.mem_cons.mp hx with rfl | hx
    · exact ⟨c, List.mem_cons_self, ht⟩
    · obtain ⟨d, hd, hdx⟩ := ih hrest hx
      exact ⟨d, List.mem_cons_of_mem c hd, hdx⟩

theorem postfix_ofPattern_eq_ok : Postfix.ofPattern s = .ok tokens ↔
    ∃ xs, Lexeme.readFrom 0 s = .ok xs ∧ Postfix.convert [] (Lexeme.joinFrom false xs) = .ok tokens := by
  unfold Postfix.ofPattern Lexeme.ofPattern Postfix.ofLexemes
  cases Lexeme.readFrom 0 s with
  | error e => simp [Except.map, Except.bind]
  | ok xs => simp [Except.map, Except.bind, Lexeme.join_eq]

theorem endMark_not_mem (h : Postfix.ofPattern s = .ok tokens) : Token.letter .endMark ∉ tokens := by
  intro hmem
  obtain ⟨xs, hxs, hconvert⟩ := postfix_ofPattern_eq_ok.mp h
  rcases (Postfix.mem_convert hconvert hmem).2 with ⟨o, ho⟩ | ⟨x, hx, hxt⟩
  · cases ho
  · rcases mem_joinFrom hx with hx | hconcat
    · obtain ⟨c, _, hc⟩ := exists_ofChar?_of_mem_readFrom hxs hx
      rw [hxt] at hc
      cases (Token.ofChar?_eq_letter.mp hc).1
    · rw [hxt] at hconcat
      cases hconcat

theorem exists_tokens_iff :
    (∃ tokens, Postfix.ofPattern s = .ok tokens ∧ Regex.ofTokens tokens = .ok r) ↔
      ∃ e : Derivation .expression, e.text = s ∧ e.toRegex = r := by
  have hstart : Reader.Agrees Reader.machine.start [] [] := .ofOperand (k := {}) .nil
  have hresults := hstart.results_iff (v := r) s 0
  have hread : (∃ e, (Reader.machine.walk Reader.machine.start s).bind Reader.result? = some e ∧ e.toRegex = r) ↔
      ∃ e : Derivation .expression, e.text = s ∧ e.toRegex = r := by
    simp only [← Reader.read?_eq_some, Reader.read?]
  rw [← hread, ← hresults]
  simp only [postfix_ofPattern_eq_ok]
  constructor
  · intro h
    obtain ⟨tokens, ⟨xs, hxs, hconvert⟩, hr⟩ := h
    exact ⟨xs, hxs, tokens, hconvert, hr⟩
  · intro h
    obtain ⟨xs, hxs, tokens, hconvert, hr⟩ := h
    exact ⟨tokens, ⟨xs, hxs, hconvert⟩, hr⟩

def Regex.ofPattern (pattern : List Char) : Except Fault (Regex Letter) :=
  (Postfix.ofPattern pattern).bind fun tokens => (Regex.ofPostfix tokens).mapError .malformed

theorem Regex.ofPattern_eq_ok {t : Regex Letter} : Regex.ofPattern s = .ok t ↔
    ∃ e : Derivation .expression, e.text = s ∧ e.toRegex.map Letter.char = t := by
  have htokens : Regex.ofPattern s = .ok t ↔ ∃ r, (∃ tokens, Postfix.ofPattern s = .ok tokens ∧
      Regex.ofTokens tokens = .ok r) ∧ r.map Letter.char = t := by
    unfold Regex.ofPattern
    cases hp : Postfix.ofPattern s with
    | error e => simp [Except.bind]
    | ok tokens =>
      simp only [Except.bind, Regex.ofPostfix_eq_map (endMark_not_mem hp), Except.ok.injEq, exists_eq_left']
      cases Regex.ofTokens tokens with
      | error e => simp [Except.map, Except.mapError]
      | ok r => simp [Except.map, Except.mapError]
  rw [htokens]
  simp only [exists_tokens_iff]
  constructor
  · intro h
    obtain ⟨_, ⟨e, he, rfl⟩, rfl⟩ := h
    exact ⟨e, he, rfl⟩
  · intro h
    obtain ⟨e, he, rfl⟩ := h
    exact ⟨_, ⟨e, he, rfl⟩, rfl⟩

def letters (s : List Char) : List Char := s.filter fun c => Text.isAlphanumeric c && decide (c ≠ 'ε')

theorem letters_append (u w : List Char) : letters (u ++ w) = letters u ++ letters w := List.filter_append ..

theorem letters_cons_mark {c : Char} (hc : c ∈ ['_', '|', '+', '.', '*', '(', ')', '#']) (w : List Char) :
    letters (c :: w) = letters w :=
  List.filter_cons_of_neg (by rw [Token.not_isAlphanumeric hc]; exact Bool.false_ne_true)

theorem letters_concat_mark {c : Char} (hc : c ∈ ['_', '|', '+', '.', '*', '(', ')', '#']) (w : List Char) :
    letters (w ++ [c]) = letters w := by
  rw [letters_append, letters_cons_mark hc]
  exact List.append_nil _

theorem Derivation.leaves_toRegex {level : Level} (e : Derivation level) : e.toRegex.leaves = letters e.text := by
  induction e with
  | letter c alphanumeric other => simp [toRegex, text, Regex.leaves, letters, alphanumeric, other]
  | underscore => exact (letters_cons_mark (by simp) []).symm
  | epsilon => simp [toRegex, text, Regex.leaves, letters]
  | group e ih => rw [text, letters_cons_mark (by simp), letters_concat_mark (by simp), toRegex, ih]
  | factor a ih => exact ih
  | star f ih => rw [text, letters_concat_mark (by simp), toRegex, Regex.leaves, ih]
  | term f ih => exact ih
  | adjoin t f iht ihf => rw [text, letters_append, toRegex, Regex.leaves, iht, ihf]
  | dot t f iht ihf => rw [text, letters_append, letters_cons_mark (by simp), toRegex, Regex.leaves, iht, ihf]
  | expression t ih => exact ih
  | bar e t ihe iht => rw [text, letters_append, letters_cons_mark (by simp), toRegex, Regex.leaves, ihe, iht]
  | plus e t ihe iht => rw [text, letters_append, letters_cons_mark (by simp), toRegex, Regex.leaves, ihe, iht]

def Regex.Shape.position? : Regex.Shape → Option Nat
  | .leaf p => some p
  | _ => none

theorem Regex.positions_postorder (t : Regex Nat) (k : Nat) :
    (t.postorder.zipIdx k).filterMap (fun x => (x.1.shapeAt x.2).position?) = t.leaves := by
  have hstar : ∀ i (t : Regex Nat), ((star t).shapeAt i).position? = none := fun _ _ => rfl
  have hconcat : ∀ i (l r : Regex Nat), ((concat l r).shapeAt i).position? = none := fun _ _ _ => rfl
  have hunion : ∀ i (l r : Regex Nat), ((union l r).shapeAt i).position? = none := fun _ _ _ => rfl
  induction t generalizing k with
  | epsilon => rfl
  | leaf p => rfl
  | star t ih => simp [postorder, leaves, List.zipIdx_append, ih, hstar]
  | concat l r ihl ihr => simp [postorder, leaves, List.zipIdx_append, ihl, ihr, hconcat]
  | union l r ihl ihr => simp [postorder, leaves, List.zipIdx_append, ihl, ihr, hunion]

theorem Regex.positions_nodes {α : Type} (t : Regex α) :
    t.nodes.filterMap (fun x => x.shape.position?) = List.range' 1 t.leaves.length := by
  rw [nodes, List.filterMap_map, length_leaves, ← leaves_numberFrom]
  exact positions_postorder t.linearize 0

/-- A pattern has a term exactly if the grammar derives it. Then the term is that of the only
derivation, its leaves are the letters of the pattern, and its nodes number them from left to right. -/
theorem term_iff_derivation (s : List Char) :
    ((∃ t, Regex.ofPattern s = .ok t) ↔ ∃ e : Derivation .expression, e.text = s) ∧
      ∀ t, Regex.ofPattern s = .ok t →
        (∃ e : Derivation .expression, (e.text = s ∧ e.toRegex.map Letter.char = t) ∧
          ∀ e' : Derivation .expression, e'.text = s → e' = e) ∧
        t.leaves = (letters s).map Letter.char ∧
        t.nodes.filterMap (fun x => x.shape.position?) = List.range' 1 (letters s).length := by
  constructor
  · simp only [Regex.ofPattern_eq_ok]
    constructor
    · intro h
      obtain ⟨_, e, he, _⟩ := h
      exact ⟨e, he⟩
    · intro h
      obtain ⟨e, he⟩ := h
      exact ⟨_, e, he, rfl⟩
  · intro t ht
    obtain ⟨e, rfl, rfl⟩ := Regex.ofPattern_eq_ok.mp ht
    have hleaves : (e.toRegex.map Letter.char).leaves = (letters e.text).map Letter.char := by
      rw [Regex.leaves_map, e.leaves_toRegex]
    refine ⟨⟨e, ⟨rfl, rfl⟩, fun e' he' => Derivation.eq_of_text he'⟩, hleaves, ?_⟩
    rw [Regex.positions_nodes, hleaves, List.length_map]

end PatternAutomata
