import PatternAutomata.Nfa.Fragment
import PatternAutomata.Regex.PositionAutomaton

/-!
# One evaluation for all meanings

Postfix expressions are evaluated in the same way whatever their operands and operators mean. A map
that commutes with the meanings commutes with the evaluation, faults included, so every construction
from postfix expressions is a function of the term.
-/

namespace PatternAutomata

set_option autoImplicit false

def Token.arity : Token → Nat
  | operator o => o.arity
  | _ => 0

namespace Postfix

variable {β γ : Type} {i : Interpretation β} {j : Interpretation γ} {h : β → γ} {P : Letter → Prop}

/-- A map that commutes with the operators, and with the letters that have a property. -/
structure Hom (i : Interpretation β) (j : Interpretation γ) (h : β → γ) (P : Letter → Prop) : Prop where
  epsilon : j.epsilon = h i.epsilon
  letter : ∀ l, P l → j.letter l = (i.letter l).map h
  star : ∀ x, j.star (h x) = h (i.star x)
  concat : ∀ x y, j.concat (h x) (h y) = h (i.concat x y)
  union : ∀ x y, j.union (h x) (h y) = h (i.union x y)

theorem Hom.evaluateToken (hom : Hom i j h P) (stack : List β) {t : Token} (ht : ∀ l, t = .letter l → P l) :
    evaluateToken j (stack.map h) t = (evaluateToken i stack t).map (List.map h) := by
  cases t with
  | epsilon => simp [Postfix.evaluateToken, hom.epsilon, Except.map]
  | letter l =>
    simp only [Postfix.evaluateToken, hom.letter l (ht l rfl)]
    cases i.letter l <;> rfl
  | operator o =>
    cases o with
    | star =>
      cases stack with
      | nil => rfl
      | cons x below => simp [Postfix.evaluateToken, hom.star, Except.map]
    | concat =>
      match stack with
      | [] => rfl
      | [_] => rfl
      | y :: x :: below => simp [Postfix.evaluateToken, hom.concat, Except.map]
    | union =>
      match stack with
      | [] => rfl
      | [_] => rfl
      | y :: x :: below => simp [Postfix.evaluateToken, hom.union, Except.map]
  | opening => rfl
  | closing => rfl

theorem Hom.evaluateFrom (hom : Hom i j h P) {tokens : List Token} (hP : ∀ l, Token.letter l ∈ tokens → P l)
    (stack : List β) : evaluateFrom j (stack.map h) tokens = (evaluateFrom i stack tokens).map h := by
  induction tokens generalizing stack with
  | nil =>
    match stack with
    | [] => rfl
    | [_] => rfl
    | _ :: _ :: _ => rfl
  | cons t rest ih =>
    rw [Postfix.evaluateFrom, Postfix.evaluateFrom,
      hom.evaluateToken stack fun l hl => hP l (hl ▸ List.mem_cons_self)]
    cases Postfix.evaluateToken i stack t with
    | error e => rfl
    | ok below => exact ih (fun l hl => hP l (List.mem_cons_of_mem _ hl)) below

theorem Hom.evaluate (hom : Hom i j h P) {tokens : List Token} (hP : ∀ l, Token.letter l ∈ tokens → P l) :
    evaluate j tokens = (evaluate i tokens).map h := hom.evaluateFrom hP []

theorem exists_of_evaluateToken {stack below : List β} {t : Token}
    (h : Postfix.evaluateToken i stack t = .ok below) :
    ∃ x, below = x :: stack.drop t.arity ∧ t.arity ≤ stack.length := by
  cases t with
  | epsilon =>
    cases h
    exact ⟨_, rfl, Nat.zero_le _⟩
  | letter l =>
    rw [Postfix.evaluateToken] at h
    cases hl : i.letter l with
    | error e =>
      rw [hl] at h
      cases h
    | ok x =>
      rw [hl] at h
      cases h
      exact ⟨_, rfl, Nat.zero_le _⟩
  | operator o =>
    cases o with
    | star =>
      rcases stack with _ | ⟨x, stack⟩ <;> cases h
      exact ⟨_, rfl, by simp [Token.arity, Operator.arity]⟩
    | concat =>
      rcases stack with _ | ⟨y, _ | ⟨x, stack⟩⟩ <;> cases h
      exact ⟨_, rfl, by simp [Token.arity, Operator.arity]⟩
    | union =>
      rcases stack with _ | ⟨y, _ | ⟨x, stack⟩⟩ <;> cases h
      exact ⟨_, rfl, by simp [Token.arity, Operator.arity]⟩
  | opening => cases h
  | closing => cases h

/-- The end mark is concatenated behind the whole expression. If there is anything to concatenate it
to, the expression has the faults that it has without the mark. -/
theorem evaluateFrom_withEndMark {m : β} (hm : i.letter .endMark = .ok m) {stack : List β} {tokens : List Token}
    (hsome : stack ≠ [] ∨ tokens ≠ []) :
    evaluateFrom i stack (withEndMark tokens) = (evaluateFrom i stack tokens).map fun x => i.concat x m := by
  induction tokens generalizing stack with
  | nil =>
    match stack with
    | [] => simp at hsome
    | [y] => simp [withEndMark, Postfix.evaluateFrom, Postfix.evaluateToken, hm, Except.map, Except.bind]
    | _ :: _ :: _ =>
      simp [withEndMark, Postfix.evaluateFrom, Postfix.evaluateToken, hm, Except.map, Except.bind]
  | cons t tokens ih =>
    have hcons : withEndMark (t :: tokens) = t :: withEndMark tokens := rfl
    rw [hcons, Postfix.evaluateFrom, Postfix.evaluateFrom]
    cases ht : Postfix.evaluateToken i stack t with
    | error e => rfl
    | ok below =>
      obtain ⟨x, rfl, _⟩ := exists_of_evaluateToken ht
      exact ih (Or.inl (List.cons_ne_nil x _))

end Postfix

namespace Regex

def map {α β : Type} (f : α → β) : Regex α → Regex β
  | epsilon => epsilon
  | leaf a => leaf (f a)
  | star r => star (r.map f)
  | concat l r => concat (l.map f) (r.map f)
  | union l r => union (l.map f) (r.map f)

/-- Postfix expressions as terms over characters; the end mark is reserved. -/
def charInterpretation : Postfix.Interpretation (Regex Char) where
  epsilon := epsilon
  letter
    | .char c => .ok (leaf c)
    | .endMark => .error .reservedEndMark
  star := star
  concat := concat
  union := union

def ofTokens (tokens : List Token) : Except Malformed (Regex Char) :=
  Postfix.evaluate charInterpretation tokens

theorem ofPostfix_eq_map {tokens : List Token} (hend : Token.letter .endMark ∉ tokens) :
    ofPostfix tokens = (ofTokens tokens).map (map Letter.char) := by
  have hom : Postfix.Hom charInterpretation interpretation (map Letter.char) (· ≠ .endMark) := by
    refine ⟨rfl, ?_, fun _ => rfl, fun _ _ => rfl, fun _ _ => rfl⟩
    intro l hl
    cases l with
    | char c => rfl
    | endMark => exact absurd rfl hl
  exact hom.evaluate fun l hl he => hend (he ▸ hl)

end Regex

namespace Nfa

def ofRegex : Regex Char → Nfa
  | .epsilon => epsilon
  | .leaf c => literal c
  | .star r => star (ofRegex r)
  | .concat l r => concat (ofRegex l) (ofRegex r)
  | .union l r => union (ofRegex l) (ofRegex r)

theorem ofPostfix_eq_map (tokens : List Token) : ofPostfix tokens = (Regex.ofTokens tokens).map ofRegex := by
  have hom : Postfix.Hom Regex.charInterpretation interpretation ofRegex (fun _ => True) := by
    refine ⟨rfl, ?_, fun _ => rfl, fun _ _ => rfl, fun _ _ => rfl⟩
    intro l _
    cases l <;> rfl
  exact hom.evaluate fun _ _ => trivial

end Nfa

def Regex.withEndMark (r : Regex Char) : Regex Letter := .concat (r.map Letter.char) (.leaf .endMark)

/-- The automaton of the positions of an expression is that of its term, and where there is none the
faults are the same. -/
theorem Dfa.ofPostfix_eq_bind {tokens : List Token} (hend : Token.letter .endMark ∉ tokens) :
    Dfa.ofPostfix tokens = (Regex.ofTokens tokens).bind fun r => Dfa.ofTerm r.withEndMark := by
  cases tokens with
  | nil => rfl
  | cons t tokens =>
    have hmark : Postfix.evaluateFrom Regex.interpretation [] (Postfix.withEndMark (t :: tokens)) = _ :=
      Postfix.evaluateFrom_withEndMark rfl (Or.inr (List.cons_ne_nil t tokens))
    have hmap := Regex.ofPostfix_eq_map hend
    unfold Regex.ofPostfix Postfix.evaluate at hmap
    rw [Dfa.ofPostfix, if_neg (List.cons_ne_nil t tokens), if_neg hend, Regex.ofPostfix, Postfix.evaluate,
      hmark, hmap]
    cases Regex.ofTokens (t :: tokens) with
    | error e => rfl
    | ok r => rfl

theorem Dfa.ofPostfix_eq_ok {tokens : List Token} (hend : Token.letter .endMark ∉ tokens) {d : Dfa} :
    Dfa.ofPostfix tokens = .ok d ↔
      ∃ r, Regex.ofTokens tokens = .ok r ∧ Dfa.ofTerm r.withEndMark = .ok d := by
  rw [Dfa.ofPostfix_eq_bind hend]
  cases Regex.ofTokens tokens with
  | error e => simp [Except.bind]
  | ok r => simp [Except.bind]

end PatternAutomata
