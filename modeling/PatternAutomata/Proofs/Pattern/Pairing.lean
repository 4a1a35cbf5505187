import PatternAutomata.Proofs.Pattern.Balance

/-!
# Pairs of parentheses

Conversion takes any lexemes, with any indices, and looks at their parentheses only: it fails at the first
one that closes nothing, or else at the last one that nothing closes. Whatever operators wait between them,
the open parentheses of the stack are those of the lexemes so far that have no partner, the last one on top.
-/

namespace PatternAutomata

set_option autoImplicit false

namespace Lexeme

variable {xs us vs ws : List Lexeme} {x : Lexeme} {i j : Nat} {js : List Nat}

def brackets : Brackets Lexeme :=
  ⟨fun x => decide (x.token = .opening), fun x => decide (x.token = .closing), by simp +contextual⟩

def openings (xs : List Lexeme) : Nat := xs.countP brackets.opens

def closings (xs : List Lexeme) : Nat := xs.countP brackets.closes

def Covered (xs : List Lexeme) : Prop := brackets.Covered 0 xs

def Balanced (xs : List Lexeme) : Prop := brackets.Closes 0 xs

/-- A parenthesis that is opened directly in front of the lexemes is closed by one of them. -/
def Closed (xs : List Lexeme) : Prop := ∃ us i vs, xs = us ++ ⟨.closing, i⟩ :: vs ∧ Balanced us

theorem covered_iff : Covered xs ↔ ∀ us, us <+: xs → closings us ≤ openings us := by
  simp only [Covered, Brackets.Covered, Nat.zero_add]
  rfl

theorem closes_iff : brackets.closes x = true ↔ ∃ i, x = ⟨.closing, i⟩ := by
  obtain ⟨t, i⟩ := x
  simp [brackets]

theorem openings_lt_closings (hus : Balanced us) (i : Nat) : openings us < closings (us ++ [⟨.closing, i⟩]) := by
  have hclosing : [(⟨.closing, i⟩ : Lexeme)].countP brackets.closes = 1 := (Brackets.countP_closing rfl).1
  have hcount : us.countP brackets.closes = us.countP brackets.opens := hus.count_eq.trans (Nat.zero_add _)
  rw [openings, closings, List.countP_append, hclosing, hcount]
  exact Nat.lt_succ_self _

theorem balanced_nil : Balanced [] := Brackets.closes_nil.mpr rfl

theorem Balanced.append (hus : Balanced us) (hvs : Balanced vs) : Balanced (us ++ vs) := Brackets.Closes.append hus hvs

theorem balanced_other (hopening : x.token ≠ .opening) (hclosing : x.token ≠ .closing) : Balanced [x] :=
  (Brackets.closes_cons_other (decide_eq_false hopening) (decide_eq_false hclosing)).mpr balanced_nil

theorem Balanced.group (hws : Balanced ws) (i j : Nat) : Balanced (⟨.opening, i⟩ :: ws ++ [⟨.closing, j⟩]) := by
  have hclosing : brackets.Closes 1 [⟨.closing, j⟩] := (Brackets.closes_cons_closing rfl).mpr balanced_nil
  exact (Brackets.closes_cons_opening rfl).mpr (Brackets.Closes.append hws hclosing)

/-- What closes a parenthesis in front of the lexemes is the first of them that is one too many. -/
theorem closed_iff : Closed xs ↔ ¬ Covered xs := by
  constructor
  · rintro ⟨us, i, vs, rfl, hus⟩
    exact Brackets.Closes.not_covered hus rfl
  · intro hxs
    obtain ⟨us, x, vs, hsplit, hx, hus⟩ := Brackets.exists_closing_of_not_covered hxs
    obtain ⟨i, rfl⟩ := closes_iff.mp hx
    exact ⟨us, i, vs, hsplit, hus⟩

theorem Balanced.closed (h : Balanced (us ++ ⟨.opening, i⟩ :: vs)) : Closed vs :=
  closed_iff.mpr (Brackets.Closes.not_covered_behind h rfl)

/-- The indices of the parentheses that are not closed, the last of them first. -/
inductive Unclosed : List Lexeme → List Nat → Prop where
  | balanced {ws : List Lexeme} : Balanced ws → Unclosed ws []
  | opening {us ws : List Lexeme} {js : List Nat} {i : Nat} :
      Unclosed us js → Balanced ws → Unclosed (us ++ ⟨.opening, i⟩ :: ws) (i :: js)

namespace Unclosed

theorem append (h : Unclosed us js) (hws : Balanced ws) : Unclosed (us ++ ws) js := by
  cases h with
  | balanced hus => exact .balanced (hus.append hws)
  | opening hus hvs =>
    rw [List.append_assoc, List.cons_append]
    exact .opening hus (hvs.append hws)

theorem close (h : Unclosed us (i :: js)) (j : Nat) : Unclosed (us ++ [⟨.closing, j⟩]) js := by
  cases h with
  | opening hus hws =>
    rw [List.append_assoc]
    exact hus.append (hws.group i j)

theorem covered (h : Unclosed us js) : Covered us := by
  induction h with
  | balanced hws => exact hws.covered
  | opening _ hws ih => exact Brackets.Covered.append ih (Brackets.Covered.opening hws.covered rfl)

end Unclosed
end Lexeme

namespace Postfix

open Lexeme

variable {xs us : List Lexeme} {x : Lexeme} {stack below : List Pending} {out : List Token}

theorem unclosed_shift (hus : Unclosed us (opened stack)) (h : shift? stack x = some (out, below)) :
    Unclosed (us ++ [x]) (opened below) := by
  rcases opened_shift h with ⟨hx, hbelow⟩ | ⟨hx, i, hstack⟩ | ⟨hopening, hclosing, hbelow⟩
  · obtain ⟨t, index⟩ := x
    obtain rfl := hx
    rw [hbelow]
    exact .opening hus balanced_nil
  · obtain ⟨t, index⟩ := x
    obtain rfl := hx
    rw [hstack] at hus
    exact hus.close index
  · rw [hbelow]
    exact hus.append (balanced_other hopening hclosing)

/-- What the conversion of lexemes comes to. -/
inductive Paired (xs : List Lexeme) : Except Fault (List Token) → Prop where
  | balanced {tokens : List Token} : Lexeme.Balanced xs → Paired xs (.ok tokens)
  | closing {us vs : List Lexeme} {i : Nat} : xs = us ++ ⟨.closing, i⟩ :: vs → Lexeme.Balanced us →
      Paired xs (.error (.unbalancedParen (some i)))
  | opening {i : Nat} {js : List Nat} : Unclosed xs (i :: js) →
      Paired xs (.error (.unbalancedParen (some i)))

theorem Paired.map {v : Except Fault (List Token)} (h : Paired xs v) (f : List Token → List Token) :
    Paired xs (v.map f) := by
  cases h with
  | balanced h => exact .balanced h
  | closing hxs hus => exact .closing hxs hus
  | opening h => exact .opening h

/-- Behind lexemes whose open parentheses are those of the stack, conversion tells what is open in the end. -/
theorem paired_convert (hus : Unclosed us (opened stack)) (xs : List Lexeme) :
    Paired (us ++ xs) (convert stack xs) := by
  -- by what is still to be read; each lexeme goes over to those before it
  induction xs generalizing us stack with
  | nil =>
    rw [List.append_nil]
    rcases convert_nil_cases stack with ⟨hopened, tokens, htokens⟩ | ⟨i, js, hopened, herror⟩
    · rw [hopened] at hus
      rw [htokens]
      cases hus with
      | balanced hus => exact .balanced hus
    · rw [hopened] at hus
      rw [herror]
      exact .opening hus
  | cons x xs ih =>
    cases hx : shift? stack x with
    | none =>
      obtain ⟨t, index⟩ := x
      obtain ⟨rfl, hopened⟩ := opened_eq_nil hx
      rw [hopened] at hus
      rw [convert_cons_error hx]
      cases hus with
      | balanced hus => exact .closing rfl hus
    | some y =>
      obtain ⟨out, below⟩ := y
      have hrest := ih (unclosed_shift hus hx)
      rw [List.append_assoc, List.singleton_append] at hrest
      rw [convert_cons hx]
      exact hrest.map _

/-- Conversion comes to an end, stops at a parenthesis that closes nothing, or finds none of these but one
that is still open in the end. -/
theorem ofLexemes_cases (xs : List Lexeme) :
    (Lexeme.Balanced xs ∧ ∃ tokens, ofLexemes xs = .ok tokens) ∨
      (∃ us i vs, xs = us ++ ⟨.closing, i⟩ :: vs ∧ Lexeme.Balanced us ∧
        ofLexemes xs = .error (.unbalancedParen (some i))) ∨
      (Covered xs ∧ ∃ us i vs, xs = us ++ ⟨.opening, i⟩ :: vs ∧ Lexeme.Balanced vs ∧
        ofLexemes xs = .error (.unbalancedParen (some i))) := by
  have hnone : Unclosed [] (opened []) := .balanced balanced_nil
  have hpaired : Paired xs (ofLexemes xs) := paired_convert hnone xs
  generalize ofLexemes xs = v at hpaired
  cases hpaired with
  | balanced hxs => exact Or.inl ⟨hxs, _, rfl⟩
  | closing hxs hus => exact Or.inr (Or.inl ⟨_, _, _, hxs, hus, rfl⟩)
  | opening hxs =>
    refine Or.inr (Or.inr ⟨hxs.covered, ?_⟩)
    cases hxs with
    | opening _ hvs => exact ⟨_, _, _, rfl, hvs, rfl⟩

theorem exists_ofLexemes_iff : (∃ tokens, ofLexemes xs = .ok tokens) ↔ Lexeme.Balanced xs := by
  rcases ofLexemes_cases xs with ⟨hxs, htokens⟩ | ⟨us, i, vs, rfl, hus, herror⟩ | ⟨_, us, i, vs, rfl, hvs, herror⟩
  · exact iff_of_true htokens hxs
  · rw [herror]
    refine iff_of_false nofun ?_
    intro hxs
    exact closed_iff.mp ⟨us, i, vs, rfl, hus⟩ hxs.covered
  · rw [herror]
    refine iff_of_false nofun ?_
    intro hxs
    exact closed_iff.mp hxs.closed hvs.covered

theorem ofLexemes_of_not_covered (h : ¬ Covered xs) :
    ∃ us i vs, xs = us ++ ⟨.closing, i⟩ :: vs ∧ Covered us ∧ openings us < closings (us ++ [⟨.closing, i⟩]) ∧
      ofLexemes xs = .error (.unbalancedParen (some i)) := by
  rcases ofLexemes_cases xs with ⟨hxs, _⟩ | ⟨us, i, vs, hsplit, hus, herror⟩ | ⟨hxs, _⟩
  · exact absurd hxs.covered h
  · exact ⟨us, i, vs, hsplit, hus.covered, openings_lt_closings hus i, herror⟩
  · exact absurd hxs h

theorem ofLexemes_of_not_balanced (hcovered : Covered xs) (h : ¬ Lexeme.Balanced xs) :
    ∃ us i vs, xs = us ++ ⟨.opening, i⟩ :: vs ∧ ¬ Closed vs ∧
      (∀ us' j vs', vs = us' ++ ⟨.opening, j⟩ :: vs' → Closed vs') ∧
      ofLexemes xs = .error (.unbalancedParen (some i)) := by
  rcases ofLexemes_cases xs with ⟨hxs, _⟩ | ⟨us, i, vs, hsplit, hus, _⟩ | ⟨_, us, i, vs, hsplit, hvs, herror⟩
  · exact absurd hxs h
  · exact absurd hcovered (closed_iff.mp ⟨us, i, vs, hsplit, hus⟩)
  · refine ⟨us, i, vs, hsplit, fun hclosed => closed_iff.mp hclosed hvs.covered, ?_, herror⟩
    rintro us' j vs' rfl
    exact hvs.closed

theorem balanced_iff_closed :
    Lexeme.Balanced xs ↔ Covered xs ∧ ∀ us i vs, xs = us ++ ⟨.opening, i⟩ :: vs → Closed vs := by
  constructor
  · intro hxs
    refine ⟨hxs.covered, ?_⟩
    rintro us i vs rfl
    exact hxs.closed
  · rintro ⟨hcovered, hclosed⟩
    by_contra h
    obtain ⟨us, i, vs, hsplit, hvs, _⟩ := ofLexemes_of_not_balanced hcovered h
    exact hvs (hclosed us i vs hsplit)

/-- Conversion succeeds if the parentheses are balanced. If somewhere more are closed than opened, it names
the first place where this happens, and otherwise the last parenthesis that is not closed. -/
theorem ofLexemes_parentheses (xs : List Lexeme) :
    ((∃ tokens, ofLexemes xs = .ok tokens) ↔ Lexeme.Balanced xs) ∧
      ((∃ us, us <+: xs ∧ openings us < closings us) →
        ∃ us i vs, xs = us ++ ⟨.closing, i⟩ :: vs ∧ Covered us ∧
          openings us < closings (us ++ [⟨.closing, i⟩]) ∧
          ofLexemes xs = .error (.unbalancedParen (some i))) ∧
      (Covered xs → (∃ us i vs, xs = us ++ ⟨.opening, i⟩ :: vs ∧ ¬ Closed vs) →
        ∃ us i vs, xs = us ++ ⟨.opening, i⟩ :: vs ∧ ¬ Closed vs ∧
          (∀ us' j vs', vs = us' ++ ⟨.opening, j⟩ :: vs' → Closed vs') ∧
          ofLexemes xs = .error (.unbalancedParen (some i))) ∧
      (Lexeme.Balanced xs ↔ Covered xs ∧ ∀ us i vs, xs = us ++ ⟨.opening, i⟩ :: vs → Closed vs) := by
  refine ⟨exists_ofLexemes_iff, ?_, ?_, balanced_iff_closed⟩
  · rintro ⟨us, hus, hlt⟩
    apply ofLexemes_of_not_covered
    intro hxs
    exact Nat.not_le_of_lt hlt (covered_iff.mp hxs us hus)
  · rintro hcovered ⟨us, i, vs, rfl, hvs⟩
    apply ofLexemes_of_not_balanced hcovered
    intro hxs
    exact hvs hxs.closed

/-- The indices are told as they are given, and nothing is asked about the operands. -/
example : ofLexemes [⟨.opening, 7⟩, ⟨.operator .star, 4⟩, ⟨.opening, 4⟩, ⟨.closing, 9⟩, ⟨.operator .union, 0⟩,
    ⟨.opening, 2⟩] = .error (.unbalancedParen (some 2)) := by decide

end Postfix
end PatternAutomata
