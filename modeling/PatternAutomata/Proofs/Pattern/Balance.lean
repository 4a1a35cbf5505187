import PatternAutomata.Proofs.Pattern.Brackets
import PatternAutomata.Proofs.Pattern.Conversion
import PatternAutomata.Proofs.Pattern.Derivation

/-!
# Balanced parentheses

Conversion to postfix order succeeds exactly if the parentheses of a pattern are balanced, wherever
its operands and operators stand. The stack of what is pending knows how many are open, and the index
in a fault is that of a parenthesis without a partner.
-/

namespace PatternAutomata

set_option autoImplicit false

variable {s : List Char} {c : Char} {n m : Nat}

def parentheses : Brackets Char := ⟨(· == '('), (· == ')'), by simp⟩

def Closes (n : Nat) (s : List Char) : Prop := parentheses.Closes n s

def Balanced (s : List Char) : Prop := Closes 0 s

/-- The index of a parenthesis that closes nothing, or that nothing closes. -/
inductive Unpaired (n : Nat) : List Char → Nat → Prop where
  | closing {u w : List Char} : Closes n u → Unpaired n (u ++ ')' :: w) u.length
  | opening {u w : List Char} : Balanced w → Unpaired n (u ++ '(' :: w) u.length

theorem closes_nil : Closes n [] ↔ n = 0 := Brackets.closes_nil

theorem closes_cons_opening : Closes n ('(' :: s) ↔ Closes (n + 1) s := Brackets.closes_cons_opening rfl

theorem closes_cons_closing : Closes (n + 1) (')' :: s) ↔ Closes n s := Brackets.closes_cons_closing rfl

theorem closes_cons_other (hopening : c ≠ '(') (hclosing : c ≠ ')') : Closes n (c :: s) ↔ Closes n s :=
  Brackets.closes_cons_other (beq_eq_false_iff_ne.mpr hopening) (beq_eq_false_iff_ne.mpr hclosing)

theorem Unpaired.not_closes {i : Nat} (h : Unpaired n s i) : ¬ Closes n s := by
  intro hs
  cases h with
  | closing hu => exact hu.not_covered rfl hs.covered
  | opening hw => exact hs.not_covered_behind rfl hw.covered

theorem Unpaired.cons {i : Nat} (h : Unpaired m s i) (hcons : ∀ u, Closes m u → Closes n (c :: u)) :
    Unpaired n (c :: s) (i + 1) := by
  cases h with
  | @closing u w hu => exact Unpaired.closing (hcons u hu)
  | @opening u w hw => exact Unpaired.opening (u := c :: u) hw

theorem Token.ofChar?_parentheses {t : Token} (h : ofChar? c = some t) :
    (t = .opening ↔ c = '(') ∧ (t = .closing ↔ c = ')') := by
  rw [Symbol.token_ofChar?] at h
  obtain ⟨x, hx, rfl⟩ := Option.map_eq_some_iff.mp h
  obtain rfl := Symbol.toChar_of_ofChar? hx
  cases x with
  | letter c alphanumeric other =>
    have hne : ∀ d ∈ ['_', '|', '+', '.', '*', '(', ')', '#'], c ≠ d := by
      intro d hd hcd
      rw [hcd, not_isAlphanumeric hd] at alphanumeric
      cases alphanumeric
    simp [Symbol.token, Symbol.toChar, hne]
  | _ => simp [Symbol.token, Symbol.toChar]

namespace Postfix

variable {stack below : List Pending} {out : List Token} {index : Nat} {t : Token}

def opened (stack : List Pending) : List Nat := stack.filterMap Pending.index?

theorem opened_dropWhile {p : Pending → Bool} (hp : ∀ y, p y = true → y.index? = none)
    (stack : List Pending) : opened (stack.dropWhile p) = opened stack := by
  induction stack with
  | nil => rfl
  | cons y stack ih =>
    rw [List.dropWhile_cons]
    split
    · rename_i hy
      rw [ih]
      exact (List.filterMap_cons_none (hp y hy)).symm
    · rfl

theorem opened_dropWhile_isOperator (stack : List Pending) :
    opened (stack.dropWhile Pending.isOperator) = opened stack := by
  refine opened_dropWhile ?_ stack
  intro y hy
  cases y with
  | opening i => cases hy
  | operator o => rfl

theorem opened_push (o : Operator) (stack : List Pending) :
    opened (.operator o :: stack.dropWhile (Pending.yieldsTo o)) = opened stack := by
  have hoperator : ∀ rest, opened (.operator o :: rest) = opened rest := fun _ => rfl
  rw [hoperator]
  refine opened_dropWhile ?_ stack
  intro y hy
  cases y with
  | opening i => cases hy
  | operator p => rfl

theorem opened_closing (h : shift? stack ⟨.closing, index⟩ = some (out, below)) :
    ∃ i, opened stack = i :: opened below := by
  obtain ⟨i, hbelow, _⟩ := exists_of_shift?_closing h
  have hopened := opened_dropWhile_isOperator stack
  rw [hbelow] at hopened
  exact ⟨i, hopened.symm⟩

/-- A lexeme opens a parenthesis, closes the innermost one or leaves them alone. -/
theorem opened_shift {x : Lexeme} (h : shift? stack x = some (out, below)) :
    (x.token = .opening ∧ opened below = x.index :: opened stack) ∨
      (x.token = .closing ∧ ∃ i, opened stack = i :: opened below) ∨
      (x.token ≠ .opening ∧ x.token ≠ .closing ∧ opened below = opened stack) := by
  obtain ⟨t, index⟩ := x
  cases t with
  | opening =>
    cases h
    exact Or.inl ⟨rfl, rfl⟩
  | closing => exact Or.inr (Or.inl ⟨rfl, opened_closing h⟩)
  | operator o =>
    cases h
    exact Or.inr (Or.inr ⟨nofun, nofun, opened_push o stack⟩)
  | epsilon =>
    cases h
    exact Or.inr (Or.inr ⟨nofun, nofun, rfl⟩)
  | letter l =>
    cases h
    exact Or.inr (Or.inr ⟨nofun, nofun, rfl⟩)

theorem opened_eq_nil {x : Lexeme} (h : shift? stack x = none) : x.token = .closing ∧ opened stack = [] := by
  obtain ⟨index, rfl, hbelow⟩ := of_shift?_eq_none h
  refine ⟨rfl, ?_⟩
  rw [← opened_dropWhile_isOperator, hbelow]
  rfl

/-- In the end, conversion fails at the innermost parenthesis that is still open. -/
theorem convert_nil_cases (stack : List Pending) :
    (opened stack = [] ∧ ∃ tokens, convert stack [] = .ok tokens) ∨
      ∃ i js, opened stack = i :: js ∧ convert stack [] = .error (.unbalancedParen (some i)) := by
  have hhead : (opened stack).head? = stack.findSome? Pending.index? := List.head?_filterMap
  unfold convert
  cases hfirst : stack.findSome? Pending.index? with
  | none =>
    rw [hfirst] at hhead
    exact Or.inl ⟨List.head?_eq_none_iff.mp hhead, _, rfl⟩
  | some i =>
    rw [hfirst] at hhead
    obtain ⟨js, hjs⟩ := List.head?_eq_some_iff.mp hhead
    exact Or.inr ⟨i, js, hjs, rfl⟩

theorem shift?_cases (hc : Token.ofChar? c = some t) (h : shift? stack ⟨t, index⟩ = some (out, below)) :
    (c = '(' ∧ opened below = index :: opened stack) ∨ (c = ')' ∧ ∃ i, opened stack = i :: opened below) ∨
      (c ≠ '(' ∧ c ≠ ')' ∧ opened below = opened stack) := by
  obtain ⟨hopening, hclosing⟩ := Token.ofChar?_parentheses hc
  have hcases := opened_shift h
  rwa [hopening, hclosing, ne_eq, ne_eq, hopening, hclosing] at hcases

theorem closes_shift (hc : Token.ofChar? c = some t) (h : shift? stack ⟨t, index⟩ = some (out, below)) :
    Closes (opened stack).length (c :: s) ↔ Closes (opened below).length s := by
  rcases shift?_cases hc h with ⟨rfl, hbelow⟩ | ⟨rfl, i, hstack⟩ | ⟨hopening, hclosing, hbelow⟩
  · rw [hbelow]
    exact closes_cons_opening
  · rw [hstack]
    exact closes_cons_closing
  · rw [hbelow]
    exact closes_cons_other hopening hclosing

/-- What the conversion of a text comes to behind the open parentheses `js`. -/
inductive Checked (js : List Nat) (index : Nat) (s : List Char) : Except Fault (List Token) → Prop where
  | balanced {tokens : List Token} : Closes js.length s → Checked js index s (.ok tokens)
  | unpaired {i : Nat} : Unpaired js.length s i →
      Checked js index s (.error (.unbalancedParen (some (index + i))))
  | pending {k i : Nat} : js[k]? = some i → Closes k s →
      Checked js index s (.error (.unbalancedParen (some i)))

theorem Checked.map {js : List Nat} {v : Except Fault (List Token)} (h : Checked js index s v)
    (f : List Token → List Token) : Checked js index s (v.map f) := by
  cases h with
  | balanced hs => exact .balanced hs
  | unpaired hi => exact .unpaired hi
  | pending hk hs => exact .pending hk hs

theorem Checked.cons {v : Except Fault (List Token)} (hc : Token.ofChar? c = some t)
    (h : shift? stack ⟨t, index⟩ = some (out, below)) (hrest : Checked (opened below) (index + 1) s v) :
    Checked (opened stack) index (c :: s) v := by
  cases hrest with
  | balanced hs => exact .balanced ((closes_shift hc h).mpr hs)
  | @unpaired i hi =>
    have hcons := hi.cons fun u => (closes_shift hc h).mpr
    rw [Nat.add_assoc, Nat.add_comm 1 i]
    exact .unpaired hcons
  | @pending k i hk hs =>
    rcases shift?_cases hc h with ⟨rfl, hbelow⟩ | ⟨rfl, j, hstack⟩ | ⟨hopening, hclosing, hbelow⟩
    · rw [hbelow] at hk
      cases k with
      | zero =>
        obtain rfl := Option.some.inj hk
        exact .unpaired (Unpaired.opening (u := []) hs)
      | succ k => exact .pending hk (closes_cons_opening.mpr hs)
    · rw [hstack]
      exact .pending (k := k + 1) hk (closes_cons_closing.mpr hs)
    · rw [hbelow] at hk
      exact .pending hk ((closes_cons_other hopening hclosing).mpr hs)

theorem checked_nil (stack : List Pending) : Checked (opened stack) index [] (convert stack []) := by
  rcases convert_nil_cases stack with ⟨hopened, tokens, htokens⟩ | ⟨i, js, hopened, herror⟩
  · rw [htokens, hopened]
    exact .balanced (closes_nil.mpr rfl)
  · rw [herror, hopened]
    exact .pending (k := 0) rfl (closes_nil.mpr rfl)

/-- Whatever waits on the stack, conversion finds out whether the parentheses of a text are balanced. -/
theorem checked_convert {xs : List Lexeme} (hxs : Lexeme.readFrom index s = .ok xs) (ends : Bool)
    (stack : List Pending) : Checked (opened stack) index s (convert stack (Lexeme.joinFrom ends xs)) := by
  -- by the text, over all stacks: a concatenation that is filled in changes the stack but closes nothing
  induction s generalizing index xs ends stack with
  | nil =>
    cases hxs
    exact checked_nil stack
  | cons c s ih =>
    obtain ⟨t, rest, hc, hrest, rfl⟩ := Lexeme.readFrom_cons_eq_ok.mp hxs
    have hcons : ∀ stack, Checked (opened stack) index (c :: s)
        (convert stack (⟨t, index⟩ :: Lexeme.joinFrom t.endsOperand rest)) := by
      intro stack
      cases hx : shift? stack ⟨t, index⟩ with
      | none =>
        obtain ⟨hclosing, hopened⟩ := opened_eq_nil hx
        obtain rfl := (Token.ofChar?_parentheses hc).2.mp hclosing
        rw [convert_cons_error hx, hopened]
        exact .unpaired (i := 0) (Unpaired.closing (u := []) (closes_nil.mpr rfl))
      | some y =>
        obtain ⟨out, below⟩ := y
        rw [convert_cons hx]
        exact ((ih hrest _ below).cons hc hx).map _
    rw [Lexeme.joinFrom]
    split
    · rw [convert_cons (x := ⟨.operator .concat, index⟩) rfl, ← opened_push .concat stack]
      exact (hcons _).map _
    · exact hcons stack

end Postfix
end PatternAutomata
