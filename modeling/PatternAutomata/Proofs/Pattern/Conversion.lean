import Mathlib.Data.List.Perm.Basic
import PatternAutomata.Proofs.Pattern.Evaluation

/-!
# Counting operands and operators

Conversion to postfix order neither loses nor adds a token besides the parentheses, and keeps the operands
in their order. An expression that has a value has one operand more than operators with two sides. Between
them the lexemes of a pattern are counted: as concatenations are filled in only where an operand meets
another one, there are never more operands than that, and fewer as soon as one is missing.
-/

namespace PatternAutomata

set_option autoImplicit false

namespace Token

def isBinary : Token → Bool
  | operator .union => true
  | operator .concat => true
  | _ => false

def isParenthesis : Token → Bool
  | opening => true
  | closing => true
  | _ => false

theorem isBinary_eq_false {t : Token} (h : t.isParenthesis = true) : t.isBinary = false := by
  cases t with
  | opening => rfl
  | closing => rfl
  | _ => cases h

def operands (tokens : List Token) : Nat := tokens.countP isOperand

def binaries (tokens : List Token) : Nat := tokens.countP isBinary

@[simp] theorem operands_nil : operands [] = 0 := rfl

@[simp] theorem binaries_nil : binaries [] = 0 := rfl

@[simp] theorem operands_cons (t : Token) (tokens : List Token) :
    operands (t :: tokens) = operands tokens + if t.isOperand then 1 else 0 := List.countP_cons

@[simp] theorem binaries_cons (t : Token) (tokens : List Token) :
    binaries (t :: tokens) = binaries tokens + if t.isBinary then 1 else 0 := List.countP_cons

end Token

namespace Postfix

/-- The operators that wait on a stack. -/
def waiting (stack : List Pending) : List Token := stack.filterMap Pending.token?

theorem waiting_split (p : Pending → Bool) (stack : List Pending) :
    waiting (stack.takeWhile p) ++ waiting (stack.dropWhile p) = waiting stack := by
  rw [waiting, waiting, waiting, ← List.filterMap_append, List.takeWhile_append_dropWhile]

/-- What one lexeme puts out, and the stack behind it; nothing if it closes no parenthesis. -/
def shift? (stack : List Pending) (x : Lexeme) : Option (List Token × List Pending) :=
  match x.token with
  | .epsilon => some ([.epsilon], stack)
  | .letter l => some ([.letter l], stack)
  | .opening => some ([], .opening x.index :: stack)
  | .closing =>
    match stack.dropWhile Pending.isOperator with
    | [] => none
    | _ :: below => some (waiting (stack.takeWhile Pending.isOperator), below)
  | .operator o =>
    some (waiting (stack.takeWhile (Pending.yieldsTo o)), .operator o :: stack.dropWhile (Pending.yieldsTo o))

/-- A closing parenthesis takes its partner from the stack, and the operators above it. -/
theorem exists_of_shift?_closing {stack below : List Pending} {index : Nat} {out : List Token}
    (h : shift? stack ⟨.closing, index⟩ = some (out, below)) :
    ∃ i, stack.dropWhile Pending.isOperator = .opening i :: below ∧
      out = waiting (stack.takeWhile Pending.isOperator) := by
  have hhead := List.head?_dropWhile_not Pending.isOperator stack
  cases hbelow : stack.dropWhile Pending.isOperator with
  | nil => simp [shift?, hbelow] at h
  | cons p rest =>
    simp only [shift?, hbelow, Option.some.injEq, Prod.mk.injEq] at h
    obtain ⟨rfl, rfl⟩ := h
    rw [hbelow] at hhead
    cases p with
    | opening i => exact ⟨i, rfl, rfl⟩
    | operator o => cases hhead

theorem of_shift?_eq_none {stack : List Pending} {x : Lexeme} (h : shift? stack x = none) :
    ∃ index, x = ⟨.closing, index⟩ ∧ stack.dropWhile Pending.isOperator = [] := by
  obtain ⟨t, index⟩ := x
  cases t with
  | closing =>
    refine ⟨index, rfl, ?_⟩
    cases hbelow : stack.dropWhile Pending.isOperator with
    | nil => rfl
    | cons p rest => simp [shift?, hbelow] at h
  | _ => cases h

theorem except_map_id_append {ε : Type} (x : Except ε (List Token)) : x.map ([] ++ ·) = x := by
  cases x <;> rfl

theorem convert_cons {stack below : List Pending} {x : Lexeme} {out : List Token}
    (h : shift? stack x = some (out, below)) (xs : List Lexeme) :
    convert stack (x :: xs) = (convert below xs).map (out ++ ·) := by
  obtain ⟨t, index⟩ := x
  cases t with
  | epsilon =>
    cases h
    rfl
  | letter l =>
    cases h
    rfl
  | opening =>
    cases h
    rw [except_map_id_append]
    rfl
  | closing =>
    obtain ⟨i, hbelow, rfl⟩ := exists_of_shift?_closing h
    rw [convert, hbelow]
    rfl
  | operator o =>
    cases h
    rfl

theorem convert_cons_error {stack : List Pending} {x : Lexeme} (h : shift? stack x = none) (xs : List Lexeme) :
    convert stack (x :: xs) = .error (.unbalancedParen (some x.index)) := by
  obtain ⟨index, rfl, hbelow⟩ := of_shift?_eq_none h
  rw [convert, hbelow]

theorem convert_cons_eq_ok {stack : List Pending} {x : Lexeme} {xs : List Lexeme} {tokens : List Token} :
    convert stack (x :: xs) = .ok tokens ↔ ∃ out below rest,
      shift? stack x = some (out, below) ∧ convert below xs = .ok rest ∧ tokens = out ++ rest := by
  cases hx : shift? stack x with
  | none =>
    simp [convert_cons_error hx]
  | some y =>
    obtain ⟨out, below⟩ := y
    rw [convert_cons hx]
    cases hrest : convert below xs with
    | error e => simp [Except.map, hrest]
    | ok rest => simp [Except.map, hrest, eq_comm]

theorem shift_perm {stack below : List Pending} {x : Lexeme} {out : List Token}
    (h : shift? stack x = some (out, below)) :
    (out ++ waiting below).Perm (waiting stack ++ [x.token].filter fun t => !t.isParenthesis) := by
  obtain ⟨t, index⟩ := x
  cases t with
  | epsilon =>
    cases h
    exact List.perm_append_comm
  | letter l =>
    cases h
    exact List.perm_append_comm
  | opening =>
    cases h
    have hopening : waiting (.opening index :: stack) = waiting stack := rfl
    simp [hopening, Token.isParenthesis]
  | closing =>
    obtain ⟨i, hbelow, rfl⟩ := exists_of_shift?_closing h
    have hopening : waiting (.opening i :: below) = waiting below := rfl
    have hsplit := waiting_split Pending.isOperator stack
    rw [hbelow, hopening] at hsplit
    simp [hsplit, Token.isParenthesis]
  | operator o =>
    cases h
    have hsplit := waiting_split (Pending.yieldsTo o) stack
    rw [← hsplit, List.append_assoc]
    exact List.Perm.append_left _ (List.perm_append_singleton (Token.operator o) _).symm

/-- What is converted are the waiting operators and the lexemes that are no parentheses. -/
theorem convert_perm {stack : List Pending} {xs : List Lexeme} {tokens : List Token}
    (h : convert stack xs = .ok tokens) :
    tokens.Perm (waiting stack ++ (xs.map Lexeme.token).filter fun t => !t.isParenthesis) := by
  induction xs generalizing stack tokens with
  | nil =>
    unfold convert at h
    split at h
    · cases h
    · cases h
      simp [waiting]
  | cons x xs ih =>
    obtain ⟨out, below, rest, hx, hrest, rfl⟩ := convert_cons_eq_ok.mp h
    have htail := List.Perm.append_left out (ih hrest)
    have hhead := (shift_perm hx).append_right ((xs.map Lexeme.token).filter fun t => !t.isParenthesis)
    rw [List.append_assoc, List.append_assoc, ← List.filter_append] at hhead
    exact htail.trans hhead

theorem mem_waiting {stack : List Pending} {t : Token} (h : t ∈ waiting stack) : ∃ o, t = .operator o := by
  obtain ⟨p, _, hp⟩ := List.mem_filterMap.mp h
  cases p with
  | opening i => cases hp
  | operator o => exact ⟨o, (Option.some.inj hp).symm⟩

theorem mem_convert {stack : List Pending} {xs : List Lexeme} {tokens : List Token}
    (h : convert stack xs = .ok tokens) {t : Token} (ht : t ∈ tokens) :
    t.isParenthesis = false ∧ ((∃ o, t = .operator o) ∨ ∃ x ∈ xs, x.token = t) := by
  rcases List.mem_append.mp ((convert_perm h).mem_iff.mp ht) with ht | ht
  · obtain ⟨o, rfl⟩ := mem_waiting ht
    exact ⟨rfl, Or.inl ⟨o, rfl⟩⟩
  · obtain ⟨hmem, hparen⟩ := List.mem_filter.mp ht
    exact ⟨by simpa using hparen, Or.inr (List.mem_map.mp hmem)⟩

theorem filter_isOperand_waiting (stack : List Pending) : (waiting stack).filter Token.isOperand = [] := by
  apply List.filter_eq_nil_iff.mpr
  intro t ht
  obtain ⟨o, rfl⟩ := mem_waiting ht
  exact Bool.false_ne_true

theorem filter_isOperand_shift {stack below : List Pending} {x : Lexeme} {out : List Token}
    (h : shift? stack x = some (out, below)) :
    out.filter Token.isOperand = [x.token].filter Token.isOperand := by
  obtain ⟨t, index⟩ := x
  cases t with
  | epsilon =>
    cases h
    rfl
  | letter l =>
    cases h
    rfl
  | opening =>
    cases h
    rfl
  | closing =>
    obtain ⟨_, _, rfl⟩ := exists_of_shift?_closing h
    exact filter_isOperand_waiting _
  | operator o =>
    cases h
    exact filter_isOperand_waiting _

theorem filter_isOperand_convert {stack : List Pending} {xs : List Lexeme} {tokens : List Token}
    (h : convert stack xs = .ok tokens) :
    tokens.filter Token.isOperand = (xs.map Lexeme.token).filter Token.isOperand := by
  induction xs generalizing stack tokens with
  | nil =>
    unfold convert at h
    split at h
    · cases h
    · cases h
      exact filter_isOperand_waiting stack
  | cons x xs ih =>
    obtain ⟨out, below, rest, hx, hrest, rfl⟩ := convert_cons_eq_ok.mp h
    rw [List.filter_append, filter_isOperand_shift hx, ih hrest, ← List.filter_append]
    rfl

theorem countP_filter_parentheses {p : Token → Bool} (hp : ∀ t, t.isParenthesis = true → p t = false)
    (tokens : List Token) : (tokens.filter fun t => !t.isParenthesis).countP p = tokens.countP p := by
  rw [List.countP_filter]
  apply List.countP_congr
  intro t _
  cases ht : t.isParenthesis with
  | false => simp
  | true => simp [hp t ht]

theorem operands_convert {stack : List Pending} {xs : List Lexeme} {tokens : List Token}
    (h : convert stack xs = .ok tokens) : Token.operands tokens = Token.operands (xs.map Lexeme.token) := by
  rw [Token.operands, Token.operands, List.countP_eq_length_filter, List.countP_eq_length_filter,
    filter_isOperand_convert h]

theorem binaries_convert {stack : List Pending} {xs : List Lexeme} {tokens : List Token}
    (h : convert stack xs = .ok tokens) :
    Token.binaries tokens = Token.binaries (waiting stack) + Token.binaries (xs.map Lexeme.token) := by
  have hcount := (convert_perm h).countP_eq Token.isBinary
  rwa [List.countP_append, countP_filter_parentheses fun _ => Token.isBinary_eq_false] at hcount

/-- Conversion puts out every operand and operator as often as it is there, no parenthesis, and the operands
in their order, whatever the lexemes are. -/
theorem ofLexemes_keeps_tokens {xs : List Lexeme} {tokens : List Token} (h : ofLexemes xs = .ok tokens) :
    (∀ t, t.isParenthesis = false → tokens.count t = (xs.map Lexeme.token).count t) ∧
      (∀ t ∈ tokens, t.isParenthesis = false) ∧
      tokens.filter Token.isOperand = (xs.map Lexeme.token).filter Token.isOperand := by
  refine ⟨?_, fun t ht => (mem_convert h ht).1, filter_isOperand_convert h⟩
  intro t ht
  have hcount := (convert_perm h).count_eq t
  rwa [waiting, List.filterMap_nil, List.nil_append, List.count_filter (by simp [ht])] at hcount

theorem ofLexemes_keeps_tokens_dangling :
    ∃ tokens, ofLexemes [⟨.operator .star, 0⟩, ⟨.opening, 1⟩, ⟨.letter (.char 'a'), 2⟩, ⟨.operator .union, 3⟩,
        ⟨.operator .concat, 4⟩, ⟨.letter (.char 'b'), 5⟩, ⟨.closing, 6⟩, ⟨.epsilon, 7⟩] = .ok tokens ∧
      tokens.count (.operator .star) = 1 ∧ (∀ t ∈ tokens, t.isParenthesis = false) ∧
      tokens.filter Token.isOperand = [.letter (.char 'a'), .letter (.char 'b'), .epsilon] := by
  have h : ofLexemes [⟨.operator .star, 0⟩, ⟨.opening, 1⟩, ⟨.letter (.char 'a'), 2⟩, ⟨.operator .union, 3⟩,
      ⟨.operator .concat, 4⟩, ⟨.letter (.char 'b'), 5⟩, ⟨.closing, 6⟩, ⟨.epsilon, 7⟩] =
      .ok [.letter (.char 'a'), .letter (.char 'b'), .operator .concat, .operator .union, .epsilon,
        .operator .star] := rfl
  obtain ⟨hcount, hparen, hoperands⟩ := ofLexemes_keeps_tokens h
  exact ⟨_, h, hcount (.operator .star) rfl, hparen, hoperands⟩

/-- A token adds the operand that it is and takes the second operand of an operator. -/
theorem length_evaluateToken {β : Type} {i : Interpretation β} {stack below : List β} {t : Token}
    (h : evaluateToken i stack t = .ok below) :
    below.length + Token.binaries [t] = stack.length + Token.operands [t] := by
  obtain ⟨x, rfl, harity⟩ := exists_of_evaluateToken h
  rw [List.length_cons, List.length_drop]
  cases t with
  | operator o =>
    cases o <;> simp [Token.arity, Operator.arity, Token.isBinary, Token.isOperand] at harity ⊢ <;> omega
  | opening => cases h
  | closing => cases h
  | _ => rfl

/-- An expression with a value has one operand more than operators with two operands. -/
theorem operands_evaluate {β : Type} {i : Interpretation β} {stack : List β} {tokens : List Token} {x : β}
    (h : evaluateFrom i stack tokens = .ok x) :
    stack.length + Token.operands tokens = Token.binaries tokens + 1 := by
  induction tokens generalizing stack with
  | nil =>
    match stack, h with
    | [_], rfl => rfl
  | cons t rest ih =>
    unfold evaluateFrom at h
    cases ht : evaluateToken i stack t with
    | error e =>
      rw [ht] at h
      cases h
    | ok below =>
      rw [ht] at h
      have hrest := ih h
      have hlength := length_evaluateToken ht
      simp only [Token.operands_cons, Token.binaries_cons, Token.operands_nil, Token.binaries_nil] at hlength ⊢
      omega

end Postfix

namespace Lexeme

theorem readFrom_cons_eq_ok {index : Nat} {c : Char} {cs : List Char} {xs : List Lexeme} :
    readFrom index (c :: cs) = .ok xs ↔ ∃ t rest,
      Token.ofChar? c = some t ∧ readFrom (index + 1) cs = .ok rest ∧ xs = ⟨t, index⟩ :: rest := by
  rw [readFrom]
  cases Token.ofChar? c with
  | none => simp
  | some t =>
    cases readFrom (index + 1) cs with
    | error e => simp [Except.map]
    | ok rest => simp [Except.map, eq_comm]

/-- Fills in concatenations behind a lexeme that ends an operand or does not. -/
def joinFrom (ends : Bool) : List Lexeme → List Lexeme
  | [] => []
  | x :: rest =>
    if ends && x.token.startsOperand then
      ⟨.operator .concat, x.index⟩ :: x :: joinFrom x.token.endsOperand rest
    else x :: joinFrom x.token.endsOperand rest

theorem join_cons (x : Lexeme) (xs : List Lexeme) : join (x :: xs) = x :: joinFrom x.token.endsOperand xs := by
  induction xs generalizing x with
  | nil => rfl
  | cons y xs ih =>
    rw [join, joinFrom, ih y]
    split <;> rfl

theorem join_eq (xs : List Lexeme) : join xs = joinFrom false xs := by
  cases xs with
  | nil => rfl
  | cons x xs => rw [join_cons, joinFrom, Bool.false_and, if_neg Bool.false_ne_true]

theorem ofPattern_eq_ok {s : List Char} {ys : List Lexeme} :
    ofPattern s = .ok ys ↔ ∃ xs, readFrom 0 s = .ok xs ∧ ys = joinFrom false xs := by
  rw [ofPattern]
  cases readFrom 0 s with
  | error e => simp [Except.map]
  | ok xs => simp [Except.map, join_eq, eq_comm]

theorem mem_joinFrom_cons {ends : Bool} {x y : Lexeme} {xs : List Lexeme} :
    x ∈ joinFrom ends (y :: xs) ↔ ((ends && y.token.startsOperand) = true ∧ x = ⟨.operator .concat, y.index⟩) ∨
      x = y ∨ x ∈ joinFrom y.token.endsOperand xs := by
  rw [joinFrom]
  split
  · rename_i h
    simp [h]
  · rename_i h
    simp [h]

theorem tokens_joinFrom_cons (ends : Bool) (x : Lexeme) (xs : List Lexeme) :
    (joinFrom ends (x :: xs)).map token =
      (if ends && x.token.startsOperand then [.operator .concat] else []) ++
        x.token :: (joinFrom x.token.endsOperand xs).map token := by
  rw [joinFrom]
  split <;> rfl

/-- There are no more operands than places for them: one behind every operator with two operands, and
one in front if no operand has ended there. -/
theorem operands_joinFrom_le (ends : Bool) (xs : List Lexeme) :
    Token.operands ((joinFrom ends xs).map token) + ends.toNat ≤
      Token.binaries ((joinFrom ends xs).map token) + 1 := by
  induction xs generalizing ends with
  | nil => cases ends <;> simp [joinFrom]
  | cons x xs ih =>
    obtain ⟨t, index⟩ := x
    have hrest := ih t.endsOperand
    rw [joinFrom]
    cases t with
    | operator o =>
      cases o <;> cases ends <;>
        simp [Token.startsOperand, Token.endsOperand, Token.isOperand, Token.isBinary] at hrest ⊢ <;> omega
    | _ =>
      cases ends <;>
        simp [Token.startsOperand, Token.endsOperand, Token.isOperand, Token.isBinary] at hrest ⊢ <;> omega

/-- An operand is missing where one must begin and none does. -/
theorem operands_joinFrom_lt {xs : List Lexeme} (h : ∀ x ∈ xs.head?, x.token.startsOperand = false) :
    Token.operands ((joinFrom false xs).map token) ≤ Token.binaries ((joinFrom false xs).map token) := by
  cases xs with
  | nil => exact Nat.le_refl 0
  | cons x xs =>
    obtain ⟨t, index⟩ := x
    have hstart : t.startsOperand = false := h _ rfl
    have hrest := operands_joinFrom_le t.endsOperand xs
    rw [joinFrom]
    cases t with
    | operator o =>
      cases o <;> simp [Token.endsOperand, Token.isOperand, Token.isBinary] at hrest ⊢ <;> omega
    | closing => simpa [Token.endsOperand, Token.isOperand, Token.isBinary] using hrest
    | _ => cases hstart

end Lexeme
end PatternAutomata
