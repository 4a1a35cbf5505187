import PatternAutomata.Proofs.Pattern.Conversion
import PatternAutomata.Proofs.Pattern.Reader

/-!
# Reading and conversion side by side

Conversion and evaluation together keep a stack of waiting operators and one of values. Both stacks
can be read off what the reader by grammar keeps (`Agrees`), and every symbol moves the three alike.
Where the reader is stuck no value can come out any more: an operand is missing, and the lexemes to
come have no operand to spare for its place.
-/

namespace PatternAutomata

set_option autoImplicit false

namespace Postfix

variable {β : Type} {i : Interpretation β} {stack below : List Pending} {values values' : List β} {x : Lexeme}
  {xs : List Lexeme} {r : β}

def evaluateAll (i : Interpretation β) (values : List β) : List Token → Except Malformed (List β)
  | [] => .ok values
  | t :: rest => (evaluateToken i values t).bind fun below => evaluateAll i below rest

theorem evaluateAll_append (values : List β) (us ts : List Token) :
    evaluateAll i values (us ++ ts) = (evaluateAll i values us).bind fun vs => evaluateAll i vs ts := by
  induction us generalizing values with
  | nil => rfl
  | cons u us ih =>
    rw [List.cons_append, evaluateAll, evaluateAll]
    cases evaluateToken i values u with
    | error e => rfl
    | ok vs => exact ih vs

theorem evaluateFrom_append (values : List β) (us ts : List Token) :
    evaluateFrom i values (us ++ ts) = (evaluateAll i values us).bind fun vs => evaluateFrom i vs ts := by
  induction us generalizing values with
  | nil => rfl
  | cons u us ih =>
    rw [List.cons_append, evaluateFrom, evaluateAll]
    cases evaluateToken i values u with
    | error e => rfl
    | ok vs => exact ih vs

theorem evaluateAll_trans {us ts : List Token} {values'' : List β} (hu : evaluateAll i values us = .ok values')
    (ht : evaluateAll i values' ts = .ok values'') : evaluateAll i values (us ++ ts) = .ok values'' := by
  rw [evaluateAll_append, hu]
  exact ht

theorem evaluateFrom_of_all {us : List Token} (hu : evaluateAll i values us = .ok values') (ts : List Token) :
    evaluateFrom i values (us ++ ts) = evaluateFrom i values' ts := by
  rw [evaluateFrom_append, hu]
  rfl

/-- What lexemes come to on the two stacks. -/
def Results (i : Interpretation β) (stack : List Pending) (values : List β) (xs : List Lexeme) (r : β) : Prop :=
  ∃ tokens, convert stack xs = .ok tokens ∧ evaluateFrom i values tokens = .ok r

/-- What one lexeme makes of the two stacks. -/
def Moves (i : Interpretation β) (stack : List Pending) (values : List β) (x : Lexeme) (below : List Pending)
    (values' : List β) : Prop :=
  ∃ out, shift? stack x = some (out, below) ∧ evaluateAll i values out = .ok values'

theorem Moves.results_iff (h : Moves i stack values x below values') :
    Results i stack values (x :: xs) r ↔ Results i below values' xs r := by
  obtain ⟨out, hx, hout⟩ := h
  constructor
  · intro h
    obtain ⟨tokens, hconvert, hr⟩ := h
    obtain ⟨out', below', rest, hx', hrest, rfl⟩ := convert_cons_eq_ok.mp hconvert
    rw [hx, Option.some.injEq, Prod.mk.injEq] at hx'
    obtain ⟨rfl, rfl⟩ := hx'
    rw [evaluateFrom_of_all hout] at hr
    exact ⟨rest, hrest, hr⟩
  · intro h
    obtain ⟨rest, hrest, hr⟩ := h
    refine ⟨out ++ rest, convert_cons_eq_ok.mpr ⟨out, below, rest, hx, hrest, rfl⟩, ?_⟩
    rwa [evaluateFrom_of_all hout]

theorem not_results_cons (h : shift? stack x = none) : ¬ Results i stack values (x :: xs) r := by
  intro h
  obtain ⟨tokens, hconvert, _⟩ := h
  rw [convert_cons_error h] at hconvert
  cases hconvert

theorem Results.count (h : Results i stack values xs r) :
    values.length + Token.operands (xs.map Lexeme.token) =
      Token.binaries (waiting stack) + Token.binaries (xs.map Lexeme.token) + 1 := by
  obtain ⟨tokens, hconvert, hr⟩ := h
  have hcount := operands_evaluate hr
  rw [operands_convert hconvert, binaries_convert hconvert] at hcount
  exact hcount

end Postfix

open Postfix

namespace Context

def leftPending (k : Context) : List Pending :=
  match k.left with
  | none => []
  | some _ => [.operator .union]

def frontPending (k : Context) : List Pending :=
  match k.front with
  | none => []
  | some _ => [.operator .concat]

def leftValues (k : Context) : List (Regex Char) :=
  match k.left with
  | none => []
  | some (e, _) => [e.toRegex]

def frontValues (k : Context) : List (Regex Char) :=
  match k.front with
  | none => []
  | some (t, _) => [t.toRegex]

/-- The operators of a context wait for the operand behind it. -/
def pending (k : Context) : List Pending := k.frontPending ++ k.leftPending

def values (k : Context) : List (Regex Char) := k.frontValues ++ k.leftValues

theorem length_values (k : Context) : k.values.length = Token.binaries (waiting k.pending) := by
  match k with
  | ⟨none, none⟩ => rfl
  | ⟨none, some _⟩ => rfl
  | ⟨some _, none⟩ => rfl
  | ⟨some _, some _⟩ => rfl

theorem evaluate_front (k : Context) (f : Derivation .factor) (vs : List (Regex Char)) :
    evaluateAll Regex.charInterpretation (f.toRegex :: (k.frontValues ++ vs)) (waiting k.frontPending) =
      .ok ((k.term f).toRegex :: vs) := by
  match k with
  | ⟨_, none⟩ => rfl
  | ⟨_, some (_, true)⟩ => rfl
  | ⟨_, some (_, false)⟩ => rfl

theorem evaluate_left (k : Context) (f : Derivation .factor) (vs : List (Regex Char)) :
    evaluateAll Regex.charInterpretation ((k.term f).toRegex :: (k.leftValues ++ vs)) (waiting k.leftPending) =
      .ok ((k.expression f).toRegex :: vs) := by
  match k with
  | ⟨none, _⟩ => rfl
  | ⟨some (_, true), _⟩ => rfl
  | ⟨some (_, false), _⟩ => rfl

theorem evaluate_pending (k : Context) (f : Derivation .factor) (vs : List (Regex Char)) :
    evaluateAll Regex.charInterpretation (f.toRegex :: (k.values ++ vs)) (waiting k.pending) =
      .ok ((k.expression f).toRegex :: vs) := by
  rw [values, pending, List.append_assoc, waiting, List.filterMap_append]
  exact evaluateAll_trans (k.evaluate_front f (k.leftValues ++ vs)) (k.evaluate_left f vs)

end Context

namespace Derivation

/-- The last star of a factor waits as well. -/
def pending : Derivation .factor → List Pending
  | factor _ => []
  | star _ => [.operator .star]

def operand : Derivation .factor → Regex Char
  | factor a => a.toRegex
  | star f => f.toRegex

theorem evaluate_pending (f : Derivation .factor) (vs : List (Regex Char)) :
    evaluateAll Regex.charInterpretation (f.operand :: vs) (waiting f.pending) = .ok (f.toRegex :: vs) := by
  cases f with
  | factor a => rfl
  | star f => rfl

end Derivation

namespace Reader

variable {k : Context} {f : Derivation .factor} {outer : List Context} {stack below : List Pending}
  {values : List (Regex Char)} {index : Nat} {r s : Reader} {x : Symbol} {v : Regex Char} {rest : List Lexeme}

inductive Stacked : List Context → List Pending → Prop where
  | nil : Stacked [] []
  | cons {k : Context} {outer : List Context} {below : List Pending} (index : Nat) :
      Stacked outer below → Stacked (k :: outer) (.opening index :: (k.pending ++ below))

def outerValues : List Context → List (Regex Char)
  | [] => []
  | k :: outer => k.values ++ outerValues outer

/-- The two stacks hold what the reader keeps. -/
inductive Agrees : Reader → List Pending → List (Regex Char) → Prop where
  | ofOperand {k : Context} {outer : List Context} {below : List Pending} : Stacked outer below →
      Agrees (operand k outer) (k.pending ++ below) (k.values ++ outerValues outer)
  | ofFactor {k : Context} {f : Derivation .factor} {outer : List Context} {below : List Pending} :
      Stacked outer below →
      Agrees (factor k f outer) (f.pending ++ (k.pending ++ below)) (f.operand :: (k.values ++ outerValues outer))

theorem waiting_append (as bs : List Pending) : waiting (as ++ bs) = waiting as ++ waiting bs :=
  List.filterMap_append

theorem Stacked.length (h : Stacked outer below) : (outerValues outer).length = Token.binaries (waiting below) := by
  induction h with
  | nil => rfl
  | @cons k outer below index _ ih =>
    have hopening : waiting (.opening index :: (k.pending ++ below)) = waiting (k.pending ++ below) := rfl
    rw [outerValues, List.length_append, ih, k.length_values, hopening, waiting_append]
    exact List.countP_append.symm

theorem Agrees.length_operand (h : Agrees (operand k outer) stack values) :
    values.length = Token.binaries (waiting stack) := by
  cases h with
  | ofOperand hbelow =>
    rw [List.length_append, k.length_values, hbelow.length, waiting_append]
    exact List.countP_append.symm

theorem takeWhile_dropWhile {p : Pending → Bool} {as bs : List Pending} (has : ∀ q ∈ as, p q = true)
    (hbs : ∀ q ∈ bs.head?, p q = false) :
    (as ++ bs).takeWhile p = as ∧ (as ++ bs).dropWhile p = bs := by
  rw [List.takeWhile_append_of_pos has, List.dropWhile_append_of_pos has]
  cases bs with
  | nil => simp
  | cons q bs =>
    have hq : p q = false := hbs q rfl
    simp [hq]

theorem Stacked.head (h : Stacked outer below) : ∀ q ∈ below.head?, q.isOperator = false := by
  cases h with
  | nil => exact fun q hq => nomatch hq
  | cons index _ =>
    intro q hq
    cases hq
    rfl

theorem mem_pending {q : Pending} (h : q ∈ f.pending) : q = .operator .star := by
  cases f with
  | factor a => cases h
  | star g => exact List.mem_singleton.mp h

theorem mem_frontPending {q : Pending} (h : q ∈ k.frontPending) : q = .operator .concat := by
  match k, h with
  | ⟨_, none⟩, h => cases h
  | ⟨_, some _⟩, h => exact List.mem_singleton.mp h

theorem mem_leftPending {q : Pending} (h : q ∈ k.leftPending) : q = .operator .union := by
  match k, h with
  | ⟨none, _⟩, h => cases h
  | ⟨some _, _⟩, h => exact List.mem_singleton.mp h

theorem isOperator_of_mem_pending {q : Pending} (h : q ∈ f.pending ++ k.pending) : q.isOperator = true := by
  rcases List.mem_append.mp h with h | h
  · rw [mem_pending h]
    rfl
  · rcases List.mem_append.mp h with h | h
    · rw [mem_frontPending h]
      rfl
    · rw [mem_leftPending h]
      rfl

theorem head_append {p : Pending → Bool} {as bs : List Pending} (has : ∀ q ∈ as, p q = false)
    (hbs : ∀ q ∈ bs.head?, p q = false) : ∀ q ∈ (as ++ bs).head?, p q = false := by
  cases as with
  | nil => exact hbs
  | cons a as =>
    intro q hq
    cases hq
    exact has a List.mem_cons_self

theorem Stacked.head_yieldsTo (o : Operator) (h : Stacked outer below) :
    ∀ q ∈ below.head?, q.yieldsTo o = false := by
  intro q hq
  have hq' := h.head q hq
  cases q with
  | opening index => rfl
  | operator o' => cases hq'

theorem takeWhile_dropWhile_all (below : List Pending) {p : Pending → Bool}
    (hp : ∀ q : Pending, q.isOperator = true → p q = true) (hhead : ∀ q ∈ below.head?, p q = false) :
    (f.pending ++ (k.pending ++ below)).takeWhile p = f.pending ++ k.pending ∧
      (f.pending ++ (k.pending ++ below)).dropWhile p = below := by
  rw [← List.append_assoc]
  apply takeWhile_dropWhile ?_ hhead
  intro q hq
  exact hp q (isOperator_of_mem_pending hq)

theorem findSome?_pending :
    (f.pending ++ (k.pending ++ below)).findSome? Pending.index? = below.findSome? Pending.index? := by
  have hnone : ∀ q ∈ f.pending ++ k.pending, q.index? = none := by
    intro q hq
    have hoperator := isOperator_of_mem_pending hq
    cases q with
    | opening index => cases hoperator
    | operator o => rfl
  rw [← List.append_assoc, List.findSome?_append, List.findSome?_eq_none_iff.mpr hnone]
  rfl

theorem moves_star (hbelow : Stacked outer below) (vs : List (Regex Char)) :
    Moves Regex.charInterpretation (f.pending ++ (k.pending ++ below)) (f.operand :: vs)
      ⟨.operator .star, index⟩ (.operator .star :: (k.pending ++ below)) (f.toRegex :: vs) := by
  have hfactor : ∀ q ∈ f.pending, q.yieldsTo .star = true := by
    intro q hq
    rw [mem_pending hq]
    rfl
  have hcontext : ∀ q ∈ k.pending, q.yieldsTo .star = false := by
    intro q hq
    rcases List.mem_append.mp hq with hq | hq
    · rw [mem_frontPending hq]
      rfl
    · rw [mem_leftPending hq]
      rfl
  obtain ⟨htake, hdrop⟩ := takeWhile_dropWhile hfactor (head_append hcontext (hbelow.head_yieldsTo .star))
  refine ⟨waiting f.pending, ?_, f.evaluate_pending vs⟩
  simp only [shift?, htake, hdrop]

theorem moves_concat (hbelow : Stacked outer below) (dot : Bool) (vs : List (Regex Char)) :
    Moves Regex.charInterpretation (f.pending ++ (k.pending ++ below)) (f.operand :: (k.values ++ vs))
      ⟨.operator .concat, index⟩ (Context.pending ⟨k.left, some (k.term f, dot)⟩ ++ below)
      (Context.values ⟨k.left, some (k.term f, dot)⟩ ++ vs) := by
  have hfactor : ∀ q ∈ f.pending ++ k.frontPending, q.yieldsTo .concat = true := by
    intro q hq
    rcases List.mem_append.mp hq with hq | hq
    · rw [mem_pending hq]
      rfl
    · rw [mem_frontPending hq]
      rfl
  have hcontext : ∀ q ∈ k.leftPending, q.yieldsTo .concat = false := by
    intro q hq
    rw [mem_leftPending hq]
    rfl
  obtain ⟨htake, hdrop⟩ := takeWhile_dropWhile hfactor (head_append hcontext (hbelow.head_yieldsTo .concat))
  refine ⟨waiting f.pending ++ waiting k.frontPending, ?_, evaluateAll_trans (f.evaluate_pending _) ?_⟩
  · rw [← waiting_append, Context.pending, List.append_assoc, ← List.append_assoc]
    simp only [shift?, htake, hdrop]
    rfl
  · rw [Context.values, List.append_assoc]
    exact k.evaluate_front f (k.leftValues ++ vs)

theorem moves_union (hbelow : Stacked outer below) (plus : Bool) (vs : List (Regex Char)) :
    Moves Regex.charInterpretation (f.pending ++ (k.pending ++ below)) (f.operand :: (k.values ++ vs))
      ⟨.operator .union, index⟩ (Context.pending ⟨some (k.expression f, plus), none⟩ ++ below)
      (Context.values ⟨some (k.expression f, plus), none⟩ ++ vs) := by
  have hp : ∀ q : Pending, q.isOperator = true → q.yieldsTo .union = true := by
    intro q hq
    cases q with
    | opening index => cases hq
    | operator o => cases o <;> rfl
  obtain ⟨htake, hdrop⟩ := takeWhile_dropWhile_all (f := f) (k := k) below hp (hbelow.head_yieldsTo .union)
  refine ⟨waiting f.pending ++ waiting k.pending, ?_,
    evaluateAll_trans (f.evaluate_pending _) (k.evaluate_pending f vs)⟩
  rw [← waiting_append]
  simp only [shift?, htake, hdrop]
  rfl

theorem moves_closing (i : Nat) (vs : List (Regex Char)) :
    Moves Regex.charInterpretation (f.pending ++ (k.pending ++ .opening i :: below))
      (f.operand :: (k.values ++ vs)) ⟨.closing, index⟩ below ((k.expression f).toRegex :: vs) := by
  obtain ⟨htake, hdrop⟩ := takeWhile_dropWhile_all (f := f) (k := k) (.opening i :: below)
    (p := Pending.isOperator) (fun _ h => h) (fun q hq => by cases hq; rfl)
  refine ⟨waiting f.pending ++ waiting k.pending, ?_,
    evaluateAll_trans (f.evaluate_pending _) (k.evaluate_pending f vs)⟩
  rw [← waiting_append]
  simp only [shift?, htake, hdrop]

theorem shift_closing_eq_none : shift? (f.pending ++ (k.pending ++ [])) ⟨.closing, index⟩ = none := by
  obtain ⟨_, hdrop⟩ := takeWhile_dropWhile_all (f := f) (k := k) [] (p := Pending.isOperator)
    (fun _ h => h) (fun q hq => nomatch hq)
  simp only [shift?, hdrop]

def ends : Reader → Bool
  | operand _ _ => false
  | factor _ _ _ => true

theorem place_token (hx : place k outer x = some s) :
    x.token.startsOperand = true ∧ s.ends = x.token.endsOperand := by
  unfold place at hx
  split at hx
  case h_5 => cases hx
  all_goals
    cases hx
    exact ⟨rfl, rfl⟩

theorem place_eq_none (hx : place k outer x = none) : x.token.startsOperand = false := by
  cases x with
  | letter c alphanumeric other => cases hx
  | underscore => cases hx
  | epsilon => cases hx
  | opening => cases hx
  | _ => rfl

theorem moves_place (hbelow : Stacked outer below) (hx : place k outer x = some s) (index : Nat) :
    ∃ stack' values', Agrees s stack' values' ∧
      Moves Regex.charInterpretation (k.pending ++ below) (k.values ++ outerValues outer) ⟨x.token, index⟩
        stack' values' := by
  unfold place at hx
  split at hx
  case h_4 =>
    cases hx
    exact ⟨_, _, .ofOperand (k := {}) (.cons index hbelow), [], rfl, rfl⟩
  case h_5 => cases hx
  all_goals
    cases hx
    exact ⟨_, _, .ofFactor hbelow, _, rfl, rfl⟩

/-- Between a factor and the operand behind it a concatenation is filled in. -/
theorem moves_adjoin (hbelow : Stacked outer below) (hx : place ⟨k.left, some (k.term f, false)⟩ outer x = some s)
    (index : Nat) : ∃ stack' values', Agrees s stack' values' ∧ ∀ rest v,
      Results Regex.charInterpretation (f.pending ++ (k.pending ++ below))
          (f.operand :: (k.values ++ outerValues outer)) (Lexeme.joinFrom true (⟨x.token, index⟩ :: rest)) v ↔
        Results Regex.charInterpretation stack' values' (Lexeme.joinFrom s.ends rest) v := by
  obtain ⟨hstarts, hends⟩ := place_token hx
  obtain ⟨stack', values', hagrees, hmoves⟩ := moves_place hbelow hx index
  refine ⟨stack', values', hagrees, ?_⟩
  intro rest v
  rw [Lexeme.joinFrom, if_pos (by simpa using hstarts), hends,
    (moves_concat hbelow false (outerValues outer)).results_iff]
  exact hmoves.results_iff

/-- Where the reader takes a symbol, the stacks move alike. -/
theorem Agrees.step (h : Agrees r stack values) (hx : r.step x = some s) (index : Nat) :
    ∃ stack' values', Agrees s stack' values' ∧ ∀ rest v,
      Results Regex.charInterpretation stack values (Lexeme.joinFrom r.ends (⟨x.token, index⟩ :: rest)) v ↔
        Results Regex.charInterpretation stack' values' (Lexeme.joinFrom s.ends rest) v := by
  cases h with
  | ofOperand hbelow =>
    obtain ⟨stack', values', hagrees, hmoves⟩ := moves_place hbelow hx index
    refine ⟨stack', values', hagrees, ?_⟩
    intro rest v
    rw [(place_token hx).2]
    exact hmoves.results_iff
  | @ofFactor k f outer below hbelow =>
    cases x with
    | star =>
      cases hx
      exact ⟨_, _, .ofFactor (f := .star f) hbelow, fun _ _ => (moves_star hbelow _).results_iff⟩
    | dot =>
      cases hx
      exact ⟨_, _, .ofOperand hbelow, fun _ _ => (moves_concat hbelow true _).results_iff⟩
    | bar =>
      cases hx
      exact ⟨_, _, .ofOperand hbelow, fun _ _ => (moves_union hbelow false _).results_iff⟩
    | plus =>
      cases hx
      exact ⟨_, _, .ofOperand hbelow, fun _ _ => (moves_union hbelow true _).results_iff⟩
    | closing =>
      cases hbelow with
      | nil => cases hx
      | @cons k' outer below i hbelow =>
        cases hx
        exact ⟨_, _, .ofFactor (f := .factor (.group (k.expression f))) hbelow,
          fun _ _ => (moves_closing i _).results_iff⟩
    | letter c alphanumeric other => exact moves_adjoin (x := .letter c alphanumeric other) hbelow hx index
    | underscore => exact moves_adjoin (x := .underscore) hbelow hx index
    | epsilon => exact moves_adjoin (x := .epsilon) hbelow hx index
    | opening => exact moves_adjoin (x := .opening) hbelow hx index

theorem Agrees.not_results_of_missing (h : Agrees (operand k outer) stack values) {xs : List Lexeme}
    (hxs : ∀ y ∈ xs.head?, y.token.startsOperand = false) :
    ¬ Results Regex.charInterpretation stack values (Lexeme.joinFrom false xs) v := by
  intro hresults
  have hcount := hresults.count
  have hlength := h.length_operand
  have hfew := Lexeme.operands_joinFrom_lt hxs
  omega

theorem Agrees.not_results (h : Agrees r stack values) (hx : r.step x = none) (index : Nat) (rest : List Lexeme) :
    ¬ Results Regex.charInterpretation stack values (Lexeme.joinFrom r.ends (⟨x.token, index⟩ :: rest)) v := by
  cases r with
  | operand k outer =>
    apply h.not_results_of_missing
    intro y h
    obtain ⟨rfl⟩ := h
    exact place_eq_none hx
  | factor k f outer =>
    cases h with
    | ofFactor hbelow =>
      cases x with
      | closing =>
        cases hbelow with
        | nil => exact not_results_cons shift_closing_eq_none
        | cons i hbelow => cases hx
      | _ => cases hx

/-- With no parenthesis open, all that waits is put out, and its value is the term that has been read. -/
theorem convert_nil :
    convert (f.pending ++ (k.pending ++ [])) [] = .ok (waiting (f.pending ++ (k.pending ++ []))) := by
  simp only [convert, findSome?_pending, List.findSome?_nil]
  rfl

theorem evaluateFrom_nil :
    evaluateFrom Regex.charInterpretation (f.operand :: (k.values ++ outerValues []))
      (waiting (f.pending ++ (k.pending ++ []))) = .ok (k.expression f).toRegex := by
  have hall := evaluateAll_trans (f.evaluate_pending (k.values ++ outerValues []))
    (k.evaluate_pending f (outerValues []))
  have hfrom := evaluateFrom_of_all hall []
  rw [List.append_nil] at hfrom
  rw [List.append_nil, waiting_append, hfrom]
  rfl

theorem Agrees.results_nil (h : Agrees r stack values) :
    Results Regex.charInterpretation stack values [] v ↔ ∃ e, r.result? = some e ∧ e.toRegex = v := by
  cases r with
  | operand k outer =>
    have hnone : ¬ Results Regex.charInterpretation stack values (Lexeme.joinFrom false []) v :=
      h.not_results_of_missing fun y hy => nomatch hy
    constructor
    · intro hresults
      exact absurd hresults hnone
    · intro h
      obtain ⟨e, he, _⟩ := h
      cases he
  | factor k f outer =>
    cases h with
    | ofFactor hbelow =>
      cases hbelow with
      | nil =>
        constructor
        · intro h
          obtain ⟨tokens, ht, hv⟩ := h
          rw [convert_nil, Except.ok.injEq] at ht
          rw [← ht, evaluateFrom_nil, Except.ok.injEq] at hv
          exact ⟨_, rfl, hv⟩
        · intro h
          obtain ⟨e, he, rfl⟩ := h
          cases he
          exact ⟨_, convert_nil, evaluateFrom_nil⟩
      | cons i hbelow =>
        constructor
        · intro h
          obtain ⟨tokens, ht, _⟩ := h
          simp only [convert, findSome?_pending, List.findSome?_cons, Pending.index?] at ht
          cases ht
        · intro h
          obtain ⟨e, he, _⟩ := h
          cases he

theorem exists_map_cons {y : Lexeme} {xs? : Except Fault (List Lexeme)} {P : List Lexeme → Prop} :
    (∃ xs, xs?.map (y :: ·) = .ok xs ∧ P xs) ↔ ∃ xs, xs? = .ok xs ∧ P (y :: xs) := by
  cases xs? with
  | error e => simp [Except.map]
  | ok xs => simp [Except.map]

theorem Agrees.results_iff (h : Agrees r stack values) (w : List Char) (index : Nat) :
    (∃ xs, Lexeme.readFrom index w = .ok xs ∧
      Results Regex.charInterpretation stack values (Lexeme.joinFrom r.ends xs) v) ↔
        ∃ e, (machine.walk r w).bind result? = some e ∧ e.toRegex = v := by
  -- by the text: at each symbol the reader and the stacks both go on, or there is no result on either side
  induction w generalizing r stack values index with
  | nil =>
    have hnil : ∀ b, Lexeme.joinFrom b [] = [] := fun b => rfl
    rw [Machine.walk_nil, Option.bind_some, ← h.results_nil]
    constructor
    · intro h
      obtain ⟨xs, ⟨rfl⟩, hresults⟩ := h
      exact hresults
    · intro hresults
      exact ⟨[], rfl, hresults⟩
  | cons c w ih =>
    rw [Machine.walk_cons, Lexeme.readFrom, Symbol.token_ofChar?]
    have hnext : machine.next r c = (Symbol.ofChar? c).bind r.step := rfl
    rw [hnext]
    cases Symbol.ofChar? c with
    | none => simp
    | some x =>
      simp only [Option.map_some, Option.bind_some, exists_map_cons]
      cases hx : r.step x with
      | none =>
        constructor
        · intro h
          obtain ⟨xs, _, hresults⟩ := h
          exact absurd hresults (h.not_results hx index xs)
        · intro h
          obtain ⟨e, he, _⟩ := h
          cases he
      | some s =>
        rw [Option.bind_some]
        obtain ⟨stack', values', hagrees, hiff⟩ := h.step hx index
        simp only [hiff]
        exact ih hagrees (index + 1)

end Reader
end PatternAutomata
