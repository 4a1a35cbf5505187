import PatternAutomata.Dfa.Printer
import PatternAutomata.Proofs.Dfa.Names

/-!
# The text determines the automaton

The text of an automaton is read from left to right. A name ends before the first character that is no
capital letter, a number before the first that is no digit, and a symbol is one character wherever it
stands, so no symbol can be taken for a separator. Two automata with the same text have the same states.
-/

namespace PatternAutomata

set_option autoImplicit false

section Reading

variable {α : Type} {p : Char → Bool} {f : α → List Char}

/-- Before a character outside `p`, the text of a value ends where it can be seen: it determines the
value and what follows. -/
def Delimited (p : Char → Bool) (f : α → List Char) : Prop :=
  ∀ x y u v, u.takeWhile p = [] → v.takeWhile p = [] → f x ++ u = f y ++ v → x = y ∧ u = v

theorem delimited_of_letters (hp : ∀ x, ∀ c ∈ f x, p c = true) (hf : ∀ x y, f x = f y → x = y) :
    Delimited p f := by
  intro x y u v hu hv h
  have hword : f x = f y := by
    have ht := congrArg (List.takeWhile p) h
    rwa [List.takeWhile_append_of_pos (hp x), List.takeWhile_append_of_pos (hp y), hu, hv, List.append_nil,
      List.append_nil] at ht
  rw [hword] at h
  exact ⟨hf x y hword, List.append_cancel_left h⟩

/-- The values of a list up to a closing character. The first value has its own mark before it, every
other one a comma and a blank. -/
def separated (f : α → List Char) (close : Char) : List Char → List α → List Char
  | _, [] => [close]
  | first, x :: xs => first ++ f x ++ separated f close [',', ' '] xs

theorem separated_nil (f : α → List Char) (close : Char) (first u : List Char) :
    separated f close first [] ++ u = close :: u := rfl

theorem separated_cons (f : α → List Char) (close : Char) (first : List Char) (x : α) (xs : List α) (u : List Char) :
    separated f close first (x :: xs) ++ u = first ++ (f x ++ (separated f close [',', ' '] xs ++ u)) := by
  simp [separated]

theorem separated_eq_flatMap (f : α → List Char) (close : Char) (xs : List α) :
    separated f close [',', ' '] xs = xs.flatMap (fun x => ',' :: ' ' :: f x) ++ [close] := by
  induction xs with
  | nil => rfl
  | cons x xs ih => simp [separated, ih]

variable {close : Char}

theorem takeWhile_separated (hcomma : p ',' = false) (hclose : p close = false) (xs : List α) (u : List Char) :
    (separated f close [',', ' '] xs ++ u).takeWhile p = [] := by
  cases xs with
  | nil => simp [separated_nil, hclose]
  | cons x xs => simp [separated_cons, hcomma]

/-- A list is read value by value, if none of them can be taken for the end. -/
theorem separated_inj (hf : Delimited p f) (hcomma : p ',' = false) (hclose : p close = false) (hne : close ≠ ',')
    {first : List Char} (hfirst : ∀ x u v, first ++ (f x ++ u) ≠ close :: v) {xs ys : List α} {u v : List Char}
    (h : separated f close first xs ++ u = separated f close first ys ++ v) : xs = ys ∧ u = v := by
  induction xs generalizing first ys with
  | nil =>
    cases ys with
    | nil => exact ⟨rfl, (List.cons.inj h).2⟩
    | cons y ys =>
      rw [separated_nil, separated_cons] at h
      exact absurd h.symm (hfirst y _ u)
  | cons x xs ih =>
    cases ys with
    | nil =>
      rw [separated_nil, separated_cons] at h
      exact absurd h (hfirst x _ v)
    | cons y ys =>
      rw [separated_cons, separated_cons] at h
      obtain ⟨hxy, hrest⟩ := hf x y _ _ (takeWhile_separated hcomma hclose xs u)
        (takeWhile_separated hcomma hclose ys v) (List.append_cancel_left h)
      have hnext : ∀ x u v, [',', ' '] ++ (f x ++ u) ≠ close :: v :=
        fun _ _ _ h => hne (List.cons.inj h).1.symm
      obtain ⟨hxs, huv⟩ := ih hnext hrest
      exact ⟨by rw [hxy, hxs], huv⟩

end Reading

theorem delimited_toDigits : Delimited Char.isDigit (Nat.toDigits 10) := by
  apply delimited_of_letters
  · intro n c hc
    exact Nat.isDigit_of_mem_toDigits (by decide) (by decide) hc
  · intro m n h
    have hv := congrArg (Nat.ofDigitChars 10 · 0) h
    simpa only [Nat.ofDigitChars_ten_toDigits] using hv

namespace NatSet

theorem intercalate_cons_flatMap (sep x : List Char) (xs : List (List Char)) :
    sep.intercalate (x :: xs) = x ++ xs.flatMap (sep ++ ·) := by
  induction xs generalizing x with
  | nil => simp
  | cons y ys ih => simp [List.intercalate_cons_cons, ih]

theorem chars_append (s : NatSet) (u : List Char) :
    s.chars ++ u = '\x7b' :: (separated (Nat.toDigits 10) '\x7d' [] s.toList ++ u) := by
  obtain ⟨ns, hns⟩ := s
  cases ns with
  | nil => rfl
  | cons n ns =>
    simp [chars, intercalate_cons_flatMap, separated, separated_eq_flatMap, List.flatMap_map]

theorem toDigits_append_ne (n : Nat) (u v : List Char) : Nat.toDigits 10 n ++ u ≠ '\x7d' :: v := by
  intro h
  cases hn : Nat.toDigits 10 n with
  | nil => exact Nat.toDigits_ne_nil hn
  | cons c cs =>
    rw [hn] at h
    have hc : c.isDigit = true := Nat.isDigit_of_mem_toDigits (by decide) (by decide) (hn ▸ List.mem_cons_self)
    rw [(List.cons.inj h).1] at hc
    exact absurd hc (by decide)

theorem chars_inj {s t : NatSet} {u v : List Char} (h : s.chars ++ u = t.chars ++ v) : s = t ∧ u = v := by
  rw [chars_append, chars_append] at h
  obtain ⟨hst, huv⟩ := separated_inj delimited_toDigits rfl rfl (by decide) toDigits_append_ne (List.cons.inj h).2
  exact ⟨ext_toList hst, huv⟩

end NatSet

namespace Dfa

theorem delimited_stateName : Delimited Char.isUpper stateName :=
  delimited_of_letters isUpper_of_mem_stateName fun _ _ => stateName_injective

theorem edgeText_append (e : Char × Nat) (u : List Char) :
    edgeText e ++ u = e.1 :: (" -> ".toList ++ (stateName e.2 ++ u)) := by
  simp [edgeText]

theorem delimited_edgeText : Delimited Char.isUpper edgeText := by
  intro e e' u v hu hv h
  rw [edgeText_append, edgeText_append] at h
  -- the first character is the symbol, even if it is a comma or a blank
  obtain ⟨hsymbol, htarget⟩ := List.cons.inj h
  obtain ⟨htarget, huv⟩ := delimited_stateName e.2 e'.2 u v hu hv (List.append_cancel_left htarget)
  exact ⟨Prod.ext hsymbol htarget, huv⟩

theorem rowText_append (es : List (Char × Nat)) (u : List Char) :
    rowText es ++ '\n' :: u = separated edgeText '\n' [' '] es ++ u := by
  cases es with
  | nil => rfl
  | cons e es => simp [rowText, separated, separated_eq_flatMap]

theorem rowText_inj {es es' : List (Char × Nat)} {u v : List Char}
    (h : rowText es ++ '\n' :: u = rowText es' ++ '\n' :: v) : es = es' ∧ u = v := by
  rw [rowText_append, rowText_append] at h
  -- a line break that is a symbol has the blank before it and does not end the row
  have hblank : ∀ (e : Char × Nat) (u v : List Char), [' '] ++ (edgeText e ++ u) ≠ '\n' :: v := by
    intro e u v h
    exact absurd (List.cons.inj h).1 (by decide)
  exact separated_inj delimited_edgeText rfl rfl (by decide) hblank h

theorem State.eq_of_fields {s t : State} (hkey : s.key = t.key) (haccept : s.accept = t.accept)
    (hrow : s.row = t.row) : s = t := by
  cases s
  cases t
  simp_all

theorem stateText_append (q : Nat) (s : State) (u : List Char) :
    stateText q s ++ u = stateName q ++ ((if s.accept then ['*'] else []) ++
      ' ' :: (s.key.chars ++ ':' :: (rowText s.row.toList ++ '\n' :: u))) := by
  simp [stateText]

theorem mark_inj {a b : Bool} {u v : List Char}
    (h : (if a then ['*'] else []) ++ ' ' :: u = (if b then ['*'] else []) ++ ' ' :: v) : a = b ∧ u = v := by
  cases a with
  | false =>
    cases b with
    | false => exact ⟨rfl, (List.cons.inj h).2⟩
    | true => exact absurd (List.cons.inj h).1 (by decide)
  | true =>
    cases b with
    | false => exact absurd (List.cons.inj h).1 (by decide)
    | true => exact ⟨rfl, (List.cons.inj (List.cons.inj h).2).2⟩

theorem stateText_inj {q : Nat} {s t : State} {u v : List Char}
    (h : stateText q s ++ u = stateText q t ++ v) : s = t ∧ u = v := by
  rw [stateText_append, stateText_append] at h
  obtain ⟨haccept, h⟩ := mark_inj (List.append_cancel_left h)
  obtain ⟨hkey, h⟩ := NatSet.chars_inj h
  obtain ⟨hrow, huv⟩ := rowText_inj (List.cons.inj h).2
  exact ⟨State.eq_of_fields hkey haccept (Row.ext_toList hrow), huv⟩

def lines (ss : List State) (q : Nat) : List Char := (ss.zipIdx q).flatMap fun x => stateText x.2 x.1

theorem stateText_ne_nil (q : Nat) (s : State) (u : List Char) : stateText q s ++ u ≠ [] := by
  simp [stateText]

theorem lines_cons (s : State) (ss : List State) (q : Nat) :
    lines (s :: ss) q = stateText q s ++ lines ss (q + 1) := by
  rw [lines, lines, List.zipIdx_cons, List.flatMap_cons]

theorem lines_inj {ss ts : List State} {q : Nat} (h : lines ss q = lines ts q) : ss = ts := by
  induction ss generalizing ts q with
  | nil =>
    cases ts with
    | nil => rfl
    | cons t ts =>
      rw [lines_cons] at h
      exact absurd h.symm (stateText_ne_nil q t _)
  | cons s ss ih =>
    cases ts with
    | nil =>
      rw [lines_cons] at h
      exact absurd h (stateText_ne_nil q s _)
    | cons t ts =>
      rw [lines_cons, lines_cons] at h
      obtain ⟨hst, hrest⟩ := stateText_inj h
      rw [hst, ih hrest]

theorem text_eq (d : Dfa) : d.text = "start: ".toList ++ stateName 0 ++ '\n' :: lines d.states.toList 0 := rfl

theorem text_eq_iff_states {d e : Dfa} : d.text = e.text ↔ d.states = e.states := by
  constructor
  · intro h
    rw [text_eq, text_eq] at h
    exact Array.toList_inj.mp (lines_inj (List.cons.inj (List.append_cancel_left h)).2)
  · intro h
    rw [text_eq, text_eq, h]

theorem states_eq {d e : Dfa} (hsize : d.size = e.size)
    (h : ∀ q, d.key? q = e.key? q ∧ d.accepts q = e.accepts q ∧ ∀ c, d.next? q c = e.next? q c) :
    d.states = e.states := by
  apply Array.ext hsize
  intro q hq hq'
  obtain ⟨hkey, haccept, hnext⟩ := h q
  simp only [key?, accepts, next?, row, Array.getElem?_eq_getElem hq, Array.getElem?_eq_getElem hq', Option.map_some,
    Option.getD_some, Option.some.injEq] at hkey haccept hnext
  exact State.eq_of_fields hkey haccept (Row.ext_get? hnext)

/-- Two automata have the same text just when they have as many states and every state has the same key,
accepts in both or in none, and has the same targets, whatever characters the symbols are. -/
theorem text_eq_iff (d e : Dfa) :
    d.text = e.text ↔ d.size = e.size ∧
      ∀ q, d.key? q = e.key? q ∧ d.accepts q = e.accepts q ∧ ∀ c, d.next? q c = e.next? q c := by
  rw [text_eq_iff_states]
  constructor
  · intro h
    simp only [size, key?, accepts, next?, row, h, true_and, implies_true]
  · rintro ⟨hsize, h⟩
    exact states_eq hsize h

end Dfa
end PatternAutomata
