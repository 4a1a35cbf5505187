import PatternAutomata.Machine
import PatternAutomata.Proofs.Pattern.Derivation

/-!
# Reading patterns by their grammar

A reader goes through a pattern from left to right. It keeps the derivations of what is complete and,
for every open parenthesis, of what stands in front of it. No choice is ever open, so the reader
returns the derivation of every pattern, and a pattern has one derivation only.
-/

namespace PatternAutomata

set_option autoImplicit false

/-- What stands in front of a factor, back to the last open parenthesis: the left side of a union,
and whether a plus is behind it; and the left side of a concatenation, and whether a dot is behind it. -/
structure Context where
  left : Option (Derivation .expression × Bool) := none
  front : Option (Derivation .term × Bool) := none

namespace Context

def term (k : Context) (f : Derivation .factor) : Derivation .term :=
  match k.front with
  | none => .term f
  | some (t, true) => .dot t f
  | some (t, false) => .adjoin t f

def expression (k : Context) (f : Derivation .factor) : Derivation .expression :=
  match k.left with
  | none => .expression (k.term f)
  | some (e, true) => .plus e (k.term f)
  | some (e, false) => .bar e (k.term f)

def leftText (k : Context) : List Char :=
  match k.left with
  | none => []
  | some (e, plus) => e.text ++ [if plus then '+' else '|']

def frontText (k : Context) : List Char :=
  match k.front with
  | none => []
  | some (t, dot) => t.text ++ if dot then ['.'] else []

theorem text_term (k : Context) (f : Derivation .factor) : (k.term f).text = k.frontText ++ f.text := by
  match k with
  | ⟨_, none⟩ => rfl
  | ⟨_, some (t, true)⟩ => simp [term, frontText, Derivation.text]
  | ⟨_, some (t, false)⟩ => simp [term, frontText, Derivation.text]

theorem text_expression (k : Context) (f : Derivation .factor) :
    (k.expression f).text = k.leftText ++ (k.frontText ++ f.text) := by
  rw [← text_term]
  match k with
  | ⟨none, _⟩ => rfl
  | ⟨some (e, true), _⟩ => simp [expression, leftText, Derivation.text]
  | ⟨some (e, false), _⟩ => simp [expression, leftText, Derivation.text]

end Context

/-- Between two symbols a reader waits for an operand or has a factor; the contexts of the open
parentheses come from the inside out. -/
inductive Reader where
  | operand (k : Context) (outer : List Context)
  | factor (k : Context) (f : Derivation .factor) (outer : List Context)

namespace Reader

def place (k : Context) (outer : List Context) : Symbol → Option Reader
  | .letter c alphanumeric other => some (factor k (.factor (.letter c alphanumeric other)) outer)
  | .underscore => some (factor k (.factor .underscore) outer)
  | .epsilon => some (factor k (.factor .epsilon) outer)
  | .opening => some (operand {} (k :: outer))
  | _ => none

/-- Takes one symbol. Where an operand begins directly behind a factor, the two are adjoined. -/
def step : Reader → Symbol → Option Reader
  | operand k outer, x => place k outer x
  | factor k f outer, .star => some (factor k (.star f) outer)
  | factor k f outer, .dot => some (operand ⟨k.left, some (k.term f, true)⟩ outer)
  | factor k f outer, .bar => some (operand ⟨some (k.expression f, false), none⟩ outer)
  | factor k f outer, .plus => some (operand ⟨some (k.expression f, true), none⟩ outer)
  | factor _ _ [], .closing => none
  | factor k f (k' :: outer), .closing => some (factor k' (.factor (.group (k.expression f))) outer)
  | factor k f outer, x => place ⟨k.left, some (k.term f, false)⟩ outer x

/-- The derivation of the whole pattern, when no parenthesis is open and no operand is missing. -/
def result? : Reader → Option (Derivation .expression)
  | factor k f [] => some (k.expression f)
  | _ => none

def machine : Machine Reader where
  start := operand {} []
  next r c := (Symbol.ofChar? c).bind r.step
  accepts r := r.result?.isSome

def read? (w : List Char) : Option (Derivation .expression) := (machine.walk machine.start w).bind result?

def outerText : List Context → List Char
  | [] => []
  | k :: outer => outerText outer ++ (k.leftText ++ (k.frontText ++ ['(']))

def text : Reader → List Char
  | operand k outer => outerText outer ++ (k.leftText ++ k.frontText)
  | factor k f outer => outerText outer ++ (k.leftText ++ (k.frontText ++ f.text))

theorem text_place {k : Context} {outer : List Context} {x : Symbol} {r : Reader}
    (h : place k outer x = some r) : r.text = (operand k outer).text ++ [x.toChar] := by
  unfold place at h
  split at h
  case h_5 => cases h
  all_goals
    cases h
    simp [text, outerText, Context.leftText, Context.frontText, Derivation.text, Symbol.toChar]

theorem text_step {r s : Reader} {x : Symbol} (h : r.step x = some s) : s.text = r.text ++ [x.toChar] := by
  have hadjoin : ∀ {k : Context} {f : Derivation .factor} {outer : List Context} {x : Symbol} {s : Reader},
      place ⟨k.left, some (k.term f, false)⟩ outer x = some s →
        s.text = (factor k f outer).text ++ [x.toChar] := by
    intro k f outer x s h
    rw [text_place h]
    simp [text, Context.leftText, Context.frontText, Context.text_term]
  unfold step at h
  split at h
  case h_1 => exact text_place h
  case h_6 => cases h
  case h_8 => exact hadjoin h
  all_goals
    cases h
    simp [text, outerText, Context.leftText, Context.frontText, Context.text_term, Context.text_expression,
      Derivation.text, Symbol.toChar]

theorem text_walk {r s : Reader} {w : List Char} (h : machine.walk r w = some s) : s.text = r.text ++ w := by
  induction w generalizing r with
  | nil =>
    cases h
    exact (List.append_nil _).symm
  | cons c w ih =>
    obtain ⟨t, ht, hts⟩ := Option.bind_eq_some_iff.mp h
    obtain ⟨x, hx, hstep⟩ := Option.bind_eq_some_iff.mp ht
    rw [ih hts, text_step hstep, Symbol.toChar_of_ofChar? hx]
    simp

theorem text_of_read? {w : List Char} {e : Derivation .expression} (h : read? w = some e) : e.text = w := by
  obtain ⟨r, hr, hre⟩ := Option.bind_eq_some_iff.mp h
  have htext := text_walk hr
  unfold result? at hre
  split at hre
  · cases hre
    simpa [text, outerText, machine, Context.text_expression, Context.leftText, Context.frontText] using htext
  · cases hre

@[simp] theorem next_toChar (r : Reader) (x : Symbol) : machine.next r x.toChar = r.step x := by
  simp [machine]

theorem walk_toChar (r : Reader) (x : Symbol) (w : List Char) :
    machine.walk r (x.toChar :: w) = (r.step x).bind fun s => machine.walk s w := by
  rw [Machine.walk_cons, next_toChar]

theorem exists_text_eq_cons {level : Level} (e : Derivation level) :
    ∃ x w, e.text = Symbol.toChar x :: w ∧ x.token.startsOperand = true := by
  have hleft : ∀ {u w : List Char}, (∃ x v, u = Symbol.toChar x :: v ∧ x.token.startsOperand = true) →
      ∃ x v, u ++ w = Symbol.toChar x :: v ∧ x.token.startsOperand = true := by
    intro u w h
    obtain ⟨x, v, rfl, hx⟩ := h
    exact ⟨x, v ++ w, rfl, hx⟩
  induction e with
  | letter c alphanumeric other => exact ⟨.letter c alphanumeric other, [], rfl, rfl⟩
  | underscore => exact ⟨.underscore, [], rfl, rfl⟩
  | epsilon => exact ⟨.epsilon, [], rfl, rfl⟩
  | group e _ => exact ⟨.opening, e.text ++ [')'], rfl, rfl⟩
  | factor _ ih => exact ih
  | star _ ih => exact hleft ih
  | term _ ih => exact ih
  | adjoin _ _ ih _ => exact hleft ih
  | dot _ _ ih _ => exact hleft ih
  | expression _ ih => exact ih
  | bar _ _ ih _ => exact hleft ih
  | plus _ _ ih _ => exact hleft ih

/-- An operand behind a factor is read as one behind the concatenation of the two. -/
theorem walk_adjoin (k : Context) (f g : Derivation .factor) (outer : List Context) :
    machine.walk (factor k f outer) g.text =
      machine.walk (operand ⟨k.left, some (k.term f, false)⟩ outer) g.text := by
  obtain ⟨x, w, hg, hx⟩ := exists_text_eq_cons g
  rw [hg, walk_toChar, walk_toChar]
  cases x with
  | letter c alphanumeric other => rfl
  | underscore => rfl
  | epsilon => rfl
  | opening => rfl
  | _ => cases hx

/-- How the reader takes the text of a derivation. -/
def Reads : {level : Level} → Derivation level → Prop
  | .atom, a => ∀ k outer, machine.walk (operand k outer) a.text = some (factor k (.factor a) outer)
  | .factor, f => ∀ k outer, machine.walk (operand k outer) f.text = some (factor k f outer)
  | .term, t => ∀ left outer, ∃ k f, machine.walk (operand ⟨left, none⟩ outer) t.text =
      some (factor k f outer) ∧ k.left = left ∧ k.term f = t
  | .expression, e => ∀ outer, ∃ k f, machine.walk (operand {} outer) e.text =
      some (factor k f outer) ∧ k.expression f = e

theorem reads_sequence {t : Derivation .term} {f : Derivation .factor} (dot : Bool) (ht : Reads t)
    (hf : Reads f) (left : Option (Derivation .expression × Bool)) (outer : List Context) :
    machine.walk (operand ⟨left, none⟩ outer) (t.text ++ ((if dot then ['.'] else []) ++ f.text)) =
      some (factor ⟨left, some (t, dot)⟩ f outer) := by
  obtain ⟨k, g, hwalk, rfl, rfl⟩ := ht left outer
  rw [Machine.walk_append, hwalk, Option.bind_some]
  cases dot with
  | true => exact hf ⟨k.left, some (k.term g, true)⟩ outer
  | false => exact (walk_adjoin k g f outer).trans (hf ⟨k.left, some (k.term g, false)⟩ outer)

theorem reads_alternative {e : Derivation .expression} {t : Derivation .term} (plus : Bool) (he : Reads e)
    (ht : Reads t) (outer : List Context) :
    ∃ k f, machine.walk (operand {} outer) (e.text ++ (if plus then '+' else '|') :: t.text) =
      some (factor k f outer) ∧ k.left = some (e, plus) ∧ k.term f = t := by
  obtain ⟨k, f, hwalk, rfl⟩ := he outer
  obtain ⟨k', g, hwalk', hleft, hterm⟩ := ht (some (k.expression f, plus)) outer
  refine ⟨k', g, ?_, hleft, hterm⟩
  rw [Machine.walk_append, hwalk, Option.bind_some]
  cases plus with
  | true => exact hwalk'
  | false => exact hwalk'

theorem reads {level : Level} (e : Derivation level) : Reads e := by
  induction e with
  | letter c alphanumeric other =>
    intro k outer
    exact walk_toChar (operand k outer) (.letter c alphanumeric other) []
  | underscore =>
    intro k outer
    rfl
  | epsilon =>
    intro k outer
    rfl
  | group e ih =>
    intro k outer
    obtain ⟨k', f, hwalk, rfl⟩ := ih (k :: outer)
    change machine.walk (operand {} (k :: outer)) ((k'.expression f).text ++ [')']) = _
    rw [Machine.walk_append, hwalk]
    rfl
  | factor a ih => exact ih
  | star f ih =>
    intro k outer
    change machine.walk (operand k outer) (f.text ++ ['*']) = _
    rw [Machine.walk_append, ih k outer]
    rfl
  | term f ih =>
    intro left outer
    exact ⟨⟨left, none⟩, f, ih _ outer, rfl, rfl⟩
  | adjoin t f iht ihf =>
    intro left outer
    exact ⟨_, f, reads_sequence false iht ihf left outer, rfl, rfl⟩
  | dot t f iht ihf =>
    intro left outer
    exact ⟨_, f, reads_sequence true iht ihf left outer, rfl, rfl⟩
  | expression t ih =>
    intro outer
    obtain ⟨k, f, hwalk, hleft, rfl⟩ := ih none outer
    exact ⟨k, f, hwalk, by rw [Context.expression, hleft]⟩
  | bar e t ihe iht =>
    intro outer
    obtain ⟨k, f, hwalk, hleft, rfl⟩ := reads_alternative false ihe iht outer
    exact ⟨k, f, hwalk, by rw [Context.expression, hleft]⟩
  | plus e t ihe iht =>
    intro outer
    obtain ⟨k, f, hwalk, hleft, rfl⟩ := reads_alternative true ihe iht outer
    exact ⟨k, f, hwalk, by rw [Context.expression, hleft]⟩

theorem read?_text (e : Derivation .expression) : read? e.text = some e := by
  obtain ⟨k, f, hwalk, rfl⟩ := reads e []
  rw [read?]
  change (machine.walk (operand {} []) (k.expression f).text).bind result? = _
  rw [hwalk]
  rfl

theorem read?_eq_some {w : List Char} {e : Derivation .expression} : read? w = some e ↔ e.text = w := by
  constructor
  · exact text_of_read?
  · intro h
    obtain rfl := h
    exact read?_text e

end Reader

theorem Derivation.eq_of_text {e e' : Derivation .expression} (h : e.text = e'.text) : e = e' := by
  have hread := Reader.read?_text e
  rw [h, Reader.read?_text] at hread
  exact (Option.some.inj hread).symm

theorem Spells.eq_of_expression {w : List Char} {r r' : Regex Char} (h : Spells .expression w r)
    (h' : Spells .expression w r') : r = r' := by
  obtain ⟨e, he, rfl⟩ := spells_iff.mp h
  obtain ⟨e', he', rfl⟩ := spells_iff.mp h'
  rw [Derivation.eq_of_text (he.trans he'.symm)]

end PatternAutomata
