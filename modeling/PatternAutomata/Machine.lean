/-!
# Runs over a word

A machine has a start, at most one next state for each symbol, and accepting states. A run takes
symbols until one has no next state. `Machine.walk` is the state that a whole word leads to;
`run_accepted` and `walk_append` tie the two together.
-/

namespace PatternAutomata

set_option autoImplicit false

/-- What a run tells: whether the word is accepted, and how many symbols were taken to decide.
A symbol without a next state has been taken, those after it have not. -/
structure Run where
  accepted : Bool
  read : Nat
deriving DecidableEq

/-- The symbols are characters, of which a machine only asks whether they are equal. -/
structure Machine (σ : Type) where
  start : σ
  next : σ → Char → Option σ
  accepts : σ → Bool

namespace Machine

variable {σ : Type} (m : Machine σ)

def runFrom (s : σ) : List Char → Run
  | [] => ⟨m.accepts s, 0⟩
  | c :: w =>
    match m.next s c with
    | none => ⟨false, 1⟩
    | some t => let r := runFrom t w; ⟨r.accepted, r.read + 1⟩

def run (w : List Char) : Run := m.runFrom m.start w

def walk (s : σ) : List Char → Option σ
  | [] => some s
  | c :: w => (m.next s c).bind fun t => walk t w

@[simp] theorem walk_nil (s : σ) : m.walk s [] = some s := rfl

theorem walk_cons (s : σ) (c : Char) (w : List Char) :
    m.walk s (c :: w) = (m.next s c).bind fun t => m.walk t w := rfl

theorem walk_append (s : σ) (u w : List Char) :
    m.walk s (u ++ w) = (m.walk s u).bind fun t => m.walk t w := by
  induction u generalizing s with
  | nil => rfl
  | cons c u ih =>
    rw [List.cons_append, walk_cons, walk_cons]
    cases m.next s c with
    | none => rfl
    | some t => exact ih t

theorem runFrom_accepted (s : σ) (w : List Char) :
    (m.runFrom s w).accepted = (m.walk s w).any m.accepts := by
  induction w generalizing s with
  | nil => rfl
  | cons c w ih =>
    rw [runFrom, walk_cons]
    cases m.next s c with
    | none => rfl
    | some t => exact ih t

theorem run_accepted (w : List Char) : (m.run w).accepted = (m.walk m.start w).any m.accepts :=
  m.runFrom_accepted m.start w

/-- A map between machines that keeps acceptance and commutes with steps keeps every run. -/
theorem runFrom_map {τ : Type} (m : Machine σ) (k : Machine τ) (f : σ → τ) (P : σ → Prop)
    (haccepts : ∀ s, P s → k.accepts (f s) = m.accepts s)
    (hnext : ∀ s c, P s → k.next (f s) c = (m.next s c).map f)
    (hkeep : ∀ s c t, P s → m.next s c = some t → P t) {s : σ} (hs : P s) (w : List Char) :
    k.runFrom (f s) w = m.runFrom s w := by
  induction w generalizing s with
  | nil => simp [runFrom, haccepts s hs]
  | cons c w ih =>
    rw [runFrom, runFrom, hnext s c hs]
    cases hn : m.next s c with
    | none => rfl
    | some t => simp [ih (hkeep s c t hs hn)]

/-- A machine that has a step only where another one has it takes no more symbols than that one. -/
theorem runFrom_read_le_of_step {τ : Type} (m : Machine σ) (k : Machine τ) (R : σ → τ → Prop)
    (hstep : ∀ s t c s', R s t → m.next s c = some s' → ∃ t', k.next t c = some t' ∧ R s' t')
    {s : σ} {t : τ} (h : R s t) (w : List Char) : (m.runFrom s w).read ≤ (k.runFrom t w).read := by
  induction w generalizing s t with
  | nil => exact Nat.le_refl 0
  | cons c w ih =>
    rw [runFrom, runFrom]
    cases hs : m.next s c with
    | none =>
      -- one symbol is taken here, and the other machine takes at least that one
      cases k.next t c with
      | none => exact Nat.le_refl 1
      | some t' => exact Nat.succ_le_succ (Nat.zero_le _)
    | some s' =>
      obtain ⟨t', ht, h'⟩ := hstep s t c s' h hs
      rw [ht]
      exact Nat.succ_le_succ (ih h')

end Machine
end PatternAutomata
