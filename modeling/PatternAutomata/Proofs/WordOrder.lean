import Mathlib.Data.List.Shortlex
import PatternAutomata.Machine

/-!
# The order of words

Shorter words come first, and words of one length are ordered by the code points of their first
difference. There is no infinite descent, so every state that can be reached is reached by a least
word.
-/

namespace PatternAutomata

set_option autoImplicit false

/-- The first word is shorter, or as long and smaller at the first difference. -/
def Precedes (u w : List Char) : Prop := List.Shortlex (fun a b => a.toNat < b.toNat) u w

namespace Precedes

variable {u v w : List Char} {b c : Char}

theorem wellFounded : WellFounded Precedes := List.Shortlex.wf (InvImage.wf Char.toNat Nat.lt_wfRel.wf)

theorem trans (huv : Precedes u v) (hvw : Precedes v w) : Precedes u w := by
  rcases List.shortlex_def.mp huv with huv | ⟨hlen, huv⟩
  · rcases List.shortlex_def.mp hvw with hvw | ⟨hlen, _⟩
    · exact List.Shortlex.of_length_lt (Nat.lt_trans huv hvw)
    · exact List.Shortlex.of_length_lt (by omega)
  · rcases List.shortlex_def.mp hvw with hvw | ⟨hlen', hvw⟩
    · exact List.Shortlex.of_length_lt (by omega)
    · exact List.Shortlex.of_lex (hlen.trans hlen') (List.lex_trans Nat.lt_trans huv hvw)

theorem irrefl (w : List Char) : ¬ Precedes w w := fun h => wellFounded.asymm.asymm w w h h

theorem eq_of_not (huw : ¬ Precedes u w) (hwu : ¬ Precedes w u) : u = w := by
  have hchars : Std.Trichotomous fun a b : Char => a.toNat < b.toNat :=
    ⟨fun a b hab hba => Char.toNat_inj.mp (by omega)⟩
  have hwords : Std.Trichotomous (List.Shortlex fun a b : Char => a.toNat < b.toNat) := inferInstance
  exact hwords.trichotomous u w huw hwu

theorem nil_concat (w : List Char) (c : Char) : Precedes [] (w ++ [c]) :=
  List.Shortlex.of_length_lt (by simp)

theorem lex_concat (h : List.Lex (fun a b : Char => a.toNat < b.toNat) u w) (hlen : u.length = w.length) :
    List.Lex (fun a b : Char => a.toNat < b.toNat) (u ++ [b]) (w ++ [c]) := by
  induction h with
  | nil => simp at hlen
  | cons _ ih => exact .cons (ih (by simpa using hlen))
  | rel hab => exact .rel hab

theorem concat (h : Precedes u w) : Precedes (u ++ [b]) (w ++ [c]) := by
  rcases List.shortlex_def.mp h with hlt | ⟨hlen, hlex⟩
  · exact List.Shortlex.of_length_lt (by simpa using hlt)
  · exact List.Shortlex.of_lex (by simpa using hlen) (lex_concat hlex hlen)

theorem concat_of_lt (w : List Char) (h : b.toNat < c.toNat) : Precedes (w ++ [b]) (w ++ [c]) :=
  List.Shortlex.append_left ((List.shortlex_singleton_iff b c).mpr h) w

end Precedes

namespace Machine

variable {σ : Type} (m : Machine σ)

def Leads (w : List Char) (s : σ) : Prop := m.walk m.start w = some s

variable {m}

theorem leads_nil {s : σ} : m.Leads [] s ↔ s = m.start := by
  simp [Leads, eq_comm]

theorem leads_concat {w : List Char} {c : Char} {t : σ} :
    m.Leads (w ++ [c]) t ↔ ∃ s, m.Leads w s ∧ m.next s c = some t := by
  simp only [Leads, walk_append, Option.bind_eq_some_iff, walk_cons, walk_nil, Option.some.injEq,
    exists_eq_right]

end Machine
end PatternAutomata
