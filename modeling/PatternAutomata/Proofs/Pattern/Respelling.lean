import PatternAutomata.Proofs.Pattern.Conversion

/-!
# Spellings of a pattern

The empty word and the union have two spellings each, and a concatenation can be written or left out. None of
this changes the tokens of a pattern. So the text of its lexemes, in which every concatenation is written and
each token has its own spelling, is read as the same tokens again.
-/

namespace PatternAutomata

set_option autoImplicit false

variable {s s' : List Char} {c d : Char} {t : Token} {i j : Nat}

/-- The same character, or one that is another spelling of it. -/
inductive Synonym : Char → Char → Prop where
  | same (c : Char) : Synonym c c
  | plus : Synonym '|' '+'
  | bar : Synonym '+' '|'
  | underscore : Synonym 'ε' '_'
  | epsilon : Synonym '_' 'ε'

/-- A text in which characters are replaced by synonyms and concatenations are written in front of characters
at some of the places, which are counted from `i`. -/
inductive Respelling (places : Nat → Prop) : Nat → List Char → List Char → Prop where
  | nil {i : Nat} : Respelling places i [] []
  | char {i : Nat} {c d : Char} {s s' : List Char} :
      Synonym c d → Respelling places (i + 1) s s' → Respelling places i (c :: s) (d :: s')
  | dot {i : Nat} {c d : Char} {s s' : List Char} : places i →
      Synonym c d → Respelling places (i + 1) s s' → Respelling places i (c :: s) ('.' :: d :: s')

/-- A concatenation that is filled in has the index of another token, the one behind it. -/
def Lexeme.FilledAt (xs : List Lexeme) (i : Nat) : Prop :=
  ⟨.operator .concat, i⟩ ∈ xs ∧ ∃ t, t ≠ .operator .concat ∧ ⟨t, i⟩ ∈ xs

theorem Synonym.ofChar?_eq (h : Synonym c d) : Token.ofChar? d = Token.ofChar? c := by
  cases h <;> rfl

theorem Synonym.toChar (h : Token.ofChar? c = some t) : Synonym c t.toChar := by
  unfold Token.ofChar? at h
  split at h
  case h_9 =>
    split at h
    · cases h
      exact .same c
    · cases h
  all_goals
    cases h
    constructor

namespace Lexeme

variable {xs ys : List Lexeme} {x : Lexeme} {ends : Bool}

theorem le_index_of_mem_joinFrom (h : readFrom i s = .ok xs) (hx : x ∈ joinFrom ends xs) : i ≤ x.index := by
  induction s generalizing i xs ends with
  | nil =>
    cases h
    cases hx
  | cons c s ih =>
    obtain ⟨t, rest, _, hrest, rfl⟩ := readFrom_cons_eq_ok.mp h
    rcases mem_joinFrom_cons.mp hx with ⟨_, rfl⟩ | rfl | hx
    · exact Nat.le_refl i
    · exact Nat.le_refl i
    · exact Nat.le_of_succ_le (ih hrest hx)

theorem filledAt_head (h : readFrom (i + 1) s = .ok xs) :
    FilledAt (joinFrom ends (⟨t, i⟩ :: xs)) i ↔ (ends && t.startsOperand) = true := by
  have hlater : ∀ {u}, (⟨u, i⟩ : Lexeme) ∉ joinFrom t.endsOperand xs := by
    intro u hu
    exact Nat.not_succ_le_self i (le_index_of_mem_joinFrom h hu)
  constructor
  · rintro ⟨hconcat, u, hu, hmem⟩
    rcases mem_joinFrom_cons.mp hmem with ⟨hends, _⟩ | heq | hmem
    · exact hends
    · cases heq
      rcases mem_joinFrom_cons.mp hconcat with ⟨hends, _⟩ | heq | hconcat
      · exact hends
      · cases heq
        exact absurd rfl hu
      · exact absurd hconcat hlater
    · exact absurd hmem hlater
  · intro hends
    refine ⟨mem_joinFrom_cons.mpr (Or.inl ⟨hends, rfl⟩), t, ?_, mem_joinFrom_cons.mpr (Or.inr (Or.inl rfl))⟩
    rintro rfl
    rw [Bool.and_eq_true] at hends
    cases hends.2

theorem filledAt_tail (hij : i < j) :
    FilledAt (joinFrom ends (⟨t, i⟩ :: xs)) j ↔ FilledAt (joinFrom t.endsOperand xs) j := by
  have hmem : ∀ {u}, (⟨u, j⟩ : Lexeme) ∈ joinFrom ends (⟨t, i⟩ :: xs) ↔ ⟨u, j⟩ ∈ joinFrom t.endsOperand xs := by
    intro u
    rw [mem_joinFrom_cons]
    simp [Nat.ne_of_gt hij]
  simp only [FilledAt, hmem]

variable {places : Nat → Prop}

theorem exists_readFrom_respelling (h : Respelling places i s s') (hxs : readFrom i s = .ok xs)
    (hplaces : ∀ j, i ≤ j → places j → FilledAt (joinFrom ends xs) j) (k : Nat) :
    ∃ ys, readFrom k s' = .ok ys ∧ (joinFrom ends ys).map token = (joinFrom ends xs).map token := by
  -- the place `k` is arbitrary, as every concatenation that is written moves the rest of the text
  induction h generalizing xs ends k with
  | nil =>
    cases hxs
    exact ⟨[], rfl, rfl⟩
  | char hcd _ ih =>
    obtain ⟨t, rest, hc, hrest, rfl⟩ := readFrom_cons_eq_ok.mp hxs
    obtain ⟨ys, hys, htokens⟩ := ih hrest (fun j hij hj => (filledAt_tail hij).mp (hplaces j (Nat.le_of_lt hij) hj))
      (k + 1)
    refine ⟨⟨t, k⟩ :: ys, readFrom_cons_eq_ok.mpr ⟨t, ys, hcd.ofChar?_eq.trans hc, hys, rfl⟩, ?_⟩
    rw [tokens_joinFrom_cons, tokens_joinFrom_cons, htokens]
  | @dot i c d s s' hi hcd _ ih =>
    obtain ⟨t, rest, hc, hrest, rfl⟩ := readFrom_cons_eq_ok.mp hxs
    obtain ⟨ys, hys, htokens⟩ := ih hrest (fun j hij hj => (filledAt_tail hij).mp (hplaces j (Nat.le_of_lt hij) hj))
      (k + 2)
    have hends := (filledAt_head hrest).mp (hplaces i (Nat.le_refl i) hi)
    have hread : readFrom (k + 1) (d :: s') = .ok (⟨t, k + 1⟩ :: ys) :=
      readFrom_cons_eq_ok.mpr ⟨t, ys, hcd.ofChar?_eq.trans hc, hys, rfl⟩
    refine ⟨⟨.operator .concat, k⟩ :: ⟨t, k + 1⟩ :: ys, readFrom_cons_eq_ok.mpr ⟨_, _, rfl, hread, rfl⟩, ?_⟩
    rw [tokens_joinFrom_cons, tokens_joinFrom_cons, tokens_joinFrom_cons, htokens, hends]
    simp [Token.startsOperand, Token.endsOperand]

theorem respelling_text (hxs : readFrom i s = .ok xs)
    (hplaces : ∀ j, i ≤ j → FilledAt (joinFrom ends xs) j → places j) :
    Respelling places i s (text (joinFrom ends xs)) := by
  induction s generalizing i xs ends with
  | nil =>
    cases hxs
    exact .nil
  | cons c s ih =>
    obtain ⟨t, rest, hc, hrest, rfl⟩ := readFrom_cons_eq_ok.mp hxs
    have htail := ih hrest fun j hij hj => hplaces j (Nat.le_of_lt hij) ((filledAt_tail hij).mpr hj)
    rw [text, tokens_joinFrom_cons]
    split
    · rename_i hends
      exact .dot (hplaces i (Nat.le_refl i) ((filledAt_head hrest).mpr hends)) (Synonym.toChar hc) htail
    · exact .char (Synonym.toChar hc) htail

/-- Whatever synonyms are chosen and whichever of the concatenations that are filled in are written out, a
pattern has the same tokens. Its lexemes are printed as such a pattern, so reading them again changes none. -/
theorem tokens_of_respelling (h : ofPattern s = .ok xs) :
    (∀ s', Respelling (FilledAt xs) 0 s s' → ∃ ys, ofPattern s' = .ok ys ∧ ys.map token = xs.map token) ∧
      Respelling (FilledAt xs) 0 s (text xs) ∧
      ∃ ys, ofPattern (text xs) = .ok ys ∧ ys.map token = xs.map token := by
  obtain ⟨zs, hzs, rfl⟩ := ofPattern_eq_ok.mp h
  have hread : ∀ s', Respelling (FilledAt (joinFrom false zs)) 0 s s' →
      ∃ ys, ofPattern s' = .ok ys ∧ ys.map token = (joinFrom false zs).map token := by
    intro s' hs'
    obtain ⟨ys, hys, htokens⟩ := exists_readFrom_respelling hs' hzs (fun _ _ hj => hj) 0
    exact ⟨_, ofPattern_eq_ok.mpr ⟨ys, hys, rfl⟩, htokens⟩
  have htext : Respelling (FilledAt (joinFrom false zs)) 0 s (text (joinFrom false zs)) :=
    respelling_text hzs fun _ _ hj => hj
  exact ⟨hread, htext, hread _ htext⟩

theorem tokens_of_respelling_aliases :
    ofPattern ['a', '+', 'ε', 'b'] = .ok [⟨.letter (.char 'a'), 0⟩, ⟨.operator .union, 1⟩, ⟨.epsilon, 2⟩,
        ⟨.operator .concat, 3⟩, ⟨.letter (.char 'b'), 3⟩] ∧
      ∃ ys, ofPattern ['a', '|', '_', '.', 'b'] = .ok ys ∧
        ys.map token = [.letter (.char 'a'), .operator .union, .epsilon, .operator .concat, .letter (.char 'b')] := by
  have h : ofPattern ['a', '+', 'ε', 'b'] = .ok [⟨.letter (.char 'a'), 0⟩, ⟨.operator .union, 1⟩, ⟨.epsilon, 2⟩,
      ⟨.operator .concat, 3⟩, ⟨.letter (.char 'b'), 3⟩] := by decide
  refine ⟨h, (tokens_of_respelling h).1 _ ?_⟩
  refine .char (.same 'a') (.char .bar (.char .underscore (.dot ?_ (.same 'b') .nil)))
  exact ⟨by decide, .letter (.char 'b'), nofun, by decide⟩

end Lexeme
end PatternAutomata
