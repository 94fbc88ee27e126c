import Lox.Proofs.Mirror.Reached

/-!
# Programs on other lines

A token does not say where it comes from, and equal tokens may come from several places. So a run is
compared with one of the same program below all lines of earlier sources, where the line of a token
tells its place. `Mirror.moving` leads from that run back to the other one: the tokens of the
program move to the lines where they stand, and those of earlier sources stay.
-/

namespace Lox

/-! ### Sources -/

/-- The last line of the longest of some sources. -/
def lastLine (sources : List String) : Nat :=
  (sources.map fun source => 1 + newlines source.toList).foldr max 0

theorem line_le_lastLine {sources : List String} {source : String} (hsource : source ∈ sources)
    {t : Token} (ht : t ∈ tokens source) : t.line ≤ lastLine sources := by
  induction sources with
  | nil => cases hsource
  | cons other rest ih =>
    rcases List.mem_cons.mp hsource with rfl | hrest
    · exact le_trans (line_of_mem_tokens ht).2 (le_max_left _ _)
    · exact le_trans (ih hrest) (le_max_right _ _)

/-- A token of one of some sources. -/
def ofSources (sources : List String) (t : Token) : Prop := ∃ source ∈ sources, t ∈ tokens source

/-- The token on another line. -/
def Token.moved (line : Nat → Nat) (t : Token) : Token := { t with line := line t.line }

def RuntimeError.moved (line : Nat → Nat) (e : RuntimeError) : RuntimeError :=
  { e with token := e.token.moved line }

/-- The tokens with `P` move to other lines. Something was printed before. -/
def Mirror.moving (P : Token → Prop) (line : Nat → Nat) (printed : String) : Mirror where
  token t t' := P t ∧ t' = t.moved line
  node id id' := id' = id
  made i i' := i' = i
  output o o' := o'.broken = o.broken ∧ o'.text = printed ++ o.text
  kind h := h.2 ▸ rfl
  lexeme h := h.2 ▸ rfl
  next h := ⟨congrArg UInt32.ofNat h, congrArg (· + 1) h⟩
  write := by
    rintro o o' ⟨hbroken, htext⟩ s
    unfold Output.write
    rw [hbroken]
    split_ifs
    · exact ⟨hbroken, htext⟩
    · exact ⟨rfl, by rw [htext, String.append_assoc]⟩

section Moving

variable {P P' : Token → Prop} {line : Nat → Nat} {printed : String}

theorem Mirror.own_passes_moving (hstay : ∀ t, P t → P' t ∧ line t.line = t.line)
    {Q : NodeId → Prop} (ids : List NodeId) :
    (Mirror.own P Q).Passes (.moving P' line printed) ids := by
  refine ⟨?_, fun _ _ _ hid => hid.2⟩
  rintro t t' ⟨ht, rfl⟩
  refine ⟨(hstay _ ht).1, ?_⟩
  rw [Token.moved, (hstay _ ht).2]

theorem RuntimeError.Mirrored.moved {e e' : RuntimeError}
    (h : e.Mirrored (.moving P line printed) e') :
    e' = e.moved line ∧ ∃ u : Token, P u ∧ (e.token = u ∨ e.token = u.receiver) := by
  obtain ⟨kind, token, message⟩ := e
  obtain ⟨kind', token', message'⟩ := e'
  obtain ⟨hkind, htoken, hmessage⟩ := h
  dsimp only at hkind htoken hmessage
  subst hkind hmessage
  cases htoken with
  | token ht => exact ⟨congrArg (RuntimeError.mk _ · _) ht.2, token, ht.1, .inl rfl⟩
  | @receiver t t' ht =>
    refine ⟨congrArg (RuntimeError.mk _ · _) ?_, t, ht.1, .inr rfl⟩
    rw [ht.2]
    rfl

theorem Distances.recordAll_moving {fs fs' : List Finding}
    (h : FindingsMirrored (.moving P line printed) fs fs') (d : Distances) :
    d.recordAll fs' = d.recordAll fs := by
  induction h generalizing d with
  | nil => rfl
  | cons hf hrest ih =>
    cases hf with
    | violation ht rule => exact ih d
    | distance hid steps =>
      obtain rfl := hid
      exact ih _

end Moving

/-! ### Several runs -/

end Lox
