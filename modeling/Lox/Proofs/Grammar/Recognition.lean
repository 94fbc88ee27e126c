import Lox.Proofs.Grammar.Reader
import Lox.Proofs.Grammar.Rules

/-!
# What readers accept

A reader that makes no complaint has read a word of the grammar. `Recognizes p c limit L` says this
of a reader and a language, which may depend on what the reader returns, and more: with the fuel it
is given, the reader does not run out of it, and it leaves fewer than `limit` tokens. The last is
what keeps the fuel in step with the tokens. Every reader needs a fixed amount of fuel for each
token ahead, and a little more, which the calls that read nothing in between use up.

The rules for `Recognizes` take a reader apart along its steps. Each step passes on to the next one
what words may still follow, so that at the end there is a derivation to be given.
-/

namespace Lox

/-- The kinds of the tokens ahead. -/
def Cursor.kinds (c : Cursor) : Word := c.ahead.map Token.kind

namespace Parse

variable {α β : Type} {c : Cursor} {limit : Nat} {L : α → Word → Prop} {M : β → Word → Prop}

/-- The reader does not run out of fuel. It leaves fewer than `limit` tokens, and if it makes no
complaint, it has read a word of the language of what it returns. -/
def Recognizes (p : Parse α) (c : Cursor) (limit : Nat) (L : α → Word → Prop) : Prop :=
  Spec False p c fun a d => d.ahead.length < limit ∧
    (d.complaints = c.complaints → ∃ w, c.kinds = w ++ d.kinds ∧ L a w)

/-! ### Rules -/

theorem recognizes_pure {a : α} (hlimit : c.ahead.length < limit) (h : L a []) :
    Recognizes (pure a : Parse α) c limit L :=
  spec_pure ⟨hlimit, fun _ => ⟨[], rfl, h⟩⟩

theorem recognizes_failWith (what : Expected) :
    Recognizes (failWith what : Parse α) c limit L :=
  spec_failWith what

theorem Recognizes.mono {p : Parse α} {limit' : Nat} {L' : α → Word → Prop}
    (h : Recognizes p c limit L) (hlimit : limit ≤ limit') (hL : ∀ a w, L a w → L' a w) :
    Recognizes p c limit' L' := by
  refine Spec.mono h fun a d _ hd => ⟨lt_of_lt_of_le hd.1 hlimit, fun hclean => ?_⟩
  obtain ⟨w, hw, hLw⟩ := hd.2 hclean
  exact ⟨w, hw, hL a w hLw⟩

theorem complaints_between {c d e : Cursor} (hcd : c.Onward d) (hde : d.Onward e)
    (h : e.complaints = c.complaints) :
    d.complaints = c.complaints ∧ e.complaints = d.complaints := by
  have hprefix : d.complaints <+: c.complaints := h ▸ hde.complaints
  have heq := hcd.complaints.eq_of_length_le hprefix.length_le
  exact ⟨heq.symm, h.trans heq⟩

theorem Recognizes.bind {p : Parse α} {f : α → Parse β} {limit' : Nat}
    (hp : Recognizes p c limit' L)
    (hf : ∀ a d, d.ahead.length < limit' →
      Recognizes (f a) d limit fun b v => ∀ u, L a u → M b (u ++ v)) :
    Recognizes (p >>= f) c limit M := by
  refine Spec.bind hp fun a d hcd hd => Spec.mono (hf a d hd.1) fun b e hde he => ⟨he.1, ?_⟩
  intro hclean
  obtain ⟨hfirst, hsecond⟩ := complaints_between hcd hde hclean
  obtain ⟨u, hu, hLu⟩ := hd.2 hfirst
  obtain ⟨v, hv, hMv⟩ := he.2 hsecond
  exact ⟨u ++ v, by rw [hu, hv, List.append_assoc], hMv u hLu⟩

theorem Recognizes.after {p : Parse β} {t : Token} {rest : List Token} (heq : c.ahead = t :: rest)
    (h : Recognizes p { c with ahead := rest } limit fun b v => M b (t.kind :: v)) :
    Spec False p { c with ahead := rest } fun b e => e.ahead.length < limit ∧
      (e.complaints = c.complaints → ∃ w, c.kinds = w ++ e.kinds ∧ M b w) := by
  refine Spec.mono h fun b e _ he => ⟨he.1, fun hclean => ?_⟩
  obtain ⟨v, hv, hM⟩ := he.2 hclean
  refine ⟨t.kind :: v, ?_, hM⟩
  rw [List.cons_append, ← hv]
  simp [Cursor.kinds, heq]

theorem recognizes_acceptIf {test : TokenKind → Bool} {f : Option Token → Parse β}
    (hnone : Recognizes (f none) c limit M)
    (hsome : ∀ t d, test t.kind = true → d.ahead.length < c.ahead.length →
      Recognizes (f (some t)) d limit fun b v => M b (t.kind :: v)) :
    Recognizes (acceptIf test >>= f) c limit M :=
  spec_acceptIf (fun _ => hnone) fun t _ heq htest =>
    (hsome t _ htest (by simp [heq])).after heq

theorem recognizes_accept {k : TokenKind} {f : Option Token → Parse β}
    (hnone : Recognizes (f none) c limit M)
    (hsome : ∀ t d, d.ahead.length < c.ahead.length →
      Recognizes (f (some t)) d limit fun b v => M b (k :: v)) :
    Recognizes (accept k >>= f) c limit M := by
  refine recognizes_acceptIf hnone fun t d htest hd => ?_
  rw [show t.kind = k by simpa using htest]
  exact hsome t d hd

theorem recognizes_expect {k : TokenKind} {what : Expected} {f : Token → Parse β}
    (hf : ∀ t d, d.ahead.length < c.ahead.length →
      Recognizes (f t) d limit fun b v => M b (k :: v)) :
    Recognizes (expect k what >>= f) c limit M :=
  spec_expect fun t _ heq hkind =>
    (hkind ▸ hf t _ (by simp [heq])).after heq

theorem recognizes_freshId {f : NodeId → Parse β}
    (hf : ∀ id d, d.ahead.length = c.ahead.length → Recognizes (f id) d limit M) :
    Recognizes (freshId >>= f) c limit M :=
  spec_freshId (hf _ _ rfl)

theorem recognizes_check {k : TokenKind} {f : Bool → Parse β}
    (hf : ∀ b, Recognizes (f b) c limit M) : Recognizes (check k >>= f) c limit M :=
  spec_check (hf _)

theorem Recognizes.after_complaint {p : Parse β} {x : Complaint}
    {N : β → Word → Prop} (h : Recognizes p (c.complain x) limit N) :
    Spec False p (c.complain x) fun b e => e.ahead.length < limit ∧
      (e.complaints = c.complaints → ∃ w, c.kinds = w ++ e.kinds ∧ M b w) := by
  refine Spec.mono h fun b e hde he => ⟨he.1, fun hclean => ?_⟩
  have hlength := hde.complaints.length_le
  rw [hclean, Cursor.complain, List.length_append, List.length_singleton] at hlength
  omega

theorem recognizes_complain {t : Token} {x : ParseError} {f : Unit → Parse β}
    (hf : ∀ d, d.ahead.length = c.ahead.length → Recognizes (f ()) d limit fun _ _ => True) :
    Recognizes (complain t x >>= f) c limit M :=
  spec_complain (hf (c.complain ⟨t, x⟩) rfl).after_complaint

/-- Where there is no room for another item, a complaint is made. -/
theorem recognizes_checkArity {count : Nat} {x : ParseError} {f : Unit → Parse β}
    (hf : ∀ d, d.ahead.length = c.ahead.length →
      Recognizes (f ()) d limit fun b w => count < maxArity → M b w) :
    Recognizes (checkArity count x >>= f) c limit M :=
  spec_checkArity (fun _ => (hf (c.complain ⟨c.peek, x⟩) rfl).after_complaint) fun hcount =>
    (hf c rfl).mono le_rfl fun _ _ h => h hcount

theorem recognizes_atEnd {f : Bool → Parse β}
    (hyes : c.ahead = [] → Recognizes (f true) c limit M)
    (hno : Recognizes (f false) c limit M) : Recognizes (atEnd >>= f) c limit M := by
  refine spec_atEnd ?_
  cases hend : c.ahead.isEmpty with
  | true => exact hyes (List.isEmpty_iff.mp hend)
  | false => exact hno

theorem recognizes_atClosing {inBraces : Bool} {f : Bool → Parse β}
    (hyes : c.ahead = [] ∨ inBraces = true → Recognizes (f true) c limit M)
    (hno : c.ahead ≠ [] → Recognizes (f false) c limit M) :
    Recognizes (atClosing inBraces >>= f) c limit M := by
  refine spec_atClosing ?_
  cases hclosing : c.ahead.isEmpty || (inBraces && c.check (.symbol .rightBrace)) with
  | true =>
    refine hyes ?_
    simp only [Bool.or_eq_true, List.isEmpty_iff, Bool.and_eq_true] at hclosing
    exact hclosing.imp_right fun h => h.1
  | false =>
    refine hno ?_
    simp only [Bool.or_eq_false_iff, List.isEmpty_eq_false_iff] at hclosing
    exact hclosing.1

/-- A mistake is recorded, and at least one token is skipped. -/
theorem recognizes_recover {p : Parse α} (hp : Recognizes p c c.ahead.length L)
    (hahead : c.ahead ≠ []) :
    Recognizes (recover p) c c.ahead.length fun a w => ∃ s, a = some s ∧ L s w := by
  refine spec_recover hp (fun a d _ hd => ⟨hd.1, fun hclean => ?_⟩) fun x d hcd => ⟨?_, ?_⟩
  · obtain ⟨w, hw, hLw⟩ := hd.2 hclean
    exact ⟨w, hw, a, rfl, hLw⟩
  · exact Cursor.length_recovered_lt x hahead hcd.length_le
  · intro hclean
    have hsync : (d.complain x).synchronize.complaints = d.complaints ++ [x] := by
      unfold Cursor.synchronize
      split <;> rfl
    have hlength := hcd.complaints.length_le
    rw [hsync] at hclean
    rw [← hclean, List.length_append, List.length_singleton] at hlength
    omega

end Parse

end Lox
