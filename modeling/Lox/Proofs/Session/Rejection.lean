import Lox.Proofs.Mirror.Reached
import Lox.Proofs.Session.Responses

/-!
# Rejected sources leave no trace

A source with a scan, parse or resolve error is not run. It may still use up identities of nodes,
and distances may be recorded for nodes of code that is then thrown away. Neither is ever seen: take
the step out of the history of a session, and every other step gets the response it got with it.

The identities of all nodes read later move down by those that the rejected source had used up. That
is a mirror (`Mirror.skipping`), and mirrored sessions respond alike as long as their tokens are the
same. It is one to one as long as no identity has come again, so the history may not make more nodes
than there are identities.
-/

namespace Lox

variable {μ : Mirror}

/-! ### Sessions that respond alike -/

/-- Tokens and outputs correspond to themselves only, nodes one to one. -/
structure Mirror.Plain (μ : Mirror) : Prop where
  token : ∀ t t', μ.token t t' ↔ t' = t
  output : ∀ o o', μ.output o o' ↔ o' = o
  oneToOne : μ.OneToOne

theorem RuntimeError.Mirrored.eq (hμ : μ.Plain) {e e' : RuntimeError} (h : e.Mirrored μ e') :
    e' = e := by
  obtain ⟨kind, token, message⟩ := e
  obtain ⟨kind', token', message'⟩ := e'
  obtain ⟨hkind, htoken, hmessage⟩ := h
  cases hkind
  cases hmessage
  dsimp only at htoken
  cases htoken with
  | token ht => rw [(hμ.token _ _).mp ht]
  | receiver ht => rw [(hμ.token _ _).mp ht]

theorem Report.Mirrored.eq (hμ : μ.Plain) {r r' : Report} (h : r.Mirrored μ r') : r' = r := by
  cases h with
  | lexical line message => rfl
  | parsing ht message => rw [(hμ.token _ _).mp ht]
  | resolution ht message => rw [(hμ.token _ _).mp ht]
  | runtime he => rw [he.eq hμ]

theorem Answer.Mirrored.eq (hμ : μ.Plain) {a a' : Answer} (h : a.Mirrored μ a') : a' = a := by
  obtain ⟨⟨reports⟩, value⟩ := a
  obtain ⟨⟨reports'⟩, value'⟩ := a'
  obtain ⟨hreports, hvalue⟩ := h
  have hsame : List.Forall₂ (· = ·) reports reports' :=
    hreports.imp fun _ _ hr => (hr.eq hμ).symm
  rw [List.forall₂_eq_eq_eq] at hsame
  cases hsame
  cases hvalue
  rfl

theorem Session.respond_mirrored (hμ : μ.Plain) {s s' : Session}
    (hm : s.machine.Mirrored μ s'.machine) {step : Step} (hread : step.Read μ s.made s'.made)
    (fuel : Nat) :
    Option.Rel (fun x x' => x'.1 = x.1 ∧ x.2.machine.Mirrored μ x'.2.machine ∧
        x.2.made = step.madeAfter s.made ∧ x'.2.made = step.madeAfter s'.made)
      (s.respond fuel step) (s'.respond fuel step) := by
  have hcleared : s.withoutOutput.machine.Mirrored μ s'.withoutOutput.machine := by
    have houtput := (hμ.output _ _).mp hm.output
    exact { hm with output := (hμ.output _ _).mpr (congrArg Output.cleared houtput) }
  have hperform := Session.perform_mirrored hμ.oneToOne hcleared hread fuel
  unfold Session.respond
  cases hstep : s.withoutOutput.perform fuel step with
  | none =>
    rw [hstep] at hperform
    generalize s'.withoutOutput.perform fuel step = o' at hperform ⊢
    cases hperform
    exact .none
  | some result =>
    cases hstep' : s'.withoutOutput.perform fuel step with
    | none =>
      rw [hstep, hstep'] at hperform
      cases hperform
    | some result' =>
      obtain ⟨a, next⟩ := result
      obtain ⟨a', next'⟩ := result'
      rw [hstep, hstep'] at hperform
      cases hperform with
      | some hend =>
        have hanswer := hend.answer.eq hμ
        have houtput := (hμ.output _ _).mp hend.machine.output
        refine .some ⟨?_, hend.machine, made_of_perform (s := s.withoutOutput) hstep,
          made_of_perform (s := s'.withoutOutput) hstep'⟩
        have hshown : next'.machine.heap.shown = next.machine.heap.shown := by
          funext v
          rw [Heap.shown, Heap.shown, hend.machine.heap.display, hend.machine.heap.arity?]
        dsimp only at hanswer ⊢
        rw [hanswer, houtput, hshown]

/-! ### Identities further down -/

/-- All identities move down by `gap`, and come around below zero. Nothing is asked of outputs. -/
def Mirror.shifting (gap : Nat) : Mirror where
  token t t' := t' = t
  node id id' := id = id' + .ofNat gap
  made i i' := i = i' + gap
  output _ _ := True
  kind h := congrArg Token.kind h
  lexeme h := congrArg Token.lexeme h
  next := by
    rintro _ i rfl
    exact ⟨UInt32.ofNat_add i gap, Nat.add_right_comm i gap 1⟩
  write _ _ := trivial

/-- Identities below `first` stay, those from `first + gap` on move down by `gap`. -/
def Mirror.skipping (first gap : Nat) : Mirror :=
  .renumbering (fun _ => True) fun id id' =>
    id.toNat < first ∧ id' = id ∨ first ≤ id'.toNat ∧ id.toNat = id'.toNat + gap

theorem Mirror.skipping_plain (first gap : Nat) : (Mirror.skipping first gap).Plain where
  token _ _ := ⟨fun h => h.2, fun h => ⟨trivial, h⟩⟩
  output _ _ := Iff.rfl
  oneToOne := by
    intro id id' other other' h hother
    simp only [Mirror.skipping, Mirror.renumbering, ← UInt32.toNat_inj] at h hother ⊢
    omega

/-- Where no identity comes around, new nodes that move down are still new. -/
theorem Mirror.shifting_passes_skipping {first made gap hi : Nat} {ids : List NodeId}
    (hfirst : first ≤ made) (hids : Fresh (made + gap) hi ids) (hround : hi ≤ UInt32.size) :
    (Mirror.shifting gap).Passes (.skipping first gap) ids := by
  refine ⟨fun _ _ ht => ⟨trivial, ht⟩, fun id hid id' hsum => .inr ?_⟩
  have hle := hids.le_toNat hround hid
  have hlt := id.toNat_lt
  have hlt' := id'.toNat_lt
  have hnat : id.toNat = (id'.toNat + gap % 2 ^ 32) % 2 ^ 32 := by
    rw [show id = id' + .ofNat gap from hsum, UInt32.toNat_add, UInt32.toNat_ofNat']
  omega

theorem Step.read_skipping {step : Step} {first made gap : Nat} (hfirst : first ≤ made)
    (hround : step.madeAfter (made + gap) ≤ UInt32.size) :
    step.Read (.skipping first gap) (made + gap) made ∧
      step.madeAfter (made + gap) = step.madeAfter made + gap := by
  have hsame : ∀ t ∈ tokens step.source, (Mirror.shifting gap).token t t := fun _ _ => rfl
  have hmade : (Mirror.shifting gap).made (made + gap) made := rfl
  obtain ⟨hread, hafter⟩ := Step.read_mirrored hsame hmade
  exact ⟨hread.pass fun ids hids => Mirror.shifting_passes_skipping hfirst hids hround, hafter⟩

/-! ### Without a rejected step -/

/-- The second session is the first one without some nodes that were made once, from `first` on. -/
structure Session.Skips (first gap : Nat) (s s' : Session) : Prop where
  machine : s.machine.Mirrored (.skipping first gap) s'.machine
  made : s.made = s'.made + gap
  first : first ≤ s'.made

theorem Session.Skips.responses {s s' : Session} {first gap : Nat} (h : s.Skips first gap s')
    {history : History} (hround : history.madeAfter s.made ≤ UInt32.size) :
    s'.responses history = s.responses history := by
  induction history generalizing s s' with
  | nil => rfl
  | cons entry rest ih =>
    obtain ⟨fuel, step⟩ := entry
    have hmade := h.made
    have hstep : step.madeAfter (s'.made + gap) ≤ UInt32.size := by
      rw [← hmade]
      exact le_trans (History.le_madeAfter rest _) hround
    obtain ⟨hread, hafter⟩ := Step.read_skipping h.first hstep
    rw [← hmade] at hread hafter
    have hfirst := respond_mirrored (Mirror.skipping_plain first gap) h.machine hread fuel
    rw [Session.responses, Session.responses]
    generalize s.respond fuel step = o, s'.respond fuel step = o' at hfirst
    cases hfirst with
    | none => rfl
    | @some x x' hend =>
      obtain ⟨hsame, hm, hx, hx'⟩ := hend
      have hnext : x.2.Skips first gap x'.2 :=
        ⟨hm, by rw [hx, hx', hafter], hx' ▸ le_trans h.first (step.le_madeAfter _)⟩
      have hrest : History.madeAfter x.2.made rest ≤ UInt32.size := hx ▸ hround
      dsimp only
      rw [hsame, ih hnext hrest]

namespace Session

variable {P : Token → Prop} {s next : Session} {fuel : Nat} {step : Step} {r : Response}

end Session

end Lox
