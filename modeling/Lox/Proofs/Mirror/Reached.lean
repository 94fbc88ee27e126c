import Lox.Proofs.Mirror.Sessions

/-!
# What a session holds on to

A session that was reached by some history holds on to code of its past steps and to distances
recorded for nodes of that code. All these nodes have identities that are used up, and all tokens in
the code stem from the sources of the past steps. Put as a mirror: the machine mirrors itself
through the used identities and the past tokens alone (`Session.Holds`).
-/

namespace Lox

variable {μ ν : Mirror} {P : Token → Prop} {Q : NodeId → Prop}

/-- The tokens with `P` correspond to themselves, and outputs too. Nodes may have new identities. -/
def Mirror.renumbering (P : Token → Prop) (node : NodeId → NodeId → Prop) : Mirror where
  token t t' := P t ∧ t' = t
  node := node
  made i i' := ∀ k, node (.ofNat (i + k)) (.ofNat (i' + k))
  output o o' := o' = o
  kind h := congrArg Token.kind h.2
  lexeme h := congrArg Token.lexeme h.2
  next h := ⟨h 0, fun k => by simpa only [Nat.add_assoc, Nat.add_comm 1 k] using h (k + 1)⟩
  write h s := congrArg (fun o => Output.write o s) h

/-- The tokens with `P` and the nodes with `Q` correspond to themselves, and to nothing else. -/
def Mirror.own (P : Token → Prop) (Q : NodeId → Prop) : Mirror :=
  .renumbering P fun id id' => Q id ∧ id' = id

theorem Mirror.own_oneToOne : (Mirror.own P Q).OneToOne := by
  rintro id id' other other' ⟨-, rfl⟩ ⟨-, rfl⟩
  exact Iff.rfl

theorem Mirror.own_passes {lo hi : Nat} (h : lo ≤ hi) (ids : List NodeId) :
    (Mirror.own P (·.toNat < lo)).Passes (.own P (·.toNat < hi)) ids :=
  ⟨fun _ _ ht => ht, fun _ _ _ hi => ⟨lt_of_lt_of_le hi.1 h, hi.2⟩⟩

mutual

theorem Expr.Mirrored.eq_of_own : ∀ {e e' : Expr}, e.Mirrored (.own P Q) e' → e' = e
  | _, _, .literal hid _ => by rw [hid.2]
  | _, _, .grouping hid hinner => by rw [hid.2, hinner.eq_of_own]
  | _, _, .unary hid hop hright => by rw [hid.2, hop.2, hright.eq_of_own]
  | _, _, .binary hid hleft hop hright => by rw [hid.2, hleft.eq_of_own, hop.2, hright.eq_of_own]
  | _, _, .logical hid hleft hop hright => by rw [hid.2, hleft.eq_of_own, hop.2, hright.eq_of_own]
  | _, _, .var hid hname => by rw [hid.2, hname.2]
  | _, _, .assign hid hname hvalue => by rw [hid.2, hname.2, hvalue.eq_of_own]
  | _, _, .call hid hcallee hparen hargs => by
    rw [hid.2, hcallee.eq_of_own, hparen.2, hargs.eq_of_own]
  | _, _, .get hid hobject hname => by rw [hid.2, hobject.eq_of_own, hname.2]
  | _, _, .set hid hobject hname hvalue => by
    rw [hid.2, hobject.eq_of_own, hname.2, hvalue.eq_of_own]
  | _, _, .this hid hkeyword => by rw [hid.2, hkeyword.2]
  | _, _, .super hid hkeyword hmethod => by rw [hid.2, hkeyword.2, hmethod.2]

theorem MirroredArgs.eq_of_own : ∀ {es es' : List Expr}, MirroredArgs (.own P Q) es es' → es' = es
  | _, _, .nil => rfl
  | _, _, .cons he hes => by rw [he.eq_of_own, hes.eq_of_own]

end

theorem Distances.agree_own (d : Distances) : d.Agree (.own P Q) d := by
  rintro id id' ⟨-, rfl⟩
  rfl

theorem Step.Read.pass {step : Step} {made made' : Nat} (h : step.Read μ made made')
    (hpass : ∀ ids, Fresh made (step.madeAfter made) ids → μ.Passes ν ids) :
    step.Read ν made made' := by
  have hcomplaint : ∀ x x' : Complaint, x.Mirrored μ x' → x.Mirrored ν x' := fun x x' hx =>
    ⟨(hpass [] (.nil _ _)).token _ _ hx.token, hx.error⟩
  cases step with
  | run source =>
    obtain ⟨-, hfresh, -⟩ := program_made (P := fun _ => True)
      (fun t (_ : t ∈ tokens source) => trivial) made
    exact ⟨h.statements.pass _ (hpass _ hfresh), h.complaints.imp hcomplaint⟩
  | evaluate source =>
    obtain ⟨hmade, -⟩ := parsedExpr_made (P := fun _ => True)
      (fun t (_ : t ∈ tokens source) => trivial) made
    refine ⟨?_, h.complaints.imp hcomplaint⟩
    have hexpr := h.expr?
    generalize (ParsedExpr.ofTokens (tokens source) made).expr? = e,
      (ParsedExpr.ofTokens (tokens source) made').expr? = e' at hexpr hmade
    cases hexpr with
    | none => exact .none
    | @some e e' he => exact .some (he.pass e (hpass _ (hmade e rfl).2))

/-- A step is mirrored by itself, through the identities that it uses up. -/
theorem Step.read_own (step : Step) (h : ∀ t ∈ tokens step.source, P t) (made : Nat) :
    step.Read (.own P (·.toNat < step.madeAfter made)) made made := by
  have hsame : ∀ t ∈ tokens step.source, (Mirror.own P fun _ => True).token t t :=
    fun t ht => ⟨h t ht, rfl⟩
  have hread : step.Read (.own P fun _ => True) made made :=
    (Step.read_mirrored hsame fun _ => ⟨trivial, rfl⟩).1
  refine hread.pass fun ids hfresh => ⟨fun _ _ ht => ht, ?_⟩
  exact fun i hi i' hsame => ⟨hfresh.toNat_lt hi, hsame.2⟩

/-- The code that a session holds on to has tokens with `P` and used identities, and distances are
recorded for used identities only. -/
structure Session.Holds (P : Token → Prop) (s : Session) : Prop where
  machine : s.machine.Mirrored (.own P (·.toNat < s.made)) s.machine
  recorded : ∀ id : NodeId, s.made ≤ id.toNat → s.machine.distances.find? id = none

namespace Session

variable {s next : Session} {fuel : Nat} {a : Answer} {step : Step}

theorem Holds.withoutOutput (h : s.Holds P) : s.withoutOutput.Holds P where
  machine := { h.machine with output := rfl }
  recorded := h.recorded

theorem Holds.perform (h : s.Holds P) (htokens : ∀ t ∈ tokens step.source, P t)
    (hstep : s.perform fuel step = some (a, next)) : next.Holds P := by
  have hids : s.made ≤ next.made := by
    rw [made_of_perform hstep]
    exact step.le_madeAfter s.made
  refine ⟨?_, unrecorded_of_perform hstep h.recorded⟩
  have hread := step.read_own htokens s.made
  rw [← made_of_perform hstep] at hread
  have hmachine : s.machine.Mirrored (.own P (·.toNat < next.made)) s.machine :=
    Machine.Mirrored.pass (Mirror.own_passes hids) h.machine (Distances.agree_own _) rfl
  have hmirrored := perform_mirrored Mirror.own_oneToOne hmachine hread fuel
  rw [hstep] at hmirrored
  cases hmirrored with
  | some hend => exact hend.machine

theorem Holds.play {history : History} (h : s.Holds P)
    (htokens : ∀ entry ∈ history, ∀ t ∈ tokens entry.2.source, P t)
    (hplay : s.play history = some next) : next.Holds P := by
  refine Session.play_keeps hplay h ?_
  intro entry hentry s₁ a s₂ hs₁ hstep
  exact hs₁.perform (htokens entry hentry) hstep

end Session

end Lox
