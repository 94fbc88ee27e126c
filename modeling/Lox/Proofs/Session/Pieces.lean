import Lox.Proofs.Mirror.Joining
import Lox.Proofs.Mirror.Moving
import Lox.Proofs.Session.Responses

/-!
# Programs in pieces

A source that a session has run without a report may be followed by another one in the same session,
or the two may be run at once, one below the other. Both come to the same: the same is printed, the
same error is reported if there is one, and the session is left in the same state, except that
tokens of the second source stand on later lines.

A token does not say which source it comes from, and equal tokens may come from both. So both runs
are compared with a third one, of the second source below as many blank lines as any source so far
has lines (`below`). There the line of a token tells where it comes from (`Token.StemsFrom`). The
run of the second source, and what the run of the whole does after the first source, are the images
of that run under which the tokens of the second source move up to where they stand, and all others
stay (`settledLine`).

The run of the first source in the whole program is mirrored by its run alone, because neither sees
the nodes of the second one, as long as the identities of nodes have not come round. Then the second
source is run on mirrored machines; the output of the whole starts with what the first has printed.
-/

namespace Lox

/-! ### Blank lines -/

/-- A source with blank lines above it. -/
def below : Nat → String → String
  | 0, source => source
  | k + 1, source => "\n" ++ below k source

theorem below_succ (k : Nat) (source : String) :
    below (k + 1) source = "" ++ "\n" ++ below k source := by
  rw [String.empty_append]
  rfl

theorem tokens_below (k : Nat) (source : String) :
    tokens (below k source) = (tokens source).map (Token.later k) := by
  induction k with
  | zero => exact (List.map_id _).symm
  | succ k ih =>
    have hempty : lexicalReports "" = [] := by decide +kernel
    have honly : tokensOnly "" = [] := by decide +kernel
    rw [below_succ, tokens_lines _ _ (not_unterminated hempty), ih, honly, List.nil_append,
      List.map_map]
    rfl

theorem lexicalReports_below {source : String} (h : lexicalReports source = []) (k : Nat) :
    lexicalReports (below k source) = [] := by
  induction k with
  | zero => exact h
  | succ k ih =>
    rw [below_succ]
    exact lexicalReports_lines (by decide +kernel) ih

/-! ### Where tokens come from -/

/-- A token comes from an earlier source, or from a source that is below the lines of them all. Its
line tells from which. -/
def Token.StemsFrom (earlier : List String) (source : String) (t : Token) : Prop :=
  t.line ≤ lastLine earlier ∧ ofSources earlier t ∨
    lastLine earlier < t.line ∧ t ∈ tokens (below (lastLine earlier) source)

/-- The line of a token if there are `k` lines above a source in place of `room`. Tokens in that
room do not come from the source and stay. -/
def settledLine (room k line : Nat) : Nat := if line ≤ room then line else line - room + k

theorem Token.moved_later {t : Token} (ht : 1 ≤ t.line) (room k : Nat) :
    (t.later room).moved (settledLine room k) = t.later k := by
  have hline : ¬t.line + room ≤ room := by omega
  simp only [Token.moved, settledLine, Token.later, if_neg hline, Nat.add_sub_cancel]

/-- Tokens of the source move to where they stand with `k` lines above it, and all others stay. -/
abbrev Mirror.settling (earlier : List String) (source : String) (k : Nat) (printed : String) :
    Mirror :=
  .moving (Token.StemsFrom earlier source) (settledLine (lastLine earlier) k) printed

section Settling

variable {earlier : List String} {source printed : String} {k : Nat}

theorem ofSources.stays {t : Token} (ht : ofSources earlier t) :
    t.StemsFrom earlier source ∧ settledLine (lastLine earlier) k t.line = t.line := by
  obtain ⟨other, hother, hmem⟩ := ht
  have hline := line_le_lastLine hother hmem
  exact ⟨.inl ⟨hline, other, hother, hmem⟩, if_pos hline⟩

/-- The tokens of the source move to where they stand. -/
theorem Mirror.settling_tokens (earlier : List String) (source : String) (k : Nat)
    (printed : String) :
    List.Forall₂ (Mirror.settling earlier source k printed).token
      (tokens (below (lastLine earlier) source)) ((tokens source).map (Token.later k)) := by
  have hbelow := tokens_below (lastLine earlier) source
  rw [hbelow, List.forall₂_map_left_iff, List.forall₂_map_right_iff]
  refine List.forall₂_same.mpr fun t ht => ?_
  have hline := (line_of_mem_tokens ht).1
  refine ⟨.inr ⟨?_, hbelow ▸ List.mem_map_of_mem ht⟩, (Token.moved_later hline _ k).symm⟩
  exact Nat.lt_add_of_pos_left hline

end Settling

/-- What is read of a source. -/
abbrev programOf (source : String) (made : Nat) : Program := Program.ofTokens (tokens source) made

/-- What is found in a source. -/
abbrev findingsOf (source : String) (made : Nat) : List Finding :=
  programFindings (programOf source made).statements

section Pieces

variable {P : Token → Prop} {s : Session} {a b : String} {fuel : Nat} {m m' : Machine}
  {earlier : List String} {k made : Nat} {printed : String}

theorem Machine.Mirrored.settling {Q : NodeId → Prop}
    (h : m.Mirrored (.own (ofSources earlier) Q) m') {fs fs' : List Finding}
    (hfs : FindingsMirrored (.settling earlier b k m.output.text) fs fs')
    (hdistances : m'.distances = m.distances.recordAll fs') :
    Machine.Mirrored (.settling earlier b k m.output.text)
      (Machine.resolved { m with output := m.output.cleared } fs) m' where
  heap := h.heap.pass (Mirror.own_passes_moving fun _ ht => ht.stays)
  globals := h.globals
  current := h.current
  distances := by
    rintro i i' rfl
    rw [hdistances, Distances.recordAll_moving hfs]
    rfl
  clock := h.clock
  output := by
    rw [h.output]
    exact ⟨rfl, (String.append_empty ..).symm⟩

/-- A source without mistakes has none below blank lines, and is read and resolved alike. -/
theorem Accepted.below (hb : Accepted b made) (earlier : List String) :
    Accepted (below (lastLine earlier) b) made ∧
      MirroredAll (.settling earlier b 0 "")
        (programOf (below (lastLine earlier) b) made).statements (programOf b made).statements ∧
      (programOf b made).made = (programOf (below (lastLine earlier) b) made).made := by
  have htokens := Mirror.settling_tokens earlier b 0 ""
  rw [show (tokens b).map (Token.later 0) = tokens b from List.map_id _] at htokens
  obtain ⟨hread, hmade⟩ := Program.ofTokens_mirrored htokens (find?_isEof_tokens _)
    (show (Mirror.settling earlier b 0 "").made made made from rfl)
  have hcomplaints := hread.complaints
  rw [hb.complaints, List.forall₂_nil_right_iff] at hcomplaints
  have hviolations := hread.statements.violations_iff.mp hb.violations
  exact ⟨⟨lexicalReports_below hb.lexical _, hcomplaints, hviolations⟩, hread.statements, hmade⟩

theorem Accepted.lines {c : String} (ha : Accepted a made) (hb : lexicalReports b = [])
    (hc : Accepted c (programOf a made).made) {moved : List Stmt} {μ : Mirror}
    (hwhole : (programOf (a ++ "\n" ++ b) made).statements =
      (programOf a made).statements ++ moved)
    (hcomplaints : (programOf (a ++ "\n" ++ b) made).complaints = [])
    (hmoved : FindingsMirrored μ (findingsOf c (programOf a made).made) (programFindings moved)) :
    Accepted (a ++ "\n" ++ b) made := by
  refine ⟨lexicalReports_lines ha.lexical hb, hcomplaints, ?_⟩
  have hnone := findingReports_mirrored hmoved
  rw [show findingReports (findingsOf c _) = [] from hc.violations,
    List.forall₂_nil_left_iff] at hnone
  have hfirst : findingReports (findingsOf a made) = [] := ha.violations
  rw [hwhole, programFindings_append]
  show List.filterMap Finding.report? (_ ++ _) = []
  rw [List.filterMap_append]
  show findingReports _ ++ findingReports _ = []
  rw [hfirst, hnone, List.append_nil]

end Pieces

end Lox
