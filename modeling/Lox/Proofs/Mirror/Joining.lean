import Lox.Proofs.Evaluation.Fuel
import Lox.Proofs.Grammar.Lookahead
import Lox.Proofs.Mirror.Sessions

/-!
# Sources one below the other

The lines of one source followed by those of another are scanned, read, resolved and executed as the
two sources are, one after the other. The scanner starts every line afresh, unless it is within a
string; a declaration does not look at what follows it, as long as that is no `else`; at the top
level no scope is open; and the statements of a program are executed in order. The tokens of the
second source are found on later lines, and nothing else about them changes.
-/

namespace Lox

/-! ### Scanning -/

theorem report?_of_accepted {source : String} (h : lexicalReports source = []) :
    ∀ item ∈ scan source, item.report? = none :=
  List.filterMap_eq_nil_iff.mp h

theorem not_unterminated {source : String} (h : lexicalReports source = []) (line : Nat) :
    Item.error line .unterminatedString ∉ scan source := by
  intro hmem
  have hnone := report?_of_accepted h _ hmem
  simp [Item.report?] at hnone

theorem lexicalReports_lines {a b : String} (ha : lexicalReports a = [])
    (hb : lexicalReports b = []) : lexicalReports (a ++ "\n" ++ b) = [] := by
  rw [lexicalReports, scan_lines a b (not_unterminated ha), List.filterMap_eq_nil_iff]
  intro item hitem
  rcases List.mem_append.mp hitem with hitem | hitem
  · refine report?_of_accepted ha item ?_
    rw [scan_eq]
    exact List.mem_append_left _ hitem
  · obtain ⟨item, hmem, rfl⟩ := List.mem_map.mp hitem
    have hnone := report?_of_accepted hb item hmem
    cases item with
    | token t => rfl
    | error line cause => simp [Item.report?] at hnone

/-! ### Reading -/

theorem Cursor.ofTokens_append {ts : List Token} {eof : Token} (hts : ∀ t ∈ ts, t.isEof = false)
    (heof : eof.isEof = true) (made : Nat) :
    Cursor.ofTokens (ts ++ [eof]) made = ⟨ts, eof, made, []⟩ := by
  have hall : ∀ t ∈ ts, (!t.isEof) = true := fun t ht => by rw [hts t ht]; rfl
  have hnone : ts.find? Token.isEof = none := by
    rw [List.find?_eq_none]
    intro t ht
    simp [hts t ht]
  simp [Cursor.ofTokens, List.takeWhile_append_of_pos hall, heof, hnone]

theorem Program.declarations_of_clean {ts : List Token} {made : Nat}
    (h : (Program.ofTokens ts made).complaints = []) :
    ∃ d, Parse.declarations (Parse.fuelFor ts.length) false (Cursor.ofTokens ts made) =
        .ok (Program.ofTokens ts made).statements d ∧
      d.ahead = [] ∧ d.complaints = [] ∧ d.made = (Program.ofTokens ts made).made := by
  have hfuel := Cursor.length_ahead_ofTokens ts made
  have hread := (Parse.statementRecognizes (Parse.fuelFor ts.length)).declarations false
    (Cursor.ofTokens ts made) (by rw [Parse.fuelFor]; omega)
  unfold Program.ofTokens at h ⊢
  split at h
  · rename_i statements d heq
    obtain ⟨-, hlength, -⟩ := Parse.Spec.of_ok hread heq
    exact ⟨d, heq, List.length_eq_zero_iff.mp (Nat.lt_one_iff.mp hlength), h, rfl⟩
  · simp [Cursor.complain] at h
  · rename_i heq
    exact absurd heq (Parse.Spec.ended hread)

theorem Program.head_ne_else {ts : List Token} {made : Nat}
    (h : (Program.ofTokens ts made).complaints = []) :
    ∀ t ∈ (Cursor.ofTokens ts made).ahead.head?, t.kind ≠ .keyword .else_ := by
  intro t ht hkind
  have hhead : (Cursor.ofTokens ts made).kinds.head? = some (.keyword .else_) := by
    rw [Cursor.kinds, List.head?_map, ht, ← hkind]
    rfl
  have hword := derives_of_program h
  rcases derives_many.mp (derives_rule.mp hword) with hnil | ⟨u, v, heq, hfirst, -⟩
  · simp [hnil] at hhead
  · exact absurd (heq ▸ hhead) (((declaration_begins hfirst).append v).head?_ne rfl)

/-- The end of file after a source. -/
def endOf (source : String) : Token := ⟨.eof, "", 1 + newlines source.toList⟩

theorem Cursor.ofTokens_tokens (source : String) (made : Nat) :
    Cursor.ofTokens (tokens source) made = ⟨tokensOnly source, endOf source, made, []⟩ := by
  rw [tokens_eq]
  exact Cursor.ofTokens_append (tokensOnly_notEof source) rfl made

section Lines

variable {a b : String} {made : Nat}

theorem Cursor.ofTokens_lines (ha : lexicalReports a = []) :
    Cursor.ofTokens (tokens (a ++ "\n" ++ b)) made =
      ⟨tokensOnly a ++ (tokensOnly b).map (Token.later (1 + newlines a.toList)),
        (endOf b).later (1 + newlines a.toList), made, []⟩ := by
  have hnot : ∀ t ∈ tokensOnly a ++ (tokensOnly b).map (Token.later (1 + newlines a.toList)),
      t.isEof = false := by
    intro t ht
    rcases List.mem_append.mp ht with ht | ht
    · exact tokensOnly_notEof a t ht
    · obtain ⟨u, hu, rfl⟩ := List.mem_map.mp ht
      exact tokensOnly_notEof b u hu
  rw [tokens_lines a b (not_unterminated ha), tokens_eq b, List.map_append, ← List.append_assoc]
  exact Cursor.ofTokens_append hnot rfl made

/-- The fuel for both sources is enough for the first, and leaves enough for the second. -/
theorem fuelFor_lines (ha : lexicalReports a = []) :
    Parse.fuelFor (tokens a).length ≤ Parse.fuelFor (tokens (a ++ "\n" ++ b)).length ∧
      (tokensOnly a).length + Parse.fuelFor (tokens b).length ≤
        Parse.fuelFor (tokens (a ++ "\n" ++ b)).length := by
  have hwhole := congrArg List.length (tokens_lines a b (not_unterminated ha))
  have hfirst := congrArg List.length (tokens_eq a)
  have hsecond := congrArg List.length (tokens_eq b)
  simp only [List.length_append, List.length_map, List.length_singleton] at hwhole hfirst hsecond
  simp only [Parse.fuelFor]
  constructor <;> omega

variable {μ : Mirror}

theorem Cursor.Mirrored.head_ne {c c' : Cursor} (h : c.Mirrored μ c') {kind : TokenKind}
    (hhead : ∀ t ∈ c.ahead.head?, t.kind ≠ kind) : ∀ t ∈ c'.ahead.head?, t.kind ≠ kind := by
  intro t ht
  have hahead := h.ahead
  generalize c.ahead = us, c'.ahead = vs at hahead hhead ht
  cases hahead with
  | nil => cases ht
  | cons hu _ =>
    cases ht
    rw [μ.kind hu]
    exact hhead _ rfl

theorem Cursor.followedBy_eq {d : Cursor} (hahead : d.ahead = []) (hclean : d.complaints = [])
    (b : String) (k : Nat) :
    d.followedBy ((tokensOnly b).map (Token.later k)) ((endOf b).later k) =
      Cursor.ofTokens ((tokens b).map (Token.later k)) d.made := by
  have hnot : ∀ t ∈ (tokensOnly b).map (Token.later k), t.isEof = false := by
    intro t ht
    obtain ⟨u, hu, rfl⟩ := List.mem_map.mp ht
    exact tokensOnly_notEof b u hu
  rw [tokens_eq, List.map_append]
  refine Eq.trans ?_ (Cursor.ofTokens_append hnot rfl d.made).symm
  simp only [Cursor.followedBy, hahead, hclean, List.nil_append]
  rfl

/-- The statements of the second source are read after those of the first one. They mirror what is
read of any source `c` with corresponding tokens. -/
theorem Program.ofTokens_lines {c : String} (ha : lexicalReports a = [])
    (hfirst : (Program.ofTokens (tokens a) made).complaints = [])
    (hsecond :
      (Program.ofTokens (tokens c) (Program.ofTokens (tokens a) made).made).complaints = [])
    (htokens : List.Forall₂ μ.token (tokens c)
      ((tokens b).map (Token.later (1 + newlines a.toList))))
    (hmade : ∀ i j, μ.made i j ↔ j = i) :
    ∃ moved, (Program.ofTokens (tokens (a ++ "\n" ++ b)) made).statements =
        (Program.ofTokens (tokens a) made).statements ++ moved ∧
      MirroredAll μ
        (Program.ofTokens (tokens c) (Program.ofTokens (tokens a) made).made).statements moved ∧
      (Program.ofTokens (tokens (a ++ "\n" ++ b)) made).complaints = [] ∧
      (Program.ofTokens (tokens (a ++ "\n" ++ b)) made).made =
        (Program.ofTokens (tokens c) (Program.ofTokens (tokens a) made).made).made := by
  have hhead := Program.head_ne_else hsecond
  obtain ⟨d, hrun, hahead, hclean, hfirstMade⟩ := Program.declarations_of_clean hfirst
  obtain ⟨e, hlater, -, hlast, hend⟩ := Program.declarations_of_clean hsecond
  rw [← hfirstMade] at hhead hlater
  have hstart : (Cursor.ofTokens (tokens c) d.made).Mirrored μ
      (d.followedBy ((tokensOnly b).map (Token.later (1 + newlines a.toList)))
        ((endOf b).later (1 + newlines a.toList))) := by
    rw [Cursor.followedBy_eq hahead hclean]
    exact Cursor.ofTokens_mirrored htokens (find?_isEof_tokens c) ((hmade _ _).mpr rfl)
  have helse := hstart.head_ne hhead
  rw [Cursor.followedBy, hahead, List.nil_append] at helse
  rw [Cursor.ofTokens_tokens] at hrun
  have hlength : (tokens c).length = (tokens b).length := by
    rw [htokens.length_eq, List.length_map]
  -- the first source is read as before, and then the second one in its place
  obtain ⟨k, hk, hwhole⟩ := Parse.declarations_followedBy helse
    ((endOf b).later (1 + newlines a.toList)) hrun hclean (fuelFor_lines ha).1 (fuelFor_lines ha).2
  rw [← hlength] at hk
  have hmirror := (Parse.declarationMirrored μ hk).declarations false _ _ hstart
  rw [hlater] at hmirror
  generalize hmoved : Parse.declarations k false (d.followedBy _ _) = r at hmirror
  cases hmirror with
  | @ok _ moved _ e' hstatements he =>
    have hcomplaints := he.complaints
    rw [hlast, List.forall₂_nil_left_iff] at hcomplaints
    have hcursor : Cursor.ofTokens (tokens (a ++ "\n" ++ b)) made =
        Cursor.followedBy ⟨tokensOnly a, endOf a, made, []⟩
          ((tokensOnly b).map (Token.later (1 + newlines a.toList)))
          ((endOf b).later (1 + newlines a.toList)) := Cursor.ofTokens_lines ha
    have hprogram : Program.ofTokens (tokens (a ++ "\n" ++ b)) made =
        ⟨(Program.ofTokens (tokens a) made).statements ++ moved, e'.complaints, e'.made⟩ := by
      rw [Program.ofTokens, hcursor, hwhole, Parse.prepend, Parse.bind_of_ok hmoved]
      rfl
    refine ⟨moved, congrArg Program.statements hprogram, hfirstMade ▸ hstatements,
      (congrArg Program.complaints hprogram).trans hcomplaints, ?_⟩
    rw [hprogram, ← hend]
    exact (hmade _ _).mp he.made

end Lines

/-! ### Resolving -/

theorem Stmt.resolve_global (ctx : Context) (s : Stmt) : (s.resolve ctx []).2 = [] := by
  cases s with
  | ifElse cond thenBranch elseBranch =>
    have hthen := thenBranch.resolve_global ctx
    cases elseBranch with
    | none => exact hthen
    | some elseBranch =>
      show (elseBranch.resolve ctx (thenBranch.resolve ctx []).2).2 = []
      rw [hthen]
      exact elseBranch.resolve_global ctx
  | while_ cond body => exact body.resolve_global ctx
  | _ => rfl
termination_by structural s

theorem programFindings_append (xs ys : List Stmt) :
    programFindings (xs ++ ys) = programFindings xs ++ programFindings ys := by
  unfold programFindings
  induction xs with
  | nil => rfl
  | cons s xs ih =>
    show (s.resolve {} []).1 ++ (resolveAll {} (s.resolve {} []).2 (xs ++ ys)).1 =
      ((s.resolve {} []).1 ++ (resolveAll {} (s.resolve {} []).2 xs).1) ++ (resolveAll {} [] ys).1
    rw [s.resolve_global, ih, List.append_assoc]

/-! ### Executing -/

end Lox
