import Lox.Proofs.Mirror.Moving
import Lox.Proofs.Renaming.Basic

/-!
# Occurrences set apart

Two occurrences of a name on the same line are equal tokens, also where only one of them belongs to
a variable that is renamed. `apart` puts every token of a source on a line of its own, below the
lines of all earlier sources. In a run of the tree that is read from these tokens, the token that an
error blames tells the place in the source, and `homeLine` leads back to the line there. The
renaming does not look at lines: it takes trees that differ in them to such trees
(`MirroredAll.renameLocal`).
-/

namespace Lox

/-- All tokens move to other lines. -/
abbrev Mirror.relining (line : Nat → Nat) : Mirror := .moving (fun _ => True) line ""

variable {ρ : Renaming} {target : Path} {line : Nat → Nat}

section Tokens

variable {t t' : Token}

theorem Renaming.token_relining (h : (Mirror.relining line).token t t') :
    (Mirror.relining line).token (ρ.token t) (ρ.token t') := by
  obtain ⟨-, rfl⟩ := h
  refine ⟨trivial, ?_⟩
  unfold Renaming.token Token.moved
  dsimp only
  split_ifs <;> rfl

theorem Renaming.declaration_relining (marked : Bool)
    (h : (Mirror.relining line).token t t') :
    (Mirror.relining line).token (ρ.declaration marked t)
      (ρ.declaration marked t') := by
  cases marked with
  | false => exact h
  | true => exact token_relining h

end Tokens

theorem declaresVar_mirrored {μ : Mirror} {body body' : List Stmt} (h : MirroredAll μ body body')
    (x : String) : declaresVar x body' = declaresVar x body := by
  induction body generalizing body' with
  | nil =>
    cases h
    rfl
  | cons s rest ih =>
    cases h with
    | cons hs hrest =>
      unfold declaresVar at ih ⊢
      rw [List.any_cons, List.any_cons, ih hrest]
      cases hs with
      | var hname hinit =>
        dsimp only
        rw [μ.lexeme hname]
      | _ => rfl

theorem any_lexeme_mirrored {μ : Mirror} {ts ts' : List Token} (h : List.Forall₂ μ.token ts ts')
    (x : String) : (ts'.any fun t => t.lexeme == x) = ts.any fun t => t.lexeme == x := by
  induction h with
  | nil => rfl
  | cons ht hrest ih => rw [List.any_cons, List.any_cons, ih, μ.lexeme ht]

mutual

theorem Expr.Mirrored.rename {marks : Marks} : ∀ {e e' : Expr},
    e.Mirrored (.relining line) e' →
    (e.rename ρ marks).Mirrored (.relining line) (e'.rename ρ marks)
  | _, _, .literal hid value => .literal hid value
  | _, _, .grouping hid h => .grouping hid h.rename
  | _, _, .unary hid hop h => .unary hid hop h.rename
  | _, _, .binary hid hl hop hr => .binary hid hl.rename hop hr.rename
  | _, _, .logical hid hl hop hr => .logical hid hl.rename hop hr.rename
  | _, _, .var rfl hname => .var rfl (Renaming.declaration_relining _ hname)
  | _, _, .assign rfl hname h => .assign rfl (Renaming.declaration_relining _ hname) h.rename
  | _, _, .call hid hc hparen ha => .call hid hc.rename hparen ha.rename
  | _, _, .get hid h hname => .get hid h.rename hname
  | _, _, .set hid ho hname hv => .set hid ho.rename hname hv.rename
  | _, _, .this hid h => .this hid h
  | _, _, .super hid hk hm => .super hid hk hm

theorem MirroredArgs.rename {marks : Marks} : ∀ {es es' : List Expr},
    MirroredArgs (.relining line) es es' →
    MirroredArgs (.relining line) (renameArgs ρ marks es)
      (renameArgs ρ marks es')
  | _, _, .nil => .nil
  | _, _, .cons h hs => .cons h.rename hs.rename

end

mutual

theorem Stmt.Mirrored.rename : ∀ {s s' : Stmt} {marks : Marks} {path : Path},
    s.Mirrored (.relining line) s' →
    (s.rename ρ target marks path).Mirrored (.relining line)
      (s'.rename ρ target marks path)
  | _, _, _, _, .expression h => .expression h.rename
  | _, _, _, _, .print h => .print h.rename
  | _, _, _, _, .var hname .none => .var (Renaming.declaration_relining _ hname) .none
  | _, _, _, _, .var hname (.some h) =>
    .var (Renaming.declaration_relining _ hname) (.some h.rename)
  | _, _, _, _, .block h => by
    unfold Stmt.rename
    rw [declaresVar_mirrored h]
    exact .block h.rename
  | _, _, _, _, .ifThen hc ht => .ifThen hc.rename ht.rename
  | _, _, _, _, .ifElse hc ht he => .ifElse hc.rename ht.rename he.rename
  | _, _, _, _, .while_ hc h => .while_ hc.rename h.rename
  | _, _, _, _, .function h => .function h.rename
  | _, _, _, _, .return_ hk .none => .return_ hk .none
  | _, _, _, _, .return_ hk (.some h) => .return_ hk (.some h.rename)
  | _, _, _, _, .class_ hname .none hm => .class_ hname .none hm.rename
  | _, _, _, _, .class_ hname (.some h) hm => .class_ hname (.some h.rename) hm.rename

theorem MirroredAll.rename : ∀ {ss ss' : List Stmt} {marks : Marks} {path : Path} {i : Nat},
    MirroredAll (.relining line) ss ss' →
    MirroredAll (.relining line) (renameAll ρ target marks path i ss)
      (renameAll ρ target marks path i ss')
  | _, _, _, _, _, .nil => .nil
  | _, _, _, _, _, .cons h hs => .cons h.rename hs.rename

theorem FunDecl.Mirrored.rename : ∀ {d d' : FunDecl} {marks : Marks} {path : Path},
    d.Mirrored (.relining line) d' →
    (d.rename ρ target marks path).Mirrored (.relining line)
      (d'.rename ρ target marks path)
  | _, _, _, _, .mk hname hps h => by
    unfold FunDecl.rename FunDecl.declaresVar
    dsimp only [FunDecl.params, FunDecl.body]
    rw [declaresVar_mirrored h, any_lexeme_mirrored hps]
    refine .mk hname ?_ h.rename
    rw [List.forall₂_map_left_iff, List.forall₂_map_right_iff]
    exact hps.imp fun _ _ ht => Renaming.declaration_relining _ ht

theorem MirroredMethods.rename : ∀ {ds ds' : List FunDecl} {marks : Marks} {path : Path} {i : Nat},
    MirroredMethods (.relining line) ds ds' →
    MirroredMethods (.relining line) (renameMethods ρ target marks path i ds)
      (renameMethods ρ target marks path i ds')
  | _, _, _, _, _, .nil => .nil
  | _, _, _, _, _, .cons h hs => .cons h.rename hs.rename

end

theorem MirroredAll.renameLocal {body body' : List Stmt}
    (h : MirroredAll (.relining line) body body') :
    MirroredAll (.relining line) (renameLocal ρ target body)
      (renameLocal ρ target body') :=
  h.rename

end Lox
