import Lox.Proofs.Grammar.RoundTrip

/-!
# Images of one tree

Trees with the same text as a third tree have the same text (`Stmt.Mirrored.common`). So two token
lists that were both read as images of some tree are read alike.
-/

namespace Lox

theorem Mirror.sameText_common {t u v : Token} (hu : Mirror.sameText.token t u)
    (hv : Mirror.sameText.token t v) : Mirror.sameText.token u v :=
  ⟨hv.1.trans hu.1.symm, hv.2.trans hu.2.symm⟩

mutual

/-- Two expressions that have the same text as a third one have the same text. -/
theorem Expr.Mirrored.common : ∀ {e a b : Expr}, e.Mirrored .sameText a → e.Mirrored .sameText b →
    a.Mirrored .sameText b
  | _, _, _, .literal _ value, .literal _ _ => .literal trivial value
  | _, _, _, .grouping _ h, .grouping _ h' => .grouping trivial (h.common h')
  | _, _, _, .unary _ hop h, .unary _ hop' h' =>
    .unary trivial (Mirror.sameText_common hop hop') (h.common h')
  | _, _, _, .binary _ hl hop hr, .binary _ hl' hop' hr' =>
    .binary trivial (hl.common hl') (Mirror.sameText_common hop hop') (hr.common hr')
  | _, _, _, .logical _ hl hop hr, .logical _ hl' hop' hr' =>
    .logical trivial (hl.common hl') (Mirror.sameText_common hop hop') (hr.common hr')
  | _, _, _, .var _ hname, .var _ hname' => .var trivial (Mirror.sameText_common hname hname')
  | _, _, _, .assign _ hname h, .assign _ hname' h' =>
    .assign trivial (Mirror.sameText_common hname hname') (h.common h')
  | _, _, _, .call _ hc hparen ha, .call _ hc' hparen' ha' =>
    .call trivial (hc.common hc') (Mirror.sameText_common hparen hparen') (ha.common ha')
  | _, _, _, .get _ h hname, .get _ h' hname' =>
    .get trivial (h.common h') (Mirror.sameText_common hname hname')
  | _, _, _, .set _ ho hname hv, .set _ ho' hname' hv' =>
    .set trivial (ho.common ho') (Mirror.sameText_common hname hname') (hv.common hv')
  | _, _, _, .this _ h, .this _ h' => .this trivial (Mirror.sameText_common h h')
  | _, _, _, .super _ hk hm, .super _ hk' hm' =>
    .super trivial (Mirror.sameText_common hk hk') (Mirror.sameText_common hm hm')

theorem MirroredArgs.common : ∀ {es as bs : List Expr}, MirroredArgs .sameText es as →
    MirroredArgs .sameText es bs → MirroredArgs .sameText as bs
  | _, _, _, .nil, .nil => .nil
  | _, _, _, .cons h hs, .cons h' hs' => .cons (h.common h') (hs.common hs')

end

theorem Expr.Mirrored.common? {e a b : Option Expr} (ha : Option.Rel (Expr.Mirrored .sameText) e a)
    (hb : Option.Rel (Expr.Mirrored .sameText) e b) : Option.Rel (Expr.Mirrored .sameText) a b := by
  cases ha with
  | none =>
    cases hb
    exact .none
  | some ha =>
    cases hb with
    | some hb => exact .some (ha.common hb)

theorem forall₂_common {ts us vs : List Token} (hus : List.Forall₂ Mirror.sameText.token ts us)
    (hvs : List.Forall₂ Mirror.sameText.token ts vs) :
    List.Forall₂ Mirror.sameText.token us vs := by
  induction hus generalizing vs with
  | nil =>
    cases hvs
    exact .nil
  | cons hu _ ih =>
    cases hvs with
    | cons hv hrest => exact .cons (Mirror.sameText_common hu hv) (ih hrest)

mutual

theorem Stmt.Mirrored.common : ∀ {s a b : Stmt}, s.Mirrored .sameText a → s.Mirrored .sameText b →
    a.Mirrored .sameText b
  | _, _, _, .expression h, .expression h' => .expression (h.common h')
  | _, _, _, .print h, .print h' => .print (h.common h')
  | _, _, _, .var hname h, .var hname' h' =>
    .var (Mirror.sameText_common hname hname') (Expr.Mirrored.common? h h')
  | _, _, _, .block h, .block h' => .block (h.common h')
  | _, _, _, .ifThen hc ht, .ifThen hc' ht' => .ifThen (hc.common hc') (ht.common ht')
  | _, _, _, .ifElse hc ht he, .ifElse hc' ht' he' =>
    .ifElse (hc.common hc') (ht.common ht') (he.common he')
  | _, _, _, .while_ hc h, .while_ hc' h' => .while_ (hc.common hc') (h.common h')
  | _, _, _, .function h, .function h' => .function (h.common h')
  | _, _, _, .return_ hk h, .return_ hk' h' =>
    .return_ (Mirror.sameText_common hk hk') (Expr.Mirrored.common? h h')
  | _, _, _, .class_ hname hs hm, .class_ hname' hs' hm' =>
    .class_ (Mirror.sameText_common hname hname') (Expr.Mirrored.common? hs hs') (hm.common hm')

theorem MirroredAll.common : ∀ {ss as bs : List Stmt}, MirroredAll .sameText ss as →
    MirroredAll .sameText ss bs → MirroredAll .sameText as bs
  | _, _, _, .nil, .nil => .nil
  | _, _, _, .cons h hs, .cons h' hs' => .cons (h.common h') (hs.common hs')

theorem FunDecl.Mirrored.common : ∀ {d a b : FunDecl}, d.Mirrored .sameText a →
    d.Mirrored .sameText b → a.Mirrored .sameText b
  | _, _, _, .mk hname hps h, .mk hname' hps' h' =>
    .mk (Mirror.sameText_common hname hname') (forall₂_common hps hps') (h.common h')

theorem MirroredMethods.common : ∀ {ds as bs : List FunDecl}, MirroredMethods .sameText ds as →
    MirroredMethods .sameText ds bs → MirroredMethods .sameText as bs
  | _, _, _, .nil, .nil => .nil
  | _, _, _, .cons h hs, .cons h' hs' => .cons (h.common h') (hs.common hs')

end

end Lox
