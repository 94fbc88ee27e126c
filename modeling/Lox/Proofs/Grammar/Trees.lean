import Mathlib.Data.List.Nodup
import Mathlib.Data.List.Perm.Basic
import Lox.Proofs.Grammar.Reader
import Lox.Proofs.Tree.Shape

/-!
# The trees that are read

Whatever tokens a reader is given, and whether or not it complains on the way, the trees it returns
are formed (`Stmt.Formed`), their tokens come from the input, and the identities of their nodes are
pairwise distinct and were handed out while they were read. The last point holds although an
assignment throws a node away and makes a new one, and although recovery drops whole declarations:
identities are never handed out twice.

`program_made` and `parsedExpr_made` say this of a program and of a single expression.
-/

namespace Lox

/-- The identities of different nodes, all made after the first `lo` and among the first `hi`. -/
def Fresh (lo hi : Nat) (ids : List NodeId) : Prop :=
  ∃ serials : List Nat, serials.Nodup ∧ (∀ i ∈ serials, lo ≤ i ∧ i < hi) ∧
    ids = serials.map UInt32.ofNat

namespace Fresh

variable {lo mid hi : Nat} {xs ys : List NodeId}

theorem nil (lo hi : Nat) : Fresh lo hi [] := ⟨[], List.nodup_nil, by simp, rfl⟩

theorem single (made : Nat) : Fresh made (made + 1) [.ofNat made] :=
  ⟨[made], by simp, by simp, rfl⟩

theorem mono {lo' hi' : Nat} (h : Fresh lo hi xs) (hlo : lo' ≤ lo) (hhi : hi ≤ hi') :
    Fresh lo' hi' xs := by
  obtain ⟨serials, hnodup, hbounds, hxs⟩ := h
  refine ⟨serials, hnodup, fun i hi => ?_, hxs⟩
  have := hbounds i hi
  omega

theorem append (hxs : Fresh lo mid xs) (hys : Fresh mid hi ys) (hlo : lo ≤ mid) (hhi : mid ≤ hi) :
    Fresh lo hi (xs ++ ys) := by
  obtain ⟨early, hearly, hbefore, rfl⟩ := hxs
  obtain ⟨late, hlate, hafter, rfl⟩ := hys
  refine ⟨early ++ late, List.nodup_append.mpr ⟨hearly, hlate, ?_⟩, ?_, List.map_append.symm⟩
  · intro i hi j hj hij
    have h1 := (hbefore i hi).2
    have h2 := (hafter j hj).1
    omega
  · intro i hi
    rcases List.mem_append.mp hi with hi | hi
    · exact ⟨(hbefore i hi).1, lt_of_lt_of_le (hbefore i hi).2 hhi⟩
    · exact ⟨le_trans hlo (hafter i hi).1, (hafter i hi).2⟩

theorem perm (h : Fresh lo hi xs) (hperm : xs.Perm ys) : Fresh lo hi ys := by
  obtain ⟨serials, hnodup, hbounds, rfl⟩ := h
  have hsame : List.Forall₂ (fun x i => x = UInt32.ofNat i) (serials.map UInt32.ofNat) serials :=
    List.forall₂_map_left_iff.mpr (List.forall₂_same.mpr fun _ _ => rfl)
  obtain ⟨others, heq, hothers⟩ := List.perm_comp_forall₂ hperm.symm hsame
  refine ⟨others, hothers.nodup_iff.mpr hnodup, fun i hi => hbounds i (hothers.mem_iff.mp hi), ?_⟩
  rw [← List.forall₂_eq_eq_eq]
  exact List.forall₂_map_right_iff.mpr heq

theorem snoc (hxs : Fresh lo hi xs) (hle : lo ≤ hi) : Fresh lo (hi + 1) (xs ++ [.ofNat hi]) :=
  hxs.append (single hi) hle (Nat.le_succ hi)

theorem sublist (h : Fresh lo hi ys) (hsub : xs.Sublist ys) : Fresh lo hi xs := by
  obtain ⟨serials, hnodup, hbounds, rfl⟩ := h
  obtain ⟨fewer, hfewer, rfl⟩ := List.sublist_map_iff.mp hsub
  exact ⟨fewer, hnodup.sublist hfewer, fun i hi => hbounds i (hfewer.subset hi), rfl⟩

theorem toNat_lt {id : NodeId} (h : Fresh lo hi xs) (hid : id ∈ xs) : id.toNat < hi := by
  obtain ⟨serials, -, hbounds, rfl⟩ := h
  obtain ⟨i, hi, rfl⟩ := List.mem_map.mp hid
  rw [UInt32.toNat_ofNat']
  exact lt_of_le_of_lt (Nat.mod_le _ _) (hbounds i hi).2

/-! The identities are different themselves only as long as they have not gone round. -/

theorem ofNat_inj {i j : Nat} (h₁ : lo ≤ i ∧ i < hi) (h₂ : lo ≤ j ∧ j < hi)
    (hround : hi ≤ lo + UInt32.size) (h : UInt32.ofNat i = UInt32.ofNat j) : i = j := by
  have hmod : i % 4294967296 = j % 4294967296 := by
    simpa using congrArg UInt32.toNat h
  rw [show UInt32.size = 4294967296 from rfl] at hround
  omega

theorem nodup (h : Fresh lo hi xs) (hround : hi ≤ lo + UInt32.size) : xs.Nodup := by
  obtain ⟨serials, hnodup, hbounds, rfl⟩ := h
  exact List.Nodup.map_on (fun i hi j hj => ofNat_inj (hbounds i hi) (hbounds j hj) hround) hnodup

theorem le_toNat {id : NodeId} (h : Fresh lo hi xs) (hround : hi ≤ UInt32.size) (hid : id ∈ xs) :
    lo ≤ id.toNat := by
  obtain ⟨serials, -, hbounds, rfl⟩ := h
  obtain ⟨i, hi, rfl⟩ := List.mem_map.mp hid
  rw [UInt32.toNat_ofNat_of_lt' (lt_of_lt_of_le (hbounds i hi).2 hround)]
  exact (hbounds i hi).1

end Fresh

namespace Parse

variable {α : Type} {P : Token → Prop}

/-- All tokens ahead satisfy `P`. -/
def Ready (P : Token → Prop) (c : Cursor) : Prop := ∀ t ∈ c.ahead, P t

theorem Ready.onward {c d : Cursor} (h : Ready P c) (hcd : c.Onward d) : Ready P d :=
  fun t ht => h t (hcd.mem ht)

theorem Ready.rest {c : Cursor} {t : Token} {rest : List Token} (h : Ready P c)
    (heq : c.ahead = t :: rest) : Ready P { c with ahead := rest } :=
  fun u hu => h u (by rw [heq]; exact List.mem_cons_of_mem t hu)

theorem Ready.head {c : Cursor} {t : Token} {rest : List Token} (h : Ready P c)
    (heq : c.ahead = t :: rest) : P t :=
  h t (by rw [heq]; exact List.mem_cons_self)

/-- The reader returns formed trees, whose nodes it has made itself. -/
def Makes (P : Token → Prop) (formed : α → Prop) (ids : α → List NodeId) (p : Parse α) : Prop :=
  ∀ c, Ready P c → Spec True p c fun a d => formed a ∧ Fresh c.made d.made (ids a)

/-- The reader extends a tree whose nodes were made since `lo`. -/
def Extends (P : Token → Prop) (p : Expr → Parse Expr) : Prop :=
  ∀ c lo e, Ready P c → lo ≤ c.made → e.Formed P → Fresh lo c.made e.ids →
    Spec True (p e) c fun e' d => e'.Formed P ∧ Fresh lo d.made e'.ids

abbrev MakesExpr (P : Token → Prop) (p : Parse Expr) : Prop := Makes P (Expr.Formed P) Expr.ids p

/-! ### Expressions -/

theorem superAccess_makes {keyword : Token} (hkey : keyword.Is P (.keyword .super)) :
    MakesExpr P (superAccess keyword) := by
  intro c hc
  refine spec_expect fun dot rest hdot _ => spec_expect fun method rest' hmethod hkind => ?_
  refine spec_freshId (spec_pure ⟨⟨hkey, hkind, ?_⟩, Fresh.single _⟩)
  exact (hc.rest hdot).head hmethod

theorem property_extends : Extends P property := by
  intro c lo e hc hlo hformed hfresh
  refine spec_expect fun name rest heq hkind => spec_freshId ?_
  refine spec_pure ⟨⟨⟨hkind, hc.head heq⟩, hformed⟩, ?_⟩
  exact hfresh.snoc hlo

theorem assignment_makes {c : Cursor} {lo mid : Nat} {target value : Expr} {equals : Token}
    (hlo : lo ≤ mid) (hmid : mid ≤ c.made) (ht : target.Formed P)
    (hti : Fresh lo mid target.ids) (hv : value.Formed P) (hvi : Fresh mid c.made value.ids) :
    Spec True (assignment target equals value) c fun e d =>
      e.Formed P ∧ Fresh lo d.made e.ids := by
  have hvi' : Fresh lo c.made value.ids := hvi.mono hlo (le_refl _)
  have hkept : Fresh lo c.made target.ids := hti.mono (le_refl _) hmid
  unfold assignment
  split
  · rename_i id name
    exact spec_freshId (spec_pure ⟨⟨ht, hv⟩, hvi'.snoc (le_trans hlo hmid)⟩)
  · rename_i id object name
    refine spec_freshId (spec_pure ⟨⟨ht.1, ht.2, hv⟩, ?_⟩)
    have hobject : Fresh lo mid object.ids := hti.sublist (List.sublist_append_left _ _)
    exact ((hobject.append hvi hlo hmid).perm List.perm_append_comm).snoc (le_trans hlo hmid)
  · exact spec_complain (spec_pure ⟨ht, hkept⟩)

/-- What is known of the readers of expressions at some fuel. -/
structure ExpressionMakes (P : Token → Prop) (n : Nat) : Prop where
  expression : MakesExpr P (expression n)
  chain : ∀ l, MakesExpr P (chain n l)
  chainRest : ∀ l, Extends P (chainRest n l)
  operand : ∀ l, MakesExpr P (operand n l)
  unary : MakesExpr P (unary n)
  callRest : Extends P (callRest n)
  arguments : Makes P (formedArgs P) idsOfArgs (arguments n)
  argumentsFrom : ∀ count, Makes P (formedArgs P) idsOfArgs (argumentsFrom n count)
  primary : MakesExpr P (primary n)

variable {n : Nat}

theorem expression_makes (ih : ExpressionMakes P n) : MakesExpr P (expression (n + 1)) := by
  intro c hc
  refine Spec.bind (ih.chain .or c hc) ?_
  rintro target d hcd ⟨ht, hti⟩
  refine spec_accept (fun _ => spec_pure ⟨ht, hti⟩) fun equals rest heq _ => ?_
  refine Spec.bind (ih.expression _ ((hc.onward hcd).rest heq)) ?_
  rintro value e hde ⟨hv, hvi⟩
  exact assignment_makes hcd.made hde.made ht hti hv hvi

theorem chain_makes (ih : ExpressionMakes P n) (l : Level) : MakesExpr P (chain (n + 1) l) := by
  intro c hc
  refine Spec.bind (ih.operand l c hc) ?_
  rintro left d hcd ⟨hl, hli⟩
  exact ih.chainRest l d c.made left (hc.onward hcd) hcd.made hl hli

theorem join_formed {l : Level} {id : NodeId} {left right : Expr} {op : Token}
    (hop : l.hasOperator op.kind = true) (hP : P op) (hl : left.Formed P) (hr : right.Formed P) :
    (l.join id left op right).Formed P := by
  cases l <;> exact ⟨⟨_, rfl, hop, hP⟩, hl, hr⟩

theorem join_ids (l : Level) (id : NodeId) (left right : Expr) (op : Token) :
    (l.join id left op right).ids = left.ids ++ right.ids ++ [id] := by
  cases l <;> rfl

theorem chainRest_extends (ih : ExpressionMakes P n) (l : Level) :
    Extends P (chainRest (n + 1) l) := by
  intro c lo left hc hlo hl hli
  refine spec_acceptIf (fun _ => spec_pure ⟨hl, hli⟩) fun op rest heq hop => ?_
  refine Spec.bind (ih.operand l _ (hc.rest heq)) ?_
  rintro right d hcd ⟨hr, hri⟩
  refine spec_freshId ?_
  have hlo' : lo ≤ d.made := le_trans hlo hcd.made
  refine ih.chainRest l _ lo _ (((hc.rest heq).onward hcd).onward ?_) (Nat.le_succ_of_le hlo')
    (join_formed hop (hc.head heq) hl hr) ?_
  · exact Cursor.onward_made (Nat.le_succ _)
  · rw [join_ids]
    exact (hli.append hri hlo hcd.made).snoc hlo'

theorem operand_makes (ih : ExpressionMakes P n) (l : Level) : MakesExpr P (operand (n + 1) l) := by
  unfold operand
  split
  · exact ih.chain _
  · exact ih.unary

theorem unary_makes (ih : ExpressionMakes P n) : MakesExpr P (unary (n + 1)) := by
  intro c hc
  refine spec_acceptIf (fun _ => ?_) fun op rest heq hop => ?_
  · refine Spec.bind (ih.primary c hc) ?_
    rintro e d hcd ⟨he, hei⟩
    exact ih.callRest d c.made e (hc.onward hcd) hcd.made he hei
  · refine Spec.bind (ih.unary _ (hc.rest heq)) ?_
    rintro right d hcd ⟨hr, hri⟩
    exact spec_freshId (spec_pure ⟨⟨⟨hop, hc.head heq⟩, hr⟩, hri.snoc hcd.made⟩)

theorem callRest_extends (ih : ExpressionMakes P n) : Extends P (callRest (n + 1)) := by
  intro c lo e hc hlo he hei
  refine spec_accept (fun _ => ?_) fun opening rest heq _ => ?_
  · refine spec_accept (fun _ => spec_pure ⟨he, hei⟩) fun dot rest heq _ => ?_
    refine Spec.bind (property_extends _ lo e (hc.rest heq) hlo he hei) ?_
    rintro object d hcd ⟨ho, hoi⟩
    exact ih.callRest d lo object ((hc.rest heq).onward hcd) (le_trans hlo hcd.made) ho hoi
  · refine Spec.bind (ih.arguments _ (hc.rest heq)) ?_
    rintro args d hcd ⟨ha, hai⟩
    have hd := (hc.rest heq).onward hcd
    refine spec_expect fun paren rest' heq' hkind => spec_freshId ?_
    have hlo' : lo ≤ d.made := le_trans hlo hcd.made
    refine ih.callRest _ lo _ ((hd.rest heq').onward (Cursor.onward_made (Nat.le_succ _)))
      (Nat.le_succ_of_le hlo') ⟨⟨hkind, hd.head heq'⟩, he, ha⟩ ?_
    exact (hei.append hai hlo hcd.made).snoc hlo'

theorem arguments_makes (ih : ExpressionMakes P n) :
    Makes P (formedArgs P) idsOfArgs (arguments (n + 1)) := by
  intro c hc
  refine spec_check ?_
  split
  · exact spec_pure ⟨trivial, Fresh.nil _ _⟩
  · exact ih.argumentsFrom 0 c hc

theorem argumentsFrom_makes (ih : ExpressionMakes P n) (count : Nat) :
    Makes P (formedArgs P) idsOfArgs (argumentsFrom (n + 1) count) := by
  intro c hc
  rw [argumentsFrom]
  refine spec_checkArity_any fun complaints => ?_
  -- A complaint about the number of arguments leaves tokens and identities alone.
  have hc' : Ready P { c with complaints := complaints } := hc
  refine Spec.bind (ih.expression _ hc') ?_
  rintro e d hcd ⟨he, hei⟩
  refine spec_accept (fun _ => spec_pure ⟨⟨he, trivial⟩, by simpa [idsOfArgs] using hei⟩)
    fun comma rest heq _ => ?_
  refine Spec.bind (ih.argumentsFrom _ _ ((hc'.onward hcd).rest heq)) ?_
  rintro es d' hdd ⟨hes, hesi⟩
  exact spec_pure ⟨⟨he, hes⟩, hei.append hesi hcd.made hdd.made⟩

theorem primary_makes (ih : ExpressionMakes P n) : MakesExpr P (primary (n + 1)) := by
  intro c hc
  refine spec_acceptIf (fun _ => ?_) fun t rest _ _ =>
    spec_freshId (spec_pure ⟨trivial, Fresh.single _⟩)
  refine spec_accept (fun _ => ?_) fun keyword rest heq hkind =>
    superAccess_makes ⟨hkind, hc.head heq⟩ _ (hc.rest heq)
  refine spec_accept (fun _ => ?_) fun keyword rest heq hkind =>
    spec_freshId (spec_pure ⟨⟨hkind, hc.head heq⟩, Fresh.single _⟩)
  refine spec_accept (fun _ => ?_) fun name rest heq hkind =>
    spec_freshId (spec_pure ⟨⟨hkind, hc.head heq⟩, Fresh.single _⟩)
  refine spec_accept (fun _ => spec_failWith .expression) fun opening rest heq _ => ?_
  refine Spec.bind (ih.expression _ (hc.rest heq)) ?_
  rintro inner d hcd ⟨hi, hii⟩
  exact spec_expect fun closing rest' _ _ => spec_freshId (spec_pure ⟨hi, hii.snoc hcd.made⟩)

theorem expressionMakes (P : Token → Prop) (n : Nat) : ExpressionMakes P n := by
  induction n with
  | zero =>
    have hmakes : MakesExpr P outOfFuel := fun c _ => spec_outOfFuel trivial
    have hextends : Extends P fun _ => outOfFuel := fun c _ _ _ _ _ _ => spec_outOfFuel trivial
    have hargs : Makes P (formedArgs P) idsOfArgs outOfFuel := fun c _ => spec_outOfFuel trivial
    exact ⟨hmakes, fun _ => hmakes, fun _ => hextends, fun _ => hmakes, hmakes, hextends, hargs,
      fun _ => hargs, hmakes⟩
  | succ n ih =>
    exact ⟨expression_makes ih, chain_makes ih, chainRest_extends ih, operand_makes ih,
      unary_makes ih, callRest_extends ih, arguments_makes ih, argumentsFrom_makes ih,
      primary_makes ih⟩

/-! ### Statements without parts of their own kind -/

abbrev MakesExpr? (P : Token → Prop) (p : Parse (Option Expr)) : Prop :=
  Makes P (Expr.Formed? P) Expr.ids? p

abbrev MakesStmt (P : Token → Prop) (p : Parse Stmt) : Prop := Makes P (Stmt.Formed P) Stmt.ids p

/-- The reader returns statements that are no declarations. -/
abbrev MakesPlain (P : Token → Prop) (p : Parse Stmt) : Prop :=
  Makes P (fun s => s.isDeclaration = false ∧ s.Formed P) Stmt.ids p

theorem expressionUnless_makes (n : Nat) (k : TokenKind) : MakesExpr? P (expressionUnless n k) := by
  intro c hc
  refine spec_check ?_
  split
  · exact spec_pure ⟨trivial, Fresh.nil _ _⟩
  · refine Spec.bind ((expressionMakes P n).expression c hc) ?_
    rintro e d _ he
    exact spec_pure he

theorem varDeclaration_makes (n : Nat) : MakesStmt P (varDeclaration n) := by
  intro c hc
  refine spec_expect fun name rest heq hkind => ?_
  have hname : name.Is P .identifier := ⟨hkind, hc.head heq⟩
  refine spec_accept (fun _ => ?_) fun equals rest' heq' _ => ?_
  · exact spec_expect fun _ _ _ _ => spec_pure ⟨⟨hname, trivial⟩, Fresh.nil _ _⟩
  · refine Spec.bind ((expressionMakes P n).expression _ ((hc.rest heq).rest heq')) ?_
    rintro init d _ ⟨hi, hii⟩
    exact spec_expect fun _ _ _ _ => spec_pure ⟨⟨hname, hi⟩, hii⟩

theorem expressionStatement_makes (n : Nat) : MakesPlain P (expressionStatement n) := by
  intro c hc
  refine Spec.bind ((expressionMakes P n).expression c hc) ?_
  rintro e d _ ⟨he, hei⟩
  exact spec_expect fun _ _ _ _ => spec_pure ⟨⟨rfl, he⟩, hei⟩

theorem printStatement_makes (n : Nat) : MakesPlain P (printStatement n) := by
  intro c hc
  refine Spec.bind ((expressionMakes P n).expression c hc) ?_
  rintro e d _ ⟨he, hei⟩
  exact spec_expect fun _ _ _ _ => spec_pure ⟨⟨rfl, he⟩, hei⟩

theorem returnStatement_makes (n : Nat) {keyword : Token}
    (hkey : keyword.Is P (.keyword .return_)) : MakesPlain P (returnStatement n keyword) := by
  intro c hc
  refine Spec.bind (expressionUnless_makes n _ c hc) ?_
  rintro value d _ ⟨hv, hvi⟩
  exact spec_expect fun _ _ _ _ => spec_pure ⟨⟨rfl, hkey, hv⟩, hvi⟩

/-- The first clause of a `for` loop, which may be missing. -/
def FormedInit (P : Token → Prop) : Option Stmt → Prop
  | some s => s.Formed P
  | none => True

def idsOfInit : Option Stmt → List NodeId
  | some s => s.ids
  | none => []

theorem forInit_makes (n : Nat) : Makes P (FormedInit P) idsOfInit (forInit n) := by
  intro c hc
  refine spec_accept (fun _ => ?_) fun _ _ _ _ => spec_pure ⟨trivial, Fresh.nil _ _⟩
  refine spec_accept (fun _ => ?_) fun _ rest heq _ => ?_
  · refine Spec.bind (expressionStatement_makes n c hc) ?_
    rintro s d _ ⟨hs, hsi⟩
    exact spec_pure ⟨hs.2, hsi⟩
  · refine Spec.bind (varDeclaration_makes n _ (hc.rest heq)) ?_
    rintro s d _ hs
    exact spec_pure hs

theorem forClauses_makes (n : Nat) :
    Makes P (fun x => FormedInit P x.1 ∧ Expr.Formed? P x.2.1 ∧ Expr.Formed? P x.2.2)
      (fun x => idsOfInit x.1 ++ Expr.ids? x.2.1 ++ Expr.ids? x.2.2) (forClauses n) := by
  intro c hc
  refine spec_expect fun _ rest heq _ => ?_
  refine Spec.bind (forInit_makes n _ (hc.rest heq)) ?_
  rintro init d hcd ⟨hi, hii⟩
  have hd := (hc.rest heq).onward hcd
  refine Spec.bind (expressionUnless_makes n _ d hd) ?_
  rintro cond e hde ⟨hco, hcoi⟩
  have he := hd.onward hde
  refine spec_expect fun _ rest' heq' _ => ?_
  refine Spec.bind (expressionUnless_makes n _ _ (he.rest heq')) ?_
  rintro step f hef ⟨hs, hsi⟩
  refine spec_expect fun _ _ _ _ => spec_pure ⟨⟨hi, hco, hs⟩, ?_⟩
  exact (hii.append hcoi hcd.made hde.made).append hsi (le_trans hcd.made hde.made)
    hef.made

theorem condition_makes (n : Nat) (opening closing : Expected) :
    MakesExpr P (condition n opening closing) := by
  intro c hc
  refine spec_expect fun _ rest heq _ => ?_
  refine Spec.bind ((expressionMakes P n).expression _ (hc.rest heq)) ?_
  rintro cond d _ hco
  exact spec_expect fun _ _ _ _ => spec_pure hco

theorem superclass_makes : Makes P (Expr.FormedSuperclass P) Expr.ids? superclass := by
  intro c hc
  refine spec_accept (fun _ => spec_pure ⟨trivial, Fresh.nil _ _⟩) fun _ rest heq _ => ?_
  refine spec_expect fun name rest' heq' hkind => spec_freshId ?_
  refine spec_pure ⟨⟨hkind, ?_⟩, Fresh.single _⟩
  exact (hc.rest heq).head heq'

/-! ### Parameters

Parameters make no nodes, so it is enough that they are identifiers. -/

theorem parametersFrom_makes (n count : Nat) :
    Makes P (fun ts => ∀ t ∈ ts, Token.Is P .identifier t) (fun _ => [])
      (parametersFrom n count) := by
  induction n generalizing count with
  | zero => exact fun c _ => spec_outOfFuel trivial
  | succ n ih =>
    intro c hc
    rw [parametersFrom]
    refine spec_checkArity_any fun complaints => ?_
    have hc' : Ready P { c with complaints := complaints } := hc
    refine spec_expect fun name rest heq hkind => ?_
    have hname : name.Is P .identifier := ⟨hkind, hc'.head heq⟩
    refine spec_accept (fun _ => spec_pure ⟨by simpa using hname, Fresh.nil _ _⟩)
      fun _ rest' heq' _ => ?_
    refine Spec.bind (ih (count + 1) _ ((hc'.rest heq).rest heq')) ?_
    rintro names d _ ⟨hnames, -⟩
    refine spec_pure ⟨?_, Fresh.nil _ _⟩
    intro t ht
    rcases List.mem_cons.mp ht with rfl | ht
    · exact hname
    · exact hnames t ht

theorem functionHead_makes (n : Nat) (sort : FunctionSort) :
    Makes P (fun x => x.1.Is P .identifier ∧ ∀ t ∈ x.2, Token.Is P .identifier t) (fun _ => [])
      (functionHead n sort) := by
  intro c hc
  refine spec_expect fun name rest heq hkind => spec_expect fun _ rest' heq' _ => ?_
  have hc' := (hc.rest heq).rest heq'
  refine Spec.bind (Q := fun ts _ => ∀ t ∈ ts, Token.Is P .identifier t) ?_ ?_
  · refine spec_check ?_
    split
    · exact spec_pure (by simp)
    · exact (parametersFrom_makes n 0 _ hc').mono fun _ _ _ h => h.1
  · rintro params d _ hparams
    exact spec_expect fun _ _ _ _ => spec_expect fun _ _ _ _ =>
      spec_pure ⟨⟨⟨hkind, hc.head heq⟩, hparams⟩, Fresh.nil _ _⟩

/-! ### Declarations and statements -/

theorem forLoop_formed {init : Option Stmt} {cond : Expr} {step : Option Expr} {body : Stmt}
    (hi : FormedInit P init) (hc : cond.Formed P) (hs : Expr.Formed? P step)
    (hb : body.isDeclaration = false ∧ body.Formed P) :
    (forLoop init cond step body).isDeclaration = false ∧
      (forLoop init cond step body).Formed P := by
  cases init <;> cases step
  · exact ⟨rfl, hc, hb⟩
  · exact ⟨rfl, hc, rfl, hb.2, hs, trivial⟩
  · exact ⟨rfl, hi, ⟨hc, hb⟩, trivial⟩
  · exact ⟨rfl, hi, ⟨hc, rfl, hb.2, hs, trivial⟩, trivial⟩

theorem forLoop_ids (init : Option Stmt) (cond : Expr) (step : Option Expr) (body : Stmt) :
    (forLoop init cond step body).ids =
      idsOfInit init ++ (cond.ids ++ (body.ids ++ Expr.ids? step)) := by
  cases init <;> cases step <;>
    simp [forLoop, Stmt.ids, idsOfAll, idsOfInit, Expr.ids?]

/-- What is known of the readers of declarations at some fuel. -/
structure DeclarationMakes (P : Token → Prop) (n : Nat) : Prop where
  declaration : Makes P (FormedInit P) idsOfInit (declaration n)
  classDeclaration : MakesStmt P (classDeclaration n)
  methods : Makes P (formedMethods P) idsOfMethods (methods n)
  function : ∀ sort, Makes P (FunDecl.Formed P) FunDecl.ids (function n sort)
  statement : MakesPlain P (statement n)
  block : Makes P (formedAll P) idsOfAll (block n)
  declarations : ∀ inBlock, Makes P (formedAll P) idsOfAll (declarations n inBlock)

theorem declaration_makes (ih : DeclarationMakes P n) :
    Makes P (FormedInit P) idsOfInit (declaration (n + 1)) := by
  intro c hc
  rw [declaration]
  refine spec_recover ?_ (fun _ _ _ hs => hs) fun _ _ _ => ⟨trivial, Fresh.nil _ _⟩
  refine spec_accept (fun _ => ?_) fun _ rest heq _ => ih.classDeclaration _ (hc.rest heq)
  refine spec_accept (fun _ => ?_) fun _ rest heq _ => ?_
  · refine spec_accept (fun _ => ?_) fun _ rest heq _ => varDeclaration_makes n _ (hc.rest heq)
    exact (ih.statement c hc).mono fun s d _ hs => ⟨hs.1.2, hs.2⟩
  · refine Spec.bind (ih.function .function _ (hc.rest heq)) ?_
    rintro decl d _ hd
    exact spec_pure hd

theorem classDeclaration_makes (ih : DeclarationMakes P n) :
    MakesStmt P (classDeclaration (n + 1)) := by
  intro c hc
  refine spec_expect fun name rest heq hkind => ?_
  refine Spec.bind (superclass_makes _ (hc.rest heq)) ?_
  rintro super d hcd ⟨hs, hsi⟩
  have hd := (hc.rest heq).onward hcd
  refine spec_expect fun _ rest' heq' _ => ?_
  refine Spec.bind (ih.methods _ (hd.rest heq')) ?_
  rintro decls e hde ⟨hm, hmi⟩
  refine spec_expect fun _ _ _ _ => spec_pure ⟨⟨⟨hkind, hc.head heq⟩, hs, hm⟩, ?_⟩
  exact hsi.append hmi hcd.made hde.made

theorem methods_makes (ih : DeclarationMakes P n) :
    Makes P (formedMethods P) idsOfMethods (methods (n + 1)) := by
  intro c hc
  refine spec_atClosing ?_
  split
  · exact spec_pure ⟨trivial, Fresh.nil _ _⟩
  · refine Spec.bind (ih.function .method c hc) ?_
    rintro first d hcd ⟨hf, hfi⟩
    refine Spec.bind (ih.methods d (hc.onward hcd)) ?_
    rintro rest e hde ⟨hr, hri⟩
    exact spec_pure ⟨⟨hf, hr⟩, hfi.append hri hcd.made hde.made⟩

theorem function_makes (ih : DeclarationMakes P n) (sort : FunctionSort) :
    Makes P (FunDecl.Formed P) FunDecl.ids (function (n + 1) sort) := by
  intro c hc
  refine Spec.bind (functionHead_makes n sort c hc) ?_
  rintro ⟨name, params⟩ d hcd ⟨⟨hname, hparams⟩, -⟩
  refine Spec.bind (ih.block d (hc.onward hcd)) ?_
  rintro body e _ ⟨hb, hbi⟩
  exact spec_pure ⟨⟨hname, hparams, hb⟩, hbi.mono hcd.made (le_refl _)⟩

theorem forStatement_makes (ih : DeclarationMakes P n) :
    MakesPlain P (do
      let (init, cond, step) ← forClauses n
      let body ← Parse.statement n
      return forLoop init (← conditionOrTrue cond) step body) := by
  intro c hc
  refine Spec.bind (forClauses_makes n c hc) ?_
  rintro ⟨init, cond, step⟩ d hcd ⟨⟨hi, hco, hs⟩, hids⟩
  refine Spec.bind (ih.statement d (hc.onward hcd)) ?_
  rintro body e hde ⟨hb, hbi⟩
  have hall := hids.append hbi hcd.made hde.made
  have hce := le_trans hcd.made hde.made
  cases cond with
  | some cond =>
    refine Spec.bind (Q := fun a f => a = cond ∧ f = e) (spec_pure ⟨rfl, rfl⟩) ?_
    rintro _ _ - ⟨rfl, rfl⟩
    refine spec_pure ⟨forLoop_formed hi hco hs hb, ?_⟩
    rw [forLoop_ids]
    refine hall.perm ?_
    simp only [Expr.ids?, List.append_assoc]
    exact (List.perm_append_comm.append_left _).append_left _
  | none =>
    refine Spec.bind (Q := fun a f => a = .literal (.ofNat e.made) (.bool true) ∧
      f = { e with made := e.made + 1 }) (spec_freshId (spec_pure ⟨rfl, rfl⟩)) ?_
    rintro _ _ - ⟨rfl, rfl⟩
    refine spec_pure ⟨forLoop_formed hi trivial hs hb, ?_⟩
    rw [forLoop_ids]
    refine (hall.snoc hce).perm ?_
    simp only [Expr.ids?, Expr.ids, List.append_assoc, List.append_nil]
    refine List.Perm.append_left _ ?_
    rw [← List.append_assoc]
    exact List.perm_append_comm.trans (List.perm_append_comm.append_left _)

theorem statement_makes (ih : DeclarationMakes P n) : MakesPlain P (statement (n + 1)) := by
  intro c hc
  refine spec_accept (fun _ => ?_) fun _ rest heq _ => forStatement_makes ih _ (hc.rest heq)
  refine spec_accept (fun _ => ?_) fun _ rest heq _ => ?_
  · refine spec_accept (fun _ => ?_) fun _ rest heq _ => ?_
    · refine spec_accept (fun _ => ?_) fun keyword rest heq hkind =>
        returnStatement_makes n ⟨hkind, hc.head heq⟩ _ (hc.rest heq)
      refine spec_accept (fun _ => ?_) fun _ rest heq _ => ?_
      · exact spec_accept (fun _ => expressionStatement_makes n c hc) fun _ rest heq _ =>
          printStatement_makes n _ (hc.rest heq)
      · refine Spec.bind (ih.block _ (hc.rest heq)) ?_
        rintro body d _ ⟨hb, hbi⟩
        exact spec_pure ⟨⟨rfl, hb⟩, hbi⟩
    · refine Spec.bind (condition_makes n _ _ _ (hc.rest heq)) ?_
      rintro cond d hcd ⟨hco, hcoi⟩
      refine Spec.bind (ih.statement d ((hc.rest heq).onward hcd)) ?_
      rintro body e hde ⟨hb, hbi⟩
      exact spec_pure ⟨⟨rfl, hco, hb⟩, hcoi.append hbi hcd.made hde.made⟩
  · refine Spec.bind (condition_makes n _ _ _ (hc.rest heq)) ?_
    rintro cond d hcd ⟨hco, hcoi⟩
    refine Spec.bind (ih.statement d ((hc.rest heq).onward hcd)) ?_
    rintro thenBranch e hde ⟨ht, hti⟩
    have hids := hcoi.append hti hcd.made hde.made
    refine spec_accept (fun _ => spec_pure ⟨⟨rfl, hco, ht⟩, hids⟩) fun _ rest' heq' _ => ?_
    refine Spec.bind (ih.statement _ ((((hc.rest heq).onward hcd).onward hde).rest heq')) ?_
    rintro elseBranch f hef ⟨he, hei⟩
    exact spec_pure ⟨⟨rfl, hco, ht, he⟩,
      hids.append hei (le_trans hcd.made hde.made) hef.made⟩

theorem block_makes (ih : DeclarationMakes P n) :
    Makes P (formedAll P) idsOfAll (block (n + 1)) := by
  intro c hc
  refine Spec.bind (ih.declarations true c hc) ?_
  rintro body d _ hb
  exact spec_expect fun _ _ _ _ => spec_pure hb

theorem declarations_makes (ih : DeclarationMakes P n) (inBlock : Bool) :
    Makes P (formedAll P) idsOfAll (declarations (n + 1) inBlock) := by
  intro c hc
  refine spec_atClosing ?_
  split
  · exact spec_pure ⟨trivial, Fresh.nil _ _⟩
  · refine Spec.bind (ih.declaration c hc) ?_
    rintro first d hcd ⟨hf, hfi⟩
    refine Spec.bind (ih.declarations inBlock d (hc.onward hcd)) ?_
    rintro rest e hde ⟨hr, hri⟩
    refine spec_pure ?_
    cases first with
    | none => exact ⟨hr, hri.mono hcd.made (le_refl _)⟩
    | some s => exact ⟨⟨hf, hr⟩, hfi.append hri hcd.made hde.made⟩

theorem declarationMakes (P : Token → Prop) (n : Nat) : DeclarationMakes P n := by
  induction n with
  | zero =>
    have hempty : ∀ {α : Type} (formed : α → Prop) (ids : α → List NodeId),
        Makes P formed ids outOfFuel := fun _ _ c _ => spec_outOfFuel trivial
    exact ⟨hempty _ _, hempty _ _, hempty _ _, fun _ => hempty _ _, hempty _ _, hempty _ _,
      fun _ => hempty _ _⟩
  | succ n ih =>
    exact ⟨declaration_makes ih, classDeclaration_makes ih, methods_makes ih, function_makes ih,
      statement_makes ih, block_makes ih, declarations_makes ih⟩

end Parse

/-! ### Programs and expressions -/

variable {P : Token → Prop} {ts : List Token}

theorem ready_ofTokens (h : ∀ t ∈ ts, P t) (made : Nat) : Parse.Ready P (Cursor.ofTokens ts made) :=
  fun t ht => h t ((List.takeWhile_prefix _).subset ht)

/-- The statements of a program are formed, and their nodes have identities of their own. -/
theorem program_made (h : ∀ t ∈ ts, P t) (made : Nat) :
    formedAll P (Program.ofTokens ts made).statements ∧
      Fresh made (Program.ofTokens ts made).made (idsOfAll (Program.ofTokens ts made).statements) ∧
      made ≤ (Program.ofTokens ts made).made := by
  have hspec := (Parse.declarationMakes P (Parse.fuelFor ts.length)).declarations false _
    (ready_ofTokens h made)
  unfold Program.ofTokens
  split
  · rename_i statements c heq
    obtain ⟨hon, hformed, hfresh⟩ := hspec.of_ok heq
    exact ⟨hformed, hfresh, hon.made⟩
  · rename_i x c heq
    exact ⟨trivial, Fresh.nil _ _, (hspec.of_fail heq).made⟩
  · exact ⟨trivial, Fresh.nil _ _, le_refl _⟩

theorem wholeExpression_makes (n : Nat) : Parse.MakesExpr P (Parse.wholeExpression n) := by
  intro c hc
  refine Parse.Spec.bind ((Parse.expressionMakes P n).expression c hc) ?_
  rintro e d _ he
  refine Parse.spec_atEnd ?_
  split
  · exact Parse.spec_pure he
  · exact Parse.spec_failWith _

/-- A single expression that was read is formed, and its nodes have identities of their own. -/
theorem parsedExpr_made (h : ∀ t ∈ ts, P t) (made : Nat) :
    (∀ e, (ParsedExpr.ofTokens ts made).expr? = some e →
      e.Formed P ∧ Fresh made (ParsedExpr.ofTokens ts made).made e.ids) ∧
      made ≤ (ParsedExpr.ofTokens ts made).made := by
  have hspec := wholeExpression_makes (Parse.fuelFor ts.length) _ (ready_ofTokens h made)
  unfold ParsedExpr.ofTokens
  split
  · rename_i e c heq
    obtain ⟨hon, hmade⟩ := hspec.of_ok heq
    refine ⟨fun e' he' => ?_, hon.made⟩
    rw [Option.some.injEq] at he'
    exact he' ▸ hmade
  · rename_i x c heq
    exact ⟨by simp, (hspec.of_fail heq).made⟩
  · exact ⟨by simp, le_refl _⟩

end Lox
