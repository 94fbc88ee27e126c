import Lox.Proofs.Heap.Objects
import Lox.Proofs.Scoping.Uses
import Lox.Proofs.Token.Spelling

/-!
# Names in the open scopes

What the static walk knows about names on its way through a program without violations. Between
statements every known name is defined (`StaticScopes.Defined`); inside the initializer of a local
variable that variable alone is declared and not yet defined (`StaticScopes.Settled`). No variable
is spelled like `this` or `super` (`Token.IsName.not_implicit`).
-/

namespace Lox

namespace StaticScopes

variable {s : StaticScope} {outer scopes : StaticScopes} {name : Token} {x : String}

/-- Every known name is defined. -/
def Defined (scopes : StaticScopes) : Prop := ∀ s ∈ scopes, ∀ x, s.find? x ≠ some false

/-- The only name that is not yet defined is that of the variable whose initializer is at work. -/
def Settled (initializing : Option Token) : StaticScopes → Prop
  | [] => True
  | s :: outer =>
    (∀ x, s.find? x = some false → ∃ t, initializing = some t ∧ t.lexeme = x) ∧ Defined outer

theorem defined_cons : Defined (s :: outer) ↔ (∀ x, s.find? x ≠ some false) ∧ Defined outer := by
  simp [Defined]

theorem Defined.push (h : Defined scopes) : Defined ({} :: scopes) :=
  defined_cons.mpr ⟨fun x => by simp, h⟩

theorem Defined.push_single (h : Defined scopes) (x : String) :
    Defined (.singleton x true :: scopes) := by
  refine defined_cons.mpr ⟨fun y => ?_, h⟩
  rw [Table.find?_singleton]
  split_ifs <;> simp

theorem Defined.settled (h : Defined scopes) (initializing : Option Token) :
    Settled initializing scopes := by
  cases scopes with
  | nil => trivial
  | cons s outer =>
    rw [defined_cons] at h
    exact ⟨fun x hx => absurd hx (h.1 x), h.2⟩

theorem Defined.not_pending (h : Defined scopes) (x : String) : scopes.isPending x = false := by
  cases scopes with
  | nil => rfl
  | cons s outer =>
    rw [isPending, beq_eq_false_iff_ne]
    exact (defined_cons.mp h).1 x

/-! ### Depths -/

theorem depthOf?_nil (x : String) : depthOf? [] x = none := rfl

theorem depthOf?_cons (s : StaticScope) (outer : StaticScopes) (x : String) :
    depthOf? (s :: outer) x =
      if s.contains x then some 0 else (depthOf? outer x).map (· + 1) := by
  simp [depthOf?, List.findIdx?_cons]

theorem depthOf?_push (scopes : StaticScopes) (x : String) :
    depthOf? ({} :: scopes) x = (depthOf? scopes x).map (· + 1) := by
  rw [depthOf?_cons]
  rfl

theorem Defined.found (h : Defined scopes) {d : Nat} (hd : scopes.depthOf? x = some d) :
    ∃ s, scopes[d]? = some s ∧ s.find? x = some true := by
  induction scopes generalizing d with
  | nil => simp [depthOf?_nil] at hd
  | cons s outer ih =>
    rw [defined_cons] at h
    rw [depthOf?_cons] at hd
    split_ifs at hd with hknown
    · rw [Option.some.injEq] at hd
      obtain ⟨b, hb⟩ := Table.contains_iff.mp hknown
      refine ⟨s, by rw [← hd]; rfl, ?_⟩
      cases b with
      | true => exact hb
      | false => exact absurd hb (h.1 x)
    · obtain ⟨d', hd', rfl⟩ := Option.map_eq_some_iff.mp hd
      exact ih h.2 hd'

/-- A name that was found is known there, and is defined unless its initializer is at work. -/
theorem Settled.found {initializing : Option Token} (h : Settled initializing scopes) {d : Nat}
    (hd : scopes.depthOf? x = some d) : ∃ s, scopes[d]? = some s ∧
      (s.find? x = some true ∨ d = 0 ∧ s.find? x = some false ∧
        ∃ t, initializing = some t ∧ t.lexeme = x) := by
  cases scopes with
  | nil => simp [depthOf?_nil] at hd
  | cons s outer =>
    rw [depthOf?_cons] at hd
    split_ifs at hd with hknown
    · rw [Option.some.injEq] at hd
      obtain ⟨b, hb⟩ := Table.contains_iff.mp hknown
      refine ⟨s, by rw [← hd]; rfl, ?_⟩
      cases b with
      | true => exact Or.inl hb
      | false => exact Or.inr ⟨hd.symm, hb, h.1 x hb⟩
    · obtain ⟨d', hd', rfl⟩ := Option.map_eq_some_iff.mp hd
      obtain ⟨s', hs', htrue⟩ := Defined.found h.2 hd'
      exact ⟨s', hs', Or.inl htrue⟩

/-! ### Declarations -/

theorem declare_eq (h : Clean (declare (s :: outer) name).1) :
    s.contains name.lexeme = false ∧
      (declare (s :: outer) name).2 = s.insert name.lexeme false :: outer := by
  rw [declare] at h ⊢
  split_ifs at h ⊢ with hknown
  · exact absurd h clean_violation
  · exact ⟨by simpa using hknown, rfl⟩

theorem introduce_eq (h : Clean (introduce (s :: outer) name).1) :
    (introduce (s :: outer) name).2 =
      (s.insert name.lexeme false).insert name.lexeme true :: outer := by
  show (declare (s :: outer) name).2.define name = _
  rw [(declare_eq h).2]
  rfl

theorem find?_introduced (s : StaticScope) (name x : String) :
    ((s.insert name false).insert name true).find? x =
      if name = x then some true else s.find? x := by
  rw [Table.find?_insert, Table.find?_insert]
  split_ifs <;> rfl

theorem settled_declare (hdefined : Defined scopes) (hclean : Clean (scopes.declare name).1) :
    Settled (if scopes.isEmpty then none else some name) (scopes.declare name).2 := by
  cases scopes with
  | nil => trivial
  | cons s outer =>
    rw [(declare_eq hclean).2]
    rw [defined_cons] at hdefined
    refine ⟨fun x hx => ?_, hdefined.2⟩
    rw [Table.find?_insert] at hx
    split_ifs at hx with hname
    · exact ⟨name, rfl, hname⟩
    · exact absurd hx (hdefined.1 x)

theorem defined_introduce (hdefined : Defined scopes) (hclean : Clean (scopes.introduce name).1) :
    Defined (scopes.introduce name).2 := by
  cases scopes with
  | nil => exact hdefined
  | cons s outer =>
    rw [defined_cons] at hdefined
    rw [introduce_eq hclean, defined_cons]
    refine ⟨fun x => ?_, hdefined.2⟩
    rw [find?_introduced]
    split_ifs
    · simp
    · exact hdefined.1 x

theorem defined_introduceAll {names : List Token} (hdefined : Defined scopes)
    (hclean : Clean (scopes.introduceAll names).1) : Defined (scopes.introduceAll names).2 := by
  induction names generalizing scopes with
  | nil => exact hdefined
  | cons name names ih =>
    have hsplit : Clean ((scopes.introduce name).1 ++
      ((scopes.introduce name).2.introduceAll names).1) := hclean
    rw [clean_append] at hsplit
    exact ih (defined_introduce hdefined hsplit.1) hsplit.2

theorem introduceAll_eq {names : List Token} (h : Clean (introduceAll (s :: outer) names).1) :
    ∃ s', (introduceAll (s :: outer) names).2 = s' :: outer ∧
      ∀ x, s'.find? x = if x ∈ names.map (·.lexeme) then some true else s.find? x := by
  induction names generalizing s with
  | nil => exact ⟨s, rfl, fun x => by simp⟩
  | cons name names ih =>
    have hsplit : Clean ((introduce (s :: outer) name).1 ++
      ((introduce (s :: outer) name).2.introduceAll names).1) := h
    rw [clean_append] at hsplit
    obtain ⟨hfirst, hrest⟩ := hsplit
    rw [introduce_eq hfirst] at hrest
    obtain ⟨s', hs', hfind⟩ := ih hrest
    refine ⟨s', ?_, fun x => ?_⟩
    · show ((introduce (s :: outer) name).2.introduceAll names).2 = _
      rw [introduce_eq hfirst, hs']
    · rw [hfind, find?_introduced, List.map_cons]
      by_cases hname : name.lexeme = x
      · simp [hname]
      · simp [hname, Ne.symm hname]

/-! ### Names that are not touched -/

theorem depthOf?_declare_ne (scopes : StaticScopes) (h : name.lexeme ≠ x) :
    (scopes.declare name).2.depthOf? x = scopes.depthOf? x := by
  cases scopes with
  | nil => rfl
  | cons s outer =>
    rw [declare]
    split_ifs
    · rfl
    · rw [depthOf?_cons, depthOf?_cons, Table.contains_insert, decide_eq_false h, Bool.false_or]

theorem depthOf?_define_ne (scopes : StaticScopes) (h : name.lexeme ≠ x) :
    (scopes.define name).depthOf? x = scopes.depthOf? x := by
  cases scopes with
  | nil => rfl
  | cons s outer =>
    rw [define, depthOf?_cons, depthOf?_cons, Table.contains_insert, decide_eq_false h,
      Bool.false_or]

theorem depthOf?_introduce_ne (scopes : StaticScopes) (h : name.lexeme ≠ x) :
    (scopes.introduce name).2.depthOf? x = scopes.depthOf? x :=
  (depthOf?_define_ne _ h).trans (depthOf?_declare_ne scopes h)

theorem depthOf?_introduceAll_ne {names : List Token} (scopes : StaticScopes)
    (h : ∀ t ∈ names, t.lexeme ≠ x) :
    (scopes.introduceAll names).2.depthOf? x = scopes.depthOf? x := by
  induction names generalizing scopes with
  | nil => rfl
  | cons name names ih =>
    show ((scopes.introduce name).2.introduceAll names).2.depthOf? x = _
    rw [ih _ fun t ht => h t (List.mem_cons_of_mem name ht),
      depthOf?_introduce_ne scopes (h name List.mem_cons_self)]

end StaticScopes

/-! ### The scopes of `this` and `super` -/

/-- An identifier of a source. -/
abbrev Token.IsName (t : Token) : Prop := t.Is Token.Spelled .identifier

theorem Token.IsName.ne_this {t : Token} (h : t.IsName) : t.lexeme ≠ "this" :=
  h.2.lexeme_ne_this h.1

theorem Token.IsName.ne_super {t : Token} (h : t.IsName) : t.lexeme ≠ "super" :=
  h.2.lexeme_ne_super h.1

/-- A name that no variable has. -/
def IsImplicit (x : String) : Prop := x = "this" ∨ x = "super"

theorem Token.IsName.not_implicit {t : Token} (h : t.IsName) : ¬IsImplicit t.lexeme :=
  not_or.mpr ⟨h.ne_this, h.ne_super⟩

/-! ### After a statement -/

end Lox
