import Mathlib.Order.Bounds.Basic
import Lox.Machine
import Lox.Proofs.Heap.Objects

/-!
# Walking to a name and counting the steps to it

A name can be looked up in two ways. A walk goes outwards from a scope until it meets one that binds
the name (`Heap.holder?`); an indexed access goes a given number of steps outwards and looks only
there (`Heap.holderAt?`). What ties them together is said without either: the nearest binding is the
one at the least distance (`Heap.IsNearest`), and a scope sees the binding of the scope that lies at
that distance (`Heap.Sees`).

Walks find exactly what is seen, in every heap in which scopes come after the scopes around them
(`Heap.Ordered`). Trees of scopes are ordered however they have been built, so in all of them
walking and indexed access agree (`walking_and_indexed_access_agree`).
-/

namespace Lox

/-- One operation on a tree of scopes. -/
inductive ScopeOp where
  | child (s : ScopeId)
  | define (s : ScopeId) (name : String) (v : Value)
  | assign (s : ScopeId) (name : String) (v : Value)
  | assignAt (s : ScopeId) (distance : Nat) (name : String) (v : Value)

namespace Heap

/-- The tree after an operation. An operation that fails leaves it as it is. -/
def after (h : Heap) : ScopeOp → Heap
  | .child s => if s < h.scopes.size then (h.newScope ⟨{}, some s⟩).2 else h
  | .define s name v => h.define s name v
  | .assign s name v => (h.assign? s name v).getD h
  | .assignAt s distance name v => (h.assignAt? s distance name v).getD h

/-- The tree that operations build from one empty scope. -/
def built (ops : List ScopeOp) : Heap := ops.foldl after { scopes := #[{}] }

/-- As many steps out of a scope there is another, and it binds the name itself. -/
def BindsAt (h : Heap) (s : ScopeId) (distance : Nat) (x : String) : Prop :=
  ∃ t, h.ancestor? s distance = some t ∧ (h.getLocal? t x).isSome

/-- The least distance at which a name is bound. -/
def IsNearest (h : Heap) (s : ScopeId) (x : String) (distance : Nat) : Prop :=
  IsLeast {d | h.BindsAt s d x} distance

/-- The nearest binding of a name, seen from a scope, is the one in `home`. -/
def Sees (h : Heap) (s : ScopeId) (x : String) (home : ScopeId) : Prop :=
  ∃ distance, h.IsNearest s x distance ∧ h.ancestor? s distance = some home

/-- Scopes come after the scopes around them. -/
def Ordered (h : Heap) : Prop := ∀ s outer, (h.scope s).enclosing = some outer → outer < s

variable {h h' : Heap} {s t home outer : ScopeId} {x : String} {d : Nat} {v : Value}

/-! ### Trees that are built -/

theorem ordered_define (ho : h.Ordered) (s : ScopeId) (x : String) (v : Value) :
    (h.define s x v).Ordered := fun t outer houter =>
  ho t outer (enclosing_define h s x v t ▸ houter)

theorem ordered_child (ho : h.Ordered) (hs : s < h.scopes.size) :
    (h.newScope ⟨{}, some s⟩).2.Ordered := by
  intro t outer houter
  rw [scope_newScope] at houter
  split_ifs at houter with ht
  · cases houter
    exact ht ▸ hs
  · exact ho t outer houter

theorem assign?_eq (h : Heap) (s : ScopeId) (x : String) (v : Value) :
    h.assign? s x v = (h.holder? s x).map (h.define · x v) := by
  rw [assign?]
  cases h.holder? s x <;> rfl

theorem assignAt?_eq (h : Heap) (s : ScopeId) (d : Nat) (x : String) (v : Value) :
    h.assignAt? s d x v = (h.holderAt? s d x).map (h.define · x v) := by
  rw [assignAt?]
  cases h.holderAt? s d x <;> rfl

theorem ordered_after (ho : h.Ordered) (op : ScopeOp) : (h.after op).Ordered := by
  cases op with
  | child s =>
    rw [after]
    split_ifs with hs
    · exact ordered_child ho hs
    · exact ho
  | define s x v => exact ordered_define ho s x v
  | assign s x v =>
    rw [after, assign?_eq]
    cases h.holder? s x with
    | none => exact ho
    | some home => exact ordered_define ho home x v
  | assignAt s d x v =>
    rw [after, assignAt?_eq]
    cases h.holderAt? s d x with
    | none => exact ho
    | some home => exact ordered_define ho home x v

theorem ordered_built (ops : List ScopeOp) : (built ops).Ordered := by
  have hfold : ∀ (ops : List ScopeOp) (h : Heap), h.Ordered → (ops.foldl after h).Ordered := by
    intro ops
    induction ops with
    | nil => exact fun h ho => ho
    | cons op ops ih => exact fun h ho => ih (h.after op) (ordered_after ho op)
  refine hfold ops _ fun s outer houter => ?_
  have hs : s = 0 := Nat.lt_one_iff.mp (lt_size_of_enclosing _ houter)
  subst hs
  cases houter

/-! ### The nearest binding -/

theorem bindsAt_zero : h.BindsAt s 0 x ↔ (h.getLocal? s x).isSome := by
  simp [BindsAt, ancestor?]

theorem bindsAt_succ (houter : (h.scope s).enclosing = some outer) :
    h.BindsAt s (d + 1) x ↔ h.BindsAt outer d x := by
  simp [BindsAt, ancestor?, houter]

theorem bindsAt_iff_holderAt? : h.BindsAt s d x ↔ (h.holderAt? s d x).isSome := by
  rw [BindsAt]
  cases ha : h.ancestor? s d with
  | none => simp [holderAt?, ha]
  | some t =>
    rw [holderAt?_eq h ha]
    by_cases hx : (h.getLocal? t x).isSome <;> simp [hx]

instance : Decidable (h.BindsAt s d x) := decidable_of_iff _ bindsAt_iff_holderAt?.symm

theorem isNearest_iff : h.IsNearest s x d ↔ h.BindsAt s d x ∧ ∀ k < d, ¬ h.BindsAt s k x :=
  and_congr_right fun _ =>
    ⟨fun hleast _ hlt hk => absurd (hleast hk) (Nat.not_le_of_lt hlt),
      fun hfree k hk => Nat.le_of_not_lt fun hlt => hfree k hlt hk⟩

instance : Decidable (h.IsNearest s x d) := decidable_of_iff _ isNearest_iff.symm

theorem isNearest_succ (hlocal : h.getLocal? s x = none)
    (houter : (h.scope s).enclosing = some outer) :
    h.IsNearest s x (d + 1) ↔ h.IsNearest outer x d := by
  have hzero : ¬ h.BindsAt s 0 x := by simp [bindsAt_zero, hlocal]
  constructor
  · rintro ⟨hbinds, hleast⟩
    refine ⟨(bindsAt_succ houter).mp hbinds, fun k hk => ?_⟩
    exact Nat.le_of_succ_le_succ (hleast ((bindsAt_succ houter).mpr hk))
  · rintro ⟨hbinds, hleast⟩
    refine ⟨(bindsAt_succ houter).mpr hbinds, fun k hk => ?_⟩
    cases k with
    | zero => exact absurd hk hzero
    | succ k => exact Nat.succ_le_succ (hleast ((bindsAt_succ houter).mp hk))

theorem holder?_eq (h : Heap) (s : ScopeId) (x : String) :
    h.holder? s x = if (h.getLocal? s x).isSome then some s
      else (h.scope s).enclosing.bind fun outer =>
        if outer < s then h.holder? outer x else none := by
  rw [holder?, contains_iff_getLocal?]
  cases (h.scope s).enclosing <;> rfl

theorem sees_of_holder? (hs : h.holder? s x = some home) : h.Sees s x home := by
  fun_induction Heap.holder? h s x with
  | case1 s hx =>
    cases hs
    exact ⟨0, ⟨bindsAt_zero.mpr hx, fun _ _ => Nat.zero_le _⟩, rfl⟩
  | case2 s hx outer houter hlt ih =>
    obtain ⟨d, hd, ha⟩ := ih hs
    have hlocal : h.getLocal? s x = none := by
      simpa [contains_iff_getLocal?] using hx
    refine ⟨d + 1, (isNearest_succ hlocal houter).mpr hd, ?_⟩
    rw [ancestor?, houter]
    exact ha
  | case3 => cases hs
  | case4 => cases hs

/-- What is seen is found by a walk, as the walk goes to ever earlier scopes. -/
theorem holder?_of_sees (ho : h.Ordered) (hsees : h.Sees s x home) :
    h.holder? s x = some home := by
  obtain ⟨d, hd, ha⟩ := hsees
  induction d generalizing s with
  | zero =>
    cases ha
    exact holder?_of_getLocal? h (bindsAt_zero.mp hd.1)
  | succ d ih =>
    have hlocal : h.getLocal? s x = none := by
      rw [← Option.not_isSome_iff_eq_none, ← bindsAt_zero]
      exact fun hzero => absurd (hd.2 hzero) (Nat.not_succ_le_zero d)
    cases houter : (h.scope s).enclosing with
    | none => simp [ancestor?, houter] at ha
    | some outer =>
      rw [ancestor?, houter] at ha
      rw [holder?_eq, hlocal, houter, Option.bind_some, if_pos (ho s outer houter)]
      exact ih ((isNearest_succ hlocal houter).mp hd) ha

theorem holder?_eq_none (hunbound : ¬ ∃ d, h.IsNearest s x d) : h.holder? s x = none := by
  cases hs : h.holder? s x with
  | none => rfl
  | some home =>
    obtain ⟨d, hd, -⟩ := sees_of_holder? hs
    exact absurd ⟨d, hd⟩ hunbound

/-! ### Reading and writing -/

theorem get?_eq (h : Heap) (s : ScopeId) (x : String) :
    h.get? s x = (h.holder? s x).bind (h.getLocal? · x) := by
  rw [get?]
  cases h.holder? s x <;> rfl

theorem isSome_getAt? : (h.getAt? s d x).isSome ↔ h.BindsAt s d x := by
  rw [BindsAt, getAt?]
  cases h.ancestor? s d <;> simp

theorem isSome_assignAt? : (h.assignAt? s d x v).isSome ↔ h.BindsAt s d x := by
  rw [assignAt?_eq, Option.isSome_map, bindsAt_iff_holderAt?]

/-- Walks depend on the scopes around scopes and on which scopes bind the name, not on values. -/
theorem holder?_congr (henclosing : ∀ t, (h'.scope t).enclosing = (h.scope t).enclosing)
    (hbound : ∀ t, (h'.getLocal? t x).isSome = (h.getLocal? t x).isSome) (s : ScopeId) :
    h'.holder? s x = h.holder? s x := by
  induction s using Nat.strong_induction_on with
  | _ s ih =>
    rw [holder?_eq, holder?_eq h, hbound, henclosing]
    cases (h.scope s).enclosing with
    | none => rfl
    | some outer =>
      by_cases hlt : outer < s
      · simp only [Option.bind_some, if_pos hlt, ih outer hlt]
      · simp only [Option.bind_some, if_neg hlt]

/-- One binding has another value, and nothing else has changed: no other binding of any scope, no
scope around a scope, and no object. -/
structure Rebinds (h : Heap) (home : ScopeId) (x : String) (v : Value) (h' : Heap) : Prop where
  binding : h'.getLocal? home x = some v
  others : ∀ t y, (t, y) ≠ (home, x) → h'.getLocal? t y = h.getLocal? t y
  size : h'.scopes.size = h.scopes.size
  enclosing : ∀ t, (h'.scope t).enclosing = (h.scope t).enclosing
  objects : h'.functions = h.functions ∧ h'.classes = h.classes ∧ h'.instances = h.instances

theorem rebinds_define (hx : (h.getLocal? home x).isSome) (v : Value) :
    h.Rebinds home x v (h.define home x v) where
  binding := by simp [getLocal?_define, lt_size_of_getLocal? h hx]
  others t y hne := by
    rw [getLocal?_define, if_neg]
    rintro ⟨⟨rfl, -⟩, rfl⟩
    exact hne rfl
  size := size_define h home x v
  enclosing := enclosing_define h home x v
  objects := ⟨rfl, rfl, rfl⟩

namespace Rebinds

theorem holder? (hr : h.Rebinds home x v h') (hx : (h.getLocal? home x).isSome) (t : ScopeId) :
    h'.holder? t x = h.holder? t x := by
  refine holder?_congr hr.enclosing (fun u => ?_) t
  by_cases hu : u = home
  · rw [hu, hr.binding, hx]
    rfl
  · rw [hr.others u x fun heq => hu (Prod.mk.inj heq).1]

theorem get?_of_sees (hr : h.Rebinds home x v h') (ho : h.Ordered)
    (hx : (h.getLocal? home x).isSome) (ht : h.Sees t x home) : h'.get? t x = some v := by
  rw [get?_eq, hr.holder? hx, holder?_of_sees ho ht]
  exact hr.binding

theorem get?_of_not_sees (hr : h.Rebinds home x v h') (hx : (h.getLocal? home x).isSome)
    (ht : ¬ h.Sees t x home) : h'.get? t x = h.get? t x := by
  rw [get?_eq, get?_eq, hr.holder? hx]
  cases hfound : h.holder? t x with
  | none => rfl
  | some other =>
    refine hr.others other x fun heq => ht ?_
    exact (Prod.mk.inj heq).1 ▸ sees_of_holder? hfound

end Rebinds

end Heap

/-! ### Failures -/

/-- A computation fails, as a name is undefined, and leaves the machine as it is. -/
def Eval.Undefined {α : Type} (p : Eval α) (name : Token) (m : Machine) : Prop :=
  p m = .error ⟨.undefinedVariable, name, "Undefined variable '" ++ name.lexeme ++ "'."⟩ m

variable {h : Heap} {s : ScopeId} {x : String} {d : Nat}

/-- Walks from a scope to a name that is not bound: those that look for a global variable, which
have no recorded distance, and those that look for any variable. -/
structure Heap.WalksFail (h : Heap) (s : ScopeId) (x : String) : Prop where
  get : h.get? s x = none
  assign : ∀ v, h.assign? s x v = none
  reading : ∀ m id name, m.heap = h → m.globals = s → m.distances.find? id = none →
    name.lexeme = x → Eval.Undefined (Eval.readVariable id name) name m
  writing : ∀ m id name v, m.heap = h → m.globals = s → m.distances.find? id = none →
    name.lexeme = x → Eval.Undefined (Eval.writeVariable id name v) name m
  assigning : ∀ m name v, m.heap = h → m.current = s → name.lexeme = x →
    Eval.Undefined (Eval.assign name v) name m

theorem Heap.walksFail (hnone : h.holder? s x = none) : h.WalksFail s x := by
  have hget : h.get? s x = none := by rw [Heap.get?_eq, hnone]; rfl
  refine ⟨hget, fun v => ?_, ?_, ?_, ?_⟩
  · rw [Heap.assign?_eq, hnone]
    rfl
  · rintro m id name rfl rfl hdistance rfl
    simp only [Eval.Undefined, Eval.readVariable, hdistance, hget]
    rfl
  · rintro m id name v rfl rfl hdistance rfl
    simp only [Eval.Undefined, Eval.writeVariable, hdistance, hnone]
    rfl
  · rintro m name v rfl rfl rfl
    simp only [Eval.Undefined, Eval.assign, hnone]
    rfl

/-- Access a given number of steps out. It succeeds if and only if the name is bound there, and if
it fails nothing changes. -/
structure Heap.AccessAt (h : Heap) (s : ScopeId) (x : String) (d : Nat) : Prop where
  get : (h.getAt? s d x).isSome ↔ h.BindsAt s d x
  assign : ∀ v, (h.assignAt? s d x v).isSome ↔ h.BindsAt s d x
  reading : ¬ h.BindsAt s d x → ∀ m id name, m.heap = h → m.current = s →
    m.distances.find? id = some d → name.lexeme = x →
    Eval.Undefined (Eval.readVariable id name) name m
  writing : ¬ h.BindsAt s d x → ∀ m id name v, m.heap = h → m.current = s →
    m.distances.find? id = some d → name.lexeme = x →
    Eval.Undefined (Eval.writeVariable id name v) name m

theorem Heap.accessAt (h : Heap) (s : ScopeId) (x : String) (d : Nat) : h.AccessAt s x d := by
  refine ⟨isSome_getAt?, fun v => isSome_assignAt?, fun hfree => ?_, fun hfree => ?_⟩
  · rintro m id name rfl rfl hdistance rfl
    rw [← isSome_getAt?, Option.not_isSome_iff_eq_none] at hfree
    simp only [Eval.Undefined, Eval.readVariable, hdistance, hfree]
    rfl
  · rintro m id name v rfl rfl hdistance rfl
    rw [bindsAt_iff_holderAt?, Option.not_isSome_iff_eq_none] at hfree
    simp only [Eval.Undefined, Eval.writeVariable, hdistance, hfree]
    rfl

/-! ### Agreement -/

/-- Walks from a scope and access at a distance from it come to the same binding, the one of
`home`. -/
structure Heap.Agrees (h : Heap) (s : ScopeId) (x : String) (d : Nat) (home : ScopeId) :
    Prop where
  get : ∃ v, h.get? s x = some v ∧ h.getAt? s d x = some v
  assign : ∀ v, ∃ h', h.assign? s x v = some h' ∧ h.assignAt? s d x v = some h' ∧
    h.Rebinds home x v h' ∧
    (∀ t, h.Sees t x home → h'.get? t x = some v) ∧
    ∀ t, ¬ h.Sees t x home → h'.get? t x = h.get? t x
  /-- A value that has been written is read afterwards from the scopes that see the same binding,
  and from those that have read it before. -/
  reads_iff : ∀ v h', h.assign? s x v = some h' →
    ∀ t, h'.get? t x = some v ↔ h.Sees t x home ∨ h.get? t x = some v

theorem Heap.agrees {home : ScopeId} (ho : h.Ordered) (hd : h.IsNearest s x d)
    (ha : h.ancestor? s d = some home) : h.Agrees s x d home := by
  have hholder : h.holder? s x = some home := holder?_of_sees ho ⟨d, hd, ha⟩
  have hx : (h.getLocal? home x).isSome := by
    obtain ⟨t, ht, hx⟩ := hd.1
    rw [ha, Option.some.injEq] at ht
    exact ht ▸ hx
  have hassign : ∀ v, h.assign? s x v = some (h.define home x v) := fun v => by
    rw [assign?_eq, hholder]
    rfl
  have hrebinds : ∀ v, h.Rebinds home x v (h.define home x v) := rebinds_define hx
  refine ⟨?_, fun v => ⟨_, hassign v, ?_, hrebinds v, ?_, ?_⟩, fun v h' hv t => ?_⟩
  · obtain ⟨v, hv⟩ := Option.isSome_iff_exists.mp hx
    refine ⟨v, ?_, ?_⟩
    · rw [get?_eq, hholder]
      exact hv
    · rw [getAt?_eq h x ha, hv]
  · rw [assignAt?_eq, holderAt?_eq h ha, if_pos hx]
    rfl
  · exact fun t ht => (hrebinds v).get?_of_sees ho hx ht
  · exact fun t ht => (hrebinds v).get?_of_not_sees hx ht
  · rw [hassign, Option.some.injEq] at hv
    subst hv
    by_cases ht : h.Sees t x home
    · exact iff_of_true ((hrebinds v).get?_of_sees ho hx ht) (.inl ht)
    · rw [(hrebinds v).get?_of_not_sees hx ht, or_iff_right ht]

/-- In every tree of scopes, seen from any scope: if a name is bound at some distance, then walking
to it and going the least such distance give the same value and make the same change, of the one
binding and of nothing else; if it is not, then walks fail with an undefined variable and change
nothing; and access at a distance succeeds if and only if the name is bound there. -/
theorem walking_and_indexed_access_agree (ops : List ScopeOp) (s : ScopeId) (x : String) :
    (∀ d, (Heap.built ops).IsNearest s x d →
      ∃ home, (Heap.built ops).ancestor? s d = some home ∧
        (Heap.built ops).Agrees s x d home) ∧
    ((¬ ∃ d, (Heap.built ops).IsNearest s x d) → (Heap.built ops).WalksFail s x) ∧
    ∀ d, (Heap.built ops).AccessAt s x d := by
  refine ⟨fun d hd => ?_, fun hunbound => ?_, fun d => Heap.accessAt _ s x d⟩
  · obtain ⟨home, ha, -⟩ := hd.1
    exact ⟨home, ha, Heap.agrees (Heap.ordered_built ops) hd ha⟩
  · exact Heap.walksFail (Heap.holder?_eq_none hunbound)

/-- A scope with two children and a child of one of these. A name is bound in two of them, after all
have been created. -/
def shadowingTree : List ScopeOp :=
  [.child 0, .child 1, .child 0, .define 0 "x" .nil, .define 1 "x" (.bool true)]

/-- A name that is changed from the innermost scope of `shadowingTree` is changed in the scope
around it. The other child goes on to see the outermost binding. -/
theorem shadowed_name_is_changed_where_it_is_seen :
    (Heap.built shadowingTree).IsNearest 2 "x" 1 ∧
      ∃ h', (Heap.built shadowingTree).assign? 2 "x" (.bool false) = some h' ∧
        (Heap.built shadowingTree).assignAt? 2 1 "x" (.bool false) = some h' ∧
        h'.get? 1 "x" = some (.bool false) ∧ h'.get? 3 "x" = some .nil ∧
        (Heap.built shadowingTree).WalksFail 2 "y" := by
  have hnear : (Heap.built shadowingTree).IsNearest 2 "x" 1 := by decide
  have hacross : (Heap.built shadowingTree).IsNearest 3 "x" 1 := by decide
  obtain ⟨home, ha, hagrees⟩ := (walking_and_indexed_access_agree shadowingTree 2 "x").1 1 hnear
  obtain rfl : 1 = home := Option.some.inj (ha ▸ rfl)
  obtain ⟨h', hassign, hassignAt, -, hsees, hspared⟩ := hagrees.assign (.bool false)
  refine ⟨hnear, h', hassign, hassignAt, hsees 1 ⟨0, by decide, rfl⟩, ?_, ?_⟩
  · have hnot : ¬ (Heap.built shadowingTree).Sees 3 "x" 1 := by
      rintro ⟨d, hd, hone⟩
      rw [hd.unique hacross] at hone
      exact absurd hone (by decide)
    obtain ⟨_, _, hother⟩ := (walking_and_indexed_access_agree shadowingTree 3 "x").1 1 hacross
    obtain ⟨v, hv, hat⟩ := hother.get
    rw [hspared 3 hnot, hv, ← hat]
    decide
  · refine (walking_and_indexed_access_agree shadowingTree 2 "y").2.1 ?_
    rintro ⟨d, ⟨t, ht, hy⟩, -⟩
    have hlt : t < 4 := Heap.lt_size_of_getLocal? _ hy
    have hfree : ∀ t < 4, ¬ ((Heap.built shadowingTree).getLocal? t "y").isSome := by decide
    exact hfree t hlt hy

/-- A scope and a child of it that bind the same name. -/
def nestedTree : List ScopeOp := [.child 0, .define 0 "x" .nil, .define 1 "x" (.bool true)]

/-- A value that is written into the inner scope of `nestedTree` is read from the outer one too,
where it was before. So it is not read from those scopes only that see the inner binding. -/
theorem written_value_is_read_where_it_was_before :
    (Heap.built nestedTree).IsNearest 1 "x" 0 ∧
      ∃ h', (Heap.built nestedTree).assign? 1 "x" .nil = some h' ∧
        ¬ ∀ t, h'.get? t "x" = some .nil ↔ (Heap.built nestedTree).Sees t "x" 1 := by
  have hinner : (Heap.built nestedTree).IsNearest 1 "x" 0 := by decide
  have houter : (Heap.built nestedTree).IsNearest 0 "x" 0 := by decide
  have hagrees := Heap.agrees (Heap.ordered_built nestedTree) hinner rfl
  obtain ⟨h', hassign, -⟩ := hagrees.assign .nil
  refine ⟨hinner, h', hassign, fun hreads => ?_⟩
  have hbefore : (Heap.built nestedTree).get? 0 "x" = some .nil := by
    obtain ⟨v, hv, hat⟩ := (Heap.agrees (Heap.ordered_built nestedTree) houter rfl).get
    rw [hv, ← hat]
    decide
  obtain ⟨d, hd, hone⟩ := (hreads 0).mp ((hagrees.reads_iff .nil h' hassign 0).mpr (.inr hbefore))
  rw [hd.unique houter] at hone
  exact absurd hone (by decide)

end Lox
