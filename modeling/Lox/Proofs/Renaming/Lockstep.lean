import Lox.Proofs.Renaming.Heaps

/-!
# Computations in lockstep

`Lockstep` relates the ends of two computations that started on related machines: both end in the
same way, on related machines, with results that satisfy a given relation, or with the same error up
to the renamed name. Its rules follow the monad: one for a sequence, one for a change of scope, one
for the end of a call, and one for each primitive operation.
-/

namespace Lox

/-! ### Errors -/

/-- An error and the error of the renamed program. They are the same, unless they blame a renamed
token; and then only the report of an undefined variable shows the name. -/
inductive SameError (ρ : Exchange) : RuntimeError → RuntimeError → Prop where
  | same (e : RuntimeError) : SameError ρ e e
  | blamed {t : Token} (kind : ErrorKind) (message : String) (ht : t.lexeme = ρ.old) :
    SameError ρ ⟨kind, t, message⟩ ⟨kind, { t with lexeme := ρ.new }, message⟩
  | undefined {t : Token} (ht : t.lexeme = ρ.old)
    (hplace : ρ.exchanges t { t with lexeme := ρ.new }) :
    SameError ρ ((Fault.undefinedVariable ρ.old).at_ t)
      ((Fault.undefinedVariable ρ.new).at_ { t with lexeme := ρ.new })

variable {α β : Type} {ρ : Exchange} {T T₁ : Marking} {m m' m₁ m₁' : Machine} {sid : ScopeId}
  {marks : Marks} {marked : Bool} {t t' : Token}

theorem Renaming.Renames.undefined (h : ρ.Renames marked t t')
    (hplace : t' ≠ t → ρ.exchanges t t') :
    SameError ρ ((Fault.undefinedVariable t.lexeme).at_ t)
      ((Fault.undefinedVariable t'.lexeme).at_ t') := by
  rcases eq_or_ne t' t with rfl | hne
  · exact .same _
  · rcases ρ.declaration_cases marked t with heq | ⟨hold, heq⟩
    · exact absurd (h.eq.trans heq) hne
    · have hnew := h.eq.trans heq
      subst hnew
      rw [hold]
      exact .undefined hold (hplace hne)

theorem Renaming.Renames.blamed (h : ρ.Renames marked t t') {f : Fault} :
    SameError ρ (f.at_ t) (f.at_ t') := by
  rw [h.eq]
  rcases ρ.declaration_cases marked t with heq | ⟨hold, heq⟩
  · rw [heq]
    exact .same _
  · rw [heq]
    exact .blamed _ _ hold

/-! ### Rules of the monad -/

/-- Two computations that started on `m` and its counterpart end alike. Their results satisfy `Q` on
the machine and with the marking that they have at the end. -/
inductive Lockstep (ρ : Exchange) (T : Marking) (m : Machine)
    (Q : Marking → Machine → α → α → Prop) : Outcome α → Outcome α → Prop where
  | ok {T₁ : Marking} {m₁ m₁' : Machine} {a a' : α} (hr : m₁.Renamed ρ T₁ m₁')
    (hl : Later T m T₁ m₁) (hq : Q T₁ m₁ a a') : Lockstep ρ T m Q (.ok a m₁) (.ok a' m₁')
  | error {T₁ : Marking} {m₁ m₁' : Machine} {e e' : RuntimeError} (hr : m₁.Renamed ρ T₁ m₁')
    (hl : Later T m T₁ m₁) (he : SameError ρ e e') :
    Lockstep ρ T m Q (.error e m₁) (.error e' m₁')
  | returned {T₁ : Marking} {m₁ m₁' : Machine} (keyword : Token) (v : Value)
    (hr : m₁.Renamed ρ T₁ m₁') (hl : Later T m T₁ m₁) :
    Lockstep ρ T m Q (.returned keyword v m₁) (.returned keyword v m₁')
  | outOfFuel : Lockstep ρ T m Q .outOfFuel .outOfFuel

/-- Both computations have the same result. -/
def sameResult (_ : Marking) (_ : Machine) (a a' : α) : Prop := a' = a

section Rules

variable {Q : Marking → Machine → α → α → Prop} {R : Marking → Machine → β → β → Prop}

theorem lockstep_pure (hr : m.Renamed ρ T m') (a : α) :
    Lockstep ρ T m sameResult ((pure a : Eval α) m) ((pure a : Eval α) m') :=
  .ok hr (.refl T m) rfl

theorem lockstep_fault (hr : m.Renamed ρ T m') (f : Fault) (t : Token) :
    Lockstep ρ T m Q (Eval.fault f t m) (Eval.fault f t m') :=
  .error hr (.refl T m) (.same _)

theorem lockstep_ofExcept (hr : m.Renamed ρ T m') (t : Token) (r : Except Fault α) :
    Lockstep ρ T m sameResult (Eval.ofExcept t r m) (Eval.ofExcept t r m') := by
  cases r with
  | ok a => exact lockstep_pure hr a
  | error f => exact lockstep_fault hr f t

theorem Lockstep.from_later {o o' : Outcome α} (h : Lockstep ρ T₁ m₁ Q o o')
    (hl : Later T m T₁ m₁) : Lockstep ρ T m Q o o' := by
  cases h with
  | ok hr hl₁ hq => exact .ok hr (hl.trans hl₁) hq
  | error hr hl₁ he => exact .error hr (hl.trans hl₁) he
  | returned keyword v hr hl₁ => exact .returned keyword v hr (hl.trans hl₁)
  | outOfFuel => exact .outOfFuel

theorem Lockstep.bind {p p' : Eval α} {f f' : α → Eval β} (hp : Lockstep ρ T m Q (p m) (p' m'))
    (hf : ∀ {T₁ m₁ m₁' a a'}, m₁.Renamed ρ T₁ m₁' → Later T m T₁ m₁ → Q T₁ m₁ a a' →
      Lockstep ρ T₁ m₁ R (f a m₁) (f' a' m₁')) :
    Lockstep ρ T m R ((p >>= f) m) ((p' >>= f') m') := by
  show Lockstep ρ T m R (Eval.bind p f m) (Eval.bind p' f' m')
  unfold Eval.bind
  generalize p m = o, p' m' = o' at hp
  cases hp with
  | ok hr hl hq => exact (hf hr hl hq).from_later hl
  | error hr hl he => exact .error hr hl he
  | returned keyword v hr hl => exact .returned keyword v hr hl
  | outOfFuel => exact .outOfFuel

theorem Lockstep.mono {Q' : Marking → Machine → α → α → Prop} {o o' : Outcome α}
    (h : Lockstep ρ T m Q o o')
    (hq : ∀ {T₁ m₁ a a'}, Later T m T₁ m₁ → Q T₁ m₁ a a' → Q' T₁ m₁ a a') :
    Lockstep ρ T m Q' o o' := by
  cases h with
  | ok hr hl hres => exact .ok hr hl (hq hl hres)
  | error hr hl he => exact .error hr hl he
  | returned keyword v hr hl => exact .returned keyword v hr hl
  | outOfFuel => exact .outOfFuel

theorem Lockstep.andThen {p p' : Eval α} {f f' : α → Eval β}
    (hp : Lockstep ρ T m sameResult (p m) (p' m'))
    (hf : ∀ {T₁ m₁ m₁'} a, m₁.Renamed ρ T₁ m₁' → Later T m T₁ m₁ →
      Lockstep ρ T₁ m₁ R (f a m₁) (f' a m₁')) :
    Lockstep ρ T m R ((p >>= f) m) ((p' >>= f') m') :=
  hp.bind fun {_ _ _ a _} hr hl heq => by
    rw [heq]
    exact hf a hr hl

theorem Machine.Renamed.withCurrent (hr : m.Renamed ρ T m') (s : ScopeId) :
    Machine.Renamed ρ T { m with current := s } { m' with current := s } :=
  { hr with current := rfl }

theorem Lockstep.withScope {p p' : Eval α} {s : ScopeId} (hcurrent : m'.current = m.current)
    (hp : Lockstep ρ T { m with current := s } sameResult (p { m with current := s })
      (p' { m' with current := s })) :
    Lockstep ρ T m sameResult (Eval.withScope s p m) (Eval.withScope s p' m') := by
  have hback : ∀ {T₁ : Marking} {m₁ : Machine}, Later T { m with current := s } T₁ m₁ →
      Later T m T₁ { m₁ with current := m.current } := fun hl =>
    ⟨rfl, hl.heap, hl.continues⟩
  unfold Eval.withScope
  rw [hcurrent]
  generalize p { m with current := s } = o, p' { m' with current := s } = o' at hp
  cases hp with
  | ok hr hl hq => exact .ok (hr.withCurrent m.current) (hback hl) hq
  | error hr hl he => exact .error (hr.withCurrent m.current) (hback hl) he
  | returned keyword v hr hl => exact .returned keyword v (hr.withCurrent m.current) (hback hl)
  | outOfFuel => exact .outOfFuel

theorem Lockstep.catchReturn {p p' : Eval Unit} (hp : Lockstep ρ T m sameResult (p m) (p' m')) :
    Lockstep ρ T m sameResult (Eval.catchReturn p m) (Eval.catchReturn p' m') := by
  unfold Eval.catchReturn
  generalize p m = o, p' m' = o' at hp
  cases hp with
  | ok hr hl hq => exact .ok hr hl rfl
  | error hr hl he => exact .error hr hl he
  | returned keyword v hr hl => exact .ok hr hl rfl
  | outOfFuel => exact .outOfFuel

end Rules

/-! ### Scopes and names -/

theorem Machine.Renamed.withHeap (hr : m.Renamed ρ T m') {h h' : Heap} (he : m.heap.Extends h)
    (hc : T.Continues m.heap T₁) (hheap : h.Renamed ρ T₁ h') :
    Machine.Renamed ρ T₁ { m with heap := h } { m' with heap := h' } :=
  { hr with heap := hheap, root := hr.root.of_extends he hc }

theorem Later.withHeap {h : Heap} (he : m.heap.Extends h) (hc : T.Continues m.heap T₁) :
    Later T m T₁ { m with heap := h } :=
  ⟨rfl, he, hc⟩

theorem lockstep_define (hr : m.Renamed ρ T m') (ha : Along T m.heap m.current marks)
    (h : ρ.Renames (marks.headD false) t t') (v : Value) :
    Lockstep ρ T m (fun _ m₁ _ _ => (m₁.heap.getLocal? m₁.current t.lexeme).isSome)
      (Eval.define t.lexeme v m) (Eval.define t'.lexeme v m') := by
  have he := m.heap.extends_define m.current t.lexeme v
  refine .ok (hr.withHeap he (.refl T m.heap) ?_) (.withHeap he (.refl T m.heap)) ?_
  · rw [hr.current]
    exact hr.heap.define m.current (by rw [h.lexeme, ha.head]) v
  · show ((m.heap.define m.current t.lexeme v).getLocal? m.current t.lexeme).isSome
    rw [Heap.getLocal?_define, if_pos ⟨⟨rfl, ha.lt_size⟩, rfl⟩]
    rfl

theorem lockstep_read (hr : m.Renamed ρ T m') (h : ρ.Renames marked t t')
    (hplace : t' ≠ t → ρ.exchanges t t') (found found' : Option Value) :
    found' = found → Lockstep ρ T m sameResult
      (match found with
        | some v => .ok v m
        | none => .error ((Fault.undefinedVariable t.lexeme).at_ t) m)
      (match found' with
        | some v => .ok v m'
        | none => .error ((Fault.undefinedVariable t'.lexeme).at_ t') m') := by
  rintro rfl
  cases found' with
  | none => exact .error hr (.refl T m) (h.undefined hplace)
  | some v => exact lockstep_pure hr v

theorem lockstep_write (hr : m.Renamed ρ T m') (h : ρ.Renames marked t t')
    (hplace : t' ≠ t → ρ.exchanges t t') (holder holder' : Option ScopeId) (v : Value) :
    holder' = holder → (∀ s, holder = some s → T s = marked) → Lockstep ρ T m sameResult
      (match holder with
        | some s => .ok () { m with heap := m.heap.define s t.lexeme v }
        | none => .error ((Fault.undefinedVariable t.lexeme).at_ t) m)
      (match holder' with
        | some s => .ok () { m' with heap := m'.heap.define s t'.lexeme v }
        | none => .error ((Fault.undefinedVariable t'.lexeme).at_ t') m') := by
  rintro rfl hmark
  cases holder' with
  | none => exact .error hr (.refl T m) (h.undefined hplace)
  | some s =>
    have he := m.heap.extends_define s t.lexeme v
    refine .ok (hr.withHeap he (.refl T m.heap) ?_) (.withHeap he (.refl T m.heap)) rfl
    exact hr.heap.define s (by rw [h.lexeme, hmark s rfl]) v

theorem lockstep_readVariable (hr : m.Renamed ρ T m') (ha : Along T m.heap m.current marks)
    {id : NodeId} (h : ρ.Renames (ρ.reaches marks id) t t')
    (hplace : t' ≠ t → ρ.exchanges t t') :
    Lockstep ρ T m sameResult (Eval.readVariable id t m) (Eval.readVariable id t' m') := by
  refine lockstep_read hr h hplace _ _ ?_
  rw [h.lexeme, Renaming.reaches, hr.distances, hr.current, hr.globals, hr.recorded]
  cases ρ.distances.find? id with
  | none => exact hr.heap.get? t.lexeme hr.root
  | some k => exact hr.heap.getAt? ha k t.lexeme

theorem lockstep_writeVariable (hr : m.Renamed ρ T m') (ha : Along T m.heap m.current marks)
    {id : NodeId} (h : ρ.Renames (ρ.reaches marks id) t t')
    (hplace : t' ≠ t → ρ.exchanges t t') (v : Value) :
    Lockstep ρ T m sameResult (Eval.writeVariable id t v m) (Eval.writeVariable id t' v m') := by
  refine lockstep_write hr h hplace _ _ v ?_ ?_
  · rw [h.lexeme, Renaming.reaches, hr.distances, hr.current, hr.globals, hr.recorded]
    cases ρ.distances.find? id with
    | none => exact hr.heap.holder? t.lexeme hr.root
    | some k => exact hr.heap.holderAt? ha k t.lexeme
  · intro s hs
    rw [hr.recorded] at hs
    rw [Renaming.reaches]
    cases hk : ρ.distances.find? id with
    | none =>
      rw [hk] at hs
      exact hr.root.holder? hs
    | some k =>
      rw [hk] at hs
      exact (ha k s (m.heap.ancestor?_of_holderAt? hs)).2

theorem lockstep_assign (hr : m.Renamed ρ T m') (ha : Along T m.heap m.current marks)
    (h : ρ.Renames (marks.headD false) t t)
    (hbound : (m.heap.getLocal? m.current t.lexeme).isSome) (v : Value) :
    Lockstep ρ T m sameResult (Eval.assign t v m) (Eval.assign t v m') := by
  have hbound' : (m'.heap.getLocal? m.current t.lexeme).isSome := by
    rw [h.lexeme, ← ha.head, hr.heap.values]
    exact hbound
  refine lockstep_write hr h (fun hne => absurd rfl hne) _ _ v ?_ ?_
  · rw [hr.current, m.heap.holder?_of_getLocal? hbound, m'.heap.holder?_of_getLocal? hbound']
  · intro s hs
    rw [m.heap.holder?_of_getLocal? hbound, Option.some.injEq] at hs
    rw [← hs]
    exact ha.head

theorem lockstep_newScope (hr : m.Renamed ρ T m') (ha : Along T m.heap sid marks) (marked : Bool)
    {values values' : Table Value}
    (hvalues : ∀ x, values'.find? (ρ.keys marked x) = values.find? x) :
    Lockstep ρ T m (fun T₁ m₁ s s' => s' = s ∧ Along T₁ m₁.heap s (marked :: marks))
      (Eval.newScope sid values m) (Eval.newScope sid values' m') :=
  .ok (hr.withHeap (m.heap.extends_newScope _) (T.continues_push m.heap marked)
      (hr.heap.newScope sid hvalues))
    (.withHeap (m.heap.extends_newScope _) (T.continues_push m.heap marked))
    ⟨hr.heap.scopes, ha.push values marked⟩

/-! ### Objects and the world outside -/

theorem lockstep_newFunction (hr : m.Renamed ρ T m') {f f' : Function}
    (hf : f.Renamed ρ T m.heap [] f') :
    Lockstep ρ T m sameResult (Eval.newFunction f m) (Eval.newFunction f' m') :=
  .ok (hr.withHeap (Heap.extends_of_scopes rfl) (.refl T m.heap) (hr.heap.newFunction hf))
    (.withHeap (Heap.extends_of_scopes rfl) (.refl T m.heap))
    (congrArg Value.function hr.heap.functionCount)

theorem lockstep_newClass (hr : m.Renamed ρ T m') {c c' : Class} (hc : c.Renamed ρ T m.heap c') :
    Lockstep ρ T m sameResult (Eval.newClass c m) (Eval.newClass c' m') :=
  .ok (hr.withHeap (Heap.extends_of_scopes rfl) (.refl T m.heap) (hr.heap.newClass hc))
    (.withHeap (Heap.extends_of_scopes rfl) (.refl T m.heap))
    (congrArg Value.cls hr.heap.classCount)

theorem lockstep_newInstance (hr : m.Renamed ρ T m') (cls : ClassId) :
    Lockstep ρ T m sameResult (Eval.newInstance cls m) (Eval.newInstance cls m') :=
  .ok (hr.withHeap (Heap.extends_of_scopes rfl) (.refl T m.heap) (hr.heap.newInstance ⟨cls, {}⟩))
    (.withHeap (Heap.extends_of_scopes rfl) (.refl T m.heap))
    (congrArg Array.size hr.heap.instances)

theorem lockstep_setField (hr : m.Renamed ρ T m') (id : InstanceId) (x : String) (v : Value) :
    Lockstep ρ T m sameResult (Eval.setField id x v m) (Eval.setField id x v m') :=
  .ok (hr.withHeap (Heap.extends_of_scopes rfl) (.refl T m.heap) (hr.heap.setField id x v))
    (.withHeap (Heap.extends_of_scopes rfl) (.refl T m.heap)) rfl

theorem lockstep_print (hr : m.Renamed ρ T m') (v : Value) :
    Lockstep ρ T m sameResult (Eval.print v m) (Eval.print v m') := by
  unfold Eval.print
  rw [hr.output, hr.heap.display v]
  exact .ok { hr with output := rfl } ⟨rfl, .refl _, .refl T m.heap⟩ rfl

theorem lockstep_callNative (hr : m.Renamed ρ T m') (paren : Token) (f : Native) :
    Lockstep ρ T m sameResult (Eval.callNative paren f m) (Eval.callNative paren f m') := by
  have hticked : m.ticked.Renamed ρ T m'.ticked :=
    { hr with clock := by rw [Machine.ticked, Machine.ticked, hr.clock] }
  have hlater : Later T m T m.ticked := ⟨rfl, .refl _, .refl T m.heap⟩
  cases f with
  | clock =>
    unfold Eval.callNative
    show Lockstep ρ T m sameResult (Eval.bind Eval.readClock _ m) (Eval.bind Eval.readClock _ m')
    unfold Eval.bind Eval.readClock
    rw [hr.clock]
    cases m.clock.readings m.clock.taken with
    | some n => exact .ok hticked hlater rfl
    | none => exact .error hticked hlater (.same _)

theorem lockstep_checkArity (hr : m.Renamed ρ T m') (paren : Token) (expected got : Nat) :
    Lockstep ρ T m sameResult (Eval.checkArity paren expected got m)
      (Eval.checkArity paren expected got m') := by
  unfold Eval.checkArity
  split_ifs
  · exact lockstep_pure hr ()
  · exact lockstep_fault hr _ paren

/-! ### Properties and methods -/

theorem lockstep_bindThis (hr : m.Renamed ρ T m') {f f' : Function}
    (hf : f.Renamed ρ T m.heap [false] f') (this : InstanceId) :
    Lockstep ρ T m (fun T₁ m₁ f₁ f₁' => f₁.Renamed ρ T₁ m₁.heap [] f₁') (Eval.bindThis f this m)
      (Eval.bindThis f' this m') := by
  obtain ⟨⟨marks, ha, hcode⟩, hclosure, hinit⟩ := hf
  unfold Eval.bindThis
  rw [hclosure]
  refine (lockstep_newScope hr ha false fun x => rfl).bind fun hr₁ _ hscope => ?_
  exact .ok hr₁ (.refl _ _) ⟨⟨false :: marks, hscope.2, hcode⟩, hscope.1, hinit⟩

theorem lockstep_boundMethod (hr : m.Renamed ρ T m') {f f' : Function}
    (hf : f.Renamed ρ T m.heap [false] f') (this : InstanceId) :
    Lockstep ρ T m sameResult (Eval.boundMethod f this m) (Eval.boundMethod f' this m') :=
  (lockstep_bindThis hr hf this).bind fun hr₁ _ hbound => lockstep_newFunction hr₁ hbound

theorem lockstep_method (hr : m.Renamed ρ T m') (id : ClassId) (name : Token)
    (this : InstanceId) :
    Lockstep ρ T m sameResult (Eval.methodOf id name this m) (Eval.methodOf id name this m') := by
  have hmethod := hr.heap.findMethod? id name.lexeme
  generalize hfound : m.heap.findMethod? id name.lexeme = f,
    hfound' : m'.heap.findMethod? id name.lexeme = f' at hmethod
  cases hmethod with
  | none =>
    rw [Eval.methodOf_none hfound, Eval.methodOf_none hfound']
    exact lockstep_fault hr _ name
  | some hf =>
    rw [Eval.methodOf_some hfound, Eval.methodOf_some hfound']
    exact lockstep_boundMethod hr hf this

theorem lockstep_getProperty (hr : m.Renamed ρ T m') (object : Value) (name : Token) :
    Lockstep ρ T m sameResult (Eval.getProperty object name m)
      (Eval.getProperty object name m') := by
  cases object with
  | inst id =>
    have hinst : m'.heap.inst id = m.heap.inst id := by
      rw [Heap.inst, Heap.inst, hr.heap.instances]
    cases hfield : (m.heap.inst id).fields.find? name.lexeme with
    | some v =>
      rw [Eval.getProperty_field hfield, Eval.getProperty_field (hinst ▸ hfield)]
      exact lockstep_pure hr v
    | none =>
      rw [Eval.getProperty_method hfield, Eval.getProperty_method (hinst ▸ hfield), hinst]
      exact lockstep_method hr (m.heap.inst id).cls name id
  | _ => exact lockstep_fault hr _ name

theorem lockstep_fieldOwner (hr : m.Renamed ρ T m') (object : Value) (name : Token) :
    Lockstep ρ T m sameResult (Eval.fieldOwner object name m) (Eval.fieldOwner object name m') := by
  cases object with
  | inst id => exact lockstep_pure hr id
  | _ => exact lockstep_fault hr _ name

/-! ### Access to the superclass -/

theorem Renaming.Proper.keys_this (hρ : ρ.Proper) (marked : Bool) :
    ρ.keys marked "this" = "this" :=
  ρ.keys_of_ne marked fun _ => hρ.this

theorem lockstep_superclassAt (hr : m.Renamed ρ T m') (ha : Along T m.heap m.current marks)
    (k : Nat) (h : ρ.Renames (marks.getD k false) t t) :
    Lockstep ρ T m sameResult (Eval.superclassAt k t m) (Eval.superclassAt k t m') := by
  have hvalue := hr.heap.getAt? ha k t.lexeme
  rw [← h.lexeme] at hvalue
  unfold Eval.superclassAt
  rw [hr.current, hvalue]
  cases m.heap.getAt? m.current k t.lexeme with
  | none => exact .error hr (.refl T m) (.same _)
  | some v =>
    cases v with
    | cls id => exact lockstep_pure hr id
    | _ => exact .error hr (.refl T m) (.same _)

theorem lockstep_thisInside (hρ : ρ.Proper) (hr : m.Renamed ρ T m')
    (ha : Along T m.heap m.current marks) (k : Nat) (t : Token) :
    Lockstep ρ T m sameResult (Eval.thisInside k t m) (Eval.thisInside k t m') := by
  cases k with
  | zero => exact .error hr (.refl T m) (.same _)
  | succ k =>
    have hvalue := hr.heap.getAt? ha k "this"
    rw [hρ.keys_this] at hvalue
    unfold Eval.thisInside
    dsimp only
    rw [hr.current, hvalue]
    cases m.heap.getAt? m.current k "this" with
    | none => exact .error hr (.refl T m) (.same _)
    | some v =>
      cases v with
      | inst id => exact lockstep_pure hr id
      | _ => exact .error hr (.refl T m) (.same _)

theorem lockstep_superMethod (hρ : ρ.Proper) (hr : m.Renamed ρ T m')
    (ha : Along T m.heap m.current marks) {id : NodeId} (h : ρ.Renames (ρ.reaches marks id) t t)
    (method : Token) :
    Lockstep ρ T m sameResult (Eval.superMethod id t method m)
      (Eval.superMethod id t method m') := by
  unfold Renaming.reaches at h
  rw [← hr.recorded] at h
  cases hk : m.distances.find? id with
  | none =>
    rw [Eval.superMethod_unresolved hk, Eval.superMethod_unresolved (hr.distances ▸ hk)]
    exact lockstep_fault hr _ t
  | some k =>
    rw [hk] at h
    rw [Eval.superMethod_at hk, Eval.superMethod_at (hr.distances ▸ hk)]
    refine (lockstep_superclassAt hr ha k h).andThen fun parent hr₁ hl₁ => ?_
    refine (lockstep_thisInside hρ hr₁ (ha.current hl₁) k t).andThen fun this hr₂ _ => ?_
    exact lockstep_method hr₂ parent method this

theorem lockstep_boundInstance (hρ : ρ.Proper) (hr : m.Renamed ρ T m') {inner : Marks}
    {f f' : Function} (hf : f.Renamed ρ T m.heap inner f') :
    Lockstep ρ T m sameResult (Eval.boundInstance f m) (Eval.boundInstance f' m') := by
  obtain ⟨⟨marks, ha, hcode⟩, hclosure, -⟩ := hf
  have hvalue := hr.heap.values f.closure "this"
  rw [hρ.keys_this] at hvalue
  unfold Eval.boundInstance
  rw [hclosure, hvalue, hcode.name]
  cases m.heap.getLocal? f.closure "this" with
  | none => exact .error hr (.refl T m) (.same _)
  | some v => exact lockstep_pure hr v

/-! ### Classes -/

/-- The marks of the scopes that the methods of a class close over. -/
def closureMarks (hasSuper : Bool) (marks : Marks) : Marks :=
  if hasSuper then false :: marks else marks

theorem lockstep_methodClosure (hr : m.Renamed ρ T m') (ha : Along T m.heap m.current marks)
    (parent : Option ClassId) :
    Lockstep ρ T m
      (fun T₁ m₁ s s' => s' = s ∧ Along T₁ m₁.heap s (closureMarks parent.isSome marks))
      (Eval.methodClosure parent m) (Eval.methodClosure parent m') := by
  cases parent with
  | none => exact .ok hr (.refl T m) ⟨hr.current, ha⟩
  | some id =>
    show Lockstep ρ T m _ (Eval.newScope m.current (.singleton "super" (.cls id)) m)
      (Eval.newScope m'.current (.singleton "super" (.cls id)) m')
    rw [hr.current]
    exact lockstep_newScope hr ha false fun x => rfl

theorem RenamedMethods.entries {methods methods' : List FunDecl} {h : Heap} {closure : ScopeId}
    (hmethods : RenamedMethods ρ (false :: marks) methods methods') (ha : Along T h closure marks) :
    List.Forall₂ (fun e e' => e'.1 = Equiv.refl String e.1 ∧ e.2.Renamed ρ T h [false] e'.2)
      (methods.map fun d => (d.name.lexeme, (⟨d, closure, d.isInitializer⟩ : Function)))
      (methods'.map fun d => (d.name.lexeme, (⟨d, closure, d.isInitializer⟩ : Function))) := by
  induction methods generalizing methods' with
  | nil =>
    cases hmethods
    exact .nil
  | cons d ds ih =>
    cases hmethods with
    | cons hd hrest =>
      exact .cons ⟨congrArg Token.lexeme hd.name, ⟨marks, ha, hd⟩, rfl, hd.isInitializer⟩ (ih hrest)

theorem lockstep_defineClass (hr : m.Renamed ρ T m') (ha : Along T m.heap m.current marks)
    (hname : ρ.Keeps (marks.headD false) t) (parent : Option ClassId)
    {methods methods' : List FunDecl}
    (hmethods : RenamedMethods ρ (false :: closureMarks parent.isSome marks) methods methods') :
    Lockstep ρ T m sameResult (Eval.defineClass t parent methods m)
      (Eval.defineClass t parent methods' m') := by
  refine (lockstep_define hr ha hname.renames .nil).bind fun hr₁ hl₁ hbound => ?_
  have ha₁ := ha.current hl₁
  refine (lockstep_methodClosure hr₁ ha₁ parent).bind fun {_ _ _ closure _} hr₂ hl₂ hclosure => ?_
  obtain ⟨rfl, hclosure⟩ := hclosure
  have htable := Table.rel_insertAll (Equiv.refl String) (hmethods.entries hclosure) {} {}
    fun _ => .none
  refine Lockstep.andThen (lockstep_newClass hr₂ ⟨rfl, rfl, htable⟩) fun cls hr₃ hl₃ => ?_
  refine lockstep_assign hr₃ ((ha₁.current hl₂).current hl₃) hname.renames ?_ cls
  rw [hl₃.current, hl₂.current]
  exact hl₃.heap.bound _ _ (hl₂.heap.bound _ _ hbound)

/-! ### Calls -/

/-- The arguments of a call under the names that the parameters have in each program. -/
theorem find?_bindArguments {params params' : List Token}
    (h : List.Forall₂ (ρ.Renames marked) params params') (args : List Value) (x : String) :
    (Eval.bindArguments params' args).find? (ρ.keys marked x) =
      (Eval.bindArguments params args).find? x := by
  have hentries : List.Forall₂ (fun e e' => e'.1 = ρ.keys marked e.1 ∧ e.2 = e'.2)
      ((params.map (·.lexeme)).zip args) ((params'.map (·.lexeme)).zip args) := by
    induction h generalizing args with
    | nil => exact .nil
    | cons ht hrest ih =>
      cases args with
      | nil => exact .nil
      | cons v vs => exact .cons ⟨ht.lexeme, rfl⟩ (ih vs)
  have hrel := Table.rel_insertAll (ρ.keys marked) hentries {} {} (fun _ => .none) x
  unfold Eval.bindArguments
  generalize Table.find? _ x = v, Table.find? _ (ρ.keys marked x) = v' at hrel ⊢
  cases hrel with
  | none => rfl
  | some heq => rw [heq]

end Lox
