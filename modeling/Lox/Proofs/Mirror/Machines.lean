import Lox.Proofs.Evaluation.Methods
import Lox.Proofs.Heap.Objects
import Lox.Proofs.Mirror.Static

/-!
# Mirrored machines

Machines that run mirrored programs keep the same scopes and the same instances, under the same
handles. Their functions and classes hold mirrored code, and their tables of distances agree on
corresponding nodes.

`Eval.Mirrored` says of two computations that, started on mirrored machines, they end alike: with
related results, or with the same error at corresponding tokens, and on mirrored machines. There is
one rule for each way to put computations together, and one for each operation on the machine.
-/

namespace Lox

variable {α β : Type} {μ : Mirror}

/-! ### Heaps -/

/-- Functions with mirrored declarations and the same closure. -/
inductive Function.Mirrored (μ : Mirror) : Function → Function → Prop where
  | mk {decl decl' : FunDecl} (h : decl.Mirrored μ decl') (closure : ScopeId)
    (isInitializer : Bool) :
    Function.Mirrored μ ⟨decl, closure, isInitializer⟩ ⟨decl', closure, isInitializer⟩
  /-- What a handle stands for that was never given out. -/
  | unknown (closure : ScopeId) :
    Function.Mirrored μ ⟨default, closure, false⟩ ⟨default, closure, false⟩

namespace Function.Mirrored

variable {f f' : Function}

theorem name (h : f.Mirrored μ f') : f'.name = f.name := by
  cases h with
  | mk hdecl => exact μ.lexeme hdecl.name
  | unknown => rfl

theorem arity (h : f.Mirrored μ f') : f'.arity = f.arity := by
  cases h with
  | mk hdecl => exact hdecl.arity
  | unknown => rfl

theorem withClosure (h : f.Mirrored μ f') (closure : ScopeId) :
    Function.Mirrored μ { f with closure } { f' with closure } := by
  cases h with
  | mk hdecl => exact .mk hdecl closure _
  | unknown => exact .unknown closure

end Function.Mirrored

structure Class.Mirrored (μ : Mirror) (c c' : Class) : Prop where
  name : c'.name = c.name
  superclass : c'.superclass = c.superclass
  methods : ∀ x, Option.Rel (Function.Mirrored μ) (c.methods.find? x) (c'.methods.find? x)

/-- Heaps with the same scopes and instances, and with mirrored code. -/
structure Heap.Mirrored (μ : Mirror) (h h' : Heap) : Prop where
  scopes : h'.scopes = h.scopes
  functionCount : h'.functions.size = h.functions.size
  functions : ∀ id, (h.function id).Mirrored μ (h'.function id)
  classCount : h'.classes.size = h.classes.size
  classes : ∀ id, (h.cls id).Mirrored μ (h'.cls id)
  instances : h'.instances = h.instances

namespace Heap.Mirrored

variable {h h' : Heap}

theorem scope (hh : h.Mirrored μ h') (id : ScopeId) : h'.scope id = h.scope id := by
  rw [Heap.scope, Heap.scope, hh.scopes]

theorem inst (hh : h.Mirrored μ h') (id : InstanceId) : h'.inst id = h.inst id := by
  rw [Heap.inst, Heap.inst, hh.instances]

/-! ### Looking at mirrored heaps -/

theorem getLocal? (hh : h.Mirrored μ h') (id : ScopeId) (x : String) :
    h'.getLocal? id x = h.getLocal? id x := by
  rw [Heap.getLocal?, Heap.getLocal?, hh.scope]

theorem ancestor? (hh : h.Mirrored μ h') (id : ScopeId) (distance : Nat) :
    h'.ancestor? id distance = h.ancestor? id distance := by
  induction distance generalizing id with
  | zero => rfl
  | succ distance ih =>
    rw [Heap.ancestor?, Heap.ancestor?, hh.scope]
    cases (h.scope id).enclosing with
    | none => rfl
    | some outer => exact ih outer

theorem holder? (hh : h.Mirrored μ h') (id : ScopeId) (x : String) :
    h'.holder? id x = h.holder? id x := by
  fun_induction Heap.holder? h id x with
  | case1 id hx => rw [Heap.holder?, hh.scope, if_pos hx]
  | case2 id hx outer houter hlt ih =>
    rw [Heap.holder?, hh.scope, if_neg hx]
    simp only [houter, if_pos hlt]
    exact ih
  | case3 id hx outer houter hlt =>
    rw [Heap.holder?, hh.scope, if_neg hx]
    simp only [houter, if_neg hlt]
  | case4 id hx houter =>
    rw [Heap.holder?, hh.scope, if_neg hx]
    simp only [houter]

theorem get? (hh : h.Mirrored μ h') (id : ScopeId) (x : String) : h'.get? id x = h.get? id x := by
  unfold Heap.get?
  rw [hh.holder?]
  cases h.holder? id x with
  | none => rfl
  | some s => exact hh.getLocal? s x

theorem getAt? (hh : h.Mirrored μ h') (id : ScopeId) (distance : Nat) (x : String) :
    h'.getAt? id distance x = h.getAt? id distance x := by
  unfold Heap.getAt?
  rw [hh.ancestor?]
  cases h.ancestor? id distance with
  | none => rfl
  | some s => exact hh.getLocal? s x

theorem holderAt? (hh : h.Mirrored μ h') (id : ScopeId) (distance : Nat) (x : String) :
    h'.holderAt? id distance x = h.holderAt? id distance x := by
  unfold Heap.holderAt?
  rw [hh.ancestor?]
  cases h.ancestor? id distance with
  | none => rfl
  | some s =>
    dsimp only
    rw [hh.scope]

theorem findMethod? (hh : h.Mirrored μ h') (id : ClassId) (x : String) :
    Option.Rel (Function.Mirrored μ) (h.findMethod? id x) (h'.findMethod? id x) := by
  have hmethods := (hh.classes id).methods x
  fun_induction Heap.findMethod? h id x with
  | case1 id f hf =>
    rw [hf] at hmethods
    rw [Heap.findMethod?]
    generalize (h'.cls id).methods.find? x = f' at hmethods ⊢
    cases hmethods with
    | some hfun => exact .some hfun
  | case2 id hf parent hparent hlt ih =>
    rw [hf] at hmethods
    rw [Heap.findMethod?.eq_def h' id x, (hh.classes id).superclass, hparent]
    generalize (h'.cls id).methods.find? x = f' at hmethods ⊢
    cases hmethods with
    | none =>
      simp only [if_pos hlt]
      exact ih ((hh.classes parent).methods x)
  | case3 id hf parent hparent hlt =>
    rw [hf] at hmethods
    rw [Heap.findMethod?.eq_def h' id x, (hh.classes id).superclass, hparent]
    generalize (h'.cls id).methods.find? x = f' at hmethods ⊢
    cases hmethods with
    | none =>
      simp only [if_neg hlt]
      exact .none
  | case4 id hf hparent =>
    rw [hf] at hmethods
    rw [Heap.findMethod?.eq_def h' id x, (hh.classes id).superclass, hparent]
    generalize (h'.cls id).methods.find? x = f' at hmethods ⊢
    cases hmethods with
    | none => exact .none

theorem display (hh : h.Mirrored μ h') (v : Value) : h'.display v = h.display v := by
  cases v with
  | function id => rw [Heap.display, Heap.display, (hh.functions id).name]
  | cls id => rw [Heap.display, Heap.display, (hh.classes id).name]
  | inst id => rw [Heap.display, Heap.display, hh.inst, (hh.classes _).name]
  | bool b => cases b <;> rfl
  | _ => rfl

theorem arity? (hh : h.Mirrored μ h') (v : Value) : h'.arity? v = h.arity? v := by
  cases v with
  | function id => rw [Heap.arity?, Heap.arity?, (hh.functions id).arity]
  | cls id =>
    have hmethod := hh.findMethod? id FunDecl.initializerName
    unfold Heap.arity?
    dsimp only
    generalize h.findMethod? id FunDecl.initializerName = f,
      h'.findMethod? id FunDecl.initializerName = f' at hmethod
    cases hmethod with
    | none => rfl
    | some hf => exact congrArg some hf.arity
  | _ => rfl

/-! ### Changing mirrored heaps -/

theorem newFunction (hh : h.Mirrored μ h') {f f' : Function} (hf : f.Mirrored μ f') :
    (h.newFunction f).2.Mirrored μ (h'.newFunction f').2 :=
  { hh with
    functionCount := by simp [Heap.newFunction, hh.functionCount]
    functions := fun id => by
      rw [Heap.function_newFunction, Heap.function_newFunction, hh.functionCount]
      split_ifs
      · exact hf
      · exact hh.functions id }

theorem newClass (hh : h.Mirrored μ h') {c c' : Class} (hc : c.Mirrored μ c') :
    (h.newClass c).2.Mirrored μ (h'.newClass c').2 :=
  { hh with
    classCount := by simp [Heap.newClass, hh.classCount]
    classes := fun id => by
      rw [Heap.cls_newClass, Heap.cls_newClass, hh.classCount]
      split_ifs
      · exact hc
      · exact hh.classes id }

end Heap.Mirrored

/-! ### Passing to another mirror -/

section Pass

variable {ν : Mirror} (hpass : ∀ ids, μ.Passes ν ids)

include hpass

theorem Function.Mirrored.pass {f f' : Function} (h : f.Mirrored μ f') : f.Mirrored ν f' := by
  cases h with
  | mk hdecl closure isInitializer => exact .mk (hdecl.pass _ (hpass _)) closure isInitializer
  | unknown closure => exact .unknown closure

theorem Class.Mirrored.pass {c c' : Class} (h : c.Mirrored μ c') : c.Mirrored ν c' := by
  refine { h with methods := fun x => ?_ }
  have hx := h.methods x
  generalize c.methods.find? x = f, c'.methods.find? x = f' at hx
  cases hx with
  | none => exact .none
  | some hf => exact .some (hf.pass hpass)

theorem Heap.Mirrored.pass {h h' : Heap} (hh : h.Mirrored μ h') : h.Mirrored ν h' :=
  { hh with
    functions := fun id => (hh.functions id).pass hpass
    classes := fun id => (hh.classes id).pass hpass }

end Pass

/-! ### Machines -/

/-- Machines that may run mirrored programs. -/
structure Machine.Mirrored (μ : Mirror) (m m' : Machine) : Prop where
  heap : m.heap.Mirrored μ m'.heap
  globals : m'.globals = m.globals
  current : m'.current = m.current
  distances : m.distances.Agree μ m'.distances
  clock : m'.clock = m.clock
  output : μ.output m.output m'.output

theorem Machine.Mirrored.pass {ν : Mirror} (hpass : ∀ ids, μ.Passes ν ids) {m m' : Machine}
    (hm : m.Mirrored μ m') (hdistances : m.distances.Agree ν m'.distances)
    (houtput : ν.output m.output m'.output) : m.Mirrored ν m' :=
  { hm with
    heap := hm.heap.pass hpass
    distances := hdistances
    output := houtput }

/-- The token for the `this` that goes with a `super`. -/
def Token.receiver (keyword : Token) : Token := ⟨.keyword .this, "this", keyword.line⟩

/-- Tokens that errors blame: those of the code and, for want of a variable, the `this` that goes
with a `super` of it. -/
inductive Mirror.Blamed (μ : Mirror) : ErrorKind → Token → Token → Prop where
  | token {kind : ErrorKind} {t t' : Token} (h : μ.token t t') : μ.Blamed kind t t'
  | receiver {t t' : Token} (h : μ.token t t') :
    μ.Blamed .undefinedVariable t.receiver t'.receiver

/-- The same error, blamed on corresponding tokens. -/
structure RuntimeError.Mirrored (μ : Mirror) (e e' : RuntimeError) : Prop where
  kind : e'.kind = e.kind
  token : μ.Blamed e.kind e.token e'.token
  message : e'.message = e.message

theorem Fault.mirrored {t t' : Token} (h : μ.token t t') (f : Fault) :
    (f.at_ t).Mirrored μ (f.at_ t') :=
  ⟨rfl, .token h, rfl⟩

/-- Two computations have ended alike. -/
inductive Outcome.Mirrored (μ : Mirror) (Q : α → α → Prop) : Outcome α → Outcome α → Prop where
  | ok {a a' : α} {m m' : Machine} (ha : Q a a') (hm : m.Mirrored μ m') :
    Outcome.Mirrored μ Q (.ok a m) (.ok a' m')
  | error {e e' : RuntimeError} {m m' : Machine} (he : e.Mirrored μ e') (hm : m.Mirrored μ m') :
    Outcome.Mirrored μ Q (.error e m) (.error e' m')
  | returned {t t' : Token} {m m' : Machine} (ht : μ.token t t') (v : Value)
    (hm : m.Mirrored μ m') : Outcome.Mirrored μ Q (.returned t v m) (.returned t' v m')
  | outOfFuel : Outcome.Mirrored μ Q .outOfFuel .outOfFuel

namespace Eval

/-- Started on mirrored machines, two computations end alike. -/
def Mirrored (μ : Mirror) (Q : α → α → Prop) (p p' : Eval α) : Prop :=
  ∀ m m', m.Mirrored μ m' → Outcome.Mirrored μ Q (p m) (p' m')

variable {Q : α → α → Prop} {R : β → β → Prop} {t t' : Token}

/-! ### Putting computations together -/

theorem mirrored_outOfFuel : Mirrored μ Q outOfFuel outOfFuel := fun _ _ _ => .outOfFuel

theorem mirrored_pure {a a' : α} (h : Q a a') : Mirrored μ Q (pure a) (pure a') :=
  fun _ _ hm => .ok h hm

theorem mirrored_fault (h : μ.token t t') (f : Fault) : Mirrored μ Q (fault f t) (fault f t') :=
  fun _ _ hm => .error (Fault.mirrored h f) hm

theorem mirrored_leave (h : μ.token t t') (v : Value) : Mirrored μ Q (leave t v) (leave t' v) :=
  fun _ _ hm => .returned h v hm

theorem mirrored_ofExcept (h : μ.token t t') (r : Except Fault α) :
    Mirrored μ Eq (ofExcept t r) (ofExcept t' r) := by
  cases r with
  | ok a => exact mirrored_pure rfl
  | error f => exact mirrored_fault h f

theorem mirrored_inspect {f : Heap → α} (hf : ∀ h h', h.Mirrored μ h' → Q (f h) (f h')) :
    Mirrored μ Q (inspect f) (inspect f) :=
  fun _ _ hm => .ok (hf _ _ hm.heap) hm

theorem Mirrored.bind {p p' : Eval α} {f f' : α → Eval β} (hp : Mirrored μ Q p p')
    (hf : ∀ a a', Q a a' → Mirrored μ R (f a) (f' a')) :
    Mirrored μ R (p >>= f) (p' >>= f') := by
  intro m m' hm
  have hfirst := hp m m' hm
  show Outcome.Mirrored μ R (Eval.bind p f m) (Eval.bind p' f' m')
  unfold Eval.bind
  generalize p m = o, p' m' = o' at hfirst
  cases hfirst with
  | ok ha hm => exact hf _ _ ha _ _ hm
  | error he hm => exact .error he hm
  | returned ht v hm => exact .returned ht v hm
  | outOfFuel => exact .outOfFuel

theorem Mirrored.andThen {p p' : Eval α} {f f' : α → Eval β} (hp : Mirrored μ Eq p p')
    (hf : ∀ a, Mirrored μ R (f a) (f' a)) : Mirrored μ R (p >>= f) (p' >>= f') :=
  hp.bind fun a _ ha => ha ▸ hf a

theorem Mirrored.withScope {p p' : Eval α} (hp : Mirrored μ Q p p') (s : ScopeId) :
    Mirrored μ Q (withScope s p) (withScope s p') := by
  intro m m' hm
  have hinside := hp { m with current := s } { m' with current := s } { hm with current := rfl }
  unfold Eval.withScope
  generalize p { m with current := s } = o, p' { m' with current := s } = o' at hinside
  cases hinside with
  | ok ha hm₁ => exact .ok ha { hm₁ with current := hm.current }
  | error he hm₁ => exact .error he { hm₁ with current := hm.current }
  | returned ht v hm₁ => exact .returned ht v { hm₁ with current := hm.current }
  | outOfFuel => exact .outOfFuel

theorem Mirrored.catchReturn {p p' : Eval Unit} (hp : Mirrored μ Eq p p') :
    Mirrored μ Eq (catchReturn p) (catchReturn p') := by
  intro m m' hm
  have hinside := hp m m' hm
  unfold Eval.catchReturn
  generalize p m = o, p' m' = o' at hinside
  cases hinside with
  | ok ha hm => exact .ok rfl hm
  | error he hm => exact .error he hm
  | returned ht v hm => exact .ok rfl hm
  | outOfFuel => exact .outOfFuel

/-! ### Scopes and names -/

theorem mirrored_currentScope : Mirrored μ Eq currentScope currentScope :=
  fun _ _ hm => .ok hm.current.symm hm

theorem mirrored_newScope (enclosing : ScopeId) (values : Table Value) :
    Mirrored μ Eq (newScope enclosing values) (newScope enclosing values) := by
  intro m m' hm
  have hscopes := congrArg (Array.push · ⟨values, some enclosing⟩) hm.heap.scopes
  exact .ok (congrArg Array.size hm.heap.scopes.symm)
    { hm with heap := { hm.heap with scopes := hscopes } }

theorem mirrored_defineIn {m m' : Machine} (hm : m.Mirrored μ m') {s s' : ScopeId} (hs : s' = s)
    {x x' : String} (hx : x' = x) (v : Value) :
    Machine.Mirrored μ { m with heap := m.heap.define s x v }
      { m' with heap := m'.heap.define s' x' v } := by
  have hscopes : (m'.heap.define s' x' v).scopes = (m.heap.define s x v).scopes := by
    rw [Heap.define, Heap.define, hm.heap.scopes, hs, hx]
  exact { hm with heap := { hm.heap with scopes := hscopes } }

theorem mirrored_define {x x' : String} (hx : x' = x) (v : Value) :
    Mirrored μ Eq (define x v) (define x' v) :=
  fun _ _ hm => .ok rfl (mirrored_defineIn hm hm.current hx v)

theorem mirrored_read {m m' : Machine} (hm : m.Mirrored μ m') (ht : μ.token t t')
    (found found' : Option Value) : found' = found → Outcome.Mirrored μ Eq
      (match found with
        | some v => .ok v m
        | none => .error ((Fault.undefinedVariable t.lexeme).at_ t) m)
      (match found' with
        | some v => .ok v m'
        | none => .error ((Fault.undefinedVariable t'.lexeme).at_ t') m') := by
  rintro rfl
  rw [μ.lexeme ht]
  cases found' with
  | none => exact .error (Fault.mirrored ht _) hm
  | some v => exact .ok rfl hm

theorem mirrored_write {m m' : Machine} (hm : m.Mirrored μ m') (ht : μ.token t t')
    (holder holder' : Option ScopeId) (v : Value) : holder' = holder → Outcome.Mirrored μ Eq
      (match holder with
        | some s => .ok () { m with heap := m.heap.define s t.lexeme v }
        | none => .error ((Fault.undefinedVariable t.lexeme).at_ t) m)
      (match holder' with
        | some s => .ok () { m' with heap := m'.heap.define s t'.lexeme v }
        | none => .error ((Fault.undefinedVariable t'.lexeme).at_ t') m') := by
  rintro rfl
  rw [μ.lexeme ht]
  cases holder' with
  | none => exact .error (Fault.mirrored ht _) hm
  | some s => exact .ok rfl (mirrored_defineIn hm rfl rfl v)

theorem mirrored_assign (ht : μ.token t t') (v : Value) :
    Mirrored μ Eq (assign t v) (assign t' v) := by
  intro m m' hm
  refine mirrored_write hm ht _ _ v ?_
  rw [hm.current, μ.lexeme ht, hm.heap.holder?]

theorem mirrored_readVariable {id id' : NodeId} (hid : μ.node id id') (ht : μ.token t t') :
    Mirrored μ Eq (readVariable id t) (readVariable id' t') := by
  intro m m' hm
  refine mirrored_read hm ht _ _ ?_
  rw [hm.distances id id' hid, hm.current, hm.globals, μ.lexeme ht]
  cases m.distances.find? id with
  | none => exact hm.heap.get? _ _
  | some distance => exact hm.heap.getAt? _ _ _

theorem mirrored_writeVariable {id id' : NodeId} (hid : μ.node id id') (ht : μ.token t t')
    (v : Value) : Mirrored μ Eq (writeVariable id t v) (writeVariable id' t' v) := by
  intro m m' hm
  refine mirrored_write hm ht _ _ v ?_
  rw [hm.distances id id' hid, hm.current, hm.globals, μ.lexeme ht]
  cases m.distances.find? id with
  | none => exact hm.heap.holder? _ _
  | some distance => exact hm.heap.holderAt? _ _ _

/-! ### Objects and the world outside -/

theorem mirrored_newFunction {f f' : Function} (hf : f.Mirrored μ f') :
    Mirrored μ Eq (newFunction f) (newFunction f') :=
  fun _ _ hm => .ok (congrArg Value.function hm.heap.functionCount.symm)
    { hm with heap := hm.heap.newFunction hf }

theorem mirrored_newClass {c c' : Class} (hc : c.Mirrored μ c') :
    Mirrored μ Eq (newClass c) (newClass c') :=
  fun _ _ hm => .ok (congrArg Value.cls hm.heap.classCount.symm)
    { hm with heap := hm.heap.newClass hc }

theorem mirrored_newInstance (cls : ClassId) :
    Mirrored μ Eq (newInstance cls) (newInstance cls) := by
  intro m m' hm
  have hinstances := congrArg (Array.push · ⟨cls, {}⟩) hm.heap.instances
  exact .ok (congrArg Array.size hm.heap.instances.symm)
    { hm with heap := { hm.heap with instances := hinstances } }

theorem mirrored_setField (id : InstanceId) {x x' : String} (hx : x' = x) (v : Value) :
    Mirrored μ Eq (setField id x v) (setField id x' v) := by
  intro m m' hm
  have hinstances : (m'.heap.setField id x' v).instances = (m.heap.setField id x v).instances := by
    rw [Heap.setField, Heap.setField, hm.heap.instances, hx]
  exact .ok rfl { hm with heap := { hm.heap with instances := hinstances } }

theorem mirrored_print (v : Value) : Mirrored μ Eq (print v) (print v) := by
  intro m m' hm
  unfold Eval.print
  rw [hm.heap.display v]
  exact .ok rfl { hm with output := μ.write hm.output _ }

theorem mirrored_readClock : Mirrored μ Eq readClock readClock := by
  intro m m' hm
  unfold Eval.readClock Machine.ticked
  rw [hm.clock]
  exact .ok rfl { hm with clock := rfl }

theorem mirrored_callNative (ht : μ.token t t') (f : Native) :
    Mirrored μ Eq (callNative t f) (callNative t' f) := by
  cases f with
  | clock =>
    refine mirrored_readClock.andThen fun reading => ?_
    cases reading with
    | some n => exact mirrored_pure rfl
    | none => exact mirrored_fault ht _

theorem mirrored_checkArity (ht : μ.token t t') (expected got : Nat) :
    Mirrored μ Eq (checkArity t expected got) (checkArity t' expected got) := by
  unfold Eval.checkArity
  split_ifs
  · exact mirrored_pure rfl
  · exact mirrored_fault ht _

/-! ### Properties and methods -/

theorem mirrored_bindThis {f f' : Function} (hf : f.Mirrored μ f') (this : InstanceId) :
    Mirrored μ (Function.Mirrored μ) (bindThis f this) (bindThis f' this) := by
  have hclosure : f'.closure = f.closure := by
    cases hf with
    | mk => rfl
    | unknown => rfl
  unfold Eval.bindThis
  rw [hclosure]
  exact (mirrored_newScope _ _).andThen fun closure => mirrored_pure (hf.withClosure closure)

theorem mirrored_boundMethod {f f' : Function} (hf : f.Mirrored μ f') (this : InstanceId) :
    Mirrored μ Eq (boundMethod f this) (boundMethod f' this) :=
  (mirrored_bindThis hf this).bind fun _ _ hbound => mirrored_newFunction hbound

theorem mirrored_methodOf (id : ClassId) (ht : μ.token t t') (this : InstanceId) :
    Mirrored μ Eq (methodOf id t this) (methodOf id t' this) := by
  unfold Eval.methodOf
  rw [μ.lexeme ht]
  refine (mirrored_inspect fun h h' hh => hh.findMethod? id t.lexeme).bind fun f f' hf => ?_
  cases hf with
  | none => exact mirrored_fault ht _
  | some hf => exact mirrored_boundMethod hf this

theorem mirrored_getProperty (object : Value) (ht : μ.token t t') :
    Mirrored μ Eq (getProperty object t) (getProperty object t') := by
  cases object with
  | inst id =>
    intro m m' hm
    have hfields : (m'.heap.inst id).fields.find? t'.lexeme =
        (m.heap.inst id).fields.find? t.lexeme := by
      rw [hm.heap.inst, μ.lexeme ht]
    cases hfield : (m.heap.inst id).fields.find? t.lexeme with
    | some v =>
      rw [getProperty_field hfield, getProperty_field (hfields.trans hfield)]
      exact .ok rfl hm
    | none =>
      rw [getProperty_method hfield, getProperty_method (hfields.trans hfield), hm.heap.inst]
      exact mirrored_methodOf _ ht id m m' hm
  | _ => exact mirrored_fault ht _

theorem mirrored_fieldOwner (object : Value) (ht : μ.token t t') :
    Mirrored μ Eq (fieldOwner object t) (fieldOwner object t') := by
  cases object with
  | inst id => exact mirrored_pure rfl
  | _ => exact mirrored_fault ht _

/-! ### Access to the superclass -/

theorem mirrored_superclassAt (distance : Nat) (ht : μ.token t t') :
    Mirrored μ Eq (superclassAt distance t) (superclassAt distance t') := by
  intro m m' hm
  unfold Eval.superclassAt
  rw [hm.current, hm.heap.getAt?, μ.lexeme ht]
  cases m.heap.getAt? m.current distance t.lexeme with
  | none => exact .error (Fault.mirrored ht _) hm
  | some v =>
    cases v with
    | cls id => exact .ok rfl hm
    | _ => exact .error (Fault.mirrored ht _) hm

theorem mirrored_thisInside (distance : Nat) (ht : μ.token t t') :
    Mirrored μ Eq (thisInside distance t) (thisInside distance t') := by
  intro m m' hm
  cases distance with
  | zero => exact .error (Fault.mirrored ht _) hm
  | succ inner =>
    unfold Eval.thisInside
    dsimp only
    rw [hm.current, hm.heap.getAt?]
    cases m.heap.getAt? m.current inner "this" with
    | none => exact .error ⟨rfl, .receiver ht, rfl⟩ hm
    | some v =>
      cases v with
      | inst id => exact .ok rfl hm
      | _ => exact .error (Fault.mirrored ht _) hm

theorem mirrored_superMethod {id id' : NodeId} {method method' : Token} (hid : μ.node id id')
    (ht : μ.token t t') (hmethod : μ.token method method') :
    Mirrored μ Eq (superMethod id t method) (superMethod id' t' method') := by
  intro m m' hm
  have hdistance := hm.distances id id' hid
  cases hk : m.distances.find? id with
  | none =>
    rw [superMethod_unresolved hk, superMethod_unresolved (hdistance.trans hk)]
    exact mirrored_fault ht _ m m' hm
  | some k =>
    rw [superMethod_at hk, superMethod_at (hdistance.trans hk)]
    have hall : Mirrored μ Eq
        (superclassAt k t >>= fun parent => thisInside k t >>= fun this =>
          methodOf parent method this)
        (superclassAt k t' >>= fun parent => thisInside k t' >>= fun this =>
          methodOf parent method' this) :=
      (mirrored_superclassAt k ht).andThen fun parent =>
        (mirrored_thisInside k ht).andThen fun this => mirrored_methodOf parent hmethod this
    exact hall m m' hm

theorem mirrored_boundInstance {f f' : Function} (hf : f.Mirrored μ f')
    (hinit : f.isInitializer = true) : Mirrored μ Eq (boundInstance f) (boundInstance f') := by
  intro m m' hm
  cases hf with
  | @mk decl decl' hdecl closure =>
    unfold Eval.boundInstance
    dsimp only
    rw [hm.heap.getLocal?]
    cases m.heap.getLocal? closure "this" with
    | none => exact .error (Fault.mirrored hdecl.name _) hm
    | some v => exact .ok rfl hm
  | unknown closure => simp at hinit

/-! ### Classes -/

theorem mirrored_asSuperclass (ht : μ.token t t') (v : Value) :
    Mirrored μ Eq (asSuperclass t v) (asSuperclass t' v) := by
  cases v with
  | cls id => exact mirrored_pure rfl
  | _ => exact mirrored_fault ht _

theorem superclassToken_mirrored {e e' : Expr} (ht : μ.token t t') (he : e.Mirrored μ e') :
    μ.token (superclassToken t e) (superclassToken t' e') := by
  cases he with
  | var hid hname => exact hname
  | _ => exact ht

theorem mirrored_methodClosure (parent : Option ClassId) :
    Mirrored μ Eq (methodClosure parent) (methodClosure parent) := by
  cases parent with
  | none => exact mirrored_currentScope
  | some id => exact mirrored_currentScope.andThen fun s => mirrored_newScope s _

theorem methodTable_mirrored (closure : ScopeId) {methods methods' : List FunDecl}
    (h : MirroredMethods μ methods methods') (x : String) :
    Option.Rel (Function.Mirrored μ) ((methodTable closure methods).find? x)
      ((methodTable closure methods').find? x) := by
  have hentries : List.Forall₂
      (fun e e' => e'.1 = Equiv.refl String e.1 ∧ Function.Mirrored μ e.2 e'.2)
      (methods.map fun d => (d.name.lexeme, (⟨d, closure, d.isInitializer⟩ : Function)))
      (methods'.map fun d => (d.name.lexeme, (⟨d, closure, d.isInitializer⟩ : Function))) := by
    induction methods generalizing methods' with
    | nil =>
      cases h
      exact .nil
    | cons d ds ih =>
      cases h with
      | @cons _ d' _ ds' hd hds =>
        refine .cons ⟨μ.lexeme hd.name, ?_⟩ (ih hds)
        dsimp only
        rw [hd.isInitializer]
        exact .mk hd closure _
  exact Table.rel_insertAll (Equiv.refl String) hentries {} {} (fun _ => .none) x

theorem mirrored_defineClass (ht : μ.token t t') (parent : Option ClassId)
    {methods methods' : List FunDecl} (h : MirroredMethods μ methods methods') :
    Mirrored μ Eq (defineClass t parent methods) (defineClass t' parent methods') := by
  unfold Eval.defineClass
  refine (mirrored_define (μ.lexeme ht) .nil).andThen fun _ => ?_
  refine (mirrored_methodClosure parent).andThen fun closure => ?_
  refine Mirrored.andThen (mirrored_newClass ?_) fun cls => mirrored_assign ht cls
  exact ⟨μ.lexeme ht, rfl, methodTable_mirrored closure h⟩

/-! ### Operators and arguments -/

theorem applyUnary_mirrored (ht : μ.token t t') (v : Value) : applyUnary t' v = applyUnary t v := by
  unfold applyUnary
  rw [μ.kind ht, μ.lexeme ht]

theorem applyBinary_mirrored (ht : μ.token t t') (a b : Value) :
    applyBinary t' a b = applyBinary t a b := by
  have harithmetic : applyArithmetic t' = applyArithmetic t := by
    funext x y
    unfold applyArithmetic
    rw [μ.kind ht, μ.lexeme ht]
  unfold applyBinary
  rw [μ.kind ht, harithmetic]

theorem decidesAlone_mirrored (ht : μ.token t t') (v : Value) :
    decidesAlone t' v = decidesAlone t v := by
  unfold decidesAlone
  rw [μ.kind ht]

theorem bindArguments_mirrored {params params' : List Token}
    (h : List.Forall₂ μ.token params params') (args : List Value) :
    bindArguments params' args = bindArguments params args := by
  have hnames : params'.map (·.lexeme) = params.map (·.lexeme) := by
    induction h with
    | nil => rfl
    | cons ht hrest ih => rw [List.map_cons, List.map_cons, ih, μ.lexeme ht]
  rw [bindArguments, bindArguments, hnames]

end Eval

end Lox
