import Lox.Proofs.Evaluation.Endurance
import Lox.Proofs.Evaluation.Methods
import Lox.Proofs.Evaluation.Preservation
import Lox.Proofs.Scoping.Passed

/-!
# The scopes of `this` and `super`

`Heap.Orderly` is what holds of the heap of a run, whatever distances are recorded: all code in it
may be run, the methods that are called `init` are the initializers, `this` is bound to instances
and `super` to classes only, and the scopes inside one that binds `super` bind `this`. No code ever
runs in a scope that binds `super` or closes over one without a scope of `this` in between, so that
wherever `super` is found, `this` is found one scope further in.

Evaluation keeps this (`Rules.orderly`). None of its runtime errors is an internal one, and each
blames a token of the code. In particular, no error is for want of `this`.
-/

namespace Lox

variable {P : Token → Prop} {d : Distances} {h h' : Heap} {s : ScopeId} {f : Function}

/-! ### Operators -/

theorem applyUnary_kind {op : Token} (hop : isUnaryOperator op.kind = true) (v : Value) :
    ∀ f, applyUnary op v = .error f → f.kind ≠ .internal := by
  intro f hf
  unfold applyUnary at hf
  split at hf
  · split at hf
    · simp at hf
    · cases hf
      decide
  · simp at hf
  · rename_i hminus hbang
    unfold isUnaryOperator at hop
    split at hop
    · exact absurd ‹_› hbang
    · exact absurd ‹_› hminus
    · simp at hop

theorem applyArithmetic_ok {op : Token} {l : Level} (hl : l.isLogical = false)
    (hop : l.hasOperator op.kind = true) (hequal : op.kind ≠ .symbol .equalEqual)
    (hunequal : op.kind ≠ .symbol .bangEqual) (hplus : op.kind ≠ .symbol .plus) (a b : Number) :
    ∃ v, applyArithmetic op a b = .ok v := by
  unfold Level.hasOperator at hop
  unfold applyArithmetic
  split at hop <;> simp_all [Level.isLogical]

theorem applyBinary_kind {op : Token} {l : Level} (hl : l.isLogical = false)
    (hop : l.hasOperator op.kind = true) (a b : Value) :
    ∀ f, applyBinary op a b = .error f → f.kind ≠ .internal := by
  intro f hf
  unfold applyBinary at hf
  split at hf
  · simp at hf
  · simp at hf
  · unfold addValues at hf
    split at hf
    · simp at hf
    · simp at hf
    · cases hf
      decide
  · split at hf
    · rename_i hequal hunequal hplus _ _ x y
      obtain ⟨v, hv⟩ := applyArithmetic_ok hl hop hequal hunequal hplus x y
      simp [hv] at hf
    · cases hf
      decide

/-! ### Values of `this` and `super` -/

theorem Task.Formed.not_implicit {t : Task} (ht : t.Formed P) (hP : ∀ t, P t → t.Spelled)
    (name : Token) (hbound : t.bound? = some name) : ¬IsImplicit name.lexeme :=
  Token.IsName.not_implicit ((ht.bound hbound).imp_right (hP name))

/-- A value that a name may have: `this` stands for instances and `super` for classes. -/
def Value.Suits (v : Value) (x : String) : Prop :=
  (x = "this" → ∃ o, v = .inst o) ∧ (x = "super" → ∃ c, v = .cls c)

theorem Value.suits_of_not_implicit {x : String} (hx : ¬IsImplicit x) (v : Value) : v.Suits x :=
  ⟨fun h => absurd (.inl h) hx, fun h => absurd (.inr h) hx⟩

/-- All values in a table suit their names. -/
def Table.AllSuit (values : Table Value) : Prop := ∀ x v, values.find? x = some v → v.Suits x

theorem Table.allSuit_empty : ({} : Table Value).AllSuit := fun x v hv => by simp at hv

theorem Table.allSuit_singleton {x : String} {v : Value} (hv : v.Suits x) :
    (Table.singleton x v).AllSuit := by
  intro y w hw
  rw [Table.find?_singleton] at hw
  split_ifs at hw with hxy
  cases hw
  exact hxy ▸ hv

theorem Table.allSuit_this (o : InstanceId) : (Table.singleton "this" (.inst o)).AllSuit :=
  allSuit_singleton ⟨fun _ => ⟨o, rfl⟩, fun h => absurd h (by decide)⟩

theorem Table.allSuit_super (c : ClassId) : (Table.singleton "super" (.cls c)).AllSuit :=
  allSuit_singleton ⟨fun h => absurd h (by decide), fun _ => ⟨c, rfl⟩⟩

theorem Eval.not_implicit_of_bindArguments {params : List Token} {vs : List Value} {x : String}
    {v : Value} (hparams : ∀ t ∈ params, t.IsName)
    (hv : (bindArguments params vs).find? x = some v) : ¬IsImplicit x := by
  rcases Table.mem_of_find?_insertAll hv with hnone | hmem
  · simp at hnone
  · obtain ⟨t, ht, rfl⟩ := List.mem_map.mp (List.of_mem_zip hmem).1
    exact (hparams t ht).not_implicit

/-! ### Orderly heaps -/

/-- A scope in which code may run: it is none of those that bind `super`. -/
structure Heap.IsPlain (h : Heap) (s : ScopeId) : Prop where
  has : h.Has (.scope s)
  free : h.getLocal? s "super" = none

theorem Heap.IsPlain.retains (hs : h.IsPlain s) (hr : h.Retains h') : h'.IsPlain s :=
  ⟨lt_of_lt_of_le hs.has hr.grown.size, (hr.implicit s _ (.inr rfl) hs.has).trans hs.free⟩

theorem Heap.isPlain_newScope (h : Heap) {values : Table Value} (outer : ScopeId)
    (hvalues : values.find? "super" = none) :
    (h.newScope ⟨values, some outer⟩).2.IsPlain h.scopes.size := by
  refine ⟨Heap.has_newScope.mpr (.inr rfl), ?_⟩
  rw [Heap.getLocal?_newScope, if_pos rfl]
  exact hvalues

/-- A function that may be called. If it is an initializer, it closes over a scope in which `this`
is an instance. -/
structure Function.Orderly (P : Token → Prop) (d : Distances) (h : Heap) (f : Function) :
    Prop where
  code : f.decl.Passed P d
  closure : h.IsPlain f.closure
  receiver : f.isInitializer = true → ∃ o, h.getLocal? f.closure "this" = some (.inst o)

/-- What holds of the heap of a run. -/
structure Heap.Orderly (P : Token → Prop) (d : Distances) (h : Heap) : Prop where
  functions : ∀ id, (h.function id).Orderly P d h
  methods : ∀ c name f, (h.cls c).methods.find? name = some f →
    f.decl.Passed P d ∧ f.isInitializer = decide (name = FunDecl.initializerName)
  values : ∀ s x v, h.getLocal? s x = some v → v.Suits x
  inside : ∀ s outer, (h.scope s).enclosing = some outer →
    h.IsPlain outer ∨ (h.getLocal? s "this").isSome

theorem Function.Orderly.retains (hf : f.Orderly P d h) (hr : h.Retains h') : f.Orderly P d h' := by
  refine ⟨hf.code, hf.closure.retains hr, fun hi => ?_⟩
  obtain ⟨o, ho⟩ := hf.receiver hi
  exact ⟨o, hr.getLocal? (.inl rfl) ho⟩

theorem Function.orderly_bound (hcode : f.decl.Passed P d) (o : InstanceId) :
    Function.Orderly P d (h.newScope ⟨.singleton "this" (.inst o), some f.closure⟩).2
      { f with closure := h.scopes.size } := by
  refine ⟨hcode, h.isPlain_newScope f.closure rfl, fun _ => ⟨o, ?_⟩⟩
  rw [Heap.getLocal?_newScope, if_pos rfl]
  rfl

namespace Heap.Orderly

variable (ho : h.Orderly P d)

include ho

theorem of_same (hscopes : h'.scopes = h.scopes) (hfunctions : h'.functions = h.functions)
    (hclasses : h'.classes = h.classes) : h'.Orderly P d := by
  have hr : h.Retains h' := retains_of_scopes hscopes
  refine ⟨fun id => ?_, fun c name f hf => ?_, fun s x v hv => ?_, fun s outer houter => ?_⟩
  · rw [Heap.function, hfunctions]
    exact (ho.functions id).retains hr
  · rw [Heap.cls, hclasses] at hf
    exact ho.methods c name f hf
  · rw [Heap.getLocal?, Heap.scope, hscopes] at hv
    exact ho.values s x v hv
  · rw [Heap.scope, hscopes] at houter
    exact (ho.inside s outer houter).imp (·.retains hr) (hr.grown.bound s _)

theorem define (s : ScopeId) {x : String} (hx : ¬IsImplicit x) (v : Value) :
    (h.define s x v).Orderly P d := by
  have hr := h.retains_define s hx v
  refine ⟨fun id => (ho.functions id).retains hr, ho.methods, fun s' y w hw => ?_,
    fun s' outer houter => ?_⟩
  · rw [getLocal?_define] at hw
    split_ifs at hw with hsame
    · exact hsame.2 ▸ Value.suits_of_not_implicit hx w
    · exact ho.values s' y w hw
  · rw [enclosing_define] at houter
    exact (ho.inside s' outer houter).imp (·.retains hr) (hr.grown.bound s' _)

/-- A new scope inside one in which code may run, or with `this`. -/
theorem newScope {values : Table Value} {outer : ScopeId} (hvalues : values.AllSuit)
    (houter : h.IsPlain outer ∨ (values.find? "this").isSome) :
    (h.newScope ⟨values, some outer⟩).2.Orderly P d := by
  have hr := h.retains_newScope ⟨values, some outer⟩
  refine ⟨fun id => (ho.functions id).retains hr, ho.methods, fun s x v hv => ?_,
    fun s outer' houter' => ?_⟩
  · rw [getLocal?_newScope] at hv
    split_ifs at hv
    · exact hvalues x v hv
    · exact ho.values s x v hv
  · rw [getLocal?_newScope]
    rw [scope_newScope] at houter'
    split_ifs at houter' ⊢ with hs
    · cases houter'
      exact houter.imp_left (·.retains hr)
    · exact (ho.inside s outer' houter').imp_left (·.retains hr)

theorem newFunction (hf : f.Orderly P d h) : (h.newFunction f).2.Orderly P d := by
  have hr : h.Retains (h.newFunction f).2 := retains_of_scopes rfl
  refine ⟨fun id => ?_, ho.methods, ho.values, fun s outer houter => ?_⟩
  · rw [function_newFunction]
    split_ifs
    · exact hf.retains hr
    · exact (ho.functions id).retains hr
  · exact (ho.inside s outer houter).imp_left (·.retains hr)

theorem newClass {c : Class}
    (hc : ∀ name f, c.methods.find? name = some f →
      f.decl.Passed P d ∧ f.isInitializer = decide (name = FunDecl.initializerName)) :
    (h.newClass c).2.Orderly P d := by
  have hr : h.Retains (h.newClass c).2 := retains_of_scopes rfl
  refine ⟨fun id => (ho.functions id).retains hr, fun id name f hf => ?_, ho.values,
    fun s outer houter => (ho.inside s outer houter).imp_left (·.retains hr)⟩
  rw [cls_newClass] at hf
  split_ifs at hf
  · exact hc name f hf
  · exact ho.methods id name f hf

theorem findMethod? {c : ClassId} {name : String} (hf : h.findMethod? c name = some f) :
    f.decl.Passed P d ∧ f.isInitializer = decide (name = FunDecl.initializerName) := by
  fun_induction Heap.findMethod? h c name with
  | case1 c g hg =>
    cases hf
    exact ho.methods c name f hg
  | case2 c hg parent hp hlt ih => exact ih hf
  | case3 c hg parent hp hlt => cases hf
  | case4 c hg hp => cases hf

theorem super_of_getAt? {k : Nat} {v : Value} (hv : h.getAt? s k "super" = some v) :
    ∃ c, v = .cls c := by
  obtain ⟨a, -, hv⟩ := h.exists_of_getAt? hv
  exact (ho.values a _ v hv).2 rfl

/-- Where `super` is found, `this` is found one scope further in, and it is an instance. -/
theorem this_of_super {k : Nat} {v : Value} (hv : h.getAt? s (k + 1) "super" = some v) :
    ∃ o, h.getAt? s k "this" = some (.inst o) := by
  obtain ⟨outer, houter, hsuper⟩ := h.exists_of_getAt? hv
  obtain ⟨a, ha, henclosing⟩ := h.exists_of_ancestor?_succ houter
  rcases ho.inside a outer henclosing with hplain | hthis
  · rw [hplain.free] at hsuper
    cases hsuper
  · obtain ⟨w, hw⟩ := Option.isSome_iff_exists.mp hthis
    obtain ⟨o, rfl⟩ := (ho.values a _ w hw).1 rfl
    exact ⟨o, by rw [h.getAt?_eq _ ha, hw]⟩

end Heap.Orderly

/-! ### Orderly machines -/

/-- What holds of the machine of a run. -/
structure Machine.Orderly (P : Token → Prop) (m : Machine) : Prop where
  heap : m.heap.Orderly P m.distances
  current : m.heap.IsPlain m.current

/-- Functions in hand may be called, once they are bound if they are methods, and code in hand may
be run. -/
def Fact.Orderly (P : Token → Prop) (m : Machine) : Fact → Prop
  | .ref _ => True
  | .bound _ _ => True
  | .callable _ f => f.Orderly P m.distances m.heap
  | .method _ f => f.decl.Passed P m.distances
  | .task _ s t => m.heap.IsPlain s ∧ t.Passed P m.distances

theorem Fact.Orderly.kept {m m' : Machine} {fact : Fact} (hf : fact.Orderly P m)
    (hr : m.heap.Retains m'.heap) (hd : m'.distances = m.distances) : fact.Orderly P m' := by
  cases fact with
  | ref r => trivial
  | bound s x => trivial
  | callable d f =>
    rw [Fact.Orderly, hd]
    exact Function.Orderly.retains hf hr
  | method d f =>
    rw [Fact.Orderly, hd]
    exact hf
  | task d s t =>
    rw [Fact.Orderly, hd]
    exact ⟨Heap.IsPlain.retains hf.1 hr, hf.2⟩

variable {past : List Moment} {m m' : Machine} {t : Task} {act : Act} {needs gives : List Fact}
  {fact : Fact}

namespace Machine.Orderly

variable (ho : m.Orderly P) (ht : t.Passed P m.distances)
  (hneeds : ∀ need ∈ needs, need.Orderly P m)

include ho ht hneeds

theorem look {D : Displays} (hlook : Look D m t needs fact) : fact.Orderly P m := by
  cases hlook with
  | function _ g => exact ho.heap.functions g
  | method _ hf => exact (ho.heap.findMethod? hf).1
  | own hd => exact ht.method hd
  | part hpart => exact ⟨ho.current, ht.part hpart⟩
  | following s rest => exact ⟨ho.current, ht.following⟩
  | @called d f vs _ origin harity =>
    have hf : f.Orderly P m.distances m.heap := hneeds _ List.mem_cons_self
    exact ⟨ho.current, hf.code.called origin vs⟩
  | _ => trivial

theorem changed (hP : ∀ t, P t → t.Spelled) (hc : Change past m t act needs m' gives) :
    m'.heap.Orderly P m.distances ∧ m'.heap.IsPlain m'.current ∧
      ∀ fact ∈ gives, fact.Orderly P m' := by
  have hname := ht.formed.not_implicit hP
  have hr := (hc.endures hname).scopes
  have hnone : ∀ {m : Machine}, ∀ fact ∈ ([] : List Fact), fact.Orderly P m :=
    List.forall_mem_nil _
  cases hc with
  | define hbound v =>
    exact ⟨ho.heap.define _ (hname _ hbound) v, ho.current.retains hr,
      List.forall_mem_singleton.mpr trivial⟩
  | assign hbound _ _ v =>
    exact ⟨ho.heap.define _ (hname _ hbound) v, ho.current.retains hr, hnone⟩
  | writes => exact ⟨ho.heap.of_same rfl rfl rfl, ho.current.retains hr, hnone⟩
  | creates =>
    exact ⟨ho.heap.of_same rfl rfl rfl, ho.current.retains hr,
      List.forall_mem_singleton.mpr trivial⟩
  | closes _ origin f =>
    exact ⟨ho.heap.newFunction (hneeds _ List.mem_cons_self), ho.current.retains hr,
      List.forall_mem_singleton.mpr trivial⟩
  | declares _ d =>
    have hmethods := (List.forall_mem_cons.mp (List.forall_mem_append.mp hneeds).2).2
    refine ⟨ho.heap.newClass fun x f hf => ?_, ho.current.retains hr,
      List.forall_mem_singleton.mpr trivial⟩
    obtain ⟨decl, hdecl, rfl, rfl⟩ := Eval.mem_methodTable hf
    refine ⟨List.forall_mem_map.mp hmethods decl hdecl, ?_⟩
    rw [FunDecl.isInitializer, beq_eq_decide]
  | block body =>
    have hplain := m.heap.isPlain_newScope m.current (Table.find?_empty _)
    exact ⟨ho.heap.newScope Table.allSuit_empty (.inl ho.current), hplain,
      List.forall_mem_singleton.mpr ⟨hplain, ht.block⟩⟩
  | frame f origin vs =>
    have hf : f.Orderly P m.distances m.heap := hneeds _ List.mem_cons_self
    have hparams : ∀ t ∈ f.decl.params, t.IsName :=
      fun t ht => (hf.code.params t ht).imp_right (hP t)
    have hsuper : (Eval.bindArguments f.decl.params vs).find? "super" = none :=
      Option.eq_none_iff_forall_ne_some.mpr fun v hv =>
        Eval.not_implicit_of_bindArguments hparams hv (.inr rfl)
    have hplain := m.heap.isPlain_newScope f.closure hsuper
    refine ⟨ho.heap.newScope (fun x v hv => ?_) (.inl hf.closure), hplain,
      List.forall_mem_singleton.mpr ⟨hplain, hf.code.body⟩⟩
    exact Value.suits_of_not_implicit (Eval.not_implicit_of_bindArguments hparams hv) v
  | receiver _ d f o =>
    have hcode : f.decl.Passed P m.distances := hneeds _ List.mem_cons_self
    refine ⟨ho.heap.newScope (Table.allSuit_this o) (.inr rfl), ho.current.retains hr, ?_⟩
    exact List.forall_mem_cons.mpr
      ⟨trivial, List.forall_mem_singleton.mpr (Function.orderly_bound hcode o)⟩
  | @parent name e methods c _ =>
    refine ⟨ho.heap.newScope (Table.allSuit_super c) (.inl ho.current), ho.current.retains hr, ?_⟩
    exact List.forall_mem_cons.mpr
      ⟨trivial, List.forall_mem_map.mpr fun d hd => ht.method hd⟩
  | _ => exact ⟨ho.heap, ho.current, hnone⟩

/-- A runtime error is no internal one and blames a token of the code. -/
theorem fails (hP : ∀ t, P t → t.Spelled) {e : RuntimeError} (he : Fails m t needs e) :
    P e.token ∧ e.kind ≠ .internal := by
  have hsuper : ∀ {id keyword name}, t = .expr (.super id keyword name) →
      P keyword ∧ keyword.lexeme = "super" := by
    rintro id keyword name rfl
    have hkeyword := ht.formed.1
    exact ⟨hkeyword.2, (hP _ hkeyword.2).lexeme_eq_super hkeyword.1⟩
  cases he with
  | unary hf => exact ⟨ht.formed.1.2, applyUnary_kind ht.formed.1.1 _ _ hf⟩
  | binary hf =>
    obtain ⟨⟨l, hl, hop, htoken⟩, -⟩ := ht.formed
    exact ⟨htoken, applyBinary_kind hl hop _ _ _ hf⟩
  | undefined hs => exact ⟨ht.formed.sought hs, ErrorKind.noConfusion⟩
  | noProperties hp => exact ⟨ht.formed.property hp, ErrorKind.noConfusion⟩
  | noFields hp => exact ⟨ht.formed.property hp, ErrorKind.noConfusion⟩
  | property hp => exact ⟨ht.formed.property hp, ErrorKind.noConfusion⟩
  | notCallable => exact ⟨ht.formed, ErrorKind.noConfusion⟩
  | arity => exact ⟨ht.formed, ErrorKind.noConfusion⟩
  | clock => exact ⟨ht.formed, ErrorKind.noConfusion⟩
  | superclass name e methods =>
    exact ⟨Task.formed_superclassToken name ht.formed.2.1, ErrorKind.noConfusion⟩
  | unresolved hd =>
    have hrecorded := ht.recorded _ List.mem_cons_self _ _ _ rfl
    rw [hd] at hrecorded
    cases hrecorded
  | notClass hv hnot =>
    obtain ⟨-, hlexeme⟩ := hsuper rfl
    rw [hlexeme] at hv
    obtain ⟨c, rfl⟩ := ho.heap.super_of_getAt? hv
    exact absurd rfl (hnot c)
  | withoutThis hv =>
    obtain ⟨-, hlexeme⟩ := hsuper rfl
    rw [hlexeme] at hv
    cases ho.current.free.symm.trans hv
  | notInstance hv hthis hnot =>
    obtain ⟨-, hlexeme⟩ := hsuper rfl
    rw [hlexeme] at hv
    obtain ⟨o, ho⟩ := ho.heap.this_of_super hv
    exact absurd (Option.some.inj (hthis.symm.trans ho)) (hnot o)
  | noThis hv hthis =>
    obtain ⟨-, hlexeme⟩ := hsuper rfl
    rw [hlexeme] at hv
    obtain ⟨o, ho⟩ := ho.heap.this_of_super hv
    rw [hthis] at ho
    cases ho
  | unbound hinit hthis =>
    have hf := hneeds _ List.mem_cons_self
    obtain ⟨o, ho⟩ := Function.Orderly.receiver hf hinit
    rw [hthis] at ho
    cases ho

end Machine.Orderly

/-- Machines stay orderly, with code whose tokens satisfy `P`. -/
def Rules.orderly (P : Token → Prop) (hP : ∀ t, P t → t.Spelled) : Rules where
  holds _ m := m.Orderly P
  knows _ m fact := fact.Orderly P m
  fails e := P e.token ∧ e.kind ≠ .internal
  look ho ht hneeds hlook := ho.look ht.2 hneeds hlook
  declared ho ht := ⟨ht.2.function, ho.current, fun hi => absurd hi Bool.false_ne_true⟩
  change _ ho ht hneeds hc := by
    obtain ⟨hheap, hcurrent, hgives⟩ := ho.changed ht.2 hneeds hP hc
    refine ⟨⟨hc.distances ▸ hheap, hcurrent⟩, fun fact hf => ?_, hgives⟩
    exact hf.kept (hc.endures (ht.2.formed.not_implicit hP)).scopes hc.distances
  leave _ ho ht := ⟨⟨ho.heap, ht.1⟩, fun _ hf => hf, List.forall_mem_nil _⟩
  error ho ht hneeds he := ho.fails ht.2 hneeds hP he

/-- Machines stay orderly, and all that exists endures. -/
def Rules.enduring (P : Token → Prop) (hP : ∀ t, P t → t.Spelled) : Rules :=
  (orderly P hP).also Moment.Enduring
    (fun _ _ ht _ hc hpast => hpast.concat (hc.endures (ht.2.formed.not_implicit hP)))
    (fun _ _ _ hpast => hpast.concat (.refl _))

end Lox
