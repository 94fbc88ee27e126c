import Lox.Proofs.Evaluation.Invariants
import Lox.Proofs.Heap.Lookup

/-!
# Evaluation keeps invariants

The operations of the machine make the changes that `Change` lists and fail in the ways that `Fails`
lists. So by induction on the fuel every task keeps every invariant (`evaluation_keeps`).
-/

namespace Lox

namespace Machine

variable {m : Machine} {s : ScopeId} {x : String} {v : Value}

theorem inSight_of_holder? (h : m.heap.holder? m.globals x = some s) :
    m.InSight s ∧ (m.heap.scope s).values.contains x = true := by
  obtain ⟨k, hnearest, ha⟩ := Heap.sees_of_holder? h
  obtain ⟨s', ha', hx⟩ := hnearest.1
  cases ha.symm.trans ha'
  exact ⟨.inr ⟨k, ha⟩, hx⟩

theorem inSight_of_holderAt? {k : Nat} (h : m.heap.holderAt? m.current k x = some s) :
    m.InSight s ∧ (m.heap.scope s).values.contains x = true := by
  have ha := m.heap.ancestor?_of_holderAt? h
  rw [Heap.holderAt?, ha] at h
  dsimp only at h
  split_ifs at h with hx
  exact ⟨.inl ⟨k, ha⟩, hx⟩

theorem inSight_of_current (h : m.heap.holder? m.current x = some s) :
    m.InSight s ∧ (m.heap.scope s).values.contains x = true := by
  obtain ⟨k, hnearest, ha⟩ := Heap.sees_of_holder? h
  obtain ⟨s', ha', hx⟩ := hnearest.1
  cases ha.symm.trans ha'
  exact ⟨.inl ⟨k, ha⟩, hx⟩

theorem inSight_of_get? (h : m.heap.get? m.globals x = some v) :
    ∃ s, m.InSight s ∧ m.heap.getLocal? s x = some v := by
  unfold Heap.get? at h
  split at h
  · rename_i s hs
    exact ⟨s, (inSight_of_holder? hs).1, h⟩
  · cases h

theorem inSight_of_getAt? {k : Nat} (h : m.heap.getAt? m.current k x = some v) :
    ∃ s, m.InSight s ∧ m.heap.getLocal? s x = some v := by
  unfold Heap.getAt? at h
  split at h
  · rename_i s hs
    exact ⟨s, .inl ⟨k, hs⟩, h⟩
  · cases h

end Machine

namespace Eval

theorem refs_applyUnary (op : Token) (v r : Value) (h : applyUnary op v = .ok r) :
    r.refs = [] := by
  unfold applyUnary at h
  repeat' split at h
  all_goals cases h
  all_goals rfl

theorem refs_applyBinary (op : Token) (a b r : Value) (h : applyBinary op a b = .ok r) :
    r.refs = [] := by
  unfold applyBinary addValues applyArithmetic at h
  repeat' split at h
  all_goals cases h
  all_goals rfl

theorem bindThis_bind {α : Type} (f : Function) (this : InstanceId) (k : Function → Eval α) :
    (bindThis f this >>= k) =
      (newScope f.closure (.singleton "this" (.inst this)) >>= fun closure =>
        k { f with closure }) := by
  funext m
  rfl

end Eval

namespace Invariant

variable {I : Invariant} {α : Type} {t : Task} {past : List Moment} {held : List Ref}
  {m : Machine}

namespace Ready

theorem value_in_sight (h : I.Ready t past held m) {x : String} {v : Value}
    (hv : ∃ s, m.InSight s ∧ m.heap.getLocal? s x = some v) : I.KnowsAll past m v.facts := by
  obtain ⟨s, hs, hv⟩ := hv
  exact knowsAll_facts.mpr fun r hr => h.look knowsAll_nil (.named t hs hv hr)

end Ready

namespace Keeps

/-! ### Names -/

theorem readVariable (h : I.Ready t past held m) (id : NodeId) {name : Token}
    (ht : t.sought? = some name) :
    I.Keeps t past m Value.facts [] (Eval.readVariable id name m) := by
  unfold Eval.readVariable
  dsimp only
  split
  · rename_i v hv
    refine value h.holds (h.value_in_sight (x := name.lexeme) ?_)
    split at hv
    · exact Machine.inSight_of_getAt? hv
    · exact Machine.inSight_of_get? hv
  · exact error h.holds (h.fails knowsAll_nil (.undefined ht))

theorem assigning (h : I.Ready t past held m) {name : Token} {v : Value} {p : Eval Unit}
    (hbound : t.bound? = some name) (hsought : t.sought? = some name)
    (hv : I.KnowsAll past m v.facts)
    (hp : (∃ s, p m = .ok () { m with heap := m.heap.define s name.lexeme v } ∧
        m.InSight s ∧ (m.heap.scope s).values.contains name.lexeme = true) ∨
      p m = .error ((Fault.undefinedVariable name.lexeme).at_ name) m) :
    I.Keeps t past m (fun _ => []) (Seen.binding t p held m) (p m) := by
  rcases hp with ⟨s, hp, hs, hx⟩ | hp
  · exact change h hp hv (.assign hbound hs hx v) (by simp) (List.nil_subset _) (by simp)
  · rw [Seen.binding, Seen.change, hp]
    exact error h.holds (h.fails knowsAll_nil (.undefined hsought))

theorem writeVariable (h : I.Ready t past held m) (id : NodeId) {name : Token} {v : Value}
    (hbound : t.bound? = some name) (hsought : t.sought? = some name)
    (hv : I.KnowsAll past m v.facts) :
    I.Keeps t past m (fun _ => []) (Seen.binding t (Eval.writeVariable id name v) held m)
      (Eval.writeVariable id name v m) := by
  refine assigning h hbound hsought hv ?_
  unfold Eval.writeVariable
  dsimp only
  split
  · rename_i s hs
    refine .inl ⟨s, rfl, ?_⟩
    split at hs
    · exact Machine.inSight_of_holderAt? hs
    · exact Machine.inSight_of_holder? hs
  · exact .inr rfl

theorem assign (h : I.Ready t past held m) {name : Token} {v : Value}
    (hbound : t.bound? = some name) (hsought : t.sought? = some name)
    (hv : I.KnowsAll past m v.facts) :
    I.Keeps t past m (fun _ => []) (Seen.binding t (Eval.assign name v) held m)
      (Eval.assign name v m) := by
  refine assigning h hbound hsought hv ?_
  unfold Eval.assign
  split
  · rename_i s hs
    exact .inl ⟨s, rfl, Machine.inSight_of_current hs⟩
  · exact .inr rfl

theorem define (h : I.Ready t past held m) {name : Token} {v : Value}
    (hbound : t.bound? = some name) (hv : I.KnowsAll past m v.facts) :
    I.Keeps t past m (fun _ => [.bound m.current name.lexeme])
      (Seen.binding t (Eval.define name.lexeme v) held m) (Eval.define name.lexeme v m) :=
  change h rfl hv (.define hbound v) (by simp) (List.Subset.refl _) (by simp)

/-! ### Properties -/

theorem newFunction (h : I.Ready t past held m) (origin : Origin) {f : Function}
    (hf : I.knows past m (.callable ((displays past).kept origin f) f)) :
    I.Keeps t past m Value.facts (Seen.newFunction t origin f held m) (Eval.newFunction f m) :=
  change h rfl (knowsAll_singleton.mpr hf) (.closes t origin f) (by simp) (List.Subset.refl _)
    (by simp [Value.refs])

theorem receiver (h : I.Ready t past held m) {d : Display} {f : Function} {this : InstanceId}
    (hf : I.knows past m (.method d f)) (hthis : I.knows past m (.ref (.inst this))) :
    I.Keeps t past m
      (fun s => [.ref (.scope s), .callable (⟨.receiver f.decl, s⟩ :: d) { f with closure := s }])
      (Seen.newScope t f.closure (.singleton "this" (.inst this)) held m)
      (Eval.newScope f.closure (.singleton "this" (.inst this)) m) :=
  change h rfl (knowsAll_cons.mpr ⟨hf, knowsAll_singleton.mpr hthis⟩) (.receiver t d f this)
    (by simp) (List.Subset.refl _) (by simp)

theorem boundMethod (h : I.Ready t past held m) {c : ClassId} {x : String} {f : Function}
    {this : InstanceId} (hf : I.knows past m (.method ((displays past).methods c x) f))
    (hthis : I.knows past m (.ref (.inst this))) :
    I.Keeps t past m Value.facts (Seen.boundMethod t c x f this held m)
      (Eval.boundMethod f this m) := by
  unfold Eval.boundMethod Seen.boundMethod
  rw [Eval.bindThis_bind]
  refine (receiver h hf hthis).bind fun closure m₁ _ h₁ hclosure => ?_
  refine newFunction (h.after h₁) (.method c x) ?_
  rw [displays_newScope]
  exact knowsAll_singleton.mp (knowsAll_cons.mp hclosure).2

theorem methodOf (h : I.Ready t past held m) {c : ClassId} {name : Token} {this : InstanceId}
    (ht : t.property? = some name) (hc : I.knows past m (.ref (.cls c)))
    (hthis : I.knows past m (.ref (.inst this))) :
    I.Keeps t past m Value.facts
      ((match m.heap.findMethod? c name.lexeme with
        | some f => Seen.boundMethod t c name.lexeme f this
        | none => Seen.nothing) held m)
      ((match m.heap.findMethod? c name.lexeme with
        | some f => Eval.boundMethod f this
        | none => Eval.fault (.undefinedProperty name.lexeme) name) m) := by
  cases hf : m.heap.findMethod? c name.lexeme with
  | some f => exact boundMethod h (h.look (knowsAll_singleton.mpr hc) (.method t hf)) hthis
  | none => exact error h.holds (h.fails knowsAll_nil (.property ht))

theorem getProperty (h : I.Ready t past held m) {object : Value} {name : Token}
    (ht : t.property? = some name) (hobject : I.KnowsAll past m object.facts) :
    I.Keeps t past m Value.facts (Seen.getProperty t object name held m)
      (Eval.getProperty object name m) := by
  cases object with
  | inst o =>
    refine noting h hobject (.reads t o name) (by simp) fun h₁ => ?_
    have hready := h.after h₁
    have ho : I.KnowsAll _ m [.ref (.inst o)] := h₁.knowsAll hobject
    refine looking (g := fun m => (m.heap.inst o).fields) ?_
    cases hv : (m.heap.inst o).fields.find? name.lexeme with
    | some v =>
      exact value hready.holds (knowsAll_facts.mpr fun r hr => hready.look ho (.field t hv hr))
    | none =>
      refine looking (g := fun m => m.heap.findMethod? (m.heap.inst o).cls name.lexeme) ?_
      have hmethod := methodOf hready ht (hready.look ho (.cls t o)) (knowsAll_singleton.mp ho)
      cases hf : m.heap.findMethod? (m.heap.inst o).cls name.lexeme with
      | some f => rw [hf] at hmethod; exact hmethod
      | none => rw [hf] at hmethod; exact hmethod
  | _ => exact error h.holds (h.fails knowsAll_nil (.noProperties ht))

theorem setField (h : I.Ready t past held m) {o : InstanceId} (x : String) {v : Value}
    (hneeds : I.KnowsAll past m (.ref (.inst o) :: v.facts)) :
    I.Keeps t past m (fun _ => [])
      (Seen.change t (.writes o x v) (fun _ => []) (Eval.setField o x v) held m)
      (Eval.setField o x v m) :=
  change h rfl hneeds (.writes t o x v) (by simp) (List.nil_subset _) (by simp)

theorem superMethod {id : NodeId} {keyword name : Token}
    (h : I.Ready (.expr (.super id keyword name)) past held m) :
    I.Keeps (.expr (.super id keyword name)) past m Value.facts
      (Seen.superMethod (.expr (.super id keyword name)) id keyword name held m)
      (Eval.superMethod id keyword name m) := by
  refine looking (g := fun m => m.distances.find? id) ?_
  cases hd : m.distances.find? id with
  | none => exact error h.holds (h.fails knowsAll_nil (.unresolved hd))
  | some k =>
    refine after h ?_
    unfold Eval.superclassAt
    cases hv : m.heap.getAt? m.current k keyword.lexeme with
    | none => exact .inr ⟨_, [], rfl, knowsAll_nil, .undefined rfl⟩
    | some v =>
      cases v with
      | cls c =>
        have hc := h.value_in_sight (x := keyword.lexeme) (Machine.inSight_of_getAt? hv)
        refine .inl ⟨c, rfl, after h ?_⟩
        cases k with
        | zero => exact .inr ⟨_, [], rfl, knowsAll_nil, .withoutThis hv⟩
        | succ k =>
          unfold Eval.thisInside
          dsimp only
          cases hthis : m.heap.getAt? m.current k "this" with
          | none => exact .inr ⟨_, [], rfl, knowsAll_nil, .noThis hv hthis⟩
          | some v =>
            cases v with
            | inst o =>
              have ho := h.value_in_sight (x := "this") (Machine.inSight_of_getAt? hthis)
              refine .inl ⟨o, rfl, looking (g := fun m => m.heap.findMethod? c name.lexeme) ?_⟩
              exact methodOf h rfl (knowsAll_singleton.mp hc) (knowsAll_singleton.mp ho)
            | _ => exact .inr ⟨_, [], rfl, knowsAll_nil, .notInstance hv hthis (by simp)⟩
      | _ => exact .inr ⟨_, [], rfl, knowsAll_nil, .notClass hv (by simp)⟩

/-! ### Classes -/

theorem asSuperclass {name : Token} {e : Expr} {methods : List FunDecl}
    (h : I.Ready (.stmt (.class_ name (some e) methods)) past held m) {v : Value}
    {β : Type} {gives' : β → List Fact} {f : ClassId → Eval β} {w' : ClassId → Seen}
    (hf : ∀ c, v = .cls c →
      I.Keeps (.stmt (.class_ name (some e) methods)) past m gives' (w' c held m) (f c m)) :
    I.Keeps (.stmt (.class_ name (some e) methods)) past m gives'
      (Seen.after (Eval.asSuperclass (Eval.superclassToken name e) v) w' held m)
      ((Eval.asSuperclass (Eval.superclassToken name e) v >>= f) m) := by
  refine after h ?_
  cases v with
  | cls c => exact .inl ⟨c, rfl, hf c rfl⟩
  | _ => exact .inr ⟨_, [], rfl, knowsAll_nil, .superclass name e methods⟩

theorem newClass (h : I.Ready t past held m) {d : Declaration}
    (hd : I.KnowsAll past m (d.facts (displays past))) :
    I.Keeps t past m Value.facts (Seen.newClass t d held m)
      (Eval.newClass ⟨d.name.lexeme, d.parent, Eval.methodTable d.closure d.methods⟩ m) :=
  change h rfl hd (.declares t d) (by simp) (List.Subset.refl _) (by simp [Value.refs])

theorem finishClass (h : I.Ready t past held m) {d : Declaration} {s : ScopeId}
    (hbound : t.bound? = some d.name) (hsought : t.sought? = some d.name)
    (hd : I.KnowsAll past m (d.facts (displays past)))
    (hname : I.knows past m (.bound s d.name.lexeme)) :
    I.Keeps t past m (fun _ => [.bound s d.name.lexeme])
      (((Seen.newClass t d).andThen
        (Eval.newClass ⟨d.name.lexeme, d.parent, Eval.methodTable d.closure d.methods⟩) fun c =>
          Seen.holding c.refs (Seen.binding t (Eval.assign d.name c))) held m)
      ((Eval.newClass ⟨d.name.lexeme, d.parent, Eval.methodTable d.closure d.methods⟩ >>=
        fun c => Eval.assign d.name c) m) := by
  refine (newClass h hd).bind fun c m₁ _ h₁ hc => ?_
  have hassign := assign ((h.after h₁).holding (knowsAll_facts.mp hc)) hbound hsought hc
  exact hassign.giving fun h₂ => knowsAll_singleton.mpr (h₂.kept _ (h₁.kept _ hname))

theorem defineClass {name : Token} {methods : List FunDecl}
    (h : I.Ready (.stmt (.class_ name none methods)) past held m) :
    I.Keeps (.stmt (.class_ name none methods)) past m (fun _ => [.bound m.current name.lexeme])
      (Seen.defineClass (.stmt (.class_ name none methods)) name none methods held m)
      (Eval.defineClass name none methods m) := by
  refine (define h rfl (.of_no_refs rfl)).bind fun _ m₁ _ h₁ hname => ?_
  have hready := h.after h₁
  refine looking (g := fun m => m.current) ?_
  refine finishClass (d := ⟨name, none, m₁.current, methods⟩) hready rfl rfl ?_
    (knowsAll_singleton.mp hname)
  rw [← h₁.current] at hname
  refine knowsAll_cons.mpr ⟨hready.look knowsAll_nil (.current _), ?_⟩
  exact List.forall_mem_map.mpr fun d hd => hready.look hname (.own hd)

theorem superScope {name : Token} {e : Expr} {methods : List FunDecl} {c : ClassId}
    (h : I.Ready (.stmt (.class_ name (some e) methods)) past held m)
    (hc : I.KnowsAll past m [.ref (.cls c), .bound m.current name.lexeme])
    (hdeclaring : Declaring past m name e methods c) :
    I.Keeps (.stmt (.class_ name (some e) methods)) past m
      (fun s => .ref (.scope s) :: methods.map fun d =>
        .method (⟨.parent name methods, s⟩ :: (displays past).top) ⟨d, s, d.isInitializer⟩)
      (Seen.methodClosure (.stmt (.class_ name (some e) methods)) (some c) held m)
      (Eval.methodClosure (some c) m) :=
  looking (g := fun m => m.current)
    (change h rfl hc (.parent hdeclaring) (by simp) (List.Subset.refl _) (by simp))

theorem defineSubclass {name : Token} {e : Expr} {methods : List FunDecl} {c : ClassId}
    (h : I.Ready (.stmt (.class_ name (some e) methods)) past held m)
    (hc : I.knows past m (.ref (.cls c))) {x y : Moment} (hx : x ∈ past) (hy : y ∈ past)
    (hxt : x.task = .stmt (.class_ name (some e) methods)) (hyt : y.task = .expr e)
    (hxy : y.machine = x.machine) {n : Nat}
    (he : Eval.evaluate n e x.machine = .ok (.cls c) m) :
    I.Keeps (.stmt (.class_ name (some e) methods)) past m
      (fun _ => [.bound m.current name.lexeme])
      (Seen.defineClass (.stmt (.class_ name (some e) methods)) name (some c) methods held m)
      (Eval.defineClass name (some c) methods m) := by
  refine (define h rfl (.of_no_refs rfl)).bind fun _ m₁ hm₁ h₁ hname => ?_
  cases hm₁
  have hready := h.after h₁
  have hknown := knowsAll_cons.mpr ⟨h₁.kept _ hc, hname⟩
  refine (superScope hready hknown ⟨x, List.mem_append_left _ hx, y, List.mem_append_left _ hy,
    hxt, hyt, hxy, n, m, he, rfl⟩).bind fun closure m₂ _ h₂ hclosure => ?_
  refine finishClass (d := ⟨name, some c, closure, methods⟩) (hready.after h₂) rfl rfl ?_
    (h₂.kept _ (knowsAll_singleton.mp hname))
  refine knowsAll_cons.mpr ⟨h₂.kept _ (h₁.kept _ hc), ?_⟩
  rw [← h₂.top] at hclosure
  exact hclosure

/-! ### Calls -/

theorem checkArity {paren : Token} {f : Value} {vs : List Value}
    (h : I.Ready (.call paren f vs) past held m) {expected got : Nat} {gives : α → List Fact}
    {k : Unit → Eval α} {w' : Unit → Seen}
    (hk : got = expected →
      I.Keeps (.call paren f vs) past m gives (w' () held m) (k () m)) :
    I.Keeps (.call paren f vs) past m gives
      (Seen.after (Eval.checkArity paren expected got) w' held m)
      ((Eval.checkArity paren expected got >>= k) m) := by
  refine after h ?_
  unfold Eval.checkArity
  split_ifs with hgot
  · exact .inl ⟨(), rfl, hk hgot⟩
  · exact .inr ⟨_, [], rfl, knowsAll_nil, .arity paren f vs expected got⟩

theorem newInstance (h : I.Ready t past held m) {c : ClassId}
    (hc : I.KnowsAll past m [.ref (.cls c)]) :
    I.Keeps t past m (fun o => [.ref (.inst o)]) (Seen.newInstance t c held m)
      (Eval.newInstance c m) :=
  change h rfl hc (.creates t c) (by simp) (List.Subset.refl _) (by simp)

theorem readClock (h : I.Ready t past held m) :
    I.Keeps t past m (fun _ => [])
      (Seen.change t (fun _ => .ticks) (fun _ => []) Eval.readClock held m) (Eval.readClock m) :=
  change h rfl knowsAll_nil (.ticks t) (by simp) (List.nil_subset _) (by simp)

theorem callNative {paren : Token} {f : Native} {vs : List Value}
    (h : I.Ready (.call paren (.native f) vs) past held m) :
    I.Keeps (.call paren (.native f) vs) past m Value.facts
      (Seen.callNative (.call paren (.native f) vs) f held m) (Eval.callNative paren f m) := by
  cases f with
  | clock =>
    unfold Seen.callNative Eval.callNative
    refine (readClock h).bind fun reading m₁ _ h₁ _ => ?_
    cases reading with
    | some n => exact value h₁.holds (.of_no_refs rfl)
    | none => exact error h₁.holds ((h.after h₁).fails knowsAll_nil (.clock paren _ vs))

theorem boundInstance {d : Display} {f : Function} {origin : Origin} {vs : List Value}
    (h : I.Ready (.body f origin vs) past held m) (hf : I.knows past m (.callable d f))
    (hinit : f.isInitializer = true) :
    I.Keeps (.body f origin vs) past m Value.facts [] (Eval.boundInstance f m) := by
  have hneeds : I.KnowsAll past m [.callable d f] := knowsAll_singleton.mpr hf
  unfold Eval.boundInstance
  cases hv : m.heap.getLocal? f.closure "this" with
  | some v =>
    exact value h.holds (knowsAll_facts.mpr fun r hr => h.look hneeds (.receiver _ hv hr))
  | none => exact error h.holds (h.fails hneeds (.unbound hinit hv))

end Keeps

/-! ### Tasks -/

/-- All tasks with a given fuel keep the invariant. -/
structure KeepsAll (I : Invariant) (n : Nat) : Prop where
  expr : ∀ {past held m} e, I.Ready (.expr e) past held m →
    I.Keeps (.expr e) past m Value.facts (moments n (.expr e) held m) (Eval.evaluate n e m)
  args : ∀ {past held m} es, I.Ready (.args es) past held m →
    I.Keeps (.args es) past m (List.flatMap Value.facts) (moments n (.args es) held m)
      (Eval.evaluateAll n es m)
  call : ∀ {past held m} paren f vs, I.Ready (.call paren f vs) past held m →
    I.KnowsAll past m f.facts → I.KnowsAll past m (vs.flatMap Value.facts) →
      I.Keeps (.call paren f vs) past m Value.facts (moments n (.call paren f vs) held m)
        (Eval.call n paren f vs m)
  body : ∀ {past held m} f origin vs, I.Ready (.body f origin vs) past held m →
    I.knows past m (.callable ((displays past).kept origin f) f) →
    I.KnowsAll past m (vs.flatMap Value.facts) →
      I.Keeps (.body f origin vs) past m Value.facts (moments n (.body f origin vs) held m)
        (Eval.callFunction n f vs m)
  stmt : ∀ {past held m} s, I.Ready (.stmt s) past held m →
    I.Keeps (.stmt s) past m (fun _ => s.facts m.current) (moments n (.stmt s) held m)
      (Eval.execute n s m)
  loop : ∀ {past held m} cond s, I.Ready (.loop cond s) past held m →
    I.Keeps (.loop cond s) past m (fun _ => []) (moments n (.loop cond s) held m)
      (Eval.loop n cond s m)
  stmts : ∀ {past held m} body, I.Ready (.stmts body) past held m →
    I.Keeps (.stmts body) past m (fun _ => []) (moments n (.stmts body) held m)
      (Eval.executeAll n body m)

namespace KeepsAll

variable {n : Nat} (ih : I.KeepsAll n)

include ih

theorem part_expr {e : Expr} (hpart : t.Part (.expr e)) (h : I.Ready t past held m) :
    I.Keeps t past m Value.facts (moments n (.expr e) held m) (Eval.evaluate n e m) :=
  (ih.expr e (h.part hpart)).of_parts hpart.parts_subset

theorem part_stmt {s : Stmt} (hpart : t.Part (.stmt s)) (h : I.Ready t past held m) :
    I.Keeps t past m (fun _ => s.facts m.current) (moments n (.stmt s) held m)
      (Eval.execute n s m) :=
  (ih.stmt s (h.part hpart)).of_parts hpart.parts_subset

theorem evaluate (e : Expr) (h : I.Ready (.expr e) past held m) :
    I.Keeps (.expr e) past m Value.facts (Seen.ofExpr n (moments n) e held m)
      (Eval.evaluate (n + 1) e m) := by
  unfold Seen.ofExpr
  cases e with
  | literal id v => exact .value h.holds (.of_no_refs v.refs_toValue)
  | grouping id inner => exact ih.part_expr (.inner id inner) h
  | unary id op right =>
    refine (ih.part_expr (.operand id op right) h).tail fun v m₁ _ h₁ _ => ?_
    refine .ofExcept (h.after h₁) (fun r hr => ?_) fun f hf => .unary hf
    exact .of_no_refs (Eval.refs_applyUnary op v r hr)
  | binary id left op right =>
    refine (ih.part_expr (.left id left op right) h).bind fun a m₁ _ h₁ ha => ?_
    have hready := (h.after h₁).holding (knowsAll_facts.mp ha)
    refine (ih.part_expr (.right id left op right) hready).tail fun b m₂ _ h₂ _ => ?_
    refine .ofExcept (hready.after h₂) (fun r hr => ?_) fun f hf => .binary hf
    exact .of_no_refs (Eval.refs_applyBinary op a b r hr)
  | logical id left op right =>
    refine (ih.part_expr (.first id left op right) h).bind fun a m₁ _ h₁ ha => ?_
    by_cases hd : decidesAlone op a = true
    · rw [if_pos hd, if_pos hd]
      exact .value h₁.holds ha
    · rw [if_neg hd, if_neg hd]
      exact ih.part_expr (.second id left op right) (h.after h₁)
  | var id name => exact .readVariable h id rfl
  | assign id name value =>
    refine (ih.part_expr (.assigned id name value) h).bind fun v m₁ _ h₁ hv => ?_
    have hready := (h.after h₁).holding (knowsAll_facts.mp hv)
    refine .noting hready knowsAll_nil (.reaches _) (by simp) fun h₂ => ?_
    have hwrite := Keeps.writeVariable (hready.after h₂) id rfl rfl (h₂.knowsAll hv)
    refine hwrite.tail fun _ m₃ _ h₃ _ => ?_
    exact .value h₃.holds (h₃.knowsAll (h₂.knowsAll hv))
  | call id callee paren es =>
    refine (ih.part_expr (.callee id callee paren es) h).bind fun f m₁ _ h₁ hf => ?_
    have hready := (h.after h₁).holding (knowsAll_facts.mp hf)
    have hpart := Task.Part.arguments id callee paren es
    refine ((ih.args es (hready.part hpart)).of_parts hpart.parts_subset).bind
      fun vs m₂ _ h₂ hvs => ?_
    have hcall := Task.Part.call id callee paren es f vs
    exact (ih.call paren f vs ((hready.after h₂).part hcall) (h₂.knowsAll hf) hvs).of_parts
      hcall.parts_subset
  | get id object name =>
    refine (ih.part_expr (.object id object name) h).bind fun v m₁ _ h₁ hv => ?_
    exact .getProperty ((h.after h₁).holding (knowsAll_facts.mp hv)) rfl hv
  | set id object name value =>
    refine (ih.part_expr (.owner id object name value) h).bind fun owner m₁ _ h₁ howner => ?_
    refine .after (h.after h₁) ?_
    cases owner with
    | inst o =>
      refine .inl ⟨o, rfl, ?_⟩
      have hready := (h.after h₁).holding (knowsAll_facts.mp howner)
      refine (ih.part_expr (.field id object name value) hready).bind fun v m₂ _ h₂ hv => ?_
      have hready' := (hready.after h₂).holding (knowsAll_facts.mp hv)
      have hneeds := knowsAll_cons.mpr ⟨h₂.kept _ (knowsAll_singleton.mp howner), hv⟩
      refine (Keeps.setField hready' name.lexeme hneeds).tail fun _ m₃ _ h₃ _ => ?_
      exact .value h₃.holds (h₃.knowsAll hv)
    | _ => exact .inr ⟨_, [], rfl, knowsAll_nil, .noFields rfl⟩
  | this id keyword => exact .readVariable h id rfl
  | super id keyword name => exact .superMethod h

theorem evaluateAll (es : List Expr) (h : I.Ready (.args es) past held m) :
    I.Keeps (.args es) past m (List.flatMap Value.facts) (Seen.ofArgs n (moments n) es held m)
      (Eval.evaluateAll (n + 1) es m) := by
  unfold Seen.ofArgs
  cases es with
  | nil => exact .value h.holds knowsAll_nil
  | cons e es =>
    refine (ih.part_expr (.argument e es) h).bind fun v m₁ _ h₁ hv => ?_
    have hready := (h.after h₁).holding (knowsAll_facts.mp hv)
    have hpart := Task.Part.others e es
    refine ((ih.args es (hready.part hpart)).of_parts hpart.parts_subset).tail
      fun vs m₂ _ h₂ hvs => ?_
    exact .value h₂.holds (knowsAll_append.mpr ⟨h₂.knowsAll hv, hvs⟩)

theorem run {paren : Token} {callee : Value} {f : Function} (origin : Origin) {vs : List Value}
    (h : I.Ready (.call paren callee vs) past held m)
    (hf : I.knows past m (.callable ((displays past).kept origin f) f))
    (hvs : I.KnowsAll past m (vs.flatMap Value.facts)) (harity : vs.length = f.arity) :
    I.Keeps (.call paren callee vs) past m Value.facts (moments n (.body f origin vs) held m)
      (Eval.callFunction n f vs m) := by
  have hcode := h.look (knowsAll_singleton.mpr hf) (.called _ origin harity)
  exact (ih.body f origin vs ⟨h.holds, hcode, h.held⟩ hf hvs).of_parts (by simp [Task.parts])

theorem callValue (paren : Token) (callee : Value) (vs : List Value)
    (h : I.Ready (.call paren callee vs) past held m) (hcallee : I.KnowsAll past m callee.facts)
    (hvs : I.KnowsAll past m (vs.flatMap Value.facts)) :
    I.Keeps (.call paren callee vs) past m Value.facts
      (Seen.ofCall (moments n) paren callee vs held m) (Eval.call (n + 1) paren callee vs m) := by
  unfold Seen.ofCall
  cases callee with
  | native f => exact .checkArity h fun _ => .callNative h
  | function g =>
    refine .looking (g := fun m => m.heap.function g) (.checkArity h fun harity => ?_)
    exact ih.run (.object g) h (h.look hcallee (.function _ g)) hvs harity
  | cls c =>
    refine .looking (g := fun m => m.heap.findMethod? c FunDecl.initializerName)
      (.checkArity h fun harity => ?_)
    refine (Keeps.newInstance h hcallee).bind fun this m₁ _ h₁ hthis => ?_
    have hrefs : ∀ r ∈ [Ref.inst this], I.knows _ m₁ (.ref r) :=
      List.forall_mem_singleton.mpr (knowsAll_singleton.mp hthis)
    have hready := (h.after h₁).holding hrefs
    cases hf : m.heap.findMethod? c FunDecl.initializerName with
    | none => exact .value h₁.holds hthis
    | some f =>
      dsimp only
      rw [hf] at harity
      have hmethod := h₁.kept _ (h.look hcallee (.method _ hf))
      rw [Eval.bindThis_bind]
      refine (Keeps.receiver hready hmethod (knowsAll_singleton.mp hthis)).bind
        fun closure m₂ _ h₂ hclosure => ?_
      have hbound := knowsAll_singleton.mp (knowsAll_cons.mp hclosure).2
      have hvs₂ := h₂.knowsAll (h₁.knowsAll hvs)
      have hrun := ih.run (f := { f with closure }) (.method c FunDecl.initializerName)
        (hready.after h₂) (by rw [displays_newScope, displays_newInstance]; exact hbound) hvs₂
        harity
      refine hrun.tail fun _ m₃ _ h₃ _ => ?_
      exact .value h₃.holds (h₃.knowsAll (h₂.knowsAll hthis))
  | _ => exact .error h.holds (h.fails knowsAll_nil (.notCallable paren _ vs))

theorem callFunction (f : Function) (origin : Origin) (vs : List Value)
    (h : I.Ready (.body f origin vs) past held m)
    (hf : I.knows past m (.callable ((displays past).kept origin f) f))
    (hvs : I.KnowsAll past m (vs.flatMap Value.facts)) :
    I.Keeps (.body f origin vs) past m Value.facts (Seen.ofBody n (moments n) f origin vs held m)
      (Eval.callFunction (n + 1) f vs m) := by
  have hinside : I.Keeps (.body f origin vs) past m Value.facts
      (Seen.ofBody n (moments n) f origin vs held m)
      (Eval.catchReturn (Eval.newScope f.closure (Eval.bindArguments f.decl.params vs) >>=
        fun frame => Eval.withScope frame (Eval.executeAll n f.decl.body)) m) := by
    refine Keeps.catchReturn (.inside h (knowsAll_cons.mpr ⟨hf, hvs⟩) (.frame f origin vs) ?_)
    exact fun later hready => ih.stmts f.decl.body hready
  show I.Keeps (.body f origin vs) past m Value.facts
    (Seen.ofBody n (moments n) f origin vs held m)
    ((Eval.catchReturn (Eval.newScope f.closure (Eval.bindArguments f.decl.params vs) >>=
      fun frame => Eval.withScope frame (Eval.executeAll n f.decl.body)) >>= fun result =>
        if f.isInitializer then Eval.boundInstance f else pure result) m)
  refine hinside.tail fun result m₁ _ h₁ hresult => ?_
  by_cases hinit : f.isInitializer = true
  · rw [if_pos hinit]
    exact .boundInstance (h.after h₁) (h₁.kept _ hf) hinit
  · rw [if_neg hinit]
    exact .value h₁.holds hresult

theorem branch (cond : Expr) (thenBranch : Stmt) (elseBranch : Option Stmt)
    (h : I.Ready (.stmt (.ifElse cond thenBranch elseBranch)) past held m) :
    I.Keeps (.stmt (.ifElse cond thenBranch elseBranch)) past m (fun _ => [])
      (Seen.ofStmt n (moments n) (.ifElse cond thenBranch elseBranch) held m)
      (Eval.execute (n + 1) (.ifElse cond thenBranch elseBranch) m) := by
  unfold Seen.ofStmt
  refine (ih.part_expr (.condition cond thenBranch elseBranch) h).bind fun v m₁ _ h₁ _ => ?_
  have hready := h.after h₁
  by_cases hv : v.isTruthy = true
  · rw [if_pos hv, if_pos hv]
    exact (ih.part_stmt (.thenBranch cond thenBranch elseBranch) hready).giving
      fun _ => knowsAll_nil
  · rw [if_neg hv, if_neg hv]
    cases elseBranch with
    | none => exact .value h₁.holds knowsAll_nil
    | some s =>
      exact (ih.part_stmt (.elseBranch cond thenBranch s) hready).giving fun _ => knowsAll_nil

theorem subclass (name : Token) (e : Expr) (methods : List FunDecl)
    (h : I.Ready (.stmt (.class_ name (some e) methods)) past held m) {x : Moment} (hx : x ∈ past)
    (hxt : x.task = .stmt (.class_ name (some e) methods)) (hxm : x.machine = m) :
    I.Keeps (.stmt (.class_ name (some e) methods)) past m
      (fun _ => [.bound m.current name.lexeme])
      (Seen.ofStmt n (moments n) (.class_ name (some e) methods) held m)
      (Eval.execute (n + 1) (.class_ name (some e) methods) m) := by
  unfold Seen.ofStmt
  refine (ih.part_expr (.superclass name e methods) h).bind fun v m₁ hm₁ h₁ hv => ?_
  have hready := (h.after h₁).holding (knowsAll_facts.mp hv)
  refine .asSuperclass hready fun c hc => ?_
  subst hc
  obtain ⟨y, hy, hyt, hym⟩ := exists_begun n (.expr e) held m
  rw [← h₁.current]
  exact .defineSubclass hready (knowsAll_singleton.mp hv) (List.mem_append_left _ hx)
    (List.mem_append_right _ hy) hxt hyt (hym.trans hxm.symm) (hxm ▸ hm₁)

theorem execute (s : Stmt) (h : I.Ready (.stmt s) past held m) {x : Moment} (hx : x ∈ past)
    (hxt : x.task = .stmt s) (hxm : x.machine = m) :
    I.Keeps (.stmt s) past m (fun _ => s.facts m.current) (Seen.ofStmt n (moments n) s held m)
      (Eval.execute (n + 1) s m) := by
  cases s with
  | expression e =>
    unfold Seen.ofStmt
    refine (ih.part_expr (.expression e) h).tail fun v m₁ _ h₁ _ => ?_
    exact .value h₁.holds knowsAll_nil
  | print e =>
    unfold Seen.ofStmt
    refine (ih.part_expr (.printed e) h).bind fun v m₁ _ h₁ hv => ?_
    exact .change ((h.after h₁).holding (knowsAll_facts.mp hv)) rfl hv (.prints _ v) (by simp)
      (List.nil_subset _) (by simp)
  | var name init =>
    cases init with
    | none => exact .define h rfl (.of_no_refs rfl)
    | some init =>
      unfold Seen.ofStmt
      refine (ih.part_expr (.initial name init) h).bind fun v m₁ _ h₁ hv => ?_
      rw [← h₁.current]
      exact .define ((h.after h₁).holding (knowsAll_facts.mp hv)) rfl hv
  | block body =>
    unfold Seen.ofStmt
    refine .looking (g := fun m => m.current) ?_
    have hinside := Keeps.inside h knowsAll_nil (.block body)
      fun later hready => ih.stmts body hready
    exact hinside.of_parts (List.subset_cons_self _ _)
  | ifElse cond thenBranch elseBranch => exact ih.branch cond thenBranch elseBranch h
  | while_ cond body =>
    have hpart := Task.Part.loop cond body
    exact (ih.loop cond body (h.part hpart)).of_parts hpart.parts_subset
  | function decl => exact .declare h
  | return_ keyword value =>
    cases value with
    | none =>
      refine ⟨trivial, ?_⟩
      show I.Ends (.stmt (.return_ keyword none)) past m (past ++ []) _ _
      rw [List.append_nil]
      exact ⟨.refl h.holds, ⟨none, by simp [Task.parts, Stmt.parts]⟩, .of_no_refs rfl⟩
    | some value =>
      unfold Seen.ofStmt
      refine (ih.part_expr (.returned keyword value) h).tail fun v m₁ _ h₁ hv => ?_
      refine ⟨trivial, ?_⟩
      rw [List.append_nil]
      exact ⟨.refl h₁.holds, ⟨some value, by simp [Task.parts, Stmt.parts]⟩, hv⟩
  | class_ name superclass methods =>
    cases superclass with
    | none => exact .defineClass h
    | some e => exact ih.subclass name e methods h hx hxt hxm

theorem repeatBody (cond : Expr) (s : Stmt) (h : I.Ready (.loop cond s) past held m) :
    I.Keeps (.loop cond s) past m (fun _ => []) (Seen.ofLoop n (moments n) cond s held m)
      (Eval.loop (n + 1) cond s m) := by
  unfold Seen.ofLoop
  refine (ih.part_expr (.again cond s) h).bind fun v m₁ _ h₁ _ => ?_
  by_cases hv : v.isTruthy = true
  · rw [if_pos hv, if_pos hv]
    have hready := h.after h₁
    refine (ih.part_stmt (.repeated cond s) hready).bind fun _ m₂ _ h₂ _ => ?_
    exact ih.loop cond s (hready.after h₂)
  · rw [if_neg hv, if_neg hv]
    exact .value h₁.holds knowsAll_nil

theorem executeAll (body : List Stmt) (h : I.Ready (.stmts body) past held m) :
    I.Keeps (.stmts body) past m (fun _ => []) (Seen.ofStmts n (moments n) body held m)
      (Eval.executeAll (n + 1) body m) := by
  unfold Seen.ofStmts
  cases body with
  | nil => exact .value h.holds knowsAll_nil
  | cons s rest =>
    refine (ih.part_stmt (.statement s rest) h).bind fun _ m₁ _ h₁ hs => ?_
    have hready := h.after h₁
    rw [← h₁.current] at hs
    have hrest := hready.look hs (.following s rest)
    exact (ih.stmts rest ⟨hready.holds, hrest, hready.held⟩).of_parts
      (List.subset_append_right _ _)

end KeepsAll

theorem Keeps.stopped {gives : α → List Fact} (h : I.Ready t past held m)
    (ht : ∀ r ∈ t.refs, I.knows past m (.ref r)) :
    I.Keeps t past m gives (moments 0 t held m) .outOfFuel :=
  noting (h.holding ht) knowsAll_nil (.stops t) (by simp) fun _ => ⟨trivial, trivial⟩

theorem refs_known_of_flatMap {vs : List Value}
    (hvs : I.KnowsAll past m (vs.flatMap Value.facts)) :
    ∀ r ∈ vs.flatMap Value.refs, I.knows past m (.ref r) := by
  intro r hr
  obtain ⟨v, hv, hr⟩ := List.mem_flatMap.mp hr
  exact hvs _ (List.mem_flatMap.mpr ⟨v, hv, List.mem_map_of_mem hr⟩)

/-- Every task keeps every invariant, whatever its fuel. -/
theorem evaluation_keeps (I : Invariant) (n : Nat) : I.KeepsAll n := by
  have hvalue : ∀ past (v : Value) m, I.KnowsAll past m v.facts →
      ∀ r ∈ v.refs, I.knows past m (.ref r) := fun _ _ _ => knowsAll_facts.mp
  have hcall : ∀ {past m} (paren : Token) {f : Value} {vs : List Value},
      I.KnowsAll past m f.facts → I.KnowsAll past m (vs.flatMap Value.facts) →
        ∀ r ∈ (Task.call paren f vs).refs, I.knows past m (.ref r) :=
    fun _ _ _ hf hvs =>
      List.forall_mem_append.mpr ⟨knowsAll_facts.mp hf, refs_known_of_flatMap hvs⟩
  have hbody : ∀ {past held m d} {f : Function} {origin} {vs : List Value},
      I.Ready (.body f origin vs) past held m → I.knows past m (.callable d f) →
        I.KnowsAll past m (vs.flatMap Value.facts) →
        ∀ r ∈ (Task.body f origin vs).refs, I.knows past m (.ref r) :=
    fun h hf hvs => List.forall_mem_cons.mpr
      ⟨h.look (knowsAll_singleton.mpr hf) (.closure _ _ _), refs_known_of_flatMap hvs⟩
  induction n with
  | zero =>
    exact {
      expr := fun e h => .stopped h known_nil
      args := fun es h => .stopped h known_nil
      call := fun paren f vs h hf hvs => .stopped h (hcall paren hf hvs)
      body := fun f origin vs h hf hvs => .stopped h (hbody h hf hvs)
      stmt := fun s h => .stopped h known_nil
      loop := fun cond s h => .stopped h known_nil
      stmts := fun body h => .stopped h known_nil }
  | succ n ih =>
    exact {
      expr := fun e h => .task h known_nil hvalue fun _ _ _ _ h => ih.evaluate e h
      args := fun es h =>
        .task h known_nil (fun _ _ _ => refs_known_of_flatMap) fun _ _ _ _ h => ih.evaluateAll es h
      call := fun paren f vs h hf hvs =>
        .task h (hcall paren hf hvs) hvalue fun _ _ _ hl h =>
          ih.callValue paren f vs h (hl.knowsAll hf) (hl.knowsAll hvs)
      body := fun f origin vs h hf hvs =>
        .task h (hbody h hf hvs) hvalue fun _ _ hd hl h =>
          ih.callFunction f origin vs h (hd ▸ hl.kept _ hf) (hl.knowsAll hvs)
      stmt := fun s h =>
        .task h known_nil (fun _ _ _ _ => known_nil) fun _ hx _ _ h => ih.execute s h hx rfl rfl
      loop := fun cond s h =>
        .task h known_nil (fun _ _ _ _ => known_nil) fun _ _ _ _ h => ih.repeatBody cond s h
      stmts := fun body h =>
        .task h known_nil (fun _ _ _ _ => known_nil) fun _ _ _ _ h => ih.executeAll body h }

end Invariant

end Lox
