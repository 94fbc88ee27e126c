import Lox.Proofs.Evaluation.Accesses
import Lox.Proofs.Session.Moments

/-!
# Properties of instances

What a property of an instance is depends on the history of the session alone: on the assignments to
that property of that instance, whatever names led to it, and where there are none on the
declarations of its class and of the classes above (`properties_follow_their_history`).
-/

namespace Lox

/-! ### Methods -/

theorem Table.find?_insertAll {α : Type} (t : Table α) (entries : List (String × α))
    (name : String) :
    (t.insertAll entries).find? name =
      ((entries.filter fun entry => entry.1 = name).getLast?.map Prod.snd).or (t.find? name) := by
  induction entries generalizing t with
  | nil => rfl
  | cons entry entries ih =>
    obtain ⟨key, a⟩ := entry
    show ((t.insert key a).insertAll entries).find? name = _
    rw [ih, find?_insert, List.filter_cons]
    by_cases hkey : key = name
    · simp only [hkey, decide_true, if_true, List.getLast?_cons]
      cases (entries.filter fun entry => entry.1 = name).getLast? <;> rfl
    · simp [hkey]

theorem Declaration.find?_methodTable (d : Declaration) (name : String) :
    (Eval.methodTable d.closure d.methods).find? name =
      (d.method? name).map fun f => ⟨f, d.closure, f.isInitializer⟩ := by
  rw [Eval.methodTable, Table.find?_insertAll, List.filter_map, List.getLast?_map, Option.map_map,
    Table.find?_empty, Option.or_none]
  rfl

/-- A walk from a class on through its superclasses, as they were declared, to the first one that
declares a method with a name. It ends at that method and the scope that it closes over. -/
inductive Inherited (past : List Access) (name : String) :
    ClassId → Option (FunDecl × ScopeId) → Prop where
  | own {c : ClassId} {d : Declaration} {f : FunDecl} (hd : .declared c d ∈ past)
    (hf : d.method? name = some f) : Inherited past name c (some (f, d.closure))
  | upwards {c parent : ClassId} {d : Declaration} {r : Option (FunDecl × ScopeId)}
    (hd : .declared c d ∈ past) (hf : d.method? name = none) (hp : d.parent = some parent)
    (hr : Inherited past name parent r) : Inherited past name c r
  | failed {c : ClassId} {d : Declaration} (hd : .declared c d ∈ past)
    (hf : d.method? name = none) (hp : d.parent = none) : Inherited past name c none

section Told

variable {past : List Access} {m : Machine} {o : InstanceId} {c : ClassId}

theorem Heap.Told.declared {h : Heap} (ht : h.Told past) (hc : h.Has (.cls c)) :
    ∃ d, .declared c d ∈ past := by
  have hmem : c ∈ (past.filterMap Access.declaration?).map Prod.fst := by
    rw [ht.classes]
    exact List.mem_range.mpr hc
  obtain ⟨⟨c', d⟩, hpair, rfl⟩ := List.mem_map.mp hmem
  obtain ⟨x, hx, heq⟩ := List.mem_filterMap.mp hpair
  cases x with
  | declared c d =>
    cases heq
    exact ⟨d, hx⟩
  | _ => cases heq

theorem Heap.Told.created {h : Heap} (ht : h.Told past) (ho : h.Has (.inst o)) :
    .created o (h.inst o).cls ∈ past := by
  have hmem : (o, (h.inst o).cls) ∈ past.filterMap Access.creation? := by
    rw [ht.instances]
    exact List.mem_map.mpr ⟨o, List.mem_range.mpr ho, rfl⟩
  obtain ⟨x, hx, heq⟩ := List.mem_filterMap.mp hmem
  cases x with
  | created o c =>
    cases heq
    exact hx
  | _ => cases heq

/-- The walk in the heap is the walk through the declarations. -/
theorem Heap.Told.inherited {N : Expr → Prop} {h : Heap} {globals : ScopeId} {name : String}
    {r : Option Function} (ht : h.Told past) (hs : h.Sound N globals)
    (hr : h.Inherits name c r) (hc : h.Has (.cls c)) :
    ∃ r', Inherited past name c r' ∧ r = r'.map fun q => ⟨q.1, q.2, q.1.isInitializer⟩ := by
  induction hr with
  | @own c f hf =>
    obtain ⟨d, hd⟩ := ht.declared hc
    rw [(ht.methods c d hd).2, d.find?_methodTable, Option.map_eq_some_iff] at hf
    obtain ⟨decl, hdecl, rfl⟩ := hf
    exact ⟨_, .own hd hdecl, rfl⟩
  | @upwards c parent r hf hp _ ih =>
    obtain ⟨d, hd⟩ := ht.declared hc
    obtain ⟨r', hr', heq⟩ := ih (lt_trans (hs.parents c parent hp) hc)
    rw [(ht.methods c d hd).2, d.find?_methodTable, Option.map_eq_none_iff] at hf
    rw [(ht.methods c d hd).1] at hp
    exact ⟨r', .upwards hd hf hp hr', heq⟩
  | @failed c hf hp =>
    obtain ⟨d, hd⟩ := ht.declared hc
    rw [(ht.methods c d hd).2, d.find?_methodTable, Option.map_eq_none_iff] at hf
    rw [(ht.methods c d hd).1] at hp
    exact ⟨none, .failed hd hf hp, rfl⟩

end Told

/-! ### Reading and writing -/

/-- The outcome of reading a property of an instance on a machine, after some accesses: the value
that was last assigned to it; or else a new function for the first method on the way up from the
class of the instance, in a scope that binds `this` to the instance; or else an error. -/
inductive Reads (past : List Access) (o : InstanceId) (name : Token) (m : Machine) :
    Outcome Value → Prop where
  | field {v : Value} (hlast : lastWrite? past o name.lexeme = some v) :
    Reads past o name m (.ok v m)
  | method {c : ClassId} {f : FunDecl} {closure this : ScopeId} {g : FunctionId} {final : Machine}
    (hlast : lastWrite? past o name.lexeme = none) (hc : .created o c ∈ past)
    (hf : Inherited past name.lexeme c (some (f, closure)))
    (hg : final.heap.function g = ⟨f, this, f.isInitializer⟩)
    (hthis : final.heap.scope this = ⟨.singleton "this" (.inst o), some closure⟩) :
    Reads past o name m (.ok (.function g) final)
  | missing {c : ClassId} (hlast : lastWrite? past o name.lexeme = none)
    (hc : .created o c ∈ past) (hf : Inherited past name.lexeme c none) :
    Reads past o name m (.error ((Fault.undefinedProperty name.lexeme).at_ name) m)

/-- The value of a field. -/
def Machine.field? (m : Machine) (o : InstanceId) (name : String) : Option Value :=
  (m.heap.inst o).fields.find? name

/-- What an access gives, and what it does to fields. No class is declared and no instance created
twice. -/
def Access.Follows (past : List Access) : Access → Prop
  | .declared c _ => ∀ d, .declared c d ∉ past
  | .created o _ => ∀ c, .created o c ∉ past
  | .wrote o name v before after => Eval.setField o name v before = .ok () after ∧
      ∀ o' name', after.field? o' name' =
        if o' = o ∧ name' = name then some v else before.field? o' name'
  | .read o name before outcome => outcome = Eval.getProperty (.inst o) name before ∧
      Reads past o name before outcome ∧ outcome.Leaves fun final => final.field? = before.field?

/-- On a machine after some accesses, properties are what these accesses say. -/
structure Machine.Recalls (past : List Access) (m : Machine) : Prop where
  fields : ∀ o name, m.field? o name = lastWrite? past o name
  /-- Evaluating an access reads the property after the object is evaluated. -/
  get : ∀ n id object name o next, Eval.evaluate n object m = .ok (.inst o) next →
    let outcome := Eval.evaluate (n + 1) (.get id object name) m
    Reads (past ++ accesses n (.expr object) m) o name next outcome ∧
      outcome.Leaves fun final => final.field? = next.field?
  /-- Evaluating an assignment writes the property after the object and the value are evaluated. -/
  set : ∀ n id object name value o next v last, Eval.evaluate n object m = .ok (.inst o) next →
    Eval.evaluate n value next = .ok v last →
    ∃ final, Eval.evaluate (n + 1) (.set id object name value) m = .ok v final ∧
      ∀ o' name', final.field? o' name' =
        if o' = o ∧ name' = name.lexeme then some v else last.field? o' name'

theorem Heap.Told.reads {past : List Access} {m : Machine} {o : InstanceId} (name : Token)
    (ht : m.heap.Told past) (hm : m.Sound fun _ => True) (ho : m.heap.Has (.inst o)) :
    Reads past o name m (Eval.getProperty (.inst o) name m) := by
  have hcreated := ht.created ho
  have hfields := ht.fields o name.lexeme
  cases hfield : (m.heap.inst o).fields.find? name.lexeme with
  | some v =>
    rw [hfield] at hfields
    rw [Eval.getProperty_field hfield]
    exact .field hfields.symm
  | none =>
    rw [hfield] at hfields
    rw [Eval.getProperty_method hfield]
    obtain ⟨r, hr, hfound⟩ := ht.inherited hm.heap (hm.heap.inherits_iff.mpr rfl)
      (hm.heap.classes o ho)
    cases r with
    | none =>
      rw [Eval.methodOf_none hfound]
      exact .missing hfields.symm hcreated hr
    | some q =>
      rw [Eval.methodOf_some hfound]
      refine .method hfields.symm hcreated hr ((Heap.function_newFunction _ _ _).trans
        (if_pos rfl)) ?_
      exact Heap.scope_newScope_self _ _

theorem Machine.field?_setField {m : Machine} {o : InstanceId} (ho : m.heap.Has (.inst o))
    (name : String) (v : Value) (o' : InstanceId) (name' : String) :
    Machine.field? { m with heap := m.heap.setField o name v } o' name' =
      if o' = o ∧ name' = name then some v else m.field? o' name' := by
  rw [Machine.field?, Heap.inst_setField]
  by_cases hsame : o' = o
  · rw [if_pos ⟨hsame, ho⟩, Table.find?_insert]
    simp only [hsame, true_and, eq_comm]
    rfl
  · rw [if_neg fun hand => hsame hand.1, if_neg fun hand => hsame hand.1]
    rfl

theorem Eval.getProperty_fields (object : Value) (name : Token) (m : Machine) :
    (Eval.getProperty object name m).Leaves fun final => final.field? = m.field? := by
  cases object with
  | inst o =>
    cases hv : (m.heap.inst o).fields.find? name.lexeme with
    | some v =>
      rw [Eval.getProperty_field hv]
      rfl
    | none =>
      rw [Eval.getProperty_method hv]
      cases hf : m.heap.findMethod? (m.heap.inst o).cls name.lexeme with
      | some f =>
        rw [Eval.methodOf_some hf]
        rfl
      | none =>
        rw [Eval.methodOf_none hf]
        rfl
  | _ => rfl

theorem Access.Fits.follows {past : List Access} {x : Access} (h : x.Fits past) :
    x.Follows past := by
  cases x with
  | declared c d => exact h
  | created o c => exact h
  | wrote o name v before after =>
    obtain ⟨-, ho, rfl⟩ := h
    exact ⟨rfl, Machine.field?_setField ho name v⟩
  | read o name before outcome =>
    obtain ⟨ht, ho, hm, rfl⟩ := h
    exact ⟨rfl, ht.reads name hm ho, Eval.getProperty_fields _ name before⟩

/-- The accesses also tell what the evaluation of an expression has led to. -/
theorem Rules.told_evaluate {xs : List Moment} {m next : Machine} {n : Nat} {e : Expr}
    {v : Value} (hm : told.holds xs m) (he : Eval.evaluate n e m = .ok v next) :
    told.invariant.Leads xs m (xs ++ moments n (.expr e) [] m) next ∧
      told.invariant.KnowsAll (xs ++ moments n (.expr e) [] m) next v.facts := by
  have hkeeps := (told.invariant.evaluation_keeps n).expr e
    ⟨hm, ⟨hm.1.current, fun _ _ => trivial⟩, List.forall_mem_nil _⟩
  have hends := hkeeps.ends
  rw [he] at hends
  exact hends

theorem Rules.told_recalls {xs : List Moment} {m : Machine} (hm : told.holds xs m) :
    m.Recalls (accessesAmong xs) where
  fields := hm.2.1.fields
  get n id object name o next hobject := by
    intro outcome
    obtain ⟨hleads, ho⟩ := told_evaluate hm hobject
    have htold := hleads.holds.2.1
    rw [accessesAmong_append] at htold
    have hget : outcome = Eval.getProperty (.inst o) name next := by
      show Eval.bind (Eval.evaluate n object) _ m = _
      rw [Eval.bind, hobject]
    rw [hget]
    exact ⟨htold.reads name hleads.holds.1 (ho _ List.mem_cons_self),
      Eval.getProperty_fields _ name next⟩
  set n id object name value o next v last hobject hvalue := by
    obtain ⟨hleads, ho⟩ := told_evaluate hm hobject
    obtain ⟨hleads', -⟩ := told_evaluate hleads.holds hvalue
    have hlast : last.heap.Has (.inst o) := hleads'.kept _ (ho _ List.mem_cons_self)
    refine ⟨{ last with heap := last.heap.setField o name.lexeme v }, ?_,
      Machine.field?_setField hlast name.lexeme v⟩
    show Eval.bind (Eval.evaluate n object) _ m = _
    rw [Eval.bind, hobject]
    show Eval.bind (Eval.evaluate n value) _ next = _
    rw [Eval.bind, hvalue]
    rfl

/-! ### Sessions -/

/-- The accesses of a history, up to the first step that does not end. -/
def Session.accesses (s : Session) (history : History) : List Access :=
  accessesAmong (s.moments history)

theorem Machine.told_new (readings : Nat → Option Number) (brokenOutput : Bool) :
    (Machine.new readings brokenOutput).heap.Told [] :=
  ⟨rfl, fun _ _ hd => absurd hd List.not_mem_nil, rfl, fun _ _ => rfl⟩

theorem Session.along_told (readings : Nat → Option Number) (brokenOutput : Bool)
    (history : History) :
    Rules.told.invariant.Along [] ((Session.new readings brokenOutput).moments history) :=
  (along_moments Rules.told.invariant (fun _ _ hm => ⟨hm.1.current, fun _ _ => trivial⟩)
    (fun findings hm => ⟨hm.1.resolved findings, hm.2⟩) (Session.new readings brokenOutput) history
    ⟨Machine.sound_new readings brokenOutput, Machine.told_new readings brokenOutput, trivial⟩
    fun _ _ _ _ _ hm => ⟨hm.1.current, fun _ _ => trivial⟩).1

/-- In every history of a new session, reading a property of an instance gives the value that was
last assigned to that property of that instance; or else the last method with its name in the first
class that has one, from the class of the instance on upwards, as a function with the instance for
`this`; or else an error. It changes no field. An assignment to a property changes that field of
that instance and no other. This holds of all accesses of the history, and in all its states of
whatever is evaluated there. Once all steps have ended, the fields of all instances are what was
last assigned to them. -/
theorem properties_follow_their_history (readings : Nat → Option Number) (brokenOutput : Bool)
    (history : History) :
    (∀ past x future,
      (Session.new readings brokenOutput).accesses history = past ++ x :: future →
        x.Follows past) ∧
      (∀ before x after,
        (Session.new readings brokenOutput).moments history = before ++ x :: after →
          x.machine.Recalls (accessesAmong (before ++ [x]))) ∧
      ∀ final, (Session.new readings brokenOutput).play history = some final → ∀ o name,
        final.machine.field? o name =
          lastWrite? ((Session.new readings brokenOutput).accesses history) o name := by
  have halong := Session.along_told readings brokenOutput history
  refine ⟨fun past x future hsplit => ?_, fun before x after hsplit => ?_,
    fun final hplay o name => ?_⟩
  · obtain ⟨m, hm⟩ := Invariant.Along.last halong
    have hfits : EachAfter Access.Fits []
        ((Session.new readings brokenOutput).accesses history) := hm.2.2
    rw [hsplit] at hfits
    exact hfits.at_split.follows
  · rw [hsplit] at halong
    exact Rules.told_recalls halong.at_split.shows
  · have hlast := Session.getLast?_moments hplay
    rw [List.getLast?_map, Option.map_eq_some_iff] at hlast
    obtain ⟨x, hx, hfinal⟩ := hlast
    rw [← hfinal]
    exact (Invariant.Along.at_last halong hx).2.1.fields o name

/-- A property is read as a method, which the superclass declares twice, and again as a field after
an assignment through another name. -/
def hidingHistory : History :=
  [(40, .run ("class A \x7b m() \x7b return 1; \x7d m() \x7b return 2; \x7d \x7d " ++
    "class B < A \x7b\x7d var b = B(); var c = b; b.m; c.m = 3; b.m;"))]

def Access.isRead (o : InstanceId) (name : String) : Access → Bool
  | .read o' name' _ _ => o' == o && name'.lexeme == name
  | _ => false

/-- The first of the two reads comes before any assignment to the property, the second one after it,
and each gives what its history says. -/
theorem field_hides_method_once_assigned :
    ∃ past x between y future,
      (Session.new (Clock.readingsFrom 0) false).accesses hidingHistory =
          past ++ x :: (between ++ y :: future) ∧
        (x.isRead 0 "m" = true ∧ lastWrite? past 0 "m" = none ∧ x.Follows past) ∧
        y.isRead 0 "m" = true ∧
        lastWrite? (past ++ x :: between) 0 "m" = some (.number (Number.ofDigits ['3'] [])) ∧
        y.Follows (past ++ x :: between) := by
  obtain ⟨hfollows, -⟩ :=
    properties_follow_their_history (Clock.readingsFrom 0) false hidingHistory
  let shown : Access → Bool × Option Value := fun x => (x.isRead 0 "m", x.value? 0 "m")
  have hshown : ((Session.new (Clock.readingsFrom 0) false).accesses hidingHistory).map shown =
      [(false, none), (false, none), (false, none)] ++ (true, none) ::
        ([(false, some (.number (Number.ofDigits ['3'] [])))] ++ [(true, none)]) := by
    decide +kernel
  have hlast : ∀ l, lastWrite? l 0 "m" = ((l.map shown).filterMap Prod.snd).getLast? := by
    intro l
    rw [List.filterMap_map]
    rfl
  obtain ⟨past, rest, hall, hpast, hrest⟩ := List.map_eq_append_iff.mp hshown
  obtain ⟨x, rest', rfl, hx, hrest'⟩ := List.map_eq_cons_iff.mp hrest
  obtain ⟨between, rest'', rfl, hbetween, hrest''⟩ := List.map_eq_append_iff.mp hrest'
  obtain ⟨y, future, rfl, hy, -⟩ := List.map_eq_cons_iff.mp hrest''
  refine ⟨past, x, between, y, future, hall, ⟨congrArg Prod.fst hx, ?_, ?_⟩,
    congrArg Prod.fst hy, ?_, ?_⟩
  · rw [hlast, hpast]
    rfl
  · exact hfollows past x _ hall
  · rw [hlast, List.map_append, List.map_cons, hpast, hx, hbetween]
    rfl
  · refine hfollows (past ++ x :: between) y future (hall.trans ?_)
    rw [List.append_assoc, List.cons_append]

end Lox
