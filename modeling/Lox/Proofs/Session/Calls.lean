import Lox.Proofs.Evaluation.Confinement
import Lox.Proofs.Evaluation.Frames
import Lox.Proofs.Session.Moments

/-!
# What calls can touch

In whatever state of a session a value is called, the call leaves alone every scope and every
instance that cannot be reached from the callee, the arguments or the global scope. The scopes of
the caller are no exception: they are touched only if such a path leads to them. And no two calls of
a session share the scope of their parameters and their body (`calls_touch_what_they_reach`).
-/

namespace Lox

namespace Machine

variable {m final : Machine} {callee : Value} {args : List Value}

/-- The handles that a call starts from. -/
def callRoots (m : Machine) (callee : Value) (args : List Value) : List Ref :=
  .scope m.globals :: (callee.refs ++ args.flatMap Value.refs)

/-- Something can be reached from the callee, the arguments or the global scope. -/
def CallReaches (m : Machine) (callee : Value) (args : List Value) (r : Ref) : Prop :=
  ∃ root ∈ m.callRoots callee args, m.heap.Reaches root r

/-- All scopes and instances that a call could not reach are as they were before it. -/
structure CallSpares (m : Machine) (callee : Value) (args : List Value) (final : Machine) :
    Prop where
  scopes : ∀ s, m.heap.Has (.scope s) → ¬ m.CallReaches callee args (.scope s) →
    final.heap.scope s = m.heap.scope s
  instances : ∀ i, m.heap.Has (.inst i) → ¬ m.CallReaches callee args (.inst i) →
    final.heap.inst i = m.heap.inst i

/-- A call on a sound machine spares what it cannot reach. -/
theorem Sound.call (hm : m.Sound fun _ => True)
    (hhas : m.heap.HasAll (callee.refs ++ args.flatMap Value.refs)) (n : Nat) (paren : Token) :
    (Eval.call n paren callee args m).Leaves (m.CallSpares callee args) := by
  let roots := m.callRoots callee args
  let S := m.heap.reached roots
  have hroots : (m.heap.within S).All roots := by
    intro r hr
    refine ⟨?_, .inl ⟨r, hr, .refl⟩⟩
    rcases List.mem_cons.mp hr with rfl | hr
    · exact hm.heap.root
    · exact hhas r hr
  have hglobals := hroots _ List.mem_cons_self
  have hconfined : Confined S { m with current := m.globals } :=
    ⟨⟨hm.heap, m.heap.closed_reached roots⟩, hglobals, hglobals⟩
  have hcall := hconfined.call (hroots.subset (List.subset_cons_self _ _)) n paren
  refine hcall.mono fun final hspares => ⟨fun s hs hnot => ?_, fun i hi hnot => ?_⟩
  -- What lies outside the region that can be reached is what cannot be reached.
  · exact hspares.scopes s fun hin => hin.elim hnot fun hmissing => hmissing hs
  · exact hspares.instances i fun hin => hin.elim hnot fun hmissing => hmissing hi

end Machine

/-! ### Scopes of calls -/

/-- The scopes of the calls of a history, up to the first step that does not end. -/
def Session.frames (s : Session) (history : History) : List ScopeId :=
  (s.moments history).filterMap Moment.frame?

theorem Session.frames_increasing (s : Session) (history : History) :
    (s.frames history).Pairwise (· < ·) := by
  obtain ⟨halong, -⟩ := along_moments Rules.rising.invariant
    (fun _ _ _ => trivial) (fun _ hm => hm) s history ⟨trivial, .nil, List.forall_mem_nil _⟩
    fun _ _ _ _ _ _ => trivial
  obtain ⟨m, hm⟩ := Invariant.Along.last halong
  exact hm.2.1

/-! ### Calls in a session -/

/-- In every state that a new session goes through with any history, whatever value is called there
with whatever arguments, and whether the call ends with a value or with an error: every scope and
every instance that exists and cannot be reached from the callee, the arguments or the global scope
is as before. And no two calls of the history have had the same scope for their parameters and their
body. -/
theorem calls_touch_what_they_reach (readings : Nat → Option Number) (brokenOutput : Bool)
    (history : History) :
    (∀ x ∈ (Session.new readings brokenOutput).moments history, ∀ n paren callee args,
      x.machine.heap.HasAll (callee.refs ++ args.flatMap Value.refs) →
        (Eval.call n paren callee args x.machine).Leaves
          (x.machine.CallSpares callee args)) ∧
      ((Session.new readings brokenOutput).frames history).Nodup := by
  have hnew := Machine.sound_new (N := fun _ => True) readings brokenOutput
  refine ⟨fun x hx n paren callee args hhas => ?_, ?_⟩
  · have hsound := Session.sound_moments hnew history (fun _ _ _ _ => trivial) x hx
    exact hsound.machine.call hhas n paren
  · exact (Session.frames_increasing _ history).imp fun hlt => Nat.ne_of_lt hlt

/-- A function that changes the instance it is given and then fails, called twice, the second time
where another instance is in reach of the caller alone. -/
def guardedHistory : History :=
  [(40, .run ("class A \x7b\x7d fun f(a) \x7b if (a) a.n = 2; else return; missing; \x7d " ++
    "f(nil); \x7b var x = A(); var y = A(); f(x); \x7d"))]

/-- The scope of the caller is current, and `f` and the first instance lead neither there nor to the
second instance. -/
def Moment.isGuarded (x : Moment) : Bool :=
  x.machine.current == 2 && x.machine.globals == 0 && x.machine.heap.scopes.size == 3 &&
    x.machine.heap.functions.size == 1 && x.machine.heap.instances.size == 2 &&
    x.machine.heap.isClosed [.scope 0, .function 0, .cls 0, .inst 0]

/-- A call of `f` with the first instance. -/
def guardedCall : Eval Value := Eval.call 20 ⟨.symbol .rightParen, ")", 1⟩ (.function 0) [.inst 0]

/-- A computation ends with an error, and the first instance has got a field. -/
def Outcome.failsLate {α : Type} : Outcome α → Bool
  | .error _ final => (final.heap.inst 0).fields.contains "n"
  | _ => false

/-- The call fails after it has changed its argument. The scope of its caller and the other instance
are as before. -/
theorem failing_call_spares_its_caller :
    ∃ x ∈ (Session.new (Clock.readingsFrom 0) false).moments guardedHistory, ∃ e final,
      guardedCall x.machine = .error e final ∧
        (final.heap.inst 0).fields.contains "n" = true ∧
        x.machine.current = 2 ∧ final.heap.scope 2 = x.machine.heap.scope 2 ∧
        final.heap.inst 1 = x.machine.heap.inst 1 := by
  have hany : ((Session.new (Clock.readingsFrom 0) false).moments guardedHistory).any
      (fun x => x.isGuarded && (guardedCall x.machine).failsLate) = true := by
    decide +kernel
  obtain ⟨x, hx, hboth⟩ := List.any_eq_true.mp hany
  obtain ⟨hguarded, hfails⟩ := Bool.and_eq_true_iff.mp hboth
  simp only [Moment.isGuarded, Bool.and_eq_true, beq_iff_eq] at hguarded
  obtain ⟨⟨⟨⟨⟨hcurrent, hglobals⟩, hscopes⟩, hfunctions⟩, hinstances⟩, hclosed⟩ := hguarded
  have hreaches : ∀ r, x.machine.CallReaches (.function 0) [.inst 0] r →
      r ∈ [.scope 0, .function 0, .cls 0, .inst 0] := by
    rintro r ⟨root, hroot, hreach⟩
    refine Heap.mem_of_reaches hclosed ?_ hreach
    rw [Machine.callRoots, hglobals] at hroot
    have hsub : [Ref.scope 0, .function 0, .inst 0] ⊆ [.scope 0, .function 0, .cls 0, .inst 0] := by
      decide
    exact hsub hroot
  have hspares : (guardedCall x.machine).Leaves (x.machine.CallSpares (.function 0) [.inst 0]) :=
    (calls_touch_what_they_reach (Clock.readingsFrom 0) false guardedHistory).1 x hx _ _ _ _
      (by simp [Value.refs, Heap.Has, hfunctions, hinstances])
  cases hcall : guardedCall x.machine with
  | error e final =>
    rw [hcall] at hspares hfails
    refine ⟨x, hx, e, final, hcall, hfails, hcurrent, hspares.scopes 2 ?_ ?_,
      hspares.instances 1 ?_ ?_⟩
    · simp [Heap.Has, hscopes]
    · exact fun h => absurd (hreaches _ h) (by decide)
    · simp [Heap.Has, hinstances]
    · exact fun h => absurd (hreaches _ h) (by decide)
  | _ =>
    rw [hcall] at hfails
    cases hfails

end Lox
