import Lox.Proofs.Evaluation.Moments

/-!
# The activations that code belongs to

Code runs inside *activations*: a block that has been entered, a call, a method that has been bound,
a class declaration that has been executed. A `Display` lists the activations that the code at work
belongs to, innermost first, each with the site that opened it and the scope created for it.

Displays are read off the acts of a run and not off its heap: no link from a scope to the one around
it plays a part in them. A display grows when a block is entered and shrinks when it is left. A
function keeps the display of the moment at which its declaration was executed, and each of its
calls starts from that one and not from the display of the caller. Methods keep the display of the
declaration of their class, with the scope of `super` in front if there is a superclass, and binding
one puts the scope of `this` in front. A class has the methods of its superclass with the displays
that they have there, unless it has methods of the same name.
-/

namespace Lox

/-- One opening of a site, and the scope created for it. -/
structure Activation where
  site : Site
  scope : ScopeId

/-- The activations that the code at work belongs to, innermost first. -/
abbrev Display := List Activation

/-- What a run has kept of its displays. -/
structure Displays where
  /-- The displays of the code at work and of that which it will go back to. -/
  stack : List Display := []
  /-- The displays that functions have kept. -/
  functions : FunctionId → Display := fun _ => []
  /-- The displays that the methods of classes have kept, inherited ones among them. -/
  methods : ClassId → String → Display := fun _ _ => []

namespace Displays

variable (D : Displays)

/-- The display of the code at work. -/
def top : Display := D.stack.headD []

/-- The display that a function has kept. -/
def kept : Origin → Function → Display
  | .declaration, _ => D.top
  | .object g, _ => D.functions g
  | .method c name, f => ⟨.receiver f.decl, f.closure⟩ :: D.methods c name

/-- The display inside the scope `s` that a task has entered. -/
def inner (s : ScopeId) : Task → Display
  | .stmt (.block body) => ⟨.block body, s⟩ :: D.top
  | .body f origin _ => ⟨.frame f.decl, s⟩ :: D.kept origin f
  | _ => D.top

/-- The display around the methods of a class that is declared. -/
def ofClass (d : Declaration) : Display :=
  if d.parent.isSome then ⟨.parent d.name d.methods, d.closure⟩ :: D.top else D.top

/-- The displays of the methods that a class has once it is declared. -/
def ofMethods (d : Declaration) (name : String) : Display :=
  if d.methods.any (·.name.lexeme == name) then D.ofClass d
  else d.parent.elim [] (D.methods · name)

/-- What becomes of the displays at a moment. -/
def after (x : Moment) : Displays :=
  match x.act with
  | .enters => { D with stack := D.inner x.machine.current x.task :: D.stack }
  | .leaves => { D with stack := D.stack.tail }
  | .closes g origin =>
    { D with functions := fun i =>
        if i = g then D.kept origin (x.machine.heap.function g) else D.functions i }
  | .declares c d =>
    { D with methods := fun i => if i = c then D.ofMethods d else D.methods i }
  | _ => D

/-- Only entering and leaving scopes changes the display of the code at work. -/
theorem stack_after {x : Moment} (henters : x.act ≠ .enters) (hleaves : x.act ≠ .leaves) :
    (D.after x).stack = D.stack := by
  unfold after
  split
  · exact absurd ‹_› henters
  · exact absurd ‹_› hleaves
  · rfl
  · rfl
  · rfl

end Displays

/-- The displays after some moments. -/
def displays (past : List Moment) : Displays := past.foldl Displays.after {}

theorem displays_concat (past : List Moment) (x : Moment) :
    displays (past ++ [x]) = (displays past).after x := by
  rw [displays, List.foldl_append]
  rfl

theorem displays_newScope (past : List Moment) (t : Task) (enclosing : ScopeId)
    (values : Table Value) (held : List Ref) (m : Machine) :
    displays (past ++ Seen.newScope t enclosing values held m) = displays past :=
  displays_concat past _

theorem displays_newInstance (past : List Moment) (t : Task) (c : ClassId) (held : List Ref)
    (m : Machine) : displays (past ++ Seen.newInstance t c held m) = displays past :=
  displays_concat past _

end Lox
