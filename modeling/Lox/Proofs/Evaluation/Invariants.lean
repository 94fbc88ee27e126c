import Mathlib.Tactic.Common
import Lox.Proofs.Evaluation.Changes

/-!
# Invariants of evaluation

An `Invariant` says what is to hold of the moments of a run and the machine they have led to, what
is known of the facts in hand, and what of runtime errors, and it comes with what each look, each
change and each error has to do with that. Such an invariant is kept by every run: it holds at each
moment and at the end, of whatever kind (`evaluation_keeps`). This is the one induction over the
evaluator for all that holds of single runs.

The declaration of a function makes two changes, of which the first gives a function whose name is
not bound yet. An invariant need not hold in between; what is asked of every moment is what it
*shows*. `Rules` are for the invariants that do not make this distinction.
-/

namespace Lox

/-! ### One after the other -/

section EachAfter

variable {α : Type} {P Q : List α → α → Prop} {past xs ys : List α} {x : α}

/-- What holds of each of some things, after those before it. -/
def EachAfter (P : List α → α → Prop) : List α → List α → Prop
  | _, [] => True
  | past, x :: xs => P past x ∧ EachAfter P (past ++ [x]) xs

theorem eachAfter_append :
    EachAfter P past (xs ++ ys) ↔ EachAfter P past xs ∧ EachAfter P (past ++ xs) ys := by
  induction xs generalizing past with
  | nil => simp [EachAfter]
  | cons x xs ih => simp [EachAfter, ih, and_assoc]

theorem EachAfter.at_split {after : List α} (h : EachAfter P past (xs ++ x :: after)) :
    P (past ++ xs) x :=
  (eachAfter_append.mp h).2.1

theorem EachAfter.at_mem (h : EachAfter P past xs) (hx : x ∈ xs) : ∃ before, P before x := by
  obtain ⟨before, after, rfl⟩ := List.append_of_mem hx
  exact ⟨_, h.at_split⟩

theorem EachAfter.mono (h : EachAfter P past xs) (hPQ : ∀ past x, P past x → Q past x) :
    EachAfter Q past xs := by
  induction xs generalizing past with
  | nil => trivial
  | cons x xs ih => exact ⟨hPQ _ _ h.1, ih h.2⟩

end EachAfter

/-! ### Invariants -/

/-- What a part of a run that leads from one machine to another gives, and that it keeps what was
known. -/
def Steps (holds : List Moment → Machine → Prop) (knows : List Moment → Machine → Fact → Prop)
    (past : List Moment) (m : Machine) (later : List Moment) (next : Machine)
    (gives : List Fact) : Prop :=
  holds later next ∧ (∀ fact, knows past m fact → knows later next fact) ∧
    ∀ fact ∈ gives, knows later next fact

/-- What every step of an evaluation keeps. -/
structure Invariant where
  /-- Of the moments so far and the machine they have led to. -/
  holds : List Moment → Machine → Prop
  /-- Also in the middle of the declaration of a function. -/
  shows : List Moment → Machine → Prop
  /-- Of the facts in hand. -/
  knows : List Moment → Machine → Fact → Prop
  /-- Of runtime errors. -/
  fails : RuntimeError → Prop
  shows_of_holds : ∀ {past m}, holds past m → shows past m
  look : ∀ {past m t needs fact}, holds past m →
    knows past m (.task (displays past).top m.current t) → (∀ need ∈ needs, knows past m need) →
      Look (displays past) m t needs fact → knows past m fact
  change : ∀ {past m t act needs next gives} held, holds past m →
    knows past m (.task (displays past).top m.current t) → (∀ need ∈ needs, knows past m need) →
      Change past m t act needs next gives →
        Steps holds knows past m (past ++ [⟨act, t, held, next⟩]) next gives
  declare : ∀ {past m decl} held, holds past m →
    knows past m (.task (displays past).top m.current (.stmt (.function decl))) →
      let x := Moment.created m decl held
      let y := Moment.introduced m decl held
      Steps shows knows past m (past ++ [x]) x.machine [.ref (.function m.heap.functions.size)] ∧
        Steps holds knows past m (past ++ [x] ++ [y]) y.machine
          [.ref (.function m.heap.functions.size), .bound m.current decl.name.lexeme]
  /-- Code goes back to the scope that it came from. -/
  leave : ∀ {past m d s t} held, holds past m → knows past m (.task d s t) →
    Steps holds knows past m (past ++ [⟨.leaves, t, held, { m with current := s }⟩])
      { m with current := s } []
  error : ∀ {past m t needs e}, holds past m →
    knows past m (.task (displays past).top m.current t) → (∀ need ∈ needs, knows past m need) →
      Fails m t needs e → fails e

/-- What every step keeps of that which holds at every moment. -/
structure Rules where
  holds : List Moment → Machine → Prop
  knows : List Moment → Machine → Fact → Prop
  fails : RuntimeError → Prop
  look : ∀ {past m t needs fact}, holds past m →
    knows past m (.task (displays past).top m.current t) → (∀ need ∈ needs, knows past m need) →
      Look (displays past) m t needs fact → knows past m fact
  /-- A function may be called from when it is declared. -/
  declared : ∀ {past m decl}, holds past m →
    knows past m (.task (displays past).top m.current (.stmt (.function decl))) →
      knows past m (.callable (displays past).top ⟨decl, m.current, false⟩)
  change : ∀ {past m t act needs next gives} held, holds past m →
    knows past m (.task (displays past).top m.current t) → (∀ need ∈ needs, knows past m need) →
      Change past m t act needs next gives →
        Steps holds knows past m (past ++ [⟨act, t, held, next⟩]) next gives
  leave : ∀ {past m d s t} held, holds past m → knows past m (.task d s t) →
    Steps holds knows past m (past ++ [⟨.leaves, t, held, { m with current := s }⟩])
      { m with current := s } []
  error : ∀ {past m t needs e}, holds past m →
    knows past m (.task (displays past).top m.current t) → (∀ need ∈ needs, knows past m need) →
      Fails m t needs e → fails e

namespace Rules

/-- The creation of a function and the binding of its name are changes like others. -/
def invariant (R : Rules) : Invariant where
  holds := R.holds
  shows := R.holds
  knows := R.knows
  fails := R.fails
  shows_of_holds h := h
  look := R.look
  change := R.change
  declare {past m decl} held h hcode := by
    intro x y
    have hneeds := List.forall_mem_singleton.mpr (R.declared h hcode)
    obtain ⟨hx, hkept, hg⟩ := R.change held h hcode hneeds
      (.closes (.stmt (.function decl)) .declaration ⟨decl, m.current, false⟩)
    have htop : (displays (past ++ [x])).top = (displays past).top := by
      rw [displays_concat]
      rfl
    obtain ⟨hy, hkept', hbound⟩ := R.change held hx (htop ▸ hkept _ hcode) hg
      (.define rfl (.function m.heap.functions.size))
    exact ⟨⟨hx, hkept, hg⟩, hy, fun fact hf => hkept' fact (hkept fact hf),
      List.forall_mem_cons.mpr ⟨hkept' _ (hg _ List.mem_cons_self), hbound⟩⟩
  leave := R.leave
  error := R.error

/-- Nothing is asked of anything. -/
def anything : Rules where
  holds _ _ := True
  knows _ _ _ := True
  fails _ := True
  look _ _ _ _ := .intro
  declared _ _ := .intro
  change _ _ _ _ _ := ⟨.intro, fun _ _ => .intro, fun _ _ => .intro⟩
  leave _ _ _ := ⟨.intro, fun _ _ => .intro, fun _ _ => .intro⟩
  error _ _ _ _ := .intro

/-- More is to hold of the moments and the machine. -/
def also (R : Rules) (P : List Moment → Machine → Prop)
    (hchange : ∀ {past m t act needs next gives} held, R.holds past m →
      R.knows past m (.task (displays past).top m.current t) →
      (∀ need ∈ needs, R.knows past m need) → Change past m t act needs next gives → P past m →
        P (past ++ [⟨act, t, held, next⟩]) next)
    (hleave : ∀ {past m d s t} held, R.holds past m → R.knows past m (.task d s t) → P past m →
      P (past ++ [⟨.leaves, t, held, { m with current := s }⟩]) { m with current := s }) :
    Rules where
  holds past m := R.holds past m ∧ P past m
  knows := R.knows
  fails := R.fails
  look h := R.look h.1
  declared h := R.declared h.1
  change held h ht hneeds hc :=
    have hnext := R.change held h.1 ht hneeds hc
    ⟨⟨hnext.1, hchange held h.1 ht hneeds hc h.2⟩, hnext.2⟩
  leave held h ht :=
    have hnext := R.leave held h.1 ht
    ⟨⟨hnext.1, hleave held h.1 ht h.2⟩, hnext.2⟩
  error h := R.error h.1

end Rules

namespace Invariant

variable (I : Invariant) {α β : Type} {t t' : Task} {past later later' : List Moment}
  {held : List Ref} {m m₁ m₂ : Machine} {facts : List Fact}

def KnowsAll (past : List Moment) (m : Machine) (facts : List Fact) : Prop :=
  ∀ fact ∈ facts, I.knows past m fact

/-- What holds at a moment, after others. Only when a scope has just been entered is the task not
done in the current scope. -/
structure At (past : List Moment) (x : Moment) : Prop where
  shows : I.shows (past ++ [x]) x.machine
  code : ∃ d s, I.knows (past ++ [x]) x.machine (.task d s x.task) ∧
    (x.act ≠ .enters → d = (displays (past ++ [x])).top ∧ s = x.machine.current)
  held : ∀ r ∈ x.held, I.knows (past ++ [x]) x.machine (.ref r)

/-- What holds along some moments, after others. -/
abbrev Along : List Moment → List Moment → Prop := EachAfter I.At

/-- What a part of a run on `m` has led to. -/
structure Leads (past : List Moment) (m : Machine) (later : List Moment) (next : Machine) :
    Prop where
  holds : I.holds later next
  kept : ∀ fact, I.knows past m fact → I.knows later next fact
  current : next.current = m.current
  stack : (displays later).stack = (displays past).stack

/-- How a part of a run on `m` ends, at work on a task. -/
def Ends (t : Task) (past : List Moment) (m : Machine) (later : List Moment)
    (gives : α → List Fact) : Outcome α → Prop
  | .ok a next => I.Leads past m later next ∧ I.KnowsAll later next (gives a)
  | .error e next => I.Leads past m later next ∧ I.fails e
  | .returned keyword v next =>
    I.Leads past m later next ∧ IsReturnOf t.parts keyword ∧ I.KnowsAll later next v.facts
  | .outOfFuel => True

/-- The invariant is kept along the moments `xs` of a part of a run on `m`, and at its end. -/
structure Keeps (t : Task) (past : List Moment) (m : Machine) (gives : α → List Fact)
    (xs : List Moment) (o : Outcome α) : Prop where
  along : I.Along past xs
  ends : I.Ends t past m (past ++ xs) gives o

/-- All is well for work on a task with some handles in hand. -/
structure Ready (t : Task) (past : List Moment) (held : List Ref) (m : Machine) : Prop where
  holds : I.holds past m
  code : I.knows past m (.task (displays past).top m.current t)
  held : ∀ r ∈ held, I.knows past m (.ref r)

variable {I}

/-! ### Facts -/

theorem knowsAll_nil : I.KnowsAll past m [] := List.forall_mem_nil _

theorem knowsAll_cons {fact : Fact} :
    I.KnowsAll past m (fact :: facts) ↔ I.knows past m fact ∧ I.KnowsAll past m facts :=
  List.forall_mem_cons

theorem knowsAll_append {facts' : List Fact} :
    I.KnowsAll past m (facts ++ facts') ↔ I.KnowsAll past m facts ∧ I.KnowsAll past m facts' :=
  List.forall_mem_append

theorem knowsAll_singleton {fact : Fact} : I.KnowsAll past m [fact] ↔ I.knows past m fact :=
  List.forall_mem_singleton

theorem knowsAll_facts {v : Value} :
    I.KnowsAll past m v.facts ↔ ∀ r ∈ v.refs, I.knows past m (.ref r) :=
  List.forall_mem_map

theorem KnowsAll.of_no_refs {v : Value} (h : v.refs = []) : I.KnowsAll past m v.facts := by
  rw [Value.facts, h]
  exact knowsAll_nil

theorem known_nil : ∀ r ∈ ([] : List Ref), I.knows past m (.ref r) := List.forall_mem_nil _

/-! ### Moments -/

theorem Along.at_last {xs : List Moment} (h : I.Along past xs) {x : Moment}
    (hx : x ∈ xs.getLast?) : I.shows (past ++ xs) x.machine := by
  obtain ⟨before, rfl⟩ := List.getLast?_eq_some_iff.mp hx
  have hlast := (EachAfter.at_split h).shows
  rwa [List.append_assoc] at hlast

theorem Leads.refl (h : I.holds past m) : I.Leads past m past m := ⟨h, fun _ hf => hf, rfl, rfl⟩

theorem Leads.trans (h : I.Leads past m later m₁) (h' : I.Leads later m₁ later' m₂) :
    I.Leads past m later' m₂ :=
  ⟨h'.holds, fun fact hf => h'.kept fact (h.kept fact hf), h'.current.trans h.current,
    h'.stack.trans h.stack⟩

theorem Leads.knowsAll (h : I.Leads past m later m₁) (hf : I.KnowsAll past m facts) :
    I.KnowsAll later m₁ facts :=
  fun fact hfact => h.kept fact (hf fact hfact)

theorem Leads.top (h : I.Leads past m later m₁) : (displays later).top = (displays past).top := by
  rw [Displays.top, Displays.top, h.stack]

theorem Ends.of_leads {gives : α → List Fact} {o : Outcome α}
    (h : I.Ends t later m₁ later' gives o) (hleads : I.Leads past m later m₁) :
    I.Ends t past m later' gives o := by
  cases o with
  | ok a next => exact ⟨hleads.trans h.1, h.2⟩
  | error e next => exact ⟨hleads.trans h.1, h.2⟩
  | returned keyword v next => exact ⟨hleads.trans h.1, h.2⟩
  | outOfFuel => trivial

namespace Ready

theorem look (h : I.Ready t past held m) {needs : List Fact} {fact : Fact}
    (hneeds : I.KnowsAll past m needs) (hlook : Look (displays past) m t needs fact) :
    I.knows past m fact :=
  I.look h.holds h.code hneeds hlook

theorem part (h : I.Ready t past held m) (hpart : t.Part t') : I.Ready t' past held m :=
  ⟨h.holds, h.look knowsAll_nil (.part hpart), h.held⟩

theorem after (h : I.Ready t past held m) (hleads : I.Leads past m later m₁) :
    I.Ready t later held m₁ := by
  refine ⟨hleads.holds, ?_, fun r hr => hleads.kept _ (h.held r hr)⟩
  rw [hleads.top, hleads.current]
  exact hleads.kept _ h.code

theorem holding (h : I.Ready t past held m) {refs : List Ref}
    (hrefs : ∀ r ∈ refs, I.knows past m (.ref r)) : I.Ready t past (refs ++ held) m :=
  ⟨h.holds, h.code, List.forall_mem_append.mpr ⟨hrefs, h.held⟩⟩

theorem at_moment {x : Moment} (h : I.Ready x.task past held m) {gives : List Fact}
    (hsteps : Steps I.shows I.knows past m (later ++ [x]) x.machine gives)
    (hcurrent : x.machine.current = m.current)
    (hstack : (displays (later ++ [x])).stack = (displays past).stack)
    (hheld : ∀ r ∈ x.held, r ∈ held ∨ .ref r ∈ gives) : I.At later x := by
  obtain ⟨hshows, hkept, hgives⟩ := hsteps
  refine ⟨hshows, ⟨_, _, hkept _ h.code, fun _ => ⟨?_, hcurrent.symm⟩⟩, fun r hr => ?_⟩
  · rw [Displays.top, Displays.top, hstack]
  · exact (hheld r hr).elim (fun hr => hkept _ (h.held r hr)) (hgives _)

theorem change (h : I.Ready t past held m) {act : Act}
    {needs facts : List Fact} {next : Machine} (refs : List Ref) (hneeds : I.KnowsAll past m needs)
    (hchange : Change past m t act needs next facts) (hact : act ≠ .enters)
    (hrefs : ∀ r ∈ refs, r ∈ held ∨ .ref r ∈ facts) :
    let x : Moment := ⟨act, t, refs, next⟩
    I.At past x ∧ I.Leads past m (past ++ [x]) next ∧ I.KnowsAll (past ++ [x]) next facts := by
  intro x
  obtain ⟨hnext, hkept, hfacts⟩ := I.change refs h.holds h.code hneeds hchange
  obtain ⟨hcurrent, hstack⟩ := hchange.stays hact refs
  have hleads : I.Leads past m (past ++ [x]) next := ⟨hnext, hkept, hcurrent, hstack⟩
  exact ⟨h.at_moment ⟨I.shows_of_holds hnext, hkept, hfacts⟩ hcurrent hstack hrefs, hleads, hfacts⟩

theorem leaving (h : I.Ready t past held m) {entered next : Machine} {d : Display}
    (hkept : ∀ fact, I.knows past m fact → I.knows later entered fact)
    (hstack : (displays later).stack = d :: (displays past).stack)
    (hl : I.Leads later entered later' next) {result : List Ref}
    (hresult : ∀ r ∈ result, I.knows later' next (.ref r)) :
    let y : Moment := ⟨.leaves, t, result ++ held, { next with current := m.current }⟩
    I.At later' y ∧ I.Leads past m (later' ++ [y]) y.machine ∧
      ∀ fact, I.knows later' next fact → I.knows (later' ++ [y]) y.machine fact := by
  intro y
  obtain ⟨hholds, hback, -⟩ := I.leave (result ++ held) hl.holds (hl.kept _ (hkept _ h.code))
  have houter : (displays (later' ++ [y])).stack = (displays past).stack := by
    rw [displays_concat]
    show (displays later').stack.tail = _
    rw [hl.stack, hstack]
    rfl
  have hall : ∀ fact, I.knows past m fact → I.knows (later' ++ [y]) y.machine fact :=
    fun fact hfact => hback _ (hl.kept _ (hkept _ hfact))
  refine ⟨?_, ⟨hholds, hall, rfl, houter⟩, hback⟩
  refine h.at_moment (x := y) ⟨I.shows_of_holds hholds, hall, ?_⟩ rfl houter fun r hr =>
    (List.mem_append.mp hr).elim (fun hr => .inr (List.mem_map_of_mem hr)) .inl
  exact List.forall_mem_map.mpr fun r hr => hback _ (hresult r hr)

theorem fails (h : I.Ready t past held m) {needs : List Fact} {e : RuntimeError}
    (hneeds : I.KnowsAll past m needs) (he : Fails m t needs e) : I.fails e :=
  I.error h.holds h.code hneeds he

end Ready

/-! ### Ends -/

theorem Keeps.leaves {gives : α → List Fact} {xs : List Moment} {o : Outcome α}
    (h : I.Keeps t past m gives xs o) : o.Leaves (I.Leads past m (past ++ xs)) := by
  have hends := h.ends
  cases o with
  | ok a next => exact hends.1
  | error e next => exact hends.1
  | returned keyword v next => exact hends.1
  | outOfFuel => trivial

/-! ### Rules

Each is about a computation in the evaluator and the list of its moments. -/

namespace Keeps

variable {gives : α → List Fact} {gives' : β → List Fact} {p : Eval α} {w : Seen}

theorem of_parts {xs : List Moment} {o : Outcome α} (hparts : t'.parts ⊆ t.parts)
    (h : I.Keeps t' past m gives xs o) : I.Keeps t past m gives xs o := by
  refine ⟨h.along, ?_⟩
  have hends := h.ends
  cases o with
  | ok a next => exact hends
  | error e next => exact hends
  | returned keyword v next => exact ⟨hends.1, hends.2.1.mono hparts, hends.2.2⟩
  | outOfFuel => trivial

theorem giving {gives₂ : α → List Fact} {xs : List Moment} {o : Outcome α}
    (h : I.Keeps t past m gives xs o)
    (hgives : ∀ {a next}, I.Leads past m (past ++ xs) next →
      I.KnowsAll (past ++ xs) next (gives₂ a)) : I.Keeps t past m gives₂ xs o := by
  refine ⟨h.along, ?_⟩
  have hends := h.ends
  cases o with
  | ok a next => exact ⟨hends.1, hgives hends.1⟩
  | error e next => exact hends
  | returned keyword v next => exact hends
  | outOfFuel => trivial

theorem value {a : α} (h : I.holds past m) (ha : I.KnowsAll past m (gives a)) :
    I.Keeps t past m gives [] (.ok a m) :=
  ⟨trivial, by rw [List.append_nil]; exact ⟨.refl h, ha⟩⟩

theorem error {e : RuntimeError} (h : I.holds past m) (he : I.fails e) :
    I.Keeps t past m gives [] (.error e m) :=
  ⟨trivial, by rw [List.append_nil]; exact ⟨.refl h, he⟩⟩

theorem ofExcept (h : I.Ready t past held m) {token : Token} {r : Except Fault α}
    (hok : ∀ a, r = .ok a → I.KnowsAll past m (gives a))
    (herror : ∀ f, r = .error f → Fails m t [] (f.at_ token)) :
    I.Keeps t past m gives [] (Eval.ofExcept token r m) := by
  cases r with
  | ok a => exact value h.holds (hok a rfl)
  | error f => exact error h.holds (h.fails knowsAll_nil (herror f rfl))

theorem bind {f : α → Eval β} {w' : α → Seen}
    (hp : I.Keeps t past m gives (w held m) (p m))
    (hf : ∀ a next, p m = .ok a next → I.Leads past m (past ++ w held m) next →
      I.KnowsAll (past ++ w held m) next (gives a) →
        I.Keeps t (past ++ w held m) next gives' (w' a held next) (f a next)) :
    I.Keeps t past m gives' (w.andThen p w' held m) ((p >>= f) m) := by
  obtain ⟨halong, hends⟩ := hp
  show I.Keeps t past m gives' (w held m ++ _) (Eval.bind p f m)
  unfold Eval.bind
  cases hpm : p m with
  | ok a next =>
    rw [hpm] at hends
    obtain ⟨halong', hends'⟩ := hf a next hpm hends.1 hends.2
    rw [List.append_assoc] at hends'
    exact ⟨eachAfter_append.mpr ⟨halong, halong'⟩, hends'.of_leads hends.1⟩
  | error e next =>
    rw [hpm] at hends
    rw [List.append_nil]
    exact ⟨halong, hends⟩
  | returned keyword v next =>
    rw [hpm] at hends
    rw [List.append_nil]
    exact ⟨halong, hends⟩
  | outOfFuel =>
    rw [List.append_nil]
    exact ⟨halong, trivial⟩

theorem tail {f : α → Eval β} (hp : I.Keeps t past m gives (w held m) (p m))
    (hf : ∀ a next, p m = .ok a next → I.Leads past m (past ++ w held m) next →
      I.KnowsAll (past ++ w held m) next (gives a) →
        I.Keeps t (past ++ w held m) next gives' [] (f a next)) :
    I.Keeps t past m gives' (w held m) ((p >>= f) m) := by
  have h : I.Keeps t past m gives' (w.andThen p (fun _ => .nothing) held m) ((p >>= f) m) :=
    hp.bind hf
  rwa [Seen.andThen_nothing] at h

theorem after (h : I.Ready t past held m) {f : α → Eval β} {w' : α → Seen}
    (hp : (∃ a, p m = .ok a m ∧ I.Keeps t past m gives' (w' a held m) (f a m)) ∨
      ∃ e needs, p m = .error e m ∧ I.KnowsAll past m needs ∧ Fails m t needs e) :
    I.Keeps t past m gives' (Seen.after p w' held m) ((p >>= f) m) := by
  show I.Keeps t past m gives' ([] ++ _) (Eval.bind p f m)
  unfold Eval.bind
  rcases hp with ⟨a, hpm, hfa⟩ | ⟨e, needs, hpm, hneeds, he⟩
  · rw [hpm]
    exact hfa
  · rw [hpm]
    exact error h.holds (h.fails hneeds he)

theorem looking {g : Machine → α} {f : α → Eval β} {w' : α → Seen}
    (h : I.Keeps t past m gives' (w' (g m) held m) (f (g m) m)) :
    I.Keeps t past m gives' (Seen.after (fun m => .ok (g m) m) w' held m)
      (((fun m => .ok (g m) m : Eval α) >>= f) m) := h

theorem noting {act : Act} {needs : List Fact} {xs : List Moment} {o : Outcome α}
    (h : I.Ready t past held m) (hneeds : I.KnowsAll past m needs)
    (hchange : Change past m t act needs m []) (hact : act ≠ .enters)
    (hrest : I.Leads past m (past ++ [⟨act, t, held, m⟩]) m →
      I.Keeps t (past ++ [⟨act, t, held, m⟩]) m gives xs o) :
    I.Keeps t past m gives (⟨act, t, held, m⟩ :: xs) o := by
  obtain ⟨hat, hleads, -⟩ := h.change held hneeds hchange hact fun r hr => .inl hr
  have hkeeps := hrest hleads
  refine ⟨⟨hat, hkeeps.along⟩, ?_⟩
  have hends := hkeeps.ends.of_leads hleads
  rwa [List.append_assoc] at hends

theorem change (h : I.Ready t past held m) {act : Machine → Act} {refs : α → List Ref} {a : α}
    {next : Machine} {needs facts : List Fact} (hp : p m = .ok a next)
    (hneeds : I.KnowsAll past m needs) (hchange : Change past m t (act m) needs next facts)
    (hact : act m ≠ .enters) (hgives : gives a ⊆ facts)
    (hrefs : ∀ r ∈ refs a, .ref r ∈ facts) :
    I.Keeps t past m gives (Seen.change t act refs p held m) (p m) := by
  obtain ⟨hat, hleads, hfacts⟩ := h.change (refs a ++ held) hneeds hchange hact fun r hr =>
    (List.mem_append.mp hr).elim (fun hr => .inr (hrefs r hr)) .inl
  rw [Seen.change, hp]
  exact ⟨⟨hat, trivial⟩, hleads, fun fact hfact => hfacts fact (hgives hfact)⟩

theorem declare {decl : FunDecl} (h : I.Ready (.stmt (.function decl)) past held m) :
    let g := Ref.function m.heap.functions.size
    I.Keeps (.stmt (.function decl)) past m (fun _ => (Stmt.function decl).facts m.current)
      [.created m decl (g :: held), .introduced m decl (g :: held)]
      (.ok () (Moment.introduced m decl (g :: held)).machine) := by
  intro g
  obtain ⟨hfirst, hsecond⟩ := I.declare (g :: held) h.holds h.code
  have hx : (displays (past ++ [.created m decl (g :: held)])).stack = (displays past).stack := by
    rw [displays_concat]
    rfl
  have hy : (displays (past ++ [.created m decl (g :: held)] ++
      [.introduced m decl (g :: held)])).stack = (displays past).stack := by
    rw [displays_concat]
    exact hx
  have hheld : ∀ facts, ∀ r ∈ g :: held, r ∈ held ∨ .ref r ∈ Fact.ref g :: facts :=
    fun facts r hr => (List.mem_cons.mp hr).elim (fun heq => .inr (heq ▸ List.mem_cons_self)) .inl
  obtain ⟨hholds, hkept, hgives⟩ := hsecond
  refine ⟨⟨h.at_moment hfirst rfl hx (hheld _), ?_, trivial⟩, ?_⟩
  · exact h.at_moment ⟨I.shows_of_holds hholds, hkept, hgives⟩ rfl hy (hheld _)
  · rw [List.append_cons]
    exact ⟨⟨hholds, hkept, rfl, hy⟩, (knowsAll_cons.mp hgives).2⟩

/-- Code in a scope of its own. -/
theorem inside (h : I.Ready t past held m) {p : Eval Unit} {body : List Stmt}
    {enclosing : ScopeId} {values : Table Value} {needs : List Fact}
    (hneeds : I.KnowsAll past m needs)
    (hchange : Change past m t .enters needs (m.entering ⟨values, some enclosing⟩)
      [.task ((displays past).inner m.heap.scopes.size t) m.heap.scopes.size (.stmts body)])
    (hp : ∀ later, I.Ready (.stmts body) later (.scope m.current :: held)
        (m.entering ⟨values, some enclosing⟩) →
      I.Keeps (.stmts body) later (m.entering ⟨values, some enclosing⟩) (fun _ => [])
        (w (.scope m.current :: held) (m.entering ⟨values, some enclosing⟩))
        (p (m.entering ⟨values, some enclosing⟩))) :
    I.Keeps (.stmts body) past m (fun _ => []) (Seen.inside t enclosing values p w held m)
      ((Eval.newScope enclosing values >>= fun s => Eval.withScope s p) m) := by
  let x : Moment := ⟨.enters, t, .scope m.current :: held, m.entering ⟨values, some enclosing⟩⟩
  have hcurrent := h.look knowsAll_nil (.current t)
  obtain ⟨hholds, hkept, hbody⟩ :=
    I.change (.scope m.current :: held) h.holds h.code hneeds hchange
  have hheld : ∀ r ∈ x.held, I.knows (past ++ [x]) x.machine (.ref r) :=
    List.forall_mem_cons.mpr ⟨hkept _ hcurrent, fun r hr => hkept _ (h.held r hr)⟩
  have hstack : (displays (past ++ [x])).stack =
      (displays past).inner m.heap.scopes.size t :: (displays past).stack := by
    rw [displays_concat]
    rfl
  have hready : I.Ready (.stmts body) (past ++ [x]) x.held x.machine := by
    refine ⟨hholds, ?_, hheld⟩
    rw [Displays.top, hstack]
    exact hbody _ List.mem_cons_self
  have hentered : I.At past x :=
    ⟨I.shows_of_holds hholds, ⟨_, _, hkept _ h.code, fun hne => absurd rfl hne⟩, hheld⟩
  obtain ⟨halong, hends⟩ := hp _ hready
  have hleave : ∀ {next} result,
      I.Leads (past ++ [x]) x.machine (past ++ [x] ++ w x.held x.machine) next →
      (∀ r ∈ result, I.knows (past ++ [x] ++ w x.held x.machine) next (.ref r)) →
      let y : Moment := ⟨.leaves, t, result ++ held, { next with current := m.current }⟩
      I.Along past (x :: (w x.held x.machine ++ [y])) ∧
        I.Leads past m (past ++ (x :: (w x.held x.machine ++ [y]))) y.machine ∧
        ∀ fact, I.knows (past ++ [x] ++ w x.held x.machine) next fact →
          I.knows (past ++ (x :: (w x.held x.machine ++ [y]))) y.machine fact := by
    intro next result hl hresult y
    obtain ⟨hat, hleads⟩ := h.leaving hkept hstack hl hresult
    rw [List.append_cons past, ← List.append_assoc]
    exact ⟨⟨hentered, eachAfter_append.mpr ⟨halong, hat, trivial⟩⟩, hleads⟩
  rw [Eval.inside_eq]
  show I.Keeps (.stmts body) past m (fun _ => [])
    (x :: (w x.held x.machine ++ Seen.leaving t m.current p held x.machine))
    ((p x.machine).withCurrent m.current)
  unfold Seen.leaving
  cases hpm : p x.machine with
  | ok a next =>
    rw [hpm] at hends
    obtain ⟨halong, hleads, -⟩ := hleave [] hends.1 known_nil
    exact ⟨halong, hleads, knowsAll_nil⟩
  | error e next =>
    rw [hpm] at hends
    obtain ⟨halong, hleads, -⟩ := hleave [] hends.1 known_nil
    exact ⟨halong, hleads, hends.2⟩
  | returned keyword v next =>
    rw [hpm] at hends
    obtain ⟨halong, hleads, hback⟩ := hleave v.refs hends.1 (knowsAll_facts.mp hends.2.2)
    exact ⟨halong, hleads, hends.2.1, fun fact hf => hback fact (hends.2.2 fact hf)⟩
  | outOfFuel => exact ⟨⟨hentered, eachAfter_append.mpr ⟨halong, trivial⟩⟩, trivial⟩

/-- A call stops every `return` of the body that it runs. -/
theorem catchReturn {p : Eval Unit} {xs : List Moment}
    (h : I.Keeps t' past m (fun _ => []) xs (p m)) :
    I.Keeps t past m Value.facts xs (Eval.catchReturn p m) := by
  refine ⟨h.along, ?_⟩
  have hends := h.ends
  unfold Eval.catchReturn
  cases hpm : p m with
  | ok a next => rw [hpm] at hends; exact ⟨hends.1, .of_no_refs rfl⟩
  | error e next => rw [hpm] at hends; exact hends
  | returned keyword v next => rw [hpm] at hends; exact ⟨hends.1, hends.2.2⟩
  | outOfFuel => trivial

theorem ending (h : I.Ready t past held m) {refs : α → List Ref} {xs : List Moment}
    (hrefs : ∀ later a m, I.KnowsAll later m (gives a) → ∀ r ∈ refs a, I.knows later m (.ref r))
    (hkeeps : I.Keeps t past m gives xs (p m)) :
    I.Keeps t past m gives (xs ++ Seen.ending t refs p held m) (p m) := by
  obtain ⟨halong, hends⟩ := hkeeps
  have hend : ∀ {next} result, I.Leads past m (past ++ xs) next →
      (∀ r ∈ result, I.knows (past ++ xs) next (.ref r)) →
      let x : Moment := ⟨.ends, t, result ++ held, next⟩
      I.Along past (xs ++ [x]) ∧ I.Leads past m (past ++ (xs ++ [x])) next ∧
        ∀ fact, I.knows (past ++ xs) next fact → I.knows (past ++ (xs ++ [x])) next fact := by
    intro next result hl hresult x
    have hready := (h.after hl).holding hresult
    obtain ⟨hat, hleads, -⟩ := hready.change (result ++ held) knowsAll_nil (.ends t) (by simp)
      fun r hr => .inl hr
    rw [← List.append_assoc]
    exact ⟨eachAfter_append.mpr ⟨halong, hat, trivial⟩, hl.trans hleads, hleads.kept⟩
  unfold Seen.ending
  cases hpm : p m with
  | ok a next =>
    rw [hpm] at hends
    obtain ⟨halong, hleads, hkept⟩ := hend (refs a) hends.1 (hrefs _ a next hends.2)
    exact ⟨halong, hleads, fun fact hf => hkept fact (hends.2 fact hf)⟩
  | error e next =>
    rw [hpm] at hends
    obtain ⟨halong, hleads, -⟩ := hend [] hends.1 known_nil
    exact ⟨halong, hleads, hends.2⟩
  | returned keyword v next =>
    rw [hpm] at hends
    obtain ⟨halong, hleads, hkept⟩ := hend v.refs hends.1 (knowsAll_facts.mp hends.2.2)
    exact ⟨halong, hleads, hends.2.1, fun fact hf => hkept fact (hends.2.2 fact hf)⟩
  | outOfFuel => exact ⟨eachAfter_append.mpr ⟨halong, trivial⟩, trivial⟩

/-- The beginning and the end of a task. -/
theorem task (h : I.Ready t past held m) (ht : ∀ r ∈ t.refs, I.knows past m (.ref r))
    {refs : α → List Ref}
    (hrefs : ∀ later a m, I.KnowsAll later m (gives a) → ∀ r ∈ refs a, I.knows later m (.ref r))
    (hp : ∀ later, ⟨.begins, t, t.refs ++ held, m⟩ ∈ later → displays later = displays past →
      I.Leads past m later m → I.Ready t later (t.refs ++ held) m →
        I.Keeps t later m gives (w (t.refs ++ held) m) (p m)) :
    I.Keeps t past m gives (Seen.task t refs p w held m) (p m) := by
  refine noting (h.holding ht) knowsAll_nil (.begins t) (by simp) fun hbegins => ?_
  refine ending (h.after hbegins) hrefs (hp _ ?_ ?_ hbegins ((h.holding ht).after hbegins))
  · exact List.mem_append_right _ List.mem_cons_self
  · exact displays_concat _ _

end Keeps

end Invariant

end Lox
