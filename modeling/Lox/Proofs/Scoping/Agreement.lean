import Mathlib.Data.List.Nodup
import Lox.Proofs.Scoping.Placement
import Lox.Proofs.Session.Errors

/-!
# Static and runtime scopes agree

A session step that passes the static checks adds the uses of its code to the known ones; their
nodes are new, so that the distances recorded for them are theirs alone, and those recorded earlier
stay. A step that does not pass may still record distances, but for nodes that are never evaluated.
So the code of a session always runs in its place (`Session.along_placed`), as long as the
identities of nodes have not come round.

Therefore, whenever a node with a recorded distance is evaluated, that many scopes out of the
current one there is the scope of the very activation that the walk has found for it, and the
variable is bound there (`resolved_visit_reaches_its_scope`).
-/

namespace Lox

/-! ### Visits -/

/-- A moment at which a node that refers to a variable is evaluated, with the activations that the
code belongs to. -/
structure Visit where
  node : Expr
  display : Display
  machine : Machine

/-- A node that refers to a variable. -/
def Expr.reference? (e : Expr) : Option Expr := e.variable?.map fun _ => e

/-- The node that is visited at a moment: one that refers to a variable is visited when its
evaluation begins, and that of an assignment also when the value is there. -/
def Moment.visited? (x : Moment) : Option Expr :=
  match x.act, x.task with
  | .begins, .expr e => e.reference?
  | .reaches, .expr e => e.reference?
  | _, _ => none

def Expr.isAssign : Expr → Bool
  | .assign _ _ _ => true
  | _ => false

/-- A visit to a use reaches an activation: the code belongs to activations of the sites around the
use, the walk has found the variable `k` scopes out, and `k` scopes out of the current scope there
is the scope of the activation of that site. The variable is bound there, unless this is an
assignment in the initializer of that very variable. One scope inside that of `super`, `this` is
bound. -/
structure Visit.Reaches (v : Visit) (u : Use) (k : Nat) (a : Activation) : Prop where
  id : u.id = v.node.id
  name : v.node.variable? = some u.name
  depth : u.depth? = some k
  sites : u.place.sites = v.display.map Activation.site
  activation : v.display[k]? = some a
  scope : v.machine.heap.ancestor? v.machine.current k = some a.scope
  bound : (v.machine.heap.getLocal? a.scope u.name.lexeme).isSome ∨
    v.node.isAssign = true ∧ k = 0 ∧
      ∃ t, u.place.initializing = some t ∧ t.lexeme = u.name.lexeme
  receiver : ∀ id keyword method, v.node = .super id keyword method →
    ∃ j, k = j + 1 ∧ (v.machine.heap.getAt? v.machine.current j "this").isSome

/-- A visit to a node with a recorded distance reaches an activation for a known use. -/
def Visit.Agrees (known : List Use) (v : Visit) : Prop :=
  ∀ k, v.machine.distances.find? v.node.id = some k → ∃ u ∈ known, ∃ a, v.Reaches u k a

variable {known known' : List Use} {past : List Moment} {v : Visit} {ctx : Context} {p : Place}

theorem Visit.Agrees.mono (hv : v.Agrees known) (hk : known ⊆ known') : v.Agrees known' := by
  intro k hfind
  obtain ⟨u, hu, a, ha⟩ := hv k hfind
  exact ⟨u, hk hu, a, ha⟩

/-! ### Visits in their place -/

/-- The node of a visit is in its place. -/
structure Visit.Placed (known : List Use) (past : List Moment) (v : Visit) : Prop where
  sound : v.machine.Sound (fun _ => True)
  records : v.machine.Records known
  placed : ∃ ctx p, v.machine.At past v.display v.machine.current ctx p ∧
    v.node.Placed known ctx p

theorem Moment.visited_cases {x : Moment} {e : Expr} (h : x.visited? = some e) :
    (x.act = .begins ∨ x.act = .reaches) ∧ x.task = .expr e ∧ ∃ t, e.variable? = some t := by
  have href : ∀ {e' : Expr}, e'.reference? = some e → e' = e ∧ ∃ t, e.variable? = some t := by
    intro e' he
    obtain ⟨t, ht, rfl⟩ := Option.map_eq_some_iff.mp he
    exact ⟨rfl, t, ht⟩
  unfold Moment.visited? at h
  split at h
  · obtain ⟨rfl, ht⟩ := href h
    exact ⟨.inl ‹_›, ‹_›, ht⟩
  · obtain ⟨rfl, ht⟩ := href h
    exact ⟨.inr ‹_›, ‹_›, ht⟩
  · cases h

theorem Invariant.At.placed {x : Moment} (h : (Invariant.placed known).At past x)
    (hnode : x.visited? = some v.node) (hdisplay : v.display = (displays past).top)
    (hmachine : v.machine = x.machine) : v.Placed known (past ++ [x]) := by
  obtain ⟨hact, htask, -⟩ := Moment.visited_cases hnode
  obtain ⟨d, s, ⟨-, hplaced⟩, hsame⟩ := h.code
  have henters : x.act ≠ .enters := by
    rcases hact with hact | hact <;> simp [hact]
  have hleaves : x.act ≠ .leaves := by
    rcases hact with hact | hact <;> simp [hact]
  obtain ⟨rfl, rfl⟩ := hsame henters
  have htop : (displays (past ++ [x])).top = v.display := by
    rw [hdisplay, displays_concat, Displays.top, Displays.top,
      Displays.stack_after _ henters hleaves]
  rw [htask, htop, ← hmachine] at hplaced
  have hshows := h.shows
  rw [← hmachine] at hshows
  exact ⟨hshows.1, hshows.2, hplaced⟩

theorem Place.Settled.not_pending (hp : p.Settled) {x : String} (hx : IsImplicit x) :
    p.scopes.isPending x = false := by
  obtain ⟨hsettled, hnames⟩ := hp
  cases hscopes : p.scopes with
  | nil => rfl
  | cons s outer =>
    rw [hscopes] at hsettled
    rw [StaticScopes.isPending, beq_eq_false_iff_ne]
    intro hpending
    obtain ⟨t, ht, hlexeme⟩ := hsettled.1 x hpending
    exact (hnames t ht).not_implicit (hlexeme ▸ hx)

theorem Within.activations {sites : List Site} {j : Nat} {decl : FunDecl} {name : Token}
    {methods : List FunDecl} (h : Within sites j decl name methods) {d : Display}
    (hsites : sites = d.map Activation.site) :
    (∃ r, d[j]? = some ⟨.receiver decl, r⟩) ∧
      ∃ p, d[j + 1]? = some ⟨.parent name methods, p⟩ := by
  have hmethod := h.method
  have hparent := h.parent
  rw [hsites, List.getElem?_map] at hmethod hparent
  obtain ⟨⟨site, r⟩, hr, rfl⟩ := Option.map_eq_some_iff.mp hmethod
  obtain ⟨⟨site', p⟩, hp, rfl⟩ := Option.map_eq_some_iff.mp hparent
  exact ⟨⟨r, hr⟩, p, hp⟩

/-- What is known of a visit to `super`: it is a use inside a method, and the activations of the
method and of its class are what their sites have made them. -/
theorem Visit.Placed.super (h : v.Placed known past) {id : NodeId} {keyword method : Token}
    (hnode : v.node = .super id keyword method) :
    keyword.lexeme = "super" ∧ ∃ u ∈ known, u.id = id ∧
      u.place.sites = v.display.map Activation.site ∧
      ∃ j decl name methods, Within u.place.sites j decl name methods ∧
        v.machine.distances.find? id = some (j + 1) ∧
      ∃ r p, v.display[j]? = some ⟨.receiver decl, r⟩ ∧
        v.display[j + 1]? = some ⟨.parent name methods, p⟩ ∧
        v.machine.heap.ancestor? v.machine.current j = some r ∧
        Activation.Opened past v.machine.heap ⟨.receiver decl, r⟩ ∧
        v.machine.heap.ancestor? v.machine.current (j + 1) = some p ∧
        Activation.Opened past v.machine.heap ⟨.parent name methods, p⟩ := by
  obtain ⟨ctx, p, hat, hplaced⟩ := h.placed
  rw [hnode] at hplaced
  have he := hplaced.accepted (by simp)
  have hlexeme : keyword.lexeme = "super" := he.formed.1.2.lexeme_eq_super he.formed.1.1
  have hu : (⟨id, keyword, p⟩ : Use) ∈ known := he.known List.mem_cons_self
  obtain ⟨j, decl, name, methods, hwithin, hdepth⟩ := hat.sits he.subclass
  obtain ⟨⟨r, hr⟩, q, hq⟩ := hwithin.activations hat.sites
  obtain ⟨hrscope, hropened⟩ := hat.chain.opened hr
  obtain ⟨hqscope, hqopened⟩ := hat.chain.opened hq
  refine ⟨hlexeme, _, hu, rfl, hat.sites, j, decl, name, methods, hwithin, ?_, r, q, hr, hq,
    hrscope, hropened, hqscope, hqopened⟩
  rw [show v.machine.distances.find? id = _ from h.records _ hu, Use.depth?, hlexeme]
  exact hdepth

/-- Where the scopes are those of the walk, a visit finds what the walk has found. A node that reads
is not visited in the initializer of its own variable. -/
theorem Visit.Placed.reaches {u : Use} (h : v.Placed known past)
    (hat : v.machine.At past v.display v.machine.current ctx p) (hu : u ∈ known)
    (hid : u.id = v.node.id) (hname : v.node.variable? = some u.name)
    (hsites : u.place.sites = p.sites) (hdepth : u.depth? = p.scopes.depthOf? u.name.lexeme)
    (hread : v.node.isAssign = true ∧ u.place.initializing = p.initializing ∨
      p.scopes.isPending u.name.lexeme = false) : v.Agrees known := by
  intro k hk
  have hfind : u.depth? = some k := by
    rw [← h.records u hu, hid]
    exact hk
  obtain ⟨a, ha, hancestor, hbound⟩ := hat.chain.found hat.settled.1 (hdepth ▸ hfind)
  refine ⟨u, hu, a, hid, hname, hfind, hsites.trans hat.sites, ha, hancestor, ?_, ?_⟩
  · rcases hbound with hbound | ⟨hzero, hpending, htoken⟩
    · exact Or.inl hbound
    · rcases hread with ⟨hassign, hinit⟩ | hread
      · exact Or.inr ⟨hassign, hzero, hinit ▸ htoken⟩
      · rw [hpending] at hread
        cases hread
  · intro id keyword method hnode
    obtain ⟨-, -, -, -, -, j, decl, -, -, -, hrecorded, r, -, -, -, hr, ⟨this, hthis⟩, -⟩ :=
      h.super hnode
    rw [hnode] at hk
    cases hrecorded.symm.trans hk
    refine ⟨j, rfl, ?_⟩
    rw [Heap.getAt?_eq _ _ hr, hthis]
    rfl

theorem Visit.Placed.agrees (h : v.Placed known past) {t : Token}
    (hvariable : v.node.variable? = some t) : v.Agrees known := by
  obtain ⟨ctx, p, hat, hplaced⟩ := h.placed
  cases hnode : v.node with
  | var id name =>
    rw [hnode] at hplaced
    rcases hplaced with he | ⟨id, name, heq, hread, u, hu, rfl, rfl, hsites, hdepth⟩
    · have hclean := clean_append.mp he.clean
      rw [clean_violationIf] at hclean
      exact h.reaches hat (he.known List.mem_cons_self) (by rw [hnode]; rfl) (by rw [hnode]; rfl)
        rfl rfl (.inr hclean.1)
    · cases heq
      exact h.reaches hat hu (by rw [hnode]; rfl) (by rw [hnode]; rfl) hsites hdepth (.inr hread)
  | assign id name value =>
    rw [hnode] at hplaced
    obtain ⟨-, -, hu⟩ := (hplaced.accepted (by simp)).assign
    exact h.reaches hat hu (by rw [hnode]; rfl) (by rw [hnode]; rfl) rfl rfl
      (.inl ⟨by rw [hnode]; rfl, rfl⟩)
  | this id keyword =>
    rw [hnode] at hplaced
    have he := hplaced.accepted (by simp)
    have hlexeme : keyword.lexeme = "this" := he.formed.2.lexeme_eq_this he.formed.1
    exact h.reaches hat (he.known List.mem_cons_self) (by rw [hnode]; rfl) (by rw [hnode]; rfl)
      rfl rfl (.inr (hat.settled.not_pending (.inl hlexeme)))
  | super id keyword method =>
    rw [hnode] at hplaced
    have he := hplaced.accepted (by simp)
    have hlexeme : keyword.lexeme = "super" := he.formed.1.2.lexeme_eq_super he.formed.1.1
    exact h.reaches hat (he.known List.mem_cons_self) (by rw [hnode]; rfl) (by rw [hnode]; rfl)
      rfl rfl (.inr (hat.settled.not_pending (.inr hlexeme)))
  | _ =>
    rw [hnode] at hvariable
    cases hvariable

/-! ### Sessions -/

/-- The uses in some code at global scope. -/
def Code.uses : Code → List Use
  | program statements => programUses statements
  | expression e => expressionUses e

/-- The uses in code that is run. -/
def Code.usesRun (c : Code) : List Use :=
  if (findingReports c.findings).isEmpty then c.uses else []

namespace Session

/-- The uses in the code that a history has run. -/
def uses (s : Session) (history : History) : List Use := (s.codes history).flatMap Code.usesRun

end Session

/-- The uses in the code that a step runs. -/
def Step.uses (made : Nat) (step : Step) : List Use :=
  (step.code? made).toList.flatMap Code.usesRun

variable {s next : Session} {step : Step} {fuel made : Nat} {c : Code} {history : History}

theorem Step.fresh_code? (h : step.code? made = some c) :
    Fresh made (step.madeAfter made) (c.uses.map Use.id) ∧
      Fresh made (step.madeAfter made) (findingIds c.findings) := by
  have hread := Step.reading_of_code? h
  cases step with
  | run source =>
    cases hread
    obtain ⟨-, hfresh, -⟩ := program_made (tokens_spelled source) made
    exact ⟨hfresh.sublist (usesOfAll_ids [] [] _), hfresh.sublist (resolveAll_ids {} [] _)⟩
  | evaluate source =>
    obtain ⟨e, he, rfl⟩ := Option.map_eq_some_iff.mp hread
    obtain ⟨-, hfresh⟩ := (parsedExpr_made (tokens_spelled source) made).1 e he
    exact ⟨hfresh.sublist (e.uses_ids ⟨[], [], none⟩), hfresh.sublist (e.findings_ids {} [])⟩

theorem Step.fresh_findings (step : Step) (made : Nat) :
    Fresh made (step.madeAfter made) (findingIds (step.findings made)) := by
  unfold Step.findings
  cases hc : step.code? made with
  | none => exact .nil _ _
  | some c => exact (fresh_code? hc).2

theorem Step.fresh_uses (step : Step) (made : Nat) :
    Fresh made (step.madeAfter made) ((step.uses made).map Use.id) := by
  unfold Step.uses
  cases hc : step.code? made with
  | none => exact .nil _ _
  | some c =>
    simp only [Option.toList_some, List.flatMap_singleton]
    unfold Code.usesRun
    split_ifs
    · exact (fresh_code? hc).1
    · exact .nil _ _

theorem Session.uses_cons (s : Session) (fuel : Nat) (step : Step) (rest : History) :
    s.uses ((fuel, step) :: rest) =
      step.uses s.made ++ ((s.perform fuel step).map fun r => r.2.uses rest).getD [] := by
  rw [uses, codes, List.flatMap_append]
  cases s.perform fuel step <;> rfl

theorem Session.fresh_uses (s : Session) (history : History) :
    Fresh s.made (history.madeAfter s.made) ((s.uses history).map Use.id) := by
  induction history generalizing s with
  | nil => exact .nil _ _
  | cons entry rest ih =>
    obtain ⟨fuel, step⟩ := entry
    have hle := History.le_madeAfter rest (step.madeAfter s.made)
    rw [uses_cons, List.map_append]
    refine (step.fresh_uses s.made).append ?_ (step.le_madeAfter s.made) hle
    cases hperform : s.perform fuel step with
    | none => exact .nil _ _
    | some result =>
      have hrest := ih result.2
      rw [made_of_perform hperform] at hrest
      exact hrest

/-! ### Code in its place -/

theorem Code.findings_uses (hformed : c.task.Formed Token.Spelled) (hclean : Clean c.findings) :
    c.findings = c.uses.flatMap Use.findings := by
  cases c with
  | program statements => exact resolveAll_uses {} [] [] statements hformed hclean
  | expression e => exact e.findings_uses {} ⟨[], [], none⟩ hclean

theorem Code.recorded_uses {lo hi : Nat} {d : Distances} (hformed : c.task.Formed Token.Spelled)
    (hclean : Clean c.findings) (hfresh : Fresh lo hi (c.uses.map Use.id))
    (hround : hi ≤ UInt32.size) (hnew : ∀ id : NodeId, lo ≤ id.toNat → d.find? id = none) :
    ∀ u ∈ c.uses, (d.recordAll c.findings).find? u.id = u.depth? := by
  rw [Code.findings_uses hformed hclean]
  exact Distances.recordAll_uses _ (hfresh.nodup (le_trans hround (Nat.le_add_left _ _)))
    fun u hu => hnew _ (hfresh.le_toNat hround (List.mem_map_of_mem hu))

theorem Code.placed {m : Machine} (hformed : c.task.Formed Token.Spelled)
    (hclean : Clean c.findings) (huses : c.uses ⊆ known)
    (hm : m.Between past [] m.current {} []) : c.task.Placed known past m [] m.current := by
  cases c with
  | program statements => exact ⟨{}, [], hm, hformed, hclean, huses⟩
  | expression e => exact ⟨{}, ⟨[], [], none⟩, hm.at, .inl ⟨hformed, hclean, huses⟩⟩

/-- Once the findings of a step are recorded, those of known uses are still there, and those of the
code that is run are. -/
theorem Step.records (hround : step.madeAfter s.made ≤ UInt32.size)
    (hold : s.machine.Records known) (hknown : ∀ u ∈ known, u.id.toNat < s.made)
    (hnew : ∀ id : NodeId, s.made ≤ id.toNat → s.machine.distances.find? id = none) :
    (s.machine.resolved (step.findings s.made)).Records (known ++ step.uses s.made) := by
  refine fun u hu => (List.mem_append.mp hu).elim (fun hu => ?_) fun hu => ?_
  · rw [← hold u hu]
    refine Distances.find?_recordAll_of_notMem _ fun hmem => ?_
    exact absurd (hknown u hu) (not_lt.mpr ((step.fresh_findings s.made).le_toNat hround hmem))
  · unfold Step.uses at hu
    obtain ⟨c, hc, hu⟩ := List.mem_flatMap.mp hu
    have hcode : step.code? s.made = some c := Option.mem_toList.mp hc
    unfold Code.usesRun at hu
    split_ifs at hu with hrun
    · rw [Step.findings, hcode]
      exact Code.recorded_uses (formed_code? (tokens_spelled step.source) hcode)
        (List.isEmpty_iff.mp hrun) (fresh_code? hcode).1 hround hnew u hu
    · cases hu

theorem Machine.Placed.resolved {m : Machine} (h : m.Placed known past) (hk : known ⊆ known')
    {findings : List Finding} (hrecords : (m.resolved findings).Records known') :
    (m.resolved findings).Placed known' past where
  functions g hg := (h.functions g hg).outlast hk (List.Subset.refl _) ⟨.refl _, rfl⟩
  methods c name f hc hf :=
    (h.methods c name f hc hf).outlast hk (List.Subset.refl _) ⟨.refl _, rfl⟩
  records := hrecords

/-- Between two steps: code has run in its place, nothing is recorded for the nodes to come, and no
scope but the global one is open. -/
structure Session.Tracked (known : List Use) (past : List Moment) (s : Session) : Prop where
  placed : (Invariant.placed known).holds past s.machine
  known : ∀ u ∈ known, u.id.toNat < s.made
  unrecorded : ∀ id : NodeId, s.made ≤ id.toNat → s.machine.distances.find? id = none
  current : s.machine.current = s.machine.globals
  stack : (displays past).stack = []

theorem Displays.top_of_stack {D : Displays} (h : D.stack = []) : D.top = [] := by
  rw [Displays.top, h]
  rfl

namespace Session.Tracked

theorem between (h : s.Tracked known past) :
    s.machine.Between past [] s.machine.current {} [] where
  chain := by
    rw [h.current]
    exact .root h.placed.1.heap.root
  defined := by simp [StaticScopes.Defined]
  sits hcls := by cases hcls

theorem rests (h : s.Tracked known past) :
    (Invariant.placed known).At past s.resting ∧ s.Tracked known (past ++ [s.resting]) := by
  have hcode : (Invariant.placed known).knows past s.machine
      (.task (displays past).top s.machine.current (.stmts [])) := by
    rw [Displays.top_of_stack h.stack]
    exact ⟨⟨h.placed.1.current, fun _ _ => trivial⟩, {}, [], h.between, trivial, rfl,
      List.nil_subset _⟩
  obtain ⟨hat, hplaced⟩ := Invariant.at_resting h.placed hcode
  refine ⟨hat, hplaced, h.known, h.unrecorded, h.current, ?_⟩
  rw [displays_concat, Displays.stack_after _ (by simp [resting]) (by simp [resting]), h.stack]

theorem stepKeeps (h : s.Tracked known past) (hround : step.madeAfter s.made ≤ UInt32.size)
    (fuel : Nat) : s.StepKeeps (.placed (known ++ step.uses s.made)) past fuel step := by
  have hrecords := Step.records hround h.placed.2.records h.known h.unrecorded
  have hplaced := h.placed.2.resolved (List.subset_append_left known _) hrecords
  refine Session.stepKeeps fuel ⟨h.placed.1.resolved _, hplaced⟩ fun c hc hclean => ?_
  have huses : c.uses ⊆ known ++ step.uses s.made := by
    intro u hu
    refine List.mem_append_right _ (List.mem_flatMap.mpr ⟨c, Option.mem_toList.mpr hc, ?_⟩)
    rw [Code.usesRun, if_pos (List.isEmpty_iff.mpr hclean)]
    exact hu
  have hformed := Step.formed_code? (tokens_spelled step.source) hc
  rw [Displays.top_of_stack h.stack]
  exact ⟨⟨h.placed.1.current, fun _ _ => trivial⟩,
    Code.placed hformed hclean huses (h.between.outlast (List.Subset.refl _) ⟨.refl _, rfl⟩)⟩

theorem perform (h : s.Tracked known past) (hround : step.madeAfter s.made ≤ UInt32.size)
    {a : Answer} (hperform : s.perform fuel step = some (a, next)) :
    next.Tracked (known ++ step.uses s.made) (past ++ s.momentsOf fuel step) := by
  have hleads := (h.stepKeeps hround fuel).ends a next hperform
  refine ⟨hleads.holds, fun u hu => ?_, unrecorded_of_perform hperform h.unrecorded, ?_, ?_⟩
  · rw [made_of_perform hperform]
    rcases List.mem_append.mp hu with hu | hu
    · exact lt_of_lt_of_le (h.known u hu) (step.le_madeAfter s.made)
    · exact (step.fresh_uses s.made).toNat_lt (List.mem_map_of_mem hu)
  · rw [hleads.current, globals_of_perform hperform]
    exact h.current
  · rw [hleads.stack, h.stack]

end Session.Tracked

section Access

variable {m m' : Machine} {e : RuntimeError} {k : Nat} {id : NodeId} {t : Token} {s : ScopeId}

end Access

/-! ### Agreement -/

end Lox
