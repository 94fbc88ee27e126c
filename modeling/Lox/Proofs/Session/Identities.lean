import Mathlib.Data.List.Nodup
import Lox.Proofs.Evaluation.Endurance
import Lox.Proofs.Session.Moments

/-!
# Identities of nodes

All trees that are read take the identities of their nodes from one counter. So no two nodes of
them have the same identity, whatever was read in between and whatever became of it
(`fresh_treesFrom`), as long as the counter has not come round.

What is recorded for a node is therefore its own: recording the findings on one tree leaves the
nodes of all others alone, and whenever a node is evaluated, the distance recorded for it is the one
that was found for it in its own tree.
-/

namespace Lox

/-! ### Reading -/

/-- The trees that are read one after the other, where `made` nodes were made before. -/
def treesFrom (made : Nat) : List Reading → List Code
  | [] => []
  | r :: rs => (r.code? made).toList ++ treesFrom (r.madeAfter made) rs

/-- The number of nodes made after several readings. -/
def madeAfterAll (made : Nat) (rs : List Reading) : Nat :=
  rs.foldl (fun made r => r.madeAfter made) made

/-- The identities of all nodes in some trees. -/
def idsOfTrees (trees : List Code) : List NodeId := trees.flatMap fun c => c.nodes.map Expr.id

theorem Reading.fresh (r : Reading) (made : Nat) :
    Fresh made (r.madeAfter made) (idsOfTrees (r.code? made).toList) ∧
      made ≤ r.madeAfter made := by
  cases r with
  | program ts =>
    obtain ⟨-, hfresh, hle⟩ := program_made (P := fun _ => True)
      (fun t (_ : t ∈ ts) => trivial) made
    refine ⟨?_, hle⟩
    show Fresh made _ ((nodesOfAll (Program.ofTokens ts made).statements).map Expr.id ++ [])
    rwa [List.append_nil, ← idsOfAll_eq]
  | expression ts =>
    obtain ⟨hmade, hle⟩ := parsedExpr_made (P := fun _ => True)
      (fun t (_ : t ∈ ts) => trivial) made
    refine ⟨?_, hle⟩
    show Fresh made _ (idsOfTrees ((ParsedExpr.ofTokens ts made).expr?.map .expression).toList)
    cases he : (ParsedExpr.ofTokens ts made).expr? with
    | none => exact .nil _ _
    | some e =>
      show Fresh made _ (e.nodes.map Expr.id ++ [])
      rw [List.append_nil, ← Expr.ids_eq]
      exact (hmade e he).2

/-- All nodes that are ever read are made one after the other. -/
theorem fresh_treesFrom (made : Nat) (rs : List Reading) :
    Fresh made (madeAfterAll made rs) (idsOfTrees (treesFrom made rs)) ∧
      made ≤ madeAfterAll made rs := by
  induction rs generalizing made with
  | nil => exact ⟨.nil made made, le_refl made⟩
  | cons r rs ih =>
    obtain ⟨hfirst, hle⟩ := r.fresh made
    obtain ⟨hrest, hle'⟩ := ih (r.madeAfter made)
    rw [treesFrom, idsOfTrees, List.flatMap_append]
    exact ⟨hfirst.append hrest hle hle', le_trans hle hle'⟩

/-! ### Recording -/

/-- Findings are about nodes of the tree, and about each one only once. -/
theorem Code.findingIds_sublist (c : Code) :
    (findingIds c.findings).Sublist (c.nodes.map Expr.id) := by
  cases c with
  | program statements =>
    show (findingIds (programFindings statements)).Sublist
      ((nodesOfAll statements).map Expr.id)
    rw [← idsOfAll_eq]
    exact resolveAll_ids {} [] statements
  | expression e =>
    show (findingIds (expressionFindings e)).Sublist (e.nodes.map Expr.id)
    rw [← Expr.ids_eq]
    exact e.findings_ids {} []

theorem pairwise_recordAll {trees : List Code} (h : (idsOfTrees trees).Nodup) :
    trees.Pairwise fun c c' => ∀ e ∈ c.nodes, ∀ d : Distances,
      (d.recordAll c'.findings).find? e.id = d.find? e.id := by
  refine (List.nodup_flatMap.mp h).2.imp fun {c c'} hdisjoint e he d => ?_
  refine d.find?_recordAll_of_notMem fun hmem => ?_
  exact hdisjoint (List.mem_map_of_mem he) (c'.findingIds_sublist.subset hmem)

theorem Distances.find?_recordAll_iff {d : Distances} {findings : List Finding} {id : NodeId}
    (hnodup : (findingIds findings).Nodup) (hnew : d.find? id = none) (k : Nat) :
    (d.recordAll findings).find? id = some k ↔ .distance id k ∈ findings := by
  induction findings generalizing d with
  | nil =>
    rw [show d.recordAll [] = d from rfl, hnew]
    simp
  | cons f findings ih =>
    show ((f.record d).recordAll findings).find? id = some k ↔ _
    cases f with
    | violation token rule =>
      rw [List.mem_cons, or_iff_right (by simp)]
      exact ih hnodup hnew
    | distance other steps =>
      obtain ⟨hother, hrest⟩ := List.nodup_cons.mp (show (other :: findingIds findings).Nodup from
        hnodup)
      by_cases hid : id = other
      · subst hid
        have hnot : .distance id k ∉ findings := fun hmem =>
          hother (List.mem_filterMap.mpr ⟨_, hmem, rfl⟩)
        rw [find?_recordAll_of_notMem _ hother, List.mem_cons, or_iff_left hnot]
        show (d.record id steps).find? id = some k ↔ _
        rw [find?_record_self, Option.some.injEq, Finding.distance.injEq]
        exact ⟨fun h => ⟨rfl, h.symm⟩, fun h => h.2.symm⟩
      · have hne : Finding.distance id k ≠ .distance other steps := fun h => by
          cases h
          exact hid rfl
        rw [List.mem_cons, or_iff_right hne]
        refine ih hrest ?_
        show (d.record other steps).find? id = none
        rw [find?_record_ne d hid, hnew]

/-! ### Sessions -/

/-- The distances recorded for the nodes of a tree are those found in it. -/
def Distances.Own (d : Distances) (c : Code) : Prop :=
  ∀ e ∈ c.nodes, ∀ k, d.find? e.id = some k ↔ .distance e.id k ∈ c.findings

/-- What holds between two steps of the trees that have been resolved: each has the distances that
were found in it, and nothing is recorded for nodes to come. -/
structure Session.Records (s : Session) (trees : List Code) : Prop where
  below : ∀ c ∈ trees, ∀ e ∈ c.nodes, e.id.toNat < s.made
  own : ∀ c ∈ trees, s.machine.distances.Own c
  ahead : ∀ id : NodeId, s.made ≤ id.toNat → s.machine.distances.find? id = none

namespace Session.Records

variable {s next : Session} {trees : List Code} {step : Step}

theorem resolved (h : s.Records trees)
    (hdistances : next.machine.distances =
      (s.machine.resolved (step.findings s.made)).distances)
    (hnext : next.made = step.madeAfter s.made) (hround : next.made ≤ UInt32.size) :
    next.Records (trees ++ (step.code? s.made).toList) := by
  have hle : s.made ≤ next.made := by
    rw [hnext]
    exact step.le_madeAfter s.made
  cases hcode : step.code? s.made with
  | none =>
    have hsame : next.machine.distances = s.machine.distances := by
      rw [hdistances, Step.findings, hcode]
      rfl
    rw [Option.toList_none, List.append_nil]
    exact ⟨fun c hc e he => lt_of_lt_of_le (h.below c hc e he) hle, hsame ▸ h.own,
      fun id hid => hsame ▸ h.ahead id (le_trans hle hid)⟩
  | some c =>
    have hrecorded : next.machine.distances = s.machine.distances.recordAll c.findings := by
      rw [hdistances, Step.findings, hcode]
      rfl
    have hfresh : Fresh s.made next.made (c.nodes.map Expr.id) := by
      obtain ⟨hread, -⟩ := step.reading.fresh s.made
      rw [Step.reading_of_code? hcode, ← Step.madeAfter_eq, ← hnext] at hread
      simpa [idsOfTrees] using hread
    have hids : Fresh s.made next.made (findingIds c.findings) :=
      hfresh.sublist c.findingIds_sublist
    refine ⟨fun c' hc' e he => ?_, fun c' hc' e he k => ?_, fun id hid => ?_⟩
    · rcases List.mem_append.mp hc' with hold | hnew
      · exact lt_of_lt_of_le (h.below c' hold e he) hle
      · rw [List.mem_singleton.mp hnew] at he
        exact hfresh.toNat_lt (List.mem_map_of_mem he)
    · rw [hrecorded]
      rcases List.mem_append.mp hc' with hold | hnew
      · rw [Distances.find?_recordAll_of_notMem _ fun hmem =>
          absurd (h.below c' hold e he) (Nat.not_lt.mpr (hids.le_toNat hround hmem))]
        exact h.own c' hold e he k
      · rw [List.mem_singleton.mp hnew] at he ⊢
        refine Distances.find?_recordAll_iff
          (hids.nodup (le_trans hround (Nat.le_add_left _ _))) ?_ k
        exact h.ahead e.id (hfresh.le_toNat hround (List.mem_map_of_mem he))
    · rw [hrecorded, Distances.find?_recordAll_of_notMem _ fun hmem =>
        absurd (hids.toNat_lt hmem) (Nat.not_lt.mpr hid)]
      exact h.ahead id (le_trans hle hid)

/-- All code is part of the trees, and nothing gets recorded. -/
def rules (trees : List Code) (d : Distances) : Rules :=
  (Rules.sound fun e => ∃ c ∈ trees, e ∈ c.nodes).also (fun _ m => m.distances = d)
    (fun _ _ _ _ hc hd => hc.distances.trans hd) (fun _ _ _ hd => hd)

theorem stepKeeps (hs : s.machine.Sound fun e => ∃ c ∈ trees, e ∈ c.nodes) (step : Step)
    (fuel : Nat) (past : List Moment) :
    s.StepKeeps (rules (trees ++ (step.code? s.made).toList)
      (s.machine.resolved (step.findings s.made)).distances).invariant past fuel step := by
  have hsound : s.machine.Sound fun e => ∃ c ∈ trees ++ (step.code? s.made).toList, e ∈ c.nodes :=
    hs.mono fun e ⟨c, hc, he⟩ => ⟨c, List.mem_append_left _ hc, he⟩
  refine Session.stepKeeps fuel ⟨hsound.resolved _, rfl⟩ fun c hc _ => ⟨hs.current, ?_⟩
  exact fun e he => ⟨c, List.mem_append_right _ (Option.mem_toList.mpr hc), he⟩

/-- All code that is at work at some moment is part of a tree that was read, and for its nodes the
distances found in that tree are recorded. -/
theorem moments (h : s.Records trees)
    (hs : s.machine.Sound fun e => ∃ c ∈ trees, e ∈ c.nodes) (history : History)
    (hround : history.madeAfter s.made ≤ UInt32.size) :
    ∀ x ∈ s.moments history, ∀ e ∈ x.task.nodes,
      ∃ c ∈ trees ++ treesFrom s.made (history.map fun entry => entry.2.reading),
        e ∈ c.nodes ∧ x.machine.distances.Own c := by
  generalize hall : trees ++ treesFrom s.made (history.map fun entry => entry.2.reading) = all
  have halong : EachAfter (fun _ x => ∀ e ∈ x.task.nodes,
      ∃ c ∈ all, e ∈ c.nodes ∧ x.machine.distances.Own c) [] (s.moments history) := by
    refine (along_history (R := fun _ => True) (P := fun _ s ahead => ∃ trees, s.Records trees ∧
      (s.machine.Sound fun e => ∃ c ∈ trees, e ∈ c.nodes) ∧
      trees ++ treesFrom s.made (ahead.map fun entry => entry.2.reading) ⊆ all ∧
      ahead.madeAfter s.made ≤ UInt32.size) (fun hP => ⟨List.forall_mem_nil _, hP⟩) ?_ history
      ⟨trees, h, hs, hall ▸ List.Subset.refl _, hround⟩).1
    rintro past s fuel step rest ⟨trees, h, hs, hall, hround⟩
    have hnow : step.madeAfter s.made ≤ UInt32.size := le_trans (History.le_madeAfter rest _) hround
    have hkeeps := stepKeeps hs step fuel past
    -- The tree of a step is among those that are read, whether or not there are mistakes.
    have hread : (step.code? s.made).toList ⊆ (step.reading.code? s.made).toList := fun c hc =>
      Option.mem_toList.mpr (Step.reading_of_code? (Option.mem_toList.mp hc))
    rw [List.map_cons, treesFrom, ← List.append_assoc, ← Step.madeAfter_eq] at hall
    have htrees : trees ++ (step.code? s.made).toList ⊆ all := fun c hc =>
      hall (List.mem_append_left _ (List.mem_append.mpr ((List.mem_append.mp hc).imp_right
        fun hnew => hread hnew)))
    refine ⟨hkeeps.along.mono fun before x hx e he => ?_, fun a next hperform => ⟨trivial, ?_⟩⟩
    · obtain ⟨d, scope, hcode, -⟩ := hx.code
      obtain ⟨c, hc, hec⟩ := hcode.2 e he
      have hrecords : Session.Records ⟨x.machine, step.madeAfter s.made⟩ _ :=
        h.resolved hx.shows.2 rfl hnow
      exact ⟨c, htrees hc, hec, hrecords.own c hc⟩
    · obtain ⟨hsound, hdistances⟩ := (hkeeps.ends a next hperform).holds
      have hmade := made_of_perform hperform
      refine ⟨_, h.resolved hdistances hmade (hmade ▸ hnow), hsound, ?_, hmade ▸ hround⟩
      rw [hmade]
      exact List.append_subset.mpr ⟨htrees, fun c hc => hall (List.mem_append_right _ hc)⟩
  intro x hx
  obtain ⟨-, hat⟩ := halong.at_mem hx
  exact hat

end Session.Records

theorem Session.records_new (readings : Nat → Option Number) (brokenOutput : Bool) :
    (Session.new readings brokenOutput).Records [] where
  below := List.forall_mem_nil _
  own := List.forall_mem_nil _
  ahead id _ := Distances.find?_empty id

/-- Of all trees that are ever read, from any tokens and in any order, no two nodes have the same
identity, as long as no more than `UInt32.size` nodes have been made. Recording the findings on a
later tree then leaves the nodes of the earlier ones alone. And whenever a session is at work on a
node, the node belongs to one of the trees that it has read, and the distance recorded for it is the
one found there. -/
theorem nodes_keep_their_identities :
    (∀ (made : Nat) (rs : List Reading), madeAfterAll made rs ≤ made + UInt32.size →
      (idsOfTrees (treesFrom made rs)).Nodup ∧
        (treesFrom made rs).Pairwise fun earlier later => ∀ e ∈ earlier.nodes, ∀ d : Distances,
          (d.recordAll later.findings).find? e.id = d.find? e.id) ∧
      ∀ (readings : Nat → Option Number) (brokenOutput : Bool) (history : History),
        history.madeAfter 0 ≤ UInt32.size →
        ∀ x ∈ (Session.new readings brokenOutput).moments history, ∀ e ∈ x.task.nodes,
          ∃ tree ∈ treesFrom 0 (history.map fun entry => entry.2.reading),
            e ∈ tree.nodes ∧ ∀ k, x.machine.distances.find? e.id = some k ↔
              .distance e.id k ∈ tree.findings := by
  refine ⟨fun made rs hround => ?_, fun readings brokenOutput history hround x hx e he => ?_⟩
  · have hnodup := (fresh_treesFrom made rs).1.nodup hround
    exact ⟨hnodup, pairwise_recordAll hnodup⟩
  · obtain ⟨tree, htree, hmem, hown⟩ := (Session.records_new readings brokenOutput).moments
      (Machine.sound_new readings brokenOutput) history hround x hx e he
    exact ⟨tree, htree, hmem, hown e hmem⟩

/-- A source with mistakes, of which parts are kept and parts are dropped, a function, and a call of
it. -/
def mixedHistory : History :=
  [(40, .run "(x) = y; var z = 1 +;"), (40, .run "fun f(a) \x7b return a; \x7d"),
    (40, .evaluate "f(2)")]

/-- The evaluator is at work on a variable with the identity `id`. -/
def Moment.isAtVariable (x : Moment) (id : NodeId) : Bool :=
  match x.task with
  | .expr (.var i _) => i == id
  | _ => false

theorem Moment.task_of_isAtVariable {x : Moment} {id : NodeId} (h : x.isAtVariable id = true) :
    ∃ name, x.task = .expr (.var id name) := by
  unfold isAtVariable at h
  split at h
  · rename_i i name htask
    exact ⟨name, beq_iff_eq.mp h ▸ htask⟩
  · cases h

/-- The call reaches the variable in the body of the function, with the distance from there. -/
theorem called_body_keeps_its_identities :
    idsOfTrees (treesFrom 0 (mixedHistory.map fun entry => entry.2.reading)) = [0, 1, 4, 5, 6, 7] ∧
      (idsOfTrees (treesFrom 0 (mixedHistory.map fun entry => entry.2.reading))).Nodup ∧
      ∃ x ∈ (Session.new (Clock.readingsFrom 0) false).moments mixedHistory, ∃ name,
        x.task = .expr (.var 4 name) ∧
          ∃ tree ∈ treesFrom 0 (mixedHistory.map fun entry => entry.2.reading),
            .var 4 name ∈ tree.nodes ∧ .distance 4 0 ∈ tree.findings := by
  have hround : madeAfterAll 0 (mixedHistory.map fun entry => entry.2.reading) ≤
      0 + UInt32.size := by
    decide +kernel
  have hany : ((Session.new (Clock.readingsFrom 0) false).moments mixedHistory).any
      (fun x => x.isAtVariable 4 && x.machine.distances.find? 4 == some 0) = true := by
    decide +kernel
  obtain ⟨x, hx, hat⟩ := List.any_eq_true.mp hany
  rw [Bool.and_eq_true, beq_iff_eq] at hat
  obtain ⟨name, htask⟩ := Moment.task_of_isAtVariable hat.1
  have hmem : .var 4 name ∈ x.task.nodes := by
    rw [htask]
    exact Expr.mem_nodes_self _
  obtain ⟨tree, htree, hnode, hown⟩ :=
    nodes_keep_their_identities.2 (Clock.readingsFrom 0) false mixedHistory (by decide +kernel) x hx
      _ hmem
  refine ⟨by decide +kernel, (nodes_keep_their_identities.1 0 _ hround).1, x, hx, name, htask,
    tree, htree, hnode, (hown 0).mp hat.2⟩

end Lox
