import Lox.Proofs.Evaluation.Preservation

/-!
# The scopes of calls

A call of a function creates a scope with the arguments under the names of the parameters and runs
the body in it. A moment at which the body of a call is entered shows that scope as the current one
(`Moment.frame?`). These scopes are strictly increasing in the order of the moments
(`Rules.rising`). So each call of a run has a scope of its own, which did not exist before.
-/

namespace Lox

/-- The scope of a call, at the moment at which its body is entered. -/
def Moment.frame? (x : Moment) : Option ScopeId :=
  match x.act, x.task with
  | .enters, .body _ _ _ => some x.machine.current
  | _, _ => none

variable {past : List Moment} {m next : Machine} {t : Task} {act : Act} {needs gives : List Fact}

theorem Change.size_le (hc : Change past m t act needs next gives) :
    m.heap.scopes.size ≤ next.heap.scopes.size := by
  cases hc with
  | define _ v => exact le_of_eq (Heap.size_define _ _ _ v).symm
  | assign _ _ _ v => exact le_of_eq (Heap.size_define _ _ _ v).symm
  | block body => simp [Machine.entering, Heap.newScope]
  | frame f origin vs => simp [Machine.entering, Heap.newScope]
  | receiver _ d f o => simp [Heap.newScope]
  | parent hc => simp [Heap.newScope]
  | _ => exact le_refl _

theorem Change.frame_new (hc : Change past m t act needs next gives) {held : List Ref}
    {f : ScopeId} (hf : f ∈ Moment.frame? ⟨act, t, held, next⟩) :
    m.heap.scopes.size = f ∧ f < next.heap.scopes.size := by
  cases hc with
  | frame g origin vs =>
    cases hf
    exact ⟨rfl, by simp [Machine.entering, Heap.newScope]⟩
  | _ => cases hf

/-- The scopes of calls are in order of creation. -/
def Rules.rising : Rules :=
  anything.also
    (fun past m => (past.filterMap Moment.frame?).Pairwise (· < ·) ∧
      ∀ f ∈ past.filterMap Moment.frame?, f < m.heap.scopes.size)
    (fun {past m t act _ next _} held _ _ _ hc hpast => by
      obtain ⟨hincreasing, hbelow⟩ := hpast
      have hlater : ∀ f ∈ past.filterMap Moment.frame?, f < next.heap.scopes.size :=
        fun f hf => lt_of_lt_of_le (hbelow f hf) hc.size_le
      have hone : [(⟨act, t, held, next⟩ : Moment)].filterMap Moment.frame? =
          (Moment.frame? ⟨act, t, held, next⟩).toList := by
        cases hx : Moment.frame? ⟨act, t, held, next⟩ <;> simp [hx]
      rw [List.filterMap_append, hone]
      refine ⟨List.pairwise_append.mpr ⟨hincreasing, ?_, fun f hf g hg => ?_⟩,
        List.forall_mem_append.mpr ⟨hlater, fun f hf => ?_⟩⟩
      · cases Moment.frame? ⟨act, t, held, next⟩ <;> simp
      · exact (hc.frame_new (Option.mem_toList.mp hg)).1 ▸ hbelow f hf
      · exact (hc.frame_new (Option.mem_toList.mp hf)).2)
    (fun _ _ _ hpast => by
      rw [List.filterMap_append]
      exact (List.append_nil _).symm ▸ hpast)

end Lox
