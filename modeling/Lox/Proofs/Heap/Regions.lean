import Lox.Proofs.Heap.References

/-!
# Regions of the heap

A region is a part of the heap, given by the handles that lead into it. It is closed (`Heap.Closed`)
if nothing in it points out of it. What does not exist yet counts as part of every closed region, so
that whatever is created later is created inside.

`Heap.reached` is the least closed region around some handles: what can be reached from them. A walk
that starts in a closed region never leaves it, and a change inside it that brings in nothing from
outside keeps it closed and spares all that lies outside (`Heap.Spares`).
-/

namespace Lox

theorem Table.mem_entries {α : Type} {t : Table α} {x : String} {a : α} (h : t.find? x = some a) :
    (x, a) ∈ t.entries := by
  obtain ⟨entries⟩ := t
  induction entries with
  | nil => cases h
  | cons entry rest ih =>
    obtain ⟨key, b⟩ := entry
    unfold Table.find? Table.findEntry? at h
    split_ifs at h with hkey
    · cases h
      exact hkey ▸ List.mem_cons_self
    · exact List.mem_cons_of_mem _ (ih h)

/-- A part of the heap, by the handles that lead into it. -/
abbrev Region := Ref → Prop

namespace Region

variable {S : Region} {refs refs' : List Ref} {v : Value}

def All (S : Region) (refs : List Ref) : Prop := ∀ r ∈ refs, S r

/-- All values in a table lie in the region. -/
def Values (S : Region) (values : Table Value) : Prop :=
  ∀ x v, values.find? x = some v → S.All v.refs

theorem all_append : S.All (refs ++ refs') ↔ S.All refs ∧ S.All refs' :=
  List.forall_mem_append

theorem All.subset (h : S.All refs) (hsub : refs' ⊆ refs) : S.All refs' :=
  fun r hr => h r (hsub hr)

theorem values_empty (S : Region) : S.Values {} := by
  intro x v hv
  rw [Table.find?_empty] at hv
  cases hv

theorem values_singleton {x : String} (hv : S.All v.refs) : S.Values (.singleton x v) := by
  intro y w hw
  rw [Table.find?_singleton] at hw
  split_ifs at hw
  cases hw
  exact hv

theorem Values.insert {values : Table Value} (hvs : S.Values values) (hv : S.All v.refs)
    (x : String) : S.Values (values.insert x v) := by
  intro y w hw
  rw [Table.find?_insert] at hw
  split_ifs at hw
  · cases hw
    exact hv
  · exact hvs y w hw

end Region

namespace Heap

variable {S : Region} {h h' h'' : Heap} {globals : ScopeId}

/-- Nothing in the region points out of it, and all that does not exist belongs to it. -/
structure Closed (S : Region) (h : Heap) : Prop where
  fresh : ∀ r, ¬ h.Has r → S r
  enclosing : ∀ s outer, S (.scope s) → (h.scope s).enclosing = some outer → S (.scope outer)
  values : ∀ s, S (.scope s) → S.Values (h.scope s).values
  functions : ∀ f, h.Has (.function f) → S (.function f) → S (.scope (h.function f).closure)
  parents : ∀ c parent, S (.cls c) → (h.cls c).superclass = some parent → S (.cls parent)
  methods : ∀ c x f, S (.cls c) → (h.cls c).methods.find? x = some f → S (.scope f.closure)
  classes : ∀ i, h.Has (.inst i) → S (.inst i) → S (.cls (h.inst i).cls)
  fields : ∀ i, S (.inst i) → S.Values (h.inst i).fields

/-- The part of a region that exists. -/
def within (h : Heap) (S : Region) : Region := fun r => h.Has r ∧ S r

theorem Kept.within (hk : h.Kept h') {r : Ref} (hr : h.within S r) : h'.within S r :=
  ⟨hk r hr.1, hr.2⟩

/-- What holds of a heap while the evaluator is at work inside a region. -/
structure Confined (S : Region) (globals : ScopeId) (h : Heap) : Prop where
  sound : h.Sound (fun _ => True) globals
  closed : h.Closed S

/-- What a change inside a region does: all that lies outside is as before. -/
structure Spares (S : Region) (globals : ScopeId) (h h' : Heap) : Prop where
  confined : h'.Confined S globals
  kept : h.Kept h'
  scopes : ∀ s, ¬ S (.scope s) → h'.scope s = h.scope s
  instances : ∀ i, ¬ S (.inst i) → h'.inst i = h.inst i

theorem Confined.spares (hc : h.Confined S globals) : h.Spares S globals h :=
  ⟨hc, .refl h, fun _ _ => rfl, fun _ _ => rfl⟩

theorem Spares.trans (hs : h.Spares S globals h') (hs' : h'.Spares S globals h'') :
    h.Spares S globals h'' where
  confined := hs'.confined
  kept := hs.kept.trans hs'.kept
  scopes s hout := (hs'.scopes s hout).trans (hs.scopes s hout)
  instances i hout := (hs'.instances i hout).trans (hs.instances i hout)

/-! ### What can be reached -/

/-- What can be reached from some handles, and what does not exist. -/
def reached (h : Heap) (roots : List Ref) : Region :=
  fun r => (∃ root ∈ roots, h.Reaches root r) ∨ ¬ h.Has r

theorem reached_points {roots : List Ref} {r r' : Ref} (hr : h.reached roots r)
    (hhas : h.Has r) (hp : h.Points r r') : h.reached roots r' := by
  rcases hr with ⟨root, hroot, hreach⟩ | hnot
  · exact .inl ⟨root, hroot, hreach.tail hp⟩
  · exact absurd hhas hnot

theorem has_of_superclass {c parent : ClassId} (hp : (h.cls c).superclass = some parent) :
    h.Has (.cls c) := by
  by_contra hnot
  have hdefault : h.cls c = default := by simp [cls, Nat.le_of_not_lt hnot]
  rw [hdefault] at hp
  cases hp

theorem has_of_method {c : ClassId} {x : String} {f : Function}
    (hf : (h.cls c).methods.find? x = some f) : h.Has (.cls c) := by
  by_contra hnot
  have hdefault : h.cls c = default := by simp [cls, Nat.le_of_not_lt hnot]
  rw [hdefault] at hf
  cases hf

theorem has_of_field {i : InstanceId} {x : String} {v : Value}
    (hv : (h.inst i).fields.find? x = some v) : h.Has (.inst i) := by
  by_contra hnot
  have hdefault : h.inst i = default := by simp [inst, Nat.le_of_not_lt hnot]
  rw [hdefault] at hv
  cases hv

theorem closed_reached (h : Heap) (roots : List Ref) : h.Closed (h.reached roots) where
  fresh _ hr := .inr hr
  enclosing _ _ hs ho := reached_points hs (lt_size_of_enclosing h ho) (.enclosing ho)
  values _ hs _ v hv _ hr :=
    reached_points hs (lt_size_of_getLocal? h (Option.isSome_iff_exists.mpr ⟨v, hv⟩)) (.value hv hr)
  functions f hhas hf := reached_points hf hhas (.closure f)
  parents _ _ hc hp := reached_points hc (has_of_superclass hp) (.superclass hp)
  methods _ _ _ hc hf := reached_points hc (has_of_method hf) (.method hf)
  classes i hhas hi := reached_points hi hhas (.cls i)
  fields _ hi _ _ hv _ hr := reached_points hi (has_of_field hv) (.field hv hr)

/-- What something in the heap refers to, as a list. -/
def targets (h : Heap) : Ref → List Ref
  | .scope s => (h.scope s).enclosing.toList.map .scope ++
    (h.scope s).values.entries.flatMap fun entry => entry.2.refs
  | .function f => [.scope (h.function f).closure]
  | .cls c => (h.cls c).superclass.toList.map .cls ++
    (h.cls c).methods.entries.map fun entry => .scope entry.2.closure
  | .inst i => .cls (h.inst i).cls :: (h.inst i).fields.entries.flatMap fun entry => entry.2.refs

theorem mem_targets {r r' : Ref} (hp : h.Points r r') : r' ∈ h.targets r := by
  cases hp with
  | enclosing ho => simp [targets, ho]
  | value hv hmem =>
    exact List.mem_append_right _ (List.mem_flatMap.mpr ⟨_, Table.mem_entries hv, hmem⟩)
  | closure f => exact List.mem_singleton_self _
  | superclass hp => simp [targets, hp]
  | method hf =>
    exact List.mem_append_right _ (List.mem_map.mpr ⟨_, Table.mem_entries hf, rfl⟩)
  | cls i => exact List.mem_cons_self
  | field hv hmem =>
    exact List.mem_cons_of_mem _ (List.mem_flatMap.mpr ⟨_, Table.mem_entries hv, hmem⟩)

/-- A list of handles that lead to nothing outside the list. -/
def isClosed (h : Heap) (refs : List Ref) : Bool :=
  refs.all fun r => (h.targets r).all (· ∈ refs)

theorem mem_of_reaches {refs : List Ref} (hclosed : h.isClosed refs = true) {root r : Ref}
    (hroot : root ∈ refs) (hreach : h.Reaches root r) : r ∈ refs := by
  induction hreach with
  | refl => exact hroot
  | @tail r r' _ hp ih =>
    have htargets := List.all_eq_true.mp hclosed r ih
    exact of_decide_eq_true (List.all_eq_true.mp htargets r' (mem_targets hp))

/-! ### Looks -/

namespace Confined

variable {s s' : ScopeId} {x : String} {v : Value}

theorem points (hc : h.Confined S globals) {r r' : Ref} (hr : h.within S r) (hp : h.Points r r') :
    h.within S r' := by
  refine ⟨hc.sound.has_of_points hr.1 hp, ?_⟩
  cases hp with
  | enclosing ho => exact hc.closed.enclosing _ _ hr.2 ho
  | value hv hmem => exact hc.closed.values _ hr.2 _ _ hv _ hmem
  | closure f => exact hc.closed.functions f hr.1 hr.2
  | superclass hp => exact hc.closed.parents _ _ hr.2 hp
  | method hf => exact hc.closed.methods _ _ _ hr.2 hf
  | cls i => exact hc.closed.classes i hr.1 hr.2
  | field hv hmem => exact hc.closed.fields _ hr.2 _ _ hv _ hmem

theorem getLocal? (hc : h.Confined S globals) (hs : h.within S (.scope s))
    (hv : h.getLocal? s x = some v) : (h.within S).All v.refs :=
  fun _ hr => hc.points hs (.value hv hr)

theorem ancestor? (hc : h.Confined S globals) {k : Nat} (hs : h.within S (.scope s))
    (ha : h.ancestor? s k = some s') : h.within S (.scope s') := by
  induction k generalizing s with
  | zero =>
    rw [Heap.ancestor?, Option.some.injEq] at ha
    exact ha ▸ hs
  | succ k ih =>
    rw [Heap.ancestor?] at ha
    split at ha
    · rename_i outer ho
      exact ih (hc.points hs (.enclosing ho)) ha
    · cases ha

theorem findMethod? (hc : h.Confined S globals) {c : ClassId} {f : Function}
    (hcls : h.within S (.cls c)) (hf : h.findMethod? c x = some f) :
    h.within S (.scope f.closure) := by
  fun_induction Heap.findMethod? h c x with
  | case1 c g hg =>
    cases hf
    exact hc.points hcls (.method hg)
  | case2 c hnone parent hparent hlt ih => exact ih (hc.points hcls (.superclass hparent)) hf
  | case3 => cases hf
  | case4 => cases hf

/-! ### Changes -/

theorem newScope (hc : h.Confined S globals) {outer : ScopeId} {values : Table Value}
    (houter : h.within S (.scope outer)) (hvalues : (h.within S).Values values) :
    h.Spares S globals (h.newScope ⟨values, some outer⟩).2 := by
  have hk := kept_newScope (h := h) ⟨values, some outer⟩
  have hnew : S (.scope h.scopes.size) := hc.closed.fresh _ (Nat.lt_irrefl _)
  refine ⟨⟨hc.sound.newScope houter.1 fun x v hv r hr => (hvalues x v hv r hr).1,
    { hc.closed with
      fresh := fun r hr => hc.closed.fresh r fun hold => hr (hk r hold)
      enclosing := ?_
      values := ?_ }⟩, hk, fun s hout => ?_, fun _ _ => rfl⟩
  · intro s o hs ho
    rw [scope_newScope] at ho
    split_ifs at ho
    · cases ho
      exact houter.2
    · exact hc.closed.enclosing s o hs ho
  · intro s hs
    rw [scope_newScope]
    split_ifs
    · exact fun x v hv r hr => (hvalues x v hv r hr).2
    · exact hc.closed.values s hs
  · rw [scope_newScope, if_neg]
    rintro rfl
    exact hout hnew

theorem define (hc : h.Confined S globals) (hs : h.within S (.scope s)) (x : String)
    (hv : (h.within S).All v.refs) : h.Spares S globals (h.define s x v) := by
  have hk := kept_define (h := h) s x v
  refine ⟨⟨hc.sound.define s x fun r hr => (hv r hr).1,
    { hc.closed with
      fresh := fun r hr => hc.closed.fresh r fun hold => hr (hk r hold)
      enclosing := ?_
      values := ?_ }⟩, hk, fun s' hout => ?_, fun _ _ => rfl⟩
  · intro s' o hs' ho
    rw [enclosing_define] at ho
    exact hc.closed.enclosing s' o hs' ho
  · intro s' hs'
    rw [scope_define]
    split_ifs
    · exact (hc.closed.values s' hs').insert (fun r hr => (hv r hr).2) x
    · exact hc.closed.values s' hs'
  · rw [scope_define, if_neg]
    rintro ⟨rfl, -⟩
    exact hout hs.2

theorem newFunction (hc : h.Confined S globals) {f : Function}
    (hclosure : h.within S (.scope f.closure)) : h.Spares S globals (h.newFunction f).2 := by
  have hk := kept_newFunction (h := h) f
  refine ⟨⟨hc.sound.newFunction ⟨hclosure.1, fun _ _ => trivial⟩,
    { hc.closed with
      fresh := fun r hr => hc.closed.fresh r fun hold => hr (hk r hold)
      functions := ?_ }⟩, hk, fun _ _ => rfl, fun _ _ => rfl⟩
  intro g hg hS
  rw [function_newFunction]
  by_cases hnew : g = h.functions.size
  · rw [if_pos hnew]
    exact hclosure.2
  · rw [if_neg hnew]
    exact hc.closed.functions g ((has_newFunction.mp hg).resolve_right hnew) hS

theorem newClass (hc : h.Confined S globals) {c : Class}
    (hparent : ∀ parent, c.superclass = some parent → h.within S (.cls parent))
    (hmethods : ∀ x f, c.methods.find? x = some f → h.within S (.scope f.closure)) :
    h.Spares S globals (h.newClass c).2 := by
  have hk := kept_newClass (h := h) c
  refine ⟨⟨hc.sound.newClass (fun parent hp => (hparent parent hp).1)
      fun x f hf => ⟨(hmethods x f hf).1, fun _ _ => trivial⟩,
    { hc.closed with
      fresh := fun r hr => hc.closed.fresh r fun hold => hr (hk r hold)
      parents := ?_
      methods := ?_ }⟩, hk, fun _ _ => rfl, fun _ _ => rfl⟩
  · intro id parent hid hp
    rw [cls_newClass] at hp
    split_ifs at hp
    · exact (hparent parent hp).2
    · exact hc.closed.parents id parent hid hp
  · intro id x f hid hf
    rw [cls_newClass] at hf
    split_ifs at hf
    · exact (hmethods x f hf).2
    · exact hc.closed.methods id x f hid hf

theorem newInstance (hc : h.Confined S globals) {c : ClassId} (hcls : h.within S (.cls c)) :
    h.Spares S globals (h.newInstance ⟨c, {}⟩).2 := by
  have hk := kept_newInstance (h := h) ⟨c, {}⟩
  have hnew : S (.inst h.instances.size) := hc.closed.fresh _ (Nat.lt_irrefl _)
  refine ⟨⟨hc.sound.newInstance hcls.1,
    { hc.closed with
      fresh := fun r hr => hc.closed.fresh r fun hold => hr (hk r hold)
      classes := ?_
      fields := ?_ }⟩, hk, fun _ _ => rfl, fun i hout => ?_⟩
  · intro i hi hS
    rw [inst_newInstance]
    by_cases hsize : i = h.instances.size
    · rw [if_pos hsize]
      exact hcls.2
    · rw [if_neg hsize]
      exact hc.closed.classes i ((has_newInstance.mp hi).resolve_right hsize) hS
  · intro i hS
    rw [inst_newInstance]
    split_ifs
    · exact S.values_empty
    · exact hc.closed.fields i hS
  · rw [inst_newInstance, if_neg]
    rintro rfl
    exact hout hnew

theorem setField (hc : h.Confined S globals) {i : InstanceId} (hi : h.within S (.inst i))
    (x : String) (hv : (h.within S).All v.refs) : h.Spares S globals (h.setField i x v) := by
  have hk := kept_setField (h := h) i x v
  refine ⟨⟨hc.sound.setField i x fun r hr => (hv r hr).1,
    { hc.closed with
      fresh := fun r hr => hc.closed.fresh r fun hold => hr (hk r hold)
      classes := ?_
      fields := ?_ }⟩, hk, fun _ _ => rfl, fun j hout => ?_⟩
  · intro j hj hS
    rw [Has, size_setField] at hj
    have hcls : ((h.setField i x v).inst j).cls = (h.inst j).cls := by
      rw [inst_setField]
      split_ifs <;> rfl
    rw [hcls]
    exact hc.closed.classes j hj hS
  · intro j hS
    rw [inst_setField]
    split_ifs
    · exact (hc.closed.fields j hS).insert (fun r hr => (hv r hr).2) x
    · exact hc.closed.fields j hS
  · rw [inst_setField, if_neg]
    rintro ⟨rfl, -⟩
    exact hout hi.2

end Confined

end Heap

end Lox
