import Lox.Proofs.Evaluation.Soundness

/-!
# Accesses to properties

`accesses` lists what a run does with properties: each class that it declares, each instance that it
creates, each assignment to a property and each access to one, in the order of the run. They are
read off the moments of the run.

`Heap.Told past h` says that a heap has the classes, the instances and the fields that the accesses
`past` have put there, and no others. It is an invariant (`Rules.told`): it holds at every
moment of a run, and whenever a property is read or written, of the accesses up to then.
-/

namespace Lox

/-- The method with a name. Of several the last one counts. -/
def Declaration.method? (d : Declaration) (name : String) : Option FunDecl :=
  (d.methods.filter fun f => f.name.lexeme = name).getLast?

/-- What a run does with classes, instances and their properties. -/
inductive Access where
  /-- A class has been declared. -/
  | declared (c : ClassId) (d : Declaration)
  /-- An instance of a class has been created. -/
  | created (o : InstanceId) (c : ClassId)
  /-- A property has been assigned to, and this has changed the machine. -/
  | wrote (o : InstanceId) (name : String) (v : Value) (before after : Machine)
  /-- A property has been read on a machine, with some outcome. -/
  | read (o : InstanceId) (name : Token) (before : Machine) (outcome : Outcome Value)

/-- The access of a moment, if it is one. -/
def Moment.access? (x : Moment) : Option Access :=
  match x.act with
  | .declares c d => some (.declared c d)
  | .creates o c => some (.created o c)
  | .writes o name v before => some (.wrote o name v before x.machine)
  | .reads o name => some (.read o name x.machine (Eval.getProperty (.inst o) name x.machine))
  | _ => none

/-- The accesses among some moments. -/
def accessesAmong (xs : List Moment) : List Access := xs.filterMap Moment.access?

/-- The accesses of a task with some fuel. -/
def accesses (n : Nat) (t : Task) (m : Machine) : List Access :=
  accessesAmong (moments n t [] m)

theorem accessesAmong_append (xs ys : List Moment) :
    accessesAmong (xs ++ ys) = accessesAmong xs ++ accessesAmong ys :=
  List.filterMap_append ..

theorem accessesAmong_concat (xs : List Moment) (x : Moment) :
    accessesAmong (xs ++ [x]) = accessesAmong xs ++ x.access?.toList := by
  rw [accessesAmong_append]
  cases hx : x.access? <;> simp [accessesAmong, hx]

/-! ### What accesses tell of a heap -/

namespace Access

def declaration? : Access → Option (ClassId × Declaration)
  | .declared c d => some (c, d)
  | _ => none

def creation? : Access → Option (InstanceId × ClassId)
  | .created o c => some (o, c)
  | _ => none

/-- The value that is assigned to a property of an instance. -/
def value? (o : InstanceId) (name : String) : Access → Option Value
  | .wrote o' name' v _ _ => if o' = o ∧ name' = name then some v else none
  | _ => none

end Access

/-- The value most recently assigned to a property of an instance. -/
def lastWrite? (past : List Access) (o : InstanceId) (name : String) : Option Value :=
  (past.filterMap (Access.value? o name)).getLast?

theorem lastWrite?_concat (past : List Access) (x : Access) (o : InstanceId) (name : String) :
    lastWrite? (past ++ [x]) o name = (x.value? o name).or (lastWrite? past o name) := by
  rw [lastWrite?, List.filterMap_append, List.getLast?_append]
  cases hx : x.value? o name <;> simp [hx, lastWrite?]

/-- The classes, the instances and the fields of a heap are those that the accesses have put
there. -/
structure Heap.Told (past : List Access) (h : Heap) : Prop where
  classes : (past.filterMap Access.declaration?).map Prod.fst = List.range h.classes.size
  methods : ∀ c d, .declared c d ∈ past → (h.cls c).superclass = d.parent ∧
    (h.cls c).methods = Eval.methodTable d.closure d.methods
  instances : past.filterMap Access.creation? =
    (List.range h.instances.size).map fun o => (o, (h.inst o).cls)
  fields : ∀ o name, (h.inst o).fields.find? name = lastWrite? past o name

namespace Heap.Told

variable {past : List Access} {h h' : Heap}

theorem has_cls (ht : h.Told past) {c : ClassId} {d : Declaration} (hd : .declared c d ∈ past) :
    h.Has (.cls c) := by
  have hmem : c ∈ (past.filterMap Access.declaration?).map Prod.fst :=
    List.mem_map.mpr ⟨(c, d), List.mem_filterMap.mpr ⟨_, hd, rfl⟩, rfl⟩
  rw [ht.classes] at hmem
  exact List.mem_range.mp hmem

theorem has_inst (ht : h.Told past) {o : InstanceId} {c : ClassId} (hc : .created o c ∈ past) :
    h.Has (.inst o) := by
  have hmem : (o, c) ∈ past.filterMap Access.creation? := List.mem_filterMap.mpr ⟨_, hc, rfl⟩
  rw [ht.instances] at hmem
  obtain ⟨o', ho', heq⟩ := List.mem_map.mp hmem
  cases heq
  exact List.mem_range.mp ho'

theorem of_same (ht : h.Told past) (hclasses : h'.classes = h.classes)
    (hinstances : h'.instances = h.instances) : h'.Told past where
  classes := by rw [hclasses, ht.classes]
  methods := by
    simp only [Heap.cls, hclasses]
    exact ht.methods
  instances := by
    simp only [Heap.inst, hinstances]
    exact ht.instances
  fields := by
    simp only [Heap.inst, hinstances]
    exact ht.fields

theorem read (ht : h.Told past) (o : InstanceId) (name : Token) (m : Machine)
    (outcome : Outcome Value) : h.Told (past ++ [.read o name m outcome]) where
  classes := by simp [Access.declaration?, ht.classes]
  methods c d hd := ht.methods c d (by simpa using hd)
  instances := by simp [Access.creation?, ht.instances]
  fields o name := by
    rw [ht.fields, lastWrite?_concat]
    rfl

theorem write (ht : h.Told past) {o : InstanceId} (ho : h.Has (.inst o)) (name : String)
    (v : Value) (m m' : Machine) :
    (h.setField o name v).Told (past ++ [.wrote o name v m m']) where
  classes := by simp [Access.declaration?, ht.classes, setField]
  methods c d hd := ht.methods c d (by simpa using hd)
  instances := by
    have hcls : ∀ o', ((h.setField o name v).inst o').cls = (h.inst o').cls := by
      intro o'
      rw [inst_setField]
      split <;> rfl
    simp [Access.creation?, ht.instances, hcls]
  fields o' name' := by
    rw [lastWrite?_concat, Access.value?, inst_setField]
    by_cases hsame : o' = o
    · subst hsame
      rw [if_pos ⟨rfl, ho⟩, Table.find?_insert, ht.fields]
      by_cases hname : name = name' <;> simp [hname]
    · rw [if_neg fun hand => hsame hand.1, if_neg fun hand => hsame hand.1.symm, ht.fields]
      rfl

theorem create (ht : h.Told past) (c : ClassId) :
    (h.newInstance ⟨c, {}⟩).2.Told (past ++ [.created h.instances.size c]) where
  classes := by simp [Access.declaration?, ht.classes, newInstance]
  methods c d hd := ht.methods c d (by simpa using hd)
  instances := by
    have hsize : (h.newInstance ⟨c, {}⟩).2.instances.size = h.instances.size + 1 :=
      Array.size_push _
    rw [hsize, List.range_succ, List.map_append, List.filterMap_append, ht.instances]
    refine congrArg₂ _ (List.map_congr_left fun o ho => ?_) ?_
    · rw [inst_newInstance, if_neg (Nat.ne_of_lt (List.mem_range.mp ho))]
    · simp [Access.creation?, inst_newInstance]
  fields o name := by
    rw [lastWrite?_concat, inst_newInstance, ← ht.fields]
    split_ifs with ho
    · subst ho
      simp only [Heap.inst, Array.getD_eq_getD_getElem?, Array.getElem?_eq_none (le_refl _)]
      rfl
    · rfl

theorem declare (ht : h.Told past) (d : Declaration) :
    (h.newClass ⟨d.name.lexeme, d.parent, Eval.methodTable d.closure d.methods⟩).2.Told
      (past ++ [.declared h.classes.size d]) where
  classes := by
    have hsize : (h.newClass ⟨d.name.lexeme, d.parent, Eval.methodTable d.closure
        d.methods⟩).2.classes.size = h.classes.size + 1 := Array.size_push _
    rw [hsize, List.range_succ, List.filterMap_append, List.map_append, ht.classes]
    rfl
  methods c d' hd := by
    rw [cls_newClass]
    rcases List.mem_append.mp hd with hd | hd
    · rw [if_neg (Nat.ne_of_lt (ht.has_cls hd))]
      exact ht.methods c d' hd
    · cases List.mem_singleton.mp hd
      rw [if_pos rfl]
      exact ⟨rfl, rfl⟩
  instances := by
    rw [List.filterMap_append, ht.instances]
    exact List.append_nil _
  fields o name := by
    rw [lastWrite?_concat]
    exact ht.fields o name

end Heap.Told

/-! ### Accesses that fit -/

/-- Handles are new when classes are declared and instances created. When a property is assigned to
or read, the heap is what the accesses before tell, and the instance exists. -/
def Access.Fits (past : List Access) : Access → Prop
  | .declared c _ => ∀ d, .declared c d ∉ past
  | .created o _ => ∀ c, .created o c ∉ past
  | .wrote o name v before after => before.heap.Told past ∧ before.heap.Has (.inst o) ∧
      after = { before with heap := before.heap.setField o name v }
  | .read o name before outcome => before.heap.Told past ∧ before.heap.Has (.inst o) ∧
      before.Sound (fun _ => True) ∧ outcome = Eval.getProperty (.inst o) name before

/-! ### Runs -/

variable {past : List Access}

/-- A change of a machine tells its access, which fits those before. -/
theorem Change.told {xs : List Moment} {m next : Machine} {t : Task} {act : Act}
    {needs gives : List Fact} (hc : Change xs m t act needs next gives) (held : List Ref)
    (hm : m.Sound fun _ => True)
    (hneeds : ∀ need ∈ needs, need.Sound (fun _ => True) m.heap) (ht : m.heap.Told past) :
    next.heap.Told (past ++ (Moment.access? ⟨act, t, held, next⟩).toList) ∧
      EachAfter Access.Fits past (Moment.access? ⟨act, t, held, next⟩).toList := by
  cases hc with
  | reads _ o name =>
    exact ⟨ht.read o name m _, ⟨ht, hneeds _ List.mem_cons_self, hm, rfl⟩, trivial⟩
  | writes _ o x v =>
    have ho := hneeds _ List.mem_cons_self
    exact ⟨ht.write ho x v m _, ⟨ht, ho, rfl⟩, trivial⟩
  | creates _ c =>
    refine ⟨ht.create c, fun c' hc' => ?_, trivial⟩
    exact absurd (ht.has_inst hc') (lt_irrefl m.heap.instances.size)
  | declares _ d =>
    refine ⟨ht.declare d, fun d' hd' => ?_, trivial⟩
    exact absurd (ht.has_cls hd') (lt_irrefl m.heap.classes.size)
  | _ => exact ⟨(List.append_nil past).symm ▸ ht.of_same rfl rfl, trivial⟩

/-- The accesses so far fit and tell the heap. -/
def Rules.told : Rules :=
  (sound fun _ => True).also
    (fun past m =>
      m.heap.Told (accessesAmong past) ∧ EachAfter Access.Fits [] (accessesAmong past))
    (fun {past _ _ _ _ _ _} held hm _ hneeds hc hpast => by
      obtain ⟨htold, hfits⟩ := hc.told held hm hneeds hpast.1
      rw [accessesAmong_concat]
      exact ⟨htold, eachAfter_append.mpr ⟨hpast.2, hfits⟩⟩)
    (fun _ _ _ hpast => by
      rw [accessesAmong_concat]
      exact ⟨(List.append_nil _).symm ▸ hpast.1, (List.append_nil _).symm ▸ hpast.2⟩)

end Lox
