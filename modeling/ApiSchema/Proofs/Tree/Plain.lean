import ApiSchema.Tree

/-! Types without what their equality ignores: places, and the names that the analysis gives. -/

namespace ApiSchema

def Note.plain (n : Note) : Note := ⟨n.content, {}⟩

mutual

def TypeTree.plain : TypeTree → TypeTree
  | .primitive kind _ => .primitive kind {}
  | .optional base _ => .optional base.plain {}
  | .array base _ => .array base.plain {}
  | .reference name _ => .reference name {}
  | .struct _ members fields _ => .struct "" (MemberTree.plains members) (FieldTree.plains fields) {}
  | .enum _ values _ => .enum "" (ValueTree.plains values) {}

def FieldTree.plain : FieldTree → FieldTree
  | .mk name type secret notes _ => .mk name type.plain secret (notes.map Note.plain) {}

def MemberTree.plain : MemberTree → MemberTree
  | .field f => .field f.plain
  | .spread name _ _ => .spread name {} {}

def ValueTree.plain : ValueTree → ValueTree
  | .mk text data notes _ => .mk text (ValueTree.plainData data) (notes.map Note.plain) {}

def ValueTree.plainData : Option TypeTree → Option TypeTree
  | none => none
  | some data => some data.plain

def FieldTree.plains : List FieldTree → List FieldTree
  | [] => []
  | f :: fs => f.plain :: FieldTree.plains fs

def MemberTree.plains : List MemberTree → List MemberTree
  | [] => []
  | m :: ms => m.plain :: MemberTree.plains ms

def ValueTree.plains : List ValueTree → List ValueTree
  | [] => []
  | v :: vs => v.plain :: ValueTree.plains vs

end

theorem annotations_eq_iff {notes others : List Note} :
    Note.annotations notes = Note.annotations others ↔
      notes.map Note.plain = others.map Note.plain := by
  induction notes generalizing others with
  | nil => cases others <;> simp [Note.annotations]
  | cons n rest ih =>
    cases others with
    | nil => simp [Note.annotations]
    | cons o others =>
      simp only [Note.annotations, List.map_cons, List.cons.injEq, Note.plain,
        Note.mk.injEq, and_true] at ih ⊢
      rw [ih]

mutual

theorem TypeTree.is_equal_iff (t u : TypeTree) : t.isEqual u = true ↔ t.plain = u.plain := by
  cases t with
  | primitive kind _ => cases u <;> simp [TypeTree.isEqual, TypeTree.plain]
  | reference name _ => cases u <;> simp [TypeTree.isEqual, TypeTree.plain]
  | optional base _ =>
    cases u with
    | optional other _ => simpa [TypeTree.isEqual, TypeTree.plain] using base.is_equal_iff other
    | _ => simp [TypeTree.isEqual, TypeTree.plain]
  | array base _ =>
    cases u with
    | array other _ => simpa [TypeTree.isEqual, TypeTree.plain] using base.is_equal_iff other
    | _ => simp [TypeTree.isEqual, TypeTree.plain]
  | struct _ members fields _ =>
    cases u with
    | struct _ others fields' _ =>
      simp only [TypeTree.isEqual, TypeTree.plain, Bool.and_eq_true, TypeTree.struct.injEq,
        FieldTree.are_equal_iff fields fields', MemberTree.are_equal_iff members others]
      grind
    | _ => simp [TypeTree.isEqual, TypeTree.plain]
  | enum _ values _ =>
    cases u with
    | enum _ others _ =>
      simpa [TypeTree.isEqual, TypeTree.plain] using ValueTree.are_equal_iff values others
    | _ => simp [TypeTree.isEqual, TypeTree.plain]
termination_by structural t

theorem FieldTree.is_equal_iff (f g : FieldTree) : f.isEqual g = true ↔ f.plain = g.plain := by
  cases f with
  | mk _ type _ notes _ =>
    cases g with
    | mk _ other _ others _ =>
      simp only [FieldTree.isEqual, FieldTree.plain, Bool.and_eq_true, beq_iff_eq,
        type.is_equal_iff other, FieldTree.mk.injEq, annotations_eq_iff]
      grind
termination_by structural f

theorem MemberTree.is_equal_iff (m n : MemberTree) : m.isEqual n = true ↔ m.plain = n.plain := by
  cases m with
  | field f =>
    cases n with
    | field g => simpa [MemberTree.isEqual, MemberTree.plain] using f.is_equal_iff g
    | spread => simp [MemberTree.isEqual, MemberTree.plain]
  | spread => cases n <;> simp [MemberTree.isEqual, MemberTree.plain]
termination_by structural m

theorem ValueTree.is_equal_iff (v w : ValueTree) : v.isEqual w = true ↔ v.plain = w.plain := by
  cases v with
  | mk _ data notes _ =>
    cases w with
    | mk _ other others _ =>
      simp only [ValueTree.isEqual, ValueTree.plain, Bool.and_eq_true, beq_iff_eq,
        ValueTree.data_equal_iff data other, ValueTree.mk.injEq, annotations_eq_iff]
      grind
termination_by structural v

theorem ValueTree.data_equal_iff (a b : Option TypeTree) :
    ValueTree.dataEqual a b = true ↔ ValueTree.plainData a = ValueTree.plainData b := by
  cases a with
  | none => cases b <;> simp [ValueTree.dataEqual, ValueTree.plainData]
  | some data =>
    cases b with
    | none => simp [ValueTree.dataEqual, ValueTree.plainData]
    | some other => simpa [ValueTree.dataEqual, ValueTree.plainData] using data.is_equal_iff other
termination_by structural a

theorem FieldTree.are_equal_iff (fs gs : List FieldTree) :
    FieldTree.areEqual fs gs = true ↔ FieldTree.plains fs = FieldTree.plains gs := by
  cases fs with
  | nil => cases gs <;> simp [FieldTree.areEqual, FieldTree.plains]
  | cons f fs =>
    cases gs with
    | nil => simp [FieldTree.areEqual, FieldTree.plains]
    | cons g gs =>
      simp [FieldTree.areEqual, FieldTree.plains, f.is_equal_iff g, FieldTree.are_equal_iff fs gs]
termination_by structural fs

theorem MemberTree.are_equal_iff (ms ns : List MemberTree) :
    MemberTree.areEqual ms ns = true ↔ MemberTree.plains ms = MemberTree.plains ns := by
  cases ms with
  | nil => cases ns <;> simp [MemberTree.areEqual, MemberTree.plains]
  | cons m ms =>
    cases ns with
    | nil => simp [MemberTree.areEqual, MemberTree.plains]
    | cons n ns =>
      simp [MemberTree.areEqual, MemberTree.plains, m.is_equal_iff n,
        MemberTree.are_equal_iff ms ns]
termination_by structural ms

theorem ValueTree.are_equal_iff (vs ws : List ValueTree) :
    ValueTree.areEqual vs ws = true ↔ ValueTree.plains vs = ValueTree.plains ws := by
  cases vs with
  | nil => cases ws <;> simp [ValueTree.areEqual, ValueTree.plains]
  | cons v vs =>
    cases ws with
    | nil => simp [ValueTree.areEqual, ValueTree.plains]
    | cons w ws =>
      simp [ValueTree.areEqual, ValueTree.plains, v.is_equal_iff w, ValueTree.are_equal_iff vs ws]
termination_by structural vs

end

theorem FieldTree.plains_eq_map (fs : List FieldTree) : FieldTree.plains fs = fs.map FieldTree.plain := by
  induction fs with
  | nil => rfl
  | cons f fs ih => simp [FieldTree.plains, ih]

theorem MemberTree.plains_eq_map (ms : List MemberTree) :
    MemberTree.plains ms = ms.map MemberTree.plain := by
  induction ms with
  | nil => rfl
  | cons m ms ih => simp [MemberTree.plains, ih]

theorem ValueTree.plains_eq_map (vs : List ValueTree) :
    ValueTree.plains vs = vs.map ValueTree.plain := by
  induction vs with
  | nil => rfl
  | cons v vs ih => simp [ValueTree.plains, ih]

end ApiSchema
