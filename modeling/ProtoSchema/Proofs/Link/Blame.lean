import ProtoSchema.Proofs.Link.Accepts

/-!
Which rule a file breaks when it is not linked. The dependencies are checked first and by one rule
only, so a file whose dependencies have the names of its imports is never refused for them.
-/

namespace ProtoSchema

def LinkFault.OnDependencies : LinkFault → Prop
  | .unlinkedImport _ => True
  | .dependencyCount _ _ => True
  | _ => False

def Sparing {α : Type} (x : Except LinkFault α) : Prop :=
  ∀ e, x = .error e → ¬e.OnDependencies

namespace Sparing

variable {α β : Type}

theorem ok (a : α) : Sparing (.ok a) := by
  intro e he
  cases he

theorem error {e : LinkFault} (h : ¬e.OnDependencies) :
    Sparing (.error e : Except LinkFault α) := by
  intro e' he
  cases he
  exact h

theorem bind {x : Except LinkFault α} {f : α → Except LinkFault β} (hx : Sparing x)
    (hf : ∀ a, Sparing (f a)) : Sparing (x >>= f) := by
  cases x with
  | error e => exact error (hx e rfl)
  | ok a => exact hf a

theorem map {x : Except LinkFault α} {f : α → β} (hx : Sparing x) : Sparing (x.map f) := by
  cases x with
  | error e => exact error (hx e rfl)
  | ok a => exact ok (f a)

theorem ite {P : Prop} [Decidable P] {x y : Except LinkFault α} (hx : Sparing x) (hy : Sparing y) :
    Sparing (if P then x else y) := by
  split
  · exact hx
  · exact hy

theorem mapM {f : α → Except LinkFault β} (h : ∀ a, Sparing (f a)) (xs : List α) :
    Sparing (xs.mapM f) := by
  induction xs with
  | nil => exact ok []
  | cons x xs ih =>
    rw [List.mapM_cons]
    exact (h x).bind fun _ => ih.bind fun _ => ok _

theorem forM {f : α → Except LinkFault Unit} (h : ∀ a, Sparing (f a)) (xs : List α) :
    Sparing (xs.forM f) := by
  induction xs with
  | nil => exact ok ()
  | cons x xs ih => exact (h x).bind fun _ => ih

end Sparing

/-! ## Rules -/

namespace LinkFault

theorem sparing_checkNesting (file : File) : Sparing (checkNesting file) := by
  unfold checkNesting
  split
  · exact .error id
  · exact .ok ()

theorem sparing_checkNames (file : File) (visible : List LinkedFile) :
    Sparing (checkNames file visible) := by
  unfold checkNames
  split
  · exact .error id
  · dsimp only
    split
    · exact .error id
    · exact .ok ()

theorem sparing_checkNumber (place : String) (f : Field) : Sparing (checkNumber place f) :=
  .ite (.error id) (.ite (.error id) (.ok ()))

theorem sparing_checkFields (message : String) (seen fields : List Field) :
    Sparing (checkFields message seen fields) := by
  induction fields generalizing seen with
  | nil => exact .ok ()
  | cons f fs ih =>
    rw [checkFields]
    refine (sparing_checkNumber message f).bind fun _ => ?_
    split
    · exact .ite (.error id) (.error id)
    · exact .ite (.error id) (ih _)

theorem sparing_checkEnum (dialect : Dialect) (place : String) (e : Enum) :
    Sparing (checkEnum dialect place e) := by
  unfold checkEnum
  split
  · exact .error id
  · exact .ite (.error id) (.ok ())

end LinkFault

/-! ## References -/

variable (scope : Scope) (place name : String) (referrer : Referrer)

theorem Scope.sparing_message : Sparing (scope.message place name referrer) := by
  unfold Scope.message
  split
  · exact .ite (.ok _) (.error id)
  · exact .error id

theorem Scope.sparing_fieldType : Sparing (scope.fieldType place name referrer) := by
  unfold Scope.fieldType
  split
  · split
    · exact .ok _
    · exact .ok _
    · exact .error id
  · exact .error id

namespace Field

variable (scope : Scope) (place : String) (f : Field)

theorem sparing_link : Sparing (f.link scope place) := by
  have hresolve : Sparing (f.resolve scope place) := by
    unfold resolve
    dsimp only
    split
    · exact .ok f
    · exact .error id
    · exact (scope.sparing_fieldType _ _ _).map
  refine hresolve.bind fun g => ?_
  dsimp only
  split
  · exact .bind (.error id) fun _ => .ok _
  · exact .ok _

theorem sparing_linkExtension : Sparing (f.linkExtension scope place) :=
  (LinkFault.sparing_checkNumber place f).bind fun _ =>
    (scope.sparing_message _ _ _).bind fun _ => sparing_link scope place _

end Field

namespace Message

variable (scope : Scope) (dialect : Dialect)

mutual

theorem sparing_link (place : String) : ∀ m : Message, Sparing (m.link scope dialect place)
  | ⟨name, fields, extensions, nested, enums, _, _, _, _, _⟩ => by
    rw [link]
    refine (LinkFault.sparing_checkFields _ _ _).bind fun _ => ?_
    refine (Sparing.mapM (Field.sparing_link scope _) fields).bind fun _ => ?_
    refine (Sparing.mapM (Field.sparing_linkExtension scope _) extensions).bind fun _ => ?_
    refine (sparing_linkAll _ nested).bind fun _ => ?_
    exact (Sparing.forM (LinkFault.sparing_checkEnum dialect _) enums).bind fun _ => .ok _

theorem sparing_linkAll (place : String) :
    ∀ ms : List Message, Sparing (linkAll scope dialect place ms)
  | [] => .ok []
  | m :: ms => by
    rw [linkAll]
    exact (sparing_link place m).bind fun _ => (sparing_linkAll place ms).bind fun _ => .ok _

end

end Message

theorem Service.sparing_link (s : Service) : Sparing (s.link scope place) := by
  have hmethod : ∀ m : Method, Sparing (m.link scope place (Name.qualify place s.name)) :=
    fun m => (scope.sparing_message _ _ _).bind fun _ =>
      (scope.sparing_message _ _ _).bind fun _ => .ok _
  exact (Sparing.mapM hmethod s.methods).bind fun _ => .ok _

theorem File.sparing_resolve (file : File) : Sparing (file.resolve scope) := by
  refine (Message.sparing_linkAll scope _ _ _).bind fun _ => ?_
  refine (Sparing.forM (LinkFault.sparing_checkEnum _ _) _).bind fun _ => ?_
  refine (Sparing.mapM (Field.sparing_linkExtension scope _) _).bind fun _ => ?_
  exact (Sparing.mapM (Service.sparing_link scope _) _).bind fun _ => .ok _

/-- Dependencies of the imported names are never to blame. -/
theorem not_onDependencies_of_link {file : File} {dependencies : List LinkedFile} {e : LinkError}
    (h : dependencies.map LinkedFile.name = file.imports)
    (he : link file dependencies = .error e) : ¬e.fault.OnDependencies := by
  have hlinked : Sparing (file.linked dependencies) := by
    rw [File.linked, LinkFault.checkDependencies_eq_ok_iff.mpr h]
    refine (LinkFault.sparing_checkNesting file).bind fun _ => ?_
    refine (LinkFault.sparing_checkNames file _).bind fun _ => ?_
    exact (File.sparing_resolve _ file).bind fun _ => .ok _
  rw [link] at he
  cases hrun : file.linked dependencies with
  | ok l =>
    rw [hrun] at he
    cases he
  | error fault =>
    rw [hrun] at he
    cases he
    exact hlinked fault hrun

end ProtoSchema
